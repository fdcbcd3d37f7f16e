import MapChain.Config.Extends

/-!
# Loading ends

Loading follows references that may lead anywhere, also back, and a path gets longer with each
relative reference. It ends because a document is marked before its references are followed, and
only a file that is not marked can be read further: with every level fewer files remain.

## Layers

- **Runs**: `Run` lists what loading can do, and `run_of_loadWithin` finds every ending by it.
- **Marks**: `Run.marks_eq`, a document that is loaded leaves the marks as they were.
- **Ending**: `exists_loadWithin`, by the number of files that are not marked.
- **Depth**: with `Run.loadWithin` the depth is forgotten, and `loadFrom_eq_some_iff` says how
  loading ends by runs alone.
-/

namespace MapChain.Config

/-! ## Runs -/

/-- A path leads to a document that can be read, and the document tells what it extends. -/
structure Opens (fs : FileSystem) (p : Path) (document : Fields) (references : List Json) :
    Prop where
  read : readDocument fs p = .ok document
  extended : references? document = some references

mutual

/-- What loading a document can do: from the marks that are set to its result and the marks at its
end. -/
inductive Run (fs : FileSystem) :
    List Path → Path → Except ConfigError Fields → List Path → Prop where
  | circular {marks p} (hmark : markOf fs p ∈ marks) :
      Run fs marks p (.error (.circularExtends p)) marks
  | unread {marks p e} (hmark : markOf fs p ∉ marks) (hread : readDocument fs p = .error e) :
      Run fs marks p (.error e) (markOf fs p :: marks)
  | badExtends {marks p document} (hmark : markOf fs p ∉ marks)
      (hread : readDocument fs p = .ok document) (hextends : references? document = none) :
      Run fs marks p (.error (.parse p .badExtends)) (markOf fs p :: marks)
  | failed {marks p document references e marks'} (hmark : markOf fs p ∉ marks)
      (hopens : Opens fs p document references)
      (hbases : RunBases fs (markOf fs p :: marks) p references [] (.error e) marks') :
      Run fs marks p (.error e) marks'
  | loaded {marks p document references base marks'} (hmark : markOf fs p ∉ marks)
      (hopens : Opens fs p document references)
      (hbases : RunBases fs (markOf fs p :: marks) p references [] (.ok base) marks') :
      Run fs marks p (.ok (mergeDocuments base (document.erase extendsMember))) marks'.tail

/-- What loading references can do, with what is merged before. -/
inductive RunBases (fs : FileSystem) :
    List Path → Path → List Json → Fields → Except ConfigError Fields → List Path → Prop where
  | nil {marks p merged} : RunBases fs marks p [] merged (.ok merged) marks
  | noText {marks p reference references merged} (hreference : reference.string? = none) :
      RunBases fs marks p (reference :: references) merged (.error (.parse p .badExtends)) marks
  | unresolved {marks p text references merged e}
      (hresolve : resolveReference fs text (directoryOf p) = .error e) :
      RunBases fs marks p (.string text :: references) merged (.error e) marks
  | failed {marks p text references merged base e marks'}
      (hresolve : resolveReference fs text (directoryOf p) = .ok base)
      (hbase : Run fs marks base (.error e) marks') :
      RunBases fs marks p (.string text :: references) merged (.error e) marks'
  | loaded {marks p text references merged base document result marks' marks''}
      (hresolve : resolveReference fs text (directoryOf p) = .ok base)
      (hbase : Run fs marks base (.ok document) marks')
      (hrest : RunBases fs marks' p references (mergeDocuments merged document) result marks'') :
      RunBases fs marks p (.string text :: references) merged result marks''

end

variable {fs : FileSystem} {marks marks' : List Path} {p : Path} {document : Fields}
  {loadBase : List Path → Path → Option Ending}

/-- References whose documents are loaded by runs are. -/
theorem runBases_of_loadBases
    (hrun : ∀ {marks p ending}, loadBase marks p = some ending →
      Run fs marks p ending.1 ending.2)
    {references : List Json} {merged : Fields} {ending : Ending}
    (h : loadBases loadBase fs marks p references merged = some ending) :
    RunBases fs marks p references merged ending.1 ending.2 := by
  induction references generalizing marks merged with
  | nil =>
    obtain rfl := Option.some.inj h
    exact .nil
  | cons reference references ih =>
    rw [loadBases.eq_def] at h
    split at h
    next heq => cases heq
    next text references' heq =>
      cases heq
      split at h
      next e hresolve =>
        obtain rfl := Option.some.inj h
        exact .unresolved hresolve
      next base hresolve =>
        obtain ⟨⟨result, marks'⟩, hbase, h⟩ := Option.bind_eq_some_iff.1 h
        cases result with
        | error e =>
          obtain rfl := Option.some.inj h
          exact .failed hresolve (hrun hbase)
        | ok document => exact .loaded hresolve (hrun hbase) (ih h)
    next reference' references' hreference heq =>
      cases heq
      obtain rfl := Option.some.inj h
      refine .noText ?_
      cases reference with
      | string text => exact absurd rfl (hreference text)
      | _ => rfl

/-- Every ending is that of a run. -/
theorem run_of_loadWithin {depth : Nat} {ending : Ending}
    (h : loadWithin fs depth marks p = some ending) : Run fs marks p ending.1 ending.2 := by
  induction depth generalizing marks p ending with
  | zero => cases h
  | succ depth ih =>
    rw [loadWithin] at h
    split at h
    next hmark =>
      obtain rfl := Option.some.inj h
      exact .circular hmark
    next hmark =>
      split at h
      next e hread =>
        obtain rfl := Option.some.inj h
        exact .unread hmark hread
      next document hread =>
        split at h
        next hextends =>
          obtain rfl := Option.some.inj h
          exact .badExtends hmark hread hextends
        next references hextends =>
          obtain ⟨⟨result, marks'⟩, hbases, rfl⟩ := Option.map_eq_some_iff.1 h
          have hbases := runBases_of_loadBases ih hbases
          cases result with
          | error e => exact .failed hmark ⟨hread, hextends⟩ hbases
          | ok base => exact .loaded hmark ⟨hread, hextends⟩ hbases

/-! ## Marks -/

mutual

/-- A document that is loaded leaves the marks as they were: its own is the last one that is still
set, and is taken away. -/
theorem Run.marks_eq : ∀ {marks p result marks'}, Run fs marks p result marks' →
    ∀ document, result = .ok document → marks' = marks
  | _, _, _, _, .loaded _ _ hbases, _, _ => by rw [hbases.marks_eq _ rfl, List.tail_cons]

/-- References that are loaded leave the marks as they were. -/
theorem RunBases.marks_eq : ∀ {marks p references merged result marks'},
    RunBases fs marks p references merged result marks' →
    ∀ document, result = .ok document → marks' = marks
  | _, _, _, _, _, _, .nil, _, _ => rfl
  | _, _, _, _, _, _, .loaded _ hbase hrest, _, h =>
    (hrest.marks_eq _ h).trans (hbase.marks_eq _ rfl)

end

/-! ## Ending -/

/-- A file is listed among the entries. -/
theorem mem_entries_of_contents? {l : Location} {bytes : ByteArray}
    (h : fs.contents? l = some bytes) : ∃ e ∈ fs.entries, e.1 = l := by
  unfold FileSystem.contents? FileSystem.lookup? at h
  by_cases hl : l = []
  · simp [hl] at h
  · rw [if_neg hl] at h
    cases hf : fs.entries.lookup l with
    | none => simp [hf] at h
    | some e =>
      obtain ⟨e', he', heq⟩ := List.lookup_isSome_iff.1 (by rw [hf]; rfl)
      exact ⟨e', he', (beq_iff_eq.1 heq).symm⟩

/-- A document that can be read is in a file, and is marked by the path of the file's location. -/
theorem exists_location_of_readDocument (h : readDocument fs p = .ok document) :
    ∃ l bytes, fs.resolve? p = some l ∧ fs.contents? l = some bytes ∧
      markOf fs p = FileSystem.pathOf l := by
  rw [readDocument] at h
  split at h
  next => cases h
  next bytes hbytes =>
    obtain ⟨l, hl, hcontents⟩ := Option.bind_eq_some_iff.1 hbytes
    refine ⟨l, bytes, hl, hcontents, ?_⟩
    rw [FileSystem.resolve?, Option.ite_none_right_eq_some] at hl
    rw [markOf, FileSystem.canonical?, hl.2]
    rfl

/-- Fewer entries remain once a document that can be read is marked. -/
theorem remaining_lt (hmark : markOf fs p ∉ marks) (h : readDocument fs p = .ok document) :
    remaining fs (markOf fs p :: marks) < remaining fs marks := by
  obtain ⟨l, bytes, -, hcontents, heq⟩ := exists_location_of_readDocument h
  obtain ⟨e, he, rfl⟩ := mem_entries_of_contents? hcontents
  rw [heq] at hmark ⊢
  -- The entry of the file is among those that have remained so far
  have hsplit : remaining fs (FileSystem.pathOf e.1 :: marks) =
      ((fs.entries.filter fun e' => !marks.contains (FileSystem.pathOf e'.1)).filter
        fun e' => FileSystem.pathOf e'.1 != FileSystem.pathOf e.1).length := by
    simp only [remaining, List.filter_filter, List.contains_cons, Bool.not_or, bne]
  rw [hsplit, remaining, List.length_filter_lt_length_iff_exists]
  exact ⟨e, List.mem_filter.mpr ⟨he, by simpa using hmark⟩, by simp⟩

/-- References are loaded to an end where every document is. -/
theorem exists_loadBases
    (hrun : ∀ {marks p ending}, loadBase marks p = some ending →
      Run fs marks p ending.1 ending.2)
    (h : ∀ base, ∃ ending, loadBase marks base = some ending) (p : Path) (references : List Json)
    (merged : Fields) :
    ∃ ending, loadBases loadBase fs marks p references merged = some ending := by
  induction references generalizing merged with
  | nil => exact ⟨_, rfl⟩
  | cons reference references ih =>
    cases reference with
    | string text =>
      cases hresolve : resolveReference fs text (directoryOf p) with
      | error e => exact ⟨_, by rw [loadBases, hresolve]⟩
      | ok base =>
        obtain ⟨⟨result, marks'⟩, hbase⟩ := h base
        cases result with
        | error e => exact ⟨(.error e, marks'), by simp [loadBases, hresolve, hbase]⟩
        | ok document =>
          -- The next references start from the same marks again
          obtain rfl := (hrun hbase).marks_eq document rfl
          obtain ⟨ending, hrest⟩ := ih (mergeDocuments merged document)
          exact ⟨ending, by simpa [loadBases, hresolve, hbase] using hrest⟩
    | _ => exact ⟨(.error (.parse p .badExtends), marks), rfl⟩

theorem loadWithin_of_opens {depth : Nat} {references : List Json} (hmark : markOf fs p ∉ marks)
    (h : Opens fs p document references) :
    loadWithin fs (depth + 1) marks p =
      (loadBases (loadWithin fs depth) fs (markOf fs p :: marks) p references []).map
        (layOver document) := by
  rw [loadWithin, if_neg hmark, h.read]
  simp only [h.extended]

/-- Loading ends within a depth of more than the files that are not marked. -/
theorem exists_loadWithin {depth : Nat} (h : remaining fs marks < depth) (p : Path) :
    ∃ ending, loadWithin fs depth marks p = some ending := by
  induction depth generalizing marks p with
  | zero => cases h
  | succ depth ih =>
    by_cases hmark : markOf fs p ∈ marks
    · exact ⟨_, by rw [loadWithin, if_pos hmark]⟩
    · cases hread : readDocument fs p with
      | error e => exact ⟨_, by rw [loadWithin, if_neg hmark, hread]⟩
      | ok document =>
        cases hextends : references? document with
        | none =>
          exact ⟨(.error (.parse p .badExtends), markOf fs p :: marks), by
            simp [loadWithin, hmark, hread, hextends]⟩
        | some references =>
          have hless := Nat.lt_of_lt_of_le (remaining_lt hmark hread) (Nat.lt_succ_iff.mp h)
          obtain ⟨ending, hbases⟩ := exists_loadBases run_of_loadWithin (ih hless) p references []
          exact ⟨_, by rw [loadWithin_of_opens hmark ⟨hread, hextends⟩, hbases, Option.map_some]⟩

/-! ## Depth -/

mutual

/-- What a run does, loading does within a depth of more than the files that are not marked. -/
theorem Run.loadWithin : ∀ {marks p result marks'}, Run fs marks p result marks' →
    ∀ {depth}, remaining fs marks ≤ depth →
      loadWithin fs (depth + 1) marks p = some (result, marks')
  | _, _, _, _, .circular hmark, _, _ => by rw [MapChain.Config.loadWithin, if_pos hmark]
  | _, _, _, _, .unread hmark hread, _, _ => by
    rw [MapChain.Config.loadWithin, if_neg hmark, hread]
  | _, _, _, _, .badExtends hmark hread hextends, _, _ => by
    rw [MapChain.Config.loadWithin, if_neg hmark, hread]
    simp only [hextends]
  | _, _, _, _, .failed hmark hopens hbases, _, h => by
    have hless := Nat.lt_of_lt_of_le (remaining_lt hmark hopens.read) h
    rw [loadWithin_of_opens hmark hopens, hbases.loadBases hless]
    rfl
  | _, _, _, _, .loaded hmark hopens hbases, _, h => by
    have hless := Nat.lt_of_lt_of_le (remaining_lt hmark hopens.read) h
    rw [loadWithin_of_opens hmark hopens, hbases.loadBases hless]
    rfl

theorem RunBases.loadBases : ∀ {marks p references merged result marks'},
    RunBases fs marks p references merged result marks' →
    ∀ {depth}, remaining fs marks < depth →
      loadBases (MapChain.Config.loadWithin fs depth) fs marks p references merged =
        some (result, marks')
  | _, _, _, _, _, _, .nil, _, _ => rfl
  | _, _, _, _, _, _, .noText hreference, _, _ => by
    rw [MapChain.Config.loadBases]
    rintro text rfl
    cases hreference
  | _, _, _, _, _, _, .unresolved hresolve, _, _ => by rw [MapChain.Config.loadBases, hresolve]
  | _, _, _, _, _, _, .failed hresolve hbase, depth + 1, h => by
    rw [MapChain.Config.loadBases, hresolve]
    simp only [hbase.loadWithin (Nat.lt_succ_iff.mp h), Option.bind_eq_bind, Option.bind_some]
  | _, _, _, _, _, _, .loaded hresolve hbase hrest, depth + 1, h => by
    rw [MapChain.Config.loadBases, hresolve]
    simp only [hbase.loadWithin (Nat.lt_succ_iff.mp h), Option.bind_eq_bind, Option.bind_some]
    obtain rfl := hbase.marks_eq _ rfl
    exact hrest.loadBases h

end

/-- **Loading ends as its run does.** -/
theorem loadFrom_eq_some_iff {result : Except ConfigError Fields} :
    loadFrom fs marks p = some (result, marks') ↔ Run fs marks p result marks' :=
  ⟨run_of_loadWithin, fun h => h.loadWithin (Nat.le_refl _)⟩

/-- **Loading ends**, whatever is marked. -/
theorem exists_loadFrom (fs : FileSystem) (marks : List Path) (p : Path) :
    ∃ ending, loadFrom fs marks p = some ending :=
  exists_loadWithin (Nat.lt_succ_self _) p

/-- More depth than there are files that are not marked changes nothing. -/
theorem loadWithin_eq_loadFrom {depth : Nat} (h : remaining fs marks < depth) (p : Path) :
    loadWithin fs depth marks p = loadFrom fs marks p := by
  obtain ⟨ending, hending⟩ := exists_loadWithin h p
  rw [hending, loadFrom_eq_some_iff.mpr (run_of_loadWithin hending)]

/-- Loads a document with all it extends. -/
def load (fs : FileSystem) (p : Path) : Except ConfigError Fields :=
  ((loadFrom fs [] p).get (Option.isSome_iff_exists.2 (exists_loadFrom fs [] p))).1

theorem load_eq_iff {result : Except ConfigError Fields} :
    load fs p = result ↔ ∃ marks, loadFrom fs [] p = some (result, marks) := by
  obtain ⟨⟨result', marks⟩, h⟩ := exists_loadFrom fs [] p
  simp [load, h]

end MapChain.Config
