import Mathlib.Data.List.Infix
import Mathlib.Data.List.TakeWhile
import MapChain.Proofs.Files.Walking

/-!
# The directories above a path

The directories above a path are told by its text, and lead where a walk along it has been before:
back along the trail of the walk, the last location first. On a trail that turns with `..` there are
locations that are not above its end. But every location above the end is on the trail, and the
nearer ones come first.

## Layers

- **Parts**: a directory above a path has all its parts but the last ones.
- **Trails**: `trail`, and `leads_ancestors`, where the directories above a path lead.
- **Locations above**: `mem_trail` and `mem_of_trail_eq`, what a trail passes through and when.
- **Canonical paths**: `ancestors_pathOf`, whose trail turns nowhere.
-/

namespace MapChain

/-! ## Parts -/

namespace Path

theorem partsOf_append (ps qs : List (List Char)) :
    partsOf (ps ++ qs) = partsOf ps ++ partsOf qs := by
  rw [partsOf, List.filter_append, List.map_append, ← partsOf, ← partsOf]

theorem partsOf_singleton {piece : List Char} (h : isVoid piece = false) :
    partsOf [piece] = [String.ofList piece] := by
  simp [partsOf, h]

/-- There are no more parts than characters. -/
theorem length_partsOf_pieces_le (text : List Char) :
    (partsOf (pieces text)).length ≤ text.length := by
  induction text with
  | nil => exact Nat.le_refl _
  | cons c text ih =>
    rw [pieces, List.length_cons]
    split
    next => exact Nat.le_succ_of_le ih
    next =>
      cases h : pieces text with
      | nil => exact absurd h (pieces_ne_nil text)
      | cons first others =>
        -- The first piece is longer by one character and may have been void before
        rw [h] at ih
        have hfirst : (partsOf [c :: first]).length ≤ 1 := by
          rw [partsOf, List.length_map]
          exact List.length_filter_le _ _
        have hcons (piece : List Char) := congrArg List.length (partsOf_append [piece] others)
        simp only [List.singleton_append, List.length_append] at hcons
        rw [hcons] at ih ⊢
        omega

/-- What is dropped at the end has no parts. -/
theorem partsOf_dropVoid (ps : List (List Char)) :
    partsOf (dropVoid ps.reverse).reverse = partsOf ps := by
  have hsplit : (dropVoid ps.reverse).reverse ++ (ps.reverse.takeWhile isVoid).reverse = ps := by
    rw [← List.reverse_append, dropVoid, List.takeWhile_append_dropWhile, List.reverse_reverse]
  have hvoid : partsOf (ps.reverse.takeWhile isVoid).reverse = [] := by
    rw [partsOf, List.map_eq_nil_iff, List.filter_eq_nil_iff]
    intro piece hpiece
    simp [List.mem_takeWhile_imp (List.mem_reverse.mp hpiece)]
  have happend := partsOf_append (dropVoid ps.reverse).reverse (ps.reverse.takeWhile isVoid).reverse
  rwa [hsplit, hvoid, List.append_nil, eq_comm] at happend

theorem dropVoid_subset (ps : List (List Char)) : (dropVoid ps.reverse).reverse ⊆ ps := by
  intro piece hpiece
  exact List.mem_reverse.mp ((List.dropWhile_suffix _).subset (List.mem_reverse.mp hpiece))

theorem exists_text_of_isAbsolute {p : Path} (habs : p.isAbsolute) :
    ∃ body, p.text.toList = separator :: body := by
  rw [isAbsolute, beq_iff_eq, List.head?_eq_some_iff] at habs
  exact habs

theorem parts_of_text {p : Path} {body : List Char} (h : p.text.toList = separator :: body) :
    p.parts = partsOf (pieces body) := by
  rw [parts, h]
  rfl

/-- The directory above an absolute path has all its parts but the last one. The root has none. -/
theorem parent?_cases {p : Path} (habs : p.isAbsolute) :
    (p.parent? = none ∧ p.parts = []) ∨
      ∃ q piece, p.parent? = some q ∧ q.isAbsolute ∧ p.parts = q.parts ++ [piece] := by
  obtain ⟨body, hbody⟩ := exists_text_of_isAbsolute habs
  have hsplit : p.split = ([separator], body) := by
    rw [split, hbody]
    rfl
  have hparts := partsOf_dropVoid (pieces body)
  have hsubset := dropVoid_subset (pieces body)
  rw [parts_of_text hbody, parent?, hsplit]
  dsimp only
  cases hdrop : dropVoid (pieces body).reverse with
  | nil =>
    rw [hdrop] at hparts
    exact .inl ⟨rfl, hparts.symm⟩
  | cons last rest =>
    rw [hdrop, List.reverse_cons] at hparts hsubset
    have hlast : isVoid last = false := by
      have hhead := List.head?_dropWhile_not isVoid (pieces body).reverse
      rw [← dropVoid, hdrop] at hhead
      simpa using hhead
    refine .inr ⟨_, String.ofList last, rfl, by simp [isAbsolute], ?_⟩
    have hrest := partsOf_dropVoid rest.reverse
    have hrest' := dropVoid_subset rest.reverse
    rw [List.reverse_reverse] at hrest hrest'
    rw [← hparts, partsOf_append, partsOf_singleton hlast, ← hrest,
      parts_of_text (by rw [String.toList_ofList, List.singleton_append])]
    generalize (dropVoid rest).reverse = first at hrest' ⊢
    -- The pieces before the last part are put together and cut again
    by_cases hfirst : first = []
    · subst hfirst
      rfl
    · rw [pieces_ofPieces hfirst]
      intro piece hpiece
      exact separator_notMem_of_mem_pieces (hsubset (List.mem_append_left _ (hrest' hpiece)))

end Path

namespace FileSystem

variable {fs : FileSystem}

theorem isVoid_iff {piece : List Char} :
    Path.isVoid piece ↔ String.ofList piece = "" ∨ String.ofList piece = "." := by
  simp [Path.isVoid, ← String.toList_inj]

/-- Pieces that are void add nothing to a walk that goes through them. -/
theorem walk?_partsOf {ps : List (List Char)} {l m : Location}
    (h : fs.walk? l (ps.map String.ofList) = some m) : fs.walk? l (Path.partsOf ps) = some m := by
  induction ps generalizing l with
  | nil => exact h
  | cons piece ps ih =>
    rw [List.map_cons, walk?_cons, Option.bind_eq_some_iff] at h
    obtain ⟨next, hstep, h⟩ := h
    by_cases hvoid : Path.isVoid piece
    · rw [step?_void (isVoid_iff.mp hvoid), Option.ite_none_right_eq_some] at hstep
      cases hstep.2
      simpa [Path.partsOf, hvoid] using ih h
    · have hparts : Path.partsOf (piece :: ps) = String.ofList piece :: Path.partsOf ps := by
        simp [Path.partsOf, hvoid]
      rw [hparts, walk?_cons, hstep]
      exact ih h

/-- A walk to a directory can go through void pieces. -/
theorem walk?_of_partsOf {ps : List (List Char)} {l m : Location}
    (h : fs.walk? l (Path.partsOf ps) = some m) (hm : fs.isDirectoryAt m) :
    fs.walk? l (ps.map String.ofList) = some m := by
  induction ps generalizing l with
  | nil => exact h
  | cons piece ps ih =>
    by_cases hvoid : Path.isVoid piece
    · have hparts : Path.partsOf (piece :: ps) = Path.partsOf ps := by simp [Path.partsOf, hvoid]
      rw [hparts] at h
      -- A void piece asks for a directory. The next part starts from one, and the end is one
      have hl : fs.isDirectoryAt l := by
        cases hrest : Path.partsOf ps with
        | nil =>
          rw [hrest] at h
          cases h
          exact hm
        | cons name names =>
          rw [hrest, walk?_cons, Option.bind_eq_some_iff] at h
          obtain ⟨next, hstep, -⟩ := h
          exact isDirectoryAt_of_step? hstep
      rw [List.map_cons, walk?_cons, step?_void (isVoid_iff.mp hvoid), if_pos hl]
      exact ih h
    · have hparts : Path.partsOf (piece :: ps) = String.ofList piece :: Path.partsOf ps := by
        simp [Path.partsOf, hvoid]
      rw [hparts, walk?_cons, Option.bind_eq_some_iff] at h
      obtain ⟨next, hstep, h⟩ := h
      rw [List.map_cons, walk?_cons, hstep]
      exact ih h

theorem text_ne_empty_of_isAbsolute {p : Path} (habs : p.isAbsolute) : p.text ≠ "" := by
  obtain ⟨body, hbody⟩ := Path.exists_text_of_isAbsolute habs
  rintro hempty
  rw [hempty] at hbody
  cases hbody

theorem destination?_of_isAbsolute {p : Path} (habs : p.isAbsolute) :
    fs.destination? p = fs.walk? [] (route p) := by
  rw [destination?_eq_walk? (text_ne_empty_of_isAbsolute habs), origin, if_pos habs]

/-- An absolute path leads where its parts lead from the root. -/
theorem walk?_parts {p : Path} (habs : p.isAbsolute) {l : Location}
    (h : fs.destination? p = some l) : fs.walk? [] p.parts = some l :=
  walk?_partsOf ((destination?_of_isAbsolute habs).symm.trans h)

theorem destination?_of_parts {p : Path} (habs : p.isAbsolute) {l : Location}
    (h : fs.walk? [] p.parts = some l) (hl : fs.isDirectoryAt l) : fs.destination? p = some l :=
  (destination?_of_isAbsolute habs).trans (walk?_of_partsOf h hl)

/-! ## Trails -/

/-- A location and those above it, nearest first. -/
def aboves (l : Location) : List Location := l.inits.reverse

theorem aboves_concat (l : Location) (name : String) :
    aboves (l ++ [name]) = (l ++ [name]) :: aboves l := by
  rw [aboves, List.inits_append]
  simp [aboves]

theorem mem_aboves {l m : Location} : m ∈ aboves l ↔ m <+: l := by
  rw [aboves, List.mem_reverse, List.mem_inits]

/-- Before a location above come only those that lie between. -/
theorem aboves_eq_append {l m : Location} (h : m <+: l) :
    ∃ between after, aboves l = between ++ m :: after ∧ ∀ r ∈ between, m <+: r ∧ m ≠ r := by
  induction l using List.reverseRecOn with
  | nil =>
    rw [List.prefix_nil.mp h]
    exact ⟨[], [], rfl, nofun⟩
  | append_singleton l name ih =>
    rw [aboves_concat]
    obtain rfl | hml := List.prefix_concat_iff.mp h
    · exact ⟨[], aboves l, rfl, nofun⟩
    · obtain ⟨between, after, heq, hbetween⟩ := ih hml
      refine ⟨(l ++ [name]) :: between, after, by rw [heq, List.cons_append], ?_⟩
      refine List.forall_mem_cons.mpr ⟨⟨h, ?_⟩, hbetween⟩
      rintro rfl
      exact absurd hml.length_le (by simp)

/-- The locations that a walk from the root passes through, the last one first. -/
def trail (fs : FileSystem) (parts : List String) : List Location :=
  (aboves parts).filterMap (fs.walk? [])

theorem trail_concat {parts : List String} {part : String} {l : Location}
    (h : fs.walk? [] (parts ++ [part]) = some l) :
    fs.trail (parts ++ [part]) = l :: fs.trail parts := by
  rw [trail, aboves_concat, List.filterMap_cons_some h, ← trail]

theorem walk?_concat_eq_some_iff {parts : List String} {part : String} {l : Location} :
    fs.walk? [] (parts ++ [part]) = some l ↔
      ∃ k, fs.walk? [] parts = some k ∧ fs.step? k part = some l := by
  rw [walk?_append, Option.bind_eq_some_iff]
  refine exists_congr fun k => and_congr_right fun _ => ?_
  rw [walk?_cons]
  cases fs.step? k part <;> rfl

/-- **The directories above an absolute path lead back along its trail.** -/
theorem leads_ancestorsWithin {n : Nat} {p : Path} (habs : p.isAbsolute) (hn : p.parts.length ≤ n)
    {l : Location} (h : fs.destination? p = some l) :
    List.Forall₂ (fun a m => fs.destination? a = some m) (Path.ancestorsWithin n p)
      (fs.trail p.parts) := by
  induction n generalizing p l with
  | zero =>
    have hparts := List.eq_nil_of_length_eq_zero (Nat.le_zero.mp hn)
    have hwalk := walk?_parts habs h
    rw [hparts] at hwalk ⊢
    cases hwalk
    exact .cons h .nil
  | succ n ih =>
    have hwalk := walk?_parts habs h
    obtain ⟨hparent, hparts⟩ | ⟨q, part, hparent, habs', hparts⟩ := Path.parent?_cases habs
    · rw [Path.ancestorsWithin, hparent]
      rw [hparts] at hwalk ⊢
      cases hwalk
      exact .cons h .nil
    · rw [Path.ancestorsWithin, hparent, hparts]
      rw [hparts] at hwalk hn
      -- The last step starts from where the directory above leads
      obtain ⟨k, hk, hstep⟩ := walk?_concat_eq_some_iff.mp hwalk
      have hq := destination?_of_parts habs' hk (isDirectoryAt_of_step? hstep)
      rw [trail_concat hwalk]
      rw [List.length_append, List.length_singleton] at hn
      exact .cons h (ih habs' (by omega) hq)

theorem leads_ancestors {p : Path} (habs : p.isAbsolute) {l : Location}
    (h : fs.destination? p = some l) :
    List.Forall₂ (fun a m => fs.destination? a = some m) p.ancestors (fs.trail p.parts) := by
  refine leads_ancestorsWithin habs ?_ h
  have hle := Path.length_partsOf_pieces_le p.text.toList
  rwa [String.length_toList] at hle

/-! ## Locations above -/

/-- One step leads to a location, and what is above the location is at or above where the step
starts. -/
theorem prefix_of_step? {k l r : Location} {part : String} (h : fs.step? k part = some l)
    (hr : r <+: l) (hne : r ≠ l) : r <+: k := by
  rw [step?] at h
  split at h
  next =>
    split at h
    next =>
      cases h
      exact hr
    next =>
      split at h
      next =>
        cases h
        exact hr.trans (List.dropLast_prefix k)
      next =>
        rw [Option.ite_none_right_eq_some] at h
        cases h.2
        obtain hr | hr := List.prefix_concat_iff.mp hr
        · exact absurd hr hne
        · exact hr
  next => cases h

/-- What is above the end of a trail is on the trail. -/
theorem mem_trail {parts : List String} {l r : Location} (h : fs.walk? [] parts = some l)
    (hr : r <+: l) : r ∈ fs.trail parts := by
  induction parts using List.reverseRecOn generalizing l with
  | nil =>
    cases h
    exact List.mem_singleton.mpr (List.prefix_nil.mp hr)
  | append_singleton parts part ih =>
    rw [trail_concat h]
    obtain ⟨k, hk, hstep⟩ := walk?_concat_eq_some_iff.mp h
    -- A step makes the location longer by one name at most
    by_cases hne : r = l
    · exact List.mem_cons.mpr (.inl hne)
    · exact List.mem_cons_of_mem _ (ih hk (prefix_of_step? hstep hr hne))

/-- Before a trail comes to a location above its end, it comes to those between the two. -/
theorem mem_of_trail_eq {parts : List String} {l m r : Location} {before after : List Location}
    (h : fs.walk? [] parts = some l) (htrail : fs.trail parts = before ++ m :: after)
    (hmr : m <+: r) (hne : m ≠ r) (hr : r <+: l) : r ∈ before := by
  induction parts using List.reverseRecOn generalizing l before with
  | nil =>
    cases h
    rw [List.prefix_nil.mp hr] at hmr hne
    exact absurd (List.prefix_nil.mp hmr) hne
  | append_singleton parts part ih =>
    rw [trail_concat h] at htrail
    obtain ⟨k, hk, hstep⟩ := walk?_concat_eq_some_iff.mp h
    cases before with
    | nil =>
      -- The trail begins with its end, and nothing above the end lies below it
      cases htrail
      exact absurd (hmr.eq_of_length_le hr.length_le) hne
    | cons first before =>
      obtain ⟨rfl, hrest⟩ := List.cons.inj htrail
      by_cases hfirst : r = l
      · exact List.mem_cons.mpr (.inl hfirst)
      · exact List.mem_cons_of_mem _ (ih hk hrest (prefix_of_step? hstep hr hfirst))

theorem separator_notMem_of_mem_parts {p : Path} {part : String} (h : part ∈ p.parts) :
    Path.separator ∉ part.toList := by
  obtain ⟨piece, hpiece, rfl⟩ := List.mem_map.mp h
  rw [String.toList_ofList]
  exact Path.separator_notMem_of_mem_pieces (List.mem_filter.mp hpiece).1

/-- A trail passes only through locations that are reached. -/
theorem reachable_of_mem_trail {p : Path} {m : Location} (h : m ∈ fs.trail p.parts) :
    fs.Reachable m := by
  obtain ⟨parts, hparts, hwalk⟩ := List.mem_filterMap.mp h
  refine reachable_nil.walk? (fun part hpart => ?_) hwalk
  exact separator_notMem_of_mem_parts ((mem_aboves.mp hparts).subset hpart)

/-! ## Canonical paths -/

/-- A walk that only goes into names ends where they say. -/
theorem eq_append_of_walk? {k l : Location} {names : List String} (h : fs.walk? k names = some l)
    (hnames : ∀ name ∈ names, IsStep name) : l = k ++ names := by
  induction names generalizing k with
  | nil =>
    cases h
    exact (List.append_nil _).symm
  | cons name names ih =>
    obtain ⟨hname, hrest⟩ := List.forall_mem_cons.mp hnames
    rw [walk?_cons, step?_name hname, Option.bind_eq_some_iff] at h
    obtain ⟨next, hnext, hwalk⟩ := h
    rw [Option.ite_none_right_eq_some] at hnext
    cases hnext.2
    rw [ih hwalk hrest, List.append_assoc, List.singleton_append]

/-- A part of a path that does not lead up is a name to go into. -/
theorem isStep_of_mem_parts {p : Path} {part : String} (h : part ∈ p.parts) (hne : part ≠ "..") :
    IsStep part := by
  refine ⟨?_, hne, separator_notMem_of_mem_parts h⟩
  obtain ⟨piece, hpiece, rfl⟩ := List.mem_map.mp h
  rw [← isVoid_iff]
  simpa using (List.mem_filter.mp hpiece).2

/-- The trail of a walk by the names of where it ends goes straight up. -/
theorem Reachable.trail {l : Location} (h : fs.Reachable l) : fs.trail l = aboves l := by
  induction l using List.reverseRecOn with
  | nil => rfl
  | append_singleton l name ih =>
    rw [trail_concat h.walk, aboves_concat, ih h.of_concat.1]

theorem isVoid_of_isStep {name : String} (h : IsStep name) : Path.isVoid name.toList = false := by
  rw [Bool.eq_false_iff, ne_eq, isVoid_iff, String.ofList_toList]
  exact h.ne_void

theorem dropVoid_of_isStep {l : Location} (h : ∀ name ∈ l, IsStep name) :
    Path.dropVoid (l.map String.toList).reverse = (l.map String.toList).reverse := by
  rw [Path.dropVoid, List.dropWhile_eq_self_iff]
  intro hlength
  have hmem := List.mem_reverse.mp (List.getElem_mem hlength)
  obtain ⟨name, hname, heq⟩ := List.mem_map.mp hmem
  rw [← heq, isVoid_of_isStep (h name hname)]
  exact Bool.false_ne_true

/-- Above the path of a location is the path of the location above. -/
theorem parent?_pathOf {l : Location} {name : String} (h : ∀ n ∈ l ++ [name], IsStep n) :
    (pathOf (l ++ [name])).parent? = some (pathOf l) := by
  have hsplit : (pathOf (l ++ [name])).split =
      ([Path.separator], Path.ofPieces ((l ++ [name]).map String.toList)) := by
    rw [Path.split, toList_text_pathOf]
    rfl
  have hl : ∀ n ∈ l, IsStep n := fun n hn => h n (List.mem_append_left _ hn)
  have hdrop := dropVoid_of_isStep h
  rw [List.map_append, List.reverse_append] at hdrop
  rw [Path.parent?, hsplit]
  dsimp only
  rw [pieces_ofPieces_names h (by simp), List.map_append, List.reverse_append, hdrop]
  simp only [List.map_cons, List.map_nil, List.reverse_singleton, List.singleton_append]
  rw [dropVoid_of_isStep hl, List.reverse_reverse, ← toList_text_pathOf, String.ofList_toList]

theorem parent?_pathOf_nil : (pathOf []).parent? = none := by decide

theorem parts_pathOf {l : Location} (h : ∀ n ∈ l, IsStep n) : (pathOf l).parts = l := by
  rw [Path.parts_of_text (toList_text_pathOf l)]
  by_cases hl : l = []
  · subst hl
    rfl
  · rw [pieces_ofPieces_names h hl, Path.partsOf, List.filter_eq_self.mpr, List.map_map]
    · simp [Function.comp_def]
    · exact List.forall_mem_map.mpr fun n hn => by rw [isVoid_of_isStep (h n hn)]; rfl

theorem ancestorsWithin_pathOf {n : Nat} {l : Location} (h : ∀ n ∈ l, IsStep n)
    (hn : l.length ≤ n) : Path.ancestorsWithin n (pathOf l) = (aboves l).map pathOf := by
  induction l using List.reverseRecOn generalizing n with
  | nil =>
    cases n with
    | zero => rfl
    | succ n =>
      rw [Path.ancestorsWithin, parent?_pathOf_nil]
      rfl
  | append_singleton l name ih =>
    have hl : ∀ n ∈ l, IsStep n := fun n hn => h n (List.mem_append_left _ hn)
    rw [List.length_append, List.length_singleton] at hn
    obtain ⟨n, rfl⟩ : ∃ n', n = n' + 1 := ⟨n - 1, by omega⟩
    rw [Path.ancestorsWithin, parent?_pathOf h, Option.map_some, Option.getD_some,
      ih hl (by omega), aboves_concat, List.map_cons]

/-- **Above the path of a location are the paths of the locations above**, nearest first. -/
theorem ancestors_pathOf {l : Location} (h : ∀ n ∈ l, IsStep n) :
    (pathOf l).ancestors = (aboves l).map pathOf := by
  refine ancestorsWithin_pathOf h ?_
  have hle := Path.length_partsOf_pieces_le (pathOf l).text.toList
  rw [← Path.parts, parts_pathOf h, String.length_toList] at hle
  exact hle

end FileSystem

end MapChain
