import MapChain.Proofs.Builder.RoundTrip
import MapChain.SourceMap.Identity

/-!
# The identity map of a text

What a scan of a text finds is mapped to itself, so a lookup at such a place answers with it. The
map is read back from its document like any other.

## Layers

- **Lines**: `tokenStarts_eq_flatMap` scans a text line by line.
- **Tokens**: `IsTokenStart` says where tokens start without a scan.
- **Lookup**: `ofDocument_identity` decodes the map, and `trace_of_mem_nearest` looks up a position
  in a map that leads places to themselves.
-/

namespace MapChain

namespace Identity

/-! ## Lines -/

theorem not_mem_of_mem_splitOn {α : Type} [BEq α] [LawfulBEq α] {a : α} {text line : List α}
    (h : line ∈ text.splitOn a) : a ∉ line := by
  induction text generalizing line with
  | nil =>
    rw [List.splitOn_nil, List.mem_singleton] at h
    rw [h]
    exact List.not_mem_nil
  | cons c text ih =>
    rw [List.splitOn_cons_eq_if_modifyHead] at h
    split at h
    next =>
      rcases List.mem_cons.mp h with rfl | h
      · exact List.not_mem_nil
      · exact ih h
    next hc =>
      -- The character joins the first line of the rest
      obtain ⟨first, others, hsplit⟩ :=
        List.exists_cons_of_ne_nil (List.splitOn_ne_nil a text)
      rw [hsplit, List.modifyHead_cons] at h
      rcases List.mem_cons.mp h with rfl | h
      · have hfirst : a ∉ first := ih (by rw [hsplit]; exact List.mem_cons_self)
        rw [List.mem_cons, not_or]
        exact ⟨fun heq => hc (by simp [heq]), hfirst⟩
      · exact ih (by rw [hsplit]; exact List.mem_cons_of_mem _ h)

/-- The scan at the start of a line. -/
def lineStart (line : Nat) : Scan := ⟨line, 0, false⟩

/-- A scan goes through its line, and then through each of the other lines from its start. -/
theorem tokenStarts_eq_append {s : Scan} {text first : List Char} {others : List (List Char)}
    (h : text.splitOn '\n' = first :: others) :
    tokenStarts s text = tokenStarts s first ++
      (others.zipIdx (s.line + 1)).flatMap fun (line, i) => tokenStarts (lineStart i) line := by
  induction text generalizing s first others with
  | nil =>
    obtain ⟨rfl, rfl⟩ := List.cons.inj h
    rfl
  | cons c text ih =>
    obtain ⟨first', others', hsplit⟩ :=
      List.exists_cons_of_ne_nil (List.splitOn_ne_nil '\n' text)
    rw [List.splitOn_cons_eq_if_modifyHead, hsplit] at h
    by_cases hc : c = '\n'
    · -- A line feed starts no token and goes to the next line
      subst hc
      rw [if_pos (by decide)] at h
      obtain ⟨rfl, rfl⟩ := List.cons.inj h
      have hnext : tokenStarts s ('\n' :: text) = tokenStarts (lineStart (s.line + 1)) text := rfl
      rw [hnext, ih hsplit, List.zipIdx_cons, List.flatMap_cons]
      rfl
    · rw [if_neg (by simpa using hc), List.modifyHead_cons] at h
      obtain ⟨rfl, rfl⟩ := List.cons.inj h
      have hline : (s.next c).line = s.line := by rw [Scan.next, if_neg hc]
      rw [tokenStarts, tokenStarts, ih hsplit, hline]
      split <;> rfl

/-- The tokens of a text are those of its lines. -/
theorem tokenStarts_eq_flatMap (line : Nat) (text : List Char) :
    tokenStarts (lineStart line) text =
      ((text.splitOn '\n').zipIdx line).flatMap fun (line, i) =>
        tokenStarts (lineStart i) line := by
  obtain ⟨first, others, hsplit⟩ := List.exists_cons_of_ne_nil (List.splitOn_ne_nil '\n' text)
  rw [tokenStarts_eq_append hsplit, hsplit, List.zipIdx_cons, List.flatMap_cons]
  rfl

/-! ## Tokens -/

/-- A position is the start of a token: on its line, counted from one, a run of characters that are
not blank stands between two blanks or the ends of the line, and as many units as its column stand
before the run. -/
def IsTokenStart (text : String) (p : Position) : Prop :=
  ∃ (i : Nat) (before token after : List Char),
    (text.toList.splitOn '\n')[i]? = some (before ++ token ++ after) ∧
      token ≠ [] ∧ (∀ c ∈ token, Text.isBlank c = false) ∧
      (∀ c ∈ before.getLast?, Text.isBlank c = true) ∧
      (∀ c ∈ after.head?, Text.isBlank c = true) ∧
      p.line.toNat = i + 1 ∧ p.column.toNat = Text.utf16Length before

theorem line_ne_zero_of_isTokenStart {text : String} {p : Position} (h : IsTokenStart text p) :
    p.line ≠ 0 := by
  obtain ⟨i, before, token, after, -, -, -, -, -, hp, -⟩ := h
  intro hzero
  rw [hzero] at hp
  exact absurd hp.symm (Nat.succ_ne_zero i)

/-! ## Lookup -/

/-- A mapping of a position to itself. -/
def mapping (source : String) (p : Position) : Mapping := ⟨p, some ⟨source, p, none⟩⟩

/-- The calls that build the identity map. -/
def calls (source text : String) : List MapBuilder.Call :=
  (tokenStarts .start text.toList).map (fun p => .add p (some (source, p)) none) ++
    [.setContent source text]

theorem identity_eq_run (source text : String) :
    MapBuilder.identity source text = MapBuilder.run none (calls source text) := by
  rw [MapBuilder.identity, calls, MapBuilder.run, List.foldl_append, List.foldl_map]
  rfl

theorem filterMap_mapping?_calls (source text : String) :
    (calls source text).filterMap MapBuilder.Call.mapping? =
      (tokenStarts .start text.toList).map fun p => mapping source p.counted := by
  rw [calls, List.filterMap_append, List.filterMap_map, ← List.filterMap_eq_map]
  exact List.append_nil _

theorem sourceTable_calls (source text : String) :
    MapBuilder.sourceTable (calls source text) = [source] := by
  apply MapBuilder.table_eq_singleton
  · intro s hs
    obtain ⟨c, hc, hsource⟩ := List.mem_filterMap.mp hs
    rcases List.mem_append.mp hc with hc | hc
    · obtain ⟨p, -, rfl⟩ := List.mem_map.mp hc
      cases hsource
      rfl
    · obtain rfl := List.mem_singleton.mp hc
      cases hsource
      rfl
  · exact List.mem_filterMap.mpr ⟨.setContent source text, by simp [calls], rfl⟩

theorem nameTable_calls (source text : String) : MapBuilder.nameTable (calls source text) = [] := by
  have hnames : (calls source text).filterMap MapBuilder.Call.name? = [] := by
    rw [calls, List.filterMap_append, List.filterMap_map, List.append_eq_nil_iff,
      List.filterMap_eq_nil_iff]
    exact ⟨fun p _ => rfl, rfl⟩
  rw [MapBuilder.nameTable, hnames, MapBuilder.table_nil]

theorem lastText_calls (source text : String) :
    MapBuilder.lastText (calls source text) source = some text := by
  rw [calls, MapBuilder.lastText_append_singleton, MapBuilder.Call.text?, if_pos rfl]
  rfl

/-- The tables of the calls are small. -/
theorem tables_le (source text : String) :
    (MapBuilder.sourceTable (calls source text)).length ≤ UInt32.size ∧
      (MapBuilder.nameTable (calls source text)).length ≤ UInt32.size := by
  rw [sourceTable_calls, nameTable_calls]
  exact ⟨Nat.le_of_ble_eq_true rfl, Nat.zero_le _⟩

theorem pendingMappings_calls (source text : String) :
    MapBuilder.pendingMappings (calls source text) =
      (tokenStarts .start text.toList).map fun p => ⟨p, some (0, p), none⟩ := by
  have hadd : ∀ p, MapBuilder.Call.pending? [source] [] (.add p (some (source, p)) none) =
      some ⟨p, some (0, p), none⟩ := fun p => by simp [MapBuilder.Call.pending?]
  rw [MapBuilder.pendingMappings, sourceTable_calls, nameTable_calls, calls,
    List.filterMap_append, List.filterMap_map, ← List.filterMap_eq_map]
  exact (List.append_nil _).trans (List.filterMap_congr fun p _ => hadd p)

/-- The identity map is decoded into a mapping for each token. -/
theorem ofDocument_identity (source text : String) :
    ∃ m, SourceMap.ofDocument (MapBuilder.identity source text).toDocument = .ok m ∧
      m.mappings.Perm ((tokenStarts .start text.toList).map fun p => mapping source p.counted) := by
  obtain ⟨hsources, hnames⟩ := tables_le source text
  rw [identity_eq_run, ← filterMap_mapping?_calls]
  exact MapBuilder.exists_mappings_perm none hsources hnames

theorem linesFit_identity (source text : String) :
    (MapBuilder.identity source text).toDocument.LinesFit := by
  rw [identity_eq_run]
  exact MapBuilder.linesFit_run none (calls source text)

/-- A map whose mappings lead to themselves leads a position to the nearest place. -/
theorem trace_of_mem_nearest {m : SourceMap}
    (hsorted : m.mappings.Pairwise fun a b => a.generated ≤ b.generated) {source : String}
    (hself : ∀ x ∈ m.mappings, x = mapping source x.generated) {p q : Position}
    (hq : mapping source q ∈ Lookup.nearest Mapping.generated m.mappings p) :
    m.trace p = some ⟨source, q, none⟩ := by
  obtain ⟨hnone, hdecided⟩ := SourceMap.deciding?_spec hsorted p
  cases hdeciding : m.deciding? p with
  | none =>
    have hreached := (Lookup.mem_nearest.mp hq).1
    rw [hnone.mp hdeciding] at hreached
    cases hreached
  | some x =>
    have hx := hdecided x hdeciding
    have hplace : x.generated = q := Lookup.place_eq_of_mem_nearest hx hq
    rw [SourceMap.trace, hdeciding, Option.bind_some, hself x (Lookup.mem_of_mem_nearest hx),
      hplace]
    rfl

/-- The place of a mapping is nearest to itself. -/
theorem trace_self {m : SourceMap}
    (hsorted : m.mappings.Pairwise fun a b => a.generated ≤ b.generated) {source : String}
    (hself : ∀ x ∈ m.mappings, x = mapping source x.generated) {p : Position}
    (hp : mapping source p ∈ m.mappings) : m.trace p = some ⟨source, p, none⟩ :=
  trace_of_mem_nearest hsorted hself (Lookup.mem_nearest.mpr
    ⟨Lookup.mem_reached.mpr ⟨hp, rfl, UInt32.le_refl _⟩,
      fun _ hb => (Lookup.mem_reached.mp hb).2.2⟩)

end Identity

end MapChain
