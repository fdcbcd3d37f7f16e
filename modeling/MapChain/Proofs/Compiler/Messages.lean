import MapChain.Compiler.Diagnostic

/-!
# Messages in full

A chain is written out headline by headline, each on a line of its own. The headlines come in
pre-order: that of a chain before those below it, and all that is below one chain before the next
chain of its level. A line is indented by how deep its headline stands.

## Layers

- **Places**: the place of a chain in another is the way down to it, by its index on each level.
  `preorder` lists the headlines with their places; `mem_preorder_iff` says which are listed, and
  `pairwise_places` in which order.
- **Lines**: `writeFrom_succ` writes a chain below others, by induction on chains and lists of them.

Main result: `flatten_preorder`.
-/

namespace MapChain

namespace MessageChain

/-! ## Places -/

/-- The headline of a chain. -/
def text : MessageChain → String
  | .node text _ => text

/-- The chains right below the headline. -/
def next : MessageChain → List MessageChain
  | .node _ next => next

/-- The chain at a place. -/
def at? : MessageChain → List Nat → Option MessageChain
  | c, [] => some c
  | c, i :: place => c.next[i]?.bind (·.at? place)

mutual

/-- The number of headlines in a chain. -/
def size : MessageChain → Nat
  | .node _ next => 1 + sizeOfAll next

/-- The number of headlines in chains. -/
def sizeOfAll : List MessageChain → Nat
  | [] => 0
  | c :: next => c.size + sizeOfAll next

end

mutual

/-- The places of all headlines, with the headlines, in pre-order. -/
def preorder : MessageChain → List (List Nat × String)
  | .node text next => ([], text) :: preorderFrom 0 next

/-- The same for chains of one level, of which the first has this index. -/
def preorderFrom (index : Nat) : List MessageChain → List (List Nat × String)
  | [] => []
  | c :: next =>
    c.preorder.map (fun (place, text) => (index :: place, text)) ++ preorderFrom (index + 1) next

end

theorem at?_cons (c : MessageChain) (i : Nat) (place : List Nat) :
    c.at? (i :: place) = c.next[i]?.bind (·.at? place) := rfl

theorem mem_preorderFrom_iff {next : List MessageChain} {index : Nat} {place : List Nat}
    {s : String} :
    (place, s) ∈ preorderFrom index next ↔
      ∃ i below c, place = (index + i) :: below ∧ next[i]? = some c ∧ (below, s) ∈ c.preorder := by
  induction next generalizing index with
  | nil => simp [preorderFrom]
  | cons c next ih =>
    rw [preorderFrom, List.mem_append, List.mem_map, ih]
    constructor
    · rintro (⟨⟨below, t⟩, hmem, heq⟩ | ⟨i, below, d, rfl, hd, hmem⟩)
      · cases heq
        exact ⟨0, below, c, rfl, rfl, hmem⟩
      · exact ⟨i + 1, below, d, by rw [Nat.add_right_comm, Nat.add_assoc], hd, hmem⟩
    · rintro ⟨i, below, d, rfl, hd, hmem⟩
      cases i with
      | zero =>
        cases hd
        exact .inl ⟨(below, s), hmem, rfl⟩
      | succ i => exact .inr ⟨i, below, d, by rw [Nat.add_right_comm, Nat.add_assoc], hd, hmem⟩

/-- The headlines that are listed are those at the places of the chain. -/
theorem mem_preorder_iff {c : MessageChain} {place : List Nat} {s : String} :
    (place, s) ∈ c.preorder ↔ ∃ d, c.at? place = some d ∧ d.text = s := by
  induction place generalizing c with
  | nil =>
    obtain ⟨headline, next⟩ := c
    simp [preorder, mem_preorderFrom_iff, at?, text, eq_comm]
  | cons i place ih =>
    obtain ⟨headline, next⟩ := c
    rw [preorder, List.mem_cons, mem_preorderFrom_iff, at?_cons]
    constructor
    · rintro (heq | ⟨j, below, d, heq, hd, hmem⟩)
      · cases heq
      · rw [Nat.zero_add, List.cons.injEq] at heq
        obtain ⟨rfl, rfl⟩ := heq
        obtain ⟨e, he, hs⟩ := ih.mp hmem
        exact ⟨e, by rw [MessageChain.next, hd, Option.bind_some, he], hs⟩
    · rintro ⟨e, he, hs⟩
      obtain ⟨d, hd, he⟩ := Option.bind_eq_some_iff.mp he
      exact .inr ⟨i, place, d, by rw [Nat.zero_add], hd, ih.mpr ⟨e, he, hs⟩⟩

mutual

/-- The places are listed in ascending order, a place before those that it is the beginning of. -/
theorem pairwise_preorder : ∀ c : MessageChain, c.preorder.Pairwise fun a b => a.1 < b.1
  | .node headline next => by
    rw [preorder, List.pairwise_cons]
    refine ⟨fun entry hmem => ?_, pairwise_preorderFrom 0 next⟩
    obtain ⟨i, below, d, hplace, -, -⟩ := mem_preorderFrom_iff.mp hmem
    rw [hplace]
    exact List.nil_lt_cons _ _

theorem pairwise_preorderFrom : ∀ (index : Nat) (next : List MessageChain),
    (preorderFrom index next).Pairwise fun a b => a.1 < b.1
  | _, [] => .nil
  | index, c :: next => by
    rw [preorderFrom, List.pairwise_append, List.pairwise_map]
    refine ⟨?_, pairwise_preorderFrom (index + 1) next, ?_⟩
    · exact (pairwise_preorder c).imp fun h => List.cons_lt_cons_self.mpr h
    · -- The chains after the first one have greater indices
      rintro entry hentry entry' hentry'
      obtain ⟨⟨below, s⟩, -, rfl⟩ := List.mem_map.mp hentry
      obtain ⟨i, below', d, hplace, -, -⟩ := mem_preorderFrom_iff.mp hentry'
      rw [hplace]
      exact List.cons_lt_cons_iff.mpr (.inl (by omega))

end

mutual

theorem length_preorder : ∀ c : MessageChain, c.preorder.length = c.size
  | .node _ next => by
    rw [preorder, List.length_cons, length_preorderFrom 0 next, size, Nat.add_comm]

theorem length_preorderFrom : ∀ (index : Nat) (next : List MessageChain),
    (preorderFrom index next).length = sizeOfAll next
  | _, [] => rfl
  | index, c :: next => by
    rw [preorderFrom, List.length_append, List.length_map, length_preorder c,
      length_preorderFrom (index + 1) next, sizeOfAll]

end

/-! ## Lines -/

/-- The line of a headline, indented by two spaces for each level above it. -/
def line (level : Nat) (headline : String) : String :=
  String.ofList (List.replicate (2 * level) ' ') ++ headline

/-- The lines of headlines at places below some level, each behind a line break. -/
def details (newLine : String) (level : Nat) (entries : List (List Nat × String)) : String :=
  String.join (entries.map fun (place, s) => newLine ++ line (level + place.length) s)

theorem details_append (newLine : String) (level : Nat) (a b : List (List Nat × String)) :
    details newLine level (a ++ b) = details newLine level a ++ details newLine level b := by
  rw [details, List.map_append, String.join_append]
  rfl

theorem details_map_cons (newLine : String) (level index : Nat)
    (entries : List (List Nat × String)) :
    details newLine level (entries.map fun (place, s) => (index :: place, s)) =
      details newLine (level + 1) entries := by
  rw [details, details, List.map_map]
  refine congrArg String.join (List.map_congr_left fun entry _ => ?_)
  simp only [Function.comp_apply, List.length_cons, Nat.add_assoc, Nat.add_comm 1]

/-- Lines with separators between them are the first line and the others, each behind a separator. -/
theorem intercalate_cons (separator first : String) (others : List String) :
    separator.intercalate (first :: others) =
      first ++ String.join (others.map (separator ++ ·)) := by
  induction others generalizing first with
  | nil => rw [String.intercalate_singleton, List.map_nil, String.join_nil, String.append_empty]
  | cons second others ih =>
    rw [String.intercalate_cons_cons, ih, List.map_cons, String.join_cons]
    simp only [String.append_assoc]

mutual

/-- A chain below others is written as the lines of its headlines, each behind a line break. -/
theorem writeFrom_succ (newLine : String) : ∀ (level : Nat) (c : MessageChain),
    c.writeFrom newLine (level + 1) = details newLine (level + 1) c.preorder
  | level, .node headline next => by
    rw [writeFrom, if_neg (Nat.succ_ne_zero level), writeAll_succ newLine (level + 1) 0 next,
      preorder]
    simp only [details, List.map_cons, String.join_cons, line, List.length_nil, Nat.add_zero,
      String.append_assoc]

theorem writeAll_succ (newLine : String) : ∀ (level index : Nat) (next : List MessageChain),
    writeAll newLine (level + 1) next = details newLine level (preorderFrom index next)
  | _, _, [] => rfl
  | level, index, c :: next => by
    rw [writeAll, writeFrom_succ newLine level c, writeAll_succ newLine level (index + 1) next,
      preorderFrom, details_append, details_map_cons]

end

/-- The first headline stands at the left, and nothing is written before it. -/
theorem writeFrom_zero (newLine headline : String) (next : List MessageChain) :
    writeFrom newLine 0 (.node headline next) =
      headline ++ details newLine 0 (preorderFrom 0 next) := by
  rw [writeFrom, if_pos rfl, writeAll_succ newLine 0 0 next, String.empty_append]

/-! ## Chains in full -/

/-- Entries are the headlines of a chain in pre-order: each stands in them with its place, and the
places ascend, so that a chain comes before what is below it, and what is below it before the next
chain of its level. -/
structure IsPreorder (c : MessageChain) (entries : List (List Nat × String)) : Prop where
  mem_iff : ∀ place s, (place, s) ∈ entries ↔ ∃ d, c.at? place = some d ∧ d.text = s
  ascending : entries.Pairwise fun a b => a.1 < b.1

theorem isPreorder_preorder (c : MessageChain) : c.IsPreorder c.preorder :=
  ⟨fun _ _ => mem_preorder_iff, pairwise_preorder c⟩

/-- **A chain in full** is its lines in pre-order with line breaks between them, each indented by two
spaces for each level that its headline is below the first. So the text begins with the first
headline, and there is one line break less than there are headlines. -/
theorem flatten_preorder (c : MessageChain) (newLine : String) :
    ∃ entries, c.IsPreorder entries ∧ entries.length = c.size ∧
      (DiagnosticMessage.chain c).flatten newLine =
        newLine.intercalate (entries.map fun (place, s) => line place.length s) ∧
      ∃ below, entries = ([], c.text) :: below ∧ below.length = c.size - 1 ∧
        (DiagnosticMessage.chain c).flatten newLine =
          c.text ++ String.join (below.map fun (place, s) => newLine ++ line place.length s) := by
  obtain ⟨headline, next⟩ := c
  have hwritten : (DiagnosticMessage.chain (.node headline next)).flatten newLine =
      headline ++ String.join
        ((preorderFrom 0 next).map fun (place, s) => newLine ++ line place.length s) := by
    rw [DiagnosticMessage.flatten, writeFrom_zero, details]
    simp only [Nat.zero_add]
  refine ⟨_, isPreorder_preorder _, length_preorder _, ?_, preorderFrom 0 next, rfl, ?_, hwritten⟩
  · rw [hwritten, preorder, List.map_cons, intercalate_cons, List.map_map]
    rfl
  · rw [length_preorderFrom, size, Nat.add_sub_cancel_left]

/-- Both details are below the headline, and what is below the first comes before the second. -/
example :
    (DiagnosticMessage.chain
      (.node "a" [.node "b" [.node "c" []], .node "d" []])).flatten "\n" =
      "a\n  b\n    c\n  d" := by
  decide +kernel

end MessageChain

end MapChain
