import Mathlib.Data.List.Nodup
import MapChain.Json.Value

/-!
# Members of objects

The members of an object that is read are in the order of their names, which differ, as in a sorted
map. Then a member that is listed is the one found by its name, setting members keeps the order, and
the names in order with the value of each name determine the list.
-/

namespace MapChain.Fields

/-- The names of members, in their order. -/
def names (members : Fields) : List String := members.map (·.1)

@[simp] theorem names_nil : names [] = [] := rfl

@[simp] theorem names_cons (n : String) (v : Json) (members : Fields) :
    names ((n, v) :: members) = n :: names members := rfl

theorem get?_cons (n : String) (v : Json) (members : Fields) (name : String) :
    get? ((n, v) :: members) name = if name = n then some v else get? members name :=
  Association.lookup_cons n v members name

@[simp] theorem get?_nil (name : String) : get? [] name = none := rfl

theorem get?_append (a b : Fields) (name : String) :
    get? (a ++ b) name = (get? a name).or (get? b name) := List.lookup_append

/-! ## Finding a member -/

theorem mem_of_get? {members : Fields} {name : String} {v : Json}
    (h : members.get? name = some v) : (name, v) ∈ members := by
  induction members with
  | nil => cases h
  | cons entry members ih =>
    obtain ⟨n, w⟩ := entry
    rw [get?_cons] at h
    split at h
    next heq =>
      cases h
      rw [heq]
      exact List.mem_cons_self
    next => exact List.mem_cons_of_mem _ (ih h)

theorem get?_eq_none_iff {members : Fields} {name : String} :
    members.get? name = none ↔ name ∉ members.names := by
  induction members with
  | nil => simp [get?]
  | cons entry members ih =>
    obtain ⟨n, w⟩ := entry
    rw [get?_cons, names_cons, List.mem_cons, not_or, ← ih]
    by_cases hn : name = n <;> simp [hn]

theorem isSome_get?_iff {members : Fields} {name : String} :
    (members.get? name).isSome ↔ name ∈ members.names := by
  rw [Option.isSome_iff_ne_none, ne_eq, get?_eq_none_iff, not_not]

/-- Where the names differ, a member that is listed is found. -/
theorem get?_of_mem {members : Fields} (hnodup : members.names.Nodup) {n : String} {v : Json}
    (h : (n, v) ∈ members) : members.get? n = some v := by
  induction members with
  | nil => cases h
  | cons entry members ih =>
    obtain ⟨m, w⟩ := entry
    rw [names_cons, List.nodup_cons] at hnodup
    rw [get?_cons]
    rcases List.mem_cons.mp h with heq | hmem
    · obtain ⟨rfl, rfl⟩ := Prod.mk.inj heq
      exact if_pos rfl
    · have hne : n ≠ m := by
        rintro rfl
        exact hnodup.1 (List.mem_map.mpr ⟨(n, v), hmem, rfl⟩)
      rw [if_neg hne, ih hnodup.2 hmem]

/-- Members with the same names in the same order are the same when each name has the same
value. -/
theorem eq_of_get?_eq {a b : Fields} (hnodup : a.names.Nodup) (hnames : a.names = b.names)
    (hget : ∀ name, a.get? name = b.get? name) : a = b := by
  induction a generalizing b with
  | nil => exact (List.map_eq_nil_iff.mp hnames.symm).symm
  | cons entry a ih =>
    obtain ⟨n, v⟩ := entry
    cases b with
    | nil => cases hnames
    | cons entry b =>
      obtain ⟨m, w⟩ := entry
      obtain ⟨rfl, hrest⟩ := List.cons.inj hnames
      have hvalue : v = w := by simpa [get?_cons] using hget n
      have hfresh := (List.nodup_cons.mp hnodup).1
      -- Neither of the two tails has the first name again
      have htail : ∀ name, get? a name = get? b name := by
        intro name
        by_cases hn : name = n
        · subst hn
          have hfresh' : name ∉ names b := fun h => hfresh (hrest ▸ h)
          rw [get?_eq_none_iff.mpr hfresh, get?_eq_none_iff.mpr hfresh']
        · simpa [get?_cons, hn] using hget name
      rw [hvalue, ih (List.nodup_cons.mp hnodup).2 hrest htail]

/-! ## Sorted members -/

/-- The members are in the order of their names, and no two have the same name. -/
def Sorted (members : Fields) : Prop := members.names.Pairwise (· < ·)

theorem Sorted.nodup {members : Fields} (h : members.Sorted) : members.names.Nodup := by
  apply h.imp
  rintro a b hlt rfl
  exact String.lt_irrefl a hlt

/-- The order of sorted members is determined by which names there are. -/
theorem Sorted.names_eq_of_perm {a b : Fields} (ha : a.Sorted) (hb : b.Sorted)
    (h : a.names.Perm b.names) : a.names = b.names :=
  h.eq_of_pairwise (fun _ _ _ _ hlt hlt' => absurd hlt' (String.lt_asymm hlt)) ha hb

/-- Setting a member that is there already keeps the names and their order. -/
theorem Sorted.names_insert {members : Fields} (h : members.Sorted) {name : String}
    (hmem : name ∈ members.names) (v : Json) : (members.insert name v).names = members.names := by
  induction members with
  | nil => cases hmem
  | cons entry members ih =>
    obtain ⟨n, w⟩ := entry
    have hcons := List.pairwise_cons.mp h
    rcases List.mem_cons.mp hmem with rfl | htail
    · rw [insert, if_neg (String.lt_irrefl _), if_pos rfl]
      rfl
    · -- The first name is less, so the member is set further on
      have hlt := hcons.1 name htail
      rw [insert, if_neg (String.lt_asymm hlt), if_neg fun heq => String.lt_irrefl _ (heq ▸ hlt),
        names_cons, names_cons, ih hcons.2 htail]

theorem mem_insert {members : Fields} {name : String} {v : Json} {m : String × Json}
    (h : m ∈ members.insert name v) : m = (name, v) ∨ m ∈ members := by
  induction members with
  | nil => exact .inl (List.mem_singleton.mp h)
  | cons entry members ih =>
    obtain ⟨n, w⟩ := entry
    rw [insert] at h
    split at h
    · exact List.mem_cons.mp h
    · split at h
      · rcases List.mem_cons.mp h with h | h
        · exact .inl h
        · exact .inr (List.mem_cons_of_mem _ h)
      · rcases List.mem_cons.mp h with h | h
        · exact .inr (List.mem_cons.mpr (.inl h))
        · exact (ih h).imp_right (List.mem_cons_of_mem _)

/-- Setting a member keeps the order. -/
theorem Sorted.insert {members : Fields} (h : members.Sorted) (name : String) (v : Json) :
    (members.insert name v).Sorted := by
  induction members with
  | nil => exact List.pairwise_singleton _ _
  | cons entry members ih =>
    obtain ⟨n, w⟩ := entry
    obtain ⟨hfirst, hrest⟩ := List.pairwise_cons.mp h
    rw [Fields.insert]
    split
    next hlt =>
      refine List.pairwise_cons.mpr ⟨fun m hm => ?_, h⟩
      rcases List.mem_cons.mp hm with rfl | hm
      · exact hlt
      · exact String.lt_trans hlt (hfirst m hm)
    next hnlt =>
      split
      next heq =>
        subst heq
        exact h
      next hne =>
        refine List.pairwise_cons.mpr ⟨fun m hm => ?_, ih hrest⟩
        obtain ⟨⟨m, u⟩, hmem, rfl⟩ := List.mem_map.mp hm
        rcases mem_insert hmem with heq | hmem
        · cases heq
          by_contra hnlt'
          exact hne (String.le_antisymm (String.not_lt.mp hnlt') (String.not_lt.mp hnlt))
        · exact hfirst m (List.mem_map.mpr ⟨(m, u), hmem, rfl⟩)

/-- Removing a member that is set leaves the others. -/
theorem erase_insert (fields : Fields) (name : String) (v : Json) :
    (fields.insert name v).erase name = fields.erase name := by
  induction fields with
  | nil => simp [insert, erase]
  | cons m fields ih =>
    obtain ⟨n, w⟩ := m
    rw [insert]
    split
    next => simp [erase]
    next =>
      split
      next h =>
        subst h
        simp [erase]
      next h =>
        rw [erase] at ih
        rw [erase, erase, List.filter_cons, List.filter_cons, ih, erase]

theorem mem_ofList {members : List (String × Json)} {m : String × Json}
    (h : m ∈ ofList members) : m ∈ members := by
  revert h
  refine List.foldlRecOn (motive := fun acc => m ∈ acc → m ∈ members) members _ nofun ?_
  intro acc hacc entry hentry h
  rcases mem_insert h with rfl | h
  · exact hentry
  · exact hacc h

theorem sorted_ofList (members : List (String × Json)) : (ofList members).Sorted :=
  List.foldlRecOn members _ List.Pairwise.nil fun _ hacc entry _ => hacc.insert entry.1 entry.2

theorem Sorted.erase {members : Fields} (h : members.Sorted) (name : String) :
    (members.erase name).Sorted := by
  rw [Sorted, names, List.pairwise_map] at h ⊢
  exact h.filter _

/-! ## Setting several members -/

/-- Members that are set one after another, each by its value so far: those that are not set stay.
-/
theorem get?_foldl_insert (value : String → Option Json → Json → Json) {members : Fields}
    (hnodup : members.names.Nodup) (base : Fields) (name : String) :
    get? (members.foldl (fun fields m => fields.insert m.1 (value m.1 (fields.get? m.1) m.2)) base)
        name =
      (members.get? name).elim (base.get? name) fun v => some (value name (base.get? name) v) := by
  induction members generalizing base with
  | nil => rfl
  | cons entry members ih =>
    obtain ⟨n, v⟩ := entry
    obtain ⟨hfresh, hrest⟩ := List.nodup_cons.mp hnodup
    rw [List.foldl_cons, ih hrest, get?_cons, get?_insert]
    by_cases hn : name = n
    · -- The member that is set now is not set again
      subst hn
      rw [get?_eq_none_iff.mpr hfresh, if_pos rfl, if_pos rfl]
      rfl
    · rw [if_neg hn, if_neg hn]

/-- Where the names differ, sorting members changes none of them. -/
theorem get?_ofList {members : Fields} (hnodup : members.names.Nodup) (name : String) :
    (ofList members).get? name = members.get? name := by
  refine (get?_foldl_insert (fun _ _ v => v) hnodup [] name).trans ?_
  cases members.get? name <;> rfl

end MapChain.Fields
