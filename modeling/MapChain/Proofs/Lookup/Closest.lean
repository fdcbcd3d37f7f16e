import Mathlib.Data.List.Find
import Mathlib.Data.Prod.Lex
import MapChain.SourceMap.Position

/-!
# The closest entry

What a lookup is meant to answer, without any order of the entries: of those on the line of a
position and not after it, the ones at the greatest column are nearest, and the one with the least
key among these is the closest.

## Layers

- **Definition**: `reached`, `nearest` and `closest?`, for entries of any type with a place and a key.
- **Existence**: there is a closest entry exactly when some entry is reached (`closest?_eq_none_iff`).
- **Order**: when place and key tell entries apart, their order does not matter (`closest?_perm`).
- **Transport**: a map that keeps places and the order of keys keeps the closest entry
  (`closest?_map`).
- **Sorted lists**: in a list sorted by place and key the closest entry is found by a walk
  (`walk?_eq_closest?`).
-/

namespace MapChain

/-! ## Positions -/

theorem Position.le_iff_column_le {p q : Position} (h : p.line = q.line) :
    p ≤ q ↔ p.column ≤ q.column := by
  rw [le_iff, UInt32.le_iff_toNat_le]
  constructor
  · rintro (hlt | ⟨-, hle⟩)
    · rw [h] at hlt
      exact absurd hlt (Nat.lt_irrefl _)
    · exact hle
  · intro hle
    exact .inr ⟨h, hle⟩

namespace Lookup

variable {α β κ : Type} [LinearOrder κ]

/-! ## Definition -/

/-- The entries on the line of a position that are not after it. -/
def reached (place : α → Position) (entries : List α) (p : Position) : List α :=
  entries.filter fun a => (place a).line = p.line ∧ (place a).column ≤ p.column

/-- Those of the reached entries that are at the greatest column. -/
def nearest (place : α → Position) (entries : List α) (p : Position) : List α :=
  (reached place entries p).filter fun a =>
    (reached place entries p).all fun b => (place b).column ≤ (place a).column

/-- The first of the nearest entries whose key is the least. -/
def closest? (place : α → Position) (key : α → κ) (entries : List α) (p : Position) : Option α :=
  (nearest place entries p).find? fun a => (nearest place entries p).all fun b => key a ≤ key b

theorem mem_reached {place : α → Position} {entries : List α} {p : Position} {a : α} :
    a ∈ reached place entries p ↔
      a ∈ entries ∧ (place a).line = p.line ∧ (place a).column ≤ p.column := by
  simp [reached]

theorem mem_nearest {place : α → Position} {entries : List α} {p : Position} {a : α} :
    a ∈ nearest place entries p ↔ a ∈ reached place entries p ∧
      ∀ b ∈ reached place entries p, (place b).column ≤ (place a).column := by
  simp [nearest]

/-- Nearest entries are at one place. -/
theorem place_eq_of_mem_nearest {place : α → Position} {entries : List α} {p : Position} {a b : α}
    (ha : a ∈ nearest place entries p) (hb : b ∈ nearest place entries p) : place a = place b := by
  obtain ⟨har, hamax⟩ := mem_nearest.mp ha
  obtain ⟨hbr, hbmax⟩ := mem_nearest.mp hb
  have hline : (place a).line = (place b).line :=
    (mem_reached.mp har).2.1.trans (mem_reached.mp hbr).2.1.symm
  exact Position.le_antisymm ((Position.le_iff_column_le hline).mpr (hbmax a har))
    ((Position.le_iff_column_le hline.symm).mpr (hamax b hbr))

/-! ## Existence -/

/-- A list that is not empty has an element with the least key. -/
theorem exists_least (key : α → κ) :
    ∀ {entries : List α}, entries ≠ [] → ∃ a ∈ entries, ∀ b ∈ entries, key a ≤ key b
  | [], h => absurd rfl h
  | [a], _ => ⟨a, by simp, by simp⟩
  | a :: b :: rest, _ => by
    obtain ⟨c, hc, hleast⟩ := exists_least key (List.cons_ne_nil b rest)
    -- Either the head is at most the least of the others, or that one stays the least
    by_cases hac : key a ≤ key c
    · refine ⟨a, by simp, ?_⟩
      intro d hd
      rcases List.mem_cons.mp hd with rfl | hd
      · exact le_refl _
      · exact hac.trans (hleast d hd)
    · refine ⟨c, List.mem_cons_of_mem a hc, ?_⟩
      intro d hd
      rcases List.mem_cons.mp hd with rfl | hd
      · exact (le_of_not_ge hac)
      · exact hleast d hd

/-- Some entry is nearest as soon as one is reached. -/
theorem nearest_ne_nil {place : α → Position} {entries : List α} {p : Position}
    (h : reached place entries p ≠ []) : nearest place entries p ≠ [] := by
  -- The greatest column has the least key in the dual order
  obtain ⟨a, ha, hmax⟩ := exists_least (fun a => OrderDual.toDual (place a).column.toNat) h
  exact List.ne_nil_of_mem (mem_nearest.mpr ⟨ha, fun b hb => hmax b hb⟩)

/-- There is a closest entry exactly when some entry is reached. -/
theorem closest?_eq_none_iff {place : α → Position} {key : α → κ} {entries : List α}
    {p : Position} : closest? place key entries p = none ↔ reached place entries p = [] := by
  constructor
  · intro h
    by_contra hne
    obtain ⟨a, ha, hleast⟩ := exists_least key (nearest_ne_nil hne)
    have := List.find?_eq_none.mp h a ha
    exact this (by simpa using hleast)
  · intro h
    simp [closest?, nearest, h]

theorem closest?_mem {place : α → Position} {key : α → κ} {entries : List α} {p : Position} {a : α}
    (h : closest? place key entries p = some a) :
    a ∈ nearest place entries p ∧ ∀ b ∈ nearest place entries p, key a ≤ key b :=
  ⟨List.mem_of_find?_eq_some h, by simpa using List.find?_some h⟩

theorem mem_of_mem_nearest {place : α → Position} {entries : List α} {p : Position} {a : α}
    (h : a ∈ nearest place entries p) : a ∈ entries :=
  (mem_reached.mp (mem_nearest.mp h).1).1

theorem mem_of_closest? {place : α → Position} {key : α → κ} {entries : List α} {p : Position}
    {a : α} (h : closest? place key entries p = some a) : a ∈ entries :=
  mem_of_mem_nearest (closest?_mem h).1

/-! ## Order -/

theorem mem_nearest_of_perm {place : α → Position} {entries entries' : List α} {p : Position}
    (h : entries.Perm entries') (a : α) :
    a ∈ nearest place entries p ↔ a ∈ nearest place entries' p := by
  simp only [mem_nearest, mem_reached, h.mem_iff]

/-- **Order independence**: where place and key tell entries apart, the closest entry does not
depend on the order in which the entries are listed. -/
theorem closest?_perm {place : α → Position} {key : α → κ} {entries entries' : List α}
    (h : entries.Perm entries')
    (hkey : ∀ a ∈ entries, ∀ b ∈ entries, place a = place b → key a = key b → a = b)
    (p : Position) : closest? place key entries p = closest? place key entries' p := by
  cases hc : closest? place key entries p with
  | none =>
    have hnil := closest?_eq_none_iff.mp hc
    refine (closest?_eq_none_iff.mpr ?_).symm
    rw [List.eq_nil_iff_forall_not_mem] at hnil ⊢
    intro a ha
    exact hnil a (by simpa only [mem_reached, h.mem_iff] using ha)
  | some a =>
    cases hc' : closest? place key entries' p with
    | none =>
      -- Impossible, since what is reached in one list is reached in the other
      have hnil := closest?_eq_none_iff.mp hc'
      have ha := (mem_nearest.mp (closest?_mem hc).1).1
      have : a ∈ reached place entries' p := by
        simpa only [mem_reached, h.mem_iff] using ha
      simp [hnil] at this
    | some b =>
      -- Each of the two is nearest in both lists, so they have the same key
      obtain ⟨ha, haleast⟩ := closest?_mem hc
      obtain ⟨hb', hbleast⟩ := closest?_mem hc'
      have hb := (mem_nearest_of_perm h b).mpr hb'
      have hkeys : key a = key b :=
        le_antisymm (haleast b hb) (hbleast a ((mem_nearest_of_perm h a).mp ha))
      rw [hkey a (mem_of_mem_nearest ha) b (mem_of_mem_nearest hb)
        (place_eq_of_mem_nearest ha hb) hkeys]

/-! ## Transport -/

theorem reached_map {place : α → Position} {place' : β → Position} {f : α → β} {entries : List α}
    (hplace : ∀ a ∈ entries, place' (f a) = place a) (p : Position) :
    reached place' (entries.map f) p = (reached place entries p).map f := by
  rw [reached, reached, List.filter_map]
  congr 1
  apply List.filter_congr
  intro a ha
  rw [Function.comp_apply, hplace a ha]

theorem nearest_map {place : α → Position} {place' : β → Position} {f : α → β} {entries : List α}
    (hplace : ∀ a ∈ entries, place' (f a) = place a) (p : Position) :
    nearest place' (entries.map f) p = (nearest place entries p).map f := by
  have hreached : ∀ a ∈ reached place entries p, place' (f a) = place a := fun a ha =>
    hplace a (mem_reached.mp ha).1
  rw [nearest, nearest, reached_map hplace, List.filter_map]
  congr 1
  apply List.filter_congr
  intro a ha
  rw [Bool.eq_iff_iff]
  simp only [Function.comp_apply, List.all_map, List.all_eq_true, decide_eq_true_eq]
  rw [hreached a ha]
  exact forall₂_congr fun b hb => by rw [hreached b hb]

/-- **Transport**: a map that keeps the places and the order of the keys keeps the closest entry. -/
theorem closest?_map {κ' : Type} [LinearOrder κ'] {place : α → Position} {place' : β → Position}
    {key : α → κ} {key' : β → κ'} {f : α → β} {entries : List α}
    (hplace : ∀ a ∈ entries, place' (f a) = place a)
    (hkey : ∀ a ∈ entries, ∀ b ∈ entries, key' (f a) ≤ key' (f b) ↔ key a ≤ key b)
    (p : Position) :
    closest? place' key' (entries.map f) p = (closest? place key entries p).map f := by
  unfold closest?
  rw [nearest_map hplace, List.find?_map]
  congr 1
  apply List.find?_congr
  intro a ha
  rw [Bool.eq_iff_iff]
  simp only [Function.comp_apply, List.all_map, List.all_eq_true, decide_eq_true_eq]
  exact forall₂_congr fun b hb => hkey a (mem_of_mem_nearest ha) b (mem_of_mem_nearest hb)

/-! ## Sorted lists -/

/-- Entries sorted by place and, at one place, by key. -/
def SortedBy (place : α → Position) (key : α → κ) (entries : List α) : Prop :=
  entries.Pairwise fun a b => place a ≤ place b ∧ (place a = place b → key a ≤ key b)

/-- Walks to the last entry that is not after a position, and back to the first one at its place. -/
def walk? (place : α → Position) (entries : List α) (p : Position) : Option α :=
  (entries.takeWhile (place · ≤ p)).getLast?.bind fun last =>
    if (place last).line = p.line then
      (entries.takeWhile (place · ≤ p)).find? (place · = place last)
    else none

theorem walk?_map {place : β → Position} {f : α → β} (entries : List α) (p : Position) :
    walk? place (entries.map f) p = (walk? (place ∘ f) entries p).map f := by
  simp only [walk?, List.takeWhile_map, List.getLast?_map, Function.comp_def]
  cases (entries.takeWhile fun a => place (f a) ≤ p).getLast? with
  | none => rfl
  | some last =>
    by_cases h : (place (f last)).line = p.line
    · simp [h, List.find?_map]
    · simp [h]

theorem mem_of_walk? {place : α → Position} {entries : List α} {p : Position} {a : α}
    (h : walk? place entries p = some a) : a ∈ entries := by
  obtain ⟨last, -, hfound⟩ := Option.bind_eq_some_iff.mp h
  split at hfound
  · exact List.takeWhile_subset _ (List.mem_of_find?_eq_some hfound)
  · cases hfound

/-- Where a test that fails once fails from there on, taking while it holds is filtering. -/
private theorem takeWhile_eq_filter_of_pairwise {q : α → Bool} :
    ∀ {l : List α}, l.Pairwise (fun a b => q b = true → q a = true) → l.takeWhile q = l.filter q
  | [], _ => rfl
  | a :: l, h => by
    obtain ⟨hhead, htail⟩ := List.pairwise_cons.mp h
    cases ha : q a with
    | true => simp [ha, takeWhile_eq_filter_of_pairwise htail]
    | false =>
      -- Nothing behind the first failure passes the test
      have hnone : ∀ b ∈ l, q b = false := by
        intro b hb
        by_contra hqb
        simp [hhead b hb (by simpa using hqb)] at ha
      have hfilter : l.filter q = [] := by simpa [List.filter_eq_nil_iff] using hnone
      simp [ha, hfilter]

private theorem find?_least_eq_head? {key : α → κ} :
    ∀ {l : List α}, l.Pairwise (fun a b => key a ≤ key b) →
      (l.find? fun a => l.all fun b => key a ≤ key b) = l.head?
  | [], _ => rfl
  | a :: l, h => by
    have hleast : ∀ b ∈ a :: l, key a ≤ key b := by
      intro b hb
      rcases List.mem_cons.mp hb with rfl | hb
      · exact le_refl _
      · exact (List.pairwise_cons.mp h).1 b hb
    rw [List.find?_cons_of_pos (by simpa using hleast), List.head?_cons]

private theorem place_le_of_getLast? {place : α → Position} {last : α} {l : List α}
    (hsorted : l.Pairwise fun a b => place a ≤ place b) (hlast : l.getLast? = some last) :
    ∀ a ∈ l, place a ≤ place last := by
  intro a ha
  obtain ⟨init, rfl⟩ := List.getLast?_eq_some_iff.mp hlast
  rcases List.mem_append.mp ha with hinit | hself
  · exact (List.pairwise_append.mp hsorted).2.2 a hinit last (by simp)
  · rw [List.mem_singleton.mp hself]
    exact Position.le_refl _

/-- Among entries in order the last one reached is nearest. -/
theorem mem_nearest_of_getLast? {place : α → Position} {entries : List α} {p : Position} {last : α}
    (hsorted : entries.Pairwise fun a b => place a ≤ place b)
    (hlast : (reached place entries p).getLast? = some last) : last ∈ nearest place entries p := by
  have hmem := List.mem_of_getLast? hlast
  refine mem_nearest.mpr ⟨hmem, fun a ha => ?_⟩
  have hline := (mem_reached.mp ha).2.1.trans (mem_reached.mp hmem).2.1.symm
  exact (Position.le_iff_column_le hline).mp
    (place_le_of_getLast? (hsorted.sublist List.filter_sublist) hlast a ha)

private theorem place_le_of_mem_reached {place : α → Position} {entries : List α} {p : Position}
    {a : α} (ha : a ∈ reached place entries p) : place a ≤ p := by
  obtain ⟨-, hline, hcolumn⟩ := mem_reached.mp ha
  exact (Position.le_iff_column_le hline).mpr hcolumn

/-- The nearest entries are those at the place of the last one passed, if it is on the line. -/
private theorem nearest_eq_filter {place : α → Position} {entries : List α} {p : Position}
    {last : α} (hreached : last ∈ reached place entries p)
    (hmax : ∀ a ∈ entries, place a ≤ p → place a ≤ place last) :
    nearest place entries p = entries.filter (place · = place last) := by
  obtain ⟨-, hline, hcolumn⟩ := mem_reached.mp hreached
  rw [nearest, reached, List.filter_filter]
  apply List.filter_congr
  intro a ha
  rw [Bool.eq_iff_iff]
  simp only [Bool.and_eq_true, List.all_eq_true, decide_eq_true_eq]
  constructor
  · intro h
    obtain ⟨hgreatest, haline, hacolumn⟩ := h
    have hle := (Position.le_iff_column_le haline).mpr hacolumn
    exact Position.le_antisymm (hmax a ha hle)
      ((Position.le_iff_column_le (hline.trans haline.symm)).mpr (hgreatest last hreached))
  · intro hplace
    rw [hplace]
    refine ⟨fun b hb => ?_, hline, hcolumn⟩
    have hbline := (mem_reached.mp hb).2.1.trans hline.symm
    exact (Position.le_iff_column_le hbline).mp
      (hmax b (mem_reached.mp hb).1 (place_le_of_mem_reached hb))

/-- Nothing is reached when the last entry passed is on an earlier line. -/
private theorem reached_eq_nil {place : α → Position} {entries : List α} {p : Position}
    {last : α} (hlast : place last ≤ p) (hline : (place last).line ≠ p.line)
    (hmax : ∀ a ∈ entries, place a ≤ p → place a ≤ place last) :
    reached place entries p = [] := by
  rw [List.eq_nil_iff_forall_not_mem]
  intro a ha
  have hle := hmax a (mem_reached.mp ha).1 (place_le_of_mem_reached ha)
  rw [Position.le_iff, (mem_reached.mp ha).2.1] at hle
  rw [Position.le_iff] at hlast
  rcases hlast with hlt | ⟨heq, -⟩
  · rcases hle with hgt | ⟨heq, -⟩
    · omega
    · exact hline heq.symm
  · exact hline heq

/-- **Walking is looking for the closest**, in a list sorted by place and key. -/
theorem walk?_eq_closest? {place : α → Position} {key : α → κ} {entries : List α}
    (hsorted : SortedBy place key entries) (p : Position) :
    walk? place entries p = closest? place key entries p := by
  have hplaces : entries.Pairwise fun a b => place a ≤ place b := hsorted.imp fun h => h.1
  -- Step 1: the entries passed are those at or before the position
  have hpassed : entries.takeWhile (place · ≤ p) = entries.filter (place · ≤ p) := by
    apply takeWhile_eq_filter_of_pairwise
    apply hplaces.imp
    intro a b hab hb
    simp only [decide_eq_true_eq] at hb ⊢
    exact Position.le_trans hab hb
  rw [walk?, hpassed]
  -- Step 2: the last of them decides
  cases hlast : (entries.filter (place · ≤ p)).getLast? with
  | none =>
    rw [Option.bind_none, eq_comm, closest?_eq_none_iff, List.eq_nil_iff_forall_not_mem]
    rw [List.getLast?_eq_none_iff, List.filter_eq_nil_iff] at hlast
    intro a ha
    exact hlast a (mem_reached.mp ha).1 (by simpa using place_le_of_mem_reached ha)
  | some last =>
    obtain ⟨hmem, hle⟩ := List.mem_filter.mp (List.mem_of_getLast? hlast)
    simp only [decide_eq_true_eq] at hle
    have hmax : ∀ a ∈ entries, place a ≤ p → place a ≤ place last := fun a ha hap =>
      place_le_of_getLast? (hplaces.sublist List.filter_sublist) hlast a
        (List.mem_filter.mpr ⟨ha, by simpa using hap⟩)
    rw [Option.bind_some]
    by_cases hline : (place last).line = p.line
    · -- On the line of the position: walking back finds the first entry at its place
      have hreached : last ∈ reached place entries p :=
        mem_reached.mpr ⟨hmem, hline, (Position.le_iff_column_le hline).mp hle⟩
      have hnearest := nearest_eq_filter hreached hmax
      -- Entries at one place are sorted by key, so the first of them is the least
      have hkeys : (nearest place entries p).Pairwise fun a b => key a ≤ key b := by
        rw [hnearest]
        apply (List.Pairwise.filter _ hsorted).imp_of_mem
        intro a b ha hb hab
        have hasame := (List.mem_filter.mp ha).2
        have hbsame := (List.mem_filter.mp hb).2
        simp only [decide_eq_true_eq] at hasame hbsame
        exact hab.2 (hasame.trans hbsame.symm)
      rw [if_pos hline, closest?, find?_least_eq_head? hkeys, hnearest, List.head?_filter,
        List.find?_filter]
      apply List.find?_congr
      intro a _
      rw [Bool.eq_iff_iff]
      simp only [decide_eq_true_eq]
      exact ⟨fun h => h.2, fun h => ⟨h ▸ hle, h⟩⟩
    · -- On an earlier line: nothing is reached
      rw [if_neg hline, closest?_eq_none_iff.mpr (reached_eq_nil hle hline hmax)]

end Lookup

end MapChain
