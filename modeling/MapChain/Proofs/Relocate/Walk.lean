import MapChain.Compose.Relocate
import MapChain.Proofs.Json.Shape
import MapChain.Proofs.Json.Sorted

/-!
# The walk that relocates a tree

The walk changes the tree while it reads it, so a point must not be read again after it was moved.
It is not, because a point is moved on behalf of one value, the node two steps above it, and every
value is visited once.

## Layers

- **Points**: `positionAt?` and `targetAt?`, the position at a path and where it comes from.
- **Moving a point**: `headAt?_movePoint`, all heads after one point was moved.
- **Moved points**: `Relocated` compares the tree of a walk with the tree at its start, when the
  points at some paths were moved; `Relocated.movePoint` moves one more.
- **Visits**: `Walk.Invariant`, kept by a step and so by a run; at its end `relocate_relocated`.
-/

namespace MapChain.Relocate

/-! ## Points -/

/-- The position of the point that a path leads to. -/
def positionAt? (tree : Json) (π : Json.Path) : Option Position :=
  ((tree.at? π).bind Json.fields?).bind position?

/-- Where the point that a path leads to comes from. -/
def targetAt? (map : SourceMap) (tree : Json) (π : Json.Path) : Option Position :=
  ((tree.at? π).bind Json.fields?).bind (target? map)

/-- A path leads to the line or the column of what another path leads to. -/
def IsCoordinate (ρ π : Json.Path) : Prop :=
  ρ = π ++ [.member "line"] ∨ ρ = π ++ [.member "column"]

theorem bind_fields?_eq_some_iff {v : Option Json} {members : Fields} :
    v.bind Json.fields? = some members ↔ v = some (.object members) := by
  rcases v with _ | v
  · simp
  · cases v <;> simp [Json.fields?]

theorem position?_eq_some_iff {members : Fields} {p : Position} :
    position? members = some p ↔ members.get? "line" = some (.ofUInt32 p.line) ∧
      members.get? "column" = some (.ofUInt32 p.column) := by
  obtain ⟨line, column⟩ := p
  simp only [position?, Option.bind_eq_bind, Option.pure_def, Option.bind_eq_some_iff,
    Json.uint32?_eq_some_iff, Option.some.injEq, Position.mk.injEq]
  constructor
  · rintro ⟨_, hline, _, rfl, _, hcolumn, _, rfl, rfl, rfl⟩
    exact ⟨hline, hcolumn⟩
  · rintro ⟨hline, hcolumn⟩
    exact ⟨_, hline, line, rfl, _, hcolumn, column, rfl, rfl, rfl⟩

theorem targetAt?_eq_bind (map : SourceMap) (tree : Json) (π : Json.Path) :
    targetAt? map tree π =
      (positionAt? tree π).bind fun p => (map.trace p).map (·.position) := by
  rw [targetAt?, positionAt?, Option.bind_assoc ((tree.at? π).bind Json.fields?)]
  rfl

theorem at?_append_member (tree : Json) (π : Json.Path) (name : String) :
    tree.at? (π ++ [.member name]) =
      ((tree.at? π).bind Json.fields?).bind fun members => Fields.get? members name := by
  rw [Json.at?_append, Option.bind_assoc]
  refine congrArg _ (funext fun v => ?_)
  rw [Json.at?_singleton]
  cases v <;> rfl

/-- A path leads to a point at some position when its line and its column are this position's. -/
theorem positionAt?_eq_some_iff {tree : Json} {π : Json.Path} {p : Position} :
    positionAt? tree π = some p ↔
      tree.headAt? (π ++ [.member "line"]) = some (.number (.ofUInt32 p.line)) ∧
        tree.headAt? (π ++ [.member "column"]) = some (.number (.ofUInt32 p.column)) := by
  rw [Json.headAt?_eq_number_iff, Json.headAt?_eq_number_iff, at?_append_member,
    at?_append_member, positionAt?]
  cases (tree.at? π).bind Json.fields? with
  | none => simp
  | some members => exact position?_eq_some_iff

theorem positionAt?_congr {tree tree' : Json} {π : Json.Path}
    (h : ∀ ρ, IsCoordinate ρ π → tree.headAt? ρ = tree'.headAt? ρ) :
    positionAt? tree π = positionAt? tree' π := by
  ext p
  rw [positionAt?_eq_some_iff, positionAt?_eq_some_iff, h _ (.inl rfl), h _ (.inr rfl)]

theorem IsCoordinate.eq {ρ π π' : Json.Path} (h : IsCoordinate ρ π) (h' : IsCoordinate ρ π') :
    π = π' := by
  rcases h with rfl | rfl <;> rcases h' with h' | h' <;> exact (List.append_inj' h' rfl).1

/-! ## Moving a point -/

/-- Setting a position sets the line and the column of a point and changes no other head. -/
theorem headAt?_setPosition {members : Fields} (hsorted : members.Sorted) {p : Position}
    (hp : position? members = some p) (o : Position) (σ : Json.Path) :
    (Json.object (setPosition o members)).headAt? σ =
      if σ = [.member "line"] then some (.number (.ofUInt32 o.line))
      else if σ = [.member "column"] then some (.number (.ofUInt32 o.column))
      else (Json.object members).headAt? σ := by
  obtain ⟨hline, hcolumn⟩ := position?_eq_some_iff.mp hp
  cases σ with
  | nil =>
    -- Both coordinates are there before, so the names of the point stay
    have hnames : (setPosition o members).names = members.names := by
      have hinsert := hsorted.names_insert (Fields.isSome_get?_iff.mp (by rw [hline]; rfl))
        (.ofUInt32 o.line)
      rw [setPosition, (hsorted.insert _ _).names_insert, hinsert]
      rw [hinsert]
      exact Fields.isSome_get?_iff.mp (by rw [hcolumn]; rfl)
    exact congrArg (fun names => some (Json.Head.object names)) hnames
  | cons s σ =>
    cases s with
    | item i => simp [Json.headAt?, Json.at?_cons, Json.child?]
    | member name =>
      -- A coordinate is a number, and there is nothing below it before or after
      have hnumber : ∀ n : UInt32, ((Json.ofUInt32 n).at? σ).map Json.head =
          if σ = [] then some (.number (.ofUInt32 n)) else none := by
        intro n
        cases σ with
        | nil => rfl
        | cons s σ => cases s <;> rfl
      simp only [Json.headAt?, Json.at?_cons, Json.child?, setPosition, Fields.get?_insert,
        List.cons.injEq, Json.Step.member.injEq]
      by_cases hnl : name = "line"
      · subst hnl
        by_cases hσ : σ = []
        · simp [hσ]
          rfl
        · simp [hline, hnumber, hσ]
      · by_cases hnc : name = "column"
        · subst hnc
          by_cases hσ : σ = []
          · simp [hσ]
            rfl
          · simp [hcolumn, hnumber, hσ]
        · simp [hnl, hnc]

namespace Walk

@[simp] theorem pending_movePoint (map : SourceMap) (w : Walk) (π : Json.Path) :
    (w.movePoint map π).pending = w.pending := by
  rw [movePoint]
  split
  · rfl
  · split <;> rfl

@[simp] theorem pending_movePoints (map : SourceMap) (w : Walk) (node : Json.Path) :
    (w.movePoints map node).pending = w.pending :=
  List.foldlRecOn (motive := fun w' => w'.pending = w.pending) _ _ rfl fun w' h π _ =>
    (pending_movePoint map w' π).trans h

theorem movePoint_of_none {map : SourceMap} {w : Walk} {π : Json.Path}
    (h : targetAt? map w.tree π = none) : w.movePoint map π = w := by
  rw [movePoint]
  split
  next => rfl
  next members hmembers =>
    rw [targetAt?, hmembers, Option.bind_some] at h
    rw [h]

/-- A point that the map resolves takes its new position, and every other head stays. -/
theorem movePoint_of_some {map : SourceMap} {w : Walk} {π : Json.Path} {o : Position}
    (hsorted : w.tree.Sorted) (h : targetAt? map w.tree π = some o) :
    (w.movePoint map π).moved = w.moved + 1 ∧ positionAt? (w.movePoint map π).tree π = some o ∧
      ∀ ρ, ¬ IsCoordinate ρ π → (w.movePoint map π).tree.headAt? ρ = w.tree.headAt? ρ := by
  rw [targetAt?, Option.bind_eq_some_iff] at h
  obtain ⟨members, hmembers, htarget⟩ := h
  obtain ⟨p, hp, -⟩ := Option.bind_eq_some_iff.mp htarget
  have hobject := bind_fields?_eq_some_iff.mp hmembers
  have hset := headAt?_setPosition (hsorted.at? hobject).members hp o
  have hbehind : ∀ σ, (w.tree.modify (fun _ => .object (setPosition o members)) π).headAt?
      (π ++ σ) = (Json.object (setPosition o members)).headAt? σ := by
    intro σ
    rw [Json.headAt?, Json.at?_modify_append, hobject]
    rfl
  rw [movePoint, hmembers]
  simp only [htarget]
  refine ⟨trivial, positionAt?_eq_some_iff.mpr ?_, fun ρ hρ => ?_⟩
  · rw [hbehind, hbehind, hset, hset]
    exact ⟨rfl, rfl⟩
  · by_cases hprefix : π <+: ρ
    · obtain ⟨σ, rfl⟩ := hprefix
      have hσ : σ ≠ [.member "line"] ∧ σ ≠ [.member "column"] :=
        ⟨fun h => hρ (.inl (by rw [h])), fun h => hρ (.inr (by rw [h]))⟩
      rw [hbehind, hset, if_neg hσ.1, if_neg hσ.2, Json.headAt?, Json.headAt?, Json.at?_append,
        hobject, Option.bind_some]
    · exact Json.headAt?_modify_of_not_prefix _ _ hprefix

end Walk

/-! ## Moved points -/

/-- The tree of a walk is what a tree becomes when the points at some paths are moved, from where
they stand in that tree to where these positions come from, and nothing else is changed. -/
structure Relocated (map : SourceMap) (tree : Json) (done : List Json.Path) (w : Walk) : Prop where
  moved : ∀ π ∈ done, ∀ o, targetAt? map tree π = some o → positionAt? w.tree π = some o
  kept : ∀ ρ, (∀ π ∈ done, (targetAt? map tree π).isSome → ¬ IsCoordinate ρ π) →
    w.tree.headAt? ρ = tree.headAt? ρ
  count : w.moved = done.countP fun π => (targetAt? map tree π).isSome

namespace Relocated

variable {map : SourceMap} {tree : Json} {done : List Json.Path} {w : Walk}

theorem start (map : SourceMap) (tree : Json) (pending : List Json.Path) :
    Relocated map tree [] ⟨tree, pending, 0⟩ where
  moved := by simp
  kept _ _ := rfl
  count := rfl

theorem of_perm {done' : List Json.Path} (h : Relocated map tree done w)
    (hperm : done.Perm done') : Relocated map tree done' w where
  moved π hπ := h.moved π (hperm.mem_iff.mpr hπ)
  kept ρ hρ := h.kept ρ fun π hπ => hρ π (hperm.mem_iff.mp hπ)
  count := by rw [h.count, hperm.countP_eq]

/-- A head that differs is one of a number, as it was before. -/
theorem headAt?_eq_or (h : Relocated map tree done w) (ρ : Json.Path) :
    w.tree.headAt? ρ = tree.headAt? ρ ∨
      ∃ m n, w.tree.headAt? ρ = some (.number m) ∧ tree.headAt? ρ = some (.number n) := by
  by_cases hρ : ∀ π ∈ done, (targetAt? map tree π).isSome → ¬ IsCoordinate ρ π
  · exact .inl (h.kept ρ hρ)
  · push Not at hρ
    obtain ⟨π, hπ, hsome, hcoordinate⟩ := hρ
    obtain ⟨o, ho⟩ := Option.isSome_iff_exists.mp hsome
    rw [targetAt?_eq_bind] at hsome
    obtain ⟨p, hp⟩ := Option.isSome_iff_exists.mp (Option.isSome_of_isSome_bind hsome)
    have hafter := positionAt?_eq_some_iff.mp (h.moved π hπ o ho)
    have hbefore := positionAt?_eq_some_iff.mp hp
    right
    rcases hcoordinate with rfl | rfl
    · exact ⟨_, _, hafter.1, hbefore.1⟩
    · exact ⟨_, _, hafter.2, hbefore.2⟩

theorem sorted (h : Relocated map tree done w) (hsorted : tree.Sorted) : w.tree.Sorted := by
  apply hsorted.of_headAt?
  intro ρ names hnames
  rcases h.headAt?_eq_or ρ with heq | ⟨m, n, hm, -⟩
  · exact heq.symm
  · -- An object is no number, so its names are those it had
    rw [hm] at hnames
    cases hnames

theorem pathsBelow_eq (h : Relocated map tree done w) (π : Json.Path) :
    w.tree.pathsBelow π = tree.pathsBelow π := by
  rw [Json.pathsBelow_eq, Json.pathsBelow_eq]
  rcases h.headAt?_eq_or π with heq | ⟨m, n, hm, hn⟩
  · rw [heq]
  · -- There is nothing below a number
    rw [hm, hn]
    rfl

/-- A point that is not moved yet is where it was. -/
theorem positionAt?_eq (h : Relocated map tree done w) {π : Json.Path} (hπ : π ∉ done) :
    positionAt? w.tree π = positionAt? tree π := by
  apply positionAt?_congr
  intro ρ hρ
  apply h.kept
  intro π' hπ' _ hρ'
  exact hπ (hρ.eq hρ' ▸ hπ')

theorem movePoint (h : Relocated map tree done w) (hsorted : tree.Sorted) {π : Json.Path}
    (hπ : π ∉ done) : Relocated map tree (π :: done) (w.movePoint map π) := by
  -- The point is read where it stood at the start
  have hsame : targetAt? map w.tree π = targetAt? map tree π := by
    rw [targetAt?_eq_bind, targetAt?_eq_bind, h.positionAt?_eq hπ]
  cases htarget : targetAt? map tree π with
  | none =>
    rw [Walk.movePoint_of_none (hsame.trans htarget)]
    refine ⟨fun π' hπ' o ho => ?_, fun ρ hρ => ?_, ?_⟩
    · rcases List.mem_cons.mp hπ' with rfl | hπ'
      · rw [htarget] at ho
        cases ho
      · exact h.moved π' hπ' o ho
    · exact h.kept ρ fun π' hπ' => hρ π' (List.mem_cons_of_mem _ hπ')
    · rw [List.countP_cons_of_neg (by simp [htarget]), h.count]
  | some o =>
    obtain ⟨hcount, hposition, hkept⟩ :=
      Walk.movePoint_of_some (h.sorted hsorted) (hsame.trans htarget)
    refine ⟨fun π' hπ' o' ho' => ?_, fun ρ hρ => ?_, ?_⟩
    · rcases List.mem_cons.mp hπ' with rfl | hπ'
      · rw [htarget] at ho'
        cases ho'
        exact hposition
      · -- The coordinates of another point are none of this one's
        rw [← h.moved π' hπ' o' ho']
        apply positionAt?_congr
        intro ρ hρ
        exact hkept ρ fun hρ' => hπ (hρ'.eq hρ ▸ hπ')
    · rw [hkept ρ (hρ π List.mem_cons_self (by rw [htarget]; rfl))]
      exact h.kept ρ fun π' hπ' => hρ π' (List.mem_cons_of_mem _ hπ')
    · rw [List.countP_cons_of_pos (by simp [htarget]), hcount, h.count]

theorem foldl_movePoint (h : Relocated map tree done w) (hsorted : tree.Sorted)
    {points : List Json.Path} (hnodup : (points ++ done).Nodup) :
    Relocated map tree (points ++ done) (points.foldl (Walk.movePoint map) w) := by
  induction points generalizing done w with
  | nil => exact h
  | cons π points ih =>
    obtain ⟨hfresh, hrest⟩ := List.nodup_cons.mp hnodup
    have hnext := h.movePoint hsorted fun hπ => hfresh (List.mem_append_right _ hπ)
    exact (ih hnext (List.perm_middle.nodup_iff.mpr hnodup)).of_perm List.perm_middle

end Relocated

/-! ## Visits -/

/-- The paths of the points that are moved on behalf of some values. -/
def pointsOf (nodes : List Json.Path) : List Json.Path :=
  nodes.flatMap fun node => pointPaths.map (node ++ ·)

theorem length_of_mem_pointPaths {ρ : Json.Path} (h : ρ ∈ pointPaths) : ρ.length = 2 := by
  obtain ⟨key, -, hρ⟩ := List.mem_flatMap.mp h
  obtain ⟨edge, -, rfl⟩ := List.mem_map.mp hρ
  rfl

/-- A point belongs to one value. -/
theorem nodup_pointsOf {nodes : List Json.Path} (h : nodes.Nodup) : (pointsOf nodes).Nodup := by
  refine List.nodup_flatMap.mpr ⟨fun node _ => ?_, h.imp fun hne => ?_⟩
  · have hnodup : pointPaths.Nodup := by decide
    exact hnodup.map (List.append_right_injective node)
  · intro π hπ hπ'
    obtain ⟨ρ, hρ, rfl⟩ := List.mem_map.mp hπ
    obtain ⟨ρ', hρ', heq⟩ := List.mem_map.mp hπ'
    have hlength := (length_of_mem_pointPaths hρ').trans (length_of_mem_pointPaths hρ).symm
    exact hne (List.append_inj' heq hlength).1.symm

/-- Some values have been visited: their points have been moved, and they are, together with those
behind the pending paths, all values of the tree. -/
structure Walk.Invariant (map : SourceMap) (tree : Json) (visited : List Json.Path) (w : Walk) :
    Prop where
  relocated : Relocated map tree (pointsOf visited) w
  lead : ∀ π ∈ w.pending, (tree.at? π).isSome
  split : (visited ++ w.pending.flatMap tree.pathsFrom).Perm tree.paths

namespace Walk.Invariant

variable {map : SourceMap} {tree : Json} {visited : List Json.Path} {w : Walk}

theorem start (map : SourceMap) (tree : Json) : Invariant map tree [] ⟨tree, [[]], 0⟩ where
  relocated := Relocated.start map tree _
  lead := by simp
  split := by simp [Json.pathsFrom]

/-- A step visits the next value. -/
theorem step (h : Invariant map tree visited w) (hsorted : tree.Sorted) {node : Json.Path}
    {pending : List Json.Path} (hpending : w.pending = node :: pending) :
    Invariant map tree (node :: visited) (w.step map) := by
  obtain ⟨v, hv⟩ := Option.isSome_iff_exists.mp (h.lead node (by simp [hpending]))
  -- The value and those behind it come out of the pending ones
  have hsplit : (node :: visited ++ ((tree.pathsBelow node).reverse ++ pending).flatMap
      tree.pathsFrom).Perm tree.paths := by
    refine List.Perm.trans ?_ h.split
    rw [hpending, List.flatMap_cons, hsorted.pathsFrom_eq hv, List.flatMap_append,
      List.cons_append, List.cons_append]
    refine (List.Perm.cons node (List.Perm.append_left visited ?_)).trans List.perm_middle.symm
    exact ((List.reverse_perm _).flatMap_right _).append_right _
  have hnodup : (pointsOf (node :: visited)).Nodup :=
    nodup_pointsOf (hsplit.nodup_iff.mpr hsorted.nodup_paths).of_append_left
  have hstart : Relocated map tree (pointsOf visited) { w with pending } :=
    ⟨h.relocated.moved, h.relocated.kept, h.relocated.count⟩
  have hmoved : Relocated map tree (pointsOf (node :: visited))
      (Walk.movePoints map { w with pending } node) :=
    hstart.foldl_movePoint hsorted hnodup
  have hbelow := hmoved.pathsBelow_eq node
  have hstep : w.step map =
      { Walk.movePoints map { w with pending } node with
        pending := (tree.pathsBelow node).reverse ++ pending } := by
    rw [Walk.step, hpending]
    simp only [hbelow, pending_movePoints]
  rw [hstep]
  refine ⟨⟨hmoved.moved, hmoved.kept, hmoved.count⟩, fun π hπ => ?_, hsplit⟩
  rcases List.mem_append.mp hπ with hπ | hπ
  · rw [List.mem_reverse, Json.pathsBelow, hv] at hπ
    obtain ⟨s, hs, rfl⟩ := List.mem_map.mp hπ
    rw [Json.at?_append, hv, Option.bind_some, Json.at?_singleton]
    exact Json.mem_steps_iff.mp hs
  · exact h.lead π (by rw [hpending]; exact List.mem_cons_of_mem _ hπ)

/-- A run visits one value in each step, until there are none left. -/
theorem run (hsorted : tree.Sorted) {n : Nat} (h : Invariant map tree visited w)
    (hn : (w.pending.flatMap tree.pathsFrom).length = n) :
    ∃ visited', visited'.Perm tree.paths ∧
      Relocated map tree (pointsOf visited') (Walk.run map n w) := by
  induction n generalizing visited w with
  | zero =>
    refine ⟨visited, ?_, h.relocated⟩
    have hsplit := h.split
    rwa [List.length_eq_zero_iff.mp hn, List.append_nil] at hsplit
  | succ n ih =>
    cases hpending : w.pending with
    | nil =>
      rw [hpending] at hn
      cases hn
    | cons node pending =>
      have hnext := h.step hsorted hpending
      apply ih hnext
      -- Both splits have the length of the whole, and one more is visited
      have hbefore := h.split.length_eq
      have hafter := hnext.split.length_eq
      rw [List.length_append, hn] at hbefore
      rw [List.length_append, List.length_cons] at hafter
      omega

end Walk.Invariant

/-- **Relocating moves the points of every value** from where they stand in the tree, and changes
nothing else. -/
theorem relocate_relocated {tree : Json} (hsorted : tree.Sorted) (map : SourceMap) :
    ∃ visited pending, visited.Perm tree.paths ∧
      Relocated map tree (pointsOf visited)
        ⟨(relocate map tree).1, pending, (relocate map tree).2⟩ := by
  have hlength : ([[]].flatMap tree.pathsFrom).length = tree.paths.length := by
    simp [Json.pathsFrom]
  obtain ⟨visited, hvisited, h⟩ :=
    (Walk.Invariant.start map tree).run hsorted hlength
  exact ⟨visited, _, hvisited, h⟩

end MapChain.Relocate
