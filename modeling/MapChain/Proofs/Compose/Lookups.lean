import MapChain.Proofs.Compose.Mappings

/-!
# Composing and chaining lookups

Following a position through both stages takes two lookups, and the composed map takes one. The two
do not agree everywhere. Composing drops the mappings that do not resolve, which then no longer hide
those before them, and it orders the mappings at one place anew, by where the first stage leads.

## Layers

- **Chains**: `chain?` chains two lookups, as `follow?` leads one mapping through both stages.
- **Difference**: `chain_differs` shows both ways in which the lookups part.
- **Answers**: `trace_eq_none_iff` and `isClosestChain_of_trace` say what the composed map answers.
- **Statement**: `trace_chain_or_earlier`: no answer is lost, every answer is the one of a closest
  mapping that resolves, and where mappings at one place agree the composed map answers with the
  chain, or else as it does one column earlier.
-/

namespace MapChain

/-! ## Chains -/

/-- Two lookups, the second of them at the answer of the first. -/
def chain? (stage1 stage2 : SourceMap) (p : Position) : Option (Position × Option String) :=
  (stage2.trace p).bind fun middle =>
    (stage1.trace middle.position).map fun o => (o.position, middle.name)

/-- An answer of a mapping at the greatest generated position at which one resolves, among those
that are reached, and the least position that one there leads to. -/
def IsClosestChain (stage1 stage2 : SourceMap) (p : Position) (a : Position × Option String) :
    Prop :=
  ∃ x ∈ Lookup.reached Mapping.generated stage2.mappings p, follow? stage1 x = some a ∧
    ∀ y ∈ Lookup.reached Mapping.generated stage2.mappings p, ∀ b, follow? stage1 y = some b →
      y.generated.column ≤ x.generated.column ∧ (y.generated = x.generated → a.1 ≤ b.1)

theorem mem_hops_iff {stage1 stage2 : SourceMap} {h : Hop} :
    h ∈ hops stage1 stage2 ↔
      ∃ x ∈ stage2.mappings, x.generated = h.generated ∧
        follow? stage1 x = some (h.origin, h.name) := by
  obtain ⟨generated, origin, name⟩ := h
  simp only [hops, List.mem_filterMap, follow?, Option.bind_eq_some_iff, Option.map_eq_some_iff,
    Hop.mk.injEq, Prod.mk.injEq]
  constructor
  · rintro ⟨x, hx, middle, hmiddle, o, ho, hgenerated, horigin, hname⟩
    exact ⟨x, hx, hgenerated, middle, hmiddle, o, ho, horigin, hname⟩
  · rintro ⟨x, hx, hgenerated, middle, hmiddle, o, ho, horigin, hname⟩
    exact ⟨x, hx, middle, hmiddle, o, ho, hgenerated, horigin, hname⟩

/-- The place and the key tell hops apart. -/
theorem Hop.eq_of_key_eq {named : List String} {a b : Hop} (ha : ∀ n ∈ a.name, n ∈ named)
    (hb : ∀ n ∈ b.name, n ∈ named) (hplace : a.generated = b.generated)
    (hkey : a.key named = b.key named) : a = b := by
  obtain ⟨generated, ⟨line, column⟩, name⟩ := a
  obtain ⟨generated', ⟨line', column'⟩, name'⟩ := b
  obtain ⟨hline, hrest⟩ := Prod.mk.inj (toLex.injective hkey)
  obtain ⟨hcolumn, hrank⟩ := Prod.mk.inj (toLex.injective hrest)
  obtain rfl := UInt32.toNat_inj.mp hline
  obtain rfl := UInt32.toNat_inj.mp hcolumn
  have hname : name = name' := by
    cases name with
    | none => cases name' with
      | none => rfl
      | some n' => cases hrank
    | some n => cases name' with
      | none => cases hrank
      | some n' =>
        have hidx : named.idxOf n = named.idxOf n' := WithBot.coe_inj.mp hrank
        rw [(List.idxOf_inj (ha n rfl)).mp hidx]
  rw [hname, show generated = generated' from hplace]

theorem chain?_eq_bind (stage1 stage2 : SourceMap) (p : Position) :
    chain? stage1 stage2 p = (stage2.deciding? p).bind (follow? stage1) := by
  rw [chain?, SourceMap.trace, Option.bind_assoc]
  rfl

/-! ## Answers -/

theorem Lookup.closest?_congr {α κ : Type} [LinearOrder κ] {place : α → Position} {key : α → κ}
    {entries : List α} {p q : Position} (h : reached place entries p = reached place entries q) :
    closest? place key entries p = closest? place key entries q := by
  rw [closest?, closest?, nearest, nearest, h]

section Composed

variable {stage1 stage2 m : SourceMap} {fileName : String} {named : List String}
  {listed : List Hop}

/-- A map that lists hops in order answers with the closest of them. -/
theorem trace_of_hops (hmappings : m.mappings = listed.map (Hop.mapping fileName))
    (hsorted : Lookup.SortedBy Hop.generated (Hop.key named) listed) (p : Position) :
    m.trace p = (Lookup.closest? Hop.generated (Hop.key named) listed p).map fun h =>
      ⟨fileName, h.origin, h.name⟩ := by
  have hdeciding : m.deciding? p =
      (Lookup.closest? Hop.generated (Hop.key named) listed p).map (Hop.mapping fileName) := by
    show Lookup.walk? Mapping.generated m.mappings p = _
    rw [hmappings, Lookup.walk?_map, ← Lookup.walk?_eq_closest? hsorted]
    rfl
  rw [SourceMap.trace, hdeciding, Option.bind_map]
  cases Lookup.closest? Hop.generated (Hop.key named) listed p <;> rfl

/-- The composed map answers with the closest hop. -/
theorem trace_eq_closest_hop (hmappings : m.mappings = listed.map (Hop.mapping fileName))
    (hperm : listed.Perm (hops stage1 stage2))
    (hsorted : Lookup.SortedBy Hop.generated (Hop.key (hopNames stage1 stage2)) listed)
    (p : Position) :
    m.trace p = (Lookup.closest? Hop.generated (Hop.key (hopNames stage1 stage2))
      (hops stage1 stage2) p).map fun h => ⟨fileName, h.origin, h.name⟩ := by
  have hnamed : ∀ h ∈ listed, ∀ n ∈ h.name, n ∈ hopNames stage1 stage2 := fun h hh n hn =>
    List.mem_filterMap.mpr ⟨h, hperm.mem_iff.mp hh, hn⟩
  have hkeys : ∀ a ∈ listed, ∀ b ∈ listed, a.generated = b.generated →
      a.key (hopNames stage1 stage2) = b.key (hopNames stage1 stage2) → a = b :=
    fun a ha b hb => Hop.eq_of_key_eq (hnamed a ha) (hnamed b hb)
  rw [trace_of_hops hmappings hsorted, Lookup.closest?_perm hperm hkeys]

theorem mem_reached_listed_iff (hperm : listed.Perm (hops stage1 stage2)) {h : Hop}
    {p : Position} :
    h ∈ Lookup.reached Hop.generated listed p ↔
      ∃ x ∈ Lookup.reached Mapping.generated stage2.mappings p,
        x.generated = h.generated ∧ follow? stage1 x = some (h.origin, h.name) := by
  simp only [Lookup.mem_reached, hperm.mem_iff, mem_hops_iff]
  constructor
  · rintro ⟨⟨x, hx, hgenerated, hfollow⟩, hreached⟩
    rw [← hgenerated] at hreached
    exact ⟨x, ⟨hx, hreached⟩, hgenerated, hfollow⟩
  · rintro ⟨x, ⟨hx, hreached⟩, hgenerated, hfollow⟩
    rw [hgenerated] at hreached
    exact ⟨⟨x, hx, hgenerated, hfollow⟩, hreached⟩

/-- There is no answer exactly when no mapping that is reached resolves. -/
theorem trace_eq_none_iff (hmappings : m.mappings = listed.map (Hop.mapping fileName))
    (hperm : listed.Perm (hops stage1 stage2))
    (hsorted : Lookup.SortedBy Hop.generated (Hop.key named) listed) (p : Position) :
    m.trace p = none ↔
      ∀ x ∈ Lookup.reached Mapping.generated stage2.mappings p, follow? stage1 x = none := by
  rw [trace_of_hops hmappings hsorted, Option.map_eq_none_iff, Lookup.closest?_eq_none_iff,
    List.eq_nil_iff_forall_not_mem]
  constructor
  · intro hnone x hx
    by_contra hfollow
    obtain ⟨⟨origin, name⟩, ha⟩ := Option.ne_none_iff_exists'.mp hfollow
    exact hnone ⟨x.generated, origin, name⟩ ((mem_reached_listed_iff hperm).mpr ⟨x, hx, rfl, ha⟩)
  · intro hnone h hh
    obtain ⟨x, hx, -, hfollow⟩ := (mem_reached_listed_iff hperm).mp hh
    rw [hnone x hx] at hfollow
    cases hfollow

/-- Hops that are ordered by their keys lead to positions in this order. -/
theorem Hop.origin_le_of_key_le {a b : Hop} (h : a.key named ≤ b.key named) :
    a.origin ≤ b.origin := by
  rw [Position.le_iff]
  simp only [Hop.key, Prod.Lex.toLex_le_toLex] at h
  rcases h with hline | ⟨hline, hcolumn | ⟨hcolumn, -⟩⟩
  · exact .inl hline
  · exact .inr ⟨UInt32.toNat_inj.mp hline, hcolumn.le⟩
  · exact .inr ⟨UInt32.toNat_inj.mp hline, hcolumn.le⟩

/-- Every answer is the chain of a closest mapping that resolves. -/
theorem isClosestChain_of_trace (hmappings : m.mappings = listed.map (Hop.mapping fileName))
    (hperm : listed.Perm (hops stage1 stage2))
    (hsorted : Lookup.SortedBy Hop.generated (Hop.key named) listed) {p : Position} {r : Origin}
    (hr : m.trace p = some r) :
    r.source = fileName ∧ IsClosestChain stage1 stage2 p (r.position, r.name) := by
  rw [trace_of_hops hmappings hsorted] at hr
  obtain ⟨h, hclosest, rfl⟩ := Option.map_eq_some_iff.mp hr
  obtain ⟨hnearest, hleast⟩ := Lookup.closest?_mem hclosest
  obtain ⟨hreached, hmax⟩ := Lookup.mem_nearest.mp hnearest
  obtain ⟨x, hx, hgenerated, hfollow⟩ := (mem_reached_listed_iff hperm).mp hreached
  refine ⟨rfl, x, hx, hfollow, fun y hy b hb => ?_⟩
  -- What a reached mapping leads to is a hop as well, so it is not closer
  have hother : ⟨y.generated, b.1, b.2⟩ ∈ Lookup.reached Hop.generated listed p :=
    (mem_reached_listed_iff hperm).mpr ⟨y, hy, rfl, hb⟩
  rw [hgenerated]
  refine ⟨hmax _ hother, fun hplace => ?_⟩
  have htied : ⟨y.generated, b.1, b.2⟩ ∈ Lookup.nearest Hop.generated listed p := by
    refine Lookup.mem_nearest.mpr ⟨hother, fun h' hh' => ?_⟩
    rw [hplace]
    exact hmax h' hh'
  exact Hop.origin_le_of_key_le (hleast _ htied)

/-- Where two lookups chain, the composed map has an answer, with a position that is not after
theirs. -/
theorem exists_trace_of_chain (hmappings : m.mappings = listed.map (Hop.mapping fileName))
    (hperm : listed.Perm (hops stage1 stage2))
    (hsorted : Lookup.SortedBy Hop.generated (Hop.key named) listed)
    (hsorted2 : stage2.mappings.Pairwise fun a b => a.generated ≤ b.generated) {p : Position}
    {a : Position × Option String} (ha : chain? stage1 stage2 p = some a) :
    ∃ x ∈ Lookup.nearest Mapping.generated stage2.mappings p,
      ∃ r, follow? stage1 x = some (r.position, r.name) ∧ m.trace p = some r ∧
        r.source = fileName ∧ r.position ≤ a.1 := by
  rw [chain?_eq_bind] at ha
  obtain ⟨y, hy, hfollow⟩ := Option.bind_eq_some_iff.mp ha
  have hnearest := (SourceMap.deciding?_spec hsorted2 p).2 y hy
  obtain ⟨hreached, hmax⟩ := Lookup.mem_nearest.mp hnearest
  have hsome : m.trace p ≠ none := by
    intro hnone
    have := (trace_eq_none_iff hmappings hperm hsorted p).mp hnone y hreached
    rw [hfollow] at this
    cases this
  obtain ⟨r, hr⟩ := Option.ne_none_iff_exists'.mp hsome
  obtain ⟨hsource, x, hx, hxfollow, hclosest⟩ := isClosestChain_of_trace hmappings hperm hsorted hr
  -- Neither of the two mappings is closer than the other, so both are at one place
  have hcolumn := (hclosest y hreached a hfollow).1
  have hxnearest : x ∈ Lookup.nearest Mapping.generated stage2.mappings p :=
    Lookup.mem_nearest.mpr ⟨hx, fun z hz => UInt32.le_trans (hmax z hz) hcolumn⟩
  have hplace := Lookup.place_eq_of_mem_nearest hnearest hxnearest
  exact ⟨x, hxnearest, r, hxfollow, hr, hsource, (hclosest y hreached a hfollow).2 hplace⟩

/-- The lookups of the second stage lead to the same wherever two of its mappings on a line are at
one place. -/
def AgreeOn (stage1 stage2 : SourceMap) (line : UInt32) : Prop :=
  ∀ x ∈ stage2.mappings, ∀ y ∈ stage2.mappings, x.generated.line = line →
    x.generated = y.generated → follow? stage1 x = follow? stage1 y

/-- Where the lookups do not chain, and mappings at one place agree, no hop stands at the
position. -/
theorem generated_ne_of_chain_eq_none (hperm : listed.Perm (hops stage1 stage2))
    (hsorted2 : stage2.mappings.Pairwise fun a b => a.generated ≤ b.generated) {p : Position}
    (hagree : AgreeOn stage1 stage2 p.line) (hnone : chain? stage1 stage2 p = none) {h : Hop}
    (hh : h ∈ listed) : h.generated ≠ p := by
  intro hplace
  obtain ⟨x, hx, hgenerated, hfollow⟩ := mem_hops_iff.mp (hperm.mem_iff.mp hh)
  have hxplace : x.generated = p := hgenerated.trans hplace
  have hreached : x ∈ Lookup.reached Mapping.generated stage2.mappings p :=
    Lookup.mem_reached.mpr ⟨hx, by rw [hxplace], by rw [hxplace]; exact UInt32.le_refl _⟩
  rw [chain?_eq_bind] at hnone
  obtain ⟨hundecided, hdecided⟩ := SourceMap.deciding?_spec hsorted2 p
  cases hdeciding : stage2.deciding? p with
  | none =>
    rw [hundecided.mp hdeciding] at hreached
    cases hreached
  | some y =>
    obtain ⟨hyreached, hmax⟩ := Lookup.mem_nearest.mp (hdecided y hdeciding)
    obtain ⟨hy, hyline, hycolumn⟩ := Lookup.mem_reached.mp hyreached
    -- Nothing is closer than the position itself
    have hyplace : x.generated = y.generated := by
      have hle := hmax x hreached
      rw [hxplace] at hle ⊢
      exact Position.le_antisymm ((Position.le_iff_column_le hyline.symm).mpr hle)
        ((Position.le_iff_column_le hyline).mpr hycolumn)
    have hsame := hagree x hx y hy (by rw [hxplace]) hyplace
    rw [hdeciding, Option.bind_some, ← hsame, hfollow] at hnone
    cases hnone

/-- A lookup that is not decided at its own place is decided one column earlier. -/
theorem trace_eq_of_forall_ne (hmappings : m.mappings = listed.map (Hop.mapping fileName))
    (hsorted : Lookup.SortedBy Hop.generated (Hop.key named) listed) {p : Position}
    (hne : ∀ h ∈ listed, h.generated ≠ p) :
    m.trace p = if p.column = 0 then none else m.trace ⟨p.line, p.column - 1⟩ := by
  have hcolumn : ∀ h ∈ listed, h.generated.line = p.line →
      h.generated.column.toNat ≠ p.column.toNat := by
    intro h hh hline hcolumn
    exact hne h hh (congrArg₂ Position.mk hline (UInt32.toNat_inj.mp hcolumn))
  by_cases hzero : p.column = 0
  · -- In the first column only a hop at the position itself could be reached
    rw [if_pos hzero, trace_of_hops hmappings hsorted, Option.map_eq_none_iff,
      Lookup.closest?_eq_none_iff, List.eq_nil_iff_forall_not_mem]
    intro h hh
    obtain ⟨hmem, hline, hle⟩ := Lookup.mem_reached.mp hh
    have hne := hcolumn h hmem hline
    rw [UInt32.le_iff_toNat_le] at hle
    rw [hzero] at hle hne
    exact hne (Nat.le_antisymm hle (Nat.zero_le _))
  · have hreached : Lookup.reached Hop.generated listed p =
        Lookup.reached Hop.generated listed ⟨p.line, p.column - 1⟩ := by
      apply List.filter_congr
      intro h hh
      have hpos : p.column.toNat ≠ 0 := fun h0 => hzero (UInt32.toNat_inj.mp h0)
      have hpred : (p.column - 1).toNat = p.column.toNat - 1 :=
        UInt32.toNat_sub_of_le _ _ (by rw [UInt32.le_iff_toNat_le]; exact Nat.pos_of_ne_zero hpos)
      rw [decide_eq_decide]
      refine and_congr_right fun hline => ?_
      have hne := hcolumn h hh hline
      rw [UInt32.le_iff_toNat_le, UInt32.le_iff_toNat_le, hpred]
      omega
    rw [if_neg hzero, trace_of_hops hmappings hsorted, trace_of_hops hmappings hsorted,
      Lookup.closest?_congr hreached]

end Composed

/-! ## Difference -/

/-- A document that leads to the compiled text: two segments at one place, and behind them one
without an origin. -/
def gappedDocument : MapDocument where
  version := MapDocument.supportedVersion
  file := none
  sourceRoot := none
  sources := ["mid.js"]
  sourcesContent := none
  names := []
  mappings := "AAAA,AAAU,K"

/-- The map of `gappedDocument`. -/
def gappedMap : SourceMap where
  file := none
  sources := [⟨"mid.js", none⟩]
  mappings := [⟨⟨1, 0⟩, some ⟨"mid.js", ⟨1, 0⟩, none⟩⟩, ⟨⟨1, 0⟩, some ⟨"mid.js", ⟨1, 10⟩, none⟩⟩,
    ⟨⟨1, 5⟩, none⟩]

private theorem gappedDocument_decoded :
    SourceMap.ofDocument gappedDocument = .ok gappedMap ∧ gappedDocument.LinesFit := by
  have hdecode : MappingText.decode gappedDocument.mappings =
      .ok [⟨0, 0, some ⟨0, 0, 0, none⟩⟩, ⟨0, 0, some ⟨0, 0, 10, none⟩⟩, ⟨0, 5, none⟩] := by
    decide +kernel
  exact ⟨SourceMap.ofDocument_of_pairwise hdecode (by decide) (by decide),
    MapDocument.linesFit_of_decode hdecode (by decide)⟩

/-- **One lookup in the composed map is not two lookups.** At the first place the two mappings
change their order, and behind them the one without an origin no longer hides them. -/
theorem trace_ne_chain :
    ∃ m, SourceMap.ofDocument turnedDocument = .ok turnedMap ∧
      SourceMap.ofDocument gappedDocument = .ok gappedMap ∧
      turnedDocument.LinesFit ∧ gappedDocument.LinesFit ∧
      SourceMap.ofDocument (composeDocument turnedMap gappedMap "app.tsx" "text") = .ok m ∧
      (chain? turnedMap gappedMap ⟨1, 0⟩ = some (⟨3, 4⟩, none) ∧
        m.trace ⟨1, 0⟩ = some ⟨"app.tsx", ⟨1, 0⟩, none⟩) ∧
      chain? turnedMap gappedMap ⟨1, 5⟩ = none ∧
        m.trace ⟨1, 5⟩ = some ⟨"app.tsx", ⟨1, 0⟩, none⟩ := by
  obtain ⟨h1, hfit1⟩ := turnedDocument_decoded
  obtain ⟨h2, hfit2⟩ := gappedDocument_decoded
  obtain ⟨m, listed, hm, hmappings, hperm, hsorted⟩ :=
    ofDocument_composeDocument h1 h2 hfit1 hfit2 "app.tsx" "text"
  have htrace := trace_eq_closest_hop hmappings hperm hsorted
  refine ⟨m, h1, h2, hfit1, hfit2, hm, ⟨by decide +kernel, ?_⟩, by decide +kernel, ?_⟩
  · rw [htrace]
    decide +kernel
  · rw [htrace]
    decide +kernel

/-! ## Statement -/

/-- **Composing chains the lookups mapping by mapping**, and drops what does not resolve.

* There is an answer exactly when one of the mappings that are reached resolves at both stages.
* Every answer is where a closest one of these leads, the least at its place.
* Where the two lookups chain, the answer is not after theirs, and it is theirs when all that resolve
  at the place that decides lead to the same.
* Where mappings at one place of a line agree, the composed map answers with the chained lookups, or
  else as it does one column earlier. -/
theorem trace_chain_or_earlier {d1 d2 : MapDocument} {stage1 stage2 : SourceMap}
    (h1 : SourceMap.ofDocument d1 = .ok stage1) (h2 : SourceMap.ofDocument d2 = .ok stage2)
    (hfit1 : d1.LinesFit) (hfit2 : d2.LinesFit) (fileName text : String) :
    ∃ m, SourceMap.ofDocument (composeDocument stage1 stage2 fileName text) = .ok m ∧ ∀ p,
      (m.trace p = none ↔
        ∀ x ∈ Lookup.reached Mapping.generated stage2.mappings p, follow? stage1 x = none) ∧
      (∀ r, m.trace p = some r →
        r.source = fileName ∧ IsClosestChain stage1 stage2 p (r.position, r.name)) ∧
      (∀ a, chain? stage1 stage2 p = some a → ∃ r, m.trace p = some r ∧ r.position ≤ a.1 ∧
        ((∀ x ∈ Lookup.nearest Mapping.generated stage2.mappings p, ∀ b,
          follow? stage1 x = some b → b = a) → r = ⟨fileName, a.1, a.2⟩)) ∧
      (AgreeOn stage1 stage2 p.line → m.trace p =
        ((chain? stage1 stage2 p).map fun a => (⟨fileName, a.1, a.2⟩ : Origin)).or
          (if p.column = 0 then none else m.trace ⟨p.line, p.column - 1⟩)) := by
  obtain ⟨m, listed, hm, hmappings, hperm, hsorted⟩ :=
    ofDocument_composeDocument h1 h2 hfit1 hfit2 fileName text
  have hsorted2 := SourceMap.pairwise_generated h2
  refine ⟨m, hm, fun p => ⟨trace_eq_none_iff hmappings hperm hsorted p, fun r hr =>
    isClosestChain_of_trace hmappings hperm hsorted hr, fun a ha => ?_, fun hagree => ?_⟩⟩
  · obtain ⟨x, hx, r, hfollow, hr, hsource, hle⟩ :=
      exists_trace_of_chain hmappings hperm hsorted hsorted2 ha
    refine ⟨r, hr, hle, fun hsame => ?_⟩
    rw [← hsame x hx _ hfollow, ← hsource]
  · cases hchain : chain? stage1 stage2 p with
    | none =>
      rw [Option.map_none, Option.none_or]
      exact trace_eq_of_forall_ne hmappings hsorted fun h hh =>
        generated_ne_of_chain_eq_none hperm hsorted2 hagree hchain hh
    | some a =>
      obtain ⟨x, hx, r, hfollow, hr, hsource, -⟩ :=
        exists_trace_of_chain hmappings hperm hsorted hsorted2 hchain
      -- The mapping that decides at the second stage is at the same place, and agrees
      rw [chain?_eq_bind] at hchain
      obtain ⟨y, hdeciding, hyfollow⟩ := Option.bind_eq_some_iff.mp hchain
      have hy := (SourceMap.deciding?_spec hsorted2 p).2 y hdeciding
      have hsame := hagree x (Lookup.mem_of_mem_nearest hx) y (Lookup.mem_of_mem_nearest hy)
        (Lookup.mem_reached.mp (Lookup.mem_nearest.mp hx).1).2.1
        (Lookup.place_eq_of_mem_nearest hx hy)
      rw [hfollow, hyfollow] at hsame
      obtain rfl := Option.some.inj hsame
      rw [Option.map_some, Option.some_or, hr, ← hsource]

/-- A document that leads to the compiled text: a segment, and behind it one without an origin. -/
def bareDocument : MapDocument where
  version := MapDocument.supportedVersion
  file := none
  sourceRoot := none
  sources := ["mid.js"]
  sourcesContent := none
  names := []
  mappings := "AAAA,K"

/-- The map of `bareDocument`. -/
def bareMap : SourceMap where
  file := none
  sources := [⟨"mid.js", none⟩]
  mappings := [⟨⟨1, 0⟩, some ⟨"mid.js", ⟨1, 0⟩, none⟩⟩, ⟨⟨1, 5⟩, none⟩]

/-- Where nothing chains any more, the mapping before the one without an origin answers. -/
theorem trace_behind_bareDocument :
    ∃ m, SourceMap.ofDocument turnedDocument = .ok turnedMap ∧
      SourceMap.ofDocument bareDocument = .ok bareMap ∧
      turnedDocument.LinesFit ∧ bareDocument.LinesFit ∧ AgreeOn turnedMap bareMap 1 ∧
      SourceMap.ofDocument (composeDocument turnedMap bareMap "app.tsx" "text") = .ok m ∧
      chain? turnedMap bareMap ⟨1, 5⟩ = none ∧
      m.trace ⟨1, 5⟩ = some ⟨"app.tsx", ⟨3, 4⟩, none⟩ := by
  have hdecode : MappingText.decode bareDocument.mappings =
      .ok [⟨0, 0, some ⟨0, 0, 0, none⟩⟩, ⟨0, 5, none⟩] := by
    decide +kernel
  have h2 : SourceMap.ofDocument bareDocument = .ok bareMap :=
    SourceMap.ofDocument_of_pairwise hdecode (by decide) (by decide)
  have hfit2 : bareDocument.LinesFit := MapDocument.linesFit_of_decode hdecode (by decide)
  obtain ⟨h1, hfit1⟩ := turnedDocument_decoded
  have hagree : AgreeOn turnedMap bareMap 1 := by
    unfold AgreeOn
    decide +kernel
  obtain ⟨m, hm, hlaw⟩ := trace_chain_or_earlier h1 h2 hfit1 hfit2 "app.tsx" "text"
  refine ⟨m, h1, h2, hfit1, hfit2, hagree, hm, by decide +kernel, ?_⟩
  -- One column to the left the lookups chain
  have hnone : chain? turnedMap bareMap ⟨1, 5⟩ = none := by decide +kernel
  have hsome : chain? turnedMap bareMap ⟨1, 4⟩ = some (⟨3, 4⟩, none) := by decide +kernel
  have hearlier : m.trace ⟨1, 5⟩ = m.trace ⟨1, 4⟩ := by
    rw [(hlaw ⟨1, 5⟩).2.2.2 hagree, hnone]
    rfl
  rw [hearlier, (hlaw ⟨1, 4⟩).2.2.2 hagree, hsome]
  rfl

end MapChain
