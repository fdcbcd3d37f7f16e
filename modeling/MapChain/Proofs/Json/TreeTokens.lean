import Mathlib.Data.List.Chain
import MapChain.Json.Tree
import MapChain.Proofs.Json.Lexing

/-!
# The tokens of a tree

Tokens that are read to a tree are its tokens, and the tokens of a tree are read to it. In them no
word or number stands next to another, and no comma before a closing bracket, so the tokens can be
written without spaces and a comma can be added where there is none.

Main results: `Tree.tokens_of_ofTokens?`, `Tree.ofTokens?_tokens` and `Tree.isChain_tokens`.
-/

namespace MapChain.Json

namespace Tree

/-! ## Reading -/

/-- What is read from tokens and what is left make up the tokens. -/
theorem tokens_append_of_read (fuel : Nat) :
    (∀ {ts t rest}, read fuel ts = some (t, rest) → t.tokens ++ rest = ts) ∧
    (∀ {ts items rest}, readItems fuel ts = some (items, rest) →
      itemTokens items ++ rest = ts) ∧
    (∀ {ts members rest}, readMembers fuel ts = some (members, rest) →
      memberTokens members ++ rest = ts) := by
  induction fuel with
  | zero => exact ⟨nofun, nofun, nofun⟩
  | succ fuel ih =>
    obtain ⟨ihTree, ihItems, ihMembers⟩ := ih
    refine ⟨?tree, ?items, ?members⟩
    case tree =>
      intro ts t rest h
      unfold read at h
      split at h
      -- No fuel, no tokens, and then the ways in which a tree can begin
      next => cases h
      next => cases h
      iterate 4
        next =>
          cases h
          rfl
      next hfuel =>
        cases hfuel
        obtain ⟨⟨first, middle⟩, hfirst, h⟩ := Option.bind_eq_some_iff.mp h
        obtain ⟨⟨items, rest'⟩, hitems, h⟩ := Option.bind_eq_some_iff.mp h
        cases h
        simp only [tokens, List.cons_append, List.append_assoc, ihItems hitems, ihTree hfirst]
      next =>
        cases h
        rfl
      next hfuel =>
        cases hfuel
        obtain ⟨⟨first, middle⟩, hfirst, h⟩ := Option.bind_eq_some_iff.mp h
        obtain ⟨⟨members, rest'⟩, hmembers, h⟩ := Option.bind_eq_some_iff.mp h
        cases h
        simp only [tokens, List.cons_append, List.append_assoc, ihMembers hmembers, ihTree hfirst]
      next => cases h
    case items =>
      intro ts items rest h
      unfold readItems at h
      split at h
      next => cases h
      next =>
        cases h
        rfl
      next hfuel =>
        cases hfuel
        obtain ⟨⟨t, middle⟩, ht, h⟩ := Option.bind_eq_some_iff.mp h
        obtain ⟨⟨items', rest'⟩, hitems, h⟩ := Option.bind_eq_some_iff.mp h
        cases h
        simp only [itemTokens, List.cons_append, List.append_assoc, ihItems hitems, ihTree ht]
      next => cases h
    case members =>
      intro ts members rest h
      unfold readMembers at h
      split at h
      next => cases h
      next =>
        cases h
        rfl
      next hfuel =>
        cases hfuel
        obtain ⟨⟨t, middle⟩, ht, h⟩ := Option.bind_eq_some_iff.mp h
        obtain ⟨⟨members', rest'⟩, hmembers, h⟩ := Option.bind_eq_some_iff.mp h
        cases h
        simp only [memberTokens, List.cons_append, List.append_assoc, ihMembers hmembers, ihTree ht]
      next => cases h

/-- **Tokens that make a tree are its tokens.** -/
theorem tokens_of_ofTokens? {ts : List Token} {t : Tree} (h : ofTokens? ts = some t) :
    t.tokens = ts := by
  rw [ofTokens?] at h
  split at h
  next hread =>
    cases h
    rw [← (tokens_append_of_read _).1 hread, List.append_nil]
  next => cases h

end Tree

/-! ## Neighbours -/

namespace Token

/-- One token can stand right behind another: they are not a word or number each, nor a comma and a
closing bracket. -/
structure Adjoins (t u : Token) : Prop where
  run : t.isRun → u.isRun = false
  comma : t = .comma → u.closes = false

/-- Can stand right before every token. -/
def canPrecede : Token → Bool
  | .word _ | .number _ | .comma => false
  | _ => true

theorem isChain_cons {t : Token} (ht : t.canPrecede) {ts : List Token} (h : ts.IsChain Adjoins) :
    (t :: ts).IsChain Adjoins := by
  refine List.isChain_cons.mpr ⟨fun u _ => ⟨fun hrun => ?_, fun hcomma => ?_⟩, h⟩
  · cases t <;> cases hrun <;> cases ht
  · subst hcomma
    cases ht

end Token

namespace Tree

/-- A tree does not begin with a closing bracket. -/
theorem closes_head_tokens (t : Tree) (rest : List Token) :
    ∀ u ∈ (t.tokens ++ rest).head?, u.closes = false := by
  intro u hu
  cases t with
  | array items => cases items <;> cases hu <;> rfl
  | object members => cases members <;> cases hu <;> rfl
  | _ => cases hu; rfl

/-- Tokens that do not begin with a word or number can stand behind a tree. -/
def CanFollow (rest : List Token) : Prop :=
  rest.IsChain Token.Adjoins ∧ ∀ u ∈ rest.head?, u.isRun = false

theorem canFollow_cons {t : Token} (hrun : t.isRun = false) (ht : t.canPrecede)
    {rest : List Token} (h : rest.IsChain Token.Adjoins) : CanFollow (t :: rest) :=
  ⟨Token.isChain_cons ht h, fun u hu => by cases hu; exact hrun⟩

theorem canFollow_comma {rest : List Token} (h : rest.IsChain Token.Adjoins)
    (hhead : ∀ u ∈ rest.head?, u.closes = false) : CanFollow (.comma :: rest) :=
  ⟨List.isChain_cons.mpr ⟨fun u hu => ⟨nofun, fun _ => hhead u hu⟩, h⟩,
    fun u hu => by cases hu; rfl⟩

mutual

theorem isChain_tokens_append : ∀ (t : Tree) {rest : List Token}, CanFollow rest →
    (t.tokens ++ rest).IsChain Token.Adjoins
  | .word _, _, h | .number _, _, h =>
    List.isChain_cons.mpr ⟨fun u hu => ⟨fun _ => h.2 u hu, nofun⟩, h.1⟩
  | .string _, _, h => Token.isChain_cons rfl h.1
  | .array [], _, h =>
    Token.isChain_cons rfl (Token.isChain_cons rfl h.1)
  | .array (t :: items), rest, h => by
    rw [tokens, List.append_assoc]
    exact Token.isChain_cons rfl
      (isChain_tokens_append t (canFollow_itemTokens_append items h.1))
  | .object [], _, h =>
    Token.isChain_cons rfl (Token.isChain_cons rfl h.1)
  | .object ((k, t) :: members), rest, h => by
    rw [tokens, List.append_assoc]
    -- The brace, the name and the colon can stand before everything
    have hvalue := isChain_tokens_append t (canFollow_memberTokens_append members h.1)
    exact Token.isChain_cons rfl (Token.isChain_cons rfl
      (Token.isChain_cons rfl hvalue))

theorem canFollow_itemTokens_append : ∀ (items : List Tree) {rest : List Token},
    rest.IsChain Token.Adjoins → CanFollow (itemTokens items ++ rest)
  | [], _, h => canFollow_cons rfl rfl h
  | t :: items, rest, h => by
    rw [itemTokens, List.append_assoc]
    exact canFollow_comma (isChain_tokens_append t (canFollow_itemTokens_append items h))
      (closes_head_tokens t _)

theorem canFollow_memberTokens_append : ∀ (members : List (List Char × Tree))
    {rest : List Token}, rest.IsChain Token.Adjoins → CanFollow (memberTokens members ++ rest)
  | [], _, h => canFollow_cons rfl rfl h
  | (k, t) :: members, rest, h => by
    rw [memberTokens, List.append_assoc]
    have hvalue := isChain_tokens_append t (canFollow_memberTokens_append members h)
    exact canFollow_comma (Token.isChain_cons rfl
      (Token.isChain_cons rfl hvalue)) (fun u hu => by cases hu; rfl)

end

/-- **In the tokens of a tree neighbours can stand right behind each other.** -/
theorem isChain_tokens (t : Tree) : t.tokens.IsChain Token.Adjoins := by
  have hnil : CanFollow [] := ⟨.nil, nofun⟩
  have h := isChain_tokens_append t hnil
  rwa [List.append_nil] at h

/-! ## Reading back -/

/-- An array that is not closed at once has a first item. -/
theorem read_openBracket {fuel : Nat} {ts rest rest' : List Token} {t : Tree} {items : List Tree}
    (hhead : ∀ u ∈ ts.head?, u.closes = false) (hfirst : read fuel ts = some (t, rest))
    (hitems : readItems fuel rest = some (items, rest')) :
    read (fuel + 1) (.openBracket :: ts) = some (.array (t :: items), rest') := by
  rw [read]
  · rw [hfirst, Option.bind_eq_bind, Option.bind_some]
    simp only [hitems]
    rfl
  · rintro rest'' rfl
    cases hhead _ rfl

theorem read_openBrace {fuel : Nat} {ts rest rest' : List Token} {k : List Char} {t : Tree}
    {members : List (List Char × Tree)} (hfirst : read fuel ts = some (t, rest))
    (hmembers : readMembers fuel rest = some (members, rest')) :
    read (fuel + 1) (.openBrace :: .string k :: .colon :: ts) =
      some (.object ((k, t) :: members), rest') := by
  rw [read, hfirst, Option.bind_eq_bind, Option.bind_some]
  simp only [hmembers]
  rfl

theorem readItems_comma {fuel : Nat} {ts rest rest' : List Token} {t : Tree} {items : List Tree}
    (hfirst : read fuel ts = some (t, rest))
    (hitems : readItems fuel rest = some (items, rest')) :
    readItems (fuel + 1) (.comma :: ts) = some (t :: items, rest') := by
  rw [readItems, hfirst, Option.bind_eq_bind, Option.bind_some]
  simp only [hitems]
  rfl

theorem readMembers_comma {fuel : Nat} {ts rest rest' : List Token} {k : List Char} {t : Tree}
    {members : List (List Char × Tree)} (hfirst : read fuel ts = some (t, rest))
    (hmembers : readMembers fuel rest = some (members, rest')) :
    readMembers (fuel + 1) (.comma :: .string k :: .colon :: ts) =
      some ((k, t) :: members, rest') := by
  rw [readMembers, hfirst, Option.bind_eq_bind, Option.bind_some]
  simp only [hmembers]
  rfl

mutual

/-- A tree is read from its tokens, whatever follows them. -/
theorem read_tokens_append : ∀ (t : Tree) {fuel : Nat} (rest : List Token),
    t.tokens.length ≤ fuel → read fuel (t.tokens ++ rest) = some (t, rest)
  | .word _, _ + 1, _, _ | .number _, _ + 1, _, _ | .string _, _ + 1, _, _
  | .array [], _ + 1, _, _ | .object [], _ + 1, _, _ => rfl
  | .array (t :: items), fuel + 1, rest, h => by
    rw [tokens, List.length_append, List.length_cons] at h
    rw [tokens, List.append_assoc]
    exact read_openBracket (closes_head_tokens t _) (read_tokens_append t _ (by omega))
      (readItems_tokens_append items rest (by omega))
  | .object ((k, t) :: members), fuel + 1, rest, h => by
    simp only [tokens, List.length_append, List.length_cons] at h
    rw [tokens, List.append_assoc]
    exact read_openBrace (read_tokens_append t _ (by omega))
      (readMembers_tokens_append members rest (by omega))

/-- The items of an array after the first are read from their tokens. -/
theorem readItems_tokens_append : ∀ (items : List Tree) {fuel : Nat} (rest : List Token),
    (itemTokens items).length ≤ fuel →
      readItems fuel (itemTokens items ++ rest) = some (items, rest)
  | [], _ + 1, _, _ => rfl
  | t :: items, fuel + 1, rest, h => by
    rw [itemTokens, List.length_append, List.length_cons] at h
    rw [itemTokens, List.append_assoc]
    exact readItems_comma (read_tokens_append t _ (by omega))
      (readItems_tokens_append items rest (by omega))

/-- The members of an object after the first are read from their tokens. -/
theorem readMembers_tokens_append : ∀ (members : List (List Char × Tree)) {fuel : Nat}
    (rest : List Token), (memberTokens members).length ≤ fuel →
      readMembers fuel (memberTokens members ++ rest) = some (members, rest)
  | [], _ + 1, _, _ => rfl
  | (k, t) :: members, fuel + 1, rest, h => by
    simp only [memberTokens, List.length_append, List.length_cons] at h
    rw [memberTokens, List.append_assoc]
    exact readMembers_comma (read_tokens_append t _ (by omega))
      (readMembers_tokens_append members rest (by omega))

end

/-- **The tokens of a tree make the tree.** -/
theorem ofTokens?_tokens (t : Tree) : ofTokens? t.tokens = some t := by
  have hread := read_tokens_append t [] (Nat.le_refl _)
  rw [List.append_nil] at hread
  rw [ofTokens?, hread]

end Tree

end MapChain.Json
