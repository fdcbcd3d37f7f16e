import MapChain.Json.Value
import MapChain.Proofs.Json.NumberText
import MapChain.Proofs.Json.TreeTokens

/-!
# Written values

A value that is written without spaces reads back as its tree: every string spells what it was
written for, every number is a literal, and no token runs into the next. So the text of a value says
what its tree says. Nothing in it is a control character.

## Layers

- **Characters of strings**: `Quoted.Encoded`, the ways in which a character is written.
- **Strings**: `Quoted.decode?_encode`, what is written is spelled.
- **Tokens**: `Token.IsPrinted`, the tokens that values are written with.

Main results: `ofText?_compact`, `compact_eq_compact_iff` and `le_toNat_of_mem_compact`.
-/

namespace MapChain.Json

/-! ## Characters of strings -/

namespace Quoted

/-- The ways in which a character is written. -/
inductive Encoded (c : Char) : List Char → Prop where
  | short {e : Char} (h : (e, c) ∈ shortEscapes) : Encoded c ['\\', e]
  | unit (h : c.toNat < 0x20) :
    Encoded c ['\\', 'u', '0', '0', hexChar (c.toNat / 16), hexChar (c.toNat % 16)]
  | plain (hquote : c ≠ '"') (hescape : c ≠ '\\') (h : ¬ c.toNat < 0x20) : Encoded c [c]

theorem encoded_encodeChar (c : Char) : Encoded c (encodeChar c) := by
  unfold encodeChar
  -- Seven characters have an escape of their own
  iterate 7
    split
    next h =>
      subst h
      exact .short (by decide)
  split
  next h => exact .unit h
  next h => exact .plain (by assumption) (by assumption) h

theorem of_mem_shortEscapes : ∀ p ∈ shortEscapes,
    shortEscapes.lookup p.1 = some p.2 ∧ p.1 ≠ 'u' ∧ 0x20 ≤ p.1.toNat := by decide

theorem of_hexChar : ∀ n < 16, hexDigit? (hexChar n) = some n ∧ hexChar n ≠ '"' ∧
    hexChar n ≠ '\\' ∧ 0x20 ≤ (hexChar n).toNat := by decide

/-- A place of a literal spells a character: it is the character, or its number below the space. -/
inductive Piece.Spells (c : Char) : Piece → Prop where
  | char : Spells c (.char c)
  | unit (h : c.toNat < 0x20) : Spells c (.unit c.toNat)

/-- How a character is written is one place of a literal. -/
theorem Encoded.pieces? {c : Char} {text : List Char} (h : Encoded c text) :
    ∃ p : Piece, p.Spells c ∧
      ∀ rest, Quoted.pieces? (text ++ rest) = (Quoted.pieces? rest).map (p :: ·) := by
  cases h with
  | @short e h =>
    obtain ⟨hlookup, hu, -⟩ := of_mem_shortEscapes _ h
    refine ⟨_, .char, fun rest => ?_⟩
    rw [List.cons_append, List.singleton_append, Quoted.pieces?, hlookup]
    · cases Quoted.pieces? rest <;> rfl
    · rintro a b c d rest rfl
      exact absurd rfl hu
  | unit h =>
    refine ⟨_, .unit h, fun rest => ?_⟩
    -- The first two of the four hexadecimal digits are zeros
    have hzero : hexDigit? '0' = some 0 := rfl
    have hhigh := (of_hexChar (c.toNat / 16) (by omega)).1
    have hlow := (of_hexChar (c.toNat % 16) (by omega)).1
    have hvalue : c.toNat / 16 * 16 + c.toNat % 16 = c.toNat := Nat.div_add_mod' _ _
    simp only [List.cons_append, List.nil_append, Quoted.pieces?, hzero, hhigh, hlow,
      Option.bind_eq_bind, Option.bind_some, Nat.zero_mul, Nat.zero_add, hvalue]
    cases Quoted.pieces? rest <;> rfl
  | plain hquote hescape h =>
    refine ⟨_, .char, fun rest => ?_⟩
    rw [List.singleton_append, Quoted.pieces?, if_neg (not_or_intro hescape h)]
    · rintro a b c d rest rfl
      exact absurd rfl hescape
    · rintro a rest rfl
      exact absurd rfl hescape

theorem Encoded.isBody_append {c : Char} {text : List Char} (h : Encoded c text) {rest : List Char}
    (hrest : isBody rest) : isBody (text ++ rest) := by
  cases h with
  | short h => exact hrest
  | unit h =>
    have hhigh := of_hexChar (c.toNat / 16) (by omega)
    have hlow := of_hexChar (c.toNat % 16) (by omega)
    have hdigits := isBody_cons hhigh.2.1 hhigh.2.2.1 (isBody_cons hlow.2.1 hlow.2.2.1 hrest)
    -- The backslash takes what follows it with it
    change isBody ('0' :: '0' :: _)
    exact isBody_cons (by decide) (by decide) (isBody_cons (by decide) (by decide) hdigits)
  | plain hquote hescape h => exact isBody_cons hquote hescape hrest

theorem Encoded.le_toNat {c : Char} {text : List Char} (h : Encoded c text) :
    ∀ d ∈ text, 0x20 ≤ d.toNat := by
  have hescape : 0x20 ≤ '\\'.toNat := by decide
  cases h with
  | short h => simpa [hescape] using (of_mem_shortEscapes _ h).2.2
  | unit h =>
    have hhigh := (of_hexChar (c.toNat / 16) (by omega)).2.2.2
    have hlow := (of_hexChar (c.toNat % 16) (by omega)).2.2.2
    have hu : 0x20 ≤ 'u'.toNat ∧ 0x20 ≤ '0'.toNat := by decide
    simp only [List.forall_mem_cons]
    exact ⟨hescape, hu.1, hu.2, hu.2, hhigh, hlow, nofun⟩
  | plain hquote hescape h => simpa using h

/-! ## Strings -/

theorem join?_unit {u : Nat} (h : u < 0xD800) (rest : List Piece) :
    join? (.unit u :: rest) = (join? rest).map (Char.ofNat u :: ·) := by
  have hhigh : isHighSurrogate u = false := by simp [isHighSurrogate]; omega
  have hlow : isLowSurrogate u = false := by simp [isLowSurrogate]; omega
  cases rest with
  | nil => simp [join?, hhigh, hlow]
  | cons p rest => cases p <;> simp [join?, hhigh, hlow]

theorem Piece.Spells.join? {c : Char} {p : Piece} (h : p.Spells c) (rest : List Piece) :
    Quoted.join? (p :: rest) = (Quoted.join? rest).map (c :: ·) := by
  cases h with
  | char => rfl
  | unit h => rw [join?_unit (by omega), Char.ofNat_toNat]

/-- The literal that writes a text spells it. -/
theorem exists_pieces?_encode (text : List Char) :
    ∃ ps, pieces? (encode text) = some ps ∧ join? ps = some text := by
  induction text with
  | nil => exact ⟨[], rfl, rfl⟩
  | cons c text ih =>
    obtain ⟨ps, hps, hjoin⟩ := ih
    obtain ⟨p, hp, hpieces⟩ := (encoded_encodeChar c).pieces?
    refine ⟨p :: ps, ?_, by rw [hp.join?, hjoin, Option.map_some]⟩
    rw [encode, List.flatMap_cons, hpieces, ← encode, hps, Option.map_some]

theorem decode?_encode (s : String) : decode? (encode s.toList) = some s := by
  obtain ⟨ps, hps, hjoin⟩ := exists_pieces?_encode s.toList
  rw [decode?, hps, Option.bind_some, hjoin, Option.map_some, String.ofList_toList]

/-- Texts that are written alike are the same. -/
theorem encode_injective {s t : String} (h : encode s.toList = encode t.toList) : s = t := by
  have hs := decode?_encode s
  rw [h, decode?_encode] at hs
  exact (Option.some.inj hs).symm

theorem isBody_encode (text : List Char) : isBody (encode text) := by
  induction text with
  | nil => rfl
  | cons c text ih => exact (encoded_encodeChar c).isBody_append ih

theorem le_toNat_of_mem_encode {text : List Char} : ∀ d ∈ encode text, 0x20 ≤ d.toNat := by
  intro d hd
  obtain ⟨c, -, hc⟩ := List.mem_flatMap.mp hd
  exact (encoded_encodeChar c).le_toNat d hc

end Quoted

/-! ## Tokens -/

namespace Token

/-- A token is written as it has to be, without a control character. -/
structure IsPrinted (t : Token) : Prop where
  isLexed : t.IsLexed
  le_toNat : ∀ c ∈ t.text, 0x20 ≤ c.toNat

theorem isPrinted_string (s : String) : (string (Quoted.encode s.toList)).IsPrinted := by
  obtain ⟨ps, hps, -⟩ := Quoted.exists_pieces?_encode s.toList
  refine ⟨⟨Quoted.isBody_encode _, by rw [hps]; rfl⟩, ?_⟩
  have hquote : 0x20 ≤ '"'.toNat := by decide
  exact List.forall_mem_append.mpr
    ⟨List.forall_mem_cons.mpr ⟨hquote, Quoted.le_toNat_of_mem_encode⟩,
      List.forall_mem_singleton.mpr hquote⟩

theorem isPrinted_number (n : Number) : (number n.text).IsPrinted := by
  refine ⟨n.isSome_ofChars?_text, fun c hc => ?_⟩
  have hrun := NumberLiteral.isRunChar_of_ofChars? n.isSome_ofChars?_text c hc
  have hrange := toNat_of_isRunChar hrun
  omega

/-- Words and punctuation are printed. -/
theorem isPrinted_of_all {t : Token} (hlexed : t.IsLexed)
    (h : t.text.all fun c => 0x20 ≤ c.toNat) : t.IsPrinted :=
  ⟨hlexed, fun c hc => of_decide_eq_true (List.all_eq_true.mp h c hc)⟩

/-- Printed tokens that can stand next to each other are written without spaces. -/
theorem written_writeTokens {ts : List Token} (hchain : ts.IsChain Adjoins)
    (h : ∀ t ∈ ts, t.IsPrinted) : Written ts (writeTokens ts) := by
  induction ts with
  | nil => exact .nil
  | cons t ts ih =>
    obtain ⟨hhead, htail⟩ := List.isChain_cons.mp hchain
    obtain ⟨ht, hts⟩ := List.forall_mem_cons.mp h
    have hrest := ih htail hts
    -- A run of characters ends where the next token begins, since the two can stand together
    exact .token ht.isLexed (fun hrun => hrest.endsRun fun u hu => (hhead u hu).run hrun) hrest

theorem isPrinted_of_mem_member (n : String) {ts : List Token} (h : ∀ t ∈ ts, t.IsPrinted) :
    ∀ t ∈ .string (Quoted.encode n.toList) :: .colon :: ts, t.IsPrinted :=
  List.forall_mem_cons.mpr ⟨isPrinted_string n,
    List.forall_mem_cons.mpr ⟨isPrinted_of_all trivial rfl, h⟩⟩

end Token

mutual

/-- The tokens of a value are printed. -/
theorem isPrinted_of_mem_tokens : ∀ v : Json, ∀ t ∈ v.toTree.tokens, t.IsPrinted
  | .null | .bool true | .bool false =>
    List.forall_mem_singleton.mpr (Token.isPrinted_of_all trivial rfl)
  | .number n => List.forall_mem_singleton.mpr (Token.isPrinted_number n)
  | .string s => List.forall_mem_singleton.mpr (Token.isPrinted_string s)
  | .array [] | .object [] =>
    List.forall_mem_cons.mpr ⟨Token.isPrinted_of_all trivial rfl,
      List.forall_mem_singleton.mpr (Token.isPrinted_of_all trivial rfl)⟩
  | .array (v :: items) =>
    List.forall_mem_append.mpr ⟨List.forall_mem_cons.mpr
      ⟨Token.isPrinted_of_all trivial rfl, isPrinted_of_mem_tokens v⟩,
      isPrinted_of_mem_itemTokens items⟩
  | .object ((n, v) :: members) =>
    List.forall_mem_append.mpr ⟨List.forall_mem_cons.mpr
      ⟨Token.isPrinted_of_all trivial rfl,
        Token.isPrinted_of_mem_member n (isPrinted_of_mem_tokens v)⟩,
      isPrinted_of_mem_memberTokens members⟩

theorem isPrinted_of_mem_itemTokens :
    ∀ items : List Json, ∀ t ∈ Tree.itemTokens (itemTrees items), t.IsPrinted
  | [] => List.forall_mem_singleton.mpr (Token.isPrinted_of_all trivial rfl)
  | v :: items =>
    List.forall_mem_append.mpr ⟨List.forall_mem_cons.mpr
      ⟨Token.isPrinted_of_all trivial rfl, isPrinted_of_mem_tokens v⟩,
      isPrinted_of_mem_itemTokens items⟩

theorem isPrinted_of_mem_memberTokens :
    ∀ members : List (String × Json), ∀ t ∈ Tree.memberTokens (memberTrees members), t.IsPrinted
  | [] => List.forall_mem_singleton.mpr (Token.isPrinted_of_all trivial rfl)
  | (n, v) :: members =>
    List.forall_mem_append.mpr ⟨List.forall_mem_cons.mpr
      ⟨Token.isPrinted_of_all trivial rfl,
        Token.isPrinted_of_mem_member n (isPrinted_of_mem_tokens v)⟩,
      isPrinted_of_mem_memberTokens members⟩

end

/-! ## Texts -/

theorem itemTrees_eq_map (items : List Json) : itemTrees items = items.map toTree := by
  induction items with
  | nil => rfl
  | cons v items ih => rw [itemTrees, ih, List.map_cons]

theorem memberTrees_eq_map (members : Fields) :
    memberTrees members = members.map fun m => (Quoted.encode m.1.toList, m.2.toTree) := by
  induction members with
  | nil => rfl
  | cons m members ih => rw [memberTrees, ih, List.map_cons]

theorem toList_compact (v : Json) : v.compact.toList = writeTokens v.toTree.tokens :=
  String.toList_ofList

/-- **The text of a value reads back as its tree.** -/
theorem ofText?_compact (v : Json) : Tree.ofText? v.compact.toList = some v.toTree := by
  have htokens : tokens? (writeTokens v.toTree.tokens) = some v.toTree.tokens :=
    tokens?_eq_some_iff.mpr
      (Token.written_writeTokens (Tree.isChain_tokens _) (isPrinted_of_mem_tokens v))
  rw [toList_compact, Tree.ofText?, htokens, Option.bind_some, Tree.ofTokens?_tokens]

/-- Texts of values are the same when their trees are. -/
theorem compact_eq_compact_iff {v w : Json} : v.compact = w.compact ↔ v.toTree = w.toTree := by
  constructor
  · intro h
    have hv := ofText?_compact v
    rw [h, ofText?_compact] at hv
    exact (Option.some.inj hv).symm
  · intro h
    rw [compact, h, compact]

/-- No control character is in the text of a value. -/
theorem le_toNat_of_mem_compact (v : Json) : ∀ c ∈ v.compact.toList, 0x20 ≤ c.toNat := by
  intro c hc
  rw [toList_compact] at hc
  obtain ⟨t, ht, hct⟩ := List.mem_flatMap.mp hc
  exact (isPrinted_of_mem_tokens v t ht).le_toNat c hct

end MapChain.Json
