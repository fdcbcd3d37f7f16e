import Mathlib.Data.List.TakeWhile
import MapChain.Json.Token

/-!
# How a text is cut into tokens

The lexer is defined one character at a time, and here it is taken one token at a time: what it
makes of a text that begins with white space, with punctuation, with a string literal or with a run
of other characters. Every text begins in one of these ways.

## Layers

- **Runs**: only some characters can stand in a word or a number.
- **Strings**: where the body of a string literal ends.
- **Equations**: `tokens?_space`, `tokens?_punctuation`, `tokens?_string` and `tokens?_run`.
- **Induction**: `textInduction`, from the beginnings of a text to the text.
- **Tokens**: `Token.IsLexed`, how a token has to be written.
- **Written tokens**: `Written`, which texts have which tokens.

Main result: `tokens?_eq_some_iff`.
-/

namespace MapChain.Json

/-! ## Runs -/

/-- Can stand in a word or a number. -/
def isRunChar (c : Char) : Bool := c.isAlphanum || c == '+' || c == '-' || c == '.'

theorem toNat_of_isRunChar {c : Char} (h : isRunChar c) :
    (0x2B ≤ c.toNat ∧ c.toNat ≤ 0x2E ∧ c.toNat ≠ 0x2C) ∨ (0x30 ≤ c.toNat ∧ c.toNat ≤ 0x39) ∨
      (0x41 ≤ c.toNat ∧ c.toNat ≤ 0x5A) ∨ (0x61 ≤ c.toNat ∧ c.toNat ≤ 0x7A) := by
  -- The ranges of the letters and of the digits
  change (((((decide (c.val ≥ 0x41 ∧ c.val ≤ 0x5A) ||
      decide (c.val ≥ 0x61) && decide (c.val ≤ 0x7A)) ||
        decide (c.val ≥ 0x30) && decide (c.val ≤ 0x39)) ||
      c == '+') || c == '-') || c == '.') = true at h
  simp only [Bool.or_eq_true, Bool.and_eq_true, decide_eq_true_eq, beq_iff_eq, ge_iff_le,
    UInt32.le_iff_toNat_le] at h
  rcases h with ((((h | h) | h) | rfl) | rfl) | rfl
  · exact .inr (.inr (.inl h))
  · exact .inr (.inr (.inr h))
  · exact .inr (.inl h)
  all_goals decide

theorem isBlank_of_isRunChar {c : Char} (h : isRunChar c) : Text.isBlank c = false := by
  have hrange := toNat_of_isRunChar h
  simp [Text.isBlank]
  omega

theorem isJsonSpace_of_isRunChar {c : Char} (h : isRunChar c) : Text.isJsonSpace c = false :=
  Bool.eq_false_iff.mpr fun hspace =>
    Bool.false_ne_true ((isBlank_of_isRunChar h).symm.trans (Text.isBlank_of_isJsonSpace hspace))

/-- Punctuation is written as its character, which is no white space and stands in no run. -/
theorem text_of_ofPunctuation? {c : Char} {t : Token} (h : Token.ofPunctuation? c = some t) :
    t.text = [c] ∧ Text.isJsonSpace c = false ∧ isRunChar c = false := by
  rw [Token.ofPunctuation?] at h
  repeat' split at h
  all_goals cases h
  all_goals
    subst_vars
    exact ⟨rfl, rfl, rfl⟩

/-- White space, punctuation and quotes end a run. -/
theorem endsRun_iff {c : Char} : LexerState.endsRun c ↔
    Text.isJsonSpace c ∨ (∃ t, Token.ofPunctuation? c = some t) ∨ c = '"' := by
  rw [LexerState.endsRun, Bool.or_eq_true, Bool.or_eq_true, Option.isSome_iff_exists, beq_iff_eq,
    or_assoc]

theorem endsRun_of_isRunChar {c : Char} (h : isRunChar c) : LexerState.endsRun c = false := by
  rw [Bool.eq_false_iff]
  intro hends
  obtain hspace | ⟨t, ht⟩ | rfl := endsRun_iff.mp hends
  · rw [isJsonSpace_of_isRunChar h] at hspace
    cases hspace
  · rw [(text_of_ofPunctuation? ht).2.2] at h
    cases h
  · cases h

namespace NumberLiteral

theorem isRunChar_of_spanDigits {text rest : List Char} {digits : List Nat}
    (h : spanDigits text = (digits, rest)) (hrest : ∀ c ∈ rest, isRunChar c) :
    ∀ c ∈ text, isRunChar c := by
  have hafter : text.dropWhile Char.isDigit = rest := congrArg Prod.snd h
  rw [← List.takeWhile_append_dropWhile (p := Char.isDigit) (l := text), hafter]
  refine List.forall_mem_append.mpr ⟨fun c hc => ?_, hrest⟩
  simp [isRunChar, Char.isAlphanum, List.mem_takeWhile_imp hc]

theorem isRunChar_of_exponent? {text : List Char} (h : (exponent? text).isSome) :
    ∀ c ∈ text, isRunChar c := by
  unfold exponent? at h
  split at h
  next => exact nofun
  next c text =>
    split at h
    next hc =>
      have hmark : isRunChar c := by
        rcases hc with rfl | rfl <;> decide
      refine List.forall_mem_cons.mpr ⟨hmark, ?_⟩
      dsimp only at h
      split at h
      next => cases h
      next hspan =>
        have hdigits := isRunChar_of_spanDigits hspan (List.forall_mem_nil _)
        split at hdigits
        next => exact List.forall_mem_cons.mpr ⟨by decide, hdigits⟩
        next => exact List.forall_mem_cons.mpr ⟨by decide, hdigits⟩
        next => exact hdigits
      next => cases h
    next => cases h

theorem isRunChar_of_ofChars? {text : List Char} (h : (ofChars? text).isSome) :
    ∀ c ∈ text, isRunChar c := by
  unfold ofChars? at h
  dsimp only at h
  split at h
  next => cases h
  next => cases h
  next hspan =>
    split at h
    next => cases h
    next hfraction =>
      rw [Option.isSome_map] at h
      have hpoint := isRunChar_of_spanDigits hfraction (isRunChar_of_exponent? h)
      have hunsigned :=
        isRunChar_of_spanDigits hspan (List.forall_mem_cons.mpr ⟨by decide, hpoint⟩)
      split at hunsigned
      next => exact List.forall_mem_cons.mpr ⟨by decide, hunsigned⟩
      next => exact hunsigned
  next hspan =>
    rw [Option.isSome_map] at h
    have hunsigned := isRunChar_of_spanDigits hspan (isRunChar_of_exponent? h)
    split at hunsigned
    next => exact List.forall_mem_cons.mpr ⟨by decide, hunsigned⟩
    next => exact hunsigned

end NumberLiteral

theorem isRunChar_of_mem_text (w : Word) : ∀ c ∈ w.text, isRunChar c := by
  rw [← List.all_eq_true]
  cases w <;> rfl

theorem isRunChar_of_ofRun? {run : List Char} {t : Token} (h : Token.ofRun? run = some t) :
    ∀ c ∈ run, isRunChar c := by
  rw [Token.ofRun?] at h
  repeat' split at h
  next hword => exact hword ▸ isRunChar_of_mem_text .null
  next hword => exact hword ▸ isRunChar_of_mem_text .true
  next hword => exact hword ▸ isRunChar_of_mem_text .false
  next hnumber => exact NumberLiteral.isRunChar_of_ofChars? hnumber
  next => cases h

/-! ## Strings -/

/-- Can stand between the quotes of a string literal: no quote without a backslash before it, and
something after every backslash. -/
def isBody : List Char → Bool
  | [] => true
  | '\\' :: _ :: body => isBody body
  | c :: body => c != '"' && c != '\\' && isBody body

/-- No string literal ends in a text that begins inside one. -/
def Unclosed (text : List Char) : Prop :=
  ∀ body rest, isBody body → text ≠ body ++ '"' :: rest

theorem exists_body_or_unclosed (text : List Char) :
    (∃ body rest, isBody body ∧ text = body ++ '"' :: rest) ∨ Unclosed text := by
  by_cases h : ∃ body rest, isBody body ∧ text = body ++ '"' :: rest
  · exact .inl h
  · exact .inr fun body rest hbody heq => h ⟨body, rest, hbody, heq⟩

theorem isBody_cons {c : Char} {body : List Char} (hquote : c ≠ '"') (hescape : c ≠ '\\')
    (h : isBody body) : isBody (c :: body) := by
  rw [isBody]
  · simp [hquote, hescape, h]
  · rintro c' body' rfl
    exact absurd rfl hescape

theorem Unclosed.of_cons {c : Char} {text : List Char} (hquote : c ≠ '"') (hescape : c ≠ '\\')
    (h : Unclosed (c :: text)) : Unclosed text := by
  rintro body rest hbody rfl
  exact h (c :: body) rest (isBody_cons hquote hescape hbody) rfl

theorem Unclosed.of_escape {c : Char} {text : List Char} (h : Unclosed ('\\' :: c :: text)) :
    Unclosed text := by
  rintro body rest hbody rfl
  exact h ('\\' :: c :: body) rest hbody rfl

theorem Unclosed.ne_quote {text : List Char} (h : Unclosed ('"' :: text)) : False :=
  h [] text (by decide) rfl

/-- Inside a string literal a function copies the text up to the closing quote, and goes on with
another function outside. -/
structure CopiesStrings (inside outside : List Char → List Char) : Prop where
  nil : inside [] = []
  quote : ∀ rest, inside ('"' :: rest) = '"' :: outside rest
  escape : ∀ c rest, inside ('\\' :: c :: rest) = '\\' :: c :: inside rest
  char : ∀ c rest, c ≠ '"' → (∀ d rest', c = '\\' → rest = d :: rest' → False) →
    inside (c :: rest) = c :: inside rest

theorem CopiesStrings.body {inside outside : List Char → List Char}
    (hcopies : CopiesStrings inside outside) {body : List Char} (h : isBody body)
    (rest : List Char) : inside (body ++ '"' :: rest) = body ++ '"' :: outside rest := by
  induction body using isBody.induct with
  | case1 => exact hcopies.quote rest
  | case2 c body ih =>
    rw [List.cons_append, List.cons_append, hcopies.escape, ih h]
    rfl
  | case3 c body hescape ih =>
    rw [isBody.eq_3 _ _ hescape, Bool.and_eq_true, Bool.and_eq_true, bne_iff_ne, bne_iff_ne] at h
    rw [List.cons_append, hcopies.char c _ h.1.1 fun _ _ hc => absurd hc h.1.2, ih h.2]
    rfl

theorem CopiesStrings.unclosed {inside outside : List Char → List Char}
    (hcopies : CopiesStrings inside outside) {text : List Char} (h : Unclosed text) :
    inside text = text := by
  induction text using isBody.induct with
  | case1 => exact hcopies.nil
  | case2 c text ih => rw [hcopies.escape, ih h.of_escape]
  | case3 c text hescape ih =>
    have hquote : c ≠ '"' := by
      rintro rfl
      exact h.ne_quote
    rw [hcopies.char c text hquote hescape]
    by_cases hc : c = '\\'
    · -- A backslash with nothing to escape is the last character
      cases text with
      | nil => rw [hcopies.nil]
      | cons d text => exact absurd rfl (hescape d text hc)
    · rw [ih (h.of_cons hquote hc)]

/-! ## Equations -/

theorem lex_cons (s : LexerState) (c : Char) (text : List Char) :
    s.lex (c :: text) = (s.step c).bind fun r => (r.2.lex text).map (r.1 ++ ·) := by
  rw [LexerState.lex]
  cases s.step c with
  | none => rfl
  | some r => cases h : r.2.lex text <;> simp [h]

theorem tokens?_cons (c : Char) (text : List Char) :
    tokens? (c :: text) =
      ((LexerState.start c).2.lex text).map ((LexerState.start c).1 ++ ·) := by
  rw [tokens?, lex_cons, LexerState.step, Option.bind_some]

theorem tokens?_space {c : Char} (h : Text.isJsonSpace c) (text : List Char) :
    tokens? (c :: text) = tokens? text := by
  rw [tokens?_cons, LexerState.start, if_pos h]
  exact Option.map_id'

theorem tokens?_punctuation {c : Char} {t : Token} (h : Token.ofPunctuation? c = some t)
    (text : List Char) : tokens? (c :: text) = (tokens? text).map (t :: ·) := by
  rw [tokens?_cons, LexerState.start,
    if_neg (Bool.eq_false_iff.mp (text_of_ofPunctuation? h).2.1), h]
  rfl

theorem tokens?_quote (text : List Char) :
    tokens? ('"' :: text) = LexerState.lex (.body []) text := by
  rw [tokens?_cons]
  exact Option.map_id'

/-- Inside a string literal the characters up to its end are collected. -/
theorem lex_body {body : List Char} (h : isBody body) (read rest : List Char) :
    LexerState.lex (.body read) (body ++ '"' :: rest) =
      (Token.ofBody? (read.reverse ++ body)).bind fun t => (tokens? rest).map (t :: ·) := by
  induction body using isBody.induct generalizing read with
  | case1 =>
    rw [List.nil_append, lex_cons, LexerState.step, if_pos rfl, List.append_nil]
    cases Token.ofBody? read.reverse <;> rfl
  | case2 c body ih =>
    have hrest := ih h (c :: '\\' :: read)
    rw [List.cons_append, List.cons_append, lex_cons, LexerState.step, if_neg (by decide),
      if_pos rfl, Option.bind_some, lex_cons, LexerState.step, Option.bind_some, hrest]
    simp
  | case3 c body hescape ih =>
    rw [isBody.eq_3 _ _ hescape, Bool.and_eq_true, Bool.and_eq_true, bne_iff_ne, bne_iff_ne] at h
    rw [List.cons_append, lex_cons, LexerState.step, if_neg h.1.1, if_neg h.1.2, Option.bind_some,
      ih h.2]
    simp

theorem tokens?_string {body : List Char} (h : isBody body) (rest : List Char) :
    tokens? ('"' :: (body ++ '"' :: rest)) =
      (Token.ofBody? body).bind fun t => (tokens? rest).map (t :: ·) := by
  rw [tokens?_quote, lex_body h]
  rfl

theorem lex_unclosed {text : List Char} (h : Unclosed text) (read : List Char) :
    LexerState.lex (.body read) text = none := by
  induction text using isBody.induct generalizing read with
  | case1 => rfl
  | case2 c text ih =>
    rw [lex_cons, LexerState.step, if_neg (by decide), if_pos rfl, Option.bind_some, lex_cons,
      LexerState.step, Option.bind_some, ih h.of_escape]
    rfl
  | case3 c text hescape ih =>
    have hquote : c ≠ '"' := by
      rintro rfl
      exact h.ne_quote
    rw [lex_cons, LexerState.step, if_neg hquote]
    split
    next hc =>
      subst hc
      cases text with
      | nil => rfl
      | cons d text => exact absurd rfl (hescape d text rfl)
    next hc =>
      rw [Option.bind_some, ih (h.of_cons hquote hc)]
      rfl

theorem tokens?_unclosed {text : List Char} (h : Unclosed text) : tokens? ('"' :: text) = none := by
  rw [tokens?_quote, lex_unclosed h]

/-- The text is at its end, or its next character can be in no run. -/
def EndsRun (text : List Char) : Prop := ∀ c ∈ text.head?, LexerState.endsRun c

theorem endsRun_cons {c : Char} (h : LexerState.endsRun c) (rest : List Char) :
    EndsRun (c :: rest) := fun _ hd => Option.some.inj hd ▸ h

/-- Inside a run the characters up to its end are collected. -/
theorem lex_run {run rest : List Char} (hrun : ∀ c ∈ run, LexerState.endsRun c = false)
    (hrest : EndsRun rest) (read : List Char) :
    LexerState.lex (.run read) (run ++ rest) =
      (Token.ofRun? (read.reverse ++ run)).bind fun t => (tokens? rest).map (t :: ·) := by
  induction run generalizing read with
  | nil =>
    rw [List.nil_append, List.append_nil]
    -- A run is read when the text ends, or when a character comes that starts the next token
    cases rest with
    | nil =>
      rw [LexerState.lex, LexerState.finish]
      cases Token.ofRun? read.reverse <;> rfl
    | cons c rest =>
      rw [lex_cons, LexerState.step, if_pos (hrest c rfl)]
      simp only [tokens?_cons]
      cases Token.ofRun? read.reverse with
      | none => rfl
      | some t => cases h : (LexerState.start c).2.lex rest <;> simp [h]
  | cons c run ih =>
    rw [List.forall_mem_cons] at hrun
    rw [List.cons_append, lex_cons, LexerState.step, if_neg (Bool.eq_false_iff.mp hrun.1),
      Option.bind_some, ih hrun.2]
    simp

theorem start_of_not_endsRun {c : Char} (h : LexerState.endsRun c = false) :
    LexerState.start c = ([], .run [c]) := by
  rw [LexerState.endsRun, Bool.or_eq_false_iff, Bool.or_eq_false_iff, Option.isSome_eq_false_iff,
    Option.isNone_iff_eq_none, beq_eq_false_iff_ne] at h
  rw [LexerState.start, if_neg (Bool.eq_false_iff.mp h.1.1), h.1.2]
  exact if_neg h.2

theorem tokens?_run {run rest : List Char} (hne : run ≠ [])
    (hrun : ∀ c ∈ run, LexerState.endsRun c = false) (hrest : EndsRun rest) :
    tokens? (run ++ rest) = (Token.ofRun? run).bind fun t => (tokens? rest).map (t :: ·) := by
  cases run with
  | nil => exact absurd rfl hne
  | cons c run =>
    rw [List.forall_mem_cons] at hrun
    rw [List.cons_append, tokens?_cons, start_of_not_endsRun hrun.1, lex_run hrun.2 hrest]
    exact Option.map_id'

/-- Every text begins with a run, which can be empty. -/
theorem exists_run_append (text : List Char) : ∃ run rest, text = run ++ rest ∧
    (∀ c ∈ run, LexerState.endsRun c = false) ∧ EndsRun rest := by
  refine ⟨text.takeWhile (!LexerState.endsRun ·), text.dropWhile (!LexerState.endsRun ·),
    List.takeWhile_append_dropWhile.symm, fun c hc => ?_, fun c hc => ?_⟩
  · simpa using List.mem_takeWhile_imp hc
  · have hnot := List.head?_dropWhile_not (!LexerState.endsRun ·) text
    rw [hc] at hnot
    simpa using hnot

/-- A run with a character that can stand in no word and no number is no token. -/
theorem tokens?_run_append_eq_none {run : List Char}
    (hrun : ∀ d ∈ run, LexerState.endsRun d = false) {c : Char}
    (hends : LexerState.endsRun c = false) (hc : isRunChar c = false) (rest : List Char) :
    tokens? (run ++ c :: rest) = none := by
  -- The character is in the middle of a longer run, which would have to be one token
  obtain ⟨more, rest, rfl, hmore, hrest⟩ := exists_run_append rest
  have hall : ∀ d ∈ run ++ c :: more, LexerState.endsRun d = false :=
    List.forall_mem_append.mpr ⟨hrun, List.forall_mem_cons.mpr ⟨hends, hmore⟩⟩
  have hsplit : run ++ c :: (more ++ rest) = (run ++ c :: more) ++ rest := by
    rw [List.append_assoc, List.cons_append]
  rw [hsplit, tokens?_run (by simp) hall hrest, Option.bind_eq_none_iff]
  intro t ht
  have hc' := isRunChar_of_ofRun? ht c (by simp)
  rw [hc] at hc'
  cases hc'

theorem tokens?_cons_eq_none {c : Char} (hends : LexerState.endsRun c = false)
    (hc : isRunChar c = false) (rest : List Char) : tokens? (c :: rest) = none :=
  tokens?_run_append_eq_none (List.forall_mem_nil _) hends hc rest

/-! ## Induction -/

/-- What holds of a text that begins with white space, with punctuation, with a string literal or
with a run if it holds of what follows, and of a text that begins with a quote and no string
literal, holds of every text. -/
theorem textInduction {motive : List Char → Prop} (nil : motive [])
    (space : ∀ c rest, Text.isJsonSpace c → motive rest → motive (c :: rest))
    (punctuation : ∀ c t rest, Token.ofPunctuation? c = some t → motive rest → motive (c :: rest))
    (string : ∀ body rest, isBody body → motive rest → motive ('"' :: (body ++ '"' :: rest)))
    (unclosed : ∀ text, Unclosed text → motive ('"' :: text))
    (run : ∀ run rest, run ≠ [] → (∀ c ∈ run, LexerState.endsRun c = false) → EndsRun rest →
      motive rest → motive (run ++ rest))
    (text : List Char) : motive text := by
  -- On the length, since literals and runs take more than one character at a time
  induction hn : text.length using Nat.strong_induction_on generalizing text with
  | _ n ih =>
    subst hn
    cases text with
    | nil => exact nil
    | cons c text =>
      by_cases hends : LexerState.endsRun c
      · obtain hspace | ⟨t, ht⟩ | rfl := endsRun_iff.mp hends
        · exact space c text hspace (ih _ (by simp) text rfl)
        · exact punctuation c t text ht (ih _ (by simp) text rfl)
        · obtain ⟨body, rest, hbody, rfl⟩ | htext := exists_body_or_unclosed text
          · exact string body rest hbody (ih _ (by simp; omega) rest rfl)
          · exact unclosed text htext
      · rw [Bool.not_eq_true] at hends
        obtain ⟨more, rest, rfl, hmore, hrest⟩ := exists_run_append text
        have hshorter : rest.length < (c :: (more ++ rest)).length := by
          rw [List.length_cons, List.length_append]
          omega
        exact run (c :: more) rest (List.cons_ne_nil _ _)
          (List.forall_mem_cons.mpr ⟨hends, hmore⟩) hrest (ih _ hshorter rest rfl)

/-! ## Tokens -/

namespace Token

/-- A word or a number: nothing in it tells where it ends. -/
def isRun : Token → Bool
  | .word _ | .number _ => true
  | _ => false

/-- Opens an array or object. -/
def opens : Token → Bool
  | .openBrace | .openBracket => true
  | _ => false

/-- Closes an array or object. -/
def closes : Token → Bool
  | .closeBrace | .closeBracket => true
  | _ => false

theorem isRun_of_closes {t : Token} (h : t.closes) : t.isRun = false := by
  cases t <;> first | rfl | cases h

/-- How a token has to be written. -/
def IsLexed : Token → Prop
  | .number literal => (NumberLiteral.ofChars? literal).isSome
  | .string body => isBody body ∧ (Quoted.pieces? body).isSome
  | _ => True

theorem isLexed_of_ofPunctuation? {c : Char} {t : Token} (h : ofPunctuation? c = some t) :
    t.IsLexed ∧ t.isRun = false := by
  rw [ofPunctuation?] at h
  repeat' split at h
  all_goals cases h
  all_goals exact ⟨trivial, rfl⟩

theorem isLexed_of_ofBody? {body : List Char} {t : Token} (hbody : isBody body)
    (h : ofBody? body = some t) : t = .string body ∧ t.IsLexed := by
  rw [ofBody?, Option.ite_none_right_eq_some] at h
  cases h.2
  exact ⟨rfl, hbody, h.1⟩

theorem ofRun?_eq_some {run : List Char} {t : Token} (h : ofRun? run = some t) :
    t.isRun ∧ t.IsLexed ∧ t.text = run := by
  rw [ofRun?] at h
  repeat' split at h
  all_goals cases h
  next hrun => exact ⟨rfl, trivial, hrun.symm⟩
  next hrun => exact ⟨rfl, trivial, hrun.symm⟩
  next hrun => exact ⟨rfl, trivial, hrun.symm⟩
  next hrun => exact ⟨rfl, hrun, rfl⟩

theorem ofRun?_text {t : Token} (hrun : t.isRun) (h : t.IsLexed) : ofRun? t.text = some t := by
  cases t with
  | word w => cases w <;> rfl
  | number literal =>
    have hnumber : (NumberLiteral.ofChars? literal).isSome := h
    -- Words are looked for before numbers
    have hword : ∀ w : Word, literal ≠ w.text := by
      rintro w rfl
      cases w <;> exact absurd hnumber (by decide)
    rw [ofRun?, text, if_neg (hword _), if_neg (hword _), if_neg (hword _), if_pos hnumber]
  | _ => cases hrun

theorem text_ne_nil {t : Token} (h : t.IsLexed) : t.text ≠ [] := by
  cases t with
  | word w => cases w <;> exact List.cons_ne_nil _ _
  | number literal =>
    rintro rfl
    cases h
  | _ => exact List.cons_ne_nil _ _

end Token

/-- A text that begins with a token is cut behind it. -/
theorem tokens?_text_append {t : Token} (h : t.IsLexed) {rest : List Char}
    (hrest : t.isRun → EndsRun rest) :
    tokens? (t.text ++ rest) = (tokens? rest).map (t :: ·) := by
  by_cases hrun : t.isRun
  · have hofRun := Token.ofRun?_text hrun h
    rw [tokens?_run (Token.text_ne_nil h) _ (hrest hrun), hofRun, Option.bind_some]
    exact fun c hc => endsRun_of_isRunChar (isRunChar_of_ofRun? hofRun c hc)
  · cases t with
    | string body =>
      have hbody : Token.ofBody? body = some (.string body) := if_pos h.2
      rw [Token.text, List.append_assoc, List.cons_append, List.singleton_append,
        tokens?_string h.1, hbody, Option.bind_some]
    | word w => exact absurd rfl hrun
    | number literal => exact absurd rfl hrun
    | _ => exact tokens?_punctuation rfl rest

/-! ## Written tokens -/

/-- A text is tokens in their order, with white space before and behind them, and no word or number
in it is carried on by what follows. -/
inductive Written : List Token → List Char → Prop where
  | nil : Written [] []
  | space {c ts rest} (hc : Text.isJsonSpace c) (hrest : Written ts rest) : Written ts (c :: rest)
  | token {t ts rest} (ht : t.IsLexed) (hends : t.isRun → EndsRun rest) (hrest : Written ts rest) :
      Written (t :: ts) (t.text ++ rest)

theorem written_of_tokens? {text : List Char} {ts : List Token} (h : tokens? text = some ts) :
    Written ts text := by
  induction text using textInduction generalizing ts with
  | nil =>
    cases h
    exact .nil
  | space c rest hspace ih => exact .space hspace (ih ((tokens?_space hspace rest).symm.trans h))
  | punctuation c t rest ht ih =>
    rw [tokens?_punctuation ht, Option.map_eq_some_iff] at h
    obtain ⟨ts, hrest, rfl⟩ := h
    obtain ⟨hlexed, hrun⟩ := Token.isLexed_of_ofPunctuation? ht
    have hwritten := Written.token hlexed (fun h => by rw [hrun] at h; cases h) (ih hrest)
    rwa [(text_of_ofPunctuation? ht).1] at hwritten
  | string body rest hbody ih =>
    rw [tokens?_string hbody, Option.bind_eq_some_iff] at h
    obtain ⟨t, ht, h⟩ := h
    obtain ⟨ts, hrest, rfl⟩ := Option.map_eq_some_iff.mp h
    obtain ⟨rfl, hlexed⟩ := Token.isLexed_of_ofBody? hbody ht
    have hwritten := Written.token hlexed nofun (ih hrest)
    rwa [Token.text, List.append_assoc] at hwritten
  | unclosed text htext =>
    rw [tokens?_unclosed htext] at h
    cases h
  | run run rest hne hrun hends ih =>
    rw [tokens?_run hne hrun hends, Option.bind_eq_some_iff] at h
    obtain ⟨t, ht, h⟩ := h
    obtain ⟨ts, hrest, rfl⟩ := Option.map_eq_some_iff.mp h
    obtain ⟨-, hlexed, rfl⟩ := Token.ofRun?_eq_some ht
    exact .token hlexed (fun _ => hends) (ih hrest)

/-- **The lexer finds the tokens that a text is written with**, and no others. -/
theorem tokens?_eq_some_iff {text : List Char} {ts : List Token} :
    tokens? text = some ts ↔ Written ts text := by
  constructor
  · exact written_of_tokens?
  · intro h
    induction h with
    | nil => rfl
    | space hc _ ih => rw [tokens?_space hc, ih]
    | token ht hends _ ih =>
      rw [tokens?_text_append ht hends, ih]
      rfl

theorem Written.isLexed {ts : List Token} {text : List Char} (h : Written ts text) :
    ∀ t ∈ ts, t.IsLexed := by
  induction h with
  | nil => exact nofun
  | space _ _ ih => exact ih
  | token ht _ _ ih => exact List.forall_mem_cons.mpr ⟨ht, ih⟩

/-- A text whose first token is no word and no number can stand behind one. -/
theorem Written.endsRun {ts : List Token} {text : List Char} (h : Written ts text)
    (hhead : ∀ t ∈ ts.head?, t.isRun = false) : EndsRun text := by
  cases h with
  | nil => exact nofun
  | space hc _ => exact endsRun_cons (endsRun_iff.mpr (.inl hc)) _
  | @token t ts rest ht _ _ =>
    have hrun := hhead t rfl
    cases t with
    | word _ | number _ => cases hrun
    | _ => exact endsRun_cons (by decide) _

end MapChain.Json
