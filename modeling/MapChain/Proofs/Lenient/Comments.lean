import Mathlib.Data.List.Infix
import MapChain.Config.Lenient
import MapChain.Proofs.Json.TreeTokens

/-!
# Comments between tokens

What is left of a text without its comments has tokens exactly if the text arranges them: with white
space and comments between them, and with comments in the middle of words and numbers.

## Layers

- **Arrangements**: `Separator`, `Broken` and `Arranged`.
- **Texts**: what dropping does to the beginnings of a text, of which there are few.
- **From an arrangement to the tokens**: `Arranged.tokens?`.
- **From the tokens to an arrangement**: `arranged_of_tokens?`, by induction on the length of a
  text.
-/

namespace MapChain.Lenient

open Json

/-! ## Arrangements -/

/-- White space and comments. -/
inductive Separator : List Char → Prop where
  | nil : Separator []
  | space {c rest} (hc : Text.isJsonSpace c) (hrest : Separator rest) : Separator (c :: rest)
  | line {body rest} (hbody : '\n' ∉ body) (hrest : Separator rest) :
      Separator ('/' :: '/' :: (body ++ '\n' :: rest))
  | block {body rest} (hbody : ¬ ['*', '/'] <:+: body) (hrest : Separator rest) :
      Separator ('/' :: '*' :: (body ++ '*' :: '/' :: rest))

/-- A text with block comments before its characters. -/
inductive Broken : List Char → List Char → Prop where
  | nil : Broken [] []
  | char {c cs text} (hrest : Broken cs text) : Broken (c :: cs) (c :: text)
  | block {c cs body text} (hbody : ¬ ['*', '/'] <:+: body) (hrest : Broken (c :: cs) text) :
      Broken (c :: cs) ('/' :: '*' :: (body ++ '*' :: '/' :: text))

/-- A text that has tokens in their order with separators before them, each token written in a way
that is allowed, and that ends in a way that is allowed. -/
inductive Arranged (Spells : Token → List Char → Prop) (Ends : List Char → Prop) :
    List Token → List Char → Prop where
  | done {text} (hends : Ends text) : Arranged Spells Ends [] text
  | token {t ts gap spelling rest} (hgap : Separator gap) (hspells : Spells t spelling)
      (hrest : Arranged Spells Ends ts rest) :
      Arranged Spells Ends (t :: ts) (gap ++ (spelling ++ rest))

/-- A token is written as it is, or with block comments in the middle if it is a word or a number.
-/
def SpellsBroken (t : Token) (text : List Char) : Prop :=
  if t.isRun then Broken t.text text else text = t.text

/-- A text ends with separators and perhaps a line comment. -/
def EndsClosed (text : List Char) : Prop :=
  Separator text ∨ ∃ gap body, Separator gap ∧ '\n' ∉ body ∧ text = gap ++ '/' :: '/' :: body

/-- A text ends so, or with a block comment that is not closed. -/
def EndsOpen (text : List Char) : Prop :=
  EndsClosed text ∨
    ∃ gap body, Separator gap ∧ ¬ ['*', '/'] <:+: body ∧ text = gap ++ '/' :: '*' :: body

theorem Separator.append {gap gap' : List Char} (h : Separator gap) (h' : Separator gap') :
    Separator (gap ++ gap') := by
  induction h with
  | nil => exact h'
  | space hc _ ih => exact .space hc ih
  | line hbody _ ih =>
    rw [List.cons_append, List.cons_append, List.append_assoc, List.cons_append]
    exact .line hbody ih
  | block hbody _ ih =>
    rw [List.cons_append, List.cons_append, List.append_assoc, List.cons_append, List.cons_append]
    exact .block hbody ih

theorem EndsClosed.append {gap text : List Char} (hgap : Separator gap) (h : EndsClosed text) :
    EndsClosed (gap ++ text) := by
  obtain h | ⟨gap', body, hgap', hbody, rfl⟩ := h
  · exact .inl (hgap.append h)
  · exact .inr ⟨_, body, hgap.append hgap', hbody, (List.append_assoc ..).symm⟩

theorem EndsOpen.append {gap text : List Char} (hgap : Separator gap) (h : EndsOpen text) :
    EndsOpen (gap ++ text) := by
  obtain h | ⟨gap', body, hgap', hbody, rfl⟩ := h
  · exact .inl (h.append hgap)
  · exact .inr ⟨_, body, hgap.append hgap', hbody, (List.append_assoc ..).symm⟩

theorem broken_self (text : List Char) : Broken text text := by
  induction text with
  | nil => exact .nil
  | cons c text ih => exact .char ih

theorem spellsBroken_text (t : Token) : SpellsBroken t t.text := by
  rw [SpellsBroken]
  split
  · exact broken_self t.text
  · rfl

section

variable {Spells Spells' : Token → List Char → Prop} {Ends Ends' : List Char → Prop}
  {ts : List Token} {text : List Char}

theorem Arranged.mono (hspells : ∀ t spelling, Spells t spelling → Spells' t spelling)
    (hends : ∀ text, Ends text → Ends' text) (h : Arranged Spells Ends ts text) :
    Arranged Spells' Ends' ts text := by
  induction h with
  | done h => exact .done (hends _ h)
  | token hgap h _ ih => exact .token hgap (hspells _ _ h) ih

/-- Separators can be put before an arrangement. -/
theorem Arranged.separated {gap : List Char} (h : Arranged Spells Ends ts text)
    (hgap : Separator gap) (hends : ∀ text, Ends text → Ends (gap ++ text)) :
    Arranged Spells Ends ts (gap ++ text) := by
  cases h with
  | done h => exact .done (hends _ h)
  | token hgap' hspells hrest =>
    rw [← List.append_assoc]
    exact .token (hgap.append hgap') hspells hrest

end

/-! ## Texts -/

theorem dropComments_cons {c : Char} (hquote : c ≠ '"') (hslash : c ≠ '/') (rest : List Char) :
    dropComments (c :: rest) = c :: dropComments rest := by
  rw [dropComments, dropCommentsFrom.eq_5 _ _ hquote (fun _ h => absurd h hslash)
    fun _ h => absurd h hslash]
  rfl

/-- A block comment is dropped. -/
theorem dropComments_block {body : List Char} (h : ¬ ['*', '/'] <:+: body) (rest : List Char) :
    dropComments ('/' :: '*' :: (body ++ '*' :: '/' :: rest)) = dropComments rest := by
  change dropCommentsFrom .blockComment (body ++ '*' :: '/' :: rest) = _
  induction body with
  | nil => rfl
  | cons c body ih =>
    rw [List.infix_cons_iff, not_or] at h
    rw [List.cons_append, dropCommentsFrom.eq_12, ih h.2]
    -- A star at the end of the body does not end the comment: what follows it is a star
    rintro rest' rfl heq
    cases body with
    | nil => cases heq
    | cons d body =>
      cases heq
      exact h.1 ⟨body, rfl⟩

example : dropComments "tr/* a // b */ue".toList = "true".toList := by cbv

theorem dropComments_openBlock {body : List Char} (h : ¬ ['*', '/'] <:+: body) :
    dropComments ('/' :: '*' :: body) = [] := by
  change dropCommentsFrom .blockComment body = _
  induction body with
  | nil => rfl
  | cons c body ih =>
    rw [List.infix_cons_iff, not_or] at h
    rw [dropCommentsFrom.eq_12, ih h.2]
    rintro rest' rfl rfl
    exact h.1 ⟨rest', rfl⟩

theorem copiesStrings_dropComments : CopiesStrings (dropCommentsFrom .string) dropComments where
  nil := rfl
  quote _ := rfl
  escape _ _ := rfl
  char c rest hquote hescape := dropCommentsFrom.eq_8 c rest hquote hescape

theorem dropComments_string {body : List Char} (h : isBody body) (rest : List Char) :
    dropComments ('"' :: (body ++ '"' :: rest)) = '"' :: (body ++ '"' :: dropComments rest) :=
  congrArg ('"' :: ·) (copiesStrings_dropComments.body h rest)

theorem dropComments_unclosed {text : List Char} (h : Unclosed text) :
    dropComments ('"' :: text) = '"' :: text :=
  congrArg ('"' :: ·) (copiesStrings_dropComments.unclosed h)

/-- A line comment is dropped up to its line feed. -/
theorem dropComments_line {body : List Char} (h : '\n' ∉ body) (rest : List Char) :
    dropComments ('/' :: '/' :: (body ++ '\n' :: rest)) = '\n' :: dropComments rest := by
  change dropCommentsFrom .lineComment (body ++ '\n' :: rest) = _
  induction body with
  | nil => rfl
  | cons c body ih =>
    rw [List.mem_cons, not_or] at h
    rw [List.cons_append, dropCommentsFrom.eq_10 _ _ (Ne.symm h.1), ih h.2]

theorem dropComments_openLine {body : List Char} (h : '\n' ∉ body) :
    dropComments ('/' :: '/' :: body) = [] := by
  change dropCommentsFrom .lineComment body = _
  induction body with
  | nil => rfl
  | cons c body ih =>
    rw [List.mem_cons, not_or] at h
    rw [dropCommentsFrom.eq_10 _ _ (Ne.symm h.1), ih h.2]

/-- What dropping makes of a text can be told from how the text begins. -/
inductive Beginning : List Char → Prop where
  | nil : Beginning []
  | char {c rest} (hquote : c ≠ '"') (hkept : dropComments (c :: rest) = c :: dropComments rest) :
      Beginning (c :: rest)
  | string {body rest} (hbody : isBody body) : Beginning ('"' :: (body ++ '"' :: rest))
  | unclosed {text} (htext : Unclosed text) : Beginning ('"' :: text)
  | line {body rest} (hbody : '\n' ∉ body) : Beginning ('/' :: '/' :: (body ++ '\n' :: rest))
  | openLine {body} (hbody : '\n' ∉ body) : Beginning ('/' :: '/' :: body)
  | block {body rest} (hbody : ¬ ['*', '/'] <:+: body) :
      Beginning ('/' :: '*' :: (body ++ '*' :: '/' :: rest))
  | openBlock {body} (hbody : ¬ ['*', '/'] <:+: body) : Beginning ('/' :: '*' :: body)

/-- A block comment ends with the first end of one. -/
theorem exists_block {text : List Char} (h : ['*', '/'] <:+: text) :
    ∃ body rest, ¬ ['*', '/'] <:+: body ∧ text = body ++ '*' :: '/' :: rest := by
  induction text with
  | nil => cases List.infix_nil.mp h
  | cons c text ih =>
    by_cases hfirst : ['*', '/'] <+: c :: text
    · obtain ⟨rest, hrest⟩ := hfirst
      exact ⟨[], rest, by decide, hrest.symm⟩
    · obtain ⟨body, rest, hbody, rfl⟩ := ih ((List.infix_cons_iff.mp h).resolve_left hfirst)
      refine ⟨c :: body, rest, ?_, rfl⟩
      rw [List.infix_cons_iff, not_or]
      exact ⟨fun h => hfirst (h.trans (List.prefix_append _ _)), hbody⟩

theorem beginning_slash (text : List Char) : Beginning ('/' :: text) := by
  have hkept : (∀ rest, text ≠ '/' :: rest) → (∀ rest, text ≠ '*' :: rest) →
      Beginning ('/' :: text) := fun hline hblock =>
    .char (by decide) <| dropCommentsFrom.eq_5 _ _ (by decide) (fun rest _ => hline rest)
      fun rest _ => hblock rest
  cases text with
  | nil => exact hkept nofun nofun
  | cons c text =>
    by_cases hline : c = '/'
    · subst hline
      by_cases hends : '\n' ∈ text
      · obtain ⟨body, rest, rfl, hbody⟩ := List.eq_append_cons_of_mem hends
        exact .line hbody
      · exact .openLine hends
    · by_cases hblock : c = '*'
      · subst hblock
        by_cases hends : ['*', '/'] <:+: text
        · obtain ⟨body, rest, hbody, rfl⟩ := exists_block hends
          exact .block hbody
        · exact .openBlock hends
      · exact hkept (by simp [hline]) (by simp [hblock])

theorem beginning (text : List Char) : Beginning text := by
  cases text with
  | nil => exact .nil
  | cons c text =>
    by_cases hslash : c = '/'
    · exact hslash ▸ beginning_slash text
    · by_cases hquote : c = '"'
      · subst hquote
        obtain ⟨body, rest, hbody, rfl⟩ | htext := exists_body_or_unclosed text
        · exact .string hbody
        · exact .unclosed htext
      · exact .char hquote (dropComments_cons hquote hslash text)

/-! ## From an arrangement to the tokens -/

/-- Separators leave only white space. -/
theorem Separator.tokens?_append {gap : List Char} (h : Separator gap) (rest : List Char) :
    tokens? (dropComments (gap ++ rest)) = tokens? (dropComments rest) := by
  induction h with
  | nil => rfl
  | @space c gap hc _ ih =>
    have hkept : dropComments (c :: gap ++ rest) = c :: dropComments (gap ++ rest) := by
      apply dropComments_cons <;> rintro rfl <;> cases hc
    rw [hkept, tokens?_space hc, ih]
  | line hbody _ ih =>
    rw [List.cons_append, List.cons_append, List.append_assoc, List.cons_append,
      dropComments_line hbody, tokens?_space rfl, ih]
  | block hbody _ ih =>
    rw [List.cons_append, List.cons_append, List.append_assoc, List.cons_append,
      List.cons_append, dropComments_block hbody, ih]

theorem EndsOpen.tokens? {text : List Char} (h : EndsOpen text) :
    Json.tokens? (dropComments text) = some [] := by
  obtain (h | ⟨gap, body, hgap, hbody, rfl⟩) | ⟨gap, body, hgap, hbody, rfl⟩ := h
  · have hseparator := h.tokens?_append []
    rwa [List.append_nil] at hseparator
  · rw [hgap.tokens?_append, dropComments_openLine hbody]
    rfl
  · rw [hgap.tokens?_append, dropComments_openBlock hbody]
    rfl

theorem Broken.dropComments_append {cs text : List Char} (h : Broken cs text)
    (hcs : ∀ c ∈ cs, isRunChar c) (rest : List Char) :
    dropComments (text ++ rest) = cs ++ dropComments rest := by
  induction h with
  | nil => rfl
  | char _ ih =>
    rw [List.forall_mem_cons] at hcs
    rw [List.cons_append, dropComments_cons _ _, ih hcs.2]
    · rfl
    · rintro rfl
      cases hcs.1
    · rintro rfl
      cases hcs.1
  | block hbody _ ih =>
    rw [List.cons_append, List.cons_append, List.append_assoc, List.cons_append,
      List.cons_append, dropComments_block hbody, ih hcs]

/-- A token is left as it is. -/
theorem dropComments_spelling_append {t : Token} {spelling : List Char} (ht : t.IsLexed)
    (h : SpellsBroken t spelling) (rest : List Char) :
    dropComments (spelling ++ rest) = t.text ++ dropComments rest := by
  rw [SpellsBroken] at h
  split at h
  next hrun => exact h.dropComments_append (isRunChar_of_ofRun? (Token.ofRun?_text hrun ht)) rest
  next hrun =>
    subst h
    cases t with
    | string body =>
      rw [Token.text, List.append_assoc, List.cons_append, List.singleton_append,
        dropComments_string ht.1, List.append_assoc]
      rfl
    | word _ | number _ => exact absurd rfl hrun
    | _ => exact dropComments_cons (by decide) (by decide) rest

/-- **An arrangement of tokens has these tokens without its comments.** -/
theorem Arranged.tokens? {ts : List Token} {text : List Char}
    (h : Arranged SpellsBroken EndsOpen ts text) (hlexed : ∀ t ∈ ts, t.IsLexed)
    (hchain : ts.IsChain fun t u => t.isRun → u.isRun = false) :
    Json.tokens? (dropComments text) = some ts := by
  induction h with
  | done hends => exact hends.tokens?
  | token hgap hspells _ ih =>
    rw [List.forall_mem_cons] at hlexed
    rw [List.isChain_cons] at hchain
    have hrest := ih hlexed.2 hchain.2
    rw [hgap.tokens?_append, dropComments_spelling_append hlexed.1 hspells,
      tokens?_text_append hlexed.1 fun hrun => ?_, hrest]
    · rfl
    · exact (written_of_tokens? hrest).endsRun fun u hu => hchain.1 u hu hrun

/-! ## From the tokens to an arrangement -/

/-- A text begins with a run, which is broken by block comments and can be empty. Without its
comments the text begins with the run, and what is left of the rest does not carry it on. -/
structure BeginsBroken (text run spelling rest : List Char) : Prop where
  append : spelling ++ rest = text
  broken : Broken run spelling
  isRun : ∀ c ∈ run, LexerState.endsRun c = false
  drop : dropComments text = run ++ dropComments rest
  ends : EndsRun (dropComments rest)

theorem beginsBroken_nil {text : List Char} (h : EndsRun (dropComments text)) :
    BeginsBroken text [] [] text :=
  ⟨rfl, .nil, List.forall_mem_nil _, rfl, h⟩

/-- Every text begins so. A comment with no character of a run behind it is left to the rest. -/
theorem exists_beginsBroken (text : List Char) :
    ∃ run spelling rest, BeginsBroken text run spelling rest := by
  induction hn : text.length using Nat.strong_induction_on generalizing text with
  | _ n ih =>
    subst hn
    have hempty : EndsRun (dropComments text) →
        ∃ run spelling rest, BeginsBroken text run spelling rest :=
      fun hends => ⟨[], [], text, beginsBroken_nil hends⟩
    cases beginning text with
    | nil => exact hempty nofun
    | @char c rest hquote hkept =>
      cases hc : LexerState.endsRun c with
      | true => exact hempty (hkept ▸ endsRun_cons hc _)
      | false =>
        obtain ⟨run, spelling, rest', h⟩ := ih _ (by simp) rest rfl
        refine ⟨c :: run, c :: spelling, rest', ?_, .char h.broken,
          List.forall_mem_cons.mpr ⟨hc, h.isRun⟩, ?_, h.ends⟩
        · rw [List.cons_append, h.append]
        · rw [hkept, h.drop]
          rfl
    | string hbody => exact hempty (dropComments_string hbody _ ▸ endsRun_cons rfl _)
    | unclosed htext => exact hempty (dropComments_unclosed htext ▸ endsRun_cons rfl _)
    | line hbody => exact hempty (dropComments_line hbody _ ▸ endsRun_cons rfl _)
    | openLine hbody => exact hempty (dropComments_openLine hbody ▸ nofun)
    | @block body rest hbody =>
      obtain ⟨run, spelling, rest', h⟩ := ih _ (by simp; omega) rest rfl
      -- A comment before a character of the run breaks it, and else is not part of it
      cases run with
      | nil => exact hempty (by rw [dropComments_block hbody, h.drop]; exact h.ends)
      | cons c run =>
        refine ⟨c :: run, _, rest', ?_, .block hbody h.broken, h.isRun, ?_, h.ends⟩
        · simp [h.append]
        · rw [dropComments_block hbody, h.drop]
    | openBlock hbody => exact hempty (dropComments_openBlock hbody ▸ nofun)

/-- Where a run begins, the first token is a word or a number, broken by block comments. -/
theorem exists_spelling_append {c : Char} {text : List Char} {ts : List Token}
    (hkept : dropComments (c :: text) = c :: dropComments text)
    (hc : LexerState.endsRun c = false) (h : tokens? (dropComments (c :: text)) = some ts) :
    ∃ t ts' spelling rest, ts = t :: ts' ∧ SpellsBroken t spelling ∧ spelling ≠ [] ∧
      spelling ++ rest = c :: text ∧ tokens? (dropComments rest) = some ts' := by
  obtain ⟨run, spelling, rest, hbegins⟩ := exists_beginsBroken (c :: text)
  have hne : run ≠ [] := by
    rintro rfl
    have hends := hbegins.ends c
    rw [← List.nil_append (dropComments rest), ← hbegins.drop, hkept] at hends
    exact Bool.false_ne_true (hc.symm.trans (hends rfl))
  have hne' : spelling ≠ [] := by
    rintro rfl
    cases hbegins.broken
    exact hne rfl
  rw [hbegins.drop, tokens?_run hne hbegins.isRun hbegins.ends, Option.bind_eq_some_iff] at h
  obtain ⟨t, ht, h⟩ := h
  obtain ⟨ts', hrest, rfl⟩ := Option.map_eq_some_iff.mp h
  obtain ⟨hrun, -, rfl⟩ := Token.ofRun?_eq_some ht
  exact ⟨t, ts', spelling, rest, rfl, (if_pos hrun).mpr hbegins.broken, hne', hbegins.append,
    hrest⟩

/-- **A text that has tokens without its comments arranges them.** -/
theorem arranged_of_tokens? {text : List Char} {ts : List Token}
    (h : tokens? (dropComments text) = some ts) : Arranged SpellsBroken EndsOpen ts text := by
  -- On the length, since a run takes more than one character at a time
  induction hn : text.length using Nat.strong_induction_on generalizing text ts with
  | _ n ih =>
    subst hn
    have hends : EndsOpen text → ts = [] → Arranged SpellsBroken EndsOpen ts text := by
      rintro hends rfl
      exact .done hends
    cases beginning text with
    | nil => exact hends (.inl (.inl .nil)) (Option.some.inj h).symm
    | @char c rest hquote hkept =>
      -- White space and punctuation are taken by themselves, other characters by runs
      cases hc : LexerState.endsRun c with
      | true =>
        rw [hkept] at h
        obtain hspace | ⟨t, ht⟩ | rfl := endsRun_iff.mp hc
        · rw [tokens?_space hspace] at h
          have hgap : Separator [c] := .space hspace .nil
          exact (ih _ (by simp) h rfl).separated hgap fun _ => .append hgap
        · rw [tokens?_punctuation ht, Option.map_eq_some_iff] at h
          obtain ⟨ts, hrest, rfl⟩ := h
          have hspells := (text_of_ofPunctuation? ht).1 ▸ spellsBroken_text t
          exact .token .nil hspells (ih _ (by simp) hrest rfl)
        · exact absurd rfl hquote
      | false =>
        obtain ⟨t, ts, spelling, rest', rfl, hspells, hne, happend, hrest⟩ :=
          exists_spelling_append hkept hc h
        have hshorter : rest'.length < (c :: rest).length := by
          have hlength := List.length_pos_of_ne_nil hne
          rw [← happend, List.length_append]
          omega
        rw [← happend]
        exact .token .nil hspells (ih _ hshorter hrest rfl)
    | @string body rest hbody =>
      rw [dropComments_string hbody, tokens?_string hbody, Option.bind_eq_some_iff] at h
      obtain ⟨t, ht, h⟩ := h
      obtain ⟨ts, hrest, rfl⟩ := Option.map_eq_some_iff.mp h
      obtain ⟨rfl, -⟩ := Token.isLexed_of_ofBody? hbody ht
      have harranged := Arranged.token .nil (spellsBroken_text (.string body))
        (ih _ (by simp; omega) hrest rfl)
      simpa [Token.text] using harranged
    | unclosed htext =>
      rw [dropComments_unclosed htext, tokens?_unclosed htext] at h
      cases h
    | @line body rest hbody =>
      rw [dropComments_line hbody, tokens?_space rfl] at h
      have hgap : Separator _ := .line hbody .nil
      have hrest := (ih _ (by simp; omega) h rfl).separated hgap fun _ => .append hgap
      simpa using hrest
    | openLine hbody =>
      rw [dropComments_openLine hbody] at h
      exact hends (.inl (.inr ⟨[], _, .nil, hbody, rfl⟩)) (Option.some.inj h).symm
    | @block body rest hbody =>
      rw [dropComments_block hbody] at h
      have hgap : Separator _ := .block hbody .nil
      have hrest := (ih _ (by simp; omega) h rfl).separated hgap fun _ => .append hgap
      simpa using hrest
    | openBlock hbody =>
      rw [dropComments_openBlock hbody] at h
      exact hends (.inr ⟨[], _, .nil, hbody, rfl⟩) (Option.some.inj h).symm

end MapChain.Lenient
