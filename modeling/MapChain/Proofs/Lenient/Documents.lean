import MapChain.Json.Equality
import MapChain.Json.Reader
import MapChain.Proofs.Lenient.Commas
import MapChain.Proofs.Lenient.Comments

/-!
# What a document may look like

A document decorates the tokens of a strict text: it has white space and comments between them,
commas before closing brackets and a mark at its start. Every such document is read to the value of
the strict text. Conversely every document that is read decorates a strict text of its value, but by
looser rules: the steps that clean a document look at characters, and so at less than tokens.

## Layers

- **Rules**: the strict and the loose ones, and what it is to decorate tokens by rules.
- **Cleaning**: `tokens?_clean` and `decorates_of_tokens?_clean`, cleaning leaves the tokens that a
  text decorates loosely.
- **Reading**: `read_of_spellsMembers` and `spellsMembers_of_read`, the documents that are read are
  those that decorate an object loosely; `read_of_decorates` for those that do so strictly.
- **Strict documents**: what follows the strict rules begins with its first token or a separator,
  and three documents that are read do not follow them.

Main results: `read_of_decorates` and `spellsMembers_of_read`.
-/

namespace MapChain.Lenient

open Json

/-! ## Rules -/

/-- How tokens may be decorated. -/
structure Rules where
  /-- The tokens behind which a comma may be added before a closing bracket, or none. -/
  allowsComma : Option Token → Prop
  /-- How a token may be written. -/
  spells : Token → List Char → Prop
  /-- What may stand behind the last token. -/
  ends : List Char → Prop

/-- Commas are added behind items only, nothing stands inside a token, and comments are closed. -/
def strictRules : Rules where
  allowsComma last := ∃ t ∈ last, t.opens = false
  spells t text := text = t.text
  ends := EndsClosed

/-- Commas are also added where there is no item, block comments stand also in the middle of words
and numbers, and the last one need not be closed. -/
def looseRules : Rules where
  allowsComma _ := True
  spells := SpellsBroken
  ends := EndsOpen

/-- A text decorates tokens by rules: it arranges them with commas added, behind a byte order mark
or without one. -/
def Decorates (rules : Rules) (ts : List Token) (text : List Char) : Prop :=
  ∃ us body, CommasAdded rules.allowsComma none ts us ∧ Arranged rules.spells rules.ends us body ∧
    (text = body ∨ text = '\ufeff' :: body)

/-- A document spells an object by rules: it decorates a strict text of the object. -/
def SpellsMembers (rules : Rules) (members : Fields) (text : String) : Prop :=
  ∃ strict ts, ofText? strict = some (.object members) ∧ tokens? strict.toList = some ts ∧
    Decorates rules ts text.toList

theorem Arranged.loose {us : List Token} {text : List Char}
    (h : Arranged strictRules.spells strictRules.ends us text) :
    Arranged SpellsBroken EndsOpen us text := by
  refine h.mono ?_ fun _ => .inl
  rintro t spelling rfl
  exact spellsBroken_text t

theorem Decorates.loose {ts : List Token} {text : List Char} (h : Decorates strictRules ts text) :
    Decorates looseRules ts text := by
  obtain ⟨us, body, hcommas, harranged, htext⟩ := h
  exact ⟨us, body, hcommas.mono fun _ _ => trivial, harranged.loose, htext⟩

/-! ## Cleaning -/

/-- A text that has tokens does not begin with a mark. -/
theorem dropMark_of_tokens? {text : List Char} {ts : List Token}
    (h : tokens? (dropComments text) = some ts) : dropMark text = text := by
  cases text with
  | nil => rfl
  | cons c text =>
    have hmark : c ≠ '\ufeff' := by
      rintro rfl
      rw [dropComments_cons (by decide) (by decide), tokens?_cons_eq_none rfl rfl] at h
      cases h
    rw [dropMark.eq_2 _ fun _ h => absurd (List.cons.inj h).1 hmark]

/-- The first step of cleaning leaves the tokens with the commas that were added. -/
theorem tokens?_of_arranged {strict body : List Char} {t : Tree} {ts us : List Token}
    {Allows : Option Token → Prop} (htokens : tokens? strict = some ts)
    (htree : Tree.ofTokens? ts = some t) (hcommas : CommasAdded Allows none ts us)
    (h : Arranged SpellsBroken EndsOpen us body) : tokens? (dropComments body) = some us := by
  have hchain : ts.IsChain Token.Adjoins := Tree.tokens_of_ofTokens? htree ▸ t.isChain_tokens
  refine h.tokens? (fun u hu => ?_) (hcommas.isChain hchain)
  obtain hu | rfl := hcommas.mem u hu
  · exact (written_of_tokens? htokens).isLexed u hu
  · trivial

/-- **Cleaning leaves the decorated tokens**, if there is a strict text of them. -/
theorem tokens?_clean {strict text : List Char} {t : Tree} {ts : List Token}
    (htokens : tokens? strict = some ts) (htree : Tree.ofTokens? ts = some t)
    (h : Decorates looseRules ts text) : tokens? (clean text) = some ts := by
  obtain ⟨us, body, hcommas, harranged, htext⟩ := h
  have hchain : ts.IsChain Token.Adjoins := Tree.tokens_of_ofTokens? htree ▸ t.isChain_tokens
  have hbody := tokens?_of_arranged htokens htree hcommas harranged
  have hmark : dropMark text = body := by
    obtain rfl | rfl := htext
    · exact dropMark_of_tokens? hbody
    · rfl
  rw [clean, hmark, tokens?_dropCommas, hbody, Option.map_some, hcommas.drop hchain]

/-- **What cleaning leaves was decorated.** -/
theorem decorates_of_tokens?_clean {text : List Char} {ts : List Token}
    (h : tokens? (clean text) = some ts) : Decorates looseRules ts text := by
  rw [clean, tokens?_dropCommas, Option.map_eq_some_iff] at h
  obtain ⟨us, hus, rfl⟩ := h
  refine ⟨us, dropMark text, commasAdded_dropCommaTokens none us, arranged_of_tokens? hus, ?_⟩
  unfold dropMark
  split
  · exact .inr rfl
  · exact .inl rfl

/-! ## Reading -/

/-- What is read from a text depends on its tokens alone, and they make a tree. -/
theorem exists_of_ofChars? {text : List Char} {v : Json} (h : ofChars? text = some v) :
    ∃ ts t, tokens? text = some ts ∧ Tree.ofTokens? ts = some t ∧ ofShallowTree? t = some v := by
  obtain ⟨t, ht, hv⟩ := Option.bind_eq_some_iff.mp h
  obtain ⟨ts, hts, htree⟩ := Option.bind_eq_some_iff.mp ht
  exact ⟨ts, t, hts, htree, hv⟩

theorem ofChars?_of_tokens? {text : List Char} {ts : List Token} {t : Tree} {v : Json}
    (hts : tokens? text = some ts) (htree : Tree.ofTokens? ts = some t)
    (hv : ofShallowTree? t = some v) : ofChars? text = some v := by
  rw [ofChars?, Tree.ofText?, hts, Option.bind_some, htree, Option.bind_some, hv]

theorem read_eq_ok_iff {text : String} {members : Fields} :
    read text = .ok members ↔ ofChars? (clean text.toList) = some (.object members) := by
  rw [read, readChars]
  split
  next members' h => rw [h, Except.ok.injEq, Option.some.injEq, Json.object.injEq]
  next v hobject h =>
    rw [h, Option.some.injEq]
    constructor
    · exact nofun
    · rintro rfl
      exact absurd rfl (hobject members)
  next h =>
    rw [h]
    exact ⟨nofun, nofun⟩

/-- **What spells an object loosely is read to it.** -/
theorem read_of_spellsMembers {text : String} {members : Fields}
    (h : SpellsMembers looseRules members text) : read text = .ok members := by
  obtain ⟨strict, ts, hvalue, htokens, hdecorates⟩ := h
  obtain ⟨ts', t, hts, htree, hv⟩ := exists_of_ofChars? hvalue
  obtain rfl := Option.some.inj (hts.symm.trans htokens)
  exact read_eq_ok_iff.mpr (ofChars?_of_tokens? (tokens?_clean htokens htree hdecorates) htree hv)

/-- A strict text decorates its tokens, with white space alone. -/
theorem decorates_of_written {ts : List Token} {text : List Char} (h : Written ts text) :
    Decorates strictRules ts text := by
  refine ⟨ts, text, commasAdded_self _ none ts, ?_, .inl rfl⟩
  induction h with
  | nil => exact .done (.inl .nil)
  | @space c _ _ hc _ ih =>
    have hgap : Separator [c] := .space hc .nil
    exact ih.separated hgap fun _ => .append hgap
  | token _ _ _ ih => exact .token .nil rfl ih

/-- **Decorated texts are read.** A text that decorates the tokens of a strict text strictly is read
to the value of the strict text, if this is an object, and so is the strict text itself. -/
theorem read_of_decorates {strict text : String} {members : Fields} {ts : List Token}
    (hvalue : ofText? strict = some (.object members))
    (htokens : tokens? strict.toList = some ts) (h : Decorates strictRules ts text.toList) :
    read text = .ok members ∧ read strict = .ok members := by
  have hself : Decorates strictRules ts strict.toList :=
    decorates_of_written (written_of_tokens? htokens)
  exact ⟨read_of_spellsMembers ⟨strict, ts, hvalue, htokens, h.loose⟩,
    read_of_spellsMembers ⟨strict, ts, hvalue, htokens, hself.loose⟩⟩

/-- A strict text of an object, with an escaped quote and a comment marker in a name. -/
def strictText : String := "\x7b\"a\\\"//\":[-1,null]\x7d"

/-- The same with a mark, comments and commas. -/
def decoratedText : String :=
  "\ufeff/*\"**/\x7b \"a\\\"//\": // ,]\n[-1/*//*/,null, /***/\n] ,\x7d//\""

/-- The tokens of the strict text. -/
def strictTokens : List Token :=
  [.openBrace, .string "a\\\"//".toList, .colon, .openBracket, .number "-1".toList, .comma,
    .word .null, .closeBracket, .closeBrace]

theorem arranged_cons {ts : List Token} {rest : List Char} (gap : List Char) (t : Token)
    (hgap : Separator gap) (hrest : Arranged strictRules.spells strictRules.ends ts rest) :
    Arranged strictRules.spells strictRules.ends (t :: ts) (gap ++ (t.text ++ rest)) :=
  .token hgap rfl hrest

theorem decorates_decoratedText : Decorates strictRules strictTokens decoratedText.toList := by
  have hquote : Separator _ := @Separator.block ['"', '*'] [] (by decide) .nil
  have hslashes : Separator _ := @Separator.block ['/', '/'] [] (by decide) .nil
  have hstar : Separator _ := @Separator.block ['*'] ['\n'] (by decide) (.space rfl .nil)
  have hline : Separator _ := @Separator.line [' ', ',', ']'] [] (by decide) .nil
  -- From the end, where a line comment is not ended, to the beginning
  have hend : Arranged strictRules.spells strictRules.ends [] ['/', '/', '"'] :=
    .done (.inr ⟨[], ['"'], .nil, by decide, rfl⟩)
  have hbrace := arranged_cons [] .closeBrace .nil hend
  have hcomma' := arranged_cons [' '] .comma (.space rfl .nil) hbrace
  have hbracket := arranged_cons (' ' :: _) .closeBracket (.space rfl hstar) hcomma'
  have hcomma := arranged_cons [] .comma .nil hbracket
  have hnull := arranged_cons [] (.word .null) .nil hcomma
  have hitem := arranged_cons _ .comma hslashes hnull
  have hnumber := arranged_cons [] (.number ['-', '1']) .nil hitem
  have hopen := arranged_cons (' ' :: _) .openBracket (.space rfl hline) hnumber
  have hcolon := arranged_cons [] .colon .nil hopen
  have hname := arranged_cons [' '] (.string ['a', '\\', '"', '/', '/']) (.space rfl .nil) hcolon
  have hbegin := arranged_cons _ .openBrace hquote hname
  refine ⟨_, _, ?_, hbegin, .inr rfl⟩
  iterate 7 apply CommasAdded.token
  exact .comma ⟨.word .null, rfl, rfl⟩ rfl (.comma ⟨.closeBracket, rfl, rfl⟩ rfl .nil)

/-- The decorated text and the strict one are read to the same value. -/
theorem read_decoratedText :
    read decoratedText =
      .ok [("a\"//", .array [.number (.integer (-1) (by decide)), .null])] ∧
    read strictText = .ok [("a\"//", .array [.number (.integer (-1) (by decide)), .null])] := by
  have htokens : tokens? strictText.toList = some strictTokens := by
    decide +kernel
  exact read_of_decorates (by decide +kernel) htokens decorates_decoratedText

/-- **Nothing else is read.** A text that is read decorates a strict text of its value, loosely. -/
theorem spellsMembers_of_read {text : String} {members : Fields} (h : read text = .ok members) :
    SpellsMembers looseRules members text := by
  have hvalue := read_eq_ok_iff.mp h
  obtain ⟨ts, t, hts, -, -⟩ := exists_of_ofChars? hvalue
  refine ⟨String.ofList (clean text.toList), ts, ?_, ?_, decorates_of_tokens?_clean hts⟩
  · rw [ofText?, String.toList_ofList, hvalue]
  · rw [String.toList_ofList, hts]

/-- This text decorates its value loosely in three ways. -/
theorem spellsMembers_of_read_word :
    read "\x7b\"a\":tr/**/ue,\"b\":[,]\x7d/*" = .ok [("a", .bool true), ("b", .array [])] ∧
      SpellsMembers looseRules [("a", .bool true), ("b", .array [])]
        "\x7b\"a\":tr/**/ue,\"b\":[,]\x7d/*" := by
  have h : read "\x7b\"a\":tr/**/ue,\"b\":[,]\x7d/*" =
      .ok [("a", .bool true), ("b", .array [])] :=
    read_eq_ok_iff.mpr (by decide +kernel)
  exact ⟨h, spellsMembers_of_read h⟩

/-! ## Strict documents -/

theorem Separator.eq_nil {gap text rest : List Char} {c : Char} (h : Separator gap)
    (hspace : Text.isJsonSpace c = false) (hslash : c ≠ '/') (heq : c :: text = gap ++ rest) :
    gap = [] := by
  cases h with
  | nil => rfl
  | space hc _ =>
    cases heq
    rw [hspace] at hc
    cases hc
  | line _ _ =>
    cases heq
    exact absurd rfl hslash
  | block _ _ =>
    cases heq
    exact absurd rfl hslash

/-- Where a strict arrangement does not begin with a separator, it begins with its first token. -/
theorem exists_of_arranged_cons {t : Token} {ts : List Token} {c : Char} {text : List Char}
    (hspace : Text.isJsonSpace c = false) (hslash : c ≠ '/')
    (h : Arranged strictRules.spells strictRules.ends (t :: ts) (c :: text)) :
    ∃ rest, c :: text = t.text ++ rest ∧ Arranged strictRules.spells strictRules.ends ts rest := by
  generalize htext : c :: text = arranged at h
  cases h with
  | token hgap hspells hrest =>
    obtain rfl := hgap.eq_nil hspace hslash htext
    obtain rfl : _ = t.text := hspells
    exact ⟨_, rfl, hrest⟩

/-- What cleaning and its first step leave of a document tells which tokens it would decorate. -/
theorem arranged_of_spellsMembers {members : Fields} {text : String} {c : Char} {body : List Char}
    {ts us : List Token} (h : SpellsMembers strictRules members text)
    (htext : text.toList = c :: body) (hmark : c ≠ '\ufeff')
    (hclean : tokens? (clean text.toList) = some ts)
    (hkept : tokens? (dropComments text.toList) = some us) :
    CommasAdded strictRules.allowsComma none ts us ∧
      Arranged strictRules.spells strictRules.ends us (c :: body) := by
  obtain ⟨strict, ts', hvalue, htokens, h⟩ := h
  obtain ⟨ts'', t, hts, htree, -⟩ := exists_of_ofChars? hvalue
  obtain rfl := Option.some.inj (hts.symm.trans htokens)
  obtain rfl := Option.some.inj ((tokens?_clean htokens htree h.loose).symm.trans hclean)
  obtain ⟨us', body', hcommas, harranged, hbody⟩ := h
  obtain rfl : c :: body = body' := by
    rw [htext] at hbody
    exact hbody.resolve_right fun heq => hmark (List.cons.inj heq).1
  rw [htext] at hkept
  obtain rfl :=
    Option.some.inj ((tokens?_of_arranged htokens htree hcommas harranged.loose).symm.trans hkept)
  exact ⟨hcommas, harranged⟩

/-- Separators close the block comment that they begin with. -/
theorem Separator.infix_of_block {gap rest body : List Char} (h : Separator gap)
    (hgap : gap ≠ []) (heq : gap ++ rest = '/' :: '*' :: body) : ['*', '/'] <:+: body := by
  cases h with
  | nil => exact absurd rfl hgap
  | space hc _ =>
    obtain rfl := (List.cons.inj heq).1
    cases hc
  | line _ _ => cases heq
  | @block body' gap _ _ =>
    cases heq
    exact ⟨body', gap ++ rest, by simp⟩

theorem EndsClosed.infix_of_block {body : List Char} (h : EndsClosed ('/' :: '*' :: body)) :
    ['*', '/'] <:+: body := by
  obtain h | ⟨gap, body', hgap, -, heq⟩ := h
  · exact h.infix_of_block (List.cons_ne_nil _ _) (List.append_nil _)
  · refine hgap.infix_of_block ?_ heq.symm
    rintro rfl
    cases heq

/-- A comma in an empty object is behind no item. -/
theorem not_spellsMembers_comma : ¬ SpellsMembers strictRules [] "\x7b,\x7d" := by
  intro h
  have hclean : tokens? (clean "\x7b,\x7d".toList) = some [.openBrace, .closeBrace] := by
    decide +kernel
  have hkept : tokens? (dropComments "\x7b,\x7d".toList) =
      some [.openBrace, .comma, .closeBrace] := by
    decide +kernel
  obtain ⟨hcommas, -⟩ := arranged_of_spellsMembers h rfl (by decide) hclean hkept
  cases hcommas with
  | token hrest =>
    cases hrest with
    | comma hlast _ _ =>
      obtain ⟨t, ht, hopens⟩ := hlast
      cases ht
      cases hopens

/-- A comment in the middle of a word is not between tokens. -/
theorem not_spellsMembers_word :
    ¬ SpellsMembers strictRules [("a", .bool true)] "\x7b\"a\":tr/**/ue\x7d" := by
  intro h
  have hclean : tokens? (clean "\x7b\"a\":tr/**/ue\x7d".toList) =
      some [.openBrace, .string ['a'], .colon, .word .true, .closeBrace] := by
    decide +kernel
  have hkept : tokens? (dropComments "\x7b\"a\":tr/**/ue\x7d".toList) =
      some [.openBrace, .string ['a'], .colon, .word .true, .closeBrace] := by
    decide +kernel
  obtain ⟨-, harranged⟩ := arranged_of_spellsMembers h rfl (by decide) hclean hkept
  obtain ⟨_, heq, harranged⟩ := exists_of_arranged_cons (by decide) (by decide) harranged
  cases heq
  obtain ⟨_, heq, harranged⟩ := exists_of_arranged_cons (by decide) (by decide) harranged
  cases heq
  obtain ⟨_, heq, harranged⟩ := exists_of_arranged_cons (by decide) (by decide) harranged
  cases heq
  obtain ⟨_, heq, -⟩ := exists_of_arranged_cons (by decide) (by decide) harranged
  cases heq

/-- A comment that is not closed ends no document. -/
theorem not_spellsMembers_unclosed : ¬ SpellsMembers strictRules [] "\x7b\x7d/*" := by
  intro h
  have hclean : tokens? (clean "\x7b\x7d/*".toList) = some [.openBrace, .closeBrace] := by
    decide +kernel
  have hkept : tokens? (dropComments "\x7b\x7d/*".toList) = some [.openBrace, .closeBrace] := by
    decide +kernel
  obtain ⟨-, harranged⟩ := arranged_of_spellsMembers h rfl (by decide) hclean hkept
  obtain ⟨_, heq, harranged⟩ := exists_of_arranged_cons (by decide) (by decide) harranged
  cases heq
  obtain ⟨_, heq, harranged⟩ := exists_of_arranged_cons (by decide) (by decide) harranged
  cases heq
  cases harranged with
  | done hends => exact absurd (EndsClosed.infix_of_block hends) (by decide)

/-- Three documents are read that decorate nothing strictly: one with a comma in an empty object,
one with a comment inside a word, and one with a comment that is not closed. -/
theorem not_spellsMembers_of_read :
    (read "\x7b,\x7d" = .ok [] ∧ ¬ SpellsMembers strictRules [] "\x7b,\x7d") ∧
    (read "\x7b\"a\":tr/**/ue\x7d" = .ok [("a", .bool true)] ∧
      ¬ SpellsMembers strictRules [("a", .bool true)] "\x7b\"a\":tr/**/ue\x7d") ∧
    (read "\x7b\x7d/*" = .ok [] ∧ ¬ SpellsMembers strictRules [] "\x7b\x7d/*") :=
  ⟨⟨read_eq_ok_iff.mpr (by decide +kernel), not_spellsMembers_comma⟩,
    ⟨read_eq_ok_iff.mpr (by decide +kernel), not_spellsMembers_word⟩,
    ⟨read_eq_ok_iff.mpr (by decide +kernel), not_spellsMembers_unclosed⟩⟩

end MapChain.Lenient
