import MapChain.Config.Lenient
import MapChain.Proofs.Json.TreeTokens

/-!
# Commas before closing brackets

Dropping commas from a text drops them from its tokens: those that stand right before a closing
bracket, whatever stands before them.

## Layers

- **Texts**: what dropping does to the beginnings of a text.
- **Tokens**: `dropCommaTokens`, and `tokens?_dropCommas`, which carries it over to texts.
- **Adding**: `CommasAdded`, which tells what tokens dropping can have come from.

Main results: `tokens?_dropCommas`, `commasAdded_dropCommaTokens` and `CommasAdded.drop`.
-/

namespace MapChain.Lenient

open Json

/-! ## Texts -/

theorem dropCommas_cons {c : Char} (hquote : c ≠ '"') (hcomma : c ≠ ',') (rest : List Char) :
    dropCommas (c :: rest) = c :: dropCommas rest := by
  rw [dropCommas, dropCommasFrom.eq_4 _ _ hquote hcomma]
  rfl

theorem dropCommas_comma (rest : List Char) :
    dropCommas (',' :: rest) =
      if closesNext rest then dropCommas rest else ',' :: dropCommas rest := rfl

theorem copiesStrings_dropCommas : CopiesStrings (dropCommasFrom true) dropCommas where
  nil := rfl
  quote _ := rfl
  escape _ _ := rfl
  char c rest hquote hescape := dropCommasFrom.eq_7 c rest hquote hescape

theorem dropCommas_string {body : List Char} (h : isBody body) (rest : List Char) :
    dropCommas ('"' :: (body ++ '"' :: rest)) = '"' :: (body ++ '"' :: dropCommas rest) :=
  congrArg ('"' :: ·) (copiesStrings_dropCommas.body h rest)

theorem dropCommas_unclosed {text : List Char} (h : Unclosed text) :
    dropCommas ('"' :: text) = '"' :: text :=
  congrArg ('"' :: ·) (copiesStrings_dropCommas.unclosed h)

theorem dropCommas_run_append {run : List Char}
    (hrun : ∀ c ∈ run, LexerState.endsRun c = false) (rest : List Char) :
    dropCommas (run ++ rest) = run ++ dropCommas rest := by
  induction run with
  | nil => rfl
  | cons c run ih =>
    rw [List.forall_mem_cons] at hrun
    rw [List.cons_append, dropCommas_cons _ _, ih hrun.2]
    · rfl
    · rintro rfl
      cases hrun.1
    · rintro rfl
      cases hrun.1

/-! ## Tokens -/

/-- Whether tokens begin with a closing bracket. -/
def closesFirst (ts : List Token) : Bool := ts.head?.any Token.closes

/-- Tokens without the commas right before closing brackets. -/
def dropCommaTokens : List Token → List Token
  | [] => []
  | t :: ts =>
    if t = .comma ∧ closesFirst ts then dropCommaTokens ts else t :: dropCommaTokens ts

theorem dropCommaTokens_cons_of_closes {t : Token} (h : t.closes) (ts : List Token) :
    dropCommaTokens (t :: ts) = t :: dropCommaTokens ts := by
  rw [dropCommaTokens, if_neg]
  rintro ⟨rfl, -⟩
  cases h

theorem closesNext_space {c : Char} (h : Text.isBlank c) (rest : List Char) :
    closesNext (c :: rest) = closesNext rest := by
  rw [closesNext, List.dropWhile_cons_of_pos h]
  rfl

theorem closesNext_cons {c : Char} (h : Text.isBlank c = false) (rest : List Char) :
    closesNext (c :: rest) = (c == '\x7d' || c == ']') := by
  rw [closesNext, List.dropWhile_cons_of_neg (Bool.eq_false_iff.mp h)]

theorem closesNext_text_append {t : Token} (h : t.IsLexed) (rest : List Char) :
    closesNext (t.text ++ rest) = t.closes := by
  by_cases hrun : t.isRun
  · have hchars := isRunChar_of_ofRun? (Token.ofRun?_text hrun h)
    have hcloses : t.closes = false :=
      Bool.eq_false_iff.mpr fun h => by rw [Token.isRun_of_closes h] at hrun; cases hrun
    cases htext : t.text with
    | nil => exact absurd htext (Token.text_ne_nil h)
    | cons c text =>
      have hc : isRunChar c := hchars c (by rw [htext]; exact List.mem_cons_self)
      rw [List.cons_append, closesNext_cons (isBlank_of_isRunChar hc), hcloses,
        Bool.or_eq_false_iff, beq_eq_false_iff_ne, beq_eq_false_iff_ne]
      constructor <;> rintro rfl <;> cases hc
  · cases t with
    | word _ | number _ => exact absurd rfl hrun
    | _ => exact closesNext_cons (by decide) _

/-- What comes next in a text tells whether its first token closes. -/
theorem closesNext_of_written {ts : List Token} {text : List Char} (h : Written ts text) :
    closesNext text = closesFirst ts := by
  induction h with
  | nil => rfl
  | space hc _ ih => rw [closesNext_space (Text.isBlank_of_isJsonSpace hc), ih]
  | token ht _ _ _ => exact closesNext_text_append ht _

/-- What may stand behind a run may still after dropping, unless a comma has stood before white
space that JSON does not know. -/
theorem endsRun_dropCommas {rest : List Char} (h : EndsRun rest) :
    EndsRun (dropCommas rest) ∨ ∃ c rest', rest = ',' :: c :: rest' ∧
      dropCommas rest = c :: dropCommas rest' ∧ LexerState.endsRun c = false ∧
        isRunChar c = false := by
  cases rest with
  | nil => exact .inl h
  | cons c rest =>
    by_cases hcomma : c = ','
    · subst hcomma
      rw [dropCommas_comma]
      split
      next hcloses =>
        cases rest with
        | nil => cases hcloses
        | cons d rest =>
          have hd : dropCommas (d :: rest) = d :: dropCommas rest := by
            apply dropCommas_cons <;> rintro rfl <;> cases hcloses
          rw [hd]
          -- The bracket itself, or white space before it, where JSON knows less than Unicode
          cases hends : LexerState.endsRun d with
          | true => exact .inl (endsRun_cons hends _)
          | false =>
            refine .inr ⟨d, rest, rfl, rfl, hends, Bool.eq_false_iff.mpr fun hrun => ?_⟩
            rw [closesNext_cons (isBlank_of_isRunChar hrun), Bool.or_eq_true, beq_iff_eq,
              beq_iff_eq] at hcloses
            obtain rfl | rfl := hcloses <;> cases hrun
      next => exact .inl (endsRun_cons rfl _)
    · by_cases hquote : c = '"'
      · subst hquote
        exact .inl (endsRun_cons rfl _)
      · rw [dropCommas_cons hquote hcomma]
        exact .inl (endsRun_cons (h c rfl) _)

theorem map_dropCommaTokens_cons {t : Token} (ht : t ≠ .comma) (ts? : Option (List Token)) :
    (ts?.map (t :: ·)).map dropCommaTokens = (ts?.map dropCommaTokens).map (t :: ·) := by
  cases ts? with
  | none => rfl
  | some ts => simp [dropCommaTokens, ht]

/-- A comma is dropped from a text exactly when it is dropped from its tokens. -/
theorem tokens?_dropCommas_comma {rest : List Char}
    (ih : tokens? (dropCommas rest) = (tokens? rest).map dropCommaTokens) :
    tokens? (dropCommas (',' :: rest)) =
      ((tokens? rest).map (Token.comma :: ·)).map dropCommaTokens := by
  rw [dropCommas_comma]
  cases hrest : tokens? rest with
  | none =>
    -- Dropped or not, the comma stands before a text without tokens
    rw [hrest] at ih
    split
    · exact ih
    · rw [tokens?_punctuation rfl, ih]
      rfl
  | some ts =>
    rw [hrest, Option.map_some] at ih
    rw [closesNext_of_written (written_of_tokens? hrest), Option.map_some, Option.map_some,
      dropCommaTokens]
    by_cases hcloses : closesFirst ts
    · rw [if_pos hcloses, if_pos ⟨rfl, hcloses⟩, ih]
    · rw [if_neg hcloses, if_neg fun h => hcloses h.2, tokens?_punctuation rfl, ih]
      rfl

/-- **Dropping commas from a text drops them from its tokens.** -/
theorem tokens?_dropCommas (text : List Char) :
    tokens? (dropCommas text) = (tokens? text).map dropCommaTokens := by
  induction text using textInduction with
  | nil => rfl
  | space c rest hspace ih =>
    have hdrop : dropCommas (c :: rest) = c :: dropCommas rest := by
      apply dropCommas_cons <;> rintro rfl <;> cases hspace
    rw [hdrop, tokens?_space hspace, tokens?_space hspace, ih]
  | punctuation c t rest ht ih =>
    by_cases hcomma : c = ','
    · subst hcomma
      cases ht
      rw [tokens?_dropCommas_comma ih, tokens?_punctuation rfl]
    · have hquote : c ≠ '"' := by
        rintro rfl
        cases ht
      have ht' : t ≠ .comma := by
        rintro rfl
        cases (text_of_ofPunctuation? ht).1
        exact hcomma rfl
      rw [dropCommas_cons hquote hcomma, tokens?_punctuation ht, tokens?_punctuation ht, ih,
        map_dropCommaTokens_cons ht']
  | string body rest hbody ih =>
    rw [dropCommas_string hbody, tokens?_string hbody, tokens?_string hbody, ih]
    cases ht : Token.ofBody? body with
    | none => rfl
    | some t =>
      obtain ⟨rfl, -⟩ := Token.isLexed_of_ofBody? hbody ht
      have hcomma : Token.string body ≠ .comma := nofun
      exact (map_dropCommaTokens_cons hcomma _).symm
  | unclosed text htext => rw [dropCommas_unclosed htext, tokens?_unclosed htext, Option.map_none]
  | run run rest hne hrun hends ih =>
    rw [dropCommas_run_append hrun]
    obtain hends' | ⟨c, rest', rfl, hdrop, hc, hc'⟩ := endsRun_dropCommas hends
    · rw [tokens?_run hne hrun hends', tokens?_run hne hrun hends, ih]
      cases ht : Token.ofRun? run with
      | none => rfl
      | some t =>
        have hcomma : t ≠ .comma := by
          rintro rfl
          cases (Token.ofRun?_eq_some ht).1
        exact (map_dropCommaTokens_cons hcomma _).symm
    · -- The comma has ended the run, and the white space behind it can stand in no token
      rw [tokens?_run hne hrun hends, tokens?_punctuation rfl, tokens?_cons_eq_none hc hc', hdrop,
        tokens?_run_append_eq_none hrun hc hc']
      cases Token.ofRun? run <;> rfl

/-! ## Adding -/

/-- Tokens with a comma added before some of the closing brackets, where the token before it allows
it, or where there is none. -/
inductive CommasAdded (Allows : Option Token → Prop) :
    Option Token → List Token → List Token → Prop where
  | nil {last} : CommasAdded Allows last [] []
  | token {last t ts us} (hrest : CommasAdded Allows (some t) ts us) :
      CommasAdded Allows last (t :: ts) (t :: us)
  | comma {last t ts us} (hlast : Allows last) (hcloses : t.closes)
      (hrest : CommasAdded Allows (some t) ts us) :
      CommasAdded Allows last (t :: ts) (.comma :: t :: us)

variable {Allows : Option Token → Prop} {last : Option Token} {ts us : List Token}

theorem CommasAdded.mono {Allows' : Option Token → Prop} (himp : ∀ last, Allows last → Allows' last)
    (h : CommasAdded Allows last ts us) : CommasAdded Allows' last ts us := by
  induction h with
  | nil => exact .nil
  | token _ ih => exact .token ih
  | comma hlast hcloses _ ih => exact .comma (himp _ hlast) hcloses ih

theorem commasAdded_self (Allows : Option Token → Prop) (last : Option Token) (ts : List Token) :
    CommasAdded Allows last ts ts := by
  induction ts generalizing last with
  | nil => exact .nil
  | cons t ts ih => exact .token (ih _)

/-- Added are commas only. -/
theorem CommasAdded.mem (h : CommasAdded Allows last ts us) : ∀ u ∈ us, u ∈ ts ∨ u = .comma := by
  induction h with
  | nil => exact nofun
  | token _ ih =>
    refine List.forall_mem_cons.mpr ⟨.inl List.mem_cons_self, fun u hu => ?_⟩
    exact (ih u hu).imp_left (List.mem_cons_of_mem _)
  | comma _ _ _ ih =>
    refine List.forall_mem_cons.mpr ⟨.inr rfl, List.forall_mem_cons.mpr
      ⟨.inl List.mem_cons_self, fun u hu => ?_⟩⟩
    exact (ih u hu).imp_left (List.mem_cons_of_mem _)

/-- Tokens with commas added begin with a comma, or as the tokens do. -/
theorem CommasAdded.head? (h : CommasAdded Allows last ts us) :
    us.head? = some .comma ∨ us.head? = ts.head? := by
  cases h with
  | nil => exact .inr rfl
  | token _ => exact .inr rfl
  | comma _ _ _ => exact .inl rfl

/-- Where neighbours can stand right behind each other, words and numbers stay apart. -/
theorem CommasAdded.isChain (h : CommasAdded Allows last ts us) (hts : ts.IsChain Token.Adjoins) :
    us.IsChain fun t u => t.isRun → u.isRun = false := by
  induction h with
  | nil => exact .nil
  | token hrest ih =>
    rw [List.isChain_cons] at hts
    refine List.isChain_cons.mpr ⟨fun u hu hrun => ?_, ih hts.2⟩
    obtain hhead | hhead := hrest.head?
    · rw [hhead] at hu
      cases hu
      rfl
    · exact (hts.1 u (hhead ▸ hu)).run hrun
  | comma _ hcloses hrest ih =>
    have hrun := Token.isRun_of_closes hcloses
    rw [List.isChain_cons] at hts
    refine List.isChain_cons.mpr ⟨fun _ _ hcomma => absurd hcomma Bool.false_ne_true, ?_⟩
    refine List.isChain_cons.mpr ⟨fun _ _ h => ?_, ih hts.2⟩
    rw [hrun] at h
    cases h

/-- **Added commas are dropped.** -/
theorem CommasAdded.drop (h : CommasAdded Allows last ts us) (hts : ts.IsChain Token.Adjoins) :
    dropCommaTokens us = ts := by
  induction h with
  | nil => rfl
  | token hrest ih =>
    rw [List.isChain_cons] at hts
    rw [dropCommaTokens, if_neg, ih hts.2]
    -- A comma among the tokens themselves has no closing bracket behind it, and none was added
    rintro ⟨rfl, hcloses⟩
    obtain ⟨u, hu, hcloses⟩ := (Option.any_eq_true _ _).mp hcloses
    obtain hhead | hhead := hrest.head?
    · rw [hhead] at hu
      cases hu
      cases hcloses
    · have hopen := (hts.1 u (hhead ▸ hu)).comma rfl
      rw [hcloses] at hopen
      cases hopen
  | comma _ hcloses hrest ih =>
    rw [List.isChain_cons] at hts
    rw [dropCommaTokens, if_pos ⟨rfl, hcloses⟩, dropCommaTokens_cons_of_closes hcloses, ih hts.2]

/-- **Dropped commas were added.** -/
theorem commasAdded_dropCommaTokens (last : Option Token) (us : List Token) :
    CommasAdded (fun _ => True) last (dropCommaTokens us) us := by
  induction us generalizing last with
  | nil => exact .nil
  | cons u us ih =>
    rw [dropCommaTokens]
    split
    next h =>
      obtain ⟨rfl, hcloses⟩ := h
      cases us with
      | nil => cases hcloses
      | cons t us =>
        -- The closing bracket itself stays, so what is known of it is known of what follows it
        have ht := ih last
        rw [dropCommaTokens_cons_of_closes hcloses] at ht ⊢
        cases ht with
        | token hrest => exact .comma trivial hcloses hrest
        | comma _ _ _ => cases hcloses
    next => exact .token (ih _)

end MapChain.Lenient
