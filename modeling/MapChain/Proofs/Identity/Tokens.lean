import MapChain.Proofs.Identity.TokenStarts
import MapChain.Proofs.Text.Offsets

/-!
# The tokens of a text

The scan that makes an identity map goes over the characters once and remembers three things. What
it finds are the tokens of the text: the longest runs of characters without a blank within a line,
each once and in the order of the text. A lookup in the identity map goes back to the start of the
last of them.

## Layers

- **Tokens of a line**: `tokensFrom` lists the tokens that `Token.IsIn` describes (`mem_tokensFrom`),
  in order.
- **Tokens of a text**: `tokens` lists the tokens of all lines (`mem_tokens`, `pairwise_tokens`), and
  a scan finds their starts (`tokenStarts_eq_map`).
- **Positions**: in a text whose lines and columns fit 32 bits the starts are in order.
- **Map**: the start of a token leads to itself (`trace_identity`), and any position leads to the
  last start that it reaches (`trace_eq_getLast?`).
- **Statement**: `identity_tokens`.
-/

namespace MapChain

namespace Identity

/-! ## Tokens of a line -/

/-- Some characters of a text where they stand: their line, counted from zero, and what is before
and after them on this line. -/
structure Token where
  line : Nat
  before : List Char
  chars : List Char
  after : List Char
  deriving DecidableEq, Repr

/-- The characters are a token of a line: there are some, none of them is blank, and on either side
is a blank or an end of the line. -/
structure Token.IsIn (line : List Char) (t : Token) : Prop where
  eq : t.before ++ (t.chars ++ t.after) = line
  nonempty : t.chars ≠ []
  solid : ∀ c ∈ t.chars, Text.isBlank c = false
  opens : ∀ c ∈ t.before.getLast?, Text.isBlank c = true
  closes : ∀ c ∈ t.after.head?, Text.isBlank c = true

/-- Stands earlier in the text. -/
def Token.Precedes (a b : Token) : Prop :=
  a.line < b.line ∨ a.line = b.line ∧ a.before.length < b.before.length

/-- Whether a character starts a token behind others of its line. -/
def opensToken (before : List Char) (c : Char) : Bool :=
  !Text.isBlank c && before.getLast?.all Text.isBlank

/-- The tokens of a line that start behind some of its characters. -/
def tokensFrom (line : Nat) (before : List Char) : List Char → List Token
  | [] => []
  | c :: rest =>
    if opensToken before c then
      ⟨line, before, (c :: rest).takeWhile (!Text.isBlank ·),
        (c :: rest).dropWhile (!Text.isBlank ·)⟩ :: tokensFrom line (before ++ [c]) rest
    else tokensFrom line (before ++ [c]) rest

theorem opensToken_eq_true_iff {before : List Char} {c : Char} :
    opensToken before c = true ↔
      Text.isBlank c = false ∧ ∀ d ∈ before.getLast?, Text.isBlank d = true := by
  simp [opensToken, Option.all_eq_true]

/-- The token that starts at a character goes up to the next blank. -/
theorem isIn_append_cons_iff {t : Token} {c : Char} {rest : List Char} :
    t.IsIn (t.before ++ c :: rest) ↔ opensToken t.before c = true ∧
      t.chars = (c :: rest).takeWhile (!Text.isBlank ·) ∧
      t.after = (c :: rest).dropWhile (!Text.isBlank ·) := by
  rw [opensToken_eq_true_iff]
  constructor
  · rintro ⟨heq, hnonempty, hsolid, hopens, hcloses⟩
    have hsplit := List.append_cancel_left heq
    have hstop : t.after.takeWhile (!Text.isBlank ·) = [] := by
      rw [List.takeWhile_eq_nil_iff]
      intro hpos
      simpa using hcloses _ (List.head?_eq_getElem? ▸ List.getElem?_eq_getElem hpos)
    have hrest : t.after.dropWhile (!Text.isBlank ·) = t.after := by
      have hparts := List.takeWhile_append_dropWhile (p := (!Text.isBlank ·)) (l := t.after)
      rwa [hstop, List.nil_append] at hparts
    have hpass : ∀ d ∈ t.chars, (!Text.isBlank d) = true := fun d hd => by simp [hsolid d hd]
    have hc : Text.isBlank c = false := by
      obtain ⟨d, chars, hcons⟩ := List.exists_cons_of_ne_nil hnonempty
      rw [hcons, List.cons_append] at hsplit
      obtain ⟨rfl, -⟩ := List.cons.inj hsplit
      exact hsolid d (hcons ▸ List.mem_cons_self)
    refine ⟨⟨hc, hopens⟩, ?_, ?_⟩
    · rw [← hsplit, List.takeWhile_append_of_pos hpass, hstop, List.append_nil]
    · rw [← hsplit, List.dropWhile_append_of_pos hpass, hrest]
  · rintro ⟨⟨hc, hopens⟩, hchars, hafter⟩
    refine ⟨?_, ?_, fun d hd => ?_, hopens, fun d hd => ?_⟩
    · rw [hchars, hafter, List.takeWhile_append_dropWhile]
    · simp [hchars, hc]
    · rw [hchars] at hd
      simpa using List.mem_takeWhile_imp hd
    · rw [hafter, Option.mem_def] at hd
      simpa [hd] using List.head?_dropWhile_not (!Text.isBlank ·) (c :: rest)

/-- A token starts at a character or behind it. -/
theorem mem_tokensFrom_cons {line : Nat} {before rest : List Char} {c : Char} {t : Token} :
    t ∈ tokensFrom line before (c :: rest) ↔
      t.line = line ∧ t.before = before ∧ t.IsIn (t.before ++ c :: rest) ∨
        t ∈ tokensFrom line (before ++ [c]) rest := by
  rw [isIn_append_cons_iff, tokensFrom]
  obtain ⟨line', before', chars, after⟩ := t
  split
  next h =>
    -- The token that starts here is what the line has from here to the next blank
    rw [List.mem_cons, Token.mk.injEq]
    refine or_congr_left ⟨?_, fun ⟨hline, hbefore, _, htoken⟩ => ⟨hline, hbefore, htoken⟩⟩
    rintro ⟨rfl, rfl, htoken⟩
    exact ⟨rfl, rfl, h, htoken⟩
  next h =>
    refine (or_iff_right ?_).symm
    rintro ⟨-, rfl, hopens, -⟩
    exact h hopens

/-- The tokens found behind some characters are all that start there or later. -/
theorem mem_tokensFrom {line : Nat} {before rest : List Char} {t : Token} :
    t ∈ tokensFrom line before rest ↔
      t.line = line ∧ t.IsIn (before ++ rest) ∧ before.length ≤ t.before.length := by
  induction rest generalizing before with
  | nil =>
    refine ⟨fun h => absurd h List.not_mem_nil, ?_⟩
    rintro ⟨-, ⟨heq, hnonempty, -, -, -⟩, hle⟩
    have hlength := congrArg List.length heq
    simp only [List.length_append, List.length_nil] at hlength
    have := List.length_pos_iff.mpr hnonempty
    omega
  | cons c rest ih =>
    rw [mem_tokensFrom_cons, ih, List.append_assoc, List.singleton_append, List.length_append,
      List.length_singleton]
    constructor
    · rintro (⟨hline, hbefore, hin⟩ | ⟨hline, hin, hle⟩)
      · exact ⟨hline, hbefore ▸ hin, Nat.le_of_eq (congrArg List.length hbefore.symm)⟩
      · exact ⟨hline, hin, Nat.le_of_succ_le hle⟩
    · rintro ⟨hline, hin, hle⟩
      rcases Nat.eq_or_lt_of_le hle with heq | hlt
      · -- Two prefixes of a line that are as long are the same
        have hbefore : t.before = before := List.append_inj_left hin.eq heq.symm
        exact .inl ⟨hline, hbefore, hbefore.symm ▸ hin⟩
      · exact .inr ⟨hline, hin, hlt⟩

theorem pairwise_tokensFrom (line : Nat) (before rest : List Char) :
    (tokensFrom line before rest).Pairwise Token.Precedes := by
  induction rest generalizing before with
  | nil => exact .nil
  | cons c rest ih =>
    rw [tokensFrom]
    split
    · refine List.pairwise_cons.mpr ⟨fun t ht => ?_, ih _⟩
      obtain ⟨hline, -, hlength⟩ := mem_tokensFrom.mp ht
      rw [List.length_append] at hlength
      exact .inr ⟨hline.symm, hlength⟩
    · exact ih _

/-! ## Tokens of a text -/

/-- The token stands in a line of the text. -/
def IsToken (text : String) (t : Token) : Prop :=
  ∃ line, (text.toList.splitOn '\n')[t.line]? = some line ∧ t.IsIn line

/-- The tokens of a text. -/
def tokens (text : String) : List Token :=
  (text.toList.splitOn '\n').zipIdx.flatMap fun (line, i) => tokensFrom i [] line

theorem mem_tokens {text : String} {t : Token} : t ∈ tokens text ↔ IsToken text t := by
  simp only [tokens, List.mem_flatMap, Prod.exists, List.mk_mem_zipIdx_iff_getElem?,
    mem_tokensFrom, List.nil_append, List.length_nil, Nat.zero_le, and_true]
  constructor
  · rintro ⟨line, i, hline, rfl, hin⟩
    exact ⟨line, hline, hin⟩
  · rintro ⟨line, hline, hin⟩
    exact ⟨line, t.line, hline, rfl, hin⟩

theorem pairwise_tokens (text : String) : (tokens text).Pairwise Token.Precedes := by
  refine List.pairwise_flatMap.mpr ⟨fun x _ => pairwise_tokensFrom x.2 [] x.1, ?_⟩
  have hindices : ((text.toList.splitOn '\n').zipIdx.map Prod.snd).Pairwise (· < ·) := by
    rw [List.zipIdx_map_snd]
    exact List.pairwise_lt_range'
  refine (List.pairwise_map.mp hindices).imp fun hlt a ha b hb => .inl ?_
  rwa [(mem_tokensFrom.mp ha).1, (mem_tokensFrom.mp hb).1]

/-! ## Positions -/

/-- The position of the first character, whose line counts from one. -/
def Token.start (t : Token) : Position :=
  Position.ofNat (t.line + 1) (Text.utf16Length t.before)

theorem isTokenStart_iff {text : String} {p : Position} :
    IsTokenStart text p ↔ ∃ t, IsToken text t ∧
      p.line.toNat = t.line + 1 ∧ p.column.toNat = Text.utf16Length t.before := by
  constructor
  · rintro ⟨i, before, chars, after, hline, hnonempty, hsolid, hopens, hcloses, hp⟩
    have hin : Token.IsIn (before ++ chars ++ after) ⟨i, before, chars, after⟩ :=
      ⟨(List.append_assoc _ _ _).symm, hnonempty, hsolid, hopens, hcloses⟩
    exact ⟨_, ⟨_, hline, hin⟩, hp⟩
  · rintro ⟨t, ⟨line, hline, hin⟩, hp⟩
    rw [← hin.eq, ← List.append_assoc] at hline
    exact ⟨_, _, _, _, hline, hin.nonempty, hin.solid, hin.opens, hin.closes, hp⟩

/-- The scan of a line behind some of its characters. -/
def scanBehind (line : Nat) (before : List Char) : Scan :=
  ⟨line + 1, Text.utf16Length before, !before.getLast?.all Text.isBlank⟩

theorem scanBehind_next {c : Char} (h : c ≠ '\n') (line : Nat) (before : List Char) :
    (scanBehind line before).next c = scanBehind line (before ++ [c]) := by
  simp [scanBehind, Scan.next, h]

/-- Within a line a scan finds the starts of its tokens. -/
theorem tokenStarts_scanBehind {rest : List Char} (h : '\n' ∉ rest) (line : Nat)
    (before : List Char) :
    tokenStarts (scanBehind line before) rest = (tokensFrom line before rest).map Token.start := by
  induction rest generalizing before with
  | nil => rfl
  | cons c rest ih =>
    obtain ⟨hc, hrest⟩ := not_or.mp (List.mem_cons.not.mp h)
    have hstarts : (scanBehind line before).starts c = opensToken before c := by
      simp [scanBehind, Scan.starts, opensToken]
    rw [tokenStarts, tokensFrom, hstarts, scanBehind_next (Ne.symm hc), ih hrest]
    split <;> rfl

/-- A scan finds the starts of the tokens of a text. -/
theorem tokenStarts_eq_map (text : String) :
    tokenStarts .start text.toList = (tokens text).map Token.start := by
  have hstart : Scan.start = lineStart 1 := rfl
  rw [hstart, tokenStarts_eq_flatMap, List.zipIdx_succ, List.flatMap_map, tokens,
    List.map_flatMap]
  apply List.flatMap_congr
  rintro ⟨line, i⟩ hline
  exact tokenStarts_scanBehind (not_mem_of_mem_splitOn (List.fst_mem_of_mem_zipIdx hline)) i []

/-- A scan finds every token. -/
theorem mem_tokenStarts {text : String} {p : Position} (h : IsTokenStart text p) :
    p ∈ tokenStarts .start text.toList := by
  obtain ⟨t, ht, hline, hcolumn⟩ := isTokenStart_iff.mp h
  have hstart : t.start = p := by
    rw [Token.start, ← hline, ← hcolumn, Position.ofNat, UInt32.ofNat_toNat, UInt32.ofNat_toNat]
  rw [tokenStarts_eq_map, ← hstart]
  exact List.mem_map_of_mem (mem_tokens.mpr ht)

section Fit

variable {text : String} (hlines : (text.toList.splitOn '\n').length < 2 ^ 32)
  (hcolumns : ∀ line ∈ text.toList.splitOn '\n', Text.utf16Length line < 2 ^ 32)

include hlines hcolumns

/-- The start of a token is exact. -/
theorem IsToken.start_exact {t : Token} (ht : IsToken text t) :
    t.start.line.toNat = t.line + 1 ∧ t.start.column.toNat = Text.utf16Length t.before := by
  obtain ⟨line, hline, hin⟩ := ht
  obtain ⟨hlt, -⟩ := List.getElem?_eq_some_iff.mp hline
  have hcolumn := hcolumns line (List.mem_of_getElem? hline)
  rw [← hin.eq, Text.utf16Length_append] at hcolumn
  exact ⟨UInt32.toNat_ofNat_of_lt' (show t.line + 1 < 2 ^ 32 by omega),
    UInt32.toNat_ofNat_of_lt' (show Text.utf16Length t.before < 2 ^ 32 by omega)⟩

/-- A token that stands earlier starts at an earlier position. -/
theorem IsToken.start_le {a b : Token} (ha : IsToken text a) (hb : IsToken text b)
    (hab : a.Precedes b) : a.start ≤ b.start := by
  obtain ⟨haline, hacolumn⟩ := ha.start_exact hlines hcolumns
  obtain ⟨hbline, hbcolumn⟩ := hb.start_exact hlines hcolumns
  rw [Position.le_iff, haline, hbline, hacolumn, hbcolumn, ← UInt32.toNat_inj, haline, hbline]
  rcases hab with hlt | ⟨heq, hlt⟩
  · exact .inl (Nat.succ_lt_succ hlt)
  · -- What is before the one is a part of what is before the other
    obtain ⟨line, hline, hin⟩ := ha
    obtain ⟨line', hline', hin'⟩ := hb
    rw [heq] at hline
    obtain rfl := Option.some.inj (hline.symm.trans hline')
    obtain ⟨between, hbetween⟩ := List.prefix_of_prefix_length_le ⟨_, hin.eq⟩ ⟨_, hin'.eq⟩ hlt.le
    rw [← hbetween, Text.utf16Length_append]
    exact .inr ⟨congrArg Nat.succ heq, Nat.le_add_right _ _⟩

theorem pairwise_starts_tokens : (tokens text).Pairwise fun a b => a.start ≤ b.start :=
  (pairwise_tokens text).imp_of_mem fun ha hb hab =>
    (mem_tokens.mp ha).start_le hlines hcolumns (mem_tokens.mp hb) hab

theorem start_line_ne_zero {t : Token} (ht : IsToken text t) : t.start.line ≠ 0 :=
  line_ne_zero_of_isTokenStart
    (isTokenStart_iff.mpr ⟨t, ht, ht.start_exact hlines hcolumns⟩)

end Fit

/-! ## Map -/

/-- **A token leads to itself.** -/
theorem trace_identity {source text : String} {m : SourceMap}
    (hm : SourceMap.ofDocument (MapBuilder.identity source text).toDocument = .ok m)
    {p : Position} (hp : IsTokenStart text p) : m.trace p = some ⟨source, p, none⟩ := by
  obtain ⟨m', hm', hperm⟩ := ofDocument_identity source text
  obtain rfl := Except.ok.inj (hm.symm.trans hm')
  apply trace_self (SourceMap.pairwise_generated hm)
  · intro x hx
    obtain ⟨q, -, rfl⟩ := List.mem_map.mp (hperm.mem_iff.mp hx)
    rfl
  · rw [hperm.mem_iff, List.mem_map]
    exact ⟨p, mem_tokenStarts hp, by
      rw [Position.counted_of_ne (line_ne_zero_of_isTokenStart hp)]⟩

theorem sources_identity (source text : String) :
    (MapBuilder.identity source text).sources = [⟨source, some text⟩] := by
  rw [identity_eq_run, MapBuilder.run_eq, sourceTable_calls, MapBuilder.files, List.map_singleton,
    lastText_calls]

theorem content?_identity {source text : String} {m : SourceMap}
    (hm : SourceMap.ofDocument (MapBuilder.identity source text).toDocument = .ok m) :
    m.content? source = some text := by
  obtain ⟨segments, -, -, -, hm'⟩ := MapBuilder.ofDocument_run none (calls source text)
  rw [← identity_eq_run] at hm'
  obtain rfl := Except.ok.inj (hm.symm.trans hm')
  rw [← lastText_calls source text]
  exact MapBuilder.content?_files MapBuilder.lastText_of_notMem

/-- A map that leads places to themselves leads a position to the last one of them that is reached,
if they are in order. -/
theorem trace_eq_getLast? {m : SourceMap}
    (hsorted : m.mappings.Pairwise fun a b => a.generated ≤ b.generated) {source : String}
    {α : Type} {place : α → Position} {entries : List α}
    (hplaces : entries.Pairwise fun a b => place a ≤ place b)
    (hperm : m.mappings.Perm (entries.map fun a => mapping source (place a))) (p : Position) :
    m.trace p =
      (Lookup.reached place entries p).getLast?.map fun a => ⟨source, place a, none⟩ := by
  have hplace : ∀ a ∈ entries, (mapping source (place a)).generated = place a := fun _ _ => rfl
  cases hlast : (Lookup.reached place entries p).getLast? with
  | none =>
    have hreached : (Lookup.reached Mapping.generated m.mappings p).Perm
        ((Lookup.reached place entries p).map fun a => mapping source (place a)) := by
      rw [← Lookup.reached_map hplace]
      exact hperm.filter _
    rw [List.getLast?_eq_none_iff.mp hlast, List.map_nil, List.perm_nil] at hreached
    rw [SourceMap.trace, (SourceMap.deciding?_spec hsorted p).1.mpr hreached]
    rfl
  | some a =>
    apply trace_of_mem_nearest hsorted
    · intro x hx
      obtain ⟨b, -, rfl⟩ := List.mem_map.mp (hperm.mem_iff.mp hx)
      rfl
    · rw [Lookup.mem_nearest_of_perm hperm, Lookup.nearest_map hplace]
      exact List.mem_map_of_mem (Lookup.mem_nearest_of_getLast? hplaces hlast)

/-! ## Statement -/

/-- **The identity map of a text** whose lines and columns fit 32 bits. Its mappings lead the starts
of the tokens of the text to themselves, in the order of the text. Once it is decoded, it leads a
position to the start of the last token on its line that starts at the position or before it, if
there is one, and the text is embedded. -/
theorem identity_tokens (source text : String)
    (hlines : (text.toList.splitOn '\n').length < 2 ^ 32)
    (hcolumns : ∀ line ∈ text.toList.splitOn '\n', Text.utf16Length line < 2 ^ 32) :
    (∀ t, t ∈ tokens text ↔ IsToken text t) ∧ (tokens text).Pairwise Token.Precedes ∧
      (∀ t ∈ tokens text, t.start.line.toNat = t.line + 1 ∧
        t.start.column.toNat = Text.utf16Length t.before) ∧
      (MapBuilder.identity source text).sources = [⟨source, some text⟩] ∧
      (MapBuilder.identity source text).pending.toList =
        (tokens text).map (fun t => ⟨t.start, some (0, t.start), none⟩) ∧
      ∃ m, SourceMap.ofDocument (MapBuilder.identity source text).toDocument = .ok m ∧
        (∀ p : Position, m.trace p =
          ((tokens text).filter fun t =>
            t.start.line = p.line ∧ t.start.column ≤ p.column).getLast?.map
              fun t => ⟨source, t.start, none⟩) ∧
        m.content? source = some text := by
  have hpending : (MapBuilder.identity source text).pending.toList =
      (tokens text).map (fun t => ⟨t.start, some (0, t.start), none⟩) := by
    rw [identity_eq_run, MapBuilder.run_eq, pendingMappings_calls, tokenStarts_eq_map,
      List.map_map]
    rfl
  obtain ⟨m, hm, hperm⟩ := ofDocument_identity source text
  -- No line is zero, so the lines of the starts are kept
  have hcounted : (tokenStarts .start text.toList).map (fun p => mapping source p.counted) =
      (tokens text).map fun t => mapping source t.start := by
    rw [tokenStarts_eq_map, List.map_map]
    refine List.map_congr_left fun t ht => ?_
    rw [Function.comp_apply,
      Position.counted_of_ne (start_line_ne_zero hlines hcolumns (mem_tokens.mp ht))]
  rw [hcounted] at hperm
  exact ⟨fun t => mem_tokens, pairwise_tokens text,
    fun t ht => (mem_tokens.mp ht).start_exact hlines hcolumns, sources_identity source text,
    hpending, m, hm, trace_eq_getLast? (SourceMap.pairwise_generated hm)
      (pairwise_starts_tokens hlines hcolumns) hperm, content?_identity hm⟩

/-- A text with a character of two units, a blank beyond the first characters, a carriage return
and an empty line. -/
def blankText : String := "𝒳\u3000b\r\n\n\t 😀c"

/-- Before the first token of a line and on an empty line nothing is found. -/
theorem identity_tokens_blankText :
    (blankText.toList.splitOn '\n').length < 2 ^ 32 ∧
      (∀ line ∈ blankText.toList.splitOn '\n', Text.utf16Length line < 2 ^ 32) ∧
      (MapBuilder.identity "in.ts" blankText).pending.toList =
        [⟨⟨1, 0⟩, some (0, ⟨1, 0⟩), none⟩, ⟨⟨1, 3⟩, some (0, ⟨1, 3⟩), none⟩,
          ⟨⟨3, 2⟩, some (0, ⟨3, 2⟩), none⟩] ∧
      ∃ m, SourceMap.ofDocument (MapBuilder.identity "in.ts" blankText).toDocument = .ok m ∧
        m.trace ⟨1, 2⟩ = some ⟨"in.ts", ⟨1, 0⟩, none⟩ ∧
        m.trace ⟨1, 9⟩ = some ⟨"in.ts", ⟨1, 3⟩, none⟩ ∧ m.trace ⟨2, 0⟩ = none ∧
        m.trace ⟨3, 1⟩ = none ∧ m.content? "in.ts" = some blankText := by
  have hlines : (blankText.toList.splitOn '\n').length < 2 ^ 32 := by decide
  have hcolumns : ∀ line ∈ blankText.toList.splitOn '\n', Text.utf16Length line < 2 ^ 32 := by
    decide
  obtain ⟨-, -, -, -, hpending, m, hm, htrace, hcontent⟩ :=
    identity_tokens "in.ts" blankText hlines hcolumns
  refine ⟨hlines, hcolumns, hpending.trans ?_, m, hm, (htrace _).trans ?_, (htrace _).trans ?_,
    (htrace _).trans ?_, (htrace _).trans ?_, hcontent⟩
  all_goals decide

end Identity

end MapChain
