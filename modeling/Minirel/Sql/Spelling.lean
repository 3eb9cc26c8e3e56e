-- SUMMARY: Texts of statements: words with blanks and comments between them, and the parser reading them back.
import Minirel.Sql.RoundTrip
import Minirel.Sql.Scripts

/-!
# Texts

A statement is written as a text when its words are spelled out: keywords in any case, texts
in quotes, and before every word any blanks and comments. Where there are none, the word must
end by itself: what follows must not go on with it. Whatever the writer has chosen, `parse`
returns the statement.
-/

namespace Minirel

open Regex

variable {C : Conversions} {U : Unicode} {upper : String → String} {c : Char} {text rest : List Char}
  {w : Word} {ws : List Word}

/-! ## Words -/

/-- A text of the form `[A-Za-z_][A-Za-z0-9_]*`. -/
def isName : List Char → Bool
  | [] => false
  | c :: cs => startsIdent c && cs.all continuesIdent

/-- The texts of the operators. -/
def operators : List (List Char) :=
  [['<', '='], ['>', '='], ['<', '>'], ['!', '='], ['='], ['<'], ['>'], ['('], [')'], [','], [';'], ['.'],
    ['*'], ['-']]

/-- A word as it may stand in a text. -/
inductive Spells (upper : String → String) : Word → List Char → Prop where
  | keyword {text : List Char} (name : isName text = true) (reserved : upper (.ofList text) ∈ keywords) :
      Spells upper ⟨.keyword, upper (.ofList text)⟩ text
  | ident {text : List Char} (name : isName text = true) (free : upper (.ofList text) ∉ keywords) :
      Spells upper ⟨.ident, .ofList text⟩ text
  | number {text : List Char} (ne : text ≠ []) (digits : ∀ c ∈ text, c.isDigit = true) :
      Spells upper ⟨.number, .ofList text⟩ text
  | string (s : String) : Spells upper ⟨.string, s⟩ (quoted s).toList
  | op {text : List Char} (mem : text ∈ operators) : Spells upper ⟨.op, .ofList text⟩ text

/-- What follows a word of a kind does not go on with it. -/
def Stops (U : Unicode) (text : List Char) (next : Char) : TokenKind → Prop
  | .keyword | .ident => continuesIdent next = false
  | .number => U.isDecimal next = false ∧ next ≠ '.'
  | .string => next ≠ quote
  | .op => (text = ['<'] → next ≠ '=' ∧ next ≠ '>') ∧ (text = ['>'] → next ≠ '=') ∧ (text = ['-'] → next ≠ '-')
  | .eof => True

/-- Blanks, and comments with the ends of their lines. -/
inductive Gap (U : Unicode) : List Char → Prop where
  | nil : Gap U []
  | space {c : Char} {gap : List Char} (blank : U.isSpace c = true) (more : Gap U gap) : Gap U (c :: gap)
  | comment {body gap : List Char} (line : '\n' ∉ body) (more : Gap U gap) :
      Gap U ('-' :: '-' :: (body ++ '\n' :: gap))

/-- A text that spells the words out, up to the end. -/
inductive SpelledOut (U : Unicode) (upper : String → String) : List Word → List Char → Prop where
  | nil : SpelledOut U upper [⟨.eof, ""⟩] []
  /-- A comment may be left open at the end. -/
  | lastLine {body : List Char} (line : '\n' ∉ body) : SpelledOut U upper [⟨.eof, ""⟩] ('-' :: '-' :: body)
  | word {w : Word} {text rest : List Char} {ws : List Word} (spells : Spells upper w text)
      (stops : ∀ next ∈ rest.head?, Stops U text next w.kind) (more : SpelledOut U upper ws rest) :
      SpelledOut U upper (w :: ws) (text ++ rest)
  | gap {gap rest : List Char} {ws : List Word} (isGap : Gap U gap) (more : SpelledOut U upper ws rest) :
      SpelledOut U upper ws (gap ++ rest)

/-! ## Characters -/

theorem ascii_of_startsIdent (h : startsIdent c = true) : 65 ≤ c.toNat ∧ c.toNat < 128 := by
  have hc : c.toNat = c.val.toNat := rfl
  simp only [startsIdent, Bool.or_eq_true, beq_iff_eq] at h
  obtain (h | h) | rfl := h
  · have hbounds : 'A'.val ≤ c.val ∧ c.val ≤ 'Z'.val := of_decide_eq_true h
    simp only [UInt32.le_iff_toNat_le] at hbounds
    have hA : 'A'.val.toNat = 65 := rfl
    have hZ : 'Z'.val.toNat = 90 := rfl
    omega
  · have hbounds : ('a'.val ≤ c.val && c.val ≤ 'z'.val) = true := h
    simp only [Bool.and_eq_true, decide_eq_true_eq, UInt32.le_iff_toNat_le] at hbounds
    have ha : 'a'.val.toNat = 97 := rfl
    have hz : 'z'.val.toNat = 122 := rfl
    omega
  · decide

theorem ascii_of_isDigit (h : c.isDigit = true) : 48 ≤ c.toNat ∧ c.toNat ≤ 57 := by
  have hc : c.toNat = c.val.toNat := rfl
  simp only [Char.isDigit, Bool.and_eq_true, decide_eq_true_eq, ge_iff_le, UInt32.le_iff_toNat_le] at h
  have h0 : '0'.val.toNat = 48 := rfl
  have h9 : '9'.val.toNat = 57 := rfl
  omega

theorem not_isDigit_of_startsIdent (h : startsIdent c = true) : c.isDigit = false := by
  by_contra hdigit
  rw [Bool.not_eq_false] at hdigit
  have h₁ := ascii_of_startsIdent h
  have h₂ := ascii_of_isDigit hdigit
  omega

theorem isSpace_of_toNat (h : 33 ≤ c.toNat) (hlt : c.toNat < 128) : U.isSpace c = false :=
  isSpace_of_ascii hlt (by omega)

theorem isDecimal_of_ascii (hc : c.toNat < 128) (h : c.isDigit = false) : U.isDecimal c = false := by
  rw [U.isDecimal_ascii c hc, h]

/-- A blank goes on with no word. -/
theorem stops_blank (kind : TokenKind) : Stops U text ' ' kind := by
  cases kind with
  | keyword | ident => exact (by decide : continuesIdent ' ' = false)
  | number => exact ⟨isDecimal_of_ascii (by decide) (by decide), by decide⟩
  | string => exact fun h => absurd h (by decide)
  | op => exact ⟨fun _ => ⟨by decide, by decide⟩, fun _ => by decide, fun _ => by decide⟩
  | eof => trivial

/-! ## What the lexer makes of a word -/

theorem not_whitespace (h : U.isSpace c = false) : (TokenGroup.whitespace.regex U).match? (c :: rest) = none :=
  match?_eq_none (ways_seq_of_nil (ways_one_of_not h))

theorem not_comment (h : c ≠ '-' ∨ ∀ next ∈ rest.head?, next ≠ '-') :
    (TokenGroup.comment.regex U).match? (c :: rest) = none := by
  apply match?_eq_none
  by_cases hc : c = '-'
  · subst hc
    have hnext := h.resolve_left (fun h => h rfl)
    cases rest with
    | nil => rfl
    | cons d rest =>
      have hd : (d == '-') = false := beq_eq_false_iff_ne.mpr (hnext d rfl)
      simp [TokenGroup.regex, TokenGroup.exactly, ways, hd]
  · exact ways_seq_of_nil (ways_one_of_not (beq_eq_false_iff_ne.mpr hc))

theorem not_number (h : U.isDecimal c = false) : (TokenGroup.number.regex U).match? (c :: rest) = none := by
  have hdigits : (TokenGroup.digits U).ways (c :: rest) = [] := ways_seq_of_nil (ways_one_of_not h)
  rw [TokenGroup.regex, match?_alt_right (ways_seq_of_nil hdigits)]
  exact match?_eq_none hdigits

theorem not_string (h : c ≠ quote) : (TokenGroup.string.regex U).match? (c :: rest) = none :=
  match?_eq_none (ways_seq_of_nil (ways_one_of_not (beq_eq_false_iff_ne.mpr h)))

theorem not_ident (h : startsIdent c = false) : (TokenGroup.ident.regex U).match? (c :: rest) = none :=
  match?_eq_none (ways_seq_of_nil (ways_one_of_not h))

/-- A name is one piece. -/
theorem masterMatch_name (h : isName text = true) (hrest : ∀ next ∈ rest.head?, continuesIdent next = false) :
    masterMatch U (text ++ rest) = some (.ident, rest) := by
  cases text with
  | nil => cases h
  | cons c cs =>
    rw [isName, Bool.and_eq_true, List.all_eq_true] at h
    obtain ⟨hc, hcs⟩ := h
    obtain ⟨hlow, hascii⟩ := ascii_of_startsIdent hc
    have hname : (TokenGroup.ident.regex U).match? (c :: (cs ++ rest)) = some rest :=
      match?_seq (match?_one hc) (match?_star_one hcs hrest)
    have hspace : U.isSpace c = false := isSpace_of_toNat (by omega) hascii
    have hdecimal : U.isDecimal c = false := isDecimal_of_ascii hascii (not_isDigit_of_startsIdent hc)
    have hminus : c ≠ '-' := by
      rintro rfl
      exact absurd hc (by decide)
    have hquote : c ≠ quote := by
      rintro rfl
      exact absurd hc (by decide)
    rw [List.cons_append]
    simp only [masterMatch, tokenSpec, List.findSome?_cons, not_whitespace hspace, not_comment (.inl hminus),
      not_number hdecimal, not_string hquote, hname, Option.map_none, Option.map_some]

/-- A number is one piece. -/
theorem masterMatch_number (hne : text ≠ []) (h : ∀ c ∈ text, c.isDigit = true)
    (hrest : ∀ next ∈ rest.head?, U.isDecimal next = false ∧ next ≠ '.') :
    masterMatch U (text ++ rest) = some (.number, rest) := by
  have hdecimal : ∀ c ∈ text, U.isDecimal c = true := fun c hc => by
    obtain ⟨-, hle⟩ := ascii_of_isDigit (h c hc)
    rw [U.isDecimal_ascii c (by omega), h c hc]
  have hdigits : (TokenGroup.digits U).match? (text ++ rest) = some rest :=
    match?_plus_one hne hdecimal fun next hnext => (hrest next hnext).1
  -- no digit is a dot, and none follows
  have hnopoint : (Regex.seq (TokenGroup.digits U) (.seq (TokenGroup.exactly '.') (TokenGroup.digits U))).ways
      (text ++ rest) = [] := by
    refine List.eq_nil_iff_forall_not_mem.mpr fun left hleft => ?_
    obtain ⟨taken, htaken, heq⟩ := exists_of_mem_ways _ _ _ hleft
    obtain ⟨whole, hwhole, more, hmore, rfl⟩ := Language.mem_mul.mp htaken
    obtain ⟨point, hpoint, fraction, -, rfl⟩ := Language.mem_mul.mp hmore
    obtain rfl := mem_exactly hpoint
    have hdropped : (text ++ rest).dropWhile U.isDecimal = rest := by
      rw [List.dropWhile_append_of_pos hdecimal]
      cases rest with
      | nil => rfl
      | cons d rest => exact List.dropWhile_cons_of_neg (by simp [(hrest d rfl).1])
    have hdot : U.isDecimal '.' = false := isDecimal_of_ascii (by decide) (by decide)
    rw [heq, List.append_assoc, List.append_assoc, List.dropWhile_append_of_pos (of_mem_plus_one hwhole).2,
      List.singleton_append, List.dropWhile_cons_of_neg (by simp [hdot])] at hdropped
    exact (hrest '.' (by rw [← hdropped]; rfl)).2 rfl
  have hnumber : (TokenGroup.number.regex U).match? (text ++ rest) = some rest := by
    rw [TokenGroup.regex, match?_alt_right hnopoint, hdigits]
  cases text with
  | nil => exact absurd rfl hne
  | cons c cs =>
    obtain ⟨hlow, hle⟩ := ascii_of_isDigit (h c List.mem_cons_self)
    have hspace : U.isSpace c = false := isSpace_of_toNat (by omega) (by omega)
    have hminus : c ≠ '-' := by
      rintro rfl
      exact absurd (h _ List.mem_cons_self) (by decide)
    rw [List.cons_append] at hnumber ⊢
    simp only [masterMatch, tokenSpec, List.findSome?_cons, not_whitespace hspace, not_comment (.inl hminus),
      hnumber, Option.map_none, Option.map_some]

theorem match?_op (h : text ∈ operators) (hrest : ∀ next ∈ rest.head?, Stops U text next .op) :
    (TokenGroup.op.regex U).match? (text ++ rest) = some rest := by
  -- the two operators that another one goes on with
  have hless : text = ['<'] → (TokenGroup.op.regex U).match? (text ++ rest) = some rest := by
    rintro rfl
    cases rest with
    | nil => rfl
    | cons d rest =>
      obtain ⟨heq, hgreater⟩ := (hrest d rfl).1 rfl
      simp [TokenGroup.regex, TokenGroup.opRegex, TokenGroup.exactly, match?, ways, heq, hgreater]
  have hgreater : text = ['>'] → (TokenGroup.op.regex U).match? (text ++ rest) = some rest := by
    rintro rfl
    cases rest with
    | nil => rfl
    | cons d rest =>
      have heq := (hrest d rfl).2.1 rfl
      simp [TokenGroup.regex, TokenGroup.opRegex, TokenGroup.exactly, match?, ways, heq]
  rw [operators] at h
  simp only [List.mem_cons, List.not_mem_nil, or_false] at h
  obtain rfl | rfl | rfl | rfl | rfl | h | h | rfl | rfl | rfl | rfl | rfl | rfl | rfl := h
  case inr.inr.inr.inr.inr.inl => exact hless h
  case inr.inr.inr.inr.inr.inr.inl => exact hgreater h
  all_goals simp [TokenGroup.regex, TokenGroup.opRegex, TokenGroup.exactly, match?, ways]

/-- An operator is one piece. -/
theorem masterMatch_op (h : text ∈ operators) (hrest : ∀ next ∈ rest.head?, Stops U text next .op) :
    masterMatch U (text ++ rest) = some (.op, rest) := by
  have hop := match?_op (U := U) h hrest
  have hfirst : ∃ c cs, text = c :: cs ∧ 33 ≤ c.toNat ∧ c.toNat < 128 ∧ c.isDigit = false ∧ c ≠ quote ∧
      startsIdent c = false ∧ (c = '-' → cs = []) := by
    rw [operators] at h
    simp only [List.mem_cons, List.not_mem_nil, or_false] at h
    obtain rfl | rfl | rfl | rfl | rfl | rfl | rfl | rfl | rfl | rfl | rfl | rfl | rfl | rfl := h <;>
      exact ⟨_, _, rfl, by decide, by decide, by decide, by decide, by decide, by decide⟩
  obtain ⟨c, cs, rfl, hlow, hascii, hdigit, hquote, hstart, hminus⟩ := hfirst
  have hcomment : c ≠ '-' ∨ ∀ next ∈ (cs ++ rest).head?, next ≠ '-' := by
    by_cases hc : c = '-'
    · rw [hminus hc, List.nil_append]
      exact .inr fun next hnext => (hrest next hnext).2.2 (by rw [hc, hminus hc])
    · exact .inl hc
  rw [List.cons_append] at hop ⊢
  simp only [masterMatch, tokenSpec, List.findSome?_cons, not_whitespace (isSpace_of_toNat hlow hascii),
    not_comment hcomment, not_number (isDecimal_of_ascii hascii hdigit), not_string hquote, not_ident hstart,
    hop, Option.map_none, Option.map_some]

/-- All blanks are one piece. -/
theorem masterMatch_blank (h : U.isSpace c = true) :
    masterMatch U (c :: rest) = some (.whitespace, rest.dropWhile U.isSpace) := by
  have htaken : ∀ d ∈ c :: rest.takeWhile U.isSpace, U.isSpace d = true :=
    List.forall_mem_cons.mpr ⟨h, fun d hd => List.mem_takeWhile_imp hd⟩
  have hleft : ∀ next ∈ (rest.dropWhile U.isSpace).head?, U.isSpace next = false := fun next hnext => by
    have hnot := List.head?_dropWhile_not U.isSpace rest
    rw [Option.mem_def.mp hnext] at hnot
    exact hnot
  have hmatch : (TokenGroup.whitespace.regex U).match? (c :: rest) = some (rest.dropWhile U.isSpace) := by
    have hall := match?_plus_one (List.cons_ne_nil _ _) htaken hleft
    rwa [List.cons_append, List.takeWhile_append_dropWhile] at hall
  simp only [masterMatch, tokenSpec, List.findSome?_cons, hmatch, Option.map_some]

/-- A comment is one piece, up to the end of its line. -/
theorem masterMatch_comment (h : '\n' ∉ text) (hrest : ∀ next ∈ rest.head?, next = '\n') :
    masterMatch U ('-' :: '-' :: (text ++ rest)) = some (.comment, rest) := by
  have hspace : U.isSpace '-' = false := isSpace_of_toNat (by decide) (by decide)
  have hline : ∀ c ∈ text, (c != '\n') = true := fun c hc => bne_iff_ne.mpr fun heq => h (heq ▸ hc)
  have hmatch : (TokenGroup.comment.regex U).match? ('-' :: '-' :: (text ++ rest)) = some rest :=
    match?_seq (match?_one rfl) (match?_seq (match?_one rfl)
      (match?_star_one hline fun next hnext => by simp [hrest next hnext]))
  simp only [masterMatch, tokenSpec, List.findSome?_cons, not_whitespace hspace, hmatch, Option.map_none,
    Option.map_some]

/-! ## The words of a text -/

/-- The tokenizer returns these words. -/
def Tokenizes (C : Conversions) (U : Unicode) (upper : String → String) (text : List Char)
    (ws : List Word) : Prop :=
  ∃ tokens, tokenizeFrom C U upper text.length 0 text = .ok tokens ∧ tokens.map Token.toWord = ws

/-- Wherever the text stands. -/
theorem tokenizes_iff {fuel : Nat} (pos : Nat) (hfuel : text.length ≤ fuel) :
    Tokenizes C U upper text ws ↔
      ∃ tokens, tokenizeFrom C U upper fuel pos text = .ok tokens ∧ tokens.map Token.toWord = ws := by
  have hwords : ∀ tokens : List Token,
      (tokens.map (Token.shift pos)).map Token.toWord = tokens.map Token.toWord := fun tokens => by
    rw [List.map_map]
    rfl
  obtain ⟨tokens, h, h'⟩ | ⟨c, p, h, h'⟩ :=
    @tokenizeFrom_shift C U upper pos text.length fuel text 0 le_rfl hfuel
  · rw [Nat.zero_add] at h'
    simp only [Tokenizes, h, h', Except.ok.injEq, exists_eq_left', hwords]
  · rw [Nat.zero_add] at h'
    simp [Tokenizes, h, h']

/-- A piece, and what comes after it. -/
theorem Tokenizes.piece {group : TokenGroup} (hmatch : masterMatch U (text ++ rest) = some (group, rest))
    (h : Tokenizes C U upper rest ws) :
    Tokenizes C U upper (text ++ rest) ((tokenOf upper 0 text group).toList.map Token.toWord ++ ws) := by
  have hlt := length_lt_of_masterMatch hmatch
  cases htext : text ++ rest with
  | nil =>
    rw [htext] at hlt
    exact absurd hlt (Nat.not_lt_zero _)
  | cons c cs =>
    have htake : (c :: cs).take ((c :: cs).length - rest.length) = text := by
      rw [← htext, List.length_append, Nat.add_sub_cancel, List.take_left]
    rw [htext] at hmatch hlt
    obtain ⟨tokens, htokens, hwords⟩ := (tokenizes_iff (0 + text.length) (Nat.lt_succ_iff.mp hlt)).mp h
    refine ⟨(tokenOf upper 0 text group).toList ++ tokens, ?_, ?_⟩
    · rw [List.length_cons, tokenizeFrom]
      simp only [hmatch, htake]
      rw [htokens]
      rfl
    · rw [List.map_append, hwords]

/-- Blanks make no words. -/
theorem Tokenizes.blank (hc : U.isSpace c = true) (h : Tokenizes C U upper rest ws) :
    Tokenizes C U upper (c :: rest) ws := by
  have hdropped : Tokenizes C U upper (rest.dropWhile U.isSpace) ws := by
    cases rest with
    | nil => exact h
    | cons d rest =>
      by_cases hd : U.isSpace d = true
      · obtain ⟨tokens, htokens, hwords⟩ := h
        rw [List.length_cons, tokenizeFrom] at htokens
        simp only [masterMatch_blank hd] at htokens
        obtain ⟨tail, htail, htokens⟩ := bind_eq_ok.mp htokens
        cases htokens
        rw [List.dropWhile_cons_of_pos hd]
        exact (tokenizes_iff _ (List.dropWhile_sublist _).length_le).mpr ⟨tail, htail, hwords⟩
      · rwa [List.dropWhile_cons_of_neg hd]
  have hsplit : c :: rest = (c :: rest.takeWhile U.isSpace) ++ rest.dropWhile U.isSpace := by
    rw [List.cons_append, List.takeWhile_append_dropWhile]
  have hmatch : masterMatch U (c :: rest) = some (.whitespace, rest.dropWhile U.isSpace) :=
    masterMatch_blank hc
  rw [hsplit] at hmatch ⊢
  exact hdropped.piece hmatch

theorem Tokenizes.gap {gap : List Char} (hgap : Gap U gap) (h : Tokenizes C U upper rest ws) :
    Tokenizes C U upper (gap ++ rest) ws := by
  induction hgap with
  | nil => exact h
  | space blank _ ih => exact ih.blank blank
  | @comment body gap line _ ih =>
    have hend : U.isSpace '\n' = true := by
      rw [U.isSpace_ascii _ (by decide)]
      decide
    have hmatch : masterMatch U (('-' :: '-' :: body) ++ ('\n' :: (gap ++ rest))) =
        some (.comment, '\n' :: (gap ++ rest)) :=
      masterMatch_comment line fun next hnext => (Option.some.inj hnext).symm
    have hline := (ih.blank hend).piece hmatch
    simpa [tokenOf] using hline

/-- A word that is spelled out is read as it is. -/
theorem Tokenizes.word (hw : Spells upper w text) (hstops : ∀ next ∈ rest.head?, Stops U text next w.kind)
    (h : Tokenizes C U upper rest ws) : Tokenizes C U upper (text ++ rest) (w :: ws) := by
  cases hw with
  | keyword name reserved =>
    have hpiece := h.piece (masterMatch_name name hstops)
    simp only [tokenOf, if_pos reserved] at hpiece
    exact hpiece
  | ident name free =>
    have hpiece := h.piece (masterMatch_name name hstops)
    simp only [tokenOf, if_neg free] at hpiece
    exact hpiece
  | number ne digits => exact h.piece (masterMatch_number ne digits hstops)
  | string s =>
    have hquoted : (quoted s).toList = quote :: (doubled s.toList ++ [quote]) := by simp [quoted]
    have hnext : rest.head? ≠ some quote := fun heq => hstops quote heq rfl
    have hmatch : masterMatch U ((quoted s).toList ++ rest) = some (.string, rest) := by
      have hone := @masterMatch_quoted U s.toList rest hnext
      rwa [hquoted, List.cons_append, List.append_assoc, List.singleton_append]
    have hpiece := h.piece hmatch
    have hinner : ((quoted s).toList.drop 1).dropLast = doubled s.toList := by
      rw [hquoted, List.drop_one, List.tail_cons, List.dropLast_concat]
    simp only [tokenOf, hinner, undouble_doubled, String.ofList_toList] at hpiece
    exact hpiece
  | op mem => exact h.piece (masterMatch_op mem hstops)

/-- A text that spells words out is read as these words. -/
theorem SpelledOut.tokenizes (h : SpelledOut U upper ws text) : Tokenizes C U upper text ws := by
  induction h with
  | nil => exact ⟨_, rfl, rfl⟩
  | @lastLine body line =>
    have hmatch : masterMatch U (('-' :: '-' :: body) ++ []) = some (.comment, []) :=
      masterMatch_comment line nofun
    have hempty : Tokenizes C U upper [] [⟨.eof, ""⟩] := ⟨_, rfl, rfl⟩
    have hline := hempty.piece hmatch
    simpa [tokenOf] using hline
  | word spells stops _ ih => exact ih.word spells stops
  | gap isGap _ ih => exact ih.gap isGap

/-! ## The round trip -/

/-- A word as it is written when there is nothing to choose. -/
def Word.plain (w : Word) : String := if w.kind = .string then quoted w.value else w.value

/-- The text of a statement with a blank behind every word. -/
def AnyStatement.sql (style : Style) (stmt : AnyStatement) : List Char :=
  (stmt.words style ++ if style.semicolon then [Word.op ";"] else []).flatMap fun w => w.plain.toList ++ [' ']

/-- Words that can be spelled are spelled out with a blank behind each. -/
theorem spelledOut_flatMap (h : ∀ w ∈ ws, Spells upper w w.plain.toList) :
    SpelledOut U upper (ws ++ [⟨.eof, ""⟩]) (ws.flatMap fun w => w.plain.toList ++ [' ']) := by
  induction ws with
  | nil => exact .nil
  | cons w ws ih =>
    rw [List.forall_mem_cons] at h
    have hblank : U.isSpace ' ' = true := by
      rw [U.isSpace_ascii _ (by decide)]
      decide
    rw [List.flatMap_cons, List.cons_append, List.append_assoc]
    refine .word h.1 (fun next hnext => ?_) (.gap (.space hblank .nil) (ih h.2))
    obtain rfl := Option.some.inj hnext
    exact stops_blank w.kind

/-- Every statement whose words can be spelled has a text. -/
theorem AnyStatement.spelledOut_sql (style : Style) (stmt : AnyStatement)
    (h : ∀ w ∈ stmt.words style, Spells upper w w.plain.toList) :
    SpelledOut U upper (stmt.text style) (stmt.sql style) := by
  apply spelledOut_flatMap
  intro w hw
  obtain hw | hw := List.mem_append.mp hw
  · exact h w hw
  · split at hw
    · obtain rfl := List.mem_singleton.mp hw
      have hend : [';'] ∈ operators := by decide
      exact .op hend
    · cases hw

/-- Whatever a text is spelled out of belongs to the grammar it is parsed by. -/
theorem parse_of_textWritten {stmt : AnyStatement} {sql : String} (h : TextWritten C upper stmt ws)
    (hspelled : SpelledOut U upper ws sql.toList) : parse C U upper sql = .ok stmt := by
  obtain ⟨tokens, htokens, rfl⟩ := hspelled.tokenizes (C := C)
  have htext : tokenize C U upper sql = .ok tokens := htokens
  rw [parse, htext]
  exact h.parses

/-- `parse` returns the statement that a text spells out, whatever the case of its keywords and
    whatever blanks and comments stand between its words. -/
theorem parse_spelledOut (style : Style) (hupper : ∀ t : ColumnType, upper t.value = t.value)
    {stmt : AnyStatement} (h : stmt.Writable C upper) {sql : String}
    (hspelled : SpelledOut U upper (stmt.text style) sql.toList) : parse C U upper sql = .ok stmt := by
  refine parse_of_textWritten ⟨_, _, ⟨.eof, ""⟩, AnyStatement.words_written hupper h, ?_, rfl, rfl⟩ hspelled
  cases style.semicolon <;> simp

theorem Spells.of_upper {value : String} (name : isName text = true) (h : upper (.ofList text) = value)
    (reserved : value ∈ keywords) : Spells upper (Word.keyword value) text := by
  subst h
  exact .keyword name reserved

/-- DELETE FROM t, with a comment in the middle and no blank where none is needed. -/
theorem parse_spelledOut_delete :
    parse decimal .ascii String.toUpper "delete from--all\nt;" = .ok (.statement (.delete "t" none)) := by
  have htext : "delete from--all\nt;".toList = "delete".toList ++ ([' '] ++ ("from".toList ++
      (('-' :: '-' :: ("all".toList ++ '\n' :: [])) ++ ("t".toList ++ ([';'] ++ []))))) := by
    decide +kernel
  have hdelete : Spells String.toUpper (Word.keyword "DELETE") "delete".toList :=
    .of_upper (by decide +kernel) (by decide +kernel) (by decide +kernel)
  have hfrom : Spells String.toUpper (Word.keyword "FROM") "from".toList :=
    .of_upper (by decide +kernel) (by decide +kernel) (by decide +kernel)
  have hname : isName "t".toList = true := by decide +kernel
  have ht : Spells String.toUpper (Word.ident "t") "t".toList := .ident hname (by decide +kernel)
  have hend : Spells String.toUpper (Word.op ";") [';'] := .op (by decide +kernel)
  have hwritable : (AnyStatement.statement (.delete "t" none)).Writable decimal String.toUpper := nofun
  refine parse_spelledOut ⟨false, false, false, true⟩ (by intro t; cases t <;> decide +kernel) hwritable ?_
  rw [htext]
  refine .word hdelete ?_ (.gap (.space rfl .nil) (.word hfrom ?_ (.gap (.comment ?_ .nil)
    (.word ht ?_ (.word hend nofun .nil)))))
  · rintro next ⟨⟩
    exact (by decide : continuesIdent ' ' = false)
  · rintro next ⟨⟩
    exact (by decide : continuesIdent '-' = false)
  · decide
  · rintro next ⟨⟩
    exact (by decide : continuesIdent ';' = false)

end Minirel
