-- SUMMARY: The tokenizer ends, its positions shift with the text, and it reads a quoted text back.
import Minirel.Sql.Lexer

/-!
# Lexing

The tokenizer makes progress with every match, so it ends: with tokens of which only the
last is an EOF, or with the error of a character. A text in quotes is one token, whatever
stands in it and after it.
-/

namespace Minirel

open Regex

variable {C : Conversions} {U : Unicode} {upper : String → String}

/-! ## Progress -/

theorem TokenGroup.takesSome (group : TokenGroup) : (group.regex U).takesSome := by
  cases group <;> rfl

/-- A match takes off a word of its group. -/
theorem exists_of_masterMatch {input rest : List Char} {group : TokenGroup}
    (h : masterMatch U input = some (group, rest)) :
    ∃ text ∈ (group.regex U).language, input = text ++ rest := by
  obtain ⟨g, -, hg⟩ := List.exists_of_findSome?_eq_some h
  obtain ⟨rest', hmatch, heq⟩ := Option.map_eq_some_iff.mp hg
  cases heq
  exact exists_of_match? hmatch

theorem length_lt_of_masterMatch {input rest : List Char} {group : TokenGroup}
    (h : masterMatch U input = some (group, rest)) : rest.length < input.length := by
  obtain ⟨text, htext, rfl⟩ := exists_of_masterMatch h
  have hpos := List.length_pos_iff.mpr (ne_nil_of_takesSome group.takesSome htext)
  rw [List.length_append]
  omega

theorem tokenOf_kind {pos : Nat} {text : List Char} {group : TokenGroup} {t : Token}
    (h : t ∈ tokenOf upper pos text group) : t.kind ≠ .eof := by
  cases group with
  | whitespace | comment => cases h
  | ident =>
    simp only [tokenOf] at h
    split at h <;> cases h <;> nofun
  | number | string | op =>
    cases h
    nofun

/-! ## Positions -/

/-- The same token, further on. -/
def Token.shift (n : Nat) (t : Token) : Token := { t with pos := t.pos + n }

@[simp] theorem tokenOf_shift (pos n : Nat) (text : List Char) (group : TokenGroup) :
    tokenOf upper (pos + n) text group = (tokenOf upper pos text group).map (Token.shift n) := by
  cases group with
  | ident =>
    simp only [tokenOf]
    split <;> rfl
  | whitespace | comment | number | string | op => rfl

/-- Where a text starts only moves what becomes of it, and fuel for every character is
    enough. -/
theorem tokenizeFrom_shift (n : Nat) {fuel fuel' : Nat} {input : List Char} (pos : Nat)
    (hfuel : input.length ≤ fuel) (hfuel' : input.length ≤ fuel') :
    (∃ tokens, tokenizeFrom C U upper fuel pos input = .ok tokens ∧
      tokenizeFrom C U upper fuel' (pos + n) input = .ok (tokens.map (Token.shift n))) ∨
    ∃ c p, tokenizeFrom C U upper fuel pos input = .error (unexpected C c p) ∧
      tokenizeFrom C U upper fuel' (pos + n) input = .error (unexpected C c (p + n)) := by
  induction fuel generalizing fuel' pos input with
  | zero =>
    obtain rfl := List.length_eq_zero_iff.mp (Nat.le_zero.mp hfuel)
    exact .inl ⟨_, rfl, by simp [tokenizeFrom, Token.shift]⟩
  | succ fuel ih =>
    cases input with
    | nil => exact .inl ⟨_, rfl, by simp [tokenizeFrom, Token.shift]⟩
    | cons c cs =>
      rw [List.length_cons] at hfuel hfuel'
      obtain ⟨fuel', rfl⟩ : ∃ m, fuel' = m + 1 := ⟨fuel' - 1, by omega⟩
      simp only [tokenizeFrom]
      cases hmatch : masterMatch U (c :: cs) with
      | none => exact .inr ⟨c, pos, rfl, rfl⟩
      | some found =>
        obtain ⟨group, rest⟩ := found
        have hlt := length_lt_of_masterMatch hmatch
        rw [List.length_cons] at hlt
        simp only
        rw [Nat.add_right_comm pos n]
        rcases ih (pos + ((c :: cs).take ((c :: cs).length - rest.length)).length)
          (show rest.length ≤ fuel by omega) (show rest.length ≤ fuel' by omega) with
          ⟨tokens, h, h'⟩ | ⟨c', p, h, h'⟩
        · refine .inl ⟨_, by rw [h]; rfl, ?_⟩
          rw [h', tokenOf_shift, List.map_append, Option.toList_map]
          rfl
        · exact .inr ⟨c', p, by rw [h]; rfl, by rw [h']; rfl⟩

/-! ## The end -/

/-- The tokens end with the only EOF, which has no text. -/
theorem tokenizeFrom_ends {fuel pos : Nat} {input : List Char} {tokens : List Token}
    (h : tokenizeFrom C U upper fuel pos input = .ok tokens) :
    ∃ body p, tokens = body ++ [⟨⟨.eof, ""⟩, p⟩] ∧ ∀ t ∈ body, t.kind ≠ .eof := by
  induction fuel generalizing pos input tokens with
  | zero =>
    cases input with
    | nil =>
      cases h
      exact ⟨[], pos, rfl, by simp⟩
    | cons c cs => cases h
  | succ fuel ih =>
    cases input with
    | nil =>
      cases h
      exact ⟨[], pos, rfl, by simp⟩
    | cons c cs =>
      simp only [tokenizeFrom] at h
      split at h
      · cases h
      · obtain ⟨tail, htail, h⟩ := bind_eq_ok.mp h
        cases h
        obtain ⟨body, p, rfl, hbody⟩ := ih htail
        refine ⟨_ ++ body, p, (List.append_assoc ..).symm, fun t ht => ?_⟩
        rcases List.mem_append.mp ht with hfirst | hrest
        · exact tokenOf_kind (Option.mem_toList.mp hfirst)
        · exact hbody t hrest

/-- Every other token is made of a word of its group. -/
theorem tokenizeFrom_tokens {fuel pos : Nat} {input : List Char} {tokens : List Token}
    (h : tokenizeFrom C U upper fuel pos input = .ok tokens) {t : Token} (ht : t ∈ tokens)
    (heof : t.kind ≠ .eof) :
    ∃ group p, ∃ text ∈ (group.regex U).language, tokenOf upper p text group = some t := by
  have hlast : ∀ p, t ∉ [(⟨⟨.eof, ""⟩, p⟩ : Token)] := fun p hmem =>
    heof (by rw [List.mem_singleton.mp hmem])
  induction fuel generalizing pos input tokens with
  | zero =>
    cases input with
    | nil =>
      cases h
      exact absurd ht (hlast pos)
    | cons c cs => cases h
  | succ fuel ih =>
    cases input with
    | nil =>
      cases h
      exact absurd ht (hlast pos)
    | cons c cs =>
      simp only [tokenizeFrom] at h
      split at h
      · cases h
      · rename_i group rest hmatch
        obtain ⟨tail, htail, h⟩ := bind_eq_ok.mp h
        cases h
        rcases List.mem_append.mp ht with hfirst | hrest
        · obtain ⟨text, htext, hsplit⟩ := exists_of_masterMatch hmatch
          have htake : (c :: cs).take ((c :: cs).length - rest.length) = text := by
            rw [hsplit, List.length_append, Nat.add_sub_cancel, List.take_left]
          rw [htake] at hfirst
          exact ⟨group, pos, text, htext, Option.mem_toList.mp hfirst⟩
        · exact ih htail hrest

/-- The tokenizer ends, with tokens or with the error of a character. -/
theorem tokenize_cases (sql : String) :
    (∃ tokens, tokenize C U upper sql = .ok tokens) ∨
      ∃ c pos, tokenize C U upper sql = .error (unexpected C c pos) := by
  rcases tokenizeFrom_shift 0 0 (le_refl sql.toList.length) le_rfl with
    ⟨tokens, h, -⟩ | ⟨c, pos, h, -⟩
  · exact .inl ⟨tokens, h⟩
  · exact .inr ⟨c, pos, h⟩

/-! ## String literals -/

/-- A text with every quote doubled. -/
def doubled (s : List Char) : List Char := s.flatMap fun c => if c = quote then [quote, quote] else [c]

/-- A text as a literal. -/
def quoted (s : String) : String := .ofList (quote :: doubled s.toList ++ [quote])

theorem doubled_cons_quote (s : List Char) :
    doubled (quote :: s) = quote :: quote :: doubled s := rfl

theorem doubled_cons {c : Char} (hc : c ≠ quote) (s : List Char) :
    doubled (c :: s) = c :: doubled s := by
  rw [doubled, List.flatMap_cons, if_neg hc, ← doubled, List.singleton_append]

theorem undouble_doubled (s : List Char) : undouble (doubled s) = s := by
  induction s with
  | nil => rfl
  | cons c s ih =>
    by_cases hc : c = quote
    · subst hc
      rw [doubled_cons_quote, undouble, if_pos ⟨rfl, rfl⟩, ih]
    · rw [doubled_cons hc]
      cases hs : doubled s with
      | nil =>
        rw [hs] at ih
        rw [← ih]
        rfl
      | cons c' rest => rw [undouble, if_neg (by simp [hc]), ← hs, ih]

section
variable {s rest : List Char}

/-- The repetition stops at the closing quote and not before. -/
theorem match?_doubled (hrest : rest.head? ≠ some quote) :
    (Regex.star (.alt (.one (· != quote)) (.seq (TokenGroup.exactly quote)
      (TokenGroup.exactly quote)))).match? (doubled s ++ quote :: rest) = some (quote :: rest) := by
  induction s with
  | nil =>
    refine match?_star_stop ?_
    cases rest with
    | nil => rfl
    | cons c rest =>
      have hc : (c == quote) = false := by simpa using hrest
      simp [doubled, ways, TokenGroup.exactly, hc]
  | cons c s ih =>
    by_cases hc : c = quote
    · subst hc
      rw [doubled_cons_quote]
      have hboth : (Regex.seq (TokenGroup.exactly quote) (TokenGroup.exactly quote)).match?
          (quote :: quote :: (doubled s ++ quote :: rest)) = some (doubled s ++ quote :: rest) :=
        match?_seq (match?_one (beq_self_eq_true quote)) (match?_one (beq_self_eq_true quote))
      refine match?_star_step ((match?_alt_right (ways_one_of_not ?_)).trans hboth) ?_ ih
      · decide
      · simp only [List.length_cons, List.length_append]
        omega
    · rw [doubled_cons hc]
      exact match?_star_step (match?_alt_left (match?_one (bne_iff_ne.mpr hc)))
        (Nat.lt_succ_self _) ih

/-- No other group starts with a quote. -/
theorem masterMatch_quoted (hrest : rest.head? ≠ some quote) :
    masterMatch U (quote :: (doubled s ++ quote :: rest)) = some (.string, rest) := by
  have hspace : U.isSpace quote = false := by
    rw [U.isSpace_ascii _ (by decide)]
    decide
  have hdecimal : U.isDecimal quote = false := by
    rw [U.isDecimal_ascii _ (by decide)]
    decide
  have hstring : (TokenGroup.string.regex U).match? (quote :: (doubled s ++ quote :: rest)) =
      some rest :=
    match?_seq (match?_one (by simp)) (match?_seq (match?_doubled hrest) (match?_one (by simp)))
  have hdigits : ∀ cs, (TokenGroup.digits U).ways (quote :: cs) = [] := fun cs =>
    ways_seq_of_nil (ways_one_of_not hdecimal)
  have hnumber : (TokenGroup.number.regex U).match? (quote :: (doubled s ++ quote :: rest)) = none := by
    rw [TokenGroup.regex, match?_alt_right (ways_seq_of_nil (hdigits _)), match?, hdigits]
    rfl
  have hwhitespace : (TokenGroup.whitespace.regex U).match? (quote :: (doubled s ++ quote :: rest)) =
      none := by
    rw [TokenGroup.regex, match?, plus, ways_seq_of_nil (ways_one_of_not hspace)]
    rfl
  have hcomment : (TokenGroup.comment.regex U).match? (quote :: (doubled s ++ quote :: rest)) =
      none := by
    have hminus : (TokenGroup.exactly '-').ways (quote :: (doubled s ++ quote :: rest)) = [] :=
      ways_one_of_not (by decide)
    rw [TokenGroup.regex, match?, ways_seq_of_nil hminus]
    rfl
  simp [masterMatch, tokenSpec, hwhitespace, hcomment, hnumber, hstring]

end

/-- A quoted text is read back as one token, and what comes after it is read as if it stood
    alone, with its positions moved. -/
theorem tokenize_quoted (s rest : String) (hrest : rest.toList.head? ≠ some quote) :
    (∃ tokens, tokenize C U upper rest = .ok tokens ∧
      tokenize C U upper (quoted s ++ rest) =
        .ok (⟨⟨.string, s⟩, 0⟩ :: tokens.map (Token.shift (quoted s).length))) ∨
    ∃ c pos, tokenize C U upper rest = .error (unexpected C c pos) ∧
      tokenize C U upper (quoted s ++ rest) =
        .error (unexpected C c (pos + (quoted s).length)) := by
  have hinput : (quoted s ++ rest).toList =
      quote :: (doubled s.toList ++ quote :: rest.toList) := by
    simp [quoted]
  have hlength : (quoted s).length = (doubled s.toList).length + 2 := by
    simp [quoted]
    omega
  have htext : (quote :: (doubled s.toList ++ quote :: rest.toList)).take
      ((quote :: (doubled s.toList ++ quote :: rest.toList)).length - rest.toList.length) =
        quote :: doubled s.toList ++ [quote] := by
    have hsplit : quote :: (doubled s.toList ++ quote :: rest.toList) =
        (quote :: doubled s.toList ++ [quote]) ++ rest.toList := by simp
    rw [hsplit, List.length_append, Nat.add_sub_cancel, List.take_left]
  have hfirst : tokenize C U upper (quoted s ++ rest) = (do
      let tokens ← tokenizeFrom C U upper (doubled s.toList ++ quote :: rest.toList).length
        (0 + (quoted s).length) rest.toList
      return ⟨⟨.string, s⟩, 0⟩ :: tokens) := by
    rw [tokenize, hinput, List.length_cons, tokenizeFrom]
    simp only [masterMatch_quoted hrest, htext]
    simp [tokenOf, undouble_doubled, hlength]
  rw [hfirst]
  have hfuel : rest.toList.length ≤ (doubled s.toList ++ quote :: rest.toList).length := by
    simp only [List.length_append, List.length_cons]
    omega
  rcases tokenizeFrom_shift (quoted s).length 0 (le_refl rest.toList.length) hfuel with
    ⟨tokens, h, h'⟩ | ⟨c, pos, h, h'⟩
  · exact .inl ⟨tokens, h, by rw [h']; rfl⟩
  · exact .inr ⟨c, pos, h, by rw [h']; rfl⟩

theorem tokenize_quoted_apostrophe :
    (∃ tokens, tokenize .integral .ascii String.toUpper " , 1 -- '" = .ok tokens ∧
      tokenize .integral .ascii String.toUpper (quoted "it's; --" ++ " , 1 -- '") =
        .ok (⟨⟨.string, "it's; --"⟩, 0⟩ :: tokens.map (Token.shift (quoted "it's; --").length))) ∨
    ∃ c pos, tokenize .integral .ascii String.toUpper " , 1 -- '" =
        .error (unexpected .integral c pos) ∧
      tokenize .integral .ascii String.toUpper (quoted "it's; --" ++ " , 1 -- '") =
        .error (unexpected .integral c (pos + (quoted "it's; --").length)) :=
  tokenize_quoted "it's; --" " , 1 -- '" (by decide)

end Minirel
