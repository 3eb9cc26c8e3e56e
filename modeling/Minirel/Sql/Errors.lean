-- SUMMARY: Which exceptions a text can raise.
import Minirel.Sql.Lexing
import Minirel.Sql.Completeness

/-!
# Errors

A text that is no statement is refused with a `LexError` or a `ParseError`. The texts of the
NUMBER tokens are what `int` and `float` read, with one exception: the number of a LIMIT goes
to `int` also where it has a decimal point.
-/

namespace Minirel

open Word

/-! ## Numerals -/

/-- A text of `\d+`. -/
def Unicode.Digits (U : Unicode) (cs : List Char) : Prop := cs ≠ [] ∧ ∀ c ∈ cs, U.isDecimal c = true

/-- `int` and `float` read decimal digits, however many; `int` reads no decimal point. -/
structure Conversions.ReadsNumbers (C : Conversions) (U : Unicode) : Prop where
  int : ∀ cs, U.Digits cs → ∃ n, C.intOfStr (.ofList cs) = .ok n
  float : ∀ cs cs', U.Digits cs → U.Digits cs' →
    ∃ x, C.floatOfStr (.ofList (cs ++ '.' :: cs')) = .ok x
  int_point : ∀ cs cs', U.Digits cs → U.Digits cs' →
    ∃ msg, C.intOfStr (.ofList (cs ++ '.' :: cs')) = .error (.valueError msg)

section
variable {C : Conversions} {U : Unicode} {upper : String → String}

theorem Unicode.Digits.no_point {cs : List Char} (h : U.Digits cs) : '.' ∉ cs := fun hmem => by
  have hdecimal := h.2 _ hmem
  rw [U.isDecimal_ascii _ (by decide)] at hdecimal
  exact absurd hdecimal (by decide)

/-- A NUMBER token is digits, or digits on both sides of a point. -/
theorem number_text {sql : String} {tokens : List Token}
    (h : tokenize C U upper sql = .ok tokens) {t : Token} (ht : t ∈ tokens)
    (hkind : t.kind = .number) :
    ∃ cs, U.Digits cs ∧ (t.value = .ofList cs ∨
      ∃ cs', U.Digits cs' ∧ t.value = .ofList (cs ++ '.' :: cs')) := by
  obtain ⟨group, p, text, htext, htoken⟩ := tokenizeFrom_tokens h ht (by rw [hkind]; decide)
  cases group with
  | whitespace | comment => cases htoken
  | string | op =>
    cases htoken
    cases hkind
  | ident =>
    simp only [tokenOf] at htoken
    split at htoken <;> cases htoken <;> cases hkind
  | number =>
    cases htoken
    rcases htext with hpoint | hdigits
    · obtain ⟨cs, hcs, more, hmore, rfl⟩ := Language.mem_mul.mp hpoint
      obtain ⟨point, ⟨c, hc, rfl⟩, cs', hcs', rfl⟩ := Language.mem_mul.mp hmore
      obtain rfl := beq_iff_eq.mp hc
      exact ⟨cs, Regex.of_mem_plus_one hcs, .inr ⟨cs', Regex.of_mem_plus_one hcs', rfl⟩⟩
    · exact ⟨text, Regex.of_mem_plus_one hdigits, .inl rfl⟩

theorem Conversions.ReadsNumbers.numberValue_ok (hC : C.ReadsNumbers U) {sql : String}
    {tokens : List Token} (h : tokenize C U upper sql = .ok tokens) {t : Token} (ht : t ∈ tokens)
    (hkind : t.kind = .number) : ∃ value, numberValue C t.value = .ok value := by
  obtain ⟨cs, hcs, hvalue | ⟨cs', hcs', hvalue⟩⟩ := number_text h ht hkind
  · obtain ⟨n, hn⟩ := hC.int cs hcs
    refine ⟨.int n, ?_⟩
    rw [hvalue, numberValue, String.toList_ofList, if_neg hcs.no_point, hn]
    rfl
  · obtain ⟨x, hx⟩ := hC.float cs cs' hcs hcs'
    refine ⟨.float x, ?_⟩
    rw [hvalue, numberValue, String.toList_ofList, if_pos (by simp), hx]
    rfl

/-- `int` reads a NUMBER token just if it has no point. -/
theorem Conversions.ReadsNumbers.int_cases (hC : C.ReadsNumbers U) {sql : String}
    {tokens : List Token} (h : tokenize C U upper sql = .ok tokens) {t : Token} (ht : t ∈ tokens)
    (hkind : t.kind = .number) :
    ('.' ∉ t.value.toList ∧ ∃ n, C.intOfStr t.value = .ok n) ∨
      '.' ∈ t.value.toList ∧ ∃ msg, C.intOfStr t.value = .error (.valueError msg) := by
  obtain ⟨cs, hcs, hvalue | ⟨cs', hcs', hvalue⟩⟩ := number_text h ht hkind
  · rw [hvalue, String.toList_ofList]
    exact .inl ⟨hcs.no_point, hC.int cs hcs⟩
  · rw [hvalue, String.toList_ofList]
    exact .inr ⟨by simp, hC.int_point cs cs' hcs hcs'⟩

end

/-! ## The errors -/

/-- The exceptions that `lexer.py` and `parser.py` define. -/
def PyError.Declared : PyError → Prop
  | .lexError _ | .parseError _ => True
  | _ => False

section
variable (C : Conversions) (U : Unicode) (upper : String → String)

/-- A SELECT up to its LIMIT, and behind the LIMIT a number with a decimal point. -/
def PointedLimit (sql : String) : Prop :=
  ∃ tokens stmt head text rest, tokenize C U upper sql = .ok tokens ∧
    tokens.map Token.toWord = head ++ keyword "LIMIT" :: number text :: rest ∧
    HeadWritten C upper stmt head ∧ '.' ∈ text.toList

end

section
variable {C : Conversions} {U : Unicode} {upper : String → String} {sql : String}

theorem parse_of_tokenize {tokens : List Token} (h : tokenize C U upper sql = .ok tokens) :
    parse C U upper sql = parseStatement C upper tokens := by
  rw [parse, h]
  rfl

/-- The number of a LIMIT is one of the tokens. -/
theorem number_mem {tokens : List Token} {head rest : List Word} {text : String}
    (h : tokens.map Token.toWord = head ++ keyword "LIMIT" :: number text :: rest) :
    ∃ t ∈ tokens, t.kind = .number ∧ t.value = text := by
  have hmem : number text ∈ tokens.map Token.toWord := by
    rw [h]
    simp
  obtain ⟨t, ht, hword⟩ := List.mem_map.mp hmem
  exact ⟨t, ht, congrArg Word.kind hword, congrArg Word.value hword⟩

theorem PointedLimit.value_error (hC : C.ReadsNumbers U) (h : PointedLimit C U upper sql) :
    ∃ msg, parse C U upper sql = .error (.valueError msg) := by
  obtain ⟨tokens, stmt, head, text, rest, htokens, hwords, hhead, hpoint⟩ := h
  obtain ⟨t, ht, hkind, rfl⟩ := number_mem hwords
  rcases hC.int_cases htokens ht hkind with ⟨hno, -⟩ | ⟨-, msg, hmsg⟩
  · exact absurd hpoint hno
  · exact ⟨msg, by rw [parse_of_tokenize htokens, hhead.limit_error hwords hmsg]⟩

theorem tokenize_eofEnds (hupper : upper "" = "") {tokens : List Token}
    (h : tokenize C U upper sql = .ok tokens) : EofEnds upper tokens := by
  obtain ⟨body, p, rfl, hbody⟩ := tokenizeFrom_ends h
  refine ⟨body, _, rfl, hbody, rfl, ?_⟩
  rw [hupper]
  rfl

/-- Parsing returns a statement or raises a `LexError` or a `ParseError`, unless the text is a
    SELECT whose LIMIT has a decimal point. `str.upper` leaves an empty text as it is. -/
theorem parse_declared_iff (hC : C.ReadsNumbers U) (hupper : upper "" = "") (sql : String) :
    ((∃ stmt, parse C U upper sql = .ok stmt) ∨ ∃ e, parse C U upper sql = .error e ∧ e.Declared) ↔
      ¬ PointedLimit C U upper sql := by
  constructor
  · rintro hdeclared hlimit
    obtain ⟨msg, hmsg⟩ := hlimit.value_error hC
    rcases hdeclared with ⟨stmt, hstmt⟩ | ⟨e, he, hdeclared⟩
    · rw [hmsg] at hstmt
      cases hstmt
    · rw [hmsg] at he
      cases he
      exact hdeclared
  · intro hlimit
    rcases @tokenize_cases C U upper sql with ⟨tokens, htokens⟩ | ⟨c, pos, herror⟩
    · have hends := tokenize_eofEnds hupper htokens
      have hlive : Live PyError.Declared C upper tokens.length tokens := by
        refine ⟨.inr ⟨hends, le_rfl⟩, fun t ht hkind e he => ?_⟩
        obtain ⟨value, hvalue⟩ := hC.numberValue_ok htokens ht hkind
        rw [hvalue] at he
        cases he
      have hint : ∀ stmt head text rest e,
          tokens.map Token.toWord = head ++ keyword "LIMIT" :: number text :: rest →
          HeadWritten C upper stmt head → C.intOfStr text = .error e → e.Declared := by
        intro stmt head text rest e hwords hhead he
        obtain ⟨t, ht, hkind, rfl⟩ := number_mem hwords
        rcases hC.int_cases htokens ht hkind with ⟨-, n, hn⟩ | ⟨hpoint, -⟩
        · rw [hn] at he
          cases he
        · exact absurd ⟨tokens, stmt, head, _, rest, htokens, hwords, hhead, hpoint⟩ hlimit
      rw [parse_of_tokenize htokens]
      rcases parseStatement_cases (fun _ => trivial) hends.endsOnce hlive hint with
        ⟨stmt, hstmt, -⟩ | herror
      · exact .inl ⟨stmt, hstmt⟩
      · exact .inr herror
    · refine .inr ⟨unexpected C c pos, ?_, trivial⟩
      rw [parse, herror]
      rfl

end

/-- Conversions that read decimal digits and the decimal point. -/
def positional : Conversions :=
  { Conversions.integral with
    intOfStr := fun s =>
      if s ≠ "" ∧ s.toList.all Char.isDigit then .ok (digitsValue s.toList)
      else .error (.valueError s!"invalid literal for int() with base 10: '{s}'")
    floatOfStr := fun s =>
      let cs := s.toList.takeWhile (· != '.')
      let cs' := (s.toList.dropWhile (· != '.')).drop 1
      if cs ≠ [] ∧ cs' ≠ [] ∧ (cs ++ cs').all Char.isDigit then
        .ok (.finite (digitsValue (cs ++ cs') / 10 ^ cs'.length))
      else .error (.valueError s!"could not convert string to float: '{s}'") }
where
  digitsValue (cs : List Char) : Nat := cs.foldl (fun n c => 10 * n + (c.toNat - '0'.toNat)) 0

theorem positional_readsNumbers : positional.ReadsNumbers .ascii where
  int cs hcs := by
    have hne : String.ofList cs ≠ "" := fun h => hcs.1 (String.ofList_injective h)
    have hall : cs.all Char.isDigit = true := List.all_eq_true.mpr hcs.2
    simp only [positional, String.toList_ofList, hall]
    rw [if_pos ⟨hne, trivial⟩]
    exact ⟨_, rfl⟩
  float cs cs' hcs hcs' := by
    have hpoint : ∀ c ∈ cs, (c != '.') = true := fun c hc =>
      bne_iff_ne.mpr fun h => hcs.no_point (h ▸ hc)
    have htake : (cs ++ '.' :: cs').takeWhile (· != '.') = cs := by
      rw [List.takeWhile_append_of_pos hpoint]
      simp
    have hdrop : (cs ++ '.' :: cs').dropWhile (· != '.') = '.' :: cs' := by
      rw [List.dropWhile_append_of_pos hpoint]
      simp
    have hall : (cs ++ cs').all Char.isDigit = true :=
      List.all_eq_true.mpr fun c hc => (List.mem_append.mp hc).elim (hcs.2 c) (hcs'.2 c)
    simp only [positional, String.toList_ofList, htake, hdrop, List.drop_one, List.tail_cons, hall]
    rw [if_pos ⟨hcs.1, hcs'.1, trivial⟩]
    exact ⟨_, rfl⟩
  int_point cs cs' hcs hcs' := by
    have hall : (cs ++ '.' :: cs').all Char.isDigit = false := by
      rw [List.all_append, List.all_cons, show Char.isDigit '.' = false from by decide,
        Bool.false_and, Bool.and_false]
    simp only [positional, String.toList_ofList, hall, Bool.false_eq_true, and_false, if_false]
    exact ⟨_, rfl⟩

theorem parse_declared_iff_decimal :
    ((∃ stmt, parse positional .ascii String.toUpper "SELECT 1.5 FROM t LIMIT 2" = .ok stmt) ∨
      ∃ e, parse positional .ascii String.toUpper "SELECT 1.5 FROM t LIMIT 2" = .error e ∧
        e.Declared) ↔
      ¬ PointedLimit positional .ascii String.toUpper "SELECT 1.5 FROM t LIMIT 2" :=
  parse_declared_iff positional_readsNumbers (by decide +kernel) _

theorem parse_declared_limit :
    ¬ ((∃ stmt, parse positional .ascii String.toUpper "SELECT * FROM t LIMIT 1.5" = .ok stmt) ∨
      ∃ e, parse positional .ascii String.toUpper "SELECT * FROM t LIMIT 1.5" = .error e ∧
        e.Declared) := by
  have hrun : parse positional .ascii String.toUpper "SELECT * FROM t LIMIT 1.5" =
      .error (.valueError "invalid literal for int() with base 10: '1.5'") := by decide +kernel
  rw [hrun]
  rintro (⟨stmt, hstmt⟩ | ⟨e, he, hdeclared⟩)
  · cases hstmt
  · cases he
    exact hdeclared

end Minirel
