-- SUMMARY: Parsing ends inside the input: every loop and every recursion takes tokens off.
import Minirel.Sql.Lexing
import Minirel.Sql.Totality

/-!
# Termination

The tokenizer ends on every text, and the parser on all tokens that end with their only
EOF. What is repeated takes off a token each time: a loop its separator, a recursion a
token before it comes back to itself, so that it goes no deeper than there are tokens.
-/

namespace Minirel

open Word

section
variable {C : Conversions} {upper : String → String}

/-! ## Progress -/

/-- Wherever the production returns, it has taken off a token. -/
def Progress {α : Type} (p : ParseM α) : Prop :=
  ∀ ts a rest, p ts = .ok a rest → rest.length < ts.length

/-- Words that are written are not none. -/
theorem Parsed.progress {α : Type} {p : ParseM α} {W : α → List Word → Prop}
    (h : ∀ ts, Parsed (fun _ => True) p W ts) (hW : ∀ a, ¬ W a []) : Progress p := by
  intro ts a rest hrun
  obtain ⟨pre, hts, -, ha⟩ := Yields.ok (h ts) hrun
  cases pre with
  | nil => exact absurd ha (hW a)
  | cons t pre =>
    rw [hts, List.length_append, List.length_cons]
    omega

theorem parsePrimary_progress (n : Nat) : Progress (parsePrimary C upper n) :=
  Parsed.progress (fun _ => parsePrimary_parsed (fun _ => trivial) n live_true)
    fun _ h => h.ne_nil rfl

section
variable (n m : Nat)

theorem primary_parsed_true : ∀ ts, Live (fun _ => True) C upper m ts →
    Parsed (fun _ => True) (parsePrimary C upper n) (Written C upper .primary) ts :=
  fun _ _ => parsePrimary_parsed (fun _ => trivial) n live_true

theorem parseComparison_progress : Progress (parseComparison (parsePrimary C upper n)) :=
  Parsed.progress (fun _ => parseComparison_parsed (primary_parsed_true n n) live_true)
    fun _ h => h.ne_nil rfl

theorem parseNot_progress : Progress (parseNot (parsePrimary C upper n) m) :=
  Parsed.progress (fun _ => parseNot_parsed (primary_parsed_true n m) live_true le_rfl)
    fun _ h => h.ne_nil rfl

theorem parseAnd_progress : Progress (parseAnd (parsePrimary C upper n) m) :=
  Parsed.progress (fun _ => parseAnd_parsed (primary_parsed_true n m) live_true)
    fun _ h => h.ne_nil rfl

theorem parseOr_progress : Progress (parseOr (parsePrimary C upper n) m) :=
  Parsed.progress (fun _ => parseOr_parsed (primary_parsed_true n m) live_true)
    fun _ h => h.ne_nil rfl

theorem expectName_progress : Progress (expectName C) :=
  Parsed.progress (fun ts => expectName_parsed (fun _ => trivial)
    (live_true : Live _ C id 0 ts)) fun _ h => absurd h (by simp [NameSpelled])

theorem parseColumnDef_progress : Progress (parseColumnDef C upper) :=
  Parsed.progress (fun ts => columnDef_parsed (fun _ => trivial)
    (live_true : Live _ C upper 0 ts)) fun _ ⟨_, _, h⟩ => absurd h (by simp)

theorem parseValueRow_progress : Progress (parseValueRow C upper n) :=
  Parsed.progress (fun _ => valueRow_parsed (fun _ => trivial) live_true)
    fun _ ⟨_, _, h⟩ => absurd h (by simp)

theorem parseSelectItem_progress : Progress (parseSelectItem C upper n) :=
  Parsed.progress (fun _ => selectItem_parsed (fun _ => trivial) live_true)
    fun _ ⟨_, he, h⟩ => he.ne_nil (List.append_eq_nil_iff.mp h.symm).1

theorem parseOrderItem_progress : Progress (parseOrderItem C upper n) :=
  Parsed.progress (fun _ => orderItem_parsed (fun _ => trivial) live_true)
    fun _ ⟨_, _, he, h, _⟩ => he.ne_nil (List.append_eq_nil_iff.mp h.symm).1

theorem parseAssignment_progress : Progress (parseAssignment C upper n) :=
  Parsed.progress (fun _ => assignment_parsed (fun _ => trivial) live_true)
    fun _ ⟨_, _, h⟩ => absurd h (by simp)

end

theorem ArgumentWritten.ne_nil {arg : Expr} {ws : List Word}
    (h : ArgumentWritten C upper arg ws) : ws ≠ [] := by
  rcases h with ⟨harg, -⟩ | ⟨-, inner, -, -, rfl⟩
  · exact harg.ne_nil
  · simp

theorem parseArgument_progress (n m : Nat) :
    Progress (parseArgument (parseOr (parsePrimary C upper n) m)) := by
  have h : ∀ ts, Parsed (fun _ => True) (parseArgument (parseOr (parsePrimary C upper n) m))
      (ArgumentWritten C upper) ts := fun ts =>
    parseArgument_parsed (n := m) (fun ts hlive => parseOr_parsed
      (fun ts _ => parsePrimary_parsed (fun _ => trivial) n live_true) hlive) live_true
  exact Parsed.progress h fun _ h => h.ne_nil rfl

/-! ## Depth -/

/-- The production gives back no tokens. -/
def Keeps {α : Type} (p : ParseM α) : Prop :=
  ∀ ts a rest, p ts = .ok a rest → rest.length ≤ ts.length

theorem Progress.keeps {α : Type} {p : ParseM α} (h : Progress p) : Keeps p :=
  fun ts a rest hrun => (h ts a rest hrun).le

theorem keeps_peek : Keeps peek := by
  intro ts a rest hrun
  cases ts with
  | nil => cases hrun
  | cons t ts =>
    cases hrun
    exact le_rfl

theorem keeps_check {kind : TokenKind} {value : Option String} : Keeps (check kind value) := by
  intro ts a rest hrun
  cases ts with
  | nil => cases hrun
  | cons t ts =>
    cases hrun
    exact le_rfl

theorem keeps_advance : Keeps advance := by
  intro ts a rest hrun
  cases ts with
  | nil => cases hrun
  | cons t ts =>
    cases hrun
    exact Nat.le_succ _

/-- Two computations that do the same on these tokens, and on what the first part leaves. -/
theorem bind_agree {α β : Type} {p q : ParseM α} {f g : α → ParseM β} {ts : List Token}
    (hq : Keeps q) (h : p ts = q ts)
    (hf : ∀ a rest, rest.length ≤ ts.length → f a rest = g a rest) :
    (p >>= f) ts = (q >>= g) ts := by
  simp only [bind, EStateM.bind, h]
  cases hrun : q ts with
  | ok a rest => exact hf a rest (hq ts a rest hrun)
  | error e rest => rfl

/-- Two computations that look for the same token first. -/
theorem match_agree {α : Type} {kind : TokenKind} {value : Option String}
    {f g : Option Token → ParseM α} {ts : List Token}
    (hsome : ∀ t rest, ts = t :: rest → f (some t) rest = g (some t) rest)
    (hnone : f none ts = g none ts) : (matchToken kind value >>= f) ts = (matchToken kind value >>= g) ts := by
  cases ts with
  | nil => rfl
  | cons t rest =>
    simp only [bind, EStateM.bind, matchToken_cons]
    cases t.is kind value with
    | true => exact hsome t rest rfl
    | false => exact hnone

theorem advance_agree {α : Type} {f g : Token → ParseM α} {ts : List Token}
    (h : ∀ t rest, ts = t :: rest → f t rest = g t rest) : (advance >>= f) ts = (advance >>= g) ts := by
  cases ts with
  | nil => rfl
  | cons t rest => exact h t rest rfl

theorem ite_agree {α : Type} {c : Prop} [Decidable c] {p p' q q' : ParseM α} {ts : List Token}
    (hp : p ts = p' ts) (hq : q ts = q' ts) :
    (if c then p else q) ts = (if c then p' else q') ts := by
  split
  · exact hp
  · exact hq

section
variable {n n' k m m' : Nat} {ts : List Token}
  (hself : ∀ ts : List Token, ts.length < k → parsePrimary C upper n ts = parsePrimary C upper n' ts)

include hself in
theorem parseComparison_agree (hts : ts.length < k) :
    parseComparison (parsePrimary C upper n) ts = parseComparison (parsePrimary C upper n') ts := by
  have hkeeps : Keeps (parsePrimary C upper n') := (parsePrimary_progress n').keeps
  refine bind_agree hkeeps (hself ts hts) fun left rest hrest => ?_
  refine bind_agree keeps_peek rfl fun tok rest' hrest' => ?_
  cases tok.kind with
  | op =>
    cases comparisonOp? tok.value with
    | some cmp =>
      refine bind_agree keeps_advance rfl fun _ rest'' hrest'' => ?_
      exact bind_agree hkeeps (hself rest'' (by omega)) fun _ _ _ => rfl
    | none => rfl
  | keyword | ident | number | string | eof => rfl

include hself in
theorem parseNot_agree (hts : ts.length < k) (hm : ts.length < m) (hm' : ts.length < m') :
    parseNot (parsePrimary C upper n) m ts = parseNot (parsePrimary C upper n') m' ts := by
  induction m generalizing m' ts with
  | zero => omega
  | succ m ih =>
    obtain ⟨m', rfl⟩ : ∃ i, m' = i + 1 := ⟨m' - 1, by omega⟩
    refine match_agree (fun t rest hrest => ?_) (parseComparison_agree hself hts)
    subst hrest
    rw [List.length_cons] at hts hm hm'
    exact bind_agree (parseNot_progress n' m').keeps (ih (by omega) (by omega) (by omega))
      fun _ _ _ => rfl

include hself in
theorem andLoop_agree {l l' : Nat} {left : Expr} (hts : ts.length < k) (hm : ts.length < m)
    (hm' : ts.length < m') (hl : ts.length < l) (hl' : ts.length < l') :
    andLoop (parsePrimary C upper n) l m left ts = andLoop (parsePrimary C upper n') l' m' left ts := by
  induction m generalizing m' ts left with
  | zero => omega
  | succ m ih =>
    obtain ⟨m', rfl⟩ : ∃ i, m' = i + 1 := ⟨m' - 1, by omega⟩
    refine match_agree (fun t rest hrest => ?_) rfl
    subst hrest
    rw [List.length_cons] at hts hm hm' hl hl'
    refine bind_agree (parseNot_progress n' l').keeps
      (parseNot_agree hself (by omega) (by omega) (by omega)) fun right rest' hrest' => ?_
    exact ih (by omega) (by omega) (by omega) (by omega) (by omega)

include hself in
theorem parseAnd_agree (hts : ts.length < k) (hm : ts.length < m) (hm' : ts.length < m') :
    parseAnd (parsePrimary C upper n) m ts = parseAnd (parsePrimary C upper n') m' ts :=
  bind_agree (parseNot_progress n' m').keeps (parseNot_agree hself hts hm hm')
    fun _ _ _ => andLoop_agree hself (by omega) (by omega) (by omega) (by omega) (by omega)

include hself in
theorem orLoop_agree {l l' : Nat} {left : Expr} (hts : ts.length < k) (hm : ts.length < m)
    (hm' : ts.length < m') (hl : ts.length < l) (hl' : ts.length < l') :
    orLoop (parsePrimary C upper n) l m left ts = orLoop (parsePrimary C upper n') l' m' left ts := by
  induction m generalizing m' ts left with
  | zero => omega
  | succ m ih =>
    obtain ⟨m', rfl⟩ : ∃ i, m' = i + 1 := ⟨m' - 1, by omega⟩
    refine match_agree (fun t rest hrest => ?_) rfl
    subst hrest
    rw [List.length_cons] at hts hm hm' hl hl'
    refine bind_agree (parseAnd_progress n' l').keeps
      (parseAnd_agree hself (by omega) (by omega) (by omega)) fun right rest' hrest' => ?_
    exact ih (by omega) (by omega) (by omega) (by omega) (by omega)

include hself in
theorem parseOr_agree (hts : ts.length < k) (hm : ts.length < m) (hm' : ts.length < m') :
    parseOr (parsePrimary C upper n) m ts = parseOr (parsePrimary C upper n') m' ts :=
  bind_agree (parseAnd_progress n' m').keeps (parseAnd_agree hself hts hm hm')
    fun _ _ _ => orLoop_agree hself (by omega) (by omega) (by omega) (by omega) (by omega)

include hself in
theorem parseArgument_agree (hts : ts.length < k) (hm : ts.length < m) (hm' : ts.length < m') :
    parseArgument (parseOr (parsePrimary C upper n) m) ts =
      parseArgument (parseOr (parsePrimary C upper n') m') ts := by
  refine bind_agree keeps_check rfl fun starred rest hrest => ?_
  cases starred with
  | true => simp only [if_true]
  | false =>
    simp only [Bool.false_eq_true, if_false]
    exact bind_agree (parseOr_progress n' m').keeps
      (parseOr_agree hself (by omega) (by omega) (by omega)) fun _ _ _ => rfl

include hself in
theorem parseNamed_agree {name : String} (hts : ts.length < k) (hm : ts.length < m)
    (hm' : ts.length < m') :
    parseNamed C upper (parseOr (parsePrimary C upper n) m) name ts =
      parseNamed C upper (parseOr (parsePrimary C upper n') m') name ts := by
  refine bind_agree keeps_check rfl fun called rest hrest => ite_agree ?_ rfl
  refine bind_agree keeps_advance rfl fun _ rest' hrest' => ?_
  exact bind_agree (parseArgument_progress n' m').keeps
    (parseArgument_agree hself (by omega) (by omega) (by omega)) fun _ _ _ => rfl

end

/-- The recursion goes no deeper than there are tokens: more fuel changes nothing. -/
theorem parsePrimary_agree {n n' : Nat} {ts : List Token} (hn : ts.length < n)
    (hn' : ts.length < n') : parsePrimary C upper n ts = parsePrimary C upper n' ts := by
  induction n generalizing n' ts with
  | zero => omega
  | succ n ih =>
    obtain ⟨n', rfl⟩ : ∃ i, n' = i + 1 := ⟨n' - 1, by omega⟩
    refine bind_agree keeps_peek rfl fun tok ts' hts' => ?_
    -- every call of an expression stands behind a token that is taken off
    have hself : ∀ rest : List Token, rest.length < ts'.length →
        parsePrimary C upper n rest = parsePrimary C upper n' rest :=
      fun rest hrest => ih (by omega) (by omega)
    have hor : ∀ t rest, ts' = t :: rest →
        parseOr (parsePrimary C upper n) n rest = parseOr (parsePrimary C upper n') n' rest := by
      rintro t rest rfl
      rw [List.length_cons] at hts'
      exact parseOr_agree hself (Nat.lt_succ_self _) (by omega) (by omega)
    refine ite_agree ?_ (ite_agree rfl (ite_agree rfl (ite_agree rfl (ite_agree rfl (ite_agree rfl
      (ite_agree ?_ (ite_agree rfl (ite_agree ?_ rfl))))))))
    · refine advance_agree fun t rest hrest => ?_
      subst hrest
      exact bind_agree (parsePrimary_progress n').keeps (hself rest (Nat.lt_succ_self _))
        fun _ _ _ => rfl
    · refine advance_agree fun t rest hrest => ?_
      exact bind_agree (parseOr_progress n' n').keeps (hor t rest hrest) fun _ _ _ => rfl
    · refine advance_agree fun t rest hrest => ?_
      subst hrest
      rw [List.length_cons] at hts'
      exact parseNamed_agree hself (Nat.lt_succ_self _) (by omega) (by omega)

/-! ## Loops -/

/-- One turn of a loop: it raises, it ends where it is, or it takes a separator off, runs
    `item` on what is left and goes on where that has ended. -/
def Turns {α β : Type} (loop next : β → ParseM β) (item : ParseM α) (add : β → α → β) : Prop :=
  ∀ acc ts, (∃ e rest, loop acc ts = .error e rest) ∨ loop acc ts = .ok acc ts ∨
    ∃ t rest a rest', ts = t :: rest ∧ item rest = .ok a rest' ∧ loop acc ts = next (add acc a) rest'

/-- A loop that looks for its separator first. -/
theorem turns_of {α β : Type} {loop next : β → ParseM β} {item : ParseM α} {add : β → α → β}
    {kind : TokenKind} {value : String}
    (h : ∀ acc, loop acc = (matchToken kind (some value) >>= fun found =>
      match found with
      | some _ => item >>= fun a => next (add acc a)
      | none => pure acc)) : Turns loop next item add := by
  intro acc ts
  rw [h]
  cases ts with
  | nil => exact .inl ⟨_, _, rfl⟩
  | cons t rest =>
    simp only [bind, EStateM.bind, matchToken_cons]
    cases t.is kind (some value) with
    | false => exact .inr (.inl rfl)
    | true =>
      simp only [if_true, EStateM.bind]
      cases hitem : item rest with
      | error e rest' => exact .inl ⟨e, rest', rfl⟩
      | ok a rest' => exact .inr (.inr ⟨t, rest, a, rest', rfl, hitem, rfl⟩)

theorem commaLoop_turns {α : Type} (item : ParseM α) (m : Nat) :
    Turns (commaLoop item (m + 1)) (commaLoop item m) item fun items a => items ++ [a] :=
  turns_of fun _ => rfl

theorem andLoop_turns (primary : ParseM Expr) (n m : Nat) :
    Turns (andLoop primary n (m + 1)) (andLoop primary n m) (parseNot primary n)
      (.binaryOp .and) :=
  turns_of fun _ => rfl

theorem orLoop_turns (primary : ParseM Expr) (n m : Nat) :
    Turns (orLoop primary n (m + 1)) (orLoop primary n m) (parseAnd primary n)
      (.binaryOp .or) :=
  turns_of fun _ => rfl

end

/-! ## The whole text -/

/-- `int(s)` and `float(s)` raise nothing but a `ValueError`. -/
def Conversions.Checked (C : Conversions) : Prop :=
  ∀ text e, C.intOfStr text = .error e ∨ C.floatOfStr text = .error e → ∃ msg, e = .valueError msg

theorem numberValue_eq_error {C : Conversions} {text : String} {e : PyError}
    (h : numberValue C text = .error e) : C.intOfStr text = .error e ∨ C.floatOfStr text = .error e := by
  unfold numberValue at h
  split at h
  · cases hx : C.floatOfStr text with
    | ok x => simp [hx] at h
    | error e' =>
      rw [hx] at h
      cases h
      exact .inr rfl
  · cases hx : C.intOfStr text with
    | ok x => simp [hx] at h
    | error e' =>
      rw [hx] at h
      cases h
      exact .inl rfl

/-- The parser runs neither for ever nor past the EOF. -/
theorem parseStatement_ends {C : Conversions} {upper : String → String} (hC : C.Checked)
    {tokens : List Token} (hends : EofEnds upper tokens) :
    parseStatement C upper tokens ≠ .error .diverges ∧
      parseStatement C upper tokens ≠ .error .indexError := by
  have hvalue : ∀ text e, C.intOfStr text = .error e ∨ C.floatOfStr text = .error e →
      e ≠ .indexError ∧ e ≠ .diverges := by
    intro text e he
    obtain ⟨msg, rfl⟩ := hC text e he
    exact ⟨nofun, nofun⟩
  have hlive : Live (fun e => e ≠ .indexError ∧ e ≠ .diverges) C upper tokens.length tokens :=
    ⟨.inr ⟨hends, le_rfl⟩, fun _ _ _ e he => hvalue _ e (numberValue_eq_error he)⟩
  rcases parseStatement_cases (fun _ => ⟨nofun, nofun⟩) hends.endsOnce hlive
    (fun _ _ _ _ e _ _ he => hvalue _ e (.inl he)) with ⟨stmt, hstmt, -⟩ | ⟨e, he, hne, hne'⟩
  · rw [hstmt]
    exact ⟨nofun, nofun⟩
  · rw [he]
    refine ⟨fun h => ?_, fun h => ?_⟩
    · cases h
      exact hne' rfl
    · cases h
      exact hne rfl

/-- Parsing always ends inside the input. The tokenizer ends; the parser ends without
    reading past the EOF; the productions that loops and recursions repeat take off a token
    each time they return, and so does every turn of a loop; and a recursion goes no deeper
    than there are tokens. -/
theorem parsing_ends (C : Conversions) (U : Unicode) (upper : String → String) (hC : C.Checked) :
    (∀ sql, tokenize C U upper sql ≠ .error .diverges) ∧
    (∀ tokens, EofEnds upper tokens → parseStatement C upper tokens ≠ .error .diverges ∧
      parseStatement C upper tokens ≠ .error .indexError) ∧
    (∀ n m, Progress (parsePrimary C upper n) ∧ Progress (parseComparison (parsePrimary C upper n)) ∧
      Progress (parseNot (parsePrimary C upper n) m) ∧ Progress (parseAnd (parsePrimary C upper n) m) ∧
      Progress (parseOr (parsePrimary C upper n) m) ∧ Progress (expectName C) ∧
      Progress (parseColumnDef C upper) ∧ Progress (parseValueRow C upper n) ∧
      Progress (parseSelectItem C upper n) ∧ Progress (parseOrderItem C upper n) ∧
      Progress (parseAssignment C upper n)) ∧
    (∀ (α : Type) (item : ParseM α) m, Turns (commaLoop item (m + 1)) (commaLoop item m) item
      fun items a => items ++ [a]) ∧
    (∀ primary n m, Turns (andLoop primary n (m + 1)) (andLoop primary n m) (parseNot primary n)
        (.binaryOp .and) ∧
      Turns (orLoop primary n (m + 1)) (orLoop primary n m) (parseAnd primary n) (.binaryOp .or)) ∧
    (∀ n n' m m' (ts : List Token), ts.length < n → ts.length < n' → ts.length < m →
      ts.length < m' → parsePrimary C upper n ts = parsePrimary C upper n' ts ∧
        parseNot (parsePrimary C upper n) m ts = parseNot (parsePrimary C upper n') m' ts) := by
  refine ⟨fun sql h => ?_, fun tokens => parseStatement_ends hC, fun n m => ?_,
    fun _ => commaLoop_turns, fun primary n m => ⟨andLoop_turns primary n m, orLoop_turns primary n m⟩,
    fun n n' m m' ts hn hn' hm hm' => ⟨parsePrimary_agree hn hn', ?_⟩⟩
  · rcases tokenize_cases sql with ⟨tokens, htokens⟩ | ⟨c, pos, herror⟩
    · rw [htokens] at h
      cases h
    · rw [herror] at h
      cases h
  · exact ⟨parsePrimary_progress n, parseComparison_progress n, parseNot_progress n m,
      parseAnd_progress n m, parseOr_progress n m, expectName_progress,
      parseColumnDef_progress, parseValueRow_progress n, parseSelectItem_progress n,
      parseOrderItem_progress n, parseAssignment_progress n⟩
  · have hself : ∀ ts' : List Token, ts'.length < ts.length + 1 →
        parsePrimary C upper n ts' = parsePrimary C upper n' ts' :=
      fun ts' hts' => parsePrimary_agree (by omega) (by omega)
    exact parseNot_agree hself (Nat.lt_succ_self _) hm hm'

theorem integral_checked : Conversions.integral.Checked := by
  intro text e he
  rcases he with he | he
  · simp only [Conversions.integral] at he
    split at he
    · cases he
    · cases he
      exact ⟨_, rfl⟩
  · simp only [Conversions.integral] at he
    split at he
    · cases he
    · cases he
      exact ⟨_, rfl⟩

/-- `CREATE TABLE t (a`. -/
def brokenOff : List Token :=
  [keyword "CREATE", keyword "TABLE", ident "t", op "(", ident "a"].map fun w => ⟨w, 0⟩

theorem parsing_ends_column :
    parseStatement .integral id (brokenOff ++ [⟨⟨.eof, ""⟩, 0⟩]) ≠ .error .diverges ∧
      parseStatement .integral id (brokenOff ++ [⟨⟨.eof, ""⟩, 0⟩]) ≠ .error .indexError :=
  (parsing_ends .integral .ascii id integral_checked).2.1 _
    ⟨brokenOff, ⟨⟨.eof, ""⟩, 0⟩, rfl, by decide, rfl, rfl⟩

/-- What is parsed is a text of the grammar. -/
theorem parse_written {sql : String} {stmt : AnyStatement} (h : parse C U upper sql = .ok stmt) :
    ∃ tokens, tokenize C U upper sql = .ok tokens ∧
      TextWritten C upper stmt (tokens.map Token.toWord) := by
  obtain ⟨tokens, htokens, hparse⟩ := bind_eq_ok.mp h
  obtain ⟨body, p, rfl, hbody⟩ := tokenizeFrom_ends htokens
  exact ⟨_, htokens, parseStatement_written ⟨body, _, rfl, hbody⟩ hparse⟩

end Minirel
