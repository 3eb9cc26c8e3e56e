-- SUMMARY: The parser accepts what the grammar of accepted texts writes down.
import Minirel.Sql.Totality

/-!
# Completeness of the parser

By induction on how an expression is written, one step for each level of precedence. A level
that loops has read its operand before it looks for the operator, so what is shown of it is
how far it has got: the loop that is still to come, with fuel for the words that are left.
-/

namespace Minirel

open Word

/-! ## Single tokens -/

section
variable {C : Conversions} {upper : String → String} {α : Type} {kind : TokenKind}
  {value : Option String} {w : Word} {ws : List Word} {F : List Word → Prop} {q : ParseM α}

theorem expect_parses {f : Token → ParseM α} (h : w.is kind value = true)
    (hf : ∀ t, t.toWord = w → Parses Token.toWord (f t) ws q F) :
    Parses Token.toWord (expect C kind value >>= f) (w :: ws) q F := by
  refine Parses.of_token (fun t rest ht => ?_) hf
  subst ht
  exact run_bind_ok (expect_hit h)

theorem matchToken_hit {f : Option Token → ParseM α} (h : w.is kind value = true)
    (hf : ∀ t, t.toWord = w → Parses Token.toWord (f (some t)) ws q F) :
    Parses Token.toWord (matchToken kind value >>= f) (w :: ws) q F := by
  refine Parses.of_token (fun t rest ht => ?_) hf
  subst ht
  exact run_bind_ok ((matchToken_cons t rest).trans (if_pos h))

/-- The next word is another one. -/
abbrev Misses (kind : TokenKind) (value : Option String) (ws : List Word) : Prop :=
  Starts (fun w => w.is kind value = false) ws

theorem matchToken_miss {f : Option Token → ParseM α}
    (hF : ∀ rest, F rest → Misses kind value (ws ++ rest))
    (hf : Parses Token.toWord (f none) ws q F) :
    Parses Token.toWord (matchToken kind value >>= f) ws q F := by
  refine Parses.look (fun ts hts => ?_) hf hF
  cases ts with
  | nil => exact hts.elim
  | cons t ts =>
    have hmiss : t.is kind value = false := hts
    exact run_bind_ok ((matchToken_cons t ts).trans (if_neg (Bool.not_eq_true _ ▸ hmiss)))

theorem check_parses {f : Bool → ParseM α} {b : Bool}
    (hF : ∀ rest, F rest → Starts (fun w => w.is kind value = b) (ws ++ rest))
    (hf : Parses Token.toWord (f b) ws q F) :
    Parses Token.toWord (check kind value >>= f) ws q F := by
  refine Parses.look (fun ts hts => ?_) hf hF
  cases ts with
  | nil => exact hts.elim
  | cons t ts =>
    have hhit : t.is kind value = b := hts
    rw [run_bind_ok (check_cons kind value t ts), hhit]

theorem advance_parses {f : Token → ParseM α}
    (hf : ∀ t, t.toWord = w → Parses Token.toWord (f t) ws q F) :
    Parses Token.toWord (advance >>= f) (w :: ws) q F := by
  refine Parses.of_token (fun t rest _ => ?_) hf
  exact run_bind_ok (advance_cons t rest)

/-- The parser looks at the first token before it takes it off. -/
theorem peek_parses {f : Token → ParseM α}
    (hf : ∀ t, t.toWord = w → Parses Token.toWord (f t) (w :: ws) q F) :
    Parses Token.toWord (peek >>= f) (w :: ws) q F := by
  intro ts rest hts hrest
  obtain ⟨t, ts, rfl, ht, -⟩ := List.map_eq_cons_iff.mp hts
  rw [← hf t ht (t :: ts) rest hts hrest]
  exact run_bind_ok (peek_cons t (ts ++ rest))

theorem expectName_parses {name : String} :
    Parses Token.toWord (expectName C) [ident name] (pure name) F :=
  expect_parses (by simp [Word.is]) fun t ht => by
    rw [show t.value = name from congrArg Word.value ht]
    exact Parses.refl

theorem expectName_then {f : String → ParseM α} {name : String}
    (hf : Parses Token.toWord (f name) ws q F) :
    Parses Token.toWord (expectName C >>= f) (ident name :: ws) q F := by
  have hname : Parses Token.toWord (expectName C) [ident name] (pure name) fun _ => True :=
    expectName_parses
  exact hname.seq hf fun _ _ => trivial

/-! ## Lists with commas -/

/-- What follows does not go on the list. -/
abbrev NoComma (ws : List Word) : Prop := Misses .op (some ",") ws

variable {W : α → List Word → Prop} {item : ParseM α} {G : List Word → Prop}

theorem CommaSpelled.ne_nil {items : List α} (h : CommaSpelled W items ws)
    (hW : ∀ a ws, W a ws → ws ≠ []) : ws ≠ [] := by
  cases h with
  | single h => exact hW _ _ h
  | snoc h ha => simp

/-- The list has been read, and the loop is where it looks for the next comma. -/
theorem commaList_goesOn (hcomma : ∀ rest, G (op "," :: rest)) {items : List α}
    (h : CommaSpelled W items ws) {fuel : Nat} (hfuel : ws.length < fuel)
    (hitem : ∀ a ws', W a ws' → ws'.length ≤ ws.length →
      Parses Token.toWord item ws' (pure a) G) :
    ∃ m, fuel ≤ m + ws.length ∧
      Parses Token.toWord (commaList item fuel) ws (commaLoop item m items) G := by
  induction h with
  | single h =>
    rename_i a ws
    refine ⟨fuel, Nat.le_add_right .., ?_⟩
    rw [← List.append_nil ws]
    exact (hitem a ws h le_rfl).seq Parses.refl fun rest hrest => hrest
  | snoc h ha ih =>
    rename_i items a ws ws'
    simp only [List.length_append, List.length_cons] at hfuel hitem ⊢
    obtain ⟨m, hm, hread⟩ := ih (by omega) fun b ws'' hb hle => hitem b ws'' hb (by omega)
    obtain ⟨m, rfl⟩ : ∃ i, m = i + 1 := ⟨m - 1, by omega⟩
    refine ⟨m, by omega, hread.trans ?_ fun _ _ => hcomma _⟩
    refine matchToken_hit (by decide) fun _ _ => ?_
    rw [← List.append_nil ws']
    exact (hitem a ws' ha (by omega)).seq Parses.refl fun rest hrest => hrest

theorem commaList_parses (hcomma : ∀ rest, G (op "," :: rest)) {items : List α}
    (h : CommaSpelled W items ws) {fuel : Nat} (hfuel : ws.length < fuel)
    (hitem : ∀ a ws', W a ws' → ws'.length ≤ ws.length →
      Parses Token.toWord item ws' (pure a) G) :
    Parses Token.toWord (commaList item fuel) ws (pure items) fun rest => G rest ∧ NoComma rest := by
  obtain ⟨m, hm, hread⟩ := commaList_goesOn hcomma h hfuel hitem
  obtain ⟨m, rfl⟩ : ∃ i, m = i + 1 := ⟨m - 1, by omega⟩
  rw [← List.append_nil ws]
  exact hread.trans (matchToken_miss (fun rest hrest => hrest.2) Parses.refl) fun rest hrest => hrest.1

end

/-! ## Levels of precedence -/

/-- The word makes more of an identifier than a column. -/
def Word.opens (w : Word) : Bool := w.is .op "(" || w.is .op "."

def Word.compares (w : Word) : Bool := decide (w.kind = .op) && (comparisonOp? w.value).isSome

/-- The word goes on an expression of this level. -/
def Word.continues (w : Word) : Precedence → Bool
  | .primary => w.opens
  | .comparison | .not => w.opens || w.compares
  | .and => (w.opens || w.compares) || w.is .keyword "AND"
  | .or => ((w.opens || w.compares) || w.is .keyword "AND") || w.is .keyword "OR"

/-- What follows does not go on an expression of this level. -/
abbrev Follow (prec : Precedence) (ws : List Word) : Prop :=
  Starts (fun w => w.continues prec = false) ws

section
variable (C : Conversions) (upper : String → String) (p n : Nat)

/-- The production of a level, with fuel for primary expressions and for its loop. -/
def parseAt : Precedence → ParseM Expr
  | .primary => parsePrimary C upper p
  | .comparison => parseComparison (parsePrimary C upper p)
  | .not => parseNot (parsePrimary C upper p) n
  | .and => parseAnd (parsePrimary C upper p) n
  | .or => parseOr (parsePrimary C upper p) n

/-- What is left to do when the expression has been read. -/
def restAt (m : Nat) (e : Expr) : Precedence → ParseM Expr
  | .and => andLoop (parsePrimary C upper p) n m e
  | .or => orLoop (parsePrimary C upper p) n m e
  | _ => pure e

end

/-- The level of the operands of a loop. -/
def Precedence.below : Precedence → Precedence
  | .and => .not
  | .or => .and
  | prec => prec

section
variable (C : Conversions) (upper : String → String)

/-- With fuel for more words than there are, the production of the level reads these words as
    this expression. -/
def Reading (prec : Precedence) (ws : List Word) (e : Expr) : Prop :=
  ∀ p n, ws.length < p → ws.length < n → ∃ m, n ≤ m + ws.length ∧
    Parses Token.toWord (parseAt C upper p n prec) ws (restAt C upper p n m e prec)
      (Follow prec.below)

end

namespace Reading
variable {C : Conversions} {upper : String → String} {prec : Precedence} {ws : List Word} {e : Expr}

theorem of_done (hprec : prec.rank ≤ Precedence.rank .not)
    (h : ∀ p n, ws.length < p → ws.length < n →
      Parses Token.toWord (parseAt C upper p n prec) ws (pure e) (Follow prec)) :
    Reading C upper prec ws e := by
  intro p n hp hn
  cases prec with
  | primary => exact ⟨n, Nat.le_add_right .., h p n hp hn⟩
  | comparison => exact ⟨n, Nat.le_add_right .., h p n hp hn⟩
  | not => exact ⟨n, Nat.le_add_right .., h p n hp hn⟩
  | and => exact absurd hprec (by decide)
  | or => exact absurd hprec (by decide)

/-- A loop ends before a word that does not go on it. -/
theorem done (h : Reading C upper prec ws e) {p n : Nat} (hp : ws.length < p) (hn : ws.length < n) :
    Parses Token.toWord (parseAt C upper p n prec) ws (pure e) (Follow prec) := by
  obtain ⟨m, hm, hread⟩ := h p n hp hn
  obtain ⟨m, rfl⟩ : ∃ k, m = k + 1 := ⟨m - 1, by omega⟩
  cases prec with
  | primary => exact hread
  | comparison => exact hread
  | not => exact hread
  | and =>
    rw [← List.append_nil ws]
    refine hread.trans (matchToken_miss (fun rest hrest => ?_) Parses.refl) fun rest hrest => ?_
    · exact hrest.mono fun w hw => (Bool.or_eq_false_iff.mp hw).2
    · exact hrest.mono fun w hw => (Bool.or_eq_false_iff.mp hw).1
  | or =>
    rw [← List.append_nil ws]
    refine hread.trans (matchToken_miss (fun rest hrest => ?_) Parses.refl) fun rest hrest => ?_
    · exact hrest.mono fun w hw => (Bool.or_eq_false_iff.mp hw).2
    · exact hrest.mono fun w hw => (Bool.or_eq_false_iff.mp hw).1

/-! ### Climbing -/

theorem to_comparison (h : Reading C upper .primary ws e) : Reading C upper .comparison ws e := by
  refine of_done (by decide) fun p n hp hn => ?_
  rw [← List.append_nil ws]
  refine (h.done hp hn).seq (Parses.look (fun ts hts => ?_) Parses.refl fun _ hrest => hrest)
    fun rest hrest => hrest.mono fun w hw => (Bool.or_eq_false_iff.mp hw).1
  cases ts with
  | nil => exact hts.elim
  | cons t ts =>
    have hnone : t.kind = .op → comparisonOp? t.value = none := by
      have hcompares : t.compares = false := (Bool.or_eq_false_iff.mp hts).2
      intro hkind
      simpa [compares, hkind] using hcompares
    rw [run_bind_ok (peek_cons t ts)]
    cases hkind : t.kind with
    | op => rw [hnone hkind]
    | keyword | ident | number | string | eof => rfl

theorem to_not (h : Reading C upper .comparison ws e)
    (hnot : Misses .keyword (some "NOT") ws) : Reading C upper .not ws e := by
  refine of_done (by decide) fun p n hp hn => ?_
  obtain ⟨n, rfl⟩ : ∃ k, n = k + 1 := ⟨n - 1, by omega⟩
  exact matchToken_miss (fun rest _ => hnot.append) (h.done hp hn)

theorem to_and (h : Reading C upper .not ws e) : Reading C upper .and ws e :=
  fun _ n hp hn => ⟨n, Nat.le_add_right .., (h.done hp hn).bind⟩

theorem to_or (h : Reading C upper .and ws e) : Reading C upper .or ws e :=
  fun _ n hp hn => ⟨n, Nat.le_add_right .., (h.done hp hn).bind⟩

/-- An expression can stand where a looser one can. -/
theorem climb {own outer : Precedence} (h : Reading C upper own ws e) (hle : own.rank ≤ outer.rank)
    (hnot : own.rank ≤ Precedence.rank .comparison → Misses .keyword (some "NOT") ws) :
    Reading C upper outer ws e := by
  have hcomparison : own.rank ≤ Precedence.rank .comparison → Reading C upper .comparison ws e := by
    intro hle
    cases own with
    | primary => exact h.to_comparison
    | comparison => exact h
    | not | and | or => exact absurd hle (by decide)
  have hnot' : own.rank ≤ Precedence.rank .not → Reading C upper .not ws e := by
    intro hle
    cases own with
    | primary | comparison => exact (hcomparison (by decide)).to_not (hnot (by decide))
    | not => exact h
    | and | or => exact absurd hle (by decide)
  have hand : own.rank ≤ Precedence.rank .and → Reading C upper .and ws e := by
    intro hle
    cases own with
    | primary | comparison | not => exact (hnot' (by decide)).to_and
    | and => exact h
    | or => exact absurd hle (by decide)
  cases outer with
  | primary =>
    cases own with
    | primary => exact h
    | comparison | not | and | or => exact absurd hle (by decide)
  | comparison => exact hcomparison hle
  | not => exact hnot' hle
  | and => exact hand hle
  | or =>
    cases own with
    | primary | comparison | not | and => exact (hand (by decide)).to_or
    | or => exact h

theorem parens (h : Reading C upper .or ws e) :
    Reading C upper .primary (op "(" :: ws ++ [op ")"]) e := by
  refine of_done (by decide) fun p n hp _ => ?_
  obtain ⟨p, rfl⟩ : ∃ k, p = k + 1 := ⟨p - 1, by omega⟩
  have hlen : ws.length < p := by simp only [List.cons_append, List.length_cons, List.length_append] at hp; omega
  refine peek_parses fun t ht => ?_
  obtain ⟨w, pos⟩ := t
  subst ht
  refine advance_parses fun _ _ => ?_
  exact (h.done hlen hlen).seq (expect_parses rfl fun _ _ => Parses.refl) fun rest hrest => rfl

/-! ### Operators -/

variable {left right : Expr} {ws₁ ws₂ : List Word}

theorem or (h₁ : Reading C upper .or ws₁ left) (h₂ : Reading C upper .and ws₂ right) :
    Reading C upper .or (ws₁ ++ keyword "OR" :: ws₂) (.binaryOp .or left right) := by
  intro p n hp hn
  simp only [List.length_append, List.length_cons] at hp hn ⊢
  obtain ⟨m, hm, hread⟩ := h₁ p n (by omega) (by omega)
  obtain ⟨m, rfl⟩ : ∃ k, m = k + 1 := ⟨m - 1, by omega⟩
  refine ⟨m, by omega, hread.trans (matchToken_hit (by decide) fun _ _ => ?_) fun _ _ => rfl⟩
  rw [← List.append_nil ws₂]
  exact (h₂.done (by omega) (by omega)).seq Parses.refl fun rest hrest => hrest

theorem and (h₁ : Reading C upper .and ws₁ left) (h₂ : Reading C upper .not ws₂ right) :
    Reading C upper .and (ws₁ ++ keyword "AND" :: ws₂) (.binaryOp .and left right) := by
  intro p n hp hn
  simp only [List.length_append, List.length_cons] at hp hn ⊢
  obtain ⟨m, hm, hread⟩ := h₁ p n (by omega) (by omega)
  obtain ⟨m, rfl⟩ : ∃ k, m = k + 1 := ⟨m - 1, by omega⟩
  refine ⟨m, by omega, hread.trans (matchToken_hit (by decide) fun _ _ => ?_) fun _ _ => rfl⟩
  rw [← List.append_nil ws₂]
  exact (h₂.done (by omega) (by omega)).seq Parses.refl fun rest hrest => hrest

theorem not (h : Reading C upper .not ws e) :
    Reading C upper .not (keyword "NOT" :: ws) (.unaryOp .not e) := by
  refine of_done (by decide) fun p n hp hn => ?_
  simp only [List.length_cons] at hp hn
  obtain ⟨n, rfl⟩ : ∃ k, n = k + 1 := ⟨n - 1, by omega⟩
  refine matchToken_hit (by decide) fun _ _ => ?_
  rw [← List.append_nil ws]
  exact (h.done (by omega) (by omega)).seq Parses.refl fun rest hrest => hrest

theorem comparison {text : String} {cmp : BinOp} (hcmp : comparisonOp? text = some cmp)
    (h₁ : Reading C upper .primary ws₁ left) (h₂ : Reading C upper .primary ws₂ right) :
    Reading C upper .comparison (ws₁ ++ op text :: ws₂) (.binaryOp cmp left right) := by
  have hopens : (op text).opens = false := by
    have hparen : text ≠ "(" := by
      rintro rfl
      cases hcmp
    have hdot : text ≠ "." := by
      rintro rfl
      cases hcmp
    simp [opens, Word.is, hparen, hdot]
  refine of_done (by decide) fun p n hp hn => ?_
  simp only [List.length_append, List.length_cons] at hp hn
  refine (h₁.done (by omega) (show ws₁.length < n by omega)).seq (peek_parses fun t ht => ?_)
    fun rest hrest => hopens
  obtain ⟨w, pos⟩ := t
  subst ht
  simp only [hcmp]
  refine advance_parses fun _ _ => ?_
  rw [← List.append_nil ws₂]
  exact (h₂.done (by omega) (show ws₂.length < n by omega)).seq Parses.refl
    fun rest hrest => hrest.mono fun w hw => (Bool.or_eq_false_iff.mp hw).1

/-! ### Primary expressions -/

/-- A primary expression that is one token. -/
theorem token {w : Word} (h : ∀ fuel pos rest,
    parsePrimary C upper (fuel + 1) (⟨w, pos⟩ :: rest) = .ok e rest) :
    Reading C upper .primary [w] e := by
  refine of_done (by decide) fun p n hp _ => ?_
  obtain ⟨p, rfl⟩ : ∃ k, p = k + 1 := ⟨p - 1, by omega⟩
  refine Parses.of_token (g := fun _ => pure e) (fun t rest ht => ?_) fun _ _ => Parses.refl
  subst ht
  exact h p t.pos rest

theorem number {text : String} {value : Value} (h : numberValue C text = .ok value) :
    Reading C upper .primary [number text] (.literal value) :=
  token fun fuel pos rest => by
    have hsign : (⟨Word.number text, pos⟩ : Token).is .op (some "-") = false := rfl
    have hvalue : ParseM.lift (numberValue C text) rest = .ok value rest := by rw [h]; rfl
    rw [parsePrimary, run_bind_ok (peek_cons _ rest), hsign, if_neg Bool.false_ne_true, if_pos rfl,
      run_bind_ok (advance_cons _ rest), run_bind_ok hvalue, run_pure]

/-- A sign goes into the number that follows. -/
theorem negative {operand : Expr} {value : Value} (h : Reading C upper .primary ws operand)
    (hneg : operand.negated? = some value) :
    Reading C upper .primary (op "-" :: ws) (.literal value) := by
  refine of_done (by decide) fun p n hp _ => ?_
  simp only [List.length_cons] at hp
  obtain ⟨p, rfl⟩ : ∃ k, p = k + 1 := ⟨p - 1, by omega⟩
  refine peek_parses fun t ht => ?_
  obtain ⟨w, pos⟩ := t
  subst ht
  refine advance_parses fun _ _ => ?_
  rw [← List.append_nil ws]
  refine (h.done (p := p) (n := p) (by omega) (by omega)).seq ?_ fun rest hrest => hrest
  simp only [hneg]
  exact Parses.refl

/-- An identifier that starts an expression, and what comes after it. -/
theorem named {name : String}
    (h : ∀ p, ws.length ≤ p → Parses Token.toWord
      (parseNamed C upper (parseOr (parsePrimary C upper p) p) name) ws (pure e) (Follow .primary)) :
    Reading C upper .primary (ident name :: ws) e := by
  refine of_done (by decide) fun p n hp _ => ?_
  simp only [List.length_cons] at hp
  obtain ⟨p, rfl⟩ : ∃ k, p = k + 1 := ⟨p - 1, by omega⟩
  refine peek_parses fun t ht => ?_
  obtain ⟨w, pos⟩ := t
  subst ht
  exact advance_parses fun _ _ => h p (by omega)

theorem column (name : String) : Reading C upper .primary [ident name] (.columnRef name none) := by
  refine named fun p _ => check_parses (b := false) (fun rest hrest => ?_)
    (matchToken_miss (fun rest hrest => ?_) Parses.refl)
  · exact hrest.mono fun w hw => (Bool.or_eq_false_iff.mp hw).1
  · exact hrest.mono fun w hw => (Bool.or_eq_false_iff.mp hw).2

theorem qualified (table name : String) :
    Reading C upper .primary [ident table, op ".", ident name] (.columnRef name (some table)) := by
  have hdot : ∀ rest, Starts (fun w => w.is .op (some "(") = false) ([op ".", ident name] ++ rest) :=
    fun _ => rfl
  exact named fun p _ => check_parses (fun rest _ => hdot rest)
    (matchToken_hit (by decide) fun _ _ => expectName_then Parses.refl)

/-- A call, once it is known how its argument is read. -/
theorem call {name : String} {arg : Expr}
    (h : ∀ p, ws.length < p → Parses Token.toWord (parseArgument (parseOr (parsePrimary C upper p) p)) ws
      (pure arg) (Starts fun w => w = op ")")) :
    Reading C upper .primary (ident name :: op "(" :: ws ++ [op ")"])
      (.functionCall (upper name) arg) := by
  rw [List.cons_append, List.cons_append]
  refine named fun p hp => ?_
  simp only [List.length_cons, List.length_append] at hp
  have hparen : ∀ rest, Starts (fun w => w.is .op (some "(") = true)
      (op "(" :: (ws ++ [op ")"]) ++ rest) := fun _ => rfl
  refine check_parses (fun rest _ => hparen rest) (advance_parses fun _ _ => ?_)
  exact (h p (by omega)).seq (expect_parses (by decide) fun _ _ => Parses.refl) fun _ _ => rfl

end Reading

/-! ## Expressions -/

section
variable {C : Conversions} {upper : String → String} {prec : Precedence} {e : Expr} {ws : List Word}

/-- Only what `NOT` can stand in starts with it. -/
theorem Written.misses_not (h : Written C upper prec e ws)
    (hprec : prec.rank ≤ Precedence.rank .comparison) : Misses .keyword (some "NOT") ws := by
  induction h with
  | lift h hle ih => exact ih (hle.trans hprec)
  | comparison hcmp h₁ h₂ ih₁ ih₂ => exact (ih₁ (by decide)).append
  | not | and | or => exact absurd hprec (by decide)
  | number | string | true | false | null | negative | parens | star | call | callStarred | column
  | qualified => rfl

/-- A single `*` is a `*`. -/
theorem Written.eq_star (h : Written C upper prec e ws) (hws : ws = [op "*"]) : e = .star := by
  induction h with
  | star => rfl
  | lift h hle ih => exact ih hws
  | comparison hcmp h₁ h₂ | and h₁ h₂ | or h₁ h₂ =>
    obtain ⟨_, tail, rfl⟩ := List.exists_cons_of_ne_nil h₁.ne_nil
    simp at hws
  | number | string | true | false | null | negative | parens | call | callStarred | column
  | qualified | not => simp [op, Word.number, Word.string, keyword, ident] at hws

theorem misses_of_head {kind : TokenKind} {value : String} (hne : ws ≠ [])
    (h : ws.head? ≠ some ⟨kind, value⟩) : Misses kind (some value) ws := by
  obtain ⟨w, tail, rfl⟩ := List.exists_cons_of_ne_nil hne
  rw [List.head?_cons, ne_eq, Option.some.injEq] at h
  exact Bool.eq_false_iff.mpr fun hw => h (is_some.mp hw)

/-- The argument of a call, where it does not start with `*`. -/
theorem Reading.argument {arg : Expr} (h : Reading C upper .or ws arg)
    (hstar : Misses .op (some "*") ws) {p : Nat} (hp : ws.length < p) :
    Parses Token.toWord (parseArgument (parseOr (parsePrimary C upper p) p)) ws
      (do
        if arg = .star then
          let _ ← matchToken .op "*"
        return arg) (Follow .or) := by
  refine check_parses (b := false) (fun _ _ => hstar.append) ?_
  exact (h.done hp hp).bind

theorem Written.reading (h : Written C upper prec e ws) : Reading C upper prec ws e := by
  induction h with
  | number h => exact .number h
  | string s => exact .token fun _ _ _ => rfl
  | true => exact .token fun _ _ _ => rfl
  | false => exact .token fun _ _ _ => rfl
  | null => exact .token fun _ _ _ => rfl
  | negative h hneg ih => exact ih.negative hneg
  | parens h ih => exact ih.parens
  | star => exact .token fun _ _ _ => rfl
  | column name => exact .column name
  | qualified table name => exact .qualified table name
  | call h hstar ih =>
    rename_i name arg ws
    refine Reading.call fun p hp => ?_
    by_cases hone : ws = [op "*"]
    · obtain rfl := h.eq_star hone
      subst hone
      exact check_parses (b := Bool.true) (fun _ _ => rfl)
        (matchToken_hit rfl fun _ _ => Parses.refl)
    · have hmiss : Misses .op (some "*") ws :=
        misses_of_head h.ne_nil fun hhead => hone (hstar hhead)
      rw [← List.append_nil ws]
      refine (ih.argument hmiss hp).trans ?_ fun rest hrest => hrest.mono fun w hw => ?_
      · split
        · exact matchToken_miss (fun rest hrest => hrest.mono fun w hw => by rw [hw]; rfl) Parses.refl
        · exact Parses.refl
      · rw [hw]
        rfl
  | callStarred h hstar ih =>
    rename_i name ws
    have hmiss : Misses .op (some "*") ws := misses_of_head h.ne_nil hstar
    have hcall : Reading C upper .primary (ident name :: op "(" :: (ws ++ [op "*"]) ++ [op ")"])
        (.functionCall (upper name) .star) := by
      refine Reading.call fun p hp => ?_
      rw [List.length_append] at hp
      refine (ih.argument hmiss (by omega)).trans ?_ fun _ _ => rfl
      rw [if_pos rfl]
      exact matchToken_hit rfl fun _ _ => Parses.refl
    simpa using hcall
  | comparison hcmp h₁ h₂ ih₁ ih₂ => exact .comparison hcmp ih₁ ih₂
  | not h ih => exact ih.not
  | and h₁ h₂ ih₁ ih₂ => exact ih₁.and ih₂
  | or h₁ h₂ ih₁ ih₂ => exact ih₁.or ih₂
  | lift h hle ih => exact ih.climb hle fun hprec => h.misses_not hprec

theorem Written.parses (h : Written C upper .or e ws) {fuel : Nat} (hfuel : ws.length < fuel) :
    Parses Token.toWord (parseExpr C upper fuel) ws (pure e) (Follow .or) :=
  h.reading.done hfuel hfuel

end

/-! ## Clauses

The clauses of a statement come in a fixed order. What follows one is a later one, or the end. -/

/-- The place of a clause in a statement, by its first word; the end comes last. -/
def Word.clauseRank (w : Word) : Nat :=
  match w.kind, w.value with
  | .keyword, "JOIN" => 1
  | .keyword, "WHERE" => 2
  | .keyword, "GROUP" => 3
  | .keyword, "ORDER" => 4
  | .keyword, "LIMIT" => 5
  | .op, ";" => 6
  | .eof, _ => 6
  | _, _ => 0

/-- What follows is a clause after the given one, or the end. -/
abbrev After (rank : Nat) (ws : List Word) : Prop := Starts (fun w => rank < w.clauseRank) ws

theorem clauseRank_pos {w : Word} (h : 0 < w.clauseRank) :
    w ∈ [keyword "JOIN", keyword "WHERE", keyword "GROUP", keyword "ORDER", keyword "LIMIT", op ";"] ∨
      w.kind = .eof := by
  obtain ⟨kind, value⟩ := w
  unfold clauseRank at h
  dsimp only at h
  split at h <;> simp_all

/-- Nothing that may follow a clause goes on what is in it. -/
theorem clauseRank_ends {w : Word} (h : 0 < w.clauseRank) :
    w.continues .or = false ∧ w.is .op (some ",") = false ∧ w.is .keyword (some "AS") = false ∧
      w.is .ident none = false ∧ w.is .keyword (some "DESC") = false ∧
      w.is .keyword (some "ASC") = false := by
  obtain hw | hw := clauseRank_pos h
  · simp only [List.mem_cons, List.not_mem_nil, or_false] at hw
    obtain rfl | rfl | rfl | rfl | rfl | rfl := hw <;> decide
  · simp [continues, opens, compares, Word.is, hw]

/-- A clause is not the one before it. -/
theorem clauseRank_is {w : Word} {name : String} (h : (keyword name).clauseRank < w.clauseRank) :
    w.is .keyword (some name) = false := by
  by_contra hw
  have hword : w = keyword name := by
    obtain ⟨kind, value⟩ := w
    simpa [Word.is] using hw
  rw [hword] at h
  exact lt_irrefl _ h

namespace After
variable {rank : Nat} {ws : List Word}

theorem follow (h : After rank ws) : Follow .or ws := h.mono fun _ hw => (clauseRank_ends (by omega)).1

theorem noComma (h : After rank ws) : NoComma ws := h.mono fun _ hw => (clauseRank_ends (by omega)).2.1

theorem later {rank' : Nat} (h : After rank ws) (hle : rank' ≤ rank) : After rank' ws :=
  h.mono fun _ hw => by omega

end After

/-- A clause that may be absent, before what comes after it. -/
theorem After.skip {rank : Nat} {ws rest : List Word} (hws : ws = [] ∨ After rank ws)
    (hrest : After (rank + 1) rest) : After rank (ws ++ rest) := by
  rcases hws with rfl | hws
  · exact hrest.later (Nat.le_succ rank)
  · exact hws.append

section
variable {C : Conversions} {upper : String → String} {α : Type} {name : String} {absent a : α}
  {body : ParseM α} {words ws : List Word} {fuel : Nat} {W : α → List Word → Prop}

/-- A clause is read, or passed over, up to what comes after it. -/
theorem clause_parses (h : ClauseSpelled (keyword name :: words) absent W a ws)
    (hbody : ∀ inner, W a inner → inner.length < ws.length →
      Parses Token.toWord body (words ++ inner) (pure a) (After (keyword name).clauseRank)) :
    Parses Token.toWord (clause name absent body) ws (pure a) (After (keyword name).clauseRank) := by
  rcases h with ⟨rfl, rfl⟩ | ⟨inner, hinner, rfl⟩
  · exact matchToken_miss (fun _ hrest => hrest.mono fun _ hw => clauseRank_is hw) Parses.refl
  · refine matchToken_hit (by simp [Word.is]) fun _ _ => hbody inner hinner ?_
    simp only [List.cons_append, List.length_cons, List.length_append]
    omega

theorem ClauseSpelled.skip {rank : Nat} (h : ClauseSpelled (keyword name :: words) absent W a ws)
    (hrank : rank < (keyword name).clauseRank) : ws = [] ∨ After rank ws := by
  rcases h with ⟨-, rfl⟩ | ⟨inner, -, rfl⟩
  · exact .inl rfl
  · exact .inr hrank

theorem optionalAlias_parses {alias_ : Option String} (h : AliasSpelled alias_ ws) :
    Parses Token.toWord (parseOptionalAlias C) ws (pure alias_)
      (Starts fun w => w.is .keyword (some "AS") = false ∧ w.is .ident none = false) := by
  cases alias_ with
  | none =>
    obtain rfl : ws = [] := h
    exact matchToken_miss (fun _ hrest => hrest.mono fun _ hw => hw.1)
      (check_parses (b := false) (fun _ hrest => hrest.mono fun _ hw => hw.2) Parses.refl)
  | some alias_ =>
    rcases h with rfl | rfl
    · exact matchToken_hit (by decide) fun _ _ => expectName_then Parses.refl
    · refine matchToken_miss (fun _ _ => rfl) (check_parses (b := true) (fun _ _ => rfl) ?_)
      refine advance_parses fun t ht => ?_
      rw [show t.value = alias_ from congrArg Word.value ht]
      exact Parses.refl

theorem join_parses {join : Option JoinClause} (h : JoinWritten C upper join ws)
    (hfuel : ws.length < fuel) :
    Parses Token.toWord (parseJoin C upper fuel) ws (pure join) (After 1) := by
  refine clause_parses h fun inner hinner hlen => ?_
  obtain ⟨j, ws₁, ws₂, rfl, halias, hon, rfl⟩ := hinner
  simp only [List.length_append, List.length_cons] at hlen
  refine expectName_then ((optionalAlias_parses halias).seq ?_ fun _ _ => ⟨rfl, rfl⟩)
  refine expect_parses (by decide) fun _ _ => ?_
  rw [← List.append_nil ws₂]
  exact (hon.parses (by omega)).seq Parses.refl fun _ hrest => hrest.follow

theorem where_parses {where_ : Option Expr} (h : WhereWritten C upper where_ ws)
    (hfuel : ws.length < fuel) :
    Parses Token.toWord (parseWhere C upper fuel) ws (pure where_) (After 2) := by
  refine clause_parses h fun inner hinner hlen => ?_
  obtain ⟨e, rfl, he⟩ := hinner
  have hread := he.parses (hlen.trans hfuel)
  exact (hread.bind (f := fun e => pure (some e))).mono fun _ hrest => hrest.follow

theorem name_parses {name : String} {F : List Word → Prop} (h : NameSpelled name ws) :
    Parses Token.toWord (expectName C) ws (pure name) F := by
  obtain rfl : ws = [ident name] := h
  exact expectName_parses

theorem groupBy_parses {groupBy : List String} (h : GroupBySpelled groupBy ws)
    (hfuel : ws.length < fuel) :
    Parses Token.toWord (parseGroupBy C fuel) ws (pure groupBy) (After 3) := by
  refine clause_parses h fun inner hinner hlen => expect_parses (by decide) fun _ _ => ?_
  have hitem : ∀ name ws', NameSpelled name ws' → ws'.length ≤ inner.length →
      Parses Token.toWord (expectName C) ws' (pure name) fun _ => True :=
    fun _ _ hname _ => name_parses hname
  have hlist := commaList_parses (fun _ => trivial) hinner (hlen.trans hfuel) hitem
  exact hlist.mono fun _ hrest => ⟨trivial, hrest.noComma⟩

theorem orderItem_parses {item : OrderByItem} (h : OrderItemWritten C upper item ws)
    (hfuel : ws.length < fuel) :
    Parses Token.toWord (parseOrderItem C upper fuel) ws (pure item)
      (Starts fun w => w.continues .or = false ∧ w.is .keyword (some "DESC") = false ∧
        w.is .keyword (some "ASC") = false) := by
  obtain ⟨expr, descending⟩ := item
  obtain ⟨inner, direction, hexpr, rfl, hdirection⟩ := h
  rw [List.length_append] at hfuel
  have hread : Parses Token.toWord (parseExpr C upper fuel) inner (pure expr) (Follow .or) :=
    hexpr.parses (by omega)
  cases descending with
  | true =>
    obtain rfl : direction = [keyword "DESC"] := by simpa using hdirection
    exact hread.seq (matchToken_hit (by decide) fun _ _ => Parses.refl) fun _ _ => rfl
  | false =>
    obtain rfl | rfl : direction = [] ∨ direction = [keyword "ASC"] := by simpa using hdirection
    · refine hread.seq (matchToken_miss (fun _ hrest => hrest.mono fun _ hw => hw.2.1) ?_)
        fun _ hrest => hrest.mono fun _ hw => hw.1
      exact matchToken_miss (fun _ hrest => hrest.mono fun _ hw => hw.2.2) Parses.refl
    · refine hread.seq (matchToken_miss (fun _ _ => rfl) ?_) fun _ _ => rfl
      exact matchToken_hit (by decide) fun _ _ => Parses.refl

theorem orderBy_parses {orderBy : List OrderByItem} (h : OrderByWritten C upper orderBy ws)
    (hfuel : ws.length < fuel) :
    Parses Token.toWord (parseOrderBy C upper fuel) ws (pure orderBy) (After 4) := by
  refine clause_parses h fun inner hinner hlen => expect_parses (by decide) fun _ _ => ?_
  have hlist := commaList_parses (fun _ => ⟨rfl, rfl, rfl⟩) hinner (hlen.trans hfuel)
    fun _ _ hitem hle => orderItem_parses hitem ((hle.trans_lt hlen).trans hfuel)
  refine hlist.mono fun rest hrest => ⟨hrest.mono fun w hw => ?_, hrest.noComma⟩
  have hends := clauseRank_ends (show 0 < w.clauseRank by omega)
  exact ⟨hends.1, hends.2.2.2.2⟩

theorem limit_parses {limit : Option Nat} (h : LimitSpelled (Numerals.read C) limit ws) :
    Parses Token.toWord (parseLimit C) ws (pure limit) (After 5) := by
  refine clause_parses h fun inner hinner hlen => ?_
  obtain ⟨n, text, rfl, ⟨i, hi, rfl⟩, rfl⟩ := hinner
  refine expect_parses rfl fun t ht => ?_
  have hint : C.intOfStr t.value = .ok i := by
    rw [show t.value = text from congrArg Word.value ht]
    exact hi
  rw [hint]
  exact Parses.refl

/-! ## Statements -/

theorem selectItem_parses {item : SelectItem} (h : ItemWritten C upper item ws)
    (hfuel : ws.length < fuel) :
    Parses Token.toWord (parseSelectItem C upper fuel) ws (pure item)
      (Starts fun w => w.continues .or = false ∧ w.is .keyword (some "AS") = false) := by
  obtain ⟨expr, alias_⟩ := item
  obtain ⟨inner, hexpr, rfl⟩ := h
  rw [List.length_append] at hfuel
  have hread : Parses Token.toWord (parseExpr C upper fuel) inner (pure expr) (Follow .or) :=
    hexpr.parses (by omega)
  cases alias_ with
  | none =>
    exact hread.seq (matchToken_miss (fun _ hrest => hrest.mono fun _ hw => hw.2) Parses.refl)
      fun _ hrest => hrest.mono fun _ hw => hw.1
  | some alias_ =>
    exact hread.seq (matchToken_hit (by decide) fun _ _ => expectName_then Parses.refl)
      fun _ _ => rfl

theorem selectItems_parses {items : List SelectItem} (h : ItemsWritten C upper items ws)
    (hfuel : ws.length < fuel) :
    Parses Token.toWord (parseSelectItems C upper fuel) ws (pure items)
      (Starts fun w => w = keyword "FROM") := by
  rcases h with ⟨rfl, rfl⟩ | ⟨hitems, hstar⟩
  · exact matchToken_hit rfl fun _ _ => Parses.refl
  · have hmiss : Misses .op (some "*") ws := misses_of_head (hitems.ne_nil fun _ _ hitem => ?_) hstar
    · refine matchToken_miss (fun _ _ => hmiss.append) ?_
      have hlist := commaList_parses (fun _ => ⟨rfl, rfl⟩) hitems hfuel
        fun _ _ hitem hle => selectItem_parses hitem (hle.trans_lt hfuel)
      refine hlist.mono fun rest hrest => ?_
      obtain ⟨w, tail, rfl, rfl⟩ := hrest.exists_cons
      exact ⟨⟨rfl, rfl⟩, rfl⟩
    · obtain ⟨inner, hexpr, rfl⟩ := hitem
      exact List.append_ne_nil_of_left_ne_nil hexpr.ne_nil _

/-- A SELECT has been read up to its LIMIT. -/
theorem head_parses {stmt : Select} (h : HeadWritten C upper stmt ws) (hfuel : ws.length < fuel) :
    Parses Token.toWord (parseSelect C upper fuel) ws
      (do
        let limit ← parseLimit C
        return { stmt with limit }) (After 4) := by
  obtain ⟨ws₁, ws₂, ws₃, ws₄, ws₅, ws₆, hitems, halias, hjoin, hwhere, hgroup, horder, rfl⟩ := h
  simp only [List.length_append, List.length_cons, List.append_assoc, List.cons_append] at hfuel ⊢
  -- what follows each clause, from the last to the first
  have hafter₃ : ∀ rest, After 4 rest → After 3 (ws₆ ++ rest) :=
    fun _ hrest => hrest.skip (horder.skip (by decide))
  have hafter₂ : ∀ rest, After 4 rest → After 2 (ws₅ ++ (ws₆ ++ rest)) :=
    fun rest hrest => (hafter₃ rest hrest).skip (hgroup.skip (by decide))
  have hafter₁ : ∀ rest, After 4 rest → After 1 (ws₄ ++ (ws₅ ++ (ws₆ ++ rest))) :=
    fun rest hrest => (hafter₂ rest hrest).skip (hwhere.skip (by decide))
  have hafter₀ : ∀ rest, After 4 rest → After 0 (ws₃ ++ (ws₄ ++ (ws₅ ++ (ws₆ ++ rest)))) :=
    fun rest hrest => (hafter₁ rest hrest).skip (hjoin.skip (by decide))
  refine expect_parses (by decide) fun _ _ => ?_
  refine (selectItems_parses hitems (by omega)).seq ?_ fun _ _ => rfl
  refine expect_parses (by decide) fun _ _ => expectName_then ?_
  refine (optionalAlias_parses halias).seq ?_ fun rest hrest => ?_
  · refine (join_parses hjoin (by omega)).seq ?_ fun rest hrest => ?_
    · refine (where_parses hwhere (by omega)).seq ?_ fun rest hrest => ?_
      · refine (groupBy_parses hgroup (by omega)).seq ?_ fun rest hrest => hafter₃ rest hrest
        rw [← List.append_nil ws₆]
        exact (orderBy_parses horder (by omega)).seq Parses.refl fun _ hrest => hrest
      · simpa only [List.append_assoc] using hafter₂ rest hrest
    · simpa only [List.append_assoc] using hafter₁ rest hrest
  · refine Starts.mono (P := fun w => 0 < w.clauseRank) ?_ fun w hw => ?_
    · simpa only [List.append_assoc] using hafter₀ rest hrest
    · exact ⟨(clauseRank_ends hw).2.2.1, (clauseRank_ends hw).2.2.2.1⟩

theorem select_parses {stmt : Select} {ws' : List Word} (h : HeadWritten C upper stmt ws)
    (hlimit : LimitSpelled (Numerals.read C) stmt.limit ws') (hfuel : ws.length < fuel) :
    Parses Token.toWord (parseSelect C upper fuel) (ws ++ ws') (pure stmt) (After 5) := by
  refine (head_parses h hfuel).trans ?_ fun rest hrest => hrest.skip (hlimit.skip (by decide))
  rw [← List.append_nil ws']
  exact (limit_parses hlimit).seq Parses.refl fun _ hrest => hrest

theorem columnDef_parses {col : Column} {F : List Word → Prop} (h : ColumnWritten upper col ws) :
    Parses Token.toWord (parseColumnDef C upper) ws (pure col) F := by
  obtain ⟨w, htype, rfl⟩ := h
  refine expectName_then (advance_parses fun t ht => ?_)
  rw [← ht] at htype
  rw [htype]
  exact Parses.refl

section
variable {β : Type} {V : β → List Word → Prop} {item : ParseM β} {G F : List Word → Prop}
  {f : List β → ParseM α} {inner : List Word} {q : ParseM α} {items : List β}

/-- A list in parentheses, behind the first of them. -/
theorem rowTail_parses (h : CommaSpelled V items inner) (hfuel : inner.length < fuel)
    (hitem : ∀ b ws, V b ws → ws.length ≤ inner.length → Parses Token.toWord item ws (pure b) G)
    (hcomma : ∀ rest, G (op "," :: rest)) (hclose : ∀ rest, G (op ")" :: rest))
    (hf : Parses Token.toWord (f items) ws q F) :
    Parses Token.toWord (do
      let items ← commaList item fuel
      let _ ← expect C .op ")"
      f items) (inner ++ op ")" :: ws) q F :=
  (commaList_parses hcomma h hfuel hitem).seq (expect_parses (by decide) fun _ _ => hf)
    fun _ _ => ⟨hclose _, rfl⟩

theorem row_parses {row : List Word} (h : RowSpelled V items row) (hfuel : row.length < fuel)
    (hitem : ∀ b ws, V b ws → ws.length < row.length → Parses Token.toWord item ws (pure b) G)
    (hcomma : ∀ rest, G (op "," :: rest)) (hclose : ∀ rest, G (op ")" :: rest))
    (hf : Parses Token.toWord (f items) ws q F) :
    Parses Token.toWord (do
      let _ ← expect C .op "("
      let items ← commaList item fuel
      let _ ← expect C .op ")"
      f items) (row ++ ws) q F := by
  obtain ⟨inner, hinner, rfl⟩ := h
  simp only [List.cons_append, List.length_cons, List.length_append] at hfuel hitem
  simp only [List.cons_append, List.append_assoc]
  exact expect_parses (by decide) fun _ _ => rowTail_parses hinner (by omega)
    (fun b ws' hb hle => hitem b ws' hb (by omega)) hcomma hclose hf

end

theorem valueRow_parses {row : List Expr} {F : List Word → Prop}
    (h : RowSpelled (Written C upper .or) row ws) (hfuel : ws.length < fuel) :
    Parses Token.toWord (parseValueRow C upper fuel) ws (pure row) F := by
  rw [← List.append_nil ws]
  exact row_parses h hfuel (fun _ _ he hlt => he.parses (hlt.trans hfuel)) (fun _ => rfl)
    (fun _ => rfl) Parses.refl

theorem createTable_parses {table : String} {columns : List Column} {unique : Bool}
    {F : List Word → Prop} (h : RowSpelled (ColumnWritten upper) columns ws)
    (hfuel : ws.length < fuel) :
    Parses Token.toWord (parseCreate C upper fuel)
      (keyword "CREATE" :: (if unique then [keyword "UNIQUE"] else []) ++
        keyword "TABLE" :: ident table :: ws) (pure (.createTable table columns)) F := by
  have htable : Parses Token.toWord (parseCreateTable C upper fuel) (ident table :: ws)
      (pure (.createTable table columns)) F := by
    refine expectName_then ?_
    rw [← List.append_nil ws]
    have hcolumn : ∀ col ws', ColumnWritten upper col ws' → ws'.length < ws.length →
        Parses Token.toWord (parseColumnDef C upper) ws' (pure col) fun _ => True :=
      fun _ _ hcol _ => columnDef_parses hcol
    exact row_parses h hfuel hcolumn (fun _ => trivial) (fun _ => trivial) Parses.refl
  refine expect_parses (by decide) fun _ _ => ?_
  cases unique with
  | true =>
    exact matchToken_hit (by decide) fun _ _ => matchToken_hit (by decide) fun _ _ => htable
  | false =>
    exact matchToken_miss (fun _ _ => rfl) (matchToken_hit (by decide) fun _ _ => htable)

theorem createIndex_parses {indexName table column : String} {unique : Bool}
    {F : List Word → Prop} :
    Parses Token.toWord (parseCreate C upper fuel)
      (keyword "CREATE" :: (if unique then [keyword "UNIQUE"] else []) ++
        [keyword "INDEX", ident indexName, keyword "ON", ident table, op "(", ident column, op ")"])
      (pure (.createIndex indexName table column unique)) F := by
  have hindex : Parses Token.toWord (parseCreateIndex C unique)
      [keyword "INDEX", ident indexName, keyword "ON", ident table, op "(", ident column, op ")"]
      (pure (.createIndex indexName table column unique)) F := by
    refine expect_parses (by decide) fun _ _ => expectName_then ?_
    refine expect_parses (by decide) fun _ _ => expectName_then ?_
    refine expect_parses (by decide) fun _ _ => expectName_then ?_
    exact expect_parses (by decide) fun _ _ => Parses.refl
  refine expect_parses (by decide) fun _ _ => ?_
  cases unique with
  | true => exact matchToken_hit (by decide) fun _ _ => matchToken_miss (fun _ _ => rfl) hindex
  | false => exact matchToken_miss (fun _ _ => rfl) (matchToken_miss (fun _ _ => rfl) hindex)

theorem insertColumns_parses {columns : Option (List String)} (h : InsertColumnsSpelled columns ws)
    (hfuel : ws.length < fuel) :
    Parses Token.toWord (parseInsertColumns C fuel) ws (pure columns) (Misses .op (some "(")) := by
  cases columns with
  | none =>
    obtain rfl : ws = [] := h
    exact matchToken_miss (fun _ hrest => hrest) Parses.refl
  | some names =>
    obtain ⟨inner, hnames, rfl⟩ := h
    simp only [List.cons_append, List.length_cons, List.length_append] at hfuel ⊢
    have hname : ∀ name ws, NameSpelled name ws → ws.length ≤ inner.length →
        Parses Token.toWord (expectName C) ws (pure name) fun _ => True :=
      fun _ _ hname _ => name_parses hname
    exact matchToken_hit (by decide) fun _ _ =>
      rowTail_parses hnames (by omega) hname (fun _ => trivial) (fun _ => trivial) Parses.refl

theorem assignment_parses {a : String × Expr} (h : AssignmentWritten C upper a ws)
    (hfuel : ws.length < fuel) :
    Parses Token.toWord (parseAssignment C upper fuel) ws (pure a) (Follow .or) := by
  obtain ⟨inner, he, rfl⟩ := h
  simp only [List.length_cons] at hfuel
  refine expectName_then (expect_parses (by decide) fun _ _ => ?_)
  rw [← List.append_nil inner]
  exact (he.parses (by omega)).seq Parses.refl fun _ hrest => hrest

theorem insert_parses {table : String} {columns : Option (List String)} {rows : List (List Expr)}
    {ws₁ ws₂ : List Word} (hcolumns : InsertColumnsSpelled columns ws₁)
    (hrows : CommaSpelled (RowSpelled (Written C upper .or)) rows ws₂)
    (hfuel : ws₁.length + ws₂.length < fuel) :
    Parses Token.toWord (parseInsert C upper fuel)
      (keyword "INSERT" :: keyword "INTO" :: ident table :: ws₁ ++ keyword "VALUES" :: ws₂)
      (pure (.insert table columns rows)) NoComma := by
  refine expect_parses (by decide) fun _ _ => expect_parses (by decide) fun _ _ => expectName_then ?_
  refine (insertColumns_parses hcolumns (by omega)).seq (expect_parses (by decide) fun _ _ => ?_)
    fun _ _ => rfl
  have hrow : ∀ row ws, RowSpelled (Written C upper .or) row ws → ws.length ≤ ws₂.length →
      Parses Token.toWord (parseValueRow C upper fuel) ws (pure row) fun _ => True :=
    fun _ _ hrow hle => valueRow_parses hrow (by omega)
  rw [← List.append_nil ws₂]
  exact (commaList_parses (fun _ => trivial) hrows (by omega) hrow).seq Parses.refl
    fun _ hrest => ⟨trivial, hrest⟩

theorem update_parses {table : String} {assignments : List (String × Expr)} {where_ : Option Expr}
    {ws₁ ws₂ : List Word} (hassignments : CommaSpelled (AssignmentWritten C upper) assignments ws₁)
    (hwhere : WhereWritten C upper where_ ws₂) (hfuel : ws₁.length + ws₂.length < fuel) :
    Parses Token.toWord (parseUpdate C upper fuel)
      (keyword "UPDATE" :: ident table :: keyword "SET" :: ws₁ ++ ws₂)
      (pure (.update table assignments where_)) (After 5) := by
  refine expect_parses (by decide) fun _ _ => expectName_then (expect_parses (by decide) fun _ _ => ?_)
  refine (commaList_parses (fun _ => rfl) hassignments (by omega)
    fun _ _ ha hle => assignment_parses ha (by omega)).seq ?_ fun rest hrest => ?_
  · rw [← List.append_nil ws₂]
    exact (where_parses hwhere (by omega)).seq Parses.refl fun _ hrest => hrest.later (by decide)
  · have hafter : After 1 (ws₂ ++ rest) := (hrest.later (by decide)).skip (hwhere.skip (by decide))
    exact ⟨hafter.follow, hafter.noComma⟩

theorem delete_parses {table : String} {where_ : Option Expr} (hwhere : WhereWritten C upper where_ ws)
    (hfuel : ws.length < fuel) :
    Parses Token.toWord (parseDelete C upper fuel) (keyword "DELETE" :: keyword "FROM" :: ident table :: ws)
      (pure (.delete table where_)) (After 5) := by
  refine expect_parses (by decide) fun _ _ => expect_parses (by decide) fun _ _ => expectName_then ?_
  rw [← List.append_nil ws]
  exact (where_parses hwhere hfuel).seq Parses.refl fun _ hrest => hrest.later (by decide)

end

/-! ## The whole text -/

section
variable {C : Conversions} {upper : String → String} {stmt : AnyStatement} {ws : List Word}

theorem any_parses (h : StatementWritten C upper stmt ws) {fuel : Nat} (hfuel : ws.length < fuel) :
    Parses Token.toWord (parseAny C upper fuel) ws (pure stmt) (After 5) := by
  have hinto : ∀ {p : ParseM Statement} {ws : List Word} {s : Statement} {F : List Word → Prop},
      Parses Token.toWord p ws (pure s) F →
      Parses Token.toWord (AnyStatement.statement <$> p) ws (pure (.statement s)) F :=
    fun hp => hp.bind (f := fun s => pure (AnyStatement.statement s))
  cases h with
  | createTable unique h =>
    simp only [List.cons_append, List.length_cons, List.length_append] at hfuel
    exact check_parses (b := true) (fun _ _ => rfl) (hinto (createTable_parses h (by omega)))
  | createIndex indexName table column unique =>
    exact check_parses (b := true) (fun _ _ => rfl) (hinto createIndex_parses)
  | insert hcolumns hrows =>
    simp only [List.cons_append, List.length_cons, List.length_append] at hfuel
    refine check_parses (b := false) (fun _ _ => rfl) (check_parses (b := true) (fun _ _ => rfl) ?_)
    exact hinto ((insert_parses hcolumns hrows (by omega)).mono fun _ hrest => hrest.noComma)
  | update hassignments hwhere =>
    simp only [List.cons_append, List.length_cons, List.length_append] at hfuel
    refine check_parses (b := false) (fun _ _ => rfl) (check_parses (b := false) (fun _ _ => rfl) ?_)
    refine check_parses (b := false) (fun _ _ => rfl) (check_parses (b := true) (fun _ _ => rfl) ?_)
    exact hinto (update_parses hassignments hwhere (by omega))
  | delete hwhere =>
    simp only [List.length_cons] at hfuel
    refine check_parses (b := false) (fun _ _ => rfl) (check_parses (b := false) (fun _ _ => rfl) ?_)
    refine check_parses (b := false) (fun _ _ => rfl) (check_parses (b := false) (fun _ _ => rfl) ?_)
    refine check_parses (b := true) (fun _ _ => rfl) ?_
    exact hinto (delete_parses hwhere (by omega))
  | select hhead hlimit =>
    obtain ⟨tail, rfl⟩ := hhead.starts
    rw [List.length_append] at hfuel
    have hread := select_parses hhead hlimit (show _ < fuel by omega)
    refine check_parses (b := false) (fun _ _ => rfl) (check_parses (b := false) (fun _ _ => rfl) ?_)
    refine check_parses (b := true) (fun _ _ => rfl) ?_
    exact hread.bind (f := fun s => pure (AnyStatement.select s))

/-- Every text of the grammar is accepted, for the statement that it is. -/
theorem TextWritten.parses {tokens : List Token}
    (h : TextWritten C upper stmt (tokens.map Token.toWord)) :
    parseStatement C upper tokens = .ok stmt := by
  obtain ⟨body, semicolon, eof, hstmt, hsemicolon, heof, hwords⟩ := h
  have hfuel : body.length < tokens.length := by
    rw [← List.length_map (f := Token.toWord), hwords]
    simp only [List.length_append, List.length_singleton]
    omega
  have hend : eof.is .eof none = true := is_none.mpr heof
  have hrun : Parses Token.toWord (do
      let stmt ← parseAny C upper tokens.length
      let _ ← matchToken .op ";"
      let _ ← expect C .eof
      return stmt) (body ++ (semicolon ++ [eof])) (pure stmt) fun _ => True := by
    refine (any_parses hstmt hfuel).seq ?_ fun _ _ => ?_
    · rcases hsemicolon with rfl | rfl
      · refine matchToken_miss (fun _ _ => ?_) (expect_parses hend fun _ _ => Parses.refl)
        simp [Starts, Word.is, heof]
      · exact matchToken_hit (by decide) fun _ _ => expect_parses hend fun _ _ => Parses.refl
    · rcases hsemicolon with rfl | rfl
      · simp [Starts, clauseRank, heof]
      · exact (show 5 < 6 by decide)
  rw [List.append_assoc] at hwords
  have hall := hrun tokens [] hwords trivial
  rw [List.append_nil] at hall
  unfold parseStatement
  rw [hall]
  rfl

/-- The parser accepts just the texts of the grammar. -/
theorem parseStatement_eq_ok_iff {tokens : List Token} (hends : EndsOnce tokens) :
    parseStatement C upper tokens = .ok stmt ↔ TextWritten C upper stmt (tokens.map Token.toWord) :=
  ⟨parseStatement_written hends, TextWritten.parses⟩

/-- A SELECT whose LIMIT `int` cannot read fails with what `int` raises. -/
theorem HeadWritten.limit_error {tokens : List Token} {stmt : Select} {head rest : List Word}
    {text : String} {e : PyError} (h : HeadWritten C upper stmt head)
    (hwords : tokens.map Token.toWord = head ++ keyword "LIMIT" :: number text :: rest)
    (he : C.intOfStr text = .error e) : parseStatement C upper tokens = .error e := by
  obtain ⟨ts₁, ts₂, rfl, rfl, htail⟩ := List.map_eq_append_iff.mp hwords
  obtain ⟨t₁, ts₂, rfl, hlimit, htail⟩ := List.map_eq_cons_iff.mp htail
  obtain ⟨t₂, ts₂, rfl, hnumber, -⟩ := List.map_eq_cons_iff.mp htail
  have hfuel : (ts₁.map Token.toWord).length < (ts₁ ++ t₁ :: t₂ :: ts₂).length := by simp
  -- the SELECT goes on at its LIMIT, which raises
  have hselect : parseSelect C upper (ts₁ ++ t₁ :: t₂ :: ts₂).length (ts₁ ++ t₁ :: t₂ :: ts₂) =
      .error e ts₂ := by
    have hafter : After 4 ((t₁ :: t₂ :: ts₂).map Token.toWord) := by
      rw [List.map_cons, hlimit]
      exact (show 4 < 5 by decide)
    rw [head_parses h hfuel ts₁ (t₁ :: t₂ :: ts₂) rfl hafter]
    have hkeyword : t₁.is .keyword (some "LIMIT") = true := is_some.mpr hlimit
    have hkind : t₂.is .number none = true := is_none.mpr (by rw [hnumber])
    have hvalue : t₂.value = text := congrArg Word.value hnumber
    simp only [parseLimit, clause, bind, EStateM.bind, matchToken_cons, hkeyword, if_true,
      expect_hit hkind, hvalue, he]
    rfl
  obtain ⟨tail, hstarts⟩ := h.starts
  obtain ⟨t, ts₁, rfl, ht, -⟩ := List.map_eq_cons_iff.mp hstarts
  have hcheck : ∀ kw, t.is .keyword (some kw) = decide ("SELECT" = kw) := fun kw => by
    simp [Word.is, ht]
  have hany : parseAny C upper (t :: ts₁ ++ t₁ :: t₂ :: ts₂).length (t :: ts₁ ++ t₁ :: t₂ :: ts₂) =
      .error e ts₂ := by
    rw [List.cons_append] at hselect ⊢
    have hcreate : ("SELECT" = "CREATE") = False := by decide
    have hinsert : ("SELECT" = "INSERT") = False := by decide
    simp only [parseAny, check_cons, hcheck, bind, EStateM.bind, hcreate, hinsert, decide_false,
      decide_true, Bool.false_eq_true, if_false, if_true, Functor.map, EStateM.map, hselect]
  unfold parseStatement
  simp only [bind, EStateM.bind, hany]

end

end Minirel
