-- SUMMARY: Every production returns what its words are, or raises: it neither loops nor leaves the tokens.
import Minirel.Sql.Written

/-!
# Totality of the parser

Every production is followed through once. Where it returns, the words it has taken off are
written down in the grammar of accepted texts, and it has not taken the EOF. Where it
raises, it raises a `ParseError`, or what converting a NUMBER raises: it does not run past
the tokens, and fuel for every token is enough, since nothing is repeated before a token
has been taken off.

Which errors are let pass is a parameter. If running out of tokens is one of them, nothing is
asked of the tokens.
-/

namespace Minirel

open Word

theorem Word.is_some {w : Word} {kind : TokenKind} {value : String} :
    w.is kind (some value) = true ↔ w = ⟨kind, value⟩ := by
  obtain ⟨kind', value'⟩ := w
  simp [Word.is]

theorem Word.is_none {w : Word} {kind : TokenKind} : w.is kind none = true ↔ w.kind = kind := by
  simp [Word.is]

/-! ## The tokens that are left -/

/-- The tokens end with their only EOF, and its text is the name of no type. The EOF of the
    tokenizer has no text. -/
def EofEnds (upper : String → String) (ts : List Token) : Prop :=
  ∃ body eof, ts = body ++ [eof] ∧ (∀ t ∈ body, t.kind ≠ .eof) ∧ eof.kind = .eof ∧
    columnType? (upper eof.value) = none

/-- Running out of tokens or of fuel is let pass. -/
def Lax (E : PyError → Prop) : Prop := E .indexError ∧ E .diverges

/-- Tokens that a production with fuel `n` can be run on. -/
structure Live (E : PyError → Prop) (C : Conversions) (upper : String → String) (n : Nat)
    (ts : List Token) : Prop where
  ends : Lax E ∨ EofEnds upper ts ∧ ts.length ≤ n
  numbers : ∀ t ∈ ts, t.kind = .number → ∀ e, numberValue C t.value = .error e → E e

section
variable {E : PyError → Prop} {C : Conversions} {upper : String → String} {n m : Nat}
  {t : Token} {ts pre rest : List Token}

theorem EofEnds.drop (h : EofEnds upper (pre ++ rest)) (hpre : ∀ t ∈ pre, t.kind ≠ .eof) :
    EofEnds upper rest := by
  obtain ⟨body, eof, heq, hbody, heof, htype⟩ := h
  rcases List.eq_nil_or_concat' rest with rfl | ⟨init, last, rfl⟩
  · rw [List.append_nil] at heq
    exact absurd heof (hpre eof (by simp [heq]))
  · rw [← List.append_assoc] at heq
    obtain ⟨rfl, hlast⟩ := List.append_inj' heq rfl
    cases hlast
    exact ⟨init, eof, rfl, fun t ht => hbody t (List.mem_append_right _ ht), heof, htype⟩

/-- An EOF is the last token. -/
theorem EofEnds.eof (h : EofEnds upper (t :: rest)) (ht : t.kind = .eof) :
    rest = [] ∧ columnType? (upper t.value) = none := by
  obtain ⟨body, eof, heq, hbody, -, htype⟩ := h
  cases body with
  | nil =>
    cases heq
    exact ⟨rfl, htype⟩
  | cons t' body =>
    cases heq
    exact absurd ht (hbody t (List.mem_cons_self ..))

theorem Live.drop (h : Live E C upper n (pre ++ rest)) (hpre : ∀ t ∈ pre, Lax E ∨ t.kind ≠ .eof) :
    Live E C upper n rest where
  ends := by
    rcases h.ends with hlax | ⟨hends, hle⟩
    · exact .inl hlax
    · by_cases hlax : Lax E
      · exact .inl hlax
      · rw [List.length_append] at hle
        exact .inr ⟨hends.drop fun t ht => (hpre t ht).resolve_left hlax, by omega⟩
  numbers t ht := h.numbers t (List.mem_append_right _ ht)

theorem Live.tail (h : Live E C upper n (t :: rest)) (ht : t.kind ≠ .eof) :
    Live E C upper n rest :=
  have hone : ∀ t' ∈ [t], Lax E ∨ t'.kind ≠ .eof := by simpa using .inr ht
  h.drop hone

/-- A token that is taken off is fuel for what comes after it. -/
theorem Live.tail_succ (h : Live E C upper (n + 1) (t :: rest)) (ht : t.kind ≠ .eof) :
    Live E C upper n rest where
  ends := h.ends.imp_right fun ⟨hends, hle⟩ =>
    have hone : ∀ t' ∈ [t], t'.kind ≠ .eof := by simpa using ht
    ⟨hends.drop hone, Nat.le_of_succ_le_succ hle⟩
  numbers := (h.tail ht).numbers

theorem Live.mono (h : Live E C upper m ts) (hle : m ≤ n) : Live E C upper n ts where
  ends := h.ends.imp_right fun ⟨hends, hlen⟩ => ⟨hends, hlen.trans hle⟩
  numbers := h.numbers

/-- Where every error is let pass, nothing is asked. -/
theorem live_true {n : Nat} {ts : List Token} : Live (fun _ => True) C upper n ts :=
  ⟨.inl ⟨trivial, trivial⟩, fun _ _ _ _ _ => trivial⟩

/-- Past the last token there is only the error that says so. -/
theorem Live.nil (h : Live E C upper n []) : E .indexError := by
  rcases h.ends with hE | ⟨⟨body, eof, heq, -⟩, -⟩
  · exact hE.1
  · exact absurd heq.symm (by simp)

/-- There are tokens, so there is fuel. -/
theorem Live.zero (h : Live E C upper 0 ts) : E .diverges := by
  rcases h.ends with hE | ⟨⟨body, eof, rfl, -⟩, hle⟩
  · exact hE.2
  · exact absurd hle (by simp)

end

/-! ## Single tokens -/

/-- The production returns, having taken off words with `W` and no EOF, or it raises. -/
abbrev Parsed {α : Type} (E : PyError → Prop) (p : ParseM α) (W : α → List Word → Prop)
    (ts : List Token) : Prop :=
  Yields (fun t => Lax E ∨ t.kind ≠ .eof) E p (fun a pre => W a (pre.map Token.toWord)) ts

section
variable {E : PyError → Prop} {C : Conversions} {upper : String → String} {n : Nat}
  {α : Type} {kind : TokenKind} {value : Option String} {ts : List Token}
  {W : α → List Word → Prop}

theorem parsed_peek {f : Token → ParseM α} (hlive : Live E C upper n ts)
    (h : ∀ t rest, ts = t :: rest → Parsed E (f t) W (t :: rest)) : Parsed E (peek >>= f) W ts := by
  cases ts with
  | nil => exact Yields.of_error rfl hlive.nil
  | cons t rest => exact Yields.look rfl (h t rest rfl)

theorem parsed_check {f : Bool → ParseM α} (hlive : Live E C upper n ts)
    (h : ∀ t rest, ts = t :: rest → Parsed E (f (t.is kind value)) W (t :: rest)) :
    Parsed E (check kind value >>= f) W ts := by
  cases ts with
  | nil => exact Yields.of_error rfl hlive.nil
  | cons t rest => exact Yields.look rfl (h t rest rfl)

theorem parsed_ite {p q : ParseM α} (hlive : Live E C upper n ts) (hp : Parsed E p W ts)
    (hq : Parsed E q W ts) : Parsed E (do if ← check kind value then p else q) W ts := by
  refine parsed_check hlive fun t rest hts => ?_
  rw [← hts]
  cases t.is kind value with
  | true => exact hp
  | false => exact hq

/-- A token that is no EOF is taken off. -/
theorem parsed_advance {f : Token → ParseM α} {t : Token} {rest : List Token} (ht : t.kind ≠ .eof)
    (h : Parsed E (f t) (fun a ws => W a (t.toWord :: ws)) rest) :
    Parsed E (advance >>= f) W (t :: rest) :=
  Yields.step rfl (.inr ht) h

theorem expect_nil : expect C kind value [] = .error .indexError [] := rfl

theorem matchToken_nil : matchToken kind value [] = .error .indexError [] := rfl

theorem peek_cons (t : Token) (rest : List Token) : peek (t :: rest) = .ok t (t :: rest) := rfl

theorem advance_cons (t : Token) (rest : List Token) : advance (t :: rest) = .ok t rest := rfl

theorem check_cons (kind : TokenKind) (value : Option String) (t : Token) (rest : List Token) :
    check kind value (t :: rest) = .ok (t.is kind value) (t :: rest) := rfl

theorem expect_hit {t : Token} {rest : List Token} (hw : t.is kind value = true) :
    expect C kind value (t :: rest) = .ok t rest := by
  rw [expect, run_bind_ok (peek_cons t rest), run_bind_ok (check_cons kind value t rest), if_pos hw]
  exact advance_cons t rest

theorem expect_miss {t : Token} {rest : List Token} (hw : t.is kind value = false) :
    ∃ msg, expect C kind value (t :: rest) = .error (.parseError msg) (t :: rest) := by
  rw [expect, run_bind_ok (peek_cons t rest), run_bind_ok (check_cons kind value t rest), hw,
    if_neg Bool.false_ne_true]
  exact ⟨_, run_throw⟩

theorem matchToken_cons (t : Token) (rest : List Token) :
    matchToken kind value (t :: rest) =
      if t.is kind value then .ok (some t) rest else .ok none (t :: rest) := by
  rw [matchToken, run_bind_ok (check_cons kind value t rest)]
  cases t.is kind value with
  | true => exact run_bind_ok (advance_cons t rest)
  | false => exact run_pure

theorem Word.kind_of_is {w : Word} (hw : w.is kind value = true) : w.kind = kind := by
  simp only [Word.is, Bool.and_eq_true, decide_eq_true_eq] at hw
  exact hw.1

theorem parsed_expect {f : Token → ParseM α} (hE : ∀ msg, E (.parseError msg))
    (hlive : Live E C upper n ts) (hkind : kind ≠ .eof)
    (h : ∀ t rest, ts = t :: rest → t.is kind value = true → Live E C upper n rest →
      Parsed E (f t) (fun a ws => W a (t.toWord :: ws)) rest) :
    Parsed E (expect C kind value >>= f) W ts := by
  cases ts with
  | nil => exact Yields.of_error rfl hlive.nil
  | cons t rest =>
    cases hw : t.is kind value with
    | true =>
      have ht : t.kind ≠ .eof := by
        rw [Word.kind_of_is hw]
        exact hkind
      refine Yields.step ?_ (.inr ht) (h t rest rfl hw (hlive.tail ht))
      simp only [bind, EStateM.bind, expect_hit hw]
    | false =>
      obtain ⟨msg, hmsg⟩ : ∃ msg, expect C kind value (t :: rest) = .error (.parseError msg) (t :: rest) :=
        expect_miss hw
      refine Yields.of_error (?_ : _ = EStateM.Result.error _ (t :: rest)) (hE msg)
      simp only [bind, EStateM.bind, hmsg]

theorem parsed_match {f : Option Token → ParseM α} (hlive : Live E C upper n ts)
    (hkind : kind ≠ .eof)
    (hsome : ∀ t rest, ts = t :: rest → t.is kind value = true → t.kind ≠ .eof →
      Parsed E (f (some t)) (fun a ws => W a (t.toWord :: ws)) rest)
    (hnone : ∀ t rest, ts = t :: rest → t.is kind value = false → Parsed E (f none) W ts) :
    Parsed E (matchToken kind value >>= f) W ts := by
  cases ts with
  | nil => exact Yields.of_error rfl hlive.nil
  | cons t rest =>
    cases hw : t.is kind value with
    | true =>
      have ht : t.kind ≠ .eof := by
        rw [Word.kind_of_is hw]
        exact hkind
      refine Yields.step ?_ (.inr ht) (hsome t rest rfl hw ht)
      simp only [bind, EStateM.bind, matchToken_cons, hw, if_true]
    | false =>
      refine Yields.look ?_ (hnone t rest rfl hw)
      simp only [bind, EStateM.bind, matchToken_cons, hw, Bool.false_eq_true, if_false]

theorem parsed_pure {a : α} (h : W a []) : Parsed E (pure a : ParseM α) W ts := Yields.pure h

theorem Parsed.mono {p : ParseM α} {W' : α → List Word → Prop} (h : Parsed E p W ts)
    (hW : ∀ a ws, W a ws → W' a ws) : Parsed E p W' ts := Yields.mono h fun a _ ha => hW a _ ha

/-- One production after another. -/
theorem Parsed.seq_words {β : Type} {p : ParseM α} {f : α → ParseM β} {R : β → List Word → Prop}
    (h : Parsed E p W ts) (hlive : Live E C upper n ts)
    (hf : ∀ a ws rest, ts.map Token.toWord = ws ++ rest.map Token.toWord → W a ws →
      Live E C upper n rest → Parsed E (f a) (fun b ws' => R b (ws ++ ws')) rest) :
    Parsed E (p >>= f) R ts := by
  refine Yields.bind h fun a pre rest hts hpre ha => ?_
  subst hts
  have hrest := hf a _ rest (List.map_append ..) ha (hlive.drop hpre)
  refine Yields.mono hrest fun b post hb => ?_
  rwa [List.map_append]

theorem Parsed.seq {β : Type} {p : ParseM α} {f : α → ParseM β} {R : β → List Word → Prop}
    (h : Parsed E p W ts) (hlive : Live E C upper n ts)
    (hf : ∀ a ws rest, W a ws → Live E C upper n rest →
      Parsed E (f a) (fun b ws' => R b (ws ++ ws')) rest) : Parsed E (p >>= f) R ts :=
  h.seq_words hlive fun a ws rest _ => hf a ws rest

theorem parsed_lift {x : Except PyError α} (h : ∀ e, x = .error e → E e) :
    Parsed E (ParseM.lift x) (fun a ws => x = .ok a ∧ ws = []) ts := by
  cases x with
  | ok a => exact Yields.pure ⟨rfl, rfl⟩
  | error e => exact Yields.throw (h e rfl)

theorem parsed_name_words {f : String → ParseM α} (hE : ∀ msg, E (.parseError msg))
    (hlive : Live E C upper n ts)
    (h : ∀ name rest, ts.map Token.toWord = ident name :: rest.map Token.toWord →
      Live E C upper n rest → Parsed E (f name) (fun a ws => W a (ident name :: ws)) rest) :
    Parsed E (expectName C >>= f) W ts := by
  have hname : Parsed E (expectName C) NameSpelled ts := by
    refine parsed_expect hE hlive (by decide) fun t rest _ hw _ => parsed_pure ?_
    obtain ⟨⟨kind, value⟩, pos⟩ := t
    obtain rfl := is_none.mp hw
    rfl
  refine hname.seq_words hlive fun name ws rest hwords hws hrest => ?_
  subst hws
  exact h name rest hwords hrest

theorem parsed_name {f : String → ParseM α} (hE : ∀ msg, E (.parseError msg))
    (hlive : Live E C upper n ts)
    (h : ∀ name rest, Live E C upper n rest →
      Parsed E (f name) (fun a ws => W a (ident name :: ws)) rest) :
    Parsed E (expectName C >>= f) W ts :=
  parsed_name_words hE hlive fun name rest _ => h name rest

end

/-! ## Expressions -/

section
variable {E : PyError → Prop} (hE : ∀ msg, E (.parseError msg)) {C : Conversions}
  {upper : String → String} {n : Nat} {ts : List Token}

section
variable {primary : ParseM Expr}
  (hprimary : ∀ ts, Live E C upper n ts → Parsed E primary (Written C upper .primary) ts)

include hprimary in
theorem parseComparison_parsed (hlive : Live E C upper n ts) :
    Parsed E (parseComparison primary) (Written C upper .comparison) ts := by
  refine (hprimary ts hlive).seq hlive fun left ws rest hleft hrest => ?_
  refine parsed_peek hrest fun t tail hts => ?_
  subst hts
  split
  · rename_i cmp hkind hcmp
    have ht : t.kind ≠ .eof := by
      rw [hkind]
      decide
    refine parsed_advance ht ?_
    refine (hprimary tail (hrest.tail ht)).seq (hrest.tail ht) fun right ws' _ hright _ =>
      parsed_pure ?_
    have hop : t.toWord = op t.value := by
      obtain ⟨⟨kind, value⟩, pos⟩ := t
      obtain rfl : kind = .op := hkind
      rfl
    rw [hop, List.append_nil]
    exact .comparison hcmp hleft hright
  · refine parsed_pure ?_
    rw [List.append_nil]
    exact .lift hleft (by decide)

include hprimary in
theorem parseNot_parsed {m : Nat} (hm : Live E C upper m ts) (hmn : m ≤ n) :
    Parsed E (parseNot primary m) (Written C upper .not) ts := by
  induction m generalizing ts with
  | zero => exact Yields.throw hm.zero
  | succ m ih =>
    refine parsed_match hm (by decide) (fun t rest hts hw ht => ?_) fun _ _ _ _ => ?_
    · subst hts
      have hrest := hm.tail_succ ht
      refine (ih hrest (by omega)).seq hrest fun e ws _ he _ => parsed_pure ?_
      rw [List.append_nil, is_some.mp hw]
      exact .not he
    · exact (parseComparison_parsed hprimary (hm.mono hmn)).mono fun _ _ he => .lift he (by decide)

include hprimary in
theorem andLoop_parsed {m : Nat} {left : Expr} {done : List Word} (hm : Live E C upper m ts)
    (hmn : m ≤ n) (hleft : Written C upper .and left done) :
    Parsed E (andLoop primary n m left) (fun e ws => Written C upper .and e (done ++ ws)) ts := by
  induction m generalizing ts left done with
  | zero => exact Yields.throw hm.zero
  | succ m ih =>
    refine parsed_match hm (by decide) (fun t rest hts hw ht => ?_) fun _ _ _ _ => ?_
    · subst hts
      have hrest := hm.tail_succ ht
      have hright := parseNot_parsed hprimary (hrest.mono (show m ≤ n by omega)) le_rfl
      refine hright.seq hrest fun right ws rest' hright hrest' => ?_
      have hboth : Written C upper .and (.binaryOp .and left right) (done ++ t.toWord :: ws) := by
        rw [is_some.mp hw]
        exact .and hleft hright
      refine (ih hrest' (by omega) hboth).mono fun e ws' he => ?_
      simpa using he
    · exact parsed_pure (by rwa [List.append_nil])

include hprimary in
theorem parseAnd_parsed (hlive : Live E C upper n ts) :
    Parsed E (parseAnd primary n) (Written C upper .and) ts :=
  (parseNot_parsed hprimary hlive le_rfl).seq hlive fun _ _ _ hleft hrest =>
    andLoop_parsed hprimary hrest le_rfl (.lift hleft (by decide))

include hprimary in
theorem orLoop_parsed {m : Nat} {left : Expr} {done : List Word} (hm : Live E C upper m ts)
    (hmn : m ≤ n) (hleft : Written C upper .or left done) :
    Parsed E (orLoop primary n m left) (fun e ws => Written C upper .or e (done ++ ws)) ts := by
  induction m generalizing ts left done with
  | zero => exact Yields.throw hm.zero
  | succ m ih =>
    refine parsed_match hm (by decide) (fun t rest hts hw ht => ?_) fun _ _ _ _ => ?_
    · subst hts
      have hrest := hm.tail_succ ht
      have hright := parseAnd_parsed hprimary (hrest.mono (show m ≤ n by omega))
      refine hright.seq hrest fun right ws rest' hright hrest' => ?_
      have hboth : Written C upper .or (.binaryOp .or left right) (done ++ t.toWord :: ws) := by
        rw [is_some.mp hw]
        exact .or hleft hright
      refine (ih hrest' (by omega) hboth).mono fun e ws' he => ?_
      simpa using he
    · exact parsed_pure (by rwa [List.append_nil])

include hprimary in
theorem parseOr_parsed (hlive : Live E C upper n ts) :
    Parsed E (parseOr primary n) (Written C upper .or) ts :=
  (parseAnd_parsed hprimary hlive).seq hlive fun _ _ _ hleft hrest =>
    orLoop_parsed hprimary hrest le_rfl (.lift hleft (by decide))

end

/-- What the words behind a name and `(` are, up to `)`. -/
def ArgumentWritten (C : Conversions) (upper : String → String) (arg : Expr) (ws : List Word) :
    Prop :=
  Written C upper .or arg ws ∧ (ws.head? = some (op "*") → ws = [op "*"]) ∨
    arg = .star ∧ ∃ inner, Written C upper .or .star inner ∧ inner.head? ≠ some (op "*") ∧
      ws = inner ++ [op "*"]

theorem ArgumentWritten.call {name : String} {arg : Expr} {ws : List Word}
    (h : ArgumentWritten C upper arg ws) :
    Written C upper .primary (.functionCall (upper name) arg)
      (ident name :: op "(" :: ws ++ [op ")"]) := by
  rcases h with ⟨harg, hstar⟩ | ⟨rfl, inner, hinner, hstar, rfl⟩
  · exact .call harg hstar
  · simpa using Written.callStarred hinner hstar

theorem parseArgument_parsed {parseExpr : ParseM Expr}
    (hexpr : ∀ ts, Live E C upper n ts → Parsed E parseExpr (Written C upper .or) ts)
    (hlive : Live E C upper n ts) :
    Parsed E (parseArgument parseExpr) (ArgumentWritten C upper) ts := by
  refine parsed_check hlive fun t rest hts => ?_
  cases hstar : t.is .op (some "*") with
  | true =>
    simp only [if_true, pure_bind]
    refine parsed_match (hts ▸ hlive) (by decide) (fun t' _ heq hw _ => parsed_pure ?_)
      fun t' rest' heq hmiss => ?_
    · rw [is_some.mp hw]
      exact .inl ⟨.lift .star (by decide), fun _ => rfl⟩
    · cases heq
      rw [hstar] at hmiss
      cases hmiss
  | false =>
    simp only [Bool.false_eq_true, if_false]
    rw [← hts]
    -- the argument starts with the token that was looked at
    have hfirst : Parsed E parseExpr
        (fun arg ws => Written C upper .or arg ws ∧ ws.head? ≠ some (op "*")) ts := by
      refine Yields.mono_pre (hexpr ts hlive) fun arg pre rest' hpre harg => ⟨harg, fun hhead => ?_⟩
      cases pre with
      | nil => cases hhead
      | cons t' pre =>
        rw [hts] at hpre
        cases hpre
        rw [List.map_cons, List.head?_cons, Option.some.injEq] at hhead
        rw [is_some.mpr hhead] at hstar
        cases hstar
    refine hfirst.seq hlive fun arg ws rest' harg hrest => ?_
    by_cases hstarred : arg = .star
    · rw [if_pos hstarred]
      subst hstarred
      refine parsed_match hrest (by decide) (fun t' _ _ hw _ => parsed_pure ?_)
        fun _ _ _ _ => parsed_pure ?_
      · rw [is_some.mp hw]
        exact .inr ⟨rfl, ws, harg.1, harg.2, rfl⟩
      · rw [List.append_nil]
        exact .inl ⟨harg.1, fun hhead => absurd hhead harg.2⟩
    · rw [if_neg hstarred]
      refine parsed_pure ?_
      rw [List.append_nil]
      exact .inl ⟨harg.1, fun hhead => absurd hhead harg.2⟩

include hE in
theorem parseNamed_parsed {parseExpr : ParseM Expr} {name : String}
    (hexpr : ∀ ts, Live E C upper n ts → Parsed E parseExpr (Written C upper .or) ts)
    (hlive : Live E C upper n ts) :
    Parsed E (parseNamed C upper parseExpr name)
      (fun e ws => Written C upper .primary e (ident name :: ws)) ts := by
  refine parsed_check hlive fun t rest hts => ?_
  subst hts
  cases hparen : t.is .op (some "(") with
  | true =>
    have hop := is_some.mp hparen
    have ht : t.kind ≠ .eof := by
      rw [show t.kind = t.toWord.kind from rfl, hop]
      decide
    refine parsed_advance ht ?_
    refine (parseArgument_parsed hexpr (hlive.tail ht)).seq (hlive.tail ht) fun arg ws _ harg hrest => ?_
    refine parsed_expect hE hrest (by decide) fun t' _ _ hclose _ => parsed_pure ?_
    rw [hop, is_some.mp hclose]
    exact harg.call
  | false =>
    refine parsed_match hlive (by decide) (fun t' rest' heq hw ht => ?_) fun _ _ _ _ => ?_
    · cases heq
      refine parsed_name hE (hlive.tail ht) fun column _ _ => parsed_pure ?_
      rw [is_some.mp hw]
      exact .qualified name column
    · exact parsed_pure (.column name)

include hE in
theorem parsePrimary_parsed (n : Nat) {ts : List Token} (hlive : Live E C upper n ts) :
    Parsed E (parsePrimary C upper n) (Written C upper .primary) ts := by
  induction n generalizing ts with
  | zero => exact Yields.throw hlive.zero
  | succ n ih =>
    have hexpr : ∀ ts, Live E C upper n ts →
        Parsed E (parseOr (parsePrimary C upper n) n) (Written C upper .or) ts :=
      fun ts hlive => parseOr_parsed (fun ts hlive => ih hlive) hlive
    refine parsed_peek hlive fun t rest hts => ?_
    subst hts
    have htoken : ∀ {e : Expr} {w : Word}, t.toWord = w → w.kind ≠ .eof →
        Written C upper .primary e [w] →
        Parsed E (do let _ ← advance; return e) (Written C upper .primary) (t :: rest) := by
      rintro e _ rfl ht he
      exact parsed_advance ht (parsed_pure he)
    have hword : ∀ {kind}, t.kind = kind → t.toWord = ⟨kind, t.value⟩ := by
      rintro kind rfl
      rfl
    by_cases hminus : t.is .op (some "-") = true
    · rw [if_pos hminus]
      have hop := is_some.mp hminus
      have ht : t.kind ≠ .eof := by
        rw [show t.kind = t.toWord.kind from rfl, hop]
        decide
      refine parsed_advance ht ?_
      have hrest := hlive.tail_succ ht
      refine (ih hrest).seq hrest fun operand ws _ hoperand _ => ?_
      split
      · rename_i value hneg
        refine parsed_pure ?_
        rw [List.append_nil, hop]
        exact .negative hoperand hneg
      · exact Yields.throw (hE _)
    rw [if_neg hminus]
    by_cases hnumber : t.kind = .number
    · rw [if_pos hnumber]
      have ht : t.kind ≠ .eof := by
        rw [hnumber]
        decide
      refine parsed_advance ht ?_
      have hvalue : Parsed E (ParseM.lift (numberValue C t.value))
          (fun a ws => numberValue C t.value = .ok a ∧ ws = []) rest :=
        parsed_lift (hlive.numbers t (List.mem_cons_self ..) hnumber)
      refine hvalue.seq (hlive.tail ht) fun value ws _ hvalue _ => parsed_pure ?_
      obtain ⟨hvalue, rfl⟩ := hvalue
      rw [hword hnumber]
      exact .number hvalue
    rw [if_neg hnumber]
    by_cases hstring : t.kind = .string
    · rw [if_pos hstring]
      exact htoken (hword hstring) nofun (.string t.value)
    rw [if_neg hstring]
    by_cases htrue : t.is .keyword (some "TRUE") = true
    · rw [if_pos htrue]
      exact htoken (is_some.mp htrue) (by decide) .true
    rw [if_neg htrue]
    by_cases hfalse : t.is .keyword (some "FALSE") = true
    · rw [if_pos hfalse]
      exact htoken (is_some.mp hfalse) (by decide) .false
    rw [if_neg hfalse]
    by_cases hnull : t.is .keyword (some "NULL") = true
    · rw [if_pos hnull]
      exact htoken (is_some.mp hnull) (by decide) .null
    rw [if_neg hnull]
    by_cases hopen : t.is .op (some "(") = true
    · rw [if_pos hopen]
      have hop := is_some.mp hopen
      have ht : t.kind ≠ .eof := by
        rw [show t.kind = t.toWord.kind from rfl, hop]
        decide
      refine parsed_advance ht ?_
      have hrest := hlive.tail_succ ht
      refine (hexpr rest hrest).seq hrest fun inner ws _ hinner hrest' => ?_
      refine parsed_expect hE hrest' (by decide) fun t' _ _ hclose _ => parsed_pure ?_
      rw [hop, is_some.mp hclose]
      exact .parens hinner
    rw [if_neg hopen]
    by_cases hstar : t.is .op (some "*") = true
    · rw [if_pos hstar]
      exact htoken (is_some.mp hstar) (by decide) .star
    rw [if_neg hstar]
    by_cases hident : t.kind = .ident
    · rw [if_pos hident]
      have ht : t.kind ≠ .eof := by
        rw [hident]
        decide
      refine parsed_advance ht ?_
      rw [hword hident]
      exact parseNamed_parsed hE hexpr (hlive.tail_succ ht)
    · rw [if_neg hident]
      exact Yields.throw (hE _)

include hE in
theorem parseExpr_parsed (hlive : Live E C upper n ts) :
    Parsed E (parseExpr C upper n) (Written C upper .or) ts :=
  parseOr_parsed (fun _ hlive => parsePrimary_parsed hE n hlive) hlive

/-! ## Lists with commas -/

section
variable {α : Type} {W : α → List Word → Prop} {item : ParseM α}
  (hitem : ∀ ts, Live E C upper n ts → Parsed E item W ts)

include hitem in
theorem commaLoop_parsed {m : Nat} {items : List α} {done : List Word} (hm : Live E C upper m ts)
    (hmn : m ≤ n) (hdone : CommaSpelled W items done) :
    Parsed E (commaLoop item m items) (fun items ws => CommaSpelled W items (done ++ ws)) ts := by
  induction m generalizing ts items done with
  | zero => exact Yields.throw hm.zero
  | succ m ih =>
    refine parsed_match hm (by decide) (fun t rest hts hw ht => ?_) fun _ _ _ _ => ?_
    · subst hts
      have hrest := hm.tail_succ ht
      refine (hitem rest (hrest.mono (by omega))).seq hrest fun a ws rest' ha hrest' => ?_
      have hmore : CommaSpelled W (items ++ [a]) (done ++ t.toWord :: ws) := by
        rw [is_some.mp hw]
        exact .snoc hdone ha
      refine (ih hrest' (by omega) hmore).mono fun items ws' hitems => ?_
      simpa using hitems
    · exact parsed_pure (by rwa [List.append_nil])

include hitem in
theorem commaList_parsed (hlive : Live E C upper n ts) :
    Parsed E (commaList item n) (CommaSpelled W) ts :=
  (hitem ts hlive).seq hlive fun _ _ _ ha hrest =>
    commaLoop_parsed hitem hrest le_rfl (.single ha)

include hE hitem in
/-- A list behind `(`. -/
theorem rowTail_parsed (hlive : Live E C upper n ts) :
    Parsed E (do
      let items ← commaList item n
      let _ ← expect C .op ")"
      return items) (fun items ws => RowSpelled W items (op "(" :: ws)) ts := by
  refine (commaList_parsed hitem hlive).seq hlive fun items ws rest hitems hrest => ?_
  refine parsed_expect hE hrest (by decide) fun t _ _ hclose _ => parsed_pure ?_
  rw [is_some.mp hclose]
  exact ⟨ws, hitems, rfl⟩

end

include hE in
theorem expectName_parsed (hlive : Live E C upper n ts) :
    Parsed E (expectName C) NameSpelled ts := by
  have h := parsed_name hE hlive (f := fun name => (pure name : ParseM String))
    (W := NameSpelled) fun name _ _ => parsed_pure rfl
  rwa [bind_pure] at h

/-! ## Clauses -/

theorem clause_parsed {α : Type} {name : String} {keywords : List Word} {absent : α}
    {body : ParseM α} {W : α → List Word → Prop} (hlive : Live E C upper n ts)
    (hbody : ∀ rest, Live E C upper n rest → Parsed E body
      (fun a ws => ∃ inner, W a inner ∧ keyword name :: ws = keywords ++ inner) rest) :
    Parsed E (clause name absent body) (ClauseSpelled keywords absent W) ts := by
  refine parsed_match hlive (by decide) (fun t rest hts hw ht => ?_) fun _ _ _ _ =>
    parsed_pure (.inl ⟨rfl, rfl⟩)
  subst hts
  rw [is_some.mp hw]
  exact (hbody rest (hlive.tail ht)).mono fun a ws ha => .inr ha

include hE in
theorem optionalAlias_parsed (hlive : Live E C upper n ts) :
    Parsed E (parseOptionalAlias C) AliasSpelled ts := by
  refine parsed_match hlive (by decide) (fun t rest hts hw ht => ?_) fun _ _ _ _ => ?_
  · subst hts
    refine parsed_name hE (hlive.tail ht) fun name _ _ => parsed_pure (.inl ?_)
    rw [is_some.mp hw]
  · refine parsed_check hlive fun t rest hts => ?_
    subst hts
    cases hident : t.is .ident none with
    | true =>
      have hkind := is_none.mp hident
      have ht : t.kind ≠ .eof := by
        rw [hkind]
        decide
      refine parsed_advance ht (parsed_pure (.inr ?_))
      obtain ⟨⟨kind, value⟩, pos⟩ := t
      obtain rfl : kind = .ident := hkind
      rfl
    | false => exact parsed_pure rfl

include hE in
theorem where_parsed (hlive : Live E C upper n ts) :
    Parsed E (parseWhere C upper n) (WhereWritten C upper) ts := by
  refine clause_parsed hlive fun rest hrest => ?_
  refine (parseExpr_parsed hE hrest).seq hrest fun e ws _ he _ => parsed_pure ?_
  rw [List.append_nil]
  exact ⟨ws, ⟨e, rfl, he⟩, rfl⟩

include hE in
theorem join_parsed (hlive : Live E C upper n ts) :
    Parsed E (parseJoin C upper n) (JoinWritten C upper) ts := by
  refine clause_parsed hlive fun rest hrest => parsed_name hE hrest fun table rest₁ hrest₁ => ?_
  refine (optionalAlias_parsed hE hrest₁).seq hrest₁ fun alias_ ws₁ rest₂ halias hrest₂ => ?_
  refine parsed_expect hE hrest₂ (by decide) fun t rest₃ _ hon hrest₃ => ?_
  refine (parseExpr_parsed hE hrest₃).seq hrest₃ fun e ws₂ _ he _ => parsed_pure ?_
  rw [List.append_nil, is_some.mp hon]
  exact ⟨_, ⟨_, ws₁, ws₂, rfl, halias, he, rfl⟩, rfl⟩

include hE in
theorem groupBy_parsed (hlive : Live E C upper n ts) :
    Parsed E (parseGroupBy C n) GroupBySpelled ts := by
  refine clause_parsed hlive fun rest hrest => parsed_expect hE hrest (by decide)
    fun t rest₁ _ hby hrest₁ => ?_
  refine (commaList_parsed (fun ts hlive => expectName_parsed hE hlive) hrest₁).mono
    fun names ws hnames => ?_
  rw [is_some.mp hby]
  exact ⟨ws, hnames, rfl⟩

include hE in
theorem orderItem_parsed (hlive : Live E C upper n ts) :
    Parsed E (parseOrderItem C upper n) (OrderItemWritten C upper) ts := by
  refine (parseExpr_parsed hE hlive).seq hlive fun e ws rest he hrest => ?_
  refine parsed_match hrest (by decide) (fun t _ _ hdesc _ => parsed_pure ?_) fun _ _ _ _ => ?_
  · rw [is_some.mp hdesc]
    exact ⟨ws, _, he, rfl, rfl⟩
  · refine parsed_match hrest (by decide) (fun t _ _ hasc _ => parsed_pure ?_)
      fun _ _ _ _ => parsed_pure ?_
    · rw [is_some.mp hasc]
      exact ⟨ws, _, he, rfl, .inr rfl⟩
    · exact ⟨ws, [], he, rfl, .inl rfl⟩

include hE in
theorem orderBy_parsed (hlive : Live E C upper n ts) :
    Parsed E (parseOrderBy C upper n) (OrderByWritten C upper) ts := by
  refine clause_parsed hlive fun rest hrest => parsed_expect hE hrest (by decide)
    fun t rest₁ _ hby hrest₁ => ?_
  refine (commaList_parsed (fun ts hlive => orderItem_parsed hE hlive) hrest₁).mono
    fun items ws hitems => ?_
  rw [is_some.mp hby]
  exact ⟨ws, hitems, rfl⟩

include hE in
/-- The one conversion whose text the production has not checked is that of the number
    behind LIMIT. -/
theorem limit_parsed (hlive : Live E C upper n ts)
    (hint : ∀ text rest e, ts.map Token.toWord = keyword "LIMIT" :: number text :: rest →
      C.intOfStr text = .error e → E e) :
    Parsed E (parseLimit C) (LimitSpelled (Numerals.read C)) ts := by
  refine parsed_match hlive (by decide) (fun t rest hts hw ht => ?_) fun _ _ _ _ =>
    parsed_pure (.inl ⟨rfl, rfl⟩)
  subst hts
  refine parsed_expect hE (hlive.tail ht) (by decide) fun t' rest' hrest hnumber hlive' => ?_
  have hword : t'.toWord = number t'.value := by
    obtain ⟨⟨kind, value⟩, pos⟩ := t'
    obtain rfl := is_none.mp hnumber
    rfl
  have hvalue : Parsed E (ParseM.lift (C.intOfStr t'.value))
      (fun i ws => C.intOfStr t'.value = .ok i ∧ ws = []) rest' := by
    refine parsed_lift fun e he => hint t'.value (rest'.map Token.toWord) e ?_ he
    rw [hrest, List.map_cons, List.map_cons, is_some.mp hw, hword]
  refine hvalue.seq hlive' fun i ws _ hi _ => parsed_pure (.inr ?_)
  obtain ⟨hi, rfl⟩ := hi
  rw [is_some.mp hw, hword]
  exact ⟨_, ⟨i.toNat, t'.value, rfl, ⟨i, hi, rfl⟩, rfl⟩, rfl⟩

/-! ## Statements -/

include hE in
theorem selectItem_parsed (hlive : Live E C upper n ts) :
    Parsed E (parseSelectItem C upper n) (ItemWritten C upper) ts := by
  refine (parseExpr_parsed hE hlive).seq hlive fun e ws rest he hrest => ?_
  refine parsed_match hrest (by decide) (fun t rest' hts has ht => ?_) fun _ _ _ _ => parsed_pure ?_
  · subst hts
    refine parsed_name hE (hrest.tail ht) fun name _ _ => parsed_pure ?_
    rw [is_some.mp has]
    exact ⟨ws, he, rfl⟩
  · exact ⟨ws, he, rfl⟩

include hE in
theorem selectItems_parsed (hlive : Live E C upper n ts) :
    Parsed E (parseSelectItems C upper n) (ItemsWritten C upper) ts := by
  refine parsed_match hlive (by decide) (fun t rest _ hstar _ => parsed_pure ?_)
    fun t rest hts hmiss => ?_
  · rw [is_some.mp hstar]
    exact .inl ⟨rfl, rfl⟩
  · refine Yields.mono_pre (commaList_parsed (fun ts hlive => selectItem_parsed hE hlive) hlive)
      fun items pre rest' hpre hitems => .inr ⟨hitems, fun hhead => ?_⟩
    -- the list starts with the token that was looked at
    cases pre with
    | nil => cases hhead
    | cons t' pre =>
      rw [hts] at hpre
      cases hpre
      rw [List.map_cons, List.head?_cons, Option.some.injEq] at hhead
      rw [is_some.mpr hhead] at hmiss
      cases hmiss

include hE in
theorem select_parsed (hlive : Live E C upper n ts)
    (hint : ∀ stmt head text rest e,
      ts.map Token.toWord = head ++ keyword "LIMIT" :: number text :: rest →
      HeadWritten C upper stmt head → C.intOfStr text = .error e → E e) :
    Parsed E (parseSelect C upper n) (fun stmt => StatementWritten C upper (.select stmt)) ts := by
  refine parsed_expect hE hlive (by decide) fun t₁ rest₁ hts₁ hselect hlive₁ => ?_
  refine (selectItems_parsed hE hlive₁).seq_words hlive₁
    fun items ws₁ rest₂ hwords₂ hitems hlive₂ => ?_
  refine parsed_expect hE hlive₂ (by decide) fun t₂ rest₃ hts₃ hfrom hlive₃ => ?_
  refine parsed_name_words hE hlive₃ fun table rest₄ hwords₄ hlive₄ => ?_
  refine (optionalAlias_parsed hE hlive₄).seq_words hlive₄
    fun tableAlias ws₂ rest₅ hwords₅ halias hlive₅ => ?_
  refine (join_parsed hE hlive₅).seq_words hlive₅ fun join ws₃ rest₆ hwords₆ hjoin hlive₆ => ?_
  refine (where_parsed hE hlive₆).seq_words hlive₆ fun where_ ws₄ rest₇ hwords₇ hwhere hlive₇ => ?_
  refine (groupBy_parsed hE hlive₇).seq_words hlive₇
    fun groupBy ws₅ rest₈ hwords₈ hgroup hlive₈ => ?_
  refine (orderBy_parsed hE hlive₈).seq_words hlive₈
    fun orderBy ws₆ rest₉ hwords₉ horder hlive₉ => ?_
  have hhead : ∀ limit, HeadWritten C upper
      ⟨items, table, tableAlias, join, where_, groupBy, orderBy, limit⟩
      (keyword "SELECT" :: ws₁ ++ keyword "FROM" :: ident table :: ws₂ ++ ws₃ ++ ws₄ ++ ws₅ ++ ws₆) :=
    fun _ => ⟨ws₁, ws₂, ws₃, ws₄, ws₅, ws₆, hitems, halias, hjoin, hwhere, hgroup, horder, rfl⟩
  have hread : Parsed E (parseLimit C) (LimitSpelled (Numerals.read C)) rest₉ := by
    refine limit_parsed hE hlive₉ fun text rest e hwords he => ?_
    refine hint _ _ text rest e ?_ (hhead none) he
    rw [hts₁, List.map_cons, hwords₂, hts₃, List.map_cons, hwords₄, hwords₅, hwords₆, hwords₇,
      hwords₈, hwords₉, hwords, is_some.mp hselect, is_some.mp hfrom]
    simp only [List.append_assoc, List.cons_append]
  refine hread.seq hlive₉ fun limit ws₇ _ hlimit _ => parsed_pure ?_
  have hwritten := StatementWritten.select (hhead limit) hlimit
  rw [is_some.mp hselect, is_some.mp hfrom]
  simpa only [List.append_assoc, List.cons_append, List.append_nil] using hwritten

include hE in
theorem columnDef_parsed (hlive : Live E C upper n ts) :
    Parsed E (parseColumnDef C upper) (ColumnWritten upper) ts := by
  refine parsed_name hE hlive fun name rest hrest => ?_
  cases rest with
  | nil => exact Yields.of_error rfl hrest.nil
  | cons t rest =>
    by_cases ht : t.kind = .eof
    · -- the token is taken off unseen
      rcases hrest.ends with hlax | ⟨hends, -⟩
      · refine Yields.step rfl (.inl hlax) ?_
        split
        · rename_i type htype
          have hcol : ColumnWritten upper ⟨name, type⟩ [ident name, t.toWord] :=
            ⟨t.toWord, htype, rfl⟩
          exact Yields.pure hcol
        · exact Yields.throw (hE _)
      · have hnone := (hends.eof ht).2
        have herror := hE s!"unknown column type {C.reprOfStr t.value} at position {t.pos}"
        refine Yields.of_error (?_ : _ = EStateM.Result.error _ rest) herror
        rw [run_bind_ok (advance_cons t rest), hnone]
        exact run_throw
    · refine parsed_advance ht ?_
      split
      · rename_i type htype
        exact parsed_pure ⟨t.toWord, htype, rfl⟩
      · exact Yields.throw (hE _)

include hE in
theorem createTable_parsed (hlive : Live E C upper n ts) :
    Parsed E (parseCreateTable C upper n) (fun stmt ws =>
      ∃ table columns ws', stmt = .createTable table columns ∧
        RowSpelled (ColumnWritten upper) columns ws' ∧ ws = ident table :: ws') ts := by
  refine parsed_name hE hlive fun table rest₁ hlive₁ => ?_
  refine parsed_expect hE hlive₁ (by decide) fun t rest₂ _ hopen hlive₂ => ?_
  refine (commaList_parsed (fun ts hlive => columnDef_parsed hE hlive) hlive₂).seq hlive₂
    fun columns ws rest₃ hcolumns hlive₃ => ?_
  refine parsed_expect hE hlive₃ (by decide) fun t' _ _ hclose _ => parsed_pure ?_
  rw [is_some.mp hopen, is_some.mp hclose]
  exact ⟨table, columns, _, rfl, ⟨ws, hcolumns, rfl⟩, rfl⟩

include hE in
theorem createIndex_parsed {unique : Bool} (hlive : Live E C upper n ts) :
    Parsed E (parseCreateIndex C unique) (fun stmt ws =>
      ∃ indexName table column, stmt = .createIndex indexName table column unique ∧
        ws = [keyword "INDEX", ident indexName, keyword "ON", ident table, op "(", ident column,
          op ")"]) ts := by
  refine parsed_expect hE hlive (by decide) fun t₁ _ _ hindex hlive₁ => ?_
  refine parsed_name hE hlive₁ fun indexName _ hlive₂ => ?_
  refine parsed_expect hE hlive₂ (by decide) fun t₂ _ _ hon hlive₃ => ?_
  refine parsed_name hE hlive₃ fun table _ hlive₄ => ?_
  refine parsed_expect hE hlive₄ (by decide) fun t₃ _ _ hopen hlive₅ => ?_
  refine parsed_name hE hlive₅ fun column _ hlive₆ => ?_
  refine parsed_expect hE hlive₆ (by decide) fun t₄ _ _ hclose _ => parsed_pure ?_
  rw [is_some.mp hindex, is_some.mp hon, is_some.mp hopen, is_some.mp hclose]
  exact ⟨indexName, table, column, rfl, rfl⟩

include hE in
theorem create_parsed (hlive : Live E C upper n ts) :
    Parsed E (parseCreate C upper n)
      (fun stmt => StatementWritten C upper (.statement stmt)) ts := by
  have hbody : ∀ (unique : Bool) rest (f : Option Token → ParseM Statement), Live E C upper n rest →
      (∀ t, f (some t) = parseCreateTable C upper n) → f none = parseCreateIndex C unique →
      Parsed E (matchToken .keyword "TABLE" >>= f)
        (fun stmt ws => StatementWritten C upper (.statement stmt)
          (keyword "CREATE" :: (if unique then [keyword "UNIQUE"] else []) ++ ws)) rest := by
    intro unique rest f hrest hcreateTable hcreateIndex
    refine parsed_match hrest (by decide) (fun t rest' hts htable ht => ?_) fun _ _ _ _ => ?_
    · subst hts
      rw [hcreateTable]
      refine (createTable_parsed hE (hrest.tail ht)).mono fun stmt ws hstmt => ?_
      obtain ⟨table, columns, ws', rfl, hcolumns, rfl⟩ := hstmt
      rw [is_some.mp htable]
      exact .createTable unique hcolumns
    · rw [hcreateIndex]
      refine (createIndex_parsed hE hrest).mono fun stmt ws hstmt => ?_
      obtain ⟨indexName, table, column, rfl, rfl⟩ := hstmt
      exact .createIndex indexName table column unique
  refine parsed_expect hE hlive (by decide) fun t₁ rest _ hcreate hrest => ?_
  refine parsed_match hrest (by decide) (fun t₂ rest' hts hunique ht => ?_) fun _ _ _ _ => ?_
  · subst hts
    rw [is_some.mp hcreate, is_some.mp hunique]
    exact hbody true rest' _ (hrest.tail ht) (fun _ => rfl) rfl
  · rw [is_some.mp hcreate]
    exact hbody false rest _ hrest (fun _ => rfl) rfl

include hE in
theorem valueRow_parsed (hlive : Live E C upper n ts) :
    Parsed E (parseValueRow C upper n) (RowSpelled (Written C upper .or)) ts := by
  refine parsed_expect hE hlive (by decide) fun t rest _ hopen hrest => ?_
  rw [is_some.mp hopen]
  exact rowTail_parsed hE (fun ts hlive => parseExpr_parsed hE hlive) hrest

include hE in
theorem insertColumns_parsed (hlive : Live E C upper n ts) :
    Parsed E (parseInsertColumns C n) InsertColumnsSpelled ts := by
  refine parsed_match hlive (by decide) (fun t rest hts hopen ht => ?_) fun _ _ _ _ =>
    parsed_pure rfl
  subst hts
  have hrest := hlive.tail ht
  refine (commaList_parsed (fun ts hlive => expectName_parsed hE hlive) hrest).seq hrest
    fun names ws rest' hnames hrest' => ?_
  refine parsed_expect hE hrest' (by decide) fun t' _ _ hclose _ => parsed_pure ?_
  rw [is_some.mp hopen, is_some.mp hclose]
  exact ⟨ws, hnames, rfl⟩

include hE in
theorem insert_parsed (hlive : Live E C upper n ts) :
    Parsed E (parseInsert C upper n)
      (fun stmt => StatementWritten C upper (.statement stmt)) ts := by
  refine parsed_expect hE hlive (by decide) fun t₁ _ _ hinsert hlive₁ => ?_
  refine parsed_expect hE hlive₁ (by decide) fun t₂ _ _ hinto hlive₂ => ?_
  refine parsed_name hE hlive₂ fun table _ hlive₃ => ?_
  refine (insertColumns_parsed hE hlive₃).seq hlive₃ fun columns ws₁ _ hcolumns hlive₄ => ?_
  refine parsed_expect hE hlive₄ (by decide) fun t₃ _ _ hvalues hlive₅ => ?_
  refine (commaList_parsed (fun ts hlive => valueRow_parsed hE hlive) hlive₅).seq hlive₅
    fun rows ws₂ _ hrows _ => parsed_pure ?_
  rw [is_some.mp hinsert, is_some.mp hinto, is_some.mp hvalues, List.append_nil]
  exact .insert hcolumns hrows

include hE in
theorem assignment_parsed (hlive : Live E C upper n ts) :
    Parsed E (parseAssignment C upper n) (AssignmentWritten C upper) ts := by
  refine parsed_name hE hlive fun name _ hlive₁ => ?_
  refine parsed_expect hE hlive₁ (by decide) fun t _ _ heq hlive₂ => ?_
  refine (parseExpr_parsed hE hlive₂).seq hlive₂ fun e ws _ he _ => parsed_pure ?_
  rw [is_some.mp heq, List.append_nil]
  exact ⟨ws, he, rfl⟩

include hE in
theorem update_parsed (hlive : Live E C upper n ts) :
    Parsed E (parseUpdate C upper n)
      (fun stmt => StatementWritten C upper (.statement stmt)) ts := by
  refine parsed_expect hE hlive (by decide) fun t₁ _ _ hupdate hlive₁ => ?_
  refine parsed_name hE hlive₁ fun table _ hlive₂ => ?_
  refine parsed_expect hE hlive₂ (by decide) fun t₂ _ _ hset hlive₃ => ?_
  refine (commaList_parsed (fun ts hlive => assignment_parsed hE hlive) hlive₃).seq hlive₃
    fun assignments ws₁ _ hassignments hlive₄ => ?_
  refine (where_parsed hE hlive₄).seq hlive₄ fun where_ ws₂ _ hwhere _ => parsed_pure ?_
  rw [is_some.mp hupdate, is_some.mp hset, List.append_nil]
  exact .update hassignments hwhere

include hE in
theorem delete_parsed (hlive : Live E C upper n ts) :
    Parsed E (parseDelete C upper n)
      (fun stmt => StatementWritten C upper (.statement stmt)) ts := by
  refine parsed_expect hE hlive (by decide) fun t₁ _ _ hdelete hlive₁ => ?_
  refine parsed_expect hE hlive₁ (by decide) fun t₂ _ _ hfrom hlive₂ => ?_
  refine parsed_name hE hlive₂ fun table _ hlive₃ => ?_
  refine (where_parsed hE hlive₃).seq hlive₃ fun where_ ws _ hwhere _ => parsed_pure ?_
  rw [is_some.mp hdelete, is_some.mp hfrom, List.append_nil]
  exact .delete hwhere

include hE in
theorem any_parsed (hlive : Live E C upper n ts)
    (hint : ∀ stmt head text rest e,
      ts.map Token.toWord = head ++ keyword "LIMIT" :: number text :: rest →
      HeadWritten C upper stmt head → C.intOfStr text = .error e → E e) :
    Parsed E (parseAny C upper n) (StatementWritten C upper) ts := by
  have hinto : ∀ {p : ParseM Statement},
      Parsed E p (fun stmt => StatementWritten C upper (.statement stmt)) ts →
      Parsed E (AnyStatement.statement <$> p) (StatementWritten C upper) ts := by
    intro p h
    rw [map_eq_pure_bind]
    refine h.seq hlive fun stmt ws _ hstmt _ => parsed_pure ?_
    rwa [List.append_nil]
  refine parsed_ite hlive (hinto (create_parsed hE hlive)) ?_
  refine parsed_ite hlive (hinto (insert_parsed hE hlive)) ?_
  refine parsed_ite hlive ?_ ?_
  · rw [map_eq_pure_bind]
    refine (select_parsed hE hlive hint).seq hlive fun stmt ws _ hstmt _ => parsed_pure ?_
    rwa [List.append_nil]
  refine parsed_ite hlive (hinto (update_parsed hE hlive)) ?_
  refine parsed_ite hlive (hinto (delete_parsed hE hlive)) ?_
  exact parsed_peek hlive fun _ _ _ => Yields.throw (hE _)

end

/-! ## The whole text -/

/-- The tokens end with the only EOF, as the tokenizer makes them. -/
def EndsOnce (tokens : List Token) : Prop :=
  ∃ body eof, tokens = body ++ [eof] ∧ ∀ t ∈ body, t.kind ≠ .eof

theorem EofEnds.endsOnce {upper : String → String} {tokens : List Token} (h : EofEnds upper tokens) :
    EndsOnce tokens := by
  obtain ⟨body, eof, heq, hbody, -⟩ := h
  exact ⟨body, eof, heq, hbody⟩

/-- After the EOF there is nothing. -/
theorem EndsOnce.eq_nil {tokens pre rest : List Token} {eof : Token} (h : EndsOnce tokens)
    (heq : tokens = pre ++ eof :: rest) (heof : eof.kind = .eof) : rest = [] := by
  obtain ⟨init, last, hinit, honly⟩ := h
  rcases List.eq_nil_or_concat' rest with rfl | ⟨rest, t, rfl⟩
  · rfl
  · rw [heq, ← List.cons_append, ← List.append_assoc] at hinit
    have hbody := (List.append_inj' hinit rfl).1
    exact absurd heof (honly eof (by rw [← hbody]; simp))

section
variable {E : PyError → Prop} {C : Conversions} {upper : String → String} {tokens : List Token}

/-- The parser accepts a text and returns what it is, or it raises an error that is let
    pass. -/
theorem parseStatement_cases (hE : ∀ msg, E (.parseError msg)) (hends : EndsOnce tokens)
    (hlive : Live E C upper tokens.length tokens)
    (hint : ∀ stmt head text rest e,
      tokens.map Token.toWord = head ++ keyword "LIMIT" :: number text :: rest →
      HeadWritten C upper stmt head → C.intOfStr text = .error e → E e) :
    (∃ stmt, parseStatement C upper tokens = .ok stmt ∧
      TextWritten C upper stmt (tokens.map Token.toWord)) ∨
    ∃ e, parseStatement C upper tokens = .error e ∧ E e := by
  -- what is done when the statement and the semicolon have been read
  have hfinish : ∀ {rest : List Token} {stmt : AnyStatement} {pre : List Token}
      {body semicolon : List Word}, tokens = pre ++ rest → Live E C upper tokens.length rest →
      StatementWritten C upper stmt body → (semicolon = [] ∨ semicolon = [op ";"]) →
      pre.map Token.toWord = body ++ semicolon →
      wp (do
        let _ ← expect C .eof
        return stmt : ParseM AnyStatement)
        (fun stmt _ => TextWritten C upper stmt (tokens.map Token.toWord)) (fun e _ => E e) rest := by
    intro rest stmt pre body semicolon hts hrest hstmt hsemicolon hpre
    cases rest with
    | nil => exact wp_bind.mpr ((wp_of_error expect_nil).mpr hrest.nil)
    | cons t rest =>
      cases hw : t.is .eof none with
      | true =>
        refine wp_bind.mpr ((wp_of_ok (expect_hit hw)).mpr ?_)
        have heof := is_none.mp hw
        obtain rfl := hends.eq_nil hts heof
        refine ⟨body, semicolon, t.toWord, hstmt, hsemicolon, heof, ?_⟩
        rw [hts, List.map_append, hpre]
        rfl
      | false =>
        obtain ⟨msg, hmsg⟩ := expect_miss hw
        exact wp_bind.mpr ((wp_of_error hmsg).mpr (hE msg))
  have hall : wp (do
      let stmt ← parseAny C upper tokens.length
      let _ ← matchToken .op ";"
      let _ ← expect C .eof
      return stmt : ParseM AnyStatement)
      (fun stmt _ => TextWritten C upper stmt (tokens.map Token.toWord)) (fun e _ => E e) tokens := by
    refine wp.bind (any_parsed hE hlive hint) (fun stmt rest ⟨pre, hts, htaken, hstmt⟩ => ?_)
      fun _ _ he => he
    have hrest : Live E C upper tokens.length rest := by
      rw [hts] at hlive ⊢
      exact hlive.drop htaken
    cases rest with
    | nil => exact wp_bind.mpr ((wp_of_error matchToken_nil).mpr hrest.nil)
    | cons t rest =>
      refine wp_bind.mpr ?_
      cases hw : t.is .op (some ";") with
      | true =>
        refine (wp_of_ok (by rw [matchToken_cons, if_pos hw])).mpr ?_
        have ht : t.kind ≠ .eof := by
          rw [Word.kind_of_is hw]
          decide
        have hpre : (pre ++ [t]).map Token.toWord = pre.map Token.toWord ++ [op ";"] := by
          rw [List.map_append, List.map_singleton, is_some.mp hw]
        exact hfinish (by rw [hts, List.append_assoc]; rfl) (hrest.tail ht) hstmt (.inr rfl) hpre
      | false =>
        refine (wp_of_ok (by rw [matchToken_cons, hw]; rfl)).mpr ?_
        exact hfinish hts hrest hstmt (.inl rfl) (List.append_nil _).symm
  unfold parseStatement
  split
  · rename_i stmt rest hrun
    exact .inl ⟨stmt, rfl, hall.ok hrun⟩
  · rename_i e rest hrun
    exact .inr ⟨e, rfl, hall.error hrun⟩

/-- What the parser accepts is a text of the grammar. -/
theorem parseStatement_written {stmt : AnyStatement} (hends : EndsOnce tokens)
    (h : parseStatement C upper tokens = .ok stmt) :
    TextWritten C upper stmt (tokens.map Token.toWord) := by
  rcases parseStatement_cases (fun _ => trivial) hends live_true fun _ _ _ _ _ _ _ _ => trivial with
    ⟨stmt', hstmt', hwritten⟩ | ⟨e, he, -⟩
  · rw [h] at hstmt'
    cases hstmt'
    exact hwritten
  · rw [h] at he
    cases he

end

end Minirel
