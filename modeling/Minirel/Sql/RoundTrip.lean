-- SUMMARY: The parser reads back every statement that can be written.
import Minirel.Sql.Completeness

/-!
# The round trip

What a statement is written as belongs to the grammar of accepted texts, so the parser reads
it back.
-/

namespace Minirel

open Word

/-! ## Expressions -/

section
variable {C : Conversions} {upper : String → String} {style : Style}

theorem Misses.head_ne {kind : TokenKind} {value : String} {ws : List Word}
    (h : Misses kind (some value) ws) : ws.head? ≠ some ⟨kind, value⟩ := by
  obtain ⟨w, tail, rfl, hw⟩ := h.exists_cons
  intro hhead
  rw [List.head?_cons, Option.some.injEq] at hhead
  exact absurd (is_some.mpr hhead) (Bool.eq_false_iff.mp hw)

theorem parenthesize_misses_star {own outer : Precedence} {ws : List Word}
    (h : Misses .op (some "*") ws) : Misses .op (some "*") (parenthesize outer own ws) := by
  unfold Minirel.parenthesize
  split
  · exact h
  · rfl

/-- A `*` stands only behind the name of a function. -/
theorem Expr.misses_star {e : Expr} (h : e.Writable C upper) :
    Misses .op (some "*") (e.words style) := by
  induction e with
  | literal value =>
    cases value with
    | none => rfl
    | bool b => cases b <;> rfl
    | int i =>
      simp only [Expr.words, Value.words]
      split <;> rfl
    | float x => exact h.elim
    | str s => rfl
  | columnRef name table => cases table <;> rfl
  | star => exact h.elim
  | unaryOp unary operand => rfl
  | binaryOp binary left right ihleft ihright =>
    have hleft : ∀ outer, Misses .op (some "*")
        (parenthesize outer left.precedence (left.words style)) :=
      fun _ => parenthesize_misses_star (ihleft h.1)
    cases binary with
    | or => exact (hleft .or).append
    | and => exact (hleft .and).append
    | eq | ne | lt | le | gt | ge => exact (hleft .primary).append
  | functionCall name arg => rfl

theorem Written.parenthesize {own outer : Precedence} {e : Expr} {ws : List Word}
    (h : Written C upper own e ws) : Written C upper outer e (parenthesize outer own ws) := by
  unfold Minirel.parenthesize
  split
  · rename_i hle
    exact .lift h hle
  · exact .lift (.parens (.lift h (by cases own <;> decide))) (Nat.zero_le _)

theorem Value.words_written {value : Value} (h : value.Writable C) :
    Written C upper .primary (.literal value) value.words := by
  cases value with
  | none => exact .null
  | bool b =>
    cases b with
    | true => exact .true
    | false => exact .false
  | int i =>
    have hnumber : Written C upper .primary (.literal (.int i.natAbs))
        [number (toString i.natAbs)] := .number (numberValue_digits h)
    simp only [Value.words]
    split
    · refine .negative hnumber ?_
      simp only [Expr.negated?]
      congr 2
      omega
    · have hcast : (i.natAbs : Int) = i := by omega
      rwa [hcast] at hnumber
  | float x => exact h.elim
  | str s => exact .string s

theorem Expr.words_written {e : Expr} (h : e.Writable C upper) :
    Written C upper e.precedence e (e.words style) := by
  induction e with
  | literal value => exact Value.words_written h
  | columnRef name table =>
    cases table with
    | none => exact .column name
    | some table => exact .qualified table name
  | star => exact h.elim
  | unaryOp unary operand ih =>
    cases unary with
    | not => exact .not (Written.parenthesize (ih h))
  | binaryOp binary left right ihleft ihright =>
    have hleft := ihleft h.1
    have hright := ihright h.2
    cases binary with
    | or => exact .or hleft.parenthesize hright.parenthesize
    | and => exact .and hleft.parenthesize hright.parenthesize
    | eq | ne | lt | le | gt | ge =>
      exact .comparison (comparisonOp?_text (by decide) (by decide)) hleft.parenthesize
        hright.parenthesize
  | functionCall name arg ih =>
    obtain ⟨hname, harg⟩ := h
    have hor : Written C upper .or arg (arg.words style) := by
      rcases harg with rfl | harg
      · exact .lift .star (by decide)
      · exact .lift (ih harg) (by cases arg.precedence <;> decide)
    have hcall : Written C upper .primary (.functionCall (upper name) arg)
        (ident name :: op "(" :: arg.words style ++ [op ")"]) := by
      refine .call hor fun hhead => ?_
      rcases harg with rfl | harg
      · rfl
      · exact absurd hhead (Expr.misses_star harg).head_ne
    rwa [hname] at hcall

theorem Expr.words_written_or {e : Expr} (h : e.Writable C upper) :
    Written C upper .or e (e.words style) :=
  .lift (Expr.words_written h) (by cases e.precedence <;> decide)

/-! ## Statements -/

theorem whereWords_written {where_ : Option Expr} (h : ∀ e ∈ where_, e.Writable C upper) :
    WhereWritten C upper where_ (whereWords style where_) := by
  cases where_ with
  | none => exact .inl ⟨rfl, rfl⟩
  | some e => exact .inr ⟨_, ⟨e, rfl, Expr.words_written_or (h e rfl)⟩, rfl⟩

theorem selectItems_written {items : List SelectItem}
    (h : items = [{ expr := .star }] ∨ items ≠ [] ∧ ∀ item ∈ items, item.expr.Writable C upper) :
    ItemsWritten C upper items (commaSeparated (SelectItem.words style) items) := by
  rcases h with rfl | ⟨hne, hitems⟩
  · exact .inl ⟨rfl, rfl⟩
  · refine .inr ⟨commaSeparated_spelled hne fun item hitem =>
      ⟨_, Expr.words_written_or (hitems item hitem), rfl⟩, ?_⟩
    obtain ⟨item, items, rfl⟩ := List.exists_cons_of_ne_nil hne
    have hmiss : Misses .op (some "*") (item.expr.words style) :=
      Expr.misses_star (hitems item (List.mem_cons_self ..))
    rw [commaSeparated_cons]
    exact Misses.head_ne hmiss.append.append

theorem Select.words_written {stmt : Select} (h : stmt.Writable C upper) :
    StatementWritten C upper (.select stmt) (stmt.words style) := by
  obtain ⟨hitems, hjoin, hwhere, horder, hlimit⟩ := h
  refine .select ⟨_, _, _, _, _, _, selectItems_written hitems, aliasWords_spelled _, ?_,
    whereWords_written hwhere, ?_, ?_, rfl⟩ ?_
  · cases hj : stmt.join with
    | none => exact .inl ⟨rfl, rfl⟩
    | some j =>
      exact .inr ⟨_, ⟨j, _, _, rfl, aliasWords_spelled _, Expr.words_written_or (hjoin j hj), rfl⟩,
        rfl⟩
  · cases hg : stmt.groupBy with
    | nil => exact .inl ⟨rfl, rfl⟩
    | cons name names =>
      exact .inr ⟨_, commaSeparated_spelled (List.cons_ne_nil _ _) fun _ _ => rfl, rfl⟩
  · cases ho : stmt.orderBy with
    | nil => exact .inl ⟨rfl, rfl⟩
    | cons item items =>
      refine .inr ⟨_, commaSeparated_spelled (List.cons_ne_nil _ _) fun a ha => ?_, rfl⟩
      refine ⟨_, _, Expr.words_written_or (horder a (ho ▸ ha)), rfl, ?_⟩
      cases a.descending with
      | true => rfl
      | false => cases style.withAsc <;> simp
  · cases hl : stmt.limit with
    | none => exact .inl ⟨rfl, rfl⟩
    | some n => exact .inr ⟨_, ⟨n, _, rfl, ⟨n, hlimit n hl, rfl⟩, rfl⟩, rfl⟩

theorem AnyStatement.words_written (hupper : ∀ t : ColumnType, upper t.value = t.value)
    {stmt : AnyStatement} (h : stmt.Writable C upper) :
    StatementWritten C upper stmt (stmt.words style) := by
  cases stmt with
  | select stmt => exact Select.words_written h
  | statement stmt =>
    cases stmt with
    | createTable table columns =>
      refine .createTable false (rowWords_spelled h fun col _ => ⟨_, ?_, rfl⟩)
      rw [hupper]
      cases col.type <;> rfl
    | createIndex indexName table column unique => exact .createIndex indexName table column unique
    | insert table columns rows =>
      obtain ⟨hcolumns, hne, hrows⟩ := h
      refine .insert ?_ (commaSeparated_spelled hne fun row hrow => rowWords_spelled (hrows row hrow).1
        fun e he => Expr.words_written_or ((hrows row hrow).2 e he))
      cases columns with
      | none => rfl
      | some names => exact rowWords_spelled (fun hnil => hcolumns (by rw [hnil])) fun _ _ => rfl
    | update table assignments where_ =>
      obtain ⟨hne, hassignments, hwhere⟩ := h
      exact .update (commaSeparated_spelled hne fun a ha =>
        ⟨_, Expr.words_written_or (hassignments a ha), rfl⟩) (whereWords_written hwhere)
    | delete table where_ => exact .delete (whereWords_written h)

/-! ## The whole text -/

/-- The parser returns the statement that was written, wherever its tokens stand. `str.upper`
    leaves the names of the types as they are. -/
theorem parseStatement_text (style : Style) (hupper : ∀ t : ColumnType, upper t.value = t.value)
    {stmt : AnyStatement} (h : stmt.Writable C upper) {tokens : List Token}
    (htokens : tokens.map Token.toWord = stmt.text style) :
    parseStatement C upper tokens = .ok stmt := by
  have htext : TextWritten C upper stmt (tokens.map Token.toWord) := by
    rw [htokens]
    refine ⟨_, _, ⟨.eof, ""⟩, AnyStatement.words_written hupper h, ?_, rfl, rfl⟩
    cases style.semicolon <;> simp
  exact htext.parses

theorem parseStatement_text_delete :
    parseStatement decimal String.toUpper
      ([keyword "DELETE", keyword "FROM", ident "t", keyword "WHERE", keyword "NOT", op "(",
        ident "a", op "<>", op "-", number "12", keyword "OR", ident "t", op ".", ident "b", op ")",
        op ";", ⟨.eof, ""⟩].map fun w => ⟨w, 0⟩) =
      .ok (.statement (.delete "t" (some (.unaryOp .not (.binaryOp .or
        (.binaryOp .ne (.columnRef "a" none) (.literal (.int (-12))))
        (.columnRef "b" (some "t"))))))) :=
  parseStatement_text ⟨false, false, false, true⟩
    (by intro t; cases t <;> decide +kernel)
    (by
      simp only [AnyStatement.Writable, Statement.Writable, Expr.Writable, Value.Writable,
        Option.mem_def, Option.some.injEq, forall_eq', and_true, true_and]
      rfl)
    rfl

end

end Minirel
