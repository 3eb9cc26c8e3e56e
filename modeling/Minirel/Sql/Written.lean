-- SUMMARY: The texts that the parser accepts, word by word.
import Minirel.Sql.Grammar

/-!
# What the parser accepts

`Spelled` leaves out the words that the parser drops. Here they are written down as well: a
sign before a truth value, a second `*` behind an argument in parentheses, `UNIQUE` before
`TABLE`, and any word at all as the name of a type. A `*` opens the argument of a function
and a SELECT list only where it is all there is.
-/

namespace Minirel

open Word

section
variable (C : Conversions) (upper : String → String)

/-- The parser reads the words as this expression. -/
inductive Written : Precedence → Expr → List Word → Prop where
  | number {text : String} {value : Value} (h : numberValue C text = .ok value) :
    Written .primary (.literal value) [number text]
  | string (s : String) : Written .primary (.literal (.str s)) [string s]
  | true : Written .primary (.literal (.bool true)) [keyword "TRUE"]
  | false : Written .primary (.literal (.bool false)) [keyword "FALSE"]
  | null : Written .primary (.literal .none) [keyword "NULL"]
  | negative {e : Expr} {value : Value} {ws : List Word} (h : Written .primary e ws)
      (hneg : e.negated? = some value) : Written .primary (.literal value) (op "-" :: ws)
  | parens {e : Expr} {ws : List Word} (h : Written .or e ws) :
    Written .primary e (op "(" :: ws ++ [op ")"])
  | star : Written .primary .star [op "*"]
  | call {name : String} {arg : Expr} {ws : List Word} (h : Written .or arg ws)
      (hstar : ws.head? = some (op "*") → ws = [op "*"]) :
    Written .primary (.functionCall (upper name) arg) (ident name :: op "(" :: ws ++ [op ")"])
  | callStarred {name : String} {ws : List Word} (h : Written .or .star ws)
      (hstar : ws.head? ≠ some (op "*")) :
    Written .primary (.functionCall (upper name) .star)
      (ident name :: op "(" :: ws ++ [op "*", op ")"])
  | column (name : String) : Written .primary (.columnRef name none) [ident name]
  | qualified (table name : String) :
    Written .primary (.columnRef name (some table)) [ident table, op ".", ident name]
  | comparison {left right : Expr} {ws₁ ws₂ : List Word} {text : String} {cmp : BinOp}
      (hcmp : comparisonOp? text = some cmp) (h₁ : Written .primary left ws₁)
      (h₂ : Written .primary right ws₂) :
    Written .comparison (.binaryOp cmp left right) (ws₁ ++ op text :: ws₂)
  | not {e : Expr} {ws : List Word} (h : Written .not e ws) :
    Written .not (.unaryOp .not e) (keyword "NOT" :: ws)
  | and {left right : Expr} {ws₁ ws₂ : List Word} (h₁ : Written .and left ws₁)
      (h₂ : Written .not right ws₂) :
    Written .and (.binaryOp .and left right) (ws₁ ++ keyword "AND" :: ws₂)
  | or {left right : Expr} {ws₁ ws₂ : List Word} (h₁ : Written .or left ws₁)
      (h₂ : Written .and right ws₂) :
    Written .or (.binaryOp .or left right) (ws₁ ++ keyword "OR" :: ws₂)
  | lift {own outer : Precedence} {e : Expr} {ws : List Word} (h : Written own e ws)
      (hle : own.rank ≤ outer.rank) : Written outer e ws

variable {C upper} in
theorem Written.ne_nil {prec : Precedence} {e : Expr} {ws : List Word}
    (h : Written C upper prec e ws) : ws ≠ [] := by
  induction h with
  | lift h hle ih => exact ih
  | number | string | true | false | null | negative | parens | star | call | callStarred | column
  | qualified | comparison | not | and | or => simp

/-! ## Parts of statements -/

def ColumnWritten (col : Column) (ws : List Word) : Prop :=
  ∃ w, columnType? (upper w.value) = some col.type ∧ ws = [ident col.name, w]

def ItemWritten (item : SelectItem) (ws : List Word) : Prop :=
  ∃ inner, Written C upper .or item.expr inner ∧
    ws = inner ++ match item.alias_ with
      | some alias_ => [keyword "AS", ident alias_]
      | none => []

def ItemsWritten (items : List SelectItem) (ws : List Word) : Prop :=
  items = [{ expr := .star }] ∧ ws = [op "*"] ∨
    CommaSpelled (ItemWritten C upper) items ws ∧ ws.head? ≠ some (op "*")

def OrderItemWritten (item : OrderByItem) (ws : List Word) : Prop :=
  ∃ inner direction, Written C upper .or item.expr inner ∧ ws = inner ++ direction ∧
    if item.descending then direction = [keyword "DESC"]
    else direction = [] ∨ direction = [keyword "ASC"]

def WhereWritten : Option Expr → List Word → Prop :=
  ClauseSpelled [keyword "WHERE"] none fun where_ ws =>
    ∃ e, where_ = some e ∧ Written C upper .or e ws

def JoinWritten : Option JoinClause → List Word → Prop :=
  ClauseSpelled [keyword "JOIN"] none fun join ws =>
    ∃ j ws₁ ws₂, join = some j ∧ AliasSpelled j.alias_ ws₁ ∧ Written C upper .or j.on ws₂ ∧
      ws = ident j.table :: ws₁ ++ keyword "ON" :: ws₂

def OrderByWritten : List OrderByItem → List Word → Prop :=
  ClauseSpelled [keyword "ORDER", keyword "BY"] [] (CommaSpelled (OrderItemWritten C upper))

def AssignmentWritten (a : String × Expr) (ws : List Word) : Prop :=
  ∃ inner, Written C upper .or a.2 inner ∧ ws = ident a.1 :: op "=" :: inner

/-! ## Statements -/

/-- A SELECT up to its LIMIT. -/
def HeadWritten (stmt : Select) (ws : List Word) : Prop :=
  ∃ ws₁ ws₂ ws₃ ws₄ ws₅ ws₆, ItemsWritten C upper stmt.items ws₁ ∧
    AliasSpelled stmt.tableAlias ws₂ ∧ JoinWritten C upper stmt.join ws₃ ∧
    WhereWritten C upper stmt.where_ ws₄ ∧ GroupBySpelled stmt.groupBy ws₅ ∧
    OrderByWritten C upper stmt.orderBy ws₆ ∧
    ws = keyword "SELECT" :: ws₁ ++ keyword "FROM" :: ident stmt.table :: ws₂ ++ ws₃ ++ ws₄ ++ ws₅ ++
      ws₆

variable {C upper} in
theorem HeadWritten.starts {stmt : Select} {ws : List Word} (h : HeadWritten C upper stmt ws) :
    ∃ tail, ws = keyword "SELECT" :: tail := by
  obtain ⟨_, _, _, _, _, _, _, _, _, _, _, _, rfl⟩ := h
  exact ⟨_, rfl⟩

inductive StatementWritten : AnyStatement → List Word → Prop where
  | createTable {table : String} {columns : List Column} {ws : List Word} (unique : Bool)
      (h : RowSpelled (ColumnWritten upper) columns ws) :
    StatementWritten (.statement (.createTable table columns))
      (keyword "CREATE" :: (if unique then [keyword "UNIQUE"] else []) ++
        keyword "TABLE" :: ident table :: ws)
  | createIndex (indexName table column : String) (unique : Bool) :
    StatementWritten (.statement (.createIndex indexName table column unique))
      (keyword "CREATE" :: (if unique then [keyword "UNIQUE"] else []) ++
        [keyword "INDEX", ident indexName, keyword "ON", ident table, op "(", ident column, op ")"])
  | insert {table : String} {columns : Option (List String)} {rows : List (List Expr)}
      {ws₁ ws₂ : List Word} (hcolumns : InsertColumnsSpelled columns ws₁)
      (hrows : CommaSpelled (RowSpelled (Written C upper .or)) rows ws₂) :
    StatementWritten (.statement (.insert table columns rows))
      (keyword "INSERT" :: keyword "INTO" :: ident table :: ws₁ ++ keyword "VALUES" :: ws₂)
  | update {table : String} {assignments : List (String × Expr)} {where_ : Option Expr}
      {ws₁ ws₂ : List Word} (hassignments : CommaSpelled (AssignmentWritten C upper) assignments ws₁)
      (hwhere : WhereWritten C upper where_ ws₂) :
    StatementWritten (.statement (.update table assignments where_))
      (keyword "UPDATE" :: ident table :: keyword "SET" :: ws₁ ++ ws₂)
  | delete {table : String} {where_ : Option Expr} {ws : List Word}
      (hwhere : WhereWritten C upper where_ ws) :
    StatementWritten (.statement (.delete table where_))
      (keyword "DELETE" :: keyword "FROM" :: ident table :: ws)
  | select {stmt : Select} {ws₁ ws₂ : List Word} (hhead : HeadWritten C upper stmt ws₁)
      (hlimit : LimitSpelled (Numerals.read C) stmt.limit ws₂) :
    StatementWritten (.select stmt) (ws₁ ++ ws₂)

variable {C upper} in
theorem StatementWritten.starts {stmt : AnyStatement} {ws : List Word}
    (h : StatementWritten C upper stmt ws) : ∃ name tail, ws = keyword name :: tail := by
  cases h with
  | createTable | createIndex | insert | update | delete => exact ⟨_, _, rfl⟩
  | select hhead =>
    obtain ⟨tail, rfl⟩ := hhead.starts
    exact ⟨_, _, rfl⟩

/-- The words are a statement, an optional `;` and the end of the text. -/
def TextWritten (stmt : AnyStatement) (ws : List Word) : Prop :=
  ∃ body semicolon eof, StatementWritten C upper stmt body ∧
    (semicolon = [] ∨ semicolon = [op ";"]) ∧ eof.kind = .eof ∧ ws = body ++ semicolon ++ [eof]

end

end Minirel
