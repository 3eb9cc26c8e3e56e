-- SUMMARY: Statements written out as words, and the parser reading them back.
import Minirel.Sql.Parser

/-!
# Rendering

A syntax tree is written as words, with the parentheses that precedence and the left
association of `AND` and `OR` require. Where the grammar leaves a choice, a `Style` makes it.
The parser reads back the tree that was written.
-/

namespace Minirel

/-! ## Words -/

namespace Word

abbrev keyword (value : String) : Word := ⟨.keyword, value⟩

abbrev op (value : String) : Word := ⟨.op, value⟩

abbrev ident (value : String) : Word := ⟨.ident, value⟩

abbrev number (value : String) : Word := ⟨.number, value⟩

abbrev string (value : String) : Word := ⟨.string, value⟩

end Word

open Word

/-- The choices a writer has: `AS` before the alias of a table, `ASC` after an ascending item,
    `!=` for `<>`, and the `;` at the end. -/
structure Style where
  withAs : Bool
  withAsc : Bool
  bang : Bool
  semicolon : Bool

/-- How tightly an expression binds. -/
inductive Precedence where
  | primary
  | comparison
  | not
  | and
  | or
  deriving DecidableEq

def Precedence.rank : Precedence → Nat
  | .primary => 0
  | .comparison => 1
  | .not => 2
  | .and => 3
  | .or => 4

section
variable (style : Style)

/-! ## Expressions -/

def BinOp.text : BinOp → String
  | .eq => "="
  | .ne => if style.bang then "!=" else "<>"
  | .lt => "<"
  | .le => "<="
  | .gt => ">"
  | .ge => ">="
  | .and => "AND"
  | .or => "OR"

/-- The words of a literal. A float has none here. -/
def Value.words : Value → List Word
  | .none => [keyword "NULL"]
  | .bool true => [keyword "TRUE"]
  | .bool false => [keyword "FALSE"]
  | .int i => if i < 0 then [op "-", number (toString i.natAbs)] else [number (toString i.natAbs)]
  | .float _ => []
  | .str s => [string s]

def Expr.precedence : Expr → Precedence
  | .binaryOp .or _ _ => .or
  | .binaryOp .and _ _ => .and
  | .binaryOp _ _ _ => .comparison
  | .unaryOp _ _ => .not
  | _ => .primary

/-- The words of an expression where at most `outer` is allowed. -/
def parenthesize (outer : Precedence) (own : Precedence) (words : List Word) : List Word :=
  if own.rank ≤ outer.rank then words else op "(" :: words ++ [op ")"]

def Expr.words : Expr → List Word
  | .literal value => value.words
  | .columnRef name none => [ident name]
  | .columnRef name (some table) => [ident table, op ".", ident name]
  | .star => [op "*"]
  | .unaryOp .not operand => keyword "NOT" :: parenthesize .not operand.precedence operand.words
  | .binaryOp .or left right =>
    parenthesize .or left.precedence left.words ++
      keyword "OR" :: parenthesize .and right.precedence right.words
  | .binaryOp .and left right =>
    parenthesize .and left.precedence left.words ++
      keyword "AND" :: parenthesize .not right.precedence right.words
  | .binaryOp cmp left right =>
    parenthesize .primary left.precedence left.words ++
      op (cmp.text style) :: parenthesize .primary right.precedence right.words
  | .functionCall name arg => ident name :: op "(" :: arg.words ++ [op ")"]

/-! ## Statements -/

/-- Items with commas between them. -/
def commaSeparated {α : Type} (words : α → List Word) : List α → List Word
  | [] => []
  | [item] => words item
  | item :: items => words item ++ op "," :: commaSeparated words items

def Column.words (col : Column) : List Word := [ident col.name, keyword col.type.value]

/-- A list in parentheses. -/
def rowWords {α : Type} (words : α → List Word) (items : List α) : List Word :=
  op "(" :: commaSeparated words items ++ [op ")"]

def insertColumnWords : Option (List String) → List Word
  | some names => rowWords (fun name => [ident name]) names
  | none => []

def aliasWords : Option String → List Word
  | some alias_ => if style.withAs then [keyword "AS", ident alias_] else [ident alias_]
  | none => []

def SelectItem.words (item : SelectItem) : List Word :=
  item.expr.words style ++
    match item.alias_ with
    | some alias_ => [keyword "AS", ident alias_]
    | none => []

def OrderByItem.words (item : OrderByItem) : List Word :=
  item.expr.words style ++
    if item.descending then [keyword "DESC"] else if style.withAsc then [keyword "ASC"] else []

def JoinClause.words (join : JoinClause) : List Word :=
  keyword "JOIN" :: ident join.table :: aliasWords style join.alias_ ++
    keyword "ON" :: join.on.words style

def whereWords : Option Expr → List Word
  | some e => keyword "WHERE" :: e.words style
  | none => []

def groupByWords : List String → List Word
  | [] => []
  | names => keyword "GROUP" :: keyword "BY" :: commaSeparated (fun name => [ident name]) names

def orderByWords : List OrderByItem → List Word
  | [] => []
  | items => keyword "ORDER" :: keyword "BY" :: commaSeparated (OrderByItem.words style) items

def limitWords : Option Nat → List Word
  | some n => [keyword "LIMIT", number (toString n)]
  | none => []

def joinWords : Option JoinClause → List Word
  | some join => join.words style
  | none => []

def Select.words (stmt : Select) : List Word :=
  keyword "SELECT" :: commaSeparated (SelectItem.words style) stmt.items ++
    keyword "FROM" :: ident stmt.table :: aliasWords style stmt.tableAlias ++
    joinWords style stmt.join ++ whereWords style stmt.where_ ++ groupByWords stmt.groupBy ++
    orderByWords style stmt.orderBy ++ limitWords stmt.limit

def Statement.words : Statement → List Word
  | .createTable table columns =>
    keyword "CREATE" :: keyword "TABLE" :: ident table :: rowWords Column.words columns
  | .createIndex indexName table column unique =>
    keyword "CREATE" :: (if unique then [keyword "UNIQUE"] else []) ++
      [keyword "INDEX", ident indexName, keyword "ON", ident table, op "(", ident column, op ")"]
  | .insert table columns rows =>
    keyword "INSERT" :: keyword "INTO" :: ident table :: insertColumnWords columns ++
      keyword "VALUES" :: commaSeparated (rowWords (Expr.words style)) rows
  | .update table assignments where_ =>
    keyword "UPDATE" :: ident table :: keyword "SET" ::
      commaSeparated (fun a => ident a.1 :: op "=" :: a.2.words style) assignments ++
      whereWords style where_
  | .delete table where_ =>
    keyword "DELETE" :: keyword "FROM" :: ident table :: whereWords style where_

def AnyStatement.words : AnyStatement → List Word
  | .statement stmt => stmt.words style
  | .select stmt => stmt.words style

/-- The whole text of a statement. -/
def AnyStatement.text (stmt : AnyStatement) : List Word :=
  stmt.words style ++ (if style.semicolon then [op ";"] else []) ++ [⟨.eof, ""⟩]

end

/-! ## What can be written -/

/-- Conversions with an `int` that reads decimal digits. -/
def decimal : Conversions :=
  { Conversions.integral with
    intOfStr := fun s =>
      .ok (s.toList.foldl (fun n c => 10 * n + (c.toNat - '0'.toNat)) 0 : Nat) }

section
variable (C : Conversions) (upper : String → String)

/-- `int` reads the decimal digits of `n` as `n`. It refuses a text of more than 4300 digits. -/
def Digits (n : Nat) : Prop := C.intOfStr (toString n) = .ok n

def Value.Writable : Value → Prop
  | .int i => Digits C i.natAbs
  | .float _ => False
  | _ => True

/-- An expression of the language: a `*` stands only for the argument of a function, and the
    name of a function is in upper case. -/
def Expr.Writable : Expr → Prop
  | .literal value => value.Writable C
  | .columnRef _ _ => True
  | .star => False
  | .unaryOp _ operand => operand.Writable
  | .binaryOp _ left right => left.Writable ∧ right.Writable
  | .functionCall name arg => upper name = name ∧ (arg = .star ∨ arg.Writable)

def Select.Writable (stmt : Select) : Prop :=
  (stmt.items = [{ expr := .star }] ∨
      stmt.items ≠ [] ∧ ∀ item ∈ stmt.items, item.expr.Writable C upper) ∧
    (∀ join ∈ stmt.join, join.on.Writable C upper) ∧
    (∀ e ∈ stmt.where_, e.Writable C upper) ∧
    (∀ item ∈ stmt.orderBy, item.expr.Writable C upper) ∧
    ∀ n ∈ stmt.limit, Digits C n

def Statement.Writable : Statement → Prop
  | .createTable _ columns => columns ≠ []
  | .createIndex _ _ _ _ => True
  | .insert _ columns rows =>
    columns ≠ some [] ∧ rows ≠ [] ∧ ∀ row ∈ rows, row ≠ [] ∧ ∀ e ∈ row, e.Writable C upper
  | .update _ assignments where_ =>
    assignments ≠ [] ∧ (∀ a ∈ assignments, a.2.Writable C upper) ∧
      ∀ e ∈ where_, e.Writable C upper
  | .delete _ where_ => ∀ e ∈ where_, e.Writable C upper

def AnyStatement.Writable : AnyStatement → Prop
  | .statement stmt => stmt.Writable C upper
  | .select stmt => stmt.Writable C upper

end

theorem digits_no_dot (n : Nat) : '.' ∉ (toString n).toList := by
  intro h
  have hrepr : (toString n).toList = Nat.toDigits 10 n := by simp
  rw [hrepr] at h
  have hdigit := Nat.isDigit_of_mem_toDigits (by decide) (by decide) h
  exact absurd hdigit (by decide)

theorem numberValue_digits {C : Conversions} {n : Nat} (h : Digits C n) : numberValue C (toString n) = .ok (.int n) := by
  unfold numberValue
  rw [if_neg (digits_no_dot n), h]
  rfl

theorem comparisonOp?_text {style : Style} {cmp : BinOp} (hand : cmp ≠ .and) (hor : cmp ≠ .or) :
    comparisonOp? (cmp.text style) = some cmp := by
  cases cmp with
  | and => exact absurd rfl hand
  | or => exact absurd rfl hor
  | ne =>
    simp only [BinOp.text]
    split <;> rfl
  | eq | lt | le | gt | ge => rfl

theorem commaSeparated_cons {α : Type} (words : α → List Word) (a : α) (items : List α) :
    commaSeparated words (a :: items) = words a ++ items.flatMap fun b => op "," :: words b := by
  induction items generalizing a with
  | nil => simp [commaSeparated]
  | cons b items ih =>
    rw [commaSeparated.eq_3 _ _ _ (by simp), ih, List.flatMap_cons, List.cons_append]

end Minirel
