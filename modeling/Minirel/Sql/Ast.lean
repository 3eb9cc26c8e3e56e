-- SUMMARY: The syntax tree of SQL statements.
import Minirel.Types

/-!
# The syntax tree

The nodes the parser produces. The operators are enumerations: the parser produces no
others. A `Statement` is one that changes the database, a `Select` stands apart.
-/

namespace Minirel

inductive UnOp where
  | not
  deriving DecidableEq, Repr

inductive BinOp where
  | eq
  | ne
  | lt
  | le
  | gt
  | ge
  | and
  | or
  deriving DecidableEq, Repr

inductive Expr where
  | literal (value : Value)
  | columnRef (name : String) (table : Option String)
  | star
  | unaryOp (op : UnOp) (operand : Expr)
  | binaryOp (op : BinOp) (left right : Expr)
  | functionCall (name : String) (arg : Expr)
  deriving DecidableEq

/-- An item of a SELECT list. -/
structure SelectItem where
  expr : Expr
  alias_ : Option String := none
  deriving DecidableEq

structure JoinClause where
  table : String
  on : Expr
  alias_ : Option String := none
  deriving DecidableEq

structure OrderByItem where
  expr : Expr
  descending : Bool := false
  deriving DecidableEq

structure Select where
  items : List SelectItem
  table : String
  tableAlias : Option String := none
  join : Option JoinClause := none
  where_ : Option Expr := none
  groupBy : List String := []
  orderBy : List OrderByItem := []
  limit : Option Nat := none
  deriving DecidableEq

/-- A statement. `columns` of an INSERT is `none` when the statement names no
    columns. -/
inductive Statement where
  | createTable (table : String) (columns : List Column)
  | createIndex (indexName table column : String) (unique : Bool)
  | insert (table : String) (columns : Option (List String)) (rows : List (List Expr))
  | update (table : String) (assignments : List (String × Expr)) (where_ : Option Expr)
  | delete (table : String) (where_ : Option Expr)
  deriving DecidableEq

end Minirel
