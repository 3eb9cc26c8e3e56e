-- SUMMARY: Tokens and the recursive-descent parser.
import Minirel.Sql.Ast
import Minirel.Lib.Parsing

/-!
# The parser

`parser.py`. The state is the list of the tokens from `pos` on. The productions for
expressions call each other; each is given fuel, which `parse_statement` sets to the number
of tokens. The depth of the interpreter's own stack is not modelled.
-/

namespace Minirel

/-! ## Tokens -/

inductive TokenKind where
  | keyword
  | ident
  | number
  | string
  | op
  | eof
  deriving DecidableEq, Repr

/-- The text of a kind. -/
def TokenKind.value : TokenKind → String
  | .keyword => "KEYWORD"
  | .ident => "IDENT"
  | .number => "NUMBER"
  | .string => "STRING"
  | .op => "OP"
  | .eof => "EOF"

/-- What a token says, wherever it stands. -/
structure Word where
  kind : TokenKind
  value : String
  deriving DecidableEq, Repr

structure Token extends Word where
  pos : Nat
  deriving DecidableEq, Repr

/-- The test of `_check`. -/
def Word.is (w : Word) (kind : TokenKind) (value : Option String) : Bool :=
  decide (w.kind = kind) && value.all fun v => decide (w.value = v)

/-- The node `parse_statement` returns. -/
inductive AnyStatement where
  | statement (stmt : Statement)
  | select (stmt : Select)
  deriving DecidableEq

/-! ## Token stream helpers -/

abbrev ParseM := EStateM PyError (List Token)

def peek : ParseM Token := do
  match ← get with
  | tok :: _ => return tok
  | [] => throw .indexError

def advance : ParseM Token := do
  match ← get with
  | tok :: rest =>
    set rest
    return tok
  | [] => throw .indexError

def check (kind : TokenKind) (value : Option String := none) : ParseM Bool := do
  return (← peek).is kind value

/-- `_match`. -/
def matchToken (kind : TokenKind) (value : Option String := none) : ParseM (Option Token) := do
  if ← check kind value then return some (← advance) else return none

/-- The result of a computation that consumes nothing. -/
def ParseM.lift {α : Type} (x : Except PyError α) : ParseM α :=
  match x with
  | .ok a => return a
  | .error e => throw e

section
variable (C : Conversions) (upper : String → String)

def expect (kind : TokenKind) (value : Option String := none) : ParseM Token := do
  let tok ← peek
  if ← check kind value then advance
  else
    let expected := value.getD kind.value
    throw (.parseError (s!"expected {C.reprOfStr expected} but found {C.reprOfStr tok.value} " ++
      s!"at position {tok.pos}"))

/-- `while self._match("OP", ","): items.append(item())`. -/
def commaLoop {α : Type} (item : ParseM α) : Nat → List α → ParseM (List α)
  | 0, _ => throw .diverges
  | fuel + 1, items => do
    match ← matchToken .op "," with
    | some _ => commaLoop item fuel (items ++ [← item])
    | none => return items

/-- A list of at least one item, with commas between them. -/
def commaList {α : Type} (item : ParseM α) (fuel : Nat) : ParseM (List α) := do
  commaLoop item fuel [← item]

/-- `self._expect("IDENT").value`. -/
def expectName : ParseM String := do
  return (← expect C .ident).value

/-! ## Expressions

Every level takes `_parse_primary` as an argument, and fuel for its own loop. -/

/-- The operator of a comparison; `_COMPARISON_OPS` are the texts that have one. -/
def comparisonOp? : String → Option BinOp
  | "=" => some .eq
  | "<>" => some .ne
  | "!=" => some .ne
  | "<" => some .lt
  | "<=" => some .le
  | ">" => some .gt
  | ">=" => some .ge
  | _ => none

section
variable (primary : ParseM Expr)

def parseComparison : ParseM Expr := do
  let left ← primary
  let tok ← peek
  match tok.kind, comparisonOp? tok.value with
  | .op, some op =>
    let _ ← advance
    return .binaryOp op left (← primary)
  | _, _ => return left

def parseNot : Nat → ParseM Expr
  | 0 => throw .diverges
  | fuel + 1 => do
    match ← matchToken .keyword "NOT" with
    | some _ => return .unaryOp .not (← parseNot fuel)
    | none => parseComparison primary

/-- The loop of `_parse_and`. -/
def andLoop (notFuel : Nat) : Nat → Expr → ParseM Expr
  | 0, _ => throw .diverges
  | fuel + 1, left => do
    match ← matchToken .keyword "AND" with
    | some _ => andLoop notFuel fuel (.binaryOp .and left (← parseNot primary notFuel))
    | none => return left

def parseAnd (fuel : Nat) : ParseM Expr := do
  andLoop primary fuel fuel (← parseNot primary fuel)

/-- The loop of `_parse_or`. -/
def orLoop (andFuel : Nat) : Nat → Expr → ParseM Expr
  | 0, _ => throw .diverges
  | fuel + 1, left => do
    match ← matchToken .keyword "OR" with
    | some _ => orLoop andFuel fuel (.binaryOp .or left (← parseAnd primary andFuel))
    | none => return left

def parseOr (fuel : Nat) : ParseM Expr := do
  orLoop primary fuel fuel (← parseAnd primary fuel)

end

/-- `-x`, in Python. The sign of a zero is not kept. -/
def PyFloat.neg : PyFloat → PyFloat
  | .nan => .nan
  | .negInf => .posInf
  | .finite q => .finite (-q)
  | .posInf => .negInf

/-- `-operand.value`, for a literal whose value is an `int` or a `float`; a `bool` is an
    `int`. -/
def Expr.negated? : Expr → Option Value
  | .literal (.bool b) => some (.int (if b then -1 else 0))
  | .literal (.int i) => some (.int (-i))
  | .literal (.float x) => some (.float x.neg)
  | _ => none

/-- The value of a NUMBER token. -/
def numberValue (text : String) : Except PyError Value :=
  if '.' ∈ text.toList then .float <$> C.floatOfStr text else .int <$> C.intOfStr text

/-- The argument of a function call, behind the parenthesis. -/
def parseArgument (parseExpr : ParseM Expr) : ParseM Expr := do
  let arg ← if ← check .op "*" then pure .star else parseExpr
  if arg = .star then
    let _ ← matchToken .op "*"
  return arg

/-- What follows an identifier that starts an expression. -/
def parseNamed (parseExpr : ParseM Expr) (name : String) : ParseM Expr := do
  if ← check .op "(" then
    let _ ← advance
    let arg ← parseArgument parseExpr
    let _ ← expect C .op ")"
    return .functionCall (upper name) arg
  match ← matchToken .op "." with
  | some _ => return .columnRef (← expectName C) (some name)
  | none => return .columnRef name none

def parsePrimary : Nat → ParseM Expr
  | 0 => throw .diverges
  | fuel + 1 => do
    let tok ← peek
    if tok.is .op "-" then
      let _ ← advance
      let operand ← parsePrimary fuel
      match operand.negated? with
      | some v => return .literal v
      | none =>
        throw (.parseError s!"unary '-' only supports numeric literals, at position {tok.pos}")
    else if tok.kind = .number then
      let _ ← advance
      return .literal (← ParseM.lift (numberValue C tok.value))
    else if tok.kind = .string then
      let _ ← advance
      return .literal (.str tok.value)
    else if tok.is .keyword "TRUE" then
      let _ ← advance
      return .literal (.bool true)
    else if tok.is .keyword "FALSE" then
      let _ ← advance
      return .literal (.bool false)
    else if tok.is .keyword "NULL" then
      let _ ← advance
      return .literal .none
    else if tok.is .op "(" then
      let _ ← advance
      let inner ← parseOr (parsePrimary fuel) fuel
      let _ ← expect C .op ")"
      return inner
    else if tok.is .op "*" then
      let _ ← advance
      return .star
    else if tok.kind = .ident then
      let _ ← advance
      parseNamed C upper (parseOr (parsePrimary fuel) fuel) tok.value
    else
      throw (.parseError
        s!"unexpected token {C.reprOfStr tok.value} at position {tok.pos}")

def parseExpr (fuel : Nat) : ParseM Expr := parseOr (parsePrimary C upper fuel) fuel

/-! ## Statements -/

/-- The type names of a column definition. -/
def columnType? : String → Option ColumnType
  | "INT" => some .int
  | "FLOAT" => some .float
  | "TEXT" => some .text
  | "BOOL" => some .bool
  | _ => none

def parseColumnDef : ParseM Column := do
  let name ← expectName C
  let typeTok ← advance
  match columnType? (upper typeTok.value) with
  | some type => return ⟨name, type⟩
  | none => throw (.parseError
      s!"unknown column type {C.reprOfStr typeTok.value} at position {typeTok.pos}")

/-- `_parse_create` after `TABLE`. -/
def parseCreateTable (fuel : Nat) : ParseM Statement := do
  let table ← expectName C
  let _ ← expect C .op "("
  let columns ← commaList (parseColumnDef C upper) fuel
  let _ ← expect C .op ")"
  return .createTable table columns

/-- `_parse_create` when there is no `TABLE`. -/
def parseCreateIndex (unique : Bool) : ParseM Statement := do
  let _ ← expect C .keyword "INDEX"
  let indexName ← expectName C
  let _ ← expect C .keyword "ON"
  let table ← expectName C
  let _ ← expect C .op "("
  let column ← expectName C
  let _ ← expect C .op ")"
  return .createIndex indexName table column unique

def parseCreate (fuel : Nat) : ParseM Statement := do
  let _ ← expect C .keyword "CREATE"
  let unique := (← matchToken .keyword "UNIQUE").isSome
  match ← matchToken .keyword "TABLE" with
  | some _ => parseCreateTable C upper fuel
  | none => parseCreateIndex C unique

def parseValueRow (fuel : Nat) : ParseM (List Expr) := do
  let _ ← expect C .op "("
  let values ← commaList (parseExpr C upper fuel) fuel
  let _ ← expect C .op ")"
  return values

/-- The column list of an INSERT. -/
def parseInsertColumns (fuel : Nat) : ParseM (Option (List String)) := do
  match ← matchToken .op "(" with
  | some _ =>
    let names ← commaList (expectName C) fuel
    let _ ← expect C .op ")"
    return some names
  | none => return none

def parseInsert (fuel : Nat) : ParseM Statement := do
  let _ ← expect C .keyword "INSERT"
  let _ ← expect C .keyword "INTO"
  let table ← expectName C
  let columns ← parseInsertColumns C fuel
  let _ ← expect C .keyword "VALUES"
  let rows ← commaList (parseValueRow C upper fuel) fuel
  return .insert table columns rows

def parseOptionalAlias : ParseM (Option String) := do
  match ← matchToken .keyword "AS" with
  | some _ => return some (← expectName C)
  | none => if ← check .ident then return some (← advance).value else return none

def parseSelectItem (fuel : Nat) : ParseM SelectItem := do
  let expr ← parseExpr C upper fuel
  match ← matchToken .keyword "AS" with
  | some _ => return { expr, alias_ := some (← expectName C) }
  | none => return { expr }

def parseSelectItems (fuel : Nat) : ParseM (List SelectItem) := do
  match ← matchToken .op "*" with
  | some _ => return [{ expr := .star }]
  | none => commaList (parseSelectItem C upper fuel) fuel

def parseOrderItem (fuel : Nat) : ParseM OrderByItem := do
  let expr ← parseExpr C upper fuel
  match ← matchToken .keyword "DESC" with
  | some _ => return { expr, descending := true }
  | none =>
    let _ ← matchToken .keyword "ASC"
    return { expr }

/-- A clause that a keyword introduces; without the keyword it is absent. -/
def clause {α : Type} (keyword : String) (absent : α) (body : ParseM α) : ParseM α := do
  match ← matchToken .keyword keyword with
  | some _ => body
  | none => return absent

def parseJoin (fuel : Nat) : ParseM (Option JoinClause) :=
  clause "JOIN" none do
    let table ← expectName C
    let alias_ ← parseOptionalAlias C
    let _ ← expect C .keyword "ON"
    return some { table, on := ← parseExpr C upper fuel, alias_ }

def parseWhere (fuel : Nat) : ParseM (Option Expr) :=
  clause "WHERE" none (some <$> parseExpr C upper fuel)

def parseGroupBy (fuel : Nat) : ParseM (List String) :=
  clause "GROUP" [] do
    let _ ← expect C .keyword "BY"
    commaList (expectName C) fuel

def parseOrderBy (fuel : Nat) : ParseM (List OrderByItem) :=
  clause "ORDER" [] do
    let _ ← expect C .keyword "BY"
    commaList (parseOrderItem C upper fuel) fuel

/-- A NUMBER has no sign, so the limit is a natural number. -/
def parseLimit : ParseM (Option Nat) :=
  clause "LIMIT" none do
    let tok ← expect C .number
    return some (← ParseM.lift (C.intOfStr tok.value)).toNat

def parseSelect (fuel : Nat) : ParseM Select := do
  let _ ← expect C .keyword "SELECT"
  let items ← parseSelectItems C upper fuel
  let _ ← expect C .keyword "FROM"
  let table ← expectName C
  let tableAlias ← parseOptionalAlias C
  let join ← parseJoin C upper fuel
  let where_ ← parseWhere C upper fuel
  let groupBy ← parseGroupBy C fuel
  let orderBy ← parseOrderBy C upper fuel
  let limit ← parseLimit C
  return { items, table, tableAlias, join, where_, groupBy, orderBy, limit }

def parseAssignment (fuel : Nat) : ParseM (String × Expr) := do
  let name ← expectName C
  let _ ← expect C .op "="
  return (name, ← parseExpr C upper fuel)

def parseUpdate (fuel : Nat) : ParseM Statement := do
  let _ ← expect C .keyword "UPDATE"
  let table ← expectName C
  let _ ← expect C .keyword "SET"
  let assignments ← commaList (parseAssignment C upper fuel) fuel
  let where_ ← parseWhere C upper fuel
  return .update table assignments where_

def parseDelete (fuel : Nat) : ParseM Statement := do
  let _ ← expect C .keyword "DELETE"
  let _ ← expect C .keyword "FROM"
  let table ← expectName C
  let where_ ← parseWhere C upper fuel
  return .delete table where_

/-- The production a statement starts with. -/
def parseAny (fuel : Nat) : ParseM AnyStatement := do
  if ← check .keyword "CREATE" then .statement <$> parseCreate C upper fuel
  else if ← check .keyword "INSERT" then .statement <$> parseInsert C upper fuel
  else if ← check .keyword "SELECT" then .select <$> parseSelect C upper fuel
  else if ← check .keyword "UPDATE" then .statement <$> parseUpdate C upper fuel
  else if ← check .keyword "DELETE" then .statement <$> parseDelete C upper fuel
  else
    let tok ← peek
    throw (.parseError s!"unexpected token {C.reprOfStr tok.value} at position {tok.pos}")

/-- `Parser(tokens).parse_statement()`. -/
def parseStatement (tokens : List Token) : Except PyError AnyStatement :=
  match (do
    let stmt ← parseAny C upper tokens.length
    let _ ← matchToken .op ";"
    let _ ← expect C .eof
    return stmt : ParseM AnyStatement) tokens with
  | .ok stmt _ => .ok stmt
  | .error e _ => .error e

end

end Minirel
