-- SUMMARY: The tokenizer.
import Minirel.Lib.Regex
import Minirel.Sql.Parser

/-!
# The lexer

`lexer.py`. `_MASTER_RE` is the list of its groups, and the group that matches is the first
in it that does. Positions count characters. The loop is given fuel for every character.
-/

namespace Minirel

/-! ## Characters -/

/-- The tables of the interpreter behind `\s` and `\d`. Beyond ASCII they grow with the
    version of Unicode. -/
structure Unicode where
  isSpace : Char → Bool
  isDecimal : Char → Bool
  isSpace_ascii : ∀ c : Char, c.toNat < 128 →
    isSpace c = decide (9 ≤ c.toNat ∧ c.toNat ≤ 13 ∨ 28 ≤ c.toNat ∧ c.toNat ≤ 32)
  isDecimal_ascii : ∀ c : Char, c.toNat < 128 → isDecimal c = c.isDigit

/-- No spaces and no digits beyond ASCII. -/
def Unicode.ascii : Unicode where
  isSpace c := decide (9 ≤ c.toNat ∧ c.toNat ≤ 13 ∨ 28 ≤ c.toNat ∧ c.toNat ≤ 32)
  isDecimal := Char.isDigit
  isSpace_ascii _ _ := rfl
  isDecimal_ascii _ _ := rfl

def quote : Char := '\''

/-- `[A-Za-z_]`. -/
def startsIdent (c : Char) : Bool := c.isUpper || c.isLower || c == '_'

/-- `[A-Za-z0-9_]`. -/
def continuesIdent (c : Char) : Bool := startsIdent c || c.isDigit

/-- `KEYWORDS`. -/
def keywords : List String :=
  ["CREATE", "TABLE", "INDEX", "ON", "UNIQUE", "INSERT", "INTO", "VALUES",
   "SELECT", "FROM", "WHERE", "AND", "OR", "NOT", "ORDER", "BY", "ASC",
   "DESC", "LIMIT", "GROUP", "JOIN", "UPDATE", "SET", "DELETE", "AS",
   "TRUE", "FALSE", "NULL", "INT", "FLOAT", "TEXT", "BOOL"]

/-! ## The groups -/

/-- The names of the groups of `_TOKEN_SPEC`. -/
inductive TokenGroup where
  | whitespace
  | comment
  | number
  | string
  | ident
  | op
  deriving DecidableEq, Repr

namespace TokenGroup

open Regex

def exactly (c : Char) : Regex Char := .one (· == c)

/-- `'(?:[^']|'')*'`. -/
def stringRegex : Regex Char :=
  .seq (exactly quote)
    (.seq (.star (.alt (.one (· != quote)) (.seq (exactly quote) (exactly quote)))) (exactly quote))

/-- `<=|>=|<>|!=|[=<>(),;.*-]`. -/
def opRegex : Regex Char :=
  .alt (.seq (exactly '<') (exactly '='))
    (.alt (.seq (exactly '>') (exactly '='))
      (.alt (.seq (exactly '<') (exactly '>'))
        (.alt (.seq (exactly '!') (exactly '='))
          (.one fun c => decide (c ∈ ['=', '<', '>', '(', ')', ',', ';', '.', '*', '-'])))))

variable (U : Unicode)

/-- `\d+`. -/
def digits : Regex Char := plus (.one U.isDecimal)

def regex : TokenGroup → Regex Char
  | whitespace => plus (.one U.isSpace)
  | comment => .seq (exactly '-') (.seq (exactly '-') (.star (.one (· != '\n'))))
  | number => .alt (.seq (digits U) (.seq (exactly '.') (digits U))) (digits U)
  | string => stringRegex
  | ident => .seq (.one startsIdent) (.star (.one continuesIdent))
  | op => opRegex

end TokenGroup

/-- `_TOKEN_SPEC`. -/
def tokenSpec : List TokenGroup := [.whitespace, .comment, .number, .string, .ident, .op]

/-- `_MASTER_RE.match`: the group that matches, and what is left of the input. -/
def masterMatch (U : Unicode) (input : List Char) : Option (TokenGroup × List Char) :=
  tokenSpec.findSome? fun group => ((group.regex U).match? input).map fun rest => (group, rest)

/-! ## The loop -/

/-- The error of a character that starts no token. -/
def unexpected (C : Conversions) (c : Char) (pos : Nat) : PyError :=
  .lexError s!"unexpected character {C.reprOfStr (String.singleton c)} at position {pos}"

/-- The replacement of doubled quotes, from left to right. -/
def undouble : List Char → List Char
  | c :: c' :: rest =>
    if c = quote ∧ c' = quote then quote :: undouble rest else c :: undouble (c' :: rest)
  | cs => cs

/-- The token of a match, if the group makes one. -/
def tokenOf (upper : String → String) (pos : Nat) (text : List Char) : TokenGroup → Option Token
  | .whitespace => none
  | .comment => none
  | .number => some ⟨⟨.number, .ofList text⟩, pos⟩
  | .string => some ⟨⟨.string, .ofList (undouble (text.drop 1).dropLast)⟩, pos⟩
  | .ident =>
    if upper (.ofList text) ∈ keywords then some ⟨⟨.keyword, upper (.ofList text)⟩, pos⟩
    else some ⟨⟨.ident, .ofList text⟩, pos⟩
  | .op => some ⟨⟨.op, .ofList text⟩, pos⟩

section
variable (C : Conversions) (U : Unicode) (upper : String → String)

/-- The loop of `tokenize`, from `pos` on. -/
def tokenizeFrom : Nat → Nat → List Char → Except PyError (List Token)
  | _, pos, [] => .ok [⟨⟨.eof, ""⟩, pos⟩]
  | 0, _, _ :: _ => .error .diverges
  | fuel + 1, pos, c :: cs =>
    match masterMatch U (c :: cs) with
    | none => .error (unexpected C c pos)
    | some (group, rest) => do
      let text := (c :: cs).take ((c :: cs).length - rest.length)
      let tokens ← tokenizeFrom fuel (pos + text.length) rest
      return (tokenOf upper pos text group).toList ++ tokens

def tokenize (sql : String) : Except PyError (List Token) :=
  tokenizeFrom C U upper sql.toList.length 0 sql.toList

/-- `parse`. -/
def parse (sql : String) : Except PyError AnyStatement := do
  parseStatement C upper (← tokenize C U upper sql)

end

end Minirel
