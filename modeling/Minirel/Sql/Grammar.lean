-- SUMMARY: The ways to write a statement.
import Minirel.Sql.Rendering

/-!
# The grammar

`Spelled` says of words that they write an expression, `StatementSpelled` the same of a
statement. Beside the rendering these are the texts with parentheses around any expression,
with `AS` and `ASC` or without, with `!=` for `<>`, with minus signs that cancel, and with the
names of functions and types in any case. How a number is spelled is a parameter.
-/

namespace Minirel

open Word

/-- The spellings of a numeric literal and of the number of a LIMIT. -/
structure Numerals where
  literal : String → Value → Prop
  limit : String → Nat → Prop

/-- Any text that the interpreter reads as the number. -/
def Numerals.read (C : Conversions) : Numerals where
  literal text value := numberValue C text = .ok value
  limit text n := ∃ i, C.intOfStr text = .ok i ∧ i.toNat = n

/-- An integer is written with its decimal digits. -/
def Numerals.canonical (C : Conversions) : Numerals where
  literal text value := numberValue C text = .ok value ∧ ∀ i, value = .int i → text = toString i
  limit text n := text = toString n

/-- Not a `bool`, which is an `int` to Python. -/
def Value.isBool : Value → Bool
  | .bool _ => true
  | _ => false

section
variable (N : Numerals) (upper : String → String)

inductive Spelled : Precedence → Expr → List Word → Prop where
  | number {text : String} {value : Value} (h : N.literal text value) :
    Spelled .primary (.literal value) [number text]
  | string (s : String) : Spelled .primary (.literal (.str s)) [string s]
  | true : Spelled .primary (.literal (.bool true)) [keyword "TRUE"]
  | false : Spelled .primary (.literal (.bool false)) [keyword "FALSE"]
  | null : Spelled .primary (.literal .none) [keyword "NULL"]
  | negative {value value' : Value} {ws : List Word} (h : Spelled .primary (.literal value) ws)
      (hbool : value.isBool = Bool.false) (hneg : (Expr.literal value).negated? = some value') :
    Spelled .primary (.literal value') (op "-" :: ws)
  | parens {e : Expr} {ws : List Word} (h : Spelled .or e ws) :
    Spelled .primary e (op "(" :: ws ++ [op ")"])
  | star : Spelled .primary .star [op "*"]
  | functionCall {name : String} {arg : Expr} {ws : List Word} (h : Spelled .or arg ws) :
    Spelled .primary (.functionCall (upper name) arg) (ident name :: op "(" :: ws ++ [op ")"])
  | column (name : String) : Spelled .primary (.columnRef name none) [ident name]
  | qualified (table name : String) :
    Spelled .primary (.columnRef name (some table)) [ident table, op ".", ident name]
  | comparison {left right : Expr} {ws₁ ws₂ : List Word} {text : String} {cmp : BinOp}
      (hcmp : comparisonOp? text = some cmp) (h₁ : Spelled .primary left ws₁)
      (h₂ : Spelled .primary right ws₂) :
    Spelled .comparison (.binaryOp cmp left right) (ws₁ ++ op text :: ws₂)
  | not {e : Expr} {ws : List Word} (h : Spelled .not e ws) :
    Spelled .not (.unaryOp .not e) (keyword "NOT" :: ws)
  | and {left right : Expr} {ws₁ ws₂ : List Word} (h₁ : Spelled .and left ws₁)
      (h₂ : Spelled .not right ws₂) :
    Spelled .and (.binaryOp .and left right) (ws₁ ++ keyword "AND" :: ws₂)
  | or {left right : Expr} {ws₁ ws₂ : List Word} (h₁ : Spelled .or left ws₁)
      (h₂ : Spelled .and right ws₂) :
    Spelled .or (.binaryOp .or left right) (ws₁ ++ keyword "OR" :: ws₂)
  | lift {own outer : Precedence} {e : Expr} {ws : List Word} (h : Spelled own e ws)
      (hle : own.rank ≤ outer.rank) : Spelled outer e ws

/-! ## Parts of statements -/

/-- Items with commas between them. -/
inductive CommaSpelled {α : Type} (W : α → List Word → Prop) : List α → List Word → Prop where
  | single {a : α} {ws : List Word} (h : W a ws) : CommaSpelled W [a] ws
  | snoc {items : List α} {a : α} {ws ws' : List Word} (h : CommaSpelled W items ws) (ha : W a ws') :
    CommaSpelled W (items ++ [a]) (ws ++ op "," :: ws')

/-- A list in parentheses. -/
def RowSpelled {α : Type} (W : α → List Word → Prop) (items : List α) (ws : List Word) : Prop :=
  ∃ inner, CommaSpelled W items inner ∧ ws = op "(" :: inner ++ [op ")"]

def NameSpelled (name : String) (ws : List Word) : Prop := ws = [ident name]

def ColumnSpelled (col : Column) (ws : List Word) : Prop :=
  ∃ text, columnType? (upper text) = some col.type ∧ ws = [ident col.name, keyword text]

def InsertColumnsSpelled : Option (List String) → List Word → Prop
  | some names, ws => RowSpelled NameSpelled names ws
  | none, ws => ws = []

def AliasSpelled : Option String → List Word → Prop
  | some alias_, ws => ws = [keyword "AS", ident alias_] ∨ ws = [ident alias_]
  | none, ws => ws = []

def ItemSpelled (item : SelectItem) (ws : List Word) : Prop :=
  ∃ inner, Spelled N upper .or item.expr inner ∧
    ws = inner ++ match item.alias_ with
      | some alias_ => [keyword "AS", ident alias_]
      | none => []

def OrderItemSpelled (item : OrderByItem) (ws : List Word) : Prop :=
  ∃ inner direction, Spelled N upper .or item.expr inner ∧ ws = inner ++ direction ∧
    if item.descending then direction = [keyword "DESC"]
    else direction = [] ∨ direction = [keyword "ASC"]

/-- A clause behind its keywords; an absent one has no words. -/
def ClauseSpelled {α : Type} (keywords : List Word) (absent : α) (W : α → List Word → Prop) (a : α)
    (ws : List Word) : Prop :=
  a = absent ∧ ws = [] ∨ ∃ inner, W a inner ∧ ws = keywords ++ inner

def WhereSpelled : Option Expr → List Word → Prop :=
  ClauseSpelled [keyword "WHERE"] none fun where_ ws =>
    ∃ e, where_ = some e ∧ Spelled N upper .or e ws

def JoinSpelled : Option JoinClause → List Word → Prop :=
  ClauseSpelled [keyword "JOIN"] none fun join ws =>
    ∃ j ws₁ ws₂, join = some j ∧ AliasSpelled j.alias_ ws₁ ∧ Spelled N upper .or j.on ws₂ ∧
      ws = ident j.table :: ws₁ ++ keyword "ON" :: ws₂

def GroupBySpelled : List String → List Word → Prop :=
  ClauseSpelled [keyword "GROUP", keyword "BY"] [] (CommaSpelled NameSpelled)

def OrderBySpelled : List OrderByItem → List Word → Prop :=
  ClauseSpelled [keyword "ORDER", keyword "BY"] [] (CommaSpelled (OrderItemSpelled N upper))

def LimitSpelled : Option Nat → List Word → Prop :=
  ClauseSpelled [keyword "LIMIT"] none fun limit ws =>
    ∃ n text, limit = some n ∧ N.limit text n ∧ ws = [number text]

def AssignmentSpelled (a : String × Expr) (ws : List Word) : Prop :=
  ∃ inner, Spelled N upper .or a.2 inner ∧ ws = ident a.1 :: op "=" :: inner

/-! ## Statements -/

inductive StatementSpelled : AnyStatement → List Word → Prop where
  | createTable {table : String} {columns : List Column} {ws : List Word}
      (h : RowSpelled (ColumnSpelled upper) columns ws) :
    StatementSpelled (.statement (.createTable table columns))
      (keyword "CREATE" :: keyword "TABLE" :: ident table :: ws)
  | createIndex (indexName table column : String) (unique : Bool) :
    StatementSpelled (.statement (.createIndex indexName table column unique))
      (keyword "CREATE" :: (if unique then [keyword "UNIQUE"] else []) ++
        [keyword "INDEX", ident indexName, keyword "ON", ident table, op "(", ident column, op ")"])
  | insert {table : String} {columns : Option (List String)} {rows : List (List Expr)}
      {ws₁ ws₂ : List Word} (hcolumns : InsertColumnsSpelled columns ws₁)
      (hrows : CommaSpelled (RowSpelled (Spelled N upper .or)) rows ws₂) :
    StatementSpelled (.statement (.insert table columns rows))
      (keyword "INSERT" :: keyword "INTO" :: ident table :: ws₁ ++ keyword "VALUES" :: ws₂)
  | update {table : String} {assignments : List (String × Expr)} {where_ : Option Expr}
      {ws₁ ws₂ : List Word} (hassignments : CommaSpelled (AssignmentSpelled N upper) assignments ws₁)
      (hwhere : WhereSpelled N upper where_ ws₂) :
    StatementSpelled (.statement (.update table assignments where_))
      (keyword "UPDATE" :: ident table :: keyword "SET" :: ws₁ ++ ws₂)
  | delete {table : String} {where_ : Option Expr} {ws : List Word}
      (hwhere : WhereSpelled N upper where_ ws) :
    StatementSpelled (.statement (.delete table where_))
      (keyword "DELETE" :: keyword "FROM" :: ident table :: ws)
  | select {stmt : Select} {ws₁ ws₂ ws₃ ws₄ ws₅ ws₆ ws₇ : List Word}
      (hitems : CommaSpelled (ItemSpelled N upper) stmt.items ws₁)
      (halias : AliasSpelled stmt.tableAlias ws₂) (hjoin : JoinSpelled N upper stmt.join ws₃)
      (hwhere : WhereSpelled N upper stmt.where_ ws₄) (hgroup : GroupBySpelled stmt.groupBy ws₅)
      (horder : OrderBySpelled N upper stmt.orderBy ws₆) (hlimit : LimitSpelled N stmt.limit ws₇) :
    StatementSpelled (.select stmt)
      (keyword "SELECT" :: ws₁ ++ keyword "FROM" :: ident stmt.table :: ws₂ ++ ws₃ ++ ws₄ ++ ws₅ ++
        ws₆ ++ ws₇)

/-- The words are a statement, an optional `;` and the end of the text. -/
def TextSpelled (stmt : AnyStatement) (ws : List Word) : Prop :=
  ∃ body semicolon eof, StatementSpelled N upper stmt body ∧
    (semicolon = [] ∨ semicolon = [op ";"]) ∧ eof.kind = .eof ∧ ws = body ++ semicolon ++ [eof]

end

/-! ## The rendering -/

section
variable {C : Conversions} {upper : String → String} {style : Style}

theorem Spelled.parenthesize {N : Numerals} {own outer : Precedence} {e : Expr} {ws : List Word}
    (h : Spelled N upper own e ws) : Spelled N upper outer e (parenthesize outer own ws) := by
  unfold Minirel.parenthesize
  split
  · rename_i hle
    exact .lift h hle
  · exact .lift (.parens (.lift h (by cases own <;> decide))) (Nat.zero_le _)

theorem Value.words_spelled {value : Value} (h : value.Writable C) :
    Spelled (Numerals.canonical C) upper .primary (.literal value) value.words := by
  cases value with
  | none => exact .null
  | bool b =>
    cases b with
    | true => exact .true
    | false => exact .false
  | int i =>
    have hnumber : Spelled (Numerals.canonical C) upper .primary (.literal (.int i.natAbs))
        [number (toString i.natAbs)] :=
      .number ⟨numberValue_digits h, fun j hj => by cases hj; rfl⟩
    simp only [Value.words]
    split
    · refine .negative hnumber rfl ?_
      simp only [Expr.negated?]
      congr 2
      omega
    · have hcast : (i.natAbs : Int) = i := by omega
      rwa [hcast] at hnumber
  | float x => exact h.elim
  | str s => exact .string s

theorem Expr.words_spelled {e : Expr} (h : e.Writable C upper) :
    Spelled (Numerals.canonical C) upper e.precedence e (e.words style) := by
  induction e with
  | literal value => exact Value.words_spelled h
  | columnRef name table =>
    cases table with
    | none => exact .column name
    | some table => exact .qualified table name
  | star => exact h.elim
  | unaryOp unary operand ih =>
    cases unary with
    | not => exact .not (Spelled.parenthesize (ih h))
  | binaryOp binary left right ihleft ihright =>
    have hleft := ihleft h.1
    have hright := ihright h.2
    cases binary with
    | or => exact .or hleft.parenthesize hright.parenthesize
    | and => exact .and hleft.parenthesize hright.parenthesize
    | eq | ne | lt | le | gt | ge =>
      exact .comparison (comparisonOp?_text (by decide) (by decide)) hleft.parenthesize
        hright.parenthesize
  | functionCall name arg ih =>
    obtain ⟨hname, harg⟩ := h
    have hor : Spelled (Numerals.canonical C) upper .or arg (arg.words style) := by
      obtain rfl | harg := harg
      · exact .lift .star (by decide)
      · exact .lift (ih harg) (by cases arg.precedence <;> decide)
    have hcall : Spelled (Numerals.canonical C) upper .primary (.functionCall (upper name) arg)
        (ident name :: op "(" :: arg.words style ++ [op ")"]) := .functionCall hor
    rwa [hname] at hcall

theorem Expr.words_or {e : Expr} (h : e.Writable C upper) :
    Spelled (Numerals.canonical C) upper .or e (e.words style) :=
  .lift (Expr.words_spelled h) (by cases e.precedence <;> decide)

theorem commaSeparated_spelled {α : Type} {W : α → List Word → Prop} {words : α → List Word}
    {items : List α} (hne : items ≠ []) (h : ∀ a ∈ items, W a (words a)) :
    CommaSpelled W items (commaSeparated words items) := by
  obtain ⟨b, items, rfl⟩ := List.exists_cons_of_ne_nil hne
  rw [commaSeparated_cons]
  clear hne
  induction items using List.reverseRecOn with
  | nil =>
    rw [List.flatMap_nil, List.append_nil]
    exact .single (h b (List.mem_cons_self ..))
  | append_singleton items a ih =>
    have hinit := ih fun c hc => h c (List.mem_cons.mpr ((List.mem_cons.mp hc).imp_right
      fun hmem => List.mem_append_left _ hmem))
    rw [List.flatMap_append, ← List.append_assoc]
    simpa using hinit.snoc (h a (by simp))

theorem rowWords_spelled {α : Type} {W : α → List Word → Prop} {words : α → List Word}
    {items : List α} (hne : items ≠ []) (h : ∀ a ∈ items, W a (words a)) :
    RowSpelled W items (rowWords words items) :=
  ⟨_, commaSeparated_spelled hne h, rfl⟩

theorem aliasWords_spelled (alias_ : Option String) :
    AliasSpelled alias_ (aliasWords style alias_) := by
  cases alias_ with
  | none => rfl
  | some alias_ =>
    simp only [aliasWords]
    split
    · exact .inl rfl
    · exact .inr rfl

theorem whereWords_spelled {where_ : Option Expr} (h : ∀ e ∈ where_, e.Writable C upper) :
    WhereSpelled (Numerals.canonical C) upper where_ (whereWords style where_) := by
  cases where_ with
  | none => exact .inl ⟨rfl, rfl⟩
  | some e => exact .inr ⟨_, ⟨e, rfl, Expr.words_or (h e rfl)⟩, rfl⟩

theorem Select.words_spelled {stmt : Select} (h : stmt.Writable C upper) :
    StatementSpelled (Numerals.canonical C) upper (.select stmt) (stmt.words style) := by
  obtain ⟨hitems, hjoin, hwhere, horder, hlimit⟩ := h
  refine .select ?_ (aliasWords_spelled _) ?_ (whereWords_spelled hwhere) ?_ ?_ ?_
  · obtain hstar | ⟨hne, hitems⟩ := hitems
    · rw [hstar]
      exact .single ⟨_, .lift .star (by decide), rfl⟩
    · exact commaSeparated_spelled hne fun item hitem => ⟨_, Expr.words_or (hitems item hitem), rfl⟩
  · cases hj : stmt.join with
    | none => exact .inl ⟨rfl, rfl⟩
    | some j =>
      exact .inr ⟨_, ⟨j, _, _, rfl, aliasWords_spelled _, Expr.words_or (hjoin j hj), rfl⟩, rfl⟩
  · cases hg : stmt.groupBy with
    | nil => exact .inl ⟨rfl, rfl⟩
    | cons name names =>
      exact .inr ⟨_, commaSeparated_spelled (List.cons_ne_nil _ _) fun _ _ => rfl, rfl⟩
  · cases ho : stmt.orderBy with
    | nil => exact .inl ⟨rfl, rfl⟩
    | cons item items =>
      refine .inr ⟨_, commaSeparated_spelled (List.cons_ne_nil _ _) fun a ha => ?_, rfl⟩
      refine ⟨_, _, Expr.words_or (horder a (ho ▸ ha)), rfl, ?_⟩
      cases a.descending with
      | true => rfl
      | false => cases style.withAsc <;> simp
  · cases hl : stmt.limit with
    | none => exact .inl ⟨rfl, rfl⟩
    | some n => exact .inr ⟨_, ⟨n, _, rfl, rfl, rfl⟩, rfl⟩

/-- The rendering is one of the ways to write a statement. -/
theorem AnyStatement.words_spelled (hupper : ∀ t : ColumnType, upper t.value = t.value)
    {stmt : AnyStatement} (h : stmt.Writable C upper) :
    StatementSpelled (Numerals.canonical C) upper stmt (stmt.words style) := by
  cases stmt with
  | select stmt => exact Select.words_spelled h
  | statement stmt =>
    cases stmt with
    | createTable table columns =>
      refine .createTable (rowWords_spelled h fun col _ => ⟨col.type.value, ?_, rfl⟩)
      rw [hupper]
      cases col.type <;> rfl
    | createIndex indexName table column unique => exact .createIndex indexName table column unique
    | insert table columns rows =>
      obtain ⟨hcolumns, hne, hrows⟩ := h
      refine .insert ?_ (commaSeparated_spelled hne fun row hrow => rowWords_spelled (hrows row hrow).1
        fun e he => Expr.words_or ((hrows row hrow).2 e he))
      cases columns with
      | none => rfl
      | some names => exact rowWords_spelled (fun hnil => hcolumns (by rw [hnil])) fun _ _ => rfl
    | update table assignments where_ =>
      obtain ⟨hne, hassignments, hwhere⟩ := h
      exact .update (commaSeparated_spelled hne fun a ha => ⟨_, Expr.words_or (hassignments a ha), rfl⟩)
        (whereWords_spelled hwhere)
    | delete table where_ => exact .delete (whereWords_spelled h)

end

end Minirel
