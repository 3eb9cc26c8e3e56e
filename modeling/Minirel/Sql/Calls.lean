-- SUMMARY: Which functions a statement calls, and which of them are aggregates.
import Minirel.Sql.Termination
import Minirel.Aggregation

/-!
# Calls

The parser makes a call of every identifier before an opening parenthesis, in the order of
the text, whatever its name is: `_AGGREGATE_NAMES` is not asked. `_AggState` knows the names in
it and no others.
-/

namespace Minirel

open Word

/-- `_AGGREGATE_NAMES`. -/
def aggregateNames : List String := ["COUNT", "SUM", "AVG", "MIN", "MAX"]

/-- These are the names that the branches of `_AggState` know. -/
theorem mem_aggregateNames {name : String} :
    name ∈ aggregateNames ↔ AggKind.ofName name ≠ .other := by
  unfold AggKind.ofName
  split
  case h_6 hcount hsum havg hmin hmax =>
    have hother : name ∉ aggregateNames := by
      simpa [aggregateNames] using ⟨hcount, hsum, havg, hmin, hmax⟩
    simp [hother]
  all_goals simp [aggregateNames]

/-! ## Calls of a statement -/

/-- The names of the calls in an expression, from left to right. -/
def Expr.calls : Expr → List String
  | .literal _ | .columnRef _ _ | .star => []
  | .unaryOp _ operand => operand.calls
  | .binaryOp _ left right => left.calls ++ right.calls
  | .functionCall name arg => name :: arg.calls

def Select.calls (stmt : Select) : List String :=
  stmt.items.flatMap (·.expr.calls) ++ stmt.join.toList.flatMap (·.on.calls) ++
    stmt.where_.toList.flatMap Expr.calls ++ stmt.orderBy.flatMap (·.expr.calls)

def Statement.calls : Statement → List String
  | .createTable _ _ => []
  | .createIndex _ _ _ _ => []
  | .insert _ _ rows => rows.flatMap fun row => row.flatMap Expr.calls
  | .update _ assignments where_ =>
    assignments.flatMap (fun a => a.2.calls) ++ where_.toList.flatMap Expr.calls
  | .delete _ where_ => where_.toList.flatMap Expr.calls

def AnyStatement.calls : AnyStatement → List String
  | .statement stmt => stmt.calls
  | .select stmt => stmt.calls

/-! ## Calls of a text -/

section
variable (upper : String → String)

/-- The identifiers before an opening parenthesis. -/
def calledNames : List Word → List String
  | [] => []
  | w :: rest =>
    if w.kind = .ident ∧ rest.head? = some (op "(") then upper w.value :: calledNames rest
    else calledNames rest

/-- The calls of a statement. A name before a list of columns is none. -/
def textCalls : List Word → List String
  | ⟨.keyword, "CREATE"⟩ :: _ => []
  | ⟨.keyword, "INSERT"⟩ :: ⟨.keyword, "INTO"⟩ :: _ :: rest => calledNames upper rest
  | ws => calledNames upper ws

/-- These words make these calls, wherever no parenthesis opens after them. -/
def Calls (ws : List Word) (names : List String) : Prop :=
  ∀ rest, rest.head? ≠ some (op "(") → calledNames upper (ws ++ rest) = names ++ calledNames upper rest

end

section
variable {upper : String → String} {ws ws₁ ws₂ : List Word} {names names₁ names₂ : List String}
  {w : Word}

namespace Calls

theorem nil : Calls upper [] [] := fun _ _ => rfl

theorem cons (hw : w.kind ≠ .ident) (h : Calls upper ws names) : Calls upper (w :: ws) names := by
  intro rest hrest
  rw [List.cons_append, calledNames, if_neg fun hcall => hw hcall.1]
  exact h rest hrest

/-- An identifier that is not called. -/
theorem ident {name : String} (h : Calls upper ws names) (hws : ws.head? ≠ some (op "(")) :
    Calls upper (ident name :: ws) names := by
  intro rest hrest
  have hnext : (ws ++ rest).head? ≠ some (op "(") := by
    cases ws with
    | nil => exact hrest
    | cons w ws => exact hws
  rw [List.cons_append, calledNames, if_neg fun hcall => hnext hcall.2]
  exact h rest hrest

theorem call {name : String} (h : Calls upper ws names) :
    Calls upper (Word.ident name :: op "(" :: ws) (upper name :: names) := by
  intro rest hrest
  have htail := (h.cons (w := op "(") (by decide)) rest hrest
  rw [List.cons_append, calledNames, if_pos ⟨rfl, rfl⟩, htail]
  rfl

theorem append (h₁ : Calls upper ws₁ names₁) (h₂ : Calls upper ws₂ names₂)
    (hws₂ : ws₂.head? ≠ some (op "(")) : Calls upper (ws₁ ++ ws₂) (names₁ ++ names₂) := by
  intro rest hrest
  have hnext : (ws₂ ++ rest).head? ≠ some (op "(") := by
    cases ws₂ with
    | nil => exact hrest
    | cons w ws₂ => exact hws₂
  rw [List.append_assoc, h₁ _ hnext, h₂ rest hrest, List.append_assoc]

/-- One phrase after another, with a word between them that is not called. -/
theorem between (h₁ : Calls upper ws₁ names₁) (hw : w.kind ≠ .ident) (hparen : w ≠ op "(")
    (h₂ : Calls upper ws₂ names₂) : Calls upper (ws₁ ++ w :: ws₂) (names₁ ++ names₂) :=
  h₁.append (h₂.cons hw) (by simpa using hparen)

theorem snoc (h : Calls upper ws names) (hw : w.kind ≠ .ident) (hparen : w ≠ op "(") :
    Calls upper (ws ++ [w]) names := by
  simpa using h.between hw hparen nil

end Calls

/-! ## Expressions -/

variable {C : Conversions} {prec : Precedence} {e : Expr}

theorem Written.calls (h : Written C upper prec e ws) : Calls upper ws e.calls := by
  induction h with
  | number | string | true | false | null | star => exact .cons nofun .nil
  | negative h hneg ih =>
    rename_i e _ ws
    -- a sign stands only before a number
    have hnone : e.calls = [] := by
      cases e with
      | literal value => rfl
      | columnRef | star | unaryOp | binaryOp | functionCall => cases hneg
    rw [hnone] at ih
    exact ih.cons nofun
  | parens h ih => exact (ih.snoc (w := op ")") nofun (by decide)).cons nofun
  | call h hstar ih => exact (ih.snoc (w := op ")") nofun (by decide)).call
  | callStarred h hstar ih =>
    have hstarred := (ih.snoc (w := op "*") nofun (by decide)).snoc (w := op ")") nofun (by decide)
    rw [List.append_assoc] at hstarred
    exact hstarred.call
  | column name => exact .ident .nil nofun
  | qualified table name => exact .ident (.cons nofun (.ident .nil nofun)) (by simp)
  | comparison hcmp h₁ h₂ ih₁ ih₂ =>
    refine ih₁.between nofun (fun hparen => ?_) ih₂
    cases hparen
    cases hcmp
  | not h ih => exact ih.cons nofun
  | and h₁ h₂ ih₁ ih₂ => exact ih₁.between nofun (by decide) ih₂
  | or h₁ h₂ ih₁ ih₂ => exact ih₁.between nofun (by decide) ih₂
  | lift h hle ih => exact ih

end

/-! ## Parts of statements -/

section
variable {C : Conversions} {upper : String → String} {α : Type} {W : α → List Word → Prop}
  {f : α → List String} {ws : List Word}

theorem CommaSpelled.calls {items : List α} (h : CommaSpelled W items ws)
    (hitem : ∀ a ws, W a ws → Calls upper ws (f a)) : Calls upper ws (items.flatMap f) := by
  induction h with
  | single h => simpa using hitem _ _ h
  | snoc h ha ih => simpa using ih.between (w := op ",") nofun (by decide) (hitem _ _ ha)

theorem RowSpelled.calls {items : List α} (h : RowSpelled W items ws)
    (hitem : ∀ a ws, W a ws → Calls upper ws (f a)) : Calls upper ws (items.flatMap f) := by
  obtain ⟨inner, hinner, rfl⟩ := h
  exact ((hinner.calls hitem).snoc (w := op ")") nofun (by decide)).cons nofun

theorem NameSpelled.calls {name : String} (h : NameSpelled name ws) : Calls upper ws [] := by
  obtain rfl : ws = [Word.ident name] := h
  exact .ident .nil nofun

theorem AliasSpelled.calls {alias_ : Option String} (h : AliasSpelled alias_ ws) :
    Calls upper ws [] := by
  cases alias_ with
  | none =>
    obtain rfl : ws = [] := h
    exact .nil
  | some alias_ =>
    rcases h with rfl | rfl
    · exact .cons nofun (.ident .nil nofun)
    · exact .ident .nil nofun

theorem AliasSpelled.head_ne {alias_ : Option String} (h : AliasSpelled alias_ ws) :
    ws.head? ≠ some (op "(") := by
  cases alias_ with
  | none =>
    obtain rfl : ws = [] := h
    nofun
  | some alias_ =>
    rcases h with rfl | rfl
    · simp
    · simp

theorem ClauseSpelled.calls {words : List Word} {name : String} {absent a : α}
    (h : ClauseSpelled (keyword name :: words) absent W a ws) (habsent : f absent = [])
    (hbody : ∀ a ws, W a ws → Calls upper (words ++ ws) (f a)) :
    Calls upper ws (f a) := by
  rcases h with ⟨rfl, rfl⟩ | ⟨inner, hinner, rfl⟩
  · rw [habsent]
    exact .nil
  · exact (hbody a inner hinner).cons nofun

/-- A clause starts with a keyword, if it is there. -/
theorem ClauseSpelled.head_ne {words : List Word} {name : String} {absent a : α}
    (h : ClauseSpelled (keyword name :: words) absent W a ws) : ws.head? ≠ some (op "(") := by
  rcases h with ⟨-, rfl⟩ | ⟨inner, -, rfl⟩
  · nofun
  · simp

theorem ItemWritten.calls {item : SelectItem} (h : ItemWritten C upper item ws) :
    Calls upper ws item.expr.calls := by
  obtain ⟨inner, he, rfl⟩ := h
  cases item.alias_ with
  | none =>
    rw [List.append_nil]
    exact he.calls
  | some alias_ => simpa using he.calls.between (w := keyword "AS") nofun (by decide) (.ident .nil nofun)

theorem ItemsWritten.calls {items : List SelectItem} (h : ItemsWritten C upper items ws) :
    Calls upper ws (items.flatMap (·.expr.calls)) := by
  rcases h with ⟨rfl, rfl⟩ | ⟨hitems, -⟩
  · exact .cons nofun .nil
  · exact hitems.calls fun _ _ hitem => hitem.calls

theorem JoinWritten.calls {join : Option JoinClause} (h : JoinWritten C upper join ws) :
    Calls upper ws (join.toList.flatMap (·.on.calls)) := by
  refine ClauseSpelled.calls (f := fun join => join.toList.flatMap (·.on.calls)) h rfl
    fun join ws hjoin => ?_
  obtain ⟨j, ws₁, ws₂, rfl, halias, hon, rfl⟩ := hjoin
  have hbody : Calls upper (ident j.table :: ws₁) [] := halias.calls.ident halias.head_ne
  simpa using hbody.between (w := keyword "ON") nofun (by decide) hon.calls

theorem WhereWritten.calls {where_ : Option Expr} (h : WhereWritten C upper where_ ws) :
    Calls upper ws (where_.toList.flatMap Expr.calls) := by
  refine ClauseSpelled.calls (f := fun where_ => where_.toList.flatMap Expr.calls) h rfl
    fun where_ ws hwhere => ?_
  obtain ⟨e, rfl, he⟩ := hwhere
  simpa using he.calls

theorem GroupBySpelled.calls {groupBy : List String} (h : GroupBySpelled groupBy ws) :
    Calls upper ws [] := by
  refine ClauseSpelled.calls (f := fun _ => []) h rfl fun names ws hnames => .cons nofun ?_
  have hlist : Calls upper ws (names.flatMap fun _ => []) := hnames.calls fun _ _ hname => hname.calls
  rwa [List.flatMap_eq_nil_iff.mpr fun _ _ => rfl] at hlist

theorem OrderItemWritten.calls {item : OrderByItem} (h : OrderItemWritten C upper item ws) :
    Calls upper ws item.expr.calls := by
  obtain ⟨inner, direction, he, rfl, hdirection⟩ := h
  have hcases : direction = [] ∨ direction = [keyword "ASC"] ∨ direction = [keyword "DESC"] := by
    split at hdirection
    · exact .inr (.inr hdirection)
    · rcases hdirection with hnone | hasc
      · exact .inl hnone
      · exact .inr (.inl hasc)
  rcases hcases with rfl | rfl | rfl
  · rw [List.append_nil]
    exact he.calls
  · exact he.calls.snoc (w := keyword "ASC") nofun (by decide)
  · exact he.calls.snoc (w := keyword "DESC") nofun (by decide)

theorem OrderByWritten.calls {orderBy : List OrderByItem} (h : OrderByWritten C upper orderBy ws) :
    Calls upper ws (orderBy.flatMap (·.expr.calls)) :=
  ClauseSpelled.calls h rfl fun _ _ hitems =>
    .cons nofun (hitems.calls fun _ _ hitem => hitem.calls)

theorem LimitSpelled.calls {N : Numerals} {limit : Option Nat} (h : LimitSpelled N limit ws) :
    Calls upper ws [] := by
  refine ClauseSpelled.calls (f := fun _ => []) h rfl fun limit ws hlimit => ?_
  obtain ⟨n, text, -, -, rfl⟩ := hlimit
  exact .cons (w := number text) nofun .nil

theorem AssignmentWritten.calls {a : String × Expr} (h : AssignmentWritten C upper a ws) :
    Calls upper ws a.2.calls := by
  obtain ⟨inner, he, rfl⟩ := h
  exact .ident (.cons nofun he.calls) (by simp)

/-! ## Statements -/

theorem HeadWritten.calls {stmt : Select} (h : HeadWritten C upper stmt ws) :
    Calls upper ws stmt.calls := by
  obtain ⟨ws₁, ws₂, ws₃, ws₄, ws₅, ws₆, hitems, halias, hjoin, hwhere, hgroup, horder, rfl⟩ := h
  have hfrom : Calls upper (ws₁ ++ keyword "FROM" :: ident stmt.table :: ws₂)
      (stmt.items.flatMap (·.expr.calls) ++ []) :=
    hitems.calls.between (w := keyword "FROM") nofun (by decide) (halias.calls.ident halias.head_ne)
  have hjoined := hfrom.append hjoin.calls (ClauseSpelled.head_ne hjoin)
  have hfiltered := hjoined.append hwhere.calls (ClauseSpelled.head_ne hwhere)
  have hgrouped := hfiltered.append hgroup.calls (ClauseSpelled.head_ne hgroup)
  have hordered := hgrouped.append horder.calls (ClauseSpelled.head_ne horder)
  have hall := hordered.cons (w := keyword "SELECT") nofun
  simpa [Select.calls] using hall

/-- A statement and what may follow it. -/
theorem StatementWritten.calls {stmt : AnyStatement} {rest : List Word}
    (h : StatementWritten C upper stmt ws) (hhead : rest.head? ≠ some (op "("))
    (hrest : calledNames upper rest = []) : textCalls upper (ws ++ rest) = stmt.calls := by
  -- where the text is no CREATE and no INSERT, it is searched as a whole
  have hwhole : ∀ {names}, textCalls upper (ws ++ rest) = calledNames upper (ws ++ rest) →
      Calls upper ws names → textCalls upper (ws ++ rest) = names := by
    intro names htext hcalls
    rw [htext, hcalls rest hhead, hrest, List.append_nil]
  cases h with
  | createTable unique h => rfl
  | createIndex indexName table column unique => rfl
  | insert hcolumns hrows =>
    rename_i columns rows ws₁ ws₂
    have hcalls : Calls upper (ws₁ ++ keyword "VALUES" :: ws₂)
        (rows.flatMap fun row => row.flatMap Expr.calls) := by
      have hvalues := hrows.calls fun _ _ hrow => hrow.calls fun _ _ he => Written.calls he
      cases columns with
      | none =>
        obtain rfl : ws₁ = [] := hcolumns
        exact hvalues.cons nofun
      | some names =>
        have hnames : Calls upper ws₁ (names.flatMap fun _ => []) :=
          RowSpelled.calls hcolumns fun _ _ hname => hname.calls
        rw [List.flatMap_eq_nil_iff.mpr fun _ _ => rfl] at hnames
        exact hnames.between nofun (by decide) hvalues
    have hsearch := hcalls rest hhead
    rw [hrest, List.append_nil] at hsearch
    exact hsearch
  | update hassignments hwhere =>
    refine hwhole rfl (.cons nofun (.ident (.cons nofun ?_) (by simp)))
    exact (hassignments.calls fun _ _ ha => ha.calls).append hwhere.calls (ClauseSpelled.head_ne hwhere)
  | delete hwhere =>
    refine hwhole rfl (.cons nofun (.cons nofun (.ident ?_ (ClauseSpelled.head_ne hwhere))))
    exact hwhere.calls
  | select hhead' hlimit =>
    obtain ⟨tail, rfl⟩ := hhead'.starts
    have hall := hhead'.calls.append hlimit.calls (ClauseSpelled.head_ne hlimit)
    rw [List.append_nil] at hall
    exact hwhole rfl hall

/-- The parser makes the calls that the text makes, in their order. -/
theorem TextWritten.calls {stmt : AnyStatement} (h : TextWritten C upper stmt ws) :
    textCalls upper ws = stmt.calls := by
  obtain ⟨body, semicolon, eof, hstmt, hsemicolon, heof, rfl⟩ := h
  have hident : eof.kind ≠ .ident := by
    rw [heof]
    decide
  have hop : some eof ≠ some (op "(") := fun h => by
    cases h
    cases heof
  rw [List.append_assoc]
  rcases hsemicolon with rfl | rfl
  · refine hstmt.calls hop ?_
    simp [calledNames]
  · refine hstmt.calls (by simp) ?_
    simp [calledNames]

end

/-! ## The whole text -/

section
variable (C : Conversions) (U : Unicode) (upper : String → String)

/-- The text calls aggregates only. -/
def CallsAggregates (sql : String) : Prop :=
  ∃ tokens, tokenize C U upper sql = .ok tokens ∧
    ∀ name ∈ textCalls upper (tokens.map Token.toWord), name ∈ aggregateNames

end

section
variable {C : Conversions} {U : Unicode} {upper : String → String} {sql : String}
  {stmt : AnyStatement}

/-- The calls of a statement that is accepted are aggregates just if the calls of the text
    are, and then `_AggState` knows them all. -/
theorem calls_aggregate_iff (h : parse C U upper sql = .ok stmt) :
    (∀ name ∈ stmt.calls, name ∈ aggregateNames ∧ AggKind.ofName name ≠ .other) ↔
      CallsAggregates C U upper sql := by
  obtain ⟨tokens, htokens, hwritten⟩ := parse_written h
  rw [← hwritten.calls]
  constructor
  · intro hcalls
    exact ⟨tokens, htokens, fun name hname => (hcalls name hname).1⟩
  · rintro ⟨tokens', htokens', hcalls⟩ name hname
    rw [htokens] at htokens'
    cases htokens'
    exact ⟨hcalls name hname, mem_aggregateNames.mp (hcalls name hname)⟩

end

/-- `SELECT COUNT(*), sum(a) FROM t`. -/
def countAndSum : AnyStatement :=
  .select
    { items := [{ expr := .functionCall "COUNT" .star },
        { expr := .functionCall "SUM" (.columnRef "a" none) }],
      table := "t" }

theorem calls_aggregate_iff_count :
    (∀ name ∈ countAndSum.calls, name ∈ aggregateNames ∧ AggKind.ofName name ≠ .other) ↔
      CallsAggregates .integral .ascii String.toUpper "SELECT COUNT(*), sum(a) FROM t" :=
  calls_aggregate_iff (by decide +kernel)

theorem calls_aggregate_unknown :
    ¬ ∀ stmt, parse .integral .ascii String.toUpper "SELECT FOO(a) FROM t" = .ok stmt →
      ∀ name ∈ stmt.calls, name ∈ aggregateNames ∧ AggKind.ofName name ≠ .other := by
  intro hclaim
  have hrun : parse .integral .ascii String.toUpper "SELECT FOO(a) FROM t" =
      .ok (.select { items := [{ expr := .functionCall "FOO" (.columnRef "a" none) }], table := "t" }) := by
    decide +kernel
  have hfoo := hclaim _ hrun "FOO" (by simp [AnyStatement.calls, Select.calls, Expr.calls])
  exact hfoo.2 rfl

/-- An aggregate that `_AggState` does not know is NULL, whatever values it is given. -/
theorem AggState.unknown_null {C : Conversions} {A : FloatArithmetic} {name : String}
    (hname : name ∉ aggregateNames) (values : List RowItem) :
    (do (← values.foldlM (AggState.add C A) { kind := .ofName name }).result A) =
      .ok (.value .none) := by
  have hother : AggKind.ofName name = .other := by
    by_contra hknown
    exact hname (mem_aggregateNames.mpr hknown)
  rw [hother]
  have hadd : ∀ value, AggState.add C A { kind := .other } value = .ok { kind := .other } := by
    intro value
    simp only [AggState.add]
    split <;> rfl
  induction values with
  | nil => rfl
  | cons value values ih =>
    rw [List.foldlM_cons, hadd]
    exact ih

end Minirel
