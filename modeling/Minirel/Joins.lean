-- SUMMARY: The rows of a SELECT over a join, compared with ON and WHERE on the joined rows.
import Minirel.Statements
import Minirel.Pushdown
import Minirel.OperatorTrees

/-!
# Joins

`build_select_plan` below grouping, sorting, limiting and projection: the WHERE clause goes
to the row source of the left table, and what that yields is joined with the right table.
Here the rows this yields are compared with the joined rows on which ON and WHERE hold.
-/

namespace Minirel

/-! ## The plan -/

/-- `alias or table`. -/
def aliasOr (alias_ : Option String) (table : String) : String :=
  match alias_ with
  | none | some "" => table
  | some name => name

def Select.leftAlias (stmt : Select) : String := aliasOr stmt.tableAlias stmt.table

def JoinClause.rightAlias (join : JoinClause) : String := aliasOr join.alias_ join.table

section Plan
variable {π : Type} (C : Conversions) (mgr : TransactionManager π) (snapshot : Snapshot)
  (catalog : Catalog)

/-- A fresh `SeqScanOperator` over a table, drained. -/
def scanTable (tableName alias_ : String) : PagesM (List Row) := do
  let table ← PageM.lift (catalog.getTable tableName)
  let heap ← HeapFile.openAt table.heapFirstPageId
  seqScan mgr snapshot heap table.schema alias_

/-- `NestedLoopJoinOperator`: the right side is scanned anew for every left row. -/
def joinRows (right : PagesM (List Row)) (on : Expr) : List Row → PagesM (List Row)
  | [] => return []
  | leftRow :: leftRows => do
    let rightRows ← right
    let merged ← PageM.lift (filterRows on (rightRows.map leftRow.update))
    return merged ++ (← joinRows right on leftRows)

/-- Draining what `build_select_plan` groups, sorts, limits and projects. -/
def selectSource (stmt : Select) : PagesM (List Row) := do
  let table ← PageM.lift (catalog.getTable stmt.table)
  let left ← rowSource C mgr snapshot table stmt.leftAlias stmt.where_
  match stmt.join with
  | none => return left
  | some join => joinRows (scanTable mgr snapshot catalog join.table join.rightAlias) join.on left

end Plan

/-! ## What references a row and a joined row know -/

def columnRefs : Expr → List (String × Option String)
  | .literal _ | .star => []
  | .columnRef name table => [(name, table)]
  | .unaryOp _ operand => columnRefs operand
  | .binaryOp _ left right => columnRefs left ++ columnRefs right
  | .functionCall _ arg => columnRefs arg

/-- The reference resolves in one row, and the other has no such column. -/
def ResolvesIn (row other : Row) (ref : String × Option String) : Prop :=
  (∃ item, resolveColumn row ref.1 ref.2 = .ok item) ∧
    ∃ msg, resolveColumn other ref.1 ref.2 = .error (.columnNotFoundError msg)

/-- Each reference resolves in one of the two rows only. -/
def ResolvesUniquely (e : Expr) (l r : Row) : Prop :=
  ∀ ref ∈ columnRefs e, ResolvesIn l r ref ∨ ResolvesIn r l ref

theorem Dict.get?_update_of_get?_none {α : Type} {d items : Dict α} {key : String}
    (h : Dict.get? items key = none) : (Dict.update d items).get? key = d.get? key := by
  rw [Dict.get?_update]
  cases hfind : items.reverse.find? (fun x => x.1 = key) with
  | none => rfl
  | some x =>
    obtain ⟨k, a⟩ := x
    have hmem := List.mem_reverse.mp (List.mem_of_find?_eq_some hfind)
    obtain rfl : k = key := by simpa using List.find?_some hfind
    obtain ⟨b, hb⟩ := Dict.get?_of_mem hmem
    cases h.symm.trans hb

theorem Dict.filter_keys_set {α : Type} (p : String → Bool) (d : Dict α) {key : String}
    (h : p key = false) (b : α) : (d.set key b).keys.filter p = d.keys.filter p := by
  induction d with
  | nil => simp [Dict.set, Dict.keys, h]
  | cons x d ih =>
    obtain ⟨k, a⟩ := x
    unfold Dict.set
    split
    · rfl
    · simp only [Dict.keys, List.map_cons, List.filter_cons] at ih ⊢
      rw [ih]

theorem Dict.filter_keys_update {α : Type} (p : String → Bool) (d items : Dict α)
    (h : items.keys.filter p = []) : (d.update items).keys.filter p = d.keys.filter p := by
  have hnone := List.filter_eq_nil_iff.mp h
  clear h
  induction items generalizing d with
  | nil => rfl
  | cons x items ih =>
    obtain ⟨k, a⟩ := x
    rw [show Dict.update d ((k, a) :: items) = Dict.update (d.set k a) items from rfl,
      ih _ fun k' hk' => hnone k' (List.mem_cons_of_mem k hk'),
      Dict.filter_keys_set p d (by simpa using hnone k List.mem_cons_self)]

/-- A reference that resolves in the left row only is worth the same on the joined row. -/
theorem ResolvesIn.update {l r : Row} {ref : String × Option String} (h : ResolvesIn l r ref) :
    resolveColumn (l.update r) ref.1 ref.2 = resolveColumn l ref.1 ref.2 := by
  obtain ⟨name, table⟩ := ref
  obtain ⟨-, msg, hmissing⟩ := h
  cases table with
  | some t =>
    have hr : r.get? (t ++ "." ++ name) = none := by
      simp only [resolveColumn] at hmissing
      split at hmissing
      · cases hmissing
      · assumption
    simp only [resolveColumn, Dict.get?_update_of_get?_none hr]
  | none =>
    have hr : r.get? name = none ∧
        r.keys.filter (fun k => ("." ++ name).toList.isSuffixOf k.toList) = [] := by
      simp only [resolveColumn] at hmissing
      split at hmissing
      · cases hmissing
      · rename_i hget
        split at hmissing
        · exact ⟨hget, by assumption⟩
        · split at hmissing <;> cases hmissing
        · cases hmissing
    obtain ⟨hget, hkeys⟩ := hr
    simp only [resolveColumn, Dict.get?_update_of_get?_none hget, Dict.filter_keys_update _ _ _ hkeys]
    cases l.get? name with
    | some item => rfl
    | none =>
      dsimp only
      cases hmatched : l.keys.filter (fun k => ("." ++ name).toList.isSuffixOf k.toList) with
      | nil => rfl
      | cons key rest =>
        cases rest with
        | cons key' rest => rfl
        | nil =>
          have hsuffix : ("." ++ name).toList.isSuffixOf key.toList = true := by
            have hmem : key ∈ l.keys.filter (fun k => ("." ++ name).toList.isSuffixOf k.toList) := by
              rw [hmatched]
              exact List.mem_singleton_self key
            exact (List.mem_filter.mp hmem).2
          have hr : r.get? key = none := by
            cases hr : r.get? key with
            | none => rfl
            | some item =>
              exact absurd hsuffix (List.filter_eq_nil_iff.mp hkeys key (Dict.mem_keys_of_get? hr))
          simp only [Dict.get?_update_of_get?_none hr]

theorem columnRefs_conjuncts {e c : Expr} {ref : String × Option String} (hc : c ∈ conjuncts e)
    (href : ref ∈ columnRefs c) : ref ∈ columnRefs e := by
  fun_induction conjuncts e with
  | case1 left right ihl ihr =>
    obtain hc | hc := List.mem_append.mp hc
    · exact List.mem_append_left _ (ihl hc)
    · exact List.mem_append_right _ (ihr hc)
  | case2 e _ =>
    obtain rfl := List.mem_singleton.mp hc
    exact href

/-- The references of a WHERE clause, if there is one, resolve uniquely. -/
def WhereResolves (where_ : Option Expr) (l r : Row) : Prop := ∀ e ∈ where_, ResolvesUniquely e l r

theorem WhereResolves.conjunct {where_ : Option Expr} {l r : Row} (h : WhereResolves where_ l r)
    {c : Expr} (hc : c ∈ flattenAnd where_) : ResolvesUniquely c l r := by
  cases where_ with
  | none => cases hc
  | some e => exact fun ref href => h e rfl ref (columnRefs_conjuncts hc href)

/-! ## The row source of the left table -/

section Source
variable {π : Type} {C : Conversions} {mgr : TransactionManager π} {snapshot : Snapshot}
  {catalog : Catalog} {s s' : Pages} {table : TableMeta} {alias_ : String} {where_ : Option Expr}
  {L R : List Row} {l r : Row}

open Operator (satisfies joined)

theorem filterRows_eq_ok {predicate : Expr} {rows rows' : List Row} :
    filterRows predicate rows = .ok rows' ↔
      (∀ row ∈ rows, ∃ b, holds predicate row = .ok b) ∧ rows' = rows.filter (satisfies predicate) :=
  (filtered_eq_ok : filtered (some predicate) rows = .ok rows' ↔ _)

/-- Draining the join. -/
theorem joinRows_eq_ok {right : PagesM (List Row)} {on : Expr} {left out : List Row}
    (hright : right s = .ok R s) :
    joinRows right on left s = .ok out s' ↔
      (∀ l ∈ left, ∀ r ∈ R, ∃ b, holds on (l.update r) = .ok b) ∧
        out = left.flatMap (joined on · R) ∧ s' = s := by
  induction left generalizing out s' with
  | nil =>
    rw [joinRows, PageM.pure_apply]
    simp [eq_comm]
  | cons l left ih =>
    rw [joinRows, run_bind_ok hright, run_bind_eq_ok]
    constructor
    · rintro ⟨merged, s₁, hlift, h⟩
      obtain ⟨hmerged, rfl⟩ := PageM.lift_eq_ok.mp hlift
      obtain ⟨rest, s₂, hrest, hpure⟩ := run_bind_eq_ok.mp h
      obtain ⟨heval, rfl, rfl⟩ := ih.mp hrest
      obtain ⟨hrow, rfl⟩ := filterRows_eq_ok.mp hmerged
      cases hpure
      exact ⟨List.forall_mem_cons.mpr ⟨fun r hr => hrow _ (List.mem_map.mpr ⟨r, hr, rfl⟩), heval⟩, rfl, rfl⟩
    · rintro ⟨heval, rfl, rfl⟩
      rw [List.forall_mem_cons] at heval
      refine ⟨_, s', PageM.lift_eq_ok.mpr ⟨filterRows_eq_ok.mpr
        ⟨List.forall_mem_map.mpr heval.1, rfl⟩, rfl⟩, ?_⟩
      exact run_bind_eq_ok.mpr ⟨_, s', ih.mpr ⟨heval.2, rfl, rfl⟩, rfl⟩

def pairs (L R : List Row) : List (Row × Row) := L.flatMap fun l => R.map fun r => (l, r)

/-- Pulled through `NestedLoopJoinOperator`, the rows are the same. -/
theorem joinRows_drain {right : PagesM (List Row)} {on : Expr} {left out : List Row}
    (hright : right s = .ok R s) (h : joinRows right on left s = .ok out s') :
    Ends (fun _ => False)
      (Operator.nestedLoopJoin (.leaf left) (fun _ => .leaf R) on).drain (fun found _ => found = out)
      (Operator.nestedLoopJoin (.leaf left) (fun _ => .leaf R) on).init := by
  obtain ⟨heval, rfl, -⟩ := (joinRows_eq_ok hright).mp h
  refine ((Operator.opens_leaf left).join (fun _ => Operator.opens_leaf R)
    (fun _ => Operator.closes_leaf R) fun l hl r hr e herr => ?_).drain
      ((Operator.closes_leaf left).join fun _ => Operator.closes_leaf R) _
  obtain ⟨b, hb⟩ := heval l hl r hr
  cases hb.symm.trans herr

end Source

/-! ## A join of two rows -/

namespace OnePair

def leftTable : TableMeta := ⟨"a", ⟨[⟨"k", .int⟩]⟩, 0, []⟩

def rightTable : TableMeta := ⟨"b", ⟨[⟨"v", .int⟩]⟩, 1, []⟩

def catalog : Catalog := ⟨[("a", leftTable), ("b", rightTable)]⟩

/-- Both tables hold one row, with the value 1. -/
def pages : Pages := [.heap OneRow.heapPage, .heap OneRow.heapPage]

/-- `SELECT * FROM a JOIN b ON k = v WHERE column = 1`. -/
def stmt (column : String) : Select where
  items := [⟨.star, none⟩]
  table := "a"
  join := some ⟨"b", .binaryOp .eq (.columnRef "k" none) (.columnRef "v" none), none⟩
  where_ := some (.binaryOp .eq (.columnRef column none) (.literal (.int 1)))

def join : JoinClause := ⟨"b", .binaryOp .eq (.columnRef "k" none) (.columnRef "v" none), none⟩

def leftRow : Row := [("a.k", .value (.int 1)), ("k", .value (.int 1)), (ridKey, .rid ⟨0, 0⟩)]

def rightRow : Row := [("b.v", .value (.int 1)), ("v", .value (.int 1)), (ridKey, .rid ⟨1, 0⟩)]

end OnePair

end Minirel
