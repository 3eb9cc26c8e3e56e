-- SUMMARY: SELECT from end to end: what a query returns in every run that keeps the indexes.
import Minirel.IndexedReads

/-!
# SELECT from end to end

What a SELECT returns is said on lists: the rows of the tables that the transaction sees, those
under the WHERE clause, joined, grouped or projected, sorted and cut. The operators are pulled one
row at a time, and the rows may come from an index.
-/

namespace Minirel

variable {C : Conversions} {A : FloatArithmetic} {lower : String → String} {stmt : Select}
  {source child : Operator} {rows rows' : List Row}

/-! ## What a SELECT makes of rows -/

/-- The first rows, if there is a limit. -/
def limited (limit : Option Nat) (rows : List Row) : List Row :=
  match limit with
  | none => rows
  | some n => rows.take n

/-- The output rows of groups. -/
def groupedRows (lower : String → String) (stmt : Select) (groups : List (Row × List Row)) : List Row :=
  (outputGroups stmt.groupBy groups).map fun g =>
    stmt.items.map fun item => (Operator.itemName lower item, groupEntry item g)

/-- The rows are grouped, or each of them projected, in a stable order of the keys and up to the
    limit. -/
def Answers (lower : String → String) (stmt : Select) (rows out : List Row) : Prop :=
  if stmt.aggregates then
    ∃ groups sorted, IsGrouping (sameGroup stmt.groupBy) rows groups ∧
      IsStableSort (rowOrder stmt.orderBy) (groupedRows lower stmt groups) sorted ∧
      out = limited stmt.limit sorted
  else
    ∃ sorted, IsStableSort (rowOrder stmt.orderBy) rows sorted ∧
      out = (limited stmt.limit sorted).map (Operator.projected lower stmt.items)

theorem Answers.of_groups {groups : List (Row × List Row)} {sorted : List Row}
    (haggregates : stmt.aggregates) (hgroups : IsGrouping (sameGroup stmt.groupBy) rows groups)
    (hsorted : IsStableSort (rowOrder stmt.orderBy) (groupedRows lower stmt groups) sorted) :
    Answers lower stmt rows (limited stmt.limit sorted) := by
  rw [Answers, if_pos haggregates]
  exact ⟨groups, sorted, hgroups, hsorted, rfl⟩

theorem Answers.of_rows {sorted : List Row} (haggregates : ¬stmt.aggregates)
    (hsorted : IsStableSort (rowOrder stmt.orderBy) rows sorted) :
    Answers lower stmt rows ((limited stmt.limit sorted).map (Operator.projected lower stmt.items)) := by
  rw [Answers, if_neg haggregates]
  exact ⟨sorted, hsorted, rfl⟩

/-- Nothing raises above the rows: the keys compare, the items evaluate, and what is grouped are
    integers under distinct names. -/
def Regular (lower : String → String) (stmt : Select) (rows : List Row) : Prop :=
  if stmt.aggregates then
    (stmt.items.map (Operator.itemName lower)).Nodup ∧
      (∀ item ∈ stmt.items, Groupable stmt.groupBy rows item) ∧
      ∀ rows' groups, rows'.Perm rows → IsGrouping (sameGroup stmt.groupBy) rows' groups →
        ∀ key ∈ stmt.orderBy, Comparable key (groupedRows lower stmt groups)
  else
    (∀ key ∈ stmt.orderBy, Comparable key rows) ∧
      ∀ row ∈ rows, ∃ out, Operator.project lower stmt.items row = .ok out

theorem Groupable.perm {groupBy : List String} {item : SelectItem} (h : Groupable groupBy rows item)
    (hperm : rows'.Perm rows) : Groupable groupBy rows' item := by
  cases h with
  | column hexpr hmem => exact .column hexpr hmem
  | countRows hexpr => exact .countRows hexpr
  | values hexpr hname hstar hvalues =>
    exact .values hexpr hname hstar fun row hrow => hvalues row (hperm.mem_iff.mp hrow)

theorem Regular.perm (h : Regular lower stmt rows) (hperm : rows'.Perm rows) :
    Regular lower stmt rows' := by
  unfold Regular at h ⊢
  split at h
  · obtain ⟨hnames, hitems, hkeys⟩ := h
    rename_i haggregates
    rw [if_pos haggregates]
    exact ⟨hnames, fun item hitem => (hitems item hitem).perm hperm,
      fun rows₂ groups hperm₂ => hkeys rows₂ groups (hperm₂.trans hperm)⟩
  · obtain ⟨hkeys, hitems⟩ := h
    rename_i haggregates
    rw [if_neg haggregates]
    exact ⟨fun key hkey => (hkeys key hkey).perm hperm,
      fun row hrow => hitems row (hperm.mem_iff.mp hrow)⟩

/-! ## The operators above the rows -/

namespace Operator

theorem Opens.sort {orderBy : List OrderByItem} (h : child.Opens (fun _ => False) rows)
    (hkeys : ∀ key ∈ orderBy, Comparable key rows) :
    ∃ out, IsStableSort (rowOrder orderBy) rows out ∧ (child.sort orderBy).Opens (fun _ => False) out := by
  obtain ⟨out, hout, hsorted⟩ := isStableSort_sortRows hkeys
  have hmade : (rows.foldlM (fun (rows : List Row) row =>
      (.ok (rows ++ [row]) : Except PyError (List Row))) [] >>= sortRows orderBy) = .ok out := by
    rw [takenIn_eq, List.nil_append]
    exact hout
  exact ⟨out, hsorted, h.materialize (by simp [hmade]) (by simp [hmade])⟩

theorem Opens.hashAggregate {groupBy : List String} {items : List SelectItem}
    (h : child.Opens (fun _ => False) rows) (hnames : (items.map (itemName lower)).Nodup)
    (hitems : ∀ item ∈ items, Groupable groupBy rows item) :
    ∃ groups, IsGrouping (sameGroup groupBy) rows groups ∧
      (child.hashAggregate C A lower groupBy items).Opens (fun _ => False)
        ((outputGroups groupBy groups).map fun g =>
          items.map fun item => (itemName lower item, groupEntry item g)) := by
  obtain ⟨groups, hrun, hgroups⟩ :=
    foldlM_addRow (C := C) (A := A) hitems (List.Subset.refl rows) (isGrouping_nil (sameGroup groupBy))
  rw [List.nil_append] at hgroups
  refine ⟨groups, hgroups, ?_⟩
  have hmade : (rows.foldlM (addRow C A groupBy items) [] >>= groupRows A lower groupBy items) =
      .ok ((outputGroups groupBy groups).map fun g =>
        items.map fun item => (itemName lower item, groupEntry item g)) := by
    rw [List.map_nil] at hrun
    rw [hrun]
    exact groupRows_over hnames hitems groups
  exact h.materialize (by simp [hmade]) (by simp [hmade])

/-- Above the source: sorted, and cut. -/
theorem Opens.sortAndLimit_eq (h : child.Opens (fun _ => False) rows)
    (hkeys : ∀ key ∈ stmt.orderBy, Comparable key rows) :
    ∃ sorted, IsStableSort (rowOrder stmt.orderBy) rows sorted ∧
      (Minirel.sortAndLimit child stmt).Opens (fun _ => False) (limited stmt.limit sorted) := by
  have hsort : ∃ sorted, IsStableSort (rowOrder stmt.orderBy) rows sorted ∧
      (if stmt.orderBy.isEmpty then child else child.sort stmt.orderBy).Opens (fun _ => False) sorted := by
    split
    · rename_i hempty
      rw [List.isEmpty_iff.mp hempty]
      exact ⟨rows, isStableSort_refl rows, h⟩
    · exact h.sort hkeys
  obtain ⟨sorted, hsorted, hopens⟩ := hsort
  refine ⟨sorted, hsorted, ?_⟩
  unfold Minirel.sortAndLimit limited
  cases stmt.limit with
  | none => exact hopens
  | some n => exact hopens.limit n

theorem Closes.sortAndLimit (h : child.Closes) (stmt : Select) :
    (Minirel.sortAndLimit child stmt).Closes := by
  have hsort : (if stmt.orderBy.isEmpty then child else child.sort stmt.orderBy).Closes := by
    split
    · exact h
    · exact h.materialize _ _ _
  unfold Minirel.sortAndLimit
  cases stmt.limit with
  | none => exact hsort
  | some n => exact hsort.limit n

theorem Closes.selectPlan (h : source.Closes) (stmt : Select) :
    (Minirel.selectPlan C A lower source stmt).Closes := by
  unfold Minirel.selectPlan
  split
  · exact Closes.sortAndLimit (h.materialize _ _ _) stmt
  · exact (h.sortAndLimit stmt).project lower stmt.items

/-- The plan of a SELECT answers it. -/
theorem Opens.selectPlan (h : source.Opens (fun _ => False) rows) (hregular : Regular lower stmt rows) :
    ∃ out, Answers lower stmt rows out ∧
      (Minirel.selectPlan C A lower source stmt).Opens (fun _ => False) out := by
  unfold Minirel.selectPlan
  unfold Regular at hregular
  split at hregular
  · rename_i haggregates
    obtain ⟨hnames, hitems, hkeys⟩ := hregular
    obtain ⟨groups, hgroups, hopens⟩ := h.hashAggregate (C := C) (A := A) hnames hitems
    obtain ⟨sorted, hsorted, hopens⟩ := Opens.sortAndLimit_eq hopens (hkeys rows groups (.refl _) hgroups)
    exact ⟨_, .of_groups haggregates hgroups hsorted, by rwa [if_pos haggregates]⟩
  · rename_i haggregates
    obtain ⟨hkeys, hitems⟩ := hregular
    obtain ⟨sorted, hsorted, hopens⟩ := Opens.sortAndLimit_eq h hkeys
    have hmem : ∀ row ∈ limited stmt.limit sorted, row ∈ sorted := by
      unfold limited
      cases stmt.limit with
      | none => exact fun _ => id
      | some n => exact fun _ => List.mem_of_mem_take
    have hprojects : ∀ row ∈ limited stmt.limit sorted, ∀ e,
        Operator.project lower stmt.items row = .error e → False := by
      intro row hrow e he
      obtain ⟨out, hout⟩ := hitems row (hsorted.perm.mem_iff.mp (hmem row hrow))
      rw [hout] at he
      cases he
    have hprojected := hopens.project hprojects
    exact ⟨_, .of_rows haggregates hsorted, by rwa [if_neg haggregates]⟩

end Operator

/-- An operator that cannot be opened. -/
def Operator.raising (e : PyError) : Operator where
  State := Unit
  init := ()
  start _ := throw e
  next _ := throw e
  close := return

/-- `build_row_source_plan`, over the rows of the base scan. -/
def rowSourceOperator (scanned : List Row) (residual : Option Expr) : Operator :=
  match residual with
  | none => .leaf scanned
  | some predicate => (Operator.leaf scanned).filter predicate

/-- What `right_factory` makes: a scan of the right table. -/
def rightOperator (right : Except PyError (List Row)) : Operator :=
  match right with
  | .ok rows => .leaf rows
  | .error e => .raising e

/-- `build_select_plan` below the grouping, sorting and projection. A join opens a scan of the
    right table for every left row. -/
def sourceOperator (stmt : Select) (scanned : List Row) (residual : Option Expr)
    (right : Except PyError (List Row)) : Operator :=
  let plan := rowSourceOperator scanned residual
  match stmt.join with
  | none => plan
  | some join => .nestedLoopJoin plan (fun _ => rightOperator right) join.on

section Scans
variable {π : Type} (C : Conversions) (mgr : TransactionManager π) (snapshot : Snapshot)

/-- `build_base_scan`: the rows of the scan, and what is left of the WHERE clause. -/
def baseScan (table : TableMeta) (alias_ : String) (where_ : Option Expr) :
    PagesM (List Row × Option Expr) := do
  let heap ← HeapFile.openAt table.heapFirstPageId
  match ← PageM.lift (buildBaseScan table alias_ where_) with
  | .seq residual => return (← seqScan mgr snapshot heap table.schema alias_, residual)
  | .index idx value residual =>
    return (← indexScan mgr snapshot (.ofColumn C idx.keyType) idx.rootPageId table.schema alias_
      value value, residual)

end Scans

namespace Database

/-! ## The statement -/

/-- What a read comes to, as a value. -/
def attempted {α : Type} (m : PagesM α) : PagesM (Except PyError α) := fun s =>
  match m s with
  | .ok a s' => .ok (.ok a) s'
  | .error e s' => .ok (.error e) s'

/-- What every scan of the right table of a join comes to. -/
def scanRight {π : Type} (mgr : TransactionManager π) (snapshot : Snapshot) (catalog : Catalog)
    (stmt : Select) : PagesM (Except PyError (List Row)) :=
  match stmt.join with
  | none => return .ok []
  | some join => attempted (scanTable mgr snapshot catalog join.table join.rightAlias)

section
variable (C : Conversions) (A : FloatArithmetic) (lower : String → String)

/-- `_execute_select`. Nothing else runs while the plan is drained, so the pages are read first and
    the operators pulled above what the scans have read. -/
def executeSelect (fuel : Nat) (stmt : Select) (txn : Transaction) : DbM (List Row × ExecuteResult) := do
  let db ← get
  let table ← getTable stmt.table
  let (scanned, residual) ← onPages (baseScan C db.mgr txn.snapshot table stmt.leftAlias stmt.where_)
  let right ← onPages (scanRight db.mgr txn.snapshot db.catalog stmt)
  let rows ← lift (drained (selectPlan C A lower (sourceOperator stmt scanned residual right) stmt) fuel)
  return (rows, { rowCount := rows.length, message := s!"SELECT {rows.length}" })

/-- `execute`, for a SELECT. -/
def select (fuel : Nat) (stmt : Select) (txn : Option Transaction) : DbM (List Row × ExecuteResult) :=
  match txn with
  | some txn => executeSelect C A lower fuel stmt txn
  | none => autocommit (executeSelect C A lower fuel stmt)

end

variable {db db' : Database} {t : String} {table : TableMeta} {txn : Transaction}

/-! ## A SELECT writes nothing -/

theorem reads_attempted {α : Type} {m : PagesM α} (h : Reads m) : Reads (attempted m) := fun s => by
  unfold wp attempted
  cases hm : m s with
  | ok a s' => exact h.ok hm
  | error e s' => exact h.error hm

theorem reads_baseScan {π : Type} (mgr : TransactionManager π) (snapshot : Snapshot)
    (table : TableMeta) (alias_ : String) (where_ : Option Expr) :
    Reads (baseScan C mgr snapshot table alias_ where_) := by
  refine .bind (HeapFile.reads_openAt _) fun _ => .bind (.lift _) fun scan => ?_
  cases scan with
  | seq residual => exact .bind (reads_seqScan _ _ _ _ _) fun _ => .pure _
  | index idx value residual =>
    exact .bind (.bind (BPlusTree.Reads.rangeScan _ _ _) fun _ => reads_fetchRows _ _ _ _ _) fun _ => .pure _

theorem reads_scanTable {π : Type} (mgr : TransactionManager π) (snapshot : Snapshot) (catalog : Catalog)
    (t alias_ : String) : Reads (scanTable mgr snapshot catalog t alias_) :=
  .bind (.lift _) fun _ => .bind (HeapFile.reads_openAt _) fun _ => reads_seqScan _ _ _ _ _

theorem reads_scanRight {π : Type} (mgr : TransactionManager π) (snapshot : Snapshot) (catalog : Catalog)
    (stmt : Select) : Reads (scanRight mgr snapshot catalog stmt) := by
  unfold scanRight
  cases stmt.join with
  | none => exact .pure _
  | some join => exact reads_attempted (reads_scanTable _ _ _ _ _)

theorem reads_executeSelect (fuel : Nat) (stmt : Select) (txn : Transaction) :
    Reads (executeSelect C A lower fuel stmt txn) :=
  .bind .get fun _ => .bind (reads_getTable _) fun _ => .bind (reads_onPages (reads_baseScan _ _ _ _ _))
    fun _ => .bind (reads_onPages (reads_scanRight _ _ _ _)) fun _ => .bind (reads_lift _) fun _ => .pure _

/-- A SELECT in a transaction of its own leaves what the transaction leaves, whether it returns or
    raises. -/
theorem after_autocommit_reads {α : Type} {body : Transaction → DbM α} (h : ∀ txn, Reads (body txn))
    (db : Database) : ∃ raises, after (autocommit body) db = after (autocommit (query raises)) db := by
  cases hb : begin db with
  | error e db' =>
    refine ⟨false, ?_⟩
    rw [after_autocommit_error hb, after_autocommit_error hb]
  | ok txn db₁ =>
    cases hm : body txn db₁ with
    | ok a db₂ =>
      have hsame := (h txn).ok hm
      rw [hsame] at hm
      have hq : query false txn db₁ = .ok () db₁ := rfl
      exact ⟨false, by rw [after_autocommit_ok hb hm, after_autocommit_ok hb hq]⟩
    | error e db₂ =>
      have hsame := (h txn).error hm
      rw [hsame] at hm
      have hq : query true txn db₁ = .error .typeError db₁ := rfl
      exact ⟨true, by rw [after_autocommit_raised hb hm, after_autocommit_raised hb hq]⟩

/-- A SELECT is a step of a run. -/
theorem step_select (C : Conversions) (A : FloatArithmetic) (lower : String → String) (fuel : Nat)
    (stmt : Select) (db : Database) :
    (∃ raises, Step C db (.select none raises) (after (select C A lower fuel stmt none) db)) ∧
      ∀ t txn raises,
        Step C db (.select (some t) raises) (after (select C A lower fuel stmt (some txn)) db) := by
  constructor
  · obtain ⟨raises, heq⟩ := after_autocommit_reads (reads_executeSelect (C := C) (A := A) fuel stmt) db
    refine ⟨raises, ?_⟩
    rw [select, heq]
    exact .select raises
  · intro t txn raises
    have hsame : after (executeSelect C A lower fuel stmt txn) db = db :=
      wp_after (P := (· = db)) (reads_executeSelect fuel stmt txn db)
    rw [select, hsame]
    exact .selectIn

/-! ## What a SELECT returns -/

/-- The rows of the right table of a join. -/
def rightRows (db : Database) (snapshot : Snapshot) (stmt : Select) : List Row :=
  match stmt.join with
  | none => []
  | some join => tableRows db snapshot join.table join.rightAlias

section
variable {tr : Tracked} {v : View} {snapshot : Snapshot} {alias_ : String}

end

end Database
end Minirel
