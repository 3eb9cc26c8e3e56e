-- SUMMARY: SELECT * over a whole table, in a transaction of its own.
import Minirel.Issued
import Minirel.Joins
import Minirel.SelectPlan

/-!
# SELECT *

`SELECT * FROM t` scans the heap of the table: it returns a row for every version that its
transaction sees. A row of the executor has each column under its bare and under its qualified
name, and the RID it was read from; of these `*` keeps the keys without a dot that do not
begin with two underscores.
-/

namespace Minirel

variable {C : Conversions} {A : FloatArithmetic} {lower : String → String}

/-- What draining a plan yields. -/
def drained (plan : Operator) (fuel : Nat) : Except PyError (List Row) :=
  match plan.drain fuel plan.init with
  | .ok rows _ => .ok rows
  | .error e _ => .error e

/-- `SELECT * FROM t`. -/
def starOf (t : String) : Select := { items := [⟨.star, none⟩], table := t }

/-! ## The plan -/

/-- A key that `SELECT *` shows. -/
def Shown (key : String) : Prop := ¬"__".toList <+: key.toList ∧ '.' ∉ key.toList

instance (key : String) : Decidable (Shown key) := inferInstanceAs (Decidable (_ ∧ _))

/-- The part of a row that `SELECT *` shows. -/
def shownPart (row : Row) : Row :=
  row.filter fun (k, _) => !"__".toList.isPrefixOf k.toList && !k.toList.contains '.'

theorem Operator.pullAll_nil {op : Operator} {fuel : Nat} {s s' : op.State}
    (hnext : op.next fuel s = .ok none s') : op.pullAll (fuel + 1) s = .ok [] s' := by
  rw [pullAll_succ, hnext]

theorem Operator.pullAll_cons {op : Operator} {fuel : Nat} {s s₁ s' : op.State} {row : Row}
    {rest : List Row} (hnext : op.next fuel s = .ok (some row) s₁)
    (hrest : op.pullAll fuel s₁ = .ok rest s') : op.pullAll (fuel + 1) s = .ok (row :: rest) s' := by
  rw [pullAll_succ, hnext]
  simp only [hrest]

/-- Every row that the leaf hands out is projected. -/
theorem pullAll_star (lower : String → String) (t : String) (all rows : List Row) :
    (Operator.projectOperator lower (.leaf all) (starOf t).items).pullAll (rows.length + 1)
      (some rows) = .ok (rows.map shownPart) (some []) := by
  induction rows with
  | nil => exact Operator.pullAll_nil rfl
  | cons row rows ih => exact Operator.pullAll_cons rfl ih

theorem drained_eq {plan : Operator} {fuel : Nat} {s s₁ s' : plan.State} {rows : List Row}
    (hstart : plan.start fuel plan.init = .ok () s) (hpull : plan.pullAll fuel s = .ok rows s₁)
    (hclose : plan.close s₁ = .ok () s') : drained plan fuel = .ok rows := by
  simp only [drained, Operator.drain, bind, EStateM.bind, hstart, hpull, hclose]
  rfl

theorem drained_star (C : Conversions) (A : FloatArithmetic) (lower : String → String) (t : String)
    (rows : List Row) :
    drained (selectPlan C A lower (.leaf rows) (starOf t)) (rows.length + 1) =
      .ok (rows.map shownPart) := by
  have hdrained : drained (.projectOperator lower (.leaf rows) (starOf t).items) (rows.length + 1) =
      .ok (rows.map shownPart) := drained_eq rfl (pullAll_star lower t rows rows) rfl
  exact hdrained

/-! ## What a row shows -/

theorem get?_filter {α : Type} (p : String → Bool) (d : Dict α) (key : String) :
    Dict.get? (d.filter fun x => p x.1) key = if p key then d.get? key else none := by
  induction d with
  | nil => simp [Dict.get?]
  | cons x d ih =>
    obtain ⟨k, a⟩ := x
    by_cases hk : k = key
    · subst hk
      cases hp : p k with
      | true => simp [hp, Dict.get?]
      | false =>
        rw [hp] at ih
        simpa [List.filter_cons, hp] using ih
    · cases hp : p k with
      | true => simpa [List.filter_cons, hp, Dict.get?, hk] using ih
      | false => simpa [List.filter_cons, hp, Dict.get?, hk] using ih

theorem get?_shownPart (row : Row) (key : String) :
    (shownPart row).get? key = if Shown key then row.get? key else none := by
  rw [shownPart, get?_filter fun k => !"__".toList.isPrefixOf k.toList && !k.toList.contains '.']
  refine if_congr ?_ rfl rfl
  simp [Shown, ← List.isPrefixOf_iff_prefix]

/-- Where names repeat, the last column of a name is the one that a row holds. -/
def Schema.lastColumn (schema : Schema) (name : String) : Option Column :=
  schema.columns.reverse.find? fun col => col.name = name

/-- The columns of a table with the values of a row. -/
abbrev Schema.fields (schema : Schema) (values : List Value) : List (Column × Value) :=
  schema.columns.zip values

theorem Schema.lastColumn_eq {schema : Schema} {values : List Value}
    (hlen : schema.columns.length = values.length) (name : String) :
    schema.lastColumn name =
      ((schema.fields values).reverse.find? fun y => y.1.name = name).map (·.1) := by
  have hfst : (schema.fields values).map (·.1) = schema.columns := List.map_fst_zip hlen.le
  rw [lastColumn]
  conv_lhs => rw [← hfst]
  rw [← List.map_reverse, List.find?_map]
  rfl

theorem get?_rowOf {alias_ name : String} {schema : Schema} {x : RID × Tuple}
    (htypes : x.2.payload.map Cell.type = schema.columns.map (·.type)) (hshown : Shown name)
    {col : Column} {v : Value}
    (hfind : (schema.fields (Database.rowValues x.2)).reverse.find? (fun y => y.1.name = name) =
      some (col, v)) :
    (rowOf alias_ schema x).get? name = some (.value v) := by
  have hrid : ridKey ≠ name := by
    rintro rfl
    exact absurd hshown (by decide)
  have hdecode : decodeRow (tuplePayload x.2) schema = .ok (Database.rowValues x.2) :=
    decodeRow_eq htypes
  have hrow : rowOf alias_ schema x =
      ((Dict.ofList ((schema.fields (Database.rowValues x.2)).map fun y =>
        (s!"{alias_}.{y.1.name}", (.value y.2 : RowItem)))).update
        ((schema.fields (Database.rowValues x.2)).map fun y => (y.1.name, .value y.2))).set ridKey
          (.rid x.1) := by
    rw [rowOf, rowFromTuple, hdecode]
    rfl
  rw [hrow, Dict.get?_set_ne hrid, Dict.get?_update, ← List.map_reverse, List.find?_map]
  have hfind' : (schema.fields (Database.rowValues x.2)).reverse.find?
      ((fun y => decide (y.1 = name)) ∘ fun y => (y.1.name, RowItem.value y.2)) = some (col, v) :=
    hfind
  rw [hfind']
  rfl

/-- What a column of a stored row is made of. -/
theorem exists_field {schema : Schema} {values : List Value} {valueMap : Dict Value} {cells : List Cell}
    {name : String} (hnamed : schema.names.mapM (Database.lookup valueMap) = .ok values)
    (hencode : encodeRow C values schema = .ok cells) (hname : name ∈ schema.names) :
    ∃ col v cell, schema.lastColumn name = some col ∧ valueMap.get? name = some v ∧
      encodeValue C v col.type = .ok cell ∧
      (schema.fields (cells.map Cell.value)).reverse.find? (fun y => y.1.name = name) =
        some (col, cell.value) := by
  have hlen : schema.columns.length = (cells.map Cell.value).length := by
    simpa using (congrArg List.length (encodeRow_types hencode)).symm
  have hlast := Schema.lastColumn_eq hlen name
  cases hfind : (schema.fields (cells.map Cell.value)).reverse.find? fun y => y.1.name = name with
  | none =>
    rw [hfind] at hlast
    obtain ⟨col, hcol, rfl⟩ := List.mem_map.mp hname
    have := List.find?_eq_none.mp hlast col (List.mem_reverse.mpr hcol)
    simp at this
  | some y =>
    obtain ⟨col, w⟩ := y
    rw [hfind] at hlast
    have hmem := List.mem_reverse.mp (List.mem_of_find?_eq_some hfind)
    obtain rfl : col.name = name := by simpa using List.find?_some hfind
    obtain ⟨n, hn⟩ := List.mem_iff_getElem?.mp hmem
    obtain ⟨hcol, hw⟩ := List.getElem?_zip_eq_some.mp hn
    obtain ⟨v, cell, hv, hcell, henc⟩ := encodeRow_getElem? hencode hcol
    have hmap := congrArg (·[n]?) (mapM_eq_ok.mp hnamed)
    simp only [Schema.names, List.getElem?_map, hcol, hv, Option.map_some, Option.some.injEq] at hmap
    refine ⟨col, v, cell, hlast, Database.lookup_eq_ok.mp hmap, henc, ?_⟩
    simp only [List.getElem?_map, hcell, Option.map_some, Option.some.injEq] at hw
    rw [hw]

namespace Database

variable {α : Type} {tr : Tracked} {db db' : Database} {v : View} {table : TableMeta}
  {txn : Transaction} {t : String}

/-! ## The scan -/

/-- The rows of `SELECT * FROM t`: what `build_select_plan` makes of the scan is drained. Above a
    list the loops of the operators end with the list. -/
def selectStar (C : Conversions) (A : FloatArithmetic) (lower : String → String) (t : String)
    (txn : Transaction) : DbM (List Row) := do
  let db ← get
  let rows ← onPages (selectSource C db.mgr txn.snapshot db.catalog (starOf t))
  lift (drained (selectPlan C A lower (.leaf rows) (starOf t)) (rows.length + 1))

/-- The versions that a snapshot sees. -/
def seen (mgr : TransactionManager LogOp) (snapshot : Snapshot) (tuples : List (RID × Tuple)) :
    List (RID × Tuple) := tuples.filter fun x => sees mgr snapshot x.2

/-- The rule of visibility looks at the aborted ids only. -/
theorem sees_congr {m m' : TransactionManager LogOp} (h : m'.abortedXids = m.abortedXids)
    (snapshot : Snapshot) (raw : Tuple) : sees m' snapshot raw = sees m snapshot raw := by
  simp only [sees, TransactionManager.isVisible, h]

/-- The row of a version in the result of `SELECT *`. -/
def starRow (t : String) (schema : Schema) (x : RID × Tuple) : Row := shownPart (rowOf t schema x)

theorem rowFromTuple_eq {alias_ : String} {schema : Schema} {x : RID × Tuple}
    (htypes : x.2.payload.map Cell.type = schema.columns.map (·.type)) :
    rowFromTuple alias_ schema x.1 x.2 = .ok (rowOf alias_ schema x) := by
  have hdecode : decodeRow (tuplePayload x.2) schema = .ok (rowValues x.2) := decodeRow_eq htypes
  rw [rowOf, rowFromTuple, hdecode]
  rfl

/-- A sequential scan yields every version that is seen. -/
theorem Sound.seqScan_eq (hs : Sound C tr db v) (ht : db.catalog.tables.get? t = some table)
    (snapshot : Snapshot) (alias_ : String) (lastPageId : Nat) :
    seqScan db.mgr snapshot ⟨table.heapFirstPageId, lastPageId⟩ table.schema alias_ db.pages =
      .ok ((seen db.mgr snapshot (v.tuples t)).map (rowOf alias_ table.schema)) db.pages := by
  have hrows : (seen db.mgr snapshot (v.tuples t)).mapM
      (fun x => rowFromTuple alias_ table.schema x.1 x.2) =
      .ok ((seen db.mgr snapshot (v.tuples t)).map (rowOf alias_ table.schema)) := by
    refine mapM_eq_ok.mpr ?_
    rw [List.map_map]
    refine List.map_congr_left fun x hx => ?_
    exact rowFromTuple_eq (hs.layout.conforms ht x (List.mem_of_mem_filter hx)).types
  rw [seqScan, run_bind_ok ((hs.layout.heap ht).scan _)]
  exact PageM.lift_eq_ok.mpr ⟨hrows, rfl⟩

/-- Without a WHERE, the row source yields every version that is seen. -/
theorem Sound.rowSource_all (hs : Sound C tr db v) (ht : db.catalog.tables.get? t = some table)
    (snapshot : Snapshot) :
    rowSource C db.mgr snapshot table t none db.pages =
      .ok ((seen db.mgr snapshot (v.tuples t)).map (rowOf t table.schema)) db.pages := by
  have hplan : buildBaseScan table t none = .ok (.seq none) := rfl
  rw [rowSource, run_bind_ok (hs.layout.heap ht).openAt, hplan, PageM.lift_ok_bind]
  exact run_bind_ok (hs.seqScan_eq ht snapshot t _)

theorem Sound.selectSource_star (hs : Sound C tr db v) (ht : db.catalog.tables.get? t = some table)
    (snapshot : Snapshot) :
    selectSource C db.mgr snapshot db.catalog (starOf t) db.pages =
      .ok ((seen db.mgr snapshot (v.tuples t)).map (rowOf t table.schema)) db.pages := by
  have hget : db.catalog.getTable (starOf t).table = .ok table := getTable_eq_ok.mpr ht
  rw [selectSource, hget, PageM.lift_ok_bind]
  exact run_bind_ok (hs.rowSource_all ht snapshot)

theorem Sound.selectStar_eq (hs : Sound C tr db v) (ht : db.catalog.tables.get? t = some table) :
    selectStar C A lower t txn db =
      .ok ((seen db.mgr txn.snapshot (v.tuples t)).map (starRow t table.schema)) db := by
  have hsource : onPages (selectSource C db.mgr txn.snapshot db.catalog (starOf t)) db = _ :=
    onPages_eq_ok.mpr ⟨_, hs.selectSource_star ht txn.snapshot, rfl⟩
  unfold selectStar
  change (onPages (selectSource C db.mgr txn.snapshot db.catalog (starOf t)) >>= _) db = _
  simp only [bind, EStateM.bind, hsource, drained_star, List.map_map]
  rfl

/-! ## A transaction of its own -/

theorem begin_eq (hlt : db.mgr.nextTxnId < 2 ^ 32) :
    begin db = .ok db.session.newTxn { db with session := db.session.step .begin } := by
  have hlog : db.session.mgr.wal.append .begin db.session.mgr.nextTxnId none = _ :=
    WriteAheadLog.append_eq _ hlt _ _
  simp only [begin, onManager, mgr, Session.step, TransactionManager.begin, WriteAheadLog.logBegin,
    hlog]
  rfl

theorem step_commit {s : Session LogOp} (ht : s.txns txn.txnId = some txn)
    (hactive : txn.state = .active) (hlt : txn.txnId < 2 ^ 32) :
    (s.step (.commit txn.txnId)).mgr.nextTxnId = s.mgr.nextTxnId ∧
      (s.step (.commit txn.txnId)).mgr.activeXids = s.mgr.activeXids.erase txn.txnId ∧
      (s.step (.commit txn.txnId)).mgr.abortedXids = s.mgr.abortedXids := by
  simp only [Session.step, ht, TransactionManager.commit, hactive, ne_eq, not_true_eq_false, if_false,
    WriteAheadLog.logCommit, WriteAheadLog.append_eq _ hlt, bind, Except.bind, pure, Except.pure,
    Session.settle, and_self]

theorem commit_eq (ht : db.session.txns txn.txnId = some txn) (hactive : txn.state = .active)
    (hlt : txn.txnId < 2 ^ 32) :
    ∃ txn', commit txn db = .ok txn' { db with session := db.session.step (.commit txn.txnId) } := by
  simp only [commit, onManager, mgr, Session.step, ht, TransactionManager.commit, hactive, ne_eq,
    not_true_eq_false, if_false, WriteAheadLog.logCommit, WriteAheadLog.append_eq _ hlt, bind,
    Except.bind, pure, Except.pure]
  exact ⟨_, rfl⟩

theorem autocommit_eq_ok {body : Transaction → DbM α} {a : α} :
    autocommit body db = .ok a db' ↔ ∃ txn db₁ db₂ txn', begin db = .ok txn db₁ ∧
      body txn db₁ = .ok a db₂ ∧ commit txn db₂ = .ok txn' db' := by
  unfold autocommit
  simp only [bind, EStateM.bind]
  constructor
  · intro h
    cases hb : begin db with
    | error e db₁ =>
      rw [hb] at h
      cases h
    | ok txn db₁ =>
      rw [hb] at h
      dsimp only at h
      cases hm : body txn db₁ with
      | error e db₂ =>
        rw [hm] at h
        dsimp only at h
        cases ha : abort txn db₂ <;> rw [ha] at h <;> cases h
      | ok b db₂ =>
        rw [hm] at h
        dsimp only at h
        cases hc : commit txn db₂ with
        | error e db₃ =>
          rw [hc] at h
          cases h
        | ok txn' db₃ =>
          rw [hc] at h
          cases h
          exact ⟨txn, db₁, db₂, txn', rfl, hm, hc⟩
  · rintro ⟨txn, db₁, db₂, txn', hb, hm, hc⟩
    simp only [hb, hm, hc]
    rfl

/-- A query in a transaction of its own. -/
theorem autocommit_reads {body : Transaction → DbM α} {a : α} (hlt : db.mgr.nextTxnId < 2 ^ 32)
    (hbody : body db.session.newTxn { db with session := db.session.step .begin } =
      .ok a { db with session := db.session.step .begin }) :
    ∃ db', autocommit body db = .ok a db' := by
  have hb := begin_eq hlt
  obtain ⟨-, -, -, hfound⟩ := begin_eq_ok hb
  obtain ⟨txn', hc⟩ := commit_eq hfound rfl hlt
  exact ⟨_, autocommit_eq_ok.mpr ⟨_, _, _, txn', hb, hbody, hc⟩⟩

/-- `SELECT * FROM t` in a fresh transaction. -/
theorem Sound.autocommit_selectStar (hs : Sound C tr db v)
    (ht : db.catalog.tables.get? t = some table) (hlt : db.mgr.nextTxnId < 2 ^ 32) :
    ∃ db', autocommit (selectStar C A lower t) db =
      .ok ((seen db.mgr db.session.newTxn.snapshot (v.tuples t)).map (starRow t table.schema)) db' := by
  refine autocommit_reads hlt ?_
  have hs₁ : Sound C tr { db with session := db.session.step .begin } v := hs.congr rfl rfl
  have hseen : seen ({ db with session := db.session.step .begin } : Database).mgr =
      seen db.mgr := by
    funext snapshot tuples
    refine List.filter_congr fun x _ => ?_
    refine sees_congr ?_ snapshot x.2
    rw [mgr, Session.step_begin hlt, mgr]
  rw [hs₁.selectStar_eq ht, hseen]

/-! ## What later transactions see -/

/-- Another transaction between the two beginnings makes no difference for a version that bears
    ids from before. -/
theorem sees_succ {m m' : TransactionManager LogOp} (haborted : m'.abortedXids = m.abortedXids)
    {n : Nat} (hmin : tup.xmin < n) (hmax : tup.xmax = infinityTxn ∨ tup.xmax < n)
    (active : Finset Nat) : sees m' ⟨n + 1, active⟩ tup = sees m ⟨n, active⟩ tup := by
  have hbefore : ∀ {k}, k < n →
      ((k = n + 1 ∨ (k < n + 1 ∧ k ∉ active)) ↔ k = n ∨ (k < n ∧ k ∉ active)) := by
    intro k hk
    have h₁ : k ≠ n + 1 := by omega
    have h₂ : k ≠ n := by omega
    have h₃ : k < n + 1 := by omega
    simp [h₁, h₂, h₃, hk]
  rw [Bool.eq_iff_iff, sees, sees]
  dsimp only [unpackTupleHeader]
  simp only [TransactionManager.isVisible_iff, Snapshot.committedBefore_iff, haborted, hbefore hmin]
  obtain hinf | hlt := hmax
  · simp [hinf]
  · simp only [hbefore hlt]

/-- A version of a transaction that has committed in the meantime is seen. -/
theorem sees_new {m : TransactionManager LogOp} {n : Nat} {active : Finset Nat} (hmin : tup.xmin = n)
    (hmax : tup.xmax = infinityTxn) (haborted : n ∉ m.abortedXids) (hactive : n ∉ active) :
    sees m ⟨n + 1, active⟩ tup = true := by
  rw [sees]
  dsimp only [unpackTupleHeader]
  rw [TransactionManager.isVisible_iff, hmin, hmax, Snapshot.committedBefore_iff]
  exact ⟨⟨haborted, .inr ⟨Nat.lt_succ_self n, hactive⟩⟩, .inl rfl⟩

/-- An autocommit statement on rows has returned: a transaction more has committed, and nothing
    else has happened to the transactions. `db₂` is what the body has left. -/
structure Committed (db db₂ db' : Database) : Prop where
  pages : db'.pages = db₂.pages
  catalog : db'.catalog = db₂.catalog
  lt : db.mgr.nextTxnId < 2 ^ 32
  next : db'.mgr.nextTxnId = db.mgr.nextTxnId + 1
  active : db'.mgr.activeXids = db.mgr.activeXids
  aborted : db'.mgr.abortedXids = db.mgr.abortedXids

theorem autocommit_rows {stmt : Statement} {r : ExecuteResult} (hrows : stmt.OnRows)
    (hg : Good C never db) (hs : Sound C never db v)
    (hrun : autocommit (dispatch C stmt) db = .ok r db') (hroom : Room db') :
    ∃ db₂, Done C never stmt db.session.newTxn { db with session := db.session.step .begin } v r db₂ ∧
      Committed db db₂ db' := by
  obtain ⟨txn, db₁, db₂, txn', hb, hbody, hc⟩ := autocommit_eq_ok.mp hrun
  obtain ⟨rfl, rfl, hlt, hfound⟩ := begin_eq_ok hb
  have hs₁ : Sound C never { db with session := db.session.step .begin } v := hs.congr rfl rfl
  have hroom₂ : Room db₂ := by
    have hafter := after_ok hc
    rw [commit, after_onManager] at hafter
    rw [← hafter] at hroom
    exact hroom
  have hdone : Done C never stmt db.session.newTxn { db with session := db.session.step .begin } v r
      db₂ := by
    have htaken : False → StmtAdmitted C never db.session.newTxn
        { db with session := db.session.step .begin } stmt := False.elim
    have hwp := wp_dispatch hrows hs₁ hlt (stmtFaithful_never C _ _ _) htaken
    unfold wpIf wp at hwp
    rw [hbody] at hwp
    exact hwp hroom₂
  have hwithin : Within { db with session := db.session.step .begin } db₂ := by
    obtain ⟨_, _, _, -, -, -, hwritten⟩ := hdone
    exact hwritten.within
  have hfound₂ : db₂.session.txns db.session.newTxn.txnId = some db.session.newTxn := by
    rw [hwithin.txns, hfound]
  obtain rfl : { db₂ with session := db₂.session.step (.commit db.session.newTxn.txnId) } = db' :=
    (after_commit hfound₂).symm.trans (after_ok hc)
  obtain ⟨hnext, hactive, haborted⟩ := step_commit hfound₂ rfl hlt
  have hbegin := Session.step_begin hlt
  refine ⟨db₂, hdone, rfl, rfl, hlt, hnext.trans ?_, hactive.trans ?_, haborted.trans ?_⟩
  · have h := hwithin.nextTxnId
    rw [mgr, mgr, hbegin] at h
    exact h
  · have h := hwithin.activeXids
    rw [mgr, mgr, hbegin] at h
    rw [h]
    exact Finset.erase_insert fun hmem => lt_irrefl _ (hg.inv.active_lt hmem)
  · have h := hwithin.abortedXids
    rw [mgr, mgr, hbegin] at h
    exact h

theorem Committed.snapshot {db₂ : Database} (h : Committed db db₂ db') :
    db'.session.newTxn.snapshot = ⟨db.mgr.nextTxnId + 1, db.mgr.activeXids⟩ := by
  rw [← h.next, ← h.active]
  rfl

/-- What was seen before is seen afterwards ... -/
theorem Committed.seen_eq {db₂ : Database} (h : Committed db db₂ db') {tuples : List (RID × Tuple)}
    (htuples : ∀ x ∈ tuples, x.2.xmin < db.mgr.nextTxnId ∧
      (x.2.xmax = infinityTxn ∨ x.2.xmax < db.mgr.nextTxnId)) :
    seen db'.mgr db'.session.newTxn.snapshot tuples = seen db.mgr db.session.newTxn.snapshot tuples := by
  refine List.filter_congr fun x hx => ?_
  rw [h.snapshot]
  exact sees_succ h.aborted (htuples x hx).1 (htuples x hx).2 _

/-- ... and so are the versions that are new. -/
theorem Committed.seen_new {db₂ : Database} (h : Committed db db₂ db') (hi : db.session.Inv)
    {news : List (RID × Tuple)}
    (hnews : ∀ x ∈ news, x.2.xmin = db.session.newTxn.txnId ∧ x.2.xmax = infinityTxn) :
    seen db'.mgr db'.session.newTxn.snapshot news = news := by
  refine List.filter_eq_self.mpr fun x hx => ?_
  rw [h.snapshot]
  refine sees_new (hnews x hx).1 (hnews x hx).2 ?_ fun hmem => lt_irrefl _ (hi.active_lt hmem)
  rw [h.aborted]
  exact fun hmem => lt_irrefl _ (hi.aborted_lt hmem)

end Database
end Minirel
