-- SUMMARY: What statements on rows do to the content of a database, row by row.
import Minirel.RowWrites

/-!
# Statements on rows

INSERT, UPDATE and DELETE write one row after the other. When they raise, the rows before
stay written, and one may be written in part. The rest of the development only looks at
`RowStep`, `RowPart` and `RowRefused`, which say what can happen to a row.
-/

namespace Minirel
namespace Database

variable {C : Conversions} {tr : Tracked} {taken : Prop} {db db' : Database} {v : View}
  {table : TableMeta} {txn : Transaction} {values : List Value} {rid : RID}

/-! ## What a row does -/

/-- What a statement does with a row. -/
inductive RowAct where
  | insert (values : List Value)
  | update (assignments : List (String × Expr)) (rid : RID)
  | delete (rid : RID)

/-- A version that a transaction replaces or deletes. -/
structure Stamped (mgr : TransactionManager LogOp) (table : TableMeta) (txn : Transaction)
    (c : Content) (rid : RID) (raw new : Tuple) : Prop where
  mem : (rid, raw) ∈ c.tuples table.name
  conflict : mgr.checkWriteConflict txn raw.xmax = .ok ()
  stamp : withXmax raw txn.txnId = .ok new

/-- `value_map` of a row. -/
def rowMap (table : TableMeta) (values : List Value) : Dict Value :=
  .ofList (table.schema.names.zip values)

/-- The values a stored row decodes to. -/
def rowValues (tup : Tuple) : List Value := tup.payload.map Cell.value

section
variable (C : Conversions) (tr : Tracked) (mgr : TransactionManager LogOp) (table : TableMeta)
  (txn : Transaction)

/-- A row that is written as a whole. -/
inductive RowStep : RowAct → Content → Content → Prop where
  | insert {c : Content} {values : List Value} {rid : RID} {tup : Tuple}
      (new : NewRow C table txn c values (rowMap table values) rid tup)
      (unseen : KeysUnseen C tr mgr txn.snapshot (c.add table.name (rid, tup)) table.name
        (rowMap table values) none table.indexes) :
      RowStep (.insert values) c
        ((c.add table.name (rid, tup)).addKeys C table.name (rowMap table values) rid table.indexes)
  | update {c : Content} {assignments : List (String × Expr)} {values : List Value}
      {valueMap : Dict Value} {old rid : RID} {raw stamped tup : Tuple}
      (stamp : Stamped mgr table txn c old raw stamped)
      (assigned : assign (rowMap table (rowValues raw)) assignments = .ok valueMap)
      (new : NewRow C table txn (c.set table.name old stamped) values valueMap rid tup)
      (unseen : KeysUnseen C tr mgr txn.snapshot
        ((c.set table.name old stamped).add table.name (rid, tup)) table.name valueMap (some old)
        table.indexes) :
      RowStep (.update assignments old) c
        (((c.set table.name old stamped).add table.name (rid, tup)).addKeys C table.name valueMap
          rid table.indexes)
  | delete {c : Content} {old : RID} {raw stamped : Tuple}
      (stamp : Stamped mgr table txn c old raw stamped) :
      RowStep (.delete old) c (c.set table.name old stamped)

/-- A row that is written in part. If the indexes take every row, only the stamp of an UPDATE
    can be left alone. -/
inductive RowPart (taken : Prop) : RowAct → Content → Content → Prop where
  | insert {c : Content} {values : List Value} {rid : RID} {tup : Tuple} (refused : ¬taken)
      (new : NewRow C table txn c values (rowMap table values) rid tup) (n : Nat) :
      RowPart taken (.insert values) c
        ((c.add table.name (rid, tup)).addKeys C table.name (rowMap table values) rid
          (table.indexes.take n))
  | stamp {c : Content} {assignments : List (String × Expr)} {values : List Value}
      {valueMap : Dict Value} {old : RID} {raw stamped : Tuple}
      (stamp : Stamped mgr table txn c old raw stamped)
      (assigned : assign (rowMap table (rowValues raw)) assignments = .ok valueMap)
      (named : table.schema.names.mapM (lookup valueMap) = .ok values)
      (refused : VersionRefused C table values) :
      RowPart taken (.update assignments old) c (c.set table.name old stamped)
  | update {c : Content} {assignments : List (String × Expr)} {values : List Value}
      {valueMap : Dict Value} {old rid : RID} {raw stamped tup : Tuple} (refused : ¬taken)
      (stamp : Stamped mgr table txn c old raw stamped)
      (assigned : assign (rowMap table (rowValues raw)) assignments = .ok valueMap)
      (new : NewRow C table txn (c.set table.name old stamped) values valueMap rid tup) (n : Nat) :
      RowPart taken (.update assignments old) c
        (((c.set table.name old stamped).add table.name (rid, tup)).addKeys C table.name valueMap
          rid (table.indexes.take n))

/-- A row that is refused before anything is written. -/
inductive RowRefused : RowAct → Content → Prop where
  | insert {c : Content} {values : List Value} (refused : VersionRefused C table values) :
      RowRefused (.insert values) c
  | conflict {c : Content} {a : RowAct} {old : RID} {raw : Tuple}
      (act : (∃ assignments, a = .update assignments old) ∨ a = .delete old)
      (mem : (old, raw) ∈ c.tuples table.name) {e : PyError}
      (refused : mgr.checkWriteConflict txn raw.xmax = .error e) : RowRefused a c
  | assign {c : Content} {assignments : List (String × Expr)} {old : RID} {raw : Tuple}
      (mem : (old, raw) ∈ c.tuples table.name) {e : PyError}
      (refused : Database.assign (rowMap table (rowValues raw)) assignments = .error e) :
      RowRefused (.update assignments old) c
  | lookup {c : Content} {assignments : List (String × Expr)} {old : RID} {raw : Tuple}
      {valueMap : Dict Value} (mem : (old, raw) ∈ c.tuples table.name)
      (assigned : Database.assign (rowMap table (rowValues raw)) assignments = .ok valueMap)
      {e : PyError} (refused : table.schema.names.mapM (Database.lookup valueMap) = .error e) :
      RowRefused (.update assignments old) c

end

/-! ## Rows one after the other -/

section
variable (C : Conversions) (tr : Tracked) (mgr : TransactionManager LogOp) (table : TableMeta)
  (txn : Transaction)

/-- Rows that are written one after the other. -/
inductive RowSteps : List RowAct → Content → Content → Prop where
  | nil {c : Content} : RowSteps [] c c
  | cons {a : RowAct} {as : List RowAct} {c c₁ c₂ : Content} (step : RowStep C tr mgr table txn a c c₁)
      (rest : RowSteps as c₁ c₂) : RowSteps (a :: as) c c₂

end

section
variable {mgr mgr' : TransactionManager LogOp} {a : RowAct} {as : List RowAct} {c c' : Content}

/-- The rules of visibility and conflicts look at the aborted ids only. -/
theorem Stamped.congr {old : RID} {raw new : Tuple} (hab : mgr'.abortedXids = mgr.abortedXids)
    (h : Stamped mgr' table txn c old raw new) : Stamped mgr table txn c old raw new := by
  obtain ⟨hmem, hconflict, hstamp⟩ := h
  exact ⟨hmem, by simpa only [TransactionManager.checkWriteConflict, hab] using hconflict, hstamp⟩

theorem KeysUnseen.congr {t : String} {valueMap : Dict Value} {ex : Option RID}
    {indexes : List (String × IndexMeta)} (hab : mgr'.abortedXids = mgr.abortedXids)
    (h : KeysUnseen C tr mgr' txn.snapshot c t valueMap ex indexes) :
    KeysUnseen C tr mgr txn.snapshot c t valueMap ex indexes := by
  intro x hx htr hu key k hkey hk rid tup hentry hne hmem
  have hsees := h x hx htr hu key k hkey hk rid tup hentry hne hmem
  simpa only [sees, TransactionManager.isVisible, hab] using hsees

theorem RowStep.congr (hab : mgr'.abortedXids = mgr.abortedXids)
    (h : RowStep C tr mgr' table txn a c c') : RowStep C tr mgr table txn a c c' := by
  cases h with
  | insert new unseen => exact .insert new (unseen.congr hab)
  | update stamp assigned new unseen => exact .update (stamp.congr hab) assigned new (unseen.congr hab)
  | delete stamp => exact .delete (stamp.congr hab)

theorem RowPart.congr (hab : mgr'.abortedXids = mgr.abortedXids)
    (h : RowPart C mgr' table txn taken a c c') : RowPart C mgr table txn taken a c c' := by
  cases h with
  | insert refused new n => exact .insert refused new n
  | stamp stamp assigned named refused => exact .stamp (stamp.congr hab) assigned named refused
  | update refused stamp assigned new n => exact .update refused (stamp.congr hab) assigned new n

theorem RowRefused.congr (hab : mgr'.abortedXids = mgr.abortedXids)
    (h : RowRefused C mgr' table txn a c) : RowRefused C mgr table txn a c := by
  cases h with
  | insert refused => exact .insert refused
  | conflict act mem refused =>
    simp only [TransactionManager.checkWriteConflict, hab] at refused
    exact .conflict act mem refused
  | assign mem refused => exact .assign mem refused
  | lookup mem assigned refused => exact .lookup mem assigned refused

theorem RowSteps.congr (hab : mgr'.abortedXids = mgr.abortedXids)
    (h : RowSteps C tr mgr' table txn as c c') : RowSteps C tr mgr table txn as c c' := by
  induction h with
  | nil => exact .nil
  | cons step _ ih => exact .cons (step.congr hab) ih

/-- A row keeps its RID through the statement. -/
theorem RowStep.hasRid {t : String} (h : RowStep C tr mgr table txn a c c') (hrid : c.HasRid t rid) :
    c'.HasRid t rid := by
  have hkeys : ∀ (c : Content) valueMap rid' l,
      (c.addKeys C table.name valueMap rid' l).tuples = c.tuples := fun c valueMap rid' l =>
    Content.tuples_addKeys C c table.name valueMap rid' l
  cases h with
  | insert new unseen =>
    rw [Content.HasRid, hkeys]
    exact Content.hasRid_add _ hrid
  | update stamp assigned new unseen =>
    rw [Content.HasRid, hkeys]
    exact Content.hasRid_add _ (Content.hasRid_set hrid)
  | delete stamp => exact Content.hasRid_set hrid

end

/-- What rows that were all written leave behind. -/
structure Written (C : Conversions) (tr : Tracked) (acts : List RowAct) (db : Database) (v : View)
    (table : TableMeta) (txn : Transaction) (db' : Database) (v' : View) : Prop where
  sound : Sound C tr db' v'
  within : Within db db'
  steps : RowSteps C tr db.mgr table txn acts v.toContent v'.toContent

/-- What a statement leaves behind when it raises at a row: the rows before, and perhaps a part
    of that row. -/
structure Raised (C : Conversions) (tr : Tracked) (taken : Prop) (acts : List RowAct)
    (db : Database) (v : View) (table : TableMeta) (txn : Transaction) (db' : Database)
    (v' : View) : Prop where
  sound : Sound C tr db' v'
  within : Within db db'
  steps : ∃ done a rest c, acts = done ++ a :: rest ∧
    RowSteps C tr db.mgr table txn done v.toContent c ∧
    ((v'.toContent = c ∧ RowRefused C db.mgr table txn a c) ∨
      RowPart C db.mgr table txn taken a c v'.toContent)

section
variable {acts : List RowAct} {a : RowAct} {db₁ db₂ : Database} {v₁ v₂ : View}

theorem Written.refl (hs : Sound C tr db v) : Written C tr [] db v table txn db v :=
  ⟨hs, .refl db, .nil⟩

theorem Written.cons (hwithin : Within db db₁)
    (hstep : RowStep C tr db.mgr table txn a v.toContent v₁.toContent)
    (h : Written C tr acts db₁ v₁ table txn db₂ v₂) :
    Written C tr (a :: acts) db v table txn db₂ v₂ :=
  ⟨h.sound, hwithin.trans h.within, .cons hstep (h.steps.congr hwithin.abortedXids)⟩

theorem Raised.refused (hs : Sound C tr db v) (h : RowRefused C db.mgr table txn a v.toContent) :
    Raised C tr taken (a :: acts) db v table txn db v :=
  ⟨hs, .refl db, [], a, acts, v.toContent, rfl, .nil, .inl ⟨rfl, h⟩⟩

theorem Raised.part (hs : Sound C tr db₁ v₁) (hwithin : Within db db₁)
    (h : RowPart C db.mgr table txn taken a v.toContent v₁.toContent) :
    Raised C tr taken (a :: acts) db v table txn db₁ v₁ :=
  ⟨hs, hwithin, [], a, acts, v.toContent, rfl, .nil, .inr h⟩

theorem Raised.cons (hwithin : Within db db₁)
    (hstep : RowStep C tr db.mgr table txn a v.toContent v₁.toContent)
    (h : Raised C tr taken acts db₁ v₁ table txn db₂ v₂) :
    Raised C tr taken (a :: acts) db v table txn db₂ v₂ := by
  obtain ⟨hs, hwithin₂, done, a', rest, c, rfl, hsteps, hend⟩ := h
  have hab := hwithin.abortedXids
  refine ⟨hs, hwithin.trans hwithin₂, a :: done, a', rest, c, rfl, .cons hstep (hsteps.congr hab), ?_⟩
  exact hend.imp (fun ⟨heq, href⟩ => ⟨heq, href.congr hab⟩) fun hpart => hpart.congr hab

end

/-! ## INSERT -/

theorem sheds_insertRow (table : TableMeta) (txn : Transaction) (values : List Value)
    (heap : HeapFile) : Sheds Room (insertRow C table txn values heap) :=
  .bind (sheds_addVersion _ _ _ _) fun _ => .bind (sheds_insertIntoIndexes _ _ _ _ _ _)
    fun _ => (Reads.pure _).sheds

theorem sheds_insertRows (table : TableMeta) (txn : Transaction) (rows : List (List Value))
    (heap : HeapFile) : Sheds Room (insertRows C table txn rows heap) := by
  induction rows generalizing heap with
  | nil => exact (Reads.pure _).sheds
  | cons values rows ih => exact .bind (sheds_insertRow _ _ _ _) fun _ => ih _

/-- The row has one value for every column name. -/
def Named (table : TableMeta) (values : List Value) : Prop :=
  table.schema.names.mapM (lookup (rowMap table values)) = .ok values

/-- Every row that is stored is let into every index. -/
def InsertAdmitted (C : Conversions) (tr : Tracked) (table : TableMeta) (txn : Transaction) :
    List (List Value) → HeapFile → Database → Prop
  | [], _, _ => True
  | values :: rows, heap, db =>
    RowAdmitted C tr table txn values (rowMap table values) none heap db ∧
      ∀ heap' db', insertRow C table txn values heap db = .ok heap' db' →
        InsertAdmitted C tr table txn rows heap' db'

theorem wp_insertRow (acts : List RowAct) (hs : Sound C tr db v) (hc : Current db table)
    (hid : txn.txnId < 2 ^ 32) (hnamed : Named table values)
    (hfaithful : FaithfulKeys C tr table (rowMap table values))
    (htaken : taken → RowAdmitted C tr table txn values (rowMap table values) none
      ⟨table.heapFirstPageId, v.last table.name⟩ db) :
    wpIf Room (insertRow C table txn values ⟨table.heapFirstPageId, v.last table.name⟩)
      (fun heap db' => ∃ v', heap = ⟨table.heapFirstPageId, v'.last table.name⟩ ∧
        Sound C tr db' v' ∧ Within db db' ∧
        RowStep C tr db.mgr table txn (.insert values) v.toContent v'.toContent)
      (fun _ db' => ∃ v', Raised C tr taken (.insert values :: acts) db v table txn db' v') db := by
  refine (wp_addRow (f := fun heap => heap) hs hc hid hnamed hfaithful).mono ?_ ?_
  · rintro heap db' - ⟨v', rid, tup, hs', hwithin, rfl, hnew, hcontent, hunseen⟩
    refine ⟨v', rfl, hs', hwithin, ?_⟩
    rw [hcontent]
    exact .insert hnew hunseen
  · rintro e db' - (⟨rfl, hrefused⟩ | ⟨hadm, v', rid, tup, n, hs', hwithin, hnew, hcontent⟩)
    · exact ⟨v, .refused hs (.insert hrefused)⟩
    · refine ⟨v', .part hs' hwithin ?_⟩
      rw [hcontent]
      exact .insert (fun h => hadm (htaken h)) hnew n

theorem wp_insertRows {rows : List (List Value)} (hs : Sound C tr db v) (hc : Current db table)
    (hid : txn.txnId < 2 ^ 32) (hnamed : ∀ values ∈ rows, Named table values)
    (hfaithful : ∀ values ∈ rows, FaithfulKeys C tr table (rowMap table values))
    (htaken : taken →
      InsertAdmitted C tr table txn rows ⟨table.heapFirstPageId, v.last table.name⟩ db) :
    wpIf Room (insertRows C table txn rows ⟨table.heapFirstPageId, v.last table.name⟩)
      (fun _ db' => ∃ v', Written C tr (rows.map .insert) db v table txn db' v')
      (fun _ db' => ∃ v', Raised C tr taken (rows.map .insert) db v table txn db' v') db := by
  induction rows generalizing db v with
  | nil => exact wp.wpIf ⟨v, .refl hs⟩
  | cons values rows ih =>
    rw [List.forall_mem_cons] at hnamed hfaithful
    refine (wp_insertRow (rows.map .insert) hs hc hid hnamed.1 hfaithful.1 fun h =>
      (htaken h).1).run.bind (fun _ => sheds_insertRows _ _ _ _) ?_ fun _ _ _ h => h.2
    rintro heap db₁ - ⟨hrun, v₁, rfl, hs₁, hwithin, hstep⟩
    refine (ih hs₁ (hwithin.current hc) hnamed.2 hfaithful.2 fun h =>
      (htaken h).2 _ db₁ hrun).mono ?_ ?_
    · rintro ⟨⟩ db₂ - ⟨v₂, hwritten⟩
      exact ⟨v₂, hwritten.cons hwithin hstep⟩
    · rintro e db₂ - ⟨v₂, hraised⟩
      exact ⟨v₂, hraised.cons hwithin hstep⟩

/-! ## The rows of an UPDATE or a DELETE -/

theorem reads_seqScan {π : Type} (mgr : TransactionManager π) (snapshot : Snapshot) (heap : HeapFile)
    (schema : Schema) (alias_ : String) : Reads (seqScan mgr snapshot heap schema alias_) :=
  .bind (HeapFile.reads_scan heap) fun _ => .lift _

theorem reads_fetchRows {π : Type} (mgr : TransactionManager π) (snapshot : Snapshot)
    (schema : Schema) (alias_ : String) (pairs : List (Value × RID)) :
    Reads (fetchRows mgr snapshot schema alias_ pairs) := by
  induction pairs with
  | nil => exact .pure _
  | cons a pairs ih =>
    refine .bind (HeapFile.reads_get _) fun found => ?_
    cases found with
    | none => exact ih
    | some raw =>
      dsimp only
      split
      · exact .bind (.lift _) fun _ => .bind ih fun _ => .pure _
      · exact ih

theorem reads_rowSource {π : Type} (mgr : TransactionManager π) (snapshot : Snapshot)
    (table : TableMeta) (alias_ : String) (where_ : Option Expr) :
    Reads (rowSource C mgr snapshot table alias_ where_) := by
  refine .bind (HeapFile.reads_openAt _) fun _ => .bind (.lift _) fun scan => ?_
  cases scan with
  | seq residual => exact .bind (reads_seqScan _ _ _ _ _) fun _ => .lift _
  | index idx value residual =>
    exact .bind (.bind (BPlusTree.Reads.rangeScan _ _ _) fun _ => reads_fetchRows _ _ _ _ _)
      fun _ => .lift _

theorem filterRows_sublist {predicate : Expr} {rows rows' : List Row}
    (h : filterRows predicate rows = .ok rows') : rows'.Sublist rows := by
  induction rows generalizing rows' with
  | nil =>
    cases h
    exact .slnil
  | cons row rows ih =>
    unfold filterRows at h
    obtain ⟨keep, -, h⟩ := bind_eq_ok.mp h
    split at h
    · obtain ⟨rest, hrest, h⟩ := bind_eq_ok.mp h
      cases h
      exact (ih hrest).cons_cons row
    · exact (ih h).cons row

theorem filtered_sublist {residual : Option Expr} {rows rows' : List Row}
    (h : filtered residual rows = .ok rows') : rows'.Sublist rows := by
  cases residual with
  | none =>
    cases h
    exact .refl _
  | some predicate => exact filterRows_sublist h

/-- A row that was read from a version of a table. -/
def ReadFrom {π : Type} (mgr : TransactionManager π) (snapshot : Snapshot)
    (tuples : List (RID × Tuple)) (row : Row) : Prop :=
  ∃ x ∈ tuples, rowRid row = .ok x.1 ∧ sees mgr snapshot x.2 = true

theorem readFrom_rowFromTuple {π : Type} {mgr : TransactionManager π} {snapshot : Snapshot}
    {tuples : List (RID × Tuple)} {alias_ : String} {schema : Schema} {x : RID × Tuple} {row : Row}
    (hx : x ∈ tuples) (hsees : sees mgr snapshot x.2 = true)
    (h : rowFromTuple alias_ schema x.1 x.2 = .ok row) : ReadFrom mgr snapshot tuples row := by
  refine ⟨x, hx, ?_, hsees⟩
  rw [rowRid, rowFromTuple_rid h]

theorem fetchRows_readFrom {π : Type} {mgr : TransactionManager π} {snapshot : Snapshot}
    {schema : Schema} {alias_ : String} {pairs : List (Value × RID)} {rows : List Row}
    {s s' : Pages} {tuples : List (RID × Tuple)}
    (hpairs : ∀ a ∈ pairs, ∃ tup, (a.2, tup) ∈ tuples ∧ HeapFile.get a.2 s = .ok (some tup) s)
    (h : fetchRows mgr snapshot schema alias_ pairs s = .ok rows s') :
    ∀ row ∈ rows, ReadFrom mgr snapshot tuples row := by
  induction pairs generalizing rows with
  | nil =>
    cases h
    simp
  | cons a pairs ih =>
    obtain ⟨⟨tup, hmem, hget⟩, hpairs⟩ := List.forall_mem_cons.mp hpairs
    rw [fetchRows, run_bind_ok hget] at h
    dsimp only at h
    split at h
    · rename_i hsees
      obtain ⟨row, s₁, hlift, h₁⟩ := run_bind_eq_ok.mp h
      obtain ⟨hrow, rfl⟩ := PageM.lift_eq_ok.mp hlift
      obtain ⟨rest, s₂, hrest, h₂⟩ := run_bind_eq_ok.mp h₁
      cases h₂
      intro r hr
      obtain rfl | hr := List.mem_cons.mp hr
      · exact readFrom_rowFromTuple (x := (a.2, tup)) hmem hsees hrow
      · exact ih hpairs hrest r hr
    · exact ih hpairs h

/-- The planner scans an index that the table has. -/
theorem buildBaseScan_index {alias_ : String} {where_ : Option Expr} {idx : IndexMeta} {value : Value}
    {residual : Option Expr} (h : buildBaseScan table alias_ where_ = .ok (.index idx value residual)) :
    ∃ name, table.indexes.get? name = some idx := by
  unfold buildBaseScan at h
  split at h
  · cases h
  · rename_i name _ _ _
    split at h
    · rename_i hi
      cases h
      exact ⟨name, hi⟩
    · cases h

/-- The rows that UPDATE and DELETE work on were read from versions of the table that the
    transaction sees. -/
theorem Layout.rowSource_readFrom {π : Type} {mgr : TransactionManager π} {snapshot : Snapshot}
    {catalog : Catalog} {s s' : Pages} {t alias_ : String} {where_ : Option Expr} {rows : List Row}
    (hl : Layout catalog s v) (ht : catalog.tables.get? t = some table)
    (h : rowSource C mgr snapshot table alias_ where_ s = .ok rows s') :
    ∀ row ∈ rows, ReadFrom mgr snapshot (v.tuples t) row := by
  obtain ⟨heap, s₁, hopen, h₁⟩ := run_bind_eq_ok.mp h
  rw [(hl.heap ht).openAt] at hopen
  cases hopen
  obtain ⟨scan, s₂, hscan, h₂⟩ := run_bind_eq_ok.mp h₁
  obtain ⟨hbuild, rfl⟩ := PageM.lift_eq_ok.mp hscan
  cases scan with
  | seq residual =>
    obtain ⟨all, s₃, hseq, h₃⟩ := run_bind_eq_ok.mp h₂
    obtain ⟨hfiltered, rfl⟩ := PageM.lift_eq_ok.mp h₃
    obtain ⟨tuples, s₄, hall, h₄⟩ := run_bind_eq_ok.mp hseq
    rw [(hl.heap ht).scan] at hall
    cases hall
    obtain ⟨hmap, -⟩ := PageM.lift_eq_ok.mp h₄
    intro row hrow
    have hmem : (Except.ok row : Except PyError Row) ∈ all.map .ok :=
      List.mem_map_of_mem ((filtered_sublist hfiltered).subset hrow)
    rw [← mapM_eq_ok.mp hmap] at hmem
    obtain ⟨x, hx, heq⟩ := List.mem_map.mp hmem
    obtain ⟨hx, hsees⟩ := List.mem_filter.mp hx
    exact readFrom_rowFromTuple hx hsees heq
  | index idx value residual =>
    obtain ⟨all, s₃, hindex, h₃⟩ := run_bind_eq_ok.mp h₂
    obtain ⟨hfiltered, -⟩ := PageM.lift_eq_ok.mp h₃
    obtain ⟨pairs, s₄, hrange, h₄⟩ := run_bind_eq_ok.mp hindex
    obtain rfl := (BPlusTree.Reads.rangeScan _ _ _).ok hrange
    obtain ⟨name, hi⟩ := buildBaseScan_index hbuild
    have hrids := BPlusTree.rangeScan_owned (hl.region ht hi) (hl.root ht hi) hrange
    intro row hrow
    refine fetchRows_readFrom (fun a ha => ?_) h₄ row ((filtered_sublist hfiltered).subset hrow)
    obtain ⟨tup, hmem⟩ := hrids a ha
    exact ⟨tup, hmem, (hl.heap ht).get hmem⟩

theorem sheds_matching (table : TableMeta) (where_ : Option Expr) (txn : Transaction) :
    Sheds Room (matching C table where_ txn) :=
  .bind Reads.get.sheds fun _ => (reads_onPages (reads_rowSource _ _ _ _ _)).sheds

theorem reads_matching (table : TableMeta) (where_ : Option Expr) (txn : Transaction) :
    Reads (matching C table where_ txn) :=
  .bind .get fun _ => reads_onPages (reads_rowSource _ _ _ _ _)

theorem matching_readFrom {where_ : Option Expr} {rows : List Row} (hs : Sound C tr db v)
    (ht : db.catalog.tables.get? table.name = some table)
    (hrun : matching C table where_ txn db = .ok rows db) :
    ∀ row ∈ rows, ReadFrom db.mgr txn.snapshot (v.tuples table.name) row := by
  have hrun' : onPages (rowSource C db.mgr txn.snapshot table table.name where_) db = .ok rows db := hrun
  exact Layout.rowSource_readFrom hs.layout ht (onPages_reads (reads_rowSource _ _ _ _ _) hrun')

/-- The rows of a table with these RIDs. -/
def Rooted (c : Content) (t : String) (rows : List Row) (rids : List RID) : Prop :=
  rows.map rowRid = rids.map .ok ∧ ∀ rid ∈ rids, c.HasRid t rid

theorem exists_rooted {π : Type} {mgr : TransactionManager π} {snapshot : Snapshot} {c : Content}
    {t : String} {rows : List Row} (h : ∀ row ∈ rows, ReadFrom mgr snapshot (c.tuples t) row) :
    ∃ rids, Rooted c t rows rids ∧
      ∀ rid ∈ rids, ∃ tup, (rid, tup) ∈ c.tuples t ∧ sees mgr snapshot tup = true := by
  induction rows with
  | nil => exact ⟨[], ⟨rfl, by simp⟩, by simp⟩
  | cons row rows ih =>
    obtain ⟨⟨x, hx, hrid, hsees⟩, hrows⟩ := List.forall_mem_cons.mp h
    obtain ⟨rids, ⟨hmap, hhas⟩, hseen⟩ := ih hrows
    refine ⟨x.1 :: rids, ⟨by simp [hrid, hmap], ?_⟩, ?_⟩
    · exact List.forall_mem_cons.mpr ⟨⟨x.2, hx⟩, hhas⟩
    · exact List.forall_mem_cons.mpr ⟨⟨x.2, hx, hsees⟩, hseen⟩

theorem Rooted.cons {c : Content} {t : String} {row : Row} {rows : List Row} {rids : List RID}
    (h : Rooted c t (row :: rows) rids) : ∃ rid rids', rids = rid :: rids' ∧ rowRid row = .ok rid ∧
      c.HasRid t rid ∧ Rooted c t rows rids' := by
  obtain ⟨hmap, hhas⟩ := h
  cases rids with
  | nil => cases hmap
  | cons rid rids =>
    rw [List.map_cons, List.map_cons, List.cons.injEq] at hmap
    rw [List.forall_mem_cons] at hhas
    exact ⟨rid, rids, rfl, hmap.1, hhas.1, hmap.2, hhas.2⟩

theorem Rooted.step {mgr : TransactionManager LogOp} {a : RowAct} {c c' : Content} {t : String}
    {rows : List Row} {rids : List RID} (h : Rooted c t rows rids)
    (hstep : RowStep C tr mgr table txn a c c') : Rooted c' t rows rids :=
  ⟨h.1, fun rid hrid => hstep.hasRid (h.2 rid hrid)⟩

/-! ## DELETE -/

theorem sheds_deleteRow (table : TableMeta) (txn : Transaction) (row : Row) :
    Sheds Room (deleteRow table txn row) := by
  refine .bind (reads_lift _).sheds fun rid => .bind (reads_onPages (HeapFile.reads_get _)).sheds
    fun found => ?_
  cases found with
  | none => exact (Reads.pure _).sheds
  | some raw =>
    exact .bind Reads.get.sheds fun _ => .bind (reads_lift _).sheds fun _ =>
      .bind (sheds_stampVersion _ _ _ _) fun _ => (Reads.pure _).sheds

theorem sheds_deleteRows (table : TableMeta) (txn : Transaction) (rows : List Row) :
    Sheds Room (deleteRows table txn rows) := by
  induction rows with
  | nil => exact (Reads.pure _).sheds
  | cons row rows ih =>
    exact .bind (sheds_deleteRow _ _ _) fun _ => .bind ih fun _ => (Reads.pure _).sheds

/-- A version that is there is found. -/
theorem Sound.get {raw : Tuple} (hs : Sound C tr db v) (hc : Current db table)
    (hmem : (rid, raw) ∈ v.tuples table.name) :
    onPages (HeapFile.get rid) db = .ok (some raw) db := by
  obtain ⟨table', ht, -⟩ := hc
  exact onPages_eq_ok.mpr ⟨db.pages, (hs.layout.heap ht).get hmem, rfl⟩

theorem wp_deleteRow {row : Row} (acts : List RowAct) (hs : Sound C tr db v) (hc : Current db table)
    (hid : txn.txnId < 2 ^ 32) (hrow : rowRid row = .ok rid) (hhas : v.HasRid table.name rid) :
    wp (deleteRow table txn row)
      (fun n db' => n = 1 ∧ ∃ v', Sound C tr db' v' ∧ Within db db' ∧
        RowStep C tr db.mgr table txn (.delete rid) v.toContent v'.toContent)
      (fun _ db' => ∃ v', Raised C tr taken (.delete rid :: acts) db v table txn db' v') db := by
  obtain ⟨raw, hmem⟩ := hhas
  rw [deleteRow, wp_bind, wp_lift]
  refine ⟨fun rid' hrid' => ?_, fun e herr => by rw [hrow] at herr; cases herr⟩
  obtain rfl := Except.ok.inj (hrow.symm.trans hrid')
  rw [wp_bind, wp_of_ok (hs.get hc hmem)]
  dsimp only
  rw [wp_bind, wp_get, wp_bind, wp_lift]
  refine ⟨fun _ hconflict => ?_, fun e herr => ⟨v, .refused hs (.conflict (.inr rfl) hmem herr)⟩⟩
  refine (wp_stampVersion hs hc hid hmem).bind ?_ fun _ _ h => h.elim
  rintro ⟨⟩ db' ⟨v', new, hs', hwithin, hnew, hcontent, -⟩
  refine ⟨rfl, v', hs', hwithin, ?_⟩
  rw [hcontent]
  exact .delete ⟨hmem, hconflict, hnew⟩

theorem wp_deleteRows {rows : List Row} {rids : List RID} (hs : Sound C tr db v)
    (hc : Current db table) (hid : txn.txnId < 2 ^ 32)
    (hrows : Rooted v.toContent table.name rows rids) :
    wp (deleteRows table txn rows)
      (fun n db' => n = rids.length ∧ ∃ v', Written C tr (rids.map .delete) db v table txn db' v')
      (fun _ db' => ∃ v', Raised C tr taken (rids.map .delete) db v table txn db' v') db := by
  induction rows generalizing db v rids with
  | nil =>
    obtain rfl : rids = [] := by simpa using hrows.1
    exact ⟨rfl, v, .refl hs⟩
  | cons row rows ih =>
    obtain ⟨rid, rids, rfl, hrid, hhas, hrows⟩ := hrows.cons
    refine (wp_deleteRow (rids.map .delete) hs hc hid hrid hhas).bind ?_ fun _ _ h => h
    rintro n db₁ ⟨rfl, v₁, hs₁, hwithin, hstep⟩
    refine (ih hs₁ (hwithin.current hc) (hrows.step hstep)).bind ?_ ?_
    · rintro n db₂ ⟨rfl, v₂, hwritten⟩
      exact ⟨Nat.add_comm _ _, v₂, hwritten.cons hwithin hstep⟩
    · rintro e db₂ ⟨v₂, hraised⟩
      exact ⟨v₂, hraised.cons hwithin hstep⟩

/-! ## UPDATE -/

theorem sheds_updateRow (table : TableMeta) (assignments : List (String × Expr)) (txn : Transaction)
    (row : Row) (heap : HeapFile) : Sheds Room (updateRow C table assignments txn row heap) := by
  refine .bind (reads_lift _).sheds fun rid => .bind (reads_onPages (HeapFile.reads_get _)).sheds
    fun found => ?_
  cases found with
  | none => exact (Reads.pure _).sheds
  | some raw =>
    exact .bind Reads.get.sheds fun _ => .bind (reads_lift _).sheds fun _ =>
      .bind (reads_lift _).sheds fun _ => .bind (reads_lift _).sheds fun _ =>
      .bind (reads_lift _).sheds fun _ => .bind (sheds_stampVersion _ _ _ _) fun _ =>
      .bind (sheds_addVersion _ _ _ _) fun _ => .bind (sheds_insertIntoIndexes _ _ _ _ _ _) fun _ =>
      (Reads.pure _).sheds

theorem sheds_updateRows (table : TableMeta) (assignments : List (String × Expr))
    (txn : Transaction) (rows : List Row) (heap : HeapFile) :
    Sheds Room (updateRows C table assignments txn rows heap) := by
  induction rows generalizing heap with
  | nil => exact (Reads.pure _).sheds
  | cons row rows ih =>
    exact .bind (sheds_updateRow _ _ _ _ _) fun _ => .bind (ih _) fun _ => (Reads.pure _).sheds

/-- What an UPDATE makes of a row goes faithfully into the tracked indexes. -/
def AssignFaithful (C : Conversions) (tr : Tracked) (table : TableMeta)
    (assignments : List (String × Expr)) (payload : List Cell) : Prop :=
  ∀ valueMap, assign (rowMap table (payload.map Cell.value)) assignments = .ok valueMap →
    FaithfulKeys C tr table valueMap

/-- The new version of a row, once the old one is stamped, is let into every index. -/
def UpdateRowAdmitted (C : Conversions) (tr : Tracked) (table : TableMeta)
    (assignments : List (String × Expr)) (txn : Transaction) (row : Row) (heap : HeapFile)
    (db : Database) : Prop :=
  ∀ rid raw valueMap values db', rowRid row = .ok rid →
    HeapFile.get rid db.pages = .ok (some raw) db.pages →
    assign (rowMap table (rowValues raw)) assignments = .ok valueMap →
    table.schema.names.mapM (lookup valueMap) = .ok values →
    stampVersion table txn rid raw db = .ok () db' →
    RowAdmitted C tr table txn values valueMap (some rid) heap db'

/-- Every new version that is stored is let into every index. -/
def UpdateAdmitted (C : Conversions) (tr : Tracked) (table : TableMeta)
    (assignments : List (String × Expr)) (txn : Transaction) :
    List Row → HeapFile → Database → Prop
  | [], _, _ => True
  | row :: rows, heap, db => UpdateRowAdmitted C tr table assignments txn row heap db ∧
      ∀ n heap' db', updateRow C table assignments txn row heap db = .ok (n, heap') db' →
        UpdateAdmitted C tr table assignments txn rows heap' db'

theorem wp_updateRow {assignments : List (String × Expr)} {row : Row} (acts : List RowAct)
    (hs : Sound C tr db v) (hc : Current db table) (hid : txn.txnId < 2 ^ 32)
    (hrow : rowRid row = .ok rid) (hhas : v.HasRid table.name rid)
    (hfaithful : ∀ raw, (rid, raw) ∈ v.tuples table.name →
      AssignFaithful C tr table assignments raw.payload)
    (htaken : taken → UpdateRowAdmitted C tr table assignments txn row
      ⟨table.heapFirstPageId, v.last table.name⟩ db) :
    wpIf Room (updateRow C table assignments txn row ⟨table.heapFirstPageId, v.last table.name⟩)
      (fun r db' => r.1 = 1 ∧ ∃ v', r.2 = ⟨table.heapFirstPageId, v'.last table.name⟩ ∧
        Sound C tr db' v' ∧ Within db db' ∧
        RowStep C tr db.mgr table txn (.update assignments rid) v.toContent v'.toContent)
      (fun _ db' => ∃ v',
        Raised C tr taken (.update assignments rid :: acts) db v table txn db' v') db := by
  obtain ⟨raw, hmem⟩ := hhas
  obtain ⟨table', ht, heq⟩ := id hc
  have htypes := (hs.layout.conforms ht (rid, raw) hmem).types
  rw [(TableMeta.of_shape heq).2.1] at htypes
  have hrefused : ∀ {acts' : List RowAct} {db' : Database},
      RowRefused C db.mgr table txn (.update assignments rid) v.toContent → db' = db →
      ∃ v', Raised C tr taken (.update assignments rid :: acts') db v table txn db' v' := by
    rintro acts' db' href rfl
    exact ⟨v, .refused hs href⟩
  unfold updateRow
  refine wp_bind.mpr (wp_lift.mpr ⟨fun rid' hrid' => ?_,
    fun e herr => by rw [hrow] at herr; cases herr⟩)
  obtain rfl := Except.ok.inj (hrow.symm.trans hrid')
  refine wp_bind.mpr ((wp_of_ok (hs.get hc hmem)).mpr ?_)
  dsimp only
  refine wp_bind.mpr (wp_get.mpr (wp_bind.mpr (wp_lift.mpr
    ⟨fun _ hconflict => ?_, fun e herr _ => hrefused (.conflict (.inl ⟨_, rfl⟩) hmem herr) rfl⟩)))
  have hdecode : decodeRow (tuplePayload raw) table.schema = .ok (rowValues raw) :=
    decodeRow_eq htypes
  refine wp_bind.mpr (wp_lift.mpr ⟨fun oldValues hold => ?_,
    fun e herr => by rw [hdecode] at herr; cases herr⟩)
  obtain rfl := Except.ok.inj (hdecode.symm.trans hold)
  refine wp_bind.mpr (wp_lift.mpr ⟨fun valueMap hassign => ?_,
    fun e herr _ => hrefused (.assign hmem herr) rfl⟩)
  refine wp_bind.mpr (wp_lift.mpr ⟨fun newValues hvalues => ?_,
    fun e herr _ => hrefused (.lookup hmem hassign herr) rfl⟩)
  refine (wp_stampVersion hs hc hid hmem).run.wpIf.bind (fun _ => .bind (sheds_addVersion _ _ _ _)
    fun _ => .bind (sheds_insertIntoIndexes _ _ _ _ _ _) fun _ => (Reads.pure _).sheds) ?_
    fun _ _ _ h => h.2.elim
  rintro ⟨⟩ db₁ - ⟨hrun, v₁, new, hs₁, hwithin, hnew, hcontent, hlast⟩
  have hstamped : Stamped db.mgr table txn v.toContent rid raw new := ⟨hmem, hconflict, hnew⟩
  have hadm : taken → RowAdmitted C tr table txn newValues valueMap (some rid)
      ⟨table.heapFirstPageId, v.last table.name⟩ db₁ := fun h =>
    htaken h rid raw valueMap newValues db₁ hrow ((hs.layout.heap ht).get hmem) hassign hvalues hrun
  rw [← hlast] at hadm ⊢
  refine (wp_addRow (f := fun heap => (1, heap)) hs₁ (hwithin.current hc) hid hvalues
    (hfaithful raw hmem valueMap hassign)).mono ?_ ?_
  · rintro r db₂ - ⟨v₂, rid₂, tup, hs₂, hwithin₂, rfl, hrow₂, hcontent₂, hunseen⟩
    refine ⟨rfl, v₂, rfl, hs₂, hwithin.trans hwithin₂, ?_⟩
    rw [hcontent] at hrow₂
    rw [Content.add, hcontent] at hunseen
    rw [hcontent₂, Content.add, hcontent]
    exact .update hstamped hassign hrow₂ (hunseen.congr hwithin.abortedXids)
  · rintro e db₂ - (⟨rfl, hrefused⟩ | ⟨hnot, v₂, rid₂, tup, n, hs₂, hwithin₂, hrow₂, hcontent₂⟩)
    · refine ⟨v₁, .part hs₁ hwithin ?_⟩
      rw [hcontent]
      exact .stamp hstamped hassign hvalues hrefused
    · refine ⟨v₂, .part hs₂ (hwithin.trans hwithin₂) ?_⟩
      rw [hcontent] at hrow₂
      rw [hcontent₂, Content.add, hcontent]
      exact .update (fun h => hnot (hadm h)) hstamped hassign hrow₂ n

/-- A tuple that was there keeps its payload through the statement. -/
theorem RowStep.payload {mgr : TransactionManager LogOp} {a : RowAct} {c c' : Content} {raw : Tuple}
    {t : String} (h : RowStep C tr mgr table txn a c c') (hhas : c.HasRid t rid) (hmem : (rid, raw) ∈ c'.tuples t) :
    ∃ raw₀, (rid, raw₀) ∈ c.tuples t ∧ raw₀.payload = raw.payload := by
  have hset : ∀ {old raw₁ stamped}, Stamped mgr table txn c old raw₁ stamped →
      (rid, raw) ∈ (c.set table.name old stamped).tuples t →
      ∃ raw₀, (rid, raw₀) ∈ c.tuples t ∧ raw₀.payload = raw.payload := by
    intro old raw₁ stamped hst hin
    by_cases ht : t = table.name
    · subst ht
      simp only [Content.set, Function.update_self, HeapFile.overwrite, List.mem_map] at hin
      obtain ⟨x, hx, heq⟩ := hin
      split at heq
      · rename_i hrid
        cases heq
        exact ⟨raw₁, hrid ▸ hst.mem, (withXmax_ok hst.stamp).2.2.symm⟩
      · subst heq
        exact ⟨_, hx, rfl⟩
    · simp only [Content.set, Function.update_of_ne ht] at hin
      exact ⟨raw, hin, rfl⟩
  have hadd : ∀ {c₁ : Content} {new : RID} {tup : Tuple}, ¬c₁.HasRid table.name new →
      c₁.HasRid t rid → (rid, raw) ∈ (c₁.add table.name (new, tup)).tuples t →
      (rid, raw) ∈ c₁.tuples t := by
    intro c₁ new tup hfresh hhas₁ hin
    by_cases ht : t = table.name
    · subst ht
      simp only [Content.add, Function.update_self, List.mem_append, List.mem_singleton] at hin
      obtain hin | heq := hin
      · exact hin
      · cases heq
        exact absurd hhas₁ hfresh
    · simpa only [Content.add, Function.update_of_ne ht] using hin
  cases h with
  | insert new unseen =>
    rw [Content.tuples_addKeys] at hmem
    exact ⟨raw, hadd new.fresh hhas hmem, rfl⟩
  | update stamp assigned new unseen =>
    rw [Content.tuples_addKeys] at hmem
    exact hset stamp (hadd new.fresh (Content.hasRid_set hhas) hmem)
  | delete stamp => exact hset stamp hmem

theorem wp_updateRows {assignments : List (String × Expr)} {rows : List Row} {rids : List RID}
    (hs : Sound C tr db v) (hc : Current db table) (hid : txn.txnId < 2 ^ 32)
    (hrows : Rooted v.toContent table.name rows rids)
    (hfaithful : ∀ rid ∈ rids, ∀ raw, (rid, raw) ∈ v.tuples table.name →
      AssignFaithful C tr table assignments raw.payload)
    (htaken : taken → UpdateAdmitted C tr table assignments txn rows
      ⟨table.heapFirstPageId, v.last table.name⟩ db) :
    wpIf Room (updateRows C table assignments txn rows ⟨table.heapFirstPageId, v.last table.name⟩)
      (fun n db' => n = rids.length ∧
        ∃ v', Written C tr (rids.map (.update assignments)) db v table txn db' v')
      (fun _ db' => ∃ v',
        Raised C tr taken (rids.map (.update assignments)) db v table txn db' v') db := by
  induction rows generalizing db v rids with
  | nil =>
    obtain rfl : rids = [] := by simpa using hrows.1
    exact wp.wpIf ⟨rfl, v, .refl hs⟩
  | cons row rows ih =>
    obtain ⟨rid, rids, rfl, hrid, hhas, hrows⟩ := hrows.cons
    rw [List.forall_mem_cons] at hfaithful
    refine (wp_updateRow (rids.map (.update assignments)) hs hc hid hrid hhas hfaithful.1 fun h =>
      (htaken h).1).run.bind
      (fun _ => .bind (sheds_updateRows _ _ _ _ _) fun _ => (Reads.pure _).sheds) ?_
      fun _ _ _ h => h.2
    rintro ⟨n, heap⟩ db₁ - ⟨hrun, rfl, v₁, rfl, hs₁, hwithin, hstep⟩
    have hfaithful₁ : ∀ rid ∈ rids, ∀ raw, (rid, raw) ∈ v₁.tuples table.name →
        AssignFaithful C tr table assignments raw.payload := by
      intro rid' hrid' raw hraw
      obtain ⟨raw₀, hraw₀, heq⟩ := hstep.payload (hrows.2 rid' hrid') hraw
      exact heq ▸ hfaithful.2 rid' hrid' raw₀ hraw₀
    refine (ih hs₁ (hwithin.current hc) (hrows.step hstep) hfaithful₁ fun h =>
      (htaken h).2 1 _ db₁ hrun).bind (fun _ => (Reads.pure _).sheds) ?_ ?_
    · rintro n db₂ - ⟨rfl, v₂, hwritten⟩
      exact wp.wpIf ⟨Nat.add_comm _ _, v₂, hwritten.cons hwithin hstep⟩
    · rintro e db₂ - ⟨v₂, hraised⟩
      exact ⟨v₂, hraised.cons hwithin hstep⟩

end Database
end Minirel
