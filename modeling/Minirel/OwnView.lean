-- SUMMARY: What a statement changes in the rows that its own transaction sees.
import Minirel.InsertRows

/-!
# The view of the own transaction

A transaction sees what it writes at once: its new versions bear its id as creator, and the
versions it deletes bear its id as stamp. Here the rows that a transaction sees of a table
after one of its statements are compared with those it saw before.
-/

namespace Minirel

/-! ## The RIDs of a row source -/

section
variable {π : Type} {C : Conversions} {mgr : TransactionManager π} {snapshot : Snapshot}
  {alias_ : String} {schema : Schema}

theorem rowRid_rowFromTuple {rid : RID} {raw : Tuple} {row : Row}
    (h : rowFromTuple alias_ schema rid raw = .ok row) : rowRid row = .ok rid := by
  rw [rowRid, rowFromTuple_rid h]

theorem mapM_rids {tuples : List (RID × Tuple)} {rows : List Row}
    (h : tuples.mapM (fun (rid, raw) => rowFromTuple alias_ schema rid raw) = .ok rows) :
    rows.map rowRid = (tuples.map (·.1)).map .ok := by
  induction tuples generalizing rows with
  | nil =>
    cases h
    rfl
  | cons x tuples ih =>
    rw [List.mapM_cons] at h
    obtain ⟨row, hrow, h⟩ := bind_eq_ok.mp h
    obtain ⟨rest, hrest, h⟩ := bind_eq_ok.mp h
    cases h
    rw [List.map_cons, List.map_cons, List.map_cons, ih hrest, rowRid_rowFromTuple hrow]

/-- The rows of the versions that are fetched bear their RIDs. -/
theorem fetchRows_rids {pairs : List (Value × RID)} {rows : List Row} {s s' : Pages}
    (h : fetchRows mgr snapshot schema alias_ pairs s = .ok rows s') :
    ∃ rids : List RID, rows.map rowRid = rids.map .ok ∧ rids.Sublist (pairs.map (·.2)) := by
  induction pairs generalizing rows s with
  | nil =>
    cases h
    exact ⟨[], rfl, .slnil⟩
  | cons a pairs ih =>
    obtain ⟨value, rid⟩ := a
    obtain ⟨found, s₁, -, h₁⟩ := run_bind_eq_ok.mp h
    cases found with
    | none =>
      obtain ⟨rids, hrids, hsub⟩ := ih h₁
      exact ⟨rids, hrids, hsub.cons rid⟩
    | some raw =>
      dsimp only at h₁
      split at h₁
      · obtain ⟨row, s₂, hlift, h₂⟩ := run_bind_eq_ok.mp h₁
        obtain ⟨hrow, rfl⟩ := PageM.lift_eq_ok.mp hlift
        obtain ⟨rest, s₃, hrest, h₃⟩ := run_bind_eq_ok.mp h₂
        cases h₃
        obtain ⟨rids, hrids, hsub⟩ := ih hrest
        exact ⟨rid :: rids, by rw [List.map_cons, List.map_cons, hrids, rowRid_rowFromTuple hrow],
          hsub.cons_cons rid⟩
      · obtain ⟨rids, hrids, hsub⟩ := ih h₁
        exact ⟨rids, hrids, hsub.cons rid⟩

/-- The rows that some RIDs stand in, if their RIDs are known. -/
theorem rids_sublist {rows rows' : List Row} {rids : List RID} (h : rows'.Sublist rows)
    (hrids : rows.map rowRid = rids.map .ok) :
    ∃ rids' : List RID, rows'.map rowRid = rids'.map .ok ∧ rids'.Sublist rids := by
  induction h generalizing rids with
  | slnil => exact ⟨[], rfl, List.nil_sublist _⟩
  | cons row _ ih =>
    cases rids with
    | nil => cases hrids
    | cons rid rids =>
      obtain ⟨rids', hrids', hsub⟩ := ih (List.cons.inj hrids).2
      exact ⟨rids', hrids', hsub.cons rid⟩
  | cons_cons row _ ih =>
    cases rids with
    | nil => cases hrids
    | cons rid rids =>
      obtain ⟨hrow, hrows⟩ := List.cons.inj hrids
      obtain ⟨rids', hrids', hsub⟩ := ih hrows
      exact ⟨rid :: rids', by rw [List.map_cons, List.map_cons, hrow, hrids'], hsub.cons_cons rid⟩

end

namespace Database

variable {C : Conversions} {tr : Tracked} {db db' : Database} {v : View} {c c' : Content}
  {table : TableMeta} {txn : Transaction} {t : String}

/-- A row source yields no version twice. -/
theorem Layout.rowSource_nodup {π : Type} {mgr : TransactionManager π} {snapshot : Snapshot}
    {catalog : Catalog} {s s' : Pages} {alias_ : String} {where_ : Option Expr} {rows : List Row}
    (hl : Layout catalog s v) (ht : catalog.tables.get? t = some table)
    (h : rowSource C mgr snapshot table alias_ where_ s = .ok rows s') :
    ∃ rids : List RID, rows.map rowRid = rids.map .ok ∧ rids.Nodup := by
  obtain ⟨heap, s₁, hopen, h₁⟩ := run_bind_eq_ok.mp h
  rw [(hl.heap ht).openAt] at hopen
  cases hopen
  obtain ⟨scan, s₂, hscan, h₂⟩ := run_bind_eq_ok.mp h₁
  obtain ⟨hbuild, rfl⟩ := PageM.lift_eq_ok.mp hscan
  -- it is enough that the scan yields none twice
  have hall : ∀ {all : List Row} {rids : List RID} {residual : Option Expr},
      filtered residual all = .ok rows → all.map rowRid = rids.map .ok → rids.Nodup →
      ∃ rids : List RID, rows.map rowRid = rids.map .ok ∧ rids.Nodup := by
    intro all rids residual hfiltered hrids hnodup
    obtain ⟨rids', hrids', hsub⟩ := rids_sublist (filtered_sublist hfiltered) hrids
    exact ⟨rids', hrids', hnodup.sublist hsub⟩
  cases scan with
  | seq residual =>
    obtain ⟨all, s₃, hseq, h₃⟩ := run_bind_eq_ok.mp h₂
    obtain ⟨hfiltered, rfl⟩ := PageM.lift_eq_ok.mp h₃
    obtain ⟨tuples, s₄, hheap, h₄⟩ := run_bind_eq_ok.mp hseq
    rw [(hl.heap ht).scan] at hheap
    cases hheap
    obtain ⟨hmap, -⟩ := PageM.lift_eq_ok.mp h₄
    exact hall hfiltered (mapM_rids hmap) ((hl.heap ht).nodup.sublist (List.filter_sublist.map _))
  | index idx value residual =>
    obtain ⟨all, s₃, hindex, h₃⟩ := run_bind_eq_ok.mp h₂
    obtain ⟨hfiltered, -⟩ := PageM.lift_eq_ok.mp h₃
    obtain ⟨pairs, s₄, hrange, h₄⟩ := run_bind_eq_ok.mp hindex
    obtain rfl := (BPlusTree.Reads.rangeScan _ _ _).ok hrange
    obtain ⟨i, hi⟩ := buildBaseScan_index hbuild
    obtain ⟨rids, hrids, hsub⟩ := fetchRows_rids h₄
    have hnodup := BPlusTree.rangeScan_nodup (hl.region ht hi) (hl.distinct ht hi) (hl.root ht hi) hrange
    exact hall hfiltered hrids (hnodup.sublist hsub)

/-! ## What the own transaction sees -/

/-- A transaction that runs: its snapshot is its own, and it has not been aborted. -/
structure Running (mgr : TransactionManager LogOp) (txn : Transaction) : Prop where
  own : txn.snapshot.xid = txn.txnId
  valid : txn.txnId ∉ mgr.abortedXids

theorem running_of_active (hi : db.session.Inv) {n : Nat} (ht : db.session.txns n = some txn)
    (hactive : txn.state = .active) : Running db.mgr txn := by
  obtain ⟨hid, hxid, -, -⟩ := hi.handle ht
  refine ⟨hxid.trans hid.symm, ?_⟩
  rw [hid]
  exact hi.active_not_aborted ((hi.active_iff ht).mp hactive)

section
variable {mgr : TransactionManager LogOp} {raw new tup : Tuple} {rid : RID} {ts : List (RID × Tuple)}
  {values : List Value} {rows : List (List Value)} {rids : List RID}
  {assignments : List (String × Expr)}

/-- A transaction sees its own new version ... -/
theorem Running.sees_new (h : Running mgr txn) (hmin : tup.xmin = txn.txnId)
    (hmax : tup.xmax = infinityTxn) : sees mgr txn.snapshot tup = true := by
  rw [sees]
  dsimp only [unpackTupleHeader]
  rw [TransactionManager.isVisible_iff, hmin, hmax]
  exact ⟨⟨h.valid, .inl h.own.symm⟩, .inl rfl⟩

/-- ... and does not see a version with its stamp ... -/
theorem Running.not_sees (h : Running mgr txn) (hmax : tup.xmax = txn.txnId)
    (hinf : txn.txnId ≠ infinityTxn) : sees mgr txn.snapshot tup = false := by
  rw [Bool.eq_false_iff, sees]
  dsimp only [unpackTupleHeader]
  rw [Ne, TransactionManager.isVisible_iff, hmax]
  rintro ⟨-, hinf' | hab | hnot⟩
  · exact hinf hinf'
  · exact h.valid hab
  · exact hnot (.inl h.own.symm)

/-- ... unless the stamp is the one that means "not deleted". -/
theorem sees_stamped (hraw : sees mgr txn.snapshot raw = true) (hmin : new.xmin = raw.xmin)
    (hmax : new.xmax = infinityTxn) : sees mgr txn.snapshot new = true := by
  rw [sees] at hraw ⊢
  dsimp only [unpackTupleHeader] at hraw ⊢
  rw [TransactionManager.isVisible_iff] at hraw ⊢
  rw [hmin]
  exact ⟨hraw.1, .inl hmax⟩

theorem seen_overwrite {snapshot : Snapshot} (hnew : sees mgr snapshot new = false) :
    seen mgr snapshot (HeapFile.overwrite ts rid new) =
      (seen mgr snapshot ts).filter fun x => decide (x.1 ≠ rid) := by
  rw [overwrite_eq]
  induction ts with
  | nil => rfl
  | cons x ts ih =>
    rw [seen] at ih ⊢
    by_cases hx : x.1 = rid
    · cases hsees : sees mgr snapshot x.2 with
      | true => simpa [seen, List.filter_cons, hx, hnew, hsees] using ih
      | false => simpa [seen, List.filter_cons, hx, hnew, hsees] using ih
    · cases hsees : sees mgr snapshot x.2 with
      | true => simpa [seen, List.filter_cons, hx, hsees] using ih
      | false => simpa [seen, List.filter_cons, hx, hsees] using ih

/-- A version as a row of values. -/
def rowAt (x : RID × Tuple) : RID × List Value := (x.1, rowValues x.2)

/-- A stamp that hides nothing. -/
theorem seen_overwrite_rows {snapshot : Snapshot} (hnodup : (ts.map (·.1)).Nodup)
    (hmem : (rid, raw) ∈ ts) (hraw : sees mgr snapshot raw = true) (hnew : sees mgr snapshot new = true)
    (hpayload : new.payload = raw.payload) :
    (seen mgr snapshot (HeapFile.overwrite ts rid new)).map rowAt = (seen mgr snapshot ts).map rowAt := by
  have hraw' : ∀ x ∈ ts, x.1 = rid → x.2 = raw := by
    rintro ⟨rid', tup⟩ hx rfl
    exact eq_of_nodup hnodup hx hmem
  have hfilter : ts.filter ((fun x => sees mgr snapshot x.2) ∘
      fun x => (x.1, if x.1 = rid then new else x.2)) = seen mgr snapshot ts := by
    refine List.filter_congr fun x hx => ?_
    dsimp only [Function.comp]
    split
    · rename_i heq
      rw [hraw' x hx heq, hraw, hnew]
    · rfl
  rw [overwrite_eq, seen, List.filter_map, List.map_map, hfilter]
  refine List.map_congr_left fun x hx => ?_
  dsimp only [Function.comp, rowAt]
  split
  · rename_i heq
    rw [hraw' x (List.mem_of_mem_filter hx) heq, rowValues, rowValues, hpayload]
  · rfl

/-! ## Row by row -/

/-- The fields of the version that UPDATE makes of a row. -/
def UpdatedFrom (C : Conversions) (table : TableMeta) (assignments : List (String × Expr))
    (old new : List Cell) : Prop :=
  ∃ valueMap values, assign (rowMap table (old.map Cell.value)) assignments = .ok valueMap ∧
    table.schema.names.mapM (lookup valueMap) = .ok values ∧ encodeRow C values table.schema = .ok new

theorem tuples_set (c : Content) (t : String) (rid : RID) (tup : Tuple) :
    (c.set t rid tup).tuples t = HeapFile.overwrite (c.tuples t) rid tup := Function.update_self _ _ _

theorem tuples_add (c : Content) (t : String) (x : RID × Tuple) :
    (c.add t x).tuples t = c.tuples t ++ [x] := Function.update_self _ _ _

/-- A version that is deleted is not seen any more. -/
theorem RowStep.seen_delete (hrun : Running mgr txn) (hinf : txn.txnId ≠ infinityTxn)
    (h : RowStep C tr mgr table txn (.delete rid) c c') :
    seen mgr txn.snapshot (c'.tuples table.name) =
      (seen mgr txn.snapshot (c.tuples table.name)).filter fun x => decide (x.1 ≠ rid) := by
  cases h with
  | delete stamp =>
    obtain ⟨-, hxmax, -⟩ := withXmax_ok stamp.stamp
    rw [tuples_set, seen_overwrite (hrun.not_sees hxmax hinf)]

/-- A version that is replaced is not seen any more, but the one that replaces it is. -/
theorem RowStep.seen_update (hrun : Running mgr txn) (hinf : txn.txnId ≠ infinityTxn)
    (h : RowStep C tr mgr table txn (.update assignments rid) c c') :
    ∃ raw x, (rid, raw) ∈ c.tuples table.name ∧ ¬c.HasRid table.name x.1 ∧
      UpdatedFrom C table assignments raw.payload x.2.payload ∧
      seen mgr txn.snapshot (c'.tuples table.name) =
        (seen mgr txn.snapshot (c.tuples table.name)).filter (fun y => decide (y.1 ≠ rid)) ++ [x] := by
  cases h with
  | @update _ _ values valueMap _ new raw stamped tup stamp assigned hnew unseen =>
    obtain ⟨-, hxmax, -⟩ := withXmax_ok stamp.stamp
    refine ⟨raw, (new, tup), stamp.mem, fun hhas => hnew.fresh (Content.hasRid_set hhas),
      ⟨valueMap, values, assigned, hnew.named, hnew.version.encoded⟩, ?_⟩
    have hsees := hrun.sees_new hnew.version.xmin hnew.version.xmax
    rw [Content.tuples_addKeys, tuples_add, tuples_set, seen, List.filter_append]
    refine congrArg₂ _ (seen_overwrite (hrun.not_sees hxmax hinf)) ?_
    simp [hsees]

/-! ## Whole statements -/

/-- The versions that a DELETE has matched are not seen any more. -/
theorem RowSteps.seen_deletes (hrun : Running mgr txn) (hinf : txn.txnId ≠ infinityTxn)
    (h : RowSteps C tr mgr table txn (rids.map .delete) c c') :
    seen mgr txn.snapshot (c'.tuples table.name) =
      (seen mgr txn.snapshot (c.tuples table.name)).filter fun x => decide (x.1 ∉ rids) := by
  induction rids generalizing c with
  | nil =>
    cases h
    simp
  | cons rid rids ih =>
    cases h with
    | cons step rest =>
      rw [ih rest, step.seen_delete hrun hinf, List.filter_filter]
      refine List.filter_congr fun x _ => ?_
      simp [Bool.and_comm]

/-- Of the versions that an UPDATE has matched each is not seen any more, and one that is made of
    it is. -/
theorem RowSteps.seen_updates (hrun : Running mgr txn) (hinf : txn.txnId ≠ infinityTxn)
    (h : RowSteps C tr mgr table txn (rids.map (.update assignments)) c c')
    (hhas : ∀ rid ∈ rids, c.HasRid table.name rid) :
    ∃ news, seen mgr txn.snapshot (c'.tuples table.name) =
        (seen mgr txn.snapshot (c.tuples table.name)).filter (fun x => decide (x.1 ∉ rids)) ++ news ∧
      List.Forall₂ (fun rid (x : RID × Tuple) => ∃ raw, (rid, raw) ∈ c.tuples table.name ∧
        UpdatedFrom C table assignments raw.payload x.2.payload) rids news := by
  induction rids generalizing c with
  | nil =>
    cases h
    exact ⟨[], by simp, .nil⟩
  | cons rid rids ih =>
    rw [List.forall_mem_cons] at hhas
    cases h with
    | @cons _ _ _ c₁ _ step rest =>
      obtain ⟨raw, x, hraw, hfresh, hmade, hseen⟩ := step.seen_update hrun hinf
      obtain ⟨news, hnews, hall⟩ := ih rest fun rid' hrid' => step.hasRid (hhas.2 rid' hrid')
      refine ⟨x :: news, ?_, .cons ⟨raw, hraw, hmade⟩ ?_⟩
      · -- the new version has a RID of its own
        have hx : x.1 ∉ rids := fun hmem => hfresh (hhas.2 _ hmem)
        rw [hnews, hseen, List.filter_append, List.filter_filter]
        simp only [List.filter_cons_of_pos (p := fun y : RID × Tuple => decide (y.1 ∉ rids))
          (decide_eq_true hx), List.filter_nil, List.append_assoc, List.singleton_append]
        refine congrArg (· ++ x :: news) (List.filter_congr fun y _ => ?_)
        simp [Bool.and_comm]
      · -- the statement keeps the payloads of the versions that are still to come
        have hkept : ∀ rid' ∈ rids, ∀ raw', (rid', raw') ∈ c₁.tuples table.name →
            ∃ raw₀, (rid', raw₀) ∈ c.tuples table.name ∧ raw₀.payload = raw'.payload :=
          fun rid' hrid' raw' hraw' => step.payload (hhas.2 rid' hrid') hraw'
        refine ((List.forall₂_and_left _ _).mpr ⟨hkept, hall⟩).imp ?_
        rintro rid' x' ⟨hkept', raw', hraw', hmade'⟩
        obtain ⟨raw₀, hraw₀, heq⟩ := hkept' raw' hraw'
        exact ⟨raw₀, hraw₀, heq ▸ hmade'⟩

/-! ## The id that means "not deleted" -/

/-- Its stamp hides nothing. -/
theorem Stamped.seen_rows (h : Stamped mgr table txn c rid raw new) (hinf : txn.txnId = infinityTxn)
    (hnodup : ((c.tuples table.name).map (·.1)).Nodup)
    (hmem : rid ∈ ((seen mgr txn.snapshot (c.tuples table.name)).map rowAt).map (·.1)) :
    (seen mgr txn.snapshot (HeapFile.overwrite (c.tuples table.name) rid new)).map rowAt =
      (seen mgr txn.snapshot (c.tuples table.name)).map rowAt := by
  rw [List.map_map] at hmem
  obtain ⟨⟨rid', tup⟩, hseen, rfl⟩ := List.mem_map.mp hmem
  obtain ⟨hin, hsees⟩ := List.mem_filter.mp hseen
  obtain ⟨hxmin, hxmax, hpayload⟩ := withXmax_ok h.stamp
  have htup : tup = raw := eq_of_nodup hnodup hin h.mem
  rw [htup] at hsees
  exact seen_overwrite_rows hnodup h.mem hsees (sees_stamped hsees hxmin (hxmax.trans hinf)) hpayload

/-- A DELETE leaves all the rows to be seen ... -/
theorem RowSteps.seen_rows_deletes (hinf : txn.txnId = infinityTxn)
    (h : RowSteps C tr mgr table txn (rids.map .delete) c c')
    (hnodup : ((c.tuples table.name).map (·.1)).Nodup)
    (hmem : ∀ rid ∈ rids, rid ∈ ((seen mgr txn.snapshot (c.tuples table.name)).map rowAt).map (·.1)) :
    (seen mgr txn.snapshot (c'.tuples table.name)).map rowAt =
      (seen mgr txn.snapshot (c.tuples table.name)).map rowAt := by
  induction rids generalizing c with
  | nil =>
    cases h
    rfl
  | cons rid rids ih =>
    rw [List.forall_mem_cons] at hmem
    cases h with
    | cons step rest =>
      have hnodup₁ := (step.evolves hnodup).nodup
      cases step with
      | delete stamp =>
        have hseen := stamp.seen_rows hinf hnodup hmem.1
        rw [← tuples_set] at hseen
        rw [ih rest hnodup₁ (hseen ▸ hmem.2), hseen]

/-- ... and an UPDATE does, and adds one for each row. -/
theorem RowSteps.seen_rows_updates (hrun : Running mgr txn) (hinf : txn.txnId = infinityTxn)
    (h : RowSteps C tr mgr table txn (rids.map (.update assignments)) c c')
    (hnodup : ((c.tuples table.name).map (·.1)).Nodup)
    (hmem : ∀ rid ∈ rids, rid ∈ ((seen mgr txn.snapshot (c.tuples table.name)).map rowAt).map (·.1)) :
    ∃ news, news.length = rids.length ∧ (seen mgr txn.snapshot (c'.tuples table.name)).map rowAt =
      (seen mgr txn.snapshot (c.tuples table.name)).map rowAt ++ news := by
  induction rids generalizing c with
  | nil =>
    cases h
    exact ⟨[], rfl, by simp⟩
  | cons rid rids ih =>
    rw [List.forall_mem_cons] at hmem
    cases h with
    | @cons _ _ _ c₁ _ step rest =>
      have hnodup₁ := (step.evolves hnodup).nodup
      obtain ⟨x, hseen⟩ : ∃ x, (seen mgr txn.snapshot (c₁.tuples table.name)).map rowAt =
          (seen mgr txn.snapshot (c.tuples table.name)).map rowAt ++ [x] := by
        cases step with
        | @update _ _ _ _ _ new raw stamped tup stamp assigned hnew unseen =>
          have hkept := stamp.seen_rows hinf hnodup hmem.1
          have hsees := hrun.sees_new hnew.version.xmin hnew.version.xmax
          refine ⟨rowAt (new, tup), ?_⟩
          rw [Content.tuples_addKeys, tuples_add, tuples_set, seen, List.filter_append, List.map_append]
          refine congrArg₂ _ hkept ?_
          simp [hsees]
      obtain ⟨news, hlen, hnews⟩ := ih rest hnodup₁ fun rid' hrid' => by
        rw [hseen, List.map_append]
        exact List.mem_append_left _ (hmem.2 rid' hrid')
      exact ⟨x :: news, by simp [hlen], by rw [hnews, hseen, List.append_assoc, List.singleton_append]⟩

end

end Database
end Minirel
