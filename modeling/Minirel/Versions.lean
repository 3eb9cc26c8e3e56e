-- SUMMARY: How the stored versions of rows change while statements run.
import Minirel.Runs

/-!
# Versions

A statement adds versions of its own transaction and stamps old ones with its id. Nothing
else ever happens to the versions in a heap, whether the statement returns or raises.
-/

namespace Minirel
namespace Database

variable {α : Type} {C : Conversions} {tr : Tracked} {db db' : Database} {v v' : View}
  {mgr mgr' : TransactionManager LogOp} {table : TableMeta} {txn : Transaction} {c c₁ c' : Content}
  {t : String} {rid : RID}

/-- The versions in the heap of a table. -/
def versions (t : String) : DbM (List (RID × Tuple)) := do
  let table ← getTable t
  let heap ← onPages (HeapFile.openAt table.heapFirstPageId)
  onPages heap.scan

theorem Sound.versions_eq (hs : Sound C tr db v) (ht : db.catalog.tables.get? t = some table) :
    versions t db = .ok (v.tuples t) db := by
  have hheap := hs.layout.heap ht
  have htable : getTable t db = .ok table db := by
    rw [getTable, getTable_eq_ok.mpr ht]
    rfl
  have hopen : onPages (HeapFile.openAt table.heapFirstPageId) db = _ :=
    onPages_eq_ok.mpr ⟨_, hheap.openAt, rfl⟩
  have hscan : onPages (HeapFile.scan _) db = _ := onPages_eq_ok.mpr ⟨_, hheap.scan (v.last t), rfl⟩
  unfold versions
  simp only [bind, EStateM.bind, htable, hopen]
  exact hscan

theorem versions_eq_error (ht : db.catalog.tables.get? t = none) :
    versions t db = .error (.tableNotFoundError t) db := by
  have htable : getTable t db = .error (.tableNotFoundError t) db := by
    simp only [getTable, Catalog.getTable, ht, lift]
  unfold versions
  simp only [bind, EStateM.bind, htable]

/-- A version is stored in the heap of a table. -/
def Stored (db : Database) (t : String) (rid : RID) (tup : Tuple) : Prop :=
  ∃ vs, versions t db = .ok vs db ∧ (rid, tup) ∈ vs

theorem Sound.stored_iff (hs : Sound C tr db v) {tup : Tuple} :
    Stored db t rid tup ↔ (∃ table, db.catalog.tables.get? t = some table) ∧ (rid, tup) ∈ v.tuples t := by
  cases ht : db.catalog.tables.get? t with
  | none =>
    rw [Stored, versions_eq_error ht]
    simp
  | some table =>
    rw [Stored, hs.versions_eq ht]
    simp

/-- Stored versions can be looked up. -/
def contents (t : String) (db : Database) : List (RID × Tuple) :=
  match versions t db with
  | .ok vs _ => vs
  | .error _ _ => []

theorem reads_versions (t : String) : Reads (versions t) :=
  .bind (reads_getTable t) fun _ => .bind (reads_onPages (HeapFile.reads_openAt _)) fun _ =>
    reads_onPages (HeapFile.reads_scan _)

theorem stored_iff_mem_contents {tup : Tuple} : Stored db t rid tup ↔ (rid, tup) ∈ contents t db := by
  have hwp := reads_versions t db
  unfold wp at hwp
  unfold Stored contents
  cases hv : versions t db with
  | ok vs db' =>
    rw [hv] at hwp
    simp [← hwp]
  | error e db' => simp

instance (db : Database) (t : String) (rid : RID) (tup : Tuple) : Decidable (Stored db t rid tup) :=
  decidable_of_iff _ stored_iff_mem_contents.symm

/-! ## What a transaction does to the versions of a table -/

/-- A version before and after: it may have been stamped. -/
structure Successor (mgr : TransactionManager LogOp) (txn : Transaction) (old new : Tuple) : Prop where
  xmin : new.xmin = old.xmin
  payload : new.payload = old.payload
  xmax : new.xmax = old.xmax ∨
    (new.xmax = txn.txnId ∧ mgr.checkWriteConflict txn old.xmax = .ok ())

theorem Successor.refl (mgr : TransactionManager LogOp) (txn : Transaction) (tup : Tuple) :
    Successor mgr txn tup tup := ⟨rfl, rfl, .inl rfl⟩

theorem Successor.trans {tup₁ tup₂ tup₃ : Tuple} (h : Successor mgr txn tup₁ tup₂)
    (h' : Successor mgr txn tup₂ tup₃) : Successor mgr txn tup₁ tup₃ where
  xmin := h'.xmin.trans h.xmin
  payload := h'.payload.trans h.payload
  xmax := by
    obtain heq' | ⟨heq', hok'⟩ := h'.xmax
    · rw [heq']
      exact h.xmax
    · obtain heq | ⟨-, hok⟩ := h.xmax
      · exact .inr ⟨heq', heq ▸ hok'⟩
      · exact .inr ⟨heq', hok⟩

theorem Stamped.successor {raw new : Tuple} (h : Stamped mgr table txn c rid raw new) :
    Successor mgr txn raw new := by
  obtain ⟨hxmin, hxmax, hpayload⟩ := withXmax_ok h.stamp
  exact ⟨hxmin, hpayload, .inr ⟨hxmax, h.conflict⟩⟩

/-- What a transaction may make of the versions of a table `t`. -/
structure Evolves (mgr : TransactionManager LogOp) (txn : Transaction) (t : String)
    (c c' : Content) : Prop where
  nodup : ((c'.tuples t).map (·.1)).Nodup
  kept : ∀ x ∈ c.tuples t, ∃ new, (x.1, new) ∈ c'.tuples t ∧ Successor mgr txn x.2 new
  origin : ∀ x ∈ c'.tuples t, (x.2.xmin = txn.txnId ∧ ¬c.HasRid t x.1 ∧
    (x.2.xmax = infinityTxn ∨ x.2.xmax = txn.txnId)) ∨
    ∃ old, (x.1, old) ∈ c.tuples t ∧ Successor mgr txn old x.2
  other : ∀ t', t' ≠ t → c'.tuples t' = c.tuples t'

theorem Evolves.refl (hnodup : ((c.tuples t).map (·.1)).Nodup) : Evolves mgr txn t c c where
  nodup := hnodup
  kept x hx := ⟨x.2, hx, .refl mgr txn x.2⟩
  origin x hx := .inr ⟨x.2, hx, .refl mgr txn x.2⟩
  other _ _ := rfl

theorem Evolves.trans (h : Evolves mgr txn t c c₁) (h' : Evolves mgr txn t c₁ c') :
    Evolves mgr txn t c c' where
  nodup := h'.nodup
  kept x hx := by
    obtain ⟨new, hnew, hsucc⟩ := h.kept x hx
    obtain ⟨new', hnew', hsucc'⟩ := h'.kept _ hnew
    exact ⟨new', hnew', hsucc.trans hsucc'⟩
  origin x hx := by
    obtain ⟨hxmin, hfresh, hxmax⟩ | ⟨old, hold, hsucc⟩ := h'.origin x hx
    · refine .inl ⟨hxmin, fun ⟨tup, hmem⟩ => ?_, hxmax⟩
      obtain ⟨new, hnew, -⟩ := h.kept _ hmem
      exact hfresh ⟨new, hnew⟩
    · obtain ⟨hxmin, hfresh, hxmax⟩ | ⟨old', hold', hsucc'⟩ := h.origin _ hold
      · refine .inl ⟨hsucc.xmin.trans hxmin, hfresh, ?_⟩
        obtain heq | ⟨heq, -⟩ := hsucc.xmax
        · rw [heq]
          exact hxmax
        · exact .inr heq
      · exact .inr ⟨old', hold', hsucc'.trans hsucc⟩
  other t' ht' := (h'.other t' ht').trans (h.other t' ht')

theorem Evolves.congr {c₂ : Content} (h : Evolves mgr txn t c c') (heq : c₂.tuples = c'.tuples) :
    Evolves mgr txn t c c₂ := by
  obtain ⟨hnodup, hkept, horigin, hother⟩ := h
  rw [← heq] at hnodup hkept horigin hother
  exact ⟨hnodup, hkept, horigin, hother⟩

/-- A new version. -/
theorem evolves_add {values : List Value} {valueMap : Dict Value} {tup : Tuple}
    (hnodup : ((c.tuples table.name).map (·.1)).Nodup)
    (h : NewRow C table txn c values valueMap rid tup) :
    Evolves mgr txn table.name c (c.add table.name (rid, tup)) := by
  have htuples : (c.add table.name (rid, tup)).tuples table.name = c.tuples table.name ++ [(rid, tup)] :=
    Function.update_self _ _ _
  constructor
  case nodup =>
    rw [htuples, List.map_append, List.nodup_append]
    refine ⟨hnodup, by simp, fun r hr r' hr' => ?_⟩
    obtain rfl : r' = rid := by simpa using hr'
    rintro rfl
    obtain ⟨x, hx, rfl⟩ := List.mem_map.mp hr
    exact h.fresh ⟨x.2, hx⟩
  case kept =>
    intro x hx
    exact ⟨x.2, htuples ▸ List.mem_append_left _ hx, .refl mgr txn x.2⟩
  case origin =>
    intro x hx
    rw [htuples] at hx
    obtain hx | hx := List.mem_append.mp hx
    · exact .inr ⟨x.2, hx, .refl mgr txn x.2⟩
    · obtain rfl := List.mem_singleton.mp hx
      exact .inl ⟨h.version.xmin, h.fresh, .inl h.version.xmax⟩
  case other =>
    intro t' ht'
    exact Function.update_of_ne ht' _ _

theorem overwrite_eq (ts : List (RID × Tuple)) (rid : RID) (new : Tuple) :
    HeapFile.overwrite ts rid new = ts.map fun x => (x.1, if x.1 = rid then new else x.2) := by
  refine List.map_congr_left fun x _ => ?_
  split
  · rename_i heq
    rw [heq]
  · rfl

/-- Of two versions under one RID there is only one. -/
theorem eq_of_nodup {ts : List (RID × Tuple)} {tup tup' : Tuple} (h : (ts.map (·.1)).Nodup)
    (hmem : (rid, tup) ∈ ts) (hmem' : (rid, tup') ∈ ts) : tup = tup' :=
  congrArg Prod.snd (List.inj_on_of_nodup_map h hmem hmem' rfl)

/-- A stamp. -/
theorem evolves_set {raw new : Tuple} (hnodup : ((c.tuples table.name).map (·.1)).Nodup)
    (h : Stamped mgr table txn c rid raw new) :
    Evolves mgr txn table.name c (c.set table.name rid new) := by
  have htuples : (c.set table.name rid new).tuples table.name =
      (c.tuples table.name).map fun x => (x.1, if x.1 = rid then new else x.2) := by
    rw [← overwrite_eq]
    exact Function.update_self _ _ _
  have hsucc : ∀ x ∈ c.tuples table.name, Successor mgr txn x.2 (if x.1 = rid then new else x.2) := by
    intro x hx
    split
    · rename_i heq
      have hmem : (rid, x.2) ∈ c.tuples table.name := by
        rw [← heq]
        exact hx
      rw [← eq_of_nodup hnodup h.mem hmem]
      exact h.successor
    · exact .refl mgr txn x.2
  constructor
  case nodup =>
    rw [htuples, List.map_map]
    exact hnodup
  case kept =>
    intro x hx
    exact ⟨_, htuples ▸ List.mem_map_of_mem hx, hsucc x hx⟩
  case origin =>
    intro x hx
    rw [htuples] at hx
    obtain ⟨y, hy, rfl⟩ := List.mem_map.mp hx
    exact .inr ⟨y.2, hy, hsucc y hy⟩
  case other =>
    intro t' ht'
    exact Function.update_of_ne ht' _ _

theorem RowStep.evolves {a : RowAct} (h : RowStep C tr mgr table txn a c c')
    (hnodup : ((c.tuples table.name).map (·.1)).Nodup) : Evolves mgr txn table.name c c' := by
  cases h with
  | insert new unseen => exact (evolves_add hnodup new).congr (Content.tuples_addKeys ..)
  | update stamp assigned new unseen =>
    have hset := evolves_set hnodup stamp
    exact (hset.trans (evolves_add hset.nodup new)).congr (Content.tuples_addKeys ..)
  | delete stamp => exact evolves_set hnodup stamp

theorem RowPart.evolves {taken : Prop} {a : RowAct} (h : RowPart C mgr table txn taken a c c')
    (hnodup : ((c.tuples table.name).map (·.1)).Nodup) : Evolves mgr txn table.name c c' := by
  cases h with
  | insert refused new n => exact (evolves_add hnodup new).congr (Content.tuples_addKeys ..)
  | stamp stamp assigned named refused => exact evolves_set hnodup stamp
  | update refused stamp assigned new n =>
    have hset := evolves_set hnodup stamp
    exact (hset.trans (evolves_add hset.nodup new)).congr (Content.tuples_addKeys ..)

theorem RowSteps.evolves {acts : List RowAct} (h : RowSteps C tr mgr table txn acts c c')
    (hnodup : ((c.tuples table.name).map (·.1)).Nodup) : Evolves mgr txn table.name c c' := by
  induction h with
  | nil => exact .refl hnodup
  | cons step _ ih =>
    have h₁ := step.evolves hnodup
    exact h₁.trans (ih h₁.nodup)

theorem Raised.evolves {taken : Prop} {acts : List RowAct}
    (h : Raised C tr taken acts db v table txn db' v')
    (hnodup : ((v.tuples table.name).map (·.1)).Nodup) :
    Evolves db.mgr txn table.name v.toContent v'.toContent := by
  obtain ⟨done, a, rest, c, -, hsteps, hend⟩ := h.steps
  have hevolves := hsteps.evolves hnodup
  obtain ⟨heq, -⟩ | hpart := hend
  · exact heq ▸ hevolves
  · exact hevolves.trans (hpart.evolves hevolves.nodup)

/-- A statement on rows, whether it returns or raises. -/
theorem RowsEffect.evolves {stmt : Statement} (hs : Sound C tr db v)
    (h : RowsEffect C tr stmt txn db v db') :
    db' = db ∨ ∃ t v', (∃ table, db.catalog.tables.get? t = some table) ∧ Sound C tr db' v' ∧
      Within db db' ∧ Evolves db.mgr txn t v.toContent v'.toContent := by
  have hnodup : ∀ {t table}, db.catalog.tables.get? t = some table →
      ((v.tuples t).map (·.1)).Nodup := fun ht => (hs.layout.heap ht).nodup
  obtain ⟨r, table, acts, v', -, ht, -, hwritten⟩ | ⟨rfl, -⟩ | ⟨table, acts, v', -, ht, hraised⟩ := h
  · exact .inr ⟨table.name, v', ⟨table, ht⟩, hwritten.sound, hwritten.within,
      hwritten.steps.evolves (hnodup ht)⟩
  · exact .inl rfl
  · exact .inr ⟨table.name, v', ⟨table, ht⟩, hraised.sound, hraised.within,
      hraised.evolves (hnodup ht)⟩

/-! ## Stored versions -/

theorem Within.exists_table (h : Within db db') (t : String) :
    (∃ table, db'.catalog.tables.get? t = some table) ↔
      ∃ table, db.catalog.tables.get? t = some table := by
  constructor
  · rintro ⟨table, ht⟩
    obtain ⟨table', ht', -⟩ := Catalog.get?_of_shape h.shape ht
    exact ⟨table', ht'⟩
  · rintro ⟨table, ht⟩
    obtain ⟨table', ht', -⟩ := Catalog.get?_of_shape h.shape.symm ht
    exact ⟨table', ht'⟩

/-- What a transaction has made of all stored versions. -/
structure Reworked (txn : Transaction) (db db' : Database) : Prop where
  kept : ∀ t rid tup, Stored db t rid tup →
    ∃ new, Stored db' t rid new ∧ Successor db.mgr txn tup new
  origin : ∀ t rid tup, Stored db' t rid tup →
    (tup.xmin = txn.txnId ∧ (tup.xmax = infinityTxn ∨ tup.xmax = txn.txnId)) ∨
    ∃ old, Stored db t rid old ∧ Successor db.mgr txn old tup

theorem Reworked.refl (txn : Transaction) (db : Database) : Reworked txn db db where
  kept _ _ tup h := ⟨tup, h, .refl db.mgr txn tup⟩
  origin _ _ tup h := .inr ⟨tup, h, .refl db.mgr txn tup⟩

theorem RowsEffect.reworked {stmt : Statement} (hs : Sound C tr db v)
    (h : RowsEffect C tr stmt txn db v db') : Reworked txn db db' := by
  obtain rfl | ⟨t₀, v', -, hs', hwithin, hevolves⟩ := h.evolves hs
  · exact .refl txn _
  constructor
  case kept =>
    intro t rid tup hstored
    obtain ⟨ht, hmem⟩ := hs.stored_iff.mp hstored
    have ht' := (hwithin.exists_table t).mpr ht
    by_cases heq : t = t₀
    · subst heq
      obtain ⟨new, hnew, hsucc⟩ := hevolves.kept _ hmem
      exact ⟨new, hs'.stored_iff.mpr ⟨ht', hnew⟩, hsucc⟩
    · rw [← hevolves.other t heq] at hmem
      exact ⟨tup, hs'.stored_iff.mpr ⟨ht', hmem⟩, .refl db.mgr txn tup⟩
  case origin =>
    intro t rid tup hstored
    obtain ⟨ht', hmem⟩ := hs'.stored_iff.mp hstored
    have ht := (hwithin.exists_table t).mp ht'
    by_cases heq : t = t₀
    · subst heq
      obtain ⟨hxmin, -, hxmax⟩ | ⟨old, hold, hsucc⟩ := hevolves.origin _ hmem
      · exact .inl ⟨hxmin, hxmax⟩
      · exact .inr ⟨old, hs.stored_iff.mpr ⟨ht, hold⟩, hsucc⟩
    · rw [hevolves.other t heq] at hmem
      exact .inr ⟨tup, hs.stored_iff.mpr ⟨ht, hmem⟩, .refl db.mgr txn tup⟩

end Database
end Minirel
