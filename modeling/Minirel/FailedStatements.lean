-- SUMMARY: When a statement that raises leaves nothing behind for its transaction to see.
import Minirel.ViewChanges

/-!
# Statements that raise

A statement writes row by row, and what it has written stays when it raises. The transaction
goes on, and sees it. Nothing is left if the statement raises before its first write: then it
has no rows to write, or the first of them is refused.
-/

namespace Minirel
namespace Database

variable {C : Conversions} {tr : Tracked} {taken : Prop} {db db' : Database} {v v' : View}
  {table table' : TableMeta} {txn : Transaction} {stmt : Statement} {t : String} {rid : RID}
  {c c₁ c' : Content} {a : RowAct} {acts acts' : List RowAct} {rids : List RID}
  {mgr : TransactionManager LogOp} {values : List Value} {valueMap : Dict Value} {tup : Tuple}

/-- The transaction sees in every table the rows it saw before. -/
def NoEffect (txn : Transaction) (db db' : Database) : Prop :=
  ∀ t rows, rowsSeen t txn db = .ok rows db →
    ∃ rows', rowsSeen t txn db' = .ok rows' db' ∧ rows'.Perm rows

/-! ## The first row -/

section
variable (C : Conversions) (txn : Transaction) (db : Database) (table : TableMeta)

/-- A row is refused before anything is written: its values cannot be stored, another
    transaction has claimed it, or the values of an UPDATE cannot be had. -/
inductive Refuses : RowAct → Prop where
  | insert {values : List Value} (refused : VersionRefused C table values) : Refuses (.insert values)
  | conflict {a : RowAct} {rid : RID} {raw : Tuple}
      (act : (∃ assignments, a = .update assignments rid) ∨ a = .delete rid)
      (stored : Stored db table.name rid raw) {e : PyError}
      (refused : db.mgr.checkWriteConflict txn raw.xmax = .error e) : Refuses a
  | values {assignments : List (String × Expr)} {rid : RID} {raw : Tuple}
      (stored : Stored db table.name rid raw) {e : PyError}
      (refused : (do
        let valueMap ← assign (rowMap table (rowValues raw)) assignments
        table.schema.names.mapM (lookup valueMap)) = .error e) : Refuses (.update assignments rid)

/-- A statement that raises leaves no trace of the row: it is refused, or the id of the
    transaction is the one that means "not deleted", and nothing is added. -/
inductive Traceless : RowAct → Prop where
  | refused {a : RowAct} (h : Refuses C txn db table a) : Traceless a
  | delete {rid : RID} (hinf : txn.txnId = infinityTxn) : Traceless (.delete rid)
  | stamp {assignments : List (String × Expr)} {rid : RID} {raw : Tuple} {valueMap : Dict Value}
      {values : List Value} (hinf : txn.txnId = infinityTxn) (stored : Stored db table.name rid raw)
      (assigned : assign (rowMap table (rowValues raw)) assignments = .ok valueMap)
      (named : table.schema.names.mapM (lookup valueMap) = .ok values)
      (refused : VersionRefused C table values) : Traceless (.update assignments rid)

end

/-- A statement has no rows to write, since its values or its WHERE raise, or there is no trace of
    the first one. -/
def FailsFirst (C : Conversions) (txn : Transaction) (db : Database) (stmt : Statement) : Prop :=
  ∀ table acts, Targets C txn db stmt table acts →
    ∃ a rest, acts = a :: rest ∧ Traceless C txn db table a

/-- What a statement is about is determined. -/
theorem Targets.unique (h : Targets C txn db stmt table acts) (h' : Targets C txn db stmt table' acts') :
    table = table' ∧ acts = acts' := by
  have hinj : ∀ {rows : List Row} {rids rids' : List RID}, rows.map rowRid = rids.map .ok →
      rows.map rowRid = rids'.map .ok → rids = rids' := fun h h' =>
    List.map_injective_iff.mpr (fun _ _ => Except.ok.inj) (h.symm.trans h')
  cases h with
  | insert ht hrows =>
    cases h' with
    | insert ht' hrows' =>
      obtain rfl := Except.ok.inj (ht.symm.trans ht')
      obtain rfl := Except.ok.inj (hrows.symm.trans hrows')
      exact ⟨rfl, rfl⟩
  | update ht hrows hrids =>
    cases h' with
    | update ht' hrows' hrids' =>
      obtain rfl := Except.ok.inj (ht.symm.trans ht')
      cases hrows.symm.trans hrows'
      rw [hinj hrids hrids']
      exact ⟨rfl, rfl⟩
  | delete ht hrows hrids =>
    cases h' with
    | delete ht' hrows' hrids' =>
      obtain rfl := Except.ok.inj (ht.symm.trans ht')
      cases hrows.symm.trans hrows'
      rw [hinj hrids hrids']
      exact ⟨rfl, rfl⟩

/-! ## Versions with the stamp of the transaction -/

/-- A version that the transaction has stamped. -/
def Gone (txn : Transaction) (t : String) (rid : RID) (c : Content) : Prop :=
  c.HasRid t rid ∧ ∀ tup, (rid, tup) ∈ c.tuples t → tup.xmax = txn.txnId

theorem Gone.evolves (h : Gone txn t rid c) (hevolves : Evolves mgr txn t c c') : Gone txn t rid c' := by
  obtain ⟨⟨tup, hmem⟩, hxmax⟩ := h
  obtain ⟨new, hnew, -⟩ := hevolves.kept _ hmem
  refine ⟨⟨new, hnew⟩, fun tup' hmem' => ?_⟩
  obtain ⟨-, hfresh, -⟩ | ⟨old, hold, hsucc⟩ := hevolves.origin _ hmem'
  · exact absurd ⟨tup, hmem⟩ hfresh
  · obtain heq | ⟨heq, -⟩ := hsucc.xmax
    · exact heq.trans (hxmax old hold)
    · exact heq

theorem Gone.not_seen (h : Gone txn t rid c) (hrun : Running mgr txn) (hinf : txn.txnId ≠ infinityTxn) :
    rid ∉ ((seen mgr txn.snapshot (c.tuples t)).map rowAt).map (·.1) := by
  rw [List.map_map]
  intro hmem
  obtain ⟨⟨rid', tup⟩, hseen, rfl⟩ := List.mem_map.mp hmem
  obtain ⟨hin, hsees⟩ := List.mem_filter.mp hseen
  rw [hrun.not_sees (h.2 tup hin) hinf] at hsees
  cases hsees

theorem Stamped.gone {raw new : Tuple} (h : Stamped mgr table txn c rid raw new) :
    Gone txn table.name rid (c.set table.name rid new) := by
  refine ⟨Content.hasRid_set ⟨raw, h.mem⟩, fun tup hmem => ?_⟩
  rw [tuples_set, overwrite_eq] at hmem
  obtain ⟨x, -, heq⟩ := List.mem_map.mp hmem
  split at heq
  · cases heq
    exact (withXmax_ok h.stamp).2.1
  · cases heq
    contradiction

theorem Gone.add (h : Gone txn t rid c) {x : RID × Tuple} (hfresh : ¬c.HasRid t x.1) :
    Gone txn t rid (c.add t x) := by
  refine ⟨Content.hasRid_add _ h.1, fun tup hmem => ?_⟩
  rw [tuples_add, List.mem_append, List.mem_singleton] at hmem
  obtain hmem | rfl := hmem
  · exact h.2 tup hmem
  · exact absurd h.1 hfresh

theorem Gone.congr (h : Gone txn t rid c) (heq : c'.tuples = c.tuples) : Gone txn t rid c' := by
  rw [Gone, Content.HasRid, heq]
  exact h

/-! ## Rows that are written -/

/-- A row that is written as a whole is written in part, or is deleted. -/
theorem RowStep.cases (h : RowStep C tr mgr table txn a c c') :
    RowPart C mgr table txn False a c c' ∨
      ∃ rid raw new, a = .delete rid ∧ Stamped mgr table txn c rid raw new ∧
        c' = c.set table.name rid new := by
  cases h with
  | insert new unseen =>
    have hpart : RowPart C mgr table txn False _ c _ := .insert id new table.indexes.length
    rw [List.take_length] at hpart
    exact .inl hpart
  | update stamp assigned new unseen =>
    have hpart : RowPart C mgr table txn False _ c _ :=
      .update id stamp assigned new table.indexes.length
    rw [List.take_length] at hpart
    exact .inl hpart
  | delete stamp => exact .inr ⟨_, _, _, rfl, stamp, rfl⟩

/-- The version that an UPDATE or a DELETE is about bears the stamp afterwards. -/
theorem RowPart.gone (h : RowPart C mgr table txn taken a c c')
    (ha : (∃ assignments, a = .update assignments rid) ∨ a = .delete rid) :
    Gone txn table.name rid c' := by
  cases h with
  | insert refused new n => simp at ha
  | stamp stamp assigned named refused =>
    obtain ⟨_, heq⟩ | heq := ha
    · cases heq
      exact stamp.gone
    · cases heq
  | update refused stamp assigned new n =>
    obtain ⟨_, heq⟩ | heq := ha
    · cases heq
      exact (stamp.gone.add new.fresh).congr (Content.tuples_addKeys ..)
    · cases heq

theorem RowStep.gone (h : RowStep C tr mgr table txn a c c')
    (ha : (∃ assignments, a = .update assignments rid) ∨ a = .delete rid) :
    Gone txn table.name rid c' := by
  obtain hpart | ⟨rid', raw, new, rfl, stamp, rfl⟩ := h.cases
  · exact hpart.gone ha
  · obtain ⟨_, heq⟩ | heq := ha
    · cases heq
    · cases heq
      exact stamp.gone

/-- A version that has been stored fits its page. -/
theorem Sound.not_versionRefused (hs : Sound C tr db v)
    (ht : db.catalog.tables.get? table.name = some table')
    (hevolves : Evolves mgr txn table.name c v.toContent) (hmem : (rid, tup) ∈ c.tuples table.name)
    (hencode : encodeRow C values table.schema = .ok tup.payload) : ¬VersionRefused C table values := by
  intro hrefused
  obtain ⟨new, hnew, hsucc⟩ := hevolves.kept _ hmem
  have hlt := hrefused new (by rw [hsucc.payload, hencode])
  exact absurd (hs.layout.conforms ht _ hnew).size_le (not_le.mpr hlt)

theorem mem_addRow (c : Content) (t : String) (x : RID × Tuple) (valueMap : Dict Value) (rid : RID)
    (indexes : List (String × IndexMeta)) :
    x ∈ ((c.add t x).addKeys C t valueMap rid indexes).tuples t := by
  rw [Content.tuples_addKeys, tuples_add]
  exact List.mem_append_right _ List.mem_cons_self

/-- A version that was stored at the beginning of the statement has not been claimed. -/
theorem Stamped.not_conflict {raw raw' new : Tuple} (h : Stamped mgr table txn c rid raw new)
    (hnodup : ((c.tuples table.name).map (·.1)).Nodup) (hmem : (rid, raw') ∈ c.tuples table.name)
    {e : PyError} : mgr.checkWriteConflict txn raw'.xmax ≠ .error e := by
  rw [eq_of_nodup hnodup hmem h.mem, h.conflict]
  exact nofun

/-- A row that is refused is not written in part. -/
theorem RowPart.not_refuses (h : RowPart C db.mgr table txn taken a v.toContent c)
    (hs : Sound C tr db v) (hself : db.catalog.tables.get? table.name = some table)
    (hs' : Sound C tr db' v') (ht : db'.catalog.tables.get? table.name = some table')
    (hevolves : Evolves db.mgr txn table.name c v'.toContent) : ¬Refuses C txn db table a := by
  have hnodup := (hs.layout.heap hself).nodup
  intro hrefuses
  cases h with
  | insert _ new n =>
    cases hrefuses with
    | insert refused =>
      exact hs'.not_versionRefused ht hevolves (mem_addRow _ _ _ _ _ _) new.version.encoded refused
    | conflict act stored refused => simp at act
  | stamp stamp assigned named _ =>
    cases hrefuses with
    | conflict act stored refused =>
      obtain ⟨_, heq⟩ | heq := act
      · cases heq
        exact stamp.not_conflict hnodup (hs.stored_iff.mp stored).2 refused
      · cases heq
    | values stored refused =>
      rw [eq_of_nodup hnodup (hs.stored_iff.mp stored).2 stamp.mem, assigned] at refused
      exact absurd (named.symm.trans refused) nofun
  | update _ stamp assigned new n =>
    cases hrefuses with
    | conflict act stored refused =>
      obtain ⟨_, heq⟩ | heq := act
      · cases heq
        exact stamp.not_conflict hnodup (hs.stored_iff.mp stored).2 refused
      · cases heq
    | values stored refused =>
      rw [eq_of_nodup hnodup (hs.stored_iff.mp stored).2 stamp.mem, assigned] at refused
      exact absurd (new.named.symm.trans refused) nofun

theorem RowStep.not_refuses (h : RowStep C tr db.mgr table txn a v.toContent c)
    (hs : Sound C tr db v) (hself : db.catalog.tables.get? table.name = some table)
    (hs' : Sound C tr db' v') (ht : db'.catalog.tables.get? table.name = some table')
    (hevolves : Evolves db.mgr txn table.name c v'.toContent) : ¬Refuses C txn db table a := by
  obtain hpart | ⟨rid, raw, new, rfl, stamp, rfl⟩ := h.cases
  · exact hpart.not_refuses hs hself hs' ht hevolves
  · intro hrefuses
    cases hrefuses with
    | conflict act stored refused =>
      obtain ⟨_, heq⟩ | heq := act
      · cases heq
      · cases heq
        exact stamp.not_conflict (hs.layout.heap hself).nodup (hs.stored_iff.mp stored).2 refused

/-- What is refused before anything is written is so by the state before. -/
theorem RowRefused.refuses (h : RowRefused C db.mgr table txn a v.toContent) (hs : Sound C tr db v)
    (hself : db.catalog.tables.get? table.name = some table) : Refuses C txn db table a := by
  cases h with
  | insert refused => exact .insert refused
  | conflict act mem refused => exact .conflict act (hs.stored_iff.mpr ⟨⟨table, hself⟩, mem⟩) refused
  | @assign _ _ _ _ mem e refused =>
    refine @Refuses.values C txn db table _ _ _ (hs.stored_iff.mpr ⟨⟨table, hself⟩, mem⟩) e ?_
    rw [refused]
    rfl
  | @lookup _ _ _ _ _ mem assigned e refused =>
    refine @Refuses.values C txn db table _ _ _ (hs.stored_iff.mpr ⟨⟨table, hself⟩, mem⟩) e ?_
    rw [assigned]
    exact refused

/-! ## Statements -/

section
variable {rest : List RowAct} {rows : List (List Value)} {assignments : List (String × Expr)}

/-- A statement changes what its transaction sees in its own table only. -/
theorem Raised.same_iff (h : Raised C tr taken acts db v table txn db' v') (hs : Sound C tr db v)
    (hself : db.catalog.tables.get? table.name = some table) :
    NoEffect txn db db' ↔ ((seen db.mgr txn.snapshot (v'.tuples table.name)).map rowAt).Perm
      ((seen db.mgr txn.snapshot (v.tuples table.name)).map rowAt) := by
  obtain ⟨table', ht', -⟩ := Catalog.get?_of_shape h.within.shape.symm hself
  have hbefore : rowsSeen table.name txn db = _ := hs.rowsSeen_eq hself
  have hafter : rowsSeen table.name txn db' = _ := h.sound.rowsSeen_eq ht'
  rw [h.within.seen] at hafter
  constructor
  · intro hsame
    obtain ⟨rows', hrows', hperm⟩ := hsame table.name _ hbefore
    cases hrows'.symm.trans hafter
    exact hperm
  · intro hperm t rows hrows
    by_cases ht : t = table.name
    · subst ht
      cases hrows.symm.trans hbefore
      exact ⟨_, hafter, hperm⟩
    · have hother := (h.evolves (hs.layout.heap hself).nodup).other t ht
      exact ⟨rows, hs.rowsSeen_same h.sound h.within hother hrows, .refl _⟩

theorem Raised.nonempty (h : Raised C tr taken acts db v table txn db' v') : acts ≠ [] := by
  obtain ⟨done, a, rest, c, rfl, -, -⟩ := h.steps
  simp

/-- A statement raises at its first row, or the row is written. -/
theorem Raised.first (h : Raised C tr taken (a :: rest) db v table txn db' v') (hs : Sound C tr db v)
    (hself : db.catalog.tables.get? table.name = some table) :
    (v'.toContent = v.toContent ∧ RowRefused C db.mgr table txn a v.toContent) ∨
      ∃ c, (RowStep C tr db.mgr table txn a v.toContent c ∨
        RowPart C db.mgr table txn taken a v.toContent c) ∧
        Evolves db.mgr txn table.name c v'.toContent := by
  have hnodup := (hs.layout.heap hself).nodup
  obtain ⟨done, a', rest', c, hacts, hsteps, hend⟩ := h.steps
  cases done with
  | nil =>
    obtain ⟨rfl, rfl⟩ := List.cons.inj hacts
    obtain rfl := hsteps.of_nil
    obtain ⟨heq, hrefused⟩ | hpart := hend
    · exact .inl ⟨heq, hrefused⟩
    · exact .inr ⟨_, .inr hpart, .refl (hpart.evolves hnodup).nodup⟩
  | cons d done =>
    obtain ⟨rfl, -⟩ := List.cons.inj hacts
    cases hsteps with
    | @cons _ _ _ c₁ _ step hdone =>
      have hevolves := hdone.evolves (step.evolves hnodup).nodup
      refine .inr ⟨c₁, .inl step, ?_⟩
      obtain ⟨heq, -⟩ | hpart := hend
      · exact heq ▸ hevolves
      · exact hevolves.trans (hpart.evolves hevolves.nodup)

/-- Nothing is written if the first row is refused. -/
theorem Raised.unchanged (h : Raised C tr taken (a :: rest) db v table txn db' v') (hs : Sound C tr db v)
    (hself : db.catalog.tables.get? table.name = some table) (hrefuses : Refuses C txn db table a) :
    v'.toContent = v.toContent := by
  obtain ⟨table', ht', -⟩ := Catalog.get?_of_shape h.within.shape.symm hself
  obtain ⟨heq, -⟩ | ⟨c, hstep | hpart, hevolves⟩ := h.first hs hself
  · exact heq
  · exact absurd hrefuses (hstep.not_refuses hs hself h.sound ht' hevolves)
  · exact absurd hrefuses (hpart.not_refuses hs hself h.sound ht' hevolves)

/-- A row that is seen and about to be stamped is refused, if the statement changes nothing. -/
theorem Raised.refuses (h : Raised C tr taken (a :: rest) db v table txn db' v') (hs : Sound C tr db v)
    (hself : db.catalog.tables.get? table.name = some table) (hrun : Running db.mgr txn)
    (hinf : txn.txnId ≠ infinityTxn) (ha : (∃ assignments, a = .update assignments rid) ∨ a = .delete rid)
    (hmem : rid ∈ ((seen db.mgr txn.snapshot (v.tuples table.name)).map rowAt).map (·.1))
    (hsame : ((seen db.mgr txn.snapshot (v'.tuples table.name)).map rowAt).Perm
      ((seen db.mgr txn.snapshot (v.tuples table.name)).map rowAt)) : Refuses C txn db table a := by
  have hmem' : rid ∈ ((seen db.mgr txn.snapshot (v'.tuples table.name)).map rowAt).map (·.1) :=
    (hsame.map _).mem_iff.mpr hmem
  obtain ⟨-, hrefused⟩ | ⟨c, hwritten, hevolves⟩ := h.first hs hself
  · exact hrefused.refuses hs hself
  · have hgone : Gone txn table.name rid c := by
      obtain hstep | hpart := hwritten
      · exact hstep.gone ha
      · exact hpart.gone ha
    exact absurd hmem' ((hgone.evolves hevolves).not_seen hrun hinf)

/-- An INSERT adds a row to what is seen for each row that it has written, as a whole or in part. -/
theorem Raised.insert_refuses (h : Raised C tr taken (rows.map .insert) db v table txn db' v')
    (hs : Sound C tr db v) (hself : db.catalog.tables.get? table.name = some table)
    (hrun : Running db.mgr txn)
    (hsame : ((seen db.mgr txn.snapshot (v'.tuples table.name)).map rowAt).Perm
      ((seen db.mgr txn.snapshot (v.tuples table.name)).map rowAt)) :
    ∃ a rest, rows.map .insert = a :: rest ∧ Refuses C txn db table a := by
  obtain ⟨done, a, rest, c, hacts, hsteps, hend⟩ := h.steps
  obtain ⟨rows₁, rows₂, -, rfl, hrest⟩ := List.map_eq_append_iff.mp hacts
  obtain ⟨news, htuples, hids, hnews⟩ := hsteps.inserted
  have hseen : seen db.mgr txn.snapshot (c.tuples table.name) =
      seen db.mgr txn.snapshot (v.tuples table.name) ++ news := by
    rw [htuples, seen, List.filter_append]
    refine congrArg₂ _ rfl (List.filter_eq_self.mpr fun x hx => ?_)
    exact hrun.sees_new (hids x hx).1 (hids x hx).2
  have hlen := hsame.length_eq
  rw [List.length_map, List.length_map] at hlen
  obtain ⟨heq, hrefused⟩ | hpart := hend
  · rw [heq, hseen, List.length_append] at hlen
    have hnone : rows₁ = [] :=
      List.eq_nil_of_length_eq_zero (hnews.length_eq.trans (by omega))
    subst hnone
    obtain rfl := hsteps.of_nil
    exact ⟨a, rest, hacts, hrefused.refuses hs hself⟩
  · -- a version more is seen
    obtain ⟨values, -, rfl⟩ : ∃ values ∈ rows₂, RowAct.insert values = a := by
      have ha : a ∈ rows₂.map RowAct.insert := by
        rw [hrest]
        exact List.mem_cons_self
      exact List.mem_map.mp ha
    generalize v'.toContent = c' at hpart hlen
    cases hpart with
    | insert refused new n =>
      have hsees := hrun.sees_new new.version.xmin new.version.xmax
      rw [Content.tuples_addKeys, tuples_add, seen, List.filter_append, ← seen, hseen] at hlen
      simp [hsees] at hlen

/-- With the id that means "not deleted", a DELETE changes nothing that is seen. -/
theorem Raised.delete_same (h : Raised C tr taken (rids.map .delete) db v table txn db' v')
    (hs : Sound C tr db v) (hself : db.catalog.tables.get? table.name = some table)
    (hinf : txn.txnId = infinityTxn)
    (hmem : ∀ rid ∈ rids,
      rid ∈ ((seen db.mgr txn.snapshot (v.tuples table.name)).map rowAt).map (·.1)) :
    (seen db.mgr txn.snapshot (v'.tuples table.name)).map rowAt =
      (seen db.mgr txn.snapshot (v.tuples table.name)).map rowAt := by
  obtain ⟨done, a, rest, c, hacts, hsteps, hend⟩ := h.steps
  obtain ⟨rids₁, rids₂, rfl, rfl, hrest⟩ := List.map_eq_append_iff.mp hacts
  have hsame := hsteps.seen_rows_deletes hinf (hs.layout.heap hself).nodup fun rid hrid =>
    hmem rid (List.mem_append_left _ hrid)
  obtain ⟨rid, -, rfl⟩ : ∃ rid ∈ rids₂, RowAct.delete rid = a := by
    have ha : a ∈ rids₂.map RowAct.delete := by
      rw [hrest]
      exact List.mem_cons_self
    exact List.mem_map.mp ha
  obtain ⟨heq, -⟩ | hpart := hend
  · rw [heq, hsame]
  · cases hpart

/-- With that id, an UPDATE adds a row to what is seen for each row that it has written, and
    changes nothing where it has only stamped the old version. -/
theorem Raised.update_same (h : Raised C tr taken (rids.map (.update assignments)) db v table txn db' v')
    (hs : Sound C tr db v) (hself : db.catalog.tables.get? table.name = some table)
    (hrun : Running db.mgr txn) (hinf : txn.txnId = infinityTxn)
    (hmem : ∀ rid ∈ rids,
      rid ∈ ((seen db.mgr txn.snapshot (v.tuples table.name)).map rowAt).map (·.1))
    (hsame : ((seen db.mgr txn.snapshot (v'.tuples table.name)).map rowAt).Perm
      ((seen db.mgr txn.snapshot (v.tuples table.name)).map rowAt)) :
    ∃ a rest, rids.map (.update assignments) = a :: rest ∧ Traceless C txn db table a := by
  have hnodup := (hs.layout.heap hself).nodup
  obtain ⟨done, a, rest, c, hacts, hsteps, hend⟩ := h.steps
  obtain ⟨rids₁, rids₂, rfl, rfl, hrest⟩ := List.map_eq_append_iff.mp hacts
  obtain ⟨news, hlen, hnews⟩ := hsteps.seen_rows_updates hrun hinf hnodup fun rid hrid =>
    hmem rid (List.mem_append_left _ hrid)
  -- if nothing is added, this is the first row
  have hfirst : news = [] → v.toContent = c ∧ rids₁ = [] := by
    rintro rfl
    obtain rfl := List.eq_nil_of_length_eq_zero hlen.symm
    exact ⟨hsteps.of_nil.symm, rfl⟩
  obtain ⟨rid, hrid, rfl⟩ : ∃ rid ∈ rids₂, RowAct.update assignments rid = a := by
    have ha : a ∈ rids₂.map (RowAct.update assignments) := by
      rw [hrest]
      exact List.mem_cons_self
    exact List.mem_map.mp ha
  have hin : rid ∈ ((seen db.mgr txn.snapshot (c.tuples table.name)).map rowAt).map (·.1) := by
    rw [hnews, List.map_append]
    exact List.mem_append_left _ (hmem rid (List.mem_append_right _ hrid))
  have hnodup' := (hsteps.evolves hnodup).nodup
  have hcount := hsame.length_eq
  simp only [List.length_map] at hcount hlen
  have hrows := congrArg List.length hnews
  simp only [List.length_append, List.length_map] at hrows
  have hstored : ∀ {raw : Tuple}, v.toContent = c → (rid, raw) ∈ c.tuples table.name →
      Stored db table.name rid raw := fun heq hraw =>
    hs.stored_iff.mpr ⟨⟨table, hself⟩, heq ▸ hraw⟩
  suffices hnone : news = [] ∧ (v.toContent = c →
      Traceless C txn db table (.update assignments rid)) by
    obtain ⟨hsteps', hnil⟩ := hfirst hnone.1
    rw [hnil] at hacts ⊢
    exact ⟨_, rest, hacts, hnone.2 hsteps'⟩
  obtain ⟨heq, hrefused⟩ | hpart := hend
  · rw [heq] at hcount
    refine ⟨List.eq_nil_of_length_eq_zero (by omega), fun hsame' => .refused ?_⟩
    rw [← hsame'] at hrefused
    exact hrefused.refuses hs hself
  · generalize v'.toContent = c' at hpart hcount
    cases hpart with
    | stamp stamp assigned named refused =>
      have hkept := congrArg List.length (stamp.seen_rows hinf hnodup' hin)
      rw [List.length_map, List.length_map, ← tuples_set] at hkept
      refine ⟨List.eq_nil_of_length_eq_zero (by omega), fun hsame' => ?_⟩
      exact .stamp hinf (hstored hsame' stamp.mem) assigned named refused
    | update _ stamp assigned new n =>
      -- a version more is seen
      have hkept := congrArg List.length (stamp.seen_rows hinf hnodup' hin)
      have hsees := hrun.sees_new new.version.xmin new.version.xmax
      rw [Content.tuples_addKeys, tuples_add, tuples_set, seen, List.filter_append] at hcount
      simp only [seen, List.length_map, List.length_append, List.filter_cons, hsees, if_true,
        List.filter_nil, List.length_cons, List.length_nil] at hcount hkept hrows
      omega

/-- With that id, nothing is changed where only the first old version is stamped. -/
theorem Raised.stamp_same (h : Raised C tr taken (.update assignments rid :: rest) db v table txn db' v')
    (hs : Sound C tr db v) (hself : db.catalog.tables.get? table.name = some table)
    (hinf : txn.txnId = infinityTxn)
    (hmem : rid ∈ ((seen db.mgr txn.snapshot (v.tuples table.name)).map rowAt).map (·.1)) {raw : Tuple}
    (hraw : (rid, raw) ∈ v.tuples table.name)
    (hassign : assign (rowMap table (rowValues raw)) assignments = .ok valueMap)
    (hnamed : table.schema.names.mapM (lookup valueMap) = .ok values)
    (hrefused : VersionRefused C table values) :
    (seen db.mgr txn.snapshot (v'.tuples table.name)).map rowAt =
      (seen db.mgr txn.snapshot (v.tuples table.name)).map rowAt := by
  have hnodup := (hs.layout.heap hself).nodup
  obtain ⟨table', ht', -⟩ := Catalog.get?_of_shape h.within.shape.symm hself
  -- a new version would not fit its page
  have hfits : ∀ {c₁ c₂ : Content} {new' : RID} {raw' stamped tup' : Tuple} {values' : List Value}
      {valueMap' : Dict Value}, Stamped db.mgr table txn v.toContent rid raw' stamped →
      assign (rowMap table (rowValues raw')) assignments = .ok valueMap' →
      NewRow C table txn c₁ values' valueMap' new' tup' → (new', tup') ∈ c₂.tuples table.name →
      ¬Evolves db.mgr txn table.name c₂ v'.toContent := by
    intro c₁ c₂ new' raw' stamped tup' values' valueMap' stamp assigned new hmem' hevolves
    rw [eq_of_nodup hnodup stamp.mem hraw] at assigned
    obtain rfl := Except.ok.inj (hassign.symm.trans assigned)
    obtain rfl := Except.ok.inj (hnamed.symm.trans new.named)
    exact h.sound.not_versionRefused ht' hevolves hmem' new.version.encoded hrefused
  obtain ⟨done, a, rest', c, hacts, hsteps, hend⟩ := h.steps
  cases done with
  | nil =>
    obtain ⟨rfl, rfl⟩ := List.cons.inj hacts
    obtain rfl := hsteps.of_nil
    obtain ⟨heq, -⟩ | hpart := hend
    · rw [heq]
    · generalize hc : v'.toContent = c' at hpart
      cases hpart with
      | stamp stamp assigned named refused =>
        rw [tuples_set]
        exact stamp.seen_rows hinf hnodup hmem
      | @update _ _ _ _ _ new' _ _ tup' _ stamp assigned new n =>
        have hevolves := (RowPart.update (fun h : False => h) stamp assigned new n).evolves hnodup
        rw [← hc] at hevolves
        have hmem' : (new', tup') ∈ v'.toContent.tuples table.name := by
          rw [hc]
          exact mem_addRow ..
        exact (hfits stamp assigned new hmem' (.refl hevolves.nodup)).elim
  | cons d done =>
    obtain ⟨rfl, -⟩ := List.cons.inj hacts
    cases hsteps with
    | cons step hdone =>
      have hevolves := hdone.evolves (step.evolves hnodup).nodup
      have hlater : Evolves db.mgr txn table.name c v'.toContent := by
        obtain ⟨heq, -⟩ | hpart := hend
        · rw [heq]
          exact .refl hevolves.nodup
        · exact hpart.evolves hevolves.nodup
      cases step with
      | update stamp assigned new unseen =>
        exact (hfits stamp assigned new (mem_addRow ..) (hevolves.trans hlater)).elim

/-- A statement of a running transaction that has raised. -/
theorem Failed.noTrace_iff (h : Failed C tr taken stmt txn db v db') (hs : Sound C tr db v)
    (hrun : Running db.mgr txn) : NoEffect txn db db' ↔ FailsFirst C txn db stmt := by
  obtain ⟨rfl, hnot⟩ | ⟨table, acts, v', htargets, hself, hraised⟩ := h
  · exact ⟨fun _ table acts htargets => absurd htargets (hnot table acts),
      fun _ t rows hrows => ⟨rows, hrows, .refl _⟩⟩
  · have hfirst : FailsFirst C txn db stmt ↔ ∃ a rest, acts = a :: rest ∧ Traceless C txn db table a := by
      refine ⟨fun hfails => hfails table acts htargets, fun hfails table' acts' htargets' => ?_⟩
      obtain ⟨rfl, rfl⟩ := htargets.unique htargets'
      exact hfails
    have hmem : ∀ {where_ : Option Expr} {rows : List Row} {rids : List RID},
        matching C table where_ txn db = .ok rows db → rows.map rowRid = rids.map .ok →
        ∀ rid ∈ rids, rid ∈ ((seen db.mgr txn.snapshot (v.tuples table.name)).map rowAt).map (·.1) :=
      fun hrows hrids => hs.matched_seen hself hrows hrids
    -- a first row that is refused
    have hrefused : ∀ {a rest}, acts = a :: rest → Refuses C txn db table a →
        ((seen db.mgr txn.snapshot (v'.tuples table.name)).map rowAt).Perm
          ((seen db.mgr txn.snapshot (v.tuples table.name)).map rowAt) := by
      rintro a rest rfl hrefuses
      rw [hraised.unchanged hs hself hrefuses]
    rw [hraised.same_iff hs hself, hfirst]
    constructor
    · intro hsame
      cases htargets with
      | insert ht hrows =>
        obtain ⟨a, rest, hacts, hrefuses⟩ := hraised.insert_refuses hs hself hrun hsame
        exact ⟨a, rest, hacts, .refused hrefuses⟩
      | @update _ assignments _ _ rows rids ht hrows hrids =>
        by_cases hinf : txn.txnId = infinityTxn
        · exact hraised.update_same hs hself hrun hinf (hmem hrows hrids) hsame
        · cases rids with
          | nil => exact absurd hraised.nonempty nofun
          | cons rid rids =>
            refine ⟨_, _, rfl, .refused ?_⟩
            exact Raised.refuses hraised hs hself hrun hinf (.inl ⟨_, rfl⟩)
              (hmem hrows hrids rid List.mem_cons_self) hsame
      | @delete _ _ _ rows rids ht hrows hrids =>
        cases rids with
        | nil => exact absurd hraised.nonempty nofun
        | cons rid rids =>
          refine ⟨_, _, rfl, ?_⟩
          by_cases hinf : txn.txnId = infinityTxn
          · exact .delete hinf
          · exact .refused (Raised.refuses hraised hs hself hrun hinf (.inr rfl)
              (hmem hrows hrids rid List.mem_cons_self) hsame)
    · rintro ⟨a, rest, hacts, htraceless⟩
      cases htraceless with
      | refused hrefuses => exact hrefused hacts hrefuses
      | @delete rid hinf =>
        cases htargets with
        | insert ht hrows =>
          have ha := hacts ▸ List.mem_cons_self (a := RowAct.delete rid) (l := rest)
          simp at ha
        | update ht hrows hrids =>
          have ha := hacts ▸ List.mem_cons_self (a := RowAct.delete rid) (l := rest)
          simp at ha
        | delete ht hrows hrids => exact .of_eq (hraised.delete_same hs hself hinf (hmem hrows hrids))
      | @stamp _ rid _ _ _ hinf stored assigned named refused =>
        cases htargets with
        | insert ht hrows =>
          have ha := hacts ▸ List.mem_cons_self (l := rest)
          simp at ha
        | @update _ assignments' _ _ rows rids ht hrows hrids =>
          cases rids with
          | nil => cases hacts
          | cons rid' rids =>
            obtain ⟨heq, rfl⟩ := List.cons.inj hacts
            cases heq
            exact .of_eq (Raised.stamp_same hraised hs hself hinf
              (hmem hrows hrids rid List.mem_cons_self) (hs.stored_iff.mp stored).2 assigned named refused)
        | delete ht hrows hrids =>
          have ha := hacts ▸ List.mem_cons_self (l := rest)
          simp at ha

/-- A statement that raises in an active transaction changes nothing that the transaction sees if
    and only if it raises before its first write. -/
theorem noEffect_iff (h : Reachable C db) {n : Nat} (ht : db.session.txns n = some txn)
    (hactive : txn.state = .active) (hrows : stmt.OnRows) {e : PyError}
    (hrun : execute C stmt (some txn) db = .error e db') (hroom : Room db') :
    NoEffect txn db db' ↔ FailsFirst C txn db stmt := by
  have hroom₀ : Room db := by
    rw [← after_error hrun] at hroom
    exact (Step.executeIn (C := C) stmt ht).room hroom
  obtain ⟨hi, v, hs⟩ := h.good hroom₀
  obtain ⟨hid, -, -, hlt⟩ := hi.handle ht
  have hrunning := running_of_active hi ht hactive
  have htaken : False → StmtAdmitted C never txn db stmt := False.elim
  have hwp := wp_dispatch hrows hs (hid ▸ hlt) (stmtFaithful_never C stmt txn db) htaken
  rw [execute_some] at hrun
  exact (hwp.error hrun hroom).noTrace_iff hs hrunning

end

/-- INSERT INTO t VALUES (NULL) -/
def insertNull : Statement := .insert "t" none [[.literal .none]]

/-- NULL is refused by an INT column before anything is written. -/
theorem noEffect_null : ∃ e db', execute .integral insertNull (some oneTable.session.newTxn)
      (after begin oneTable) = .error e db' ∧
    NoEffect oneTable.session.newTxn (after begin oneTable) db' := by
  have hbegun : Reachable .integral (after begin oneTable) := .call reachable_oneTable .begin
  have hfound : (after begin oneTable).session.txns 1 = some oneTable.session.newTxn := by decide +kernel
  have htable : (match (after begin oneTable).catalog.getTable "t" with
      | .ok table => decide (table.schema = ⟨[⟨"a", .int⟩]⟩)
      | .error _ => true) = true := by
    decide +kernel
  have hraises : (match execute .integral insertNull (some oneTable.session.newTxn)
        (after begin oneTable) with
      | .ok _ _ => false
      | .error _ db' => decide (db'.pages.length < invalidPageId)) = true := by
    decide +kernel
  split at hraises
  · cases hraises
  · rename_i e db' hrun
    have hroom : db'.pages.length < invalidPageId := of_decide_eq_true hraises
    have hrows : insertNull.OnRows := trivial
    refine ⟨e, db', hrun, (noEffect_iff hbegun hfound rfl hrows hrun hroom).mpr ?_⟩
    intro table acts htargets
    cases htargets with
    | insert ht hresolved =>
      rw [ht] at htable
      have hschema : table.schema = ⟨[⟨"a", .int⟩]⟩ := of_decide_eq_true htable
      rw [hschema] at hresolved
      cases hresolved
      refine ⟨_, [], rfl, .refused (.insert fun tup hencode => ?_)⟩
      rw [hschema] at hencode
      cases hencode

theorem reads_rowsSeen (t : String) (txn : Transaction) : Reads (rowsSeen t txn) :=
  .bind (reads_getTable t) fun _ => .bind (reads_versions t) fun _ => .bind .get fun _ => reads_lift _

/-- INSERT INTO t VALUES (7), (NULL) raises, and leaves the first row. -/
theorem leaves_first_row : ∃ e db', Reachable .integral (after begin oneTable) ∧
    (after begin oneTable).session.txns 1 = some oneTable.session.newTxn ∧
    execute .integral (.insert "t" none [[.literal (.int 7)], [.literal .none]])
      (some oneTable.session.newTxn) (after begin oneTable) = .error e db' ∧
    ¬NoEffect oneTable.session.newTxn (after begin oneTable) db' := by
  have hfound : (after begin oneTable).session.txns 1 = some oneTable.session.newTxn := by decide +kernel
  have hbefore : (match rowsSeen "t" oneTable.session.newTxn (after begin oneTable) with
      | .ok rows _ => decide (rows = [])
      | .error _ _ => false) = true := by
    decide +kernel
  have hafter : (match execute .integral (.insert "t" none [[.literal (.int 7)], [.literal .none]])
        (some oneTable.session.newTxn) (after begin oneTable) with
      | .ok _ _ => false
      | .error _ db' =>
        (match rowsSeen "t" oneTable.session.newTxn db' with
          | .ok rows _ => decide (rows = [(⟨0, 0⟩, [.int 7])])
          | .error _ _ => false)) = true := by
    decide +kernel
  split at hafter
  · cases hafter
  · rename_i e db' hrun
    refine ⟨e, db', .call reachable_oneTable .begin, hfound, hrun, fun hsame => ?_⟩
    split at hbefore
    · rename_i rows db₁ hrows
      obtain rfl := (reads_rowsSeen _ _).ok hrows
      obtain rfl : rows = [] := of_decide_eq_true hbefore
      obtain ⟨rows', hrows', hperm⟩ := hsame "t" [] hrows
      rw [hrows', hperm.eq_nil] at hafter
      cases hafter
    · cases hbefore

end Database
end Minirel
