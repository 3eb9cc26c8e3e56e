-- SUMMARY: The runs in which every INT index agrees with the heap of its table.
import Minirel.IndexAgreement

/-!
# Runs that keep the indexes in agreement

Three calls can break the agreement. A statement that raises in a transaction that goes on
leaves a version that some index has not taken. A literal that `int` cuts is placed by what it
was and stored as what it becomes. A CREATE INDEX that raises leaves an index of some of the
rows. In a run without these every INT index agrees with its heap.
-/

namespace Minirel
namespace Database

variable {α : Type} {C : Conversions} {tr : Tracked} {exempt exempt' : Nat → Prop} {db db' : Database}
  {v v' : View} {table : TableMeta} {txn : Transaction} {stmt : Statement} {t i column : String}

/-- The indexes on INT columns. -/
def intIndexes : Tracked := fun _ _ type => type = .int

/-- What a statement stores is taken by the indexes, or does not count, or there is no INT index
    to take it. -/
def LeavesIndexed (C : Conversions) (txn : Transaction) (db : Database) (stmt : Statement) : Prop :=
  txn.txnId ∈ db.mgr.abortedXids ∨ StmtAdmitted C intIndexes txn db stmt ∨
    ∀ table acts, Targets C txn db stmt table acts → ∀ x ∈ table.indexes, x.2.keyType ≠ .int

/-- The calls that keep the agreement. -/
def KeepsIndexed (C : Conversions) (db : Database) : Call → Prop
  | .execute (.createTable ..) _ => True
  | .execute (.createIndex i t column _) _ => ∀ table keys,
      Accepted db.catalog i t column table .int →
      columnKeys table.schema column (contents t db) = .ok keys →
      ∀ key, (keys.map (·.1)).count key ≤ BPlusTree.maxLeafKeys (.ofColumn C .int)
  | .execute stmt none => ∀ txn db₁, begin db = .ok txn db₁ → StmtFaithful C intIndexes stmt txn db₁
  | .execute stmt (some n) => ∀ txn, db.session.txns n = some txn →
      StmtFaithful C intIndexes stmt txn db ∧ LeavesIndexed C txn db stmt
  | .reopen => False
  | _ => True

/-- The states that such calls lead to from a new database. -/
inductive IndexedRun (C : Conversions) : Database → Prop where
  | fresh : IndexedRun C fresh
  | call {db db' : Database} {c : Call} (h : IndexedRun C db) (step : Step C db c db')
      (keeps : KeepsIndexed C db c) : IndexedRun C db'

/-! ## The invariant -/

/-- The INT indexes are trees in order that agree with the heaps, but for the versions of some
    transactions. -/
structure Agreeing (C : Conversions) (exempt : Nat → Prop) (db : Database) : Prop where
  inv : db.session.Inv
  view : ∃ v, Sound C intIndexes db v ∧ AllIndexed C intIndexes exempt db.catalog v.toContent

theorem Agreeing.mono (h : Agreeing C exempt db) (hle : ∀ n, exempt n → exempt' n) :
    Agreeing C exempt' db := by
  obtain ⟨hi, v, hs, hindexed⟩ := h
  exact ⟨hi, v, hs, hindexed.mono hle⟩

/-- The transactions do not matter. -/
theorem Agreeing.session {s : Session LogOp} (h : Agreeing C exempt db) (hi : s.Inv) :
    Agreeing C exempt { db with session := s } := by
  obtain ⟨-, v, hs, hindexed⟩ := h
  exact ⟨hi, v, hs.congr rfl rfl, hindexed⟩

theorem agreeing_fresh : Agreeing C exempt fresh := by
  refine ⟨Session.fresh_inv, _, sound_fresh, ?_⟩
  intro t table i idx ht
  cases ht

/-! ## Statements -/

/-- A statement on rows keeps the agreement, but for what it leaves when it raises. -/
theorem wp_dispatch_agreeing {n : Nat} (h : Agreeing C exempt db) (hrows : stmt.OnRows)
    (ht : db.session.txns n = some txn) (hfaithful : StmtFaithful C intIndexes stmt txn db) :
    wpIf Room (dispatch C stmt txn) (fun _ db' => Agreeing C exempt db' ∧ Within db db')
      (fun _ db' => (exempt txn.txnId ∨ StmtAdmitted C intIndexes txn db stmt ∨ ∀ table acts,
          Targets C txn db stmt table acts → ∀ x ∈ table.indexes, x.2.keyType ≠ .int) →
        Agreeing C exempt db' ∧ Within db db') db := by
  obtain ⟨hi, v, hs, hindexed⟩ := h
  obtain ⟨hid, -, -, hlt⟩ := hi.handle ht
  refine (allIndexed_dispatch hrows hs (hid ▸ hlt) hfaithful hindexed).mono ?_ ?_
  · rintro r db' - ⟨v', hs', hwithin, hindexed'⟩
    exact ⟨⟨hwithin.inv hi, v', hs', hindexed'⟩, hwithin⟩
  · rintro e db' - hfailed hleaves
    obtain ⟨v', hs', hwithin, hindexed'⟩ := hfailed hleaves
    exact ⟨⟨hwithin.inv hi, v', hs', hindexed'⟩, hwithin⟩

/-- A new table is empty and has no indexes. -/
theorem AllIndexed.newTable {catalog : Catalog} {table : TableMeta} {p : Nat}
    (h : AllIndexed C tr exempt catalog v.toContent) (hnone : table.indexes = []) :
    AllIndexed C tr exempt (catalog.setTable table) (v.newTable table.name p).toContent := by
  intro t table' i idx ht hi htr
  by_cases heq : t = table.name
  · subst heq
    rw [Catalog.setTable, Dict.get?_set_self, Option.some.injEq] at ht
    rw [← ht, hnone] at hi
    cases hi
  · rw [Catalog.setTable, Dict.get?_set_ne (Ne.symm heq)] at ht
    have htuples : (v.newTable table.name p).tuples t = v.tuples t := Function.update_of_ne heq _ _
    have hentries : (v.newTable table.name p).entries t i = v.entries t i := rfl
    rw [htuples, hentries]
    exact h ht hi htr

/-- A new index agrees if it is not tracked, or made of the tuples. -/
theorem AllIndexed.made {unique : Bool} {idx : IndexMeta}
    (h : AllIndexed C tr exempt db.catalog v.toContent) (hs : Sound C tr db v)
    (hmade : IndexMade C tr t i column unique db v table idx db' v')
    (hfilled : tr t i idx.keyType → ∃ es, Filled C table.schema idx (v.tuples t) es ∧
      (v'.entries t i).Perm es) : AllIndexed C tr exempt db'.catalog v'.toContent := by
  intro t' table' i' idx' ht' hi' htr
  have hother : ¬(t' = t ∧ i' = i) → v'.entries t' i' = v.entries t' i' := hmade.same.entries t' i'
  rw [hmade.same.tuples]
  by_cases htable : t' = t
  · subst htable
    obtain rfl := Option.some.inj (ht'.symm.trans hmade.get?.1)
    by_cases hindex : i' = i
    · subst hindex
      obtain rfl := Option.some.inj (hi'.symm.trans hmade.get?.2)
      obtain ⟨es, hes, hperm⟩ := hfilled htr
      exact (hes.indexed (hs.layout.heap hmade.found).nodup).perm hperm.symm
    · rw [hother fun heq => hindex heq.2]
      have hget : table.indexes.get? i' = some idx' := (Dict.get?_set_ne (Ne.symm hindex)).symm.trans hi'
      have hold := h hmade.found hget htr
      exact hold
  · rw [hother fun heq => htable heq.1]
    refine h ?_ hi' htr
    rwa [hmade.catalog, Catalog.setTable, hmade.name, Dict.get?_set_ne (Ne.symm htable)] at ht'

/-- CREATE TABLE keeps the agreement. -/
theorem Agreeing.createTable {columns : List Column} (h : Agreeing C (· ∈ db.mgr.abortedXids) db)
    (hroom : Room (after (executeCreateTable t columns) db)) :
    Agreeing C (· ∈ (after (executeCreateTable t columns) db).mgr.abortedXids)
      (after (executeCreateTable t columns) db) := by
  obtain ⟨hi, v, hs, hindexed⟩ := h
  refine wp_after (P := fun db' => Room db' → Agreeing C (· ∈ db'.mgr.abortedXids) db') ?_ hroom
  refine wp.mono (wp_executeCreateTable hs) (fun _ db' h hroom => ?_) fun _ db' h hroom => ?_
  · obtain ⟨hsession, -, hcatalog, hs'⟩ := h hroom
    refine ⟨hsession ▸ hi, _, hs', ?_⟩
    rw [mgr, hsession, hcatalog]
    exact hindexed.newTable rfl
  · rw [h hroom]
    exact ⟨hi, v, hs, hindexed⟩

/-! ## CREATE INDEX -/

/-- What an INT column holds of a row. -/
theorem exists_columnInt {schema : Schema} {raw : Tuple} (h : Conforms schema raw)
    (hcolumn : schema.column column = .ok ⟨column, .int⟩) :
    ∃ n, Fits64 n ∧ columnValue schema column raw = .ok (.int n) := by
  obtain ⟨cell, htype, hvalue⟩ := exists_columnValue h hcolumn
  cases cell with
  | int n fits => exact ⟨n, fits, hvalue⟩
  | text s fits => cases htype
  | float y => cases htype
  | bool b => cases htype

theorem storedAs_int (C : Conversions) {n : Int} (h : Fits64 n) :
    BPlusTree.StoredAs C .int (.int n) (.int n) :=
  KeyOrder.storedAs_val (O := KeyOrder.intColumn C) ⟨n, rfl, h⟩

/-- The entries of a filled index are the keys of the column. -/
theorem Filled.length_ridsUnder {schema : Schema} {idx : IndexMeta} {tuples : List (RID × Tuple)}
    {es : List (RawKey × RID)} {keys : List (Value × RID)} (h : Filled C schema idx tuples es)
    (hkeys : columnKeys schema idx.column tuples = .ok keys)
    (hraw : ∀ y ∈ keys, BPlusTree.StoredAs C idx.keyType y.1 (rawKeyOf y.1)) (k : RawKey) :
    (BPlusTree.ridsUnder es k).length = keys.countP fun y => rawKeyOf y.1 = k := by
  induction h generalizing keys with
  | nil =>
    cases hkeys
    rfl
  | @cons x e tuples es hx _ ih =>
    rw [columnKeys, List.mapM_cons] at hkeys
    obtain ⟨y, hy, hkeys⟩ := bind_eq_ok.mp hkeys
    obtain ⟨keys', hkeys', hcons⟩ := bind_eq_ok.mp hkeys
    cases hcons
    rw [List.forall_mem_cons] at hraw
    obtain ⟨value, hvalue, hpair⟩ := bind_eq_ok.mp hy
    cases hpair
    obtain ⟨k', rid⟩ := e
    obtain ⟨rfl, value', hvalue', hk⟩ := hx
    obtain rfl := Except.ok.inj (hvalue.symm.trans hvalue')
    obtain rfl : rawKeyOf value = k' :=
      Except.ok.inj (hraw.1.encode_eq.symm.trans hk.encode_eq)
    rw [BPlusTree.length_ridsUnder_cons, ih hkeys' hraw.2, List.countP_cons, Nat.add_comm]
    simp only [decide_eq_true_eq]

/-- The rows of an INT column fill an index if none of its values occurs too often. -/
theorem Accepted.fillable {keys : List (Value × RID)} {idx : IndexMeta}
    (h : Accepted db.catalog i t column table .int) (hs : Sound C tr db v) (hcolumn : idx.column = column)
    (htype : idx.keyType = .int) (hkeys : columnKeys table.schema column (v.tuples t) = .ok keys)
    (hfew : ∀ key, (keys.map (·.1)).count key ≤ BPlusTree.maxLeafKeys (.ofColumn C .int)) :
    Fillable C table.schema idx (v.tuples t) := by
  subst hcolumn
  have hint : ∀ y ∈ keys, ∃ n, Fits64 n ∧ y.1 = .int n := by
    intro y hy
    obtain ⟨raw, hraw, hvalue⟩ := mem_columnKeys hkeys hy
    obtain ⟨n, hfits, hvalue'⟩ := exists_columnInt (hs.layout.conforms h.found _ hraw) h.column
    exact ⟨n, hfits, Except.ok.inj (hvalue.symm.trans hvalue')⟩
  have hfaithful : ∀ y ∈ keys, Faithful C .int y.1 := by
    intro y hy
    obtain ⟨n, -, hvalue⟩ := hint y hy
    rw [hvalue]
    trivial
  have hstored : ∀ y ∈ keys, BPlusTree.StoredAs C idx.keyType y.1 (rawKeyOf y.1) := by
    intro y hy
    obtain ⟨n, hfits, hvalue⟩ := hint y hy
    rw [hvalue, htype]
    exact storedAs_int C hfits
  refine ⟨fun x hx => ?_, fun es hes k => ?_⟩
  · obtain ⟨n, hfits, hvalue⟩ := exists_columnInt (hs.layout.conforms h.found x hx) h.column
    refine ⟨.int n, .int n, hvalue, ?_⟩
    rw [htype]
    exact storedAs_int C hfits
  · rw [hes.length_ridsUnder hkeys hstored, htype]
    exact (countP_rawKeyOf_le_iff (h.keys_inj hs hkeys hfaithful)).mpr hfew k

/-- CREATE INDEX keeps the agreement if the new tree takes the rows. -/
theorem Agreeing.createIndex {unique : Bool} (h : Agreeing C (· ∈ db.mgr.abortedXids) db)
    (hkeeps : KeepsIndexed C db (.execute (.createIndex i t column unique) none))
    (hroom : Room (after (executeCreateIndex C i t column unique) db)) :
    Agreeing C (· ∈ (after (executeCreateIndex C i t column unique) db).mgr.abortedXids)
      (after (executeCreateIndex C i t column unique) db) := by
  have hstay := h
  obtain ⟨hi, v, hs, hindexed⟩ := h
  have hmake : ∀ {db' table idx v'}, IndexMade C intIndexes t i column unique db v table idx db' v' →
      (intIndexes t i idx.keyType → ∃ es, Filled C table.schema idx (v.tuples t) es ∧
        (v'.entries t i).Perm es) → Agreeing C (· ∈ db'.mgr.abortedXids) db' := by
    intro db' table idx v' hmade hfilled
    rw [mgr, hmade.session]
    exact ⟨hmade.session ▸ hi, v', hmade.sound, hindexed.made hs hmade hfilled⟩
  refine wp_after (P := fun db' => Room db' → Agreeing C (· ∈ db'.mgr.abortedXids) db') ?_ hroom
  by_cases hacc : ∃ table type, Accepted db.catalog i t column table type
  · obtain ⟨table, type, hacc⟩ := hacc
    have hfill : ∀ table' idx, db.catalog.getTable t = .ok table' → Keyed table' idx →
        idx.column = column → intIndexes t i idx.keyType →
        Fillable C table'.schema idx (v.tuples t) := by
      intro table' idx ht hkeyed hcolumn htype
      obtain rfl := Option.some.inj (hacc.found.symm.trans (getTable_eq_ok.mp ht))
      have hcol := hkeyed.column
      rw [hcolumn, show idx.keyType = .int from htype] at hcol
      have hacc' : Accepted db.catalog i t column table .int := ⟨hacc.found, hacc.new, hcol, .inl rfl⟩
      obtain ⟨keys, hkeys⟩ := columnKeys_total (hs.layout.conforms hacc.found) hcol
      refine hacc'.fillable hs hcolumn htype hkeys (hkeeps table keys hacc' ?_)
      rwa [contents, hs.versions_eq hacc.found]
    refine wp.mono (wp_executeCreateIndex hs hfill) (fun _ db' h hroom => ?_) fun _ db' h hroom => ?_
    · obtain ⟨table', idx, v', hmade, hfilled⟩ := h hroom
      exact hmake hmade hfilled
    · obtain rfl | ⟨table', idx, v', hmade, hnot⟩ := h hroom
      · exact hstay
      · exact hmake hmade fun htr => absurd htr hnot
  · refine (executeCreateIndex_refused unique hs fun table type h => hacc ⟨table, type, h⟩).mono ?_ ?_
    · exact fun _ _ h => h.elim
    · rintro e db' rfl -
      exact hstay

/-! ## Runs -/

/-- A call on the manager takes no version out of those that count. -/
theorem Agreeing.call (h : Agreeing C (· ∈ db.mgr.abortedXids) db) (c : TxnCall) :
    Agreeing C (· ∈ (db.session.step c).mgr.abortedXids) { db with session := db.session.step c } :=
  (h.session (h.inv.step c)).mono fun _ hn => db.session.abortedXids_subset c hn

/-- A statement in a transaction of its own: what it leaves when it raises is aborted. -/
theorem Agreeing.autocommit (h : Agreeing C (· ∈ db.mgr.abortedXids) db) (hrows : stmt.OnRows)
    (hfaithful : ∀ txn db₁, begin db = .ok txn db₁ → StmtFaithful C intIndexes stmt txn db₁)
    (hroom : Room (after (autocommit (dispatch C stmt)) db)) :
    Agreeing C (· ∈ (after (autocommit (dispatch C stmt)) db).mgr.abortedXids)
      (after (autocommit (dispatch C stmt)) db) := by
  cases hb : begin db with
  | error e db₁ =>
    rw [after_autocommit_error hb, after_begin]
    exact h.call .begin
  | ok txn db₁ =>
    have hstmt := hfaithful txn db₁ hb
    obtain ⟨rfl, rfl, hlt, hfound⟩ := begin_eq_ok hb
    have hbegun := h.call .begin
    generalize hdb₁ : ({ db with session := db.session.step .begin } : Database) = db₁ at *
    have hmgr : (db.session.step .begin).mgr = db₁.mgr := by rw [← hdb₁]; rfl
    rw [hmgr] at hbegun
    cases hm : dispatch C stmt db.session.newTxn db₁ with
    | ok r db₂ =>
      rw [after_autocommit_ok hb hm] at hroom ⊢
      rw [commit, after_onManager] at hroom
      obtain ⟨hagree, hwithin⟩ := (wp_dispatch_agreeing hbegun hrows hfound hstmt).ok hm hroom
      rw [← hwithin.abortedXids] at hagree
      rw [← hwithin.txns] at hfound
      rw [after_commit hfound]
      exact hagree.call _
    | error e db₂ =>
      rw [after_autocommit_raised hb hm] at hroom ⊢
      rw [abort, after_onManager] at hroom
      have hexempt : Agreeing C (fun n => n ∈ db₁.mgr.abortedXids ∨ n = db.session.newTxn.txnId) db₁ :=
        hbegun.mono fun _ => .inl
      obtain ⟨hagree, hwithin⟩ :=
        (wp_dispatch_agreeing hexempt hrows hfound hstmt).error hm hroom (.inl (.inr rfl))
      rw [← hwithin.abortedXids] at hagree
      rw [← hwithin.txns] at hfound
      rw [after_abort hfound]
      refine (hagree.session (hagree.inv.step _)).mono ?_
      rintro n (hn | rfl)
      · exact db₂.session.abortedXids_subset _ hn
      · exact Session.mem_abortedXids_step_abort hfound rfl hlt

/-- A statement in a transaction of its caller. -/
theorem Agreeing.rows (stmt : Statement) {n : Nat} (h : Agreeing C (· ∈ db.mgr.abortedXids) db)
    (hrows : stmt.OnRows) (ht : db.session.txns n = some txn)
    (hfaithful : StmtFaithful C intIndexes stmt txn db)
    (hleaves : LeavesIndexed C txn db stmt) (hroom : Room (after (dispatch C stmt txn) db)) :
    Agreeing C (· ∈ (after (dispatch C stmt txn) db).mgr.abortedXids) (after (dispatch C stmt txn) db) := by
  refine wp_after (P := fun db' => Room db' → Agreeing C (· ∈ db'.mgr.abortedXids) db') ?_ hroom
  refine wp.mono (wp_dispatch_agreeing h hrows ht hfaithful) ?_ ?_
  · rintro r db' hdone hroom
    obtain ⟨hagree, hwithin⟩ := hdone hroom
    rwa [← hwithin.abortedXids] at hagree
  · rintro e db' hfailed hroom
    obtain ⟨hagree, hwithin⟩ := hfailed hroom hleaves
    rwa [← hwithin.abortedXids] at hagree

/-- A call that keeps the agreement. -/
theorem Agreeing.step {c : Call} (h : Agreeing C (· ∈ db.mgr.abortedXids) db) (hstep : Step C db c db')
    (hkeeps : KeepsIndexed C db c) (hroom : Room db') : Agreeing C (· ∈ db'.mgr.abortedXids) db' := by
  cases hstep with
  | begin =>
    rw [after_begin]
    exact h.call _
  | commit ht =>
    rw [after_commit ht]
    exact h.call _
  | abort ht =>
    rw [after_abort ht]
    exact h.call _
  | execute stmt =>
    cases stmt with
    | createTable t columns => exact h.createTable hroom
    | createIndex i t column unique => exact h.createIndex hkeeps hroom
    | insert t columns rows => exact Agreeing.autocommit h trivial hkeeps hroom
    | update t assignments where_ => exact Agreeing.autocommit h trivial hkeeps hroom
    | delete t where_ => exact Agreeing.autocommit h trivial hkeeps hroom
  | executeIn stmt ht =>
    cases stmt with
    | createTable t columns => exact h.createTable hroom
    | createIndex i t column unique => exact h.createIndex hkeeps hroom
    | insert t columns rows =>
      obtain ⟨hfaithful, hleaves⟩ := hkeeps _ ht
      exact h.rows (.insert t columns rows) trivial ht hfaithful hleaves hroom
    | update t assignments where_ =>
      obtain ⟨hfaithful, hleaves⟩ := hkeeps _ ht
      exact h.rows (.update t assignments where_) trivial ht hfaithful hleaves hroom
    | delete t where_ =>
      obtain ⟨hfaithful, hleaves⟩ := hkeeps _ ht
      exact h.rows (.delete t where_) trivial ht hfaithful hleaves hroom
  | select raises =>
    cases hb : Database.begin db with
    | error e db₁ =>
      rw [after_autocommit_error hb, after_begin]
      exact h.call _
    | ok txn db₁ =>
      obtain ⟨rfl, rfl, -, hfound⟩ := begin_eq_ok hb
      obtain heq | heq := after_autocommit (query raises) hb
      · rw [heq, after_query, after_commit hfound]
        exact (h.call .begin).call _
      · rw [heq, after_query, after_abort hfound]
        exact (h.call .begin).call _
  | selectIn => exact h
  | checkpoint =>
    obtain ⟨wal, heq⟩ := checkpoint_after db
    rw [heq]
    exact h.session (h.inv.with_wal wal)
  | reopen none => exact hkeeps.elim

theorem IndexedRun.agreeing (h : IndexedRun C db) (hroom : Room db) :
    Agreeing C (· ∈ db.mgr.abortedXids) db := by
  induction h with
  | fresh => exact agreeing_fresh
  | call h step keeps ih => exact (ih (step.room hroom)).step step keeps hroom

/-! ## What the agreement says -/

/-- CREATE UNIQUE INDEX i ON t (a) -/
def oneIndex : Database := after (execute .integral (.createIndex "i" "t" "a" true) none) oneTable

theorem keeps_oneIndex : KeepsIndexed .integral oneTable (.execute (.createIndex "i" "t" "a" true) none) := by
  intro table keys hacc hkeys key
  have hempty : contents "t" oneTable = [] := by decide +kernel
  rw [hempty] at hkeys
  cases hkeys
  exact Nat.zero_le _

theorem keeps_insertSeven : KeepsIndexed .integral oneIndex (.execute insertSeven none) := by
  intro txn db₁ hb table acts htargets
  have htable : (match oneIndex.catalog.getTable "t" with
      | .ok table => decide (table.schema = ⟨[⟨"a", .int⟩]⟩ ∧ ∀ x ∈ table.indexes, x.2.column = "a")
      | .error _ => true) = true := by
    decide +kernel
  obtain ⟨rfl, -⟩ := begin_eq_ok hb
  cases htargets with
  | insert ht hresolved =>
    dsimp only at ht
    rw [ht] at htable
    obtain ⟨hschema, hcolumns⟩ := of_decide_eq_true htable
    rw [hschema] at hresolved
    cases hresolved
    intro a ha
    obtain rfl : a = .insert [.int 7] := List.mem_singleton.mp ha
    intro x hx htype key hkey
    rw [rowMap, hschema, hcolumns x hx] at hkey
    cases hkey
    rw [show x.2.keyType = .int from htype]
    trivial

end Database
end Minirel
