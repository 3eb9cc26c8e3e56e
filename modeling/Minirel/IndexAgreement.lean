-- SUMMARY: When every INT index agrees with the heap of its table.
import Minirel.FailedIndex
import Minirel.FailedStatements

/-!
# Indexes that agree with their heaps

The planner takes it that an index has an entry for every version a snapshot may see. The
versions of aborted transactions may be without one. A statement that raises in a transaction
of its own leaves only such versions; one that raises in a transaction that goes on must not
have stored a version that some index did not take.
-/

namespace Minirel
namespace Database

variable {C : Conversions} {tr : Tracked} {exempt exempt' : Nat → Prop} {db db' : Database} {v v' : View}
  {table : TableMeta} {txn : Transaction} {mgr : TransactionManager LogOp} {c c' : Content}
  {schema : Schema} {idx idx' : IndexMeta} {tuples : List (RID × Tuple)} {es es' : List (RawKey × RID)}
  {rid : RID} {tup : Tuple} {k : RawKey} {values : List Value} {valueMap : Dict Value} {t i : String}

/-! ## One index -/

/-- Every entry is the key of a tuple, and every tuple has one entry, but for those of the exempt
    transactions. -/
structure Indexed (C : Conversions) (exempt : Nat → Prop) (schema : Schema) (idx : IndexMeta)
    (tuples : List (RID × Tuple)) (entries : List (RawKey × RID)) : Prop where
  keyed : ∀ e ∈ entries, ∃ tup, (e.2, tup) ∈ tuples ∧ HasKey C schema idx tup e.1
  once : ∀ x ∈ tuples, ¬exempt x.2.xmin →
    ∃ k, HasKey C schema idx x.2 k ∧ entries.count (k, x.1) = 1

theorem HasKey.congr {new : Tuple} (h : HasKey C schema idx tup k) (hpayload : new.payload = tup.payload) :
    HasKey C schema idx new k := by
  obtain ⟨value, hvalue, hk⟩ := h
  refine ⟨value, ?_, hk⟩
  simpa only [columnValue, tuplePayload, hpayload] using hvalue

theorem HasKey.shape (h : HasKey C schema idx tup k) (hshape : idx.shape = idx'.shape) :
    HasKey C schema idx' tup k := by
  obtain ⟨-, hcolumn, -, htype⟩ := IndexMeta.of_shape hshape
  obtain ⟨value, hvalue, hk⟩ := h
  exact ⟨value, hcolumn ▸ hvalue, htype ▸ hk⟩

theorem Indexed.mono (h : Indexed C exempt schema idx tuples es) (hle : ∀ n, exempt n → exempt' n) :
    Indexed C exempt' schema idx tuples es :=
  ⟨h.keyed, fun x hx hnot => h.once x hx fun hex => hnot (hle _ hex)⟩

theorem Indexed.perm (h : Indexed C exempt schema idx tuples es) (hperm : es.Perm es') :
    Indexed C exempt schema idx tuples es' := by
  refine ⟨fun e he => h.keyed e (hperm.mem_iff.mpr he), fun x hx hnot => ?_⟩
  obtain ⟨k, hk, hcount⟩ := h.once x hx hnot
  exact ⟨k, hk, (hperm.count_eq _).symm.trans hcount⟩

theorem Indexed.shape (h : Indexed C exempt schema idx tuples es) (hshape : idx.shape = idx'.shape) :
    Indexed C exempt schema idx' tuples es := by
  refine ⟨fun e he => ?_, fun x hx hnot => ?_⟩
  · obtain ⟨tup, hmem, hk⟩ := h.keyed e he
    exact ⟨tup, hmem, hk.shape hshape⟩
  · obtain ⟨k, hk, hcount⟩ := h.once x hx hnot
    exact ⟨k, hk.shape hshape, hcount⟩

theorem Indexed.nil (C : Conversions) (exempt : Nat → Prop) (schema : Schema) (idx : IndexMeta) :
    Indexed C exempt schema idx [] [] := ⟨nofun, nofun⟩

/-- A stamp changes no key. -/
theorem Indexed.overwrite {raw new : Tuple} (h : Indexed C exempt schema idx tuples es)
    (hnodup : (tuples.map (·.1)).Nodup) (hmem : (rid, raw) ∈ tuples) (hxmin : new.xmin = raw.xmin)
    (hpayload : new.payload = raw.payload) :
    Indexed C exempt schema idx (HeapFile.overwrite tuples rid new) es := by
  have hsame : ∀ x ∈ tuples, (if x.1 = rid then new else x.2).xmin = x.2.xmin ∧
      (if x.1 = rid then new else x.2).payload = x.2.payload := by
    intro x hx
    split
    · rename_i heq
      have hx' : (rid, x.2) ∈ tuples := by
        rw [← heq]
        exact hx
      rw [eq_of_nodup hnodup hx' hmem]
      exact ⟨hxmin, hpayload⟩
    · exact ⟨rfl, rfl⟩
  rw [overwrite_eq]
  refine ⟨fun e he => ?_, fun x hx hnot => ?_⟩
  · obtain ⟨tup, htup, hk⟩ := h.keyed e he
    exact ⟨_, List.mem_map_of_mem htup, hk.congr (hsame _ htup).2⟩
  · obtain ⟨y, hy, rfl⟩ := List.mem_map.mp hx
    rw [(hsame y hy).1] at hnot
    obtain ⟨k, hk, hcount⟩ := h.once y hy hnot
    exact ⟨k, hk.congr (hsame y hy).2, hcount⟩

/-- A tuple with its entry. -/
theorem Indexed.add {tuples' : List (RID × Tuple)} (h : Indexed C exempt schema idx tuples es)
    (hmem : ∀ x, x ∈ tuples' ↔ x ∈ tuples ∨ x = (rid, tup)) (hk : HasKey C schema idx tup k)
    (hfresh : ∀ old, (rid, old) ∉ tuples) : Indexed C exempt schema idx tuples' ((k, rid) :: es) := by
  refine ⟨fun e he => ?_, fun x hx hnot => ?_⟩
  · obtain rfl | he := List.mem_cons.mp he
    · exact ⟨tup, (hmem _).mpr (.inr rfl), hk⟩
    · obtain ⟨old, hold, hk'⟩ := h.keyed e he
      exact ⟨old, (hmem _).mpr (.inl hold), hk'⟩
  · obtain hx | rfl := (hmem x).mp hx
    · obtain ⟨k', hk', hcount⟩ := h.once x hx hnot
      have hne : (k, rid) ≠ (k', x.1) := by
        rintro heq
        cases heq
        exact hfresh x.2 hx
      exact ⟨k', hk', by rw [List.count_cons_of_ne hne, hcount]⟩
    · have hnone : es.count (k, rid) = 0 := List.count_eq_zero.mpr fun hmem => by
        obtain ⟨old, hold, -⟩ := h.keyed _ hmem
        exact hfresh old hold
      exact ⟨k, hk, by rw [List.count_cons_self, hnone]⟩

/-- A tuple of an exempt transaction without an entry. -/
theorem Indexed.add_exempt (h : Indexed C exempt schema idx tuples es) (hex : exempt tup.xmin) :
    Indexed C exempt schema idx (tuples ++ [(rid, tup)]) es := by
  refine ⟨fun e he => ?_, fun x hx hnot => ?_⟩
  · obtain ⟨old, hmem, hold⟩ := h.keyed e he
    exact ⟨old, List.mem_append_left _ hmem, hold⟩
  · obtain hx | hx := List.mem_append.mp hx
    · exact h.once x hx hnot
    · obtain rfl := List.mem_singleton.mp hx
      exact absurd hex hnot

/-- An index that was made of the tuples. -/
theorem Filled.indexed (h : Filled C schema idx tuples es) (hnodup : (tuples.map (·.1)).Nodup) :
    Indexed C exempt schema idx tuples es := by
  induction h with
  | nil => exact .nil C exempt schema idx
  | @cons x e tuples es hx _ ih =>
    obtain ⟨hnew, hnodup⟩ := List.nodup_cons.mp hnodup
    obtain ⟨k, rid⟩ := e
    obtain ⟨rfl, hk⟩ := hx
    have hmem : ∀ y, y ∈ x :: tuples ↔ y ∈ tuples ∨ y = (x.1, x.2) := fun y => by rw [List.mem_cons, or_comm]
    exact (ih hnodup).add hmem hk fun old hold => hnew (List.mem_map.mpr ⟨_, hold, rfl⟩)

/-! ## All indexes -/

/-- The tracked indexes agree with the heaps. -/
def AllIndexed (C : Conversions) (tr : Tracked) (exempt : Nat → Prop) (catalog : Catalog)
    (c : Content) : Prop :=
  ∀ ⦃t table i idx⦄, catalog.tables.get? t = some table → table.indexes.get? i = some idx →
    tr t i idx.keyType → Indexed C exempt table.schema idx (c.tuples t) (c.entries t i)

section
variable {catalog catalog' : Catalog} {key : Value} {indexes : List (String × IndexMeta)}

theorem AllIndexed.mono (h : AllIndexed C tr exempt catalog c) (hle : ∀ n, exempt n → exempt' n) :
    AllIndexed C tr exempt' catalog c :=
  fun _ _ _ _ ht hi htr => (h ht hi htr).mono hle

/-- The roots do not matter. -/
theorem AllIndexed.of_shape (h : AllIndexed C tr exempt catalog c)
    (hshape : catalog'.shape = catalog.shape) : AllIndexed C tr exempt catalog' c := by
  intro t table' i idx' ht' hi' htr
  obtain ⟨table, ht, heq⟩ := Catalog.get?_of_shape hshape ht'
  obtain ⟨idx, hi, hidx⟩ := TableMeta.get?_of_shape heq.symm hi'
  rw [← (IndexMeta.of_shape hidx).2.2.2] at htr
  rw [← (TableMeta.of_shape heq).2.1]
  exact (h ht hi htr).shape hidx

theorem entries_addKeys_ne (h : ¬(t = table.name ∧ i ∈ indexes.map (·.1))) :
    (c.addKeys C table.name valueMap rid indexes).entries t i = c.entries t i := by
  induction indexes generalizing c with
  | nil => rfl
  | cons x indexes ih =>
    rw [List.map_cons, List.mem_cons] at h
    have hrest : ¬(t = table.name ∧ i ∈ indexes.map (·.1)) := fun h' => h ⟨h'.1, .inr h'.2⟩
    unfold Content.addKeys
    split
    · rw [ih hrest]
      exact Content.entries_addKey_ne C c _ _ _ _ _ fun h' => h ⟨h'.1, .inl h'.2⟩
    · exact ih hrest

/-- An index takes the key of a row. -/
theorem entries_addKeys (hnodup : (indexes.map (·.1)).Nodup) (hmem : (i, idx) ∈ indexes)
    (hkey : valueMap.get? idx.column = some key)
    (hk : (KeyType.ofColumn C idx.keyType).encodeKey key = .ok k) :
    (c.addKeys C table.name valueMap rid indexes).entries table.name i =
      (k, rid) :: c.entries table.name i := by
  induction indexes generalizing c with
  | nil => cases hmem
  | cons x indexes ih =>
    obtain ⟨hnew, hnodup⟩ := List.nodup_cons.mp hnodup
    unfold Content.addKeys
    obtain rfl | hmem := List.mem_cons.mp hmem
    · dsimp only
      rw [hkey]
      dsimp only
      rw [entries_addKeys_ne fun h => hnew h.2]
      exact Content.entries_addKey_self hk _ _ _ _
    · have hne : ¬(table.name = table.name ∧ i = x.1) := by
        rintro ⟨-, rfl⟩
        exact hnew (List.mem_map.mpr ⟨_, hmem, rfl⟩)
      split
      · rw [ih hnodup hmem, Content.entries_addKey_ne C c _ _ _ _ _ hne]
      · exact ih hnodup hmem

end

/-! ## Rows -/

theorem hasRid_iff {c : Content} {t : String} {rid : RID} :
    ¬c.HasRid t rid ↔ ∀ old, (rid, old) ∉ c.tuples t := by
  simp [Content.HasRid]

/-- A new version has a value for the column of an index. -/
theorem NewRow.exists_key (h : NewRow C table txn c values valueMap rid tup) (hkeyed : Keyed table idx) :
    ∃ key, valueMap.get? idx.column = some key := by
  obtain ⟨n, -, hcol, -⟩ := Schema.column_eq_ok hkeyed.column
  have hmap := congrArg (·[n]?) (mapM_eq_ok.mp h.named)
  simp only [Schema.names, List.getElem?_map, hcol, Option.map_some] at hmap
  obtain ⟨key, -, hkey⟩ := Option.map_eq_some_iff.mp hmap.symm
  exact ⟨key, lookup_eq_ok.mp hkey.symm⟩

/-- A stamp. -/
theorem AllIndexed.set {old : RID} {raw stamped : Tuple} (h : AllIndexed C tr exempt db.catalog c)
    (hnodup : ((c.tuples table.name).map (·.1)).Nodup)
    (hstamp : Stamped mgr table txn c old raw stamped) :
    AllIndexed C tr exempt db.catalog (c.set table.name old stamped) := by
  intro t table' i idx ht hi htr
  have hindexed := h ht hi htr
  by_cases heq : t = table.name
  · subst heq
    obtain ⟨hxmin, -, hpayload⟩ := withXmax_ok hstamp.stamp
    have htuples : (c.set table.name old stamped).tuples table.name =
        HeapFile.overwrite (c.tuples table.name) old stamped := Function.update_self _ _ _
    rw [htuples]
    exact hindexed.overwrite hnodup hstamp.mem hxmin hpayload
  · have htuples : (c.set table.name old stamped).tuples t = c.tuples t := Function.update_of_ne heq _ _
    rw [htuples]
    exact hindexed

/-- A new version with its keys, which is exempt if some tracked index does not take it. -/
theorem AllIndexed.add (h : AllIndexed C tr exempt db.catalog c) (hs : Sound C tr db v)
    (hc : Current db table) (hnew : NewRow C table txn c values valueMap rid tup)
    (hfaithful : FaithfulKeys C tr table valueMap) (n : Nat)
    (htaken : exempt txn.txnId ∨
      ∀ x ∈ table.indexes, tr table.name x.1 x.2.keyType → x ∈ table.indexes.take n) :
    AllIndexed C tr exempt db.catalog ((c.add table.name (rid, tup)).addKeys C table.name valueMap rid
      (table.indexes.take n)) := by
  obtain ⟨hnodup, hindexes⟩ := hc.indexes hs
  obtain ⟨table₀, ht₀, heq⟩ := hc
  intro t table' i idx' ht hi htr
  have hindexed := h ht hi htr
  rw [Content.tuples_addKeys]
  by_cases hname : t = table.name
  · subst hname
    obtain rfl := Option.some.inj (ht₀.symm.trans ht)
    obtain ⟨idx, hidx, hshape⟩ := TableMeta.get?_of_shape heq hi
    have hmem : (i, idx) ∈ table.indexes := Dict.mem_of_get? hidx
    have htype := (IndexMeta.of_shape hshape).2.2.2
    have hkeyed := (hindexes _ hmem).2
    obtain ⟨key, hkey⟩ := hnew.exists_key hkeyed
    have htr' : tr table.name i idx.keyType := htype ▸ htr
    obtain ⟨k, henters, hk⟩ := hnew.key hkeyed hkey (hfaithful _ hmem htr' key hkey)
    have htuples : (c.add table.name (rid, tup)).tuples table.name = c.tuples table.name ++ [(rid, tup)] :=
      Function.update_self _ _ _
    rw [htuples, (TableMeta.of_shape heq).2.1]
    rw [(TableMeta.of_shape heq).2.1] at hindexed
    by_cases hin : (i, idx) ∈ table.indexes.take n
    · rw [entries_addKeys ((List.take_sublist n _).map _ |>.nodup hnodup) hin hkey henters.encode_eq]
      refine hindexed.add (fun x => ?_) (hk.shape hshape) (hasRid_iff.mp hnew.fresh)
      rw [List.mem_append, List.mem_singleton]
    · rw [entries_addKeys_ne]
      · refine hindexed.add_exempt ?_
        rw [hnew.version.xmin]
        exact htaken.resolve_right fun hall => hin (hall _ hmem htr')
      · rintro ⟨-, hi'⟩
        obtain ⟨x, hx, rfl⟩ := List.mem_map.mp hi'
        have hx' := (hindexes x (List.mem_of_mem_take hx)).1
        obtain rfl : idx = x.2 := Option.some.inj (hidx.symm.trans hx')
        exact hin hx
  · have htuples : (c.add table.name (rid, tup)).tuples t = c.tuples t := Function.update_of_ne hname _ _
    rw [htuples, entries_addKeys_ne fun h' => hname h'.1]
    exact hindexed

/-- What a row puts into the tracked indexes is faithful, from the content on. -/
def ActGood (C : Conversions) (tr : Tracked) (table : TableMeta) (c : Content) : RowAct → Prop
  | .insert values => FaithfulKeys C tr table (rowMap table values)
  | .update assignments rid => c.HasRid table.name rid ∧ ∀ raw, (rid, raw) ∈ c.tuples table.name →
      AssignFaithful C tr table assignments raw.payload
  | .delete _ => True

theorem RowStep.actGood {a b : RowAct} (h : RowStep C tr mgr table txn a c c')
    (hb : ActGood C tr table c b) : ActGood C tr table c' b := by
  cases b with
  | insert values => exact hb
  | delete rid => trivial
  | update assignments rid =>
    refine ⟨h.hasRid hb.1, fun raw hraw => ?_⟩
    obtain ⟨raw₀, hraw₀, heq⟩ := h.payload hb.1 hraw
    exact heq ▸ hb.2 raw₀ hraw₀

/-- What a statement is about is good from the state on that it starts in. -/
theorem Targets.actGood {stmt : Statement} {acts : List RowAct} (h : Targets C txn db stmt table acts)
    (hs : Sound C tr db v) (hself : db.catalog.tables.get? table.name = some table)
    (hfaithful : StmtFaithful C tr stmt txn db) : ∀ a ∈ acts, ActGood C tr table v.toContent a := by
  intro a ha
  have hgood := hfaithful table acts h a ha
  cases h with
  | insert ht hrows =>
    obtain ⟨values, -, rfl⟩ := List.mem_map.mp ha
    exact hgood
  | update ht hrows hrids =>
    obtain ⟨rid, hrid, rfl⟩ := List.mem_map.mp ha
    obtain ⟨rids', hmap, hhas⟩ := hs.matching hself hrows
    obtain rfl := List.map_injective_iff.mpr (fun _ _ => Except.ok.inj) (hrids.symm.trans hmap)
    exact ⟨hhas rid hrid, fun raw hraw => hgood raw ((hs.layout.heap hself).get hraw)⟩
  | delete ht hrows hrids =>
    obtain ⟨rid, -, rfl⟩ := List.mem_map.mp ha
    trivial

/-- A row that is written as a whole. -/
theorem RowStep.allIndexed {a : RowAct} (h : RowStep C tr mgr table txn a c c') (hs : Sound C tr db v)
    (hc : Current db table) (hnodup : ((c.tuples table.name).map (·.1)).Nodup)
    (hgood : ActGood C tr table c a) (hi : AllIndexed C tr exempt db.catalog c) :
    AllIndexed C tr exempt db.catalog c' := by
  have htake : exempt txn.txnId ∨ ∀ x ∈ table.indexes, tr table.name x.1 x.2.keyType →
      x ∈ table.indexes.take table.indexes.length := .inr fun x hx _ => by rwa [List.take_length]
  cases h with
  | insert new unseen =>
    have hadd := hi.add hs hc new hgood _ htake
    rwa [List.take_length] at hadd
  | update stamp assigned new unseen =>
    have hadd := (hi.set hnodup stamp).add hs hc new (hgood.2 _ stamp.mem _ assigned) _ htake
    rwa [List.take_length] at hadd
  | delete stamp => exact hi.set hnodup stamp

/-- A row that is written in part, by an exempt transaction, or in a table without tracked
    indexes. -/
theorem RowPart.allIndexed {taken : Prop} {a : RowAct} (h : RowPart C mgr table txn taken a c c')
    (hs : Sound C tr db v) (hc : Current db table) (hnodup : ((c.tuples table.name).map (·.1)).Nodup)
    (hgood : ActGood C tr table c a) (hi : AllIndexed C tr exempt db.catalog c)
    (htaken : ¬taken → exempt txn.txnId ∨ ∀ x ∈ table.indexes, ¬tr table.name x.1 x.2.keyType) :
    AllIndexed C tr exempt db.catalog c' := by
  have htake : ¬taken → ∀ n, exempt txn.txnId ∨ ∀ x ∈ table.indexes, tr table.name x.1 x.2.keyType →
      x ∈ table.indexes.take n := fun hnot n =>
    (htaken hnot).imp_right fun hnone x hx htr => absurd htr (hnone x hx)
  cases h with
  | insert refused new n => exact hi.add hs hc new hgood n (htake refused n)
  | stamp stamp assigned named refused => exact hi.set hnodup stamp
  | update refused stamp assigned new n =>
    exact (hi.set hnodup stamp).add hs hc new (hgood.2 _ stamp.mem _ assigned) n (htake refused n)

theorem RowSteps.allIndexed {acts : List RowAct} (h : RowSteps C tr mgr table txn acts c c')
    (hs : Sound C tr db v) (hc : Current db table) (hnodup : ((c.tuples table.name).map (·.1)).Nodup)
    (hgood : ∀ a ∈ acts, ActGood C tr table c a) (hi : AllIndexed C tr exempt db.catalog c) :
    AllIndexed C tr exempt db.catalog c' := by
  induction h with
  | nil => exact hi
  | cons step _ ih =>
    rw [List.forall_mem_cons] at hgood
    exact ih (step.evolves hnodup).nodup (fun b hb => step.actGood (hgood.2 b hb))
      (step.allIndexed hs hc hnodup hgood.1 hi)

theorem RowSteps.actGood {acts : List RowAct} {b : RowAct} (h : RowSteps C tr mgr table txn acts c c')
    (hb : ActGood C tr table c b) : ActGood C tr table c' b := by
  induction h with
  | nil => exact hb
  | cons step _ ih => exact ih (step.actGood hb)

/-! ## Statements -/

/-- A statement on rows: what it stores in part belongs to an exempt transaction, or to a table
    without tracked indexes. -/
theorem allIndexed_dispatch {stmt : Statement} (hrows : stmt.OnRows) (hs : Sound C tr db v)
    (hid : txn.txnId < 2 ^ 32) (hfaithful : StmtFaithful C tr stmt txn db)
    (hi : AllIndexed C tr exempt db.catalog v.toContent) :
    wpIf Room (dispatch C stmt txn)
      (fun _ db' => ∃ v', Sound C tr db' v' ∧ Within db db' ∧
        AllIndexed C tr exempt db'.catalog v'.toContent)
      (fun _ db' => (exempt txn.txnId ∨ StmtAdmitted C tr txn db stmt ∨ ∀ table acts,
          Targets C txn db stmt table acts → ∀ x ∈ table.indexes, ¬tr table.name x.1 x.2.keyType) →
        ∃ v', Sound C tr db' v' ∧ Within db db' ∧
          AllIndexed C tr exempt db'.catalog v'.toContent) db := by
  have htaken : StmtAdmitted C tr txn db stmt → StmtAdmitted C tr txn db stmt := id
  refine (wp_dispatch hrows hs hid hfaithful htaken).mono ?_ ?_
  · rintro r db' - ⟨table, acts, v', htargets, hself, -, hwritten⟩
    have hgood := htargets.actGood hs hself hfaithful
    refine ⟨v', hwritten.sound, hwritten.within, ?_⟩
    exact (hwritten.steps.allIndexed hs ⟨table, hself, rfl⟩ (hs.layout.heap hself).nodup hgood hi).of_shape
      hwritten.within.shape
  · rintro e db' - hfailed htaken
    obtain ⟨rfl, -⟩ | ⟨table, acts, v', htargets, hself, hraised⟩ := hfailed
    · exact ⟨v, hs, .refl _, hi⟩
    · have hgood := htargets.actGood hs hself hfaithful
      have hc : Current db table := ⟨table, hself, rfl⟩
      have hnodup := (hs.layout.heap hself).nodup
      refine ⟨v', hraised.sound, hraised.within, AllIndexed.of_shape ?_ hraised.within.shape⟩
      obtain ⟨done, a, rest, c, rfl, hsteps, hend⟩ := hraised.steps
      rw [List.forall_mem_append, List.forall_mem_cons] at hgood
      have hdone := hsteps.allIndexed hs hc hnodup hgood.1 hi
      obtain ⟨heq, -⟩ | hpart := hend
      · rwa [heq]
      · refine hpart.allIndexed hs hc (hsteps.evolves hnodup).nodup (hsteps.actGood hgood.2.1) hdone
          fun hnot => ?_
        obtain hex | hadm | hnone := htaken
        · exact .inl hex
        · exact absurd hadm hnot
        · exact .inr (hnone table _ htargets)

end Database
end Minirel
