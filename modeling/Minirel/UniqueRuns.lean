-- SUMMARY: Runs in which no snapshot sees the same value of a unique index twice.
import Minirel.IndexedReads
import Minirel.Issued

/-!
# Unique indexes

A unique index is asked for the rows that the inserting transaction sees. Two transactions at
a time can therefore store the same value. If everything in the table comes from transactions
that the snapshot covers, or that have aborted, the answer is enough: the older of two
versions with one value has been stamped by somebody whom everybody sees who sees the newer
one. This stays so whatever is committed or aborted afterwards.
-/

namespace Minirel

variable {π : Type}

/-! ## Who is covered by whom -/

/-- What the transaction has done is done for the snapshot: it is its own, or committed before. -/
def Snapshot.Covers (s : Snapshot) (n : Nat) : Prop := n = s.xid ∨ s.committedBefore n = true

/-- `m` has committed, and every active transaction that sees the work of `n` sees that of `m`. -/
structure Session.Precedes (s : Session π) (m n : Nat) : Prop where
  lt : m < s.mgr.nextTxnId
  not_active : m ∉ s.mgr.activeXids
  not_aborted : m ∉ s.mgr.abortedXids
  covered : ∀ t x, s.txns t = some x → x.state = .active → x.snapshot.Covers n → x.snapshot.Covers m

/-- A transaction that begins now sees what has committed. -/
theorem Session.newTxn_covers {s : Session π} {m : Nat} (hlt : m < s.mgr.nextTxnId)
    (hnot : m ∉ s.mgr.activeXids) : s.newTxn.snapshot.Covers m :=
  .inr (Snapshot.committedBefore_iff.mpr ⟨hlt, hnot⟩)

/-- Whatever is begun, committed or aborted. -/
theorem Session.Precedes.effect {s s' : Session π} {m n : Nat} (h : s.Precedes m n) (hi : s.Inv)
    (he : Session.Effect s s') : s'.Precedes m n := by
  obtain ⟨hlt, hactive, haborted, hcovered⟩ := h
  -- a handle that is replaced by one that is not active
  have hreplaced : ∀ (txn x : Transaction) (t : Nat) (state : TxnState), state ≠ .active →
      Function.update s.txns txn.txnId (some { txn with state }) t = some x → x.state = .active →
      s.txns t = some x := by
    intro txn x t state hstate hx hact
    by_cases heq : t = txn.txnId
    · subst heq
      rw [Function.update_self] at hx
      cases hx
      exact absurd hact hstate
    · rwa [Function.update_of_ne heq] at hx
  cases he with
  | begun hfits next active aborted txns =>
    refine ⟨by omega, ?_, by rwa [aborted], ?_⟩
    · rw [active, Finset.mem_insert]
      exact fun h => h.elim (fun heq => absurd heq hlt.ne) hactive
    · intro t x hx hact hcov
      rw [txns] at hx
      by_cases heq : t = s.mgr.nextTxnId
      · subst heq
        rw [Function.update_self] at hx
        cases hx
        exact newTxn_covers hlt hactive
      · rw [Function.update_of_ne heq] at hx
        exact hcovered t x hx hact hcov
  | refused next active aborted txns =>
    refine ⟨by omega, ?_, by rwa [aborted], by rwa [txns]⟩
    rw [active, Finset.mem_insert]
    exact fun h => h.elim (fun heq => absurd heq hlt.ne) hactive
  | committed txn hstate next active aborted txns hmem =>
    refine ⟨by rwa [next], ?_, by rwa [aborted], fun t x hx hact => ?_⟩
    · rw [active]
      exact fun h => hactive (Finset.mem_of_mem_erase h)
    · rw [txns] at hx
      exact hcovered t x (hreplaced txn x t .committed nofun hx hact) hact
  | aborted txn hstate next active aborted txns hmem =>
    obtain ⟨t₀, ht₀⟩ := hmem
    have hown : txn.txnId ∈ s.mgr.activeXids := by
      obtain ⟨rfl, -⟩ := hi.handle ht₀
      exact (hi.active_iff ht₀).mp hstate
    refine ⟨by rwa [next], ?_, ?_, fun t x hx hact => ?_⟩
    · rw [active]
      exact fun h => hactive (Finset.mem_of_mem_erase h)
    · rw [aborted, Finset.mem_insert]
      exact fun h => h.elim (fun heq => hactive (heq ▸ hown)) haborted
    · rw [txns] at hx
      exact hcovered t x (hreplaced txn x t .aborted nofun hx hact) hact
  | unchanged next active aborted txns =>
    exact ⟨by rwa [next], by rwa [active], by rwa [aborted], by rwa [txns]⟩

/-- What an active transaction sees has committed before it, or is its own. -/
theorem Session.Inv.precedes {s : Session π} (hi : s.Inv) {n m : Nat} {txn : Transaction}
    (ht : s.txns n = some txn) (hact : txn.state = .active) (hnot : m ∉ s.mgr.abortedXids)
    (hcov : txn.snapshot.Covers m) : m = txn.txnId ∨ s.Precedes m txn.txnId := by
  obtain ⟨hid, hxid, hlt, -⟩ := hi.handle ht
  obtain heq | hbefore := hcov
  · exact .inl (heq.trans (hxid.trans hid.symm))
  · refine .inr ?_
    obtain ⟨hm, hsnapshot⟩ := Snapshot.committedBefore_iff.mp hbefore
    rw [hxid] at hm
    refine ⟨hm.trans hlt, fun hactive => hsnapshot (hi.snapshot_active ht hactive hm), hnot, ?_⟩
    intro t x hx _ hsees
    obtain ⟨-, hxid', -, -⟩ := hi.handle hx
    obtain heq | hearlier := hsees
    · -- the transaction itself
      rw [hid, hxid'] at heq
      subst heq
      obtain rfl := Option.some.inj (ht.symm.trans hx)
      exact .inr hbefore
    · -- nobody else sees what is still going on
      obtain ⟨hlt', hnone⟩ := Snapshot.committedBefore_iff.mp hearlier
      rw [hid] at hlt' hnone
      rw [hxid'] at hlt'
      exact absurd (hi.snapshot_active hx ((hi.active_iff ht).mp hact) hlt') hnone

/-- The table that a statement adds versions to. -/
def Statement.fills : Statement → Option String
  | .insert t .. | .update t .. => some t
  | _ => none

namespace Database

variable {C : Conversions} {tr : Tracked} {exempt exempt' : Nat → Prop} {db db' : Database} {v v' : View}
  {s s' : Session LogOp} {table : TableMeta} {txn : Transaction} {snapshot : Snapshot}
  {mgr : TransactionManager LogOp} {c c' : Content} {x y x' y' tup : Tuple} {rid : RID} {k : RawKey}
  {values : List Value} {valueMap : Dict Value} {ex : Option RID} {t i column : String} {n : Nat}
  {stmt : Statement}

/-! ## Two versions -/

/-- The first version is stamped by somebody whom all see who see the second. -/
def Superseded (s : Session LogOp) (x y : Tuple) : Prop :=
  x.xmax ≠ infinityTxn ∧ (x.xmax = y.xmin ∨ s.Precedes x.xmax y.xmin)

/-- No snapshot sees both, or one belongs to a transaction that does not count. -/
def Apart (exempt : Nat → Prop) (s : Session LogOp) (x y : Tuple) : Prop :=
  exempt x.xmin ∨ exempt y.xmin ∨ Superseded s x y ∨ Superseded s y x

theorem Apart.symm (h : Apart exempt s x y) : Apart exempt s y x := by
  obtain h | h | h | h := h
  · exact .inr (.inl h)
  · exact .inl h
  · exact .inr (.inr (.inr h))
  · exact .inr (.inr (.inl h))

theorem Apart.mono (h : Apart exempt s x y) (hle : ∀ n, exempt n → exempt' n) : Apart exempt' s x y :=
  h.imp (hle _) fun h => h.imp_left (hle _)

theorem Superseded.effect (h : Superseded s x y) (hi : s.Inv) (he : Session.Effect s s') :
    Superseded s' x y := ⟨h.1, h.2.imp_right fun h => h.effect hi he⟩

theorem Apart.effect (h : Apart exempt s x y) (hi : s.Inv) (he : Session.Effect s s') :
    Apart exempt s' x y :=
  h.imp_right fun h => h.imp_right fun h => h.imp (·.effect hi he) (·.effect hi he)

/-- A stamp takes the place of an aborted one only. -/
theorem Superseded.successor (h : Superseded s x y) (hx : Successor s.mgr txn x x')
    (hy : y'.xmin = y.xmin) (hle : ∀ n ∈ s.mgr.abortedXids, exempt n) :
    exempt y'.xmin ∨ Superseded s x' y' := by
  obtain ⟨hmax, hwho⟩ := h
  rw [hy]
  obtain heq | ⟨heq, hok⟩ := hx.xmax
  · refine .inr ⟨heq ▸ hmax, ?_⟩
    rwa [heq, hy]
  · obtain hnone | hown | haborted := TransactionManager.checkWriteConflict_ok_iff.mp hok
    · exact absurd hnone hmax
    · have hsame : x'.xmax = x.xmax := heq.trans hown.symm
      refine .inr ⟨hsame ▸ hmax, ?_⟩
      rwa [hsame, hy]
    · obtain hself | hearlier := hwho
      · exact .inl (hle _ (hself ▸ haborted))
      · exact absurd haborted hearlier.not_aborted

theorem Apart.successor (h : Apart exempt s x y) (hx : Successor s.mgr txn x x')
    (hy : Successor s.mgr txn y y') (hle : ∀ n ∈ s.mgr.abortedXids, exempt n) : Apart exempt s x' y' := by
  obtain h | h | h | h := h
  · exact .inl (hx.xmin ▸ h)
  · exact .inr (.inl (hy.xmin ▸ h))
  · exact .inr ((h.successor hx hy.xmin hle).imp_right .inl)
  · obtain h | h := h.successor hy hx.xmin hle
    · exact .inl h
    · exact .inr (.inr (.inr h))

/-- A version that counts, and that a snapshot covers and does not see, has been deleted. -/
theorem xmax_of_unseen (hnot : x.xmin ∉ mgr.abortedXids) (hcov : snapshot.Covers x.xmin)
    (hunseen : sees mgr snapshot x = false) :
    x.xmax ≠ infinityTxn ∧ x.xmax ∉ mgr.abortedXids ∧ snapshot.Covers x.xmax := by
  have hsees : ¬mgr.isVisible x.xmin x.xmax snapshot = true := by
    rw [Bool.not_eq_true]
    exact hunseen
  rw [TransactionManager.isVisible_iff] at hsees
  refine ⟨fun h => hsees ⟨⟨hnot, hcov⟩, .inl h⟩, fun h => hsees ⟨⟨hnot, hcov⟩, .inr (.inl h)⟩, ?_⟩
  by_contra h
  exact hsees ⟨⟨hnot, hcov⟩, .inr (.inr h)⟩

/-! ## The versions of a table -/

/-- No snapshot sees two versions with one key of a tracked unique index. -/
def AllApart (C : Conversions) (tr : Tracked) (exempt : Nat → Prop) (catalog : Catalog)
    (s : Session LogOp) (c : Content) : Prop :=
  ∀ ⦃t table i idx⦄, catalog.tables.get? t = some table → table.indexes.get? i = some idx →
    tr t i idx.keyType → idx.unique = true → ∀ x ∈ c.tuples t, ∀ y ∈ c.tuples t, x.1 ≠ y.1 → ∀ k,
      HasKey C table.schema idx x.2 k → HasKey C table.schema idx y.2 k → Apart exempt s x.2 y.2

/-- A table has a tracked unique index. -/
def HasUnique (tr : Tracked) (catalog : Catalog) (t : String) : Prop :=
  ∃ table i idx, catalog.tables.get? t = some table ∧ table.indexes.get? i = some idx ∧
    tr t i idx.keyType ∧ idx.unique = true

section
variable {catalog catalog' : Catalog}

theorem AllApart.mono (h : AllApart C tr exempt catalog s c) (hle : ∀ n, exempt n → exempt' n) :
    AllApart C tr exempt' catalog s c :=
  fun _ _ _ _ ht hi htr hu x hx y hy hne k hkx hky => (h ht hi htr hu x hx y hy hne k hkx hky).mono hle

theorem AllApart.effect (h : AllApart C tr exempt catalog s c) (hi : s.Inv) (he : Session.Effect s s') :
    AllApart C tr exempt catalog s' c :=
  fun _ _ _ _ ht hidx htr hu x hx y hy hne k hkx hky =>
    (h ht hidx htr hu x hx y hy hne k hkx hky).effect hi he

theorem AllApart.congr (h : AllApart C tr exempt catalog s c) (heq : c'.tuples = c.tuples) :
    AllApart C tr exempt catalog s c' := by
  unfold AllApart
  rw [heq]
  exact h

/-- The roots do not matter. -/
theorem AllApart.of_shape (h : AllApart C tr exempt catalog s c) (hshape : catalog'.shape = catalog.shape) :
    AllApart C tr exempt catalog' s c := by
  intro t table' i idx' ht' hi' htr hu x hx y hy hne k hkx hky
  obtain ⟨table, ht, heq⟩ := Catalog.get?_of_shape hshape ht'
  obtain ⟨idx, hi, hidx⟩ := TableMeta.get?_of_shape heq.symm hi'
  obtain ⟨-, -, hunique, htype⟩ := IndexMeta.of_shape hidx
  have hschema := (TableMeta.of_shape heq).2.1
  rw [← htype] at htr
  rw [← hunique] at hu
  rw [← hschema] at hkx hky
  exact h ht hi htr hu x hx y hy hne k (hkx.shape hidx.symm) (hky.shape hidx.symm)

end

/-- A tuple has one key in an index. -/
theorem HasKey.inj {schema : Schema} {idx : IndexMeta} {k' : RawKey} (h : HasKey C schema idx tup k)
    (h' : HasKey C schema idx tup k') : k = k' := by
  obtain ⟨value, hvalue, hk⟩ := h
  obtain ⟨value', hvalue', hk'⟩ := h'
  obtain rfl := Except.ok.inj (hvalue.symm.trans hvalue')
  exact Except.ok.inj (hk.encode_eq.symm.trans hk'.encode_eq)

/-! ## Rows -/

/-- A stamp. -/
theorem AllApart.set {old : RID} {raw stamped : Tuple} (h : AllApart C tr exempt db.catalog db.session c)
    (hnodup : ((c.tuples table.name).map (·.1)).Nodup) (hstamp : Stamped db.mgr table txn c old raw stamped)
    (hle : ∀ n ∈ db.mgr.abortedXids, exempt n) :
    AllApart C tr exempt db.catalog db.session (c.set table.name old stamped) := by
  intro t table' i idx ht hi htr hu x hx y hy hne k hkx hky
  by_cases hname : t = table.name
  · subst hname
    have horigin : ∀ x ∈ (c.set table.name old stamped).tuples table.name,
        ∃ raw, (x.1, raw) ∈ c.tuples table.name ∧ Successor db.mgr txn raw x.2 := by
      intro x hx
      have htuples : (c.set table.name old stamped).tuples table.name =
          HeapFile.overwrite (c.tuples table.name) old stamped := Function.update_self _ _ _
      rw [htuples, overwrite_eq] at hx
      obtain ⟨z, hz, rfl⟩ := List.mem_map.mp hx
      refine ⟨z.2, hz, ?_⟩
      dsimp only
      split
      · rename_i heq
        have hz' : (old, z.2) ∈ c.tuples table.name := heq ▸ hz
        rw [eq_of_nodup hnodup hz' hstamp.mem]
        exact hstamp.successor
      · exact .refl _ _ _
    obtain ⟨x₀, hx₀, hsx⟩ := horigin x hx
    obtain ⟨y₀, hy₀, hsy⟩ := horigin y hy
    have hold := h ht hi htr hu _ hx₀ _ hy₀ hne k (hkx.congr hsx.payload.symm) (hky.congr hsy.payload.symm)
    exact hold.successor hsx hsy hle
  · have hsame : (c.set table.name old stamped).tuples t = c.tuples t := Function.update_of_ne hname _ _
    rw [hsame] at hx hy
    exact h ht hi htr hu x hx y hy hne k hkx hky

/-- What keeps a new version apart from the others: it does not count, or whoever has created what
    is in the table has aborted or is covered by the snapshot. -/
def MayAdd (tr : Tracked) (exempt : Nat → Prop) (db : Database) (txn : Transaction) (t : String)
    (c : Content) : Prop :=
  exempt txn.txnId ∨ (HasUnique tr db.catalog t → txn.state = .active ∧ txn.txnId ≠ infinityTxn ∧
    ∀ x ∈ c.tuples t, x.2.xmin ∈ db.mgr.abortedXids ∨ txn.snapshot.Covers x.2.xmin)

/-- A new version. -/
theorem AllApart.add (h : AllApart C tr exempt db.catalog db.session c) (hs : Sound C tr db v)
    (hc : Current db table) (hinv : db.session.Inv) (hn : db.session.txns n = some txn)
    (hindexed : AllIndexed C tr exempt db.catalog c)
    (hnew : NewRow C table txn c values valueMap rid tup) (hfaithful : FaithfulKeys C tr table valueMap)
    (hmay : MayAdd tr exempt db txn table.name c) (hle : ∀ n ∈ db.mgr.abortedXids, exempt n)
    (hold : ∀ old, ex = some old → ∀ raw, (old, raw) ∈ c.tuples table.name → raw.xmax = txn.txnId)
    (hunseen : exempt txn.txnId ∨ KeysUnseen C tr db.mgr txn.snapshot (c.add table.name (rid, tup)) table.name
      valueMap ex table.indexes) :
    AllApart C tr exempt db.catalog db.session (c.add table.name (rid, tup)) := by
  obtain ⟨hnodup, hindexes⟩ := hc.indexes hs
  obtain ⟨table₀, ht₀, heq⟩ := hc
  intro t table' i idx' ht hi htr hu x hx y hy hne k hkx hky
  by_cases hname : t = table.name
  case neg =>
    have hsame : (c.add table.name (rid, tup)).tuples t = c.tuples t := Function.update_of_ne hname _ _
    rw [hsame] at hx hy
    exact h ht hi htr hu x hx y hy hne k hkx hky
  subst hname
  obtain rfl := Option.some.inj (ht₀.symm.trans ht)
  have htuples : (c.add table.name (rid, tup)).tuples table.name = c.tuples table.name ++ [(rid, tup)] :=
    Function.update_self _ _ _
  -- a version from before and the new one
  have hpair : ∀ x ∈ c.tuples table.name, HasKey C table₀.schema idx' x.2 k →
      HasKey C table₀.schema idx' tup k → Apart exempt db.session x.2 tup := by
    intro x hx hkx hky
    by_cases hown : exempt txn.txnId
    · exact .inr (.inl (hnew.version.xmin ▸ hown))
    by_cases hexx : exempt x.2.xmin
    · exact .inl hexx
    obtain ⟨hact, hinf, hall⟩ := (hmay.resolve_left hown) ⟨table₀, i, idx', ht, hi, htr, hu⟩
    have hnot : x.2.xmin ∉ db.mgr.abortedXids := fun h => hexx (hle _ h)
    have hcov := (hall x hx).resolve_left hnot
    refine .inr (.inr (.inl ?_))
    -- the entry of the version from before
    obtain ⟨k', hk', hcount⟩ := (hindexed ht hi htr).once x hx hexx
    obtain rfl := hk'.inj hkx
    have hentry : (k', x.1) ∈ c.entries table.name i :=
      List.count_pos_iff.mp (by rw [hcount]; exact Nat.one_pos)
    -- the key that the index was asked for
    obtain ⟨idx, hidx, hshape⟩ := TableMeta.get?_of_shape heq hi
    obtain ⟨-, -, hunique, htype⟩ := IndexMeta.of_shape hshape
    have hmem : (i, idx) ∈ table.indexes := Dict.mem_of_get? hidx
    have hkeyed := (hindexes _ hmem).2
    obtain ⟨key, hkey⟩ := hnew.exists_key hkeyed
    have htr' : tr table.name i idx.keyType := htype ▸ htr
    obtain ⟨k'', henters, hk''⟩ := hnew.key hkeyed hkey (hfaithful _ hmem htr' key hkey)
    rw [← (TableMeta.of_shape heq).2.1] at hk''
    obtain rfl := (hk''.shape hshape).inj hky
    by_cases hexcluded : some x.1 = ex
    · have hstamp := hold x.1 hexcluded.symm x.2 hx
      exact ⟨hstamp ▸ hinf, .inl (hstamp.trans hnew.version.xmin.symm)⟩
    · have hasked := (hunseen.resolve_left hown) (i, idx) hmem htr' (hunique.trans hu) key _ hkey henters
      have hmem' : x ∈ (c.add table.name (rid, tup)).tuples table.name := by
        rw [htuples]
        exact List.mem_append_left _ hx
      have hsees := hasked x.1 x.2 hentry hexcluded hmem'
      obtain ⟨hmax, hdeleted, hcovered⟩ := xmax_of_unseen hnot hcov hsees
      rw [Superseded, hnew.version.xmin]
      exact ⟨hmax, hinv.precedes hn hact hdeleted hcovered⟩
  rw [htuples] at hx hy
  obtain hx | hx := List.mem_append.mp hx
  · obtain hy | hy := List.mem_append.mp hy
    · exact h ht hi htr hu x hx y hy hne k hkx hky
    · obtain rfl := List.mem_singleton.mp hy
      exact hpair x hx hkx hky
  · obtain rfl := List.mem_singleton.mp hx
    obtain hy | hy := List.mem_append.mp hy
    · exact (hpair y hy hky hkx).symm
    · obtain rfl := List.mem_singleton.mp hy
      exact absurd rfl hne

theorem MayAdd.evolves (h : MayAdd tr exempt db txn t c) (he : Evolves db.mgr txn t c c')
    (hxid : txn.snapshot.xid = txn.txnId) : MayAdd tr exempt db txn t c' := by
  refine h.imp_right fun h hu => ?_
  obtain ⟨hact, hinf, hall⟩ := h hu
  refine ⟨hact, hinf, fun x hx => ?_⟩
  obtain ⟨hown, -⟩ | ⟨old, hold, hsucc⟩ := he.origin x hx
  · exact .inr (.inl (hown.trans hxid.symm))
  · have hbefore := hall _ hold
    rwa [← hsucc.xmin] at hbefore

/-- A stamp and a new version. -/
theorem AllApart.replace {old : RID} {raw stamped : Tuple}
    (h : AllApart C tr exempt db.catalog db.session c) (hs : Sound C tr db v) (hc : Current db table)
    (hinv : db.session.Inv) (hn : db.session.txns n = some txn)
    (hnodup : ((c.tuples table.name).map (·.1)).Nodup)
    (hindexed : AllIndexed C tr exempt db.catalog c) (hstamp : Stamped db.mgr table txn c old raw stamped)
    (hnew : NewRow C table txn (c.set table.name old stamped) values valueMap rid tup)
    (hfaithful : FaithfulKeys C tr table valueMap) (hmay : MayAdd tr exempt db txn table.name c)
    (hle : ∀ n ∈ db.mgr.abortedXids, exempt n)
    (hunseen : exempt txn.txnId ∨ KeysUnseen C tr db.mgr txn.snapshot
      ((c.set table.name old stamped).add table.name (rid, tup)) table.name valueMap (some old)
      table.indexes) :
    AllApart C tr exempt db.catalog db.session
      ((c.set table.name old stamped).add table.name (rid, tup)) := by
  obtain ⟨hid, hxid, -⟩ := hinv.handle hn
  have hmay' := hmay.evolves (evolves_set hnodup hstamp) (hxid.trans hid.symm)
  refine (h.set hnodup hstamp hle).add hs hc hinv hn (hindexed.set hnodup hstamp) hnew hfaithful hmay' hle
    ?_ hunseen
  intro old' heq' raw' hraw'
  obtain rfl := Option.some.inj heq'
  have htuples : (c.set table.name old stamped).tuples table.name =
      HeapFile.overwrite (c.tuples table.name) old stamped := Function.update_self _ _ _
  rw [htuples, overwrite_eq] at hraw'
  obtain ⟨z, -, heq⟩ := List.mem_map.mp hraw'
  rw [Prod.mk.injEq] at heq
  rw [← heq.2, if_pos heq.1]
  exact (withXmax_ok hstamp.stamp).2.1

/-- A row that is written as a whole. -/
theorem RowStep.allApart {a : RowAct} (h : RowStep C tr db.mgr table txn a c c') (hs : Sound C tr db v)
    (hc : Current db table) (hinv : db.session.Inv) (hn : db.session.txns n = some txn)
    (hnodup : ((c.tuples table.name).map (·.1)).Nodup) (hgood : ActGood C tr table c a)
    (hindexed : AllIndexed C tr exempt db.catalog c) (hapart : AllApart C tr exempt db.catalog db.session c)
    (hmay : (∃ rid, a = .delete rid) ∨ MayAdd tr exempt db txn table.name c)
    (hle : ∀ n ∈ db.mgr.abortedXids, exempt n) : AllApart C tr exempt db.catalog db.session c' := by
  cases h with
  | insert new unseen =>
    have hmay' := hmay.resolve_left fun ⟨_, heq⟩ => by cases heq
    exact (hapart.add hs hc hinv hn hindexed new hgood hmay' hle
      (fun _ h => by cases h) (.inr unseen)).congr
      (Content.tuples_addKeys ..)
  | update stamp assigned new unseen =>
    have hmay' := hmay.resolve_left fun ⟨_, heq⟩ => by cases heq
    have hfaithful := hgood.2 _ stamp.mem _ assigned
    exact (hapart.replace hs hc hinv hn hnodup hindexed stamp new hfaithful hmay' hle (.inr unseen)).congr
      (Content.tuples_addKeys ..)
  | delete stamp => exact hapart.set hnodup stamp hle

/-- A row that is written in part, by an exempt transaction, or in a table without tracked
    indexes. -/
theorem RowPart.allApart {taken : Prop} {a : RowAct} (h : RowPart C db.mgr table txn taken a c c')
    (hs : Sound C tr db v) (hc : Current db table) (hinv : db.session.Inv)
    (hn : db.session.txns n = some txn) (hnodup : ((c.tuples table.name).map (·.1)).Nodup)
    (hgood : ActGood C tr table c a) (hindexed : AllIndexed C tr exempt db.catalog c)
    (hapart : AllApart C tr exempt db.catalog db.session c)
    (hmay : (∃ rid, a = .delete rid) ∨ MayAdd tr exempt db txn table.name c)
    (hle : ∀ n ∈ db.mgr.abortedXids, exempt n)
    (htaken : ¬taken → exempt txn.txnId ∨ ∀ x ∈ table.indexes, ¬tr table.name x.1 x.2.keyType) :
    AllApart C tr exempt db.catalog db.session c' := by
  -- nobody is asked where no index is tracked
  have hunseen : ∀ {c : Content} {valueMap : Dict Value} (ex : Option RID), ¬taken →
      exempt txn.txnId ∨ KeysUnseen C tr db.mgr txn.snapshot c table.name valueMap ex table.indexes :=
    fun _ hnot => (htaken hnot).imp_right fun hnone x hx htr => absurd htr (hnone x hx)
  cases h with
  | insert refused new m =>
    have hmay' := hmay.resolve_left fun ⟨_, heq⟩ => by cases heq
    exact (hapart.add hs hc hinv hn hindexed new hgood hmay' hle (fun _ h => by cases h)
      (hunseen none refused)).congr
      (Content.tuples_addKeys ..)
  | stamp stamp assigned named refused => exact hapart.set hnodup stamp hle
  | update refused stamp assigned new m =>
    have hmay' := hmay.resolve_left fun ⟨_, heq⟩ => by cases heq
    have hfaithful := hgood.2 _ stamp.mem _ assigned
    exact (hapart.replace hs hc hinv hn hnodup hindexed stamp new hfaithful hmay' hle
      (hunseen _ refused)).congr (Content.tuples_addKeys ..)

theorem RowSteps.allApart {acts : List RowAct} (h : RowSteps C tr db.mgr table txn acts c c')
    (hs : Sound C tr db v) (hc : Current db table) (hinv : db.session.Inv)
    (hn : db.session.txns n = some txn) (hnodup : ((c.tuples table.name).map (·.1)).Nodup)
    (hgood : ∀ a ∈ acts, ActGood C tr table c a) (hindexed : AllIndexed C tr exempt db.catalog c)
    (hapart : AllApart C tr exempt db.catalog db.session c)
    (hmay : (∀ a ∈ acts, ∃ rid, a = .delete rid) ∨ MayAdd tr exempt db txn table.name c)
    (hle : ∀ n ∈ db.mgr.abortedXids, exempt n) : AllApart C tr exempt db.catalog db.session c' := by
  obtain ⟨hid, hxid, -⟩ := hinv.handle hn
  induction h with
  | nil => exact hapart
  | @cons a as c c₁ c₂ step _ ih =>
    rw [List.forall_mem_cons] at hgood
    have hmay₁ := hmay.imp_left fun hall => hall a List.mem_cons_self
    have hevolves := step.evolves hnodup
    refine ih hevolves.nodup (fun b hb => step.actGood (hgood.2 b hb))
      (step.allIndexed hs hc hnodup hgood.1 hindexed)
      (step.allApart hs hc hinv hn hnodup hgood.1 hindexed hapart hmay₁ hle) ?_
    exact hmay.imp (fun hall b hb => hall b (List.mem_cons_of_mem _ hb))
      fun hmay => hmay.evolves hevolves (hxid.trans hid.symm)

/-! ## Statements -/

/-- A statement on rows. -/
theorem allApart_dispatch (hrows : stmt.OnRows) (hs : Sound C tr db v) (hinv : db.session.Inv)
    (hn : db.session.txns n = some txn) (hfaithful : StmtFaithful C tr stmt txn db)
    (hindexed : AllIndexed C tr exempt db.catalog v.toContent)
    (hapart : AllApart C tr exempt db.catalog db.session v.toContent)
    (hmay : ∀ t, stmt.fills = some t → MayAdd tr exempt db txn t v.toContent)
    (hle : ∀ n ∈ db.mgr.abortedXids, exempt n) :
    wpIf Room (dispatch C stmt txn)
      (fun _ db' => ∃ v', Sound C tr db' v' ∧ Within db db' ∧
        AllIndexed C tr exempt db'.catalog v'.toContent ∧
        AllApart C tr exempt db'.catalog db'.session v'.toContent)
      (fun _ db' => (exempt txn.txnId ∨ StmtAdmitted C tr txn db stmt ∨ ∀ table acts,
          Targets C txn db stmt table acts → ∀ x ∈ table.indexes, ¬tr table.name x.1 x.2.keyType) →
        ∃ v', Sound C tr db' v' ∧ Within db db' ∧
          AllIndexed C tr exempt db'.catalog v'.toContent ∧
          AllApart C tr exempt db'.catalog db'.session v'.toContent) db := by
  obtain ⟨hid, -, -, hfits⟩ := hinv.handle hn
  have htaken : StmtAdmitted C tr txn db stmt → StmtAdmitted C tr txn db stmt := id
  have hadds : ∀ {table acts}, Targets C txn db stmt table acts →
      (∀ a ∈ acts, ∃ rid, a = .delete rid) ∨ MayAdd tr exempt db txn table.name v.toContent := by
    intro table acts htargets
    cases htargets with
    | insert ht hresolved => exact .inr (hmay _ (congrArg some (hs.current ht).1.symm))
    | update ht hmatching hrids => exact .inr (hmay _ (congrArg some (hs.current ht).1.symm))
    | delete ht hmatching hrids =>
      refine .inl fun a ha => ?_
      obtain ⟨rid, -, rfl⟩ := List.mem_map.mp ha
      exact ⟨rid, rfl⟩
  -- the roots and the log have changed
  have hend : ∀ {db' : Database} {v' : View}, Within db db' →
      AllIndexed C tr exempt db.catalog v'.toContent →
      AllApart C tr exempt db.catalog db.session v'.toContent →
      AllIndexed C tr exempt db'.catalog v'.toContent ∧
        AllApart C tr exempt db'.catalog db'.session v'.toContent := fun hwithin hindexed hapart =>
    ⟨hindexed.of_shape hwithin.shape, (hapart.of_shape hwithin.shape).effect hinv
      (.unchanged hwithin.nextTxnId hwithin.activeXids hwithin.abortedXids hwithin.txns)⟩
  refine (wp_dispatch hrows hs (hid ▸ hfits) hfaithful htaken).mono ?_ ?_
  · rintro r db' - ⟨table, acts, v', htargets, hself, -, hsound, hwithin, hsteps⟩
    have hgood := htargets.actGood hs hself hfaithful
    have hc : Current db table := ⟨table, hself, rfl⟩
    have hnodup := (hs.layout.heap hself).nodup
    exact ⟨v', hsound, hwithin, hend hwithin (hsteps.allIndexed hs hc hnodup hgood hindexed)
      (hsteps.allApart hs hc hinv hn hnodup hgood hindexed hapart (hadds htargets) hle)⟩
  · rintro e db' - hfailed htaken
    obtain ⟨rfl, -⟩ | ⟨table, acts, v', htargets, hself, hsound, hwithin, hraised⟩ := hfailed
    · exact ⟨v, hs, .refl _, hindexed, hapart⟩
    · have hgood := htargets.actGood hs hself hfaithful
      have hmayActs := hadds htargets
      have hc : Current db table := ⟨table, hself, rfl⟩
      have hnodup := (hs.layout.heap hself).nodup
      obtain ⟨done, a, rest, c, rfl, hsteps, hpart⟩ := hraised
      rw [List.forall_mem_append, List.forall_mem_cons] at hgood
      have hmayDone := hmayActs.imp_left fun hall b hb => hall b (List.mem_append_left _ hb)
      have hindexed' := hsteps.allIndexed hs hc hnodup hgood.1 hindexed
      have hapart' := hsteps.allApart hs hc hinv hn hnodup hgood.1 hindexed hapart hmayDone hle
      refine ⟨v', hsound, hwithin, ?_⟩
      obtain ⟨heq, -⟩ | hpart := hpart
      · rw [← heq] at hindexed' hapart'
        exact hend hwithin hindexed' hapart'
      · have hevolves := hsteps.evolves hnodup
        have hgood' := hsteps.actGood hgood.2.1
        obtain ⟨hid', hxid, -⟩ := hinv.handle hn
        have hmayLast : (∃ rid, a = .delete rid) ∨ MayAdd tr exempt db txn table.name c :=
          hmayActs.imp (fun hall => hall a (List.mem_append_right _ List.mem_cons_self))
            fun hmay => hmay.evolves hevolves (hxid.trans hid'.symm)
        have hleft : ¬StmtAdmitted C tr txn db stmt →
            exempt txn.txnId ∨ ∀ x ∈ table.indexes, ¬tr table.name x.1 x.2.keyType := by
          intro hnot
          obtain hex | hadm | hnone := htaken
          · exact .inl hex
          · exact absurd hadm hnot
          · exact .inr (hnone table _ htargets)
        exact hend hwithin (hpart.allIndexed hs hc hevolves.nodup hgood' hindexed' hleft)
          (hpart.allApart hs hc hinv hn hevolves.nodup hgood' hindexed' hapart' hmayLast hle hleft)

/-! ## Calls -/

/-- A snapshot sees no two versions of a table with the same value in a column. -/
def SeenDistinct (db : Database) (snapshot : Snapshot) (t column : String) : Prop :=
  ∀ table rid rid' tup tup' value, db.catalog.tables.get? t = some table →
    Stored db t rid tup → Stored db t rid' tup' →
    sees db.mgr snapshot tup = true → sees db.mgr snapshot tup' = true →
    columnValue table.schema column tup = .ok value → columnValue table.schema column tup' = .ok value →
    rid = rid'

/-- A transaction sees what others have added to a table with a unique INT index, if they have not
    aborted. -/
def SeesAdded (db : Database) (txn : Transaction) (t : String) : Prop :=
  HasUnique intIndexes db.catalog t → txn.state = .active ∧ txn.txnId ≠ infinityTxn ∧
    ∀ rid tup, Stored db t rid tup → tup.xmin ∈ db.mgr.abortedXids ∨ txn.snapshot.Covers tup.xmin

/-- The calls that keep the values of unique indexes apart. -/
def KeepsUnique (db : Database) : Call → Prop
  | .execute (.createIndex _ t column true) _ =>
    db.mgr.hasActiveTransactions = false ∧ SeenDistinct db db.session.newTxn.snapshot t column
  | .execute stmt none => ∀ t txn db₁, stmt.fills = some t → begin db = .ok txn db₁ → SeesAdded db₁ txn t
  | .execute stmt (some n) => ∀ t txn, stmt.fills = some t → db.session.txns n = some txn →
      SeesAdded db txn t
  | _ => True

/-- The states that such calls lead to from a new database. -/
inductive UniqueRun (C : Conversions) : Database → Prop where
  | fresh : UniqueRun C fresh
  | call {db db' : Database} {c : Call} (h : UniqueRun C db) (step : Step C db c db')
      (keeps : KeepsIndexed C db c) (unique : KeepsUnique db c) : UniqueRun C db'

theorem UniqueRun.indexedRun (h : UniqueRun C db) : IndexedRun C db := by
  induction h with
  | fresh => exact .fresh
  | call _ step keeps _ ih => exact .call ih step keeps

theorem UniqueRun.reachable (h : UniqueRun C db) : Reachable C db := by
  induction h with
  | fresh => exact .fresh
  | call _ step _ _ ih => exact .call ih step

/-! ## The invariant -/

/-- The INT indexes agree with the heaps, and the versions under one key of a unique one are apart. -/
structure Separate (C : Conversions) (exempt : Nat → Prop) (db : Database) : Prop where
  inv : db.session.Inv
  view : ∃ v, Sound C intIndexes db v ∧ AllIndexed C intIndexes exempt db.catalog v.toContent ∧
    AllApart C intIndexes exempt db.catalog db.session v.toContent

theorem Separate.agreeing (h : Separate C exempt db) : Agreeing C exempt db := by
  obtain ⟨hi, v, hs, hindexed, -⟩ := h
  exact ⟨hi, v, hs, hindexed⟩

theorem Separate.mono (h : Separate C exempt db) (hle : ∀ n, exempt n → exempt' n) :
    Separate C exempt' db := by
  obtain ⟨hi, v, hs, hindexed, hapart⟩ := h
  exact ⟨hi, v, hs, hindexed.mono hle, hapart.mono hle⟩

/-- Other transactions. -/
theorem Separate.session {s : Session LogOp} (h : Separate C exempt db) (he : Session.Effect db.session s) :
    Separate C exempt { db with session := s } := by
  obtain ⟨hi, v, hs, hindexed, hapart⟩ := h
  exact ⟨hi.effect he, v, hs.congr rfl rfl, hindexed, hapart.effect hi he⟩

theorem separate_fresh : Separate C exempt fresh := by
  refine ⟨Session.fresh_inv, _, sound_fresh, ?_, ?_⟩
  · intro t table i idx ht
    cases ht
  · intro t table i idx ht
    cases ht

/-- A statement on rows keeps the versions apart, but for what it leaves when it raises. -/
theorem wp_dispatch_separate (h : Separate C exempt db) (hrows : stmt.OnRows)
    (hn : db.session.txns n = some txn) (hfaithful : StmtFaithful C intIndexes stmt txn db)
    (hadded : ∀ t, stmt.fills = some t → SeesAdded db txn t) (hle : ∀ n ∈ db.mgr.abortedXids, exempt n) :
    wpIf Room (dispatch C stmt txn) (fun _ db' => Separate C exempt db' ∧ Within db db')
      (fun _ db' => (exempt txn.txnId ∨ StmtAdmitted C intIndexes txn db stmt ∨ ∀ table acts,
          Targets C txn db stmt table acts → ∀ x ∈ table.indexes, x.2.keyType ≠ .int) →
        Separate C exempt db' ∧ Within db db') db := by
  obtain ⟨hi, v, hs, hindexed, hapart⟩ := h
  have hmay : ∀ t, stmt.fills = some t → MayAdd intIndexes exempt db txn t v.toContent := by
    refine fun t ht => .inr fun hu => ?_
    obtain ⟨hact, hinf, hall⟩ := hadded t ht hu
    obtain ⟨table, -, -, htable, -⟩ := hu
    exact ⟨hact, hinf, fun x hx => hall x.1 x.2 (hs.stored_iff.mpr ⟨⟨table, htable⟩, hx⟩)⟩
  refine (allApart_dispatch hrows hs hi hn hfaithful hindexed hapart hmay hle).mono ?_ ?_
  · rintro r db' - ⟨v', hs', hwithin, hindexed', hapart'⟩
    exact ⟨⟨hwithin.inv hi, v', hs', hindexed', hapart'⟩, hwithin⟩
  · rintro e db' - hfailed hleaves
    obtain ⟨v', hs', hwithin, hindexed', hapart'⟩ := hfailed hleaves
    exact ⟨⟨hwithin.inv hi, v', hs', hindexed', hapart'⟩, hwithin⟩

/-- The versions of a table do not depend on what is known of the indexes. -/
theorem Agreeing.separate {tr : Tracked} (h : Agreeing C exempt db) (hs : Sound C tr db v)
    (hapart : AllApart C intIndexes exempt db.catalog db.session v.toContent) : Separate C exempt db := by
  obtain ⟨hi, v', hs', hindexed⟩ := h
  refine ⟨hi, v', hs', hindexed, ?_⟩
  intro t table i idx ht
  have hsame : v'.tuples t = v.tuples t :=
    (EStateM.Result.ok.inj ((hs'.versions_eq ht).symm.trans (hs.versions_eq ht))).1
  rw [hsame]
  exact hapart ht

/-! ## CREATE TABLE and CREATE INDEX -/

/-- A new table has no indexes. -/
theorem AllApart.newTable {catalog : Catalog} {table : TableMeta} {p : Nat}
    (h : AllApart C tr exempt catalog s v.toContent) (hnone : table.indexes = []) :
    AllApart C tr exempt (catalog.setTable table) s (v.newTable table.name p).toContent := by
  intro t table' i idx ht hi htr
  by_cases heq : t = table.name
  · subst heq
    rw [Catalog.setTable, Dict.get?_set_self, Option.some.injEq] at ht
    rw [← ht, hnone] at hi
    cases hi
  · rw [Catalog.setTable, Dict.get?_set_ne (Ne.symm heq)] at ht
    have htuples : (v.newTable table.name p).tuples t = v.tuples t := Function.update_of_ne heq _ _
    rw [htuples]
    exact h ht hi htr

/-- A new index is on versions that are apart. -/
theorem AllApart.made {tr' : Tracked} {unique : Bool} {idx : IndexMeta}
    (h : AllApart C tr exempt db.catalog db.session v.toContent)
    (hmade : IndexMade C tr' t i column unique db v table idx db' v')
    (hnew : tr t i idx.keyType → unique = true → ∀ x ∈ v.tuples t, ∀ y ∈ v.tuples t, x.1 ≠ y.1 → ∀ k,
      HasKey C table.schema idx x.2 k → HasKey C table.schema idx y.2 k →
        Apart exempt db.session x.2 y.2) :
    AllApart C tr exempt db'.catalog db'.session v'.toContent := by
  intro tb table' ix idx' ht' hi' htr hu
  rw [hmade.same.tuples, hmade.session]
  by_cases htable : tb = t
  · subst htable
    obtain rfl := Option.some.inj (ht'.symm.trans hmade.get?.1)
    by_cases hindex : ix = i
    · subst hindex
      obtain rfl := Option.some.inj (hi'.symm.trans hmade.get?.2)
      exact hnew htr (hmade.unique_eq.symm.trans hu)
    · have hget : table.indexes.get? ix = some idx' := (Dict.get?_set_ne (Ne.symm hindex)).symm.trans hi'
      have hold := h hmade.found hget htr hu
      exact hold
  · rw [hmade.catalog, Catalog.setTable, hmade.name, Dict.get?_set_ne (Ne.symm htable)] at ht'
    exact h ht' hi' htr hu

/-- When no transaction is active, versions that a new one does not both see are apart. -/
theorem SeenDistinct.apart {idx : IndexMeta} (h : SeenDistinct db db.session.newTxn.snapshot t column)
    (hs : Sound C tr db v) (hi : db.session.Inv) (hissued : Issued db)
    (hidle : db.mgr.hasActiveTransactions = false) (ht : db.catalog.tables.get? t = some table)
    (hkeyed : Keyed table idx) (hcolumn : idx.column = column) (htype : idx.keyType = .int)
    (hle : ∀ n ∈ db.mgr.abortedXids, exempt n) {x y : RID × Tuple} (hx : x ∈ v.tuples t)
    (hy : y ∈ v.tuples t) (hne : x.1 ≠ y.1) (hkx : HasKey C table.schema idx x.2 k)
    (hky : HasKey C table.schema idx y.2 k) : Apart exempt db.session x.2 y.2 := by
  have hnone : db.mgr.activeXids = ∅ := by simpa [TransactionManager.hasActiveTransactions] using hidle
  have hstored : ∀ z ∈ v.tuples t, Stored db t z.1 z.2 := fun z hz => hs.stored_iff.mpr ⟨⟨table, ht⟩, hz⟩
  -- a version that is not seen
  have hunseen : ∀ z ∈ v.tuples t, ∀ w : Tuple, sees db.mgr db.session.newTxn.snapshot z.2 = false →
      exempt z.2.xmin ∨ Superseded db.session z.2 w := by
    intro z hz w hsees
    by_cases haborted : z.2.xmin ∈ db.mgr.abortedXids
    · exact .inl (hle _ haborted)
    · have hmin : z.2.xmin < db.mgr.nextTxnId := hissued.lt (hissued.xmin _ _ _ (hstored z hz))
      have hcov := Session.newTxn_covers hmin (by rw [← mgr, hnone]; exact Finset.notMem_empty _)
      obtain ⟨hmax, hdeleted, -⟩ := xmax_of_unseen haborted hcov hsees
      have hlt := hissued.lt ((hissued.xmax _ _ _ (hstored z hz)).resolve_left hmax)
      refine .inr ⟨hmax, .inr ⟨hlt, ?_, hdeleted, fun t x hx hact => ?_⟩⟩
      · rw [← mgr, hnone]
        exact Finset.notMem_empty _
      · have hactive := (hi.active_iff hx).mp hact
        rw [← mgr, hnone] at hactive
        exact absurd hactive (Finset.notMem_empty _)
  cases hsx : sees db.mgr db.session.newTxn.snapshot x.2 with
  | false =>
    obtain h | h := hunseen x hx y.2 hsx
    · exact .inl h
    · exact .inr (.inr (.inl h))
  | true =>
    cases hsy : sees db.mgr db.session.newTxn.snapshot y.2 with
    | false =>
      obtain h | h := hunseen y hy x.2 hsy
      · exact .inr (.inl h)
      · exact .inr (.inr (.inr h))
    | true =>
      -- both are seen: they have different values
      have hcol := hkeyed.column
      rw [htype] at hcol
      obtain ⟨m, hm, hvalue⟩ := exists_columnInt (hs.layout.conforms ht x hx) hcol
      obtain ⟨m', hm', hvalue'⟩ := exists_columnInt (hs.layout.conforms ht y hy) hcol
      have hkey : k = .int m := hkx.inj ⟨_, hvalue, htype ▸ storedAs_int C hm⟩
      have hkey' : k = .int m' := hky.inj ⟨_, hvalue', htype ▸ storedAs_int C hm'⟩
      obtain rfl : m = m' := RawKey.int.inj (hkey.symm.trans hkey')
      rw [hcolumn] at hvalue hvalue'
      exact absurd (h table x.1 y.1 x.2 y.2 _ ht (hstored x hx) (hstored y hy) hsx hsy hvalue hvalue') hne

/-- CREATE TABLE keeps the versions apart. -/
theorem Separate.createTable {columns : List Column} (h : Separate C (· ∈ db.mgr.abortedXids) db)
    (hroom : Room (after (executeCreateTable t columns) db)) :
    Separate C (· ∈ (after (executeCreateTable t columns) db).mgr.abortedXids)
      (after (executeCreateTable t columns) db) := by
  have hagree := h.agreeing.createTable hroom
  obtain ⟨hi, v, hs, hindexed, hapart⟩ := h
  revert hagree
  refine wp_after (P := fun db' => Room db' → Agreeing C (· ∈ db'.mgr.abortedXids) db' →
    Separate C (· ∈ db'.mgr.abortedXids) db') ?_ hroom
  refine wp.mono (wp_executeCreateTable hs) (fun _ db' h hroom hagree => ?_) fun _ db' h hroom _ => ?_
  · obtain ⟨hsession, -, hcatalog, hs'⟩ := h hroom
    refine hagree.separate hs' ?_
    rw [mgr, hsession, hcatalog]
    exact hapart.newTable rfl
  · rw [h hroom]
    exact ⟨hi, v, hs, hindexed, hapart⟩

/-- CREATE INDEX keeps the versions apart if no values of a unique one are seen twice. -/
theorem Separate.createIndex {unique : Bool} (h : Separate C (· ∈ db.mgr.abortedXids) db)
    (hissued : Issued db) (hkeeps : KeepsIndexed C db (.execute (.createIndex i t column unique) none))
    (hunique : unique = true → db.mgr.hasActiveTransactions = false ∧
      SeenDistinct db db.session.newTxn.snapshot t column)
    (hroom : Room (after (executeCreateIndex C i t column unique) db)) :
    Separate C (· ∈ (after (executeCreateIndex C i t column unique) db).mgr.abortedXids)
      (after (executeCreateIndex C i t column unique) db) := by
  have hagree := h.agreeing.createIndex hkeeps hroom
  have hstay := h
  obtain ⟨hi, v, hs, hindexed, hapart⟩ := h
  have hs₀ : Sound C never db v := ⟨hs.layout, nofun⟩
  have hmake : ∀ {db' table idx v'}, Agreeing C (· ∈ db'.mgr.abortedXids) db' →
      IndexMade C never t i column unique db v table idx db' v' →
      Separate C (· ∈ db'.mgr.abortedXids) db' := by
    intro db' table idx v' hagree hmade
    refine hagree.separate hmade.sound ?_
    have hab : db'.mgr.abortedXids = db.mgr.abortedXids :=
      congrArg (fun s : Session LogOp => s.mgr.abortedXids) hmade.session
    rw [hab]
    refine hapart.made hmade fun htype hu x hx y hy hne k hkx hky => ?_
    obtain ⟨hidle, hdistinct⟩ := hunique hu
    exact hdistinct.apart hs hi hissued hidle hmade.found hmade.keyed hmade.column_eq htype
      (fun _ h => h) hx hy hne hkx hky
  revert hagree
  refine wp_after (P := fun db' => Room db' → Agreeing C (· ∈ db'.mgr.abortedXids) db' →
    Separate C (· ∈ db'.mgr.abortedXids) db') ?_ hroom
  refine wp.mono (wp_executeCreateIndex hs₀ fun _ _ _ _ _ htr => htr.elim)
    (fun _ db' h hroom hagree => ?_) fun _ db' h hroom hagree => ?_
  · obtain ⟨table', idx, v', hmade, -⟩ := h hroom
    exact hmake hagree hmade
  · obtain rfl | ⟨table', idx, v', hmade, -⟩ := h hroom
    · exact hstay
    · exact hmake hagree hmade

/-! ## Runs -/

/-- A call on the manager. -/
theorem Separate.call (h : Separate C (· ∈ db.mgr.abortedXids) db) (c : TxnCall) :
    Separate C (· ∈ (db.session.step c).mgr.abortedXids) { db with session := db.session.step c } :=
  (h.session (db.session.step_effect c)).mono fun _ hn => db.session.abortedXids_subset c hn

/-- A statement in a transaction of its own: what it leaves when it raises is aborted. -/
theorem Separate.autocommit (h : Separate C (· ∈ db.mgr.abortedXids) db) (hrows : stmt.OnRows)
    (hfaithful : ∀ txn db₁, begin db = .ok txn db₁ → StmtFaithful C intIndexes stmt txn db₁)
    (hadded : ∀ t txn db₁, stmt.fills = some t → begin db = .ok txn db₁ → SeesAdded db₁ txn t)
    (hroom : Room (after (autocommit (dispatch C stmt)) db)) :
    Separate C (· ∈ (after (autocommit (dispatch C stmt)) db).mgr.abortedXids)
      (after (autocommit (dispatch C stmt)) db) := by
  cases hb : begin db with
  | error e db₁ =>
    rw [after_autocommit_error hb, after_begin]
    exact h.call .begin
  | ok txn db₁ =>
    have hstmt := hfaithful txn db₁ hb
    have hadded₁ := fun t ht => hadded t txn db₁ ht hb
    obtain ⟨rfl, rfl, hlt, hfound⟩ := begin_eq_ok hb
    have hbegun := h.call .begin
    generalize hdb₁ : ({ db with session := db.session.step .begin } : Database) = db₁ at *
    have hmgr : (db.session.step .begin).mgr = db₁.mgr := by rw [← hdb₁]; rfl
    rw [hmgr] at hbegun
    cases hm : dispatch C stmt db.session.newTxn db₁ with
    | ok r db₂ =>
      rw [after_autocommit_ok hb hm] at hroom ⊢
      rw [commit, after_onManager] at hroom
      obtain ⟨hsep, hwithin⟩ :=
        (wp_dispatch_separate hbegun hrows hfound hstmt hadded₁ fun _ h => h).ok hm hroom
      rw [← hwithin.abortedXids] at hsep
      rw [← hwithin.txns] at hfound
      rw [after_commit hfound]
      exact hsep.call _
    | error e db₂ =>
      rw [after_autocommit_raised hb hm] at hroom ⊢
      rw [abort, after_onManager] at hroom
      have hexempt : Separate C (fun n => n ∈ db₁.mgr.abortedXids ∨ n = db.session.newTxn.txnId) db₁ :=
        hbegun.mono fun _ => .inl
      obtain ⟨hsep, hwithin⟩ := (wp_dispatch_separate hexempt hrows hfound hstmt hadded₁
        fun _ => .inl).error hm hroom (.inl (.inr rfl))
      rw [← hwithin.abortedXids] at hsep
      rw [← hwithin.txns] at hfound
      rw [after_abort hfound]
      refine (hsep.session (db₂.session.step_effect _)).mono ?_
      rintro n (hn | rfl)
      · exact db₂.session.abortedXids_subset _ hn
      · exact Session.mem_abortedXids_step_abort hfound rfl hlt

/-- A statement in a transaction of its caller. -/
theorem Separate.rows (stmt : Statement) (h : Separate C (· ∈ db.mgr.abortedXids) db)
    (hrows : stmt.OnRows) (hn : db.session.txns n = some txn)
    (hfaithful : StmtFaithful C intIndexes stmt txn db) (hleaves : LeavesIndexed C txn db stmt)
    (hadded : ∀ t, stmt.fills = some t → SeesAdded db txn t)
    (hroom : Room (after (dispatch C stmt txn) db)) :
    Separate C (· ∈ (after (dispatch C stmt txn) db).mgr.abortedXids)
      (after (dispatch C stmt txn) db) := by
  refine wp_after (P := fun db' => Room db' → Separate C (· ∈ db'.mgr.abortedXids) db') ?_ hroom
  refine wp.mono (wp_dispatch_separate h hrows hn hfaithful hadded fun _ h => h) ?_ ?_
  · rintro r db' hdone hroom
    obtain ⟨hsep, hwithin⟩ := hdone hroom
    rwa [← hwithin.abortedXids] at hsep
  · rintro e db' hfailed hroom
    obtain ⟨hsep, hwithin⟩ := hfailed hroom hleaves
    rwa [← hwithin.abortedXids] at hsep

/-- A call that keeps the values of unique indexes apart. -/
theorem Separate.step {c : Call} (h : Separate C (· ∈ db.mgr.abortedXids) db) (hissued : Issued db)
    (hstep : Step C db c db') (hkeeps : KeepsIndexed C db c) (hunique : KeepsUnique db c)
    (hroom : Room db') : Separate C (· ∈ db'.mgr.abortedXids) db' := by
  cases hstep with
  | begin =>
    rw [after_begin]
    exact h.call _
  | commit ht =>
    rw [after_commit ht]
    exact h.call _
  | abort ht =>
    rw [after_abort ht]
    exact h.call _
  | execute stmt =>
    cases stmt with
    | createTable t columns => exact h.createTable hroom
    | createIndex i t column unique => exact h.createIndex hissued hkeeps (fun heq => by subst heq; exact hunique) hroom
    | insert t columns rows => exact Separate.autocommit h trivial hkeeps hunique hroom
    | update t assignments where_ => exact Separate.autocommit h trivial hkeeps hunique hroom
    | delete t where_ => exact Separate.autocommit h trivial hkeeps hunique hroom
  | executeIn stmt ht =>
    cases stmt with
    | createTable t columns => exact h.createTable hroom
    | createIndex i t column unique => exact h.createIndex hissued hkeeps (fun heq => by subst heq; exact hunique) hroom
    | insert t columns rows =>
      obtain ⟨hfaithful, hleaves⟩ := hkeeps _ ht
      exact h.rows (.insert t columns rows) trivial ht hfaithful hleaves (fun t hfills => hunique t _ hfills ht)
        hroom
    | update t assignments where_ =>
      obtain ⟨hfaithful, hleaves⟩ := hkeeps _ ht
      exact h.rows (.update t assignments where_) trivial ht hfaithful hleaves
        (fun t hfills => hunique t _ hfills ht) hroom
    | delete t where_ =>
      obtain ⟨hfaithful, hleaves⟩ := hkeeps _ ht
      exact h.rows (.delete t where_) trivial ht hfaithful hleaves nofun hroom
  | select raises =>
    cases hb : Database.begin db with
    | error e db₁ =>
      rw [after_autocommit_error hb, after_begin]
      exact h.call _
    | ok txn db₁ =>
      obtain ⟨rfl, rfl, -, hfound⟩ := begin_eq_ok hb
      obtain heq | heq := after_autocommit (query raises) hb
      · rw [heq, after_query, after_commit hfound]
        exact (h.call .begin).call _
      · rw [heq, after_query, after_abort hfound]
        exact (h.call .begin).call _
  | selectIn => exact h
  | checkpoint =>
    obtain ⟨wal, heq⟩ := checkpoint_after db
    rw [heq]
    exact h.session (.unchanged rfl rfl rfl rfl)
  | reopen none => exact hkeeps.elim

theorem UniqueRun.separate (h : UniqueRun C db) (hroom : Room db) :
    Separate C (· ∈ db.mgr.abortedXids) db := by
  induction h with
  | fresh => exact separate_fresh
  | call h step keeps unique ih =>
    have hroom' := step.room hroom
    exact (ih hroom').step (h.reachable.issued hroom') step keeps unique hroom

/-- Of two versions that are apart, a transaction sees one at most. -/
theorem Apart.not_seen {x' : Transaction} (h : Apart (· ∈ db.mgr.abortedXids) db.session x y)
    (hx : x' = db.session.newTxn ∨ ∃ n, db.session.txns n = some x' ∧ x'.state = .active)
    (hsx : sees db.mgr x'.snapshot x = true) : sees db.mgr x'.snapshot y = false := by
  have hnot : ∀ {x y : Tuple}, sees db.mgr x'.snapshot x = true → sees db.mgr x'.snapshot y = true →
      ¬Superseded db.session x y := by
    intro x y hsx hsy hsup
    obtain ⟨-, hmax⟩ := TransactionManager.isVisible_iff.mp hsx
    obtain ⟨⟨haborted, hmin⟩, -⟩ := TransactionManager.isVisible_iff.mp hsy
    obtain ⟨hinf, hwho⟩ := hsup
    obtain hmax | hmax | hmax := hmax
    · exact hinf hmax
    · obtain heq | hearlier := hwho
      · exact haborted (heq ▸ hmax)
      · exact hearlier.not_aborted hmax
    · obtain heq | hearlier := hwho
      · exact hmax (heq ▸ hmin)
      · apply hmax
        obtain rfl | ⟨n, hn, hact⟩ := hx
        · exact Session.newTxn_covers hearlier.lt hearlier.not_active
        · exact hearlier.covered n x' hn hact hmin
  rw [Bool.eq_false_iff]
  intro hsy
  obtain h | h | h | h := h
  · exact (TransactionManager.isVisible_iff.mp hsx).1.1 h
  · exact (TransactionManager.isVisible_iff.mp hsy).1.1 h
  · exact hnot hsx hsy h
  · exact hnot hsy hsx h

/-- In every state of such a run, an active transaction, or one that begins, sees no value of a
    unique INT index in two rows. -/
theorem UniqueRun.seenDistinct {idx : IndexMeta} {x : Transaction} (h : UniqueRun C db) (hroom : Room db)
    (ht : db.catalog.tables.get? t = some table) (hi : table.indexes.get? i = some idx)
    (htype : idx.keyType = .int) (hunique : idx.unique = true)
    (hx : x = db.session.newTxn ∨ ∃ n, db.session.txns n = some x ∧ x.state = .active) :
    SeenDistinct db x.snapshot t idx.column := by
  obtain ⟨-, v, hs, -, hapart⟩ := h.separate hroom
  intro table' rid rid' tup tup' value ht' hstored hstored' hsees hsees' hvalue hvalue'
  obtain rfl := Option.some.inj (ht.symm.trans ht')
  have hmem := (hs.stored_iff.mp hstored).2
  have hmem' := (hs.stored_iff.mp hstored').2
  have hcol := (hs.layout.keyed ht hi).column
  rw [htype] at hcol
  obtain ⟨m, hm, hint⟩ := exists_columnInt (hs.layout.conforms ht _ hmem) hcol
  obtain rfl := Except.ok.inj (hint.symm.trans hvalue)
  have hkey : BPlusTree.StoredAs C idx.keyType (.int m) (.int m) := htype ▸ storedAs_int C hm
  by_contra hne
  have hdistinct := hapart ht hi htype hunique (rid, tup) hmem (rid', tup') hmem' hne (.int m)
    ⟨_, hvalue, hkey⟩ ⟨_, hvalue', hkey⟩
  rw [hdistinct.not_seen hx hsees] at hsees'
  cases hsees'

theorem uniqueRun_indexedSeven : UniqueRun .integral indexedSeven := by
  have htable : UniqueRun .integral oneTable :=
    .call .fresh (.execute (.createTable "t" [⟨"a", .int⟩])) trivial fun _ _ _ h => by cases h
  have hindex : UniqueRun .integral oneIndex := by
    refine .call htable (.execute _) keeps_oneIndex ⟨by decide +kernel, ?_⟩
    intro table rid rid' tup tup' value _ hstored
    have hempty : contents "t" oneTable = [] := by decide +kernel
    rw [stored_iff_mem_contents, hempty] at hstored
    cases hstored
  refine .call hindex (.execute _) keeps_insertSeven ?_
  intro t txn db₁ ht hb _
  cases ht
  obtain ⟨rfl, rfl, -⟩ := begin_eq_ok hb
  refine ⟨rfl, by decide +kernel, fun rid tup hstored => ?_⟩
  have hempty : contents "t" { oneIndex with session := oneIndex.session.step .begin } = [] := by
    decide +kernel
  rw [stored_iff_mem_contents, hempty] at hstored
  cases hstored

theorem seenDistinct_indexedSeven :
    SeenDistinct indexedSeven indexedSeven.session.newTxn.snapshot "t" "a" :=
  UniqueRun.seenDistinct (i := "i") uniqueRun_indexedSeven room_indexedSeven table_indexedSeven rfl rfl rfl
    (.inl rfl)

end Database
end Minirel
