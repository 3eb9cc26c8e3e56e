-- SUMMARY: INSERT, UPDATE and DELETE change what their transaction sees as they say.
import Minirel.OwnView

/-!
# What a statement says and what its transaction sees

An INSERT adds its rows, a DELETE takes away the rows it has matched, and an UPDATE puts for
each of them the row with the assigned columns replaced. Rows are compared as the values they
decode to, under their RIDs.
-/

namespace Minirel

/-- A field is written once more as it was. -/
theorem encodeValue_value (C : Conversions) (cell : Cell) :
    encodeValue C cell.value cell.type = .ok cell := by
  cases cell with
  | int i fits =>
    simp only [Cell.value, Cell.type, encodeValue, Conversions.toInt, bind, Except.bind, fits]
    rfl
  | float x => rfl
  | bool b => rfl
  | text s fits =>
    simp only [Cell.value, Cell.type, encodeValue, Conversions.toStr]
    exact dif_pos fits

namespace Database

variable {C : Conversions} {tr : Tracked} {db db' : Database} {v v' : View} {table : TableMeta}
  {txn : Transaction} {t : String} {schema : Schema} {given : List (String × Value)}
  {values : List Value} {valueMap : Dict Value} {cells old new : List Cell}
  {assignments : List (String × Expr)}

/-! ## Rows of values -/

/-- The assignments of an UPDATE with their values. -/
def assignedValues (assignments : List (String × Expr)) : Except PyError (List (String × Value)) :=
  assignments.mapM fun (name, e) => do return (name, ← evaluateLiteral e)

/-- The values that are given for the columns are of their types. -/
def WellTyped (C : Conversions) (schema : Schema) (given : List (String × Value)) : Prop :=
  ∀ col ∈ schema.columns, ∀ value, (Dict.ofList given).get? col.name = some value →
    Survives C value col.type

/-- A row has in every column the value given for it. -/
def Holds (schema : Schema) (given : List (String × Value)) (row : List Value) : Prop :=
  List.Forall₂ (fun col w => ∃ value, (Dict.ofList given).get? col.name = some value ∧
    w.eq value = true) schema.columns row

/-- A row has in the given columns the values given for them, and is otherwise as it was. -/
def Replaced (schema : Schema) (given : List (String × Value)) (old new : List Value) : Prop :=
  List.Forall₂ (fun (y : Column × Value) w =>
    match (Dict.ofList given).get? y.1.name with
    | some value => w.eq value = true
    | none => w = y.2) (schema.fields old) new

theorem forall₂_of_getElem? {α β : Type} {R : α → β → Prop} {l : List α} {l' : List β}
    (hlen : l.length = l'.length)
    (h : ∀ (n : Nat) (a : α) (b : β), l[n]? = some a → l'[n]? = some b → R a b) :
    List.Forall₂ R l l' :=
  List.forall₂_iff_get.mpr ⟨hlen, fun n h₁ h₂ =>
    h n _ _ (List.getElem?_eq_getElem h₁) (List.getElem?_eq_getElem h₂)⟩

/-- The field of one column, and the value it was made of. -/
theorem encoded_field (hnamed : schema.names.mapM (lookup valueMap) = .ok values)
    (hencode : encodeRow C values schema = .ok cells) {n : Nat} {col : Column} {w : Value}
    (hcol : schema.columns[n]? = some col) (hw : (cells.map Cell.value)[n]? = some w) :
    ∃ value cell, valueMap.get? col.name = some value ∧ encodeValue C value col.type = .ok cell ∧
      w = cell.value := by
  obtain ⟨value, cell, hvalue, hcell, hcode⟩ := encodeRow_getElem? hencode hcol
  have hmap := congrArg (·[n]?) (mapM_eq_ok.mp hnamed)
  simp only [Schema.names, List.getElem?_map, hcol, hvalue, Option.map_some, Option.some.injEq] at hmap
  rw [List.getElem?_map, hcell] at hw
  exact ⟨value, cell, lookup_eq_ok.mp hmap, hcode, (Option.some.inj hw).symm⟩

/-- What an INSERT stores for a row. -/
theorem holds_of_encode (hnamed : schema.names.mapM (lookup (.ofList given)) = .ok values)
    (hencode : encodeRow C values schema = .ok cells) (hwell : WellTyped C schema given) :
    Holds schema given (cells.map Cell.value) := by
  refine forall₂_of_getElem? ?_ fun n col w hcol hw => ?_
  · simpa using (congrArg List.length (encodeRow_types hencode)).symm
  · obtain ⟨value, cell, hvalue, hcode, rfl⟩ := encoded_field hnamed hencode hcol hw
    have hsurvives := hwell col (List.mem_of_getElem? hcol) value hvalue
    exact ⟨value, hvalue, (encodeValue_survives hcode).mpr hsurvives⟩

/-- The loop over the assignments. -/
theorem assign_eq_ok {valueMap' : Dict Value} (h : assign valueMap assignments = .ok valueMap') :
    ∃ given, assignedValues assignments = .ok given ∧ valueMap' = valueMap.update given := by
  have hloop : assignments.foldlM (fun (out : Dict Value) (x : String × Expr) =>
      do return out.set x.1 (← evaluateLiteral x.2)) valueMap = .ok valueMap' := h
  obtain ⟨pairs, rfl, hpairs, rfl⟩ := Dict.of_foldlM_set hloop
  refine ⟨_, mapM_eq_ok.mpr ?_, rfl⟩
  rw [List.map_map, List.map_map]
  refine List.map_congr_left fun x hx => ?_
  simp only [Function.comp, hpairs x hx]
  rfl

/-- What an UPDATE stores for a row. -/
theorem UpdatedFrom.replaced (h : UpdatedFrom C table assignments old new)
    (htypes : old.map Cell.type = table.schema.columns.map (·.type)) (hnodup : table.schema.names.Nodup)
    (hwell : ∀ given, assignedValues assignments = .ok given → WellTyped C table.schema given) :
    ∃ given, assignedValues assignments = .ok given ∧
      Replaced table.schema given (old.map Cell.value) (new.map Cell.value) := by
  obtain ⟨valueMap, values, hassign, hnamed, hencode⟩ := h
  obtain ⟨given, hgiven, rfl⟩ := assign_eq_ok hassign
  have hold : old.length = table.schema.columns.length := by simpa using congrArg List.length htypes
  have hnew : new.length = table.schema.columns.length := by
    simpa using congrArg List.length (encodeRow_types hencode)
  refine ⟨given, hgiven, forall₂_of_getElem? ?_ fun n y w hy hw => ?_⟩
  · simp [Schema.fields, hold, hnew]
  · obtain ⟨col, u⟩ := y
    obtain ⟨hcol, hu⟩ := List.getElem?_zip_eq_some.mp hy
    obtain ⟨value, cell, hvalue, hcode, rfl⟩ := encoded_field hnamed hencode hcol hw
    have hget := hvalue
    rw [Dict.get?_update, ← Dict.get?_ofList] at hget
    dsimp only
    cases hassigned : (Dict.ofList given).get? col.name with
    | some value' =>
      rw [hassigned] at hget
      obtain rfl : value' = value := Option.some.inj hget
      have hsurvives := hwell given hgiven col (List.mem_of_getElem? hcol) value' hassigned
      exact (encodeValue_survives hcode).mpr hsurvives
    | none =>
      rw [hassigned, Option.none_or] at hget
      have hmem : (col.name, u) ∈ table.schema.names.zip (old.map Cell.value) := by
        refine List.mem_of_getElem? (i := n) (List.getElem?_zip_eq_some.mpr ⟨?_, hu⟩)
        rw [Schema.names, List.getElem?_map, hcol]
        rfl
      have hkeys : ((table.schema.names.zip (old.map Cell.value)).map (·.1)).Nodup := by
        rw [List.map_fst_zip (by simp [Schema.names, hold])]
        exact hnodup
      obtain rfl : u = value := Option.some.inj ((Dict.get?_ofList_of_mem hkeys hmem).symm.trans hget)
      -- the field is written once more as it was
      rw [List.getElem?_map] at hu
      obtain ⟨cell', hcell', rfl⟩ := Option.map_eq_some_iff.mp hu
      have htype : cell'.type = col.type := by
        have hn := congrArg (·[n]?) htypes
        simpa [hcell', hcol] using hn
      rw [← htype, encodeValue_value] at hcode
      exact congrArg Cell.value (Except.ok.inj hcode).symm

/-! ## The rows that a transaction sees -/

/-- The rows of a table that a transaction sees, as a scan of the heap reads them. -/
def rowsSeen (t : String) (txn : Transaction) : DbM (List (RID × List Value)) := do
  let table ← getTable t
  let tuples ← versions t
  let db ← get
  lift ((seen db.mgr txn.snapshot tuples).mapM fun (rid, raw) => do
    return (rid, ← decodeRow (tuplePayload raw) table.schema))

theorem Sound.rowsSeen_eq (hs : Sound C tr db v) (ht : db.catalog.tables.get? t = some table) :
    rowsSeen t txn db = .ok ((seen db.mgr txn.snapshot (v.tuples t)).map rowAt) db := by
  have htable : getTable t db = .ok table db := by
    rw [getTable, getTable_eq_ok.mpr ht]
    rfl
  have hrows : (seen db.mgr txn.snapshot (v.tuples t)).mapM (fun (rid, raw) =>
      (do return (rid, ← decodeRow (tuplePayload raw) table.schema) : Except PyError _)) =
      .ok ((seen db.mgr txn.snapshot (v.tuples t)).map rowAt) := by
    refine mapM_eq_ok.mpr ?_
    rw [List.map_map]
    refine List.map_congr_left fun x hx => ?_
    have hdecode : decodeRow (tuplePayload x.2) table.schema = .ok (rowValues x.2) :=
      decodeRow_eq (hs.layout.conforms ht x (List.mem_of_mem_filter hx)).types
    simp only [hdecode]
    rfl
  have hlift : lift _ db = .ok ((seen db.mgr txn.snapshot (v.tuples t)).map rowAt) db :=
    congrArg (fun x => lift x db) hrows
  unfold rowsSeen
  simp only [bind, EStateM.bind, htable, hs.versions_eq ht]
  exact hlift

/-- Of the rows of a table that a transaction sees some go and others come, and in the other
    tables nothing changes. -/
structure Exchanges (t : String) (txn : Transaction) (db db' : Database)
    (olds news : List (RID × List Value)) : Prop where
  rows : ∃ before after rest, rowsSeen t txn db = .ok before db ∧ rowsSeen t txn db' = .ok after db' ∧
    before.Perm (olds ++ rest) ∧ after.Perm (rest ++ news)
  others : ∀ t', t' ≠ t → ∀ rows, rowsSeen t' txn db = .ok rows db → rowsSeen t' txn db' = .ok rows db'

theorem Within.seen (h : Within db db') (snapshot : Snapshot) :
    seen db'.mgr snapshot = seen db.mgr snapshot := by
  funext tuples
  exact List.filter_congr fun x _ => h.sees snapshot x.2

/-- A table with the same versions as before. -/
theorem Sound.rowsSeen_same (hs : Sound C tr db v) (hs' : Sound C tr db' v') (hwithin : Within db db')
    (htuples : v'.tuples t = v.tuples t) {rows : List (RID × List Value)}
    (hrows : rowsSeen t txn db = .ok rows db) : rowsSeen t txn db' = .ok rows db' := by
  cases hfound : db.catalog.tables.get? t with
  | none =>
    have htable : getTable t db = .error (.tableNotFoundError t) db := by
      simp only [getTable, Catalog.getTable, hfound, lift]
    unfold rowsSeen at hrows
    simp only [bind, EStateM.bind, htable] at hrows
    cases hrows
  | some other =>
    obtain ⟨other', hfound', -⟩ := Catalog.get?_of_shape hwithin.shape.symm hfound
    rw [hs.rowsSeen_eq hfound] at hrows
    cases hrows
    rw [hs'.rowsSeen_eq hfound', hwithin.seen, htuples]

/-- What rows that were all written do to the view of their transaction. -/
theorem Written.exchanges {acts : List RowAct} (h : Written C tr acts db v table txn db' v')
    (hs : Sound C tr db v) (ht : db.catalog.tables.get? table.name = some table)
    {olds news rest : List (RID × Tuple)}
    (hbefore : (seen db.mgr txn.snapshot (v.tuples table.name)).Perm (olds ++ rest))
    (hafter : (seen db.mgr txn.snapshot (v'.tuples table.name)).Perm (rest ++ news)) :
    Exchanges table.name txn db db' (olds.map rowAt) (news.map rowAt) := by
  have hevolves := h.steps.evolves (hs.layout.heap ht).nodup
  obtain ⟨table', ht', -⟩ := Catalog.get?_of_shape h.within.shape.symm ht
  refine ⟨⟨_, _, rest.map rowAt, hs.rowsSeen_eq ht, h.sound.rowsSeen_eq ht', ?_, ?_⟩,
    fun t' hne rows hrows => ?_⟩
  · rw [← List.map_append]
    exact hbefore.map _
  · rw [h.within.seen, ← List.map_append]
    exact hafter.map _
  · exact hs.rowsSeen_same h.sound h.within (hevolves.other t' hne) hrows

/-! ## The rows that a statement matches -/

/-- The rows that the plan of a statement yields, and the rows that the transaction sees under
    their RIDs. -/
structure Matches (C : Conversions) (table : TableMeta) (where_ : Option Expr) (txn : Transaction)
    (db : Database) (matched : List Row) (olds : List (RID × List Value)) : Prop where
  run : matching C table where_ txn db = .ok matched db
  rids : matched.map rowRid = olds.map fun x => .ok x.1

/-- Rows under distinct RIDs, and some of them. -/
theorem perm_append_filter {α : Type} {l olds : List (RID × α)} (hl : (l.map (·.1)).Nodup)
    (holds : (olds.map (·.1)).Nodup) (hsub : ∀ x ∈ olds, x ∈ l) :
    l.Perm (olds ++ l.filter fun x => decide (x.1 ∉ olds.map (·.1))) := by
  have hin : (l.filter fun x => decide (x.1 ∈ olds.map (·.1))).Perm olds := by
    refine (List.perm_ext_iff_of_nodup ((hl.of_map _).filter _) (holds.of_map _)).mpr fun x => ?_
    rw [List.mem_filter, decide_eq_true_iff]
    constructor
    · rintro ⟨hx, hrid⟩
      obtain ⟨y, hy, heq⟩ := List.mem_map.mp hrid
      rwa [← List.inj_on_of_nodup_map hl (hsub y hy) hx heq]
    · exact fun hx => ⟨hsub x hx, List.mem_map_of_mem hx⟩
  have hsplit := List.filter_append_perm (fun x : RID × α => decide (x.1 ∈ olds.map (·.1))) l
  simp only [← decide_not] at hsplit
  exact hsplit.symm.trans (hin.append_right _)

/-- A statement matches versions that its transaction sees, each of them once. -/
theorem Sound.exists_matched {where_ : Option Expr} {rows : List Row} {rids : List RID}
    (hs : Sound C tr db v) (ht : db.catalog.tables.get? table.name = some table)
    (hrows : Database.matching C table where_ txn db = .ok rows db) (hrids : rows.map rowRid = rids.map .ok) :
    ∃ olds : List (RID × Tuple), olds.map (·.1) = rids ∧ rids.Nodup ∧
      ∀ x ∈ olds, x ∈ seen db.mgr txn.snapshot (v.tuples table.name) := by
  have hinj : ∀ {rids₁ : List RID}, rows.map rowRid = rids₁.map .ok → rids₁ = rids := fun h =>
    List.map_injective_iff.mpr (fun _ _ => Except.ok.inj) (h.symm.trans hrids)
  have hrun : onPages (rowSource C db.mgr txn.snapshot table table.name where_) db = .ok rows db := hrows
  obtain ⟨rids₁, hrids₁, hnodup⟩ :=
    Layout.rowSource_nodup hs.layout ht (onPages_reads (reads_rowSource _ _ _ _ _) hrun)
  obtain ⟨rids₂, hrooted, hseen⟩ := exists_rooted (matching_readFrom hs ht hrows)
  obtain rfl := hinj hrids₁
  obtain rfl := hinj hrooted.1
  choose tuple hmem hsees using hseen
  refine ⟨rids₂.attach.map fun rid => (rid.1, tuple rid.1 rid.2), ?_, hnodup, fun x hx => ?_⟩
  · rw [List.map_map]
    exact List.attach_map_subtype_val rids₂
  · obtain ⟨rid, -, rfl⟩ := List.mem_map.mp hx
    exact List.mem_filter.mpr ⟨hmem rid.1 rid.2, hsees rid.1 rid.2⟩

/-! ## What a statement says -/

/-- What a statement on rows says it does to the rows that its transaction sees, and the number of
    rows it returns. -/
inductive DoesWhatItSays (C : Conversions) (txn : Transaction) (db : Database) (r : ExecuteResult)
    (db' : Database) : Statement → Prop where
  | insert {t : String} {columns : Option (List String)} {exprs : List (List Expr)} {table : TableMeta}
      {news : List (RID × List Value)} (ht : db.catalog.getTable t = .ok table)
      (rows : Exchanges t txn db db' [] news) (count : r.rowCount = exprs.length)
      (made : List.Forall₂ (fun es (x : RID × List Value) => ∃ given,
        givenValues (namedColumns table.schema columns) es = .ok given ∧
          Holds table.schema given x.2) exprs news) :
      DoesWhatItSays C txn db r db' (.insert t columns exprs)
  | update {t : String} {assignments : List (String × Expr)} {where_ : Option Expr} {table : TableMeta}
      {matched : List Row} {olds news : List (RID × List Value)} (ht : db.catalog.getTable t = .ok table)
      (found : Matches C table where_ txn db matched olds) (rows : Exchanges t txn db db' olds news)
      (count : r.rowCount = matched.length)
      (made : List.Forall₂ (fun (x y : RID × List Value) => ∃ given,
        assignedValues assignments = .ok given ∧ Replaced table.schema given x.2 y.2) olds news) :
      DoesWhatItSays C txn db r db' (.update t assignments where_)
  | delete {t : String} {where_ : Option Expr} {table : TableMeta} {matched : List Row}
      {olds : List (RID × List Value)} (ht : db.catalog.getTable t = .ok table)
      (found : Matches C table where_ txn db matched olds) (rows : Exchanges t txn db db' olds [])
      (count : r.rowCount = matched.length) :
      DoesWhatItSays C txn db r db' (.delete t where_)

/-- The values in a statement are of the types of their columns, and no two columns of the table
    that it writes them to have one name. -/
def StmtWellTyped (C : Conversions) (db : Database) : Statement → Prop
  | .insert t columns exprs => ∀ table, db.catalog.getTable t = .ok table →
      table.schema.names.Nodup ∧ ∀ es ∈ exprs, ∀ given,
        givenValues (namedColumns table.schema columns) es = .ok given → WellTyped C table.schema given
  | .update t assignments _ => ∀ table, db.catalog.getTable t = .ok table →
      table.schema.names.Nodup ∧ ∀ given, assignedValues assignments = .ok given →
        WellTyped C table.schema given
  | _ => True

/-- The WHERE of the statement matches no row. -/
def MatchesNone (C : Conversions) (txn : Transaction) (db : Database) : Statement → Prop
  | .update t _ where_ | .delete t where_ => ∀ table, db.catalog.getTable t = .ok table →
      matching C table where_ txn db = .ok [] db
  | _ => True

section
variable {acts : List RowAct} {r : ExecuteResult} {stmt : Statement} {columns : Option (List String)}
  {exprs : List (List Expr)} {rows : List (List Value)} {matched : List Row} {rids : List RID}
  {where_ : Option Expr}

/-- An INSERT. -/
theorem Written.does_insert (h : Written C tr (rows.map .insert) db v table txn db' v')
    (hs : Sound C tr db v) (hself : db.catalog.tables.get? table.name = some table)
    (hrun : Running db.mgr txn) (hrows : resolveInsertValues C table.schema columns exprs = .ok rows)
    (hcount : r.rowCount = (rows.map RowAct.insert).length)
    (hwell : StmtWellTyped C db (.insert table.name columns exprs)) :
    DoesWhatItSays C txn db r db' (.insert table.name columns exprs) := by
  have ht : db.catalog.getTable table.name = .ok table := getTable_eq_ok.mpr hself
  obtain ⟨news, htuples, hids, hnews⟩ := h.steps.inserted
  have hseen : seen db.mgr txn.snapshot (v'.tuples table.name) =
      seen db.mgr txn.snapshot (v.tuples table.name) ++ news := by
    rw [htuples, seen, List.filter_append]
    refine congrArg₂ _ rfl (List.filter_eq_self.mpr fun x hx => ?_)
    exact hrun.sees_new (hids x hx).1 (hids x hx).2
  have hresolved : List.Forall₂ (fun es values =>
      resolveRow C table.schema (namedColumns table.schema columns) es = .ok values) exprs rows :=
    forall₂_of_mapM hrows
  have hbefore : (seen db.mgr txn.snapshot (v.tuples table.name)).Perm
      ([] ++ seen db.mgr txn.snapshot (v.tuples table.name)) := .refl _
  refine .insert ht (h.exchanges hs hself hbefore (.of_eq hseen)) ?_ ?_
  · rw [hcount, List.length_map, hresolved.length_eq]
  · refine List.forall₂_map_right_iff.mpr ?_
    have hmade := forall₂_comp ((List.forall₂_and_left _ _).mpr ⟨fun es hes => hes, hresolved⟩) hnews
    refine hmade.imp ?_
    rintro es x ⟨values, ⟨hes, hvalues⟩, hencode⟩
    obtain ⟨given, hgiven, hnamed⟩ := of_resolveRow hvalues
    exact ⟨given, hgiven, holds_of_encode hnamed hencode ((hwell table ht).2 es hes given hgiven)⟩

theorem Matches.of_rids {olds : List (RID × Tuple)}
    (hmatched : matching C table where_ txn db = .ok matched db)
    (hrids : matched.map rowRid = rids.map .ok) (holds : olds.map (·.1) = rids) :
    Matches C table where_ txn db matched (olds.map rowAt) := by
  refine ⟨hmatched, ?_⟩
  rw [hrids, ← holds, List.map_map, List.map_map]
  rfl

theorem RowSteps.of_nil {mgr : TransactionManager LogOp} {c c' : Content}
    (h : RowSteps C tr mgr table txn [] c c') : c' = c := by
  cases h
  rfl

/-- A DELETE, in a transaction with an id of its own, or of no row. -/
theorem Written.does_delete (h : Written C tr (rids.map .delete) db v table txn db' v')
    (hs : Sound C tr db v) (hself : db.catalog.tables.get? table.name = some table)
    (hrun : Running db.mgr txn) (hmatched : matching C table where_ txn db = .ok matched db)
    (hrids : matched.map rowRid = rids.map .ok) (hcount : r.rowCount = (rids.map RowAct.delete).length)
    (hcond : txn.txnId ≠ infinityTxn ∨ rids = []) :
    DoesWhatItSays C txn db r db' (.delete table.name where_) := by
  obtain ⟨olds, rfl, hnodup, hsub⟩ := hs.exists_matched hself hmatched hrids
  have hseen : seen db.mgr txn.snapshot (v'.tuples table.name) =
      (seen db.mgr txn.snapshot (v.tuples table.name)).filter
        fun x => decide (x.1 ∉ olds.map (·.1)) := by
    obtain hinf | hnone := hcond
    · exact h.steps.seen_deletes hrun hinf
    · have hsteps := h.steps
      rw [hnone] at hsteps ⊢
      rw [hsteps.of_nil]
      simp
  have hall : ((seen db.mgr txn.snapshot (v.tuples table.name)).map (·.1)).Nodup :=
    (hs.layout.heap hself).nodup.sublist (List.filter_sublist.map _)
  have hafter : (seen db.mgr txn.snapshot (v'.tuples table.name)).Perm
      ((seen db.mgr txn.snapshot (v.tuples table.name)).filter
        (fun x => decide (x.1 ∉ olds.map (·.1))) ++ []) := by
    rw [hseen, List.append_nil]
  refine .delete (getTable_eq_ok.mpr hself) (.of_rids hmatched hrids rfl)
    (h.exchanges hs hself (perm_append_filter hall hnodup hsub) hafter) ?_
  simpa [hcount] using (congrArg List.length hrids).symm

/-- An UPDATE, in a transaction with an id of its own, or of no row. -/
theorem Written.does_update (h : Written C tr (rids.map (.update assignments)) db v table txn db' v')
    (hs : Sound C tr db v) (hself : db.catalog.tables.get? table.name = some table)
    (hrun : Running db.mgr txn) (hmatched : matching C table where_ txn db = .ok matched db)
    (hrids : matched.map rowRid = rids.map .ok)
    (hcount : r.rowCount = (rids.map (RowAct.update assignments)).length)
    (hwell : StmtWellTyped C db (.update table.name assignments where_))
    (hcond : txn.txnId ≠ infinityTxn ∨ rids = []) :
    DoesWhatItSays C txn db r db' (.update table.name assignments where_) := by
  have ht : db.catalog.getTable table.name = .ok table := getTable_eq_ok.mpr hself
  have hheap := hs.layout.heap hself
  obtain ⟨olds, rfl, hnodup, hsub⟩ := hs.exists_matched hself hmatched hrids
  have hmem : ∀ x ∈ olds, x ∈ v.tuples table.name := fun x hx => List.mem_of_mem_filter (hsub x hx)
  obtain ⟨news, hseen, hmade⟩ : ∃ news, seen db.mgr txn.snapshot (v'.tuples table.name) =
        (seen db.mgr txn.snapshot (v.tuples table.name)).filter
          (fun x => decide (x.1 ∉ olds.map (·.1))) ++ news ∧
      List.Forall₂ (fun rid (x : RID × Tuple) => ∃ raw, (rid, raw) ∈ v.tuples table.name ∧
        UpdatedFrom C table assignments raw.payload x.2.payload) (olds.map (·.1)) news := by
    obtain hinf | hnone := hcond
    · refine h.steps.seen_updates hrun hinf fun rid hrid => ?_
      obtain ⟨x, hx, rfl⟩ := List.mem_map.mp hrid
      exact ⟨x.2, hmem x hx⟩
    · have hsteps := h.steps
      rw [hnone] at hsteps ⊢
      rw [hsteps.of_nil]
      exact ⟨[], by simp, .nil⟩
  have hall : ((seen db.mgr txn.snapshot (v.tuples table.name)).map (·.1)).Nodup :=
    hheap.nodup.sublist (List.filter_sublist.map _)
  refine .update ht (.of_rids hmatched hrids rfl)
    (h.exchanges hs hself (perm_append_filter hall hnodup hsub) (.of_eq hseen)) ?_ ?_
  · simpa [hcount] using (congrArg List.length hrids).symm
  · rw [List.forall₂_map_left_iff] at hmade
    rw [List.forall₂_map_left_iff, List.forall₂_map_right_iff]
    refine ((List.forall₂_and_left _ _).mpr ⟨hmem, hmade⟩).imp ?_
    rintro x y ⟨hx, raw, hraw, hupdated⟩
    rw [← eq_of_nodup hheap.nodup hx hraw] at hupdated
    exact hupdated.replaced (hs.layout.conforms hself x hx).types (hwell table ht).1 (hwell table ht).2

/-- As many rows go as there are more before, as many come as there are more afterwards. -/
theorem Exchanges.length_eq {olds news : List (RID × List Value)}
    (h : Exchanges table.name txn db db' olds news) (hs : Sound C tr db v) (hs' : Sound C tr db' v')
    (hwithin : Within db db') (hself : db.catalog.tables.get? table.name = some table) :
    (seen db.mgr txn.snapshot (v'.tuples table.name)).length + olds.length =
      (seen db.mgr txn.snapshot (v.tuples table.name)).length + news.length := by
  obtain ⟨before, after, rest, hbefore, hafter, hgone, hcome⟩ := h.rows
  obtain ⟨table', ht', -⟩ := Catalog.get?_of_shape hwithin.shape.symm hself
  rw [hs.rowsSeen_eq hself] at hbefore
  rw [hs'.rowsSeen_eq ht', hwithin.seen] at hafter
  cases hbefore
  cases hafter
  have h₁ := hgone.length_eq
  have h₂ := hcome.length_eq
  simp only [List.length_map, List.length_append] at h₁ h₂
  omega

/-- Every matched version is among those that are seen. -/
theorem Sound.matched_seen (hs : Sound C tr db v)
    (hself : db.catalog.tables.get? table.name = some table)
    (hmatched : Database.matching C table where_ txn db = .ok matched db)
    (hrids : matched.map rowRid = rids.map .ok) :
    ∀ rid ∈ rids, rid ∈ ((seen db.mgr txn.snapshot (v.tuples table.name)).map rowAt).map (·.1) := by
  obtain ⟨olds, rfl, -, hsub⟩ := hs.exists_matched hself hmatched hrids
  intro rid hrid
  obtain ⟨x, hx, rfl⟩ := List.mem_map.mp hrid
  rw [List.map_map]
  exact List.mem_map_of_mem (hsub x hx)

/-- With the id that means "not deleted", a statement that does what it says has matched no row. -/
theorem Done.matchesNone (h : Done C tr stmt txn db v r db') (hs : Sound C tr db v)
    (hrun : Running db.mgr txn) (hinf : txn.txnId = infinityTxn)
    (hdoes : DoesWhatItSays C txn db r db' stmt) : MatchesNone C txn db stmt := by
  obtain ⟨table, acts, v', htargets, hself, -, hsound, hwithin, hsteps⟩ := h
  have hnodup := (hs.layout.heap hself).nodup
  cases htargets with
  | insert ht hrows => trivial
  | @update t _ where_ _ rows rids ht hrows hrids =>
    have hname : table.name = t := (hs.current ht).1
    subst hname
    cases hdoes with
    | update ht' found exchanged count made =>
      obtain rfl := Except.ok.inj (ht.symm.trans ht')
      obtain ⟨news, hnews, hseen⟩ := hsteps.seen_rows_updates hrun hinf hnodup (hs.matched_seen hself hrows hrids)
      have hlen := exchanged.length_eq hs hsound hwithin hself
      have hboth := congrArg List.length hseen
      simp only [List.length_map, List.length_append, hnews] at hboth
      have hnone : rids = [] := List.eq_nil_of_length_eq_zero (by have := made.length_eq; omega)
      rw [hnone, List.map_nil, List.map_eq_nil_iff] at hrids
      intro table' ht''
      obtain rfl := Except.ok.inj (ht.symm.trans ht'')
      rw [← hrids]
      exact hrows
  | @delete t where_ _ rows rids ht hrows hrids =>
    have hname : table.name = t := (hs.current ht).1
    subst hname
    cases hdoes with
    | delete ht' found exchanged count =>
      obtain rfl := Except.ok.inj (ht.symm.trans ht')
      have hseen := hsteps.seen_rows_deletes hinf hnodup (hs.matched_seen hself hrows hrids)
      have hlen := exchanged.length_eq hs hsound hwithin hself
      have hboth := congrArg List.length hseen
      have hfound := congrArg List.length found.rids
      have hrows' := found.run
      simp only [List.length_map, List.length_nil] at hboth hlen hfound
      have hnone := List.eq_nil_of_length_eq_zero (l := _) (hfound.trans (by omega))
      intro table' ht''
      obtain rfl := Except.ok.inj (ht.symm.trans ht'')
      rw [← hnone]
      exact hrows'

/-- A statement of a running transaction that has returned. -/
theorem Done.does_iff (h : Done C tr stmt txn db v r db') (hs : Sound C tr db v)
    (hrun : Running db.mgr txn) (hwell : StmtWellTyped C db stmt) :
    DoesWhatItSays C txn db r db' stmt ↔ txn.txnId ≠ infinityTxn ∨ MatchesNone C txn db stmt := by
  constructor
  · intro hdoes
    by_cases hinf : txn.txnId = infinityTxn
    · exact .inr (h.matchesNone hs hrun hinf hdoes)
    · exact .inl hinf
  · intro hcond
    obtain ⟨table, acts, v', htargets, hself, hcount, hwritten⟩ := h
    have hnone : ∀ {where_ : Option Expr} {rows : List Row} {rids : List RID},
        matching C table where_ txn db = .ok rows db → rows.map rowRid = rids.map .ok →
        matching C table where_ txn db = .ok [] db → rids = [] := by
      intro where_ rows rids hrows hrids hempty
      cases hrows.symm.trans hempty
      exact List.map_eq_nil_iff.mp hrids.symm
    cases htargets with
    | insert ht hrows =>
      obtain rfl := (hs.current ht).1
      exact hwritten.does_insert hs hself hrun hrows hcount hwell
    | update ht hrows hrids =>
      obtain rfl := (hs.current ht).1
      exact hwritten.does_update hs hself hrun hrows hrids hcount hwell
        (hcond.imp id fun h => hnone hrows hrids (h table ht))
    | delete ht hrows hrids =>
      obtain rfl := (hs.current ht).1
      exact hwritten.does_delete hs hself hrun hrows hrids hcount
        (hcond.imp id fun h => hnone hrows hrids (h table ht))

/-- INSERT, UPDATE and DELETE do what they say to the view of their transaction if and only if the
    id of the transaction is not the one that means "not deleted", or they match no row. -/
theorem doesWhatItSays_iff (h : Reachable C db) {n : Nat} (ht : db.session.txns n = some txn)
    (hactive : txn.state = .active) (hrows : stmt.OnRows) (hwell : StmtWellTyped C db stmt)
    (hrun : execute C stmt (some txn) db = .ok r db') (hroom : Room db') :
    DoesWhatItSays C txn db r db' stmt ↔ txn.txnId ≠ infinityTxn ∨ MatchesNone C txn db stmt := by
  have hroom₀ : Room db := by
    rw [← after_ok hrun] at hroom
    exact (Step.executeIn (C := C) stmt ht).room hroom
  obtain ⟨hi, v, hs⟩ := h.good hroom₀
  obtain ⟨hid, -, -, hlt⟩ := hi.handle ht
  have hrunning := running_of_active hi ht hactive
  have htaken : False → StmtAdmitted C never txn db stmt := False.elim
  have hwp := wp_dispatch hrows hs (hid ▸ hlt) (stmtFaithful_never C stmt txn db) htaken
  rw [execute_some] at hrun
  exact (hwp.ok hrun hroom).does_iff hs hrunning hwell

end

/-! ## An UPDATE, and a DELETE with the last id -/

/-- UPDATE t SET a = 8 -/
def updateEight : Statement := .update "t" [("a", .literal (.int 8))] none

theorem doesWhatItSays_eight : ∃ r db',
    execute .integral updateEight (some oneRow.session.newTxn) (after begin oneRow) = .ok r db' ∧
    DoesWhatItSays .integral oneRow.session.newTxn (after begin oneRow) r db' updateEight := by
  have hbegun : Reachable .integral (after begin oneRow) :=
    .call (.call reachable_oneTable (.execute insertSeven)) .begin
  have hfound : (after begin oneRow).session.txns 2 = some oneRow.session.newTxn := by decide +kernel
  have htable : (match (after begin oneRow).catalog.getTable "t" with
      | .ok table => decide (table.schema = ⟨[⟨"a", .int⟩]⟩)
      | .error _ => true) = true := by
    decide +kernel
  have hreturns : (match execute .integral updateEight (some oneRow.session.newTxn)
        (after begin oneRow) with
      | .ok _ db' => decide (db'.pages.length < invalidPageId)
      | .error _ _ => false) = true := by
    decide +kernel
  have hwell : StmtWellTyped .integral (after begin oneRow) updateEight := by
    intro table ht
    rw [ht] at htable
    have hschema : table.schema = ⟨[⟨"a", .int⟩]⟩ := of_decide_eq_true htable
    rw [hschema]
    refine ⟨by decide, fun given hgiven col hcol value hvalue => ?_⟩
    obtain rfl := List.mem_singleton.mp hcol
    cases hgiven
    cases hvalue
    exact ⟨8, by decide⟩
  split at hreturns
  · rename_i r db' hrun
    have hroom : db'.pages.length < invalidPageId := of_decide_eq_true hreturns
    refine ⟨r, db', hrun, ?_⟩
    have hrows : updateEight.OnRows := trivial
    exact (doesWhatItSays_iff hbegun hfound rfl hrows hwell hrun hroom).mpr (.inl (by decide +kernel))
  · cases hreturns

/-- Transactions that do nothing use up ids. -/
theorem Reachable.spend (h : Reachable C db) (hi : db.session.Inv) {n : Nat}
    (hle : db.mgr.nextTxnId + n ≤ 2 ^ 32) :
    ∃ s : Session LogOp, Reachable C { db with session := s } ∧ s.Inv ∧
      s.mgr.nextTxnId = db.mgr.nextTxnId + n ∧ s.mgr.activeXids = db.mgr.activeXids ∧
      s.mgr.abortedXids = db.mgr.abortedXids := by
  induction n with
  | zero => exact ⟨db.session, h, hi, rfl, rfl, rfl⟩
  | succ n ih =>
    obtain ⟨s, hreach, hinv, hnext, hactive, haborted⟩ := ih (by omega)
    have hlt : s.mgr.nextTxnId < 2 ^ 32 := by omega
    have hb : begin { db with session := s } = _ := begin_eq hlt
    obtain ⟨-, -, -, hfound⟩ := begin_eq_ok hb
    have hcommitted := after_commit hfound
    obtain ⟨txn', hc⟩ := commit_eq hfound rfl hlt
    obtain ⟨hnext', hactive', haborted'⟩ := step_commit hfound rfl hlt
    have hrun : autocommit (query false) { db with session := s } = .ok () _ :=
      autocommit_eq_ok.mpr ⟨_, _, _, txn', hb, rfl, hc⟩
    have hstep := hreach.call (.select false)
    rw [after_ok hrun] at hstep
    have hbegin := Session.step_begin hlt
    refine ⟨_, hstep, (hinv.step .begin).step _, hnext'.trans ?_, hactive'.trans ?_, haborted'.trans ?_⟩
    · rw [hbegin]
      exact (congrArg (· + 1) hnext).trans (Nat.add_assoc _ n 1)
    · rw [hbegin, ← hactive]
      exact Finset.erase_insert fun hmem => lt_irrefl _ (hinv.active_lt hmem)
    · rw [hbegin, ← haborted]

/-- DELETE FROM t, where the only version is not deleted. -/
theorem Sound.delete_returns {tup : Tuple} {rid : RID} (hs : Sound C tr db v) (hid : txn.txnId < 2 ^ 32)
    (ht : db.catalog.tables.get? table.name = some table) (htuples : v.tuples table.name = [(rid, tup)])
    (hsees : sees db.mgr txn.snapshot tup = true) (hxmax : tup.xmax = infinityTxn) :
    ∃ r db', executeDelete C table.name none txn db = .ok r db' ∧
      Done C tr (.delete table.name none) txn db v r db' ∧
      ¬MatchesNone C txn db (.delete table.name none) := by
  have hget : db.catalog.getTable table.name = .ok table := getTable_eq_ok.mpr ht
  have hseen : seen db.mgr txn.snapshot (v.tuples table.name) = [(rid, tup)] := by
    rw [htuples]
    exact List.filter_eq_self.mpr fun x hx => List.mem_singleton.mp hx ▸ hsees
  have hsource := hs.rowSource_all (C := C) ht txn.snapshot
  rw [hseen] at hsource
  have hmatching : Database.matching C table none txn db =
      .ok [rowOf table.name table.schema (rid, tup)] db := onPages_eq_ok.mpr ⟨_, hsource, rfl⟩
  obtain ⟨rids, hrooted⟩ := hs.matching ht hmatching
  have hwp : wp (executeDelete C table.name none txn) (Done C tr (.delete table.name none) txn db v)
      (fun _ db' => Failed C tr False (.delete table.name none) txn db v db') db :=
    wp_executeDelete hs hid
  cases hrun : executeDelete C table.name none txn db with
  | ok r db' =>
    refine ⟨r, db', rfl, hwp.ok hrun, fun hnone => ?_⟩
    cases hmatching.symm.trans (hnone table hget)
  | error e db' =>
    obtain ⟨-, hnot⟩ | ⟨table', acts, v', htargets, -, hraised⟩ := hwp.error hrun
    · exact absurd (.delete hget hmatching hrooted.1) (hnot table (rids.map .delete))
    · obtain ⟨done, a, rest, c, hacts, hsteps, hend⟩ := hraised.steps
      cases htargets with
      | @delete _ _ _ rows rids' hget' hrows hrids =>
        obtain rfl := Except.ok.inj (hget.symm.trans hget')
        cases hmatching.symm.trans hrows
        have hlen : (rids'.map RowAct.delete).length = 1 := by
          simpa using (congrArg List.length hrids).symm
        rw [hacts, List.length_append, List.length_cons] at hlen
        obtain rfl : done = [] := List.eq_nil_of_length_eq_zero (by omega)
        obtain rfl := hsteps.of_nil
        have ha : a ∈ rids'.map RowAct.delete := by
          rw [hacts]
          exact List.mem_cons_self
        obtain ⟨rid', -, rfl⟩ := List.mem_map.mp ha
        obtain ⟨-, hrefused⟩ | hpart := hend
        · cases hrefused with
          | conflict act mem refused =>
            rw [htuples] at mem
            cases List.mem_singleton.mp mem
            rw [TransactionManager.checkWriteConflict_ok_iff.mpr (.inl hxmax)] at refused
            cases refused
        · cases hpart

/-- DELETE FROM t in transaction 2 ** 32 - 1 leaves the row to be seen. -/
theorem delete_leaves_row : ∃ db txn r db', Reachable .integral db ∧
    db.session.txns infinityTxn = some txn ∧ txn.state = .active ∧
    execute .integral (.delete "t" none) (some txn) db = .ok r db' ∧
    ¬DoesWhatItSays .integral txn db r db' (.delete "t" none) := by
  have hreach : Reachable .integral oneRow := .call reachable_oneTable (.execute insertSeven)
  have hroom : Room oneRow := by
    have hlength : oneRow.pages.length < invalidPageId := by decide +kernel
    exact hlength
  obtain ⟨hi, v, hs⟩ := hreach.good hroom
  have hids : oneRow.mgr.nextTxnId = 2 ∧ oneRow.mgr.activeXids = ∅ ∧ oneRow.mgr.abortedXids = ∅ := by
    decide +kernel
  obtain ⟨hnext, hactive, haborted⟩ := hids
  obtain ⟨s, hspent, hinv, hnext', hactive', haborted'⟩ :=
    hreach.spend (n := infinityTxn - 2) hi (by rw [hnext]; decide)
  have hid : s.mgr.nextTxnId = infinityTxn := hnext'.trans (by rw [hnext]; decide)
  have hlt : s.mgr.nextTxnId < 2 ^ 32 := by
    rw [hid]
    decide
  have hb : begin { oneRow with session := s } = _ := begin_eq hlt
  obtain ⟨-, -, -, hfound⟩ := begin_eq_ok hb
  have hbegun := hspent.call .begin
  rw [after_ok hb] at hbegun
  obtain ⟨table, ht, -⟩ := found_oneRow
  have hname : table.name = "t" := hs.layout.name_eq ht
  have htuples : v.tuples "t" = [(⟨0, 0⟩, ⟨1, infinityTxn, [.int 7 (by decide)], by decide, by decide⟩)] := by
    have hcontents : contents "t" oneRow =
        [(⟨0, 0⟩, ⟨1, infinityTxn, [.int 7 (by decide)], by decide, by decide⟩)] := by decide +kernel
    rw [← hcontents, contents, hs.versions_eq ht]
  have hs' : Sound .integral never { oneRow with session := s.step .begin } v := hs.congr rfl rfl
  have hmgr : (s.step .begin).mgr.abortedXids = ∅ := by
    rw [Session.step_begin hlt]
    exact haborted'.trans haborted
  have hrunning : Running (s.step .begin).mgr s.newTxn := ⟨rfl, by rw [hmgr]; exact Finset.notMem_empty _⟩
  have hsees : sees (s.step .begin).mgr s.newTxn.snapshot
      (⟨1, infinityTxn, [.int 7 (by decide)], by decide, by decide⟩ : Tuple) = true := by
    rw [sees]
    dsimp only [unpackTupleHeader]
    rw [TransactionManager.isVisible_iff, Snapshot.committedBefore_iff, hmgr]
    refine ⟨⟨Finset.notMem_empty _, .inr ⟨?_, ?_⟩⟩, .inl rfl⟩
    · change 1 < s.mgr.nextTxnId
      rw [hid]
      decide
    · change 1 ∉ s.mgr.activeXids
      rw [hactive', hactive]
      exact Finset.notMem_empty _
  rw [← hname] at ht htuples
  obtain ⟨r, db', hrun, hdone, hsome⟩ := hs'.delete_returns (show s.newTxn.txnId < 2 ^ 32 from hlt) ht htuples
    hsees rfl
  rw [hname] at hrun hdone hsome
  have hfound' : (s.step .begin).txns infinityTxn = some s.newTxn := by
    rw [← hid]
    exact hfound
  exact ⟨_, s.newTxn, r, db', hbegun, hfound', rfl, hrun,
    fun hdoes => hsome (hdone.matchesNone hs' hrunning hid hdoes)⟩

end Database
end Minirel
