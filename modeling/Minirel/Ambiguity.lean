-- SUMMARY: When an unqualified name resolves after a join as the resolution rule says.
import Minirel.Joins

/-!
# Unqualified names after a join

The rule of `expr.py`: an unqualified name stands for the column of the one table that has
it, and is rejected when both have it. The merged row keeps one bare key of the two, so a
shared name is not seen to be ambiguous.
-/

namespace Minirel

variable {alias_ leftAlias rightAlias name key : String} {schema left right : Schema} {rid : RID}
  {raw : Tuple} {values leftValues rightValues : List Value} {row l r : Row}

/-! ## The rule -/

/-- The columns of a tuple with their values. -/
def columnItems (schema : Schema) (values : List Value) : List (String × RowItem) :=
  (schema.columns.zip values).map fun (col, val) => (col.name, .value val)

/-- What a tuple holds in a column, if the table has it. Of two columns with one name the later
    one counts. -/
def tableValue (schema : Schema) (values : List Value) (name : String) : Option RowItem :=
  (Dict.ofList (columnItems schema values)).get? name

/-- What an unqualified name resolves to where the left or the right table has it. -/
def ResolvesByRule (left right : Option RowItem) (found : Except PyError RowItem) : Prop :=
  match left, right with
  | some v, none | none, some v => found = .ok v
  | some _, some _ => ∃ msg, found = .error (.ambiguousColumnError msg)
  | none, none => ∃ msg, found = .error (.columnNotFoundError msg)

/-! ## The row of one table -/

theorem Dict.get?_update_eq_or {α : Type} (d : Dict α) (items : List (String × α)) (key : String) :
    (d.update items).get? key = ((Dict.ofList items).get? key).or (d.get? key) := by
  rw [Dict.get?_update, Dict.get?_ofList]

/-- The columns of a tuple under their qualified names. -/
def qualifiedItems (alias_ : String) (schema : Schema) (values : List Value) : List (String × RowItem) :=
  (schema.columns.zip values).map fun (col, val) => (s!"{alias_}.{col.name}", .value val)

theorem rowFromTuple_eq (hvalues : decodeRow (tuplePayload raw) schema = .ok values)
    (h : rowFromTuple alias_ schema rid raw = .ok row) :
    row = ((Dict.ofList (qualifiedItems alias_ schema values)).update (columnItems schema values)).set
      ridKey (.rid rid) := by
  rw [rowFromTuple, hvalues] at h
  cases h
  rfl

theorem rowFromTuple_get? (hvalues : decodeRow (tuplePayload raw) schema = .ok values)
    (h : rowFromTuple alias_ schema rid raw = .ok row) (hkey : key ≠ ridKey) :
    row.get? key = (tableValue schema values key).or
      ((Dict.ofList (qualifiedItems alias_ schema values)).get? key) := by
  rw [rowFromTuple_eq hvalues h, Dict.get?_set_ne (Ne.symm hkey), Dict.get?_update_eq_or]
  rfl

theorem rowFromTuple_nodup (hvalues : decodeRow (tuplePayload raw) schema = .ok values)
    (h : rowFromTuple alias_ schema rid raw = .ok row) : row.keys.Nodup := by
  rw [rowFromTuple_eq hvalues h]
  have hqualified : (Dict.ofList (qualifiedItems alias_ schema values)).keys.Nodup :=
    Dict.nodup_keys_update (show (Dict.keys []).Nodup from List.nodup_nil) _
  exact Dict.nodup_keys_set (Dict.nodup_keys_update hqualified _) _ _

theorem decodeCells_length {cells : List Cell} {cols : List Column}
    (h : decodeCells cells cols = .ok values) : values.length = cols.length := by
  induction cols generalizing cells values with
  | nil =>
    rw [decodeCells] at h
    cases h
    rfl
  | cons col cols ih =>
    cases cells with
    | nil => cases h
    | cons cell cells =>
      obtain ⟨value, -, h⟩ := bind_eq_ok.mp h
      obtain ⟨rest, hrest, h⟩ := bind_eq_ok.mp h
      cases h
      exact congrArg (· + 1) (ih hrest)

/-- A decoded tuple has a value in exactly the columns of its schema. -/
theorem tableValue_isSome_iff (hvalues : decodeRow (tuplePayload raw) schema = .ok values) :
    (tableValue schema values name).isSome ↔ name ∈ schema.names := by
  have hlength : values.length = schema.columns.length := decodeCells_length hvalues
  have hnames : (columnItems schema values).map (·.1) = schema.names := by
    rw [Schema.names, ← List.map_fst_zip (Nat.le_of_eq hlength.symm), List.map_map, columnItems, List.map_map]
    rfl
  have hkeys : name ∈ (Dict.update [] (columnItems schema values)).keys ↔ name ∈ Dict.keys [] ∨ name ∈ _ :=
    Dict.mem_keys_update
  rw [hnames] at hkeys
  refine ⟨fun h => ?_, fun h => ?_⟩
  · obtain ⟨v, hv⟩ := Option.isSome_iff_exists.mp h
    exact (hkeys.mp (Dict.mem_keys_of_get? hv)).resolve_left List.not_mem_nil
  · obtain ⟨v, hv⟩ := Dict.get?_of_mem_keys (hkeys.mpr (.inr h))
    exact Option.isSome_iff_exists.mpr ⟨v, hv⟩

theorem tableValue_isValue {v : RowItem} (h : tableValue schema values name = some v) :
    ∃ value, v = .value value := by
  rw [tableValue, Dict.get?_ofList] at h
  obtain ⟨x, hx, rfl⟩ := Option.map_eq_some_iff.mp h
  have hmem := List.mem_reverse.mp (List.mem_of_find?_eq_some hx)
  obtain ⟨y, -, rfl⟩ := List.mem_map.mp hmem
  exact ⟨_, rfl⟩

/-! ## The merged row -/

/-- What the merged row has under a key: the right table's entry wins. -/
theorem merged_get? (hr : r.keys.Nodup) : (l.update r).get? key = (r.get? key).or (l.get? key) := by
  rw [Dict.get?_update_eq_or, Dict.ofList_of_nodup hr]

/-- The name is no RID and not shared. If the left table alone has it, then the right one has nothing
    else under the name; if neither has it, then no key of theirs is the name or ends in it after
    a dot. -/
structure Separated (left right : Option RowItem) (l r : Row) (name : String) : Prop where
  notRid : name ≠ ridKey
  notShared : left = none ∨ right = none
  ofLeft : ∀ v, left = some v → ∀ w, r.get? name = some w → w = v
  missing : left = none → right = none → ∀ key ∈ l.keys ++ r.keys,
    key ≠ name ∧ ("." ++ name).toList.isSuffixOf key.toList = false

/-- A name that is no key is not found unless some key ends in it after a dot. -/
theorem resolveColumn_of_missing (h : row.get? name = none) :
    (∃ msg, resolveColumn row name none = .error (.columnNotFoundError msg)) ↔
      ∀ key ∈ row.keys, ("." ++ name).toList.isSuffixOf key.toList = false := by
  have hnil : (∀ key ∈ row.keys, ("." ++ name).toList.isSuffixOf key.toList = false) ↔
      row.keys.filter (fun k => ("." ++ name).toList.isSuffixOf k.toList) = [] := by
    rw [List.filter_eq_nil_iff]
    simp only [Bool.not_eq_true]
  rw [hnil]
  simp only [resolveColumn, h]
  cases row.keys.filter (fun k => ("." ++ name).toList.isSuffixOf k.toList) with
  | nil => simp
  | cons key rest =>
    cases rest with
    | nil =>
      refine ⟨fun hrule => ?_, fun hnil => by cases hnil⟩
      obtain ⟨msg, hmsg⟩ := hrule
      dsimp only at hmsg
      split at hmsg <;> cases hmsg
    | cons key' rest => simp

/-- After a join, an unqualified name resolves by the rule if and only if it is separated. -/
theorem resolvesByRule_iff {rightRid : RID} {rightRaw : Tuple}
    (hleft : decodeRow (tuplePayload raw) left = .ok leftValues)
    (hl : rowFromTuple leftAlias left rid raw = .ok l)
    (hright : decodeRow (tuplePayload rightRaw) right = .ok rightValues)
    (hr : rowFromTuple rightAlias right rightRid rightRaw = .ok r) (name : String) :
    ResolvesByRule (tableValue left leftValues name) (tableValue right rightValues name)
        (resolveColumn (l.update r) name none) ↔
      Separated (tableValue left leftValues name) (tableValue right rightValues name) l r name := by
  have hmerged : ∀ key, (l.update r).get? key = (r.get? key).or (l.get? key) := fun key =>
    merged_get? (rowFromTuple_nodup hright hr)
  have hbare : ∀ item, (l.update r).get? name = some item →
      resolveColumn (l.update r) name none = .ok item := fun item h => by simp only [resolveColumn, h]
  by_cases hrid : name = ridKey
  · subst hrid
    have hfound := hbare (.rid rightRid) (by rw [hmerged, rowFromTuple_rid hr]; rfl)
    refine ⟨fun hrule => ?_, fun hseparated => absurd rfl hseparated.notRid⟩
    rw [hfound] at hrule
    cases hlvalue : tableValue left leftValues ridKey with
    | none =>
      cases hrvalue : tableValue right rightValues ridKey with
      | none =>
        rw [hlvalue, hrvalue] at hrule
        cases hrule.choose_spec
      | some w =>
        rw [hlvalue, hrvalue] at hrule
        obtain ⟨value, rfl⟩ := tableValue_isValue hrvalue
        cases hrule
    | some v =>
      cases hrvalue : tableValue right rightValues ridKey with
      | none =>
        rw [hlvalue, hrvalue] at hrule
        obtain ⟨value, rfl⟩ := tableValue_isValue hlvalue
        cases hrule
      | some w =>
        rw [hlvalue, hrvalue] at hrule
        cases hrule.choose_spec
  have hlget := rowFromTuple_get? hleft hl hrid
  have hrget := rowFromTuple_get? hright hr hrid
  cases hrvalue : tableValue right rightValues name with
  | some w =>
    rw [hbare w (by rw [hmerged, hrget, hrvalue]; rfl)]
    cases hlvalue : tableValue left leftValues name with
    | some v =>
      refine ⟨fun hrule => ?_, fun hseparated => ?_⟩
      · cases hrule.choose_spec
      · obtain h | h := hseparated.notShared <;> cases h
    | none =>
      refine ⟨fun _ => ⟨hrid, .inl rfl, fun v hv => ?_, fun _ hw => ?_⟩, fun _ => rfl⟩
      · cases hv
      · cases hw
  | none =>
    cases hlvalue : tableValue left leftValues name with
    | some v =>
      cases hrname : r.get? name with
      | none =>
        rw [hbare v (by rw [hmerged, hrname, hlget, hlvalue]; rfl)]
        refine ⟨fun _ => ⟨hrid, .inr rfl, fun _ _ w hw => ?_, fun hv => ?_⟩, fun _ => rfl⟩
        · cases hrname.symm.trans hw
        · cases hv
      | some w =>
        rw [hbare w (by rw [hmerged, hrname]; rfl)]
        refine ⟨fun hrule => ⟨hrid, .inr rfl, fun v' hv' w' hw' => ?_, fun hv' => ?_⟩, fun hseparated => ?_⟩
        · cases hv'
          cases hrname.symm.trans hw'
          exact Except.ok.inj hrule
        · cases hv'
        · exact congrArg Except.ok (hseparated.ofLeft v rfl w hrname)
    | none =>
      cases hname : (l.update r).get? name with
      | some item =>
        rw [hbare item hname]
        have hmem := Dict.mem_keys_update.mp (Dict.mem_keys_of_get? hname)
        refine ⟨fun hrule => ?_, fun hseparated => ?_⟩
        · cases hrule.choose_spec
        · exact absurd rfl (hseparated.missing rfl rfl name (List.mem_append.mpr hmem)).1
      | none =>
        refine (resolveColumn_of_missing hname).trans
          ⟨fun hkeys => ⟨hrid, .inl rfl, fun v hv => ?_, ?_⟩, ?_⟩
        · cases hv
        · intro _ _ key hkey
          have hmem : key ∈ (l.update r).keys := Dict.mem_keys_update.mpr (List.mem_append.mp hkey)
          refine ⟨fun heq => ?_, hkeys key hmem⟩
          obtain ⟨item, hitem⟩ := Dict.get?_of_mem_keys hmem
          rw [heq, hname] at hitem
          cases hitem
        · intro hseparated key hkey
          exact (hseparated.missing rfl rfl key (List.mem_append.mpr (Dict.mem_keys_update.mp hkey))).2

/-- A table that holds 1 in a column `id`. -/
def idSchema : Schema := ⟨[⟨"id", .int⟩]⟩

def idRow (alias_ : String) (rid : RID) : Row :=
  [(alias_ ++ ".id", .value (.int 1)), ("id", .value (.int 1)), (ridKey, .rid rid)]

/-- Its join with a table that has a column `a`. -/
theorem resolvesByRule_id :
    ResolvesByRule (tableValue idSchema [.int 1] "id") (tableValue OneRow.table.schema [.int 1] "id")
        (resolveColumn ((idRow "x" ⟨0, 0⟩).update
          [("y.a", .value (.int 1)), ("a", .value (.int 1)), (ridKey, .rid ⟨1, 0⟩)]) "id" none) ↔
      Separated (tableValue idSchema [.int 1] "id") (tableValue OneRow.table.schema [.int 1] "id")
        (idRow "x" ⟨0, 0⟩)
        [("y.a", .value (.int 1)), ("a", .value (.int 1)), (ridKey, .rid ⟨1, 0⟩)] "id" := by
  have hleft : rowFromTuple "x" idSchema ⟨0, 0⟩ OneRow.tuple = .ok (idRow "x" ⟨0, 0⟩) := rfl
  have hright : rowFromTuple "y" OneRow.table.schema ⟨1, 0⟩ OneRow.tuple =
      .ok [("y.a", .value (.int 1)), ("a", .value (.int 1)), (ridKey, .rid ⟨1, 0⟩)] := rfl
  exact resolvesByRule_iff rfl hleft rfl hright "id"

/-- Its join with itself: the shared name is not rejected. -/
theorem shared_id_resolves :
    rowFromTuple "x" idSchema ⟨0, 0⟩ OneRow.tuple = .ok (idRow "x" ⟨0, 0⟩) ∧
    rowFromTuple "y" idSchema ⟨1, 0⟩ OneRow.tuple = .ok (idRow "y" ⟨1, 0⟩) ∧
    ¬ResolvesByRule (tableValue idSchema [.int 1] "id") (tableValue idSchema [.int 1] "id")
      (resolveColumn ((idRow "x" ⟨0, 0⟩).update (idRow "y" ⟨1, 0⟩)) "id" none) := by
  refine ⟨rfl, rfl, ?_⟩
  rintro ⟨msg, hmsg⟩
  have hfound : resolveColumn ((idRow "x" ⟨0, 0⟩).update (idRow "y" ⟨1, 0⟩)) "id" none =
      .ok (.value (.int 1)) := by decide +kernel
  cases hfound.symm.trans hmsg

/-! ## Identifiers -/

/-- What stands after the last dot. -/
theorem eq_of_dot_suffix {xs ys zs : List Char} (hxs : '.' ∉ xs) (hzs : '.' ∉ zs)
    (h : '.' :: xs <:+ ys ++ '.' :: zs) : xs = zs := by
  obtain hsuffix | hsuffix := List.suffix_or_suffix_of_suffix h (List.suffix_append ys ('.' :: zs))
  · obtain heq | hmem := List.suffix_cons_iff.mp hsuffix
    · exact (List.cons.inj heq).2
    · exact absurd (hmem.subset List.mem_cons_self) hzs
  · obtain heq | hmem := List.suffix_cons_iff.mp hsuffix
    · exact (List.cons.inj heq).2.symm
    · exact absurd (hmem.subset List.mem_cons_self) hxs

theorem mem_schema_names {x : Column × Value} (h : x ∈ schema.columns.zip values) :
    x.1.name ∈ schema.names := List.mem_map_of_mem (List.of_mem_zip h).1

/-- The keys of the row of a table. -/
theorem mem_keys_rowFromTuple (hvalues : decodeRow (tuplePayload raw) schema = .ok values)
    (h : rowFromTuple alias_ schema rid raw = .ok row) (hkey : key ∈ row.keys) :
    key = ridKey ∨ ∃ c ∈ schema.names, key = c ∨ key = alias_ ++ "." ++ c := by
  rw [rowFromTuple_eq hvalues h, Dict.mem_keys_set, Dict.mem_keys_update] at hkey
  obtain hrid | hqualified | hbare := hkey
  · exact .inl hrid
  · obtain hnil | hqualified := Dict.mem_keys_update.mp hqualified
    · cases hnil
    · obtain ⟨y, hy, rfl⟩ := List.mem_map.mp hqualified
      obtain ⟨x, hx, rfl⟩ := List.mem_map.mp hy
      exact .inr ⟨_, mem_schema_names hx, .inr rfl⟩
  · obtain ⟨y, hy, rfl⟩ := List.mem_map.mp hbare
    obtain ⟨x, hx, rfl⟩ := List.mem_map.mp hy
    exact .inr ⟨_, mem_schema_names hx, .inl rfl⟩

/-- A key of a table that has no column of the name, where names have no dots. -/
theorem key_of_identifier (hvalues : decodeRow (tuplePayload raw) schema = .ok values)
    (h : rowFromTuple alias_ schema rid raw = .ok row) (hdots : ∀ c ∈ schema.names, '.' ∉ c.toList)
    (hname : '.' ∉ name.toList) (hrid : name ≠ ridKey) (hmissing : tableValue schema values name = none)
    (hkey : key ∈ row.keys) : key ≠ name ∧ ("." ++ name).toList.isSuffixOf key.toList = false := by
  have habsent : name ∉ schema.names := by
    rw [← tableValue_isSome_iff hvalues, hmissing]
    exact Bool.false_ne_true
  have hdot : ("." ++ name).toList = '.' :: name.toList := by simp
  have hno : ∀ {key : String}, '.' ∉ key.toList → ("." ++ name).toList.isSuffixOf key.toList = false := by
    intro key hkey
    rw [hdot, ← Bool.not_eq_true, List.isSuffixOf_iff_suffix]
    exact fun hsuffix => hkey (hsuffix.subset List.mem_cons_self)
  obtain rfl | ⟨c, hc, rfl | rfl⟩ := mem_keys_rowFromTuple hvalues h hkey
  · exact ⟨hrid.symm, hno (by decide)⟩
  · exact ⟨fun heq => habsent (heq ▸ hc), hno (hdots key hc)⟩
  · have hlist : (alias_ ++ "." ++ c).toList = alias_.toList ++ '.' :: c.toList := by simp
    refine ⟨fun heq => hname (heq ▸ ?_), ?_⟩
    · rw [hlist]
      exact List.mem_append_right _ List.mem_cons_self
    · rw [hdot, hlist, ← Bool.not_eq_true, List.isSuffixOf_iff_suffix]
      intro hsuffix
      have heq := eq_of_dot_suffix hname (hdots c hc) hsuffix
      exact habsent (String.toList_inj.mp heq ▸ hc)

/-- Where names have no dots, as identifiers of statements do, only RIDs and shared names are
    not separated. -/
theorem separated_of_identifier {rightRid : RID} {rightRaw : Tuple}
    (hleft : decodeRow (tuplePayload raw) left = .ok leftValues)
    (hl : rowFromTuple leftAlias left rid raw = .ok l)
    (hright : decodeRow (tuplePayload rightRaw) right = .ok rightValues)
    (hr : rowFromTuple rightAlias right rightRid rightRaw = .ok r)
    (hdots : ∀ c ∈ left.names ++ right.names, '.' ∉ c.toList) (hname : '.' ∉ name.toList)
    (hrid : name ≠ ridKey)
    (hshared : tableValue left leftValues name = none ∨ tableValue right rightValues name = none) :
    Separated (tableValue left leftValues name) (tableValue right rightValues name) l r name := by
  obtain ⟨hdotsl, hdotsr⟩ := List.forall_mem_append.mp hdots
  refine ⟨hrid, hshared, fun v hv w hw => ?_, fun hlnone hrnone key hkey => ?_⟩
  · obtain hnone | hnone := hshared
    · cases hv.symm.trans hnone
    · exact absurd rfl (key_of_identifier hright hr hdotsr hname hrid hnone (Dict.mem_keys_of_get? hw)).1
  · obtain hkey | hkey := List.mem_append.mp hkey
    · exact key_of_identifier hleft hl hdotsl hname hrid hlnone hkey
    · exact key_of_identifier hright hr hdotsr hname hrid hrnone hkey

end Minirel
