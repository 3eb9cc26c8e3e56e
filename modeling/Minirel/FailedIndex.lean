-- SUMMARY: What a CREATE INDEX that raises leaves behind.
import Minirel.Finished

/-!
# A failed CREATE INDEX

The catalog has the new index before its tree takes the first row. A statement that the catalog
refuses leaves nothing behind; one that is refused by the tree leaves the index, with the rows
up to there.
-/

namespace Minirel

namespace BPlusTree

section
variable {τ : Type} {C : Conversions} {ty : ColumnType} {own : Nat → Prop}
  {s s' : PageFile RawKey τ} {root : Nat} {es : List (RawKey × RID)} {x : Value} {k : RawKey}
  {rid : RID}

/-- A key is taken as long as it has fewer entries than a leaf holds. -/
theorem ColumnTree.insert_storedAs (h : ColumnTree C ty own s root es) (hx : StoredAs C ty x k)
    (hrid : ridFits rid)
    (hroom : ((insert (.ofColumn C ty) false root x rid).after s).length ≤ 2 ^ 32) :
    ((ridsUnder es k).length < maxLeafKeys (.ofColumn C ty) ∧
      ∃ root' s', insert (.ofColumn C ty) false root x rid s = .ok root' s' ∧
        ColumnTook C ty own s es k rid root' s') ∨
    ((ridsUnder es k).length = maxLeafKeys (.ofColumn C ty) ∧
      ∃ e, insert (.ofColumn C ty) false root x rid s = .error e s) := by
  cases ty with
  | int =>
    obtain ⟨hlt, root', s', hrun, htook⟩ | ⟨hfull, hrun⟩ :=
      KeyTree.insert_storedAs h (KeyOrder.exact_int C) hx hrid hroom
    · exact .inl ⟨hlt, root', s', hrun, htook.stays, htook.tree⟩
    · exact .inr ⟨hfull, _, hrun⟩
  | text =>
    obtain ⟨hlt, root', s', hrun, htook⟩ | ⟨hfull, hrun⟩ :=
      KeyTree.insert_storedAs h (KeyOrder.exact_text C) hx hrid hroom
    · exact .inl ⟨hlt, root', s', hrun, htook.stays, htook.tree⟩
    · exact .inr ⟨hfull, _, hrun⟩
  | float => cases h
  | bool => cases h

theorem length_ridsUnder_cons (es : List (RawKey × RID)) (k k' : RawKey) (rid : RID) :
    (ridsUnder ((k, rid) :: es) k').length =
      (if k = k' then 1 else 0) + (ridsUnder es k').length := by
  by_cases hk : k = k' <;> simp [ridsUnder, hk, Nat.add_comm]

end
end BPlusTree

namespace Database

variable {C : Conversions} {tr : Tracked} {db db' : Database} {v : View} {table : TableMeta} {i t column : String}
  {unique : Bool} {type : ColumnType}

/-! ## The backfill -/

/-- The keys of an index over a column, in the order of the heap. -/
def columnKeys (schema : Schema) (column : String) (tuples : List (RID × Tuple)) :
    Except PyError (List (Value × RID)) :=
  tuples.mapM fun x => return (← columnValue schema column x.2, x.1)

theorem mem_columnKeys {schema : Schema} {tuples : List (RID × Tuple)} {keys : List (Value × RID)}
    (hkeys : columnKeys schema column tuples = .ok keys) {y : Value × RID} (hy : y ∈ keys) :
    ∃ raw, (y.2, raw) ∈ tuples ∧ columnValue schema column raw = .ok y.1 := by
  have hmem : (Except.ok y : Except PyError (Value × RID)) ∈ keys.map .ok := List.mem_map_of_mem hy
  rw [← mapM_eq_ok.mp hkeys] at hmem
  obtain ⟨⟨rid, raw⟩, hx, hpair⟩ := List.mem_map.mp hmem
  obtain ⟨value, hvalue, hpair⟩ := bind_eq_ok.mp hpair
  cases hpair
  exact ⟨raw, hx, hvalue⟩

/-- A stored row has a value in every column. -/
theorem exists_columnValue {schema : Schema} {raw : Tuple} (h : Conforms schema raw)
    (hcolumn : schema.column column = .ok ⟨column, type⟩) :
    ∃ cell : Cell, cell.type = type ∧ columnValue schema column raw = .ok cell.value := by
  obtain ⟨n, hn, hcol, -⟩ := Schema.column_eq_ok hcolumn
  have htype := congrArg (·[n]?) h.types
  simp only [List.getElem?_map, hcol, Option.map_some, Option.map_eq_some_iff] at htype
  obtain ⟨cell, hcell, htype⟩ := htype
  refine ⟨cell, htype, ?_⟩
  have hget : pyGet (rowValues raw) n = .ok cell.value := by
    simp [pyGet, rowValues, hcell]
  have hdecode : decodeRow (tuplePayload raw) schema = .ok (rowValues raw) := decodeRow_eq h.types
  simp only [columnValue, hdecode, hn, bind, Except.bind, hget]

theorem columnKeys_total {schema : Schema} {tuples : List (RID × Tuple)}
    (hconforms : ∀ x ∈ tuples, Conforms schema x.2) (hcolumn : schema.column column = .ok ⟨column, type⟩) :
    ∃ keys, columnKeys schema column tuples = .ok keys := by
  induction tuples with
  | nil => exact ⟨[], rfl⟩
  | cons x tuples ih =>
    rw [List.forall_mem_cons] at hconforms
    obtain ⟨cell, -, hvalue⟩ := exists_columnValue hconforms.1 hcolumn
    obtain ⟨keys, hkeys⟩ := ih hconforms.2
    rw [columnKeys] at hkeys
    refine ⟨(cell.value, x.1) :: keys, ?_⟩
    rw [columnKeys, List.mapM_cons, hkeys, hvalue]
    rfl

/-! ## Statements that the catalog takes -/

/-- The table and the column are there, the name is new, and the column can be indexed. -/
structure Accepted (catalog : Catalog) (i t column : String) (table : TableMeta) (type : ColumnType) :
    Prop where
  found : catalog.tables.get? t = some table
  new : table.indexes.get? i = none
  column : table.schema.column column = .ok ⟨column, type⟩
  indexable : type.Indexable

/-- A statement that the catalog refuses raises, and changes nothing. -/
theorem executeCreateIndex_refused (unique : Bool) (hs : Sound C tr db v)
    (h : ∀ table type, ¬Accepted db.catalog i t column table type) :
    wp (executeCreateIndex C i t column unique) (fun _ _ => False) (fun _ db' => db' = db) db := by
  unfold executeCreateIndex
  refine wp_bind.mpr (wp_getTable.mpr ⟨fun table ht => ?_, fun e herr => rfl⟩)
  refine wp_bind.mpr ((wp_createIndex hs).mono (fun idx db₁ hmade => ?_) fun _ _ h => h)
  obtain ⟨table', hmade, -⟩ := hmade
  have hkeyed := hmade.keyed
  refine absurd ⟨hmade.found, hmade.new, ?_, hkeyed.indexable⟩ (h table' idx.keyType)
  rw [← hmade.column_eq]
  exact hkeyed.column

/-- What stands in an index for a value that was read from a row. -/
def rawKeyOf : Value → RawKey
  | .int i => .int i
  | .str s => .text (encodeText s)
  | _ => .text []

/-- Faithful values of a column are told apart by their keys. -/
theorem rawKeyOf_inj {cell cell' : Cell} (hty : cell.type.Indexable) (htype : cell'.type = cell.type)
    (h : Faithful C cell.type cell.value) (h' : Faithful C cell.type cell'.value)
    (heq : rawKeyOf cell.value = rawKeyOf cell'.value) : cell.value = cell'.value := by
  cases cell with
  | int i fits =>
    cases cell' with
    | int j fits' =>
      obtain rfl : i = j := by simpa [rawKeyOf, Cell.value] using heq
      rfl
    | text s fits' => cases htype
    | float x => cases htype
    | bool b => cases htype
  | text s fits =>
    cases cell' with
    | text s' fits' =>
      have hkept : Minirel.Kept s := h
      have hkept' : Minirel.Kept s' := h'
      have hbytes : encodeText s = encodeText s' := by simpa [rawKeyOf, Cell.value] using heq
      have hdecode := (decodeText_encodeText_iff s).mpr hkept
      rw [hbytes, (decodeText_encodeText_iff s').mpr hkept', Except.ok.injEq] at hdecode
      rw [Cell.value, Cell.value, hdecode]
    | int i fits' => cases htype
    | float x => cases htype
    | bool b => cases htype
  | float x => obtain hty | hty := hty <;> cases hty
  | bool b => obtain hty | hty := hty <;> cases hty

/-- Counting keys is counting the values that they stand for. -/
theorem countP_rawKeyOf_le_iff {keys : List (Value × RID)} {n : Nat}
    (hinj : ∀ x ∈ keys, ∀ y ∈ keys, rawKeyOf x.1 = rawKeyOf y.1 → x.1 = y.1) :
    (∀ k, (keys.countP fun y => rawKeyOf y.1 = k) ≤ n) ↔
      ∀ key, (keys.map (·.1)).count key ≤ n := by
  have hcount : ∀ key, (keys.map (·.1)).count key = keys.countP fun y => decide (y.1 = key) := by
    intro key
    rw [List.count, List.countP_map]
    exact List.countP_congr fun y _ => by simp
  have hsame : ∀ x ∈ keys, (keys.countP fun y => decide (rawKeyOf y.1 = rawKeyOf x.1)) =
      keys.countP fun y => decide (y.1 = x.1) := fun x hx =>
    List.countP_congr fun y hy => by
      simp only [decide_eq_true_eq]
      exact ⟨hinj y hy x hx, fun h => by rw [h]⟩
  constructor
  · intro h key
    by_cases hkey : ∃ x ∈ keys, x.1 = key
    · obtain ⟨x, hx, rfl⟩ := hkey
      rw [hcount, ← hsame x hx]
      exact h _
    · rw [hcount, List.countP_eq_zero.mpr fun y hy => by simpa using fun heq => hkey ⟨y, hy, heq⟩]
      exact Nat.zero_le _
  · intro h k
    by_cases hk : ∃ x ∈ keys, rawKeyOf x.1 = k
    · obtain ⟨x, hx, rfl⟩ := hk
      rw [hsame x hx, ← hcount]
      exact h _
    · rw [List.countP_eq_zero.mpr fun y hy => by simpa using fun heq => hk ⟨y, hy, heq⟩]
      exact Nat.zero_le _

/-- The keys of a column are fields of its type. -/
theorem Accepted.cells {keys : List (Value × RID)} (h : Accepted db.catalog i t column table type)
    (hs : Sound C tr db v) (hkeys : columnKeys table.schema column (v.tuples t) = .ok keys) :
    ∀ y ∈ keys, ∃ cell : Cell, cell.type = type ∧ y.1 = cell.value := by
  intro y hy
  obtain ⟨raw, hraw, hvalue⟩ := mem_columnKeys hkeys hy
  obtain ⟨cell, htype, hvalue'⟩ := exists_columnValue (hs.layout.conforms h.found _ hraw) h.column
  exact ⟨cell, htype, Except.ok.inj (hvalue.symm.trans hvalue')⟩

/-- Faithful keys of a column are told apart in an index. -/
theorem Accepted.keys_inj {keys : List (Value × RID)} (h : Accepted db.catalog i t column table type)
    (hs : Sound C tr db v) (hkeys : columnKeys table.schema column (v.tuples t) = .ok keys)
    (hfaithful : ∀ x ∈ keys, Faithful C type x.1) :
    ∀ x ∈ keys, ∀ y ∈ keys, rawKeyOf x.1 = rawKeyOf y.1 → x.1 = y.1 := by
  intro x hx y hy heq
  obtain ⟨cell, rfl, hvalue⟩ := h.cells hs hkeys x hx
  obtain ⟨cell', htype, hvalue'⟩ := h.cells hs hkeys y hy
  have hfx := hfaithful x hx
  have hfy := hfaithful y hy
  rw [hvalue] at hfx heq ⊢
  rw [hvalue'] at hfy heq ⊢
  exact rawKeyOf_inj h.indexable htype hfx hfy heq

theorem found_oneRow : ∃ table, oneRow.catalog.tables.get? "t" = some table ∧
    table.schema = ⟨[⟨"a", .int⟩]⟩ := by
  have hfound : (oneRow.catalog.tables.get? "t").any (fun table => table.schema = ⟨[⟨"a", .int⟩]⟩) = true := by
    decide +kernel
  obtain ⟨table, htable, hschema⟩ := (Option.any_eq_true _ _).mp hfound
  exact ⟨table, htable, of_decide_eq_true hschema⟩

/-- A table of one TEXT column. -/
def oneText : Database := after (execute .integral (.createTable "t" [⟨"s", .text⟩]) none) fresh

end Database
end Minirel
