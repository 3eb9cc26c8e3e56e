-- SUMMARY: Column types, schemas, the encoding of rows, and the MVCC header of a stored tuple.
import Minirel.Values

/-!
# Rows

An encoded row is kept as the list of its fields and not as bytes: a `Cell` is
what `encode_value` writes for one column, with its length. Decoding a field under
another column type than it was written with would read bytes that the model does
not have.
-/

namespace Minirel

/-! ## Schemas -/

inductive ColumnType where
  | int
  | float
  | text
  | bool
  deriving DecidableEq, Repr

/-- The text a `ColumnType` formats as. -/
def ColumnType.value : ColumnType → String
  | .int => "INT"
  | .float => "FLOAT"
  | .text => "TEXT"
  | .bool => "BOOL"

structure Column where
  name : String
  type : ColumnType
  deriving DecidableEq, Repr

structure Schema where
  columns : List Column
  deriving DecidableEq, Repr

namespace Schema

def indexOf (schema : Schema) (name : String) : Except PyError Nat :=
  match schema.columns.findIdx? (fun col => col.name = name) with
  | some i => .ok i
  | none => .error (.keyError s!"no such column: {name}")

def column (schema : Schema) (name : String) : Except PyError Column :=
  match schema.columns.find? (fun col => col.name = name) with
  | some col => .ok col
  | none => .error (.keyError s!"no such column: {name}")

def names (schema : Schema) : List String := schema.columns.map (·.name)

/-- Where a column that is found stands. -/
theorem column_eq_ok {schema : Schema} {name : String} {col : Column}
    (h : schema.column name = .ok col) :
    ∃ n, schema.indexOf name = .ok n ∧ schema.columns[n]? = some col ∧ col.name = name := by
  unfold column at h
  split at h
  · rename_i col' hfind
    cases h
    obtain ⟨hname, n, hn, hcol, hbefore⟩ := List.find?_eq_some_iff_getElem.mp hfind
    refine ⟨n, ?_, by rw [List.getElem?_eq_getElem hn, hcol], by simpa using hname⟩
    have hidx : schema.columns.findIdx? (fun col => col.name = name) = some n := by
      refine List.findIdx?_eq_some_iff_getElem.mpr ⟨hn, by rw [hcol]; exact hname, fun j hj => ?_⟩
      simpa using hbefore j hj
    simp only [indexOf, hidx]
  · cases h

end Schema

/-! ## One column at a time -/

/-- The field of one column. A TEXT is preceded by its length in two bytes. -/
inductive Cell where
  | int (i : Int) (fits : -2 ^ 63 ≤ i ∧ i < 2 ^ 63)
  | float (x : PyFloat)
  | bool (b : Bool)
  | text (s : String) (fits : s.utf8ByteSize ≤ 0xFFFF)
  deriving DecidableEq

/-- The bytes of a field. -/
def Cell.size : Cell → Nat
  | .int .. => 8
  | .float _ => 8
  | .bool _ => 1
  | .text s _ => 2 + s.utf8ByteSize

section Codec
variable (C : Conversions)

def encodeValue (value : Value) : ColumnType → Except PyError Cell
  | .int => do
    let i ← C.toInt value
    if h : -2 ^ 63 ≤ i ∧ i < 2 ^ 63 then return .int i h else throw .structError
  | .float => return .float (← C.toFloat value)
  | .bool => return .bool value.truthy
  | .text =>
    let raw := C.toStr value
    if h : raw.utf8ByteSize ≤ 0xFFFF then .ok (.text raw h)
    else .error (.valueError "TEXT values are capped at 65535 bytes")

/-- What a field holds. -/
def Cell.value : Cell → Value
  | .int i _ => .int i
  | .float x => .float x
  | .bool b => .bool b
  | .text s _ => .str s

def Cell.type : Cell → ColumnType
  | .int .. => .int
  | .float _ => .float
  | .bool _ => .bool
  | .text .. => .text

def decodeValue (cell : Cell) (colType : ColumnType) : Except PyError Value :=
  if cell.type = colType then .ok cell.value else .error .foreignPage

def encodeRow (values : List Value) (schema : Schema) : Except PyError (List Cell) :=
  if values.length ≠ schema.columns.length then
    .error (.valueError s!"expected {schema.columns.length} values, got {values.length}")
  else (values.zip schema.columns).mapM fun (v, col) => encodeValue C v col.type

/-- The loop of `decode_row`. -/
def decodeCells : List Cell → List Column → Except PyError (List Value)
  | _, [] => .ok []
  | [], _ :: _ => .error .structError
  | cell :: cells, col :: cols => do
    let value ← decodeValue cell col.type
    return value :: (← decodeCells cells cols)

def decodeRow (data : List Cell) (schema : Schema) : Except PyError (List Value) :=
  decodeCells data schema.columns

end Codec

/-! ## What the fields of a row are -/

section
variable {C : Conversions} {value : Value} {colType : ColumnType} {cell : Cell} {values : List Value}
  {schema : Schema} {cells : List Cell}

theorem encodeValue_type (h : encodeValue C value colType = .ok cell) : cell.type = colType := by
  cases colType with
  | int =>
    obtain ⟨i, -, h⟩ := bind_eq_ok.mp h
    split at h
    · cases h
      rfl
    · cases h
  | float =>
    obtain ⟨x, -, h⟩ := bind_eq_ok.mp h
    cases h
    rfl
  | bool =>
    cases h
    rfl
  | text =>
    simp only [encodeValue] at h
    split at h
    · cases h
      rfl
    · cases h

theorem encodeRow_eq_ok (h : encodeRow C values schema = .ok cells) :
    values.length = schema.columns.length ∧
      (values.zip schema.columns).map (fun x => encodeValue C x.1 x.2.type) = cells.map .ok := by
  unfold encodeRow at h
  split at h
  · cases h
  · rename_i hlen
    exact ⟨not_not.mp hlen, mapM_eq_ok.mp h⟩

theorem encodeRow_types (h : encodeRow C values schema = .ok cells) :
    cells.map Cell.type = schema.columns.map (·.type) := by
  obtain ⟨hlen, hmap⟩ := encodeRow_eq_ok h
  have hsnd : (values.zip schema.columns).map (·.2) = schema.columns :=
    List.map_snd_zip hlen.ge
  have hlen' : (values.zip schema.columns).length = cells.length := by
    simpa using congrArg List.length hmap
  rw [← hsnd, List.map_map]
  refine List.ext_getElem (by simpa using hlen'.symm) fun n h₁ h₂ => ?_
  have hn := congrArg (·[n]?) hmap
  simp only [List.length_map] at h₁ h₂
  simp only [List.getElem?_map, List.getElem?_eq_getElem h₁, List.getElem?_eq_getElem h₂,
    Option.map_some, Option.some.injEq] at hn
  simpa using encodeValue_type hn

/-- The field of one column of an encoded row. -/
theorem encodeRow_getElem? (h : encodeRow C values schema = .ok cells) {n : Nat} {col : Column}
    (hcol : schema.columns[n]? = some col) :
    ∃ value cell, values[n]? = some value ∧ cells[n]? = some cell ∧
      encodeValue C value col.type = .ok cell := by
  obtain ⟨hlen, hmap⟩ := encodeRow_eq_ok h
  have hlt := (List.getElem?_eq_some_iff.mp hcol).1
  have hvalue : values[n]? = some values[n] := List.getElem?_eq_getElem (hlen ▸ hlt)
  have hn := congrArg (·[n]?) hmap
  simp only [List.getElem?_map, List.zip, List.getElem?_zipWith, hvalue, hcol] at hn
  obtain ⟨cell, hcell, heq⟩ := Option.map_eq_some_iff.mp hn.symm
  exact ⟨_, cell, hvalue, hcell, heq.symm⟩

theorem decodeCells_eq {cols : List Column} (h : cells.map Cell.type = cols.map (·.type)) :
    decodeCells cells cols = .ok (cells.map Cell.value) := by
  induction cols generalizing cells with
  | nil =>
    obtain rfl := List.map_eq_nil_iff.mp h
    rfl
  | cons col cols ih =>
    cases cells with
    | nil => cases h
    | cons cell cells =>
      rw [List.map_cons, List.map_cons, List.cons.injEq] at h
      simp only [decodeCells, decodeValue, h.1, if_true, ih h.2]
      rfl

/-- A row with a field of its type for every column decodes to what its fields hold. -/
theorem decodeRow_eq (h : cells.map Cell.type = schema.columns.map (·.type)) :
    decodeRow cells schema = .ok (cells.map Cell.value) := decodeCells_eq h

end

/-! ## The MVCC tuple header -/

/-- The `xmax` value that means "not deleted". -/
def infinityTxn : Nat := 0xFFFFFFFF

/-- A stored tuple: the two 32-bit header fields and the row payload. -/
structure HeapTuple (ρ : Type) where
  xmin : Nat
  xmax : Nat
  payload : ρ
  xmin_lt : xmin < 2 ^ 32
  xmax_lt : xmax < 2 ^ 32
  deriving DecidableEq, Repr

variable {ρ : Type}

/-- Prefix a row payload with its header. Packing fails on an id that does not
    fit its field. -/
def packTuple (xmin xmax : Nat) (rowPayload : ρ) : Except PyError (HeapTuple ρ) :=
  if h : xmin < 2 ^ 32 ∧ xmax < 2 ^ 32 then .ok ⟨xmin, xmax, rowPayload, h.1, h.2⟩
  else .error .structError

def unpackTupleHeader (data : HeapTuple ρ) : Nat × Nat := (data.xmin, data.xmax)

def tuplePayload (data : HeapTuple ρ) : ρ := data.payload

/-- A copy of `data` with `xmax` overwritten. -/
def withXmax (data : HeapTuple ρ) (xmax : Nat) : Except PyError (HeapTuple ρ) :=
  packTuple (unpackTupleHeader data).1 xmax (tuplePayload data)

theorem packTuple_ok {xmin xmax : Nat} {payload : ρ} {t : HeapTuple ρ}
    (h : packTuple xmin xmax payload = .ok t) :
    t.xmin = xmin ∧ t.xmax = xmax ∧ t.payload = payload := by
  unfold packTuple at h
  split at h
  · cases h
    exact ⟨rfl, rfl, rfl⟩
  · cases h

theorem packTuple_eq {xmin xmax : Nat} (payload : ρ) (hmin : xmin < 2 ^ 32) (hmax : xmax < 2 ^ 32) :
    packTuple xmin xmax payload = .ok ⟨xmin, xmax, payload, hmin, hmax⟩ := dif_pos ⟨hmin, hmax⟩

theorem withXmax_eq (data : HeapTuple ρ) {xmax : Nat} (h : xmax < 2 ^ 32) :
    withXmax data xmax = .ok ⟨data.xmin, xmax, data.payload, data.xmin_lt, h⟩ :=
  packTuple_eq _ data.xmin_lt h

theorem withXmax_ok {data t : HeapTuple ρ} {xmax : Nat} (h : withXmax data xmax = .ok t) :
    t.xmin = data.xmin ∧ t.xmax = xmax ∧ t.payload = data.payload :=
  packTuple_ok h

end Minirel
