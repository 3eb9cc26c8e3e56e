-- SUMMARY: Rows and tuple headers as bytes: what is written is read back, with anything after it.
import Minirel.Lib.Bytes
import Minirel.Types

/-!
# The encoding of rows

`types.py` down to bytes. A field has no length in front of it but a TEXT, so where a column
starts depends on all columns before it. A FLOAT is its 64-bit pattern.

What `int`, `float`, `str` and `bool` make of a value of another type is the interpreter's
own; they leave a value of their own type as it is.
-/

namespace Minirel

namespace Encoding

/-- A Python value of a row. A `float` is its bit pattern. -/
inductive Datum where
  | none
  | int (i : Int)
  | float (bits : BitVec 64)
  | bool (b : Bool)
  | text (s : String)
  deriving DecidableEq

/-- `int(v)`, `float(v)`, `str(v)` and the truth of `v`. -/
structure Builtins where
  int : Datum → Except PyError Int
  float : Datum → Except PyError (BitVec 64)
  str : Datum → String
  bool : Datum → Bool
  int_int : ∀ i, int (.int i) = .ok i
  float_float : ∀ bits, float (.float bits) = .ok bits
  str_text : ∀ s, str (.text s) = s
  bool_bool : ∀ b, bool (.bool b) = b

/-- Conversions between values of one type only. -/
def Builtins.strict : Builtins where
  int
    | .int i => .ok i
    | _ => .error .typeError
  float
    | .float bits => .ok bits
    | _ => .error .typeError
  str
    | .text s => s
    | _ => ""
  bool
    | .bool b => b
    | _ => false
  int_int _ := rfl
  float_float _ := rfl
  str_text _ := rfl
  bool_bool _ := rfl

/-! ## One value -/

/-- `struct.unpack_from` of one field. -/
def unpackFrom (data : Bytes) (offset width : Nat) : Except PyError Nat :=
  match fieldAt data offset width with
  | some n => .ok n
  | none => .error .structError

section
variable (B : Builtins)

def encodeValue (value : Datum) : ColumnType → Except PyError Bytes
  | .int => do
    let i ← B.int value
    if -2 ^ 63 ≤ i ∧ i < 2 ^ 63 then return littleEndian 8 (unsigned 8 i) else throw .structError
  | .float => do return littleEndian 8 (← B.float value).toNat
  | .bool => .ok (littleEndian 1 (if B.bool value then 1 else 0))
  | .text =>
    let raw := utf8 (B.str value)
    if raw.length > 0xFFFF then .error (.valueError "TEXT values are capped at 65535 bytes")
    else .ok (littleEndian 2 raw.length ++ raw)

/-- The value at `offset`, and how many bytes it takes. -/
def decodeValue (data : Bytes) (offset : Nat) : ColumnType → Except PyError (Datum × Nat)
  | .int => do return (.int (signed 8 (← unpackFrom data offset 8)), 8)
  | .float => do return (.float (BitVec.ofNat 64 (← unpackFrom data offset 8)), 8)
  | .bool => do return (.bool ((← unpackFrom data offset 1) != 0), 1)
  | .text => do
    let length ← unpackFrom data offset 2
    let start := offset + 2
    match String.fromUTF8? ⟨((data.drop start).take length).toArray⟩ with
    | some text => return (.text text, 2 + length)
    | none => throw .unicodeDecodeError

/-! ## Rows -/

def encodeRow (values : List Datum) (schema : Schema) : Except PyError Bytes :=
  if values.length ≠ schema.columns.length then
    .error (.valueError s!"expected {schema.columns.length} values, got {values.length}")
  else do
    let fields ← (values.zip schema.columns).mapM fun (v, col) => encodeValue B v col.type
    return fields.flatten

end

/-- The loop of `decode_row`. -/
def decodeColumns (data : Bytes) : Nat → List Column → Except PyError (List Datum)
  | _, [] => .ok []
  | offset, col :: cols => do
    let (value, consumed) ← decodeValue data offset col.type
    return value :: (← decodeColumns data (offset + consumed) cols)

def decodeRow (data : Bytes) (schema : Schema) : Except PyError (List Datum) :=
  decodeColumns data 0 schema.columns

/-! ## The MVCC header -/

def mvccHeaderSize : Nat := 8

def packTuple (xmin xmax : Nat) (rowPayload : Bytes) : Except PyError Bytes :=
  if xmin < 2 ^ 32 ∧ xmax < 2 ^ 32 then .ok (littleEndian 4 xmin ++ littleEndian 4 xmax ++ rowPayload)
  else .error .structError

def unpackTupleHeader (data : Bytes) : Except PyError (Nat × Nat) := do
  return (← unpackFrom data 0 4, ← unpackFrom data 4 4)

def tuplePayload (data : Bytes) : Bytes := data.drop mvccHeaderSize

def withXmax (data : Bytes) (xmax : Nat) : Except PyError Bytes := do
  let (xmin, _) ← unpackTupleHeader data
  packTuple xmin xmax (tuplePayload data)

/-! ## What is written is read back -/

/-- A value of the column's type, within its range. -/
def Datum.HasType : Datum → ColumnType → Prop
  | .int i, .int => -2 ^ 63 ≤ i ∧ i < 2 ^ 63
  | .float _, .float => True
  | .bool _, .bool => True
  | .text s, .text => s.utf8ByteSize ≤ 0xFFFF
  | _, _ => False

/-- A row with a value of its type for every column. -/
def WellTyped (values : List Datum) (columns : List Column) : Prop :=
  List.Forall₂ (fun value col => value.HasType col.type) values columns

/-- The bytes of a value in a column of its type. -/
def Datum.bytes : Datum → Bytes
  | .none => []
  | .int i => littleEndian 8 (unsigned 8 i)
  | .float bits => littleEndian 8 bits.toNat
  | .bool b => littleEndian 1 (if b then 1 else 0)
  | .text s => littleEndian 2 (utf8 s).length ++ utf8 s

section
variable {B : Builtins} {value : Datum} {colType : ColumnType}

theorem encodeValue_eq (h : value.HasType colType) : encodeValue B value colType = .ok value.bytes := by
  cases value with
  | none => cases colType <;> exact h.elim
  | int i =>
    cases colType with
    | int =>
      simp only [encodeValue, B.int_int]
      exact if_pos h
    | float | text | bool => exact h.elim
  | float bits =>
    cases colType with
    | float =>
      simp only [encodeValue, B.float_float]
      rfl
    | int | text | bool => exact h.elim
  | bool b =>
    cases colType with
    | bool =>
      simp only [encodeValue, B.bool_bool]
      rfl
    | int | float | text => exact h.elim
  | text s =>
    cases colType with
    | text =>
      have hfits : s.utf8ByteSize ≤ 0xFFFF := h
      simp only [encodeValue, B.str_text, length_utf8, Datum.bytes]
      exact if_neg (by omega)
    | int | float | bool => exact h.elim

theorem unpackFrom_of_le {data : Bytes} {offset width : Nat} (h : offset + width ≤ data.length) :
    ∃ n, unpackFrom data offset width = .ok n := by
  rw [unpackFrom, fieldAt, if_pos h]
  exact ⟨_, rfl⟩

theorem unpackFrom_error {data : Bytes} {offset width : Nat} {e : PyError} (h : unpackFrom data offset width = .error e) :
    e = .structError ∧ data.length < offset + width := by
  by_cases hle : offset + width ≤ data.length
  · obtain ⟨n, hn⟩ := unpackFrom_of_le hle
    rw [hn] at h
    cases h
  · rw [unpackFrom, fieldAt, if_neg hle] at h
    cases h
    exact ⟨rfl, Nat.lt_of_not_le hle⟩

theorem unpackFrom_lt {data : Bytes} {offset width n : Nat} (h : unpackFrom data offset width = .ok n) :
    n < 256 ^ width := by
  unfold unpackFrom at h
  split at h
  · rename_i m hfield
    cases h
    exact fieldAt_lt hfield
  · cases h

theorem unpackFrom_written {before after : Bytes} {width n : Nat} (h : n < 256 ^ width) :
    unpackFrom (before ++ (littleEndian width n ++ after)) before.length width = .ok n := by
  rw [unpackFrom, fieldAt_written h]

/-- A value is read back at any offset, whatever stands before and after it. -/
theorem decodeValue_bytes (h : value.HasType colType) (before after : Bytes) :
    decodeValue (before ++ (value.bytes ++ after)) before.length colType =
      .ok (value, value.bytes.length) := by
  cases value with
  | none => cases colType <;> exact h.elim
  | int i =>
    cases colType with
    | int =>
      have hrange : -2 ^ 63 ≤ i ∧ i < 2 ^ 63 := h
      have hsigned : signed 8 (unsigned 8 i) = i :=
        signed_unsigned (by norm_num; omega) (by norm_num; omega)
      rw [Datum.bytes, decodeValue, unpackFrom_written (unsigned_lt 8 i), length_littleEndian]
      simp [hsigned]
    | float | text | bool => exact h.elim
  | float bits =>
    cases colType with
    | float =>
      have hlt : bits.toNat < 256 ^ 8 := bits.isLt
      rw [Datum.bytes, decodeValue, unpackFrom_written hlt, length_littleEndian]
      simp
    | int | text | bool => exact h.elim
  | bool b =>
    cases colType with
    | bool =>
      have hlt : (if b then 1 else 0) < 256 ^ 1 := by cases b <;> decide
      rw [Datum.bytes, decodeValue, unpackFrom_written hlt, length_littleEndian]
      cases b <;> rfl
    | int | float | text => exact h.elim
  | text s =>
    cases colType with
    | text =>
      have hfits : s.utf8ByteSize ≤ 0xFFFF := h
      have hlt : (utf8 s).length < 256 ^ 2 := by
        rw [length_utf8]
        omega
      have hslice : ((before ++ (littleEndian 2 (utf8 s).length ++ (utf8 s ++ after))).drop
          (before.length + 2)).take (utf8 s).length = utf8 s := by
        have hskip : before.length + 2 = (before ++ littleEndian 2 (utf8 s).length).length := by simp
        rw [hskip, ← List.append_assoc before, List.drop_left, List.take_left]
      rw [Datum.bytes, decodeValue, List.append_assoc, unpackFrom_written hlt]
      simp only [bind, Except.bind, hslice, (fromUTF8?_eq_some (s := s)).mpr rfl]
      rw [List.length_append, length_littleEndian]
      rfl
    | int | float | bool => exact h.elim

end

section
variable {B : Builtins} {schema : Schema} {columns : List Column} {values values' : List Datum}
  {data data' : Bytes}

theorem encodeFields_eq (h : WellTyped values columns) :
    (values.zip columns).mapM (fun (v, col) => encodeValue B v col.type) =
      .ok (values.map Datum.bytes) := by
  refine mapM_eq_ok.mpr ?_
  induction h with
  | nil => rfl
  | cons hvalue _ ih =>
    rw [List.zip_cons_cons, List.map_cons, List.map_cons, List.map_cons, ih]
    exact congrArg (· :: _) (encodeValue_eq hvalue)

theorem encodeRow_eq (h : WellTyped values schema.columns) :
    encodeRow B values schema = .ok (values.flatMap Datum.bytes) := by
  rw [encodeRow, if_neg (not_not.mpr h.length_eq), encodeFields_eq h, List.flatMap_def]
  rfl

/-- By induction on the columns: each is read where the columns before it end. -/
theorem decodeColumns_bytes (h : WellTyped values columns) (before after : Bytes) :
    decodeColumns (before ++ (values.flatMap Datum.bytes ++ after)) before.length columns =
      .ok values := by
  induction h generalizing before with
  | nil => rfl
  | @cons value col values columns hvalue _ ih =>
    have hnext := ih (before ++ value.bytes)
    rw [List.append_assoc, List.length_append] at hnext
    rw [List.flatMap_cons, List.append_assoc, decodeColumns, decodeValue_bytes hvalue]
    simp only [bind, Except.bind, hnext]
    rfl

theorem decodeRow_bytes (h : WellTyped values schema.columns) (rest : Bytes) :
    decodeRow (values.flatMap Datum.bytes ++ rest) schema = .ok values := decodeColumns_bytes h [] rest

/-- The bytes of one row do not start the bytes of another. -/
theorem bytes_prefix (h : WellTyped values schema.columns) (h' : WellTyped values' schema.columns)
    (hstarts : values.flatMap Datum.bytes <+: values'.flatMap Datum.bytes) :
    values.flatMap Datum.bytes = values'.flatMap Datum.bytes := by
  obtain ⟨rest, hrest⟩ := hstarts
  have hread := decodeRow_bytes h rest
  have hread' := decodeRow_bytes h' []
  rw [List.append_nil, ← hrest, hread] at hread'
  cases hread'
  rfl

end

/-! ## Fields without bytes

The model of the database keeps a row as its fields and a float as a number. What it computes
is what the bytes say. -/

/-- Both fail with the same error, or both return and what they return is related. -/
def Alike {α β : Type} (R : α → β → Prop) : Except PyError α → Except PyError β → Prop
  | .ok a, .ok b => R a b
  | .error e, .error e' => e = e'
  | _, _ => False

namespace Alike

theorem bind {α β α' β' : Type} {R : α → β → Prop} {S : α' → β' → Prop} {x : Except PyError α}
    {y : Except PyError β} {f : α → Except PyError α'} {g : β → Except PyError β'}
    (h : Alike R x y) (hfg : ∀ a b, R a b → Alike S (f a) (g b)) : Alike S (x >>= f) (y >>= g) := by
  cases x with
  | ok a =>
    cases y with
    | ok b => exact hfg a b h
    | error e => exact h.elim
  | error e =>
    cases y with
    | ok b => exact h.elim
    | error e' => exact h

theorem mapM {α β α' β' : Type} {R : α → β → Prop} {S : α' → β' → Prop}
    {f : α → Except PyError α'} {g : β → Except PyError β'} {l : List α} {l' : List β}
    (h : List.Forall₂ R l l') (hfg : ∀ a b, R a b → Alike S (f a) (g b)) :
    Alike (List.Forall₂ S) (l.mapM f) (l'.mapM g) := by
  induction h with
  | nil => exact List.Forall₂.nil
  | cons hhead _ ih =>
    rw [List.mapM_cons, List.mapM_cons]
    exact (hfg _ _ hhead).bind fun _ _ hcell => ih.bind fun _ _ hcells => .cons hcell hcells

end Alike

section
variable (number : BitVec 64 → PyFloat)

/-- The value, with the number that a bit pattern stands for. -/
def Datum.value : Datum → Value
  | .none => .none
  | .int i => .int i
  | .float bits => .float (number bits)
  | .bool b => .bool b
  | .text s => .str s

/-- The functions of the interpreter that the model of the database takes. -/
structure Builtins.Refines (B : Builtins) (C : Conversions) : Prop where
  int : ∀ d, B.int d = C.toInt (d.value number)
  float : ∀ d, Alike (fun bits x => number bits = x) (B.float d) (C.toFloat (d.value number))
  str : ∀ d, B.str d = C.toStr (d.value number)
  bool : ∀ d, B.bool d = (d.value number).truthy

/-- The bytes of a field. -/
def Stored (cell : Cell) (bytes : Bytes) : Prop :=
  ∃ d : Datum, d.HasType cell.type ∧ d.value number = cell.value ∧ bytes = d.bytes

end

section
variable {number : BitVec 64 → PyFloat} {B : Builtins} {C : Conversions} {cell : Cell} {bytes : Bytes}

theorem encodeValue_refines (h : B.Refines number C) (d : Datum) (colType : ColumnType) :
    Alike (fun bytes cell => Stored number cell bytes) (encodeValue B d colType)
      (Minirel.encodeValue C (d.value number) colType) := by
  cases colType with
  | int =>
    simp only [encodeValue, Minirel.encodeValue, h.int]
    cases C.toInt (d.value number) with
    | error e => rfl
    | ok i =>
      by_cases hfits : -2 ^ 63 ≤ i ∧ i < 2 ^ 63
      · simp only [bind, Except.bind, if_pos hfits, dif_pos hfits]
        exact ⟨.int i, hfits, rfl, rfl⟩
      · simp only [bind, Except.bind, if_neg hfits, dif_neg hfits]
        rfl
  | float => exact (h.float d).bind fun bits x hbits => ⟨.float bits, trivial, by rw [← hbits]; rfl, rfl⟩
  | bool =>
    simp only [encodeValue, Minirel.encodeValue, h.bool]
    exact ⟨.bool _, trivial, rfl, rfl⟩
  | text =>
    simp only [encodeValue, Minirel.encodeValue, h.str, length_utf8]
    by_cases hfits : (C.toStr (d.value number)).utf8ByteSize ≤ 0xFFFF
    · rw [if_neg (by omega), dif_pos hfits, ← length_utf8]
      exact ⟨.text _, hfits, rfl, rfl⟩
    · rw [if_pos (by omega), dif_neg hfits]
      rfl

/-- Encoding a row as bytes and as fields fails alike, or the bytes are those of the fields. -/
theorem encodeRow_refines (h : B.Refines number C) (values : List Datum) (schema : Schema) :
    Alike (fun data cells => ∃ fields, List.Forall₂ (fun bytes cell => Stored number cell bytes)
        fields cells ∧ data = fields.flatten)
      (encodeRow B values schema) (Minirel.encodeRow C (values.map (Datum.value number)) schema) := by
  simp only [encodeRow, Minirel.encodeRow, List.length_map]
  split
  · rfl
  · have hrows : List.Forall₂ (fun (x : Datum × Column) (y : Value × Column) =>
        x.1.value number = y.1 ∧ x.2 = y.2) (values.zip schema.columns)
        ((values.map (Datum.value number)).zip schema.columns) := by
      rw [List.zip_map_left, List.forall₂_map_right_iff]
      exact List.forall₂_same.mpr fun _ _ => ⟨rfl, rfl⟩
    have hfields := Alike.mapM (S := fun bytes cell => Stored number cell bytes)
      (f := fun x : Datum × Column => encodeValue B x.1 x.2.type)
      (g := fun y : Value × Column => Minirel.encodeValue C y.1 y.2.type) hrows ?_
    · have hall := hfields.bind (f := fun fields => pure fields.flatten) (g := pure)
        (S := fun data cells => ∃ fields, List.Forall₂ (fun bytes cell => Stored number cell bytes)
          fields cells ∧ data = fields.flatten) fun fields cells hcells => ⟨fields, hcells, rfl⟩
      rwa [bind_pure] at hall
    · rintro ⟨d, col⟩ ⟨_, _⟩ ⟨rfl, rfl⟩
      exact encodeValue_refines h d col.type

/-- What is read from the bytes of a field is what the field holds. -/
theorem decodeValue_stored (h : Stored number cell bytes) (before after : Bytes) :
    ∃ d, decodeValue (before ++ (bytes ++ after)) before.length cell.type = .ok (d, bytes.length) ∧
      d.value number = cell.value := by
  obtain ⟨d, htype, hvalue, rfl⟩ := h
  exact ⟨d, decodeValue_bytes htype before after, hvalue⟩

end

/-! ## Stamps -/

section
variable {xmin xmax : Nat} {payload data : Bytes}

/-- A packed tuple holds its header and its payload. -/
theorem packTuple_eq_ok (h : packTuple xmin xmax payload = .ok data) :
    unpackTupleHeader data = .ok (xmin, xmax) ∧ tuplePayload data = payload ∧
      data.length = mvccHeaderSize + payload.length := by
  unfold packTuple at h
  split at h
  · rename_i hfits
    cases h
    have hmin : unpackFrom (littleEndian 4 xmin ++ littleEndian 4 xmax ++ payload) 0 4 = .ok xmin := by
      simpa using @unpackFrom_written [] (littleEndian 4 xmax ++ payload) 4 xmin (by omega)
    have hmax : unpackFrom (littleEndian 4 xmin ++ littleEndian 4 xmax ++ payload) 4 4 = .ok xmax := by
      simpa using @unpackFrom_written (littleEndian 4 xmin) payload 4 xmax (by omega)
    refine ⟨?_, ?_, ?_⟩
    · rw [unpackTupleHeader, hmin, hmax]
      rfl
    · exact List.drop_left' (by simp [mvccHeaderSize])
    · simp [mvccHeaderSize]
      omega
  · cases h

/-- A stamp leaves all but `xmax` as it is. -/
theorem withXmax_eq (h : packTuple xmin xmax payload = .ok data) (stamp : Nat) :
    withXmax data stamp = packTuple xmin stamp payload := by
  obtain ⟨hheader, hpayload, -⟩ := packTuple_eq_ok h
  rw [withXmax, hheader, hpayload]
  rfl

/-- By induction on the stamps. -/
theorem stamps_eq {stamps : List Nat} (hstamps : ∀ stamp ∈ stamps, stamp < 2 ^ 32)
    (hmin : xmin < 2 ^ 32) (h : packTuple xmin xmax payload = .ok data) :
    ∃ stamped, stamps.foldlM withXmax data = .ok stamped ∧
      packTuple xmin (stamps.getLastD xmax) payload = .ok stamped := by
  induction stamps generalizing xmax data with
  | nil => exact ⟨data, rfl, h⟩
  | cons stamp stamps ih =>
    obtain ⟨hstamp, hstamps⟩ := List.forall_mem_cons.mp hstamps
    have hpacked : packTuple xmin stamp payload =
        .ok (littleEndian 4 xmin ++ littleEndian 4 stamp ++ payload) := if_pos ⟨hmin, hstamp⟩
    obtain ⟨stamped, hrun, hlast⟩ := ih hstamps hpacked
    refine ⟨stamped, ?_, ?_⟩
    · rw [List.foldlM_cons, withXmax_eq h, hpacked]
      exact hrun
    · rwa [List.getLastD_cons]

end

/-- The encoding of rows is read back, also with bytes after it, so that no row's bytes start
    another's; and a stored tuple keeps its length, its `xmin` and its row under any number of
    stamps, and carries the last of them. -/
theorem encodeRow_stamped (B : Builtins) (schema : Schema) :
    (∀ values, WellTyped values schema.columns → ∃ data, encodeRow B values schema = .ok data ∧
      ∀ rest, decodeRow (data ++ rest) schema = .ok values) ∧
    (∀ values values' data data', WellTyped values schema.columns →
      WellTyped values' schema.columns → encodeRow B values schema = .ok data →
      encodeRow B values' schema = .ok data' → data <+: data' → data = data') ∧
    ∀ values data xmin xmax (stamps : List Nat), WellTyped values schema.columns →
      encodeRow B values schema = .ok data → xmin < 2 ^ 32 → xmax < 2 ^ 32 →
      (∀ stamp ∈ stamps, stamp < 2 ^ 32) →
      ∃ tuple stamped, packTuple xmin xmax data = .ok tuple ∧
        stamps.foldlM withXmax tuple = .ok stamped ∧ stamped.length = tuple.length ∧
        unpackTupleHeader stamped = .ok (xmin, stamps.getLastD xmax) ∧
        tuplePayload stamped = tuplePayload tuple ∧
        decodeRow (tuplePayload stamped) schema = .ok values := by
  refine ⟨fun values h => ⟨_, encodeRow_eq h, decodeRow_bytes h⟩, ?_, ?_⟩
  · intro values values' data data' h h' hdata hdata' hstarts
    cases (encodeRow_eq h).symm.trans hdata
    cases (encodeRow_eq h').symm.trans hdata'
    exact bytes_prefix h h' hstarts
  intro values data xmin xmax stamps hvalues hdata hmin hmax hstamps
  have hbytes : data = values.flatMap Datum.bytes := Except.ok.inj (hdata.symm.trans (encodeRow_eq hvalues))
  have hpacked : packTuple xmin xmax data =
      .ok (littleEndian 4 xmin ++ littleEndian 4 xmax ++ data) := if_pos ⟨hmin, hmax⟩
  obtain ⟨stamped, hrun, hlast⟩ := stamps_eq hstamps hmin hpacked
  obtain ⟨-, hpayload, hlen⟩ := packTuple_eq_ok hpacked
  obtain ⟨hheader', hpayload', hlen'⟩ := packTuple_eq_ok hlast
  refine ⟨_, stamped, hpacked, hrun, hlen'.trans hlen.symm, hheader', hpayload'.trans hpayload.symm, ?_⟩
  rw [hpayload', hbytes]
  simpa using decodeRow_bytes hvalues []

/-- A column of every type. -/
def everyType : Schema :=
  ⟨[⟨"id", .int⟩, ⟨"name", .text⟩, ⟨"price", .float⟩, ⟨"active", .bool⟩]⟩

theorem encodeRow_stamped_every :
    ∃ data, encodeRow .strict [.int (-100), .text "héllo", .float 0#64, .bool true] everyType =
        .ok data ∧
      ∀ rest, decodeRow (data ++ rest) everyType =
        .ok [.int (-100), .text "héllo", .float 0#64, .bool true] := by
  refine (encodeRow_stamped .strict everyType).1 _ (.cons ?_ (.cons ?_ (.cons ?_ (.cons ?_ .nil))))
  · exact ⟨by decide, by decide⟩
  · show "héllo".utf8ByteSize ≤ 0xFFFF
    decide
  · trivial
  · trivial

end Encoding

end Minirel
