-- SUMMARY: The bytes of the log file: how records are laid out and read back, and what a torn tail does to later appends.
import Minirel.Lib.Bytes
import Minirel.Wal
import Mathlib.Data.List.Basic

/-!
# The log file

`wal.py` down to bytes. A record is `[type: u8][txn_id: u32][payload_len: u32]`
followed by its payload as JSON, with nothing between two records. JSON is the
interpreter's own: a `Json` has its two functions, and the results below assume
only that reading inverts writing.

Opening a log for appending leaves its bytes alone, also those of a record that a
crash cut off. `readAll_append_iff` says what this costs.
-/

namespace Minirel

variable {π : Type}

/-- `json.dumps` of a payload that is not empty, encoded, and `json.loads`. -/
structure Json (π : Type) where
  dumps : π → Bytes
  loads : Bytes → Except PyError π

/-- Reading inverts writing, and a text is never empty. -/
structure Json.Lawful (J : Json π) : Prop where
  loads_dumps : ∀ p, J.loads (J.dumps p) = .ok p
  dumps_ne : ∀ p, J.dumps p ≠ []

/-! ## Fields -/

/-- A little-endian 32-bit field. -/
def packU32 (n : Nat) : Bytes :=
  [.ofNat n, .ofNat (n / 2 ^ 8), .ofNat (n / 2 ^ 16), .ofNat (n / 2 ^ 24)]

def unpackU32 (b₀ b₁ b₂ b₃ : UInt8) : Nat :=
  b₀.toNat + b₁.toNat * 2 ^ 8 + b₂.toNat * 2 ^ 16 + b₃.toNat * 2 ^ 24

theorem unpackU32_packU32 {n : Nat} (h : n < 2 ^ 32) :
    unpackU32 (.ofNat n) (.ofNat (n / 2 ^ 8)) (.ofNat (n / 2 ^ 16)) (.ofNat (n / 2 ^ 24)) = n := by
  simp only [unpackU32, UInt8.toNat_ofNat']
  omega

def RecordType.code : RecordType → UInt8
  | .begin => 1
  | .op => 2
  | .commit => 3
  | .abort => 4
  | .checkpoint => 5

/-- `RecordType(code)`. -/
def RecordType.ofCode (code : UInt8) : Except PyError RecordType :=
  match code.toNat with
  | 1 => .ok .begin
  | 2 => .ok .op
  | 3 => .ok .commit
  | 4 => .ok .abort
  | 5 => .ok .checkpoint
  | n => .error (.valueError s!"{n} is not a valid RecordType")

@[simp] theorem RecordType.ofCode_code (type : RecordType) : ofCode type.code = .ok type := by
  cases type <;> rfl

/-! ## Writing -/

namespace WalFile

def headerSize : Nat := 9

/-- The body of a record; an empty payload has none. -/
def body (J : Json π) : Option π → Bytes
  | none => []
  | some p => J.dumps p

/-- The bytes `_append` writes. Packing the header fails, before anything is written,
    when a field does not fit. -/
def encode (J : Json π) (r : LogRecord π) : Except PyError Bytes :=
  let b := body J r.payload
  if r.txnId < 2 ^ 32 ∧ b.length < 2 ^ 32 then
    .ok (r.type.code :: (packU32 r.txnId ++ packU32 b.length ++ b))
  else .error .structError

/-- `_append`: the offset of the new record, and the file with it. -/
def append (J : Json π) (file : Bytes) (r : LogRecord π) : Except PyError (Nat × Bytes) := do
  return (file.length, file ++ (← encode J r))

/-- A sequence of appends: the records with their offsets, and the file. -/
def appendAll (J : Json π) : Bytes → List (LogRecord π) →
    Except PyError (List (Nat × LogRecord π) × Bytes)
  | file, [] => .ok ([], file)
  | file, r :: rs => do
    let (offset, file) ← append J file r
    let (records, file) ← appendAll J file rs
    return ((offset, r) :: records, file)

/-! ## Reading -/

/-- The payload of a body. -/
def payload (J : Json π) (b : Bytes) : Except PyError (Option π) :=
  if b = [] then .ok none else return some (← J.loads b)

/-- The loop of `_iter_records` from `offset` on, for `fuel` records. It stops at a
    header or a body that is cut off. -/
def iterRecords (J : Json π) : Nat → Nat → Bytes → Except PyError (List (Nat × LogRecord π))
  | 0, _, _ => .error .diverges
  | fuel + 1, offset, bytes =>
    match bytes with
    | type :: t₀ :: t₁ :: t₂ :: t₃ :: n₀ :: n₁ :: n₂ :: n₃ :: rest => do
      let payloadLen := unpackU32 n₀ n₁ n₂ n₃
      if rest.length < payloadLen then return []
      else
        let payload ← payload J (rest.take payloadLen)
        let type ← RecordType.ofCode type
        let records ← iterRecords J fuel (offset + headerSize + payloadLen) (rest.drop payloadLen)
        return (offset, ⟨type, unpackU32 t₀ t₁ t₂ t₃, payload⟩) :: records
    | _ => .ok []

def readAll (J : Json π) (file : Bytes) : Except PyError (List (Nat × LogRecord π)) :=
  iterRecords J (file.length + 1) 0 file

/-! ## One record -/

variable {J : Json π}

theorem encode_ok {r : LogRecord π} {bytes : Bytes} (h : encode J r = .ok bytes) :
    r.txnId < 2 ^ 32 ∧ (body J r.payload).length < 2 ^ 32 ∧
      bytes = r.type.code ::
        (packU32 r.txnId ++ packU32 (body J r.payload).length ++ body J r.payload) := by
  unfold encode at h
  dsimp only at h
  split at h
  · rename_i hfits
    cases h
    exact ⟨hfits.1, hfits.2, rfl⟩
  · cases h

theorem length_encode {r : LogRecord π} {bytes : Bytes} (h : encode J r = .ok bytes) :
    bytes.length = headerSize + (body J r.payload).length := by
  obtain ⟨-, -, rfl⟩ := encode_ok h
  simp [packU32, headerSize]
  omega

theorem payload_body (hJ : J.Lawful) (p : Option π) : payload J (body J p) = .ok p := by
  cases p with
  | none => rfl
  | some p => simp [payload, body, hJ.dumps_ne, hJ.loads_dumps, bind, Except.bind, pure, Except.pure]

/-- Reading takes a complete record off the front, whatever follows it. -/
theorem iterRecords_encode (hJ : J.Lawful) {r : LogRecord π} {bytes : Bytes}
    (h : encode J r = .ok bytes) (fuel offset : Nat) (rest : Bytes) :
    iterRecords J (fuel + 1) offset (bytes ++ rest) = do
      let records ← iterRecords J fuel (offset + bytes.length) rest
      return (offset, r) :: records := by
  have hlen := length_encode h
  obtain ⟨hid, hbody, rfl⟩ := encode_ok h
  simp only [packU32, List.cons_append, List.nil_append, iterRecords, unpackU32_packU32 hid,
    unpackU32_packU32 hbody]
  rw [if_neg (by simp), List.take_left, List.drop_left, payload_body hJ]
  simp only [bind, Except.bind, RecordType.ofCode_code]
  simp only [packU32, List.cons_append, List.nil_append] at hlen
  rw [hlen, Nat.add_assoc]

/-- A record that is cut off anywhere reads as the end of the log. -/
theorem iterRecords_torn {r : LogRecord π} {bytes torn : Bytes} (h : encode J r = .ok bytes)
    (hpre : torn <+: bytes) (hproper : torn ≠ bytes) (fuel offset : Nat) :
    iterRecords J (fuel + 1) offset torn = .ok [] := by
  have hlt : torn.length < bytes.length := by
    refine lt_of_le_of_ne hpre.length_le fun heq => hproper (hpre.eq_of_length heq)
  rw [length_encode h] at hlt
  obtain ⟨hid, hbody, rfl⟩ := encode_ok h
  unfold iterRecords
  split
  · rename_i type t₀ t₁ t₂ t₃ n₀ n₁ n₂ n₃ rest
    -- the header is whole, so it is the body that is cut off
    simp only [packU32, List.cons_append, List.nil_append, List.cons_prefix_cons] at hpre
    obtain ⟨-, -, -, -, -, rfl, rfl, rfl, rfl, -⟩ := hpre
    rw [unpackU32_packU32 hbody, if_pos]
    · rfl
    · simp only [List.length_cons, headerSize] at hlt
      omega
  · rfl

/-- Whatever the bytes are, the first record read starts where reading starts. -/
theorem iterRecords_head {fuel offset : Nat} {bytes : Bytes} {x : Nat × LogRecord π}
    {records : List (Nat × LogRecord π)}
    (h : iterRecords J fuel offset bytes = .ok (x :: records)) : x.1 = offset := by
  cases fuel with
  | zero => cases h
  | succ fuel =>
    unfold iterRecords at h
    split at h
    · dsimp only at h
      split at h
      · cases h
      · obtain ⟨p, -, h⟩ := bind_eq_ok.mp h
        obtain ⟨type, -, h⟩ := bind_eq_ok.mp h
        obtain ⟨rest, -, h⟩ := bind_eq_ok.mp h
        cases h
        rfl
    · cases h

/-! ## Sequences of records -/

theorem appendAll_cons {file file' : Bytes} {r : LogRecord π} {rs : List (LogRecord π)}
    {records : List (Nat × LogRecord π)} (h : appendAll J file (r :: rs) = .ok (records, file')) :
    ∃ bytes rest, encode J r = .ok bytes ∧ appendAll J (file ++ bytes) rs = .ok (rest, file') ∧
      records = (file.length, r) :: rest := by
  obtain ⟨⟨offset, file₁⟩, happend, h⟩ := bind_eq_ok.mp h
  obtain ⟨bytes, hbytes, happend⟩ := bind_eq_ok.mp happend
  cases happend
  obtain ⟨⟨rest, file₂⟩, hrest, h⟩ := bind_eq_ok.mp h
  cases h
  exact ⟨bytes, rest, hbytes, hrest, rfl⟩

/-- Appended records are read back at their offsets, whatever follows them. -/
theorem iterRecords_appendAll (hJ : J.Lawful) {file file' : Bytes} {rs : List (LogRecord π)}
    {records : List (Nat × LogRecord π)} (h : appendAll J file rs = .ok (records, file')) :
    ∃ bytes, file' = file ++ bytes ∧ rs.length ≤ bytes.length ∧
      ∀ fuel rest, iterRecords J (fuel + rs.length) file.length (bytes ++ rest) = do
        let more ← iterRecords J fuel file'.length rest
        return records ++ more := by
  induction rs generalizing file records with
  | nil =>
    cases h
    refine ⟨[], by simp, le_rfl, fun fuel rest => ?_⟩
    simp [bind, Except.bind, pure, Except.pure]
    cases iterRecords J fuel file'.length rest <;> rfl
  | cons r rs ih =>
    obtain ⟨bytes, records, hr, hrs, rfl⟩ := appendAll_cons h
    obtain ⟨bytes', rfl, hlen, hiter⟩ := ih hrs
    have hpos := length_encode hr
    refine ⟨bytes ++ bytes', by simp, ?_, fun fuel rest => ?_⟩
    · simp only [List.length_cons, List.length_append, headerSize] at hpos ⊢
      omega
    · rw [List.length_cons, ← Nat.add_assoc, List.append_assoc, iterRecords_encode hJ hr,
        ← List.length_append, hiter]
      cases iterRecords J fuel (file ++ bytes ++ bytes').length rest <;> rfl

/-- A file of complete records, read up to where something else follows. -/
theorem readAll_appendAll (hJ : J.Lawful) {file : Bytes} {rs : List (LogRecord π)}
    {records : List (Nat × LogRecord π)} (h : appendAll J [] rs = .ok (records, file))
    (rest : Bytes) :
    ∃ fuel, rest.length ≤ fuel ∧ readAll J (file ++ rest) = do
      let more ← iterRecords J (fuel + 1) file.length rest
      return records ++ more := by
  obtain ⟨bytes, hfile, hlen, hiter⟩ := iterRecords_appendAll hJ h
  rw [List.nil_append] at hfile
  subst hfile
  refine ⟨(file ++ rest).length - rs.length, ?_, ?_⟩
  · rw [List.length_append]
    omega
  · have hfuel : (file ++ rest).length + 1 =
        (file ++ rest).length - rs.length + 1 + rs.length := by
      rw [List.length_append]
      omega
    unfold readAll
    rw [hfuel]
    exact hiter _ rest

/-! ## Reading a truncated log -/

/-- The offset at which a record ends. -/
def recordEnd (J : Json π) (x : Nat × LogRecord π) : Nat :=
  x.1 + headerSize + (body J x.2.payload).length

/-- Records end after the file they were appended to. -/
theorem length_lt_recordEnd {file file' : Bytes} {rs : List (LogRecord π)}
    {records : List (Nat × LogRecord π)} (h : appendAll J file rs = .ok (records, file')) :
    ∀ x ∈ records, file.length < recordEnd J x := by
  induction rs generalizing file records with
  | nil =>
    cases h
    exact fun x hx => by cases hx
  | cons r rs ih =>
    obtain ⟨bytes, records, hr, hrs, rfl⟩ := appendAll_cons h
    refine List.forall_mem_cons.mpr ⟨?_, fun x hx => ?_⟩
    · simp only [recordEnd, headerSize]
      omega
    · have hlt := ih hrs x hx
      rw [List.length_append] at hlt
      omega

/-- The first bytes of appended records read as the records that end within them. -/
theorem iterRecords_take (hJ : J.Lawful) {file file' : Bytes} {rs : List (LogRecord π)}
    {records : List (Nat × LogRecord π)} (h : appendAll J file rs = .ok (records, file')) :
    ∃ bytes, file' = file ++ bytes ∧ ∀ fuel n, n ≤ fuel →
      iterRecords J (fuel + 1) file.length (bytes.take n) =
        .ok (records.filter fun x => recordEnd J x ≤ file.length + n) := by
  induction rs generalizing file records with
  | nil =>
    cases h
    exact ⟨[], (List.append_nil _).symm, fun fuel n _ => by rw [List.take_nil]; rfl⟩
  | cons r rs ih =>
    obtain ⟨bytes, records, hr, hrs, rfl⟩ := appendAll_cons h
    obtain ⟨bytes', rfl, hiter⟩ := ih hrs
    have hlen := length_encode hr
    have hend : recordEnd J (file.length, r) = file.length + bytes.length := by
      rw [recordEnd, hlen, Nat.add_assoc]
    refine ⟨bytes ++ bytes', List.append_assoc _ _ _, fun fuel n hfuel => ?_⟩
    by_cases hn : n < bytes.length
    · -- the cut is in the first record, and no record ends before it
      have htake : (bytes ++ bytes').take n = bytes.take n := List.take_append_of_le_length hn.le
      have hproper : bytes.take n ≠ bytes := fun heq => by
        have hlength := congrArg List.length heq
        rw [List.length_take] at hlength
        omega
      rw [htake, iterRecords_torn hr (List.take_prefix n bytes) hproper]
      refine congrArg Except.ok (List.filter_eq_nil_iff.mpr fun x hx => ?_).symm
      obtain rfl | hx := List.mem_cons.mp hx
      · rw [decide_eq_true_iff, hend]
        omega
      · have hlt := length_lt_recordEnd hrs x hx
        rw [List.length_append] at hlt
        rw [decide_eq_true_iff]
        omega
    · obtain ⟨m, rfl⟩ := Nat.exists_eq_add_of_le (not_lt.mp hn)
      obtain ⟨fuel, rfl⟩ : ∃ k, fuel = k + 1 := ⟨fuel - 1, by simp only [headerSize] at hlen; omega⟩
      have hiter := hiter fuel m (by simp only [headerSize] at hlen; omega)
      rw [List.length_append] at hiter
      rw [List.take_length_add_append, iterRecords_encode hJ hr, hiter,
        List.filter_cons_of_pos (by rw [decide_eq_true_iff, hend]; omega), Nat.add_assoc]
      rfl

/-- The first `n` bytes of a log read as the records that end at or before byte `n`. -/
theorem readAll_take (hJ : J.Lawful) {file : Bytes} {rs : List (LogRecord π)}
    {records : List (Nat × LogRecord π)} (h : appendAll J [] rs = .ok (records, file)) (n : Nat)
    (hn : n ≤ file.length) :
    readAll J (file.take n) = .ok (records.filter fun x => recordEnd J x ≤ n) := by
  obtain ⟨bytes, hfile, hiter⟩ := iterRecords_take hJ h
  rw [List.nil_append] at hfile
  subst hfile
  have hread := hiter n n le_rfl
  rw [List.length_nil, Nat.zero_add] at hread
  rw [readAll, List.length_take, Nat.min_eq_left hn]
  exact hread

/-- Payloads that all have the text of an empty object. -/
def braces : Json Unit where
  dumps _ := [0x7B, 0x7D]
  loads b := if b = [0x7B, 0x7D] then .ok () else .error (.valueError "not JSON")

theorem lawful_braces : braces.Lawful where
  loads_dumps _ := rfl
  dumps_ne _ := by simp [braces]

/-- A log of a `BEGIN`, an operation with a payload and a `COMMIT`, cut in the payload. -/
theorem readAll_take_torn : ∃ file,
    appendAll braces [] [⟨.begin, 1, none⟩, ⟨.op, 1, some ()⟩, ⟨.commit, 1, none⟩] =
      .ok ([(0, ⟨.begin, 1, none⟩), (9, ⟨.op, 1, some ()⟩), (20, ⟨.commit, 1, none⟩)], file) ∧
    readAll braces (file.take 19) = .ok ([(0, ⟨.begin, 1, none⟩), (9, ⟨.op, 1, some ()⟩),
      (20, ⟨.commit, 1, none⟩)].filter fun x => recordEnd braces x ≤ 19) := by
  have hlog : appendAll braces [] [⟨.begin, 1, none⟩, ⟨.op, 1, some ()⟩, ⟨.commit, 1, none⟩] =
      .ok ([(0, ⟨.begin, 1, none⟩), (9, ⟨.op, 1, some ()⟩), (20, ⟨.commit, 1, none⟩)],
        [1, 1, 0, 0, 0, 0, 0, 0, 0, 2, 1, 0, 0, 0, 2, 0, 0, 0, 0x7B, 0x7D, 3, 1, 0, 0, 0, 0, 0, 0, 0]) := rfl
  exact ⟨_, hlog, readAll_take lawful_braces hlog 19 (by decide)⟩

/-! ## Appending after a crash -/

/-- A log of complete records, then a record of which a crash has kept a proper
    part, then newly appended records: reading gives the old records and all the new
    ones, at the offsets `append` returned for them, exactly when the crash left
    nothing of the torn record or nothing is appended. -/
theorem readAll_append_iff (hJ : J.Lawful) {rs ns : List (LogRecord π)} {r : LogRecord π}
    {old torn bytes file : Bytes} {olds news : List (Nat × LogRecord π)}
    (hold : appendAll J [] rs = .ok (olds, old)) (hr : encode J r = .ok bytes)
    (hpre : torn <+: bytes) (hproper : torn ≠ bytes)
    (hnew : appendAll J (old ++ torn) ns = .ok (news, file)) :
    readAll J file = .ok (olds ++ news) ↔ torn = [] ∨ ns = [] := by
  obtain ⟨more, hfile, hlen, hiter⟩ := iterRecords_appendAll hJ hnew
  subst hfile
  obtain ⟨fuel, hfuel, hread⟩ := readAll_appendAll hJ hold (torn ++ more)
  rw [← List.append_assoc] at hread
  constructor
  · intro h
    by_contra hne
    obtain ⟨htorn, hns⟩ := not_or.mp hne
    obtain ⟨n, ns, rfl⟩ := List.exists_cons_of_ne_nil hns
    obtain ⟨-, news, -, -, rfl⟩ := appendAll_cons hnew
    -- what is read after the old records starts at the torn one
    rw [hread] at h
    obtain ⟨records, hrecords, h⟩ := bind_eq_ok.mp h
    obtain rfl : records = _ := List.append_cancel_left (Except.ok.inj h)
    have hoffset := iterRecords_head hrecords
    simp only [List.length_append] at hoffset
    exact htorn (List.length_eq_zero_iff.mp (by omega))
  · rintro (rfl | rfl)
    · simp only [List.append_nil, List.nil_append] at hread hfuel hiter ⊢
      obtain ⟨fuel', hfuel'⟩ : ∃ n, fuel + 1 = n + 1 + ns.length := ⟨fuel - ns.length, by omega⟩
      have hnews := hiter (fuel' + 1) []
      rw [List.append_nil] at hnews
      rw [hread, hfuel', hnews]
      simp [iterRecords, bind, Except.bind, pure, Except.pure]
    · obtain ⟨rfl, hmore⟩ : [] = news ∧ old ++ torn = old ++ torn ++ more := by
        simpa [appendAll] using hnew
      obtain rfl : more = [] := by simpa using hmore
      simp only [List.append_nil] at hread ⊢
      rw [hread, iterRecords_torn hr hpre hproper]
      simp [bind, Except.bind, pure, Except.pure]

/-- After a crash between two records a commit is read back. -/
theorem readAll_append_iff_clean : ∃ file,
    appendAll braces [1, 1, 0, 0, 0, 0, 0, 0, 0] [⟨.commit, 1, none⟩] =
      .ok ([(9, ⟨.commit, 1, none⟩)], file) ∧
    readAll braces file = .ok ([(0, ⟨.begin, 1, none⟩)] ++ [(9, ⟨.commit, 1, none⟩)]) := by
  have hold : appendAll braces [] [⟨.begin, 1, none⟩] =
      .ok ([(0, ⟨.begin, 1, none⟩)], [1, 1, 0, 0, 0, 0, 0, 0, 0]) := rfl
  have hr : encode braces ⟨.begin, 2, none⟩ = .ok [1, 2, 0, 0, 0, 0, 0, 0, 0] := rfl
  have hnew : appendAll braces ([1, 1, 0, 0, 0, 0, 0, 0, 0] ++ []) [⟨.commit, 1, none⟩] =
      .ok ([(9, ⟨.commit, 1, none⟩)],
        [1, 1, 0, 0, 0, 0, 0, 0, 0, 3, 1, 0, 0, 0, 0, 0, 0, 0]) := rfl
  exact ⟨_, hnew, (readAll_append_iff lawful_braces hold hr List.nil_prefix (by simp) hnew).mpr
    (.inl rfl)⟩

/-- One byte of a `BEGIN` record is left when the log is opened again and a commit
    appended: the commit is not found. -/
theorem not_readAll_append : ¬∀ (rs ns : List (LogRecord Unit)) (r : LogRecord Unit)
    (old torn bytes file : Bytes) (olds news : List (Nat × LogRecord Unit)),
    appendAll braces [] rs = .ok (olds, old) → encode braces r = .ok bytes →
    torn <+: bytes → torn ≠ bytes → appendAll braces (old ++ torn) ns = .ok (news, file) →
    readAll braces file = .ok (olds ++ news) := by
  intro h
  have hread := h [] [⟨.commit, 1, none⟩] ⟨.begin, 2, none⟩ [] [1] _ _ _ _ rfl rfl (by decide)
    (by decide) rfl
  exact absurd hread (by decide)

end WalFile
end Minirel
