-- SUMMARY: A heap page in its bytes: the rows in their slots, and what each write does to them.
import Minirel.Lib.Slices
import Minirel.Storage.HeapInsert

/-!
# Slotted pages

The slot directory grows from the header on, the rows from the end of the page. What the slots
of a page hold is a list beside its bytes: nothing for a slot that is free, a row with the place
where it stands otherwise.
-/

namespace Minirel

open Encoding

namespace RawHeap

/-! ## Rows -/

/-- What `get` reads of a page. -/
def readRow (data : Bytes) (slotId : Nat) : Except PyError (Option Bytes) := do
  let header ← readHeader data
  if header.numSlots ≤ slotId then return none
  else
    let (offset, length) ← readSlot data slotId
    if length = deleted then return none else return some ((data.drop offset).take length)

/-- What `update_in_place` does to a page. -/
def updateRow (slotId : Nat) (new : Bytes) : BytesM Bool := do
  let data ← get
  let header ← BytesM.lift (readHeader data)
  if header.numSlots ≤ slotId then return false
  else
    let (offset, length) ← BytesM.lift (readSlot data slotId)
    if length = deleted ∨ length ≠ new.length then return false
    else
      BytesM.setSlice offset (offset + length) new
      return true

/-- What `delete` does to a page. -/
def deleteRow (slotId : Nat) : BytesM Bool := do
  let data ← get
  let header ← BytesM.lift (readHeader data)
  if header.numSlots ≤ slotId then return false
  else
    let (_, length) ← BytesM.lift (readSlot data slotId)
    if length = deleted then return false
    else
      writeSlot slotId 0 deleted
      return true

/-! ## Reads after a write -/

section
variable {data new row : Bytes} {header : Header} {start offset width i length : Nat}

theorem packInto_eq {fields : List (Nat × Nat)} (hroom : offset + (packed fields).length ≤ data.length)
    (hfits : ∀ x ∈ fields, x.2 < 256 ^ x.1) :
    BytesM.packInto offset fields data = .ok () (writeAt data offset (packed fields)) :=
  if_pos ⟨hroom, hfits⟩

theorem setSlice_eq (data : Bytes) (start : Nat) (new : Bytes) :
    BytesM.setSlice start (start + new.length) new data = .ok () (writeAt data start new) := rfl

theorem unpackFrom_apart (hroom : start + new.length ≤ data.length)
    (hapart : offset + width ≤ start ∨ start + new.length ≤ offset) :
    unpackFrom (writeAt data start new) offset width = unpackFrom data offset width := by
  have hslice := slice_writeAt_apart hroom hapart
  unfold slice at hslice
  rw [unpackFrom, unpackFrom, fieldAt, fieldAt, length_writeAt hroom, hslice]

theorem readHeader_apart (hroom : start + new.length ≤ data.length) (hstart : 9 ≤ start) :
    readHeader (writeAt data start new) = readHeader data := by
  have hfield : ∀ {offset width}, offset + width ≤ 9 →
      unpackFrom (writeAt data start new) offset width = unpackFrom data offset width := fun hle =>
    unpackFrom_apart hroom (.inl (hle.trans hstart))
  rw [readHeader, readHeader, hfield (by decide), hfield (by decide), hfield (by decide), hfield (by decide)]

theorem readHeader_written (h : header.Fits) (data : Bytes) :
    readHeader (writeAt data 0 header.bytes) = .ok header := by
  rw [writeAt, List.take_zero, List.nil_append]
  exact readHeader_bytes h _

theorem slotOffset_succ (i : Nat) : HeapFile.slotOffset (i + 1) = HeapFile.slotOffset i + 4 := by
  simp only [HeapFile.slotOffset, HeapFile.slotSize]
  omega

theorem headerSize_le_slotOffset (i : Nat) : 9 ≤ HeapFile.slotOffset i := Nat.le_add_right ..

theorem readSlot_apart (hroom : start + new.length ≤ data.length)
    (hapart : HeapFile.slotOffset (i + 1) ≤ start ∨ start + new.length ≤ HeapFile.slotOffset i) :
    readSlot (writeAt data start new) i = readSlot data i := by
  rw [slotOffset_succ] at hapart
  rw [readSlot, readSlot, unpackFrom_apart hroom (by omega), unpackFrom_apart hroom (by omega)]

theorem readSlot_placed (hoffset : offset < 2 ^ 16) (hlength : length < 2 ^ 16)
    (hroom : HeapFile.slotOffset (i + 1) ≤ data.length) :
    readSlot (writeAt data (HeapFile.slotOffset i) (packed [(2, offset), (2, length)])) i =
      .ok (offset, length) := by
  have hbefore : (data.take (HeapFile.slotOffset i)).length = HeapFile.slotOffset i := by
    rw [slotOffset_succ] at hroom
    rw [List.length_take]
    omega
  generalize hrest : data.drop (HeapFile.slotOffset i + (packed [(2, offset), (2, length)]).length) = rest
  have h₀ := @unpackFrom_written (data.take (HeapFile.slotOffset i)) (littleEndian 2 length ++ rest) 2 offset
    hoffset
  have h₁ := @unpackFrom_written (data.take (HeapFile.slotOffset i) ++ littleEndian 2 offset) rest 2 length
    hlength
  simp only [List.length_append, length_littleEndian, hbefore, List.append_assoc] at h₀ h₁
  have hdata : writeAt data (HeapFile.slotOffset i) (packed [(2, offset), (2, length)]) =
      data.take (HeapFile.slotOffset i) ++ (littleEndian 2 offset ++ (littleEndian 2 length ++ rest)) := by
    rw [writeAt, hrest]
    simp [packed]
  rw [hdata, readSlot, h₀, h₁]
  rfl

end

/-! ## What a page holds -/

/-- A row in its place. -/
structure Placed (data : Bytes) (freePtr i offset : Nat) (row : Bytes) : Prop where
  slot : readSlot data i = .ok (offset, row.length)
  short : row.length < deleted
  above : freePtr ≤ offset
  within : offset + row.length ≤ pageSize
  bytes : slice data offset row.length = row

/-- The slots of a page and the rows in them. No two rows share a byte. -/
structure Slotted (data : Bytes) (freePtr next : Nat) (slots : List (Option (Nat × Bytes))) : Prop where
  length : data.length = pageSize
  header : readHeader data = .ok ⟨1, slots.length, freePtr, next⟩
  directory : HeapFile.slotOffset slots.length ≤ freePtr
  freePtr_le : freePtr ≤ pageSize
  free : ∀ i, slots[i]? = some none → ∃ offset, readSlot data i = .ok (offset, deleted)
  placed : ∀ i offset row, slots[i]? = some (some (offset, row)) → Placed data freePtr i offset row
  apart : ∀ (i j o : Nat) (row : Bytes) (o' : Nat) (row' : Bytes), i ≠ j → slots[i]? = some (some (o, row)) →
    slots[j]? = some (some (o', row')) → o + row.length ≤ o' ∨ o' + row'.length ≤ o

/-- The row in a slot. -/
def rowAt (slots : List (Option (Nat × Bytes))) (i : Nat) : Option Bytes := (slots[i]?).join.map (·.2)

section
variable {data data' new row : Bytes} {slots slots' : List (Option (Nat × Bytes))}
  {freePtr freePtr' next next' i : Nat}

theorem rowAt_eq_some : rowAt slots i = some row ↔ ∃ offset, slots[i]? = some (some (offset, row)) := by
  unfold rowAt
  constructor
  · intro h
    obtain ⟨⟨offset, row'⟩, hslot, rfl⟩ := Option.map_eq_some_iff.mp h
    exact ⟨offset, Option.join_eq_some_iff.mp hslot⟩
  · rintro ⟨offset, h⟩
    rw [h]
    rfl

/-- Writes that leave all slots but one, and their rows, as they are. -/
theorem Slotted.rewrite (h : Slotted data freePtr next slots) (hlength : data'.length = pageSize)
    (hheader : readHeader data' = .ok ⟨1, slots'.length, freePtr', next'⟩)
    (hdirectory : HeapFile.slotOffset slots'.length ≤ freePtr') (hle : freePtr' ≤ freePtr)
    (hother : ∀ j, j ≠ i → slots'[j]? = slots[j]?)
    (hslots : ∀ j, j ≠ i → j < slots.length → readSlot data' j = readSlot data j)
    (hrows : ∀ j offset row, j ≠ i → slots[j]? = some (some (offset, row)) →
      slice data' offset row.length = slice data offset row.length)
    (hfree : slots'[i]? = some none → ∃ offset, readSlot data' i = .ok (offset, deleted))
    (hplaced : ∀ offset row, slots'[i]? = some (some (offset, row)) → Placed data' freePtr' i offset row ∧
      ∀ j o r, j ≠ i → slots[j]? = some (some (o, r)) → offset + row.length ≤ o ∨ o + r.length ≤ offset) :
    Slotted data' freePtr' next' slots' where
  length := hlength
  header := hheader
  directory := hdirectory
  freePtr_le := hle.trans h.freePtr_le
  free j hj := by
    by_cases hji : j = i
    · subst hji
      exact hfree hj
    · rw [hother j hji] at hj
      rw [hslots j hji (List.getElem?_eq_some_iff.mp hj).1]
      exact h.free j hj
  placed j offset row hj := by
    by_cases hji : j = i
    · subst hji
      exact (hplaced offset row hj).1
    · rw [hother j hji] at hj
      have hold := h.placed j offset row hj
      refine ⟨?_, hold.short, hle.trans hold.above, hold.within, ?_⟩
      · rw [hslots j hji (List.getElem?_eq_some_iff.mp hj).1]
        exact hold.slot
      · rw [hrows j offset row hji hj]
        exact hold.bytes
  apart j k o r o' r' hne hj hk := by
    by_cases hji : j = i
    · subst hji
      rw [hother k hne.symm] at hk
      exact (hplaced o r hj).2 k o' r' hne.symm hk
    · rw [hother j hji] at hj
      by_cases hki : k = i
      · subst hki
        exact ((hplaced o' r' hk).2 j o r hji hj).symm
      · rw [hother k hki] at hk
        exact h.apart j k o r o' r' hne hj hk

/-! ## Writes -/

/-- The writes spare all slots but one, and all that stands from `bound` on. -/
structure Spares (data data' : Bytes) (i n bound : Nat) : Prop where
  length : data'.length = data.length
  slots : ∀ j, j ≠ i → j < n → readSlot data' j = readSlot data j
  rest : ∀ offset len, bound ≤ offset → slice data' offset len = slice data offset len

theorem Spares.trans {data'' : Bytes} {n bound bound' bound'' : Nat} (h : Spares data data' i n bound)
    (h' : Spares data' data'' i n bound') (hle : bound ≤ bound'') (hle' : bound' ≤ bound'') :
    Spares data data'' i n bound'' where
  length := h'.length.trans h.length
  slots j hj hn := (h'.slots j hj hn).trans (h.slots j hj hn)
  rest _ _ hstart := (h'.rest _ _ (hle'.trans hstart)).trans (h.rest _ _ (hle.trans hstart))

theorem Spares.mono {n bound bound' : Nat} (h : Spares data data' i n bound) (hle : bound ≤ bound') :
    Spares data data' i n bound' where
  length := h.length
  slots := h.slots
  rest _ _ hstart := h.rest _ _ (hle.trans hstart)

/-- A row is written behind the slot directory. -/
theorem row_written {start n : Nat} (hroom : start + row.length ≤ data.length)
    (hslots : HeapFile.slotOffset n ≤ start) :
    ∃ data', BytesM.setSlice start (start + row.length) row data = .ok () data' ∧
      Spares data data' i n (start + row.length) ∧ slice data' start row.length = row := by
  refine ⟨writeAt data start row, rfl, ⟨length_writeAt hroom, fun j _ hj => ?_, fun _ _ hle => ?_⟩,
    slice_writeAt_self hroom⟩
  · exact readSlot_apart hroom (.inl ((slotOffset_mono hj).trans hslots))
  · exact slice_writeAt_apart hroom (.inr hle)

theorem slot_written {n offset length : Nat} (hoffset : offset < 2 ^ 16) (hlength : length < 2 ^ 16)
    (hroom : HeapFile.slotOffset (i + 1) ≤ data.length) :
    ∃ data', writeSlot i offset length data = .ok () data' ∧
      Spares data data' i n (HeapFile.slotOffset (i + 1)) ∧ readHeader data' = readHeader data ∧
      readSlot data' i = .ok (offset, length) := by
  have hend : HeapFile.slotOffset i + (packed [(2, offset), (2, length)]).length =
      HeapFile.slotOffset (i + 1) := by
    simp [slotOffset_succ]
  have hroom' := hend.trans_le hroom
  have hfields : ∀ x ∈ [(2, offset), (2, length)], x.2 < 256 ^ x.1 := by
    simp only [List.forall_mem_cons]
    exact ⟨hoffset, hlength, by simp⟩
  refine ⟨_, packInto_eq hroom' hfields, ⟨length_writeAt hroom', fun j hj _ => readSlot_apart hroom' ?_,
    fun _ _ hle => slice_writeAt_apart hroom' (.inr (hend.trans_le hle))⟩,
    readHeader_apart hroom' (headerSize_le_slotOffset i), readSlot_placed hoffset hlength hroom⟩
  rw [hend]
  rcases Nat.lt_or_gt_of_ne hj with hlt | hgt
  · exact .inl (slotOffset_mono hlt)
  · exact .inr (slotOffset_mono hgt)

theorem header_written {header : Header} {n : Nat} (h : header.Fits) (hlength : 9 ≤ data.length) :
    ∃ data', writeHeader header data = .ok () data' ∧ Spares data data' i n 9 ∧
      readHeader data' = .ok header ∧ ∀ j, readSlot data' j = readSlot data j := by
  have hend : 0 + header.bytes.length = 9 := by rw [Header.length_bytes]
  have hroom := hend.trans_le hlength
  have hfields : ∀ x ∈ [(1, header.pageType), (2, header.numSlots), (2, header.freePtr), (4, header.nextPage)],
      x.2 < 256 ^ x.1 := by
    simp only [List.forall_mem_cons]
    exact ⟨h.1, h.2.1, h.2.2.1, h.2.2.2, by simp⟩
  have hslot : ∀ j, readSlot (writeAt data 0 header.bytes) j = readSlot data j := fun j =>
    readSlot_apart hroom (.inr (hend.trans_le (headerSize_le_slotOffset j)))
  exact ⟨_, packInto_eq hroom hfields, ⟨length_writeAt hroom, fun j _ _ => hslot j,
    fun _ _ hle => slice_writeAt_apart hroom (.inr (hend.trans_le hle))⟩, readHeader_written h data, hslot⟩

/-- A slot directory that ends on the page has fewer slots than a slot number can count. -/
theorem numSlots_lt {n : Nat} (h : HeapFile.slotOffset n ≤ pageSize) : n < 2 ^ 16 := by
  simp only [HeapFile.slotOffset, HeapFile.slotSize, HeapFile.headerSize, pageSize] at h
  omega

/-- One slot and its row are written, the others are spared. -/
theorem Slotted.of_spares (h : Slotted data freePtr next slots)
    (hspares : Spares data data' i slots.length freePtr)
    (hheader : readHeader data' = .ok ⟨1, slots'.length, freePtr', next'⟩)
    (hdirectory : HeapFile.slotOffset slots'.length ≤ freePtr') (hle : freePtr' ≤ freePtr)
    (hother : ∀ j, j ≠ i → slots'[j]? = slots[j]?)
    (hfree : slots'[i]? = some none → ∃ offset, readSlot data' i = .ok (offset, deleted))
    (hplaced : ∀ offset row, slots'[i]? = some (some (offset, row)) → Placed data' freePtr' i offset row ∧
      ∀ j o r, j ≠ i → slots[j]? = some (some (o, r)) → offset + row.length ≤ o ∨ o + r.length ≤ offset) :
    Slotted data' freePtr' next' slots' := by
  refine h.rewrite (hspares.length.trans h.length) hheader hdirectory hle hother hspares.slots ?_ hfree hplaced
  intro j offset row _ hj
  exact hspares.rest offset _ (h.placed j offset row hj).above

/-- A row is put below the others, and its slot into the directory. -/
theorem Slotted.place (h : Slotted data freePtr next slots)
    (hindex : slots'[i]? = some (some (freePtr - row.length, row)))
    (hother : ∀ j, j ≠ i → slots'[j]? = slots[j]?) (hmore : slots.length ≤ slots'.length)
    (hroom : HeapFile.slotOffset slots'.length + row.length ≤ freePtr) (hnext : next < 2 ^ 32) :
    ∃ data', (do
      BytesM.setSlice (freePtr - row.length) (freePtr - row.length + row.length) row
      writeSlot i (freePtr - row.length) row.length
      writeHeader ⟨1, slots'.length, freePtr - row.length, next⟩) data = .ok () data' ∧
      Slotted data' (freePtr - row.length) next slots' := by
  have hsize : pageSize = 4096 := rfl
  have hpage := h.freePtr_le
  have hlength := h.length
  have hslot : HeapFile.slotOffset (i + 1) ≤ HeapFile.slotOffset slots'.length :=
    slotOffset_mono (List.getElem?_eq_some_iff.mp hindex).1
  have hslots : HeapFile.slotOffset slots.length ≤ HeapFile.slotOffset slots'.length := slotOffset_mono hmore
  have hhead := headerSize_le_slotOffset (i + 1)
  have hnum : HeapFile.slotOffset slots'.length ≤ pageSize := by omega
  have hfits : Header.Fits ⟨1, slots'.length, freePtr - row.length, next⟩ :=
    ⟨show 1 < 256 by decide, numSlots_lt hnum, show freePtr - row.length < 2 ^ 16 by omega, hnext⟩
  -- the row, its slot and the header are written one after the other
  obtain ⟨d₁, hwrite₁, hspares₁, hrow⟩ :=
    @row_written data row i (freePtr - row.length) slots.length (by omega) (by omega)
  have hlength₁ := hspares₁.length
  obtain ⟨d₂, hwrite₂, hspares₂, -, hread⟩ :=
    @slot_written d₁ i slots.length (freePtr - row.length) row.length (by omega) (by omega) (by omega)
  have hlength₂ := hspares₂.length
  obtain ⟨d₃, hwrite₃, hspares₃, hheader, hsame⟩ := @header_written d₂ i _ slots.length hfits (by omega)
  refine ⟨d₃, by rw [run_bind_ok hwrite₁, run_bind_ok hwrite₂, hwrite₃], ?_⟩
  have hspares : Spares data d₃ i slots.length freePtr :=
    hspares₁.trans (hspares₂.trans hspares₃ le_rfl (by omega)) (by omega) (by omega)
  refine h.of_spares hspares hheader (show _ ≤ freePtr - row.length by omega) (Nat.sub_le _ _) hother ?_ ?_
  · intro hnone
    cases hindex.symm.trans hnone
  · intro offset row' hrow'
    cases hindex.symm.trans hrow'
    refine ⟨⟨(hsame i).trans hread, show row.length < 65535 by omega, le_rfl, by omega, ?_⟩,
      fun j o r _ hj => .inl ?_⟩
    · rw [hspares₃.rest _ _ (by omega), hspares₂.rest _ _ (by omega), hrow]
    · have := (h.placed j o r hj).above
      omega

/-- A slot is marked as deleted. -/
theorem Slotted.free_slot (h : Slotted data freePtr next slots) (hi : i < slots.length) :
    ∃ data', writeSlot i 0 deleted data = .ok () data' ∧ Slotted data' freePtr next (slots.set i none) := by
  have hslot : HeapFile.slotOffset (i + 1) ≤ freePtr := (slotOffset_mono hi).trans h.directory
  have hroom : HeapFile.slotOffset (i + 1) ≤ data.length := h.length ▸ hslot.trans h.freePtr_le
  obtain ⟨data', hwrite, hspares, hheader, hread⟩ :=
    @slot_written data i slots.length 0 deleted (by decide) (by decide) hroom
  have hset : (slots.set i none)[i]? = some none := List.getElem?_set_self hi
  refine ⟨data', hwrite, h.of_spares (hspares.mono hslot) ?_ ?_ le_rfl ?_ ?_ ?_⟩
  · rw [hheader, h.header, List.length_set]
  · rw [List.length_set]
    exact h.directory
  · exact fun j hj => List.getElem?_set_ne hj.symm
  · exact fun _ => ⟨0, hread⟩
  · intro offset row hrow
    cases hset.symm.trans hrow

/-- A row is written over by one of the same length. -/
theorem Slotted.replace {offset : Nat} (h : Slotted data freePtr next slots)
    (hrow : slots[i]? = some (some (offset, row))) (hlength : row.length = new.length) :
    ∃ data', BytesM.setSlice offset (offset + row.length) new data = .ok () data' ∧
      Slotted data' freePtr next (slots.set i (some (offset, new))) := by
  have hold := h.placed i offset row hrow
  have hi : i < slots.length := (List.getElem?_eq_some_iff.mp hrow).1
  have hroom : offset + new.length ≤ data.length := by
    rw [← hlength, h.length]
    exact hold.within
  have hslots : ∀ j < slots.length, readSlot (writeAt data offset new) j = readSlot data j := fun j hj =>
    readSlot_apart hroom (.inl (((slotOffset_mono hj).trans h.directory).trans hold.above))
  have hset : (slots.set i (some (offset, new)))[i]? = some (some (offset, new)) := List.getElem?_set_self hi
  refine ⟨writeAt data offset new, by rw [hlength, setSlice_eq],
    h.rewrite ((length_writeAt hroom).trans h.length) ?_ ?_ le_rfl (fun j hj => List.getElem?_set_ne hj.symm)
      (fun j _ hj => hslots j hj) ?_ ?_ ?_⟩
  · rw [readHeader_apart hroom ((headerSize_le_slotOffset _).trans (h.directory.trans hold.above)), h.header,
      List.length_set]
  · rw [List.length_set]
    exact h.directory
  · -- the other rows share no byte with it
    intro j offset' row' hj hrow'
    refine slice_writeAt_apart hroom ?_
    rw [← hlength]
    exact h.apart j i offset' row' offset row hj hrow' hrow
  · intro hnone
    cases hset.symm.trans hnone
  · intro offset' row' hrow'
    cases hset.symm.trans hrow'
    refine ⟨⟨?_, hlength ▸ hold.short, hold.above, hlength ▸ hold.within, slice_writeAt_self hroom⟩, ?_⟩
    · rw [hslots i hi, ← hlength]
      exact hold.slot
    · intro j o r hj hr
      rw [← hlength]
      exact h.apart i j offset row o r hj.symm hrow hr

/-- The page is linked to another one. -/
theorem Slotted.link (h : Slotted data freePtr next slots) (hnext : next' < 2 ^ 32) :
    ∃ data', writeHeader ⟨1, slots.length, freePtr, next'⟩ data = .ok () data' ∧
      Slotted data' freePtr next' slots := by
  have hhead : 9 ≤ freePtr := (headerSize_le_slotOffset _).trans h.directory
  have hlength : 9 ≤ data.length := h.length ▸ hhead.trans h.freePtr_le
  have hfits : Header.Fits ⟨1, slots.length, freePtr, next'⟩ :=
    ⟨show 1 < 256 by decide, numSlots_lt (h.directory.trans h.freePtr_le),
      show freePtr < 2 ^ 16 from h.freePtr_le.trans_lt (by decide), hnext⟩
  obtain ⟨data', hwrite, hspares, hheader, -⟩ := @header_written data slots.length _ slots.length hfits hlength
  refine ⟨data', hwrite, h.of_spares (hspares.mono hhead) hheader h.directory le_rfl (fun _ _ => rfl) ?_ ?_⟩
  · intro hnone
    exact absurd (List.getElem?_eq_some_iff.mp hnone).1 (lt_irrefl _)
  · intro offset row hrow
    exact absurd (List.getElem?_eq_some_iff.mp hrow).1 (lt_irrefl _)

/-! ## Where a row goes -/

/-- A slot of the directory is free, or there is a row for it. -/
theorem Slotted.slot (h : Slotted data freePtr next slots) (hi : i < slots.length) :
    (slots[i]? = some none ∧ ∃ offset, readSlot data i = .ok (offset, deleted)) ∨
      ∃ offset row, slots[i]? = some (some (offset, row)) ∧ Placed data freePtr i offset row := by
  cases hslot : slots[i]? with
  | none => exact absurd (List.getElem?_eq_none_iff.mp hslot) (not_le.mpr hi)
  | some slot =>
    cases slot with
    | none => exact .inl ⟨rfl, h.free i hslot⟩
    | some x => exact .inr ⟨x.1, x.2, rfl, h.placed i x.1 x.2 hslot⟩

/-- The slot that is reused is free. -/
theorem Slotted.findDeleted_eq (h : Slotted data freePtr next slots) {l : List Nat}
    (hl : ∀ i ∈ l, i < slots.length) :
    ∃ reuse, findDeleted data l = .ok reuse ∧ ∀ j, reuse = some j → slots[j]? = some none := by
  induction l with
  | nil => exact ⟨none, rfl, fun j hj => by cases hj⟩
  | cons i l ih =>
    rcases h.slot (hl i List.mem_cons_self) with ⟨hnone, offset, hread⟩ | ⟨offset, row, -, hplaced⟩
    · refine ⟨some i, ?_, fun j hj => ?_⟩
      · rw [findDeleted, hread]
        rfl
      · cases hj
        exact hnone
    · obtain ⟨reuse, hfind, hreuse⟩ := ih fun j hj => hl j (List.mem_cons_of_mem _ hj)
      refine ⟨reuse, ?_, hreuse⟩
      rw [findDeleted, hplaced.slot]
      change (if row.length = deleted then _ else _) = _
      exact (if_neg hplaced.short.ne).trans hfind

theorem rowAt_set {slot : Option (Nat × Bytes)} (hi : i < slots.length) :
    rowAt (slots.set i slot) = Function.update (rowAt slots) i (slot.map (·.2)) := by
  funext j
  by_cases hj : j = i
  · rw [hj, Function.update_self, rowAt, List.getElem?_set_self hi]
    rfl
  · rw [Function.update_of_ne hj, rowAt, rowAt, List.getElem?_set_ne (Ne.symm hj)]

theorem rowAt_snoc (slots : List (Option (Nat × Bytes))) (slot : Option (Nat × Bytes)) :
    rowAt (slots ++ [slot]) = Function.update (rowAt slots) slots.length (slot.map (·.2)) := by
  funext j
  rcases lt_trichotomy j slots.length with hlt | rfl | hgt
  · rw [Function.update_of_ne hlt.ne, rowAt, rowAt, List.getElem?_append_left hlt]
  · rw [Function.update_self, rowAt, List.getElem?_concat_length]
    rfl
  · have hnone : (slots ++ [slot])[j]? = none :=
      List.getElem?_eq_none (by rw [List.length_append, List.length_singleton]; omega)
    rw [Function.update_of_ne hgt.ne', rowAt, rowAt, hnone, List.getElem?_eq_none hgt.le]

/-- A row goes into the slot that is reused, or into a new one. -/
theorem Slotted.put {reuse : Option Nat} (h : Slotted data freePtr next slots)
    (hreuse : ∀ j, reuse = some j → slots[j]? = some none)
    (hroom : ¬freePtr < HeapFile.slotOffset slots.length + neededSlotBytes reuse + row.length)
    (hnext : next < 2 ^ 32) :
    ∃ data' slots', putRow row ⟨1, slots.length, freePtr, next⟩ reuse data = .ok () data' ∧
      Slotted data' (freePtr - row.length) next slots' ∧
      rowAt slots' = Function.update (rowAt slots) (reuse.getD slots.length) (some row) := by
  have hfits := Nat.le_of_not_lt hroom
  cases reuse with
  | none =>
    have hlength : (slots ++ [some (freePtr - row.length, row)]).length = slots.length + 1 := by simp
    have hother : ∀ j, j ≠ slots.length → (slots ++ [some (freePtr - row.length, row)])[j]? = slots[j]? := by
      intro j hj
      rcases Nat.lt_or_gt_of_ne hj with hlt | hgt
      · exact List.getElem?_append_left hlt
      · rw [List.getElem?_eq_none hgt.le, List.getElem?_eq_none (by rw [hlength]; omega)]
    have hmore : HeapFile.slotOffset (slots.length + 1) + row.length ≤ freePtr := by
      rwa [slotOffset_succ]
    obtain ⟨data', hwrite, hslotted⟩ :=
      h.place List.getElem?_concat_length hother (by omega) (by rwa [hlength]) hnext
    rw [hlength] at hwrite
    exact ⟨data', _, hwrite, hslotted, rowAt_snoc slots _⟩
  | some i =>
    have hi : i < slots.length := (List.getElem?_eq_some_iff.mp (hreuse i rfl)).1
    have hlength : (slots.set i (some (freePtr - row.length, row))).length = slots.length := List.length_set
    obtain ⟨data', hwrite, hslotted⟩ := h.place (List.getElem?_set_self hi)
      (fun j hj => List.getElem?_set_ne hj.symm) hlength.ge (by rwa [hlength]) hnext
    rw [hlength] at hwrite
    exact ⟨data', _, hwrite, hslotted, rowAt_set hi⟩

theorem slotted_freshPage : Slotted freshPage pageSize invalidPageId [] where
  length := length_freshPage
  header := readHeader_freshPage
  directory := by decide
  freePtr_le := le_rfl
  free i hi := by cases hi
  placed i offset row hi := by cases hi
  apart i j o row o' row' _ hi := by cases hi

/-- The row on a new page. -/
theorem slotted_placed {placed : Bytes} (hrow : ¬Oversized row)
    (hput : putRow row ⟨1, 0, pageSize, invalidPageId⟩ none freshPage = .ok () placed) :
    ∃ slots, Slotted placed (pageSize - row.length) invalidPageId slots ∧
      rowAt slots = Function.update (fun _ => none) 0 (some row) := by
  have hreuse : ∀ j, (none : Option Nat) = some j → ([] : List (Option (Nat × Bytes)))[j]? = some none :=
    fun j hj => by cases hj
  obtain ⟨data', slots, hput', h, hrows⟩ := slotted_freshPage.put hreuse hrow (by decide)
  cases hput.symm.trans hput'
  exact ⟨slots, h, hrows⟩

/-! ## A page and its rows -/

/-- The page holds these rows, each in the slot of its number. -/
def Carries (data : Bytes) (next : Nat) (rows : Nat → Option Bytes) : Prop :=
  ∃ freePtr slots, Slotted data freePtr next slots ∧ rowAt slots = rows

variable {rows : Nat → Option Bytes}

theorem carries_freshPage : Carries freshPage invalidPageId fun _ => none :=
  ⟨pageSize, [], slotted_freshPage, rfl⟩

theorem carries_placed {placed : Bytes} (hrow : ¬Oversized row)
    (hput : putRow row ⟨1, 0, pageSize, invalidPageId⟩ none freshPage = .ok () placed) :
    Carries placed invalidPageId (Function.update (fun _ => none) 0 (some row)) := by
  obtain ⟨slots, h, hrows⟩ := slotted_placed hrow hput
  exact ⟨_, slots, h, hrows⟩

theorem Carries.nextPage_eq (h : Carries data next rows) : nextPage data = next := by
  obtain ⟨freePtr, slots, h, -⟩ := h
  rw [nextPage, h.header]

theorem rowAt_of_le (hi : slots.length ≤ i) : rowAt slots i = none := by
  rw [rowAt, List.getElem?_eq_none hi]
  rfl

theorem rowAt_of_free (hi : slots[i]? = some none) : rowAt slots i = none := by
  rw [rowAt, hi]
  rfl

theorem rowAt_of_placed {offset : Nat} (hi : slots[i]? = some (some (offset, row))) :
    rowAt slots i = some row := by
  rw [rowAt, hi]
  rfl

theorem Carries.readRow_eq (h : Carries data next rows) (i : Nat) : readRow data i = .ok (rows i) := by
  obtain ⟨freePtr, slots, h, rfl⟩ := h
  unfold readRow
  rw [h.header]
  change (if slots.length ≤ i then _ else _) = _
  by_cases hi : slots.length ≤ i
  · rw [if_pos hi, rowAt_of_le hi]
    rfl
  rw [if_neg hi]
  rcases h.slot (Nat.lt_of_not_le hi) with ⟨hnone, offset, hread⟩ | ⟨offset, row, hrow, hplaced⟩
  · rw [hread, rowAt_of_free hnone]
    rfl
  · rw [hplaced.slot, rowAt_of_placed hrow]
    change (if row.length = deleted then _ else _) = _
    exact (if_neg hplaced.short.ne).trans (congrArg (fun row => Except.ok (some row)) hplaced.bytes)

/-- A row gives way to one of the same length. -/
theorem Carries.updateRow_eq (h : Carries data next rows) (hrow : rows i = some row)
    (hlength : row.length = new.length) :
    ∃ data', updateRow i new data = .ok true data' ∧
      Carries data' next (Function.update rows i (some new)) := by
  obtain ⟨freePtr, slots, h, rfl⟩ := h
  obtain ⟨offset, hslot⟩ := rowAt_eq_some.mp hrow
  have hi : i < slots.length := (List.getElem?_eq_some_iff.mp hslot).1
  have hplaced := h.placed i offset row hslot
  obtain ⟨data', hwrite, h'⟩ := h.replace hslot hlength
  refine ⟨data', ?_, freePtr, _, h', rowAt_set hi⟩
  have hkeeps : ¬(row.length = deleted ∨ row.length ≠ new.length) :=
    not_or.mpr ⟨hplaced.short.ne, not_not.mpr hlength⟩
  rw [updateRow, run_bind_ok run_get, run_bind_ok (BytesM.lift_ok h.header), if_neg (not_le.mpr hi),
    run_bind_ok (BytesM.lift_ok hplaced.slot)]
  dsimp only
  rw [if_neg hkeeps, run_bind_ok hwrite]
  rfl

/-- A slot without a row, or with one of another length, is left as it is. -/
theorem Carries.updateRow_refused (h : Carries data next rows)
    (hrow : ∀ row, rows i = some row → row.length ≠ new.length) :
    updateRow i new data = .ok false data := by
  obtain ⟨freePtr, slots, h, rfl⟩ := h
  rw [updateRow, run_bind_ok run_get, run_bind_ok (BytesM.lift_ok h.header)]
  by_cases hi : slots.length ≤ i
  · rw [if_pos hi]
    rfl
  rw [if_neg hi]
  rcases h.slot (Nat.lt_of_not_le hi) with ⟨-, offset, hread⟩ | ⟨offset, row, hslot, hplaced⟩
  · rw [run_bind_ok (BytesM.lift_ok hread)]
    exact congrFun (if_pos (.inl rfl)) data
  · rw [run_bind_ok (BytesM.lift_ok hplaced.slot)]
    exact congrFun (if_pos (.inr (hrow row (rowAt_of_placed hslot)))) data

theorem Carries.deleteRow_eq (h : Carries data next rows) (hrow : rows i = some row) :
    ∃ data', deleteRow i data = .ok true data' ∧ Carries data' next (Function.update rows i none) := by
  obtain ⟨freePtr, slots, h, rfl⟩ := h
  obtain ⟨offset, hslot⟩ := rowAt_eq_some.mp hrow
  have hi : i < slots.length := (List.getElem?_eq_some_iff.mp hslot).1
  have hplaced := h.placed i offset row hslot
  obtain ⟨data', hwrite, h'⟩ := h.free_slot hi
  refine ⟨data', ?_, freePtr, _, h', rowAt_set hi⟩
  rw [deleteRow, run_bind_ok run_get, run_bind_ok (BytesM.lift_ok h.header), if_neg (not_le.mpr hi),
    run_bind_ok (BytesM.lift_ok hplaced.slot)]
  dsimp only
  rw [if_neg hplaced.short.ne, run_bind_ok hwrite]
  rfl

theorem Carries.deleteRow_refused (h : Carries data next rows) (hrow : rows i = none) :
    deleteRow i data = .ok false data := by
  obtain ⟨freePtr, slots, h, rfl⟩ := h
  rw [deleteRow, run_bind_ok run_get, run_bind_ok (BytesM.lift_ok h.header)]
  by_cases hi : slots.length ≤ i
  · rw [if_pos hi]
    rfl
  rw [if_neg hi]
  rcases h.slot (Nat.lt_of_not_le hi) with ⟨-, offset, hread⟩ | ⟨offset, row, hslot, -⟩
  · rw [run_bind_ok (BytesM.lift_ok hread)]
    exact congrFun (if_pos rfl) data
  · cases (rowAt_of_placed hslot).symm.trans hrow

/-- The page can be linked to another one, and takes a row that it has room for. -/
theorem Carries.insert (h : Carries data next rows) (hnext : next < 2 ^ 32) :
    ∃ header reuse, readHeader data = .ok header ∧ findDeleted data (List.range header.numSlots) = .ok reuse ∧
      rows (reuse.getD header.numSlots) = none ∧
      (∀ row, ¬NoRoom data row → ∃ data', putRow row header reuse data = .ok () data' ∧
        Carries data' next (Function.update rows (reuse.getD header.numSlots) (some row))) ∧
      ∀ next', next' < 2 ^ 32 → ∃ data',
        writeHeader ⟨1, header.numSlots, header.freePtr, next'⟩ data = .ok () data' ∧
          Carries data' next' rows := by
  obtain ⟨freePtr, slots, h, rfl⟩ := h
  obtain ⟨reuse, hfind, hreuse⟩ := h.findDeleted_eq fun i hi => List.mem_range.mp hi
  refine ⟨_, reuse, h.header, hfind, ?_, fun row hroom => ?_, fun next' hnext' => ?_⟩
  · cases reuse with
    | none => exact rowAt_of_le le_rfl
    | some i => exact rowAt_of_free (hreuse i rfl)
  · obtain ⟨data', slots', hput, h', hrows⟩ := h.put hreuse (mt (noRoom_iff h.header hfind).mpr hroom) hnext
    exact ⟨data', hput, _, slots', h', hrows⟩
  · obtain ⟨data', hwrite, h'⟩ := h.link hnext'
    exact ⟨data', hwrite, _, slots, h', rfl⟩

/-- A slot and the row in it, as the scan yields it. -/
def taggedRow (p : Nat) (slots : List (Option (Nat × Bytes))) (i : Nat) : Option (RID × Bytes) :=
  (rowAt slots i).map fun row => (⟨p, i⟩, row)

theorem taggedRow_eq_some {p : Nat} {x : RID × Bytes} :
    taggedRow p slots i = some x ↔ x.1 = ⟨p, i⟩ ∧ rowAt slots i = some x.2 := by
  obtain ⟨rid, row⟩ := x
  unfold taggedRow
  rw [Option.map_eq_some_iff]
  constructor
  · rintro ⟨row', hrow, heq⟩
    cases heq
    exact ⟨rfl, hrow⟩
  · rintro ⟨rfl, hrow⟩
    exact ⟨row, hrow, rfl⟩

theorem Slotted.liveTuples_eq (h : Slotted data freePtr next slots) (p : Nat) :
    liveTuples p data slots.length = .ok ((List.range slots.length).filterMap (taggedRow p slots)) := by
  unfold liveTuples
  refine bind_eq_ok.mpr ⟨(List.range slots.length).map (taggedRow p slots), mapM_eq_ok.mpr ?_,
    congrArg Except.ok List.filterMap_map⟩
  rw [List.map_map]
  refine List.map_congr_left fun i hi => ?_
  rw [Function.comp_apply, taggedRow]
  rcases h.slot (List.mem_range.mp hi) with ⟨hnone, offset, hread⟩ | ⟨offset, row, hrow, hplaced⟩
  · rw [hread, rowAt_of_free hnone]
    rfl
  · rw [hplaced.slot, rowAt_of_placed hrow]
    change Except.ok (if row.length = deleted then _ else _) = _
    rw [if_neg hplaced.short.ne]
    exact congrArg (fun row => Except.ok (some ((⟨p, i⟩ : RID), row))) hplaced.bytes

/-- What a scan reads of the page: its rows, in the order of the slots. -/
theorem Carries.scanPage_eq (h : Carries data next rows) (p : Nat) :
    ∃ header tuples, scanPage p data = .ok (header, tuples) ∧ header.nextPage = next ∧
      (∀ x : RID × Bytes, x ∈ tuples ↔ x.1.pageId = p ∧ rows x.1.slotId = some x.2) ∧
      tuples.Pairwise fun x y => x.1.slotId < y.1.slotId := by
  obtain ⟨freePtr, slots, h, rfl⟩ := h
  refine ⟨⟨1, slots.length, freePtr, next⟩, (List.range slots.length).filterMap (taggedRow p slots), ?_, rfl,
    fun x => ?_, ?_⟩
  · exact bind_eq_ok.mpr ⟨_, h.header, bind_eq_ok.mpr ⟨_, h.liveTuples_eq p, rfl⟩⟩
  · simp only [List.mem_filterMap, List.mem_range]
    constructor
    · rintro ⟨i, -, htagged⟩
      obtain ⟨hrid, hrow⟩ := taggedRow_eq_some.mp htagged
      rw [hrid]
      exact ⟨rfl, hrow⟩
    · rintro ⟨rfl, hrow⟩
      obtain ⟨offset, hslot⟩ := rowAt_eq_some.mp hrow
      exact ⟨x.1.slotId, (List.getElem?_eq_some_iff.mp hslot).1, taggedRow_eq_some.mpr ⟨rfl, hrow⟩⟩
  · rw [List.pairwise_filterMap]
    refine List.pairwise_lt_range.imp fun {i j} hlt x hx y hy => ?_
    rw [(taggedRow_eq_some.mp hx).1, (taggedRow_eq_some.mp hy).1]
    exact hlt

end

end RawHeap
end Minirel
