-- SUMMARY: Insertion into a heap file through the buffer pool, and the pins that it gives back.
import Minirel.Storage.HeapWalk
import Minirel.Storage.PageBytes

/-!
# Insertion and pins

`HeapFile.insert` on the bytes of the frames. The call holds a pin on the last page and gives it
back in a `finally`. When the page is full it gives the pin back before it goes on with a new
page, and so twice in all: the second time is lost on a page without pins, and takes someone
else's pin from any other.
-/

namespace Minirel

open BufferPool Encoding

namespace BufferPool

/-! ## Pages in their frames -/

variable {β α : Type}

/-- The frame that a page is in. -/
def residentFrame (pool : BufferPool β) (p : Nat) : Option (Frame β) :=
  (pool.frameOf p).bind fun frameIdx => pool.frames[frameIdx]?

/-- How many pins are held on a page. -/
def pinCount (pool : BufferPool β) (p : Nat) : Nat := ((pool.residentFrame p).map (·.pinCount)).getD 0

/-- Write to the bytes of a page in its frame. -/
def edit (pageId : Nat) (m : BytesM α) : PoolM Bytes α := do
  let pool ← get
  match pool.frameOf pageId with
  | none => throw (.keyError (toString pageId))
  | some frameIdx =>
    let frame ← getFrame frameIdx
    match m frame.data with
    | .ok a data =>
      setFrame frameIdx { frame with data }
      return a
    | .error e data =>
      setFrame frameIdx { frame with data }
      throw e

section
variable {pool pool' : BufferPool β} {pins : Nat → Nat} {changed : Nat → Prop} {logical : List β}
  {p q i : Nat} {f : Frame β}

theorem Sound.pinCount_eq (h : Sound pool pins changed logical) (p : Nat) : pool.pinCount p = pins p := by
  unfold pinCount residentFrame
  cases hp : pool.frameOf p with
  | none => exact (h.out p hp).1.symm
  | some i =>
    obtain ⟨f, hf⟩ := h.resident p i hp
    rw [Option.bind_some, hf.frame]
    exact hf.pinCount

theorem Sound.residentFrame_data (h : Sound pool pins changed logical) (hf : pool.residentFrame p = some f) :
    logical[p]? = some f.data := by
  obtain ⟨i, hp, hi⟩ := Option.bind_eq_some_iff.mp hf
  obtain ⟨f', hf'⟩ := h.resident p i hp
  rw [hf'.data, Option.some.inj (hf'.frame.symm.trans hi)]

/-- A page with a pin is in a frame. -/
theorem Sound.frameOf_of_pinned (h : Sound pool pins changed logical) (hpins : pins p ≠ 0) :
    ∃ i, pool.frameOf p = some i := by
  cases hp : pool.frameOf p with
  | none => exact absurd (h.out p hp).1 hpins
  | some i => exact ⟨i, rfl⟩

/-- One more pin on a page. -/
theorem pinned_of_taken (pins : Nat → Nat) (p : Nat) : Function.update pins p (pins p + 1) p ≠ 0 := by
  rw [Function.update_self]
  exact Nat.succ_ne_zero _

theorem pinned_of_taken_or (p : Nat) (hpins : pins q ≠ 0) : Function.update pins p (pins p + 1) q ≠ 0 := by
  by_cases hq : q = p
  · exact hq ▸ pinned_of_taken pins p
  · rwa [Function.update_of_ne hq]

/-- A pin that no one holds is given back: the page may count as dirty, and that is all. -/
theorem Sound.unpin_unheld (h : Sound pool pins changed logical) (hpins : pins p = 0) (dirty : Bool) :
    wp (unpinPage p dirty)
      (fun _ pool' => Sound pool' pins changed logical ∧ pool'.pageTable = pool.pageTable)
      (fun _ _ => False) pool := by
  unfold unpinPage
  rw [wp_bind, wp_get]
  cases hp : pool.frameOf p with
  | none => exact ⟨h, rfl⟩
  | some i =>
    obtain ⟨f, hf⟩ := h.resident p i hp
    have hlt : i < pool.frames.length := (List.getElem?_eq_some_iff.mp hf.frame).1
    have hwaits : i ∈ pool.lru := hf.waits.mpr hpins
    have hzero : f.pinCount - 1 = 0 := by
      rw [hf.pinCount, hpins]
    refine wp_bind.mpr (wp_getFrame hf.frame (wp_bind.mpr (wp_setFrame ?_)))
    rw [if_pos hzero, wp_modify]
    dsimp only
    rw [if_pos hwaits]
    refine ⟨h.touch (f := { f with pinCount := f.pinCount - 1, dirty := f.dirty || dirty }) hp ?_
      rfl rfl rfl rfl (fun j hj => ⟨List.getElem?_set_ne hj.symm, Iff.rfl⟩)
      (fun q _ => ⟨rfl, rfl, rfl, Iff.rfl⟩) h.nodup_lru (h.pinned p), rfl⟩
    exact ⟨List.getElem?_set_self hlt, hf.pageId, hzero.trans hpins.symm, hf.data,
      fun hd hc => hf.clean (Bool.or_eq_false_iff.mp hd).1 hc, hf.waits⟩

end

section
variable {pool pool' : BufferPool Bytes} {pins : Nat → Nat} {changed : Nat → Prop} {logical : List Bytes}
  {p i : Nat} {data : Bytes}

theorem edit_eq {m : BytesM α} {a : α} {f : Frame Bytes} {data' : Bytes} (hp : pool.frameOf p = some i)
    (hf : pool.frames[i]? = some f) (hm : m f.data = .ok a data') :
    edit p m pool = .ok a { pool with frames := pool.frames.set i { f with data := data' } } := by
  have hframe : getFrame i pool = .ok f pool := by rw [getFrame, hf]
  rw [edit, run_bind_ok run_get, hp]
  dsimp only
  rw [run_bind_ok hframe, hm]
  rfl

/-- The bytes of a page are changed under a pin, also by a computation that raises. -/
theorem wp_edit (h : Sound pool pins changed logical) (hp : pool.frameOf p = some i) (hpins : pins p ≠ 0)
    (hdata : logical[p]? = some data) (m : BytesM α) :
    wp (edit p m)
      (fun a pool' => ∃ data', m data = .ok a data' ∧
        Sound pool' pins (fun q => changed q ∨ q = p) (logical.set p data') ∧ pool'.pageTable = pool.pageTable)
      (fun e pool' => ∃ data', m data = .error e data' ∧
        Sound pool' pins (fun q => changed q ∨ q = p) (logical.set p data') ∧ pool'.pageTable = pool.pageTable)
      pool := by
  obtain ⟨f, hf⟩ := h.resident p i hp
  have hlt : i < pool.frames.length := (List.getElem?_eq_some_iff.mp hf.frame).1
  have hbound : p < logical.length := (List.getElem?_eq_some_iff.mp hf.data).1
  obtain rfl := Option.some.inj (hf.data.symm.trans hdata)
  have hwritten : ∀ data', Sound { pool with frames := pool.frames.set i { f with data := data' } } pins
      (fun q => changed q ∨ q = p) (logical.set p data') := by
    intro data'
    refine h.touch (f := { f with data := data' }) hp ?_ rfl rfl rfl List.length_set
      (fun j hj => ⟨List.getElem?_set_ne hj.symm, Iff.rfl⟩)
      (fun q hq => ⟨rfl, List.getElem?_set_ne hq.symm, rfl, or_iff_left hq⟩) h.nodup_lru fun _ => hpins
    exact ⟨List.getElem?_set_self hlt, hf.pageId, hf.pinCount, List.getElem?_set_self hbound,
      fun _ hno => absurd (.inr rfl) hno, hf.waits⟩
  unfold edit
  rw [wp_bind, wp_get, hp]
  refine wp_bind.mpr (wp_getFrame hf.frame ?_)
  cases hm : m f.data with
  | ok a data' => exact wp_bind.mpr (wp_setFrame ⟨data', rfl, hwritten data', rfl⟩)
  | error e data' => exact wp_bind.mpr (wp_setFrame ⟨data', rfl, hwritten data', rfl⟩)

end
end BufferPool

namespace RawHeap

/-! ## Insertion -/

/-- A page as it is allocated. -/
def zeros : Bytes := List.replicate pageSize 0

/-- `_write_header`. -/
def writeHeader (header : Header) : BytesM Unit :=
  BytesM.packInto 0 [(1, header.pageType), (2, header.numSlots), (2, header.freePtr), (4, header.nextPage)]

/-- `_write_slot`. -/
def writeSlot (index offset length : Nat) : BytesM Unit :=
  BytesM.packInto (HeapFile.slotOffset index) [(2, offset), (2, length)]

def initHeapPage : BytesM Unit := writeHeader ⟨1, 0, pageSize, invalidPageId⟩

/-- The search for a slot to reuse: the first of these that is deleted. -/
def findDeleted (data : Bytes) : List Nat → Except PyError (Option Nat)
  | [] => return none
  | i :: rest => do
    let (_, slotLen) ← readSlot data i
    if slotLen = deleted then return some i else findDeleted data rest

/-- The slot directory grows by a slot if none can be reused. -/
def neededSlotBytes (reuse : Option Nat) : Nat := if reuse.isSome then 0 else HeapFile.slotSize

/-- What `insert` does with the last page while it holds it. `again` is its call of itself. -/
def insertHeld (row : Bytes) (heap : HeapFile) (data : Bytes)
    (again : HeapFile → PoolM Bytes (RID × HeapFile)) : PoolM Bytes (RID × HeapFile) := do
  let header ← PoolM.lift (readHeader data)
  let reuse ← PoolM.lift (findDeleted data (List.range header.numSlots))
  if header.freePtr < HeapFile.slotOffset header.numSlots + neededSlotBytes reuse + row.length then
    let (newPageId, _) ← BufferPool.newPage zeros
    edit newPageId initHeapPage
    unpinPage newPageId true
    edit heap.lastPageId (writeHeader ⟨1, header.numSlots, header.freePtr, newPageId⟩)
    unpinPage heap.lastPageId true
    again { heap with lastPageId := newPageId }
  else
    let freePtr := header.freePtr - row.length
    let index := reuse.getD header.numSlots
    let numSlots := if reuse.isSome then header.numSlots else header.numSlots + 1
    edit heap.lastPageId do
      BytesM.setSlice freePtr (freePtr + row.length) row
      writeSlot index freePtr row.length
      writeHeader ⟨1, numSlots, freePtr, header.nextPage⟩
    return (⟨heap.lastPageId, index⟩, heap)

/-- What is written on the page that the row goes to. -/
def putRow (row : Bytes) (header : Header) (reuse : Option Nat) : BytesM Unit := do
  let freePtr := header.freePtr - row.length
  BytesM.setSlice freePtr (freePtr + row.length) row
  writeSlot (reuse.getD header.numSlots) freePtr row.length
  writeHeader ⟨1, if reuse.isSome then header.numSlots else header.numSlots + 1, freePtr, header.nextPage⟩

/-- The row fits no page. -/
def Oversized (row : Bytes) : Prop := pageSize < HeapFile.headerSize + HeapFile.slotSize + row.length

instance (row : Bytes) : Decidable (Oversized row) := inferInstanceAs (Decidable (_ < _))

/-- `insert`, calling itself up to `fuel` times. -/
def insertFrom (row : Bytes) : Nat → HeapFile → PoolM Bytes (RID × HeapFile)
  | 0, _ => throw .diverges
  | fuel + 1, heap => do
    if Oversized row then
      throw (.valueError (s!"row of {row.length} bytes cannot fit in a {pageSize}-byte page " ++
        "(minirel does not support overflow/TOAST-style tuples)"))
    let data ← BufferPool.fetchPage heap.lastPageId
    andFinally (insertHeld row heap data (insertFrom row fuel)) (unpinPage heap.lastPageId true)

/-- A new page takes any row that is not oversized: `insert` calls itself once at most. -/
def insert (row : Bytes) (heap : HeapFile) : PoolM Bytes (RID × HeapFile) := insertFrom row 2 heap

/-! ## What is written on a page -/

variable {data row : Bytes} {header : Header}

/-- The fields of a header fit their bytes. -/
def Header.Fits (header : Header) : Prop :=
  header.pageType < 256 ∧ header.numSlots < 2 ^ 16 ∧ header.freePtr < 2 ^ 16 ∧ header.nextPage < 2 ^ 32

def Header.bytes (header : Header) : Bytes :=
  packed [(1, header.pageType), (2, header.numSlots), (2, header.freePtr), (4, header.nextPage)]

theorem Header.length_bytes (header : Header) : header.bytes.length = 9 := by simp [bytes]

theorem readHeader_bytes (h : header.Fits) (rest : Bytes) : readHeader (header.bytes ++ rest) = .ok header := by
  obtain ⟨hpageType, hnumSlots, hfreePtr, hnext⟩ := h
  have h₀ := @unpackFrom_written [] (littleEndian 2 header.numSlots ++ (littleEndian 2 header.freePtr ++
    (littleEndian 4 header.nextPage ++ rest))) 1 header.pageType hpageType
  have h₁ := @unpackFrom_written (littleEndian 1 header.pageType) (littleEndian 2 header.freePtr ++
    (littleEndian 4 header.nextPage ++ rest)) 2 header.numSlots hnumSlots
  have h₂ := @unpackFrom_written (littleEndian 1 header.pageType ++ littleEndian 2 header.numSlots)
    (littleEndian 4 header.nextPage ++ rest) 2 header.freePtr hfreePtr
  have h₃ := @unpackFrom_written (littleEndian 1 header.pageType ++ (littleEndian 2 header.numSlots ++
    littleEndian 2 header.freePtr)) rest 4 header.nextPage hnext
  simp only [List.length_append, length_littleEndian, List.append_assoc, List.nil_append, List.length_nil]
    at h₀ h₁ h₂ h₃
  have hdata : header.bytes ++ rest = littleEndian 1 header.pageType ++ (littleEndian 2 header.numSlots ++
      (littleEndian 2 header.freePtr ++ (littleEndian 4 header.nextPage ++ rest))) := by
    simp [Header.bytes, packed]
  rw [hdata, readHeader, h₀, h₁, h₂, h₃]
  rfl

theorem readHeader_error {e : PyError} (h : readHeader data = .error e) : e = .structError := by
  rcases bind_eq_error.mp h with h | ⟨pageType, -, h⟩
  · exact (unpackFrom_error h).1
  rcases bind_eq_error.mp h with h | ⟨numSlots, -, h⟩
  · exact (unpackFrom_error h).1
  rcases bind_eq_error.mp h with h | ⟨freePtr, -, h⟩
  · exact (unpackFrom_error h).1
  rcases bind_eq_error.mp h with h | ⟨next, -, h⟩
  · exact (unpackFrom_error h).1
  · cases h

theorem findDeleted_error {e : PyError} {slots : List Nat} (h : findDeleted data slots = .error e) :
    e = .structError := by
  induction slots with
  | nil => cases h
  | cons i rest ih =>
    rcases bind_eq_error.mp h with hslot | ⟨⟨offset, slotLen⟩, -, h⟩
    · exact (readSlot_error hslot).1
    · dsimp only at h
      split at h
      · cases h
      · exact ih h

theorem writeHeader_eq (h : header.Fits) (hlength : 9 ≤ data.length) :
    writeHeader header data = .ok () (header.bytes ++ data.drop 9) := by
  obtain ⟨hpageType, hnumSlots, hfreePtr, hnext⟩ := h
  have hfields : ∀ x ∈ [(1, header.pageType), (2, header.numSlots), (2, header.freePtr), (4, header.nextPage)],
      x.2 < 256 ^ x.1 := by
    simp only [List.forall_mem_cons]
    exact ⟨hpageType, hnumSlots, hfreePtr, hnext, by simp⟩
  have hpack := @BytesM.packInto_at [] data _ 0 rfl (by simpa using hlength) hfields
  rw [BytesM.length_packed] at hpack
  exact hpack

/-- Fields that fit are written where there is room, and the page keeps its size. -/
theorem packInto_ok {offset : Nat} {fields : List (Nat × Nat)}
    (hroom : offset + (packed fields).length ≤ data.length) (hfits : ∀ x ∈ fields, x.2 < 256 ^ x.1) :
    ∃ data', BytesM.packInto offset fields data = .ok () data' ∧ data'.length = data.length := by
  refine ⟨_, if_pos ⟨hroom, hfits⟩, ?_⟩
  simp only [List.length_append, List.length_take, List.length_drop]
  omega

/-- A new heap page. -/
def freshPage : Bytes := (Header.mk 1 0 pageSize invalidPageId).bytes ++ zeros.drop 9

theorem fits_fresh : (Header.mk 1 0 pageSize invalidPageId).Fits := by
  refine ⟨?_, ?_, ?_, ?_⟩ <;> decide

theorem length_freshPage : freshPage.length = pageSize := by
  rw [freshPage, List.length_append, Header.length_bytes, List.length_drop, zeros, List.length_replicate]
  rfl

theorem initHeapPage_zeros : initHeapPage zeros = .ok () freshPage :=
  writeHeader_eq fits_fresh (by rw [zeros, List.length_replicate]; decide)

/-- The page has no room for the row: `available < length`. -/
def NoRoom (data row : Bytes) : Prop :=
  ∃ header reuse, readHeader data = .ok header ∧
    findDeleted data (List.range header.numSlots) = .ok reuse ∧
    header.freePtr < HeapFile.slotOffset header.numSlots + neededSlotBytes reuse + row.length

theorem writeHeader_ok (h : header.Fits) (hlength : 9 ≤ data.length) :
    ∃ data', writeHeader header data = .ok () data' ∧ data'.length = data.length := by
  refine packInto_ok (by simpa using hlength) ?_
  simp only [List.forall_mem_cons]
  exact ⟨h.1, h.2.1, h.2.2.1, h.2.2.2, by simp⟩

/-- A header that was read fits the bytes it came from. -/
theorem Header.Fits.of_read (h : readHeader data = .ok header) : header.Fits ∧ 9 ≤ data.length := by
  obtain ⟨pageType, hpageType, h⟩ := bind_eq_ok.mp h
  obtain ⟨numSlots, hnumSlots, h⟩ := bind_eq_ok.mp h
  obtain ⟨freePtr, hfreePtr, h⟩ := bind_eq_ok.mp h
  obtain ⟨next, hnext, h⟩ := bind_eq_ok.mp h
  cases h
  refine ⟨⟨unpackFrom_lt hpageType, unpackFrom_lt hnumSlots, unpackFrom_lt hfreePtr, unpackFrom_lt hnext⟩, ?_⟩
  by_contra hshort
  rw [unpackFrom, fieldAt, if_neg hshort] at hnext
  cases hnext

/-- A row goes on a new page. -/
theorem putRow_freshPage (hrow : ¬Oversized row) :
    ∃ data', putRow row ⟨1, 0, pageSize, invalidPageId⟩ none freshPage = .ok () data' := by
  have hlt : 13 + row.length ≤ pageSize := Nat.le_of_not_lt hrow
  have hsize : pageSize = 4096 := rfl
  have hslice : BytesM.setSlice (pageSize - row.length) (pageSize - row.length + row.length) row freshPage =
      .ok () (freshPage.take (pageSize - row.length) ++
        (row ++ freshPage.drop (pageSize - row.length + row.length))) := rfl
  rw [putRow, run_bind_ok hslice]
  have hlength : (freshPage.take (pageSize - row.length) ++
      (row ++ freshPage.drop (pageSize - row.length + row.length))).length = pageSize := by
    simp only [List.length_append, List.length_take, List.length_drop, length_freshPage]
    omega
  have hfields : ∀ x ∈ [(2, pageSize - row.length), (2, row.length)], x.2 < 256 ^ x.1 := by
    simp only [List.forall_mem_cons]
    refine ⟨?_, ?_, by simp⟩ <;> omega
  have hroom : HeapFile.slotOffset 0 + 4 ≤ pageSize := by decide
  obtain ⟨data₁, hslot, hlength₁⟩ := packInto_ok (hlength.symm ▸ hroom) hfields
  have hheader : Header.Fits ⟨1, 1, pageSize - row.length, invalidPageId⟩ :=
    ⟨fits_fresh.1, show 1 < 2 ^ 16 by decide, show pageSize - row.length < 2 ^ 16 by omega, fits_fresh.2.2.2⟩
  obtain ⟨data₂, hwritten, -⟩ := writeHeader_ok hheader (show 9 ≤ data₁.length by omega)
  refine ⟨data₂, ?_⟩
  rw [writeSlot, Option.getD_none, run_bind_ok hslot]
  exact hwritten

/-! ## What insertion does to the pins -/

variable {pool pool' : BufferPool Bytes} {pins : Nat → Nat} {changed : Nat → Prop} {logical : List Bytes}
  {p i : Nat}

theorem readHeader_freshPage : readHeader freshPage = .ok ⟨1, 0, pageSize, invalidPageId⟩ :=
  readHeader_bytes fits_fresh _

/-- On a new page that is in a frame the row goes in place. -/
theorem wp_insertFresh (h : Sound pool pins changed logical) (hp : pool.frameOf p = some i)
    (hdata : logical[p]? = some freshPage) (hrow : ¬Oversized row) (first fuel : Nat) :
    wp (insertFrom row (fuel + 1) ⟨first, p⟩)
      (fun x pool' => x = (⟨p, 0⟩, ⟨first, p⟩) ∧
        ∃ placed, putRow row ⟨1, 0, pageSize, invalidPageId⟩ none freshPage = .ok () placed ∧
          Sound pool' pins changed (logical.set p placed))
      (fun _ _ => False) pool := by
  have hresident : Fetchable pool p := .inl ⟨i, hp⟩
  rw [insertFrom, if_neg hrow]
  refine wp_bind.mpr ((wp_fetchPage h p).mono ?_ ?_)
  case refine_2 =>
    rintro e _ ⟨-, hnone | hfetch⟩
    · cases hnone.symm.trans hdata
    · exact hfetch hresident
  rintro data₁ pool₁ ⟨h₁, hdata₁, ⟨j, hp₁⟩, -, -⟩
  have hsame : data₁ = freshPage := Option.some.inj (hdata₁.symm.trans hdata)
  subst hsame
  rw [wp_andFinally, insertHeld, readHeader_freshPage]
  have hpins := pinned_of_taken pins p
  have hroom : ¬pageSize < HeapFile.slotOffset 0 + neededSlotBytes none + row.length := hrow
  refine wp_bind.mpr (PoolM.wp_lift ?_ nofun)
  rintro _ ⟨⟩
  refine wp_bind.mpr (PoolM.wp_lift ?_ nofun)
  rintro _ ⟨⟩
  rw [if_neg hroom]
  obtain ⟨written, hwritten⟩ := putRow_freshPage hrow
  refine wp_bind.mpr ((wp_edit h₁ hp₁ hpins hdata₁ _).mono ?_ ?_)
  · rintro _ pool₂ ⟨data₂, hput, h₂, -⟩
    refine wp_pure.mpr ((h₂.unpin h.pinned (fun q hq => (or_iff_left hq).symm) fun _ => .inr rfl).mono ?_
      fun _ _ he => he)
    rintro ⟨⟩ pool₃ ⟨h₃, -⟩
    exact ⟨rfl, data₂, hput, h₃⟩
  · rintro e pool₂ ⟨data₂, herr, -⟩
    cases herr.symm.trans hwritten

/-- `unpin_page` comes to an end in any pool. -/
theorem unpinPage_ends (pool : BufferPool Bytes) (p : Nat) (dirty : Bool) :
    wp (unpinPage p dirty) (fun _ _ => True) (fun e _ => e ≠ .diverges) pool := by
  unfold unpinPage
  rw [wp_bind, wp_get]
  cases hp : pool.frameOf p with
  | none => trivial
  | some i =>
    refine wp_bind.mpr ?_
    cases hf : pool.frames[i]? with
    | none =>
      have hmissing : getFrame i pool = .error .indexError pool := by rw [getFrame, hf]
      exact (wp_of_error hmissing).mpr (by decide)
    | some f =>
      refine wp_getFrame hf (wp_bind.mpr (wp_setFrame ?_))
      split
      · trivial
      · trivial

theorem packInto_raises (offset : Nat) (fields : List (Nat × Nat)) (data : Bytes) :
    wp (BytesM.packInto offset fields) (fun _ _ => True) (fun e _ => e = .structError) data := by
  by_cases h : offset + (packed fields).length ≤ data.length ∧ ∀ x ∈ fields, x.2 < 256 ^ x.1
  · rw [wp, BytesM.packInto, if_pos h]
    trivial
  · exact (wp_of_error (BytesM.packInto_error h)).mpr rfl

/-- The header is written if and only if its fields fit. -/
theorem writeHeader_returns (hlength : 9 ≤ data.length) :
    wp (writeHeader header) (fun _ _ => header.Fits) (fun e _ => e = .structError ∧ ¬header.Fits) data := by
  by_cases h : header.Fits
  · obtain ⟨data', hwritten, -⟩ := writeHeader_ok h hlength
    exact (wp_of_ok hwritten).mpr h
  · refine (wp_of_error (BytesM.packInto_error ?_)).mpr ⟨rfl, h⟩
    rintro ⟨-, hfields⟩
    simp only [List.forall_mem_cons] at hfields
    exact h ⟨hfields.1, hfields.2.1, hfields.2.2.1, hfields.2.2.2.1⟩

/-- The pages after a new one was written, and another one linked to it. -/
theorem set_new_page {fresh linked placed : Bytes} (hp : p < logical.length) :
    (((logical ++ [zeros]).set logical.length fresh).set p linked).set logical.length placed =
      logical.set p linked ++ [placed] := by
  rw [List.set_comm _ _ hp.ne, List.set_set, List.set_append_right _ _ le_rfl, List.set_append_left _ _ hp,
    Nat.sub_self, List.set_cons_zero]

/-- What the full last page leads to, from the new page to the second call. The page is held
    once more than `pins` says, and the first release gives that pin back. -/
theorem wp_spill (h : Sound pool (Function.update pins p (pins p + 1)) changed logical) {header : Header}
    (hpinned : ∀ q, changed q → pins q ≠ 0) (hdata : logical[p]? = some data)
    (hheader : readHeader data = .ok header) (hrow : ¬Oversized row) (first fuel : Nat) :
    wp (do
        let (newPageId, _) ← BufferPool.newPage zeros
        edit newPageId initHeapPage
        unpinPage newPageId true
        edit p (writeHeader ⟨1, header.numSlots, header.freePtr, newPageId⟩)
        unpinPage p true
        insertFrom row (fuel + 1) ⟨first, newPageId⟩)
      (fun x pool' => x = (⟨logical.length, 0⟩, ⟨first, logical.length⟩) ∧
        (∃ linked placed,
          writeHeader ⟨1, header.numSlots, header.freePtr, logical.length⟩ data = .ok () linked ∧
          putRow row ⟨1, 0, pageSize, invalidPageId⟩ none freshPage = .ok () placed ∧
          Sound pool' pins changed (logical.set p linked ++ [placed])) ∧
        ¬Full pool ∧ logical.length < 2 ^ 32)
      (fun e _ => e ≠ .diverges ∧ (Full pool ∨ 2 ^ 32 ≤ logical.length)) pool := by
  refine wp_bind.mpr ((wp_newPage h zeros).mono ?_ fun e _ he => ⟨he.1, .inl he.2⟩)
  rintro ⟨newPageId, _⟩ pool₁ ⟨hnew, h₁, ⟨j, hj⟩, -, hroom⟩
  obtain ⟨rfl, rfl⟩ := Prod.mk.inj hnew
  have hlt : p < logical.length := (List.getElem?_eq_some_iff.mp hdata).1
  -- the new page gets its header, and goes back without a pin
  refine wp_bind.mpr ((wp_edit h₁ hj (pinned_of_taken _ _) List.getElem?_concat_length _).mono ?_ ?_)
  case refine_2 =>
    rintro e pool₂ ⟨data₂, herr, -⟩
    cases herr.symm.trans initHeapPage_zeros
  rintro _ pool₂ ⟨data₂, hformatted, h₂, htable₂⟩
  have hfresh : data₂ = freshPage := by
    rw [initHeapPage_zeros] at hformatted
    cases hformatted
    rfl
  subst hfresh
  refine wp_bind.mpr ((h₂.unpin (fun q hq => pinned_of_taken_or p (hpinned q hq))
    (fun q hq => (or_iff_left hq).symm) fun _ => .inr rfl).mono ?_ fun _ _ he => he.elim)
  rintro ⟨⟩ pool₃ ⟨h₃, htable₃⟩
  -- the full page is linked to it, if its id fits the header, and goes back for the first time
  obtain ⟨i, hi⟩ := h₃.frameOf_of_pinned (pinned_of_taken pins p)
  have hdata₃ : ((logical ++ [zeros]).set logical.length freshPage)[p]? = some data := by
    rw [List.getElem?_set_ne hlt.ne', List.getElem?_append_left hlt, hdata]
  obtain ⟨hfits, hlength⟩ := Header.Fits.of_read hheader
  have hreturns := @writeHeader_returns data ⟨1, header.numSlots, header.freePtr, logical.length⟩ hlength
  refine wp_bind.mpr ((wp_edit h₃ hi (pinned_of_taken pins p) hdata₃ _).mono ?_ ?_)
  case refine_2 =>
    rintro e pool₄ ⟨data₄, herr, -⟩
    obtain ⟨rfl, hnot⟩ := hreturns.error herr
    refine ⟨nofun, .inr (Nat.le_of_not_lt fun hid => hnot ?_)⟩
    exact ⟨show 1 < 256 by decide, hfits.2.1, hfits.2.2.1, hid⟩
  rintro _ pool₄ ⟨data₄, hlinked, h₄, htable₄⟩
  have hid := (hreturns.ok hlinked).2.2.2
  refine wp_bind.mpr ((h₄.unpin hpinned (fun q hq => (or_iff_left hq).symm) fun _ => .inr rfl).mono ?_
    fun _ _ he => he.elim)
  rintro ⟨⟩ pool₅ ⟨h₅, htable₅⟩
  have hj₅ : pool₅.frameOf logical.length = some j := by
    rw [frameOf, htable₅, htable₄, htable₃, htable₂]
    exact hj
  have hdata₅ : (((logical ++ [zeros]).set logical.length freshPage).set p data₄)[logical.length]? =
      some freshPage := by
    rw [List.getElem?_set_ne hlt.ne, List.getElem?_set_self (by simp)]
  refine (wp_insertFresh h₅ hj₅ hdata₅ hrow first fuel).mono ?_ fun _ _ he => he.elim
  rintro x pool₆ ⟨hx, placed, hput, h₆⟩
  rw [set_new_page hlt] at h₆
  exact ⟨hx, ⟨data₄, placed, hlinked, hput, h₆⟩, hroom, hid⟩

/-- The row is written on the page that is held. -/
theorem wp_putRow (h : Sound pool pins changed logical) (hpins : pins p ≠ 0) (hdata : logical[p]? = some data)
    (header : Header) (reuse : Option Nat) {x : RID × HeapFile} :
    wp (do
        edit p (putRow row header reuse)
        return x)
      (fun x' pool' => x' = x ∧ ∃ data', putRow row header reuse data = .ok () data' ∧
        Sound pool' pins (fun q => changed q ∨ q = p) (logical.set p data'))
      (fun e _ => e = .structError ∧ ∃ data', putRow row header reuse data = .error e data') pool := by
  obtain ⟨i, hi⟩ := h.frameOf_of_pinned hpins
  have hraises : wp (putRow row header reuse) (fun _ _ => True) (fun e _ => e = .structError) data := by
    have hsliced : BytesM.setSlice (header.freePtr - row.length) (header.freePtr - row.length + row.length) row
        data = .ok () (data.take (header.freePtr - row.length) ++
          (row ++ data.drop (header.freePtr - row.length + row.length))) := rfl
    refine wp_bind.mpr ((wp_of_ok hsliced).mpr (wp_bind.mpr ?_))
    exact (packInto_raises _ _ _).mono (fun _ _ _ => packInto_raises _ _ _) fun _ _ he => he
  refine wp_bind.mpr ((wp_edit h hi hpins hdata _).mono ?_ ?_)
  · rintro _ pool₁ ⟨data₁, hput, h₁, -⟩
    exact ⟨rfl, data₁, hput, h₁⟩
  · rintro e pool₁ ⟨data₁, herr, -⟩
    exact ⟨hraises.error herr, data₁, herr⟩

/-! ## The spill under the pin of someone else -/

/-- The row goes to a new page while someone holds a pin on the full last page. -/
structure ReleasesTwice (row : Bytes) (heap : HeapFile) (pool : BufferPool Bytes) : Prop where
  fits : ¬Oversized row
  held : pool.pinCount heap.lastPageId ≠ 0
  full : ∃ frame, pool.residentFrame heap.lastPageId = some frame ∧ NoRoom frame.data row
  room : ¬Full pool
  id : pool.disk.length < 2 ^ 32

theorem noRoom_iff {reuse : Option Nat} (hheader : readHeader data = .ok header)
    (hreuse : findDeleted data (List.range header.numSlots) = .ok reuse) :
    NoRoom data row ↔
      header.freePtr < HeapFile.slotOffset header.numSlots + neededSlotBytes reuse + row.length := by
  refine ⟨?_, fun hlt => ⟨header, reuse, hheader, hreuse, hlt⟩⟩
  rintro ⟨header', reuse', hheader', hreuse', hlt⟩
  obtain rfl := Except.ok.inj (hheader.symm.trans hheader')
  obtain rfl := Except.ok.inj (hreuse.symm.trans hreuse')
  exact hlt

variable {heap : HeapFile}

theorem ReleasesTwice.fetchable (h : ReleasesTwice row heap pool) : Fetchable pool heap.lastPageId := by
  obtain ⟨frame, hframe, -⟩ := h.full
  obtain ⟨i, hi, -⟩ := Option.bind_eq_some_iff.mp hframe
  exact .inl ⟨i, hi⟩

theorem ReleasesTwice.noRoom (h : ReleasesTwice row heap pool) (hpool : Sound pool pins changed logical) :
    ∃ data, logical[heap.lastPageId]? = some data ∧ NoRoom data row := by
  obtain ⟨frame, hframe, hfull⟩ := h.full
  exact ⟨_, hpool.residentFrame_data hframe, hfull⟩

theorem releasesTwice_of (hpool : Sound pool pins changed logical) (hrow : ¬Oversized row)
    (hpins : pins heap.lastPageId ≠ 0) (hdata : logical[heap.lastPageId]? = some data)
    (hfull : NoRoom data row) (hroom : ¬Full pool) (hid : logical.length < 2 ^ 32) :
    ReleasesTwice row heap pool := by
  obtain ⟨i, hi⟩ := hpool.frameOf_of_pinned hpins
  obtain ⟨f, hf⟩ := hpool.resident _ i hi
  refine ⟨hrow, by rwa [hpool.pinCount_eq], ⟨f, ?_, ?_⟩, hroom, by rwa [hpool.length]⟩
  · rw [residentFrame, hi]
    exact hf.frame
  · obtain rfl := Option.some.inj (hf.data.symm.trans hdata)
    exact hfull

/-! ## Every end of insertion -/

/-- The handle, the RID and the pages after `insert` has returned: the row is on the last page,
    or on a new one that the last page is linked to. -/
inductive Inserted (row : Bytes) (heap : HeapFile) (logical : List Bytes) :
    RID × HeapFile → List Bytes → Prop where
  | inPlace {data data' : Bytes} {header : Header} {reuse : Option Nat}
      (hdata : logical[heap.lastPageId]? = some data) (hheader : readHeader data = .ok header)
      (hreuse : findDeleted data (List.range header.numSlots) = .ok reuse) (hroom : ¬NoRoom data row)
      (hput : putRow row header reuse data = .ok () data') :
      Inserted row heap logical (⟨heap.lastPageId, reuse.getD header.numSlots⟩, heap)
        (logical.set heap.lastPageId data')
  | spilled {data linked placed : Bytes} {header : Header}
      (hdata : logical[heap.lastPageId]? = some data) (hheader : readHeader data = .ok header)
      (hlink : writeHeader ⟨1, header.numSlots, header.freePtr, logical.length⟩ data = .ok () linked)
      (hput : putRow row ⟨1, 0, pageSize, invalidPageId⟩ none freshPage = .ok () placed) :
      Inserted row heap logical (⟨logical.length, 0⟩, { heap with lastPageId := logical.length })
        (logical.set heap.lastPageId linked ++ [placed])

/-- What keeps a row that fits a page from being inserted: the last page cannot be fetched, it
    is not a heap page, or it is full and there is no page to link it to. -/
inductive Hindered (row : Bytes) (heap : HeapFile) (pool : BufferPool Bytes) (logical : List Bytes) : Prop where
  | unfetched (h : logical[heap.lastPageId]? = none ∨ ¬Fetchable pool heap.lastPageId)
  | garbled {data : Bytes} (hdata : logical[heap.lastPageId]? = some data)
      (h : ∀ header reuse, readHeader data = .ok header →
        findDeleted data (List.range header.numSlots) = .ok reuse →
        ¬NoRoom data row ∧ ∃ e data', putRow row header reuse data = .error e data')
  | noPage {data : Bytes} {pool₁ : BufferPool Bytes} (hdata : logical[heap.lastPageId]? = some data)
      (hroom : NoRoom data row) (hfetch : BufferPool.fetchPage heap.lastPageId pool = .ok data pool₁)
      (h : Full pool₁ ∨ 2 ^ 32 ≤ logical.length)

/-- After `insert` has returned, the pins are those from before, but for the one that the spill
    has taken from the last page. -/
def Returned (row : Bytes) (heap : HeapFile) (pool : BufferPool Bytes) (pins : Nat → Nat) (logical : List Bytes)
    (x : RID × HeapFile) (pool' : BufferPool Bytes) : Prop :=
  ∃ pins' changed logical', Sound pool' pins' changed logical' ∧ Inserted row heap logical x logical' ∧
    (¬ReleasesTwice row heap pool ∧ pins' = pins ∨
      ReleasesTwice row heap pool ∧ pins' = Function.update pins heap.lastPageId (pins heap.lastPageId - 1))

/-- What is known when `insert` raises. -/
structure Refused (row : Bytes) (heap : HeapFile) (pool : BufferPool Bytes) (logical : List Bytes) (e : PyError)
    (pool' : BufferPool Bytes) : Prop where
  ends : e ≠ .diverges
  once : ¬ReleasesTwice row heap pool
  oversized : Oversized row → pool' = pool
  hindered : ¬Oversized row → Hindered row heap pool logical

/-- The release behind a call that has raised. -/
theorem wp_release_raised {pool₁ : BufferPool Bytes} {e : PyError} (hrow : ¬Oversized row)
    (he : e ≠ .diverges) (hnot : ¬ReleasesTwice row heap pool) (hcause : Hindered row heap pool logical) :
    wp (unpinPage p true) (fun _ pool' => Refused row heap pool logical e pool')
      (fun e' pool' => Refused row heap pool logical e' pool') pool₁ :=
  (unpinPage_ends pool₁ p true).mono
    (fun _ _ _ => ⟨he, hnot, fun hover => absurd hover hrow, fun _ => hcause⟩)
    fun _ _ he' => ⟨he', hnot, fun hover => absurd hover hrow, fun _ => hcause⟩

/-- The second release of the full last page: a pin is lost if someone holds one. -/
theorem wp_release_spilled {pool₁ : BufferPool Bytes} {logical' : List Bytes} {x : RID × HeapFile}
    (h : Sound pool pins changed logical) (h₁ : Sound pool₁ pins changed logical')
    (hinserted : Inserted row heap logical x logical')
    (htwice : pins heap.lastPageId ≠ 0 → ReleasesTwice row heap pool) :
    wp (unpinPage heap.lastPageId true) (fun _ pool' => Returned row heap pool pins logical x pool')
      (fun _ _ => False) pool₁ := by
  by_cases hpins : pins heap.lastPageId = 0
  · refine (h₁.unpin_unheld hpins true).mono ?_ fun _ _ he => he
    rintro ⟨⟩ pool₂ ⟨h₂, -⟩
    refine ⟨pins, changed, logical', h₂, hinserted, .inl ⟨fun htwice => ?_, rfl⟩⟩
    exact htwice.held ((h.pinCount_eq _).trans hpins)
  · have hfewer : ∀ q, q ≠ heap.lastPageId → (changed q ∧ q ≠ heap.lastPageId ↔ changed q) :=
      fun q hq => and_iff_left hq
    refine (wp_unpinPage h₁ hpins hfewer (fun _ => .inr rfl) fun hc => absurd rfl hc.2).mono ?_
      fun _ _ he => he
    rintro ⟨⟩ pool₂ ⟨h₂, -⟩
    exact ⟨_, _, logical', h₂, hinserted, .inr ⟨htwice hpins, rfl⟩⟩

/-- What `insert` does from the last page on, once it holds it. -/
theorem wp_insertHeld {pool₁ : BufferPool Bytes} (h : Sound pool pins changed logical)
    (h₁ : Sound pool₁ (Function.update pins heap.lastPageId (pins heap.lastPageId + 1)) changed logical)
    (hfullSame : pins heap.lastPageId ≠ 0 → (Full pool₁ ↔ Full pool))
    (hfetch : BufferPool.fetchPage heap.lastPageId pool = .ok data pool₁)
    (hdata : logical[heap.lastPageId]? = some data) (hrow : ¬Oversized row) (fuel : Nat) :
    wp (andFinally (insertHeld row heap data (insertFrom row (fuel + 1))) (unpinPage heap.lastPageId true))
      (fun x pool' => Returned row heap pool pins logical x pool')
      (fun e pool' => Refused row heap pool logical e pool') pool₁ := by
  have hnot : ¬NoRoom data row → ¬ReleasesTwice row heap pool := by
    intro hfits htwice
    obtain ⟨data', hdata', hfull⟩ := htwice.noRoom h
    obtain rfl := Option.some.inj (hdata.symm.trans hdata')
    exact hfits hfull
  rw [wp_andFinally, insertHeld]
  refine wp_bind.mpr (PoolM.wp_lift (fun header hheader => ?_) fun e herr => ?_)
  case refine_2 =>
    obtain rfl := readHeader_error herr
    refine wp_release_raised hrow (by decide) (hnot ?_) (.garbled hdata fun header _ hheader => ?_)
    · rintro ⟨header, -, hheader, -⟩
      cases hheader.symm.trans herr
    · cases hheader.symm.trans herr
  refine wp_bind.mpr (PoolM.wp_lift (fun reuse hreuse => ?_) fun e herr => ?_)
  case refine_2 =>
    obtain rfl := findDeleted_error herr
    have hfails : ∀ header' reuse, readHeader data = .ok header' →
        findDeleted data (List.range header'.numSlots) ≠ .ok reuse := by
      intro header' reuse hheader' hreuse
      obtain rfl := Except.ok.inj (hheader.symm.trans hheader')
      cases hreuse.symm.trans herr
    refine wp_release_raised hrow (by decide) (hnot ?_)
      (.garbled hdata fun header' reuse hheader' hreuse => absurd hreuse (hfails header' reuse hheader'))
    rintro ⟨header', reuse, hheader', hreuse, -⟩
    exact hfails header' reuse hheader' hreuse
  by_cases hfull : header.freePtr < HeapFile.slotOffset header.numSlots + neededSlotBytes reuse + row.length
  · rw [if_pos hfull]
    have hnoRoom : NoRoom data row := (noRoom_iff hheader hreuse).mpr hfull
    refine (wp_spill h₁ h.pinned hdata hheader hrow heap.firstPageId fuel).mono ?_ ?_
    · rintro x pool₂ ⟨rfl, ⟨linked, placed, hlink, hput, h₂⟩, hroom, hid⟩
      refine (wp_release_spilled h h₂ (.spilled hdata hheader hlink hput) fun hpins => ?_).mono
        (fun _ _ hend => hend) fun _ _ he => he.elim
      exact releasesTwice_of h hrow hpins hdata hnoRoom (mt (hfullSame hpins).mpr hroom) hid
    · rintro e pool₂ ⟨he, hcause⟩
      refine wp_release_raised hrow he (fun htwice => ?_) (.noPage hdata hnoRoom hfetch hcause)
      have hpins : pins heap.lastPageId ≠ 0 := h.pinCount_eq _ ▸ htwice.held
      rcases hcause with hcause | hid
      · exact htwice.room ((hfullSame hpins).mp hcause)
      · exact Nat.not_lt_of_le hid (h.length ▸ htwice.id)
  · rw [if_neg hfull]
    have hroom : ¬NoRoom data row := mt (noRoom_iff hheader hreuse).mp hfull
    refine (wp_putRow h₁ (pinned_of_taken pins _) hdata header reuse).mono ?_ ?_
    · rintro x pool₂ ⟨rfl, data', hput, h₂⟩
      refine (h₂.unpin h.pinned (fun q hq => (or_iff_left hq).symm) fun _ => .inr rfl).mono ?_
        fun _ _ he => he.elim
      rintro ⟨⟩ pool₃ ⟨h₃, -⟩
      exact ⟨pins, changed, _, h₃, .inPlace hdata hheader hreuse hroom hput, .inl ⟨hnot hroom, rfl⟩⟩
    · rintro e pool₂ ⟨rfl, data', herr⟩
      refine wp_release_raised hrow (by decide) (hnot hroom)
        (.garbled hdata fun header' reuse' hheader' hreuse' => ?_)
      obtain rfl := Except.ok.inj (hheader.symm.trans hheader')
      obtain rfl := Except.ok.inj (hreuse.symm.trans hreuse')
      exact ⟨hroom, _, data', herr⟩

/-- Every end of `insert`. -/
theorem wp_insertFrom (h : Sound pool pins changed logical) (row : Bytes) (heap : HeapFile) (fuel : Nat) :
    wp (insertFrom row (fuel + 2) heap) (fun x pool' => Returned row heap pool pins logical x pool')
      (fun e pool' => Refused row heap pool logical e pool') pool := by
  rw [insertFrom]
  by_cases hrow : Oversized row
  · rw [if_pos hrow]
    refine ⟨fun he => ?_, fun htwice => htwice.fits hrow, fun _ => rfl, fun hfits => absurd hrow hfits⟩
    cases he
  rw [if_neg hrow]
  refine wp_bind.mpr
    (((wp_fetchPage h heap.lastPageId).and (wp.of_imp (sameRoom_fetchPage h))).run.mono ?_ ?_)
  · rintro data pool₁ ⟨hfetch, ⟨h₁, hdata, -⟩, hsame⟩
    refine wp_insertHeld h h₁ (fun hpins => ?_) hfetch hdata hrow fuel
    rw [Full, Full, (hsame hpins).2.1, (hsame hpins).2.2]
  · rintro e pool₁ ⟨-, ⟨he, hnone⟩, -⟩
    refine ⟨he, fun htwice => ?_, fun hover => absurd hover hrow, fun _ => .unfetched hnone⟩
    obtain ⟨data, hdata, -⟩ := htwice.noRoom h
    rcases hnone with hnone | hfetch
    · cases hnone.symm.trans hdata
    · exact hfetch htwice.fetchable

/-! ## Pin neutrality -/

/-- The pins on every page are those from before. A page that is new has none, and one that is
    held stays in its frame, where it cannot be evicted. -/
structure PinsKept (pool pool' : BufferPool Bytes) : Prop where
  same : ∀ q, pool'.pinCount q = pool.pinCount q
  allocated : ∀ q, pool.disk.length ≤ q → pool'.pinCount q = 0
  held : ∀ q, pool.pinCount q ≠ 0 → ∃ i, pool'.frameOf q = some i ∧ i ∉ pool'.lru

/-- `insert` comes to an end, and keeps the pins where it returns and where it refuses a row
    for its length. -/
def PinNeutral (row : Bytes) (heap : HeapFile) (pool : BufferPool Bytes) : Prop :=
  wp (insert row heap) (fun _ pool' => PinsKept pool pool')
    (fun e pool' => e ≠ .diverges ∧ (Oversized row → PinsKept pool pool')) pool

theorem PinsKept.of_sound {changed' : Nat → Prop} {logical' : List Bytes}
    (h : Sound pool pins changed logical) (h' : Sound pool' pins changed' logical') : PinsKept pool pool' where
  same q := by rw [h.pinCount_eq, h'.pinCount_eq]
  allocated q hq := by
    rw [h'.pinCount_eq]
    by_contra hpins
    obtain ⟨i, hi⟩ := h.frameOf_of_pinned hpins
    obtain ⟨f, hf⟩ := h.resident q i hi
    exact Nat.not_lt_of_le hq (h.bound hf.data)
  held q hpins := by
    rw [h.pinCount_eq] at hpins
    obtain ⟨i, hi⟩ := h'.frameOf_of_pinned hpins
    obtain ⟨f, hf⟩ := h'.resident q i hi
    exact ⟨i, hi, fun hwaits => hpins (hf.waits.mp hwaits)⟩

/-- The spill takes a pin of someone else. -/
theorem ReleasesTwice.not_pinNeutral (h : ReleasesTwice row heap pool)
    (hpool : Sound pool pins changed logical) : ¬PinNeutral row heap pool := by
  intro hneutral
  have hinsert := wp_insertFrom hpool row heap 0
  cases hrun : insert row heap pool with
  | ok x pool' =>
    obtain ⟨pins', changed', logical', hpool', -, hcase⟩ := hinsert.ok hrun
    have hsame := (hneutral.ok hrun).same heap.lastPageId
    have hheld := h.held
    rw [hpool'.pinCount_eq, hpool.pinCount_eq] at hsame
    rw [hpool.pinCount_eq] at hheld
    rcases hcase with ⟨hnot, -⟩ | ⟨-, rfl⟩
    · exact hnot h
    · rw [Function.update_self] at hsame
      omega
  | error e pool' => exact (hinsert.error hrun).once h

/-- `insert` is pin-neutral except where it spills from a page that someone else holds. -/
theorem insert_pinNeutral_iff (h : Sound pool pins changed logical) (row : Bytes) (heap : HeapFile) :
    PinNeutral row heap pool ↔ ¬ReleasesTwice row heap pool := by
  refine ⟨fun hneutral htwice => htwice.not_pinNeutral h hneutral, fun hnot => ?_⟩
  refine (wp_insertFrom h row heap 0).mono ?_ ?_
  · rintro x pool' ⟨pins', changed', logical', h', -, ⟨-, rfl⟩ | ⟨htwice, -⟩⟩
    · exact .of_sound h h'
    · exact absurd htwice hnot
  · intro e pool' hrefused
    refine ⟨hrefused.ends, fun hrow => ?_⟩
    rw [hrefused.oversized hrow]
    exact .of_sound h h

/-- On a fresh pool over a heap of one empty page. -/
theorem insert_pinNeutral_iff_fresh :
    PinNeutral [1, 2, 3] ⟨0, 0⟩ (.init zeros [freshPage] 2) ↔
      ¬ReleasesTwice [1, 2, 3] ⟨0, 0⟩ (.init zeros [freshPage] 2) :=
  insert_pinNeutral_iff (sound_init zeros [freshPage] 2) [1, 2, 3] ⟨0, 0⟩

/-! ### A page that someone else holds -/

theorem readSlot_written {offset length : Nat} (hoffset : offset < 2 ^ 16) (hlength : length < 2 ^ 16)
    (header : Header) (rest : Bytes) :
    readSlot (header.bytes ++ (packed [(2, offset), (2, length)] ++ rest)) 0 = .ok (offset, length) := by
  have h₀ := @unpackFrom_written header.bytes (littleEndian 2 length ++ rest) 2 offset hoffset
  have h₁ := @unpackFrom_written (header.bytes ++ littleEndian 2 offset) rest 2 length hlength
  simp only [List.length_append, length_littleEndian, Header.length_bytes, List.append_assoc] at h₀ h₁
  have hdata : header.bytes ++ (packed [(2, offset), (2, length)] ++ rest) =
      header.bytes ++ (littleEndian 2 offset ++ (littleEndian 2 length ++ rest)) := by
    simp [packed]
  rw [hdata, readSlot, show HeapFile.slotOffset 0 = 9 from rfl, h₀, h₁]
  rfl

/-- A page that one row fills up to its last byte. -/
def fullPage : Bytes :=
  (Header.mk 1 1 13 invalidPageId).bytes ++ (packed [(2, 13), (2, 4083)] ++ List.replicate 4083 0)

/-- The page was allocated and filled, and whoever has done so still holds it. -/
def overlapping : PoolClients Bytes where
  pool := ⟨[zeros], [⟨none, zeros, 0, false⟩, ⟨some 0, fullPage, 1, false⟩], [(0, 1)], [0], [], 0, 0, 0⟩
  handles := [⟨0, 1, true⟩]
  logical := [fullPage]

theorem reachable_overlapping : PoolClients.Reachable zeros [] 2 overlapping := by
  have hallocated : PoolClients.Reachable zeros [] 2
      ⟨⟨[zeros], [⟨none, zeros, 0, false⟩, ⟨some 0, zeros, 1, false⟩], [(0, 1)], [0], [], 0, 0, 0⟩,
        [⟨0, 1, false⟩], [zeros]⟩ :=
    PoolClients.Reachable.init.step (.newPage (i := 1) rfl rfl)
  exact hallocated.step (.write (l := []) (f := ⟨some 0, zeros, 1, false⟩) fullPage rfl)

theorem releasesTwice_overlapping : ReleasesTwice (List.replicate 8 0) ⟨0, 0⟩ overlapping.pool where
  fits := by decide
  held := by decide
  full := by
    refine ⟨⟨some 0, fullPage, 1, false⟩, rfl, ⟨1, 1, 13, invalidPageId⟩, none, ?_, ?_, by decide⟩
    · exact readHeader_bytes ⟨by decide, by decide, by decide, by decide⟩ _
    · have hslot := @readSlot_written 13 4083 (by decide) (by decide) ⟨1, 1, 13, invalidPageId⟩
        (List.replicate 4083 0)
      rw [show List.range 1 = [0] from rfl, findDeleted, fullPage, hslot]
      rfl
  room h := by cases h.1
  id := by decide

/-- The holder's page is filled up: the next row takes the pin away from under it. -/
theorem insert_takes_pin :
    PoolClients.Reachable zeros [] 2 overlapping ∧ ¬PinNeutral (List.replicate 8 0) ⟨0, 0⟩ overlapping.pool :=
  ⟨reachable_overlapping, releasesTwice_overlapping.not_pinNeutral reachable_overlapping.inv.sound⟩

end RawHeap
end Minirel
