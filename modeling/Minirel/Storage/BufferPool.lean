-- SUMMARY: The buffer pool over the disk manager: frames, pins, eviction and write-back.
import Minirel.Storage.Page
import Minirel.Lib.WeakestPre
import Mathlib.Data.List.Basic

/-!
# The buffer pool

`disk_manager.py` and `buffer_pool.py`. The bytes of a page are of a type `β` of their own:
neither of the two looks into them. A frame stands for the mutable bytes that a caller gets
from `fetch_page` and `new_page`.
-/

namespace Minirel

variable {β α : Type}

/-- A frame of the pool. -/
structure Frame (β : Type) where
  pageId : Option Nat
  data : β
  pinCount : Nat
  dirty : Bool
  deriving DecidableEq

/-- The buffer pool with the data file below it. The page table is a dictionary from page ids
    to frames; the frames that may be evicted wait in `lru`, the one to go next in front. -/
structure BufferPool (β : Type) where
  disk : List β
  frames : List (Frame β)
  pageTable : List (Nat × Nat)
  freeFrames : List Nat
  lru : List Nat
  diskReads : Nat
  diskWrites : Nat
  cacheHits : Nat

/-- A call on the pool. -/
abbrev PoolM (β : Type) := EStateM PyError (BufferPool β)

namespace BufferPool

/-- `BufferPoolManager.__init__` over a data file. -/
def init (zeros : β) (disk : List β) (poolSize : Nat) : BufferPool β where
  disk := disk
  frames := List.replicate poolSize ⟨none, zeros, 0, false⟩
  pageTable := []
  freeFrames := List.range poolSize
  lru := []
  diskReads := 0
  diskWrites := 0
  cacheHits := 0

/-! ## The data file -/

/-- `allocate_page`. -/
def allocatePage (zeros : β) : PoolM β Nat := fun pool =>
  .ok pool.disk.length { pool with disk := pool.disk ++ [zeros] }

/-- `read_page`. -/
def readPage (pageId : Nat) : PoolM β β := fun pool =>
  match pool.disk[pageId]? with
  | some data => .ok data pool
  | none => .error
      (.valueError s!"page {pageId} does not exist (num_pages={pool.disk.length})") pool

/-- `write_page`, of a full page. -/
def writePage (pageId : Nat) (data : β) : PoolM β Unit := fun pool =>
  .ok () { pool with disk := pool.disk.set pageId data }

/-! ## Frames -/

/-- The frame a page is in. -/
def frameOf (pool : BufferPool β) (pageId : Nat) : Option Nat := pool.pageTable.lookup pageId

def getFrame (frameIdx : Nat) : PoolM β (Frame β) := fun pool =>
  match pool.frames[frameIdx]? with
  | some frame => .ok frame pool
  | none => .error .indexError pool

def setFrame (frameIdx : Nat) (frame : Frame β) : PoolM β Unit := fun pool =>
  .ok () { pool with frames := pool.frames.set frameIdx frame }

/-- `self._page_table[page_id] = frame_idx`. -/
def setPage (pageId frameIdx : Nat) : PoolM β Unit := fun pool =>
  .ok () { pool with
    pageTable := pool.pageTable.filter (fun x => x.1 ≠ pageId) ++ [(pageId, frameIdx)] }

/-- `del self._page_table[page_id]`. -/
def delPage (pageId : Nat) : PoolM β Unit := fun pool =>
  match pool.frameOf pageId with
  | some _ => .ok () { pool with pageTable := pool.pageTable.filter fun x => x.1 ≠ pageId }
  | none => .error (.keyError (toString pageId)) pool

/-- The page of a frame that is in use. -/
def pageOf (frame : Frame β) : PoolM β Nat := fun pool =>
  match frame.pageId with
  | some pageId => .ok pageId pool
  | none => .error .typeError pool

/-- The write-back of a frame that is dirty. -/
def writeBack (pageId : Nat) (data : β) : PoolM β Unit := do
  writePage pageId data
  modify fun pool => { pool with diskWrites := pool.diskWrites + 1 }

def evictOne : PoolM β Nat := do
  let pool ← get
  match pool.freeFrames.getLast? with
  | some frameIdx =>
    set { pool with freeFrames := pool.freeFrames.dropLast }
    return frameIdx
  | none =>
    match pool.lru with
    | [] => throw (.bufferPoolFullError "all buffer pool frames are pinned; cannot evict")
    | frameIdx :: lru =>
      set { pool with lru }
      let frame ← getFrame frameIdx
      let pageId ← pageOf frame
      if frame.dirty then writeBack pageId frame.data
      delPage pageId
      return frameIdx

def pin (frameIdx : Nat) : PoolM β Unit := do
  let frame ← getFrame frameIdx
  setFrame frameIdx { frame with pinCount := frame.pinCount + 1 }
  modify fun pool => { pool with lru := pool.lru.erase frameIdx }

/-- What `fetch_page` and `new_page` do with the frame they have got. -/
def install (pageId frameIdx : Nat) (data : β) : PoolM β Unit := do
  setFrame frameIdx ⟨some pageId, data, 0, false⟩
  setPage pageId frameIdx
  pin frameIdx

/-! ## The calls -/

/-- `fetch_page`: what it returns is the data of the frame of the page. -/
def fetchPage (pageId : Nat) : PoolM β β := do
  let pool ← get
  match pool.frameOf pageId with
  | some frameIdx =>
    modify fun pool => { pool with cacheHits := pool.cacheHits + 1 }
    pin frameIdx
    let frame ← getFrame frameIdx
    return frame.data
  | none =>
    let frameIdx ← evictOne
    let data ← readPage pageId
    modify fun pool => { pool with diskReads := pool.diskReads + 1 }
    install pageId frameIdx data
    return data

def newPage (zeros : β) : PoolM β (Nat × β) := do
  let pageId ← allocatePage zeros
  let frameIdx ← evictOne
  install pageId frameIdx zeros
  return (pageId, zeros)

def unpinPage (pageId : Nat) (dirty : Bool) : PoolM β Unit := do
  let pool ← get
  match pool.frameOf pageId with
  | none => return
  | some frameIdx =>
    let frame ← getFrame frameIdx
    let pinCount := frame.pinCount - 1
    setFrame frameIdx { frame with pinCount, dirty := frame.dirty || dirty }
    if pinCount = 0 then
      modify fun pool =>
        { pool with lru := if frameIdx ∈ pool.lru then pool.lru else pool.lru ++ [frameIdx] }

def flushPage (pageId : Nat) : PoolM β Unit := do
  let pool ← get
  match pool.frameOf pageId with
  | none => return
  | some frameIdx =>
    let frame ← getFrame frameIdx
    if frame.dirty then
      writeBack pageId frame.data
      setFrame frameIdx { frame with dirty := false }

/-- The loop of `flush_all`. -/
def flushPages : List Nat → PoolM β Unit
  | [] => return
  | pageId :: pageIds => do
    flushPage pageId
    flushPages pageIds

/-- `flush_all`, up to the `fsync` at its end. -/
def flushAll : PoolM β Unit := do
  let pool ← get
  flushPages (pool.pageTable.map (·.1))

end BufferPool
end Minirel
