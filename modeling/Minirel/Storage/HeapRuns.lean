-- SUMMARY: Runs of a heap file: it holds what was last stored under each RID.
import Minirel.Storage.HeapRows

/-!
# Runs of a heap file

What was last stored under each RID is written down beside a heap file while it is used. A run
goes through its operations in any order, each with the current handle, and other clients may
use the pool in between. After every run the heap file holds what was written down.
-/

namespace Minirel

open BufferPool Encoding

namespace RawHeap

/-! ## The operations and what they store -/

section
variable {pool : BufferPool Bytes} {logical : List Bytes} {heap : HeapFile} {pages : List Nat}
  {stored : RID → Option Bytes} {rid : RID} {n : Nat}

theorem set_same {p : Nat} {data : Bytes} (h : logical[p]? = some data) : logical.set p data = logical := by
  obtain ⟨hlt, rfl⟩ := List.getElem?_eq_some_iff.mp h
  exact List.set_getElem_self hlt

/-- The heap file in its pool, at rest. -/
def Holding (n : Nat) (pool : BufferPool Bytes) (heap : HeapFile) (pages : List Nat)
    (stored : RID → Option Bytes) : Prop :=
  ∃ logical, Rests n pool logical ∧ Laid logical heap pages stored

theorem Holding.get (h : Holding n pool heap pages stored) (hn : 1 ≤ n) (hrid : rid.pageId ∈ pages) :
    wp (RawHeap.get rid) (fun row pool' => row = stored rid ∧ Holding n pool' heap pages stored)
      (fun _ _ => False) pool := by
  obtain ⟨logical, hrests, hlaid⟩ := h
  obtain ⟨-, data, next, hdata, -, hcarries⟩ := hlaid.of_mem hrid
  refine (wp_get_resting hrests hn hdata hcarries).mono ?_ fun _ _ he => he
  rintro row pool' ⟨rfl, h'⟩
  exact ⟨rfl, logical, h', hlaid⟩

/-- `update_in_place` succeeds for a row of the same length, and leaves everything as it is
    otherwise. -/
theorem Holding.updateInPlace (h : Holding n pool heap pages stored) (hn : 1 ≤ n) (hrid : rid.pageId ∈ pages)
    (new : Bytes) :
    wp (RawHeap.updateInPlace rid new)
      (fun done pool' => (done = true ↔ ∃ old, stored rid = some old ∧ old.length = new.length) ∧
        Holding n pool' heap pages (if done then Function.update stored rid (some new) else stored))
      (fun _ _ => False) pool := by
  obtain ⟨logical, hrests, hlaid⟩ := h
  obtain ⟨-, data, next, hdata, -, hcarries⟩ := hlaid.of_mem hrid
  by_cases hlive : ∃ old, stored rid = some old ∧ old.length = new.length
  · obtain ⟨old, hold, hlength⟩ := hlive
    obtain ⟨data', hupdate, hcarries'⟩ := hcarries.updateRow_eq hold hlength
    refine (wp_heldEdit hrests hn hdata hupdate).mono ?_ fun _ _ he => he
    rintro done pool' ⟨rfl, h'⟩
    refine ⟨iff_of_true rfl ⟨old, hold, hlength⟩, _, h',
      hlaid.write hrid fun data₁ next₁ hdata₁ hcarries₁ => ?_⟩
    obtain rfl := Option.some.inj (hdata.symm.trans hdata₁)
    obtain rfl := hcarries.nextPage_eq.symm.trans hcarries₁.nextPage_eq
    exact hcarries'
  · have hrefused := hcarries.updateRow_refused fun old hold hlength => hlive ⟨old, hold, hlength⟩
    refine (wp_heldEdit hrests hn hdata hrefused).mono ?_ fun _ _ he => he
    rintro done pool' ⟨rfl, h'⟩
    rw [set_same hdata] at h'
    exact ⟨iff_of_false Bool.false_ne_true hlive, logical, h', hlaid⟩

/-- `delete` succeeds for a row, and leaves everything as it is otherwise. -/
theorem Holding.delete (h : Holding n pool heap pages stored) (hn : 1 ≤ n) (hrid : rid.pageId ∈ pages) :
    wp (RawHeap.delete rid)
      (fun done pool' => (done = true ↔ ∃ old, stored rid = some old) ∧
        Holding n pool' heap pages (if done then Function.update stored rid none else stored))
      (fun _ _ => False) pool := by
  obtain ⟨logical, hrests, hlaid⟩ := h
  obtain ⟨-, data, next, hdata, -, hcarries⟩ := hlaid.of_mem hrid
  cases hold : stored rid with
  | some old =>
    obtain ⟨data', hdelete, hcarries'⟩ := hcarries.deleteRow_eq hold
    refine (wp_heldEdit hrests hn hdata hdelete).mono ?_ fun _ _ he => he
    rintro done pool' ⟨rfl, h'⟩
    refine ⟨iff_of_true rfl ⟨old, rfl⟩, _, h', hlaid.write hrid fun data₁ next₁ hdata₁ hcarries₁ => ?_⟩
    obtain rfl := Option.some.inj (hdata.symm.trans hdata₁)
    obtain rfl := hcarries.nextPage_eq.symm.trans hcarries₁.nextPage_eq
    exact hcarries'
  | none =>
    refine (wp_heldEdit hrests hn hdata (hcarries.deleteRow_refused hold)).mono ?_ fun _ _ he => he
    rintro done pool' ⟨rfl, h'⟩
    rw [set_same hdata] at h'
    exact ⟨iff_of_false Bool.false_ne_true (by rintro ⟨old, hsome⟩; cases hsome), logical, h', hlaid⟩

/-- `insert` stores a row that fits a page under a RID that had none. It refuses all others
    and changes nothing. -/
theorem Holding.insert (h : Holding n pool heap pages stored) (hn : 2 ≤ n) (hlimit : pool.disk.length < 2 ^ 32)
    (row : Bytes) :
    wp (RawHeap.insert row heap)
      (fun x pool' => ¬Oversized row ∧ x.1.pageId ∈ pagesAfter pages x.2 ∧ stored x.1 = none ∧
        (pool'.disk.length ≤ invalidPageId →
          Holding n pool' x.2 (pagesAfter pages x.2) (Function.update stored x.1 (some row))))
      (fun _ pool' => Oversized row ∧ pool' = pool) pool := by
  obtain ⟨logical, hrests, hlaid⟩ := h
  obtain ⟨-, data, next, hdata, hnext, hcarries⟩ := hlaid.of_mem hlaid.last_mem
  have hid : logical.length < 2 ^ 32 := hrests.sound.length ▸ hlimit
  have hinsert := wp_insert_resting hrests (by omega) hdata hcarries hnext row fun _ => ⟨hn, hid⟩
  refine hinsert.mono ?_ fun _ _ he => he
  rintro x pool' ⟨hrow, logical', h', hinserted⟩
  refine ⟨hrow, hinserted.mem_pagesAfter, hlaid.fresh hinserted,
    fun hlimit' => ⟨logical', h', hlaid.insert hrow hinserted ?_⟩⟩
  rwa [← h'.sound.length]

/-- The constructor comes back to the current handle. -/
theorem Holding.openAt (h : Holding n pool heap pages stored) (hn : 1 ≤ n) :
    Ends (fun _ => False) (RawHeap.openAt heap.firstPageId)
      (fun heap' pool' => heap' = heap ∧ Holding n pool' heap pages stored) pool := by
  obtain ⟨logical, hrests, hlaid⟩ := h
  obtain ⟨first, rest, rfl, hfirst⟩ : ∃ first rest, pages = first :: rest ∧ first = heap.firstPageId := by
    have hhead := hlaid.first
    cases pages with
    | nil => cases hhead
    | cons first rest => exact ⟨first, rest, rfl, Option.some.inj hhead⟩
  have hnodup : (first :: rest).Nodup := hlaid.increasing.imp Nat.ne_of_lt
  have hseen : ∀ q ∈ rest, q ∉ [first] := fun q hq hmem =>
    (List.nodup_cons.mp hnodup).1 (List.mem_singleton.mp hmem ▸ hq)
  have hwalk := findLastPage_resting hrests hn hlaid.linked hnodup hseen
  rw [hfirst] at hwalk
  refine hwalk.bind fun last pool' hlast => Ends.of_ok (fun fuel => rfl) ?_
  have hsame : last = heap.lastPageId := Option.some.inj (hlast.1.symm.trans (hfirst ▸ hlaid.last))
  exact ⟨by rw [hsame], logical, hlast.2, hlaid⟩

/-- A scan yields every row once, in the order of the RIDs, from the pages in their order. -/
theorem Holding.scan (h : Holding n pool heap pages stored) (hn : 1 ≤ n) :
    Ends (fun _ => False) (RawHeap.scan heap)
      (fun visits pool' => (visits.map (·.1) = pages ∧
        (∀ x, x ∈ visits.flatMap (·.2) ↔ stored x.1 = some x.2) ∧
        (visits.flatMap (·.2)).Pairwise fun x y => Before x.1 y.1) ∧ Holding n pool' heap pages stored)
      pool := by
  obtain ⟨logical, hrests, hlaid⟩ := h
  have hfirst : headPage pages = heap.firstPageId := by rw [headPage, hlaid.first, Option.getD_some]
  have hscan := scan_resting hrests hn hlaid.linked hlaid.increasing
  rw [hfirst] at hscan
  refine Ends.mono hscan ?_
  rintro visits pool' ⟨hyields, h'⟩
  refine ⟨⟨hyields.visited, fun x => ?_, hyields.sorted⟩, logical, h', hlaid⟩
  rw [hyields.rows]
  refine and_iff_right_of_imp fun hx => ?_
  by_contra hmem
  cases hx.symm.trans (hlaid.elsewhere x.1 hmem)

/-- A new heap file is empty. -/
theorem Holding.create {logical : List Bytes} (h : Rests n pool logical) (hn : 1 ≤ n) :
    Ends (fun _ => False) RawHeap.create
      (fun heap pool' => pool'.disk.length ≤ invalidPageId →
        Holding n pool' heap [heap.firstPageId] fun _ => none) pool := by
  refine (create_resting h hn).mono ?_
  rintro heap pool' ⟨rfl, h'⟩ hlimit
  have hlt : logical.length < invalidPageId := by
    rw [h'.sound.length, List.length_append] at hlimit
    exact hlimit
  refine ⟨_, h', rfl, rfl, List.pairwise_singleton _ _, ⟨hlt, ⟨freshPage, ?_, carries_freshPage⟩, trivial⟩,
    fun _ _ => rfl⟩
  exact List.getElem?_concat_length

end

/-! ## Runs -/

/-- A heap file in its pool, its pages, and beside it what was last stored under each RID. -/
structure HeapRun where
  pool : BufferPool Bytes
  heap : HeapFile
  pages : List Nat
  stored : RID → Option Bytes

namespace HeapRun

/-- One operation, with the current handle. A RID is of a page of the heap file. The other
    clients of the pool leave its pages alone. -/
inductive Step (n : Nat) (run : HeapRun) : HeapRun → Prop where
  | insert {row : Bytes} {rid : RID} {heap : HeapFile} {pool : BufferPool Bytes}
      (h : RawHeap.insert row run.heap run.pool = .ok (rid, heap) pool) :
      Step n run ⟨pool, heap, pagesAfter run.pages heap, Function.update run.stored rid (some row)⟩
  | refuse {row : Bytes} {e : PyError} {pool : BufferPool Bytes}
      (h : RawHeap.insert row run.heap run.pool = .error e pool) : Step n run { run with pool }
  | get {rid : RID} {row : Option Bytes} {pool : BufferPool Bytes} (hrid : rid.pageId ∈ run.pages)
      (h : RawHeap.get rid run.pool = .ok row pool) : Step n run { run with pool }
  | updateInPlace {rid : RID} {new : Bytes} {done : Bool} {pool : BufferPool Bytes}
      (hrid : rid.pageId ∈ run.pages) (h : RawHeap.updateInPlace rid new run.pool = .ok done pool) :
      Step n run
        { run with pool, stored := if done then Function.update run.stored rid (some new) else run.stored }
  | delete {rid : RID} {done : Bool} {pool : BufferPool Bytes} (hrid : rid.pageId ∈ run.pages)
      (h : RawHeap.delete rid run.pool = .ok done pool) :
      Step n run { run with pool, stored := if done then Function.update run.stored rid none else run.stored }
  | reopen {fuel : Nat} {heap : HeapFile} {pool : BufferPool Bytes}
      (h : RawHeap.openAt run.heap.firstPageId fuel run.pool = .ok heap pool) :
      Step n run { run with pool, heap }
  | scan {fuel : Nat} {visits : List (Nat × List (RID × Bytes))} {pool : BufferPool Bytes}
      (h : RawHeap.scan run.heap fuel run.pool = .ok visits pool) : Step n run { run with pool }
  | others {pool : BufferPool Bytes} {logical logical' : List Bytes} (hbefore : Rests n run.pool logical)
      (hafter : Rests n pool logical') (hmore : logical.length ≤ logical'.length)
      (hsame : ∀ p ∈ run.pages, logical'[p]? = logical[p]?) : Step n run { run with pool }

/-- The runs of a heap file that is created in a pool of `n` frames. -/
inductive Reachable (n : Nat) : HeapRun → Prop where
  | create {fuel : Nat} {heap : HeapFile} {pool pool' : BufferPool Bytes} {logical : List Bytes}
      (hpool : Rests n pool logical) (h : RawHeap.create fuel pool = .ok heap pool') :
      Reachable n ⟨pool', heap, [heap.firstPageId], fun _ => none⟩
  | step {run run' : HeapRun} (h : Reachable n run) (hstep : Step n run run') : Reachable n run'

variable {n : Nat} {run run' : HeapRun}

/-- The data file never gets shorter. -/
theorem Step.disk_le (hstep : Step n run run') : run.pool.disk.length ≤ run'.pool.disk.length := by
  cases hstep with
  | insert h => exact (((keeps_insertFrom _ _ _).grows _).ok h).2
  | refuse h => exact (((keeps_insertFrom _ _ _).grows _).error h).2
  | get hrid h => exact (((keeps_get _).grows _).ok h).2
  | updateInPlace hrid h => exact (((keeps_heldEdit _ _).grows _).ok h).2
  | delete hrid h => exact (((keeps_heldEdit _ _).grows _).ok h).2
  | reopen h => exact (((keeps_openAt _ _).grows _).ok h).2
  | scan h => exact (((keeps_scanFrom _ _).grows _).ok h).2
  | others hbefore hafter hmore =>
    rw [hbefore.sound.length, hafter.sound.length]
    exact hmore

theorem Step.holding (hn : 2 ≤ n) (hstep : Step n run run') (hlimit : run'.pool.disk.length ≤ invalidPageId)
    (h : Holding n run.pool run.heap run.pages run.stored) :
    Holding n run'.pool run'.heap run'.pages run'.stored := by
  have hone : 1 ≤ n := by omega
  have hlt : run.pool.disk.length < 2 ^ 32 := (hstep.disk_le.trans hlimit).trans_lt (by decide)
  cases hstep with
  | insert hrun => exact ((h.insert hn hlt _).ok hrun).2.2.2 hlimit
  | refuse hrun =>
    obtain ⟨-, rfl⟩ := (h.insert hn hlt _).error hrun
    exact h
  | get hrid hrun => exact ((h.get hone hrid).ok hrun).2
  | updateInPlace hrid hrun => exact ((h.updateInPlace hone hrid _).ok hrun).2
  | delete hrid hrun => exact ((h.delete hone hrid).ok hrun).2
  | reopen hrun =>
    obtain ⟨rfl, h'⟩ := (h.openAt hone).2 _ _ _ hrun
    exact h'
  | scan hrun => exact ((h.scan hone).2 _ _ _ hrun).2
  | others hbefore hafter hmore hsame =>
    obtain ⟨logical, hrests, hlaid⟩ := h
    obtain rfl := hbefore.sound.logical_unique hrests.sound
    exact ⟨_, hafter, { hlaid with linked := hlaid.linked.congr hsame fun _ _ _ => rfl }⟩

theorem Reachable.holding (hn : 2 ≤ n) (h : Reachable n run) (hlimit : run.pool.disk.length ≤ invalidPageId) :
    Holding n run.pool run.heap run.pages run.stored := by
  induction h with
  | create hpool hcreate => exact (Holding.create hpool (by omega)).2 _ _ _ hcreate hlimit
  | step _ hstep ih => exact hstep.holding hn hlimit (ih (hstep.disk_le.trans hlimit))

/-! ## Faithfulness -/

/-- The heap file is a map from the RIDs on its pages to the rows last stored there. -/
structure Faithful (run : HeapRun) : Prop where
  get : ∀ rid, rid.pageId ∈ run.pages →
    wp (RawHeap.get rid) (fun row _ => row = run.stored rid) (fun _ _ => False) run.pool
  insert : ∀ row, wp (RawHeap.insert row run.heap)
    (fun x _ => row.length ≤ 4083 ∧ x.1.pageId ∈ pagesAfter run.pages x.2 ∧ run.stored x.1 = none)
    (fun _ pool => 4083 < row.length ∧ pool = run.pool) run.pool
  updateInPlace : ∀ rid new, rid.pageId ∈ run.pages →
    wp (RawHeap.updateInPlace rid new)
      (fun done _ => done = true ↔ ∃ old, run.stored rid = some old ∧ old.length = new.length)
      (fun _ _ => False) run.pool
  delete : ∀ rid, rid.pageId ∈ run.pages →
    wp (RawHeap.delete rid) (fun done _ => done = true ↔ ∃ old, run.stored rid = some old)
      (fun _ _ => False) run.pool
  reopen : Ends (fun _ => False) (RawHeap.openAt run.heap.firstPageId) (fun heap _ => heap = run.heap) run.pool
  scan : Ends (fun _ => False) (RawHeap.scan run.heap)
    (fun visits _ => visits.map (·.1) = run.pages ∧
      (∀ x, x ∈ visits.flatMap (·.2) ↔ run.stored x.1 = some x.2) ∧
      (visits.flatMap (·.2)).Pairwise fun x y => Before x.1 y.1) run.pool

theorem oversized_iff {row : Bytes} : Oversized row ↔ 4083 < row.length := by
  simp only [Oversized, pageSize, HeapFile.headerSize, HeapFile.slotSize]
  omega

theorem faithful_of_holding (hn : 2 ≤ n) (hlimit : run.pool.disk.length < 2 ^ 32)
    (h : Holding n run.pool run.heap run.pages run.stored) : Faithful run where
  get rid hrid := (h.get (by omega) hrid).mono (fun _ _ hrow => hrow.1) fun _ _ he => he
  insert row := by
    refine (h.insert hn hlimit row).mono ?_ ?_
    · rintro x pool ⟨hrow, hpage, hnone, -⟩
      exact ⟨not_lt.mp (mt oversized_iff.mpr hrow), hpage, hnone⟩
    · rintro e pool ⟨hrow, hsame⟩
      exact ⟨oversized_iff.mp hrow, hsame⟩
  updateInPlace rid new hrid :=
    (h.updateInPlace (by omega) hrid new).mono (fun _ _ hdone => hdone.1) fun _ _ he => he
  delete rid hrid := (h.delete (by omega) hrid).mono (fun _ _ hdone => hdone.1) fun _ _ he => he
  reopen := (h.openAt (by omega)).mono fun _ _ hheap => hheap.1
  scan := (h.scan (by omega)).mono fun _ _ hvisits => hvisits.1

/-- In a pool of two frames or more, and as long as there are page ids left for new pages, the
    heap file is faithful after every run. -/
theorem heap_faithful (hn : 2 ≤ n) (h : Reachable n run) (hlimit : run.pool.disk.length ≤ invalidPageId) :
    Faithful run :=
  faithful_of_holding hn (hlimit.trans_lt (by decide)) (h.holding hn hlimit)

/-- A pool of two frames, with page 0 in the second one. -/
def twoFrames (zeros data : Bytes) (pins : Nat) (dirty : Bool) (lru : List Nat) (hits : Nat) :
    BufferPool Bytes :=
  ⟨[zeros], [⟨none, zeros, 0, false⟩, ⟨some 0, data, pins, dirty⟩], [(0, 1)], [0], lru, 0, 0, hits⟩

theorem newPage_twoFrames (zeros : Bytes) :
    BufferPool.newPage zeros (init zeros [] 2) = .ok (0, zeros) (twoFrames zeros zeros 1 false [] 0) := rfl

theorem fetchPage_twoFrames (zeros data : Bytes) :
    BufferPool.fetchPage 0 (twoFrames zeros data 0 true [1] 0) = .ok data (twoFrames zeros data 1 true [] 1) :=
  rfl

theorem unpinPage_twoFrames (zeros data : Bytes) (b dirty : Bool) (hits : Nat) :
    unpinPage 0 dirty (twoFrames zeros data 1 b [] hits) =
      .ok () (twoFrames zeros data 0 (b || dirty) [1] hits) := rfl

theorem edit_twoFrames {data data' : Bytes} {m : BytesM Unit} (zeros : Bytes) (hm : m data = .ok () data') :
    edit 0 m (twoFrames zeros data 1 false [] 0) = .ok () (twoFrames zeros data' 1 false [] 0) :=
  edit_eq (i := 1) (f := ⟨some 0, data, 1, false⟩) rfl rfl hm

/-- A heap file that was created in a pool of two frames. -/
def created : HeapRun := ⟨twoFrames zeros freshPage 0 true [1] 1, ⟨0, 0⟩, [0], fun _ => none⟩

theorem reachable_created : Reachable 2 created := by
  have hnew : newHeapPage (init zeros [] 2) = .ok 0 (twoFrames zeros freshPage 0 true [1] 0) := by
    rw [newHeapPage, run_bind_ok (newPage_twoFrames zeros)]
    dsimp only
    rw [run_bind_ok (edit_twoFrames zeros initHeapPage_zeros), run_bind_ok (unpinPage_twoFrames ..)]
    rfl
  have hvisit : visit 0 readHeader (twoFrames zeros freshPage 0 true [1] 0) =
      .ok ⟨1, 0, pageSize, invalidPageId⟩ (twoFrames zeros freshPage 0 true [1] 1) := by
    have hread : PoolM.lift (readHeader freshPage) (twoFrames zeros freshPage 1 true [] 1) =
        .ok ⟨1, 0, pageSize, invalidPageId⟩ (twoFrames zeros freshPage 1 true [] 1) := by
      rw [readHeader_freshPage]
      rfl
    rw [visit, run_bind_ok (fetchPage_twoFrames zeros freshPage), run_bind_ok hread,
      run_bind_ok (unpinPage_twoFrames ..)]
    rfl
  have hopen : openAt 0 1 (twoFrames zeros freshPage 0 true [1] 0) =
      .ok ⟨0, 0⟩ (twoFrames zeros freshPage 0 true [1] 1) := by
    have hfind : findLastPageFrom 1 [0] 0 (twoFrames zeros freshPage 0 true [1] 0) =
        .ok 0 (twoFrames zeros freshPage 0 true [1] 1) := by
      rw [findLastPageFrom, run_bind_ok hvisit, if_pos rfl]
      rfl
    rw [openAt, run_bind_ok hfind]
    rfl
  exact .create (rests_init zeros [] 2) (show create 1 _ = _ from (run_bind_ok hnew).trans hopen)

/-- It is faithful. -/
theorem heap_faithful_created : Faithful created :=
  heap_faithful (by decide) reachable_created (by decide)

/-! ### One frame, and no page ids -/

/-- With one frame there is none for a new page. -/
theorem wp_insert_oneFrame {pool : BufferPool Bytes} {logical : List Bytes} {heap : HeapFile} {data row : Bytes}
    (h : Rests 1 pool logical) (hdata : logical[heap.lastPageId]? = some data) (hfull : NoRoom data row) :
    wp (RawHeap.insert row heap) (fun _ _ => False) (fun _ _ => True) pool := by
  have hraises : ∀ pool₁ : BufferPool Bytes, wp (unpinPage heap.lastPageId true) (fun _ _ => True)
      (fun _ _ => True) pool₁ := fun _ => wp_of (fun _ _ _ => trivial) fun _ _ _ => trivial
  rw [RawHeap.insert, insertFrom]
  split
  · trivial
  refine wp_bind.mpr ((wp_fetch_resting h le_rfl hdata).run.mono ?_ fun _ _ he => he.2.elim)
  rintro _ pool₁ ⟨hfetch, rfl, h₁, -⟩
  obtain ⟨header, reuse, hheader, hreuse, hlt⟩ := hfull
  rw [wp_andFinally, insertHeld, hheader]
  refine wp_bind.mpr (PoolM.wp_lift ?_ fun _ _ => hraises _)
  rintro _ ⟨⟩
  rw [hreuse]
  refine wp_bind.mpr (PoolM.wp_lift ?_ fun _ _ => hraises _)
  rintro _ ⟨⟩
  rw [if_pos hlt]
  refine wp_bind.mpr ((wp_newPage h₁ zeros).mono ?_ fun _ _ _ => hraises _)
  rintro x pool₂ ⟨-, -, -, -, hroom⟩
  exact absurd (h.full_of_one hfetch) hroom

theorem fits_freshPage {row : Bytes} (hrow : ¬Oversized row) : ¬NoRoom freshPage row :=
  mt (@noRoom_iff freshPage row _ none readHeader_freshPage rfl).mp hrow

/-- A page with a row that fills it has no room for another one. -/
theorem noRoom_filled {row placed : Bytes} (hrow : row.length = 4083)
    (hput : putRow row ⟨1, 0, pageSize, invalidPageId⟩ none freshPage = .ok () placed) : NoRoom placed [0] := by
  have hfits : ¬Oversized row := mt oversized_iff.mp (by omega)
  obtain ⟨slots, h, hrows⟩ := slotted_placed hfits hput
  obtain ⟨reuse, hfind, -⟩ := h.findDeleted_eq fun i hi => List.mem_range.mp hi
  obtain ⟨offset, hslot⟩ := rowAt_eq_some.mp ((congrFun hrows 0).trans (Function.update_self _ _ _))
  have hslots : HeapFile.slotOffset 1 ≤ HeapFile.slotOffset slots.length :=
    slotOffset_mono (List.getElem?_eq_some_iff.mp hslot).1
  have hone : HeapFile.slotOffset 1 = 13 := rfl
  have hsize : pageSize - row.length = 13 := by rw [hrow]; rfl
  refine ⟨_, reuse, h.header, hfind, ?_⟩
  change pageSize - row.length < HeapFile.slotOffset slots.length + neededSlotBytes reuse + 1
  omega

/-- The first row of a heap file goes on a page that was empty. -/
theorem wp_insert_first {pool : BufferPool Bytes} {before : List Bytes} {row : Bytes}
    (h : Rests n pool (before ++ [freshPage])) (hn : 1 ≤ n) (hrow : ¬Oversized row) :
    wp (RawHeap.insert row ⟨before.length, before.length⟩)
      (fun x pool' => x.2.firstPageId = before.length ∧ ∃ logical placed, Rests n pool' logical ∧
        logical.length ≤ before.length + 2 ∧ logical[x.2.lastPageId]? = some placed ∧
        putRow row ⟨1, 0, pageSize, invalidPageId⟩ none freshPage = .ok () placed)
      (fun _ _ => False) pool := by
  have hdata : (before ++ [freshPage])[before.length]? = some freshPage := List.getElem?_concat_length
  have hinsert := @wp_insert_resting pool _ freshPage n ⟨before.length, before.length⟩ invalidPageId _ h hn
    hdata carries_freshPage (by decide) row fun hfull => absurd hfull (fits_freshPage hrow)
  refine hinsert.mono ?_ fun _ _ he => hrow he.1
  rintro x pool' ⟨-, logical, h', hinserted⟩
  cases hinserted with
  | @inPlace data data' header reuse hdata₁ hheader hreuse _ hput =>
    have hsame : data = freshPage := Option.some.inj (hdata₁.symm.trans hdata)
    subst hsame
    obtain rfl := Except.ok.inj (hheader.symm.trans readHeader_freshPage)
    obtain rfl : reuse = none := (Except.ok.inj hreuse).symm
    refine ⟨rfl, _, data', h', ?_, List.getElem?_set_self (List.getElem?_eq_some_iff.mp hdata).1, hput⟩
    rw [List.length_set, List.length_append, List.length_singleton]
    omega
  | @spilled _ linked placed _ _ _ _ hput =>
    refine ⟨rfl, _, placed, h', ?_, ?_, hput⟩
    · rw [List.length_append, List.length_set, List.length_append, List.length_singleton]
      rfl
    · have hend : (before ++ [freshPage]).length = ((before ++ [freshPage]).set before.length linked).length :=
        List.length_set.symm
      exact hend ▸ List.getElem?_concat_length

theorem not_faithful_oneFrame :
    ∃ run, Reachable 1 run ∧ run.pool.disk.length ≤ invalidPageId ∧ ¬Faithful run := by
  have hlength : (List.replicate 4083 (0 : UInt8)).length = 4083 := List.length_replicate
  generalize List.replicate 4083 (0 : UInt8) = row at hlength
  have hrow : ¬Oversized row := mt oversized_iff.mp (by omega)
  obtain ⟨fuel, heap, pool, hcreate, rfl, hrests⟩ := (create_resting (rests_init zeros [] 1) le_rfl).exists_ok
  obtain ⟨⟨rid, heap⟩, pool', hinsert, -, logical, placed, hrests', hlimit, hdata, hput⟩ :=
    (@wp_insert_first 1 pool [] row hrests le_rfl hrow).returns
  refine ⟨_, (Reachable.create (rests_init zeros [] 1) hcreate).step (.insert hinsert), ?_, fun hfaithful => ?_⟩
  · exact hrests'.sound.length.trans_le (hlimit.trans (by decide))
  · have hraises := (hfaithful.insert [0]).and (wp_insert_oneFrame hrests' hdata (noRoom_filled hlength hput))
    have hnever : wp (RawHeap.insert [0] heap) (fun _ _ => False) (fun _ _ => False) pool' :=
      hraises.mono (fun _ _ h => h.2) fun _ _ h => absurd h.1.1 (by decide)
    obtain ⟨x, pool₁, -, hfalse⟩ := hnever.returns
    exact hfalse

theorem not_faithful_noPages : ∃ run, Reachable 2 run ∧ ¬Faithful run := by
  obtain ⟨disk, hdisk⟩ : ∃ disk : List Bytes, disk.length = invalidPageId :=
    ⟨List.replicate invalidPageId zeros, List.length_replicate⟩
  obtain ⟨fuel, heap, pool, hcreate, rfl, hrests⟩ :=
    (create_resting (rests_init zeros disk 2) (by decide)).exists_ok
  obtain ⟨⟨rid, heap⟩, pool', hinsert, hfirst, -⟩ :=
    (@wp_insert_first 2 pool disk [1] hrests (by decide) (by decide)).returns
  refine ⟨_, (Reachable.create (rests_init zeros disk 2) hcreate).step (.insert hinsert), fun hfaithful => ?_⟩
  have hscan : RawHeap.scan heap 1 pool' = .ok [] pool' := by
    rw [RawHeap.scan, scanFrom, if_pos (hfirst.trans hdisk)]
    rfl
  have hyields := (hfaithful.scan.2 1 [] pool' hscan).2.1 (rid, [1])
  exact List.not_mem_nil (hyields.mpr (Function.update_self _ _ _))

/-- In a pool of one frame a heap file is not faithful, nor is one behind the last page id. -/
theorem heap_unfaithful :
    ¬(∀ run, Reachable 1 run → run.pool.disk.length ≤ invalidPageId → Faithful run) ∧
      ¬∀ run, Reachable 2 run → Faithful run := by
  refine ⟨fun hall => ?_, fun hall => ?_⟩
  · obtain ⟨run, hrun, hlimit, hnot⟩ := not_faithful_oneFrame
    exact hnot (hall run hrun hlimit)
  · obtain ⟨run, hrun, hnot⟩ := not_faithful_noPages
    exact hnot (hall run hrun)

end HeapRun

end RawHeap
end Minirel
