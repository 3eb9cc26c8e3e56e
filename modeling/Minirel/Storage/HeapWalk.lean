-- SUMMARY: Walks along the heap chain of any data file end: the constructor's check carries `scan`.
import Minirel.Encoding
import Minirel.Lib.Fueled
import Minirel.Storage.HeapFile
import Minirel.Storage.Visits

/-!
# Heap chains on bytes

`_find_last_page` and `scan` on pages of any bytes. The constructor remembers the pages it has
seen and raises when a link leads back to one, so what it has accepted is a chain that ends, and
`scan`, which remembers nothing, comes to its end on it. A loop is given fuel for the pages it
visits.
-/

namespace Minirel

open BufferPool Encoding

namespace RawHeap

/-! ## Pages -/

structure Header where
  pageType : Nat
  numSlots : Nat
  freePtr : Nat
  nextPage : Nat
  deriving DecidableEq

/-- `_read_header`. -/
def readHeader (data : Bytes) : Except PyError Header := do
  return ⟨← unpackFrom data 0 1, ← unpackFrom data 1 2, ← unpackFrom data 3 2, ← unpackFrom data 5 4⟩

/-- `_read_slot`. -/
def readSlot (data : Bytes) (index : Nat) : Except PyError (Nat × Nat) := do
  let start := HeapFile.slotOffset index
  return (← unpackFrom data start 2, ← unpackFrom data (start + 2) 2)

/-- `_DELETED`. -/
def deleted : Nat := 0xFFFF

/-- The live tuples of a page, in the order of its slots. -/
def liveTuples (pageId : Nat) (data : Bytes) (numSlots : Nat) : Except PyError (List (RID × Bytes)) := do
  let found ← (List.range numSlots).mapM fun i => do
    let (offset, length) ← readSlot data i
    return if length = deleted then none else some (⟨pageId, i⟩, (data.drop offset).take length)
  return found.reduceOption

/-! ## Walks -/

/-- The loop of `_find_last_page`. -/
def findLastPageFrom : Nat → List Nat → Nat → PoolM Bytes Nat
  | 0, _, _ => throw .diverges
  | fuel + 1, seen, pageId => do
    let header ← visit pageId readHeader
    if header.nextPage = invalidPageId then return pageId
    else if header.nextPage ∈ seen then
      throw (.valueError (s!"heap page chain has a cycle at page {header.nextPage} " ++
        "(the data file may be corrupt, or a page was never initialized)"))
    else findLastPageFrom fuel (header.nextPage :: seen) header.nextPage

/-- `HeapFile(buffer_pool, first_page_id)`. -/
def openAt (firstPageId fuel : Nat) : PoolM Bytes HeapFile :=
  return ⟨firstPageId, ← findLastPageFrom fuel [firstPageId] firstPageId⟩

/-- What `scan` reads of a page while it holds it. -/
def scanPage (pageId : Nat) (data : Bytes) : Except PyError (Header × List (RID × Bytes)) := do
  let header ← readHeader data
  return (header, ← liveTuples pageId data header.numSlots)

/-- The loop of `scan`: the pages it visits, each with the tuples it yields from it. -/
def scanFrom : Nat → Nat → PoolM Bytes (List (Nat × List (RID × Bytes)))
  | 0, _ => throw .diverges
  | fuel + 1, pageId => do
    if pageId = invalidPageId then return []
    else
      let (header, tuples) ← visit pageId (scanPage pageId)
      return (pageId, tuples) :: (← scanFrom fuel header.nextPage)

def scan (heap : HeapFile) (fuel : Nat) : PoolM Bytes (List (Nat × List (RID × Bytes))) :=
  scanFrom fuel heap.firstPageId

/-! ## What a page holds -/

/-- The page that a page of bytes is linked to. -/
def nextPage (data : Bytes) : Nat :=
  match readHeader data with
  | .ok header => header.nextPage
  | .error _ => invalidPageId

/-- The slot directory runs beyond the page. -/
def Malformed (data : Bytes) : Prop :=
  ∃ header, readHeader data = .ok header ∧ data.length < HeapFile.slotOffset header.numSlots

variable {data : Bytes}

theorem readHeader_of_length (h : data.length = pageSize) : ∃ header, readHeader data = .ok header := by
  have hfield : ∀ {offset width}, offset + width ≤ pageSize → ∃ n, unpackFrom data offset width = .ok n :=
    fun hle => unpackFrom_of_le (h ▸ hle)
  obtain ⟨pageType, h₀⟩ := @hfield 0 1 (by decide)
  obtain ⟨numSlots, h₁⟩ := @hfield 1 2 (by decide)
  obtain ⟨freePtr, h₂⟩ := @hfield 3 2 (by decide)
  obtain ⟨next, h₃⟩ := @hfield 5 4 (by decide)
  refine ⟨⟨pageType, numSlots, freePtr, next⟩, ?_⟩
  rw [readHeader, h₀, h₁, h₂, h₃]
  rfl

theorem nextPage_eq {header : Header} (h : readHeader data = .ok header) :
    nextPage data = header.nextPage := by
  rw [nextPage, h]

theorem readSlot_error {index : Nat} {e : PyError} (h : readSlot data index = .error e) :
    e = .structError ∧ data.length < HeapFile.slotOffset (index + 1) := by
  have hoffset : HeapFile.slotOffset (index + 1) = HeapFile.slotOffset index + 4 := by
    simp only [HeapFile.slotOffset, HeapFile.slotSize]
    omega
  rcases bind_eq_error.mp h with hfirst | ⟨offset, -, h⟩
  · obtain ⟨he, hlt⟩ := unpackFrom_error hfirst
    exact ⟨he, by omega⟩
  · rcases bind_eq_error.mp h with hsecond | ⟨length, -, h⟩
    · obtain ⟨he, hlt⟩ := unpackFrom_error hsecond
      exact ⟨he, by omega⟩
    · cases h

theorem slotOffset_mono {i j : Nat} (h : i ≤ j) : HeapFile.slotOffset i ≤ HeapFile.slotOffset j := by
  simp only [HeapFile.slotOffset, HeapFile.slotSize]
  omega

/-- Reading the slots fails only where the directory runs beyond the page. -/
theorem scanPage_error {pageId : Nat} {e : PyError} (hlength : data.length = pageSize)
    (h : scanPage pageId data = .error e) : e = .structError ∧ Malformed data := by
  obtain ⟨header, hheader⟩ := readHeader_of_length hlength
  rcases bind_eq_error.mp h with hfail | ⟨header', hheader', h⟩
  · rw [hheader] at hfail
    cases hfail
  rcases bind_eq_error.mp h with htuples | ⟨tuples, -, h⟩
  case inr => cases h
  rcases bind_eq_error.mp htuples with hslots | ⟨found, -, h⟩
  case inr => cases h
  obtain ⟨i, hi, hslot⟩ := exists_of_mapM_error hslots
  rcases bind_eq_error.mp hslot with hread | ⟨slot, -, h⟩
  case inr => cases h
  obtain ⟨he, hlt⟩ := readSlot_error hread
  exact ⟨he, header', hheader', hlt.trans_le (slotOffset_mono (List.mem_range.mp hi))⟩

theorem scanPage_ok {pageId : Nat} {header : Header} {tuples : List (RID × Bytes)}
    (h : scanPage pageId data = .ok (header, tuples)) : readHeader data = .ok header := by
  obtain ⟨header', hheader, h⟩ := bind_eq_ok.mp h
  obtain ⟨tuples', -, h⟩ := bind_eq_ok.mp h
  cases h
  exact hheader

/-! ## The walks -/

variable {look : Nat → Option Bytes} {pool : BufferPool Bytes} {pageId n : Nat} {seen : List Nat}

/-- Only the page the walk is at need not be one of the file. -/
theorem length_le_of_seen (hnodup : seen.Nodup) (hseen : ∀ p ∈ seen, p ≠ pageId → p < n) :
    seen.length ≤ n + 1 := by
  have hsub : seen ⊆ pageId :: List.range n := by
    intro p hp
    by_cases heq : p = pageId
    · exact heq ▸ List.mem_cons_self
    · exact List.mem_cons_of_mem _ (List.mem_range.mpr (hseen p hp heq))
  simpa using (List.subperm_of_subset hnodup hsub).length_le

/-- The constructor's walk ends, for it comes to a page once and there are `n` pages. Where it
    has returned, the pages from `pageId` on are a chain. -/
theorem findLastPage_ends (hlook : ∀ p data, look p = some data → p < n ∧ data.length = pageSize)
    {left : Nat} (hleft : n + 2 ≤ left + seen.length) (hpool : Shows look pool) (hmem : pageId ∈ seen)
    (hnodup : seen.Nodup) (hseen : ∀ p ∈ seen, p ≠ pageId → p < n) :
    Ends (· ≠ .diverges) (fun fuel => findLastPageFrom fuel seen pageId)
      (fun _ pool' => Shows look pool' ∧
        (pageId ≠ invalidPageId → ∃ chain, Trail look nextPage invalidPageId pageId chain)) pool := by
  induction left generalizing pool pageId seen with
  | zero =>
    have := length_le_of_seen hnodup hseen
    omega
  | succ left ih =>
    have hvisit : Ends (· ≠ .diverges) (fun _ => visit pageId readHeader)
        (fun header pool' => Shows look pool' ∧ ∃ data, look pageId = some data ∧
          readHeader data = .ok header) pool := by
      refine Ends.of_wp ((wp_visit hpool pageId readHeader).mono (fun _ _ hQ => hQ) ?_)
      rintro e _ (⟨he, -⟩ | ⟨data, hdata, herr⟩)
      · exact he
      · obtain ⟨header, hheader⟩ := readHeader_of_length (hlook _ _ hdata).2
        rw [hheader] at herr
        cases herr
    refine Ends.succ (hvisit.bind fun header pool₁ hvisited => ?_) (fun fuel => rfl) ⟨_, _, rfl⟩
    obtain ⟨hpool₁, data, hdata, hheader⟩ := hvisited
    have hnext := nextPage_eq hheader
    by_cases hlast : header.nextPage = invalidPageId
    · refine Ends.of_ok (fun fuel => by rw [if_pos hlast]; rfl) ⟨hpool₁, fun hne => ?_⟩
      exact ⟨[(pageId, data)], rfl, hne, hdata, hnext.trans hlast⟩
    · by_cases hcycle : header.nextPage ∈ seen
      · refine Ends.of_error (fun fuel => by rw [if_neg hlast, if_pos hcycle]; rfl) ?_
        nofun
      · have hrest := @ih pool₁ header.nextPage (header.nextPage :: seen)
          (by rw [List.length_cons]; omega) hpool₁ List.mem_cons_self
          (List.nodup_cons.mpr ⟨hcycle, hnodup⟩) fun p hp hne => by
            by_cases heq : p = pageId
            · exact heq ▸ (hlook _ _ hdata).1
            · exact hseen p ((List.mem_cons.mp hp).resolve_left hne) heq
        refine (hrest.congr fun fuel => by rw [if_neg hlast, if_neg hcycle]).mono ?_
        rintro last pool₂ ⟨hpool₂, hchain⟩
        refine ⟨hpool₂, fun hne => ?_⟩
        obtain ⟨chain, hchain⟩ := hchain hlast
        exact ⟨(pageId, data) :: chain, rfl, hne, hdata, hnext ▸ hchain⟩

/-- `scan` goes along a chain that ends, one page after the other. -/
theorem scan_ends (hlook : ∀ p data, look p = some data → data.length = pageSize)
    {chain : List (Nat × Bytes)} (hchain : Trail look nextPage invalidPageId pageId chain)
    (hpool : Shows look pool) :
    Ends (fun e => e = .structError ∧ ∃ x ∈ chain, Malformed x.2) (fun fuel => scanFrom fuel pageId)
      (fun visits _ => visits.map (·.1) = chain.map (·.1)) pool := by
  induction chain generalizing pool pageId with
  | nil =>
    have hstop : pageId = invalidPageId := hchain
    have hround : ∀ fuel, scanFrom (fuel + 1) pageId pool = .ok [] pool := fun fuel => by
      rw [scanFrom, if_pos hstop]
      rfl
    exact Ends.succ (Ends.of_ok (fun _ => rfl) rfl) hround ⟨_, _, rfl⟩
  | cons x chain ih =>
    obtain ⟨p, data⟩ := x
    obtain ⟨rfl, hne, hdata, hrest⟩ := hchain
    have hvisit : Ends (fun e => e = .structError ∧ ∃ x ∈ (pageId, data) :: chain, Malformed x.2)
        (fun _ => visit pageId (scanPage pageId))
        (fun found pool' => Shows look pool' ∧ readHeader data = .ok found.1) pool := by
      refine Ends.of_wp ((wp_visit hpool pageId (scanPage pageId)).mono ?_ ?_)
      · rintro ⟨header, tuples⟩ pool₁ ⟨hpool₁, data', hdata', hread⟩
        obtain rfl := Option.some.inj (hdata.symm.trans hdata')
        exact ⟨hpool₁, scanPage_ok hread⟩
      · rintro e _ (⟨-, hnone⟩ | ⟨data', hdata', herr⟩)
        · cases hnone.symm.trans hdata
        · obtain rfl := Option.some.inj (hdata.symm.trans hdata')
          obtain ⟨he, hmalformed⟩ := scanPage_error (hlook _ _ hdata) herr
          exact ⟨he, _, List.mem_cons_self, hmalformed⟩
    refine Ends.succ (hvisit.bind fun found pool₁ hvisited => ?_)
      (fun fuel => by rw [scanFrom, if_neg hne]) ⟨_, _, rfl⟩
    obtain ⟨hpool₁, hheader⟩ := hvisited
    have htail := ih (nextPage_eq hheader ▸ hrest) hpool₁
    refine Ends.bind (htail.imp fun e he => ⟨he.1, ?_⟩) fun visits pool₂ hvisits => ?_
    · obtain ⟨x, hx, hmalformed⟩ := he.2
      exact ⟨x, List.mem_cons_of_mem _ hx, hmalformed⟩
    · exact Ends.of_ok (fun _ => rfl) (congrArg (pageId :: ·) hvisits)

/-! ## Any data file -/

/-- Opening a heap file at any page of any data file ends. If it has returned, the chain from
    that page on ends, and a scan visits each of its pages once, or raises at one of them whose
    slot directory runs beyond the page. -/
theorem heap_walks_end (file : Bytes) {pins : Nat → Nat} {changed : Nat → Prop}
    (hpool : Sound pool pins changed (DiskManager.pages file)) (firstPageId : Nat) :
    Ends (· ≠ .diverges) (openAt firstPageId)
      (fun heap pool' => ∃ chain,
        Trail (fun p => (DiskManager.pages file)[p]?) nextPage invalidPageId firstPageId chain ∧
        (chain.map (·.1)).Nodup ∧
        Ends (fun e => e = .structError ∧ ∃ x ∈ chain, Malformed x.2) (scan heap)
          (fun visits _ => visits.map (·.1) = chain.map (·.1)) pool') pool := by
  have hlook : ∀ p data, shown pool (DiskManager.pages file) p = some data →
      p < (DiskManager.pages file).length ∧ data.length = pageSize := by
    intro p data hdata
    have hpage := (shown_eq_some.mp hdata).2
    exact ⟨(List.getElem?_eq_some_iff.mp hpage).1, DiskManager.length_of_pages hpage⟩
  have hfind := findLastPage_ends hlook (show _ ≤ _ + [firstPageId].length from Nat.le_refl _)
    hpool.shows (List.mem_singleton_self _) (List.nodup_singleton _) fun p hp hne =>
      absurd (List.mem_singleton.mp hp) hne
  refine Ends.bind hfind fun last pool' hlast => Ends.of_ok (fun _ => rfl) ?_
  obtain ⟨hpool', hchain⟩ := hlast
  obtain ⟨chain, hchain⟩ : ∃ chain, Trail (shown pool (DiskManager.pages file)) nextPage invalidPageId
      firstPageId chain := by
    by_cases hfirst : firstPageId = invalidPageId
    · exact ⟨[], hfirst⟩
    · exact hchain hfirst
  refine ⟨chain, hchain.mono fun p data hdata => (shown_eq_some.mp hdata).2, hchain.nodup, ?_⟩
  exact scan_ends (fun p data hdata => (hlook p data hdata).2) hchain hpool'

/-- On a fresh pool over a page that was never written, whose link is to itself. -/
theorem heap_walks_end_zeros :
    Ends (· ≠ .diverges) (openAt 0)
      (fun heap pool' => ∃ chain,
        Trail (fun p => (DiskManager.pages (List.replicate pageSize 0))[p]?) nextPage invalidPageId 0
          chain ∧
        (chain.map (·.1)).Nodup ∧
        Ends (fun e => e = .structError ∧ ∃ x ∈ chain, Malformed x.2) (scan heap)
          (fun visits _ => visits.map (·.1) = chain.map (·.1)) pool')
      (init [] (DiskManager.pages (List.replicate pageSize 0)) 64) :=
  heap_walks_end _ (sound_init [] _ 64) 0

end RawHeap
end Minirel
