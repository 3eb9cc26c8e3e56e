-- SUMMARY: The heap file: a chain of slotted pages, its operations, and what a walk along the chain reads.
import Minirel.Lib.Walk
import Minirel.Storage.PageFile

/-!
# The heap file

`storage/heap_file.py` over the page file. A page of zeros reads as a heap page
with no slots, no free space and page 0 next. A handle is the pair of its first
and its last page id; inserting moves the last one.
-/

namespace Minirel

structure HeapFile where
  firstPageId : Nat
  lastPageId : Nat
  deriving DecidableEq, Repr

namespace HeapFile

variable {ε τ : Type}

def headerSize : Nat := 9
def slotSize : Nat := 4

def slotOffset (index : Nat) : Nat := headerSize + index * slotSize

/-! ## Pages -/

/-- The header and the slot directory of a page. -/
def readHeap : Page ε τ → Except PyError (HeapPage τ)
  | .heap page => .ok page
  | .zero => .ok ⟨[], 0, 0⟩
  | _ => .error .foreignPage

def initHeapPage : HeapPage τ := ⟨[], pageSize, invalidPageId⟩

def fetchHeap (pageId : Nat) : PageM ε τ (HeapPage τ) := do
  PageM.lift (readHeap (← fetchPage pageId))

def writeHeap (pageId : Nat) (page : HeapPage τ) : PageM ε τ Unit :=
  putPage pageId (.ok (.heap page))

/-- Write a page back with another next page. An id that does not fit four bytes raises
    before anything is written. -/
def linkPage (pageId : Nat) (page : HeapPage τ) (nextPage : Nat) : PageM ε τ Unit :=
  if nextPage < 2 ^ 32 then writeHeap pageId { page with nextPage } else throw .structError

/-- The live tuples of a page. -/
def live (pageId : Nat) (slots : List (Option τ)) : List (RID × τ) :=
  slots.zipIdx.filterMap fun (slot, i) => slot.map fun t => (⟨pageId, i⟩, t)

/-! ## Opening -/

/-- The loop of `_find_last_page`, for `fuel` pages. -/
def findLastPageFrom : Nat → List Nat → Nat → PageM ε τ Nat
  | 0, _, _ => throw .diverges
  | fuel + 1, seen, pageId => do
    let page ← fetchHeap pageId
    if page.nextPage = invalidPageId then return pageId
    else if page.nextPage ∈ seen then
      throw (.valueError (s!"heap page chain has a cycle at page {page.nextPage} " ++
        "(the data file may be corrupt, or a page was never initialized)"))
    else findLastPageFrom fuel (page.nextPage :: seen) page.nextPage

def findLastPage (firstPageId : Nat) : PageM ε τ Nat := do
  let s ← get
  findLastPageFrom (s.length + 1) [firstPageId] firstPageId

/-- `HeapFile(buffer_pool, first_page_id)`. -/
def openAt (firstPageId : Nat) : PageM ε τ HeapFile :=
  return ⟨firstPageId, ← findLastPage firstPageId⟩

/-- `HeapFile(buffer_pool)`: an empty page of its own. -/
def create : PageM ε τ HeapFile := do
  let pageId ← newPage
  writeHeap pageId initHeapPage
  openAt pageId

/-! ## Tuples -/

/-- `insert` at the last page; a full page is linked to a new one and the insertion
    starts again there. -/
def insertFrom (size : τ → Nat) (row : τ) : Nat → HeapFile → PageM ε τ (RID × HeapFile)
  | 0, _ => throw .diverges
  | fuel + 1, h => do
    let page ← fetchHeap h.lastPageId
    let reuse := page.slots.findIdx? (·.isNone)
    let needed := if reuse.isSome then 0 else slotSize
    if page.freePtr < slotOffset page.slots.length + needed + size row then
      let newPageId ← newPage
      writeHeap newPageId initHeapPage
      linkPage h.lastPageId page newPageId
      insertFrom size row fuel { h with lastPageId := newPageId }
    else
      let freePtr := page.freePtr - size row
      match reuse with
      | some index =>
        writeHeap h.lastPageId { page with slots := page.slots.set index (some row), freePtr }
        return (⟨h.lastPageId, index⟩, h)
      | none =>
        writeHeap h.lastPageId { page with slots := page.slots ++ [some row], freePtr }
        return (⟨h.lastPageId, page.slots.length⟩, h)

def insert (size : τ → Nat) (row : τ) (h : HeapFile) : PageM ε τ (RID × HeapFile) :=
  if headerSize + slotSize + size row > pageSize then
    throw (.valueError (s!"row of {size row} bytes cannot fit in a {pageSize}-byte page " ++
      "(minirel does not support overflow/TOAST-style tuples)"))
  else insertFrom size row 2 h

def get (rid : RID) : PageM ε τ (Option τ) := do
  let page ← fetchHeap rid.pageId
  return (page.slots[rid.slotId]?).join

/-- Overwrite a tuple with one of the same length; tells whether it did. -/
def updateInPlace (size : τ → Nat) (rid : RID) (new : τ) : PageM ε τ Bool := do
  let page ← fetchHeap rid.pageId
  match (page.slots[rid.slotId]?).join with
  | none => return false
  | some old =>
    if size old ≠ size new then return false
    else
      writeHeap rid.pageId { page with slots := page.slots.set rid.slotId (some new) }
      return true

/-- The loop of `scan`, for `fuel` pages. -/
def scanFrom : Nat → Nat → PageM ε τ (List (RID × τ))
  | 0, _ => throw .diverges
  | fuel + 1, pageId => do
    if pageId = invalidPageId then return []
    else
      let page ← fetchHeap pageId
      return live pageId page.slots ++ (← scanFrom fuel page.nextPage)

/-- Every live tuple of the chain, in the order of the chain. -/
def scan (h : HeapFile) : PageM ε τ (List (RID × τ)) := do
  let s ← MonadState.get
  scanFrom (s.length + 1) h.firstPageId

/-! ## What a walk along the chain reads -/

variable {s s' : PageFile ε τ}

/-- The page that stands under an id, read as a heap page. -/
def pageAt (s : PageFile ε τ) (pageId : Nat) : Option (HeapPage τ) :=
  (s[pageId]?).bind fun page => (readHeap page).toOption

theorem pageAt_eq_some {pageId : Nat} {page : HeapPage τ} :
    pageAt s pageId = some page ↔ ∃ raw, s[pageId]? = some raw ∧ readHeap raw = .ok page := by
  simp [pageAt, Option.bind_eq_some_iff, toOption_eq_some]

theorem fetchHeap_eq_ok {pageId : Nat} {page : HeapPage τ} :
    fetchHeap pageId s = .ok page s' ↔ pageAt s pageId = some page ∧ s' = s := by
  rw [pageAt_eq_some]
  constructor
  · intro h
    obtain ⟨raw, s₁, hfetch, hlift⟩ := run_bind_eq_ok.mp h
    obtain ⟨hraw, rfl⟩ := fetchPage_eq_ok.mp hfetch
    obtain ⟨hread, rfl⟩ := PageM.lift_eq_ok.mp hlift
    exact ⟨⟨raw, hraw, hread⟩, rfl⟩
  · rintro ⟨⟨raw, hraw, hread⟩, rfl⟩
    exact (run_bind_ok (fetchPage_eq hraw)).trans (PageM.lift_eq_ok.mpr ⟨hread, rfl⟩)

theorem fetchHeap_eq {pageId : Nat} {page : HeapPage τ} (h : pageAt s pageId = some page) :
    fetchHeap pageId s = .ok page s := fetchHeap_eq_ok.mpr ⟨h, rfl⟩

/-- The chain from a page on: its page ids with what the pages hold, up to the id
    that ends it. -/
def Chain (s : PageFile ε τ) : Nat → List (Nat × HeapPage τ) → Prop
  | first, [] => first = invalidPageId
  | first, (p, page) :: rest =>
    first = p ∧ p ≠ invalidPageId ∧ pageAt s p = some page ∧ Chain s page.nextPage rest

/-- The live tuples of a chain. -/
def tuples (chain : List (Nat × HeapPage τ)) : List (RID × τ) :=
  chain.flatMap fun (p, page) => live p page.slots

theorem chain_iff_trail {first : Nat} {chain : List (Nat × HeapPage τ)} :
    Chain s first chain ↔ Trail (pageAt s) (·.nextPage) invalidPageId first chain := by
  induction chain generalizing first with
  | nil => exact Iff.rfl
  | cons x chain ih => simp only [Chain, Trail, ih]

theorem Chain.unique {first : Nat} {chain chain' : List (Nat × HeapPage τ)}
    (h : Chain s first chain) (h' : Chain s first chain') : chain = chain' :=
  (chain_iff_trail.mp h).unique (chain_iff_trail.mp h')

theorem Chain.of_mem {first p : Nat} {page : HeapPage τ} {chain : List (Nat × HeapPage τ)}
    (h : Chain s first chain) (hp : (p, page) ∈ chain) :
    p ≠ invalidPageId ∧ pageAt s p = some page :=
  (chain_iff_trail.mp h).of_mem hp

/-- What is left of a chain from one of its pages on. -/
theorem Chain.suffix {first p : Nat} {page : HeapPage τ}
    {before after : List (Nat × HeapPage τ)} (h : Chain s first (before ++ (p, page) :: after)) :
    Chain s p ((p, page) :: after) :=
  chain_iff_trail.mpr (chain_iff_trail.mp h).suffix

/-- A chain that ends visits no page twice. -/
theorem Chain.nodup {first : Nat} {chain : List (Nat × HeapPage τ)} (h : Chain s first chain) :
    (chain.map (·.1)).Nodup :=
  (chain_iff_trail.mp h).nodup

theorem mem_live {pageId : Nat} {slots : List (Option τ)} {x : RID × τ} :
    x ∈ live pageId slots ↔ x.1.pageId = pageId ∧ slots[x.1.slotId]? = some (some x.2) := by
  obtain ⟨⟨p, i⟩, t⟩ := x
  unfold live
  rw [List.mem_filterMap]
  constructor
  · rintro ⟨⟨slot, j⟩, hmem, heq⟩
    obtain ⟨t', rfl, heq⟩ := Option.map_eq_some_iff.mp heq
    cases heq
    exact ⟨rfl, List.mem_zipIdx_iff_getElem?.mp hmem⟩
  · rintro ⟨rfl, hslot⟩
    exact ⟨(some t, i), List.mem_zipIdx_iff_getElem?.mpr hslot, rfl⟩

theorem nodup_live (pageId : Nat) (slots : List (Option τ)) :
    ((live pageId slots).map (·.1)).Nodup := by
  have hidx : slots.zipIdx.Pairwise fun a b => a.2 ≠ b.2 := by
    rw [← List.pairwise_map (f := Prod.snd) (R := (· ≠ ·)), List.zipIdx_map_snd]
    exact List.nodup_range'
  unfold live
  rw [List.map_filterMap, List.Nodup, List.pairwise_filterMap]
  refine hidx.imp fun {a b} hne rid hrid rid' hrid' heq => ?_
  obtain ⟨x, hx, rfl⟩ := Option.map_eq_some_iff.mp hrid
  obtain ⟨y, hy, rfl⟩ := Option.map_eq_some_iff.mp hrid'
  obtain ⟨_, _, rfl⟩ := Option.map_eq_some_iff.mp hx
  obtain ⟨_, _, rfl⟩ := Option.map_eq_some_iff.mp hy
  exact hne (RID.mk.inj heq).2

theorem mem_tuples {chain : List (Nat × HeapPage τ)} {x : RID × τ} :
    x ∈ tuples chain ↔
      ∃ page, (x.1.pageId, page) ∈ chain ∧ page.slots[x.1.slotId]? = some (some x.2) := by
  simp only [tuples, List.mem_flatMap, mem_live]
  constructor
  · rintro ⟨⟨p, page⟩, hmem, rfl, hslot⟩
    exact ⟨page, hmem, hslot⟩
  · rintro ⟨page, hmem, hslot⟩
    exact ⟨_, hmem, rfl, hslot⟩

theorem Chain.nodup_tuples {first : Nat} {chain : List (Nat × HeapPage τ)}
    (h : Chain s first chain) : ((tuples chain).map (·.1)).Nodup := by
  have hpages := h.nodup
  rw [List.Nodup, List.pairwise_map] at hpages
  rw [tuples, List.map_flatMap, List.nodup_flatMap]
  refine ⟨fun x _ => nodup_live x.1 x.2.slots, hpages.imp fun {x y} hne => ?_⟩
  intro rid hx hy
  obtain ⟨a, ha, rfl⟩ := List.mem_map.mp hx
  obtain ⟨b, hb, heq⟩ := List.mem_map.mp hy
  exact hne ((mem_live.mp ha).1.symm.trans (heq ▸ (mem_live.mp hb).1))

/-- What `get` reads is what the chain has there. -/
theorem get_of_mem {first : Nat} {chain : List (Nat × HeapPage τ)} {x : RID × τ}
    (h : Chain s first chain) (hx : x ∈ tuples chain) : get x.1 s = .ok (some x.2) s := by
  obtain ⟨page, hmem, hslot⟩ := mem_tuples.mp hx
  rw [get, run_bind_ok (fetchHeap_eq (h.of_mem hmem).2)]
  simp [hslot]

theorem scanFrom_eq_ok {fuel first : Nat} {l : List (RID × τ)} :
    scanFrom fuel first s = .ok l s' ↔
      s' = s ∧ ∃ chain, Chain s first chain ∧ chain.length < fuel ∧ l = tuples chain := by
  induction fuel generalizing first l with
  | zero => simp [scanFrom]
  | succ fuel ih =>
    unfold scanFrom
    by_cases hfirst : first = invalidPageId
    · rw [if_pos hfirst]
      constructor
      · intro h
        cases h
        exact ⟨rfl, [], hfirst, Nat.succ_pos _, rfl⟩
      · rintro ⟨rfl, chain, hchain, -, rfl⟩
        have hnil : Chain s' first [] := hfirst
        obtain rfl := hchain.unique hnil
        rfl
    · rw [if_neg hfirst]
      constructor
      · intro h
        obtain ⟨page, s₁, hfetch, h₁⟩ := run_bind_eq_ok.mp h
        obtain ⟨hpage, rfl⟩ := fetchHeap_eq_ok.mp hfetch
        obtain ⟨rest, s₂, hrest, h₂⟩ := run_bind_eq_ok.mp h₁
        cases h₂
        obtain ⟨rfl, chain, hchain, hlen, rfl⟩ := ih.mp hrest
        exact ⟨rfl, (first, page) :: chain, ⟨rfl, hfirst, hpage, hchain⟩, by simpa using hlen, rfl⟩
      · rintro ⟨rfl, chain, hchain, hlen, rfl⟩
        cases chain with
        | nil => exact absurd hchain hfirst
        | cons x chain =>
          obtain ⟨rfl, -, hpage, hrest⟩ := hchain
          rw [run_bind_ok (fetchHeap_eq hpage),
            run_bind_ok (ih.mpr ⟨rfl, chain, hrest, by simpa using hlen, rfl⟩)]
          rfl

theorem scan_eq_ok {h : HeapFile} {l : List (RID × τ)} :
    h.scan s = .ok l s' ↔
      s' = s ∧ ∃ chain, Chain s h.firstPageId chain ∧ l = tuples chain := by
  have hlen : ∀ chain, Chain s h.firstPageId chain → chain.length < s.length + 1 := by
    intro chain hchain
    have hsub : chain.map (·.1) ⊆ List.range s.length := by
      intro p hp
      obtain ⟨x, hx, rfl⟩ := List.mem_map.mp hp
      obtain ⟨raw, hraw, -⟩ := pageAt_eq_some.mp (hchain.of_mem hx).2
      exact List.mem_range.mpr (List.getElem?_eq_some_iff.mp hraw).1
    have hle := (hchain.nodup.subperm hsub).length_le
    simp only [List.length_map, List.length_range] at hle
    omega
  change scanFrom (s.length + 1) h.firstPageId s = _ ↔ _
  rw [scanFrom_eq_ok]
  constructor
  · rintro ⟨rfl, chain, hchain, -, rfl⟩
    exact ⟨rfl, chain, hchain, rfl⟩
  · rintro ⟨rfl, chain, hchain, rfl⟩
    exact ⟨rfl, chain, hchain, hlen chain hchain, rfl⟩

theorem findLastPageFrom_eq_ok {fuel first last : Nat} {seen : List Nat}
    (h : findLastPageFrom fuel seen first s = .ok last s') : s' = s := by
  induction fuel generalizing first seen with
  | zero => cases h
  | succ fuel ih =>
    unfold findLastPageFrom at h
    obtain ⟨page, s₁, hfetch, hrest⟩ := run_bind_eq_ok.mp h
    obtain ⟨-, rfl⟩ := fetchHeap_eq_ok.mp hfetch
    split at hrest
    · cases hrest
      rfl
    · split at hrest
      · cases hrest
      · exact ih hrest

/-- Opening a heap reads only. -/
theorem openAt_eq_ok {first : Nat} {h : HeapFile} (hopen : openAt first s = .ok h s') :
    s' = s ∧ h.firstPageId = first := by
  obtain ⟨last, s₁, hlast, hpure⟩ := run_bind_eq_ok.mp hopen
  cases hpure
  exact ⟨findLastPageFrom_eq_ok hlast, rfl⟩

/-! ## What reads only, and what lets the file grow -/

theorem reads_fetchHeap (pageId : Nat) : Reads (fetchHeap pageId : PageM ε τ (HeapPage τ)) :=
  .bind (.fetchPage _) fun _ => .lift _

theorem reads_get (rid : RID) : Reads (get rid : PageM ε τ (Option τ)) :=
  .bind (reads_fetchHeap _) fun _ => .pure _

theorem reads_findLastPageFrom (fuel : Nat) (seen : List Nat) (pageId : Nat) :
    Reads (findLastPageFrom fuel seen pageId : PageM ε τ Nat) := by
  induction fuel generalizing seen pageId with
  | zero => exact .throw _
  | succ fuel ih =>
    refine .bind (reads_fetchHeap _) fun page => ?_
    split
    · exact .pure _
    · split
      · exact .throw _
      · exact ih _ _

theorem reads_openAt (firstPageId : Nat) : Reads (openAt firstPageId : PageM ε τ HeapFile) :=
  .bind (.bind .get fun _ => reads_findLastPageFrom _ _ _) fun _ => .pure _

theorem reads_scanFrom (fuel pageId : Nat) :
    Reads (scanFrom fuel pageId : PageM ε τ (List (RID × τ))) := by
  induction fuel generalizing pageId with
  | zero => exact .throw _
  | succ fuel ih =>
    unfold scanFrom
    split
    · exact .pure _
    · exact .bind (reads_fetchHeap _) fun _ => .bind (ih _) fun _ => .pure _

theorem reads_scan (h : HeapFile) : Reads (h.scan : PageM ε τ (List (RID × τ))) :=
  .bind .get fun _ => reads_scanFrom _ _

theorem extends_insertFrom (size : τ → Nat) (row : τ) (fuel : Nat) (h : HeapFile) :
    Extends (insertFrom size row fuel h : PageM ε τ (RID × HeapFile)) := by
  induction fuel generalizing h with
  | zero => exact .throw _
  | succ fuel ih =>
    refine .bind (reads_fetchHeap _).extends fun page => ?_
    dsimp only
    generalize (if (page.slots.findIdx? (·.isNone)).isSome then 0 else slotSize) = needed
    split
    · refine .bind .newPage fun _ => .bind (.putPage _ _) fun _ => .bind ?_ fun _ => ih _
      unfold linkPage
      split
      · exact .putPage _ _
      · exact .throw _
    · split
      · exact .bind (.putPage _ _) fun _ => .pure _
      · exact .bind (.putPage _ _) fun _ => .pure _

theorem extends_insert (size : τ → Nat) (row : τ) (h : HeapFile) :
    Extends (insert size row h : PageM ε τ (RID × HeapFile)) := by
  unfold HeapFile.insert
  split
  · exact .throw _
  · exact extends_insertFrom _ _ _ _

theorem extends_updateInPlace (size : τ → Nat) (rid : RID) (new : τ) :
    Extends (updateInPlace size rid new : PageM ε τ Bool) := by
  refine .bind (reads_fetchHeap _).extends fun page => ?_
  split
  · exact .pure _
  · split
    · exact .pure _
    · exact .bind (.putPage _ _) fun _ => .pure _

theorem extends_create : Extends (create : PageM ε τ HeapFile) :=
  .bind .newPage fun _ => .bind (.putPage _ _) fun _ => (reads_openAt _).extends

end HeapFile
end Minirel
