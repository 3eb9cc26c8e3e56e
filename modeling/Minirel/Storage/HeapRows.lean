-- SUMMARY: The heap file as a map from RIDs to rows, over every run of its operations.
import Minirel.Storage.Resting
import Minirel.Storage.SlottedPage

/-!
# The rows of a heap file

The operations of a heap file on the bytes of its pages, each by a client that holds no page
between them. What was last stored under a RID is what `get` returns, and a scan yields every
row once, in the order of the RIDs.
-/

namespace Minirel

open BufferPool Encoding

namespace RawHeap

/-! ## The operations -/

def get (rid : RID) : PoolM Bytes (Option Bytes) := do
  let data ← BufferPool.fetchPage rid.pageId
  andFinally (PoolM.lift (readRow data rid.slotId)) (unpinPage rid.pageId false)

def updateInPlace (rid : RID) (new : Bytes) : PoolM Bytes Bool := do
  let _ ← BufferPool.fetchPage rid.pageId
  andFinally (edit rid.pageId (updateRow rid.slotId new)) (unpinPage rid.pageId true)

def delete (rid : RID) : PoolM Bytes Bool := do
  let _ ← BufferPool.fetchPage rid.pageId
  andFinally (edit rid.pageId (deleteRow rid.slotId)) (unpinPage rid.pageId true)

/-- The page that a heap file starts with. -/
def newHeapPage : PoolM Bytes Nat := do
  let (pageId, _) ← BufferPool.newPage zeros
  edit pageId initHeapPage
  unpinPage pageId true
  return pageId

/-- `HeapFile(buffer_pool)`: an empty page of its own. -/
def create (fuel : Nat) : PoolM Bytes HeapFile := do openAt (← newHeapPage) fuel

/-! ## No operation loses a frame -/

theorem keeps_get (rid : RID) : KeepsFrames (get rid) :=
  (keeps_fetchPage _).bind fun _ => (keeps_lift _).andFinally (keeps_unpinPage _ _)

theorem keeps_heldEdit {α : Type} (p : Nat) (m : BytesM α) :
    KeepsFrames (do let _ ← BufferPool.fetchPage p; andFinally (edit p m) (unpinPage p true) : PoolM Bytes α) :=
  (keeps_fetchPage p).bind fun _ => (keeps_edit p m).andFinally (keeps_unpinPage p true)

theorem keeps_insertFrom (row : Bytes) (fuel : Nat) (heap : HeapFile) : KeepsFrames (insertFrom row fuel heap) := by
  induction fuel generalizing heap with
  | zero => exact keeps_throw _
  | succ fuel ih =>
    rw [insertFrom]
    split
    · exact keeps_throw _
    refine (keeps_fetchPage _).bind fun data => KeepsFrames.andFinally ?_ (keeps_unpinPage _ _)
    refine (keeps_lift _).bind fun header => (keeps_lift _).bind fun reuse => ?_
    split
    · exact (keeps_newPage _).bind fun _ => (keeps_edit _ _).bind fun _ => (keeps_unpinPage _ _).bind fun _ =>
        (keeps_edit _ _).bind fun _ => (keeps_unpinPage _ _).bind fun _ => ih _
    · exact (keeps_edit _ _).bind fun _ => keeps_pure _

theorem keeps_findLastPageFrom (fuel : Nat) (seen : List Nat) (p : Nat) :
    KeepsFrames (findLastPageFrom fuel seen p) := by
  induction fuel generalizing seen p with
  | zero => exact keeps_throw _
  | succ fuel ih =>
    refine (keeps_visit p readHeader).bind fun header => ?_
    split
    · exact keeps_pure _
    · split
      · exact keeps_throw _
      · exact ih _ _

theorem keeps_openAt (first fuel : Nat) : KeepsFrames (openAt first fuel) :=
  (keeps_findLastPageFrom fuel _ first).bind fun _ => keeps_pure _

theorem keeps_newHeapPage : KeepsFrames newHeapPage :=
  (keeps_newPage _).bind fun _ => (keeps_edit _ _).bind fun _ =>
    (keeps_unpinPage _ _).bind fun _ => keeps_pure _

theorem keeps_scanFrom (fuel p : Nat) : KeepsFrames (scanFrom fuel p) := by
  induction fuel generalizing p with
  | zero => exact keeps_throw _
  | succ fuel ih =>
    unfold scanFrom
    split
    · exact keeps_pure _
    · exact (keeps_visit p _).bind fun _ => (ih _).bind fun _ => keeps_pure _

/-! ## The operations on a pool at rest -/

section
variable {pool pool' : BufferPool Bytes} {logical : List Bytes} {data data' : Bytes} {n p : Nat}

theorem wp_fetch_resting (h : Rests n pool logical) (hn : 1 ≤ n) (hdata : logical[p]? = some data) :
    wp (BufferPool.fetchPage p)
      (fun data' pool' => data' = data ∧
        Sound pool' (Function.update (fun _ => 0) p (0 + 1)) (fun _ => False) logical ∧
        ∃ i, pool'.frameOf p = some i)
      (fun _ _ => False) pool := by
  refine (wp_fetchPage h.sound p).mono ?_ ?_
  · rintro data' pool₁ ⟨h₁, hdata', hi, -⟩
    exact ⟨Option.some.inj (hdata'.symm.trans hdata), h₁, hi⟩
  · rintro e pool₁ ⟨-, hnone | hfull⟩
    · cases hnone.symm.trans hdata
    · exact hfull (.inr (h.not_full hn))

/-- A page is fetched, changed and released. -/
theorem wp_heldEdit {α : Type} {m : BytesM α} {a : α} (h : Rests n pool logical) (hn : 1 ≤ n)
    (hdata : logical[p]? = some data) (hm : m data = .ok a data') :
    wp (do let _ ← BufferPool.fetchPage p; andFinally (edit p m) (unpinPage p true) : PoolM Bytes α)
      (fun x pool' => x = a ∧ Rests n pool' (logical.set p data')) (fun _ _ => False) pool := by
  have hsound : wp (do let _ ← BufferPool.fetchPage p; andFinally (edit p m) (unpinPage p true) : PoolM Bytes α)
      (fun x pool' => x = a ∧ Sound pool' (fun _ => 0) (fun _ => False) (logical.set p data'))
      (fun _ _ => False) pool := by
    refine wp_bind.mpr ((wp_fetch_resting h hn hdata).mono ?_ fun _ _ he => he)
    rintro _ pool₁ ⟨rfl, h₁, i, hi⟩
    rw [wp_andFinally]
    refine (wp_edit h₁ hi (pinned_of_taken (fun _ => 0) p) hdata m).mono ?_ ?_
    · rintro x pool₂ ⟨data₂, hm₂, h₂, -⟩
      cases hm.symm.trans hm₂
      refine (h₂.unpin (fun _ hq => hq.elim) (fun q hq => (or_iff_left hq).symm) fun _ => .inr rfl).mono ?_
        fun _ _ he => he
      rintro ⟨⟩ pool₃ ⟨h₃, -⟩
      exact ⟨rfl, h₃⟩
    · rintro e pool₂ ⟨data₂, herr, -⟩
      cases hm.symm.trans herr
  exact h.wp_keeps (keeps_heldEdit p m) hsound

/-- A page is visited. -/
theorem wp_visit_resting {α : Type} {read : Bytes → Except PyError α} {a : α} (h : Rests n pool logical)
    (hn : 1 ≤ n) (hdata : logical[p]? = some data) (hread : read data = .ok a) :
    wp (visit p read) (fun x pool' => x = a ∧ Rests n pool' logical) (fun _ _ => False) pool := by
  have hsound : wp (visit p read) (fun x pool' => x = a ∧ Sound pool' (fun _ => 0) (fun _ => False) logical)
      (fun _ _ => False) pool := by
    refine wp_bind.mpr ((wp_fetch_resting h hn hdata).mono ?_ fun _ _ he => he)
    rintro _ pool₁ ⟨rfl, h₁, -⟩
    refine wp_bind.mpr (PoolM.wp_lift (fun x hx => wp_bind.mpr ?_) fun e herr => ?_)
    · cases hread.symm.trans hx
      refine (h₁.unpin (fun _ hq => hq.elim) (fun _ _ => Iff.rfl) .inl).mono ?_ fun _ _ he => he
      rintro ⟨⟩ pool₂ ⟨h₂, -⟩
      exact ⟨rfl, h₂⟩
    · cases hread.symm.trans herr
  exact h.wp_keeps (keeps_visit p read) hsound

theorem wp_get_resting {next : Nat} {rid : RID} {rows : Nat → Option Bytes} (h : Rests n pool logical)
    (hn : 1 ≤ n) (hdata : logical[rid.pageId]? = some data) (hcarries : Carries data next rows) :
    wp (get rid) (fun row pool' => row = rows rid.slotId ∧ Rests n pool' logical) (fun _ _ => False) pool := by
  have hsound : wp (get rid) (fun row pool' => row = rows rid.slotId ∧
      Sound pool' (fun _ => 0) (fun _ => False) logical) (fun _ _ => False) pool := by
    refine wp_bind.mpr ((wp_fetch_resting h hn hdata).mono ?_ fun _ _ he => he)
    rintro _ pool₁ ⟨rfl, h₁, -⟩
    rw [wp_andFinally, hcarries.readRow_eq]
    refine (h₁.unpin (fun _ hq => hq.elim) (fun _ _ => Iff.rfl) .inl).mono ?_ fun _ _ he => he
    rintro ⟨⟩ pool₂ ⟨h₂, -⟩
    exact ⟨rfl, h₂⟩
  exact h.wp_keeps (keeps_get rid) hsound

/-- `insert` returns with the row in its place, or refuses it for its length. -/
theorem wp_insert_resting {heap : HeapFile} {next : Nat} {rows : Nat → Option Bytes} (h : Rests n pool logical)
    (hn : 1 ≤ n) (hdata : logical[heap.lastPageId]? = some data) (hcarries : Carries data next rows)
    (hnext : next < 2 ^ 32) (row : Bytes) (hpage : NoRoom data row → 2 ≤ n ∧ logical.length < 2 ^ 32) :
    wp (insert row heap)
      (fun x pool' => ¬Oversized row ∧
        ∃ logical', Rests n pool' logical' ∧ Inserted row heap logical x logical')
      (fun _ pool' => Oversized row ∧ pool' = pool) pool := by
  by_cases hrow : Oversized row
  · rw [insert, insertFrom, if_pos hrow]
    exact ⟨hrow, rfl⟩
  have hhindered : ¬Hindered row heap pool logical := by
    intro hhindered
    cases hhindered with
    | unfetched hnone =>
      rcases hnone with hnone | hfull
      · cases hnone.symm.trans hdata
      · exact hfull (.inr (h.not_full hn))
    | garbled hdata' hfails =>
      obtain rfl := Option.some.inj (hdata.symm.trans hdata')
      obtain ⟨header, reuse, hheader, hreuse, -, hput, -⟩ := hcarries.insert hnext
      obtain ⟨hroom, e, data₁, herr⟩ := hfails header reuse hheader hreuse
      obtain ⟨data₂, hok, -⟩ := hput row hroom
      cases herr.symm.trans hok
    | noPage hdata' hroom hfetch hcause =>
      obtain rfl := Option.some.inj (hdata.symm.trans hdata')
      obtain ⟨htwo, hid⟩ := hpage hroom
      rcases hcause with hfull | hlarge
      · exact h.room htwo hfetch hfull
      · exact absurd hid (not_lt.mpr hlarge)
  have hkeeps := keeps_insertFrom row 2 heap
  refine ((wp_insertFrom h.sound row heap 0).and ((hkeeps.kept pool h.kept).and (hkeeps.grows pool))).mono ?_ ?_
  · rintro x pool' ⟨⟨pins', changed', logical', h', hinserted, hpins⟩, hkept, hgrown⟩
    have hnone : pins' = fun _ => 0 := by
      rcases hpins with ⟨-, rfl⟩ | ⟨-, rfl⟩
      · rfl
      · exact Function.update_eq_self _ _
    exact ⟨hrow, logical', h.of_sound hkept hgrown (hnone ▸ h'), hinserted⟩
  · rintro e pool' ⟨hrefused, -⟩
    exact absurd (hrefused.hindered hrow) hhindered

end

/-! ## The pages of a heap file -/

/-- The first RID comes before the second one. -/
def Before (x y : RID) : Prop := x.pageId < y.pageId ∨ x.pageId = y.pageId ∧ x.slotId < y.slotId

/-- The page that these pages start with, or the id that means "no page". -/
def headPage (pages : List Nat) : Nat := pages.head?.getD invalidPageId

/-- Each of the pages carries its rows and is linked to the next one. -/
def Linked (logical : List Bytes) (stored : RID → Option Bytes) : List Nat → Prop
  | [] => True
  | p :: rest => p < invalidPageId ∧
      (∃ data, logical[p]? = some data ∧ Carries data (headPage rest) fun i => stored ⟨p, i⟩) ∧
      Linked logical stored rest

/-- The pages of a heap file and the rows on them. -/
structure Laid (logical : List Bytes) (heap : HeapFile) (pages : List Nat) (stored : RID → Option Bytes) :
    Prop where
  first : pages.head? = some heap.firstPageId
  last : pages.getLast? = some heap.lastPageId
  increasing : pages.Pairwise (· < ·)
  linked : Linked logical stored pages
  elsewhere : ∀ rid, rid.pageId ∉ pages → stored rid = none

section
variable {logical logical' : List Bytes} {data data' row : Bytes} {p q i : Nat}
  {stored stored' : RID → Option Bytes} {pages : List Nat} {heap : HeapFile} {x : Option Bytes}

theorem Linked.of_mem (h : Linked logical stored pages) (hp : p ∈ pages) :
    p < invalidPageId ∧ ∃ data next, logical[p]? = some data ∧ next < 2 ^ 32 ∧
      Carries data next fun i => stored ⟨p, i⟩ := by
  induction pages with
  | nil => cases hp
  | cons q rest ih =>
    obtain ⟨hq, ⟨data, hdata, hcarries⟩, hrest⟩ := h
    rcases List.mem_cons.mp hp with rfl | hp
    · refine ⟨hq, data, _, hdata, ?_, hcarries⟩
      cases rest with
      | nil => decide
      | cons next rest => exact hrest.1.trans (by decide)
    · exact ih hrest hp

/-- Pages that are as before, with their rows. -/
theorem Linked.congr (h : Linked logical stored pages) (hsame : ∀ p ∈ pages, logical'[p]? = logical[p]?)
    (hstored : ∀ p ∈ pages, ∀ i, stored' ⟨p, i⟩ = stored ⟨p, i⟩) : Linked logical' stored' pages := by
  induction pages with
  | nil => trivial
  | cons p rest ih =>
    obtain ⟨hp, ⟨data, hdata, hcarries⟩, hrest⟩ := h
    refine ⟨hp, ⟨data, (hsame p List.mem_cons_self).trans hdata, ?_⟩,
      ih hrest (fun q hq => hsame q (List.mem_cons_of_mem p hq)) fun q hq => ?_⟩
    case refine_2 => exact hstored q (List.mem_cons_of_mem p hq)
    rwa [funext (hstored p List.mem_cons_self)]

theorem update_rid (stored : RID → Option Bytes) (p i : Nat) (x : Option Bytes) :
    (fun j => Function.update stored ⟨p, i⟩ x ⟨p, j⟩) = Function.update (fun j => stored ⟨p, j⟩) i x := by
  funext j
  by_cases hj : j = i
  · rw [hj, Function.update_self, Function.update_self]
  · rw [Function.update_of_ne hj, Function.update_of_ne fun heq => hj (RID.mk.inj heq).2]

theorem update_rid_of_ne (hq : q ≠ p) (j : Nat) : Function.update stored ⟨p, i⟩ x ⟨q, j⟩ = stored ⟨q, j⟩ :=
  Function.update_of_ne (fun heq => hq (RID.mk.inj heq).1) _ _

/-- One of the pages is written, and keeps its link. -/
theorem Linked.write (h : Linked logical stored pages) (hincreasing : pages.Pairwise (· < ·)) (hp : p ∈ pages)
    (hwrite : ∀ data next, logical[p]? = some data → Carries data next (fun i => stored ⟨p, i⟩) →
      Carries data' next fun i => stored' ⟨p, i⟩)
    (hother : ∀ q, q ≠ p → ∀ i, stored' ⟨q, i⟩ = stored ⟨q, i⟩) :
    Linked (logical.set p data') stored' pages := by
  induction pages with
  | nil => cases hp
  | cons q rest ih =>
    obtain ⟨hq, ⟨data, hdata, hcarries⟩, hrest⟩ := h
    obtain ⟨hlt, hincreasing⟩ := List.pairwise_cons.mp hincreasing
    by_cases heq : q = p
    · subst heq
      have hset : (logical.set q data')[q]? = some data' :=
        List.getElem?_set_self (List.getElem?_eq_some_iff.mp hdata).1
      refine ⟨hq, ⟨data', hset, hwrite _ _ hdata hcarries⟩, ?_⟩
      exact hrest.congr (fun r hr => List.getElem?_set_ne (hlt r hr).ne) fun r hr => hother r (hlt r hr).ne'
    · refine ⟨hq, ⟨data, (List.getElem?_set_ne (Ne.symm heq)).trans hdata, ?_⟩,
        ih hrest hincreasing ((List.mem_cons.mp hp).resolve_left (Ne.symm heq))⟩
      rwa [funext (hother q heq)]

/-- The last page is linked to a new one. -/
theorem Linked.extend {linked placed : Bytes} (h : Linked logical stored pages)
    (hincreasing : pages.Pairwise (· < ·)) (hlast : pages.getLast? = some p)
    (hnew : logical.length < invalidPageId)
    (hlink : ∀ data next, logical[p]? = some data → Carries data next (fun i => stored ⟨p, i⟩) →
      Carries linked logical.length fun i => stored ⟨p, i⟩)
    (hplaced : Carries placed invalidPageId fun i => stored' ⟨logical.length, i⟩)
    (hother : ∀ q, q ≠ logical.length → ∀ i, stored' ⟨q, i⟩ = stored ⟨q, i⟩) :
    Linked (logical.set p linked ++ [placed]) stored' (pages ++ [logical.length]) := by
  induction pages with
  | nil => cases hlast
  | cons q rest ih =>
    obtain ⟨hq, ⟨data, hdata, hcarries⟩, hrest⟩ := h
    obtain ⟨hlt, hincreasing⟩ := List.pairwise_cons.mp hincreasing
    have hlength : q < logical.length := (List.getElem?_eq_some_iff.mp hdata).1
    have hlength' : q < (logical.set p linked).length := List.length_set.symm ▸ hlength
    have hrows := funext (hother q hlength.ne)
    cases rest with
    | nil =>
      obtain rfl : q = p := Option.some.inj hlast
      refine ⟨hq, ⟨linked, ?_, ?_⟩, hnew, ⟨placed, ?_, hplaced⟩, trivial⟩
      · rw [List.getElem?_append_left hlength', List.getElem?_set_self hlength]
      · rw [hrows]
        exact hlink data _ hdata hcarries
      · rw [List.getElem?_append_right List.length_set.le, List.length_set, Nat.sub_self]
        rfl
    | cons r rest =>
      have hlast' : (r :: rest).getLast? = some p := hlast
      have hne : q ≠ p := (hlt p (List.mem_of_getLast? hlast')).ne
      refine ⟨hq, ⟨data, ?_, ?_⟩, ih hrest hincreasing hlast'⟩
      · rw [List.getElem?_append_left hlength', List.getElem?_set_ne hne.symm, hdata]
      · rw [hrows]
        exact hcarries

theorem Laid.of_mem (h : Laid logical heap pages stored) (hp : p ∈ pages) :
    p < invalidPageId ∧ ∃ data next, logical[p]? = some data ∧ next < 2 ^ 32 ∧
      Carries data next fun i => stored ⟨p, i⟩ := h.linked.of_mem hp

theorem Laid.last_mem (h : Laid logical heap pages stored) : heap.lastPageId ∈ pages :=
  List.mem_of_getLast? h.last

/-- A row is written or taken away on one of the pages. -/
theorem Laid.write (h : Laid logical heap pages stored) {rid : RID} (hp : rid.pageId ∈ pages)
    (hwrite : ∀ data next, logical[rid.pageId]? = some data →
      Carries data next (fun i => stored ⟨rid.pageId, i⟩) →
      Carries data' next (Function.update (fun i => stored ⟨rid.pageId, i⟩) rid.slotId x)) :
    Laid (logical.set rid.pageId data') heap pages (Function.update stored rid x) where
  first := h.first
  last := h.last
  increasing := h.increasing
  linked := by
    refine h.linked.write h.increasing hp (fun data next hdata hcarries => ?_)
      fun q hq i => update_rid_of_ne hq i
    rw [update_rid]
    exact hwrite data next hdata hcarries
  elsewhere rid' hrid' := by
    have hne : rid' ≠ rid := fun heq => hrid' (heq ▸ hp)
    rw [Function.update_of_ne hne]
    exact h.elsewhere rid' hrid'

/-- A new page has no row of the heap file. -/
theorem Laid.new_page (h : Laid logical heap pages stored) : logical.length ∉ pages := fun hp => by
  obtain ⟨-, data, next, hdata, -⟩ := h.of_mem hp
  exact lt_irrefl _ (List.getElem?_eq_some_iff.mp hdata).1

/-- The pages after `insert` has returned with this handle. -/
def pagesAfter (pages : List Nat) (heap : HeapFile) : List Nat :=
  if heap.lastPageId ∈ pages then pages else pages ++ [heap.lastPageId]

theorem Inserted.mem_pagesAfter {x : RID × HeapFile} (h : Inserted row heap logical x logical') :
    x.1.pageId ∈ pagesAfter pages x.2 := by
  have hpage : x.1.pageId = x.2.lastPageId := by
    cases h with
    | inPlace => rfl
    | spilled => rfl
  rw [pagesAfter, hpage]
  split
  · assumption
  · exact List.mem_append_right _ (List.mem_singleton_self _)

/-- The row goes under a RID that had none. -/
theorem Laid.fresh {x : RID × HeapFile} (h : Laid logical heap pages stored)
    (hinserted : Inserted row heap logical x logical') : stored x.1 = none := by
  obtain ⟨-, data, next, hdata, hnext, hcarries⟩ := h.of_mem h.last_mem
  obtain ⟨header, reuse, hheader, hreuse, hnone, -⟩ := hcarries.insert hnext
  cases hinserted with
  | inPlace hdata₁ hheader₁ hreuse₁ =>
    obtain rfl := Option.some.inj (hdata.symm.trans hdata₁)
    obtain rfl := Except.ok.inj (hheader.symm.trans hheader₁)
    obtain rfl := Except.ok.inj (hreuse.symm.trans hreuse₁)
    exact hnone
  | spilled => exact h.elsewhere _ h.new_page

/-- The row is under its RID, and all others are where they were. -/
theorem Laid.insert {x : RID × HeapFile} (h : Laid logical heap pages stored) (hrow : ¬Oversized row)
    (hinserted : Inserted row heap logical x logical') (hlength : logical'.length ≤ invalidPageId) :
    Laid logical' x.2 (pagesAfter pages x.2) (Function.update stored x.1 (some row)) := by
  obtain ⟨-, data, next, hdata, hnext, hcarries⟩ := h.of_mem h.last_mem
  obtain ⟨header, reuse, hheader, hreuse, -, hput, hlink⟩ := hcarries.insert hnext
  cases hinserted with
  | inPlace hdata₁ hheader₁ hreuse₁ hroom hput₁ =>
    obtain rfl := Option.some.inj (hdata.symm.trans hdata₁)
    obtain rfl := Except.ok.inj (hheader.symm.trans hheader₁)
    obtain rfl := Except.ok.inj (hreuse.symm.trans hreuse₁)
    have hpages : pagesAfter pages heap = pages := if_pos h.last_mem
    rw [hpages]
    refine @Laid.write logical _ stored pages heap (some row) h ⟨heap.lastPageId, reuse.getD header.numSlots⟩
      h.last_mem fun data₂ next₁ hdata₂ hcarries₁ => ?_
    obtain rfl := Option.some.inj (hdata.symm.trans hdata₂)
    obtain rfl := hcarries.nextPage_eq.symm.trans hcarries₁.nextPage_eq
    obtain ⟨data', hput₂, hcarries'⟩ := hput row hroom
    cases hput₁.symm.trans hput₂
    exact hcarries'
  | spilled hdata₁ hheader₁ hlink₁ hput₁ =>
    rename_i data₁ linked placed header₁
    obtain rfl := Option.some.inj (hdata.symm.trans hdata₁)
    obtain rfl := Except.ok.inj (hheader.symm.trans hheader₁)
    have hnew : logical.length < invalidPageId := by
      rw [List.length_append, List.length_set] at hlength
      exact hlength
    have hfresh : ∀ i, stored ⟨logical.length, i⟩ = none := fun i => h.elsewhere _ h.new_page
    have hpages : pagesAfter pages { heap with lastPageId := logical.length } = pages ++ [logical.length] :=
      if_neg h.new_page
    rw [hpages]
    refine ⟨?_, ?_, ?_, ?_, ?_⟩
    · rw [List.head?_append, h.first]
      rfl
    · exact List.getLast?_concat
    · refine List.pairwise_append.mpr ⟨h.increasing, List.pairwise_singleton _ _, fun p hp q hq => ?_⟩
      obtain ⟨-, data₂, -, hdata₂, -⟩ := h.of_mem hp
      rw [List.mem_singleton.mp hq]
      exact (List.getElem?_eq_some_iff.mp hdata₂).1
    · refine h.linked.extend h.increasing h.last hnew (fun data₂ next₂ hdata₂ _ => ?_) ?_
        fun q hq i => update_rid_of_ne hq i
      · obtain ⟨linked₂, hlink₂, hcarries₂⟩ := hlink logical.length (hnew.trans (by decide))
        cases hlink₁.symm.trans hlink₂
        exact hcarries₂
      · rw [update_rid, funext hfresh]
        exact carries_placed hrow hput₁
    · intro rid hrid
      rw [List.mem_append, not_or] at hrid
      have hne : rid ≠ ⟨logical.length, 0⟩ := fun heq => hrid.2 (heq ▸ List.mem_singleton_self _)
      rw [Function.update_of_ne hne]
      exact h.elsewhere rid hrid.1

end

/-! ## Walks along the pages -/

section
variable {pool : BufferPool Bytes} {logical : List Bytes} {stored : RID → Option Bytes}
  {pages rest seen : List Nat} {n p : Nat}

theorem Carries.header {data : Bytes} {next : Nat} {rows : Nat → Option Bytes} (h : Carries data next rows) :
    ∃ header, readHeader data = .ok header ∧ header.nextPage = next := by
  obtain ⟨freePtr, slots, h, -⟩ := h
  exact ⟨_, h.header, rfl⟩

/-- The walk of the constructor comes to the last page. -/
theorem findLastPage_resting (h : Rests n pool logical) (hn : 1 ≤ n)
    (hlinked : Linked logical stored (p :: rest)) (hnodup : (p :: rest).Nodup) (hseen : ∀ q ∈ rest, q ∉ seen) :
    Ends (fun _ => False) (fun fuel => findLastPageFrom fuel seen p)
      (fun last pool' => (p :: rest).getLast? = some last ∧ Rests n pool' logical) pool := by
  induction rest generalizing pool p seen with
  | nil =>
    obtain ⟨-, ⟨data, hdata, hcarries⟩, -⟩ := hlinked
    obtain ⟨header, hheader, hnext⟩ := hcarries.header
    refine Ends.succ ((Ends.of_wp (wp_visit_resting h hn hdata hheader)).bind fun header' pool₁ hvisited => ?_)
      (fun fuel => rfl) ⟨_, _, rfl⟩
    obtain ⟨rfl, h₁⟩ := hvisited
    have hlast : header'.nextPage = invalidPageId := hnext
    exact Ends.of_ok (fun fuel => by rw [if_pos hlast]; rfl) ⟨rfl, h₁⟩
  | cons q rest ih =>
    obtain ⟨-, ⟨data, hdata, hcarries⟩, hrest⟩ := hlinked
    obtain ⟨header, hheader, hnext⟩ := hcarries.header
    refine Ends.succ ((Ends.of_wp (wp_visit_resting h hn hdata hheader)).bind fun header' pool₁ hvisited => ?_)
      (fun fuel => rfl) ⟨_, _, rfl⟩
    obtain ⟨rfl, h₁⟩ := hvisited
    obtain rfl : header'.nextPage = q := hnext
    have hnew : header'.nextPage ∉ seen := hseen _ List.mem_cons_self
    have hnodup' := (List.nodup_cons.mp hnodup).2
    have htail := @ih pool₁ (header'.nextPage :: seen) header'.nextPage h₁ hrest hnodup' fun r hr hmem => by
      rcases List.mem_cons.mp hmem with rfl | hmem
      · exact (List.nodup_cons.mp hnodup').1 hr
      · exact hseen r (List.mem_cons_of_mem _ hr) hmem
    exact htail.congr fun fuel => by rw [if_neg hrest.1.ne, if_neg hnew]

/-- What a scan yields, page by page. -/
structure Yields (stored : RID → Option Bytes) (pages : List Nat) (visits : List (Nat × List (RID × Bytes))) :
    Prop where
  visited : visits.map (·.1) = pages
  rows : ∀ x, x ∈ visits.flatMap (·.2) ↔ x.1.pageId ∈ pages ∧ stored x.1 = some x.2
  sorted : (visits.flatMap (·.2)).Pairwise fun x y => Before x.1 y.1

theorem yields_nil (stored : RID → Option Bytes) : Yields stored [] [] where
  visited := rfl
  rows x := by simp
  sorted := List.Pairwise.nil

theorem Yields.cons {visits : List (Nat × List (RID × Bytes))} {tuples : List (RID × Bytes)}
    (h : Yields stored pages visits) (hlt : ∀ q ∈ pages, p < q)
    (htuples : ∀ x : RID × Bytes, x ∈ tuples ↔ x.1.pageId = p ∧ stored ⟨p, x.1.slotId⟩ = some x.2)
    (hsorted : tuples.Pairwise fun x y => x.1.slotId < y.1.slotId) :
    Yields stored (p :: pages) ((p, tuples) :: visits) where
  visited := congrArg (p :: ·) h.visited
  rows x := by
    rw [List.flatMap_cons, List.mem_append, htuples, h.rows, List.mem_cons, or_and_right]
    refine or_congr_left (and_congr_right fun hp => ?_)
    rw [← hp]
  sorted := by
    rw [List.flatMap_cons]
    refine List.pairwise_append.mpr ⟨hsorted.imp_of_mem fun {x y} hx hy hslot => .inr ⟨?_, hslot⟩, h.sorted,
      fun x hx y hy => .inl ?_⟩
    · rw [((htuples x).mp hx).1, ((htuples y).mp hy).1]
    · rw [((htuples x).mp hx).1]
      exact hlt _ ((h.rows y).mp hy).1

/-- A scan goes through the pages and yields the rows on them. -/
theorem scan_resting (h : Rests n pool logical) (hn : 1 ≤ n) (hlinked : Linked logical stored pages)
    (hincreasing : pages.Pairwise (· < ·)) :
    Ends (fun _ => False) (fun fuel => scanFrom fuel (headPage pages))
      (fun visits pool' => Yields stored pages visits ∧ Rests n pool' logical) pool := by
  induction pages generalizing pool with
  | nil =>
    have hround : ∀ fuel, scanFrom (fuel + 1) (headPage []) pool = .ok [] pool := fun fuel => by
      rw [scanFrom, if_pos (show headPage [] = invalidPageId from rfl)]
      rfl
    exact Ends.succ (Ends.of_ok (fun _ => rfl) ⟨yields_nil stored, h⟩) hround ⟨_, _, rfl⟩
  | cons p rest ih =>
    obtain ⟨hp, ⟨data, hdata, hcarries⟩, hrest⟩ := hlinked
    obtain ⟨hlt, hincreasing⟩ := List.pairwise_cons.mp hincreasing
    obtain ⟨header, tuples, hscan, hnext, htuples, hsorted⟩ := hcarries.scanPage_eq p
    have hne : headPage (p :: rest) ≠ invalidPageId := hp.ne
    refine Ends.succ ((Ends.of_wp (wp_visit_resting h hn hdata hscan)).bind fun found pool₁ hvisited => ?_)
      (fun fuel => by rw [scanFrom, if_neg hne]; rfl) ⟨_, _, rfl⟩
    obtain ⟨rfl, h₁⟩ := hvisited
    refine Ends.bind ((ih h₁ hrest hincreasing).congr fun fuel => ?_) fun visits pool₂ hvisits => ?_
    · exact congrFun (congrArg (scanFrom fuel) hnext) pool₁
    · exact Ends.of_ok (fun _ => rfl) ⟨hvisits.1.cons hlt htuples hsorted, hvisits.2⟩

theorem wp_newHeapPage (h : Rests n pool logical) (hn : 1 ≤ n) :
    wp newHeapPage (fun pageId pool' => pageId = logical.length ∧ Rests n pool' (logical ++ [freshPage]))
      (fun _ _ => False) pool := by
  refine h.wp_keeps keeps_newHeapPage (wp_bind.mpr ((wp_newPage h.sound zeros).mono ?_
    fun e _ he => h.not_full hn he.2))
  rintro ⟨pageId, _⟩ pool₁ ⟨hnew, h₁, ⟨i, hi⟩, -⟩
  obtain ⟨rfl, rfl⟩ := Prod.mk.inj hnew
  refine wp_bind.mpr ((wp_edit h₁ hi (pinned_of_taken (fun _ => 0) _) List.getElem?_concat_length _).mono ?_ ?_)
  · rintro _ pool₂ ⟨data₂, hformatted, h₂, -⟩
    have hfresh : data₂ = freshPage := by
      rw [initHeapPage_zeros] at hformatted
      cases hformatted
      rfl
    subst hfresh
    have hset : (logical ++ [zeros]).set logical.length freshPage = logical ++ [freshPage] := by
      rw [List.set_append_right _ _ le_rfl, Nat.sub_self, List.set_cons_zero]
    rw [hset] at h₂
    refine wp_bind.mpr ((h₂.unpin (fun _ hq => hq.elim) (fun q hq => (or_iff_left hq).symm)
      fun _ => .inr rfl).mono ?_ fun _ _ he => he)
    rintro ⟨⟩ pool₃ ⟨h₃, -⟩
    exact ⟨rfl, h₃⟩
  · rintro e pool₂ ⟨data₂, herr, -⟩
    cases herr.symm.trans initHeapPage_zeros

/-- A new heap file has one page, behind all others. -/
theorem create_resting (h : Rests n pool logical) (hn : 1 ≤ n) :
    Ends (fun _ => False) create
      (fun heap pool' => heap = ⟨logical.length, logical.length⟩ ∧ Rests n pool' (logical ++ [freshPage]))
      pool := by
  refine (Ends.of_wp (wp_newHeapPage h hn)).bind fun pageId pool₁ hcreated => ?_
  obtain ⟨rfl, h₁⟩ := hcreated
  have hvisit := wp_visit_resting h₁ hn List.getElem?_concat_length readHeader_freshPage
  refine Ends.bind (Q := fun last pool' => last = logical.length ∧ Rests n pool' (logical ++ [freshPage])) ?_
    fun last pool₃ hlast => Ends.of_ok (fun fuel => rfl) ?_
  · refine Ends.succ ((Ends.of_wp hvisit).bind fun header pool₂ hvisited => ?_) (fun fuel => rfl) ⟨_, _, rfl⟩
    obtain ⟨rfl, h₂⟩ := hvisited
    exact Ends.of_ok (fun fuel => by rw [if_pos rfl]; rfl) ⟨rfl, h₂⟩
  · obtain ⟨rfl, h₃⟩ := hlast
    exact ⟨rfl, h₃⟩

end

end RawHeap
end Minirel
