-- SUMMARY: The buffer pool shows every page as its clients left it.
import Minirel.Storage.BufferPool
import Mathlib.Data.List.Nodup
import Mathlib.Logic.Function.Basic

/-!
# A transparent cache

Clients fetch pages, change the ones they hold a pin on, and release their pins. Beside the
pool goes what each page should hold, the bytes a client last left in it. The pool keeps
every page in one frame at most, a pinned one where it is, and what is neither in a frame
nor on its way back to the data file is in the data file.
-/

namespace Minirel
namespace BufferPool

variable {β : Type} {pool pool' : BufferPool β} {pins pins' : Nat → Nat} {changed changed' : Nat → Prop}
  {logical : List β} {p q i : Nat} {f : Frame β} {data zeros : β}

/-! ## The page table -/

theorem frameOf_filter (pool : BufferPool β) (p q : Nat) :
    (pool.pageTable.filter fun x => x.1 ≠ p).lookup q = if q = p then none else pool.frameOf q := by
  unfold frameOf
  induction pool.pageTable with
  | nil => simp
  | cons x table ih =>
    obtain ⟨r, i⟩ := x
    by_cases hr : r = p
    · subst hr
      rw [List.filter_cons_of_neg (by simp), ih]
      by_cases hq : q = r
      · rw [if_pos hq, if_pos hq]
      · rw [if_neg hq, if_neg hq, List.lookup_cons, beq_false_of_ne hq]
    · rw [List.filter_cons_of_pos (by simpa using hr), List.lookup_cons, List.lookup_cons, ih]
      by_cases hq : q = r
      · subst hq
        simp [hr]
      · rw [beq_false_of_ne hq]

theorem frameOf_set (pool : BufferPool β) (p i q : Nat) :
    ((pool.pageTable.filter fun x => x.1 ≠ p) ++ [(p, i)]).lookup q =
      if q = p then some i else pool.frameOf q := by
  rw [List.lookup_append, frameOf_filter]
  by_cases hq : q = p
  · simp [hq]
  · simp [hq]

/-! ## The invariant -/

/-- A page in its frame. Unless the frame is dirty, or a client has changed it and will say so
    when it releases it, the data file holds the same. -/
structure Resident (pool : BufferPool β) (pins : Nat → Nat) (changed : Nat → Prop) (logical : List β)
    (p i : Nat) (f : Frame β) : Prop where
  frame : pool.frames[i]? = some f
  pageId : f.pageId = some p
  pinCount : f.pinCount = pins p
  data : logical[p]? = some f.data
  clean : f.dirty = false → ¬changed p → pool.disk[p]? = some f.data
  waits : i ∈ pool.lru ↔ pins p = 0

/-- What holds of the pool between the calls: `pins` counts the pins held on a page, and
    `changed` are the pages that a client has changed under a pin it still holds. -/
structure Sound (pool : BufferPool β) (pins : Nat → Nat) (changed : Nat → Prop) (logical : List β) :
    Prop where
  length : pool.disk.length = logical.length
  resident : ∀ p i, pool.frameOf p = some i → ∃ f, Resident pool pins changed logical p i f
  inTable : ∀ i f p, pool.frames[i]? = some f → f.pageId = some p → pool.frameOf p = some i
  free : ∀ i ∈ pool.freeFrames, ∃ f, pool.frames[i]? = some f ∧ f.pageId = none
  nodup_free : pool.freeFrames.Nodup
  waiting : ∀ i ∈ pool.lru, ∃ p, pool.frameOf p = some i
  nodup_lru : pool.lru.Nodup
  out : ∀ p, pool.frameOf p = none → pins p = 0 ∧ pool.disk[p]? = logical[p]?
  pinned : ∀ p, changed p → pins p ≠ 0

theorem sound_init (zeros : β) (disk : List β) (poolSize : Nat) :
    Sound (init zeros disk poolSize) (fun _ => 0) (fun _ => False) disk where
  length := rfl
  resident p i h := by cases h
  inTable i f p hf hp := by
    simp only [init, List.getElem?_replicate] at hf
    split at hf
    · cases hf
      cases hp
    · cases hf
  free i hi := by
    have hlt : i < poolSize := by simpa [init] using hi
    exact ⟨⟨none, zeros, 0, false⟩, by simp [init, hlt], rfl⟩
  nodup_free := List.nodup_range
  waiting i hi := by cases hi
  nodup_lru := List.nodup_nil
  out p _ := ⟨rfl, rfl⟩
  pinned p hp := hp.elim

/-- No page is in two frames. -/
theorem Sound.frame_unique (h : Sound pool pins changed logical) {j : Nat} {f' : Frame β}
    (hi : pool.frames[i]? = some f) (hj : pool.frames[j]? = some f') (hp : f.pageId = some p)
    (hp' : f'.pageId = some p) : i = j :=
  Option.some.inj ((h.inTable i f p hi hp).symm.trans (h.inTable j f' p hj hp'))

/-- A frame is that of one page. -/
theorem Sound.page_unique (h : Sound pool pins changed logical) (hp : pool.frameOf p = some i)
    (hq : pool.frameOf q = some i) : p = q := by
  obtain ⟨f, hf⟩ := h.resident p i hp
  obtain ⟨f', hf'⟩ := h.resident q i hq
  obtain rfl := Option.some.inj (hf.frame.symm.trans hf'.frame)
  exact Option.some.inj (hf.pageId.symm.trans hf'.pageId)

theorem Sound.bound (h : Sound pool pins changed logical) (hp : logical[p]? = some data) :
    p < pool.disk.length := by
  rw [h.length]
  exact (List.getElem?_eq_some_iff.mp hp).1

/-- The counters are not part of it. -/
theorem Sound.of_same (h : Sound pool pins changed logical) (hdisk : pool'.disk = pool.disk)
    (hframes : pool'.frames = pool.frames) (htable : pool'.pageTable = pool.pageTable)
    (hfree : pool'.freeFrames = pool.freeFrames) (hlru : pool'.lru = pool.lru) :
    Sound pool' pins changed logical := by
  have hframeOf : ∀ p, pool'.frameOf p = pool.frameOf p := fun p => by rw [frameOf, frameOf, htable]
  constructor
  · rw [hdisk, h.length]
  · intro p i hp
    obtain ⟨f, hf⟩ := h.resident p i (hframeOf p ▸ hp)
    exact ⟨f, ⟨hframes ▸ hf.frame, hf.pageId, hf.pinCount, hf.data, hdisk ▸ hf.clean,
      hlru ▸ hf.waits⟩⟩
  · intro i f p hf hp
    rw [hframeOf]
    exact h.inTable i f p (hframes ▸ hf) hp
  · rw [hfree, hframes]
    exact h.free
  · rw [hfree]
    exact h.nodup_free
  · intro i hi
    obtain ⟨p, hp⟩ := h.waiting i (hlru ▸ hi)
    exact ⟨p, (hframeOf p).trans hp⟩
  · rw [hlru]
    exact h.nodup_lru
  · intro p hp
    rw [hdisk]
    exact h.out p (hframeOf p ▸ hp)
  · exact h.pinned

/-- A call that deals with one page in its frame: it is enough to look at that page. -/
theorem Sound.touch {logical' : List β} (h : Sound pool pins changed logical)
    (hp : pool.frameOf p = some i) (hnew : Resident pool' pins' changed' logical' p i f)
    (htable : pool'.pageTable = pool.pageTable) (hfree : pool'.freeFrames = pool.freeFrames)
    (hlen : pool'.disk.length = pool.disk.length) (hlogical : logical'.length = logical.length)
    (hframes : ∀ j, j ≠ i → pool'.frames[j]? = pool.frames[j]? ∧ (j ∈ pool'.lru ↔ j ∈ pool.lru))
    (hpages : ∀ q, q ≠ p → pool'.disk[q]? = pool.disk[q]? ∧ logical'[q]? = logical[q]? ∧
      pins' q = pins q ∧ (changed' q ↔ changed q))
    (hnodup : pool'.lru.Nodup) (hpinned : changed' p → pins' p ≠ 0) :
    Sound pool' pins' changed' logical' := by
  have hframeOf : ∀ q, pool'.frameOf q = pool.frameOf q := fun q => by rw [frameOf, frameOf, htable]
  obtain ⟨f₀, hf₀⟩ := h.resident p i hp
  constructor
  · rw [hlen, h.length, hlogical]
  · intro q j hq
    rw [hframeOf] at hq
    by_cases hqp : q = p
    · subst hqp
      obtain rfl := Option.some.inj (hp.symm.trans hq)
      exact ⟨f, hnew⟩
    · have hj : j ≠ i := by
        rintro rfl
        exact hqp (h.page_unique hq hp)
      obtain ⟨g, hg⟩ := h.resident q j hq
      obtain ⟨hdisk, hlog, hpin, hchanged⟩ := hpages q hqp
      obtain ⟨hframe, hlru⟩ := hframes j hj
      exact ⟨g, ⟨hframe.trans hg.frame, hg.pageId, hg.pinCount.trans hpin.symm, hlog.trans hg.data,
        fun hd hc => hdisk.trans (hg.clean hd fun hc' => hc (hchanged.mpr hc')),
        hlru.trans (hg.waits.trans (by rw [hpin]))⟩⟩
  · intro j g q hg hq
    rw [hframeOf]
    by_cases hj : j = i
    · subst hj
      obtain rfl := Option.some.inj (hnew.frame.symm.trans hg)
      obtain rfl := Option.some.inj (hnew.pageId.symm.trans hq)
      exact hp
    · exact h.inTable j g q ((hframes j hj).1.symm.trans hg) hq
  · intro j hj
    obtain ⟨g, hg, hgn⟩ := h.free j (hfree ▸ hj)
    have hne : j ≠ i := by
      rintro rfl
      obtain rfl := Option.some.inj (hg.symm.trans hf₀.frame)
      cases hgn.symm.trans hf₀.pageId
    exact ⟨g, (hframes j hne).1.trans hg, hgn⟩
  · rw [hfree]
    exact h.nodup_free
  · intro j hj
    by_cases hji : j = i
    · exact ⟨p, (hframeOf p).trans (hji ▸ hp)⟩
    · obtain ⟨q, hq⟩ := h.waiting j ((hframes j hji).2.mp hj)
      exact ⟨q, (hframeOf q).trans hq⟩
  · exact hnodup
  · intro q hq
    rw [hframeOf] at hq
    have hqp : q ≠ p := by
      rintro rfl
      cases hq.symm.trans hp
    obtain ⟨hdisk, hlog, hpin, -⟩ := hpages q hqp
    exact ⟨hpin.trans (h.out q hq).1, hdisk.trans ((h.out q hq).2.trans hlog.symm)⟩
  · intro q hq
    by_cases hqp : q = p
    · subst hqp
      exact hpinned hq
    · obtain ⟨-, -, hpin, hchanged⟩ := hpages q hqp
      rw [hpin]
      exact h.pinned q (hchanged.mp hq)

/-! ## Eviction -/

/-- No frame is to be had for another page. -/
def Full (pool : BufferPool β) : Prop := pool.freeFrames = [] ∧ pool.lru = []

/-- A frame that is no one's: with any frame of no page in its place the pool is sound. -/
structure Vacated (pool : BufferPool β) (pins : Nat → Nat) (changed : Nat → Prop) (logical : List β)
    (i : Nat) : Prop where
  frame : i < pool.frames.length
  free : i ∉ pool.freeFrames
  rest : ∀ f : Frame β, f.pageId = none →
    Sound { pool with frames := pool.frames.set i f } pins changed logical

/-- A frame of the free list. -/
theorem Sound.vacated_free (h : Sound pool pins changed logical) (hi : i ∈ pool.freeFrames) :
    Vacated { pool with freeFrames := pool.freeFrames.erase i } pins changed logical i := by
  obtain ⟨f₀, hf₀, hnone⟩ := h.free i hi
  have hlt : i < pool.frames.length := (List.getElem?_eq_some_iff.mp hf₀).1
  have hother : ∀ {q j}, pool.frameOf q = some j → i ≠ j := by
    rintro q j hq rfl
    obtain ⟨f, hf⟩ := h.resident q i hq
    obtain rfl := Option.some.inj (hf₀.symm.trans hf.frame)
    cases hnone.symm.trans hf.pageId
  refine ⟨hlt, h.nodup_free.not_mem_erase, fun f hf => ?_⟩
  constructor
  · exact h.length
  · intro q j hq
    obtain ⟨g, hg⟩ := h.resident q j hq
    exact ⟨g, ⟨(List.getElem?_set_ne (hother hq)).trans hg.frame, hg.pageId, hg.pinCount, hg.data,
      hg.clean, hg.waits⟩⟩
  · intro j g q hg hq
    by_cases hj : i = j
    · subst hj
      rw [List.getElem?_set_self hlt, Option.some.injEq] at hg
      subst hg
      cases hf.symm.trans hq
    · exact h.inTable j g q ((List.getElem?_set_ne hj).symm.trans hg) hq
  · intro j hj
    obtain ⟨g, hg, hgn⟩ := h.free j (List.mem_of_mem_erase hj)
    have hne : i ≠ j := by
      rintro rfl
      exact h.nodup_free.not_mem_erase hj
    exact ⟨g, (List.getElem?_set_ne hne).trans hg, hgn⟩
  · exact h.nodup_free.erase i
  · exact h.waiting
  · exact h.nodup_lru
  · exact h.out
  · exact h.pinned

/-- A frame that no one holds a pin on, once its page is in the data file. -/
theorem Sound.vacated_lru (h : Sound pool pins changed logical) (hp : pool.frameOf p = some i)
    (hpins : pins p = 0) {disk : List β} (hlen : disk.length = pool.disk.length)
    (hwritten : disk[p]? = logical[p]?) (hrest : ∀ q, q ≠ p → disk[q]? = pool.disk[q]?) :
    Vacated
      { pool with
        disk := disk, lru := pool.lru.erase i,
        pageTable := pool.pageTable.filter fun x => x.1 ≠ p }
      pins changed logical i := by
  obtain ⟨f₀, hf₀⟩ := h.resident p i hp
  have hlt : i < pool.frames.length := (List.getElem?_eq_some_iff.mp hf₀.frame).1
  have hother : ∀ {q j}, pool.frameOf q = some j → q ≠ p → i ≠ j := by
    rintro q j hq hqp rfl
    exact hqp (h.page_unique hq hp)
  refine ⟨hlt, fun hi => ?_, fun f hf => ?_⟩
  · obtain ⟨g, hg, hgn⟩ := h.free i hi
    obtain rfl := Option.some.inj (hg.symm.trans hf₀.frame)
    cases hgn.symm.trans hf₀.pageId
  constructor
  · exact hlen.trans h.length
  · intro q j hq
    rw [frameOf, frameOf_filter] at hq
    by_cases hqp : q = p
    · rw [if_pos hqp] at hq
      cases hq
    rw [if_neg hqp] at hq
    obtain ⟨g, hg⟩ := h.resident q j hq
    refine ⟨g, ⟨(List.getElem?_set_ne (hother hq hqp)).trans hg.frame, hg.pageId, hg.pinCount,
      hg.data, fun hd hc => (hrest q hqp).trans (hg.clean hd hc), ?_⟩⟩
    exact (List.mem_erase_of_ne (hother hq hqp).symm).trans hg.waits
  · intro j g q hg hq
    rw [frameOf, frameOf_filter]
    by_cases hj : i = j
    · subst hj
      rw [List.getElem?_set_self hlt, Option.some.injEq] at hg
      subst hg
      cases hf.symm.trans hq
    · have hq' := h.inTable j g q ((List.getElem?_set_ne hj).symm.trans hg) hq
      rw [if_neg, hq']
      rintro rfl
      exact hj (Option.some.inj (hp.symm.trans hq'))
  · intro j hj
    obtain ⟨g, hg, hgn⟩ := h.free j hj
    have hne : i ≠ j := by
      rintro rfl
      obtain rfl := Option.some.inj (hg.symm.trans hf₀.frame)
      cases hgn.symm.trans hf₀.pageId
    exact ⟨g, (List.getElem?_set_ne hne).trans hg, hgn⟩
  · exact h.nodup_free
  · intro j hj
    obtain ⟨q, hq⟩ := h.waiting j (List.mem_of_mem_erase hj)
    refine ⟨q, ?_⟩
    rw [frameOf, frameOf_filter, if_neg, hq]
    rintro rfl
    obtain rfl := Option.some.inj (hp.symm.trans hq)
    exact h.nodup_lru.not_mem_erase hj
  · exact h.nodup_lru.erase i
  · intro q hq
    rw [frameOf, frameOf_filter] at hq
    by_cases hqp : q = p
    · subst hqp
      exact ⟨hpins, hwritten⟩
    · rw [if_neg hqp] at hq
      exact ⟨(h.out q hq).1, (hrest q hqp).trans (h.out q hq).2⟩
  · exact h.pinned

section
variable {Q : Unit → BufferPool β → Prop} {E : PyError → BufferPool β → Prop}

theorem wp_getFrame {Q : Frame β → BufferPool β → Prop} (hf : pool.frames[i]? = some f)
    (hQ : Q f pool) : wp (getFrame i) Q E pool :=
  (wp_of_ok (by simp only [getFrame, hf])).mpr hQ

theorem wp_pageOf {Q : Nat → BufferPool β → Prop} (hf : f.pageId = some p) (hQ : Q p pool) :
    wp (pageOf f) Q E pool :=
  (wp_of_ok (by simp only [pageOf, hf])).mpr hQ

theorem wp_delPage (hp : pool.frameOf p = some i)
    (hQ : Q () { pool with pageTable := pool.pageTable.filter fun x => x.1 ≠ p }) :
    wp (delPage p) Q E pool :=
  (wp_of_ok (by simp only [delPage, hp])).mpr hQ

theorem wp_setFrame (hQ : Q () { pool with frames := pool.frames.set i f }) :
    wp (setFrame i f) Q E pool := hQ

theorem wp_setPage
    (hQ : Q () { pool with
      pageTable := (pool.pageTable.filter fun x => x.1 ≠ p) ++ [(p, i)] }) :
    wp (setPage p i) Q E pool := hQ

theorem wp_allocatePage {Q : Nat → BufferPool β → Prop}
    (hQ : Q pool.disk.length { pool with disk := pool.disk ++ [zeros] }) :
    wp (allocatePage zeros) Q E pool := hQ

theorem wp_readPage {Q : β → BufferPool β → Prop} (hdata : pool.disk[p]? = some data)
    (hQ : Q data pool) : wp (readPage p) Q E pool :=
  (wp_of_ok (by simp only [readPage, hdata])).mpr hQ

theorem readPage_missing (hdata : pool.disk[p]? = none) :
    readPage p pool =
      .error (.valueError s!"page {p} does not exist (num_pages={pool.disk.length})") pool := by
  simp only [readPage, hdata]

theorem wp_writeBack
    (hQ : Q () { pool with disk := pool.disk.set p data, diskWrites := pool.diskWrites + 1 }) :
    wp (writeBack p data) Q E pool := hQ

end

/-- `evict_one` frees a frame and leaves the pages that are pinned where they are. -/
theorem wp_evictOne (h : Sound pool pins changed logical) :
    wp evictOne
      (fun i pool' => Vacated pool' pins changed logical i ∧ pool'.frames = pool.frames ∧
        (∀ p, pins p ≠ 0 → pool'.frameOf p = pool.frameOf p) ∧
        (∀ p, pool.frameOf p = none → pool'.frameOf p = none) ∧
        (∀ p, pool.frameOf p = none → pool'.disk[p]? = pool.disk[p]?) ∧ ¬Full pool)
      (fun e _ => e ≠ .diverges ∧ Full pool) pool := by
  unfold evictOne
  rw [wp_bind, wp_get]
  dsimp only
  split
  case h_1 i hlast =>
    have hi : i ∈ pool.freeFrames := List.mem_of_getLast? hlast
    have hdrop : pool.freeFrames.erase i = pool.freeFrames.dropLast := by
      obtain ⟨l, hl⟩ := List.getLast?_eq_some_iff.mp hlast
      have hnodup := h.nodup_free
      rw [hl] at hnodup ⊢
      rw [List.dropLast_concat, List.erase_append_right _ (fun hm => ?_), List.erase_cons_head,
        List.append_nil]
      exact (List.nodup_append.mp hnodup).2.2 i hm i (List.mem_singleton_self i) rfl
    have hv := h.vacated_free hi
    rw [hdrop] at hv
    refine ⟨hv, rfl, fun _ _ => rfl, fun _ hp => hp, fun _ _ => rfl, fun hfull => ?_⟩
    rw [hfull.1] at hi
    cases hi
  case h_2 hlast =>
    split
    case h_1 hlru => exact ⟨nofun, List.getLast?_eq_none_iff.mp hlast, hlru⟩
    case h_2 i lru hlru =>
      have hi : i ∈ pool.lru := hlru ▸ List.mem_cons_self
      obtain ⟨p, hp⟩ := h.waiting i hi
      obtain ⟨f, hf⟩ := h.resident p i hp
      have hpins := hf.waits.mp hi
      have herase : pool.lru.erase i = lru := by rw [hlru, List.erase_cons_head]
      have hne : ∀ {q}, pins q ≠ 0 → q ≠ p := by
        rintro q hq rfl
        exact hq hpins
      have hne' : ∀ {q}, pool.frameOf q = none → q ≠ p := by
        rintro q hq rfl
        cases hq.symm.trans hp
      -- whether written back or clean, the page is in the data file when its frame is given up
      have hgive : ∀ (disk : List β) (diskWrites : Nat), disk.length = pool.disk.length →
          disk[p]? = logical[p]? → (∀ q, q ≠ p → disk[q]? = pool.disk[q]?) →
          wp (do delPage p; return i)
            (fun i pool' => Vacated pool' pins changed logical i ∧ pool'.frames = pool.frames ∧
              (∀ p, pins p ≠ 0 → pool'.frameOf p = pool.frameOf p) ∧
              (∀ p, pool.frameOf p = none → pool'.frameOf p = none) ∧
              (∀ p, pool.frameOf p = none → pool'.disk[p]? = pool.disk[p]?) ∧ ¬Full pool)
            (fun e _ => e ≠ .diverges ∧ Full pool) { pool with disk := disk, lru := lru, diskWrites := diskWrites } := by
        intro disk diskWrites hlen hwritten hrest
        refine wp_bind.mpr (wp_delPage (i := i) hp ?_)
        have hv := h.vacated_lru hp hpins hlen hwritten hrest
        rw [herase] at hv
        refine ⟨⟨hv.frame, hv.free, fun g hg => (hv.rest g hg).of_same rfl rfl rfl rfl rfl⟩, rfl,
          fun q hq => ?_, fun q hq => ?_, fun q hq => hrest q (hne' hq), fun hfull => ?_⟩
        · exact (frameOf_filter pool p q).trans (if_neg (hne hq))
        · exact (frameOf_filter pool p q).trans ((if_neg (hne' hq)).trans hq)
        · rw [hfull.2] at hi
          cases hi
      refine wp_bind.mpr (wp_set.mpr (wp_bind.mpr (wp_getFrame hf.frame ?_)))
      refine wp_bind.mpr (wp_pageOf hf.pageId ?_)
      cases hd : f.dirty with
      | true =>
        have hlt : p < pool.disk.length := h.bound hf.data
        rw [if_pos rfl]
        refine wp_bind.mpr (wp_writeBack ?_)
        exact hgive _ _ List.length_set (by rw [List.getElem?_set_self hlt, hf.data])
          fun q hq => List.getElem?_set_ne hq.symm
      | false =>
        rw [if_neg Bool.false_ne_true]
        refine hgive _ _ rfl ?_ fun _ _ => rfl
        rw [hf.clean hd fun hc => h.pinned p hc hpins, hf.data]

/-! ## The calls -/

/-- A page read into a vacated frame, with its first pin. -/
theorem wp_install (hv : Vacated pool pins changed logical i) (hp : pool.frameOf p = none)
    (hdata : logical[p]? = some data) (hdisk : pool.disk[p]? = some data) :
    wp (install p i data)
      (fun _ pool' => Sound pool' (Function.update pins p 1) changed logical ∧
        pool'.frameOf p = some i ∧ ∀ q, q ≠ p → pool'.frameOf q = pool.frameOf q)
      (fun _ _ => False) pool := by
  have h := hv.rest ⟨none, data, 0, false⟩ rfl
  have hother : ∀ {q j}, pool.frameOf q = some j → i ≠ j := by
    rintro q j hq rfl
    obtain ⟨f, hf⟩ := h.resident q i hq
    obtain rfl := Option.some.inj ((List.getElem?_set_self hv.frame).symm.trans hf.frame)
    cases hf.pageId
  have hlru : i ∉ pool.lru := fun hi => by
    obtain ⟨q, hq⟩ := h.waiting i hi
    exact hother hq rfl
  have hself : ∀ f : Frame β, (pool.frames.set i f)[i]? = some f := fun f =>
    List.getElem?_set_self hv.frame
  unfold install
  refine wp_bind.mpr (wp_setFrame (wp_bind.mpr (wp_setPage ?_)))
  refine wp_bind.mpr (wp_getFrame (hself _) (wp_bind.mpr (wp_setFrame ?_)))
  rw [wp_modify]
  dsimp only
  rw [List.set_set, List.erase_of_not_mem hlru]
  have hframeOf : ∀ q, ((pool.pageTable.filter fun x => x.1 ≠ p) ++ [(p, i)]).lookup q =
      if q = p then some i else pool.frameOf q := frameOf_set pool p i
  refine ⟨?_, (hframeOf p).trans (if_pos rfl), fun q hq => (hframeOf q).trans (if_neg hq)⟩
  constructor
  · exact h.length
  · intro q j hq
    rw [frameOf, hframeOf] at hq
    by_cases hqp : q = p
    · subst hqp
      rw [if_pos rfl, Option.some.injEq] at hq
      subst hq
      refine ⟨_, ⟨hself _, rfl, (Function.update_self q 1 pins).symm, hdata, fun _ _ => hdisk, ?_⟩⟩
      rw [Function.update_self]
      exact ⟨fun hi => absurd hi hlru, fun h => absurd h Nat.one_ne_zero⟩
    · rw [if_neg hqp] at hq
      obtain ⟨f, hf⟩ := h.resident q j hq
      have hj := hother hq
      refine ⟨f, ⟨?_, hf.pageId, ?_, hf.data, hf.clean, ?_⟩⟩
      · exact (List.getElem?_set_ne hj).trans ((List.getElem?_set_ne hj).symm.trans hf.frame)
      · rw [Function.update_of_ne hqp]
        exact hf.pinCount
      · rw [Function.update_of_ne hqp]
        exact hf.waits
  · intro j f q hf hq
    rw [frameOf, hframeOf]
    by_cases hj : i = j
    · subst hj
      obtain rfl := Option.some.inj ((hself _).symm.trans hf)
      obtain rfl := Option.some.inj hq
      exact if_pos rfl
    · have hf' : (pool.frames.set i ⟨none, data, 0, false⟩)[j]? = some f :=
        (List.getElem?_set_ne hj).trans ((List.getElem?_set_ne hj).symm.trans hf)
      have hq' : pool.frameOf q = some j := h.inTable j f q hf' hq
      rw [if_neg, hq']
      rintro rfl
      cases hp.symm.trans hq'
  · intro j hj
    obtain ⟨f, hf, hfn⟩ := h.free j hj
    have hne : i ≠ j := by
      rintro rfl
      exact hv.free hj
    exact ⟨f, (List.getElem?_set_ne hne).trans ((List.getElem?_set_ne hne).symm.trans hf), hfn⟩
  · exact h.nodup_free
  · intro j hj
    obtain ⟨q, hq⟩ := h.waiting j hj
    have hne : q ≠ p := by
      rintro rfl
      cases hp.symm.trans hq
    exact ⟨q, (hframeOf q).trans ((if_neg hne).trans hq)⟩
  · exact h.nodup_lru
  · intro q hq
    rw [frameOf, hframeOf] at hq
    by_cases hqp : q = p
    · rw [if_pos hqp] at hq
      cases hq
    · rw [if_neg hqp] at hq
      rw [Function.update_of_ne hqp]
      exact h.out q hq
  · intro q hq
    by_cases hqp : q = p
    · rw [hqp, Function.update_self]
      exact Nat.one_ne_zero
    · rw [Function.update_of_ne hqp]
      exact h.pinned q hq

/-- One pin more on a page that is in its frame. -/
theorem wp_pin (h : Sound pool pins changed logical) (hp : pool.frameOf p = some i) :
    wp (pin i)
      (fun _ pool' => Sound pool' (Function.update pins p (pins p + 1)) changed logical ∧
        pool'.pageTable = pool.pageTable ∧ ∃ f, pool'.frames[i]? = some f ∧ logical[p]? = some f.data)
      (fun _ _ => False) pool := by
  obtain ⟨f₀, hf₀⟩ := h.resident p i hp
  have hlt : i < pool.frames.length := (List.getElem?_eq_some_iff.mp hf₀.frame).1
  unfold pin
  refine wp_bind.mpr (wp_getFrame hf₀.frame (wp_bind.mpr (wp_setFrame ?_)))
  rw [wp_modify]
  have hself : ∀ f : Frame β, (pool.frames.set i f)[i]? = some f := fun f =>
    List.getElem?_set_self hlt
  refine ⟨?_, rfl, _, hself _, hf₀.data⟩
  refine h.touch (f := { f₀ with pinCount := f₀.pinCount + 1 }) hp ?_ rfl rfl rfl rfl (fun j hj => ?_)
    (fun q hq => ⟨rfl, rfl, Function.update_of_ne hq _ _, Iff.rfl⟩) (h.nodup_lru.erase i)
    fun _ => ?_
  · refine ⟨hself _, hf₀.pageId, ?_, hf₀.data, hf₀.clean, ?_⟩
    · rw [Function.update_self, ← hf₀.pinCount]
    · rw [Function.update_self]
      exact ⟨fun hi => absurd hi h.nodup_lru.not_mem_erase, fun h0 => absurd h0 (Nat.succ_ne_zero _)⟩
  · exact ⟨List.getElem?_set_ne hj.symm, List.mem_erase_of_ne hj⟩
  · rw [Function.update_self]
    exact Nat.succ_ne_zero _

/-- A page of zeros more at the end of the data file. -/
theorem Sound.allocate (h : Sound pool pins changed logical) (zeros : β) :
    Sound { pool with disk := pool.disk ++ [zeros] } pins changed (logical ++ [zeros]) := by
  have hlt : ∀ {q : Nat} {data : β} {l : List β}, l[q]? = some data → (l ++ [zeros])[q]? = some data := by
    intro q data l hq
    rw [List.getElem?_append_left (List.getElem?_eq_some_iff.mp hq).1, hq]
  constructor
  · rw [List.length_append, List.length_append, h.length]
  · intro q j hq
    obtain ⟨g, hg⟩ := h.resident q j hq
    exact ⟨g, ⟨hg.frame, hg.pageId, hg.pinCount, hlt hg.data, fun hd hc => hlt (hg.clean hd hc),
      hg.waits⟩⟩
  · exact h.inTable
  · exact h.free
  · exact h.nodup_free
  · exact h.waiting
  · exact h.nodup_lru
  · intro q hq
    obtain ⟨hpin, hdisk⟩ := h.out q hq
    refine ⟨hpin, ?_⟩
    rw [List.getElem?_append, List.getElem?_append, h.length, hdisk]
  · exact h.pinned

/-- The page is in a frame, or a frame is to be had for it. -/
def Fetchable (pool : BufferPool β) (p : Nat) : Prop := (∃ i, pool.frameOf p = some i) ∨ ¬Full pool

/-- `fetch_page` pins the page and returns its bytes. It raises if there is no such page, and
    if there is no frame for it. -/
theorem wp_fetchPage (h : Sound pool pins changed logical) (p : Nat) :
    wp (fetchPage p)
      (fun data pool' => Sound pool' (Function.update pins p (pins p + 1)) changed logical ∧
        logical[p]? = some data ∧ (∃ i, pool'.frameOf p = some i) ∧
        (∀ q, pins q ≠ 0 → pool'.frameOf q = pool.frameOf q) ∧ Fetchable pool p)
      (fun e _ => e ≠ .diverges ∧ (logical[p]? = none ∨ ¬Fetchable pool p)) pool := by
  unfold fetchPage
  rw [wp_bind, wp_get]
  cases hp : pool.frameOf p with
  | some i =>
    have h' : Sound { pool with cacheHits := pool.cacheHits + 1 } pins changed logical :=
      h.of_same rfl rfl rfl rfl rfl
    refine wp_bind.mpr (wp_modify.mpr (wp_bind.mpr ((wp_pin h' hp).mono ?_ fun _ _ hf => hf.elim)))
    rintro _ pool₁ ⟨hsound, htable, f, hf, hdata⟩
    have hframeOf : ∀ q, pool₁.frameOf q = pool.frameOf q := fun q => by rw [frameOf, htable]; rfl
    exact wp_bind.mpr (wp_getFrame hf ⟨hsound, hdata, ⟨i, (hframeOf p).trans hp⟩, fun q _ => hframeOf q,
      .inl ⟨i, hp⟩⟩)
  | none =>
    have hnot : ∀ i, pool.frameOf p ≠ some i := by simp [hp]
    refine wp_bind.mpr ((wp_evictOne h).mono ?_ fun e _ he => ⟨he.1, .inr ?_⟩)
    case refine_2 =>
      rintro (⟨i, hi⟩ | hroom)
      · exact hnot i hi
      · exact hroom he.2
    rintro i pool₁ ⟨hv, -, hkeep, hnone, hdisk, hroom⟩
    obtain ⟨hpins, hout⟩ := h.out p hp
    cases hread : pool₁.disk[p]? with
    | none =>
      refine wp_bind.mpr ((wp_of_error (readPage_missing hread)).mpr ⟨nofun, .inl ?_⟩)
      rw [← hout, ← hdisk p hp, hread]
    | some data =>
      refine wp_bind.mpr (wp_readPage hread (wp_bind.mpr (wp_modify.mpr ?_)))
      have hdata : logical[p]? = some data := by rw [← hout, ← hdisk p hp, hread]
      have hv' : Vacated { pool₁ with diskReads := pool₁.diskReads + 1 } pins changed logical i :=
        ⟨hv.frame, hv.free, fun g hg => (hv.rest g hg).of_same rfl rfl rfl rfl rfl⟩
      refine wp_bind.mpr ((wp_install hv' (hnone p hp) hdata hread).mono ?_ fun _ _ hf => hf.elim)
      rintro _ pool₂ ⟨hsound, hp₂, hrest⟩
      rw [hpins]
      refine ⟨hsound, hdata, ⟨i, hp₂⟩, fun q hq => ?_, .inr hroom⟩
      have hqp : q ≠ p := by
        rintro rfl
        exact hq hpins
      exact (hrest q hqp).trans (hkeep q hq)

/-- `new_page` returns a page of zeros behind all others. It raises if there is no frame for it. -/
theorem wp_newPage (h : Sound pool pins changed logical) (zeros : β) :
    wp (newPage zeros)
      (fun r pool' => r = (logical.length, zeros) ∧
        Sound pool' (Function.update pins r.1 (pins r.1 + 1)) changed (logical ++ [zeros]) ∧
        (∃ i, pool'.frameOf r.1 = some i) ∧ (∀ q, pins q ≠ 0 → pool'.frameOf q = pool.frameOf q) ∧
        ¬Full pool)
      (fun e _ => e ≠ .diverges ∧ Full pool) pool := by
  unfold newPage
  refine wp_bind.mpr (wp_allocatePage ?_)
  have h' := h.allocate zeros
  refine wp_bind.mpr ((wp_evictOne h').mono ?_ fun _ _ he => he)
  rintro i pool₁ ⟨hv, -, hkeep, hnone, hdisk, hroom⟩
  rw [h.length]
  have hnew : (logical ++ [zeros])[logical.length]? = some zeros := List.getElem?_concat_length
  have hp : pool.frameOf logical.length = none := by
    cases hp : pool.frameOf logical.length with
    | none => rfl
    | some j =>
      obtain ⟨f, hf⟩ := h.resident _ j hp
      exact absurd (List.getElem?_eq_some_iff.mp hf.data).1 (lt_irrefl _)
  have hpins := (h.out _ hp).1
  have hread : pool₁.disk[logical.length]? = some zeros := by
    rw [← h.length] at hp ⊢
    exact (hdisk _ hp).trans List.getElem?_concat_length
  refine wp_bind.mpr ((wp_install hv (hnone _ hp) hnew hread).mono ?_ fun _ _ hf => hf.elim)
  rintro _ pool₂ ⟨hsound, hp₂, hrest⟩
  refine ⟨rfl, ?_, ⟨i, hp₂⟩, fun q hq => ?_, hroom⟩
  · rw [hpins]
    exact hsound
  · have hqp : q ≠ logical.length := by
      rintro rfl
      exact hq hpins
    exact (hrest q hqp).trans (hkeep q hq)

/-- `unpin_page` gives one pin back. A page that was changed under that pin has to be
    released as dirty. -/
theorem wp_unpinPage (h : Sound pool pins changed logical) {dirty : Bool} (hpins : pins p ≠ 0)
    (hother : ∀ q, q ≠ p → (changed' q ↔ changed q))
    (hdirty : changed p → changed' p ∨ dirty = true) (hpinned : changed' p → pins p ≠ 1) :
    wp (unpinPage p dirty)
      (fun _ pool' => Sound pool' (Function.update pins p (pins p - 1)) changed' logical ∧
        pool'.pageTable = pool.pageTable)
      (fun _ _ => False) pool := by
  unfold unpinPage
  rw [wp_bind, wp_get]
  cases hp : pool.frameOf p with
  | none => exact absurd (h.out p hp).1 hpins
  | some i =>
    obtain ⟨f₀, hf₀⟩ := h.resident p i hp
    have hlt : i < pool.frames.length := (List.getElem?_eq_some_iff.mp hf₀.frame).1
    have hnot : i ∉ pool.lru := fun hi => hpins (hf₀.waits.mp hi)
    have hself : ∀ f : Frame β, (pool.frames.set i f)[i]? = some f := fun f =>
      List.getElem?_set_self hlt
    -- the frame keeps its bytes and the table its entry; only the queue depends on the pins left
    have hdone : ∀ lru : List Nat, lru.Nodup → (∀ j, j ≠ i → (j ∈ lru ↔ j ∈ pool.lru)) →
        (i ∈ lru ↔ pins p - 1 = 0) →
        Sound
          { pool with
            lru := lru,
            frames := pool.frames.set i
              { f₀ with pinCount := f₀.pinCount - 1, dirty := f₀.dirty || dirty } }
          (Function.update pins p (pins p - 1)) changed' logical := by
      intro lru hnodup hlru hi
      refine h.touch (f := { f₀ with pinCount := f₀.pinCount - 1, dirty := f₀.dirty || dirty }) hp ?_
        rfl rfl rfl rfl (fun j hj => ⟨List.getElem?_set_ne hj.symm, hlru j hj⟩)
        (fun q hq => ⟨rfl, rfl, Function.update_of_ne hq _ _, hother q hq⟩) hnodup fun hc => ?_
      · refine ⟨hself _, hf₀.pageId, ?_, hf₀.data, fun hd hc => ?_, ?_⟩
        · rw [Function.update_self, ← hf₀.pinCount]
        · obtain ⟨hd₀, hdirty'⟩ := Bool.or_eq_false_iff.mp hd
          refine hf₀.clean hd₀ fun hc₀ => ?_
          obtain hc' | ht := hdirty hc₀
          · exact hc hc'
          · cases hdirty'.symm.trans ht
        · rw [Function.update_self]
          exact hi
      · rw [Function.update_self]
        have := hpinned hc
        omega
    refine wp_bind.mpr (wp_getFrame hf₀.frame (wp_bind.mpr (wp_setFrame ?_)))
    by_cases h0 : f₀.pinCount - 1 = 0
    · rw [if_pos h0, wp_modify]
      dsimp only
      rw [if_neg hnot]
      refine ⟨hdone _ ?_ (fun j hj => ?_) ?_, rfl⟩
      · exact List.nodup_append.mpr ⟨h.nodup_lru, List.nodup_singleton i, fun j hj k hk hjk =>
          hnot (List.mem_singleton.mp hk ▸ hjk ▸ hj)⟩
      · rw [List.mem_append, List.mem_singleton, or_iff_left hj]
      · rw [← hf₀.pinCount]
        exact ⟨fun _ => h0, fun _ => List.mem_append_right _ (List.mem_singleton_self i)⟩
    · rw [if_neg h0]
      refine ⟨hdone pool.lru h.nodup_lru (fun _ _ => Iff.rfl) ?_, rfl⟩
      rw [← hf₀.pinCount]
      exact ⟨fun hi => absurd hi hnot, fun h => absurd h h0⟩

/-- `flush_page` brings the data file up to the frame. -/
theorem wp_flushPage (h : Sound pool pins changed logical) (p : Nat) :
    wp (flushPage p)
      (fun _ pool' => Sound pool' pins changed logical ∧ pool'.pageTable = pool.pageTable ∧
        (¬changed p → pool'.disk[p]? = logical[p]?) ∧
        ∀ q, q ≠ p → pool'.disk[q]? = pool.disk[q]?)
      (fun _ _ => False) pool := by
  unfold flushPage
  rw [wp_bind, wp_get]
  cases hp : pool.frameOf p with
  | none => exact ⟨h, rfl, fun _ => (h.out p hp).2, fun _ _ => rfl⟩
  | some i =>
    obtain ⟨f₀, hf₀⟩ := h.resident p i hp
    have hlt : i < pool.frames.length := (List.getElem?_eq_some_iff.mp hf₀.frame).1
    have hbound : p < pool.disk.length := h.bound hf₀.data
    refine wp_bind.mpr (wp_getFrame hf₀.frame ?_)
    cases hd : f₀.dirty with
    | false =>
      rw [if_neg Bool.false_ne_true]
      refine ⟨h, rfl, fun hc => ?_, fun _ _ => rfl⟩
      rw [hf₀.clean hd hc, hf₀.data]
    | true =>
      rw [if_pos rfl]
      refine wp_bind.mpr (wp_writeBack (wp_setFrame ?_))
      have hwritten : (pool.disk.set p f₀.data)[p]? = some f₀.data := List.getElem?_set_self hbound
      refine ⟨?_, rfl, fun _ => hwritten.trans hf₀.data.symm, fun q hq => List.getElem?_set_ne hq.symm⟩
      refine h.touch (f := { f₀ with dirty := false }) hp ?_ rfl rfl List.length_set rfl
        (fun j hj => ⟨List.getElem?_set_ne hj.symm, Iff.rfl⟩)
        (fun q hq => ⟨List.getElem?_set_ne hq.symm, rfl, rfl, Iff.rfl⟩) h.nodup_lru (h.pinned p)
      exact ⟨List.getElem?_set_self hlt, hf₀.pageId, hf₀.pinCount, hf₀.data, fun _ _ => hwritten,
        hf₀.waits⟩

theorem wp_flushPages (h : Sound pool pins changed logical) (pageIds : List Nat) :
    wp (flushPages pageIds)
      (fun _ pool' => Sound pool' pins changed logical ∧ pool'.pageTable = pool.pageTable ∧
        ∀ p, ¬changed p → p ∈ pageIds ∨ pool.disk[p]? = logical[p]? → pool'.disk[p]? = logical[p]?)
      (fun _ _ => False) pool := by
  induction pageIds generalizing pool with
  | nil =>
    refine ⟨h, rfl, fun p _ hp => ?_⟩
    obtain hp | hp := hp
    · cases hp
    · exact hp
  | cons q pageIds ih =>
    refine wp_bind.mpr ((wp_flushPage h q).mono ?_ fun _ _ hf => hf.elim)
    rintro _ pool₁ ⟨h₁, htable, hflushed, hrest⟩
    refine (ih h₁).mono ?_ fun _ _ hf => hf
    rintro _ pool₂ ⟨h₂, htable₂, hall⟩
    refine ⟨h₂, htable₂.trans htable, fun p hc hp => hall p hc ?_⟩
    by_cases hpq : p = q
    · exact .inr (hpq ▸ hflushed (hpq ▸ hc))
    · obtain hp | hp := hp
      · exact .inl ((List.mem_cons.mp hp).resolve_left hpq)
      · exact .inr ((hrest p hpq).trans hp)

/-- `flush_all` brings the data file up to every frame. -/
theorem wp_flushAll (h : Sound pool pins changed logical) :
    wp flushAll
      (fun _ pool' => Sound pool' pins changed logical ∧ pool'.pageTable = pool.pageTable ∧
        ∀ p, ¬changed p → pool'.disk[p]? = logical[p]?)
      (fun _ _ => False) pool := by
  unfold flushAll
  rw [wp_bind, wp_get]
  refine (wp_flushPages h _).mono ?_ fun _ _ hf => hf
  rintro _ pool' ⟨h', htable, hall⟩
  refine ⟨h', htable, fun p hc => hall p hc ?_⟩
  cases hp : pool.frameOf p with
  | none => exact .inr (h.out p hp).2
  | some i =>
    obtain ⟨l, r, htable, -⟩ := List.lookup_eq_some_iff.mp hp
    refine .inl (List.mem_map.mpr ⟨(p, i), ?_, rfl⟩)
    rw [htable]
    exact List.mem_append_right l List.mem_cons_self

end BufferPool

/-! ## The clients -/

/-- A pin that a client holds: the page, the frame whose bytes it got, and whether it has
    changed them. -/
structure Handle where
  page : Nat
  frame : Nat
  modified : Bool

/-- The pool, the pins that are held on its pages, and the bytes last left in every page. -/
structure PoolClients (β : Type) where
  pool : BufferPool β
  handles : List Handle
  logical : List β

namespace PoolClients

open BufferPool

variable {β : Type}

def pinsOn (handles : List Handle) (p : Nat) : Nat := handles.countP (·.page = p)

def Changed (handles : List Handle) (p : Nat) : Prop :=
  ∃ h ∈ handles, h.page = p ∧ h.modified = true

def init (zeros : β) (disk : List β) (poolSize : Nat) : PoolClients β :=
  ⟨.init zeros disk poolSize, [], disk⟩

/-- A call that returns, or a client that writes to bytes it holds a pin on. A pin under which
    the bytes were changed is released as dirty. -/
inductive Step (zeros : β) : PoolClients β → PoolClients β → Prop where
  | fetchPage {pool pool' : BufferPool β} {handles : List Handle} {logical : List β} {p i : Nat}
      {data : β} (hcall : BufferPool.fetchPage p pool = .ok data pool') (hframe : pool'.frameOf p = some i) :
      Step zeros ⟨pool, handles, logical⟩ ⟨pool', ⟨p, i, false⟩ :: handles, logical⟩
  | newPage {pool pool' : BufferPool β} {handles : List Handle} {logical : List β} {p i : Nat}
      {data : β} (hcall : BufferPool.newPage zeros pool = .ok (p, data) pool')
      (hframe : pool'.frameOf p = some i) :
      Step zeros ⟨pool, handles, logical⟩ ⟨pool', ⟨p, i, false⟩ :: handles, logical ++ [zeros]⟩
  | write {pool : BufferPool β} {l r : List Handle} {h : Handle} {logical : List β} {f : Frame β}
      (data : β) (hframe : pool.frames[h.frame]? = some f) :
      Step zeros ⟨pool, l ++ h :: r, logical⟩
        ⟨{ pool with frames := pool.frames.set h.frame { f with data := data } },
          l ++ { h with modified := true } :: r, logical.set h.page data⟩
  | unpinPage {pool pool' : BufferPool β} {l r : List Handle} {h : Handle} {logical : List β}
      (dirty : Bool) (hdirty : h.modified = true → dirty = true)
      (hcall : BufferPool.unpinPage h.page dirty pool = .ok () pool') :
      Step zeros ⟨pool, l ++ h :: r, logical⟩ ⟨pool', l ++ r, logical⟩
  | flushPage {pool pool' : BufferPool β} {handles : List Handle} {logical : List β} {p : Nat}
      (hcall : flushPage p pool = .ok () pool') :
      Step zeros ⟨pool, handles, logical⟩ ⟨pool', handles, logical⟩
  | flushAll {pool pool' : BufferPool β} {handles : List Handle} {logical : List β}
      (hcall : flushAll pool = .ok () pool') :
      Step zeros ⟨pool, handles, logical⟩ ⟨pool', handles, logical⟩

inductive Reachable (zeros : β) (disk : List β) (poolSize : Nat) : PoolClients β → Prop where
  | init : Reachable zeros disk poolSize (init zeros disk poolSize)
  | step {c c' : PoolClients β} (hc : Reachable zeros disk poolSize c) (h : Step zeros c c') :
      Reachable zeros disk poolSize c'

/-! ### Counting pins -/

variable {pool pool' : BufferPool β} {zeros data : β} {disk logical : List β}
  {handles l r : List Handle} {h : Handle} {c c' : PoolClients β} {p i poolSize : Nat}

theorem pinsOn_cons (h : Handle) (handles : List Handle) :
    pinsOn (h :: handles) =
      Function.update (pinsOn handles) h.page (pinsOn handles h.page + 1) := by
  funext q
  by_cases hq : q = h.page
  · subst hq
    rw [Function.update_self, pinsOn, List.countP_cons_of_pos (by simp), pinsOn]
  · rw [Function.update_of_ne hq, pinsOn, List.countP_cons_of_neg (by simpa using Ne.symm hq), pinsOn]

theorem pinsOn_middle (l r : List Handle) (h : Handle) :
    pinsOn (l ++ h :: r) = pinsOn (h :: (l ++ r)) := by
  funext q
  exact List.perm_middle.countP_eq _

theorem pinsOn_ne_zero (hh : h ∈ handles) : pinsOn handles h.page ≠ 0 :=
  (List.countP_pos_iff.mpr ⟨h, hh, decide_eq_true rfl⟩).ne'

theorem changed_cons (p i : Nat) (handles : List Handle) :
    Changed (⟨p, i, false⟩ :: handles) = Changed handles := by
  funext q
  simp [Changed]

/-- Whether another page was changed does not depend on the pin. -/
theorem changed_middle (l r : List Handle) {h : Handle} {q : Nat} (hq : q ≠ h.page) :
    Changed (l ++ h :: r) q ↔ Changed (l ++ r) q := by
  constructor
  · rintro ⟨k, hk, rfl, hm⟩
    refine ⟨k, ?_, rfl, hm⟩
    obtain hk | hk := List.mem_append.mp hk
    · exact List.mem_append_left r hk
    · obtain rfl | hk := List.mem_cons.mp hk
      · exact absurd rfl hq
      · exact List.mem_append_right l hk
  · rintro ⟨k, hk, hp, hm⟩
    refine ⟨k, ?_, hp, hm⟩
    obtain hk | hk := List.mem_append.mp hk
    · exact List.mem_append_left _ hk
    · exact List.mem_append_right l (List.mem_cons_of_mem h hk)

/-! ### The invariant -/

structure Inv (c : PoolClients β) : Prop where
  sound : Sound c.pool (pinsOn c.handles) (Changed c.handles) c.logical
  held : ∀ h ∈ c.handles, c.pool.frameOf h.page = some h.frame

theorem inv_init (zeros : β) (disk : List β) (poolSize : Nat) : Inv (init zeros disk poolSize) where
  sound := by
    have hpins : pinsOn [] = fun _ => 0 := rfl
    have hchanged : Changed [] = fun _ => False := by
      funext p
      simp [Changed]
    rw [init, hpins, hchanged]
    exact sound_init zeros disk poolSize
  held h hh := by cases hh

/-- Pages with a pin stay where they are. -/
theorem Inv.held_of_keep (hc : Inv c)
    (hkeep : ∀ q, pinsOn c.handles q ≠ 0 → pool'.frameOf q = c.pool.frameOf q) :
    ∀ h ∈ c.handles, pool'.frameOf h.page = some h.frame := fun h hh =>
  (hkeep h.page (pinsOn_ne_zero hh)).trans (hc.held h hh)

theorem frameOf_of_table (h : pool'.pageTable = pool.pageTable) (q : Nat) :
    pool'.frameOf q = pool.frameOf q := by
  rw [frameOf, frameOf, h]

theorem Step.inv (hstep : Step zeros c c') (hc : Inv c) : Inv c' := by
  cases hstep with
  | @fetchPage pool pool' handles logical p i data hcall hframe =>
    obtain ⟨hsound, -, -, hkeep, -⟩ := (wp_fetchPage hc.sound p).ok hcall
    refine ⟨?_, fun h hh => ?_⟩
    · rw [pinsOn_cons, changed_cons]
      exact hsound
    · obtain rfl | hh := List.mem_cons.mp hh
      · exact hframe
      · exact hc.held_of_keep hkeep h hh
  | @newPage pool pool' handles logical p i data hcall hframe =>
    obtain ⟨-, hsound, -, hkeep, -⟩ := (wp_newPage hc.sound zeros).ok hcall
    refine ⟨?_, fun h hh => ?_⟩
    · rw [pinsOn_cons, changed_cons]
      exact hsound
    · obtain rfl | hh := List.mem_cons.mp hh
      · exact hframe
      · exact hc.held_of_keep hkeep h hh
  | @write pool l r h logical f data hframe =>
    have hmem : h ∈ l ++ h :: r := List.mem_append_right l List.mem_cons_self
    have hp := hc.held h hmem
    obtain ⟨f₀, hf₀⟩ := hc.sound.resident h.page h.frame hp
    obtain rfl := Option.some.inj (hf₀.frame.symm.trans hframe)
    have hlt : h.frame < pool.frames.length := (List.getElem?_eq_some_iff.mp hframe).1
    have hbound : h.page < logical.length := (List.getElem?_eq_some_iff.mp hf₀.data).1
    have hpins : pinsOn (l ++ { h with modified := true } :: r) = pinsOn (l ++ h :: r) := by
      rw [pinsOn_middle, pinsOn_middle, pinsOn_cons, pinsOn_cons]
    have hchanged : Changed (l ++ { h with modified := true } :: r) h.page :=
      ⟨{ h with modified := true }, List.mem_append_right l List.mem_cons_self, rfl, rfl⟩
    refine ⟨?_, fun k hk => ?_⟩
    · refine hc.sound.touch (f := { f₀ with data := data }) hp ?_ rfl rfl rfl List.length_set
        (fun j hj => ⟨List.getElem?_set_ne hj.symm, Iff.rfl⟩)
        (fun q hq => ⟨rfl, List.getElem?_set_ne hq.symm, congrFun hpins q, ?_⟩) hc.sound.nodup_lru
        fun _ => ?_
      · exact ⟨List.getElem?_set_self hlt, hf₀.pageId, hf₀.pinCount.trans (congrFun hpins _).symm,
          List.getElem?_set_self hbound, fun _ hno => absurd hchanged hno,
          hf₀.waits.trans (by rw [congrFun hpins])⟩
      · have hq' : q ≠ ({ h with modified := true } : Handle).page := hq
        exact (changed_middle l r hq').trans (changed_middle l r hq).symm
      · rw [congrFun hpins]
        exact pinsOn_ne_zero hmem
    · obtain hk | hk := List.mem_append.mp hk
      · exact hc.held k (List.mem_append_left _ hk)
      · obtain rfl | hk := List.mem_cons.mp hk
        · exact hp
        · exact hc.held k (List.mem_append_right l (List.mem_cons_of_mem h hk))
  | @unpinPage pool pool' l r h logical dirty hdirty hcall =>
    have hmem : h ∈ l ++ h :: r := List.mem_append_right l List.mem_cons_self
    have hsub : ∀ k ∈ l ++ r, k ∈ l ++ h :: r := fun k hk =>
      (List.mem_append.mp hk).elim (fun hk => List.mem_append_left _ hk)
        fun hk => List.mem_append_right l (List.mem_cons_of_mem h hk)
    have hpins : pinsOn (l ++ h :: r) h.page = pinsOn (l ++ r) h.page + 1 := by
      rw [pinsOn_middle, pinsOn_cons, Function.update_self]
    have hreleased : Changed (l ++ h :: r) h.page → Changed (l ++ r) h.page ∨ dirty = true := by
      rintro ⟨k, hk, hkp, hkm⟩
      obtain hk | hk := List.mem_append.mp hk
      · exact .inl ⟨k, List.mem_append_left r hk, hkp, hkm⟩
      · obtain rfl | hk := List.mem_cons.mp hk
        · exact .inr (hdirty hkm)
        · exact .inl ⟨k, List.mem_append_right l hk, hkp, hkm⟩
    have hpinned : Changed (l ++ r) h.page → pinsOn (l ++ h :: r) h.page ≠ 1 := by
      rintro ⟨k, hk, hkp, -⟩
      have hne := pinsOn_ne_zero hk
      rw [hkp] at hne
      omega
    have hrest : Function.update (pinsOn (l ++ h :: r)) h.page (pinsOn (l ++ h :: r) h.page - 1) =
        pinsOn (l ++ r) := by
      rw [hpins, Nat.add_sub_cancel, pinsOn_middle, pinsOn_cons, Function.update_idem,
        Function.update_eq_self]
    obtain ⟨hsound, htable⟩ := (wp_unpinPage hc.sound (pinsOn_ne_zero hmem)
      (fun q hq => (changed_middle l r hq).symm) hreleased hpinned).ok hcall
    rw [hrest] at hsound
    exact ⟨hsound, fun k hk => (frameOf_of_table htable k.page).trans (hc.held k (hsub k hk))⟩
  | flushPage hcall =>
    obtain ⟨hsound, htable, -, -⟩ := (wp_flushPage hc.sound _).ok hcall
    exact ⟨hsound, fun h hh => (frameOf_of_table htable h.page).trans (hc.held h hh)⟩
  | flushAll hcall =>
    obtain ⟨hsound, htable, -⟩ := (wp_flushAll hc.sound).ok hcall
    exact ⟨hsound, fun h hh => (frameOf_of_table htable h.page).trans (hc.held h hh)⟩

theorem Reachable.inv (h : Reachable zeros disk poolSize c) : Inv c := by
  induction h with
  | init => exact inv_init zeros disk poolSize
  | step _ hstep ih => exact hstep.inv ih

/-- The pool is a transparent cache: a page comes back as it was last left, a new one as zeros,
    a page with a pin stays in the frame it was found in, no page is in two frames, and after a
    `flush_all` without pins the data file holds every page. -/
theorem Reachable.transparent (h : Reachable zeros disk poolSize c) :
    (∀ p data pool', BufferPool.fetchPage p c.pool = .ok data pool' → c.logical[p]? = some data) ∧
    (∀ p data pool', BufferPool.newPage zeros c.pool = .ok (p, data) pool' →
      p = c.logical.length ∧ data = zeros) ∧
    (∀ k ∈ c.handles, ∃ f, c.pool.frames[k.frame]? = some f ∧ f.pageId = some k.page ∧
      c.logical[k.page]? = some f.data) ∧
    (∀ (i j : Nat) (f g : Frame β) (p : Nat), c.pool.frames[i]? = some f → c.pool.frames[j]? = some g → f.pageId = some p →
      g.pageId = some p → i = j) ∧
    (∀ pool', c.handles = [] → flushAll c.pool = .ok () pool' →
      ∀ p : Nat, pool'.disk[p]? = c.logical[p]?) := by
  have hc := h.inv
  refine ⟨fun p data pool' hcall => ?_, fun p data pool' hcall => ?_, fun k hk => ?_,
    fun i j f g p hf hg hp hp' => hc.sound.frame_unique hf hg hp hp', fun pool' hnone hcall p => ?_⟩
  · exact ((wp_fetchPage hc.sound p).ok hcall).2.1
  · have hr := ((wp_newPage hc.sound zeros).ok hcall).1
    cases hr
    exact ⟨rfl, rfl⟩
  · obtain ⟨f, hf⟩ := hc.sound.resident k.page k.frame (hc.held k hk)
    exact ⟨f, hf.frame, hf.pageId, hf.data⟩
  · refine ((wp_flushAll hc.sound).ok hcall).2.2 p ?_
    rw [hnone]
    rintro ⟨k, hk, -⟩
    cases hk

/-- A pool of one frame after two new pages: the first was written and had to leave. -/
def evicted : PoolClients Nat where
  pool := ⟨[7, 0], [⟨some 1, 0, 1, false⟩], [(1, 0)], [], [], 0, 1, 0⟩
  handles := [⟨1, 0, false⟩]
  logical := [7, 0]

theorem reachable_evicted : Reachable 0 [] 1 evicted := by
  have h₁ : Reachable 0 [] 1 _ := Reachable.init.step (.newPage (i := 0) rfl rfl)
  have h₂ : Reachable 0 [] 1 _ := h₁.step (.write (l := []) 7 rfl)
  have h₃ : Reachable 0 [] 1 _ := h₂.step (.unpinPage (l := []) true (fun _ => rfl) rfl)
  exact h₃.step (.newPage (i := 0) rfl rfl)

theorem transparent_evicted :
    (∀ p data pool', BufferPool.fetchPage p evicted.pool = .ok data pool' → [7, 0][p]? = some data) ∧
    (∀ p data pool', BufferPool.newPage 0 evicted.pool = .ok (p, data) pool' → p = 2 ∧ data = 0) := by
  obtain ⟨hfetch, hnew, -⟩ := reachable_evicted.transparent
  exact ⟨hfetch, hnew⟩

end PoolClients
end Minirel
