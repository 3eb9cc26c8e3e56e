-- SUMMARY: Which calls on the buffer pool lose a frame.
import Minirel.Storage.Transparent

/-!
# Frames

Every frame is free, waits to be evicted or is pinned, as long as no call fetches a page
that the data file does not have while there is a frame to be had: the frame is taken out of
its list before the read, and the read raises.
-/

namespace Minirel
namespace BufferPool

variable {β : Type} {pool pool' : BufferPool β} {taken : Option Nat} {p q i j : Nat} {f g : Frame β}
  {data zeros : β}

/-! ## The places of the frames -/

/-- A page is in the frame, and the frame has so many pins. -/
def Holds (pool : BufferPool β) (i : Nat) (pins : Nat → Prop) : Prop :=
  ∃ p f, pool.frameOf p = some i ∧ pool.frames[i]? = some f ∧ f.pageId = some p ∧ pins f.pinCount

/-- Every frame is in exactly one place: the free list, the queue of frames whose page has no
    pin, or the frames whose page has pins. The page table maps the resident pages one to
    one onto the frames that are not free. -/
structure Partitioned (pool : BufferPool β) : Prop where
  place : ∀ i < pool.frames.length,
    i ∈ pool.freeFrames ∧ i ∉ pool.lru ∧ ¬pool.Holds i (0 < ·) ∨
    i ∉ pool.freeFrames ∧ i ∈ pool.lru ∧ ¬pool.Holds i (0 < ·) ∨
    i ∉ pool.freeFrames ∧ i ∉ pool.lru ∧ pool.Holds i (0 < ·)
  free_lt : ∀ i ∈ pool.freeFrames, i < pool.frames.length
  nodup_free : pool.freeFrames.Nodup
  waiting : ∀ i ∈ pool.lru, i < pool.frames.length ∧ pool.Holds i (· = 0)
  nodup_lru : pool.lru.Nodup
  table : ∀ p i, pool.frameOf p = some i → i < pool.frames.length ∧ i ∉ pool.freeFrames
  injective : ∀ p q i, pool.frameOf p = some i → pool.frameOf q = some i → p = q
  onto : ∀ i < pool.frames.length, i ∉ pool.freeFrames → ∃ p, pool.frameOf p = some i

/-- A page in its frame, which is not free and was not taken out of its list. -/
structure InFrame (pool : BufferPool β) (taken : Option Nat) (p i : Nat) (f : Frame β) : Prop where
  frame : pool.frames[i]? = some f
  pageId : f.pageId = some p
  waits : i ∈ pool.lru ↔ f.pinCount = 0
  notFree : i ∉ pool.freeFrames
  notTaken : taken ≠ some i
  onDisk : p < pool.disk.length

/-- What holds of the pool where at most one frame has been taken out of its list and is not in
    use yet. -/
structure Kept (pool : BufferPool β) (taken : Option Nat) : Prop where
  free_lt : ∀ i ∈ pool.freeFrames, i < pool.frames.length
  nodup_free : pool.freeFrames.Nodup
  nodup_lru : pool.lru.Nodup
  resident : ∀ p i, pool.frameOf p = some i → ∃ f, InFrame pool taken p i f
  waiting : ∀ i ∈ pool.lru, ∃ p, pool.frameOf p = some i
  covered : ∀ i < pool.frames.length, i ∈ pool.freeFrames ∨ taken = some i ∨ ∃ p, pool.frameOf p = some i
  takenFrame : ∀ i, taken = some i → i < pool.frames.length ∧ i ∉ pool.freeFrames

theorem kept_init (zeros : β) (disk : List β) (poolSize : Nat) : Kept (init zeros disk poolSize) none where
  free_lt i hi := by simpa [init] using hi
  nodup_free := List.nodup_range
  nodup_lru := List.nodup_nil
  resident p i h := by cases h
  waiting i hi := by cases hi
  covered i hi := .inl (by simpa [init] using hi)
  takenFrame i hi := by cases hi

theorem InFrame.lt (h : InFrame pool taken p i f) : i < pool.frames.length :=
  (List.getElem?_eq_some_iff.mp h.frame).1

theorem Kept.page_unique (h : Kept pool taken) (hp : pool.frameOf p = some i)
    (hq : pool.frameOf q = some i) : p = q := by
  obtain ⟨f, hf⟩ := h.resident p i hp
  obtain ⟨g, hg⟩ := h.resident q i hq
  obtain rfl := Option.some.inj (hf.frame.symm.trans hg.frame)
  exact Option.some.inj (hf.pageId.symm.trans hg.pageId)

/-- The counters are not part of it, and pages may be added to the data file. -/
theorem Kept.of_same (h : Kept pool taken) (hframes : pool'.frames = pool.frames)
    (htable : pool'.pageTable = pool.pageTable) (hfree : pool'.freeFrames = pool.freeFrames)
    (hlru : pool'.lru = pool.lru) (hdisk : pool.disk.length ≤ pool'.disk.length) : Kept pool' taken := by
  have hframeOf : ∀ q, pool'.frameOf q = pool.frameOf q := fun q => by rw [frameOf, frameOf, htable]
  constructor
  · rw [hfree, hframes]
    exact h.free_lt
  · rw [hfree]
    exact h.nodup_free
  · rw [hlru]
    exact h.nodup_lru
  · intro q j hq
    obtain ⟨g, hg⟩ := h.resident q j (hframeOf q ▸ hq)
    exact ⟨g, ⟨hframes ▸ hg.frame, hg.pageId, hlru ▸ hg.waits, hfree ▸ hg.notFree, hg.notTaken,
      hg.onDisk.trans_le hdisk⟩⟩
  · intro j hj
    obtain ⟨q, hq⟩ := h.waiting j (hlru ▸ hj)
    exact ⟨q, (hframeOf q).trans hq⟩
  · intro j hj
    simp only [hframeOf, hfree]
    exact h.covered j (hframes ▸ hj)
  · rw [hframes, hfree]
    exact h.takenFrame

/-- Between the calls no frame is taken. -/
theorem Kept.partitioned (h : Kept pool none) : Partitioned pool where
  place i hi := by
    obtain hfree | hnone | ⟨p, hp⟩ := h.covered i hi
    · have hno : ∀ p, pool.frameOf p ≠ some i := fun p hp => by
        obtain ⟨f, hf⟩ := h.resident p i hp
        exact hf.notFree hfree
      refine .inl ⟨hfree, fun hlru => ?_, fun ⟨p, f, hp, _⟩ => hno p hp⟩
      obtain ⟨p, hp⟩ := h.waiting i hlru
      exact hno p hp
    · cases hnone
    · obtain ⟨f, hf⟩ := h.resident p i hp
      by_cases hpins : f.pinCount = 0
      · refine .inr (.inl ⟨hf.notFree, hf.waits.mpr hpins, fun ⟨q, g, _, hg, _, hpos⟩ => ?_⟩)
        obtain rfl := Option.some.inj (hf.frame.symm.trans hg)
        exact absurd hpins hpos.ne'
      · exact .inr (.inr ⟨hf.notFree, fun hlru => hpins (hf.waits.mp hlru),
          ⟨p, f, hp, hf.frame, hf.pageId, Nat.pos_of_ne_zero hpins⟩⟩)
  free_lt := h.free_lt
  nodup_free := h.nodup_free
  waiting i hi := by
    obtain ⟨p, hp⟩ := h.waiting i hi
    obtain ⟨f, hf⟩ := h.resident p i hp
    exact ⟨hf.lt, p, f, hp, hf.frame, hf.pageId, hf.waits.mp hi⟩
  nodup_lru := h.nodup_lru
  table p i hp := by
    obtain ⟨f, hf⟩ := h.resident p i hp
    exact ⟨hf.lt, hf.notFree⟩
  injective p q i hp hq := h.page_unique hp hq
  onto i hi hfree := by
    obtain h | h | h := h.covered i hi
    · exact absurd h hfree
    · cases h
    · exact h

/-- A frame that stays taken is lost. -/
theorem Kept.not_partitioned (h : Kept pool (some i)) : ¬Partitioned pool := by
  intro hpartitioned
  obtain ⟨hlt, hfree⟩ := h.takenFrame i rfl
  obtain ⟨p, hp⟩ := hpartitioned.onto i hlt hfree
  obtain ⟨f, hf⟩ := h.resident p i hp
  exact hf.notTaken rfl

/-! ## Steps -/

/-- A call that deals with one page in its frame. -/
theorem Kept.touch (h : Kept pool none) (hp : pool.frameOf p = some i)
    (hframes : pool'.frames = pool.frames.set i f) (hpage : f.pageId = some p)
    (htable : pool'.pageTable = pool.pageTable) (hfree : pool'.freeFrames = pool.freeFrames)
    (hdisk : pool'.disk.length = pool.disk.length) (hlru : ∀ j, j ≠ i → (j ∈ pool'.lru ↔ j ∈ pool.lru))
    (hwaits : i ∈ pool'.lru ↔ f.pinCount = 0) (hnodup : pool'.lru.Nodup) : Kept pool' none := by
  have hframeOf : ∀ q, pool'.frameOf q = pool.frameOf q := fun q => by rw [frameOf, frameOf, htable]
  have hlength : pool'.frames.length = pool.frames.length := by rw [hframes, List.length_set]
  obtain ⟨f₀, hf₀⟩ := h.resident p i hp
  constructor
  · intro j hj
    rw [hlength]
    exact h.free_lt j (hfree ▸ hj)
  · rw [hfree]
    exact h.nodup_free
  · exact hnodup
  · intro q j hq
    rw [hframeOf] at hq
    by_cases hj : j = i
    · subst hj
      obtain rfl := h.page_unique hp hq
      refine ⟨f, ⟨?_, hpage, hwaits, hfree ▸ hf₀.notFree, (Option.some_ne_none _).symm, hdisk ▸ hf₀.onDisk⟩⟩
      rw [hframes]
      exact List.getElem?_set_self hf₀.lt
    · obtain ⟨g, hg⟩ := h.resident q j hq
      refine ⟨g, ⟨?_, hg.pageId, (hlru j hj).trans hg.waits, hfree ▸ hg.notFree, (Option.some_ne_none _).symm,
        hdisk ▸ hg.onDisk⟩⟩
      rw [hframes, List.getElem?_set_ne (Ne.symm hj)]
      exact hg.frame
  · intro j hj
    by_cases hji : j = i
    · exact ⟨p, (hframeOf p).trans (hji ▸ hp)⟩
    · obtain ⟨q, hq⟩ := h.waiting j ((hlru j hji).mp hj)
      exact ⟨q, (hframeOf q).trans hq⟩
  · intro j hj
    rw [hlength] at hj
    obtain h | h | ⟨q, hq⟩ := h.covered j hj
    · exact .inl (hfree ▸ h)
    · cases h
    · exact .inr (.inr ⟨q, (hframeOf q).trans hq⟩)
  · exact fun j hj => by cases hj

/-- A frame of the free list is taken. -/
theorem Kept.take_free (h : Kept pool none) (hlast : pool.freeFrames.getLast? = some i) :
    Kept { pool with freeFrames := pool.freeFrames.dropLast } (some i) := by
  obtain ⟨l, hl⟩ := List.getLast?_eq_some_iff.mp hlast
  have hdrop : pool.freeFrames.dropLast = l := by rw [hl, List.dropLast_concat]
  have hnodup := h.nodup_free
  rw [hl, List.nodup_append] at hnodup
  obtain ⟨hnodup, -, hdisjoint⟩ := hnodup
  have hi : i ∈ pool.freeFrames := List.mem_of_getLast? hlast
  have hsub : ∀ j ∈ l, j ∈ pool.freeFrames := fun j hj => hl ▸ List.mem_append_left _ hj
  rw [hdrop]
  constructor
  · exact fun j hj => h.free_lt j (hsub j hj)
  · exact hnodup
  · exact h.nodup_lru
  · intro q j hq
    obtain ⟨g, hg⟩ := h.resident q j hq
    refine ⟨g, ⟨hg.frame, hg.pageId, hg.waits, fun hj => hg.notFree (hsub j hj), ?_, hg.onDisk⟩⟩
    rintro ⟨⟩
    exact hg.notFree hi
  · exact h.waiting
  · intro j hj
    obtain hfree | hnone | hq := h.covered j hj
    · rw [hl] at hfree
      obtain hmem | hmem := List.mem_append.mp hfree
      · exact .inl hmem
      · exact .inr (.inl (congrArg some (List.mem_singleton.mp hmem).symm))
    · cases hnone
    · exact .inr (.inr hq)
  · rintro j ⟨⟩
    exact ⟨h.free_lt i hi, fun hj => hdisjoint i hj i (List.mem_singleton_self i) rfl⟩

/-- The frame in front of the queue is taken, and its page leaves the table. -/
theorem Kept.take_lru (h : Kept pool none) {lru : List Nat} (hlru : pool.lru = i :: lru)
    (hp : pool.frameOf p = some i) {disk : List β} {diskWrites : Nat} (hdisk : disk.length = pool.disk.length) :
    Kept
      { pool with
        disk := disk, diskWrites := diskWrites, lru := lru,
        pageTable := pool.pageTable.filter fun x => x.1 ≠ p }
      (some i) := by
  have hnodup := h.nodup_lru
  rw [hlru, List.nodup_cons] at hnodup
  obtain ⟨f₀, hf₀⟩ := h.resident p i hp
  have hother : ∀ {q j}, pool.frameOf q = some j → q ≠ p → j ≠ i := by
    rintro q j hq hqp rfl
    exact hqp (h.page_unique hq hp)
  constructor
  · exact h.free_lt
  · exact h.nodup_free
  · exact hnodup.2
  · intro q j hq
    rw [frameOf, frameOf_filter] at hq
    by_cases hqp : q = p
    · rw [if_pos hqp] at hq
      cases hq
    rw [if_neg hqp] at hq
    obtain ⟨g, hg⟩ := h.resident q j hq
    have hj := hother hq hqp
    refine ⟨g, ⟨hg.frame, hg.pageId, ?_, hg.notFree, fun heq => hj (Option.some.inj heq).symm,
      hdisk ▸ hg.onDisk⟩⟩
    rw [← hg.waits, hlru, List.mem_cons]
    exact ⟨.inr, fun hmem => hmem.resolve_left hj⟩
  · intro j hj
    obtain ⟨q, hq⟩ := h.waiting j (hlru ▸ List.mem_cons_of_mem i hj)
    refine ⟨q, ?_⟩
    rw [frameOf, frameOf_filter, if_neg, hq]
    rintro rfl
    obtain rfl := Option.some.inj (hp.symm.trans hq)
    exact hnodup.1 hj
  · intro j hj
    obtain hfree | hnone | ⟨q, hq⟩ := h.covered j hj
    · exact .inl hfree
    · cases hnone
    · by_cases hqp : q = p
      · subst hqp
        exact .inr (.inl (hp.symm.trans hq))
      · refine .inr (.inr ⟨q, ?_⟩)
        rw [frameOf, frameOf_filter, if_neg hqp, hq]
  · rintro j ⟨⟩
    exact ⟨hf₀.lt, hf₀.notFree⟩

/-- A frame is taken out of its list, unless there is none. -/
theorem kept_evictOne (h : Kept pool none) :
    wp evictOne
      (fun i pool' => Kept pool' (some i) ∧ pool'.disk.length = pool.disk.length ∧
        (∀ q, pool.frameOf q = none → pool'.frameOf q = none) ∧ ¬(pool.freeFrames = [] ∧ pool.lru = []))
      (fun _ pool' => pool' = pool ∧ pool.freeFrames = [] ∧ pool.lru = []) pool := by
  unfold evictOne
  rw [wp_bind, wp_get]
  dsimp only
  split
  case h_1 i hlast =>
    refine ⟨h.take_free hlast, rfl, fun _ hq => hq, fun hnone => ?_⟩
    rw [hnone.1] at hlast
    cases hlast
  case h_2 hlast =>
    split
    case h_1 hlru => exact ⟨rfl, List.getLast?_eq_none_iff.mp hlast, hlru⟩
    case h_2 i lru hlru =>
      have hi : i ∈ pool.lru := hlru ▸ List.mem_cons_self
      obtain ⟨p, hp⟩ := h.waiting i hi
      obtain ⟨f, hf⟩ := h.resident p i hp
      have hsome : ¬(pool.freeFrames = [] ∧ pool.lru = []) := fun hnone => by
        rw [hnone.2] at hlru
        cases hlru
      have hout : ∀ q, pool.frameOf q = none →
          (pool.pageTable.filter fun x => x.1 ≠ p).lookup q = none := fun q hq => by
        rw [frameOf_filter, hq, ite_self]
      have hlength : (pool.disk.set p f.data).length = pool.disk.length := List.length_set
      refine wp_bind.mpr (wp_set.mpr (wp_bind.mpr (wp_getFrame hf.frame (wp_bind.mpr
        (wp_pageOf hf.pageId ?_)))))
      split
      · exact wp_bind.mpr (wp_writeBack (wp_bind.mpr (wp_delPage hp
          ⟨h.take_lru hlru hp hlength, hlength, hout, hsome⟩)))
      · exact wp_bind.mpr (wp_delPage hp ⟨h.take_lru hlru hp rfl, rfl, hout, hsome⟩)

/-- A page is read into the frame that was taken. -/
theorem kept_install (h : Kept pool (some i)) (hp : pool.frameOf p = none) (hdisk : p < pool.disk.length)
    (data : β) : wp (install p i data) (fun _ pool' => Kept pool' none) (fun _ _ => False) pool := by
  obtain ⟨hlt, hfree⟩ := h.takenFrame i rfl
  have hother : ∀ {q j}, pool.frameOf q = some j → j ≠ i := by
    rintro q j hq rfl
    obtain ⟨g, hg⟩ := h.resident q j hq
    exact hg.notTaken rfl
  have hlru : i ∉ pool.lru := fun hi => by
    obtain ⟨q, hq⟩ := h.waiting i hi
    exact hother hq rfl
  have hself : ∀ f : Frame β, (pool.frames.set i f)[i]? = some f := fun f => List.getElem?_set_self hlt
  have hframeOf : ∀ q, ((pool.pageTable.filter fun x => x.1 ≠ p) ++ [(p, i)]).lookup q =
      if q = p then some i else pool.frameOf q := frameOf_set pool p i
  unfold install
  refine wp_bind.mpr (wp_setFrame (wp_bind.mpr (wp_setPage ?_)))
  refine wp_bind.mpr (wp_getFrame (hself _) (wp_bind.mpr (wp_setFrame ?_)))
  rw [wp_modify]
  dsimp only
  rw [List.set_set, List.erase_of_not_mem hlru]
  constructor
  · intro j hj
    exact (h.free_lt j hj).trans_eq List.length_set.symm
  · exact h.nodup_free
  · exact h.nodup_lru
  · intro q j hq
    rw [frameOf, hframeOf] at hq
    by_cases hqp : q = p
    · subst hqp
      rw [if_pos rfl, Option.some.injEq] at hq
      subst hq
      have hwaits : i ∈ pool.lru ↔ 0 + 1 = 0 := iff_of_false hlru (Nat.succ_ne_zero 0)
      exact ⟨_, ⟨hself _, rfl, hwaits, hfree, (Option.some_ne_none _).symm, hdisk⟩⟩
    · rw [if_neg hqp] at hq
      obtain ⟨g, hg⟩ := h.resident q j hq
      exact ⟨g, ⟨(List.getElem?_set_ne (hother hq).symm).trans hg.frame, hg.pageId, hg.waits, hg.notFree,
        (Option.some_ne_none _).symm, hg.onDisk⟩⟩
  · intro j hj
    obtain ⟨q, hq⟩ := h.waiting j hj
    have hne : q ≠ p := by
      rintro rfl
      cases hp.symm.trans hq
    exact ⟨q, (hframeOf q).trans ((if_neg hne).trans hq)⟩
  · intro j hj
    obtain hj | hj | ⟨q, hq⟩ := h.covered j (hj.trans_eq List.length_set)
    · exact .inl hj
    · exact .inr (.inr ⟨p, (hframeOf p).trans ((if_pos rfl).trans hj)⟩)
    · have hne : q ≠ p := by
        rintro rfl
        cases hp.symm.trans hq
      exact .inr (.inr ⟨q, (hframeOf q).trans ((if_neg hne).trans hq)⟩)
  · exact fun j hj => by cases hj

theorem kept_pin (h : Kept pool none) (hp : pool.frameOf p = some i) :
    wp (pin i) (fun _ pool' => Kept pool' none ∧ ∃ f, pool'.frames[i]? = some f) (fun _ _ => False) pool := by
  obtain ⟨f, hf⟩ := h.resident p i hp
  unfold pin
  refine wp_bind.mpr (wp_getFrame hf.frame (wp_bind.mpr (wp_setFrame ?_)))
  rw [wp_modify]
  refine ⟨?_, _, List.getElem?_set_self hf.lt⟩
  refine h.touch hp rfl hf.pageId rfl rfl rfl (fun j hj => List.mem_erase_of_ne hj) ?_ (h.nodup_lru.erase i)
  exact ⟨fun hi => absurd hi h.nodup_lru.not_mem_erase, nofun⟩

/-! ## The calls -/

/-- A call on the pool, or a client that changes the bytes of a frame. -/
inductive Call (β : Type) where
  | fetchPage (p : Nat)
  | newPage
  | unpinPage (p : Nat) (dirty : Bool)
  | flushPage (p : Nat)
  | flushAll
  | write (i : Nat) (data : β)

/-- The call itself. -/
def Call.perform (zeros : β) : Call β → PoolM β Unit
  | fetchPage p => do let _ ← BufferPool.fetchPage p
  | newPage => do let _ ← BufferPool.newPage zeros
  | unpinPage p dirty => BufferPool.unpinPage p dirty
  | flushPage p => BufferPool.flushPage p
  | flushAll => BufferPool.flushAll
  | write i data => fun pool =>
    match pool.frames[i]? with
    | some f => .ok () { pool with frames := pool.frames.set i { f with data := data } }
    | none => .ok () pool

/-- The pool after a call, whether it has returned or raised. -/
def Call.after (zeros : β) (call : Call β) (pool : BufferPool β) : BufferPool β :=
  match call.perform zeros pool with
  | .ok _ pool' | .error _ pool' => pool'

/-- A page that is fetched is in a frame or in the data file, or there is no frame to be had. -/
def Call.Safe (pool : BufferPool β) : Call β → Prop
  | fetchPage p => pool.frameOf p ≠ none ∨ p < pool.disk.length ∨ pool.freeFrames = [] ∧ pool.lru = []
  | _ => True

theorem kept_fetchPage (h : Kept pool none) (p : Nat) :
    wp (fetchPage p) (fun _ pool' => Kept pool' none ∧ (Call.fetchPage p : Call β).Safe pool)
      (fun _ pool' => Kept pool' none ∧ (Call.fetchPage p : Call β).Safe pool ∨
        (∃ i, Kept pool' (some i)) ∧ ¬(Call.fetchPage p : Call β).Safe pool) pool := by
  unfold fetchPage
  rw [wp_bind, wp_get]
  cases hp : pool.frameOf p with
  | some i =>
    have hsafe : (Call.fetchPage p : Call β).Safe pool := .inl (by rw [hp]; exact Option.some_ne_none i)
    have h' : Kept { pool with cacheHits := pool.cacheHits + 1 } none := h.of_same rfl rfl rfl rfl le_rfl
    refine wp_bind.mpr (wp_modify.mpr (wp_bind.mpr ((kept_pin h' hp).mono ?_ fun _ _ hf => hf.elim)))
    rintro _ pool₁ ⟨h₁, f, hf⟩
    exact wp_bind.mpr (wp_getFrame hf ⟨h₁, hsafe⟩)
  | none =>
    refine wp_bind.mpr ((kept_evictOne h).mono ?_ fun e pool₁ hfull => ?_)
    · rintro i pool₁ ⟨h₁, hlength, hout, hsome⟩
      rw [wp_bind]
      cases hdata : pool₁.disk[p]? with
      | some data =>
        have hlt : p < pool₁.disk.length := (List.getElem?_eq_some_iff.mp hdata).1
        have h₂ : Kept { pool₁ with diskReads := pool₁.diskReads + 1 } (some i) :=
          h₁.of_same rfl rfl rfl rfl le_rfl
        refine wp_readPage hdata (wp_bind.mpr (wp_modify.mpr (wp_bind.mpr
          ((kept_install h₂ (hout p hp) hlt data).mono (fun _ pool₃ h₃ => ?_) fun _ _ hf => hf.elim))))
        exact ⟨h₃, .inr (.inl (hlength ▸ hlt))⟩
      | none =>
        -- the frame that was taken for the page is lost
        refine (wp_of_error (readPage_missing hdata)).mpr (.inr ⟨⟨i, h₁⟩, ?_⟩)
        have hle := List.getElem?_eq_none_iff.mp hdata
        rintro (hin | hlt | hnone)
        · exact hin hp
        · omega
        · exact hsome hnone
    · obtain ⟨rfl, hnone⟩ := hfull
      exact .inl ⟨h, .inr (.inr hnone)⟩

theorem kept_newPage (h : Kept pool none) (zeros : β) :
    wp (newPage zeros) (fun _ pool' => Kept pool' none) (fun _ pool' => Kept pool' none) pool := by
  have hfresh : pool.frameOf pool.disk.length = none := by
    cases hp : pool.frameOf pool.disk.length with
    | none => rfl
    | some i =>
      obtain ⟨f, hf⟩ := h.resident _ i hp
      exact absurd hf.onDisk (lt_irrefl _)
  have hgrown : pool.disk.length < (pool.disk ++ [zeros]).length := by
    rw [List.length_append]
    exact Nat.lt_succ_self _
  have h' : Kept { pool with disk := pool.disk ++ [zeros] } none := h.of_same rfl rfl rfl rfl hgrown.le
  unfold newPage
  refine wp_bind.mpr (wp_allocatePage (wp_bind.mpr ((kept_evictOne h').mono ?_ fun _ pool₁ hfull => ?_)))
  · rintro i pool₁ ⟨h₁, hlength, hout, -⟩
    exact wp_bind.mpr ((kept_install h₁ (hout _ hfresh) (hlength ▸ hgrown) zeros).mono (fun _ _ h₂ => h₂)
      fun _ _ hf => hf.elim)
  · rw [hfull.1]
    exact h'

theorem kept_unpinPage (h : Kept pool none) (p : Nat) (dirty : Bool) :
    wp (unpinPage p dirty) (fun _ pool' => Kept pool' none) (fun _ _ => False) pool := by
  unfold unpinPage
  rw [wp_bind, wp_get]
  cases hp : pool.frameOf p with
  | none => exact h
  | some i =>
    obtain ⟨f, hf⟩ := h.resident p i hp
    refine wp_bind.mpr (wp_getFrame hf.frame (wp_bind.mpr (wp_setFrame ?_)))
    split
    · rename_i hzero
      rw [wp_modify]
      refine h.touch hp rfl hf.pageId rfl rfl rfl (fun j hj => ?_) ⟨fun _ => hzero, fun _ => ?_⟩ ?_
      · dsimp only
        split
        · exact Iff.rfl
        · rw [List.mem_append, List.mem_singleton]
          exact ⟨fun hmem => hmem.resolve_right hj, .inl⟩
      · dsimp only
        split
        · assumption
        · exact List.mem_append_right _ (List.mem_singleton_self i)
      · dsimp only
        split
        · exact h.nodup_lru
        · rename_i hi
          exact h.nodup_lru.append (List.nodup_singleton i) (List.disjoint_singleton.mpr hi)
    · rename_i hpins
      refine h.touch hp rfl hf.pageId rfl rfl rfl (fun _ _ => Iff.rfl) ?_ h.nodup_lru
      exact hf.waits.trans ⟨fun hzero => absurd (by rw [hzero]) hpins, fun hzero => absurd hzero hpins⟩

theorem kept_flushPage (h : Kept pool none) (p : Nat) :
    wp (flushPage p) (fun _ pool' => Kept pool' none) (fun _ _ => False) pool := by
  unfold flushPage
  rw [wp_bind, wp_get]
  cases hp : pool.frameOf p with
  | none => exact h
  | some i =>
    obtain ⟨f, hf⟩ := h.resident p i hp
    refine wp_bind.mpr (wp_getFrame hf.frame ?_)
    split
    · refine wp_bind.mpr (wp_writeBack (wp_setFrame ?_))
      exact h.touch hp rfl hf.pageId rfl rfl List.length_set (fun _ _ => Iff.rfl) hf.waits h.nodup_lru
    · exact h

theorem kept_flushPages (h : Kept pool none) (pageIds : List Nat) :
    wp (flushPages pageIds) (fun _ pool' => Kept pool' none) (fun _ _ => False) pool := by
  induction pageIds generalizing pool with
  | nil => exact h
  | cons p pageIds ih =>
    rw [flushPages]
    exact wp_bind.mpr ((kept_flushPage h p).mono (fun _ _ h' => ih h') fun _ _ hf => hf)

theorem kept_write (h : Kept pool none) (zeros : β) (i : Nat) (data : β) :
    Kept ((Call.write i data).after zeros pool) none := by
  simp only [Call.after, Call.perform]
  cases hframe : pool.frames[i]? with
  | none => exact h
  | some f =>
    have hlt : i < pool.frames.length := (List.getElem?_eq_some_iff.mp hframe).1
    obtain hfree | hnone | ⟨p, hp⟩ := h.covered i hlt
    · -- a free frame is no page's
      have hother : ∀ {q j}, pool.frameOf q = some j → i ≠ j := by
        rintro q j hq rfl
        obtain ⟨g, hg⟩ := h.resident q i hq
        exact hg.notFree hfree
      refine ⟨fun j hj => (h.free_lt j hj).trans_eq List.length_set.symm, h.nodup_free, h.nodup_lru,
        fun q j hq => ?_, h.waiting, fun j hj => h.covered j (hj.trans_eq List.length_set), nofun⟩
      obtain ⟨g, hg⟩ := h.resident q j hq
      exact ⟨g, ⟨(List.getElem?_set_ne (hother hq)).trans hg.frame, hg.pageId, hg.waits, hg.notFree, nofun,
        hg.onDisk⟩⟩
    · cases hnone
    · obtain ⟨g, hg⟩ := h.resident p i hp
      obtain rfl := Option.some.inj (hg.frame.symm.trans hframe)
      exact h.touch hp rfl hg.pageId rfl rfl rfl (fun _ _ => Iff.rfl) hg.waits h.nodup_lru

theorem Call.after_of_wp {P : BufferPool β → Prop} {call : Call β}
    (h : wp (call.perform zeros) (fun _ pool' => P pool') (fun _ pool' => P pool') pool) :
    P (call.after zeros pool) := by
  unfold Call.after
  unfold wp at h
  cases hrun : call.perform zeros pool with
  | ok a pool' => rwa [hrun] at h
  | error e pool' => rwa [hrun] at h

/-- A call that is safe keeps the frames, and one that is not loses one of them. -/
theorem Call.kept_after (h : Kept pool none) (zeros : β) (call : Call β) :
    Kept (call.after zeros pool) none ∧ call.Safe pool ∨
      (∃ i, Kept (call.after zeros pool) (some i)) ∧ ¬call.Safe pool := by
  cases call with
  | fetchPage p =>
    have hcall : wp ((Call.fetchPage p).perform zeros)
        (fun _ pool' => Kept pool' none ∧ (Call.fetchPage p : Call β).Safe pool ∨
          (∃ i, Kept pool' (some i)) ∧ ¬(Call.fetchPage p : Call β).Safe pool)
        (fun _ pool' => Kept pool' none ∧ (Call.fetchPage p : Call β).Safe pool ∨
          (∃ i, Kept pool' (some i)) ∧ ¬(Call.fetchPage p : Call β).Safe pool) pool :=
      wp_bind.mpr ((kept_fetchPage h p).mono (fun _ _ hkept => .inl hkept) fun _ _ hkept => hkept)
    exact Call.after_of_wp hcall
  | newPage =>
    have hcall : wp (Call.newPage.perform zeros) (fun _ pool' => Kept pool' none)
        (fun _ pool' => Kept pool' none) pool :=
      wp_bind.mpr ((kept_newPage h zeros).mono (fun _ _ hkept => hkept) fun _ _ hkept => hkept)
    exact .inl ⟨Call.after_of_wp hcall, trivial⟩
  | unpinPage p dirty =>
    have hcall : wp ((Call.unpinPage p dirty).perform zeros) (fun _ pool' => Kept pool' none)
        (fun _ pool' => Kept pool' none) pool :=
      (kept_unpinPage h p dirty).mono (fun _ _ hkept => hkept) fun _ _ hf => hf.elim
    exact .inl ⟨Call.after_of_wp hcall, trivial⟩
  | flushPage p =>
    have hcall : wp ((Call.flushPage p).perform zeros) (fun _ pool' => Kept pool' none)
        (fun _ pool' => Kept pool' none) pool :=
      (kept_flushPage h p).mono (fun _ _ hkept => hkept) fun _ _ hf => hf.elim
    exact .inl ⟨Call.after_of_wp hcall, trivial⟩
  | flushAll =>
    have hcall : wp (Call.flushAll.perform zeros) (fun _ pool' => Kept pool' none)
        (fun _ pool' => Kept pool' none) pool :=
      wp_bind.mpr ((kept_flushPages h _).mono (fun _ _ hkept => hkept) fun _ _ hf => hf.elim)
    exact .inl ⟨Call.after_of_wp hcall, trivial⟩
  | write i data => exact .inl ⟨kept_write h zeros i data, trivial⟩

/-! ## Runs -/

/-- The pool after some calls. -/
def afterCalls (zeros : β) (pool : BufferPool β) (calls : List (Call β)) : BufferPool β :=
  calls.foldl (fun pool call => call.after zeros pool) pool

theorem afterCalls_snoc (zeros : β) (pool : BufferPool β) (calls : List (Call β)) (call : Call β) :
    afterCalls zeros pool (calls ++ [call]) = call.after zeros (afterCalls zeros pool calls) :=
  List.foldl_concat ..

/-- The frames are partitioned after every call of a run if and only if every call was safe. -/
theorem partitioned_iff_safe (zeros : β) (disk : List β) (poolSize : Nat) (calls : List (Call β)) :
    (∀ before, before <+: calls → Partitioned (afterCalls zeros (init zeros disk poolSize) before)) ↔
      ∀ before call, before ++ [call] <+: calls →
        call.Safe (afterCalls zeros (init zeros disk poolSize) before) := by
  constructor
  · intro hpartitioned
    have hkept : ∀ before, before <+: calls → Kept (afterCalls zeros (init zeros disk poolSize) before) none := by
      intro before hbefore
      induction before using List.reverseRecOn with
      | nil => exact kept_init zeros disk poolSize
      | append_singleton before call ih =>
        rw [afterCalls_snoc]
        obtain h | ⟨⟨i, h⟩, -⟩ := Call.kept_after (ih ((List.prefix_append _ _).trans hbefore)) zeros call
        · exact h.1
        · rw [← afterCalls_snoc] at h
          exact absurd (hpartitioned _ hbefore) h.not_partitioned
    intro before call hcall
    obtain h | ⟨⟨i, h⟩, -⟩ := Call.kept_after (hkept before ((List.prefix_append _ _).trans hcall)) zeros call
    · exact h.2
    · rw [← afterCalls_snoc] at h
      exact absurd (hpartitioned _ hcall) h.not_partitioned
  · intro hsafe before hbefore
    have hkept : Kept (afterCalls zeros (init zeros disk poolSize) before) none := by
      induction before using List.reverseRecOn with
      | nil => exact kept_init zeros disk poolSize
      | append_singleton before call ih =>
        rw [afterCalls_snoc]
        obtain h | ⟨-, hunsafe⟩ := Call.kept_after (ih ((List.prefix_append _ _).trans hbefore)) zeros call
        · exact h.1
        · exact absurd (hsafe before call hbefore) hunsafe
    exact hkept.partitioned

/-- A pool of one frame over an empty file: fetching page 0 raises, and the frame is gone. -/
theorem lost_frame : ¬Partitioned (afterCalls 0 (init 0 [] 1) [.fetchPage 0]) := by
  intro h
  obtain ⟨p, hp⟩ := h.onto 0 (by decide) (by decide)
  cases hp

end BufferPool
end Minirel
