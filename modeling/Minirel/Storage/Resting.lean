-- SUMMARY: Computations that lose no frame of the pool, and the pool while no one holds a page.
import Minirel.Storage.Frames
import Minirel.Storage.HeapInsert

/-!
# The pool at rest

Between the operations of its clients no page of the pool is held and no frame is lost. Then
any page can be fetched, and another one beside it if there are two frames.
-/

namespace Minirel
namespace BufferPool

variable {α β γ : Type}

/-! ## Frames and pages stay -/

/-- There are as many frames as before, and all pages of the data file. -/
def Grown (pool pool' : BufferPool β) : Prop :=
  pool'.frames.length = pool.frames.length ∧ pool.disk.length ≤ pool'.disk.length

theorem Grown.refl (pool : BufferPool β) : Grown pool pool := ⟨rfl, le_rfl⟩

theorem Grown.trans {pool pool' pool'' : BufferPool β} (h : Grown pool pool') (h' : Grown pool' pool'') :
    Grown pool pool'' := ⟨h'.1.trans h.1, h.2.trans h'.2⟩

/-- Whether the computation returns or raises, frames and pages stay. -/
def Grows (m : PoolM β α) : Prop :=
  ∀ pool, wp m (fun _ pool' => Grown pool pool') (fun _ pool' => Grown pool pool') pool

theorem Grows.bind {m : PoolM β α} {f : α → PoolM β γ} (hm : Grows m) (hf : ∀ a, Grows (f a)) :
    Grows (m >>= f) :=
  fun pool => (hm pool).bind
    (fun a pool₁ h => (hf a pool₁).mono (fun _ _ h' => h.trans h') fun _ _ h' => h.trans h') fun _ _ h => h

theorem grows_pure (a : α) : Grows (pure a : PoolM β α) := fun pool => .refl pool

theorem grows_modify {g : BufferPool β → BufferPool β} (h : ∀ pool, Grown pool (g pool)) : Grows (modify g) := h

theorem grows_getFrame (i : Nat) : Grows (getFrame i : PoolM β (Frame β)) := fun pool => by
  cases hf : pool.frames[i]? with
  | some f => exact wp_getFrame hf (.refl pool)
  | none => exact (wp_of_error (by rw [getFrame, hf])).mpr (.refl pool)

theorem grows_setFrame (i : Nat) (f : Frame β) : Grows (setFrame i f) := fun _ => ⟨List.length_set, le_rfl⟩

theorem grows_pageOf (f : Frame β) : Grows (pageOf f) := fun pool => by
  cases hf : f.pageId with
  | some p => exact wp_pageOf hf (.refl pool)
  | none => exact (wp_of_error (by rw [pageOf, hf])).mpr (.refl pool)

theorem grows_delPage (p : Nat) : Grows (delPage p : PoolM β Unit) := fun pool => by
  cases hp : pool.frameOf p with
  | some i => exact wp_delPage hp (.refl pool)
  | none => exact (wp_of_error (by rw [delPage, hp])).mpr (.refl pool)

theorem grows_readPage (p : Nat) : Grows (readPage p : PoolM β β) := fun pool => by
  cases hdata : pool.disk[p]? with
  | some data => exact wp_readPage hdata (.refl pool)
  | none => exact (wp_of_error (readPage_missing hdata)).mpr (.refl pool)

theorem grows_writeBack (p : Nat) (data : β) : Grows (writeBack p data) := fun _ =>
  wp_writeBack ⟨rfl, List.length_set.ge⟩

theorem grows_evictOne : Grows (evictOne : PoolM β Nat) := fun pool => by
  have hrest : ∀ i : Nat, Grows (do
      let frame ← getFrame i
      let pageId ← pageOf frame
      if frame.dirty then writeBack pageId frame.data
      delPage pageId
      return i : PoolM β Nat) := fun i => by
    refine (grows_getFrame i).bind fun f => (grows_pageOf f).bind fun p => ?_
    have hout := (grows_delPage (β := β) p).bind fun _ => grows_pure i
    split
    · exact (grows_writeBack p _).bind fun _ => hout
    · exact hout
  unfold evictOne
  rw [wp_bind, wp_get]
  dsimp only
  split
  · exact Grown.refl pool
  · split
    · exact Grown.refl pool
    · exact wp_bind.mpr (wp_set.mpr (hrest _ _))

theorem grows_pin (i : Nat) : Grows (pin i : PoolM β Unit) :=
  (grows_getFrame i).bind fun _ => (grows_setFrame i _).bind fun _ => grows_modify fun _ => ⟨rfl, le_rfl⟩

theorem grows_install (p i : Nat) (data : β) : Grows (install p i data) :=
  (grows_setFrame i _).bind fun _ => Grows.bind (fun _ => ⟨rfl, le_rfl⟩) fun _ => grows_pin i

theorem grows_fetchPage (p : Nat) : Grows (fetchPage p : PoolM β β) := fun pool => by
  unfold fetchPage
  rw [wp_bind, wp_get]
  split
  · refine wp_bind.mpr (wp_modify.mpr ?_)
    exact ((grows_pin _).bind fun _ => (grows_getFrame _).bind fun _ => grows_pure _) _
  · refine (grows_evictOne.bind fun i => (grows_readPage p).bind fun data => ?_) pool
    exact Grows.bind (fun _ => ⟨rfl, le_rfl⟩) fun _ => (grows_install p i data).bind fun _ => grows_pure _

theorem grows_newPage (zeros : β) : Grows (newPage zeros) := by
  refine Grows.bind (fun pool => wp_allocatePage ⟨rfl, ?_⟩) fun p => grows_evictOne.bind fun i =>
    (grows_install p i zeros).bind fun _ => grows_pure _
  rw [List.length_append]
  exact Nat.le_add_right _ _

theorem grows_unpinPage (p : Nat) (dirty : Bool) : Grows (unpinPage p dirty : PoolM β Unit) := fun pool => by
  unfold unpinPage
  rw [wp_bind, wp_get]
  dsimp only
  split
  · exact Grown.refl pool
  · refine ((grows_getFrame _).bind fun f => (grows_setFrame _ _).bind fun _ => ?_) pool
    split
    · exact grows_modify fun _ => ⟨rfl, le_rfl⟩
    · exact grows_pure _

/-! ## No frame is lost -/

/-- Frames and pages stay, and no frame is lost where the computation returns. -/
structure KeepsFrames (m : PoolM β α) : Prop where
  grows : Grows m
  kept : ∀ pool, Kept pool none → wp m (fun _ pool' => Kept pool' none) (fun _ _ => True) pool

theorem KeepsFrames.bind {m : PoolM β α} {f : α → PoolM β γ} (hm : KeepsFrames m) (hf : ∀ a, KeepsFrames (f a)) :
    KeepsFrames (m >>= f) where
  grows := hm.grows.bind fun a => (hf a).grows
  kept pool h := (hm.kept pool h).bind (fun a pool₁ h₁ => (hf a).kept pool₁ h₁) fun _ _ he => he

theorem keeps_pure (a : α) : KeepsFrames (pure a : PoolM β α) := ⟨grows_pure a, fun _ h => h⟩

theorem keeps_throw (e : PyError) : KeepsFrames (throw e : PoolM β α) := ⟨fun pool => .refl pool, fun _ _ => trivial⟩

theorem keeps_lift (x : Except PyError α) : KeepsFrames (PoolM.lift x : PoolM β α) where
  grows pool := PoolM.wp_lift (fun _ _ => .refl pool) fun _ _ => .refl pool
  kept _ h := PoolM.wp_lift (fun _ _ => h) fun _ _ => trivial

theorem KeepsFrames.andFinally {m : PoolM β α} {cleanup : PoolM β PUnit} (hm : KeepsFrames m) (hcleanup : KeepsFrames cleanup) :
    KeepsFrames (andFinally m cleanup) where
  grows pool := by
    have hafter : ∀ pool₁, Grown pool pool₁ → wp cleanup (fun _ pool' => Grown pool pool')
        (fun _ pool' => Grown pool pool') pool₁ := fun pool₁ h =>
      (hcleanup.grows pool₁).mono (fun _ _ h' => h.trans h') fun _ _ h' => h.trans h'
    rw [wp_andFinally]
    exact (hm.grows pool).mono (fun _ pool₁ h => hafter pool₁ h) fun _ pool₁ h => hafter pool₁ h
  kept pool h := by
    rw [wp_andFinally]
    refine (hm.kept pool h).mono (fun a pool₁ h₁ => hcleanup.kept pool₁ h₁) fun e pool₁ _ => ?_
    exact wp_of (fun _ _ _ => trivial) fun _ _ _ => trivial

theorem keeps_fetchPage (p : Nat) : KeepsFrames (fetchPage p : PoolM β β) :=
  ⟨grows_fetchPage p, fun _ h => (kept_fetchPage h p).mono (fun _ _ h' => h'.1) fun _ _ _ => trivial⟩

theorem keeps_newPage (zeros : β) : KeepsFrames (newPage zeros) :=
  ⟨grows_newPage zeros, fun _ h => (kept_newPage h zeros).mono (fun _ _ h' => h') fun _ _ _ => trivial⟩

theorem keeps_unpinPage (p : Nat) (dirty : Bool) : KeepsFrames (unpinPage p dirty : PoolM β Unit) :=
  ⟨grows_unpinPage p dirty, fun _ h => (kept_unpinPage h p dirty).mono (fun _ _ h' => h') fun _ _ _ => trivial⟩

theorem keeps_visit (p : Nat) (read : β → Except PyError α) : KeepsFrames (visit p read) :=
  (keeps_fetchPage p).bind fun _ => (keeps_lift _).bind fun _ =>
    (keeps_unpinPage p false).bind fun _ => keeps_pure _

theorem keeps_edit (p : Nat) (m : BytesM α) : KeepsFrames (edit p m) where
  grows pool := by
    unfold edit
    rw [wp_bind, wp_get]
    cases pool.frameOf p with
    | none => exact Grown.refl pool
    | some i =>
      refine ((grows_getFrame i).bind fun f => ?_) pool
      cases m f.data with
      | ok a data => exact (grows_setFrame i _).bind fun _ => grows_pure a
      | error e data => exact (grows_setFrame i _).bind fun _ => fun pool => .refl pool
  kept pool h := by
    unfold edit
    rw [wp_bind, wp_get]
    cases hp : pool.frameOf p with
    | none => trivial
    | some i =>
      obtain ⟨f, hf⟩ := h.resident p i hp
      have hwritten : ∀ data, Kept { pool with frames := pool.frames.set i { f with data } } none := fun data =>
        h.touch hp rfl hf.pageId rfl rfl rfl (fun _ _ => Iff.rfl) hf.waits h.nodup_lru
      refine wp_bind.mpr (wp_getFrame hf.frame ?_)
      cases m f.data with
      | ok a data => exact wp_bind.mpr (wp_setFrame (hwritten data))
      | error e data => exact wp_bind.mpr (wp_setFrame trivial)

/-! ## The pool at rest -/

section
variable {pool pool' : BufferPool β} {pins : Nat → Nat} {changed : Nat → Prop} {logical logical' : List β}
  {n p i : Nat} {data : β}

/-- If there is no frame to be had, every frame holds a page that someone has pinned. -/
theorem Sound.held_of_full (h : Sound pool pins changed logical) (hkept : Kept pool none) (hfull : Full pool)
    (hi : i < pool.frames.length) : ∃ p, pool.frameOf p = some i ∧ pins p ≠ 0 := by
  rcases hkept.covered i hi with hfree | hnone | ⟨p, hp⟩
  · rw [hfull.1] at hfree
    cases hfree
  · cases hnone
  · obtain ⟨f, hf⟩ := h.resident p i hp
    refine ⟨p, hp, fun hpins => ?_⟩
    have hwaits := hf.waits.mpr hpins
    rw [hfull.2] at hwaits
    cases hwaits

/-- No page is held, and all of the `n` frames are there. -/
structure Rests (n : Nat) (pool : BufferPool β) (logical : List β) : Prop where
  sound : Sound pool (fun _ => 0) (fun _ => False) logical
  kept : Kept pool none
  size : pool.frames.length = n

theorem rests_init (zeros : β) (disk : List β) (poolSize : Nat) :
    Rests poolSize (init zeros disk poolSize) disk where
  sound := sound_init zeros disk poolSize
  kept := kept_init zeros disk poolSize
  size := List.length_replicate

/-- The pool determines the pages that its clients see. -/
theorem Sound.logical_unique {pins' : Nat → Nat} {changed' : Nat → Prop} (h : Sound pool pins changed logical)
    (h' : Sound pool pins' changed' logical') : logical = logical' := by
  refine List.ext_getElem? fun p => ?_
  cases hp : pool.frameOf p with
  | none => exact (h.out p hp).2.symm.trans (h'.out p hp).2
  | some i =>
    obtain ⟨f, hf⟩ := h.resident p i hp
    obtain ⟨f', hf'⟩ := h'.resident p i hp
    obtain rfl := Option.some.inj (hf.frame.symm.trans hf'.frame)
    exact hf.data.trans hf'.data.symm

/-- What is held no more was not changed under a pin. -/
theorem Rests.of_sound (h : Rests n pool logical) (hkept : Kept pool' none) (hgrown : Grown pool pool')
    (hsound : Sound pool' (fun _ => 0) changed logical') : Rests n pool' logical' := by
  have hnone : changed = fun _ => False := funext fun q => eq_false fun hq => hsound.pinned q hq rfl
  exact ⟨hnone ▸ hsound, hkept, hgrown.1.trans h.size⟩

theorem Rests.wp_keeps {m : PoolM β α} {P : α → Prop} (h : Rests n pool logical) (hkeeps : KeepsFrames m)
    (hm : wp m (fun a pool' => P a ∧ Sound pool' (fun _ => 0) (fun _ => False) logical') (fun _ _ => False)
      pool) :
    wp m (fun a pool' => P a ∧ Rests n pool' logical') (fun _ _ => False) pool :=
  (hm.and ((hkeeps.kept pool h.kept).and (hkeeps.grows pool))).mono
    (fun _ _ hall => ⟨hall.1.1, h.of_sound hall.2.1 hall.2.2 hall.1.2⟩) fun _ _ he => he.1

theorem Rests.not_full (h : Rests n pool logical) (hn : 1 ≤ n) : ¬Full pool := fun hfull => by
  obtain ⟨p, -, hpins⟩ := h.sound.held_of_full h.kept hfull (h.size.symm ▸ hn)
  exact hpins rfl

/-- Beside a page that is fetched there is a frame for another one. -/
theorem Rests.room (h : Rests n pool logical) (hn : 2 ≤ n) (hfetch : fetchPage p pool = .ok data pool') :
    ¬Full pool' := fun hfull => by
  have hsound := ((wp_fetchPage h.sound p).ok hfetch).1
  have hkept := ((keeps_fetchPage p).kept pool h.kept).ok hfetch
  have hsize := ((grows_fetchPage p pool).ok hfetch).1
  have hlt : 2 ≤ pool'.frames.length := hsize.trans h.size ▸ hn
  have honly : ∀ i < pool'.frames.length, pool'.frameOf p = some i := by
    intro i hi
    obtain ⟨q, hq, hpins⟩ := hsound.held_of_full hkept hfull hi
    by_cases hqp : q = p
    · exact hqp ▸ hq
    · exact absurd (Function.update_of_ne hqp _ _) hpins
  cases (honly 0 (by omega)).symm.trans (honly 1 (by omega))

/-- A pool of one frame has no other page than the one that is fetched. -/
theorem Rests.full_of_one (h : Rests 1 pool logical) (hfetch : fetchPage p pool = .ok data pool') :
    Full pool' := by
  obtain ⟨hsound, -, ⟨i, hi⟩, -⟩ := (wp_fetchPage h.sound p).ok hfetch
  have hkept := ((keeps_fetchPage p).kept pool h.kept).ok hfetch
  have hsize : pool'.frames.length = 1 := ((grows_fetchPage p pool).ok hfetch).1.trans h.size
  obtain ⟨f, hf⟩ := hkept.resident p i hi
  obtain ⟨f', hf'⟩ := hsound.resident p i hi
  have honly : ∀ j < pool'.frames.length, j = i := by
    intro j hj
    have := hf.lt
    omega
  refine ⟨List.eq_nil_iff_forall_not_mem.mpr fun j hj => ?_, List.eq_nil_iff_forall_not_mem.mpr fun j hj => ?_⟩
  · exact hf.notFree (honly j (hkept.free_lt j hj) ▸ hj)
  · obtain ⟨q, hq⟩ := hkept.waiting j hj
    obtain ⟨g, hg⟩ := hkept.resident q j hq
    exact pinned_of_taken (fun _ => 0) p (hf'.waits.mp (honly j hg.lt ▸ hj))

end
end BufferPool
end Minirel
