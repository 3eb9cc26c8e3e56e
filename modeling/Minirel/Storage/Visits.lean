-- SUMMARY: The pages of a data file, and visits to them through the buffer pool.
import Minirel.Lib.Bytes
import Minirel.Storage.Transparent

/-!
# Visits

`read_page` down to the bytes of the data file. A walk over pages fetches one, takes from it
what it needs and releases it before it goes on, so a visit leaves the pool as it found it,
but for the frames the pages are in: what could be fetched before it can be fetched after it.
-/

namespace Minirel

/-! ## The data file -/

namespace DiskManager

def numPages (file : Bytes) : Nat := file.length / pageSize

/-- What a read of a page returns, filled up with zeros where the file ends before the page
    does. -/
def pageBytes (file : Bytes) (pageId : Nat) : Bytes :=
  let data := (file.drop (pageId * pageSize)).take pageSize
  data ++ List.replicate (pageSize - data.length) 0

/-- `read_page`. -/
def readPage (file : Bytes) (pageId : Nat) : Except PyError Bytes :=
  if numPages file ≤ pageId then
    .error (.valueError s!"page {pageId} does not exist (num_pages={numPages file})")
  else .ok (pageBytes file pageId)

/-- All pages of the file. -/
def pages (file : Bytes) : List Bytes := (List.range (numPages file)).map (pageBytes file)

theorem length_pageBytes (file : Bytes) (pageId : Nat) : (pageBytes file pageId).length = pageSize := by
  simp only [pageBytes, List.length_append, List.length_replicate]
  have hle := List.length_take_le pageSize (file.drop (pageId * pageSize))
  omega

theorem pages_getElem? (file : Bytes) (pageId : Nat) :
    (pages file)[pageId]? = (readPage file pageId).toOption := by
  rw [pages, List.getElem?_map, readPage]
  split
  · rw [List.getElem?_eq_none (by simpa using ‹_›)]
    rfl
  · rw [List.getElem?_range (by omega)]
    rfl

/-- A pool over the pages reads the file. -/
theorem readPage_eq {file : Bytes} {pool : BufferPool Bytes} (h : pool.disk = pages file)
    (pageId : Nat) :
    BufferPool.readPage pageId pool = match readPage file pageId with
      | .ok data => .ok data pool
      | .error e => .error e pool := by
  have hlength : (pages file).length = numPages file := by simp [pages]
  rw [BufferPool.readPage, h, pages_getElem?, hlength, readPage]
  by_cases hlt : numPages file ≤ pageId
  · rw [if_pos hlt]
    rfl
  · rw [if_neg hlt]
    rfl

theorem length_of_pages {file data : Bytes} {pageId : Nat} (h : (pages file)[pageId]? = some data) :
    data.length = pageSize := by
  obtain ⟨i, -, rfl⟩ := List.mem_map.mp (List.mem_of_getElem? h)
  exact length_pageBytes file i

end DiskManager

/-! ## Visits -/

/-- The result of a computation that does not touch the pool. -/
def PoolM.lift {β α : Type} (x : Except PyError α) : PoolM β α := fun pool =>
  match x with
  | .ok a => .ok a pool
  | .error e => .error e pool

theorem PoolM.wp_lift {β α : Type} {x : Except PyError α} {Q : α → BufferPool β → Prop}
    {E : PyError → BufferPool β → Prop} {pool : BufferPool β} (hok : ∀ a, x = .ok a → Q a pool)
    (herr : ∀ e, x = .error e → E e pool) : wp (PoolM.lift x) Q E pool := by
  cases x with
  | ok a => exact hok a rfl
  | error e => exact herr e rfl

namespace BufferPool

variable {β α : Type} {pool pool' : BufferPool β} {pins : Nat → Nat} {changed : Nat → Prop}
  {logical : List β} {p q i : Nat} {data : β}

/-- Fetch a page, read its bytes, and release it. A page that cannot be read keeps its pin. -/
def visit (pageId : Nat) (read : β → Except PyError α) : PoolM β α := do
  let data ← fetchPage pageId
  let x ← PoolM.lift (read data)
  unpinPage pageId false
  return x

instance (pool : BufferPool β) : Decidable (Full pool) := inferInstanceAs (Decidable (_ ∧ _))

instance (pool : BufferPool β) (p : Nat) : Decidable (Fetchable pool p) :=
  decidable_of_iff ((pool.frameOf p).isSome ∨ ¬Full pool) (by rw [Option.isSome_iff_exists]; rfl)

/-- The pages that can be fetched, as their clients left them. -/
def shown (pool : BufferPool β) (logical : List β) (p : Nat) : Option β :=
  if Fetchable pool p then logical[p]? else none

theorem shown_eq_some : shown pool logical p = some data ↔ Fetchable pool p ∧ logical[p]? = some data := by
  rw [shown]
  split <;> simp [*]

theorem shown_eq_none : shown pool logical p = none ↔ logical[p]? = none ∨ ¬Fetchable pool p := by
  rw [shown]
  split <;> simp [*]

/-- What a client can fetch from the pool. -/
def Shows (look : Nat → Option β) (pool : BufferPool β) : Prop :=
  ∃ pins changed logical, Sound pool pins changed logical ∧ shown pool logical = look

theorem Sound.shows (h : Sound pool pins changed logical) : Shows (shown pool logical) pool :=
  ⟨pins, changed, logical, h, rfl⟩

/-! ## Room for other pages -/

/-- The same pages are in the pool, and the same frames are to be had. -/
def SameRoom (pool pool' : BufferPool β) : Prop :=
  pool'.pageTable = pool.pageTable ∧ pool'.freeFrames = pool.freeFrames ∧ pool'.lru = pool.lru

theorem SameRoom.trans {pool₁ pool₂ pool₃ : BufferPool β} (h : SameRoom pool₁ pool₂)
    (h' : SameRoom pool₂ pool₃) : SameRoom pool₁ pool₃ :=
  ⟨h'.1.trans h.1, h'.2.1.trans h.2.1, h'.2.2.trans h.2.2⟩

theorem SameRoom.fetchable (h : SameRoom pool pool') : Fetchable pool' p ↔ Fetchable pool p := by
  rw [Fetchable, Fetchable, Full, Full, frameOf, frameOf, h.1, h.2.1, h.2.2]

/-- A page without a pin waits for its eviction. -/
theorem Sound.not_full (h : Sound pool pins changed logical) (hp : pool.frameOf p = some i)
    (hpins : pins p = 0) : ¬Full pool := by
  obtain ⟨f, hf⟩ := h.resident p i hp
  have hi : i ∈ pool.lru := hf.waits.mpr hpins
  intro hfull
  rw [hfull.2] at hi
  cases hi

/-- A page with a pin is fetched from its frame. -/
theorem sameRoom_fetchPage (h : Sound pool pins changed logical) (hpins : pins p ≠ 0) :
    wp (fetchPage p) (fun _ pool' => SameRoom pool pool') (fun _ _ => True) pool := by
  unfold fetchPage
  rw [wp_bind, wp_get]
  cases hp : pool.frameOf p with
  | none => exact absurd (h.out p hp).1 hpins
  | some i =>
    obtain ⟨f, hf⟩ := h.resident p i hp
    have hlt : i < pool.frames.length := (List.getElem?_eq_some_iff.mp hf.frame).1
    have hwaits : i ∉ pool.lru := fun hi => hpins (hf.waits.mp hi)
    refine wp_bind.mpr (wp_modify.mpr (wp_bind.mpr ?_))
    refine wp_bind.mpr (wp_getFrame hf.frame (wp_bind.mpr (wp_setFrame ?_)))
    rw [wp_modify]
    refine wp_bind.mpr (wp_getFrame (List.getElem?_set_self hlt) ?_)
    exact ⟨rfl, rfl, List.erase_of_not_mem hwaits⟩

/-- A page that keeps a pin stays out of the queue. -/
theorem sameRoom_unpinPage (h : Sound pool pins changed logical) (hpins : 2 ≤ pins p) {dirty : Bool} :
    wp (unpinPage p dirty) (fun _ pool' => SameRoom pool pool') (fun _ _ => True) pool := by
  unfold unpinPage
  rw [wp_bind, wp_get]
  cases hp : pool.frameOf p with
  | none => exact ⟨rfl, rfl, rfl⟩
  | some i =>
    obtain ⟨f, hf⟩ := h.resident p i hp
    have hcount : f.pinCount - 1 ≠ 0 := by
      rw [hf.pinCount]
      omega
    refine wp_bind.mpr (wp_getFrame hf.frame (wp_bind.mpr (wp_setFrame ?_)))
    rw [if_neg hcount]
    exact ⟨rfl, rfl, rfl⟩

/-- A pin that was taken is given back. If the page was changed under it, it is released as dirty. -/
theorem Sound.unpin {changed₁ : Nat → Prop} {dirty : Bool}
    (h : Sound pool (Function.update pins p (pins p + 1)) changed₁ logical)
    (hpinned : ∀ q, changed q → pins q ≠ 0) (hother : ∀ q, q ≠ p → (changed q ↔ changed₁ q))
    (hdirty : changed₁ p → changed p ∨ dirty = true) :
    wp (unpinPage p dirty)
      (fun _ pool' => Sound pool' pins changed logical ∧ pool'.pageTable = pool.pageTable)
      (fun _ _ => False) pool := by
  have hself : Function.update pins p (pins p + 1) p = pins p + 1 := Function.update_self ..
  have hback : Function.update (Function.update pins p (pins p + 1)) p (pins p + 1 - 1) = pins := by
    rw [Function.update_idem, Nat.add_sub_cancel, Function.update_eq_self]
  have hpins : Function.update pins p (pins p + 1) p ≠ 0 := by
    rw [hself]
    exact Nat.succ_ne_zero _
  have hone : changed p → Function.update pins p (pins p + 1) p ≠ 1 := by
    rw [hself]
    exact fun hc heq => hpinned p hc (Nat.succ.inj heq)
  have hunpin := wp_unpinPage h hpins hother hdirty hone
  rwa [hself, hback] at hunpin

/-! ## What a visit does -/

/-- A visit reads the page if it can be had, and the same pages can be had after it. -/
theorem wp_visit {look : Nat → Option β} (h : Shows look pool) (p : Nat)
    (read : β → Except PyError α) :
    wp (visit p read)
      (fun x pool' => Shows look pool' ∧ ∃ data, look p = some data ∧ read data = .ok x)
      (fun e _ => e ≠ .diverges ∧ look p = none ∨ ∃ data, look p = some data ∧ read data = .error e)
      pool := by
  obtain ⟨pins, changed, logical, h, rfl⟩ := h
  refine wp_bind.mpr (((wp_fetchPage h p).and (wp.of_imp (sameRoom_fetchPage h))).mono ?_
    fun e _ he => .inl ⟨he.1.1, shown_eq_none.mpr he.1.2⟩)
  rintro data pool₁ ⟨⟨h₁, hdata, ⟨i, hp⟩, -, hfetch⟩, hsame₁⟩
  have hshown : shown pool logical p = some data := shown_eq_some.mpr ⟨hfetch, hdata⟩
  cases hread : read data with
  | error e => exact wp_bind.mpr (.inr ⟨data, hshown, hread⟩)
  | ok x =>
    refine wp_bind.mpr (show wp _ _ _ pool₁ from wp_bind.mpr ?_)
    have hunpin := (h₁.unpin h.pinned (fun _ _ => Iff.rfl) .inl).and
      (wp.of_imp (@sameRoom_unpinPage _ _ _ _ _ p h₁ · false))
    refine hunpin.mono ?_ fun _ _ he => he.1.elim
    rintro ⟨⟩ pool₂ ⟨⟨h₂, htable⟩, hsame₂⟩
    refine ⟨⟨pins, changed, logical, h₂, funext fun q => ?_⟩, data, hshown, hread⟩
    have hroom : Fetchable pool₂ q ↔ Fetchable pool q := by
      by_cases hpins : pins p = 0
      · -- the page has given its frame back, and there was one for it before
        have hp₂ : pool₂.frameOf p = some i := by rw [frameOf, htable]; exact hp
        refine iff_of_true (.inr (h₂.not_full hp₂ hpins)) (.inr ?_)
        rcases hfetch with ⟨j, hj⟩ | hroom
        · exact h.not_full hj hpins
        · exact hroom
      · have htwo : 2 ≤ Function.update pins p (pins p + 1) p := by
          rw [Function.update_self]
          omega
        exact ((hsame₁ hpins).trans (hsame₂ htwo)).fetchable
    rw [shown, shown]
    exact if_congr hroom rfl rfl

end BufferPool
end Minirel
