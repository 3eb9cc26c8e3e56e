-- SUMMARY: The tree's insertions with the pins they take on pages and release.
import Minirel.Index.Progress

/-!
# Pins

`search` and `insert` of `index/btree.py`, with every `fetch_page`, `new_page` and
`unpin_page`. Beside the pages goes how many pins each of them has. Without the pins the calls
are those of `Btree.lean`; a call that returns has released every pin it took.
-/

namespace Minirel

/-- The pages of the data file, and the pins on each of them. -/
structure Pinned (ε τ : Type) where
  pages : PageFile ε τ
  pins : Nat → Nat

/-- A computation over pages that are pinned. -/
abbrev PinM (ε τ : Type) := EStateM PyError (Pinned ε τ)

variable {κ ε τ α β : Type}

namespace Pinned

/-! ## Page accesses -/

/-- One pin more. -/
def hold (pageId : Nat) (pins : Nat → Nat) : Nat → Nat := Function.update pins pageId (pins pageId + 1)

/-- One pin less. -/
def release (pageId : Nat) (pins : Nat → Nat) : Nat → Nat := Function.update pins pageId (pins pageId - 1)

@[simp] theorem release_hold (pageId : Nat) (pins : Nat → Nat) : release pageId (hold pageId pins) = pins := by
  simp [release, hold]

theorem hold_ne (pageId : Nat) (pins : Nat → Nat) : hold pageId pins ≠ pins := fun h => by
  have hpin := congrFun h pageId
  simp [hold] at hpin

def lift (x : Except PyError α) : PinM ε τ α := fun st =>
  match x with
  | .ok a => .ok a st
  | .error e => .error e st

def fetchPage (pageId : Nat) : PinM ε τ (Page ε τ) := fun st =>
  match st.pages[pageId]? with
  | some page => .ok page { st with pins := hold pageId st.pins }
  | none => .error (.valueError s!"page {pageId} does not exist (num_pages={st.pages.length})") st

def newPage : PinM ε τ Nat := fun st =>
  .ok st.pages.length ⟨st.pages ++ [.zero], hold st.pages.length st.pins⟩

def unpinPage (pageId : Nat) : PinM ε τ Unit := fun st =>
  .ok () { st with pins := release pageId st.pins }

/-- Replace the contents of a page that is pinned. -/
def putPage (pageId : Nat) (contents : Except PyError (Page ε τ)) : PinM ε τ Unit := fun st =>
  match contents with
  | .ok page => .ok () { st with pages := st.pages.set pageId page }
  | .error e => .error e { st with pages := st.pages.set pageId .torn }

/-- `try: ... finally: unpin_page(page_id)`. -/
def finallyUnpin (pageId : Nat) (body : PinM ε τ α) : PinM ε τ α := fun st =>
  match body st with
  | .ok a st => (do unpinPage pageId; return a : PinM ε τ α) st
  | .error e st => (do unpinPage pageId; throw e : PinM ε τ α) st

theorem lift_ok_bind (a : α) (f : α → PinM ε τ β) : (lift (.ok a) >>= f) = f a := rfl

/-! ## The calls -/

open BPlusTree

variable (K : KeyType κ ε)

def writeLeaf (pageId : Nat) (entries : List (κ × RID)) (nextLeaf : Nat) : PinM ε τ Unit :=
  putPage pageId do
    if entries.length < 2 ^ 16 ∧ childFits nextLeaf then
      return .leaf (← packEntries K entries) nextLeaf
    else throw .structError

def writeInternal (pageId : Nat) (children : List Nat) (keys : List κ) : PinM ε τ Unit :=
  putPage pageId do
    let first ← pyGet children 0
    if keys.length < 2 ^ 16 ∧ childFits first then
      return .internal first (← packChildren K (keys.zip (children.drop 1)))
    else throw .structError

/-- The loop of `_find_leaf_path`, for `fuel` pages. -/
def findLeafPathFrom (key : κ) : Nat → Nat → List Nat → PinM ε τ (List Nat)
  | 0, _, _ => throw .diverges
  | fuel + 1, pageId, path => do
    let page ← fetchPage pageId
    if isLeaf page then
      unpinPage pageId
      return path
    else
      let (children, keys) ← lift (readInternal K page)
      unpinPage pageId
      let idx ← lift (bisectRight K keys key)
      let pageId ← lift (pyGet children idx)
      findLeafPathFrom key fuel pageId (path ++ [pageId])

def findLeafPath (root : Nat) (key : κ) : PinM ε τ (List Nat) := do
  let st ← get
  findLeafPathFrom K key (st.pages.length + 1) root [root]

/-- `_find_leaf_path(key)[-1]`. -/
def findLeaf (root : Nat) (key : κ) : PinM ε τ Nat :=
  return (← findLeafPath K root key).getLastD root

def search (root : Nat) (key : κ) : PinM ε τ (List RID) := do
  let leafId ← findLeaf K root key
  let data ← fetchPage leafId
  finallyUnpin leafId do
    let (entries, _) ← lift (readLeaf K data)
    let lo ← lift (bisectLeft K (entries.map (·.1)) key)
    let hi ← lift (bisectRight K (entries.map (·.1)) key)
    return ((entries.take hi).drop lo).map (·.2)

/-- `_insert_into_parent`, with the ancestors nearest first. Returns the root
    page id. -/
def insertIntoParent (root : Nat) : List Nat → Nat → κ → Nat → PinM ε τ Nat
  | [], leftChild, separator, rightChild => do
    let newRootId ← newPage
    writeInternal K newRootId [leftChild, rightChild] [separator]
    unpinPage newRootId
    return newRootId
  | parentId :: ancestors, leftChild, separator, rightChild => do
    let data ← fetchPage parentId
    let (children, keys) ← lift (readInternal K data)
    let idx ← lift (pyIndex children leftChild)
    let children := pyInsert children (idx + 1) rightChild
    let keys := pyInsert keys idx separator
    if keys.length ≤ maxInternalKeys K then
      writeInternal K parentId children keys
      unpinPage parentId
      return root
    else
      let mid := keys.length / 2
      let upKey ← lift (pyGet keys mid)
      let newInternalId ← newPage
      writeInternal K newInternalId (children.drop (mid + 1)) (keys.drop (mid + 1))
      unpinPage newInternalId
      writeInternal K parentId (children.take (mid + 1)) (keys.take mid)
      unpinPage parentId
      insertIntoParent root ancestors parentId upKey newInternalId

/-- `self.unique and self.search(key)`. -/
def duplicates (unique : Bool) (root : Nat) (key : κ) : PinM ε τ (List RID) :=
  if unique then search K root key else pure []

/-- `insert`. Returns the root page id. -/
def insert (unique : Bool) (root : Nat) (key : κ) (rid : RID) : PinM ε τ Nat := do
  if (← duplicates K unique root key) ≠ [] then
    throw (.duplicateKeyError s!"duplicate key in unique index: {K.repr key}")
  else
    let path ← findLeafPath K root key
    let leafId := path.getLastD root
    let data ← fetchPage leafId
    let (entries, nextLeaf) ← lift (readLeaf K data)
    let pos ← lift (bisectRight K (entries.map (·.1)) key)
    let entries := pyInsert entries pos (key, rid)
    if entries.length ≤ maxLeafKeys K then
      writeLeaf K leafId entries nextLeaf
      unpinPage leafId
      return root
    else
      let mid ← lift (splitPointAvoidingDuplicates K (entries.map (·.1)))
      let newLeafId ← newPage
      writeLeaf K newLeafId (entries.drop mid) nextLeaf
      unpinPage newLeafId
      writeLeaf K leafId (entries.take mid) newLeafId
      unpinPage leafId
      let (separator, _) ← lift (pyGet (entries.drop mid) 0)
      insertIntoParent K root path.dropLast.reverse leafId separator newLeafId

/-! ## Without the pins -/

/-- With the pins `pre` makes of some, `m'` does to the pages what `m` does, and leaves the pins that
    `post` makes of them when it returns. -/
def Tracks (pre : (Nat → Nat) → Nat → Nat) (m : PageM ε τ α) (m' : PinM ε τ α)
    (post : α → (Nat → Nat) → Nat → Nat) : Prop :=
  ∀ s pins, match m s with
    | .ok a s' => m' ⟨s, pre pins⟩ = .ok a ⟨s', post a pins⟩
    | .error e s' => ∃ pins', m' ⟨s, pre pins⟩ = .error e ⟨s', pins'⟩

namespace Tracks
variable {pre : (Nat → Nat) → Nat → Nat} {m : PageM ε τ α} {m' : PinM ε τ α}
  {f : α → PageM ε τ β} {f' : α → PinM ε τ β} {mid : α → (Nat → Nat) → Nat → Nat}
  {post : β → (Nat → Nat) → Nat → Nat} {s s' : PageFile ε τ} {pins : Nat → Nat} {a : α} {e : PyError}

theorem ok (h : Tracks pre m m' mid) (hm : m s = .ok a s') (pins : Nat → Nat) :
    m' ⟨s, pre pins⟩ = .ok a ⟨s', mid a pins⟩ := by
  have hs := h s pins
  rw [hm] at hs
  exact hs

theorem error (h : Tracks pre m m' mid) (hm : m s = .error e s') (pins : Nat → Nat) :
    ∃ pins', m' ⟨s, pre pins⟩ = .error e ⟨s', pins'⟩ := by
  have hs := h s pins
  rw [hm] at hs
  exact hs

protected theorem pure (a : α) :
    Tracks pre (pure a : PageM ε τ α) (pure a) (fun _ => pre) := fun _ _ => rfl

protected theorem throw (e : PyError) : Tracks pre (throw e : PageM ε τ α) (throw e) mid :=
  fun _ pins => ⟨pre pins, rfl⟩

protected theorem bind (h : Tracks pre m m' mid) (hf : ∀ a, Tracks (mid a) (f a) (f' a) post) :
    Tracks pre (m >>= f) (m' >>= f') post := by
  intro s pins
  cases hm : m s with
  | ok a s₁ =>
    have h' := h.ok hm pins
    simp only [Bind.bind, EStateM.bind, hm, h']
    exact hf a s₁ pins
  | error e s₁ =>
    obtain ⟨pins', h'⟩ := h.error hm pins
    simp only [Bind.bind, EStateM.bind, hm, h']
    exact ⟨pins', rfl⟩

protected theorem lift (x : Except PyError α) :
    Tracks pre (PageM.lift x : PageM ε τ α) (Pinned.lift x) (fun _ => pre) := by
  intro s pins
  cases x with
  | ok a => rfl
  | error e => exact ⟨_, rfl⟩

protected theorem putPage (pageId : Nat) (contents : Except PyError (Page ε τ)) :
    Tracks pre (Minirel.putPage pageId contents) (Pinned.putPage pageId contents) (fun _ => pre) := by
  intro s pins
  cases contents with
  | ok page => rfl
  | error e => exact ⟨_, rfl⟩

protected theorem fetchPage (pageId : Nat) :
    Tracks pre (Minirel.fetchPage pageId : PageM ε τ (Page ε τ)) (Pinned.fetchPage pageId)
      (fun _ => hold pageId ∘ pre) := by
  intro s pins
  unfold Minirel.fetchPage Pinned.fetchPage
  cases hpage : s[pageId]? with
  | some page => rfl
  | none => exact ⟨pre pins, by dsimp only⟩

protected theorem newPage :
    Tracks pre (Minirel.newPage : PageM ε τ Nat) Pinned.newPage (fun pageId => hold pageId ∘ pre) :=
  fun _ _ => rfl

/-- A pin that is released is none of the pages' business. -/
protected theorem unpinPage {mid : (Nat → Nat) → Nat → Nat} {n : PageM ε τ β} {n' : PinM ε τ β} (pageId : Nat)
    (h : Tracks mid n n' post) :
    Tracks (hold pageId ∘ mid) n (do unpinPage pageId; n') post := by
  intro s pins
  have hs := h s pins
  have hrun : (do unpinPage pageId; n' : PinM ε τ β) ⟨s, (hold pageId ∘ mid) pins⟩ = n' ⟨s, mid pins⟩ := by
    simp only [Bind.bind, EStateM.bind, unpinPage, Function.comp_apply, release_hold]
  rw [hrun]
  exact hs

protected theorem finallyUnpin {mid : (Nat → Nat) → Nat → Nat} {n : PageM ε τ β} {n' : PinM ε τ β} (pageId : Nat)
    (h : Tracks (hold pageId ∘ mid) n n' (fun _ => hold pageId ∘ mid)) :
    Tracks (hold pageId ∘ mid) n (finallyUnpin pageId n') (fun _ => mid) := by
  intro s pins
  cases hn : n s with
  | ok b s₁ =>
    have h' := h.ok hn pins
    have hrun : finallyUnpin pageId n' ⟨s, (hold pageId ∘ mid) pins⟩ =
        .ok b ⟨s₁, release pageId (hold pageId (mid pins))⟩ := by
      simp only [finallyUnpin, h']
      rfl
    exact hrun.trans (by rw [release_hold])
  | error e s₁ =>
    obtain ⟨pins', h'⟩ := h.error hn pins
    exact ⟨_, by simp only [finallyUnpin, h']; rfl⟩

end Tracks

theorem tracks_findLeafPathFrom (key : κ) (fuel pageId : Nat) (path : List Nat) :
    Tracks id (BPlusTree.findLeafPathFrom K key fuel pageId path : PageM ε τ (List Nat))
      (findLeafPathFrom K key fuel pageId path) (fun _ => id) := by
  induction fuel generalizing pageId path with
  | zero => exact .throw _
  | succ fuel ih =>
    refine .bind (.fetchPage pageId) fun page => ?_
    dsimp only
    split
    · exact .unpinPage pageId (.pure path)
    · exact .bind (.lift _) fun _ => .unpinPage pageId (.bind (.lift _) fun _ => .bind (.lift _) fun _ => ih _ _)

theorem tracks_findLeafPath (root : Nat) (key : κ) :
    Tracks id (BPlusTree.findLeafPath K root key : PageM ε τ (List Nat)) (findLeafPath K root key)
      (fun _ => id) := fun s pins =>
  tracks_findLeafPathFrom K key (s.length + 1) root [root] s pins

theorem tracks_findLeaf (root : Nat) (key : κ) :
    Tracks id (BPlusTree.findLeaf K root key : PageM ε τ Nat) (findLeaf K root key) (fun _ => id) :=
  .bind (tracks_findLeafPath K root key) fun _ => .pure _

theorem tracks_search (root : Nat) (key : κ) :
    Tracks id (BPlusTree.search K root key : PageM ε τ (List RID)) (search K root key) (fun _ => id) := by
  exact .bind (tracks_findLeaf K root key) fun _ => .bind (.fetchPage _) fun _ => .finallyUnpin _
    (.bind (.lift _) fun _ => .bind (.lift _) fun _ => .bind (.lift _) fun _ => .pure _)

theorem tracks_insertIntoParent (root : Nat) (path : List Nat) (left : Nat) (k : κ) (right : Nat) :
    Tracks id (BPlusTree.insertIntoParent K root path left k right : PageM ε τ Nat)
      (insertIntoParent K root path left k right) (fun _ => id) := by
  induction path generalizing left k right with
  | nil => exact .bind .newPage fun _ => .bind (.putPage _ _) fun _ => .unpinPage _ (.pure _)
  | cons parent path ih =>
    refine .bind (.fetchPage _) fun _ => .bind (.lift _) fun _ => .bind (.lift _) fun _ => ?_
    dsimp only
    split
    · exact .bind (.putPage _ _) fun _ => .unpinPage _ (.pure _)
    · exact .bind (.lift _) fun _ => .bind .newPage fun _ => .bind (.putPage _ _) fun _ =>
        .unpinPage _ (.bind (.putPage _ _) fun _ => .unpinPage _ (ih _ _ _))

theorem tracks_duplicates (unique : Bool) (root : Nat) (key : κ) :
    Tracks id (BPlusTree.duplicates K unique root key : PageM ε τ (List RID)) (duplicates K unique root key)
      (fun _ => id) := by
  cases unique with
  | false => exact .pure _
  | true => exact tracks_search K root key

/-- Up to the pins, the calls are the same, and one that returns has released its pins. -/
theorem tracks_insert (unique : Bool) (root : Nat) (key : κ) (rid : RID) :
    Tracks id (BPlusTree.insert K unique root key rid : PageM ε τ Nat) (insert K unique root key rid)
      (fun _ => id) := by
  refine .bind (tracks_duplicates K unique root key) fun found => ?_
  split
  · exact .throw _
  · refine .bind (tracks_findLeafPath K root key) fun path => .bind (.fetchPage _) fun _ =>
      .bind (.lift _) fun _ => .bind (.lift _) fun _ => ?_
    dsimp only
    split
    · exact .bind (.putPage _ _) fun _ => .unpinPage _ (.pure _)
    · exact .bind (.lift _) fun _ => .bind .newPage fun _ => .bind (.putPage _ _) fun _ =>
        .unpinPage _ (.bind (.putPage _ _) fun _ => .unpinPage _ (.bind (.lift _) fun _ =>
          tracks_insertIntoParent K _ _ _ _ _))

end Pinned
end Minirel
