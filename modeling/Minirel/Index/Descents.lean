-- SUMMARY: Descents of a B+-tree on any data file: they end unless a page leads back to itself.
import Minirel.Index.Keys
import Minirel.Lib.Walk
import Minirel.Encoding
import Minirel.Lib.Fueled
import Minirel.Storage.Visits

/-!
# Descents on bytes

`_find_leaf_path`, `_leftmost_leaf` and `height` on pages of any bytes. Each of them reads a
page, stops at a leaf, takes any other page for an internal node and goes on to one of its
children. None of them remembers where it was. A loop is given fuel for the pages it visits.
-/

namespace Minirel

open BufferPool Encoding

inductive PageType where
  | free
  | heap
  | btreeInternal
  | btreeLeaf
  deriving DecidableEq, Repr

/-- `PageType(tag)`. -/
def PageType.ofTag (tag : Nat) : Except PyError PageType :=
  match [free, heap, btreeInternal, btreeLeaf][tag]? with
  | some pageType => .ok pageType
  | none => .error (.valueError s!"{tag} is not a valid PageType")

/-- A tree on a data file. The constructor refuses other keys, and sets the size of an INT. -/
structure RawTree where
  keyType : ColumnType
  keySize : Nat
  rootPageId : Nat
  indexable : keyType = .int ∨ keyType = .text
  keySize_int : keyType = .int → keySize = 8

namespace RawTree

variable (T : RawTree)

/-! ## Nodes -/

/-- `_decode_key`. -/
def decodeKey (raw : Bytes) : Except PyError Value :=
  match T.keyType with
  | .int => if raw.length = 8 then .ok (.int (signed 8 (ofLittleEndian raw))) else .error .structError
  | _ => do return .str (← decodeText raw)

/-- `_node_type`. -/
def nodeType (data : Bytes) : Except PyError PageType :=
  match data[0]? with
  | some tag => PageType.ofTag tag.toNat
  | none => .error .indexError

/-- The loop of `_read_internal`: the keys from `offset` on, each with the child after it. -/
def readEntries (data : Bytes) : Nat → Nat → Except PyError (List (Value × Nat))
  | 0, _ => .ok []
  | numKeys + 1, offset => do
    let key ← T.decodeKey ((data.drop offset).take T.keySize)
    let child ← unpackFrom data (offset + T.keySize) 4
    return (key, child) :: (← readEntries data numKeys (offset + T.keySize + 4))

/-- `_read_internal`. -/
def readInternal (data : Bytes) : Except PyError (List Nat × List Value) := do
  let numKeys ← unpackFrom data 1 2
  let child ← unpackFrom data 3 4
  let entries ← T.readEntries data numKeys 7
  return (child :: entries.map (·.2), entries.map (·.1))

/-- What a descent reads of a page: nothing more than its type if it is a leaf. -/
def readNode (data : Bytes) : Except PyError (Option (List Nat × List Value)) := do
  if (← nodeType data) = .btreeLeaf then return none else return some (← T.readInternal data)

/-! ## Descents -/

/-- How a descent goes on from the children and keys of a node. -/
abbrev Pick := List Nat → List Value → Except PyError Nat

/-- `children[0]`. -/
def firstChild : Pick := fun children _ => pyGet children 0

/-- `children[bisect_right(keys, key)]`. -/
def childFor (C : Conversions) (key : Value) : Pick := fun children keys => do
  pyGet children (← bisectRight (KeyType.ofColumn C T.keyType) keys key)

/-- The loop from a page down to a leaf, with what is made of the pages on the way. -/
def descendFrom {σ : Type} (pick : Pick) (note : σ → Nat → σ) : Nat → σ → Nat → PoolM Bytes (σ × Nat)
  | 0, _, _ => throw .diverges
  | fuel + 1, noted, pageId => do
    match ← visit pageId T.readNode with
    | none => return (noted, pageId)
    | some (children, keys) =>
      let child ← PoolM.lift (pick children keys)
      descendFrom pick note fuel (note noted child) child

/-- `_find_leaf_path`. -/
def findLeafPath (C : Conversions) (key : Value) (fuel : Nat) : PoolM Bytes (List Nat) := do
  let (path, _) ← T.descendFrom (T.childFor C key) (fun path pageId => path ++ [pageId]) fuel
    [T.rootPageId] T.rootPageId
  return path

/-- `_leftmost_leaf`. -/
def leftmostLeaf (fuel : Nat) : PoolM Bytes Nat := do
  let (_, pageId) ← T.descendFrom firstChild (fun _ _ => ()) fuel () T.rootPageId
  return pageId

def height (fuel : Nat) : PoolM Bytes Nat := do
  let (h, _) ← T.descendFrom firstChild (fun h _ => h + 1) fuel 1 T.rootPageId
  return h

/-- The page that a descent goes on to. -/
def childOf (pick : Pick) (look : Nat → Option Bytes) (pageId : Nat) : Option Nat :=
  (look pageId).bind fun data =>
    match T.readNode data with
    | .ok (some (children, keys)) => (pick children keys).toOption
    | _ => none

/-- One page leads to the other. -/
def LeadsTo (pick : Pick) (look : Nat → Option Bytes) (p q : Nat) : Prop :=
  T.childOf pick look p = some q

/-! ## Errors -/

variable {T} {data : Bytes} {e : PyError}

theorem unpackFrom_declared {offset width : Nat} (h : unpackFrom data offset width = .error e) :
    e ≠ .diverges := by
  rw [(unpackFrom_error h).1]
  nofun

theorem decodeKey_error {raw : Bytes} (h : T.decodeKey raw = .error e) : e ≠ .diverges := by
  unfold decodeKey at h
  split at h
  · split at h
    · cases h
    · cases h
      decide
  · rcases bind_eq_error.mp h with htext | ⟨text, -, h⟩
    · unfold decodeText at htext
      split at htext
      · cases htext
      · cases htext
        decide
    · cases h

theorem readEntries_error {numKeys offset : Nat} (h : T.readEntries data numKeys offset = .error e) :
    e ≠ .diverges := by
  induction numKeys generalizing offset with
  | zero => cases h
  | succ numKeys ih =>
    rcases bind_eq_error.mp h with hkey | ⟨key, -, h⟩
    · exact decodeKey_error hkey
    rcases bind_eq_error.mp h with hchild | ⟨child, -, h⟩
    · exact unpackFrom_declared hchild
    rcases bind_eq_error.mp h with hrest | ⟨rest, -, h⟩
    · exact ih hrest
    · cases h

theorem readInternal_error (h : T.readInternal data = .error e) : e ≠ .diverges := by
  rcases bind_eq_error.mp h with hcount | ⟨numKeys, -, h⟩
  · exact unpackFrom_declared hcount
  rcases bind_eq_error.mp h with hchild | ⟨child, -, h⟩
  · exact unpackFrom_declared hchild
  rcases bind_eq_error.mp h with hentries | ⟨entries, -, h⟩
  · exact readEntries_error hentries
  · cases h

theorem nodeType_error (h : nodeType data = .error e) : e ≠ .diverges := by
  unfold nodeType PageType.ofTag at h
  split at h
  · split at h
    · cases h
    · cases h
      nofun
  · cases h
    nofun

/-- A page is read, or it raises. -/
theorem readNode_error (h : T.readNode data = .error e) : e ≠ .diverges := by
  rcases bind_eq_error.mp h with htype | ⟨pageType, -, h⟩
  · exact nodeType_error htype
  split at h
  · cases h
  · rcases bind_eq_error.mp h with hnode | ⟨node, -, h⟩
    · exact readInternal_error hnode
    · cases h

theorem pyGet_error {α : Type} {l : List α} {i : Nat} (h : pyGet l i = .error e) : e ≠ .diverges := by
  unfold pyGet at h
  split at h
  · cases h
  · cases h
    nofun

theorem lt_error {v w : Value} (h : v.lt w = .error e) : e ≠ .diverges := by
  unfold Value.lt Value.order at h
  split at h
  · cases h
  · split at h
    · cases h
    · cases h
      nofun

theorem bisect_error {κ : Type} {below : κ → Except PyError Bool} {keys : List κ}
    (hbelow : ∀ y e, below y = .error e → e ≠ .diverges) {fuel lo hi : Nat}
    (h : bisect below keys fuel lo hi = .error e) : e ≠ .diverges := by
  induction fuel generalizing lo hi with
  | zero => cases h
  | succ fuel ih =>
    unfold bisect at h
    split at h
    · split at h
      · cases h
        nofun
      · rcases bind_eq_error.mp h with hkey | ⟨goes, -, h⟩
        · exact hbelow _ _ hkey
        · split at h
          · exact ih h
          · exact ih h
    · cases h

/-- The choice of a child raises nothing but exceptions of its own. -/
def Pick.Raises (pick : Pick) : Prop := ∀ children keys e, pick children keys = .error e → e ≠ .diverges

theorem raises_firstChild : Pick.Raises firstChild := fun _ _ _ h => pyGet_error h

theorem raises_childFor (C : Conversions) (key : Value) : (T.childFor C key).Raises := by
  intro children keys e h
  rcases bind_eq_error.mp h with hkeys | ⟨idx, -, h⟩
  · refine bisect_error (fun y e hbelow => ?_) hkeys
    rcases bind_eq_error.mp hbelow with hlt | ⟨b, -, h⟩
    · have hvalues : (KeyType.ofColumn C T.keyType).lt = Value.lt := by cases T.keyType <;> rfl
      rw [hvalues] at hlt
      exact lt_error hlt
    · cases h
  · exact pyGet_error h

/-! ## When a descent ends -/

section
variable {σ : Type} {pick : Pick} {note : σ → Nat → σ} {noted : σ} {look : Nat → Option Bytes}
  {pool : BufferPool Bytes} {pageId n : Nat}

theorem leadsTo_iff {p q : Nat} : T.LeadsTo pick look p q ↔
    ∃ data children keys, look p = some data ∧ T.readNode data = .ok (some (children, keys)) ∧
      pick children keys = .ok q := by
  rw [LeadsTo, childOf, Option.bind_eq_some_iff]
  constructor
  · rintro ⟨data, hdata, hchild⟩
    split at hchild
    · rename_i children keys hnode
      exact ⟨data, children, keys, hdata, hnode, toOption_eq_some.mp hchild⟩
    · cases hchild
  · rintro ⟨data, children, keys, hdata, hnode, hpick⟩
    refine ⟨data, hdata, ?_⟩
    rw [hnode]
    exact toOption_eq_some.mpr hpick

/-- A descent ends from a page that every way down from ends. -/
theorem descend_ends (hpick : pick.Raises)
    (hacc : Acc (fun q p => T.LeadsTo pick look p q) pageId) (hpool : Shows look pool) :
    Ends (· ≠ .diverges) (fun fuel => T.descendFrom pick note fuel noted pageId) (fun _ _ => True)
      pool := by
  induction hacc generalizing pool noted with
  | intro pageId _ ih =>
    have hvisit : Ends (· ≠ .diverges) (fun _ => visit pageId T.readNode)
        (fun node pool' => Shows look pool' ∧ ∃ data, look pageId = some data ∧
          T.readNode data = .ok node) pool := by
      refine Ends.of_wp ((wp_visit hpool pageId T.readNode).mono (fun _ _ hQ => hQ) ?_)
      rintro e _ (⟨he, -⟩ | ⟨data, -, herr⟩)
      · exact he
      · exact readNode_error herr
    refine Ends.succ (hvisit.bind fun node pool₁ hvisited => ?_) (fun fuel => rfl) ⟨_, _, rfl⟩
    obtain ⟨hpool₁, data, hdata, hnode⟩ := hvisited
    cases node with
    | none => exact Ends.of_ok (fun _ => rfl) trivial
    | some node =>
      obtain ⟨children, keys⟩ := node
      have hlift : Ends (· ≠ .diverges) (fun _ => PoolM.lift (pick children keys))
          (fun child pool' => Shows look pool' ∧ pick children keys = .ok child) pool₁ :=
        Ends.of_wp (PoolM.wp_lift (fun child hchild => ⟨hpool₁, hchild⟩) (hpick children keys))
      refine hlift.bind fun child pool₂ hpicked => ?_
      exact ih child (leadsTo_iff.mpr ⟨data, children, keys, hdata, hnode, hpicked.2⟩) hpicked.1

/-- From any other page it never comes to its end. -/
theorem descend_diverges (hacc : ¬Acc (fun q p => T.LeadsTo pick look p q) pageId)
    (hpool : Shows look pool) (fuel : Nat) :
    wp (T.descendFrom pick note fuel noted pageId) (fun _ _ => False) (fun e _ => e = .diverges)
      pool := by
  induction fuel generalizing pool pageId noted with
  | zero => rfl
  | succ fuel ih =>
    obtain ⟨child, hleads, hchild⟩ : ∃ q, T.LeadsTo pick look pageId q ∧
        ¬Acc (fun q p => T.LeadsTo pick look p q) q := by
      by_contra hnone
      exact hacc (Acc.intro _ fun q hq => by_contra fun hq' => hnone ⟨q, hq, hq'⟩)
    obtain ⟨data, children, keys, hdata, hnode, hpick⟩ := leadsTo_iff.mp hleads
    refine (wp_visit hpool pageId T.readNode).bind (fun node pool₁ hvisited => ?_) fun e pool₁ he => ?_
    · obtain ⟨hpool₁, data', hdata', hnode'⟩ := hvisited
      obtain rfl := Option.some.inj (hdata.symm.trans hdata')
      obtain rfl := Except.ok.inj (hnode.symm.trans hnode')
      refine wp_bind.mpr (PoolM.wp_lift (fun child' hpick' => ?_) fun e herr => ?_)
      · obtain rfl := Except.ok.inj (hpick.symm.trans hpick')
        exact ih hchild hpool₁
      · cases herr.symm.trans hpick
    · rcases he with ⟨-, hnone⟩ | ⟨data', hdata', herr⟩
      · cases hnone.symm.trans hdata
      · obtain rfl := Option.some.inj (hdata.symm.trans hdata')
        cases herr.symm.trans hnode

end

/-- The computation returns or raises. -/
def Terminates {σ α : Type} (m : Fueled PyError σ α) (s : σ) : Prop :=
  Ends (· ≠ .diverges) m (fun _ _ => True) s

/-- A descent in a file of `n` pages ends unless it comes to a page that leads back to itself,
    whatever is made of the pages on the way. -/
theorem terminates_iff {σ α : Type} {pick : Pick} {note : σ → Nat → σ} {noted : σ}
    {look : Nat → Option Bytes} {pool : BufferPool Bytes} {pageId n : Nat} (result : σ × Nat → α)
    (hpick : pick.Raises) (hlook : ∀ p data, look p = some data → p < n) (hpool : Shows look pool) :
    Terminates (fun fuel => do return result (← T.descendFrom pick note fuel noted pageId)) pool ↔
      ¬Circles (T.LeadsTo pick look) pageId := by
  have hfin : {p | ∃ q, T.LeadsTo pick look p q}.Finite := by
    refine (Set.finite_lt_nat n).subset ?_
    rintro p ⟨q, hleads⟩
    obtain ⟨data, children, keys, hdata, -, -⟩ := leadsTo_iff.mp hleads
    exact hlook p data hdata
  rw [← acc_iff_not_circles hfin]
  constructor
  · rintro ⟨⟨m, hend⟩, -⟩
    by_contra hacc
    have hdiverges : wp (do return result (← T.descendFrom pick note m noted pageId))
        (fun _ _ => False) (fun e _ => e = .diverges) pool :=
      (descend_diverges hacc hpool m).bind (fun _ _ hf => hf.elim) fun _ _ he => he
    rcases hend with ⟨a, s', hrun⟩ | ⟨e, s', he, hrun⟩
    · exact hdiverges.ok (hrun m le_rfl)
    · exact he (hdiverges.error (hrun m le_rfl))
  · intro hacc
    exact (descend_ends hpick hacc hpool).bind fun a _ _ => Ends.of_ok (fun _ => rfl) trivial

/-! ## Any data file -/

/-- On the way down from the root, through the pages that the pool can fetch, a page leads back
    to itself. -/
def GoesRound (T : RawTree) (pick : Pick) (file : Bytes) (pool : BufferPool Bytes) : Prop :=
  Circles (T.LeadsTo pick (shown pool (DiskManager.pages file))) T.rootPageId

section
variable {file : Bytes} {pool : BufferPool Bytes} {pins : Nat → Nat} {changed : Nat → Prop}

theorem terminates_iff_not_goesRound {σ α : Type} {pick : Pick} {note : σ → Nat → σ} {noted : σ}
    (result : σ × Nat → α) (hpick : pick.Raises)
    (hpool : Sound pool pins changed (DiskManager.pages file)) :
    Terminates (fun fuel => do return result (← T.descendFrom pick note fuel noted T.rootPageId)) pool ↔
      ¬T.GoesRound pick file pool :=
  terminates_iff result hpick
    (fun _ _ hdata => (List.getElem?_eq_some_iff.mp (shown_eq_some.mp hdata).2).1) hpool.shows

theorem findLeafPath_terminates_iff (C : Conversions) (key : Value)
    (hpool : Sound pool pins changed (DiskManager.pages file)) :
    Terminates (T.findLeafPath C key) pool ↔ ¬T.GoesRound (T.childFor C key) file pool :=
  terminates_iff_not_goesRound Prod.fst (raises_childFor C key) hpool

theorem leftmostLeaf_terminates_iff (hpool : Sound pool pins changed (DiskManager.pages file)) :
    Terminates T.leftmostLeaf pool ↔ ¬T.GoesRound firstChild file pool :=
  terminates_iff_not_goesRound Prod.snd raises_firstChild hpool

theorem height_terminates_iff (hpool : Sound pool pins changed (DiskManager.pages file)) :
    Terminates T.height pool ↔ ¬T.GoesRound firstChild file pool :=
  terminates_iff_not_goesRound Prod.fst raises_firstChild hpool

/-- On the pages of any data file a descent ends if and only if no page that it comes to leads
    back to itself by the pointers it goes along: those of the key, or the first of each page. -/
theorem descents_end_iff (T : RawTree) (C : Conversions)
    (hpool : Sound pool pins changed (DiskManager.pages file)) :
    (∀ key, Terminates (T.findLeafPath C key) pool ↔ ¬T.GoesRound (T.childFor C key) file pool) ∧
    (Terminates T.leftmostLeaf pool ↔ ¬T.GoesRound firstChild file pool) ∧
    (Terminates T.height pool ↔ ¬T.GoesRound firstChild file pool) :=
  ⟨fun key => findLeafPath_terminates_iff C key hpool, leftmostLeaf_terminates_iff hpool,
    height_terminates_iff hpool⟩

end

/-! ## A page that was never written -/

/-- A file with one page that was allocated and not written after that. -/
def unwritten : Bytes := List.replicate pageSize 0

/-- An INT index with its root there. -/
def ofUnwritten : RawTree := ⟨.int, 8, 0, .inl rfl, fun _ => rfl⟩

/-- A page of zeros reads as an internal node without keys whose child is page 0. -/
theorem readNode_unwritten : T.readNode unwritten = .ok (some ([0], [])) := by
  have hfield : ∀ {offset width}, offset + width ≤ pageSize →
      unpackFrom unwritten offset width = .ok 0 := by
    intro offset width hle
    rw [unpackFrom, unwritten, fieldAt_zeros hle]
  have hinternal : T.readInternal unwritten = .ok ([0], []) := by
    rw [readInternal, @hfield 1 2 (by decide), @hfield 3 4 (by decide)]
    rfl
  rw [readNode, hinternal]
  rfl

theorem pages_unwritten : DiskManager.pages unwritten = [unwritten] := by
  have hcount : DiskManager.numPages unwritten = 1 := by
    rw [DiskManager.numPages, unwritten, List.length_replicate]
    rfl
  have hbytes : DiskManager.pageBytes unwritten 0 = unwritten := by
    simp [DiskManager.pageBytes, unwritten]
  simp [DiskManager.pages, hcount, hbytes]

theorem goesRound_unwritten {pick : Pick} (hpick : pick [0] [] = .ok 0) :
    ofUnwritten.GoesRound pick unwritten (init [] (DiskManager.pages unwritten) 64) := by
  refine ⟨0, .refl, .single (leadsTo_iff.mpr ⟨unwritten, [0], [], ?_, readNode_unwritten, hpick⟩)⟩
  refine shown_eq_some.mpr ⟨.inr fun hfull => ?_, by rw [pages_unwritten]; rfl⟩
  cases hfull.1

/-- Every descent from there goes round for ever. -/
theorem descents_unwritten :
    (∀ key, ¬Terminates (ofUnwritten.findLeafPath .integral key)
      (init [] (DiskManager.pages unwritten) 64)) ∧
    ¬Terminates ofUnwritten.leftmostLeaf (init [] (DiskManager.pages unwritten) 64) ∧
    ¬Terminates ofUnwritten.height (init [] (DiskManager.pages unwritten) 64) := by
  have hsound := sound_init [] (DiskManager.pages unwritten) 64
  refine ⟨fun key hends => ?_, fun hends => ?_, fun hends => ?_⟩
  · exact (findLeafPath_terminates_iff .integral key hsound).mp hends (goesRound_unwritten rfl)
  · exact (leftmostLeaf_terminates_iff hsound).mp hends (goesRound_unwritten rfl)
  · exact (height_terminates_iff hsound).mp hends (goesRound_unwritten rfl)

/-- The same index once the file is empty. -/
theorem descents_end_iff_empty :
    (∀ key, Terminates (ofUnwritten.findLeafPath .integral key) (init [] (DiskManager.pages []) 64) ↔
      ¬ofUnwritten.GoesRound (ofUnwritten.childFor .integral key) []
        (init [] (DiskManager.pages []) 64)) ∧
    (Terminates ofUnwritten.leftmostLeaf (init [] (DiskManager.pages []) 64) ↔
      ¬ofUnwritten.GoesRound firstChild [] (init [] (DiskManager.pages []) 64)) ∧
    (Terminates ofUnwritten.height (init [] (DiskManager.pages []) 64) ↔
      ¬ofUnwritten.GoesRound firstChild [] (init [] (DiskManager.pages []) 64)) :=
  descents_end_iff ofUnwritten .integral (sound_init [] _ 64)

end RawTree
end Minirel
