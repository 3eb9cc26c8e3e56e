-- SUMMARY: The B+-tree over the page file: node layouts, search, range scan, insert and delete.
import Minirel.Storage.PageFile
import Mathlib.Tactic.Tauto

/-!
# The B+-tree

`index/btree.py` over the page file. Keys are Python values on the way in and
fixed-width encodings on a page, and a node is decoded whenever it is read. What
depends on the kind of key (comparison, equality, encoding) is a `KeyType`:
comparing two keys may raise, and so may encoding one.

The two parallel lists `keys` and `rids` of a leaf are one list of pairs here.
Loops that walk a path of page ids from the leaf upwards take the path reversed,
nearest node first.
-/

namespace Minirel

/-- What a tree needs to know about its keys. -/
structure KeyType (κ ε : Type) where
  keySize : Nat
  lt : κ → κ → Except PyError Bool
  eq : κ → κ → Bool
  encodeKey : κ → Except PyError ε
  decodeKey : ε → Except PyError κ
  repr : κ → String

/-- `ColumnType.INT` keys as native integers. -/
def KeyType.int : KeyType Int Int where
  keySize := 8
  lt a b := .ok (decide (a < b))
  eq a b := decide (a = b)
  encodeKey k := if -2 ^ 63 ≤ k ∧ k < 2 ^ 63 then .ok k else .error .structError
  decodeKey k := .ok k
  repr k := toString k

/-! ## `bisect` -/

section Bisect
variable {κ ε : Type}

/-- The binary search of `bisect`: `below` tells whether an element goes to the
    left of the answer. -/
def bisect (below : κ → Except PyError Bool) (a : List κ) : Nat → Nat → Nat → Except PyError Nat
  | 0, lo, _ => .ok lo
  | fuel + 1, lo, hi =>
    if lo < hi then
      match a[(lo + hi) / 2]? with
      | none => .error .indexError
      | some y => do
        if ← below y then bisect below a fuel ((lo + hi) / 2 + 1) hi
        else bisect below a fuel lo ((lo + hi) / 2)
    else .ok lo

def bisectLeft (K : KeyType κ ε) (a : List κ) (x : κ) : Except PyError Nat :=
  bisect (fun y => K.lt y x) a a.length 0 a.length

def bisectRight (K : KeyType κ ε) (a : List κ) (x : κ) : Except PyError Nat :=
  bisect (fun y => return !(← K.lt x y)) a a.length 0 a.length

end Bisect

/-- `list.insert` at a position that is not negative. -/
def pyInsert {α : Type} (l : List α) (i : Nat) (x : α) : List α :=
  l.take i ++ x :: l.drop i

/-- `list.index`. -/
def pyIndex (l : List Nat) (x : Nat) : Except PyError Nat :=
  match l.idxOf? x with
  | some i => .ok i
  | none => .error (.valueError s!"{x} is not in list")

/-- Subscripting a list. -/
def pyGet {α : Type} (l : List α) (i : Nat) : Except PyError α :=
  match l[i]? with
  | some x => .ok x
  | none => .error .indexError

theorem pyGet_mem {α : Type} {l : List α} {i : Nat} {x : α} (h : pyGet l i = .ok x) : x ∈ l := by
  unfold pyGet at h
  split at h
  · rename_i hx
    cases h
    exact List.mem_of_getElem? hx
  · cases h

theorem mem_pyInsert {α : Type} {l : List α} {i : Nat} {x y : α} :
    y ∈ pyInsert l i x ↔ y = x ∨ y ∈ l := by
  have hl : y ∈ l ↔ y ∈ l.take i ∨ y ∈ l.drop i := by
    rw [← List.mem_append, List.take_append_drop]
  simp only [pyInsert, List.mem_append, List.mem_cons, hl]
  tauto

namespace BPlusTree

def leafHeader : Nat := 7
def internalHeader : Nat := 3
def childSize : Nat := 4
def ridSize : Nat := 6

variable {κ ε τ : Type} (K : KeyType κ ε)

def maxLeafKeys : Nat := max 4 ((pageSize - leafHeader) / (K.keySize + ridSize))
def minLeafKeys : Nat := max 1 (maxLeafKeys K / 2)
def maxInternalKeys : Nat :=
  max 4 ((pageSize - internalHeader - childSize) / (K.keySize + childSize))
def minInternalKeys : Nat := max 1 ((maxInternalKeys K - 1) / 2)

/-! ## Nodes on pages -/

def readLeaf : Page ε τ → Except PyError (List (κ × RID) × Nat)
  | .leaf entries nextLeaf => do
    let decoded ← entries.mapM fun (raw, rid) => return (← K.decodeKey raw, rid)
    return (decoded, nextLeaf)
  | .zero => .ok ([], 0)
  | _ => .error .foreignPage

/-- Keys with `size` bytes after each, laid out one after the other from `offset`
    on. `fits` tells what can be packed into those bytes. -/
def packPairs {β : Type} (size : Nat) (fits : β → Bool) :
    Nat → List (κ × β) → Except PyError (List (ε × β))
  | _, [] => .ok []
  | offset, (key, x) :: rest => do
    let raw ← K.encodeKey key
    let offset := offset + K.keySize
    if offset + size ≤ pageSize ∧ fits x then
      return (raw, x) :: (← packPairs size fits (offset + size) rest)
    else throw .structError

/-- A page id fits its four bytes. -/
def childFits (pageId : Nat) : Bool := pageId < 2 ^ 32

def ridFits (rid : RID) : Bool := rid.pageId < 2 ^ 32 ∧ rid.slotId < 2 ^ 16

/-- The entries of a leaf. -/
def packEntries (entries : List (κ × RID)) : Except PyError (List (ε × RID)) :=
  packPairs K ridSize ridFits leafHeader entries

def writeLeaf (pageId : Nat) (entries : List (κ × RID)) (nextLeaf : Nat) : PageM ε τ Unit :=
  putPage pageId do
    if entries.length < 2 ^ 16 ∧ childFits nextLeaf then
      return .leaf (← packEntries K entries) nextLeaf
    else throw .structError

def readInternal : Page ε τ → Except PyError (List Nat × List κ)
  | .internal child rest => do
    let keys ← rest.mapM fun (raw, _) => K.decodeKey raw
    return (child :: rest.map (·.2), keys)
  | .zero => .ok ([0], [])
  | _ => .error .foreignPage

/-- The keys and children of an internal node after its first child. -/
def packChildren (pairs : List (κ × Nat)) : Except PyError (List (ε × Nat)) :=
  packPairs K childSize childFits (internalHeader + childSize) pairs

def writeInternal (pageId : Nat) (children : List Nat) (keys : List κ) : PageM ε τ Unit :=
  putPage pageId do
    let first ← pyGet children 0
    if keys.length < 2 ^ 16 ∧ childFits first then
      return .internal first (← packChildren K (keys.zip (children.drop 1)))
    else throw .structError

/-- `_node_type(data) == PageType.BTREE_LEAF`. -/
def isLeaf : Page ε τ → Bool
  | .leaf .. => true
  | _ => false

/-- `BPlusTree.__init__` without a root page: an empty leaf on a page of its own.
    Returns the root page id. -/
def create : PageM ε τ Nat := do
  let pageId ← newPage
  writeLeaf K pageId [] invalidPageId
  return pageId

/-! ## Search -/

/-- The loop of `_find_leaf_path`, for `fuel` pages. -/
def findLeafPathFrom (key : κ) : Nat → Nat → List Nat → PageM ε τ (List Nat)
  | 0, _, _ => throw .diverges
  | fuel + 1, pageId, path => do
    let page ← fetchPage pageId
    if isLeaf page then return path
    else
      let (children, keys) ← PageM.lift (readInternal K page)
      let idx ← PageM.lift (bisectRight K keys key)
      let pageId ← PageM.lift (pyGet children idx)
      findLeafPathFrom key fuel pageId (path ++ [pageId])

/-- The path of page ids from the root to the leaf that would contain `key`. A
    descent that visits more pages than the file has goes round in a circle. -/
def findLeafPath (root : Nat) (key : κ) : PageM ε τ (List Nat) := do
  let s ← get
  findLeafPathFrom K key (s.length + 1) root [root]

/-- `_find_leaf_path(key)[-1]`. -/
def findLeaf (root : Nat) (key : κ) : PageM ε τ Nat :=
  return (← findLeafPath K root key).getLastD root

/-- Every RID stored under `key`. -/
def search (root : Nat) (key : κ) : PageM ε τ (List RID) := do
  let leafId ← findLeaf K root key
  let data ← fetchPage leafId
  let (entries, _) ← PageM.lift (readLeaf K data)
  let lo ← PageM.lift (bisectLeft K (entries.map (·.1)) key)
  let hi ← PageM.lift (bisectRight K (entries.map (·.1)) key)
  return ((entries.take hi).drop lo).map (·.2)

def leftmostLeafFrom : Nat → Nat → PageM ε τ Nat
  | 0, _ => throw .diverges
  | fuel + 1, pageId => do
    let page ← fetchPage pageId
    if isLeaf page then return pageId
    else
      let (children, _) ← PageM.lift (readInternal K page)
      leftmostLeafFrom fuel (← PageM.lift (pyGet children 0))

def leftmostLeaf (root : Nat) : PageM ε τ Nat := do
  let s ← get
  leftmostLeafFrom K (s.length + 1) root

/-- Where a scan begins in a leaf with these keys. -/
def scanStart (start : Option κ) (keys : List κ) : Except PyError Nat :=
  match start with
  | none => .ok 0
  | some k => bisectLeft K keys k

/-- The entries of one leaf up to the first key above `stop`, and whether such a
    key was met. -/
def scanLeaf (stop : Option κ) : List (κ × RID) → Except PyError (List (κ × RID) × Bool)
  | [] => .ok ([], false)
  | (key, rid) :: rest => do
    let above ← match stop with
      | none => .ok false
      | some e => K.lt e key
    if above then return ([], true)
    else
      let (found, stopped) ← scanLeaf stop rest
      return ((key, rid) :: found, stopped)

/-- The loop of `range_scan` along the chain of leaves, for `fuel` pages. -/
def rangeScanFrom (start stop : Option κ) : Nat → Nat → PageM ε τ (List (κ × RID))
  | 0, _ => throw .diverges
  | fuel + 1, leafId => do
    if leafId = invalidPageId then return []
    else
      let data ← fetchPage leafId
      let (entries, nextLeaf) ← PageM.lift (readLeaf K data)
      let lo ← PageM.lift (scanStart K start (entries.map (·.1)))
      let (found, stopped) ← PageM.lift (scanLeaf K stop (entries.drop lo))
      if stopped then return found
      else return found ++ (← rangeScanFrom start stop fuel nextLeaf)

/-- The leaf a scan begins at. -/
def firstLeaf (root : Nat) (start : Option κ) : PageM ε τ Nat :=
  match start with
  | some k => findLeaf K root k
  | none => leftmostLeaf K root

/-- The pairs with `start ≤ key ≤ stop` that draining `range_scan` yields; `none`
    is an open end. -/
def rangeScan (root : Nat) (start stop : Option κ) : PageM ε τ (List (κ × RID)) := do
  let leafId ← firstLeaf K root start
  let s ← get
  rangeScanFrom K start stop (s.length + 1) leafId

/-! ## Insert -/

/-- The error of a leaf that cannot be cut. -/
def splitError : PyError :=
  .valueError (s!"cannot split a leaf containing only duplicates of one key " ++
    s!"(more than {maxLeafKeys K} duplicate entries for the same key are not supported)")

/-- Where to cut a list of keys in two so that no run of equal keys is cut. -/
def splitPointAvoidingDuplicates (keys : List κ) : Except PyError Nat := do
  let n := keys.length
  let mid := n / 2
  let atMid ← pyGet keys mid
  let pivot ← pyGet keys (mid - 1)
  if K.eq atMid pivot then
    -- the end of the run of duplicates the middle falls into
    let i := mid + ((keys.drop mid).takeWhile (K.eq · pivot)).length
    if i < n then return i
    else
      -- the run goes to the end: cut before it starts
      let j := mid - 1 - ((keys.take (mid - 1)).reverse.takeWhile (K.eq · pivot)).length
      if 0 < j then return j
      else throw (splitError K)
  else return mid

/-- `_insert_into_parent`, with the ancestors nearest first. Returns the root
    page id. -/
def insertIntoParent (root : Nat) : List Nat → Nat → κ → Nat → PageM ε τ Nat
  | [], leftChild, separator, rightChild => do
    let newRootId ← newPage
    writeInternal K newRootId [leftChild, rightChild] [separator]
    return newRootId
  | parentId :: ancestors, leftChild, separator, rightChild => do
    let data ← fetchPage parentId
    let (children, keys) ← PageM.lift (readInternal K data)
    let idx ← PageM.lift (pyIndex children leftChild)
    let children := pyInsert children (idx + 1) rightChild
    let keys := pyInsert keys idx separator
    if keys.length ≤ maxInternalKeys K then
      writeInternal K parentId children keys
      return root
    else
      let mid := keys.length / 2
      let upKey ← PageM.lift (pyGet keys mid)
      let newInternalId ← newPage
      writeInternal K newInternalId (children.drop (mid + 1)) (keys.drop (mid + 1))
      writeInternal K parentId (children.take (mid + 1)) (keys.take mid)
      insertIntoParent root ancestors parentId upKey newInternalId

/-- `self.unique and self.search(key)`. -/
def duplicates (unique : Bool) (root : Nat) (key : κ) : PageM ε τ (List RID) :=
  if unique then search K root key else pure []

/-- `insert`. Returns the root page id. -/
def insert (unique : Bool) (root : Nat) (key : κ) (rid : RID) : PageM ε τ Nat := do
  if (← duplicates K unique root key) ≠ [] then
    throw (.duplicateKeyError s!"duplicate key in unique index: {K.repr key}")
  else
    let path ← findLeafPath K root key
    let leafId := path.getLastD root
    let data ← fetchPage leafId
    let (entries, nextLeaf) ← PageM.lift (readLeaf K data)
    let pos ← PageM.lift (bisectRight K (entries.map (·.1)) key)
    let entries := pyInsert entries pos (key, rid)
    if entries.length ≤ maxLeafKeys K then
      writeLeaf K leafId entries nextLeaf
      return root
    else
      let mid ← PageM.lift (splitPointAvoidingDuplicates K (entries.map (·.1)))
      let newLeafId ← newPage
      writeLeaf K newLeafId (entries.drop mid) nextLeaf
      writeLeaf K leafId (entries.take mid) newLeafId
      let (separator, _) ← PageM.lift (pyGet (entries.drop mid) 0)
      insertIntoParent K root path.dropLast.reverse leafId separator newLeafId

/-! ## Delete -/

/-- `_commit_internal`. -/
def commitInternal (pageId : Nat) (children : List Nat) (keys : List κ) : PageM ε τ Unit := do
  let _ ← fetchPage pageId
  writeInternal K pageId children keys

/-- How many entries the run of equal keys at the front of a leaf has. -/
def leadingRun : List (κ × RID) → Nat
  | [] => 1
  | (key, _) :: rest => 1 + (rest.takeWhile (K.eq ·.1 key)).length

/-- How many entries the run of equal keys at the end of a leaf has. -/
def trailingRun (entries : List (κ × RID)) : Nat := leadingRun K entries.reverse

/-- The condition both borrows of `_fixup_leaf` check before they move a run of
    `k` entries. -/
def canLend (k lender borrower : Nat) : Bool :=
  k < lender ∧ minLeafKeys K ≤ lender - k ∧ borrower + k ≤ maxLeafKeys K

/-- The part of `_fixup_leaf` that borrows from the right sibling. Returns
    whether it did. -/
def borrowRightLeaf (parentId nodeId : Nat) (pChildren : List Nat) (pKeys : List κ) (idx : Nat)
    (entries : List (κ × RID)) (nextLeaf : Nat) : PageM ε τ Bool := do
  match pChildren[idx + 1]? with
  | none => return false
  | some rightId =>
    let rData ← fetchPage rightId
    let (rEntries, rNext) ← PageM.lift (readLeaf K rData)
    let k := leadingRun K rEntries
    if canLend K k rEntries.length entries.length then
      writeLeaf K rightId (rEntries.drop k) rNext
      let _ ← fetchPage nodeId
      writeLeaf K nodeId (entries ++ rEntries.take k) nextLeaf
      let (separator, _) ← PageM.lift (pyGet (rEntries.drop k) 0)
      commitInternal K parentId pChildren (pKeys.set idx separator)
      return true
    else return false

/-- The part of `_fixup_leaf` that borrows from the left sibling. -/
def borrowLeftLeaf (parentId nodeId : Nat) (pChildren : List Nat) (pKeys : List κ) (idx : Nat)
    (entries : List (κ × RID)) (nextLeaf : Nat) : PageM ε τ Bool := do
  if idx = 0 then return false
  else
    let leftId ← PageM.lift (pyGet pChildren (idx - 1))
    let lData ← fetchPage leftId
    let (lEntries, lNext) ← PageM.lift (readLeaf K lData)
    let k := trailingRun K lEntries
    if canLend K k lEntries.length entries.length then
      let entries := lEntries.drop (lEntries.length - k) ++ entries
      writeLeaf K leftId (lEntries.take (lEntries.length - k)) lNext
      let _ ← fetchPage nodeId
      writeLeaf K nodeId entries nextLeaf
      let (separator, _) ← PageM.lift (pyGet entries 0)
      commitInternal K parentId pChildren (pKeys.set (idx - 1) separator)
      return true
    else return false

/-- The last part of `_fixup_leaf`, for the leaves on both sides of the separator
    at `idx`: put their entries on one page if they fit, else cut them afresh. -/
def combineLeaves (parentId leftId rightId : Nat) (pChildren : List Nat) (pKeys : List κ)
    (idx : Nat) (combined : List (κ × RID)) (nextLeaf : Nat) : PageM ε τ Unit := do
  if combined.length ≤ maxLeafKeys K then
    let _ ← fetchPage leftId
    writeLeaf K leftId combined nextLeaf
    commitInternal K parentId (pChildren.eraseIdx (idx + 1)) (pKeys.eraseIdx idx)
  else
    let split ← PageM.lift (splitPointAvoidingDuplicates K (combined.map (·.1)))
    let _ ← fetchPage leftId
    writeLeaf K leftId (combined.take split) rightId
    let _ ← fetchPage rightId
    writeLeaf K rightId (combined.drop split) nextLeaf
    let (separator, _) ← PageM.lift (pyGet combined split)
    commitInternal K parentId pChildren (pKeys.set idx separator)

def fixupLeaf (parentId : Nat) (pChildren : List Nat) (pKeys : List κ) (idx : Nat) :
    PageM ε τ Unit := do
  let nodeId ← PageM.lift (pyGet pChildren idx)
  let nodeData ← fetchPage nodeId
  let (entries, nextLeaf) ← PageM.lift (readLeaf K nodeData)
  if ← borrowRightLeaf K parentId nodeId pChildren pKeys idx entries nextLeaf then return ()
  else if ← borrowLeftLeaf K parentId nodeId pChildren pKeys idx entries nextLeaf then return ()
  else
    match pChildren[idx + 1]? with
    | some rightId =>
      let rData ← fetchPage rightId
      let (rEntries, rNext) ← PageM.lift (readLeaf K rData)
      combineLeaves K parentId nodeId rightId pChildren pKeys idx (entries ++ rEntries) rNext
    | none =>
      -- `left_id` is `None` on an only child, and fetching it raises
      if idx = 0 then throw .typeError
      else
        let leftId ← PageM.lift (pyGet pChildren (idx - 1))
        let lData ← fetchPage leftId
        let (lEntries, _) ← PageM.lift (readLeaf K lData)
        combineLeaves K parentId leftId nodeId pChildren pKeys (idx - 1)
          (lEntries ++ entries) nextLeaf

/-- The part of `_fixup_internal` that rotates a child in from the right sibling. -/
def rotateRightInternal (parentId nodeId : Nat) (pChildren : List Nat) (pKeys : List κ) (idx : Nat)
    (children : List Nat) (keys : List κ) : PageM ε τ Bool := do
  match pChildren[idx + 1]? with
  | none => return false
  | some rightId =>
    let rData ← fetchPage rightId
    let (rChildren, rKeys) ← PageM.lift (readInternal K rData)
    if minInternalKeys K < rKeys.length then
      let separator ← PageM.lift (pyGet pKeys idx)
      let moved ← PageM.lift (pyGet rChildren 0)
      let newSep ← PageM.lift (pyGet rKeys 0)
      writeInternal K rightId (rChildren.drop 1) (rKeys.drop 1)
      let _ ← fetchPage nodeId
      writeInternal K nodeId (children ++ [moved]) (keys ++ [separator])
      commitInternal K parentId pChildren (pKeys.set idx newSep)
      return true
    else return false

/-- The part of `_fixup_internal` that rotates a child in from the left sibling. -/
def rotateLeftInternal (parentId nodeId : Nat) (pChildren : List Nat) (pKeys : List κ) (idx : Nat)
    (children : List Nat) (keys : List κ) : PageM ε τ Bool := do
  if idx = 0 then return false
  else
    let leftId ← PageM.lift (pyGet pChildren (idx - 1))
    let lData ← fetchPage leftId
    let (lChildren, lKeys) ← PageM.lift (readInternal K lData)
    if minInternalKeys K < lKeys.length then
      let separator ← PageM.lift (pyGet pKeys (idx - 1))
      let moved ← PageM.lift (pyGet lChildren (lChildren.length - 1))
      let newSep ← PageM.lift (pyGet lKeys (lKeys.length - 1))
      writeInternal K leftId lChildren.dropLast lKeys.dropLast
      let _ ← fetchPage nodeId
      writeInternal K nodeId (moved :: children) (separator :: keys)
      commitInternal K parentId pChildren (pKeys.set (idx - 1) newSep)
      return true
    else return false

/-- The last part of `_fixup_internal`: merge the nodes on both sides of the
    separator at `idx` into the left one. -/
def mergeInternals (parentId leftId : Nat) (pChildren : List Nat) (pKeys : List κ) (idx : Nat)
    (lChildren : List Nat) (lKeys : List κ) (rChildren : List Nat) (rKeys : List κ) :
    PageM ε τ Unit := do
  let separator ← PageM.lift (pyGet pKeys idx)
  let _ ← fetchPage leftId
  writeInternal K leftId (lChildren ++ rChildren) (lKeys ++ [separator] ++ rKeys)
  commitInternal K parentId (pChildren.eraseIdx (idx + 1)) (pKeys.eraseIdx idx)

def fixupInternal (parentId : Nat) (pChildren : List Nat) (pKeys : List κ) (idx : Nat) :
    PageM ε τ Unit := do
  let nodeId ← PageM.lift (pyGet pChildren idx)
  let nodeData ← fetchPage nodeId
  let (children, keys) ← PageM.lift (readInternal K nodeData)
  if ← rotateRightInternal K parentId nodeId pChildren pKeys idx children keys then return ()
  else if ← rotateLeftInternal K parentId nodeId pChildren pKeys idx children keys then return ()
  else
    match pChildren[idx + 1]? with
    | some rightId =>
      let rData ← fetchPage rightId
      let (rChildren, rKeys) ← PageM.lift (readInternal K rData)
      mergeInternals K parentId nodeId pChildren pKeys idx children keys rChildren rKeys
    | none =>
      if idx = 0 then throw .typeError
      else
        let leftId ← PageM.lift (pyGet pChildren (idx - 1))
        let lData ← fetchPage leftId
        let (lChildren, lKeys) ← PageM.lift (readInternal K lData)
        mergeInternals K parentId leftId pChildren pKeys (idx - 1) lChildren lKeys children keys

/-- `_maybe_shrink_root`. Returns the root page id. -/
def maybeShrinkRoot (root : Nat) : PageM ε τ Nat := do
  let data ← fetchPage root
  match data with
  | .internal .. =>
    let (children, keys) ← PageM.lift (readInternal K data)
    if keys.length = 0 then PageM.lift (pyGet children 0) else return root
  | _ => return root

/-- The loop of `_fixup_after_delete`, from the modified leaf back up to the
    root. Returns the root page id. -/
def fixupAfterDelete (root : Nat) : List Nat → PageM ε τ Nat
  | nodeId :: parentId :: ancestors => do
    let data ← fetchPage nodeId
    let count ← if isLeaf data then
        (fun e => e.1.length) <$> PageM.lift (readLeaf K data)
      else (fun e => e.2.length) <$> PageM.lift (readInternal K data)
    let minKeys := if isLeaf data then minLeafKeys K else minInternalKeys K
    if minKeys ≤ count then return root
    else
      let parentData ← fetchPage parentId
      let (pChildren, pKeys) ← PageM.lift (readInternal K parentData)
      let idx ← PageM.lift (pyIndex pChildren nodeId)
      if isLeaf data then fixupLeaf K parentId pChildren pKeys idx
      else fixupInternal K parentId pChildren pKeys idx
      fixupAfterDelete root (parentId :: ancestors)
  | _ => maybeShrinkRoot K root

/-- The position of the first entry from `lo` up to `hi` with this RID. -/
def findTarget (entries : List (κ × RID)) (lo hi : Nat) (rid : RID) : Option Nat :=
  (((entries.take hi).drop lo).findIdx? (·.2 = rid)).map (lo + ·)

/-- `delete`. Returns whether the pair was there, and the root page id. -/
def delete (root : Nat) (key : κ) (rid : RID) : PageM ε τ (Bool × Nat) := do
  let path ← findLeafPath K root key
  let leafId := path.getLastD root
  let data ← fetchPage leafId
  let (entries, nextLeaf) ← PageM.lift (readLeaf K data)
  let lo ← PageM.lift (bisectLeft K (entries.map (·.1)) key)
  let hi ← PageM.lift (bisectRight K (entries.map (·.1)) key)
  match findTarget entries lo hi rid with
  | none => return (false, root)
  | some target =>
    writeLeaf K leafId (entries.eraseIdx target) nextLeaf
    let root ← fixupAfterDelete K root path.reverse
    return (true, root)

end BPlusTree
end Minirel
