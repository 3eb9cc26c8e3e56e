-- SUMMARY: The nodes of a B+-tree in the bytes of their pages: what is written is read back.
import Minirel.Index.Descents
import Minirel.Storage.PageBytes

/-!
# Nodes in bytes

`_write_leaf`, `_write_internal` and their readers on the bytes of a page. A node is written
over whatever the page held before, and only its count tells a reader where it ends. The page
file of `Index.Btree` keeps what a node stores: here a page of it stands on bytes that begin
with that node.
-/

namespace Minirel

open Encoding BPlusTree

namespace RawTree

variable (T : RawTree) (C : Conversions)

/-! ## Capacities -/

def maxLeafKeys : Nat := max 4 ((pageSize - leafHeader) / (T.keySize + ridSize))
def maxInternalKeys : Nat := max 4 ((pageSize - internalHeader - childSize) / (T.keySize + childSize))

/-! ## Writing -/

/-- `_encode_key`. -/
def encodeKey (key : Value) : Except PyError Bytes :=
  match T.keyType with
  | .int => do
    let i ← C.toInt key
    if -2 ^ 63 ≤ i ∧ i < 2 ^ 63 then return littleEndian 8 (unsigned 8 i) else throw .structError
  | _ =>
    let raw := (utf8 (C.toStr key)).take T.keySize
    .ok (raw ++ List.replicate (T.keySize - raw.length) 0)

/-- The loops of `_write_leaf` and `_write_internal`: keys with `fields` of `size` bytes behind
    each, from `offset` on. -/
def writePairs {β : Type} (size : Nat) (fields : β → List (Nat × Nat)) : Nat → List (Value × β) → BytesM Unit
  | _, [] => return
  | offset, (key, x) :: rest => do
    let raw ← BytesM.lift (T.encodeKey C key)
    BytesM.setSlice offset (offset + T.keySize) raw
    BytesM.packInto (offset + T.keySize) (fields x)
    writePairs size fields (offset + T.keySize + size) rest

def ridFields (rid : RID) : List (Nat × Nat) := [(4, rid.pageId), (2, rid.slotId)]

def childFields (child : Nat) : List (Nat × Nat) := [(4, child)]

/-- `_write_leaf`. -/
def writeLeaf (keys : List Value) (rids : List RID) (nextLeaf : Nat) : BytesM Unit := do
  BytesM.setByte 0 3
  BytesM.packInto 1 [(2, keys.length)]
  BytesM.packInto 3 [(4, nextLeaf)]
  T.writePairs C ridSize ridFields leafHeader (keys.zip rids)

/-- `_write_internal`. -/
def writeInternal (children : List Nat) (keys : List Value) : BytesM Unit := do
  BytesM.setByte 0 2
  BytesM.packInto 1 [(2, keys.length)]
  let first ← BytesM.lift (pyGet children 0)
  BytesM.packInto internalHeader [(4, first)]
  T.writePairs C childSize childFields (internalHeader + childSize) (keys.zip (children.drop 1))

/-! ## Reading -/

/-- The loop of `_read_leaf`, and that of `_read_internal` after the first child. -/
def readPairs {β : Type} (size : Nat) (unpack : Bytes → Nat → Except PyError β) (data : Bytes) :
    Nat → Nat → Except PyError (List (Value × β))
  | 0, _ => .ok []
  | numKeys + 1, offset => do
    let key ← T.decodeKey ((data.drop offset).take T.keySize)
    let x ← unpack data (offset + T.keySize)
    return (key, x) :: (← readPairs size unpack data numKeys (offset + T.keySize + size))

def unpackRid (data : Bytes) (offset : Nat) : Except PyError RID := do
  return ⟨← unpackFrom data offset 4, ← unpackFrom data (offset + 4) 2⟩

/-- `_read_leaf`. -/
def readLeaf (data : Bytes) : Except PyError (List Value × List RID × Nat) := do
  let numKeys ← unpackFrom data 1 2
  let nextLeaf ← unpackFrom data 3 4
  let entries ← T.readPairs ridSize unpackRid data numKeys leafHeader
  return (entries.map (·.1), entries.map (·.2), nextLeaf)

theorem readEntries_eq (data : Bytes) (numKeys offset : Nat) :
    T.readEntries data numKeys offset =
      T.readPairs childSize (fun data offset => unpackFrom data offset 4) data numKeys offset := by
  induction numKeys generalizing offset with
  | zero => rfl
  | succ numKeys ih =>
    rw [readEntries, readPairs, ih]
    rfl

/-! ## Keys -/

/-- The bytes of a key. -/
def keyBytes : RawKey → Bytes
  | .int i => littleEndian 8 (unsigned 8 i)
  | .text bytes => bytes

/-- A key as it is stored in the tree. -/
def IsKey : RawKey → Prop
  | .int i => T.keyType = .int ∧ -2 ^ 63 ≤ i ∧ i < 2 ^ 63
  | .text bytes => T.keyType = .text ∧ bytes.length = 8

/-- What the tree over the page file knows about its keys. -/
abbrev keys : KeyType Value RawKey := KeyType.ofColumn C T.keyType

variable {T C} {key : Value} {raw : RawKey}

theorem keySize_keys : (T.keys C).keySize = 8 := by
  unfold keys KeyType.ofColumn
  split <;> rfl

theorem maxLeafKeys_keys (hsize : T.keySize = 8) : BPlusTree.maxLeafKeys (T.keys C) = T.maxLeafKeys := by
  rw [BPlusTree.maxLeafKeys, maxLeafKeys, keySize_keys, hsize]

theorem maxInternalKeys_keys (hsize : T.keySize = 8) :
    BPlusTree.maxInternalKeys (T.keys C) = T.maxInternalKeys := by
  rw [BPlusTree.maxInternalKeys, maxInternalKeys, keySize_keys, hsize]

theorem length_encodeText (s : String) : (encodeText s).length = 8 := by
  have hle := List.length_take_le textKeySize (utf8 s)
  simp only [encodeText, textKeySize, List.length_append, List.length_replicate] at hle ⊢
  omega

theorem IsKey.length_eq (h : T.IsKey raw) : (keyBytes raw).length = 8 := by
  cases raw with
  | int i => exact length_littleEndian 8 _
  | text bytes => exact h.2

/-- Both encode a key to the same bytes, or fail alike. -/
theorem encodeKey_refines (hsize : T.keySize = 8) (key : Value) :
    match (T.keys C).encodeKey key with
    | .ok raw => T.encodeKey C key = .ok (keyBytes raw) ∧ T.IsKey raw
    | .error e => T.encodeKey C key = .error e := by
  rcases T.indexable with hint | htext
  · simp only [encodeKey, keys, hint, KeyType.ofColumn]
    cases C.toInt key with
    | error e => rfl
    | ok i =>
      simp only [bind, Except.bind]
      by_cases hrange : -2 ^ 63 ≤ i ∧ i < 2 ^ 63
      · rw [if_pos hrange, if_pos hrange]
        exact ⟨rfl, hint, hrange⟩
      · rw [if_neg hrange, if_neg hrange]
        rfl
  · simp only [encodeKey, keys, htext, KeyType.ofColumn, hsize]
    exact ⟨rfl, htext, length_encodeText _⟩

theorem decodeKey_keyBytes (h : T.IsKey raw) : T.decodeKey (keyBytes raw) = (T.keys C).decodeKey raw := by
  have hlength := h.length_eq
  cases raw with
  | int i =>
    obtain ⟨hint, hrange⟩ := h
    have hback : signed 8 (ofLittleEndian (keyBytes (.int i))) = i := by
      rw [keyBytes, ofLittleEndian_littleEndian (unsigned_lt 8 i)]
      exact signed_unsigned (by norm_num; omega) (by norm_num; omega)
    simp only [decodeKey, keys, hint, KeyType.ofColumn]
    rw [if_pos hlength, hback]
  | text bytes =>
    simp only [decodeKey, keys, h.1, KeyType.ofColumn]
    rfl

/-! ## Keys with fields behind them -/

section
variable {β : Type} {size : Nat} {fields : β → List (Nat × Nat)} {fits : β → Bool}
  {before rest after data : Bytes}

/-- The bytes of keys with fields behind them. -/
def pairsBytes (fields : β → List (Nat × Nat)) (pairs : List (RawKey × β)) : Bytes :=
  pairs.flatMap fun x => keyBytes x.1 ++ packed (fields x.2)

/-- What is behind a key has a size and a range that `fields` respects. -/
structure Behind (size : Nat) (fields : β → List (Nat × Nat)) (fits : β → Bool) : Prop where
  pos : 0 < size
  length_eq : ∀ x, (packed (fields x)).length = size
  fits_iff : ∀ x, fits x = true ↔ ∀ f ∈ fields x, f.2 < 256 ^ f.1

theorem behind_rid : Behind ridSize ridFields ridFits where
  pos := by decide
  length_eq rid := by simp [ridFields, ridSize]
  fits_iff rid := by simp [ridFits, ridFields]

theorem behind_child : Behind childSize childFields childFits where
  pos := by decide
  length_eq child := by simp [childFields, childSize]
  fits_iff child := by simp [childFits, childFields]

/-- One key is written with its fields, or there is no room for both. -/
theorem writePair_eq (hb : Behind size fields fits) (hraw : T.IsKey raw) (x : β)
    (hdata : (before ++ rest).length = pageSize) :
    (do BytesM.setSlice before.length (before.length + 8) (keyBytes raw)
        BytesM.packInto (before.length + 8) (fields x)) (before ++ rest) =
      if before.length + 8 + size ≤ pageSize ∧ fits x then
        .ok () (before ++ (keyBytes raw ++ packed (fields x)) ++ rest.drop (8 + size))
      else .error .structError (before ++ keyBytes raw ++ rest.drop 8) := by
  have hslice := @BytesM.setSlice_at before rest (keyBytes raw) _ (before.length + 8) 8 rfl rfl
  have hoffset : (before ++ keyBytes raw).length = before.length + 8 := by
    rw [List.length_append, hraw.length_eq]
  rw [List.length_append] at hdata
  rw [← List.append_assoc] at hslice
  rw [run_bind_ok hslice]
  by_cases hfit : before.length + 8 + size ≤ pageSize ∧ fits x
  · have hroom : (packed (fields x)).length ≤ (rest.drop 8).length := by
      rw [hb.length_eq, List.length_drop]
      omega
    rw [if_pos hfit, BytesM.packInto_at hoffset hroom ((hb.fits_iff x).mp hfit.2), hb.length_eq,
      List.drop_drop]
    simp only [List.append_assoc]
  · rw [if_neg hfit]
    refine BytesM.packInto_error fun hroom => hfit ?_
    -- a slice beyond the page has made it longer, but by the key only
    rw [hb.length_eq, List.length_append, hoffset, List.length_drop] at hroom
    have hpos := hb.pos
    exact ⟨by omega, (hb.fits_iff x).mpr hroom.2⟩

/-- The loop writes the bytes of the pairs over what was there, or raises the same error. -/
theorem writePairs_refines (hb : Behind size fields fits) (hsize : T.keySize = 8)
    (pairs : List (Value × β)) (hdata : (before ++ rest).length = pageSize) :
    match packPairs (T.keys C) size fits before.length pairs with
    | .ok raws => raws.length = pairs.length ∧ (∀ x ∈ raws, T.IsKey x.1 ∧ fits x.2) ∧
        (pairsBytes fields raws).length ≤ rest.length ∧
        T.writePairs C size fields before.length pairs (before ++ rest) =
          .ok () (before ++ (pairsBytes fields raws ++ rest.drop (pairsBytes fields raws).length))
    | .error e => ∃ data', T.writePairs C size fields before.length pairs (before ++ rest) = .error e data' := by
  induction pairs generalizing before rest with
  | nil => exact ⟨rfl, by simp, Nat.zero_le _, rfl⟩
  | cons pair pairs ih =>
    obtain ⟨key, x⟩ := pair
    have hkey := @encodeKey_refines T C hsize key
    rw [packPairs, writePairs, keySize_keys, hsize]
    cases hraw : (T.keys C).encodeKey key with
    | error e =>
      rw [hraw] at hkey
      exact ⟨_, run_bind_error (BytesM.lift_error hkey)⟩
    | ok raw =>
      rw [hraw] at hkey
      obtain ⟨hencode, hisKey⟩ := hkey
      have hpair := writePair_eq hb hisKey x hdata
      rw [run_bind_ok (BytesM.lift_ok hencode), ← bind_assoc]
      by_cases hfit : before.length + 8 + size ≤ pageSize ∧ fits x
      · have hoffset : (before ++ (keyBytes raw ++ packed (fields x))).length = before.length + 8 + size := by
          rw [List.length_append, List.length_append, hisKey.length_eq, hb.length_eq, Nat.add_assoc]
        have hdata' : (before ++ (keyBytes raw ++ packed (fields x)) ++ rest.drop (8 + size)).length =
            pageSize := by
          rw [List.length_append] at hdata
          rw [List.length_append, hoffset, List.length_drop]
          omega
        have hrest := ih hdata'
        rw [hoffset] at hrest
        rw [if_pos hfit] at hpair
        rw [run_bind_ok hpair]
        simp only [bind, Except.bind, if_pos hfit]
        cases hraws : packPairs (T.keys C) size fits (before.length + 8 + size) pairs with
        | error e =>
          rw [hraws] at hrest
          exact hrest
        | ok raws =>
          rw [hraws] at hrest
          obtain ⟨hcount, hkeys, hle, hwrite⟩ := hrest
          have hbytes : pairsBytes fields ((raw, x) :: raws) =
              keyBytes raw ++ packed (fields x) ++ pairsBytes fields raws := rfl
          have hlength : (pairsBytes fields ((raw, x) :: raws)).length =
              8 + size + (pairsBytes fields raws).length := by
            rw [hbytes, List.length_append, List.length_append, hisKey.length_eq, hb.length_eq]
          rw [List.length_append] at hdata
          rw [List.length_drop] at hle
          refine ⟨congrArg Nat.succ hcount, List.forall_mem_cons.mpr ⟨⟨hisKey, hfit.2⟩, hkeys⟩, by omega,
            hwrite.trans ?_⟩
          rw [hlength, hbytes, List.drop_drop]
          simp only [List.append_assoc]
      · rw [if_neg hfit] at hpair
        simp only [bind, Except.bind, if_neg hfit]
        exact ⟨_, run_bind_error hpair⟩

/-- What unpacks the fields behind a key, wherever they stand. -/
def Unpacks (fields : β → List (Nat × Nat)) (fits : β → Bool) (unpack : Bytes → Nat → Except PyError β) : Prop :=
  ∀ x (before after : Bytes), fits x →
    unpack (before ++ (packed (fields x) ++ after)) before.length = .ok x

theorem unpacks_rid : Unpacks ridFields ridFits unpackRid := by
  intro rid before after hfits
  obtain ⟨hpage, hslot⟩ : rid.pageId < 256 ^ 4 ∧ rid.slotId < 256 ^ 2 := by simpa [ridFits] using hfits
  have hpacked : packed (ridFields rid) = littleEndian 4 rid.pageId ++ littleEndian 2 rid.slotId := by
    simp [packed, ridFields]
  have hslotAt := @unpackFrom_written (before ++ littleEndian 4 rid.pageId) after 2 rid.slotId hslot
  rw [List.length_append, length_littleEndian, List.append_assoc] at hslotAt
  rw [hpacked, List.append_assoc, unpackRid, unpackFrom_written hpage, hslotAt]
  rfl

theorem unpacks_child : Unpacks childFields childFits fun data offset => unpackFrom data offset 4 := by
  intro child before after hfits
  have hlt : child < 256 ^ 4 := by simpa [childFits] using hfits
  have hpacked : packed (childFields child) = littleEndian 4 child := by simp [packed, childFields]
  rw [hpacked]
  exact unpackFrom_written hlt

/-- The loop reads the pairs that stand at its offset, key by key as they are decoded. -/
theorem readPairs_bytes {unpack : Bytes → Nat → Except PyError β} (hb : Behind size fields fits)
    (hu : Unpacks fields fits unpack) (hsize : T.keySize = 8) {pairs : List (RawKey × β)}
    (hpairs : ∀ x ∈ pairs, T.IsKey x.1 ∧ fits x.2) (before after : Bytes) :
    T.readPairs size unpack (before ++ (pairsBytes fields pairs ++ after)) pairs.length before.length =
      pairs.mapM fun x => do return (← (T.keys C).decodeKey x.1, x.2) := by
  induction pairs generalizing before with
  | nil => rfl
  | cons pair pairs ih =>
    obtain ⟨raw, x⟩ := pair
    rw [List.forall_mem_cons] at hpairs
    obtain ⟨⟨hkey, hfits⟩, hpairs⟩ := hpairs
    have hlength := hkey.length_eq
    have hdata : before ++ (pairsBytes fields ((raw, x) :: pairs) ++ after) =
        before ++ (keyBytes raw ++ (packed (fields x) ++ (pairsBytes fields pairs ++ after))) := by
      simp [pairsBytes]
    have hdecode : T.decodeKey (((before ++ (keyBytes raw ++
        (packed (fields x) ++ (pairsBytes fields pairs ++ after)))).drop before.length).take T.keySize) =
          (T.keys C).decodeKey raw := by
      rw [List.drop_left, hsize, ← hlength, List.take_left, decodeKey_keyBytes hkey]
    have hunpack := hu x (before ++ keyBytes raw) (pairsBytes fields pairs ++ after) hfits
    rw [List.length_append, hlength, List.append_assoc] at hunpack
    have hrest := ih hpairs (before ++ (keyBytes raw ++ packed (fields x)))
    rw [List.length_append, List.length_append, hlength, hb.length_eq, ← Nat.add_assoc,
      List.append_assoc, List.append_assoc] at hrest
    rw [hdata, List.length_cons, readPairs, hdecode, hsize, hunpack, hrest, List.mapM_cons, bind_assoc]
    rfl

end

/-! ## Nodes -/

section
variable {β τ : Type} {size : Nat} {fields : β → List (Nat × Nat)} {fits : β → Bool} {data : Bytes}
  {tag : UInt8} {id : Nat} {pairs : List (RawKey × β)}

/-- The type of a node, its count, and the page id behind it. -/
def headBytes (tag : UInt8) (numKeys id : Nat) : Bytes := tag :: (littleEndian 2 numKeys ++ littleEndian 4 id)

theorem length_headBytes (tag : UInt8) (numKeys id : Nat) : (headBytes tag numKeys id).length = 7 := by
  simp [headBytes]

/-- The page begins with a node of these pairs. -/
structure NodeAt (T : RawTree) (tag : UInt8) (fields : β → List (Nat × Nat)) (fits : β → Bool) (id : Nat)
    (pairs : List (RawKey × β)) (data : Bytes) : Prop where
  bytes : headBytes tag pairs.length id ++ pairsBytes fields pairs <+: data
  length : data.length = pageSize
  count : pairs.length < 2 ^ 16
  id : id < 2 ^ 32
  pairs : ∀ x ∈ pairs, T.IsKey x.1 ∧ fits x.2

/-- A page of the page file stands on these bytes. Of a torn page nothing is known. -/
def Stands (T : RawTree) : Page RawKey τ → Bytes → Prop
  | .leaf entries nextLeaf => NodeAt T 3 ridFields ridFits nextLeaf entries
  | .internal child rest => NodeAt T 2 childFields childFits child rest
  | .torn => fun _ => True
  | _ => fun _ => False

theorem packInto_one {before rest : Bytes} {width n : Nat} (hroom : width ≤ rest.length) :
    BytesM.packInto before.length [(width, n)] (before ++ rest) =
      if n < 256 ^ width then .ok () (before ++ (littleEndian width n ++ rest.drop width))
      else .error .structError (before ++ rest) := by
  have hpacked : packed [(width, n)] = littleEndian width n := by simp [packed]
  have hlength : (packed [(width, n)]).length = width := by rw [hpacked, length_littleEndian]
  by_cases hn : n < 256 ^ width
  · rw [if_pos hn, BytesM.packInto_at rfl (by rwa [hlength]) (by simpa using hn), hlength, hpacked]
  · rw [if_neg hn]
    exact BytesM.packInto_error fun h => hn (by simpa using h.2)

/-- The type and the count are written first. -/
theorem writeCount_eq (hdata : data.length = pageSize) (tag : UInt8) (n : Nat) :
    (do BytesM.setByte 0 tag
        BytesM.packInto 1 [(2, n)]) data =
      if n < 2 ^ 16 then .ok () (tag :: littleEndian 2 n ++ data.drop 3)
      else .error .structError (tag :: data.drop 1) := by
  have hlong : 2 ≤ (data.drop 1).length := by
    rw [List.length_drop, hdata, pageSize]
    omega
  have hcount := @packInto_one [tag] (data.drop 1) 2 n hlong
  rw [List.drop_drop] at hcount
  rw [run_bind_ok (BytesM.setByte_zero (by rw [hdata]; decide))]
  exact hcount

/-- And then the page id. -/
theorem writeId_eq (hdata : data.length = pageSize) (tag : UInt8) (n id : Nat) :
    BytesM.packInto 3 [(4, id)] (tag :: littleEndian 2 n ++ data.drop 3) =
      if id < 2 ^ 32 then .ok () (headBytes tag n id ++ data.drop 7)
      else .error .structError (tag :: littleEndian 2 n ++ data.drop 3) := by
  have hlong : 4 ≤ (data.drop 3).length := by
    rw [List.length_drop, hdata, pageSize]
    omega
  have hid := @packInto_one (tag :: littleEndian 2 n) (data.drop 3) 4 id hlong
  have hlength : (tag :: littleEndian 2 n).length = 3 := by simp
  have hhead : tag :: littleEndian 2 n ++ (littleEndian 4 id ++ data.drop 7) =
      headBytes tag n id ++ data.drop 7 := by
    simp [headBytes]
  rw [List.drop_drop, hlength, hhead] at hid
  exact hid

/-- A write of the page file and one of bytes: they return and the page stands on the bytes, or
    they raise the same error. -/
def WritesAlike (T : RawTree) (s : PageFile RawKey τ) (pageId : Nat) :
    EStateM.Result PyError (PageFile RawKey τ) Unit → EStateM.Result PyError Bytes Unit → Prop
  | .ok _ s', .ok _ data => ∃ page, s' = s.set pageId page ∧ T.Stands page data
  | .error e s', .error e' _ => e = e' ∧ s' = s.set pageId .torn
  | _, _ => False

theorem WritesAlike.ok {s : PageFile RawKey τ} {pageId : Nat} {page : Page RawKey τ} (hlt : pageId < s.length)
    {r : EStateM.Result PyError Bytes Unit} (h : T.WritesAlike s pageId (.ok () (s.set pageId page)) r) :
    ∃ data, r = .ok () data ∧ T.Stands page data := by
  cases r with
  | error e data => exact h.elim
  | ok u data =>
    obtain ⟨page', hset, hstands⟩ := h
    have hpage := congrArg (·[pageId]?) hset
    simp only [List.getElem?_set_self hlt, Option.some.injEq] at hpage
    exact ⟨data, rfl, hpage ▸ hstands⟩

/-- The pairs behind a head, in the page file and in bytes. -/
theorem writePairs_node (hb : Behind size fields fits) (hsize : T.keySize = 8)
    (hdata : data.length = pageSize) {xs : List (Value × β)} (hcount : xs.length < 2 ^ 16)
    (hid : id < 2 ^ 32) :
    match packPairs (T.keys C) size fits 7 xs with
    | .ok pairs => ∃ data',
        T.writePairs C size fields 7 xs (headBytes tag xs.length id ++ data.drop 7) = .ok () data' ∧
        NodeAt T tag fields fits id pairs data'
    | .error e => ∃ data',
        T.writePairs C size fields 7 xs (headBytes tag xs.length id ++ data.drop 7) = .error e data' := by
  have hlength : (headBytes tag xs.length id ++ data.drop 7).length = pageSize := by
    rw [List.length_append, length_headBytes, List.length_drop, hdata]
    rfl
  have hpairs := @writePairs_refines T C β size fields fits _ _ hb hsize xs hlength
  rw [length_headBytes] at hpairs
  cases hpack : packPairs (T.keys C) size fits 7 xs with
  | error e =>
    rw [hpack] at hpairs
    exact hpairs
  | ok pairs =>
    rw [hpack] at hpairs
    obtain ⟨hlen, hkeys, hle, hwrite⟩ := hpairs
    refine ⟨_, hwrite, ?_, ?_, hlen ▸ hcount, hid, hkeys⟩
    · rw [hlen, ← List.append_assoc]
      exact List.prefix_append _ _
    · rw [List.length_append, length_headBytes] at hlength ⊢
      rw [List.length_append, List.length_drop]
      omega

/-- The writers of both kinds of node, in the page file and in bytes. -/
theorem writeNode_refines (hb : Behind size fields fits) (hsize : T.keySize = 8)
    (hdata : data.length = pageSize) (tag : UInt8) (xs : List (Value × β)) (id : Nat) :
    match (if xs.length < 2 ^ 16 ∧ childFits id then packPairs (T.keys C) size fits 7 xs
      else .error .structError) with
    | .ok pairs => ∃ data', (do
        BytesM.setByte 0 tag
        BytesM.packInto 1 [(2, xs.length)]
        BytesM.packInto 3 [(4, id)]
        T.writePairs C size fields 7 xs) data = .ok () data' ∧ NodeAt T tag fields fits id pairs data'
    | .error e => ∃ data', (do
        BytesM.setByte 0 tag
        BytesM.packInto 1 [(2, xs.length)]
        BytesM.packInto 3 [(4, id)]
        T.writePairs C size fields 7 xs) data = .error e data' := by
  have hcountAt := writeCount_eq hdata tag xs.length
  have hidAt := writeId_eq hdata tag xs.length id
  rw [← bind_assoc]
  by_cases hcount : xs.length < 2 ^ 16
  case neg =>
    rw [if_neg hcount] at hcountAt
    rw [if_neg fun h => hcount h.1]
    exact ⟨_, run_bind_error hcountAt⟩
  rw [if_pos hcount] at hcountAt
  rw [run_bind_ok hcountAt]
  by_cases hid : id < 2 ^ 32
  case neg =>
    rw [if_neg hid] at hidAt
    rw [if_neg fun h => hid (of_decide_eq_true h.2)]
    exact ⟨_, run_bind_error hidAt⟩
  rw [if_pos hid] at hidAt
  rw [run_bind_ok hidAt, if_pos ⟨hcount, decide_eq_true hid⟩]
  exact writePairs_node hb hsize hdata hcount hid

theorem writesAlike_of {node : List (RawKey × β) → Page RawKey τ} {x : Except PyError (List (RawKey × β))}
    {m : BytesM Unit} (s : PageFile RawKey τ) (pageId : Nat)
    (h : match x with
      | .ok pairs => ∃ data', m data = .ok () data' ∧ T.Stands (node pairs) data'
      | .error e => ∃ data', m data = .error e data') :
    T.WritesAlike s pageId (putPage pageId (do return node (← x)) s) (m data) := by
  cases x with
  | ok pairs =>
    obtain ⟨data', hwrite, hstands⟩ := h
    rw [hwrite]
    exact ⟨node pairs, rfl, hstands⟩
  | error e =>
    obtain ⟨data', hwrite⟩ := h
    rw [hwrite]
    exact ⟨rfl, rfl⟩

theorem return_ite {α γ : Type} {c : Prop} [Decidable c] {x : Except PyError α} {f : α → γ} {e : PyError} :
    (if c then (do return f (← x)) else throw e) = (if c then x else .error e) >>= fun a => return f a := by
  split <;> rfl

/-- `_write_leaf` does the same in the page file and in bytes. -/
theorem writeLeaf_refines (hsize : T.keySize = 8) (hdata : data.length = pageSize)
    (entries : List (Value × RID)) (nextLeaf : Nat) (s : PageFile RawKey τ) (pageId : Nat) :
    T.WritesAlike s pageId (BPlusTree.writeLeaf (T.keys C) pageId entries nextLeaf s)
      (T.writeLeaf C (entries.map (·.1)) (entries.map (·.2)) nextLeaf data) := by
  have hzip : (entries.map (·.1)).zip (entries.map (·.2)) = entries := (List.zip_of_prod rfl rfl).symm
  have hnode := @writeNode_refines T C RID _ _ _ _ behind_rid hsize hdata 3 entries nextLeaf
  have halike := @writesAlike_of T RID τ data (fun raws => .leaf raws nextLeaf) _ _ s pageId hnode
  rw [← return_ite] at halike
  rw [writeLeaf, hzip, List.length_map]
  exact halike

/-- So does `_write_internal`, for a node with one child more than keys. -/
theorem writeInternal_refines (hsize : T.keySize = 8) (hdata : data.length = pageSize) (child : Nat)
    (rest : List (Value × Nat)) (s : PageFile RawKey τ) (pageId : Nat) :
    T.WritesAlike s pageId
      (BPlusTree.writeInternal (T.keys C) pageId (child :: rest.map (·.2)) (rest.map (·.1)) s)
      (T.writeInternal C (child :: rest.map (·.2)) (rest.map (·.1)) data) := by
  have hzip : (rest.map (·.1)).zip (rest.map (·.2)) = rest := (List.zip_of_prod rfl rfl).symm
  have hnode := @writeNode_refines T C Nat _ _ _ _ behind_child hsize hdata 2 rest child
  have halike := @writesAlike_of T Nat τ data (fun raws => .internal child raws) _ _ s pageId hnode
  rw [← return_ite] at halike
  rw [writeInternal, List.drop_one, List.tail_cons, BPlusTree.writeInternal, List.drop_one, List.tail_cons, hzip,
    List.length_map]
  exact halike

/-! ### Reading a node -/

theorem NodeAt.nodeType (h : T.NodeAt tag fields fits id pairs data) :
    RawTree.nodeType data = PageType.ofTag tag.toNat := by
  obtain ⟨after, rfl⟩ := h.bytes
  rfl

theorem NodeAt.count_eq (h : T.NodeAt tag fields fits id pairs data) :
    unpackFrom data 1 2 = .ok pairs.length := by
  obtain ⟨after, rfl⟩ := h.bytes
  have hcount := @unpackFrom_written [tag] (littleEndian 4 id ++ (pairsBytes fields pairs ++ after)) 2 _ h.count
  rw [← hcount]
  simp [headBytes]

theorem NodeAt.id_eq (h : T.NodeAt tag fields fits id pairs data) : unpackFrom data 3 4 = .ok id := by
  obtain ⟨after, rfl⟩ := h.bytes
  have hid := @unpackFrom_written (tag :: littleEndian 2 pairs.length) (pairsBytes fields pairs ++ after) 4 _ h.id
  have hlength : (tag :: littleEndian 2 pairs.length).length = 3 := by simp
  rw [hlength] at hid
  rw [← hid]
  simp [headBytes]

theorem NodeAt.readPairs_eq {unpack : Bytes → Nat → Except PyError β} (hb : Behind size fields fits)
    (hu : Unpacks fields fits unpack) (hsize : T.keySize = 8)
    (h : T.NodeAt tag fields fits id pairs data) :
    T.readPairs size unpack data pairs.length 7 =
      pairs.mapM fun x => do return (← (T.keys C).decodeKey x.1, x.2) := by
  obtain ⟨after, rfl⟩ := h.bytes
  have hread := @readPairs_bytes T C β size fields fits unpack hb hu hsize pairs h.pairs
    (headBytes tag pairs.length id) after
  rw [length_headBytes, ← List.append_assoc] at hread
  exact hread

/-- `_read_leaf` reads the leaf that stands on the bytes. -/
theorem readLeaf_refines (hsize : T.keySize = 8) {entries : List (RawKey × RID)} {nextLeaf : Nat}
    (h : T.Stands (.leaf entries nextLeaf : Page RawKey τ) data) :
    T.readLeaf data = do
      let (entries, nextLeaf) ← BPlusTree.readLeaf (T.keys C) (.leaf entries nextLeaf : Page RawKey τ)
      return (entries.map (·.1), entries.map (·.2), nextLeaf) := by
  have hread := @NodeAt.readPairs_eq T C _ _ _ _ _ _ _ _ _ behind_rid unpacks_rid hsize h
  have hentries : T.readLeaf data = do
      let found ← T.readPairs ridSize unpackRid data entries.length 7
      return (found.map (·.1), found.map (·.2), nextLeaf) := by
    rw [readLeaf, h.count_eq, h.id_eq]
    rfl
  rw [hentries, hread, BPlusTree.readLeaf]
  simp only [bind_assoc, pure_bind]

/-- Only the keys of pairs are decoded. -/
theorem mapM_keys {K : KeyType Value RawKey} {γ : Type} (rest : List (RawKey × β))
    (f : List β → List Value → γ) :
    (do let found ← rest.mapM fun x => do return (← K.decodeKey x.1, x.2)
        return f (found.map (·.2)) (found.map (·.1)) : Except PyError γ) =
      do return f (rest.map (·.2)) (← rest.mapM fun x => K.decodeKey x.1) := by
  induction rest generalizing f with
  | nil => rfl
  | cons x rest ih =>
    cases hkey : K.decodeKey x.1 with
    | error e =>
      rw [List.mapM_cons, List.mapM_cons, hkey]
      rfl
    | ok key =>
      have hrest := ih fun children keys => f (x.2 :: children) (key :: keys)
      rw [List.mapM_cons, List.mapM_cons, hkey]
      simp only [bind_assoc, pure_bind, List.map_cons]
      exact hrest

/-- So does `_read_internal`. -/
theorem readInternal_refines (hsize : T.keySize = 8) {child : Nat} {rest : List (RawKey × Nat)}
    (h : T.Stands (.internal child rest : Page RawKey τ) data) :
    T.readInternal data =
      BPlusTree.readInternal (T.keys C) (.internal child rest : Page RawKey τ) := by
  have hread := @NodeAt.readPairs_eq T C _ _ _ _ _ _ _ _ _ behind_child unpacks_child hsize h
  have hentries : T.readInternal data = do
      let found ← T.readPairs childSize (fun data offset => unpackFrom data offset 4) data rest.length 7
      return (child :: found.map (·.2), found.map (·.1)) := by
    rw [readInternal, h.count_eq, h.id_eq, ← readEntries_eq]
    rfl
  rw [hentries, hread, BPlusTree.readInternal]
  exact mapM_keys rest fun children keys => (child :: children, keys)

/-- `_node_type` tells leaves from internal nodes. -/
theorem Stands.nodeType {page : Page RawKey τ} (h : T.Stands page data) (htorn : page ≠ .torn) :
    RawTree.nodeType data = .ok (if isLeaf page then .btreeLeaf else .btreeInternal) := by
  cases page with
  | leaf entries nextLeaf => exact NodeAt.nodeType h
  | internal child rest => exact NodeAt.nodeType h
  | torn => exact absurd rfl htorn
  | zero | heap _ => exact h.elim

end

/-! ## What is written is read back -/

section
variable {R τ : Type} [LinearOrder R] {data : Bytes}

/-- A leaf with room for its entries is written, whatever the page held before, and read back. -/
theorem leaf_round_trip (O : KeyOrder (T.keys C) R) (hsize : T.keySize = 8)
    (hdata : data.length = pageSize) {es : List (RawKey × RID)} {nextLeaf : Nat}
    (hfits : LeafFits O es nextLeaf) (hlen : es.length ≤ BPlusTree.maxLeafKeys (T.keys C)) :
    ∃ data', T.writeLeaf C (es.map fun x => O.val x.1) (es.map (·.2)) nextLeaf data = .ok () data' ∧
      data'.length = pageSize ∧
      T.readLeaf data' = .ok (es.map fun x => O.val x.1, es.map (·.2), nextLeaf) := by
  have halike := @writeLeaf_refines T C Unit data hsize hdata (es.map O.dec) nextLeaf [.zero] 0
  rw [writeLeaf_eq hfits hlen rfl, List.map_map, List.map_map] at halike
  obtain ⟨data', hwrite, hstands⟩ := halike.ok (Nat.zero_lt_one)
  refine ⟨data', hwrite, hstands.length, ?_⟩
  rw [readLeaf_refines hsize hstands, readLeaf_eq hfits.stored]
  simp [bind, Except.bind, pure, Except.pure, KeyOrder.dec, Function.comp_def]

/-- So is an internal node. -/
theorem internal_round_trip (O : KeyOrder (T.keys C) R) (hsize : T.keySize = 8)
    (hdata : data.length = pageSize) {child : Nat} {rest : List (RawKey × Nat)}
    (hfits : InternalFits O child rest) (hlen : rest.length ≤ BPlusTree.maxInternalKeys (T.keys C)) :
    ∃ data', T.writeInternal C (child :: rest.map (·.2)) (rest.map fun x => O.val x.1) data = .ok () data' ∧
      data'.length = pageSize ∧
      T.readInternal data' = .ok (child :: rest.map (·.2), rest.map fun x => O.val x.1) := by
  have halike := @writeInternal_refines T C Unit data hsize hdata child (rest.map O.dec) [.zero] 0
  rw [List.map_map, List.map_map] at halike
  have hwrite : BPlusTree.writeInternal (T.keys C) 0 (child :: rest.map ((·.2) ∘ O.dec))
      (rest.map ((·.1) ∘ O.dec)) [.zero] = .ok () ([.zero].set 0 (.internal child rest : Page RawKey Unit)) :=
    writeInternal_eq hfits hlen rfl rfl _
  rw [hwrite] at halike
  obtain ⟨data', hwrite, hstands⟩ := halike.ok (Nat.zero_lt_one)
  refine ⟨data', hwrite, hstands.length, ?_⟩
  rw [readInternal_refines hsize hstands, readInternal_eq hfits.stored]

end

/-! ### INT keys -/

/-- A leaf of INT keys. -/
structure IntLeaf (T : RawTree) where
  keys : List Int
  rids : List RID
  nextLeaf : Nat
  paired : rids.length = keys.length
  few : keys.length ≤ T.maxLeafKeys
  keys_fit : ∀ k ∈ keys, -2 ^ 63 ≤ k ∧ k < 2 ^ 63
  rids_fit : ∀ rid ∈ rids, rid.pageId < 2 ^ 32 ∧ rid.slotId < 2 ^ 16
  next_fits : nextLeaf < 2 ^ 32

/-- An internal node of INT keys. -/
structure IntInternal (T : RawTree) where
  children : List Nat
  keys : List Int
  paired : children.length = keys.length + 1
  few : keys.length ≤ T.maxInternalKeys
  keys_fit : ∀ k ∈ keys, -2 ^ 63 ≤ k ∧ k < 2 ^ 63
  children_fit : ∀ child ∈ children, child < 2 ^ 32

section
variable {data : Bytes} {keys : List Int}

/-- INT keys with something behind each, as they are stored. -/
theorem zip_keys {β : Type} {xs : List β} (hpaired : xs.length = keys.length)
    (hkeys : ∀ k ∈ keys, -2 ^ 63 ≤ k ∧ k < 2 ^ 63) :
    ((keys.map RawKey.int).zip xs).map (fun x => (KeyOrder.intColumn C).val x.1) = keys.map .int ∧
      ((keys.map RawKey.int).zip xs).map (·.2) = xs ∧
      ((keys.map RawKey.int).zip xs).length = keys.length ∧
      ∀ x ∈ (keys.map RawKey.int).zip xs, (KeyOrder.intColumn C).Stored x.1 ∧ x.2 ∈ xs := by
  have hlength : (keys.map RawKey.int).length = xs.length := by rw [List.length_map, hpaired]
  have hfst : ((keys.map RawKey.int).zip xs).map Prod.fst = keys.map RawKey.int :=
    List.map_fst_zip hlength.le
  have hvals := congrArg (List.map (KeyOrder.intColumn C).val) hfst
  rw [List.map_map, List.map_map] at hvals
  refine ⟨hvals, List.map_snd_zip hlength.ge, ?_, fun x hx => ?_⟩
  · rw [List.length_zip, hlength, Nat.min_self, hpaired]
  · obtain ⟨hkey, hx⟩ := List.of_mem_zip hx
    obtain ⟨k, hk, heq⟩ := List.mem_map.mp hkey
    exact ⟨⟨k, heq.symm, hkeys k hk⟩, hx⟩

theorem IntLeaf.round_trip (leaf : IntLeaf T) (hint : T.keyType = .int) (hdata : data.length = pageSize) :
    ∃ data', T.writeLeaf C (leaf.keys.map .int) leaf.rids leaf.nextLeaf data = .ok () data' ∧
      data'.length = pageSize ∧
      T.readLeaf data' = .ok (leaf.keys.map .int, leaf.rids, leaf.nextLeaf) := by
  have hsize := T.keySize_int hint
  obtain ⟨keys, rids, nextLeaf, hpaired, hfew, hkeys, hrids, hnext⟩ := leaf
  obtain ⟨keyType, keySize, rootPageId, indexable, hint8⟩ := T
  obtain rfl : keyType = .int := hint
  obtain ⟨hvals, hsnd, hlength, hpairs⟩ := @zip_keys C keys RID rids hpaired hkeys
  have hfits : LeafFits (KeyOrder.intColumn C) ((keys.map RawKey.int).zip rids) nextLeaf :=
    ⟨fun x hx => (hpairs x hx).1, fun x hx => decide_eq_true (hrids _ (hpairs x hx).2), decide_eq_true hnext⟩
  rw [← @maxLeafKeys_keys _ C hsize, ← hlength] at hfew
  have hround := @leaf_round_trip ⟨.int, keySize, rootPageId, indexable, hint8⟩ C _ _ _
    (KeyOrder.intColumn C) hsize hdata _ _ hfits hfew
  rw [hvals, hsnd] at hround
  exact hround

theorem IntInternal.round_trip (node : IntInternal T) (hint : T.keyType = .int)
    (hdata : data.length = pageSize) :
    ∃ data', T.writeInternal C node.children (node.keys.map .int) data = .ok () data' ∧
      data'.length = pageSize ∧
      T.readInternal data' = .ok (node.children, node.keys.map .int) := by
  have hsize := T.keySize_int hint
  obtain ⟨children, keys, hpaired, hfew, hkeys, hchildren⟩ := node
  obtain ⟨keyType, keySize, rootPageId, indexable, hint8⟩ := T
  obtain rfl : keyType = .int := hint
  obtain ⟨child, rest, rfl⟩ := List.exists_cons_of_length_eq_add_one hpaired
  rw [List.forall_mem_cons] at hchildren
  obtain ⟨hvals, hsnd, hlength, hpairs⟩ := @zip_keys C keys Nat rest (Nat.succ.inj hpaired) hkeys
  have hfits : InternalFits (KeyOrder.intColumn C) child ((keys.map RawKey.int).zip rest) :=
    ⟨fun x hx => (hpairs x hx).1, decide_eq_true hchildren.1,
      fun x hx => decide_eq_true (hchildren.2 _ (hpairs x hx).2)⟩
  rw [← @maxInternalKeys_keys _ C hsize, ← hlength] at hfew
  have hround := @internal_round_trip ⟨.int, keySize, rootPageId, indexable, hint8⟩ C _ _ _
    (KeyOrder.intColumn C) hsize hdata _ _ hfits hfew
  rw [hvals, hsnd] at hround
  exact hround

end

/-- Nodes of INT keys are read as they were written, whatever the page held before, and the page
    keeps its size. -/
theorem nodes_round_trip (C : Conversions) {T : RawTree} (hint : T.keyType = .int) {data : Bytes}
    (hdata : data.length = pageSize) :
    (∀ leaf : IntLeaf T, ∃ data',
      T.writeLeaf C (leaf.keys.map .int) leaf.rids leaf.nextLeaf data = .ok () data' ∧
      data'.length = pageSize ∧
      T.readLeaf data' = .ok (leaf.keys.map .int, leaf.rids, leaf.nextLeaf)) ∧
    (∀ node : IntInternal T, ∃ data',
      T.writeInternal C node.children (node.keys.map .int) data = .ok () data' ∧
      data'.length = pageSize ∧
      T.readInternal data' = .ok (node.children, node.keys.map .int)) := by
  exact ⟨fun leaf => leaf.round_trip hint hdata, fun node => node.round_trip hint hdata⟩

/-- Two entries over a page that was full of something else. -/
theorem nodes_round_trip_stale : ∃ data',
    writeLeaf ⟨.int, 8, 0, .inl rfl, fun _ => rfl⟩ .integral [.int (-1), .int (2 ^ 63 - 1)] [⟨0, 0⟩, ⟨7, 65535⟩]
      invalidPageId (List.replicate pageSize 255) = .ok () data' ∧
    data'.length = pageSize ∧
    readLeaf ⟨.int, 8, 0, .inl rfl, fun _ => rfl⟩ data' =
      .ok ([.int (-1), .int (2 ^ 63 - 1)], [⟨0, 0⟩, ⟨7, 65535⟩], invalidPageId) :=
  (nodes_round_trip .integral rfl List.length_replicate).1
    ⟨[-1, 2 ^ 63 - 1], [⟨0, 0⟩, ⟨7, 65535⟩], invalidPageId, rfl, by decide, by decide, by decide, by decide⟩

end RawTree
end Minirel
