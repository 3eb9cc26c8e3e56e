-- SUMMARY: Which page belongs to which heap or tree, and how writes keep it that way.
import Minirel.Catalog
import Minirel.Index.ColumnTree
import Minirel.Index.Distinct
import Minirel.Storage.HeapChain

/-!
# The layout of the data file

Every page that is in use belongs to the heap of one table or to the tree of one of its
indexes. A write to one of them leaves the others alone. What every tree keeps is its
region; the trees that are tracked are in order too, as long as every key that goes into
them is stored as it stands.
-/

namespace Minirel

open HeapFile (Holds overwrite headerSize slotSize)

/-- Whom a page belongs to. -/
inductive Owner where
  | heap (table : String)
  | index (table index : String)
  deriving DecidableEq

/-- What the data file holds, apart from where it stands: the tuples of each table, from the
    first page of its heap to the last, and the entries of its indexes in any order. -/
structure Content where
  tuples : String → List (RID × Tuple)
  entries : String → String → List (RawKey × RID)

namespace Content

/-- A tuple at the end of a heap. -/
def add (c : Content) (t : String) (x : RID × Tuple) : Content :=
  { c with tuples := Function.update c.tuples t (c.tuples t ++ [x]) }

/-- Another tuple in the place of one. -/
def set (c : Content) (t : String) (rid : RID) (new : Tuple) : Content :=
  { c with tuples := Function.update c.tuples t (overwrite (c.tuples t) rid new) }

/-- One more entry of an index. -/
def addEntry (c : Content) (t i : String) (e : RawKey × RID) : Content :=
  { c with
    entries := fun t' i' =>
      if t' = t ∧ i' = i then e :: c.entries t i else c.entries t' i' }

/-- One more key of an index. -/
def addKey (C : Conversions) (c : Content) (t i : String) (keyType : ColumnType) (key : Value)
    (rid : RID) : Content :=
  match (KeyType.ofColumn C keyType).encodeKey key with
  | .ok k => c.addEntry t i (k, rid)
  | .error _ => c

/-- The keys of a row, one for each index. -/
def addKeys (C : Conversions) (t : String) (valueMap : Dict Value) (rid : RID) (c : Content) :
    List (String × IndexMeta) → Content
  | [] => c
  | (i, idx) :: indexes =>
    match valueMap.get? idx.column with
    | some key => addKeys C t valueMap rid (c.addKey C t i idx.keyType key rid) indexes
    | none => addKeys C t valueMap rid c indexes

/-- The RIDs of a table. -/
def HasRid (c : Content) (t : String) (rid : RID) : Prop := ∃ tup, (rid, tup) ∈ c.tuples t

end Content

/-- What stands where in the data file: whom each page belongs to, and where the heap of each
    table ends. -/
structure View extends Content where
  owner : Nat → Option Owner
  last : String → Nat

namespace View

def own (v : View) (o : Owner) (p : Nat) : Prop := v.owner p = some o

/-- The pages handed out between two states go to one owner. -/
def claim (v : View) (o : Owner) (s s' : Pages) : View :=
  { v with owner := fun p => if s.length ≤ p ∧ p < s'.length then some o else v.owner p }

def addTuple (v : View) (t : String) (last : Nat) (x : RID × Tuple) : View :=
  { v with toContent := v.add t x, last := Function.update v.last t last }

def setTuple (v : View) (t : String) (rid : RID) (new : Tuple) : View :=
  { v with toContent := v.set t rid new }

/-- A page becomes the only one of an owner. -/
def assign (v : View) (o : Owner) (p : Nat) : View :=
  { v with owner := fun q => if q = p then some o else if v.owner q = some o then none else v.owner q }

/-- An empty heap on one page. -/
def newTable (v : View) (t : String) (p : Nat) : View :=
  { v.assign (.heap t) p with
    last := Function.update v.last t p
    tuples := Function.update v.tuples t [] }

/-- An empty tree on one page. -/
def newIndex (v : View) (t i : String) (p : Nat) : View :=
  { v.assign (.index t i) p with
    entries := fun t' i' => if t' = t ∧ i' = i then [] else v.entries t' i' }

def addKey (C : Conversions) (v : View) (t i : String) (keyType : ColumnType) (key : Value)
    (rid : RID) : View :=
  { v with toContent := v.toContent.addKey C t i keyType key rid }

end View

/-- A tuple of a table: a cell for every column, and small enough for a page. -/
structure Conforms (schema : Schema) (tup : Tuple) : Prop where
  types : tup.payload.map Cell.type = schema.columns.map (·.type)
  size_le : headerSize + slotSize + tup.size ≤ pageSize

/-- The column an index is on. -/
structure Keyed (table : TableMeta) (idx : IndexMeta) : Prop where
  column : table.schema.column idx.column = .ok ⟨idx.column, idx.keyType⟩
  indexable : idx.keyType.Indexable

structure Layout (catalog : Catalog) (s : Pages) (v : View) : Prop where
  lt_length : ∀ {p o}, v.owner p = some o → p < s.length
  name_eq : ∀ {t table}, catalog.tables.get? t = some table → table.name = t
  nodup : ∀ {t table}, catalog.tables.get? t = some table → table.indexes.keys.Nodup
  heap : ∀ {t table}, catalog.tables.get? t = some table →
    Holds (v.own (.heap t)) s table.heapFirstPageId (v.last t) (v.tuples t)
  conforms : ∀ {t table}, catalog.tables.get? t = some table →
    ∀ x ∈ v.tuples t, Conforms table.schema x.2
  keyed : ∀ {t table i idx}, catalog.tables.get? t = some table →
    table.indexes.get? i = some idx → Keyed table idx
  region : ∀ {t table i idx}, catalog.tables.get? t = some table →
    table.indexes.get? i = some idx → Region (v.HasRid t) (v.own (.index t i)) s
  distinct : ∀ {t table i idx}, catalog.tables.get? t = some table →
    table.indexes.get? i = some idx → Distinct (v.own (.index t i)) s
  root : ∀ {t table i idx}, catalog.tables.get? t = some table →
    table.indexes.get? i = some idx → v.own (.index t i) idx.rootPageId

/-- Which indexes are tracked: those of a table, of a name, on a type of column. -/
abbrev Tracked := String → String → ColumnType → Prop

/-- The indexes that are tracked are trees in order, with the entries of the view. -/
def Ordered (C : Conversions) (tr : Tracked) (catalog : Catalog) (s : Pages) (v : View) : Prop :=
  ∀ ⦃t table i idx⦄, catalog.tables.get? t = some table → table.indexes.get? i = some idx →
    tr t i idx.keyType → ∃ es, es.Perm (v.entries t i) ∧
      BPlusTree.ColumnTree C idx.keyType (v.own (.index t i)) s idx.rootPageId es

/-- The tree of an index does not hold a RID. -/
def View.Lacks (v : View) (s : Pages) (t i : String) (rid : RID) : Prop :=
  Absent (v.own (.index t i)) s rid

section
variable {C : Conversions} {tr : Tracked} {catalog : Catalog} {s s' : Pages} {v v' : View} {t i : String}
  {table : TableMeta} {idx : IndexMeta} {o : Owner} {p : Nat} {rid : RID}

/-! ## Pages that are handed out -/

theorem View.own_claim_self (v : View) (o : Owner) (s s' : Pages) :
    (v.claim o s s').own o = claimed (v.own o) s s' := by
  funext p
  refine propext ?_
  simp only [own, claim, claimed]
  split
  · rename_i hp
    simp [hp]
  · rename_i hp
    simp [hp]

theorem View.own_claim_ne (h : Layout catalog s v) {o' : Owner} (hne : o' ≠ o) :
    (v.claim o s s').own o' = v.own o' := by
  funext p
  refine propext ?_
  simp only [own, claim]
  split
  · rename_i hp
    refine ⟨fun heq => absurd (Option.some.inj heq).symm hne, fun heq => ?_⟩
    exact absurd (h.lt_length heq) (not_lt.mpr hp.1)
  · rfl

/-- No page is taken from its owner. -/
theorem Layout.own_claim (h : Layout catalog s v) {o' : Owner} (hp : v.own o' p) :
    (v.claim o s s').own o' p := by
  have hlt := h.lt_length hp
  rw [View.own, View.claim]
  exact (if_neg fun hle => absurd hle.1 (not_le.mpr hlt)).trans hp

/-- The pages of the others are as they were. -/
theorem Layout.same (h : Layout catalog s v) (hstays : Stays (v.own o) s s') {o' : Owner}
    (hne : o' ≠ o) (hp : v.own o' p) : s'[p]? = s[p]? :=
  hstays.same p (h.lt_length hp) fun ho => hne (Option.some.inj (hp.symm.trans ho))

/-- What is absent from a tree of another owner is absent still. -/
theorem Layout.absent (h : Layout catalog s v) (hstays : Stays (v.own o) s s') {o' : Owner}
    (hne : o' ≠ o) (ha : Absent (v.own o') s rid) : Absent ((v.claim o s s').own o') s' rid := by
  rw [View.own_claim_ne h hne]
  exact ha.congr fun p hp => h.same hstays hne hp

/-- A write within the pages of one owner. What is left to show is that the owner itself is
    in order again. -/
theorem Layout.write (h : Layout catalog s v) (hstays : Stays (v.own o) s s')
    (howner : v'.owner = (v.claim o s s').owner)
    (hrids : ∀ t rid, v.HasRid t rid → v'.HasRid t rid)
    (htuples : ∀ t, .heap t ≠ o → v'.tuples t = v.tuples t ∧ v'.last t = v.last t)
    (hheap : ∀ t table, .heap t = o → catalog.tables.get? t = some table →
      Holds (claimed (v.own o) s s') s' table.heapFirstPageId (v'.last t) (v'.tuples t) ∧
        ∀ x ∈ v'.tuples t, Conforms table.schema x.2)
    (hindex : ∀ t table i idx, .index t i = o → catalog.tables.get? t = some table →
      table.indexes.get? i = some idx →
      Region (v'.HasRid t) (claimed (v.own o) s s') s' ∧ Distinct (claimed (v.own o) s s') s') :
    Layout catalog s' v' := by
  have hown : ∀ o', v'.own o' = (v.claim o s s').own o' := fun o' => by
    funext p
    simp only [View.own, howner]
  have hself : v'.own o = claimed (v.own o) s s' := (hown o).trans (v.own_claim_self o s s')
  have hother : ∀ {o'}, o' ≠ o → v'.own o' = v.own o' := fun hne =>
    (hown _).trans (View.own_claim_ne h hne)
  refine ⟨fun {p o'} hp => ?_, h.name_eq, h.nodup, fun {t table} ht => ?_, fun {t table} ht => ?_, h.keyed,
    fun {t table i idx} ht hi => ?_, fun {t table i idx} ht hi => ?_,
    fun {t table i idx} ht hi => ?_⟩
  · rw [howner, View.claim] at hp
    dsimp only at hp
    split at hp
    · rename_i hlt
      exact hlt.2
    · exact (h.lt_length hp).trans_le hstays.length_le
  · by_cases ho : .heap t = o
    · rw [ho, hself]
      exact (hheap t table ho ht).1
    · rw [hother ho, (htuples t ho).1, (htuples t ho).2]
      exact (h.heap ht).congr fun p hp => h.same hstays ho hp
  · by_cases ho : .heap t = o
    · exact (hheap t table ho ht).2
    · rw [(htuples t ho).1]
      exact h.conforms ht
  · by_cases ho : .index t i = o
    · rw [ho, hself]
      exact (hindex t table i idx ho ht hi).1
    · rw [hother ho]
      exact ((h.region ht hi).congr hstays.length_le fun p hp => h.same hstays ho hp).mono (hrids t)
  · by_cases ho : .index t i = o
    · rw [ho, hself]
      exact (hindex t table i idx ho ht hi).2
    · rw [hother ho]
      exact (h.distinct ht hi).congr fun p hp => h.same hstays ho hp
  · by_cases ho : .index t i = o
    · rw [ho, hself]
      exact .inl (ho ▸ h.root ht hi)
    · rw [hother ho]
      exact h.root ht hi

/-- The tree of another index is untouched. -/
theorem Ordered.other (hl : Layout catalog s v) (h : Ordered C tr catalog s v)
    (hstays : Stays (v.own o) s s') (ht : catalog.tables.get? t = some table)
    (hi : table.indexes.get? i = some idx) (htr : tr t i idx.keyType) (ho : .index t i ≠ o) :
    ∃ es, es.Perm (v.entries t i) ∧ BPlusTree.ColumnTree C idx.keyType
      ((v.claim o s s').own (.index t i)) s' idx.rootPageId es := by
  rw [View.own_claim_ne hl ho]
  obtain ⟨es, hperm, htree⟩ := h ht hi htr
  exact ⟨es, hperm, htree.congr (fun p hp => hl.same hstays ho hp) hstays.length_le⟩

/-- A write to pages that belong to no tracked index. -/
theorem Ordered.write (hl : Layout catalog s v) (h : Ordered C tr catalog s v)
    (hstays : Stays (v.own o) s s') (howner : v'.owner = (v.claim o s s').owner)
    (hentries : v'.entries = v.entries)
    (ho : ∀ t table i idx, catalog.tables.get? t = some table →
      table.indexes.get? i = some idx → tr t i idx.keyType → .index t i ≠ o) :
    Ordered C tr catalog s' v' := by
  intro t table i idx ht hi htr
  have hown : v'.own (.index t i) = (v.claim o s s').own (.index t i) := by
    funext p
    simp only [View.own, howner]
  rw [hown, hentries]
  exact h.other hl hstays ht hi htr (ho t table i idx ht hi htr)

/-! ## Heaps -/

theorem Content.hasRid_add {c : Content} {t t' : String} {rid : RID} (x : RID × Tuple)
    (h : c.HasRid t' rid) : (c.add t x).HasRid t' rid := by
  obtain ⟨tup, hmem⟩ := h
  refine ⟨tup, ?_⟩
  by_cases ht : t' = t
  · subst ht
    simp [add, hmem]
  · simpa [add, Function.update_of_ne ht] using hmem

/-- A tuple that conforms to its table is stored. -/
theorem Layout.insert {row : Tuple} (h : Layout catalog s v) (ht : catalog.tables.get? t = some table)
    (hrow : Conforms table.schema row) (hlen : s.length < invalidPageId) :
    ∃ rid last s', HeapFile.insert Tuple.size row ⟨table.heapFirstPageId, v.last t⟩ s =
        .ok (rid, ⟨table.heapFirstPageId, last⟩) s' ∧
      Layout catalog s' ((v.claim (.heap t) s s').addTuple t last (rid, row)) ∧
      (∀ t' i rid', v.Lacks s t' i rid' →
        ((v.claim (.heap t) s s').addTuple t last (rid, row)).Lacks s' t' i rid') ∧
      (Ordered C tr catalog s v →
        Ordered C tr catalog s' ((v.claim (.heap t) s s').addTuple t last (rid, row))) := by
  obtain ⟨rid, last, s', hrun, hstays, hholds⟩ :=
    (h.heap ht).insert (fun p hp => h.lt_length hp) hrow.size_le hlen
  refine ⟨rid, last, s', hrun, ?_, fun t' i rid' ha => h.absent hstays (by simp) ha, fun hord => ?_⟩
  · refine h.write hstays rfl (fun t' rid' => Content.hasRid_add _) (fun t' ht' => ?_)
      (fun t' table' heq ht' => ?_) fun t' table' i idx heq => by cases heq
    · have hne : t' ≠ t := fun heq => ht' (heq ▸ rfl)
      exact ⟨Function.update_of_ne hne _ _, Function.update_of_ne hne _ _⟩
    · cases heq
      obtain rfl := Option.some.inj (ht.symm.trans ht')
      refine ⟨?_, fun x hx => ?_⟩
      · simpa [View.addTuple, View.claim, Content.add] using hholds
      · have hx' : x ∈ v.tuples t ∨ x = (rid, row) := by
          simpa [View.addTuple, View.claim, Content.add] using hx
        obtain hx' | rfl := hx'
        · exact h.conforms ht x hx'
        · exact hrow
  · exact hord.write h hstays rfl rfl fun t' table' i idx _ _ _ heq => by cases heq

theorem hasRid_overwrite {ts : List (RID × Tuple)} {rid' : RID} {tup : Tuple} (rid : RID)
    (new : Tuple) (h : (rid', tup) ∈ ts) : ∃ tup', (rid', tup') ∈ overwrite ts rid new := by
  by_cases heq : rid' = rid
  · exact ⟨new, List.mem_map.mpr ⟨_, h, by simp [heq]⟩⟩
  · exact ⟨tup, List.mem_map.mpr ⟨_, h, by simp [heq]⟩⟩

theorem Content.hasRid_set {c : Content} {t t' : String} {rid rid' : RID} {new : Tuple}
    (h : c.HasRid t' rid') : (c.set t rid new).HasRid t' rid' := by
  obtain ⟨tup, hmem⟩ := h
  by_cases ht : t' = t
  · subst ht
    obtain ⟨tup', hmem'⟩ := hasRid_overwrite rid new hmem
    exact ⟨tup', by simpa [set] using hmem'⟩
  · exact ⟨tup, by simpa [set, Function.update_of_ne ht] using hmem⟩

/-- A tuple is replaced by another one of its size. -/
theorem Layout.updateInPlace {old new : Tuple} (h : Layout catalog s v)
    (ht : catalog.tables.get? t = some table) (hmem : (rid, old) ∈ v.tuples t)
    (hnew : Conforms table.schema new) (hsize : old.size = new.size) :
    ∃ s', HeapFile.updateInPlace Tuple.size rid new s = .ok true s' ∧ s'.length = s.length ∧
      Layout catalog s' (v.setTuple t rid new) ∧
      (Ordered C tr catalog s v → Ordered C tr catalog s' (v.setTuple t rid new)) := by
  obtain ⟨s', hrun, hlen, hstays, hholds⟩ := (h.heap ht).updateInPlace hmem hsize
  have hclaim : ∀ o, (v.claim o s s').owner = v.owner := fun o => by
    funext p
    exact if_neg (by omega)
  have hown : claimed (v.own (.heap t)) s s' = v.own (.heap t) := by
    rw [← View.own_claim_self]
    funext p
    simp only [View.own, hclaim]
  refine ⟨s', hrun, hlen, ?_, fun hord => ?_⟩
  · refine h.write hstays (hclaim _).symm (fun t' rid' => Content.hasRid_set) (fun t' ht' => ?_)
      (fun t' table' heq ht' => ?_) fun t' table' i idx heq => by cases heq
    · have hne : t' ≠ t := fun heq => ht' (heq ▸ rfl)
      exact ⟨Function.update_of_ne hne _ _, rfl⟩
    · cases heq
      obtain rfl := Option.some.inj (ht.symm.trans ht')
      refine ⟨?_, fun x hx => ?_⟩
      · rw [hown]
        simpa [View.setTuple, Content.set] using hholds
      · have hx' : x ∈ overwrite (v.tuples t) rid new := by simpa [View.setTuple, Content.set] using hx
        obtain ⟨y, hy, rfl⟩ := List.mem_map.mp hx'
        split
        · exact hnew
        · exact h.conforms ht y hy
  · exact hord.write h hstays (hclaim _).symm rfl fun t' table' i idx _ _ _ heq => by cases heq

/-! ## Trees -/

/-- An insertion into a tree, whether it returns or raises, of a RID that the tree does not
    hold. It holds no other one more than before, and the other trees none at all. -/
theorem Layout.insertKey {key : Value} (h : Layout catalog s v)
    (ht : catalog.tables.get? t = some table) (hi : table.indexes.get? i = some idx)
    (hrid : v.HasRid t rid) (hlacks : v.Lacks s t i rid) :
    wp (BPlusTree.insert (.ofColumn C idx.keyType) false idx.rootPageId key rid)
      (fun root' s' => Layout catalog s' (v.claim (.index t i) s s') ∧
        (v.claim (.index t i) s s').own (.index t i) root' ∧
        ∀ t' i' rid', ¬((t' = t ∧ i' = i) ∧ rid' = rid) → v.Lacks s t' i' rid' →
          (v.claim (.index t i) s s').Lacks s' t' i' rid')
      (fun _ s' => Layout catalog s' (v.claim (.index t i) s s')) s := by
  have hkeep : ∀ {root' s'}, BPlusTree.InRegion (v.HasRid t) (v.own (.index t i)) s root' s' →
      Enters (v.own (.index t i)) s rid s' →
      Layout catalog s' (v.claim (.index t i) s s') := fun hr henters => by
    refine h.write hr.stays rfl (fun _ _ hrid => hrid) (fun _ _ => ⟨rfl, rfl⟩)
      (fun t' table' heq => by cases heq) fun t' table' i' idx' heq ht' hi' => ?_
    cases heq
    exact ⟨hr.region, (h.distinct ht hi).enters hlacks henters⟩
  refine ((BPlusTree.wp_insert (h.region ht hi) (h.root ht hi) hrid).and
    (BPlusTree.wp_insert_rids rid (h.region ht hi) (h.root ht hi))).mono
    (fun root' s' ⟨hr, henters⟩ => ?_) fun _ s' ⟨hr, henters⟩ => hkeep hr henters
  refine ⟨hkeep hr henters, by rw [View.own_claim_self]; exact hr.root, fun t' i' rid' hne ha => ?_⟩
  by_cases hsame : t' = t ∧ i' = i
  · obtain ⟨rfl, rfl⟩ := hsame
    rw [View.Lacks, View.own_claim_self]
    exact ha.enters henters fun heq => hne ⟨⟨rfl, rfl⟩, heq⟩
  · exact h.absent hr.stays (by simpa using hsame) ha

/-- Where only roots have changed, and stay within their trees, the layout is the same. -/
theorem Layout.reroot {catalog' : Catalog} (h : Layout catalog s v)
    (hshape : catalog'.shape = catalog.shape)
    (hroot : ∀ {t table i idx}, catalog'.tables.get? t = some table →
      table.indexes.get? i = some idx → v.own (.index t i) idx.rootPageId) :
    Layout catalog' s v := by
  have hfind : ∀ {t table}, catalog'.tables.get? t = some table →
      ∃ table₀, catalog.tables.get? t = some table₀ ∧ table₀.shape = table.shape := fun ht =>
    Catalog.get?_of_shape hshape ht
  refine ⟨h.lt_length, fun {t table} ht => ?_, fun {t table} ht => ?_, fun {t table} ht => ?_,
    fun {t table} ht => ?_, fun {t table i idx} ht hi => ?_, fun {t table i idx} ht hi => ?_,
    fun {t table i idx} ht hi => ?_, hroot⟩
  · obtain ⟨table₀, ht₀, heq⟩ := hfind ht
    exact (TableMeta.of_shape heq).1.symm.trans (h.name_eq ht₀)
  · obtain ⟨table₀, ht₀, heq⟩ := hfind ht
    rw [← TableMeta.keys_of_shape heq]
    exact h.nodup ht₀
  · obtain ⟨table₀, ht₀, heq⟩ := hfind ht
    rw [← (TableMeta.of_shape heq).2.2]
    exact h.heap ht₀
  · obtain ⟨table₀, ht₀, heq⟩ := hfind ht
    rw [← (TableMeta.of_shape heq).2.1]
    exact h.conforms ht₀
  · obtain ⟨table₀, ht₀, heq⟩ := hfind ht
    obtain ⟨idx₀, hi₀, hidx⟩ := TableMeta.get?_of_shape heq.symm hi
    obtain ⟨-, hcolumn, -, htype⟩ := IndexMeta.of_shape hidx
    obtain ⟨hcol, hindexable⟩ := h.keyed ht₀ hi₀
    exact ⟨by rw [← (TableMeta.of_shape heq).2.1, ← hcolumn, ← htype, hcol], htype ▸ hindexable⟩
  · obtain ⟨table₀, ht₀, heq⟩ := hfind ht
    obtain ⟨idx₀, hi₀, -⟩ := TableMeta.get?_of_shape heq.symm hi
    exact h.region ht₀ hi₀
  · obtain ⟨table₀, ht₀, heq⟩ := hfind ht
    obtain ⟨idx₀, hi₀, -⟩ := TableMeta.get?_of_shape heq.symm hi
    exact h.distinct ht₀ hi₀

theorem Layout.setRoot {root : Nat} (h : Layout catalog s v)
    (ht : catalog.tables.get? t = some table) (hi : table.indexes.get? i = some idx)
    (hroot : v.own (.index t i) root) : Layout (catalog.withRoot table i idx root) s v := by
  refine h.reroot (Catalog.shape_withRoot ht (h.name_eq ht) hi root) fun {t' table' i' idx'} ht' hi' => ?_
  obtain ⟨rfl, rfl, rfl⟩ | ⟨-, table₀, ht₀, hi₀⟩ :=
    Catalog.index_withRoot ht (h.name_eq ht) ht' hi'
  · exact hroot
  · exact h.root ht₀ hi₀

/-- A layout does not look at the entries. -/
theorem Layout.congr (h : Layout catalog s v) (howner : v'.owner = v.owner) (hlast : v'.last = v.last)
    (htuples : v'.tuples = v.tuples) : Layout catalog s v' := by
  obtain ⟨⟨tuples, entries⟩, owner, last⟩ := v
  obtain ⟨⟨tuples', entries'⟩, owner', last'⟩ := v'
  cases howner
  cases hlast
  cases htuples
  exact ⟨h.lt_length, h.name_eq, h.nodup, h.heap, h.conforms, h.keyed, h.region, h.distinct, h.root⟩

theorem Content.tuples_addKey (C : Conversions) (c : Content) (t i : String) (keyType : ColumnType)
    (key : Value) (rid : RID) : (c.addKey C t i keyType key rid).tuples = c.tuples := by
  unfold addKey
  split <;> rfl

theorem Content.entries_addKey_self {keyType : ColumnType} {key : Value} {k : RawKey}
    (hk : (KeyType.ofColumn C keyType).encodeKey key = .ok k) (c : Content) (t i : String)
    (rid : RID) : (c.addKey C t i keyType key rid).entries t i = (k, rid) :: c.entries t i := by
  simp [addKey, hk, addEntry]

theorem Content.entries_addKey_ne (C : Conversions) (c : Content) (t i : String) (keyType : ColumnType)
    (key : Value) (rid : RID) {t' i' : String} (h : ¬(t' = t ∧ i' = i)) :
    (c.addKey C t i keyType key rid).entries t' i' = c.entries t' i' := by
  unfold addKey
  split
  · exact if_neg h
  · rfl

theorem Content.tuples_addKeys (C : Conversions) (c : Content) (t : String) (valueMap : Dict Value)
    (rid : RID) (indexes : List (String × IndexMeta)) :
    (c.addKeys C t valueMap rid indexes).tuples = c.tuples := by
  induction indexes generalizing c with
  | nil => rfl
  | cons x indexes ih =>
    unfold addKeys
    split
    · rw [ih, tuples_addKey]
    · exact ih c

theorem Layout.addKey {keyType : ColumnType} {key : Value} (h : Layout catalog s v) :
    Layout catalog s (v.addKey C t i keyType key rid) :=
  h.congr rfl rfl (Content.tuples_addKey C v.toContent t i keyType key rid)

theorem View.claim_self (v : View) (o : Owner) (s : Pages) : v.claim o s s = v := by
  have howner : (v.claim o s s).owner = v.owner := by
    funext p
    exact if_neg fun h => absurd (h.1.trans_lt h.2) (lt_irrefl _)
  calc v.claim o s s = { v with owner := (v.claim o s s).owner } := rfl
    _ = v := by rw [howner]

/-- An insertion into one index keeps the others in order, and its own tree too if the key
    is stored as it stands. One into a tracked index that raises has changed nothing. -/
theorem Ordered.insertKey {key : Value} (hl : Layout catalog s v) (h : Ordered C tr catalog s v)
    (ht : catalog.tables.get? t = some table) (hi : table.indexes.get? i = some idx)
    (hrid : v.HasRid t rid)
    (hkey : tr t i idx.keyType → ∃ k, BPlusTree.Enters C idx.keyType key k) :
    wpIf (fun s' => s'.length < invalidPageId)
      (BPlusTree.insert (.ofColumn C idx.keyType) false idx.rootPageId key rid)
      (fun root' s' => Ordered C tr (catalog.withRoot table i idx root') s'
        ((v.claim (.index t i) s s').addKey C t i idx.keyType key rid))
      (fun _ s' => Ordered C tr catalog s' (v.claim (.index t i) s s')) s := by
  have hregion : wp (BPlusTree.insert (.ofColumn C idx.keyType) false idx.rootPageId key rid) _ _ s :=
    BPlusTree.wp_insert (hl.region ht hi) (hl.root ht hi) hrid
  -- the trees of the other indexes, whatever becomes of this one
  have hother : ∀ {root' s'}, Stays (v.own (.index t i)) s s' → ∀ {t' table' i' idx'},
      (catalog.withRoot table i idx root').tables.get? t' = some table' →
      table'.indexes.get? i' = some idx' → tr t' i' idx'.keyType → ¬(t' = t ∧ i' = i) →
      ∃ es, es.Perm (((v.claim (.index t i) s s').addKey C t i idx.keyType key rid).entries t' i') ∧
        BPlusTree.ColumnTree C idx'.keyType ((v.claim (.index t i) s s').own (.index t' i')) s'
          idx'.rootPageId es := by
    intro root' s' hstays t' table' i' idx' ht' hi' htr' hne
    have hentries : ((v.claim (.index t i) s s').addKey C t i idx.keyType key rid).entries t' i' =
        v.entries t' i' := Content.entries_addKey_ne C _ t i idx.keyType key rid hne
    rw [hentries]
    obtain ⟨rfl, rfl, -⟩ | ⟨-, table₀, ht₀, hi₀⟩ :=
      Catalog.index_withRoot ht (hl.name_eq ht) ht' hi'
    · exact absurd ⟨rfl, rfl⟩ hne
    · refine h.other hl hstays ht₀ hi₀ htr' fun heq => hne ?_
      cases heq
      exact ⟨rfl, rfl⟩
  by_cases htr : tr t i idx.keyType
  · obtain ⟨k, henters⟩ := hkey htr
    obtain ⟨es, hperm, htree⟩ := h ht hi htr
    obtain ⟨tup, hmem⟩ := hrid
    have hridlt : rid.pageId < s.length ∧ rid.slotId < 2 ^ 16 := (hl.heap ht).rid_lt hmem
    -- within the limit, the tree either takes the key or is left as it is
    have hcases : ∀ {s'}, (BPlusTree.insert (.ofColumn C idx.keyType) false idx.rootPageId key rid).after s
        = s' → s.length ≤ s'.length → s'.length < invalidPageId →
        (∃ root' s', BPlusTree.insert (.ofColumn C idx.keyType) false idx.rootPageId key rid s =
          .ok root' s' ∧
          BPlusTree.ColumnTook C idx.keyType (v.own (.index t i)) s es k rid root' s') ∨
        ∃ e, BPlusTree.insert (.ofColumn C idx.keyType) false idx.rootPageId key rid s = .error e s := by
      intro s' hafter hle hlt
      have hlimit : invalidPageId = 2 ^ 32 - 1 := rfl
      refine htree.insert_enters henters ?_ ?_
      · simp only [BPlusTree.ridFits, decide_eq_true_eq]
        omega
      · rw [hafter]
        omega
    refine wp_of (fun root' s' hrun hroom => ?_) fun e s' hrun hroom => ?_
    · obtain ⟨root₁, s₁, hrun', htook⟩ | ⟨e, hrun'⟩ :=
        hcases (PageM.after_ok hrun) (hregion.ok hrun).stays.length_le hroom
      · obtain ⟨rfl, rfl⟩ : root₁ = root' ∧ s₁ = s' := by simpa [hrun'] using hrun
        intro t' table' i' idx' ht' hi' htr'
        by_cases hsame : t' = t ∧ i' = i
        · obtain ⟨rfl, rfl⟩ := hsame
          obtain ⟨es', hperm', htree'⟩ := htook.tree
          obtain ⟨-, -, rfl⟩ | ⟨hne, -⟩ := Catalog.index_withRoot ht (hl.name_eq ht) ht' hi'
          · refine ⟨es', ?_, ?_⟩
            · simpa [View.addKey, Content.addKey, henters.encode_eq, Content.addEntry, View.claim]
                using hperm'.trans (hperm.cons _)
            · have hown : (v.claim (.index t' i') s s₁).own (.index t' i') =
                  claimed (v.own (.index t' i')) s s₁ := v.own_claim_self _ s s₁
              rw [← hown] at htree'
              exact htree'
          · exact absurd ⟨rfl, rfl⟩ hne
        · exact hother htook.stays ht' hi' htr' hsame
      · rw [hrun'] at hrun
        cases hrun
    · obtain ⟨root₁, s₁, hrun', -⟩ | ⟨e', hrun'⟩ :=
        hcases (PageM.after_error hrun) (hregion.error hrun).stays.length_le hroom
      · rw [hrun'] at hrun
        cases hrun
      · obtain ⟨-, rfl⟩ : e' = e ∧ s = s' := by simpa [hrun'] using hrun
        rw [View.claim_self]
        exact h
  · refine wp_of (fun root' s' hrun _ => ?_) fun e s' hrun _ => ?_
    · intro t' table' i' idx' ht' hi' htr'
      refine hother (hregion.ok hrun).stays ht' hi' htr' ?_
      rintro ⟨rfl, rfl⟩
      obtain ⟨-, -, rfl⟩ | ⟨hne, -⟩ := Catalog.index_withRoot ht (hl.name_eq ht) ht' hi'
      · exact htr htr'
      · exact hne ⟨rfl, rfl⟩
    · refine h.write hl (hregion.error hrun).stays rfl rfl ?_
      rintro t' table' i' idx' ht' hi' htr' heq
      cases heq
      obtain rfl := Option.some.inj (ht.symm.trans ht')
      obtain rfl := Option.some.inj (hi.symm.trans hi')
      exact htr htr'

/-! ## New tables and indexes -/

theorem View.own_assign_self (v : View) (o : Owner) (p : Nat) :
    (v.assign o p).own o = fun q => q = p := by
  funext q
  refine propext ?_
  simp only [own, assign]
  split
  · rename_i hq
    simp [hq]
  · rename_i hq
    split
    · simp [hq]
    · rename_i hne
      simp [hq, hne]

theorem View.own_assign_ne (h : Layout catalog s v) {o' : Owner} (hne : o' ≠ o) :
    (v.assign o s.length).own o' = v.own o' := by
  funext q
  refine propext ?_
  simp only [own, assign]
  split
  · rename_i hq
    refine ⟨fun heq => absurd (Option.some.inj heq).symm hne, fun heq => ?_⟩
    exact absurd (h.lt_length heq) (by omega)
  · split
    · rename_i heq
      rw [heq]
      simp [Ne.symm hne]
    · rfl

theorem View.lt_length_assign {page : Page RawKey Tuple} (h : Layout catalog s v) {o' : Owner}
    (hp : (v.assign o s.length).owner p = some o') : p < (s ++ [page]).length := by
  rw [List.length_append, List.length_singleton]
  simp only [assign] at hp
  split at hp
  · omega
  · split at hp
    · cases hp
    · exact Nat.lt_succ_of_lt (h.lt_length hp)

/-- An old page of a file that has grown by one. -/
theorem Layout.same_append {page : Page RawKey Tuple} (h : Layout catalog s v) (hp : v.own o p) :
    (s ++ [page])[p]? = s[p]? := List.getElem?_append_left (h.lt_length hp)

theorem Layout.createTable (h : Layout catalog s v) (hlen : s.length < invalidPageId) (schema : Schema) :
    (HeapFile.create : PagesM HeapFile) s =
        .ok ⟨s.length, s.length⟩ (s ++ [.heap HeapFile.initHeapPage]) ∧
      Layout (catalog.setTable { name := t, schema, heapFirstPageId := s.length })
        (s ++ [.heap HeapFile.initHeapPage]) (v.newTable t s.length) ∧
      (Ordered C tr catalog s v →
        Ordered C tr (catalog.setTable { name := t, schema, heapFirstPageId := s.length })
          (s ++ [.heap HeapFile.initHeapPage]) (v.newTable t s.length)) := by
  obtain ⟨hrun, hholds⟩ : (HeapFile.create : PagesM HeapFile) s = _ ∧ Holds _ _ _ _ _ :=
    Holds.create s hlen
  have hown : ∀ o', (v.newTable t s.length).own o' = (v.assign (.heap t) s.length).own o' :=
    fun _ => rfl
  have hfind : ∀ {t' table'}, (catalog.setTable
      { name := t, schema, heapFirstPageId := s.length }).tables.get? t' = some table' →
      (t' = t ∧ table' = { name := t, schema, heapFirstPageId := s.length }) ∨
      (t' ≠ t ∧ catalog.tables.get? t' = some table') := by
    intro t' table' ht'
    rw [Catalog.setTable, Dict.get?_set] at ht'
    split at ht'
    · rename_i heq
      exact .inl ⟨heq.symm, (Option.some.inj ht').symm⟩
    · rename_i hne
      exact .inr ⟨Ne.symm hne, ht'⟩
  refine ⟨hrun, ⟨fun hp => View.lt_length_assign h hp, fun {t' table'} ht' => ?_,
    fun {t' table'} ht' => ?_, fun {t' table'} ht' => ?_, fun {t' table'} ht' => ?_, fun {t' table' i idx} ht' hi => ?_,
    fun {t' table' i idx} ht' hi => ?_, fun {t' table' i idx} ht' hi => ?_,
    fun {t' table' i idx} ht' hi => ?_⟩, fun hord t' table' i idx ht' hi htr => ?_⟩
  · obtain ⟨rfl, rfl⟩ | ⟨-, ht'⟩ := hfind ht'
    · rfl
    · exact h.name_eq ht'
  · obtain ⟨rfl, rfl⟩ | ⟨-, ht'⟩ := hfind ht'
    · exact List.nodup_nil
    · exact h.nodup ht'
  · obtain ⟨rfl, rfl⟩ | ⟨hne, ht'⟩ := hfind ht'
    · rw [hown, View.own_assign_self]
      simpa [View.newTable] using hholds
    · rw [hown, View.own_assign_ne h (by simpa using hne)]
      simpa [View.newTable, Function.update_of_ne hne] using
        (h.heap ht').congr fun p hp => h.same_append hp
  · obtain ⟨rfl, rfl⟩ | ⟨hne, ht'⟩ := hfind ht'
    · simp [View.newTable]
    · simpa [View.newTable, Function.update_of_ne hne] using h.conforms ht'
  · obtain ⟨rfl, rfl⟩ | ⟨hne, ht'⟩ := hfind ht'
    · cases hi
    · exact h.keyed ht' hi
  · obtain ⟨rfl, rfl⟩ | ⟨hne, ht'⟩ := hfind ht'
    · cases hi
    · rw [hown, View.own_assign_ne h (by simp)]
      refine ((h.region ht' hi).congr (by simp) fun p hp => h.same_append hp).mono fun rid hrid => ?_
      simpa [Content.HasRid, View.newTable, Function.update_of_ne hne] using hrid
  · obtain ⟨rfl, rfl⟩ | ⟨hne, ht'⟩ := hfind ht'
    · cases hi
    · rw [hown, View.own_assign_ne h (by simp)]
      exact (h.distinct ht' hi).congr fun p hp => h.same_append hp
  · obtain ⟨rfl, rfl⟩ | ⟨hne, ht'⟩ := hfind ht'
    · cases hi
    · rw [hown, View.own_assign_ne h (by simp)]
      exact h.root ht' hi
  · obtain ⟨rfl, rfl⟩ | ⟨hne, ht'⟩ := hfind ht'
    · cases hi
    · rw [hown, View.own_assign_ne h (by simp)]
      obtain ⟨es, hperm, htree⟩ := hord ht' hi htr
      exact ⟨es, hperm, htree.congr (fun p hp => h.same_append hp) (by simp)⟩

/-- The pages after an empty tree was created. -/
def emptyLeaf (s : Pages) : Pages := s ++ [.leaf [] invalidPageId]

theorem createTree_eq {keyType : ColumnType} (hkey : keyType.Indexable) (s : Pages) :
    BPlusTree.create (.ofColumn C keyType) s = .ok s.length (emptyLeaf s) := by
  obtain rfl | rfl := hkey
  · exact BPlusTree.create_eq (.intColumn C) s
  · exact BPlusTree.create_eq (.textColumn C) s

theorem Layout.createIndex (C : Conversions) (tr : Tracked) (i : String) (h : Layout catalog s v)
    (ht : catalog.tables.get? t = some table) (hroot : idx.rootPageId = s.length) (hkeyed : Keyed table idx) :
    Layout (catalog.setTable { table with indexes := table.indexes.set i idx }) (emptyLeaf s)
        (v.newIndex t i s.length) ∧
      (Ordered C tr catalog s v →
        Ordered C tr (catalog.setTable { table with indexes := table.indexes.set i idx }) (emptyLeaf s)
          (v.newIndex t i s.length)) := by
  have hown : ∀ o', (v.newIndex t i s.length).own o' = (v.assign (.index t i) s.length).own o' :=
    fun _ => rfl
  have hname := h.name_eq ht
  have hfind : ∀ {t' table'}, (catalog.setTable
      { table with indexes := table.indexes.set i idx }).tables.get? t' = some table' →
      ∃ table₀, catalog.tables.get? t' = some table₀ ∧ table'.name = table₀.name ∧
        table'.schema = table₀.schema ∧ table'.heapFirstPageId = table₀.heapFirstPageId ∧
        table'.indexes.keys.Nodup ∧ ∀ {i' idx'}, table'.indexes.get? i' = some idx' →
          (t' = t ∧ i' = i ∧ idx' = idx) ∨
          (¬(t' = t ∧ i' = i) ∧ table₀.indexes.get? i' = some idx') := by
    intro t' table' ht'
    rw [Catalog.setTable, Dict.get?_set] at ht'
    split at ht'
    · rename_i heq
      obtain rfl : t = t' := hname.symm.trans heq
      obtain rfl := Option.some.inj ht'
      refine ⟨table, ht, rfl, rfl, rfl, Dict.nodup_keys_set (h.nodup ht) i idx,
        fun {i' idx'} hi' => ?_⟩
      dsimp only at hi'
      rw [Dict.get?_set] at hi'
      split at hi'
      · rename_i heq
        exact .inl ⟨rfl, heq.symm, (Option.some.inj hi').symm⟩
      · rename_i hne
        exact .inr ⟨fun heq => hne heq.2.symm, hi'⟩
    · rename_i hne
      exact ⟨table', ht', rfl, rfl, rfl, h.nodup ht', fun hi' =>
        .inr ⟨fun heq => hne (hname.trans heq.1.symm), hi'⟩⟩
  have hne : ∀ {t' i'}, ¬(t' = t ∧ i' = i) → Owner.index t' i' ≠ .index t i := fun hne heq => by
    cases heq
    exact hne ⟨rfl, rfl⟩
  refine ⟨⟨fun hp => View.lt_length_assign h hp, fun {t' table'} ht' => ?_,
    fun {t' table'} ht' => ?_, fun {t' table'} ht' => ?_, fun {t' table'} ht' => ?_,
    fun {t' table' i' idx'} ht' hi' => ?_, fun {t' table' i' idx'} ht' hi' => ?_,
    fun {t' table' i' idx'} ht' hi' => ?_, fun {t' table' i' idx'} ht' hi' => ?_⟩,
    fun hord t' table' i' idx' ht' hi' htr => ?_⟩
  · obtain ⟨table₀, ht₀, hn, -⟩ := hfind ht'
    exact hn.trans (h.name_eq ht₀)
  · obtain ⟨table₀, -, -, -, -, hnodup, -⟩ := hfind ht'
    exact hnodup
  · obtain ⟨table₀, ht₀, -, -, hfirst, -⟩ := hfind ht'
    rw [hfirst, hown, View.own_assign_ne h (by simp)]
    exact (h.heap ht₀).congr fun p hp => h.same_append hp
  · obtain ⟨table₀, ht₀, -, hschema, -⟩ := hfind ht'
    rw [hschema]
    exact h.conforms ht₀
  · obtain ⟨table₀, ht₀, -, hschema, -, -, hindex⟩ := hfind ht'
    obtain ⟨rfl, rfl, rfl⟩ | ⟨-, hi₀⟩ := hindex hi'
    · obtain rfl := Option.some.inj (ht.symm.trans ht₀)
      exact ⟨hschema ▸ hkeyed.column, hkeyed.indexable⟩
    · exact ⟨hschema ▸ (h.keyed ht₀ hi₀).column, (h.keyed ht₀ hi₀).indexable⟩
  · obtain ⟨table₀, ht₀, -, -, -, -, hindex⟩ := hfind ht'
    obtain ⟨rfl, rfl, rfl⟩ | ⟨hother, hi₀⟩ := hindex hi'
    · rw [hown, View.own_assign_self]
      refine ⟨fun p hp => by simp [emptyLeaf, hp], fun p hp => ⟨.leaf [] invalidPageId, ?_, ?_⟩⟩
      · simp [emptyLeaf, hp]
      · exact ⟨by simp, .inl rfl⟩
    · rw [hown, View.own_assign_ne h (hne hother)]
      exact (h.region ht₀ hi₀).congr (by simp [emptyLeaf]) fun p hp => h.same_append hp
  · obtain ⟨table₀, ht₀, -, -, -, -, hindex⟩ := hfind ht'
    obtain ⟨rfl, rfl, rfl⟩ | ⟨hother, hi₀⟩ := hindex hi'
    · rw [hown, View.own_assign_self]
      refine ⟨fun p hp => ?_, fun p q hp hq _ _ _ => hp.trans hq.symm⟩
      simp [ridsAt, Page.rids, emptyLeaf, hp]
    · rw [hown, View.own_assign_ne h (hne hother)]
      exact (h.distinct ht₀ hi₀).congr fun p hp => h.same_append hp
  · obtain ⟨table₀, ht₀, -, -, -, -, hindex⟩ := hfind ht'
    obtain ⟨rfl, rfl, rfl⟩ | ⟨hother, hi₀⟩ := hindex hi'
    · rw [hown, View.own_assign_self]
      exact hroot
    · rw [hown, View.own_assign_ne h (hne hother)]
      exact h.root ht₀ hi₀
  · obtain ⟨table₀, ht₀, -, -, -, -, hindex⟩ := hfind ht'
    obtain ⟨rfl, rfl, rfl⟩ | ⟨hother, hi₀⟩ := hindex hi'
    · rw [hown, View.own_assign_self, hroot]
      exact ⟨[], by simp [View.newIndex], BPlusTree.ColumnTree.create C hkeyed.indexable s⟩
    · have hentries : (v.newIndex t i s.length).entries t' i' = v.entries t' i' := if_neg hother
      rw [hown, View.own_assign_ne h (hne hother), hentries]
      obtain ⟨es, hperm, htree⟩ := hord ht₀ hi₀ htr
      exact ⟨es, hperm, htree.congr (fun p hp => h.same_append hp) (by simp [emptyLeaf])⟩

end

end Minirel
