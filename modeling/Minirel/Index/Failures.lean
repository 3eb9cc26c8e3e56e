-- SUMMARY: When an insertion into a tree fails, and what a failed insertion leaves behind.
import Minirel.Index.Pins
import Minirel.Index.Multimap

/-!
# Failed insertions

An insertion should fail in two cases, a duplicate in a unique index and a leaf that is full of
the key, and then change neither a page nor a pin. It does so unless it reaches the second case:
that error is raised with the leaf pinned. The other errors are those of `struct.pack`.
-/

namespace Minirel

namespace BPlusTree

open Row

variable {κ ε τ R : Type} [LinearOrder R] {K : KeyType κ ε} {O : KeyOrder K R}
  {s s' : PageFile ε τ} {height : Nat → Option Nat} {root h p : Nat} {path : List Nat}
  {before after level : List (Item Nat ε)}

/-! ## Full nodes -/

/-- The node on a page takes no further key. -/
def isFull (K : KeyType κ ε) (s : PageFile ε τ) (pageId : Nat) : Bool :=
  match s[pageId]? with
  | some (.leaf entries _) => maxLeafKeys K ≤ entries.length
  | some (.internal _ rest) => maxInternalKeys K ≤ rest.length
  | _ => false

/-- How many nodes are full in a row, from the end of a descent up: an insertion cuts them. -/
def fullNodes (K : KeyType κ ε) (s : PageFile ε τ) (path : List Nat) : Nat :=
  (path.reverse.takeWhile (isFull K s)).length

/-- The ids of the pages that an insertion puts new nodes on fit their four bytes. The id of a
    new root is not stored. -/
def NewPagesFit (K : KeyType κ ε) (s : PageFile ε τ) (path : List Nat) : Prop :=
  fullNodes K s path = 0 ∨ s.length + fullNodes K s path ≤ 2 ^ 32

theorem isFull_congr {pageId : Nat} (hs : s'[pageId]? = s[pageId]?) :
    isFull K s' pageId = isFull K s pageId := by
  simp only [isFull, hs]

theorem isFull_leaf {es : List (ε × RID)} {nx : Nat} (hpage : s[p]? = some (.leaf es nx)) :
    isFull K s p = decide (maxLeafKeys K ≤ es.length) := by
  simp [isFull, hpage]

theorem isFull_internal {child : Nat} {rest : List (ε × Nat)}
    (hpage : s[p]? = some (.internal child rest)) :
    isFull K s p = decide (maxInternalKeys K ≤ rest.length) := by
  simp [isFull, hpage]

theorem takeWhile_isFull_congr (hs : ∀ x ∈ path, s'[x]? = s[x]?) :
    path.takeWhile (isFull K s') = path.takeWhile (isFull K s) := by
  induction path with
  | nil => rfl
  | cons parent path ih =>
    rw [List.forall_mem_cons] at hs
    simp only [List.takeWhile_cons, isFull_congr hs.1, ih hs.2]

/-- The ancestors of a node stand higher than it. -/
theorem Focus.height_path (hf : Focus O s height root h path before p after) :
    ∀ x ∈ path, ∃ j, h < j ∧ height x = some j := by
  induction hf with
  | root => simp
  | @down h q p path before after ls rs hup _ _ _ _ _ _ ih =>
    rw [List.forall_mem_cons]
    refine ⟨⟨h + 1, Nat.lt_succ_self h, hup.toLevel.height_eq q (by simp)⟩, fun x hx => ?_⟩
    obtain ⟨j, hj, hx⟩ := ih x hx
    exact ⟨j, (Nat.lt_succ_self h).trans hj, hx⟩

/-- Writes to a node and to new pages leave the ancestors of the node as they were. -/
theorem Focus.takeWhile_isFull (hf : Focus O s height root h path before p after)
    (hscope : ∀ x j, height x = some j → x < s.length) (new page : Page ε τ) :
    path.takeWhile (isFull K ((s ++ [new]).set p page)) = path.takeWhile (isFull K s) := by
  refine takeWhile_isFull_congr fun x hx => ?_
  obtain ⟨j, hj, hx⟩ := hf.height_path x hx
  have hp := hf.toLevel.height_eq p (by simp)
  have hne : p ≠ x := by
    rintro rfl
    rw [hp, Option.some.injEq] at hx
    omega
  rw [List.getElem?_set_ne hne, List.getElem?_append_left (hscope x j hx)]

/-! ## When an insertion returns -/

theorem childFits_iff {x : Nat} : childFits x ↔ x < 2 ^ 32 := by
  simp [childFits]

/-- The rest of a split returns exactly when the pages it asks for have ids that fit. -/
theorem insertIntoParent_returns_iff {q : Nat} {k : ε}
    (hf : Focus O s height root h path before p after)
    (hscope : ∀ x j, height x = some j → x < s.length) (hpq : p < q) (hq : q + 1 = s.length)
    (hk : O.Stored k) :
    (∃ root' s', insertIntoParent K root path p (O.val k) q s = .ok root' s') ↔
      q + (path.takeWhile (isFull K s)).length < 2 ^ 32 := by
  induction path generalizing s height h p before after k q with
  | nil =>
    cases hf with
    | root hlevel =>
      simp only [List.takeWhile_nil, List.length_nil, Nat.add_zero]
      constructor
      · rintro ⟨root', s', hrun⟩
        simp only [insertIntoParent] at hrun
        rw [run_bind_ok (newPage_apply s)] at hrun
        obtain ⟨⟨⟩, s₁, hwrite, -⟩ := run_bind_eq_ok.mp hrun
        have hst : ∀ x ∈ [(k, q)], O.Stored x.1 := by simpa using hk
        obtain ⟨hfits, -⟩ := writeInternal_eq_ok hst hwrite
        exact childFits_iff.mp (hfits.children (k, q) (by simp))
      · intro hlt
        exact ⟨_, _, insertIntoParent_nil_of_fits hk (childFits_iff.mpr (hpq.trans hlt)) (childFits_iff.mpr hlt)⟩
  | cons parent path ih =>
    cases hf with
    | @down _ _ _ _ before after ls rs hup hnodes hpage hfits hlo hhi hlevel =>
    have hfull : isFull K s parent = decide (maxInternalKeys K ≤ ls.length + rs.length) := by
      rw [isFull_internal hpage, length_zipRest]
    -- the next call, when the parent is cut in two
    have hrec : ∀ {r₁ r₂ : List (ε × Nat)} {c : Nat} {upKey : ε}, O.Stored upKey →
        ((∃ root' s', insertIntoParent K root path parent (O.val upKey) s.length
          ((s ++ [Page.internal c r₂]).set parent (.internal (zipFirst ls p) r₁)) = .ok root' s') ↔
            s.length + (path.takeWhile (isFull K s)).length < 2 ^ 32) := by
      intro r₁ r₂ c upKey hup'
      have hiff := ih (hup.frame_cut hscope (.internal c r₂) (.internal (zipFirst ls p) r₁))
        (fun x j hx => by simpa using Nat.lt_succ_of_lt (hscope x j hx))
        (hup.toLevel.lt_length parent (by simp)) (by simp) hup'
      rwa [hup.takeWhile_isFull hscope] at hiff
    rw [List.takeWhile_cons, hfull]
    constructor
    · rintro ⟨root', s', hrun⟩
      obtain ⟨hfits', hle, -, -⟩ | ⟨hgt, r₁, upKey, c, r₂, -, -, hup', -, -, hrun'⟩ :=
        insertIntoParent_cons_ok hpage hfits.stored hk hlevel.notMem_left hrun
      · rw [decide_eq_false (show ¬maxInternalKeys K ≤ ls.length + rs.length by omega)]
        exact childFits_iff.mp ((internalFits_zip.mp hfits').2.2 (k, q) (by simp)).2
      · have hover : maxInternalKeys K ≤ ls.length + rs.length := by omega
        have hlt := (hrec hup').mp ⟨root', s', hrun'⟩
        rw [decide_eq_true hover, if_pos rfl, List.length_cons]
        omega
    · intro hlt
      have hqfits : childFits q := childFits_iff.mpr ((Nat.le_add_right q _).trans_lt hlt)
      obtain ⟨-, hrun⟩ | ⟨hgt, r₁, upKey, c, r₂, hup', hrun⟩ :=
        insertIntoParent_cons_of_fits hpage hfits hk hqfits hlevel.notMem_left hhi
      · exact ⟨_, _, hrun⟩
      · have hover : maxInternalKeys K ≤ ls.length + rs.length := by omega
        rw [decide_eq_true hover, if_pos rfl, List.length_cons] at hlt
        rw [hrun, hrec hup']
        omega

/-- An insertion that is not refused returns exactly when its new pages have ids that fit. -/
theorem Tree.insert_returns_iff {unique : Bool} {k : ε} {rid : RID} {nx : Nat} {l r : List (ε × RID)}
    (ht : Tree O s height root level) (hk : O.Stored k) (hrid : ridFits rid)
    (hf : Found O s height root level (O.val k) path before p after (l ++ r) nx)
    (hl : ∀ a ∈ l, O.rk a.1 ≤ O.rk k) (hr : ∀ a ∈ r, O.rk k < O.rk a.1)
    (hpos : bisectRight K (((l ++ r).map O.dec).map (·.1)) (O.val k) = .ok l.length)
    (hdup : duplicates K unique root (O.val k) s = .ok [] s)
    (hroom : (l ++ r).length < maxLeafKeys K ∨ ∃ a ∈ l ++ r, O.rk a.1 ≠ O.rk k) :
    (∃ root' s', insert K unique root (O.val k) rid s = .ok root' s') ↔
      NewPagesFit K s (p :: path).reverse := by
  have hsorted := hf.sorted_insert ht.inOrder hl hr rid
  have hplt := hf.focus.toLevel.lt_length p (by simp)
  have hlen := hf.length_le
  have hreturns : ∀ (x : ε × RID) (new page : Page ε τ), O.Stored x.1 →
      ((∃ root' s', insertIntoParent K root path p (O.val x.1) s.length
          ((s ++ [new]).set p page) = .ok root' s') ↔
        s.length + (path.takeWhile (isFull K s)).length < 2 ^ 32) := by
    intro x new page hx
    rw [← hf.focus.takeWhile_isFull ht.scope new page]
    exact insertIntoParent_returns_iff (hf.focus.frame_cut ht.scope new page)
      (fun y j hy => by simpa using Nat.lt_succ_of_lt (ht.scope y j hy)) hplt (by simp) hx
  have hnew : NewPagesFit K s (p :: path).reverse ↔ maxLeafKeys K ≤ (l ++ r).length →
      s.length + (path.takeWhile (isFull K s)).length < 2 ^ 32 := by
    rw [NewPagesFit, fullNodes, List.reverse_reverse, List.takeWhile_cons, isFull_leaf hf.page]
    by_cases hfull : maxLeafKeys K ≤ (l ++ r).length
    · rw [if_pos (decide_eq_true hfull), List.length_cons]
      omega
    · rw [if_neg (by simpa only [decide_eq_true_eq] using hfull)]
      exact ⟨fun _ h => absurd h hfull, fun _ => .inl rfl⟩
  rw [hnew]
  constructor
  · rintro ⟨root', s', hrun⟩ hfull
    obtain ⟨-, hle, -⟩ | ⟨l', x, r', -, -, -, -, -, hfr, hup⟩ := insert_ok ht hk hf hpos hsorted hrun
    · simp only [List.length_append, List.length_cons] at hle hfull
      omega
    · exact (hreturns x _ _ (hfr.stored x (by simp))).mp ⟨root', s', hup⟩
  · intro hids
    have hfits := hf.fits.insert hk hrid
    have hentries : l.map O.dec ++ (O.val k, rid) :: r.map O.dec =
        (l ++ (k, rid) :: r).map O.dec := by
      simp [KeyOrder.dec]
    rw [hf.insert_eq hpos hdup, hentries]
    by_cases hle : (l ++ (k, rid) :: r).length ≤ maxLeafKeys K
    · refine ⟨root, s.set p (.leaf (l ++ (k, rid) :: r) nx), ?_⟩
      rw [insertInLeaf, List.length_map, if_pos hle, run_bind_ok (writeLeaf_eq hfits hle rfl s)]
      rfl
    · have hmax : 4 ≤ maxLeafKeys K := le_max_left _ _
      simp only [List.length_append, List.length_cons] at hle hlen hroom hids
      obtain ⟨hequal, -⟩ | ⟨-, i, hsplit⟩ :=
        splitPoint_total hfits.stored hsorted (by simp only [List.length_append, List.length_cons]; omega)
      · -- a full leaf of one key is none of the new key
        exfalso
        obtain hlt | ⟨a, ha, hne⟩ := hroom
        · omega
        · refine hne (hequal a ?_ (k, rid) (by simp))
          obtain ha | ha := List.mem_append.mp ha
          · exact List.mem_append_left _ ha
          · exact List.mem_append_right _ (List.mem_cons_of_mem _ ha)
      · obtain ⟨l', x, r', heq, rfl, hne, -⟩ := splitPoint_ok hfits.stored hsorted
          (by simp only [List.length_append, List.length_cons]; omega) hsplit
        have hlens := congrArg List.length heq
        have hne' := List.length_pos_iff.mpr hne
        simp only [List.length_append, List.length_cons] at hlens
        rw [heq] at hfits hsplit ⊢
        rw [insertInLeaf_cut hfits (by omega) (by simp only [List.length_cons]; omega)
          (by simp only [List.length_append, List.length_cons]; omega) hsplit (by omega)]
        exact (hreturns x _ _ (hfits.stored x (by simp))).mpr (hids (by omega))

/-- A leaf that is full of the key cannot be cut, and the call raises with the leaf pinned. -/
theorem Found.insert_full {unique : Bool} {k : ε} {rid : RID} {nx : Nat} {es : List (ε × RID)}
    (hf : Found O s height root level (O.val k) path before p after es nx)
    (hk : O.Stored k) (hlen : es.length = maxLeafKeys K)
    (hes : ∀ a ∈ es, O.rk a.1 = O.rk k)
    (hpos : bisectRight K ((es.map O.dec).map (·.1)) (O.val k) = .ok es.length)
    (hdup : duplicates K unique root (O.val k) s = .ok [] s) (pins : Nat → Nat) :
    Pinned.insert K unique root (O.val k) rid ⟨s, pins⟩ =
      .error (splitError K) ⟨s, Pinned.hold p pins⟩ := by
  have hmax : 4 ≤ maxLeafKeys K := le_max_left _ _
  have hst : ∀ a ∈ es ++ [(k, rid)], O.Stored a.1 :=
    List.forall_mem_append.mpr ⟨hf.fits.stored, by simpa using hk⟩
  have hequal : ∀ a ∈ es ++ [(k, rid)], O.rk a.1 = O.rk k :=
    List.forall_mem_append.mpr ⟨hes, by simp⟩
  have hsorted : (es ++ [(k, rid)]).Pairwise fun a b => O.rk a.1 ≤ O.rk b.1 :=
    List.pairwise_of_forall_mem_list fun a ha b hb => ((hequal a ha).trans (hequal b hb).symm).le
  have hsplit : splitPointAvoidingDuplicates K (((es ++ [(k, rid)]).map O.dec).map (·.1)) =
      .error (splitError K) := by
    obtain ⟨-, hsplit⟩ | ⟨⟨a, ha, b, hb, hne⟩, -⟩ :=
      splitPoint_total hst hsorted (by rw [List.length_append]; omega)
    · exact hsplit
    · exact absurd ((hequal a ha).trans (hequal b hb).symm) hne
  have hover : ¬((es ++ [(k, rid)]).map O.dec).length ≤ maxLeafKeys K := by
    rw [List.length_map, List.length_append, List.length_singleton]
    omega
  have hins : pyInsert (es.map O.dec) es.length (O.val k, rid) = (es ++ [(k, rid)]).map O.dec := by
    simpa [KeyOrder.dec] using pyInsert_append (es.map O.dec) [] (O.val k, rid)
  have hfound : Pinned.duplicates K unique root (O.val k) ⟨s, pins⟩ = .ok [] ⟨s, pins⟩ :=
    (Pinned.tracks_duplicates K unique root (O.val k)).ok hdup pins
  have hpath : Pinned.findLeafPath K root (O.val k) ⟨s, pins⟩ = .ok (p :: path).reverse ⟨s, pins⟩ :=
    (Pinned.tracks_findLeafPath K root (O.val k)).ok hf.run pins
  have hfetch : Pinned.fetchPage p ⟨s, pins⟩ = .ok (.leaf es nx) ⟨s, Pinned.hold p pins⟩ :=
    (Pinned.Tracks.fetchPage p : Pinned.Tracks id _ _ _).ok (fetchPage_eq hf.page) pins
  unfold Pinned.insert
  rw [run_bind_ok hfound, if_neg (by simp), run_bind_ok hpath]
  simp only [List.reverse_cons, List.getLastD_concat]
  rw [run_bind_ok hfetch, hf.readLeaf, Pinned.lift_ok_bind]
  simp only [hpos]
  rw [Pinned.lift_ok_bind, hins, if_neg hover, hsplit]
  rfl

/-! ## INT trees -/

section Runs
variable {τ : Type} {s s' : PageFile Int τ} {root root' : Nat} {unique : Bool} {key : Int}

/-- The states of a tree reached by insertions and deletions that return. -/
inductive Reached (unique : Bool) : Nat → PageFile Int τ → Prop where
  | create {s s' : PageFile Int τ} {root : Nat} (hrun : create KeyType.int s = .ok root s') :
      Reached unique root s'
  | call {s s' : PageFile Int τ} {root root' : Nat} {out : Option Bool} (call : Call)
      (h : Reached unique root s) (hrun : call.exec unique root s = .ok (out, root') s') :
      Reached unique root' s'

theorem Reached.represents (h : Reached unique root s) : ∃ height L, Represents height root s L := by
  induction h with
  | create hrun => exact ⟨_, [], (represents_create hrun).1⟩
  | call call _ hrun ih =>
    obtain ⟨height, L, hr⟩ := ih
    obtain ⟨-, height', hr', -⟩ := hr.call hrun
    exact ⟨height', _, hr'⟩

/-- The index is unique and has the key. -/
def IsDuplicate (unique : Bool) (root : Nat) (s : PageFile Int τ) (key : Int) : Prop :=
  unique = true ∧ ∃ rids, search KeyType.int root key s = .ok rids s ∧ rids ≠ []

/-- The leaf that the key routes to holds as many entries as it can, all of them of the key. -/
def LeafFullOf (root : Nat) (s : PageFile Int τ) (key : Int) : Prop :=
  ∃ leafId entries nextLeaf, findLeaf KeyType.int root key s = .ok leafId s ∧
    s[leafId]? = some (.leaf entries nextLeaf) ∧ entries.length = maxLeafKeys KeyType.int ∧
      ∀ a ∈ entries, a.1 = key

/-- The insertion fails only for a duplicate and for a leaf full of the key, and then changes
    neither a page nor a pin. A call that raises assigns no root page id. -/
def FailsCleanly (unique : Bool) (root : Nat) (s : PageFile Int τ) (pins : Nat → Nat) (key : Int)
    (rid : RID) : Prop :=
  match Pinned.insert KeyType.int unique root key rid ⟨s, pins⟩ with
  | .ok _ _ => ¬IsDuplicate unique root s key ∧ ¬LeafFullOf root s key
  | .error e st =>
    (((∃ text, e = .duplicateKeyError text) ∧ IsDuplicate unique root s key) ∨
      ((∃ text, e = .valueError text) ∧ ¬IsDuplicate unique root s key ∧ LeafFullOf root s key)) ∧
    st = ⟨s, pins⟩

/-- What `struct.pack` asks of an insertion: the key, the RID and the new page ids fit their
    bytes. -/
def Packs (root : Nat) (s : PageFile Int τ) (key : Int) (rid : RID) : Prop :=
  (-2 ^ 63 ≤ key ∧ key < 2 ^ 63) ∧ ridFits rid ∧
    ∃ path, findLeafPath KeyType.int root key s = .ok path s ∧ NewPagesFit KeyType.int s path

/-- The pins do not tell whether an insertion returns. -/
theorem insert_ok_iff_pinned (pins : Nat → Nat) (key : Int) (rid : RID) :
    (∃ root' st, Pinned.insert KeyType.int unique root key rid ⟨s, pins⟩ = .ok root' st) ↔
      ∃ root' s', BPlusTree.insert KeyType.int unique root key rid s = .ok root' s' := by
  have htracks := Pinned.tracks_insert (τ := τ) KeyType.int unique root key rid
  constructor
  · rintro ⟨root', st, hrun⟩
    cases hins : BPlusTree.insert KeyType.int unique root key rid s with
    | ok root₁ s₁ => exact ⟨root₁, s₁, rfl⟩
    | error e s₁ =>
      obtain ⟨pins', hrun'⟩ := htracks.error hins pins
      cases hrun.symm.trans hrun'
  · rintro ⟨root', s', hins⟩
    exact ⟨root', _, htracks.ok hins pins⟩

/-- A duplicate is refused before anything is pinned. -/
theorem insert_duplicate (hdup : IsDuplicate unique root s key) (pins : Nat → Nat) (rid : RID) :
    ∃ text, Pinned.insert KeyType.int unique root key rid ⟨s, pins⟩ =
      .error (.duplicateKeyError text) ⟨s, pins⟩ := by
  obtain ⟨rfl, rids, hrids, hne⟩ := hdup
  have hfound : Pinned.duplicates KeyType.int true root key ⟨s, pins⟩ = .ok rids ⟨s, pins⟩ :=
    (Pinned.tracks_search KeyType.int root key).ok hrids pins
  unfold Pinned.insert
  rw [run_bind_ok hfound, if_pos hne]
  exact ⟨_, rfl⟩

theorem Reached.duplicates_eq (h : Reached unique root s) (hdup : ¬IsDuplicate unique root s key) :
    duplicates KeyType.int unique root key s = .ok [] s := by
  obtain ⟨height, L, level, ht, -⟩ := h.represents
  have hx : KeyOrder.int.Comparable key := trivial
  cases unique with
  | false => rfl
  | true =>
    refine (ht.search_eq hx).trans ?_
    congr 1
    exact not_not.mp fun hne => hdup ⟨rfl, _, ht.search_eq hx, hne⟩

/-- A leaf full of the key makes the insertion raise with that leaf pinned. -/
theorem Reached.insert_leafFull (h : Reached unique root s) (hdup : ¬IsDuplicate unique root s key)
    (hfull : LeafFullOf root s key) (pins : Nat → Nat) (rid : RID) :
    ∃ leafId, findLeaf KeyType.int root key s = .ok leafId s ∧
      Pinned.insert KeyType.int unique root key rid ⟨s, pins⟩ =
        .error (splitError KeyType.int) ⟨s, Pinned.hold leafId pins⟩ := by
  obtain ⟨leafId, entries, nextLeaf, hleaf, hpage, hlen, hall⟩ := hfull
  have hfound := h.duplicates_eq hdup
  obtain ⟨height, L, level, ht, -⟩ := h.represents
  have hx : KeyOrder.int.Comparable key := trivial
  obtain ⟨path, before, p, after, es, nx, hf⟩ := ht.find hx
  obtain ⟨l₀, m, r, rfl, -, -, hr, -, hpos⟩ := hf.cut ht.inOrder hx
  refine ⟨p, hf.findLeaf, ?_⟩
  rw [hf.findLeaf] at hleaf
  cases hleaf
  rw [hf.page] at hpage
  cases hpage
  have hmax : 4 ≤ maxLeafKeys KeyType.int := le_max_left _ _
  obtain ⟨a, ha⟩ := List.exists_mem_of_length_pos (by omega : 0 < (l₀ ++ m ++ r).length)
  have hk : KeyOrder.int.Stored key := hall a ha ▸ hf.fits.stored a ha
  have hnil : r = [] := List.eq_nil_iff_forall_not_mem.mpr fun b hb =>
    (hr b hb).ne' (hall b (List.mem_append_right _ hb))
  have hend : (l₀ ++ m).length = (l₀ ++ m ++ r).length := by rw [hnil, List.append_nil]
  rw [hend] at hpos
  exact Found.insert_full (k := key) hf hk hlen hall hpos hfound pins

/-- An insertion that is not refused and whose leaf is not full of the key returns exactly when
    what it packs fits. -/
theorem Reached.insert_ok_iff (h : Reached unique root s) (hdup : ¬IsDuplicate unique root s key)
    (hfull : ¬LeafFullOf root s key) (rid : RID) :
    (∃ root' s', BPlusTree.insert KeyType.int unique root key rid s = .ok root' s') ↔
      Packs root s key rid := by
  have hfound := h.duplicates_eq hdup
  obtain ⟨height, L, hr⟩ := h.represents
  have hr' := hr
  obtain ⟨level, ht, -⟩ := hr
  have hx : KeyOrder.int.Comparable key := trivial
  obtain ⟨path, before, p, after, es, nx, hf⟩ := ht.find hx
  obtain ⟨l₀, m, r, rfl, hl₀, hm, hr₀, -, hpos⟩ := hf.cut ht.inOrder hx
  have hl : ∀ a ∈ l₀ ++ m, a.1 ≤ key :=
    List.forall_mem_append.mpr ⟨fun a ha => (hl₀ a ha).le, fun a ha => (hm a ha).le⟩
  have hroom : (l₀ ++ m ++ r).length < maxLeafKeys KeyType.int ∨ ∃ a ∈ l₀ ++ m ++ r, a.1 ≠ key := by
    by_contra hcon
    rw [not_or, not_lt] at hcon
    refine hfull ⟨p, _, nx, hf.findLeaf, hf.page, le_antisymm hf.length_le hcon.1, fun a ha => ?_⟩
    exact not_not.mp fun hne => hcon.2 ⟨a, ha, hne⟩
  constructor
  · rintro ⟨root', s', hrun⟩
    have hk : KeyOrder.int.Stored key := hr'.inRange hrun
    have hrid := (ht.insert_ok_fits hx hrun).2
    exact ⟨hk, hrid, _, hf.run,
      (ht.insert_returns_iff (k := key) hk hrid hf hl hr₀ hpos hfound hroom).mp ⟨root', s', hrun⟩⟩
  · rintro ⟨hk, hrid, path', hpath, hnew⟩
    rw [hf.run] at hpath
    cases hpath
    exact (ht.insert_returns_iff (k := key) hk hrid hf hl hr₀ hpos hfound hroom).mpr hnew

/-- Over a reached tree an insertion fails as it should unless it meets a leaf full of its key, or
    what it is given does not fit its bytes. -/
theorem Reached.failsCleanly_iff (h : Reached unique root s) (pins : Nat → Nat) (key : Int)
    (rid : RID) :
    FailsCleanly unique root s pins key rid ↔
      IsDuplicate unique root s key ∨ (¬LeafFullOf root s key ∧ Packs root s key rid) := by
  by_cases hdup : IsDuplicate unique root s key
  · obtain ⟨text, hrun⟩ := insert_duplicate hdup pins rid
    refine ⟨fun _ => .inl hdup, fun _ => ?_⟩
    rw [FailsCleanly, hrun]
    exact ⟨.inl ⟨⟨text, rfl⟩, hdup⟩, rfl⟩
  rw [or_iff_right hdup]
  by_cases hfull : LeafFullOf root s key
  · obtain ⟨leafId, -, hrun⟩ := h.insert_leafFull hdup hfull pins rid
    refine ⟨fun hclean => ?_, fun hpacks => absurd hfull hpacks.1⟩
    rw [FailsCleanly, hrun] at hclean
    have hpins := congrArg Pinned.pins hclean.2
    exact absurd hpins (Pinned.hold_ne leafId pins)
  · have hclean : FailsCleanly unique root s pins key rid ↔
        ∃ root' st, Pinned.insert KeyType.int unique root key rid ⟨s, pins⟩ = .ok root' st := by
      unfold FailsCleanly
      cases Pinned.insert KeyType.int unique root key rid ⟨s, pins⟩ with
      | ok root' st => simp [hdup, hfull]
      | error e st => simp [hdup, hfull]
    rw [and_iff_right hfull, hclean, insert_ok_iff_pinned, h.insert_ok_iff hdup hfull]

theorem failsCleanly_one : Reached false 0 ([.leaf [(5, ⟨0, 0⟩)] invalidPageId] : PageFile Int Unit) ∧
    FailsCleanly false 0 ([.leaf [(5, ⟨0, 0⟩)] invalidPageId] : PageFile Int Unit) (fun _ => 0) 5 ⟨0, 1⟩ := by
  have h : Reached false 0 ([.leaf [(5, ⟨0, 0⟩)] invalidPageId] : PageFile Int Unit) :=
    .call (.insert 5 ⟨0, 0⟩) (.create (s := []) rfl) rfl
  refine ⟨h, (h.failsCleanly_iff (fun _ => 0) 5 ⟨0, 1⟩).mpr (.inr ⟨?_, by decide, by decide, [0], rfl, ?_⟩)⟩
  · rintro ⟨leafId, entries, nextLeaf, hleaf, hpage, hlen, -⟩
    have hroot : findLeaf KeyType.int 0 5 ([.leaf [(5, ⟨0, 0⟩)] invalidPageId] : PageFile Int Unit) =
        .ok 0 [.leaf [(5, ⟨0, 0⟩)] invalidPageId] := rfl
    rw [hroot] at hleaf
    cases hleaf
    cases hpage
    exact absurd hlen (by decide)
  · exact .inl (by decide)

/-- A leaf of as many entries as it holds, all of one key, is reached by inserting them. -/
theorem reached_replicate {n : Nat} (hn : n ≤ maxLeafKeys KeyType.int) :
    Reached false 0 ([.leaf (List.replicate n (5, ⟨0, 0⟩)) invalidPageId] : PageFile Int Unit) := by
  induction n with
  | zero => exact .create (s := []) rfl
  | succ n ih =>
    have hfits : LeafFits KeyOrder.int (List.replicate n ((5 : Int), (⟨0, 0⟩ : RID)) ++ [(5, ⟨0, 0⟩)])
        invalidPageId := by
      rw [← List.replicate_succ']
      refine ⟨fun a ha => ?_, fun a ha => ?_, by decide⟩
      · rw [(List.mem_replicate.mp ha).2]
        exact (by decide : (-2 ^ 63 : Int) ≤ 5 ∧ (5 : Int) < 2 ^ 63)
      · rw [(List.mem_replicate.mp ha).2]
        decide
    have hpage : ([.leaf (List.replicate n (5, ⟨0, 0⟩)) invalidPageId] : PageFile Int Unit)[0]? =
        some (.leaf (List.replicate n (5, ⟨0, 0⟩)) invalidPageId) := rfl
    have hins := insert_leaf_append hpage hfits (by simpa using hn) fun a ha => by
      rw [(List.mem_replicate.mp ha).2]
    rw [← List.replicate_succ'] at hins
    exact .call (.insert 5 ⟨0, 0⟩) (ih (Nat.le_of_succ_le hn)) (run_bind_ok hins)

/-- One more entry of the key than a leaf holds raises, and the leaf stays pinned. -/
theorem leaves_pinned : ∃ s : PageFile Int Unit, Reached false 0 s ∧
    ¬FailsCleanly false 0 s (fun _ => 0) 5 ⟨0, 0⟩ ∧
    Pinned.insert KeyType.int false 0 5 ⟨0, 0⟩ ⟨s, fun _ => 0⟩ =
      .error (splitError KeyType.int) ⟨s, Function.update (fun _ => 0) 0 1⟩ := by
  obtain ⟨s, hs⟩ : ∃ s : PageFile Int Unit,
      s = [.leaf (List.replicate (maxLeafKeys KeyType.int) (5, ⟨0, 0⟩)) invalidPageId] := ⟨_, rfl⟩
  have h : Reached false 0 s := hs ▸ reached_replicate le_rfl
  have hleaf : findLeaf KeyType.int 0 5 s = .ok 0 s := hs ▸ rfl
  have hpage : s[0]? =
      some (.leaf (List.replicate (maxLeafKeys KeyType.int) (5, ⟨0, 0⟩)) invalidPageId) := hs ▸ rfl
  have hfull : LeafFullOf 0 s 5 :=
    ⟨0, _, invalidPageId, hleaf, hpage, List.length_replicate, fun a ha => by
      rw [(List.mem_replicate.mp ha).2]⟩
  obtain ⟨leafId, hleafId, hrun⟩ := h.insert_leafFull (by simp [IsDuplicate]) hfull (fun _ => 0) ⟨0, 0⟩
  rw [hleaf] at hleafId
  cases hleafId
  refine ⟨s, h, fun hclean => ?_, hrun⟩
  rw [FailsCleanly, hrun] at hclean
  have hpins := congrArg Pinned.pins hclean.2
  exact Pinned.hold_ne 0 _ hpins

end Runs

end BPlusTree
end Minirel
