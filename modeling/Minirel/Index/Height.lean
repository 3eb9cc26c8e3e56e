-- SUMMARY: Trees are balanced, and logarithmic in the number of their entries.
import Minirel.Index.Multimap
import Mathlib.Data.Nat.Log
import Mathlib.Data.Nat.SuccPred

/-!
# Heights

`height` counts the pages from the root to a leaf. All leaves of a tree are equally far from the
root, so this is what every search reads. Internal nodes other than the root have many children,
and a leaf that is not the whole tree is not empty: a tall tree has many entries.
-/

namespace Minirel.BPlusTree

open Row

variable {κ ε τ R : Type} [LinearOrder R] {K : KeyType κ ε} {O : KeyOrder K R} {s : PageFile ε τ}
  {heights : Nat → Option Nat} {root h H : Nat} {level : List (Item Nat ε)}

section
variable (K : KeyType κ ε)

def heightFrom : Nat → Nat → Nat → PageM ε τ Nat
  | 0, _, _ => throw .diverges
  | fuel + 1, pageId, h => do
    let page ← fetchPage pageId
    if isLeaf page then return h
    else
      let (children, _) ← PageM.lift (readInternal K page)
      heightFrom fuel (← PageM.lift (pyGet children 0)) (h + 1)

def height (root : Nat) : PageM ε τ Nat := do
  let s ← get
  heightFrom K (s.length + 1) root 1

end

theorem heightFrom_internal {fuel pageId n child : Nat} {rest : List (ε × Nat)}
    (hpage : s[pageId]? = some (.internal child rest)) (hfits : InternalFits O child rest) :
    heightFrom K (fuel + 1) pageId n s = heightFrom K fuel child (n + 1) s := by
  rw [heightFrom, run_bind_ok (fetchPage_eq hpage)]
  simp only [isLeaf, Bool.false_eq_true, reduceIte]
  rw [readInternal_eq hfits.stored, run_bind_ok (PageM.lift_ok _ _)]
  rfl

/-- The height of a tree of which the root stands `H` levels above the leaves. -/
theorem Tree.height_eq (ht : Tree O s heights root level) (hroot : heights root = some H) :
    height K root s = .ok (H + 1) s := by
  obtain ⟨H', p, after, es, nx, fuel, -, hroot', hpage, hrun⟩ := ht.leftmost_loop
    (fun fuel pageId n => heightFrom K fuel pageId n) Nat.succ
    fun _ _ _ _ _ hpage hfits => heightFrom_internal hpage hfits
  obtain rfl := Option.some.inj (hroot.symm.trans hroot')
  change heightFrom K (s.length + 1) root 1 s = _
  rw [hrun, Nat.succ_iterate, Nat.add_comm 1 H, heightFrom, run_bind_ok (fetchPage_eq hpage)]
  rfl

/-- Every descent reads as many pages. -/
theorem Tree.length_path {x : κ} (ht : Tree O s heights root level) (hroot : heights root = some H)
    (hx : O.Comparable x) : ∃ path, findLeafPath K root x s = .ok path s ∧ path.length = H + 1 := by
  obtain ⟨path, before, p, after, es, nx, hfound⟩ := ht.find hx
  refine ⟨_, hfound.run, ?_⟩
  have hheight := hfound.focus.height_root
  rw [hroot, Nat.zero_add, Option.some.injEq] at hheight
  rw [List.length_reverse, List.length_cons, hheight]

/-! ## Counting -/

theorem le_length_nodes_expand {α β : Type} {f : α → List (Item β ε)} {l : List (Item α ε)} {m : Nat}
    (hf : ∀ a ∈ nodes l, m ≤ (nodes (f a)).length) : (nodes l).length * m ≤ (nodes (expand f l)).length := by
  induction l with
  | nil => simp
  | cons x l ih =>
    cases x with
    | sep k => exact ih hf
    | node a =>
      rw [nodes_node, List.forall_mem_cons] at hf
      rw [nodes_node, expand_node, nodes_append, List.length_append, List.length_cons, Nat.succ_mul,
        Nat.add_comm]
      exact Nat.add_le_add hf.1 (ih hf.2)

theorem length_nodes_expand_le {α β : Type} {f : α → List (Item β ε)} {l : List (Item α ε)} {m : Nat}
    (hf : ∀ a ∈ nodes l, (nodes (f a)).length ≤ m) : (nodes (expand f l)).length ≤ (nodes l).length * m := by
  induction l with
  | nil => simp
  | cons x l ih =>
    cases x with
    | sep k => exact ih hf
    | node a =>
      rw [nodes_node, List.forall_mem_cons] at hf
      rw [nodes_node, expand_node, nodes_append, List.length_append, List.length_cons, Nat.succ_mul,
        Nat.add_comm]
      exact Nat.add_le_add (ih hf.2) hf.1

theorem IsInternal.length_nodes {lo pageId : Nat} (hi : IsInternal O s lo pageId) :
    lo + 1 ≤ (nodes (rowAt s pageId)).length ∧
      (nodes (rowAt s pageId)).length ≤ maxInternalKeys K + 1 := by
  obtain ⟨child, rest, hpage, -, hlo, hhi⟩ := hi
  have hlength : (nodes (rowAt s pageId)).length = rest.length + 1 := by
    rw [rowAt_internal hpage, row, nodes_node, nodes_right, List.length_cons, List.length_map]
  omega

/-- The nodes of a level `d` levels below the root. -/
theorem Tower.length_nodes (ht : Tower O s heights root h level) (hroot : heights root = some H) :
    ∃ d, H = h + d ∧ (nodes level).length ≤ (maxInternalKeys K + 1) ^ d ∧
      (d = 0 ∧ nodes level = [root] ∨ ∃ n, d = n + 1 ∧
        2 * (minInternalKeys K + 1) ^ n ≤ (nodes level).length) := by
  induction ht with
  | @root h hlevel =>
    have hheight := hlevel.height_eq root (by simp)
    rw [hroot, Option.some.injEq] at hheight
    exact ⟨0, hheight, by simp, .inl ⟨rfl, rfl⟩⟩
  | @down h level hup hnodes hlevel ih =>
    obtain ⟨d, rfl, hmax, hmin⟩ := ih
    refine ⟨d + 1, by omega, ?_, .inr ⟨d, rfl, ?_⟩⟩
    · calc _ ≤ (nodes level).length * (maxInternalKeys K + 1) :=
            length_nodes_expand_le fun p hp => (hnodes p hp).length_nodes.2
        _ ≤ _ := Nat.mul_le_mul_right _ hmax
    · obtain ⟨rfl, hlone⟩ | ⟨n, rfl, hmin⟩ := hmin
      · -- the row on the root
        have hle := le_length_nodes_expand (m := 2) fun p hp =>
          (Nat.succ_le_succ (one_le_minKeysOf K root p)).trans (hnodes p hp).length_nodes.1
        rwa [hlone] at hle
      · -- no node of the level is the root
        have hle := le_length_nodes_expand (m := minInternalKeys K + 1) fun p hp => by
          have hne : p ≠ root := by
            rintro rfl
            have hheight := hup.toLevel.height_eq p hp
            rw [hroot, Option.some.injEq] at hheight
            omega
          have hlo := (hnodes p hp).length_nodes.1
          rwa [minKeysOf, if_neg hne] at hlo
        rw [Nat.pow_succ, ← Nat.mul_assoc]
        exact (Nat.mul_le_mul_right _ hmin).trans hle

/-- The entries of a tree whose root stands `H` levels above the leaves. -/
theorem Tree.length_entries (ht : Tree O s heights root level) (hroot : heights root = some H) :
    (entries s level).length ≤ (maxInternalKeys K + 1) ^ H * maxLeafKeys K ∧
      (H ≠ 0 → 2 * (minInternalKeys K + 1) ^ (H - 1) ≤ (entries s level).length) := by
  obtain ⟨d, hd, hmax, hmin⟩ := ht.tower.length_nodes hroot
  obtain rfl : H = d := by omega
  have hentries : ∀ p ∈ nodes level, (nodes ((entriesAt s p).map (Item.node : _ → Item _ ε))).length ≤
      maxLeafKeys K ∧ (level ≠ [.node p] →
        1 ≤ (nodes ((entriesAt s p).map (Item.node : _ → Item _ ε))).length) := by
    intro p hp
    obtain ⟨es, nx, hpage, -, hlen, hempty⟩ := ht.leaf p hp
    rw [entriesAt_leaf hpage, nodes_map_node]
    exact ⟨hlen, fun hne => List.length_pos_iff.mpr fun heq => hne (hempty heq)⟩
  constructor
  · calc _ ≤ (nodes level).length * maxLeafKeys K := length_nodes_expand_le fun p hp => (hentries p hp).1
      _ ≤ _ := Nat.mul_le_mul_right _ hmax
  · intro hne
    obtain ⟨rfl, -⟩ | ⟨n, rfl, hmin⟩ := hmin
    · exact absurd rfl hne
    · have hpos : 0 < (minInternalKeys K + 1) ^ n := Nat.pow_pos (Nat.succ_pos _)
      have hle : (nodes level).length * 1 ≤ (entries s level).length :=
        le_length_nodes_expand fun p hp => (hentries p hp).2 fun heq => by
          rw [heq, nodes_node, nodes_nil, List.length_singleton] at hmin
          omega
      rw [Nat.add_sub_cancel]
      omega

/-! ## Whole runs -/

/-- After any calls a tree is balanced: every descent reads as many pages as `height` counts, and
    that number is logarithmic in the number of pairs. -/
theorem Run.height_log {unique : Bool} {start : PageFile Int τ → Prop}
    {allowed : PageFile Int τ → Nat → Call → Prop} {s : PageFile Int τ} {L : List (Int × RID)}
    (hrun : Run unique start allowed root s L) :
    ∃ n, height KeyType.int root s = .ok n s ∧
      (∀ key, ∃ path, findLeafPath KeyType.int root key s = .ok path s ∧ path.length = n) ∧
      n ≤ Nat.log (minInternalKeys KeyType.int + 1) (L.length / 2) + 2 ∧
      L.length ≤ (maxInternalKeys KeyType.int + 1) ^ (n - 1) * maxLeafKeys KeyType.int := by
  obtain ⟨heights, level, ht, rfl⟩ := hrun.represents
  obtain ⟨H, hroot⟩ := ht.height_root
  obtain ⟨hmax, hmin⟩ := ht.length_entries hroot
  refine ⟨H + 1, ht.height_eq hroot, fun key => ht.length_path hroot trivial, ?_, hmax⟩
  by_cases hH : H = 0
  · omega
  · have hbase : 1 < minInternalKeys KeyType.int + 1 := Nat.succ_lt_succ (Nat.le_max_left _ _)
    have hlog : H - 1 ≤ Nat.log (minInternalKeys KeyType.int + 1) ((entries s level).length / 2) := by
      apply Nat.le_log_of_pow_le hbase
      have := hmin hH
      omega
    omega

theorem Run.height_log_singleton : ∃ n, height KeyType.int 0
      ([.leaf [(5, ⟨0, 0⟩)] invalidPageId] : PageFile Int Unit) =
        .ok n [.leaf [(5, ⟨0, 0⟩)] invalidPageId] ∧ n ≤ 2 := by
  have hrun : Run false NextPageValid TakesValidPage 0
      ([.leaf [(5, ⟨0, 0⟩)] invalidPageId] : PageFile Int Unit) [(5, ⟨0, 0⟩)] :=
    .call (.insert 5 ⟨0, 0⟩) (.create (s := []) (by decide) rfl) (by decide)
      (by decide : NextPageValid _) rfl
  obtain ⟨n, hn, -, hlog, -⟩ := hrun.height_log
  refine ⟨n, hn, hlog.trans ?_⟩
  simp

end Minirel.BPlusTree
