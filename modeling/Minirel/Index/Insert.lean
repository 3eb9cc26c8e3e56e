-- SUMMARY: Insertion keeps the shape, the order and the chain of leaves of a tree.
import Minirel.Index.Search
import Minirel.Index.Split

/-!
# Insertion
-/

namespace Minirel

namespace BPlusTree

open Row

variable {κ ε τ R : Type} [LinearOrder R] {K : KeyType κ ε} {O : KeyOrder K R}
  {s s' : PageFile ε τ} {height : Nat → Option Nat} {root h p : Nat} {path : List Nat}
  {before after level : List (Item Nat ε)}

/-! ## A new tree -/

theorem create_eq (O : KeyOrder K R) (s : PageFile ε τ) :
    create K s = .ok s.length (s ++ [.leaf [] invalidPageId]) := by
  have hfits : LeafFits O [] invalidPageId := ⟨by simp, by simp, by decide⟩
  have hwrite : writeLeaf K s.length [] invalidPageId (s ++ [Page.zero]) =
      .ok () ((s ++ [Page.zero]).set s.length (.leaf [] invalidPageId)) :=
    writeLeaf_eq hfits (Nat.zero_le _) rfl _
  rw [create, run_bind_ok (newPage_apply s), run_bind_ok hwrite]
  simp

/-- A leaf that is the whole tree. -/
theorem tree_leaf {es : List (ε × RID)} (hpage : s[root]? = some (.leaf es invalidPageId))
    (hfits : LeafFits O es invalidPageId) (hlen : es.length ≤ maxLeafKeys K)
    (hsorted : es.Pairwise fun a b => O.rk a.1 ≤ O.rk b.1) :
    Tree O s (Function.update (fun _ => none) root (some 0)) root [.node root] ∧
      entries s [.node root] = es := by
  have hroot : root < s.length := (List.getElem?_eq_some_iff.mp hpage).1
  refine ⟨⟨fun x j hx => ?_, .root ⟨by simp, by simp, by simpa using hroot⟩, ?_, ?_, ?_⟩, ?_⟩
  · by_cases hxs : x = root
    · exact hxs ▸ hroot
    · simp [Function.update_of_ne hxs] at hx
  · simp only [nodes_node, nodes_nil, List.mem_singleton, forall_eq]
    exact ⟨_, _, hpage, hfits, hlen, fun _ => rfl⟩
  · simpa [InOrder, Sorted, entriesAt_leaf hpage, List.pairwise_map] using hsorted
  · exact ⟨_, rfl, _, _, hpage, rfl⟩
  · simp [entries, entriesAt_leaf hpage]

theorem tree_create (O : KeyOrder K R) (s : PageFile ε τ) :
    Tree O (s ++ [.leaf [] invalidPageId]) (Function.update (fun _ => none) s.length (some 0))
        s.length [.node s.length] ∧
      entries (s ++ [.leaf [] invalidPageId]) [.node s.length] = [] :=
  tree_leaf (by simp) ⟨by simp, by simp, by decide⟩ (Nat.zero_le _) .nil

/-! ## The ancestors of a leaf -/

theorem minInternalKeys_le : minInternalKeys K ≤ (maxInternalKeys K + 1) / 2 ∧
    minInternalKeys K ≤ maxInternalKeys K - (maxInternalKeys K + 1) / 2 := by
  have h4 : 4 ≤ maxInternalKeys K := le_max_left _ _
  simp only [minInternalKeys]
  omega

theorem insertIntoParent_root {q root' : Nat} {k : ε}
    (hlevel : Level s height h [.node root])
    (hscope : ∀ x j, height x = some j → x < s.length)
    (hq : height q = some h) (hne : q ≠ root) (hk : O.Stored k)
    (hrun : insertIntoParent K root [] root (O.val k) q s = .ok root' s') :
    ∃ height', Grows (h < ·) s height s' height' ∧
      Tower O s' height' root' h [.node root, .sep k, .node q] := by
  simp only [insertIntoParent] at hrun
  rw [run_bind_ok (newPage_apply s)] at hrun
  obtain ⟨⟨⟩, s₁, hwrite, hret⟩ := run_bind_eq_ok.mp hrun
  cases hret
  have hst : ∀ x ∈ [(k, q)], O.Stored x.1 := by simpa using hk
  obtain ⟨hfits, hmax, rfl⟩ := writeInternal_eq_ok hst hwrite
  have hset : (s ++ [Page.zero]).set s.length (.internal root [(k, q)]) =
      s ++ [.internal root [(k, q)]] := by
    simp
  rw [hset]
  refine ⟨_, Grows.newPage hscope (Nat.lt_succ_self h), ?_⟩
  have hpage : (s ++ [Page.internal root [(k, q)]])[s.length]? = some (.internal root [(k, q)]) := by
    simp
  have htop : Tower O (s ++ [Page.internal root [(k, q)]])
      (Function.update height s.length (some (h + 1))) s.length (h + 1) [.node s.length] :=
    .root ⟨by simp, by simp, by simp⟩
  have hexp : expand (rowAt (s ++ [Page.internal root [(k, q)]])) [.node s.length] =
      [.node root, .sep k, .node q] := by
    simp only [expand_node, expand_nil, rowAt_internal hpage]
    rfl
  have hrootlt := hlevel.lt_length root (by simp)
  have hqlt := hscope q h hq
  rw [← hexp]
  refine .down htop ?_ ?_
  · intro x hx
    simp only [nodes_node, nodes_nil, List.mem_singleton] at hx
    subst hx
    exact ⟨_, _, hpage, hfits, by simp [minKeysOf], hmax⟩
  · rw [hexp]
    refine ⟨by simpa using hne.symm, ?_, ?_⟩
    · intro x hx
      simp only [nodes_node, nodes_sep, nodes_nil, List.mem_cons, List.not_mem_nil, or_false] at hx
      obtain rfl | rfl := hx
      · rw [Function.update_of_ne hrootlt.ne]
        exact hlevel.height_eq _ (by simp)
      · rw [Function.update_of_ne hqlt.ne, hq]
    · intro x hx
      simp only [nodes_node, nodes_sep, nodes_nil, List.mem_cons, List.not_mem_nil, or_false] at hx
      simp only [List.length_append, List.length_cons, List.length_nil]
      omega

/-- A parent that has room for one more child. -/
theorem insertIntoParent_fits {parent q : Nat} {k : ε} {ls : List (Nat × ε)} {rs : List (ε × Nat)}
    (hup : Focus O s height root (h + 1) path before parent after)
    (hnodes : ∀ x ∈ nodes (before ++ after), IsInternal O s (minInternalKeys K) x)
    (hlevel : Level s height h ((expand (rowAt s) before ++ left ls) ++
      .node p :: .sep k :: .node q :: (right rs ++ expand (rowAt s) after)))
    (hfits : InternalFits O (zipFirst ls p) (zipRest ls p ((k, q) :: rs)))
    (hlo : minKeysOf K root parent ≤ ls.length + rs.length)
    (hhi : ls.length + rs.length + 1 ≤ maxInternalKeys K) :
    Grows (h < ·) s height
      (s.set parent (.internal (zipFirst ls p) (zipRest ls p ((k, q) :: rs)))) height ∧
    Tower O (s.set parent (.internal (zipFirst ls p) (zipRest ls p ((k, q) :: rs)))) height root h
      ((expand (rowAt s) before ++ left ls) ++
        .node p :: .sep k :: .node q :: (right rs ++ expand (rowAt s) after)) := by
  have hlt := hup.toLevel.lt_length parent (by simp)
  refine ⟨.set (hup.toLevel.height_eq parent (by simp)) (Nat.lt_succ_self h) _, ?_⟩
  · have heq := hup.toLevel.expand_set (zipFirst ls p) (zipRest ls p ((k, q) :: rs))
    rw [row_zip] at heq
    simp only [right_cons, List.append_assoc, List.cons_append] at heq
    simp only [List.append_assoc] at hlevel ⊢
    rw [← heq] at hlevel ⊢
    refine (hup.set_page _).tower.down_focus
      (fun x hx => (hnodes x hx).congr (hup.toLevel.getElem?_set hx _)) ?_
      (hlevel.frame (fun _ _ hx => hx) (by simp))
    exact ⟨_, _, List.getElem?_set_self hlt, hfits, by simp; omega, by simp; omega⟩

/-- A new node next to one of a level. -/
theorem Level.insert {q : Nat} {k : ε} (hl : Level s height h (before ++ .node p :: after))
    (hscope : ∀ x j, height x = some j → x < s.length) (hq : height q = some h)
    (hqn : q ∉ nodes (before ++ .node p :: after)) :
    Level s height h (before ++ .node p :: .sep k :: .node q :: after) := by
  have hmem : ∀ x, x ∈ nodes (before ++ .node p :: .sep k :: .node q :: after) ↔
      x = q ∨ x ∈ nodes (before ++ .node p :: after) := by
    intro x
    simp only [nodes_append, nodes_node, nodes_sep, List.mem_append, List.mem_cons]
    tauto
  refine ⟨?_, fun x hx => ?_, fun x hx => ?_⟩
  · have hperm : (nodes (before ++ .node p :: .sep k :: .node q :: after)).Perm
        (q :: nodes (before ++ .node p :: after)) := by
      simp only [nodes_append, nodes_node, nodes_sep]
      have h : ((nodes before ++ [p]) ++ q :: nodes after).Perm _ := List.perm_middle
      simpa using h
    exact hperm.nodup_iff.mpr (List.nodup_cons.mpr ⟨hqn, hl.nodup⟩)
  · obtain rfl | hx := (hmem x).mp hx
    · exact hq
    · exact hl.height_eq x hx
  · obtain rfl | hx := (hmem x).mp hx
    · exact hscope _ _ hq
    · exact hl.lt_length x hx

/-- A call on a parent, by what stands on its page: it writes the parent with one more
    child, or cuts it in two and goes on to the next ancestor. -/
theorem insertIntoParent_cons_eq {parent q : Nat} {k : ε} {ls : List (Nat × ε)}
    {rs : List (ε × Nat)} (hpage : s[parent]? = some (.internal (zipFirst ls p) (zipRest ls p rs)))
    (hst : ∀ x ∈ zipRest ls p rs, O.Stored x.1) (hpls : p ∉ ls.map (·.1)) :
    (ls.length + rs.length + 1 ≤ maxInternalKeys K ∧
      insertIntoParent K root (parent :: path) p (O.val k) q s =
        (do
          writeInternal K parent (zipFirst ls p :: (zipRest ls p ((k, q) :: rs)).map (·.2))
            ((zipRest ls p ((k, q) :: rs)).map fun x => O.val x.1)
          return root : PageM ε τ Nat) s) ∨
    (maxInternalKeys K < ls.length + rs.length + 1 ∧ ∃ r₁ upKey c r₂,
      zipRest ls p ((k, q) :: rs) = r₁ ++ (upKey, c) :: r₂ ∧
      r₁.length = (ls.length + rs.length + 1) / 2 ∧
      insertIntoParent K root (parent :: path) p (O.val k) q s =
        (do
          writeInternal K s.length (c :: r₂.map (·.2)) (r₂.map fun x => O.val x.1)
          writeInternal K parent (zipFirst ls p :: r₁.map (·.2)) (r₁.map fun x => O.val x.1)
          insertIntoParent K root path parent (O.val upKey) s.length : PageM ε τ Nat)
          (s ++ [Page.zero])) := by
  have hidx : pyIndex (ls.map (·.1) ++ p :: rs.map (·.2)) p = .ok ls.length := by
    simpa using pyIndex_eq (rs.map (·.2)) hpls
  have hlen : (zipRest ls p ((k, q) :: rs)).length = ls.length + rs.length + 1 := by
    simp [Nat.add_assoc]
  have hchildren : pyInsert (ls.map (·.1) ++ p :: rs.map (·.2)) (ls.length + 1) q =
      zipFirst ls p :: (zipRest ls p ((k, q) :: rs)).map (·.2) := by
    rw [cons_map_snd_zipRest]
    simpa using pyInsert_append_cons (ls.map (·.1)) (rs.map (·.2)) p q
  have hkeys : pyInsert ((ls.map fun x => O.val x.2) ++ rs.map fun x => O.val x.1) ls.length
      (O.val k) = (zipRest ls p ((k, q) :: rs)).map fun x => O.val x.1 := by
    rw [map_val_zipRest]
    simpa using pyInsert_append (ls.map fun x => O.val x.2) (rs.map fun x => O.val x.1) (O.val k)
  simp only [insertIntoParent]
  rw [run_bind_ok (fetchPage_eq hpage), readInternal_zip hst, run_bind_ok (PageM.lift_ok _ _)]
  simp only [hidx]
  rw [run_bind_ok (PageM.lift_ok _ _)]
  simp only [hchildren, hkeys, List.length_map, hlen]
  by_cases hle : ls.length + rs.length + 1 ≤ maxInternalKeys K
  · exact .inl ⟨hle, by rw [if_pos hle]⟩
  · refine .inr ⟨not_le.mp hle, ?_⟩
    generalize zipRest ls p ((k, q) :: rs) = rest at *
    obtain ⟨r₁, ⟨upKey, c⟩, r₂, rfl, hr₁⟩ :
        ∃ r₁ x r₂, rest = r₁ ++ x :: r₂ ∧ r₁.length = (ls.length + rs.length + 1) / 2 :=
      ⟨rest.take ((ls.length + rs.length + 1) / 2), rest[(ls.length + rs.length + 1) / 2],
        rest.drop ((ls.length + rs.length + 1) / 2 + 1), by simp, by simp; omega⟩
    refine ⟨r₁, upKey, c, r₂, rfl, hr₁, ?_⟩
    have hget := pyGet_append (r₁.map fun x => O.val x.1) (r₂.map fun x => O.val x.1) (O.val upKey)
    have hdrop := drop_append_cons (r₁.map fun x => O.val x.1) (r₂.map fun x => O.val x.1)
      (O.val upKey)
    rw [List.length_map] at hget hdrop
    rw [if_neg hle, List.map_append, List.map_append, List.map_cons, List.map_cons, ← hr₁, hget,
      run_bind_ok (PageM.lift_ok _ _), run_bind_ok (newPage_apply s), hdrop,
      List.drop_succ_cons, List.drop_left' (List.length_map _), List.take_succ_cons,
      List.take_left' (List.length_map _), List.take_left' (List.length_map _)]

/-- What a call on a parent that returns has done: written the parent with one more
    child, or cut it in two and gone on to the next ancestor. -/
theorem insertIntoParent_cons_ok {parent q root' : Nat} {k : ε} {ls : List (Nat × ε)}
    {rs : List (ε × Nat)} (hpage : s[parent]? = some (.internal (zipFirst ls p) (zipRest ls p rs)))
    (hst : ∀ x ∈ zipRest ls p rs, O.Stored x.1) (hk : O.Stored k) (hpls : p ∉ ls.map (·.1))
    (hrun : insertIntoParent K root (parent :: path) p (O.val k) q s = .ok root' s') :
    (InternalFits O (zipFirst ls p) (zipRest ls p ((k, q) :: rs)) ∧
      ls.length + rs.length + 1 ≤ maxInternalKeys K ∧ root' = root ∧
      s' = s.set parent (.internal (zipFirst ls p) (zipRest ls p ((k, q) :: rs)))) ∨
    (maxInternalKeys K < ls.length + rs.length + 1 ∧ ∃ r₁ upKey c r₂,
      zipRest ls p ((k, q) :: rs) = r₁ ++ (upKey, c) :: r₂ ∧
      r₁.length = (ls.length + rs.length + 1) / 2 ∧ O.Stored upKey ∧
      InternalFits O (zipFirst ls p) r₁ ∧ InternalFits O c r₂ ∧
      insertIntoParent K root path parent (O.val upKey) s.length
        ((s ++ [Page.internal c r₂]).set parent (.internal (zipFirst ls p) r₁)) = .ok root' s') := by
  have hst' : ∀ x ∈ zipRest ls p ((k, q) :: rs), O.Stored x.1 := by
    obtain ⟨hls, hrs⟩ := forall_zipRest_fst.mp hst
    exact forall_zipRest_fst.mpr ⟨hls, List.forall_mem_cons.mpr ⟨hk, hrs⟩⟩
  obtain ⟨hle, heq⟩ | ⟨hgt, r₁, upKey, c, r₂, hrest, hr₁, heq⟩ :=
    insertIntoParent_cons_eq (k := k) (q := q) hpage hst hpls
  · rw [heq] at hrun
    obtain ⟨⟨⟩, s₁, hwrite, hret⟩ := run_bind_eq_ok.mp hrun
    cases hret
    obtain ⟨hfits', -, rfl⟩ := writeInternal_eq_ok (O := O) hst' hwrite
    exact .inl ⟨hfits', hle, rfl, rfl⟩
  · rw [heq] at hrun
    rw [hrest, List.forall_mem_append, List.forall_mem_cons] at hst'
    obtain ⟨⟨⟩, s₁, hwrite₁, hrun⟩ := run_bind_eq_ok.mp hrun
    obtain ⟨⟨⟩, s₂, hwrite₂, hrun⟩ := run_bind_eq_ok.mp hrun
    obtain ⟨hfits₂, -, rfl⟩ := writeInternal_eq_ok (O := O) hst'.2.2 hwrite₁
    obtain ⟨hfits₁, -, rfl⟩ := writeInternal_eq_ok (O := O) hst'.1 hwrite₂
    refine .inr ⟨hgt, r₁, upKey, c, r₂, hrest, hr₁, hst'.2.1, hfits₁, hfits₂, ?_⟩
    simpa using hrun

/-- What it does if the ids of the new child and of the others fit. -/
theorem insertIntoParent_cons_of_fits {parent q : Nat} {k : ε} {ls : List (Nat × ε)}
    {rs : List (ε × Nat)} (hpage : s[parent]? = some (.internal (zipFirst ls p) (zipRest ls p rs)))
    (hfits : InternalFits O (zipFirst ls p) (zipRest ls p rs)) (hk : O.Stored k) (hq : childFits q)
    (hpls : p ∉ ls.map (·.1)) (hhi : ls.length + rs.length ≤ maxInternalKeys K) :
    (ls.length + rs.length + 1 ≤ maxInternalKeys K ∧
      insertIntoParent K root (parent :: path) p (O.val k) q s =
        .ok root (s.set parent (.internal (zipFirst ls p) (zipRest ls p ((k, q) :: rs))))) ∨
    (maxInternalKeys K < ls.length + rs.length + 1 ∧ ∃ r₁ upKey c r₂, O.Stored upKey ∧
      insertIntoParent K root (parent :: path) p (O.val k) q s =
        insertIntoParent K root path parent (O.val upKey) s.length
          ((s ++ [Page.internal c r₂]).set parent (.internal (zipFirst ls p) r₁))) := by
  have hfits' := hfits.insert hk hq
  obtain ⟨hle, heq⟩ | ⟨hgt, r₁, upKey, c, r₂, hrest, hr₁, heq⟩ :=
    insertIntoParent_cons_eq (k := k) (q := q) hpage hfits.stored hpls
  · have hlen : (zipRest ls p ((k, q) :: rs)).length ≤ maxInternalKeys K := by
      simp only [length_zipRest, List.length_cons]
      omega
    exact .inl ⟨hle, heq.trans (run_bind_ok (writeInternal_eq hfits' hlen rfl rfl s))⟩
  · have hlens := congrArg List.length hrest
    simp only [length_zipRest, List.length_cons, List.length_append] at hlens
    rw [hrest, internalFits_join] at hfits'
    obtain ⟨hfits₁, hup, hfits₂⟩ := hfits'
    have hwrite₁ : writeInternal K s.length _ _ (s ++ [Page.zero]) = _ :=
      writeInternal_eq hfits₂ (by omega) rfl rfl _
    have hset : (s ++ [Page.zero]).set s.length (.internal c r₂) = s ++ [.internal c r₂] := by simp
    rw [hset] at hwrite₁
    have hwrite₂ : writeInternal K parent _ _ (s ++ [Page.internal c r₂]) = _ :=
      writeInternal_eq hfits₁ (by omega) rfl rfl _
    refine .inr ⟨hgt, r₁, upKey, c, r₂, hup, ?_⟩
    rw [heq, run_bind_ok hwrite₁, run_bind_ok hwrite₂]

/-- A root that was split gets a parent on a new page. -/
theorem insertIntoParent_nil_of_fits {q : Nat} {k : ε} (hk : O.Stored k) (hroot : childFits root)
    (hq : childFits q) :
    insertIntoParent K root [] root (O.val k) q s =
      .ok s.length ((s ++ [Page.zero]).set s.length (.internal root [(k, q)])) := by
  have hfits : InternalFits O root [(k, q)] := ⟨by simpa using hk, hroot, by simpa using hq⟩
  have hmax : [(k, q)].length ≤ maxInternalKeys K := by
    have : 4 ≤ maxInternalKeys K := le_max_left _ _
    simp only [List.length_singleton]
    omega
  have hwrite : writeInternal K s.length [root, q] [O.val k] (s ++ [Page.zero]) = _ :=
    writeInternal_eq hfits hmax rfl rfl _
  simp only [insertIntoParent]
  rw [run_bind_ok (newPage_apply s), run_bind_ok hwrite]
  rfl

/-- `_insert_into_parent` puts the separator and the new node after the node that
    was split, on the level of that node. -/
theorem insertIntoParent_spec {q root' : Nat} {k : ε}
    (hf : Focus O s height root h path before p after)
    (hscope : ∀ x j, height x = some j → x < s.length)
    (hq : height q = some h) (hqn : q ∉ nodes (before ++ .node p :: after)) (hk : O.Stored k)
    (hrun : insertIntoParent K root path p (O.val k) q s = .ok root' s') :
    ∃ height', Grows (h < ·) s height s' height' ∧
      Tower O s' height' root' h (before ++ .node p :: .sep k :: .node q :: after) := by
  induction path generalizing s height h p before after k q root' s' with
  | nil =>
    cases hf with
    | root hlevel => exact insertIntoParent_root hlevel hscope hq (by simpa using hqn) hk hrun
  | cons parent path ih =>
    cases hf with
    | @down _ _ _ _ before after ls rs hup hnodes hpage hfits hlo hhi hlevel =>
    have hlevel' := hlevel.insert (k := k) hscope hq hqn
    obtain ⟨hfits', hmax, rfl, rfl⟩ |
        ⟨hover, r₁, upKey, c, r₂, hrest, hr₁, hup', hfits₁, hfits₂, hrec⟩ :=
      insertIntoParent_cons_ok hpage hfits.stored hk hlevel.notMem_left hrun
    · exact ⟨height, insertIntoParent_fits hup hnodes hlevel' hfits' hlo hmax⟩
    · have hparent := hup.toLevel.height_eq parent (by simp)
      have hlt := hup.toLevel.lt_length parent (by simp)
      have hnew : Grows (h < ·) s height (s ++ [Page.internal c r₂])
          (Function.update height s.length (some (h + 1))) := .newPage hscope (Nat.lt_succ_self h)
      have hg₁ := hnew.trans
        (.set (hnew.height_mono _ _ hparent) (Nat.lt_succ_self h) (.internal (zipFirst ls p) r₁))
        fun _ hj => hj
      have hsame₁ : ∀ x < s.length, x ≠ parent →
          ((s ++ [Page.internal c r₂]).set parent (.internal (zipFirst ls p) r₁))[x]? = s[x]? :=
        fun x hx hne => by
          rw [List.getElem?_set_ne hne.symm, List.getElem?_append_left hx]
      have hf₁ := hup.frame
        (fun x j hj hx => hsame₁ x (hscope x j hx) (by
          rintro rfl
          rw [hparent, Option.some.injEq] at hx
          omega)) hg₁.height_mono hg₁.length_le
      obtain ⟨height', hg', ht'⟩ := ih hf₁ (fun _ _ => hg₁.scope hscope) (by simp)
        (fun hmem => (hup.toLevel.lt_length _ hmem).false) hup' hrec
      have hg := hg₁.trans hg' fun j hj => (Nat.lt_succ_self h).trans hj
      -- pages of the parent's own height are out of reach for the rest of the call
      have hsame' : ∀ x, height x = some (h + 1) ∨ x = s.length → s'[x]? =
          ((s ++ [Page.internal c r₂]).set parent (.internal (zipFirst ls p) r₁))[x]? := by
        intro x hx
        have hx₁ : Function.update height s.length (some (h + 1)) x = some (h + 1) := by
          obtain hx | rfl := hx
          · exact hg₁.height_mono x _ hx
          · simp
        refine hg'.pages x (hg₁.scope hscope hx₁) fun j hj => ?_
        rw [hx₁, Option.some.injEq] at hj
        omega
      have hlens := congrArg List.length hrest
      simp only [length_zipRest, List.length_cons, List.length_append] at hlens
      have hmin := minInternalKeys_le (K := K)
      have heq : left ls ++ .node p :: .sep k :: .node q :: right rs =
          row (zipFirst ls p) (r₁ ++ (upKey, c) :: r₂) := by
        rw [← hrest, row_zip]
        rfl
      have hlevel'' : (expand (rowAt s) before ++ left ls) ++
          .node p :: .sep k :: .node q :: (right rs ++ expand (rowAt s) after) =
          expand (rowAt s) before ++ row (zipFirst ls p) (r₁ ++ (upKey, c) :: r₂) ++
            expand (rowAt s) after := by
        simp [← heq]
      rw [hlevel''] at hlevel' ⊢
      have hleft : s'[parent]? = some (.internal (zipFirst ls p) r₁) := by
        rw [hsame' parent (.inl hparent)]
        exact List.getElem?_set_self (by simp; omega)
      have hright : s'[s.length]? = some (.internal c r₂) := by
        rw [hsame' _ (.inr rfl), List.getElem?_set_ne hlt.ne]
        simp
      have heq₃ : before ++ .node parent :: .sep upKey :: .node s.length :: after =
          before ++ [.node parent, .sep upKey, .node s.length] ++ after := by simp
      rw [heq₃] at ht'
      refine ⟨height', hg, ht'.down_window (fun x hx => ?_) hnodes ?_ ?_
        (hlevel'.frame hg.height_mono hg.length_le)⟩
      · have hx' : x ∈ nodes (before ++ .node parent :: after) := mem_nodes_focus.mpr (.inr hx)
        rw [hsame' x (.inl (hup.toLevel.height_eq x hx')),
          hsame₁ x (hup.toLevel.lt_length x hx') (hup.toLevel.ne_focus hx)]
      · simp only [nodes_node, nodes_sep, nodes_nil, List.forall_mem_cons]
        exact ⟨⟨_, _, hleft, hfits₁, by omega, by omega⟩, ⟨_, _, hright, hfits₂, by omega, by omega⟩,
          by simp⟩
      · simp [rowAt_internal hleft, rowAt_internal hright, ← row_append_sep]

/-! ## Inserting an entry -/

/-- What `insert` does once it has the leaf's entries with the new one among them: write
    them back, or cut them in two and go on to the leaf's ancestors. -/
def insertInLeaf (K : KeyType κ ε) (root : Nat) (path : List Nat) (leafId : Nat)
    (entries : List (κ × RID)) (nextLeaf : Nat) : PageM ε τ Nat := do
  if entries.length ≤ maxLeafKeys K then
    writeLeaf K leafId entries nextLeaf
    return root
  else
    let mid ← PageM.lift (splitPointAvoidingDuplicates K (entries.map (·.1)))
    let newLeafId ← newPage
    writeLeaf K newLeafId (entries.drop mid) nextLeaf
    writeLeaf K leafId (entries.take mid) newLeafId
    let (separator, _) ← PageM.lift (pyGet (entries.drop mid) 0)
    insertIntoParent K root path leafId separator newLeafId

theorem Found.insert_eq {unique : Bool} {x : κ} {rid : RID} {nx : Nat} {l r : List (ε × RID)}
    (hf : Found O s height root level x path before p after (l ++ r) nx)
    (hpos : bisectRight K (((l ++ r).map O.dec).map (·.1)) x = .ok l.length)
    (hdup : duplicates K unique root x s = .ok [] s) :
    insert K unique root x rid s =
      insertInLeaf K root path p (l.map O.dec ++ (x, rid) :: r.map O.dec) nx s := by
  have hins : pyInsert ((l ++ r).map O.dec) l.length (x, rid) =
      l.map O.dec ++ (x, rid) :: r.map O.dec := by
    simpa using pyInsert_append (l.map O.dec) (r.map O.dec) (x, rid)
  unfold BPlusTree.insert insertInLeaf
  rw [run_bind_ok hdup, if_neg (by simp), run_bind_ok hf.run]
  simp only [List.reverse_cons, List.getLastD_concat, List.dropLast_concat, List.reverse_reverse]
  rw [run_bind_ok (fetchPage_eq hf.page), hf.readLeaf, run_bind_ok (PageM.lift_ok _ _)]
  simp only [hpos]
  rw [run_bind_ok (PageM.lift_ok _ _), hins]

/-- An insertion that returns has found no duplicate that the index forbids. -/
theorem Tree.duplicates_of_insert_ok {unique : Bool} {x : κ} {rid : RID} {root' : Nat}
    (ht : Tree O s height root level) (hx : O.Comparable x)
    (hrun : insert K unique root x rid s = .ok root' s') : duplicates K unique root x s = .ok [] s := by
  cases unique with
  | false => rfl
  | true =>
    have hsearch : duplicates K true root x s = _ := ht.search_eq hx
    rw [hsearch]
    unfold BPlusTree.insert at hrun
    rw [run_bind_ok hsearch] at hrun
    split at hrun
    · cases hrun
    · rename_i hempty
      rw [not_not.mp hempty]

theorem insertInLeaf_ok_fits {leafId nx root' : Nat} {entries : List (κ × RID)}
    (h : insertInLeaf K root path leafId entries nx s = .ok root' s') :
    ∀ a ∈ entries, (∃ raw, K.encodeKey a.1 = .ok raw) ∧ ridFits a.2 := by
  unfold insertInLeaf at h
  split at h
  · obtain ⟨⟨⟩, s₁, hwrite, -⟩ := run_bind_eq_ok.mp h
    exact writeLeaf_ok_fits hwrite
  · obtain ⟨mid, s₁, -, h⟩ := run_bind_eq_ok.mp h
    obtain ⟨newLeafId, s₂, -, h⟩ := run_bind_eq_ok.mp h
    obtain ⟨⟨⟩, s₃, hwrite₁, h⟩ := run_bind_eq_ok.mp h
    obtain ⟨⟨⟩, s₄, hwrite₂, -⟩ := run_bind_eq_ok.mp h
    rw [← List.take_append_drop mid entries, List.forall_mem_append]
    exact ⟨writeLeaf_ok_fits hwrite₂, writeLeaf_ok_fits hwrite₁⟩

/-- An insertion that returns was given a key and a RID that fit their bytes. -/
theorem Tree.insert_ok_fits {unique : Bool} {x : κ} {rid : RID} {root' : Nat}
    (ht : Tree O s height root level) (hx : O.Comparable x)
    (hrun : insert K unique root x rid s = .ok root' s') :
    (∃ raw, K.encodeKey x = .ok raw) ∧ ridFits rid := by
  obtain ⟨path, before, p, after, es, nx, hf⟩ := ht.find hx
  obtain ⟨l, m, r, rfl, -, -, -, -, hhi⟩ := hf.cut ht.inOrder hx
  rw [hf.insert_eq hhi (ht.duplicates_of_insert_ok hx hrun)] at hrun
  exact insertInLeaf_ok_fits hrun (x, rid) (by simp)

/-- What an insertion that returns has done to the leaf of the key: written it with
    one more entry, or cut it in two and gone on to its parent. -/
theorem insert_ok {unique : Bool} {k : ε} {rid : RID} {root' nx : Nat} {l r : List (ε × RID)}
    (ht : Tree O s height root level) (hk : O.Stored k)
    (hf : Found O s height root level (O.val k) path before p after (l ++ r) nx)
    (hpos : bisectRight K (((l ++ r).map O.dec).map (·.1)) (O.val k) = .ok l.length)
    (hsorted : (l ++ (k, rid) :: r).Pairwise fun a b => O.rk a.1 ≤ O.rk b.1)
    (hrun : insert K unique root (O.val k) rid s = .ok root' s') :
    (LeafFits O (l ++ (k, rid) :: r) nx ∧ (l ++ (k, rid) :: r).length ≤ maxLeafKeys K ∧
      root' = root ∧ s' = s.set p (.leaf (l ++ (k, rid) :: r) nx)) ∨
    ∃ l' x r', l ++ (k, rid) :: r = l' ++ x :: r' ∧ l' ≠ [] ∧
      (∀ a ∈ l', O.rk a.1 < O.rk x.1) ∧
      (l'.length ≤ maxLeafKeys K ∧ (x :: r').length ≤ maxLeafKeys K) ∧
      LeafFits O l' s.length ∧ LeafFits O (x :: r') nx ∧
      insertIntoParent K root path p (O.val x.1) s.length
        ((s ++ [Page.leaf (x :: r') nx]).set p (.leaf l' s.length)) = .ok root' s' := by
  have hst : ∀ a ∈ l ++ (k, rid) :: r, O.Stored a.1 := by
    intro a ha
    obtain ha | rfl | ha := by simpa [or_assoc] using ha
    · exact hf.fits.stored a (List.mem_append_left _ ha)
    · exact hk
    · exact hf.fits.stored a (List.mem_append_right _ ha)
  have hdup := ht.duplicates_of_insert_ok (O.comparable_val hk) hrun
  have hentries : l.map O.dec ++ (O.val k, rid) :: r.map O.dec = (l ++ (k, rid) :: r).map O.dec := by
    simp [KeyOrder.dec]
  rw [hf.insert_eq hpos hdup, hentries] at hrun
  unfold insertInLeaf at hrun
  rw [List.length_map] at hrun
  split at hrun
  · rename_i hle
    obtain ⟨⟨⟩, s₁, hwrite, hret⟩ := run_bind_eq_ok.mp hrun
    cases hret
    obtain ⟨hfits, -, rfl⟩ := writeLeaf_eq_ok hst hwrite
    exact .inl ⟨hfits, hle, rfl, rfl⟩
  · rename_i hgt
    right
    obtain ⟨i, s₁, hlift, hcut⟩ := run_bind_eq_ok.mp hrun
    obtain ⟨hsplit, hs₁⟩ := PageM.lift_eq_ok.mp hlift
    rw [hs₁] at hcut
    have hmax : 4 ≤ maxLeafKeys K := le_max_left _ _
    obtain ⟨l', x, r', heq, rfl, hne, hlt⟩ := splitPoint_ok hst hsorted (by omega) hsplit
    rw [heq] at hst hcut ⊢
    rw [List.forall_mem_append] at hst
    rw [run_bind_ok (newPage_apply s), List.map_append,
      List.drop_left' (List.length_map _), List.take_left' (List.length_map _)] at hcut
    obtain ⟨⟨⟩, s₂, hwrite₁, hcut⟩ := run_bind_eq_ok.mp hcut
    obtain ⟨⟨⟩, s₃, hwrite₂, hcut⟩ := run_bind_eq_ok.mp hcut
    obtain ⟨hfits₂, hlen₂, rfl⟩ := writeLeaf_eq_ok hst.2 hwrite₁
    obtain ⟨hfits₁, hlen₁, rfl⟩ := writeLeaf_eq_ok hst.1 hwrite₂
    refine ⟨l', x, r', rfl, hne, hlt, ⟨hlen₁, hlen₂⟩, hfits₁, hfits₂, ?_⟩
    have hget : pyGet ((x :: r').map O.dec) 0 = .ok (O.val x.1, x.2) := rfl
    rw [hget, run_bind_ok (PageM.lift_ok _ _)] at hcut
    simpa using hcut

/-- The row around a leaf, with one more entry in it. -/
theorem Found.inOrder_insert {k : ε} {rid : RID} {nx : Nat} {l r : List (ε × RID)}
    (hf : Found O s height root level (O.val k) path before p after (l ++ r) nx)
    (hord : InOrder O (contents s level)) (hl : ∀ a ∈ l, O.rk a.1 ≤ O.rk k)
    (hr : ∀ a ∈ r, O.rk k < O.rk a.1) :
    InOrder O (contents s before ++ (l ++ (k, rid) :: r).map .node ++ contents s after) := by
  rw [hf.contents_eq] at hord
  have hord' : InOrder O ((contents s before ++ l.map .node) ++
      (r.map .node ++ contents s after)) := by
    simpa using hord
  have := Sorted.insert_node (x := (k, rid)) hord'
    (by
      simp only [nodes_append, nodes_map_node, List.forall_mem_append]
      exact ⟨fun a ha => (hf.entries_lt a ha).le, hl⟩)
    (by
      simp only [seps_append, seps_contents, seps_map_node, List.append_nil]
      exact hf.seps_le)
    (by
      simp only [nodes_append, nodes_map_node, List.forall_mem_append]
      exact ⟨fun a ha => (hr a ha).le, fun a ha => (hf.lt_entries a ha).le⟩)
    (by
      simp only [seps_append, seps_contents, seps_map_node, List.nil_append]
      exact hf.lt_seps)
  simpa [InOrder] using this

theorem Found.sorted_insert {k : ε} {nx : Nat} {l r : List (ε × RID)}
    (hf : Found O s height root level (O.val k) path before p after (l ++ r) nx)
    (hord : InOrder O (contents s level)) (hl : ∀ a ∈ l, O.rk a.1 ≤ O.rk k)
    (hr : ∀ a ∈ r, O.rk k < O.rk a.1) (rid : RID) :
    (l ++ (k, rid) :: r).Pairwise fun a b => O.rk a.1 ≤ O.rk b.1 := by
  have hnodes := Sorted.nodes (hf.inOrder_insert hord hl hr : InOrder O (_ ++ (l ++ (k, rid) :: r).map .node ++ _))
  simp only [nodes_append, nodes_map_node] at hnodes
  exact (List.pairwise_append.mp (List.pairwise_append.mp hnodes).1).2.1

/-- What an insertion that returns leaves behind: a tree with these entries. The only
    new leaf is on the first page that was handed out. -/
def Inserted (O : KeyOrder K R) (s : PageFile ε τ) (height : Nat → Option Nat)
    (l : List (ε × RID)) (s' : PageFile ε τ) (root' : Nat) : Prop :=
  ∃ height' level', Grows (fun _ => True) s height s' height' ∧
    (∀ x, height' x = some 0 → height x = some 0 ∨ x = s.length) ∧
    Tree O s' height' root' level' ∧ entries s' level' = l

/-- A leaf cut in two, and the separator inserted above it. -/
theorem Tree.insert_split {l r : List (ε × RID)} {x : ε × RID} {es : List (ε × RID)} {nx root' : Nat}
    (ht : Tree O s height root (before ++ .node p :: after))
    (hf : Focus O s height root 0 path before p after) (hpage : s[p]? = some (.leaf es nx))
    (hne : l ≠ []) (hlt : ∀ a ∈ l, O.rk a.1 < O.rk x.1)
    (hlen : l.length ≤ maxLeafKeys K ∧ (x :: r).length ≤ maxLeafKeys K)
    (hfl : LeafFits O l s.length) (hfr : LeafFits O (x :: r) nx)
    (hord : InOrder O (contents s before ++ (l ++ x :: r).map .node ++ contents s after))
    (hup : insertIntoParent K root path p (O.val x.1) s.length
      ((s ++ [Page.leaf (x :: r) nx]).set p (.leaf l s.length)) = .ok root' s') :
    Inserted O s height (entries s before ++ (l ++ x :: r) ++ entries s after) s' root' := by
  have hplt := hf.toLevel.lt_length p (by simp)
  have hheight := hf.toLevel.height_eq p (by simp)
  have hnew : Grows (fun _ => True) s height (s ++ [Page.leaf (x :: r) nx])
      (Function.update height s.length (some 0)) := .newPage ht.scope trivial
  have hg₁ := hnew.trans (.set (hnew.height_mono _ _ hheight) trivial (.leaf l s.length))
    fun _ hj => hj
  have hsame₁ : ∀ y < s.length, y ≠ p →
      ((s ++ [Page.leaf (x :: r) nx]).set p (.leaf l s.length))[y]? = s[y]? :=
    fun y hy hyp => by
      rw [List.getElem?_set_ne hyp.symm, List.getElem?_append_left hy]
  have hfocus := hf.frame
    (fun y j hj hy => hsame₁ y (ht.scope y j hy) (by
      rintro rfl
      rw [hheight, Option.some.injEq] at hy
      omega)) hg₁.height_mono hg₁.length_le
  obtain ⟨height', hg', htower⟩ := insertIntoParent_spec hfocus (fun _ _ => hg₁.scope ht.scope)
    (by simp) (fun hmem => (hf.toLevel.lt_length _ hmem).false) (hfr.stored x (by simp)) hup
  have hg := hg₁.trans hg' fun _ _ => trivial
  -- the rest of the call works above the leaves
  have hsame' : ∀ y, height y = some 0 ∨ y = s.length → s'[y]? =
      ((s ++ [Page.leaf (x :: r) nx]).set p (.leaf l s.length))[y]? := by
    intro y hy
    have hy₁ : Function.update height s.length (some 0) y = some 0 := by
      obtain hy | rfl := hy
      · exact hg₁.height_mono y _ hy
      · simp
    refine hg'.pages y (hg₁.scope ht.scope hy₁) fun j hj => ?_
    rw [hy₁, Option.some.injEq] at hj
    omega
  have hleft : s'[p]? = some (.leaf l s.length) := by
    rw [hsame' p (.inl hheight)]
    exact List.getElem?_set_self (by simp; omega)
  have hright : s'[s.length]? = some (.leaf (x :: r) nx) := by
    rw [hsame' _ (.inr rfl), List.getElem?_set_ne hplt.ne]
    simp
  have heq : before ++ .node p :: after = before ++ [.node p] ++ after := by simp
  have heq' : before ++ .node p :: .sep x.1 :: .node s.length :: after =
      before ++ [.node p, .sep x.1, .node s.length] ++ after := by simp
  rw [heq] at ht
  rw [heq'] at htower
  obtain ⟨htree, hent⟩ := ht.window hg htower
    (fun y hy => by
      have hy' : y ∈ nodes (before ++ .node p :: after) := mem_nodes_focus.mpr (.inr hy)
      rw [hsame' y (.inl (hf.toLevel.height_eq y hy')),
        hsame₁ y (hf.toLevel.lt_length y hy') (hf.toLevel.ne_focus hy)])
    (by simp)
    (by
      simp only [nodes_node, nodes_sep, nodes_nil, List.forall_mem_cons]
      exact ⟨⟨_, _, hleft, hfl, hlen.1, fun h => absurd h hne⟩,
        ⟨_, _, hright, hfr, hlen.2, by simp⟩, by simp⟩)
    (by
      have hord' : InOrder O ((contents s before ++ l.map .node) ++
          .node x :: (r.map .node ++ contents s after)) := by
        simpa using hord
      have hbelow : ∀ a ∈ nodes (contents s before ++ l.map .node), O.rk a.1 < O.rk x.1 := by
        simp only [nodes_append, nodes_map_node, List.forall_mem_append]
        refine ⟨fun a ha => ?_, hlt⟩
        -- what stands before the leaf is at most its first entry
        obtain ⟨z, hz⟩ := List.exists_mem_of_ne_nil l hne
        have hsorted := Sorted.nodes hord'
        simp only [nodes_append, nodes_map_node] at hsorted
        exact ((List.pairwise_append.mp (List.pairwise_append.mp hsorted).1).2.2 a ha z hz).trans_lt
          (hlt z hz)
      have := Sorted.insert_sep (k := x.1) hord' rfl hbelow
      simpa [InOrder, entriesAt_leaf hleft, entriesAt_leaf hright] using this)
    (by
      rintro a b ⟨rfl, es', nx', hpage', rfl⟩
      rw [hpage] at hpage'
      cases hpage'
      exact ⟨rfl, _, _, hleft, rfl, _, _, hright, rfl⟩)
  refine ⟨height', _, hg, fun y hy => ?_, htree, ?_⟩
  · obtain hy | ⟨-, -, hy⟩ := hg'.height_cases y 0 hy
    · by_cases hys : y = s.length
      · exact .inr hys
      · rw [Function.update_of_ne hys] at hy
        exact .inl hy
    · omega
  · rw [hent]
    simp [entries, entriesAt_leaf hleft, entriesAt_leaf hright]

/-- Insertion into a tree puts the entry behind all entries up to its key. -/
theorem Tree.insert_spec {unique : Bool} {k : ε} {rid : RID} {root' : Nat}
    (ht : Tree O s height root level) (hk : O.Stored k)
    (hrun : insert K unique root (O.val k) rid s = .ok root' s') :
    ∃ l r, entries s level = l ++ r ∧ (∀ a ∈ l, O.rk a.1 ≤ O.rk k) ∧ (∀ a ∈ r, O.rk k < O.rk a.1) ∧
      Inserted O s height (l ++ (k, rid) :: r) s' root' := by
  obtain ⟨path, before, p, after, es, nx, hf⟩ := ht.find (O.comparable_val hk)
  obtain ⟨l₀, m, r, rfl, hl₀, hm, hr, -, hhi⟩ := hf.cut ht.inOrder (O.comparable_val hk)
  have hl : ∀ a ∈ l₀ ++ m, O.rk a.1 ≤ O.rk k := by
    rw [List.forall_mem_append]
    exact ⟨fun a ha => (hl₀ a ha).le, fun a ha => (hm a ha).le⟩
  generalize l₀ ++ m = l at *
  have hord : InOrder O
      (contents s before ++ (l ++ (k, rid) :: r).map .node ++ contents s after) :=
    hf.inOrder_insert ht.inOrder hl hr
  have hsorted := hf.sorted_insert ht.inOrder hl hr rid
  have hentries : entries s level = (entries s before ++ l) ++ (r ++ entries s after) := by
    simp [hf.entries_eq]
  have heq : (entries s before ++ l) ++ (k, rid) :: (r ++ entries s after) =
      entries s before ++ (l ++ (k, rid) :: r) ++ entries s after := by
    simp
  refine ⟨entries s before ++ l, r ++ entries s after, hentries, ?_, ?_, ?_⟩
  · rw [List.forall_mem_append]
    exact ⟨fun a ha => (hf.entries_lt a ha).le, hl⟩
  · rw [List.forall_mem_append]
    exact ⟨hr, hf.lt_entries⟩
  rw [heq]
  have ht' := ht
  rw [hf.level_eq] at ht'
  obtain ⟨hfits, hlen, rfl, rfl⟩ | ⟨l', x, r', hcut, hne, hlt, hlen, hfl, hfr, hup⟩ :=
    insert_ok ht hk hf hhi hsorted hrun
  · exact ⟨height, _, .set (hf.focus.toLevel.height_eq p (by simp)) trivial _, fun x hx => .inl hx,
      ht'.set_leaf hf.focus hf.page hfits hlen (by simp) hord⟩
  · rw [hcut] at hord ⊢
    exact ht'.insert_split hf.focus hf.page hne hlt hlen hfl hfr hord hup

/-- A key that raises in every comparison is refused, unless the tree has nothing to
    compare it with. -/
theorem Tree.insert_raises {x : κ} {e : PyError} {rid : RID} (ht : Tree O s height root level)
    (hlt : ∀ k, O.Stored k → K.lt (O.val k) x = .error e ∧ K.lt x (O.val k) = .error e) :
    (entries s level = [] ∧ s[root]? = some (.leaf [] invalidPageId) ∧
      insert K false root x rid s = insertInLeaf K root [] root [(x, rid)] invalidPageId s) ∨
    (entries s level ≠ [] ∧ insert K false root x rid s = .error e s) := by
  have hleaf : ∀ {es nx}, s[root]? = some (.leaf es nx) →
      insert K false root x rid s = (do
        let leaf ← PageM.lift (readLeaf K (.leaf es nx : Page ε τ))
        let pos ← PageM.lift (bisectRight K (leaf.1.map (·.1)) x)
        insertInLeaf K root [] root (pyInsert leaf.1 pos (x, rid)) leaf.2 : PageM ε τ Nat) s :=
    fun hpage => by
      change (findLeafPath K root x >>= _) s = _
      rw [run_bind_ok (findLeafPath_leaf hpage)]
      exact run_bind_ok (fetchPage_eq hpage)
  obtain ⟨hnil, rfl, hpage⟩ | ⟨hnil, hpath⟩ | ⟨hnil, rfl, es, nx, hpage, hread, -, hright⟩ :=
    ht.incomparable hlt
  · refine .inl ⟨hnil, hpage, ?_⟩
    rw [hleaf hpage]
    rfl
  · refine .inr ⟨hnil, ?_⟩
    change (findLeafPath K root x >>= _) s = _
    exact run_bind_error hpath
  · refine .inr ⟨hnil, ?_⟩
    rw [hleaf hpage, hread, PageM.lift_ok_bind]
    dsimp only
    rw [hright]
    rfl

end BPlusTree
end Minirel
