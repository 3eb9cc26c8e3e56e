-- SUMMARY: Repairing internal nodes after a deletion keeps the row of every level below.
import Minirel.Index.Tree

/-!
# Repairing the nodes above a deletion

`_fixup_after_delete` walks up from the leaf. At each node it rewrites two
neighbours under one parent: it moves children over the separator between them,
or merges them and takes the separator and one child out of the parent. Either
way the rows of the two and the separator read the same from left to right, so
the level below does not change. The parent has then lost at most one child and
is the next to be looked at.
-/

namespace Minirel.BPlusTree

open Row

variable {κ ε τ R : Type} [LinearOrder R] {K : KeyType κ ε} {O : KeyOrder K R}
  {s s' : PageFile ε τ} {height : Nat → Option Nat} {root h p : Nat} {path : List Nat}
  {before after level : List (Item Nat ε)}

/-! ## Two neighbours under one parent -/

/-- The parent page of two neighbours `a` and `b` with the separator `k`. -/
def pairPage (ls : List (Nat × ε)) (a : Nat) (k : ε) (b : Nat) (rs : List (ε × Nat)) :
    Page ε τ :=
  .internal (zipFirst ls a) (zipRest ls a ((k, b) :: rs))

/-- The children of that parent. -/
def pairChildren (ls : List (Nat × ε)) (a b : Nat) (rs : List (ε × Nat)) : List Nat :=
  ls.map (·.1) ++ a :: b :: rs.map (·.2)

/-- The keys of that parent. -/
def pairKeys (O : KeyOrder K R) (ls : List (Nat × ε)) (k : ε) (rs : List (ε × Nat)) : List κ :=
  (ls.map fun x => O.val x.2) ++ O.val k :: rs.map fun x => O.val x.1

section Pair
variable {ls : List (Nat × ε)} {a b parent : Nat} {k k' : ε} {rs : List (ε × Nat)}

theorem pairChildren_left : pyGet (pairChildren ls a b rs) ls.length = .ok a := by
  simpa [pairChildren] using pyGet_append (ls.map (·.1)) (b :: rs.map (·.2)) a

theorem pairChildren_right : (pairChildren ls a b rs)[ls.length + 1]? = some b := by
  simp [pairChildren]

theorem pairKeys_get : pyGet (pairKeys O ls k rs) ls.length = .ok (O.val k) := by
  simpa [pairKeys] using
    pyGet_append (ls.map fun x => O.val x.2) (rs.map fun x => O.val x.1) (O.val k)

theorem pairKeys_set : (pairKeys O ls k rs).set ls.length (O.val k') = pairKeys O ls k' rs := by
  simp [pairKeys]

theorem pairKeys_eraseIdx : (pairKeys O ls k rs).eraseIdx ls.length =
    (ls.map fun x => O.val x.2) ++ rs.map fun x => O.val x.1 := by
  simp [pairKeys, List.eraseIdx_append]

theorem pairChildren_eraseIdx : (pairChildren ls a b rs).eraseIdx (ls.length + 1) =
    ls.map (·.1) ++ a :: rs.map (·.2) := by
  simp [pairChildren, List.eraseIdx_append]

/-- Committing a new separator. -/
theorem commitInternal_set {page : Page ε τ} (hpage : s[parent]? = some page)
    (hfits : InternalFits O (zipFirst ls a) (zipRest ls a ((k', b) :: rs)))
    (hlen : ls.length + rs.length + 1 ≤ maxInternalKeys K) :
    commitInternal K parent (pairChildren ls a b rs) ((pairKeys O ls k rs).set ls.length (O.val k'))
      s = .ok () (s.set parent (pairPage ls a k' b rs)) := by
  rw [commitInternal, run_bind_ok (fetchPage_eq hpage), pairKeys_set]
  have hchildren := cons_map_snd_zipRest ls a ((k', b) :: rs)
  have hkeys := map_val_zipRest O ls a ((k', b) :: rs)
  have hwrite := writeInternal_dec hfits parent s
  rw [hchildren, hkeys, if_pos (by simp; omega)] at hwrite
  exact hwrite

/-- Committing the removal of a separator and the child after it. -/
theorem commitInternal_erase {page : Page ε τ} (hpage : s[parent]? = some page)
    (hfits : InternalFits O (zipFirst ls a) (zipRest ls a rs))
    (hlen : ls.length + rs.length ≤ maxInternalKeys K) :
    commitInternal K parent ((pairChildren ls a b rs).eraseIdx (ls.length + 1))
        ((pairKeys O ls k rs).eraseIdx ls.length) s =
      .ok () (s.set parent (.internal (zipFirst ls a) (zipRest ls a rs))) := by
  rw [commitInternal, run_bind_ok (fetchPage_eq hpage), pairKeys_eraseIdx, pairChildren_eraseIdx]
  have hwrite := writeInternal_dec hfits parent s
  rw [cons_map_snd_zipRest, map_val_zipRest, if_pos (by simpa using hlen)] at hwrite
  exact hwrite

end Pair

/-- Two neighbours under one parent. -/
structure Neighbours (O : KeyOrder K R) (s : PageFile ε τ) (parent : Nat) (ls : List (Nat × ε))
    (a : Nat) (k : ε) (b : Nat) (rs : List (ε × Nat)) : Prop where
  page : s[parent]? = some (pairPage ls a k b rs)
  fits : InternalFits O (zipFirst ls a) (zipRest ls a ((k, b) :: rs))
  length_le : ls.length + rs.length + 1 ≤ maxInternalKeys K
  ne : a ≠ b
  ne_left : a ≠ parent
  ne_right : b ≠ parent
  lt_left : a < s.length
  lt_right : b < s.length

/-- What repairing two neighbours does: nothing outside the three pages, and the
    parent has a new window in their place, with no child that was not there. -/
structure Rewritten (O : KeyOrder K R) (s s' : PageFile ε τ) (parent : Nat)
    (ls : List (Nat × ε)) (a b : Nat) (rs : List (ε × Nat)) (win : List (Item Nat ε)) : Prop where
  same : ∀ x, x ≠ parent → x ≠ a → x ≠ b → s'[x]? = s[x]?
  length_eq : s'.length = s.length
  nodes_sublist : (nodes win).Sublist [a, b]
  parent_page : ∃ child rest, s'[parent]? = some (.internal child rest) ∧
    InternalFits O child rest ∧ row child rest = left ls ++ win ++ right rs ∧
    ls.length + rs.length ≤ rest.length ∧ rest.length ≤ maxInternalKeys K

section Rewritten
variable {parent a b : Nat} {ls : List (Nat × ε)} {k k' : ε} {rs : List (ε × Nat)}

theorem Neighbours.parent_lt (hn : Neighbours O s parent ls a k b rs) : parent < s.length :=
  (List.getElem?_eq_some_iff.mp hn.page).1

theorem Neighbours.stored (hn : Neighbours O s parent ls a k b rs) : O.Stored k :=
  ((internalFits_zip.mp hn.fits).2.2 (k, b) (by simp)).1

theorem Neighbours.fits_set (hn : Neighbours O s parent ls a k b rs) (hk' : O.Stored k') :
    InternalFits O (zipFirst ls a) (zipRest ls a ((k', b) :: rs)) := by
  obtain ⟨hls, ha, hrs⟩ := internalFits_zip.mp hn.fits
  rw [List.forall_mem_cons] at hrs
  exact internalFits_zip.mpr ⟨hls, ha, List.forall_mem_cons.mpr ⟨⟨hk', hrs.1.2⟩, hrs.2⟩⟩

theorem Neighbours.fits_erase (hn : Neighbours O s parent ls a k b rs) :
    InternalFits O (zipFirst ls a) (zipRest ls a rs) := by
  obtain ⟨hls, ha, hrs⟩ := internalFits_zip.mp hn.fits
  exact internalFits_zip.mpr ⟨hls, ha, (List.forall_mem_cons.mp hrs).2⟩

/-- Both neighbours rewritten and the separator between them replaced. -/
theorem Neighbours.rewritten_set (hn : Neighbours O s parent ls a k b rs) (hk' : O.Stored k')
    (A B : Page ε τ)
    (hs' : s' = ((s.set b B).set a A).set parent (pairPage ls a k' b rs)) :
    Rewritten O s s' parent ls a b rs [.node a, .sep k', .node b] ∧ s'[a]? = some A ∧
      s'[b]? = some B := by
  subst hs'
  refine ⟨⟨fun x hp ha hb => ?_, by simp, by simp, ?_⟩, ?_, ?_⟩
  · rw [List.getElem?_set_ne hp.symm, List.getElem?_set_ne ha.symm, List.getElem?_set_ne hb.symm]
  · refine ⟨_, _, List.getElem?_set_self (by simpa using hn.parent_lt), hn.fits_set hk', ?_, ?_⟩
    · rw [row_zip]
      simp
    · have := hn.length_le
      simp only [length_zipRest, List.length_cons]
      omega
  · rw [List.getElem?_set_ne hn.ne_left.symm]
    exact List.getElem?_set_self (by simpa using hn.lt_left)
  · rw [List.getElem?_set_ne hn.ne_right.symm, List.getElem?_set_ne hn.ne]
    exact List.getElem?_set_self hn.lt_right

/-- The left neighbour rewritten, the right one and the separator taken out. -/
theorem Neighbours.rewritten_erase (hn : Neighbours O s parent ls a k b rs) (A : Page ε τ)
    (hs' : s' = (s.set a A).set parent (.internal (zipFirst ls a) (zipRest ls a rs))) :
    Rewritten O s s' parent ls a b rs [.node a] ∧ s'[a]? = some A := by
  subst hs'
  refine ⟨⟨fun x hp ha hb => ?_, by simp, by simp, ?_⟩, ?_⟩
  · rw [List.getElem?_set_ne hp.symm, List.getElem?_set_ne ha.symm]
  · refine ⟨_, _, List.getElem?_set_self (by simpa using hn.parent_lt), hn.fits_erase, ?_, ?_⟩
    · rw [row_zip]
      simp
    · have := hn.length_le
      simp only [length_zipRest]
      omega
  · rw [List.getElem?_set_ne hn.ne_left.symm]
    exact List.getElem?_set_self hn.lt_left

end Rewritten

/-! ## A node among its siblings -/

/-- A node with its parent and its siblings. -/
structure Family (O : KeyOrder K R) (s : PageFile ε τ) (parent : Nat) (ls : List (Nat × ε))
    (q : Nat) (rs : List (ε × Nat)) : Prop where
  page : s[parent]? = some (.internal (zipFirst ls q) (zipRest ls q rs))
  fits : InternalFits O (zipFirst ls q) (zipRest ls q rs)
  length_le : ls.length + rs.length ≤ maxInternalKeys K
  nodup : (ls.map (·.1) ++ q :: rs.map (·.2)).Nodup
  not_mem : parent ∉ ls.map (·.1) ++ q :: rs.map (·.2)
  lt_length : ∀ x ∈ ls.map (·.1) ++ q :: rs.map (·.2), x < s.length

section Family
variable {parent q a b : Nat} {ls : List (Nat × ε)} {k : ε} {rs : List (ε × Nat)}

theorem Family.neighbours (hf : Family O s parent ls q ((k, b) :: rs)) :
    Neighbours O s parent ls q k b rs where
  page := hf.page
  fits := hf.fits
  length_le := by simpa [Nat.add_assoc] using hf.length_le
  ne := by
    have := (List.nodup_append.mp hf.nodup).2.1
    simp only [List.map_cons, List.nodup_cons, List.mem_cons, not_or] at this
    exact this.1.1
  ne_left := by
    rintro rfl
    exact hf.not_mem (by simp)
  ne_right := by
    rintro rfl
    exact hf.not_mem (by simp)
  lt_left := hf.lt_length _ (by simp)
  lt_right := hf.lt_length _ (by simp)

/-- The siblings of a node that has a left neighbour, seen from that neighbour. -/
theorem Family.refocus (hf : Family O s parent (ls ++ [(a, k)]) q rs) :
    Family O s parent ls a ((k, q) :: rs) where
  page := by rw [hf.page, (zip_snoc ls a k q rs).1, (zip_snoc ls a k q rs).2]
  fits := by simpa only [(zip_snoc ls a k q rs).1, (zip_snoc ls a k q rs).2] using hf.fits
  length_le := by
    have := hf.length_le
    simp only [List.length_append, List.length_cons, List.length_nil] at this ⊢
    omega
  nodup := by simpa using hf.nodup
  not_mem := by simpa using hf.not_mem
  lt_length := by simpa using hf.lt_length

theorem familyChildren_snoc : (ls ++ [(a, k)]).map (·.1) ++ q :: rs.map (·.2) =
    pairChildren ls a q rs := by
  simp [pairChildren]

theorem familyKeys_snoc (O : KeyOrder K R) :
    ((ls ++ [(a, k)]).map fun x => O.val x.2) ++ (rs.map fun x => O.val x.1) =
      pairKeys O ls k rs := by
  simp [pairKeys]

/-- The parent's row around a node, as the row around it and one neighbour. -/
def IsPair (ls : List (Nat × ε)) (q : Nat) (rs : List (ε × Nat)) (ls₁ : List (Nat × ε)) (a : Nat)
    (k : ε) (b : Nat) (rs₁ : List (ε × Nat)) : Prop :=
  (ls₁ = ls ∧ a = q ∧ rs = (k, b) :: rs₁) ∨ (ls = ls₁ ++ [(a, k)] ∧ b = q ∧ rs₁ = rs)

end Family

/-! ## Internal neighbours -/

/-- Two internal neighbours repaired: whatever is left of them is in order, and the
    row below them reads the same. -/
def Repaired (O : KeyOrder K R) (s s' : PageFile ε τ) (parent : Nat) (ls : List (Nat × ε))
    (a : Nat) (k : ε) (b : Nat) (rs : List (ε × Nat)) : Prop :=
  ∃ win, Rewritten O s s' parent ls a b rs win ∧
    (∀ x ∈ nodes win, IsInternal O s' (minInternalKeys K) x) ∧
    expand (rowAt s') win = expand (rowAt s) [.node a, .sep k, .node b]

section Internal
variable {parent a b ac bc : Nat} {ls : List (Nat × ε)} {k : ε} {rs ar br : List (ε × Nat)}

/-- Both neighbours rewritten so that the row below them reads the same. -/
theorem Neighbours.repaired_set {k' : ε} {ac' bc' : Nat} {ar' br' : List (ε × Nat)}
    (hn : Neighbours O s parent ls a k b rs) (ha : s[a]? = some (.internal ac ar))
    (hb : s[b]? = some (.internal bc br)) (hk' : O.Stored k') (hfa : InternalFits O ac' ar')
    (hfb : InternalFits O bc' br')
    (hla : minInternalKeys K ≤ ar'.length ∧ ar'.length ≤ maxInternalKeys K)
    (hlb : minInternalKeys K ≤ br'.length ∧ br'.length ≤ maxInternalKeys K)
    (hrow : row ac' ar' ++ .sep k' :: row bc' br' = row ac ar ++ .sep k :: row bc br)
    (hs' : s' = ((s.set b (.internal bc' br')).set a (.internal ac' ar')).set parent
      (pairPage ls a k' b rs)) :
    Repaired O s s' parent ls a k b rs := by
  obtain ⟨hw, ha', hb'⟩ := hn.rewritten_set hk' _ _ hs'
  refine ⟨_, hw, ?_, ?_⟩
  · simp only [nodes_node, nodes_sep, nodes_nil, List.forall_mem_cons]
    exact ⟨⟨_, _, ha', hfa, hla⟩, ⟨_, _, hb', hfb, hlb⟩, by simp⟩
  · simpa [rowAt_internal ha', rowAt_internal hb', rowAt_internal ha, rowAt_internal hb] using hrow

theorem rotateRightInternal_spec (hn : Neighbours O s parent ls a k b rs)
    (ha : s[a]? = some (.internal ac ar)) (hfa : InternalFits O ac ar)
    (hlen : ar.length + 1 = minInternalKeys K) (hb : s[b]? = some (.internal bc br))
    (hfb : InternalFits O bc br) (hbr : br.length ≤ maxInternalKeys K)
    (hlend : minInternalKeys K < br.length) :
    ∃ s', rotateRightInternal K parent a (pairChildren ls a b rs) (pairKeys O ls k rs) ls.length
        (ac :: ar.map (·.2)) (ar.map fun x => O.val x.1) s = .ok true s' ∧
      Repaired O s s' parent ls a k b rs := by
  obtain ⟨⟨k', bc'⟩, br, rfl⟩ := List.exists_cons_of_length_pos (l := br) (by omega)
  obtain ⟨hfb₀, hk', hfb'⟩ := (internalFits_join : InternalFits O bc ([] ++ _) ↔ _).mp hfb
  have hfa' : InternalFits O ac (ar ++ [(k, bc)]) :=
    internalFits_join.mpr ⟨hfa, hn.stored, internalFits_nil.mpr hfb.first⟩
  rw [List.length_cons] at hbr hlend
  have hset : ∀ A B : Page ε τ, ((s.set b B).set a A)[parent]? = some (pairPage ls a k b rs) := by
    intro A B
    rw [List.getElem?_set_ne hn.ne_left, List.getElem?_set_ne hn.ne_right, hn.page]
  refine ⟨_, ?_, hn.repaired_set ha hb hk' hfa' hfb' ⟨by simp; omega, by simp; omega⟩
    ⟨by omega, by omega⟩ ?_ rfl⟩
  · rw [rotateRightInternal, pairChildren_right]
    simp only
    rw [run_bind_ok (fetchPage_eq hb), readInternal_eq hfb.stored,
      run_bind_ok (PageM.lift_ok _ _)]
    simp only [List.length_map, List.length_cons, hlend, if_true, pairKeys_get]
    rw [run_bind_ok (PageM.lift_ok _ _)]
    rw [show pyGet (bc :: ((k', bc') :: br).map (·.2)) 0 = .ok bc from rfl,
      run_bind_ok (PageM.lift_ok _ _)]
    rw [show pyGet (((k', bc') :: br).map fun x => O.val x.1) 0 = .ok (O.val k') from rfl,
      run_bind_ok (PageM.lift_ok _ _)]
    have hwb : writeInternal K b ((bc :: ((k', bc') :: br).map (·.2)).drop 1)
        ((((k', bc') :: br).map fun x => O.val x.1).drop 1) s =
          .ok () (s.set b (.internal bc' br)) := writeInternal_eq hfb' (by omega) rfl rfl s
    have ha' : (s.set b (.internal bc' br))[a]? = some (.internal ac ar) := by
      rw [List.getElem?_set_ne hn.ne.symm, ha]
    have hwa : writeInternal K a (ac :: ar.map (·.2) ++ [bc])
        ((ar.map fun x => O.val x.1) ++ [O.val k]) (s.set b (.internal bc' br)) =
          .ok () ((s.set b (.internal bc' br)).set a (.internal ac (ar ++ [(k, bc)]))) :=
      writeInternal_eq hfa' (by simp; omega) (by simp) (by simp) _
    rw [run_bind_ok hwb, run_bind_ok (fetchPage_eq ha'), run_bind_ok hwa,
      run_bind_ok (commitInternal_set (hset _ _) (hn.fits_set hk') hn.length_le)]
    rfl
  · simp [row]

theorem rotateLeftInternal_spec (hn : Neighbours O s parent ls a k b rs)
    (ha : s[a]? = some (.internal ac ar)) (hfa : InternalFits O ac ar)
    (har : ar.length ≤ maxInternalKeys K) (hlend : minInternalKeys K < ar.length)
    (hb : s[b]? = some (.internal bc br)) (hfb : InternalFits O bc br)
    (hlen : br.length + 1 = minInternalKeys K) :
    ∃ s', rotateLeftInternal K parent b (pairChildren ls a b rs) (pairKeys O ls k rs)
        (ls.length + 1) (bc :: br.map (·.2)) (br.map fun x => O.val x.1) s = .ok true s' ∧
      Repaired O s s' parent ls a k b rs := by
  obtain ⟨ar, ⟨k', c⟩, rfl⟩ : ∃ l x, ar = l ++ [x] :=
    ⟨ar.dropLast, ar.getLast (by rintro rfl; simp at hlend), (List.dropLast_append_getLast _).symm⟩
  obtain ⟨hfa', hk', hfc⟩ := internalFits_join.mp hfa
  have hfb' : InternalFits O c ((k, bc) :: br) :=
    (internalFits_join : InternalFits O c ([] ++ _) ↔ _).mpr ⟨hfc, hn.stored, hfb⟩
  rw [List.length_append, List.length_singleton] at har hlend
  have hset : ∀ A B : Page ε τ, ((s.set a A).set b B)[parent]? = some (pairPage ls a k b rs) := by
    intro A B
    rw [List.getElem?_set_ne hn.ne_right, List.getElem?_set_ne hn.ne_left, hn.page]
  refine ⟨((s.set a (.internal ac ar)).set b (.internal c ((k, bc) :: br))).set parent
    (pairPage ls a k' b rs), ?_, hn.repaired_set ha hb hk' hfa' hfb' ⟨by omega, by omega⟩
    ⟨by simp; omega, by simp; omega⟩ ?_ ?_⟩
  · have hmoved : pyGet (ac :: (ar ++ [(k', c)]).map (·.2))
        ((ac :: (ar ++ [(k', c)]).map (·.2)).length - 1) = .ok c := by
      have := pyGet_append (ac :: ar.map (·.2)) [] c
      simpa using this
    have hnewSep : pyGet ((ar ++ [(k', c)]).map fun x => O.val x.1)
        (((ar ++ [(k', c)]).map fun x => O.val x.1).length - 1) = .ok (O.val k') := by
      have := pyGet_append (ar.map fun x => O.val x.1) [] (O.val k')
      simpa using this
    have hwa : writeInternal K a (ac :: (ar ++ [(k', c)]).map (·.2)).dropLast
        ((ar ++ [(k', c)]).map fun x => O.val x.1).dropLast s =
          .ok () (s.set a (.internal ac ar)) :=
      writeInternal_eq hfa' (by omega) (by simp [List.dropLast_cons_of_ne_nil]) (by simp) s
    have hb' : (s.set a (.internal ac ar))[b]? = some (.internal bc br) := by
      rw [List.getElem?_set_ne hn.ne, hb]
    have hwb : writeInternal K b (c :: bc :: br.map (·.2))
        (O.val k :: br.map fun x => O.val x.1) (s.set a (.internal ac ar)) =
          .ok () ((s.set a (.internal ac ar)).set b (.internal c ((k, bc) :: br))) :=
      writeInternal_eq hfb' (by simp; omega) rfl rfl _
    rw [rotateLeftInternal, if_neg (Nat.succ_ne_zero _), Nat.add_sub_cancel, pairChildren_left,
      run_bind_ok (PageM.lift_ok _ _), run_bind_ok (fetchPage_eq ha),
      readInternal_eq hfa.stored, run_bind_ok (PageM.lift_ok _ _)]
    dsimp only
    rw [if_pos (by simpa using hlend), pairKeys_get, run_bind_ok (PageM.lift_ok _ _), hmoved,
      run_bind_ok (PageM.lift_ok _ _), hnewSep, run_bind_ok (PageM.lift_ok _ _),
      run_bind_ok hwa, run_bind_ok (fetchPage_eq hb'), run_bind_ok hwb,
      run_bind_ok (commitInternal_set (hset _ _) (hn.fits_set hk') hn.length_le)]
    rfl
  · simp [row]
  · rw [List.set_comm _ _ hn.ne]

theorem mergeInternals_spec (hn : Neighbours O s parent ls a k b rs)
    (ha : s[a]? = some (.internal ac ar)) (hfa : InternalFits O ac ar)
    (hb : s[b]? = some (.internal bc br)) (hfb : InternalFits O bc br)
    (hmin : minInternalKeys K ≤ ar.length + br.length + 1)
    (hmax : ar.length + br.length + 1 ≤ maxInternalKeys K) :
    ∃ s', mergeInternals K parent a (pairChildren ls a b rs) (pairKeys O ls k rs) ls.length
        (ac :: ar.map (·.2)) (ar.map fun x => O.val x.1) (bc :: br.map (·.2))
        (br.map fun x => O.val x.1) s = .ok () s' ∧
      Repaired O s s' parent ls a k b rs := by
  have hfits : InternalFits O ac (ar ++ (k, bc) :: br) :=
    internalFits_join.mpr ⟨hfa, hn.stored, hfb⟩
  obtain ⟨hw, ha'⟩ := hn.rewritten_erase (.internal ac (ar ++ (k, bc) :: br)) rfl
  refine ⟨_, ?_, _, hw, ?_, ?_⟩
  · have hwa : writeInternal K a (ac :: ar.map (·.2) ++ bc :: br.map (·.2))
        ((ar.map fun x => O.val x.1) ++ [O.val k] ++ br.map fun x => O.val x.1) s =
          .ok () (s.set a (.internal ac (ar ++ (k, bc) :: br))) :=
      writeInternal_eq hfits (by simp; omega) (by simp) (by simp) s
    have hparent : (s.set a (.internal ac (ar ++ (k, bc) :: br)))[parent]? =
        some (pairPage ls a k b rs) := by
      rw [List.getElem?_set_ne hn.ne_left, hn.page]
    rw [mergeInternals, pairKeys_get, run_bind_ok (PageM.lift_ok _ _),
      run_bind_ok (fetchPage_eq ha), run_bind_ok hwa,
      commitInternal_erase hparent hn.fits_erase (by have := hn.length_le; omega)]
  · simp only [nodes_node, nodes_nil, List.mem_singleton, forall_eq]
    exact ⟨_, _, ha', hfits, by simp; omega, by simp; omega⟩
  · simp [rowAt_internal ha', rowAt_internal ha, rowAt_internal hb, ← row_append_sep]

theorem minInternalKeys_two : 2 * minInternalKeys K ≤ maxInternalKeys K := by
  have h4 : 4 ≤ maxInternalKeys K := le_max_left _ _
  simp only [minInternalKeys]
  omega

/-- The rotation from the right is refused when there is no right sibling or it
    has no child to spare. -/
theorem rotateRightInternal_refused {q : Nat} {children : List Nat} {keys : List κ}
    (hf : Family O s parent ls q rs)
    (hsib : ∀ x ∈ rs.map (·.2), IsInternal O s (minInternalKeys K) x)
    (hno : ∀ k b rs', rs = (k, b) :: rs' → ∀ bc br, s[b]? = some (.internal bc br) →
      br.length ≤ minInternalKeys K) :
    rotateRightInternal K parent q (ls.map (·.1) ++ q :: rs.map (·.2))
        ((ls.map fun x => O.val x.2) ++ rs.map fun x => O.val x.1) ls.length children keys s =
      .ok false s := by
  cases rs with
  | nil => simp [rotateRightInternal]
  | cons x rs =>
    obtain ⟨k, b⟩ := x
    obtain ⟨bc, br, hb, hfb, -⟩ := hsib b (by simp)
    have hright : (ls.map (·.1) ++ q :: ((k, b) :: rs).map (·.2))[ls.length + 1]? = some b :=
      pairChildren_right
    rw [rotateRightInternal, hright]
    dsimp only
    rw [run_bind_ok (fetchPage_eq hb), readInternal_eq hfb.stored,
      run_bind_ok (PageM.lift_ok _ _)]
    dsimp only
    rw [if_neg (by simpa using hno k b rs rfl bc br hb)]
    rfl

theorem rotateLeftInternal_refused {q : Nat} {children : List Nat} {keys : List κ}
    (hf : Family O s parent ls q rs)
    (hsib : ∀ x ∈ ls.map (·.1), IsInternal O s (minInternalKeys K) x)
    (hno : ∀ ls' a k, ls = ls' ++ [(a, k)] → ∀ ac ar, s[a]? = some (.internal ac ar) →
      ar.length ≤ minInternalKeys K) :
    rotateLeftInternal K parent q (ls.map (·.1) ++ q :: rs.map (·.2))
        ((ls.map fun x => O.val x.2) ++ rs.map fun x => O.val x.1) ls.length children keys s =
      .ok false s := by
  induction ls using List.reverseRecOn with
  | nil => simp [rotateLeftInternal]
  | append_singleton ls x _ =>
    obtain ⟨a, k⟩ := x
    obtain ⟨ac, ar, ha, hfa, -⟩ := hsib a (by simp)
    rw [familyChildren_snoc, familyKeys_snoc, List.length_append, List.length_singleton,
      rotateLeftInternal, if_neg (Nat.succ_ne_zero _), Nat.add_sub_cancel, pairChildren_left,
      run_bind_ok (PageM.lift_ok _ _), run_bind_ok (fetchPage_eq ha),
      readInternal_eq hfa.stored, run_bind_ok (PageM.lift_ok _ _)]
    dsimp only
    rw [if_neg (by simpa using hno ls a k rfl ac ar ha)]
    rfl

/-- `_fixup_internal` repairs a node that is one key short with one of its
    neighbours. -/
theorem fixupInternal_spec {q c : Nat} {r : List (ε × Nat)} (hf : Family O s parent ls q rs)
    (hq : s[q]? = some (.internal c r)) (hfq : InternalFits O c r)
    (hlen : r.length + 1 = minInternalKeys K)
    (hsib : ∀ x ∈ ls.map (·.1) ++ rs.map (·.2), IsInternal O s (minInternalKeys K) x)
    (hone : ls ≠ [] ∨ rs ≠ []) :
    ∃ s' ls₁ a k b rs₁, fixupInternal K parent (ls.map (·.1) ++ q :: rs.map (·.2))
        ((ls.map fun x => O.val x.2) ++ rs.map fun x => O.val x.1) ls.length s = .ok () s' ∧
      IsPair ls q rs ls₁ a k b rs₁ ∧ Repaired O s s' parent ls₁ a k b rs₁ := by
  have hget : pyGet (ls.map (·.1) ++ q :: rs.map (·.2)) ls.length = .ok q := by
    simpa using pyGet_append (ls.map (·.1)) (rs.map (·.2)) q
  have htwo := minInternalKeys_two (K := K)
  rw [List.forall_mem_append] at hsib
  rw [fixupInternal, hget, run_bind_ok (PageM.lift_ok _ _), run_bind_ok (fetchPage_eq hq),
    readInternal_eq hfq.stored, run_bind_ok (PageM.lift_ok _ _)]
  dsimp only
  by_cases hR : ∃ k b rs', rs = (k, b) :: rs' ∧ ∃ bc br, s[b]? = some (.internal bc br) ∧
      minInternalKeys K < br.length
  · obtain ⟨k, b, rs, rfl, bc, br, hb, hlend⟩ := hR
    obtain ⟨bc', br', hb', hfb, -, hbr⟩ := hsib.2 b (by simp)
    obtain ⟨rfl, rfl⟩ : bc = bc' ∧ br = br' := by simpa [hb] using hb'
    obtain ⟨s', hrun, hrep⟩ := rotateRightInternal_spec hf.neighbours hq hfq hlen hb hfb hbr hlend
    refine ⟨s', ls, q, k, b, rs, ?_, .inl ⟨rfl, rfl, rfl⟩, hrep⟩
    exact run_bind_ok hrun
  push Not at hR
  rw [run_bind_ok (rotateRightInternal_refused hf hsib.2 fun k b rs' h bc br hb =>
    hR k b rs' h bc br hb)]
  simp only [Bool.false_eq_true, reduceIte]
  by_cases hL : ∃ ls' a k, ls = ls' ++ [(a, k)] ∧ ∃ ac ar, s[a]? = some (.internal ac ar) ∧
      minInternalKeys K < ar.length
  · obtain ⟨ls, a, k, rfl, ac, ar, ha, hlend⟩ := hL
    obtain ⟨ac', ar', ha', hfa, -, har⟩ := hsib.1 a (by simp)
    obtain ⟨rfl, rfl⟩ : ac = ac' ∧ ar = ar' := by simpa [ha] using ha'
    obtain ⟨s', hrun, hrep⟩ :=
      rotateLeftInternal_spec hf.refocus.neighbours ha hfa har hlend hq hfq hlen
    refine ⟨s', ls, a, k, q, rs, ?_, .inr ⟨rfl, rfl, rfl⟩, hrep⟩
    rw [familyChildren_snoc, familyKeys_snoc, List.length_append, List.length_singleton]
    exact run_bind_ok hrun
  push Not at hL
  rw [run_bind_ok (rotateLeftInternal_refused hf hsib.1 fun ls' a k h ac ar ha =>
    hL ls' a k h ac ar ha)]
  simp only [Bool.false_eq_true, reduceIte]
  -- no neighbour has a child to spare, so two nodes fit on one page
  cases rs with
  | cons x rs =>
    obtain ⟨k, b⟩ := x
    obtain ⟨bc, br, hb, hfb, hlo, hhi⟩ := hsib.2 b (by simp)
    have hsmall := hR k b rs rfl bc br hb
    obtain ⟨s', hrun, hrep⟩ := mergeInternals_spec hf.neighbours hq hfq hb hfb (by omega) (by omega)
    refine ⟨s', ls, q, k, b, rs, ?_, .inl ⟨rfl, rfl, rfl⟩, hrep⟩
    have hright : (ls.map (·.1) ++ q :: ((k, b) :: rs).map (·.2))[ls.length + 1]? = some b :=
      pairChildren_right
    rw [hright]
    dsimp only
    rw [run_bind_ok (fetchPage_eq hb), readInternal_eq hfb.stored,
      run_bind_ok (PageM.lift_ok _ _)]
    exact hrun
  | nil =>
    obtain ⟨ls, ⟨a, k⟩, rfl⟩ : ∃ l x, ls = l ++ [x] :=
      ⟨ls.dropLast, ls.getLast (by simpa using hone), (List.dropLast_append_getLast _).symm⟩
    obtain ⟨ac, ar, ha, hfa, hlo, hhi⟩ := hsib.1 a (by simp)
    have hsmall := hL ls a k rfl ac ar ha
    obtain ⟨s', hrun, hrep⟩ :=
      mergeInternals_spec hf.refocus.neighbours ha hfa hq hfq (by omega) (by omega)
    refine ⟨s', ls, a, k, q, [], ?_, .inr ⟨rfl, rfl, rfl⟩, hrep⟩
    have hnone : (pairChildren ls a q ([] : List (ε × Nat)))[ls.length + 1 + 1]? = none := by
      simp [pairChildren]
    rw [familyChildren_snoc, familyKeys_snoc, List.length_append, List.length_singleton, hnone]
    dsimp only
    rw [if_neg (Nat.succ_ne_zero _), Nat.add_sub_cancel, pairChildren_left,
      run_bind_ok (PageM.lift_ok _ _), run_bind_ok (fetchPage_eq ha),
      readInternal_eq hfa.stored, run_bind_ok (PageM.lift_ok _ _)]
    exact hrun

end Internal

/-! ## Walking up -/

/-- A node at height `h + 1` that may be one key short, in a tree that is otherwise
    in order from there on up. -/
structure Loose (O : KeyOrder K R) (s : PageFile ε τ) (height : Nat → Option Nat) (root h : Nat)
    (path : List Nat) (before : List (Item Nat ε)) (q : Nat) (after : List (Item Nat ε)) :
    Prop where
  focus : Focus O s height root (h + 1) path before q after
  siblings : ∀ x ∈ nodes (before ++ after), IsInternal O s (minInternalKeys K) x
  node : IsInternal O s (minKeysOf K root q - 1) q
  level : Level s height h (expand (rowAt s) (before ++ .node q :: after))

section Loose
variable {q parent a b : Nat} {k : ε} {ls ls₁ : List (Nat × ε)} {rs rs₁ : List (ε × Nat)}
  {win : List (Item Nat ε)}

theorem IsPair.row_eq (hp : IsPair ls q rs ls₁ a k b rs₁) :
    left ls ++ .node q :: right rs = left ls₁ ++ .node a :: .sep k :: .node b :: right rs₁ := by
  obtain ⟨rfl, rfl, rfl⟩ | ⟨rfl, rfl, rfl⟩ := hp
  · rfl
  · simp

theorem IsPair.eq_or (hp : IsPair ls q rs ls₁ a k b rs₁) : q = a ∨ q = b := by
  obtain ⟨-, rfl, -⟩ | ⟨-, rfl, -⟩ := hp
  · exact .inl rfl
  · exact .inr rfl

theorem IsPair.length_eq (hp : IsPair ls q rs ls₁ a k b rs₁) :
    ls₁.length + rs₁.length + 1 = ls.length + rs.length := by
  obtain ⟨rfl, rfl, rfl⟩ | ⟨rfl, rfl, rfl⟩ := hp
  · simp only [List.length_cons]
    omega
  · simp only [List.length_append, List.length_cons, List.length_nil]
    omega

/-- The other nodes of a level are neither of two neighbours. -/
theorem Level.ne_pair (hl : Level s height h (before ++ .node a :: .sep k :: .node b :: after))
    {x : Nat} (hx : x ∈ nodes (before ++ after)) : x ≠ a ∧ x ≠ b := by
  have hb : Level s height h ((before ++ [.node a, .sep k]) ++ .node b :: after) := by
    simpa using hl
  rw [nodes_append, List.mem_append] at hx
  refine ⟨hl.ne_focus ?_, hb.ne_focus ?_⟩
  · simp only [nodes_append, nodes_sep, nodes_node, List.mem_append, List.mem_cons]
    tauto
  · simp only [nodes_append, nodes_sep, nodes_node, nodes_nil, List.mem_append, List.mem_cons]
    tauto

/-- After two neighbours are repaired, their parent is the next to be looked at. -/
theorem Rewritten.loose (hw : Rewritten O s s' parent ls₁ a b rs₁ win)
    (hup : Focus O s height root (h + 1) path before parent after)
    (hnodes : ∀ x ∈ nodes (before ++ after), IsInternal O s (minInternalKeys K) x)
    (hlo : minKeysOf K root parent ≤ ls₁.length + rs₁.length + 1)
    (hlevel : Level s height h (expand (rowAt s) before ++
      (left ls₁ ++ .node a :: .sep k :: .node b :: right rs₁) ++ expand (rowAt s) after)) :
    Loose O s' height root h path before parent after ∧
      expand (rowAt s') (before ++ .node parent :: after) =
        expand (rowAt s) before ++ (left ls₁ ++ win ++ right rs₁) ++ expand (rowAt s) after := by
  obtain ⟨child, rest, hpage, hfits, hrow, hmin, hmax⟩ := hw.parent_page
  have ha : height a = some h := hlevel.height_eq a (by simp)
  have hb : height b = some h := hlevel.height_eq b (by simp)
  have hsame : ∀ x j, h < j → height x = some j → x ≠ parent → s'[x]? = s[x]? := by
    intro x j hj hx hne
    refine hw.same x hne ?_ ?_
    · rintro rfl
      rw [ha, Option.some.injEq] at hx
      omega
    · rintro rfl
      rw [hb, Option.some.injEq] at hx
      omega
  have hsib : ∀ x ∈ nodes (before ++ after), s'[x]? = s[x]? := fun x hx =>
    hsame x (h + 1) (Nat.lt_succ_self h)
      (hup.toLevel.height_eq x (mem_nodes_focus.mpr (.inr hx))) (hup.toLevel.ne_focus hx)
  have hbefore : expand (rowAt s') before = expand (rowAt s) before :=
    expand_congr fun x hx => rowAt_congr (hsib x (by simp [hx]))
  have hafter : expand (rowAt s') after = expand (rowAt s) after :=
    expand_congr fun x hx => rowAt_congr (hsib x (by simp [hx]))
  have heq : expand (rowAt s') (before ++ .node parent :: after) =
      expand (rowAt s) before ++ (left ls₁ ++ win ++ right rs₁) ++ expand (rowAt s) after := by
    rw [expand_append, expand_node, rowAt_internal hpage, hrow, hbefore, hafter]
    simp
  refine ⟨⟨?_, fun x hx => (hnodes x hx).congr (hsib x hx),
    ⟨child, rest, hpage, hfits, by omega, hmax⟩, ?_⟩, heq⟩
  · refine hup.frame (fun x j hj hx => hsame x j (by omega) hx ?_) (fun _ _ hx => hx)
      hw.length_eq.ge
    rintro rfl
    rw [hup.toLevel.height_eq x (by simp), Option.some.injEq] at hx
    omega
  · rw [heq]
    have hsub : (nodes (expand (rowAt s) before ++ (left ls₁ ++ win ++ right rs₁) ++
        expand (rowAt s) after)).Sublist (nodes (expand (rowAt s) before ++
          (left ls₁ ++ .node a :: .sep k :: .node b :: right rs₁) ++ expand (rowAt s) after)) := by
      simp only [nodes_append, nodes_node, nodes_sep, List.append_assoc]
      refine List.Sublist.append_left (List.Sublist.append_left ?_ _) _
      have := List.Sublist.append_right hw.nodes_sublist
        (nodes (right rs₁) ++ nodes (expand (rowAt s) after))
      simpa using this
    exact ⟨hlevel.nodup.sublist hsub, fun x hx => hlevel.height_eq x (hsub.subset hx),
      fun x hx => hw.length_eq ▸ hlevel.lt_length x (hsub.subset hx)⟩

/-- Repairing two neighbours leaves the pages below them alone. -/
theorem Rewritten.grows {P : Nat → Prop} {i j : Nat} (hw : Rewritten O s s' parent ls a b rs win)
    (hparent : height parent = some i) (ha : height a = some j) (hb : height b = some j)
    (hi : P i) (hj : P j) : Grows P s height s' height where
  height_mono _ _ hx := hx
  height_cases _ _ hx := .inl hx
  height_fresh x hx hx' := by
    rw [hw.length_eq] at hx'
    omega
  length_le := hw.length_eq.ge
  pages x _ hP := by
    refine hw.same x ?_ ?_ ?_ <;> rintro rfl
    · exact hP i hparent hi
    · exact hP j ha hj
    · exact hP j hb hj

/-- The level of two repaired neighbours, with the level below it. -/
theorem Tower.down_repaired {root' : Nat} {s₁ : PageFile ε τ} {A B : List (Item Nat ε)}
    (hw : Rewritten O s s₁ parent ls a b rs win)
    (hwin : ∀ x ∈ nodes win, IsInternal O s₁ (minInternalKeys K) x)
    (hexp : expand (rowAt s₁) win = expand (rowAt s) [.node a, .sep k, .node b])
    (hold : Level s height (h + 1) (A ++ .node a :: .sep k :: .node b :: B))
    (hparent : height parent = some (h + 2))
    (hrest : ∀ x ∈ nodes (A ++ B), IsInternal O s (minInternalKeys K) x)
    (hg : Grows (h + 1 < ·) s₁ height s' height)
    (hscope : ∀ x j, height x = some j → x < s.length)
    (htower : Tower O s' height root' (h + 1) (A ++ win ++ B))
    (hlevel : Level s height h (expand (rowAt s) (A ++ .node a :: .sep k :: .node b :: B))) :
    Tower O s' height root' h (expand (rowAt s) (A ++ .node a :: .sep k :: .node b :: B)) := by
  have hs' : ∀ x, height x = some (h + 1) → s'[x]? = s₁[x]? := fun x hx =>
    hg.pages x (hw.length_eq ▸ hscope x _ hx) fun j hj hlt => by
      rw [hx, Option.some.injEq] at hj
      omega
  have hwinh : ∀ x ∈ nodes win, s'[x]? = s₁[x]? := by
    intro x hx
    refine hs' x (hold.height_eq x ?_)
    have := hw.nodes_sublist.subset hx
    simp only [List.mem_cons, List.not_mem_nil, or_false] at this
    simp only [nodes_append, nodes_node, nodes_sep, List.mem_append, List.mem_cons]
    tauto
  have heq : expand (rowAt s) (A ++ .node a :: .sep k :: .node b :: B) =
      expand (rowAt s) A ++ expand (rowAt s) [.node a, .sep k, .node b] ++
        expand (rowAt s) B := by
    simp
  rw [heq] at hlevel ⊢
  refine htower.down_window (fun x hx => ?_) hrest (fun x hx => (hwin x hx).congr (hwinh x hx)) ?_
    (hlevel.frame (fun _ _ hx => hx) (hw.length_eq ▸ hg.length_le))
  · have hx' : height x = some (h + 1) := by
      refine hold.height_eq x ?_
      simp only [nodes_append, nodes_node, nodes_sep, List.mem_append, List.mem_cons] at hx ⊢
      tauto
    obtain ⟨hxa, hxb⟩ := hold.ne_pair hx
    rw [hs' x hx']
    refine hw.same x ?_ hxa hxb
    rintro rfl
    rw [hparent, Option.some.injEq] at hx'
    omega
  · rw [expand_congr fun x hx => rowAt_congr (hwinh x hx), hexp]

/-- The siblings of a node in focus. -/
theorem Family.of_focus
    (hup : Focus O s height root (h + 1) path before parent after)
    (hpage : s[parent]? = some (.internal (zipFirst ls q) (zipRest ls q rs)))
    (hfits : InternalFits O (zipFirst ls q) (zipRest ls q rs))
    (hhi : ls.length + rs.length ≤ maxInternalKeys K)
    (hlevel : Level s height h ((expand (rowAt s) before ++ left ls) ++
      .node q :: (right rs ++ expand (rowAt s) after))) :
    Family O s parent ls q rs := by
  have hsub : (ls.map (·.1) ++ q :: rs.map (·.2)).Sublist (nodes
      ((expand (rowAt s) before ++ left ls) ++ .node q :: (right rs ++ expand (rowAt s) after))) := by
    simp only [nodes_append, nodes_node, nodes_left, nodes_right, List.append_assoc]
    refine (List.Sublist.append_left ?_ _).trans (List.sublist_append_right _ _)
    exact (List.sublist_append_left _ _).cons_cons q
  refine ⟨hpage, hfits, hhi, hlevel.nodup.sublist hsub, fun hmem => ?_,
    fun x hx => hlevel.lt_length x (hsub.subset hx)⟩
  have := hlevel.height_eq parent (hsub.subset hmem)
  rw [hup.toLevel.height_eq parent (by simp), Option.some.injEq] at this
  omega

theorem Family.pyIndex (hf : Family O s parent ls q rs) :
    pyIndex (ls.map (·.1) ++ q :: rs.map (·.2)) q = .ok ls.length := by
  have hq : q ∉ ls.map (·.1) := fun hmem =>
    (List.nodup_append.mp hf.nodup).2.2 q hmem q (by simp) rfl
  simpa using pyIndex_eq (rs.map (·.2)) hq

/-- The walk ends at once at the root. -/
theorem Loose.root_spec (hl : Loose O s height root h [] [] root []) :
    ∃ root', fixupAfterDelete K root [root] s = .ok root' s ∧
      Tower O s height root' h (expand (rowAt s) [.node root]) := by
  obtain ⟨child, rest, hpage, hfits, -, hhi⟩ := hl.node
  have hrun : fixupAfterDelete K root [root] s =
      .ok (if rest.length = 0 then child else root) s := by
    simp only [fixupAfterDelete, maybeShrinkRoot]
    rw [run_bind_ok (fetchPage_eq hpage)]
    dsimp only
    rw [readInternal_eq hfits.stored, run_bind_ok (PageM.lift_ok _ _), List.length_map]
    split <;> rfl
  refine ⟨_, hrun, ?_⟩
  split
  · rename_i hzero
    rw [List.length_eq_zero_iff] at hzero
    subst hzero
    have heq : expand (rowAt s) [.node root] = [.node child] := by
      simp [rowAt_internal hpage, row]
    have hlevel := hl.level
    rw [List.nil_append, heq] at hlevel
    rw [heq]
    exact .root hlevel
  · rename_i hpos
    refine Tower.down_focus (hl.focus.tower : Tower O s height root (h + 1) ([] ++ _)) hl.siblings
      ⟨child, rest, hpage, hfits, ?_, hhi⟩ hl.level
    simp only [minKeysOf, if_true]
    omega

/-- One step of the walk, at an internal node. -/
theorem fixupAfterDelete_internal {c : Nat} {r : List (ε × Nat)} (hf : Family O s parent ls q rs)
    (hq : s[q]? = some (.internal c r)) (hfq : InternalFits O c r) :
    fixupAfterDelete K root (q :: parent :: path) s =
      if minInternalKeys K ≤ r.length then .ok root s
      else (fixupInternal K parent (ls.map (·.1) ++ q :: rs.map (·.2))
          ((ls.map fun x => O.val x.2) ++ rs.map fun x => O.val x.1) ls.length >>= fun _ =>
        fixupAfterDelete K root (parent :: path)) s := by
  have hcount : ((fun e => e.2.length) <$>
      PageM.lift (readInternal K (.internal c r : Page ε τ)) : PageM ε τ Nat) s =
        .ok r.length s := by
    rw [readInternal_eq hfq.stored]
    simp [Functor.map, EStateM.map, PageM.lift]
  conv_lhs => unfold fixupAfterDelete
  rw [run_bind_ok (fetchPage_eq hq)]
  simp only [isLeaf, Bool.false_eq_true, reduceIte]
  rw [run_bind_ok hcount]
  split
  · rfl
  · rw [run_bind_ok (fetchPage_eq hf.page), readInternal_zip hf.fits.stored,
      run_bind_ok (PageM.lift_ok _ _)]
    simp only [hf.pyIndex]
    rw [run_bind_ok (PageM.lift_ok _ _)]

/-- The walk up from a node that may be one key short returns a tree in order with
    the same level below the node. -/
theorem Loose.fixupAfterDelete (hl : Loose O s height root h path before q after)
    (hscope : ∀ x j, height x = some j → x < s.length) :
    ∃ root' s', BPlusTree.fixupAfterDelete K root (q :: path) s = .ok root' s' ∧
      Grows (h < ·) s height s' height ∧
      Tower O s' height root' h (expand (rowAt s) (before ++ .node q :: after)) := by
  induction path generalizing s h q before after with
  | nil =>
    obtain ⟨hf, hnodes, hnode, hlevel⟩ := hl
    cases hf with
    | root hlevel' =>
      obtain ⟨root', hrun, htower⟩ := Loose.root_spec ⟨.root hlevel', hnodes, hnode, hlevel⟩
      exact ⟨root', s, hrun, .refl, htower⟩
  | cons parent path ih =>
    obtain ⟨hf, hnodes, ⟨child, rest, hq, hfq, hlo, hhi⟩, hlevel⟩ := hl
    have hne : q ≠ root := by
      rintro rfl
      have := hf.height_root
      rw [hf.toLevel.height_eq q (by simp), List.length_cons, Option.some.injEq] at this
      omega
    rw [minKeysOf, if_neg hne] at hlo
    cases hf with
    | @down _ _ _ _ before after ls rs hup hnodes' hpage hfits hlo' hhi' hlevel' =>
    have hfam := Family.of_focus hup hpage hfits hhi' hlevel'
    rw [fixupAfterDelete_internal hfam hq hfq]
    split
    · rename_i hle
      refine ⟨root, s, rfl, .refl, ?_⟩
      exact (Focus.down hup hnodes' hpage hfits hlo' hhi' hlevel').tower.down_focus hnodes
        ⟨child, rest, hq, hfq, (minKeysOf_le _ _).trans hle, hhi⟩ hlevel
    · rename_i hlt
      have hsib : ∀ x ∈ ls.map (·.1) ++ rs.map (·.2), IsInternal O s (minInternalKeys K) x := by
        intro x hx
        refine hnodes x ?_
        simp only [nodes_append, nodes_left, nodes_right, List.mem_append] at hx ⊢
        tauto
      have hone : ls ≠ [] ∨ rs ≠ [] := by
        have := one_le_minKeysOf K root parent
        by_contra hno
        push Not at hno
        simp [hno.1, hno.2] at hlo'
        omega
      obtain ⟨s₁, ls₁, a, k, b, rs₁, hrun₁, hpair, win, hw, hwin, hexp⟩ :=
        fixupInternal_spec hfam hq hfq (by omega) hsib hone
      have hold : (expand (rowAt s) before ++ left ls) ++ .node q :: (right rs ++
          expand (rowAt s) after) = expand (rowAt s) before ++
            (left ls₁ ++ .node a :: .sep k :: .node b :: right rs₁) ++ expand (rowAt s) after := by
        rw [← hpair.row_eq]
        simp
      have hlevel₁ := hlevel'
      rw [hold] at hlevel₁
      obtain ⟨hloose, heq⟩ := hw.loose hup hnodes' (by have := hpair.length_eq; omega) hlevel₁
      obtain ⟨root', s', hrun, hg, htower⟩ := ih hloose (by rwa [hw.length_eq])
      have hparent := hup.toLevel.height_eq parent (by simp)
      have ha := hlevel₁.height_eq a (by simp)
      have hb := hlevel₁.height_eq b (by simp)
      have hg₁ : Grows (h < ·) s height s₁ height :=
        hw.grows hparent ha hb (by omega) (Nat.lt_succ_self h)
      refine ⟨root', s', (run_bind_ok hrun₁).trans hrun,
        hg₁.trans hg fun j hj => (Nat.lt_succ_self h).trans hj, ?_⟩
      have hbelow : (expand (rowAt s) before ++ left ls) ++
          .node q :: (right rs ++ expand (rowAt s) after) =
          (expand (rowAt s) before ++ left ls₁) ++
            .node a :: .sep k :: .node b :: (right rs₁ ++ expand (rowAt s) after) := by
        rw [hold]
        simp
      rw [hbelow] at hlevel hlevel' ⊢
      refine Tower.down_repaired hw hwin hexp hlevel' hparent (fun x hx => ?_) hg hscope ?_ hlevel
      · have hx' : x ∈ nodes ((expand (rowAt s) before ++ left ls₁) ++
            .node a :: .sep k :: .node b :: (right rs₁ ++ expand (rowAt s) after)) := by
          rw [nodes_append, List.mem_append] at hx
          rw [nodes_append (expand _ _ ++ left _), List.mem_append]
          simp only [nodes_node, nodes_sep, List.mem_cons]
          tauto
        rw [← hbelow] at hx'
        refine hnodes x ((mem_nodes_focus.mp hx').resolve_left ?_)
        obtain ⟨hxa, hxb⟩ := hlevel'.ne_pair hx
        obtain rfl | rfl := hpair.eq_or
        · exact hxa
        · exact hxb
      · rw [heq] at htower
        simpa using htower

end Loose

end Minirel.BPlusTree
