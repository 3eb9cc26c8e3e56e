-- SUMMARY: Where a sorted leaf is cut in two.
import Minirel.Index.Tree

/-!
# The split point

A sorted list is cut at the end of the run of equal keys that its middle falls
into, or before that run if the run goes to the end of the list.
-/

namespace Minirel.BPlusTree

variable {κ ε τ R : Type} [LinearOrder R] {K : KeyType κ ε} {O : KeyOrder K R}

/-- A list of entries around the run of equal keys that its middle falls into. -/
structure MidRun (O : KeyOrder K R) (es before run after : List (ε × RID)) : Prop where
  eq : es = before ++ run ++ after
  stored : ∀ a ∈ es, O.Stored a.1
  below : ∀ a ∈ before, ∀ b ∈ run, O.rk a.1 < O.rk b.1
  equal : ∀ a ∈ run, ∀ b ∈ run, O.rk a.1 = O.rk b.1
  above : ∀ a ∈ run, ∀ b ∈ after, O.rk a.1 < O.rk b.1
  lt_mid : before.length < es.length / 2
  mid_le : es.length / 2 ≤ before.length + run.length

theorem MidRun.run_ne_nil {es before run after : List (ε × RID)} (hm : MidRun O es before run after) :
    run ≠ [] := by
  rintro rfl
  have hlt := hm.lt_mid
  have hle := hm.mid_le
  simp only [List.length_nil] at hle
  omega

theorem exists_midRun {es : List (ε × RID)} (hst : ∀ a ∈ es, O.Stored a.1)
    (hsorted : es.Pairwise fun a b => O.rk a.1 ≤ O.rk b.1) (hlen : 2 ≤ es.length) :
    ∃ before run after, MidRun O es before run after := by
  obtain ⟨l, pivot, r, heq, hl⟩ : ∃ l x r, es = l ++ x :: r ∧ l.length = es.length / 2 - 1 :=
    ⟨es.take (es.length / 2 - 1), es[es.length / 2 - 1], es.drop (es.length / 2 - 1 + 1),
      by simp, by simp; omega⟩
  rw [heq, List.pairwise_append, List.pairwise_cons] at hsorted
  obtain ⟨hl₀, ⟨hr, hr₀⟩, hlr⟩ := hsorted
  obtain ⟨before, l', rfl, hbefore, hl'⟩ := exists_cut_lt hl₀ (O.rk pivot.1)
  obtain ⟨r', after, rfl, hr', hafter⟩ := exists_cut_le hr₀ (O.rk pivot.1)
  have hrun : ∀ a ∈ l' ++ pivot :: r', O.rk a.1 = O.rk pivot.1 := by
    intro a ha
    rw [List.mem_append, List.mem_cons] at ha
    obtain ha | rfl | ha := ha
    · exact le_antisymm (hlr a (List.mem_append_right _ ha) pivot (by simp)) (hl' a ha)
    · rfl
    · exact le_antisymm (hr' a ha) (hr a (List.mem_append_left _ ha))
  refine ⟨before, l' ++ pivot :: r', after, ⟨by simp [heq], hst, fun a ha b hb => ?_,
    fun a ha b hb => (hrun a ha).trans (hrun b hb).symm, fun a ha b hb => ?_, ?_, ?_⟩⟩
  · exact (hrun b hb).symm ▸ hbefore a ha
  · exact (hrun a ha).symm ▸ hafter b hb
  · rw [List.length_append] at hl
    omega
  · simp only [List.length_append, List.length_cons] at hl ⊢
    omega

theorem takeWhile_append_eq {α : Type} {p : α → Bool} {l₁ l₂ : List α} (h₁ : ∀ a ∈ l₁, p a)
    (h₂ : ∀ a ∈ l₂, p a = false) : (l₁ ++ l₂).takeWhile p = l₁ := by
  rw [List.takeWhile_append_of_pos h₁]
  cases l₂ with
  | nil => simp
  | cons a l₂ => simp [h₂ a (by simp)]

/-- The split point of a list whose first half ends in `pivot`. -/
theorem splitPoint_pivot {l r : List κ} {pivot b : κ}
    (hmid : (l ++ pivot :: b :: r).length / 2 = l.length + 1) :
    splitPointAvoidingDuplicates K (l ++ pivot :: b :: r) =
      if K.eq b pivot then
        if ((b :: r).takeWhile (K.eq · pivot)).length < (b :: r).length then
          .ok (l.length + 1 + ((b :: r).takeWhile (K.eq · pivot)).length)
        else if 0 < l.length - (l.reverse.takeWhile (K.eq · pivot)).length then
          .ok (l.length - (l.reverse.takeWhile (K.eq · pivot)).length)
        else .error (splitError K)
      else .ok (l.length + 1) := by
  have hb : pyGet (l ++ pivot :: b :: r) (l.length + 1) = .ok b := by
    simpa using pyGet_append (l ++ [pivot]) r b
  have hpivot : pyGet (l ++ pivot :: b :: r) (l.length + 1 - 1) = .ok pivot := by simp
  have hdrop : (l ++ pivot :: b :: r).drop (l.length + 1) = b :: r := drop_append_cons _ _ _
  have htake : (l ++ pivot :: b :: r).take (l.length + 1 - 1) = l := by simp
  have hlt : l.length + 1 + ((b :: r).takeWhile (K.eq · pivot)).length <
      (l ++ pivot :: b :: r).length ↔
        ((b :: r).takeWhile (K.eq · pivot)).length < (b :: r).length := by
    simp only [List.length_append, List.length_cons]
    omega
  unfold splitPointAvoidingDuplicates
  simp only [hmid, hb, hpivot, hdrop, htake, bind, Except.bind, hlt]
  rfl

/-- The split point of a list, by the run its middle falls into. -/
theorem splitPoint_eq {es before run after : List (ε × RID)} (hm : MidRun O es before run after) :
    splitPointAvoidingDuplicates K ((es.map O.dec).map (·.1)) =
      if after ≠ [] then .ok (before.length + run.length)
      else if before ≠ [] then .ok before.length
      else .error (splitError K) := by
  obtain ⟨heq, hst, hbelow, hequal, habove, hlt, hle⟩ := hm
  have hlen := congrArg List.length heq
  simp only [List.length_append] at hlen
  -- the pivot is the last entry of the first half, and it belongs to the run
  obtain ⟨run₁, pivot, run₂, rfl, hrun₁⟩ :
      ∃ l x r, run = l ++ x :: r ∧ l.length = es.length / 2 - 1 - before.length :=
    ⟨run.take (es.length / 2 - 1 - before.length), run[es.length / 2 - 1 - before.length],
      run.drop (es.length / 2 - 1 - before.length + 1), by simp, by simp; omega⟩
  simp only [List.length_append, List.length_cons] at hlen hle
  have heqv : ∀ a ∈ es, K.eq (O.val a.1) (O.val pivot.1) = decide (O.rk a.1 = O.rk pivot.1) :=
    fun a ha => O.eq_eq (O.comparable_val (hst a ha))
      (O.comparable_val (hst pivot (by simp [heq])))
  have hbefore : ∀ a ∈ before, K.eq (O.val a.1) (O.val pivot.1) = false := fun a ha => by
    rw [heqv a (by simp [heq, ha])]
    simpa using (hbelow a ha pivot (by simp)).ne
  have hrun : ∀ a ∈ run₁ ++ pivot :: run₂, K.eq (O.val a.1) (O.val pivot.1) = true := fun a ha => by
    rw [heqv a (by rw [heq]; exact List.mem_append_left _ (List.mem_append_right _ ha))]
    simpa using hequal a ha pivot (by simp)
  have hafter : ∀ a ∈ after, K.eq (O.val a.1) (O.val pivot.1) = false := fun a ha => by
    rw [heqv a (by simp [heq, ha])]
    simpa using (habove pivot (by simp) a ha).ne'
  have hwhile : ((run₂ ++ after).map fun a => O.val a.1).takeWhile (K.eq · (O.val pivot.1)) =
      run₂.map fun a => O.val a.1 := by
    rw [List.map_append]
    exact takeWhile_append_eq
      (List.forall_mem_map.mpr fun a ha => hrun a (by simp [ha])) (List.forall_mem_map.mpr hafter)
  have hwhile' : ((before ++ run₁).map fun a => O.val a.1).reverse.takeWhile
      (K.eq · (O.val pivot.1)) = (run₁.map fun a => O.val a.1).reverse := by
    rw [List.map_append, List.reverse_append]
    refine takeWhile_append_eq (fun a ha => ?_) fun a ha => ?_
    · obtain ⟨b, hb, rfl⟩ := List.mem_map.mp (List.mem_reverse.mp ha)
      exact hrun b (by simp [hb])
    · obtain ⟨b, hb, rfl⟩ := List.mem_map.mp (List.mem_reverse.mp ha)
      exact hbefore b hb
  have hkeys : (es.map O.dec).map (·.1) =
      ((before ++ run₁).map fun a => O.val a.1) ++
        O.val pivot.1 :: (run₂ ++ after).map fun a => O.val a.1 := by
    simp [heq, KeyOrder.dec, Function.comp_def]
  obtain ⟨b, rest, hrest⟩ : ∃ b rest, run₂ ++ after = b :: rest := by
    refine List.exists_cons_of_ne_nil fun h => ?_
    have := congrArg List.length h
    simp only [List.length_append, List.length_nil] at this
    omega
  rw [hrest] at hkeys hwhile
  have hmid := congrArg List.length hkeys
  simp only [List.length_map, List.length_append, List.length_cons] at hmid
  rw [List.map_cons] at hkeys hwhile
  rw [hkeys, splitPoint_pivot (by simp; omega), hwhile, hwhile']
  have hrestlen := congrArg List.length hrest
  simp only [List.length_append, List.length_cons] at hrestlen
  simp only [List.length_map, List.length_append, List.length_cons, List.length_reverse]
  cases run₂ with
  | nil =>
    rw [List.nil_append] at hrest
    subst hrest
    rw [hafter b (by simp)]
    simp
    omega
  | cons b' run₂ =>
    cases hrest
    rw [hrun b (by simp)]
    by_cases ha : after = []
    · subst ha
      simp [List.length_pos_iff]
    · have hpos := List.length_pos_iff.mpr ha
      rw [if_pos rfl, if_pos (by omega), if_pos ha, Except.ok.injEq]
      omega

/-- A cut never separates equal keys. -/
theorem splitPoint_ok {es : List (ε × RID)} {i : Nat} (hst : ∀ a ∈ es, O.Stored a.1)
    (hsorted : es.Pairwise fun a b => O.rk a.1 ≤ O.rk b.1) (hlen : 2 ≤ es.length)
    (h : splitPointAvoidingDuplicates K ((es.map O.dec).map (·.1)) = .ok i) :
    ∃ l x r, es = l ++ x :: r ∧ l.length = i ∧ l ≠ [] ∧ ∀ a ∈ l, O.rk a.1 < O.rk x.1 := by
  obtain ⟨before, run, after, hm⟩ := exists_midRun hst hsorted hlen
  have hpos := hm.run_ne_nil
  obtain ⟨b, hb⟩ := List.exists_mem_of_ne_nil run hpos
  rw [splitPoint_eq hm] at h
  split at h
  · rename_i hafter
    obtain ⟨x, after, rfl⟩ := List.exists_cons_of_ne_nil hafter
    cases h
    refine ⟨before ++ run, x, after, hm.eq, by simp, by simp [hpos], fun a ha => ?_⟩
    obtain ha | ha := List.mem_append.mp ha
    · exact (hm.below a ha b hb).trans (hm.above b hb x (by simp))
    · exact hm.above a ha x (by simp)
  · rename_i hafter
    split at h
    · rename_i hbefore
      cases h
      obtain ⟨x, run, rfl⟩ := List.exists_cons_of_ne_nil hpos
      refine ⟨before, x, run ++ after, by simp [hm.eq], rfl, hbefore, fun a ha => ?_⟩
      exact hm.below a ha x (by simp)
    · cases h

/-- There is no cut if the whole list is one run. -/
theorem splitPoint_error_iff {es : List (ε × RID)} (hst : ∀ a ∈ es, O.Stored a.1)
    (hsorted : es.Pairwise fun a b => O.rk a.1 ≤ O.rk b.1) (hlen : 2 ≤ es.length) {err : PyError} :
    splitPointAvoidingDuplicates K ((es.map O.dec).map (·.1)) = .error err ↔
      err = splitError K ∧ ∀ a ∈ es, ∀ b ∈ es, O.rk a.1 = O.rk b.1 := by
  obtain ⟨before, run, after, hm⟩ := exists_midRun hst hsorted hlen
  obtain ⟨b, hb⟩ := List.exists_mem_of_ne_nil run hm.run_ne_nil
  have hbes : b ∈ es := by simp [hm.eq, hb]
  rw [splitPoint_eq hm]
  constructor
  · intro h
    split at h
    · cases h
    · rename_i hafter
      split at h
      · cases h
      · rename_i hbefore
        cases h
        have heq : es = run := by
          simpa [not_not.mp hbefore, not_not.mp hafter] using hm.eq
        exact ⟨rfl, fun x hx y hy => hm.equal x (heq ▸ hx) y (heq ▸ hy)⟩
  · rintro ⟨rfl, hall⟩
    have hafter : after = [] := List.eq_nil_iff_forall_not_mem.mpr fun a ha =>
      (hm.above b hb a ha).ne (hall b hbes a (by simp [hm.eq, ha]))
    have hbefore : before = [] := List.eq_nil_iff_forall_not_mem.mpr fun a ha =>
      (hm.below a ha b hb).ne (hall a (by simp [hm.eq, ha]) b hbes)
    rw [if_neg (not_not.mpr hafter), if_neg (not_not.mpr hbefore)]

/-! ## Lists of keys -/

/-- Keys that would stand on a page as they are. -/
def plainKeys (K : KeyType κ ε) : KeyType κ κ where
  keySize := K.keySize
  lt := K.lt
  eq := K.eq
  encodeKey := .ok
  decodeKey := .ok
  repr := K.repr

def plainOrder (O : KeyOrder K R) : KeyOrder (plainKeys K) R where
  rank := O.rank
  val := id
  Comparable := O.Comparable
  Stored := O.Comparable
  keySize_le := O.keySize_le
  lt_eq := O.lt_eq
  eq_eq := O.eq_eq
  comparable_val h := h
  decode_eq _ := rfl
  encode_val _ := rfl

/-- Comparing and cutting do not depend on what keys look like on a page. -/
theorem splitPoint_plainKeys (keys : List κ) :
    splitPointAvoidingDuplicates (plainKeys K) keys = splitPointAvoidingDuplicates K keys := rfl

/-- The split point of any sorted list of at least two keys: a cut with both sides
    nonempty and a smaller key before it than after it, or an error, which comes exactly
    if all keys are equal. -/
theorem splitPointAvoidingDuplicates_spec (O : KeyOrder K R) (keys : List κ)
    (hcomparable : ∀ k ∈ keys, O.Comparable k)
    (hsorted : keys.Pairwise fun a b => K.lt b a = .ok false) (hlen : 2 ≤ keys.length) :
    ((∃ s a b, splitPointAvoidingDuplicates K keys = .ok s ∧ 0 < s ∧ s < keys.length ∧
        keys[s - 1]? = some a ∧ keys[s]? = some b ∧ K.lt a b = .ok true) ∨
      splitPointAvoidingDuplicates K keys = .error (splitError K)) ∧
    (splitPointAvoidingDuplicates K keys = .error (splitError K) ↔
      ∀ a ∈ keys, ∀ b ∈ keys, K.eq a b = true) := by
  let rid : RID := ⟨0, 0⟩
  have hkeys : (((keys.map fun k => (k, rid)).map (plainOrder O).dec).map (·.1)) = keys := by
    simp [KeyOrder.dec, plainOrder, Function.comp_def]
  have hst : ∀ a ∈ keys.map fun k => (k, rid), (plainOrder O).Stored a.1 :=
    List.forall_mem_map.mpr hcomparable
  have hpairs : (keys.map fun k => (k, rid)).Pairwise
      fun a b => (plainOrder O).rk a.1 ≤ (plainOrder O).rk b.1 := by
    rw [List.pairwise_map]
    refine hsorted.imp_of_mem fun {a b} ha hb hab => ?_
    rw [O.lt_eq (hcomparable b hb) (hcomparable a ha)] at hab
    have hle : O.rank a ≤ O.rank b := by simpa using hab
    exact hle
  have hlen' : 2 ≤ (keys.map fun k => (k, rid)).length := by simpa using hlen
  have herror : ∀ err, splitPointAvoidingDuplicates K keys = .error err ↔
      err = splitError K ∧ ∀ a ∈ keys, ∀ b ∈ keys, K.eq a b = true := by
    intro err
    rw [← splitPoint_plainKeys, ← hkeys, splitPoint_error_iff hst hpairs hlen', hkeys]
    refine and_congr Iff.rfl ?_
    rw [List.forall_mem_map]
    refine forall₂_congr fun a ha => ?_
    rw [List.forall_mem_map]
    refine forall₂_congr fun b hb => ?_
    rw [O.eq_eq (hcomparable a ha) (hcomparable b hb)]
    exact decide_eq_true_iff.symm
  refine ⟨?_, by simpa using herror (splitError K)⟩
  cases hsplit : splitPointAvoidingDuplicates K keys with
  | error err => exact .inr (by rw [((herror err).mp hsplit).1])
  | ok s =>
    rw [← splitPoint_plainKeys, ← hkeys] at hsplit
    obtain ⟨l, x, r, heq, hl, hne, hlt⟩ := splitPoint_ok hst hpairs hlen' hsplit
    have hkeys' : keys = l.map (·.1) ++ x.1 :: r.map (·.1) := by
      have h := congrArg (List.map (·.1)) heq
      simpa [Function.comp_def] using h
    obtain ⟨init, last, rfl⟩ := List.eq_nil_or_concat' l |>.resolve_left hne
    have hlast : last.1 ∈ keys := by rw [hkeys']; simp
    have hx : x.1 ∈ keys := by rw [hkeys']; simp
    simp only [List.length_append, List.length_cons, List.length_nil] at hl
    refine .inl ⟨s, last.1, x.1, rfl, by omega, ?_, ?_, ?_, ?_⟩
    · rw [hkeys']
      simp
      omega
    · rw [hkeys']
      simp [← hl]
    · rw [hkeys']
      simp [← hl]
    · rw [O.lt_eq (hcomparable _ hlast) (hcomparable _ hx)]
      exact congrArg _ (decide_eq_true (hlt last (by simp)))

theorem splitPointAvoidingDuplicates_spec_three :
    ((∃ s a b, splitPointAvoidingDuplicates KeyType.int [3, 3, 7] = .ok s ∧ 0 < s ∧ s < 3 ∧
        [3, 3, 7][s - 1]? = some a ∧ [3, 3, 7][s]? = some b ∧ KeyType.int.lt a b = .ok true) ∨
      splitPointAvoidingDuplicates KeyType.int [3, 3, 7] = .error (splitError KeyType.int)) ∧
    (splitPointAvoidingDuplicates KeyType.int [3, 3, 7] = .error (splitError KeyType.int) ↔
      ∀ a ∈ [3, 3, 7], ∀ b ∈ [3, 3, 7], KeyType.int.eq a b = true) :=
  splitPointAvoidingDuplicates_spec KeyOrder.int [3, 3, 7] (fun _ _ => trivial)
    (by simp [KeyType.int]) (by decide)

end Minirel.BPlusTree
