-- SUMMARY: What a TEXT index finds, as long as its keys are read back as they were stored.
import Minirel.Index.Keys
import Minirel.Index.Progress
import Minirel.Index.Coerce

/-!
# TEXT indexes

A tree as `create_index` makes it for a TEXT column, and the calls of `insert` on it.
Keys are compared at full length when they come in, and at most eight bytes of them are
there when they are read again.
-/

namespace Minirel

namespace BPlusTree

open Row

/-! ## Room for page ids -/

section Room
variable {κ ε τ R : Type} [LinearOrder R] {K : KeyType κ ε} {O : KeyOrder K R}
  {s s' : PageFile ε τ} {height : Nat → Option Nat} {root : Nat} {level : List (Item Nat ε)}

/-- The file has ids left for one page on every level of the tree and for a new root. -/
def Room (K : KeyType κ ε) (s : PageFile ε τ) (root : Nat) (key : κ) : Prop :=
  ∀ path s', findLeafPath K root key s = .ok path s' → s.length + path.length + 1 ≤ 2 ^ 32

theorem Tree.insert_room {k : ε} {rid : RID} (ht : Tree O s height root level) (hk : O.Stored k)
    (hroom : Room K s root (O.val k)) :
    ((insert K false root (O.val k) rid).after s).length ≤ 2 ^ 32 := by
  obtain ⟨path, before, p, after, es, nx, hf⟩ := ht.find (O.comparable_val hk)
  obtain ⟨l₀, m, r, rfl, -, -, -, -, hhi⟩ := hf.cut ht.inOrder (O.comparable_val hk)
  have hrun : insert K false root (O.val k) rid s = _ := hf.insert_eq hhi rfl
  rw [PageM.after_congr hrun]
  have hlen := hroom _ _ hf.run
  simp only [List.length_reverse, List.length_cons] at hlen
  exact (takes_insertInLeaf root path p _ nx s).trans (by omega)

end Room

/-! ## Runs of insertions -/

variable {τ : Type} {C : Conversions} {s s' : PageFile RawKey τ} {root root' : Nat}
  {L : List (String × RID)}

/-- The RIDs that have been inserted under a key, in this order. -/
def ridsOf (L : List (String × RID)) (key : String) : List RID :=
  (L.filter (·.1 = key)).map (·.2)

/-- A call that the index can serve: the key is read back as it is stored, there are not
    too many entries under it, and what is to be stored has room. -/
structure Insertable (C : Conversions) (s : PageFile RawKey τ) (root : Nat)
    (L : List (String × RID)) (key : String) (rid : RID) : Prop where
  kept : Kept key
  few : (ridsOf L key).length < maxLeafKeys (KeyType.ofColumn C .text)
  rid : ridFits rid
  room : Room (KeyType.ofColumn C .text) s root (.str key)

/-- The states of a TEXT index reached by such calls, with the pairs that have been
    inserted. -/
inductive TextRun (C : Conversions) : Nat → PageFile RawKey τ → List (String × RID) → Prop where
  | create {s s' : PageFile RawKey τ} {root : Nat}
      (hrun : create (KeyType.ofColumn C .text) s = .ok root s') : TextRun C root s' []
  | insert {s s' : PageFile RawKey τ} {root root' : Nat} {L : List (String × RID)} (key : String)
      (rid : RID) (h : TextRun C root s L) (hins : Insertable C s root L key rid)
      (hrun : insert (KeyType.ofColumn C .text) false root (.str key) rid s = .ok root' s') :
      TextRun C root' s' (L ++ [(key, rid)])

/-- The tree holds what has been inserted. -/
def TextIndex (C : Conversions) (root : Nat) (s : PageFile RawKey τ) (L : List (String × RID)) :
    Prop :=
  ∃ height level, Tree (KeyOrder.textColumn C) s height root level ∧
    ∀ key, ((entries s level).filter fun a => (KeyOrder.textColumn C).rk a.1 = key).map (·.2) =
      ridsOf L key

theorem TextIndex.insert {key : String} {rid : RID} (h : TextIndex C root s L)
    (hkept : Kept key)
    (hrun : insert (KeyType.ofColumn C .text) false root (.str key) rid s = .ok root' s') :
    TextIndex C root' s' (L ++ [(key, rid)]) := by
  obtain ⟨height, level, ht, hent⟩ := h
  have hstored : (KeyOrder.textColumn C).Stored (.text (encodeText key)) := ⟨key, rfl, hkept⟩
  rw [← KeyOrder.val_encodeText (C := C) hkept] at hrun
  obtain ⟨l, r, heq, hl, hr, height', level', -, -, ht', hent'⟩ := ht.insert_spec hstored hrun
  refine ⟨height', level', ht', fun key' => ?_⟩
  have happend : ridsOf (L ++ [(key, rid)]) key' = ridsOf L key' ++ ridsOf [(key, rid)] key' := by
    simp [ridsOf]
  rw [hent', happend, ← hent key', heq]
  by_cases hkey : key = key'
  · subst hkey
    have hnone : r.filter (fun a => (KeyOrder.textColumn C).rk a.1 = key) = [] := by
      refine List.filter_eq_nil_iff.mpr fun a ha => ?_
      have := hr a ha
      rw [KeyOrder.rk_encodeText hkept] at this
      simpa using this.ne'
    simp [ridsOf, hnone, KeyOrder.rk_encodeText hkept]
  · simp [ridsOf, KeyOrder.rk_encodeText hkept, hkey]

theorem TextRun.textIndex (h : TextRun C root s L) : TextIndex C root s L := by
  induction h with
  | create hrun =>
    rw [create_eq (KeyOrder.textColumn C)] at hrun
    cases hrun
    obtain ⟨ht, hent⟩ := tree_create (KeyOrder.textColumn C) _
    exact ⟨_, _, ht, fun key => by rw [hent]; rfl⟩
  | insert key rid _ hins hrun ih => exact ih.insert hins.kept hrun

/-- As long as every key is read back as it was stored, no insertion raises, and a search
    for any text finds the RIDs inserted under it. -/
theorem TextRun.search_exact (h : TextRun C root s L) :
    (∀ key rid, Insertable C s root L key rid → ∃ root' s',
      BPlusTree.insert (KeyType.ofColumn C .text) false root (.str key) rid s = .ok root' s') ∧
    ∀ key, search (KeyType.ofColumn C .text) root (.str key) s = .ok (ridsOf L key) s := by
  obtain ⟨height, level, ht, hent⟩ := h.textIndex
  refine ⟨fun key rid hins => ?_, fun key => ?_⟩
  · have hstored : (KeyOrder.textColumn C).Stored (.text (encodeText key)) :=
      ⟨key, rfl, hins.kept⟩
    have hroom := hins.room
    rw [← KeyOrder.val_encodeText (C := C) hins.kept] at hroom ⊢
    obtain ⟨-, hok⟩ | ⟨hfull, -⟩ := ht.insert_total hstored hins.rid (ht.insert_room hstored hroom)
    · exact hok
    · have hfew := hins.few
      rw [occurrences, KeyOrder.rk_encodeText hins.kept, List.countP_eq_length_filter] at hfull
      rw [← hent key, List.length_map] at hfew
      exact absurd hfull hfew.ne
  · rw [ht.search_eq ⟨key, rfl⟩, ← hent key]
    rfl

/-- One key of eight bytes is inserted and found. -/
theorem TextRun.search_exact_short : ∃ s : PageFile RawKey Unit,
    TextRun .integral 0 s [("abcdefgh", ⟨0, 0⟩)] ∧
      search (KeyType.ofColumn .integral .text) 0 (.str "abcdefgh") s = .ok [⟨0, 0⟩] s := by
  have hroot : TextRun .integral 0 ([.leaf [] invalidPageId] : PageFile RawKey Unit) [] :=
    .create (s := []) rfl
  have hins : Insertable .integral ([.leaf [] invalidPageId] : PageFile RawKey Unit) 0 []
      "abcdefgh" ⟨0, 0⟩ := by
    refine ⟨by decide, by decide, by decide, fun path s' h => ?_⟩
    cases h
    decide
  obtain ⟨root', s', hrun⟩ := hroot.search_exact.1 _ _ hins
  obtain rfl : root' = 0 := by
    cases hrun
    rfl
  have h := TextRun.insert _ _ hroot hins hrun
  exact ⟨s', h, h.search_exact.2 "abcdefgh"⟩

/-- A key of nine bytes is inserted and cannot be found. -/
theorem not_search_long : ∃ s : PageFile RawKey Unit,
    BPlusTree.insert (KeyType.ofColumn .integral .text) false 0 (.str "abcdefghi") ⟨0, 0⟩
        [.leaf [] invalidPageId] = .ok 0 s ∧
      search (KeyType.ofColumn .integral .text) 0 (.str "abcdefghi") s = .ok [] s := by
  refine ⟨[.leaf [(.text (encodeText "abcdefghi"), ⟨0, 0⟩)] invalidPageId], rfl, ?_⟩
  have hdecode : decodeText (encodeText "abcdefghi") = .ok "abcdefgh" :=
    decodeText_eq_ok.mpr (by decide)
  have hread : readLeaf (KeyType.ofColumn .integral .text)
      (.leaf [(.text (encodeText "abcdefghi"), ⟨0, 0⟩)] invalidPageId : Page RawKey Unit) =
        .ok ([(.str "abcdefgh", ⟨0, 0⟩)], invalidPageId) := by
    simp [readLeaf, KeyType.ofColumn, hdecode, bind, Except.bind, pure, Except.pure]
  have hleft : bisectLeft (KeyType.ofColumn .integral .text) [.str "abcdefgh"] (.str "abcdefghi") =
      .ok 1 := by
    decide
  have hright : bisectRight (KeyType.ofColumn .integral .text) [.str "abcdefgh"]
      (.str "abcdefghi") = .ok 1 := by
    decide
  have hfind : findLeaf (KeyType.ofColumn .integral .text) 0 (.str "abcdefghi")
      ([.leaf [(.text (encodeText "abcdefghi"), ⟨0, 0⟩)] invalidPageId] : PageFile RawKey Unit) =
        .ok 0 [.leaf [(.text (encodeText "abcdefghi"), ⟨0, 0⟩)] invalidPageId] := rfl
  rw [search, run_bind_ok hfind, run_bind_ok (fetchPage_eq rfl), hread,
    run_bind_ok (PageM.lift_ok _ _)]
  simp only [List.map_cons, List.map_nil, hleft, hright]
  rfl

end BPlusTree
end Minirel
