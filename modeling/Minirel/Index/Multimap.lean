-- SUMMARY: Over whole runs of calls a tree of integers is a sorted multimap, and what its deletions may overflow.
import Minirel.Index.Insert
import Minirel.Index.Delete
import Mathlib.Data.List.Sort

/-!
# Runs of calls

An INT-keyed tree made by `create` and then used by any number of `insert` and
`delete` calls. Beside the pages goes the list of pairs that the calls so far stand
for, in the order in which a scan should give them.
-/

namespace Minirel.BPlusTree

open Row

variable {τ : Type} {s s' : PageFile Int τ} {root root' : Nat} {unique : Bool}
  {L : List (Int × RID)}

/-- A call that changes the tree. -/
inductive Call where
  | insert (key : Int) (rid : RID)
  | delete (key : Int) (rid : RID)

namespace Call

def key : Call → Int
  | .insert key _ => key
  | .delete key _ => key

/-- The key is in the signed 64-bit range. -/
def InRange (call : Call) : Prop := -2 ^ 63 ≤ call.key ∧ call.key < 2 ^ 63

instance (call : Call) : Decidable call.InRange := inferInstanceAs (Decidable (_ ∧ _))

/-- Running a call: what it returns, and the root page id after it. -/
def exec (unique : Bool) (root : Nat) : Call → PageM Int τ (Option Bool × Nat)
  | .insert key rid => do
    let root ← BPlusTree.insert KeyType.int unique root key rid
    return (none, root)
  | .delete key rid => do
    let (found, root) ← BPlusTree.delete KeyType.int root key rid
    return (some found, root)

/-- What a call should return and do to the list of pairs: a new pair goes behind
    all pairs up to its key, and the first pair equal to a deleted one goes. -/
def spec (L : List (Int × RID)) : Call → Option Bool × List (Int × RID)
  | .insert key rid => (none, L.orderedInsert (fun a b => a.1 < b.1) (key, rid))
  | .delete key rid => (some (decide ((key, rid) ∈ L)), L.erase (key, rid))

end Call

/-- The states of a tree reached by calls that all return, with the list of pairs
    they stand for. The tree is made on a file that satisfies `start`, and each call
    is made in a state that is `allowed`. -/
inductive Run (unique : Bool) (start : PageFile Int τ → Prop)
    (allowed : PageFile Int τ → Nat → Call → Prop) :
    Nat → PageFile Int τ → List (Int × RID) → Prop where
  | create {s s' : PageFile Int τ} {root : Nat} (hstart : start s)
      (hrun : create KeyType.int s = .ok root s') : Run unique start allowed root s' []
  | call {s s' : PageFile Int τ} {root root' : Nat} {L : List (Int × RID)} {out : Option Bool}
      (call : Call) (h : Run unique start allowed root s L) (hrange : call.InRange)
      (hallowed : allowed s root call) (hrun : call.exec unique root s = .ok (out, root') s') :
      Run unique start allowed root' s' (call.spec L).2

/-- The tree on these pages stands for this list. -/
def Represents (height : Nat → Option Nat) (root : Nat) (s : PageFile Int τ)
    (L : List (Int × RID)) : Prop :=
  ∃ level, Tree KeyOrder.int s height root level ∧ entries s level = L

theorem represents_create (hrun : create KeyType.int s = .ok root s') :
    Represents (Function.update (fun _ => none) s.length (some 0)) root s' [] ∧ root = s.length := by
  rw [create_eq KeyOrder.int] at hrun
  cases hrun
  obtain ⟨ht, hent⟩ := tree_create KeyOrder.int s
  exact ⟨⟨_, ht, hent⟩, rfl⟩

theorem orderedInsert_cut {l r : List (Int × RID)} {key : Int} {rid : RID}
    (hl : ∀ a ∈ l, a.1 ≤ key) (hr : ∀ a ∈ r, key < a.1) :
    (l ++ r).orderedInsert (fun a b => a.1 < b.1) (key, rid) = l ++ (key, rid) :: r := by
  induction l with
  | nil =>
    cases r with
    | nil => rfl
    | cons b r => simp [hr b (by simp)]
  | cons b l ih =>
    rw [List.forall_mem_cons] at hl
    simp [not_lt.mpr hl.1, ih hl.2]

theorem map_dec_int {β : Type} (l : List (Int × β)) : l.map KeyOrder.int.dec = l :=
  (List.map_congr_left fun _ _ => rfl).trans (List.map_id l)

theorem hits_int (key : Int) (rid : RID) (a : Int × RID) :
    hits KeyOrder.int key rid a = decide (a = (key, rid)) := by
  simp only [hits, decide_eq_decide, Prod.ext_iff]
  exact Iff.rfl

theorem exists_hits_int {key : Int} {rid : RID} :
    (∃ a ∈ L, hits KeyOrder.int key rid a) ↔ (key, rid) ∈ L := by
  simp [hits_int]

theorem eraseP_hits_int (key : Int) (rid : RID) :
    L.eraseP (hits KeyOrder.int key rid) = L.erase (key, rid) := by
  rw [List.erase_eq_eraseP]
  congr 1
  funext a
  rw [hits_int, beq_eq_decide, decide_eq_decide, eq_comm]

/-- A key that could be inserted is in the signed 64-bit range. -/
theorem Represents.inRange {height : Nat → Option Nat} {key : Int} {rid : RID}
    (hr : Represents height root s L)
    (hrun : BPlusTree.insert KeyType.int unique root key rid s = .ok root' s') :
    -2 ^ 63 ≤ key ∧ key < 2 ^ 63 := by
  obtain ⟨level, ht, -⟩ := hr
  have hx : KeyOrder.int.Comparable key := trivial
  obtain ⟨⟨raw, hraw⟩, -⟩ := ht.insert_ok_fits hx hrun
  by_contra hkey
  have hfail : KeyType.int.encodeKey key = .error .structError := if_neg hkey
  rw [hfail] at hraw
  cases hraw

/-- One call on a tree: it returns what it should and leaves a tree for the list it
    should. The only new leaf is on the first page that an insertion is handed. -/
theorem Represents.call {height : Nat → Option Nat} {call : Call} {out : Option Bool}
    (hr : Represents height root s L) (hrun : call.exec unique root s = .ok (out, root') s') :
    out = (call.spec L).1 ∧ ∃ height', Represents height' root' s' (call.spec L).2 ∧
      ∀ x, height' x = some 0 →
        height x = some 0 ∨ (∃ key rid, call = .insert key rid) ∧ x = s.length := by
  have hr' := hr
  obtain ⟨level, ht, rfl⟩ := hr
  cases call with
  | insert key rid =>
    obtain ⟨root₁, s₁, hins, hret⟩ := run_bind_eq_ok.mp hrun
    cases hret
    have hrange : KeyOrder.int.Stored key := hr'.inRange hins
    obtain ⟨l, r, heq, hl, hr, height', level', -, hfresh, ht', hent⟩ := ht.insert_spec hrange hins
    refine ⟨rfl, height', ⟨level', ht', ?_⟩, fun x hx => ?_⟩
    · rw [hent, heq]
      exact (orderedInsert_cut hl hr).symm
    · exact (hfresh x hx).imp_right fun h => ⟨⟨key, rid, rfl⟩, h⟩
  | delete key rid =>
    obtain ⟨⟨found, root₁⟩, s₁, hdel, hret⟩ := run_bind_eq_ok.mp hrun
    cases hret
    have hx : KeyOrder.int.Comparable key := trivial
    by_cases hmem : (key, rid) ∈ entries s level
    · obtain ⟨hfail, hok⟩ := ht.delete_present hx (exists_hits_int.mpr hmem)
      by_cases hover : DeleteOverflows KeyOrder.int s root key rid
      · obtain ⟨s₂, hrun₂⟩ := hfail hover
        rw [hrun₂] at hdel
        cases hdel
      · obtain ⟨root₂, s₂, hrun₂, -, level', ht', hent⟩ := hok hover
        rw [hrun₂] at hdel
        cases hdel
        refine ⟨by simp [Call.spec, hmem], height, ⟨level', ht', ?_⟩, fun x hx => .inl hx⟩
        rw [hent, eraseP_hits_int]
        rfl
    · have habsent := (ht.delete_absent hx (mt exists_hits_int.mp hmem)).2
      rw [habsent] at hdel
      cases hdel
      refine ⟨by simp [Call.spec, hmem], height, ⟨level, ht, ?_⟩, fun x hx => .inl hx⟩
      exact (List.erase_of_not_mem hmem).symm

/-! ## A sorted multimap -/

/-- The next page the file hands out does not get the id that means "no page". -/
def NextPageValid (s : PageFile Int τ) : Prop := s.length ≠ invalidPageId

instance (s : PageFile Int τ) : Decidable (NextPageValid s) := inferInstanceAs (Decidable (_ ≠ _))

/-- Only an insertion takes pages from the file. -/
def TakesValidPage (s : PageFile Int τ) (_root : Nat) : Call → Prop
  | .insert .. => NextPageValid s
  | .delete .. => True

theorem Run.represents {allowed : PageFile Int τ → Nat → Call → Prop} {start : PageFile Int τ → Prop}
    (h : Run unique start allowed root s L) : ∃ height, Represents height root s L := by
  induction h with
  | create _ hrun => exact ⟨_, (represents_create hrun).1⟩
  | call call _ _ _ hrun ih =>
    obtain ⟨height, hr⟩ := ih
    obtain ⟨-, height', hr', -⟩ := hr.call hrun
    exact ⟨height', hr'⟩

theorem Run.leaves_valid (h : Run unique NextPageValid TakesValidPage root s L) :
    ∃ height, Represents height root s L ∧ ∀ x, height x = some 0 → x ≠ invalidPageId := by
  induction h with
  | @create s _ _ hstart hrun =>
    refine ⟨_, (represents_create hrun).1, fun x hx => ?_⟩
    by_cases hxs : x = s.length
    · exact hxs ▸ hstart
    · simp [Function.update_of_ne hxs] at hx
  | call call _ _ hallowed hrun ih =>
    obtain ⟨height, hr, hvalid⟩ := ih
    obtain ⟨-, height', hr', hfresh⟩ := hr.call hrun
    refine ⟨height', hr', fun x hx => ?_⟩
    obtain hx | ⟨⟨key, rid, rfl⟩, rfl⟩ := hfresh x hx
    · exact hvalid x hx
    · exact hallowed

/-- In every state, scans and searches give the pairs of the list in its order, and
    the next call returns what it should. -/
theorem Run.sortedMultimap (h : Run unique NextPageValid TakesValidPage root s L) :
    (∀ start stop, rangeScan KeyType.int root start stop s =
      .ok (L.filter fun a => start.all (· ≤ a.1) && stop.all (a.1 ≤ ·)) s) ∧
    (∀ key, search KeyType.int root key s = .ok ((L.filter (·.1 = key)).map (·.2)) s) ∧
    ∀ (call : Call) out root' s', call.InRange →
      call.exec unique root s = .ok (out, root') s' → out = (call.spec L).1 := by
  obtain ⟨height, hr, hvalid⟩ := h.leaves_valid
  refine ⟨fun start stop => ?_, fun key => ?_, fun call out root' s' _ hrun => ?_⟩
  · obtain ⟨level, ht, rfl⟩ := hr
    have hne : invalidPageId ∉ nodes level := fun hmem =>
      hvalid _ (ht.tower.toLevel.height_eq _ hmem) rfl
    rw [ht.rangeScan_eq hne (fun _ _ => trivial) fun _ _ => trivial, map_dec_int]
    rfl
  · obtain ⟨level, ht, rfl⟩ := hr
    exact ht.search_eq trivial
  · exact (hr.call hrun).1

theorem Run.sortedMultimap_singleton :
    Run false NextPageValid TakesValidPage 0
      ([.leaf [(5, ⟨0, 0⟩)] invalidPageId] : PageFile Int Unit) [(5, ⟨0, 0⟩)] ∧
    search KeyType.int 0 5 ([.leaf [(5, ⟨0, 0⟩)] invalidPageId] : PageFile Int Unit) =
      .ok [⟨0, 0⟩] [.leaf [(5, ⟨0, 0⟩)] invalidPageId] := by
  have h : Run false NextPageValid TakesValidPage 0
      ([.leaf [(5, ⟨0, 0⟩)] invalidPageId] : PageFile Int Unit) [(5, ⟨0, 0⟩)] :=
    .call (.insert 5 ⟨0, 0⟩) (.create (s := []) (by decide) rfl) (by decide)
      (by decide : NextPageValid _) rfl
  exact ⟨h, h.sortedMultimap.2.1 5⟩

/-- Insertion at the end of a leaf that is the whole tree. -/
theorem insert_leaf_append {es : List (Int × RID)} {nx : Nat} {key : Int} {rid : RID}
    (hpage : s[root]? = some (.leaf es nx)) (hfits : LeafFits KeyOrder.int (es ++ [(key, rid)]) nx)
    (hlen : (es ++ [(key, rid)]).length ≤ maxLeafKeys KeyType.int) (hle : ∀ a ∈ es, a.1 ≤ key) :
    BPlusTree.insert KeyType.int false root key rid s =
      .ok root (s.set root (.leaf (es ++ [(key, rid)]) nx)) := by
  have hpath : findLeafPath KeyType.int root key s = .ok [root] s := by
    change findLeafPathFrom KeyType.int key (s.length + 1) root [root] s = _
    rw [findLeafPathFrom, run_bind_ok (fetchPage_eq hpage)]
    rfl
  have hst : ∀ a ∈ es, KeyOrder.int.Stored a.1 := fun a ha => hfits.stored a (by simp [ha])
  have hread : readLeaf KeyType.int (.leaf es nx : Page Int τ) = .ok (es, nx) := by
    rw [readLeaf_eq hst, map_dec_int]
  have hpos : bisectRight KeyType.int (es.map (·.1)) key = .ok es.length := by
    have := bisectRight_eq (O := KeyOrder.int) (x := key) (l := es.map (·.1)) (r := []) trivial
      (by simpa using hst)
      (fun e he => by
        obtain ⟨a, ha, rfl⟩ := List.mem_map.mp he
        exact hle a ha)
      (by simp)
    simpa [KeyOrder.int] using this
  have hins : pyInsert es es.length (key, rid) = es ++ [(key, rid)] := by
    simpa using pyInsert_append es [] (key, rid)
  have hdup : duplicates KeyType.int false root key s = .ok [] s := rfl
  have hlast : [root].getLastD root = root := rfl
  rw [BPlusTree.insert, run_bind_ok hdup, if_neg (by simp), run_bind_ok hpath, hlast]
  dsimp only
  rw [run_bind_ok (fetchPage_eq hpage), hread, run_bind_ok (PageM.lift_ok _ _)]
  dsimp only
  rw [hpos, run_bind_ok (PageM.lift_ok _ _), hins, if_pos hlen,
    run_bind_ok (writeLeaf_eq hfits hlen (map_dec_int _).symm s)]
  rfl

/-- A tree that is made on the page whose id means "no page", and takes one pair. -/
theorem run_invalidRoot : ∃ s : PageFile Int Unit,
    Run false (· = List.replicate invalidPageId .zero) (fun _ _ _ => True) invalidPageId s
        [(1, ⟨0, 0⟩)] ∧
      s[invalidPageId]? = some (.leaf [(1, ⟨0, 0⟩)] invalidPageId) := by
  obtain ⟨s, hs⟩ : ∃ s : PageFile Int Unit, s = List.replicate invalidPageId .zero := ⟨_, rfl⟩
  have hlen : s.length = invalidPageId := by rw [hs, List.length_replicate]
  have hcreate := create_eq KeyOrder.int s
  rw [hlen] at hcreate
  have hpage : (s ++ [Page.leaf [] invalidPageId])[invalidPageId]? =
      some (.leaf [] invalidPageId) := by
    simp [← hlen]
  have hfits : LeafFits KeyOrder.int ([] ++ [(1, ⟨0, 0⟩)]) invalidPageId :=
    ⟨by simp [KeyOrder.int], by simp [ridFits], by decide⟩
  have hins := insert_leaf_append hpage hfits (by decide) (by simp)
  have hset : ∀ page : Page Int Unit,
      (s ++ [Page.leaf [] invalidPageId]).set invalidPageId page = s ++ [page] := by
    simp [← hlen]
  rw [hset, List.nil_append] at hins
  refine ⟨s ++ [.leaf [(1, ⟨0, 0⟩)] invalidPageId], ?_, by simp [← hlen]⟩
  exact .call (.insert 1 ⟨0, 0⟩) (.create (s := s) hs hcreate) (by decide) trivial (run_bind_ok hins)

theorem leftmostLeaf_leaf {es : List (Int × RID)} {nx : Nat} (hpage : s[root]? = some (.leaf es nx)) :
    leftmostLeaf KeyType.int root s = .ok root s := by
  change leftmostLeafFrom KeyType.int (_ + 1) root _ = _
  rw [leftmostLeafFrom, run_bind_ok (fetchPage_eq hpage)]
  rfl

/-- A root leaf on the page whose id means "no page": what is inserted is never
    scanned. -/
theorem rangeScan_misses : ∃ s : PageFile Int Unit,
    Run false (· = List.replicate invalidPageId .zero) (fun _ _ _ => True) invalidPageId s
        [(1, ⟨0, 0⟩)] ∧
      rangeScan KeyType.int invalidPageId none none s = .ok [] s := by
  obtain ⟨s, hrun, hpage⟩ := run_invalidRoot
  refine ⟨s, hrun, ?_⟩
  have hend : ∀ (fuel : Nat) (s : PageFile Int Unit),
      rangeScanFrom KeyType.int none none (fuel + 1) invalidPageId s = .ok [] s := fun _ _ => rfl
  rw [rangeScan, firstLeaf, run_bind_ok (leftmostLeaf_leaf hpage)]
  exact hend s.length _

end Minirel.BPlusTree
