-- SUMMARY: What opening, inserting and overwriting do to the chain of a heap file.
import Minirel.Storage.HeapFile

/-!
# Operations on a chain

The database never frees a slot, so every slot of its pages is taken and a new tuple goes
behind all others of the last page.
-/

namespace Minirel

namespace HeapFile

variable {ε τ : Type} {s s' : PageFile ε τ}

/-- A page without free slots, whose slot directory ends before its tuples begin. -/
structure Packed (page : HeapPage τ) : Prop where
  taken : ∀ slot ∈ page.slots, slot ≠ none
  directory : slotOffset page.slots.length ≤ page.freePtr
  freePtr_le : page.freePtr ≤ pageSize

theorem Packed.initHeapPage : Packed (initHeapPage : HeapPage τ) :=
  ⟨by simp [HeapFile.initHeapPage], (by decide : slotOffset 0 ≤ pageSize), le_rfl⟩

/-- A slot number fits its two bytes. -/
theorem Packed.length_lt {page : HeapPage τ} (h : Packed page) : page.slots.length < 2 ^ 16 := by
  have h₁ := h.directory
  have h₂ := h.freePtr_le
  have h₃ : pageSize = 4096 := rfl
  simp only [slotOffset, headerSize, slotSize] at h₁
  omega

/-! ## Chains that share their beginning -/

/-- Another end for a chain. -/
theorem Chain.replace_end {first p : Nat} {page : HeapPage τ} {before after : List (Nat × HeapPage τ)}
    {rest : List (Nat × HeapPage τ)} (h : Chain s first (before ++ (p, page) :: after))
    (hsame : ∀ x ∈ before, s'[x.1]? = s[x.1]?) (hrest : Chain s' p rest) :
    Chain s' first (before ++ rest) := by
  induction before generalizing first with
  | nil => exact h.1 ▸ hrest
  | cons x before ih =>
    rw [List.forall_mem_cons] at hsame
    obtain ⟨q, page'⟩ := x
    obtain ⟨rfl, hne, hpage, hnext⟩ := h
    refine ⟨rfl, hne, ?_, ih hnext hsame.2⟩
    rw [pageAt, hsame.1]
    exact hpage

theorem Chain.congr {first : Nat} {chain : List (Nat × HeapPage τ)} (h : Chain s first chain)
    (hsame : ∀ x ∈ chain, s'[x.1]? = s[x.1]?) : Chain s' first chain := by
  induction chain generalizing first with
  | nil => exact h
  | cons x chain ih =>
    rw [List.forall_mem_cons] at hsame
    obtain ⟨rfl, hne, hpage, hnext⟩ := h
    refine ⟨rfl, hne, ?_, ih hnext hsame.2⟩
    rw [pageAt, hsame.1]
    exact hpage

theorem Chain.lt_length {first : Nat} {chain : List (Nat × HeapPage τ)} (h : Chain s first chain)
    {x : Nat × HeapPage τ} (hx : x ∈ chain) : x.1 < s.length := by
  obtain ⟨raw, hraw, -⟩ := pageAt_eq_some.mp (h.of_mem hx).2
  exact (List.getElem?_eq_some_iff.mp hraw).1

/-- The last page of a chain ends it. -/
theorem Chain.last {first p : Nat} {page : HeapPage τ} {before : List (Nat × HeapPage τ)}
    (h : Chain s first (before ++ [(p, page)])) : page.nextPage = invalidPageId :=
  h.suffix.2.2.2

theorem pageAt_set_self {p : Nat} {page : HeapPage τ} (h : p < s.length) :
    pageAt (s.set p (.heap page)) p = some page := by
  simp [pageAt, h, readHeap, Except.toOption]

/-! ## Opening -/

theorem findLastPageFrom_eq {first fuel p : Nat} {seen : List Nat} {page : HeapPage τ}
    {before : List (Nat × HeapPage τ)} (h : Chain s first (before ++ [(p, page)]))
    (hfuel : before.length < fuel)
    (hseen : ∀ x ∈ (before ++ [(p, page)]).tail, x.1 ∉ seen) :
    findLastPageFrom fuel seen first s = .ok p s := by
  induction before generalizing first fuel seen with
  | nil =>
    obtain ⟨fuel, rfl⟩ : ∃ n, fuel = n + 1 := Nat.exists_eq_succ_of_ne_zero (by omega)
    obtain ⟨rfl, -, hpage, hnext⟩ := h
    have hend : page.nextPage = invalidPageId := hnext
    rw [findLastPageFrom, run_bind_ok (fetchHeap_eq hpage), if_pos hend]
    rfl
  | cons x before ih =>
    obtain ⟨fuel, rfl⟩ : ∃ n, fuel = n + 1 := Nat.exists_eq_succ_of_ne_zero (by omega)
    obtain ⟨rfl, -, hpage, hnext⟩ := h
    change Chain s _ (before ++ [(p, page)]) at hnext
    rw [List.cons_append, List.tail_cons] at hseen
    have hnodup := hnext.nodup
    cases hrest : before ++ [(p, page)] with
    | nil => simp at hrest
    | cons y rest =>
      rw [hrest] at hnext hseen hnodup
      have hnext' := hnext
      obtain ⟨hfirst, hne, -⟩ := hnext
      rw [List.forall_mem_cons] at hseen
      rw [List.map_cons, List.nodup_cons] at hnodup
      rw [findLastPageFrom, run_bind_ok (fetchHeap_eq hpage), if_neg (hfirst ▸ hne),
        if_neg (hfirst ▸ hseen.1)]
      refine ih (hrest ▸ hnext') (by simpa using hfuel) fun z hz => ?_
      rw [hrest, List.tail_cons] at hz
      rw [List.mem_cons, not_or, hfirst]
      exact ⟨fun heq => hnodup.1 (heq ▸ List.mem_map.mpr ⟨z, hz, rfl⟩), hseen.2 z hz⟩

/-- Opening finds the last page. -/
theorem openAt_eq {first p : Nat} {page : HeapPage τ} {before : List (Nat × HeapPage τ)}
    (h : Chain s first (before ++ [(p, page)])) : openAt first s = .ok ⟨first, p⟩ s := by
  have hlast : findLastPage first s = .ok p s := by
    refine findLastPageFrom_eq h ?_ ?_
    · have hsub : (before ++ [(p, page)]).map (·.1) ⊆ List.range s.length := by
        intro q hq
        obtain ⟨x, hx, rfl⟩ := List.mem_map.mp hq
        exact List.mem_range.mpr (h.lt_length hx)
      have hle := (h.nodup.subperm hsub).length_le
      simp only [List.length_map, List.length_append, List.length_range] at hle
      omega
    · intro x hx hmem
      have hnodup := h.nodup
      cases hc : before ++ [(p, page)] with
      | nil => simp at hc
      | cons y rest =>
        rw [hc] at hx hnodup h
        obtain rfl := List.mem_singleton.mp hmem
        rw [List.map_cons, List.nodup_cons] at hnodup
        exact hnodup.1 (h.1 ▸ List.mem_map.mpr ⟨x, hx, rfl⟩)
  rw [openAt, run_bind_ok hlast]
  rfl

/-! ## Tuples -/

theorem tuples_append (l₁ l₂ : List (Nat × HeapPage τ)) :
    tuples (l₁ ++ l₂) = tuples l₁ ++ tuples l₂ := List.flatMap_append

theorem tuples_singleton (p : Nat) (page : HeapPage τ) : tuples [(p, page)] = live p page.slots := by
  simp [tuples]

theorem live_snoc (p : Nat) (slots : List (Option τ)) (row : τ) :
    live p (slots ++ [some row]) = live p slots ++ [(⟨p, slots.length⟩, row)] := by
  simp [live, List.zipIdx_append]

/-- A page of the chain with room for the row and its slot. -/
def Fits (size : τ → Nat) (row : τ) (page : HeapPage τ) : Prop :=
  slotOffset page.slots.length + slotSize + size row ≤ page.freePtr

/-- A page with one more tuple. -/
def addTuple (size : τ → Nat) (row : τ) (page : HeapPage τ) : HeapPage τ :=
  { page with slots := page.slots ++ [some row], freePtr := page.freePtr - size row }

theorem Packed.addTuple {size : τ → Nat} {row : τ} {page : HeapPage τ} (h : Packed page)
    (hfits : Fits size row page) : Packed (addTuple size row page) where
  taken slot hslot := by
    obtain hslot | hslot := List.mem_append.mp hslot
    · exact h.taken slot hslot
    · simp [List.mem_singleton.mp hslot]
  directory := by
    have := hfits
    simp only [HeapFile.addTuple, Fits, slotOffset, slotSize, List.length_append,
      List.length_singleton] at this ⊢
    omega
  freePtr_le := (Nat.sub_le _ _).trans h.freePtr_le

theorem insertFrom_fits {size : τ → Nat} {row : τ} {page : HeapPage τ} {h : HeapFile} {fuel : Nat}
    (hpage : pageAt s h.lastPageId = some page) (hpacked : Packed page)
    (hfits : Fits size row page) :
    insertFrom size row (fuel + 1) h s =
      .ok (⟨h.lastPageId, page.slots.length⟩, h)
        (s.set h.lastPageId (.heap (addTuple size row page))) := by
  have hreuse : page.slots.findIdx? (·.isNone) = none := by
    rw [List.findIdx?_eq_none_iff]
    intro slot hslot
    cases slot with
    | none => exact absurd rfl (hpacked.taken _ hslot)
    | some t => rfl
  rw [insertFrom, run_bind_ok (fetchHeap_eq hpage)]
  simp only [hreuse, Option.isSome_none, Bool.false_eq_true, if_false]
  rw [if_neg (not_lt.mpr hfits)]
  rfl

theorem fits_initHeapPage {size : τ → Nat} {row : τ}
    (h : headerSize + slotSize + size row ≤ pageSize) : Fits size row initHeapPage := by
  simpa [Fits, initHeapPage, slotOffset] using h

theorem insertFrom_full {size : τ → Nat} {row : τ} {page : HeapPage τ} {h : HeapFile} {fuel : Nat}
    (hpage : pageAt s h.lastPageId = some page) (hpacked : Packed page)
    (hfits : ¬Fits size row page) (hlen : s.length < 2 ^ 32) :
    insertFrom size row (fuel + 1) h s =
      insertFrom size row fuel { h with lastPageId := s.length }
        ((s ++ [Page.heap initHeapPage]).set h.lastPageId
          (.heap { page with nextPage := s.length })) := by
  have hreuse : page.slots.findIdx? (·.isNone) = none := by
    rw [List.findIdx?_eq_none_iff]
    intro slot hslot
    cases slot with
    | none => exact absurd rfl (hpacked.taken _ hslot)
    | some t => rfl
  have hwrite : (writeHeap s.length initHeapPage : PageM ε τ Unit) (s ++ [.zero]) =
      .ok () (s ++ [Page.heap initHeapPage]) := by
    simp [writeHeap]
  rw [insertFrom, run_bind_ok (fetchHeap_eq hpage)]
  simp only [hreuse, Option.isSome_none, Bool.false_eq_true, if_false]
  rw [if_pos (not_le.mp hfits), run_bind_ok (newPage_apply s), run_bind_ok hwrite, linkPage,
    if_pos hlen]
  rfl

/-! ## A heap with its tuples -/

/-- The heap from `first` to `last` holds these tuples, all on pages `own`. -/
def Holds (own : Nat → Prop) (s : PageFile ε τ) (first last : Nat) (ts : List (RID × τ)) : Prop :=
  ∃ before page, Chain s first (before ++ [(last, page)]) ∧
    (∀ x ∈ before ++ [(last, page)], own x.1 ∧ Packed x.2) ∧
    tuples (before ++ [(last, page)]) = ts

section Holds
variable {own own' : Nat → Prop} {first last : Nat} {ts : List (RID × τ)}

theorem Holds.openAt (h : Holds own s first last ts) : openAt first s = .ok ⟨first, last⟩ s := by
  obtain ⟨before, page, hchain, -, -⟩ := h
  exact openAt_eq hchain

theorem Holds.scan (h : Holds own s first last ts) (lastPageId : Nat) :
    scan ⟨first, lastPageId⟩ s = .ok ts s := by
  obtain ⟨before, page, hchain, -, rfl⟩ := h
  exact scan_eq_ok.mpr ⟨rfl, _, hchain, rfl⟩

theorem Holds.get (h : Holds own s first last ts) {x : RID × τ} (hx : x ∈ ts) :
    get x.1 s = .ok (some x.2) s := by
  obtain ⟨before, page, hchain, -, rfl⟩ := h
  exact get_of_mem hchain hx

theorem Holds.nodup (h : Holds own s first last ts) : (ts.map (·.1)).Nodup := by
  obtain ⟨before, page, hchain, -, rfl⟩ := h
  exact hchain.nodup_tuples

theorem Holds.congr (h : Holds own s first last ts) (hsame : ∀ p, own p → s'[p]? = s[p]?) :
    Holds own s' first last ts := by
  obtain ⟨before, page, hchain, hown, hts⟩ := h
  exact ⟨before, page, hchain.congr fun x hx => hsame x.1 (hown x hx).1, hown, hts⟩

/-- The place of a tuple fits into an index entry. -/
theorem Holds.rid_lt (h : Holds own s first last ts) {x : RID × τ} (hx : x ∈ ts) :
    x.1.pageId < s.length ∧ x.1.slotId < 2 ^ 16 := by
  obtain ⟨before, page, hchain, hown, rfl⟩ := h
  obtain ⟨page', hpage', hslot⟩ := mem_tuples.mp hx
  exact ⟨hchain.lt_length hpage',
    (List.getElem?_eq_some_iff.mp hslot).1.trans (hown _ hpage').2.length_lt⟩

/-- An empty heap on a page of its own. -/
theorem Holds.create (s : PageFile ε τ) (hlen : s.length < invalidPageId) :
    (HeapFile.create : PageM ε τ HeapFile) s =
        .ok ⟨s.length, s.length⟩ (s ++ [.heap initHeapPage]) ∧
      Holds (fun p => p = s.length) (s ++ [.heap initHeapPage]) s.length s.length [] := by
  have hpage : pageAt (s ++ [Page.heap initHeapPage]) s.length = some initHeapPage := by
    simp [pageAt, readHeap, Except.toOption]
  have hchain : Chain (s ++ [.heap initHeapPage]) s.length ([] ++ [(s.length, initHeapPage)]) :=
    ⟨rfl, hlen.ne, hpage, rfl⟩
  have hwrite : (writeHeap s.length initHeapPage : PageM ε τ Unit) (s ++ [.zero]) =
      .ok () (s ++ [Page.heap initHeapPage]) := by
    simp [writeHeap]
  refine ⟨?_, [], _, hchain, ?_, ?_⟩
  · rw [HeapFile.create, run_bind_ok (newPage_apply s), run_bind_ok hwrite, openAt_eq hchain]
  · simpa using Packed.initHeapPage
  · rfl

/-- A tuple goes behind the others, on the last page or on a new one. -/
theorem Holds.insert {size : τ → Nat} {row : τ} (h : Holds own s first last ts)
    (hown : ∀ p, own p → p < s.length) (hsize : headerSize + slotSize + size row ≤ pageSize)
    (hlen : s.length < invalidPageId) :
    ∃ rid last' s', insert size row ⟨first, last⟩ s = .ok (rid, ⟨first, last'⟩) s' ∧
      Stays own s s' ∧ Holds (claimed own s s') s' first last' (ts ++ [(rid, row)]) := by
  obtain ⟨before, page, hchain, hpages, rfl⟩ := h
  obtain ⟨hlastOwn, hpacked⟩ := hpages (last, page) (by simp)
  have hlast := hown last hlastOwn
  have hmem : (last, page) ∈ before ++ [(last, page)] := by simp
  obtain ⟨hvalid, hpage⟩ := hchain.of_mem hmem
  have hbefore : ∀ x ∈ before, x.1 ≠ last := by
    intro x hx heq
    have hnodup := hchain.nodup
    rw [List.map_append, List.nodup_append] at hnodup
    exact hnodup.2.2 x.1 (List.mem_map.mpr ⟨x, hx, rfl⟩) last (by simp) heq
  have hend := hchain.last
  have hrun : HeapFile.insert size row ⟨first, last⟩ s = insertFrom size row 2 ⟨first, last⟩ s := by
    rw [HeapFile.insert, if_neg (not_lt.mpr hsize)]
  rw [hrun]
  by_cases hfits : Fits size row page
  · refine ⟨_, last, _, insertFrom_fits hpage hpacked hfits, ⟨by simp, fun p _ hp => ?_⟩, before,
      addTuple size row page, ?_, ?_, ?_⟩
    · have hne : last ≠ p := fun heq => hp (heq ▸ hlastOwn)
      exact List.getElem?_set_ne hne
    · refine hchain.replace_end (fun x hx => List.getElem?_set_ne (hbefore x hx).symm) ?_
      exact ⟨rfl, hvalid, pageAt_set_self hlast, hend⟩
    · intro x hx
      obtain hx | hx := List.mem_append.mp hx
      · exact (hpages x (List.mem_append_left _ hx)).imp .inl id
      · obtain rfl := List.mem_singleton.mp hx
        exact ⟨.inl hlastOwn, hpacked.addTuple hfits⟩
    · rw [tuples_append, tuples_append, tuples_singleton, tuples_singleton, List.append_assoc]
      exact congrArg _ (live_snoc last page.slots row)
  · -- the last page is full: it is linked to a new one
    have hne : last ≠ s.length := hlast.ne
    have hlen' : s.length < 2 ^ 32 := hlen.trans (by decide)
    rw [insertFrom_full hpage hpacked hfits hlen']
    generalize hs₁ : (s ++ [Page.heap initHeapPage]).set last
      (.heap { page with nextPage := s.length }) = s₁
    have hlen₁ : s₁.length = s.length + 1 := by simp [← hs₁]
    have hnew : pageAt s₁ s.length = some initHeapPage := by
      rw [← hs₁, pageAt, List.getElem?_set_ne hne]
      simp [readHeap, Except.toOption]
    have hlinked : pageAt s₁ last = some { page with nextPage := s.length } := by
      rw [← hs₁]
      exact pageAt_set_self (by simp; omega)
    refine ⟨_, s.length, _, insertFrom_fits hnew .initHeapPage (fits_initHeapPage hsize),
      ⟨?_, fun p hlt hp => ?_⟩, before ++ [(last, { page with nextPage := s.length })],
      addTuple size row initHeapPage, ?_, ?_, ?_⟩
    · rw [List.length_set, hlen₁]
      exact Nat.le_succ _
    · have hnep : last ≠ p := fun heq => hp (heq ▸ hlastOwn)
      rw [List.getElem?_set_ne hlt.ne', ← hs₁, List.getElem?_set_ne hnep,
        List.getElem?_append_left hlt]
    · rw [List.append_assoc]
      refine hchain.replace_end (fun x hx => ?_) ⟨rfl, hvalid, ?_, rfl, hlen.ne, ?_, rfl⟩
      · have hx' := hchain.lt_length (List.mem_append_left _ hx)
        rw [List.getElem?_set_ne hx'.ne', ← hs₁, List.getElem?_set_ne (hbefore x hx).symm,
          List.getElem?_append_left hx']
      · rw [pageAt, List.getElem?_set_ne hne.symm]
        exact hlinked
      · exact pageAt_set_self (hlen₁ ▸ Nat.lt_succ_self _)
    · intro x hx
      simp only [List.append_assoc, List.mem_append, List.cons_append, List.nil_append,
        List.mem_cons, List.not_mem_nil, or_false] at hx
      obtain hx | rfl | rfl := hx
      · exact (hpages x (List.mem_append_left _ hx)).imp .inl id
      · exact ⟨.inl hlastOwn, hpacked.taken, hpacked.directory, hpacked.freePtr_le⟩
      · refine ⟨.inr ⟨le_rfl, ?_⟩, Packed.initHeapPage.addTuple (fits_initHeapPage hsize)⟩
        rw [List.length_set, hlen₁]
        exact Nat.lt_succ_self _
    · rw [tuples_append, tuples_append, tuples_append, tuples_singleton, tuples_singleton,
        tuples_singleton]
      exact congrArg _ (live_snoc s.length [] row)

theorem insert_oversize {size : τ → Nat} {row : τ} (h : HeapFile)
    (hsize : ¬headerSize + slotSize + size row ≤ pageSize) :
    ∃ e, (HeapFile.insert size row h : PageM ε τ _) s = .error e s := by
  rw [HeapFile.insert, if_pos (not_le.mp hsize)]
  exact ⟨_, rfl⟩

/-! ## Overwriting -/

/-- The tuples with another one in the place of one of them. -/
def overwrite (ts : List (RID × τ)) (rid : RID) (new : τ) : List (RID × τ) :=
  ts.map fun x => if x.1 = rid then (rid, new) else x

theorem overwrite_of_ne {ts : List (RID × τ)} {rid : RID} {new : τ} (h : ∀ x ∈ ts, x.1 ≠ rid) :
    overwrite ts rid new = ts :=
  (List.map_congr_left fun x hx => if_neg (h x hx)).trans (List.map_id _)

/-- The tuples of the slots from number `n` on. -/
def liveFrom (p n : Nat) (slots : List (Option τ)) : List (RID × τ) :=
  (slots.zipIdx n).filterMap fun (slot, i) => slot.map fun t => (⟨p, i⟩, t)

theorem liveFrom_cons (p n : Nat) (slot : Option τ) (slots : List (Option τ)) :
    liveFrom p n (slot :: slots) =
      (slot.map fun t => ((⟨p, n⟩ : RID), t)).toList ++ liveFrom p (n + 1) slots := by
  cases slot <;> simp [liveFrom]

theorem le_of_mem_liveFrom {p n : Nat} {slots : List (Option τ)} {x : RID × τ}
    (hx : x ∈ liveFrom p n slots) : n ≤ x.1.slotId := by
  obtain ⟨⟨slot, i⟩, hmem, heq⟩ := List.mem_filterMap.mp hx
  obtain ⟨t, -, rfl⟩ := Option.map_eq_some_iff.mp heq
  exact List.le_snd_of_mem_zipIdx hmem

theorem liveFrom_set {p n i : Nat} {slots : List (Option τ)} {old : τ}
    (hold : slots[i]? = some (some old)) (new : τ) :
    liveFrom p n (slots.set i (some new)) = overwrite (liveFrom p n slots) ⟨p, n + i⟩ new := by
  induction slots generalizing n i with
  | nil => cases hold
  | cons slot slots ih =>
    cases i with
    | zero =>
      obtain rfl : slot = some old := Option.some.inj hold
      have hrest : overwrite (liveFrom p (n + 1) slots) ⟨p, n⟩ new = liveFrom p (n + 1) slots :=
        overwrite_of_ne fun x hx heq => by
          have := le_of_mem_liveFrom hx
          rw [heq] at this
          exact absurd this (by simp)
      rw [List.set_cons_zero, liveFrom_cons, liveFrom_cons, overwrite, List.map_append]
      exact congrArg₂ _ (by simp) hrest.symm
    | succ i =>
      have hfirst : overwrite (slot.map fun t => ((⟨p, n⟩ : RID), t)).toList ⟨p, n + (i + 1)⟩ new =
          (slot.map fun t => ((⟨p, n⟩ : RID), t)).toList :=
        overwrite_of_ne fun x hx heq => by
          obtain ⟨t, -, rfl⟩ := by simpa using hx
          simp at heq
      rw [List.set_cons_succ, liveFrom_cons, liveFrom_cons, ih hold, overwrite, overwrite,
        List.map_append]
      refine congrArg₂ _ hfirst.symm ?_
      rw [Nat.add_right_comm, Nat.add_assoc]

/-- The chain with another page in the place of one of them. -/
def replacePage (p : Nat) (page : HeapPage τ) (x : Nat × HeapPage τ) : Nat × HeapPage τ :=
  if x.1 = p then (p, page) else x

theorem replacePage_fst (p : Nat) (page : HeapPage τ) (x : Nat × HeapPage τ) :
    (replacePage p page x).1 = x.1 := by
  unfold replacePage
  split
  · rename_i h
    exact h.symm
  · rfl

theorem Chain.replacePage {p : Nat} {page : HeapPage τ} {chain : List (Nat × HeapPage τ)}
    (h : Chain s first chain) (hp : p < s.length)
    (hnext : ∀ old, (p, old) ∈ chain → page.nextPage = old.nextPage) :
    Chain (s.set p (.heap page)) first (chain.map (replacePage p page)) := by
  induction chain generalizing first with
  | nil => exact h
  | cons x chain ih =>
    obtain ⟨q, old⟩ := x
    obtain ⟨rfl, hne, hold, hrest⟩ := h
    have ih := ih hrest fun old hmem => hnext old (List.mem_cons_of_mem _ hmem)
    rw [List.map_cons]
    by_cases hq : first = p
    · subst hq
      rw [HeapFile.replacePage, if_pos rfl]
      refine ⟨rfl, hne, pageAt_set_self hp, ?_⟩
      rw [hnext old List.mem_cons_self]
      exact ih
    · rw [HeapFile.replacePage, if_neg hq]
      refine ⟨rfl, hne, ?_, ih⟩
      rw [pageAt, List.getElem?_set_ne (Ne.symm hq)]
      exact hold

theorem tuples_replacePage {p i : Nat} {page : HeapPage τ} {chain : List (Nat × HeapPage τ)}
    {old : τ} (hpage : ∀ page', (p, page') ∈ chain → page' = page)
    (hold : page.slots[i]? = some (some old)) (new : τ) :
    tuples (chain.map (replacePage p { page with slots := page.slots.set i (some new) })) =
      overwrite (tuples chain) ⟨p, i⟩ new := by
  rw [tuples, tuples, overwrite, List.flatMap_map, List.map_flatMap]
  refine List.flatMap_congr fun x hx => ?_
  obtain ⟨q, page'⟩ := x
  by_cases hq : q = p
  · subst hq
    obtain rfl := hpage page' hx
    simp only [replacePage, if_true]
    have hset := liveFrom_set (p := q) (n := 0) hold new
    rwa [Nat.zero_add] at hset
  · simp only [replacePage, if_neg hq]
    refine (overwrite_of_ne fun y hy heq => hq ?_).symm
    exact ((mem_live.mp hy).1.symm.trans (congrArg RID.pageId heq))

/-- A tuple is overwritten where it stands by one of the same length. -/
theorem Holds.updateInPlace {size : τ → Nat} {rid : RID} {old new : τ}
    (h : Holds own s first last ts) (hmem : (rid, old) ∈ ts) (hsize : size old = size new) :
    ∃ s', updateInPlace size rid new s = .ok true s' ∧ s'.length = s.length ∧ Stays own s s' ∧
      Holds own s' first last (overwrite ts rid new) := by
  obtain ⟨before, lastPage, hchain, hpages, rfl⟩ := h
  obtain ⟨page, hin, hslot⟩ := mem_tuples.mp hmem
  obtain ⟨-, hpage⟩ := hchain.of_mem hin
  obtain ⟨hown, hpacked⟩ := hpages _ hin
  have hlt := hchain.lt_length hin
  generalize hpage' : ({ page with slots := page.slots.set rid.slotId (some new) } : HeapPage τ) =
    page'
  have hunique : ∀ page₁, (rid.pageId, page₁) ∈ before ++ [(last, lastPage)] → page₁ = page :=
    fun page₁ h₁ => Option.some.inj ((hchain.of_mem h₁).2.symm.trans hpage)
  have hpacked' : Packed page' := by
    rw [← hpage']
    refine ⟨fun slot hs => ?_, by simpa using hpacked.directory, hpacked.freePtr_le⟩
    obtain hs | rfl := List.mem_or_eq_of_mem_set hs
    · exact hpacked.taken slot hs
    · simp
  have hlastFst := replacePage_fst rid.pageId page' (last, lastPage)
  have hlastEq : replacePage rid.pageId page' (last, lastPage) =
      (last, (replacePage rid.pageId page' (last, lastPage)).2) := Prod.ext hlastFst rfl
  have hmap : (before ++ [(last, lastPage)]).map (replacePage rid.pageId page') =
      before.map (replacePage rid.pageId page') ++
        [(last, (replacePage rid.pageId page' (last, lastPage)).2)] := by
    rw [List.map_append, List.map_singleton, ← hlastEq]
  refine ⟨s.set rid.pageId (.heap page'), ?_, by simp, ⟨by simp, fun p _ hp => ?_⟩,
    before.map (replacePage rid.pageId page'),
    (replacePage rid.pageId page' (last, lastPage)).2, ?_, ?_, ?_⟩
  · rw [HeapFile.updateInPlace, run_bind_ok (fetchHeap_eq hpage)]
    simp only [hslot, Option.join_some, hsize, ne_eq, not_true_eq_false, if_false]
    rw [hpage']
    rfl
  · have hne : rid.pageId ≠ p := fun heq => hp (heq ▸ hown)
    exact List.getElem?_set_ne hne
  · rw [← hmap]
    exact hchain.replacePage hlt fun old hold => by rw [hunique old hold, ← hpage']
  · rw [← hmap]
    intro x hx
    obtain ⟨y, hy, rfl⟩ := List.mem_map.mp hx
    obtain ⟨hyown, hypacked⟩ := hpages y hy
    refine ⟨replacePage_fst rid.pageId page' y ▸ hyown, ?_⟩
    unfold replacePage
    split
    · exact hpacked'
    · exact hypacked
  · rw [← hmap, ← hpage']
    exact tuples_replacePage hunique hslot new

end Holds

end HeapFile
end Minirel
