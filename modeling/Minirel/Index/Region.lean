-- SUMMARY: The pages of a tree as a region of the page file, whatever order its keys are in.
import Minirel.Index.Progress

/-!
# The region of a tree

A tree of texts may lose its order, since its keys are cut when they are stored. What it
keeps is its region: a set of pages of its own that all its links stay in, so that an
insertion, even one that raises half-way, leaves every other page alone.
-/

namespace Minirel

variable {ε τ : Type}

/-- The links of a node stay among the pages `own`, and its entries lead to RIDs with `Q`. -/
def Linked (Q : RID → Prop) (own : Nat → Prop) : Page ε τ → Prop
  | .leaf entries nextLeaf => (∀ e ∈ entries, Q e.2) ∧ (nextLeaf = invalidPageId ∨ own nextLeaf)
  | .internal child rest => own child ∧ ∀ x ∈ rest, own x.2
  | .torn => True
  | .heap _ => False
  | .zero => False

/-- A set of pages that hold nodes and link to each other only. -/
structure Region (Q : RID → Prop) (own : Nat → Prop) (s : PageFile ε τ) : Prop where
  lt_length : ∀ p, own p → p < s.length
  node : ∀ p, own p → ∃ page, s[p]? = some page ∧ Linked Q own page

/-- The pages `own` have changed and some of the pages handed out have joined them. All
    other pages are as they were. -/
structure Grown (own own' : Nat → Prop) (s s' : PageFile ε τ) : Prop where
  mono : ∀ p, own p → own' p
  fresh : ∀ p, own' p → own p ∨ s.length ≤ p
  length_le : s.length ≤ s'.length
  same : ∀ p < s.length, ¬own p → s'[p]? = s[p]?

variable {Q Q' : RID → Prop} {own own' own₀ : Nat → Prop} {s s' s₀ : PageFile ε τ}

theorem Linked.mono {page : Page ε τ} (h : Linked Q own page) (hQ : ∀ rid, Q rid → Q' rid)
    (hown : ∀ p, own p → own' p) : Linked Q' own' page := by
  cases page with
  | zero => exact h
  | heap page => exact h
  | leaf entries nextLeaf => exact ⟨fun e he => hQ _ (h.1 e he), h.2.imp id (hown _)⟩
  | internal child rest => exact ⟨hown _ h.1, fun x hx => hown _ (h.2 x hx)⟩
  | torn => trivial

theorem Region.mono (h : Region Q own s) (hQ : ∀ rid, Q rid → Q' rid) : Region Q' own s where
  lt_length := h.lt_length
  node p hp := by
    obtain ⟨page, hpage, hlinked⟩ := h.node p hp
    exact ⟨page, hpage, hlinked.mono hQ fun _ hp => hp⟩

/-- A region is untouched where its pages are. -/
theorem Region.congr (h : Region Q own s) (hlen : s.length ≤ s'.length)
    (hsame : ∀ p, own p → s'[p]? = s[p]?) : Region Q own s' where
  lt_length p hp := (h.lt_length p hp).trans_le hlen
  node p hp := by
    obtain ⟨page, hpage, hlinked⟩ := h.node p hp
    exact ⟨page, (hsame p hp).trans hpage, hlinked⟩

namespace Grown

theorem refl (own : Nat → Prop) (s : PageFile ε τ) : Grown own own s s where
  mono _ hp := hp
  fresh _ hp := .inl hp
  length_le := le_rfl
  same _ _ _ := rfl

theorem newPage (h : Grown own₀ own s₀ s) (page : Page ε τ) : Grown own₀ own s₀ (s ++ [page]) where
  mono := h.mono
  fresh := h.fresh
  length_le := by
    rw [List.length_append]
    exact h.length_le.trans (Nat.le_add_right _ _)
  same p hp hnot := by
    rw [List.getElem?_append_left (hp.trans_le h.length_le), h.same p hp hnot]

theorem set {p : Nat} (h : Grown own₀ own s₀ s) (hp : own p ∨ s₀.length ≤ p) (page : Page ε τ) :
    Grown own₀ (fun x => own x ∨ x = p) s₀ (s.set p page) where
  mono x hx := .inl (h.mono x hx)
  fresh x hx := by
    obtain hx | rfl := hx
    · exact h.fresh x hx
    · exact hp.elim (h.fresh x) .inr
  length_le := by simpa using h.length_le
  same x hx hnot := by
    have hne : p ≠ x := by
      rintro rfl
      obtain hp | hp := hp.imp (h.fresh p) id
      · exact hp.elim hnot hx.not_ge
      · exact hx.not_ge hp
    rw [List.getElem?_set_ne hne, h.same x hx hnot]

end Grown

theorem Region.newPage (h : Region Q own s) (page : Page ε τ) : Region Q own (s ++ [page]) :=
  h.congr (by simp) fun p hp => List.getElem?_append_left (h.lt_length p hp)

theorem Region.set {p : Nat} {page : Page ε τ} (h : Region Q own s) (hp : p < s.length)
    (hpage : Linked Q (fun x => own x ∨ x = p) page) :
    Region Q (fun x => own x ∨ x = p) (s.set p page) where
  lt_length x hx := by
    rw [List.length_set]
    obtain hx | rfl := hx
    · exact h.lt_length x hx
    · exact hp
  node x hx := by
    by_cases hxp : x = p
    · subst hxp
      exact ⟨page, by simp [hp], hpage⟩
    · obtain ⟨old, hold, hlinked⟩ := h.node x (hx.resolve_right hxp)
      exact ⟨old, by rw [List.getElem?_set_ne (Ne.symm hxp), hold],
        hlinked.mono (fun _ h => h) fun _ h => .inl h⟩

/-- All pages handed out since `s₀` belong to `own`. -/
def Covers (own : Nat → Prop) (s₀ s : PageFile ε τ) : Prop :=
  ∀ p, s₀.length ≤ p → p < s.length → own p

theorem Covers.refl (own : Nat → Prop) (s : PageFile ε τ) : Covers own s s :=
  fun _ hle hlt => absurd (hle.trans_lt hlt) (lt_irrefl _)

theorem Covers.adding (hc : Covers own s₀ s) {p : Nat} : Covers (fun x => own x ∨ x = p) s₀ s :=
  fun q hle hlt => .inl (hc q hle hlt)

/-- The page that is handed out next. -/
theorem Covers.newPage (hc : Covers own s₀ s) {page : Page ε τ} :
    Covers (fun x => own x ∨ x = s.length) s₀ (s ++ [page]) := by
  intro q hle hlt
  rw [List.length_append, List.length_singleton] at hlt
  obtain hlt | heq := Nat.lt_succ_iff_lt_or_eq.mp hlt
  · exact .inl (hc q hle hlt)
  · exact .inr heq

theorem Grown.claimed_eq (hg : Grown own own' s s') (hr : Region Q own' s')
    (hc : Covers own' s s') : claimed own s s' = own' := by
  funext p
  refine propext ⟨?_, fun hp => ?_⟩
  · rintro (hp | ⟨hle, hlt⟩)
    · exact hg.mono p hp
    · exact hc p hle hlt
  · exact (hg.fresh p hp).imp id fun hle => ⟨hle, hr.lt_length p hp⟩

namespace BPlusTree

variable {κ : Type} {K : KeyType κ ε}

/-! ## Writing a node -/

theorem packPairs_snd {β : Type} {size : Nat} {fits : β → Bool} {l : List (κ × β)}
    {l' : List (ε × β)} {offset : Nat} (h : packPairs K size fits offset l = .ok l') :
    l'.map (·.2) = l.map (·.2) := by
  induction l generalizing l' offset with
  | nil =>
    cases h
    rfl
  | cons x l ih =>
    unfold packPairs at h
    obtain ⟨raw, -, h⟩ := bind_eq_ok.mp h
    dsimp only at h
    split at h
    · obtain ⟨rest, hrest, h⟩ := bind_eq_ok.mp h
      cases h
      rw [List.map_cons, List.map_cons, ih hrest]
    · cases h

/-- A leaf that is written, or torn, is linked when what goes into it is. -/
theorem wp_writeLeaf {p nx : Nat} {entries : List (κ × RID)} {P : PageFile ε τ → Prop}
    (hQ : ∀ e ∈ entries, Q e.2) (hnx : nx = invalidPageId ∨ own nx)
    (hP : ∀ page, Linked Q own page → P (s.set p page)) :
    wp (writeLeaf K p entries nx) (fun _ => P) (fun _ => P) s := by
  refine wp_putPage.mpr ⟨fun page hpage => ?_, fun _ _ => hP _ trivial⟩
  · split at hpage
    · obtain ⟨es, hes, hpage⟩ := bind_eq_ok.mp hpage
      cases hpage
      refine hP _ ⟨fun e he => ?_, hnx⟩
      have hmem : e.2 ∈ entries.map (·.2) := packPairs_snd hes ▸ List.mem_map.mpr ⟨e, he, rfl⟩
      obtain ⟨a, ha, heq⟩ := List.mem_map.mp hmem
      exact heq ▸ hQ a ha
    · cases hpage

theorem wp_writeInternal {p : Nat} {children : List Nat} {keys : List κ} {P : PageFile ε τ → Prop}
    (hchildren : ∀ x ∈ children, own x) (hP : ∀ page, Linked Q own page → P (s.set p page)) :
    wp (writeInternal K p children keys) (fun _ => P) (fun _ => P) s := by
  refine wp_putPage.mpr ⟨fun page hpage => ?_, fun _ _ => hP _ trivial⟩
  · obtain ⟨first, hfirst, hpage⟩ := bind_eq_ok.mp hpage
    split at hpage
    · obtain ⟨rest, hrest, hpage⟩ := bind_eq_ok.mp hpage
      cases hpage
      refine hP _ ⟨hchildren first (pyGet_mem hfirst), fun x hx => ?_⟩
      have hmem : x.2 ∈ (keys.zip (children.drop 1)).map (·.2) :=
        packPairs_snd hrest ▸ List.mem_map.mpr ⟨x, hx, rfl⟩
      obtain ⟨a, ha, heq⟩ := List.mem_map.mp hmem
      exact heq ▸ hchildren _ (List.mem_of_mem_drop (List.of_mem_zip ha).2)
    · cases hpage

/-! ## Reading a node -/

theorem mapM_snd {β : Type} {l : List (ε × β)} {l' : List (κ × β)}
    (h : (l.mapM fun (raw, x) => do return (← K.decodeKey raw, x)) = .ok l') :
    l'.map (·.2) = l.map (·.2) := by
  induction l generalizing l' with
  | nil =>
    cases h
    rfl
  | cons x l ih =>
    rw [List.mapM_cons] at h
    obtain ⟨y, hy, h⟩ := bind_eq_ok.mp h
    obtain ⟨ys, hys, h⟩ := bind_eq_ok.mp h
    cases h
    obtain ⟨k, -, hk⟩ := bind_eq_ok.mp hy
    cases hk
    rw [List.map_cons, List.map_cons, ih hys]

theorem readLeaf_linked {page : Page ε τ} {entries : List (κ × RID)} {nx : Nat}
    (h : Linked Q own page) (hread : readLeaf K page = .ok (entries, nx)) :
    (∀ e ∈ entries, Q e.2) ∧ (nx = invalidPageId ∨ own nx) := by
  cases page with
  | leaf es nx' =>
    obtain ⟨es', hes, heq⟩ := bind_eq_ok.mp hread
    cases heq
    refine ⟨fun e he => ?_, h.2⟩
    have hmem : e.2 ∈ es.map (·.2) := mapM_snd hes ▸ List.mem_map.mpr ⟨e, he, rfl⟩
    obtain ⟨a, ha, heq⟩ := List.mem_map.mp hmem
    exact heq ▸ h.1 a ha
  | zero => exact absurd h id
  | heap page => cases hread
  | internal child rest => cases hread
  | torn => cases hread

theorem readInternal_linked {page : Page ε τ} {children : List Nat} {keys : List κ}
    (h : Linked Q own page) (hread : readInternal K page = .ok (children, keys)) :
    ∀ x ∈ children, own x := by
  cases page with
  | internal child rest =>
    obtain ⟨keys', -, heq⟩ := bind_eq_ok.mp hread
    cases heq
    rw [List.forall_mem_cons, List.forall_mem_map]
    exact h
  | zero => exact absurd h id
  | heap page => cases hread
  | leaf es nx => cases hread
  | torn => cases hread

/-! ## Insertion -/

/-- What an operation on a tree leaves behind: its region, with the root in it. -/
structure InRegion (Q : RID → Prop) (own₀ : Nat → Prop) (s₀ : PageFile ε τ) (root : Nat)
    (s : PageFile ε τ) : Prop where
  stays : Stays own₀ s₀ s
  region : Region Q (claimed own₀ s₀ s) s
  root : claimed own₀ s₀ s root

theorem InRegion.intro {root : Nat} (hg : Grown own₀ own s₀ s) (hr : Region Q own s)
    (hc : Covers own s₀ s) (hroot : own root) : InRegion Q own₀ s₀ root s where
  stays := ⟨hg.length_le, hg.same⟩
  region := hg.claimed_eq hr hc ▸ hr
  root := (congrFun (hg.claimed_eq hr hc) root).mpr hroot

/-- An internal node is written to a page of the region, or to one that joins it. -/
theorem wp_writeInternal_kept {p : Nat} {children : List Nat} {keys : List κ}
    (hg : Grown own₀ own s₀ s) (hr : Region Q own s)
    (hc : Covers (fun x => own x ∨ x = p) s₀ s) (hp : own p ∨ s₀.length ≤ p)
    (hlt : p < s.length) (hchildren : ∀ x ∈ children, own x) :
    wp (writeInternal K p children keys)
      (fun _ s' => Grown own₀ (fun x => own x ∨ x = p) s₀ s' ∧
        Region Q (fun x => own x ∨ x = p) s' ∧ Covers (fun x => own x ∨ x = p) s₀ s')
      (fun _ s' => Grown own₀ (fun x => own x ∨ x = p) s₀ s' ∧
        Region Q (fun x => own x ∨ x = p) s' ∧ Covers (fun x => own x ∨ x = p) s₀ s') s := by
  have hchildren' : ∀ x ∈ children, own x ∨ x = p := fun x hx => .inl (hchildren x hx)
  exact wp_writeInternal hchildren' fun page hpage =>
    ⟨hg.set hp page, hr.set hlt hpage, fun q hle hq => hc q hle (by simpa using hq)⟩

theorem wp_writeLeaf_kept {p nx : Nat} {entries : List (κ × RID)}
    (hg : Grown own₀ own s₀ s) (hr : Region Q own s)
    (hc : Covers (fun x => own x ∨ x = p) s₀ s) (hp : own p ∨ s₀.length ≤ p)
    (hlt : p < s.length) (hQ : ∀ e ∈ entries, Q e.2) (hnx : nx = invalidPageId ∨ own nx) :
    wp (writeLeaf K p entries nx)
      (fun _ s' => Grown own₀ (fun x => own x ∨ x = p) s₀ s' ∧
        Region Q (fun x => own x ∨ x = p) s' ∧ Covers (fun x => own x ∨ x = p) s₀ s')
      (fun _ s' => Grown own₀ (fun x => own x ∨ x = p) s₀ s' ∧
        Region Q (fun x => own x ∨ x = p) s' ∧ Covers (fun x => own x ∨ x = p) s₀ s') s := by
  have hnx' : nx = invalidPageId ∨ own nx ∨ nx = p := hnx.imp id .inl
  refine wp_writeLeaf hQ ?_ fun page hpage =>
    ⟨hg.set hp page, hr.set hlt hpage, fun q hle hq => hc q hle (by simpa using hq)⟩
  exact hnx'

theorem wp_insertIntoParent {root left right : Nat} {path : List Nat} {k : κ}
    (hg : Grown own₀ own s₀ s) (hr : Region Q own s) (hc : Covers own s₀ s) (hroot : own root)
    (hpath : ∀ p ∈ path, own p) (hleft : own left) (hright : own right) :
    wp (insertIntoParent K root path left k right) (fun root' s' => InRegion Q own₀ s₀ root' s')
      (fun _ s' => InRegion Q own₀ s₀ root s') s := by
  induction path generalizing s own left k right with
  | nil =>
    rw [insertIntoParent, wp_bind, wp_of_ok (newPage_apply s)]
    refine (wp_writeInternal_kept (hg.newPage .zero) (hr.newPage .zero) hc.newPage
      (.inr hg.length_le)
      (by simp) (by simp [hleft, hright])).bind ?_ ?_
    · rintro ⟨⟩ s' ⟨hg', hr', hc'⟩
      exact .intro hg' hr' hc' (.inr rfl)
    · rintro e s' ⟨hg', hr', hc'⟩
      exact .intro hg' hr' hc' (.inl hroot)
  | cons parent path ih =>
    obtain ⟨hparent, hpath⟩ := List.forall_mem_cons.mp hpath
    have hstay : InRegion Q own₀ s₀ root s := .intro hg hr hc hroot
    rw [insertIntoParent, wp_bind]
    refine (Reads.fetchPage parent).wp (fun page hpage => ?_) fun _ _ => hstay
    obtain ⟨page', hpage', hlinked⟩ := hr.node parent hparent
    obtain rfl : page' = page := by simpa [hpage'] using (fetchPage_eq_ok.mp hpage).1
    rw [wp_bind, wp_lift]
    refine ⟨fun node hread => ?_, fun _ _ => hstay⟩
    obtain ⟨children, keys⟩ := node
    have hchildren := readInternal_linked hlinked hread
    dsimp only
    rw [wp_bind, wp_lift]
    refine ⟨fun idx _ => ?_, fun _ _ => hstay⟩
    have hchildren' : ∀ x ∈ pyInsert children (idx + 1) right, own x := by
      intro x hx
      obtain rfl | hx := mem_pyInsert.mp hx
      · exact hright
      · exact hchildren x hx
    generalize pyInsert children (idx + 1) right = children' at hchildren'
    generalize pyInsert keys idx k = keys'
    split
    · refine (wp_writeInternal_kept hg hr hc.adding (.inl hparent) (hr.lt_length _ hparent)
        hchildren').bind ?_ ?_
      · rintro ⟨⟩ s' ⟨hg', hr', hc'⟩
        exact .intro hg' hr' hc' (.inl hroot)
      · rintro e s' ⟨hg', hr', hc'⟩
        exact .intro hg' hr' hc' (.inl hroot)
    · rw [wp_bind, wp_lift]
      refine ⟨fun upKey _ => ?_, fun _ _ => hstay⟩
      rw [wp_bind, wp_of_ok (newPage_apply s)]
      refine (wp_writeInternal_kept (hg.newPage .zero) (hr.newPage .zero) hc.newPage
      (.inr hg.length_le)
        (by simp) fun x hx => hchildren' x (List.mem_of_mem_drop hx)).bind ?_ ?_
      · rintro ⟨⟩ s₁ ⟨hg₁, hr₁, hc₁⟩
        refine (wp_writeInternal_kept hg₁ hr₁ hc₁.adding (.inl (.inl hparent))
          (hr₁.lt_length _ (.inl hparent))
          fun x hx => .inl (hchildren' x (List.mem_of_mem_take hx))).bind ?_ ?_
        · rintro ⟨⟩ s₂ ⟨hg₂, hr₂, hc₂⟩
          exact ih hg₂ hr₂ hc₂ (.inl (.inl hroot)) (fun x hx => .inl (.inl (hpath x hx)))
            (.inl (.inl hparent)) (.inl (.inr rfl))
        · rintro e s₂ ⟨hg₂, hr₂, hc₂⟩
          exact .intro hg₂ hr₂ hc₂ (.inl (.inl hroot))
      · rintro e s₁ ⟨hg₁, hr₁, hc₁⟩
        exact .intro hg₁ hr₁ hc₁ (.inl hroot)

theorem wp_insertInLeaf {root leafId nx : Nat} {path : List Nat} {entries : List (κ × RID)}
    (hg : Grown own₀ own s₀ s) (hr : Region Q own s) (hc : Covers own s₀ s) (hroot : own root)
    (hpath : ∀ p ∈ path, own p) (hleaf : own leafId) (hQ : ∀ e ∈ entries, Q e.2)
    (hnx : nx = invalidPageId ∨ own nx) :
    wp (insertInLeaf K root path leafId entries nx) (fun root' s' => InRegion Q own₀ s₀ root' s')
      (fun _ s' => InRegion Q own₀ s₀ root s') s := by
  have hstay : InRegion Q own₀ s₀ root s := .intro hg hr hc hroot
  unfold insertInLeaf
  split
  · refine (wp_writeLeaf_kept hg hr hc.adding (.inl hleaf) (hr.lt_length _ hleaf) hQ hnx).bind ?_ ?_
    · rintro ⟨⟩ s' ⟨hg', hr', hc'⟩
      exact .intro hg' hr' hc' (.inl hroot)
    · rintro e s' ⟨hg', hr', hc'⟩
      exact .intro hg' hr' hc' (.inl hroot)
  · rw [wp_bind, wp_lift]
    refine ⟨fun mid _ => ?_, fun _ _ => hstay⟩
    rw [wp_bind, wp_of_ok (newPage_apply s)]
    refine (wp_writeLeaf_kept (hg.newPage .zero) (hr.newPage .zero) hc.newPage
      (.inr hg.length_le) (by simp)
      (fun e he => hQ e (List.mem_of_mem_drop he)) hnx).bind ?_ ?_
    · rintro ⟨⟩ s₁ ⟨hg₁, hr₁, hc₁⟩
      refine (wp_writeLeaf_kept hg₁ hr₁ hc₁.adding (.inl (.inl hleaf)) (hr₁.lt_length _ (.inl hleaf))
        (fun e he => hQ e (List.mem_of_mem_take he)) (.inr (.inr rfl))).bind ?_ ?_
      · rintro ⟨⟩ s₂ ⟨hg₂, hr₂, hc₂⟩
        rw [wp_bind, wp_lift]
        refine ⟨fun ⟨separator, _⟩ _ => ?_, fun _ _ => .intro hg₂ hr₂ hc₂ (.inl (.inl hroot))⟩
        exact (wp_insertIntoParent hg₂ hr₂ hc₂ (.inl (.inl hroot))
          (fun x hx => .inl (.inl (hpath x hx))) (.inl (.inl hleaf)) (.inl (.inr rfl)))
      · rintro e s₂ ⟨hg₂, hr₂, hc₂⟩
        exact .intro hg₂ hr₂ hc₂ (.inl (.inl hroot))
    · rintro e s₁ ⟨hg₁, hr₁, hc₁⟩
      exact .intro hg₁ hr₁ hc₁ (.inl hroot)

theorem findLeafPathFrom_owned {x : κ} {fuel pageId : Nat} {path path' : List Nat}
    (hr : Region Q own s) (hpage : own pageId) (hpath : ∀ p ∈ path, own p)
    (h : findLeafPathFrom K x fuel pageId path s = .ok path' s') : ∀ p ∈ path', own p := by
  induction fuel generalizing pageId path with
  | zero => cases h
  | succ fuel ih =>
    unfold findLeafPathFrom at h
    obtain ⟨page, s₁, hfetch, h₁⟩ := run_bind_eq_ok.mp h
    obtain ⟨hraw, rfl⟩ := fetchPage_eq_ok.mp hfetch
    split at h₁
    · cases h₁
      exact hpath
    · obtain ⟨⟨children, keys⟩, s₂, hread, h₂⟩ := run_bind_eq_ok.mp h₁
      obtain ⟨hread', rfl⟩ := PageM.lift_eq_ok.mp hread
      obtain ⟨idx, s₃, hidx, h₃⟩ := run_bind_eq_ok.mp h₂
      obtain ⟨-, rfl⟩ := PageM.lift_eq_ok.mp hidx
      obtain ⟨child, s₄, hchild, h₄⟩ := run_bind_eq_ok.mp h₃
      obtain ⟨hchild', rfl⟩ := PageM.lift_eq_ok.mp hchild
      obtain ⟨page', hpage', hlinked⟩ := hr.node pageId hpage
      obtain rfl : page' = page := by simpa [hpage'] using hraw
      have hown := readInternal_linked hlinked hread' child (pyGet_mem hchild')
      refine ih hown (fun p hp => ?_) h₄
      obtain hp | hp := List.mem_append.mp hp
      · exact hpath p hp
      · exact List.mem_singleton.mp hp ▸ hown

theorem Reads.findLeafPathFrom (x : κ) (fuel pageId : Nat) (path : List Nat) :
    Reads (findLeafPathFrom K x fuel pageId path : PageM ε τ (List Nat)) := by
  induction fuel generalizing pageId path with
  | zero => exact .throw _
  | succ fuel ih =>
    refine .bind (.fetchPage _) fun page => ?_
    split
    · exact .pure _
    · exact .bind (.lift _) fun _ => .bind (.lift _) fun _ => .bind (.lift _) fun _ => ih _ _

theorem Reads.findLeafPath (root : Nat) (x : κ) :
    Reads (findLeafPath K root x : PageM ε τ (List Nat)) :=
  .bind .get fun _ => Reads.findLeafPathFrom _ _ _ _

theorem Reads.search (root : Nat) (x : κ) : Reads (search K root x : PageM ε τ (List RID)) :=
  .bind (.map _ (Reads.findLeafPath root x)) fun _ => .bind (.fetchPage _) fun _ =>
    .bind (.lift _) fun _ => .bind (.lift _) fun _ => .bind (.lift _) fun _ => .pure _

theorem Reads.leftmostLeafFrom (fuel pageId : Nat) :
    Reads (leftmostLeafFrom K fuel pageId : PageM ε τ Nat) := by
  induction fuel generalizing pageId with
  | zero => exact .throw _
  | succ fuel ih =>
    refine .bind (.fetchPage _) fun page => ?_
    split
    · exact .pure _
    · exact .bind (.lift _) fun _ => .bind (.lift _) fun _ => ih _

theorem Reads.firstLeaf (root : Nat) (start : Option κ) :
    Reads (firstLeaf K root start : PageM ε τ Nat) := by
  cases start with
  | none => exact .bind .get fun _ => Reads.leftmostLeafFrom _ _
  | some x => exact .map _ (Reads.findLeafPath root x)

theorem Reads.rangeScanFrom (start stop : Option κ) (fuel leafId : Nat) :
    Reads (rangeScanFrom K start stop fuel leafId : PageM ε τ (List (κ × RID))) := by
  induction fuel generalizing leafId with
  | zero => exact .throw _
  | succ fuel ih =>
    unfold BPlusTree.rangeScanFrom
    split
    · exact .pure _
    · refine .bind (.fetchPage _) fun _ => .bind (.lift _) fun _ => .bind (.lift _) fun _ =>
        .bind (.lift _) fun scanned => ?_
      obtain ⟨found, stopped⟩ := scanned
      dsimp only
      split
      · exact .pure _
      · exact .bind (ih _) fun _ => .pure _

theorem Reads.rangeScan (root : Nat) (start stop : Option κ) :
    Reads (rangeScan K root start stop : PageM ε τ (List (κ × RID))) :=
  .bind (Reads.firstLeaf root start) fun _ => .bind .get fun _ => Reads.rangeScanFrom _ _ _ _

theorem leftmostLeafFrom_owned {fuel pageId leafId : Nat} (hr : Region Q own s)
    (hpage : own pageId) (h : leftmostLeafFrom K fuel pageId s = .ok leafId s') : own leafId := by
  induction fuel generalizing pageId with
  | zero => cases h
  | succ fuel ih =>
    unfold leftmostLeafFrom at h
    obtain ⟨page, s₁, hfetch, h₁⟩ := run_bind_eq_ok.mp h
    obtain ⟨hraw, rfl⟩ := fetchPage_eq_ok.mp hfetch
    split at h₁
    · cases h₁
      exact hpage
    · obtain ⟨⟨children, keys⟩, s₂, hread, h₂⟩ := run_bind_eq_ok.mp h₁
      obtain ⟨hread', rfl⟩ := PageM.lift_eq_ok.mp hread
      obtain ⟨child, s₃, hchild, h₃⟩ := run_bind_eq_ok.mp h₂
      obtain ⟨hchild', rfl⟩ := PageM.lift_eq_ok.mp hchild
      obtain ⟨page', hpage', hlinked⟩ := hr.node pageId hpage
      obtain rfl := Option.some.inj (hpage'.symm.trans hraw)
      exact ih (readInternal_linked hlinked hread' child (pyGet_mem hchild')) h₃

theorem getLastD_owned {root : Nat} {path : List Nat} (hroot : own root)
    (hpath : ∀ p ∈ path, own p) : own (path.getLastD root) := by
  cases hp : path.getLast? with
  | none => simpa [List.getLastD_eq_getLast?, hp] using hroot
  | some p => simpa [List.getLastD_eq_getLast?, hp] using hpath p (List.mem_of_getLast? hp)

theorem findLeafPath_owned {root : Nat} {x : κ} {path : List Nat} (hr : Region Q own s)
    (hroot : own root) (h : findLeafPath K root x s = .ok path s') : ∀ p ∈ path, own p :=
  findLeafPathFrom_owned hr hroot (fun _ hp => List.mem_singleton.mp hp ▸ hroot) h

theorem firstLeaf_owned {root leafId : Nat} {start : Option κ} (hr : Region Q own s)
    (hroot : own root) (h : firstLeaf K root start s = .ok leafId s') : own leafId := by
  cases start with
  | none => exact leftmostLeafFrom_owned hr hroot h
  | some x =>
    obtain ⟨path, s₁, hpath, heq⟩ := run_bind_eq_ok.mp h
    cases heq
    exact getLastD_owned hroot (findLeafPath_owned hr hroot hpath)

theorem scanLeaf_sublist {stop : Option κ} {entries found : List (κ × RID)} {stopped : Bool}
    (h : scanLeaf K stop entries = .ok (found, stopped)) : found.Sublist entries := by
  induction entries generalizing found stopped with
  | nil =>
    cases h
    exact .slnil
  | cons a entries ih =>
    obtain ⟨key, rid⟩ := a
    unfold scanLeaf at h
    obtain ⟨above, h⟩ : ∃ above : Bool, (if above = true then pure ([], true) else do
        let scanned ← scanLeaf K stop entries
        return ((key, rid) :: scanned.1, scanned.2)) = Except.ok (found, stopped) := by
      cases stop with
      | none => exact ⟨false, h⟩
      | some e =>
        obtain ⟨above, -, h⟩ := bind_eq_ok.mp h
        exact ⟨above, h⟩
    split at h
    · cases h
      exact List.nil_sublist _
    · obtain ⟨⟨found', stopped'⟩, hrest, h⟩ := bind_eq_ok.mp h
      cases h
      exact (ih hrest).cons_cons _

theorem rangeScanFrom_owned {start stop : Option κ} {fuel leafId : Nat} {pairs : List (κ × RID)}
    (hr : Region Q own s) (hleaf : leafId = invalidPageId ∨ own leafId)
    (h : rangeScanFrom K start stop fuel leafId s = .ok pairs s') : ∀ e ∈ pairs, Q e.2 := by
  induction fuel generalizing leafId pairs with
  | zero => cases h
  | succ fuel ih =>
    unfold rangeScanFrom at h
    split at h
    · cases h
      simp
    · rename_i hne
      have hleaf := hleaf.resolve_left hne
      obtain ⟨page, s₁, hfetch, h₁⟩ := run_bind_eq_ok.mp h
      obtain ⟨hraw, rfl⟩ := fetchPage_eq_ok.mp hfetch
      obtain ⟨⟨entries, nx⟩, s₂, hread, h₂⟩ := run_bind_eq_ok.mp h₁
      obtain ⟨hread', rfl⟩ := PageM.lift_eq_ok.mp hread
      obtain ⟨lo, s₃, hlo, h₃⟩ := run_bind_eq_ok.mp h₂
      obtain ⟨-, rfl⟩ := PageM.lift_eq_ok.mp hlo
      obtain ⟨⟨found, stopped⟩, s₄, hscan, h₄⟩ := run_bind_eq_ok.mp h₃
      obtain ⟨hscan', rfl⟩ := PageM.lift_eq_ok.mp hscan
      obtain ⟨page', hpage', hlinked⟩ := hr.node _ hleaf
      obtain rfl := Option.some.inj (hpage'.symm.trans hraw)
      obtain ⟨hQ, hnx⟩ := readLeaf_linked hlinked hread'
      have hfound : ∀ e ∈ found, Q e.2 := fun e he =>
        hQ e (List.mem_of_mem_drop ((scanLeaf_sublist hscan').subset he))
      dsimp only at h₄
      split at h₄
      · cases h₄
        exact hfound
      · obtain ⟨rest, s₅, hrest, heq⟩ := run_bind_eq_ok.mp h₄
        cases heq
        rw [List.forall_mem_append]
        exact ⟨hfound, ih hnx hrest⟩

/-- A scan leads only to RIDs that the region may hold. -/
theorem rangeScan_owned {root : Nat} {start stop : Option κ} {pairs : List (κ × RID)}
    (hr : Region Q own s) (hroot : own root) (h : rangeScan K root start stop s = .ok pairs s') :
    ∀ e ∈ pairs, Q e.2 := by
  obtain ⟨leafId, s₁, hleaf, h₁⟩ := run_bind_eq_ok.mp h
  obtain rfl := (Reads.firstLeaf root start).ok hleaf
  exact rangeScanFrom_owned hr (.inr (firstLeaf_owned hr hroot hleaf)) h₁

theorem Reads.duplicates (unique : Bool) (root : Nat) (x : κ) :
    Reads (duplicates K unique root x : PageM ε τ (List RID)) := by
  unfold BPlusTree.duplicates
  split
  · exact Reads.search root x
  · exact .pure _

/-- An insertion stays in the region of its tree, whether it returns or raises. -/
theorem wp_insert {unique : Bool} {root : Nat} {x : κ} {rid : RID} (hr : Region Q own s)
    (hroot : own root) (hrid : Q rid) :
    wp (insert K unique root x rid) (fun root' s' => InRegion Q own s root' s')
      (fun _ s' => InRegion Q own s root s') s := by
  have hstay : InRegion Q own s root s := .intro (.refl own s) hr (.refl own s) hroot
  unfold BPlusTree.insert
  rw [wp_bind]
  refine (Reads.duplicates unique root x).wp (fun rids _ => ?_) fun _ _ => hstay
  split
  · exact hstay
  · rw [wp_bind]
    refine (Reads.findLeafPath root x).wp (fun path hpath => ?_) fun _ _ => hstay
    have hown := findLeafPath_owned hr hroot hpath
    have hleaf := getLastD_owned hroot hown
    rw [wp_bind]
    refine (Reads.fetchPage _).wp (fun page hpage => ?_) fun _ _ => hstay
    obtain ⟨page', hpage', hlinked⟩ := hr.node _ hleaf
    obtain rfl := Option.some.inj (hpage'.symm.trans (fetchPage_eq_ok.mp hpage).1)
    rw [wp_bind, wp_lift]
    refine ⟨fun ⟨entries, nx⟩ hread => ?_, fun _ _ => hstay⟩
    obtain ⟨hQ, hnx⟩ := readLeaf_linked hlinked hread
    dsimp only
    rw [wp_bind, wp_lift]
    refine ⟨fun pos _ => ?_, fun _ _ => hstay⟩
    refine wp_insertInLeaf (.refl own s) hr (.refl own s) hroot (fun p hp => hown p ?_) hleaf
      (fun e he => ?_) hnx
    · exact List.mem_of_mem_dropLast (List.mem_reverse.mp hp)
    · obtain rfl | he := mem_pyInsert.mp he
      · exact hrid
      · exact hQ e he

/-- An insertion never gives a page back. -/
theorem extends_insert (unique : Bool) (root : Nat) (x : κ) (rid : RID) :
    Extends (insert K unique root x rid : PageM ε τ Nat) := by
  refine .bind (Reads.duplicates unique root x).extends fun _ => ?_
  split
  · exact .throw _
  · exact .bind (Reads.findLeafPath root x).extends fun _ => .bind (.fetchPage _) fun _ =>
      .bind (.lift _) fun _ => .bind (.lift _) fun _ => extends_insertInLeaf _ _ _ _ _

theorem extends_create : Extends (create K : PageM ε τ Nat) :=
  .bind .newPage fun _ => .bind (.putPage _ _) fun _ => .pure _

end BPlusTree
end Minirel
