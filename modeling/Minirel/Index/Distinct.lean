-- SUMMARY: No RID stands in two entries of a tree, and a scan meets none of them twice.
import Minirel.Index.Region
import Mathlib.Data.Nat.Find

/-!
# The RIDs of a tree

Whatever becomes of the order of its keys, a tree holds a RID in one entry at most, as long
as it is only given RIDs that it does not hold. A split copies entries to another leaf
before it takes them from the old one, but it never stops in between.
-/

namespace Minirel

variable {ε τ : Type}

/-- The RIDs a page holds as a leaf. -/
def Page.rids : Page ε τ → List RID
  | .leaf entries _ => entries.map (·.2)
  | _ => []

def ridsAt (s : PageFile ε τ) (p : Nat) : List RID := (s[p]?.map Page.rids).getD []

/-- No RID stands twice in the leaves among the pages `own`. -/
structure Distinct (own : Nat → Prop) (s : PageFile ε τ) : Prop where
  nodup : ∀ p, own p → (ridsAt s p).Nodup
  unique : ∀ p q, own p → own q → ∀ rid ∈ ridsAt s p, rid ∈ ridsAt s q → p = q

/-- A RID stands in no leaf among the pages `own`. -/
def Absent (own : Nat → Prop) (s : PageFile ε τ) (rid : RID) : Prop := ∀ p, own p → rid ∉ ridsAt s p

variable {Q : RID → Prop} {own own' : Nat → Prop} {s s' s₁ : PageFile ε τ} {p q : Nat} {rid : RID}

/-! ## The RIDs of a page that is written -/

theorem ridsAt_eq {page : Page ε τ} (h : s[p]? = some page) : ridsAt s p = page.rids := by
  simp [ridsAt, h]

theorem ridsAt_of_length_le (h : s.length ≤ p) : ridsAt s p = [] := by
  simp [ridsAt, List.getElem?_eq_none h]

theorem ridsAt_congr (h : s'[p]? = s[p]?) : ridsAt s' p = ridsAt s p := by
  rw [ridsAt, h, ridsAt]

theorem ridsAt_newPage (s : PageFile ε τ) (p : Nat) : ridsAt (s ++ [.zero]) p = ridsAt s p := by
  by_cases hp : p < s.length
  · exact ridsAt_congr (List.getElem?_append_left hp)
  · rw [ridsAt_of_length_le (not_lt.mp hp)]
    obtain rfl | hne := eq_or_ne p s.length
    · simp [ridsAt, Page.rids]
    · exact ridsAt_of_length_le (by rw [List.length_append, List.length_singleton]; omega)

theorem ridsAt_set_self (hp : p < s.length) (page : Page ε τ) : ridsAt (s.set p page) p = page.rids := by
  simp [ridsAt, hp]

theorem ridsAt_set_ne (h : p ≠ q) (page : Page ε τ) : ridsAt (s.set p page) q = ridsAt s q :=
  ridsAt_congr (List.getElem?_set_ne h)

/-- Every page holds the RIDs it held, or fewer. -/
def Shrinks (s s' : PageFile ε τ) : Prop := ∀ p, (ridsAt s' p).Sublist (ridsAt s p)

theorem Shrinks.refl (s : PageFile ε τ) : Shrinks s s := fun _ => .refl _

theorem Shrinks.trans (h : Shrinks s s₁) (h' : Shrinks s₁ s') : Shrinks s s' :=
  fun p => (h' p).trans (h p)

theorem shrinks_newPage (s : PageFile ε τ) : Shrinks s (s ++ [.zero]) :=
  fun p => ridsAt_newPage s p ▸ .refl _

theorem shrinks_set {page : Page ε τ} (h : page.rids = []) : Shrinks s (s.set p page) := by
  intro q
  by_cases hp : p < s.length
  · obtain rfl | hne := eq_or_ne p q
    · rw [ridsAt_set_self hp, h]
      exact List.nil_sublist _
    · rw [ridsAt_set_ne hne]
  · rw [List.set_eq_of_length_le (not_lt.mp hp)]

/-! ## A RID goes into a leaf -/

/-- The RIDs of a leaf are replaced, and perhaps some of them are on a new page. -/
def Replaced (s : PageFile ε τ) (leaf : Nat) (rids : List RID) (s' : PageFile ε τ) : Prop :=
  ∃ new left right, s.length ≤ new ∧ left ++ right = rids ∧ (ridsAt s' leaf).Sublist left ∧
    (ridsAt s' new).Sublist right ∧
    ∀ p, p ≠ leaf → p ≠ new → (ridsAt s' p).Sublist (ridsAt s p)

/-- One RID goes into one of the leaves `own`, if any. -/
def Enters (own : Nat → Prop) (s : PageFile ε τ) (rid : RID) (s' : PageFile ε τ) : Prop :=
  ∃ leaf rids, own leaf ∧ leaf < s.length ∧ rids.Perm (rid :: ridsAt s leaf) ∧ Replaced s leaf rids s'

theorem Replaced.shrinks {leaf : Nat} {rids : List RID} (h : Replaced s leaf rids s₁)
    (hs : Shrinks s₁ s') : Replaced s leaf rids s' := by
  obtain ⟨new, left, right, hnew, heq, hleft, hright, hother⟩ := h
  exact ⟨new, left, right, hnew, heq, (hs _).trans hleft, (hs _).trans hright,
    fun p hleaf hne => (hs p).trans (hother p hleaf hne)⟩

/-- The RIDs of the leaf are on the leaf itself. -/
theorem Replaced.stay {leaf : Nat} {rids : List RID} (hleaf : (ridsAt s' leaf).Sublist rids)
    (hother : ∀ p, p ≠ leaf → (ridsAt s' p).Sublist (ridsAt s p)) (hlt : leaf < s.length) :
    Replaced s leaf rids s' := by
  refine ⟨s.length, rids, [], le_rfl, by simp, hleaf, ?_, fun p hp _ => hother p hp⟩
  rw [← ridsAt_of_length_le (le_refl s.length)]
  exact hother _ hlt.ne'

/-- Nothing has gone into a leaf. -/
theorem Enters.of_shrinks (hp : own p) (hlt : p < s.length) (h : Shrinks s s') : Enters own s rid s' :=
  ⟨p, _, hp, hlt, .refl _, .stay ((h p).trans (List.sublist_cons_self _ _)) (fun q _ => h q) hlt⟩

/-- Where a RID is found after another one has gone in. -/
theorem Enters.mem {rid' : RID} (h : Enters own s rid s') (hp : claimed own s s' p)
    (hmem : rid' ∈ ridsAt s' p) : rid' = rid ∨ ∃ q, own q ∧ rid' ∈ ridsAt s q := by
  obtain ⟨leaf, rids, hleaf, -, hperm, hreplaced⟩ := h
  obtain ⟨new, left, right, hnew, rfl, hl, hr, hother⟩ := hreplaced
  have hin : rid' ∈ left ++ right → rid' = rid ∨ ∃ q, own q ∧ rid' ∈ ridsAt s q := fun hmem => by
    obtain rfl | hmem := List.mem_cons.mp (hperm.subset hmem)
    · exact .inl rfl
    · exact .inr ⟨leaf, hleaf, hmem⟩
  by_cases h₁ : p = leaf
  · subst h₁
    exact hin (List.mem_append_left _ (hl.subset hmem))
  · by_cases h₂ : p = new
    · subst h₂
      exact hin (List.mem_append_right _ (hr.subset hmem))
    · have hold := (hother p h₁ h₂).subset hmem
      obtain hp | ⟨hle, -⟩ := hp
      · exact .inr ⟨p, hp, hold⟩
      · rw [ridsAt_of_length_le hle] at hold
        cases hold

theorem Absent.enters {rid' : RID} (ha : Absent own s rid') (h : Enters own s rid s')
    (hne : rid' ≠ rid) : Absent (claimed own s s') s' rid' := by
  intro p hp hmem
  obtain heq | ⟨q, hq, hold⟩ := h.mem hp hmem
  · exact hne heq
  · exact ha q hq hold

theorem Distinct.enters (hd : Distinct own s) (ha : Absent own s rid) (h : Enters own s rid s') :
    Distinct (claimed own s s') s' := by
  obtain ⟨leaf, rids, hleaf, -, hperm, hreplaced⟩ := h
  obtain ⟨new, left, right, hnew, rfl, hl, hr, hother⟩ := hreplaced
  obtain ⟨hnl, hnr, hlr⟩ := List.nodup_append.mp
    (hperm.nodup_iff.mpr (List.nodup_cons.mpr ⟨ha leaf hleaf, hd.nodup leaf hleaf⟩))
  -- what the other pages hold, they held before
  have hold : ∀ {p}, claimed own s s' p → p ≠ leaf → p ≠ new →
      ∀ rid' ∈ ridsAt s' p, own p ∧ rid' ∈ ridsAt s p := by
    intro p hp h₁ h₂ rid' hmem
    have hmem' := (hother p h₁ h₂).subset hmem
    obtain hp | ⟨hle, -⟩ := hp
    · exact ⟨hp, hmem'⟩
    · rw [ridsAt_of_length_le hle] at hmem'
      cases hmem'
  have hplace : ∀ {p rid'}, claimed own s s' p → rid' ∈ ridsAt s' p → (p = leaf ∧ rid' ∈ left) ∨
      (p = new ∧ rid' ∈ right) ∨ (p ≠ leaf ∧ own p ∧ rid' ∈ ridsAt s p) := by
    intro p rid' hp hmem
    by_cases h₁ : p = leaf
    · subst h₁
      exact .inl ⟨rfl, hl.subset hmem⟩
    · by_cases h₂ : p = new
      · subst h₂
        exact .inr (.inl ⟨rfl, hr.subset hmem⟩)
      · exact .inr (.inr ⟨h₁, hold hp h₁ h₂ rid' hmem⟩)
  -- they hold nothing of what the leaf and the new page hold
  have hapart : ∀ {p rid'}, p ≠ leaf → own p → rid' ∈ ridsAt s p → rid' ∉ left ++ right := by
    intro p rid' hne hp hmem hin
    obtain rfl | hin := List.mem_cons.mp (hperm.subset hin)
    · exact ha p hp hmem
    · exact hne (hd.unique p leaf hp hleaf rid' hmem hin)
  refine ⟨fun p hp => ?_, fun p q hp hq rid' hpmem hqmem => ?_⟩
  · by_cases h₁ : p = leaf
    · exact h₁ ▸ hnl.sublist hl
    · by_cases h₂ : p = new
      · exact h₂ ▸ hnr.sublist hr
      · obtain hp | ⟨hle, -⟩ := hp
        · exact (hd.nodup p hp).sublist (hother p h₁ h₂)
        · have hsub := hother p h₁ h₂
          rw [ridsAt_of_length_le hle] at hsub
          rw [List.sublist_nil.mp hsub]
          exact List.nodup_nil
  · obtain ⟨rfl, h₁⟩ | ⟨rfl, h₁⟩ | ⟨hne₁, hp₁, h₁⟩ := hplace hp hpmem
    · obtain ⟨rfl, -⟩ | ⟨rfl, h₂⟩ | ⟨hne₂, hq₂, h₂⟩ := hplace hq hqmem
      · rfl
      · exact absurd rfl (hlr rid' h₁ rid' h₂)
      · exact absurd (List.mem_append_left _ h₁) (hapart hne₂ hq₂ h₂)
    · obtain ⟨rfl, h₂⟩ | ⟨rfl, -⟩ | ⟨hne₂, hq₂, h₂⟩ := hplace hq hqmem
      · exact absurd rfl (hlr rid' h₂ rid' h₁)
      · rfl
      · exact absurd (List.mem_append_right _ h₁) (hapart hne₂ hq₂ h₂)
    · obtain ⟨rfl, h₂⟩ | ⟨rfl, h₂⟩ | ⟨-, hq₂, h₂⟩ := hplace hq hqmem
      · exact absurd (List.mem_append_left _ h₂) (hapart hne₁ hp₁ h₁)
      · exact absurd (List.mem_append_right _ h₂) (hapart hne₁ hp₁ h₁)
      · exact hd.unique p q hp₁ hq₂ rid' h₁ h₂

/-- Where the pages are as they were. -/
theorem Distinct.congr (h : Distinct own s) (hsame : ∀ p, own p → s'[p]? = s[p]?) : Distinct own s' where
  nodup p hp := ridsAt_congr (hsame p hp) ▸ h.nodup p hp
  unique p q hp hq := by
    rw [ridsAt_congr (hsame p hp), ridsAt_congr (hsame q hq)]
    exact h.unique p q hp hq

theorem Absent.congr (h : Absent own s rid) (hsame : ∀ p, own p → s'[p]? = s[p]?) : Absent own s' rid :=
  fun p hp => ridsAt_congr (hsame p hp) ▸ h p hp

/-- The entries of a region lead to RIDs with `Q` only. -/
theorem Region.absent (h : Region Q own s) (hrid : ¬Q rid) : Absent own s rid := by
  intro p hp hmem
  obtain ⟨page, hpage, hlinked⟩ := h.node p hp
  rw [ridsAt_eq hpage] at hmem
  cases page with
  | leaf entries nextLeaf =>
    obtain ⟨e, he, rfl⟩ := List.mem_map.mp hmem
    exact hrid (hlinked.1 e he)
  | zero => cases hmem
  | heap page => cases hmem
  | internal child rest => cases hmem
  | torn => cases hmem

namespace BPlusTree

variable {κ : Type} {K : KeyType κ ε}

/-! ## Insertion -/

theorem wp_writeLeaf_rids {nx : Nat} {entries : List (κ × RID)} {P : Unit → PageFile ε τ → Prop}
    {E : PyError → PageFile ε τ → Prop}
    (hok : ∀ page : Page ε τ, page.rids = entries.map (·.2) → P () (s.set p page))
    (herr : ∀ e, E e (s.set p .torn)) : wp (writeLeaf K p entries nx) P E s := by
  refine wp_putPage.mpr ⟨fun page hpage => ?_, fun e _ => herr e⟩
  split at hpage
  · obtain ⟨es, hes, hpage⟩ := bind_eq_ok.mp hpage
    cases hpage
    exact hok _ (packPairs_snd hes)
  · cases hpage

theorem wp_writeInternal_rids {children : List Nat} {keys : List κ} :
    wp (writeInternal K p children keys) (fun _ s' => Shrinks s s') (fun _ s' => Shrinks s s') s := by
  refine wp_putPage.mpr ⟨fun page hpage => ?_, fun e _ => shrinks_set rfl⟩
  obtain ⟨first, -, hpage⟩ := bind_eq_ok.mp hpage
  split at hpage
  · obtain ⟨rest, -, hpage⟩ := bind_eq_ok.mp hpage
    cases hpage
    exact shrinks_set rfl
  · cases hpage

/-- The nodes above a leaf hold no RIDs. -/
theorem wp_insertIntoParent_rids {root left right : Nat} {path : List Nat} {k : κ}
    (s : PageFile ε τ) :
    wp (insertIntoParent K root path left k right) (fun _ s' => Shrinks s s')
      (fun _ s' => Shrinks s s') s := by
  induction path generalizing s left k right with
  | nil =>
    rw [insertIntoParent, wp_bind, wp_of_ok (newPage_apply s)]
    have hnew := shrinks_newPage s
    refine wp_writeInternal_rids.bind ?_ fun _ _ h => hnew.trans h
    rintro ⟨⟩ s' h
    exact hnew.trans h
  | cons parent path ih =>
    rw [insertIntoParent, wp_bind]
    refine (Reads.fetchPage parent).wp (fun page _ => ?_) fun _ _ => .refl s
    rw [wp_bind, wp_lift]
    refine ⟨fun node _ => ?_, fun _ _ => .refl s⟩
    obtain ⟨children, keys⟩ := node
    dsimp only
    rw [wp_bind, wp_lift]
    refine ⟨fun idx _ => ?_, fun _ _ => .refl s⟩
    split
    · refine wp_writeInternal_rids.bind ?_ fun _ _ h => h
      rintro ⟨⟩ s' h
      exact h
    · rw [wp_bind, wp_lift]
      refine ⟨fun upKey _ => ?_, fun _ _ => .refl s⟩
      rw [wp_bind, wp_of_ok (newPage_apply s)]
      have hnew := shrinks_newPage s
      refine wp_writeInternal_rids.bind ?_ fun _ _ h => hnew.trans h
      rintro ⟨⟩ s₁ h₁
      refine wp_writeInternal_rids.bind ?_ fun _ _ h => (hnew.trans h₁).trans h
      rintro ⟨⟩ s₂ h₂
      have hs₂ := (hnew.trans h₁).trans h₂
      exact (ih s₂).mono (fun _ _ h => hs₂.trans h) fun _ _ h => hs₂.trans h

theorem wp_insertInLeaf_rids {root leafId nx : Nat} {path : List Nat} {entries : List (κ × RID)}
    (hlt : leafId < s.length) (hold : (ridsAt s leafId).Sublist (entries.map (·.2))) :
    wp (insertInLeaf K root path leafId entries nx)
      (fun _ s' => Replaced s leafId (entries.map (·.2)) s')
      (fun _ s' => Replaced s leafId (entries.map (·.2)) s') s := by
  have hshrinks : ∀ {s'}, Shrinks s s' → Replaced s leafId (entries.map (·.2)) s' := fun h =>
    .stay ((h leafId).trans hold) (fun q _ => h q) hlt
  unfold insertInLeaf
  split
  · have hwrite : wp (writeLeaf K leafId entries nx)
        (fun _ s' => Replaced s leafId (entries.map (·.2)) s')
        (fun _ s' => Replaced s leafId (entries.map (·.2)) s') s := by
      refine wp_writeLeaf_rids (fun page hpage => .stay ?_ (fun q hq => ?_) hlt) fun _ =>
        hshrinks (shrinks_set rfl)
      · rw [ridsAt_set_self hlt, hpage]
      · rw [ridsAt_set_ne (Ne.symm hq)]
    exact hwrite.bind (fun _ _ h => h) fun _ _ h => h
  · rw [wp_bind, wp_lift]
    refine ⟨fun mid _ => ?_, fun _ _ => hshrinks (.refl s)⟩
    rw [wp_bind, wp_of_ok (newPage_apply s)]
    have hnew := shrinks_newPage s
    rw [wp_bind]
    refine wp_writeLeaf_rids (fun page₁ hpage₁ => ?_) fun _ => hshrinks (hnew.trans (shrinks_set rfl))
    -- from here on the right half is on the new page, and the old leaf is written next
    have hlt₁ : leafId < ((s ++ [Page.zero]).set s.length page₁).length := by
      rw [List.length_set, List.length_append]
      omega
    have hsplit : ∀ {page₂ : Page ε τ}, page₂.rids.Sublist ((entries.take mid).map (·.2)) →
        Replaced s leafId (entries.map (·.2))
          (((s ++ [Page.zero]).set s.length page₁).set leafId page₂) := by
      intro page₂ hpage₂
      refine ⟨s.length, (entries.take mid).map (·.2), (entries.drop mid).map (·.2), le_rfl,
        by rw [← List.map_append, List.take_append_drop], ?_, ?_, fun p hp hp' => ?_⟩
      · rw [ridsAt_set_self hlt₁]
        exact hpage₂
      · rw [ridsAt_set_ne hlt.ne, ridsAt_set_self (by simp), hpage₁]
      · rw [ridsAt_set_ne (Ne.symm hp), ridsAt_set_ne (Ne.symm hp')]
        exact hnew p
    rw [wp_bind]
    refine wp_writeLeaf_rids (fun page₂ hpage₂ => ?_) fun _ => hsplit (List.nil_sublist _)
    have hdone := hsplit (by rw [hpage₂])
    rw [wp_bind, wp_lift]
    refine ⟨fun ⟨separator, _⟩ _ => ?_, fun _ _ => hdone⟩
    exact (wp_insertIntoParent_rids _).mono (fun _ _ h => hdone.shrinks h) fun _ _ h => hdone.shrinks h

theorem readLeaf_rids {page : Page ε τ} {entries : List (κ × RID)} {nx : Nat}
    (h : readLeaf K page = .ok (entries, nx)) : page.rids = entries.map (·.2) := by
  cases page with
  | leaf es nx' =>
    obtain ⟨es', hes, heq⟩ := bind_eq_ok.mp h
    cases heq
    exact (mapM_snd hes).symm
  | zero =>
    cases h
    rfl
  | heap page => cases h
  | internal child rest => cases h
  | torn => cases h

theorem perm_pyInsert {α : Type} (l : List α) (i : Nat) (x : α) : (pyInsert l i x).Perm (x :: l) := by
  unfold pyInsert
  refine List.perm_middle.trans (.cons _ ?_)
  rw [List.take_append_drop]

/-- An insertion, whether it returns or raises, puts its RID into one leaf at most. -/
theorem wp_insert_rids {unique : Bool} {root : Nat} {x : κ} (rid : RID) (hr : Region Q own s)
    (hroot : own root) :
    wp (insert K unique root x rid) (fun _ s' => Enters own s rid s') (fun _ s' => Enters own s rid s')
      s := by
  have hstay : Enters own s rid s := .of_shrinks hroot (hr.lt_length root hroot) (.refl s)
  unfold BPlusTree.insert
  rw [wp_bind]
  refine (Reads.duplicates unique root x).wp (fun rids _ => ?_) fun _ _ => hstay
  split
  · exact hstay
  · rw [wp_bind]
    refine (Reads.findLeafPath root x).wp (fun path hpath => ?_) fun _ _ => hstay
    have hleaf := getLastD_owned hroot (findLeafPath_owned hr hroot hpath)
    have hlt := hr.lt_length _ hleaf
    rw [wp_bind]
    refine (Reads.fetchPage _).wp (fun page hpage => ?_) fun _ _ => hstay
    have hrids := ridsAt_eq (fetchPage_eq_ok.mp hpage).1
    rw [wp_bind, wp_lift]
    refine ⟨fun ⟨entries, nx⟩ hread => ?_, fun _ _ => hstay⟩
    rw [readLeaf_rids hread] at hrids
    dsimp only
    rw [wp_bind, wp_lift]
    refine ⟨fun pos _ => ?_, fun _ _ => hstay⟩
    have hperm : ((pyInsert entries pos (x, rid)).map (·.2)).Perm (rid :: ridsAt s (path.getLastD root)) := by
      rw [hrids]
      exact (perm_pyInsert entries pos (x, rid)).map _
    have hsub : (ridsAt s (path.getLastD root)).Sublist ((pyInsert entries pos (x, rid)).map (·.2)) := by
      rw [hrids]
      refine List.Sublist.map _ ?_
      conv_lhs => rw [← List.take_append_drop pos entries]
      exact (List.Sublist.refl _).append (List.sublist_cons_self _ _)
    exact (wp_insertInLeaf_rids hlt hsub).mono (fun _ _ h => ⟨_, _, hleaf, hlt, hperm, h⟩)
      fun _ _ h => ⟨_, _, hleaf, hlt, hperm, h⟩

/-! ## Scans -/

section
variable {start stop : Option κ}

/-- One leaf of a scan: what it yields there, and how it goes on if it does. -/
theorem rangeScanFrom_round {fuel leafId : Nat} {pairs : List (κ × RID)}
    (h : rangeScanFrom K start stop (fuel + 1) leafId s = .ok pairs s) (hne : leafId ≠ invalidPageId) :
    ∃ entries nx found, s[leafId]?.map (readLeaf K) = some (.ok (entries, nx)) ∧
      (found.map (·.2)).Sublist (ridsAt s leafId) ∧
      ((pairs = found ∧ ∀ fuel', rangeScanFrom K start stop (fuel' + 1) leafId s = .ok found s) ∨
        ∃ rest, pairs = found ++ rest ∧ rangeScanFrom K start stop fuel nx s = .ok rest s ∧
          ∀ fuel' rest', rangeScanFrom K start stop fuel' nx s = .ok rest' s →
            rangeScanFrom K start stop (fuel' + 1) leafId s = .ok (found ++ rest') s) := by
  unfold rangeScanFrom at h
  rw [if_neg hne] at h
  obtain ⟨page, s₁, hfetch, h₁⟩ := run_bind_eq_ok.mp h
  obtain ⟨hpage, rfl⟩ := fetchPage_eq_ok.mp hfetch
  obtain ⟨⟨entries, nx⟩, s₂, hread, h₂⟩ := run_bind_eq_ok.mp h₁
  obtain ⟨hread', rfl⟩ := PageM.lift_eq_ok.mp hread
  obtain ⟨lo, s₃, hlo, h₃⟩ := run_bind_eq_ok.mp h₂
  obtain ⟨-, rfl⟩ := PageM.lift_eq_ok.mp hlo
  obtain ⟨⟨found, stopped⟩, s₄, hscan, h₄⟩ := run_bind_eq_ok.mp h₃
  obtain ⟨hscan', rfl⟩ := PageM.lift_eq_ok.mp hscan
  dsimp only at h₄
  refine ⟨entries, nx, found, by rw [hpage, Option.map_some, hread'], ?_, ?_⟩
  · rw [ridsAt_eq hpage, readLeaf_rids hread']
    exact ((scanLeaf_sublist hscan').trans (List.drop_sublist _ _)).map _
  · by_cases hstopped : stopped = true
    · rw [if_pos hstopped] at h₄
      cases h₄
      refine .inl ⟨rfl, fun fuel' => ?_⟩
      rw [rangeScanFrom, if_neg hne, run_bind_ok hfetch, run_bind_ok hread]
      dsimp only
      rw [run_bind_ok hlo, run_bind_ok hscan]
      dsimp only
      rw [if_pos hstopped]
      rfl
    · rw [if_neg hstopped] at h₄
      obtain ⟨rest, s₅, hrest, h₅⟩ := run_bind_eq_ok.mp h₄
      cases h₅
      refine .inr ⟨rest, rfl, hrest, fun fuel' rest' hrest' => ?_⟩
      rw [rangeScanFrom, if_neg hne, run_bind_ok hfetch, run_bind_ok hread]
      dsimp only
      rw [run_bind_ok hlo, run_bind_ok hscan]
      dsimp only
      rw [if_neg hstopped, run_bind_ok hrest']
      rfl

/-- More fuel makes no difference to a scan that comes to its end. -/
theorem rangeScanFrom_mono {fuel fuel' leafId : Nat} {pairs : List (κ × RID)} (hle : fuel ≤ fuel')
    (h : rangeScanFrom K start stop fuel leafId s = .ok pairs s) :
    rangeScanFrom K start stop fuel' leafId s = .ok pairs s := by
  induction fuel generalizing fuel' leafId pairs with
  | zero => cases h
  | succ fuel ih =>
    obtain ⟨fuel', rfl⟩ : ∃ k, fuel' = k + 1 := ⟨fuel' - 1, by omega⟩
    by_cases hne : leafId = invalidPageId
    · rw [rangeScanFrom, if_pos hne] at h ⊢
      exact h
    · obtain ⟨entries, nx, found, -, -, ⟨rfl, hround⟩ | ⟨rest, rfl, hrest, hround⟩⟩ :=
        rangeScanFrom_round h hne
      · exact hround fuel'
      · exact hround fuel' rest (ih (by omega) hrest)

/-- A scan never comes back to a leaf, or it would not come to its end: with the least fuel that
    is enough, every next leaf needs less. -/
theorem rangeScanFrom_nodup {fuel leafId : Nat} {pairs : List (κ × RID)} (hr : Region Q own s)
    (hd : Distinct own s) (hleaf : leafId = invalidPageId ∨ own leafId)
    (h : rangeScanFrom K start stop (fuel + 1) leafId s = .ok pairs s)
    (hmin : ∀ pairs, rangeScanFrom K start stop fuel leafId s ≠ .ok pairs s) :
    (pairs.map (·.2)).Nodup ∧ ∀ e ∈ pairs, ∃ p, own p ∧ e.2 ∈ ridsAt s p ∧
      ∃ pairs', rangeScanFrom K start stop (fuel + 1) p s = .ok pairs' s := by
  induction fuel generalizing leafId pairs with
  | zero =>
    by_cases hne : leafId = invalidPageId
    · rw [rangeScanFrom, if_pos hne] at h
      cases h
      simp
    · have hown := hleaf.resolve_left hne
      obtain ⟨entries, nx, found, -, hsub, ⟨rfl, -⟩ | ⟨rest, -, hrest, -⟩⟩ := rangeScanFrom_round h hne
      · exact ⟨(hd.nodup _ hown).sublist hsub, fun e he =>
          ⟨leafId, hown, hsub.subset (List.mem_map_of_mem he), _, h⟩⟩
      · cases hrest
  | succ fuel ih =>
    by_cases hne : leafId = invalidPageId
    · rw [rangeScanFrom, if_pos hne] at h
      cases h
      simp
    · have hown := hleaf.resolve_left hne
      obtain ⟨entries, nx, found, hread, hsub, ⟨rfl, -⟩ | ⟨rest, rfl, hrest, hround⟩⟩ :=
        rangeScanFrom_round h hne
      · exact ⟨(hd.nodup _ hown).sublist hsub, fun e he =>
          ⟨leafId, hown, hsub.subset (List.mem_map_of_mem he), _, h⟩⟩
      · obtain ⟨page, hpage, hlinked⟩ := hr.node _ hown
        rw [hpage] at hread
        have hnx := (readLeaf_linked hlinked (Option.some.inj hread)).2
        obtain ⟨hnodup, hplace⟩ := ih hnx hrest fun pairs' hpairs' =>
          hmin _ (hround fuel pairs' hpairs')
        have hin : ∀ e ∈ found, e.2 ∈ ridsAt s leafId := fun e he =>
          hsub.subset (List.mem_map_of_mem he)
        refine ⟨?_, List.forall_mem_append.mpr ⟨fun e he => ⟨leafId, hown, hin e he, _, h⟩, fun e he => ?_⟩⟩
        · rw [List.map_append]
          refine List.nodup_append.mpr ⟨(hd.nodup _ hown).sublist hsub, hnodup, ?_⟩
          rintro rid hfound rid' hrid' rfl
          obtain ⟨e, he, heq⟩ := List.mem_map.mp hrid'
          obtain ⟨p, hp, hmem, pairs', hpairs'⟩ := hplace e he
          obtain rfl := hd.unique _ _ hown hp rid (hsub.subset hfound) (heq ▸ hmem)
          exact hmin pairs' hpairs'
        · obtain ⟨p, hp, hmem, pairs', hpairs'⟩ := hplace e he
          exact ⟨p, hp, hmem, pairs', rangeScanFrom_mono (Nat.le_succ _) hpairs'⟩

/-- A scan meets no RID twice. -/
theorem rangeScan_nodup {root : Nat} {pairs : List (κ × RID)} (hr : Region Q own s)
    (hd : Distinct own s) (hroot : own root) (h : rangeScan K root start stop s = .ok pairs s) :
    (pairs.map (·.2)).Nodup := by
  obtain ⟨leafId, s₁, hleaf, h₁⟩ := run_bind_eq_ok.mp h
  obtain rfl := (Reads.firstLeaf root start).ok hleaf
  have hown := firstLeaf_owned hr hroot hleaf
  have hends : ∃ fuel, ∃ pairs', rangeScanFrom K start stop fuel leafId s₁ = .ok pairs' s₁ :=
    ⟨_, pairs, h₁⟩
  classical
  obtain ⟨pairs', hpairs'⟩ := Nat.find_spec hends
  have hle : Nat.find hends ≤ s₁.length + 1 := Nat.find_min' hends ⟨pairs, h₁⟩
  obtain ⟨fuel, hfuel⟩ : ∃ k, Nat.find hends = k + 1 := by
    refine Nat.exists_eq_succ_of_ne_zero fun hzero => ?_
    rw [hzero] at hpairs'
    cases hpairs'
  have heq : pairs' = pairs := by
    have hsame := (rangeScanFrom_mono hle hpairs').symm.trans h₁
    cases hsame
    rfl
  subst heq
  rw [hfuel] at hpairs'
  refine (rangeScanFrom_nodup hr hd (.inr hown) hpairs' fun pairs hpairs => ?_).1
  exact Nat.find_min hends (show fuel < _ by omega) ⟨pairs, hpairs⟩

end

end BPlusTree
end Minirel
