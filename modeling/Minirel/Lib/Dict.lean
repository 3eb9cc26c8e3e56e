-- SUMMARY: Dictionaries that keep their insertion order.
import Mathlib.Data.List.Induction
import Mathlib.Data.List.Nodup
import Mathlib.Data.List.Perm.Subperm
import Mathlib.Tactic.Tauto

/-!
# Insertion-ordered dictionaries

A Python `dict` with string keys as the list of its items. Setting a key that is
present keeps its place; a new key goes to the end.
-/

namespace Minirel

variable {α β : Type}

abbrev Dict (α : Type) := List (String × α)

namespace Dict

def get? : Dict α → String → Option α
  | [], _ => none
  | (k, a) :: d, key => if k = key then some a else get? d key

def set : Dict α → String → α → Dict α
  | [], key, b => [(key, b)]
  | (k, a) :: d, key, b => if k = key then (k, b) :: d else (k, a) :: set d key b

/-- `d.update(items)`. -/
def update (d : Dict α) (items : List (String × α)) : Dict α :=
  items.foldl (fun d (k, a) => d.set k a) d

/-- `dict(items)`, and a dict comprehension over `items`: the last value of a
    repeated key wins. -/
def ofList (items : List (String × α)) : Dict α := update [] items

def keys (d : Dict α) : List String := d.map (·.1)

def contains (d : Dict α) (key : String) : Bool := (d.get? key).isSome

theorem get?_set (d : Dict α) (key key' : String) (b : α) :
    (d.set key b).get? key' = if key = key' then some b else d.get? key' := by
  induction d with
  | nil => simp [set, get?]
  | cons x d ih =>
    obtain ⟨k, a⟩ := x
    unfold set
    split
    · rename_i hk
      subst hk
      by_cases hk' : k = key'
      · simp [get?, hk']
      · simp [get?, hk']
    · rename_i hk
      by_cases hk' : k = key'
      · subst hk'
        simp [get?, Ne.symm hk]
      · simp [get?, hk', ih]

@[simp] theorem get?_set_self (d : Dict α) (key : String) (b : α) :
    (d.set key b).get? key = some b := by
  simp [get?_set]

theorem get?_set_ne {d : Dict α} {key key' : String} {b : α} (h : key ≠ key') :
    (d.set key b).get? key' = d.get? key' := by
  simp [get?_set, h]

/-- The last of several values for a key is the one that stays. -/
theorem get?_update (d : Dict α) (items : List (String × α)) (key : String) :
    (d.update items).get? key =
      ((items.reverse.find? (fun x => x.1 = key)).map (·.2)).or (d.get? key) := by
  induction items using List.reverseRecOn with
  | nil => simp [update]
  | append_singleton items x ih =>
    have hstep : update d (items ++ [x]) = (update d items).set x.1 x.2 := by
      simp [update, List.foldl_append]
    rw [hstep, get?_set, ih, List.reverse_append]
    by_cases hx : x.1 = key
    · simp [hx]
    · simp [hx]

theorem get?_ofList (items : List (String × α)) (key : String) :
    (ofList items).get? key = (items.reverse.find? (fun x => x.1 = key)).map (·.2) := by
  simp [ofList, get?_update, get?]

theorem get?_of_mem {d : Dict α} {key : String} {a : α} (h : (key, a) ∈ d) :
    ∃ b, d.get? key = some b := by
  induction d with
  | nil => cases h
  | cons x d ih =>
    obtain ⟨k, c⟩ := x
    by_cases hk : k = key
    · exact ⟨c, if_pos hk⟩
    · obtain heq | hmem := List.mem_cons.mp h
      · cases heq
        exact absurd rfl hk
      · obtain ⟨b, hb⟩ := ih hmem
        exact ⟨b, by rw [get?, if_neg hk, hb]⟩

/-- Setting a key to what it holds changes nothing. -/
theorem set_of_get? {d : Dict α} {key : String} {a : α} (h : d.get? key = some a) :
    d.set key a = d := by
  induction d with
  | nil => cases h
  | cons x d ih =>
    obtain ⟨k, c⟩ := x
    unfold get? at h
    unfold set
    split
    · rename_i hk
      rw [if_pos hk] at h
      cases h
      rfl
    · rename_i hk
      rw [if_neg hk] at h
      rw [ih h]

def mapValues (f : α → β) (d : Dict α) : Dict β := d.map fun (k, a) => (k, f a)

theorem get?_mapValues (f : α → β) (d : Dict α) (key : String) :
    (d.mapValues f).get? key = (d.get? key).map f := by
  induction d with
  | nil => rfl
  | cons x d ih =>
    obtain ⟨k, a⟩ := x
    change (if k = key then some (f a) else get? (mapValues f d) key) =
      (if k = key then some a else get? d key).map f
    split
    · rfl
    · exact ih

theorem mapValues_set (f : α → β) (d : Dict α) (key : String) (b : α) :
    (d.set key b).mapValues f = (d.mapValues f).set key (f b) := by
  induction d with
  | nil => rfl
  | cons x d ih =>
    obtain ⟨k, a⟩ := x
    change mapValues f (if k = key then (k, b) :: d else (k, a) :: set d key b) =
      if k = key then (k, f b) :: mapValues f d else (k, f a) :: set (mapValues f d) key (f b)
    split
    · rfl
    · rw [← ih]
      rfl

theorem keys_mapValues (f : α → β) (d : Dict α) : (d.mapValues f).keys = d.keys := by
  simp [keys, mapValues, Function.comp_def]

theorem get?_of_mem_keys {d : Dict α} {key : String} (h : key ∈ d.keys) :
    ∃ a, d.get? key = some a := by
  obtain ⟨x, hx, rfl⟩ := List.mem_map.mp h
  exact get?_of_mem hx

theorem mem_of_get? {d : Dict α} {key : String} {a : α} (h : d.get? key = some a) : (key, a) ∈ d := by
  induction d with
  | nil => cases h
  | cons x d ih =>
    obtain ⟨k, b⟩ := x
    unfold get? at h
    split at h
    · rename_i hk
      cases h
      exact hk ▸ List.mem_cons_self
    · exact List.mem_cons_of_mem _ (ih h)

theorem mem_keys_of_get? {d : Dict α} {key : String} {a : α} (h : d.get? key = some a) :
    key ∈ d.keys := List.mem_map.mpr ⟨_, mem_of_get? h, rfl⟩

theorem mem_keys_set {d : Dict α} {key k : String} {b : α} :
    k ∈ (d.set key b).keys ↔ k = key ∨ k ∈ d.keys := by
  induction d with
  | nil => simp [set, keys]
  | cons x d ih =>
    obtain ⟨k', a⟩ := x
    unfold set
    split
    · rename_i hk
      subst hk
      simp [keys]
    · simp only [keys, List.map_cons, List.mem_cons] at ih ⊢
      rw [ih]
      tauto

theorem nodup_keys_set {d : Dict α} (h : d.keys.Nodup) (key : String) (b : α) :
    (d.set key b).keys.Nodup := by
  induction d with
  | nil => simp [set, keys]
  | cons x d ih =>
    obtain ⟨k, a⟩ := x
    obtain ⟨hk, hd⟩ := List.nodup_cons.mp h
    unfold set
    split
    · exact h
    · rename_i hne
      refine List.nodup_cons.mpr ⟨fun hmem => ?_, ih hd⟩
      exact (mem_keys_set.mp hmem).elim hne hk

/-- With distinct keys, every item is found under its key. -/
theorem get?_eq_of_mem {d : Dict α} (h : d.keys.Nodup) {key : String} {a : α} (hmem : (key, a) ∈ d) :
    d.get? key = some a := by
  induction d with
  | nil => cases hmem
  | cons x d ih =>
    obtain ⟨k, c⟩ := x
    obtain ⟨hk, hd⟩ := List.nodup_cons.mp h
    obtain heq | hmem := List.mem_cons.mp hmem
    · cases heq
      exact if_pos rfl
    · have hne : k ≠ key := fun heq => hk (heq ▸ List.mem_map.mpr ⟨_, hmem, rfl⟩)
      rw [get?, if_neg hne, ih hd hmem]

/-- With distinct keys, no value is overwritten. -/
theorem get?_ofList_of_mem {items : List (String × α)} (h : (items.map (·.1)).Nodup) {key : String}
    {a : α} (hmem : (key, a) ∈ items) : (ofList items).get? key = some a := by
  rw [get?_ofList]
  cases hfind : items.reverse.find? (fun x => x.1 = key) with
  | none =>
    have := List.find?_eq_none.mp hfind (key, a) (List.mem_reverse.mpr hmem)
    simp at this
  | some y =>
    have hy : y.1 = key := by simpa using List.find?_some hfind
    have hmem' : y ∈ items := List.mem_reverse.mp (List.mem_of_find?_eq_some hfind)
    rw [List.inj_on_of_nodup_map h hmem' hmem hy]
    rfl

theorem set_set (d : Dict α) (key : String) (a b : α) : (d.set key a).set key b = d.set key b := by
  induction d with
  | nil => simp [set]
  | cons x d ih =>
    obtain ⟨k, c⟩ := x
    by_cases hk : k = key
    · simp [set, hk]
    · simp [set, hk, ih]

/-! ### Keys that are set one after the other -/

theorem set_of_notMem {d : Dict α} {key : String} {b : α} (h : key ∉ d.keys) :
    d.set key b = d ++ [(key, b)] := by
  induction d with
  | nil => rfl
  | cons x d ih =>
    obtain ⟨k, a⟩ := x
    have hne : k ≠ key := fun heq => h (heq ▸ List.mem_cons_self)
    rw [set, if_neg hne, ih fun hmem => h (List.mem_cons_of_mem _ hmem), List.cons_append]

/-- Distinct new keys are all kept, in their order. -/
theorem update_of_nodup {d : Dict α} {items : List (String × α)}
    (h : (d.keys ++ items.map (·.1)).Nodup) : d.update items = d ++ items := by
  induction items generalizing d with
  | nil => rw [List.append_nil]; rfl
  | cons x items ih =>
    obtain ⟨key, b⟩ := x
    have hnew : key ∉ d.keys := fun hmem =>
      (List.nodup_append.mp h).2.2 key hmem key List.mem_cons_self rfl
    have hset : d.set key b = d ++ [(key, b)] := set_of_notMem hnew
    have hstep : d.update ((key, b) :: items) = (d.set key b).update items := rfl
    rw [hstep, hset, ih, List.append_assoc, List.singleton_append]
    simpa [keys, List.append_assoc] using h

theorem ofList_of_nodup {items : List (String × α)} (h : (items.map (·.1)).Nodup) :
    ofList items = items := update_of_nodup h

theorem mem_keys_update {d : Dict α} {items : List (String × α)} {key : String} :
    key ∈ (d.update items).keys ↔ key ∈ d.keys ∨ key ∈ items.map (·.1) := by
  induction items generalizing d with
  | nil => simp [update]
  | cons x items ih =>
    have hstep : d.update (x :: items) = (d.set x.1 x.2).update items := rfl
    rw [hstep, ih, mem_keys_set, List.map_cons, List.mem_cons]
    tauto

theorem nodup_keys_update {d : Dict α} (h : d.keys.Nodup) (items : List (String × α)) :
    (d.update items).keys.Nodup := by
  induction items generalizing d with
  | nil => exact h
  | cons x items ih => exact ih (nodup_keys_set h x.1 x.2)

theorem length_set_le (d : Dict α) (key : String) (b : α) : (d.set key b).length ≤ d.length + 1 := by
  induction d with
  | nil => exact Nat.le_refl _
  | cons x d ih =>
    obtain ⟨k, a⟩ := x
    by_cases hk : k = key
    · simp [set, hk]
    · simpa [set, hk] using ih

/-- A dictionary of some items has as many entries as items only if the keys are distinct. -/
theorem length_ofList_eq_iff {items : List (String × α)} :
    (ofList items).length = items.length ↔ (items.map (·.1)).Nodup := by
  refine ⟨fun h => ?_, fun h => by rw [ofList_of_nodup h]⟩
  have hnodup : (ofList items).keys.Nodup := nodup_keys_update (show (keys []).Nodup from List.nodup_nil) items
  have hsub : (ofList items).keys ⊆ items.map (·.1) := fun key hkey =>
    (mem_keys_update.mp hkey).resolve_left List.not_mem_nil
  have hlength : (items.map (·.1)).length = (ofList items).keys.length := by
    rw [List.length_map, keys, List.length_map, h]
  exact ((hnodup.subperm hsub).perm_of_length_le (Nat.le_of_eq hlength)).nodup_iff.mp hnodup

/-- A loop that sets a key in each round. -/
theorem foldlM_set {ι ε : Type} {step : Dict α → ι → Except ε (Dict α)} {l : List ι} (item : ι → String × α)
    (h : ∀ x ∈ l, ∀ out, step out x = .ok (out.set (item x).1 (item x).2)) (d : Dict α) :
    l.foldlM step d = .ok (d.update (l.map item)) := by
  induction l generalizing d with
  | nil => rfl
  | cons x l ih =>
    rw [List.foldlM_cons, h x List.mem_cons_self]
    exact ih (fun y hy => h y (List.mem_cons_of_mem _ hy)) _

/-- What such a loop has set when it has returned. -/
theorem of_foldlM_set {ι ε : Type} {f : ι → Except ε α} {l : List ι} {name : ι → String} {d out : Dict α}
    (h : l.foldlM (fun out x => do return out.set (name x) (← f x)) d = .ok out) :
    ∃ values : List (ι × α), values.map (·.1) = l ∧ (∀ x ∈ values, f x.1 = .ok x.2) ∧
      out = d.update (values.map fun x => (name x.1, x.2)) := by
  induction l generalizing d with
  | nil =>
    cases h
    exact ⟨[], rfl, by simp, rfl⟩
  | cons x l ih =>
    rw [List.foldlM_cons] at h
    cases hx : f x with
    | error e =>
      rw [hx] at h
      cases h
    | ok a =>
      rw [hx] at h
      obtain ⟨values, hvalues, hall, rfl⟩ := ih h
      exact ⟨(x, a) :: values, by rw [List.map_cons, hvalues], List.forall_mem_cons.mpr ⟨hx, hall⟩, rfl⟩

/-- A dictionary made of items of another one holds the same under their keys. -/
theorem get?_ofList_of_agrees {items : List (String × α)} {d : Dict α}
    (h : ∀ x ∈ items, d.get? x.1 = some x.2) {key : String} {a : α} (hmem : (key, a) ∈ items) :
    (ofList items).get? key = some a := by
  rw [get?_ofList]
  cases hfind : items.reverse.find? (fun x => x.1 = key) with
  | none =>
    have := List.find?_eq_none.mp hfind (key, a) (List.mem_reverse.mpr hmem)
    simp at this
  | some y =>
    have hy : y.1 = key := by simpa using List.find?_some hfind
    have hmem' : y ∈ items := List.mem_reverse.mp (List.mem_of_find?_eq_some hfind)
    have heq := h (key, a) hmem
    rw [← hy, h y hmem'] at heq
    exact heq

end Dict
end Minirel
