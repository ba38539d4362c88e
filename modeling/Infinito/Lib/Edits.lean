import Infinito.Lib.Tree

/-!
# Editing a dictionary key by key

A loop over keys that are all different, in which each step keeps, puts or drops the entry of its
own key and reports whether it changed anything. The order of the steps does not matter then: the
entry of a key is what its own step makes of it (`get_editAll`), and something has changed when a
step says so (`changed_editAll`).
-/

set_option autoImplicit false

namespace Infinito.Lib

variable {κ β : Type} [DecidableEq κ]

namespace Items

/-- An entry whose key is kept stays. -/
theorem get_filter (keep : κ → Bool) (k : κ) (m : List (κ × β)) :
    get k (m.filter fun item => keep item.1) = if keep k then get k m else none := by
  induction m with
  | nil => simp
  | cons item m ih =>
    rw [List.filter_cons, get_cons]
    by_cases hkey : item.1 = k
    · rw [hkey, if_pos rfl]
      by_cases hkeep : keep k = true
      · rw [if_pos hkeep, if_pos hkeep, get_cons, if_pos hkey]
      · rw [if_neg hkeep, if_neg hkeep, ih, if_neg hkeep]
    · rw [if_neg hkey]
      by_cases hkeep : keep item.1 = true
      · rw [if_pos hkeep, get_cons, if_neg hkey, ih]
      · rw [if_neg hkeep, ih]

theorem get_mapValues {γ : Type} (f : β → γ) (k : κ) (m : List (κ × β)) :
    get k (m.map fun item => (item.1, f item.2)) = (get k m).map f := by
  induction m with
  | nil => rfl
  | cons item m ih =>
    rw [List.map_cons, get_cons, get_cons, ih]
    by_cases hkey : item.1 = k
    · rw [if_pos hkey, if_pos hkey]
      rfl
    · rw [if_neg hkey, if_neg hkey]

end Items

/-- What a step does to the entry of its key, and whether it is a change. -/
inductive Edit (β : Type) where
  | keep
  | put (v : β) (changed : Bool)
  | drop (changed : Bool)

namespace Edit

def changed : Edit β → Bool
  | keep => false
  | put _ changed => changed
  | drop changed => changed

/-- The entry after the step. -/
def result : Edit β → Option β → Option β
  | keep, v => v
  | put v _, _ => some v
  | drop _, _ => none

/-- The step itself, on the dictionary and the flag. -/
def run (k : κ) : Edit β → List (κ × β) × Bool → List (κ × β) × Bool
  | keep, s => s
  | put v changed, s => (Items.set k v s.1, s.2 || changed)
  | drop changed, s => (Items.erase k s.1, s.2 || changed)

theorem get_run (e : Edit β) (k j : κ) (s : List (κ × β) × Bool) :
    Items.get j (e.run k s).1 = if j = k then e.result (Items.get j s.1) else Items.get j s.1 := by
  cases e with
  | keep => exact (ite_self _).symm
  | put v changed => exact Items.get_set k j v s.1
  | drop changed => exact Items.get_erase k j s.1

theorem changed_run (e : Edit β) (k : κ) (s : List (κ × β) × Bool) :
    (e.run k s).2 = (s.2 || e.changed) := by
  cases e with
  | keep => exact (Bool.or_false _).symm
  | put v changed => rfl
  | drop changed => rfl

/-- Steps for other keys leave an entry alone. -/
theorem get_foldl_of_not_mem (edit : κ → Option β → Edit β) (keys : List κ)
    (s : List (κ × β) × Bool) {j : κ} (h : j ∉ keys) :
    Items.get j (keys.foldl (fun s k => (edit k (Items.get k s.1)).run k s) s).1 =
      Items.get j s.1 := by
  induction keys generalizing s with
  | nil => rfl
  | cons k keys ih =>
    rw [List.mem_cons, not_or] at h
    rw [List.foldl_cons, ih _ h.2, get_run, if_neg h.1]

end Edit

/-- A step for each key, with the entry it has. -/
def editAll (edit : κ → Option β → Edit β) (keys : List κ) (m : List (κ × β)) :
    List (κ × β) × Bool :=
  keys.foldl (fun s k => (edit k (Items.get k s.1)).run k s) (m, false)

section
variable (edit : κ → Option β → Edit β) {keys : List κ} (m : List (κ × β))

theorem get_foldl_edit (hnodup : keys.Nodup) (s : List (κ × β) × Bool) {j : κ} (h : j ∈ keys) :
    Items.get j (keys.foldl (fun s k => (edit k (Items.get k s.1)).run k s) s).1 =
      (edit j (Items.get j s.1)).result (Items.get j s.1) := by
  induction keys generalizing s with
  | nil => exact absurd h List.not_mem_nil
  | cons k keys ih =>
    obtain ⟨hk, hnodup⟩ := List.nodup_cons.mp hnodup
    rw [List.foldl_cons]
    rcases List.mem_cons.mp h with rfl | hj
    · rw [Edit.get_foldl_of_not_mem edit keys _ hk, Edit.get_run, if_pos rfl]
    · have hne : j ≠ k := by
        rintro rfl
        exact hk hj
      rw [ih hnodup _ hj, Edit.get_run, if_neg hne]

/-- The entry of a key is what its own step makes of it. -/
theorem get_editAll (hnodup : keys.Nodup) (j : κ) :
    Items.get j (editAll edit keys m).1 =
      if j ∈ keys then (edit j (Items.get j m)).result (Items.get j m) else Items.get j m := by
  unfold editAll
  by_cases h : j ∈ keys
  · rw [if_pos h, get_foldl_edit edit hnodup _ h]
  · rw [if_neg h, Edit.get_foldl_of_not_mem edit keys _ h]

theorem changed_foldl (hnodup : keys.Nodup) (s : List (κ × β) × Bool) :
    (keys.foldl (fun s k => (edit k (Items.get k s.1)).run k s) s).2 = true ↔
      s.2 = true ∨ ∃ k ∈ keys, (edit k (Items.get k s.1)).changed = true := by
  induction keys generalizing s with
  | nil => simp
  | cons k keys ih =>
    obtain ⟨hk, hnodup⟩ := List.nodup_cons.mp hnodup
    have hsame : ∀ j ∈ keys, Items.get j ((edit k (Items.get k s.1)).run k s).1 =
        Items.get j s.1 := by
      intro j hj
      rw [Edit.get_run, if_neg]
      rintro rfl
      exact hk hj
    rw [List.foldl_cons, ih hnodup, Edit.changed_run, Bool.or_eq_true, List.exists_mem_cons_iff,
      or_assoc]
    refine or_congr_right (or_congr_right (exists_congr fun j => and_congr_right fun hj => ?_))
    rw [hsame j hj]

/-- Something has changed when a step says so. -/
theorem changed_editAll (hnodup : keys.Nodup) :
    (editAll edit keys m).2 = true ↔ ∃ k ∈ keys, (edit k (Items.get k m)).changed = true := by
  unfold editAll
  rw [changed_foldl edit hnodup]
  exact or_iff_right Bool.false_ne_true

/-- Keys that are all different stay so. -/
theorem nodup_editAll (hm : (m.map (·.1)).Nodup) : ((editAll edit keys m).1.map (·.1)).Nodup := by
  have hrun : ∀ (e : Edit β) (k : κ) (s : List (κ × β) × Bool), (s.1.map (·.1)).Nodup →
      ((e.run k s).1.map (·.1)).Nodup := by
    intro e k s hs
    cases e with
    | keep => exact hs
    | put v changed => exact Items.nodup_set hs k v
    | drop changed => exact (List.Sublist.map _ List.filter_sublist).nodup hs
  have hfold : ∀ (keys : List κ) (s : List (κ × β) × Bool), (s.1.map (·.1)).Nodup →
      ((keys.foldl (fun s k => (edit k (Items.get k s.1)).run k s) s).1.map (·.1)).Nodup := by
    intro keys
    induction keys with
    | nil => exact fun s hs => hs
    | cons k keys ih => exact fun s hs => ih _ (hrun _ k s hs)
  exact hfold keys (m, false) hm

end

end Infinito.Lib
