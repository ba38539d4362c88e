import Mathlib.Data.List.Nodup

/-!
# The first of every key

A list in which elements may share a key, and the list of those that come first with theirs, in the
same order. An element is in it exactly if it is what a search for its key finds (`mem_firsts`).
-/

set_option autoImplicit false

namespace Infinito.Lib

variable {α κ : Type} [DecidableEq κ] {key : α → κ} {seen : List κ} {l m : List α} {a : α}

/-- The first element of every key that is not in `seen`. -/
def firsts (key : α → κ) : List κ → List α → List α
  | _, [] => []
  | seen, a :: l =>
      if key a ∈ seen then firsts key seen l else a :: firsts key (key a :: seen) l

theorem firsts_congr {seen' : List κ} (h : ∀ k, k ∈ seen ↔ k ∈ seen') :
    firsts key seen l = firsts key seen' l := by
  induction l generalizing seen seen' with
  | nil => rfl
  | cons a l ih =>
    rw [firsts, firsts]
    by_cases ha : key a ∈ seen
    · rw [if_pos ha, if_pos ((h _).mp ha), ih h]
    · rw [if_neg ha, if_neg fun ha' => ha ((h _).mpr ha')]
      refine congrArg (a :: ·) (ih fun k => ?_)
      rw [List.mem_cons, List.mem_cons, h]

theorem firsts_append :
    firsts key seen (l ++ m) = firsts key seen l ++ firsts key (l.map key ++ seen) m := by
  induction l generalizing seen with
  | nil => rfl
  | cons a l ih =>
    rw [List.cons_append, firsts, firsts]
    by_cases ha : key a ∈ seen
    · rw [if_pos ha, if_pos ha, ih]
      refine congrArg (firsts key seen l ++ ·) (firsts_congr fun k => ?_)
      rw [List.map_cons, List.cons_append, List.mem_cons]
      constructor
      · exact Or.inr
      · rintro (rfl | h)
        · exact List.mem_append_right _ ha
        · exact h
    · rw [if_neg ha, if_neg ha, ih, List.cons_append]
      refine congrArg (fun rest => a :: (firsts key (key a :: seen) l ++ rest))
        (firsts_congr fun k => ?_)
      simp only [List.mem_append, List.mem_cons, List.map_cons]
      tauto

/-- Nothing comes first when every key was seen. -/
theorem firsts_of_seen (h : ∀ a ∈ l, key a ∈ seen) : firsts key seen l = [] := by
  induction l with
  | nil => rfl
  | cons a l ih =>
    rw [firsts, if_pos (h a List.mem_cons_self)]
    exact ih fun b hb => h b (List.mem_cons_of_mem _ hb)

/-- An element comes first exactly if a search for its key finds it. -/
theorem mem_firsts :
    a ∈ firsts key seen l ↔ key a ∉ seen ∧ l.find? (fun b => key b = key a) = some a := by
  induction l generalizing seen with
  | nil => simp [firsts]
  | cons b l ih =>
    rw [firsts, List.find?_cons]
    by_cases hb : key b ∈ seen
    · rw [if_pos hb, ih]
      by_cases heq : key b = key a
      · rw [heq] at hb
        exact iff_of_false (fun h => h.1 hb) (fun h => h.1 hb)
      · simp [heq]
    · rw [if_neg hb, List.mem_cons, ih, List.mem_cons, not_or]
      by_cases heq : key b = key a
      · have hself : decide (key b = key a) = true := decide_eq_true heq
        rw [hself]
        constructor
        · rintro (rfl | ⟨⟨hne, -⟩, -⟩)
          · exact ⟨hb, rfl⟩
          · exact absurd heq.symm hne
        · rintro ⟨-, h⟩
          exact Or.inl (Option.some.inj h).symm
      · have hne : a ≠ b := by
          rintro rfl
          exact heq rfl
        have hself : decide (key b = key a) = false := decide_eq_false heq
        rw [hself]
        constructor
        · rintro (h | ⟨⟨-, hseen⟩, h⟩)
          · exact absurd h hne
          · exact ⟨hseen, h⟩
        · rintro ⟨hseen, h⟩
          exact Or.inr ⟨⟨Ne.symm heq, hseen⟩, h⟩

theorem mem_key_firsts {k : κ} : (∃ a ∈ firsts key [] l, key a = k) ↔ k ∈ l.map key := by
  constructor
  · rintro ⟨a, ha, rfl⟩
    exact List.mem_map_of_mem (List.mem_of_find?_eq_some (mem_firsts.mp ha).2)
  · intro h
    obtain ⟨b, hb, rfl⟩ := List.mem_map.mp h
    have hsome : (l.find? fun c => key c = key b).isSome = true :=
      List.find?_isSome.mpr ⟨b, hb, decide_eq_true rfl⟩
    obtain ⟨a, ha⟩ := Option.isSome_iff_exists.mp hsome
    have hkey : key a = key b := by simpa using List.find?_some ha
    exact ⟨a, mem_firsts.mpr ⟨List.not_mem_nil, by rw [hkey]; exact ha⟩, hkey⟩

theorem nodup_firsts : ((firsts key seen l).map key).Nodup := by
  induction l generalizing seen with
  | nil => exact List.nodup_nil
  | cons a l ih =>
    rw [firsts]
    split
    · exact ih
    · rw [List.map_cons, List.nodup_cons]
      refine ⟨fun h => ?_, ih⟩
      obtain ⟨b, hb, hkey⟩ := List.mem_map.mp h
      exact (mem_firsts.mp hb).1 (hkey ▸ List.mem_cons_self)

end Infinito.Lib
