import Infinito.Lib.Lists

/-!
# Cutting a list on both sides

What is cut off on both sides of a list is what passes a test. A list that has nothing to cut stays
so when something is put behind it exactly if all of that is cut again (`trim_append_right`,
`trim_append_ne`). The lines of a text are its pieces between two separators.
-/

set_option autoImplicit false

namespace Infinito.Lib

variable {α : Type} {p : α → Bool} {l w : List α}

/-- The list without what passes the test on both sides. -/
def trim (p : α → Bool) (l : List α) : List α := (l.dropWhile p).rdropWhile p

theorem trim_sublist (p : α → Bool) (l : List α) : (trim p l).Sublist l :=
  (List.rdropWhile_prefix _ _).sublist.trans (List.dropWhile_sublist _)

theorem trim_eq_nil_iff : trim p l = [] ↔ ∀ a ∈ l, p a = true := by
  unfold trim
  rw [List.rdropWhile_eq_nil_iff]
  constructor
  · intro h a ha
    by_contra hno
    have hdrop : l.dropWhile p ≠ [] := by
      intro hnil
      exact hno (List.dropWhile_eq_nil_iff.mp hnil a ha)
    have hhead := List.head_dropWhile_not p hdrop
    rw [h _ (List.head_mem hdrop)] at hhead
    cases hhead
  · intro h a ha
    exact h a ((List.dropWhile_sublist _).subset ha)

theorem trim_append_left (h : ∀ a ∈ w, p a = true) : trim p (w ++ l) = trim p l := by
  unfold trim
  rw [List.dropWhile_append_of_pos h]

theorem rdropWhile_append_right (h : ∀ a ∈ w, p a = true) :
    (l ++ w).rdropWhile p = l.rdropWhile p := by
  unfold List.rdropWhile
  rw [List.reverse_append, List.dropWhile_append_of_pos fun a ha => h a (List.mem_reverse.mp ha)]

theorem trim_append_right (h : ∀ a ∈ w, p a = true) : trim p (l ++ w) = trim p l := by
  unfold trim
  rw [List.dropWhile_append]
  by_cases hnil : (l.dropWhile p).isEmpty = true
  · rw [if_pos hnil, List.dropWhile_eq_nil_iff.mpr h, List.isEmpty_iff.mp hnil]
  · rw [if_neg hnil, rdropWhile_append_right h]

theorem rdropWhile_append {a : α} (ha : a ∈ w) (hp : p a = false) :
    (l ++ w).rdropWhile p = l ++ w.rdropWhile p := by
  have hrest : w.reverse.dropWhile p ≠ [] := by
    intro hnil
    have := List.dropWhile_eq_nil_iff.mp hnil a (List.mem_reverse.mpr ha)
    rw [hp] at this
    cases this
  unfold List.rdropWhile
  rw [List.reverse_append, List.dropWhile_append, if_neg (by simpa using hrest),
    List.reverse_append, List.reverse_reverse]

theorem dropWhile_of_trimmed (h : trim p l = l) : l.dropWhile p = l := by
  have hle := (List.rdropWhile_prefix p (l.dropWhile p)).length_le
  unfold trim at h
  rw [h] at hle
  exact (List.dropWhile_sublist p).eq_of_length_le hle

theorem dropWhile_of_append (h : (l ++ w).dropWhile p = l ++ w) : l.dropWhile p = l := by
  cases l with
  | nil => rfl
  | cons a l =>
    by_cases hp : p a = true
    · rw [List.cons_append, List.dropWhile_cons_of_pos hp] at h
      have hle := (List.dropWhile_sublist (l := l ++ w) p).length_le
      rw [h, List.length_cons] at hle
      omega
    · exact List.dropWhile_cons_of_neg hp

theorem trim_append_ne (h : trim p l = l) (hne : l ≠ []) {a : α} (ha : a ∈ w) (hp : p a = false) :
    trim p (l ++ w) ≠ l := by
  have hdrop : (l ++ w).dropWhile p = l ++ w := by
    rw [List.dropWhile_append, dropWhile_of_trimmed h, if_neg (by simpa using hne)]
  unfold trim
  rw [hdrop, rdropWhile_append ha hp]
  intro heq
  have hnil : w.rdropWhile p = [] := List.append_right_eq_self.mp heq
  rw [List.rdropWhile_eq_nil_iff.mp hnil a ha] at hp
  cases hp

/-- What is not cut begins the trimmed list exactly if it begins the list behind what is cut. -/
theorem prefix_trim_iff {q : List α} (hq : ∀ a ∈ q, p a = false) :
    q <+: trim p l ↔ q <+: l.dropWhile p := by
  unfold trim
  constructor
  · intro h
    exact h.trans (List.rdropWhile_prefix _ _)
  · rintro ⟨rest, hrest⟩
    rw [← hrest]
    by_cases hall : ∀ a ∈ rest, p a = true
    · have hself : q.rdropWhile p = q := by
        refine List.rdropWhile_eq_self_iff.mpr fun hne => ?_
        rw [hq _ (List.getLast_mem hne)]
        exact Bool.false_ne_true
      refine ⟨[], ?_⟩
      rw [List.append_nil, rdropWhile_append_right hall, hself]
    · push Not at hall
      obtain ⟨a, ha, hp⟩ := hall
      rw [rdropWhile_append ha (Bool.eq_false_iff.mpr hp)]
      exact List.prefix_append _ _

/-- Cutting keeps what has nothing to cut. -/
theorem prefix_trim {q : List α} (hq : ∀ a ∈ q, p a = false) (h : q <+: l) : q <+: trim p l := by
  refine (prefix_trim_iff hq).mpr ?_
  cases q with
  | nil => exact List.nil_prefix
  | cons a q =>
    obtain ⟨rest, rfl⟩ := h
    have ha : ¬ p a = true := by
      rw [hq a List.mem_cons_self]
      exact Bool.false_ne_true
    rw [List.cons_append, List.dropWhile_cons_of_neg ha]
    exact List.prefix_append (a :: q) rest

theorem infix_dropWhile {q : List α} (hq : ∀ a ∈ q, p a = false) (h : q <:+: l) :
    q <:+: l.dropWhile p := by
  induction l with
  | nil => exact h
  | cons a l ih =>
    by_cases ha : p a = true
    · rw [List.dropWhile_cons_of_pos ha]
      rcases List.infix_cons_iff.mp h with hprefix | hinfix
      · cases q with
        | nil => exact List.nil_infix
        | cons b q =>
          obtain ⟨rfl, -⟩ := List.cons_prefix_cons.mp hprefix
          rw [hq b List.mem_cons_self] at ha
          cases ha
      · exact ih hinfix
    · rwa [List.dropWhile_cons_of_neg ha]

theorem infix_trim {q : List α} (hq : ∀ a ∈ q, p a = false) (h : q <:+: l) : q <:+: trim p l := by
  unfold trim List.rdropWhile
  rw [← List.reverse_infix, List.reverse_reverse]
  refine infix_dropWhile (fun a ha => hq a (List.mem_reverse.mp ha)) ?_
  exact List.reverse_infix.mpr (infix_dropWhile hq h)

theorem trim_map {β : Type} {f : β → α} {r : β → Bool} (h : ∀ b, p (f b) = r b) (m : List β) :
    trim p (m.map f) = (trim r m).map f := by
  have hr : p ∘ f = r := funext h
  unfold trim List.rdropWhile
  rw [List.dropWhile_map, hr, ← List.map_reverse, List.dropWhile_map, hr, ← List.map_reverse]

/-! ## Lines -/

section Lines
variable {sep : α} {pieces more : List (List α)}

theorem intercalate_cons (piece : List α) :
    [sep].intercalate (piece :: more) = piece ++ more.flatMap fun next => sep :: next := by
  induction more generalizing piece with
  | nil => simp
  | cons next more ih =>
    rw [List.intercalate_cons_cons, ih, List.flatMap_cons]
    simp

theorem intercalate_append (h : pieces ≠ []) :
    [sep].intercalate (pieces ++ more) =
      [sep].intercalate pieces ++ more.flatMap fun next => sep :: next := by
  cases pieces with
  | nil => exact absurd rfl h
  | cons piece pieces =>
    rw [List.cons_append, intercalate_cons, intercalate_cons, List.flatMap_append,
      List.append_assoc]

end Lines

end Infinito.Lib
