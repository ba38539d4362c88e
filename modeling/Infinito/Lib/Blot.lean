import Mathlib.Data.List.Infix

/-!
# Blotted lists

A list is *blotted* when stretches of it are overwritten by marks: elements of a class
`p` that is kept apart for the purpose, such as asterisks over a secret or replacement
characters over bytes that would not decode. What is not a mark was there before, and in
the same order — so a stretch of the blotted list without a mark in it is a stretch of the
original (`Blot.isInfix`). That is all masking needs to know about how its pieces were
chosen.

The marks must not be empty: a stretch that is cut out and not written over joins its two
neighbours, and the join can spell something the original did not.
-/

set_option autoImplicit false

namespace Infinito.Lib

variable {α : Type} {p : α → Prop}

/-- `m` is `l` with stretches overwritten by marks. -/
inductive Blot (p : α → Prop) : List α → List α → Prop where
  | nil : Blot p [] []
  | keep (a : α) {l m : List α} : Blot p l m → Blot p (a :: l) (a :: m)
  | mark (u : List α) {v l m : List α} (ne : v ≠ []) (marks : ∀ a ∈ v, p a) :
      Blot p l m → Blot p (u ++ l) (v ++ m)

theorem Blot.refl (l : List α) : Blot p l l := by
  induction l with
  | nil => exact .nil
  | cons a l ih => exact .keep a ih

/-- Marks may be added where nothing was. -/
theorem Blot.marks {l m v : List α} (marks : ∀ a ∈ v, p a) (h : Blot p l m) :
    Blot p l (v ++ m) := by
  cases v with
  | nil => exact h
  | cons a v => exact .mark [] (List.cons_ne_nil a v) marks h

theorem Blot.append {l m l' m' : List α} (h : Blot p l m) (h' : Blot p l' m') :
    Blot p (l ++ l') (m ++ m') := by
  induction h with
  | nil => exact h'
  | keep a _ ih => exact .keep a ih
  | mark u ne marks _ ih =>
    rw [List.append_assoc, List.append_assoc]
    exact .mark u ne marks ih

theorem Blot.isPrefix {l m w : List α} (h : Blot p l m) (hw : ∀ a ∈ w, ¬ p a) (hpre : w <+: m) :
    w <+: l := by
  induction h generalizing w with
  | nil => exact hpre
  | keep a _ ih =>
    cases w with
    | nil => exact List.nil_prefix
    | cons b w =>
      obtain ⟨rfl, htail⟩ := List.cons_prefix_cons.mp hpre
      exact List.cons_prefix_cons.mpr
        ⟨rfl, ih (fun a ha => hw a (List.mem_cons_of_mem _ ha)) htail⟩
  | @mark u v l m ne marks _ ih =>
    cases w with
    | nil => exact List.nil_prefix
    | cons b w =>
      -- the stretch would have to begin with a mark
      cases v with
      | nil => exact absurd rfl ne
      | cons c v =>
        obtain ⟨rfl, -⟩ := List.cons_prefix_cons.mp hpre
        exact absurd (marks b List.mem_cons_self) (hw b List.mem_cons_self)

/-- A stretch with no mark in it starts after the marks, or is empty. -/
theorem isInfix_of_marks_append {v m w : List α} (marks : ∀ a ∈ v, p a) (hw : ∀ a ∈ w, ¬ p a)
    (h : w <:+: v ++ m) : w <:+: m := by
  induction v with
  | nil => exact h
  | cons c v ih =>
    rcases List.infix_cons_iff.mp h with hpre | hin
    · cases w with
      | nil => exact List.nil_infix
      | cons b w =>
        obtain ⟨rfl, -⟩ := List.cons_prefix_cons.mp hpre
        exact absurd (marks b List.mem_cons_self) (hw b List.mem_cons_self)
    · exact ih (fun a ha => marks a (List.mem_cons_of_mem _ ha)) hin

theorem Blot.isInfix {l m w : List α} (h : Blot p l m) (hw : ∀ a ∈ w, ¬ p a) (hin : w <:+: m) :
    w <:+: l := by
  induction h with
  | nil => exact hin
  | keep a h ih =>
    rcases List.infix_cons_iff.mp hin with hpre | hin
    · exact ((Blot.keep a h).isPrefix hw hpre).isInfix
    · exact (ih hin).trans (List.suffix_cons _ _).isInfix
  | mark u ne marks _ ih =>
    exact (ih (isInfix_of_marks_append marks hw hin)).trans (List.suffix_append _ _).isInfix

end Infinito.Lib
