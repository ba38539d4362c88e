import Infinito.Py.Text

/-!
# The lines of a text

What `str.splitlines` yields has no line break in it, and `"\n".join` puts a line feed where
one was: of a text without carriage returns that does not end in a break, every break comes out
as a line feed and everything else as it is (`joinLines_splitlines`).
-/

set_option autoImplicit false

namespace Infinito.Py

theorem not_lineBreak_of_printable {c : Char} (h : 0x20 ≤ c.toNat ∧ c.toNat < 0x7f) :
    isLineBreak c = false := by
  unfold isLineBreak
  simp only [Bool.or_eq_false_iff, Bool.and_eq_false_iff, decide_eq_false_iff_not, beq_eq_false_iff_ne]
  omega

theorem isSpace_of_isLineBreak {c : Char} (h : isLineBreak c = true) : isSpace c = true := by
  unfold isLineBreak at h
  unfold isSpace
  simp only [Bool.or_eq_true, Bool.and_eq_true, decide_eq_true_eq, beq_iff_eq] at h ⊢
  omega

theorem splitlinesFrom_unbroken {acc t line : Text} (hacc : ∀ c ∈ acc, isLineBreak c = false)
    (h : line ∈ splitlinesFrom acc t) : ∀ c ∈ line, isLineBreak c = false := by
  have hnil : ∀ c ∈ ([] : Text), isLineBreak c = false := by simp
  induction acc, t using splitlinesFrom.induct with
  | case1 => cases h
  | case2 acc hne =>
    rw [splitlinesFrom, if_neg hne] at h
    rw [List.mem_singleton.mp h]
    intro c hc
    exact hacc c (List.mem_reverse.mp hc)
  | case3 acc cs ih =>
    rw [splitlinesFrom] at h
    rcases List.mem_cons.mp h with rfl | h
    · intro c hc
      exact hacc c (List.mem_reverse.mp hc)
    · exact ih hnil h
  | case4 acc c cs hcr hbreak ih =>
    rw [splitlinesFrom.eq_3 _ _ _ hcr, if_pos hbreak] at h
    rcases List.mem_cons.mp h with rfl | h
    · intro c hc
      exact hacc c (List.mem_reverse.mp hc)
    · exact ih hnil h
  | case5 acc c cs hcr hbreak ih =>
    rw [splitlinesFrom.eq_3 _ _ _ hcr, if_neg hbreak] at h
    refine ih (fun d hd => ?_) h
    rcases List.mem_cons.mp hd with rfl | hd
    · exact Bool.eq_false_iff.mpr hbreak
    · exact hacc d hd

theorem splitlines_unbroken {t line : Text} (h : line ∈ splitlines t) :
    ∀ c ∈ line, isLineBreak c = false :=
  splitlinesFrom_unbroken (by simp) h

/-- What becomes of a character that is a line break. -/
def relined (c : Char) : Char := if isLineBreak c then '\n' else c

theorem joinLines_cons {l : Text} {ls : List Text} (hne : ls ≠ []) :
    joinLines (l :: ls) = l ++ '\n' :: joinLines ls := by
  cases ls with
  | nil => exact absurd rfl hne
  | cons l' ls => simp [joinLines, List.intercalate]

theorem splitlinesFrom_ne_nil {acc t : Text} (h : acc ≠ [] ∨ t ≠ []) : splitlinesFrom acc t ≠ [] := by
  induction acc, t using splitlinesFrom.induct with
  | case1 => exact absurd h (by simp)
  | case2 acc hne =>
    rw [splitlinesFrom, if_neg hne]
    exact List.cons_ne_nil _ _
  | case3 acc cs ih =>
    rw [splitlinesFrom]
    exact List.cons_ne_nil _ _
  | case4 acc c cs hcr hbreak ih =>
    rw [splitlinesFrom.eq_3 _ _ _ hcr, if_pos hbreak]
    exact List.cons_ne_nil _ _
  | case5 acc c cs hcr hbreak ih =>
    rw [splitlinesFrom.eq_3 _ _ _ hcr, if_neg hbreak]
    exact ih (Or.inl (List.cons_ne_nil _ _))

theorem joinLines_splitlinesFrom {acc t : Text} (hcr : '\r' ∉ t)
    (hlast : ∀ c ∈ t.getLast?, isLineBreak c = false) (hne : acc ≠ [] ∨ t ≠ []) :
    joinLines (splitlinesFrom acc t) = acc.reverse ++ t.map relined := by
  induction t generalizing acc with
  | nil =>
    have hacc : acc ≠ [] := by simpa using hne
    rw [splitlinesFrom, if_neg hacc]
    simp [joinLines, List.intercalate]
  | cons c t ih =>
    have hc : c ≠ '\r' := fun h => hcr (h ▸ List.mem_cons_self)
    have ht : '\r' ∉ t := fun h => hcr (List.mem_cons_of_mem _ h)
    have hlast' : ∀ x ∈ t.getLast?, isLineBreak x = false := by
      intro x hx
      refine hlast x ?_
      rw [List.getLast?_cons, Option.mem_def.mp hx]
      rfl
    rw [splitlinesFrom.eq_3 _ _ _ (fun cs h _ => hc h)]
    cases hbreak : isLineBreak c with
    | true =>
      have hrest : t ≠ [] := by
        rintro rfl
        have := hlast c rfl
        rw [hbreak] at this
        cases this
      rw [if_pos rfl, joinLines_cons (splitlinesFrom_ne_nil (Or.inr hrest)),
        ih ht hlast' (Or.inr hrest), List.map_cons, relined, if_pos hbreak]
      rfl
    | false =>
      rw [if_neg Bool.false_ne_true, ih ht hlast' (Or.inl (List.cons_ne_nil _ _)), List.map_cons,
        relined, if_neg (by simp [hbreak])]
      simp

/-- **The lines joined are the text with its breaks as line feeds.** -/
theorem joinLines_splitlines {t : Text} (hcr : '\r' ∉ t)
    (hlast : ∀ c ∈ t.getLast?, isLineBreak c = false) (hne : t ≠ []) :
    joinLines (splitlines t) = t.map relined :=
  joinLines_splitlinesFrom hcr hlast (Or.inr hne)

end Infinito.Py
