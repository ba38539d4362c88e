import Mathlib.Data.List.Perm.Basic
import Mathlib.Data.List.Nodup
import Mathlib.Data.List.DropRight

/-!
# Lists that are edited in place

Two ways a loop edits a list without otherwise disturbing it: it drops the first entry
that passes a test, or it replaces one. Both facts are permutations, because what is
asked of such a list afterwards — no key twice, nothing lost — does not look at the order.
-/

namespace Infinito.Lib

variable {α β : Type}

/-- The entry `find?` finds and the entries `eraseP` leaves are the whole list. -/
theorem perm_cons_eraseP_of_find? {l : List α} {p : α → Bool} {a : α}
    (h : l.find? p = some a) : l.Perm (a :: l.eraseP p) := by
  obtain ⟨hp, as, bs, rfl, has⟩ := List.find?_eq_some_iff_append.mp h
  have hno : ∀ b ∈ as, ¬ p b = true := fun b hb => by simpa using has b hb
  rw [List.eraseP_append_right _ hno, List.eraseP_cons_of_pos hp]
  exact List.perm_middle

theorem find?_isSome_of_any {l : List α} {p : α → Bool} (h : l.any p = true) :
    ∃ a, l.find? p = some a := by
  obtain ⟨a, ha, hp⟩ := List.any_eq_true.mp h
  exact Option.isSome_iff_exists.mp (List.find?_isSome.mpr ⟨a, ha, hp⟩)

/-- Replacing one entry moves only that entry's key. -/
theorem filterMap_replace_perm {f : α → Option β} {as bs : List α} {a' : α} :
    ((as ++ a' :: bs).filterMap f).Perm ((f a').toList ++ (as ++ bs).filterMap f) := by
  have hperm : (as ++ a' :: bs).Perm (a' :: (as ++ bs)) := List.perm_middle
  refine (hperm.filterMap f).trans ?_
  rw [List.filterMap_cons]
  cases f a' <;> exact List.Perm.refl _

/-- A stretch without `a` in it lies on one side of `a`. -/
theorem infix_of_infix_append_cons {a : α} {w l m : List α} (hw : a ∉ w)
    (h : w <:+: l ++ a :: m) : w <:+: l ∨ w <:+: m := by
  induction l with
  | nil =>
    rcases List.infix_cons_iff.mp h with hpre | hin
    · cases w with
      | nil => exact Or.inl List.nil_infix
      | cons b w =>
        obtain ⟨rfl, -⟩ := List.cons_prefix_cons.mp hpre
        exact absurd List.mem_cons_self hw
    · exact Or.inr hin
  | cons b l ih =>
    rcases List.infix_cons_iff.mp h with hpre | hin
    · have hcut : (b :: l) ++ [a] <+: b :: (l ++ a :: m) := ⟨m, by simp⟩
      rcases List.prefix_or_prefix_of_prefix hpre hcut with hl | hl
      · rcases List.prefix_concat_iff.mp hl with rfl | hl
        · exact absurd (by simp) hw
        · exact Or.inl hl.isInfix
      · exact absurd (hl.subset (by simp)) hw
    · rcases ih hin with h | h
      · exact Or.inl (h.trans (List.suffix_cons _ _).isInfix)
      · exact Or.inr h

/-- The pieces of a list that is split have no separator in them, and nothing new. -/
theorem mem_splitOn [BEq α] [LawfulBEq α] {a : α} {l piece : List α} (h : piece ∈ l.splitOn a) :
    a ∉ piece ∧ ∀ x ∈ piece, x ∈ l := by
  induction l generalizing piece with
  | nil =>
    rw [List.splitOn_nil, List.mem_singleton] at h
    simp [h]
  | cons y l ih =>
    rw [List.splitOn_cons_eq_if_modifyHead] at h
    split at h
    · rcases List.mem_cons.mp h with rfl | h
      · simp
      · exact ⟨(ih h).1, fun x hx => List.mem_cons_of_mem _ ((ih h).2 x hx)⟩
    · rename_i hy
      obtain ⟨first, rest, heq⟩ := List.exists_cons_of_ne_nil (List.splitOn_ne_nil a l)
      rw [heq, List.modifyHead_cons] at h
      rcases List.mem_cons.mp h with rfl | h
      · have hfirst : first ∈ l.splitOn a := by simp [heq]
        obtain ⟨hnot, hmem⟩ := ih hfirst
        refine ⟨?_, ?_⟩
        · rw [List.mem_cons, not_or]
          exact ⟨fun hay => hy (by simp [hay]), hnot⟩
        · intro x hx
          rcases List.mem_cons.mp hx with rfl | hx
          · exact List.mem_cons_self
          · exact List.mem_cons_of_mem _ (hmem x hx)
      · have hpiece : piece ∈ l.splitOn a := by simp [heq, h]
        obtain ⟨hnot, hmem⟩ := ih hpiece
        exact ⟨hnot, fun x hx => List.mem_cons_of_mem _ (hmem x hx)⟩

/-- What is in a list that is split is a separator, or in a piece. -/
theorem exists_mem_splitOn [BEq α] [LawfulBEq α] {a x : α} {l : List α} (h : x ∈ l) :
    x = a ∨ ∃ piece ∈ l.splitOn a, x ∈ piece := by
  induction l with
  | nil => cases h
  | cons y l ih =>
    rw [List.splitOn_cons_eq_if_modifyHead]
    obtain ⟨first, rest, heq⟩ := List.exists_cons_of_ne_nil (List.splitOn_ne_nil a l)
    by_cases hy : (y == a) = true
    · rw [if_pos hy]
      cases List.mem_cons.mp h with
      | inl hx => exact Or.inl (hx.trans (eq_of_beq hy))
      | inr hx =>
        obtain rfl | ⟨piece, hpiece, hx⟩ := ih hx
        · exact Or.inl rfl
        · exact Or.inr ⟨piece, List.mem_cons_of_mem _ hpiece, hx⟩
    · rw [if_neg hy, heq, List.modifyHead_cons]
      cases List.mem_cons.mp h with
      | inl hx =>
        rw [hx]
        exact Or.inr ⟨y :: first, List.mem_cons_self, List.mem_cons_self⟩
      | inr hx =>
        rw [heq] at ih
        obtain rfl | ⟨piece, hpiece, hx⟩ := ih hx
        · exact Or.inl rfl
        · right
          cases List.mem_cons.mp hpiece with
          | inl hfirst =>
            rw [hfirst] at hx
            exact ⟨y :: first, List.mem_cons_self, List.mem_cons_of_mem _ hx⟩
          | inr hrest => exact ⟨piece, List.mem_cons_of_mem _ hrest, hx⟩

/-- A list is cut behind the last of an element. -/
theorem exists_last {a : α} {l : List α} (h : a ∈ l) :
    ∃ front back, l = front ++ a :: back ∧ a ∉ back := by
  obtain ⟨back, front, hsplit, hlast⟩ := List.eq_append_cons_of_mem (List.mem_reverse.mpr h)
  refine ⟨front.reverse, back.reverse, ?_, fun hmem => hlast (List.mem_reverse.mp hmem)⟩
  rw [← List.reverse_reverse l, hsplit, List.reverse_append, List.reverse_cons, List.append_assoc]
  rfl

/-- What is cut off the right uncovers nothing on the left. -/
theorem dropWhile_rdropWhile {p : α → Bool} {l : List α} (h : l.dropWhile p = l) :
    (l.rdropWhile p).dropWhile p = l.rdropWhile p := by
  obtain ⟨u, hu⟩ : l.rdropWhile p <+: l := List.rdropWhile_prefix _ _
  cases hr : l.rdropWhile p with
  | nil => rfl
  | cons c cs =>
    rw [hr, List.cons_append] at hu
    subst hu
    by_cases hc : p c = true
    · rw [List.dropWhile_cons_of_pos hc] at h
      have hlen := congrArg List.length h
      have hle := (List.dropWhile_suffix (l := cs ++ u) p).length_le
      simp only [List.length_cons] at hlen
      omega
    · rw [List.dropWhile_cons_of_neg hc]

/-- A list cut on both sides cannot be cut again. -/
theorem trim_trim (p : α → Bool) (l : List α) :
    (((l.dropWhile p).rdropWhile p).dropWhile p).rdropWhile p = (l.dropWhile p).rdropWhile p := by
  rw [dropWhile_rdropWhile (List.dropWhile_idempotent (p := p) l)]
  exact List.rdropWhile_idempotent (p := p) _

/-- Where nothing is to be cut, nothing is. -/
theorem trim_of_forall {p : α → Bool} {l : List α} (h : ∀ a ∈ l, p a = false) :
    (l.dropWhile p).rdropWhile p = l := by
  rw [List.dropWhile_eq_self_iff.mpr, List.rdropWhile_eq_self_iff.mpr]
  · intro hne
    rw [h _ (List.getLast_mem hne)]
    exact Bool.false_ne_true
  · intro hlen
    rw [h _ (List.getElem_mem hlen)]
    exact Bool.false_ne_true

end Infinito.Lib
