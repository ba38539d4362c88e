import Mathlib.Data.List.Basic
import Mathlib.Data.List.Nodup
import Mathlib.Data.List.Perm.Basic

/-!
# The place of an element in a sorted list

The rank of an element is how many elements come before it; in a sorted list that is where it is.
A list is read in pages of one length, and each page may be of another list. An element whose rank
never falls is on one of the pages, if the last one reaches as far as it.
-/

set_option autoImplicit false

namespace Infinito.Lib

variable {α : Type} (before : α → α → Prop) [DecidableRel before]

def rank (l : List α) (a : α) : Nat := (l.filter fun x => before x a).length

variable {before} {l l' : List α} {a : α}

theorem rank_perm (h : l.Perm l') : rank before l a = rank before l' a := (h.filter _).length_eq

theorem rank_lt (hirrefl : ¬ before a a) (ha : a ∈ l) : rank before l a < l.length := by
  refine List.length_filter_lt_length_iff_exists.mpr ⟨a, ha, ?_⟩
  simpa using hirrefl

theorem rank_le_append (l l' : List α) (a : α) : rank before l a ≤ rank before (l ++ l') a := by
  unfold rank
  rw [List.filter_append, List.length_append]
  exact Nat.le_add_right _ _

/-- To leave out what does not come before changes nothing. -/
theorem rank_filter {p : α → Bool} (h : ∀ x ∈ l, before x a → p x = true) :
    rank before (l.filter p) a = rank before l a := by
  unfold rank
  rw [List.filter_filter]
  refine congrArg List.length (List.filter_congr fun x hx => ?_)
  by_cases hbefore : before x a
  · simp [hbefore, h x hx hbefore]
  · simp [hbefore]

theorem getElem?_rank (hsorted : l.Pairwise before) (hirrefl : ¬ before a a)
    (hasymm : ∀ x, before a x → ¬ before x a) (ha : a ∈ l) : l[rank before l a]? = some a := by
  obtain ⟨xs, ys, rfl⟩ := List.append_of_mem ha
  obtain ⟨-, hys, hxs⟩ := List.pairwise_append.mp hsorted
  have hfirst : xs.filter (fun x => before x a) = xs := by
    refine List.filter_eq_self.mpr fun x hx => ?_
    exact decide_eq_true (hxs x hx a List.mem_cons_self)
  have hlast : (a :: ys).filter (fun x => before x a) = [] := by
    refine List.filter_eq_nil_iff.mpr fun x hx => ?_
    rcases List.mem_cons.mp hx with rfl | hx
    · simpa using hirrefl
    · simpa using hasymm x ((List.pairwise_cons.mp hys).1 x hx)
  unfold rank
  rw [List.filter_append, hfirst, hlast, List.append_nil]
  rw [List.getElem?_append_right (Nat.le_refl _), Nat.sub_self]
  rfl

/-- What stands between the ends of a page is on it. -/
theorem mem_page {start size : Nat} (h : l[rank before l a]? = some a)
    (hlow : start ≤ rank before l a) (hhigh : rank before l a < start + size) :
    a ∈ (l.drop start).take size := by
  refine List.mem_of_getElem? (i := rank before l a - start) ?_
  rw [List.getElem?_take_of_lt (by omega), List.getElem?_drop, Nat.add_sub_cancel' hlow, h]

/-- A number that does not fall from page to page is within one of the pages. -/
theorem exists_page {ranks : Nat → Nat} {size n : Nat} (hmono : ∀ i < n, ranks i ≤ ranks (i + 1))
    (hlast : ranks n < (n + 1) * size) :
    ∃ i ≤ n, i * size ≤ ranks i ∧ ranks i < i * size + size := by
  induction n with
  | zero => exact ⟨0, Nat.le_refl 0, by omega, by omega⟩
  | succ n ih =>
    by_cases hearlier : ranks n < (n + 1) * size
    · obtain ⟨i, hi, hpage⟩ := ih (fun i hi => hmono i (Nat.lt_succ_of_lt hi)) hearlier
      exact ⟨i, Nat.le_succ_of_le hi, hpage⟩
    · have hstep := hmono n (Nat.lt_succ_self n)
      refine ⟨n + 1, Nat.le_refl _, by omega, ?_⟩
      rw [Nat.succ_mul] at hlast
      exact hlast

end Infinito.Lib
