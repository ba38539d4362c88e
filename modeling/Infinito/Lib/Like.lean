import Mathlib.Data.List.Infix

/-!
# Patterns of `LIKE`

`%` stands for any text, `_` for any character, and a backslash takes the next character as it is.

A text between two `%` is looked for as it is if it has none of the three (`like_around`), and for
any other text there is one where the pattern says something else (`like_around_iff`). Both sides
may be folded first, as `ILIKE` does.
-/

set_option autoImplicit false

namespace Infinito.Lib

def like : List Char → List Char → Bool
  | [], t => t.isEmpty
  | '%' :: p, t => t.tails.any (like p)
  | '_' :: p, t => match t with
      | [] => false
      | _ :: t => like p t
  | ['\\'], _ => false
  | '\\' :: c :: p, t => match t with
      | [] => false
      | d :: t => d = c && like p t
  | c :: p, t => match t with
      | [] => false
      | d :: t => d = c && like p t

/-- A character that means something in a pattern. -/
def isWild (c : Char) : Bool := c = '%' || c = '_' || c = '\\'

/-- What letters are taken for that differ in case only. -/
structure Folding where
  fold : Char → Char
  fold_wild : ∀ c d, isWild d = true → (fold c = d ↔ c = d)

/-- Every letter for itself. -/
def Folding.none : Folding := ⟨id, fun _ _ _ => Iff.rfl⟩

variable (F : Folding)

def ilike (p t : List Char) : Bool := like (p.map F.fold) (t.map F.fold)

/-! ## Plain patterns -/

section

variable {c : Char} {p t : List Char}

theorem like_cons (hc : isWild c = false) (p : List Char) (d : Char) (t : List Char) :
    like (c :: p) (d :: t) = (decide (d = c) && like p t) := by
  simp only [isWild, Bool.or_eq_false_iff, decide_eq_false_iff_not] at hc
  rw [like]
  · exact fun h => hc.1.1 h
  · exact fun h => hc.1.2 h
  · exact fun h _ => hc.2 h
  · exact fun c' p' h _ => hc.2 h

theorem like_cons_nil (hc : isWild c = false) (p : List Char) : like (c :: p) [] = false := by
  simp only [isWild, Bool.or_eq_false_iff, decide_eq_false_iff_not] at hc
  rw [like]
  · exact fun h => hc.1.1 h
  · exact fun h => hc.1.2 h
  · exact fun h _ => hc.2 h
  · exact fun c' p' h _ => hc.2 h

theorem like_any (p t : List Char) : like ('%' :: p) t = true ↔ ∃ u, u <:+ t ∧ like p u = true := by
  rw [like, List.any_eq_true]
  simp only [List.mem_tails]

theorem like_rest (t : List Char) : like ['%'] t = true :=
  (like_any [] t).mpr ⟨[], List.nil_suffix, rfl⟩

/-- A plain text, and anything behind it. -/
theorem like_starting (hp : ∀ c ∈ p, isWild c = false) : like (p ++ ['%']) t = true ↔ p <+: t := by
  induction p generalizing t with
  | nil => exact iff_of_true (like_rest t) List.nil_prefix
  | cons c p ih =>
    have hc := hp c List.mem_cons_self
    have hrest : ∀ c ∈ p, isWild c = false := fun c h => hp c (List.mem_cons_of_mem _ h)
    cases t with
    | nil =>
      rw [List.cons_append, like_cons_nil hc]
      simp
    | cons d t =>
      rw [List.cons_append, like_cons hc, Bool.and_eq_true, decide_eq_true_eq, ih hrest,
        List.cons_prefix_cons]
      exact and_congr_left fun _ => eq_comm

theorem like_around (hp : ∀ c ∈ p, isWild c = false) :
    like ('%' :: (p ++ ['%'])) t = true ↔ p <:+: t := by
  rw [like_any, List.infix_iff_prefix_suffix]
  exact exists_congr fun u => by rw [like_starting hp, and_comm]

end

/-! ## Other patterns -/

/-- A text that a pattern lets pass, with something behind it or not. -/
def sample : List Char → List Char
  | [] => []
  | '%' :: p => sample p
  | '_' :: p => 'a' :: sample p
  | ['\\'] => ['%']
  | '\\' :: c :: p => c :: sample p
  | c :: p => c :: sample p

theorem not_wild {c : Char} {p : List Char} (hpercent : c ≠ '%') (hunder : c ≠ '_')
    (hnil : c = '\\' → p ≠ []) (hcons : ∀ d q, c = '\\' → p ≠ d :: q) : isWild c = false := by
  simp only [isWild, Bool.or_eq_false_iff, decide_eq_false_iff_not]
  refine ⟨⟨hpercent, hunder⟩, fun hslash => ?_⟩
  cases p with
  | nil => exact hnil hslash rfl
  | cons d q => exact hcons d q hslash rfl

theorem length_sample_le (p : List Char) : (sample p).length ≤ p.length := by
  fun_induction sample p <;> simp <;> omega

namespace Folding

variable {F}

theorem fold_of_wild {c : Char} (hc : isWild c = true) : F.fold c = c := (F.fold_wild c c hc).mpr rfl

theorem isWild_fold (c : Char) : isWild (F.fold c) = isWild c := by
  cases hc : isWild c with
  | true => rw [fold_of_wild hc, hc]
  | false =>
    by_contra h
    rw [Bool.not_eq_false] at h
    have heq : c = F.fold c := (F.fold_wild c _ h).mp rfl
    rw [← heq, hc] at h
    cases h

end Folding

variable {F}

theorem like_sample (p : List Char) :
    like ((p ++ ['%']).map F.fold) ((sample p).map F.fold) = true := by
  have hpercent : F.fold '%' = '%' := Folding.fold_of_wild rfl
  have hunder : F.fold '_' = '_' := Folding.fold_of_wild rfl
  have hslash : F.fold '\\' = '\\' := Folding.fold_of_wild rfl
  fun_induction sample p with
  | case1 => simpa [hpercent] using like_rest []
  | case2 p ih =>
    rw [List.cons_append, List.map_cons, hpercent]
    exact (like_any _ _).mpr ⟨_, List.suffix_refl _, ih⟩
  | case3 p ih => simpa [hunder, like] using ih
  | case4 => simp [hslash, hpercent, like]
  | case5 c p ih => simpa [hslash, like] using ih
  | case6 c p h1 h2 h3 h4 ih =>
    have hc : isWild c = false := not_wild h1 h2 h3 h4
    rw [List.cons_append, List.map_cons, List.map_cons, like_cons ((Folding.isWild_fold c).trans hc)]
    simpa using ih

/-- Where the text is the pattern again, the pattern is plain. -/
theorem plain_of_sample {p : List Char} (h : (sample p).map F.fold = p.map F.fold) :
    ∀ c ∈ p, isWild c = false := by
  have hlength := length_sample_le
  fun_induction sample p with
  | case1 => exact nofun
  | case2 p ih =>
    have hlen := congrArg List.length h
    simp only [List.length_map, List.length_cons] at hlen
    exact absurd (hlength p) (by omega)
  | case3 p ih =>
    have hhead : F.fold 'a' = '_' := by
      rw [← Folding.fold_of_wild (F := F) (c := '_') rfl]
      exact (List.cons.inj h).1
    exact absurd ((F.fold_wild 'a' '_' rfl).mp hhead) (by decide)
  | case4 =>
    have hhead : F.fold '%' = '\\' := by
      rw [← Folding.fold_of_wild (F := F) (c := '\\') rfl]
      exact (List.cons.inj h).1
    exact absurd ((F.fold_wild '%' '\\' rfl).mp hhead) (by decide)
  | case5 c p ih =>
    have hlen := congrArg List.length h
    simp only [List.length_map, List.length_cons] at hlen
    exact absurd (hlength p) (by omega)
  | case6 c p h1 h2 h3 h4 ih =>
    intro d hd
    rcases List.mem_cons.mp hd with rfl | hd
    · exact not_wild h1 h2 h3 h4
    · exact ih (List.cons.inj h).2 d hd

/-- **A text is looked for as it is if and only if it is plain.** -/
theorem ilike_around_iff (p : List Char) :
    (∀ t, ilike F ('%' :: (p ++ ['%'])) t = true ↔ p.map F.fold <:+: t.map F.fold) ↔
      ∀ c ∈ p, isWild c = false := by
  have hpercent : F.fold '%' = '%' := Folding.fold_of_wild rfl
  constructor
  · intro h
    have hlike : ilike F ('%' :: (p ++ ['%'])) (sample p) = true := by
      unfold ilike
      rw [List.map_cons, hpercent]
      exact (like_any _ _).mpr ⟨_, List.suffix_refl _, like_sample p⟩
    refine plain_of_sample (F := F) (((h _).mp hlike).eq_of_length_le ?_).symm
    rw [List.length_map, List.length_map]
    exact length_sample_le p
  · intro hp t
    unfold ilike
    rw [List.map_cons, List.map_append, List.map_singleton, hpercent]
    refine like_around fun c hc => ?_
    obtain ⟨d, hd, rfl⟩ := List.mem_map.mp hc
    rw [Folding.isWild_fold, hp d hd]

end Infinito.Lib
