import Infinito.Lib.Blot

/-!
# Backtracking regular expressions

A matcher in the order of preference of a backtracking engine: `Re.matches` lists every
way an expression can match at a place, best first, so that the first element is the match
the engine reports. It knows what the place is preceded by, for `^` and for looking behind.

`sub` replaces the matches of a pattern of two groups, left to right. The one thing proved
about it is what masking rests on: if the replacement keeps the first group and writes
marks for the second, the result is the text, blotted (`sub_blot`).
-/

set_option autoImplicit false

namespace Infinito.Lib

inductive Re where
  | eps
  | chr (p : Char → Bool)
  | seq (r s : Re)
  | alt (r s : Re)
  /-- `r*`, or `r*?` when not greedy -/
  | many (greedy : Bool) (r : Re)
  /-- `(?=r)` -/
  | ahead (r : Re)
  /-- `(?!r)` -/
  | notAhead (r : Re)
  /-- `(?<!p)`, for one character -/
  | notBehind (p : Char → Bool)
  /-- `^` -/
  | bol
  /-- `$`: at the end, or before a line feed that ends the text -/
  | eol

namespace Re

/-- The character before the place reached by matching `u` after `before`. -/
def lastOf (before : Option Char) (u : List Char) : Option Char := u.getLast?.or before

/-- Repetitions of `m`, each of at least one character, at most `fuel` of them. -/
def manyOf (greedy : Bool) (m : Option Char → List Char → List (List Char × List Char)) :
    Nat → Option Char → List Char → List (List Char × List Char)
  | 0, _, t => [([], t)]
  | fuel + 1, before, t =>
      let more := (m before t).flatMap fun (u, t') =>
        if u = [] then []
        else (manyOf greedy m fuel (lastOf before u) t').map fun (v, t'') => (u ++ v, t'')
      if greedy then more ++ [([], t)] else ([], t) :: more

/-- The ways to match at a place, best first: what is matched, and what is left. -/
def «matches» : Re → Option Char → List Char → List (List Char × List Char)
  | eps, _, t => [([], t)]
  | chr _, _, [] => []
  | chr p, _, c :: t => if p c then [([c], t)] else []
  | seq r s, before, t => (r.matches before t).flatMap fun (u, t') =>
      (s.matches (lastOf before u) t').map fun (v, t'') => (u ++ v, t'')
  | alt r s, before, t => r.matches before t ++ s.matches before t
  | many greedy r, before, t => manyOf greedy r.matches t.length before t
  | ahead r, before, t => if r.matches before t = [] then [] else [([], t)]
  | notAhead r, before, t => if r.matches before t = [] then [([], t)] else []
  | notBehind p, before, t => if before.any p then [] else [([], t)]
  | bol, before, t => if before = none then [([], t)] else []
  | eol, _, t => if t = [] ∨ t = ['\n'] then [([], t)] else []

/-- `r{n}` -/
def times : Nat → Re → Re
  | 0, _ => eps
  | n + 1, r => seq r (times n r)

/-- `r+` -/
def many1 (r : Re) : Re := seq r (many true r)

/-- A literal text. `like c` is the class of characters that match the letter `c`. -/
def text (like : Char → Char → Bool) : List Char → Re
  | [] => eps
  | c :: cs => seq (chr (like c)) (text like cs)

def anyOf : List Re → Re
  | [] => chr fun _ => false
  | [r] => r
  | r :: rs => alt r (anyOf rs)

theorem append_of_mem_empty {t u t' : List Char} (h : (u, t') ∈ [(([] : List Char), t)]) :
    u ++ t' = t := by
  simp only [List.mem_singleton, Prod.mk.injEq] at h
  rw [h.1, h.2]
  rfl

theorem manyOf_append {greedy : Bool} {m : Option Char → List Char → List (List Char × List Char)}
    (hm : ∀ before t u t', (u, t') ∈ m before t → u ++ t' = t)
    {fuel : Nat} {before : Option Char} {t u t' : List Char}
    (h : (u, t') ∈ manyOf greedy m fuel before t) : u ++ t' = t := by
  induction fuel generalizing before t u t' with
  | zero => exact append_of_mem_empty h
  | succ fuel ih =>
    have hcases : (u, t') = ([], t) ∨ ∃ x ∈ m before t, (u, t') ∈
        (if x.1 = [] then [] else
          (manyOf greedy m fuel (lastOf before x.1) x.2).map fun y => (x.1 ++ y.1, y.2)) := by
      cases greedy <;> simp [manyOf] at h ⊢ <;> tauto
    rcases hcases with h | ⟨⟨v, s⟩, hv, h⟩
    · obtain ⟨rfl, rfl⟩ := Prod.mk.inj h
      rfl
    · dsimp only at h
      split at h
      · cases h
      · obtain ⟨⟨w, s'⟩, hw, heq⟩ := List.mem_map.mp h
        obtain ⟨rfl, rfl⟩ := Prod.mk.inj heq
        rw [List.append_assoc, ih hw, hm before t v s hv]

/-- What is matched and what is left are the text. -/
theorem matches_append {r : Re} {before : Option Char} {t u t' : List Char}
    (h : (u, t') ∈ r.matches before t) : u ++ t' = t := by
  induction r generalizing before t u t' with
  | eps =>
    exact append_of_mem_empty h
  | chr p =>
    cases t with
    | nil => simp [«matches»] at h
    | cons c t =>
      simp only [«matches»] at h
      split at h
      · simp only [List.mem_singleton, Prod.mk.injEq] at h
        rw [h.1, h.2]; rfl
      · cases h
  | seq r s ihr ihs =>
    simp only [«matches», List.mem_flatMap, List.mem_map] at h
    obtain ⟨⟨v, s'⟩, hv, ⟨w, s''⟩, hw, heq⟩ := h
    obtain ⟨rfl, rfl⟩ := Prod.mk.inj heq
    rw [List.append_assoc, ihs hw, ihr hv]
  | alt r s ihr ihs =>
    simp only [«matches», List.mem_append] at h
    rcases h with h | h
    · exact ihr h
    · exact ihs h
  | many greedy r ih =>
    simp only [«matches»] at h
    exact manyOf_append (fun _ _ _ _ hm => ih hm) h
  | ahead r ih =>
    simp only [«matches»] at h
    split at h
    · cases h
    · exact append_of_mem_empty h
  | notAhead r ih =>
    simp only [«matches»] at h
    split at h
    · exact append_of_mem_empty h
    · cases h
  | notBehind p =>
    simp only [«matches»] at h
    split at h
    · cases h
    · exact append_of_mem_empty h
  | bol =>
    simp only [«matches»] at h
    split at h
    · exact append_of_mem_empty h
    · cases h
  | eol =>
    simp only [«matches»] at h
    split at h
    · exact append_of_mem_empty h
    · cases h

/-- The best match of `(r)(s)` at a place, as its two groups. -/
def groups (r s : Re) (before : Option Char) (t : List Char) : Option (List Char × List Char) :=
  ((r.matches before t).flatMap fun (u, t') =>
    (s.matches (lastOf before u) t').map fun (v, _) => (u, v)).head?

theorem groups_append {r s : Re} {before : Option Char} {t u v : List Char}
    (h : groups r s before t = some (u, v)) : u ++ v <+: t := by
  have hmem := List.mem_of_mem_head? (Option.mem_def.mpr h)
  simp only [List.mem_flatMap, List.mem_map] at hmem
  obtain ⟨⟨u', t'⟩, hu, ⟨v', t''⟩, hv, heq⟩ := hmem
  obtain ⟨rfl, rfl⟩ := Prod.mk.inj heq
  refine ⟨t'', ?_⟩
  rw [List.append_assoc, matches_append hv, matches_append hu]

/-- `re.sub`, with the first `skip` characters already consumed by a match. Only matches of
    at least one character are replaced. -/
def subFrom (r s : Re) (repl : List Char → List Char → List Char) :
    Nat → Option Char → List Char → List Char
  | _, _, [] => []
  | skip + 1, _, c :: t => subFrom r s repl skip (some c) t
  | 0, before, c :: t =>
      match groups r s before (c :: t) with
      | none => c :: subFrom r s repl 0 (some c) t
      | some (u, v) =>
          if u ++ v = [] then c :: subFrom r s repl 0 (some c) t
          else repl u v ++ subFrom r s repl ((u ++ v).length - 1) (some c) t

def sub (r s : Re) (repl : List Char → List Char → List Char) (t : List Char) : List Char :=
  subFrom r s repl 0 none t

theorem subFrom_blot {p : Char → Prop} {r s : Re} {mask : List Char} (hne : mask ≠ [])
    (hmask : ∀ c ∈ mask, p c) {skip : Nat} {before : Option Char} {t : List Char} :
    Blot p (t.drop skip) (subFrom r s (fun u _ => u ++ mask) skip before t) := by
  induction t generalizing skip before with
  | nil =>
    rw [List.drop_nil]
    exact .nil
  | cons c t ih =>
    cases skip with
    | succ skip => exact ih
    | zero =>
      simp only [subFrom, List.drop_zero]
      have hkeep : Blot p t (subFrom r s (fun u _ => u ++ mask) 0 (some c) t) := by
        rw [← List.drop_zero (l := t)]; exact ih
      split
      · exact .keep c hkeep
      · rename_i u v hgroups
        split
        · exact .keep c hkeep
        · rename_i hmatch
          obtain ⟨rest, hrest⟩ := groups_append hgroups
          -- what the match leaves is what is left after skipping it
          have hdrop : t.drop ((u ++ v).length - 1) = rest := by
            have hlen : 0 < (u ++ v).length := List.length_pos_iff.mpr hmatch
            calc t.drop ((u ++ v).length - 1)
                = (c :: t).drop ((u ++ v).length - 1 + 1) := rfl
              _ = (c :: t).drop (u ++ v).length := by rw [Nat.sub_add_cancel hlen]
              _ = rest := by rw [← hrest, List.drop_left]
          have htail : Blot p rest (subFrom r s (fun u _ => u ++ mask)
              ((u ++ v).length - 1) (some c) t) := by
            rw [← hdrop]; exact ih
          rw [← hrest, List.append_assoc, List.append_assoc]
          exact (Blot.refl u).append (.mark v hne hmask htail)

theorem sub_blot {p : Char → Prop} {r s : Re} {mask : List Char} (hne : mask ≠ [])
    (hmask : ∀ c ∈ mask, p c) (t : List Char) : Blot p t (sub r s (fun u _ => u ++ mask) t) := by
  rw [← List.drop_zero (l := t)]
  exact subFrom_blot hne hmask

end Re

end Infinito.Lib
