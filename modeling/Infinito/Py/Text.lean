import Infinito.Lib.Trim

/-!
# Python text

The services are written in Python, and most of what they decide they decide on
strings: a user id that is blank once stripped, an e-mail address compared after
`strip().lower()`, a log cut with `splitlines()`. This file fixes what those methods
do, once, over `Text` — a list of characters, so that every function below is
structural and a concrete input can be evaluated by the kernel.

The character classes are Python's and not Lean's: `str.strip` and `\s` take the 29
code points of `isSpace`, and `str.splitlines` cuts at ten of them, `\x0b`, `\x85` and
`\u2028` among them. Every caller that writes lines back joined by `\n` depends on the
difference.
-/

namespace Infinito

/-- A Python `str`. -/
abbrev Text := List Char

instance : Coe String Text := ⟨String.toList⟩

/-- Named, as every definition that looks for a text among others rests on it. -/
instance Text.lawfulBEq : LawfulBEq Text := inferInstance

namespace Py

/-! ## Character classes -/

theorem isLower_iff (c : Char) : c.isLower = true ↔ 97 ≤ c.toNat ∧ c.toNat ≤ 122 := by
  show (decide (c.val ≥ 97) && decide (c.val ≤ 122)) = true ↔ _
  rw [Bool.and_eq_true, decide_eq_true_eq, decide_eq_true_eq, ge_iff_le, UInt32.le_iff_toNat_le,
    UInt32.le_iff_toNat_le]
  exact Iff.rfl

theorem isAlphanum_bounds {c : Char} (h : c.isAlphanum = true) : 48 ≤ c.toNat ∧ c.toNat ≤ 122 := by
  change ((decide (c.val ≥ 65 ∧ c.val ≤ 90) || (decide (c.val ≥ 97) && decide (c.val ≤ 122))) ||
    (decide (c.val ≥ 48) && decide (c.val ≤ 57))) = true at h
  simp only [Bool.or_eq_true, Bool.and_eq_true, decide_eq_true_eq, ge_iff_le,
    UInt32.le_iff_toNat_le] at h
  show 48 ≤ c.val.toNat ∧ c.val.toNat ≤ 122
  rcases h with (⟨hlow, hhigh⟩ | ⟨hlow, hhigh⟩) | ⟨hlow, hhigh⟩
  · exact ⟨Nat.le_trans (by decide) hlow, Nat.le_trans hhigh (by decide)⟩
  · exact ⟨Nat.le_trans (by decide) hlow, hhigh⟩
  · exact ⟨hlow, Nat.le_trans hhigh (by decide)⟩

/-- `str.isspace` on one character; `re`'s `\s` is the same set. -/
def isSpace (c : Char) : Bool :=
  let n := c.toNat
  (9 ≤ n && n ≤ 13) || (0x1c ≤ n && n ≤ 0x20) || n == 0x85 || n == 0xa0 || n == 0x1680 ||
    (0x2000 ≤ n && n ≤ 0x200a) || n == 0x2028 || n == 0x2029 || n == 0x202f || n == 0x205f ||
    n == 0x3000

/-- Where `str.splitlines` cuts (`\r\n` counts once). -/
def isLineBreak (c : Char) : Bool :=
  let n := c.toNat
  (10 ≤ n && n ≤ 13) || (0x1c ≤ n && n ≤ 0x1e) || n == 0x85 || n == 0x2028 || n == 0x2029

/-- The zeros of the decimal digit sequences, ten code points each. -/
def decimalZeros : List Nat :=
  [0x30, 0x660, 0x6f0, 0x7c0, 0x966, 0x9e6, 0xa66, 0xae6, 0xb66, 0xbe6, 0xc66, 0xce6, 0xd66, 0xde6,
   0xe50, 0xed0, 0xf20, 0x1040, 0x1090, 0x17e0, 0x1810, 0x1946, 0x19d0, 0x1a80, 0x1a90, 0x1b50,
   0x1bb0, 0x1c40, 0x1c50, 0xa620, 0xa8d0, 0xa900, 0xa9d0, 0xa9f0, 0xaa50, 0xabf0, 0xff10, 0x104a0,
   0x10d30, 0x11066, 0x110f0, 0x11136, 0x111d0, 0x112f0, 0x11450, 0x114d0, 0x11650, 0x116c0,
   0x11730, 0x118e0, 0x11950, 0x11c50, 0x11d50, 0x11da0, 0x16a60, 0x16ac0, 0x16b50, 0x1d7ce,
   0x1d7d8, 0x1d7e2, 0x1d7ec, 0x1d7f6, 0x1e140, 0x1e2f0, 0x1e950, 0x1fbf0]

/-- `re`'s `\d`: the decimal digits of every script. -/
def isDecimal (c : Char) : Bool := decimalZeros.any fun z => z ≤ c.toNat && c.toNat < z + 10

/-! ## `strip` -/

def lstrip (t : Text) : Text := t.dropWhile isSpace

def rstrip (t : Text) : Text := t.rdropWhile isSpace

def strip (t : Text) : Text := rstrip (lstrip t)

/-- `x or None` on a string: the empty string is falsy. -/
def orNone (t : Text) : Option Text := if t = [] then none else some t

/-- `value or None`. -/
def truthy : Option Text → Option Text
  | none => none
  | some value => orNone value

/-- `(x or "").strip() or None`, the way every id coming from a request is read. -/
def stripOrNone (x : Option Text) : Option Text := orNone (strip (x.getD []))

@[simp] theorem strip_nil : strip [] = [] := rfl

@[simp] theorem orNone_nil : orNone [] = none := rfl

theorem orNone_eq_some {t u : Text} : orNone t = some u ↔ t = u ∧ u ≠ [] := by
  unfold orNone
  by_cases h : t = []
  · rw [if_pos h]
    constructor
    · intro h'; cases h'
    · rintro ⟨rfl, hne⟩; exact absurd h hne
  · rw [if_neg h, Option.some.injEq]
    constructor
    · rintro rfl; exact ⟨rfl, h⟩
    · exact And.left

theorem orNone_of_ne {t : Text} (h : t ≠ []) : orNone t = some t := if_neg h

/-- A text that starts with no space is left alone on the left, and so on the right. -/
theorem strip_eq_self_iff {t : Text} :
    strip t = t ↔ lstrip t = t ∧ rstrip t = t := by
  constructor
  · intro h
    have hr : rstrip (lstrip t) <+: lstrip t := List.rdropWhile_prefix _ _
    have hl : lstrip t <:+ t := List.dropWhile_suffix _
    have hlen : t.length ≤ (lstrip t).length := by
      have := hr.length_le
      rw [show rstrip (lstrip t) = t from h] at this
      exact this
    have hlt : lstrip t = t := hl.eq_of_length_le hlen
    exact ⟨hlt, by rw [← hlt]; exact h.trans hlt.symm⟩
  · rintro ⟨hl, hr⟩
    unfold strip
    rw [hl, hr]

@[simp] theorem strip_strip (t : Text) : strip (strip t) = strip t :=
  Lib.trim_trim isSpace t

/-- What starts with no blank and ends as a stripped text does is stripped. -/
theorem strip_cons_append {c : Char} {t : Text} (hc : isSpace c = false) (ht : strip t = t)
    (hne : t ≠ []) (cs : Text) : strip (c :: cs ++ t) = c :: cs ++ t := by
  obtain ⟨-, hr⟩ := strip_eq_self_iff.mp ht
  refine strip_eq_self_iff.mpr ⟨?_, ?_⟩
  · rw [lstrip, List.cons_append, List.dropWhile_cons_of_neg (by rw [hc]; decide)]
  · refine List.rdropWhile_eq_self_iff.mpr fun _ => ?_
    rw [List.getLast_append_of_ne_nil _ hne]
    exact List.rdropWhile_eq_self_iff.mp hr hne

theorem no_space_of_all {t : Text} (h : t.all (fun c => !isSpace c) = true) :
    ∀ c ∈ t, isSpace c = false := by
  intro c hc
  simpa using List.all_eq_true.mp h c hc

theorem strip_of_no_space {t : Text} (h : ∀ c ∈ t, isSpace c = false) : strip t = t :=
  Lib.trim_of_forall h

theorem strip_eq_nil {t : Text} (h : strip t = []) : ∀ c ∈ t, isSpace c = true := by
  have hl : ∀ c ∈ lstrip t, isSpace c = true := List.rdropWhile_eq_nil_iff.mp h
  cases hcs : lstrip t with
  | nil => exact List.dropWhile_eq_nil_iff.mp hcs
  | cons c cs =>
    have hc := hl c (by rw [hcs]; exact List.mem_cons_self)
    have := List.head?_dropWhile_not isSpace t
    rw [show t.dropWhile isSpace = c :: cs from hcs] at this
    simp only [List.head?_cons] at this
    rw [hc] at this
    cases this

theorem isSpace_of_isDigit {c : Char} (h : c.isDigit = true) : isSpace c = false := by
  unfold Char.isDigit at h
  rw [Bool.and_eq_true, decide_eq_true_eq, decide_eq_true_eq] at h
  have hlow : 48 ≤ c.toNat := UInt32.le_iff_toNat_le.mp h.1
  have hhigh : c.toNat ≤ 57 := UInt32.le_iff_toNat_le.mp h.2
  unfold isSpace
  simp only [Bool.or_eq_false_iff, Bool.and_eq_false_iff, decide_eq_false_iff_not,
    beq_eq_false_iff_ne]
  omega

@[simp] theorem stripOrNone_none : stripOrNone none = none := rfl

theorem stripOrNone_eq_some {x : Option Text} {u : Text} :
    stripOrNone x = some u ↔ strip (x.getD []) = u ∧ u ≠ [] := orNone_eq_some

/-- An id that was read once is a fixed point of the reading. -/
@[simp] theorem stripOrNone_idem (x : Option Text) :
    stripOrNone (stripOrNone x) = stripOrNone x := by
  cases h : stripOrNone x with
  | none => rfl
  | some u =>
    obtain ⟨hu, hne⟩ := stripOrNone_eq_some.mp h
    refine stripOrNone_eq_some.mpr ⟨?_, hne⟩
    rw [← hu]
    exact strip_strip _

@[simp] theorem truthy_idem (x : Option Text) : truthy (truthy x) = truthy x := by
  cases x with
  | none => rfl
  | some t =>
    cases h : orNone t with
    | none => simp [truthy, h]
    | some u =>
      obtain ⟨rfl, hne⟩ := orNone_eq_some.mp h
      simp [truthy, h]

/-! ## `splitlines` -/

/-- `str.splitlines`, with the current line accumulated in reverse. A last line without
    a break is a line; an empty rest is not. -/
def splitlinesFrom : Text → Text → List Text
  | acc, [] => if acc = [] then [] else [acc.reverse]
  | acc, '\r' :: '\n' :: cs => acc.reverse :: splitlinesFrom [] cs
  | acc, c :: cs =>
      if isLineBreak c then acc.reverse :: splitlinesFrom [] cs else splitlinesFrom (c :: acc) cs

def splitlines (t : Text) : List Text := splitlinesFrom [] t

/-- `"\n".join(lines)`. -/
def joinLines (ls : List Text) : Text := List.intercalate ['\n'] ls

/-! ## Letter case

`str.lower` applies the Unicode case tables, which are not part of the repository. The
services rely on three facts about it, and they are the fields below; `asciiCasing` is
the instance that lowers the letters `A`–`Z` and nothing else. -/

structure Casing where
  lower : Text → Text
  lower_nil : lower [] = []
  lower_lower : ∀ t, lower (lower t) = lower t
  strip_lower_strip : ∀ t, strip (lower (strip t)) = lower (strip t)

theorem toNat_ofNat_of_lt {n : Nat} (h : n < 0xd800) : (Char.ofNat n).toNat = n := by
  unfold Char.ofNat
  rw [dif_pos (show n.isValidChar from Or.inl h)]
  rfl

/-- Lower-casing of the 26 letters `A`–`Z`. -/
def asciiLower (c : Char) : Char :=
  if 65 ≤ c.toNat ∧ c.toNat ≤ 90 then Char.ofNat (c.toNat + 32) else c

theorem asciiLower_toNat (c : Char) :
    (asciiLower c).toNat = if 65 ≤ c.toNat ∧ c.toNat ≤ 90 then c.toNat + 32 else c.toNat := by
  unfold asciiLower
  split
  · rename_i h
    exact toNat_ofNat_of_lt (by omega)
  · rfl

theorem asciiLower_asciiLower (c : Char) : asciiLower (asciiLower c) = asciiLower c := by
  have h := asciiLower_toNat c
  have hup : ¬ (65 ≤ (asciiLower c).toNat ∧ (asciiLower c).toNat ≤ 90) := by
    rw [h]; split <;> omega
  exact if_neg hup

theorem isSpace_asciiLower (c : Char) : isSpace (asciiLower c) = isSpace c := by
  unfold asciiLower
  split
  · rename_i h
    have hn : (Char.ofNat (c.toNat + 32)).toNat = c.toNat + 32 := toNat_ofNat_of_lt (by omega)
    unfold isSpace
    rw [hn]
    rw [Bool.eq_iff_iff]
    simp only [Bool.or_eq_true, Bool.and_eq_true, decide_eq_true_eq, beq_iff_eq]
    omega
  · rfl

theorem lstrip_map_asciiLower (t : Text) :
    lstrip (t.map asciiLower) = (lstrip t).map asciiLower := by
  unfold lstrip
  rw [List.dropWhile_map]
  congr 2
  exact funext isSpace_asciiLower

theorem rstrip_map_asciiLower (t : Text) :
    rstrip (t.map asciiLower) = (rstrip t).map asciiLower := by
  unfold rstrip List.rdropWhile
  rw [← List.map_reverse, List.map_reverse (l := List.dropWhile _ _)]
  exact congrArg List.reverse (lstrip_map_asciiLower t.reverse)

def asciiCasing : Casing where
  lower t := t.map asciiLower
  lower_nil := rfl
  lower_lower t := by
    rw [List.map_map]
    exact List.map_congr_left fun c _ => asciiLower_asciiLower c
  strip_lower_strip t := by
    show rstrip (lstrip _) = _
    rw [lstrip_map_asciiLower, rstrip_map_asciiLower]
    exact congrArg (List.map asciiLower) (strip_strip t)

/-- `str.lower`, as far as it decides about ASCII: one letter beyond `A`–`Z`, the Kelvin
    sign, lowers to a letter of ASCII alone. -/
def lower (t : Text) : Text := t.map fun c => if c = '\u212a' then 'k' else asciiLower c

theorem isSpace_lower (c : Char) :
    isSpace (if c = '\u212a' then 'k' else asciiLower c) = isSpace c := by
  split
  · rename_i h
    rw [h]
    decide
  · exact isSpace_asciiLower c

theorem strip_lower (t : Text) : strip (lower t) = lower (strip t) :=
  Lib.trim_map isSpace_lower t

end Py

/-! ## Errors

A service method that refuses raises FastAPI's `HTTPException`; its status and detail
are what the client sees, so both are kept. -/

structure HttpError where
  status : Nat
  detail : String
  deriving DecidableEq, Repr

end Infinito
