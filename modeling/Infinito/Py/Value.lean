import Infinito.Py.Text
import Mathlib.Data.Rat.Defs
import Mathlib.Algebra.Order.Ring.Unbundled.Rat
import Mathlib.Algebra.Group.Nat.Defs

/-!
# Python values

What `yaml.safe_load` and a JSON body yield, as far as the services look at it: a `Val`.
Numbers are exact; what is not finite is not a value here. A dictionary is the list of its
items in order, and `get` finds an item by a text key.

`float`, `str` and truth are Python's. `str` of a number is the shortest decimal that reads
back, which for an exact decimal is the decimal itself.
-/

set_option autoImplicit false

namespace Infinito.Py

inductive Val where
  | none
  | bool (b : Bool)
  | int (n : Int)
  | float (q : ℚ)
  | str (t : Text)
  | list (xs : List Val)
  | dict (items : List (Val × Val))
  /-- anything else, a date for example, by its text -/
  | other (text : Text)

abbrev Dict := List (Val × Val)

/-! ## Numbers and text -/

/-- The value of a decimal digit, of any script. -/
def digitValue (c : Char) : Option Nat :=
  (decimalZeros.find? fun z => z ≤ c.toNat && c.toNat < z + 10).map (c.toNat - ·)

/-- Digits, single underscores between them allowed: their value and their number. -/
def readDigits (t : Text) : Option (Nat × Nat) :=
  let rec go (value count : Nat) : Text → Option (Nat × Nat)
    | [] => some (value, count)
    | '_' :: c :: cs => match digitValue c with
      | some d => if count = 0 then Option.none else go (10 * value + d) (count + 1) cs
      | Option.none => Option.none
    | c :: cs => match digitValue c with
      | some d => go (10 * value + d) (count + 1) cs
      | Option.none => Option.none
  go 0 0 t

/-- A sign in front of a text. -/
def readSign : Text → Bool × Text
  | '-' :: t => (true, t)
  | '+' :: t => (false, t)
  | t => (false, t)

/-- `int(t)`, of the exponent of a number. -/
def readExponent (t : Text) : Option Int :=
  let (negative, digits) := readSign t
  match readDigits digits with
  | some (value, count) =>
      if count = 0 then Option.none else some (if negative then -(value : Int) else value)
  | Option.none => Option.none

/-- A decimal without exponent. -/
def readDecimal (t : Text) : Option ℚ :=
  let whole := t.takeWhile (· ≠ '.')
  let fraction := (t.dropWhile (· ≠ '.')).tail
  match readDigits whole, readDigits fraction with
  | some (m, i), some (n, j) =>
      if i + j = 0 then Option.none else some ((m : ℚ) + (n : ℚ) / (10 : ℚ) ^ j)
  | _, _ => Option.none

/-- `float(t)` on a text, where the result is finite. -/
def floatOfText (t : Text) : Option ℚ :=
  let (negative, body) := readSign (strip t)
  let isExponent (c : Char) : Bool := c = 'e' || c = 'E'
  let exponent := match body.dropWhile fun c => !isExponent c with
    | [] => some 0
    | _ :: digits => readExponent digits
  match readDecimal (body.takeWhile fun c => !isExponent c), exponent with
  | some m, some e =>
      let value := m * (10 : ℚ) ^ e
      some (if negative then -value else value)
  | _, _ => Option.none

/-- `float(value)`, if that does not raise. -/
def toFloat : Val → Option ℚ
  | .bool b => some (if b then 1 else 0)
  | .int n => some n
  | .float q => some q
  | .str t => floatOfText t
  | _ => Option.none

def natText (n : Nat) : Text := (Nat.repr n).toList

theorem natText_injective : Function.Injective natText := by
  intro m n h
  unfold natText at h
  rw [Nat.toList_repr, Nat.toList_repr] at h
  rw [← Nat.ofDigitChars_ten_toDigits (n := m), h, Nat.ofDigitChars_ten_toDigits]

theorem isDigit_of_mem_natText {n : Nat} {c : Char} (h : c ∈ natText n) : c.isDigit = true := by
  unfold natText at h
  rw [Nat.toList_repr] at h
  exact Nat.isDigit_of_mem_toDigits (by decide) (by decide) h

def intText (n : Int) : Text := if n < 0 then '-' :: natText n.natAbs else natText n.natAbs

/-- The first scale up to 400 at which the number is whole. -/
def decimalScale (q : ℚ) : Nat :=
  ((List.range 400).find? fun k => (10 ^ k * q.num) % (q.den : Int) = 0).getD 400

/-- `repr` of a float: positional from `0.0001` up to `1e16`, else with an exponent. -/
def floatText (q : ℚ) : Text :=
  let scale := decimalScale q
  let digits := natText (10 ^ scale * q.num.natAbs / q.den)
  let sign : Text := if q < 0 then ['-'] else []
  if q = 0 then ['0', '.', '0']
  else
    let exponent : Int := digits.length - 1 - scale
    if -4 ≤ exponent ∧ exponent < 16 then
      let padded := List.replicate (scale + 1 - digits.length) '0' ++ digits
      let cut := padded.length - scale
      let fraction := padded.drop cut
      sign ++ padded.take cut ++ '.' :: (if fraction = [] then ['0'] else fraction)
    else
      let mantissa := digits.rdropWhile (· = '0')
      let tail : Text := match mantissa with
        | c :: d :: ds => c :: '.' :: d :: ds
        | ds => ds
      let power := natText exponent.natAbs
      sign ++ tail ++ 'e' :: (if exponent < 0 then '-' else '+') ::
        (List.replicate (2 - power.length) '0' ++ power)

/-- `repr` of a text. -/
def quoteText (t : Text) : Text :=
  let quote : Char := if '\'' ∈ t ∧ '"' ∉ t then '"' else '\''
  let escape (c : Char) : Text :=
    if c = '\\' then ['\\', '\\'] else if c = quote then ['\\', c] else if c = '\n' then ['\\', 'n']
    else if c = '\r' then ['\\', 'r'] else if c = '\t' then ['\\', 't'] else [c]
  quote :: t.flatMap escape ++ [quote]

mutual

/-- `repr(value)` -/
def Val.repr : Val → Text
  | .none => "None".toList
  | .bool b => if b then "True".toList else "False".toList
  | .int n => intText n
  | .float q => floatText q
  | .str t => quoteText t
  | .list xs => '[' :: List.intercalate [',', ' '] (reprList xs) ++ [']']
  | .dict items => '\x7b' :: List.intercalate [',', ' '] (reprItems items) ++ ['\x7d']
  | .other text => text

def reprList : List Val → List Text
  | [] => []
  | x :: xs => x.repr :: reprList xs

def reprItems : List (Val × Val) → List Text
  | [] => []
  | (k, v) :: items => (k.repr ++ ':' :: ' ' :: v.repr) :: reprItems items

end

/-- `bool(value)` -/
def Val.truth : Val → Bool
  | .none => false
  | .bool b => b
  | .int n => n ≠ 0
  | .float q => q ≠ 0
  | .str t => t ≠ []
  | .list xs => xs.length ≠ 0
  | .dict items => items.length ≠ 0
  | .other _ => true

/-- `str(value)` -/
def Val.text : Val → Text
  | .str t => t
  | v => v.repr

/-! ## Dictionaries -/

/-- Whether a key of a dictionary is the text. -/
def isKey (key : Text) : Val → Bool
  | .str t => t = key
  | _ => false

namespace Dict

/-- `m.get(key)`, nothing when there is no such item. -/
def find (m : Dict) (key : Text) : Option Val := (m.find? fun item => isKey key item.1).map (·.2)

/-- `m.get(key)` -/
def get (m : Dict) (key : Text) : Val := (m.find key).getD .none

/-- `key in m` -/
def has (m : Dict) (key : Text) : Bool := (m.find key).isSome

/-- `m[key] = value` -/
def set (key : Text) (value : Val) : Dict → Dict
  | [] => [(.str key, value)]
  | item :: m => if isKey key item.1 then (item.1, value) :: m else item :: set key value m

@[simp] theorem find_nil (key : Text) : find [] key = none := rfl

theorem find_cons (item : Val × Val) (m : Dict) (key : Text) :
    find (item :: m) key = if isKey key item.1 then some item.2 else m.find key := by
  unfold find
  rw [List.find?_cons]
  cases isKey key item.1 <;> rfl

theorem isKey_eq {key : Text} {k : Val} : isKey key k = true ↔ k = .str key := by
  cases k <;> simp [isKey]

@[simp] theorem find_set_self (m : Dict) (key : Text) (value : Val) :
    (m.set key value).find key = some value := by
  induction m with
  | nil => simp [set, find, isKey]
  | cons item m ih =>
    unfold set
    split
    · rename_i h
      rw [find_cons, if_pos h]
    · rename_i h
      rw [find_cons, if_neg h, ih]

theorem find_set_of_ne {m : Dict} {key other : Text} (value : Val) (h : other ≠ key) :
    (m.set key value).find other = m.find other := by
  induction m with
  | nil => simp [set, find, isKey, h.symm]
  | cons item m ih =>
    unfold set
    split
    · rename_i hkey
      have hno : isKey other item.1 = false := by
        rw [isKey_eq.mp hkey]
        simp [isKey, h.symm]
      rw [find_cons, find_cons, hno]
      simp
    · rw [find_cons, find_cons, ih]

@[simp] theorem get_set_self (m : Dict) (key : Text) (value : Val) :
    (m.set key value).get key = value := by rw [get, find_set_self]; rfl

theorem get_set_of_ne {m : Dict} {key other : Text} (value : Val) (h : other ≠ key) :
    (m.set key value).get other = m.get other := by rw [get, find_set_of_ne value h]; rfl

@[simp] theorem has_set_self (m : Dict) (key : Text) (value : Val) :
    (m.set key value).has key = true := by rw [has, find_set_self]; rfl

theorem mem_set_of_ne {m : Dict} {key : Text} {value : Val} {item : Val × Val} (hmem : item ∈ m)
    (hne : item.1 ≠ .str key) : item ∈ set key value m := by
  induction m with
  | nil => cases hmem
  | cons first m ih =>
    unfold set
    rcases List.mem_cons.mp hmem with rfl | hmem
    · rw [if_neg fun h => hne (isKey_eq.mp h)]
      exact List.mem_cons_self
    · split
      · exact List.mem_cons_of_mem _ hmem
      · exact List.mem_cons_of_mem _ (ih hmem)

theorem mem_of_mem_set {m : Dict} {key : Text} {value : Val} {item : Val × Val}
    (hmem : item ∈ set key value m) : item ∈ m ∨ item = (.str key, value) := by
  induction m with
  | nil => exact Or.inr (List.mem_singleton.mp hmem)
  | cons first m ih =>
    unfold set at hmem
    split at hmem
    · rename_i hkey
      rcases List.mem_cons.mp hmem with rfl | hmem
      · exact Or.inr (by rw [isKey_eq.mp hkey])
      · exact Or.inl (List.mem_cons_of_mem _ hmem)
    · rcases List.mem_cons.mp hmem with rfl | hmem
      · exact Or.inl List.mem_cons_self
      · exact (ih hmem).imp (List.mem_cons_of_mem _) id

theorem set_of_not_has {m : Dict} {key : Text} {value : Val} (hno : has m key = false) :
    set key value m = m ++ [(.str key, value)] := by
  induction m with
  | nil => rfl
  | cons first m ih =>
    unfold has at hno ih
    rw [find_cons] at hno
    unfold set
    cases hkey : isKey key first.1 with
    | true =>
      rw [hkey] at hno
      cases hno
    | false =>
      rw [hkey] at hno
      rw [if_neg Bool.false_ne_true, ih hno]
      rfl

theorem has_iff {m : Dict} {key : Text} : has m key = true ↔ ∃ v, (.str key, v) ∈ m := by
  induction m with
  | nil => exact ⟨nofun, fun ⟨v, hv⟩ => nomatch hv⟩
  | cons first m ih =>
    unfold has at ih ⊢
    rw [find_cons]
    cases hkey : isKey key first.1 with
    | true => exact ⟨fun _ => ⟨first.2, by rw [← isKey_eq.mp hkey]; exact List.mem_cons_self⟩, fun _ => rfl⟩
    | false =>
      rw [if_neg Bool.false_ne_true, ih]
      refine exists_congr fun v => ⟨List.mem_cons_of_mem _, fun hv => ?_⟩
      rcases List.mem_cons.mp hv with rfl | hv
      · simp [isKey] at hkey
      · exact hv

theorem keys_set {m : Dict} {key : Text} {value : Val} :
    (set key value m).map (·.1) = if has m key then m.map (·.1) else m.map (·.1) ++ [.str key] := by
  induction m with
  | nil => rfl
  | cons first m ih =>
    unfold has at ih ⊢
    rw [find_cons]
    unfold set
    cases hkey : isKey key first.1 with
    | true => rfl
    | false =>
      rw [if_neg Bool.false_ne_true, if_neg Bool.false_ne_true, List.map_cons, ih]
      split <;> rfl

/-- Keys that are all different stay so. -/
theorem nodup_set {m : Dict} {key : Text} {value : Val} (hm : (m.map (·.1)).Nodup) :
    ((set key value m).map (·.1)).Nodup := by
  rw [keys_set]
  split
  · exact hm
  · rename_i hno
    refine List.nodup_append.mpr ⟨hm, List.pairwise_singleton _ _, fun k hk k' hk' heq => ?_⟩
    obtain ⟨item, hitem, rfl⟩ := List.mem_map.mp hk
    rw [List.mem_singleton] at hk'
    refine hno (has_iff.mpr ⟨item.2, ?_⟩)
    rw [← hk', ← heq]
    exact hitem

theorem mem_of_find {m : Dict} {key : Text} {v : Val} (h : m.find key = some v) :
    ∃ item ∈ m, item.2 = v := by
  unfold find at h
  cases hitem : m.find? fun item => isKey key item.1 with
  | none => rw [hitem] at h; cases h
  | some item =>
    rw [hitem] at h
    exact ⟨item, List.mem_of_find?_eq_some hitem, Option.some.inj h⟩

/-- With different keys, to be an item is to be found. -/
theorem mem_iff_find {m : Dict} (hm : (m.map (·.1)).Nodup) {key : Text} {v : Val} :
    (.str key, v) ∈ m ↔ m.find key = some v := by
  induction m with
  | nil => exact ⟨fun h => (nomatch h), fun h => (nomatch h)⟩
  | cons item m ih =>
    rw [List.map_cons, List.nodup_cons] at hm
    rw [find_cons, List.mem_cons, ih hm.2]
    cases hkey : isKey key item.1 with
    | true =>
      rw [if_pos rfl, Option.some.injEq]
      have hitem := isKey_eq.mp hkey
      constructor
      · rintro (heq | hfind)
        · rw [← heq]
        · refine absurd ?_ hm.1
          rw [hitem]
          exact List.mem_map_of_mem ((ih hm.2).mpr hfind)
      · rintro rfl
        exact Or.inl (Prod.ext hitem.symm rfl)
    | false =>
      rw [if_neg Bool.false_ne_true, or_iff_right]
      rintro rfl
      simp [isKey] at hkey

/-- `m.pop(key, None)` -/
def pop (key : Text) (m : Dict) : Dict := m.filter fun item => !isKey key item.1

theorem pop_set (key : Text) (v : Val) (m : Dict) : pop key (set key v m) = pop key m := by
  induction m with
  | nil => simp [pop, set, isKey]
  | cons item m ih =>
    unfold set
    cases hkey : isKey key item.1 with
    | true =>
      rw [if_pos rfl, pop, pop, List.filter_cons_of_neg (by simp [hkey]),
        List.filter_cons_of_neg (by simp [hkey])]
    | false =>
      rw [if_neg Bool.false_ne_true]
      unfold pop at ih ⊢
      rw [List.filter_cons_of_pos (by simp [hkey]), List.filter_cons_of_pos (by simp [hkey]), ih]

theorem find_pop_of_ne {key other : Text} (h : other ≠ key) (m : Dict) :
    find (pop key m) other = find m other := by
  induction m with
  | nil => rfl
  | cons item m ih =>
    unfold pop at ih ⊢
    cases hkey : isKey key item.1 with
    | true =>
      have hother : isKey other item.1 = false := by
        rw [isKey_eq.mp hkey]
        simp [isKey, h.symm]
      rw [List.filter_cons_of_neg (by simp [hkey]), ih, find_cons, hother,
        if_neg Bool.false_ne_true]
    | false =>
      rw [List.filter_cons_of_pos (by simp [hkey]), find_cons, find_cons, ih]

theorem find_pop_self (key : Text) (m : Dict) : find (pop key m) key = none := by
  unfold find pop
  rw [List.find?_filter, List.find?_eq_none.mpr]
  · rfl
  · intro item _
    cases isKey key item.1 <;> simp

end Dict

/-- A whole number prints with its decimal point, a small fraction with its digits. -/
example : floatText 12 = "12.0" ∧ floatText (1 / 8) = "0.125" := by decide +kernel

example : floatOfText " -1_0.5e-1 " = some (-21 / 20) := by decide +kernel

end Infinito.Py
