import Mathlib.Data.List.Basic

/-!
# JSON text

A reader for all of JSON, and a printer for what a flat message holds: an object whose values
are texts, whole numbers, truth values and nulls. The printer escapes what has to be escaped
and nothing else, so that every other character stands for itself.

A message is read back (`parse_print`). A line feed inside of a text is the end of it: no text
that is cut by one is read at all (`parse_print_cut`).

The reader recurses on a number that bounds what it may read; it is given the length of the
text, and every call reads a character at least.
-/

set_option autoImplicit false

namespace Infinito.Lib.Json

inductive Value where
  | null
  | bool (b : Bool)
  /-- a number, by its literal -/
  | num (literal : List Char)
  | str (t : List Char)
  | arr (items : List Value)
  | obj (members : List (List Char × Value))

/-! ## Texts -/

def hexValue (c : Char) : Option Nat :=
  if 48 ≤ c.toNat ∧ c.toNat ≤ 57 then some (c.toNat - 48)
  else if 65 ≤ c.toNat ∧ c.toNat ≤ 70 then some (c.toNat - 55)
  else if 97 ≤ c.toNat ∧ c.toNat ≤ 102 then some (c.toNat - 87)
  else none

def hexUnit (a b c d : Char) : Option Nat := do
  let a ← hexValue a
  let b ← hexValue b
  let c ← hexValue c
  let d ← hexValue d
  return ((a * 16 + b) * 16 + c) * 16 + d

/-- The character behind a backslash. -/
def simpleEscape : Char → Option Char
  | '"' => some '"'
  | '\\' => some '\\'
  | '/' => some '/'
  | 'b' => some '\x08'
  | 'f' => some '\x0c'
  | 'n' => some '\n'
  | 'r' => some '\r'
  | 't' => some '\t'
  | _ => none

/-- The characters of a text up to its closing quote, by their numbers: an escape may give half
    of a surrogate pair. -/
def units : List Char → Option (List Nat × List Char)
  | [] => none
  | '"' :: t => some ([], t)
  | '\\' :: 'u' :: a :: b :: c :: d :: t => match hexUnit a b c d, units t with
      | some n, some (ns, rest) => some (n :: ns, rest)
      | _, _ => none
  | '\\' :: e :: t => match simpleEscape e, units t with
      | some c, some (ns, rest) => some (c.toNat :: ns, rest)
      | _, _ => none
  | c :: t =>
      if c.toNat < 0x20 then none
      else match units t with
        | some (ns, rest) => some (c.toNat :: ns, rest)
        | none => none

/-- Surrogate pairs are put together; half of one is no character. -/
def ofUnits : List Nat → List Char
  | [] => []
  | hi :: lo :: ns =>
      if 0xd800 ≤ hi ∧ hi < 0xdc00 ∧ 0xdc00 ≤ lo ∧ lo < 0xe000 then
        Char.ofNat (0x10000 + (hi - 0xd800) * 0x400 + (lo - 0xdc00)) :: ofUnits ns
      else (if 0xd800 ≤ hi ∧ hi < 0xe000 then '\uFFFD' else Char.ofNat hi) :: ofUnits (lo :: ns)
  | [n] => [if 0xd800 ≤ n ∧ n < 0xe000 then '\uFFFD' else Char.ofNat n]

/-- A text, behind its opening quote. -/
def string (t : List Char) : Option (List Char × List Char) :=
  (units t).map fun (ns, rest) => (ofUnits ns, rest)

/-! ## Values -/

def isSpace (c : Char) : Bool := c = ' ' || c = '\t' || c = '\n' || c = '\r'

def skip (t : List Char) : List Char := t.dropWhile isSpace

/-- What `p` takes off, if it is not empty. -/
def some1 (p : Char → Bool) (t : List Char) : Option (List Char × List Char) :=
  if t.takeWhile p = [] then none else some (t.takeWhile p, t.dropWhile p)

/-- `0|[1-9][0-9]*` -/
def natural : List Char → Option (List Char × List Char)
  | '0' :: rest => some (['0'], rest)
  | t => some1 Char.isDigit t

/-- `-?(0|[1-9][0-9]*)` -/
def integer : List Char → Option (List Char × List Char)
  | '-' :: t => (natural t).map fun (ds, rest) => ('-' :: ds, rest)
  | t => natural t

/-- `(\.[0-9]+)?` -/
def fraction : List Char → Option (List Char × List Char)
  | '.' :: t => (some1 Char.isDigit t).map fun (ds, rest) => ('.' :: ds, rest)
  | t => some ([], t)

/-- `([eE][+-]?[0-9]+)?` -/
def exponent : List Char → Option (List Char × List Char)
  | c :: t =>
      if c = 'e' ∨ c = 'E' then
        let (sign, body) := match t with
          | '+' :: t => (['+'], t)
          | '-' :: t => (['-'], t)
          | t => ([], t)
        (some1 Char.isDigit body).map fun (ds, rest) => (c :: sign ++ ds, rest)
      else some ([], c :: t)
  | [] => some ([], [])

def number (t : List Char) : Option (Value × List Char) := do
  let (whole, t) ← integer t
  let (part, t) ← fraction t
  let (power, t) ← exponent t
  return (.num (whole ++ part ++ power), t)

mutual

def value : Nat → List Char → Option (Value × List Char)
  | 0, _ => none
  | fuel + 1, t => match t with
      | '"' :: t => (string t).map fun (s, rest) => (.str s, rest)
      | '\x7b' :: t => match skip t with
          | '\x7d' :: rest => some (.obj [], rest)
          | t => members fuel [] t
      | '[' :: t => match skip t with
          | ']' :: rest => some (.arr [], rest)
          | t => elements fuel [] t
      | 't' :: 'r' :: 'u' :: 'e' :: rest => some (.bool true, rest)
      | 'f' :: 'a' :: 'l' :: 's' :: 'e' :: rest => some (.bool false, rest)
      | 'n' :: 'u' :: 'l' :: 'l' :: rest => some (.null, rest)
      | t => number t

/-- The members of an object from the next key on. -/
def members : Nat → List (List Char × Value) → List Char → Option (Value × List Char)
  | 0, _, _ => none
  | fuel + 1, acc, t => match t with
      | '"' :: t => match string t with
          | none => none
          | some (key, t) => match skip t with
              | ':' :: t => match value fuel (skip t) with
                  | none => none
                  | some (v, t) => match skip t with
                      | ',' :: t => members fuel (acc ++ [(key, v)]) (skip t)
                      | '\x7d' :: rest => some (.obj (acc ++ [(key, v)]), rest)
                      | _ => none
              | _ => none
      | _ => none

/-- The elements of an array from the next one on. -/
def elements : Nat → List Value → List Char → Option (Value × List Char)
  | 0, _, _ => none
  | fuel + 1, acc, t => match value fuel t with
      | none => none
      | some (v, t) => match skip t with
          | ',' :: t => elements fuel (acc ++ [v]) (skip t)
          | ']' :: rest => some (.arr (acc ++ [v]), rest)
          | _ => none

end

/-- A value, and nothing but white space around it. -/
def parse (t : List Char) : Option Value :=
  match value (t.length + 1) (skip t) with
  | some (v, rest) => if skip rest = [] then some v else none
  | none => none

/-- A member of an object: of two with one key the last counts. -/
def Value.get (key : List Char) : Value → Option Value
  | obj members => (members.reverse.find? fun m => m.1 = key).map (·.2)
  | _ => none

/-! ## Printing -/

inductive Scalar where
  | null
  | bool (b : Bool)
  | int (n : Int)
  | str (t : List Char)

def hexDigit (n : Nat) : Char := if n < 10 then Char.ofNat (48 + n) else Char.ofNat (87 + n)

/-- A character inside of a text. -/
def escape (c : Char) : List Char :=
  if c = '"' then ['\\', '"']
  else if c = '\\' then ['\\', '\\']
  else if c = '\x08' then ['\\', 'b']
  else if c = '\x0c' then ['\\', 'f']
  else if c = '\n' then ['\\', 'n']
  else if c = '\r' then ['\\', 'r']
  else if c = '\t' then ['\\', 't']
  else if c.toNat < 0x20 then ['\\', 'u', '0', '0', hexDigit (c.toNat / 16), hexDigit (c.toNat % 16)]
  else [c]

def printText (t : List Char) : List Char := '"' :: t.flatMap escape ++ ['"']

def printInt (n : Int) : List Char :=
  if n < 0 then '-' :: (Nat.repr n.natAbs).toList else (Nat.repr n.natAbs).toList

def Scalar.print : Scalar → List Char
  | null => "null".toList
  | bool b => if b then "true".toList else "false".toList
  | int n => printInt n
  | str t => printText t

def printMember (m : List Char × Scalar) : List Char := printText m.1 ++ ':' :: ' ' :: m.2.print

/-- An object, with a blank behind each comma and colon. -/
def print (ms : List (List Char × Scalar)) : List Char :=
  '\x7b' :: List.intercalate [',', ' '] (ms.map printMember) ++ ['\x7d']

def Scalar.value : Scalar → Value
  | null => .null
  | bool b => .bool b
  | int n => .num (printInt n)
  | str t => .str t

/-- A carriage return is escaped. -/
theorem not_mem_escape (c : Char) : '\r' ∉ escape c := by
  have hdigit : ∀ n < 16, '\r' ≠ hexDigit n := by decide
  unfold escape
  split_ifs with h₁ h₂ h₃ h₄ h₅ h₆ h₇ h₈
  · decide
  · decide
  · decide
  · decide
  · decide
  · decide
  · decide
  · simp only [List.mem_cons, List.not_mem_nil, or_false, not_or]
    refine ⟨by decide, by decide, by decide, by decide, hdigit _ (by omega), hdigit _ (by omega)⟩
  · rw [List.mem_singleton]
    exact Ne.symm h₆

theorem not_mem_printText (t : List Char) : '\r' ∉ printText t := by
  unfold printText
  rw [List.cons_append, List.mem_cons, List.mem_append, List.mem_flatMap, List.mem_singleton]
  rintro (h | ⟨c, -, hc⟩ | h)
  · exact absurd h (by decide)
  · exact not_mem_escape c hc
  · exact absurd h (by decide)

/-! ## Texts are read back -/

theorem hexUnit_control : ∀ n < 0x20,
    hexUnit '0' '0' (hexDigit (n / 16)) (hexDigit (n % 16)) = some n := by decide

theorem units_plain {c : Char} {u : List Char} (hquote : c ≠ '"') (hslash : c ≠ '\\')
    (hc : ¬ c.toNat < 0x20) :
    units (c :: u) = (units u).map fun (ns, rest) => (c.toNat :: ns, rest) := by
  rw [units]
  · rw [if_neg hc]
    cases units u with
    | none => rfl
    | some x => rfl
  · exact hquote
  · rintro a b c' d t rfl
    exact absurd rfl hslash
  · rintro e t rfl
    exact absurd rfl hslash

theorem units_simple {e c : Char} {u : List Char} (hu : e ≠ 'u') (he : simpleEscape e = some c) :
    units ('\\' :: e :: u) = (units u).map fun (ns, rest) => (c.toNat :: ns, rest) := by
  rw [units]
  · rw [he]
    cases units u with
    | none => rfl
    | some x => rfl
  · rintro a b c' d t rfl
    exact absurd rfl hu

theorem units_escape (c : Char) (u : List Char) :
    units (escape c ++ u) = (units u).map fun (ns, rest) => (c.toNat :: ns, rest) := by
  unfold escape
  split_ifs with h₁ h₂ h₃ h₄ h₅ h₆ h₇ h₈
  · rw [h₁]; exact units_simple (by decide) rfl
  · rw [h₂]; exact units_simple (by decide) rfl
  · rw [h₃]; exact units_simple (by decide) rfl
  · rw [h₄]; exact units_simple (by decide) rfl
  · rw [h₅]; exact units_simple (by decide) rfl
  · rw [h₆]; exact units_simple (by decide) rfl
  · rw [h₇]; exact units_simple (by decide) rfl
  · rw [List.cons_append, List.cons_append, List.cons_append, List.cons_append, List.cons_append,
      List.cons_append, List.nil_append, units, hexUnit_control _ h₈]
    cases units u with
    | none => rfl
    | some x => rfl
  · exact units_plain h₁ h₂ h₈

/-- A character that is no half of a surrogate pair. -/
theorem not_surrogate (c : Char) : ¬ (0xd800 ≤ c.toNat ∧ c.toNat < 0xe000) := by
  have hvalid : c.toNat < 0xd800 ∨ 0xdfff < c.toNat ∧ c.toNat < 0x110000 := c.valid
  omega

theorem ofUnits_toNat (t : List Char) : ofUnits (t.map Char.toNat) = t := by
  induction t with
  | nil => rfl
  | cons c t ih =>
    have hc := not_surrogate c
    cases t with
    | nil =>
      rw [List.map_cons, List.map_nil, ofUnits, if_neg hc, Char.ofNat_toNat]
    | cons d t =>
      rw [List.map_cons, List.map_cons, ofUnits, if_neg (by omega), if_neg hc, Char.ofNat_toNat]
      exact congrArg (c :: ·) ih

theorem units_text (t : List Char) (u : List Char) :
    units (t.flatMap escape ++ u) = (units u).map fun (ns, rest) => (t.map Char.toNat ++ ns, rest) := by
  induction t with
  | nil =>
    rw [List.flatMap_nil, List.nil_append]
    cases units u <;> rfl
  | cons c t ih =>
    rw [List.flatMap_cons, List.append_assoc, units_escape, ih]
    cases units u <;> rfl

theorem string_text (t rest : List Char) :
    string (t.flatMap escape ++ '"' :: rest) = some (t, rest) := by
  rw [string, units_text, units]
  simp [ofUnits_toNat]

/-- A text that is cut by a line feed has no end. -/
theorem string_cut (t rest : List Char) : string (t.flatMap escape ++ '\n' :: rest) = none := by
  have hcut : units ('\n' :: rest) = none := rfl
  rw [string, units_text, hcut]
  rfl

/-! ## Numbers are read back -/

/-- A number but `0` does not begin with `0`. -/
theorem head_toDigits {n : Nat} (hn : 0 < n) : (Nat.toDigits 10 n).head? ≠ some '0' := by
  induction n using Nat.strongRecOn with
  | _ n ih =>
    by_cases h : n < 10
    · have hdigit : ∀ n < 10, 0 < n → [n.digitChar].head? ≠ some '0' := by decide
      rw [Nat.toDigits_of_lt_base h]
      exact hdigit n h hn
    · rw [Nat.toDigits_of_base_le (by omega) (by omega), List.head?_append]
      have hrest := ih (n / 10) (by omega) (by omega)
      cases hhead : (Nat.toDigits 10 (n / 10)).head? with
      | none => exact absurd (List.head?_eq_none_iff.mp hhead) Nat.toDigits_ne_nil
      | some c =>
        rw [hhead] at hrest
        exact hrest

theorem natural_toDigits (n : Nat) {c : Char} {rest : List Char} (hc : c.isDigit = false) :
    natural (Nat.toDigits 10 n ++ c :: rest) = some (Nat.toDigits 10 n, c :: rest) := by
  by_cases hn : n = 0
  · rw [hn]
    rfl
  · have hall : ∀ d ∈ Nat.toDigits 10 n, d.isDigit = true := fun d hd =>
      Nat.isDigit_of_mem_toDigits (by decide) (by decide) hd
    have hhead := head_toDigits (Nat.pos_of_ne_zero hn)
    obtain ⟨d, ds, hds⟩ := List.exists_cons_of_ne_nil (Nat.toDigits_ne_nil (n := n) (b := 10))
    rw [hds] at hall hhead ⊢
    have hd : d ≠ '0' := fun h => hhead (congrArg some h)
    have htake : (d :: ds ++ c :: rest).takeWhile Char.isDigit = d :: ds := by
      rw [List.takeWhile_append_of_pos hall, List.takeWhile_cons_of_neg (by simp [hc]),
        List.append_nil]
    have hdrop : (d :: ds ++ c :: rest).dropWhile Char.isDigit = c :: rest := by
      rw [List.dropWhile_append_of_pos hall, List.dropWhile_cons_of_neg (by simp [hc])]
    rw [natural, some1, htake, hdrop, if_neg (List.cons_ne_nil d ds)]
    · rintro rest' h
      exact hd (List.cons.inj h).1

theorem integer_printInt (n : Int) {c : Char} {rest : List Char} (hc : c.isDigit = false) :
    integer (printInt n ++ c :: rest) = some (printInt n, c :: rest) := by
  unfold printInt
  rw [Nat.toList_repr]
  split
  · rw [List.cons_append, integer, natural_toDigits _ hc]
    rfl
  · obtain ⟨d, ds, hds⟩ := List.exists_cons_of_ne_nil (Nat.toDigits_ne_nil (n := n.natAbs) (b := 10))
    have hd : d ≠ '-' := by
      rintro rfl
      have hdigit := Nat.isDigit_of_mem_toDigits (b := 10) (n := n.natAbs) (c := '-') (by decide)
        (by decide) (by rw [hds]; exact List.mem_cons_self)
      revert hdigit
      decide
    have hnat := @natural_toDigits n.natAbs _ rest hc
    rw [hds] at hnat ⊢
    rw [List.cons_append, integer]
    · exact hnat
    · intro t h
      exact hd (List.cons.inj h).1

/-! ## Messages are read back -/

/-- What may stand behind a member. -/
def IsEnd (c : Char) : Prop := c = ',' ∨ c = '\x7d'

theorem number_printInt (n : Int) {c : Char} {rest : List Char} (hc : IsEnd c) :
    number (printInt n ++ c :: rest) = some (.num (printInt n), c :: rest) := by
  have hdigit : c.isDigit = false := by rcases hc with rfl | rfl <;> rfl
  unfold number
  rw [integer_printInt n hdigit]
  rcases hc with rfl | rfl <;> simp [fraction, exponent]

theorem head_printInt (n : Int) : ∃ x xs, printInt n = x :: xs ∧ (x = '-' ∨ x.isDigit = true) := by
  unfold printInt
  split
  · exact ⟨_, _, rfl, Or.inl rfl⟩
  · rw [Nat.toList_repr]
    obtain ⟨d, ds, hds⟩ := List.exists_cons_of_ne_nil (Nat.toDigits_ne_nil (n := n.natAbs) (b := 10))
    refine ⟨d, ds, hds, Or.inr ?_⟩
    exact Nat.isDigit_of_mem_toDigits (b := 10) (n := n.natAbs) (by decide) (by decide)
      (by rw [hds]; exact List.mem_cons_self)

theorem value_print (s : Scalar) {fuel : Nat} {c : Char} {rest : List Char} (hc : IsEnd c) :
    value (fuel + 1) (s.print ++ c :: rest) = some (s.value, c :: rest) := by
  cases s with
  | null => rfl
  | bool b => cases b <;> rfl
  | int n =>
    obtain ⟨x, xs, hx, hhead⟩ := head_printInt n
    have hother : ∀ y ∈ ['"', '\x7b', '[', 't', 'f', 'n'], x ≠ y := by
      rintro y hy rfl
      rcases hhead with rfl | hdigit
      · revert hy
        decide
      · have hno : (['"', '\x7b', '[', 't', 'f', 'n'].all fun y => !y.isDigit) = true := by decide
        have hx := List.all_eq_true.mp hno x hy
        rw [hdigit] at hx
        cases hx
    have hnumber := @number_printInt n _ rest hc
    rw [Scalar.print]
    rw [hx] at hnumber ⊢
    rw [List.cons_append, value]
    · rw [← List.cons_append, hnumber, Scalar.value, hx]
    all_goals
      intro t h
      exact hother _ (by decide) (List.cons.inj h).1
  | str t =>
    rw [Scalar.print, printText, List.append_assoc, List.cons_append, List.singleton_append, value,
      string_text]
    rfl

theorem skip_of_not_space {c : Char} {t : List Char} (hc : isSpace c = false) :
    skip (c :: t) = c :: t := by
  rw [skip, List.dropWhile_cons_of_neg (by simp [hc])]

theorem skip_blank (t : List Char) : skip (' ' :: t) = skip t := rfl

theorem print_head (s : Scalar) : ∃ x xs, s.print = x :: xs ∧ isSpace x = false := by
  cases s with
  | null => exact ⟨_, _, rfl, rfl⟩
  | bool b => cases b <;> exact ⟨_, _, rfl, rfl⟩
  | int n =>
    obtain ⟨x, xs, hx, hhead⟩ := head_printInt n
    refine ⟨x, xs, hx, ?_⟩
    rcases hhead with rfl | hdigit
    · rfl
    · cases hspace : isSpace x with
      | false => rfl
      | true =>
        have hcases : ((x = ' ' ∨ x = '\t') ∨ x = '\n') ∨ x = '\r' := by simpa [isSpace] using hspace
        rcases hcases with ((rfl | rfl) | rfl) | rfl <;> cases hdigit
  | str t => exact ⟨_, _, rfl, rfl⟩

theorem printMember_append (m : List Char × Scalar) (u : List Char) :
    printMember m ++ u =
      '"' :: (m.1.flatMap escape ++ '"' :: ':' :: ' ' :: (m.2.print ++ u)) := by
  simp [printMember, printText]

theorem skip_print (s : Scalar) (u : List Char) : skip (' ' :: (s.print ++ u)) = s.print ++ u := by
  obtain ⟨x, xs, hx, hspace⟩ := print_head s
  rw [hx, skip_blank, List.cons_append, skip_of_not_space hspace]

theorem members_colon {fuel : Nat} {acc : List (List Char × Value)} {t key u : List Char}
    (h : string t = some (key, ':' :: u)) :
    members (fuel + 1) acc ('"' :: t) = match value fuel (skip u) with
      | none => none
      | some (v, t) => match skip t with
          | ',' :: t => members fuel (acc ++ [(key, v)]) (skip t)
          | '\x7d' :: rest => some (.obj (acc ++ [(key, v)]), rest)
          | _ => none := by
  rw [members, h]
  rfl

/-- A member and the comma behind it. -/
theorem members_comma (m : List Char × Scalar) {fuel : Nat} {acc : List (List Char × Value)}
    {t : List Char} :
    members (fuel + 2) acc (printMember m ++ ',' :: ' ' :: '"' :: t) =
      members (fuel + 1) (acc ++ [(m.1, m.2.value)]) ('"' :: t) := by
  rw [printMember_append, members_colon (string_text _ _), skip_print,
    value_print m.2 (Or.inl rfl)]
  rfl

/-- The last member and the brace behind it. -/
theorem members_brace (m : List Char × Scalar) {fuel : Nat} {acc : List (List Char × Value)}
    {t : List Char} :
    members (fuel + 2) acc (printMember m ++ '\x7d' :: t) =
      some (.obj (acc ++ [(m.1, m.2.value)]), t) := by
  rw [printMember_append, members_colon (string_text _ _), skip_print,
    value_print m.2 (Or.inr rfl)]
  rfl

theorem printText_append (t u : List Char) :
    printText t ++ u = '"' :: (t.flatMap escape ++ '"' :: u) := by
  simp [printText]

/-- A last member whose text is cut. -/
theorem members_cut (key t : List Char) {fuel : Nat} {acc : List (List Char × Value)}
    {rest : List Char} :
    members (fuel + 2) acc (printText key ++ ':' :: ' ' :: '"' :: (t.flatMap escape ++ '\n' :: rest)) =
      none := by
  rw [printText_append, members_colon (string_text _ _), skip_blank, skip_of_not_space rfl, value,
    string_cut]
  rfl

/-- The beginning of an object, up to the key of a member. -/
def printOpen (ms : List (List Char × Scalar)) : List Char :=
  '\x7b' :: ms.flatMap fun m => printMember m ++ [',', ' ']

theorem print_concat (ms : List (List Char × Scalar)) (m : List Char × Scalar) :
    print (ms ++ [m]) = printOpen ms ++ printMember m ++ ['\x7d'] := by
  have hjoin (ls : List (List Char)) (l : List Char) :
      List.intercalate [',', ' '] (ls ++ [l]) = ls.flatMap (fun l => l ++ [',', ' ']) ++ l := by
    induction ls with
    | nil => simp [List.intercalate]
    | cons a ls ih =>
      obtain ⟨b, bs, hb⟩ := List.exists_cons_of_ne_nil (List.append_ne_nil_of_right_ne_nil ls
        (List.cons_ne_nil l []))
      rw [List.flatMap_cons, List.append_assoc, ← ih, List.cons_append, hb]
      simp [List.intercalate]
  rw [print, List.map_append, List.map_singleton, hjoin, printOpen, List.flatMap_map]
  simp

theorem exists_quote (ms : List (List Char × Scalar)) (t : List Char) :
    ∃ u, ms.flatMap (fun m => printMember m ++ [',', ' ']) ++ '"' :: t = '"' :: u := by
  cases ms with
  | nil => exact ⟨t, rfl⟩
  | cons m ms => exact ⟨_, rfl⟩

/-- An object is read member by member. -/
theorem members_open (ms : List (List Char × Scalar)) {fuel : Nat}
    {acc : List (List Char × Value)} {t : List Char} :
    members (fuel + ms.length + 1) acc
        (ms.flatMap (fun m => printMember m ++ [',', ' ']) ++ '"' :: t) =
      members (fuel + 1) (acc ++ ms.map fun m => (m.1, m.2.value)) ('"' :: t) := by
  induction ms generalizing acc with
  | nil =>
    rw [List.flatMap_nil, List.nil_append, List.map_nil, List.append_nil]
    rfl
  | cons m ms ih =>
    obtain ⟨u, hu⟩ := exists_quote ms t
    have hfirst : (m :: ms).flatMap (fun m => printMember m ++ [',', ' ']) ++ '"' :: t =
        printMember m ++ ',' :: ' ' :: '"' :: u := by
      rw [List.flatMap_cons, List.append_assoc, hu, List.append_assoc]
      rfl
    rw [hfirst, List.length_cons, show fuel + (ms.length + 1) + 1 = fuel + ms.length + 2 by omega,
      members_comma, ← hu, ih, List.map_cons, List.append_assoc]
    rfl

theorem length_flatMap_le (ms : List (List Char × Scalar)) :
    ms.length ≤ (ms.flatMap fun m => printMember m ++ [',', ' ']).length := by
  induction ms with
  | nil => exact Nat.le_refl 0
  | cons m ms ih =>
    rw [List.flatMap_cons, List.length_append, List.length_append, List.length_cons]
    simp only [List.length_cons, List.length_nil]
    omega

/-- The members of an object are read from the last on. -/
theorem parse_open (ms : List (List Char × Scalar)) (t : List Char) :
    ∃ fuel, parse (printOpen ms ++ '"' :: t) =
      match members (fuel + 2) (ms.map fun m => (m.1, m.2.value)) ('"' :: t) with
      | some (v, rest) => if skip rest = [] then some v else none
      | none => none := by
  obtain ⟨u, hu⟩ := exists_quote ms t
  have hlen := length_flatMap_le ms
  have hopen : printOpen ms ++ '"' :: t = '\x7b' :: '"' :: u := by
    rw [printOpen, List.cons_append, hu]
  have htext : (printOpen ms ++ '"' :: t).length =
      (ms.flatMap fun m => printMember m ++ [',', ' ']).length + t.length + 2 := by
    rw [printOpen]
    simp only [List.cons_append, List.length_cons, List.length_append]
    omega
  refine ⟨(printOpen ms ++ '"' :: t).length - ms.length - 2, ?_⟩
  have hfuel : (printOpen ms ++ '"' :: t).length =
      ((printOpen ms ++ '"' :: t).length - ms.length - 2 + 1) + ms.length + 1 := by omega
  have hread := @members_open ms ((printOpen ms ++ '"' :: t).length - ms.length - 2 + 1) [] t
  rw [← hfuel, hu, List.nil_append] at hread
  rw [parse, hopen, skip_of_not_space rfl, value, skip_of_not_space rfl]
  rw [hopen] at hread
  exact congrArg (fun x => match x with
    | some (v, rest) => if skip rest = [] then some v else none
    | none => none) hread

/-- **What is printed is read back.** -/
theorem parse_print (ms : List (List Char × Scalar)) (m : List Char × Scalar) :
    parse (print (ms ++ [m])) = some (.obj ((ms ++ [m]).map fun m => (m.1, m.2.value))) := by
  have hquote : printMember m ++ ['\x7d'] =
      '"' :: (m.1.flatMap escape ++ '"' :: ':' :: ' ' :: (m.2.print ++ ['\x7d'])) :=
    printMember_append m _
  obtain ⟨fuel, hparse⟩ := parse_open ms
    (m.1.flatMap escape ++ '"' :: ':' :: ' ' :: (m.2.print ++ ['\x7d']))
  rw [print_concat, List.append_assoc, hquote, hparse, ← hquote, members_brace, List.map_append]
  rfl

/-- **Nothing is read where the last text is cut.** -/
theorem parse_print_cut (ms : List (List Char × Scalar)) (key t rest : List Char) :
    parse (printOpen ms ++ (printText key ++
      ':' :: ' ' :: '"' :: (t.flatMap escape ++ '\n' :: rest))) = none := by
  have hquote := printText_append key (':' :: ' ' :: '"' :: (t.flatMap escape ++ '\n' :: rest))
  obtain ⟨fuel, hparse⟩ := parse_open ms (key.flatMap escape ++
    '"' :: ':' :: ' ' :: '"' :: (t.flatMap escape ++ '\n' :: rest))
  rw [hquote, hparse, ← hquote, members_cut]

/-! ## Nothing printed is a control character -/

theorem space_le_escape {c d : Char} (h : d ∈ escape c) : 0x20 ≤ d.toNat := by
  have hdigit : ∀ n < 16, 0x20 ≤ (hexDigit n).toNat := by decide
  have hpair {x y : Char} (hx : 0x20 ≤ x.toNat) (hy : 0x20 ≤ y.toNat) (h : d ∈ [x, y]) :
      0x20 ≤ d.toNat := by
    rcases List.mem_pair.mp h with rfl | rfl
    · exact hx
    · exact hy
  unfold escape at h
  split_ifs at h with h₁ h₂ h₃ h₄ h₅ h₆ h₇ h₈
  · exact hpair (by decide) (by decide) h
  · exact hpair (by decide) (by decide) h
  · exact hpair (by decide) (by decide) h
  · exact hpair (by decide) (by decide) h
  · exact hpair (by decide) (by decide) h
  · exact hpair (by decide) (by decide) h
  · exact hpair (by decide) (by decide) h
  · simp only [List.mem_cons, List.not_mem_nil, or_false] at h
    rcases h with rfl | rfl | rfl | rfl | rfl | rfl
    · decide
    · decide
    · decide
    · decide
    · exact hdigit _ (by omega)
    · exact hdigit _ (by omega)
  · rw [List.mem_singleton.mp h]
    exact Nat.not_lt.mp h₈

theorem space_le_printText {t : List Char} {d : Char} (h : d ∈ printText t) : 0x20 ≤ d.toNat := by
  unfold printText at h
  rw [List.cons_append, List.mem_cons, List.mem_append, List.mem_flatMap, List.mem_singleton] at h
  rcases h with rfl | ⟨c, -, hc⟩ | rfl
  · decide
  · exact space_le_escape hc
  · decide

theorem space_le_printInt {n : Int} {d : Char} (h : d ∈ printInt n) : 0x20 ≤ d.toNat := by
  have hdigit (m : Nat) (hd : d ∈ (Nat.repr m).toList) : 0x20 ≤ d.toNat := by
    rw [Nat.toList_repr] at hd
    have hd := Nat.isDigit_of_mem_toDigits (b := 10) (by decide) (by decide) hd
    unfold Char.isDigit at hd
    rw [Bool.and_eq_true, decide_eq_true_eq] at hd
    exact Nat.le_trans (by decide) (UInt32.le_iff_toNat_le.mp hd.1)
  unfold printInt at h
  split at h
  · rcases List.mem_cons.mp h with rfl | h
    · decide
    · exact hdigit _ h
  · exact hdigit _ h

theorem space_le_scalar {s : Scalar} {d : Char} (h : d ∈ s.print) : 0x20 ≤ d.toNat := by
  cases s with
  | null =>
    have hall : ("null".toList.all fun c => decide (0x20 ≤ c.toNat)) = true := by decide
    exact of_decide_eq_true (List.all_eq_true.mp hall d h)
  | bool b =>
    have hall : (("true".toList ++ "false".toList).all fun c => decide (0x20 ≤ c.toNat)) = true := by
      decide
    refine of_decide_eq_true (List.all_eq_true.mp hall d (List.mem_append.mpr ?_))
    cases b with
    | true => exact Or.inl h
    | false => exact Or.inr h
  | int n => exact space_le_printInt h
  | str t => exact space_le_printText h

theorem space_le_printMember {m : List Char × Scalar} {d : Char} (h : d ∈ printMember m) :
    0x20 ≤ d.toNat := by
  unfold printMember at h
  rw [List.mem_append, List.mem_cons, List.mem_cons] at h
  rcases h with h | rfl | rfl | h
  · exact space_le_printText h
  · decide
  · decide
  · exact space_le_scalar h

theorem space_le_print {ms : List (List Char × Scalar)} {m : List Char × Scalar} {d : Char}
    (h : d ∈ print (ms ++ [m])) : 0x20 ≤ d.toNat := by
  rw [print_concat, List.mem_append, List.mem_append, List.mem_singleton, printOpen, List.mem_cons,
    List.mem_flatMap] at h
  rcases h with ((rfl | ⟨m', -, h⟩) | h) | rfl
  · decide
  · rcases List.mem_append.mp h with h | h
    · exact space_le_printMember h
    · rcases List.mem_pair.mp h with rfl | rfl
      · decide
      · decide
  · exact space_le_printMember h
  · decide

end Infinito.Lib.Json
