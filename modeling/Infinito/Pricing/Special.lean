import Infinito.Pricing.Monotone
import Infinito.Pricing.Tiers

/-!
# Numbers that are not finite

`float` also reads `nan` and `inf`, from a text too, and so a client can give them for a number.
`_to_number` and the bounds of an input reject a number by comparing it, and a NaN is neither less
nor greater than anything: it passes every check (`nan_gets_through`), and so does infinity where
there is no upper bound. `inputs_respected_iff` says that this is all that does.

The module reads numbers anew, as Python's floats (`Number`), and settles the inputs with them. In
a value, infinity and NaN are the values of no other kind that are printed so. Where all numbers
are finite this is what the module on quotes does (`resolveFloat_eq`).
-/

set_option autoImplicit false

namespace Infinito.Pricing

open Py
open Lib (bind_ok ok_of_toOption)

/-! ## Floats -/

/-- A float, but for rounding. -/
inductive Number where
  | finite (q : ℚ)
  | inf
  | negInf
  | nan
  deriving DecidableEq

namespace Number

/-- `x < y` -/
def lt : Number → Number → Bool
  | .nan, _ | _, .nan => false
  | .finite p, .finite q => p < q
  | .negInf, y => y ≠ .negInf
  | _, .negInf => false
  | .inf, _ => false
  | .finite _, .inf => true

/-- `x <= y` -/
def le (x y : Number) : Bool := x ≠ .nan && y ≠ .nan && !y.lt x

def val : Number → Val
  | .finite q => .float q
  | .inf => .other "inf"
  | .negInf => .other "-inf"
  | .nan => .other "nan"

/-- From here on the nearest float is infinite. -/
def limit : ℚ := 2 ^ 1024 - 2 ^ 970

/-- The float that is nearest to a decimal. -/
def ofDecimal (q : ℚ) : Number :=
  if limit ≤ q then .inf else if q ≤ -limit then .negInf else .finite q

end Number

/-- The words `float` reads, in any case. -/
def readWord (t : Text) : Option Number :=
  let (negative, body) := readSign (strip t)
  let word := body.map asciiLower
  if word = "nan".toList then some .nan
  else if word = "inf".toList ∨ word = "infinity".toList then
    some (if negative then .negInf else .inf)
  else none

/-- `float(value)`, if that does not raise. -/
def readFloat : Val → Option Number
  | .str t => match readWord t with
    | some x => some x
    | none => (floatOfText t).map .ofDecimal
  -- a float that is not finite; of any other kind, `float` raises
  | .other t =>
    if t = "nan".toList then some .nan
    else if t = "inf".toList then some .inf
    else if t = "-inf".toList then some .negInf
    else none
  -- an integer that is too large does not become infinite
  | .int n => if |(n : ℚ)| < Number.limit then some (.finite n) else none
  | v => (toFloat v).map .finite

/-- `_to_number` -/
def asNumber (v : Val) (field : String) : Checked Number :=
  match readFloat v with
  | none => invalid s!"{field} must be numeric"
  | some number =>
    if number.lt (.finite 0) then invalid s!"{field} must be >= 0" else .ok number

/-! ## Inputs -/

/-- A bound of a number input, when there is one. -/
def normalizeFloatBound (spec : Dict) (key : Text) (field : String) (out : Dict) : Checked Dict :=
  match spec.get key with
  | .none => .ok out
  | v => do
    let bound ← asNumber v (field ++ "." ++ shown key)
    pure (out.set key bound.val)

def floatBound (spec : Dict) (key : Text) : Option Number :=
  match spec.get key with
  | .none => none
  | v => readFloat v

/-- The part about numbers. -/
def normalizeFloat (spec : Dict) (field : String) (out : Dict) : Checked Dict := do
  let default ← asNumber (spec.get "default") s!"{field}.default"
  let out ← normalizeFloatBound spec "min" field (out.set "default" default.val)
  let out ← normalizeFloatBound spec "max" field out
  match floatBound out "min", floatBound out "max" with
  | some low, some high => if high.lt low then invalid s!"{field} has min > max" else pure out
  | _, _ => pure out

/-- `_normalize_input_spec` -/
def normalizeSpec (raw : Val) (field : String) : Checked Dict := inputSpecWith normalizeFloat raw field

def inputId (spec : Dict) : Text := asStr (spec.get "id")

def inputType (spec : Dict) : Text := lower (asStr (spec.get "type"))

/-- The value of an input, as it is given or by default. -/
def chosen (spec given : Dict) : Val := (given.find (inputId spec)).getD (spec.get "default")

/-- The body of the loop of `_resolve_inputs`. -/
def resolveFloat (spec : Dict) (value : Val) : Checked Val :=
  let name := "inputs." ++ shown (inputId spec)
  if inputType spec = "number".toList then do
    let number ← asNumber value name
    if (floatBound spec "min").any (number.lt ·) then
      invalid (name ++ " must be >= " ++ shown (spec.get "min").text)
    else if (floatBound spec "max").any (·.lt number) then
      invalid (name ++ " must be <= " ++ shown (spec.get "max").text)
    else pure number.val
  -- the other types do not read a number
  else resolveValue spec value

/-- `_resolve_inputs` -/
def resolveFloats (given : Dict) : Dict → List Dict → Checked Dict
  | resolved, [] => .ok resolved
  | resolved, spec :: specs => do
    let value ← resolveFloat spec (chosen spec given)
    resolveFloats given (resolved.set (inputId spec) value) specs

/-! ### Where all numbers are finite -/

section Finite

variable {spec : Dict} {v : Val} {field : String}

theorem Number.lt_finite (p q : ℚ) : (Number.finite p).lt (.finite q) = decide (p < q) := rfl

theorem asNumber_eq (h : readFloat v = (toFloat v).map .finite) :
    asNumber v field = (toNumber v field).map .finite := by
  unfold asNumber toNumber
  rw [h]
  cases toFloat v with
  | none => rfl
  | some q =>
    dsimp only [Option.map_some]
    rw [Number.lt_finite]
    by_cases hq : q < 0
    · rw [if_pos hq, if_pos (decide_eq_true hq)]
      rfl
    · rw [if_neg hq, if_neg (by rwa [decide_eq_true_eq])]
      rfl

/-- An input whose numbers are finite is settled as before. -/
theorem resolveFloat_eq (hvalue : readFloat v = (toFloat v).map .finite)
    (hmin : floatBound spec "min" = (bound spec "min").map .finite)
    (hmax : floatBound spec "max" = (bound spec "max").map .finite) :
    resolveFloat spec v = resolveValue spec v := by
  unfold resolveFloat
  by_cases htype : inputType spec = "number".toList
  · unfold resolveValue
    dsimp only
    rw [if_pos htype, if_pos (by exact htype), asNumber_eq hvalue, hmin, hmax]
    show (toNumber v ("inputs." ++ shown (asStr (spec.get "id")))).map Number.finite >>= _ = _
    cases toNumber v ("inputs." ++ shown (asStr (spec.get "id"))) with
    | error e => rfl
    | ok q => cases bound spec "min" <;> cases bound spec "max" <;> rfl
  · rw [if_neg htype]

end Finite

/-! ## What is settled -/

/-- The value is what the specification asks for. -/
inductive Respects (spec : Dict) : Val → Prop
  | number (q : ℚ) : inputType spec = "number".toList → 0 ≤ q →
      (∀ low ∈ floatBound spec "min", low.le (.finite q) = true) →
      (∀ high ∈ floatBound spec "max", (Number.finite q).le high = true) → Respects spec (.float q)
  | boolean (b : Bool) : inputType spec = "boolean".toList → Respects spec (.bool b)
  | enum (t : Text) : inputType spec = "enum".toList → .str t ∈ asList (spec.get "options") →
      Respects spec (.str t)

/-- Neither the number that is chosen nor its bounds are special, but for an infinite bound. -/
def Plain (spec given : Dict) : Prop :=
  (∃ q, readFloat (chosen spec given) = some (.finite q)) ∧ floatBound spec "min" ≠ some .nan ∧
    floatBound spec "max" ≠ some .nan

/-- A specification as the normalizer leaves it. -/
inductive IsSettled (spec : Dict) : Prop
  | number : spec.get "type" = .str "number" → IsSettled spec
  | boolean : spec.get "type" = .str "boolean" → IsSettled spec
  | enum (options : List Text) : spec.get "type" = .str "enum" →
      spec.get "options" = .list (options.map .str) → (∀ option ∈ options, strip option = option) →
      IsSettled spec

section Specs

variable {spec given out start : Dict} {v : Val} {field : String}

theorem IsSpec.settled (h : IsSpec spec) : IsSettled spec := by
  cases h with
  | number q htype _ _ => exact .number htype
  | boolean b htype _ => exact .boolean htype
  | enum t options htype _ hoptions _ hstrip => exact .enum options htype hoptions hstrip

theorem get_normalizeFloatBound {out' : Dict} {key other : Text}
    (h : normalizeFloatBound spec key field out = .ok out') (hne : other ≠ key) :
    out'.get other = out.get other := by
  unfold normalizeFloatBound at h
  split at h
  · cases h; rfl
  · obtain ⟨x, -, h⟩ := bind_ok h
    cases h
    exact Dict.get_set_of_ne _ hne

theorem normalizeFloat_type (h : normalizeFloat spec field start = .ok out) :
    out.get "type" = start.get "type" := by
  obtain ⟨x, hx, h⟩ := bind_ok h
  obtain ⟨low, hlow, h⟩ := bind_ok h
  obtain ⟨high, hhigh, h⟩ := bind_ok h
  have hout : out = high := by
    split at h
    · split at h
      · cases h
      · cases h; rfl
    · cases h; rfl
  rw [hout, get_normalizeFloatBound hhigh (by decide), get_normalizeFloatBound hlow (by decide),
    Dict.get_set_of_ne _ (by decide)]

theorem normalizeSpec_settled {raw : Val} (h : normalizeSpec raw field = .ok out) :
    IsSettled out := by
  obtain ⟨start, name, ⟨htype, h⟩ | ⟨htype, rfl⟩ | ⟨htype, h⟩⟩ := inputSpecWith_ok h
  · exact .number ((normalizeFloat_type h).trans htype)
  · exact .boolean ((Dict.get_set_of_ne _ (by decide)).trans htype)
  · exact (normalizeEnum_spec htype h).settled

theorem inputType_eq {type : Text} (h : spec.get "type" = .str type) (htype : lower (strip type) = type) :
    inputType spec = type := by
  unfold inputType
  rw [h, asStr_str, htype]

/-- A number that is settled is not negative, though it may be infinite or none. -/
theorem asNumber_ok {x : Number} (h : asNumber v field = .ok x) :
    readFloat v = some x ∧ x ≠ .negInf ∧ ∀ q, x = .finite q → 0 ≤ q := by
  unfold asNumber at h
  split at h
  · cases h
  · next number hnumber =>
    split at h
    · cases h
    · next hneg =>
      cases h
      refine ⟨hnumber, ?_, ?_⟩
      · rintro rfl
        exact hneg rfl
      · rintro q rfl
        rw [Number.lt_finite, decide_eq_true_eq] at hneg
        exact not_lt.mp hneg

theorem Number.le_finite_iff {low : Number} {q : ℚ} (h : (Number.finite q).lt low = false) :
    low.le (.finite q) = true ↔ low ≠ .nan := by
  unfold Number.le
  rw [h]
  simp

theorem Number.finite_le_iff {high : Number} {q : ℚ} (h : high.lt (.finite q) = false) :
    (Number.finite q).le high = true ↔ high ≠ .nan := by
  unfold Number.le
  rw [h]
  simp

/-- A number input. -/
theorem respects_number_iff (htype : inputType spec = "number".toList) {value : Val}
    (h : resolveFloat spec value = .ok v) :
    Respects spec v ↔ (∃ q, readFloat value = some (.finite q)) ∧ floatBound spec "min" ≠ some .nan ∧
      floatBound spec "max" ≠ some .nan := by
  unfold resolveFloat at h
  dsimp only at h
  rw [if_pos htype] at h
  obtain ⟨x, hx, h⟩ := bind_ok h
  obtain ⟨hread, -, hnonneg⟩ := asNumber_ok hx
  split at h
  · cases h
  next hmin =>
  split at h
  · cases h
  next hmax =>
  cases h
  have hmin (low : Number) (hlow : floatBound spec "min" = some low) : x.lt low = false := by
    rw [hlow] at hmin
    exact Bool.eq_false_iff.mpr hmin
  have hmax (high : Number) (hhigh : floatBound spec "max" = some high) : high.lt x = false := by
    rw [hhigh] at hmax
    exact Bool.eq_false_iff.mpr hmax
  rw [hread]
  cases x with
  | finite q =>
    constructor
    · intro hrespects
      generalize hv : Number.val (.finite q) = v at hrespects
      cases hrespects with
      | number p _ _ hlow hhigh =>
        cases hv
        refine ⟨⟨q, rfl⟩, fun hnan => ?_, fun hnan => ?_⟩
        · exact (Number.le_finite_iff (hmin _ hnan)).mp (hlow _ hnan) rfl
        · exact (Number.finite_le_iff (hmax _ hnan)).mp (hhigh _ hnan) rfl
      | boolean b _ => cases hv
      | enum t _ _ => cases hv
    · rintro ⟨-, hlow, hhigh⟩
      refine .number q htype (hnonneg q rfl) (fun low hmem => ?_) fun high hmem => ?_
      · exact (Number.le_finite_iff (hmin _ hmem)).mpr fun heq => hlow (heq ▸ hmem)
      · exact (Number.finite_le_iff (hmax _ hmem)).mpr fun heq => hhigh (heq ▸ hmem)
  | inf | negInf | nan =>
    refine iff_of_false nofun ?_
    rintro ⟨⟨q, hq⟩, -⟩
    cases hq

/-- One input: its value is what it should be, unless a number of it is special. -/
theorem respects_iff (hspec : IsSettled spec) {value : Val} (h : resolveFloat spec value = .ok v) :
    Respects spec v ↔ (inputType spec = "number".toList →
      (∃ q, readFloat value = some (.finite q)) ∧ floatBound spec "min" ≠ some .nan ∧
        floatBound spec "max" ≠ some .nan) := by
  cases hspec with
  | number hget =>
    have htype : inputType spec = "number".toList := inputType_eq hget (by decide)
    rw [respects_number_iff htype h]
    exact ⟨fun hplain _ => hplain, fun hplain => hplain htype⟩
  | boolean hget =>
    have htype : inputType spec = "boolean".toList := inputType_eq hget (by decide)
    have hnumber : inputType spec ≠ "number".toList := by rw [htype]; decide
    refine iff_of_true ?_ fun h => absurd h hnumber
    unfold resolveFloat at h
    rw [if_neg hnumber] at h
    unfold resolveValue at h
    dsimp only at h
    rw [if_neg (by exact hnumber), if_pos (by exact htype)] at h
    cases h
    exact .boolean _ htype
  | enum options hget hoptions hstrip =>
    have htype : inputType spec = "enum".toList := inputType_eq hget (by decide)
    have hnumber : inputType spec ≠ "number".toList := by rw [htype]; decide
    have hboolean : inputType spec ≠ "boolean".toList := by rw [htype]; decide
    refine iff_of_true ?_ fun h => absurd h hnumber
    unfold resolveFloat at h
    rw [if_neg hnumber] at h
    unfold resolveValue at h
    dsimp only at h
    rw [if_neg (by exact hnumber), if_neg (by exact hboolean), hoptions] at h
    split at h
    · next hmem =>
      cases h
      obtain ⟨w, hw, heq⟩ := List.mem_map.mp hmem
      obtain ⟨option, hoption, rfl⟩ := List.mem_map.mp hw
      rw [asStr_str, hstrip option hoption] at heq
      refine .enum _ htype ?_
      rw [hoptions, ← heq]
      exact List.mem_map_of_mem hoption
    · cases h

end Specs

/-! ## All of them -/

section Inputs

variable {specs : List Dict} {given resolved out : Dict}

theorem find_resolveFloats {key : Text} (hkey : ∀ spec ∈ specs, key ≠ inputId spec)
    (h : resolveFloats given resolved specs = .ok out) : out.find key = resolved.find key := by
  induction specs generalizing resolved with
  | nil =>
    cases h
    rfl
  | cons spec specs ih =>
    obtain ⟨hfirst, hrest⟩ := List.forall_mem_cons.mp hkey
    obtain ⟨value, -, h⟩ := bind_ok h
    rw [ih hrest h, Dict.find_set_of_ne _ hfirst]

/-- Every input has the value it was settled with. -/
theorem resolveFloats_ok (hids : (specs.map inputId).Nodup)
    (h : resolveFloats given resolved specs = .ok out) : ∀ spec ∈ specs, ∃ value,
      resolveFloat spec (chosen spec given) = .ok value ∧ out.find (inputId spec) = some value := by
  induction specs generalizing resolved with
  | nil => exact nofun
  | cons spec specs ih =>
    obtain ⟨hnew, hids⟩ := List.nodup_cons.mp hids
    obtain ⟨value, hvalue, h⟩ := bind_ok h
    refine List.forall_mem_cons.mpr ⟨⟨value, hvalue, ?_⟩, ih hids h⟩
    rw [find_resolveFloats (fun other hother heq => hnew ?_) h, Dict.find_set_self]
    rw [heq]
    exact List.mem_map_of_mem hother

/-- The inputs of a quote have different ids. -/
theorem nodup_resolveInputSpecs (pricing offering plan : Dict) :
    ((resolveInputSpecs pricing offering plan).map inputId).Nodup := by
  have hnil : ById [] := ⟨fun _ hitem => absurd hitem List.not_mem_nil, List.nodup_nil⟩
  have hall := ((hnil.putMany plan (pricing.get "inputs")).putMany plan
    (offering.get "inputs")).putMany plan (plan.get "inputs")
  refine List.Nodup.of_map Val.str ?_
  unfold resolveInputSpecs
  rw [List.map_map, List.map_map]
  refine (congrArg List.Nodup (List.map_congr_left fun item hitem => ?_)).mp hall.nodup
  obtain ⟨spec, rfl⟩ := hall.keyed item hitem
  rfl

/-- **The settled inputs are what their specifications ask for**, if and only if no number that is
    chosen is infinite or NaN and no bound is NaN. -/
theorem inputs_respected_iff (hspecs : ∀ spec ∈ specs, ∃ raw field, normalizeSpec raw field = .ok spec)
    (hids : (specs.map inputId).Nodup) (h : resolveFloats given [] specs = .ok out) :
    (∀ spec ∈ specs, ∃ value, out.find (inputId spec) = some value ∧ Respects spec value) ↔
      ∀ spec ∈ specs, inputType spec = "number".toList → Plain spec given := by
  refine forall₂_congr fun spec hspec => ?_
  obtain ⟨raw, field, hraw⟩ := hspecs spec hspec
  obtain ⟨value, hvalue, hfind⟩ := resolveFloats_ok hids h spec hspec
  refine Iff.trans ?_ (respects_iff (normalizeSpec_settled hraw) hvalue)
  constructor
  · rintro ⟨value', hfind', hrespects⟩
    cases hfind.symm.trans hfind'
    exact hrespects
  · exact fun hrespects => ⟨value, hfind, hrespects⟩

end Inputs

section Demo

/-- A number from one to ten. -/
def usersInput : Val :=
  .dict [entry "id" (.str "users"), entry "default" (.int 1), entry "min" (.int 1),
    entry "max" (.int 10)]

/-- A float that is not finite, as it stands in a value. -/
def isSpecial : Val → Bool
  | .other _ => true
  | _ => false

/-- Reading a specification and settling its input, in one. -/
def settle {α : Type} (raw : Val) (given : Dict) (see : Dict → Dict → α) : Option α := do
  let spec ← (normalizeSpec raw "inputs").toOption
  let out ← (resolveFloats given [] [spec]).toOption
  some (see spec out)

theorem exists_of_settle {α : Type} {raw : Val} {given : Dict} {see : Dict → Dict → α} {a : α}
    (h : settle raw given see = some a) : ∃ spec out, normalizeSpec raw "inputs" = .ok spec ∧
      resolveFloats given [] [spec] = .ok out ∧ see spec out = a := by
  obtain ⟨spec, hspec, h⟩ := Option.bind_eq_some_iff.mp h
  obtain ⟨out, hout, h⟩ := Option.bind_eq_some_iff.mp h
  exact ⟨spec, out, ok_of_toOption hspec, ok_of_toOption hout, Option.some.inj h⟩

/-- NaN is less than no bound and greater than none. -/
theorem nan_gets_through : ¬ ∀ specs given out,
    (∀ spec ∈ specs, ∃ raw field, normalizeSpec raw field = .ok spec) →
      (specs.map inputId).Nodup → resolveFloats given [] specs = .ok out →
        ∀ spec ∈ specs, ∃ value, out.find (inputId spec) = some value ∧ Respects spec value := by
  intro hclaim
  have hsettle : settle usersInput [entry "users" (.str " NaN ")] (fun spec out =>
      (out.find (inputId spec)).any isSpecial) = some true := by decide +kernel
  obtain ⟨spec, out, hspec, hout, hother⟩ := exists_of_settle hsettle
  obtain ⟨value, hvalue, hrespects⟩ := hclaim [spec] _ out
    (List.forall_mem_singleton.mpr ⟨_, _, hspec⟩) (List.nodup_singleton _) hout spec
    List.mem_cons_self
  rw [hvalue] at hother
  cases hrespects <;> cases hother

theorem inputs_respected_text : ∃ spec out, normalizeSpec usersInput "inputs" = .ok spec ∧
    resolveFloats [entry "users" (.str "0.3e1")] [] [spec] = .ok out ∧
      ∃ value, out.find (inputId spec) = some value ∧ Respects spec value := by
  have hsettle : settle usersInput [entry "users" (.str "0.3e1")] (fun spec _ =>
      (readFloat (chosen spec [entry "users" (.str "0.3e1")]), floatBound spec "min",
        floatBound spec "max")) = some (some (.finite 3), some (.finite 1), some (.finite 10)) := by
    decide +kernel
  obtain ⟨spec, out, hspec, hout, hnumbers⟩ := exists_of_settle hsettle
  obtain ⟨hvalue, hbounds⟩ := Prod.mk.inj hnumbers
  obtain ⟨hmin, hmax⟩ := Prod.mk.inj hbounds
  refine ⟨spec, out, hspec, hout, (inputs_respected_iff (List.forall_mem_singleton.mpr ⟨_, _, hspec⟩)
    (List.nodup_singleton _) hout).mpr ?_ spec List.mem_cons_self⟩
  refine List.forall_mem_singleton.mpr fun _ => ⟨⟨3, hvalue⟩, ?_, ?_⟩
  · rw [hmin]
    decide
  · rw [hmax]
    decide

end Demo

end Infinito.Pricing
