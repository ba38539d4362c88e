import Infinito.Py.Value

/-!
# Price lists: what is accepted

`_normalize_pricing_doc` reads a pricing document and either rejects it or returns it in
normal form: ids and types stripped and lower-cased, amounts as numbers, everything else as
it came. The quote engine works on the result.

A block may hold another one, the `overage` of a bundle. The recursion is on the document,
so the two functions that enter a block are defined together: one on a value, one on the
items of a dictionary, which it searches for the `overage`.
-/

set_option autoImplicit false

namespace Infinito.Pricing

open Py

structure PricingValidationError where
  message : String
  deriving DecidableEq

abbrev Checked := Except PricingValidationError

variable {α : Type}

def invalid (message : String) : Checked α := .error ⟨message⟩

def shown (t : Text) : String := String.ofList t

/-! ## Reading values -/

/-- `_as_mapping` -/
def asMapping : Val → Dict
  | .dict m => m
  | _ => []

/-- `_as_list` -/
def asList : Val → List Val
  | .list xs => xs
  | _ => []

/-- `_as_str` -/
def asStr (v : Val) : Text := strip (if v.truth then v.text else [])

/-- `_to_number` -/
def toNumber (v : Val) (field : String) : Checked ℚ :=
  match toFloat v with
  | none => invalid s!"{field} must be numeric"
  | some number => if number < 0 then invalid s!"{field} must be >= 0" else .ok number

/-- `str.upper`, as far as it decides about ASCII. -/
def upper (t : Text) : Text :=
  t.flatMap fun c =>
    if 97 ≤ c.toNat ∧ c.toNat ≤ 122 then [Char.ofNat (c.toNat - 32)]
    else match c with
      | 'ı' => ['I']
      | 'ſ' => ['S']
      | 'ß' => ['S', 'S']
      | 'ﬀ' => ['F', 'F']
      | 'ﬁ' => ['F', 'I']
      | 'ﬂ' => ['F', 'L']
      | 'ﬃ' => ['F', 'F', 'I']
      | 'ﬄ' => ['F', 'F', 'L']
      | 'ﬅ' => ['S', 'T']
      | 'ﬆ' => ['S', 'T']
      | c => [c]

/-- `_CURRENCY_RE` -/
def isCurrency (code : Text) : Bool :=
  code.length = 3 && code.all fun c => 65 ≤ c.toNat && c.toNat ≤ 90

def regions : List Text := ["global", "eu", "us", "uk", "apac", "latam"]

def inputTypes : List Text := ["number", "enum", "boolean"]

def intervals : List Text := ["month", "year", "once"]

/-- `_as_str(value).lower() or default` -/
def lowered (v : Val) (default : Text) : Text := (orNone (lower (asStr v))).getD default

/-! ## Price points -/

/-- The loop of `_normalize_currency_map`. -/
def currencyItems (field : String) : Dict → Dict → Checked Dict
  | out, [] => .ok out
  | out, (codeRaw, amountRaw) :: node =>
    let code := upper (asStr codeRaw)
    if isCurrency code then do
      let amount ← toNumber amountRaw (field ++ "." ++ shown code)
      currencyItems field (out.set code (.float amount)) node
    else invalid (field ++ " has invalid currency '" ++ shown codeRaw.text ++ "'")

/-- `_normalize_currency_map` -/
def normalizeCurrencyMap (raw : Val) (field : String) : Checked Dict :=
  match asMapping raw with
  | [] => invalid s!"{field} must not be empty"
  | item :: node => currencyItems field [] (item :: node)

/-- The loop of `_normalize_price_point` over `regional_prices`. -/
def regionalItems (field : String) : Dict → Dict → Checked Dict
  | out, [] => .ok out
  | out, (regionRaw, cmap) :: regional =>
    let region := lower (asStr regionRaw)
    if region ∈ regions then do
      let prices ← normalizeCurrencyMap cmap (field ++ ".regional_prices." ++ shown region)
      regionalItems field (out.set region (.dict prices)) regional
    else invalid (field ++ ".regional_prices has invalid region '" ++ shown regionRaw.text ++ "'")

def normalizeRegional (raw : Dict) (field : String) : Checked Dict :=
  match asMapping (raw.get "regional_prices") with
  | [] => invalid s!"{field}.regional_prices must not be empty"
  | item :: regional => regionalItems field [] (item :: regional)

/-- The part of `_normalize_price_point` about `prices`. -/
def setPrices (raw : Dict) (field : String) : Checked Dict :=
  if raw.has "prices" then do
    let prices ← normalizeCurrencyMap (raw.get "prices") s!"{field}.prices"
    pure (raw.set "prices" (.dict prices))
  else .ok raw

/-- The part about `regional_prices`. -/
def setRegionalPrices (raw : Dict) (field : String) (out : Dict) : Checked Dict :=
  if raw.has "regional_prices" then do
    let regional ← normalizeRegional raw field
    pure (out.set "regional_prices" (.dict regional))
  else .ok out

/-- `_normalize_price_point` -/
def normalizePricePoint (raw : Dict) (field : String) : Checked Dict :=
  if raw.has "prices" || raw.has "regional_prices" then
    setPrices raw field >>= setRegionalPrices raw field
  else invalid s!"{field} requires prices or regional_prices"

/-- `_normalize_interval` -/
def normalizeInterval (raw : Val) (field : String) (default : Text) : Checked Text :=
  let interval := lowered raw default
  if interval ∈ intervals then .ok interval
  else invalid (field ++ " has invalid interval '" ++ shown interval ++ "'")

/-! ## Inputs -/

/-- The texts of a list, blanks left out. -/
def texts (v : Val) : List Text := ((asList v).map asStr).filter (· ≠ [])

/-- A bound of a number input, when there is one. -/
def normalizeBound (spec : Dict) (key : Text) (field : String) (out : Dict) : Checked Dict :=
  match spec.get key with
  | .none => .ok out
  | v => do
    let bound ← toNumber v (field ++ "." ++ shown key)
    pure (out.set key (.float bound))

def bound (spec : Dict) (key : Text) : Option ℚ :=
  match spec.get key with
  | .none => none
  | v => toFloat v

/-- The part of `_normalize_input_spec` about `min` and `max`. -/
def normalizeNumber (spec : Dict) (field : String) (out : Dict) : Checked Dict := do
  let default ← toNumber (spec.get "default") s!"{field}.default"
  let out ← normalizeBound spec "min" field (out.set "default" (.float default))
  let out ← normalizeBound spec "max" field out
  match bound out "min", bound out "max" with
  | some low, some high => if high < low then invalid s!"{field} has min > max" else pure out
  | _, _ => pure out

def normalizeEnum (spec : Dict) (field : String) (out : Dict) : Checked Dict :=
  let options := texts (spec.get "options")
  let default := asStr (spec.get "default")
  if options = [] then invalid s!"{field}.options must not be empty"
  else if default ∈ options then
    .ok ((out.set "options" (.list (options.map .str))).set "default" (.str default))
  else invalid s!"{field}.default must be one of options"

/-- `_normalize_input_spec` -/
def normalizeInputSpec (raw : Val) (field : String) : Checked Dict :=
  let spec := asMapping raw
  let inputId := asStr (spec.get "id")
  let inputType := lowered (spec.get "type") "number"
  let name := field ++ "." ++ shown inputId
  if inputId = [] then invalid s!"{field}.id is required"
  else if inputType ∉ inputTypes then
    invalid (name ++ " has invalid type '" ++ shown inputType ++ "'")
  else if spec.has "default" = false then invalid s!"{name} requires a default"
  else
    let out : Dict := [(.str "id", .str inputId), (.str "type", .str inputType),
      (.str "label", .str ((orNone (asStr (spec.get "label"))).getD inputId)),
      (.str "description", .str (asStr (spec.get "description")))]
    let appliesTo := texts (spec.get "applies_to")
    let out := if appliesTo = [] then out
      else out.set "applies_to" (.list (appliesTo.map .str))
    if inputType = "number".toList then normalizeNumber spec name out
    else if inputType = "boolean".toList then
      .ok (out.set "default" (.bool (spec.get "default").truth))
    else normalizeEnum spec name out

/-! ## Blocks -/

/-- `raw is None` or a number. -/
def optionalNumber (v : Val) (field : String) : Checked Val :=
  match v with
  | .none => .ok .none
  | v => (toNumber v field).map .float

/-- The loop of `_normalize_price_bands`. -/
def bandItems (field : String) : Nat → List Val → Checked (List Val)
  | _, [] => .ok []
  | index, raw :: bands => do
    let entry := asMapping raw
    let name := field ++ "[" ++ Nat.repr index ++ "]"
    let upTo ← optionalNumber (entry.get "up_to") s!"{name}.up_to"
    let normalized ← normalizePricePoint entry name
    let others ← bandItems field (index + 1) bands
    pure (.dict (normalized.set "up_to" upTo) :: others)

/-- `_normalize_price_bands` -/
def normalizePriceBands (raw : Val) (field : String) : Checked (List Val) :=
  match asList raw with
  | [] => invalid s!"{field} must not be empty"
  | band :: bands => bandItems field 0 (band :: bands)

/-- A loop over items whose keys become stripped texts and whose values become numbers;
    blank keys are passed over. -/
def numberItems (field : String) : Dict → Dict → Checked Dict
  | out, [] => .ok out
  | out, (key, value) :: items =>
    let name := asStr key
    if name = [] then numberItems field out items
    else do
      let number ← toNumber value (field ++ "." ++ shown name)
      numberItems field (out.set name (.float number)) items

/-- The numbers of a dictionary that must not be missing or empty. -/
def normalizeNumbers (raw : Val) (field : String) : Checked Dict :=
  match asMapping raw with
  | [] => invalid s!"{field} is required"
  | item :: items => do
    match ← numberItems field [] (item :: items) with
    | [] => invalid s!"{field} must not be empty"
    | numbers => pure numbers

def pointTypes : List Text := ["fixed", "per_unit", "addon"]

def overageTypes : List Text := ["per_unit", "tiered_per_unit", "volume_per_unit"]

/-- The branch of `_normalize_pricing_block` for a bundle, the block so far in `out`. -/
def normalizeBundle (overage : String → Checked Dict) (block : Dict) (field : String)
    (out : Dict) : Checked Dict :=
  match asMapping (block.get "base") with
  | [] => invalid s!"{field}.base is required"
  | item :: base => do
    let base ← normalizePricePoint (item :: base) s!"{field}.base"
    let included ← normalizeNumbers (block.get "included_units") s!"{field}.included_units"
    let overage ← overage s!"{field}.overage"
    if lower (asStr (overage.get "type")) ∈ overageTypes then
      pure (((out.set "base" (.dict base)).set "included_units" (.dict included)).set "overage"
        (.dict overage))
    else invalid s!"{field}.overage.type must be per_unit, tiered_per_unit or volume_per_unit"

/-- `_normalize_pricing_block` on a mapping; `overage` normalizes the nested block. -/
def normalizeBlock (overage : String → Checked Dict) (block : Dict) (field : String) :
    Checked Dict :=
  if block.length = 0 then invalid s!"{field} must be a mapping"
  else do
    let priceType := lowered (block.get "type") "fixed"
    let interval ← normalizeInterval (block.get "interval") s!"{field}.interval" "month"
    let out := (block.set "type" (.str priceType)).set "interval" (.str interval)
    if priceType ∈ pointTypes then normalizePricePoint out field
    else if priceType = "tiered_per_unit".toList then do
      let tiers ← normalizePriceBands (block.get "tiers") s!"{field}.tiers"
      pure (out.set "tiers" (.list tiers))
    else if priceType = "volume_per_unit".toList then do
      let bands ← normalizePriceBands (block.get "bands") s!"{field}.bands"
      pure (out.set "bands" (.list bands))
    else if priceType = "bundle".toList then normalizeBundle overage block field out
    else if priceType = "factor".toList then do
      let values ← normalizeNumbers (block.get "values") s!"{field}.values"
      pure (out.set "values" (.dict values))
    else if priceType = "custom".toList then pure out
    else invalid (field ++ ".type '" ++ shown priceType ++ "' is not supported")

mutual

/-- `_normalize_pricing_block` -/
def normalizePricingBlock : Val → String → Checked Dict
  | .dict block, field => normalizeBlock (normalizeOverage block) block field
  | _, field => invalid s!"{field} must be a mapping"

/-- `_normalize_pricing_block(block.get("overage"))` -/
def normalizeOverage : List (Val × Val) → String → Checked Dict
  | [], field => invalid s!"{field} must be a mapping"
  | (key, value) :: items, field =>
    if isKey "overage" key then normalizePricingBlock value field
    else normalizeOverage items field

end

/-! ## Documents -/

/-- A loop that normalizes every item, with its index. -/
def normalizeAll (normalize : Nat → Val → Checked Dict) : Nat → List Val → Checked (List Val)
  | _, [] => .ok []
  | index, item :: items => do
    let first ← normalize index item
    let others ← normalizeAll normalize (index + 1) items
    pure (.dict first :: others)

/-- `out[key] = items`, unless there are none. -/
def setNonempty (key : Text) (items : List Val) (out : Dict) : Dict :=
  match items with
  | [] => out
  | items => out.set key (.list items)

/-- The loop of `_normalize_pricing_doc` over `inputs`. -/
def normalizeInputs (v : Val) (field : String) : Checked (List Val) :=
  normalizeAll (fun _ item => normalizeInputSpec item field) 0 (asList v)

def normalizeAddon (field : String) (index : Nat) (raw : Val) : Checked Dict :=
  let addon := asMapping raw
  let addonId := asStr (addon.get "id")
  let name := field ++ ".addons[" ++ Nat.repr index ++ "]"
  if addonId = [] then invalid s!"{name}.id is required"
  else do
    let block ← normalizePricingBlock (.dict addon) name
    if asStr (block.get "type") ∈ pointTypes then
      pure ((block.set "id" (.str addonId)).set "label"
        (.str ((orNone (asStr (addon.get "label"))).getD addonId)))
    else invalid s!"{name} must be fixed/per_unit"

def normalizeFactor (field : String) (index : Nat) (raw : Val) : Checked Dict := do
  let name := field ++ ".factors[" ++ Nat.repr index ++ "]"
  let factor ← normalizePricingBlock raw name
  if asStr (factor.get "type") = "factor".toList then pure factor
  else invalid s!"{name} must be factor"

/-- A mapping under `key` is normalized and put into `out`. -/
def normalizeOptional (planMap : Dict) (key : Text) (normalize : Val → Checked Dict)
    (out : Dict) : Checked Dict :=
  match planMap.get key with
  | .dict block => do
    let block ← normalize (.dict block)
    pure (out.set key (.dict block))
  | _ => .ok out

def normalizeSetupFee (field : String) (raw : Val) : Checked Dict := do
  let fee ← normalizePricingBlock raw s!"{field}.setup_fee"
  pure (fee.set "interval" (.str "once"))

def normalizeMinimumCommit (field : String) (raw : Val) : Checked Dict := do
  let commit ← normalizePricingBlock raw s!"{field}.minimum_commit"
  if asStr (commit.get "type") ∈ pointTypes then pure commit
  else invalid "minimum_commit must define a fixed-like price point"

/-- The body of the loop over `plans`. -/
def normalizePlan (offering : String) (index : Nat) (raw : Val) : Checked Dict :=
  let planMap := asMapping raw
  let planId := asStr (planMap.get "id")
  let field := offering ++ ".plans[" ++ Nat.repr index ++ "]"
  if planId = [] then invalid s!"{field}.id is required"
  else do
    let pricing ← normalizePricingBlock (planMap.get "pricing") s!"{field}.pricing"
    let inputs ← normalizeInputs (planMap.get "inputs") s!"{field}.inputs"
    let addons ← normalizeAll (normalizeAddon field) 0 (asList (planMap.get "addons"))
    let factors ← normalizeAll (normalizeFactor field) 0 (asList (planMap.get "factors"))
    let out : Dict := [(.str "id", .str planId),
      (.str "label", .str ((orNone (asStr (planMap.get "label"))).getD planId)),
      (.str "description", .str (asStr (planMap.get "description"))),
      (.str "pricing", .dict pricing)]
    let out := setNonempty "factors" factors (setNonempty "addons" addons
      (setNonempty "inputs" inputs out))
    let out ← normalizeOptional planMap "setup_fee" (normalizeSetupFee field) out
    normalizeOptional planMap "minimum_commit" (normalizeMinimumCommit field) out

/-- The body of the loop over `offerings`. -/
def normalizeOffering (index : Nat) (raw : Val) : Checked Dict :=
  let offeringMap := asMapping raw
  let offeringId := asStr (offeringMap.get "id")
  let field := "offerings[" ++ Nat.repr index ++ "]"
  if offeringId = [] then invalid s!"{field}.id is required"
  else match asList (offeringMap.get "plans") with
    | [] => invalid s!"{field}.plans must not be empty"
    | plan :: plans => do
      let inputs ← normalizeInputs (offeringMap.get "inputs") s!"{field}.inputs"
      let plans ← normalizeAll (normalizePlan field) 0 (plan :: plans)
      let out : Dict := [(.str "id", .str offeringId),
        (.str "label", .str ((orNone (asStr (offeringMap.get "label"))).getD offeringId)),
        (.str "provider", .str ((orNone (asStr (offeringMap.get "provider"))).getD "generic")),
        (.str "description", .str (asStr (offeringMap.get "description")))]
      pure ((setNonempty "inputs" inputs out).set "plans" (.list plans))

/-- `_normalize_pricing_doc` -/
def normalizePricingDoc (doc : Dict) : Checked Dict :=
  if lower (asStr (doc.get "schema")) ≠ "v2".toList then invalid "schema must be v2"
  else do
    let inputs ← normalizeInputs (doc.get "inputs") "inputs"
    match asList (doc.get "offerings") with
    | [] => invalid "offerings must not be empty"
    | offering :: offerings => do
      let offerings ← normalizeAll normalizeOffering 0 (offering :: offerings)
      let out : Dict := [(.str "schema", .str "v2"),
        (.str "default_offering_id",
          .str ((orNone (asStr (doc.get "default_offering_id"))).getD "default")),
        (.str "default_plan_id",
          .str ((orNone (asStr (doc.get "default_plan_id"))).getD "community"))]
      pure ((setNonempty "inputs" inputs out).set "offerings" (.list offerings))

end Infinito.Pricing
