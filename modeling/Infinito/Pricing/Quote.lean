import Infinito.Pricing.Schema
import Mathlib.Data.Rat.Floor

/-!
# Quoting a price

`quote_role_pricing` finds the plan, settles its inputs, evaluates its pricing block, adds
the add-ons, multiplies by the factors, raises the result to the minimum commitment and adds
the setup fee. Amounts are exact here, and rounded only in the answer: `exactQuote` is the
computation, `quoteRolePricing` what is returned.

Like the normalizer, the evaluator enters the `overage` of a bundle. It does so on a copy of
the block whose `input_id` is replaced, so it takes the replacement as an argument.
-/

set_option autoImplicit false

namespace Infinito.Pricing

open Py

/-! ## Lookups -/

/-- `_resolve_amount` -/
def resolveAmount (point : Dict) (currency region : Text) (field : String) : Checked ℚ :=
  let curr := upper (asStr (.str currency))
  if isCurrency curr = false then invalid "currency must be an ISO 4217 code"
  else match asMapping (point.get "regional_prices") with
    | [] =>
      let prices := asMapping (point.get "prices")
      if prices.has curr then toNumber (prices.get curr) (field ++ "." ++ shown curr)
      else invalid (field ++ " does not support currency '" ++ shown curr ++ "'")
    | item :: items =>
      let regional : Dict := item :: items
      let wanted := lower (asStr (.str region))
      if wanted = [] then invalid s!"{field} requires region"
      else if regional.has wanted = false then
        invalid (field ++ " does not support region '" ++ shown wanted ++ "'")
      else
        let currencies := asMapping (regional.get wanted)
        if currencies.has curr then
          toNumber (currencies.get curr) (field ++ "." ++ shown wanted ++ "." ++ shown curr)
        else invalid (field ++ " does not support currency '" ++ shown curr ++ "' in region '" ++
          shown wanted ++ "'")

mutual

/-- `_contains_regional_prices` -/
def containsRegionalPrices : Val → Bool
  | .dict items =>
    (match Dict.get items "regional_prices" with
      | .dict regional => regional.length ≠ 0
      | _ => false) || itemsContainRegionalPrices items
  | .list xs => listContainsRegionalPrices xs
  | _ => false

def itemsContainRegionalPrices : List (Val × Val) → Bool
  | [] => false
  | (_, value) :: items => containsRegionalPrices value || itemsContainRegionalPrices items

def listContainsRegionalPrices : List Val → Bool
  | [] => false
  | x :: xs => containsRegionalPrices x || listContainsRegionalPrices xs

end

def findById (wanted : Text) (items : List Val) : Option Dict :=
  (items.find? fun item => asStr ((asMapping item).get "id") = wanted).map asMapping

/-- `_find_offering` -/
def findOffering (pricing : Dict) (offeringId : Text) : Checked Dict :=
  match findById (strip offeringId) (asList (pricing.get "offerings")) with
  | some offering => .ok offering
  | none => invalid ("offering '" ++ shown (strip offeringId) ++ "' not found")

/-- `_find_plan` -/
def findPlan (offering : Dict) (planId : Text) : Checked Dict :=
  match findById (strip planId) (asList (offering.get "plans")) with
  | some plan => .ok plan
  | none => invalid ("plan '" ++ shown (strip planId) ++ "' not found")

/-! ## Inputs -/

/-- `put_many`, on the specifications so far by id. -/
def putMany (plan : Dict) (specs : Dict) (items : Val) : Dict :=
  (asList items).foldl (fun specs entry =>
    let spec := asMapping entry
    let inputId := asStr (spec.get "id")
    let appliesTo := texts (spec.get "applies_to")
    if inputId = [] || (appliesTo ≠ [] && asStr (plan.get "id") ∉ appliesTo) then specs
    else specs.set inputId (.dict spec)) specs

/-- `_resolve_input_specs` -/
def resolveInputSpecs (pricing offering plan : Dict) : List Dict :=
  (putMany plan (putMany plan (putMany plan [] (pricing.get "inputs")) (offering.get "inputs"))
    (plan.get "inputs")).map fun item => asMapping item.2

/-- The value of one input, checked against its specification. -/
def resolveValue (spec : Dict) (value : Val) : Checked Val :=
  let inputType := lower (asStr (spec.get "type"))
  let name := "inputs." ++ shown (asStr (spec.get "id"))
  if inputType = "number".toList then do
    let number ← toNumber value name
    if (bound spec "min").any (number < ·) then
      invalid (name ++ " must be >= " ++ shown (spec.get "min").text)
    else if (bound spec "max").any (· < number) then
      invalid (name ++ " must be <= " ++ shown (spec.get "max").text)
    else pure (.float number)
  else if inputType = "boolean".toList then .ok (.bool value.truth)
  else
    let allowed := (asList (spec.get "options")).map asStr
    if asStr value ∈ allowed then .ok (.str (asStr value))
    else invalid (name ++ " must be one of: " ++ shown (List.intercalate [',', ' '] allowed))

/-- The value of one input, given or by default. -/
def resolveInput (spec : Dict) (given : Dict) : Checked Val :=
  resolveValue spec ((given.find (asStr (spec.get "id"))).getD (spec.get "default"))

/-- `_resolve_inputs` -/
def resolveInputs (given : Dict) : Dict → List Dict → Checked Dict
  | resolved, [] => .ok resolved
  | resolved, spec :: specs => do
    let value ← resolveInput spec given
    resolveInputs given (resolved.set (asStr (spec.get "id")) value) specs

/-- A text, or else another. -/
def orElse (t u : Text) : Text := (orNone t).getD u

/-- A number among the inputs, 0 when it is missing. -/
def inputNumber (inputs : Dict) (inputId : Text) : Checked ℚ :=
  toNumber ((inputs.find inputId).getD (.int 0)) ("inputs." ++ shown inputId)

/-- The input `_get_units_value` reads. -/
def unitsInput (block : Dict) : Text :=
  orElse (asStr (block.get "input_id")) (orElse (asStr (block.get "unit")) "users")

/-- `_get_units_value` -/
def getUnitsValue (block : Dict) (inputs : Dict) : Checked ℚ := inputNumber inputs (unitsInput block)

/-! ## Tiers and bands -/

/-- A number of the document that has been looked at before. -/
def upTo (tier : Dict) : Option ℚ := bound tier "up_to"

/-- What of the remaining quantity falls into a tier. -/
def maxInTier (limit : Option ℚ) (remaining lower : ℚ) : ℚ :=
  match limit with
  | none => remaining
  | some limit => min remaining (max (limit - lower) 0)

/-- `float(up_to or lower_bound)` -/
def lowerBound (limit : Option ℚ) (lower : ℚ) : ℚ :=
  match limit with
  | none => lower
  | some limit => if limit = 0 then lower else limit

/-- The loop of `_calc_progressive_tiers`. -/
def progressiveTiers (currency region : Text) (field : String) :
    Nat → List Val → (remaining lower total : ℚ) → Checked ℚ
  | _, [], _, _, total => .ok total
  | index, raw :: tiers, remaining, lower, total =>
    let limit := upTo (asMapping raw)
    let share := maxInTier limit remaining lower
    if remaining ≤ 0 then .ok total
    else if share ≤ 0 then
      progressiveTiers currency region field (index + 1) tiers remaining (lowerBound limit lower)
        total
    else do
      let unitPrice ← resolveAmount (asMapping raw) currency region
        (field ++ "[" ++ Nat.repr index ++ "]")
      match limit with
      | none => pure (total + share * unitPrice)
      | some limit =>
        progressiveTiers currency region field (index + 1) tiers (remaining - share) limit
          (total + share * unitPrice)

/-- `_calc_progressive_tiers` -/
def calcProgressiveTiers (qty : ℚ) (tiers : List Val) (currency region : Text) (field : String) :
    Checked ℚ := progressiveTiers currency region field 0 tiers qty 0 0

/-- The loop of `_calc_volume_bands`. -/
def volumeBands (qty : ℚ) (currency region : Text) (field : String) : Nat → List Val → Checked ℚ
  | _, [] => invalid s!"{field} has no matching volume band"
  | index, raw :: bands =>
    let band := asMapping raw
    if (upTo band).all (qty ≤ ·) then do
      let unitPrice ← resolveAmount band currency region (field ++ "[" ++ Nat.repr index ++ "]")
      pure (qty * unitPrice)
    else volumeBands qty currency region field (index + 1) bands

/-- `_calc_volume_bands` -/
def calcVolumeBands (qty : ℚ) (bands : List Val) (currency region : Text) (field : String) :
    Checked ℚ := volumeBands qty currency region field 0 bands

/-! ## Blocks -/

/-- What `_evaluate_pricing` returns. No amount: the plan is custom. -/
structure Evaluated where
  interval : Text
  amount : Option ℚ
  base : ℚ
  usage : ℚ

/-- A block that is all base, or all usage. -/
def Evaluated.ofBase (interval : Text) (amount : ℚ) : Evaluated := ⟨interval, some amount, amount, 0⟩

def Evaluated.ofUsage (interval : Text) (amount : ℚ) : Evaluated := ⟨interval, some amount, 0, amount⟩

def overageUnits : Text := "__overage_units__".toList

def addonUnits : Text := "__addon_qty__".toList

/-- The unit of a bundle that its overage counts. -/
def bundleUnit (overage included : Dict) : Text :=
  let first : Text := match included with
    | [] => "users"
    | (key, _) :: _ => key.text
  orElse (asStr (overage.get "unit")) (orElse (asStr (overage.get "input_id")) first)

/-- The branch of `_evaluate_pricing` for a bundle; `overage` evaluates the nested block. -/
def evaluateBundle (overage : Dict → String → Checked Evaluated) (block inputs : Dict)
    (currency region : Text) (field : String) (interval : Text) : Checked Evaluated := do
  let baseAmount ← resolveAmount (asMapping (block.get "base")) currency region s!"{field}.base"
  let included := asMapping (block.get "included_units")
  let unitKey := bundleUnit (asMapping (block.get "overage")) included
  let quantity ← inputNumber inputs unitKey
  let free ← toNumber ((included.find unitKey).getD (.int 0))
    (field ++ ".included_units." ++ shown unitKey)
  let excess := max 0 (quantity - free)
  if 0 < excess then
    let nested ← overage (inputs.set overageUnits (.float excess)) s!"{field}.overage"
    match nested.amount with
    | none => invalid s!"{field}.overage cannot be custom"
    | some usage => pure ⟨interval, some (baseAmount + usage), baseAmount, usage⟩
  else pure ⟨interval, some (baseAmount + 0), baseAmount, 0⟩

/-- The branches of `_evaluate_pricing`, by the type of the block. -/
def evaluateTyped (overage : Dict → String → Checked Evaluated) (priceType interval : Text)
    (block inputs : Dict) (currency region : Text) (field : String) : Checked Evaluated :=
  if priceType = "custom".toList then .ok ⟨interval, none, 0, 0⟩
  else if priceType = "fixed".toList ∨ priceType = "addon".toList then do
    let amount ← resolveAmount block currency region field
    pure (.ofBase interval amount)
  else if priceType = "per_unit".toList then do
    let quantity ← getUnitsValue block inputs
    let unitPrice ← resolveAmount block currency region field
    pure (.ofUsage interval (quantity * unitPrice))
  else if priceType = "tiered_per_unit".toList then do
    let quantity ← getUnitsValue block inputs
    let usage ← calcProgressiveTiers quantity (asList (block.get "tiers")) currency region
      s!"{field}.tiers"
    pure (.ofUsage interval usage)
  else if priceType = "volume_per_unit".toList then do
    let quantity ← getUnitsValue block inputs
    let usage ← calcVolumeBands quantity (asList (block.get "bands")) currency region
      s!"{field}.bands"
    pure (.ofUsage interval usage)
  else if priceType = "bundle".toList then
    evaluateBundle overage block inputs currency region field interval
  else invalid (field ++ ".type '" ++ shown priceType ++ "' is not supported")

/-- `_evaluate_pricing` on a mapping. -/
def evaluateBlock (overage : Dict → String → Checked Evaluated) (block inputs : Dict)
    (currency region : Text) (field : String) : Checked Evaluated := do
  let priceType := lowered (block.get "type") "fixed"
  let interval ← normalizeInterval (block.get "interval") s!"{field}.interval" "month"
  evaluateTyped overage priceType interval block inputs currency region field

/-- The copy of a block whose units are read from another input. -/
def withUnits (units : Option Text) (block : Dict) : Dict :=
  match units with
  | none => block
  | some inputId => block.set "input_id" (.str inputId)

mutual

/-- `_evaluate_pricing`, on the copy of the block with those units. -/
def evaluatePricing (currency region : Text) :
    Val → (units : Option Text) → (inputs : Dict) → String → Checked Evaluated
  | .dict block, units, inputs, field =>
    evaluateBlock (evaluateOverage currency region block) (withUnits units block) inputs currency
      region field
  | _, units, inputs, field =>
    evaluateBlock (fun _ name => invalid s!"{name} is missing") (withUnits units []) inputs currency
      region field

/-- `_evaluate_pricing` of the nested block, its units the excess. -/
def evaluateOverage (currency region : Text) :
    List (Val × Val) → (inputs : Dict) → String → Checked Evaluated
  | [], inputs, field =>
    evaluateBlock (fun _ name => invalid s!"{name} is missing") (withUnits (some overageUnits) [])
      inputs currency region field
  | (key, value) :: items, inputs, field =>
    if isKey "overage" key then
      evaluatePricing currency region value (some overageUnits) inputs field
    else evaluateOverage currency region items inputs field

end

/-! ## The quote -/

structure Breakdown where
  base : ℚ
  usage : ℚ
  addons : ℚ
  factors : ℚ
  setupFee : ℚ
  /-- `minimum_commit_applied` -/
  applied : Bool
  delta : ℚ

/-- No total: the plan is custom (`contact_sales`). -/
structure Quote where
  total : Option ℚ
  currency : Text
  region : Text
  interval : Text
  breakdown : Breakdown
  notes : List String
  inputs : Dict

/-- The input an add-on is switched on or counted by. -/
def addonInput (addon : Dict) (index : Nat) : Text :=
  orElse (asStr (addon.get "input_id"))
    (orElse (asStr (addon.get "id")) ("addon_".toList ++ natText index))

/-- How many of an add-on are taken. -/
def addonQuantity (addon inputs : Dict) (index : Nat) : Checked ℚ :=
  let name := addonInput addon index
  match (inputs.find name).getD ((addon.find "default").getD (.bool false)) with
  | .bool taken => .ok (if taken then 1 else 0)
  | value => toNumber value ("inputs." ++ shown name)

/-- What an add-on costs. -/
def addonAmount (currency region : Text) (addon inputs : Dict) (index : Nat) (quantity : ℚ) :
    Checked ℚ :=
  let field := "addons[" ++ Nat.repr index ++ "]"
  if quantity ≤ 0 then .ok 0
  else match addon.get "type" with
    | .str ['f', 'i', 'x', 'e', 'd'] => do
      let amount ← resolveAmount (addon) currency region field
      pure (amount * quantity)
    | _ => do
      let quoted ← evaluatePricing currency region (.dict addon) (some addonUnits)
        (inputs.set addonUnits (.float quantity)) field
      pure (quoted.amount.getD 0)

/-- The loop over `addons`: what they cost together, and the subtotal. -/
def addAddons (currency region : Text) (inputs : Dict) :
    Nat → List Val → (addons subtotal : ℚ) → Checked (ℚ × ℚ)
  | _, [], addons, subtotal => .ok (addons, subtotal)
  | index, raw :: rest, addons, subtotal => do
    let quantity ← addonQuantity (asMapping raw) inputs index
    let amount ← addonAmount currency region (asMapping raw) inputs index quantity
    addAddons currency region inputs (index + 1) rest (addons + amount) (subtotal + amount)

/-- The multiplier of a factor, if it has an input. -/
def factorMultiplier (factor inputs : Dict) (index : Nat) : Checked (Option ℚ) :=
  let inputId := asStr (factor.get "input_id")
  let option := asStr ((inputs.find inputId).getD (factor.get "default"))
  let values := asMapping (factor.get "values")
  if inputId = [] then .ok none
  else if values.has option then
    (toNumber (values.get option)
      ("factors[" ++ Nat.repr index ++ "].values." ++ shown option)).map some
  else invalid ("factor '" ++ shown inputId ++ "' does not support value '" ++ shown option ++ "'")

/-- The loop over `factors`: the subtotal, and by how much they have changed it. -/
def applyFactors (inputs : Dict) : Nat → List Val → (subtotal delta : ℚ) → Checked (ℚ × ℚ)
  | _, [], subtotal, delta => .ok (subtotal, delta)
  | index, raw :: rest, subtotal, delta => do
    match ← factorMultiplier (asMapping raw) inputs index with
    | none => applyFactors inputs (index + 1) rest subtotal delta
    | some multiplier =>
      let next := subtotal * multiplier
      applyFactors inputs (index + 1) rest next (delta + (next - subtotal))

/-- The minimum commitment of a plan, if it has one. -/
def minimumAmount (plan : Dict) (currency region : Text) : Checked (Option ℚ) :=
  match asMapping (plan.get "minimum_commit") with
  | [] => .ok none
  | item :: items => (resolveAmount (item :: items) currency region "minimum_commit").map some

/-- The subtotal raised to the minimum, whether it was, and by how much. -/
def applyMinimum (minimum : Option ℚ) (subtotal : ℚ) : ℚ × Bool × ℚ :=
  match minimum with
  | none => (subtotal, false, 0)
  | some minimum =>
    if subtotal < minimum then (minimum, true, minimum - subtotal) else (subtotal, false, 0)

/-- The setup fee of a plan, 0 when it has none or none is asked for. -/
def setupFeeAmount (plan : Dict) (currency region : Text) (includeSetupFee : Bool) : Checked ℚ :=
  match includeSetupFee, asMapping (plan.get "setup_fee") with
  | true, item :: items => resolveAmount (item :: items) currency region "setup_fee"
  | _, _ => .ok 0

/-- What is left of `quote_role_pricing` once the pricing block of the plan is evaluated. -/
def quotePriced (plan inputs : Dict) (currency region : Text) (includeSetupFee : Bool)
    (main : Evaluated) (amount : ℚ) : Checked Quote := do
  let (addons, subtotal) ← addAddons currency region inputs 0 (asList (plan.get "addons")) 0 amount
  let (subtotal, factors) ← applyFactors inputs 0 (asList (plan.get "factors")) subtotal 0
  let minimum ← minimumAmount plan currency region
  let (subtotal, applied, delta) := applyMinimum minimum subtotal
  let setupFee ← setupFeeAmount plan currency region includeSetupFee
  pure {
    total := some (subtotal + setupFee)
    currency := upper (asStr (.str currency))
    region := region
    interval := main.interval
    breakdown := ⟨main.base, main.usage, addons, factors, setupFee, applied, delta⟩
    notes := if applied then ["Minimum spend applied."] else []
    inputs := inputs }

/-- `quote_role_pricing`, before the amounts are rounded. -/
def exactQuote (pricing : Dict) (offeringId planId : Text) (inputs : Dict) (currency : Text)
    (region : Option Text) (includeSetupFee : Bool) : Checked Quote := do
  let offering ← findOffering pricing offeringId
  let plan ← findPlan offering planId
  let wanted := strip (region.getD [])
  let normalizedRegion := orElse (lower wanted) "global"
  if containsRegionalPrices (.dict plan) = true ∧ wanted = [] then
    invalid "region is required for region-specific pricing"
  else if normalizedRegion ∉ regions then
    invalid ("region '" ++ shown normalizedRegion ++ "' is not supported")
  else
    let resolved ← resolveInputs inputs [] (resolveInputSpecs pricing offering plan)
    let main ← evaluatePricing currency normalizedRegion (plan.get "pricing") none resolved "pricing"
    match main.amount with
    | none => pure {
        total := none
        currency := upper (asStr (.str currency))
        region := normalizedRegion
        interval := main.interval
        breakdown := ⟨0, 0, 0, 0, 0, false, 0⟩
        notes := ["Contact sales for this plan."]
        inputs := resolved }
    | some amount =>
      quotePriced plan resolved currency normalizedRegion includeSetupFee main amount

/-- `round(x, 4)`: to the nearest multiple of 0.0001, of two the even one. -/
def round4 (q : ℚ) : ℚ :=
  let scaled := q * 10000
  let floor := ⌊scaled⌋
  let rest := scaled - floor
  let nearest := if rest < 1 / 2 then floor else if 1 / 2 < rest then floor + 1
    else if floor % 2 = 0 then floor else floor + 1
  nearest / 10000

def Breakdown.rounded (b : Breakdown) : Breakdown :=
  ⟨round4 b.base, round4 b.usage, round4 b.addons, round4 b.factors, round4 b.setupFee, b.applied,
    round4 b.delta⟩

/-- `quote_role_pricing` -/
def quoteRolePricing (pricing : Dict) (offeringId planId : Text) (inputs : Dict) (currency : Text)
    (region : Option Text) (includeSetupFee : Bool) : Checked Quote :=
  (exactQuote pricing offeringId planId inputs currency region includeSetupFee).map fun q =>
    { q with total := q.total.map round4, breakdown := q.breakdown.rounded }

end Infinito.Pricing
