import Infinito.Pricing.Quotable
import Mathlib.Algebra.BigOperators.Ring.List

/-!
# The reference price

What a request costs, said in one line: the main charge and the add-ons that are taken, unit
price times quantity, times the chosen multipliers, no less than the minimum commitment, and
the setup fee on top (`Parts.referencePrice`).

The loops of `quote_role_pricing` come to the same, but for one thing. An add-on of type
`fixed` is multiplied by its quantity in the loop, one of type `per_unit` by the evaluator,
which is handed the quantity as an input; for one of type `addon` the evaluator is handed it
too, and leaves it unread. So such an add-on is charged once, however many are taken
(`Line.charge`), and `reference_iff` says when that makes a difference.
-/

set_option autoImplicit false

namespace Infinito.Pricing

open Py
open Lib (bind_ok bind_of_eq_ok)

/-! ## What a price is made of -/

/-- An add-on that is taken. -/
structure Line where
  price : ℚ
  quantity : ℚ
  /-- Its type is `addon`. -/
  flat : Bool

def Line.reference (l : Line) : ℚ := l.price * l.quantity

/-- What the engine takes for it. -/
def Line.charge (l : Line) : ℚ := if l.flat then l.price else l.price * l.quantity

structure Parts where
  main : ℚ
  lines : List Line
  multipliers : List ℚ
  minimum : Option ℚ
  setupFee : ℚ

/-- An amount, or the minimum if it is more. -/
def atLeast (minimum : Option ℚ) (amount : ℚ) : ℚ :=
  match minimum with
  | none => amount
  | some least => max amount least

namespace Parts

/-- Main charge and add-ons, times the multipliers. -/
def subtotal (p : Parts) (charge : Line → ℚ) : ℚ :=
  (p.main + (p.lines.map charge).sum) * p.multipliers.prod

def total (p : Parts) (charge : Line → ℚ) : ℚ :=
  atLeast p.minimum (p.subtotal charge) + p.setupFee

def referencePrice (p : Parts) : ℚ := p.total Line.reference

/-- The price of what is taken of the add-ons of type `addon` beyond the first of each. -/
def uncounted (p : Parts) : ℚ :=
  ((p.lines.filter (·.flat)).map fun l => l.price * (l.quantity - 1)).sum

/-- What goes uncounted comes to nothing, or is multiplied by 0, or the minimum commitment is
    no less than the subtotal with it and without. -/
def CountsAlike (p : Parts) : Prop :=
  p.uncounted = 0 ∨ 0 ∈ p.multipliers ∨ ∃ least ∈ p.minimum,
    p.subtotal Line.reference ≤ least ∧
      p.subtotal Line.reference - p.uncounted * p.multipliers.prod ≤ least

theorem sum_reference (lines : List Line) :
    (lines.map Line.reference).sum = (lines.map Line.charge).sum +
      ((lines.filter (·.flat)).map fun l => l.price * (l.quantity - 1)).sum := by
  induction lines with
  | nil => simp
  | cons l lines ih =>
    simp only [List.map_cons, List.sum_cons, ih]
    cases hflat : l.flat with
    | true =>
      rw [List.filter_cons_of_pos hflat, List.map_cons, List.sum_cons, Line.reference, Line.charge,
        if_pos hflat]
      ring
    | false =>
      rw [List.filter_cons_of_neg (by rw [hflat]; decide), Line.reference, Line.charge,
        if_neg (by rw [hflat]; decide)]
      ring

theorem subtotal_charge (p : Parts) :
    p.subtotal Line.charge = p.subtotal Line.reference - p.uncounted * p.multipliers.prod := by
  unfold subtotal
  rw [sum_reference, ← uncounted]
  ring

theorem atLeast_eq_iff (minimum : Option ℚ) (a b : ℚ) :
    atLeast minimum a = atLeast minimum b ↔ a = b ∨ ∃ least ∈ minimum, b ≤ least ∧ a ≤ least := by
  cases minimum with
  | none => simp [atLeast]
  | some least =>
    simp only [atLeast, Option.mem_some_iff, exists_eq_left']
    constructor
    · intro h
      by_cases hb : b ≤ least
      · rw [max_eq_right hb] at h
        exact Or.inr ⟨hb, max_eq_right_iff.mp h⟩
      · rw [max_eq_left (not_le.mp hb).le] at h
        rcases max_choice a least with ha | ha
        · exact Or.inl (ha.symm.trans h)
        · exact absurd (h.symm.trans ha).le hb
    · rintro (rfl | ⟨hb, ha⟩)
      · rfl
      · rw [max_eq_right ha, max_eq_right hb]

/-- **What the engine charges is the reference price exactly when what goes uncounted makes no
    difference.** -/
theorem charge_eq_reference_iff (p : Parts) :
    p.total Line.charge = p.referencePrice ↔ p.CountsAlike := by
  unfold referencePrice total CountsAlike
  rw [add_left_inj, atLeast_eq_iff, ← or_assoc, subtotal_charge, sub_eq_self, mul_eq_zero,
    List.prod_eq_zero_iff]

end Parts

/-! ## The parts of a request -/

def addonLine (addon : Dict) (price quantity : ℚ) : Line :=
  ⟨price, quantity, lowered (addon.get "type") "fixed" = "addon".toList⟩

/-- The add-ons that are taken. -/
def takenLines (currency region : Text) (inputs : Dict) : Nat → List Val → Checked (List Line)
  | _, [] => .ok []
  | index, raw :: rest => do
    let addon := asMapping raw
    let quantity ← addonQuantity addon inputs index
    let lines ← takenLines currency region inputs (index + 1) rest
    if quantity ≤ 0 then pure lines
    else
      let price ← resolveAmount addon currency region ("addons[" ++ Nat.repr index ++ "]")
      pure (addonLine addon price quantity :: lines)

/-- The multipliers of the options that are chosen. -/
def chosenMultipliers (inputs : Dict) : Nat → List Val → Checked (List ℚ)
  | _, [] => .ok []
  | index, raw :: rest => do
    let multiplier ← factorMultiplier (asMapping raw) inputs index
    let multipliers ← chosenMultipliers inputs (index + 1) rest
    pure (multiplier.toList ++ multipliers)

/-- The parts of a plan whose pricing block comes to `main`. -/
def planParts (plan inputs : Dict) (currency region : Text) (includeSetupFee : Bool) (main : ℚ) :
    Checked Parts := do
  let lines ← takenLines currency region inputs 0 (asList (plan.get "addons"))
  let multipliers ← chosenMultipliers inputs 0 (asList (plan.get "factors"))
  let minimum ← minimumAmount plan currency region
  let setupFee ← setupFeeAmount plan currency region includeSetupFee
  pure ⟨main, lines, multipliers, minimum, setupFee⟩

/-- The parts of a request. -/
def requestParts (pricing : Dict) (offeringId planId : Text) (inputs : Dict) (currency : Text)
    (region : Option Text) (includeSetupFee : Bool) : Checked Parts := do
  let offering ← findOffering pricing offeringId
  let plan ← findPlan offering planId
  let region := orElse (lower (strip (region.getD []))) "global"
  let resolved ← resolveInputs inputs [] (resolveInputSpecs pricing offering plan)
  let main ← evaluatePricing currency region (plan.get "pricing") none resolved "pricing"
  planParts plan resolved currency region includeSetupFee (main.amount.getD 0)

/-! ## What the loops come to -/

section Loops

variable {currency region : Text} {field : String} {inputs : Dict}

theorem resolveAmount_withUnits {b : Dict} {units : Option Text} :
    resolveAmount (withUnits units b) currency region field = resolveAmount b currency region field := by
  unfold resolveAmount
  rw [get_withUnits (by decide), get_withUnits (by decide)]

/-- What an add-on of the normal form costs: by its type, the price or the price times the
    quantity. -/
theorem addonAmount_eq {addon : Dict} {index : Nat} {quantity amount : ℚ} (haddon : IsAddon addon)
    (hpos : 0 < quantity)
    (h : addonAmount currency region addon inputs index quantity = .ok amount) :
    ∃ price, resolveAmount addon currency region ("addons[" ++ Nat.repr index ++ "]") = .ok price ∧
      amount = (addonLine addon price quantity).charge := by
  obtain ⟨type, htype, hblock⟩ := haddon.block
  unfold addonLine
  rw [hblock.lowered_eq]
  unfold addonAmount at h
  dsimp only at h
  rw [if_neg (not_le.mpr hpos), hblock.type_eq] at h
  simp only [pointTypes, List.mem_cons, List.not_mem_nil, or_false] at htype
  obtain ⟨i, heval⟩ := evaluateBlock_eq currency region ("addons[" ++ Nat.repr index ++ "]")
    (evaluateOverage currency region addon) (inputs.set addonUnits (.float quantity))
    (hblock.withUnits (some addonUnits))
  rcases htype with rfl | rfl | rfl
  · -- a flat add-on is its price, however many are taken
    obtain ⟨price, hprice, h⟩ := bind_ok h
    cases h
    exact ⟨price, hprice, rfl⟩
  · -- priced by the unit, and the units are the quantity that was set
    obtain ⟨quoted, hquoted, h⟩ := bind_ok h
    rw [evaluatePricing, heval] at hquoted
    obtain ⟨units, hunits, hquoted⟩ := bind_ok hquoted
    obtain ⟨price, hprice, hquoted⟩ := bind_ok hquoted
    rw [getUnitsValue, unitsInput_withUnits (by decide) (by decide), inputNumber_eq_ok,
      inputAmount_set hpos.le] at hunits
    rw [resolveAmount_withUnits] at hprice
    cases hunits
    cases hquoted
    cases h
    exact ⟨price, hprice, mul_comm quantity price⟩
  · obtain ⟨quoted, hquoted, h⟩ := bind_ok h
    rw [evaluatePricing, heval] at hquoted
    obtain ⟨price, hprice, hquoted⟩ := bind_ok hquoted
    rw [resolveAmount_withUnits] at hprice
    cases hquoted
    cases h
    exact ⟨price, hprice, rfl⟩

theorem addonAmount_of_nonpos {addon : Dict} {index : Nat} {quantity amount : ℚ} (hle : quantity ≤ 0)
    (h : addonAmount currency region addon inputs index quantity = .ok amount) : amount = 0 := by
  unfold addonAmount at h
  dsimp only at h
  rw [if_pos hle] at h
  cases h
  rfl

/-- The loop over the add-ons moves the subtotal by what is charged for those taken. -/
theorem addAddons_lines {addons : List Val} (haddons : ∀ item ∈ addons, ∃ m, item = .dict m ∧ IsAddon m)
    {index : Nat} {sum subtotal sum' subtotal' : ℚ}
    (h : addAddons currency region inputs index addons sum subtotal = .ok (sum', subtotal')) :
    ∃ lines, takenLines currency region inputs index addons = .ok lines ∧
      subtotal' = subtotal + (lines.map Line.charge).sum := by
  induction addons generalizing index sum subtotal with
  | nil =>
    cases h
    exact ⟨[], rfl, (add_zero _).symm⟩
  | cons raw rest ih =>
    obtain ⟨addon, rfl, haddon⟩ := haddons raw List.mem_cons_self
    obtain ⟨quantity, hquantity, h⟩ := bind_ok h
    obtain ⟨amount, hamount, h⟩ := bind_ok h
    obtain ⟨lines, hlines, hsum⟩ := ih (fun item hitem => haddons item (List.mem_cons_of_mem _ hitem)) h
    by_cases hle : quantity ≤ 0
    · refine ⟨lines, ?_, ?_⟩
      · unfold takenLines
        dsimp only
        rw [bind_of_eq_ok hquantity, bind_of_eq_ok hlines, if_pos hle]
        rfl
      · rw [hsum, addonAmount_of_nonpos hle hamount, add_zero]
    · obtain ⟨price, hprice, hcharge⟩ := addonAmount_eq haddon (not_le.mp hle) hamount
      refine ⟨addonLine addon price quantity :: lines, ?_, ?_⟩
      · unfold takenLines
        dsimp only
        rw [bind_of_eq_ok hquantity, bind_of_eq_ok hlines, if_neg hle]
        exact bind_of_eq_ok hprice
      · rw [hsum, hcharge, List.map_cons, List.sum_cons, add_assoc]

/-- The loop over the factors multiplies the subtotal by what is chosen. -/
theorem applyFactors_multipliers {factors : List Val} {index : Nat}
    {subtotal delta subtotal' delta' : ℚ}
    (h : applyFactors inputs index factors subtotal delta = .ok (subtotal', delta')) :
    ∃ multipliers, chosenMultipliers inputs index factors = .ok multipliers ∧
      subtotal' = subtotal * multipliers.prod := by
  induction factors generalizing index subtotal delta with
  | nil =>
    cases h
    exact ⟨[], rfl, (mul_one _).symm⟩
  | cons raw rest ih =>
    obtain ⟨multiplier, hmultiplier, h⟩ := bind_ok h
    have hchosen {multipliers : List ℚ}
        (hrest : chosenMultipliers inputs (index + 1) rest = .ok multipliers) :
        chosenMultipliers inputs index (raw :: rest) = .ok (multiplier.toList ++ multipliers) := by
      unfold chosenMultipliers
      rw [bind_of_eq_ok hmultiplier, bind_of_eq_ok hrest]
      rfl
    cases multiplier with
    | none =>
      obtain ⟨multipliers, hrest, hprod⟩ := ih h
      exact ⟨_, hchosen hrest, hprod⟩
    | some multiplier =>
      obtain ⟨multipliers, hrest, hprod⟩ := ih h
      refine ⟨_, hchosen hrest, ?_⟩
      rw [hprod, Option.toList_some, List.singleton_append, List.prod_cons, mul_assoc]

theorem applyMinimum_atLeast (minimum : Option ℚ) (subtotal : ℚ) :
    (applyMinimum minimum subtotal).1 = atLeast minimum subtotal := by
  cases minimum with
  | none => rfl
  | some least =>
    unfold applyMinimum atLeast
    dsimp only
    split
    · rename_i hlt
      exact (max_eq_right hlt.le).symm
    · rename_i hlt
      exact (max_eq_left (not_lt.mp hlt)).symm

end Loops

/-- **A quote is the total of its parts**, add-ons of type `addon` charged once. -/
theorem quotePriced_parts {plan inputs : Dict} {currency region : Text} {includeSetupFee : Bool}
    {main : Evaluated} {amount : ℚ} {q : Quote} (hplan : IsPlan plan)
    (h : quotePriced plan inputs currency region includeSetupFee main amount = .ok q) :
    ∃ parts, planParts plan inputs currency region includeSetupFee amount = .ok parts ∧
      q.total = some (parts.total Line.charge) := by
  obtain ⟨⟨addons, subtotal⟩, haddons, h⟩ := bind_ok h
  obtain ⟨⟨subtotal', factors⟩, hfactors, h⟩ := bind_ok h
  obtain ⟨minimum, hminimum, h⟩ := bind_ok h
  obtain ⟨lines, hlines, hsum⟩ := addAddons_lines hplan.addons haddons
  obtain ⟨multipliers, hmultipliers, hprod⟩ := applyFactors_multipliers hfactors
  have hraised := applyMinimum_atLeast minimum subtotal'
  generalize applyMinimum minimum subtotal' = raised at h hraised
  obtain ⟨raised, applied, delta⟩ := raised
  obtain ⟨fee, hfee, h⟩ := bind_ok h
  cases h
  refine ⟨⟨amount, lines, multipliers, minimum, fee⟩, ?_, ?_⟩
  · unfold planParts
    rw [bind_of_eq_ok hlines, bind_of_eq_ok hmultipliers, bind_of_eq_ok hminimum,
      bind_of_eq_ok hfee]
    rfl
  · show some (raised + fee) = some (atLeast minimum _ + fee)
    rw [show raised = _ from hraised, hprod, hsum]
    rfl

/-! ## The quote and the reference price -/

theorem exactQuote_parts {doc pricing : Dict} {offeringId planId : Text} {inputs : Dict}
    {currency : Text} {region : Option Text} {includeSetupFee : Bool} {q : Quote} {total : ℚ}
    (hdoc : normalizePricingDoc doc = .ok pricing)
    (hq : exactQuote pricing offeringId planId inputs currency region includeSetupFee = .ok q)
    (hpriced : q.total = some total) :
    ∃ parts, requestParts pricing offeringId planId inputs currency region includeSetupFee =
      .ok parts ∧ total = parts.total Line.charge := by
  obtain ⟨offering, plan, main, amount, hoffering, hplan, hregion, hresolved, hmain, hamount, hq⟩ :=
    exactQuote_priced hq hpriced
  obtain ⟨-, -, hshape⟩ := plan_of_accepted hdoc hoffering hplan
  obtain ⟨parts, hparts, htotal⟩ := quotePriced_parts hshape hq
  refine ⟨parts, ?_, Option.some.inj (hpriced.symm.trans htotal)⟩
  rw [hregion] at hmain hparts
  unfold requestParts
  rw [bind_of_eq_ok hoffering, bind_of_eq_ok hplan, bind_of_eq_ok hresolved, bind_of_eq_ok hmain,
    hamount]
  exact hparts

/-- **A quote is the reference price exactly when what goes uncounted makes no difference**: of
    every accepted price list, for every plan of it that is not custom and all inputs. -/
theorem reference_iff (doc : Dict) (offeringId planId : Text) (inputs : Dict) (currency : Text)
    (region : Option Text) (includeSetupFee : Bool) (pricing : Dict) (q : Quote) (total : ℚ)
    (hdoc : normalizePricingDoc doc = .ok pricing)
    (hq : exactQuote pricing offeringId planId inputs currency region includeSetupFee = .ok q)
    (hpriced : q.total = some total) :
    ∃ parts, requestParts pricing offeringId planId inputs currency region includeSetupFee =
      .ok parts ∧ (total = parts.referencePrice ↔ parts.CountsAlike) := by
  obtain ⟨parts, hparts, rfl⟩ := exactQuote_parts hdoc hq hpriced
  exact ⟨parts, hparts, parts.charge_eq_reference_iff⟩

section Demo

/-- A plan for 10, and seats for 5 each. -/
def seatList : Dict :=
  priceList [.dict [entry "id" (.str "seats"), entry "default" (.int 0)]]
    [entry "id" (.str "team"), entry "pricing" (.dict [euros 10]),
      entry "addons" (.list [.dict [entry "id" (.str "seats"), entry "type" (.str "addon"), euros 5]])]

def seats (count : Int) : Dict := [entry "seats" (.int count)]

theorem reference_iff_seats : ∃ pricing q, normalizePricingDoc seatList = .ok pricing ∧
    exactQuote pricing "o" "team" (seats 1) "eur" none true = .ok q ∧
    ∃ parts, requestParts pricing "o" "team" (seats 1) "eur" none true = .ok parts ∧
      (15 = parts.referencePrice ↔ parts.CountsAlike) := by
  have htotal : totalOf seatList (seats 1) "team" = some 15 := by decide +kernel
  obtain ⟨pricing, q, hdoc, hq, htotal⟩ := exists_of_totalOf htotal
  exact ⟨pricing, q, hdoc, hq,
    reference_iff seatList "o" "team" (seats 1) "eur" none true pricing q 15 hdoc hq htotal⟩

/-- The reference price of a request, if its document is accepted. -/
def referenceOf (doc inputs : Dict) (planId : Text) : Option ℚ :=
  match normalizePricingDoc doc >>= fun pricing =>
      requestParts pricing "o" planId inputs "eur" none true with
  | .error _ => none
  | .ok parts => some parts.referencePrice

/-- Three seats are charged as one: 15 for a plan that comes to 25. -/
theorem seats_charged_once : ∃ pricing q parts, normalizePricingDoc seatList = .ok pricing ∧
    exactQuote pricing "o" "team" (seats 3) "eur" none true = .ok q ∧
    requestParts pricing "o" "team" (seats 3) "eur" none true = .ok parts ∧
    q.total = some 15 ∧ parts.referencePrice = 25 := by
  have htotal : totalOf seatList (seats 3) "team" = some 15 := by decide +kernel
  have hreference : referenceOf seatList (seats 3) "team" = some 25 := by decide +kernel
  obtain ⟨pricing, q, hdoc, hq, htotal⟩ := exists_of_totalOf htotal
  obtain ⟨parts, hparts, -⟩ := exactQuote_parts hdoc hq htotal
  refine ⟨pricing, q, parts, hdoc, hq, hparts, htotal, ?_⟩
  unfold referenceOf at hreference
  rw [bind_of_eq_ok hdoc, hparts] at hreference
  exact Option.some.inj hreference

end Demo

end Infinito.Pricing
