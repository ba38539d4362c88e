import Infinito.Lib.Result
import Infinito.Pricing.Quote
import Mathlib.Tactic.Linarith
import Mathlib.Tactic.Positivity

/-!
# The breakdown accounts for the total

Total and breakdown are computed along different variables: the evaluator returns an amount
beside its base and its usage, and each loop carries the subtotal beside a sum of what it
did to it. `Accounted` is what the evaluator keeps, through the nested block of a bundle;
each loop has a lemma that says by how much it moved the subtotal.
-/

set_option autoImplicit false

namespace Infinito.Pricing

open Py
open Lib (bind_ok)

/-! ## Every amount is a number that is not negative -/

section Nonneg

variable {currency region : Text} {field : String}

theorem toNumber_float {q : ℚ} (hq : 0 ≤ q) (field : String) : toNumber (.float q) field = .ok q := by
  show (if q < 0 then _ else _) = _
  rw [if_neg (not_lt.mpr hq)]

theorem toNumber_nonneg {v : Val} {q : ℚ} (h : toNumber v field = .ok q) : 0 ≤ q := by
  unfold toNumber at h
  split at h
  · cases h
  · split at h
    · cases h
    · rename_i hneg
      cases h
      exact not_lt.mp hneg

theorem toFloat_of_toNumber {v : Val} {q : ℚ} (h : toNumber v field = .ok q) : toFloat v = some q := by
  unfold toNumber at h
  split at h
  · cases h
  · rename_i number hnumber
    split at h
    · cases h
    · cases h
      exact hnumber

theorem resolveAmount_nonneg {point : Dict} {q : ℚ}
    (h : resolveAmount point currency region field = .ok q) : 0 ≤ q := by
  simp only [resolveAmount] at h
  split at h
  · cases h
  · split at h
    · split at h
      · exact toNumber_nonneg h
      · cases h
    · split at h
      · cases h
      · split at h
        · cases h
        · split at h
          · exact toNumber_nonneg h
          · cases h

/-- The loop over the tiers only adds to the total. -/
theorem le_progressiveTiers {tiers : List Val} {index : Nat} {remaining lower total q : ℚ}
    (h : progressiveTiers currency region field index tiers remaining lower total = .ok q) :
    total ≤ q := by
  induction tiers generalizing index remaining lower total with
  | nil => cases h; exact le_refl _
  | cons raw tiers ih =>
    simp only [progressiveTiers] at h
    split at h
    · cases h; exact le_refl _
    · split at h
      · exact ih h
      · rename_i hpos
        obtain ⟨price, hprice, h⟩ := bind_ok h
        have hmore := le_add_of_nonneg_right (a := total)
          (mul_nonneg (not_le.mp hpos).le (resolveAmount_nonneg hprice))
        cases hlimit : upTo (asMapping raw) with
        | none =>
          rw [hlimit] at h hmore
          cases h
          exact hmore
        | some limit =>
          rw [hlimit] at h hmore
          exact hmore.trans (ih h)

theorem progressiveTiers_nonneg {tiers : List Val} {index : Nat} {remaining lower total q : ℚ}
    (htotal : 0 ≤ total)
    (h : progressiveTiers currency region field index tiers remaining lower total = .ok q) :
    0 ≤ q :=
  htotal.trans (le_progressiveTiers h)

theorem volumeBands_nonneg {bands : List Val} {index : Nat} {qty q : ℚ} (hqty : 0 ≤ qty)
    (h : volumeBands qty currency region field index bands = .ok q) : 0 ≤ q := by
  induction bands generalizing index with
  | nil => cases h
  | cons raw bands ih =>
    simp only [volumeBands] at h
    split at h
    · obtain ⟨price, hprice, h⟩ := bind_ok h
      cases h
      exact mul_nonneg hqty (resolveAmount_nonneg hprice)
    · exact ih h

end Nonneg

/-! ## What the evaluator keeps -/

/-- The amount is what base and usage come to, and neither is negative. -/
def Accounted (e : Evaluated) : Prop :=
  0 ≤ e.base ∧ 0 ≤ e.usage ∧ ∀ amount ∈ e.amount, amount = e.base + e.usage

section Evaluate

variable {currency region : Text} {field : String}

theorem Accounted.ofBase {interval : Text} {amount : ℚ} (h : 0 ≤ amount) :
    Accounted (.ofBase interval amount) := by
  refine ⟨h, le_refl 0, ?_⟩
  rintro _ ⟨⟩
  exact (add_zero amount).symm

theorem Accounted.ofUsage {interval : Text} {amount : ℚ} (h : 0 ≤ amount) :
    Accounted (.ofUsage interval amount) := by
  refine ⟨le_refl 0, h, ?_⟩
  rintro _ ⟨⟩
  exact (zero_add amount).symm

theorem Accounted.nonneg {e : Evaluated} (h : Accounted e) {amount : ℚ} (ha : e.amount = some amount) :
    0 ≤ amount := by
  rw [h.2.2 amount ha]
  exact add_nonneg h.1 h.2.1

theorem evaluateBundle_accounted {overage : Dict → String → Checked Evaluated}
    (hoverage : ∀ inputs name e, overage inputs name = .ok e → Accounted e)
    {block inputs : Dict} {interval : Text} {e : Evaluated}
    (h : evaluateBundle overage block inputs currency region field interval = .ok e) :
    Accounted e := by
  obtain ⟨base, hbase, h⟩ := bind_ok h
  have hbase := resolveAmount_nonneg hbase
  obtain ⟨quantity, -, h⟩ := bind_ok h
  obtain ⟨free, -, h⟩ := bind_ok h
  dsimp only at h
  split at h
  · obtain ⟨nested, hnested, h⟩ := bind_ok h
    cases hamount : nested.amount with
    | none => rw [hamount] at h; cases h
    | some usage =>
      rw [hamount] at h
      cases h
      have husage := (hoverage _ _ _ hnested).nonneg hamount
      refine ⟨hbase, husage, ?_⟩
      rintro _ ⟨⟩
      rfl
  · cases h
    refine ⟨hbase, le_refl 0, ?_⟩
    rintro _ ⟨⟩
    rfl

/-- What each branch of the evaluator returns. -/
theorem evaluateTyped_ok {overage : Dict → String → Checked Evaluated} {type interval : Text}
    {block inputs : Dict} {e : Evaluated}
    (h : evaluateTyped overage type interval block inputs currency region field = .ok e) :
    (type = "custom".toList ∧ e = ⟨interval, none, 0, 0⟩) ∨
    ((type = "fixed".toList ∨ type = "addon".toList) ∧ ∃ amount,
      resolveAmount block currency region field = .ok amount ∧ e = .ofBase interval amount) ∨
    (type = "per_unit".toList ∧ ∃ quantity price, getUnitsValue block inputs = .ok quantity ∧
      resolveAmount block currency region field = .ok price ∧
      e = .ofUsage interval (quantity * price)) ∨
    (type = "tiered_per_unit".toList ∧ ∃ quantity usage, getUnitsValue block inputs = .ok quantity ∧
      calcProgressiveTiers quantity (asList (block.get "tiers")) currency region
        s!"{field}.tiers" = .ok usage ∧ e = .ofUsage interval usage) ∨
    (type = "volume_per_unit".toList ∧ ∃ quantity usage, getUnitsValue block inputs = .ok quantity ∧
      calcVolumeBands quantity (asList (block.get "bands")) currency region
        s!"{field}.bands" = .ok usage ∧ e = .ofUsage interval usage) ∨
    (type = "bundle".toList ∧
      evaluateBundle overage block inputs currency region field interval = .ok e) := by
  unfold evaluateTyped at h
  split at h
  · rename_i htype
    cases h
    exact Or.inl ⟨htype, rfl⟩
  split at h
  · rename_i htype
    obtain ⟨amount, hamount, h⟩ := bind_ok h
    cases h
    exact Or.inr (Or.inl ⟨htype, amount, hamount, rfl⟩)
  split at h
  · rename_i htype
    obtain ⟨quantity, hquantity, h⟩ := bind_ok h
    obtain ⟨price, hprice, h⟩ := bind_ok h
    cases h
    exact Or.inr (Or.inr (Or.inl ⟨htype, quantity, price, hquantity, hprice, rfl⟩))
  split at h
  · rename_i htype
    obtain ⟨quantity, hquantity, h⟩ := bind_ok h
    obtain ⟨usage, husage, h⟩ := bind_ok h
    cases h
    exact Or.inr (Or.inr (Or.inr (Or.inl ⟨htype, quantity, usage, hquantity, husage, rfl⟩)))
  split at h
  · rename_i htype
    obtain ⟨quantity, hquantity, h⟩ := bind_ok h
    obtain ⟨usage, husage, h⟩ := bind_ok h
    cases h
    exact Or.inr (Or.inr (Or.inr (Or.inr (Or.inl ⟨htype, quantity, usage, hquantity, husage, rfl⟩))))
  split at h
  · rename_i htype
    exact Or.inr (Or.inr (Or.inr (Or.inr (Or.inr ⟨htype, h⟩))))
  · cases h

theorem evaluateBlock_accounted {overage : Dict → String → Checked Evaluated}
    (hoverage : ∀ inputs name e, overage inputs name = .ok e → Accounted e)
    {block inputs : Dict} {e : Evaluated}
    (h : evaluateBlock overage block inputs currency region field = .ok e) : Accounted e := by
  obtain ⟨interval, -, h⟩ := bind_ok h
  rcases evaluateTyped_ok h with ⟨-, rfl⟩ | ⟨-, amount, hamount, rfl⟩ |
    ⟨-, quantity, price, hquantity, hprice, rfl⟩ | ⟨-, quantity, usage, -, husage, rfl⟩ |
    ⟨-, quantity, usage, hquantity, husage, rfl⟩ | ⟨-, hbundle⟩
  · exact ⟨le_refl 0, le_refl 0, by rintro _ ⟨⟩⟩
  · exact .ofBase (resolveAmount_nonneg hamount)
  · exact .ofUsage (mul_nonneg (toNumber_nonneg hquantity) (resolveAmount_nonneg hprice))
  · exact .ofUsage (progressiveTiers_nonneg (le_refl 0) husage)
  · exact .ofUsage (volumeBands_nonneg (toNumber_nonneg hquantity) husage)
  · exact evaluateBundle_accounted hoverage hbundle

mutual

/-- **Base and usage come to the amount**, of every block that can be evaluated. -/
theorem evaluatePricing_accounted (currency region : Text) :
    ∀ (v : Val) (units : Option Text) (inputs : Dict) (field : String) (e : Evaluated),
      evaluatePricing currency region v units inputs field = .ok e → Accounted e
  | .dict block, _, _, _, _, h =>
    evaluateBlock_accounted
      (fun inputs name e => evaluateOverage_accounted currency region block inputs name e) h
  | .none, _, _, _, _, h | .bool _, _, _, _, _, h | .int _, _, _, _, _, h | .float _, _, _, _, _, h
  | .str _, _, _, _, _, h | .list _, _, _, _, _, h | .other _, _, _, _, _, h =>
    evaluateBlock_accounted (fun _ _ _ h => by cases h) h

theorem evaluateOverage_accounted (currency region : Text) :
    ∀ (items : List (Val × Val)) (inputs : Dict) (field : String) (e : Evaluated),
      evaluateOverage currency region items inputs field = .ok e → Accounted e
  | [], _, _, _, h => evaluateBlock_accounted (fun _ _ _ h => by cases h) h
  | (key, value) :: items, inputs, field, e, h => by
    simp only [evaluateOverage] at h
    split at h
    · exact evaluatePricing_accounted currency region value _ _ _ e h
    · exact evaluateOverage_accounted currency region items inputs field e h

end

end Evaluate

/-! ## What the loops do to the subtotal -/

section Loops

variable {currency region : Text} {inputs : Dict}

theorem addonAmount_nonneg {addon : Dict} {index : Nat} {quantity amount : ℚ}
    (h : addonAmount currency region addon inputs index quantity = .ok amount) : 0 ≤ amount := by
  simp only [addonAmount] at h
  split at h
  · cases h; exact le_refl 0
  · rename_i hpos
    split at h
    · obtain ⟨price, hprice, h⟩ := bind_ok h
      cases h
      exact mul_nonneg (resolveAmount_nonneg hprice) (not_le.mp hpos).le
    · obtain ⟨quoted, hquoted, h⟩ := bind_ok h
      cases h
      cases hamount : quoted.amount with
      | none => exact le_refl 0
      | some amount =>
        exact (evaluatePricing_accounted _ _ _ _ _ _ _ hquoted).nonneg hamount

theorem addAddons_spec {addons : List Val} {index : Nat} {sum subtotal sum' subtotal' : ℚ}
    (h : addAddons currency region inputs index addons sum subtotal = .ok (sum', subtotal')) :
    subtotal' = subtotal + (sum' - sum) ∧ sum ≤ sum' := by
  induction addons generalizing index sum subtotal with
  | nil => cases h; exact ⟨by ring, le_refl _⟩
  | cons raw rest ih =>
    obtain ⟨quantity, -, h⟩ := bind_ok h
    obtain ⟨amount, hamount, h⟩ := bind_ok h
    obtain ⟨hsubtotal, hsum⟩ := ih h
    have hnonneg := addonAmount_nonneg hamount
    exact ⟨by rw [hsubtotal]; ring, by linarith⟩

theorem applyFactors_spec {factors : List Val} {index : Nat} {subtotal delta subtotal' delta' : ℚ}
    (h : applyFactors inputs index factors subtotal delta = .ok (subtotal', delta')) :
    subtotal' = subtotal + (delta' - delta) := by
  induction factors generalizing index subtotal delta with
  | nil => cases h; ring
  | cons raw rest ih =>
    obtain ⟨multiplier, -, h⟩ := bind_ok h
    cases multiplier with
    | none => exact ih h
    | some multiplier =>
      rw [ih h]
      ring

theorem applyMinimum_spec (minimum : Option ℚ) (subtotal : ℚ) :
    let (raised, _, delta) := applyMinimum minimum subtotal
    raised = subtotal + delta ∧ 0 ≤ delta ∧ ∀ amount ∈ minimum, amount ≤ raised := by
  cases minimum with
  | none => simp [applyMinimum]
  | some minimum =>
    by_cases hlt : subtotal < minimum
    · simp only [applyMinimum, if_pos hlt]
      refine ⟨by ring, by linarith, ?_⟩
      rintro _ ⟨⟩
      exact le_refl _
    · simp only [applyMinimum, if_neg hlt]
      refine ⟨by ring, le_refl 0, ?_⟩
      rintro _ ⟨⟩
      exact not_lt.mp hlt

theorem setupFeeAmount_nonneg {plan : Dict} {included : Bool} {fee : ℚ}
    (h : setupFeeAmount plan currency region included = .ok fee) : 0 ≤ fee := by
  unfold setupFeeAmount at h
  split at h
  · exact resolveAmount_nonneg h
  · cases h; exact le_refl 0

end Loops

/-! ## The account -/

/-- The parts of a breakdown come to the total, the total less the setup fee is no less than
    the minimum commitment, and no part but the factors is negative. -/
structure Balanced (b : Breakdown) (minimum : Option ℚ) (total : ℚ) : Prop where
  total_eq : total = b.base + b.usage + b.addons + b.factors + b.delta + b.setupFee
  minimum_le : ∀ amount ∈ minimum, amount ≤ total - b.setupFee
  base_nonneg : 0 ≤ b.base
  usage_nonneg : 0 ≤ b.usage
  addons_nonneg : 0 ≤ b.addons
  delta_nonneg : 0 ≤ b.delta
  setupFee_nonneg : 0 ≤ b.setupFee

theorem quotePriced_balanced {plan inputs : Dict} {currency region : Text} {included : Bool}
    {main : Evaluated} {amount : ℚ} {q : Quote} (hmain : Accounted main)
    (hamount : main.amount = some amount)
    (h : quotePriced plan inputs currency region included main amount = .ok q) :
    ∃ minimum total, minimumAmount plan currency region = .ok minimum ∧ q.total = some total ∧
      Balanced q.breakdown minimum total := by
  obtain ⟨⟨addons, subtotal⟩, haddons, h⟩ := bind_ok h
  obtain ⟨⟨subtotal', factors⟩, hfactors, h⟩ := bind_ok h
  obtain ⟨minimum, hminimum, h⟩ := bind_ok h
  obtain ⟨hsum, hnonneg⟩ := addAddons_spec haddons
  have hdelta := applyFactors_spec hfactors
  have hmin := applyMinimum_spec minimum subtotal'
  generalize applyMinimum minimum subtotal' = raised at h hmin
  obtain ⟨raised, applied, delta⟩ := raised
  obtain ⟨hraised, hpos, hle⟩ := hmin
  obtain ⟨fee, hfee, h⟩ := bind_ok h
  cases h
  refine ⟨minimum, _, hminimum, rfl, ?_, ?_, hmain.1, hmain.2.1, hnonneg, hpos,
    setupFeeAmount_nonneg hfee⟩
  · have hbase := hmain.2.2 amount hamount
    dsimp only
    rw [hraised, hdelta, hsum, hbase]
    ring
  · intro least hleast
    dsimp only
    rw [add_sub_cancel_right]
    exact hle least hleast

/-- What a quote with a total comes from: a plan that is found, inputs that are settled, and a
    pricing block with an amount. -/
theorem exactQuote_priced {pricing : Dict} {offeringId planId : Text} {inputs : Dict}
    {currency : Text} {region : Option Text} {includeSetupFee : Bool} {q : Quote} {total : ℚ}
    (hq : exactQuote pricing offeringId planId inputs currency region includeSetupFee = .ok q)
    (hpriced : q.total = some total) :
    ∃ offering plan main amount, findOffering pricing offeringId = .ok offering ∧
      findPlan offering planId = .ok plan ∧
      q.region = orElse (lower (strip (region.getD []))) "global" ∧
      resolveInputs inputs [] (resolveInputSpecs pricing offering plan) = .ok q.inputs ∧
      evaluatePricing currency q.region (plan.get "pricing") none q.inputs "pricing" = .ok main ∧
      main.amount = some amount ∧
      quotePriced plan q.inputs currency q.region includeSetupFee main amount = .ok q := by
  obtain ⟨offering, hoffering, hq⟩ := bind_ok hq
  obtain ⟨plan, hplan, hq⟩ := bind_ok hq
  dsimp only at hq
  split at hq
  · cases hq
  · split at hq
    · cases hq
    · obtain ⟨resolved, hresolved, hq⟩ := bind_ok hq
      obtain ⟨main, hmain, hq⟩ := bind_ok hq
      cases hamount : main.amount with
      | none =>
        rw [hamount] at hq
        cases hq
        cases hpriced
      | some amount =>
        rw [hamount] at hq
        have hfields : q.region = orElse (lower (strip (region.getD []))) "global" ∧
            q.inputs = resolved := by
          obtain ⟨⟨addons, subtotal⟩, -, hq⟩ := bind_ok hq
          obtain ⟨⟨subtotal', factors⟩, -, hq⟩ := bind_ok hq
          obtain ⟨minimum, -, hq⟩ := bind_ok hq
          obtain ⟨fee, -, hq⟩ := bind_ok hq
          cases hq
          exact ⟨rfl, rfl⟩
        obtain ⟨hregion, rfl⟩ := hfields
        rw [← hregion] at hmain hq
        exact ⟨offering, plan, main, amount, hoffering, hplan, hregion, hresolved, hmain, hamount, hq⟩

theorem exactQuote_balanced {pricing : Dict} {offeringId planId : Text} {inputs : Dict}
    {currency : Text} {region : Option Text} {includeSetupFee : Bool} {q : Quote} {total : ℚ}
    (hq : exactQuote pricing offeringId planId inputs currency region includeSetupFee = .ok q)
    (hpriced : q.total = some total) :
    ∃ offering plan minimum, findOffering pricing offeringId = .ok offering ∧
      findPlan offering planId = .ok plan ∧
      minimumAmount plan currency q.region = .ok minimum ∧ Balanced q.breakdown minimum total := by
  obtain ⟨offering, plan, main, amount, hoffering, hplan, -, -, hmain, hamount, hq⟩ :=
    exactQuote_priced hq hpriced
  have haccounted := evaluatePricing_accounted _ _ _ _ _ _ _ hmain
  obtain ⟨minimum, total', hminimum, htotal, hbalanced⟩ := quotePriced_balanced haccounted hamount hq
  rw [hpriced] at htotal
  cases htotal
  exact ⟨offering, plan, minimum, hoffering, hplan, hminimum, hbalanced⟩

/-- **The breakdown accounts for the total**: of every accepted price list, for every plan of
    it that is not custom and all inputs, whenever a quote is returned. -/
theorem quote_balanced (doc : Dict) (offeringId planId : Text) (inputs : Dict) (currency : Text)
    (region : Option Text) (includeSetupFee : Bool) (pricing : Dict) (q : Quote) (total : ℚ)
    (_hdoc : normalizePricingDoc doc = .ok pricing)
    (hq : exactQuote pricing offeringId planId inputs currency region includeSetupFee = .ok q)
    (hpriced : q.total = some total) :
    ∃ offering plan minimum, findOffering pricing offeringId = .ok offering ∧
      findPlan offering planId = .ok plan ∧
      minimumAmount plan currency q.region = .ok minimum ∧ Balanced q.breakdown minimum total :=
  exactQuote_balanced hq hpriced

/-! ## A price list with everything in it -/

section Demo

def entry (key : String) (v : Val) : Val × Val := (.str key, v)

def euros (amount : Int) : Val × Val := entry "prices" (.dict [entry "EUR" (.int amount)])

def richPlan : Dict :=
  [entry "id" (.str "team"),
    entry "pricing" (.dict [entry "type" (.str "bundle"), entry "base" (.dict [euros 10]),
      entry "included_units" (.dict [entry "users" (.int 3)]),
      entry "overage" (.dict [entry "type" (.str "tiered_per_unit"),
        entry "tiers" (.list [.dict [entry "up_to" (.int 1), euros 4], .dict [euros 2]])])]),
    entry "addons" (.list [.dict [entry "id" (.str "backup"), entry "default" (.bool true), euros 5]]),
    entry "factors" (.list [.dict [entry "type" (.str "factor"), entry "input_id" (.str "size"),
      entry "values" (.dict [entry "s" (.int 1), entry "l" (.str "1.5")])]]),
    entry "minimum_commit" (.dict [euros 100]),
    entry "setup_fee" (.dict [euros 20])]

/-- A document with one offering and one plan. -/
def priceList (inputs : List Val) (plan : Dict) : Dict :=
  [entry "schema" (.str "v2"), entry "inputs" (.list inputs),
    entry "offerings" (.list [.dict [entry "id" (.str "o"), entry "plans" (.list [.dict plan])]])]

def richList : Dict :=
  priceList
    [.dict [entry "id" (.str "users"), entry "default" (.int 6), entry "min" (.int 1)],
      .dict [entry "id" (.str "size"), entry "type" (.str "enum"),
        entry "options" (.list [.str "s", .str "l"]), entry "default" (.str "l")]] richPlan

/-- What a document costs, if it is accepted and quoted. -/
def totalOf (doc inputs : Dict) (planId : Text) : Option ℚ :=
  match normalizePricingDoc doc with
  | .error _ => none
  | .ok pricing => match exactQuote pricing "o" planId inputs "eur" none true with
    | .error _ => none
    | .ok q => q.total

theorem exists_of_totalOf {doc inputs : Dict} {planId : Text} {total : ℚ}
    (h : totalOf doc inputs planId = some total) : ∃ pricing q,
      normalizePricingDoc doc = .ok pricing ∧
        exactQuote pricing "o" planId inputs "eur" none true = .ok q ∧ q.total = some total := by
  unfold totalOf at h
  split at h
  · cases h
  · rename_i pricing hdoc
    split at h
    · cases h
    · rename_i q hq
      exact ⟨pricing, q, hdoc, hq, h⟩

/-- Six users of a plan with three: 10 + 8, a backup for 5, times 1.5, raised to 100, and a
    setup fee of 20. -/
theorem quote_balanced_rich : ∃ pricing q, normalizePricingDoc richList = .ok pricing ∧
    exactQuote pricing "o" "team" [] "eur" none true = .ok q ∧
    ∃ offering plan minimum, findOffering pricing "o" = .ok offering ∧
      findPlan offering "team" = .ok plan ∧
      minimumAmount plan "eur" q.region = .ok minimum ∧ Balanced q.breakdown minimum 120 := by
  have htotal : totalOf richList [] "team" = some 120 := by decide +kernel
  obtain ⟨pricing, q, hdoc, hq, htotal⟩ := exists_of_totalOf htotal
  exact ⟨pricing, q, hdoc, hq, quote_balanced richList "o" "team" [] "eur" none true pricing q 120
    hdoc hq htotal⟩

end Demo

end Infinito.Pricing
