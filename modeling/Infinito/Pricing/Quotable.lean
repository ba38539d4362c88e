import Infinito.Pricing.Accepted

/-!
# Which accepted price lists can be quoted

The normalizer and the quote engine are separate code, and the normalizer lets through what
the engine cannot evaluate with the defaults it has itself put into normal form: a number
input whose default is out of its own bounds, a factor whose default is none of its options,
a plan that is priced by a factor, units that are no amount, volume bands that end below the
default quantity, an add-on with a default that is no quantity, a setup fee without a price.

`Quotable` lists them, each a condition on the document; it is exact (`quotable_iff`).
-/

set_option autoImplicit false

namespace Infinito.Pricing

open Py
open Lib (bind_ok)

/-! ## Amounts of the document -/

/-- A value that is read as an amount. -/
def asAmount (v : Val) : Option ℚ := (toFloat v).filter (0 ≤ ·)

/-- The price a point has for a currency in a region. -/
def priceAt (point : Dict) (currency region : Text) : Option ℚ :=
  let curr := upper (strip currency)
  let wanted := lower (strip region)
  if isCurrency curr = false then none
  else match asMapping (point.get "regional_prices") with
    | [] => ((asMapping (point.get "prices")).find curr).bind asAmount
    | item :: items =>
      if wanted = [] then none
      else (Dict.find (item :: items) wanted).bind fun prices =>
        ((asMapping prices).find curr).bind asAmount

/-- The point defines a price. -/
def Priced (currency region : Text) (point : Dict) : Prop :=
  (priceAt point currency region).isSome = true

instance (currency region : Text) (point : Dict) : Decidable (Priced currency region point) :=
  inferInstanceAs (Decidable (_ = _))

/-- The price points of a block that holds no other block. -/
def flatPoints (b : Dict) : List Dict :=
  let type := lowered (b.get "type") "fixed"
  if type ∈ pointTypes then [b]
  else if type = "tiered_per_unit".toList then (asList (b.get "tiers")).map asMapping
  else if type = "volume_per_unit".toList then (asList (b.get "bands")).map asMapping
  else []

def pricePoints (b : Dict) : List Dict :=
  if lowered (b.get "type") "fixed" = "bundle".toList then
    asMapping (b.get "base") :: flatPoints (asMapping (b.get "overage"))
  else flatPoints b

def optionalPoints (v : Val) : List Dict :=
  match asMapping v with
  | [] => []
  | item :: items => pricePoints (item :: items)

/-- The price points of a plan. -/
def planPoints (plan : Dict) : List Dict :=
  pricePoints (asMapping (plan.get "pricing")) ++
    (asList (plan.get "addons")).flatMap (fun addon => flatPoints (asMapping addon)) ++
    optionalPoints (plan.get "minimum_commit") ++ optionalPoints (plan.get "setup_fee")

/-! ## The condition -/

/-- The default of a number input is within its bounds. -/
def inRange (spec : Dict) : Bool :=
  asStr (spec.get "type") ≠ "number".toList || (bound spec "default").all fun default =>
    (bound spec "min").all (· ≤ default) && (bound spec "max").all (default ≤ ·)

/-- The inputs of a quote for which the client gives none. -/
def defaults (specs : List Dict) : Dict :=
  specs.foldl (fun inputs spec => inputs.set (asStr (spec.get "id")) (spec.get "default")) []

/-- An input as an amount, 0 when there is none. -/
def inputAmount (inputs : Dict) (inputId : Text) : Option ℚ :=
  asAmount ((inputs.find inputId).getD (.int 0))

/-- Some band takes the quantity. -/
def covers (bands : List Val) (qty : ℚ) : Bool :=
  bands.any fun band => (upTo (asMapping band)).all (qty ≤ ·)

/-- What goes beyond the free units of a bundle. -/
def excess (b : Dict) (qty : ℚ) : ℚ :=
  let included := asMapping (b.get "included_units")
  let unitKey := bundleUnit (asMapping (b.get "overage")) included
  max 0 (qty - ((included.find unitKey).bind asAmount).getD 0)

/-- The overage of a bundle takes the quantity. -/
def overageCovers (b : Dict) (qty : ℚ) : Bool :=
  let overage := asMapping (b.get "overage")
  excess b qty ≤ 0 || lowered (overage.get "type") "fixed" ≠ "volume_per_unit".toList ||
    covers (asList (overage.get "bands")) (excess b qty)

/-- A pricing block that can be evaluated with these inputs: it is no factor, its units are
    an amount, and volume bands cover them. -/
def evaluable (inputs b : Dict) : Bool :=
  let type := lowered (b.get "type") "fixed"
  let units := inputAmount inputs (unitsInput b)
  if type = "per_unit".toList ∨ type = "tiered_per_unit".toList then units.isSome
  else if type = "volume_per_unit".toList then units.any (covers (asList (b.get "bands")))
  else if type = "bundle".toList then
    (inputAmount inputs (bundleUnit (asMapping (b.get "overage"))
      (asMapping (b.get "included_units")))).any (overageCovers b)
  else type ≠ "factor".toList

/-- A default that says whether or how often an add-on is taken. -/
def countable (inputs addon : Dict) : Bool :=
  match (inputs.find (addonInput addon 0)).getD ((addon.find "default").getD (.bool false)) with
  | .bool _ => true
  | value => (asAmount value).isSome

/-- A factor without an input, or with a default among its options. -/
def optionKnown (inputs factor : Dict) : Bool :=
  let inputId := asStr (factor.get "input_id")
  inputId = [] || (asMapping (factor.get "values")).has
    (asStr ((inputs.find inputId).getD (factor.get "default")))

/-- The setup fee, if there is one, defines a price itself. -/
def feePriced (plan : Dict) (currency region : Text) : Bool :=
  match asMapping (plan.get "setup_fee") with
  | [] => true
  | item :: items => (priceAt (item :: items) currency region).isSome

/-- What it takes for a plan to be quoted with its defaults. -/
structure Quotable (specs : List Dict) (plan : Dict) (currency region : Text)
    (includeSetupFee : Bool) : Prop where
  inRange : ∀ spec ∈ specs, inRange spec = true
  evaluable : evaluable (defaults specs) (asMapping (plan.get "pricing")) = true
  /-- a custom plan is quoted without add-ons, factors and fee -/
  parts : lowered ((asMapping (plan.get "pricing")).get "type") "fixed" ≠ "custom".toList →
    (∀ addon ∈ asList (plan.get "addons"), countable (defaults specs) (asMapping addon) = true) ∧
    (∀ factor ∈ asList (plan.get "factors"),
      optionKnown (defaults specs) (asMapping factor) = true) ∧
    (includeSetupFee = true → feePriced plan currency region = true)

/-! ## Success -/

def Succeeds {α : Type} (x : Checked α) : Prop := ∃ a, x = .ok a

section Success

variable {α β : Type} {currency region : Text} {field : String}

theorem succeeds_ok (a : α) : Succeeds (.ok a : Checked α) := ⟨a, rfl⟩

theorem not_succeeds_invalid {message : String} : ¬ Succeeds (invalid message : Checked α) := by
  rintro ⟨a, h⟩
  cases h

theorem succeeds_bind {x : Checked α} {f : α → Checked β} :
    Succeeds (x >>= f) ↔ ∃ a, x = .ok a ∧ Succeeds (f a) := by
  constructor
  · rintro ⟨b, h⟩
    obtain ⟨a, ha, h⟩ := bind_ok h
    exact ⟨a, ha, b, h⟩
  · rintro ⟨a, rfl, b, h⟩
    exact ⟨b, h⟩

theorem toNumber_eq_ok {v : Val} {q : ℚ} : toNumber v field = .ok q ↔ asAmount v = some q := by
  unfold toNumber asAmount
  cases toFloat v with
  | none => simp [invalid]
  | some number =>
    by_cases h : number < 0
    · rw [Option.filter_some, if_neg (by simpa using h)]
      simp [invalid, h]
    · rw [Option.filter_some, if_pos (by simpa using h)]
      simp [h]

/-- A number that is looked up, or else an error. -/
theorem lookup_eq_ok {m : Dict} {key : Text} {message : String} {q : ℚ} :
    (if m.has key = true then toNumber (m.get key) field else invalid message) = .ok q ↔
      (m.find key).bind asAmount = some q := by
  unfold Dict.has Dict.get
  cases m.find key with
  | none => simp [invalid]
  | some v => exact toNumber_eq_ok

theorem resolveAmount_eq_ok {point : Dict} {q : ℚ} :
    resolveAmount point currency region field = .ok q ↔ priceAt point currency region = some q := by
  simp only [resolveAmount, priceAt, asStr_str]
  by_cases hcode : isCurrency (upper (strip currency)) = false
  · simp [hcode, invalid]
  · rw [if_neg hcode, if_neg hcode]
    generalize asMapping (point.get "regional_prices") = regional
    cases regional with
    | nil => exact lookup_eq_ok
    | cons item items =>
      dsimp only
      generalize (item :: items : Dict) = regional
      by_cases hwanted : lower (strip region) = []
      · simp [hwanted, invalid]
      · rw [if_neg hwanted, if_neg hwanted]
        unfold Dict.has Dict.get
        cases Dict.find regional (lower (strip region)) with
        | none => simp [invalid]
        | some prices => exact lookup_eq_ok

theorem Priced.resolve {point : Dict} (h : Priced currency region point) (field : String) :
    ∃ q, resolveAmount point currency region field = .ok q := by
  obtain ⟨q, hq⟩ := Option.isSome_iff_exists.mp h
  exact ⟨q, resolveAmount_eq_ok.mpr hq⟩

theorem progressiveTiers_succeeds {tiers : List Val} {index : Nat} {remaining lower total : ℚ}
    (hpriced : ∀ tier ∈ tiers, Priced currency region (asMapping tier)) :
    Succeeds (progressiveTiers currency region field index tiers remaining lower total) := by
  induction tiers generalizing index remaining lower total with
  | nil => exact succeeds_ok _
  | cons raw tiers ih =>
    have hrest := fun tier htier => hpriced tier (List.mem_cons_of_mem _ htier)
    simp only [progressiveTiers]
    split
    · exact succeeds_ok _
    · split
      · exact ih hrest
      · obtain ⟨price, hprice⟩ := (hpriced raw List.mem_cons_self).resolve _
        refine succeeds_bind.mpr ⟨price, hprice, ?_⟩
        cases upTo (asMapping raw) with
        | none => exact succeeds_ok _
        | some limit => exact ih hrest

theorem volumeBands_succeeds {bands : List Val} {qty : ℚ}
    (hpriced : ∀ band ∈ bands, Priced currency region (asMapping band)) (field : String)
    (index : Nat) :
    Succeeds (volumeBands qty currency region field index bands) ↔ covers bands qty = true := by
  induction bands generalizing index with
  | nil => exact iff_of_false not_succeeds_invalid (by simp [covers])
  | cons raw bands ih =>
    have hrest := fun band hband => hpriced band (List.mem_cons_of_mem _ hband)
    simp only [volumeBands, covers, List.any_cons, Bool.or_eq_true]
    by_cases htakes : (upTo (asMapping raw)).all (qty ≤ ·) = true
    · rw [if_pos htakes]
      obtain ⟨price, hprice⟩ := (hpriced raw List.mem_cons_self).resolve _
      exact iff_of_true (succeeds_bind.mpr ⟨price, hprice, succeeds_ok _⟩) (Or.inl htakes)
    · rw [if_neg htakes, ih hrest]
      exact (or_iff_right htakes).symm

theorem inputNumber_eq_ok (inputs : Dict) {inputId : Text} {q : ℚ} :
    inputNumber inputs inputId = .ok q ↔ inputAmount inputs inputId = some q := toNumber_eq_ok

end Success

/-! ## The evaluator on blocks in normal form -/

section Evaluator

variable {currency region : Text} {field : String} {overage : Dict → String → Checked Evaluated}

theorem IsBlock.lowered_eq {b : Dict} {type : Text} (h : IsBlock b type) :
    lowered (b.get "type") "fixed" = type := by
  rw [h.type_eq]
  exact lowered_blockType type h.type_mem

variable (currency region field overage) in
/-- Once type and interval are read, the branch of the type is left. -/
theorem evaluateBlock_eq (inputs : Dict) {b : Dict} {type : Text} (h : IsBlock b type) :
    ∃ i, evaluateBlock overage b inputs currency region field =
      evaluateTyped overage type i b inputs currency region field := by
  obtain ⟨i, hi, hinterval⟩ := h.interval
  refine ⟨i, ?_⟩
  unfold evaluateBlock
  rw [h.lowered_eq, hinterval, normalizeInterval_interval i hi]
  rfl

theorem points_succeed {b inputs : Dict} {type : Text} (h : IsBlock b type) (htype : type ∈ pointTypes)
    (hpriced : Priced currency region b) :
    Succeeds (evaluateBlock overage b inputs currency region field) ↔ evaluable inputs b = true := by
  obtain ⟨i, heq⟩ := evaluateBlock_eq currency region field overage inputs h
  obtain ⟨price, hprice⟩ := hpriced.resolve field
  rw [heq]
  unfold evaluable
  rw [h.lowered_eq]
  simp only [pointTypes, List.mem_cons, List.not_mem_nil, or_false] at htype
  rcases htype with rfl | rfl | rfl
  · exact iff_of_true (succeeds_bind.mpr ⟨price, hprice, succeeds_ok _⟩) rfl
  · show Succeeds (getUnitsValue b inputs >>= _) ↔ (inputAmount inputs (unitsInput b)).isSome = true
    rw [succeeds_bind, Option.isSome_iff_exists]
    refine exists_congr fun q => ?_
    rw [← inputNumber_eq_ok inputs]
    exact ⟨And.left, fun hq => ⟨hq, succeeds_bind.mpr ⟨price, hprice, succeeds_ok _⟩⟩⟩
  · exact iff_of_true (succeeds_bind.mpr ⟨price, hprice, succeeds_ok _⟩) rfl

theorem tiers_succeed {b inputs : Dict} (h : IsBlock b "tiered_per_unit")
    (hpriced : ∀ tier ∈ asList (b.get "tiers"), Priced currency region (asMapping tier)) :
    Succeeds (evaluateBlock overage b inputs currency region field) ↔ evaluable inputs b = true := by
  obtain ⟨i, heq⟩ := evaluateBlock_eq currency region field overage inputs h
  rw [heq]
  unfold evaluable
  rw [h.lowered_eq]
  show Succeeds (getUnitsValue b inputs >>= _) ↔ (inputAmount inputs (unitsInput b)).isSome = true
  rw [succeeds_bind, Option.isSome_iff_exists]
  refine exists_congr fun q => ?_
  rw [← inputNumber_eq_ok inputs]
  refine ⟨And.left, fun hq => ⟨hq, ?_⟩⟩
  obtain ⟨usage, husage⟩ := progressiveTiers_succeeds hpriced
  exact succeeds_bind.mpr ⟨usage, husage, succeeds_ok _⟩

theorem bands_succeed {b inputs : Dict} (h : IsBlock b "volume_per_unit")
    (hpriced : ∀ band ∈ asList (b.get "bands"), Priced currency region (asMapping band)) :
    Succeeds (evaluateBlock overage b inputs currency region field) ↔ evaluable inputs b = true := by
  obtain ⟨i, heq⟩ := evaluateBlock_eq currency region field overage inputs h
  rw [heq]
  unfold evaluable
  rw [h.lowered_eq]
  show Succeeds (getUnitsValue b inputs >>= _) ↔
    (inputAmount inputs (unitsInput b)).any (covers (asList (b.get "bands"))) = true
  rw [succeeds_bind, Option.any_eq_true]
  refine exists_congr fun q => ?_
  rw [← inputNumber_eq_ok inputs, ← volumeBands_succeeds hpriced (field ++ ".bands") 0]
  refine and_congr_right fun _ => ?_
  rw [succeeds_bind]
  exact ⟨fun ⟨a, ha, _⟩ => ⟨a, ha⟩, fun ⟨a, ha⟩ => ⟨a, ha, succeeds_ok _⟩⟩

/-- **A flat block whose points are priced is evaluated exactly when it is evaluable.** -/
theorem flat_succeeds {b inputs : Dict} {type : Text} (h : IsBlock b type)
    (hflat : type ≠ "bundle".toList) (hpriced : ∀ point ∈ flatPoints b, Priced currency region point) :
    Succeeds (evaluateBlock overage b inputs currency region field) ↔ evaluable inputs b = true := by
  unfold flatPoints at hpriced
  rw [h.lowered_eq] at hpriced
  by_cases hpoint : type ∈ pointTypes
  · rw [if_pos hpoint] at hpriced
    exact points_succeed h hpoint (hpriced b (List.mem_singleton.mpr rfl))
  · rw [if_neg hpoint] at hpriced
    have hmem := h.type_mem
    simp only [blockTypes, List.mem_cons, List.not_mem_nil, or_false] at hmem
    have hof {t : Text} (ht : t ∈ pointTypes) (heq : type = t) : False := hpoint (heq ▸ ht)
    rcases hmem with heq | heq | heq | rfl | rfl | heq | rfl | rfl
    · exact (hof (by decide) heq).elim
    · exact (hof (by decide) heq).elim
    · exact (hof (by decide) heq).elim
    · exact tiers_succeed h fun tier htier =>
        hpriced _ (by rw [if_pos rfl]; exact List.mem_map.mpr ⟨tier, htier, rfl⟩)
    · exact bands_succeed h fun band hband =>
        hpriced _ (by rw [if_neg (by decide), if_pos rfl]; exact List.mem_map.mpr ⟨band, hband, rfl⟩)
    · exact absurd heq hflat
    · obtain ⟨i, heq⟩ := evaluateBlock_eq currency region field overage inputs h
      rw [heq]
      unfold evaluable
      rw [h.lowered_eq]
      refine iff_of_false not_succeeds_invalid ?_
      rw [if_neg (by decide), if_neg (by decide), if_neg (by decide)]
      decide
    · obtain ⟨i, heq⟩ := evaluateBlock_eq currency region field overage inputs h
      rw [heq]
      unfold evaluable
      rw [h.lowered_eq]
      refine iff_of_true (succeeds_ok _) ?_
      rw [if_neg (by decide), if_neg (by decide), if_neg (by decide)]
      decide

/-! ### The copy whose units are replaced -/

theorem IsBlock.withUnits {b : Dict} {type : Text} (h : IsBlock b type) (units : Option Text) :
    IsBlock (withUnits units b) type := by
  cases units with
  | none => exact h
  | some inputId => exact h.set (by decide) (by decide)

theorem get_withUnits {b : Dict} {units : Option Text} {key : Text} (hne : key ≠ "input_id".toList) :
    (withUnits units b).get key = b.get key := by
  cases units with
  | none => rfl
  | some inputId => exact Dict.get_set_of_ne _ hne

theorem priceAt_withUnits {b : Dict} {units : Option Text} :
    priceAt (withUnits units b) currency region = priceAt b currency region := by
  unfold priceAt
  rw [get_withUnits (by decide), get_withUnits (by decide)]

theorem flatPoints_withUnits {b : Dict} {units : Option Text}
    (h : ∀ point ∈ flatPoints b, Priced currency region point) :
    ∀ point ∈ flatPoints (withUnits units b), Priced currency region point := by
  unfold flatPoints at h ⊢
  rw [get_withUnits (by decide), get_withUnits (by decide), get_withUnits (by decide)]
  dsimp only at h ⊢
  split
  · rename_i hpoint
    rw [if_pos hpoint] at h
    intro point hmem
    rw [List.mem_singleton.mp hmem]
    unfold Priced
    rw [priceAt_withUnits]
    exact h b (List.mem_singleton.mpr rfl)
  · rename_i hpoint
    rw [if_neg hpoint] at h
    exact h

theorem inputAmount_set {inputs : Dict} {key : Text} {q : ℚ} (hq : 0 ≤ q) :
    inputAmount (inputs.set key (.float q)) key = some q := by
  unfold inputAmount
  rw [Dict.find_set_self]
  exact if_pos (decide_eq_true hq)

theorem unitsInput_withUnits {b : Dict} {key : Text} (hstrip : strip key = key) (hne : key ≠ []) :
    unitsInput (withUnits (some key) b) = key := by
  show orElse (asStr ((b.set "input_id" (.str key)).get "input_id")) _ = key
  rw [Dict.get_set_self, asStr_str, hstrip, orElse, orNone_of_ne hne]
  rfl

/-- What counts the units it is given is evaluable, unless volume bands end below them. -/
theorem evaluable_withUnits (inputs : Dict) {b : Dict} {type key : Text} {q : ℚ} (h : IsBlock b type)
    (hbundle : type ≠ "bundle".toList) (hfactor : type ≠ "factor".toList)
    (hstrip : strip key = key) (hne : key ≠ []) (hq : 0 ≤ q) :
    evaluable (inputs.set key (.float q)) (withUnits (some key) b) = true ↔
      (type = "volume_per_unit".toList → covers (asList (b.get "bands")) q = true) := by
  unfold evaluable
  rw [(h.withUnits _).lowered_eq, unitsInput_withUnits hstrip hne, inputAmount_set hq,
    get_withUnits (by decide)]
  dsimp only
  split
  · rename_i htype
    refine iff_of_true rfl fun hvolume => ?_
    rw [hvolume] at htype
    exact absurd htype (by decide)
  · split
    · rename_i hvolume
      exact ⟨fun h _ => h, fun h => h hvolume⟩
    · rename_i hvolume
      rw [decide_eq_true_eq]
      exact iff_of_true hfactor fun h => absurd h hvolume

/-! ### Bundles -/

theorem evaluateOverage_eq {items : Dict} {v : Val} (h : items.find "overage" = some v)
    (inputs : Dict) (field : String) : evaluateOverage currency region items inputs field =
      evaluatePricing currency region v (some overageUnits) inputs field := by
  induction items with
  | nil => cases h
  | cons item items ih =>
    obtain ⟨key, value⟩ := item
    rw [Dict.find_cons] at h
    rw [evaluateOverage]
    by_cases hkey : isKey "overage" key = true
    · rw [if_pos hkey] at h ⊢
      cases h
      rfl
    · rw [if_neg hkey] at h ⊢
      exact ih h

/-- The free units of a bundle are an amount, 0 when there are none. -/
theorem IsAmounts.free {m : Dict} (h : IsAmounts m) (key : Text) :
    toNumber ((m.find key).getD (.int 0)) field = .ok (((m.find key).bind asAmount).getD 0) := by
  rw [toNumber_eq_ok]
  cases hfind : m.find key with
  | none => decide
  | some v =>
    obtain ⟨q, rfl, hq⟩ := h.find hfind
    have hamount : asAmount (.float q) = some q := if_pos (decide_eq_true hq)
    show asAmount (.float q) = some ((asAmount (.float q)).getD 0)
    rw [hamount]
    rfl

theorem overage_succeeds (inputs : Dict) (field : String) {b o : Dict} {type : Text} {q : ℚ}
    (ho : b.find "overage" = some (.dict o))
    (hblock : IsBlock o type) (htype : type ∈ overageTypes)
    (hpriced : ∀ point ∈ flatPoints o, Priced currency region point) (hq : 0 ≤ q) :
    Succeeds (evaluateOverage currency region b (inputs.set overageUnits (.float q)) field) ↔
      (type = "volume_per_unit".toList → covers (asList (o.get "bands")) q = true) := by
  have hne : ∀ t ∈ overageTypes, t ≠ "bundle".toList ∧ t ≠ "factor".toList := by decide
  rw [evaluateOverage_eq ho, evaluatePricing, flat_succeeds (hblock.withUnits _) (hne type htype).1
    (flatPoints_withUnits hpriced)]
  exact evaluable_withUnits inputs hblock (hne type htype).1 (hne type htype).2 (by decide) (by decide) hq

/-- What a block of no custom type is evaluated to has an amount. -/
theorem amount_of_flat {b inputs : Dict} {type : Text} {e : Evaluated} (h : IsBlock b type)
    (hcustom : type ≠ "custom".toList) (hbundle : type ≠ "bundle".toList)
    (he : evaluateBlock overage b inputs currency region field = .ok e) :
    ∃ amount, e.amount = some amount := by
  obtain ⟨i, heq⟩ := evaluateBlock_eq currency region field overage inputs h
  rw [heq] at he
  rcases evaluateTyped_ok he with ⟨htype, -⟩ | ⟨-, amount, -, rfl⟩ | ⟨-, quantity, price, -, -, rfl⟩ |
    ⟨-, quantity, usage, -, -, rfl⟩ | ⟨-, quantity, usage, -, -, rfl⟩ | ⟨htype, -⟩
  · exact absurd htype hcustom
  · exact ⟨amount, rfl⟩
  · exact ⟨quantity * price, rfl⟩
  · exact ⟨usage, rfl⟩
  · exact ⟨usage, rfl⟩
  · exact absurd htype hbundle

/-- The end of a bundle, once the excess is known. -/
theorem bundleEnd_succeeds {b o inputs : Dict} {type : Text} {base x : ℚ} {interval : Text}
    (ho : b.find "overage" = some (.dict o)) (hblock : IsBlock o type) (htype : type ∈ overageTypes)
    (hpriced : ∀ point ∈ flatPoints o, Priced currency region point) {message : String} :
    Succeeds (if 0 < x then (do
        let nested ← evaluateOverage currency region b (inputs.set overageUnits (.float x)) field
        match nested.amount with
        | none => invalid message
        | some usage => pure ⟨interval, some (base + usage), base, usage⟩)
      else pure ⟨interval, some (base + 0), base, 0⟩ : Checked Evaluated) ↔
      (x ≤ 0 ∨ (type = "volume_per_unit".toList → covers (asList (o.get "bands")) x = true)) := by
  by_cases hx : 0 < x
  · rw [if_pos hx, succeeds_bind, ← overage_succeeds inputs field ho hblock
      htype hpriced hx.le, or_iff_right (not_le.mpr hx)]
    refine ⟨fun ⟨nested, hnested, _⟩ => ⟨nested, hnested⟩, fun ⟨nested, hnested⟩ => ⟨nested, hnested, ?_⟩⟩
    have hne : ∀ t ∈ overageTypes, t ≠ "custom".toList ∧ t ≠ "bundle".toList := by decide
    rw [evaluateOverage_eq ho, evaluatePricing] at hnested
    obtain ⟨amount, hamount⟩ := amount_of_flat (hblock.withUnits _) (hne type htype).1
      (hne type htype).2 hnested
    rw [hamount]
    exact succeeds_ok _
  · rw [if_neg hx]
    exact iff_of_true (succeeds_ok _) (Or.inl (not_lt.mp hx))

theorem bundle_succeeds {b inputs : Dict} (h : IsBlock b "bundle") (hbundle : IsBundle b)
    (hpriced : ∀ point ∈ pricePoints b, Priced currency region point) :
    Succeeds (evaluateBlock (evaluateOverage currency region b) b inputs currency region field) ↔
      evaluable inputs b = true := by
  obtain ⟨i, heq⟩ := evaluateBlock_eq currency region field
        (evaluateOverage currency region b) inputs h
  obtain ⟨m, hm, hamounts⟩ := hbundle.included
  obtain ⟨o, type, ho, hblock, htype⟩ := hbundle.overage
  have hget : b.get "overage" = .dict o := by rw [Dict.get, ho]; rfl
  rw [pricePoints, h.lowered_eq, if_pos rfl, hget] at hpriced
  obtain ⟨price, hprice⟩ := (hpriced _ List.mem_cons_self).resolve (field ++ ".base")
  have hflat := fun point hpoint => hpriced point (List.mem_cons_of_mem _ hpoint)
  rw [heq]
  unfold evaluable
  rw [h.lowered_eq, if_neg (by decide), if_neg (by decide), if_pos rfl]
  show Succeeds (evaluateBundle _ b inputs currency region field i) ↔ _
  unfold evaluateBundle
  rw [hget, hm, succeeds_bind, Option.any_eq_true]
  have hcovers (qty : ℚ) : overageCovers b qty = true ↔ (excess b qty ≤ 0 ∨
      (type = "volume_per_unit".toList → covers (asList (Dict.get o "bands")) (excess b qty) = true)) := by
    unfold overageCovers
    rw [hget, Bool.or_eq_true, Bool.or_eq_true, decide_eq_true_eq, decide_eq_true_eq, or_assoc,
      imp_iff_not_or]
    show (_ ∨ lowered (Dict.get o "type") "fixed" ≠ _ ∨ _) ↔ _
    rw [hblock.lowered_eq]
    exact Iff.rfl
  have hexcess (qty : ℚ) : excess b qty = max 0 (qty -
      ((Dict.find m (bundleUnit o m)).bind asAmount).getD 0) := by
    unfold excess
    rw [hget, hm]
    rfl
  constructor
  · rintro ⟨base, -, h⟩
    obtain ⟨qty, hqty, h⟩ := succeeds_bind.mp h
    obtain ⟨free, hfree, h⟩ := succeeds_bind.mp h
    refine ⟨qty, (inputNumber_eq_ok inputs).mp hqty, (hcovers qty).mpr ?_⟩
    -- the free units always are a number, so they are the amount that is looked up
    have hfree : free = ((Dict.find m (bundleUnit o m)).bind asAmount).getD 0 :=
      Except.ok.inj (hfree.symm.trans (hamounts.free _))
    rw [hexcess qty, ← hfree]
    exact (bundleEnd_succeeds ho hblock htype hflat).mp h
  · rintro ⟨qty, hqty, hcov⟩
    refine ⟨price, hprice, succeeds_bind.mpr ⟨qty, (inputNumber_eq_ok inputs).mpr hqty,
      succeeds_bind.mpr ⟨_, hamounts.free _, ?_⟩⟩⟩
    refine (bundleEnd_succeeds ho hblock htype hflat).mpr ?_
    have := (hcovers qty).mp hcov
    rw [hexcess qty] at this
    exact this

/-- **A plan's block with all its points priced is evaluated exactly when it is evaluable.** -/
theorem evaluatePricing_succeeds (field : String) {b inputs : Dict} {type : Text} (h : IsBlock b type)
    (hparts : HasParts b type) (hpriced : ∀ point ∈ pricePoints b, Priced currency region point) :
    Succeeds (evaluatePricing currency region (.dict b) none inputs field) ↔
      evaluable inputs b = true := by
  rw [evaluatePricing]
  by_cases hbundle : type = "bundle".toList
  · subst hbundle
    exact bundle_succeeds h (hparts.bundle rfl) hpriced
  · refine flat_succeeds h hbundle ?_
    rw [pricePoints, h.lowered_eq, if_neg hbundle] at hpriced
    exact hpriced

end Evaluator

/-! ## The inputs -/

section Inputs

theorem any_lt_eq_not_all {o : Option ℚ} {q : ℚ} : o.any (q < ·) = !o.all (· ≤ q) := by
  cases o with
  | none => rfl
  | some p => by_cases h : p ≤ q <;> simp [h, not_lt.mpr, not_le.mp]

theorem any_gt_eq_not_all {o : Option ℚ} {q : ℚ} : o.any (· < q) = !o.all (q ≤ ·) := by
  cases o with
  | none => rfl
  | some p => by_cases h : q ≤ p <;> simp [h, not_lt.mpr, not_le.mp]

/-- Without a value from the client an input has its default, if that is in range. -/
theorem resolveInput_eq_ok {spec : Dict} (h : IsSpec spec) {v : Val} :
    resolveInput spec [] = .ok v ↔ inRange spec = true ∧ v = spec.get "default" := by
  show resolveValue spec (spec.get "default") = .ok v ↔ _
  unfold resolveValue inRange
  cases h with
  | number q htype hdefault hq =>
    have hbound : bound spec "default" = some q := by rw [bound, hdefault]; rfl
    rw [htype, hdefault, hbound, if_pos (by decide), toNumber_float hq]
    show (if _ then _ else if _ then _ else _) = _ ↔ (decide (asStr (.str _) ≠ _) || _) = true ∧ _
    rw [any_lt_eq_not_all, any_gt_eq_not_all, Option.all_some]
    rw [show decide (asStr (.str "number".toList) ≠ "number".toList) = false by decide, Bool.false_or]
    cases hmin : (bound spec "min").all (· ≤ q) with
    | false => simp [invalid]
    | true =>
      cases hmax : (bound spec "max").all (q ≤ ·) with
      | false => simp [invalid]
      | true => simp [pure, Except.pure, eq_comm]
  | boolean b htype hdefault =>
    rw [htype, hdefault, if_neg (by decide), if_pos (by decide)]
    rw [show decide (asStr (.str "boolean".toList) ≠ "number".toList) = true by decide, Bool.true_or]
    simp [Val.truth, eq_comm]
  | enum t options htype hdefault hoptions hmem hstrip =>
    rw [htype, hdefault, hoptions, if_neg (by decide), if_neg (by decide)]
    rw [show decide (asStr (.str "enum".toList) ≠ "number".toList) = true by decide, Bool.true_or]
    have hread : asStr (.str t) = t := by rw [asStr_str, hstrip t hmem]
    have hallowed : (asList (.list (options.map .str))).map asStr = options := by
      show (options.map Val.str).map asStr = options
      rw [List.map_map]
      refine (List.map_congr_left fun option hoption => ?_).trans (List.map_id options)
      exact (asStr_str option).trans (hstrip option hoption)
    dsimp only
    rw [hread, hallowed, if_pos hmem]
    simp [eq_comm]

theorem resolveInputs_eq_ok {specs : List Dict} (h : ∀ spec ∈ specs, IsSpec spec)
    {resolved out : Dict} : resolveInputs [] resolved specs = .ok out ↔
      (∀ spec ∈ specs, inRange spec = true) ∧ out = specs.foldl
        (fun inputs spec => inputs.set (asStr (spec.get "id")) (spec.get "default")) resolved := by
  induction specs generalizing resolved with
  | nil =>
    constructor
    · intro hok
      cases hok
      exact ⟨fun _ hmem => absurd hmem List.not_mem_nil, rfl⟩
    · rintro ⟨-, rfl⟩
      rfl
  | cons spec specs ih =>
    have hfirst := h spec List.mem_cons_self
    have hrest := fun spec hspec => h spec (List.mem_cons_of_mem _ hspec)
    rw [resolveInputs, List.forall_mem_cons, List.foldl_cons]
    constructor
    · intro hok
      obtain ⟨v, hv, hok⟩ := bind_ok hok
      obtain ⟨hin, rfl⟩ := (resolveInput_eq_ok hfirst).mp hv
      obtain ⟨hins, hout⟩ := (ih hrest).mp hok
      exact ⟨⟨hin, hins⟩, hout⟩
    · rintro ⟨⟨hin, hins⟩, hout⟩
      rw [(resolveInput_eq_ok hfirst).mpr ⟨hin, rfl⟩]
      exact (ih hrest).mpr ⟨hins, hout⟩

theorem resolveInputs_succeeds {specs : List Dict} (h : ∀ spec ∈ specs, IsSpec spec) {out : Dict} :
    resolveInputs [] [] specs = .ok out ↔
      (∀ spec ∈ specs, inRange spec = true) ∧ out = defaults specs := resolveInputs_eq_ok h

theorem putMany_isSpec {plan specs : Dict} {items : Val}
    (hspecs : ∀ item ∈ specs, IsSpec (asMapping item.2)) (hitems : All IsSpec items) :
    ∀ item ∈ putMany plan specs items, IsSpec (asMapping item.2) := by
  unfold putMany
  unfold All at hitems
  generalize asList items = entries at hitems ⊢
  induction entries generalizing specs with
  | nil => exact hspecs
  | cons raw rest ih =>
    rw [List.foldl_cons]
    refine ih ?_ fun item hitem => hitems item (List.mem_cons_of_mem _ hitem)
    dsimp only
    split
    · exact hspecs
    · intro item hitem
      rcases Dict.mem_of_mem_set hitem with hitem | rfl
      · exact hspecs item hitem
      · obtain ⟨m, rfl, hm⟩ := hitems raw List.mem_cons_self
        exact hm

theorem resolveInputSpecs_isSpec {pricing offering plan : Dict}
    (hpricing : All IsSpec (pricing.get "inputs")) (hoffering : All IsSpec (offering.get "inputs"))
    (hplan : All IsSpec (plan.get "inputs")) :
    ∀ spec ∈ resolveInputSpecs pricing offering plan, IsSpec spec := by
  intro spec hspec
  obtain ⟨item, hitem, rfl⟩ := List.mem_map.mp hspec
  refine putMany_isSpec (putMany_isSpec (putMany_isSpec ?_ hpricing) hoffering) hplan item hitem
  intro item hitem
  cases hitem

end Inputs

/-! ## Add-ons, factors, minimum and fee -/

section Loops

variable {currency region : Text} {inputs : Dict}

theorem addonInput_eq {addon : Dict} (hid : asStr (addon.get "id") ≠ []) (index : Nat) :
    addonInput addon index = addonInput addon 0 := by
  unfold addonInput
  rw [orElse, orElse, orElse, orElse, orNone_of_ne hid]
  rfl

theorem addonQuantity_succeeds {addon : Dict} (hid : asStr (addon.get "id") ≠ []) (index : Nat) :
    Succeeds (addonQuantity addon inputs index) ↔ countable inputs addon = true := by
  unfold addonQuantity countable
  rw [addonInput_eq hid]
  dsimp only
  have hnumber (v : Val) (field : String) : Succeeds (toNumber v field) ↔ (asAmount v).isSome = true := by
    rw [Option.isSome_iff_exists]
    exact exists_congr fun q => toNumber_eq_ok
  generalize (inputs.find (addonInput addon 0)).getD _ = v
  cases v with
  | bool taken => exact iff_of_true (succeeds_ok _) rfl
  | none | int | float | str | list | dict | other => exact hnumber _ _

variable (inputs) in
theorem addonAmount_succeeds {addon : Dict} (h : IsAddon addon)
    (hpriced : ∀ point ∈ flatPoints addon, Priced currency region point) (index : Nat) (quantity : ℚ) :
    Succeeds (addonAmount currency region addon inputs index quantity) := by
  obtain ⟨type, htype, hblock⟩ := h.block
  have hpoint : Priced currency region addon := hpriced addon (by
    unfold flatPoints
    rw [hblock.lowered_eq, if_pos htype]
    exact List.mem_singleton.mpr rfl)
  have hne : ∀ t ∈ pointTypes, t ≠ "bundle".toList ∧ t ≠ "factor".toList ∧
    t ≠ "volume_per_unit".toList := by decide
  unfold addonAmount
  split
  · exact succeeds_ok _
  · rename_i hpos
    split
    · obtain ⟨price, hprice⟩ := hpoint.resolve ("addons[" ++ Nat.repr index ++ "]")
      exact succeeds_bind.mpr ⟨price, hprice, succeeds_ok _⟩
    · obtain ⟨hbundle, hfactor, hvolume⟩ := hne type htype
      have heval := (evaluable_withUnits inputs hblock hbundle hfactor
        (show strip addonUnits = addonUnits by decide) (by decide) (not_le.mp hpos).le).mpr
          fun h => absurd h hvolume
      obtain ⟨quoted, hquoted⟩ := (flat_succeeds (hblock.withUnits _) hbundle
        (flatPoints_withUnits hpriced)).mpr heval
      exact succeeds_bind.mpr ⟨quoted, by rw [evaluatePricing]; exact hquoted, succeeds_ok _⟩

theorem addAddons_succeeds {addons : List Val} (haddons : All IsAddon (.list addons))
    (hpriced : ∀ addon ∈ addons, ∀ point ∈ flatPoints (asMapping addon), Priced currency region point)
    (index : Nat) (sum subtotal : ℚ) :
    Succeeds (addAddons currency region inputs index addons sum subtotal) ↔
      ∀ addon ∈ addons, countable inputs (asMapping addon) = true := by
  induction addons generalizing index sum subtotal with
  | nil => exact iff_of_true (succeeds_ok _) (fun _ hmem => absurd hmem List.not_mem_nil)
  | cons raw rest ih =>
    obtain ⟨addon, hraw, haddon⟩ := haddons _ List.mem_cons_self
    replace haddon : IsAddon (asMapping raw) := by rw [hraw]; exact haddon
    have hrest : All IsAddon (.list rest) := fun item hitem =>
      haddons item (List.mem_cons_of_mem _ hitem)
    have hrestPriced := fun addon hmem => hpriced addon (List.mem_cons_of_mem _ hmem)
    rw [addAddons, succeeds_bind, List.forall_mem_cons]
    constructor
    · rintro ⟨quantity, hquantity, h⟩
      obtain ⟨amount, -, h⟩ := succeeds_bind.mp h
      exact ⟨(addonQuantity_succeeds haddon.id index).mp ⟨quantity, hquantity⟩,
        (ih hrest hrestPriced _ _ _).mp h⟩
    · rintro ⟨hfirst, hothers⟩
      obtain ⟨quantity, hquantity⟩ := (addonQuantity_succeeds haddon.id index).mpr hfirst
      obtain ⟨amount, hamount⟩ := addonAmount_succeeds inputs haddon
        (hpriced _ List.mem_cons_self) index quantity
      exact ⟨quantity, hquantity, succeeds_bind.mpr ⟨amount, hamount,
        (ih hrest hrestPriced _ _ _).mpr hothers⟩⟩

theorem factorMultiplier_succeeds {factor : Dict} (h : IsFactor factor) (index : Nat) :
    Succeeds (factorMultiplier factor inputs index) ↔ optionKnown inputs factor = true := by
  obtain ⟨m, hm, hamounts⟩ := h
  unfold factorMultiplier optionKnown
  rw [hm]
  generalize asStr (factor.get "input_id") = inputId
  dsimp only [asMapping]
  generalize asStr ((inputs.find inputId).getD (factor.get "default")) = option
  by_cases hid : inputId = []
  · rw [if_pos hid]
    exact iff_of_true (succeeds_ok _) (by rw [hid]; rfl)
  · rw [if_neg hid, Bool.or_eq_true, decide_eq_true_eq, or_iff_right hid]
    cases hfind : Dict.find m option with
    | none =>
      have hhas : Dict.has m option = false := by rw [Dict.has, hfind]; rfl
      rw [hhas]
      exact iff_of_false not_succeeds_invalid (by decide)
    | some v =>
      have hhas : Dict.has m option = true := by rw [Dict.has, hfind]; rfl
      obtain ⟨q, rfl, hq⟩ := hamounts.find hfind
      rw [hhas, if_pos rfl, Dict.get, hfind, Option.getD_some, toNumber_float hq]
      exact iff_of_true (succeeds_ok _) rfl

theorem applyFactors_succeeds {factors : List Val} (hfactors : All IsFactor (.list factors))
    (index : Nat) (subtotal delta : ℚ) : Succeeds (applyFactors inputs index factors subtotal delta) ↔
      ∀ factor ∈ factors, optionKnown inputs (asMapping factor) = true := by
  induction factors generalizing index subtotal delta with
  | nil => exact iff_of_true (succeeds_ok _) (fun _ hmem => absurd hmem List.not_mem_nil)
  | cons raw rest ih =>
    obtain ⟨factor, hraw, hfactor⟩ := hfactors _ List.mem_cons_self
    replace hfactor : IsFactor (asMapping raw) := by rw [hraw]; exact hfactor
    have hrest : All IsFactor (.list rest) := fun item hitem =>
      hfactors item (List.mem_cons_of_mem _ hitem)
    rw [applyFactors, succeeds_bind, List.forall_mem_cons, ← factorMultiplier_succeeds hfactor index]
    constructor
    · rintro ⟨multiplier, hmultiplier, h⟩
      refine ⟨⟨multiplier, hmultiplier⟩, ?_⟩
      cases multiplier with
      | none => exact (ih hrest _ _ _).mp h
      | some multiplier => exact (ih hrest _ _ _).mp h
    · rintro ⟨⟨multiplier, hmultiplier⟩, h⟩
      refine ⟨multiplier, hmultiplier, ?_⟩
      cases multiplier with
      | none => exact (ih hrest _ _ _).mpr h
      | some multiplier => exact (ih hrest _ _ _).mpr h

theorem minimumAmount_succeeds {plan : Dict} (h : IsPlan plan)
    (hpriced : ∀ point ∈ optionalPoints (plan.get "minimum_commit"), Priced currency region point) :
    ∃ minimum, minimumAmount plan currency region = .ok minimum := by
  have hminimum := h.minimum
  unfold minimumAmount
  unfold optionalPoints at hpriced
  cases hm : asMapping (plan.get "minimum_commit") with
  | nil => exact ⟨none, rfl⟩
  | cons item items =>
    rw [hm] at hminimum hpriced
    obtain ⟨type, htype, hblock⟩ := hminimum (by simp)
    have hne : ∀ t ∈ pointTypes, t ≠ "bundle".toList := by decide
    obtain ⟨price, hprice⟩ := Priced.resolve (hpriced (item :: items) (by
      dsimp only [pricePoints, flatPoints]
      rw [hblock.lowered_eq, if_neg (hne type htype), if_pos htype]
      exact List.mem_singleton.mpr rfl)) "minimum_commit"
    exact ⟨some price, by dsimp only; rw [hprice]; rfl⟩

theorem setupFeeAmount_succeeds {plan : Dict} {included : Bool} :
    Succeeds (setupFeeAmount plan currency region included) ↔
      (included = true → feePriced plan currency region = true) := by
  unfold setupFeeAmount feePriced
  cases included with
  | false => exact iff_of_true (succeeds_ok _) (fun h => by cases h)
  | true =>
    rw [eq_self, forall_true_left]
    cases asMapping (plan.get "setup_fee") with
    | nil => exact iff_of_true (succeeds_ok _) rfl
    | cons item items =>
      dsimp only
      rw [Option.isSome_iff_exists]
      exact exists_congr fun q => resolveAmount_eq_ok

end Loops

/-! ## The quote -/

section Quotable

variable {currency region : Text}

theorem quotePriced_succeeds {plan inputs : Dict} {included : Bool} {main : Evaluated} {amount : ℚ}
    (h : IsPlan plan) (hpriced : ∀ point ∈ planPoints plan, Priced currency region point) :
    Succeeds (quotePriced plan inputs currency region included main amount) ↔
      (∀ addon ∈ asList (plan.get "addons"), countable inputs (asMapping addon) = true) ∧
      (∀ factor ∈ asList (plan.get "factors"), optionKnown inputs (asMapping factor) = true) ∧
      (included = true → feePriced plan currency region = true) := by
  unfold planPoints at hpriced
  have haddons := fun addon hmem point hpoint => hpriced point
    (List.mem_append_left _ (List.mem_append_left _ (List.mem_append_right _
      (List.mem_flatMap.mpr ⟨addon, hmem, hpoint⟩))))
  obtain ⟨minimum, hminimum⟩ := minimumAmount_succeeds h fun point hpoint =>
    hpriced point (List.mem_append_left _ (List.mem_append_right _ hpoint))
  have haddon : All IsAddon (.list (asList (plan.get "addons"))) := h.addons
  have hfactor : All IsFactor (.list (asList (plan.get "factors"))) := h.factors
  rw [← addAddons_succeeds haddon haddons 0 0 amount]
  unfold quotePriced
  rw [succeeds_bind]
  constructor
  · rintro ⟨⟨addons, subtotal⟩, hadd, hq⟩
    obtain ⟨⟨subtotal', factors⟩, hfactors, hq⟩ := succeeds_bind.mp hq
    obtain ⟨minimum', -, hq⟩ := succeeds_bind.mp hq
    obtain ⟨fee, hfee, -⟩ := succeeds_bind.mp hq
    exact ⟨⟨_, hadd⟩, (applyFactors_succeeds hfactor 0 subtotal 0).mp ⟨_, hfactors⟩,
      setupFeeAmount_succeeds.mp ⟨fee, hfee⟩⟩
  · rintro ⟨⟨⟨addons, subtotal⟩, hadd⟩, hfactors, hfee⟩
    obtain ⟨⟨subtotal', factors⟩, hfactors⟩ :=
      (applyFactors_succeeds hfactor 0 subtotal 0).mpr hfactors
    obtain ⟨fee, hfee⟩ := setupFeeAmount_succeeds.mpr hfee
    exact ⟨_, hadd, succeeds_bind.mpr ⟨_, hfactors, succeeds_bind.mpr ⟨minimum, hminimum,
      succeeds_bind.mpr ⟨fee, hfee, succeeds_ok _⟩⟩⟩⟩

theorem lower_strip_region : ∀ r ∈ regions, lower (strip r) = r ∧ r ≠ [] := by decide

/-- A custom plan has no amount, and only a custom plan. -/
theorem amount_eq_none {b inputs : Dict} {type : Text} {e : Evaluated} (h : IsBlock b type)
    {field : String} (he : evaluatePricing currency region (.dict b) none inputs field = .ok e) :
    e.amount = none ↔ type = "custom".toList := by
  rw [evaluatePricing] at he
  by_cases hcustom : type = "custom".toList
  · obtain ⟨i, heq⟩ := evaluateBlock_eq currency region field
        (evaluateOverage currency region b) inputs h
    have he' : evaluateTyped (evaluateOverage currency region b) type i b inputs currency region
        field = .ok e := heq.symm.trans he
    rw [hcustom] at he'
    cases he'
    exact iff_of_true rfl hcustom
  · refine iff_of_false (fun hnone => ?_) hcustom
    by_cases hbundle : type = "bundle".toList
    · obtain ⟨i, heq⟩ := evaluateBlock_eq currency region field
        (evaluateOverage currency region b) inputs h
      have he' : evaluateTyped (evaluateOverage currency region b) type i b inputs currency region
          field = .ok e := heq.symm.trans he
      rw [hbundle] at he'
      change evaluateBundle _ b inputs currency region field i = .ok e at he'
      obtain ⟨base, -, he'⟩ := bind_ok he'
      obtain ⟨quantity, -, he'⟩ := bind_ok he'
      obtain ⟨free, -, he'⟩ := bind_ok he'
      dsimp only at he'
      split at he'
      · obtain ⟨nested, -, he'⟩ := bind_ok he'
        cases hamount : nested.amount with
        | none => rw [hamount] at he'; cases he'
        | some usage => rw [hamount] at he'; cases he'; cases hnone
      · cases he'
        cases hnone
    · obtain ⟨amount, hamount⟩ := amount_of_flat h hcustom hbundle he
      rw [hamount] at hnone
      cases hnone

/-- **Which accepted price lists can be quoted.** For every plan of an accepted document,
    every currency and every supported region for which all its price points define a price,
    a quote with no inputs of the client's goes through if and only if the plan is
    `Quotable`. -/
theorem quotable_iff (doc pricing offering plan : Dict) (offeringId planId currency region : Text)
    (includeSetupFee : Bool) (hdoc : normalizePricingDoc doc = .ok pricing)
    (hoffering : findOffering pricing offeringId = .ok offering)
    (hplan : findPlan offering planId = .ok plan) (hregion : lower (strip region) ∈ regions)
    (hpriced : ∀ point ∈ planPoints plan, Priced currency (lower (strip region)) point) :
    (∃ q, quoteRolePricing pricing offeringId planId [] currency (some region) includeSetupFee =
      .ok q) ↔ Quotable (resolveInputSpecs pricing offering plan) plan currency
        (lower (strip region)) includeSetupFee := by
  obtain ⟨hinputs, hoff, hshape⟩ := plan_of_accepted hdoc hoffering hplan
  have hspecs := resolveInputSpecs_isSpec hinputs hoff.inputs hshape.inputs
  obtain ⟨b, type, hb, hblock, hparts⟩ := hshape.pricing
  have hpoints : ∀ point ∈ pricePoints b, Priced currency (lower (strip region)) point :=
    fun point hpoint => hpriced point (by
      unfold planPoints
      rw [hb]
      exact List.mem_append_left _ (List.mem_append_left _ (List.mem_append_left _ hpoint)))
  have hne : lower (strip region) ≠ [] := (lower_strip_region _ hregion).2
  have hstrip : strip region ≠ [] := by
    intro h
    rw [h] at hne
    exact hne rfl
  -- the quote, once the plan is found and the region accepted
  have hexact : exactQuote pricing offeringId planId [] currency (some region) includeSetupFee =
      (resolveInputs [] [] (resolveInputSpecs pricing offering plan) >>= fun resolved =>
        evaluatePricing currency (lower (strip region)) (.dict b) none resolved "pricing" >>=
        fun main => match main.amount with
          | none => pure ⟨none, upper (asStr (.str currency)), lower (strip region), main.interval,
              ⟨0, 0, 0, 0, 0, false, 0⟩, ["Contact sales for this plan."], resolved⟩
          | some amount => quotePriced plan resolved currency (lower (strip region))
              includeSetupFee main amount) := by
    unfold exactQuote
    rw [hoffering]
    show (findPlan offering planId >>= _) = _
    rw [hplan]
    show (if _ then _ else if _ then _ else _) = _
    have hor : orElse (lower (strip ((some region).getD []))) "global" = lower (strip region) := by
      rw [Option.getD_some, orElse, orNone_of_ne hne]
      rfl
    rw [hor, if_neg fun h => hstrip h.2, if_neg (not_not.mpr hregion), hb]
    all_goals rfl
  have hmap : (∃ q, quoteRolePricing pricing offeringId planId [] currency (some region)
      includeSetupFee = .ok q) ↔
      Succeeds (exactQuote pricing offeringId planId [] currency (some region) includeSetupFee) := by
    unfold quoteRolePricing
    cases exactQuote pricing offeringId planId [] currency (some region) includeSetupFee with
    | error e => exact iff_of_false (by rintro ⟨q, h⟩; cases h) (by rintro ⟨q, h⟩; cases h)
    | ok q => exact iff_of_true ⟨_, rfl⟩ (succeeds_ok q)
  have hcustom : lowered ((asMapping (plan.get "pricing")).get "type") "fixed" = type := by
    rw [hb]
    exact hblock.lowered_eq
  rw [hmap, hexact, succeeds_bind]
  constructor
  · rintro ⟨resolved, hresolved, h⟩
    obtain ⟨hin, rfl⟩ := (resolveInputs_succeeds hspecs).mp hresolved
    obtain ⟨main, hmain, h⟩ := succeeds_bind.mp h
    refine ⟨hin, ?_, fun hnot => ?_⟩
    · rw [hb]
      exact (evaluatePricing_succeeds "pricing" hblock hparts hpoints).mp ⟨main, hmain⟩
    · rw [hcustom] at hnot
      cases hamount : main.amount with
      | none => exact absurd ((amount_eq_none hblock hmain).mp hamount) hnot
      | some amount =>
        rw [hamount] at h
        exact (quotePriced_succeeds hshape hpriced).mp h
  · intro hquotable
    refine ⟨_, (resolveInputs_succeeds hspecs).mpr ⟨hquotable.inRange, rfl⟩, ?_⟩
    have heval := hquotable.evaluable
    rw [hb] at heval
    obtain ⟨main, hmain⟩ := (evaluatePricing_succeeds "pricing" hblock hparts hpoints).mpr
      heval
    refine succeeds_bind.mpr ⟨main, hmain, ?_⟩
    cases hamount : main.amount with
    | none => exact succeeds_ok _
    | some amount =>
      refine (quotePriced_succeeds hshape hpriced).mpr (hquotable.parts ?_)
      rw [hcustom]
      intro htype
      rw [(amount_eq_none hblock hmain).mpr htype] at hamount
      cases hamount

end Quotable

section Demo

/-- A document is accepted and all price points of its only plan define a price in euros;
    `goes` says of the normal form whether a quote goes through. -/
def isPriced (doc : Dict) (planId : Text) (goes : Dict → Dict → Dict → Bool) : Bool :=
  match normalizePricingDoc doc with
  | .error _ => false
  | .ok pricing => match findOffering pricing "o" with
    | .error _ => false
    | .ok offering => match findPlan offering planId with
      | .error _ => false
      | .ok plan =>
        decide (∀ point ∈ planPoints plan, Priced "eur" "global" point) && goes pricing offering plan

theorem exists_of_isPriced {doc : Dict} {planId : Text} {goes : Dict → Dict → Dict → Bool}
    (h : isPriced doc planId goes = true) : ∃ pricing offering plan,
      normalizePricingDoc doc = .ok pricing ∧ findOffering pricing "o" = .ok offering ∧
        findPlan offering planId = .ok plan ∧
        (∀ point ∈ planPoints plan, Priced "eur" "global" point) ∧
        goes pricing offering plan = true := by
  unfold isPriced at h
  split at h
  · cases h
  · rename_i pricing hdoc
    split at h
    · cases h
    · rename_i offering hoffering
      split at h
      · cases h
      · rename_i plan hplan
        rw [Bool.and_eq_true, decide_eq_true_eq] at h
        exact ⟨pricing, offering, plan, hdoc, hoffering, hplan, h.1, h.2⟩

/-- The rich plan can be quoted, setup fee included. -/
theorem quotable_iff_rich : ∃ pricing offering plan, normalizePricingDoc richList = .ok pricing ∧
    ((∃ q, quoteRolePricing pricing "o" "team" [] "eur" (some "global") true = .ok q) ↔
      Quotable (resolveInputSpecs pricing offering plan) plan "eur" (lower (strip "global")) true) := by
  have hrich : isPriced richList "team" (fun _ _ _ => true) = true := by decide +kernel
  obtain ⟨pricing, offering, plan, hdoc, hoffering, hplan, hpriced, -⟩ := exists_of_isPriced hrich
  exact ⟨pricing, offering, plan, hdoc, quotable_iff richList pricing offering plan "o" "team" "eur"
    "global" true hdoc hoffering hplan (by decide) hpriced⟩

/-- Five users at least, but one by default. -/
def belowMinimum : Dict :=
  priceList [.dict [entry "id" (.str "users"), entry "default" (.int 1), entry "min" (.int 5)]]
    [entry "id" (.str "team"),
      entry "pricing" (.dict [entry "type" (.str "per_unit"), entry "unit" (.str "users"), euros 3])]

/-- The quote engine refuses the default that the normalizer accepted. -/
theorem default_below_minimum : ¬ ∀ (doc pricing offering plan : Dict)
    (offeringId planId currency region : Text) (includeSetupFee : Bool),
    normalizePricingDoc doc = .ok pricing → findOffering pricing offeringId = .ok offering →
    findPlan offering planId = .ok plan → lower (strip region) ∈ regions →
    (∀ point ∈ planPoints plan, Priced currency (lower (strip region)) point) →
    ∃ q, quoteRolePricing pricing offeringId planId [] currency (some region) includeSetupFee =
      .ok q := by
  intro hclaim
  have hrefused : isPriced belowMinimum "team" (fun pricing _ _ =>
      match quoteRolePricing pricing "o" "team" [] "eur" (some "global") false with
      | .ok _ => false
      | .error _ => true) = true := by decide +kernel
  obtain ⟨pricing, offering, plan, hdoc, hoffering, hplan, hpriced, hgoes⟩ :=
    exists_of_isPriced hrefused
  obtain ⟨q, hq⟩ := hclaim belowMinimum pricing offering plan "o" "team" "eur" "global" false hdoc
    hoffering hplan (by decide) hpriced
  rw [hq] at hgoes
  cases hgoes

end Demo

end Infinito.Pricing
