import Infinito.Pricing.Accounts

/-!
# What an accepted price list looks like

The normal form, as far as the quote engine relies on it: a block has one of seven types and
a valid interval (`IsBlock`), a bundle has free units that are amounts and an overage of one
of three types (`IsBundle`), an input has a default of its type (`IsSpec`). A plan is made of
these (`IsPlan`), and every plan that can be found in an accepted document is one
(`plan_of_accepted`).
-/

set_option autoImplicit false

namespace Infinito.Pricing

open Py
open Lib (bind_ok)

/-! ## Texts that are read back -/

@[simp] theorem asStr_str (t : Text) : asStr (.str t) = strip t := by
  cases t with
  | nil => rfl
  | cons c t => rfl

def blockTypes : List Text :=
  ["fixed", "per_unit", "addon", "tiered_per_unit", "volume_per_unit", "bundle", "factor", "custom"]

theorem lowered_blockType : ∀ t ∈ blockTypes, lowered (.str t) "fixed" = t := by decide

theorem asStr_blockType : ∀ t ∈ blockTypes, asStr (.str t) = t := by decide

theorem lower_overageType : ∀ t ∈ blockTypes, lower (asStr (.str t)) = t := by decide

theorem pointTypes_subset : ∀ t ∈ pointTypes, t ∈ blockTypes := by decide

theorem normalizeInterval_interval {field : String} :
    ∀ i ∈ intervals, normalizeInterval (.str i) field "month" = .ok i := by
  intro i hi
  have hread : lowered (.str i) "month" = i := by revert i; decide
  unfold normalizeInterval
  rw [hread]
  exact if_pos hi

/-! ## Blocks -/

/-- A block as the normalizer leaves it. -/
structure IsBlock (b : Dict) (type : Text) : Prop where
  type_eq : b.get "type" = .str type
  type_mem : type ∈ blockTypes
  interval : ∃ i ∈ intervals, b.get "interval" = .str i

section Blocks

variable {field : String}

theorem normalizeInterval_mem {raw : Val} {default i : Text}
    (h : normalizeInterval raw field default = .ok i) : i ∈ intervals := by
  unfold normalizeInterval at h
  dsimp only at h
  split at h
  · cases h; assumption
  · cases h

theorem get_normalizePricePoint {raw out : Dict} {key : Text}
    (h : normalizePricePoint raw field = .ok out) (hprices : key ≠ "prices".toList)
    (hregional : key ≠ "regional_prices".toList) : out.get key = raw.get key := by
  unfold normalizePricePoint at h
  split at h
  · obtain ⟨mid, hmid, h⟩ := bind_ok h
    have hmid : mid.get key = raw.get key := by
      unfold setPrices at hmid
      split at hmid
      · obtain ⟨prices, -, hmid⟩ := bind_ok hmid
        cases hmid
        exact Dict.get_set_of_ne _ hprices
      · cases hmid; rfl
    unfold setRegionalPrices at h
    split at h
    · obtain ⟨regional, -, h⟩ := bind_ok h
      cases h
      rw [Dict.get_set_of_ne _ hregional, hmid]
    · cases h; exact hmid
  · cases h

/-- What the branches of the normalizer start from. -/
theorem isBlock_start (block : Dict) {type i : Text} (htype : type ∈ blockTypes)
    (hi : i ∈ intervals) :
    IsBlock ((block.set "type" (.str type)).set "interval" (.str i)) type where
  type_eq := by rw [Dict.get_set_of_ne _ (by decide), Dict.get_set_self]
  type_mem := htype
  interval := ⟨i, hi, Dict.get_set_self _ _ _⟩

theorem IsBlock.set {b : Dict} {type key : Text} {v : Val} (h : IsBlock b type)
    (htype : key ≠ "type".toList) (hinterval : key ≠ "interval".toList) :
    IsBlock (b.set key v) type where
  type_eq := by rw [Dict.get_set_of_ne _ htype.symm, h.type_eq]
  type_mem := h.type_mem
  interval := by
    rw [Dict.get_set_of_ne _ hinterval.symm]
    exact h.interval

theorem IsBlock.point {b out : Dict} {type : Text} (h : IsBlock b type)
    (hout : normalizePricePoint b field = .ok out) : IsBlock out type where
  type_eq := by rw [get_normalizePricePoint hout (by decide) (by decide), h.type_eq]
  type_mem := h.type_mem
  interval := by
    rw [get_normalizePricePoint hout (by decide) (by decide)]
    exact h.interval

/-- A dictionary of amounts by name. -/
def IsAmounts (m : Dict) : Prop := ∀ item ∈ m, ∃ q : ℚ, item.2 = .float q ∧ 0 ≤ q

theorem IsAmounts.find {m : Dict} (h : IsAmounts m) {key : Text} {v : Val}
    (hv : m.find key = some v) : ∃ q : ℚ, v = .float q ∧ 0 ≤ q := by
  obtain ⟨item, hitem, rfl⟩ := Dict.mem_of_find hv
  exact h item hitem

theorem numberItems_isAmounts {out items m : Dict} (hout : IsAmounts out)
    (h : numberItems field out items = .ok m) : IsAmounts m := by
  induction items generalizing out with
  | nil => cases h; exact hout
  | cons item items ih =>
    simp only [numberItems] at h
    split at h
    · exact ih hout h
    · obtain ⟨number, hnumber, h⟩ := bind_ok h
      refine ih (fun item hitem => ?_) h
      rcases Dict.mem_of_mem_set hitem with hitem | rfl
      · exact hout item hitem
      · exact ⟨number, rfl, toNumber_nonneg hnumber⟩

theorem normalizeNumbers_isAmounts {raw : Val} {m : Dict}
    (h : normalizeNumbers raw field = .ok m) : IsAmounts m := by
  unfold normalizeNumbers at h
  split at h
  · cases h
  · obtain ⟨numbers, hnumbers, h⟩ := bind_ok h
    have hamounts := numberItems_isAmounts (fun _ hitem => absurd hitem List.not_mem_nil) hnumbers
    cases numbers with
    | nil => cases h
    | cons item items => cases h; exact hamounts

/-- The parts of a bundle. -/
structure IsBundle (b : Dict) : Prop where
  included : ∃ m, b.get "included_units" = .dict m ∧ IsAmounts m
  overage : ∃ o type, b.find "overage" = some (.dict o) ∧ IsBlock o type ∧ type ∈ overageTypes

/-- The values of a factor. -/
def IsFactor (b : Dict) : Prop := ∃ m, b.get "values" = .dict m ∧ IsAmounts m

/-- What a block holds beside its type and interval. -/
structure HasParts (b : Dict) (type : Text) : Prop where
  bundle : type = "bundle".toList → IsBundle b
  factor : type = "factor".toList → IsFactor b

theorem HasParts.of_ne {b : Dict} {type : Text} (hbundle : type ≠ "bundle".toList)
    (hfactor : type ≠ "factor".toList) : HasParts b type :=
  ⟨fun h => absurd h hbundle, fun h => absurd h hfactor⟩

theorem normalizeBundle_spec {overage : String → Checked Dict} {block start out : Dict}
    (hoverage : ∀ name o, overage name = .ok o → ∃ type, IsBlock o type)
    (hstart : IsBlock start "bundle") (h : normalizeBundle overage block field start = .ok out) :
    IsBlock out "bundle" ∧ IsBundle out := by
  unfold normalizeBundle at h
  split at h
  · cases h
  · obtain ⟨base, -, h⟩ := bind_ok h
    obtain ⟨included, hincluded, h⟩ := bind_ok h
    obtain ⟨o, ho, h⟩ := bind_ok h
    split at h
    · rename_i htype
      cases h
      obtain ⟨type, hblock⟩ := hoverage _ _ ho
      rw [hblock.type_eq, lower_overageType type hblock.type_mem] at htype
      refine ⟨((hstart.set (by decide) (by decide)).set (by decide) (by decide)).set (by decide)
        (by decide), ⟨included, ?_, normalizeNumbers_isAmounts hincluded⟩,
        ⟨o, type, Dict.find_set_self _ _ _, hblock, htype⟩⟩
      rw [Dict.get_set_of_ne _ (by decide), Dict.get_set_self]
    · cases h

theorem normalizeBlock_spec {overage : String → Checked Dict} {block out : Dict}
    (hoverage : ∀ name o, overage name = .ok o → ∃ type, IsBlock o type)
    (h : normalizeBlock overage block field = .ok out) :
    ∃ type, IsBlock out type ∧ HasParts out type := by
  unfold normalizeBlock at h
  split at h
  · cases h
  · obtain ⟨i, hi, h⟩ := bind_ok h
    have hi := normalizeInterval_mem hi
    -- the block begins the same for every type: the type as it was read, and the interval
    have hstart {type : Text} (hmem : type ∈ blockTypes) := isBlock_start block hmem hi
    generalize lowered (block.get "type") "fixed" = type at h hstart
    split at h
    · rename_i hpoint
      have hne : ∀ t ∈ pointTypes, t ≠ "bundle".toList ∧ t ≠ "factor".toList := by decide
      exact ⟨type, (hstart (pointTypes_subset type hpoint)).point h,
        .of_ne (hne type hpoint).1 (hne type hpoint).2⟩
    · split at h
      · rename_i htype
        obtain ⟨tiers, -, h⟩ := bind_ok h
        cases h
        subst htype
        exact ⟨_, (hstart (by decide)).set (by decide) (by decide), .of_ne (by decide) (by decide)⟩
      · split at h
        · rename_i htype
          obtain ⟨bands, -, h⟩ := bind_ok h
          cases h
          subst htype
          exact ⟨_, (hstart (by decide)).set (by decide) (by decide), .of_ne (by decide) (by decide)⟩
        · split at h
          · rename_i htype
            subst htype
            obtain ⟨hblock, hbundle⟩ := normalizeBundle_spec hoverage (hstart (by decide)) h
            exact ⟨_, hblock, fun _ => hbundle, fun hne => absurd hne (by decide)⟩
          · split at h
            · rename_i htype
              obtain ⟨values, hvalues, h⟩ := bind_ok h
              cases h
              subst htype
              refine ⟨_, (hstart (by decide)).set (by decide) (by decide),
                fun hne => absurd hne (by decide), fun _ => ⟨values, Dict.get_set_self _ _ _, ?_⟩⟩
              exact normalizeNumbers_isAmounts hvalues
            · split at h
              · rename_i htype
                cases h
                subst htype
                exact ⟨_, hstart (by decide), .of_ne (by decide) (by decide)⟩
              · cases h

mutual

/-- **A block that is accepted is one that the evaluator knows**, down to the overage. -/
theorem normalizePricingBlock_spec : ∀ (v : Val) (field : String) (b : Dict),
    normalizePricingBlock v field = .ok b → ∃ type, IsBlock b type ∧ HasParts b type
  | .dict block, _, _, h => normalizeBlock_spec (fun name o ho => by
      obtain ⟨type, htype, -⟩ := normalizeOverage_spec block name o ho
      exact ⟨type, htype⟩) h
  | .none, _, _, h | .bool _, _, _, h | .int _, _, _, h | .float _, _, _, h | .str _, _, _, h
  | .list _, _, _, h | .other _, _, _, h => by cases h

theorem normalizeOverage_spec : ∀ (items : List (Val × Val)) (field : String) (o : Dict),
    normalizeOverage items field = .ok o → ∃ type, IsBlock o type ∧ HasParts o type
  | [], _, _, h => by cases h
  | (key, value) :: items, field, o, h => by
    simp only [normalizeOverage] at h
    split at h
    · exact normalizePricingBlock_spec value field o h
    · exact normalizeOverage_spec items field o h

end

end Blocks

/-! ## Inputs -/

/-- An input as the normalizer leaves it: its default is of its type. -/
inductive IsSpec (spec : Dict) : Prop
  | number (q : ℚ) : spec.get "type" = .str "number" → spec.get "default" = .float q → 0 ≤ q →
      IsSpec spec
  | boolean (b : Bool) : spec.get "type" = .str "boolean" → spec.get "default" = .bool b →
      IsSpec spec
  | enum (t : Text) (options : List Text) : spec.get "type" = .str "enum" →
      spec.get "default" = .str t → spec.get "options" = .list (options.map .str) → t ∈ options →
      (∀ option ∈ options, strip option = option) → IsSpec spec

/-- `_normalize_input_spec`, but for the part about numbers. -/
def inputSpecWith (number : Dict → String → Dict → Checked Dict) (raw : Val) (field : String) :
    Checked Dict :=
  let spec := asMapping raw
  let inputId := asStr (spec.get "id")
  let inputType := lowered (spec.get "type") "number"
  let name := field ++ "." ++ shown inputId
  if inputId = [] then invalid s!"{field}.id is required"
  else if inputType ∉ inputTypes then
    invalid (name ++ " has invalid type '" ++ shown inputType ++ "'")
  else if spec.has "default" = false then invalid s!"{name} requires a default"
  else
    let out : Dict := [(.str "id", .str inputId), (.str "type", .str inputType),
      (.str "label", .str ((orNone (asStr (spec.get "label"))).getD inputId)),
      (.str "description", .str (asStr (spec.get "description")))]
    let appliesTo := texts (spec.get "applies_to")
    let out := if appliesTo = [] then out
      else out.set "applies_to" (.list (appliesTo.map .str))
    if inputType = "number".toList then number spec name out
    else if inputType = "boolean".toList then
      .ok (out.set "default" (.bool (spec.get "default").truth))
    else normalizeEnum spec name out

section Inputs

variable {field : String}

theorem get_normalizeBound {spec out out' : Dict} {key other : Text}
    (h : normalizeBound spec key field out = .ok out') (hne : other ≠ key) :
    out'.get other = out.get other := by
  unfold normalizeBound at h
  split at h
  · cases h; rfl
  · obtain ⟨q, -, h⟩ := bind_ok h
    cases h
    exact Dict.get_set_of_ne _ hne

theorem strip_texts {v : Val} {t : Text} (h : t ∈ texts v) : strip t = t := by
  obtain ⟨h, -⟩ := List.mem_filter.mp h
  obtain ⟨u, -, rfl⟩ := List.mem_map.mp h
  exact strip_strip _

theorem normalizeNumber_spec {spec start out : Dict} (hstart : start.get "type" = .str "number")
    (h : normalizeNumber spec field start = .ok out) : IsSpec out := by
  obtain ⟨q, hq, h⟩ := bind_ok h
  obtain ⟨low, hlow, h⟩ := bind_ok h
  obtain ⟨high, hhigh, h⟩ := bind_ok h
  have hout : out = high := by
    split at h
    · split at h
      · cases h
      · cases h; rfl
    · cases h; rfl
  subst hout
  have hget {key : Text} (hmin : key ≠ "min".toList) (hmax : key ≠ "max".toList) :
      out.get key = (start.set "default" (.float q)).get key := by
    rw [get_normalizeBound hhigh hmax, get_normalizeBound hlow hmin]
  refine .number q ?_ ?_ (toNumber_nonneg hq)
  · rw [hget (by decide) (by decide), Dict.get_set_of_ne _ (by decide), hstart]
  · rw [hget (by decide) (by decide), Dict.get_set_self]

theorem normalizeEnum_spec {spec start out : Dict} (hstart : start.get "type" = .str "enum")
    (h : normalizeEnum spec field start = .ok out) : IsSpec out := by
  unfold normalizeEnum at h
  dsimp only at h
  split at h
  · cases h
  · split at h
    · rename_i hmem
      cases h
      refine .enum _ _ ?_ (Dict.get_set_self _ _ _) ?_ hmem fun _ => strip_texts
      · rw [Dict.get_set_of_ne _ (by decide), Dict.get_set_of_ne _ (by decide), hstart]
      · rw [Dict.get_set_of_ne _ (by decide), Dict.get_set_self]
    · cases h

/-- What an accepted specification is made of, whatever is done about numbers. -/
theorem inputSpecWith_ok {number : Dict → String → Dict → Checked Dict} {raw : Val} {out : Dict}
    (h : inputSpecWith number raw field = .ok out) : ∃ start name,
      (start.get "type" = .str "number" ∧ number (asMapping raw) name start = .ok out) ∨
        (start.get "type" = .str "boolean" ∧
          out = start.set "default" (.bool ((asMapping raw).get "default").truth)) ∨
        (start.get "type" = .str "enum" ∧ normalizeEnum (asMapping raw) name start = .ok out) := by
  unfold inputSpecWith at h
  dsimp only at h
  split at h
  · cases h
  · split at h
    · cases h
    · rename_i htype
      generalize lowered _ _ = type at h htype
      split at h
      · cases h
      · -- whether or not it applies to some plans only, the type is the one that was checked
        have hstart (id label description : Val) (start : Dict)
            (hs : start = [(.str "id", id), (.str "type", .str type), (.str "label", label),
              (.str "description", description)] ∨
              ∃ v, start = Dict.set "applies_to" v [(.str "id", id), (.str "type", .str type),
                (.str "label", label), (.str "description", description)]) :
            start.get "type" = .str type := by
          rcases hs with rfl | ⟨v, rfl⟩
          · rfl
          · rw [Dict.get_set_of_ne _ (by decide)]; rfl
        generalize hs : (if texts _ = [] then _ else _ : Dict) = start at h
        have hs := hstart _ _ _ start (by
          split at hs
          · exact Or.inl hs.symm
          · exact Or.inr ⟨_, hs.symm⟩)
        split at h
        · rename_i hnumber
          exact ⟨start, _, .inl ⟨hs.trans (congrArg Val.str hnumber), h⟩⟩
        · split at h
          · rename_i hboolean
            cases h
            exact ⟨start, "", .inr (.inl ⟨hs.trans (congrArg Val.str hboolean), rfl⟩)⟩
          · rename_i hnumber hboolean
            have henum : type = "enum".toList := by
              have hmem : type ∈ inputTypes := not_not.mp htype
              simp only [inputTypes, List.mem_cons, List.not_mem_nil, or_false] at hmem
              rcases hmem with hmem | hmem | hmem
              · exact absurd hmem hnumber
              · exact hmem
              · exact absurd hmem hboolean
            exact ⟨start, _, .inr (.inr ⟨hs.trans (congrArg Val.str henum), h⟩)⟩

theorem normalizeInputSpec_spec {raw : Val} {out : Dict}
    (h : normalizeInputSpec raw field = .ok out) : IsSpec out := by
  have h : inputSpecWith normalizeNumber raw field = .ok out := h
  obtain ⟨start, name, ⟨htype, h⟩ | ⟨htype, rfl⟩ | ⟨htype, h⟩⟩ := inputSpecWith_ok h
  · exact normalizeNumber_spec htype h
  · exact .boolean _ ((Dict.get_set_of_ne _ (by decide)).trans htype) (Dict.get_set_self _ _ _)
  · exact normalizeEnum_spec htype h

end Inputs

/-! ## Plans -/

/-- Every item is a mapping of that kind. -/
def All (P : Dict → Prop) (v : Val) : Prop := ∀ item ∈ asList v, ∃ m, item = .dict m ∧ P m

structure IsAddon (b : Dict) : Prop where
  block : ∃ type ∈ pointTypes, IsBlock b type
  id : asStr (b.get "id") ≠ []

structure IsPlan (plan : Dict) : Prop where
  pricing : ∃ b type, plan.get "pricing" = .dict b ∧ IsBlock b type ∧ HasParts b type
  inputs : All IsSpec (plan.get "inputs")
  addons : All IsAddon (plan.get "addons")
  factors : All IsFactor (plan.get "factors")
  minimum : asMapping (plan.get "minimum_commit") ≠ [] →
    ∃ type ∈ pointTypes, IsBlock (asMapping (plan.get "minimum_commit")) type

section Plans

variable {field : String}

theorem normalizeAll_spec {P : Dict → Prop} {normalize : Nat → Val → Checked Dict}
    (hP : ∀ index raw m, normalize index raw = .ok m → P m) {index : Nat} {items out : List Val}
    (h : normalizeAll normalize index items = .ok out) : All P (.list out) := by
  induction items generalizing index out with
  | nil =>
    cases h
    intro item hitem
    cases hitem
  | cons raw items ih =>
    obtain ⟨first, hfirst, h⟩ := bind_ok h
    obtain ⟨others, hothers, h⟩ := bind_ok h
    cases h
    intro item hitem
    rcases List.mem_cons.mp hitem with rfl | hitem
    · exact ⟨first, rfl, hP _ _ _ hfirst⟩
    · exact ih hothers item hitem

theorem normalizeInputs_spec {v : Val} {out : List Val} (h : normalizeInputs v field = .ok out) :
    All IsSpec (.list out) :=
  normalizeAll_spec (fun _ _ _ h => normalizeInputSpec_spec h) h

theorem get_setNonempty_of_ne {key other : Text} {items : List Val} {out : Dict} (h : other ≠ key) :
    (setNonempty key items out).get other = out.get other := by
  cases items with
  | nil => rfl
  | cons item items => exact Dict.get_set_of_ne _ h

theorem asList_setNonempty {key : Text} {items : List Val} {out : Dict} (h : out.get key = .none) :
    asList ((setNonempty key items out).get key) = items := by
  cases items with
  | nil =>
    show asList (out.get key) = []
    rw [h]
    rfl
  | cons item items =>
    show asList ((out.set key (.list (item :: items))).get key) = _
    rw [Dict.get_set_self]
    rfl

theorem All.setNonempty {P : Dict → Prop} {key : Text} {items : List Val} {out : Dict}
    (hitems : All P (.list items)) (h : out.get key = .none) :
    All P ((setNonempty key items out).get key) := by
  unfold All
  rw [asList_setNonempty h]
  exact hitems

theorem get_normalizeOptional_of_ne {planMap out out' : Dict} {key other : Text}
    {normalize : Val → Checked Dict} (h : normalizeOptional planMap key normalize out = .ok out')
    (hne : other ≠ key) : out'.get other = out.get other := by
  unfold normalizeOptional at h
  split at h
  · obtain ⟨block, -, h⟩ := bind_ok h
    cases h
    exact Dict.get_set_of_ne _ hne
  · cases h; rfl

theorem get_normalizeOptional_self {planMap out out' : Dict} {key : Text}
    {normalize : Val → Checked Dict} (h : normalizeOptional planMap key normalize out = .ok out')
    (hout : out.get key = .none) :
    out'.get key = .none ∨ ∃ raw b, normalize raw = .ok b ∧ out'.get key = .dict b := by
  unfold normalizeOptional at h
  split at h
  · obtain ⟨block, hblock, h⟩ := bind_ok h
    cases h
    exact Or.inr ⟨_, block, hblock, Dict.get_set_self _ _ _⟩
  · cases h
    exact Or.inl hout

theorem normalizeAddon_spec {index : Nat} {raw : Val} {b : Dict}
    (h : normalizeAddon field index raw = .ok b) : IsAddon b := by
  unfold normalizeAddon at h
  dsimp only at h
  split at h
  · cases h
  · rename_i hid
    obtain ⟨block, hblock, h⟩ := bind_ok h
    obtain ⟨type, hshape, -⟩ := normalizePricingBlock_spec _ _ _ hblock
    rw [hshape.type_eq, asStr_blockType type hshape.type_mem] at h
    split at h
    · rename_i htype
      cases h
      refine ⟨⟨type, htype, (hshape.set (by decide) (by decide)).set (by decide) (by decide)⟩, ?_⟩
      rw [Dict.get_set_of_ne _ (by decide), Dict.get_set_self, asStr_str]
      have hstrip : strip (asStr ((asMapping raw).get "id")) = asStr ((asMapping raw).get "id") :=
        strip_strip _
      rw [hstrip]
      exact hid
    · cases h

theorem normalizeFactor_spec {index : Nat} {raw : Val} {b : Dict}
    (h : normalizeFactor field index raw = .ok b) : IsFactor b := by
  obtain ⟨block, hblock, h⟩ := bind_ok h
  obtain ⟨type, hshape, hparts⟩ := normalizePricingBlock_spec _ _ _ hblock
  rw [hshape.type_eq, asStr_blockType type hshape.type_mem] at h
  split at h
  · rename_i htype
    cases h
    exact hparts.factor htype
  · cases h

theorem normalizeMinimumCommit_spec {raw : Val} {b : Dict}
    (h : normalizeMinimumCommit field raw = .ok b) : ∃ type ∈ pointTypes, IsBlock b type := by
  obtain ⟨block, hblock, h⟩ := bind_ok h
  obtain ⟨type, hshape, -⟩ := normalizePricingBlock_spec _ _ _ hblock
  rw [hshape.type_eq, asStr_blockType type hshape.type_mem] at h
  split at h
  · rename_i htype
    cases h
    exact ⟨type, htype, hshape⟩
  · cases h

theorem normalizePlan_spec {index : Nat} {raw : Val} {plan : Dict}
    (h : normalizePlan field index raw = .ok plan) : IsPlan plan := by
  unfold normalizePlan at h
  dsimp only at h
  split at h
  · cases h
  · obtain ⟨pricing, hpricing, h⟩ := bind_ok h
    obtain ⟨inputs, hinputs, h⟩ := bind_ok h
    obtain ⟨addons, haddons, h⟩ := bind_ok h
    obtain ⟨factors, hfactors, h⟩ := bind_ok h
    obtain ⟨withFee, hfee, h⟩ := bind_ok h
    obtain ⟨type, hshape, hparts⟩ := normalizePricingBlock_spec _ _ _ hpricing
    have hget {key : Text} (hsetup : key ≠ "setup_fee".toList)
        (hminimum : key ≠ "minimum_commit".toList) :=
      (get_normalizeOptional_of_ne h hminimum).trans (get_normalizeOptional_of_ne hfee hsetup)
    refine ⟨⟨pricing, type, ?_, hshape, hparts⟩, ?_, ?_, ?_, ?_⟩
    · rw [hget (by decide) (by decide), get_setNonempty_of_ne (by decide),
        get_setNonempty_of_ne (by decide), get_setNonempty_of_ne (by decide)]
      rfl
    · rw [hget (by decide) (by decide), get_setNonempty_of_ne (by decide),
        get_setNonempty_of_ne (by decide)]
      exact (normalizeInputs_spec hinputs).setNonempty rfl
    · rw [hget (by decide) (by decide), get_setNonempty_of_ne (by decide)]
      refine (normalizeAll_spec (fun _ _ _ => normalizeAddon_spec) haddons).setNonempty ?_
      rw [get_setNonempty_of_ne (by decide)]
      rfl
    · rw [hget (by decide) (by decide)]
      refine (normalizeAll_spec (fun _ _ _ => normalizeFactor_spec) hfactors).setNonempty ?_
      rw [get_setNonempty_of_ne (by decide), get_setNonempty_of_ne (by decide)]
      rfl
    · have hnone : withFee.get "minimum_commit" = .none := by
        rw [get_normalizeOptional_of_ne hfee (by decide), get_setNonempty_of_ne (by decide),
          get_setNonempty_of_ne (by decide), get_setNonempty_of_ne (by decide)]
        rfl
      rcases get_normalizeOptional_self h hnone with hnone | ⟨raw, b, hb, hget⟩
      · intro hne
        rw [hnone] at hne
        exact absurd rfl hne
      · intro _
        rw [hget]
        exact normalizeMinimumCommit_spec hb

structure IsOffering (offering : Dict) : Prop where
  inputs : All IsSpec (offering.get "inputs")
  plans : All IsPlan (offering.get "plans")

theorem normalizeOffering_spec {index : Nat} {raw : Val} {offering : Dict}
    (h : normalizeOffering index raw = .ok offering) : IsOffering offering := by
  unfold normalizeOffering at h
  dsimp only at h
  split at h
  · cases h
  · split at h
    · cases h
    · obtain ⟨inputs, hinputs, h⟩ := bind_ok h
      obtain ⟨plans, hplans, h⟩ := bind_ok h
      cases h
      constructor
      · rw [Dict.get_set_of_ne _ (by decide)]
        exact (normalizeInputs_spec hinputs).setNonempty rfl
      · rw [Dict.get_set_self]
        exact normalizeAll_spec (fun _ _ _ => normalizePlan_spec) hplans

theorem normalizePricingDoc_spec {doc pricing : Dict} (h : normalizePricingDoc doc = .ok pricing) :
    All IsSpec (pricing.get "inputs") ∧ All IsOffering (pricing.get "offerings") := by
  unfold normalizePricingDoc at h
  split at h
  · cases h
  · obtain ⟨inputs, hinputs, h⟩ := bind_ok h
    split at h
    · cases h
    · obtain ⟨offerings, hofferings, h⟩ := bind_ok h
      cases h
      constructor
      · rw [Dict.get_set_of_ne _ (by decide)]
        exact (normalizeInputs_spec hinputs).setNonempty rfl
      · rw [Dict.get_set_self]
        exact normalizeAll_spec (fun _ _ _ => normalizeOffering_spec) hofferings

theorem of_findById {P : Dict → Prop} {wanted : Text} {v : Val} {m : Dict} (hv : All P v)
    (h : findById wanted (asList v) = some m) : P m := by
  unfold findById at h
  cases hitem : (asList v).find? _ with
  | none => rw [hitem] at h; cases h
  | some item =>
    rw [hitem] at h
    obtain ⟨d, rfl, hd⟩ := hv item (List.mem_of_find?_eq_some hitem)
    cases h
    exact hd

/-- **A plan that is found in an accepted document** is in normal form, and so are the inputs
    it is quoted with. -/
theorem plan_of_accepted {doc pricing offering plan : Dict} {offeringId planId : Text}
    (hdoc : normalizePricingDoc doc = .ok pricing)
    (hoffering : findOffering pricing offeringId = .ok offering)
    (hplan : findPlan offering planId = .ok plan) :
    All IsSpec (pricing.get "inputs") ∧ IsOffering offering ∧ IsPlan plan := by
  obtain ⟨hinputs, hofferings⟩ := normalizePricingDoc_spec hdoc
  have hoffering : IsOffering offering := by
    unfold findOffering at hoffering
    split at hoffering
    · rename_i hfound
      cases hoffering
      exact of_findById hofferings hfound
    · cases hoffering
  have hplan : IsPlan plan := by
    unfold findPlan at hplan
    split at hplan
    · rename_i hfound
      cases hplan
      exact of_findById hoffering.plans hfound
    · cases hplan
  exact ⟨hinputs, hoffering, hplan⟩

end Plans

end Infinito.Pricing
