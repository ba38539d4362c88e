import Infinito.Pricing.Reference
import Mathlib.Algebra.Order.BigOperators.GroupWithZero.List

/-!
# More usage never costs less

Two requests that agree but for one numeric input, which the second has more of. What the
engine reads of it goes through the evaluator, where only volume bands can fall with the
quantity, and through the quantities of add-ons; the factors do not read it, so both requests
are multiplied alike. The rest is that the total of the parts grows with each
(`Parts.total_mono`).

Two resolved inputs are compared by `AtMost`, which the evaluator keeps as it adds inputs of
its own, the excess of a bundle and the quantity of an add-on.
-/

set_option autoImplicit false

namespace Infinito.Pricing

open Py
open Lib (bind_ok bind_of_eq_ok)

/-! ## Inputs with more of one -/

/-- Every input is the same in both, or a number that is no larger in the first. -/
def AtMost (m₁ m₂ : Dict) : Prop :=
  ∀ key, m₁.find key = m₂.find key ∨
    ∃ a b, m₁.find key = some (.float a) ∧ m₂.find key = some (.float b) ∧ a ≤ b

namespace AtMost

variable {m₁ m₂ : Dict}

theorem set_same (h : AtMost m₁ m₂) (key : Text) (v : Val) : AtMost (m₁.set key v) (m₂.set key v) := by
  intro other
  by_cases heq : other = key
  · rw [heq, Dict.find_set_self, Dict.find_set_self]
    exact Or.inl rfl
  · rw [Dict.find_set_of_ne _ heq, Dict.find_set_of_ne _ heq]
    exact h other

theorem set_le (h : AtMost m₁ m₂) (key : Text) {a b : ℚ} (hle : a ≤ b) :
    AtMost (m₁.set key (.float a)) (m₂.set key (.float b)) := by
  intro other
  by_cases heq : other = key
  · rw [heq, Dict.find_set_self, Dict.find_set_self]
    exact Or.inr ⟨a, b, rfl, rfl, hle⟩
  · rw [Dict.find_set_of_ne _ heq, Dict.find_set_of_ne _ heq]
    exact h other

/-- What two requests read as a number, under the same key and with the same default. -/
theorem toNumber (h : AtMost m₁ m₂) {key : Text} {default : Val} {field : String} {a b : ℚ}
    (h₁ : toNumber ((m₁.find key).getD default) field = .ok a)
    (h₂ : toNumber ((m₂.find key).getD default) field = .ok b) : a ≤ b := by
  have h₁ := toFloat_of_toNumber h₁
  have h₂ := toFloat_of_toNumber h₂
  rcases h key with heq | ⟨x, y, hx, hy, hle⟩
  · rw [heq, h₂] at h₁
    exact (Option.some.inj h₁).ge
  · rw [hx] at h₁
    rw [hy] at h₂
    rw [← Option.some.inj h₁, ← Option.some.inj h₂]
    exact hle

theorem addonQuantity (h : AtMost m₁ m₂) {addon : Dict} {index : Nat} {a b : ℚ}
    (h₁ : addonQuantity addon m₁ index = .ok a) (h₂ : addonQuantity addon m₂ index = .ok b) :
    a ≤ b := by
  unfold Pricing.addonQuantity at h₁ h₂
  dsimp only at h₁ h₂
  rcases h (addonInput addon index) with heq | ⟨x, y, hx, hy, hle⟩
  · rw [heq, h₂] at h₁
    cases h₁
    exact le_refl _
  · rw [hx] at h₁
    rw [hy] at h₂
    have h₁ := toFloat_of_toNumber h₁
    have h₂ := toFloat_of_toNumber h₂
    rw [← Option.some.inj h₁, ← Option.some.inj h₂]
    exact hle

end AtMost

/-! ## The evaluator -/

section Evaluate

variable {currency region : Text} {field : String}

theorem sub_min_mono {a b c : ℚ} (h : a ≤ b) : a - min a c ≤ b - min b c := by
  rcases le_total a c with hac | hac
  · rw [min_eq_left hac, sub_self]
    exact sub_nonneg.mpr (min_le_left b c)
  · rw [min_eq_right hac, min_eq_right (hac.trans h)]
    exact sub_le_sub_right h c

section Tier

variable {raw : Val} {tiers : List Val} {index : Nat} {remaining lower total limit : ℚ}

theorem progressiveTiers_last (hlimit : upTo (asMapping raw) = none) (hpos : 0 < remaining) :
    progressiveTiers currency region field index (raw :: tiers) remaining lower total =
      resolveAmount (asMapping raw) currency region (field ++ "[" ++ Nat.repr index ++ "]") >>=
        fun price => pure (total + remaining * price) := by
  have hshare : ¬ maxInTier none remaining lower ≤ 0 := not_le.mpr hpos
  conv_lhs => unfold progressiveTiers
  dsimp only
  rw [hlimit, if_neg (not_le.mpr hpos), if_neg hshare]
  rfl

theorem progressiveTiers_skip (hlimit : upTo (asMapping raw) = some limit) (hpos : 0 < remaining)
    (hfull : limit - lower ≤ 0) :
    progressiveTiers currency region field index (raw :: tiers) remaining lower total =
      progressiveTiers currency region field (index + 1) tiers remaining
        (lowerBound (some limit) lower) total := by
  have hshare : maxInTier (some limit) remaining lower ≤ 0 :=
    (min_le_right _ _).trans (max_eq_right hfull).le
  conv_lhs => unfold progressiveTiers
  dsimp only
  rw [hlimit, if_neg (not_le.mpr hpos), if_pos hshare]

theorem progressiveTiers_take (hlimit : upTo (asMapping raw) = some limit) (hpos : 0 < remaining)
    (hroom : 0 < limit - lower) :
    progressiveTiers currency region field index (raw :: tiers) remaining lower total =
      resolveAmount (asMapping raw) currency region (field ++ "[" ++ Nat.repr index ++ "]") >>=
        fun price => progressiveTiers currency region field (index + 1) tiers
          (remaining - min remaining (limit - lower)) limit
          (total + min remaining (limit - lower) * price) := by
  have hshare : maxInTier (some limit) remaining lower = min remaining (limit - lower) :=
    congrArg (min remaining) (max_eq_left hroom.le)
  have hmin : ¬ min remaining (limit - lower) ≤ 0 := not_le.mpr (lt_min hpos hroom)
  conv_lhs => unfold progressiveTiers
  dsimp only
  rw [hlimit, hshare, if_neg (not_le.mpr hpos), if_neg hmin]

end Tier

/-- More units cost no less, whatever the bounds of the tiers: how much a tier can take does
    not depend on how many units there are. -/
theorem progressiveTiers_mono {tiers : List Val} {index : Nat}
    {remaining₁ remaining₂ lower total₁ total₂ a b : ℚ} (hremaining : remaining₁ ≤ remaining₂)
    (htotal : total₁ ≤ total₂)
    (h₁ : progressiveTiers currency region field index tiers remaining₁ lower total₁ = .ok a)
    (h₂ : progressiveTiers currency region field index tiers remaining₂ lower total₂ = .ok b) :
    a ≤ b := by
  induction tiers generalizing index remaining₁ remaining₂ lower total₁ total₂ with
  | nil =>
    cases h₁
    cases h₂
    exact htotal
  | cons raw tiers ih =>
    by_cases hnone : remaining₁ ≤ 0
    · unfold progressiveTiers at h₁
      dsimp only at h₁
      rw [if_pos hnone] at h₁
      cases h₁
      exact htotal.trans (le_progressiveTiers h₂)
    · have hpos₁ := not_le.mp hnone
      have hpos₂ := hpos₁.trans_le hremaining
      cases hlimit : upTo (asMapping raw) with
      | none =>
        rw [progressiveTiers_last hlimit hpos₁] at h₁
        rw [progressiveTiers_last hlimit hpos₂] at h₂
        obtain ⟨price, hprice, h₁⟩ := bind_ok h₁
        rw [bind_of_eq_ok hprice] at h₂
        cases h₁
        cases h₂
        exact add_le_add htotal (mul_le_mul_of_nonneg_right hremaining (resolveAmount_nonneg hprice))
      | some limit =>
        by_cases hfull : limit - lower ≤ 0
        · rw [progressiveTiers_skip hlimit hpos₁ hfull] at h₁
          rw [progressiveTiers_skip hlimit hpos₂ hfull] at h₂
          exact ih hremaining htotal h₁ h₂
        · have hroom := not_le.mp hfull
          rw [progressiveTiers_take hlimit hpos₁ hroom] at h₁
          rw [progressiveTiers_take hlimit hpos₂ hroom] at h₂
          obtain ⟨price, hprice, h₁⟩ := bind_ok h₁
          rw [bind_of_eq_ok hprice] at h₂
          refine ih (sub_min_mono hremaining) (add_le_add htotal ?_) h₁ h₂
          exact mul_le_mul_of_nonneg_right (min_le_min_right _ hremaining)
            (resolveAmount_nonneg hprice)

/-- The second amount, if there are both, is no less. -/
def Rises (e₁ e₂ : Evaluated) : Prop := ∀ a ∈ e₁.amount, ∀ b ∈ e₂.amount, a ≤ b

theorem evaluateBundle_mono {overage : Dict → String → Checked Evaluated}
    (hnonneg : ∀ m name e, overage m name = .ok e → Accounted e)
    (hmono : ∀ m₁ m₂ name e₁ e₂, AtMost m₁ m₂ → overage m₁ name = .ok e₁ →
      overage m₂ name = .ok e₂ → Rises e₁ e₂)
    {block m₁ m₂ : Dict} {i₁ i₂ : Text} {e₁ e₂ : Evaluated} (h : AtMost m₁ m₂)
    (h₁ : evaluateBundle overage block m₁ currency region field i₁ = .ok e₁)
    (h₂ : evaluateBundle overage block m₂ currency region field i₂ = .ok e₂) : Rises e₁ e₂ := by
  obtain ⟨base, hbase, h₁⟩ := bind_ok h₁
  obtain ⟨quantity₁, hquantity₁, h₁⟩ := bind_ok h₁
  obtain ⟨free, hfree, h₁⟩ := bind_ok h₁
  obtain ⟨base', hbase', h₂⟩ := bind_ok h₂
  obtain ⟨quantity₂, hquantity₂, h₂⟩ := bind_ok h₂
  obtain ⟨free', hfree', h₂⟩ := bind_ok h₂
  rw [hbase] at hbase'
  cases hbase'
  rw [hfree] at hfree'
  cases hfree'
  have hquantity := h.toNumber hquantity₁ hquantity₂
  dsimp only at h₁ h₂
  have hexcess : max 0 (quantity₁ - free) ≤ max 0 (quantity₂ - free) :=
    max_le_max_left 0 (sub_le_sub_right hquantity free)
  generalize max 0 (quantity₁ - free) = excess₁ at h₁ hexcess
  generalize max 0 (quantity₂ - free) = excess₂ at h₂ hexcess
  -- the larger quantity exceeds the free units whenever the smaller one does
  by_cases hpos₂ : 0 < excess₂
  · rw [if_pos hpos₂] at h₂
    obtain ⟨nested₂, hnested₂, h₂⟩ := bind_ok h₂
    cases husage₂ : nested₂.amount with
    | none => rw [husage₂] at h₂; cases h₂
    | some usage₂ =>
      rw [husage₂] at h₂
      cases h₂
      by_cases hpos₁ : 0 < excess₁
      · rw [if_pos hpos₁] at h₁
        obtain ⟨nested₁, hnested₁, h₁⟩ := bind_ok h₁
        cases husage₁ : nested₁.amount with
        | none => rw [husage₁] at h₁; cases h₁
        | some usage₁ =>
          rw [husage₁] at h₁
          cases h₁
          rintro _ ⟨⟩ _ ⟨⟩
          exact add_le_add_right (hmono _ _ _ _ _ (h.set_le _ hexcess) hnested₁ hnested₂ usage₁ husage₁
            usage₂ husage₂) base
      · rw [if_neg hpos₁] at h₁
        cases h₁
        rintro _ ⟨⟩ _ ⟨⟩
        -- only the larger quantity pays for an excess, and no price is below zero
        exact add_le_add_right ((hnonneg _ _ _ hnested₂).nonneg husage₂) base
  · rw [if_neg fun hpos₁ => hpos₂ (hpos₁.trans_le hexcess)] at h₁
    rw [if_neg hpos₂] at h₂
    cases h₁
    cases h₂
    rintro _ ⟨⟩ _ ⟨⟩
    exact le_refl _

/-- Every branch but the one of volume bands. -/
theorem evaluateTyped_mono {overage : Dict → String → Checked Evaluated} {type : Text}
    (hvolume : type ≠ "volume_per_unit".toList)
    (hbundle : type = "bundle".toList →
      (∀ m name e, overage m name = .ok e → Accounted e) ∧
      ∀ m₁ m₂ name e₁ e₂, AtMost m₁ m₂ → overage m₁ name = .ok e₁ → overage m₂ name = .ok e₂ →
        Rises e₁ e₂)
    {block m₁ m₂ : Dict} {i₁ i₂ : Text} {e₁ e₂ : Evaluated} (h : AtMost m₁ m₂)
    (h₁ : evaluateTyped overage type i₁ block m₁ currency region field = .ok e₁)
    (h₂ : evaluateTyped overage type i₂ block m₂ currency region field = .ok e₂) : Rises e₁ e₂ := by
  rcases evaluateTyped_ok h₁ with ⟨rfl, rfl⟩ | ⟨htype, price, hprice, rfl⟩ |
    ⟨rfl, quantity₁, price, hquantity₁, hprice, rfl⟩ |
    ⟨rfl, quantity₁, usage₁, hquantity₁, husage₁, rfl⟩ | ⟨htype, -⟩ | ⟨rfl, h₁⟩
  · -- a custom block has no amount to compare
    rintro _ ⟨⟩
  · replace h₂ :
        (do pure (Evaluated.ofBase i₂ (← resolveAmount block currency region field))) = .ok e₂ := by
      rcases htype with rfl | rfl <;> exact h₂
    rw [bind_of_eq_ok hprice] at h₂
    cases h₂
    rintro _ ⟨⟩ _ ⟨⟩
    exact le_refl _
  · obtain ⟨quantity₂, hquantity₂, h₂⟩ := bind_ok h₂
    rw [bind_of_eq_ok hprice] at h₂
    cases h₂
    rintro _ ⟨⟩ _ ⟨⟩
    exact mul_le_mul_of_nonneg_right (h.toNumber hquantity₁ hquantity₂) (resolveAmount_nonneg hprice)
  · obtain ⟨quantity₂, hquantity₂, h₂⟩ := bind_ok h₂
    obtain ⟨usage₂, husage₂, h₂⟩ := bind_ok h₂
    cases h₂
    rintro _ ⟨⟩ _ ⟨⟩
    exact progressiveTiers_mono (h.toNumber hquantity₁ hquantity₂) (le_refl 0) husage₁ husage₂
  · exact absurd htype hvolume
  · obtain ⟨hnonneg, hmono⟩ := hbundle rfl
    exact evaluateBundle_mono hnonneg hmono h h₁ h₂

theorem evaluateBlock_mono {overage : Dict → String → Checked Evaluated} {block : Dict} {type : Text}
    (hblock : IsBlock block type) (hvolume : type ≠ "volume_per_unit".toList)
    (hbundle : type = "bundle".toList →
      (∀ m name e, overage m name = .ok e → Accounted e) ∧
      ∀ m₁ m₂ name e₁ e₂, AtMost m₁ m₂ → overage m₁ name = .ok e₁ → overage m₂ name = .ok e₂ →
        Rises e₁ e₂)
    {m₁ m₂ : Dict} {e₁ e₂ : Evaluated} (h : AtMost m₁ m₂)
    (h₁ : evaluateBlock overage block m₁ currency region field = .ok e₁)
    (h₂ : evaluateBlock overage block m₂ currency region field = .ok e₂) : Rises e₁ e₂ := by
  obtain ⟨i₁, heq₁⟩ := evaluateBlock_eq currency region field overage m₁ hblock
  obtain ⟨i₂, heq₂⟩ := evaluateBlock_eq currency region field overage m₂ hblock
  rw [heq₁] at h₁
  rw [heq₂] at h₂
  exact evaluateTyped_mono hvolume hbundle h h₁ h₂

/-- Volume bands price the block, or the overage of the bundle it is. -/
def UsesVolume (b : Dict) : Prop :=
  lowered (b.get "type") "fixed" = "volume_per_unit".toList ∨
    lowered (b.get "type") "fixed" = "bundle".toList ∧
      lowered ((asMapping (b.get "overage")).get "type") "fixed" = "volume_per_unit".toList

/-- **The pricing block of a plan rises with its inputs**, unless volume bands are used. -/
theorem evaluatePricing_mono {b : Dict} {type : Text} (hblock : IsBlock b type)
    (hparts : HasParts b type) (hvolume : ¬ UsesVolume b) {m₁ m₂ : Dict} {e₁ e₂ : Evaluated}
    (h : AtMost m₁ m₂)
    (h₁ : evaluatePricing currency region (.dict b) none m₁ field = .ok e₁)
    (h₂ : evaluatePricing currency region (.dict b) none m₂ field = .ok e₂) : Rises e₁ e₂ := by
  unfold UsesVolume at hvolume
  rw [hblock.lowered_eq] at hvolume
  rw [evaluatePricing] at h₁ h₂
  refine evaluateBlock_mono hblock (fun htype => hvolume (Or.inl htype)) (fun htype => ⟨?_, ?_⟩) h
    h₁ h₂
  · exact fun m name e => evaluateOverage_accounted currency region b m name e
  · -- the overage of a bundle is no bundle
    obtain ⟨o, otype, ho, hoblock, hmem⟩ := (hparts.bundle htype).overage
    have hget : b.get "overage" = .dict o := by rw [Dict.get, ho]; rfl
    have honot : otype ≠ "volume_per_unit".toList := by
      intro heq
      refine hvolume (Or.inr ⟨htype, ?_⟩)
      rw [hget, ← heq]
      exact hoblock.lowered_eq
    have hne : ∀ t ∈ overageTypes, t ≠ "bundle".toList := by decide
    intro m₁ m₂ name e₁ e₂ h h₁ h₂
    rw [evaluateOverage_eq ho, evaluatePricing] at h₁ h₂
    exact evaluateBlock_mono (hoblock.withUnits _) honot (fun heq => absurd heq (hne otype hmem)) h
      h₁ h₂

end Evaluate

/-! ## Add-ons and factors -/

theorem Line.charge_mono {l₁ l₂ : Line} (hprice : l₁.price = l₂.price) (hflat : l₁.flat = l₂.flat)
    (hnonneg : 0 ≤ l₁.price) (hle : l₁.quantity ≤ l₂.quantity) : l₁.charge ≤ l₂.charge := by
  unfold Line.charge
  rw [← hprice, ← hflat]
  split
  · exact le_refl _
  · exact mul_le_mul_of_nonneg_left hle hnonneg

theorem Line.charge_nonneg {l : Line} (hprice : 0 ≤ l.price) (hquantity : 0 ≤ l.quantity) :
    0 ≤ l.charge := by
  unfold Line.charge
  split
  · exact hprice
  · exact mul_nonneg hprice hquantity

section Loops

variable {currency region : Text} {m₁ m₂ : Dict}

/-- What is charged for the first of the add-ons, 0 when it is not taken. -/
theorem takenLines_cons {inputs : Dict} {index : Nat} {raw : Val} {rest : List Val} {lines : List Line}
    (h : takenLines currency region inputs index (raw :: rest) = .ok lines) :
    ∃ quantity others, addonQuantity (asMapping raw) inputs index = .ok quantity ∧
      takenLines currency region inputs (index + 1) rest = .ok others ∧
      (quantity ≤ 0 ∧ lines = others ∨ 0 < quantity ∧ ∃ price,
        resolveAmount (asMapping raw) currency region ("addons[" ++ Nat.repr index ++ "]") = .ok price ∧
        lines = addonLine (asMapping raw) price quantity :: others) := by
  obtain ⟨quantity, hquantity, h⟩ := bind_ok h
  obtain ⟨others, hothers, h⟩ := bind_ok h
  refine ⟨quantity, others, hquantity, hothers, ?_⟩
  split at h
  · rename_i hle
    cases h
    exact Or.inl ⟨hle, rfl⟩
  · rename_i hpos
    obtain ⟨price, hprice, h⟩ := bind_ok h
    cases h
    exact Or.inr ⟨not_le.mp hpos, price, hprice, rfl⟩

/-- **Add-ons come to no less with more of them**, those that are taken only then included. -/
theorem takenLines_mono (h : AtMost m₁ m₂) {addons : List Val} {index : Nat}
    {lines₁ lines₂ : List Line} (h₁ : takenLines currency region m₁ index addons = .ok lines₁)
    (h₂ : takenLines currency region m₂ index addons = .ok lines₂) :
    (lines₁.map Line.charge).sum ≤ (lines₂.map Line.charge).sum := by
  induction addons generalizing index lines₁ lines₂ with
  | nil =>
    cases h₁
    cases h₂
    exact le_refl _
  | cons raw rest ih =>
    obtain ⟨quantity₁, others₁, hquantity₁, hothers₁, hlines₁⟩ := takenLines_cons h₁
    obtain ⟨quantity₂, others₂, hquantity₂, hothers₂, hlines₂⟩ := takenLines_cons h₂
    have hquantity := h.addonQuantity hquantity₁ hquantity₂
    have hrest := ih hothers₁ hothers₂
    rcases hlines₁ with ⟨hle₁, rfl⟩ | ⟨hpos₁, price, hprice, rfl⟩
    · rcases hlines₂ with ⟨-, rfl⟩ | ⟨hpos₂, price, hprice, rfl⟩
      · exact hrest
      · rw [List.map_cons, List.sum_cons]
        exact le_add_of_nonneg_of_le
          (Line.charge_nonneg (resolveAmount_nonneg hprice) hpos₂.le) hrest
    · rcases hlines₂ with ⟨hle₂, -⟩ | ⟨hpos₂, price', hprice', rfl⟩
      · exact absurd (hpos₁.trans_le hquantity) (not_lt.mpr hle₂)
      · rw [hprice] at hprice'
        cases hprice'
        rw [List.map_cons, List.map_cons, List.sum_cons, List.sum_cons]
        exact add_le_add (Line.charge_mono rfl rfl (resolveAmount_nonneg hprice) hquantity) hrest

theorem factorMultiplier_nonneg {factor inputs : Dict} {index : Nat} {multiplier : ℚ}
    (h : factorMultiplier factor inputs index = .ok (some multiplier)) : 0 ≤ multiplier := by
  unfold factorMultiplier at h
  dsimp only at h
  split at h
  · cases h
  · split at h
    · cases hnumber : Pricing.toNumber _ _ with
      | error e => rw [hnumber] at h; cases h
      | ok number =>
        rw [hnumber] at h
        cases h
        exact toNumber_nonneg hnumber
    · cases h

/-- The factor reads this input. -/
def Reads (x : Text) (factor : Val) : Prop := asStr ((asMapping factor).get "input_id") = x

/-- What no factor reads has no part in the multipliers. -/
theorem chosenMultipliers_congr {factors : List Val}
    (h : ∀ factor ∈ factors, ∀ x, Reads x factor → m₁.find x = m₂.find x) (index : Nat) :
    chosenMultipliers m₁ index factors = chosenMultipliers m₂ index factors := by
  induction factors generalizing index with
  | nil => rfl
  | cons raw rest ih =>
    have hfirst : factorMultiplier (asMapping raw) m₁ index =
        factorMultiplier (asMapping raw) m₂ index := by
      unfold factorMultiplier
      dsimp only
      rw [h raw List.mem_cons_self _ rfl]
    unfold chosenMultipliers
    rw [hfirst, ih fun factor hfactor => h factor (List.mem_cons_of_mem _ hfactor)]

theorem chosenMultipliers_nonneg {inputs : Dict} {factors : List Val} {index : Nat}
    {multipliers : List ℚ} (h : chosenMultipliers inputs index factors = .ok multipliers) :
    ∀ multiplier ∈ multipliers, 0 ≤ multiplier := by
  induction factors generalizing index multipliers with
  | nil =>
    cases h
    intro multiplier hmem
    cases hmem
  | cons raw rest ih =>
    obtain ⟨first, hfirst, h⟩ := bind_ok h
    obtain ⟨others, hothers, h⟩ := bind_ok h
    cases h
    intro multiplier hmem
    rcases List.mem_append.mp hmem with hmem | hmem
    · obtain rfl := Option.mem_toList.mp hmem
      exact factorMultiplier_nonneg hfirst
    · exact ih hothers multiplier hmem

end Loops

/-! ## The total -/

theorem atLeast_mono (minimum : Option ℚ) {a b : ℚ} (h : a ≤ b) :
    atLeast minimum a ≤ atLeast minimum b := by
  cases minimum with
  | none => exact h
  | some least => exact max_le_max_right least h

/-- The total grows with the main charge and with the charge for the add-ons. -/
theorem Parts.total_mono {p₁ p₂ : Parts} {charge : Line → ℚ} (hmain : p₁.main ≤ p₂.main)
    (hlines : (p₁.lines.map charge).sum ≤ (p₂.lines.map charge).sum)
    (hmultipliers : p₁.multipliers = p₂.multipliers) (hnonneg : ∀ m ∈ p₂.multipliers, 0 ≤ m)
    (hminimum : p₁.minimum = p₂.minimum) (hfee : p₁.setupFee = p₂.setupFee) :
    p₁.total charge ≤ p₂.total charge := by
  unfold Parts.total Parts.subtotal
  rw [hmultipliers, hminimum, hfee]
  refine add_le_add_left (atLeast_mono _ ?_) _
  exact mul_le_mul_of_nonneg_right (add_le_add hmain hlines) (List.prod_nonneg hnonneg)

theorem planParts_mono {plan m₁ m₂ : Dict} {currency region : Text} {includeSetupFee : Bool}
    {main₁ main₂ : ℚ} {p₁ p₂ : Parts} (h : AtMost m₁ m₂) (hmain : main₁ ≤ main₂)
    (hfactors : ∀ factor ∈ asList (plan.get "factors"), ∀ x, Reads x factor → m₁.find x = m₂.find x)
    (h₁ : planParts plan m₁ currency region includeSetupFee main₁ = .ok p₁)
    (h₂ : planParts plan m₂ currency region includeSetupFee main₂ = .ok p₂) :
    p₁.total Line.charge ≤ p₂.total Line.charge := by
  obtain ⟨lines₁, hlines₁, h₁⟩ := bind_ok h₁
  obtain ⟨multipliers, hmultipliers, h₁⟩ := bind_ok h₁
  obtain ⟨minimum, hminimum, h₁⟩ := bind_ok h₁
  obtain ⟨fee, hfee, h₁⟩ := bind_ok h₁
  obtain ⟨lines₂, hlines₂, h₂⟩ := bind_ok h₂
  rw [← chosenMultipliers_congr hfactors, bind_of_eq_ok hmultipliers, bind_of_eq_ok hminimum,
    bind_of_eq_ok hfee] at h₂
  cases h₁
  cases h₂
  exact Parts.total_mono hmain (takenLines_mono h hlines₁ hlines₂) rfl
    (chosenMultipliers_nonneg hmultipliers) rfl rfl

/-! ## Settling the inputs -/

/-- Inputs that are the same but for `x`, of which the second have no less. -/
structure Raised (x : Text) (m₁ m₂ : Dict) : Prop where
  same : ∀ key, key ≠ x → m₁.find key = m₂.find key
  atMost : AtMost m₁ m₂

theorem Raised.refl (x : Text) (m : Dict) : Raised x m m := ⟨fun _ _ => rfl, fun _ => Or.inl rfl⟩

theorem Raised.set_same {x : Text} {m₁ m₂ : Dict} (h : Raised x m₁ m₂) (key : Text) (v : Val) :
    Raised x (m₁.set key v) (m₂.set key v) := by
  refine ⟨fun other hother => ?_, h.atMost.set_same key v⟩
  by_cases heq : other = key
  · rw [heq, Dict.find_set_self, Dict.find_set_self]
  · rw [Dict.find_set_of_ne _ heq, Dict.find_set_of_ne _ heq]
    exact h.same other hother

theorem Raised.set_le {x : Text} {m₁ m₂ : Dict} (h : Raised x m₁ m₂) {a b : ℚ} (hle : a ≤ b) :
    Raised x (m₁.set x (.float a)) (m₂.set x (.float b)) := by
  refine ⟨fun other hother => ?_, h.atMost.set_le x hle⟩
  rw [Dict.find_set_of_ne _ hother, Dict.find_set_of_ne _ hother]
  exact h.same other hother

def IsNumeric (spec : Dict) : Prop := lower (asStr (spec.get "type")) = "number".toList

/-- The number that is given for an input, or is its default. -/
def givenNumber (spec given : Dict) : Option ℚ :=
  toFloat ((given.find (asStr (spec.get "id"))).getD (spec.get "default"))

theorem resolveInput_numeric {spec given : Dict} {v : Val} (hspec : IsNumeric spec)
    (h : resolveInput spec given = .ok v) : ∃ q, givenNumber spec given = some q ∧ v = .float q := by
  unfold IsNumeric at hspec
  unfold resolveInput resolveValue at h
  dsimp only at h
  rw [if_pos hspec] at h
  obtain ⟨number, hnumber, h⟩ := bind_ok h
  refine ⟨number, toFloat_of_toNumber hnumber, ?_⟩
  split at h
  · cases h
  · split at h
    · cases h
    · cases h
      rfl

theorem resolveInputs_raised {x : Text} {given₁ given₂ : Dict}
    (hsame : ∀ key, key ≠ x → given₁.find key = given₂.find key) {specs : List Dict}
    (hx : ∀ spec ∈ specs, asStr (spec.get "id") = x → IsNumeric spec ∧
      ∀ a ∈ givenNumber spec given₁, ∀ b ∈ givenNumber spec given₂, a ≤ b)
    {m₁ m₂ r₁ r₂ : Dict} (h : Raised x m₁ m₂) (h₁ : resolveInputs given₁ m₁ specs = .ok r₁)
    (h₂ : resolveInputs given₂ m₂ specs = .ok r₂) : Raised x r₁ r₂ := by
  induction specs generalizing m₁ m₂ with
  | nil =>
    cases h₁
    cases h₂
    exact h
  | cons spec specs ih =>
    have hrest := fun spec hspec => hx spec (List.mem_cons_of_mem _ hspec)
    obtain ⟨v₁, hv₁, h₁⟩ := bind_ok h₁
    obtain ⟨v₂, hv₂, h₂⟩ := bind_ok h₂
    refine ih hrest ?_ h₁ h₂
    by_cases hid : asStr (spec.get "id") = x
    · obtain ⟨hnumeric, hle⟩ := hx spec List.mem_cons_self hid
      obtain ⟨a, ha, rfl⟩ := resolveInput_numeric hnumeric hv₁
      obtain ⟨b, hb, rfl⟩ := resolveInput_numeric hnumeric hv₂
      rw [hid]
      exact h.set_le (hle a ha b hb)
    · unfold resolveInput at hv₁
      rw [hsame _ hid] at hv₁
      have heq : v₁ = v₂ := Except.ok.inj (hv₁.symm.trans hv₂)
      rw [heq]
      exact h.set_same _ _

/-! ### Every input has one specification -/

/-- Specifications by their ids, all different. -/
structure ById (specs : Dict) : Prop where
  keyed : ∀ item ∈ specs, ∃ spec, item = (.str (asStr (Dict.get spec "id")), .dict spec)
  nodup : (specs.map (·.1)).Nodup

theorem ById.putMany {specs : Dict} (h : ById specs) (plan : Dict) (items : Val) :
    ById (putMany plan specs items) := by
  unfold Pricing.putMany
  induction asList items generalizing specs with
  | nil => exact h
  | cons entry entries ih =>
    rw [List.foldl_cons]
    refine ih ?_
    dsimp only
    split
    · exact h
    · refine ⟨fun item hitem => ?_, Dict.nodup_set h.nodup⟩
      rcases Dict.mem_of_mem_set hitem with hitem | rfl
      · exact h.keyed item hitem
      · exact ⟨asMapping entry, rfl⟩

theorem resolveInputSpecs_unique {pricing offering plan spec other : Dict}
    (hspec : spec ∈ resolveInputSpecs pricing offering plan)
    (hother : other ∈ resolveInputSpecs pricing offering plan)
    (hid : asStr (other.get "id") = asStr (spec.get "id")) : other = spec := by
  have hnil : ById [] := ⟨fun _ hitem => absurd hitem List.not_mem_nil, List.nodup_nil⟩
  have hall := ((hnil.putMany plan (pricing.get "inputs")).putMany plan
    (offering.get "inputs")).putMany plan (plan.get "inputs")
  obtain ⟨item, hitem, rfl⟩ := List.mem_map.mp hspec
  obtain ⟨item', hitem', rfl⟩ := List.mem_map.mp hother
  obtain ⟨s, rfl⟩ := hall.keyed item hitem
  obtain ⟨s', rfl⟩ := hall.keyed item' hitem'
  have hkey : (Val.str (asStr (Dict.get s' "id")), Val.dict s') =
      (.str (asStr (Dict.get s "id")), .dict s) :=
    List.inj_on_of_nodup_map hall.nodup hitem' hitem (congrArg Val.str hid)
  rw [hkey]

/-- **More usage never costs less**: of every accepted price list, for every plan of it that
    volume bands have no part in, and every numeric input that no factor reads. -/
theorem more_costs_no_less (doc : Dict) (offeringId planId : Text) (inputs₁ inputs₂ : Dict)
    (currency : Text) (region : Option Text) (includeSetupFee : Bool)
    (pricing offering plan spec : Dict) (q₁ q₂ : Quote) (total₁ total₂ : ℚ)
    (hdoc : normalizePricingDoc doc = .ok pricing)
    (hoffering : findOffering pricing offeringId = .ok offering)
    (hplan : findPlan offering planId = .ok plan)
    (hvolume : ¬ UsesVolume (asMapping (plan.get "pricing")))
    (hspec : spec ∈ resolveInputSpecs pricing offering plan) (hnumeric : IsNumeric spec)
    (hunread : ∀ factor ∈ asList (plan.get "factors"), ¬ Reads (asStr (spec.get "id")) factor)
    (hsame : ∀ key, key ≠ asStr (spec.get "id") → inputs₁.find key = inputs₂.find key)
    (hlarger : ∀ a ∈ givenNumber spec inputs₁, ∀ b ∈ givenNumber spec inputs₂, a ≤ b)
    (hq₁ : exactQuote pricing offeringId planId inputs₁ currency region includeSetupFee = .ok q₁)
    (hq₂ : exactQuote pricing offeringId planId inputs₂ currency region includeSetupFee = .ok q₂)
    (hpriced₁ : q₁.total = some total₁) (hpriced₂ : q₂.total = some total₂) : total₁ ≤ total₂ := by
  obtain ⟨-, -, hshape⟩ := plan_of_accepted hdoc hoffering hplan
  obtain ⟨offering₁, plan₁, main₁, amount₁, hoffering₁, hplan₁, hregion₁, hresolved₁, hmain₁,
    hamount₁, hrest₁⟩ := exactQuote_priced hq₁ hpriced₁
  obtain ⟨offering₂, plan₂, main₂, amount₂, hoffering₂, hplan₂, hregion₂, hresolved₂, hmain₂,
    hamount₂, hrest₂⟩ := exactQuote_priced hq₂ hpriced₂
  obtain rfl : offering = offering₁ := Except.ok.inj (hoffering.symm.trans hoffering₁)
  obtain rfl : offering = offering₂ := Except.ok.inj (hoffering.symm.trans hoffering₂)
  obtain rfl : plan = plan₁ := Except.ok.inj (hplan.symm.trans hplan₁)
  obtain rfl : plan = plan₂ := Except.ok.inj (hplan.symm.trans hplan₂)
  have hregion : q₁.region = q₂.region := hregion₁.trans hregion₂.symm
  rw [hregion] at hmain₁ hrest₁
  -- the inputs of the two quotes agree but for the one that was raised
  have hraised : Raised (asStr (spec.get "id")) q₁.inputs q₂.inputs :=
    resolveInputs_raised hsame (fun other hother hid => by
      rw [resolveInputSpecs_unique hspec hother hid]
      exact ⟨hnumeric, hlarger⟩) (Raised.refl _ []) hresolved₁ hresolved₂
  obtain ⟨b, type, hpricing, hblock, hparts⟩ := hshape.pricing
  rw [hpricing] at hmain₁ hmain₂ hvolume
  have hmain : amount₁ ≤ amount₂ :=
    evaluatePricing_mono hblock hparts hvolume hraised.atMost hmain₁ hmain₂ amount₁ hamount₁ amount₂
      hamount₂
  obtain ⟨parts₁, hparts₁, htotal₁⟩ := quotePriced_parts hshape hrest₁
  obtain ⟨parts₂, hparts₂, htotal₂⟩ := quotePriced_parts hshape hrest₂
  rw [hpriced₁] at htotal₁
  rw [hpriced₂] at htotal₂
  cases htotal₁
  cases htotal₂
  refine planParts_mono hraised.atMost hmain (fun factor hfactor x hx => hraised.same x ?_) hparts₁
    hparts₂
  -- no factor of the plan reads the raised input
  rintro rfl
  exact hunread factor hfactor hx

section Demo

instance (b : Dict) : Decidable (UsesVolume b) := inferInstanceAs (Decidable (_ ∨ _))

instance (x : Text) (factor : Val) : Decidable (Reads x factor) := inferInstanceAs (Decidable (_ = _))

instance (spec : Dict) : Decidable (IsNumeric spec) := inferInstanceAs (Decidable (_ = _))

def users (count : Int) : Dict := Dict.set "users" (.int count) []

/-- The document, the offering and the plan, if the document is accepted. -/
def planOf (doc : Dict) (planId : Text) : Checked (Dict × Dict × Dict) := do
  let pricing ← normalizePricingDoc doc
  let offering ← findOffering pricing "o"
  let plan ← findPlan offering planId
  pure (pricing, offering, plan)

def usersComparable (spec : Dict) : Bool :=
  asStr (spec.get "id") = "users".toList ∧ IsNumeric spec ∧ givenNumber spec (users 6) = some 6 ∧
    givenNumber spec (users 60) = some 60

def planComparable (parts : Dict × Dict × Dict) : Bool :=
  let (pricing, offering, plan) := parts
  ¬ UsesVolume (asMapping (plan.get "pricing")) ∧
    (∀ factor ∈ asList (plan.get "factors"), ¬ Reads "users" factor) ∧
    (resolveInputSpecs pricing offering plan).any usersComparable

/-- Six users of a plan and sixty. -/
theorem more_costs_no_less_rich : ∃ pricing q₁ q₂, normalizePricingDoc richList = .ok pricing ∧
    exactQuote pricing "o" "team" (users 6) "eur" none true = .ok q₁ ∧
    exactQuote pricing "o" "team" (users 60) "eur" none true = .ok q₂ ∧
    q₁.total = some 120 ∧ q₂.total = some (433 / 2) ∧ (120 : ℚ) ≤ 433 / 2 := by
  have htest : (planOf richList "team").toOption.any planComparable = true := by decide +kernel
  have htotal₁ : totalOf richList (users 6) "team" = some 120 := by decide +kernel
  have htotal₂ : totalOf richList (users 60) "team" = some (433 / 2) := by decide +kernel
  obtain ⟨pricing, q₁, hdoc, hq₁, hpriced₁⟩ := exists_of_totalOf htotal₁
  obtain ⟨pricing₂, q₂, hdoc₂, hq₂, hpriced₂⟩ := exists_of_totalOf htotal₂
  obtain rfl : pricing = pricing₂ := Except.ok.inj (hdoc.symm.trans hdoc₂)
  obtain ⟨offering, plan, _, _, hoffering, hplan, -⟩ := exactQuote_priced hq₁ hpriced₁
  have hparts : planOf richList "team" = .ok (pricing, offering, plan) := by
    unfold planOf
    rw [bind_of_eq_ok hdoc, bind_of_eq_ok hoffering, bind_of_eq_ok hplan]
    rfl
  rw [hparts] at htest
  obtain ⟨hvolume, hunread, hspecs⟩ := of_decide_eq_true htest
  obtain ⟨spec, hspec, hcomparable⟩ := List.any_eq_true.mp hspecs
  obtain ⟨hid, hnumeric, hgiven₁, hgiven₂⟩ := of_decide_eq_true hcomparable
  refine ⟨pricing, q₁, q₂, hdoc, hq₁, hq₂, hpriced₁, hpriced₂, ?_⟩
  refine more_costs_no_less richList "o" "team" (users 6) (users 60) "eur" none true pricing offering
    plan spec q₁ q₂ 120 (433 / 2) hdoc hoffering hplan hvolume hspec hnumeric ?_ ?_ ?_ hq₁ hq₂ hpriced₁
    hpriced₂
  · rw [hid]
    exact hunread
  · intro key hkey
    rw [hid] at hkey
    rw [users, users, Dict.find_set_of_ne _ hkey, Dict.find_set_of_ne _ hkey]
  · rw [hgiven₁, hgiven₂]
    decide

end Demo

end Infinito.Pricing
