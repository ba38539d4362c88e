import Infinito.Pricing.Idempotent
import Infinito.Pricing.Quote
import Mathlib.Algebra.Order.Field.Rat
import Mathlib.Data.List.Triplewise
import Mathlib.Tactic.Linarith

/-!
# Which tier a unit is charged in

The quantity of a progressive price is an amount of units, from 0 up to it. Each unit belongs to
the first tier whose bound reaches it, and is to be charged there, once.

The loop keeps the bound of the last tier as the lower bound of the next. That is right as long
as bounds rise; after a bound that falls it forgets what was charged already, and charges units
of the next higher tier too many. And when the tiers are used up it returns, whatever is left.
`priced_once_iff` says for which quantities neither happens (`Reached`).

`charges` is what the loop takes of each tier, `bill` what that comes to, and together they are
the loop (`progressiveTiers_eq`); `units` is what it should take.
-/

set_option autoImplicit false

namespace Infinito.Pricing

open Py
open Lib (ok_of_toOption)

/-! ## Amounts of units, by the bounds of the tiers -/

section Bounds

variable {q remaining lower reached : ℚ} {b : Option ℚ} {bs : List (Option ℚ)}

/-- What the loop takes of each tier. -/
def charges : List (Option ℚ) → (remaining lower : ℚ) → List ℚ
  | [], _, _ => []
  | limit :: limits, remaining, lower =>
    let share := maxInTier limit remaining lower
    if remaining ≤ 0 then 0 :: charges limits remaining lower
    else if share ≤ 0 then 0 :: charges limits remaining (lowerBound limit lower)
    else share :: charges limits (remaining - share) (limit.getD lower)

/-- A tier with this bound is for the unit at `u`, if none before it is. -/
def Reaches (u : ℚ) (limit : Option ℚ) : Prop := ∀ bound ∈ limit, u ≤ bound

instance (u : ℚ) : DecidablePred (Reaches u) := fun limit =>
  inferInstanceAs (Decidable (∀ bound ∈ limit, u ≤ bound))

/-- How far a tier reaches into the quantity. -/
def reach (q : ℚ) : Option ℚ → ℚ
  | none => q
  | some limit => min q limit

/-- How many units of the quantity there are in each tier, above those that are `reached`. -/
def units (q : ℚ) : List (Option ℚ) → (reached : ℚ) → List ℚ
  | [], _ => []
  | limit :: limits, reached =>
    (max (reach q limit) reached - reached) :: units q limits (max (reach q limit) reached)

theorem reach_le (q : ℚ) (b : Option ℚ) : reach q b ≤ q := by
  cases b with
  | none => exact le_rfl
  | some limit => exact min_le_left q limit

theorem le_reach_iff {u : ℚ} (hu : u ≤ q) : u ≤ reach q b ↔ Reaches u b := by
  cases b with
  | none => exact iff_of_true hu nofun
  | some limit =>
    unfold reach Reaches
    rw [le_min_iff, and_iff_right hu]
    exact ⟨fun h _ hb => by cases hb; exact h, fun h => h limit rfl⟩

/-- The units in tier `i` are those it is the first tier to reach: an interval, of that length. -/
theorem units_first {i : Nat} (hi : i < (units q bs reached).length) :
    ∃ start, ∀ u, (reached < u ∧ u ≤ q ∧ bs.findIdx (Reaches u ·) = i) ↔
      start < u ∧ u ≤ start + (units q bs reached)[i] := by
  induction bs generalizing reached i with
  | nil => exact absurd hi (Nat.not_lt_zero i)
  | cons limit limits ih =>
    cases i with
    | zero =>
      refine ⟨reached, fun u => and_congr_right fun hreached => ?_⟩
      show _ ↔ u ≤ reached + (max (reach q limit) reached - reached)
      rw [add_sub_cancel, le_max_iff, or_iff_left (not_le.mpr hreached), List.findIdx_cons]
      by_cases hq : u ≤ q
      · rw [le_reach_iff hq, and_iff_right hq]
        by_cases hlimit : Reaches u limit
        · rw [decide_eq_true hlimit]
          exact iff_of_true rfl hlimit
        · rw [decide_eq_false hlimit]
          exact iff_of_false (Nat.succ_ne_zero _) hlimit
      · exact iff_of_false (fun h => hq h.1) fun h => hq (h.trans (reach_le q limit))
    | succ i =>
      obtain ⟨start, hstart⟩ := ih (Nat.lt_of_succ_lt_succ hi)
      refine ⟨start, fun u => Iff.trans ?_ (hstart u)⟩
      rw [List.findIdx_cons, max_lt_iff]
      constructor
      · rintro ⟨hreached, hq, hfirst⟩
        have hlimit : ¬ Reaches u limit := fun h => by
          rw [decide_eq_true h] at hfirst
          cases hfirst
        rw [decide_eq_false hlimit] at hfirst
        exact ⟨⟨not_le.mp (mt (le_reach_iff hq).mp hlimit), hreached⟩, hq, Nat.succ.inj hfirst⟩
      · rintro ⟨⟨hreach, hreached⟩, hq, hfirst⟩
        have hlimit : ¬ Reaches u limit := mt (le_reach_iff hq).mpr (not_le.mpr hreach)
        rw [decide_eq_false hlimit]
        exact ⟨hreached, hq, congrArg Nat.succ hfirst⟩

/-! ## When the loop is right -/

/-- Nothing is left to charge, and nothing is charged. -/
theorem charges_done (hdone : remaining ≤ 0) : charges bs remaining lower = bs.map fun _ => 0 := by
  induction bs generalizing lower with
  | nil => rfl
  | cons limit limits ih =>
    unfold charges
    dsimp only
    rw [if_pos hdone, ih, List.map_cons]

theorem units_done (hdone : q ≤ reached) : units q bs reached = bs.map fun _ => 0 := by
  induction bs with
  | nil => rfl
  | cons limit limits ih =>
    have hmax : max (reach q limit) reached = reached := max_eq_right ((reach_le q limit).trans hdone)
    unfold units
    rw [hmax, sub_self, ih, List.map_cons]

/-- No bound that is not zero lies between two greater ones. -/
def NoValley (bounds : List ℚ) : Prop :=
  bounds.Triplewise fun a low c => 0 < low → low < a → c ≤ low

/-- Some tier reaches the quantity, and the bounds before the first that does have no valley. -/
def Reached (q : ℚ) (limits : List (Option ℚ)) : Prop :=
  q ≤ 0 ∨ ∃ before limit after, limits = before.map some ++ limit :: after ∧ Reaches q limit ∧
    (∀ bound ∈ before, bound < q) ∧ NoValley before

/-- A bound of zero is passed over. -/
theorem noValley_zero {M l : ℚ} {bounds : List ℚ} (hl : 0 ≤ l) :
    NoValley (M :: l :: 0 :: bounds) ↔ NoValley (M :: l :: bounds) := by
  unfold NoValley
  simp only [List.triplewise_cons, List.pairwise_cons, List.forall_mem_cons]
  constructor
  · rintro ⟨⟨⟨-, hM⟩, -, hMs⟩, ⟨-, hls⟩, -, hs⟩
    exact ⟨⟨hM, hMs⟩, hls, hs⟩
  · rintro ⟨⟨hM, hMs⟩, hls, hs⟩
    refine ⟨⟨⟨fun _ _ => hl, hM⟩, fun _ _ h => absurd h (lt_irrefl 0), hMs⟩,
      ⟨fun _ _ h => absurd h (lt_irrefl 0), hls⟩, ?_, hs⟩
    exact List.pairwise_of_forall fun _ _ hpos hneg => absurd (hpos.trans hneg) (lt_irrefl 0)

/-- A bound that is no higher takes the place of the one before it. -/
theorem noValley_fall {M l x : ℚ} {bounds : List ℚ} (hx : 0 < x) (hxl : x ≤ l) (hlM : l ≤ M) :
    NoValley (M :: l :: x :: bounds) ↔ NoValley (M :: x :: bounds) := by
  unfold NoValley
  simp only [List.triplewise_cons, List.pairwise_cons, List.forall_mem_cons]
  constructor
  · rintro ⟨⟨-, hM, hMs⟩, -, hxs, hs⟩
    exact ⟨⟨hM, hMs⟩, hxs, hs⟩
  · rintro ⟨⟨hM, hMs⟩, hxs, hs⟩
    refine ⟨⟨⟨fun _ _ => hxl, fun c hc _ hlow => ?_⟩, hM, hMs⟩,
      ⟨fun c hc _ hlow => hM c hc hx (hlow.trans_le hlM), ?_⟩, hxs, hs⟩
    · exact (hM c hc hx (hxl.trans_lt hlow)).trans hxl
    · exact hMs.imp fun h hpos hlow => h hpos (hlow.trans_le hlM)

/-- And so does one that is higher than all. -/
theorem noValley_rise {M x : ℚ} {bounds : List ℚ} (hx : M < x) :
    NoValley (M :: M :: x :: bounds) ↔ NoValley (x :: x :: bounds) := by
  unfold NoValley
  simp only [List.triplewise_cons, List.pairwise_cons, List.forall_mem_cons]
  constructor
  · rintro ⟨-, -, hxs, hs⟩
    exact ⟨⟨fun _ _ _ h => absurd h (lt_irrefl x), hxs⟩, hxs, hs⟩
  · rintro ⟨⟨-, hxs⟩, -, hs⟩
    have hMs : bounds.Pairwise fun low c => 0 < low → low < M → c ≤ low :=
      hxs.imp fun h hpos hlow => h hpos (hlow.trans hx)
    have hnone (c : ℚ) (_ : c ∈ bounds) (_ : 0 < x) (hlow : x < M) : c ≤ x :=
      absurd hlow (not_lt.mpr hx.le)
    exact ⟨⟨⟨fun _ h => absurd h (lt_irrefl M), fun _ _ _ h => absurd h (lt_irrefl M)⟩, hnone, hMs⟩,
      ⟨hnone, hMs⟩, hxs, hs⟩

/-- `Reached`, from where the loop has charged up to `M` and goes on from `l`. -/
def ReachedFrom (q M l : ℚ) (limits : List (Option ℚ)) : Prop :=
  ∃ before limit after, limits = before.map some ++ limit :: after ∧ Reaches q limit ∧
    (∀ bound ∈ before, bound < q) ∧ NoValley (M :: l :: before)

section Step

variable {M l x : ℚ} {limits : List (Option ℚ)}

theorem reachedFrom_cons (hx : x < q) : ReachedFrom q M l (some x :: limits) ↔
    ∃ before limit after, limits = before.map some ++ limit :: after ∧ Reaches q limit ∧
      (∀ bound ∈ before, bound < q) ∧ NoValley (M :: l :: x :: before) := by
  constructor
  · rintro ⟨before, limit, after, heq, hlimit, hbefore, hvalley⟩
    cases before with
    | nil =>
      obtain ⟨rfl, -⟩ := List.cons_eq_cons.mp heq
      exact absurd (hlimit x rfl) (not_le.mpr hx)
    | cons y before =>
      obtain ⟨hy, hrest⟩ := List.cons_eq_cons.mp heq
      cases hy
      exact ⟨before, limit, after, hrest, hlimit, (List.forall_mem_cons.mp hbefore).2, hvalley⟩
  · rintro ⟨before, limit, after, rfl, hlimit, hbefore, hvalley⟩
    exact ⟨x :: before, limit, after, rfl, hlimit, List.forall_mem_cons.mpr ⟨hx, hbefore⟩, hvalley⟩

theorem charges_skip (hpos : 0 < remaining) (hfull : x ≤ lower) :
    charges (some x :: limits) remaining lower =
      0 :: charges limits remaining (lowerBound (some x) lower) := by
  have hshare : maxInTier (some x) remaining lower ≤ 0 :=
    (min_le_right _ _).trans (max_eq_right (sub_nonpos.mpr hfull)).le
  rw [charges.eq_def]
  dsimp only
  rw [if_neg (not_le.mpr hpos), if_pos hshare]

theorem charges_take (hpos : 0 < remaining) (hroom : lower < x) :
    charges (some x :: limits) remaining lower = min remaining (x - lower) ::
      charges limits (remaining - min remaining (x - lower)) x := by
  have hshare : maxInTier (some x) remaining lower = min remaining (x - lower) :=
    congrArg (min remaining) (max_eq_left (sub_nonneg.mpr hroom.le))
  have hmin : ¬ min remaining (x - lower) ≤ 0 := not_le.mpr (lt_min hpos (sub_pos.mpr hroom))
  rw [charges.eq_def]
  dsimp only
  rw [hshare, if_neg (not_le.mpr hpos), if_neg hmin, Option.getD_some]

theorem lowerBound_zero : lowerBound (some 0) l = l := by
  unfold lowerBound
  dsimp only
  rw [if_pos rfl]

theorem maxInTier_reaches (hlM : l ≤ M) (h : Reaches q b) :
    maxInTier b (q - M) l = q - M := by
  cases b with
  | none => rfl
  | some x =>
    have hx : q ≤ x := h x rfl
    exact min_eq_left (le_max_of_le_left (by linarith))

theorem units_below (hx : x < q) : units q (some x :: limits) M =
    (max x M - M) :: units q limits (max x M) := by
  rw [units, show reach q (some x) = x from min_eq_right hx.le]

/-- What is left of the quantity is charged where it belongs, and all of it. -/
theorem charges_eq_units_iff (hbounds : ∀ limit ∈ bs, ∀ bound ∈ limit, 0 ≤ bound) (hl : 0 ≤ l)
    (hlM : l ≤ M) (hzero : l = 0 → M = 0) (hM : M < q) :
    (charges bs (q - M) l = units q bs M ∧ (units q bs M).sum = q - M) ↔
      ReachedFrom q M l bs := by
  have hpos : 0 < q - M := sub_pos.mpr hM
  induction bs generalizing M l with
  | nil =>
    refine iff_of_false (fun h => hpos.ne h.2) ?_
    rintro ⟨before, limit, after, heq, -⟩
    exact List.append_ne_nil_of_right_ne_nil _ (List.cons_ne_nil _ _) heq.symm
  | cons limit limits ih =>
    obtain ⟨hlimit, hlimits⟩ := List.forall_mem_cons.mp hbounds
    by_cases hq : Reaches q limit
    · -- the tier takes all that is left
      have hreach : max (reach q limit) M = q := by
        rw [le_antisymm (reach_le q limit) ((le_reach_iff le_rfl).mpr hq)]
        exact max_eq_left hM.le
      refine iff_of_true ⟨?_, ?_⟩ ⟨[], limit, limits, rfl, hq, nofun, List.triplewise_pair _ _ _⟩
      · rw [charges, units, maxInTier_reaches hlM hq, if_neg (not_le.mpr hpos),
          if_neg (not_le.mpr hpos), hreach, sub_self, charges_done le_rfl, units_done le_rfl]
      · rw [units, hreach, units_done le_rfl, List.sum_cons]
        simp
    · obtain ⟨x, rfl⟩ : ∃ x, limit = some x := by
        cases limit with
        | none => exact absurd nofun hq
        | some x => exact ⟨x, rfl⟩
      have hx : x < q := not_le.mp fun h => hq fun _ hbound => by cases hbound; exact h
      have hx₀ : 0 ≤ x := hlimit x rfl
      rw [reachedFrom_cons hx, units_below hx]
      rcases le_or_gt x l with hxl | hxl
      · -- nothing of it is left
        rw [charges_skip hpos hxl, max_eq_right (hxl.trans hlM), sub_self, List.cons_inj_right,
          List.sum_cons, zero_add]
        by_cases hzero' : x = 0
        · subst hzero'
          rw [lowerBound_zero]
          refine (ih hlimits hl hlM hzero hM hpos).trans ?_
          unfold ReachedFrom
          simp only [noValley_zero hl]
        · have hxpos : 0 < x := lt_of_le_of_ne hx₀ (Ne.symm hzero')
          rw [show lowerBound (some x) l = x by exact if_neg hzero']
          refine (ih hlimits hx₀ (hxl.trans hlM) (fun h => absurd h hzero') hM hpos).trans ?_
          unfold ReachedFrom
          simp only [noValley_fall hxpos hxl hlM]
      · rw [charges_take hpos hxl]
        rcases eq_or_lt_of_le hlM with rfl | hlM
        · -- the bounds rise
          have hroom : min (q - l) (x - l) = x - l := min_eq_right (by linarith)
          rw [hroom, max_eq_left hxl.le, List.cons_inj_right, List.sum_cons,
            show q - l - (x - l) = q - x by ring, ← eq_sub_iff_add_eq',
            show q - l - (x - l) = q - x by ring]
          refine (ih hlimits hx₀ le_rfl id hx (sub_pos.mpr hx)).trans ?_
          unfold ReachedFrom
          simp only [noValley_rise hxl]
        · -- they rise again, and units up to `M` are charged once more
          have hlpos : 0 < l := lt_of_le_of_ne hl fun h => by
            rw [hzero h.symm] at hlM
            exact absurd hlM (not_lt.mpr hl)
          refine iff_of_false ?_ ?_
          · rintro ⟨heq, -⟩
            have hhead := (List.cons_eq_cons.mp heq).1
            rcases max_cases x M with ⟨hmax, -⟩ | ⟨hmax, -⟩ <;>
              rcases min_cases (q - M) (x - l) with ⟨hmin, -⟩ | ⟨hmin, -⟩ <;>
                rw [hmax, hmin] at hhead <;> linarith
          · rintro ⟨before, limit, after, -, -, -, hvalley⟩
            have hM' := (List.pairwise_cons.mp (List.triplewise_cons.mp hvalley).1).1 x
              List.mem_cons_self hlpos hlM
            exact absurd hM' (not_le.mpr hxl)

end Step

theorem reached_iff (hpos : 0 < q) : Reached q bs ↔ ReachedFrom q 0 0 bs := by
  have hvalley (before : List ℚ) : NoValley (0 :: 0 :: before) ↔ NoValley before := by
    unfold NoValley
    simp only [List.triplewise_cons, List.pairwise_cons]
    refine ⟨fun h => h.2.2, fun h => ?_⟩
    have hnone : before.Pairwise fun low c => 0 < low → low < 0 → c ≤ low :=
      List.pairwise_of_forall fun _ _ hlow hneg => absurd (hlow.trans hneg) (lt_irrefl 0)
    exact ⟨⟨fun _ _ hlow => absurd hlow (lt_irrefl 0), hnone⟩, hnone, h⟩
  unfold Reached ReachedFrom
  rw [or_iff_right (not_le.mpr hpos)]
  simp only [hvalley]

end Bounds

example : charges [some 100, some 50, some 80, none] 220 0 = [100, 0, 30, 90] ∧
    units 220 [some 100, some 50, some 80, none] 0 = [100, 0, 0, 120] := by decide +kernel

/-! ## What it comes to -/

section Bill

variable {currency region : Text} {field : String}

/-- The bounds of the tiers. -/
def limits (tiers : List Val) : List (Option ℚ) := tiers.map fun raw => upTo (asMapping raw)

/-- The price of these amounts, each at the price of its tier. Where a tier has no price for the
    currency, there is none. -/
def bill (currency region : Text) (field : String) : Nat → List Val → List ℚ → Option ℚ
  | index, raw :: tiers, amount :: amounts =>
    if amount = 0 then bill currency region field (index + 1) tiers amounts
    else do
      let price ← (resolveAmount (asMapping raw) currency region
        (field ++ "[" ++ Nat.repr index ++ "]")).toOption
      let rest ← bill currency region field (index + 1) tiers amounts
      some (amount * price + rest)
  | _, _, _ => some 0

theorem bill_none {index : Nat} {tiers : List Val} :
    bill currency region field index tiers ((limits tiers).map fun _ => 0) = some 0 := by
  induction tiers generalizing index with
  | nil => rfl
  | cons raw tiers ih =>
    show (if (0 : ℚ) = 0 then _ else _) = _
    rw [if_pos rfl]
    exact ih

/-- **The loop charges what it takes of each tier.** It raises where that has no price. -/
theorem progressiveTiers_eq {index : Nat} {tiers : List Val} {remaining lower total : ℚ} :
    (progressiveTiers currency region field index tiers remaining lower total).toOption =
      (bill currency region field index tiers (charges (limits tiers) remaining lower)).map
        (total + ·) := by
  induction tiers generalizing index remaining lower total with
  | nil => exact congrArg some (add_zero total).symm
  | cons raw tiers ih =>
    rw [show limits (raw :: tiers) = upTo (asMapping raw) :: limits tiers from rfl, progressiveTiers,
      charges]
    by_cases hdone : remaining ≤ 0
    · rw [if_pos hdone, if_pos hdone, charges_done hdone]
      show _ = (if (0 : ℚ) = 0 then _ else _ : Option ℚ).map _
      rw [if_pos rfl, bill_none]
      exact congrArg some (add_zero total).symm
    · rw [if_neg hdone, if_neg hdone]
      by_cases hshare : maxInTier (upTo (asMapping raw)) remaining lower ≤ 0
      · rw [if_pos hshare, if_pos hshare, ih]
        show _ = (if (0 : ℚ) = 0 then _ else _ : Option ℚ).map _
        rw [if_pos rfl]
      · rw [if_neg hshare, if_neg hshare]
        have hne : maxInTier (upTo (asMapping raw)) remaining lower ≠ 0 :=
          fun h => hshare h.le
        rw [bill, if_neg hne]
        cases hprice : resolveAmount (asMapping raw) currency region
            (field ++ "[" ++ Nat.repr index ++ "]") with
        | error e => rfl
        | ok price =>
          cases hlimit : upTo (asMapping raw) with
          | none =>
            rw [show maxInTier none remaining lower = remaining from rfl, sub_self,
              charges_done le_rfl]
            show some (total + remaining * price) = Option.map (total + ·)
              ((bill currency region field (index + 1) tiers ((limits tiers).map fun _ => 0)).bind _)
            rw [bill_none]
            exact congrArg (fun amount => some (total + amount)) (add_zero _).symm
          | some limit =>
            show (progressiveTiers _ _ _ _ _ _ _ _).toOption = Option.map (total + ·)
              (Option.bind (bill currency region field (index + 1) tiers _) _)
            rw [ih, Option.getD_some]
            cases bill currency region field (index + 1) tiers (charges (limits tiers)
                (remaining - maxInTier (some limit) remaining lower) limit) with
            | none => rfl
            | some rest => exact congrArg some (add_assoc _ _ _)

/-- Each unit is charged in the tier it belongs to, all are, and the total is what that comes to. -/
structure PricedOnce (q : ℚ) (tiers : List Val) (currency region : Text) (field : String)
    (total : ℚ) : Prop where
  charged : charges (limits tiers) q 0 = units q (limits tiers) 0
  all : (units q (limits tiers) 0).sum = max q 0
  total : bill currency region field 0 tiers (units q (limits tiers) 0) = some total

variable {q total : ℚ} {v : Val} {tiers : List Val}

theorem bound_of_amount {d : Dict} {key : Text} {up : Val} (h : d.find key = some up)
    (hup : up = .none ∨ IsAmount up) : ∀ b ∈ bound d key, 0 ≤ b := by
  rw [bound, get_of_find h]
  rcases hup with rfl | ⟨amount, rfl, hamount⟩
  · exact nofun
  · intro b hb
    cases hb
    exact hamount

/-- The bounds that are accepted are not negative. -/
theorem limits_nonneg {name : String} (h : normalizePriceBands v name = .ok tiers) :
    ∀ limit ∈ limits tiers, ∀ bound ∈ limit, 0 ≤ bound := by
  intro limit hlimit
  obtain ⟨raw, hraw, rfl⟩ := List.mem_map.mp hlimit
  obtain ⟨d, up, rfl, -, hfind, hup⟩ := (normalizePriceBands_good h).1 raw hraw
  exact bound_of_amount hfind hup

/-- **Every unit is priced once** if and only if some tier reaches the quantity and, before the
    first that does, no bound but zero lies between two greater ones. -/
theorem priced_once_iff {name : String} (hbands : normalizePriceBands v name = .ok tiers)
    (h : calcProgressiveTiers q tiers currency region field = .ok total) :
    PricedOnce q tiers currency region field total ↔ Reached q (limits tiers) := by
  have hbill : bill currency region field 0 tiers (charges (limits tiers) q 0) = some total := by
    have hloop : Except.toOption (.ok total : Checked ℚ) = _ :=
      (congrArg Except.toOption h).symm.trans progressiveTiers_eq
    obtain ⟨amount, hamount, hsum⟩ := Option.map_eq_some_iff.mp hloop.symm
    rw [hamount, ← hsum, zero_add]
  rcases le_or_gt q 0 with hnone | hpos
  · have hunits : units q (limits tiers) 0 = (limits tiers).map fun _ => 0 := units_done hnone
    refine iff_of_true ⟨?_, ?_, ?_⟩ (Or.inl hnone)
    · rw [hunits, charges_done hnone]
    · rw [hunits, max_eq_right hnone]
      simp
    · rw [hunits, ← show charges (limits tiers) q 0 = _ from charges_done hnone, hbill]
  · have hsplit := charges_eq_units_iff (q := q) (limits_nonneg hbands) le_rfl le_rfl (fun _ => rfl)
      hpos
    rw [sub_zero] at hsplit
    rw [reached_iff hpos, ← hsplit]
    constructor
    · rintro ⟨hcharged, hall, -⟩
      exact ⟨hcharged, hall.trans (max_eq_left hpos.le)⟩
    · rintro ⟨hcharged, hall⟩
      exact ⟨hcharged, hall.trans (max_eq_left hpos.le).symm, by rw [← hcharged, hbill]⟩

end Bill

section Demo

def euroTier (upTo : Val) (price : Int) : Val :=
  .dict [entry "up_to" upTo, entry "prices" (.dict [entry "EUR" (.int price)])]

/-- Reading tiers and charging by them, in one. -/
def quoteTiers (bands : List Val) (q : ℚ) : Option (List (Option ℚ) × ℚ) := do
  let tiers ← (normalizePriceBands (.list bands) "tiers").toOption
  let total ← (calcProgressiveTiers q tiers "eur" [] "tiers").toOption
  some (limits tiers, total)

theorem exists_of_quoteTiers {bands : List Val} {q total : ℚ} {limits' : List (Option ℚ)}
    (h : quoteTiers bands q = some (limits', total)) : ∃ tiers,
      normalizePriceBands (.list bands) "tiers" = .ok tiers ∧ limits tiers = limits' ∧
        calcProgressiveTiers q tiers "eur" [] "tiers" = .ok total := by
  obtain ⟨tiers, htiers, h⟩ := Option.bind_eq_some_iff.mp h
  obtain ⟨amount, hamount, h⟩ := Option.bind_eq_some_iff.mp h
  cases h
  exact ⟨tiers, ok_of_toOption htiers, rfl, ok_of_toOption hamount⟩

/-- Fifteen units, of which the one tier is for ten: the others cost nothing. -/
theorem units_left_out : ¬ ∀ v name tiers q currency region field total,
    normalizePriceBands v name = .ok tiers →
      calcProgressiveTiers q tiers currency region field = .ok total →
        PricedOnce q tiers currency region field total := by
  intro hclaim
  have hquote : quoteTiers [euroTier (.int 10) 2] 15 = some ([some 10], 20) := by decide +kernel
  obtain ⟨tiers, htiers, hlimits, htotal⟩ := exists_of_quoteTiers hquote
  have hall := (hclaim _ _ tiers 15 "eur" [] "tiers" 20 htiers htotal).all
  rw [hlimits] at hall
  revert hall
  decide +kernel

theorem priced_once_open : ∃ tiers total,
    normalizePriceBands (.list [euroTier (.int 10) 2, euroTier .none 1]) "tiers" = .ok tiers ∧
      calcProgressiveTiers 15 tiers "eur" [] "tiers" = .ok total ∧
        PricedOnce 15 tiers "eur" [] "tiers" total := by
  have hquote : quoteTiers [euroTier (.int 10) 2, euroTier .none 1] 15 =
      some ([some 10, none], 25) := by decide +kernel
  obtain ⟨tiers, htiers, hlimits, htotal⟩ := exists_of_quoteTiers hquote
  refine ⟨tiers, 25, htiers, htotal, (priced_once_iff htiers htotal).mpr (Or.inr ?_)⟩
  rw [hlimits]
  exact ⟨[10], none, [], rfl, nofun, by decide +kernel, List.triplewise_singleton _ _⟩

end Demo

end Infinito.Pricing
