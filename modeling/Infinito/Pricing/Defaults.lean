import Infinito.Pricing.Accepted

/-!
# The defaults of a price list

A price list names the offering and the plan that are ordered if nothing else is asked for.
Where it names none, `default` and `community` stand in for them; the first offering and its
first plan, which the last lines of `_normalize_pricing_doc` would take instead, never do, since
by then no default is blank.

Whether there is such an offering, with such a plan, nobody looks. `defaults_resolve_iff` says
when there is.
-/

set_option autoImplicit false

namespace Infinito.Pricing

open Py
open Lib (bind_ok exists_ok)

/-- A default id as the document has it, or else the one that stands in for it. -/
def defaultId (doc : Dict) (key other : Text) : Text := (orNone (asStr (doc.get key))).getD other

/-- `_find_offering` and `_find_plan` find what the defaults name. -/
def DefaultsResolve (pricing : Dict) : Prop :=
  ∃ offering plan, findOffering pricing (pricing.get "default_offering_id").text = .ok offering ∧
    findPlan offering (pricing.get "default_plan_id").text = .ok plan

/-- The first offering with the default id has a plan with the default id. -/
def NamesPlan (doc : Dict) : Prop :=
  ∃ offering plan,
    findById (defaultId doc "default_offering_id" "default") (asList (doc.get "offerings")) =
      some offering ∧
    findById (defaultId doc "default_plan_id" "community") (asList (offering.get "plans")) = some plan

section Resolve

variable {doc pricing : Dict} {wanted : Text} {field : String}

theorem findById_cons (item : Val) (items : List Val) :
    findById wanted (item :: items) =
      if asStr ((asMapping item).get "id") = wanted then some (asMapping item)
      else findById wanted items := by
  unfold findById
  rw [List.find?_cons]
  by_cases h : asStr ((asMapping item).get "id") = wanted
  · rw [decide_eq_true h, if_pos h]
    rfl
  · rw [decide_eq_false h, if_neg h]

/-- Items that keep their ids are found if they were found before. -/
theorem findById_normalizeAll {normalize : Nat → Val → Checked Dict} {index : Nat}
    {items out : List Val} (wanted : Text)
    (hid : ∀ index raw m, normalize index raw = .ok m →
      asStr (m.get "id") = asStr ((asMapping raw).get "id"))
    (h : normalizeAll normalize index items = .ok out) :
    findById wanted items = none ∧ findById wanted out = none ∨
      ∃ raw index m, findById wanted items = some (asMapping raw) ∧ normalize index raw = .ok m ∧
        findById wanted out = some m := by
  induction items generalizing index out with
  | nil =>
    cases h
    exact Or.inl ⟨rfl, rfl⟩
  | cons raw items ih =>
    obtain ⟨first, hfirst, h⟩ := bind_ok h
    obtain ⟨others, hothers, h⟩ := bind_ok h
    cases h
    rw [findById_cons, findById_cons, show asMapping (.dict first) = first from rfl,
      hid index raw first hfirst]
    by_cases hwanted : asStr ((asMapping raw).get "id") = wanted
    · rw [if_pos hwanted, if_pos hwanted]
      exact Or.inr ⟨raw, index, first, rfl, hfirst, rfl⟩
    · rw [if_neg hwanted, if_neg hwanted]
      exact ih hothers

theorem strip_asStr (v : Val) : strip (asStr v) = asStr v := strip_strip _

/-- A plan keeps its id. -/
theorem id_normalizePlan {index : Nat} {raw : Val} {plan : Dict}
    (h : normalizePlan field index raw = .ok plan) :
    asStr (plan.get "id") = asStr ((asMapping raw).get "id") := by
  unfold normalizePlan at h
  dsimp only at h
  split at h
  · cases h
  · obtain ⟨pricing, -, h⟩ := bind_ok h
    obtain ⟨inputs, -, h⟩ := bind_ok h
    obtain ⟨addons, -, h⟩ := bind_ok h
    obtain ⟨factors, -, h⟩ := bind_ok h
    obtain ⟨withFee, hfee, h⟩ := bind_ok h
    rw [get_normalizeOptional_of_ne h (by decide), get_normalizeOptional_of_ne hfee (by decide),
      get_setNonempty_of_ne (by decide), get_setNonempty_of_ne (by decide),
      get_setNonempty_of_ne (by decide)]
    show asStr (.str _) = _
    rw [asStr_str, strip_asStr]

/-- An offering keeps its id, and its plans are those that were there. -/
theorem normalizeOffering_eq_ok {index : Nat} {raw : Val} {offering : Dict}
    (h : normalizeOffering index raw = .ok offering) :
    asStr (offering.get "id") = asStr ((asMapping raw).get "id") ∧
      ∃ field plans, offering.get "plans" = .list plans ∧
        normalizeAll (normalizePlan field) 0 (asList ((asMapping raw).get "plans")) = .ok plans := by
  unfold normalizeOffering at h
  dsimp only at h
  split at h
  · cases h
  · split at h
    · cases h
    · rename_i plan plans hplans
      obtain ⟨inputs, -, h⟩ := bind_ok h
      obtain ⟨out, hout, h⟩ := bind_ok h
      cases h
      refine ⟨?_, _, out, Dict.get_set_self _ _ _, by rw [hplans]; exact hout⟩
      rw [Dict.get_set_of_ne _ (by decide), get_setNonempty_of_ne (by decide)]
      show asStr (.str _) = _
      rw [asStr_str, strip_asStr]

theorem strip_defaultId (doc : Dict) (key : Text) {other : Text} (hother : strip other = other) :
    strip (defaultId doc key other) = defaultId doc key other := by
  unfold defaultId orNone
  split
  · exact hother
  · exact strip_asStr _

/-- What the result says about its defaults and its offerings. -/
theorem normalizePricingDoc_eq_ok (h : normalizePricingDoc doc = .ok pricing) :
    pricing.get "default_offering_id" = .str (defaultId doc "default_offering_id" "default") ∧
      pricing.get "default_plan_id" = .str (defaultId doc "default_plan_id" "community") ∧
      ∃ offerings, pricing.get "offerings" = .list offerings ∧
        normalizeAll normalizeOffering 0 (asList (doc.get "offerings")) = .ok offerings := by
  unfold normalizePricingDoc at h
  split at h
  · cases h
  · obtain ⟨inputs, -, h⟩ := bind_ok h
    split at h
    · cases h
    · rename_i offering offerings hofferings
      obtain ⟨out, hout, h⟩ := bind_ok h
      cases h
      refine ⟨?_, ?_, out, Dict.get_set_self _ _ _, by rw [hofferings]; exact hout⟩
      · rw [Dict.get_set_of_ne _ (by decide), get_setNonempty_of_ne (by decide)]
        rfl
      · exact (Dict.get_set_of_ne _ (by decide)).trans (get_setNonempty_of_ne (by decide))

theorem findOffering_eq_ok {offering : Dict} {id : Text} (hid : strip id = id) :
    findOffering pricing id = .ok offering ↔
      findById id (asList (pricing.get "offerings")) = some offering := by
  unfold findOffering
  rw [hid]
  cases findById id (asList (pricing.get "offerings")) with
  | none => exact iff_of_false nofun nofun
  | some m => simp

theorem findPlan_eq_ok {offering plan : Dict} {id : Text} (hid : strip id = id) :
    findPlan offering id = .ok plan ↔ findById id (asList (offering.get "plans")) = some plan := by
  unfold findPlan
  rw [hid]
  cases findById id (asList (offering.get "plans")) with
  | none => exact iff_of_false nofun nofun
  | some m => simp

/-- **When the defaults of an accepted price list lead to a plan.** -/
theorem defaults_resolve_iff (h : normalizePricingDoc doc = .ok pricing) :
    DefaultsResolve pricing ↔ NamesPlan doc := by
  obtain ⟨hoffering, hplan, offerings, hofferings, hall⟩ := normalizePricingDoc_eq_ok h
  unfold DefaultsResolve NamesPlan
  rw [hoffering, hplan]
  have hdefault : strip "default".toList = "default".toList := by decide
  have hcommunity : strip "community".toList = "community".toList := by decide
  simp only [Val.text, findOffering_eq_ok (strip_defaultId doc _ hdefault),
    findPlan_eq_ok (strip_defaultId doc _ hcommunity), hofferings]
  rcases findById_normalizeAll (defaultId doc "default_offering_id" "default")
    (fun _ _ _ h => (normalizeOffering_eq_ok h).1) hall with
      ⟨hraw, hout⟩ | ⟨raw, index, m, hraw, hm, hout⟩
  · rw [hraw, show asList (.list offerings) = offerings from rfl, hout]
  · rw [hraw, show asList (.list offerings) = offerings from rfl, hout]
    obtain ⟨-, field, plans, hplans, hnormalized⟩ := normalizeOffering_eq_ok hm
    rcases findById_normalizeAll (defaultId doc "default_plan_id" "community")
      (fun _ _ _ h => id_normalizePlan h) hnormalized with
        ⟨hrawPlan, hplan⟩ | ⟨p, _, m', hrawPlan, -, hplan⟩
    · refine iff_of_false ?_ ?_
      · rintro ⟨_, _, ⟨⟩, hfound⟩
        rw [hplans, show asList (.list plans) = plans from rfl, hplan] at hfound
        cases hfound
      · rintro ⟨_, _, ⟨⟩, hfound⟩
        rw [hrawPlan] at hfound
        cases hfound
    · exact iff_of_true ⟨m, m', rfl, by rw [hplans]; exact hplan⟩ ⟨_, _, rfl, hrawPlan⟩

end Resolve

section Demo

/-- One plan, for which one has to ask. -/
def cloudPlan : Dict :=
  [entry "id" (.str "basic"), entry "pricing" (.dict [entry "type" (.str "custom")])]

def cloudList (defaults : Dict) : Dict :=
  entry "schema" (.str "v2") ::
    entry "offerings" (.list [.dict [entry "id" (.str "cloud"),
      entry "plans" (.list [.dict cloudPlan])]]) ::
    defaults

/-- A price list that leaves the defaults to the normalizer has none. -/
theorem no_default_found : ¬ ∀ doc pricing, normalizePricingDoc doc = .ok pricing →
    DefaultsResolve pricing := by
  intro hclaim
  have haccepted : (normalizePricingDoc (cloudList [])).toOption.isSome = true := by decide +kernel
  obtain ⟨pricing, hdoc⟩ := exists_ok haccepted
  obtain ⟨offering, plan, hoffering, -⟩ := hclaim _ _ hdoc
  obtain ⟨hid, -, offerings, hofferings, hall⟩ := normalizePricingDoc_eq_ok hdoc
  rw [hid, show (Val.str (defaultId (cloudList []) "default_offering_id" "default")).text =
    "default".toList from rfl, findOffering_eq_ok (by decide), hofferings] at hoffering
  rcases findById_normalizeAll "default".toList
    (fun _ _ _ h => (normalizeOffering_eq_ok h).1) hall with ⟨-, hout⟩ | ⟨_, _, _, hraw, -⟩
  · cases hout.symm.trans hoffering
  · cases hraw

theorem named_default_found : ∃ pricing, normalizePricingDoc (cloudList
    [entry "default_offering_id" (.str " cloud "), entry "default_plan_id" (.str "basic")]) =
      .ok pricing ∧ DefaultsResolve pricing := by
  have haccepted : (normalizePricingDoc (cloudList [entry "default_offering_id" (.str " cloud "),
      entry "default_plan_id" (.str "basic")])).toOption.isSome = true := by decide +kernel
  obtain ⟨pricing, hdoc⟩ := exists_ok haccepted
  exact ⟨pricing, hdoc, (defaults_resolve_iff hdoc).mpr ⟨_, _, rfl, rfl⟩⟩

end Demo

end Infinito.Pricing
