import Infinito.Pricing.Accepted

/-!
# Normalizing twice

The result of the normalizer is a document again. `normalize_again` says that it is accepted, and
left as it is, to the order of its keys.

Each part of the normalizer has a normal form of its own, which it produces and leaves alone. The
three loops over amounts are one loop (`keyed`): it reads items into a dictionary by keys that
read as themselves the second time.
-/

set_option autoImplicit false

namespace Infinito.Pricing

open Py
open Lib (bind_ok bind_of_eq_ok exists_ok)

section Keyed

variable {field : String} {m out : Dict} {key : Text} {v : Val}

/-- A loop that reads items, or passes over them, and collects them by key. -/
def keyed (read : Val → Val → Checked (Option (Text × Val))) : Dict → Dict → Checked Dict
  | out, [] => .ok out
  | out, (key, value) :: items => do
    match ← read key value with
    | none => keyed read out items
    | some (key, value) => keyed read (out.set key value) items

/-- Different keys, and every item is good. -/
structure Keyed (Good : Text → Val → Prop) (m : Dict) : Prop where
  nodup : (m.map (·.1)).Nodup
  good : ∀ item ∈ m, ∃ key v, item = (.str key, v) ∧ Good key v

variable {Good : Text → Val → Prop} {read : Val → Val → Checked (Option (Text × Val))}

theorem Keyed.nil : Keyed Good [] := ⟨List.nodup_nil, nofun⟩

theorem Keyed.set (h : Keyed Good m) (hgood : Good key v) : Keyed Good (m.set key v) := by
  refine ⟨Dict.nodup_set h.nodup, fun item hitem => ?_⟩
  rcases Dict.mem_of_mem_set hitem with hitem | rfl
  · exact h.good item hitem
  · exact ⟨key, v, rfl, hgood⟩

/-- What the loop collects is good. -/
theorem keyed_good (hread : ∀ k v key value, read k v = .ok (some (key, value)) → Good key value)
    {items : Dict} (hout : Keyed Good out) (h : keyed read out items = .ok m) : Keyed Good m := by
  induction items generalizing out with
  | nil =>
    cases h
    exact hout
  | cons item items ih =>
    obtain ⟨found, hfound, h⟩ := bind_ok h
    cases found with
    | none => exact ih hout h
    | some item => exact ih (hout.set (hread _ _ _ _ hfound)) h

/-- What is good is collected as it is. -/
theorem keyed_again (hread : ∀ key value, Good key value →
      read (.str key) value = .ok (some (key, value)))
    {items : Dict} (h : Keyed Good (out ++ items)) : keyed read out items = .ok (out ++ items) := by
  induction items generalizing out with
  | nil =>
    rw [List.append_nil]
    rfl
  | cons item items ih =>
    obtain ⟨key, value, rfl, hgood⟩ := h.good item (List.mem_append_right _ List.mem_cons_self)
    rw [keyed, bind_of_eq_ok (hread key value hgood)]
    have hnew : Dict.has out key = false := by
      rw [Bool.eq_false_iff]
      intro hhas
      obtain ⟨v, hv⟩ := Dict.has_iff.mp hhas
      have hnodup := h.nodup
      rw [List.map_append] at hnodup
      exact List.disjoint_of_nodup_append hnodup (List.mem_map_of_mem hv) List.mem_cons_self
    show keyed read (out.set key value) items = _
    rw [Dict.set_of_not_has hnew, ih]
    · rw [List.append_assoc]
      rfl
    · rw [List.append_assoc]
      exact h

theorem set_ne_nil (key : Text) (v : Val) (d : Dict) : d.set key v ≠ [] := by
  cases d with
  | nil => exact List.cons_ne_nil _ _
  | cons item d =>
    unfold Dict.set
    split
    · exact List.cons_ne_nil _ _
    · exact List.cons_ne_nil _ _

/-- Where no item is passed over, something is collected. -/
theorem keyed_ne_nil (hread : ∀ k v, read k v ≠ .ok none) {items : Dict}
    (hne : out ≠ [] ∨ items ≠ []) (h : keyed read out items = .ok m) : m ≠ [] := by
  induction items generalizing out with
  | nil =>
    cases h
    exact hne.resolve_right fun hnil => hnil rfl
  | cons item items ih =>
    obtain ⟨found, hfound, h⟩ := bind_ok h
    cases found with
    | none => exact absurd hfound (hread _ _)
    | some item => exact ih (Or.inl (set_ne_nil _ _ _)) h

/-- A dictionary that was set to what it holds. -/
theorem set_find {d : Dict} (h : d.find key = some v) : d.set key v = d := by
  induction d with
  | nil => cases h
  | cons item d ih =>
    rw [Dict.find_cons] at h
    unfold Dict.set
    by_cases hkey : isKey key item.1 = true
    · rw [if_pos hkey] at h ⊢
      cases h
      rfl
    · rw [if_neg hkey] at h ⊢
      rw [ih h]

theorem find_of_get {d : Dict} (h : d.get key = v) (hv : v ≠ .none) : d.find key = some v := by
  unfold Dict.get at h
  cases hfind : d.find key with
  | none =>
    rw [hfind] at h
    exact absurd h.symm hv
  | some w =>
    rw [hfind] at h
    rw [← h]
    rfl

theorem get_of_find {d : Dict} (h : d.find key = some v) : d.get key = v := by
  unfold Dict.get
  rw [h]
  rfl

end Keyed

/-! ## Amounts by key -/

section Amounts

variable {field : String} {m out : Dict} {key : Text} {v raw : Val}

def IsAmount (v : Val) : Prop := ∃ q : ℚ, v = .float q ∧ 0 ≤ q

def readCurrency (field : String) (codeRaw amountRaw : Val) : Checked (Option (Text × Val)) :=
  let code := upper (asStr codeRaw)
  if isCurrency code then do
    let amount ← toNumber amountRaw (field ++ "." ++ shown code)
    pure (some (code, .float amount))
  else invalid (field ++ " has invalid currency '" ++ shown codeRaw.text ++ "'")

theorem currencyItems_eq (field : String) (out items : Dict) :
    currencyItems field out items = keyed (readCurrency field) out items := by
  induction items generalizing out with
  | nil => rfl
  | cons item items ih =>
    obtain ⟨codeRaw, amountRaw⟩ := item
    rw [currencyItems, keyed]
    unfold readCurrency
    dsimp only
    split
    · cases htoNumber : toNumber amountRaw (field ++ "." ++ shown (upper (asStr codeRaw))) with
      | error e => rfl
      | ok amount => exact ih _
    · rfl

/-- Amounts by currency. -/
abbrev IsCurrencies : Dict → Prop := Keyed fun code v => isCurrency code = true ∧ IsAmount v

theorem capital {c : Char} (hc : 65 ≤ c.toNat ∧ c.toNat ≤ 90) :
    isSpace c = false ∧ upper [c] = [c] := by
  have hall : ∀ n < 91, 65 ≤ n → isSpace (Char.ofNat n) = false ∧
      upper [Char.ofNat n] = [Char.ofNat n] := by
    decide
  have h := hall c.toNat (by omega) hc.1
  rwa [Char.ofNat_toNat] at h

/-- A currency code is its own upper case, and has no blanks. -/
theorem upper_asStr_currency (hcode : isCurrency key = true) : upper (asStr (.str key)) = key := by
  have hall : ∀ c ∈ key, 65 ≤ c.toNat ∧ c.toNat ≤ 90 := by
    intro c hc
    unfold isCurrency at hcode
    rw [Bool.and_eq_true] at hcode
    have := List.all_eq_true.mp hcode.2 c hc
    simpa using this
  rw [asStr_str, strip_of_no_space fun c hc => (capital (hall c hc)).1]
  clear hcode
  induction key with
  | nil => rfl
  | cons c t ih =>
    have hcons : upper (c :: t) = upper [c] ++ upper t := by
      unfold upper
      rw [List.flatMap_cons, List.flatMap_cons, List.flatMap_nil, List.append_nil]
    rw [hcons, (capital (hall c List.mem_cons_self)).2,
      ih fun d hd => hall d (List.mem_cons_of_mem _ hd)]
    rfl

theorem readCurrency_good {k : Val} (h : readCurrency field k raw = .ok (some (key, v))) :
    isCurrency key = true ∧ IsAmount v := by
  unfold readCurrency at h
  dsimp only at h
  split at h
  · rename_i hcode
    obtain ⟨amount, hamount, h⟩ := bind_ok h
    cases h
    exact ⟨hcode, amount, rfl, toNumber_nonneg hamount⟩
  · cases h

theorem readCurrency_ne_none (k v : Val) : readCurrency field k v ≠ .ok none := by
  intro h
  unfold readCurrency at h
  dsimp only at h
  split at h
  · obtain ⟨amount, -, h⟩ := bind_ok h
    cases h
  · cases h

theorem readCurrency_again (h : isCurrency key = true ∧ IsAmount v) :
    readCurrency field (.str key) v = .ok (some (key, v)) := by
  obtain ⟨hcode, q, rfl, hq⟩ := h
  unfold readCurrency
  rw [upper_asStr_currency hcode]
  dsimp only
  rw [if_pos hcode, bind_of_eq_ok (toNumber_float hq _)]
  rfl

theorem normalizeCurrencyMap_good (h : normalizeCurrencyMap raw field = .ok m) :
    IsCurrencies m ∧ m ≠ [] := by
  unfold normalizeCurrencyMap at h
  split at h
  · cases h
  · rename_i item items _
    rw [currencyItems_eq] at h
    exact ⟨keyed_good (fun _ _ _ _ => readCurrency_good) .nil h,
      keyed_ne_nil readCurrency_ne_none (Or.inr (List.cons_ne_nil _ _)) h⟩

theorem normalizeCurrencyMap_again (h : IsCurrencies m) (hne : m ≠ []) :
    normalizeCurrencyMap (.dict m) field = .ok m := by
  obtain ⟨item, items, rfl⟩ := List.exists_cons_of_ne_nil hne
  show currencyItems field [] (item :: items) = _
  rw [currencyItems_eq]
  exact keyed_again (fun _ _ => readCurrency_again) h

def readRegion (field : String) (regionRaw cmap : Val) : Checked (Option (Text × Val)) :=
  let region := lower (asStr regionRaw)
  if region ∈ regions then do
    let prices ← normalizeCurrencyMap cmap (field ++ ".regional_prices." ++ shown region)
    pure (some (region, .dict prices))
  else invalid (field ++ ".regional_prices has invalid region '" ++ shown regionRaw.text ++ "'")

theorem regionalItems_eq (field : String) (out items : Dict) :
    regionalItems field out items = keyed (readRegion field) out items := by
  induction items generalizing out with
  | nil => rfl
  | cons item items ih =>
    obtain ⟨regionRaw, cmap⟩ := item
    rw [regionalItems, keyed]
    unfold readRegion
    dsimp only
    split
    · cases normalizeCurrencyMap cmap (field ++ ".regional_prices." ++
          shown (lower (asStr regionRaw))) with
      | error e => rfl
      | ok prices => exact ih _
    · rfl

/-- Amounts by currency, by region. -/
abbrev IsRegional : Dict → Prop :=
  Keyed fun region v => region ∈ regions ∧ ∃ m, v = .dict m ∧ IsCurrencies m ∧ m ≠ []

theorem lower_asStr_region : ∀ region ∈ regions, lower (asStr (.str region)) = region := by decide

theorem readRegion_good {k : Val} (h : readRegion field k raw = .ok (some (key, v))) :
    key ∈ regions ∧ ∃ m, v = .dict m ∧ IsCurrencies m ∧ m ≠ [] := by
  unfold readRegion at h
  dsimp only at h
  split at h
  · rename_i hregion
    obtain ⟨prices, hprices, h⟩ := bind_ok h
    cases h
    exact ⟨hregion, prices, rfl, normalizeCurrencyMap_good hprices⟩
  · cases h

theorem readRegion_ne_none (k v : Val) : readRegion field k v ≠ .ok none := by
  intro h
  unfold readRegion at h
  dsimp only at h
  split at h
  · obtain ⟨prices, -, h⟩ := bind_ok h
    cases h
  · cases h

theorem readRegion_again (h : key ∈ regions ∧ ∃ m, v = .dict m ∧ IsCurrencies m ∧ m ≠ []) :
    readRegion field (.str key) v = .ok (some (key, v)) := by
  obtain ⟨hregion, m, rfl, hm, hne⟩ := h
  unfold readRegion
  rw [lower_asStr_region key hregion]
  dsimp only
  rw [if_pos hregion, bind_of_eq_ok (normalizeCurrencyMap_again hm hne)]
  rfl

theorem normalizeRegional_good (h : normalizeRegional m field = .ok out) :
    IsRegional out ∧ out ≠ [] := by
  unfold normalizeRegional at h
  split at h
  · cases h
  · rw [regionalItems_eq] at h
    exact ⟨keyed_good (fun _ _ _ _ => readRegion_good) .nil h,
      keyed_ne_nil readRegion_ne_none (Or.inr (List.cons_ne_nil _ _)) h⟩

theorem normalizeRegional_again (hget : out.get "regional_prices" = .dict m) (h : IsRegional m)
    (hne : m ≠ []) : normalizeRegional out field = .ok m := by
  obtain ⟨item, items, rfl⟩ := List.exists_cons_of_ne_nil hne
  unfold normalizeRegional
  rw [hget]
  show regionalItems field [] (item :: items) = _
  rw [regionalItems_eq]
  exact keyed_again (fun _ _ => readRegion_again) h

def readNumber (field : String) (key value : Val) : Checked (Option (Text × Val)) :=
  let name := asStr key
  if name = [] then .ok none
  else do
    let number ← toNumber value (field ++ "." ++ shown name)
    pure (some (name, .float number))

theorem numberItems_eq (field : String) (out items : Dict) :
    numberItems field out items = keyed (readNumber field) out items := by
  induction items generalizing out with
  | nil => rfl
  | cons item items ih =>
    obtain ⟨key, value⟩ := item
    rw [numberItems, keyed]
    unfold readNumber
    dsimp only
    split
    · exact ih _
    · cases toNumber value (field ++ "." ++ shown (asStr key)) with
      | error e => rfl
      | ok number => exact ih _

/-- Amounts by name. -/
abbrev IsNumbers : Dict → Prop := Keyed fun name v => name ≠ [] ∧ strip name = name ∧ IsAmount v

theorem readNumber_good {k : Val} (h : readNumber field k raw = .ok (some (key, v))) :
    key ≠ [] ∧ strip key = key ∧ IsAmount v := by
  unfold readNumber at h
  dsimp only at h
  split at h
  · cases h
  · rename_i hne
    obtain ⟨number, hnumber, h⟩ := bind_ok h
    cases h
    exact ⟨hne, strip_strip _, number, rfl, toNumber_nonneg hnumber⟩

theorem readNumber_again (h : key ≠ [] ∧ strip key = key ∧ IsAmount v) :
    readNumber field (.str key) v = .ok (some (key, v)) := by
  obtain ⟨hne, hstrip, q, rfl, hq⟩ := h
  unfold readNumber
  rw [asStr_str, hstrip]
  dsimp only
  rw [if_neg hne, bind_of_eq_ok (toNumber_float hq _)]
  rfl

theorem normalizeNumbers_good (h : normalizeNumbers raw field = .ok m) : IsNumbers m ∧ m ≠ [] := by
  unfold normalizeNumbers at h
  split at h
  · cases h
  · obtain ⟨numbers, hnumbers, h⟩ := bind_ok h
    rw [numberItems_eq] at hnumbers
    have hgood := keyed_good (fun _ _ _ _ => readNumber_good) .nil hnumbers
    cases numbers with
    | nil => cases h
    | cons item items =>
      cases h
      exact ⟨hgood, nofun⟩

theorem normalizeNumbers_again (h : IsNumbers m) (hne : m ≠ []) :
    normalizeNumbers (.dict m) field = .ok m := by
  obtain ⟨item, items, rfl⟩ := List.exists_cons_of_ne_nil hne
  show (numberItems field [] (item :: items) >>= _) = _
  have hagain : numberItems field [] (item :: items) = .ok (item :: items) := by
    rw [numberItems_eq]
    exact keyed_again (fun _ _ => readNumber_again) h
  rw [bind_of_eq_ok hagain]
  rfl

end Amounts

/-! ## Price points -/

section Points

variable {field : String} {d raw out : Dict} {key : Text} {v : Val}

/-- A price point in normal form, whatever else is in it. -/
structure IsPoint (d : Dict) : Prop where
  priced : (d.has "prices" || d.has "regional_prices") = true
  prices : d.has "prices" = true → ∃ m, d.find "prices" = some (.dict m) ∧ IsCurrencies m ∧ m ≠ []
  regional : d.has "regional_prices" = true →
    ∃ m, d.find "regional_prices" = some (.dict m) ∧ IsRegional m ∧ m ≠ []

theorem IsPoint.congr {d' : Dict} (h : IsPoint d) (hprices : d'.find "prices" = d.find "prices")
    (hregional : d'.find "regional_prices" = d.find "regional_prices") : IsPoint d' := by
  have hhas : d'.has "prices" = d.has "prices" := congrArg Option.isSome hprices
  have hhas' : d'.has "regional_prices" = d.has "regional_prices" := congrArg Option.isSome hregional
  refine ⟨?_, ?_, ?_⟩
  · rw [hhas, hhas']
    exact h.priced
  · rw [hhas, hprices]
    exact h.prices
  · rw [hhas', hregional]
    exact h.regional

theorem normalizePricePoint_good (h : normalizePricePoint raw field = .ok out) : IsPoint out := by
  unfold normalizePricePoint at h
  split at h
  · rename_i hsome
    obtain ⟨mid, hmid, h⟩ := bind_ok h
    -- what the first part leaves
    have hmid : mid.find "regional_prices" = raw.find "regional_prices" ∧
        mid.has "prices" = raw.has "prices" ∧ (mid.has "prices" = true →
          ∃ m, mid.find "prices" = some (.dict m) ∧ IsCurrencies m ∧ m ≠ []) := by
      unfold setPrices at hmid
      split at hmid
      · rename_i hhas
        obtain ⟨prices, hprices, hmid⟩ := bind_ok hmid
        cases hmid
        exact ⟨Dict.find_set_of_ne _ (by decide), by rw [Dict.has_set_self, hhas],
          fun _ => ⟨prices, Dict.find_set_self _ _ _, normalizeCurrencyMap_good hprices⟩⟩
      · rename_i hno
        cases hmid
        exact ⟨rfl, rfl, fun hhas => absurd hhas hno⟩
    obtain ⟨hregional, hhas, hprices⟩ := hmid
    unfold setRegionalPrices at h
    split at h
    · obtain ⟨regional, hgood, h⟩ := bind_ok h
      cases h
      refine ⟨by rw [Dict.has_set_self, Bool.or_true], ?_, fun _ =>
        ⟨regional, Dict.find_set_self _ _ _, normalizeRegional_good hgood⟩⟩
      unfold Dict.has
      rw [Dict.find_set_of_ne _ (by decide)]
      exact hprices
    · rename_i hno
      cases h
      have hno' : out.has "regional_prices" = raw.has "regional_prices" :=
        congrArg Option.isSome hregional
      refine ⟨by rw [hhas, hno']; exact hsome, hprices, fun hhas' => ?_⟩
      rw [hno'] at hhas'
      exact absurd hhas' hno
  · cases h

theorem normalizePricePoint_again (h : IsPoint d) (field : String) :
    normalizePricePoint d field = .ok d := by
  have hprices : setPrices d field = .ok d := by
    unfold setPrices
    split
    · rename_i hhas
      obtain ⟨m, hfind, hm, hne⟩ := h.prices hhas
      rw [get_of_find hfind, bind_of_eq_ok (normalizeCurrencyMap_again hm hne), set_find hfind]
      rfl
    · rfl
  have hregional : setRegionalPrices d field d = .ok d := by
    unfold setRegionalPrices
    split
    · rename_i hhas
      obtain ⟨m, hfind, hm, hne⟩ := h.regional hhas
      rw [bind_of_eq_ok (normalizeRegional_again (get_of_find hfind) hm hne), set_find hfind]
      rfl
    · rfl
  unfold normalizePricePoint
  rw [if_pos h.priced, bind_of_eq_ok hprices, hregional]

theorem IsPoint.ne_nil (h : IsPoint d) : d ≠ [] := by
  rintro rfl
  cases h.priced

/-- A tier or band: a price point with a bound, if any. -/
def IsBand (v : Val) : Prop :=
  ∃ (d : Dict) (up : Val), v = .dict d ∧ IsPoint d ∧ d.find "up_to" = some up ∧
    (up = .none ∨ IsAmount up)

theorem optionalNumber_good {up : Val} (h : optionalNumber v field = .ok up) :
    up = .none ∨ IsAmount up := by
  unfold optionalNumber at h
  split at h
  · cases h
    exact Or.inl rfl
  · cases hnumber : toNumber v field with
    | error e =>
      rw [hnumber] at h
      cases h
    | ok q =>
      rw [hnumber] at h
      cases h
      exact Or.inr ⟨q, rfl, toNumber_nonneg hnumber⟩

theorem optionalNumber_again (h : v = .none ∨ IsAmount v) (field : String) :
    optionalNumber v field = .ok v := by
  rcases h with rfl | ⟨q, rfl, hq⟩
  · rfl
  · show (toNumber (.float q) field).map Val.float = _
    rw [toNumber_float hq]
    rfl

theorem bandItems_good {index : Nat} {items bands : List Val}
    (h : bandItems field index items = .ok bands) : ∀ v ∈ bands, IsBand v := by
  induction items generalizing index bands with
  | nil =>
    cases h
    exact nofun
  | cons item items ih =>
    obtain ⟨up, hup, h⟩ := bind_ok h
    obtain ⟨point, hpoint, h⟩ := bind_ok h
    obtain ⟨others, hothers, h⟩ := bind_ok h
    cases h
    refine List.forall_mem_cons.mpr ⟨⟨_, up, rfl, ?_, Dict.find_set_self _ _ _, optionalNumber_good hup⟩,
      ih hothers⟩
    exact (normalizePricePoint_good hpoint).congr (Dict.find_set_of_ne _ (by decide))
      (Dict.find_set_of_ne _ (by decide))

theorem bandItems_again {index : Nat} {bands : List Val} (h : ∀ v ∈ bands, IsBand v) :
    bandItems field index bands = .ok bands := by
  induction bands generalizing index with
  | nil => rfl
  | cons item bands ih =>
    obtain ⟨⟨d, up, rfl, hpoint, hfind, hup⟩, hbands⟩ := List.forall_mem_cons.mp h
    unfold bandItems
    dsimp only [asMapping]
    rw [get_of_find hfind, bind_of_eq_ok (optionalNumber_again hup _),
      bind_of_eq_ok (normalizePricePoint_again hpoint _), bind_of_eq_ok (ih hbands), set_find hfind]
    rfl

theorem normalizePriceBands_good {bands : List Val} (h : normalizePriceBands v field = .ok bands) :
    (∀ v ∈ bands, IsBand v) ∧ bands ≠ [] := by
  unfold normalizePriceBands at h
  split at h
  · cases h
  · refine ⟨bandItems_good h, ?_⟩
    obtain ⟨up, -, h⟩ := bind_ok h
    obtain ⟨point, -, h⟩ := bind_ok h
    obtain ⟨others, -, h⟩ := bind_ok h
    cases h
    exact nofun

theorem normalizePriceBands_again {bands : List Val} (h : ∀ v ∈ bands, IsBand v) (hne : bands ≠ [])
    (field : String) : normalizePriceBands (.list bands) field = .ok bands := by
  obtain ⟨band, bands, rfl⟩ := List.exists_cons_of_ne_nil hne
  exact bandItems_again h

end Points

/-! ## Blocks -/

/-- A block in normal form, by its type. -/
inductive IsNormal : Dict → Prop
  | point {d : Dict} {type : Text} : IsBlock d type → type ∈ pointTypes → IsPoint d → IsNormal d
  | tiers {d : Dict} {tiers : List Val} : IsBlock d "tiered_per_unit" →
      d.find "tiers" = some (.list tiers) → (∀ v ∈ tiers, IsBand v) → tiers ≠ [] → IsNormal d
  | bands {d : Dict} {bands : List Val} : IsBlock d "volume_per_unit" →
      d.find "bands" = some (.list bands) → (∀ v ∈ bands, IsBand v) → bands ≠ [] → IsNormal d
  | bundle {d base included overage : Dict} {type : Text} : IsBlock d "bundle" →
      d.find "base" = some (.dict base) → IsPoint base →
      d.find "included_units" = some (.dict included) → IsNumbers included → included ≠ [] →
      d.find "overage" = some (.dict overage) → IsNormal overage → IsBlock overage type →
      type ∈ overageTypes → IsNormal d
  | factor {d values : Dict} : IsBlock d "factor" → d.find "values" = some (.dict values) →
      IsNumbers values → values ≠ [] → IsNormal d
  | custom {d : Dict} : IsBlock d "custom" → IsNormal d

/-- The keys that a block is read by, its interval aside. -/
def blockKeys : List Text :=
  ["type", "prices", "regional_prices", "tiers", "bands", "base", "included_units", "overage", "values"]

section Blocks

variable {field : String} {d d' block out : Dict} {type : Text} {overage : String → Checked Dict}

/-- What is put beside these keys does not matter. -/
theorem IsNormal.congr (h : IsNormal d) (hkeys : ∀ key ∈ blockKeys, d'.find key = d.find key)
    (hinterval : ∃ i ∈ intervals, d'.get "interval" = .str i) : IsNormal d' := by
  have hfind {key : Text} {v : Option Val} (hkey : key ∈ blockKeys) (hv : d.find key = v) :
      d'.find key = v := (hkeys key hkey).trans hv
  have hblock {type : Text} (hb : IsBlock d type) : IsBlock d' type := by
    refine ⟨?_, hb.type_mem, hinterval⟩
    unfold Dict.get
    rw [hkeys _ (by decide)]
    exact hb.type_eq
  cases h with
  | point hb htype hpoint =>
    exact .point (hblock hb) htype (hpoint.congr (hkeys _ (by decide)) (hkeys _ (by decide)))
  | tiers hb htiers hbands hne => exact .tiers (hblock hb) (hfind (by decide) htiers) hbands hne
  | bands hb hfound hbands hne => exact .bands (hblock hb) (hfind (by decide) hfound) hbands hne
  | bundle hb hbase hpoint hincluded hnumbers hne hoverage hnormal ho htype =>
    exact .bundle (hblock hb) (hfind (by decide) hbase) hpoint (hfind (by decide) hincluded) hnumbers
      hne (hfind (by decide) hoverage) hnormal ho htype
  | factor hb hvalues hnumbers hne =>
    exact .factor (hblock hb) (hfind (by decide) hvalues) hnumbers hne
  | custom hb => exact .custom (hblock hb)

theorem IsNormal.isBlock (h : IsNormal d) : ∃ type, IsBlock d type := by
  cases h with
  | point hb => exact ⟨_, hb⟩
  | tiers hb => exact ⟨_, hb⟩
  | bands hb => exact ⟨_, hb⟩
  | bundle hb => exact ⟨_, hb⟩
  | factor hb => exact ⟨_, hb⟩
  | custom hb => exact ⟨_, hb⟩

/-- A key that a block is not read by. -/
theorem IsNormal.set {key : Text} (h : IsNormal d) (hkey : key ∉ blockKeys)
    (hinterval : key ≠ "interval".toList) (v : Val) : IsNormal (d.set key v) := by
  obtain ⟨type, hb⟩ := h.isBlock
  refine h.congr (fun other hother => Dict.find_set_of_ne _ fun heq => hkey (heq ▸ hother)) ?_
  rw [Dict.get_set_of_ne _ hinterval.symm]
  exact hb.interval

theorem IsNormal.setInterval {i : Text} (h : IsNormal d) (hi : i ∈ intervals) :
    IsNormal (d.set "interval" (.str i)) := by
  refine h.congr (fun other hother => Dict.find_set_of_ne _ fun heq => ?_)
    ⟨i, hi, Dict.get_set_self _ _ _⟩
  rw [heq] at hother
  exact absurd hother (by decide)

theorem normalizeBundle_good
    (hoverage : ∀ name o, overage name = .ok o → IsNormal o ∧ ∃ type, IsBlock o type)
    (hstart : IsBlock d "bundle") (h : normalizeBundle overage block field d = .ok out) :
    IsNormal out := by
  have hblock := (normalizeBundle_spec (fun name o ho => (hoverage name o ho).2) hstart h).1
  unfold normalizeBundle at h
  split at h
  · cases h
  · obtain ⟨base, hbase, h⟩ := bind_ok h
    obtain ⟨included, hincluded, h⟩ := bind_ok h
    obtain ⟨o, ho, h⟩ := bind_ok h
    split at h
    · rename_i htype
      cases h
      obtain ⟨hnormal, type, ho'⟩ := hoverage _ _ ho
      rw [ho'.type_eq, lower_overageType type ho'.type_mem] at htype
      obtain ⟨hnumbers, hne⟩ := normalizeNumbers_good hincluded
      refine .bundle hblock ?_ (normalizePricePoint_good hbase) ?_ hnumbers hne
        (Dict.find_set_self _ _ _) hnormal ho' htype
      · rw [Dict.find_set_of_ne _ (by decide), Dict.find_set_of_ne _ (by decide), Dict.find_set_self]
      · rw [Dict.find_set_of_ne _ (by decide), Dict.find_set_self]
    · cases h

theorem normalizeBlock_good
    (hoverage : ∀ name o, overage name = .ok o → IsNormal o ∧ ∃ type, IsBlock o type)
    (h : normalizeBlock overage block field = .ok out) : IsNormal out := by
  unfold normalizeBlock at h
  split at h
  · cases h
  · obtain ⟨i, hi, h⟩ := bind_ok h
    have hi := normalizeInterval_mem hi
    have hstart {type : Text} (hmem : type ∈ blockTypes) := isBlock_start block hmem hi
    generalize lowered (block.get "type") "fixed" = type at h hstart
    split at h
    · rename_i hpoint
      exact .point ((hstart (pointTypes_subset type hpoint)).point h) hpoint (normalizePricePoint_good h)
    · split at h
      · rename_i htype
        obtain ⟨tiers, htiers, h⟩ := bind_ok h
        cases h
        subst htype
        obtain ⟨hbands, hne⟩ := normalizePriceBands_good htiers
        exact .tiers ((hstart (by decide)).set (by decide) (by decide)) (Dict.find_set_self _ _ _)
          hbands hne
      · split at h
        · rename_i htype
          obtain ⟨bands, hbands, h⟩ := bind_ok h
          cases h
          subst htype
          obtain ⟨hbands, hne⟩ := normalizePriceBands_good hbands
          exact .bands ((hstart (by decide)).set (by decide) (by decide)) (Dict.find_set_self _ _ _)
            hbands
            hne
        · split at h
          · rename_i htype
            subst htype
            exact normalizeBundle_good hoverage (hstart (by decide)) h
          · split at h
            · rename_i htype
              obtain ⟨values, hvalues, h⟩ := bind_ok h
              cases h
              subst htype
              obtain ⟨hnumbers, hne⟩ := normalizeNumbers_good hvalues
              exact .factor ((hstart (by decide)).set (by decide) (by decide)) (Dict.find_set_self _ _ _)
                hnumbers hne
            · split at h
              · rename_i htype
                cases h
                subst htype
                exact .custom (hstart (by decide))
              · cases h

mutual

/-- **What is accepted is in normal form**, down to the overage. -/
theorem normalizePricingBlock_good : ∀ (v : Val) (field : String) (b : Dict),
    normalizePricingBlock v field = .ok b → IsNormal b
  | .dict block, _, _, h => normalizeBlock_good (fun name o ho => by
      have hnormal := normalizeOverage_good block name o ho
      exact ⟨hnormal, hnormal.isBlock⟩) h
  | .none, _, _, h | .bool _, _, _, h | .int _, _, _, h | .float _, _, _, h | .str _, _, _, h
  | .list _, _, _, h | .other _, _, _, h => by cases h

theorem normalizeOverage_good : ∀ (items : List (Val × Val)) (field : String) (o : Dict),
    normalizeOverage items field = .ok o → IsNormal o
  | [], _, _, h => by cases h
  | (key, value) :: items, field, o, h => by
    simp only [normalizeOverage] at h
    split at h
    · exact normalizePricingBlock_good value field o h
    · exact normalizeOverage_good items field o h

end

theorem normalizeOverage_eq {items : Dict} {v : Val} (h : items.find "overage" = some v)
    (field : String) :
    normalizeOverage items field = normalizePricingBlock v field := by
  induction items with
  | nil => cases h
  | cons item items ih =>
    obtain ⟨key, value⟩ := item
    rw [Dict.find_cons] at h
    rw [normalizeOverage]
    by_cases hkey : isKey "overage" key = true
    · rw [if_pos hkey] at h ⊢
      cases h
      rfl
    · rw [if_neg hkey] at h ⊢
      exact ih h

/-- What the second run starts its branch from is the block itself. -/
theorem normalizeBlock_start (h : IsBlock d type) :
    (d.set "type" (.str type)).set "interval" (d.get "interval") = d := by
  obtain ⟨i, -, hi⟩ := h.interval
  rw [set_find (find_of_get h.type_eq nofun), hi, set_find (find_of_get hi nofun)]

theorem normalizeBlock_eq (h : IsBlock d type) (overage : String → Checked Dict) (field : String) :
    normalizeBlock overage d field =
      if type ∈ pointTypes then normalizePricePoint d field
      else if type = "tiered_per_unit".toList then do
        let tiers ← normalizePriceBands (d.get "tiers") s!"{field}.tiers"
        pure (d.set "tiers" (.list tiers))
      else if type = "volume_per_unit".toList then do
        let bands ← normalizePriceBands (d.get "bands") s!"{field}.bands"
        pure (d.set "bands" (.list bands))
      else if type = "bundle".toList then normalizeBundle overage d field d
      else if type = "factor".toList then do
        let values ← normalizeNumbers (d.get "values") s!"{field}.values"
        pure (d.set "values" (.dict values))
      else if type = "custom".toList then pure d
      else invalid (field ++ ".type '" ++ shown type ++ "' is not supported") := by
  obtain ⟨i, hi, hinterval⟩ := h.interval
  have hlen : d.length ≠ 0 := by
    intro hlen
    have := h.type_eq
    rw [List.length_eq_zero_iff.mp hlen] at this
    cases this
  have hstart := normalizeBlock_start h
  rw [hinterval] at hstart
  have htype : lowered (d.get "type") "fixed" = type := by
    rw [h.type_eq]
    exact lowered_blockType type h.type_mem
  unfold normalizeBlock
  rw [if_neg hlen, htype, hinterval, bind_of_eq_ok (normalizeInterval_interval i hi), hstart]

/-- **A block in normal form is left as it is.** -/
theorem normalizePricingBlock_again (h : IsNormal d) : ∀ field,
    normalizePricingBlock (.dict d) field = .ok d := by
  induction h with
  | point hb htype hpoint =>
    intro field
    show normalizeBlock _ _ field = _
    rw [normalizeBlock_eq hb, if_pos htype]
    exact normalizePricePoint_again hpoint field
  | tiers hb htiers hbands hne =>
    intro field
    show normalizeBlock _ _ field = _
    rw [normalizeBlock_eq hb, if_neg (by decide), if_pos rfl, get_of_find htiers,
      bind_of_eq_ok (normalizePriceBands_again hbands hne _), set_find htiers]
    rfl
  | bands hb hfound hbands hne =>
    intro field
    show normalizeBlock _ _ field = _
    rw [normalizeBlock_eq hb, if_neg (by decide), if_neg (by decide), if_pos rfl, get_of_find hfound,
      bind_of_eq_ok (normalizePriceBands_again hbands hne _), set_find hfound]
    rfl
  | @bundle d base included overage type hb hbase hpoint hincluded hnumbers hne
        hoverage hnormal ho htype ih =>
    intro field
    show normalizeBlock _ _ field = _
    rw [normalizeBlock_eq hb, if_neg (by decide), if_neg (by decide), if_neg (by decide), if_pos rfl]
    unfold normalizeBundle
    obtain ⟨item, rest, hcons⟩ := List.exists_cons_of_ne_nil hpoint.ne_nil
    rw [get_of_find hbase, show asMapping (.dict base) = item :: rest from hcons]
    dsimp only
    have hover : normalizeOverage d s!"{field}.overage" = .ok overage := by
      rw [normalizeOverage_eq hoverage]
      exact ih _
    rw [← hcons, bind_of_eq_ok (normalizePricePoint_again hpoint _), get_of_find hincluded,
      bind_of_eq_ok (normalizeNumbers_again hnumbers hne), bind_of_eq_ok hover, ho.type_eq,
      lower_overageType type ho.type_mem, if_pos htype, set_find hbase, set_find hincluded,
      set_find hoverage]
    rfl
  | factor hb hvalues hnumbers hne =>
    intro field
    show normalizeBlock _ _ field = _
    rw [normalizeBlock_eq hb, if_neg (by decide), if_neg (by decide), if_neg (by decide),
      if_neg (by decide), if_pos rfl, get_of_find hvalues,
      bind_of_eq_ok (normalizeNumbers_again hnumbers hne), set_find hvalues]
    rfl
  | custom hb =>
    intro field
    show normalizeBlock _ _ field = _
    rw [normalizeBlock_eq hb, if_neg (by decide), if_neg (by decide), if_neg (by decide),
      if_neg (by decide), if_neg (by decide), if_pos rfl]
    rfl

end Blocks

/-! ## Inputs -/

/-- A text that `_as_str` reads as itself, and that is not blank. -/
def IsName (t : Text) : Prop := t ≠ [] ∧ strip t = t

/-- What every input begins with. -/
def inputStart (id type label description : Text) (appliesTo : List Text) : Dict :=
  let out : Dict := [(.str "id", .str id), (.str "type", .str type), (.str "label", .str label),
    (.str "description", .str description)]
  if appliesTo = [] then out else out.set "applies_to" (.list (appliesTo.map .str))

structure Named (id label description : Text) (appliesTo : List Text) : Prop where
  id : IsName id
  label : IsName label
  description : strip description = description
  appliesTo : ∀ t ∈ appliesTo, IsName t

/-- A bound, where there is one. -/
def setBound (key : Text) (bound : Option ℚ) (out : Dict) : Dict :=
  match bound with
  | none => out
  | some q => out.set key (.float q)

def boundVal (bound : Option ℚ) : Val := (bound.map Val.float).getD .none

/-- The two bounds do not cross. -/
def Uncrossed (out : Dict) : Prop :=
  ∀ low high, bound out "min" = some low → bound out "max" = some high → ¬ high < low

/-- An input in normal form, by its type. -/
inductive IsInput : Dict → Prop
  | number {id label description : Text} {appliesTo : List Text} {default : ℚ} {low high : Option ℚ} :
      Named id label description appliesTo → 0 ≤ default → (∀ q ∈ low, 0 ≤ q) → (∀ q ∈ high, 0 ≤ q) →
      Uncrossed (setBound "max" high (setBound "min" low
        ((inputStart id "number" label description appliesTo).set "default" (.float default)))) →
      IsInput (setBound "max" high (setBound "min" low
        ((inputStart id "number" label description appliesTo).set "default" (.float default))))
  | boolean {id label description : Text} {appliesTo : List Text} (default : Bool) :
      Named id label description appliesTo →
      IsInput ((inputStart id "boolean" label description appliesTo).set "default" (.bool default))
  | enum {id label description default : Text} {appliesTo options : List Text} :
      Named id label description appliesTo → (∀ t ∈ options, IsName t) → default ∈ options →
      IsInput (((inputStart id "enum" label description appliesTo).set "options"
        (.list (options.map .str))).set "default" (.str default))

section Inputs

variable {field : String} {d out spec start : Dict} {key other id type label description : Text}
  {appliesTo : List Text} {b : Option ℚ} {raw : Val}

theorem texts_good {v : Val} {t : Text} (h : t ∈ texts v) : IsName t :=
  ⟨by simpa using (List.mem_filter.mp h).2, strip_texts h⟩

theorem texts_again {ts : List Text} (h : ∀ t ∈ ts, IsName t) : texts (.list (ts.map .str)) = ts := by
  show ((ts.map Val.str).map asStr).filter _ = ts
  rw [List.map_map]
  have hmap : ts.map (asStr ∘ Val.str) = ts := by
    refine (List.map_congr_left fun t ht => ?_).trans (List.map_id ts)
    show asStr (.str t) = t
    rw [asStr_str, (h t ht).2]
  rw [hmap, List.filter_eq_self]
  intro t ht
  simpa using (h t ht).1

theorem asStr_good (v : Val) (hne : asStr v ≠ []) : IsName (asStr v) := ⟨hne, strip_strip _⟩

theorem orNone_asStr_good (v : Val) (hid : IsName id) : IsName ((orNone (asStr v)).getD id) := by
  unfold orNone
  split
  · exact hid
  · rename_i hne
    exact asStr_good v hne

theorem IsName.orNone_again {t : Text} (h : IsName t) (other : Text) :
    (orNone (asStr (.str t))).getD other = t := by
  rw [asStr_str, h.2]
  unfold orNone
  rw [if_neg h.1]
  rfl

theorem get_setBound_of_ne (h : other ≠ key) : (setBound key b out).get other = out.get other := by
  cases b with
  | none => rfl
  | some q => exact Dict.get_set_of_ne _ h

theorem get_setBound_self (h : out.get key = .none) : (setBound key b out).get key = boundVal b := by
  cases b with
  | none => exact h
  | some q => exact Dict.get_set_self _ _ _

theorem normalizeBound_good (h : normalizeBound spec key field out = .ok d) :
    ∃ b, d = setBound key b out ∧ ∀ q ∈ b, 0 ≤ q := by
  unfold normalizeBound at h
  split at h
  · cases h
    exact ⟨none, rfl, nofun⟩
  · obtain ⟨q, hq, h⟩ := bind_ok h
    cases h
    refine ⟨some q, rfl, fun p hp => ?_⟩
    cases hp
    exact toNumber_nonneg hq

theorem normalizeBound_again (hget : spec.get key = boundVal b) (hb : ∀ q ∈ b, 0 ≤ q) :
    normalizeBound spec key field out = .ok (setBound key b out) := by
  unfold normalizeBound
  rw [hget]
  cases b with
  | none => rfl
  | some q =>
    show (toNumber (.float q) _ >>= _) = _
    rw [bind_of_eq_ok (toNumber_float (hb q rfl) _)]
    rfl

theorem normalizeNumber_good (h : normalizeNumber spec field start = .ok out) :
    ∃ default low high, 0 ≤ default ∧ (∀ q ∈ low, 0 ≤ q) ∧ (∀ q ∈ high, 0 ≤ q) ∧ Uncrossed out ∧
      out = setBound "max" high (setBound "min" low (start.set "default" (.float default))) := by
  obtain ⟨default, hdefault, h⟩ := bind_ok h
  obtain ⟨withLow, hlow, h⟩ := bind_ok h
  obtain ⟨withHigh, hhigh, h⟩ := bind_ok h
  obtain ⟨low, rfl, hlowPos⟩ := normalizeBound_good hlow
  obtain ⟨high, rfl, hhighPos⟩ := normalizeBound_good hhigh
  refine ⟨default, low, high, toNumber_nonneg hdefault, hlowPos, hhighPos, ?_⟩
  split at h
  · rename_i l u hl hu
    split at h
    · cases h
    · rename_i hcross
      cases h
      refine ⟨fun l' u' hl' hu' => ?_, rfl⟩
      cases hl.symm.trans hl'
      cases hu.symm.trans hu'
      exact hcross
  · rename_i hnone
    cases h
    exact ⟨fun l u hl hu => (hnone l u hl hu).elim, rfl⟩

theorem normalizeNumber_again {default : ℚ} {low high : Option ℚ} (hdefault : 0 ≤ default)
    (hlow : ∀ q ∈ low, 0 ≤ q) (hhigh : ∀ q ∈ high, 0 ≤ q)
    (hout : out = setBound "max" high (setBound "min" low (start.set "default" (.float default))))
    (huncrossed : Uncrossed out) (hget : d.get "default" = .float default)
    (hmin : d.get "min" = boundVal low) (hmax : d.get "max" = boundVal high) :
    normalizeNumber d field start = .ok out := by
  unfold normalizeNumber
  rw [hget, bind_of_eq_ok (toNumber_float hdefault _), bind_of_eq_ok (normalizeBound_again hmin hlow),
    bind_of_eq_ok (normalizeBound_again hmax hhigh), ← hout]
  split
  · rename_i l u hl hu
    rw [if_neg (huncrossed l u hl hu)]
    rfl
  · rfl

theorem inputStart_get (id type label description : Text) (appliesTo : List Text) :
    (inputStart id type label description appliesTo).get "id" = .str id ∧
      (inputStart id type label description appliesTo).get "type" = .str type ∧
      (inputStart id type label description appliesTo).get "label" = .str label ∧
      (inputStart id type label description appliesTo).get "description" = .str description := by
  unfold inputStart
  dsimp only
  split
  · exact ⟨rfl, rfl, rfl, rfl⟩
  · refine ⟨?_, ?_, ?_, ?_⟩ <;> rw [Dict.get_set_of_ne _ (by decide)] <;> rfl

theorem inputStart_appliesTo (h : ∀ t ∈ appliesTo, IsName t) :
    texts ((inputStart id type label description appliesTo).get "applies_to") = appliesTo := by
  unfold inputStart
  dsimp only
  split
  · rename_i hnil
    rw [hnil]
    rfl
  · rw [Dict.get_set_self]
    exact texts_again h

theorem inputStart_no_bounds (id type label description : Text) (appliesTo : List Text) :
    (inputStart id type label description appliesTo).get "min" = .none ∧
      (inputStart id type label description appliesTo).get "max" = .none := by
  unfold inputStart
  dsimp only
  split
  · exact ⟨rfl, rfl⟩
  · refine ⟨?_, ?_⟩ <;> rw [Dict.get_set_of_ne _ (by decide)] <;> rfl

/-- What an input is read as. -/
theorem normalizeInputSpec_eq (hnamed : Named id label description appliesTo) (htype : type ∈ inputTypes)
    (hid : d.get "id" = .str id) (hget : d.get "type" = .str type) (hdefault : d.has "default" = true)
    (hlabel : d.get "label" = .str label) (hdescription : d.get "description" = .str description)
    (happlies : texts (d.get "applies_to") = appliesTo) (field : String) :
    normalizeInputSpec (.dict d) field =
      if type = "number".toList then
        normalizeNumber d (field ++ "." ++ shown id) (inputStart id type label description appliesTo)
      else if type = "boolean".toList then
        .ok ((inputStart id type label description appliesTo).set "default"
          (.bool (d.get "default").truth))
      else normalizeEnum d (field ++ "." ++ shown id)
        (inputStart id type label description appliesTo) := by
  have hlowered : ∀ t ∈ inputTypes, lowered (.str t) "number" = t := by decide
  have hasId : asStr (.str id) = id := by rw [asStr_str, hnamed.id.2]
  have hasDescription : asStr (.str description) = description := by rw [asStr_str, hnamed.description]
  unfold normalizeInputSpec
  dsimp only [asMapping]
  rw [hid, hget, hlabel, hdescription, happlies, hasId, hlowered type htype, if_neg hnamed.id.1,
    if_neg (not_not.mpr htype), hdefault, hasDescription, hnamed.label.orNone_again, if_neg nofun]
  rfl

theorem normalizeInputSpec_good (h : normalizeInputSpec raw field = .ok out) : IsInput out := by
  unfold normalizeInputSpec at h
  dsimp only at h
  split at h
  · cases h
  rename_i hid
  split at h
  · cases h
  rename_i htype
  split at h
  · cases h
  have hnamed : Named (asStr ((asMapping raw).get "id"))
      ((orNone (asStr ((asMapping raw).get "label"))).getD (asStr ((asMapping raw).get "id")))
      (asStr ((asMapping raw).get "description")) (texts ((asMapping raw).get "applies_to")) :=
    ⟨asStr_good _ hid, orNone_asStr_good _ (asStr_good _ hid), strip_strip _, fun t => texts_good⟩
  generalize lowered ((asMapping raw).get "type") "number" = type at h htype
  split at h
  · rename_i hnumber
    subst hnumber
    obtain ⟨default, low, high, hdefault, hlow, hhigh, huncrossed, rfl⟩ := normalizeNumber_good h
    exact .number hnamed hdefault hlow hhigh huncrossed
  split at h
  · rename_i hboolean
    subst hboolean
    cases h
    exact .boolean _ hnamed
  · rename_i hnumber hboolean
    have henum : type = "enum".toList := by
      have hmem : type ∈ inputTypes := not_not.mp htype
      simp only [inputTypes, List.mem_cons, List.not_mem_nil, or_false] at hmem
      rcases hmem with hmem | hmem | hmem
      · exact absurd hmem hnumber
      · exact hmem
      · exact absurd hmem hboolean
    subst henum
    unfold normalizeEnum at h
    dsimp only at h
    split at h
    · cases h
    split at h
    · rename_i hmem
      cases h
      exact .enum hnamed (fun t => texts_good) hmem
    · cases h

theorem has_default_set (v : Val) (d : Dict) : (d.set "default" v).has "default" = true :=
  Dict.has_set_self _ _ _

theorem has_setBound (h : out.has other = true) (hne : other ≠ key) :
    (setBound key b out).has other = true := by
  cases b with
  | none => exact h
  | some q =>
    unfold Dict.has setBound
    rw [Dict.find_set_of_ne _ hne]
    exact h

/-- **An input in normal form is left as it is.** -/
theorem normalizeInputSpec_again (h : IsInput d) (field : String) :
    normalizeInputSpec (.dict d) field = .ok d := by
  cases h with
  | @number id label description appliesTo default low high hnamed hdefault hlow hhigh huncrossed =>
    obtain ⟨hid, htype, hlabel, hdescription⟩ := inputStart_get id "number" label description appliesTo
    obtain ⟨hmin, hmax⟩ := inputStart_no_bounds id "number" label description appliesTo
    have hget {key : Text} (hkey : key ≠ "min".toList) (hkey' : key ≠ "max".toList)
        (hkey'' : key ≠ "default".toList) :
        (setBound "max" high (setBound "min" low ((inputStart id "number" label description
          appliesTo).set "default" (.float default)))).get key =
          (inputStart id "number" label description appliesTo).get key := by
      rw [get_setBound_of_ne hkey', get_setBound_of_ne hkey, Dict.get_set_of_ne _ hkey'']
    rw [normalizeInputSpec_eq hnamed (by decide)
      ((hget (by decide) (by decide) (by decide)).trans hid)
      ((hget (by decide) (by decide) (by decide)).trans htype)
      (has_setBound (has_setBound (has_default_set _ _) (by decide)) (by decide))
      ((hget (by decide) (by decide) (by decide)).trans hlabel)
      ((hget (by decide) (by decide) (by decide)).trans hdescription)
      ((congrArg texts (hget (by decide) (by decide) (by decide))).trans
        (inputStart_appliesTo hnamed.appliesTo)), if_pos rfl]
    refine normalizeNumber_again hdefault hlow hhigh rfl huncrossed ?_ ?_ ?_
    · rw [get_setBound_of_ne (by decide), get_setBound_of_ne (by decide), Dict.get_set_self]
    · rw [get_setBound_of_ne (by decide), get_setBound_self]
      rw [Dict.get_set_of_ne _ (by decide), hmin]
    · rw [get_setBound_self]
      rw [get_setBound_of_ne (by decide), Dict.get_set_of_ne _ (by decide), hmax]
  | @boolean id label description appliesTo default hnamed =>
    obtain ⟨hid, htype, hlabel, hdescription⟩ := inputStart_get id "boolean" label description appliesTo
    have hget {key : Text} (hkey : key ≠ "default".toList) :
        ((inputStart id "boolean" label description appliesTo).set "default" (.bool default)).get key =
          (inputStart id "boolean" label description appliesTo).get key := Dict.get_set_of_ne _ hkey
    rw [normalizeInputSpec_eq hnamed (by decide) ((hget (by decide)).trans hid)
      ((hget (by decide)).trans htype) (has_default_set _ _) ((hget (by decide)).trans hlabel)
      ((hget (by decide)).trans hdescription)
      ((congrArg texts (hget (by decide))).trans (inputStart_appliesTo hnamed.appliesTo)),
      if_neg (by decide), if_pos rfl, Dict.get_set_self]
    rfl
  | @enum id label description default appliesTo options hnamed hoptions hmem =>
    obtain ⟨hid, htype, hlabel, hdescription⟩ := inputStart_get id "enum" label description appliesTo
    have hget {key : Text} (hkey : key ≠ "default".toList) (hkey' : key ≠ "options".toList) :
        (((inputStart id "enum" label description appliesTo).set "options"
          (.list (options.map .str))).set "default" (.str default)).get key =
          (inputStart id "enum" label description appliesTo).get key := by
      rw [Dict.get_set_of_ne _ hkey, Dict.get_set_of_ne _ hkey']
    rw [normalizeInputSpec_eq hnamed (by decide) ((hget (by decide) (by decide)).trans hid)
      ((hget (by decide) (by decide)).trans htype) (has_default_set _ _)
      ((hget (by decide) (by decide)).trans hlabel)
      ((hget (by decide) (by decide)).trans hdescription)
      ((congrArg texts (hget (by decide) (by decide))).trans (inputStart_appliesTo hnamed.appliesTo)),
      if_neg (by decide), if_neg (by decide)]
    unfold normalizeEnum
    rw [Dict.get_set_self, Dict.get_set_of_ne _ (by decide), Dict.get_set_self, texts_again hoptions,
      asStr_str, (hoptions default hmem).2]
    dsimp only
    rw [if_neg (List.ne_nil_of_mem hmem), if_pos hmem]

end Inputs

/-! ## Documents -/

section Documents

variable {field : String} {d out : Dict} {key other : Text} {raw : Val} {items : List Val}

/-- What every item becomes is left as it is. -/
theorem normalizeAll_again {normalize : Nat → Val → Checked Dict} {index : Nat}
    {items out : List Val} (h : normalizeAll normalize index items = .ok out)
    (hagain : ∀ index raw m, normalize index raw = .ok m → normalize index (.dict m) = .ok m) :
    normalizeAll normalize index out = .ok out := by
  induction items generalizing index out with
  | nil =>
    cases h
    rfl
  | cons raw items ih =>
    obtain ⟨first, hfirst, h⟩ := bind_ok h
    obtain ⟨others, hothers, h⟩ := bind_ok h
    cases h
    unfold normalizeAll
    rw [bind_of_eq_ok (hagain index raw first hfirst), bind_of_eq_ok (ih hothers)]
    rfl

theorem normalizeInputs_again {v : Val} (h : normalizeInputs v field = .ok items) :
    normalizeAll (fun _ item => normalizeInputSpec item field) 0 items = .ok items := by
  unfold normalizeInputs at h
  refine normalizeAll_again h ?_
  intro index raw m hm
  exact normalizeInputSpec_again (normalizeInputSpec_good hm) field

theorem normalizeAddon_again {index : Nat} {b : Dict} (h : normalizeAddon field index raw = .ok b) :
    normalizeAddon field index (.dict b) = .ok b := by
  unfold normalizeAddon at h
  dsimp only at h
  split at h
  · cases h
  rename_i hid
  obtain ⟨block, hblock, h⟩ := bind_ok h
  split at h
  · rename_i htype
    cases h
    have hname := asStr_good _ hid
    have hlabel := orNone_asStr_good ((asMapping raw).get "label") hname
    generalize asStr ((asMapping raw).get "id") = id at hname hlabel
    generalize (orNone (asStr ((asMapping raw).get "label"))).getD id = label at hlabel
    have hnormal := ((normalizePricingBlock_good _ _ _ hblock).set
      (show "id".toList ∉ blockKeys by decide) (by decide) (.str id)).set
        (show "label".toList ∉ blockKeys by decide) (by decide) (.str label)
    have hfind : ((block.set "id" (.str id)).set "label" (.str label)).find "id" = some (.str id) := by
      rw [Dict.find_set_of_ne _ (by decide), Dict.find_set_self]
    unfold normalizeAddon
    dsimp only [asMapping]
    rw [Dict.get_set_of_ne _ (by decide), Dict.get_set_self, asStr_str, hname.2, if_neg hname.1,
      bind_of_eq_ok (normalizePricingBlock_again hnormal _), Dict.get_set_of_ne _ (by decide),
      Dict.get_set_of_ne _ (by decide), if_pos htype, Dict.get_set_self, hlabel.orNone_again]
    rw [set_find hfind, set_find (Dict.find_set_self _ _ _)]
    rfl
  · cases h

theorem normalizeFactor_again {index : Nat} {b : Dict} (h : normalizeFactor field index raw = .ok b) :
    normalizeFactor field index (.dict b) = .ok b := by
  obtain ⟨block, hblock, h⟩ := bind_ok h
  split at h
  · rename_i htype
    cases h
    unfold normalizeFactor
    dsimp only
    rw [bind_of_eq_ok (normalizePricingBlock_again (normalizePricingBlock_good _ _ _ hblock) _),
      if_pos htype]
    rfl
  · cases h

theorem normalizeSetupFee_again {b : Dict} (h : normalizeSetupFee field raw = .ok b) :
    normalizeSetupFee field (.dict b) = .ok b := by
  obtain ⟨fee, hfee, h⟩ := bind_ok h
  cases h
  have hnormal := (normalizePricingBlock_good _ _ _ hfee).setInterval
    (show "once".toList ∈ intervals by decide)
  unfold normalizeSetupFee
  rw [bind_of_eq_ok (normalizePricingBlock_again hnormal _), set_find (Dict.find_set_self _ _ _)]
  rfl

theorem normalizeMinimumCommit_again {b : Dict} (h : normalizeMinimumCommit field raw = .ok b) :
    normalizeMinimumCommit field (.dict b) = .ok b := by
  obtain ⟨commit, hcommit, h⟩ := bind_ok h
  split at h
  · rename_i htype
    cases h
    unfold normalizeMinimumCommit
    rw [bind_of_eq_ok (normalizePricingBlock_again (normalizePricingBlock_good _ _ _ hcommit) _),
      if_pos htype]
    rfl
  · cases h

/-- A mapping that may be there. -/
def setOptional (key : Text) (block : Option Dict) (out : Dict) : Dict :=
  match block with
  | none => out
  | some b => out.set key (.dict b)

theorem get_setOptional_of_ne {block : Option Dict} (h : other ≠ key) :
    (setOptional key block out).get other = out.get other := by
  cases block with
  | none => rfl
  | some b => exact Dict.get_set_of_ne _ h

theorem get_setOptional_self {block : Option Dict} (h : out.get key = .none) :
    (setOptional key block out).get key = (block.map Val.dict).getD .none := by
  cases block with
  | none => exact h
  | some b => exact Dict.get_set_self _ _ _

theorem normalizeOptional_good {planMap : Dict} {normalize : Val → Checked Dict}
    (h : normalizeOptional planMap key normalize out = .ok d) :
    ∃ block, d = setOptional key block out ∧ ∀ b ∈ block, ∃ raw, normalize raw = .ok b := by
  unfold normalizeOptional at h
  split at h
  · obtain ⟨block, hblock, h⟩ := bind_ok h
    cases h
    refine ⟨some block, rfl, fun b hb => ?_⟩
    cases hb
    exact ⟨_, hblock⟩
  · cases h
    exact ⟨none, rfl, nofun⟩

theorem normalizeOptional_again {planMap : Dict} {normalize : Val → Checked Dict} {block : Option Dict}
    (hget : planMap.get key = (block.map Val.dict).getD .none)
    (hagain : ∀ b ∈ block, normalize (.dict b) = .ok b) :
    normalizeOptional planMap key normalize out = .ok (setOptional key block out) := by
  unfold normalizeOptional
  rw [hget]
  cases block with
  | none => rfl
  | some b =>
    show (normalize (.dict b) >>= _) = _
    rw [bind_of_eq_ok (hagain b rfl)]
    rfl

/-- A plan before its fees. -/
def planStart (id label description : Text) (pricing : Dict) (inputs addons factors : List Val) : Dict :=
  setNonempty "factors" factors (setNonempty "addons" addons (setNonempty "inputs" inputs
    [(.str "id", .str id), (.str "label", .str label), (.str "description", .str description),
      (.str "pricing", .dict pricing)]))

theorem planStart_get (id label description : Text) (pricing : Dict) (inputs addons factors : List Val) :
    (planStart id label description pricing inputs addons factors).get "id" = .str id ∧
      (planStart id label description pricing inputs addons factors).get "label" = .str label ∧
      (planStart id label description pricing inputs addons factors).get "description" =
        .str description ∧
      (planStart id label description pricing inputs addons factors).get "pricing" = .dict pricing ∧
      (planStart id label description pricing inputs addons factors).get "setup_fee" = .none ∧
      (planStart id label description pricing inputs addons factors).get "minimum_commit" = .none := by
  refine ⟨?_, ?_, ?_, ?_, ?_, ?_⟩ <;>
  · unfold planStart
    rw [get_setNonempty_of_ne (by decide), get_setNonempty_of_ne (by decide),
      get_setNonempty_of_ne (by decide)]
    rfl

theorem planStart_lists (id label description : Text) (pricing : Dict)
    (inputs addons factors : List Val) :
    asList ((planStart id label description pricing inputs addons factors).get "inputs") = inputs ∧
      asList ((planStart id label description pricing inputs addons factors).get "addons") = addons ∧
      asList ((planStart id label description pricing inputs addons factors).get "factors")
        = factors := by
  unfold planStart
  refine ⟨?_, ?_, ?_⟩
  · rw [get_setNonempty_of_ne (by decide), get_setNonempty_of_ne (by decide)]
    exact asList_setNonempty rfl
  · rw [get_setNonempty_of_ne (by decide)]
    refine asList_setNonempty ?_
    rw [get_setNonempty_of_ne (by decide)]
    rfl
  · refine asList_setNonempty ?_
    rw [get_setNonempty_of_ne (by decide), get_setNonempty_of_ne (by decide)]
    rfl

theorem normalizePlan_eq {offering : String} {index : Nat} {id label description : Text}
    (hid : IsName id) (hlabel : IsName label) (hdescription : strip description = description)
    (hgetId : d.get "id" = .str id) (hgetLabel : d.get "label" = .str label)
    (hgetDescription : d.get "description" = .str description) :
    normalizePlan offering index (.dict d) = (do
      let field := offering ++ ".plans[" ++ Nat.repr index ++ "]"
      let pricing ← normalizePricingBlock (d.get "pricing") s!"{field}.pricing"
      let inputs ← normalizeInputs (d.get "inputs") s!"{field}.inputs"
      let addons ← normalizeAll (normalizeAddon field) 0 (asList (d.get "addons"))
      let factors ← normalizeAll (normalizeFactor field) 0 (asList (d.get "factors"))
      let out ← normalizeOptional d "setup_fee" (normalizeSetupFee field)
        (planStart id label description pricing inputs addons factors)
      normalizeOptional d "minimum_commit" (normalizeMinimumCommit field) out) := by
  unfold normalizePlan
  dsimp only [asMapping]
  rw [hgetId, hgetLabel, hgetDescription, hlabel.orNone_again, asStr_str, asStr_str, hid.2, hdescription,
    if_neg hid.1]
  rfl

/-- A plan with the fees it has. -/
def withFees (start : Dict) (fee commit : Option Dict) : Dict :=
  setOptional "minimum_commit" commit (setOptional "setup_fee" fee start)

section Fees

variable {start : Dict} {fee commit : Option Dict}

theorem get_withFees_of_ne (hcommit : key ≠ "minimum_commit".toList) (hfee : key ≠ "setup_fee".toList) :
    (withFees start fee commit).get key = start.get key :=
  (get_setOptional_of_ne hcommit).trans (get_setOptional_of_ne hfee)

theorem get_withFees_fee (h : start.get "setup_fee" = .none) :
    (withFees start fee commit).get "setup_fee" = (fee.map Val.dict).getD .none :=
  (get_setOptional_of_ne (by decide)).trans (get_setOptional_self h)

theorem get_withFees_commit (h : start.get "minimum_commit" = .none) :
    (withFees start fee commit).get "minimum_commit" = (commit.map Val.dict).getD .none :=
  get_setOptional_self ((get_setOptional_of_ne (by decide)).trans h)

end Fees

/-- **A plan in normal form is left as it is.** -/
theorem normalizePlan_again {offering : String} {index : Nat} {plan : Dict}
    (h : normalizePlan offering index raw = .ok plan) :
    normalizePlan offering index (.dict plan) = .ok plan := by
  unfold normalizePlan at h
  dsimp only at h
  split at h
  · cases h
  rename_i hid
  obtain ⟨pricing, hpricing, h⟩ := bind_ok h
  obtain ⟨inputs, hinputs, h⟩ := bind_ok h
  obtain ⟨addons, haddons, h⟩ := bind_ok h
  obtain ⟨factors, hfactors, h⟩ := bind_ok h
  obtain ⟨withFee, hfee, h⟩ := bind_ok h
  obtain ⟨fee, rfl, hfeeAgain⟩ := normalizeOptional_good hfee
  obtain ⟨commit, rfl, hcommitAgain⟩ := normalizeOptional_good h
  have hname := asStr_good _ hid
  have hlabel := orNone_asStr_good ((asMapping raw).get "label") hname
  have hdescription : strip (asStr ((asMapping raw).get "description")) =
      asStr ((asMapping raw).get "description") := strip_strip _
  clear hfee h hid
  generalize (orNone (asStr ((asMapping raw).get "label"))).getD (asStr ((asMapping raw).get "id")) = label
    at hlabel ⊢
  generalize asStr ((asMapping raw).get "id") = id at hname ⊢
  generalize asStr ((asMapping raw).get "description") = description at hdescription ⊢
  obtain ⟨hgetId, hgetLabel, hgetDescription, hgetPricing, hnoFee, hnoCommit⟩ :=
    planStart_get id label description pricing inputs addons factors
  obtain ⟨hgetInputs, hgetAddons, hgetFactors⟩ :=
    planStart_lists id label description pricing inputs addons factors
  show normalizePlan offering index
    (.dict (withFees (planStart id label description pricing inputs addons factors) fee commit)) =
      .ok (withFees (planStart id label description pricing inputs addons factors) fee commit)
  generalize hstart : planStart id label description pricing inputs addons factors = start at *
  have hget {key : Text} (hkey : key ≠ "minimum_commit".toList) (hkey' : key ≠ "setup_fee".toList) :
      (withFees start fee commit).get key = start.get key := get_withFees_of_ne hkey hkey'
  have hagainInputs (name : String) (hname :
        normalizeInputs ((asMapping raw).get "inputs") name = .ok inputs) :
      normalizeInputs ((withFees start fee commit).get "inputs") name = .ok inputs := by
    unfold normalizeInputs
    rw [hget (by decide) (by decide), hgetInputs]
    exact normalizeInputs_again hname
  rw [normalizePlan_eq hname hlabel hdescription ((hget (by decide) (by decide)).trans hgetId)
    ((hget (by decide) (by decide)).trans hgetLabel)
    ((hget (by decide) (by decide)).trans hgetDescription)]
  dsimp only
  rw [(hget (by decide) (by decide)).trans hgetPricing,
    bind_of_eq_ok (normalizePricingBlock_again (normalizePricingBlock_good _ _ _ hpricing) _),
    bind_of_eq_ok (hagainInputs _ hinputs), hget (by decide) (by decide), hgetAddons,
    bind_of_eq_ok (normalizeAll_again haddons fun _ _ _ => normalizeAddon_again),
    hget (by decide) (by decide), hgetFactors,
    bind_of_eq_ok (normalizeAll_again hfactors fun _ _ _ => normalizeFactor_again), hstart]
  have hfees : normalizeOptional (withFees start fee commit) "setup_fee" (normalizeSetupFee
      (offering ++ ".plans[" ++ Nat.repr index ++ "]")) start = .ok (setOptional "setup_fee" fee start) :=
    normalizeOptional_again (get_withFees_fee hnoFee) fun b hb => by
      obtain ⟨raw, hraw⟩ := hfeeAgain b hb
      exact normalizeSetupFee_again hraw
  rw [bind_of_eq_ok hfees]
  refine normalizeOptional_again (get_withFees_commit hnoCommit) fun b hb => ?_
  obtain ⟨raw, hraw⟩ := hcommitAgain b hb
  exact normalizeMinimumCommit_again hraw

/-- The four texts of an offering. -/
def offeringStart (id label provider description : Text) : Dict :=
  [(.str "id", .str id), (.str "label", .str label), (.str "provider", .str provider),
    (.str "description", .str description)]

/-- An offering with its inputs and plans. -/
def withPlans (start : Dict) (inputs plans : List Val) : Dict :=
  (setNonempty "inputs" inputs start).set "plans" (.list plans)

theorem normalizeOffering_eq {index : Nat} {id label provider description : Text} {plans : List Val}
    (hid : IsName id) (hlabel : IsName label) (hprovider : IsName provider)
    (hdescription : strip description = description) (hgetId : d.get "id" = .str id)
    (hgetLabel : d.get "label" = .str label) (hgetProvider : d.get "provider" = .str provider)
    (hgetDescription : d.get "description" = .str description)
    (hgetPlans : d.get "plans" = .list plans) (hne : plans ≠ []) :
    normalizeOffering index (.dict d) = (do
      let field := "offerings[" ++ Nat.repr index ++ "]"
      let inputs ← normalizeInputs (d.get "inputs") s!"{field}.inputs"
      let plans ← normalizeAll (normalizePlan field) 0 plans
      pure (withPlans (offeringStart id label provider description) inputs plans)) := by
  obtain ⟨plan, others, rfl⟩ := List.exists_cons_of_ne_nil hne
  unfold normalizeOffering
  dsimp only [asMapping]
  rw [hgetId, hgetLabel, hgetProvider, hgetDescription, hgetPlans, hlabel.orNone_again,
    hprovider.orNone_again, asStr_str, asStr_str, hid.2, hdescription, if_neg hid.1]
  rfl

theorem normalizeAll_ne_nil {normalize : Nat → Val → Checked Dict} {index : Nat} {raw : Val}
    {raws items : List Val} (h : normalizeAll normalize index (raw :: raws) = .ok items) :
    items ≠ [] := by
  obtain ⟨first, -, h⟩ := bind_ok h
  obtain ⟨others, -, h⟩ := bind_ok h
  cases h
  exact nofun

/-- **An offering in normal form is left as it is.** -/
theorem normalizeOffering_again {index : Nat} {offering : Dict}
    (h : normalizeOffering index raw = .ok offering) :
    normalizeOffering index (.dict offering) = .ok offering := by
  unfold normalizeOffering at h
  dsimp only at h
  split at h
  · cases h
  rename_i hid
  split at h
  · cases h
  obtain ⟨inputs, hinputs, h⟩ := bind_ok h
  obtain ⟨plans, hplans, h⟩ := bind_ok h
  cases h
  have hname := asStr_good _ hid
  have hlabel := orNone_asStr_good ((asMapping raw).get "label") hname
  have hprovider := orNone_asStr_good ((asMapping raw).get "provider")
    (show IsName "generic".toList by exact ⟨by decide, by decide⟩)
  have hdescription : strip (asStr ((asMapping raw).get "description")) =
      asStr ((asMapping raw).get "description") := strip_strip _
  generalize (orNone (asStr ((asMapping raw).get "label"))).getD (asStr ((asMapping raw).get "id")) = label
    at hlabel ⊢
  generalize (orNone (asStr ((asMapping raw).get "provider"))).getD "generic".toList = provider
    at hprovider ⊢
  generalize asStr ((asMapping raw).get "id") = id at hname ⊢
  generalize asStr ((asMapping raw).get "description") = description at hdescription ⊢
  show normalizeOffering index
    (.dict (withPlans (offeringStart id label provider description) inputs plans)) =
      .ok (withPlans (offeringStart id label provider description) inputs plans)
  have hget {key : Text} (hkey : key ≠ "plans".toList) (hkey' : key ≠ "inputs".toList) :
      (withPlans (offeringStart id label provider description) inputs plans).get key =
        (offeringStart id label provider description).get key :=
    (Dict.get_set_of_ne _ hkey).trans (get_setNonempty_of_ne hkey')
  have hgetInputs : asList ((withPlans (offeringStart id label provider description)
      inputs plans).get "inputs") = inputs := by
    unfold withPlans
    rw [Dict.get_set_of_ne _ (by decide)]
    exact asList_setNonempty rfl
  have hinputsAgain (name : String) (h :
        normalizeInputs ((asMapping raw).get "inputs") name = .ok inputs) :
      normalizeInputs ((withPlans (offeringStart id label provider description) inputs plans).get
        "inputs") name = .ok inputs := by
    unfold normalizeInputs
    rw [hgetInputs]
    exact normalizeInputs_again h
  rw [normalizeOffering_eq hname hlabel hprovider hdescription (hget (by decide) (by decide))
    (hget (by decide) (by decide)) (hget (by decide) (by decide)) (hget (by decide) (by decide))
    (Dict.get_set_self _ _ _) (normalizeAll_ne_nil hplans)]
  dsimp only
  rw [bind_of_eq_ok (hinputsAgain _ hinputs),
    bind_of_eq_ok (normalizeAll_again hplans fun _ _ _ => normalizePlan_again)]
  rfl

/-- The head of a price list. -/
def docStart (offeringId planId : Text) : Dict :=
  [(.str "schema", .str "v2"), (.str "default_offering_id", .str offeringId),
    (.str "default_plan_id", .str planId)]

/-- A price list with its inputs and offerings. -/
def withOfferings (start : Dict) (inputs offerings : List Val) : Dict :=
  (setNonempty "inputs" inputs start).set "offerings" (.list offerings)

theorem normalizePricingDoc_eq {offeringId planId : Text} {offerings : List Val}
    (hoffering : IsName offeringId) (hplan : IsName planId) (hgetSchema : d.get "schema" = .str "v2")
    (hgetOffering : d.get "default_offering_id" = .str offeringId)
    (hgetPlan : d.get "default_plan_id" = .str planId)
    (hgetOfferings : d.get "offerings" = .list offerings) (hne : offerings ≠ []) :
    normalizePricingDoc d = (do
      let inputs ← normalizeInputs (d.get "inputs") "inputs"
      let offerings ← normalizeAll normalizeOffering 0 offerings
      pure (withOfferings (docStart offeringId planId) inputs offerings)) := by
  obtain ⟨offering, others, rfl⟩ := List.exists_cons_of_ne_nil hne
  have hschema : lower (asStr (.str "v2")) = "v2".toList := by decide
  unfold normalizePricingDoc
  rw [hgetSchema, hgetOffering, hgetPlan, hgetOfferings, hoffering.orNone_again, hplan.orNone_again,
    if_neg (not_not.mpr hschema)]
  rfl

/-- **The normal form of a price list is its own normal form**, key by key and in the same order. -/
theorem normalize_again {doc pricing : Dict} (h : normalizePricingDoc doc = .ok pricing) :
    normalizePricingDoc pricing = .ok pricing := by
  unfold normalizePricingDoc at h
  split at h
  · cases h
  obtain ⟨inputs, hinputs, h⟩ := bind_ok h
  split at h
  · cases h
  obtain ⟨offerings, hofferings, h⟩ := bind_ok h
  cases h
  have hoffering := orNone_asStr_good (doc.get "default_offering_id")
    (show IsName "default".toList by exact ⟨by decide, by decide⟩)
  have hplan := orNone_asStr_good (doc.get "default_plan_id")
    (show IsName "community".toList by exact ⟨by decide, by decide⟩)
  generalize (orNone (asStr (doc.get "default_offering_id"))).getD "default".toList = offeringId
    at hoffering ⊢
  generalize (orNone (asStr (doc.get "default_plan_id"))).getD "community".toList = planId
    at hplan ⊢
  show normalizePricingDoc (withOfferings (docStart offeringId planId) inputs offerings) =
    .ok (withOfferings (docStart offeringId planId) inputs offerings)
  have hget {key : Text} (hkey : key ≠ "offerings".toList) (hkey' : key ≠ "inputs".toList) :
      (withOfferings (docStart offeringId planId) inputs offerings).get key =
        (docStart offeringId planId).get key :=
    (Dict.get_set_of_ne _ hkey).trans (get_setNonempty_of_ne hkey')
  have hgetInputs : asList ((withOfferings (docStart offeringId planId) inputs offerings).get
      "inputs") = inputs := by
    unfold withOfferings
    rw [Dict.get_set_of_ne _ (by decide)]
    exact asList_setNonempty rfl
  have hinputsAgain : normalizeInputs ((withOfferings (docStart offeringId planId) inputs
      offerings).get "inputs") "inputs" = .ok inputs := by
    unfold normalizeInputs
    rw [hgetInputs]
    exact normalizeInputs_again hinputs
  rw [normalizePricingDoc_eq hoffering hplan (hget (by decide) (by decide))
    (hget (by decide) (by decide)) (hget (by decide) (by decide)) (Dict.get_set_self _ _ _)
    (normalizeAll_ne_nil hofferings), bind_of_eq_ok hinputsAgain,
    bind_of_eq_ok (normalizeAll_again hofferings fun _ _ _ => normalizeOffering_again)]
  rfl

end Documents

/-- The price list with every kind of block, normalized twice. -/
theorem normalize_again_rich : ∃ pricing, normalizePricingDoc richList = .ok pricing ∧
    normalizePricingDoc pricing = .ok pricing := by
  have haccepted : (normalizePricingDoc richList).toOption.isSome = true := by decide +kernel
  obtain ⟨pricing, hdoc⟩ := exists_ok haccepted
  exact ⟨pricing, hdoc, normalize_again hdoc⟩

end Infinito.Pricing
