import Infinito.Domains.Catalog

/-!
# A catalog that is read, written and read again

Reading a catalog keeps the first entry that a domain is brought as (`mem_parse`). That is not always
the domain's own first entry: a subdomain that is listed before its parent brings the parent as a
plain `active` entry. And the list that is written is sorted, with a subdomain before its parent
when the parent is a subdomain as well and sorts behind it; then the parent is brought first by its
subdomain when the list is read again. `catalog_stable_iff` says when neither happens.
-/

set_option autoImplicit false

namespace Infinito.Domains

open Py
open scoped List
open Orders (isSlugChar jsTrim jsTrim_jsTrim)

/-- What the language promises of its texts. -/
structure Script.Lawful (js : Script) : Prop where
  /-- Lower-case letters and digits stay. -/
  lower_slug : ∀ t : Text, (∀ c ∈ t, isSlugChar c = true) → js.lower t = t
  compare_total : ∀ a b, js.localeCompare a b ≤ 0 ∨ js.localeCompare b a ≤ 0
  compare_trans : ∀ a b c, js.localeCompare a b ≤ 0 → js.localeCompare b c ≤ 0 →
    js.localeCompare a c ≤ 0

/-! ## The items of the list -/

/-- `rawItems` -/
def rawItems (data : Dict) : List Val :=
  match Dict.get data DOMAIN_CATALOG_KEY with
  | .list items => items
  | _ => []

section

variable (js : Script)

/-- What is staged of the list itself. -/
def listedItems (data : Dict) : List Staged := (rawItems data).filterMap (stageItem js)

/-- What is staged of the primary domain. -/
def primaryItem (data : Dict) : List Staged :=
  let fallbackPrimary := normalizeDomainName js (.str (readPrimaryDomainFromGroupVars js data))
  if fallbackPrimary = [] then [] else [Staged.ofName js fallbackPrimary]

theorem stage_eq (data : Dict) : stage js data = listedItems js data ++ primaryItem js data := rfl

end

/-! ## Reading a row back -/

section Rows
variable {js : Script} {entry : DomainEntry}

/-- What is staged of an entry that was written. -/
def DomainEntry.staged (entry : DomainEntry) : Staged :=
  ⟨entry.kind, entry.domain, entry.parentFqdn, entry.status, entry.statusChangedAt, entry.orderId⟩

/-- The entry that is brought as the parent. -/
def DomainEntry.parents (entry : DomainEntry) : List DomainEntry :=
  entry.parentFqdn.toList.map parentEntry

/-- An entry that a reader makes: its texts are normalized, and it is brought again by itself, its
    parent before it. -/
structure DomainEntry.Sound (js : Script) (entry : DomainEntry) : Prop where
  normal : normalizeDomainName js (.str entry.domain) = entry.domain
  nonempty : entry.domain ≠ []
  date : entry.statusChangedAt ≠ some []
  order : entry.orderId ≠ some []
  parent : ∀ domain, entry.parentFqdn = some domain →
    entry.kind = .subdomain ∧ normalizeDomainName js (.str domain) = domain ∧ domain ≠ []
  brings : entry.staged.brings js = entry.parents ++ [entry]

/-- `undefined`, or a text. -/
def optionVal : Option Text → Val
  | none => .none
  | some t => .str t

/-- What a reader finds in a row. -/
theorem get_payloadRow (entry : DomainEntry) : ∃ row : Dict,
    rowVal .str (payloadRow entry) = .dict row ∧ Dict.get row "domain" = .str entry.domain ∧
    Dict.get row "type" = .str entry.kind.name ∧ Dict.get row "status" = .str entry.status.name ∧
    Dict.get row "parent_fqdn" =
      optionVal (truthy (if entry.kind = .subdomain then entry.parentFqdn else none)) ∧
    Dict.get row "status_changed_at" = optionVal (truthy entry.statusChangedAt) ∧
    Dict.get row "order_id" = optionVal (truthy entry.orderId) ∧
    Dict.get row "parentFqdn" = .none ∧ Dict.get row "parent" = .none ∧
    Dict.get row "statusChangedAt" = .none ∧ Dict.get row "orderId" = .none := by
  refine ⟨_, rfl, rfl, rfl, rfl, ?_⟩
  unfold payloadRow
  dsimp only
  cases truthy (if entry.kind = .subdomain then entry.parentFqdn else none) <;>
    cases truthy entry.statusChangedAt <;> cases truthy entry.orderId <;>
    exact ⟨rfl, rfl, rfl, rfl, rfl, rfl, rfl⟩

theorem orElse_none_right (v : Val) : Orders.orElse v .none = v := by
  cases v <;> rfl

theorem stringOrNull_optionVal (t : Option Text) : stringOrNull (optionVal (truthy t)) = truthy t := by
  cases t with
  | none => rfl
  | some t =>
    show stringOrNull (optionVal (orNone t)) = orNone t
    by_cases h : t = []
    · rw [h]
      rfl
    · rw [orNone_of_ne h]
      exact orNone_of_ne h

theorem truthy_of_ne {t : Option Text} (h : t ≠ some []) : truthy t = t := by
  cases t with
  | none => rfl
  | some t => exact orNone_of_ne fun hnil => h (congrArg some hnil)

theorem normalize_slug (hjs : js.Lawful) {t : Text} (h : ∀ c ∈ t, isSlugChar c = true) :
    normalizeDomainName js (.str t) = t := by
  have htrim : jsTrim t = t := by
    refine Lib.trim_of_forall fun c hc => ?_
    have hrange := Orders.isSlugChar_range (h c hc)
    simp only [Orders.isJsSpace, Bool.or_eq_false_iff, Bool.and_eq_false_iff,
      decide_eq_false_iff_not, beq_eq_false_iff_ne]
    omega
  rw [normalizeDomainName_str, htrim, hjs.lower_slug t h]

theorem ofName_name (kind : DomainKind) : DomainKind.ofName kind.name = some kind := by
  cases kind <;> decide

/-- A row that was written is staged as it was. -/
theorem stageItem_payloadRow (hjs : js.Lawful) (hsound : entry.Sound js) :
    stageItem js (rowVal .str (payloadRow entry)) = some entry.staged := by
  obtain ⟨row, hrow, hdomain, htype, hstatus, hparent, hdate, horder, hparent₁, hparent₂, hdate₁,
    horder₁⟩ := get_payloadRow entry
  have hkind : normalizeDomainName js (.str entry.kind.name) = entry.kind.name := by
    refine normalize_slug hjs (List.all_eq_true.mp ?_)
    cases entry.kind <;> decide
  have hname : normalizeDomainStatus js (.str entry.status.name) = entry.status := by
    have hslug : normalizeDomainName js (.str entry.status.name) = entry.status.name := by
      refine normalize_slug hjs (List.all_eq_true.mp ?_)
      cases entry.status <;> decide
    show ((Status.ofName (normalizeDomainName js (.str entry.status.name))).getD .active) = _
    rw [hslug, Status.ofName_name]
    rfl
  have hfqdn : orNone (normalizeDomainName js
      (optionVal (truthy (if entry.kind = .subdomain then entry.parentFqdn else none)))) =
      entry.parentFqdn := by
    cases hp : entry.parentFqdn with
    | none =>
      rw [ite_self]
      show orNone (normalizeDomainName js .none) = none
      rw [show normalizeDomainName js .none = normalizeDomainName js (.str []) from rfl,
        normalizeDomainName_nil]
      rfl
    | some domain =>
      obtain ⟨hsub, hnormal, hne⟩ := hsound.parent domain hp
      rw [if_pos hsub]
      show orNone (normalizeDomainName js (optionVal (orNone domain))) = some domain
      rw [orNone_of_ne hne]
      show orNone (normalizeDomainName js (.str domain)) = some domain
      rw [hnormal, orNone_of_ne hne]
  rw [hrow, stageItem]
  dsimp only
  rw [hdomain, htype, hstatus, hparent, hdate, horder, hparent₁, hparent₂, hdate₁, horder₁]
  rw [show Orders.orElse (.str entry.domain) _ = .str entry.domain from rfl,
    show Orders.orElse (.str entry.kind.name) _ = .str entry.kind.name from rfl, orElse_none_right,
    orElse_none_right, orElse_none_right, orElse_none_right, hsound.normal,
    if_neg hsound.nonempty, hkind, hname, hfqdn, stringOrNull_optionVal, stringOrNull_optionVal,
    truthy_of_ne hsound.date, truthy_of_ne hsound.order, ofName_name]
  rfl

end Rows

/-! ## The entries that are brought -/

section Sound
variable {js : Script} {data : Dict} {item : Staged} {entry : DomainEntry}

/-- What is on the stage has texts that are not empty. -/
theorem nonempty_stage (h : item ∈ stage js data) :
    item.domain ≠ [] ∧ item.statusChangedAt ≠ some [] ∧ item.orderId ≠ some [] := by
  have hstring : ∀ v : Val, stringOrNull v ≠ some [] := by
    intro v
    cases v with
    | str t => exact fun heq => (orNone_eq_some.mp heq).2 rfl
    | _ => exact (Option.some_ne_none []).symm
  rw [stage_eq] at h
  rcases List.mem_append.mp h with h | h
  · obtain ⟨raw, -, hraw⟩ := List.mem_filterMap.mp h
    cases raw with
    | str t =>
      rw [stageItem] at hraw
      split at hraw
      · cases hraw
      · rename_i hne
        obtain rfl := Option.some.inj hraw
        exact ⟨hne, (Option.some_ne_none []).symm, (Option.some_ne_none []).symm⟩
    | dict node =>
      rw [stageItem] at hraw
      split at hraw
      · cases hraw
      · rename_i hne
        obtain rfl := Option.some.inj hraw
        exact ⟨hne, hstring _, hstring _⟩
    | _ => cases hraw
  · unfold primaryItem at h
    dsimp only at h
    split at h
    · cases h
    · rename_i hne
      rw [List.mem_singleton.mp h]
      exact ⟨hne, (Option.some_ne_none []).symm, (Option.some_ne_none []).symm⟩

theorem sound_parentEntry {domain : Text} (hnormal : normalizeDomainName js (.str domain) = domain)
    (hlikely : isLikelyFqdn js domain = true) : (parentEntry domain).Sound js where
  normal := hnormal
  nonempty := by
    rintro (rfl : domain = [])
    rw [isLikelyFqdn_nil] at hlikely
    cases hlikely
  date := nofun
  order := nofun
  parent := nofun
  brings := by
    show (if DomainKind.accepts js .fqdn domain = true then _ else _) = _
    rw [DomainKind.accepts, if_pos hlikely]
    rfl

theorem sound_localhost (hjs : js.Lawful) : localhostEntry.Sound js where
  normal := normalize_slug hjs (List.all_eq_true.mp (by decide))
  nonempty := by decide
  date := nofun
  order := nofun
  parent := nofun
  brings := rfl

/-- An entry that is brought is one that a reader makes. -/
theorem sound_of_brings (hitem : item ∈ stage js data) (h : entry ∈ item.brings js) :
    entry.Sound js := by
  have hnormal := normalize_stage hitem
  obtain ⟨hne, hdate, horder⟩ := nonempty_stage hitem
  have htop : ∀ kind : DomainKind, item.kind = kind → kind ≠ .subdomain →
      entry ∈ (if kind.accepts js item.domain then [item.own none] else []) →
      entry.Sound js := by
    intro kind hkind hsub hmem
    split at hmem
    · rename_i hyes
      rw [List.mem_singleton.mp hmem]
      refine ⟨hnormal, hne, hdate, horder, nofun, ?_⟩
      have hbrings : (item.own none).staged.brings js =
          if kind.accepts js item.domain then [item.own none] else [] := by
        unfold Staged.brings
        rw [show (item.own none).staged.kind = kind from hkind]
        cases kind with
        | localName => rfl
        | fqdn => rfl
        | subdomain => exact absurd rfl hsub
      rw [hbrings, if_pos hyes]
      rfl
    · cases hmem
  unfold Staged.brings at h
  cases hkind : item.kind with
  | localName =>
    rw [hkind] at h
    exact htop _ hkind nofun h
  | fqdn =>
    rw [hkind] at h
    exact htop _ hkind nofun h
  | subdomain =>
    rw [hkind] at h
    dsimp only at h
    split at h
    · rename_i hlikely
      have hparent : normalizeDomainName js (.str (item.parent js)) = item.parent js :=
        normalize_parent item
      rcases List.mem_cons.mp h with rfl | h
      · exact sound_parentEntry hparent hlikely
      · split at h
        · rename_i hdot
          have hpne : item.parent js ≠ [] := by
            intro hempty
            rw [hempty, isLikelyFqdn_nil] at hlikely
            cases hlikely
          rw [List.mem_singleton.mp h]
          refine ⟨hnormal, hne, hdate, horder, ?_, ?_⟩
          · intro domain hdomain
            cases hdomain
            exact ⟨hkind, hparent, hpne⟩
          · have hsame : (item.own (some (item.parent js))).staged.parent js = item.parent js := by
              show (if normalizeDomainName js (.str (item.parent js)) = [] then _ else
                normalizeDomainName js (.str (item.parent js))) = _
              rw [hparent, if_neg hpne]
            unfold Staged.brings
            rw [show (item.own (some (item.parent js))).staged.kind = .subdomain from hkind]
            dsimp only
            rw [hsame, if_pos hlikely,
              if_pos (show '.' ∈ (item.own (some (item.parent js))).staged.domain from hdot)]
            rfl
        · cases h
    · cases h

theorem sound_of_parse (hjs : js.Lawful)
    (h : entry ∈ parseDomainCatalogFromGroupVars js data) : entry.Sound js := by
  have hmem := List.mem_of_find?_eq_some (mem_parse.mp h)
  unfold brought at hmem
  rcases List.mem_append.mp hmem with hmem | hmem
  · obtain ⟨item, hitem, hbrings⟩ := List.mem_flatMap.mp hmem
    exact sound_of_brings hitem hbrings
  · rw [List.mem_singleton.mp hmem]
    exact sound_localhost hjs

end Sound

/-! ## Written and read again -/

section Again
variable {js : Script} {data data' : Dict} {entries : List DomainEntry}

/-- A list of entries, every parent before its subdomain. -/
def withParents (entries : List DomainEntry) : List DomainEntry :=
  entries.flatMap fun entry => entry.parents ++ [entry]

theorem listedItems_payload (hjs : js.Lawful) (hsound : ∀ entry ∈ entries, entry.Sound js)
    (hlist : Dict.get data' DOMAIN_CATALOG_KEY = .list (buildDomainCatalogPayload entries)) :
    listedItems js data' = entries.map (·.staged) := by
  unfold listedItems rawItems buildDomainCatalogPayload at *
  rw [hlist]
  dsimp only
  rw [List.filterMap_map]
  clear hlist
  induction entries with
  | nil => rfl
  | cons entry entries ih =>
    rw [List.filterMap_cons, List.map_cons, Function.comp_apply,
      stageItem_payloadRow hjs (hsound entry List.mem_cons_self)]
    exact congrArg (entry.staged :: ·) (ih fun other hother =>
      hsound other (List.mem_cons_of_mem _ hother))

/-- What the stage brings when the list is read again. -/
theorem brings_again (hjs : js.Lawful) (hsound : ∀ entry ∈ entries, entry.Sound js)
    (hlist : Dict.get data' DOMAIN_CATALOG_KEY = .list (buildDomainCatalogPayload entries))
    (hprimary : Dict.get data' "DOMAIN_PRIMARY" = Dict.get data "DOMAIN_PRIMARY") :
    (stage js data').flatMap (Staged.brings js) =
      withParents entries ++ (primaryItem js data).flatMap (Staged.brings js) := by
  have hprimaryItem : primaryItem js data' = primaryItem js data := by
    unfold primaryItem readPrimaryDomainFromGroupVars
    rw [hprimary]
  rw [stage_eq, listedItems_payload hjs hsound hlist, hprimaryItem, List.flatMap_append,
    List.flatMap_map]
  refine congrArg (· ++ _) ?_
  exact List.flatMap_congr fun entry hentry => (hsound entry hentry).brings

/-- Every parent comes before its subdomain. -/
def ParentsBefore (entries : List DomainEntry) : Prop :=
  ∀ before entry after, entries = before ++ entry :: after →
    ∀ domain, entry.parentFqdn = some domain → domain ∈ before.map (·.domain)

/-- Where every parent comes before its subdomain, nothing new is brought first. -/
theorem firsts_withParents (hnodup : (entries.map (·.domain)).Nodup)
    (h : ParentsBefore entries) : Lib.firsts (·.domain) [] (withParents entries) = entries := by
  have hgo : ∀ before after, entries = before ++ after → ∀ seen : List Text,
      (∀ k, k ∈ seen ↔ k ∈ before.map (·.domain)) →
      Lib.firsts (·.domain) seen (withParents after) = after := by
    intro before after
    induction after generalizing before with
    | nil => exact fun _ _ _ => rfl
    | cons entry after ih =>
      intro hsplit seen hseen
      have hparents : ∀ parent ∈ entry.parents, parent.domain ∈ seen := by
        intro parent hparent
        obtain ⟨domain, hdomain, rfl⟩ := List.mem_map.mp hparent
        exact (hseen _).mpr (h before entry after hsplit domain (Option.mem_toList.mp hdomain))
      have hnew : entry.domain ∉ seen := by
        rw [hseen]
        rw [hsplit, List.map_append, List.map_cons] at hnodup
        exact fun hmem => (List.nodup_middle.mp hnodup |> List.nodup_cons.mp).1
          (List.mem_append_left _ hmem)
      have hsame : ∀ k, k ∈ entry.parents.map (·.domain) ++ seen ↔ k ∈ seen := by
        intro k
        rw [List.mem_append]
        refine or_iff_right_of_imp fun hk => ?_
        obtain ⟨parent, hparent, rfl⟩ := List.mem_map.mp hk
        exact hparents parent hparent
      unfold withParents at ih ⊢
      rw [List.flatMap_cons, List.append_assoc, Lib.firsts_append,
        Lib.firsts_of_seen hparents, List.nil_append, Lib.firsts_congr hsame,
        List.singleton_append, Lib.firsts, if_neg hnew]
      refine congrArg (entry :: ·) (ih (before ++ [entry]) (by rw [hsplit]; simp) _ fun k => ?_)
      rw [List.mem_cons, hseen]
      simp [or_comm]
  exact hgo [] entries rfl [] fun k => by simp

end Again

/-! ## The order of the catalog -/

section Order
variable {js : Script} {data : Dict} {entry parent : DomainEntry} {domain : Text}

theorem compareEntries_total (hjs : js.Lawful) (a b : DomainEntry) :
    compareEntries js a b ≤ 0 ∨ compareEntries js b a ≤ 0 := by
  unfold compareEntries
  by_cases h : a.kind.order - b.kind.order = 0
  · have h' : b.kind.order - a.kind.order = 0 := by omega
    rw [if_neg (not_not_intro h), if_neg (not_not_intro h')]
    exact hjs.compare_total _ _
  · have h' : b.kind.order - a.kind.order ≠ 0 := by omega
    rw [if_pos h, if_pos h']
    omega

theorem compareEntries_trans (hjs : js.Lawful) {a b c : DomainEntry}
    (hab : compareEntries js a b ≤ 0) (hbc : compareEntries js b c ≤ 0) :
    compareEntries js a c ≤ 0 := by
  unfold compareEntries at *
  by_cases h₁ : a.kind.order - b.kind.order = 0
  · rw [if_neg (not_not_intro h₁)] at hab
    by_cases h₂ : b.kind.order - c.kind.order = 0
    · rw [if_neg (not_not_intro h₂)] at hbc
      rw [if_neg (by omega)]
      exact hjs.compare_trans _ _ _ hab hbc
    · rw [if_pos h₂] at hbc
      rw [if_pos (by omega)]
      omega
  · rw [if_pos h₁] at hab
    by_cases h₂ : b.kind.order - c.kind.order = 0
    · rw [if_pos (by omega)]
      omega
    · rw [if_pos h₂] at hbc
      rw [if_pos (by omega)]
      omega

/-- The list is sorted. -/
theorem sorted_parse (hjs : js.Lawful) (data : Dict) :
    (parseDomainCatalogFromGroupVars js data).Pairwise fun a b => compareEntries js a b ≤ 0 := by
  have htotal : Std.Total fun a b => compareEntries js a b ≤ 0 := ⟨compareEntries_total hjs⟩
  have htrans : IsTrans DomainEntry fun a b => compareEntries js a b ≤ 0 :=
    ⟨fun _ _ _ => compareEntries_trans hjs⟩
  rw [parse_eq]
  exact List.pairwise_insertionSort _ _

/-- In what one item brings, a parent comes before its subdomain. -/
theorem parent_before_brings {item : Staged} {before after : List DomainEntry}
    (h : item.brings js = before ++ entry :: after) (hparent : entry.parentFqdn = some domain) :
    domain ∈ before.map (·.domain) := by
  have htop : ∀ kind : DomainKind,
      (if kind.accepts js item.domain then [item.own none] else []) ≠ before ++ entry :: after := by
    intro kind heq
    have hmem : entry ∈ (if kind.accepts js item.domain then [item.own none] else []) := by
      rw [heq]
      simp
    split at hmem
    · rw [List.mem_singleton.mp hmem] at hparent
      cases hparent
    · cases hmem
  unfold Staged.brings at h
  cases hkind : item.kind with
  | localName =>
    rw [hkind] at h
    exact absurd h (htop _)
  | fqdn =>
    rw [hkind] at h
    exact absurd h (htop _)
  | subdomain =>
    rw [hkind] at h
    dsimp only at h
    split at h
    · cases before with
      | nil =>
        rw [List.nil_append] at h
        rw [← (List.cons.inj h).1] at hparent
        cases hparent
      | cons first before =>
        obtain ⟨rfl, htail⟩ := List.cons.inj h
        have hmem : entry ∈ (if '.' ∈ item.domain then [item.own (some (item.parent js))] else []) := by
          rw [htail]
          simp
        split at hmem
        · rw [List.mem_singleton.mp hmem] at hparent
          cases hparent
          exact List.mem_cons_self
        · cases hmem
    · simp at h

theorem parent_before {staged : List Staged} {before after : List DomainEntry}
    (h : staged.flatMap (Staged.brings js) = before ++ entry :: after)
    (hparent : entry.parentFqdn = some domain) : domain ∈ before.map (·.domain) := by
  induction staged generalizing before with
  | nil => simp at h
  | cons item staged ih =>
    rw [List.flatMap_cons, List.append_eq_append_iff] at h
    rcases h with ⟨rest, rfl, hrest⟩ | ⟨rest, hbrings, hrest⟩
    · rw [List.map_append]
      exact List.mem_append_right _ (ih hrest)
    · cases rest with
      | nil =>
        rw [List.append_nil] at hbrings
        have hnil : domain ∈ ([] : List DomainEntry).map (·.domain) := ih hrest.symm
        exact absurd hnil List.not_mem_nil
      | cons other rest =>
        obtain ⟨rfl, rfl⟩ := List.cons.inj hrest
        exact parent_before_brings hbrings hparent

/-- The parent of a subdomain is in the catalog before the catalog is sorted, and before it. -/
theorem parent_sublist (hentry : entry ∈ parseDomainCatalogFromGroupVars js data)
    (hparent : entry.parentFqdn = some domain) :
    ∃ parent : DomainEntry, parent.domain = domain ∧
      [parent, entry] <+ unsorted ((stage js data).flatMap (Staged.brings js)) := by
  have hfind := mem_parse.mp hentry
  obtain ⟨-, before, after, hsplit, hnew⟩ := List.find?_eq_some_iff_append.mp hfind
  unfold brought at hsplit
  have hlocal : entry ≠ localhostEntry := by
    rintro rfl
    cases hparent
  obtain ⟨after, hstage⟩ : ∃ rest,
      (stage js data).flatMap (Staged.brings js) = before ++ entry :: rest := by
    rcases List.append_eq_append_iff.mp hsplit with ⟨rest, -, hrest⟩ | ⟨rest, hrest, htail⟩
    · cases rest with
      | nil => exact absurd (List.cons.inj hrest).1.symm hlocal
      | cons other rest => simp at hrest
    · cases rest with
      | nil => exact absurd (List.cons.inj htail).1 hlocal
      | cons other rest =>
        rw [← (List.cons.inj htail).1] at hrest
        exact ⟨rest, hrest⟩
  have hdomain := parent_before hstage hparent
  obtain ⟨parent, hmem, rfl⟩ := Lib.mem_key_firsts.mpr hdomain
  have hseen : entry.domain ∉ before.map (·.domain) ++ [] := by
    rw [List.append_nil]
    intro hmem
    obtain ⟨other, hother, heq⟩ := List.mem_map.mp hmem
    have := hnew other hother
    simp [heq] at this
  have hfirsts : Lib.firsts (·.domain) [] (before ++ entry :: after) =
      Lib.firsts (·.domain) [] before ++ entry ::
        Lib.firsts (·.domain) (entry.domain :: (before.map (·.domain) ++ [])) after := by
    rw [Lib.firsts_append, Lib.firsts.eq_2, if_neg hseen]
  have hsub : [parent, entry] <+ Lib.firsts (·.domain) [] (before ++ entry :: after) := by
    rw [hfirsts]
    exact List.Sublist.append (List.singleton_sublist.mpr hmem)
      (List.singleton_sublist.mpr List.mem_cons_self)
  refine ⟨parent, rfl, ?_⟩
  rw [hstage]
  unfold unsorted
  split
  · exact hsub
  · exact hsub.trans (List.sublist_cons_self _ _)

end Order

/-! ## When the catalog is stable -/

section Stable
variable {js : Script} {data data' : Dict}

/-- What a domain is first brought as. -/
def firstBrought (js : Script) (data : Dict) (domain : Text) : Option DomainEntry :=
  (brought js data).find? fun entry => entry.domain = domain

/-- A parent that is kept as a subdomain itself does not sort behind its subdomain. -/
def ParentsSorted (js : Script) (data : Dict) : Prop :=
  ∀ entry parent : DomainEntry, firstBrought js data entry.domain = some entry →
    firstBrought js data parent.domain = some parent →
    entry.parentFqdn = some parent.domain → parent.kind = .subdomain →
    js.localeCompare parent.domain entry.domain ≤ 0

theorem nodup_parse (js : Script) (data : Dict) :
    ((parseDomainCatalogFromGroupVars js data).map (·.domain)).Nodup := by
  have hperm := List.perm_insertionSort (fun a b => compareEntries js a b ≤ 0)
    (unsorted ((stage js data).flatMap (Staged.brings js)))
  rw [parse_eq, (hperm.map _).nodup_iff]
  unfold unsorted
  split
  · exact Lib.nodup_firsts
  · rename_i hlocal
    rw [List.map_cons, List.nodup_cons]
    refine ⟨fun h => hlocal ?_, Lib.nodup_firsts⟩
    obtain ⟨entry, hentry, hdomain⟩ := List.mem_map.mp h
    exact Lib.mem_key_firsts.mp ⟨entry, hentry, hdomain⟩

/-- Every domain that is brought is kept. -/
theorem kept_of_brought {entry : DomainEntry} (h : entry ∈ brought js data) :
    entry.domain ∈ (parseDomainCatalogFromGroupVars js data).map (·.domain) := by
  have hsome : ((brought js data).find? fun other => other.domain = entry.domain).isSome = true :=
    List.find?_isSome.mpr ⟨entry, h, decide_eq_true rfl⟩
  obtain ⟨first, hfirst⟩ := Option.isSome_iff_exists.mp hsome
  have hdomain : first.domain = entry.domain := by simpa using List.find?_some hfirst
  rw [← hdomain]
  refine List.mem_map_of_mem (mem_parse.mpr ?_)
  rw [hdomain]
  exact hfirst

theorem kind_of_parent (hjs : js.Lawful) {entry : DomainEntry} {domain : Text}
    (h : entry ∈ parseDomainCatalogFromGroupVars js data)
    (hparent : entry.parentFqdn = some domain) : entry.kind = .subdomain :=
  ((sound_of_parse hjs h).parent domain hparent).1

/-- In a catalog whose parents are sorted, every parent comes before its subdomain. -/
theorem parentsBefore (hjs : js.Lawful) (hsorted : ParentsSorted js data) :
    ParentsBefore (parseDomainCatalogFromGroupVars js data) := by
  intro before entry after hsplit domain hdomain
  have hentry : entry ∈ parseDomainCatalogFromGroupVars js data := by
    rw [hsplit]
    simp
  obtain ⟨parent, rfl, hsub⟩ := parent_sublist hentry hdomain
  have hparent : parent ∈ parseDomainCatalogFromGroupVars js data := by
    rw [parse_eq, List.mem_insertionSort]
    exact hsub.subset List.mem_cons_self
  have hle : compareEntries js parent entry ≤ 0 := by
    have hkind := kind_of_parent hjs hentry hdomain
    unfold compareEntries
    rw [hkind]
    cases hparentKind : parent.kind with
    | localName =>
      rw [if_pos (by decide)]
      decide
    | fqdn =>
      rw [if_pos (by decide)]
      decide
    | subdomain =>
      rw [if_neg (by decide)]
      exact hsorted entry parent (mem_parse.mp hentry) (mem_parse.mp hparent) hdomain hparentKind
  have hpair := List.pair_sublist_insertionSort
    (r := fun a b => compareEntries js a b ≤ 0) hle hsub
  rw [← parse_eq, hsplit] at hpair
  have hnodup := nodup_parse js data
  rw [hsplit] at hnodup
  obtain ⟨first, second, hcut, hfirst, hsecond⟩ := List.sublist_append_iff.mp hpair
  have hnew : entry ∉ after := by
    rw [List.map_append, List.map_cons] at hnodup
    have hkeys := (List.nodup_append.mp hnodup).2.1
    exact fun hmem => (List.nodup_cons.mp hkeys).1 (List.mem_map_of_mem hmem)
  cases first with
  | cons other first =>
    obtain ⟨rfl, -⟩ := List.cons.inj hcut
    exact List.mem_map_of_mem (hfirst.subset List.mem_cons_self)
  | nil =>
    -- behind its subdomain there is no second one
    rw [List.nil_append] at hcut
    rw [← hcut] at hsecond
    cases hsecond with
    | cons _ h => exact absurd (h.subset (List.mem_cons_of_mem _ List.mem_cons_self)) hnew
    | cons_cons _ h => exact absurd (h.subset List.mem_cons_self) hnew

theorem parse_again_of_sorted (hjs : js.Lawful) (hsorted : ParentsSorted js data)
    (hlist : Dict.get data' DOMAIN_CATALOG_KEY =
      .list (buildDomainCatalogPayload (parseDomainCatalogFromGroupVars js data)))
    (hprimary : Dict.get data' "DOMAIN_PRIMARY" = Dict.get data "DOMAIN_PRIMARY") :
    parseDomainCatalogFromGroupVars js data' = parseDomainCatalogFromGroupVars js data := by
  have hsound : ∀ entry ∈ parseDomainCatalogFromGroupVars js data, entry.Sound js :=
    fun _ => sound_of_parse hjs
  have hbrings := brings_again hjs hsound hlist hprimary
  have hkeys : ∀ entry ∈ brought js data,
      entry.domain ∈ (withParents (parseDomainCatalogFromGroupVars js data)).map (·.domain) := by
    intro entry hentry
    obtain ⟨kept, hkept, hdomain⟩ := List.mem_map.mp (kept_of_brought hentry)
    rw [← hdomain]
    exact List.mem_map_of_mem (List.mem_flatMap.mpr ⟨kept, hkept, by simp⟩)
  have hlocal : DEFAULT_PRIMARY_DOMAIN ∈
      (withParents (parseDomainCatalogFromGroupVars js data)).map (·.domain) :=
    hkeys localhostEntry (List.mem_append_right _ List.mem_cons_self)
  have hrest : ∀ entry ∈ (primaryItem js data).flatMap (Staged.brings js),
      entry.domain ∈ (withParents (parseDomainCatalogFromGroupVars js data)).map (·.domain) ++ [] := by
    intro entry hentry
    rw [List.append_nil]
    refine hkeys entry (List.mem_append_left _ ?_)
    rw [stage_eq, List.flatMap_append]
    exact List.mem_append_right _ hentry
  have hunsorted : unsorted (withParents (parseDomainCatalogFromGroupVars js data) ++
      (primaryItem js data).flatMap (Staged.brings js)) =
        parseDomainCatalogFromGroupVars js data := by
    unfold unsorted
    rw [if_pos (by rw [List.map_append]; exact List.mem_append_left _ hlocal), Lib.firsts_append,
      Lib.firsts_of_seen hrest, List.append_nil]
    exact firsts_withParents (nodup_parse js data) (parentsBefore hjs hsorted)
  rw [parse_eq data', hbrings, hunsorted]
  exact List.Pairwise.insertionSort_eq (sorted_parse hjs data)

/-- The catalog is the same when it is read again exactly if its parents are sorted. -/
theorem parse_again_iff (hjs : js.Lawful)
    (hlist : Dict.get data' DOMAIN_CATALOG_KEY =
      .list (buildDomainCatalogPayload (parseDomainCatalogFromGroupVars js data)))
    (hprimary : Dict.get data' "DOMAIN_PRIMARY" = Dict.get data "DOMAIN_PRIMARY") :
    parseDomainCatalogFromGroupVars js data' = parseDomainCatalogFromGroupVars js data ↔
      ParentsSorted js data := by
  refine ⟨fun hsame entry parent hentry hparent hof hkind => ?_, fun hsorted =>
    parse_again_of_sorted hjs hsorted hlist hprimary⟩
  by_contra hle
  have hmem := mem_parse.mpr hentry
  have hparentMem := mem_parse.mpr hparent
  obtain ⟨before, after, hsplit⟩ := List.append_of_mem hmem
  have hsound : ∀ entry ∈ parseDomainCatalogFromGroupVars js data, entry.Sound js :=
    fun _ => sound_of_parse hjs
  -- the parent is behind its subdomain
  have hbehind : parent ∉ before := by
    intro hbefore
    have hpair := sorted_parse hjs data
    rw [hsplit, List.pairwise_append] at hpair
    have hcompare := hpair.2.2 parent hbefore entry List.mem_cons_self
    unfold compareEntries at hcompare
    rw [hkind, kind_of_parent hjs hmem hof, if_neg (by decide)] at hcompare
    exact hle hcompare
  have hagain : parent ∈ parseDomainCatalogFromGroupVars js data' := by
    rw [hsame]
    exact hparentMem
  have hfind := mem_parse.mp hagain
  unfold brought at hfind
  have hcut : withParents (before ++ entry :: after) =
      withParents before ++ parentEntry parent.domain :: (entry :: withParents after) := by
    unfold withParents
    rw [List.flatMap_append, List.flatMap_cons]
    unfold DomainEntry.parents
    rw [hof]
    rfl
  rw [brings_again hjs hsound hlist hprimary, hsplit, hcut, List.append_assoc, List.append_assoc,
    List.find?_append] at hfind
  -- what the subdomain brings is no subdomain, and nothing before it brings its parent as one
  cases hfirst : (withParents before).find? fun other => other.domain = parent.domain with
  | some other =>
    rw [hfirst, Option.some_or] at hfind
    cases hfind
    obtain ⟨kept, hkept, hother⟩ := List.mem_flatMap.mp (List.mem_of_find?_eq_some hfirst)
    rcases List.mem_append.mp hother with hother | hother
    · obtain ⟨domain, -, rfl⟩ := List.mem_map.mp hother
      cases hkind
    · rw [List.mem_singleton.mp hother] at hbehind
      exact hbehind hkept
  | none =>
    have hown : decide ((parentEntry parent.domain).domain = parent.domain) = true :=
      decide_eq_true rfl
    rw [hfirst, Option.none_or, List.cons_append, List.find?_cons, hown] at hfind
    rw [← Option.some.inj hfind] at hkind
    cases hkind

end Stable

/-! ## What a listed domain is first brought as -/

section First
variable {js : Script} {data : Dict} {item : Staged} {entry : DomainEntry} {domain : Text}
  {items front back : List Staged}

/-- The status, the change date and the order id of an item. -/
def Staged.pushMeta (item : Staged) : PushMeta :=
  ⟨item.status, item.statusChangedAt, item.orderId⟩

/-- The status, the change date and the order id of an entry. -/
def DomainEntry.pushMeta (entry : DomainEntry) : PushMeta :=
  ⟨entry.status, entry.statusChangedAt, entry.orderId⟩

/-- The item brings the domain as its parent. -/
def Staged.AddsParent (js : Script) (item : Staged) (domain : Text) : Prop :=
  item.kind = .subdomain ∧ item.parent js = domain ∧ isLikelyFqdn js domain = true

/-- The item passes the checks that are made of its own entry. -/
def Staged.Passes (js : Script) (item : Staged) : Prop :=
  item.kind.accepts js item.domain = true ∧
    (item.kind = .subdomain → isLikelyFqdn js (item.parent js) = true)

theorem find_brings_of_adds (h : item.AddsParent js domain) :
    (item.brings js).find? (fun e => e.domain = domain) = some (parentEntry domain) := by
  obtain ⟨hkind, rfl, hlikely⟩ := h
  have hown : decide ((parentEntry (item.parent js)).domain = item.parent js) = true :=
    decide_eq_true rfl
  unfold Staged.brings
  rw [hkind]
  dsimp only
  rw [if_pos hlikely, List.find?_cons, hown]

/-- Beside the parent there is at most the item's own entry. -/
theorem mem_brings (h : entry ∈ item.brings js) :
    entry = parentEntry (item.parent js) ∧ item.AddsParent js (item.parent js) ∨
      item.Passes js ∧ ∃ parentFqdn, entry = item.own parentFqdn := by
  unfold Staged.brings at h
  cases hkind : item.kind with
  | localName =>
    rw [hkind] at h
    dsimp only at h
    split at h
    · rename_i hyes
      rw [← hkind] at hyes
      exact Or.inr ⟨⟨hyes, fun hsub => by rw [hkind] at hsub; cases hsub⟩, none,
        List.mem_singleton.mp h⟩
    · cases h
  | fqdn =>
    rw [hkind] at h
    dsimp only at h
    split at h
    · rename_i hyes
      rw [← hkind] at hyes
      exact Or.inr ⟨⟨hyes, fun hsub => by rw [hkind] at hsub; cases hsub⟩, none,
        List.mem_singleton.mp h⟩
    · cases h
  | subdomain =>
    rw [hkind] at h
    dsimp only at h
    split at h
    · rename_i hlikely
      rcases List.mem_cons.mp h with rfl | h
      · exact Or.inl ⟨rfl, hkind, rfl, hlikely⟩
      · split at h
        · rename_i hdot
          have hyes : item.kind.accepts js item.domain = true := by
            rw [hkind]
            exact decide_eq_true hdot
          exact Or.inr ⟨⟨hyes, fun _ => hlikely⟩, _, List.mem_singleton.mp h⟩
        · cases h
    · cases h

/-- An item that passes brings an entry of its own. -/
theorem own_mem_brings (h : item.Passes js) : ∃ parentFqdn, item.own parentFqdn ∈ item.brings js := by
  obtain ⟨hyes, hparent⟩ := h
  unfold Staged.brings
  cases hkind : item.kind with
  | localName =>
    rw [hkind] at hyes
    dsimp only
    rw [if_pos hyes]
    exact ⟨none, List.mem_cons_self⟩
  | fqdn =>
    rw [hkind] at hyes
    dsimp only
    rw [if_pos hyes]
    exact ⟨none, List.mem_cons_self⟩
  | subdomain =>
    rw [hkind] at hyes
    dsimp only
    rw [if_pos (hparent hkind), if_pos (of_decide_eq_true hyes)]
    exact ⟨_, List.mem_cons_of_mem _ List.mem_cons_self⟩

theorem find_brings_of_passes (hnot : ¬ item.AddsParent js item.domain) (h : item.Passes js) :
    ∃ entry, (item.brings js).find? (fun e => e.domain = item.domain) = some entry ∧
      entry.pushMeta = item.pushMeta := by
  obtain ⟨parentFqdn, hown⟩ := own_mem_brings h
  have hsome : ((item.brings js).find? fun e => e.domain = item.domain).isSome = true :=
    List.find?_isSome.mpr ⟨_, hown, decide_eq_true rfl⟩
  obtain ⟨entry, hentry⟩ := Option.isSome_iff_exists.mp hsome
  have hdomain : entry.domain = item.domain := by simpa using List.find?_some hentry
  refine ⟨entry, hentry, ?_⟩
  rcases mem_brings (List.mem_of_find?_eq_some hentry) with ⟨rfl, hadds⟩ | ⟨-, other, rfl⟩
  · rw [show item.parent js = item.domain from hdomain] at hadds
    exact absurd hadds hnot
  · rfl

theorem find_brings_none (hadds : ¬ item.AddsParent js domain)
    (hown : item.Passes js → item.domain ≠ domain) :
    (item.brings js).find? (fun e => e.domain = domain) = none := by
  apply List.find?_eq_none.mpr
  intro entry hentry hdomain
  have hdomain := of_decide_eq_true hdomain
  rcases mem_brings hentry with ⟨rfl, hparent⟩ | ⟨hpasses, other, rfl⟩
  · rw [show item.parent js = domain from hdomain] at hparent
    exact hadds hparent
  · exact hown hpasses hdomain

theorem find_flatMap_of_adds (hnew : domain ∉ items.map (·.domain))
    (h : ∃ item ∈ items, item.AddsParent js domain) :
    (items.flatMap (Staged.brings js)).find? (fun e => e.domain = domain) =
      some (parentEntry domain) := by
  induction items with
  | nil =>
    obtain ⟨item, hitem, -⟩ := h
    cases hitem
  | cons item items ih =>
    rw [List.map_cons, List.mem_cons, not_or] at hnew
    rw [List.flatMap_cons, List.find?_append]
    by_cases hadds : item.AddsParent js domain
    · rw [find_brings_of_adds hadds, Option.some_or]
    · rw [find_brings_none hadds fun _ => Ne.symm hnew.1, Option.none_or]
      apply ih hnew.2
      obtain ⟨other, hother, hparent⟩ := h
      rcases List.mem_cons.mp hother with rfl | hother
      · exact absurd hparent hadds
      · exact ⟨other, hother, hparent⟩

theorem find_flatMap_none (hnew : domain ∉ items.map (·.domain))
    (h : ¬ ∃ item ∈ items, item.AddsParent js domain) :
    (items.flatMap (Staged.brings js)).find? (fun e => e.domain = domain) = none := by
  apply List.find?_eq_none.mpr
  intro entry hentry
  obtain ⟨item, hitem, hbrings⟩ := List.mem_flatMap.mp hentry
  have hnone : (item.brings js).find? (fun e => e.domain = domain) = none :=
    find_brings_none (fun hadds => h ⟨item, hitem, hadds⟩)
      fun _ heq => hnew (List.mem_map.mpr ⟨item, hitem, heq⟩)
  exact List.find?_eq_none.mp hnone entry hbrings

end First

/-! ## When an entry keeps its own data -/

section Faithful
variable {js : Script} {data : Dict} {item : Staged} {front back : List Staged}

/-- What comes after the item and its parent. -/
def broughtBehind (js : Script) (data : Dict) (back : List Staged) : List DomainEntry :=
  (back ++ primaryItem js data).flatMap (Staged.brings js) ++ [localhostEntry]

/-- A domain that is listed and kept has the data of its first item. -/
def OwnData (js : Script) (data : Dict) : Prop :=
  ∀ item entry, (listedItems js data).find? (fun other => other.domain = item.domain) = some item →
    entry ∈ parseDomainCatalogFromGroupVars js data → entry.domain = item.domain →
    entry.pushMeta = item.pushMeta

/-- The first item of a domain is plain where it, or an item before it, brings the domain as a
    parent, and where the item fails its own check the domain is not brought with other data
    behind it. -/
def FirstItems (js : Script) (data : Dict) : Prop :=
  ∀ front item back, listedItems js data = front ++ item :: back →
    item.domain ∉ front.map (·.domain) →
    ((∃ other ∈ front ++ [item], other.AddsParent js item.domain) → item.pushMeta = {}) ∧
    ((¬ ∃ other ∈ front ++ [item], other.AddsParent js item.domain) → ¬ item.Passes js →
      ∀ entry, (broughtBehind js data back).find? (fun e => e.domain = item.domain) = some entry →
        entry.pushMeta = item.pushMeta)

/-- The search for a listed domain, cut at its first item. -/
theorem find_brought (hsplit : listedItems js data = front ++ item :: back) (domain : Text) :
    (brought js data).find? (fun e => e.domain = domain) =
      ((front.flatMap (Staged.brings js)).find? fun e => e.domain = domain).or
        (((item.brings js).find? fun e => e.domain = domain).or
          ((broughtBehind js data back).find? fun e => e.domain = domain)) := by
  have hcut : brought js data = front.flatMap (Staged.brings js) ++
      (item.brings js ++ broughtBehind js data back) := by
    unfold brought broughtBehind
    rw [stage_eq, hsplit]
    simp
  rw [hcut, List.find?_append, List.find?_append]

theorem find_brought_of_adds (hsplit : listedItems js data = front ++ item :: back)
    (hnew : item.domain ∉ front.map (·.domain))
    (h : ∃ other ∈ front ++ [item], other.AddsParent js item.domain) :
    (brought js data).find? (fun e => e.domain = item.domain) = some (parentEntry item.domain) := by
  rw [find_brought hsplit]
  by_cases hfront : ∃ other ∈ front, other.AddsParent js item.domain
  · rw [find_flatMap_of_adds hnew hfront, Option.some_or]
  · have hadds : item.AddsParent js item.domain := by
      obtain ⟨other, hother, hparent⟩ := h
      rcases List.mem_append.mp hother with hother | hother
      · exact absurd ⟨other, hother, hparent⟩ hfront
      · rwa [List.mem_singleton.mp hother] at hparent
    rw [find_flatMap_none hnew hfront, find_brings_of_adds hadds, Option.none_or, Option.some_or]

theorem find_brought_of_not_adds (hsplit : listedItems js data = front ++ item :: back)
    (hnew : item.domain ∉ front.map (·.domain))
    (h : ¬ ∃ other ∈ front ++ [item], other.AddsParent js item.domain) :
    (brought js data).find? (fun e => e.domain = item.domain) =
      ((item.brings js).find? fun e => e.domain = item.domain).or
        ((broughtBehind js data back).find? fun e => e.domain = item.domain) := by
  rw [find_brought hsplit, find_flatMap_none hnew, Option.none_or]
  exact fun ⟨other, hother, hadds⟩ => h ⟨other, List.mem_append_left _ hother, hadds⟩

theorem not_adds_self (h : ¬ ∃ other ∈ front ++ [item], other.AddsParent js item.domain) :
    ¬ item.AddsParent js item.domain := fun hadds =>
  h ⟨item, List.mem_append_right _ List.mem_cons_self, hadds⟩

theorem ownData_iff : OwnData js data ↔ FirstItems js data := by
  constructor
  · intro hown front item back hsplit hnew
    have hfirst : (listedItems js data).find? (fun other => other.domain = item.domain) =
        some item := by
      rw [List.find?_eq_some_iff_append]
      refine ⟨decide_eq_true rfl, front, back, hsplit, fun other hother => ?_⟩
      have hne : other.domain ≠ item.domain := fun heq =>
        hnew (List.mem_map.mpr ⟨other, hother, heq⟩)
      simp [hne]
    have hkeeps : ∀ entry : DomainEntry, (brought js data).find?
        (fun e => e.domain = item.domain) = some entry → entry.pushMeta = item.pushMeta := by
      intro entry hentry
      have hdomain : entry.domain = item.domain := by simpa using List.find?_some hentry
      apply hown item entry hfirst _ hdomain
      apply mem_parse.mpr
      rw [hdomain]
      exact hentry
    constructor
    · intro hadds
      exact (hkeeps _ (find_brought_of_adds hsplit hnew hadds)).symm
    · intro hadds hfails entry hentry
      apply hkeeps
      rw [find_brought_of_not_adds hsplit hnew hadds,
        find_brings_none (not_adds_self hadds) fun hpasses => absurd hpasses hfails, Option.none_or]
      exact hentry
  · intro hitems item entry hfirst hentry hdomain
    obtain ⟨-, front, back, hsplit, hfront⟩ := List.find?_eq_some_iff_append.mp hfirst
    have hnew : item.domain ∉ front.map (·.domain) := by
      intro hmem
      obtain ⟨other, hother, heq⟩ := List.mem_map.mp hmem
      have := hfront other hother
      simp [heq] at this
    obtain ⟨hplain, hbehind⟩ := hitems front item back hsplit hnew
    have hfind := mem_parse.mp hentry
    rw [hdomain] at hfind
    by_cases hadds : ∃ other ∈ front ++ [item], other.AddsParent js item.domain
    · rw [find_brought_of_adds hsplit hnew hadds] at hfind
      rw [← Option.some.inj hfind, hplain hadds]
      rfl
    · rw [find_brought_of_not_adds hsplit hnew hadds] at hfind
      by_cases hpasses : item.Passes js
      · obtain ⟨own, hown, hmeta⟩ := find_brings_of_passes (not_adds_self hadds) hpasses
        rw [hown, Option.some_or] at hfind
        rw [← Option.some.inj hfind]
        exact hmeta
      · rw [find_brings_none (not_adds_self hadds) fun hpasses' => absurd hpasses' hpasses,
          Option.none_or] at hfind
        exact hbehind hadds hpasses entry hfind

end Faithful

/-! ## The catalog is faithful and stable -/

section Main
variable {js : Script}

/-- The list that is written for the catalog is read as the catalog again. -/
def ReadAgain (js : Script) (data : Dict) : Prop :=
  ∀ data' : Dict, Dict.get data' DOMAIN_CATALOG_KEY =
      .list (buildDomainCatalogPayload (parseDomainCatalogFromGroupVars js data)) →
    Dict.get data' "DOMAIN_PRIMARY" = Dict.get data "DOMAIN_PRIMARY" →
    parseDomainCatalogFromGroupVars js data' = parseDomainCatalogFromGroupVars js data

theorem readAgain_iff (hjs : js.Lawful) (data : Dict) :
    ReadAgain js data ↔ ParentsSorted js data := by
  constructor
  · intro h
    obtain ⟨data', hlist, hprimary⟩ : ∃ data' : Dict,
        Dict.get data' DOMAIN_CATALOG_KEY =
          .list (buildDomainCatalogPayload (parseDomainCatalogFromGroupVars js data)) ∧
        Dict.get data' "DOMAIN_PRIMARY" = Dict.get data "DOMAIN_PRIMARY" :=
      ⟨[(.str DOMAIN_CATALOG_KEY, _), (.str "DOMAIN_PRIMARY", _)], rfl, rfl⟩
    exact (parse_again_iff hjs hlist hprimary).mp (h data' hlist hprimary)
  · intro hsorted data' hlist hprimary
    exact parse_again_of_sorted hjs hsorted hlist hprimary

/-- **The catalog is faithful and stable** exactly where no domain is brought as a parent before
    its own data, and no parent that is a subdomain sorts behind its subdomain. -/
theorem catalog_stable_iff (hjs : js.Lawful) (data : Dict) :
    OwnData js data ∧ ReadAgain js data ↔ FirstItems js data ∧ ParentsSorted js data :=
  and_congr ownData_iff (readAgain_iff hjs data)

/-! ## A parent that is listed behind its subdomain -/

theorem plainCompare_le (a b : Text) : plainScript.localeCompare a b ≤ 0 ↔ a ≤ b := by
  show (if a = b then (0 : Int) else if a < b then -1 else 1) ≤ 0 ↔ a ≤ b
  by_cases heq : a = b
  · rw [if_pos heq, heq]
    exact iff_of_true (Int.le_refl 0) (le_refl b)
  · rw [if_neg heq]
    by_cases hlt : a < b
    · rw [if_pos hlt]
      exact iff_of_true (by decide) hlt.le
    · rw [if_neg hlt]
      refine iff_of_false (by decide) fun hle => ?_
      exact heq (le_antisymm hle (not_lt.mp hlt))

theorem plainScript_lawful : plainScript.Lawful where
  lower_slug _ _ := rfl
  compare_total a b := by
    rw [plainCompare_le, plainCompare_le]
    exact le_total a b
  compare_trans a b c hab hbc := by
    rw [plainCompare_le] at *
    exact hab.trans hbc

/-- A workspace with these items in its catalog. -/
def catalogOf (rows : List (List (Text × Text))) : Dict :=
  [(.str DOMAIN_CATALOG_KEY, .list (rows.map (rowVal .str)))]

/-- A domain that was ordered. -/
def orderedRow : List (Text × Text) :=
  [("type", "fqdn"), ("domain", "a.example"), ("status", "ordered"), ("order_id", "o-17")]

def shopRow : List (Text × Text) :=
  [("type", "subdomain"), ("domain", "shop.a.example"), ("parent_fqdn", "a.example")]

def innerRow : List (Text × Text) :=
  [("type", "subdomain"), ("domain", "box.shop.a.example"), ("parent_fqdn", "shop.a.example")]

theorem listed_orderedRow : listedItems plainScript (catalogOf [orderedRow, shopRow]) =
    [⟨.fqdn, "a.example", none, .ordered, none, some "o-17"⟩,
      ⟨.subdomain, "shop.a.example", some "a.example", .active, none, none⟩] := by
  rfl

theorem catalog_stable_parent_first :
    OwnData plainScript (catalogOf [orderedRow, shopRow]) ∧
      ReadAgain plainScript (catalogOf [orderedRow, shopRow]) := by
  rw [catalog_stable_iff plainScript_lawful]
  constructor
  · intro front item back hsplit _
    rw [listed_orderedRow] at hsplit
    cases front with
    | nil =>
      obtain ⟨rfl, rfl⟩ := List.cons.inj hsplit
      refine ⟨fun ⟨other, hother, hkind, _⟩ => ?_, fun _ hfails => ?_⟩
      · rw [List.mem_singleton.mp hother] at hkind
        cases hkind
      · exact absurd ⟨by decide +kernel, nofun⟩ hfails
    | cons first front =>
      obtain ⟨rfl, htail⟩ := List.cons.inj hsplit
      cases front with
      | nil =>
        obtain ⟨rfl, rfl⟩ := List.cons.inj htail
        refine ⟨fun _ => rfl, fun _ hfails => ?_⟩
        exact absurd ⟨by decide +kernel, fun _ => by decide +kernel⟩ hfails
      | cons second front => simp at htail
  · intro entry parent hentry hparent hof hkind
    have hall : ∀ other ∈ brought plainScript (catalogOf [orderedRow, shopRow]),
        (other.kind = .subdomain → other.domain = "shop.a.example".toList) ∧
          other.parentFqdn ≠ some "shop.a.example" := by
      decide +kernel
    have hname := (hall parent (List.mem_of_find?_eq_some hparent)).1 hkind
    rw [hname] at hof
    exact absurd hof (hall entry (List.mem_of_find?_eq_some hentry)).2

theorem parent_behind_forgotten :
    ¬ OwnData plainScript (catalogOf [shopRow, orderedRow, innerRow]) ∧
      ¬ ReadAgain plainScript (catalogOf [shopRow, orderedRow, innerRow]) := by
  constructor
  · intro hown
    have hmeta := hown ⟨.fqdn, "a.example", none, .ordered, none, some "o-17"⟩
      (parentEntry "a.example") rfl (mem_parse.mpr rfl) rfl
    cases hmeta
  · intro hagain
    have hsorted := (readAgain_iff plainScript_lawful _).mp hagain
    have hle := hsorted (Staged.own ⟨.subdomain, "box.shop.a.example", none, .active, none, none⟩
      (some "shop.a.example")) (Staged.own ⟨.subdomain, "shop.a.example", none, .active, none, none⟩
      (some "a.example")) rfl rfl rfl rfl
    exact absurd hle (by decide +kernel)

end Main

end Infinito.Domains
