import Infinito.Py.Yaml

/-!
# The lifecycle of a domain

The domains of a workspace are a list in `group_vars/all.yml`. `list_domains` shows it, and
`transition_domain_status` moves one of its entries to another status. Each reads the raw
entry for itself: a status that it does not know counts as `active` for the one and has no
transitions for the other, and the order of an entry is looked up under two keys and dropped
under one of them.

`agrees_iff` says that nothing else keeps the two apart.
-/

set_option autoImplicit false

namespace Infinito.Domains

open Py

def DOMAIN_CATALOG_KEY : Text := "INFINITO_DOMAINS"

/-! ## Statuses -/

inductive Status where
  | reserved
  | ordered
  | active
  | disabled
  | failed
  | cancelled
  deriving DecidableEq

def Status.name : Status → Text
  | reserved => "reserved"
  | ordered => "ordered"
  | active => "active"
  | disabled => "disabled"
  | failed => "failed"
  | cancelled => "cancelled"

/-- `ALLOWED_STATUSES` -/
def allowedStatuses : List Status := [.reserved, .ordered, .active, .disabled, .failed, .cancelled]

def Status.ofName (t : Text) : Option Status := allowedStatuses.find? fun s => s.name = t

/-- `ALLOWED_TRANSITIONS` -/
def Status.transitions : Status → List Status
  | reserved => [.ordered]
  | ordered => [.active, .failed, .cancelled]
  | active => [.disabled]
  | disabled => [.active]
  | failed => [.ordered, .cancelled]
  | cancelled => []

theorem Status.ofName_name (s : Status) : Status.ofName s.name = some s := by
  cases s <;> rfl

theorem Status.ofName_eq_some {t : Text} {s : Status} : Status.ofName t = some s ↔ t = s.name := by
  constructor
  · intro h
    have hname := List.find?_some h
    exact (of_decide_eq_true hname).symm
  · rintro rfl
    exact Status.ofName_name s

theorem Status.name_inj {s s' : Status} (h : s.name = s'.name) : s = s' :=
  Option.some.inj ((Status.ofName_name s).symm.trans ((congrArg _ h).trans (Status.ofName_name s')))

theorem Status.name_ne_nil (s : Status) : s.name ≠ [] := by
  cases s <;> decide

/-! ## Raw entries -/

/-- `a or b` -/
def orElse (a b : Val) : Val := if a.truth then a else b

/-- `str(value or "")` -/
def textOr (v : Val) : Text := if v.truth then v.text else []

section
variable (cs : Casing)

/-- `_normalize_domain` -/
def normalizeDomain (v : Val) : Text := cs.lower (strip (textOr v))

/-- `_normalize_status` -/
def normalizeStatus (v : Val) : Text := cs.lower (strip (textOr v))

/-- `"fqdn" if "." in domain else "local"` -/
def kindOf (domain : Text) : Text := if '.' ∈ domain then "fqdn" else "local"

/-- An element of what `list_domains` returns. -/
structure Listed where
  domain : Text
  kind : Text
  parentFqdn : Option Text
  status : Status
  statusChangedAt : Option Text
  orderId : Option Text

/-- The body of the loop in `list_domains`. -/
def listEntry : Val → Option Listed
  | .str t =>
      let domain := normalizeDomain cs (.str t)
      if domain = [] then none
      else some ⟨domain, kindOf domain, none, .active, none, none⟩
  | .dict raw =>
      let domain := normalizeDomain cs (orElse (Dict.get raw "domain") (Dict.get raw "value"))
      if domain = [] then none
      else
        let kind := normalizeStatus cs (orElse (Dict.get raw "type") (Dict.get raw "kind"))
        let parent :=
          normalizeDomain cs (orElse (Dict.get raw "parent_fqdn") (Dict.get raw "parentFqdn"))
        some
          { domain := domain
            kind := if kind = "local".toList ∨ kind = "fqdn".toList ∨ kind = "subdomain".toList then
              kind else kindOf domain
            parentFqdn := orNone parent
            status := (Status.ofName (normalizeStatus cs (Dict.get raw "status"))).getD .active
            statusChangedAt := orNone (textOr (Dict.get raw "status_changed_at"))
            orderId :=
              orNone (textOr (orElse (Dict.get raw "order_id") (Dict.get raw "orderId"))) }
  | _ => none

/-- The domain an entry is compared by in `transition_domain_status`. -/
def domainOf : Val → Option Text
  | .str t => some (normalizeDomain cs (.str t))
  | .dict raw => some (normalizeDomain cs (orElse (Dict.get raw "domain") (Dict.get raw "value")))
  | _ => none

/-- `current_status` -/
def currentStatus : Val → Text
  | .dict raw =>
      let status := normalizeStatus cs (Dict.get raw "status")
      if status = [] then Status.active.name else status
  | _ => Status.active.name

/-- The entry as a mapping. -/
def coerced (domain : Text) : Val → Dict
  | .str _ => [(.str "type", .str (kindOf domain)), (.str "domain", .str domain)]
  | .dict entry => Dict.set "domain" (.str domain) entry
  | _ => [(.str "type", .str "fqdn"), (.str "domain", .str domain)]

/-- The entry that takes the place of `raw`. -/
def updatedEntry (domain : Text) (next : Status) (orderId : Option Text) (now : Text) (raw : Val) :
    Dict :=
  let entry := Dict.set "status_changed_at" (.str now)
    (Dict.set "status" (.str next.name) (coerced domain raw))
  match next, truthy orderId with
  | .ordered, some id => Dict.set "order_id" (((orNone (strip id)).map Val.str).getD .none) entry
  | .active, _ | .disabled, _ => Dict.pop "order_id" entry
  | _, _ => entry

/-! ## The operations -/

structure Reply where
  domain : Text
  status : Status
  statusChangedAt : Text
  orderId : Val

variable {κ : Type} (yaml : Yaml κ)

/-- `_load_all_yml` -/
def loadAllYml (file : Option κ) : Dict := mapping yaml.safeLoad file

/-- The entries of the catalog, if there is one. -/
def catalog (file : Option κ) : Option (List Val) :=
  match Dict.get (loadAllYml yaml file) DOMAIN_CATALOG_KEY with
  | .list entries => some entries
  | _ => none

def listDomains (file : Option κ) : List Listed :=
  match catalog yaml file with
  | some entries => entries.filterMap (listEntry cs)
  | none => []

def notFound (domain : Text) : HttpError := ⟨404, "domain not found: " ++ String.ofList domain⟩

/-- `transition_domain_status` on `group_vars/all.yml`. `failing` is what the exception says
    when the file cannot be written. -/
def transitionDomainStatus (failing : Option String) (domain nextStatus : Text)
    (orderId : Option Text) (now : Text) : EStateM HttpError (Option κ) Reply := fun file =>
  let target := normalizeDomain cs (.str domain)
  if target = [] then .error ⟨400, "domain is required"⟩ file
  else match Status.ofName (normalizeStatus cs (.str nextStatus)) with
  | none => .error ⟨400, "unsupported status: " ++ String.ofList (quoteText nextStatus)⟩ file
  | some next => match catalog yaml file with
    | none => .error (notFound target) file
    | some entries => match entries.findIdx? fun raw => domainOf cs raw = some target with
      | none => .error (notFound target) file
      | some i =>
        let raw := entries.getD i .none
        let current := currentStatus cs raw
        let allowed := ((Status.ofName current).map Status.transitions).getD []
        if next ∉ allowed ∧ next.name ≠ current then
          .error ⟨400, "transition " ++ String.ofList (quoteText current) ++ " -> " ++
            String.ofList (quoteText next.name) ++ " is not allowed"⟩ file
        else
          let entry := updatedEntry target next orderId now raw
          match failing with
          | some text => .error ⟨500, "failed to write group_vars/all.yml: " ++ text⟩ file
          | none =>
            let data := Dict.set DOMAIN_CATALOG_KEY (.list (entries.set i (.dict entry)))
              (loadAllYml yaml file)
            .ok ⟨target, next, now, orElse (Dict.get entry "order_id") .none⟩
              (some (yaml.dump (.dict data)))

/-! ## The property -/

/-- What `list_domains` says of a domain, by its first entry. -/
def listed (file : Option κ) (domain : Text) : Option Listed :=
  (listDomains cs yaml file).find? fun d => d.domain = normalizeDomain cs (.str domain)

/-- Where the first entry of a domain is. -/
structure Located (file : Option κ) (domain : Text) (before : List Val) (raw : Val)
    (after : List Val) : Prop where
  named : normalizeDomain cs (.str domain) ≠ []
  catalog : catalog yaml file = some (before ++ raw :: after)
  first : ∀ x ∈ before, domainOf cs x ≠ some (normalizeDomain cs (.str domain))
  entry : domainOf cs raw = some (normalizeDomain cs (.str domain))

/-- The first entry of the domain is another one, and nothing else of the file is. -/
structure OneEntry (file file' : Option κ) (domain : Text) : Prop where
  entries : ∃ before raw after entry, Located cs yaml file domain before raw after ∧
    Located cs yaml file' domain before entry after
  keys : Dict.pop DOMAIN_CATALOG_KEY (mapping yaml.load file') =
    Dict.pop DOMAIN_CATALOG_KEY (mapping yaml.load file)

/-- What a transition to `next` does is what `list_domains` leads to expect. -/
structure Agrees (file : Option κ) (domain nextStatus : Text) (next : Status)
    (orderId : Option Text) (now : Text) : Prop where
  succeeds : (∃ reply file',
      transitionDomainStatus cs yaml none domain nextStatus orderId now file = .ok reply file') ↔
    ∃ d, listed cs yaml file domain = some d ∧ (next = d.status ∨ next ∈ d.status.transitions)
  reports : ∀ reply file',
    transitionDomainStatus cs yaml none domain nextStatus orderId now file = .ok reply file' →
      ∃ d, listed cs yaml file' domain = some d ∧ d.status = next ∧
        (next = .active ∨ next = .disabled → d.orderId = none)
  frame : ∀ reply file',
    transitionDomainStatus cs yaml none domain nextStatus orderId now file = .ok reply file' →
      OneEntry cs yaml file file' domain
  cancelled : ∀ reply file',
    transitionDomainStatus cs yaml none domain nextStatus orderId now file = .ok reply file' →
      (listed cs yaml file domain).map (·.status) = some .cancelled → next = .cancelled

/-- The order under the other key. -/
def otherOrderId : Val → Option Text
  | .dict raw => orNone (textOr (Dict.get raw "orderId"))
  | _ => none

/-- What it takes of the first entry: a status that is known, or a target that `active` has
    nothing to do with; and no `orderId` in one that becomes `active` or `disabled`. -/
def Consistent (next : Status) (raw : Val) : Prop :=
  match Status.ofName (currentStatus cs raw) with
  | none => next ≠ .active ∧ next ≠ .disabled
  | some status => next = status ∨ next ∈ status.transitions →
      next = .active ∨ next = .disabled → otherOrderId raw = none

end

section

variable {cs : Casing} {κ : Type} {yaml : Yaml κ} {file file' : Option κ} {domain : Text}

/-! ## Reading an entry -/

theorem textOr_str (t : Text) : textOr (.str t) = t := by
  unfold textOr
  by_cases ht : t = []
  · rw [ht]
    rfl
  · rw [if_pos (by simp [Val.truth, ht])]
    rfl

theorem normalizeDomain_normalizeDomain (v : Val) :
    normalizeDomain cs (.str (normalizeDomain cs v)) = normalizeDomain cs v := by
  unfold normalizeDomain
  rw [textOr_str, cs.strip_lower_strip, cs.lower_lower]

theorem normalizeStatus_normalizeStatus (v : Val) :
    normalizeStatus cs (.str (normalizeStatus cs v)) = normalizeStatus cs v :=
  normalizeDomain_normalizeDomain v

/-- A status that is missing is `active` for both. -/
theorem status_default (m : Dict) : (Status.ofName (currentStatus cs (.dict m))).getD .active =
    (Status.ofName (normalizeStatus cs (Dict.get m "status"))).getD .active := by
  rw [currentStatus]
  split
  · rename_i hempty
    rw [hempty, Status.ofName_name]
    rfl
  · rfl

/-- What `list_domains` makes of an entry that has the domain. -/
theorem listEntry_of_domainOf {raw : Val} {target : Text} (hne : target ≠ [])
    (h : domainOf cs raw = some target) :
    ∃ d, listEntry cs raw = some d ∧ d.domain = target ∧
      d.status = (Status.ofName (currentStatus cs raw)).getD .active := by
  cases raw with
  | str t =>
    obtain rfl := Option.some.inj h
    refine ⟨_, if_neg hne, rfl, ?_⟩
    rw [currentStatus, Status.ofName_name]
    · rfl
    · nofun
  | dict m =>
    obtain rfl := Option.some.inj h
    refine ⟨_, if_neg hne, rfl, ?_⟩
    exact (status_default m).symm
  | _ => cases h

/-- What is listed is listed under the domain that it is compared by. -/
theorem domainOf_of_listEntry {raw : Val} {d : Listed} (h : listEntry cs raw = some d) :
    d.domain ≠ [] ∧ domainOf cs raw = some d.domain := by
  cases raw with
  | str t =>
    rw [listEntry] at h
    split at h
    · cases h
    · rename_i hne
      obtain rfl := Option.some.inj h
      exact ⟨hne, rfl⟩
  | dict m =>
    rw [listEntry] at h
    split at h
    · cases h
    · rename_i hne
      obtain rfl := Option.some.inj h
      exact ⟨hne, rfl⟩
  | _ => cases h

theorem Located.listed {before after : List Val} {raw : Val}
    (h : Located cs yaml file domain before raw after) :
    ∃ d, listed cs yaml file domain = some d ∧ listEntry cs raw = some d ∧
      d.status = (Status.ofName (currentStatus cs raw)).getD .active := by
  obtain ⟨d, hd, hdomain, hstatus⟩ := listEntry_of_domainOf h.named h.entry
  refine ⟨d, ?_, hd, hstatus⟩
  unfold Domains.listed listDomains
  rw [h.catalog]
  dsimp only
  rw [List.filterMap_append, List.filterMap_cons_some hd, List.find?_append]
  have hbefore : (before.filterMap (listEntry cs)).find?
      (fun d => decide (d.domain = normalizeDomain cs (.str domain))) = none := by
    rw [List.find?_eq_none]
    intro x hx
    obtain ⟨raw', hraw', hx⟩ := List.mem_filterMap.mp hx
    intro heq
    refine h.first raw' hraw' ?_
    rw [(domainOf_of_listEntry hx).2, of_decide_eq_true heq]
  rw [hbefore, Option.none_or, List.find?_cons_of_pos (by simp [hdomain])]

/-- Where some entry has the domain, one is the first. -/
theorem exists_located {entries : List Val} {raw' : Val}
    (hne : normalizeDomain cs (.str domain) ≠ []) (hcatalog : catalog yaml file = some entries)
    (hmem : raw' ∈ entries)
    (hentry : domainOf cs raw' = some (normalizeDomain cs (.str domain))) :
    ∃ before raw after, Located cs yaml file domain before raw after := by
  have hfound : (entries.find? fun raw =>
      decide (domainOf cs raw = some (normalizeDomain cs (.str domain)))).isSome := by
    rw [List.find?_isSome]
    exact ⟨raw', hmem, by simp [hentry]⟩
  obtain ⟨raw, hraw⟩ := Option.isSome_iff_exists.mp hfound
  obtain ⟨hp, before, after, rfl, hbefore⟩ := List.find?_eq_some_iff_append.mp hraw
  refine ⟨before, raw, after, hne, hcatalog, fun x hx => ?_, of_decide_eq_true hp⟩
  simpa using hbefore x hx

/-- What is listed of a domain is located in the catalog. -/
theorem located_of_listed {d : Listed} (h : listed cs yaml file domain = some d) :
    ∃ before raw after, Located cs yaml file domain before raw after := by
  unfold Domains.listed listDomains at h
  have hdomain := List.find?_some h
  rw [decide_eq_true_eq] at hdomain
  have hmem := List.mem_of_find?_eq_some h
  cases hcatalog : catalog yaml file with
  | none =>
    rw [hcatalog] at hmem
    cases hmem
  | some entries =>
    rw [hcatalog] at hmem
    obtain ⟨raw, hraw, hd⟩ := List.mem_filterMap.mp hmem
    obtain ⟨hne, hentry⟩ := domainOf_of_listEntry hd
    rw [hdomain] at hne hentry
    exact exists_located hne hcatalog hraw hentry

/-! ## A transition -/

/-- When the status allows the target. -/
def Permitted (cs : Casing) (next : Status) (raw : Val) : Prop :=
  ∃ s, Status.ofName (currentStatus cs raw) = some s ∧ (next = s ∨ next ∈ s.transitions)

theorem permitted_iff {next : Status} {raw : Val} :
    (next ∉ ((Status.ofName (currentStatus cs raw)).map Status.transitions).getD [] ∧
      next.name ≠ currentStatus cs raw) ↔ ¬ Permitted cs next raw := by
  cases hcurrent : Status.ofName (currentStatus cs raw) with
  | none =>
    refine iff_of_true ⟨List.not_mem_nil, fun hname => ?_⟩ ?_
    · rw [← hname, Status.ofName_name] at hcurrent
      cases hcurrent
    · rintro ⟨s, hs, -⟩
      rw [hcurrent] at hs
      cases hs
  | some s =>
    have hname := Status.ofName_eq_some.mp hcurrent
    have hinj : next.name = s.name ↔ next = s := ⟨Status.name_inj, congrArg _⟩
    unfold Permitted
    rw [hcurrent, hname, Option.map_some, Option.getD_some, Ne, hinj]
    simp only [Option.some.injEq, exists_eq_left']
    tauto

/-- The file after a transition. -/
def after (yaml : Yaml κ) (file : Option κ) (entries : List Val) : Option κ :=
  some (yaml.dump (.dict (Dict.set DOMAIN_CATALOG_KEY (.list entries) (loadAllYml yaml file))))

theorem findIdx?_located {before after : List Val} {raw : Val}
    (h : Located cs yaml file domain before raw after) :
    ((before ++ raw :: after).findIdx? fun raw =>
      decide (domainOf cs raw = some (normalizeDomain cs (.str domain)))) = some before.length := by
  rw [List.findIdx?_append]
  have hnone : (before.findIdx? fun raw =>
      decide (domainOf cs raw = some (normalizeDomain cs (.str domain)))) = none := by
    rw [List.findIdx?_eq_none_iff]
    intro x hx
    simpa using h.first x hx
  rw [hnone, List.findIdx?_cons]
  simp [h.entry]

section Step

variable {before rest : List Val} {raw : Val} {nextStatus now : Text} {next : Status}
  {orderId : Option Text} {reply : Reply}

/-- What happens to the first entry of the domain. -/
theorem transition_eq (orderId : Option Text) (now : Text)
    (hnext : Status.ofName (normalizeStatus cs (.str nextStatus)) = some next)
    (h : Located cs yaml file domain before raw rest) :
    (Permitted cs next raw → ∃ reply,
      transitionDomainStatus cs yaml none domain nextStatus orderId now file = .ok reply
        (after yaml file (before ++ .dict (updatedEntry (normalizeDomain cs (.str domain)) next
          orderId now raw) :: rest))) ∧
    (¬ Permitted cs next raw → ∃ e,
      transitionDomainStatus cs yaml none domain nextStatus orderId now file = .error e file) := by
  have hget : (before ++ raw :: rest).getD before.length .none = raw := by
    rw [List.getD_eq_getElem?_getD, List.getElem?_append_right (Nat.le_refl _), Nat.sub_self]
    rfl
  have hset (entry : Val) :
      (before ++ raw :: rest).set before.length entry = before ++ entry :: rest := by
    rw [List.set_append_right _ _ (Nat.le_refl _), Nat.sub_self]
    rfl
  unfold transitionDomainStatus
  simp only [if_neg h.named, hnext, h.catalog, findIdx?_located h, hget, hset]
  constructor
  · intro hp
    rw [if_neg (permitted_iff.not.mpr (not_not_intro hp))]
    exact ⟨_, rfl⟩
  · intro hp
    rw [if_pos (permitted_iff.mpr hp)]
    exact ⟨_, rfl⟩

/-- **A transition that goes through** moved the first entry of the domain, as its status
    permitted. -/
theorem transition_eq_ok (hnext : Status.ofName (normalizeStatus cs (.str nextStatus)) = some next)
    (hok : transitionDomainStatus cs yaml none domain nextStatus orderId now file =
      .ok reply file') :
    ∃ before raw rest, Located cs yaml file domain before raw rest ∧
      Permitted cs next raw ∧
      file' = after yaml file (before ++ .dict (updatedEntry (normalizeDomain cs (.str domain)) next
        orderId now raw) :: rest) := by
  have hlocated : ∃ before raw rest, Located cs yaml file domain before raw rest := by
    unfold transitionDomainStatus at hok
    dsimp only at hok
    by_cases hne : normalizeDomain cs (.str domain) = []
    · rw [if_pos hne] at hok
      cases hok
    rw [if_neg hne, hnext] at hok
    dsimp only at hok
    cases hcatalog : catalog yaml file with
    | none =>
      rw [hcatalog] at hok
      cases hok
    | some entries =>
      rw [hcatalog] at hok
      dsimp only at hok
      cases hidx : entries.findIdx? fun raw =>
          decide (domainOf cs raw = some (normalizeDomain cs (.str domain))) with
      | none =>
        rw [hidx] at hok
        cases hok
      | some i =>
        have hany := @List.findIdx?_isSome _ entries fun raw =>
          decide (domainOf cs raw = some (normalizeDomain cs (.str domain)))
        rw [hidx] at hany
        obtain ⟨raw, hraw, hentry⟩ := List.any_eq_true.mp hany.symm
        exact exists_located hne hcatalog hraw (of_decide_eq_true hentry)
  obtain ⟨before, raw, rest, h⟩ := hlocated
  obtain ⟨hgoes, hfails⟩ := transition_eq orderId now hnext h
  by_cases hp : Permitted cs next raw
  · obtain ⟨reply', hrun⟩ := hgoes hp
    rw [hrun] at hok
    cases hok
    exact ⟨before, raw, rest, h, hp, rfl⟩
  · obtain ⟨e, hrun⟩ := hfails hp
    rw [hrun] at hok
    cases hok

end Step

/-! ## After a transition -/

section Entry

variable {target now : Text} {next : Status} {orderId : Option Text} {raw : Val}

/-- The keys that a transition does not write are those of the entry. -/
theorem find_updatedEntry {key : Text} (hstatus : key ≠ "status".toList)
    (hchanged : key ≠ "status_changed_at".toList) (horder : key ≠ "order_id".toList) :
    Dict.find (updatedEntry target next orderId now raw) key =
      Dict.find (coerced target raw) key := by
  unfold updatedEntry
  dsimp only
  split
  · rw [Dict.find_set_of_ne _ horder, Dict.find_set_of_ne _ hchanged, Dict.find_set_of_ne _ hstatus]
  · rw [Dict.find_pop_of_ne horder, Dict.find_set_of_ne _ hchanged, Dict.find_set_of_ne _ hstatus]
  · rw [Dict.find_pop_of_ne horder, Dict.find_set_of_ne _ hchanged, Dict.find_set_of_ne _ hstatus]
  · rw [Dict.find_set_of_ne _ hchanged, Dict.find_set_of_ne _ hstatus]

theorem find_status : Dict.find (updatedEntry target next orderId now raw) "status" =
    some (.str next.name) := by
  have hset (m : Dict) : Dict.find (Dict.set "status_changed_at" (.str now)
      (Dict.set "status" (.str next.name) m)) "status" = some (.str next.name) := by
    rw [Dict.find_set_of_ne _ (by decide), Dict.find_set_self]
  unfold updatedEntry
  dsimp only
  split
  · rw [Dict.find_set_of_ne _ (by decide), hset]
  · rw [Dict.find_pop_of_ne (by decide), hset]
  · rw [Dict.find_pop_of_ne (by decide), hset]
  · exact hset _

theorem find_order_id (hnext : next = .active ∨ next = .disabled) :
    Dict.find (updatedEntry target next orderId now raw) "order_id" = none := by
  rcases hnext with rfl | rfl <;> exact Dict.find_pop_self _ _

theorem find_domain (h : domainOf cs raw = some target) :
    Dict.find (coerced target raw) "domain" = some (.str target) := by
  cases raw with
  | str t => rfl
  | dict m => exact Dict.find_set_self _ _ _
  | _ => cases h

theorem domainOf_updatedEntry (hne : target ≠ [])
    (hnormal : normalizeDomain cs (.str target) = target) (h : domainOf cs raw = some target) :
    domainOf cs (.dict (updatedEntry target next orderId now raw)) = some target := by
  have hdomain : Dict.get (updatedEntry target next orderId now raw) "domain" = .str target := by
    rw [Dict.get, find_updatedEntry (by decide) (by decide) (by decide), find_domain h]
    rfl
  rw [domainOf, hdomain, orElse, if_pos (by simp [Val.truth, hne]), hnormal]

theorem get_orderId (h : domainOf cs raw = some target) :
    orNone (textOr (Dict.get (updatedEntry target next orderId now raw) "orderId")) =
      otherOrderId raw := by
  rw [Dict.get, find_updatedEntry (by decide) (by decide) (by decide)]
  cases raw with
  | str t => rfl
  | dict m =>
    rw [coerced, Dict.find_set_of_ne _ (by decide)]
    rfl
  | _ => cases h

/-- The order that is listed of an entry that became `active` or `disabled`. -/
theorem listed_order (h : domainOf cs raw = some target) (hnext : next = .active ∨ next = .disabled)
    {d : Listed} (hd : listEntry cs (.dict (updatedEntry target next orderId now raw)) = some d) :
    d.orderId = otherOrderId raw := by
  have hnone : Dict.get (updatedEntry target next orderId now raw) "order_id" = .none := by
    rw [Dict.get, find_order_id hnext]
    rfl
  rw [listEntry] at hd
  split at hd
  · cases hd
  · rw [← Option.some.inj hd]
    dsimp only
    rw [hnone, orElse, if_neg (by simp [Val.truth]), get_orderId h]

end Entry

section Run

variable {before rest : List Val} {raw : Val} {nextStatus now : Text} {next : Status}
  {orderId : Option Text}

theorem loadAllYml_after (entries : List Val) : loadAllYml yaml (after yaml file entries) =
    Dict.set DOMAIN_CATALOG_KEY (.list entries) (loadAllYml yaml file) := by
  unfold after
  rw [loadAllYml, mapping, Option.bind_some, yaml.safeLoad_dump]

theorem catalog_after (entries : List Val) :
    catalog yaml (after yaml file entries) = some entries := by
  rw [catalog, loadAllYml_after, Dict.get_set_self]

/-- After a transition the domain's first entry is where it was. -/
theorem Located.after (h : Located cs yaml file domain before raw rest) (next : Status)
    (orderId : Option Text) (now : Text) :
    Located cs yaml (after yaml file (before ++ .dict (updatedEntry (normalizeDomain cs (.str domain))
      next orderId now raw) :: rest)) domain before
      (.dict (updatedEntry (normalizeDomain cs (.str domain)) next orderId now raw)) rest where
  named := h.named
  catalog := catalog_after _
  first := h.first
  entry := domainOf_updatedEntry h.named (normalizeDomain_normalizeDomain _) h.entry

/-- The status that is listed after a transition. -/
theorem currentStatus_updatedEntry {target : Text}
    (hnext : Status.ofName (normalizeStatus cs (.str nextStatus)) = some next) :
    Status.ofName (currentStatus cs (.dict (updatedEntry target next orderId now raw))) =
      some next := by
  have hname := Status.ofName_eq_some.mp hnext
  have hstatus : normalizeStatus cs
      (Dict.get (updatedEntry target next orderId now raw) "status") = next.name := by
    rw [Dict.get, find_status, Option.getD_some, ← hname, normalizeStatus_normalizeStatus]
  rw [currentStatus, hstatus, if_neg next.name_ne_nil, Status.ofName_name]

theorem keys_after (hcatalog : (catalog yaml file).isSome) (entries : List Val) :
    Dict.pop DOMAIN_CATALOG_KEY (mapping yaml.load (after yaml file entries)) =
      Dict.pop DOMAIN_CATALOG_KEY (mapping yaml.load file) := by
  have hloaded : ∃ v, file.bind yaml.safeLoad = some v := by
    by_contra hno
    have hnone : file.bind yaml.safeLoad = none := by
      cases hv : file.bind yaml.safeLoad with
      | none => rfl
      | some v => exact absurd ⟨v, hv⟩ hno
    unfold catalog loadAllYml mapping at hcatalog
    rw [hnone] at hcatalog
    cases hcatalog
  obtain ⟨v, hv⟩ := hloaded
  have hafter : (after yaml file entries).bind yaml.safeLoad =
      some (.dict (Dict.set DOMAIN_CATALOG_KEY (.list entries) (loadAllYml yaml file))) :=
    yaml.safeLoad_dump _
  have hload := @loadAllYml_after _ yaml file entries
  rw [Yaml.mapping_of_safeLoad hv, Yaml.mapping_of_safeLoad hafter]
  unfold loadAllYml at hload
  rw [hload, Dict.pop_set]

/-- **The lifecycle agrees with the list if and only if** the domain's first entry, where it has
    one, is consistent. -/
theorem agrees_iff (orderId : Option Text) (now : Text)
    (hnext : Status.ofName (normalizeStatus cs (.str nextStatus)) = some next) :
    Agrees cs yaml file domain nextStatus next orderId now ↔
      ∀ before raw rest, Located cs yaml file domain before raw rest → Consistent cs next raw := by
  constructor
  · intro hagrees before raw rest h
    obtain ⟨d, hlisted, hd, hstatus⟩ := h.listed
    obtain ⟨hgoes, hfails⟩ := transition_eq orderId now hnext h
    unfold Consistent
    cases hcurrent : Status.ofName (currentStatus cs raw) with
    | none =>
      -- listed as active, and with no transitions
      rw [hcurrent, Option.getD_none] at hstatus
      have hnot : ¬ Permitted cs next raw := by
        rintro ⟨s, hs, -⟩
        rw [hcurrent] at hs
        cases hs
      obtain ⟨e, herror⟩ := hfails hnot
      have hno : ¬ (next = .active ∨ next = .disabled) := by
        intro hlive
        obtain ⟨reply, file', hok⟩ := hagrees.succeeds.mpr ⟨d, hlisted, by
          rw [hstatus]
          exact hlive.imp_right fun heq => List.mem_singleton.mpr heq⟩
        rw [herror] at hok
        cases hok
      exact not_or.mp hno
    | some status =>
      intro hallowed hlive
      obtain ⟨reply, hok⟩ := hgoes ⟨status, hcurrent, hallowed⟩
      obtain ⟨d', hlisted', -, horder⟩ := hagrees.reports _ _ hok
      obtain ⟨d'', hlisted'', hd'', -⟩ := (h.after _ _ _).listed
      obtain rfl := Option.some.inj (hlisted''.symm.trans hlisted')
      rw [← listed_order h.entry hlive hd'']
      exact horder hlive
  · intro hcons
    refine ⟨⟨?_, ?_⟩, ?_, ?_, ?_⟩
    · rintro ⟨reply, file', hok⟩
      obtain ⟨before, raw, rest, h, ⟨s, hs, hallowed⟩, -⟩ := transition_eq_ok hnext hok
      obtain ⟨d, hlisted, -, hstatus⟩ := h.listed
      rw [hs, Option.getD_some] at hstatus
      exact ⟨d, hlisted, by rw [hstatus]; exact hallowed⟩
    · rintro ⟨d, hlisted, hallowed⟩
      obtain ⟨before, raw, rest, h⟩ := located_of_listed hlisted
      obtain ⟨d', hlisted', -, hstatus⟩ := h.listed
      obtain rfl := Option.some.inj (hlisted'.symm.trans hlisted)
      have hraw := hcons before raw rest h
      unfold Consistent at hraw
      cases hcurrent : Status.ofName (currentStatus cs raw) with
      | none =>
        rw [hcurrent] at hraw hstatus
        rw [hstatus] at hallowed
        rcases hallowed with heq | heq
        · exact absurd heq hraw.1
        · exact absurd (List.mem_singleton.mp heq) hraw.2
      | some s =>
        rw [hcurrent, Option.getD_some] at hstatus
        rw [hstatus] at hallowed
        obtain ⟨reply, hok⟩ := (transition_eq orderId now hnext h).1
          ⟨s, hcurrent, hallowed⟩
        exact ⟨reply, _, hok⟩
    · intro reply file' hok
      obtain ⟨before, raw, rest, h, ⟨s, hs, hallowed⟩, rfl⟩ := transition_eq_ok hnext hok
      obtain ⟨d, hlisted, hd, hstatus⟩ := (h.after next orderId now).listed
      rw [currentStatus_updatedEntry hnext, Option.getD_some] at hstatus
      refine ⟨d, hlisted, hstatus, fun hlive => ?_⟩
      have hraw := hcons before raw rest h
      unfold Consistent at hraw
      rw [hs] at hraw
      rw [listed_order h.entry hlive hd]
      exact hraw hallowed hlive
    · intro reply file' hok
      obtain ⟨before, raw, rest, h, -, rfl⟩ := transition_eq_ok hnext hok
      refine ⟨⟨before, raw, rest, _, h, h.after _ _ _⟩, keys_after ?_ _⟩
      rw [h.catalog]
      rfl
    · intro reply file' hok hcancelled
      obtain ⟨before, raw, rest, h, ⟨s, hs, hallowed⟩, -⟩ := transition_eq_ok hnext hok
      obtain ⟨d, hlisted, -, hstatus⟩ := h.listed
      rw [hs, Option.getD_some] at hstatus
      rw [hlisted, Option.map_some, hstatus, Option.some.injEq] at hcancelled
      rw [hcancelled] at hallowed
      rcases hallowed with heq | heq
      · exact heq
      · cases heq

end Run

end

/-! ## Entries that disagree -/

section Demo

/-- Contents by what they stand for. -/
def plainYaml : Yaml Val where
  safeLoad := some
  load := some
  dump := id
  load_of_safeLoad h := h
  safeLoad_dump _ := rfl

/-- `group_vars/all.yml` with one domain. -/
def oneDomain (entry : List (String × String)) : Option Val :=
  some (.dict [(.str DOMAIN_CATALOG_KEY,
    .list [.dict (entry.map fun item => (.str item.1.toList, .str item.2.toList))])])

/-- A status that is not one is listed as `active` and cannot be disabled; an order under
    `orderId` outlives the activation. -/
theorem lifecycle_disagrees :
    ¬ Agrees asciiCasing plainYaml (oneDomain [("domain", "a.example"), ("status", "paused")])
        "a.example" "disabled" .disabled none "now" ∧
      ¬ Agrees asciiCasing plainYaml
        (oneDomain [("domain", "a.example"), ("status", "ordered"), ("orderId", "o-1")])
        "a.example" "active" .active none "now" := by
  refine ⟨fun h => ?_, fun h => ?_⟩
  · obtain ⟨reply, file', hok⟩ := h.succeeds.mpr ⟨_, rfl, Or.inr (by decide)⟩
    have herror : ∃ e, transitionDomainStatus asciiCasing plainYaml none "a.example" "disabled" none
        "now" (oneDomain [("domain", "a.example"), ("status", "paused")]) =
          .error e (oneDomain [("domain", "a.example"), ("status", "paused")]) := ⟨_, rfl⟩
    obtain ⟨e, herror⟩ := herror
    rw [herror] at hok
    cases hok
  · obtain ⟨d, hd, -, horder⟩ := h.reports _ _ rfl
    have hlisted : d.orderId = some "o-1".toList := by
      rw [← Option.some.inj hd]
      rfl
    rw [hlisted] at horder
    cases horder (Or.inl rfl)

/-- An order that is fulfilled. -/
theorem agrees_iff_fulfilled :
    Agrees asciiCasing plainYaml
      (oneDomain [("domain", "a.example"), ("status", "Ordered"), ("order_id", "o-1")])
      "A.example" "active" .active none "now" := by
  refine (agrees_iff none "now" (by decide)).mpr fun before raw rest h => ?_
  have hcatalog := h.catalog
  cases before with
  | nil =>
    obtain ⟨rfl, -⟩ := List.cons.inj (Option.some.inj hcatalog)
    exact fun _ _ => rfl
  | cons x before =>
    have hlen := congrArg List.length (List.cons.inj (Option.some.inj hcatalog)).2
    simp at hlen

end Demo

end Infinito.Domains
