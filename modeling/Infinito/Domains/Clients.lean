import Infinito.Domains.Catalog
import Infinito.Lib.Run

/-!
# The catalog between the clients

The domains panel of the web client keeps the catalog as it was when it was loaded. What it
saves is the whole catalog again, of its own list: `persistWorkspaceDomainSettings` reads
`group_vars/all.yml`, puts its list in the place of the one it read and writes the file back
with a second request. In between, and ever since the list was loaded, the service may have
moved an entry to another status.

`statuses_kept` says that a run in which no client writes an entry that is out of date moves
the statuses along the transitions only.
-/

set_option autoImplicit false

namespace Infinito.Domains

open Py
open Orders (jsTrim jsTrim_jsTrim)

/-! ## The clients -/

/-- What the web client has from the YAML library, beside the server. Its library is one of
    YAML 1.2, so the server may take a plain text that it wrote for something else. -/
structure Web (κ : Type) (yaml : Yaml κ) extends Script where
  /-- `YAML.parse(content.trim())`, nothing when it throws -/
  parse : κ → Option Val
  /-- `YAML.stringify` -/
  stringify : Val → κ
  /-- what `yaml.safe_load` takes a text for that the client wrote -/
  reread : Text → Val
  reread_status : ∀ status : Status, reread status.name = .str status.name
  safeLoad_stringify : ∀ {data : Dict} {entries : List DomainEntry} {v : Val},
    Dict.get data DOMAIN_CATALOG_KEY = .list (buildDomainCatalogPayload entries) →
    yaml.safeLoad (stringify (.dict data)) = some v →
    ∃ read : Dict, v = .dict read ∧ Dict.get read DOMAIN_CATALOG_KEY =
      .list (entries.map fun entry => rowVal reread (payloadRow entry))

/-- What the panel keeps. -/
structure Client where
  domainEntries : List DomainEntry
  workspacePrimaryDomain : Text
  primaryDomainDraft : Text

/-- What the user does in the panel. -/
inductive Edit where
  | select (domain : Text)
  | remove (domain : Text)
  | add (kind : DomainKind) (value parentFqdn : Text)
  | reserve (fqdn : Text) (available : Bool)

/-- A call of `persistWorkspaceDomainSettings` that is under way. -/
structure Save (ι : Type) where
  client : ι
  sourceEntries : List DomainEntry
  sourcePrimaryDomain : Text
  /-- what `readGroupVarsAll` returned, once it has -/
  data : Option Dict

structure State (ι κ : Type) where
  file : Option κ
  clients : ι → Client
  loads : List (ι × Client)
  saves : List (Save ι)
  replies : List (ι × Reply)

inductive Action (ι : Type) where
  | load (client : ι)
  | loaded (i : Nat)
  | save (client : ι) (edit : Edit)
  /-- the first request of a save arrives -/
  | read (i : Nat)
  /-- the second request of a save arrives -/
  | write (i : Nat)
  /-- a request of a save fails -/
  | lost (i : Nat)
  | transition (client : ι) (admin : Bool) (domain status : Text) (orderId : Option Text)
      (now : Text)
  /-- a client hears of its transition -/
  | applied (i : Nat)

section

variable (js : Script)

/-- The effect that follows the entries and the primary domain. -/
def Client.settled (entries : List DomainEntry) (workspacePrimaryDomain : Text) : Client :=
  ⟨entries, workspacePrimaryDomain,
    normalizePrimaryDomainSelection js workspacePrimaryDomain entries⟩

def fqdnDomainOptions (client : Client) : List Text :=
  ((client.domainEntries.filter fun entry => entry.kind = .fqdn).map fun entry =>
    normalizeDomainName js (.str entry.domain)).filter (· ≠ [])

def hasDomain (client : Client) (domain : Text) : Bool :=
  client.domainEntries.any fun entry => normalizeDomainName js (.str entry.domain) = domain

/-- The entries with a new one, which is reserved. -/
def withReserved (client : Client) (kind : DomainKind) (domain : Text) (parentFqdn : Option Text)
    (primary : List (Val × Val)) : List DomainEntry :=
  let row : List (Text × Text) :=
    ([("type", kind.name), ("domain", domain), ("status", Status.reserved.name)] :
      List (Text × Text)) ++ ((truthy parentFqdn).map fun t => (("parent_fqdn" : Text), t)).toList
  parseDomainCatalogFromGroupVars js ((.str DOMAIN_CATALOG_KEY,
    .list (buildDomainCatalogPayload client.domainEntries ++ [rowVal .str row])) :: primary)

/-- What an edit hands to `persistWorkspaceDomainSettings`, if it gets that far. -/
def Edit.options (client : Client) : Edit → Option (List DomainEntry × Text)
  | .select domain => some (client.domainEntries, domain)
  | .remove domain =>
      -- `removeDomainEntry`
      let targetDomain := normalizeDomainName js (.str domain)
      let linked := client.domainEntries.any fun entry => entry.kind = .subdomain &&
        normalizeDomainName js (.str (entry.parentFqdn.getD [])) = targetDomain
      if targetDomain = [] ∨ targetDomain = DEFAULT_PRIMARY_DOMAIN ∨ linked then none
      else some
        (client.domainEntries.filter fun entry =>
          normalizeDomainName js (.str entry.domain) ≠ targetDomain,
        if normalizeDomainName js (.str client.primaryDomainDraft) = targetDomain then
          DEFAULT_PRIMARY_DOMAIN else client.primaryDomainDraft)
  | .add kind value parentFqdn =>
      -- `addDomainFromPopup`
      let name := normalizeDomainName js (.str value)
      let label := normalizeDomainLabel js (.str value)
      let parent := normalizeDomainName js (.str parentFqdn)
      let next : Option (Text × Option Text) := match kind with
        | .localName => if isValidDomainToken name then some (name, none) else none
        | .fqdn => if isLikelyFqdn js name then some (name, none) else none
        | .subdomain =>
            if label = [] ∨ parent = [] ∨ parent ∉ fqdnDomainOptions js client then none
            else some (label ++ '.' :: parent, some parent)
      match next with
      | none => none
      | some (nextDomain, nextParentFqdn) =>
          let primary := ((truthy (some client.primaryDomainDraft)).orElse fun _ =>
            truthy (some client.workspacePrimaryDomain)).getD DEFAULT_PRIMARY_DOMAIN
          if hasDomain js client nextDomain then none
          else some
            (withReserved js client kind nextDomain nextParentFqdn
              [(.str "DOMAIN_PRIMARY", .str primary)],
            if normalizeDomainName js (.str client.primaryDomainDraft) = [] then nextDomain
            else client.primaryDomainDraft)
  | .reserve rawFqdn available =>
      -- `addReservedDomain`
      let fqdn := normalizeDomainName js (.str rawFqdn)
      if isLikelyFqdn js fqdn = false ∨ hasDomain js client fqdn ∨ available = false then none
      else some (withReserved js client .fqdn fqdn none [], client.primaryDomainDraft)

/-- `applyDomainStatus` -/
def applyDomainStatus (client : Client) (reply : Reply) : Client :=
  let targetDomain := normalizeDomainName js (.str reply.domain)
  if targetDomain = [] then client
  else { client with
    domainEntries := client.domainEntries.map fun entry =>
      if normalizeDomainName js (.str entry.domain) = targetDomain then
        { entry with status := reply.status, statusChangedAt := some reply.statusChangedAt }
      else entry }

/-- What `persistWorkspaceDomainSettings` parses: the list that it was given, in the form it
    has in the file. -/
def Save.source {ι : Type} (save : Save ι) : Dict :=
  [(.str DOMAIN_CATALOG_KEY, .list (buildDomainCatalogPayload save.sourceEntries)),
    (.str "DOMAIN_PRIMARY", .str save.sourcePrimaryDomain)]

def Save.nextEntries {ι : Type} (save : Save ι) : List DomainEntry :=
  parseDomainCatalogFromGroupVars js save.source

def Save.nextDomain {ι : Type} (save : Save ι) : Text :=
  normalizePrimaryDomainSelection js save.sourcePrimaryDomain (save.nextEntries js)

def Save.nextData {ι : Type} (save : Save ι) (data : Dict) : Dict :=
  Dict.set DOMAIN_CATALOG_KEY (.list (buildDomainCatalogPayload (save.nextEntries js)))
    (Dict.set "DOMAIN_PRIMARY" (.str (save.nextDomain js)) data)

/-- The entries of the list and the ones that the save adds, in the order they are taken. -/
def Save.offers {ι : Type} (save : Save ι) : List (Text × Status) := offersOf js save.source

end

section

variable (cs : Casing) {ι κ : Type} [DecidableEq ι] {yaml : Yaml κ} (web : Web κ yaml)

/-- `readGroupVarsAll`, nothing when it throws -/
def readGroupVarsAll (file : Option κ) : Option Dict :=
  match file with
  | none => some []
  | some content => (web.parse content).map fun v => match v with
    | .dict data => data
    | _ => []

/-- The route that calls `transition_domain_status`. -/
def transitionWorkspaceDomainStatus (admin : Bool) (domain status : Text) (orderId : Option Text)
    (now : Text) : EStateM HttpError (Option κ) Reply := fun file =>
  match Status.ofName (normalizeStatus cs (.str status)) with
  | none => .error ⟨422, "status must be one of reserved|ordered|active|disabled|failed|cancelled"⟩
      file
  | some next =>
      -- `ADMIN_ONLY_TRANSITIONS`
      if (next = .active ∨ next = .failed) ∧ admin = false then
        .error ⟨403, "transition to " ++ String.ofList (quoteText next.name) ++
          " requires administrator group"⟩ file
      else transitionDomainStatus cs yaml none domain next.name orderId now file

def step (s : State ι κ) : Action ι → Option (State ι κ)
  | .load c =>
      let client := match readGroupVarsAll web s.file with
        | some data =>
            let entries := parseDomainCatalogFromGroupVars web.toScript data
            Client.settled web.toScript entries (normalizePrimaryDomainSelection web.toScript
              (readPrimaryDomainFromGroupVars web.toScript data) entries)
        | none => Client.settled web.toScript createDefaultDomainEntries DEFAULT_PRIMARY_DOMAIN
      some { s with loads := s.loads ++ [(c, client)] }
  | .loaded i => match s.loads[i]? with
    | none => none
    | some (c, client) => some
        { s with clients := Function.update s.clients c client, loads := s.loads.eraseIdx i }
  | .save c edit =>
      let client := match edit with
        | .select domain => { s.clients c with primaryDomainDraft := domain }
        | _ => s.clients c
      let saves := match edit.options web.toScript client with
        | some (entries, primary) => s.saves ++ [⟨c, entries, primary, none⟩]
        | none => s.saves
      some { s with clients := Function.update s.clients c client, saves := saves }
  | .read i => match s.saves[i]? with
    | none => none
    | some save => match readGroupVarsAll web s.file with
      | some data => some { s with saves := s.saves.set i { save with data := some data } }
      | none => some { s with saves := s.saves.eraseIdx i }
  | .write i => match s.saves[i]? with
    | none => none
    | some save => save.data.map fun data =>
        { s with
          file := some (web.stringify (.dict (save.nextData web.toScript data)))
          clients := Function.update s.clients save.client (Client.settled web.toScript
            (save.nextEntries web.toScript) (save.nextDomain web.toScript))
          saves := s.saves.eraseIdx i }
  | .lost i => some { s with saves := s.saves.eraseIdx i }
  | .transition c admin domain status orderId now =>
      match @transitionWorkspaceDomainStatus cs κ yaml admin domain status orderId now
        s.file with
      | .ok reply file => some { s with file := file, replies := s.replies ++ [(c, reply)] }
      | .error _ _ => some s
  | .applied i => match s.replies[i]? with
    | none => none
    | some (c, reply) => some
        { s with
          clients := Function.update s.clients c
            (applyDomainStatus web.toScript (s.clients c) reply)
          replies := s.replies.eraseIdx i }

/-! ## The property -/

def Action.isAdmin : Action ι → Bool
  | .transition _ admin _ _ _ _ => admin
  | _ => false

def Action.isSave : Action ι → Bool
  | .write _ => true
  | _ => false

/-- What a step may do to the entries that stay. -/
structure Lawful (s : State ι κ) (a : Action ι) (s' : State ι κ) : Prop where
  along : ∀ domain d d', listed cs yaml s.file domain = some d →
    listed cs yaml s'.file domain = some d' →
      d'.status = d.status ∨ d'.status ∈ d.status.transitions
  admin : ∀ domain d d', listed cs yaml s.file domain = some d →
    listed cs yaml s'.file domain = some d' → d'.status ≠ d.status →
      d'.status = .active ∨ d'.status = .failed → a.isAdmin = true
  kept : a.isSave = true → ∀ domain d d', listed cs yaml s.file domain = some d →
    listed cs yaml s'.file domain = some d' → d'.status = d.status

/-- Every step of the run is lawful. -/
def Kept (s : State ι κ) (as : List (Action ι)) : Prop :=
  ∀ before a after u u', as = before ++ a :: after → Lib.run (step cs web) s before = some u →
    step cs web u a = some u' → @Lawful cs ι κ yaml u a u'

/-- No entry of a save that arrives is out of date: what is listed under the name of the entry
    has its status. -/
def UpToDate (s : State ι κ) : Action ι → Prop
  | .write i => ∀ save ∈ s.saves[i]?, ∀ offer ∈ save.offers web.toScript,
      offered (save.offers web.toScript) offer.1 = some offer.2 →
        ∀ d ∈ listed cs yaml s.file (normalizeDomain cs (web.reread offer.1)), d.status = offer.2
  | _ => True

instance UpToDate.decidable (s : State ι κ) : (a : Action ι) → Decidable (UpToDate cs web s a)
  | .write i => inferInstanceAs (Decidable (∀ save ∈ s.saves[i]?,
      ∀ offer ∈ save.offers web.toScript, offered (save.offers web.toScript) offer.1 = some offer.2 →
        ∀ d ∈ listed cs yaml s.file (normalizeDomain cs (web.reread offer.1)), d.status = offer.2))
  | .load _ | .loaded _ | .save _ _ | .read _ | .lost _ | .transition _ _ _ _ _ _ | .applied _ =>
      isTrue trivial

end

section

variable {cs : Casing} {ι κ : Type} [DecidableEq ι] {yaml : Yaml κ} {web : Web κ yaml}

theorem listed_eq {file : Option κ} {entries : List Val} (h : catalog yaml file = some entries)
    (domain : Text) : listed cs yaml file domain = (entries.filterMap (listEntry cs)).find? fun d =>
      d.domain = normalizeDomain cs (.str domain) := by
  unfold listed listDomains
  rw [h]

/-- The entries that have another domain do not matter. -/
theorem find_listed_cons {before rest : List Val} {raw : Val} {target domain : Text}
    (hraw : domainOf cs raw = some target) (hne : domain ≠ target) :
    ((before ++ raw :: rest).filterMap (listEntry cs)).find? (fun d => decide (d.domain = domain)) =
      ((before ++ rest).filterMap (listEntry cs)).find? (fun d => decide (d.domain = domain)) := by
  rw [List.filterMap_append, List.filterMap_append, List.find?_append, List.find?_append]
  congr 1
  cases hentry : listEntry cs raw with
  | none => rw [List.filterMap_cons_none hentry]
  | some d =>
    rw [List.filterMap_cons_some hentry, List.find?_cons_of_neg]
    have hdomain := (domainOf_of_listEntry hentry).2
    rw [hraw, Option.some.injEq] at hdomain
    rw [decide_eq_true_eq, ← hdomain]
    exact hne.symm

section Transition

variable {admin : Bool} {domain status now : Text} {orderId : Option Text} {file file' : Option κ}
  {reply : Reply}

/-- **A transition that goes through** moves the first entry of its domain, and what is listed of
    every other domain stays. -/
theorem transition_lawful
    (hok : @transitionWorkspaceDomainStatus cs κ yaml admin domain status orderId now file =
      .ok reply file') (other : Text) :
    listed cs yaml file' other = listed cs yaml file other ∨
      ∃ d d', listed cs yaml file other = some d ∧ listed cs yaml file' other = some d' ∧
        (d'.status = d.status ∨ d'.status ∈ d.status.transitions) ∧
        (d'.status = .active ∨ d'.status = .failed → admin = true) := by
  unfold transitionWorkspaceDomainStatus at hok
  cases hnext : Status.ofName (normalizeStatus cs (.str status)) with
  | none =>
    rw [hnext] at hok
    cases hok
  | some next =>
    rw [hnext] at hok
    dsimp only at hok
    split at hok
    · cases hok
    · rename_i hadmin
      have hname : Status.ofName (normalizeStatus cs (.str next.name)) = some next := by
        have hnormal := Status.ofName_eq_some.mp hnext
        rw [← hnormal, normalizeStatus_normalizeStatus, hnext]
      obtain ⟨before, raw, rest, h, ⟨s, hs, hallowed⟩, rfl⟩ := transition_eq_ok hname hok
      by_cases hother : normalizeDomain cs (.str other) = normalizeDomain cs (.str domain)
      · right
        obtain ⟨d, hlisted, -, hstatus⟩ := h.listed
        obtain ⟨d', hlisted', -, hstatus'⟩ := (h.after next orderId now).listed
        have hsame (file : Option κ) : listed cs yaml file other = listed cs yaml file domain := by
          unfold listed
          rw [hother]
        rw [hs, Option.getD_some] at hstatus
        rw [currentStatus_updatedEntry hname, Option.getD_some] at hstatus'
        refine ⟨d, d', (hsame _).trans hlisted, (hsame _).trans hlisted', ?_, fun hlive => ?_⟩
        · rw [hstatus, hstatus']
          exact hallowed
        · rw [hstatus'] at hlive
          by_contra hno
          exact hadmin ⟨hlive, Bool.eq_false_iff.mpr hno⟩
      · left
        rw [listed_eq (h.after next orderId now).catalog, listed_eq h.catalog,
          find_listed_cons h.entry hother,
          find_listed_cons (h.after next orderId now).entry hother]

end Transition

/-! ## A save -/

theorem mem_payloadRow {entry : DomainEntry} {item : Text × Text} (h : item ∈ payloadRow entry) :
    item.1 ≠ "value".toList := by
  unfold payloadRow at h
  simp only [List.mem_append, List.mem_cons, List.not_mem_nil, or_false, Option.mem_toList,
    Option.map_eq_some_iff] at h
  obtain ((((rfl | rfl | rfl) | ⟨_, -, rfl⟩) | ⟨_, -, rfl⟩) | ⟨_, -, rfl⟩) := h <;>
    dsimp only <;> decide

/-- What a reader finds in a row. -/
theorem find_payloadRow (entry : DomainEntry) (read : Text → Val) :
    ∃ row : Dict, rowVal read (payloadRow entry) = .dict row ∧
      Dict.get row "domain" = read entry.domain ∧ Dict.get row "status" = read entry.status.name ∧
      Dict.get row "value" = .none := by
  refine ⟨_, rfl, rfl, rfl, ?_⟩
  have hnone : Dict.find ((payloadRow entry).map fun item => (Val.str item.1, read item.2))
      "value" = none := by
    unfold Dict.find
    rw [Option.map_eq_none_iff, List.find?_eq_none]
    intro item hitem
    obtain ⟨source, hsource, rfl⟩ := List.mem_map.mp hitem
    simpa [isKey] using mem_payloadRow hsource
  rw [Dict.get, hnone]
  rfl

theorem normalizeDomain_orElse_none (v : Val) :
    normalizeDomain cs (orElse v .none) = normalizeDomain cs v := by
  unfold orElse
  cases htruth : v.truth with
  | true => rw [if_pos rfl]
  | false =>
    unfold normalizeDomain textOr
    rw [htruth, if_neg Bool.false_ne_true, if_neg Bool.false_ne_true]
    rfl

theorem strip_name (status : Status) : strip status.name = status.name := by
  cases status <;> rfl

/-- What `list_domains` makes of a row of the client. -/
theorem listEntry_payloadRow (hlower : ∀ status : Status, cs.lower status.name = status.name)
    {entry : DomainEntry} {d : Listed}
    (h : listEntry cs (rowVal web.reread (payloadRow entry)) = some d) :
    d.domain = normalizeDomain cs (web.reread entry.domain) ∧ d.status = entry.status := by
  obtain ⟨row, hrow, hdomain, hstatus, hvalue⟩ := find_payloadRow entry web.reread
  rw [hrow, listEntry, hdomain, hstatus, hvalue, normalizeDomain_orElse_none,
    web.reread_status] at h
  split at h
  · cases h
  · obtain rfl := Option.some.inj h
    refine ⟨rfl, ?_⟩
    have hnormal : normalizeStatus cs (.str entry.status.name) = entry.status.name := by
      unfold normalizeStatus
      rw [textOr_str, strip_name, hlower]
    dsimp only
    rw [hnormal, Status.ofName_name]
    rfl

/-- **What is listed after a save** is one of the entries that it wrote. -/
theorem listed_written (hlower : ∀ status : Status, cs.lower status.name = status.name)
    {data : Dict} {entries : List DomainEntry} {domain : Text} {d : Listed}
    (hdata : Dict.get data DOMAIN_CATALOG_KEY = .list (buildDomainCatalogPayload entries))
    (h : listed cs yaml (some (web.stringify (.dict data))) domain = some d) :
    ∃ entry ∈ entries, d.status = entry.status ∧
      normalizeDomain cs (web.reread entry.domain) = normalizeDomain cs (.str domain) := by
  cases hload : yaml.safeLoad (web.stringify (.dict data)) with
  | none =>
    unfold listed listDomains catalog loadAllYml mapping at h
    rw [Option.bind_some, hload] at h
    cases h
  | some v =>
    obtain ⟨read, rfl, hread⟩ := web.safeLoad_stringify hdata hload
    have hcatalog : catalog yaml (some (web.stringify (.dict data))) =
        some (entries.map fun entry => rowVal web.reread (payloadRow entry)) := by
      unfold catalog loadAllYml mapping
      rw [Option.bind_some, hload]
      dsimp only
      rw [hread]
    rw [listed_eq hcatalog] at h
    have hdomain := List.find?_some h
    rw [decide_eq_true_eq] at hdomain
    obtain ⟨raw, hraw, hlisted⟩ := List.mem_filterMap.mp (List.mem_of_find?_eq_some h)
    obtain ⟨entry, hentry, rfl⟩ := List.mem_map.mp hraw
    obtain ⟨hname, hstatus⟩ := listEntry_payloadRow hlower hlisted
    exact ⟨entry, hentry, hstatus, hname.symm.trans hdomain⟩

/-- What is offered first is one of the offers. -/
theorem mem_of_offered {offers : List (Text × Status)} {domain : Text} {status : Status}
    (h : offered offers domain = some status) : (domain, status) ∈ offers := by
  unfold offered at h
  obtain ⟨offer, hoffer, rfl⟩ := Option.map_eq_some_iff.mp h
  have hname := List.find?_some hoffer
  rw [decide_eq_true_eq] at hname
  rw [← hname]
  exact List.mem_of_find?_eq_some hoffer

omit [DecidableEq ι] in
/-- **A save of entries that are up to date** leaves every status as it is. -/
theorem save_kept (hlower : ∀ status : Status, cs.lower status.name = status.name)
    {s : State ι κ} {i : Nat} {save : Save ι} {data : Dict} (hsave : s.saves[i]? = some save)
    (hup : UpToDate cs web s (.write i)) {domain : Text} {d d' : Listed}
    (hd : listed cs yaml s.file domain = some d)
    (hd' : listed cs yaml (some (web.stringify (.dict (save.nextData web.toScript data)))) domain =
      some d') : d'.status = d.status := by
  obtain ⟨entry, hentry, hstatus, hname⟩ := listed_written hlower (Dict.get_set_self _ _ _) hd'
  have hoffered : offered (save.offers web.toScript) entry.domain = some entry.status :=
    parse_offered hentry
  have hlisted : listed cs yaml s.file (normalizeDomain cs (web.reread entry.domain)) = some d := by
    unfold listed at hd ⊢
    rw [normalizeDomain_normalizeDomain, hname]
    exact hd
  rw [hstatus]
  exact (hup save (by rw [hsave]; rfl) (entry.domain, entry.status) (mem_of_offered hoffered)
    hoffered d hlisted).symm

/-! ## Runs -/

/-- What a step that is up to date does. -/
theorem step_lawful (hlower : ∀ status : Status, cs.lower status.name = status.name)
    {s s' : State ι κ} {a : Action ι} (hup : UpToDate cs web s a)
    (hstep : step cs web s a = some s') : @Lawful cs ι κ yaml s a s' := by
  have hsame (hfile : s'.file = s.file) : @Lawful cs ι κ yaml s a s' := by
    have heq {domain : Text} {d d' : Listed} (hd : listed cs yaml s.file domain = some d)
        (hd' : listed cs yaml s'.file domain = some d') : d'.status = d.status := by
      rw [hfile, hd, Option.some.injEq] at hd'
      rw [hd']
    exact ⟨fun _ _ _ hd hd' => Or.inl (heq hd hd'), fun _ _ _ hd hd' hne => absurd (heq hd hd') hne,
      fun _ _ _ _ hd hd' => heq hd hd'⟩
  cases a with
  | load c =>
    obtain rfl := Option.some.inj hstep
    exact hsame rfl
  | loaded i =>
    rw [step] at hstep
    split at hstep
    · cases hstep
    · obtain rfl := Option.some.inj hstep
      exact hsame rfl
  | save c edit =>
    obtain rfl := Option.some.inj hstep
    exact hsame rfl
  | read i =>
    rw [step] at hstep
    split at hstep
    · cases hstep
    · split at hstep
      · obtain rfl := Option.some.inj hstep
        exact hsame rfl
      · obtain rfl := Option.some.inj hstep
        exact hsame rfl
  | write i =>
    rw [step] at hstep
    split at hstep
    · cases hstep
    · rename_i save hsave
      obtain ⟨data, -, rfl⟩ := Option.map_eq_some_iff.mp hstep
      have hkept {domain : Text} {d d' : Listed} := @save_kept cs ι κ yaml web hlower s i save data
        hsave hup domain d d'
      exact ⟨fun _ _ _ hd hd' => Or.inl (hkept hd hd'),
        fun _ _ _ hd hd' hne => absurd (hkept hd hd') hne, fun _ _ _ _ hd hd' => hkept hd hd'⟩
  | lost i =>
    obtain rfl := Option.some.inj hstep
    exact hsame rfl
  | transition c admin domain status orderId now =>
    rw [step] at hstep
    split at hstep
    · rename_i reply file hok
      obtain rfl := Option.some.inj hstep
      refine ⟨fun other d d' hd hd' => ?_, fun other d d' hd hd' hne hlive => ?_, nofun⟩
      · rcases transition_lawful hok other with hsame | ⟨e, e', he, he', hmove, -⟩
        · obtain rfl := Option.some.inj ((hd'.symm.trans hsame).trans hd)
          exact Or.inl rfl
        · obtain rfl := Option.some.inj (hd.symm.trans he)
          obtain rfl := Option.some.inj (hd'.symm.trans he')
          exact hmove
      · rcases transition_lawful hok other with hsame | ⟨e, e', he, he', -, hadmin⟩
        · obtain rfl := Option.some.inj ((hd'.symm.trans hsame).trans hd)
          exact absurd rfl hne
        · obtain rfl := Option.some.inj (hd'.symm.trans he')
          exact hadmin hlive
    · obtain rfl := Option.some.inj hstep
      exact hsame rfl
  | applied i =>
    rw [step] at hstep
    split at hstep
    · cases hstep
    · obtain rfl := Option.some.inj hstep
      exact hsame rfl

/-- **A run keeps the lifecycle** where no save that arrives is out of date. -/
theorem statuses_kept (hlower : ∀ status : Status, cs.lower status.name = status.name)
    {s : State ι κ} {as : List (Action ι)}
    (hup : Lib.Along (step cs web) (UpToDate cs web) s as) : Kept cs web s as := by
  intro before a after u u' has hu hstep
  rw [has] at hup
  exact step_lawful hlower (hup.append_right hu).1 hstep

end

/-! ## A save that is out of date -/

section Demo

def plainWeb : Web Val plainYaml where
  toScript := plainScript
  parse := some
  stringify := id
  reread := .str
  reread_status _ := rfl
  safeLoad_stringify := by
    intro data entries v hdata hload
    obtain rfl := Option.some.inj hload
    exact ⟨data, rfl, hdata⟩

/-- One domain that is ordered, and clients that have just been opened. -/
def orderedStart : State Bool Val where
  file := oneDomain [("type", "fqdn"), ("domain", "a.example"), ("status", "ordered")]
  clients _ := ⟨createDefaultDomainEntries, DEFAULT_PRIMARY_DOMAIN, DEFAULT_PRIMARY_DOMAIN⟩
  loads := []
  saves := []
  replies := []

/-- The first client loads the catalog, an administrator activates the domain, and the first
    client chooses its primary domain. -/
def staleRun : List (Action Bool) :=
  [.load false, .loaded 0, .transition true true "a.example" "active" none "now",
    .save false (.select "a.example"), .read 0]

def statusOf (s : Option (State Bool Val)) (domain : Text) : Option Status :=
  s.bind fun s => (listed asciiCasing plainYaml s.file domain).map (·.status)

/-- **A save puts the domain back**: it was active, and is ordered again. -/
theorem puts_back_activation :
    ¬ Kept asciiCasing plainWeb orderedStart (staleRun ++ [.write 0]) := by
  intro h
  have hbefore : statusOf (Lib.run (step asciiCasing plainWeb) orderedStart staleRun) "a.example" =
      some .active := by
    decide
  have hafter : statusOf (Lib.run (step asciiCasing plainWeb) orderedStart
      (staleRun ++ [.write 0])) "a.example" = some .ordered := by
    decide
  obtain ⟨u, hu, hactive⟩ := Option.bind_eq_some_iff.mp hbefore
  obtain ⟨u', hu', hordered⟩ := Option.bind_eq_some_iff.mp hafter
  obtain ⟨d, hd, hstatus⟩ := Option.map_eq_some_iff.mp hactive
  obtain ⟨d', hd', hstatus'⟩ := Option.map_eq_some_iff.mp hordered
  obtain ⟨v, hv, hstep⟩ := Lib.run_append_eq_some.mp hu'
  obtain rfl := Option.some.inj (hv.symm.trans hu)
  obtain ⟨w, hw, hnil⟩ := Lib.run_cons_eq_some.mp hstep
  obtain rfl := Option.some.inj hnil
  have hkept := (h staleRun (.write 0) [] v w rfl hu hw).kept rfl "a.example" d d' hd hd'
  rw [hstatus, hstatus'] at hkept
  cases hkept

/-- A client that loads the catalog after the transition may save it. -/
def freshRun : List (Action Bool) :=
  [.transition true true "a.example" "active" none "now", .load false, .loaded 0,
    .save false (.select "a.example"), .read 0, .write 0]

theorem statuses_kept_fresh : Kept asciiCasing plainWeb orderedStart freshRun := by
  refine statuses_kept (fun status => ?_) ?_
  · cases status <;> rfl
  · decide

end Demo

end Infinito.Domains
