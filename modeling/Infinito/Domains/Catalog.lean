import Infinito.Domains.Lifecycle
import Infinito.Lib.First
import Infinito.Orders.Customers
import Mathlib.Data.Char
import Mathlib.Data.List.Lex
import Mathlib.Data.List.Sort

/-!
# The catalog in the web client

`parseDomainCatalogFromGroupVars` reads the catalog into a list of entries, each domain once, and
`buildDomainCatalogPayload` writes such a list as rows. The reader adds what the rows lack: the
parent of a subdomain, the primary domain and `localhost`, each of them `active`. An added
parent comes before its subdomain, and where two entries have one domain the first one stays.

`offersOf` is the catalog with the added entries in it, in the order in which they are taken,
and `parse_offered` says that an entry of the list has the status that was offered first.
-/

set_option autoImplicit false

namespace Infinito.Domains

open Py
open Orders (isSlugChar jsTrim jsTrim_jsTrim)

def DEFAULT_PRIMARY_DOMAIN : Text := "localhost"

inductive DomainKind where
  | localName
  | fqdn
  | subdomain
  deriving DecidableEq

def DomainKind.name : DomainKind → Text
  | localName => "local"
  | fqdn => "fqdn"
  | subdomain => "subdomain"

def DomainKind.ofName (t : Text) : Option DomainKind :=
  [DomainKind.localName, .fqdn, .subdomain].find? fun kind => kind.name = t

structure DomainEntry where
  id : Text
  kind : DomainKind
  domain : Text
  parentFqdn : Option Text
  status : Status
  statusChangedAt : Option Text
  orderId : Option Text

/-- What the web client has from its language. -/
structure Script where
  /-- `String(value)` of a number or a list -/
  string : Val → Text
  /-- `text.toLowerCase()` -/
  lower : Text → Text
  /-- `text.localeCompare(other, undefined, { sensitivity: "base" })` -/
  localeCompare : Text → Text → Int
  lower_nil : lower [] = []
  lower_lower : ∀ t, lower (lower t) = lower t
  trim_lower_trim : ∀ t, jsTrim (lower (jsTrim t)) = lower (jsTrim t)

/-- The client on names that are lower case already. -/
def plainScript : Script where
  string _ := []
  lower := id
  localeCompare a b := if a = b then 0 else if a < b then -1 else 1
  lower_nil := rfl
  lower_lower _ := rfl
  trim_lower_trim := jsTrim_jsTrim

section

variable (js : Script)

/-! ## Names -/

/-- `String(value || "")` -/
def stringOr : Val → Text
  | .str t => t
  | .bool b => if b then "true" else []
  | .dict _ => "[object Object]"
  | .list xs => js.string (.list xs)
  | v => if v.truth then js.string v else []

def normalizeDomainName (value : Val) : Text := js.lower (jsTrim (stringOr js value))

def normalizeDomainStatus (value : Val) : Status :=
  (Status.ofName (js.lower (jsTrim (stringOr js value)))).getD .active

def normalizeDomainLabel (value : Val) : Text :=
  let kept := (normalizeDomainName js value).filter fun c => isSlugChar c || c = '-'
  (kept.dropWhile (· = '-')).rdropWhile (· = '-')

def isValidDomainToken : Text → Bool
  | [] => false
  | c :: cs => isSlugChar c && cs.all fun c => isSlugChar c || c = '.' || c = '_' || c = '-'

def isLikelyFqdn (value : Text) : Bool :=
  let normalized := normalizeDomainName js (.str value)
  let labels := (normalized.splitOn '.').filter (· ≠ [])
  normalized ≠ [] && ' ' ∉ normalized && '.' ∈ normalized && 2 ≤ labels.length &&
    labels.all fun label => label.all (fun c => isSlugChar c || c = '-') &&
      label.head? ≠ some '-' && label.getLast? ≠ some '-'

def inferDomainKind (value : Text) : DomainKind :=
  let normalized := normalizeDomainName js (.str value)
  if normalized = [] ∨ normalized = DEFAULT_PRIMARY_DOMAIN ∨ '.' ∉ normalized then .localName
  else if ((normalized.splitOn '.').filter (· ≠ [])).length ≤ 2 then .fqdn
  else .subdomain

/-- `domain.split(".").slice(1).join(".")` -/
def afterLabel (domain : Text) : Text := List.intercalate ['.'] ((domain.splitOn '.').drop 1)

def buildDomainEntryId (kind : DomainKind) (domain : Text) (parentFqdn : Option Text) : Text :=
  kind.name ++ ':' :: domain ++ match truthy parentFqdn with
    | some parent => ':' :: parent
    | none => []

def localhostEntry : DomainEntry :=
  { id := buildDomainEntryId .localName DEFAULT_PRIMARY_DOMAIN none
    kind := .localName
    domain := DEFAULT_PRIMARY_DOMAIN
    parentFqdn := none
    status := .active
    statusChangedAt := none
    orderId := none }

def createDefaultDomainEntries : List DomainEntry := [localhostEntry]

/-! ## The catalog as the client reads and writes it -/

/-- A row of `buildDomainCatalogPayload`. -/
def payloadRow (entry : DomainEntry) : List (Text × Text) :=
  let optional (key : Text) (value : Option Text) : List (Text × Text) :=
    ((truthy value).map fun t => (key, t)).toList
  ([("type", entry.kind.name), ("domain", entry.domain), ("status", entry.status.name)] :
      List (Text × Text)) ++
    optional "parent_fqdn" (if entry.kind = .subdomain then entry.parentFqdn else none) ++
    optional "status_changed_at" entry.statusChangedAt ++ optional "order_id" entry.orderId

/-- A row as a mapping, its texts read by `read`. -/
def rowVal (read : Text → Val) (row : List (Text × Text)) : Val :=
  .dict (row.map fun item => (.str item.1, read item.2))

def buildDomainCatalogPayload (entries : List DomainEntry) : List Val :=
  entries.map fun entry => rowVal .str (payloadRow entry)

def readPrimaryDomainFromGroupVars (data : Dict) : Text :=
  jsTrim (match Dict.get data "DOMAIN_PRIMARY" with
    | .none => []
    | .str t => t
    | .bool b => if b then "true" else "false"
    | .dict _ => "[object Object]"
    | v => js.string v)

/-- An element of `staged`. -/
structure Staged where
  kind : DomainKind
  domain : Text
  parentFqdn : Option Text
  status : Status
  statusChangedAt : Option Text
  orderId : Option Text

def Staged.ofName (domain : Text) : Staged :=
  ⟨inferDomainKind js domain, domain, none, .active, none, none⟩

/-- `typeof value === "string" && value ? value : null` -/
def stringOrNull : Val → Option Text
  | .str t => orNone t
  | _ => none

/-- What an item of the catalog puts on the stage. -/
def stageItem : Val → Option Staged
  | .str t =>
      let domain := normalizeDomainName js (.str t)
      if domain = [] then none else some (Staged.ofName js domain)
  | .dict node =>
      let domain := normalizeDomainName js (Orders.orElse (Dict.get node "domain")
        (Orders.orElse (Dict.get node "value") (Dict.get node "name")))
      if domain = [] then none
      else
        let rawKind := normalizeDomainName js
          (Orders.orElse (Dict.get node "type") (Dict.get node "kind"))
        some
          { kind := (DomainKind.ofName rawKind).getD (inferDomainKind js domain)
            domain := domain
            parentFqdn := orNone (normalizeDomainName js
              (Orders.orElse (Dict.get node "parent_fqdn")
                (Orders.orElse (Dict.get node "parentFqdn") (Dict.get node "parent"))))
            status := normalizeDomainStatus js (Dict.get node "status")
            statusChangedAt := stringOrNull
              (Orders.orElse (Dict.get node "status_changed_at") (Dict.get node "statusChangedAt"))
            orderId := stringOrNull
              (Orders.orElse (Dict.get node "order_id") (Dict.get node "orderId")) }
  | _ => none

def stage (data : Dict) : List Staged :=
  let rawItems := match Dict.get data DOMAIN_CATALOG_KEY with
    | .list items => items
    | _ => []
  let fallbackPrimary := normalizeDomainName js (.str (readPrimaryDomainFromGroupVars js data))
  rawItems.filterMap (stageItem js) ++
    (if fallbackPrimary = [] then [] else [Staged.ofName js fallbackPrimary])

/-- `entries`, `seenDomains` and `fqdnDomains` -/
structure Pushed where
  entries : List DomainEntry
  seen : List Text
  fqdns : List Text

structure PushMeta where
  status : Status := .active
  statusChangedAt : Option Text := none
  orderId : Option Text := none

/-- `pushEntry` of an entry that is not a subdomain. -/
def pushTop (kind : DomainKind) (domain : Text) (data : PushMeta) (pushed : Pushed) : Pushed :=
  let normalizedDomain := normalizeDomainName js (.str domain)
  if normalizedDomain = [] ∨ normalizedDomain ∈ pushed.seen then pushed
  else if kind = .localName ∧ isValidDomainToken normalizedDomain = false then pushed
  else if kind = .fqdn ∧ isLikelyFqdn js normalizedDomain = false then pushed
  else
    { entries := pushed.entries ++ [
        { id := buildDomainEntryId kind normalizedDomain none
          kind := kind
          domain := normalizedDomain
          parentFqdn := none
          status := data.status
          statusChangedAt := data.statusChangedAt
          orderId := data.orderId }]
      seen := normalizedDomain :: pushed.seen
      fqdns := if kind = .fqdn then normalizedDomain :: pushed.fqdns else pushed.fqdns }

/-- `pushEntry` of a subdomain. -/
def pushSubdomain (domain : Text) (parentFqdn : Option Text) (data : PushMeta) (pushed : Pushed) :
    Pushed :=
  let normalizedDomain := normalizeDomainName js (.str domain)
  if normalizedDomain = [] ∨ normalizedDomain ∈ pushed.seen then pushed
  else if '.' ∉ normalizedDomain then pushed
  else
    let normalizedParent := normalizeDomainName js
      (.str ((truthy parentFqdn).getD (afterLabel normalizedDomain)))
    if normalizedParent = [] ∨ isLikelyFqdn js normalizedParent = false then pushed
    else
      let pushed := if normalizedParent ∈ pushed.seen then pushed
        else pushTop js .fqdn normalizedParent {} pushed
      { pushed with
        entries := pushed.entries ++ [
          { id := buildDomainEntryId .subdomain normalizedDomain (some normalizedParent)
            kind := .subdomain
            domain := normalizedDomain
            parentFqdn := some normalizedParent
            status := data.status
            statusChangedAt := data.statusChangedAt
            orderId := data.orderId }]
        seen := normalizedDomain :: pushed.seen }

/-- The parent that a staged subdomain is put under. -/
def Staged.parent (entry : Staged) : Text :=
  let named := normalizeDomainName js (.str (entry.parentFqdn.getD []))
  if named = [] then normalizeDomainName js (.str (afterLabel entry.domain)) else named

/-- The body of the loop over `staged`. -/
def pushStaged (pushed : Pushed) (entry : Staged) : Pushed :=
  let data : PushMeta := ⟨entry.status, entry.statusChangedAt, entry.orderId⟩
  match entry.kind with
  | .subdomain =>
      let parentFqdn := entry.parent js
      let pushed := if parentFqdn ≠ [] ∧ parentFqdn ∉ pushed.fqdns then
          pushTop js .fqdn parentFqdn {} pushed
        else pushed
      pushSubdomain js entry.domain (orNone parentFqdn) data pushed
  | kind => pushTop js kind entry.domain data pushed

/-- `typeOrder` -/
def DomainKind.order : DomainKind → Int
  | localName => 0
  | fqdn => 1
  | subdomain => 2

/-- The comparison that the entries are sorted by. -/
def compareEntries (a b : DomainEntry) : Int :=
  if a.kind.order - b.kind.order ≠ 0 then a.kind.order - b.kind.order
  else js.localeCompare a.domain b.domain

def parseDomainCatalogFromGroupVars (data : Dict) : List DomainEntry :=
  let pushed := (stage js data).foldl (pushStaged js) ⟨[], [], []⟩
  let entries := if DEFAULT_PRIMARY_DOMAIN ∈ pushed.seen then pushed.entries
    else localhostEntry :: pushed.entries
  entries.insertionSort fun a b => compareEntries js a b ≤ 0

def normalizePrimaryDomainSelection (value : Text) (entries : List DomainEntry) : Text :=
  let desired := normalizeDomainName js (.str value)
  if desired = [] then []
  else ((entries.find? fun entry => normalizeDomainName js (.str entry.domain) = desired).map
    (·.domain)).getD []

/-! ## What the entries come from -/

/-- The check that `pushEntry` makes of a name. -/
def DomainKind.accepts (kind : DomainKind) (domain : Text) : Bool :=
  match kind with
  | localName => isValidDomainToken domain
  | fqdn => isLikelyFqdn js domain
  | subdomain => '.' ∈ domain

/-- What a staged entry brings: a subdomain its parent first, which is `active`. -/
def Staged.offers (entry : Staged) : List (Text × Status) :=
  let own := if entry.kind.accepts js entry.domain then [(entry.domain, entry.status)] else []
  match entry.kind with
  | .subdomain =>
      if isLikelyFqdn js (entry.parent js) then (entry.parent js, .active) :: own else []
  | _ => own

def offersOf (data : Dict) : List (Text × Status) :=
  (stage js data).flatMap (Staged.offers js) ++ [(DEFAULT_PRIMARY_DOMAIN, .active)]

/-- The entry of a parent that is added. -/
def parentEntry (domain : Text) : DomainEntry :=
  { id := buildDomainEntryId .fqdn domain none
    kind := .fqdn
    domain := domain
    parentFqdn := none
    status := .active
    statusChangedAt := none
    orderId := none }

/-- The entry of what is staged itself. -/
def Staged.own (entry : Staged) (parentFqdn : Option Text) : DomainEntry :=
  { id := buildDomainEntryId entry.kind entry.domain parentFqdn
    kind := entry.kind
    domain := entry.domain
    parentFqdn := parentFqdn
    status := entry.status
    statusChangedAt := entry.statusChangedAt
    orderId := entry.orderId }

/-- The entries that a staged one brings: a subdomain its parent first. -/
def Staged.brings (entry : Staged) : List DomainEntry :=
  match entry.kind with
  | .subdomain =>
      if isLikelyFqdn js (entry.parent js) then
        parentEntry (entry.parent js) ::
          if '.' ∈ entry.domain then [entry.own (some (entry.parent js))] else []
      else []
  | kind => if kind.accepts js entry.domain then [entry.own none] else []

/-- All that the stage brings, and `localhost`. -/
def brought (data : Dict) : List DomainEntry :=
  (stage js data).flatMap (Staged.brings js) ++ [localhostEntry]

/-- The status that comes first. -/
def offered (offers : List (Text × Status)) (domain : Text) : Option Status :=
  (offers.find? fun offer => offer.1 = domain).map (·.2)

end

section Offers

variable {js : Script} {offers : List (Text × Status)} {pushed : Pushed}

theorem normalizeDomainName_str (t : Text) :
    normalizeDomainName js (.str t) = js.lower (jsTrim t) := rfl

theorem normalizeDomainName_normalizeDomainName (v : Val) :
    normalizeDomainName js (.str (normalizeDomainName js v)) = normalizeDomainName js v := by
  rw [normalizeDomainName_str]
  unfold normalizeDomainName
  rw [js.trim_lower_trim, js.lower_lower]

theorem normalizeDomainName_nil : normalizeDomainName js (.str []) = [] := by
  rw [normalizeDomainName_str]
  simp [jsTrim, js.lower_nil]

theorem isLikelyFqdn_nil : isLikelyFqdn js [] = false := by
  unfold isLikelyFqdn
  simp [normalizeDomainName_nil]

theorem not_accepts_nil (kind : DomainKind) : kind.accepts js [] = false := by
  cases kind with
  | localName => rfl
  | fqdn => exact isLikelyFqdn_nil
  | subdomain => rfl

/-! ### One entry of the stage -/

/-- An entry is added if its domain was not seen. -/
def pushNew (pushed : Pushed) (entry : DomainEntry) : Pushed :=
  if entry.domain ∈ pushed.seen then pushed
  else
    { entries := pushed.entries ++ [entry]
      seen := entry.domain :: pushed.seen
      fqdns := if entry.kind = .fqdn then entry.domain :: pushed.fqdns else pushed.fqdns }

theorem pushNew_of_seen {entry : DomainEntry} (h : entry.domain ∈ pushed.seen) :
    pushNew pushed entry = pushed := if_pos h

theorem mem_seen_pushNew {entry : DomainEntry} {domain : Text} :
    domain ∈ (pushNew pushed entry).seen ↔ domain ∈ pushed.seen ∨ domain = entry.domain := by
  unfold pushNew
  split
  · rename_i h
    exact ⟨Or.inl, fun h' => h'.elim id fun heq => heq ▸ h⟩
  · rw [List.mem_cons, or_comm]

/-- `pushEntry` adds what its check lets pass. -/
theorem pushTop_eq {kind : DomainKind} {domain : Text} {data : PushMeta}
    (hkind : kind ≠ .subdomain) (hnormal : normalizeDomainName js (.str domain) = domain) :
    pushTop js kind domain data pushed =
      if kind.accepts js domain then
        pushNew pushed ⟨buildDomainEntryId kind domain none, kind, domain, none, data.status,
          data.statusChangedAt, data.orderId⟩
      else pushed := by
  unfold pushTop pushNew
  rw [hnormal]
  dsimp only
  by_cases hseen : domain ∈ pushed.seen
  · rw [if_pos (Or.inr hseen), if_pos hseen, ite_self]
  · rw [if_neg hseen]
    cases hyes : kind.accepts js domain with
    | false =>
      rw [if_neg Bool.false_ne_true]
      by_cases hnil : domain = []
      · rw [if_pos (Or.inl hnil)]
      · rw [if_neg (not_or.mpr ⟨hnil, hseen⟩)]
        cases kind with
        | localName => rw [if_pos ⟨rfl, hyes⟩]
        | fqdn => rw [if_neg (by simp), if_pos ⟨rfl, hyes⟩]
        | subdomain => exact absurd rfl hkind
    | true =>
      have hnil : domain ≠ [] := by
        rintro rfl
        rw [not_accepts_nil] at hyes
        cases hyes
      rw [if_pos rfl, if_neg (not_or.mpr ⟨hnil, hseen⟩)]
      cases kind with
      | localName =>
        rw [DomainKind.accepts] at hyes
        rw [if_neg (by simp [hyes]), if_neg (by simp)]
      | fqdn =>
        rw [DomainKind.accepts] at hyes
        rw [if_neg (by simp), if_neg (by simp [hyes])]
      | subdomain => exact absurd rfl hkind

theorem normalize_parent (entry : Staged) :
    normalizeDomainName js (.str (entry.parent js)) = entry.parent js := by
  unfold Staged.parent
  dsimp only
  split
  · exact normalizeDomainName_normalizeDomainName _
  · exact normalizeDomainName_normalizeDomainName _

/-- The parent is found again from what the loop hands on. -/
theorem parent_again (entry : Staged) :
    normalizeDomainName js
      (.str ((truthy (orNone (entry.parent js))).getD (afterLabel entry.domain))) =
        entry.parent js := by
  by_cases hempty : entry.parent js = []
  · rw [hempty]
    unfold Staged.parent at hempty
    dsimp only at hempty
    split at hempty
    · exact hempty
    · rename_i hne
      exact absurd hempty hne
  · have hself : truthy (orNone (entry.parent js)) = some (entry.parent js) := by
      rw [orNone_of_ne hempty]
      exact orNone_of_ne hempty
    rw [hself, Option.getD_some, normalize_parent]

/-- A subdomain whose parent was seen is added, and any other is not. -/
theorem pushSubdomain_eq {entry : Staged} (hkind : entry.kind = .subdomain)
    (hnormal : normalizeDomainName js (.str entry.domain) = entry.domain)
    (hparent : isLikelyFqdn js (entry.parent js) = true → entry.parent js ∈ pushed.seen) :
    pushSubdomain js entry.domain (orNone (entry.parent js))
        ⟨entry.status, entry.statusChangedAt, entry.orderId⟩ pushed =
      if isLikelyFqdn js (entry.parent js) = true ∧ '.' ∈ entry.domain then
        pushNew pushed (entry.own (some (entry.parent js)))
      else pushed := by
  unfold pushSubdomain pushNew Staged.own
  rw [hnormal]
  dsimp only
  rw [parent_again]
  by_cases hseen : entry.domain ∈ pushed.seen
  · rw [if_pos (Or.inr hseen), if_pos hseen, ite_self]
  · rw [if_neg hseen]
    by_cases hdot : '.' ∈ entry.domain
    · rw [if_neg (not_or.mpr ⟨List.ne_nil_of_mem hdot, hseen⟩), if_neg (not_not_intro hdot)]
      cases hlikely : isLikelyFqdn js (entry.parent js) with
      | false => rw [if_pos (Or.inr rfl), if_neg (by simp)]
      | true =>
        have hnil : entry.parent js ≠ [] := by
          intro hempty
          rw [hempty, isLikelyFqdn_nil] at hlikely
          cases hlikely
        rw [if_neg (by simp [hnil]), if_pos (hparent hlikely), if_pos ⟨rfl, hdot⟩, hkind,
          if_neg (by simp)]
    · rw [if_neg (fun h : _ ∧ _ => hdot h.2)]
      split
      · rfl
      · rfl

/-- **One entry of the stage** adds what it brings. -/
theorem pushStaged_eq {entry : Staged} (hfqdns : ∀ domain ∈ pushed.fqdns, domain ∈ pushed.seen)
    (hnormal : normalizeDomainName js (.str entry.domain) = entry.domain) :
    pushStaged js pushed entry = (entry.brings js).foldl pushNew pushed := by
  have htop (hkind : entry.kind ≠ .subdomain) :
      pushTop js entry.kind entry.domain ⟨entry.status, entry.statusChangedAt, entry.orderId⟩
        pushed = (if entry.kind.accepts js entry.domain then [entry.own none] else []).foldl
          pushNew pushed := by
    rw [pushTop_eq hkind hnormal]
    split
    · rfl
    · rfl
  unfold pushStaged Staged.brings
  cases hkind : entry.kind with
  | localName =>
    rw [hkind] at htop
    exact htop nofun
  | fqdn =>
    rw [hkind] at htop
    exact htop nofun
  | subdomain =>
    dsimp only
    have hfirst : (if entry.parent js ≠ [] ∧ entry.parent js ∉ pushed.fqdns then
        pushTop js .fqdn (entry.parent js) {} pushed else pushed) =
          if isLikelyFqdn js (entry.parent js) then pushNew pushed (parentEntry (entry.parent js))
          else pushed := by
      by_cases hmem : entry.parent js ∈ pushed.fqdns
      · rw [if_neg fun hno => hno.2 hmem]
        split
        · exact (pushNew_of_seen (hfqdns _ hmem)).symm
        · rfl
      · by_cases hempty : entry.parent js = []
        · rw [if_neg fun hno => hno.1 hempty, hempty, isLikelyFqdn_nil]
          rfl
        · rw [if_pos ⟨hempty, hmem⟩]
          exact @pushTop_eq js pushed .fqdn _ {} nofun (normalize_parent entry)
    rw [hfirst]
    cases hlikely : isLikelyFqdn js (entry.parent js) with
    | false =>
      rw [if_neg Bool.false_ne_true, if_neg Bool.false_ne_true, pushSubdomain_eq hkind hnormal
        (by rw [hlikely]; nofun), if_neg (by simp [hlikely])]
      rfl
    | true =>
      have hseen : entry.parent js ∈ (pushNew pushed (parentEntry (entry.parent js))).seen :=
        mem_seen_pushNew.mpr (Or.inr rfl)
      rw [if_pos rfl, if_pos rfl, pushSubdomain_eq hkind hnormal fun _ => hseen, hlikely]
      by_cases hdot : '.' ∈ entry.domain
      · rw [if_pos ⟨rfl, hdot⟩, if_pos hdot]
        rfl
      · rw [if_neg fun h => hdot h.2, if_neg hdot]
        rfl

/-- What is on the stage has a name that is normalized. -/
theorem normalize_stage {data : Dict} {entry : Staged} (h : entry ∈ stage js data) :
    normalizeDomainName js (.str entry.domain) = entry.domain := by
  unfold stage at h
  rcases List.mem_append.mp h with h | h
  · obtain ⟨item, -, hitem⟩ := List.mem_filterMap.mp h
    cases item with
    | str t =>
      rw [stageItem] at hitem
      split at hitem
      · cases hitem
      · obtain rfl := Option.some.inj hitem
        exact normalizeDomainName_normalizeDomainName _
    | dict node =>
      rw [stageItem] at hitem
      split at hitem
      · cases hitem
      · obtain rfl := Option.some.inj hitem
        exact normalizeDomainName_normalizeDomainName _
    | _ => cases hitem
  · split at h
    · cases h
    · rw [List.mem_singleton.mp h]
      exact normalizeDomainName_normalizeDomainName _

/-! ### The whole stage -/

theorem fqdns_pushNew {entry : DomainEntry}
    (h : ∀ domain ∈ pushed.fqdns, domain ∈ pushed.seen) :
    ∀ domain ∈ (pushNew pushed entry).fqdns, domain ∈ (pushNew pushed entry).seen := by
  unfold pushNew
  split
  · exact h
  · intro domain hdomain
    dsimp only at hdomain
    split at hdomain
    · rcases List.mem_cons.mp hdomain with rfl | hdomain
      · exact List.mem_cons_self
      · exact List.mem_cons_of_mem _ (h domain hdomain)
    · exact List.mem_cons_of_mem _ (h domain hdomain)

theorem fqdns_foldl {entries : List DomainEntry}
    (h : ∀ domain ∈ pushed.fqdns, domain ∈ pushed.seen) :
    ∀ domain ∈ (entries.foldl pushNew pushed).fqdns,
      domain ∈ (entries.foldl pushNew pushed).seen := by
  induction entries generalizing pushed with
  | nil => exact h
  | cons entry entries ih =>
    rw [List.foldl_cons]
    exact ih (fqdns_pushNew h)

/-- The loop adds what the stage brings, one after the other. -/
theorem foldl_pushStaged {staged : List Staged}
    (hfqdns : ∀ domain ∈ pushed.fqdns, domain ∈ pushed.seen)
    (hnormal : ∀ entry ∈ staged, normalizeDomainName js (.str entry.domain) = entry.domain) :
    staged.foldl (pushStaged js) pushed = (staged.flatMap (Staged.brings js)).foldl pushNew pushed := by
  induction staged generalizing pushed with
  | nil => rfl
  | cons entry staged ih =>
    rw [List.foldl_cons, List.flatMap_cons, List.foldl_append,
      pushStaged_eq hfqdns (hnormal entry List.mem_cons_self)]
    exact ih (fqdns_foldl hfqdns) fun other hother => hnormal other (List.mem_cons_of_mem _ hother)

/-- The entries are the first ones of their domains. -/
theorem entries_foldl (entries : List DomainEntry) :
    (entries.foldl pushNew pushed).entries =
      pushed.entries ++ Lib.firsts (·.domain) pushed.seen entries := by
  induction entries generalizing pushed with
  | nil => exact (List.append_nil _).symm
  | cons entry entries ih =>
    rw [List.foldl_cons, ih, Lib.firsts]
    unfold pushNew
    split
    · rfl
    · rw [List.append_assoc]
      rfl

theorem mem_seen_foldl {entries : List DomainEntry} {domain : Text} :
    domain ∈ (entries.foldl pushNew pushed).seen ↔
      domain ∈ pushed.seen ∨ domain ∈ entries.map (·.domain) := by
  induction entries generalizing pushed with
  | nil => simp
  | cons entry entries ih =>
    rw [List.foldl_cons, ih, mem_seen_pushNew, List.map_cons, List.mem_cons, or_assoc]

/-- The entries of a catalog before they are sorted. -/
def unsorted (entries : List DomainEntry) : List DomainEntry :=
  if DEFAULT_PRIMARY_DOMAIN ∈ entries.map (·.domain) then Lib.firsts (·.domain) [] entries
  else localhostEntry :: Lib.firsts (·.domain) [] entries

/-- **The catalog that is read** has the first entry of every domain. -/
theorem parse_eq (data : Dict) :
    parseDomainCatalogFromGroupVars js data =
      (unsorted ((stage js data).flatMap (Staged.brings js))).insertionSort
        fun a b => compareEntries js a b ≤ 0 := by
  have hfold : (stage js data).foldl (pushStaged js) ⟨[], [], []⟩ =
      ((stage js data).flatMap (Staged.brings js)).foldl pushNew ⟨[], [], []⟩ :=
    foldl_pushStaged nofun fun _ => normalize_stage
  have hseen : DEFAULT_PRIMARY_DOMAIN ∈ (((stage js data).flatMap
      (Staged.brings js)).foldl pushNew ⟨[], [], []⟩).seen ↔
      DEFAULT_PRIMARY_DOMAIN ∈ ((stage js data).flatMap (Staged.brings js)).map (·.domain) :=
    mem_seen_foldl.trans (or_iff_right List.not_mem_nil)
  unfold parseDomainCatalogFromGroupVars unsorted
  dsimp only
  rw [hfold, entries_foldl, List.nil_append]
  by_cases hmem : DEFAULT_PRIMARY_DOMAIN ∈
      ((stage js data).flatMap (Staged.brings js)).map (·.domain)
  · rw [if_pos hmem, if_pos (hseen.mpr hmem)]
  · rw [if_neg hmem, if_neg fun h => hmem (hseen.mp h)]

theorem mem_unsorted {entries : List DomainEntry} {entry : DomainEntry} :
    entry ∈ unsorted entries ↔
      (entries ++ [localhostEntry]).find? (fun other => other.domain = entry.domain) =
        some entry := by
  have hfirst : entry ∈ Lib.firsts (·.domain) [] entries ↔
      entries.find? (fun other => other.domain = entry.domain) = some entry :=
    Lib.mem_firsts.trans (and_iff_right List.not_mem_nil)
  rw [List.find?_append]
  unfold unsorted
  split
  · rename_i hlocal
    rw [hfirst]
    cases hfind : entries.find? fun other => other.domain = entry.domain with
    | some other => rfl
    | none =>
      rw [Option.none_or]
      refine iff_of_false (Option.some_ne_none entry).symm fun h => ?_
      have hentry : localhostEntry = entry := by
        have := List.mem_of_find?_eq_some h
        exact (List.mem_singleton.mp this).symm
      obtain ⟨other, hother, hdomain⟩ := List.mem_map.mp hlocal
      have hno := List.find?_eq_none.mp hfind other hother
      rw [← hentry] at hno
      exact hno (decide_eq_true hdomain)
  · rename_i hlocal
    rw [List.mem_cons, hfirst]
    cases hfind : entries.find? fun other => other.domain = entry.domain with
    | some other =>
      rw [Option.some_or]
      refine or_iff_right ?_
      rintro rfl
      have hdomain : other.domain = localhostEntry.domain := by
        simpa using List.find?_some hfind
      exact hlocal (List.mem_map.mpr ⟨other, List.mem_of_find?_eq_some hfind, hdomain⟩)
    | none =>
      rw [Option.none_or, List.find?_singleton]
      constructor
      · rintro (rfl | h)
        · rfl
        · cases h
      · intro h
        split at h
        · exact Or.inl (Option.some.inj h).symm
        · cases h

/-- An entry is in the catalog exactly if it is what its domain is first brought as. -/
theorem mem_parse {data : Dict} {entry : DomainEntry} :
    entry ∈ parseDomainCatalogFromGroupVars js data ↔
      (brought js data).find? (fun other => other.domain = entry.domain) = some entry := by
  rw [parse_eq, (List.perm_insertionSort _ _).mem_iff, mem_unsorted]
  rfl

theorem offers_eq (entry : Staged) :
    entry.offers js = (entry.brings js).map fun e => (e.domain, e.status) := by
  unfold Staged.offers Staged.brings
  cases hkind : entry.kind with
  | localName =>
    dsimp only
    split
    · rfl
    · rfl
  | fqdn =>
    dsimp only
    split
    · rfl
    · rfl
  | subdomain =>
    dsimp only
    split
    · rw [DomainKind.accepts]
      by_cases hdot : '.' ∈ entry.domain
      · simp [hdot, parentEntry, Staged.own]
      · simp [hdot, parentEntry]
    · rfl

theorem offersOf_eq (data : Dict) :
    offersOf js data = (brought js data).map fun e => (e.domain, e.status) := by
  unfold offersOf brought
  rw [List.map_append, List.map_flatMap]
  refine congrArg (· ++ _) ?_
  exact List.flatMap_congr fun entry _ => offers_eq entry

/-- An entry of the catalog has the status that was offered first. -/
theorem parse_offered {data : Dict} {entry : DomainEntry}
    (h : entry ∈ parseDomainCatalogFromGroupVars js data) :
    offered (offersOf js data) entry.domain = some entry.status := by
  have hfirst := mem_parse.mp h
  unfold offered
  rw [offersOf_eq, List.find?_map, Option.map_map]
  refine (congrArg (Option.map _) hfirst).trans rfl

end Offers

end Infinito.Domains
