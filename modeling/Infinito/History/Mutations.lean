import Infinito.History.Operations
import Infinito.Py.Value

/-!
# The operations on documents

`set_primary_domain`, `upsert_server_connection` and `generate_inventory` load YAML mappings,
change them and write them back, and commit as the operations on files do. `place_order` and
`transition_domain_status` do the same, but for the commit.

The documents are values; how a text becomes one and a value a text is the YAML library's,
and `Documents` has it as functions.
-/

set_option autoImplicit false

namespace Infinito.History

open Py Lib Workspace

/-! ## Documents -/

/-- What the operations take from the YAML and JSON libraries and from the repository of the
    roles. -/
structure Documents where
  /-- `yaml.safe_load`, unless it raises -/
  safeLoad : Text → Option Val
  safeDump : Val → Text
  /-- `load_workspace_yaml_document`, or what it raises -/
  load : Text → Except String Val
  /-- `yaml.dump` with the dumper of the workspaces -/
  dump : Val → Text
  /-- `json.loads`, unless it raises, and `json.dumps` -/
  loadJson : Text → Option Val
  dumpJson : Val → Text
  /-- `_apply_cli_host_vars_defaults` on the file, for a host -/
  hostVarsDefaults : Text → Bytes → Except HttpError Bytes
  casing : Casing

/-- `path.read_text(encoding="utf-8")`, nothing where a byte does not decode. -/
def decodeStrict (bs : Bytes) : Option Text :=
  if encode (decode bs) = bs then some (readText bs) else none

/-- `dict.pop(key, None)`, for what it leaves -/
def erase (key : Text) (m : Dict) : Dict := m.filter fun item => !isKey key item.1

/-- `value if isinstance(value, dict) else {}` -/
def dictOr : Val → Dict
  | .dict items => items
  | _ => []

/-- `x or y` -/
def either (x y : Val) : Val := if x.truth then x else y

/-- `str(value or "")` -/
def textOr (v : Val) : Text := (either v (.str [])).text

/-- `value or None`, on a text -/
def textOrNone (t : Text) : Val := if t = [] then .none else .str t

/-- `str(value or "").strip() or None` -/
def strippedOrNone (v : Val) : Val := textOrNone (strip (textOr v))

variable (h : Host) (docs : Documents)

/-- The path of a file or directory under the root. -/
def under (names : List FileName) : Path := h.base ++ names

def inventoryName : FileName := fileName "inventory.yml" (Eq.refl true)
def groupVarsDir : FileName := fileName "group_vars" (Eq.refl true)
def allName : FileName := fileName "all.yml" (Eq.refl true)
def ordersDir : FileName := fileName "orders" (Eq.refl true)
def secretsDir : FileName := fileName "secrets" (Eq.refl true)
def keysDir : FileName := fileName "keys" (Eq.refl true)

/-- `_load_yaml_mapping` -/
def loadYamlMapping (p : Path) : Fs Unit Dict := do
  if ← isFile p then
    let loaded ← tryCatch
      (do
        let bytes ← readBytes p
        orRaise ((docs.load (readText bytes)).mapError .raised))
      fun exc => httpError 400 ("invalid YAML in /" ++ String.ofList (posix p) ++ ": " ++ exc.text)
    match loaded with
    | .none => pure []
    | .dict items => pure items
    | _ => httpError 400 ("YAML root must be a mapping in /" ++ String.ofList (posix p))
  else pure []

/-- `_load_meta` -/
def loadMeta : Fs Unit Val := do
  let record ← existingBytes h.metaPath
  return (record.bind decodeStrict).bind docs.loadJson |>.getD (.dict [])

/-- `_write_meta` -/
def writeMeta (uuid : FileName) (record : Val) : Fs Unit Unit :=
  atomicWriteText uuid h.metaPath (docs.dumpJson record)

/-! ## Servers -/

/-- `_ensure_inventory_alias`, on the inventory: nothing when the host is there. -/
def withHost (hostAlias : Text) (data : Dict) : Option Dict :=
  let allNode := dictOr (data.get "all")
  let hosts := dictOr (Dict.get allNode "hosts")
  if Dict.has hosts hostAlias then none
  else
    let hosts := Dict.set hostAlias (.dict []) hosts
    some (Dict.set "all" (.dict (Dict.set "hosts" (.dict hosts) allNode)) data)

/-- `_ensure_inventory_alias` -/
def ensureInventoryAlias (uuid : FileName) (hostAlias : Text) : Fs Unit Unit := do
  let data ← loadYamlMapping docs (under h [inventoryName])
  match withHost hostAlias data with
  | none => pure ()
  | some changed => atomicWriteText uuid (under h [inventoryName]) (docs.dump (.dict changed))

/-- The file of a host, by its alias or address. -/
def hostVarsFile (host : Text) : Path := under h [hostVarsDir, hostVarsName host]

/-- The end that the changes of a server share: its file is written, and the inventory has
    the host. -/
def writeServer (uuids : Nat → FileName) (hostAlias : Text) (data : Dict) : Fs Unit Unit := do
  safeMkdir (hostVarsFile h hostAlias).dropLast
  atomicWriteText (uuids 0) (hostVarsFile h hostAlias) (docs.dump (.dict data))
  ensureInventoryAlias h docs (uuids 1) hostAlias

/-- `set_primary_domain`, up to the commit. -/
def setPrimaryDomain (uuids : Nat → FileName) (hostAlias : Text) (primaryDomain : Option Text) :
    Fs Unit (Text × Option Metadata) := do
  ensure h
  let hostAlias := strip hostAlias
  if hostAlias = [] then httpError 400 "alias is required"
  else
    let data ← loadYamlMapping docs (hostVarsFile h hostAlias)
    let changed := match stripOrNone primaryDomain with
      | some domain => Dict.set "DOMAIN_PRIMARY" (.str domain) data
      | none => erase "DOMAIN_PRIMARY" data
    writeServer h docs uuids hostAlias changed
    return ("context: set primary domain (".toList ++ hostAlias ++ [')'], some ⟨some hostAlias, none⟩)

/-- `upsert_server_connection`, up to the commit. -/
def upsertServerConnection (uuids : Nat → FileName) (hostAlias host user : Text) (port : Option Int) :
    Fs Unit (Text × Option Metadata) := do
  ensure h
  let hostAlias := strip hostAlias
  if hostAlias = [] then httpError 400 "alias is required"
  else if strip host = [] ∨ strip user = [] then httpError 400 "host and user are required"
  else if port.any (fun n => n < 1 || 65535 < n) then httpError 400 "port out of range"
  else
    let data ← loadYamlMapping docs (hostVarsFile h hostAlias)
    let data := Dict.set "ansible_user" (.str (strip user))
      (Dict.set "ansible_host" (.str (strip host)) data)
    let data := match port with
      | some n => Dict.set "ansible_port" (.int n) data
      | none => data
    writeServer h docs uuids hostAlias data
    return ("context: update server connection (".toList ++ hostAlias ++ [')'],
      some ⟨some hostAlias, none⟩)

/-! ## Generating the inventory -/

/-- `WorkspaceGenerateIn` -/
structure GenerateIn where
  hostAlias : Option Text
  host : Text
  port : Option Int
  user : Text
  authMethod : Option Text
  selectedRoles : List Text

/-- The roles, stripped and each once. -/
def cleanedRoles : List Text → List Text → List Text
  | _, [] => []
  | seen, role :: roles =>
      let role := strip role
      if role = [] ∨ role ∈ seen then cleanedRoles seen roles
      else role :: cleanedRoles (role :: seen) roles

/-- `_build_inventory` -/
def buildInventory (roles : List Text) (hostAlias : Text) : Val :=
  let hosts : Val := .dict [(.str "hosts", .dict [(.str hostAlias, .dict [])])]
  let children := (cleanedRoles [] roles).map fun role => (Val.str role, hosts)
  .dict [(.str "all", .dict [(.str "children", .dict children)])]

/-- One role in `_merge_inventory_roles`: the groups, and whether they changed. -/
def mergeRole (hostAlias role : Text) (children : Dict) : Dict × Bool :=
  match children.get role with
  | .dict entry => match Dict.get entry "hosts" with
    | .dict hosts =>
        if Dict.has hosts hostAlias then (children, false)
        else
          let hosts := Dict.set hostAlias (.dict []) hosts
          (Dict.set role (.dict (Dict.set "hosts" (.dict hosts) entry)) children, true)
    | _ =>
        let hosts : Dict := [(.str hostAlias, .dict [])]
        (Dict.set role (.dict (Dict.set "hosts" (.dict hosts) entry)) children, true)
  | _ =>
      let hosts : Dict := [(.str hostAlias, .dict [])]
      (Dict.set role (.dict [(.str "hosts", .dict hosts)]) children, true)

def mergeRoles (hostAlias : Text) : List Text → Dict → Dict × Bool
  | [], children => (children, false)
  | role :: roles, children =>
      if strip role = [] then mergeRoles hostAlias roles children
      else
        let (children, changed) := mergeRole hostAlias (strip role) children
        let (children, others) := mergeRoles hostAlias roles children
        (children, changed || others)

/-- `_merge_inventory_roles`, on the inventory: nothing when it stays as it is. -/
def mergedInventory (hostAlias : Text) (roles : List Text) (data : Dict) : Option Dict :=
  let allNode := dictOr (data.get "all")
  let hosts := dictOr (Dict.get allNode "hosts")
  let known := Dict.has hosts hostAlias
  let hosts := if known then hosts else Dict.set hostAlias (.dict []) hosts
  let (children, changed) := mergeRoles hostAlias roles (dictOr (Dict.get allNode "children"))
  if !known || changed then
    let allNode := Dict.set "hosts" (.dict hosts) (Dict.set "children" (.dict children) allNode)
    some (Dict.set "all" (.dict allNode) data)
  else none

/-- The inventory in `generate_inventory`. -/
def writeInventory (uuid : FileName) (hostAlias : Text) (roles : List Text) : Fs Unit Unit := do
  let path := under h [inventoryName]
  if ← pathExists path then
    let data ← loadYamlMapping docs path
    match mergedInventory hostAlias roles data with
    | none => pure ()
    | some changed => atomicWriteText uuid path (docs.dump (.dict changed))
  else atomicWriteText uuid path (docs.safeDump (buildInventory roles hostAlias))

/-- The port in the file of the host, which the defaults may have changed. -/
def writePort (uuid : FileName) (path : Path) (port : Int) : Fs Unit Unit := do
  let existing ← existingBytes path
  let data := (existing.bind fun bytes => docs.safeLoad (readText bytes)).getD .none
  match either data (.dict []) with
  | .dict items =>
      atomicWriteText uuid path (docs.safeDump (.dict (Dict.set "ansible_port" (.int port) items)))
  | _ => throw (.raised "object does not support item assignment")

/-- The file of the host in `generate_inventory`. -/
def writeHostVars (uuids : Nat → FileName) (path : Path) (host user : Text) (port : Option Int) :
    Fs Unit Unit := do
  let connection : Dict := [(.str "ansible_host", .str host), (.str "ansible_user", .str user)]
  let truthyPort := port.filter (· ≠ 0)
  let written := match truthyPort with
    | some n => Dict.set "ansible_port" (.int n) connection
    | none => connection
  atomicWriteText (uuids 1) path (docs.safeDump (.dict written))
  let bytes ← readBytes path
  let bytes ← orRaise ((docs.hostVarsDefaults host bytes).mapError .http)
  exec (.write path bytes)
  match truthyPort with
  | some n => writePort docs (uuids 2) path n
  | none => pure ()

/-- `generate_inventory`, up to the commit. -/
def generateInventory (uuids : Nat → FileName) (now : Text) (payload : GenerateIn) :
    Fs Unit (Text × Option Metadata) := do
  ensure h
  safeMkdir (under h [hostVarsDir])
  safeMkdir (under h [groupVarsDir])
  let host := strip payload.host
  let user := strip payload.user
  if host = [] ∨ user = [] then httpError 400 "host and user are required"
  else if payload.selectedRoles = [] then httpError 400 "selected_roles is required"
  else if payload.port.any (fun n => n < 1 || 65535 < n) then httpError 400 "port out of range"
  else
    let hostAlias := (stripOrNone payload.hostAlias).getD host
    let roles := cleanedRoles [] payload.selectedRoles
    writeInventory h docs (uuids 0) hostAlias roles
    writeHostVars docs uuids (hostVarsFile h hostAlias) host user payload.port
    atomicWriteText (uuids 3) (under h [groupVarsDir, allName]) []
    match ← loadMeta h docs with
    | .dict record =>
        let entries : Dict :=
          [(.str "inventory_generated_at", .str now),
            (.str "selected_roles", .list (roles.map .str)),
            (.str "host", .str host), (.str "port", payload.port.elim .none .int),
            (.str "user", .str user), (.str "auth_method", payload.authMethod.elim .none .str),
            (.str "host_vars_file", .str (posix [hostVarsDir, hostVarsName hostAlias])),
            (.str "alias", .str hostAlias)]
        let record := entries.foldl (fun record item => Dict.set item.1.text item.2 record) record
        writeMeta h docs (uuids 4) (.dict record)
        safeMkdir (under h [secretsDir])
        safeMkdir (under h [secretsDir, keysDir])
        return ("bulk: inventory generation", none)
    | _ => throw (.raised "object has no attribute 'update'")

/-! ## Domains -/

def allowedStatuses : List Text := ["reserved", "ordered", "active", "disabled", "failed", "cancelled"]

/-- `ALLOWED_TRANSITIONS` -/
def allowedTransitions (status : Text) : List Text :=
  if status = "reserved".toList then ["ordered"]
  else if status = "ordered".toList then ["active", "failed", "cancelled"]
  else if status = "active".toList then ["disabled"]
  else if status = "disabled".toList then ["active"]
  else if status = "failed".toList then ["ordered", "cancelled"]
  else []

/-- `_normalize_domain` and `_normalize_status` -/
def normalized (v : Val) : Text := docs.casing.lower (strip (textOr v))

/-- Whether an entry of the catalog is that of a domain. -/
def isDomain (domain : Text) : Val → Bool
  | .str t => normalized docs (.str t) = domain
  | .dict entry => normalized docs (either (Dict.get entry "domain") (Dict.get entry "value")) = domain
  | _ => false

def currentStatus : Val → Text
  | .dict entry => (orNone (normalized docs (Dict.get entry "status"))).getD "active"
  | _ => "active"

/-- The entry of a domain in its new status. -/
def movedEntry (now domain status : Text) (orderId : Option Text) (raw : Val) : Dict :=
  let kind : Text := if '.' ∈ domain then "fqdn" else "local"
  let entry : Dict := match raw with
    | .str _ => [(.str "type", .str kind), (.str "domain", .str domain)]
    | .dict entry => Dict.set "domain" (.str domain) entry
    | _ => [(.str "type", .str "fqdn"), (.str "domain", .str domain)]
  let entry := Dict.set "status_changed_at" (.str now) (Dict.set "status" (.str status) entry)
  match truthy orderId with
  | some order => if status = "ordered".toList then
        Dict.set "order_id" (textOrNone (strip order)) entry
      else if status ∈ ["active".toList, "disabled"] then erase "order_id" entry else entry
  | none => if status ∈ ["active".toList, "disabled"] then erase "order_id" entry else entry

/-- `_all_yml_path` -/
def allYmlPath : Fs Unit Path := do
  ensure h
  safeMkdir (under h [groupVarsDir])
  return under h [groupVarsDir, allName]

/-- What `yaml.safe_load` makes of a file, a mapping or else an empty one. -/
def safeMapping (p : Path) : Fs Unit Dict := do
  let existing ← existingBytes p
  return dictOr (((existing.bind decodeStrict).bind docs.safeLoad).getD .none)

/-- `_write_all_yml` -/
def writeAllYml (uuid : FileName) (data : Dict) : Fs Unit Unit := do
  let path ← allYmlPath h
  orFail "failed to write group_vars/all.yml" (atomicWriteText uuid path (docs.safeDump (.dict data)))

/-- `transition_domain_status` -/
def transitionDomainStatus (uuid : FileName) (now domain nextStatus : Text) (orderId : Option Text) :
    Fs Unit Unit := do
  let target := normalized docs (.str domain)
  let status := normalized docs (.str nextStatus)
  if target = [] then httpError 400 "domain is required"
  else if status ∉ allowedStatuses then
    httpError 400 ("unsupported status: " ++ String.ofList (quoteText nextStatus))
  else
    let path ← allYmlPath h
    let data ← safeMapping docs path
    let missing : HttpError := ⟨404, "domain not found: " ++ String.ofList target⟩
    match data.get "INFINITO_DOMAINS" with
    | .list catalog => match catalog.find? (isDomain docs target) with
      | none => throw (.http missing)
      | some raw =>
        let current := currentStatus docs raw
        if status ∉ allowedTransitions current ∧ status ≠ current then
          httpError 400 ("transition " ++ String.ofList (quoteText current) ++ " -> " ++
            String.ofList (quoteText status) ++ " is not allowed")
        else
          let entry := Val.dict (movedEntry now target status orderId raw)
          let index := catalog.findIdx (isDomain docs target)
          writeAllYml h docs uuid
            (Dict.set "INFINITO_DOMAINS" (.list (catalog.set index entry)) data)
    | _ => throw (.http missing)

/-! ## Orders -/

/-- `_slugify_username` -/
def slugifyUsername (seed : Text) : Text :=
  let cleaned := docs.casing.lower (strip seed)
  let cleaned := cleaned.takeWhile (· ≠ '@')
  (cleaned.filter isRoleChar).take 32

/-- `_split_full_name` -/
def splitFullName (fullName : Text) : Text × Text :=
  let words := (fullName.splitOnP isSpace).filter (· ≠ [])
  (words.head?.getD [], List.intercalate [' '] words.tail)

/-- The users of a workspace by their names. -/
def usersMap : Val → Dict
  | .dict users => users
  | .list entries => entries.foldl (fun users entry => match entry with
      | .dict e => if (Dict.get e "username").truth then
            Dict.set (Dict.get e "username").text (.dict e) users
          else users
      | _ => users) []
  | _ => []

/-- `_ensure_workspace_user_for_order` -/
def ensureWorkspaceUser (uuid : FileName) (fullName email : Text) : Fs Unit Text := do
  let username := slugifyUsername docs ((orNone email).getD fullName)
  if username = [] then pure []
  else
    let path ← allYmlPath h
    let existing ← safeMapping docs path
    let users := usersMap (existing.get "users")
    if Dict.has users username then pure username
    else
      let (first, last) := splitFullName fullName
      let user : Dict :=
        [(.str "username", .str username), (.str "firstname", .str first),
          (.str "lastname", .str last), (.str "email", .str (strip email))]
      let changed := Dict.set "users" (.dict (Dict.set username (.dict user) users)) existing
      orFail "failed to write group_vars/all.yml"
        (atomicWriteText uuid path (docs.safeDump (.dict changed)))
      return username

/-- The record of an order. -/
def orderRecord (workspaceId orderId now : Text) (payload : Dict) (owner : Option Text)
    (ownerEmail : Option Text) (username : Text) : Dict :=
  let field (key : Text) : Val := strippedOrNone (payload.get key)
  -- `str(payload.get(key, default))`, of a payload in which every key is given
  let choice (key : Text) : Val := .str (payload.get key).text
  let fullName := strip (textOr (payload.get "full_name"))
  let email := strip (textOr (payload.get "email"))
  [(.str "order_id", .str orderId), (.str "workspace_id", .str workspaceId),
    (.str "created_at", .str now), (.str "owner_user_id", owner.elim .none .str),
    (.str "owner_email", .str ((truthy ownerEmail).getD email)),
    (.str "workspace_username", textOrNone username),
    (.str "contact", .dict
      [(.str "full_name", .str fullName), (.str "email", .str email),
        (.str "company", field "company"), (.str "phone", field "phone")]),
    (.str "billing_address", .dict
      [(.str "street", field "street"), (.str "postal_code", field "postal_code"),
        (.str "city", field "city"), (.str "country", field "country"),
        (.str "vat_id", field "vat_id")]),
    (.str "billing", .dict
      [(.str "cycle", choice "billing_cycle"), (.str "payment_method", choice "payment_method")]),
    (.str "notes", field "notes"), (.str "items", payload.get "items"),
    (.str "terms_accepted", .bool (payload.get "terms_accepted").truth)]

/-- `_new_order_id`, as the name of a file. -/
def orderFile (h : Host) (orderId : FileName) : Path :=
  under h [ordersDir, fileName (orderId.text ++ ['.', 'y', 'm', 'l']) (by
    have hlen {t : Text} : t.length ≤ 2 → orderId.text ++ ['.', 'y', 'm', 'l'] ≠ t := by
      rintro ht rfl
      rw [List.length_append] at ht
      simp at ht
    have h0 := hlen (show ([] : Text).length ≤ 2 by decide)
    have h1 := hlen (show ['.'].length ≤ 2 by decide)
    have h2 := hlen (show ['.', '.'].length ≤ 2 by decide)
    simp [isFileName, h1, h2, orderId.no_slash])]

/-- `place_order` -/
def placeOrder (uuids : Nat → FileName) (workspaceId : Text) (orderId : FileName) (now : Text)
    (payload : Dict) (ownerId ownerEmail : Option Text) : Fs Unit Unit := do
  if strip (textOr (payload.get "full_name")) = [] then httpError 400 "full_name is required"
  else if strip (textOr (payload.get "email")) = [] then httpError 400 "email is required"
  else match payload.get "items" with
    | .list (_ :: _) => do
      ensure h
      safeMkdir (under h [ordersDir])
      let owner := stripOrNone ownerId
      let fullName := strip (textOr (payload.get "full_name"))
      let email := strip (textOr (payload.get "email"))
      let username : Text ← match owner with
        | some _ => pure []
        | none => ensureWorkspaceUser h docs (uuids 0) fullName email
      let record := orderRecord workspaceId orderId.text now payload owner ownerEmail username
      orFail "failed to write order file"
        (atomicWriteText (uuids 1) (orderFile h orderId) (docs.safeDump (.dict record)))
      -- the stamp on the metadata is best effort
      tryCatch
        (do
          ensure h
          match ← loadMeta h docs with
          | .dict record =>
              let record := Dict.set "updated_at" (.str now) (Dict.set "last_order_at" (.str now) record)
              writeMeta h docs (uuids 2) (.dict record)
          | _ => throw (.raised "object does not support item assignment"))
        fun _ => pure ()
    | _ => httpError 400 "items must be a non-empty list of order entries"

end Infinito.History
