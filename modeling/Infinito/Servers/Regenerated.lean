import Infinito.Servers.Connections

/-!
# An inventory that is generated again

`generate_inventory` sets a server up: an inventory with its roles, its host variables, an empty
`group_vars/all.yml`. Where there is an inventory, the roles are merged into it, and nobody
loses a group (`inGroup_new`). The two other files are written as if they were new.

`settings_kept_iff` says what has to be in them for nothing to be lost: no settings for all
hosts, none for the server but those the defaults would give it anyway, and no other server in
the file of its host variables, unless it has just these.
-/

set_option autoImplicit false

namespace Infinito.Servers

open Py Lib

/-- The loader and the dumpers as the workspace uses them, and a file with nothing in it. -/
structure WorkspaceYaml (κ : Type) extends TaggedYaml κ where
  load_dumpMapping : ∀ d, load (dumpMapping (.dict d)) = some (.dict d)
  blank : κ
  load_blank : load blank = some .none

/-- `ensure_host_vars_file` of the command line, on a file of host variables and the host: it
    adds keys that are missing, or raises. -/
structure HostVarsTool {κ : Type} (yaml : Yaml κ) where
  ensure : Text → κ → Except String κ
  keeps : ∀ {host content content'}, ensure host content = .ok content' →
    ∀ item ∈ mapping yaml.load (some content), item ∈ mapping yaml.load (some content')

structure GeneratedFiles (κ : Type) extends ServerFiles κ where
  /-- `group_vars/all.yml` -/
  allYml : Option κ

/-! ## Merging roles -/

/-- The body of the loop in `_merge_inventory_roles`: whether something has changed, and the
    groups. -/
def mergeRole (aliasName : Text) (state : Bool × Dict) (roleId : Text) : Bool × Dict :=
  let roleName := strip roleId
  if roleName = [] then state
  else
    let entry := asDict (Dict.get state.2 roleName)
    let roleHosts := asDict (Dict.get entry "hosts")
    if Dict.has roleHosts aliasName then state
    else (true, Dict.set roleName
      (.dict (Dict.set "hosts" (.dict (Dict.set aliasName (.dict []) roleHosts)) entry)) state.2)

/-- `_merge_inventory_roles`: what is written, if something has changed. -/
def mergeInventoryRoles (data : Dict) (aliasName : Text) (selectedRoles : List Text) : Option Dict :=
  let allNode := asDict (Dict.get data "all")
  let hosts := asDict (Dict.get allNode "hosts")
  let (changed, children) := selectedRoles.foldl (mergeRole aliasName)
    (!Dict.has hosts aliasName, asDict (Dict.get allNode "children"))
  let hosts := if Dict.has hosts aliasName then hosts else Dict.set aliasName (.dict []) hosts
  if changed then
    some (Dict.set "all"
      (.dict (Dict.set "hosts" (.dict hosts) (Dict.set "children" (.dict children) allNode))) data)
  else none

/-- `_build_inventory` -/
def buildInventory (selectedRoles : List Text) (aliasName : Text) : Dict :=
  let children := selectedRoles.foldl (fun children roleId =>
    let roleName := strip roleId
    if roleName = [] ∨ Dict.has children roleName then children
    else Dict.set roleName
      (.dict [(.str "hosts", .dict [(.str aliasName, .dict [])])]) children) []
  [(.str "all", .dict [(.str "children", .dict children)])]

/-- `cleaned_roles` -/
def cleanedRoles (selectedRoles : List Text) : List Text :=
  selectedRoles.foldl (fun cleaned roleId =>
    let normalized := strip roleId
    if normalized = [] ∨ normalized ∈ cleaned then cleaned else cleaned ++ [normalized]) []

/-! ## Generating -/

/-- What `generate_inventory` is asked for. -/
structure GenerateRequest where
  aliasName : Text
  host : Text
  port : Option Int
  user : Text
  authMethod : Option Text
  selectedRoles : List Text

/-- The server it is for: the host, where no alias is given. -/
def GenerateRequest.target (req : GenerateRequest) : Text :=
  if strip req.aliasName = [] then strip req.host else strip req.aliasName

/-- The host variables that are written first. -/
def GenerateRequest.hostVars (req : GenerateRequest) : Dict :=
  [(.str "ansible_host", .str (strip req.host)), (.str "ansible_user", .str (strip req.user))] ++
    match req.port with
    | some port => [(.str "ansible_port", .int port)]
    | none => []

def textVal (t : Option Text) : Val := (t.map Val.str).getD .none

/-- `meta.update(…)` -/
def updatedMeta (req : GenerateRequest) (now : Text) (record : Dict) : Dict :=
  [("inventory_generated_at", Val.str now),
    ("selected_roles", .list ((cleanedRoles req.selectedRoles).map Val.str)),
    ("host", .str (strip req.host)), ("port", (req.port.map Val.int).getD .none),
    ("user", .str (strip req.user)), ("auth_method", textVal req.authMethod),
    ("host_vars_file", .str ("host_vars/".toList ++ yml (sanitizeHostFilename req.target))),
    ("alias", .str req.target)].foldl
      (fun m (item : String × Val) => Dict.set item.1.toList item.2 m) record

section
variable {κ : Type} (yaml : WorkspaceYaml κ) (tool : HostVarsTool yaml.toYaml)

/-- The inventory that a request leaves. -/
def newInventory (req : GenerateRequest) (inventory : Option κ) : Except HttpError (Option κ) :=
  let cleaned := cleanedRoles req.selectedRoles
  match inventory with
  | none => .ok (some (yaml.dump (.dict (buildInventory cleaned req.target))))
  | some _ => match loadYamlMapping yaml.toTaggedYaml "inventory.yml" inventory with
    | .error e => .error e
    | .ok data => match mergeInventoryRoles data req.target cleaned with
      | some data => .ok (some (yaml.dumpMapping (.dict data)))
      | none => .ok inventory

/-- The file of host variables, from what the tool has left: with a port it is read again, and
    written with the port in it. -/
def withPort (port : Option Int) (content : κ) : κ :=
  match port with
  | some port =>
      yaml.dump (.dict (Dict.set "ansible_port" (.int port) (mapping yaml.safeLoad (some content))))
  | none => content

/-- `generate_inventory`, up to its commit. -/
def generateInventory (req : GenerateRequest) (now : Text) :
    EStateM HttpError (GeneratedFiles κ) Unit := fun files =>
  if strip req.host = [] ∨ strip req.user = [] then
    .error ⟨400, "host and user are required"⟩ files
  else if req.selectedRoles = [] then .error ⟨400, "selected_roles is required"⟩ files
  else if req.port.any fun n => n < 1 || 65535 < n then .error ⟨400, "port out of range"⟩ files
  else match newInventory yaml req files.inventory with
  | .error e => .error e files
  | .ok inventory =>
    let path := yml (sanitizeHostFilename req.target)
    let write (content : κ) (name : Text) : Option κ :=
      if name = path then some content else files.hostVars name
    let connection := yaml.dump (.dict req.hostVars)
    match tool.ensure (strip req.host) connection with
    | .error text => .error ⟨500, "failed to apply host vars defaults: " ++ text⟩
        { files with inventory := inventory, hostVars := write connection }
    | .ok ensured => .ok () { files with
        inventory := inventory
        hostVars := write (withPort yaml req.port ensured)
        allYml := some yaml.blank
        record := updatedMeta req now files.record }

/-- The host variables that a new server gets: what the tool makes of the connection alone. -/
def freshHostVars (req : GenerateRequest) : Dict :=
  match tool.ensure (strip req.host) (yaml.dump (.dict req.hostVars)) with
  | .ok ensured => mapping yaml.load (some (withPort yaml req.port ensured))
  | .error _ => []

/-! ## The property -/

/-- The group at a path of child groups, below `all`. -/
def groupAt (node : Val) : List Text → Val
  | [] => node
  | group :: path => groupAt (Dict.get (asDict (Dict.get (asDict node) "children")) group) path

/-- An alias among the hosts of the group at a path. -/
def HasHost (node : Val) (path : List Text) (aliasName : Text) : Prop :=
  Dict.has (asDict (Dict.get (asDict (groupAt node path)) "hosts")) aliasName = true

def InGroup (inventory : Dict) (path : List Text) (aliasName : Text) : Prop :=
  HasHost (Dict.get inventory "all") path aliasName

/-- The aliases of the workspace. -/
def IsServer (inventory : Dict) (aliasName : Text) : Prop := ∃ path, InGroup inventory path aliasName

/-- The settings that a connection consists of. -/
def connectionKeys : List Val := [.str "ansible_host", .str "ansible_user", .str "ansible_port"]

/-- The inventory as a mapping. -/
def groups (files : ServerFiles κ) : Dict := mapping yaml.load files.inventory

/-- Nothing is lost when the inventory is generated again for `aliasName`. -/
structure SettingsKept (files files' : GeneratedFiles κ) (aliasName : Text) : Prop where
  all : ∀ item ∈ mapping yaml.load files.allYml, item ∈ mapping yaml.load files'.allYml
  target : ∀ item ∈ hostVarsOf yaml.toTaggedYaml files.toServerFiles aliasName,
    item.1 ∉ connectionKeys → item ∈ hostVarsOf yaml.toTaggedYaml files'.toServerFiles aliasName
  groups : ∀ other, other ≠ aliasName → ∀ path,
    InGroup (groups yaml files'.toServerFiles) path other ↔
      InGroup (groups yaml files.toServerFiles) path other
  others : ∀ other, other ≠ aliasName → IsServer (Servers.groups yaml files.toServerFiles) other →
    ∀ item, item ∈ hostVarsOf yaml.toTaggedYaml files'.toServerFiles other ↔
      item ∈ hostVarsOf yaml.toTaggedYaml files.toServerFiles other

/-- What it takes: `fresh` is what the server would get if it were new. -/
structure NothingToLose (files : GeneratedFiles κ) (aliasName : Text) (fresh : Dict) : Prop where
  all : mapping yaml.load files.allYml = []
  target : ∀ item ∈ hostVarsOf yaml.toTaggedYaml files.toServerFiles aliasName,
    item.1 ∉ connectionKeys → item ∈ fresh
  others : ∀ other, other ≠ aliasName → IsServer (Servers.groups yaml files.toServerFiles) other →
    sanitizeHostFilename other = sanitizeHostFilename aliasName →
    ∀ item, item ∈ fresh ↔ item ∈ hostVarsOf yaml.toTaggedYaml files.toServerFiles other

end

/-! ## Groups are merged -/

section Groups

variable {other aliasName : Text} {node node' : Val} {d : Dict}

/-- A host is in the same groups below two nodes. -/
def SameGroups (other : Text) (node' node : Val) : Prop :=
  ∀ path, HasHost node' path other ↔ HasHost node path other

theorem SameGroups.trans {node'' : Val} (h' : SameGroups other node'' node')
    (h : SameGroups other node' node) : SameGroups other node'' node :=
  fun path => (h' path).trans (h path)

/-- What is not a mapping has no groups, as an empty one. -/
theorem sameGroups_asDict (node : Val) : SameGroups other (.dict (asDict node)) node := by
  intro path
  cases path with
  | nil => exact Iff.rfl
  | cons group path => exact Iff.rfl

theorem sameGroups_set_hosts {hosts : Dict}
    (hhosts : Dict.has hosts other = Dict.has (asDict (Dict.get d "hosts")) other) :
    SameGroups other (.dict (Dict.set "hosts" (.dict hosts) d)) (.dict d) := by
  intro path
  cases path with
  | nil =>
    show Dict.has (asDict (Dict.get (Dict.set "hosts" (.dict hosts) d) "hosts")) other = true ↔ _
    rw [Dict.get_set_self]
    show Dict.has hosts other = true ↔ _
    rw [hhosts]
    exact Iff.rfl
  | cons group path =>
    show Dict.has (asDict (Dict.get (asDict (groupAt (Dict.get (asDict (Dict.get
      (Dict.set "hosts" (.dict hosts) d) "children")) group) path)) "hosts")) other = true ↔ _
    rw [Dict.get_set_of_ne _ (by decide)]
    exact Iff.rfl

theorem sameGroups_set_children {children : Dict}
    (hchildren : ∀ group, SameGroups other (Dict.get children group)
      (Dict.get (asDict (Dict.get d "children")) group)) :
    SameGroups other (.dict (Dict.set "children" (.dict children) d)) (.dict d) := by
  intro path
  cases path with
  | nil =>
    show Dict.has (asDict (Dict.get (Dict.set "children" (.dict children) d) "hosts")) other = true ↔ _
    rw [Dict.get_set_of_ne _ (by decide)]
    exact Iff.rfl
  | cons group path =>
    show Dict.has (asDict (Dict.get (asDict (groupAt (Dict.get (asDict (Dict.get
      (Dict.set "children" (.dict children) d) "children")) group) path)) "hosts")) other = true ↔ _
    rw [Dict.get_set_self]
    exact hchildren group path

theorem has_set_of_ne {m : Dict} {v : Val} (hne : other ≠ aliasName) :
    Dict.has (Dict.set aliasName v m) other = Dict.has m other := by
  unfold Dict.has
  rw [Dict.find_set_of_ne v hne]

/-- One role: the others stay where they are. -/
theorem sameGroups_mergeRole (hne : other ≠ aliasName) (state : Bool × Dict) (roleId group : Text) :
    SameGroups other (Dict.get (mergeRole aliasName state roleId).2 group)
      (Dict.get state.2 group) := by
  unfold mergeRole
  dsimp only
  split
  · exact fun _ => Iff.rfl
  split
  · exact fun _ => Iff.rfl
  by_cases hgroup : group = strip roleId
  · rw [hgroup, Dict.get_set_self]
    exact (sameGroups_set_hosts (has_set_of_ne hne)).trans (sameGroups_asDict _)
  · rw [Dict.get_set_of_ne _ hgroup]
    exact fun _ => Iff.rfl

theorem sameGroups_mergeRoles (hne : other ≠ aliasName) (roles : List Text) (group : Text) :
    ∀ state : Bool × Dict, SameGroups other
      (Dict.get (roles.foldl (mergeRole aliasName) state).2 group) (Dict.get state.2 group) := by
  induction roles with
  | nil => exact fun _ _ => Iff.rfl
  | cons roleId roles ih =>
    intro state
    exact (ih _).trans (sameGroups_mergeRole hne state roleId group)

/-- Nobody else loses or gains a group by the roles of a server. -/
theorem inGroup_merge {data data' : Dict} {roles : List Text} (hne : other ≠ aliasName)
    (hmerge : mergeInventoryRoles data aliasName roles = some data') (path : List Text) :
    InGroup data' path other ↔ InGroup data path other := by
  unfold mergeInventoryRoles at hmerge
  dsimp only at hmerge
  split at hmerge
  · cases hmerge
    unfold InGroup
    rw [Dict.get_set_self]
    have hchildren := sameGroups_set_children fun group => sameGroups_mergeRoles hne roles group
      (!Dict.has (asDict (Dict.get (asDict (Dict.get data "all")) "hosts")) aliasName,
        asDict (Dict.get (asDict (Dict.get data "all")) "children"))
    refine ((sameGroups_set_hosts ?_).trans (hchildren.trans (sameGroups_asDict _))) path
    rw [Dict.get_set_of_ne _ (by decide)]
    split
    · rfl
    · exact has_set_of_ne hne
  · cases hmerge

theorem inGroup_new {κ : Type} {yaml : WorkspaceYaml κ} {req : GenerateRequest}
    {inventory inventory' : Option κ} (hold : inventory.isSome = true)
    (hnew : newInventory yaml req inventory = .ok inventory') (hne : other ≠ req.target)
    (path : List Text) :
    InGroup (mapping yaml.load inventory') path other ↔
      InGroup (mapping yaml.load inventory) path other := by
  obtain ⟨content, rfl⟩ := Option.isSome_iff_exists.mp hold
  unfold newInventory at hnew
  dsimp only at hnew
  cases hdata : loadYamlMapping yaml.toTaggedYaml "inventory.yml".toList (some content) with
  | error e =>
    rw [hdata] at hnew
    cases hnew
  | ok data =>
    rw [hdata] at hnew
    dsimp only at hnew
    rw [← loadYamlMapping_eq_ok hdata]
    cases hmerge : mergeInventoryRoles data req.target (cleanedRoles req.selectedRoles) with
    | none =>
      rw [hmerge] at hnew
      cases hnew
      rw [← loadYamlMapping_eq_ok hdata]
    | some data' =>
      rw [hmerge] at hnew
      cases hnew
      have hwritten : mapping yaml.load (some (yaml.dumpMapping (.dict data'))) = data' := by
        unfold mapping
        rw [Option.bind_some, yaml.load_dumpMapping]
      rw [hwritten]
      exact inGroup_merge hne hmerge path

end Groups

/-! ## The two other files are not -/

section Exactly

variable {κ : Type} {yaml : WorkspaceYaml κ} {tool : HostVarsTool yaml.toYaml}
  {req : GenerateRequest} {now : Text} {files files' : GeneratedFiles κ}

/-- What an accepted request has written. -/
theorem generate_eq_ok (hok : generateInventory yaml tool req now files = .ok () files') :
    newInventory yaml req files.inventory = .ok files'.inventory ∧
      mapping yaml.load files'.allYml = [] ∧
      ∀ aliasName, hostVarsOf yaml.toTaggedYaml files'.toServerFiles aliasName =
        if sanitizeHostFilename aliasName = sanitizeHostFilename req.target then
          freshHostVars yaml tool req
        else hostVarsOf yaml.toTaggedYaml files.toServerFiles aliasName := by
  unfold generateInventory at hok
  dsimp only at hok
  split at hok
  · cases hok
  split at hok
  · cases hok
  split at hok
  · cases hok
  cases hnew : newInventory yaml req files.inventory with
  | error e =>
    rw [hnew] at hok
    cases hok
  | ok inventory =>
    rw [hnew] at hok
    dsimp only at hok
    cases hensure : tool.ensure (strip req.host) (yaml.dump (.dict req.hostVars)) with
    | error text =>
      rw [hensure] at hok
      cases hok
    | ok ensured =>
      rw [hensure] at hok
      cases hok
      refine ⟨rfl, ?_, fun aliasName => ?_⟩
      · unfold mapping
        rw [Option.bind_some, yaml.load_blank]
      · unfold hostVarsOf freshHostVars yml
        rw [hensure]
        dsimp only
        by_cases hname : sanitizeHostFilename aliasName = sanitizeHostFilename req.target
        · rw [if_pos hname, if_pos (congrArg (· ++ _) hname)]
        · rw [if_neg hname, if_neg fun heq => hname (List.append_cancel_right heq)]

/-- **What an inventory that is generated again keeps, exactly.** -/
theorem settings_kept_iff (hold : files.inventory.isSome = true)
    (hok : generateInventory yaml tool req now files = .ok () files') :
    SettingsKept yaml files files' req.target ↔
      NothingToLose yaml files req.target (freshHostVars yaml tool req) := by
  obtain ⟨hinventory, hall, hvars⟩ := generate_eq_ok hok
  have htarget := hvars req.target
  rw [if_pos rfl] at htarget
  constructor
  · intro hkept
    refine ⟨?_, fun item hitem hkey => ?_, fun other hne hserver hname item => ?_⟩
    · refine List.eq_nil_iff_forall_not_mem.mpr fun item hitem => ?_
      have := hkept.all item hitem
      rw [hall] at this
      cases this
    · rw [← htarget]
      exact hkept.target item hitem hkey
    · have hother := hvars other
      rw [if_pos hname] at hother
      rw [← hother]
      exact hkept.others other hne hserver item
  · intro hnothing
    refine ⟨fun item hitem => ?_, fun item hitem hkey => ?_, fun other hne path => ?_,
      fun other hne hserver item => ?_⟩
    · rw [hnothing.all] at hitem
      cases hitem
    · rw [htarget]
      exact hnothing.target item hitem hkey
    · exact inGroup_new hold hinventory hne path
    · by_cases hname : sanitizeHostFilename other = sanitizeHostFilename req.target
      · rw [hvars other, if_pos hname]
        exact hnothing.others other hne hserver hname item
      · rw [hvars other, if_neg hname]

end Exactly

section Demo

def demoYaml : WorkspaceYaml (Bool × Val) where
  toTaggedYaml := treeYaml
  load_dumpMapping _ := rfl
  blank := (true, .none)
  load_blank := rfl

def withDefault (d : Dict) : Dict :=
  if Dict.has d "SSL_ENABLED" then d else d ++ [(.str "SSL_ENABLED", .bool true)]

def demoTool : HostVarsTool demoYaml.toYaml where
  ensure _ content := .ok (content.1, .dict (withDefault (mapping demoYaml.load (some content))))
  keeps := by
    intro host content content' hok item hitem
    cases hok
    show item ∈ withDefault _
    unfold withDefault
    split
    · exact hitem
    · exact List.mem_append_left _ hitem

def demoRequest : GenerateRequest :=
  ⟨"srv", "10.0.0.1", some 22, "root", some "key".toList, ["web-app-keycloak".toList]⟩

/-- A workspace with one server, what its host variables are, and the settings for all hosts. -/
def oneServer (hostVars allYml : Dict) : GeneratedFiles (Bool × Val) where
  hostVars name := if name = "srv.yml".toList then some (true, .dict hostVars) else none
  inventory := some (true, .dict [(.str "all", .dict [(.str "hosts",
    .dict [(.str "srv", .dict [])])])])
  record := []
  allYml := some (true, .dict allYml)

/-- Nothing is lost by the request, if it is accepted. -/
def KeepsSettings (files : GeneratedFiles (Bool × Val)) : Prop :=
  ∀ files', generateInventory demoYaml demoTool demoRequest "now" files = .ok () files' →
    SettingsKept demoYaml files files' demoRequest.target

theorem accepted (hostVars allYml : Dict) : ∃ files',
    generateInventory demoYaml demoTool demoRequest "now" (oneServer hostVars allYml) =
      .ok () files' :=
  ⟨_, rfl⟩

/-- The domains of a workspace are gone when its inventory is generated again. -/
theorem domains_lost :
    ¬ KeepsSettings (oneServer [] [(.str "INFINITO_DOMAINS", .list [.str "example.org"])]) := by
  intro hkeeps
  obtain ⟨files', hok⟩ := accepted [] [(.str "INFINITO_DOMAINS", .list [.str "example.org"])]
  have hlost := (hkeeps files' hok).all _ List.mem_cons_self
  rw [(generate_eq_ok hok).2.1] at hlost
  cases hlost

theorem no_host_below_none (other : Text) : ∀ path, ¬ HasHost .none path other
  | [] => Bool.false_ne_true
  | _ :: path => no_host_below_none other path

theorem only_server {hostVars allYml : Dict} {other : Text}
    (hserver : IsServer (groups demoYaml (oneServer hostVars allYml).toServerFiles) other) :
    other = "srv".toList := by
  obtain ⟨path, hpath⟩ := hserver
  cases path with
  | nil =>
    obtain ⟨v, hv⟩ := Dict.has_iff.mp hpath
    rcases List.mem_singleton.mp hv with heq
    cases heq
    rfl
  | cons group path => exact absurd hpath (no_host_below_none other path)

theorem settings_kept_iff_connection : ∃ files',
    generateInventory demoYaml demoTool demoRequest "now" (oneServer
        [(.str "ansible_host", .str "10.0.0.7"), (.str "SSL_ENABLED", .bool true)] []) =
      .ok () files' ∧
      SettingsKept demoYaml (oneServer [(.str "ansible_host", .str "10.0.0.7"),
        (.str "SSL_ENABLED", .bool true)] []) files' demoRequest.target := by
  obtain ⟨files', hok⟩ := accepted
    [(.str "ansible_host", .str "10.0.0.7"), (.str "SSL_ENABLED", .bool true)] []
  refine ⟨files', hok, (settings_kept_iff rfl hok).mpr ⟨rfl, ?_, ?_⟩⟩
  · intro item hitem hkey
    rcases List.mem_cons.mp hitem with rfl | hitem
    · exact absurd List.mem_cons_self hkey
    · rcases List.mem_singleton.mp hitem with rfl
      have hfresh : freshHostVars demoYaml demoTool demoRequest =
          [(.str "ansible_host", .str "10.0.0.1"), (.str "ansible_user", .str "root"),
            (.str "ansible_port", .int 22), (.str "SSL_ENABLED", .bool true)] := rfl
      rw [hfresh]
      exact List.mem_of_mem_getLast? rfl
  · intro other hne hserver
    exact absurd (only_server hserver) hne

end Demo

end Infinito.Servers
