import Infinito.Py.Yaml
import Infinito.Lib.Effect
import Mathlib.Data.List.Sort
import Mathlib.Data.List.Lex
import Mathlib.Data.Char

/-!
# Server connections, written and read

`upsert_server_connection` writes host and user of a server into a file of `host_vars`, and
the server into the inventory. `UsersService.eligibility` reads both, to say which servers
of the keycloak role can be reached.

The two do not agree on the name of the file: one turns every character that is not
`A-Za-z0-9._-` into an underscore, the other drops what is neither alphanumeric nor one of
`-_.`. Nor on the loader: one takes any tag, for the other a file with an unknown tag is
empty. `reachable_iff` says when a server that was configured is reported reachable.
-/

set_option autoImplicit false

namespace Infinito.Servers

open Py Lib

structure ServerFiles (κ : Type) where
  /-- `host_vars/`, by file name -/
  hostVars : Text → Option κ
  /-- `inventory.yml` -/
  inventory : Option κ
  /-- `workspace.json` -/
  record : Dict

def yml (name : Text) : Text := name ++ ".yml".toList

/-! ## Writing -/

def isHostChar (c : Char) : Bool := c.isAlphanum || c = '.' || c = '_' || c = '-'

/-- `_sanitize_host_filename` -/
def sanitizeHostFilename (host : Text) : Text :=
  let cleaned := (strip host).map fun c => if isHostChar c then c else '_'
  if cleaned = [] then "host" else cleaned

structure Connection where
  aliasName : Text
  hostVarsPath : Text
  host : Text
  user : Text
  port : Option Int

variable {κ : Type} (yaml : TaggedYaml κ)

/-- `_load_yaml_mapping`, the text of the parser's exception aside. -/
def loadYamlMapping (path : Text) (file : Option κ) : Except HttpError Dict :=
  match file with
  | none => .ok []
  | some content => match yaml.load content with
    | none => .error ⟨400, "invalid YAML in " ++ String.ofList path⟩
    | some .none => .ok []
    | some (.dict d) => .ok d
    | some _ => .error ⟨400, "YAML root must be a mapping in " ++ String.ofList path⟩

/-- The host variables with the connection set. -/
def connected (existing : Dict) (host user : Text) (port : Option Int) : Dict :=
  let existing := Dict.set "ansible_user" (.str user) (Dict.set "ansible_host" (.str host) existing)
  match port with
  | some n => Dict.set "ansible_port" (.int n) existing
  | none => existing

def asDict : Val → Dict
  | .dict d => d
  | _ => []

/-- `_ensure_inventory_alias` on the inventory: what is written, if the alias is not there. -/
def withAlias (data : Dict) (aliasName : Text) : Option Dict :=
  let allNode := asDict (Dict.get data "all")
  let hosts := asDict (Dict.get allNode "hosts")
  if Dict.has hosts aliasName then none
  else some (Dict.set "all" (.dict (Dict.set "hosts" (.dict (Dict.set aliasName (.dict []) hosts))
    allNode)) data)

/-- `upsert_server_connection`, up to its commit. -/
def upsertServerConnection (aliasName host user : Text) (port : Option Int) (files : ServerFiles κ) :
    Except HttpError (Connection × ServerFiles κ) := do
  let aliasValue := strip aliasName
  if aliasValue = [] then throw ⟨400, "alias is required"⟩
  let hostValue := strip host
  let userValue := strip user
  if hostValue = [] ∨ userValue = [] then throw ⟨400, "host and user are required"⟩
  if port.any fun n => n < 1 || 65535 < n then throw ⟨400, "port out of range"⟩
  let name := yml (sanitizeHostFilename aliasValue)
  let path : Text := "host_vars/" ++ name
  let existing ← loadYamlMapping yaml path (files.hostVars name)
  let written := yaml.dumpMapping (.dict (connected existing hostValue userValue port))
  let data ← loadYamlMapping yaml "inventory.yml" files.inventory
  let inventory := match withAlias data aliasValue with
    | none => files.inventory
    | some data => some (yaml.dumpMapping (.dict data))
  return (⟨aliasValue, path, hostValue, userValue, port⟩,
    { files with
      hostVars := fun other => if other = name then some written else files.hostVars other
      inventory := inventory })

/-! ## Reading -/

/-- `str.isalnum` of a character, `beyond` for those that are not ASCII. -/
def isAlnum (beyond : Char → Bool) (c : Char) : Bool :=
  if c.toNat < 128 then c.isAlphanum else beyond c

/-- `_sanitize_alias` -/
def sanitizeAlias (beyond : Char → Bool) (aliasName : Text) : Text :=
  let cleaned := strip (aliasName.filter fun c => isAlnum beyond c || c = '-' || c = '_' || c = '.')
  if cleaned = [] then "server" else cleaned

/-- `str(value or "").strip()` -/
def stripped (v : Val) : Text := if v.truth then strip v.text else []

/-- `out[key] = value` on a dictionary with text keys. -/
def put {β : Type} (key : Text) (value : β) : List (Text × β) → List (Text × β)
  | [] => [(key, value)]
  | item :: out => if item.1 = key then (key, value) :: out else item :: put key value out

/-- The aliases of a role: `sorted(set(aliases))` -/
def roleAliases (node : Val) : List Text :=
  let keys := (asDict (Dict.get (asDict node) "hosts")).map fun item => stripped item.1
  (keys.filter (· ≠ [])).dedup.insertionSort (· ≤ ·)

/-- `_inventory_roles` -/
def inventoryRoles (inventory : Dict) : List (Text × List Text) :=
  (asDict (Dict.get (asDict (Dict.get inventory "all")) "children")).foldl (fun out item =>
    let roleKey := stripped item.1
    if roleKey = [] then out else put roleKey (roleAliases item.2) out) []

/-- `roles.get("web-app-keycloak", [])` -/
def keycloakAliases (inventory : Dict) : List Text :=
  ((inventoryRoles inventory).lookup "web-app-keycloak".toList).getD []

variable (beyond : Char → Bool)

/-- `_server_connection_ready` -/
def serverConnectionReady (files : ServerFiles κ) (aliasName : Text) : Bool :=
  let data := mapping yaml.safeLoad (files.hostVars (yml (sanitizeAlias beyond aliasName)))
  stripped (Dict.get data "ansible_host") ≠ [] && stripped (Dict.get data "ansible_user") ≠ []

structure Eligibility where
  canManage : Bool
  setupCompleted : Bool
  ldapPresent : Bool
  keycloakServers : List Text
  reachableServers : List Text
  reasons : List String

/-- `UsersService.eligibility` -/
def eligibility (files : ServerFiles κ) : Eligibility :=
  let inventory := mapping yaml.safeLoad files.inventory
  let setupState := lower (stripped (Dict.get files.record "state"))
  let setupCompleted := setupState = "deployed".toList || setupState = "finished".toList
  let aliases := keycloakAliases inventory
  let ldapPresent :=
    (inventoryRoles inventory).any (fun role => role.1.tails.any ("ldap".toList.isPrefixOf ·)) ||
      !aliases.isEmpty
  let reachable := aliases.filter (serverConnectionReady yaml beyond files)
  let reasons := (if setupCompleted then [] else ["setup not completed"]) ++
    (if aliases.isEmpty then ["no keycloak-enabled server found"] else []) ++
    (if ldapPresent then [] else ["ldap backend not detected"]) ++
    (if !aliases.isEmpty && reachable.isEmpty then ["ssh connection details are missing"] else [])
  ⟨reasons.isEmpty, setupCompleted, ldapPresent, aliases, reachable, reasons⟩

/-! ## The name of the file -/

section Names

variable {c : Char} {a : Text}

theorem kept_of_isHostChar {beyond : Char → Bool} (hc : isHostChar c = true) :
    (isAlnum beyond c || c = '-' || c = '_' || c = '.') = true := by
  simp only [isHostChar, Bool.or_eq_true, decide_eq_true_eq] at hc
  rcases hc with ((hc | rfl) | rfl) | rfl
  · have hascii : c.toNat < 128 := Nat.lt_of_le_of_lt (isAlphanum_bounds hc).2 (by decide)
    simp [isAlnum, hascii, hc]
  · simp
  · simp
  · simp

theorem strip_sublist (t : Text) : (strip t).Sublist t :=
  (List.rdropWhile_prefix _ _).sublist.trans (List.dropWhile_sublist _)

/-- The two names of the file are one if the alias is made of characters that a host name
    has, and only then. -/
theorem names_agree_iff (beyond : Char → Bool) (hstrip : strip a = a) (hne : a ≠ []) :
    sanitizeAlias beyond a = sanitizeHostFilename a ↔ ∀ c ∈ a, isHostChar c = true := by
  have hhost : sanitizeHostFilename a = a.map fun c => if isHostChar c then c else '_' := by
    unfold sanitizeHostFilename
    rw [hstrip]
    exact if_neg (by simpa using hne)
  rw [hhost]
  constructor
  · intro heq c hc
    unfold sanitizeAlias at heq
    dsimp only at heq
    split at heq
    · by_contra hbad
      -- nothing of the alias was kept, so the name is the fallback, which has no underscore
      have hmem : '_' ∈ a.map fun c => if isHostChar c then c else '_' :=
        List.mem_map.mpr ⟨c, hc, if_neg hbad⟩
      rw [← heq] at hmem
      revert hmem
      decide
    · have hsub := (strip_sublist (a.filter fun c =>
        isAlnum beyond c || c = '-' || c = '_' || c = '.')).trans List.filter_sublist
      -- a part of the alias as long as the alias is all of it
      have hself := hsub.eq_of_length (by rw [heq, List.length_map])
      rw [← hself, heq] at hc
      obtain ⟨d, -, rfl⟩ := List.mem_map.mp hc
      split
      · assumption
      · decide
  · intro hall
    have hkeep : (a.filter fun c => isAlnum beyond c || c = '-' || c = '_' || c = '.') = a :=
      List.filter_eq_self.mpr fun c hc => kept_of_isHostChar (hall c hc)
    have hmap : (a.map fun c => if isHostChar c then c else '_') = a := by
      conv_rhs => rw [← List.map_id a]
      exact List.map_congr_left fun c hc => if_pos (hall c hc)
    unfold sanitizeAlias
    rw [hkeep, hstrip, hmap]
    exact if_neg hne

end Names

/-! ## What is written is read -/

/-- The alias is listed under the role, for whoever reads any tag. -/
def Listed (files : ServerFiles κ) (aliasName : Text) : Prop :=
  aliasName ∈ keycloakAliases (mapping yaml.load files.inventory)

/-- `yaml.safe_load` takes the inventory, with the alias in it. -/
def InventoryPlain (files : ServerFiles κ) (aliasName : Text) : Prop :=
  match withAlias (mapping yaml.load files.inventory) aliasName with
  | none => (files.inventory.bind yaml.safeLoad).isSome
  | some data => yaml.plain (.dict data) = true

/-- The host variables of a server. -/
def hostVarsOf (files : ServerFiles κ) (aliasName : Text) : Dict :=
  mapping yaml.load (files.hostVars (yml (sanitizeHostFilename aliasName)))

section Reachable

variable {yaml beyond} {aliasName host user : Text} {port : Option Int} {files files' : ServerFiles κ}
  {conn : Connection}

theorem loadYamlMapping_eq_ok {path : Text} {file : Option κ} {d : Dict}
    (hd : loadYamlMapping yaml path file = .ok d) : d = mapping yaml.load file := by
  unfold loadYamlMapping at hd
  unfold mapping
  split at hd
  · cases hd
    rfl
  · rename_i content
    rw [Option.bind_some]
    split at hd
    · cases hd
    · rename_i hload
      cases hd
      rw [hload]
    · rename_i hload
      cases hd
      rw [hload]
    · cases hd

/-- What an accepted call has written. -/
theorem upsert_eq_ok
    (hok : upsertServerConnection yaml aliasName host user port files = .ok (conn, files')) :
    conn = ⟨strip aliasName, "host_vars/" ++ yml (sanitizeHostFilename (strip aliasName)),
        strip host, strip user, port⟩ ∧
      strip aliasName ≠ [] ∧ strip host ≠ [] ∧ strip user ≠ [] ∧
      (∀ name, files'.hostVars name = if name = yml (sanitizeHostFilename (strip aliasName)) then
        some (yaml.dumpMapping (.dict (connected (hostVarsOf yaml files (strip aliasName))
          (strip host) (strip user) port))) else files.hostVars name) ∧
      files'.inventory = match withAlias (mapping yaml.load files.inventory) (strip aliasName) with
        | none => files.inventory
        | some data => some (yaml.dumpMapping (.dict data)) := by
  unfold upsertServerConnection at hok
  dsimp only at hok
  split at hok
  · cases hok
  rename_i halias
  split at hok
  · cases hok
  rename_i hvalues
  split at hok
  · cases hok
  cases hexisting : loadYamlMapping yaml ("host_vars/".toList ++
      yml (sanitizeHostFilename (strip aliasName)))
      (files.hostVars (yml (sanitizeHostFilename (strip aliasName)))) with
  | error e =>
    rw [hexisting] at hok
    cases hok
  | ok existing =>
    cases hdata : loadYamlMapping yaml "inventory.yml".toList files.inventory with
    | error e =>
      rw [hexisting, hdata] at hok
      cases hok
    | ok data =>
      rw [hexisting, hdata] at hok
      cases hok
      obtain ⟨hhost, huser⟩ := not_or.mp hvalues
      rw [← loadYamlMapping_eq_ok hdata]
      unfold hostVarsOf
      rw [← loadYamlMapping_eq_ok hexisting]
      exact ⟨rfl, halias, hhost, huser, fun _ => rfl, rfl⟩

theorem mapping_dump (d : Dict) : mapping yaml.safeLoad (some (yaml.dumpMapping (.dict d))) =
    if yaml.plain (.dict d) = true then d else [] := by
  unfold mapping
  rw [Option.bind_some, yaml.safeLoad_dumpMapping]
  by_cases hplain : yaml.plain (.dict d) = true
  · rw [if_pos hplain, if_pos hplain]
  · rw [if_neg hplain, if_neg hplain]

theorem connected_fields (host user : Text) (port : Option Int) (d : Dict) :
     Dict.get (connected d host user port) "ansible_host" = .str host ∧
    Dict.get (connected d host user port) "ansible_user" = .str user := by
  unfold connected
  cases port with
  | none =>
    dsimp only
    rw [Dict.get_set_of_ne _ (by decide), Dict.get_set_self, Dict.get_set_self]
    exact ⟨rfl, rfl⟩
  | some n =>
    dsimp only
    rw [Dict.get_set_of_ne _ (by decide), Dict.get_set_of_ne _ (by decide), Dict.get_set_self,
      Dict.get_set_of_ne _ (by decide), Dict.get_set_self]
    exact ⟨rfl, rfl⟩

theorem stripped_str (t : Text) : stripped (.str t) = strip t := by
  unfold stripped
  by_cases ht : t = []
  · rw [ht]
    rfl
  · rw [if_pos (show (Val.str t).truth = true from decide_eq_true ht)]
    rfl

/-- Whether the file that was written makes the server ready. -/
theorem ready_written (hhost : strip host ≠ []) (huser : strip user ≠ [])
    (hfile : files'.hostVars (yml (sanitizeAlias beyond aliasName)) =
      some (yaml.dumpMapping (.dict (connected (hostVarsOf yaml files aliasName) (strip host)
        (strip user) port)))) :
    serverConnectionReady yaml beyond files' aliasName = true ↔
      yaml.plain (.dict (connected (hostVarsOf yaml files aliasName) (strip host) (strip user)
        port)) = true := by
  unfold serverConnectionReady
  rw [hfile, mapping_dump]
  obtain ⟨hgetHost, hgetUser⟩ :=
    connected_fields (strip host) (strip user) port (hostVarsOf yaml files aliasName)
  by_cases hplain : yaml.plain (.dict (connected (hostVarsOf yaml files aliasName) (strip host)
      (strip user) port)) = true
  · rw [if_pos hplain]
    dsimp only
    rw [hgetHost, hgetUser, stripped_str, stripped_str, strip_strip, strip_strip,
      decide_eq_true hhost, decide_eq_true huser]
    exact iff_of_true rfl hplain
  · rw [if_neg hplain]
    exact iff_of_false (by decide) hplain

/-- The alias is among those that eligibility sees if and only if it can read the inventory. -/
theorem seen_iff (hok : upsertServerConnection yaml aliasName host user port files = .ok (conn, files'))
    (hlisted : Listed yaml files' conn.aliasName) :
    conn.aliasName ∈ keycloakAliases (mapping yaml.safeLoad files'.inventory) ↔
      InventoryPlain yaml files conn.aliasName := by
  obtain ⟨rfl, -, -, -, -, hinventory⟩ := upsert_eq_ok hok
  have hseen : strip aliasName ∈ keycloakAliases (mapping yaml.safeLoad files'.inventory) ↔
      (files'.inventory.bind yaml.safeLoad).isSome = true := by
    cases hload : files'.inventory.bind yaml.safeLoad with
    | some v =>
      refine iff_of_true ?_ rfl
      rw [← Yaml.mapping_of_safeLoad hload]
      exact hlisted
    | none =>
      refine iff_of_false (fun hmem => ?_) Bool.false_ne_true
      unfold mapping at hmem
      rw [hload] at hmem
      cases hmem
  rw [hseen, hinventory]
  unfold InventoryPlain
  cases withAlias (mapping yaml.load files.inventory) (strip aliasName) with
  | none => exact Iff.rfl
  | some data =>
    dsimp only
    rw [Option.bind_some, yaml.safeLoad_dumpMapping]
    split
    · rename_i hplain
      exact iff_of_true rfl hplain
    · rename_i hplain
      exact iff_of_false Bool.false_ne_true hplain

end Reachable

/-- **A configured server is reachable, exactly.** After an accepted call whose alias is
    listed under the role, eligibility reports it if and only if `yaml.safe_load` takes the
    inventory, and takes the host variables that were written — or, where the alias has a
    character that a host name has not, finds host and user in the file it looks at instead. -/
theorem reachable_iff {aliasName host user : Text} {port : Option Int} {files files' : ServerFiles κ}
    {conn : Connection}
    (hok : upsertServerConnection yaml aliasName host user port files = .ok (conn, files'))
    (hlisted : Listed yaml files' conn.aliasName) :
    conn.aliasName ∈ (eligibility yaml beyond files').reachableServers ↔
      InventoryPlain yaml files conn.aliasName ∧
        if conn.aliasName.all isHostChar then
          yaml.plain (.dict (connected (hostVarsOf yaml files conn.aliasName) conn.host conn.user
            conn.port)) = true
        else serverConnectionReady yaml beyond files conn.aliasName = true := by
  show conn.aliasName ∈ List.filter _ (keycloakAliases _) ↔ _
  rw [List.mem_filter, seen_iff hok hlisted]
  refine and_congr_right fun _ => ?_
  obtain ⟨rfl, halias, hhost, huser, hfiles, -⟩ := upsert_eq_ok hok
  have hagree := names_agree_iff beyond (strip_strip aliasName) halias
  rw [← List.all_eq_true] at hagree
  dsimp only
  cases hall : (strip aliasName).all isHostChar with
  | true =>
    rw [if_pos rfl]
    exact ready_written hhost huser (by rw [hfiles, if_pos (by rw [hagree.mpr hall])])
  | false =>
    have hother : yml (sanitizeAlias beyond (strip aliasName)) ≠
        yml (sanitizeHostFilename (strip aliasName)) := by
      intro heq
      have := hagree.mp (List.append_cancel_right heq)
      rw [hall] at this
      cases this
    rw [if_neg Bool.false_ne_true]
    unfold serverConnectionReady
    rw [hfiles, if_neg hother]

section Demo

def isTagged : Val → Bool
  | .other _ => true
  | _ => false

theorem load_of_known {content : Bool × Val} {v : Val}
    (h : (if content.1 then some content.2 else none) = some v) : some content.2 = some v := by
  obtain ⟨known, w⟩ := content
  cases known with
  | true => exact h
  | false => cases h

theorem known_dump (v : Val) : (if (true, v).1 then some (true, v).2 else none) = some v := rfl

/-- Contents by what they stand for, and whether `yaml.safe_load` knows all their tags; the
    values at the top level are the ones that may have one. -/
def treeYaml : TaggedYaml (Bool × Val) where
  safeLoad content := if content.1 then some content.2 else none
  load content := some content.2
  dump v := (true, v)
  load_of_safeLoad := @load_of_known
  safeLoad_dump := known_dump
  plain
    | .dict items => items.all fun item => !isTagged item.2
    | v => !isTagged v
  dumpMapping v := (match v with
    | .dict items => items.all fun item => !isTagged item.2
    | v => !isTagged v, v)
  safeLoad_dumpMapping v := by cases v <;> rfl

def demoInventory : Val :=
  .dict [(.str "all", .dict [(.str "hosts", .dict [(.str "srv", .dict [])]),
    (.str "children", .dict [(.str "web-app-keycloak", .dict [(.str "hosts",
      .dict [(.str "srv", .dict [])])])])])]

/-- A workspace with one server, and what its host variables are. -/
def demoFiles (hostVars : Bool × Val) : ServerFiles (Bool × Val) :=
  ⟨fun name => if name = "srv.yml".toList then some hostVars else none, some (true, demoInventory), []⟩

/-- The servers listed and those reachable after a connection was set. -/
def afterUpsert (files : ServerFiles (Bool × Val)) : Option (List Text × List Text) :=
  match upsertServerConnection treeYaml "srv" "10.0.0.1" "root" none files with
  | .ok (_, files') => some (keycloakAliases (mapping treeYaml.load files'.inventory),
      (eligibility treeYaml (fun _ => false) files').reachableServers)
  | .error _ => none

/-- An encrypted value among the host variables hides a server that was just configured. -/
theorem vault_hides_server :
    afterUpsert (demoFiles (false, .dict [(.str "ansible_become_password", .other "!vault |")])) =
      some (["srv".toList], []) := by
  decide +kernel

theorem reachable_iff_plain : ∃ (conn : Connection) (files' : ServerFiles (Bool × Val)),
    upsertServerConnection treeYaml "srv" "10.0.0.1" "root" none (demoFiles (true, .dict [])) =
        .ok (conn, files') ∧
      conn.aliasName ∈ (eligibility treeYaml (fun _ => false) files').reachableServers := by
  have hafter : (afterUpsert (demoFiles (true, .dict []))).any
      (fun after => decide ("srv".toList ∈ after.1)) = true := by decide +kernel
  unfold afterUpsert at hafter
  cases hrun : upsertServerConnection treeYaml "srv" "10.0.0.1" "root" none
      (demoFiles (true, .dict [])) with
  | error e =>
    rw [hrun] at hafter
    cases hafter
  | ok after =>
    obtain ⟨conn, files'⟩ := after
    rw [hrun] at hafter
    have hname : conn.aliasName = "srv".toList := by
      rw [(upsert_eq_ok hrun).1]
      decide +kernel
    have hlisted : Listed treeYaml files' conn.aliasName := by
      unfold Listed
      rw [hname]
      exact of_decide_eq_true hafter
    refine ⟨conn, files', rfl, (reachable_iff treeYaml (fun _ => false) hrun hlisted).mpr ?_⟩
    rw [(upsert_eq_ok hrun).1]
    constructor
    · have hthere : (withAlias (mapping treeYaml.load (demoFiles (true, .dict [])).inventory)
          (strip "srv")).isNone = true := by decide +kernel
      unfold InventoryPlain
      dsimp only
      rw [Option.isNone_iff_eq_none.mp hthere]
      rfl
    · dsimp only
      rw [if_pos (by decide +kernel)]
      decide +kernel

end Demo

end Infinito.Servers
