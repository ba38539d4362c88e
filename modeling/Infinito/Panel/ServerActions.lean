import Infinito.Lib.Free
import Infinito.Lib.Run
import Infinito.Panel.Selection
import Mathlib.Data.Char
import Mathlib.Data.List.Lex
import Mathlib.Data.List.Sort

/-!
# The servers of the client

The servers, the roles that are selected for each of them, the plans of the roles and the renames that
wait to be written to the inventory are states of their own, each with its setter, and
`useWorkspaceServerSelectionActions` changes them side by side. They belong together: no two servers
have one alias, and there is a selection for each alias that a server has and for no other.

`updateServer` looks for a server with the new alias in the setter of the servers only; the other
setters rename all the same. `applySelectedRolesByAlias` may add two servers of one alias when two of
its keys differ in blanks. `coherent_run_iff` says that these are the two ways in which the states
come apart.

The names that every object of the browser has of itself are no aliases here. What is saved of the
colours and the logos in the workspace is left out.
-/

set_option autoImplicit false

namespace Infinito.Panel

open Py Lib
open Orders (isSlugChar isSlugChar_range isJsSpace jsTrim jsTrim_jsTrim)

/-! ## A server -/

/-- What the actions have from the language, and from the page they are on. -/
structure Browser where
  /-- `text.toLowerCase()` -/
  lower : Text → Text
  /-- `text.localeCompare(other)` -/
  localeCompare : Text → Text → Int
  /-- `String(Math.max(0, Math.floor(Number(raw))))`, where that number is finite -/
  wholeNumber : Text → Option Text
  defaultPlanForRole : Text → Text

def DEFAULT_PRIMARY_DOMAIN : Text := "localhost"

structure ServerState where
  /-- `alias` -/
  name : Text
  description : Text
  primaryDomain : Text
  requirementServerType : Text
  requirementStorageGb : Text
  requirementLocation : Text
  host : Text
  port : Text
  user : Text
  color : Text
  logoEmoji : Text
  authMethod : Text
  password : Text
  privateKey : Text
  publicKey : Text
  keyAlgorithm : Text
  keyPassphrase : Text

/-- `Partial<ServerState>` -/
structure ServerPatch where
  name : Option Text := none
  description : Option Text := none
  primaryDomain : Option Text := none
  requirementServerType : Option Text := none
  requirementStorageGb : Option Text := none
  requirementLocation : Option Text := none
  host : Option Text := none
  port : Option Text := none
  user : Option Text := none
  color : Option Text := none
  logoEmoji : Option Text := none
  authMethod : Option Text := none
  password : Option Text := none
  privateKey : Option Text := none
  publicKey : Option Text := none
  keyAlgorithm : Option Text := none
  keyPassphrase : Option Text := none

/-- `{ ...server, ...patch, alias }` -/
def ServerState.patched (server : ServerState) (patch : ServerPatch) (name : Text) : ServerState where
  name := name
  description := patch.description.getD server.description
  primaryDomain := patch.primaryDomain.getD server.primaryDomain
  requirementServerType := patch.requirementServerType.getD server.requirementServerType
  requirementStorageGb := patch.requirementStorageGb.getD server.requirementStorageGb
  requirementLocation := patch.requirementLocation.getD server.requirementLocation
  host := patch.host.getD server.host
  port := patch.port.getD server.port
  user := patch.user.getD server.user
  color := patch.color.getD server.color
  logoEmoji := patch.logoEmoji.getD server.logoEmoji
  authMethod := patch.authMethod.getD server.authMethod
  password := patch.password.getD server.password
  privateKey := patch.privateKey.getD server.privateKey
  publicKey := patch.publicKey.getD server.publicKey
  keyAlgorithm := patch.keyAlgorithm.getD server.keyAlgorithm
  keyPassphrase := patch.keyPassphrase.getD server.keyPassphrase

/-- What `createServerPlaceholder` and `createServer` have in common. -/
def serverOf (name color logoEmoji : Text) : ServerState where
  name := name
  description := []
  primaryDomain := DEFAULT_PRIMARY_DOMAIN
  requirementServerType := "vps"
  requirementStorageGb := "200"
  requirementLocation := "Germany"
  host := []
  port := "22"
  user := "root"
  color := color
  logoEmoji := logoEmoji
  authMethod := "password"
  password := []
  privateKey := []
  publicKey := []
  keyAlgorithm := "ed25519"
  keyPassphrase := []

def createServerPlaceholder (name : Text) : ServerState := serverOf (jsTrim name) [] []

/-- `createServer`, with the colour and the logo that it picks. -/
def createServer (color logoEmoji name : Text) : ServerState := serverOf name color logoEmoji

def isHexDigit (c : Char) : Bool :=
  ('a' ≤ c && c ≤ 'f') || ('A' ≤ c && c ≤ 'F') || ('0' ≤ c && c ≤ '9')

def normalizeDeviceColor (value : Text) : Option Text :=
  let raw := jsTrim value
  let digits := match raw with
    | '#' :: digits => digits
    | _ => raw
  if digits.length = 6 ∧ digits.all isHexDigit = true then some ('#' :: digits.map Char.toUpper)
  else none

def normalizeDeviceEmoji (value : Text) : Option Text := orNone (jsTrim value)

section
variable (js : Browser)

def normalizeRequirementServerType (value : Text) : Option Text := orNone (js.lower (jsTrim value))

def normalizeRequirementStorageGb (value : Text) : Option Text :=
  if jsTrim value = [] then none else js.wholeNumber (jsTrim value)

def normalizeRequirementLocation (value : Text) : Option Text := orNone (jsTrim value)

/-- What `normalizePersistedDeviceMeta` makes of one server. -/
def normalizedServer (server : ServerState) : ServerState :=
  { server with
    primaryDomain := js.lower (jsTrim server.primaryDomain)
    requirementServerType :=
      (normalizeRequirementServerType js server.requirementServerType).getD "vps".toList
    requirementStorageGb :=
      (truthy (normalizeRequirementStorageGb js server.requirementStorageGb)).getD "200".toList
    requirementLocation :=
      (normalizeRequirementLocation server.requirementLocation).getD "Germany".toList
    color := (normalizeDeviceColor server.color).getD []
    logoEmoji := (normalizeDeviceEmoji server.logoEmoji).getD [] }

def normalizePersistedDeviceMeta (servers : List ServerState) : List ServerState :=
  servers.map (normalizedServer js)

end

/-! ## The states of the client -/

/-- The states that the actions set; `ρ` is the result of a connection test. -/
structure ClientState (ρ : Type) where
  servers : List ServerState
  activeAlias : Text
  selectedByAlias : Selection
  selectedPlansByAlias : List (Text × List (Text × Option Text))
  aliasRenames : List (Text × Text)
  aliasDeletes : List Text
  selectionTouched : Bool
  connectionResults : List (Text × ρ)
  openCredentialsAlias : Option Text
  deploySelection : List Text
  deployedAliases : List Text

/-- The aliases of the servers. -/
def ClientState.aliases {ρ : Type} (s : ClientState ρ) : List Text := s.servers.map (·.name)

section Actions
variable (js : Browser) {ρ : Type}

/-- The plans of one alias after the roles `enabled` were selected for it. -/
def enabledPlans (enabled : List Text) (current : List (Text × Option Text)) :
    List (Text × Option Text) :=
  (enabled.foldl (fun current roleId =>
      if truthy ((Items.get roleId current).getD none) = none then
        Items.set roleId (some (js.defaultPlanForRole roleId)) current
      else current) current).map
    fun item => if item.1 ∈ enabled then item else (item.1, none)

def applySelectedRolesByAlias (rolesByAlias : Selection) (s : ClientState ρ) : ClientState ρ :=
  let aliases := trimmed (rolesByAlias.map (·.1))
  let rolesOf (name : Text) : List Text := (Items.get name rolesByAlias).getD []
  if aliases = [] then
    { s with
      selectedByAlias := if s.selectedByAlias ≠ [] then s.selectedByAlias else [("device", [])]
      selectedPlansByAlias :=
        if s.selectedPlansByAlias ≠ [] then s.selectedPlansByAlias else [("device", [])]
      servers := if s.servers ≠ [] then s.servers
        else normalizePersistedDeviceMeta js [createServerPlaceholder "device"]
      activeAlias := if s.activeAlias ≠ [] then s.activeAlias else "device" }
  else
    let added := (aliases.filter fun name => name ∉ s.aliases).insertionSort
      fun a b => js.localeCompare a b ≤ 0
    let ordered := setOf s.aliases ++ added
    { s with
      selectedByAlias := aliases.foldl
        (fun next name => Items.set name (setOf (rolesOf name)) next) s.selectedByAlias
      selectedPlansByAlias := aliases.foldl
        (fun next name => Items.set name
          (enabledPlans js (setOf (trimmed (rolesOf name))) ((Items.get name next).getD [])) next)
        s.selectedPlansByAlias
      servers := normalizePersistedDeviceMeta js (ordered.map fun name =>
        (s.servers.reverse.find? (·.name = name)).getD (createServerPlaceholder name))
      activeAlias := if s.activeAlias = [] then aliases.head?.getD [] else s.activeAlias }

/-- `nextAliasRaw`, where `shouldRename` is true. -/
def renamedTo (name : Text) (patch : ServerPatch) : Option Text :=
  let nextAliasRaw := jsTrim (patch.name.getD [])
  if nextAliasRaw ≠ [] ∧ nextAliasRaw ≠ name then some nextAliasRaw else none

/-- The update of the servers, with its search for the new alias. -/
def updatedServers (name : Text) (patch : ServerPatch) (prev : List ServerState) :
    List ServerState :=
  match prev.findIdx? (·.name = name) with
  | none => prev
  | some idx => match prev[idx]? with
    | none => prev
    | some server => match renamedTo name patch with
      | some nextAlias =>
          if nextAlias ∈ (prev.eraseIdx idx).map (·.name) then prev
          else normalizePersistedDeviceMeta js (prev.set idx (server.patched patch nextAlias))
      | none => normalizePersistedDeviceMeta js (prev.set idx (server.patched patch server.name))

/-- The states beside the servers when an alias is renamed. -/
def renameAlias (name nextAlias : Text) (s : ClientState ρ) : ClientState ρ :=
  let roles := (Items.get name s.selectedByAlias).getD []
  let selected := Items.erase name s.selectedByAlias
  let previous := (Items.get name s.selectedPlansByAlias).getD []
  let plans := Items.erase name s.selectedPlansByAlias
  { s with
    selectedByAlias := match Items.get nextAlias selected with
      | some there => Items.set nextAlias (setOf (there ++ roles)) selected
      | none => Items.set nextAlias roles selected
    selectedPlansByAlias := Items.set nextAlias
      (previous.foldl (fun out item => Items.set item.1 item.2 out)
        ((Items.get nextAlias plans).getD [])) plans
    activeAlias := if s.activeAlias = name then nextAlias else s.activeAlias
    connectionResults := match Items.get name s.connectionResults with
      | none => s.connectionResults
      | some result => Items.erase name (Items.set nextAlias result s.connectionResults)
    aliasRenames := s.aliasRenames ++ [(name, nextAlias)] }

def updateServer (name : Text) (patch : ServerPatch) (s : ClientState ρ) : ClientState ρ :=
  if name = [] then s
  else
    let next := { s with servers := updatedServers js name patch s.servers }
    match renamedTo name patch with
    | some nextAlias => renameAlias name nextAlias next
    | none => next

/-- Dashes that stand together as one. -/
def squeezeDashes : Text → Text
  | '-' :: '-' :: t => squeezeDashes ('-' :: t)
  | c :: t => c :: squeezeDashes t
  | [] => []

/-- `normalizedHint` -/
def normalizedHint (aliasHint : Text) : Text :=
  let slug := (js.lower (jsTrim aliasHint)).map fun c => if isSlugChar c || c = '-' then c else '-'
  ((squeezeDashes slug).dropWhile (· = '-')).rdropWhile (· = '-')

/-- `${baseAlias}-${idx}` -/
def numberedAlias (baseAlias : Text) (idx : Nat) : Text := baseAlias ++ '-' :: natText idx

/-- The alias of a new server. Among more numbers than there are aliases one is free. -/
def newAlias (existing : List Text) (aliasHint : Text) : Text :=
  let baseAlias := (orNone (normalizedHint js aliasHint)).getD "device".toList
  if baseAlias ∈ existing then firstFree (numberedAlias baseAlias) existing existing.length 2
  else baseAlias

def addServer (color logoEmoji aliasHint : Text) (s : ClientState ρ) : ClientState ρ :=
  let name := newAlias js s.aliases aliasHint
  { s with
    servers := normalizePersistedDeviceMeta js (s.servers ++ [createServer color logoEmoji name])
    selectedByAlias := Items.set name [] s.selectedByAlias
    activeAlias := name }

def removeServerFromClient (name : Text) (s : ClientState ρ) : ClientState ρ :=
  if name = [] then s
  else
    let next := s.servers.filter (·.name ≠ name)
    { s with
      servers := normalizePersistedDeviceMeta js next
      activeAlias := if s.activeAlias = name then (next.head?.map (·.name)).getD []
        else s.activeAlias
      selectedByAlias := Items.erase name s.selectedByAlias
      selectedPlansByAlias := Items.erase name s.selectedPlansByAlias
      connectionResults := Items.erase name s.connectionResults
      openCredentialsAlias :=
        if s.openCredentialsAlias = some name then none else s.openCredentialsAlias
      deploySelection := s.deploySelection.filter (· ≠ name)
      deployedAliases := s.deployedAliases.filter (· ≠ name)
      selectionTouched := true }

/-- `removeServer`; `ready` is whether there is a workspace and its inventory. -/
def removeServer (ready : Bool) (name : Text) (s : ClientState ρ) : Except String (ClientState ρ) :=
  if name = [] then .ok s
  else if ready = false then .error "Workspace inventory is not ready yet."
  else .ok (removeServerFromClient js name { s with aliasDeletes := s.aliasDeletes ++ [name] })

def toggleSelectedForAlias (name id : Text) (s : ClientState ρ) : ClientState ρ :=
  let targetAlias := jsTrim name
  let roleId := jsTrim id
  if targetAlias = [] ∨ roleId = [] then s
  else
    let roles := (Items.get targetAlias s.selectedByAlias).getD []
    let current := (Items.get targetAlias s.selectedPlansByAlias).getD []
    let plan := if roleId ∈ roles then none
      else some ((truthy ((Items.get roleId current).getD none)).getD
        (js.defaultPlanForRole roleId))
    { s with
      selectedByAlias := Items.set targetAlias
        (if roleId ∈ roles then roles.filter (· ≠ roleId) else roles ++ [roleId]) s.selectedByAlias
      selectedPlansByAlias := Items.set targetAlias (Items.set roleId plan current)
        s.selectedPlansByAlias
      selectionTouched := true }

end Actions

/-! ## The aliases after each action -/

section Aliases
variable {js : Browser} {ρ : Type} {s : ClientState ρ} {name nextAlias : Text} {patch : ServerPatch}

theorem names_normalize (servers : List ServerState) :
    (normalizePersistedDeviceMeta js servers).map (·.name) = servers.map (·.name) := by
  unfold normalizePersistedDeviceMeta
  rw [List.map_map]
  rfl

theorem mem_keys_set {β : Type} {key : Text} {v : β} {m : List (Text × β)} :
    name ∈ (Items.set key v m).map (·.1) ↔ name = key ∨ name ∈ m.map (·.1) := by
  rw [← not_iff_not, ← Items.get_eq_none_iff, Items.get_set, not_or, ← Items.get_eq_none_iff]
  by_cases h : name = key
  · simp [h]
  · simp [h]

theorem mem_keys_erase {β : Type} {key : Text} {m : List (Text × β)} :
    name ∈ (Items.erase key m).map (·.1) ↔ name ≠ key ∧ name ∈ m.map (·.1) := by
  rw [← not_iff_not, ← Items.get_eq_none_iff, Items.get_erase, not_and_or, ← Items.get_eq_none_iff]
  by_cases h : name = key
  · simp [h]
  · simp [h]

theorem mem_keys_foldl_set {β : Type} {f : Text → List (Text × β) → β} (names : List Text)
    {m : List (Text × β)} :
    name ∈ (names.foldl (fun next key => Items.set key (f key next) next) m).map (·.1) ↔
      name ∈ names ∨ name ∈ m.map (·.1) := by
  induction names generalizing m with
  | nil => simp
  | cons key names ih =>
    rw [List.foldl_cons, ih, mem_keys_set, List.mem_cons, or_left_comm, or_assoc]

/-! ### `updateServer` -/

theorem updatedServers_of_not_mem {prev : List ServerState} (h : name ∉ prev.map (·.name)) :
    updatedServers js name patch prev = prev := by
  have hnone : prev.findIdx? (fun server => server.name = name) = none := by
    rw [List.findIdx?_eq_none_iff]
    intro server hserver
    exact decide_eq_false fun heq => h (List.mem_map.mpr ⟨server, hserver, heq⟩)
  unfold updatedServers
  rw [hnone]

theorem updatedServers_append {before after : List ServerState} {server : ServerState}
    (hserver : server.name = name) (hbefore : name ∉ before.map (·.name)) :
    updatedServers js name patch (before ++ server :: after) =
      match renamedTo name patch with
      | some nextAlias =>
          if nextAlias ∈ (before ++ after).map (·.name) then before ++ server :: after
          else normalizePersistedDeviceMeta js
            (before ++ server.patched patch nextAlias :: after)
      | none => normalizePersistedDeviceMeta js
          (before ++ server.patched patch server.name :: after) := by
  have hidx : (before ++ server :: after).findIdx? (fun other => other.name = name) =
      some before.length := by
    have hnone : before.findIdx? (fun other => other.name = name) = none := by
      rw [List.findIdx?_eq_none_iff]
      intro other hother
      exact decide_eq_false fun heq => hbefore (List.mem_map.mpr ⟨other, hother, heq⟩)
    rw [List.findIdx?_append, hnone, List.findIdx?_cons]
    simp [hserver]
  unfold updatedServers
  rw [hidx]
  dsimp only
  rw [List.getElem?_append_right (Nat.le_refl _), Nat.sub_self, List.getElem?_cons_zero]
  dsimp only
  rw [List.eraseIdx_append_of_length_le (Nat.le_refl _), Nat.sub_self]
  simp

/-- A server with the alias, and none before it. -/
theorem exists_server {servers : List ServerState} (h : name ∈ servers.map (·.name)) :
    ∃ before server after, servers = before ++ server :: after ∧ server.name = name ∧
      name ∉ before.map (·.name) := by
  obtain ⟨server, hserver, hname⟩ := List.mem_map.mp h
  have hsome : (servers.find? fun other => other.name = name).isSome = true :=
    List.find?_isSome.mpr ⟨server, hserver, decide_eq_true hname⟩
  obtain ⟨first, hfirst⟩ := Option.isSome_iff_exists.mp hsome
  obtain ⟨hfound, before, after, hsplit, hbefore⟩ := List.find?_eq_some_iff_append.mp hfirst
  refine ⟨before, first, after, hsplit, of_decide_eq_true hfound, fun hmem => ?_⟩
  obtain ⟨other, hother, heq⟩ := List.mem_map.mp hmem
  have hno := hbefore other hother
  simp [heq] at hno

theorem names_updatedServers_of_none {servers : List ServerState} (h : renamedTo name patch = none) :
    (updatedServers js name patch servers).map (·.name) = servers.map (·.name) := by
  by_cases hname : name ∈ servers.map (·.name)
  · obtain ⟨before, server, after, rfl, hserver, hbefore⟩ := exists_server hname
    rw [updatedServers_append hserver hbefore, h]
    dsimp only
    rw [names_normalize]
    simp [ServerState.patched]
  · rw [updatedServers_of_not_mem hname]

theorem mem_selected_renameAlias {other : Text} :
    other ∈ (renameAlias name nextAlias s).selectedByAlias.map (·.1) ↔
      other = nextAlias ∨ other ≠ name ∧ other ∈ s.selectedByAlias.map (·.1) := by
  unfold renameAlias
  dsimp only
  split
  · rw [mem_keys_set, mem_keys_erase]
  · rw [mem_keys_set, mem_keys_erase]

theorem renamedTo_eq_some (h : renamedTo name patch = some nextAlias) :
    nextAlias ≠ [] ∧ nextAlias ≠ name ∧ jsTrim nextAlias = nextAlias := by
  unfold renamedTo at h
  dsimp only at h
  split at h
  · rename_i hboth
    cases h
    exact ⟨hboth.1, hboth.2, jsTrim_jsTrim _⟩
  · cases h

/-! ### `addServer` -/

theorem numberedAlias_injective (baseAlias : Text) :
    Function.Injective (numberedAlias baseAlias) := by
  intro m n h
  unfold numberedAlias at h
  exact natText_injective (List.cons.inj (List.append_cancel_left h)).2

theorem newAlias_not_mem (existing : List Text) (aliasHint : Text) :
    newAlias js existing aliasHint ∉ existing := by
  unfold newAlias
  dsimp only
  split
  · exact firstFree_not_mem (numberedAlias_injective _)
  · rename_i hno
    exact hno

theorem squeezeDashes_subset (t : Text) : squeezeDashes t ⊆ t := by
  induction t using squeezeDashes.induct with
  | case1 t ih =>
    rw [squeezeDashes]
    exact fun c hc => List.mem_cons_of_mem _ (ih hc)
  | case2 c t h ih =>
    rw [squeezeDashes]
    · exact List.cons_subset_cons c ih
    · exact h
  | case3 => exact List.Subset.refl _

/-- A letter, a digit or a dash is no blank. -/
theorem isJsSpace_aliasChar {c : Char} (h : (isSlugChar c || c = '-') = true) :
    isJsSpace c = false := by
  rw [Bool.or_eq_true, decide_eq_true_eq] at h
  rcases h with h | rfl
  · have hrange := isSlugChar_range h
    simp only [isJsSpace, Bool.or_eq_false_iff, Bool.and_eq_false_iff, decide_eq_false_iff_not,
      beq_eq_false_iff_ne]
    omega
  · rfl

theorem aliasChar_normalizedHint (aliasHint : Text) :
    ∀ c ∈ normalizedHint js aliasHint, (isSlugChar c || c = '-') = true := by
  intro c hc
  unfold normalizedHint at hc
  dsimp only at hc
  have hslug := squeezeDashes_subset _
    ((List.dropWhile_sublist _).subset ((List.rdropWhile_prefix _ _).subset hc))
  obtain ⟨d, -, rfl⟩ := List.mem_map.mp hslug
  by_cases hd : (isSlugChar d || d = '-') = true
  · rw [if_pos hd]
    exact hd
  · rw [if_neg hd]
    rfl

theorem newAlias_tidy (existing : List Text) (aliasHint : Text) :
    jsTrim (newAlias js existing aliasHint) = newAlias js existing aliasHint ∧
      newAlias js existing aliasHint ≠ [] := by
  have hbase : ∀ baseAlias : Text,
      baseAlias = (orNone (normalizedHint js aliasHint)).getD "device".toList →
      baseAlias ≠ [] ∧ ∀ c ∈ baseAlias, (isSlugChar c || c = '-') = true := by
    rintro _ rfl
    by_cases hempty : normalizedHint js aliasHint = []
    · rw [hempty]
      exact ⟨by decide, List.all_eq_true.mp (by decide)⟩
    · rw [orNone_of_ne hempty, Option.getD_some]
      exact ⟨hempty, aliasChar_normalizedHint aliasHint⟩
  obtain ⟨hne, hchars⟩ := hbase _ rfl
  unfold newAlias
  dsimp only
  split
  · obtain ⟨i, hi⟩ := @firstFree_eq _ _ (numberedAlias
      ((orNone (normalizedHint js aliasHint)).getD "device".toList)) existing existing.length 2
    rw [hi]
    unfold numberedAlias
    refine ⟨Lib.trim_of_forall fun c hc => ?_, List.append_ne_nil_of_left_ne_nil hne _⟩
    rcases List.mem_append.mp hc with hc | hc
    · exact isJsSpace_aliasChar (hchars c hc)
    · rcases List.mem_cons.mp hc with rfl | hc
      · rfl
      · refine isJsSpace_aliasChar ?_
        have hdigit := isDigit_of_mem_natText hc
        simp only [Char.isDigit, ge_iff_le, UInt32.le_iff_toNat_le, Bool.and_eq_true,
          decide_eq_true_eq] at hdigit
        have hslug : isSlugChar c = true := by
          simp only [isSlugChar, Bool.or_eq_true, Bool.and_eq_true, decide_eq_true_eq]
          exact Or.inr hdigit
        rw [hslug]
        rfl
  · exact ⟨Lib.trim_of_forall fun c hc => isJsSpace_aliasChar (hchars c hc), hne⟩

end Aliases

/-! ## Runs -/

inductive ServerAct where
  | applySelectedRolesByAlias (rolesByAlias : Selection)
  | updateServer (name : Text) (patch : ServerPatch)
  | addServer (color logoEmoji aliasHint : Text)
  | removeServer (ready : Bool) (name : Text)
  | toggleSelectedForAlias (name id : Text)

section Runs
variable (js : Browser) {ρ : Type}

/-- One action. A removal that raises changes nothing. -/
def serverStep (s : ClientState ρ) : ServerAct → Option (ClientState ρ)
  | .applySelectedRolesByAlias rolesByAlias => some (applySelectedRolesByAlias js rolesByAlias s)
  | .updateServer name patch => some (updateServer js name patch s)
  | .addServer color logoEmoji aliasHint => some (addServer js color logoEmoji aliasHint s)
  | .removeServer ready name => match removeServer js ready name s with
      | .ok next => some next
      | .error _ => some s
  | .toggleSelectedForAlias name id => some (toggleSelectedForAlias js name id s)

/-- No two servers have one alias, and the selections are stored under the aliases. -/
structure ClientState.Coherent (s : ClientState ρ) : Prop where
  distinct : s.aliases.Nodup
  selected : ∀ name, name ∈ s.selectedByAlias.map (·.1) ↔ name ∈ s.aliases

/-- The servers, the selections and the queue of the renames are as they were. -/
structure Unchanged (s s' : ClientState ρ) : Prop where
  servers : s'.servers = s.servers
  selectedByAlias : s'.selectedByAlias = s.selectedByAlias
  selectedPlansByAlias : s'.selectedPlansByAlias = s.selectedPlansByAlias
  aliasRenames : s'.aliasRenames = s.aliasRenames

/-- The new alias of the update is taken. -/
def TakenAlias (s : ClientState ρ) : ServerAct → Prop
  | .updateServer name patch => name ≠ [] ∧ ∃ nextAlias ∈ renamedTo name patch, nextAlias ∈ s.aliases
  | _ => False

/-- A role is selected for a server that is there. -/
def OnExisting (s : ClientState ρ) : ServerAct → Prop
  | .toggleSelectedForAlias name _ => name ∈ s.aliases
  | _ => True

/-- A server that is there gets an alias that is free, and no two keys are one new alias. -/
def SafeAct (s : ClientState ρ) : ServerAct → Prop
  | .updateServer name patch => name ≠ [] → ∀ nextAlias ∈ renamedTo name patch,
      name ∈ s.aliases ∧ nextAlias ∉ s.aliases
  | .applySelectedRolesByAlias rolesByAlias =>
      ((trimmed (rolesByAlias.map (·.1))).filter fun name => name ∉ s.aliases).Nodup
  | _ => True

instance OnExisting.decidable (s : ClientState ρ) : (act : ServerAct) → Decidable (OnExisting s act)
  | .toggleSelectedForAlias name _ => inferInstanceAs (Decidable (name ∈ s.aliases))
  | .applySelectedRolesByAlias _ | .updateServer _ _ | .addServer _ _ _ | .removeServer _ _ =>
      isTrue trivial

instance SafeAct.decidable (s : ClientState ρ) : (act : ServerAct) → Decidable (SafeAct s act)
  | .updateServer name patch => inferInstanceAs (Decidable (name ≠ [] →
      ∀ nextAlias ∈ renamedTo name patch, name ∈ s.aliases ∧ nextAlias ∉ s.aliases))
  | .applySelectedRolesByAlias _ => inferInstanceAs (Decidable (List.Nodup _))
  | .addServer _ _ _ | .removeServer _ _ | .toggleSelectedForAlias _ _ => isTrue trivial

/-- What an action is to do. -/
def Keeps (s : ClientState ρ) (act : ServerAct) (s' : ClientState ρ) : Prop :=
  s'.Coherent ∧ (TakenAlias s act → Unchanged s s')

/-- Every action of the run does what it is to do. -/
def KeepsAll (s : ClientState ρ) (acts : List ServerAct) : Prop :=
  ∀ before act after u u', acts = before ++ act :: after →
    run (serverStep js) s before = some u → serverStep js u act = some u' → Keeps u act u'

end Runs

section Steps
variable {js : Browser} {ρ : Type} {s : ClientState ρ} {name : Text} {patch : ServerPatch}

/-- The aliases have no blanks around them. -/
def ClientState.Tidy (s : ClientState ρ) : Prop := ∀ name ∈ s.aliases, jsTrim name = name ∧ name ≠ []

theorem keeps_update_of_none (hs : s.Coherent) (h : renamedTo name patch = none) :
    Keeps s (.updateServer name patch) (updateServer js name patch s) := by
  refine ⟨?_, fun htaken => ?_⟩
  · unfold updateServer
    split
    · exact hs
    · rw [h]
      have haliases : ({ s with servers := updatedServers js name patch s.servers } :
          ClientState ρ).aliases = s.aliases := names_updatedServers_of_none h
      exact ⟨haliases ▸ hs.distinct, fun other => (hs.selected other).trans (by rw [haliases])⟩
  · obtain ⟨-, nextAlias, hnext, -⟩ := htaken
    rw [h] at hnext
    cases hnext

/-- A server that is there gets an alias that is free. -/
theorem coherent_rename {nextAlias : Text} (hs : s.Coherent) (hne : name ≠ [])
    (h : renamedTo name patch = some nextAlias) (hname : name ∈ s.aliases)
    (hfree : nextAlias ∉ s.aliases) : (updateServer js name patch s).Coherent := by
  obtain ⟨before, server, after, hsplit, hserver, hbefore⟩ := exists_server hname
  have hall : s.aliases = before.map (·.name) ++ name :: after.map (·.name) := by
    unfold ClientState.aliases
    rw [hsplit, List.map_append, List.map_cons, hserver]
  have hdistinct := hs.distinct
  rw [hall, List.nodup_middle, List.nodup_cons] at hdistinct
  rw [hall, List.mem_append, List.mem_cons, not_or, not_or] at hfree
  have hapart : nextAlias ∉ (before ++ after).map (·.name) := by
    rw [List.map_append, List.mem_append, not_or]
    exact ⟨hfree.1, hfree.2.2⟩
  have haliases : (updateServer js name patch s).aliases =
      before.map (·.name) ++ nextAlias :: after.map (·.name) := by
    unfold updateServer
    rw [if_neg hne, h]
    show (updatedServers js name patch s.servers).map (·.name) = _
    rw [hsplit, updatedServers_append hserver hbefore, h]
    dsimp only
    rw [if_neg hapart, names_normalize, List.map_append, List.map_cons]
    rfl
  constructor
  · rw [haliases, List.nodup_middle, List.nodup_cons, ← List.map_append]
    exact ⟨hapart, by rw [List.map_append]; exact hdistinct.2⟩
  · intro other
    have hkeys : other ∈ (updateServer js name patch s).selectedByAlias.map (·.1) ↔
        other = nextAlias ∨ other ≠ name ∧ other ∈ s.aliases := by
      unfold updateServer
      rw [if_neg hne, h]
      dsimp only
      rw [mem_selected_renameAlias]
      exact or_congr_right (and_congr_right fun _ => hs.selected other)
    have hother : other ≠ name → (other ∈ s.aliases ↔
        other ∈ before.map (·.name) ∨ other ∈ after.map (·.name)) := by
      intro hno
      rw [hall, List.mem_append, List.mem_cons, or_iff_right hno]
    rw [hkeys, haliases, List.mem_append, List.mem_cons]
    by_cases hsame : other = name
    · have hleft : other ∉ before.map (·.name) := by
        rw [hsame]
        exact hbefore
      have hright : other ∉ after.map (·.name) := by
        rw [hsame]
        exact fun hmem => hdistinct.1 (List.mem_append_right _ hmem)
      tauto
    · have hiff := hother hsame
      tauto

theorem updateServer_servers_of_taken {nextAlias : Text} (hne : name ≠ [])
    (h : renamedTo name patch = some nextAlias) (hnext : nextAlias ∈ s.aliases) :
    (updateServer js name patch s).servers = s.servers := by
  unfold updateServer
  rw [if_neg hne, h]
  show updatedServers js name patch s.servers = s.servers
  by_cases hname : name ∈ s.servers.map (·.name)
  · obtain ⟨before, server, after, hsplit, hserver, hbefore⟩ := exists_server hname
    have hapart : nextAlias ∈ (before ++ after).map (·.name) := by
      unfold ClientState.aliases at hnext
      rw [hsplit, List.map_append, List.map_cons, hserver, List.mem_append, List.mem_cons] at hnext
      rw [List.map_append, List.mem_append]
      exact hnext.imp_right fun hor => hor.resolve_left (renamedTo_eq_some h).2.1
    rw [hsplit, updatedServers_append hserver hbefore, h]
    dsimp only
    rw [if_pos hapart]
  · exact updatedServers_of_not_mem hname

theorem keeps_update_iff (hs : s.Coherent) :
    Keeps s (.updateServer name patch) (updateServer js name patch s) ↔
      SafeAct s (.updateServer name patch) := by
  by_cases hne : name = []
  · refine iff_of_true ⟨?_, fun htaken => absurd hne htaken.1⟩ fun hno => absurd hne hno
    unfold updateServer
    rw [if_pos hne]
    exact hs
  · cases h : renamedTo name patch with
    | none =>
      refine iff_of_true (keeps_update_of_none hs h) fun _ nextAlias hnext => ?_
      rw [h] at hnext
      cases hnext
    | some nextAlias =>
      have hsafe : SafeAct s (.updateServer name patch) ↔
          name ∈ s.aliases ∧ nextAlias ∉ s.aliases := by
        constructor
        · intro hsafe
          exact hsafe hne nextAlias h
        · intro hboth _ other hother
          rw [h] at hother
          cases hother
          exact hboth
      rw [hsafe]
      by_cases hnext : nextAlias ∈ s.aliases
      · -- the alias is taken, and the rename is queued all the same
        refine iff_of_false (fun hkeeps => ?_) fun hboth => hboth.2 hnext
        have hsame := (hkeeps.2 ⟨hne, nextAlias, h, hnext⟩).aliasRenames
        unfold updateServer at hsame
        rw [if_neg hne, h] at hsame
        exact List.cons_ne_nil _ _ (List.append_right_eq_self.mp hsame)
      · by_cases hname : name ∈ s.aliases
        · refine iff_of_true ⟨coherent_rename hs hne h hname hnext, fun htaken => ?_⟩ ⟨hname, hnext⟩
          obtain ⟨-, other, hother, hmem⟩ := htaken
          rw [h] at hother
          cases hother
          exact absurd hmem hnext
        · -- there is no server, and a selection under the new alias
          refine iff_of_false (fun hkeeps => ?_) fun hboth => hname hboth.1
          have hin : nextAlias ∈ (updateServer js name patch s).selectedByAlias.map (·.1) := by
            unfold updateServer
            rw [if_neg hne, h]
            exact mem_selected_renameAlias.mpr (Or.inl rfl)
          have hout := (hkeeps.1.selected nextAlias).mp hin
          have hservers : (updateServer js name patch s).aliases = s.aliases := by
            unfold updateServer ClientState.aliases
            rw [if_neg hne, h]
            show (updatedServers js name patch s.servers).map (·.name) = _
            rw [updatedServers_of_not_mem hname]
          rw [hservers] at hout
          exact hnext hout

/-! ### The other actions -/

theorem coherent_add (hs : s.Coherent) (color logoEmoji aliasHint : Text) :
    (addServer js color logoEmoji aliasHint s).Coherent := by
  have hfree : newAlias js s.aliases aliasHint ∉ s.aliases := newAlias_not_mem s.aliases aliasHint
  have haliases : (addServer js color logoEmoji aliasHint s).aliases =
      s.aliases ++ [newAlias js s.aliases aliasHint] := by
    unfold addServer ClientState.aliases
    dsimp only
    rw [names_normalize, List.map_append]
    rfl
  constructor
  · rw [haliases, List.nodup_append]
    refine ⟨hs.distinct, List.nodup_singleton _, fun name hname other hother heq => ?_⟩
    rw [heq, List.mem_singleton.mp hother] at hname
    exact hfree hname
  · intro name
    rw [haliases, List.mem_append, List.mem_singleton, ← hs.selected name]
    unfold addServer
    exact mem_keys_set.trans or_comm

theorem coherent_removeFromClient (hs : s.Coherent) :
    (removeServerFromClient js name s).Coherent := by
  unfold removeServerFromClient
  split
  · exact hs
  · have hmem : ∀ other, other ∈ (s.servers.filter (·.name ≠ name)).map (·.name) ↔
        other ≠ name ∧ other ∈ s.aliases := by
      intro other
      unfold ClientState.aliases
      simp only [List.mem_map, List.mem_filter, decide_eq_true_eq]
      constructor
      · rintro ⟨server, ⟨hserver, hne⟩, rfl⟩
        exact ⟨hne, server, hserver, rfl⟩
      · rintro ⟨hne, server, hserver, rfl⟩
        exact ⟨server, ⟨hserver, hne⟩, rfl⟩
    constructor
    · unfold ClientState.aliases
      dsimp only
      rw [names_normalize]
      exact hs.distinct.sublist (List.filter_sublist.map _)
    · intro other
      unfold ClientState.aliases
      dsimp only
      rw [names_normalize, hmem, mem_keys_erase, hs.selected]

theorem coherent_remove (hs : s.Coherent) {ready : Bool} {s' : ClientState ρ}
    (h : serverStep js s (.removeServer ready name) = some s') : s'.Coherent := by
  rw [serverStep, removeServer] at h
  by_cases hne : name = []
  · rw [if_pos hne] at h
    cases h
    exact hs
  · rw [if_neg hne] at h
    cases ready with
    | false =>
      cases h
      exact hs
    | true =>
      cases h
      exact coherent_removeFromClient ⟨hs.distinct, hs.selected⟩

theorem coherent_toggle (hs : s.Coherent) (htidy : s.Tidy) (id : Text) (hname : name ∈ s.aliases) :
    (toggleSelectedForAlias js name id s).Coherent := by
  unfold toggleSelectedForAlias
  dsimp only
  split
  · exact hs
  · refine ⟨hs.distinct, fun other => ?_⟩
    rw [mem_keys_set, (htidy name hname).1, hs.selected]
    refine or_iff_right_of_imp fun heq => ?_
    rw [heq]
    exact hname

/-! ### `applySelectedRolesByAlias` -/

theorem aliases_apply {rolesByAlias : Selection} (h : trimmed (rolesByAlias.map (·.1)) ≠ []) :
    (applySelectedRolesByAlias js rolesByAlias s).aliases = setOf s.aliases ++
      ((trimmed (rolesByAlias.map (·.1))).filter fun name => name ∉ s.aliases).insertionSort
        fun a b => js.localeCompare a b ≤ 0 := by
  unfold applySelectedRolesByAlias
  dsimp only
  rw [if_neg h]
  unfold ClientState.aliases
  dsimp only
  rw [names_normalize, List.map_map]
  refine (List.map_congr_left fun name hname => ?_).trans (List.map_id _)
  show ((s.servers.reverse.find? (·.name = name)).getD (createServerPlaceholder name)).name = name
  cases hfind : s.servers.reverse.find? (·.name = name) with
  | some server =>
    have hsame : server.name = name := by simpa using List.find?_some hfind
    exact hsame
  | none =>
    -- a name that no server has is one of the keys, trimmed
    have hno : name ∉ s.servers.map (·.name) := by
      intro hmem
      obtain ⟨server, hserver, hsame⟩ := List.mem_map.mp hmem
      exact List.find?_eq_none.mp hfind server (List.mem_reverse.mpr hserver)
        (decide_eq_true hsame)
    rcases List.mem_append.mp hname with hmem | hmem
    · exact absurd (mem_setOf.mp hmem) hno
    · rw [List.mem_insertionSort] at hmem
      obtain ⟨-, raw, -, rfl⟩ := mem_trimmed.mp (List.mem_of_mem_filter hmem)
      exact jsTrim_jsTrim raw

theorem mem_selected_apply {rolesByAlias : Selection}
    (h : trimmed (rolesByAlias.map (·.1)) ≠ []) (other : Text) :
    other ∈ (applySelectedRolesByAlias js rolesByAlias s).selectedByAlias.map (·.1) ↔
      other ∈ trimmed (rolesByAlias.map (·.1)) ∨ other ∈ s.selectedByAlias.map (·.1) := by
  unfold applySelectedRolesByAlias
  dsimp only
  rw [if_neg h]
  exact mem_keys_foldl_set _

theorem coherent_apply_nil {rolesByAlias : Selection} (hs : s.Coherent)
    (h : trimmed (rolesByAlias.map (·.1)) = []) :
    (applySelectedRolesByAlias js rolesByAlias s).Coherent := by
  have hboth : s.selectedByAlias = [] ↔ s.servers = [] := by
    rw [← @List.map_eq_nil_iff _ _ (fun item : Text × List Text => item.1),
      ← @List.map_eq_nil_iff _ _ (fun server : ServerState => server.name),
      List.eq_nil_iff_forall_not_mem, List.eq_nil_iff_forall_not_mem]
    exact forall_congr' fun name => not_congr (hs.selected name)
  unfold applySelectedRolesByAlias
  dsimp only
  rw [if_pos h]
  by_cases hempty : s.servers = []
  · have hselected := hboth.mpr hempty
    constructor
    · unfold ClientState.aliases
      dsimp only
      rw [if_neg (not_not_intro hempty), names_normalize]
      exact List.nodup_singleton _
    · intro name
      unfold ClientState.aliases
      dsimp only
      rw [if_neg (not_not_intro hempty), if_neg (not_not_intro hselected), names_normalize]
      rfl
  · have hselected : s.selectedByAlias ≠ [] := fun hno => hempty (hboth.mp hno)
    constructor
    · unfold ClientState.aliases
      dsimp only
      rw [if_pos hempty]
      exact hs.distinct
    · intro name
      unfold ClientState.aliases
      dsimp only
      rw [if_pos hempty, if_pos hselected]
      exact hs.selected name

theorem coherent_apply_iff {rolesByAlias : Selection} (hs : s.Coherent) :
    (applySelectedRolesByAlias js rolesByAlias s).Coherent ↔
      SafeAct s (.applySelectedRolesByAlias rolesByAlias) := by
  by_cases h : trimmed (rolesByAlias.map (·.1)) = []
  · refine iff_of_true (coherent_apply_nil hs h) ?_
    rw [SafeAct, h]
    exact List.nodup_nil
  · have haliases := @aliases_apply js _ s rolesByAlias h
    have hperm := List.perm_insertionSort (fun a b => js.localeCompare a b ≤ 0)
      ((trimmed (rolesByAlias.map (·.1))).filter fun name => name ∉ s.aliases)
    have hnodup : (applySelectedRolesByAlias js rolesByAlias s).aliases.Nodup ↔
        SafeAct s (.applySelectedRolesByAlias rolesByAlias) := by
      rw [haliases, List.nodup_append, hperm.nodup_iff]
      constructor
      · exact fun hall => hall.2.1
      · refine fun hall => ⟨nodup_setOf _, hall, fun name hname other hother heq => ?_⟩
        rw [hperm.mem_iff, List.mem_filter, ← heq, decide_eq_true_eq] at hother
        exact hother.2 (mem_setOf.mp hname)
    rw [← hnodup]
    refine ⟨fun hall => hall.distinct, fun hall => ⟨hall, fun other => ?_⟩⟩
    rw [mem_selected_apply h, haliases, List.mem_append, mem_setOf, hperm.mem_iff, List.mem_filter,
      decide_eq_true_eq, hs.selected]
    tauto

/-! ### Any action -/

theorem mem_aliases_update {other : Text} (h : other ∈ (updateServer js name patch s).aliases) :
    other ∈ s.aliases ∨ jsTrim other = other ∧ other ≠ [] := by
  unfold updateServer at h
  split at h
  · exact Or.inl h
  · have hservers : other ∈ (updatedServers js name patch s.servers).map (·.name) := by
      split at h
      · exact h
      · exact h
    cases hnew : renamedTo name patch with
    | none =>
      rw [names_updatedServers_of_none hnew] at hservers
      exact Or.inl hservers
    | some nextAlias =>
      by_cases hname : name ∈ s.servers.map (·.name)
      · obtain ⟨before, server, after, hsplit, hserver, hbefore⟩ := exists_server hname
        rw [hsplit, updatedServers_append hserver hbefore, hnew] at hservers
        dsimp only at hservers
        split at hservers
        · rw [← hsplit] at hservers
          exact Or.inl hservers
        · rw [names_normalize, List.map_append, List.map_cons, List.mem_append,
            List.mem_cons] at hservers
          unfold ClientState.aliases
          rw [hsplit, List.map_append, List.map_cons, List.mem_append, List.mem_cons]
          rcases hservers with hmem | rfl | hmem
          · exact Or.inl (Or.inl hmem)
          · have htidy := renamedTo_eq_some hnew
            exact Or.inr ⟨htidy.2.2, htidy.1⟩
          · exact Or.inl (Or.inr (Or.inr hmem))
      · rw [updatedServers_of_not_mem hname] at hservers
        exact Or.inl hservers

theorem mem_aliases_apply {rolesByAlias : Selection} {other : Text}
    (h : other ∈ (applySelectedRolesByAlias js rolesByAlias s).aliases) :
    other ∈ s.aliases ∨ jsTrim other = other ∧ other ≠ [] := by
  by_cases hkeys : trimmed (rolesByAlias.map (·.1)) = []
  · unfold applySelectedRolesByAlias ClientState.aliases at h
    dsimp only at h
    rw [if_pos hkeys] at h
    dsimp only at h
    split at h
    · exact Or.inl h
    · rw [names_normalize] at h
      rw [List.mem_singleton.mp h]
      exact Or.inr ⟨rfl, by decide⟩
  · rw [aliases_apply hkeys, List.mem_append, mem_setOf, List.mem_insertionSort] at h
    rcases h with h | h
    · exact Or.inl h
    · obtain ⟨hne, raw, -, rfl⟩ := mem_trimmed.mp (List.mem_of_mem_filter h)
      exact Or.inr ⟨jsTrim_jsTrim raw, hne⟩

/-- An alias that a server has afterwards is one that was there, or has no blanks around it. -/
theorem mem_aliases_step {act : ServerAct} {s' : ClientState ρ} {other : Text}
    (hstep : serverStep js s act = some s') (h : other ∈ s'.aliases) :
    other ∈ s.aliases ∨ jsTrim other = other ∧ other ≠ [] := by
  cases act with
  | applySelectedRolesByAlias rolesByAlias =>
    cases hstep
    exact mem_aliases_apply h
  | updateServer name patch =>
    cases hstep
    exact mem_aliases_update h
  | addServer color logoEmoji aliasHint =>
    cases hstep
    unfold addServer ClientState.aliases at h
    dsimp only at h
    rw [names_normalize, List.map_append, List.mem_append] at h
    rcases h with h | h
    · exact Or.inl h
    · rw [List.mem_singleton.mp h]
      exact Or.inr (newAlias_tidy _ _)
  | removeServer ready name =>
    refine Or.inl ?_
    have hsub : ∀ u : ClientState ρ, other ∈ (removeServerFromClient js name u).aliases →
        other ∈ u.aliases := by
      intro u hu
      unfold removeServerFromClient at hu
      split at hu
      · exact hu
      · unfold ClientState.aliases at hu
        dsimp only at hu
        rw [names_normalize] at hu
        exact (List.filter_sublist.map _).subset hu
    rw [serverStep, removeServer] at hstep
    split at hstep
    · rename_i hok
      cases hstep
      split at hok
      · cases hok
        exact h
      · split at hok
        · cases hok
        · cases hok
          exact hsub { s with aliasDeletes := s.aliasDeletes ++ [name] } h
    · cases hstep
      exact h
  | toggleSelectedForAlias name id =>
    cases hstep
    refine Or.inl ?_
    unfold toggleSelectedForAlias at h
    dsimp only at h
    split at h
    · exact h
    · exact h

theorem tidy_step {act : ServerAct} {s' : ClientState ρ} (htidy : s.Tidy)
    (hstep : serverStep js s act = some s') : s'.Tidy := fun other hother =>
  (mem_aliases_step hstep hother).elim (htidy other) id

/-- **An action does what it is to do** exactly if it is safe. -/
theorem keeps_step_iff {act : ServerAct} {s' : ClientState ρ} (hs : s.Coherent) (htidy : s.Tidy)
    (hexisting : OnExisting s act) (hstep : serverStep js s act = some s') :
    Keeps s act s' ↔ SafeAct s act := by
  cases act with
  | applySelectedRolesByAlias rolesByAlias =>
    cases hstep
    rw [← coherent_apply_iff hs]
    exact and_iff_left fun htaken => htaken.elim
  | updateServer name patch =>
    cases hstep
    exact keeps_update_iff hs
  | addServer color logoEmoji aliasHint =>
    cases hstep
    exact iff_of_true ⟨coherent_add hs _ _ _, fun htaken => htaken.elim⟩ trivial
  | removeServer ready name =>
    exact iff_of_true ⟨coherent_remove hs hstep, fun htaken => htaken.elim⟩ trivial
  | toggleSelectedForAlias name id =>
    cases hstep
    exact iff_of_true ⟨coherent_toggle hs htidy id hexisting, fun htaken => htaken.elim⟩ trivial

theorem exists_serverStep (s : ClientState ρ) (act : ServerAct) :
    ∃ s', serverStep js s act = some s' := by
  cases act with
  | removeServer ready name =>
    rw [serverStep]
    split
    · exact ⟨_, rfl⟩
    · exact ⟨_, rfl⟩
  | _ => exact ⟨_, rfl⟩

theorem keepsAll_cons {act : ServerAct} {acts : List ServerAct} {s' : ClientState ρ}
    (hstep : serverStep js s act = some s') :
    KeepsAll js s (act :: acts) ↔ Keeps s act s' ∧ KeepsAll js s' acts := by
  constructor
  · intro h
    refine ⟨h [] act acts s s' rfl rfl hstep, fun before other after u u' hsplit hrun hother => ?_⟩
    refine h (act :: before) other after u u' (by rw [hsplit]; rfl) ?_ hother
    exact run_cons_eq_some.mpr ⟨s', hstep, hrun⟩
  · rintro ⟨hfirst, hrest⟩ before other after u u' hsplit hrun hother
    cases before with
    | nil =>
      obtain ⟨rfl, -⟩ := List.cons.inj hsplit
      cases hrun
      rw [hstep, Option.some.injEq] at hother
      rw [← hother]
      exact hfirst
    | cons first before =>
      obtain ⟨rfl, htail⟩ := List.cons.inj hsplit
      obtain ⟨v, hv, hmore⟩ := run_cons_eq_some.mp hrun
      rw [hstep, Option.some.injEq] at hv
      rw [← hv] at hmore
      exact hrest before other after u u' htail hmore hother

theorem along_cons_iff {ok : ClientState ρ → ServerAct → Prop} {act : ServerAct}
    {acts : List ServerAct} {s' : ClientState ρ} (hstep : serverStep js s act = some s') :
    Along (serverStep js) ok s (act :: acts) ↔ ok s act ∧ Along (serverStep js) ok s' acts := by
  rw [Along, hstep]

/-- **Over any run the states belong together**, and an update whose new alias is taken changes
    nothing, exactly if every action of the run is safe. -/
theorem coherent_run_iff {acts : List ServerAct} (hs : s.Coherent) (htidy : s.Tidy)
    (hexisting : Along (serverStep js) OnExisting s acts) :
    KeepsAll js s acts ↔ Along (serverStep js) SafeAct s acts := by
  induction acts generalizing s with
  | nil =>
    refine iff_of_true (fun before act after u u' hsplit => ?_) trivial
    cases before <;> cases hsplit
  | cons act acts ih =>
    obtain ⟨s', hstep⟩ : ∃ s', serverStep js s act = some s' := exists_serverStep s act
    rw [along_cons_iff hstep] at hexisting
    rw [keepsAll_cons hstep, along_cons_iff hstep,
      ← keeps_step_iff hs htidy hexisting.1 hstep]
    exact and_congr_right fun hkeeps => ih hkeeps.1 (tidy_step htidy hstep) hexisting.2

end Steps

/-! ## A rename to an alias that is taken -/

section Demo

/-- A browser for aliases in lower case. -/
def plainBrowser : Browser where
  lower := id
  localeCompare a b := if a = b then 0 else if a < b then -1 else 1
  wholeNumber := some
  defaultPlanForRole _ := "community"

/-- The page before its workspace is loaded. -/
def emptyClient : ClientState Unit := ⟨[], [], [], [], [], [], false, [], none, [], []⟩

theorem emptyClient_coherent : emptyClient.Coherent := ⟨List.nodup_nil, fun _ => Iff.rfl⟩

theorem coherent_run_free_alias :
    KeepsAll plainBrowser emptyClient [.addServer [] [] "web", .addServer [] [] "web",
      .toggleSelectedForAlias "web" "wiki", .updateServer "web" { name := some "db" },
      .applySelectedRolesByAlias [("mail", ["wiki"]), ("db", [])], .removeServer true "web-2"] :=
  (coherent_run_iff emptyClient_coherent nofun (by decide +kernel)).mpr (by decide +kernel)

/-- The servers stay `web` and `db`; there is a selection for `db` alone, and the rename waits. -/
theorem taken_alias_renamed :
    ¬ KeepsAll plainBrowser emptyClient [.addServer [] [] "web", .addServer [] [] "db",
      .updateServer "web" { name := some "db" }] := by
  intro h
  have hlast := h [.addServer [] [] "web", .addServer [] [] "db"] _ [] _ _ rfl rfl rfl
  have hrename := (hlast.2 ⟨by decide, "db".toList, rfl, by decide +kernel⟩).aliasRenames
  cases hrename

end Demo

end Infinito.Panel
