import Infinito.Panel.ServerActions

/-!
# The devices that are to be deployed

The panel offers the devices that are configured, have roles and have not been deployed
(`selectableAliases`), and some of them are chosen. `buildDeploymentPayload` makes a request of the
choice, unless the form has errors, and names the chosen devices in it as a limit. Where all that are
offered are chosen it leaves the limit out.
-/

set_option autoImplicit false

namespace Infinito.Panel

open Py Lib
open Orders (jsTrim)

/-! ## The form -/

def AUTH_METHODS : List Text := ["password", "private_key"]

/-- `ALIAS_PATTERN` -/
def aliasPattern (t : Text) : Bool :=
  t ≠ [] && t.all fun c => c.isLower || c.isDigit || c = '_' || c = '-'

/-- What `buildDeploymentPayload` reads of a server. -/
structure DeployCredentials where
  /-- `alias` -/
  name : Text
  host : Text
  port : Text
  user : Text
  authMethod : Text
  password : Text
  privateKey : Text
  keyPassphrase : Text

/-- `credentials`, of the active server if there is one. -/
def credentialsOf : Option ServerState → DeployCredentials
  | none => ⟨[], [], [], [], "password", [], [], []⟩
  | some server =>
      ⟨server.name, server.host, server.port, server.user,
        if server.authMethod = [] then "password" else server.authMethod,
        server.password, server.privateKey, server.keyPassphrase⟩

/-- The errors by their fields. -/
abbrev FormErrors := List (String × String)

def errorIf (test : Prop) [Decidable test] (field message : String) : FormErrors :=
  if test then [(field, message)] else []

section

-- `Number(text)`, where that is finite
variable (number : Text → Option ℚ)

/-- `Number(portRaw)`, if that is an integer. -/
def portNumber (portRaw : Text) : Option Int :=
  (number portRaw).bind fun q => if q.den = 1 then some q.num else none

def isPort (portRaw : Text) : Bool :=
  (portNumber number portRaw).any fun port => 1 ≤ port && port ≤ 65535

/-- The checks of the credentials in `validateForm`. -/
def authErrors (state : DeployCredentials) : FormErrors :=
  if state.authMethod ∉ AUTH_METHODS then [("authMethod", "Choose a valid auth method.")]
  else if state.authMethod = "password".toList then
    errorIf (state.password = []) "password" "Password is required." ++
      errorIf (state.privateKey ≠ []) "privateKey" "Private key must be empty for password auth."
  else
    errorIf (state.privateKey = []) "privateKey" "Private key is required." ++
      errorIf (state.password ≠ []) "password" "Password must be empty for key auth."

def validateForm (state : DeployCredentials) : FormErrors :=
  let name := jsTrim state.name
  let portRaw := jsTrim state.port
  (if name = [] then [("alias", "Alias is required.")]
    else errorIf (aliasPattern name = false) "alias" "Alias allows only a-z, 0-9, _ and -.") ++
  errorIf (jsTrim state.host = []) "host" "Host is required." ++
  errorIf (jsTrim state.user = []) "user" "User is required." ++
  (if portRaw = [] then [("port", "Port is required.")]
    else errorIf (isPort number portRaw = false) "port"
      "Port must be an integer between 1 and 65535.") ++
  authErrors state

/-! ## The choice -/

/-- `selectableAliases` -/
def selectableAliases (servers : List ServerState) (selectedRolesByAlias : Selection)
    (deployedAliases deployRoleFilter : List Text) : List Text :=
  (servers.filter fun server =>
    let name := jsTrim server.name
    let roles := ((Items.get name selectedRolesByAlias).getD []).filter fun roleId =>
      deployRoleFilter.isEmpty || deployRoleFilter.contains roleId
    let authReady := jsTrim
      (if server.authMethod = "private_key".toList then server.privateKey else server.password) ≠ []
    let portRaw := jsTrim server.port
    name ≠ [] && !roles.isEmpty && jsTrim server.host ≠ [] && jsTrim server.user ≠ [] &&
      authReady && (portRaw = [] || isPort number portRaw) && !deployedAliases.contains name).map
    fun server => jsTrim server.name

/-- The effect that follows the devices that can be chosen: where none of them is left, all are
    chosen. -/
def settledSelection (selection selectable : List Text) : List Text :=
  let next := selection.filter fun name => name ∈ selectable
  if next = [] then setOf selectable else next

/-! ## The request -/

/-- `Array.from(new Set(names.map(trim))).filter(Boolean)` -/
def namesOf (names : List Text) : List Text := (setOf (names.map jsTrim)).filter (· ≠ [])

structure DeploymentArgs where
  activeServer : Option ServerState
  selectedRolesByAlias : Selection
  selectedAliases : List Text
  selectableAliases : List Text
  roleFilter : List Text
  /-- empty where there is none -/
  workspaceId : Text
  inventoryReady : Bool
  infinitoNexusVersion : Text

structure AuthPayload where
  method : Text
  password : Option Text
  privateKey : Option Text
  passphrase : Option Text

/-- A key that is missing is `none`. -/
structure DeploymentPayload where
  workspaceId : Text
  host : Text
  user : Text
  auth : AuthPayload
  selectedRoles : List Text
  infinitoNexusVersion : Option Text
  port : Option Int
  limit : Option Text

namespace DeploymentArgs

variable (a : DeploymentArgs)

/-- `normalizedSelected` -/
def selected : List Text := namesOf a.selectedAliases

/-- `roles`: those of the filter, or else of the devices that are chosen. -/
def roles : List Text :=
  let filter := namesOf a.roleFilter
  if filter ≠ [] then filter
  else normalizeRoles
    (a.selected.flatMap fun name => (Items.get name a.selectedRolesByAlias).getD [])

/-- `allSelectableSelected` -/
def allSelectableSelected : Bool :=
  !(namesOf a.selectableAliases).isEmpty &&
    (namesOf a.selectableAliases).all fun name => a.selected.contains name

/-- `errors` -/
def errors : FormErrors :=
  validateForm number (credentialsOf a.activeServer) ++
    errorIf (a.roles = []) "selectedRoles" "Select at least one role." ++
    errorIf (a.workspaceId = []) "workspace" "Workspace is not ready yet." ++
    errorIf (a.inventoryReady = false) "inventory" "Generate inventory in Workspace & Files first." ++
    errorIf (a.selected = []) "deployScope" "Select at least one device to deploy."

end DeploymentArgs

def authPayload (credentials : DeployCredentials) : AuthPayload where
  method := credentials.authMethod
  password :=
    if credentials.authMethod = "password".toList then some credentials.password else none
  privateKey :=
    if credentials.authMethod = "private_key".toList then some credentials.privateKey else none
  passphrase :=
    if credentials.authMethod = "private_key".toList then orNone credentials.keyPassphrase else none

/-- `names.join(",")` -/
def joinNames (names : List Text) : Text := [','].intercalate names

def buildDeploymentPayload (a : DeploymentArgs) : Except FormErrors DeploymentPayload :=
  if a.errors number ≠ [] then .error (a.errors number)
  else
    let credentials := credentialsOf a.activeServer
    .ok {
      workspaceId := a.workspaceId
      host := jsTrim credentials.host
      user := jsTrim credentials.user
      auth := authPayload credentials
      selectedRoles := a.roles
      infinitoNexusVersion := orNone (jsTrim a.infinitoNexusVersion)
      port :=
        if jsTrim credentials.port = [] then none else portNumber number (jsTrim credentials.port)
      limit := if a.allSelectableSelected = true then none else some (joinNames a.selected) }

end

/-! ## What a request is made of -/

section Built

variable {number : Text → Option ℚ} {a : DeploymentArgs} {payload : DeploymentPayload}
  {test : Prop} [Decidable test] {field message : String}

@[simp] theorem errorIf_eq_nil : errorIf test field message = [] ↔ ¬ test := by
  unfold errorIf
  split
  · rename_i h
    exact iff_of_false (List.cons_ne_nil _ _) (not_not.mpr h)
  · rename_i h
    exact iff_of_true rfl h

/-- What the checks of the form and of the choice have found, where they have found no error. -/
structure Ready (number : Text → Option ℚ) (a : DeploymentArgs) : Prop where
  host : jsTrim (credentialsOf a.activeServer).host ≠ []
  user : jsTrim (credentialsOf a.activeServer).user ≠ []
  port : isPort number (jsTrim (credentialsOf a.activeServer).port) = true
  auth : authErrors (credentialsOf a.activeServer) = []
  roles : a.roles ≠ []
  workspaceId : a.workspaceId ≠ []
  selected : a.selected ≠ []

theorem ready_of_errors (h : a.errors number = []) : Ready number a := by
  unfold DeploymentArgs.errors validateForm at h
  simp only [List.append_eq_nil_iff, errorIf_eq_nil] at h
  obtain ⟨⟨⟨⟨⟨⟨⟨⟨-, hhost⟩, huser⟩, hport⟩, hauth⟩, hroles⟩, hworkspace⟩, -⟩, hselected⟩ := h
  refine ⟨hhost, huser, ?_, hauth, hroles, hworkspace, hselected⟩
  split at hport
  · cases hport
  · rw [errorIf_eq_nil] at hport
    simpa using hport

theorem buildDeploymentPayload_eq_ok (h : buildDeploymentPayload number a = .ok payload) :
    Ready number a ∧ payload.workspaceId = a.workspaceId ∧
      payload.host = jsTrim (credentialsOf a.activeServer).host ∧
      payload.user = jsTrim (credentialsOf a.activeServer).user ∧
      payload.auth = authPayload (credentialsOf a.activeServer) ∧
      payload.selectedRoles = a.roles ∧
      payload.infinitoNexusVersion = orNone (jsTrim a.infinitoNexusVersion) ∧
      (∀ port ∈ payload.port, 1 ≤ port ∧ port ≤ 65535) ∧
      payload.limit =
        if a.allSelectableSelected = true then none else some (joinNames a.selected) := by
  unfold buildDeploymentPayload at h
  split at h
  · cases h
  · rename_i herrors
    have hready : Ready number a := ready_of_errors (not_not.mp herrors)
    cases h
    refine ⟨hready, rfl, rfl, rfl, rfl, rfl, rfl, fun port hport => ?_, rfl⟩
    have hrange := hready.port
    unfold isPort at hrange
    dsimp only at hport
    split at hport
    · cases hport
    · rw [Option.mem_def] at hport
      rw [hport] at hrange
      simpa using hrange

end Built

end Infinito.Panel
