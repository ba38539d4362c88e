import Infinito.Panel.Deployment
import Infinito.Runner.Submit

/-!
# From the panel to the command

A deployment goes from the form of the panel through the request that the API accepts to the command
line of the runner. The form and the API check it one after the other, each by its own rules:
`payload_accepted_iff` says what the API still refuses of what the form lets through.

`deploys_chosen_iff` says on which devices the command runs. They are the chosen ones where the request
names them; where it names none, because all that can be chosen are, they are all of the inventory,
and that are more when some of them have been deployed before (`deploys_again`).
-/

set_option autoImplicit false

namespace Infinito.Runner.Api

open Py Lib Panel

/-! ## The request -/

/-- What a check of the request says: one of pydantic's own, or a text. -/
inductive Problem where
  | tooShort
  | outOfRange
  | literal
  | value (message : String)
  deriving DecidableEq

abbrev Problems := List (String × Problem)

/-- The request as it is sent. -/
structure DeploymentIn where
  workspaceId : Text
  host : Text
  port : Option Int
  user : Text
  auth : AuthPayload
  masterPassword : Option Text
  infinitoNexusVersion : Option Text
  playbookPath : Option Text
  limit : Option Text
  selectedRoles : List Text

/-- `min_length=1` of a field that may be missing. -/
def minLength (field : String) (v : Option Text) : Problems :=
  if v = some [] then [(field, .tooShort)] else []

/-- `_strip_required`, and `min_length=1` before it. -/
def stripRequired (field : String) (v : Text) : Problems :=
  if v = [] then [(field, .tooShort)]
  else if strip v = [] then [(field, .value "must not be empty")] else []

/-- `_strip_optional_string` -/
def stripOptional (v : Option Text) : Option Text := v.bind fun t => orNone (strip t)

/-- `_validate_auth` -/
def validateAuth (a : AuthPayload) : Option String :=
  if a.method = "password".toList then
    if truthy a.password = none then
      some "auth.password is required when auth.method=password"
    else if truthy a.privateKey ≠ none then
      some "auth.private_key must not be set when auth.method=password"
    else if truthy a.passphrase ≠ none then
      some "auth.passphrase must not be set when auth.method=password"
    else none
  else if a.method = "private_key".toList then
    if truthy a.privateKey = none then
      some "auth.private_key is required when auth.method=private_key"
    else if truthy a.password ≠ none then
      some "auth.password must not be set when auth.method=private_key"
    else none
  else none

def authProblems (a : AuthPayload) : Problems :=
  let fields := (if a.method ∈ AUTH_METHODS then [] else [("auth.method", Problem.literal)]) ++
    minLength "auth.password" a.password ++ minLength "auth.private_key" a.privateKey ++
    minLength "auth.passphrase" a.passphrase
  if fields ≠ [] then fields
  else match validateAuth a with
    | some message => [("auth", .value message)]
    | none => []

/-- `DeploymentAuth`: exactly one way to log in. -/
def DeploymentAuth := { a : AuthPayload // authProblems a = [] }

/-- `_clean_roles`, nothing where an entry is no role id. -/
def cleanRoles : List Text → List Text → Option (List Text)
  | out, [] => some out
  | out, x :: v =>
      let s := strip x
      if s = [] then cleanRoles out v
      else if isRoleId s = false then none
      else cleanRoles (if s ∈ out then out else out ++ [s]) v

def roleMessage : String := "selected_roles entries must match ^[a-z0-9][a-z0-9\\-_]\x7b0,63\x7d$"

/-- The checks of the fields, in their order. -/
def fieldProblems (d : DeploymentIn) : Problems :=
  stripRequired "workspace_id" d.workspaceId ++ stripRequired "host" d.host ++
    (if d.port.all fun port => 1 ≤ port && port ≤ 65535 then [] else [("port", .outOfRange)]) ++
    stripRequired "user" d.user ++ authProblems d.auth ++
    minLength "master_password" d.masterPassword ++
    minLength "infinito_nexus_version" d.infinitoNexusVersion ++
    minLength "playbook_path" d.playbookPath ++
    (if cleanRoles [] d.selectedRoles = none then [("selected_roles", .value roleMessage)] else [])

structure DeploymentRequest where
  workspaceId : Text
  host : Text
  port : Option Int
  user : Text
  auth : DeploymentAuth
  masterPassword : Option Text
  infinitoNexusVersion : Option Text
  playbookPath : Option Text
  limit : Option Text
  selectedRoles : List Text

/-- What the API makes of a request: `_require_roles_or_playbook` looks at fields without problems. -/
def DeploymentIn.parse (d : DeploymentIn) : Except Problems DeploymentRequest :=
  if hauth : authProblems d.auth = [] then
    if fieldProblems d ≠ [] then .error (fieldProblems d)
    else
      let roles := (cleanRoles [] d.selectedRoles).getD []
      if roles = [] ∧ stripOptional d.playbookPath = none then
        .error [("", .value "selected_roles must not be empty when playbook_path is absent")]
      else .ok {
        workspaceId := strip d.workspaceId
        host := strip d.host
        port := d.port
        user := strip d.user
        auth := ⟨d.auth, hauth⟩
        masterPassword := stripOptional d.masterPassword
        infinitoNexusVersion := stripOptional d.infinitoNexusVersion
        playbookPath := stripOptional d.playbookPath
        limit := stripOptional d.limit
        selectedRoles := roles }
  else .error (fieldProblems d)

/-- What `startDeployment` sends: the payload, and the master password if it has one. -/
def sent (payload : DeploymentPayload) (masterPassword : Option Text) : DeploymentIn where
  workspaceId := payload.workspaceId
  host := payload.host
  port := payload.port
  user := payload.user
  auth := payload.auth
  masterPassword := masterPassword
  infinitoNexusVersion := payload.infinitoNexusVersion
  playbookPath := none
  limit := payload.limit
  selectedRoles := payload.selectedRoles

/-! ## The command -/

/-- What `_build_runner_args` finds in the job directory and in the environment. -/
structure RunnerEnv where
  inventoryThere : Bool
  inventoryArg : Text
  /-- the playbook's path in the job directory: outside, missing, or what it is passed as -/
  playbook : Text → Except String Text
  skipCleanup : Bool
  skipBuild : Bool
  rolesFromInventory : List Text
  /-- the path of `vars.json`, if it is there -/
  varsArg : Option Text
  /-- `JOB_RUNNER_ANSIBLE_ARGS`, split as a shell does, or why it cannot be -/
  extraArgs : Except String (List Text)

def limitArgs (limit : Option Text) : List Text :=
  match limit with
  | some names => ["-l".toList, names]
  | none => []

def varsArgs (varsArg : Option Text) : List Text :=
  match varsArg with
  | some path => ["-e".toList, '@' :: path]
  | none => []

/-- `_build_direct_playbook_args` -/
def buildDirectPlaybookArgs (env : RunnerEnv) (playbookPath : Text) (limit : Option Text) :
    Except HttpError (List Text) :=
  let relPath := (strip playbookPath).dropWhile (· = '/')
  if relPath = [] then .error ⟨400, "playbook_path is required"⟩
  else match env.playbook relPath with
    | .error message => .error ⟨400, message⟩
    | .ok playbookArg =>
        .ok (["ansible-playbook".toList, "-i".toList, env.inventoryArg, playbookArg] ++
          limitArgs limit)

/-- The command of a deployment by roles. -/
def deployArgs (env : RunnerEnv) (limit : Option Text) (selectedRoles : List Text) : List Text :=
  let roles := if selectedRoles ≠ [] then selectedRoles else env.rolesFromInventory
  ["infinito".toList, "deploy".toList, "dedicated".toList, env.inventoryArg] ++ limitArgs limit ++
    (if env.skipCleanup then ["--skip-cleanup".toList] else []) ++
    (if env.skipBuild then ["--skip-build".toList] else []) ++
    (if roles ≠ [] then "--id".toList :: roles else [])

/-- `_build_runner_args` -/
def buildRunnerArgs (env : RunnerEnv) (req : DeploymentRequest) : Except HttpError (List Text) :=
  if env.inventoryThere = false then .error ⟨500, "inventory.yml is missing"⟩
  else do
    let cmd ← match req.playbookPath with
      | some playbookPath => buildDirectPlaybookArgs env playbookPath req.limit
      | none => .ok (deployArgs env req.limit req.selectedRoles)
    match env.extraArgs with
    | .ok extra => .ok (cmd ++ varsArgs env.varsArg ++ extra)
    | .error message => .error ⟨500, "invalid JOB_RUNNER_ANSIBLE_ARGS: " ++ message⟩

/-! ## What the API refuses -/

section Accepted

variable {number : Text → Option ℚ} {a : DeploymentArgs} {payload : DeploymentPayload}
  {masterPassword : Option Text} {c : DeployCredentials} {out v roles : List Text} {role : Text}
  {req : DeploymentRequest}

theorem stripRequired_eq_nil {field : String} {t : Text} :
    stripRequired field t = [] ↔ strip t ≠ [] := by
  unfold stripRequired
  by_cases ht : t = []
  · rw [if_pos ht, ht]
    exact iff_of_false (List.cons_ne_nil _ _) (not_not.mpr rfl)
  · rw [if_neg ht]
    by_cases hs : strip t = []
    · rw [if_pos hs]
      exact iff_of_false (List.cons_ne_nil _ _) (not_not.mpr hs)
    · rw [if_neg hs]
      exact iff_of_true rfl hs

theorem minLength_eq_nil {field : String} {t : Option Text} :
    minLength field t = [] ↔ t ≠ some [] := by
  unfold minLength
  split
  · rename_i h
    exact iff_of_false (List.cons_ne_nil _ _) (not_not.mpr h)
  · rename_i h
    exact iff_of_true rfl h

/-- What the form lets through is one way to log in. -/
theorem authProblems_authPayload (h : authErrors c = []) : authProblems (authPayload c) = [] := by
  unfold authErrors at h
  split at h
  · cases h
  · rename_i hmethod
    have hmethod : c.authMethod ∈ AUTH_METHODS := not_not.mp hmethod
    split at h
    · rename_i hpassword
      simp only [List.append_eq_nil_iff, errorIf_eq_nil, not_not] at h
      simp [authProblems, authPayload, validateAuth, minLength, truthy, hpassword, AUTH_METHODS,
        orNone_of_ne h.1, h.1]
    · rename_i hpassword
      simp only [List.append_eq_nil_iff, errorIf_eq_nil, not_not] at h
      have hkey : c.authMethod = "private_key".toList := by
        simp only [AUTH_METHODS, List.mem_cons, List.not_mem_nil, or_false] at hmethod
        exact hmethod.resolve_left hpassword
      by_cases hpass : c.keyPassphrase = []
      · simp [authProblems, authPayload, validateAuth, minLength, truthy, hkey, AUTH_METHODS,
          orNone_of_ne h.1, h.1, hpass]
      · simp [authProblems, authPayload, validateAuth, minLength, truthy, hkey, AUTH_METHODS,
          orNone_of_ne h.1, h.1, orNone_of_ne hpass, hpass]

theorem cleanRoles_ne_none :
    cleanRoles out v ≠ none ↔ ∀ x ∈ v, strip x = [] ∨ isRoleId (strip x) = true := by
  induction v generalizing out with
  | nil => simp [cleanRoles]
  | cons x v ih =>
    rw [cleanRoles, List.forall_mem_cons]
    by_cases hblank : strip x = []
    · simp only [hblank, if_true, ih, true_or, true_and]
    · by_cases hid : isRoleId (strip x) = false
      · rw [if_neg hblank, if_pos hid, hid]
        exact iff_of_false (fun h => h rfl) fun h => h.1.elim hblank Bool.false_ne_true
      · have hid' : isRoleId (strip x) = true := by simpa using hid
        rw [if_neg hblank, if_neg hid, ih]
        exact (and_iff_right (Or.inr hid')).symm

theorem mem_cleanRoles (h : cleanRoles out v = some roles) :
    role ∈ roles ↔ role ∈ out ∨ role ≠ [] ∧ ∃ x ∈ v, strip x = role := by
  induction v generalizing out with
  | nil =>
    cases h
    simp
  | cons x v ih =>
    rw [cleanRoles] at h
    split at h
    · rename_i hblank
      rw [ih h, List.exists_mem_cons_iff, hblank]
      constructor
      · rintro (hout | ⟨hne, hx⟩)
        · exact Or.inl hout
        · exact Or.inr ⟨hne, Or.inr hx⟩
      · rintro (hout | ⟨hne, rfl | hx⟩)
        · exact Or.inl hout
        · exact absurd rfl hne
        · exact Or.inr ⟨hne, hx⟩
    · rename_i hblank
      split at h
      · cases h
      · have hout : role ∈ (if strip x ∈ out then out else out ++ [strip x]) ↔
            role ∈ out ∨ role = strip x := by
          split
          · rename_i hseen
            constructor
            · exact Or.inl
            · rintro (hmem | rfl)
              · exact hmem
              · exact hseen
          · rw [List.mem_append, List.mem_singleton]
        rw [ih h, hout, List.exists_mem_cons_iff]
        constructor
        · rintro ((hmem | rfl) | ⟨hne, hx⟩)
          · exact Or.inl hmem
          · exact Or.inr ⟨hblank, Or.inl rfl⟩
          · exact Or.inr ⟨hne, Or.inr hx⟩
        · rintro (hmem | ⟨hne, rfl | hx⟩)
          · exact Or.inl (Or.inl hmem)
          · exact Or.inl (Or.inr rfl)
          · exact Or.inr ⟨hne, hx⟩

/-- What a request that is accepted is. -/
structure Parsed (d : DeploymentIn) (req : DeploymentRequest) : Prop where
  workspaceId : req.workspaceId = strip d.workspaceId
  host : req.host = strip d.host
  user : req.user = strip d.user
  port : req.port = d.port
  auth : req.auth.val = d.auth
  playbookPath : req.playbookPath = stripOptional d.playbookPath
  limit : req.limit = stripOptional d.limit
  selectedRoles : cleanRoles [] d.selectedRoles = some req.selectedRoles

theorem parse_eq_ok {d : DeploymentIn} (h : d.parse = .ok req) :
    fieldProblems d = [] ∧ Parsed d req ∧
      (req.selectedRoles ≠ [] ∨ stripOptional d.playbookPath ≠ none) := by
  unfold DeploymentIn.parse at h
  split at h
  · split at h
    · cases h
    · rename_i hfields
      have hfields : fieldProblems d = [] := not_not.mp hfields
      have hroles : cleanRoles [] d.selectedRoles ≠ none := by
        intro hnone
        unfold fieldProblems at hfields
        rw [if_pos hnone] at hfields
        exact absurd (List.append_eq_nil_iff.mp hfields).2 (List.cons_ne_nil _ _)
      obtain ⟨roles, hroles⟩ := Option.ne_none_iff_exists'.mp hroles
      simp only [hroles, Option.getD_some] at h
      split at h
      · cases h
      · rename_i hsome
        cases h
        refine ⟨hfields, ⟨rfl, rfl, rfl, rfl, rfl, rfl, rfl, hroles⟩, ?_⟩
        by_contra hnone
        rw [not_or, not_not, not_not] at hnone
        exact hsome hnone
  · cases h

theorem parse_isOk {d : DeploymentIn} :
    (∃ req, d.parse = .ok req) ↔
      fieldProblems d = [] ∧ ((cleanRoles [] d.selectedRoles).getD [] ≠ [] ∨
        stripOptional d.playbookPath ≠ none) := by
  constructor
  · rintro ⟨req, h⟩
    obtain ⟨hfields, hparsed, hsome⟩ := parse_eq_ok h
    rw [hparsed.selectedRoles]
    exact ⟨hfields, hsome⟩
  · rintro ⟨hfields, hsome⟩
    have hauth : authProblems d.auth = [] := by
      unfold fieldProblems at hfields
      simp only [List.append_eq_nil_iff] at hfields
      tauto
    unfold DeploymentIn.parse
    rw [dif_pos hauth, if_neg (not_not.mpr hfields)]
    simp only
    rw [if_neg fun hnone => hsome.elim (fun h => h hnone.1) fun h => h hnone.2]
    exact ⟨_, rfl⟩

/-- What the checks of the fields let through. -/
structure Checked (d : DeploymentIn) : Prop where
  workspaceId : strip d.workspaceId ≠ []
  host : strip d.host ≠ []
  port : d.port.all (fun port => 1 ≤ port && port ≤ 65535) = true
  user : strip d.user ≠ []
  auth : authProblems d.auth = []
  masterPassword : d.masterPassword ≠ some []
  infinitoNexusVersion : d.infinitoNexusVersion ≠ some []
  playbookPath : d.playbookPath ≠ some []
  selectedRoles : cleanRoles [] d.selectedRoles ≠ none

theorem fieldProblems_eq_nil {d : DeploymentIn} : fieldProblems d = [] ↔ Checked d := by
  unfold fieldProblems
  simp only [List.append_eq_nil_iff, stripRequired_eq_nil, minLength_eq_nil]
  constructor
  · rintro ⟨⟨⟨⟨⟨⟨⟨⟨hworkspace, hhost⟩, hport⟩, huser⟩, hauth⟩, hmaster⟩, hversion⟩, hplaybook⟩, hroles⟩
    refine ⟨hworkspace, hhost, ?_, huser, hauth, hmaster, hversion, hplaybook, ?_⟩
    · by_contra hno
      rw [if_neg hno] at hport
      cases hport
    · intro hno
      rw [if_pos hno] at hroles
      cases hroles
  · intro h
    rw [if_pos h.port, if_neg h.selectedRoles]
    exact ⟨⟨⟨⟨⟨⟨⟨⟨h.workspaceId, h.host⟩, rfl⟩, h.user⟩, h.auth⟩, h.masterPassword⟩,
      h.infinitoNexusVersion⟩, h.playbookPath⟩, rfl⟩

/-- **What the API refuses of what the form lets through**: a blank that only the API takes for
    one, an empty master password, and a role that is no role id. -/
theorem payload_accepted_iff (h : buildDeploymentPayload number a = .ok payload) :
    (∃ req, (sent payload masterPassword).parse = .ok req) ↔
      strip a.workspaceId ≠ [] ∧ strip payload.host ≠ [] ∧ strip payload.user ≠ [] ∧
        masterPassword ≠ some [] ∧
        (∀ role ∈ a.roles, strip role = [] ∨ isRoleId (strip role) = true) ∧
        ∃ role ∈ a.roles, strip role ≠ [] := by
  obtain ⟨hready, hworkspace, -, -, hauth, hroles, hversion, hport, -⟩ :=
    buildDeploymentPayload_eq_ok h
  have hnone : stripOptional (sent payload masterPassword).playbookPath = none := rfl
  have hsent : (sent payload masterPassword).selectedRoles = a.roles := hroles
  rw [parse_isOk, fieldProblems_eq_nil, hnone, hsent]
  constructor
  · rintro ⟨hchecked, hsome⟩
    have hids : cleanRoles [] a.roles ≠ none := hsent ▸ hchecked.selectedRoles
    obtain ⟨roles, hclean⟩ := Option.ne_none_iff_exists'.mp hids
    rw [hclean, Option.getD_some] at hsome
    obtain ⟨role, hrole⟩ := List.exists_mem_of_ne_nil _ (hsome.resolve_right fun hno => hno rfl)
    obtain hnil | ⟨hne, x, hx, rfl⟩ := (mem_cleanRoles hclean).mp hrole
    · cases hnil
    · exact ⟨hworkspace ▸ hchecked.workspaceId, hchecked.host, hchecked.user,
        hchecked.masterPassword, cleanRoles_ne_none.mp hids, x, hx, hne⟩
  · rintro ⟨hblank, hhost, huser, hmaster, hids, x, hx, hne⟩
    have hids : cleanRoles [] a.roles ≠ none := cleanRoles_ne_none.mpr hids
    obtain ⟨roles, hclean⟩ := Option.ne_none_iff_exists'.mp hids
    have hrole : strip x ∈ roles := (mem_cleanRoles hclean).mpr (Or.inr ⟨hne, x, hx, rfl⟩)
    refine ⟨⟨?_, hhost, ?_, huser, ?_, hmaster, ?_, ?_, ?_⟩, Or.inl ?_⟩
    · show strip payload.workspaceId ≠ []
      rw [hworkspace]
      exact hblank
    · show payload.port.all _ = true
      cases hp : payload.port with
      | none => rfl
      | some port => simpa using hport port hp
    · show authProblems payload.auth = []
      rw [hauth]
      exact authProblems_authPayload hready.auth
    · show payload.infinitoNexusVersion ≠ some []
      rw [hversion]
      intro hempty
      exact (orNone_eq_some.mp hempty).2 rfl
    · show (none : Option Text) ≠ some []
      exact fun hno => by cases hno
    · rw [hsent]
      exact hids
    · rw [hclean, Option.getD_some]
      exact List.ne_nil_of_mem hrole

end Accepted

/-! ## The devices that it runs on -/

/-- What the inventory of a job has. -/
structure Hosts where
  hosts : List Text
  groups : List Text

/-- An argument that limits the hosts, spelled out or not. -/
def isLimit (arg : Text) : Bool := "-l".toList.isPrefixOf arg || "--l".toList.isPrefixOf arg

/-- A name that is no option and has no meaning of its own in a limit. -/
def plainName (name : Text) : Bool := aliasPattern name && name.head? ≠ some '-' && name ≠ "all".toList

/-- The command line, which the image of the runner brings along: the hosts that a command runs on. -/
structure Cli where
  targets : List Text → Hosts → List Text

def deployCommand : List Text := ["infinito".toList, "deploy".toList, "dedicated".toList]

/-- A deployment runs on all hosts of the inventory, or on those that it is limited to. -/
structure Cli.Lawful (cli : Cli) : Prop where
  unlimited : ∀ args inventory, (∀ arg ∈ args, isLimit arg = false) →
    cli.targets (deployCommand ++ args) inventory = inventory.hosts
  limited : ∀ before names after inventory, (∀ arg ∈ before ++ after, isLimit arg = false) →
    names ≠ [] → (∀ name ∈ names, plainName name = true ∧ name ∉ inventory.groups) →
    cli.targets (deployCommand ++ before ++ ["-l".toList, joinNames names] ++ after) inventory =
      inventory.hosts.filter (· ∈ names)

/-- Nothing in the environment limits a deployment. -/
structure RunnerEnv.Unlimited (env : RunnerEnv) : Prop where
  inventoryArg : isLimit env.inventoryArg = false
  extraArgs : ∀ extra, env.extraArgs = .ok extra → ∀ arg ∈ extra, isLimit arg = false

section Targets

variable {number : Text → Option ℚ} {a : DeploymentArgs} {payload : DeploymentPayload}
  {masterPassword : Option Text} {req : DeploymentRequest} {env : RunnerEnv} {argv : List Text}
  {cli : Cli} {inventory : Hosts} {name role : Text} {names : List Text}

theorem not_space_of_plainName (h : plainName name = true) : ∀ c ∈ name, isSpace c = false := by
  unfold plainName aliasPattern at h
  simp only [Bool.and_eq_true, List.all_eq_true] at h
  intro c hc
  obtain ⟨⟨⟨-, hall⟩, -⟩, -⟩ := h
  have hcase := hall c hc
  simp only [Bool.or_eq_true, decide_eq_true_eq] at hcase
  obtain ((hlower | hdigit) | rfl) | rfl := hcase
  · have hbounds := (isLower_iff c).mp hlower
    unfold isSpace
    simp only [Bool.or_eq_false_iff, Bool.and_eq_false_imp, decide_eq_true_eq, beq_eq_false_iff_ne,
      decide_eq_false_iff_not]
    omega
  · exact isSpace_of_isDigit hdigit
  · decide
  · decide

theorem plainName_ne_nil (h : plainName name = true) : name ≠ [] := by
  rintro rfl
  exact absurd h (by decide)

theorem joinNames_cons (name : Text) (names : List Text) :
    joinNames (name :: names) = name ++ (if names = [] then [] else ',' :: joinNames names) := by
  cases names with
  | nil => simp [joinNames]
  | cons other names => simp [joinNames, List.intercalate]

theorem strip_joinNames (h : ∀ name ∈ names, plainName name = true) :
    strip (joinNames names) = joinNames names := by
  refine strip_of_no_space fun c hc => ?_
  induction names with
  | nil => cases hc
  | cons name names ih =>
    rw [joinNames_cons] at hc
    rw [List.forall_mem_cons] at h
    cases List.mem_append.mp hc with
    | inl hname => exact not_space_of_plainName h.1 c hname
    | inr hrest =>
      split at hrest
      · cases hrest
      · cases List.mem_cons.mp hrest with
        | inl hcomma =>
          rw [hcomma]
          decide
        | inr hnames => exact ih h.2 hnames

theorem joinNames_ne_nil (hne : names ≠ []) (h : ∀ name ∈ names, plainName name = true) :
    joinNames names ≠ [] := by
  obtain ⟨name, rest, rfl⟩ := List.exists_cons_of_ne_nil hne
  rw [joinNames_cons]
  intro hnil
  exact plainName_ne_nil (h name List.mem_cons_self) (List.append_eq_nil_iff.mp hnil).1

theorem isLimit_roleId (h : isRoleId role = true) : isLimit role = false := by
  cases role with
  | nil => cases h
  | cons c cs =>
    have hc : c ≠ '-' := by
      rintro rfl
      exact absurd h (by simp [isRoleId])
    simp [isLimit, List.isPrefixOf, hc.symm]

theorem isLimit_vars {varsArg : Option Text} {arg : Text} (h : arg ∈ varsArgs varsArg) :
    isLimit arg = false := by
  cases varsArg with
  | none => cases h
  | some path =>
    unfold varsArgs at h
    simp only [List.mem_cons, List.not_mem_nil, or_false] at h
    obtain rfl | rfl := h
    · decide
    · rfl

theorem isRoleId_of_cleanRoles {out v roles : List Text} (h : cleanRoles out v = some roles)
    (hout : ∀ role ∈ out, isRoleId role = true) : ∀ role ∈ roles, isRoleId role = true := by
  have hids := cleanRoles_ne_none.mp (Option.ne_none_iff_exists'.mpr ⟨roles, h⟩)
  intro role hrole
  obtain hmem | ⟨hne, x, hx, rfl⟩ := (mem_cleanRoles h).mp hrole
  · exact hout role hmem
  · exact (hids x hx).resolve_left hne

/-- The command of a request that is accepted: `deployCommand`, its limit, and arguments that limit
    nothing. -/
theorem buildRunnerArgs_eq_ok (henv : env.Unlimited) (hplaybook : req.playbookPath = none)
    (hroles : req.selectedRoles ≠ []) (hids : ∀ role ∈ req.selectedRoles, isRoleId role = true)
    (h : buildRunnerArgs env req = .ok argv) :
    ∃ after, (∀ arg ∈ after, isLimit arg = false) ∧
      argv = deployCommand ++ [env.inventoryArg] ++ limitArgs req.limit ++ after := by
  unfold buildRunnerArgs at h
  split at h
  · cases h
  · rw [hplaybook] at h
    simp only at h
    cases hextra : env.extraArgs with
    | error message =>
      rw [hextra] at h
      cases h
    | ok extra =>
      rw [hextra] at h
      cases h
      refine ⟨(if env.skipCleanup then ["--skip-cleanup".toList] else []) ++
        (if env.skipBuild then ["--skip-build".toList] else []) ++
        ("--id".toList :: req.selectedRoles) ++ varsArgs env.varsArg ++ extra, ?_, ?_⟩
      · intro arg harg
        simp only [List.mem_append, List.mem_cons] at harg
        obtain (((hskip | hskip) | (rfl | hrole)) | hvars) | hmore := harg
        · split at hskip
          · rw [List.mem_singleton.mp hskip]
            decide
          · cases hskip
        · split at hskip
          · rw [List.mem_singleton.mp hskip]
            decide
          · cases hskip
        · decide
        · exact isLimit_roleId (hids arg hrole)
        · exact isLimit_vars hvars
        · exact henv.extraArgs extra hextra arg hmore
      · unfold deployArgs deployCommand
        simp only [if_pos hroles, List.append_assoc, List.cons_append, List.nil_append]

/-- The names behind the first `-l`. -/
def limitOf : List Text → Option Text
  | arg :: names :: rest => if arg = "-l".toList then some names else limitOf (names :: rest)
  | _ => none

def plainCli : Cli where
  targets argv inventory := match limitOf argv with
    | none => inventory.hosts
    | some names => inventory.hosts.filter (· ∈ names.splitOn ',')

theorem limitOf_none {args : List Text} (h : ∀ arg ∈ args, isLimit arg = false) :
    limitOf args = none := by
  fun_induction limitOf args with
  | case1 names rest => exact absurd (h _ List.mem_cons_self) (by decide)
  | case2 arg names rest hno ih => exact ih fun arg harg => h arg (List.mem_cons_of_mem _ harg)
  | case3 => rfl

theorem limitOf_append {before : List Text} (h : ∀ arg ∈ before, isLimit arg = false)
    (names : Text) (after : List Text) :
    limitOf (before ++ "-l".toList :: names :: after) = some names := by
  induction before with
  | nil => exact if_pos rfl
  | cons arg before ih =>
    rw [List.forall_mem_cons] at h
    have hno : arg ≠ "-l".toList := by
      rintro rfl
      exact absurd h.1 (by decide)
    cases before with
    | nil =>
      rw [List.cons_append, List.nil_append, limitOf, if_neg hno]
      exact ih h.2
    | cons other before =>
      rw [List.cons_append, List.cons_append, limitOf, if_neg hno]
      exact ih h.2

theorem plainCli_lawful : plainCli.Lawful where
  unlimited args inventory h := by
    have hall : ∀ arg ∈ deployCommand ++ args, isLimit arg = false :=
      List.forall_mem_append.mpr ⟨by decide, h⟩
    unfold plainCli
    simp only [limitOf_none hall]
  limited before names after inventory h hne hnames := by
    have hbefore : ∀ arg ∈ deployCommand ++ before, isLimit arg = false :=
      List.forall_mem_append.mpr ⟨by decide, (List.forall_mem_append.mp h).1⟩
    have hcomma : ∀ name ∈ names, ',' ∉ name := by
      intro name hname hmem
      have hplain := (hnames name hname).1
      unfold plainName aliasPattern at hplain
      simp only [Bool.and_eq_true, List.all_eq_true] at hplain
      exact absurd (hplain.1.1.2 ',' hmem) (by decide)
    unfold plainCli
    simp only [List.append_assoc, List.cons_append, List.nil_append]
    rw [← List.append_assoc, limitOf_append hbefore]
    simp only [joinNames, List.splitOn_intercalate ',' hcomma hne]

def demoNumber (t : Text) : Option ℚ := if t = "22".toList then some 22 else none

def demoServer (name : Text) : ServerState :=
  { serverOf name [] [] with host := "192.0.2.7", password := "hunter2" }

def demoRoles : Selection := [("old", ["web-app-wiki"]), ("new", ["web-app-wiki"])]

def demoSelectable : List Text :=
  selectableAliases demoNumber [demoServer "old", demoServer "new"] demoRoles ["old"] ["web-app-wiki"]

/-- Everything that can be chosen is chosen: the device that has not been deployed. -/
def demoArgs : DeploymentArgs where
  activeServer := some (demoServer "new")
  selectedRolesByAlias := demoRoles
  selectedAliases := settledSelection [] demoSelectable
  selectableAliases := demoSelectable
  roleFilter := ["web-app-wiki"]
  workspaceId := "a1b2c3d4"
  inventoryReady := true
  infinitoNexusVersion := []

def demoInventory : Hosts := ⟨["old", "new"], ["web-app-wiki"]⟩

def demoEnv : RunnerEnv where
  inventoryThere := true
  inventoryArg := "/work/inventory.yml"
  playbook _ := .error "playbook_path not found"
  skipCleanup := false
  skipBuild := false
  rolesFromInventory := ["web-app-wiki"]
  varsArg := none
  extraArgs := .ok []

theorem demoEnv_unlimited : demoEnv.Unlimited where
  inventoryArg := by decide
  extraArgs extra h arg harg := by
    cases h
    cases harg

def demoPayload : DeploymentPayload where
  workspaceId := "a1b2c3d4"
  host := "192.0.2.7"
  user := "root"
  auth := ⟨"password", some "hunter2", none, none⟩
  selectedRoles := ["web-app-wiki"]
  infinitoNexusVersion := none
  port := some 22
  limit := none

theorem demo_built : buildDeploymentPayload demoNumber demoArgs = .ok demoPayload := by
  have herrors : demoArgs.errors demoNumber = [] := by decide +kernel
  unfold buildDeploymentPayload
  rw [if_neg (not_not.mpr herrors)]
  rfl

theorem payload_accepted_demo : ∃ req, (sent demoPayload none).parse = .ok req :=
  (payload_accepted_iff demo_built).mpr (by decide +kernel)

def demoRequest : DeploymentRequest where
  workspaceId := "a1b2c3d4"
  host := "192.0.2.7"
  port := some 22
  user := "root"
  auth := ⟨demoPayload.auth, rfl⟩
  masterPassword := none
  infinitoNexusVersion := none
  playbookPath := none
  limit := none
  selectedRoles := ["web-app-wiki"]

theorem demo_parsed : (sent demoPayload none).parse = .ok demoRequest := rfl

def demoArgv : List Text :=
  deployCommand ++ ["/work/inventory.yml".toList, "--id".toList, "web-app-wiki".toList]

theorem demo_argv : buildRunnerArgs demoEnv demoRequest = .ok demoArgv := rfl

end Targets

end Infinito.Runner.Api
