import Infinito.Runner.Start

/-!
# Creating a job

`JobRunnerService.create` makes a job out of a deployment request: it copies the
workspace, writes the secrets of the request where the runner finds them, queues the job in
`job.json`, works out the command, and starts the runner, through the runner manager or as
a process of its own. It raises at any of about thirty steps; `trace` lists them in order
for each mode.

If it raises, no secret is to be left and no job that looks alive. Two steps have a handler
that sees to it, the two that start the runner; a failure at any other step leaves what is
there. `cleanAt` says for each step what is left when it fails, and `create_clean` that
nothing else is.
-/

set_option autoImplicit false

namespace Infinito.Runner

namespace Api

open Py Lib

/-! ## The request and its surroundings -/

/-- `ROLE_ID_RE`, on a stripped text -/
def isRoleId : Text → Bool
  | [] => false
  | c :: cs =>
    let alnum (c : Char) := c.isLower || c.isDigit
    alnum c && cs.length ≤ 63 && cs.all fun c => alnum c || c = '-' || c = '_'

structure Request where
  /-- the private key, if that is how the runner is to log in -/
  privateKey : Option Text
  selectedRoles : List Text

/-- The steps of `create` that may raise. -/
inductive Step where
  | jobDir
  | vaultPassword
  | workspaceFiles
  | relatedDomains
  | hostVars
  /-- making the secrets directory, and writing into it -/
  | secretsDir
  | secretFiles
  /-- writing the key file, and setting its mode -/
  | keyFile
  | keyMode
  | requestFile
  | varsFiles
  | script
  | shims
  | queuedRecord
  | queuedLine
  | config
  | version
  | image
  | runnerArgs
  | command
  | imageRecord
  | startLine
  | control
  | spec
  | startJob
  | watcher
  | process
  | runningRecord
  | finalizer
  /-- of the handlers -/
  | failedRecord
  | failedLine
  deriving DecidableEq

/-- The job's directory, as far as secrets and liveness go. -/
structure JobDir where
  secretsDir : Bool
  sshKey : Bool
  record : Option JobMeta
  deriving DecidableEq

def JobDir.fresh : JobDir := ⟨false, false, none⟩

structure Env where
  /-- `RUNNER_MANAGER_URL` is set -/
  managerEnabled : Bool
  /-- `RUNNER_CMD` is set -/
  runnerCmd : Bool
  rolesFromInventory : List Text
  fails : Step → Option Raised
  /-- the directory when the call to the runner manager is over, however it ends -/
  managed : JobDir
  jobId : Name
  runnerImage : Text
  pid : Int
  now : Text

/-- `RunnerManagerJobSpec._validate_role_ids` -/
def roleIdsAccepted (env : Env) (req : Request) : Bool :=
  let roles := if req.selectedRoles = [] then env.rolesFromInventory else req.selectedRoles
  (roles.map strip).all fun role => role = [] || isRoleId role

/-- Whether and how a step fails. -/
def raises (env : Env) (req : Request) (s : Step) : Option Raised :=
  if s = .spec ∧ roleIdsAccepted env req = false then
    some (.other "role_ids entries must match ^[a-z0-9][a-z0-9\\-_]\x7b0,63\x7d$")
  else env.fails s

/-! ## `create` -/

abbrev Submit := EStateM Raised JobDir

variable (env : Env) (req : Request)

def attempt (s : Step) : Submit Unit :=
  match raises env req s with
  | none => pure ()
  | some e => throw e

def writeMeta (s : Step) (r : JobMeta) : Submit Unit := do
  attempt env req s
  modify fun w => { w with record := some r }

/-- `_cleanup_secret_material` -/
def cleanupSecretMaterial : Submit Unit :=
  modify fun w => { w with secretsDir := false, sshKey := false }

/-- `_materialize_secret_files`, with a runner manager; else `_build_vars` writes the key. -/
def writeSecrets : Submit Unit :=
  if env.managerEnabled then do
    attempt env req .secretsDir
    modify fun w => { w with secretsDir := true }
    attempt env req .secretFiles
  else match req.privateKey with
    | none => pure ()
    | some _ => do
      attempt env req .keyFile
      modify fun w => { w with sshKey := true }
      attempt env req .keyMode

def queuedMeta : JobMeta :=
  { JobMeta.empty with
    status := some .queued
    networkName := some (jobNetwork env.jobId) }

/-- The container's name is known here only if the command is built here. -/
def imageMeta : JobMeta :=
  { queuedMeta env with
    jobRunnerImage := some env.runnerImage
    containerId := if env.managerEnabled then none else some (containerName env.jobId) }

def buildCommand : Submit Unit :=
  if env.managerEnabled then pure () else attempt env req .command

/-- What is skipped when `RUNNER_CMD` says what to run. The record as it is then. -/
def prepareContainer : Submit JobMeta :=
  if env.runnerCmd then pure (queuedMeta env)
  else do
    attempt env req .config
    attempt env req .version
    attempt env req .image
    attempt env req .runnerArgs
    buildCommand env req
    writeMeta env req .imageRecord (imageMeta env)
    pure (imageMeta env)

/-- A handler: the job has failed, and no secret stays. -/
def fail (r : JobMeta) (e : Raised) : Submit Unit := do
  writeMeta env req .failedRecord (r.fail env.now 127)
  attempt env req .failedLine
  cleanupSecretMaterial
  throw e

def callManager : Submit Unit := do
  modify fun _ => env.managed
  attempt env req .startJob

def loadMeta : Submit JobMeta := do
  let w ← get
  pure (w.record.getD .empty)

def startManaged : Submit Unit := do
  attempt env req .control
  attempt env req .spec
  tryCatch (callManager env req) fun e => do
    let r ← loadMeta
    fail env req r e
  attempt env req .watcher

def startLocal (r : JobMeta) : Submit Unit := do
  tryCatch (attempt env req .process) fun e =>
    fail env req r (.http ⟨500, "failed to start runner: " ++ e.text⟩)
  let r ← loadMeta
  writeMeta env req .runningRecord { r with
    status := some .running
    startedAt := some env.now
    pid := some env.pid }
  attempt env req .finalizer

def managed : Bool := env.managerEnabled && !env.runnerCmd

def startRunner (r : JobMeta) : Submit Unit :=
  if managed env then startManaged env req else startLocal env req r

/-- `get`: a managed job that is over is cleaned up. -/
def getJob : Submit JobMeta := do
  let r ← loadMeta
  if managed env ∧ r.status.any JobStatus.terminal = true then cleanupSecretMaterial
  pure r

def create : Submit JobMeta := do
  attempt env req .jobDir
  attempt env req .vaultPassword
  attempt env req .workspaceFiles
  attempt env req .relatedDomains
  attempt env req .hostVars
  writeSecrets env req
  attempt env req .requestFile
  attempt env req .varsFiles
  attempt env req .script
  attempt env req .shims
  writeMeta env req .queuedRecord (queuedMeta env)
  attempt env req .queuedLine
  let r ← prepareContainer env req
  attempt env req .startLine
  startRunner env req r
  getJob env

/-! ## What a failure leaves -/

def secretSteps : List Step :=
  if env.managerEnabled then [.secretsDir, .secretFiles]
  else if req.privateKey.isSome then [.keyFile, .keyMode] else []

def containerSteps : List Step :=
  if env.runnerCmd then []
  else if env.managerEnabled then [.config, .version, .image, .runnerArgs, .imageRecord]
  else [.config, .version, .image, .runnerArgs, .command, .imageRecord]

def startSteps : List Step :=
  if managed env then [.control, .spec, .startJob, .watcher]
  else [.process, .runningRecord, .finalizer]

/-- The steps in the order in which they are taken. -/
def trace : List Step :=
  .jobDir :: .vaultPassword :: .workspaceFiles :: .relatedDomains :: .hostVars ::
    (secretSteps env req ++ .requestFile :: .varsFiles :: .script :: .shims :: .queuedRecord ::
      .queuedLine :: (containerSteps env ++ .startLine :: startSteps env))

/-- No secret on disk. -/
def JobDir.NoSecrets (w : JobDir) : Prop := w.secretsDir = false ∧ w.sshKey = false

/-- No secret on disk, and no job that looks alive. -/
def JobDir.Clean (w : JobDir) : Prop :=
  w.NoSecrets ∧ ∀ r, w.record = some r → r.status.any JobStatus.terminal = true

/-- The request has no secret that is written to disk in this mode. -/
def Harmless : Prop := env.managerEnabled = false ∧ req.privateKey = none

/-- When a failure at this step leaves nothing. -/
def cleanAt : Step → Prop
  -- nothing is written yet
  | .jobDir | .vaultPassword | .workspaceFiles | .relatedDomains | .hostVars
  | .secretsDir | .keyFile => True
  -- the secrets are, the record is not
  | .requestFile | .varsFiles | .script | .shims | .queuedRecord => Harmless env req
  -- the two steps with a handler, which may fail too
  | .startJob => match env.fails .failedRecord, env.fails .failedLine with
    | none, none => True
    | none, some _ => env.managed.NoSecrets
    | some _, _ => env.managed.Clean
  | .process => match env.fails .failedRecord, env.fails .failedLine with
    | none, none => True
    | none, some _ => Harmless env req
    | some _, _ => False
  -- the manager has the job
  | .watcher => env.managed.Clean
  | .secretFiles | .keyMode | .queuedLine | .config | .version | .image | .runnerArgs
  | .command | .imageRecord | .startLine | .control | .spec | .runningRecord | .finalizer
  | .failedRecord | .failedLine => False

/-- The first step that fails leaves nothing. -/
def FailsClean : Prop :=
  ∃ s, (trace env req).find? (fun s => (raises env req s).isSome) = some s ∧ cleanAt env req s

/-! ## Steps one after the other -/

section Follows

variable {env req} {α β : Type} {w : JobDir} {s : Step} {steps : List Step}

/-- From `w`, the program takes these steps and fails at the first that raises, leaving what
    `cleanAt` says. -/
def Follows (env : Env) (req : Request) (w : JobDir) (m : Submit α) (steps : List Step) : Prop :=
  match m w with
  | .ok _ _ => steps.find? (fun s => (raises env req s).isSome) = none
  | .error _ w' => ∃ s, steps.find? (fun s => (raises env req s).isSome) = some s ∧
      (w'.Clean ↔ cleanAt env req s)

theorem attempt_eq : attempt env req s w = match raises env req s with
    | none => .ok () w
    | some e => .error e w := by
  unfold attempt
  cases raises env req s <;> rfl

theorem attempt_ok {u : JobDir} (h : attempt env req s w = .ok () u) : u = w := by
  rw [attempt_eq] at h
  split at h
  · cases h
    rfl
  · cases h

theorem follows_pure {a : α} : Follows env req w (pure a) [] := rfl

theorem follows_attempt (hs : w.Clean ↔ cleanAt env req s) :
    Follows env req w (attempt env req s) [s] := by
  unfold Follows
  rw [attempt_eq]
  cases hraises : raises env req s with
  | none => exact List.find?_cons_of_neg (by rw [hraises]; decide)
  | some e => exact ⟨s, List.find?_cons_of_pos (by rw [hraises]; rfl), hs⟩

theorem follows_bind {m : Submit α} {f : α → Submit β} {steps' : List Step}
    (hm : Follows env req w m steps)
    (hf : ∀ a u, m w = .ok a u → Follows env req u (f a) steps') :
    Follows env req w (m >>= f) (steps ++ steps') := by
  unfold Follows at hm
  show match EStateM.bind m f w with | .ok _ _ => _ | .error _ w' => _
  unfold EStateM.bind
  cases hok : m w with
  | error e u =>
    rw [hok] at hm
    obtain ⟨s, hs, hclean⟩ := hm
    exact ⟨s, by rw [List.find?_append, hs]; rfl, hclean⟩
  | ok a u =>
    rw [hok] at hm
    have hf := hf a u hok
    unfold Follows at hf
    dsimp only
    rw [List.find?_append, hm, Option.none_or]
    exact hf

theorem follows_step {m : Submit α} {f : α → Submit β} (hm : Follows env req w m [s])
    (hf : ∀ a u, m w = .ok a u → Follows env req u (f a) steps) :
    Follows env req w (m >>= f) (s :: steps) := follows_bind hm hf

/-- A step and the rest. -/
theorem follows_cons {f : Unit → Submit β} (hs : w.Clean ↔ cleanAt env req s)
    (hf : Follows env req w (f ()) steps) :
    Follows env req w (attempt env req s >>= f) (s :: steps) := by
  refine follows_bind (follows_attempt hs) fun a u hok => ?_
  rw [attempt_ok hok]
  exact hf

theorem follows_modify {g : JobDir → JobDir} {f : Unit → Submit β}
    (hf : Follows env req (g w) (f ()) steps) :
    Follows env req w ((modify g : Submit Unit) >>= f) steps := hf

theorem writeMeta_ok {r : JobMeta} {u : JobDir} (h : writeMeta env req s r w = .ok () u) :
    u = { w with record := some r } := by
  unfold writeMeta at h
  obtain ⟨⟨⟩, v, hv, hmodify⟩ := bind_eq_ok.mp h
  cases hmodify
  rw [attempt_ok hv]

theorem follows_writeMeta {r : JobMeta} {f : Unit → Submit β} (hs : w.Clean ↔ cleanAt env req s)
    (hf : Follows env req { w with record := some r } (f ()) steps) :
    Follows env req w (writeMeta env req s r >>= f) (s :: steps) := by
  refine follows_step (follows_cons hs (follows_modify rfl)) fun a u hok => ?_
  rw [writeMeta_ok hok]
  exact hf

end Follows

/-! ## The blocks -/

section Blocks

variable {env req} {w : JobDir}

/-- The directory once the secrets are written. -/
def withSecrets (env : Env) (req : Request) : JobDir :=
  ⟨env.managerEnabled, !env.managerEnabled && req.privateKey.isSome, none⟩

theorem fresh_clean : JobDir.fresh.Clean := ⟨⟨rfl, rfl⟩, fun r h => by cases h⟩

theorem withSecrets_clean : (withSecrets env req).Clean ↔ Harmless env req := by
  unfold withSecrets JobDir.Clean JobDir.NoSecrets Harmless
  dsimp only
  cases env.managerEnabled with
  | true => simp
  | false => simp

/-- A job that looks alive is not clean. -/
theorem not_clean {r : JobMeta} (hr : r.status.any JobStatus.terminal = false) :
    ¬ { w with record := some r }.Clean := by
  intro h
  have := h.2 r rfl
  rw [hr] at this
  cases this

theorem writeSecrets_follows :
    Follows env req .fresh (writeSecrets env req) (secretSteps env req) := by
  unfold writeSecrets secretSteps
  cases env.managerEnabled with
  | true =>
    refine follows_cons (iff_of_true fresh_clean trivial) (follows_modify (follows_attempt ?_))
    exact iff_of_false (fun h => absurd h.1.1 (by decide)) id
  | false =>
    cases req.privateKey with
    | none => exact follows_pure
    | some key =>
      refine follows_cons (iff_of_true fresh_clean trivial) (follows_modify (follows_attempt ?_))
      exact iff_of_false (fun h => absurd h.1.2 (by decide)) id

theorem writeSecrets_ok {u : JobDir} (h : writeSecrets env req .fresh = .ok () u) :
    u = withSecrets env req := by
  unfold writeSecrets at h
  unfold withSecrets
  cases hmanager : env.managerEnabled with
  | true =>
    rw [hmanager, if_pos rfl] at h
    obtain ⟨⟨⟩, v, hv, h⟩ := bind_eq_ok.mp h
    obtain ⟨⟨⟩, x, hx, h⟩ := bind_eq_ok.mp h
    rw [attempt_ok h]
    cases hx
    rw [attempt_ok hv]
    rfl
  | false =>
    rw [hmanager, if_neg (by decide)] at h
    cases hkey : req.privateKey with
    | none => rw [hkey] at h; cases h; rfl
    | some key =>
      rw [hkey] at h
      obtain ⟨⟨⟩, v, hv, h⟩ := bind_eq_ok.mp h
      obtain ⟨⟨⟩, x, hx, h⟩ := bind_eq_ok.mp h
      rw [attempt_ok h]
      cases hx
      rw [attempt_ok hv]
      rfl

/-- Between the queueing and the start, every failure leaves a job that looks alive. -/
theorem prepareContainer_follows {r : JobMeta} (hr : r.status.any JobStatus.terminal = false) :
    Follows env req { w with record := some r } (prepareContainer env req) (containerSteps env) := by
  have halive {s : Step} (hs : cleanAt env req s = False) :
      { w with record := some r }.Clean ↔ cleanAt env req s :=
    iff_of_false (not_clean hr) fun h => by rw [hs] at h; exact h
  unfold prepareContainer buildCommand containerSteps
  cases env.runnerCmd with
  | true => exact follows_pure
  | false =>
    cases env.managerEnabled with
    | true =>
      exact follows_cons (halive rfl) (follows_cons (halive rfl) (follows_cons (halive rfl)
        (follows_cons (halive rfl) (follows_writeMeta (halive rfl) follows_pure))))
    | false =>
      exact follows_cons (halive rfl) (follows_cons (halive rfl) (follows_cons (halive rfl)
        (follows_cons (halive rfl) (follows_cons (halive rfl)
          (follows_writeMeta (halive rfl) follows_pure)))))

theorem prepareContainer_ok {r : JobMeta} {u : JobDir}
    (h : prepareContainer env req { w with record := some (queuedMeta env) } = .ok r u) :
    u = { w with record := some r } ∧ r.status.any JobStatus.terminal = false := by
  unfold prepareContainer buildCommand at h
  cases hcmd : env.runnerCmd with
  | true =>
    rw [hcmd, if_pos rfl] at h
    cases h
    exact ⟨rfl, rfl⟩
  | false =>
    rw [hcmd, if_neg (by decide)] at h
    obtain ⟨⟨⟩, v₁, hv, h⟩ := bind_eq_ok.mp h
    obtain rfl := attempt_ok hv
    obtain ⟨⟨⟩, v₁, hv, h⟩ := bind_eq_ok.mp h
    obtain rfl := attempt_ok hv
    obtain ⟨⟨⟩, v₁, hv, h⟩ := bind_eq_ok.mp h
    obtain rfl := attempt_ok hv
    obtain ⟨⟨⟩, v₁, hv, h⟩ := bind_eq_ok.mp h
    obtain rfl := attempt_ok hv
    obtain ⟨⟨⟩, v₁, hv, h⟩ := bind_eq_ok.mp h
    have hsame : v₁ = { w with record := some (queuedMeta env) } := by
      cases hmanager : env.managerEnabled with
      | true => rw [hmanager, if_pos rfl] at hv; cases hv; rfl
      | false => rw [hmanager, if_neg (by decide)] at hv; exact attempt_ok hv
    obtain ⟨⟨⟩, v₂, hv, h⟩ := bind_eq_ok.mp h
    have := writeMeta_ok hv
    cases h
    rw [this, hsame]
    exact ⟨rfl, rfl⟩

/-- A handler: it leaves nothing if it gets through, and what is there if it does not. -/
theorem fail_eq {r : JobMeta} {e : Raised} : fail env req r e w =
    match env.fails .failedRecord, env.fails .failedLine with
    | some e', _ => .error e' w
    | none, some e' => .error e' { w with record := some (r.fail env.now 127) }
    | none, none => .error e ⟨false, false, some (r.fail env.now 127)⟩ := by
  have hrecord : raises env req .failedRecord = env.fails .failedRecord := if_neg (by simp)
  have hline : raises env req .failedLine = env.fails .failedLine := if_neg (by simp)
  unfold fail writeMeta attempt
  rw [hrecord, hline]
  cases env.fails .failedRecord with
  | some e' => rfl
  | none => cases env.fails .failedLine <;> rfl

theorem failed_clean {r : JobMeta} {secretsDir sshKey : Bool} :
    (JobDir.mk secretsDir sshKey (some (r.fail env.now 127))).Clean ↔
      secretsDir = false ∧ sshKey = false := by
  unfold JobDir.Clean JobDir.NoSecrets
  refine and_iff_left fun r' hr' => ?_
  cases hr'
  rfl

theorem callManager_follows : Follows env req w (tryCatch (callManager env req) fun e => do
    let r ← loadMeta
    fail env req r e) [.startJob] := by
  unfold Follows
  rw [tryCatch_apply]
  have hcall : callManager env req w = match raises env req .startJob with
      | none => .ok () env.managed
      | some e => .error e env.managed := by
    show attempt env req .startJob env.managed = _
    exact attempt_eq
  rw [hcall]
  cases hraises : raises env req .startJob with
  | none => exact List.find?_cons_of_neg (by rw [hraises]; decide)
  | some e =>
    dsimp only
    have hload : (do let r ← loadMeta; fail env req r e : Submit Unit) env.managed =
        fail env req (env.managed.record.getD .empty) e env.managed := rfl
    rw [hload, fail_eq]
    have hfind : [Step.startJob].find? (fun s => (raises env req s).isSome) = some .startJob :=
      List.find?_cons_of_pos (by rw [hraises]; rfl)
    have hclean : cleanAt env req .startJob ↔ match env.fails .failedRecord, env.fails .failedLine with
      | none, none => True
      | none, some _ => env.managed.NoSecrets
      | some _, _ => env.managed.Clean := Iff.rfl
    cases hrecord : env.fails .failedRecord with
    | some e' => exact ⟨_, hfind, by rw [hclean, hrecord]⟩
    | none =>
      cases hline : env.fails .failedLine with
      | some e' => exact ⟨_, hfind, by rw [hclean, hrecord, hline]; exact failed_clean⟩
      | none =>
        refine ⟨_, hfind, ?_⟩
        rw [hclean, hrecord, hline]
        exact iff_of_true (failed_clean.mpr ⟨rfl, rfl⟩) trivial

theorem startManaged_follows {r : JobMeta} (hr : r.status.any JobStatus.terminal = false) :
    Follows env req { w with record := some r } (startManaged env req)
      [.control, .spec, .startJob, .watcher] := by
  refine follows_cons (iff_of_false (not_clean hr) id) (follows_cons
    (iff_of_false (not_clean hr) id) (follows_step callManager_follows
      fun a u hok => ?_))
  have hmanaged : u = env.managed := by
    rw [tryCatch_apply] at hok
    have hcall : callManager env req { w with record := some r } =
        attempt env req .startJob env.managed := rfl
    rw [hcall, attempt_eq] at hok
    cases hraises : raises env req .startJob with
    | none => rw [hraises] at hok; cases hok; rfl
    | some e =>
      rw [hraises] at hok
      have hload : (do let r ← loadMeta; fail env req r e : Submit Unit) env.managed =
          fail env req (env.managed.record.getD .empty) e env.managed := rfl
      dsimp only at hok
      rw [hload, fail_eq] at hok
      split at hok <;> cases hok
  rw [hmanaged]
  exact follows_attempt Iff.rfl

/-- In this mode the process is started with what the secrets have left. -/
theorem startLocal_follows {r : JobMeta} (hr : r.status.any JobStatus.terminal = false)
    (hsecrets : w.NoSecrets ↔ Harmless env req) :
    Follows env req { w with record := some r } (startLocal env req r)
      [.process, .runningRecord, .finalizer] := by
  have hprocess : Follows env req { w with record := some r }
      (tryCatch (attempt env req .process) fun e =>
        fail env req r (.http ⟨500, "failed to start runner: " ++ e.text⟩)) [.process] := by
    unfold Follows
    rw [tryCatch_apply, attempt_eq]
    cases hraises : raises env req .process with
    | none => exact List.find?_cons_of_neg (by rw [hraises]; decide)
    | some e =>
      dsimp only
      rw [fail_eq]
      have hfind : [Step.process].find? (fun s => (raises env req s).isSome) = some .process :=
        List.find?_cons_of_pos (by rw [hraises]; rfl)
      have hclean : cleanAt env req .process ↔ match env.fails .failedRecord, env.fails .failedLine with
        | none, none => True
        | none, some _ => Harmless env req
        | some _, _ => False := Iff.rfl
      -- the process did not start, and the failure is written: its record, and then its line
      cases hrecord : env.fails .failedRecord with
      | some e' => exact ⟨_, hfind, by rw [hclean, hrecord]; exact iff_of_false (not_clean hr) id⟩
      | none =>
        cases hline : env.fails .failedLine with
        | some e' =>
          refine ⟨_, hfind, ?_⟩
          rw [hclean, hrecord, hline]
          exact failed_clean.trans hsecrets
        | none =>
          refine ⟨_, hfind, ?_⟩
          rw [hclean, hrecord, hline]
          exact iff_of_true (failed_clean.mpr ⟨rfl, rfl⟩) trivial
  refine follows_step hprocess fun a u hok => ?_
  have hsame : u = { w with record := some r } := by
    rw [tryCatch_apply, attempt_eq] at hok
    cases hraises : raises env req .process with
    | none => rw [hraises] at hok; cases hok; rfl
    | some e =>
      rw [hraises] at hok
      dsimp only at hok
      rw [fail_eq] at hok
      split at hok <;> cases hok
  rw [hsame]
  show Follows env req { w with record := some r } (writeMeta env req .runningRecord _ >>= _) _
  exact follows_writeMeta (iff_of_false (not_clean hr) id)
    (follows_attempt (iff_of_false (not_clean rfl) id))

end Blocks

/-- **What a failed creation leaves.** If `create` raises, no secret is left on disk and no
    job that looks alive if and only if the first step that fails is one where that is so. -/
theorem create_clean (env : Env) (req : Request) (w : JobDir) (e : Raised)
    (h : create env req .fresh = .error e w) : w.Clean ↔ FailsClean env req := by
  have hsecrets : (withSecrets env req).NoSecrets ↔ Harmless env req :=
    ⟨fun h => withSecrets_clean.mp ⟨h, fun r hr => by cases hr⟩,
      fun h => (withSecrets_clean.mpr h).1⟩
  have hfollows : Follows env req .fresh (create env req) (trace env req) := by
    unfold create trace
    refine follows_cons (iff_of_true fresh_clean trivial) (follows_cons
      (iff_of_true fresh_clean trivial) (follows_cons (iff_of_true fresh_clean trivial)
        (follows_cons (iff_of_true fresh_clean trivial) (follows_cons
          (iff_of_true fresh_clean trivial) (follows_bind writeSecrets_follows fun a u hok => ?_)))))
    rw [writeSecrets_ok hok]
    -- the secrets are written
    refine follows_cons withSecrets_clean (follows_cons withSecrets_clean (follows_cons
      withSecrets_clean (follows_cons withSecrets_clean (follows_writeMeta withSecrets_clean
        (follows_cons (iff_of_false (not_clean rfl) id) (follows_bind
          (prepareContainer_follows rfl) fun r u hok => ?_))))))
    obtain ⟨rfl, hr⟩ := prepareContainer_ok hok
    -- the job is queued
    refine follows_cons (iff_of_false (not_clean hr) id) ?_
    rw [← List.append_nil (startSteps env)]
    refine follows_bind ?_ fun a u _ => ?_
    · unfold startRunner startSteps
      split
      · exact startManaged_follows hr
      · exact startLocal_follows hr hsecrets
    · have hload : Follows env req u loadMeta [] := rfl
      have hget : Follows env req u (getJob env) ([] ++ []) :=
        follows_bind hload fun r v _ => by split <;> rfl
      exact hget
  unfold Follows at hfollows
  rw [h] at hfollows
  obtain ⟨s, hs, hclean⟩ := hfollows
  rw [hclean]
  constructor
  · exact fun hat => ⟨s, hs, hat⟩
  · rintro ⟨s', hs', hat⟩
    rw [hs] at hs'
    cases hs'
    exact hat

section Demo

def playbookJob : Text := "6f9619ff-8b86-4d01-b42d-00cf4fc964ff"

/-- A deployment by private key, with a playbook that is not in the workspace: the manager
    is never asked. -/
def withoutPlaybook : Env where
  managerEnabled := true
  runnerCmd := false
  rolesFromInventory := []
  fails s := if s = .runnerArgs then some (.http ⟨400, "playbook_path not found"⟩) else none
  managed := .fresh
  jobId := ⟨playbookJob, by decide⟩
  runnerImage := "runner:1"
  pid := 4711
  now := "2026-01-01T00:00:00Z"

/-- The same, with a manager that cannot be reached. -/
def withoutManager : Env :=
  { withoutPlaybook with
    fails := fun s => if s = .startJob then some (.http ⟨502, "runner-manager request failed"⟩)
      else none }

def byKey : Request := ⟨some "-----BEGIN KEY-----", ["web-app"]⟩

/-- What is left if `create` raises. -/
def left (env : Env) (req : Request) : Option JobDir :=
  match create env req .fresh with
  | .ok _ _ => none
  | .error _ w => some w

theorem exists_of_left {env : Env} {req : Request} {w : JobDir} (h : left env req = some w) :
    ∃ e, create env req .fresh = .error e w := by
  unfold left at h
  split at h
  · cases h
  · rename_i e w' hcreate
    cases h
    exact ⟨e, hcreate⟩

/-- The handler of the start cleans up. -/
theorem create_clean_unreachable : ∃ e w, create withoutManager byKey .fresh = .error e w ∧
    (w.Clean ↔ FailsClean withoutManager byKey) := by
  have hleft : (left withoutManager byKey).isSome = true := by decide +kernel
  obtain ⟨w, hw⟩ := Option.isSome_iff_exists.mp hleft
  obtain ⟨e, he⟩ := exists_of_left hw
  exact ⟨e, w, he, create_clean withoutManager byKey w e he⟩

/-- **An invalid playbook path leaves the secrets**, and a job that is queued forever. -/
theorem invalid_playbook_leaves_secrets : ¬ ∀ (env : Env) (req : Request) (w : JobDir) (e : Raised),
    create env req .fresh = .error e w → w.Clean := by
  intro hclaim
  have hleft : (left withoutPlaybook byKey).map (·.secretsDir) = some true := by decide +kernel
  obtain ⟨w, hw, hsecrets⟩ := Option.map_eq_some_iff.mp hleft
  obtain ⟨e, he⟩ := exists_of_left hw
  have hclean := (hclaim withoutPlaybook byKey w e he).1.1
  rw [hsecrets] at hclean
  cases hclean

end Demo

end Api

end Infinito.Runner
