import Mathlib.Data.List.Lex
import Mathlib.Data.Char
import Infinito.Lib.Effect
import Infinito.Lib.FinMap
import Infinito.Py.Value
import Infinito.Runner.Job

/-!
# Starting a runner

`create` of the runner manager makes the job's network, then its secret volume, connects
the compose containers the inventory names, builds the command, starts it, waits for the
container and seeds the secrets; each of these may fail, and each failure has its cleanup.

How every step that can fail ends is an input, `Outcomes`: one answer for each command,
since none is given twice. Polls of a container that comes up, and the removal commands,
have no answer of their own.
-/

set_option autoImplicit false

namespace Infinito.Runner

open Py Lib

/-! ## What is read -/

/-- A file of `host_vars/`: its stem, and `ansible_host` unless that is falsy. -/
structure HostVars where
  stem : Text
  ansibleHost : Option Text

/-- What is on disk and in docker about a job that is to be started. -/
structure Job where
  found : Bool
  /-- the control file: missing, unreadable with a reason, or read -/
  control : Option (Except String Val)
  /-- whether there is a secrets directory -/
  secrets : Bool
  /-- in the order of their paths -/
  hostVars : List HostVars
  /-- what `docker ps` prints for a compose service, and for a container's name -/
  psService : Text → Option Text
  psName : Text → Option Text

/-- What code raises: FastAPI's `HTTPException`, or anything else. -/
inductive Raised where
  | http (e : HttpError)
  | other (message : String)

/-- `str(exc)` -/
def Raised.text : Raised → String
  | .http e => Nat.repr e.status ++ ": " ++ e.detail
  | .other message => message

/-- How a command of docker's ends. -/
inductive Ran where
  | done
  | exited (detail : String)
  | raised (e : Raised)

/-- How the steps of a start end, where they can fail. -/
structure Outcomes where
  config : Option Raised
  network : Ran
  volume : Ran
  target : Name → Ran
  command : Option Raised
  process : Except Raised Int
  /-- whether the container has appeared by the time it is looked for -/
  appears : Bool
  running : Option HttpError
  seeding : Ran
  /-- what `docker inspect` says about a container that failed -/
  exitCode : Option Int
  failedRecord : Option Raised
  runningRecord : Option Raised
  watcher : Option Raised
  now : Text

/-- What a start changes. -/
structure World where
  docker : Docker
  record : JobMeta
  secretsDir : Bool
  sshKey : Bool

abbrev Manager := EStateM Raised World

def changeDocker (f : Docker → Docker) : Manager Unit :=
  modify fun w => { w with docker := f w.docker }

def raiseIf : Option Raised → Manager Unit
  | none => pure ()
  | some e => throw e

/-! ## Mode A targets -/

/-- `_find_compose_target_container` -/
def findComposeTargetContainer (job : Job) (host : Text) : Option Name :=
  if strip host = [] then none
  else match dockerLines (job.psService (strip host)) with
    | name :: _ => some name
    | [] => (dockerLines (job.psName (strip host))).head?

/-- One file of `host_vars/`, added to the aliases of the container it names. -/
def addTarget (job : Job) (targets : FinMap Name (Finset Text)) (vars : HostVars) :
    FinMap Name (Finset Text) :=
  let stem := strip vars.stem
  let host := strip (vars.ansibleHost.getD stem)
  if host = [] then targets
  else match findComposeTargetContainer job host with
    | none => targets
    | some name =>
      let aliases := insert host ((targets.get name).getD ∅)
      targets.set name (if stem = [] then aliases else insert stem aliases)

/-- The containers to connect, in the order of their names. -/
def modeATargets (job : Job) : List Target :=
  let targets := job.hostVars.foldl (addTarget job) .empty
  (sortedBy Subtype.val name_injective targets.keys).map fun name =>
    ⟨name, sortedBy id Function.injective_id ((targets.get name).getD ∅)⟩

def connectTarget (o : Outcomes) (network : Name) (t : Target) : Manager Unit :=
  match o.target t.containerName with
  | .done => changeDocker (·.connect network t.containerName)
  | .exited stderr => throw (.http ⟨500, "failed to attach compose-adjacent target " ++
      String.ofList t.containerName.val ++ " to " ++ String.ofList network.val ++ ": " ++ stderr⟩)
  | .raised e => throw e

def connectTargets (o : Outcomes) (network : Name) : List Target → Manager Unit
  | [] => pure ()
  | t :: ts => do
    connectTarget o network t
    connectTargets o network ts

/-- `_connect_mode_a_targets` returns the attachments only when it is through. -/
def connectModeATargets (o : Outcomes) (job : Job) (network : Name) : Manager (List Target) := do
  connectTargets o network (modeATargets job)
  pure (modeATargets job)

/-- `_disconnect_mode_a_targets` -/
def disconnectTargets (network : Name) (targets : List Target) (d : Docker) : Docker :=
  targets.foldl (fun d t => d.disconnect network t.containerName) d

/-! ## Resources -/

def createInternalNetwork (o : Outcomes) (network : Name) : Manager Unit := do
  let failed (detail : String) : Raised := .http ⟨500, "failed to create runner network " ++
    String.ofList network.val ++ ": " ++ detail⟩
  if network ∈ (← get).docker.networks then throw (failed "network already exists")
  else match o.network with
    | .done => changeDocker (·.createNetwork network)
    | .exited detail => throw (failed detail)
    | .raised e => throw (failed e.text)

theorem createInternalNetwork_done {o : Outcomes} {network : Name} {w : World}
    (hnew : network ∉ w.docker.networks) (hdone : o.network = .done) :
    createInternalNetwork o network w =
      .ok () { w with docker := w.docker.createNetwork network } := by
  have hstart : createInternalNetwork o network w =
      (if network ∈ w.docker.networks then throw _ else _ : Manager Unit) w := rfl
  rw [hstart, if_neg hnew, hdone]
  rfl

def createTmpfsVolume (o : Outcomes) (volume : Name) : Manager Unit :=
  match o.volume with
  | .done => changeDocker (·.createVolume volume)
  | .exited detail => throw (.http ⟨500, "failed to create runner secret volume " ++
      String.ofList volume.val ++ ": " ++ detail⟩)
  | .raised e => throw e

def removeVolume (volume : Option Name) (d : Docker) : Docker :=
  match volume with
  | none => d
  | some v => d.removeVolume v

/-- The three calls that every cleanup makes. -/
def release (network : Name) (targets : List Target) (volume : Option Name) (d : Docker) : Docker :=
  removeVolume volume ((disconnectTargets network targets d).removeNetwork network)

/-- `docker run` in a process of its own: the container appears when it does. -/
def startProcess (o : Outcomes) (spec : JobSpec) : Manager Int :=
  match o.process with
  | .error e => throw e
  | .ok pid => do
    if o.appears then
      changeDocker (·.runContainer spec.networkName (containerName spec.jobId))
    pure pid

/-- `_wait_for_container_running` and `_bootstrap_runner_secrets` -/
def seedSecrets (o : Outcomes) : Manager Unit :=
  match o.running with
  | some e => throw (.http e)
  | none => match o.seeding with
    | .done => pure ()
    | .exited detail => throw (.http ⟨500, "failed to seed runner secrets: " ++ detail⟩)
    | .raised e => throw e

def writeMeta (failure : Option Raised) (record : JobMeta) : Manager Unit := do
  raiseIf failure
  modify fun w => { w with record := record }

/-- `_cleanup_secret_dir` -/
def cleanupSecretDir (volume : Option Name) : Manager Unit :=
  modify fun w => { w with
    docker := removeVolume volume w.docker
    secretsDir := false
    sshKey := false }

/-! ## `create` -/

structure DeploymentJobOut where
  jobId : Name
  status : JobStatus
  startedAt : Option Text
  finishedAt : Option Text
  pid : Option Int
  exitCode : Option Int
  containerId : Option Name

def getJob (spec : JobSpec) (job : Job) : Manager DeploymentJobOut := do
  if job.found = false then throw (.http ⟨404, "job not found"⟩)
  else
    let record := (← get).record
    pure ⟨spec.jobId, record.status.getD .queued, record.startedAt, record.finishedAt, record.pid,
      record.exitCode, record.containerId⟩

/-- `_load_control`, and the check of what it loads -/
def loadControl (job : Job) : Manager Unit :=
  match job.control with
  | none => throw (.http ⟨400, "runner control file missing"⟩)
  | some (.error reason) => throw (.http ⟨400, "runner control file is invalid: " ++ reason⟩)
  | some (.ok (.dict control)) =>
    match Dict.get control "cli_args" with
    | .list (_ :: _) => pure ()
    | _ => throw (.http ⟨400, "runner control file is invalid"⟩)
  | some (.ok _) => throw (.other "the control file is no mapping")

def secretVolume (spec : JobSpec) (job : Job) : Option Name :=
  if job.secrets then some (secretVolumeName spec.jobId) else none

def allocation (spec : JobSpec) (job : Job) (targets : List Target) : Acquired :=
  ⟨containerName spec.jobId, spec.networkName, targets, secretVolume spec job⟩

def makeVolume (spec : JobSpec) (job : Job) (o : Outcomes) : Manager Unit :=
  match secretVolume spec job with
  | none => pure ()
  | some volume => createTmpfsVolume o volume

/-- Volume and targets. The list of targets that were connected is empty until all are. -/
def acquire (spec : JobSpec) (job : Job) (o : Outcomes) : Manager (List Target) :=
  tryCatch (do
      makeVolume spec job o
      connectModeATargets o job spec.networkName)
    fun e => do
      changeDocker (release spec.networkName [] (secretVolume spec job))
      throw e

def buildCommand (spec : JobSpec) (job : Job) (o : Outcomes) (targets : List Target) : Manager Unit :=
  tryCatch (raiseIf o.command) fun e => do
    changeDocker (release spec.networkName targets (secretVolume spec job))
    throw e

def launch (spec : JobSpec) (job : Job) (o : Outcomes) (record : JobMeta) (targets : List Target) :
    Manager Int :=
  tryCatch (startProcess o spec) fun e => do
    changeDocker (release spec.networkName targets (secretVolume spec job))
    writeMeta o.failedRecord (record.fail o.now 127)
    throw (.http ⟨500, "failed to start runner: " ++ e.text⟩)

def seed (spec : JobSpec) (job : Job) (o : Outcomes) (record : JobMeta) (targets : List Target) :
    Manager Unit :=
  match secretVolume spec job with
  | none => pure ()
  | some volume => tryCatch (seedSecrets o) fun e => do
      changeDocker (·.removeContainer (containerName spec.jobId))
      changeDocker fun d => (disconnectTargets spec.networkName targets d).removeNetwork
        spec.networkName
      writeMeta o.failedRecord ((record.fail o.now (o.exitCode.getD 127)).acquire
        (allocation spec job targets))
      cleanupSecretDir (some volume)
      match e with
      | .http e => throw (.http e)
      | .other message => throw (.http ⟨500, "failed to seed runner secrets: " ++ message⟩)

/-- The steps after the network. -/
def proceed (spec : JobSpec) (job : Job) (o : Outcomes) (record : JobMeta) :
    Manager DeploymentJobOut := do
  let targets ← acquire spec job o
  buildCommand spec job o targets
  let pid ← launch spec job o record targets
  seed spec job o record targets
  writeMeta o.runningRecord
    (record.start o.now pid spec.runnerImage.val (allocation spec job targets))
  raiseIf o.watcher
  getJob spec job

/-- From the network on. -/
def start (spec : JobSpec) (job : Job) (o : Outcomes) (record : JobMeta) :
    Manager DeploymentJobOut := do
  createInternalNetwork o spec.networkName
  proceed spec job o record

def create (spec : JobSpec) (job : Job) (o : Outcomes) : Manager DeploymentJobOut := do
  if job.found = false then throw (.http ⟨404, "job not found"⟩)
  else
    loadControl job
    let record := (← get).record
    if record.status = some .running then getJob spec job
    else
      raiseIf o.config
      start spec job o record

end Infinito.Runner
