import Infinito.Runner.Docker

/-!
# The record of a job

`job.json` is written by the API, which creates a job, and by the runner manager, which
runs it. Both load it whole and write it whole. A missing file loads as the empty record.

A `JobSpec` is what the API sends the manager to start a job. Its names are stripped and
its network is the job's own, so those are fields of it.
-/

set_option autoImplicit false

namespace Infinito.Runner

open Py

inductive JobStatus where
  | queued
  | running
  | succeeded
  | failed
  | canceled
  deriving DecidableEq, Repr

/-- `TERMINAL_JOB_STATUSES` -/
def JobStatus.terminal : JobStatus → Bool
  | .succeeded | .failed | .canceled => true
  | .queued | .running => false

/-- `ACTIVE_JOB_STATUSES` -/
def JobStatus.active : JobStatus → Bool
  | .queued | .running => true
  | .succeeded | .failed | .canceled => false

/-- A container of the compose stack that is connected to the job's network. -/
structure Target where
  containerName : Name
  aliases : List Text
  deriving DecidableEq

structure JobMeta where
  status : Option JobStatus
  startedAt : Option Text
  finishedAt : Option Text
  pid : Option Int
  exitCode : Option Int
  containerId : Option Name
  jobRunnerImage : Option Text
  networkName : Option Name
  modeATargets : List Target
  secretVolumeName : Option Name
  deriving DecidableEq

/-- `{}` -/
def JobMeta.empty : JobMeta := ⟨none, none, none, none, none, none, none, none, [], none⟩

def JobMeta.isActive (r : JobMeta) : Bool := r.status.any JobStatus.active

/-! ## What is written to the record -/

/-- What a start has acquired, as the record keeps it. -/
structure Acquired where
  containerId : Name
  networkName : Name
  modeATargets : List Target
  secretVolumeName : Option Name

namespace JobMeta

def acquire (a : Acquired) (r : JobMeta) : JobMeta :=
  { r with
    containerId := some a.containerId
    networkName := some a.networkName
    modeATargets := a.modeATargets
    secretVolumeName := a.secretVolumeName }

def fail (now : Text) (exitCode : Int) (r : JobMeta) : JobMeta :=
  { r with
    status := some .failed
    finishedAt := some now
    exitCode := some exitCode }

def start (now : Text) (pid : Int) (image : Text) (a : Acquired) (r : JobMeta) : JobMeta :=
  { r.acquire a with
    status := some .running
    startedAt := some now
    pid := some pid
    jobRunnerImage := some image }

def cancel (now : Text) (r : JobMeta) : JobMeta :=
  { r with
    status := some .canceled
    finishedAt := some now }

/-- `_wait_and_finalize`: a canceled job stays so, and keeps the time it has. -/
def finalize (now : Text) (exitCode : Int) (r : JobMeta) : JobMeta :=
  if r.status = some .canceled then { r with finishedAt := some ((truthy r.finishedAt).getD now) }
  else { r with
    status := some (if exitCode = 0 then .succeeded else .failed)
    finishedAt := some now
    exitCode := some exitCode }

end JobMeta

/-! ## What starts a job -/

def jobNetworkPrefix : Text := "job-"

/-- `RUNNER_SECRET_VOLUME_PREFIX` -/
def secretVolumePrefix : Text := "infinito-job-secrets-"

structure JobSpec where
  jobId : Name
  workspaceId : Name
  runnerImage : Name
  inventoryPath : Name
  secretsDir : Name
  roleIds : List Text
  networkName : Name
  labels : List (Text × Text)
  networkName_eq : networkName.val = jobNetworkPrefix ++ jobId.val

/-- A name with something that starts with no blank put before it. -/
def prefixed (c : Char) (cs : Text) (n : Name) (hc : isSpace c = false := by decide) : Name :=
  ⟨c :: cs ++ n.val, strip_cons_append hc n.property.1 n.property.2 cs, List.cons_ne_nil _ _⟩

def secretVolumeName (jobId : Name) : Name := prefixed 'i' "nfinito-job-secrets-".toList jobId

def jobNetwork (jobId : Name) : Name := prefixed 'j' "ob-".toList jobId

/-- The name `docker run` gives the runner's container. -/
def containerName (jobId : Name) : Name := prefixed 'i' "nfinito-job-".toList jobId

end Infinito.Runner
