import Infinito.Py.Text
import Mathlib.Data.List.Infix

/-!
# The command of a container

`build_container_command` puts a `docker run` together: the extra arguments of the runner's
configuration first, then mounts of its own. Before it mounts a file of the job directory it
looks in the extra arguments whether the path is taken (`_declared_mount_targets`). It does not
look for the working directory, nor for the mounts that it is given.
-/

set_option autoImplicit false

namespace Infinito.Runner

open Py

/-! ## The extra arguments -/

/-- `_parse_mount_target` -/
def parseMountTarget (spec : Text) : Option Text :=
  match spec.splitOn ':' with
  | _ :: target :: _ => orNone (strip target)
  | _ => none

/-- `text.split("=", 1)[1]` -/
def afterEquals (t : Text) : Text := (t.dropWhile (· ≠ '=')).tail

/-- `_declared_mount_targets` -/
def declaredMountTargets : List Text → List Text
  | [] => []
  | [arg] =>
      let arg := strip arg
      let spec := if "--volume=".toList <+: arg then afterEquals arg
        else if "-v".toList <+: arg ∧ 2 < arg.length then arg.drop 2 else []
      (parseMountTarget spec).toList
  | arg :: value :: rest =>
      let arg := strip arg
      if arg = "-v".toList ∨ arg = "--volume".toList then
        (parseMountTarget value).toList ++ declaredMountTargets rest
      else
        let spec := if "--volume=".toList <+: arg then afterEquals arg
          else if "-v".toList <+: arg ∧ 2 < arg.length then arg.drop 2 else []
        (parseMountTarget spec).toList ++ declaredMountTargets (value :: rest)

structure ContainerRunnerConfig where
  image : Text
  repoDir : Text
  workdir : Text
  network : Option Text
  extraArgs : List Text

/-- A bind or a volume mount: what is mounted, where, and whether read-only. -/
structure MountArg where
  source : Text
  target : Text
  isReadOnly : Bool

/-- What a file in a directory can be called. -/
def IsFileName (name : Text) : Prop :=
  name ≠ [] ∧ '/' ∉ name ∧ name ≠ "." ∧ name ≠ ".."

/-- The files of a job directory that the builder looks for. -/
structure JobFiles where
  baudoloSeed : Bool
  /-- the files in `controller-bin`, sorted -/
  controllerBin : List Text
  runnerPasswd : Bool
  runnerGroup : Bool
  runnerSudoers : Bool
  shims_nodup : controllerBin.Nodup
  shims_named : ∀ name ∈ controllerBin, IsFileName name

/-- What a call of `build_container_command` is given. -/
structure CommandArgs where
  jobId : Text
  cliArgs : List Text
  runtimeEnv : List (Text × Text)
  /-- sorted -/
  labels : List (Text × Text)
  networkName : Option Text
  containerUser : Option Text
  readOnlyRoot : Bool
  tmpfsMounts : List Text
  bindMounts : List MountArg
  volumeMounts : List MountArg
  hardened : Bool

/-- What the builder takes from its surroundings. -/
structure Host where
  dockerBin : Text
  /-- `resolve_host_job_dir(job_dir)` -/
  hostJobDir : Text
  /-- `resolve_host_mount_source` -/
  hostMountSource : Text → Text
  /-- the script that is run in the container -/
  innerCmd : ContainerRunnerConfig → Text

/-! ## The hardened container -/

/-- `DISALLOWED_HARDENED_FLAGS` -/
def disallowedHardenedFlags : List Text :=
  ["--privileged", "--cap-add", "--cap-drop", "--security-opt"]

def forbidden (detail : String) : HttpError := ⟨500, detail⟩

/-- `_reject_docker_socket_mount` -/
def rejectDockerSocketMount (value : Text) : Except HttpError Unit :=
  if "/var/run/docker.sock".toList <:+: value then
    .error (forbidden "runner hardening forbids docker socket mounts")
  else .ok ()

/-- The checks of one argument, with the one after it. -/
def validateArg (arg : Text) (next : Option Text) : Except HttpError Unit := do
  let lowered := lower arg
  if lowered ∈ disallowedHardenedFlags ∨ ∃ flag ∈ disallowedHardenedFlags,
      flag ≠ "--privileged".toList ∧ flag ++ ['='] <+: lowered then
    throw (forbidden ("runner hardening forbids docker arg " ++ String.ofList arg))
  if lowered = "--pid".toList ∧ next.map (lower ∘ strip) = some "host".toList ∨
      "--pid=".toList <+: lowered ∧ "host".toList <:+ lowered then
    throw (forbidden "runner hardening forbids host pid namespace")
  if lowered = "--network".toList ∧ next.isSome ∨ "--network=".toList <+: lowered then
    throw (forbidden "runner hardening forbids overriding the dedicated job network")
  if lowered ∈ (["-v", "--volume", "--mount"] : List Text) then
    (next.elim (.ok ()) rejectDockerSocketMount)
  if "-v".toList <+: lowered ∧ lowered ≠ "-v".toList ∨ "--volume=".toList <+: lowered ∨
      "--mount=".toList <+: lowered then
    rejectDockerSocketMount lowered

def validateArgs : List Text → Except HttpError Unit
  | [] => .ok ()
  | arg :: rest => do
      if strip arg ≠ [] then validateArg (strip arg) (rest.head?.map strip)
      validateArgs rest

/-- `_validate_hardened_container_request` -/
def validateHardenedContainerRequest (hardened : Bool) (effectiveNetwork : Option Text)
    (extraArgs : List Text) (bindMounts volumeMounts : List MountArg) : Except HttpError Unit :=
  if hardened = false then .ok ()
  else if lower (strip (effectiveNetwork.getD [])) = "host".toList then
    .error (forbidden "runner containers must not use host networking")
  else do
    validateArgs extraArgs
    (bindMounts ++ volumeMounts).forM fun mount => do
      rejectDockerSocketMount mount.source
      rejectDockerSocketMount mount.target

/-! ## The command -/

/-- A file of the job directory that is mounted if its path is free. -/
structure OwnFile where
  name : Text
  target : Text

/-- The files that are there, in the order in which the builder looks for them. -/
def JobFiles.own (files : JobFiles) : List OwnFile :=
  (if files.baudoloSeed then [⟨"baudolo-seed", "/usr/local/bin/baudolo-seed"⟩] else []) ++
  files.controllerBin.map (fun name =>
    ⟨"controller-bin/".toList ++ name, "/usr/bin/".toList ++ name⟩) ++
  (if files.runnerPasswd then [⟨"runner-passwd", "/etc/passwd"⟩] else []) ++
  (if files.runnerGroup then [⟨"runner-group", "/etc/group"⟩] else []) ++
  (if files.runnerSudoers then [⟨"runner-sudoers", "/etc/sudoers.d/infinito-runner"⟩] else [])

/-- The value of its `-v`. -/
def OwnFile.spec (hostJobDir : Text) (file : OwnFile) : Text :=
  hostJobDir ++ '/' :: file.name ++ ':' :: file.target ++ ":ro".toList

/-- The files whose path is not claimed, each claiming its own. -/
def mountOwn : List Text → List OwnFile → List OwnFile
  | _, [] => []
  | claimed, file :: files =>
      if file.target ∈ claimed then mountOwn claimed files
      else file :: mountOwn (file.target :: claimed) files

/-- `mount_value` -/
def mountValue (source : Text) (mount : MountArg) : Text :=
  source ++ ':' :: (mount.target ++ if mount.isReadOnly then ":ro".toList else [])

/-- `docker run`, as far as the image, and what comes after it. -/
structure Command where
  dockerBin : Text
  options : List Text
  image : Text
  containerArgs : List Text
  name : Text

/-- `cmd` -/
def Command.argv (cmd : Command) : List Text :=
  cmd.dockerBin :: ("run" : Text) :: cmd.options ++ cmd.image :: cmd.containerArgs

/-- An option with a value that may be missing. -/
def optionOf (flag : Text) (value : Option Text) : List Text :=
  (truthy value).elim [] fun value => [flag, value]

def CommandArgs.effectiveNetwork (args : CommandArgs) (cfg : ContainerRunnerConfig) : Option Text :=
  (truthy args.networkName).or cfg.network

/-- `container_name` -/
def runName (jobId : Text) : Text := "infinito-job-".toList ++ jobId

/-- The options that need no value. -/
def aloneIf (flag : Text) (given : Bool) : List Text := if given then [flag] else []

/-- One option for each of a list. -/
def eachOption {α : Type} (flag : Text) (value : α → Text) (items : List α) : List Text :=
  items.flatMap fun item => [flag, value item]

/-- The variables with a name and a value. -/
def envValues (runtimeEnv : List (Text × Text)) : List Text :=
  (runtimeEnv.filter fun item => strip item.1 ≠ [] ∧ item.2 ≠ []).map fun item =>
    strip item.1 ++ '=' :: item.2

def hardenedOptions (hardened : Bool) : List Text :=
  if hardened then
    eachOption "--cap-drop" id ["ALL"] ++ eachOption "--security-opt" id ["no-new-privileges:true"]
  else []

/-- The options up to the labels. -/
def frontOptions (cfg : ContainerRunnerConfig) (args : CommandArgs) : List Text :=
  aloneIf "--rm" true ++
  eachOption "--name" id [runName args.jobId] ++
  optionOf "--network" (args.effectiveNetwork cfg) ++
  cfg.extraArgs ++
  hardenedOptions args.hardened ++
  optionOf "--user" args.containerUser ++
  aloneIf "--read-only" args.readOnlyRoot ++
  eachOption "--tmpfs" id args.tmpfsMounts ++
  eachOption "--label" (fun label => label.1 ++ '=' :: label.2) args.labels

/-- The working directory, the files of the job directory and the mounts that are given. -/
def mountOptions (host : Host) (cfg : ContainerRunnerConfig) (files : JobFiles)
    (args : CommandArgs) : List Text :=
  eachOption "-v" id [host.hostJobDir ++ ':' :: cfg.workdir] ++
  eachOption "-v" (·.spec host.hostJobDir)
    (mountOwn (declaredMountTargets cfg.extraArgs) files.own) ++
  (eachOption "-v" (fun mount => mountValue (host.hostMountSource mount.source) mount)
    args.bindMounts ++
  eachOption "-v" (fun mount => mountValue mount.source mount) args.volumeMounts)

def envOptions (cfg : ContainerRunnerConfig) (args : CommandArgs) : List Text :=
  envValues args.runtimeEnv ++
    ["JOB_RUNNER_REPO_DIR=".toList ++ cfg.repoDir, "PYTHONPATH=".toList ++ cfg.repoDir,
      "PYTHONUNBUFFERED=1"]

/-- `cmd`, from `--rm` to the image. -/
def buildOptions (host : Host) (cfg : ContainerRunnerConfig) (files : JobFiles)
    (args : CommandArgs) : List Text :=
  frontOptions cfg args ++ mountOptions host cfg files args ++
  eachOption "-e" id (envOptions cfg args) ++
  eachOption "-w" id [cfg.repoDir] ++
  eachOption "--entrypoint" id ["/bin/bash"]

def buildContainerCommand (host : Host) (cfg : ContainerRunnerConfig) (files : JobFiles)
    (args : CommandArgs) : Except HttpError Command := do
  validateHardenedContainerRequest args.hardened (args.effectiveNetwork cfg) cfg.extraArgs
    args.bindMounts args.volumeMounts
  return {
    dockerBin := host.dockerBin
    options := buildOptions host cfg files args
    image := cfg.image
    containerArgs := "-lc".toList :: host.innerCmd cfg :: "container-runner".toList :: args.cliArgs
    name := runName args.jobId }

end Infinito.Runner
