import Infinito.History.Git

/-!
# Committing a change

`_history_commit` runs after the operation has written to disk. It settles `.gitignore` and
the exclude file, stages the whole tree, looks through the staged files that git lists for
plaintext secrets, and commits; where anything raises it unstages again. It writes to the
working tree in one place only, `.gitignore`.

A git command that fails is an I/O error of the schedule like any other. What the code does
about it differs by command: most raise, but a listing that fails is an empty listing, and a
file that cannot be read is passed over.
-/

set_option autoImplicit false

namespace Infinito.History

open Py Lib Workspace

/-- A deployment of the service. -/
structure Service where
  host : Host
  docs : Docs
  git : Git
  /-- `WORKSPACE_HISTORY_ENABLED` -/
  enabled : Bool
  /-- `WORKSPACE_HISTORY_INCLUDE_KDBX` -/
  includeKdbx : Bool

/-- Programs that also have the repository; none before `git init`. -/
abbrev Hist (α : Type) := Fs (Option Repo) α

variable (S : Service)

/-- A git command: what it prints to stderr, if it fails. -/
def gitCommand {ρ : Type} : Fs ρ (Option String) := fun w => .ok w.faults.head?.join w.tick

/-- `_run_git` with `check=True` -/
def runGit {ρ : Type} : Fs ρ Unit := do
  match ← gitCommand with
  | none => pure ()
  | some stderr => httpError 500 stderr

def modifyRepo (f : Repo → Repo) : Hist Unit := fun w => .ok () { w with rest := w.rest.map f }

def getRepo : Hist (Option Repo) := fun w => .ok w.rest w

def getWorktree : Hist Snapshot := fun w => .ok (worktree S.host w.disk) w

/-! ## The ignore files -/

/-- A line of the exclude file that `_ensure_history_git_exclude` puts there. -/
def headLine : Text := "# Infinito workspace runtime artifacts"

def requiredLines (includeKdbx : Bool) : List Text :=
  let kdbx : List Text := if includeKdbx then [] else ["secrets/credentials.kdbx"]
  [headLine, "workspace.json", "logs/"] ++ kdbx

/-- `_ensure_history_git_exclude`, on the text of the file. -/
def excludeText (includeKdbx : Bool) (existing : Option Text) : Option Text :=
  let lines := splitlines (existing.getD [])
  let additions := (requiredLines includeKdbx).filter fun line => line ∉ lines.map strip
  if additions = [] then existing
  else
    let gap : List Text := if lines.getLast?.any (strip · ≠ []) then [[]] else []
    some (rstrip (joinLines (lines ++ gap ++ additions)) ++ ['\n'])

/-- The contents of a `.gitignore` that an earlier version wrote. -/
def legacyVariants : List (List Text) := [requiredLines true, requiredLines false]

def ignoreName : FileName := fileName ".gitignore" (by decide)

def ignorePath (h : Host) : Path := h.base ++ [ignoreName]

def isLegacy (content : Bytes) : Bool :=
  legacyVariants.contains (((splitlines (readText content)).map strip).filter (· ≠ []))

/-- `_ensure_history_gitignore` -/
def ensureHistoryGitignore : Hist Unit := do
  if ← pathExists (ignorePath S.host) then
    let existing ← readBytes (ignorePath S.host)
    if isLegacy existing then exec (.write (ignorePath S.host) (encode []))
  else exec (.write (ignorePath S.host) (encode []))
  modifyRepo fun r => { r with exclude := excludeText S.includeKdbx r.exclude }

/-- `_ensure_history_repo` -/
def ensureHistoryRepo : Hist Unit := do
  match ← getRepo with
  | some _ => ensureHistoryGitignore S
  | none =>
    runGit
    (fun w => .ok () { w with rest := some (Repo.init S.git) } : Hist Unit)
    -- user.name, user.email and commit.gpgsign
    runGit
    runGit
    runGit
    ensureHistoryGitignore S

theorem ensureHistoryRepo_there {w : World (Option Repo)} {r : Repo} (h : w.rest = some r) :
    ensureHistoryRepo S w = ensureHistoryGitignore S w := by
  unfold ensureHistoryRepo
  rw [bind_of_ok (show getRepo w = .ok w.rest w from rfl), h]

theorem ensureHistoryRepo_new {w : World (Option Repo)} (h : w.rest = none) :
    ensureHistoryRepo S w = (runGit >>= fun _ =>
      (fun w => .ok () { w with rest := some (Repo.init S.git) } : Hist Unit) >>= fun _ =>
        runGit >>= fun _ => runGit >>= fun _ => runGit >>= fun _ => ensureHistoryGitignore S) w := by
  unfold ensureHistoryRepo
  rw [bind_of_ok (show getRepo w = .ok w.rest w from rfl), h]

/-! ## The check -/

/-- How a file is reported in which the search found something. -/
def violationText (line : Text) : Bool × Option Nat → Option Text
  | (true, some n) => some (line ++ ':' :: (Nat.repr n).toList)
  | (true, none) => some line
  | (false, _) => none

/-- What the check says of one line of the listing, if anything. -/
def violation (line : Text) : Hist (Option Text) := do
  if isBinaryPath line then pure none
  else match S.host.resolve line with
    | none => pure none
    | some path =>
      if ← isFile path then
        let content ← tryCatch (do return some (← readBytes path)) fun _ => pure none
        return content.bind fun content =>
          violationText line (containsPlaintextSecret (readText content))
      else pure none

def violations : List Text → Hist (List Text)
  | [] => pure []
  | line :: lines => do
    let first ← violation S line
    let others ← violations lines
    return first.toList ++ others

/-- The answer to a change that is rejected. -/
def rejection (first : Text) : HttpError :=
  ⟨400, "plaintext secret detected in workspace file (" ++ String.ofList first ++
    "). Use vault-encrypted values."⟩

/-- `_validate_no_plaintext_secrets` -/
def validateNoPlaintextSecrets (r : Repo) : Hist Unit := do
  let stderr ← gitCommand
  let lines := match stderr with
    | none => trackedPaths (printLines (diffLines S.git r))
    | some _ => []
  match ← violations S lines with
  | [] => pure ()
  | first :: _ => throw (.http (rejection first))

/-! ## The commit -/

/-- What accompanies a commit: the `server` and the `role` it is about. -/
structure Metadata where
  server : Option Text
  role : Option Text

/-- `_format_commit_message` -/
def formatCommitMessage (message : Text) (metadata : Option Metadata) : Text :=
  let summary : Text := (orNone (strip message)).getD "context: workspace update".toList
  match metadata with
  | none => summary
  | some m =>
      let item (key : Text) (value : Option Text) : List Text :=
        (stripOrNone value).toList.map fun v => key ++ '=' :: v
      match item "server" m.server ++ item "role" m.role with
      | [] => summary
      | items => summary ++ ['\n', '\n'] ++ List.intercalate [' '] items

/-- Whether `git status` reports a change of a recorded file. -/
def trackedStatus (tree : Snapshot) (r : Repo) : Bool :=
  ¬ ∀ p ∈ r.index.keys, tree.get p = r.index.get p

/-- The part of `_history_commit` that is undone when it raises. -/
def commitStaged (message : Text) (metadata : Option Metadata) (r : Repo) : Hist Unit :=
  tryCatch
    (do
      validateNoPlaintextSecrets S r
      runGit
      modifyRepo (Repo.commit S.git (formatCommitMessage message metadata)))
    fun exc => do
      modifyRepo Repo.unstageAll
      throw exc

/-- The part of `_history_commit` that stages: the repository, if there is anything to
    commit. -/
def stageForCommit : Hist (Option Repo) := do
  ensureHistoryRepo S
  runGit
  let tree ← getWorktree S
  modifyRepo (Repo.stageAll S.git tree)
  -- `git diff --cached --quiet`: any other exit code than 1 counts as no change
  let failed ← gitCommand
  match ← getRepo with
  | none => pure none
  | some r => if failed.isSome = true ∨ r.changes = ∅ then pure none else pure (some r)

/-- The part that commits what is staged. -/
def commitAndVerify (message : Text) (metadata : Option Metadata) (r : Repo) : Hist Unit := do
  commitStaged S message metadata r
  -- `git rev-parse HEAD` and `git status`
  runGit
  runGit
  let tree ← getWorktree S
  if trackedStatus tree r = true then httpError 500 "workspace history index not clean"
  else pure ()

/-- `_history_commit` -/
def historyCommit (message : Text) (metadata : Option Metadata) : Hist Unit := do
  if S.enabled = true then
    match ← stageForCommit S with
    | none => pure ()
    | some r => commitAndVerify S message metadata r
  else pure ()

end Infinito.History
