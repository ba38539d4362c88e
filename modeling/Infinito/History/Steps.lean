import Infinito.Lib.Threads
import Infinito.History.Clean

/-!
# The operations in steps

Each operation as the steps in which it reads and writes the disk, and the part of it that
holds `workspace_write_lock`. The operations on files and roles hold the lock from beginning
to end. The two restores empty the place they restore to and copy the files there without it,
and take it to commit (`Call.shared`).

On its own, an operation in steps is the operation (`whole_shared`).
-/

set_option autoImplicit false

namespace Infinito.History

open Py Lib Workspace
open Prog (atomic forEach)

abbrev Steps (α : Type) := Prog Exc (World Unit) α

def diskOf (w : World (Option Repo)) : World Unit := ⟨w.disk, (), w.log, w.faults⟩

def withDisk (w : World (Option Repo)) (u : World Unit) : World (Option Repo) :=
  ⟨u.disk, w.rest, u.log, u.faults⟩

/-- Steps on the disk, in a workspace that also has the repository. -/
def onDiskSteps {α : Type} (p : Steps α) : Prog Exc (World (Option Repo)) α := p.embed diskOf withDisk

@[simp] theorem run_onDiskSteps {α : Type} (p : Steps α) : (onDiskSteps p).run = onDisk p.run := by
  have hget : ∀ w u, diskOf (withDisk w u) = u := fun _ _ => rfl
  have hput : ∀ w u u', withDisk (withDisk w u) u' = withDisk w u' := fun _ _ _ => rfl
  have hself : ∀ w, withDisk w (diskOf w) = w := fun _ => rfl
  funext w
  refine (Prog.run_embed hget hput hself p w).trans ?_
  show _ = onDisk p.run w
  unfold onDisk
  cases hrun : p.run (diskOf w) with
  | ok a u =>
    have hrun : p.run ⟨w.disk, (), w.log, w.faults⟩ = .ok a u := hrun
    rw [hrun]
    rfl
  | error e u =>
    have hrun : p.run ⟨w.disk, (), w.log, w.faults⟩ = .error e u := hrun
    rw [hrun]
    rfl

/-! ## Files -/

section Files

variable (h : Host) (docs : Docs)

def orFailSteps {α : Type} (what : String) (p : Steps α) : Steps α :=
  p.tryCatch fun exc => .fail (.http ⟨500, what ++ ": " ++ exc.text⟩)

@[simp] theorem run_orFailSteps {α : Type} (what : String) (p : Steps α) :
    (orFailSteps what p).run = orFail what p.run := by
  rw [orFailSteps, Prog.run_tryCatch]
  rfl

def atomicWriteSteps (uuid : FileName) (p : Path) (text : Text) : Steps Unit := do
  atomic (safeMkdir p.dropLast)
  atomic (exec (.write (tmpPath uuid p) (encode text)))
  atomic (exec (.rename (tmpPath uuid p) p))

@[simp] theorem run_atomicWriteSteps (uuid : FileName) (p : Path) (text : Text) :
    (atomicWriteSteps uuid p text).run = atomicWriteText uuid p text := by
  simp [atomicWriteSteps, atomicWriteText]

def writeFileSteps (uuid : FileName) (relPath content : Text) : Steps (Done Unit) := do
  atomic (ensure h)
  let target ← atomic (orRaise (safeResolve h relPath))
  let existedBefore ← atomic (pathExists target)
  atomic (safeMkdir target.dropLast)
  let contentToWrite ← atomic (preserveHostVarsApplications docs target content)
  orFailSteps "failed to write file" (atomicWriteSteps uuid target contentToWrite)
  let path ← atomic (orRaise (h.relativeTo target))
  let action : Text := if existedBefore then "edit: " else "create: "
  return ⟨action ++ posix path, ()⟩

@[simp] theorem run_writeFileSteps (uuid : FileName) (relPath content : Text) :
    (writeFileSteps h docs uuid relPath content).run = writeFile h docs uuid relPath content := by
  simp only [writeFileSteps, writeFile, Prog.run_bind, Prog.run_atomic, Prog.run_pure,
    run_orFailSteps, run_atomicWriteSteps]

def createDirSteps (relPath : Text) : Steps (Done Text) := do
  atomic (ensure h)
  let raw := lstripSlash (strip relPath)
  if raw = [] then atomic (httpError 400 "path required")
  else
    let target ← atomic (orRaise (safeResolve h (if endsWith raw ['/'] then rstripSlash raw else raw)))
    if ← atomic (pathExists target) then atomic (httpError 409 "target already exists")
    else
      orFailSteps "failed to create directory" (atomic (safeMkdir target))
      let path ← atomic (orRaise (h.relativeTo target))
      return ⟨"create: ".toList ++ posix path, posix path⟩

@[simp] theorem run_createDirSteps (relPath : Text) :
    (createDirSteps h relPath).run = createDir h relPath := by
  simp only [createDirSteps, createDir, Prog.run_bind, Prog.run_atomic, Prog.run_ite, Prog.run_pure,
    run_orFailSteps]

def renameFileSteps (relPath newPath : Text) : Steps (Done Text) := do
  atomic (ensure h)
  let source ← atomic (orRaise (safeResolve h relPath))
  if ← atomic (pathExists source) then
    let rawNewPath := lstripSlash (strip newPath)
    if rawNewPath = [] ∨ endsWith rawNewPath ['/'] then atomic (httpError 400 "invalid new path")
    else
      let destination ← atomic (orRaise (safeResolve h rawNewPath))
      if (← atomic (isDir source)) = true ∧ source <+: destination.dropLast then
        atomic (httpError 400 "cannot move directory into itself")
      else if ← atomic (pathExists destination) then atomic (httpError 409 "target already exists")
      else if ← atomic (pathExists destination.dropLast) then
        orFailSteps "failed to rename file" (atomic (exec (.rename source destination)))
        let old ← atomic (orRaise (h.relativeTo source))
        let new ← atomic (orRaise (h.relativeTo destination))
        return ⟨"rename: ".toList ++ posix old ++ " -> ".toList ++ posix new, posix new⟩
      else atomic (httpError 400 "target directory missing")
  else atomic (httpError 404 "file not found")

@[simp] theorem run_renameFileSteps (relPath newPath : Text) :
    (renameFileSteps h relPath newPath).run = renameFile h relPath newPath := by
  simp only [renameFileSteps, renameFile, Prog.run_bind, Prog.run_atomic, Prog.run_ite, Prog.run_pure,
    run_orFailSteps]

def deleteFileSteps (relPath : Text) : Steps (Done Unit) := do
  atomic (ensure h)
  let target ← atomic (orRaise (safeResolve h relPath))
  if ← atomic (pathExists target) then
    orFailSteps "failed to delete file" (do
      if ← atomic (isDir target) then atomic (exec (.rmtree target))
      else atomic (exec (.unlink target)))
    let path ← atomic (orRaise (h.relativeTo target))
    return ⟨"delete: ".toList ++ posix path, ()⟩
  else atomic (httpError 404 "file not found")

@[simp] theorem run_deleteFileSteps (relPath : Text) :
    (deleteFileSteps h relPath).run = deleteFile h relPath := by
  simp only [deleteFileSteps, deleteFile, Prog.run_bind, Prog.run_atomic, Prog.run_ite, Prog.run_pure,
    run_orFailSteps]

/-- The entries of an archive, a step each. -/
def importMembersSteps (defaultMode : ZipMode) (perFileMode : List (Text × Text)) :
    ZipCounts → List ZipInfo → Steps ZipCounts
  | counts, [] => pure counts
  | counts, info :: infos => do
    let counts ← atomic (importMember h docs defaultMode perFileMode counts info)
    importMembersSteps defaultMode perFileMode counts infos

@[simp] theorem run_importMembersSteps (defaultMode : ZipMode) (perFileMode : List (Text × Text))
    (counts : ZipCounts) (infos : List ZipInfo) :
    (importMembersSteps h docs defaultMode perFileMode counts infos).run =
      importMembers h docs defaultMode perFileMode counts infos := by
  induction infos generalizing counts with
  | nil => rfl
  | cons info infos ih => simp [importMembersSteps, importMembers, ih]

def loadZipSteps (uuid : FileName) (data : Option (List ZipInfo)) (defaultMode : Text)
    (perFileMode : List (Text × Text)) : Steps (Done ZipCounts) := do
  atomic (ensure h)
  let counts ← match data with
    | none => atomic (httpError 400 "invalid zip")
    | some infos => importMembersSteps h docs (zipMode defaultMode) perFileMode ⟨0, 0, 0, 0⟩ infos
  atomic (refreshMetaAfterUpload h docs uuid)
  return ⟨"bulk: zip import", counts⟩

@[simp] theorem run_loadZipSteps (uuid : FileName) (data : Option (List ZipInfo)) (defaultMode : Text)
    (perFileMode : List (Text × Text)) :
    (loadZipSteps h docs uuid data defaultMode perFileMode).run =
      loadZip h docs uuid data defaultMode perFileMode := by
  cases data <;> simp [loadZipSteps, loadZip, extractZip]

end Files

/-! ## Roles and restores -/

section Restores

variable (h : Host)

def ensureHostVarsFileSteps (docs : RoleDocs) (uuid : FileName) (path : Path) (record : Option Text) :
    Steps Unit := do
  if ← atomic (isFile path) then pure ()
  else
    atomic (safeMkdir path.dropLast)
    orFailSteps "failed to create host vars file" (atomicWriteSteps uuid path (docs.newHostVars record))

@[simp] theorem run_ensureHostVarsFileSteps (docs : RoleDocs) (uuid : FileName) (path : Path)
    (record : Option Text) :
    (ensureHostVarsFileSteps docs uuid path record).run = ensureHostVarsFile docs uuid path record := by
  simp [ensureHostVarsFileSteps, ensureHostVarsFile]

def editRoleSteps (docs : RoleDocs) (uuids : FileName × FileName) (hostAlias : Option Text)
    (edit : RoleEdit) : Steps (Text × Option Metadata) := do
  if edit.wellFormed = true then
    let role ← atomic (orRaise (sanitizeRoleId edit.role))
    if docs.roleExists role = true then
      atomic (ensure h)
      let record := (← atomic (existingBytes h.metaPath)).map readText
      let target ← atomic (orRaise (resolveHostVarsPath h (docs.hostMeta record) hostAlias))
      ensureHostVarsFileSteps docs uuids.1 target.1 record
      let existing ← (atomic (readBytes target.1)).tryCatch fun exc =>
        .fail (.http ⟨400, "invalid YAML in /" ++ String.ofList (posix target.1) ++ ": " ++ exc.text⟩)
      let content ← atomic (orRaise ((docs.edit edit (readText existing)).mapError .http))
      orFailSteps "failed to write host vars file" (atomicWriteSteps uuids.2 target.1 content)
      let shown ← atomic (orRaise target.2.1)
      return (edit.message role shown, some ⟨some target.2.2, some role⟩)
    else atomic (httpError 404 ("role not found: " ++ String.ofList role))
  else atomic (httpError 400 "path must be a non-empty list of non-empty strings")

@[simp] theorem run_editRoleSteps (docs : RoleDocs) (uuids : FileName × FileName)
    (hostAlias : Option Text) (edit : RoleEdit) :
    (editRoleSteps h docs uuids hostAlias edit).run = editRole h docs uuids hostAlias edit := by
  simp [editRoleSteps, editRole]
  rfl

/-- The entries that `_clear_workspace_payload` lists. -/
def listPayload (base : Path) : Fs Unit (List Path) := fun w =>
  let children := (payload base w.disk.nodes).keys.filter fun p => p.length = 1
  .ok (sortedBy posix posix_injective children) w

def clearSteps (base : Path) : Steps Unit := do
  let children ← atomic (listPayload base)
  forEach children fun p => atomic (do
    if ← isDir (base ++ p) then exec (.rmtree (base ++ p))
    else if ← pathExists (base ++ p) then exec (.unlink (base ++ p)) else pure ())

@[simp] theorem run_clearSteps (base : Path) : (clearSteps base).run = clearWorkspacePayload base := by
  simp only [clearSteps, Prog.run_bind, Prog.run_atomic, Prog.run_forEach]
  rfl

def copySteps (source : Nodes) (base : Path) : Steps Unit :=
  forEach (sortedBy posix posix_injective (source.restrict isPayload).keys) fun p =>
    atomic (match source.get p with
      | some .dir => exec (.mkdir (base ++ p))
      | some (.file content) => exec (.write (base ++ p) content)
      | none => pure ())

@[simp] theorem run_copySteps (source : Nodes) (base : Path) :
    (copySteps source base).run = copyWorkspacePayload source base := by
  simp only [copySteps, Prog.run_atomic, Prog.run_forEach]
  rfl

def restoreWorkspaceSteps (g : Git) (docs : RoleDocs) (c : Commit) : Steps Unit := do
  let files ← atomic (exportHistorySnapshot g c none)
  atomic (validateSnapshotFiles docs files)
  let backup ← atomic (readPayload h.base)
  Prog.tryCatch
    (do
      clearSteps h.base
      copySteps (extracted files) h.base)
    fun exc => do
      clearSteps h.base
      copySteps backup h.base
      atomic (httpError 500 ("failed to restore workspace: " ++ exc.text))

@[simp] theorem run_restoreWorkspaceSteps (g : Git) (docs : RoleDocs) (c : Commit) :
    (restoreWorkspaceSteps h g docs c).run = restoreWorkspace h g docs c := by
  simp [restoreWorkspaceSteps, restoreWorkspace]

def copyPathSteps (source : Nodes) (p destination : Path) : Steps Unit := do
  atomic (safeMkdir destination.dropLast)
  forEach (sortedBy posix posix_injective (source.restrict fun q => p <+: q).keys) fun q =>
    atomic (match source.get q with
      | some .dir => exec (.mkdir (destination ++ q.drop p.length))
      | some (.file content) => exec (.write (destination ++ q.drop p.length) content)
      | none => pure ())

@[simp] theorem run_copyPathSteps (source : Nodes) (p destination : Path) :
    (copyPathSteps source p destination).run = copyPath source p destination := by
  simp only [copyPathSteps, Prog.run_bind, Prog.run_atomic, Prog.run_forEach]
  rfl

def readNodes : Fs Unit Nodes := fun w => .ok w.disk.nodes w

def restorePathSteps (g : Git) (docs : RoleDocs) (c : Commit) (p destination : Path) :
    Steps Unit := do
  let files ← atomic (exportHistorySnapshot g c (some p))
  let source := extracted files
  if source.get p = none then atomic (httpError 404 "path not found in history commit")
  else
    atomic (validateSnapshotFiles docs files)
    let backup ← atomic readNodes
    Prog.tryCatch
      (do
        atomic (removePath destination)
        copyPathSteps source p destination)
      fun exc => do
        atomic (removePath destination)
        if backup.get destination ≠ none then copyPathSteps backup destination destination
        else pure ()
        atomic (httpError 500 ("failed to restore path: " ++ exc.text))

@[simp] theorem run_restorePathSteps (g : Git) (docs : RoleDocs) (c : Commit) (p destination : Path) :
    (restorePathSteps g docs c p destination).run = restorePath g docs c p destination := by
  simp only [restorePathSteps, restorePath, Prog.run_bind, Prog.run_atomic, Prog.run_ite,
    Prog.run_tryCatch, run_copyPathSteps]
  rfl

end Restores

/-! ## Calls -/

section Calls

variable (D : Deployment)

abbrev HistSteps (α : Type) := Prog Exc (World (Option Repo)) α

def commitSteps (message : Text) (metadata : Option Metadata) : HistSteps Unit := do
  if D.enabled = true then
    match ← atomic (stageForCommit D.toService) with
    | none => pure ()
    | some r => atomic (commitAndVerify D.toService message metadata r)
  else pure ()

@[simp] theorem run_commitSteps (message : Text) (metadata : Option Metadata) :
    (commitSteps D message metadata).run = historyCommit D.toService message metadata := by
  unfold commitSteps historyCommit
  rw [Prog.run_ite, Prog.run_bind, Prog.run_atomic]
  congr 2
  funext repo
  cases repo <;> simp

/-- A call in steps: what it does without the lock, and what it does with it. -/
def Call.shared : Call → Prog Exc (World (Option Repo)) (HistSteps Unit)
  | writeFile uuid relPath content => .done do
      let done ← onDiskSteps (writeFileSteps D.host D.docs uuid relPath content)
      commitSteps D done.message none
  | createDir relPath => .done do
      let done ← onDiskSteps (createDirSteps D.host relPath)
      commitSteps D done.message none
  | renameFile relPath newPath => .done do
      let done ← onDiskSteps (renameFileSteps D.host relPath newPath)
      commitSteps D done.message none
  | deleteFile relPath => .done do
      let done ← onDiskSteps (deleteFileSteps D.host relPath)
      commitSteps D done.message none
  | loadZip uuid data defaultMode perFileMode => .done do
      let done ← onDiskSteps (loadZipSteps D.host D.docs uuid data defaultMode perFileMode)
      commitSteps D done.message none
  | editRole uuids hostAlias edit => .done do
      let (message, metadata) ← onDiskSteps (editRoleSteps D.host D.roles uuids hostAlias edit)
      commitSteps D message metadata
  | restoreHistoryWorkspace sha => do
      onDiskSteps (atomic (ensure D.host))
      let c ← atomic (resolveHistorySha D.git sha)
      onDiskSteps (restoreWorkspaceSteps D.host D.git D.roles c)
      return commitSteps D ("context: restore workspace (".toList ++ c.sha.take 12 ++ [')']) none
  | restoreHistoryPath sha path => do
      onDiskSteps (atomic (ensure D.host))
      match ← atomic getRepo with
      | none => atomic (httpError 404 "history not initialized")
      | some _ =>
        let p ← atomic (orRaise (historyPath D.host path))
        let c ← atomic (resolveHistorySha D.git sha)
        let destination ← atomic (orRaise (safeResolve D.host (posix p)))
        onDiskSteps (restorePathSteps D.git D.roles c p destination)
        return commitSteps D ("context: restore path (".toList ++ posix p ++ [')']) none

/-- **A call in steps is the call**, when nothing comes between them. -/
theorem whole_shared (call : Call) : SharedCall.whole (call.shared D) = call.run D := by
  cases call with
  | restoreHistoryPath sha path =>
    simp only [Call.shared, SharedCall.whole, Call.run, Call.change, Prog.run_bind, Prog.run_atomic,
      run_onDiskSteps, bind_assoc]
    congr 1
    funext _
    congr 1
    funext repo
    cases repo <;> simp
    rfl
  | restoreHistoryWorkspace sha => simp [Call.shared, SharedCall.whole, Call.run, Call.change]
  | writeFile uuid relPath content => simp [Call.shared, SharedCall.whole, Call.run, Call.change]
  | createDir relPath => simp [Call.shared, SharedCall.whole, Call.run, Call.change]
  | renameFile relPath newPath => simp [Call.shared, SharedCall.whole, Call.run, Call.change]
  | deleteFile relPath => simp [Call.shared, SharedCall.whole, Call.run, Call.change]
  | loadZip uuid data defaultMode perFileMode =>
    simp [Call.shared, SharedCall.whole, Call.run, Call.change]
  | editRole uuids hostAlias edit => simp [Call.shared, SharedCall.whole, Call.run, Call.change]

end Calls

end Infinito.History
