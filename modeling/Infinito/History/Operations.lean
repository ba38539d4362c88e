import Infinito.History.Commit
import Mathlib.Data.List.Infix

/-!
# The operations that write to the history

Each has two parts: a change of the disk, and the commit of what is then there. `Call.change`
is the first, and `Call.run` follows it by `historyCommit`; nothing undoes the change when
the commit raises.

The two restores take a commit apart into the files of its archive, empty the place they
restore to and copy the files there, keeping a copy of what was there in case that fails.
-/

set_option autoImplicit false

namespace Infinito.History

open Py Lib Workspace

/-- A program that does not look at the repository. -/
def onDisk {ρ α : Type} (m : Fs Unit α) : Fs ρ α := fun w =>
  match m ⟨w.disk, (), w.log, w.faults⟩ with
  | .ok a u => .ok a ⟨u.disk, w.rest, u.log, u.faults⟩
  | .error e u => .error e ⟨u.disk, w.rest, u.log, u.faults⟩

/-! ## Role configurations -/

/-- What the role operations read of `workspace.json`, each `""` when it is missing. -/
structure HostMeta where
  hostAlias : Text
  hostVarsFile : Text
  host : Text

inductive RoleEdit where
  | write (role content : Text)
  | patch (role : Text) (path : List Text) (value : Text) (delete : Bool)

/-- What the role operations do to documents, by way of the YAML library. -/
structure RoleDocs where
  roleExists : Text → Bool
  hostMeta : Option Text → HostMeta
  /-- the host variables file `_ensure_host_vars_file` starts -/
  newHostVars : Option Text → Text
  /-- the host variables file after the edit, or why it is refused -/
  edit : RoleEdit → Text → Except HttpError Text
  /-- why a restored document, JSON or YAML, is invalid -/
  invalid : Bool → Text → Option String

def isRoleChar (c : Char) : Bool := let n := c.toNat
  (97 ≤ n && n ≤ 122) || (48 ≤ n && n ≤ 57)

/-- `_sanitize_role_id` -/
def sanitizeRoleId (raw : Text) : Except Exc Text :=
  let role := strip raw
  match role with
  | c :: cs =>
      if isRoleChar c && cs.length ≤ 63 && cs.all (fun c => isRoleChar c || c == '-' || c == '_') then
        .ok role
      else .error (.http ⟨400, "invalid role id"⟩)
  | [] => .error (.http ⟨400, "invalid role id"⟩)

/-- `_sanitize_host_filename` -/
def sanitizeHostFilename (host : Text) : Text :=
  let cleaned := (strip host).map fun c => if isKeyChar c then c else '_'
  if cleaned = [] then "host" else cleaned

theorem sanitizeHostFilename_no_slash (host : Text) : '/' ∉ sanitizeHostFilename host := by
  unfold sanitizeHostFilename
  dsimp only
  split
  · decide
  · intro hmem
    obtain ⟨c, -, hc⟩ := List.mem_map.mp hmem
    split at hc
    · rename_i hkey
      rw [hc] at hkey
      exact absurd hkey (by decide)
    · exact absurd hc (by decide)

def hostVarsDir : FileName := fileName "host_vars" (Eq.refl true)

/-- `host_vars/<host>.yml` -/
def hostVarsName (host : Text) : FileName :=
  fileName (sanitizeHostFilename host ++ ['.', 'y', 'm', 'l']) (by
    have hlen {t : Text} : t.length ≤ 2 → sanitizeHostFilename host ++ ['.', 'y', 'm', 'l'] ≠ t := by
      rintro ht rfl
      rw [List.length_append] at ht
      simp at ht
    have h0 := hlen (show ([] : Text).length ≤ 2 by decide)
    have h1 := hlen (show ['.'].length ≤ 2 by decide)
    have h2 := hlen (show ['.', '.'].length ≤ 2 by decide)
    simp [isFileName, h1, h2, sanitizeHostFilename_no_slash])

/-- `Path(raw).stem or "host"` -/
def stemOr (raw : Text) : Text :=
  match (parts raw).getLast? with
  | some (.down n) =>
      let stem := n.text.take (n.text.length - (suffix n.text).length)
      if stem = [] then "host" else stem
  | _ => "host"

/-- `_resolve_host_vars_path`: the file, the path it is reported under, and the alias. -/
def resolveHostVarsPath (h : Host) (record : HostMeta) (hostAlias : Option Text) :
    Except Exc (Path × Except Exc Path × Text) :=
  let byName (name : Text) : Path × Except Exc Path × Text :=
    (h.base ++ [hostVarsDir, hostVarsName name], .ok [hostVarsDir, hostVarsName name], name)
  let aliasValue := strip ((hostAlias.bind orNone).getD record.hostAlias)
  let fallback : Except Exc (Path × Except Exc Path × Text) :=
    if strip record.host = [] then .error (.http ⟨400, "host vars target not resolved"⟩)
    else .ok (byName (strip record.host))
  if aliasValue ≠ [] then .ok (byName aliasValue)
  else if strip record.hostVarsFile = [] then fallback
  else match safeResolve h (strip record.hostVarsFile) with
    | .ok path => .ok (path, h.relativeTo path, stemOr (strip record.hostVarsFile))
    | .error (.http _) => fallback
    | .error exc => .error exc

/-- `_ensure_host_vars_file` -/
def ensureHostVarsFile (docs : RoleDocs) (uuid : FileName) (path : Path) (record : Option Text) :
    Fs Unit Unit := do
  if ← isFile path then pure ()
  else
    safeMkdir path.dropLast
    orFail "failed to create host vars file" (atomicWriteText uuid path (docs.newHostVars record))

def RoleEdit.role : RoleEdit → Text
  | write role _ => role
  | patch role _ _ _ => role

/-- The check `patch_role_app_field` starts with. -/
def RoleEdit.wellFormed : RoleEdit → Bool
  | write _ _ => true
  | patch _ path _ _ => path ≠ [] && path.all (· ≠ [])

def RoleEdit.message (edit : RoleEdit) (role : Text) (path : Path) : Text :=
  match edit with
  | write _ _ => "edit: ".toList ++ posix path
  | patch _ segments _ delete =>
      let verb : Text := if delete then "reset " else "set "
      "forms: ".toList ++ verb ++ role ++ '.' :: List.intercalate ['.'] segments

/-- `write_role_app_config` and `patch_role_app_field`, up to the commit. -/
def editRole (h : Host) (docs : RoleDocs) (uuids : FileName × FileName) (hostAlias : Option Text)
    (edit : RoleEdit) : Fs Unit (Text × Option Metadata) := do
  if edit.wellFormed = true then
    let role ← orRaise (sanitizeRoleId edit.role)
    if docs.roleExists role = true then
      ensure h
      let record := (← existingBytes h.metaPath).map readText
      let (path, reported, aliasValue) ←
        orRaise (resolveHostVarsPath h (docs.hostMeta record) hostAlias)
      ensureHostVarsFile docs uuids.1 path record
      let existing ← tryCatch (readBytes path) fun exc =>
        httpError 400 ("invalid YAML in /" ++ String.ofList (posix path) ++ ": " ++ exc.text)
      let content ← orRaise ((docs.edit edit (readText existing)).mapError .http)
      orFail "failed to write host vars file" (atomicWriteText uuids.2 path content)
      let shown ← orRaise reported
      return (edit.message role shown, some ⟨some aliasValue, some role⟩)
    else httpError 404 ("role not found: " ++ String.ofList role)
  else httpError 400 "path must be a non-empty list of non-empty strings"

/-! ## Restoring -/

/-- A directory as it is extracted from an archive: the files, and the directories above. -/
def extracted (files : Snapshot) : Nodes :=
  .ofFn (files.keys ∪ files.keys.biUnion fun p => p.inits.toFinset)
    (fun p => match files.get p with
      | some content => some (.file content)
      | none => if ∃ q ∈ files.keys, p <+: q then some .dir else none)
    fun p hp => by
      rw [Finset.mem_union, Finset.mem_biUnion]
      split at hp
      · rename_i content hget
        exact Or.inl (FinMap.mem_keys_of_get hget)
      · split at hp
        · rename_i hex
          obtain ⟨q, hq, hpre⟩ := hex
          exact Or.inr ⟨q, hq, List.mem_toFinset.mpr ((List.mem_inits _ _).mpr hpre)⟩
        · cases hp

/-- A file of an archive, as it is extracted. -/
theorem extracted_file {files : Snapshot} {p : Path} {content : Bytes} :
    (extracted files).get p = some (.file content) ↔ files.get p = some content := by
  unfold extracted
  rw [FinMap.get_ofFn]
  cases files.get p with
  | some b => simp
  | none =>
    dsimp only
    split <;> simp

/-- The entries of a directory that the payload functions go over: all but the root itself
    and what `.git` and `workspace.json` hold. -/
def isPayload (p : Path) : Bool := p ≠ [] && p.head? ≠ some gitName && p.head? ≠ some metaName

/-- What is at and below a directory, less what is no payload. -/
def payload (base : Path) (d : Nodes) : Nodes :=
  (d.comap (base ++ ·) (stripPrefix base) (stripPrefix_append base)).restrict isPayload

/-- `_clear_workspace_payload` -/
def clearWorkspacePayload (base : Path) : Fs Unit Unit := fun w =>
  let children := (payload base w.disk.nodes).keys.filter fun p => p.length = 1
  let clear (p : Path) : Fs Unit Unit := do
    if ← isDir (base ++ p) then exec (.rmtree (base ++ p))
    else if ← pathExists (base ++ p) then exec (.unlink (base ++ p)) else pure ()
  (sortedBy posix posix_injective children).forM clear w

/-- `_copy_workspace_payload`, of a directory that was read before. -/
def copyWorkspacePayload (source : Nodes) (base : Path) : Fs Unit Unit :=
  let copy (p : Path) : Fs Unit Unit := match source.get p with
    | some .dir => exec (.mkdir (base ++ p))
    | some (.file content) => exec (.write (base ++ p) content)
    | none => pure ()
  (sortedBy posix posix_injective (source.restrict isPayload).keys).forM copy

/-- Reading the payload, as the copy to the backup does. -/
def readPayload (base : Path) : Fs Unit Nodes := fun w =>
  let source := payload base w.disk.nodes
  let read (p : Path) : Fs Unit Unit := match source.get p with
    | some (.file _) => exec (.read (base ++ p))
    | _ => pure ()
  (do
    (sortedBy posix posix_injective source.keys).forM read
    return source : Fs Unit Nodes) w

/-- A path of the payload, as the copy reads it. -/
theorem readPayload_eq (base : Path) (w : World Unit) :
    ∃ read : Path → Fs Unit Unit, (∀ p, read p = exec (.read (base ++ p)) ∨ read p = pure ()) ∧
      readPayload base w =
        ((sortedBy posix posix_injective (payload base w.disk.nodes).keys).forM read >>= fun _ =>
          pure (payload base w.disk.nodes)) w := by
  refine ⟨_, fun p => ?_, rfl⟩
  split
  · exact Or.inl rfl
  · exact Or.inr rfl

/-- `_validate_snapshot_files`: the first file that does not parse. -/
def invalidFile (docs : RoleDocs) (files : Snapshot) : Option HttpError :=
  (sortedBy posix posix_injective files.keys).findSome? fun p => do
    let name ← p.getLast?
    let content ← files.get p
    let kind := lower (suffix name.text)
    if isYamlSuffix kind || kind = ".json".toList then
      let why ← docs.invalid (kind = ".json".toList) (readText content)
      return ⟨400, "restored content invalid in " ++ String.ofList (posix p) ++ ": " ++ why⟩
    else none

/-- `_export_history_snapshot` -/
def exportHistorySnapshot (g : Git) (c : Commit) (path : Option Path) : Fs Unit Snapshot := do
  match ← gitCommand with
  | some stderr => httpError 500 stderr
  | none => match g.archived c.tree path with
    | some files => return files
    | none => httpError 404 "path not found in history commit"

def validateSnapshotFiles (docs : RoleDocs) (files : Snapshot) : Fs Unit Unit :=
  match invalidFile docs files with
  | some e => throw (.http e)
  | none => pure ()

/-- `restore_history_workspace` between resolving the commit and committing. -/
def restoreWorkspace (h : Host) (g : Git) (docs : RoleDocs) (c : Commit) : Fs Unit Unit := do
  let files ← exportHistorySnapshot g c none
  validateSnapshotFiles docs files
  let backup ← readPayload h.base
  tryCatch
    (do
      clearWorkspacePayload h.base
      copyWorkspacePayload (extracted files) h.base)
    fun exc => do
      clearWorkspacePayload h.base
      copyWorkspacePayload backup h.base
      httpError 500 ("failed to restore workspace: " ++ exc.text)

/-- `_remove_path` -/
def removePath (p : Path) : Fs Unit Unit := do
  if ← pathExists p then
    if ← isDir p then exec (.rmtree p) else exec (.unlink p)
  else pure ()

/-- `shutil.copytree` or `shutil.copy2`, of what `source` has at `p`, to `destination`. -/
def copyPath (source : Nodes) (p destination : Path) : Fs Unit Unit := do
  safeMkdir destination.dropLast
  let copy (q : Path) : Fs Unit Unit := match source.get q with
    | some .dir => exec (.mkdir (destination ++ q.drop p.length))
    | some (.file content) => exec (.write (destination ++ q.drop p.length) content)
    | none => pure ()
  (sortedBy posix posix_injective (source.restrict fun q => p <+: q).keys).forM copy

/-- `restore_history_path` between resolving the commit and committing. -/
def restorePath (g : Git) (docs : RoleDocs) (c : Commit) (p destination : Path) :
    Fs Unit Unit := do
  let files ← exportHistorySnapshot g c (some p)
  let source := extracted files
  if source.get p = none then httpError 404 "path not found in history commit"
  else
    validateSnapshotFiles docs files
    let backup ← (fun w => .ok w.disk.nodes w : Fs Unit Nodes)
    tryCatch
      (do
        removePath destination
        copyPath source p destination)
      fun exc => do
        removePath destination
        if backup.get destination ≠ none then copyPath backup destination destination else pure ()
        httpError 500 ("failed to restore path: " ++ exc.text)

/-- `_resolve_history_sha`, in a workspace that has a repository. -/
def resolveHistorySha (g : Git) (sha : Text) : Hist Commit := do
  match ← getRepo with
  | none => httpError 404 "history not initialized"
  | some r =>
    if strip sha = [] then httpError 400 "sha is required"
    else
      match ← gitCommand, g.revParse r.commits (strip sha) with
      | none, some c => return c
      | _, _ => httpError 404 "history commit not found"

/-! ## Calls -/

inductive Call where
  | writeFile (uuid : FileName) (relPath content : Text)
  | createDir (relPath : Text)
  | renameFile (relPath newPath : Text)
  | deleteFile (relPath : Text)
  | loadZip (uuid : FileName) (data : Option (List ZipInfo)) (defaultMode : Text)
      (perFileMode : List (Text × Text))
  | editRole (uuids : FileName × FileName) (hostAlias : Option Text) (edit : RoleEdit)
  | restoreHistoryWorkspace (sha : Text)
  | restoreHistoryPath (sha path : Text)

/-- `_normalize_history_path` as `restore_history_path` uses it: the path from the root. -/
def historyPath (h : Host) (raw : Text) : Except Exc Path :=
  let path := lstripSlash (strip raw)
  if path = [] then .error (.http ⟨400, "path is required"⟩)
  else match safeResolve h path with
    | .error exc => .error exc
    | .ok target => h.relativeTo target

/-- A deployment of the service, with the documents of the role operations. -/
structure Deployment extends Service where
  roles : RoleDocs

variable (D : Deployment)

/-- What a call does to the disk, and what it commits it under. -/
def Call.change : Call → Hist (Text × Option Metadata)
  | writeFile uuid relPath content => do
      let done ← onDisk (Workspace.writeFile D.host D.docs uuid relPath content)
      return (done.message, none)
  | createDir relPath => do
      let done ← onDisk (Workspace.createDir D.host relPath)
      return (done.message, none)
  | renameFile relPath newPath => do
      let done ← onDisk (Workspace.renameFile D.host relPath newPath)
      return (done.message, none)
  | deleteFile relPath => do
      let done ← onDisk (Workspace.deleteFile D.host relPath)
      return (done.message, none)
  | loadZip uuid data defaultMode perFileMode => do
      let done ← onDisk (Workspace.loadZip D.host D.docs uuid data defaultMode perFileMode)
      return (done.message, none)
  | editRole uuids hostAlias edit =>
      onDisk (History.editRole D.host D.roles uuids hostAlias edit)
  | restoreHistoryWorkspace sha => do
      onDisk (ensure D.host)
      let c ← resolveHistorySha D.git sha
      onDisk (restoreWorkspace D.host D.git D.roles c)
      return ("context: restore workspace (".toList ++ c.sha.take 12 ++ [')'], none)
  | restoreHistoryPath sha path => do
      onDisk (ensure D.host)
      match ← getRepo with
      | none => httpError 404 "history not initialized"
      | some _ =>
        let p ← orRaise (historyPath D.host path)
        let c ← resolveHistorySha D.git sha
        let destination ← orRaise (safeResolve D.host (posix p))
        onDisk (restorePath D.git D.roles c p destination)
        return ("context: restore path (".toList ++ posix p ++ [')'], none)

def Call.run (call : Call) : Hist Unit := do
  let (message, metadata) ← call.change D
  historyCommit D.toService message metadata

/-! ## Serving calls -/

/-- What there is between two calls. -/
structure State where
  disk : Disk
  repo : Option Repo

def State.world (s : State) (faults : List (Option String)) : World (Option Repo) :=
  ⟨s.disk, s.repo, [], faults⟩

def stateOf (w : World (Option Repo)) : State := ⟨w.disk, w.rest⟩

/-- The state after a call, however it ends. -/
def serve (call : Call) (faults : List (Option String)) (s : State) : State :=
  stateOf (after (call.run D) (s.world faults))

end Infinito.History
