import Infinito.Workspace.Resolve

/-!
# The file operations

`read_file`, `write_file`, `create_dir`, `rename_file`, `delete_file` and `load_zip`, up to
the point where each commits to the history; what they hand on to the commit is its message.

YAML and JSON documents are read and merged by libraries. What the operations take from
them is collected in `Docs`, functions on the texts; which file is read, when, and what is
written where, is here.
-/

set_option autoImplicit false

namespace Infinito.Workspace

open Py Lib

/-- What the operations do to documents, by way of the YAML and JSON libraries. -/
structure Docs where
  /-- `_preserve_host_vars_applications` on the existing and the incoming text: the merged
      document, or nothing when the incoming text is to be written as it is -/
  preserveApplications : Text → Text → Option Text
  /-- `_merge_structured_bytes` for `.yml` and `.yaml` -/
  mergeYaml : Bytes → Bytes → Option Bytes
  /-- `_merge_structured_bytes` for `.json` -/
  mergeJson : Bytes → Bytes → Option Bytes
  /-- `_refresh_meta_after_upload` on the metadata file, whether there is an inventory,
      which recorded host variables file is there, and the candidates: the new metadata
      file, if anything changed -/
  refreshedMeta : Option Text → Bool → (Text → Bool) → List FileName → Option Text

/-- What an operation that went through hands on: the message of its commit, and what it
    answers. -/
structure Done (α : Type) where
  message : Text
  reply : α

variable {ρ : Type} (h : Host) (docs : Docs)

/-- `ensure`, the sanitising of the workspace id aside. -/
def ensure : Fs ρ Unit := do
  if ← isDir h.base then pure () else httpError 404 "workspace not found"

def readFile (relPath : Text) : Fs ρ Text := do
  ensure h
  let target ← orRaise (safeResolve h relPath)
  if ← isFile target then
    return readText (← orFail "failed to read file" (readBytes target))
  else httpError 404 "file not found"

def isYamlSuffix (s : Text) : Bool := s = ['.', 'y', 'm', 'l'] || s = ['.', 'y', 'a', 'm', 'l']

/-- A host variables file, for which `_preserve_host_vars_applications` looks further. -/
def isHostVarsFile (target : Path) : Bool :=
  (target.dropLast.getLast?.any fun n => n.text = "host_vars".toList) &&
    target.getLast?.any fun n => isYamlSuffix (suffix n.text)

/-- `_preserve_host_vars_applications` -/
def preserveHostVarsApplications (target : Path) (content : Text) : Fs ρ Text := do
  if isHostVarsFile target = true then
    if ← isFile target then
      tryCatch
        (do
          let existing ← readBytes target
          return (docs.preserveApplications (readText existing) content).getD content)
        fun _ => pure content
    else pure content
  else pure content

def writeFile (uuid : FileName) (relPath content : Text) : Fs ρ (Done Unit) := do
  ensure h
  let target ← orRaise (safeResolve h relPath)
  let existedBefore ← pathExists target
  safeMkdir target.dropLast
  let contentToWrite ← preserveHostVarsApplications docs target content
  orFail "failed to write file" (atomicWriteText uuid target contentToWrite)
  let path ← orRaise (h.relativeTo target)
  let action : Text := if existedBefore then "edit: " else "create: "
  return ⟨action ++ posix path, ()⟩

def lstripSlash (t : Text) : Text := t.dropWhile (· = '/')

def rstripSlash (t : Text) : Text := t.rdropWhile (· = '/')

def createDir (relPath : Text) : Fs ρ (Done Text) := do
  ensure h
  let raw := lstripSlash (strip relPath)
  if raw = [] then httpError 400 "path required"
  else
    let target ← orRaise (safeResolve h (if endsWith raw ['/'] then rstripSlash raw else raw))
    if ← pathExists target then httpError 409 "target already exists"
    else
      orFail "failed to create directory" (safeMkdir target)
      let path ← orRaise (h.relativeTo target)
      return ⟨"create: ".toList ++ posix path, posix path⟩

def renameFile (relPath newPath : Text) : Fs ρ (Done Text) := do
  ensure h
  let source ← orRaise (safeResolve h relPath)
  if ← pathExists source then
    let rawNewPath := lstripSlash (strip newPath)
    if rawNewPath = [] ∨ endsWith rawNewPath ['/'] then httpError 400 "invalid new path"
    else
      let destination ← orRaise (safeResolve h rawNewPath)
      if (← isDir source) = true ∧ source <+: destination.dropLast then
        httpError 400 "cannot move directory into itself"
      else if ← pathExists destination then httpError 409 "target already exists"
      else if ← pathExists destination.dropLast then
        orFail "failed to rename file" (exec (.rename source destination))
        let old ← orRaise (h.relativeTo source)
        let new ← orRaise (h.relativeTo destination)
        return ⟨"rename: ".toList ++ posix old ++ " -> ".toList ++ posix new, posix new⟩
      else httpError 400 "target directory missing"
  else httpError 404 "file not found"

def deleteFile (relPath : Text) : Fs ρ (Done Unit) := do
  ensure h
  let target ← orRaise (safeResolve h relPath)
  if ← pathExists target then
    orFail "failed to delete file" (do
      if ← isDir target then exec (.rmtree target) else exec (.unlink target))
    let path ← orRaise (h.relativeTo target)
    return ⟨"delete: ".toList ++ posix path, ()⟩
  else httpError 404 "file not found"

/-! ## `load_zip` -/

/-- `ZIP_IMPORT_MODES` -/
inductive ZipMode where
  | override
  | merge
  deriving DecidableEq

def zipMode (t : Text) : ZipMode := if lower (strip t) = "merge".toList then .merge else .override

/-- `_resolve_zip_mode`: an empty text is falsy. -/
def resolveZipMode (relPath : Text) (defaultMode : ZipMode) (perFileMode : List (Text × Text)) :
    ZipMode :=
  match (perFileMode.lookup relPath).bind orNone with
  | some mode => zipMode mode
  | none => defaultMode

/-- `_merge_structured_bytes` -/
def mergeStructuredBytes (relPath : Text) (existing incoming : Bytes) : Option Bytes :=
  let lowered := lower relPath
  if endsWith lowered ".yml" || endsWith lowered ".yaml" then docs.mergeYaml existing incoming
  else if endsWith lowered ".json" then docs.mergeJson existing incoming
  else none

structure ZipCounts where
  createdFiles : Nat
  overriddenFiles : Nat
  mergedFiles : Nat
  skippedFiles : Nat
  deriving DecidableEq

/-- The bytes that are there already, if they can be read. -/
def existingBytes (p : Path) : Fs ρ (Option Bytes) := do
  if ← isFile p then
    tryCatch (do return some (← readBytes p)) fun _ => pure none
  else pure none

/-- `open(resolved, "wb")`, which empties the file, and then the write -/
def extract (p : Path) (payload : Bytes) : Fs ρ Unit :=
  orFail "failed to extract zip" (do
    exec (.write p [])
    exec (.write p payload))

/-- The branch of `load_zip` that merges an entry into the file that is there. -/
def mergeMember (counts : ZipCounts) (relPath : Text) (resolved : Path)
    (existing incoming : Bytes) : Fs ρ ZipCounts := do
  match mergeStructuredBytes docs relPath existing incoming with
  | none => return { counts with skippedFiles := counts.skippedFiles + 1 }
  | some payload =>
    let counts := { counts with mergedFiles := counts.mergedFiles + 1 }
    if payload = existing then return counts
    else
      extract resolved payload
      return counts

/-- The branch that writes an entry whether or not a file is there. -/
def writeMember (counts : ZipCounts) (resolved : Path) (incoming : Bytes) : Fs ρ ZipCounts := do
  let existed ← pathExists resolved
  extract resolved incoming
  return if existed then { counts with overriddenFiles := counts.overriddenFiles + 1 }
    else { counts with createdFiles := counts.createdFiles + 1 }

/-- One entry of the archive. -/
def importMember (defaultMode : ZipMode) (perFileMode : List (Text × Text)) (counts : ZipCounts)
    (info : ZipInfo) : Fs ρ ZipCounts := do
  match ← orRaise (memberTarget h info) with
  | none => return counts
  | some (relPath, resolved) =>
    safeMkdir resolved.dropLast
    let incoming ← orFail "failed to extract zip" (orRaise (info.content.mapError .raised))
    let existing ← existingBytes resolved
    match resolveZipMode relPath defaultMode perFileMode, existing with
    | .merge, some existing => mergeMember docs counts relPath resolved existing incoming
    | _, _ => writeMember counts resolved incoming

def importMembers (defaultMode : ZipMode) (perFileMode : List (Text × Text)) :
    ZipCounts → List ZipInfo → Fs ρ ZipCounts
  | counts, [] => pure counts
  | counts, info :: infos => do
    let counts ← importMember h docs defaultMode perFileMode counts info
    importMembers defaultMode perFileMode counts infos

/-- `load_zip` up to the last entry. No list of entries: the data is no archive. -/
def extractZip (data : Option (List ZipInfo)) (defaultMode : Text)
    (perFileMode : List (Text × Text)) : Fs ρ ZipCounts := do
  ensure h
  match data with
  | none => httpError 400 "invalid zip"
  | some infos => importMembers h docs (zipMode defaultMode) perFileMode ⟨0, 0, 0, 0⟩ infos

/-- `path.iterdir()` on `host_vars`, the YAML files of it, sorted. -/
def hostVarsCandidates (d : Disk) : List FileName :=
  let found := d.nodes.keys.filter fun p =>
    p.dropLast = h.base ++ [fileName "host_vars" (Eq.refl true)] ∧
      (d.fileAt p).isSome ∧ (p.getLast?.any fun n => isYamlSuffix (suffix n.text)) = true
  (sortedBy posix posix_injective found).filterMap (·.getLast?)

/-- `_safe_resolve(root, host_vars_file).is_file()`, a refusal counting as no -/
def hostVarsFileIsThere (d : Disk) (relPath : Text) : Bool :=
  match safeResolve h relPath with
  | .ok p => (d.fileAt p).isSome
  | .error _ => false

/-- `_refresh_meta_after_upload` -/
def refreshMetaAfterUpload (uuid : FileName) : Fs ρ Unit := do
  let record ← existingBytes h.metaPath
  let hasInventory ← pathExists (h.base ++ [fileName "inventory.yml" (Eq.refl true)])
  let there ← fun w => .ok (hostVarsFileIsThere h w.disk) w
  let candidates ← fun w => .ok (hostVarsCandidates h w.disk) w
  match docs.refreshedMeta (record.map readText) hasInventory there candidates with
  | none => pure ()
  | some text => atomicWriteText uuid h.metaPath text

def loadZip (uuid : FileName) (data : Option (List ZipInfo)) (defaultMode : Text)
    (perFileMode : List (Text × Text)) : Fs ρ (Done ZipCounts) := do
  let counts ← extractZip h docs data defaultMode perFileMode
  refreshMetaAfterUpload h docs uuid
  return ⟨"bulk: zip import", counts⟩

end Infinito.Workspace
