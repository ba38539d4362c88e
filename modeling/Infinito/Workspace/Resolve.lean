import Infinito.Workspace.Disk

/-!
# From what a client names to a path

Two normalisers stand between a client's text and the disk. `safeResolve` takes the names
of the file routes: it resolves them against the workspace root, links and `..` included,
and looks at where they lead. `normalizeZipMemberPath` takes the names in an archive: it
looks at the text, and `load_zip` resolves what is left.

Both keep a name inside the root (`safeResolve_inside`, `memberTarget_inside`), for any
file system whatsoever — `Host.realpath` is arbitrary. Against the two things inside the
root that are not the client's, they are uneven: `safeResolve` refuses `workspace.json` and
`.git` as the *last* component of the path a name leads to, and the other refuses only the
text `workspace.json`.
-/

set_option autoImplicit false

namespace Infinito.Workspace

open Py Lib

/-- Where the workspace lies, and how the file system resolves paths. -/
structure Host where
  /-- `workspace_dir(workspace_id)`, as configured -/
  root : Path
  /-- `root.resolve()` -/
  base : Path
  /-- `path.resolve()` on the segments of an absolute path; nothing when it raises, for a
      NUL or a loop of links -/
  realpath : List Part → Option Path
  realpath_root : realpath (root.map .down) = some base

namespace Host

/-- A host without symbolic links. -/
def plain (root : Path) : Host where
  root := root
  base := root
  realpath ps := some (lexical ps)
  realpath_root := by rw [lexical_down]

variable (h : Host)

/-- `(root / raw).resolve()` -/
def resolve (raw : Text) : Option Path := h.realpath (h.root.map .down ++ parts raw)

def metaPath : Path := h.base ++ [metaName]

def gitDir : Path := h.base ++ [gitName]

def Inside (q : Path) : Prop := h.base <+: q ∧ q ≠ h.base

/-- `workspace.json`, `.git` and what is below it. -/
def Protected (q : Path) : Prop := q = h.metaPath ∨ h.gitDir <+: q

instance (q : Path) : Decidable (h.Inside q) := inferInstanceAs (Decidable (_ ∧ _))

instance (q : Path) : Decidable (h.Protected q) := inferInstanceAs (Decidable (_ ∨ _))

/-- `path.relative_to(root)` -/
def relativeTo (q : Path) : Except Exc Path :=
  if h.root <+: q then .ok (q.drop h.root.length) else .error (.raised "is not in the subpath")

end Host

/-- `_safe_resolve` -/
def safeResolve (h : Host) (relPath : Text) : Except Exc Path :=
  let raw := strip relPath
  if raw = [] then .error (.http ⟨400, "path required"⟩)
  else if startsWith raw ['/'] then .error (.http ⟨400, "invalid path"⟩)
  else match h.resolve raw with
    | none => .error (.raised "cannot resolve path")
    | some candidate =>
        if candidate = h.base ∨ ¬ h.base <+: candidate then .error (.http ⟨400, "invalid path"⟩)
        else if candidate.getLast?.any hiddenFiles.contains then
          .error (.http ⟨403, "access denied"⟩)
        else .ok candidate

theorem safeResolve_eq_ok {h : Host} {relPath : Text} {q : Path}
    (hq : safeResolve h relPath = .ok q) :
    h.resolve (strip relPath) = some q ∧ h.Inside q ∧ ∀ n, q.getLast? = some n → n ∉ hiddenFiles := by
  simp only [safeResolve] at hq
  split at hq
  · cases hq
  · split at hq
    · cases hq
    · cases hr : h.resolve (strip relPath) with
      | none => rw [hr] at hq; cases hq
      | some candidate =>
        rw [hr] at hq
        dsimp only at hq
        split at hq
        · cases hq
        · rename_i hin
          split at hq
          · cases hq
          · rename_i hlast
            cases hq
            obtain ⟨hne, hpre⟩ := not_or.mp hin
            refine ⟨rfl, ⟨not_not.mp hpre, hne⟩, ?_⟩
            intro n hn hmem
            rw [hn] at hlast
            exact hlast (by simpa using hmem)

theorem safeResolve_inside {h : Host} {relPath : Text} {q : Path}
    (hq : safeResolve h relPath = .ok q) : h.Inside q := (safeResolve_eq_ok hq).2.1

/-! ## Archives -/

/-- An entry of an archive, as `zipfile` presents it: reading its content can fail. -/
structure ZipInfo where
  filename : Text
  externalAttr : Nat
  content : Except String Bytes

namespace ZipInfo

def isDir (info : ZipInfo) : Bool := endsWith info.filename ['/']

/-- `zip_member_mode` -/
def mode (info : ZipInfo) : Nat := (info.externalAttr >>> 16) &&& 0o177777

/-- `zip_member_is_symlink` -/
def isSymlink (info : ZipInfo) : Bool := info.mode &&& 0o170000 = 0o120000

/-- `zip_member_has_unsafe_mode` -/
def hasUnsafeMode (info : ZipInfo) : Bool := info.mode &&& 0o022 ≠ 0

end ZipInfo

/-- `re.match(r"^[A-Za-z]:", raw)` -/
def startsWithDrive : Text → Bool
  | c :: ':' :: _ => c.isAlpha
  | _ => false

/-- `_normalize_zip_member_path` -/
def normalizeZipMemberPath (name : Text) : Option Text :=
  let raw := name.map fun c => if c = '\\' then '/' else c
  if raw = [] || endsWith raw ['/'] then none
  else if startsWith raw ['/'] || startsWith raw ['\\'] then none
  else if startsWithDrive raw then none
  else
    let segments := (raw.splitOn '/').filter (· ≠ [])
    if segments = [] || segments.any (· = ['.', '.']) then none
    else if segments.any (· = metaName.text) then none
    else some (['/'].intercalate segments)

/-- The path an entry is written to: none for one that is passed over, an error for one that
    stops the import. -/
def memberTarget (h : Host) (info : ZipInfo) : Except Exc (Option (Text × Path)) :=
  if info.isDir then .ok none
  else if info.isSymlink then
    .error (.http ⟨400, "zip import rejected symlink entry: " ++ String.ofList info.filename⟩)
  else if info.hasUnsafeMode then
    .error (.http ⟨400, "zip import rejected writable entry: " ++ String.ofList info.filename⟩)
  else match normalizeZipMemberPath info.filename with
    | none => .ok none
    | some relPath => match h.resolve relPath with
      | none => .error (.raised "cannot resolve path")
      | some resolved =>
          if resolved = h.base ∨ ¬ h.base <+: resolved then
            .error (.http ⟨400, "zip import rejected path traversal entry: " ++
              String.ofList info.filename⟩)
          else .ok (some (relPath, resolved))

theorem memberTarget_inside {h : Host} {info : ZipInfo} {relPath : Text} {q : Path}
    (hq : memberTarget h info = .ok (some (relPath, q))) : h.Inside q := by
  simp only [memberTarget] at hq
  split at hq
  · cases hq
  · split at hq
    · cases hq
    · split at hq
      · cases hq
      · split at hq
        · cases hq
        · split at hq
          · cases hq
          · split at hq
            · cases hq
            · rename_i hin
              cases hq
              obtain ⟨hne, hpre⟩ := not_or.mp hin
              exact ⟨not_not.mp hpre, hne⟩

end Infinito.Workspace
