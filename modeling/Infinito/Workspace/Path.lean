import Infinito.Py.Text
import Mathlib.Data.List.Lex
import Mathlib.Data.Char

/-!
# Paths

A file name is a text that a directory can hold: not empty, not `.` or `..`, and without a
slash. It carries the proof, so that a `Path` — a list of file names — has one spelling,
`posix`, and that spelling reads back (`parts_posix`).

What a client sends is a text, and a text spells more than paths: `parts` reads it the way
`pathlib` does, dropping empty segments and `.` but keeping `..`, because where `..` leads
is up to the file system.
-/

set_option autoImplicit false

namespace Infinito.Workspace

open Py

def isFileName (t : Text) : Bool := t ≠ [] && t ≠ ['.'] && t ≠ ['.', '.'] && !t.contains '/'

structure FileName where
  text : Text
  valid : isFileName text = true
  deriving DecidableEq

theorem FileName.ext {m n : FileName} (h : m.text = n.text) : m = n := by
  cases m; cases n; cases h; rfl

theorem FileName.no_slash (n : FileName) : '/' ∉ n.text := by
  have h := n.valid
  simp only [isFileName, Bool.and_eq_true, Bool.not_eq_true', List.contains_eq_mem,
    decide_eq_false_iff_not] at h
  exact h.2

/-- A path from the root of the file system, or from a directory said elsewhere. -/
abbrev Path := List FileName

/-- A segment of a text read as a path. -/
inductive Part where
  | up
  | down (n : FileName)
  deriving DecidableEq

def part (t : Text) : Option Part :=
  if t = ['.', '.'] then some .up
  else if h : isFileName t = true then some (.down ⟨t, h⟩)
  else none

/-- `PurePosixPath(raw).parts`, the leading slash aside. -/
def parts (raw : Text) : List Part := (raw.splitOn '/').filterMap part

/-- `path.as_posix()` -/
def posix (p : Path) : Text := ['/'].intercalate (p.map (·.text))

theorem part_text (n : FileName) : part n.text = some (.down n) := by
  have hup : n.text ≠ ['.', '.'] := by
    intro h
    have hv := n.valid
    rw [h] at hv
    cases hv
  rw [part, if_neg hup, dif_pos n.valid]

theorem parts_posix (p : Path) : parts (posix p) = p.map .down := by
  cases p with
  | nil => rfl
  | cons n p =>
    unfold parts posix
    rw [List.splitOn_intercalate '/' _ (by simp), List.filterMap_map]
    · show List.filterMap (fun n : FileName => part n.text) (n :: p) = _
      simp only [part_text, List.filterMap_eq_map']
    · intro t ht
      obtain ⟨m, -, rfl⟩ := List.mem_map.mp ht
      exact m.no_slash

theorem posix_injective : Function.Injective posix := by
  intro p q h
  have hparts : p.map Part.down = q.map .down := by
    rw [← parts_posix, ← parts_posix, h]
  exact List.map_injective_iff.mpr (fun _ _ => Part.down.inj) hparts

/-- Where the segments lead in a file system without symbolic links. -/
def lexical (ps : List Part) : Path :=
  ps.foldl (fun p s => match s with
    | .up => p.dropLast
    | .down n => p ++ [n]) []

theorem lexical_down (p : Path) : lexical (p.map .down) = p := by
  have h : ∀ q : Path, (p.map Part.down).foldl (fun p s => match s with
      | .up => p.dropLast
      | .down n => p ++ [n]) q = q ++ p := by
    induction p with
    | nil => intro q; simp
    | cons n p ih =>
      intro q
      rw [List.map_cons, List.foldl_cons, ih, List.append_assoc]
      rfl
  exact h []

/-- `path.suffix`: from the last dot, unless it starts or ends the name. -/
def suffix (name : Text) : Text :=
  let tail := name.reverse.takeWhile (· ≠ '.')
  let stem := (name.reverse.dropWhile (· ≠ '.')).tail
  if tail = [] ∨ stem = [] then [] else '.' :: tail.reverse

def endsWith (t end_ : Text) : Bool := end_.isSuffixOf t

def startsWith (t start : Text) : Bool := start.isPrefixOf t

/-! ## The names the service knows -/

def fileName (t : Text) (h : isFileName t = true) : FileName := ⟨t, h⟩

/-- `WORKSPACE_META_FILENAME` -/
def metaName : FileName := fileName "workspace.json" (by decide)

def gitName : FileName := fileName ".git" (by decide)

/-- `_HIDDEN_FILES` -/
def hiddenFiles : List FileName := [metaName, gitName]

/-- `path.with_name(f".{path.name}.{uuid.uuid4().hex}.tmp")` -/
def tmpName (name uuid : FileName) : FileName :=
  fileName ('.' :: name.text ++ '.' :: uuid.text ++ ['.', 't', 'm', 'p']) (by
    have hlen {t : Text} : t ++ '.' :: (uuid.text ++ ['.', 't', 'm', 'p']) ≠ ['.'] := by
      intro h
      have := congrArg List.length h
      simp at this
      omega
    simp [isFileName, name.no_slash, uuid.no_slash, hlen])

theorem tmpName_not_hidden (name uuid : FileName) : tmpName name uuid ∉ hiddenFiles := by
  intro h
  have hlast : ∀ n ∈ hiddenFiles, n.text.getLast? ≠ some 'p' := by decide
  refine hlast _ h ?_
  show ('.' :: name.text ++ '.' :: uuid.text ++ ['.', 't', 'm', 'p']).getLast? = _
  rw [List.getLast?_append_of_ne_nil _ (by simp)]
  rfl

end Infinito.Workspace
