import Infinito.History.Secrets
import Infinito.Py.Lines

/-!
# The repository of a workspace

What the history uses of git: an index and a list of commits, each a snapshot of files by
path. `git add -A` takes the working tree into the index, leaving out what is ignored and
not yet recorded; `git diff --cached --name-only --diff-filter=AM` lists what changed since
the last commit, with two habits that matter here. A file that git takes for the new name
of a deleted one has status R, and is not in that list; and a path with a character outside
printable ASCII, a quote or a backslash is printed quoted and escaped.

Which paths are ignored, what counts as a rename, what an archive contains and what a
revision names is git's own business: `Git` has them as functions. The listing and the
quoting are spelled out.
-/

set_option autoImplicit false

namespace Infinito.History

open Py Lib Workspace

/-- Files by their path from the workspace root. -/
abbrev Snapshot := FinMap Path Bytes

structure Commit where
  sha : Text
  message : Text
  tree : Snapshot

structure Repo where
  /-- `.git/info/exclude` -/
  exclude : Option Text
  index : Snapshot
  /-- newest first -/
  commits : List Commit

/-- The parts of git that are taken as they come. -/
structure Git where
  /-- the exclude file `git init` leaves -/
  initExclude : Option Text
  /-- whether an unrecorded path is ignored, by the exclude file and the `.gitignore` files -/
  ignored : Option Text → Snapshot → Path → Bool
  /-- whether an added path is taken for the new name of a deleted one -/
  renamed : Snapshot → Snapshot → Path → Bool
  /-- `git archive` of a snapshot, or of what a path of it matches: the files it contains,
      less those whose attributes keep them from export; nothing when nothing matches -/
  archived : Snapshot → Option Path → Option Snapshot
  /-- the name of a commit on top of others -/
  shaOf : List Commit → Text → Snapshot → Text
  /-- `git rev-parse --verify <revision>^{commit}` -/
  revParse : List Commit → Text → Option Commit
  revParse_mem : ∀ commits revision c, revParse commits revision = some c → c ∈ commits

/-! ## The working tree -/

def stripPrefix (base p : Path) : Option Path :=
  if base <+: p then some (p.drop base.length) else none

theorem stripPrefix_append (base p : Path) : stripPrefix base (base ++ p) = some p := by
  rw [stripPrefix, if_pos (List.prefix_append _ _), List.drop_left]

/-- The files git sees: no repository is part of one. -/
def worktree (h : Host) (d : Disk) : Snapshot :=
  (d.nodes.comap (h.base ++ ·) (stripPrefix h.base) (stripPrefix_append _)).filterMap
    fun p node => match node with
      | .file content => if gitName ∈ p then none else some content
      | .dir => none

theorem get_worktree {h : Host} {d : Disk} {p : Path} :
    (worktree h d).get p = if gitName ∈ p then none else d.fileAt (h.base ++ p) := by
  unfold worktree Disk.fileAt Nodes.fileAt
  rw [FinMap.get_filterMap, FinMap.get_comap]
  cases d.nodes.get (h.base ++ p) with
  | none => simp
  | some node =>
    cases node with
    | dir => simp
    | file content => simp

/-! ## Staging and committing -/

namespace Repo

/-- The tree of the last commit. -/
def head (r : Repo) : Snapshot :=
  match r.commits with
  | [] => .empty
  | c :: _ => c.tree

/-- The paths at which the index differs from the last commit. -/
def changes (r : Repo) : Finset Path :=
  (r.head.keys ∪ r.index.keys).filter fun p => r.head.get p ≠ r.index.get p

theorem mem_changes {r : Repo} {p : Path} : p ∈ r.changes ↔ r.head.get p ≠ r.index.get p := by
  unfold changes
  rw [Finset.mem_filter, Finset.mem_union, FinMap.mem_keys, FinMap.mem_keys]
  constructor
  · exact And.right
  · intro hne
    refine ⟨?_, hne⟩
    cases hhead : r.head.get p with
    | some b => exact Or.inl rfl
    | none =>
      cases hindex : r.index.get p with
      | some b => exact Or.inr rfl
      | none => exact absurd (hhead.trans hindex.symm) hne

theorem index_eq_head {r : Repo} (h : r.changes = ∅) : r.index = r.head := by
  ext1 p
  by_contra hne
  have : p ∈ r.changes := mem_changes.mpr (Ne.symm hne)
  rw [h] at this
  exact absurd this (Finset.notMem_empty p)

/-- `git add -A .` -/
def stageAll (g : Git) (tree : Snapshot) (r : Repo) : Repo :=
  { r with index := tree.filterMap fun p content =>
      if (r.index.get p).isSome || !g.ignored r.exclude tree p then some content else none }

/-- `git reset` -/
def unstageAll (r : Repo) : Repo := { r with index := r.head }

/-- `git commit` -/
def commit (g : Git) (message : Text) (r : Repo) : Repo :=
  { r with commits := ⟨g.shaOf r.commits message r.index, message, r.index⟩ :: r.commits }

/-- `git init` -/
def init (g : Git) : Repo := ⟨g.initExclude, .empty, []⟩

variable (g : Git) (tree : Snapshot) (r : Repo)

@[simp] theorem stageAll_commits : (r.stageAll g tree).commits = r.commits := rfl
@[simp] theorem stageAll_head : (r.stageAll g tree).head = r.head := rfl
@[simp] theorem stageAll_exclude : (r.stageAll g tree).exclude = r.exclude := rfl
@[simp] theorem unstageAll_commits : r.unstageAll.commits = r.commits := rfl
@[simp] theorem unstageAll_head : r.unstageAll.head = r.head := rfl
@[simp] theorem unstageAll_index : r.unstageAll.index = r.head := rfl
@[simp] theorem commit_head (message : Text) : (r.commit g message).head = r.index := rfl
@[simp] theorem commit_index (message : Text) : (r.commit g message).index = r.index := rfl

variable {g tree r}

theorem get_stageAll {p : Path} : (r.stageAll g tree).index.get p =
    if (r.index.get p).isSome || !g.ignored r.exclude tree p then tree.get p else none := by
  show (tree.get p).bind _ = _
  cases tree.get p <;> simp

theorem get_of_stageAll {p : Path} {content : Bytes}
    (hp : (r.stageAll g tree).index.get p = some content) : tree.get p = some content := by
  rw [get_stageAll] at hp
  split at hp
  · exact hp
  · cases hp

end Repo

/-! ## What git prints of the staged changes -/

def needsQuoting (c : Char) : Bool := c.toNat < 0x20 || 0x7f ≤ c.toNat || c == '"' || c == '\\'

def octal (n : Nat) : Text :=
  [Char.ofNat (48 + n / 64 % 8), Char.ofNat (48 + n / 8 % 8), Char.ofNat (48 + n % 8)]

/-- A byte in a quoted path. -/
def quoteByte (n : Nat) : Text :=
  if n = 7 then ['\\', 'a'] else if n = 8 then ['\\', 'b'] else if n = 9 then ['\\', 't']
  else if n = 10 then ['\\', 'n'] else if n = 11 then ['\\', 'v'] else if n = 12 then ['\\', 'f']
  else if n = 13 then ['\\', 'r'] else if n = 34 then ['\\', '"'] else if n = 92 then ['\\', '\\']
  else if n < 0x20 ∨ 0x7f ≤ n then '\\' :: octal n
  else [Char.ofNat n]

/-- A path as git prints it, with `core.quotePath` as it is by default. -/
def quotePath (path : Text) : Text :=
  if path.any needsQuoting then
    '"' :: (encode path).flatMap (fun b => quoteByte b.toNat) ++ ['"']
  else path

/-- `git diff --cached --name-only --diff-filter=AM`, one path a line. -/
def diffLines (g : Git) (r : Repo) : List Text :=
  let listed := r.changes.filter fun p => (r.index.get p).isSome ∧ g.renamed r.head r.index p = false
  (sortedBy posix posix_injective listed).map fun p => quotePath (posix p)

/-- `_history_tracked_paths`, on git's output -/
def trackedPaths (stdout : Text) : List Text := ((splitlines stdout).map strip).filter (· ≠ [])

def printLines (lines : List Text) : Text := lines.flatMap (· ++ ['\n'])

theorem splitlinesFrom_line {acc line rest : Text} (h : ∀ c ∈ line, isLineBreak c = false) :
    splitlinesFrom acc (line ++ '\n' :: rest) = (acc.reverse ++ line) :: splitlinesFrom [] rest := by
  induction line generalizing acc with
  | nil =>
    rw [List.nil_append, List.append_nil]
    rfl
  | cons c line ih =>
    have hc : isLineBreak c = false := h c List.mem_cons_self
    have hr : c ≠ '\r' := by
      rintro rfl
      exact absurd hc (by decide)
    rw [List.cons_append, splitlinesFrom.eq_3]
    · rw [if_neg (by simp [hc]), ih fun d hd => h d (List.mem_cons_of_mem _ hd)]
      simp
    · intro cs hcr _
      exact hr hcr

theorem splitlinesFrom_plain {acc line : Text} (h : ∀ c ∈ line, isLineBreak c = false) :
    splitlinesFrom acc line = if acc = [] ∧ line = [] then [] else [acc.reverse ++ line] := by
  induction line generalizing acc with
  | nil =>
    rw [splitlinesFrom]
    by_cases hacc : acc = []
    · simp [hacc]
    · simp [hacc]
  | cons c line ih =>
    have hc : isLineBreak c = false := h c List.mem_cons_self
    have hr : c ≠ '\r' := by
      rintro rfl
      exact absurd hc (by decide)
    rw [splitlinesFrom.eq_3]
    · rw [if_neg (by simp [hc]), ih fun d hd => h d (List.mem_cons_of_mem _ hd)]
      simp
    · intro cs hcr _
      exact hr hcr

/-- Lines that are printed one by one are read back, with what follows the last of them. -/
theorem splitlines_printLines_append {lines : List Text} {last : Text}
    (h : ∀ line ∈ lines, ∀ c ∈ line, isLineBreak c = false)
    (hlast : ∀ c ∈ last, isLineBreak c = false) :
    splitlines (printLines lines ++ last) = lines ++ if last = [] then [] else [last] := by
  unfold splitlines printLines
  induction lines with
  | nil =>
    rw [List.flatMap_nil, List.nil_append, splitlinesFrom_plain hlast]
    simp
  | cons line lines ih =>
    rw [List.flatMap_cons, List.append_assoc, List.append_assoc, List.singleton_append,
      splitlinesFrom_line (h line List.mem_cons_self), ih fun l hl => h l (List.mem_cons_of_mem _ hl)]
    rfl

theorem splitlines_printLines {lines : List Text}
    (h : ∀ line ∈ lines, ∀ c ∈ line, isLineBreak c = false) :
    splitlines (printLines lines) = lines := by
  have := splitlines_printLines_append h (show ∀ c ∈ ([] : Text), _ by simp)
  simpa using this

theorem printLines_append (ls ms : List Text) : printLines (ls ++ ms) = printLines ls ++ printLines ms :=
  List.flatMap_append

theorem joinLines_concat (ls : List Text) (l : Text) : joinLines (ls ++ [l]) = printLines ls ++ l := by
  induction ls with
  | nil => simp [joinLines, printLines]
  | cons x xs ih =>
    have hne : xs ++ [l] ≠ [] := by simp
    obtain ⟨y, ys, hys⟩ := List.exists_cons_of_ne_nil hne
    rw [joinLines, hys] at ih
    rw [joinLines, List.cons_append, hys, List.intercalate_cons_cons, ih]
    simp [printLines]

theorem quoteByte_printable {n : Nat} (hn : n < 256) :
    ∀ c ∈ quoteByte n, 0x20 ≤ c.toNat ∧ c.toNat < 0x7f := by
  have hall : (List.range 256).all (fun n => (quoteByte n).all fun c =>
      Nat.ble 0x20 c.toNat && Nat.blt c.toNat 0x7f) = true := by decide +kernel
  intro c hc
  have hn := List.all_eq_true.mp hall n (List.mem_range.mpr hn)
  have hc := List.all_eq_true.mp hn c hc
  rw [Bool.and_eq_true, Nat.ble_eq, Nat.blt_eq] at hc
  exact hc

/-- A printed path stays on its line. -/
theorem quotePath_on_line {path : Text} {c : Char} (hc : c ∈ quotePath path) :
    isLineBreak c = false := by
  unfold quotePath at hc
  split at hc
  · have hquote : isLineBreak '"' = false := by decide
    rw [List.mem_append, List.mem_cons, List.mem_singleton, List.mem_flatMap] at hc
    rcases hc with (rfl | ⟨b, -, hb⟩) | rfl
    · exact hquote
    · exact not_lineBreak_of_printable (quoteByte_printable b.toNat_lt c hb)
    · exact hquote
  · rename_i hplain
    refine not_lineBreak_of_printable ?_
    have : needsQuoting c = false := by
      by_contra hq
      exact hplain (List.any_eq_true.mpr ⟨c, hc, by simpa using hq⟩)
    simp only [needsQuoting, Bool.or_eq_false_iff, decide_eq_false_iff_not] at this
    omega

/-- A path that git prints as it is, and that stripping leaves alone. -/
def PrintedPlainly (path : Text) : Prop := quotePath path = path ∧ strip path = path

instance (path : Text) : Decidable (PrintedPlainly path) := inferInstanceAs (Decidable (_ ∧ _))

theorem mem_trackedPaths {g : Git} {r : Repo} {p : Path} (hp : p ∈ r.changes)
    (hindex : (r.index.get p).isSome) (hrenamed : g.renamed r.head r.index p = false)
    (hplain : PrintedPlainly (posix p)) (hne : p ≠ []) :
    posix p ∈ trackedPaths (printLines (diffLines g r)) := by
  have hline : posix p ∈ diffLines g r := by
    refine List.mem_map.mpr ⟨p, ?_, hplain.1⟩
    rw [mem_sortedBy, Finset.mem_filter]
    exact ⟨hp, hindex, hrenamed⟩
  unfold trackedPaths
  rw [splitlines_printLines fun line hl c hc => by
    obtain ⟨q, -, rfl⟩ := List.mem_map.mp hl
    exact quotePath_on_line hc]
  rw [List.mem_filter]
  refine ⟨List.mem_map.mpr ⟨_, hline, hplain.2⟩, ?_⟩
  rw [decide_eq_true_eq]
  intro hnil
  exact hne (posix_injective hnil)

/-- A path with an accented letter is printed in quotes, by bytes. -/
example : quotePath "é.yml" = "\"\\303\\251.yml\"".toList := by decide

end Infinito.History
