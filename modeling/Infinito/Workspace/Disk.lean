import Infinito.Lib.FinMap
import Infinito.Lib.Effect
import Infinito.Py.Utf8
import Infinito.Workspace.Path
import Mathlib.Logic.Relation

/-!
# The disk, and programs that act on it

The disk maps real paths to files and directories; symbolic links are not nodes of it,
because every path the service acts on has been resolved first and `Host.realpath` is where
links live. A program acts through the commands of `Cmd` alone. Each is either refused by
the file system, or fails because the machine does (`World.faults`, a schedule of I/O errors
that is part of the state so that a statement about all runs is about all failures too), or
is done and logged.

So whatever a program does, it has taken a sequence of such steps: `Does P m` says that
every command `m` carries out satisfies `P`. That is proved once for each operation of the
service, and the rest follows from what single commands do: a path that no logged command
touches is as it was (`Does.frame`).

`ρ` is what else there is on the machine; the file operations do not look at it.
-/

set_option autoImplicit false

namespace Infinito.Workspace

open Py Lib

inductive Node where
  | dir
  | file (content : Bytes)
  deriving DecidableEq

/-- What is where, keyed by real absolute paths. -/
abbrev Nodes := FinMap Path Node

namespace Nodes

def isDir (d : Nodes) (p : Path) : Bool := p = [] || d.get p = some .dir

def fileAt (d : Nodes) (p : Path) : Option Bytes :=
  match d.get p with
  | some (.file content) => some content
  | _ => none

theorem fileAt_eq_some {d : Nodes} {p : Path} {b : Bytes} :
    d.fileAt p = some b ↔ d.get p = some (.file b) := by
  unfold fileAt
  split
  · rename_i content h
    rw [h]
    simp
  · rename_i h
    constructor
    · intro h'; cases h'
    · intro h'; exact absurd h' (h b)

theorem isDir_iff {d : Nodes} {p : Path} : d.isDir p = true ↔ p = [] ∨ d.get p = some .dir := by
  simp [isDir]

/-- Everything at and below `src` goes to `dst`. -/
def move (src dst : Path) (d : Nodes) : Nodes :=
  .ofFn (d.keys ∪ d.keys.image fun k => dst ++ k.drop src.length)
    (fun q => if dst <+: q then d.get (src ++ q.drop dst.length)
      else if src <+: q then none else d.get q)
    fun q h => by
      rw [Finset.mem_union, Finset.mem_image]
      split at h
      · rename_i hpre
        obtain ⟨r, rfl⟩ := hpre
        refine Or.inr ⟨src ++ r, (d.mem_keys _).mpr ?_, by simp⟩
        simpa using h
      · split at h
        · cases h
        · exact Or.inl ((d.mem_keys q).mpr h)

theorem get_move (src dst q : Path) (d : Nodes) : (d.move src dst).get q =
    if dst <+: q then d.get (src ++ q.drop dst.length)
      else if src <+: q then none else d.get q := rfl

@[simp] theorem get_move_append (src dst r : Path) (d : Nodes) :
    (d.move src dst).get (dst ++ r) = d.get (src ++ r) := by
  rw [get_move, if_pos (List.prefix_append _ _), List.drop_left]

theorem get_move_of_not {src dst q : Path} (d : Nodes) (hdst : ¬ dst <+: q) (hsrc : ¬ src <+: q) :
    (d.move src dst).get q = d.get q := by
  rw [get_move, if_neg hdst, if_neg hsrc]

/-- Whatever is there is in a directory. -/
def Closed (d : Nodes) : Prop := ∀ p ∈ d.keys, d.isDir p.dropLast = true

instance (d : Nodes) : Decidable d.Closed := inferInstanceAs (Decidable (∀ p ∈ d.keys, _))

theorem closed_iff {d : Nodes} :
    d.Closed ↔ ∀ p, d.get p ≠ none → d.isDir p.dropLast = true := by
  refine forall_congr' fun p => ?_
  rw [d.mem_keys, Option.isSome_iff_ne_none]

end Nodes

/-! ## Commands -/

inductive Cmd where
  | mkdir (p : Path)
  | read (p : Path)
  | write (p : Path) (content : Bytes)
  | rename (src dst : Path)
  | unlink (p : Path)
  | rmtree (p : Path)
  deriving DecidableEq

theorem prefix_of_prefix_dropLast {p q : Path} (h : p <+: q.dropLast) : p <+: q :=
  h.trans (List.dropLast_prefix q)

theorem prefix_dropLast {p q : Path} (h : p <+: q) (hne : p ≠ q) : p <+: q.dropLast := by
  obtain ⟨r, rfl⟩ := h
  cases hr : r with
  | nil => rw [hr, List.append_nil] at hne; exact absurd rfl hne
  | cons x xs =>
    rw [List.dropLast_append_of_ne_nil (by simp)]
    exact List.prefix_append _ _

namespace Cmd

/-- What the file system answers instead of carrying out the command. -/
def refused (d : Nodes) : Cmd → Option String
  | mkdir p =>
      if (d.get p).isSome then some "File exists"
      else if d.isDir p.dropLast then none else some "No such file or directory"
  | read p => match d.get p with
      | some (.file _) => none
      | some .dir => some "Is a directory"
      | none => some "No such file or directory"
  | write p _ =>
      if d.isDir p then some "Is a directory"
      else if d.isDir p.dropLast then none else some "No such file or directory"
  | rename src dst =>
      if d.get src = none ∨ d.isDir dst.dropLast = false then some "No such file or directory"
      else if src <+: dst then some "Invalid argument"
      else if dst ≠ [] ∧ d.get dst = none then none
      else if d.isDir src || d.isDir dst then some "File exists"
      else none
  | unlink p => match d.get p with
      | some (.file _) => none
      | some .dir => some "Is a directory"
      | none => some "No such file or directory"
  | rmtree p => if d.get p = some .dir then none else some "Not a directory"

def apply (d : Nodes) : Cmd → Nodes
  | mkdir p => d.set p .dir
  | read _ => d
  | write p content => d.set p (.file content)
  | rename src dst => d.move src dst
  | unlink p => d.restrict fun q => q ≠ p
  | rmtree p => d.restrict fun q => ¬ p <+: q

/-- The paths a command reads or modifies. -/
def Touches : Cmd → Path → Prop
  | mkdir p, q => q = p
  | read p, q => q = p
  | write p _, q => q = p
  | rename src dst, q => src <+: q ∨ dst <+: q
  | unlink p, q => q = p
  | rmtree p, q => p <+: q

instance (c : Cmd) (q : Path) : Decidable (c.Touches q) := by
  cases c <;> unfold Touches <;> infer_instance

variable {d : Nodes}

/-- **A command changes nothing it does not touch.** -/
theorem get_apply_of_not_touches {c : Cmd} {q : Path} (h : ¬ c.Touches q) :
    (c.apply d).get q = d.get q := by
  cases c with
  | mkdir p => exact if_neg h
  | read p => rfl
  | write p content => exact if_neg h
  | rename src dst =>
    obtain ⟨hsrc, hdst⟩ := not_or.mp h
    exact d.get_move_of_not hdst hsrc
  | unlink p =>
    have h : q ≠ p := h
    simp [apply, h]
  | rmtree p =>
    have h : ¬ p <+: q := h
    simp [apply, h]

theorem mkdir_refused {p : Path} (h : (mkdir p).refused d = none) :
    d.get p = none ∧ d.isDir p.dropLast = true := by
  simp only [refused] at h
  split at h
  · cases h
  · rename_i hnone
    split at h
    · rename_i hdir
      exact ⟨Option.not_isSome_iff_eq_none.mp hnone, hdir⟩
    · cases h

theorem write_refused {p : Path} {b : Bytes} (h : (write p b).refused d = none) :
    d.isDir p = false ∧ d.isDir p.dropLast = true := by
  simp only [refused] at h
  split at h
  · cases h
  · rename_i hfile
    split at h
    · rename_i hdir
      exact ⟨Bool.eq_false_iff.mpr hfile, hdir⟩
    · cases h

theorem rename_refused {src dst : Path} (h : (rename src dst).refused d = none) :
    d.get src ≠ none ∧ d.isDir dst.dropLast = true ∧ ¬ src <+: dst ∧
      dst ≠ [] ∧ (d.get dst = none ∨ d.isDir src = false ∧ d.isDir dst = false) := by
  simp only [refused] at h
  split at h
  · cases h
  · rename_i hparts
    obtain ⟨hsrc, hparent⟩ := not_or.mp hparts
    split at h
    · cases h
    · rename_i hpre
      refine ⟨hsrc, by simpa using hparent, hpre, ?_⟩
      split at h
      · rename_i hdst; exact ⟨hdst.1, Or.inl hdst.2⟩
      · split at h
        · cases h
        · rename_i hdirs
          rw [Bool.or_eq_true, not_or, Bool.not_eq_true, Bool.not_eq_true] at hdirs
          refine ⟨?_, Or.inr hdirs⟩
          rintro rfl
          cases hdirs.2

theorem read_refused {p : Path} (h : (read p).refused d = none) : ∃ b, d.get p = some (.file b) := by
  simp only [refused] at h
  split at h
  · rename_i b hb; exact ⟨b, hb⟩
  · cases h
  · cases h

theorem unlink_refused {p : Path} (h : (unlink p).refused d = none) :
    ∃ b, d.get p = some (.file b) := by
  simp only [refused] at h
  split at h
  · rename_i b hb; exact ⟨b, hb⟩
  · cases h
  · cases h

/-- **A command that is not refused leaves a tree a tree.** -/
theorem closed_apply (hd : d.Closed) {c : Cmd} (h : c.refused d = none) : (c.apply d).Closed := by
  rw [Nodes.closed_iff] at hd ⊢
  -- a node put at `p`, whose parent is a directory, where no directory was
  have hset {p : Path} {node : Node} (hparent : d.isDir p.dropLast = true)
      (hno : d.get p ≠ some .dir) (q : Path) (hq : (d.set p node).get q ≠ none) :
      Nodes.isDir (d.set p node) q.dropLast = true := by
    have hdir : d.isDir q.dropLast = true := by
      by_cases hqp : q = p
      · rw [hqp]; exact hparent
      · rw [FinMap.get_set, if_neg hqp] at hq
        exact hd q hq
    rw [Nodes.isDir_iff] at hdir ⊢
    refine hdir.imp id fun hget => ?_
    rw [FinMap.get_set, if_neg (by rintro heq; exact hno (heq ▸ hget)), hget]
  cases c with
  | mkdir p =>
    obtain ⟨hnone, hparent⟩ := mkdir_refused h
    exact hset hparent (by simp [hnone])
  | read p => exact hd
  | write p content =>
    obtain ⟨hfile, hparent⟩ := write_refused h
    refine hset hparent fun hdir => ?_
    rw [Nodes.isDir_iff.mpr (Or.inr hdir)] at hfile
    cases hfile
  | unlink p =>
    obtain ⟨b, hb⟩ := unlink_refused h
    intro q hq
    show Nodes.isDir (d.restrict _) q.dropLast = true
    simp only [apply, FinMap.get_restrict, decide_eq_true_eq] at hq
    split at hq
    · refine Nodes.isDir_iff.mpr ((Nodes.isDir_iff.mp (hd q hq)).imp id fun hget => ?_)
      rw [FinMap.get_restrict, if_pos, hget]
      rw [decide_eq_true_eq]
      intro heq
      rw [heq, hb] at hget
      cases hget
    · exact absurd rfl hq
  | rmtree p =>
    intro q hq
    show Nodes.isDir (d.restrict _) q.dropLast = true
    simp only [apply, FinMap.get_restrict, decide_eq_true_eq] at hq
    split at hq
    · rename_i hout
      refine Nodes.isDir_iff.mpr ((Nodes.isDir_iff.mp (hd q hq)).imp id fun hget => ?_)
      rw [FinMap.get_restrict, if_pos, hget]
      rw [decide_eq_true_eq]
      exact fun hin => hout (prefix_of_prefix_dropLast hin)
    · exact absurd rfl hq
  | rename src dst =>
    obtain ⟨-, hparent, hpre, hne, -⟩ := rename_refused h
    intro q hq
    show Nodes.isDir (d.move src dst) q.dropLast = true
    change (d.move src dst).get q ≠ none at hq
    by_cases hdst : dst <+: q
    · obtain ⟨r, rfl⟩ := hdst
      rw [Nodes.get_move_append] at hq
      by_cases hr : r = []
      · subst hr
        rw [List.append_nil]
        refine Nodes.isDir_iff.mpr ((Nodes.isDir_iff.mp hparent).imp id fun hget => ?_)
        rw [Nodes.get_move_of_not, hget]
        · intro hin
          have hlen := hin.length_le
          rw [List.length_dropLast] at hlen
          have := List.length_pos_iff.mpr hne
          omega
        · exact fun hin => hpre (prefix_of_prefix_dropLast hin)
      · have hdir := hd _ hq
        rw [List.dropLast_append_of_ne_nil hr] at hdir ⊢
        refine Nodes.isDir_iff.mpr ?_
        rcases Nodes.isDir_iff.mp hdir with hnil | hget
        · rw [List.append_eq_nil_iff] at hnil
          rw [hnil.1] at hpre
          exact absurd (List.nil_prefix) hpre
        · exact Or.inr (by rw [Nodes.get_move_append, hget])
    · by_cases hsrc : src <+: q
      · rw [Nodes.get_move, if_neg hdst, if_pos hsrc] at hq
        exact absurd rfl hq
      · rw [d.get_move_of_not hdst hsrc] at hq
        refine Nodes.isDir_iff.mpr ((Nodes.isDir_iff.mp (hd q hq)).imp id fun hget => ?_)
        rw [Nodes.get_move_of_not, hget]
        · exact fun hin => hdst (prefix_of_prefix_dropLast hin)
        · exact fun hin => hsrc (prefix_of_prefix_dropLast hin)

end Cmd

/-- A disk is a tree: what is there is in a directory that is there. -/
structure Disk where
  nodes : Nodes
  closed : nodes.Closed

namespace Disk

@[ext] theorem ext {d e : Disk} (h : ∀ p, d.nodes.get p = e.nodes.get p) : d = e := by
  have hnodes : d.nodes = e.nodes := FinMap.ext h
  cases d; cases e; cases hnodes; rfl

def get (d : Disk) (p : Path) : Option Node := d.nodes.get p

def isDir (d : Disk) (p : Path) : Bool := d.nodes.isDir p

def fileAt (d : Disk) (p : Path) : Option Bytes := d.nodes.fileAt p

theorem isDir_dropLast {d : Disk} {p : Path} (h : d.isDir p = true) : d.isDir p.dropLast = true := by
  rcases Nodes.isDir_iff.mp h with rfl | hget
  · rfl
  · exact Nodes.closed_iff.mp d.closed p (by simp [hget])

/-- Above a directory there are directories. -/
theorem isDir_of_prefix {d : Disk} {p q : Path} (h : d.isDir q = true) (hpre : p <+: q) :
    d.isDir p = true := by
  obtain ⟨r, rfl⟩ := hpre
  induction r using List.reverseRecOn with
  | nil => simpa using h
  | append_singleton r n ih =>
    apply ih
    have := isDir_dropLast h
    rwa [← List.append_assoc, List.dropLast_concat] at this

end Disk

/-! ## Worlds and programs -/

structure World (ρ : Type) where
  disk : Disk
  rest : ρ
  /-- the commands carried out, oldest first -/
  log : List Cmd
  /-- for each command to come, the I/O error it fails with, if any -/
  faults : List (Option String)

/-- What a program raises: an answer for the client, or any other exception. -/
inductive Exc where
  | http (e : HttpError)
  | raised (text : String)
  deriving DecidableEq

/-- What the client gets to see: an exception nobody handles is a 500. -/
def Exc.answer : Exc → HttpError
  | http e => e
  | raised _ => ⟨500, "Internal Server Error"⟩

def Exc.text : Exc → String
  | http e => e.detail
  | raised text => text

abbrev Fs (ρ : Type) := EStateM Exc (World ρ)

variable {ρ α β : Type}

namespace World

/-- Why the next command, if it is `c`, does not happen. -/
def trouble (w : World ρ) (c : Cmd) : Option String :=
  w.faults.head?.join.or (c.refused w.disk.nodes)

def tick (w : World ρ) : World ρ := { w with faults := w.faults.tail }

def did (w : World ρ) (c : Cmd) (h : c.refused w.disk.nodes = none) : World ρ :=
  { w with
    disk := ⟨c.apply w.disk.nodes, Cmd.closed_apply w.disk.closed h⟩
    log := w.log ++ [c]
    faults := w.faults.tail }

theorem refused_of_trouble {w : World ρ} {c : Cmd} (h : w.trouble c = none) :
    c.refused w.disk.nodes = none := (Option.or_eq_none_iff.mp h).2

variable (w : World ρ) (c : Cmd) (h : c.refused w.disk.nodes = none)

@[simp] theorem tick_disk : w.tick.disk = w.disk := rfl
@[simp] theorem tick_rest : w.tick.rest = w.rest := rfl
@[simp] theorem tick_log : w.tick.log = w.log := rfl
@[simp] theorem did_get (p : Path) : (w.did c h).disk.get p = (c.apply w.disk.nodes).get p := rfl
@[simp] theorem did_rest : (w.did c h).rest = w.rest := rfl
@[simp] theorem did_log : (w.did c h).log = w.log ++ [c] := rfl

end World

def exec (c : Cmd) : Fs ρ Unit := fun w =>
  match h : w.trouble c with
  | some text => .error (.raised text) w.tick
  | none => .ok () (w.did c (World.refused_of_trouble h))

/-- `raise HTTPException(status_code=…, detail=…)` -/
def httpError (status : Nat) (detail : String) : Fs ρ α := throw (.http ⟨status, detail⟩)

def orRaise (x : Except Exc α) : Fs ρ α :=
  match x with
  | .ok a => pure a
  | .error exc => throw exc

/-- `except Exception as exc: raise HTTPException(500, f"{what}: {exc}")` -/
def orFail (what : String) (m : Fs ρ α) : Fs ρ α :=
  tryCatch m fun exc => httpError 500 (what ++ ": " ++ exc.text)

def look (p : Path) : Fs ρ (Option Node) := fun w => .ok (w.disk.get p) w

/-- `path.exists()` -/
def pathExists (p : Path) : Fs ρ Bool := fun w => .ok (p = [] || (w.disk.get p).isSome) w

/-- `path.is_file()` -/
def isFile (p : Path) : Fs ρ Bool := fun w => .ok (w.disk.fileAt p).isSome w

/-- `path.is_dir()` -/
def isDir (p : Path) : Fs ρ Bool := fun w => .ok (w.disk.isDir p) w

theorem orRaise_eq_ok {x : Except Exc α} {a : α} {w w' : World ρ}
    (h : (orRaise x : Fs ρ α) w = .ok a w') : x = .ok a ∧ w' = w := by
  cases x with
  | ok b => cases h; exact ⟨rfl, rfl⟩
  | error exc => cases h

/-- `path.read_bytes()` -/
def readBytes (p : Path) : Fs ρ Bytes := do
  exec (.read p)
  fun w => .ok ((w.disk.fileAt p).getD []) w

/-- `safe_mkdir(path)`, the path given from its end: a missing directory is made after the
    ones above it. -/
def mkdirUp : List FileName → Fs ρ Unit
  | [] => pure ()
  | n :: up => do
    match ← look (n :: up).reverse with
    | some .dir => pure ()
    | some (.file _) => throw (.raised "File exists")
    | none => do
      mkdirUp up
      exec (.mkdir (n :: up).reverse)

def safeMkdir (p : Path) : Fs ρ Unit := mkdirUp p.reverse

/-- `path.with_name(…)` with the name of the temporary file. -/
def tmpPath (uuid : FileName) (p : Path) : Path :=
  match p.getLast? with
  | some name => p.dropLast ++ [tmpName name uuid]
  | none => [uuid]

def atomicWriteText (uuid : FileName) (p : Path) (text : Text) : Fs ρ Unit := do
  safeMkdir p.dropLast
  exec (.write (tmpPath uuid p) (encode text))
  exec (.rename (tmpPath uuid p) p)

/-! ## What programs do -/

/-- One step of a program: a command that `P` allows is done, or some command fails. -/
inductive DoesStep (P : World ρ → Cmd → Prop) : World ρ → World ρ → Prop
  | did {w : World ρ} {c : Cmd} (h : c.refused w.disk.nodes = none) :
      P w c → DoesStep P w (w.did c h)
  | failed {w : World ρ} : DoesStep P w w.tick

/-- Every command that `m` carries out satisfies `P` where it is carried out. -/
abbrev Does (P : World ρ → Cmd → Prop) (m : Fs ρ α) : Prop :=
  Moves (Relation.ReflTransGen (DoesStep P)) m

variable {P : World ρ → Cmd → Prop}

theorem exec_cases (c : Cmd) (w : World ρ) :
    (∃ text, w.trouble c = some text ∧ exec c w = .error (.raised text) w.tick) ∨
      ∃ h : w.trouble c = none, exec c w = .ok () (w.did c (World.refused_of_trouble h)) := by
  unfold exec
  split
  · rename_i text h; exact Or.inl ⟨text, h, rfl⟩
  · rename_i h; exact Or.inr ⟨h, rfl⟩

theorem exec_eq_ok {c : Cmd} {w w' : World ρ} (h : exec c w = .ok () w') :
    ∃ hc : c.refused w.disk.nodes = none, w' = w.did c hc := by
  rcases exec_cases c w with ⟨text, -, hexec⟩ | ⟨htrouble, hexec⟩
  · rw [h] at hexec; cases hexec
  · rw [h] at hexec
    cases hexec
    exact ⟨World.refused_of_trouble htrouble, rfl⟩

/-- A read that went through has read what is there. -/
theorem readBytes_eq_ok {p : Path} {b : Bytes} {w w' : World ρ} (h : readBytes p w = .ok b w') :
    w.disk.get p = some (.file b) ∧ w'.disk = w.disk := by
  obtain ⟨⟨⟩, u, hexec, hb⟩ := bind_eq_ok.mp h
  obtain ⟨hc, rfl⟩ := exec_eq_ok hexec
  obtain ⟨content, hcontent⟩ := Cmd.read_refused hc
  have hfile : w.disk.fileAt p = some content := Nodes.fileAt_eq_some.mpr hcontent
  have hget : EStateM.Result.ok ((w.disk.fileAt p).getD []) (w.did (.read p) hc) =
    EStateM.Result.ok b w' := hb
  rw [hfile] at hget
  cases hget
  exact ⟨hcontent, Disk.ext fun _ => rfl⟩

theorem Does.exec {c : Cmd} (h : ∀ w : World ρ, c.refused w.disk.nodes = none → P w c) :
    Does P (exec c) := by
  intro w
  rcases exec_cases c w with ⟨text, -, hexec⟩ | ⟨htrouble, hexec⟩
  · rw [after_of_error hexec]
    exact .single .failed
  · rw [after_of_ok hexec]
    have hc := World.refused_of_trouble htrouble
    exact .single (.did hc (h w hc))

theorem Does.weaken {Q : World ρ → Cmd → Prop} {m : Fs ρ α} (hPQ : ∀ w c, P w c → Q w c)
    (h : Does P m) : Does Q m := by
  intro w
  refine Relation.ReflTransGen.mono ?_ _ _ (h w)
  intro u v hstep
  cases hstep with
  | did hc hp => exact .did hc (hPQ _ _ hp)
  | failed => exact .failed

theorem Does.orRaise (x : Except Exc α) : Does P (orRaise x : Fs ρ α) := by
  cases x with
  | ok a => exact Moves.ret a
  | error e => exact Moves.raise _

theorem Does.orFail {what : String} {m : Fs ρ α} (h : Does P m) : Does P (orFail what m) :=
  Moves.tryCatch h fun _ => Moves.raise _

theorem Does.readBytes {p : Path} (h : ∀ w : World ρ, P w (.read p)) : Does P (readBytes p) :=
  Moves.bind (Does.exec fun w _ => h w) fun _ => Moves.read _

/-- An invariant of the allowed commands is one of the program. -/
theorem Does.keeps {I : World ρ → Prop} {m : Fs ρ α}
    (hdid : ∀ w c hc, I w → P w c → I (w.did c hc))
    (htick : ∀ w, I w → I w.tick) (h : Does P m) : Keeps I m := by
  intro w hw
  have hsteps := h w
  generalize after m w = w' at hsteps ⊢
  induction hsteps with
  | refl => exact hw
  | tail _ hstep ih =>
    cases hstep with
    | did hc hp => exact hdid _ _ hc ih hp
    | failed => exact htick _ ih

/-- **The log grows by what was done, and only what was touched has changed.** -/
theorem Does.trace {m : Fs ρ α} (h : Does P m) (w : World ρ) :
    ∃ cs, (after m w).log = w.log ++ cs ∧ (after m w).rest = w.rest ∧
      ∀ q, (∀ c ∈ cs, ¬ c.Touches q) → (after m w).disk.get q = w.disk.get q := by
  have hsteps := h w
  generalize after m w = w' at hsteps ⊢
  induction hsteps with
  | refl => exact ⟨[], by simp, rfl, fun _ _ => rfl⟩
  | tail _ hstep ih =>
    obtain ⟨cs, hlog, hrest, hframe⟩ := ih
    cases hstep with
    | did hc hp =>
      rename_i u c
      refine ⟨cs ++ [c], by simp [hlog], hrest, ?_⟩
      intro q hq
      have hc : ¬ c.Touches q := hq c (by simp)
      rw [World.did_get, Cmd.get_apply_of_not_touches hc]
      exact hframe q fun c' hc' => hq c' (by simp [hc'])
    | failed => exact ⟨cs, hlog, hrest, hframe⟩

/-- Directories are made at and above the path asked for, and where nothing was. -/
theorem mkdirUp_does {rev : List FileName}
    (h : ∀ w : World ρ, ∀ p, p <+: rev.reverse → p ≠ [] → w.disk.get p = none → P w (.mkdir p)) :
    Does P (mkdirUp rev) := by
  induction rev with
  | nil => exact Moves.ret ()
  | cons n up ih =>
    have hup : up.reverse <+: (n :: up).reverse := by
      rw [List.reverse_cons]
      exact List.prefix_append _ _
    refine Moves.bind (Moves.read _) fun node => ?_
    cases node with
    | some node =>
      cases node with
      | dir => exact Moves.ret ()
      | file content => exact Moves.raise _
    | none =>
      refine Moves.bind (ih fun w p hp => h w p (hp.trans hup)) fun _ => Does.exec ?_
      intro w hrefused
      exact h w _ (List.prefix_refl _) (by simp) (Cmd.mkdir_refused hrefused).1

theorem safeMkdir_does {p : Path}
    (h : ∀ w : World ρ, ∀ q, q <+: p → q ≠ [] → w.disk.get q = none → P w (.mkdir q)) :
    Does P (safeMkdir p) :=
  mkdirUp_does fun w q hq => h w q (by rwa [List.reverse_reverse] at hq)

theorem isDir_of_mkdirUp {rev : List FileName} {w w' : World ρ}
    (h : mkdirUp rev w = .ok () w') : w'.disk.isDir rev.reverse = true := by
  cases rev with
  | nil => rfl
  | cons n up =>
    obtain ⟨node, u, hlook, h⟩ := bind_eq_ok.mp h
    cases hlook
    cases hget : w.disk.get (n :: up).reverse with
    | some node =>
      rw [hget] at h
      cases node with
      | dir =>
        cases h
        exact Nodes.isDir_iff.mpr (Or.inr hget)
      | file content => cases h
    | none =>
      rw [hget] at h
      obtain ⟨-, v, -, h⟩ := bind_eq_ok.mp h
      obtain ⟨hc, rfl⟩ := exec_eq_ok h
      refine Nodes.isDir_iff.mpr (Or.inr ?_)
      show ((v.disk.nodes.set _ _).get _) = _
      simp

/-- Where `safe_mkdir` returned there is a directory. -/
theorem isDir_of_safeMkdir {p : Path} {w w' : World ρ} (h : safeMkdir p w = .ok () w') :
    w'.disk.isDir p = true := by
  have := isDir_of_mkdirUp h
  rwa [List.reverse_reverse] at this

end Infinito.Workspace
