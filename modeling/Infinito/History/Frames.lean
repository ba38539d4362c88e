import Infinito.History.Operations

/-!
# What the parts of an operation leave alone

Until it commits, a call leaves the repository alone; when it commits, it leaves the disk
alone but for `.gitignore`, which it starts when there is none and empties when an earlier
version wrote it (`historyCommit_disk`). So the disk after a call that went through is the
disk after its change, with `.gitignore` settled.
-/

set_option autoImplicit false

namespace Infinito.History

open Py Lib Workspace

/-! ## Programs that leave the disk or the repository alone -/

section Frames

variable {ρ α β : Type}

/-- The repository is not what the program changes. -/
abbrev KeepsRest (m : Fs ρ α) : Prop := Moves (fun w w' => w'.rest = w.rest) m

instance : IsPreorder (World ρ) (fun w w' => w'.rest = w.rest) where
  refl _ := rfl
  trans _ _ _ h h' := h'.trans h

/-- The disk is not what the program changes. -/
abbrev KeepsDisk (m : Fs ρ α) : Prop := Moves (fun w w' => w'.disk = w.disk) m

instance : IsPreorder (World ρ) (fun w w' => w'.disk = w.disk) where
  refl _ := rfl
  trans _ _ _ h h' := h'.trans h

/-- Neither disk nor repository is what the program changes. -/
abbrev KeepsBoth (m : Fs ρ α) : Prop := Moves (fun w w' => w'.disk = w.disk ∧ w'.rest = w.rest) m

instance : IsPreorder (World ρ) (fun w w' => w'.disk = w.disk ∧ w'.rest = w.rest) where
  refl _ := ⟨rfl, rfl⟩
  trans _ _ _ h h' := ⟨h'.1.trans h.1, h'.2.trans h.2⟩

theorem KeepsBoth.keepsRest {m : Fs ρ α} (h : KeepsBoth m) : KeepsRest m :=
  h.mono fun _ _ hw => hw.2

theorem KeepsBoth.keepsDisk {m : Fs ρ α} (h : KeepsBoth m) : KeepsDisk m :=
  h.mono fun _ _ hw => hw.1

theorem KeepsDisk.of_ok {m : Fs ρ α} {w w' : World ρ} {a : α} (h : KeepsDisk m)
    (hok : m w = .ok a w') : w'.disk = w.disk := by
  have := h w
  rwa [after_of_ok hok] at this

/-- A program on the disk that went through did so there. -/
theorem onDisk_eq_ok {m : Fs Unit α} {w w' : World ρ} {a : α} (hok : onDisk m w = .ok a w') :
    ∃ u, m ⟨w.disk, (), w.log, w.faults⟩ = .ok a u ∧ w' = ⟨u.disk, w.rest, u.log, u.faults⟩ := by
  cases hm : m ⟨w.disk, (), w.log, w.faults⟩ with
  | ok b u =>
    simp only [onDisk, hm] at hok
    cases hok
    exact ⟨u, rfl, rfl⟩
  | error e u =>
    simp only [onDisk, hm] at hok
    cases hok

theorem onDisk_keepsRest (m : Fs Unit α) : KeepsRest (onDisk m : Fs ρ α) := by
  intro w
  cases hm : m ⟨w.disk, (), w.log, w.faults⟩ with
  | ok a u => simp only [after, onDisk, hm]
  | error e u => simp only [after, onDisk, hm]

theorem gitCommand_keeps : KeepsBoth (gitCommand : Fs ρ (Option String)) := fun _ => ⟨rfl, rfl⟩

theorem runGit_keeps : KeepsBoth (runGit : Fs ρ Unit) := by
  refine Moves.bind gitCommand_keeps fun stderr => ?_
  cases stderr with
  | none => exact Moves.ret ()
  | some text => exact Moves.raise _

theorem read_keeps {p : Path} : KeepsBoth (exec (.read p) : Fs ρ Unit) := by
  intro w
  rcases exec_cases (.read p) w with ⟨text, -, hexec⟩ | ⟨htrouble, hexec⟩
  · rw [after_of_error hexec]; exact ⟨rfl, rfl⟩
  · rw [after_of_ok hexec]; exact ⟨rfl, rfl⟩

theorem readBytes_keeps {p : Path} : KeepsBoth (readBytes p : Fs ρ Bytes) :=
  Moves.bind read_keeps fun _ => Moves.read _

variable {S : Service}

theorem violation_keeps {line : Text} : KeepsBoth (violation S line) := by
  refine Moves.ite (fun _ => Moves.ret _) fun _ => ?_
  split
  · exact Moves.ret _
  · refine Moves.bind (Moves.read _) fun b => Moves.ite (fun _ => ?_) fun _ => Moves.ret _
    refine Moves.bind (Moves.tryCatch ?_ fun _ => Moves.ret _) fun content => ?_
    · exact Moves.bind readBytes_keeps fun _ => Moves.ret _
    · exact Moves.ret _

theorem violations_keep {lines : List Text} : KeepsBoth (violations S lines) := by
  induction lines with
  | nil => exact Moves.ret _
  | cons line lines ih =>
    exact Moves.bind violation_keeps fun _ => Moves.bind ih fun _ => Moves.ret _

theorem validate_keeps {r : Repo} : KeepsBoth (validateNoPlaintextSecrets S r) := by
  refine Moves.bind gitCommand_keeps fun stderr => Moves.bind violations_keep fun vs => ?_
  cases vs with
  | nil => exact Moves.ret _
  | cons first others => exact Moves.raise _

theorem exec_keepsRest {c : Cmd} : KeepsRest (exec c : Fs ρ Unit) := by
  intro w
  rcases exec_cases c w with ⟨text, -, hexec⟩ | ⟨htrouble, hexec⟩
  · rw [after_of_error hexec]; rfl
  · rw [after_of_ok hexec]; rfl

variable {D : Deployment}

theorem resolveHistorySha_keepsRest {g : Git} {sha : Text} : KeepsRest (resolveHistorySha g sha) := by
  refine Moves.bind (Moves.read _) fun repo => ?_
  cases repo with
  | none => exact Moves.raise _
  | some r =>
    refine Moves.ite (fun _ => Moves.raise _) fun _ =>
      Moves.bind gitCommand_keeps.keepsRest fun stderr => ?_
    split
    · exact Moves.ret _
    · exact Moves.raise _

theorem orRaise_keepsRest {α : Type} {x : Except Exc α} : KeepsRest (orRaise x : Hist α) := by
  cases x with
  | ok a => exact Moves.ret a
  | error e => exact Moves.raise _

/-- Until it commits, a call leaves the repository alone. -/
theorem Call.change_keepsRest (call : Call) : KeepsRest (call.change D) := by
  cases call with
  | writeFile uuid relPath content =>
    exact Moves.bind (onDisk_keepsRest _) fun _ => Moves.ret _
  | createDir relPath => exact Moves.bind (onDisk_keepsRest _) fun _ => Moves.ret _
  | renameFile relPath newPath => exact Moves.bind (onDisk_keepsRest _) fun _ => Moves.ret _
  | deleteFile relPath => exact Moves.bind (onDisk_keepsRest _) fun _ => Moves.ret _
  | loadZip uuid data defaultMode perFileMode =>
    exact Moves.bind (onDisk_keepsRest _) fun _ => Moves.ret _
  | editRole uuids hostAlias edit => exact onDisk_keepsRest _
  | restoreHistoryWorkspace sha =>
    exact Moves.bind (onDisk_keepsRest _) fun _ => Moves.bind resolveHistorySha_keepsRest fun _ =>
      Moves.bind (onDisk_keepsRest _) fun _ => Moves.ret _
  | restoreHistoryPath sha path =>
    refine Moves.bind (onDisk_keepsRest _) fun _ => Moves.bind (Moves.read _) fun repo => ?_
    cases repo with
    | none => exact Moves.raise _
    | some r =>
      exact Moves.bind orRaise_keepsRest fun _ => Moves.bind resolveHistorySha_keepsRest fun _ =>
        Moves.bind orRaise_keepsRest fun _ => Moves.bind (onDisk_keepsRest _) fun _ => Moves.ret _

end Frames

/-! ## What becomes of `.gitignore` -/

section Settled

variable {S : Service} {w w' : World (Option Repo)}

/-- `.gitignore` after the service has looked at it. -/
def settledNode : Option Node → Option Node
  | none => some (.file (encode []))
  | some .dir => some .dir
  | some (.file content) => some (.file (if isLegacy content then encode [] else content))

/-- What is at a path once `.gitignore` is settled. -/
def settled (S : Service) (d : Disk) (q : Path) : Option Node :=
  if q = ignorePath S.host then settledNode (d.get q) else d.get q

theorem ignorePath_ne_nil : ignorePath S.host ≠ [] := by simp [ignorePath]

theorem get_of_write {p : Path} {content : Bytes}
    (hok : (exec (.write p content) : Hist Unit) w = .ok () w') (q : Path) :
    w'.disk.get q = if q = p then some (.file content) else w.disk.get q := by
  obtain ⟨hc, rfl⟩ := exec_eq_ok hok
  rfl

theorem modifyRepo_keepsDisk {f : Repo → Repo} : KeepsDisk (modifyRepo f) := fun _ => rfl

theorem ensureHistoryGitignore_disk (hok : ensureHistoryGitignore S w = .ok () w') (q : Path) :
    w'.disk.get q = settled S w.disk q := by
  have hwritten {u : World (Option Repo)} (hu : u.disk = w.disk)
      (hold : settledNode (w.disk.get (ignorePath S.host)) = some (.file (encode [])))
      (hok : (do exec (.write (ignorePath S.host) (encode []))
                 modifyRepo fun r => { r with exclude := excludeText S.includeKdbx r.exclude } :
                 Hist Unit) u = .ok () w') : w'.disk.get q = settled S w.disk q := by
    replace hok := bind_eq_ok.mp hok
    obtain ⟨⟨⟩, v, hwrite, hok⟩ := hok
    rw [modifyRepo_keepsDisk.of_ok hok, get_of_write hwrite, settled, hu]
    by_cases hq : q = ignorePath S.host
    · rw [if_pos hq, if_pos hq, hq, hold]
    · rw [if_neg hq, if_neg hq]
  replace hok := bind_eq_ok.mp hok
  obtain ⟨there, u, hthere, hok⟩ := hok
  cases hthere
  cases hget : w.disk.get (ignorePath S.host) with
  | none =>
    simp only [hget, ignorePath_ne_nil, decide_false, Option.isSome_none, Bool.or_self,
      Bool.false_eq_true, if_false] at hok
    exact hwritten rfl (by rw [hget]; rfl) hok
  | some node =>
    simp only [hget, Option.isSome_some, Bool.or_true, if_true] at hok
    replace hok := bind_eq_ok.mp hok
    obtain ⟨existing, v, hread, hok⟩ := hok
    obtain ⟨hfile, hv⟩ := readBytes_eq_ok hread
    by_cases hlegacy : isLegacy existing = true
    · rw [if_pos hlegacy] at hok
      exact hwritten hv (by rw [hfile, settledNode, if_pos hlegacy]) hok
    · rw [if_neg hlegacy] at hok
      rw [modifyRepo_keepsDisk.of_ok hok, hv, settled]
      by_cases hq : q = ignorePath S.host
      · rw [if_pos hq, hq, hfile, settledNode, if_neg hlegacy]
      · rw [if_neg hq]

theorem ensureHistoryRepo_disk (hok : ensureHistoryRepo S w = .ok () w') (q : Path) :
    w'.disk.get q = settled S w.disk q := by
  replace hok := bind_eq_ok.mp hok
  obtain ⟨repo, u, hrepo, hok⟩ := hok
  cases hrepo
  cases hrest : w.rest with
  | some r =>
    rw [hrest] at hok
    exact ensureHistoryGitignore_disk hok q
  | none =>
    rw [hrest] at hok
    replace hok := bind_eq_ok.mp hok
    obtain ⟨⟨⟩, u, hinit, hok⟩ := hok
    replace hok := bind_eq_ok.mp hok
    obtain ⟨⟨⟩, u₁, hstart, hok⟩ := hok
    cases hstart
    replace hok := bind_eq_ok.mp hok
    obtain ⟨⟨⟩, u₂, hname, hok⟩ := hok
    replace hok := bind_eq_ok.mp hok
    obtain ⟨⟨⟩, u₃, hmail, hok⟩ := hok
    replace hok := bind_eq_ok.mp hok
    obtain ⟨⟨⟩, u₄, hsign, hok⟩ := hok
    have hgit {v v' : World (Option Repo)} (hok : runGit v = .ok () v') : v'.disk = v.disk :=
      runGit_keeps.keepsDisk.of_ok hok
    rw [ensureHistoryGitignore_disk hok, hgit hsign, hgit hmail, hgit hname]
    show settled S u.disk q = _
    rw [hgit hinit]

/-- Up to the check, a commit settles `.gitignore` and leaves the rest of the disk alone. -/
theorem stageForCommit_disk {repo : Option Repo} (hok : stageForCommit S w = .ok repo w')
    (q : Path) : w'.disk.get q = settled S w.disk q := by
  replace hok := bind_eq_ok.mp hok
  obtain ⟨⟨⟩, u, hensure, hok⟩ := hok
  rw [← ensureHistoryRepo_disk hensure]
  -- nothing after it writes to the disk
  have hdisk : w'.disk = u.disk := by
    refine KeepsDisk.of_ok (Moves.bind runGit_keeps.keepsDisk fun _ => Moves.bind (Moves.read _)
      fun tree => Moves.bind modifyRepo_keepsDisk fun _ => Moves.bind gitCommand_keeps.keepsDisk
      fun failed => Moves.bind (Moves.read _) fun repo => ?_) hok
    cases repo with
    | none => exact Moves.ret _
    | some r => exact Moves.ite (fun _ => Moves.ret _) fun _ => Moves.ret _
  rw [hdisk]

theorem commitStaged_keepsDisk {message : Text} {metadata : Option Metadata} {r : Repo} :
    KeepsDisk (commitStaged S message metadata r) :=
  Moves.tryCatch (Moves.bind validate_keeps.keepsDisk fun _ =>
    Moves.bind runGit_keeps.keepsDisk fun _ => modifyRepo_keepsDisk) fun _ =>
    Moves.bind modifyRepo_keepsDisk fun _ => Moves.raise _

theorem commitAndVerify_keepsDisk {message : Text} {metadata : Option Metadata} {r : Repo} :
    KeepsDisk (commitAndVerify S message metadata r) :=
  Moves.bind commitStaged_keepsDisk fun _ => Moves.bind runGit_keeps.keepsDisk fun _ =>
    Moves.bind runGit_keeps.keepsDisk fun _ => Moves.bind (Moves.read _) fun _ =>
    Moves.ite (fun _ => Moves.raise _) fun _ => Moves.ret _

/-- **A commit that went through has settled `.gitignore`**, and left the rest of the disk
    alone. -/
theorem historyCommit_disk {message : Text} {metadata : Option Metadata}
    (hok : historyCommit S message metadata w = .ok () w') (q : Path) :
    w'.disk.get q = if S.enabled = true then settled S w.disk q else w.disk.get q := by
  unfold historyCommit at hok
  by_cases henabled : S.enabled = true
  · rw [if_pos henabled] at hok ⊢
    replace hok := bind_eq_ok.mp hok
    obtain ⟨repo, u, hstage, hok⟩ := hok
    rw [← stageForCommit_disk hstage]
    cases repo with
    | none => cases hok; rfl
    | some r => rw [commitAndVerify_keepsDisk.of_ok hok]
  · rw [if_neg henabled] at hok ⊢
    cases hok
    rfl

end Settled

end Infinito.History
