import Infinito.Lib.Run
import Infinito.Workspace.Confined
import Infinito.History.Frames

/-!
# No plaintext secret is recorded, where the check sees what is staged

Only one step of any call adds to the history, and right before it the check has gone
through. What that is worth depends on what the check was shown: git's listing leaves out
the new name of a renamed file, and prints a path it quotes, or one that starts or ends with
a blank, in a form under which the file is not found. A secret staged under such a path is
committed (`renamed_secret_recorded`), and so is any secret when the listing itself fails.

`Seen` is what it takes: every staged file with a secret is listed under its own path, and
no error hits the check. In every run whose commits all meet it, the history stays clean
(`history_clean`).
-/

set_option autoImplicit false

namespace Infinito.History

open Py Lib Workspace

/-! ## What the check finds -/

section Check

variable {S : Service} {w w' : World (Option Repo)}

/-- No I/O error is due among the next `n` commands. -/
def Undisturbed (n : Nat) (w : World (Option Repo)) : Prop := ∀ f ∈ w.faults.take n, f = none

instance (n : Nat) (w : World (Option Repo)) : Decidable (Undisturbed n w) :=
  inferInstanceAs (Decidable (∀ f ∈ w.faults.take n, f = none))

theorem Undisturbed.head {n : Nat} (h : Undisturbed (n + 1) w) : w.faults.head?.join = none := by
  unfold Undisturbed at h
  cases hf : w.faults with
  | nil => rfl
  | cons f fs =>
    rw [hf] at h
    simpa using h f (by simp)

theorem Undisturbed.drop {n k : Nat} (h : Undisturbed (n + 1) w) (hk : k ≤ 1)
    (hf : w'.faults = w.faults.drop k) : Undisturbed n w' := by
  intro f hmem
  rw [hf] at hmem
  refine h f ?_
  match k, hk with
  | 0, _ => exact List.take_subset_take_left _ (Nat.le_succ n) hmem
  | 1, _ =>
    rw [List.take_drop] at hmem
    rw [Nat.add_comm]
    exact List.mem_of_mem_drop hmem

/-- A line under which a file with a secret is found. -/
def Offends (S : Service) (w : World (Option Repo)) (line : Text) : Prop :=
  isBinaryPath line = false ∧
    ∃ path content, S.host.resolve line = some path ∧ w.disk.fileAt path = some content ∧
      ¬ Clean content

theorem readBytes_undisturbed {p : Path} {content : Bytes} (hw : w.faults.head?.join = none)
    (hfile : w.disk.fileAt p = some content) :
    ∃ u, readBytes p w = .ok content u := by
  have htrouble : w.trouble (.read p) = none := by
    have hget : w.disk.nodes.get p = some (.file content) := Nodes.fileAt_eq_some.mp hfile
    rw [World.trouble, hw, Option.none_or, Cmd.refused, hget]
  rcases exec_cases (.read p) w with ⟨text, h, -⟩ | ⟨h, hexec⟩
  · rw [htrouble] at h
    cases h
  · refine ⟨w.did _ (World.refused_of_trouble h), bind_eq_ok.mpr ⟨(), _, hexec, ?_⟩⟩
    show EStateM.Result.ok ((w.disk.fileAt p).getD []) _ = _
    rw [hfile]
    rfl

/-- A line that offends is found to, if it can be read. -/
theorem violation_of_offends {line : Text} {v : Option Text} (hok : violation S line w = .ok v w')
    (hline : Offends S w line) (hw : w.faults.head?.join = none) : v ≠ none := by
  obtain ⟨hbinary, path, content, hpath, hfile, hsecret⟩ := hline
  simp only [violation, hbinary, hpath, Bool.false_eq_true, if_false] at hok
  replace hok := bind_eq_ok.mp hok
  obtain ⟨b, _, hb, hok⟩ := hok
  cases hb
  rw [if_pos (by rw [hfile]; rfl)] at hok
  replace hok := bind_eq_ok.mp hok
  obtain ⟨read, u, hread, hok⟩ := hok
  obtain ⟨u', hbytes⟩ := readBytes_undisturbed hw hfile
  have hread' : read = some content := by
    rcases tryCatch_eq_ok.mp hread with hread | ⟨e, t, hraise, -⟩
    · obtain ⟨bytes, t, hbytes', hret⟩ := bind_eq_ok.mp hread
      rw [hbytes] at hbytes'
      cases hbytes'
      cases hret
      rfl
    · rcases bind_eq_error.mp hraise with hraise | ⟨bytes, t', -, hraise⟩
      · rw [hbytes] at hraise
        cases hraise
      · cases hraise
  cases hok
  rw [hread', Option.bind_some]
  unfold containsPlaintextSecret
  rw [clean_iff] at hsecret
  cases hfirst : firstSecret none 1 (splitlines (readText content)) with
  | none => exact absurd hfirst hsecret
  | some n => simp [violationText]

/-- A read whose failure is passed over takes one command. -/
theorem attempt_returns (p : Path) (w : World (Option Repo)) :
    ∃ read u, (tryCatch (do return some (← readBytes p)) fun _ => pure none :
        Hist (Option Bytes)) w = .ok read u ∧ u.disk = w.disk ∧ u.faults = w.faults.drop 1 := by
  rcases exec_cases (.read p) w with ⟨text, -, hexec⟩ | ⟨h, hexec⟩
  · refine ⟨none, w.tick, tryCatch_eq_ok.mpr (Or.inr ⟨.raised text, w.tick, ?_, rfl⟩), rfl, ?_⟩
    · exact bind_eq_error.mpr (Or.inl (bind_eq_error.mpr (Or.inl hexec)))
    · exact List.drop_one.symm
  · let u := w.did _ (World.refused_of_trouble h)
    refine ⟨some ((u.disk.fileAt p).getD []), u, tryCatch_eq_ok.mpr (Or.inl ?_), ?_, ?_⟩
    · exact bind_eq_ok.mpr ⟨_, u, bind_eq_ok.mpr ⟨(), u, hexec, rfl⟩, rfl⟩
    · exact Disk.ext fun _ => rfl
    · exact List.drop_one.symm

/-- Looking at a line does not raise, and takes one command at most. -/
theorem violation_returns (S : Service) (line : Text) (w : World (Option Repo)) :
    ∃ v u k, violation S line w = .ok v u ∧ u.disk = w.disk ∧ k ≤ 1 ∧
      u.faults = w.faults.drop k := by
  cases hbinary : isBinaryPath line with
  | true => exact ⟨none, w, 0, by simp [violation, hbinary]; rfl, rfl, by omega, rfl⟩
  | false =>
    simp only [violation, hbinary, Bool.false_eq_true, if_false]
    cases S.host.resolve line with
    | none => exact ⟨none, w, 0, rfl, rfl, by omega, rfl⟩
    | some path =>
      cases hfile : (w.disk.fileAt path).isSome with
      | false =>
        refine ⟨none, w, 0, bind_eq_ok.mpr ⟨false, w, ?_, rfl⟩, rfl, by omega, rfl⟩
        rw [← hfile]; rfl
      | true =>
        obtain ⟨read, u, hread, hdisk, hfaults⟩ := attempt_returns path w
        refine ⟨_, u, 1, bind_eq_ok.mpr ⟨true, w, ?_, bind_eq_ok.mpr ⟨read, u, hread, rfl⟩⟩, hdisk,
          le_refl 1, hfaults⟩
        rw [← hfile]; rfl

theorem Offends.of_disk {line : Text} (h : Offends S w line) (hdisk : w'.disk = w.disk) :
    Offends S w' line := by
  unfold Offends
  rw [hdisk]
  exact h

/-- **What offends is reported**, if nothing fails meanwhile. -/
theorem violations_ne_nil {lines vs : List Text} {line : Text}
    (hok : violations S lines w = .ok vs w') (hmem : line ∈ lines) (hline : Offends S w line)
    (hw : Undisturbed lines.length w) : vs ≠ [] := by
  induction lines generalizing w vs with
  | nil => cases hmem
  | cons l lines ih =>
    replace hok := bind_eq_ok.mp hok
    obtain ⟨first, u, hfirst, hok⟩ := hok
    replace hok := bind_eq_ok.mp hok
    obtain ⟨others, u', hothers, hok⟩ := hok
    cases hok
    obtain ⟨v, t, k, hv, hdisk, hk, hfaults⟩ := violation_returns S l w
    rw [hfirst] at hv
    cases hv
    intro hnil
    obtain ⟨hnone, hrest⟩ := List.append_eq_nil_iff.mp hnil
    rcases List.mem_cons.mp hmem with rfl | hmem
    · exact violation_of_offends hfirst hline hw.head (Option.toList_eq_nil_iff.mp hnone)
    · exact ih hothers hmem (hline.of_disk hdisk) (hw.drop hk hfaults) hrest

/-- The lines git prints for the check. -/
def listing (S : Service) (r : Repo) : List Text := trackedPaths (printLines (diffLines S.git r))

/-- **A staged change with an offending line is rejected.** -/
theorem validate_rejects {r : Repo} {line : Text} (hmem : line ∈ listing S r)
    (hline : Offends S w line) (hw : Undisturbed ((listing S r).length + 1) w) :
    validateNoPlaintextSecrets S r w ≠ .ok () w' := by
  intro hok
  replace hok := bind_eq_ok.mp hok
  obtain ⟨stderr, u, hstderr, hok⟩ := hok
  cases hstderr
  rw [hw.head] at hok
  replace hok := bind_eq_ok.mp hok
  obtain ⟨vs, u, hvs, hok⟩ := hok
  have hu : Undisturbed (listing S r).length w.tick := hw.drop (le_refl 1) List.drop_one.symm
  have hne : vs ≠ [] := violations_ne_nil hvs hmem (hline.of_disk rfl) hu
  cases vs with
  | nil => exact hne rfl
  | cons first others => cases hok

end Check

/-! ## What is staged -/

section Stage

variable {S : Service} {w w' : World (Option Repo)}

/-- A secret is staged at `p`, in a file that is not binary by its name. -/
def HoldsSecret (r : Repo) (p : Path) : Prop :=
  isBinaryPath (posix p) = false ∧ ∃ content ∈ r.index.get p, ¬ Clean content

/-- Git lists the staged change of `p` under a line that leads to the file. -/
def Listed (S : Service) (r : Repo) (p : Path) : Prop :=
  p ≠ [] ∧ S.git.renamed r.head r.index p = false ∧ PrintedPlainly (posix p) ∧
    S.host.resolve (posix p) = some (S.host.base ++ p)

instance (r : Repo) (p : Path) : Decidable (HoldsSecret r p) :=
  inferInstanceAs (Decidable (_ ∧ ∃ content ∈ r.index.get p, _))

instance (S : Service) (r : Repo) (p : Path) : Decidable (Listed S r p) :=
  inferInstanceAs (Decidable (_ ∧ _))

/-- Where secrets are staged, one of them is listed, and no error hits the check. -/
def Seen (S : Service) (r : Repo) (w : World (Option Repo)) : Prop :=
  (∃ p ∈ r.changes, HoldsSecret r p) →
    (∃ p ∈ r.changes, HoldsSecret r p ∧ Listed S r p) ∧
      Undisturbed ((listing S r).length + 1) w

instance (S : Service) (r : Repo) (w : World (Option Repo)) : Decidable (Seen S r w) :=
  inferInstanceAs (Decidable (_ → _))

/-- What is staged is what is in the working tree. -/
theorem stageForCommit_spec {r : Repo} (hok : stageForCommit S w = .ok (some r) w') :
    w'.rest = some r ∧ ∀ p content, r.index.get p = some content →
      w'.disk.fileAt (S.host.base ++ p) = some content := by
  replace hok := bind_eq_ok.mp hok
  obtain ⟨⟨⟩, u, -, hok⟩ := hok
  replace hok := bind_eq_ok.mp hok
  obtain ⟨⟨⟩, u₁, -, hok⟩ := hok
  replace hok := bind_eq_ok.mp hok
  obtain ⟨tree, _, htree, hok⟩ := hok
  cases htree
  replace hok := bind_eq_ok.mp hok
  obtain ⟨⟨⟩, u₂, hstage, hok⟩ := hok
  cases hstage
  replace hok := bind_eq_ok.mp hok
  obtain ⟨failed, u₃, hdiff, hok⟩ := hok
  cases hdiff
  replace hok := bind_eq_ok.mp hok
  obtain ⟨rest, _, hrest, hok⟩ := hok
  cases hrest
  dsimp only [World.tick] at hok
  cases hrepo : u₁.rest with
  | none =>
    rw [hrepo] at hok
    cases hok
  | some r₀ =>
    rw [hrepo, Option.map_some] at hok
    dsimp only at hok
    split at hok
    · cases hok
    · cases hok
      refine ⟨rfl, fun p content hp => ?_⟩
      have htree := Repo.get_of_stageAll hp
      rw [get_worktree] at htree
      split at htree
      · cases htree
      · exact htree

theorem posix_offends {r : Repo} {p : Path} (hsecret : HoldsSecret r p) (hlisted : Listed S r p)
    (hstaged : ∀ p content, r.index.get p = some content →
      w.disk.fileAt (S.host.base ++ p) = some content) : Offends S w (posix p) := by
  obtain ⟨hbinary, content, hcontent, hdirty⟩ := hsecret
  exact ⟨hbinary, _, content, hlisted.2.2.2, hstaged p content hcontent, hdirty⟩

theorem posix_mem_listing {r : Repo} {p : Path} (hp : p ∈ r.changes) (hsecret : HoldsSecret r p)
    (hlisted : Listed S r p) : posix p ∈ listing S r := by
  obtain ⟨-, content, hcontent, -⟩ := hsecret
  obtain ⟨hne, hrenamed, hplain, -⟩ := hlisted
  exact mem_trackedPaths hp (by rw [Option.mem_def.mp hcontent]; rfl) hrenamed hplain hne

end Stage

/-! ## The invariant -/

section Invariant

variable {S : Service} {w w' : World (Option Repo)}

/-- No recorded version of a file that is not binary holds a secret. -/
def CleanHistory (repo : Option Repo) : Prop :=
  ∀ r ∈ repo, ∀ c ∈ r.commits, ∀ p content, c.tree.get p = some content →
    isBinaryPath (posix p) = false → Clean content

abbrev CleanAt (w : World (Option Repo)) : Prop := CleanHistory w.rest

theorem CleanAt.of_rest (hw : CleanAt w) (hrest : w'.rest = w.rest) : CleanAt w' := by
  unfold CleanAt
  rw [hrest]
  exact hw

theorem CleanHistory.of_commits {r r' : Repo} (h : CleanHistory (some r))
    (hcommits : r'.commits = r.commits) : CleanHistory (some r') := by
  rintro _ ⟨⟩ c hc
  exact h r rfl c (hcommits ▸ hc)

theorem CleanHistory.head {r : Repo} (h : CleanHistory (some r)) {p : Path} {content : Bytes}
    (hp : r.head.get p = some content) (hbinary : isBinaryPath (posix p) = false) :
    Clean content := by
  cases hcommits : r.commits with
  | nil =>
    rw [Repo.head, hcommits] at hp
    cases hp
  | cons c cs =>
    rw [Repo.head, hcommits] at hp
    exact h r rfl c (by simp [hcommits]) p content hp hbinary

/-- A commit whose staged changes hold no secret leaves the history clean. -/
theorem CleanHistory.commit {r : Repo} (h : CleanHistory (some r)) (g : Git) (message : Text)
    (hstaged : ¬ ∃ p ∈ r.changes, HoldsSecret r p) :
    CleanHistory (some (r.commit g message)) := by
  rintro _ ⟨⟩ c hc p content hp hbinary
  rcases List.mem_cons.mp hc with rfl | hc
  · by_cases hchanged : p ∈ r.changes
    · by_contra hsecret
      exact hstaged ⟨p, hchanged, hbinary, content, hp, hsecret⟩
    · rw [Repo.mem_changes, not_not] at hchanged
      exact h.head (hchanged.trans hp) hbinary
  · exact h r rfl c hc p content hp hbinary

theorem modifyRepo_clean {f : Repo → Repo} (hf : ∀ r, (f r).commits = r.commits) :
    Keeps CleanAt (modifyRepo f) := by
  intro w hw
  show CleanHistory (w.rest.map f)
  cases hrest : w.rest with
  | none => rintro _ ⟨⟩
  | some r =>
    have hw : CleanHistory (some r) := hrest ▸ hw
    exact hw.of_commits (hf r)

theorem KeepsRest.clean {α : Type} {m : Hist α} (h : KeepsRest m) :
    Keeps CleanAt m :=
  h.mono fun _ _ hrest hw => CleanAt.of_rest hw hrest

theorem ensureHistoryGitignore_clean :
    Keeps CleanAt (ensureHistoryGitignore S) := by
  have hwrite := (exec_keepsRest (c := .write (ignorePath S.host) (encode []))).clean
  have hexclude := modifyRepo_clean
    (f := fun r => { r with exclude := excludeText S.includeKdbx r.exclude }) fun _ => rfl
  refine Moves.bind (Moves.read _) fun there => Moves.ite (fun _ => ?_) fun _ => ?_
  · refine Moves.bind readBytes_keeps.keepsRest.clean fun _ => Moves.ite (fun _ => ?_) fun _ => ?_
    · exact Moves.bind hwrite fun _ => hexclude
    · exact hexclude
  · exact Moves.bind hwrite fun _ => hexclude

theorem ensureHistoryRepo_clean : Keeps CleanAt (ensureHistoryRepo S) := by
  have hgit : Keeps CleanAt (runGit : Hist Unit) :=
    runGit_keeps.keepsRest.clean
  refine Moves.bind (Moves.read _) fun repo => ?_
  cases repo with
  | some _ => exact ensureHistoryGitignore_clean
  | none =>
    refine Moves.bind hgit fun _ => Moves.bind ?_ fun _ => Moves.bind hgit fun _ =>
      Moves.bind hgit fun _ => Moves.bind hgit fun _ => ensureHistoryGitignore_clean
    -- a repository that was just made has no commits
    rintro w - _ ⟨⟩ c hc
    cases hc

theorem stageForCommit_clean : Keeps CleanAt (stageForCommit S) := by
  refine Moves.bind ensureHistoryRepo_clean fun _ =>
    Moves.bind runGit_keeps.keepsRest.clean fun _ => Moves.bind (Moves.read _) fun tree =>
    Moves.bind (modifyRepo_clean fun _ => rfl) fun _ =>
    Moves.bind gitCommand_keeps.keepsRest.clean fun failed =>
    Moves.bind (Moves.read _) fun repo => ?_
  cases repo with
  | none => exact Moves.ret _
  | some r => exact Moves.ite (fun _ => Moves.ret _) fun _ => Moves.ret _

theorem unstage_clean {α : Type} {exc : Exc} :
    Keeps CleanAt (do modifyRepo Repo.unstageAll; throw exc : Hist α) :=
  Moves.bind (modifyRepo_clean fun _ => rfl) fun _ => Moves.raise _

/-- The commit itself, given that the check sees what is staged. -/
theorem commitStaged_clean (message : Text) (metadata : Option Metadata) {r : Repo}
    (hw : CleanAt w) (hrest : w.rest = some r) (hseen : Seen S r w)
    (hstaged : ∀ p content, r.index.get p = some content →
      w.disk.fileAt (S.host.base ++ p) = some content) :
    CleanHistory (after (commitStaged S message metadata r) w).rest := by
  refine after_tryCatch (P := CleanAt) ?_ fun _ => unstage_clean
  have hvalid := validate_keeps (S := S) (r := r) w
  refine after_bind (fun exc u hraise => ?_) fun _ u hok => ?_
  · rw [after_of_error hraise] at hvalid
    exact hw.of_rest hvalid.2
  · rw [after_of_ok hok] at hvalid
    have hclean : ¬ ∃ p ∈ r.changes, HoldsSecret r p := by
      intro hsecret
      obtain ⟨⟨p, hp, hholds, hlisted⟩, hundisturbed⟩ := hseen hsecret
      exact validate_rejects (posix_mem_listing hp hholds hlisted)
        (posix_offends hholds hlisted hstaged) hundisturbed hok
    have hgit := runGit_keeps u
    refine after_bind (fun exc u' hraise => ?_) fun _ u' hok => ?_
    · rw [after_of_error hraise] at hgit
      exact hw.of_rest (hgit.2.trans hvalid.2)
    · rw [after_of_ok hok] at hgit
      show CleanHistory (u'.rest.map _)
      rw [hgit.2, hvalid.2, hrest]
      exact CleanHistory.commit (hrest ▸ hw) _ _ hclean

theorem commitAndVerify_clean {message : Text} {metadata : Option Metadata} {r : Repo}
    (hw : CleanAt w) (hrest : w.rest = some r) (hseen : Seen S r w)
    (hstaged : ∀ p content, r.index.get p = some content →
      w.disk.fileAt (S.host.base ++ p) = some content) :
    CleanHistory (after (commitAndVerify S message metadata r) w).rest := by
  have hcommit := commitStaged_clean message metadata hw hrest hseen hstaged
  have hgit : Keeps CleanAt (runGit : Hist Unit) :=
    runGit_keeps.keepsRest.clean
  refine after_bind (P := CleanAt) (fun exc u hraise => ?_) fun _ u hok => ?_
  · rwa [after_of_error hraise] at hcommit
  · rw [after_of_ok hok] at hcommit
    refine Moves.bind hgit (fun _ => Moves.bind hgit fun _ => Moves.bind (Moves.read _) fun _ => ?_)
      u hcommit
    exact Moves.ite (fun _ => Moves.raise _) fun _ => Moves.ret _

/-- The repository as the check finds it, if the commit comes to that. -/
def checkedAt (S : Service) (w : World (Option Repo)) : Option (Repo × World (Option Repo)) :=
  if S.enabled = true then
    match stageForCommit S w with
    | .ok (some r) u => some (r, u)
    | _ => none
  else none

theorem historyCommit_clean {message : Text} {metadata : Option Metadata}
    (hw : CleanAt w) (hseen : ∀ x ∈ checkedAt S w, Seen S x.1 x.2) :
    CleanHistory (after (historyCommit S message metadata) w).rest := by
  unfold historyCommit
  by_cases henabled : S.enabled = true
  · rw [if_pos henabled]
    have hstage := stageForCommit_clean (S := S) w hw
    refine after_bind (P := CleanAt) (fun exc u hraise => ?_) fun repo u hok => ?_
    · rwa [after_of_error hraise] at hstage
    · rw [after_of_ok hok] at hstage
      cases repo with
      | none => exact hstage
      | some r =>
        obtain ⟨hrest, hstaged⟩ := stageForCommit_spec hok
        refine commitAndVerify_clean hstage hrest (hseen (r, u) ?_) hstaged
        rw [checkedAt, if_pos henabled, hok]
        rfl
  · rw [if_neg henabled]
    exact hw

end Invariant

/-! ## Runs -/

section Runs

variable (D : Deployment)

/-- A call and the I/O errors it meets. -/
abbrev Request := Call × List (Option String)

def step (s : State) (a : Request) : Option State := some (serve D a.1 a.2 s)

/-- Every request is served. -/
theorem run_total (s : State) (as : List Request) : ∃ t, run (step D) s as = some t := by
  induction as generalizing s with
  | nil => exact ⟨s, rfl⟩
  | cons a as ih => exact ih _

/-- The paths of a command. -/
def paths : Cmd → List Path
  | .mkdir p | .read p | .write p _ | .unlink p | .rmtree p => [p]
  | .rename src dst => [src, dst]

/-- What the request does to the disk before it commits stays out of `.git`, which is git's
    own, and its commit meets `Seen`. -/
def Guarded (s : State) (a : Request) : Prop :=
  match a.1.change D (s.world a.2) with
  | .ok _ w => (∀ c ∈ w.log, ∀ q ∈ paths c, ¬ D.host.gitDir <+: q) ∧
      ∀ x ∈ checkedAt D.toService w, Seen D.toService x.1 x.2
  | .error _ w => ∀ c ∈ w.log, ∀ q ∈ paths c, ¬ D.host.gitDir <+: q

instance (s : State) (a : Request) : Decidable (Guarded D s a) := by
  unfold Guarded
  split <;> infer_instance

variable {D}

theorem step_clean {s s' : State} {a : Request} (hs : CleanHistory s.repo) (ha : Guarded D s a)
    (hstep : step D s a = some s') : CleanHistory s'.repo := by
  cases hstep
  have hkept := a.1.change_keepsRest (D := D) (s.world a.2)
  refine after_bind (P := CleanAt) (fun exc u hraise => ?_) fun ⟨message, metadata⟩ u hok => ?_
  · rw [after_of_error hraise] at hkept
    exact CleanAt.of_rest (w := s.world a.2) hs hkept
  · rw [after_of_ok hok] at hkept
    unfold Guarded at ha
    rw [hok] at ha
    exact historyCommit_clean (CleanAt.of_rest (w := s.world a.2) hs hkept) ha.2

/-- **The history stays clean.** In every run of which each commit is seen by its check, no
    version of a file that enters the history holds a plaintext secret, the files that are
    binary by their name aside. -/
theorem history_clean (D : Deployment) (s t : State) (as : List Request)
    (hs : CleanHistory s.repo) (hguarded : Along (step D) (Guarded D) s as)
    (hrun : run (step D) s as = some t) : CleanHistory t.repo :=
  run_inv_along (fun _ _ _ => step_clean) hs hguarded hrun

end Runs

/-! ## A deployment to run -/

section Demo

/-- Whether a line of an ignore file without wildcards matches a path. -/
def lineMatches (line : Text) (p : Path) : Bool :=
  let name := rstripSlash line
  -- a pattern with a trailing slash matches directories: all but the last component
  let p := if endsWith line ['/'] then p.dropLast else p
  if line = [] || startsWith line ['#'] then false
  else if name.contains '/' then (parts name) <+: p.map Part.down
  else p.any (·.text = name)

def demoGit : Git where
  initExclude := some "# git ls-files --others --exclude-from=.git/info/exclude\n"
  ignored exclude tree p :=
    let lines := splitlines (exclude.getD []) ++
      splitlines (readText ((tree.get [ignoreName]).getD []))
    lines.any (lineMatches · p)
  -- renames of files with equal content
  renamed old new p :=
    (old.get p).isNone && (new.get p).any fun content =>
      decide (∃ q ∈ old.keys, old.get q = some content ∧ new.get q = none)
  archived tree p :=
    let files := tree.restrict fun q => decide (p.getD [] <+: q)
    if files.keys = ∅ ∧ p ≠ none then none else some files
  shaOf commits _ _ := List.replicate (commits.length + 1) 'c'
  revParse commits revision := commits.find? (·.sha = revision)
  revParse_mem _ _ _ h := List.mem_of_find?_eq_some h

/-- The role operations are not used. -/
def noRoles : RoleDocs where
  roleExists _ := false
  hostMeta _ := ⟨[], [], []⟩
  newHostVars _ := []
  edit _ _ := .error ⟨400, ""⟩
  invalid _ _ := none

def demoDeployment : Deployment where
  host := demoHost
  docs := plainDocs
  git := demoGit
  enabled := true
  includeKdbx := false
  roles := noRoles

/-- A new workspace. -/
def demoState : State where
  disk := ⟨.ofList [([demoName "ws"], .dir), (demoHost.metaPath, .file [])], by decide⟩
  repo := none

def secretWrite : Request := (.writeFile (demoName "u") "notes.bin" "password: hunter2\n", [])

def secretRename : Request := (.renameFile "notes.bin" "notes.yml", [])

/-- Whether a commit holds a secret at `p`. -/
def recordsSecret (p : Path) (s : State) : Bool :=
  (s.repo.elim [] (·.commits)).any fun c => (c.tree.get p).any fun content => ¬ Clean content

theorem not_clean_of_recordsSecret {p : Path} {s : State} (hbinary : isBinaryPath (posix p) = false)
    (h : recordsSecret p s = true) : ¬ CleanHistory s.repo := by
  intro hclean
  unfold recordsSecret at h
  cases hrepo : s.repo with
  | none => rw [hrepo] at h; cases h
  | some r =>
    rw [hrepo] at h
    obtain ⟨c, hc, h⟩ := List.any_eq_true.mp h
    cases hcontent : c.tree.get p with
    | none => rw [hcontent] at h; cases h
    | some content =>
      rw [hcontent, Option.any_some, decide_eq_true_eq] at h
      exact h (hclean r hrepo c hc p content hcontent hbinary)

/-- **A secret is recorded** when a file that was binary by its name is renamed: git reports
    the new name with status R, and the check does not see it. -/
theorem renamed_secret_recorded : ¬ ∀ (as : List Request) (t : State),
    run (step demoDeployment) demoState as = some t → CleanHistory t.repo := by
  intro hall
  have hbad : (run (step demoDeployment) demoState [secretWrite, secretRename]).any
      (recordsSecret [demoName "notes.yml"]) = true := by decide +kernel
  cases hrun : run (step demoDeployment) demoState [secretWrite, secretRename] with
  | none => rw [hrun] at hbad; cases hbad
  | some t =>
    rw [hrun] at hbad
    exact not_clean_of_recordsSecret (by decide) hbad (hall _ t hrun)

def cleanRequests : List Request :=
  [(.writeFile (demoName "u") "a.yml" "a: 1\n", []),
    (.renameFile "a.yml" "b.yml", []),
    (.writeFile (demoName "u") "b.yml" "password: hunter2\n", [])]

/-- A run that commits twice, and whose last request is rejected. -/
theorem history_clean_requests : ∃ t, run (step demoDeployment) demoState cleanRequests = some t ∧
    CleanHistory t.repo := by
  obtain ⟨t, hrun⟩ := run_total demoDeployment demoState cleanRequests
  have hstart : CleanHistory demoState.repo := by rintro _ ⟨⟩
  exact ⟨t, hrun, history_clean demoDeployment demoState t _ hstart (by decide +kernel) hrun⟩

end Demo

end Infinito.History
