import Infinito.History.Clean
import Infinito.History.Mutations

/-!
# Which changes are recorded

An operation that commits when its change is done leaves nothing for `git status` to report:
HEAD has the files of the working tree, but for those git ignores (`historyCommit_records`).
That needs no invariant, as the commit stages whatever it finds. Two operations write to the
working tree and do not commit at all, `place_order` and `transition_domain_status`; what they
write is left for the next commit of another operation (`order_not_recorded`).

A commit also passes over what it cannot list: where `git diff --cached --quiet` fails, there
is taken to be no change. `Commits` has both conditions, and in every run that meets them each
operation that goes through is recorded, in one commit at most (`changes_recorded`).
-/

set_option autoImplicit false

namespace Infinito.History

open Py Lib Workspace

/-! ## The mutating operations -/

inductive Mutation where
  /-- the operations on files, the role operations and the restores -/
  | call (call : Call)
  | generateInventory (uuids : Nat → FileName) (now : Text) (payload : GenerateIn)
  | upsertServerConnection (uuids : Nat → FileName) (hostAlias host user : Text) (port : Option Int)
  | setPrimaryDomain (uuids : Nat → FileName) (hostAlias : Text) (primaryDomain : Option Text)
  | transitionDomainStatus (uuid : FileName) (now domain nextStatus : Text) (orderId : Option Text)
  | placeOrder (uuids : Nat → FileName) (workspaceId : Text) (orderId : FileName) (now : Text)
      (payload : Dict) (ownerId ownerEmail : Option Text)

/-- A deployment, with the documents of all its operations. -/
structure Site extends Deployment where
  documents : Documents

variable (D : Site)

/-- What an operation does to the disk, and what it commits that under, if it does. -/
def Mutation.change : Mutation → Hist (Option (Text × Option Metadata))
  | call c => do return some (← c.change D.toDeployment)
  | generateInventory uuids now payload => do
      return some (← onDisk (History.generateInventory D.host D.documents uuids now payload))
  | upsertServerConnection uuids hostAlias host user port => do
      return some (← onDisk
        (History.upsertServerConnection D.host D.documents uuids hostAlias host user port))
  | setPrimaryDomain uuids hostAlias primaryDomain => do
      return some (← onDisk
        (History.setPrimaryDomain D.host D.documents uuids hostAlias primaryDomain))
  | transitionDomainStatus uuid now domain nextStatus orderId => do
      onDisk (History.transitionDomainStatus D.host D.documents uuid now domain nextStatus orderId)
      return none
  | placeOrder uuids workspaceId orderId now payload ownerId ownerEmail => do
      onDisk (History.placeOrder D.host D.documents uuids workspaceId orderId now payload ownerId
        ownerEmail)
      return none

/-- The commit an operation ends with. -/
def commitChange : Option (Text × Option Metadata) → Hist Unit
  | some (message, metadata) => historyCommit D.toService message metadata
  | none => pure ()

def Mutation.run (m : Mutation) : Hist Unit := m.change D >>= commitChange D

/-- Whether the operation ends with a commit. -/
def Mutation.commits : Mutation → Bool
  | transitionDomainStatus .. => false
  | placeOrder .. => false
  | _ => true

/-! ## What a commit records -/

section Commits

variable {S : Service} {w w' : World (Option Repo)}

/-- A file that git leaves out: one that is not recorded, and ignored. -/
def Excluded (S : Service) (tree : Snapshot) (r : Repo) (p : Path) : Prop :=
  r.index.get p = none ∧ S.git.ignored r.exclude tree p = true

/-- HEAD has the files of the working tree that are not excluded. -/
def Recorded (S : Service) (d : Disk) (r : Repo) : Prop :=
  ∀ p content, r.head.get p = some content ↔
    (worktree S.host d).get p = some content ∧ ¬ Excluded S (worktree S.host d) r p

/-- The commits of a repository that may not be there yet. -/
def commitsOf (repo : Option Repo) : List Commit := repo.elim [] (·.commits)

/-- One commit at most was added. -/
def AddsAtMostOne (before after : Option Repo) : Prop :=
  ∃ added, commitsOf after = added ++ commitsOf before ∧ added.length ≤ 1

/-- A repository that was staged and whose HEAD is its index records the working tree. -/
theorem recorded_of_staged {d : Disk} {r₀ r : Repo}
    (hindex : r.index = (r₀.stageAll S.git (worktree S.host d)).index)
    (hexclude : r.exclude = r₀.exclude) (hhead : r.head = r.index) : Recorded S d r := by
  intro p content
  have hget := @Repo.get_stageAll S.git (worktree S.host d) r₀ p
  rw [hhead, Excluded, hexclude]
  constructor
  · intro hp
    refine ⟨Repo.get_of_stageAll (hindex ▸ hp), fun hex => ?_⟩
    rw [hex.1] at hp
    cases hp
  · rintro ⟨htree, hnot⟩
    by_contra hp
    rw [← hindex] at hget
    split at hget
    · exact hp (hget.trans htree)
    · rename_i hskip
      refine hnot ⟨hget, ?_⟩
      rw [Bool.or_eq_true, Bool.not_eq_true', not_or, Bool.not_eq_false] at hskip
      exact hskip.2

/-- The repository that `_ensure_history_repo` leaves has the commits that were there. -/
theorem ensureHistoryGitignore_commits (hok : ensureHistoryGitignore S w = .ok () w') {r : Repo}
    (hr : w.rest = some r) : ∃ r', w'.rest = some r' ∧ r'.commits = r.commits := by
  have hpart {u : World (Option Repo)} (hu : u.rest = some r)
      (hok : modifyRepo (fun r => { r with exclude := excludeText S.includeKdbx r.exclude }) u =
        .ok () w') : ∃ r', w'.rest = some r' ∧ r'.commits = r.commits := by
    cases hok
    exact ⟨_, congrArg (Option.map _) hu, rfl⟩
  have hwritten {u : World (Option Repo)} (hu : u.rest = some r)
      (hok : (do exec (.write (ignorePath S.host) (encode []))
                 modifyRepo fun r => { r with exclude := excludeText S.includeKdbx r.exclude } :
                 Hist Unit) u = .ok () w') : ∃ r', w'.rest = some r' ∧ r'.commits = r.commits := by
    obtain ⟨⟨⟩, v, hwrite, hok⟩ := bind_eq_ok.mp hok
    exact hpart ((exec_eq_ok hwrite).2 ▸ hu) hok
  obtain ⟨there, u, hthere, hok⟩ := bind_eq_ok.mp hok
  cases hthere
  split at hok
  · obtain ⟨existing, v, hread, hok⟩ := bind_eq_ok.mp hok
    have hv : v.rest = w.rest := by
      have := readBytes_keeps (p := ignorePath S.host) w
      rw [after_of_ok hread] at this
      exact this.2
    split at hok
    · exact hwritten (hv.trans hr) hok
    · exact hpart (hv.trans hr) hok
  · exact hwritten hr hok

theorem rest_of_runGit (hok : runGit w = .ok () w') : w'.rest = w.rest := by
  have := runGit_keeps w
  rw [after_of_ok hok] at this
  exact this.2

theorem ensureHistoryRepo_commits (hok : ensureHistoryRepo S w = .ok () w') :
    ∃ r, w'.rest = some r ∧ r.commits = commitsOf w.rest := by
  obtain ⟨repo, u, hrepo, hok⟩ := bind_eq_ok.mp hok
  cases hrepo
  cases hrest : w.rest with
  | some r =>
    rw [hrest] at hok
    exact ensureHistoryGitignore_commits hok hrest
  | none =>
    rw [hrest] at hok
    obtain ⟨⟨⟩, u, hinit, hok⟩ := bind_eq_ok.mp hok
    obtain ⟨⟨⟩, u₁, hstart, hok⟩ := bind_eq_ok.mp hok
    cases hstart
    obtain ⟨⟨⟩, u₂, hname, hok⟩ := bind_eq_ok.mp hok
    obtain ⟨⟨⟩, u₃, hmail, hok⟩ := bind_eq_ok.mp hok
    obtain ⟨⟨⟩, u₄, hsign, hok⟩ := bind_eq_ok.mp hok
    have hrest₄ : u₄.rest = some (Repo.init S.git) :=
      (rest_of_runGit hsign).trans ((rest_of_runGit hmail).trans (rest_of_runGit hname))
    exact ensureHistoryGitignore_commits hok hrest₄

/-- The part of `stageForCommit` before the changes are listed. -/
def stagePart (S : Service) : Hist Unit := do
  ensureHistoryRepo S
  runGit
  let tree ← getWorktree S
  modifyRepo (Repo.stageAll S.git tree)

/-- `git diff --cached --quiet` does not fail, if the commit comes to that. -/
def Lists (S : Service) (w : World (Option Repo)) : Prop :=
  match stagePart S w with
  | .ok _ u => u.faults.head?.join = none
  | .error _ _ => True

instance (w : World (Option Repo)) : Decidable (Lists S w) := by
  unfold Lists
  split <;> infer_instance

/-- What is staged, where the changes are listed. -/
theorem stageForCommit_staged {repo : Option Repo} (hok : stageForCommit S w = .ok repo w')
    (hlists : Lists S w) : ∃ r₀ : Repo, r₀.commits = commitsOf w.rest ∧
      w'.rest = some (r₀.stageAll S.git (worktree S.host w'.disk)) ∧
      repo = if (r₀.stageAll S.git (worktree S.host w'.disk)).changes = ∅ then none
        else some (r₀.stageAll S.git (worktree S.host w'.disk)) := by
  obtain ⟨⟨⟩, u, hensure, hok⟩ := bind_eq_ok.mp hok
  obtain ⟨r₀, hr₀, hcommits⟩ := ensureHistoryRepo_commits hensure
  obtain ⟨⟨⟩, u₁, hadd, hok⟩ := bind_eq_ok.mp hok
  obtain ⟨tree, v, htree, hok⟩ := bind_eq_ok.mp hok
  cases htree
  obtain ⟨⟨⟩, u₂, hstage, hok⟩ := bind_eq_ok.mp hok
  cases hstage
  have hpart : stagePart S w = .ok () { u₁ with rest := u₁.rest.map (Repo.stageAll S.git (worktree S.host u₁.disk)) } :=
    bind_eq_ok.mpr ⟨(), u, hensure, bind_eq_ok.mpr ⟨(), u₁, hadd, rfl⟩⟩
  unfold Lists at hlists
  rw [hpart] at hlists
  have hquiet : u₁.faults.head?.join = none := hlists
  obtain ⟨failed, u₃, hdiff, hok⟩ := bind_eq_ok.mp hok
  cases hdiff
  obtain ⟨rest, v, hrest, hok⟩ := bind_eq_ok.mp hok
  cases hrest
  have hrest₁ : u₁.rest = some r₀ := (rest_of_runGit hadd).trans hr₀
  dsimp only [World.tick] at hok
  rw [hrest₁, Option.map_some] at hok
  simp only [hquiet, Option.isSome_none, Bool.false_eq_true, false_or] at hok
  refine ⟨r₀, hcommits, ?_⟩
  split at hok
  · rename_i hnone
    cases hok
    exact ⟨rfl, by rw [if_pos hnone]⟩
  · rename_i hsome
    cases hok
    exact ⟨rfl, by rw [if_neg hsome]⟩

/-- A commit that went through added one commit, of what was staged. -/
theorem commitAndVerify_commits {message : Text} {metadata : Option Metadata} {r : Repo}
    (hok : commitAndVerify S message metadata r w = .ok () w') (hr : w.rest = some r) :
    ∃ text, w'.rest = some (r.commit S.git text) := by
  obtain ⟨⟨⟩, u, hcommit, hok⟩ := bind_eq_ok.mp hok
  obtain ⟨⟨⟩, u₁, hparse, hok⟩ := bind_eq_ok.mp hok
  obtain ⟨⟨⟩, u₂, hstatus, hok⟩ := bind_eq_ok.mp hok
  obtain ⟨tree, v, htree, hok⟩ := bind_eq_ok.mp hok
  cases htree
  have hw' : w' = u₂ := by
    split at hok
    · cases hok
    · cases hok
      rfl
  rw [hw', rest_of_runGit hstatus, rest_of_runGit hparse]
  rcases tryCatch_eq_ok.mp hcommit with hcommit | ⟨exc, t, -, hundo⟩
  · obtain ⟨⟨⟩, v, hvalid, hcommit⟩ := bind_eq_ok.mp hcommit
    obtain ⟨⟨⟩, v₁, hgit, hcommit⟩ := bind_eq_ok.mp hcommit
    cases hcommit
    have hv : v.rest = w.rest := by
      have := validate_keeps (S := S) (r := r) w
      rw [after_of_ok hvalid] at this
      exact this.2
    have hv₁ : v₁.rest = some r := (rest_of_runGit hgit).trans (hv.trans hr)
    exact ⟨_, congrArg (Option.map _) hv₁⟩
  · obtain ⟨⟨⟩, v, -, hundo⟩ := bind_eq_ok.mp hundo
    cases hundo

/-- **A commit records the working tree**, in one commit at most. -/
theorem historyCommit_records {message : Text} {metadata : Option Metadata}
    (henabled : S.enabled = true) (hok : historyCommit S message metadata w = .ok () w')
    (hlists : Lists S w) :
    (∃ r ∈ w'.rest, Recorded S w'.disk r) ∧ AddsAtMostOne w.rest w'.rest := by
  unfold historyCommit at hok
  rw [if_pos henabled] at hok
  obtain ⟨repo, u, hstage, hok⟩ := bind_eq_ok.mp hok
  obtain ⟨r₀, hcommits, hrest, hrepo⟩ := stageForCommit_staged hstage hlists
  by_cases hnone : (r₀.stageAll S.git (worktree S.host u.disk)).changes = ∅
  · rw [hrepo, if_pos hnone] at hok
    cases hok
    refine ⟨⟨_, hrest, recorded_of_staged rfl rfl (Repo.index_eq_head hnone).symm⟩, [], ?_, by simp⟩
    rw [hrest, ← hcommits]
    rfl
  · rw [hrepo, if_neg hnone] at hok
    have hdisk : w'.disk = u.disk := commitAndVerify_keepsDisk.of_ok hok
    obtain ⟨text, hw'⟩ := commitAndVerify_commits hok hrest
    let r := r₀.stageAll S.git (worktree S.host u.disk)
    refine ⟨⟨_, hw', ?_⟩, [⟨S.git.shaOf r.commits text r.index, text, r.index⟩], ?_, le_refl 1⟩
    · rw [hdisk]
      exact recorded_of_staged rfl rfl rfl
    · rw [hw', ← hcommits]
      rfl

end Commits

/-! ## Runs -/

section Runs

variable {D}

/-- Until it commits, an operation leaves the repository alone. -/
theorem Mutation.change_keepsRest (m : Mutation) : KeepsRest (m.change D) := by
  cases m with
  | call c => exact Moves.bind c.change_keepsRest fun _ => Moves.ret _
  | generateInventory uuids now payload => exact Moves.bind (onDisk_keepsRest _) fun _ => Moves.ret _
  | upsertServerConnection uuids hostAlias host user port =>
    exact Moves.bind (onDisk_keepsRest _) fun _ => Moves.ret _
  | setPrimaryDomain uuids hostAlias primaryDomain =>
    exact Moves.bind (onDisk_keepsRest _) fun _ => Moves.ret _
  | transitionDomainStatus uuid now domain nextStatus orderId =>
    exact Moves.bind (onDisk_keepsRest _) fun _ => Moves.ret _
  | placeOrder uuids workspaceId orderId now payload ownerId ownerEmail =>
    exact Moves.bind (onDisk_keepsRest _) fun _ => Moves.ret _

/-- An operation that commits has something to commit under. -/
theorem Mutation.change_commits {m : Mutation} (hm : m.commits = true)
    {x : Option (Text × Option Metadata)} {w w' : World (Option Repo)}
    (hok : m.change D w = .ok x w') : x ≠ none := by
  cases m with
  | transitionDomainStatus uuid now domain nextStatus orderId => cases hm
  | placeOrder uuids workspaceId orderId now payload ownerId ownerEmail => cases hm
  | call c =>
    obtain ⟨y, u, -, hret⟩ := bind_eq_ok.mp hok
    cases hret
    exact Option.some_ne_none _
  | generateInventory uuids now payload =>
    obtain ⟨y, u, -, hret⟩ := bind_eq_ok.mp hok
    cases hret
    exact Option.some_ne_none _
  | upsertServerConnection uuids hostAlias host user port =>
    obtain ⟨y, u, -, hret⟩ := bind_eq_ok.mp hok
    cases hret
    exact Option.some_ne_none _
  | setPrimaryDomain uuids hostAlias primaryDomain =>
    obtain ⟨y, u, -, hret⟩ := bind_eq_ok.mp hok
    cases hret
    exact Option.some_ne_none _

/-- The workspace, and how the last operation on it went. -/
structure Served where
  disk : Disk
  repo : Option Repo
  /-- the repository before that operation -/
  before : Option Repo
  succeeded : Bool

/-- An operation and the I/O errors it meets. -/
abbrev Attempt := Mutation × List (Option String)

def Served.world (s : Served) (faults : List (Option String)) : World (Option Repo) :=
  ⟨s.disk, s.repo, [], faults⟩

def serveMutation (D : Site) (s : Served) (a : Attempt) : Option Served :=
  match a.1.run D (s.world a.2) with
  | .ok _ w => some ⟨w.disk, w.rest, s.repo, true⟩
  | .error _ w => some ⟨w.disk, w.rest, s.repo, false⟩

/-- The operation commits, and its commit lists what there is to commit. -/
def Commits (D : Site) (s : Served) (a : Attempt) : Prop :=
  a.1.commits = true ∧
    match a.1.change D (s.world a.2) with
    | .ok _ w => Lists D.toService w
    | .error _ _ => True

instance (s : Served) (a : Attempt) : Decidable (Commits D s a) := by
  unfold Commits
  split <;> infer_instance

/-- What holds after an operation that went through: its change is recorded, in one commit
    at most. -/
def ChangeRecorded (D : Site) (s : Served) : Prop :=
  s.succeeded = true →
    (∃ r ∈ s.repo, Recorded D.toService s.disk r) ∧ AddsAtMostOne s.before s.repo

theorem serveMutation_recorded (henabled : D.enabled = true) {s s' : Served} {a : Attempt}
    (ha : Commits D s a) (hstep : serveMutation D s a = some s') : ChangeRecorded D s' := by
  unfold serveMutation at hstep
  split at hstep
  · rename_i w hrun
    cases hstep
    intro _
    obtain ⟨x, u, hchange, hcommit⟩ := bind_eq_ok.mp hrun
    obtain ⟨⟨message, metadata⟩, rfl⟩ := Option.ne_none_iff_exists'.mp (a.1.change_commits ha.1 hchange)
    have hlists := ha.2
    rw [hchange] at hlists
    have hrest : u.rest = s.repo := by
      have := a.1.change_keepsRest (D := D) (s.world a.2)
      rw [after_of_ok hchange] at this
      exact this
    have hrecords := historyCommit_records henabled hcommit hlists
    rw [hrest] at hrecords
    exact hrecords
  · cases hstep
    rintro ⟨⟩

/-- **Every change is recorded** of a run whose operations commit: after each of them that
    went through, HEAD has the files of the working tree that are not excluded, and one commit
    at most was added. -/
theorem changes_recorded (D : Site) (henabled : D.enabled = true) (s t : Served)
    (as : List Attempt) (hs : ChangeRecorded D s)
    (hcommits : Along (serveMutation D) (Commits D) s as)
    (hrun : run (serveMutation D) s as = some t) : ChangeRecorded D t :=
  run_inv_along (fun _ _ _ _ ha hstep => serveMutation_recorded henabled ha hstep) hs hcommits hrun

end Runs

/-! ## An order that is not recorded -/

section Demo

/-- Documents that are dumped as Python prints them, and not loaded. -/
def demoDocuments : Documents where
  safeLoad _ := none
  safeDump v := v.text
  load _ := .ok .none
  dump v := v.text
  loadJson _ := none
  dumpJson v := v.text
  hostVarsDefaults _ bytes := .ok bytes
  casing := asciiCasing

def demoSite : Site where
  toDeployment := demoDeployment
  documents := demoDocuments

def demoServed : Served := ⟨demoState.disk, none, none, false⟩

def demoOrder : Dict :=
  [(.str "full_name", .str "Ada"), (.str "email", .str "ada@example.org"), (.str "items", .list [.str "box"])]

def demoUuids (n : Nat) : FileName := demoName (natText n)

/-- A file is written, and then an order placed. -/
def orderPlaced : List Attempt :=
  [(.call (.writeFile (demoName "u") "a.yml" "a: 1\n"), []),
    (.placeOrder demoUuids "ws" (demoName "o1") "now" demoOrder (some "ada") none, [])]

/-- Whether the last operation went through, and HEAD lacks a file of the working tree that is
    not ignored. -/
def lacks (p : Path) (s : Served) : Bool :=
  s.succeeded && ((worktree demoHost s.disk).get p).isSome && s.repo.all fun r =>
    (r.head.get p).isNone && !demoGit.ignored r.exclude (worktree demoHost s.disk) p

theorem not_recorded_of_lacks {p : Path} {s : Served} (h : lacks p s = true) :
    ¬ ChangeRecorded demoSite s := by
  intro hrecorded
  rw [lacks, Bool.and_eq_true, Bool.and_eq_true] at h
  obtain ⟨⟨hsucceeded, hfile⟩, hlacks⟩ := h
  obtain ⟨⟨r, hr, hhead⟩, -⟩ := hrecorded hsucceeded
  rw [Option.mem_def.mp hr, Option.all_some, Bool.and_eq_true, Bool.not_eq_true'] at hlacks
  obtain ⟨content, hcontent⟩ := Option.isSome_iff_exists.mp hfile
  have hthere := (hhead p content).mpr ⟨hcontent, fun hex => by
    have := hex.2.symm.trans hlacks.2
    cases this⟩
  rw [hthere] at hlacks
  cases hlacks.1

/-- **An order is not recorded**, though it went through. -/
theorem order_not_recorded : ¬ ∀ (as : List Attempt) (t : Served),
    run (serveMutation demoSite) demoServed as = some t → ChangeRecorded demoSite t := by
  intro hall
  have hbad : (run (serveMutation demoSite) demoServed orderPlaced).any
      (lacks [ordersDir, demoName "o1.yml"]) = true := by decide +kernel
  cases hrun : run (serveMutation demoSite) demoServed orderPlaced with
  | none => rw [hrun] at hbad; cases hbad
  | some t =>
    rw [hrun] at hbad
    exact not_recorded_of_lacks hbad (hall _ t hrun)

/-- Operations that all commit. -/
def committing : List Attempt :=
  [(.call (.writeFile (demoName "u") "a.yml" "a: 1\n"), []),
    (.setPrimaryDomain demoUuids "web" (some "example.org"), [])]

theorem changes_recorded_committing : ∃ t,
    run (serveMutation demoSite) demoServed committing = some t ∧ ChangeRecorded demoSite t := by
  have hruns : (run (serveMutation demoSite) demoServed committing).isSome = true := by
    decide +kernel
  obtain ⟨t, hrun⟩ := Option.isSome_iff_exists.mp hruns
  exact ⟨t, hrun, changes_recorded demoSite rfl demoServed t committing (by rintro ⟨⟩)
    (by decide +kernel) hrun⟩

end Demo

end Infinito.History
