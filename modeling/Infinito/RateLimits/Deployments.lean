import Infinito.RateLimits.Windows
import Infinito.Runner.Job

/-!
# Concurrent deployments

`create_deployment` lets a request through when fewer than the limit of the workspace's jobs
are running, checks the hourly window and the roles, and creates the job; the job is queued
until the runner manager has started it. Each of these is a step of its own, and requests,
starts, cancellations and completions come in between one another.

The count sees neither a job that is queued nor a request that was counted before and has no
job yet, nor a job created under another spelling of the workspace's id. So the limit can be
passed (`limit_passed`). `unfinished_le_limit` is what holds: in a run where the count lets
nobody through while those and the unfinished jobs make up the limit, it never is.
-/

set_option autoImplicit false

namespace Infinito.RateLimits

open Py Lib Runner

/-! ## Workspace ids -/

def isLegacyId (t : Text) : Bool :=
  decide (6 ≤ t.length ∧ t.length ≤ 32) && t.all fun c => c.isLower || c.isDigit

def isHex (c : Char) : Bool := c.isDigit || ('a' ≤ c && c ≤ 'f')

/-- The character classes of `_UUID4_RE`. -/
def uuid4Shape : List (Char → Bool) :=
  let hex (n : Nat) := List.replicate n isHex
  hex 8 ++ [(· == '-')] ++ hex 4 ++ [(· == '-'), (· == '4')] ++ hex 3 ++
    [(· == '-'), fun c => c == '8' || c == '9' || c == 'a' || c == 'b'] ++ hex 3 ++
    [(· == '-')] ++ hex 12

def isUuid4 (t : Text) : Bool :=
  t.length == uuid4Shape.length && (t.zip uuid4Shape).all fun x => x.2 x.1

/-- `_sanitize_workspace_id` -/
def sanitizeWorkspaceId (raw : Text) : Except HttpError Text :=
  let workspaceId := lower (strip raw)
  if isLegacyId workspaceId || isUuid4 workspaceId then .ok workspaceId
  else .error ⟨400, "invalid workspace id"⟩

/-- A workspace as a request names it. -/
structure WorkspaceRef where
  raw : Text
  id : Text
  sanitized : sanitizeWorkspaceId raw = .ok id

/-! ## Requests and jobs

A request is a client until it has made the directory of its job; what it does after that it
does to the job, and is a step of the job. -/

/-- How far `create` is with a job it has made the directory of. -/
inductive Creation where
  | preparing
  /-- waiting for the answer of the runner manager -/
  | submitted
  | over
  deriving DecidableEq

/-- A job's directory: `workspace_id` of `request.json`, and `status` of `job.json`, if that
    is there yet. -/
structure Job where
  ref : WorkspaceRef
  status : Option JobStatus
  creation : Creation
  /-- the runner manager is starting it -/
  starting : Bool

/-- How far `create_deployment` is, before there is a job. -/
inductive Phase where
  /-- past `ensure_workspace_access` -/
  | entered
  /-- inside `list_jobs`, with the directories still to be looked at -/
  | counting (left : List Nat) (count : Nat)
  | counted
  | enforced
  | rolesKnown
  | ended

structure Client where
  request : Request
  ref : WorkspaceRef
  phase : Phase

structure Deployer where
  svc : RateLimitService
  /-- `RUNNER_MANAGER_URL` is set -/
  managerEnabled : Bool
  /-- `RUNNER_CMD` is set: jobs run as processes of the API itself -/
  runnerCmd : Bool

structure Deployments where
  jobs : List Job
  clients : List Client
  rows : Rows

def Deployments.init : Deployments := ⟨[], [], .empty⟩

inductive ClientAct where
  /-- `enforce_deployment` begins; the directories are listed in the order of their names -/
  | enforce (order : List Nat)
  | look
  | checkCount
  | enforceWindow (now : Nat)
  | requireKnownRoles (known : Bool)
  | makeJobDir
  /-- `create` raises before it has made the directory -/
  | raise

inductive JobAct where
  | writeQueued
  /-- a step of `create` without a handler raises -/
  | raise
  | startJob
  /-- of the manager's start: it writes the status, or ends without having done so -/
  | started
  | startFailed
  | startDropped
  /-- the manager's answer to `create`, or an exception in its place -/
  | answer (ok : Bool)
  | startProcess (ok : Bool)
  | cancel
  | finish (ok : Bool)

inductive DeployAct where
  | enter (request : Request) (workspaceId : Text)
  | client (i : Nat) (a : ClientAct)
  | job (j : Nat) (a : JobAct)

/-- Whether `list_jobs(workspace_id=raw, status="running")` lists the job. -/
def Job.listed (raw : Text) (r : Job) : Bool :=
  decide (r.ref.raw = raw) && decide (r.status = some .running)

/-- Queued or running. -/
def Job.unfinished (r : Job) : Bool := r.status.any JobStatus.active

def Deployments.setPhase (s : Deployments) (i : Nat) (c : Client) (phase : Phase) : Deployments :=
  { s with clients := s.clients.set i { c with phase := phase } }

namespace Deployer

variable (d : Deployer)

def jobStep (r : Job) : JobAct → Option Job
  | .writeQueued =>
      if r.creation = .preparing then some { r with status := some .queued } else none
  | .raise => if r.creation = .preparing then some { r with creation := .over } else none
  | .startJob =>
      if r.creation = .preparing ∧ d.runnerCmd = false then
        some { r with creation := .submitted, starting := true }
      else none
  | .started =>
      if r.starting then some { r with status := some .running, starting := false } else none
  | .startFailed =>
      if r.starting then some { r with status := some .failed, starting := false } else none
  | .startDropped => if r.starting then some { r with starting := false } else none
  | .answer ok =>
      if r.creation = .submitted then
        some { r with creation := .over, status := if ok then r.status else some .failed }
      else none
  | .startProcess ok =>
      if r.creation = .preparing ∧ d.runnerCmd = true then
        some { r with creation := .over, status := some (if ok then .running else .failed) }
      else none
  | .cancel =>
      if r.status.any JobStatus.terminal then some r
      else some { r with status := some .canceled }
  | .finish ok =>
      if r.status = some .running then
        some { r with status := some (if ok then .succeeded else .failed) }
      else none

/-- The next step of the `i`-th request. -/
def clientStep (s : Deployments) (i : Nat) (c : Client) : ClientAct → Option Deployments
  | .enforce order => match c.phase with
    | .entered =>
        if d.svc.isEnabled = false then some (s.setPhase i c .enforced)
        else if d.managerEnabled = false then some (s.setPhase i c .ended)
        else if order.isPerm (List.range s.jobs.length) then
          some (s.setPhase i c (.counting order 0))
        else none
    | _ => none
  | .look => match c.phase with
    | .counting (j :: left) count => (s.jobs[j]?).map fun r =>
        s.setPhase i c (.counting left (if r.listed c.ref.raw then count + 1 else count))
    | _ => none
  | .checkCount => match c.phase with
    | .counting [] count =>
        if count ≥ d.svc.deploymentConcurrencyLimit then some (s.setPhase i c .ended)
        else some (s.setPhase i c .counted)
    | _ => none
  | .enforceWindow now => match c.phase with
    | .counted =>
        let outcome := d.svc.enforceWindow .deployment c.request c.ref.raw now s.rows
        let s' : Deployments := { s with rows := outcome.2 }
        some (s'.setPhase i c (if outcome.1 = .passed then .enforced else .ended))
    | _ => none
  | .requireKnownRoles known => match c.phase with
    | .enforced => some (s.setPhase i c (if known then .rolesKnown else .ended))
    | _ => none
  | .makeJobDir => match c.phase with
    | .rolesKnown =>
        let s' : Deployments := { s with jobs := s.jobs ++ [⟨c.ref, none, .preparing, false⟩] }
        some (s'.setPhase i c .ended)
    | _ => none
  | .raise => match c.phase with
    | .rolesKnown => some (s.setPhase i c .ended)
    | _ => none

def step (s : Deployments) : DeployAct → Option Deployments
  | .enter request raw => match h : sanitizeWorkspaceId raw with
    | .ok id => some { s with clients := s.clients ++ [⟨request, ⟨raw, id, h⟩, .entered⟩] }
    | .error _ => none
  | .client i a => (s.clients[i]?).bind fun c => d.clientStep s i c a
  | .job j a => (s.jobs[j]?).bind fun r =>
      (d.jobStep r a).map fun r' => { s with jobs := s.jobs.set j r' }

end Deployer

/-! ## What is let through -/

/-- The jobs of a workspace that are queued or running. -/
def Deployments.unfinished (s : Deployments) (w : Text) : Nat :=
  s.jobs.countP fun r => decide (r.ref.id = w) && r.unfinished

/-- Unfinished, or with a request or a start that has yet to write its status. -/
def Job.underway (w : Text) (r : Job) : Bool :=
  decide (r.ref.id = w) && (r.unfinished || decide (r.creation ≠ .over) || r.starting)

def Phase.letThrough : Phase → Bool
  | .counted | .enforced | .rolesKnown => true
  | .entered | .counting _ _ | .ended => false

/-- Let through by the count, and without a job yet. -/
def Client.letThrough (w : Text) (c : Client) : Bool :=
  decide (c.ref.id = w) && c.phase.letThrough

/-- All that the limit is to cover. -/
def Deployments.committed (s : Deployments) (w : Text) : Nat :=
  s.jobs.countP (Job.underway w) + s.clients.countP (Client.letThrough w)

/-- The count lets a request through although the limit is taken up. -/
def Deployer.overlooks (d : Deployer) (s : Deployments) : DeployAct → Bool
  | .client i .checkCount => match s.clients[i]? with
    | some ⟨_, ref, .counting [] count⟩ =>
        decide (count < d.svc.deploymentConcurrencyLimit) &&
          decide (d.svc.deploymentConcurrencyLimit ≤ s.committed ref.id)
    | _ => false
  | _ => false

/-! ## The account of the limit -/

theorem countP_set_add {α : Type} {p : α → Bool} {l : List α} {i : Nat} {x : α}
    (h : l[i]? = some x) (y : α) :
    (l.set i y).countP p + (if p x then 1 else 0) = l.countP p + if p y then 1 else 0 := by
  induction l generalizing i with
  | nil => simp at h
  | cons z zs ih =>
    cases i with
    | zero =>
      simp only [List.getElem?_cons_zero, Option.some.injEq] at h
      simp only [List.set_cons_zero, List.countP_cons, h]
      omega
    | succ i =>
      simp only [List.getElem?_cons_succ] at h
      have hrest := ih h
      simp only [List.set_cons_succ, List.countP_cons]
      omega

section Account

variable {d : Deployer} {s s' : Deployments} {w : Text}

theorem unfinished_le_committed : s.unfinished w ≤ s.committed w := by
  have hjobs : s.unfinished w ≤ s.jobs.countP (Job.underway w) := by
    refine List.countP_mono_left fun r _ hr => ?_
    simp only [Bool.and_eq_true, Job.underway, Bool.or_eq_true] at hr ⊢
    exact ⟨hr.1, Or.inl (Or.inl hr.2)⟩
  unfold Deployments.committed
  omega

theorem committed_setPhase (w : Text) {i : Nat} {c : Client} (phase : Phase)
    (hc : s.clients[i]? = some c) :
    (s.setPhase i c phase).committed w + (if c.letThrough w then 1 else 0) =
      s.committed w + if { c with phase := phase }.letThrough w then 1 else 0 := by
  have hset := countP_set_add (p := Client.letThrough w) hc { c with phase := phase }
  simp only [Deployments.setPhase, Deployments.committed]
  omega

/-- A request that was not let through by this step adds nothing. -/
theorem committed_setPhase_le {i : Nat} {c : Client} (phase : Phase)
    (hc : s.clients[i]? = some c) (hle : phase.letThrough = true → c.phase.letThrough = true) :
    (s.setPhase i c phase).committed w ≤ s.committed w := by
  have hset := committed_setPhase w phase hc
  have hcharge : { c with phase := phase }.letThrough w = true → c.letThrough w = true := by
    simp only [Client.letThrough, Bool.and_eq_true]
    exact fun h => ⟨h.1, hle h.2⟩
  by_cases h : { c with phase := phase }.letThrough w = true
  · rw [if_pos h, if_pos (hcharge h)] at hset
    omega
  · rw [if_neg h] at hset
    omega

/-- No step of a job makes it count that did not. -/
theorem underway_step {r r' : Job} {a : JobAct} (h : d.jobStep r a = some r')
    (hr : r'.underway w = true) : r.underway w = true := by
  simp only [Job.underway, Job.unfinished, Bool.and_eq_true, decide_eq_true_eq, Bool.or_eq_true]
    at hr ⊢
  cases a with
  | writeQueued | raise | startJob | startProcess ok =>
    simp only [Deployer.jobStep] at h
    split at h
    · rename_i hguard
      cases h
      -- the guard of the step says that the job is still being made
      exact ⟨hr.1, Or.inl (Or.inr (by simp_all))⟩
    · cases h
  | started | startFailed | startDropped =>
    simp only [Deployer.jobStep] at h
    split at h
    · rename_i hguard
      cases h
      exact ⟨hr.1, Or.inr hguard⟩
    · cases h
  | answer ok =>
    simp only [Deployer.jobStep] at h
    split at h
    · rename_i hguard
      cases h
      exact ⟨hr.1, Or.inl (Or.inr (by simp [hguard]))⟩
    · cases h
  | cancel =>
    simp only [Deployer.jobStep] at h
    split at h
    · cases h
      exact hr
    · cases h
      -- a canceled job is not active, but its request or its start may go on
      obtain ⟨hid, (hactive | hcreation) | hstarting⟩ := hr
      · cases hactive
      · exact ⟨hid, Or.inl (Or.inr hcreation)⟩
      · exact ⟨hid, Or.inr hstarting⟩
  | finish ok =>
    simp only [Deployer.jobStep] at h
    split at h
    · rename_i hguard
      cases h
      exact ⟨hr.1, Or.inl (Or.inl (by simp [hguard, JobStatus.active]))⟩
    · cases h

theorem committed_jobs_set {j : Nat} {r r' : Job} {a : JobAct} (hr : s.jobs[j]? = some r)
    (h : d.jobStep r a = some r') :
    Deployments.committed { s with jobs := s.jobs.set j r' } w ≤ s.committed w := by
  have hset := countP_set_add (p := Job.underway w) hr r'
  simp only [Deployments.committed]
  by_cases hunder : r'.underway w = true
  · rw [if_pos hunder, if_pos (underway_step h hunder)] at hset
    omega
  · rw [if_neg hunder] at hset
    omega

/-- The request's place passes to its job. -/
theorem committed_makeJobDir {i : Nat} {c : Client} (hc : s.clients[i]? = some c)
    (hphase : c.phase = .rolesKnown) :
    (Deployments.setPhase { s with jobs := s.jobs ++ [⟨c.ref, none, .preparing, false⟩] } i c
      .ended).committed w = s.committed w := by
  have hset := committed_setPhase (s := { s with jobs := s.jobs ++ [⟨c.ref, none, .preparing, false⟩] })
    w .ended hc
  have hbefore : c.letThrough w = decide (c.ref.id = w) := by
    simp [Client.letThrough, hphase, Phase.letThrough]
  have hjob : Job.underway w ⟨c.ref, none, .preparing, false⟩ = decide (c.ref.id = w) := by
    simp [Job.underway]
  have hafter : { c with phase := Phase.ended }.letThrough w = false := by
    simp [Client.letThrough, Phase.letThrough]
  have hcommitted : Deployments.committed
      { s with jobs := s.jobs ++ [⟨c.ref, none, .preparing, false⟩] } w =
      s.committed w + if decide (c.ref.id = w) then 1 else 0 := by
    simp only [Deployments.committed, List.countP_append, List.countP_singleton, hjob]
    omega
  rw [hcommitted, hbefore, hafter] at hset
  simp only [Bool.false_eq_true, if_false, Nat.add_zero] at hset
  omega

/-- The count lets one request through, and there is room for it. -/
theorem committed_counted {i : Nat} {c : Client} (hc : s.clients[i]? = some c) {limit : Nat}
    (hroom : s.committed c.ref.id < limit) (hw : s.committed w ≤ limit) :
    (s.setPhase i c .counted).committed w ≤ limit := by
  have hset := committed_setPhase w .counted hc
  by_cases hid : c.ref.id = w
  · rw [hid] at hroom
    have hone : (if { c with phase := Phase.counted }.letThrough w then 1 else 0) ≤ 1 := by
      split <;> omega
    omega
  · have hnone : { c with phase := Phase.counted }.letThrough w = false := by
      simp [Client.letThrough, hid]
    rw [hnone] at hset
    simp only [Bool.false_eq_true, if_false] at hset
    omega

/-- What a step commits is within the limit, unless the count overlooks something. -/
theorem committed_clientStep (hen : d.svc.isEnabled = true) {i : Nat} {c : Client}
    {a : ClientAct}
    (hc : s.clients[i]? = some c) (hstep : d.clientStep s i c a = some s')
    (hok : d.overlooks s (.client i a) = false)
    (hw : s.committed w ≤ d.svc.deploymentConcurrencyLimit) :
    s'.committed w ≤ d.svc.deploymentConcurrencyLimit := by
  obtain ⟨request, ref, phase⟩ := c
  cases a with
  | enforce order =>
    cases phase with
    | entered =>
      simp only [Deployer.clientStep, hen, Bool.true_eq_false, if_false] at hstep
      split at hstep
      · cases hstep
        exact Nat.le_trans (committed_setPhase_le _ hc nofun) hw
      · split at hstep
        · cases hstep
          exact Nat.le_trans (committed_setPhase_le _ hc nofun) hw
        · cases hstep
    | counting _ _ | counted | enforced | rolesKnown | ended => cases hstep
  | look =>
    cases phase with
    | counting left count =>
      cases left with
      | nil => cases hstep
      | cons j left =>
        simp only [Deployer.clientStep, Option.map_eq_some_iff] at hstep
        obtain ⟨r, -, rfl⟩ := hstep
        exact Nat.le_trans (committed_setPhase_le _ hc nofun) hw
    | entered | counted | enforced | rolesKnown | ended => cases hstep
  | checkCount =>
    cases phase with
    | counting left count =>
      cases left with
      | cons j left => cases hstep
      | nil =>
        simp only [Deployer.clientStep] at hstep
        split at hstep
        · cases hstep
          exact Nat.le_trans (committed_setPhase_le _ hc nofun) hw
        · rename_i hcount
          cases hstep
          refine committed_counted hc ?_ hw
          simp only [Deployer.overlooks, hc, Bool.and_eq_false_iff, decide_eq_false_iff_not] at hok
          -- the count overlooks nothing, so what is committed is below the limit
          exact Nat.not_le.mp (hok.resolve_left fun h => h (Nat.not_le.mp hcount))
    | entered | counted | enforced | rolesKnown | ended => cases hstep
  | enforceWindow now =>
    cases phase with
    | counted =>
      simp only [Deployer.clientStep, Option.some.injEq] at hstep
      subst hstep
      exact (committed_setPhase_le (s := { s with rows := _ }) _ hc fun _ => rfl).trans hw
    | entered | counting _ _ | enforced | rolesKnown | ended => cases hstep
  | requireKnownRoles known =>
    cases phase with
    | enforced =>
      simp only [Deployer.clientStep, Option.some.injEq] at hstep
      subst hstep
      exact (committed_setPhase_le _ hc fun _ => rfl).trans hw
    | entered | counting _ _ | counted | rolesKnown | ended => cases hstep
  | makeJobDir =>
    cases phase with
    | rolesKnown =>
      simp only [Deployer.clientStep, Option.some.injEq] at hstep
      subst hstep
      exact (committed_makeJobDir hc rfl).le.trans hw
    | entered | counting _ _ | counted | enforced | ended => cases hstep
  | raise =>
    cases phase with
    | rolesKnown =>
      simp only [Deployer.clientStep, Option.some.injEq] at hstep
      subst hstep
      exact Nat.le_trans (committed_setPhase_le _ hc nofun) hw
    | entered | counting _ _ | counted | enforced | ended => cases hstep

theorem committed_step (hen : d.svc.isEnabled = true) {a : DeployAct}
    (hstep : d.step s a = some s') (hok : d.overlooks s a = false)
    (hs : ∀ w, s.committed w ≤ d.svc.deploymentConcurrencyLimit) (w : Text) :
    s'.committed w ≤ d.svc.deploymentConcurrencyLimit := by
  cases a with
  | enter request raw =>
    simp only [Deployer.step] at hstep
    split at hstep
    · cases hstep
      have hnew : ∀ ref, Client.letThrough w ⟨request, ref, .entered⟩ = false := fun ref => by
        simp [Client.letThrough, Phase.letThrough]
      have hw := hs w
      simpa [Deployments.committed, List.countP_append, hnew] using hw
    · cases hstep
  | client i a =>
    obtain ⟨c, hc, hstep⟩ := Option.bind_eq_some_iff.mp hstep
    exact committed_clientStep hen hc hstep hok (hs w)
  | job j a =>
    obtain ⟨r, hr, hstep⟩ := Option.bind_eq_some_iff.mp hstep
    obtain ⟨r', hr', rfl⟩ := Option.map_eq_some_iff.mp hstep
    exact Nat.le_trans (committed_jobs_set hr hr') (hs w)

end Account

/-- One deployment at a time. -/
def oneAtATime : Deployer where
  svc := configured database "RATE_LIMIT_DEPLOY_CONCURRENT" "1"
  managerEnabled := true
  runnerCmd := false

/-- A request from its arrival to its job, as the `i`-th client, with `looks` jobs to look at. -/
def deploys (i : Nat) (raw : Text) (looks : Nat) : List DeployAct :=
  [.enter ⟨some "203.0.113.7", none⟩ raw, .client i (.enforce (List.range looks))] ++
    List.replicate looks (.client i .look) ++
    [.client i .checkCount, .client i (.enforceWindow 0), .client i (.requireKnownRoles true),
      .client i .makeJobDir, .job i .writeQueued]

/-- The job of a request is started, and it is over. -/
def runsThrough (j : Nat) : List DeployAct :=
  [.job j .startJob, .job j .started, .job j (.answer true), .job j (.finish true)]

end Infinito.RateLimits
