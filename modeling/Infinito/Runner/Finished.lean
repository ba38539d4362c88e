import Infinito.Lib.Register
import Infinito.Runner.Start

/-!
# A finished job stays finished

Four calls load `job.json`, change it and write it back: the manager's `create`, `cancel`
and `_wait_and_finalize`, and the API's handling of a start that failed. They run in
threads of two services and take no lock, so the file is a `Lib.Register`.

`cancel` alone asks whether the job is finished, and asks what it has loaded. A finished
job is therefore changed by a call that loaded it before it was finished, and by the other
three even without that. `job_stays_finished` says exactly when: it stays finished in a
run if and only if each store over a finished job is made by a call that `Agrees` with the
way the job ended.
-/

set_option autoImplicit false

namespace Infinito.Runner

open Py Lib Lib.Register

/-- The calls that write `job.json`, with how they come out. -/
inductive JobOp where
  /-- `create`, with the runner started -/
  | started (now : Text) (pid : Int) (image : Text) (a : Acquired)
  /-- `create`, with a process that cannot be started -/
  | startFailed (now : Text)
  /-- `create`, with secrets that cannot be seeded -/
  | seedFailed (now : Text) (exitCode : Int) (a : Acquired)
  | cancel (now : Text)
  /-- `_wait_and_finalize`, with the exit code of the process -/
  | finalize (now : Text) (exitCode : Int)
  /-- `JobRunnerService.create`, when `start_job` raises -/
  | startJobRaised (now : Text)

/-- What a call writes when it has loaded `r`; `none` if it does not write. -/
def JobOp.writes (r : JobMeta) : JobOp → Option JobMeta
  | .started now pid image a =>
      if r.status = some .running then none else some (r.start now pid image a)
  | .startFailed now => if r.status = some .running then none else some (r.fail now 127)
  | .seedFailed now exitCode a =>
      if r.status = some .running then none else some ((r.fail now exitCode).acquire a)
  | .cancel now =>
      if r = .empty then none
      else if r.status.any JobStatus.terminal then none
      else some (r.cancel now)
  | .finalize now exitCode => some (r.finalize now exitCode)
  | .startJobRaised now => some (r.fail now 127)

def jobCalls : Calls JobMeta JobOp where
  writes := JobOp.writes
  locks _ := false

/-! ## The condition -/

/-- A call that has loaded a record with status `loaded` ends a job as `ended`. -/
def JobOp.Agrees (loaded : Option JobStatus) (ended : JobStatus) : JobOp → Prop
  | .started _ _ _ _ => False
  | .startFailed _ => ended = .failed
  | .seedFailed _ _ _ => ended = .failed
  | .cancel _ => ended = .canceled
  | .finalize _ exitCode =>
      if loaded = some .canceled then ended = .canceled
      else ended = if exitCode = 0 then .succeeded else .failed
  | .startJobRaised _ => ended = .failed

/-- A finished job is only stored over by a call that agrees with its end. -/
def Agreeing (s : State JobMeta JobOp) : Act JobOp → Prop
  | .load _ _ => True
  | .store call => ∀ w ended, s.windows.lookup call = some w → s.value.status = some ended →
      ended.terminal = true → w.op.Agrees w.loaded.status ended

/-- Whenever the job is finished, its status is the same at every later time. -/
def StaysFinished (s : State JobMeta JobOp) (acts : List (Act JobOp)) : Prop :=
  ∀ before middle later t u, acts = before ++ middle ++ later →
    run (step jobCalls) s before = some t → run (step jobCalls) t middle = some u →
    ∀ ended, t.value.status = some ended → ended.terminal = true → u.value.status = some ended

/-- Whenever a call to `cancel` has stored, the job is canceled. -/
def StaysCanceled (s : State JobMeta JobOp) (acts : List (Act JobOp)) : Prop :=
  ∀ before later t, acts = before ++ later → run (step jobCalls) s before = some t →
    ∀ w now, w ∈ t.stored → w.op = .cancel now → t.value.status = some .canceled

/-! ## One store -/

/-- **A call agrees with an end exactly when it writes it.** -/
theorem stays_iff {op : JobOp} {r r' : JobMeta} (h : op.writes r = some r') {ended : JobStatus}
    (hended : ended.terminal = true) : op.Agrees r.status ended ↔ r'.status = some ended := by
  cases op with
  | started now pid image a =>
    simp only [JobOp.writes] at h
    split at h
    · cases h
    · cases h
      -- a start is no end
      refine iff_of_false id fun hrunning => ?_
      cases hrunning
      cases hended
  | startFailed now =>
    simp only [JobOp.writes] at h
    split at h
    · cases h
    · cases h
      exact ⟨fun h => by rw [h]; rfl, fun h => (Option.some.inj h).symm⟩
  | seedFailed now exitCode a =>
    simp only [JobOp.writes] at h
    split at h
    · cases h
    · cases h
      exact ⟨fun h => by rw [h]; rfl, fun h => (Option.some.inj h).symm⟩
  | cancel now =>
    simp only [JobOp.writes] at h
    split at h
    · cases h
    · split at h
      · cases h
      · cases h
        exact ⟨fun h => by rw [h]; rfl, fun h => (Option.some.inj h).symm⟩
  | finalize now exitCode =>
    cases h
    unfold JobOp.Agrees JobMeta.finalize
    -- a canceled job stays canceled when its process ends
    by_cases hcanceled : r.status = some .canceled
    · dsimp only
      rw [if_pos hcanceled, if_pos hcanceled]
      dsimp only
      rw [hcanceled, Option.some.injEq, eq_comm]
    · dsimp only
      rw [if_neg hcanceled, if_neg hcanceled]
      rw [Option.some.injEq, eq_comm]
  | startJobRaised now =>
    cases h
    exact ⟨fun h => by rw [h]; rfl, fun h => (Option.some.inj h).symm⟩

theorem cancel_writes {now : Text} {r r' : JobMeta} (h : JobOp.writes r (.cancel now) = some r') :
    r'.status = some .canceled := by
  simp only [JobOp.writes] at h
  split at h
  · cases h
  · split at h
    · cases h
    · cases h
      rfl

/-! ## One step, and runs -/

section Runs

variable {s t : State JobMeta JobOp} {a : Act JobOp} {acts : List (Act JobOp)}

/-- A step that agrees leaves a finished job as it ended. -/
theorem step_ended (hs : Open jobCalls s) (hok : Agreeing s a) (h : step jobCalls s a = some t)
    {ended : JobStatus} (hstatus : s.value.status = some ended) (hended : ended.terminal = true) :
    t.value.status = some ended := by
  cases a with
  | load c op => rw [(step_load h).1]; exact hstatus
  | store c =>
    obtain ⟨w, hw, hvalue, -, -⟩ := step_store h
    rw [hvalue]
    exact (stays_iff (hs c w hw) hended).mp (hok w ended hw hstatus hended)

def EndedAs (ended : JobStatus) (s : State JobMeta JobOp) : Prop :=
  Open jobCalls s ∧ s.value.status = some ended

theorem run_ended (hs : Open jobCalls s) (hok : Along (step jobCalls) Agreeing s acts)
    (hrun : run (step jobCalls) s acts = some t) {ended : JobStatus}
    (hstatus : s.value.status = some ended) (hended : ended.terminal = true) :
    t.value.status = some ended := by
  have hstep : ∀ s a s', EndedAs ended s → Agreeing s a → step jobCalls s a = some s' →
      EndedAs ended s' := fun s a s' hs ha h => ⟨hs.1.step h, step_ended hs.1 ha h hs.2 hended⟩
  exact (run_inv_along hstep ⟨hs, hstatus⟩ hok hrun).2

theorem run_open (hs : Open jobCalls s) (hrun : run (step jobCalls) s acts = some t) :
    Open jobCalls t :=
  run_inv (fun _ _ _ hs h => Open.step hs h) hs hrun

/-- Once a cancellation is stored, the job is canceled. -/
def Canceled (s : State JobMeta JobOp) : Prop :=
  Open jobCalls s ∧ ∀ w now, w ∈ s.stored → w.op = .cancel now → s.value.status = some .canceled

theorem step_canceled (hs : Canceled s) (hok : Agreeing s a) (h : step jobCalls s a = some t) :
    Canceled t := by
  obtain ⟨hopen, hcanceled⟩ := hs
  refine ⟨hopen.step h, fun w now hw hop => ?_⟩
  cases a with
  | load c op =>
    obtain ⟨hvalue, hstored, -⟩ := step_load h
    rw [hstored] at hw
    rw [hvalue]
    exact hcanceled w now hw hop
  | store c =>
    obtain ⟨w', hw', hvalue, hstored, -⟩ := step_store h
    rw [hstored] at hw
    rcases List.mem_append.mp hw with hw | hw
    · exact step_ended hopen hok h (hcanceled w now hw hop) rfl
    · obtain rfl := List.mem_singleton.mp hw
      have hwrites := hopen c w hw'
      rw [hop] at hwrites
      rw [hvalue]
      exact cancel_writes hwrites

/-- Where the job stays finished, every store agrees. -/
theorem agreeing_of_stays (hs : Open jobCalls s) (h : StaysFinished s acts) :
    Along (step jobCalls) Agreeing s acts := by
  induction acts generalizing s with
  | nil => trivial
  | cons a acts ih =>
    refine ⟨?_, ?_⟩
    · cases a with
      | load c op => trivial
      | store c =>
        intro w ended hw hstatus hended
        obtain ⟨t, ht, hvalue⟩ : ∃ t, step jobCalls s (.store c) = some t ∧ t.value = w.written := by
          simp only [step, hw]
          exact ⟨_, rfl, rfl⟩
        have hrun : run (step jobCalls) s [.store c] = some t := by
          rw [run, ht]
          rfl
        have hstays := h [] [.store c] acts s t rfl rfl hrun ended hstatus hended
        rw [hvalue] at hstays
        exact (stays_iff (hs c w hw) hended).mpr hstays
    · cases hstep : step jobCalls s a with
      | none => trivial
      | some s' =>
        refine ih (hs.step hstep) fun before middle later t u hacts hbefore hmiddle => ?_
        refine h (a :: before) middle later t u (by rw [hacts]; rfl) ?_ hmiddle
        rw [run, hstep]
        exact hbefore

end Runs

/-- **A finished job stays finished.** In every run of the four calls' loads and stores,
    from any record, the job stays as it ended, and canceled once a cancellation is stored,
    if and only if every store over a finished job is made by a call that agrees with its
    end. -/
theorem job_stays_finished (record : JobMeta) (acts : List (Act JobOp)) :
    StaysFinished (State.init record) acts ∧ StaysCanceled (State.init record) acts ↔
      Along (step jobCalls) Agreeing (State.init record) acts := by
  constructor
  · exact fun h => agreeing_of_stays (open_init record) h.1
  · intro hok
    refine ⟨?_, ?_⟩
    · intro before middle later t u hacts hbefore hmiddle ended hstatus hended
      rw [hacts, List.append_assoc] at hok
      exact run_ended (run_open (open_init record) hbefore) (hok.append_right hbefore).append_left
        hmiddle hstatus hended
    · intro before later t hacts hbefore
      rw [hacts] at hok
      have hstart : Canceled (State.init record) :=
        ⟨open_init record, fun w now hw => absurd hw List.not_mem_nil⟩
      have hcanceled : Canceled t :=
        run_inv_along (fun _ _ _ hs ha h => step_canceled hs ha h) hstart hok.append_left hbefore
      exact hcanceled.2

section Demo

def demoTime : Text := "2026-01-01T00:00:00Z"

def queuedJob : JobMeta := { JobMeta.empty with status := some .queued }

def demoAcquired : Acquired where
  containerId := ⟨"infinito-job-1".toList, by decide⟩
  networkName := ⟨"job-1".toList, by decide⟩
  modeATargets := []
  secretVolumeName := none

/-- The runner is started; it ends while the job is being canceled. -/
def overtakenCancel : List (Act JobOp) :=
  [ .load 0 (.started demoTime 4711 "runner:1" demoAcquired),
    .store 0,
    .load 1 (.cancel demoTime),
    .load 2 (.finalize demoTime 0),
    .store 1,
    .store 2 ]

/-- **A canceled job succeeds**: the finalizer had loaded it while it was running. -/
theorem canceled_job_succeeds : ¬ ∀ (record : JobMeta) (acts : List (Act JobOp)),
    StaysFinished (State.init record) acts ∧ StaysCanceled (State.init record) acts := by
  intro hclaim
  obtain ⟨hstays, -⟩ := hclaim queuedJob overtakenCancel
  have hrun : ∃ t u, run (step jobCalls) (State.init queuedJob) (overtakenCancel.take 5) = some t ∧
      run (step jobCalls) t [.store 2] = some u ∧ t.value.status = some .canceled ∧
      u.value.status = some .succeeded := ⟨_, _, rfl, rfl, rfl, rfl⟩
  obtain ⟨t, u, ht, hu, hcanceled, hsucceeded⟩ := hrun
  have := hstays (overtakenCancel.take 5) [.store 2] [] t u rfl ht hu .canceled hcanceled rfl
  rw [hsucceeded] at this
  cases this

end Demo

/-! ## `create` as a call -/

section Record

variable {spec : JobSpec} {job : Job} {o : Outcomes} {r : JobMeta}

/-- The record is as it was, or as one of the three calls of `create` writes it. -/
def Written (spec : JobSpec) (o : Outcomes) (r : JobMeta) (w : World) : Prop :=
  w.record = r ∨ ∃ op : JobOp, op.writes r = some w.record ∧
    ((∃ pid a, op = .started o.now pid spec.runnerImage.val a) ∨ op = .startFailed o.now ∨
      ∃ exitCode a, op = .seedFailed o.now exitCode a)

theorem writeMeta_written {failure : Option Raised} {r' : JobMeta}
    (h : ∀ w : World, w.record = r' → Written spec o r w) :
    Keeps (Written spec o r) (writeMeta failure r') := by
  intro w hw
  unfold after
  cases failure with
  | none => exact h _ rfl
  | some e => exact hw

/-- Only the record counts. -/
theorem modify_written {f : World → World} (hf : ∀ w, (f w).record = w.record) :
    Keeps (Written spec o r) (modify f : Manager Unit) := by
  intro w hw
  show Written spec o r (f w)
  unfold Written
  rw [hf]
  exact hw

theorem changeDocker_written (f : Docker → Docker) :
    Keeps (Written spec o r) (changeDocker f) := modify_written fun _ => rfl

theorem raiseIf_written (failure : Option Raised) : Keeps (Written spec o r) (raiseIf failure) := by
  cases failure with
  | none => exact Moves.ret _
  | some e => exact Moves.raise _

theorem getJob_written : Keeps (Written spec o r) (getJob spec job) :=
  Moves.ite (fun _ => Moves.raise _) fun _ => Moves.bind (Moves.read _) fun _ => Moves.ret _

theorem connectTargets_written {n : Name} {ts : List Target} :
    Keeps (Written spec o r) (connectTargets o n ts) := by
  induction ts with
  | nil => exact Moves.ret _
  | cons t ts ih =>
    refine Moves.bind ?_ fun _ => ih
    unfold connectTarget
    cases o.target t.containerName with
    | done => exact changeDocker_written _
    | exited stderr => exact Moves.raise _
    | raised e => exact Moves.raise _

theorem acquire_written : Keeps (Written spec o r) (acquire spec job o) := by
  refine Moves.tryCatch (Moves.bind ?_ fun _ => Moves.bind connectTargets_written fun _ =>
    Moves.ret _) fun e => Moves.bind (changeDocker_written _) fun _ => Moves.raise _
  unfold makeVolume createTmpfsVolume
  cases secretVolume spec job with
  | none => exact Moves.ret _
  | some v =>
    cases o.volume with
    | done => exact changeDocker_written _
    | exited detail => exact Moves.raise _
    | raised e => exact Moves.raise _

theorem buildCommand_written {ts : List Target} :
    Keeps (Written spec o r) (buildCommand spec job o ts) :=
  Moves.tryCatch (raiseIf_written _) fun _ => Moves.bind (changeDocker_written _) fun _ =>
    Moves.raise _

theorem launch_written (hr : r.status ≠ some .running) {ts : List Target} :
    Keeps (Written spec o r) (launch spec job o r ts) := by
  refine Moves.tryCatch ?_ fun e => Moves.bind (changeDocker_written _) fun _ =>
    Moves.bind (writeMeta_written fun w hw => Or.inr ⟨.startFailed o.now, ?_, by simp⟩) fun _ =>
      Moves.raise _
  · unfold startProcess
    cases o.process with
    | error e => exact Moves.raise _
    | ok pid =>
      exact Moves.ite (fun _ => Moves.bind (changeDocker_written _) fun _ => Moves.ret _)
        fun _ => Moves.ret _
  · rw [hw, JobOp.writes, if_neg hr]

theorem seed_written (hr : r.status ≠ some .running) {ts : List Target} :
    Keeps (Written spec o r) (seed spec job o r ts) := by
  unfold seed
  cases secretVolume spec job with
  | none => exact Moves.ret _
  | some v =>
    refine Moves.tryCatch ?_ fun e => Moves.bind (changeDocker_written _) fun _ =>
      Moves.bind (changeDocker_written _) fun _ => Moves.bind (writeMeta_written fun w hw =>
        Or.inr ⟨.seedFailed o.now (o.exitCode.getD 127) (allocation spec job ts), ?_, by simp⟩)
          fun _ => Moves.bind (modify_written fun _ => rfl) fun _ => ?_
    · unfold seedSecrets
      cases o.running with
      | some e => exact Moves.raise _
      | none => cases o.seeding with
        | done => exact Moves.ret _
        | exited detail => exact Moves.raise _
        | raised e => exact Moves.raise _
    · rw [hw, JobOp.writes, if_neg hr]
    · cases e <;> exact Moves.raise _

theorem proceed_written (hr : r.status ≠ some .running) :
    Keeps (Written spec o r) (proceed spec job o r) := by
  refine Moves.bind acquire_written fun ts => Moves.bind buildCommand_written fun _ =>
    Moves.bind (launch_written hr) fun pid => Moves.bind (seed_written hr) fun _ =>
      Moves.bind (writeMeta_written fun w hw => Or.inr
        ⟨.started o.now pid spec.runnerImage.val (allocation spec job ts), ?_, by simp⟩) fun _ =>
          Moves.bind (raiseIf_written _) fun _ => getJob_written
  rw [hw, JobOp.writes, if_neg hr]

/-- **What `create` does to the record is one of its three calls**, or nothing. -/
theorem create_written (spec : JobSpec) (job : Job) (o : Outcomes) (w : World) :
    Written spec o w.record (after (create spec job o) w) := by
  have hw : Written spec o w.record w := Or.inl rfl
  have hcontrol : after (loadControl job) w = w := by
    unfold loadControl
    split
    · rfl
    · rfl
    · split <;> rfl
    · rfl
  unfold create
  split
  · exact hw
  · refine after_bind (fun e t h => ?_) fun a t h => ?_
    · rw [after_of_error h] at hcontrol
      rwa [hcontrol]
    · rw [after_of_ok h] at hcontrol
      rw [hcontrol]
      show Written spec o w.record (after (if w.record.status = some .running then getJob spec job
        else do raiseIf o.config; start spec job o w.record) w)
      split
      · exact getJob_written w hw
      · rename_i hidle
        refine Moves.bind (raiseIf_written _) (fun _ => Moves.bind ?_ fun _ =>
          proceed_written hidle) w hw
        unfold createInternalNetwork
        refine Moves.bind (Moves.read _) fun _ => Moves.ite (fun _ => Moves.raise _) fun _ => ?_
        cases o.network with
        | done => exact changeDocker_written _
        | exited detail => exact Moves.raise _
        | raised e => exact Moves.raise _

end Record

end Infinito.Runner
