import Infinito.Lib.FinMap
import Infinito.Lib.Run
import Infinito.Py.Value

/-!
# Rate limit windows

A call to a limited route adds one to a counter in the table `rate_limit_events`, under its
workspace, the client's address, the route and the start of the current window, and is
refused when the counter is above the limit. Windows are aligned: they start at multiples
of their length since the epoch. A thread deletes the rows of windows that started longer
ago than four times the longer of the two window lengths.

The counter is an `INTEGER`, so it stops at 2147483647; the statement that would pass that
raises. `admits_first_calls` is the account of every run: of the calls for one row the first
pass, as many as the limit and the column allow, and the rest do not.
-/

set_option autoImplicit false

namespace Infinito.RateLimits

open Py Lib

/-! ## The configuration -/

/-- `int(t)`. A text of more than 4300 digits is a `ValueError` too. -/
def intOfText (t : Text) : Option Int :=
  let (negative, digits) := readSign (strip t)
  match readDigits digits with
  | some (value, count) =>
      if count = 0 ∨ 4300 < count then none
      else some (if negative then -(value : Int) else value)
  | none => none

/-- What `os.getenv` says. -/
abbrev Environ := Text → Option Text

/-- `_env_int`, with the minimum that every caller uses. -/
def envInt (env : Environ) (name : Text) (default : Nat) : Nat :=
  let raw := strip ((env name).getD [])
  let value := (if raw = [] then some (default : Int) else intOfText raw).getD default
  (max value 1).toNat

theorem one_le_envInt (env : Environ) (name : Text) (default : Nat) :
    1 ≤ envInt env name default := by
  unfold envInt
  dsimp only
  omega

structure RateLimitRule where
  endpoint : Text
  limit : Nat
  windowSeconds : Nat

structure RateLimitService where
  dsn : Option Text
  /-- whether the driver could be loaded -/
  psycopg : Bool
  env : Environ

/-- Who calls `_enforce_window`. -/
inductive Purpose where
  | deployment
  | testConnection
  deriving DecidableEq

namespace RateLimitService

variable (svc : RateLimitService)

def isEnabled : Bool := (truthy svc.dsn).isSome && svc.psycopg

def deploymentHourlyRule : RateLimitRule where
  endpoint := "deploy_hourly"
  limit := envInt svc.env "RATE_LIMIT_DEPLOY_PER_HOUR" 30
  windowSeconds := envInt svc.env "RATE_LIMIT_DEPLOY_WINDOW_SECONDS" 3600

def deploymentConcurrencyLimit : Nat := envInt svc.env "RATE_LIMIT_DEPLOY_CONCURRENT" 5

def testConnectionRule : RateLimitRule where
  endpoint := "test_conn_minute"
  limit := envInt svc.env "RATE_LIMIT_TEST_CONN_PER_MINUTE" 10
  windowSeconds := envInt svc.env "RATE_LIMIT_TEST_CONN_WINDOW_SECONDS" 60

def rule : Purpose → RateLimitRule
  | .deployment => svc.deploymentHourlyRule
  | .testConnection => svc.testConnectionRule

def cleanupHorizonSeconds : Nat :=
  let windowSeconds :=
    max svc.deploymentHourlyRule.windowSeconds svc.testConnectionRule.windowSeconds
  max (windowSeconds * 4) 60

theorem one_le_windowSeconds (p : Purpose) : 1 ≤ (svc.rule p).windowSeconds := by
  cases p with
  | deployment => exact one_le_envInt _ _ _
  | testConnection => exact one_le_envInt _ _ _

theorem windowSeconds_le_horizon (p : Purpose) :
    (svc.rule p).windowSeconds ≤ svc.cleanupHorizonSeconds := by
  unfold cleanupHorizonSeconds
  cases p with
  | deployment => simp only [rule]; omega
  | testConnection => simp only [rule]; omega

theorem endpoints_differ :
    svc.deploymentHourlyRule.endpoint ≠ svc.testConnectionRule.endpoint :=
  show ("deploy_hourly" : Text) ≠ "test_conn_minute" by decide

theorem endpoint_injective {p q : Purpose} (h : (svc.rule p).endpoint = (svc.rule q).endpoint) :
    p = q := by
  cases p with
  | deployment =>
    cases q with
    | deployment => rfl
    | testConnection => exact absurd h svc.endpoints_differ
  | testConnection =>
    cases q with
    | deployment => exact absurd h.symm svc.endpoints_differ
    | testConnection => rfl

end RateLimitService

/-! ## Time

The clock counts microseconds since the epoch, as `datetime` does. -/

def second : Nat := 1000000

/-- `_window_start`, in seconds. -/
def windowStart (now windowSeconds : Nat) : Nat :=
  let epochSeconds := now / second
  epochSeconds - epochSeconds % max windowSeconds 1

/-- A window is still open at a time that falls into it. -/
theorem lt_windowStart_add (now : Nat) {windowSeconds : Nat} (h : 1 ≤ windowSeconds) :
    now < (windowStart now windowSeconds + windowSeconds) * second := by
  have hmax : max windowSeconds 1 = windowSeconds := by omega
  have hmod : now / second % windowSeconds < windowSeconds := Nat.mod_lt _ h
  have hle : now / second % windowSeconds ≤ now / second := Nat.mod_le _ _
  have hlt : now / second < windowStart now windowSeconds + windowSeconds := by
    unfold windowStart
    simp only [hmax]
    omega
  exact (Nat.div_lt_iff_lt_mul (by decide)).mp hlt

/-- The first instant a `datetime` can hold, before the epoch. -/
def datetimeMin : Int := -62135596800 * second

/-! ## The table -/

/-- The primary key of `rate_limit_events`. -/
structure RowKey where
  workspaceId : Text
  clientIp : Text
  endpoint : Text
  windowStart : Nat
  deriving DecidableEq

/-- `rate_limit_events`: the counts by key. -/
abbrev Rows := FinMap RowKey Nat

/-- The largest value of an `INTEGER` column. -/
def maxInteger : Nat := 2147483647

/-- The upsert of `_increment_counter`; none where the count is out of the column's range,
    which leaves the row as it is. -/
def incrementCounter (k : RowKey) (rows : Rows) : Option (Nat × Rows) :=
  let count := (rows.get k).elim 1 (· + 1)
  if maxInteger < count then none else some (count, rows.set k count)

/-- The rows left by `DELETE ... WHERE window_start < cutoff`. -/
def deleteBefore (cutoff : Int) (rows : Rows) : Rows :=
  rows.restrict fun k => !decide ((k.windowStart * second : Int) < cutoff)

structure Request where
  forwardedFor : Option Text
  clientHost : Option Text

/-- The text before the first comma. -/
def firstPart (t : Text) : Text := t.takeWhile (· ≠ ',')

def canonicalClientIp (request : Request) : Text :=
  let forwarded := strip (request.forwardedFor.getD [])
  let first := strip (firstPart forwarded)
  if forwarded ≠ [] ∧ first ≠ [] then first
  else (truthy request.clientHost).getD "unknown"

/-- How a call to `_enforce_window` ends. -/
inductive Answer where
  | passed
  | refused (e : HttpError)
  /-- the database raised -/
  | outOfRange
  deriving DecidableEq

def Answer.admits (a : Answer) : Bool := decide (a = .passed)

def limitExceeded : HttpError := ⟨429, "rate limit exceeded"⟩

namespace RateLimitService

variable (svc : RateLimitService)

def rowKey (p : Purpose) (request : Request) (workspaceId : Text) (now : Nat) : RowKey where
  workspaceId := workspaceId
  clientIp := canonicalClientIp request
  endpoint := (svc.rule p).endpoint
  windowStart := RateLimits.windowStart now (svc.rule p).windowSeconds

def enforceWindow (p : Purpose) (request : Request) (workspaceId : Text) (now : Nat)
    (rows : Rows) : Answer × Rows :=
  if svc.isEnabled = false then (.passed, rows)
  else match incrementCounter (svc.rowKey p request workspaceId now) rows with
    | none => (.outOfRange, rows)
    | some (count, rows) =>
        (if count > (svc.rule p).limit then .refused limitExceeded else .passed, rows)

def cutoff (now : Nat) : Int := now - svc.cleanupHorizonSeconds * second

/-- `cleanup_expired_entries`; a cutoff before the first `datetime` raises. -/
def cleanupExpiredEntries (now : Nat) (rows : Rows) : Rows :=
  if svc.isEnabled = false ∨ svc.cutoff now < datetimeMin then rows
  else deleteBefore (svc.cutoff now) rows

/-- A row that a call may still be counted in is not old enough to go. -/
theorem cleanup_keeps_open (rows : Rows) {now later : Nat} (h : now ≤ later) (p : Purpose)
    (request : Request) (workspaceId : Text) :
    (svc.cleanupExpiredEntries now rows).get (svc.rowKey p request workspaceId later) =
      rows.get (svc.rowKey p request workspaceId later) := by
  have hopen := lt_windowStart_add later (svc.one_le_windowSeconds p)
  have hhorizon := Nat.mul_le_mul_right second (svc.windowSeconds_le_horizon p)
  have hkept : ¬ ((svc.rowKey p request workspaceId later).windowStart * second : Int) <
      svc.cutoff now := by
    rw [Nat.add_mul] at hopen
    simp only [rowKey, cutoff]
    omega
  unfold cleanupExpiredEntries
  split
  · rfl
  · simp only [deleteBefore, FinMap.get_restrict, hkept, decide_false, Bool.not_false, if_true]

end RateLimitService

/-! ## Runs -/

inductive Act where
  | enforce (p : Purpose) (request : Request) (workspaceId : Text) (now : Nat)
  | cleanup (now : Nat)

def Act.time : Act → Nat
  | .enforce _ _ _ now => now
  | .cleanup now => now

/-- The table, the time of the last action, and the calls made so far with their answers. -/
structure State where
  rows : Rows
  clock : Nat
  calls : List (RowKey × Answer)

def State.init : State := ⟨.empty, 0, []⟩

namespace RateLimitService

variable (svc : RateLimitService)

def perform (s : State) : Act → State
  | .enforce p request workspaceId now =>
      let (answer, rows) := svc.enforceWindow p request workspaceId now s.rows
      ⟨rows, now, s.calls ++ [(svc.rowKey p request workspaceId now, answer)]⟩
  | .cleanup now => { s with rows := svc.cleanupExpiredEntries now s.rows, clock := now }

/-- Time does not run backwards. -/
def step (s : State) (a : Act) : Option State :=
  if a.time < s.clock then none else some (svc.perform s a)

def isCallFor (k : RowKey) : Act → Bool
  | .enforce p request workspaceId now => decide (svc.rowKey p request workspaceId now = k)
  | .cleanup _ => false

end RateLimitService

/-- The answers to the calls for one row, in order: which of them passed. -/
def admissions (k : RowKey) (calls : List (RowKey × Answer)) : List Bool :=
  (calls.filter fun c => decide (c.1 = k)).map fun c => c.2.admits

/-- The first `limit` of `n` calls. -/
def firstCalls (n limit : Nat) : List Bool := (List.range n).map fun i => decide (i < limit)

/-! ## What the table knows -/

def made (k : RowKey) (calls : List (RowKey × Answer)) : Nat :=
  (calls.filter fun c => decide (c.1 = k)).length

@[simp] theorem made_append_self (k : RowKey) (calls : List (RowKey × Answer)) (a : Answer) :
    made k (calls ++ [(k, a)]) = made k calls + 1 := by
  simp [made]

@[simp] theorem admissions_append_self (k : RowKey) (calls : List (RowKey × Answer))
    (a : Answer) : admissions k (calls ++ [(k, a)]) = admissions k calls ++ [a.admits] := by
  simp [admissions]

theorem made_append_of_ne {k k' : RowKey} (h : k' ≠ k) (calls : List (RowKey × Answer))
    (a : Answer) : made k (calls ++ [(k', a)]) = made k calls := by
  simp [made, h]

theorem admissions_append_of_ne {k k' : RowKey} (h : k' ≠ k) (calls : List (RowKey × Answer))
    (a : Answer) : admissions k (calls ++ [(k', a)]) = admissions k calls := by
  simp [admissions, h]

theorem firstCalls_succ (n limit : Nat) :
    firstCalls (n + 1) limit = firstCalls n limit ++ [decide (n < limit)] := by
  simp [firstCalls, List.range_succ]

/-- What the row of an open window holds after `n` calls. -/
def stored (n : Nat) : Option Nat := if n = 0 then none else some (min n maxInteger)

theorem incrementCounter_of_lt {k : RowKey} {rows : Rows} {n : Nat}
    (hrow : rows.get k = stored n) (hn : n < maxInteger) :
    incrementCounter k rows = some (n + 1, rows.set k (n + 1)) := by
  have hcount : (rows.get k).elim 1 (· + 1) = n + 1 := by
    rw [hrow, stored]
    split
    · simp [*]
    · simp only [Option.elim_some]
      omega
  unfold incrementCounter
  simp only [hcount]
  rw [if_neg (by omega)]

theorem incrementCounter_of_ge {k : RowKey} {rows : Rows} {n : Nat}
    (hrow : rows.get k = stored n) (hn : maxInteger ≤ n) : incrementCounter k rows = none := by
  have hcount : (rows.get k).elim 1 (· + 1) = maxInteger + 1 := by
    have hne : n ≠ 0 := by
      have : 0 < maxInteger := by decide
      omega
    rw [hrow, stored, if_neg hne, Option.elim_some, Nat.min_eq_right hn]
  unfold incrementCounter
  simp only [hcount]
  rw [if_pos (by omega)]

/-- What is so of the answers and of the rows that calls can still come for. -/
structure Counted (svc : RateLimitService) (s : State) : Prop where
  open_rows : ∀ p request workspaceId later, s.clock ≤ later →
    s.rows.get (svc.rowKey p request workspaceId later) =
      stored (made (svc.rowKey p request workspaceId later) s.calls)
  answers : ∀ p workspaceId clientIp start,
    admissions ⟨workspaceId, clientIp, (svc.rule p).endpoint, start⟩ s.calls =
      firstCalls (made ⟨workspaceId, clientIp, (svc.rule p).endpoint, start⟩ s.calls)
        (min (svc.rule p).limit maxInteger)

namespace RateLimitService

variable {svc : RateLimitService}

theorem counted_init : Counted svc .init where
  open_rows _ _ _ _ _ := rfl
  answers _ _ _ _ := rfl

/-- One call: whether it passes, and what it leaves in its row and in the others. -/
theorem enforceWindow_spec (hen : svc.isEnabled = true) {p : Purpose} {request : Request}
    {workspaceId : Text} {now n : Nat} {rows : Rows}
    (hrow : rows.get (svc.rowKey p request workspaceId now) = stored n) :
    (svc.enforceWindow p request workspaceId now rows).1.admits =
        decide (n < min (svc.rule p).limit maxInteger) ∧
      (svc.enforceWindow p request workspaceId now rows).2.get
        (svc.rowKey p request workspaceId now) = stored (n + 1) ∧
      ∀ k, k ≠ svc.rowKey p request workspaceId now →
        (svc.enforceWindow p request workspaceId now rows).2.get k = rows.get k := by
  unfold enforceWindow
  rw [if_neg (by simp [hen])]
  by_cases hn : n < maxInteger
  · rw [incrementCounter_of_lt hrow hn]
    refine ⟨?_, ?_, fun k hk => ?_⟩
    · by_cases hlimit : n + 1 > (svc.rule p).limit
      · have : ¬ n < min (svc.rule p).limit maxInteger := by omega
        simp [hlimit, this, Answer.admits]
      · have : n < min (svc.rule p).limit maxInteger := by omega
        simp only [if_neg hlimit, this, Answer.admits, decide_true]
    · simp only [FinMap.get_set, if_true, stored, Nat.succ_ne_zero, if_false]
      rw [Nat.min_eq_left (by omega)]
    · rw [FinMap.get_set, if_neg hk]
  · rw [incrementCounter_of_ge hrow (by omega)]
    have hlimit : ¬ n < min (svc.rule p).limit maxInteger := by omega
    refine ⟨by simp [hlimit, Answer.admits], ?_, fun k _ => rfl⟩
    have hne : n ≠ 0 := by
      have : 0 < maxInteger := by decide
      omega
    simp only [hrow, stored, hne, Nat.succ_ne_zero, if_false]
    congr 1
    omega

theorem counted_step (hen : svc.isEnabled = true) (s : State) (a : Act) (s' : State)
    (hs : Counted svc s) (hstep : svc.step s a = some s') : Counted svc s' := by
  unfold step at hstep
  split at hstep
  · cases hstep
  rename_i htime
  rw [Option.some.injEq] at hstep
  subst hstep
  rw [Nat.not_lt] at htime
  cases a with
  | cleanup now =>
    refine ⟨fun p request workspaceId later hlater => ?_, hs.answers⟩
    have hrow := hs.open_rows p request workspaceId later (Nat.le_trans htime hlater)
    exact (svc.cleanup_keeps_open s.rows hlater p request workspaceId).trans hrow
  | enforce p request workspaceId now =>
    obtain ⟨hadmits, hself, hothers⟩ :=
      enforceWindow_spec hen (hs.open_rows p request workspaceId now htime)
    refine ⟨fun q other w later hlater => ?_, fun q w ip start => ?_⟩
    · have hrow := hs.open_rows q other w later (Nat.le_trans htime hlater)
      by_cases hk : svc.rowKey q other w later = svc.rowKey p request workspaceId now
      · rw [hk]
        simpa only [perform, made_append_self] using hself
      · simp only [perform, made_append_of_ne (Ne.symm hk), hothers _ hk]
        exact hrow
    · have hbefore := hs.answers q w ip start
      by_cases hk : svc.rowKey p request workspaceId now = ⟨w, ip, (svc.rule q).endpoint, start⟩
      · -- The row says which of the two rules the call was made under.
        have hpq : p = q := svc.endpoint_injective (congrArg RowKey.endpoint hk)
        subst hpq
        rw [← hk] at hbefore ⊢
        simp only [perform, admissions_append_self, made_append_self, firstCalls_succ]
        rw [hbefore, hadmits]
      · simp only [perform, admissions_append_of_ne hk, made_append_of_ne hk]
        exact hbefore

/-- The log has the calls of the run and no others. -/
theorem made_of_run {acts : List Act} {s t : State} (hrun : run svc.step s acts = some t)
    (k : RowKey) : made k t.calls = made k s.calls + acts.countP (svc.isCallFor k) := by
  induction acts generalizing s with
  | nil =>
    rw [run_nil, Option.some.injEq] at hrun
    simp [hrun]
  | cons a acts ih =>
    obtain ⟨s', hs', hrest⟩ := run_cons_eq_some.mp hrun
    have hone : made k s'.calls = made k s.calls + if svc.isCallFor k a then 1 else 0 := by
      unfold step at hs'
      split at hs'
      · cases hs'
      rw [Option.some.injEq] at hs'
      subst hs'
      cases a with
      | cleanup now => simp [perform, isCallFor]
      | enforce p request workspaceId now =>
        by_cases hk : svc.rowKey p request workspaceId now = k
        · subst hk
          simp [perform, isCallFor]
        · simp [perform, isCallFor, hk, made_append_of_ne hk]
    rw [ih hrest, hone, List.countP_cons]
    omega

/-- The answers of a run, for one row. -/
theorem admissions_of_run (hen : svc.isEnabled = true) {acts : List Act} {s : State}
    (hrun : run svc.step .init acts = some s) (p : Purpose)
    (workspaceId clientIp : Text) (start : Nat) :
    let k : RowKey := ⟨workspaceId, clientIp, (svc.rule p).endpoint, start⟩
    admissions k s.calls =
      firstCalls (acts.countP (svc.isCallFor k)) (min (svc.rule p).limit maxInteger) := by
  intro k
  have hcounted : Counted svc s := run_inv (counted_step hen) counted_init hrun
  have hmade : made k s.calls = acts.countP (svc.isCallFor k) := by
    rw [made_of_run hrun k]
    exact Nat.zero_add _
  rw [hcounted.answers, hmade]

/-- A call can be repeated as often as one likes. -/
theorem run_replicate (svc : RateLimitService) (a : Act) (n : Nat) {s : State}
    (hs : s.clock ≤ a.time) : ∃ t, run svc.step s (List.replicate n a) = some t := by
  induction n generalizing s with
  | zero => exact ⟨s, rfl⟩
  | succ n ih =>
    have hstep : svc.step s a = some (svc.perform s a) := if_neg (Nat.not_lt.mpr hs)
    have hclock : (svc.perform s a).clock ≤ a.time := by
      cases a <;> exact Nat.le_refl _
    obtain ⟨t, ht⟩ := ih hclock
    exact ⟨t, run_cons_eq_some.mpr ⟨_, hstep, ht⟩⟩

end RateLimitService

/-- **Windows count exactly.** Of the calls a run makes for one row, the first pass, as many
    as the limit and the counter's column allow; calls for other rows do not enter into it.
    And no cleanup deletes a row that a later call is counted in. -/
theorem admits_first_calls (svc : RateLimitService) (hen : svc.isEnabled = true)
    {acts : List Act} {s : State} (hrun : run svc.step .init acts = some s) :
    (∀ p workspaceId clientIp start,
      let k : RowKey := ⟨workspaceId, clientIp, (svc.rule p).endpoint, start⟩
      admissions k s.calls =
        firstCalls (acts.countP (svc.isCallFor k)) (min (svc.rule p).limit maxInteger)) ∧
    ∀ now s', svc.step s (.cleanup now) = some s' → ∀ p request workspaceId later, now ≤ later →
      s'.rows.get (svc.rowKey p request workspaceId later) =
        s.rows.get (svc.rowKey p request workspaceId later) := by
  refine ⟨RateLimitService.admissions_of_run hen hrun,
    fun now s' hstep p request workspaceId later hlater => ?_⟩
  unfold RateLimitService.step at hstep
  split at hstep
  · cases hstep
  · rw [Option.some.injEq] at hstep
    subst hstep
    exact svc.cleanup_keeps_open s.rows hlater p request workspaceId

/-! ## Runs on fixed inputs -/

/-- A service with one variable set. -/
def configured (dsn : Option Text) (name value : Text) : RateLimitService where
  dsn := dsn
  psycopg := true
  env := fun n => if n = name then some value else none

def database : Option Text := some "postgresql://db:5432/api"

def deployAt (now : Nat) : Act := .enforce .deployment ⟨some "203.0.113.7, 10.0.0.1", none⟩ "w" now

def testAt (now : Nat) : Act := .enforce .testConnection ⟨some "203.0.113.7", none⟩ "w" now

def deployRow (start : Nat) : RowKey := ⟨"w", "203.0.113.7", "deploy_hourly", start⟩

/-- Two a day; the third call of the first day is refused, the day after all is well. -/
theorem admits_first_calls_days :
    let svc := configured database "RATE_LIMIT_DEPLOY_PER_HOUR" " 2 "
    let acts := [deployAt 0, testAt 1, deployAt 5, .cleanup 6, deployAt 7, deployAt (3600 * second)]
    ∃ s, run svc.step .init acts = some s ∧
      admissions (deployRow 0) s.calls = [true, true, false] ∧
      admissions (deployRow 3600) s.calls = [true] := by
  intro svc acts
  have hruns : (run svc.step .init acts).isSome = true := by decide +kernel
  obtain ⟨s, hrun⟩ := Option.isSome_iff_exists.mp hruns
  have hcounts := (admits_first_calls svc rfl hrun).1 .deployment "w" "203.0.113.7"
  exact ⟨_, hrun, (hcounts 0).trans (by decide +kernel), (hcounts 3600).trans (by decide +kernel)⟩

theorem firstCalls_ne {n limit limit' : Nat} (hn : limit < n) (h : limit < limit') :
    firstCalls n limit ≠ firstCalls n limit' := by
  intro heq
  have hat := congrArg (fun l => l[limit]?) heq
  simp [firstCalls, hn, h] at hat

/-- Without a database nothing is refused; and with a limit above the column's range the
    call that takes the counter out of it is not admitted, however high the limit. -/
theorem limit_not_exact :
    (let svc := configured none "RATE_LIMIT_DEPLOY_PER_HOUR" "1"
      let acts := [deployAt 0, deployAt 0]
      ∃ s, run svc.step .init acts = some s ∧
        admissions (deployRow 0) s.calls ≠
          firstCalls (acts.countP (svc.isCallFor (deployRow 0))) (svc.rule .deployment).limit) ∧
    (let svc := configured database "RATE_LIMIT_DEPLOY_PER_HOUR" "4294967296"
      let acts := List.replicate (maxInteger + 1) (deployAt 0)
      svc.isEnabled = true ∧ ∃ s, run svc.step .init acts = some s ∧
        admissions (deployRow 0) s.calls ≠
          firstCalls (acts.countP (svc.isCallFor (deployRow 0))) (svc.rule .deployment).limit) := by
  refine ⟨⟨_, rfl, by decide +kernel⟩, by decide, ?_⟩
  have hlimit : ((configured database "RATE_LIMIT_DEPLOY_PER_HOUR" "4294967296").rule
      .deployment).limit = 4294967296 := by decide +kernel
  generalize hsvc : configured database "RATE_LIMIT_DEPLOY_PER_HOUR" "4294967296" = svc at hlimit ⊢
  have hen : svc.isEnabled = true := by rw [← hsvc]; decide
  have hfor : svc.isCallFor (deployRow 0) (deployAt 0) = true := by rw [← hsvc]; decide +kernel
  obtain ⟨s, hs⟩ := svc.run_replicate (deployAt 0) (maxInteger + 1) (s := .init) (Nat.le_refl 0)
  refine ⟨s, hs, ?_⟩
  have hcounts := RateLimitService.admissions_of_run hen hs .deployment "w" "203.0.113.7" 0
  have hmin : min (svc.rule .deployment).limit maxInteger = maxInteger := by
    rw [hlimit]; decide
  have hn : (List.replicate (maxInteger + 1) (deployAt 0)).countP (svc.isCallFor (deployRow 0)) =
      maxInteger + 1 := by
    rw [List.countP_replicate, if_pos hfor]
  rw [show deployRow 0 = ⟨"w", "203.0.113.7", (svc.rule .deployment).endpoint, 0⟩ from rfl] at hn ⊢
  rw [hcounts, hn, hmin, hlimit]
  exact firstCalls_ne (Nat.lt_succ_self _) (by decide)

end Infinito.RateLimits
