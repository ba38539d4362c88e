import Infinito.Jobs.Mask
import Infinito.Lib.Relay
import Infinito.Pricing.Schema
import Infinito.RateLimits.Windows
import Mathlib.Logic.Function.Basic

/-!
# The audit log

A request leaves an event when it is answered, if the configuration of its workspace says so. The
configuration is read from the database once, and then from a cache that has no end; the event goes
into a queue, and from there, or past it when it is full, into the table. A thread deletes the rows
that are older than their workspace keeps them.

`events_accounted` is the account of the events of a run: each is in one place, and the clean-up
deletes no row that is young enough. `cache_right_iff` says when the cache shows the configuration
that is in the table: as long as no call puts a configuration into it that another one has replaced.
-/

set_option autoImplicit false

namespace Infinito.Audit

open Py Lib
open Function (update update_self update_of_ne)
open Jobs (SetOrder maskSecrets)
open Pricing (upper)
open RateLimits (canonicalClientIp second)

/-! ## Events -/

def DEFAULT_RETENTION_DAYS : Int := 180

def DEFAULT_LOG_MODE : Text := "all"

def GLOBAL_WORKSPACE_ID : Text := "__global__"

def HEALTH_PATHS : List Text := ["/health", "/api/health"]

def AUTH_PATH_TOKENS : List Text := ["/auth", "/session", "/login", "/logout", "/oauth2"]

/-- `trim` -/
def trim (value : Option Text) : Text := strip (value.getD [])

def storageWorkspaceId (value : Option Text) : Text :=
  (orNone (trim value)).getD GLOBAL_WORKSPACE_ID

def publicWorkspaceId (value : Option Text) : Option Text :=
  let normalized := trim value
  if normalized = [] ∨ normalized = GLOBAL_WORKSPACE_ID then none else some normalized

variable (so : SetOrder)

def maskAuditText (value : Option Text) : Option Text :=
  let text := trim value
  if text = [] then none else orNone (strip (maskSecrets so text []))

/-- What is read of a request: `state.audit_workspace_id`, the method and the path, who sent it,
    and the headers. -/
structure Request extends RateLimits.Request where
  auditWorkspaceId : Option Text
  method : Text
  path : Text
  userId : Option Text
  email : Option Text
  xRequestId : Option Text
  xCorrelationId : Option Text
  userAgent : Option Text

def actorIdentity (request : Request) : Text :=
  (orNone (trim request.userId)).getD ((orNone (trim request.email)).getD "anonymous")

def requestIdFromHeaders (request : Request) : Option Text :=
  (orNone (trim request.xRequestId)).or (orNone (trim request.xCorrelationId))

/-- An event; its time is in microseconds. -/
structure Event where
  timestamp : Int
  workspaceId : Option Text
  actor : Text
  method : Text
  path : Text
  status : Int
  durationMs : Int
  clientIp : Text
  requestId : Option Text
  userAgent : Option Text
  deriving DecidableEq

structure AuditLogConfig where
  workspaceId : Text
  retentionDays : Int
  mode : Text
  excludeHealthEndpoints : Bool
  deriving DecidableEq

/-- The configuration of a workspace that has none. -/
def AuditLogConfig.default (workspaceId : Text) : AuditLogConfig :=
  ⟨workspaceId, DEFAULT_RETENTION_DAYS, DEFAULT_LOG_MODE, false⟩

def WRITE_METHODS : List Text := ["POST", "PUT", "PATCH", "DELETE"]

/-- `should_log_event`, by the configuration it gets. -/
def shouldLogEvent (config : AuditLogConfig) (method path : Text) (status : Int) : Bool :=
  let normalizedPath := (orNone (strip path)).getD "/"
  let normalizedMethod := upper ((orNone (strip method)).getD "GET")
  if config.excludeHealthEndpoints && decide (normalizedPath ∈ HEALTH_PATHS) then false
  else
    let mode := (orNone config.mode).getD DEFAULT_LOG_MODE
    if mode = "all".toList then true
    else if mode = "writes-only".toList then decide (normalizedMethod ∈ WRITE_METHODS)
    else if mode = "auth-only".toList then AUTH_PATH_TOKENS.any fun token => decide (token <:+: normalizedPath)
    else if mode = "deployment-only".toList then ("/api/deployments" : Text).isPrefixOf normalizedPath
    else if mode = "errors-only".toList then decide (400 ≤ status)
    else true

/-- `build_event`, by the configuration of the workspace. -/
def buildEvent (config : AuditLogConfig) (request : Request) (status durationMs now : Int) :
    Option Event :=
  let path := (orNone (strip request.path)).getD "/"
  let method := upper ((orNone (strip request.method)).getD "GET")
  if shouldLogEvent config method path status then some {
    timestamp := now
    workspaceId := orNone (trim request.auditWorkspaceId)
    actor := (maskAuditText so (some (actorIdentity request))).getD "anonymous"
    method := method
    path := path
    status := status
    durationMs := max durationMs 0
    clientIp := canonicalClientIp request.toRequest
    requestId := maskAuditText so (requestIdFromHeaders request)
    userAgent := maskAuditText so (orNone (trim request.userAgent)) }
  else none

/-- The event of `enqueue_system_event`. -/
def systemEvent (path : Text) (workspaceId : Option Text) (status : Int) (actor clientIp : Text)
    (durationMs : Int) (requestId userAgent : Option Text) (now : Int) : Event where
  timestamp := now
  workspaceId := some (storageWorkspaceId workspaceId)
  actor := (orNone (strip actor)).getD "runner-manager"
  method := "SYSTEM"
  path := (orNone (strip path)).getD "/internal/system"
  status := status
  durationMs := max durationMs 0
  clientIp := (orNone (strip clientIp)).getD "runner-manager"
  requestId := maskAuditText so requestId
  userAgent := maskAuditText so userAgent

/-! ## The service -/

/-- A row of `audit_log_config`. -/
structure ConfigRow where
  retentionDays : Int
  mode : Text
  excludeHealthEndpoints : Bool
  deriving DecidableEq

/-- The configuration that `get_config` makes of a row, or of none. -/
def configOf (workspaceId : Text) : Option ConfigRow → AuditLogConfig
  | none => .default workspaceId
  | some row => {
      workspaceId := workspaceId
      retentionDays := max (if row.retentionDays = 0 then DEFAULT_RETENTION_DAYS else row.retentionDays) 1
      mode := (orNone (strip row.mode)).getD DEFAULT_LOG_MODE
      excludeHealthEndpoints := row.excludeHealthEndpoints }

def ALLOWED_MODES : List Text :=
  ["all", "writes-only", "auth-only", "deployment-only", "errors-only"]

/-- What a configuration is read for: to be shown, or for the event of a request. -/
inductive Purpose where
  | show (workspaceId : Text)
  | log (request : Request) (status durationMs : Int)

def Purpose.workspaceId : Purpose → Text
  | .show workspaceId => strip workspaceId
  | .log request _ _ => trim request.auditWorkspaceId

/-- A call that is under way: it has not found its workspace in the cache, or it has what it is
    going to put there, from the table or to which it has updated the table. -/
inductive Call where
  | missed (purpose : Purpose)
  | found (config : AuditLogConfig) (purpose : Purpose)
  | updated (workspaceId : Text) (config : AuditLogConfig)

/-- What a call is going to put into the cache. -/
def Call.puts : Call → Option (Text × AuditLogConfig)
  | .missed _ => none
  | .found config purpose => some (purpose.workspaceId, config)
  | .updated workspaceId config => some (workspaceId, config)

structure Service where
  configs : Text → Option ConfigRow
  cache : Text → Option AuditLogConfig
  calls : Nat → Option Call
  relay : Relay.State Event

/-- `self._queue` and the batches of `_worker_loop`. -/
def QUEUE_SIZE : Nat := 4096

def BATCH_SIZE : Nat := 64

def day : Int := 86400 * second

/-- The workspace that a row is stored under. -/
def workspaceOf (r : Relay.Row Event) : Text := storageWorkspaceId r.entry.value.workspaceId

/-- The condition of the `DELETE` in `cleanup_expired_entries`. -/
def expired (configs : Text → Option ConfigRow) (now : Int) (r : Relay.Row Event) : Bool :=
  r.entry.value.timestamp <
    now - ((configs (workspaceOf r)).elim DEFAULT_RETENTION_DAYS ConfigRow.retentionDays) * day

inductive Act where
  /-- a request is answered, or a configuration asked for -/
  | getConfig (c : Nat) (purpose : Purpose) (now : Int)
  /-- the `SELECT` of a call -/
  | read (c : Nat)
  /-- a call puts what it has into the cache, and returns -/
  | keep (c : Nat) (now : Int)
  /-- `update_config`, up to the `commit` -/
  | updateConfig (c : Nat) (workspaceId : Text) (retentionDays : Int) (mode : Text)
      (excludeHealthEndpoints : Bool)
  | enqueueSystemEvent (path : Text) (workspaceId : Option Text) (status : Int)
      (actor clientIp : Text) (durationMs : Int) (requestId userAgent : Option Text) (now : Int)
  /-- the worker takes an event, or writes its batch -/
  | take
  | submit
  /-- a transaction inserts a row, commits, or raises -/
  | insert (i : Nat)
  | commit (i : Nat)
  | abort (i : Nat)
  | cleanup (now : Int)

namespace Service

def init (configs : Text → Option ConfigRow) : Service where
  configs := configs
  cache _ := none
  calls _ := none
  relay := Relay.init

def relayed (s : Service) (a : Relay.Act Event) : Option Service :=
  (Relay.step QUEUE_SIZE BATCH_SIZE s.relay a).map fun relay => { s with relay := relay }

/-- What is done with a configuration. -/
def answer (s : Service) (config : AuditLogConfig) (now : Int) : Purpose → Option Service
  | .show _ => some s
  | .log request status durationMs => match buildEvent so config request status durationMs now with
    | none => some s
    | some event => s.relayed (.put event)

def step (s : Service) : Act → Option Service
  | .getConfig c purpose now => match s.calls c with
    | some _ => none
    | none =>
      let key := purpose.workspaceId
      -- without a workspace an event goes by the defaults, and to show them is refused
      if key = [] then s.answer so (.default key) now purpose
      else match s.cache key with
        | some config => s.answer so config now purpose
        | none => some { s with calls := update s.calls c (some (.missed purpose)) }
  | .read c => match s.calls c with
    | some (.missed purpose) =>
      let key := purpose.workspaceId
      some { s with calls := update s.calls c (some (.found (configOf key (s.configs key)) purpose)) }
    | _ => none
  | .keep c now => match s.calls c with
    | some (.found config purpose) =>
      { s with
        cache := update s.cache purpose.workspaceId (some config)
        calls := update s.calls c none }.answer so config now purpose
    | some (.updated key config) =>
      some { s with cache := update s.cache key (some config), calls := update s.calls c none }
    | _ => none
  | .updateConfig c workspaceId retentionDays mode exclude => match s.calls c with
    | some _ => none
    | none =>
      let key := strip workspaceId
      if key = [] ∨ retentionDays < 1 ∨ mode ∉ ALLOWED_MODES then some s
      else
        let row : ConfigRow := ⟨retentionDays, mode, exclude⟩
        let config : AuditLogConfig := ⟨key, if row.retentionDays = 0 then retentionDays else
          row.retentionDays, (orNone (strip row.mode)).getD mode, row.excludeHealthEndpoints⟩
        some { s with
          configs := update s.configs key (some row)
          calls := update s.calls c (some (.updated key config)) }
  | .enqueueSystemEvent path workspaceId status actor clientIp durationMs requestId userAgent now =>
      s.relayed (.put (systemEvent so path workspaceId status actor clientIp durationMs requestId
        userAgent now))
  | .take => s.relayed .take
  | .submit => s.relayed .submit
  | .insert i => s.relayed (.insert i)
  | .commit i => s.relayed (.commit i)
  | .abort i => s.relayed (.abort i)
  | .cleanup now => s.relayed (.forget (expired s.configs now))

end Service

/-! ## What a step does -/

namespace Service

variable {so : SetOrder} {s s' : Service} {a : Act}

theorem relayed_spec {act : Relay.Act Event} (h : s.relayed act = some s') :
    ∃ relay, Relay.step QUEUE_SIZE BATCH_SIZE s.relay act = some relay ∧
      s' = { s with relay := relay } := by
  obtain ⟨relay, hrelay, rfl⟩ := Option.map_eq_some_iff.mp h
  exact ⟨relay, hrelay, rfl⟩

/-- An answer leaves an event in the queue at most. -/
theorem answer_spec {config : AuditLogConfig} {now : Int} {purpose : Purpose}
    (h : s.answer so config now purpose = some s') : s' = s ∨ ∃ event relay,
      Relay.step QUEUE_SIZE BATCH_SIZE s.relay (.put event) = some relay ∧
      s' = { s with relay := relay } := by
  cases purpose with
  | «show» workspaceId => exact Or.inl (Option.some.inj h).symm
  | log request status durationMs =>
    unfold answer at h
    dsimp only at h
    split at h
    · exact Or.inl (Option.some.inj h).symm
    · next event _ =>
      obtain ⟨relay, hrelay, rfl⟩ := relayed_spec h
      exact Or.inr ⟨event, relay, hrelay, rfl⟩

/-- A step on the side of the events. -/
theorem step_relay (h : s.step so a = some s') : s'.relay = s.relay ∨ ∃ act,
    Relay.step QUEUE_SIZE BATCH_SIZE s.relay act = some s'.relay ∧
      ∀ p, act = .forget p → ∃ now, a = .cleanup now ∧ p = expired s.configs now := by
  have hput {u : Service} {config : AuditLogConfig} {now : Int} {purpose : Purpose}
      (hu : u.relay = s.relay) (h : u.answer so config now purpose = some s') :
      s'.relay = s.relay ∨ ∃ act, Relay.step QUEUE_SIZE BATCH_SIZE s.relay act = some s'.relay ∧
        ∀ p, act = .forget p → ∃ now, a = .cleanup now ∧ p = expired s.configs now := by
    rcases answer_spec h with rfl | ⟨event, relay, hrelay, rfl⟩
    · exact Or.inl hu
    · exact Or.inr ⟨.put event, hu ▸ hrelay, nofun⟩
  have hrelayed {act : Relay.Act Event} (h : s.relayed act = some s')
      (hforget : ∀ p, act = .forget p → ∃ now, a = .cleanup now ∧ p = expired s.configs now) :
      s'.relay = s.relay ∨ ∃ act, Relay.step QUEUE_SIZE BATCH_SIZE s.relay act = some s'.relay ∧
        ∀ p, act = .forget p → ∃ now, a = .cleanup now ∧ p = expired s.configs now := by
    obtain ⟨relay, hrelay, rfl⟩ := relayed_spec h
    exact Or.inr ⟨act, hrelay, hforget⟩
  cases a with
  | getConfig c purpose now =>
    cases hc : s.calls c with
    | some call => simp [step, hc] at h
    | none =>
      simp only [step, hc] at h
      split at h
      · exact hput rfl h
      · split at h
        · exact hput rfl h
        · exact Or.inl (by rw [← Option.some.inj h])
  | read c =>
    rcases hc : s.calls c with _ | purpose | ⟨config, purpose⟩ | ⟨key, config⟩
    · simp [step, hc] at h
    · simp only [step, hc, Option.some.injEq] at h
      exact Or.inl (by rw [← h])
    · simp [step, hc] at h
    · simp [step, hc] at h
  | keep c now =>
    rcases hc : s.calls c with _ | purpose | ⟨config, purpose⟩ | ⟨key, config⟩
    · simp [step, hc] at h
    · simp [step, hc] at h
    · simp only [step, hc] at h
      exact hput (u := { s with
        cache := update s.cache purpose.workspaceId (some config), calls := update s.calls c none }) rfl h
    · simp only [step, hc, Option.some.injEq] at h
      exact Or.inl (by rw [← h])
  | updateConfig c workspaceId retentionDays mode exclude =>
    cases hc : s.calls c with
    | some call => simp [step, hc] at h
    | none =>
      simp only [step, hc] at h
      split at h
      · exact Or.inl (by rw [← Option.some.inj h])
      · exact Or.inl (by rw [← Option.some.inj h])
  | enqueueSystemEvent => exact hrelayed h nofun
  | take => exact hrelayed h nofun
  | submit => exact hrelayed h nofun
  | insert i => exact hrelayed h nofun
  | commit i => exact hrelayed h nofun
  | abort i => exact hrelayed h nofun
  | cleanup now =>
    refine hrelayed h fun p hp => ⟨now, rfl, ?_⟩
    cases hp
    rfl

/-- A call is going to put this into the cache. -/
def Holds (s : Service) (c : Nat) (workspaceId : Text) (config : AuditLogConfig) : Prop :=
  ∃ call, s.calls c = some call ∧ call.puts = some (workspaceId, config)

/-- An update of the workspace is under way: it is in the table, and not yet in the cache. -/
def Updating (s : Service) (c : Nat) (workspaceId : Text) : Prop :=
  ∃ config, s.calls c = some (.updated workspaceId config)

/-- The configuration that the table has for a workspace. -/
def current (s : Service) (workspaceId : Text) : AuditLogConfig :=
  configOf workspaceId (s.configs workspaceId)

/-- A step on the side of the configurations. -/
inductive Settled (so : SetOrder) (s : Service) : Act → Service → Prop where
  /-- nothing is stored, and who holds something has held it or has it from the table -/
  | idle {a : Act} {s' : Service} (hkeep : ∀ c now, a ≠ .keep c now)
      (hconfigs : s'.configs = s.configs) (hcache : s'.cache = s.cache)
      (hupdating : ∀ c key, s'.Updating c key ↔ s.Updating c key)
      (hholds : ∀ c key config, s'.Holds c key config →
        s.Holds c key config ∨ config = s.current key) : Settled so s a s'
  | keep {c : Nat} {now : Int} {key : Text} {config : AuditLogConfig} {s' : Service}
      (hholds : s.Holds c key config) (hconfigs : s'.configs = s.configs)
      (hcache : s'.cache = update s.cache key (some config))
      (hcalls : s'.calls = update s.calls c none) : Settled so s (.keep c now) s'
  | update {c : Nat} {workspaceId : Text} {retentionDays : Int} {mode : Text} {exclude : Bool}
      {row : ConfigRow} {s' : Service} (hnone : s.calls c = none)
      (hconfigs : s'.configs = update s.configs (strip workspaceId) (some row))
      (hcache : s'.cache = s.cache)
      (hcalls : s'.calls = update s.calls c
        (some (.updated (strip workspaceId) (configOf (strip workspaceId) (some row))))) :
      Settled so s (.updateConfig c workspaceId retentionDays mode exclude) s'

/-- What an update holds is what `get_config` would make of the row. -/
theorem configOf_updated {key mode : Text} {retentionDays : Int} {exclude : Bool}
    (hdays : 1 ≤ retentionDays) (hmode : mode ∈ ALLOWED_MODES) :
    (⟨key, if retentionDays = 0 then retentionDays else retentionDays,
      (orNone (strip mode)).getD mode, exclude⟩ : AuditLogConfig) =
      configOf key (some ⟨retentionDays, mode, exclude⟩) := by
  have hstrip : orNone (strip mode) = some mode := by
    have hall : ∀ mode ∈ ALLOWED_MODES, orNone (strip mode) = some mode := by decide
    exact hall mode hmode
  unfold configOf
  dsimp only
  rw [hstrip, Option.getD_some, Option.getD_some, ite_self, if_neg (by omega), max_eq_left hdays]

theorem Settled.of_same {s' : Service} (hkeep : ∀ c now, a ≠ .keep c now)
    (hconfigs : s'.configs = s.configs) (hcache : s'.cache = s.cache)
    (hcalls : s'.calls = s.calls) : Settled so s a s' := by
  refine .idle hkeep hconfigs hcache (fun c key => ?_) fun c key config h => Or.inl ?_
  · unfold Updating
    rw [hcalls]
  · obtain ⟨call, hcall, hputs⟩ := h
    exact ⟨call, hcalls ▸ hcall, hputs⟩

/-- A call goes on, and has at most what is in the table. -/
theorem Settled.of_call {s' : Service} {c : Nat} {call : Call} (hkeep : ∀ c now, a ≠ .keep c now)
    (hconfigs : s'.configs = s.configs) (hcache : s'.cache = s.cache)
    (hcalls : s'.calls = Function.update s.calls c (some call)) (hwas : ∀ key, ¬ s.Updating c key)
    (hcall : ∀ key config, call ≠ .updated key config)
    (hputs : ∀ key config, call.puts = some (key, config) → config = s.current key) :
    Settled so s a s' := by
  refine .idle hkeep hconfigs hcache (fun d key => ?_) fun d key config hd => ?_
  · by_cases hd : d = c
    · subst hd
      refine iff_of_false ?_ (hwas key)
      rintro ⟨config, hconfig⟩
      rw [hcalls, update_self] at hconfig
      exact hcall key config (Option.some.inj hconfig)
    · unfold Updating
      rw [hcalls, update_of_ne hd]
  · obtain ⟨call', hcall', hputs'⟩ := hd
    by_cases hd : d = c
    · subst hd
      rw [hcalls, update_self] at hcall'
      cases hcall'
      exact Or.inr (hputs key config hputs')
    · rw [hcalls, update_of_ne hd] at hcall'
      exact Or.inl ⟨call', hcall', hputs'⟩

theorem answer_same {config : AuditLogConfig} {now : Int} {purpose : Purpose}
    (h : s.answer so config now purpose = some s') :
    s'.configs = s.configs ∧ s'.cache = s.cache ∧ s'.calls = s.calls := by
  rcases answer_spec h with rfl | ⟨event, relay, -, rfl⟩ <;> exact ⟨rfl, rfl, rfl⟩

theorem step_settled (h : s.step so a = some s') : Settled so s a s' := by
  have hrelayed {act : Relay.Act Event} (hkeep : ∀ c now, a ≠ .keep c now)
      (h : s.relayed act = some s') : Settled so s a s' := by
    obtain ⟨relay, -, rfl⟩ := relayed_spec h
    exact .of_same hkeep rfl rfl rfl
  cases a with
  | getConfig c purpose now =>
    cases hc : s.calls c with
    | some call => simp [step, hc] at h
    | none =>
      simp only [step, hc] at h
      split at h
      · obtain ⟨hconfigs, hcache, hcalls⟩ := answer_same h
        exact .of_same (fun _ _ h => by cases h) hconfigs hcache hcalls
      · split at h
        · obtain ⟨hconfigs, hcache, hcalls⟩ := answer_same h
          exact .of_same (fun _ _ h => by cases h) hconfigs hcache hcalls
        · cases h
          refine .of_call (fun _ _ h => by cases h) rfl rfl rfl ?_ (fun _ _ h => by cases h) fun _ _ h => by cases h
          rintro key ⟨config, hconfig⟩
          rw [hc] at hconfig
          cases hconfig
  | read c =>
    rcases hc : s.calls c with _ | purpose | ⟨config, purpose⟩ | ⟨key, config⟩
    · simp [step, hc] at h
    · simp only [step, hc, Option.some.injEq] at h
      rw [← h]
      refine .of_call (fun _ _ h => by cases h) rfl rfl rfl ?_ (fun _ _ h => by cases h) ?_
      · rintro key ⟨config, hconfig⟩
        rw [hc] at hconfig
        cases hconfig
      · rintro key config ⟨⟩
        rfl
    · simp [step, hc] at h
    · simp [step, hc] at h
  | keep c now =>
    rcases hc : s.calls c with _ | purpose | ⟨config, purpose⟩ | ⟨key, config⟩
    · simp [step, hc] at h
    · simp [step, hc] at h
    · simp only [step, hc] at h
      obtain ⟨hconfigs, hcache, hcalls⟩ := answer_same h
      exact .keep ⟨_, hc, rfl⟩ hconfigs hcache hcalls
    · simp only [step, hc, Option.some.injEq] at h
      rw [← h]
      exact .keep ⟨_, hc, rfl⟩ rfl rfl rfl
  | updateConfig c workspaceId retentionDays mode exclude =>
    cases hc : s.calls c with
    | some call => simp [step, hc] at h
    | none =>
      simp only [step, hc] at h
      split at h
      · cases h
        exact .of_same (fun _ _ h => by cases h) rfl rfl rfl
      · next hgood =>
        simp only [not_or, not_lt, not_not] at hgood
        cases h
        refine @Settled.update _ s _ _ _ _ _ ⟨retentionDays, mode, exclude⟩ _ hc rfl rfl ?_
        rw [← configOf_updated hgood.2.1 hgood.2.2]
  | enqueueSystemEvent => exact hrelayed (fun _ _ h => by cases h) h
  | take => exact hrelayed (fun _ _ h => by cases h) h
  | submit => exact hrelayed (fun _ _ h => by cases h) h
  | insert i => exact hrelayed (fun _ _ h => by cases h) h
  | commit i => exact hrelayed (fun _ _ h => by cases h) h
  | abort i => exact hrelayed (fun _ _ h => by cases h) h
  | cleanup now => exact hrelayed (fun _ _ h => by cases h) h

end Service

/-! ## The events of a run -/

section Run

variable {so : SetOrder} {configs : Text → Option ConfigRow} {acts : List Act} {s : Service}

theorem relay_ok {s₀ : Service} (h : Relay.Ok s₀.relay) (hrun : run (Service.step so) s₀ acts = some s) :
    Relay.Ok s.relay := by
  refine @run_inv _ _ _ (fun s => Relay.Ok s.relay) (fun s a s' h hstep => ?_) _ _ _ h hrun
  rcases Service.step_relay hstep with hsame | ⟨act, hact, -⟩
  · rw [hsame]
    exact h
  · exact h.step hact

/-- **Each event is in one place, once**: in a row that is or was in the table, among those lost
    with their transaction, or on the way. Rows have different numbers, in the order of the queue
    for those that went through it, and the clean-up deletes only what has expired. -/
theorem events_accounted (hrun : run (Service.step so) (.init configs) acts = some s) :
    s.relay.accepted.Perm s.relay.places ∧
    (s.relay.rows.map Relay.Row.id).Nodup ∧
    (∀ r ∈ s.relay.rows, ∀ r' ∈ s.relay.rows, r.entry.queued = true → r'.entry.queued = true →
      r.entry.serial < r'.entry.serial → r.id < r'.id) ∧
    ∀ a s', s.step so a = some s' → ∀ r ∈ s.relay.table, r ∉ s'.relay.table →
      ∃ now, a = .cleanup now ∧ expired s.configs now r = true := by
  have hok := relay_ok Relay.ok_init hrun
  refine ⟨hok.accounted, hok.ids, hok.order, fun a s' hstep r hr hgone => ?_⟩
  rcases Service.step_relay hstep with hsame | ⟨act, hact, hforget⟩
  · rw [hsame] at hgone
    exact absurd hr hgone
  · rcases Relay.table_cases hact with ⟨rows, htable, -⟩ | ⟨p, hp, htable, -⟩
    · exact absurd (htable ▸ List.mem_append_left rows hr) hgone
    · obtain ⟨now, ha, rfl⟩ := hforget p hp
      refine ⟨now, ha, ?_⟩
      by_contra hyoung
      rw [htable] at hgone
      exact hgone (List.mem_filter.mpr ⟨hr, by simpa using hyoung⟩)

/-- An event of the runner manager, on its way into the table. -/
def demoSweep : List Act :=
  [.enqueueSystemEvent "/internal/sweep" none 200 "runner-manager" "runner-manager" 0 none none 0,
    .take, .submit, .insert 0, .commit 0]

def demoRow : Relay.Row Event :=
  ⟨1, 0, true, systemEvent .firstSeen "/internal/sweep" none 200 "runner-manager" "runner-manager" 0
    none none 0⟩

def demoLogged : Service :=
  (run (Service.step .firstSeen) (.init fun _ => none) demoSweep).getD (.init fun _ => none)

theorem events_accounted_system :
    demoLogged.relay.table = [demoRow] ∧ demoLogged.relay.accepted.Perm demoLogged.relay.places :=
  ⟨rfl, (@events_accounted .firstSeen (fun _ => none) demoSweep demoLogged rfl).1⟩

end Run

/-! ## The configuration in the cache -/

namespace Service

variable {so : SetOrder} {s s' : Service} {a : Act}

/-- The cache has what the table has, but for workspaces whose update is under way. -/
def Right (s : Service) : Prop := ∀ key config, s.cache key = some config →
  (∀ c, ¬ s.Updating c key) → config = s.current key

/-- A call puts into the cache what the table has still, or an update is to follow. -/
def Timely (s : Service) : Act → Prop
  | .keep c _ => ∀ key config, s.Holds c key config →
      config = s.current key ∨ ∃ d, d ≠ c ∧ s.Updating d key
  | _ => True

/-- A workspace is updated when no other call has its configuration at hand. -/
def Alone (s : Service) : Act → Prop
  | .updateConfig _ workspaceId _ _ _ => ∀ c config, ¬ s.Holds c (strip workspaceId) config
  | _ => True

theorem Updating.holds {c : Nat} {key : Text} (h : s.Updating c key) : ∃ config, s.Holds c key config := by
  obtain ⟨config, hc⟩ := h
  exact ⟨config, _, hc, rfl⟩

theorem Holds.eq {c : Nat} {key key' : Text} {config config' : AuditLogConfig}
    (h : s.Holds c key config) (h' : s.Holds c key' config') : key' = key ∧ config' = config := by
  obtain ⟨call, hcall, hputs⟩ := h
  obtain ⟨call', hcall', hputs'⟩ := h'
  rw [hcall] at hcall'
  cases hcall'
  rw [hputs] at hputs'
  cases hputs'
  exact ⟨rfl, rfl⟩

theorem right_step (hright : s.Right) (h : s.step so a = some s') : s'.Right ↔ s.Timely a := by
  cases step_settled h with
  | idle hkeep hconfigs hcache hupdating hholds =>
    refine iff_of_true (fun key config hconfig hnone => ?_) ?_
    · rw [hcache] at hconfig
      unfold current
      rw [hconfigs]
      exact hright key config hconfig fun c hc => hnone c ((hupdating c key).mpr hc)
    · cases a with
      | keep c now => exact absurd rfl (hkeep c now)
      | _ => trivial
  | @keep c now key config _ hholds hconfigs hcache hcalls =>
    have hcurrent (key : Text) : s'.current key = s.current key := by
      unfold current
      rw [hconfigs]
    have hupdating (d : Nat) (key : Text) : s'.Updating d key ↔ d ≠ c ∧ s.Updating d key := by
      unfold Updating
      by_cases hd : d = c
      · subst hd
        simp [hcalls]
      · simp [hcalls, hd]
    constructor
    · rintro hright' key' config' hholds'
      obtain ⟨rfl, rfl⟩ := hholds.eq hholds'
      by_contra hlate
      obtain ⟨hne, hnone⟩ := not_or.mp hlate
      refine hne ((hright' _ _ (by rw [hcache, update_self]) fun d hd => ?_).trans (hcurrent _))
      exact hnone ⟨d, (hupdating d _).mp hd⟩
    · intro htimely key' config' hconfig' hnone
      rw [hcurrent]
      rw [hcache] at hconfig'
      by_cases hkey : key' = key
      · subst hkey
        rw [update_self, Option.some.injEq] at hconfig'
        rw [← hconfig']
        refine (htimely _ _ hholds).resolve_right ?_
        rintro ⟨d, hd⟩
        exact hnone d ((hupdating d _).mpr hd)
      · rw [update_of_ne hkey] at hconfig'
        refine hright _ _ hconfig' fun d hd => hnone d ((hupdating d _).mpr ⟨?_, hd⟩)
        rintro rfl
        obtain ⟨_, hholds'⟩ := hd.holds
        exact hkey (hholds.eq hholds').1
  | @update c workspaceId retentionDays mode exclude row _ hnone hconfigs hcache hcalls =>
    refine iff_of_true (fun key config hconfig hidle => ?_) trivial
    have hkey : key ≠ strip workspaceId := by
      rintro rfl
      exact hidle c ⟨_, by rw [hcalls, update_self]⟩
    unfold current
    rw [hconfigs, update_of_ne hkey]
    rw [hcache] at hconfig
    refine hright key config hconfig fun d ⟨config', hd⟩ => hidle d ⟨config', ?_⟩
    have hne : d ≠ c := by
      rintro rfl
      rw [hnone] at hd
      cases hd
    rw [hcalls, update_of_ne hne, hd]

/-- What calls hold is what the table has. -/
def Fresh (s : Service) : Prop := ∀ c key config, s.Holds c key config → config = s.current key

theorem fresh_step (hfresh : s.Fresh) (halone : s.Alone a) (h : s.step so a = some s') : s'.Fresh := by
  intro d key config hd
  cases step_settled h with
  | idle hkeep hconfigs hcache hupdating hholds =>
    unfold current
    rw [hconfigs]
    rcases hholds d key config hd with hd | hd
    · exact hfresh d key config hd
    · exact hd
  | @keep c now key' config' _ hholds hconfigs hcache hcalls =>
    unfold current
    rw [hconfigs]
    obtain ⟨call, hcall, hputs⟩ := hd
    have hne : d ≠ c := by
      rintro rfl
      rw [hcalls, update_self] at hcall
      cases hcall
    rw [hcalls, update_of_ne hne] at hcall
    exact hfresh d key config ⟨call, hcall, hputs⟩
  | @update c workspaceId retentionDays mode exclude row _ hnone hconfigs hcache hcalls =>
    unfold current
    obtain ⟨call, hcall, hputs⟩ := hd
    by_cases hne : d = c
    · subst hne
      rw [hcalls, update_self] at hcall
      cases hcall
      cases hputs
      rw [hconfigs, update_self]
    · rw [hcalls, update_of_ne hne] at hcall
      have hkey : key ≠ strip workspaceId := by
        rintro rfl
        exact halone d config ⟨call, hcall, hputs⟩
      rw [hconfigs, update_of_ne hkey]
      exact hfresh d key config ⟨call, hcall, hputs⟩

theorem Fresh.timely (hfresh : s.Fresh) (a : Act) : s.Timely a := by
  cases a with
  | keep c now => exact fun key config h => Or.inl (hfresh c key config h)
  | _ => trivial

end Service

/-- **The cache is right all along a run if and only if** every call puts into it what is still in
    the table. It does where no workspace is updated while another call has its configuration. -/
theorem cache_right_iff {so : SetOrder} {configs : Text → Option ConfigRow} {acts : List Act}
    {s : Service} (hrun : run (Service.step so) (.init configs) acts = some s) :
    (Along (Service.step so) Service.Timely (.init configs) acts ↔
      ∀ before after u, acts = before ++ after →
        run (Service.step so) (.init configs) before = some u → u.Right) ∧
    (Along (Service.step so) Service.Alone (.init configs) acts →
      Along (Service.step so) Service.Timely (.init configs) acts) := by
  constructor
  · exact @along_iff _ _ _ (fun _ => True) _ _ (fun _ _ _ _ _ => trivial)
      (fun _ _ _ _ hright hstep => Service.right_step hright hstep) _ _ _ trivial nofun hrun
  · refine @Along.of_inv _ _ _ Service.Fresh _ _ (fun s a s' hfresh halone hstep => ?_)
      (fun s a hfresh _ => hfresh.timely a) _ _ ?_
    · exact Service.fresh_step hfresh halone hstep
    · rintro c key config ⟨call, hcall, -⟩
      cases hcall

/-- A configuration is read and put into the cache, and then updated. -/
def demoUpdate : List Act :=
  [.getConfig 0 (.show "ws") 0, .read 0, .keep 0 0, .updateConfig 1 "ws" 30 "all" false, .keep 1 0]

/-- It is updated in between, and the update goes into the cache first. -/
def demoOvertaken : List Act :=
  [.getConfig 0 (.show "ws") 0, .read 0, .updateConfig 1 "ws" 30 "all" false, .keep 1 0, .keep 0 0]

theorem cache_right_iff_update :
    (∀ before after u, demoUpdate = before ++ after →
      run (Service.step .firstSeen) (.init fun _ => none) before = some u → u.Right) ∧
    ¬ Along (Service.step .firstSeen) Service.Timely (.init fun _ => none) demoOvertaken := by
  constructor
  · have hiff := @cache_right_iff .firstSeen (fun _ => none) demoUpdate _ rfl
    refine hiff.1.mp (hiff.2 ⟨trivial, trivial, trivial, ?_, trivial, trivial⟩)
    rintro c config ⟨call, hcall, -⟩
    by_cases hc : c = 0
    · subst hc
      cases hcall
    · cases (update_of_ne hc _ _).symm.trans ((update_of_ne hc _ _).symm.trans
        ((update_of_ne hc _ _).symm.trans hcall))
  · intro htimely
    have hright := (@cache_right_iff .firstSeen (fun _ => none) demoOvertaken _ rfl).1.mp htimely
      demoOvertaken [] _ rfl rfl "ws" (.default "ws") rfl fun c ⟨config, hc⟩ => ?_
    · exact absurd hright (by decide)
    · by_cases h0 : c = 0
      · subst h0
        cases hc
      · by_cases h1 : c = 1
        · subst h1
          cases hc
        · simp [update_of_ne h0, update_of_ne h1, Service.init] at hc

end Infinito.Audit
