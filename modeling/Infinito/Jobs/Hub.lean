import Infinito.Jobs.Stream
import Infinito.Lib.Run
import Mathlib.Data.List.DropRight
import Mathlib.Data.List.Nodup

/-!
# The log hub

`LogHub` keeps the last lines of each job and the queues of those who follow it. Its three
methods take its lock, and each does under it all it does to the hub; but a line is put into the
queues after the lock is given back, one queue at a time, and anything may happen in between.

`exactly_once` says what a subscriber has of its job in any run of such calls in which no queue
is full: of the lines that are due to it (the last ones before it subscribed, and every one
while it was subscribed) each that is not still to be put into its queue, once; nothing else; and
the lines of one publisher in order. What carries it is an equation for each queue and publisher:
what the queue has, then what the publisher is about to put there, is what is due.
-/

set_option autoImplicit false

namespace Infinito.Jobs

open Py Lib
open Function (update update_self update_of_ne)

variable {α : Type}

/-! ## The hub -/

/-- A hub, over lines it does not look into. A queue is a number. -/
structure LogHub (α : Type) where
  buffers : Text → Option (List α)
  subscribers : Text → Option (List Nat)
  bufferSize : Nat

namespace LogHub

def init (bufferSize : Nat) : LogHub α where
  buffers _ := none
  subscribers _ := none
  bufferSize := bufferSize

/-- `self._buffers.get(job_id, deque())` -/
def buffer (hub : LogHub α) (jobId : Text) : List α := (hub.buffers jobId).getD []

/-- `self._subscribers.get(job_id, [])` -/
def followers (hub : LogHub α) (jobId : Text) : List Nat := (hub.subscribers jobId).getD []

/-- `publish`, as far as it has the lock, and the queues it goes on to put the line into. -/
def publish (hub : LogHub α) (jobId : Text) (line : α) : LogHub α × List Nat :=
  let buf := (hub.buffer jobId ++ [line]).rtake hub.bufferSize
  ({ hub with buffers := update hub.buffers jobId (some buf) }, hub.followers jobId)

def subscribe (hub : LogHub α) (jobId : Text) (q : Nat) (replayBuffer : Bool) :
    LogHub α × List α :=
  let subs := hub.followers jobId ++ [q]
  ({ hub with subscribers := update hub.subscribers jobId (some subs) },
    if replayBuffer then hub.buffer jobId else [])

def unsubscribe (hub : LogHub α) (jobId : Text) (q : Nat) : LogHub α :=
  match hub.subscribers jobId with
  | none | some [] => hub
  | some (s :: subs) => match (s :: subs).filter (· ≠ q) with
    -- the last one left
    | [] => { hub with subscribers := update hub.subscribers jobId none }
    | left => { hub with subscribers := update hub.subscribers jobId (some left) }

variable {hub : LogHub α} {jobId other : Text} {line : α} {q : Nat} {replayBuffer : Bool}

@[simp] theorem buffer_init (n : Nat) : (init n : LogHub α).buffer jobId = [] := rfl

@[simp] theorem followers_init (n : Nat) : (init n : LogHub α).followers jobId = [] := rfl

@[simp] theorem publish_snd : (hub.publish jobId line).2 = hub.followers jobId := rfl

@[simp] theorem followers_publish :
    (hub.publish jobId line).1.followers other = hub.followers other := rfl

theorem buffer_publish : (hub.publish jobId line).1.buffer other =
    if other = jobId then (hub.buffer jobId ++ [line]).rtake hub.bufferSize else hub.buffer other := by
  unfold publish buffer
  dsimp only
  by_cases h : other = jobId
  · rw [if_pos h, h, update_self, Option.getD_some]
  · rw [if_neg h, update_of_ne h]

@[simp] theorem buffer_subscribe :
    (hub.subscribe jobId q replayBuffer).1.buffer other = hub.buffer other := rfl

@[simp] theorem subscribe_snd : (hub.subscribe jobId q replayBuffer).2 =
    if replayBuffer then hub.buffer jobId else [] := rfl

theorem followers_subscribe : (hub.subscribe jobId q replayBuffer).1.followers other =
    if other = jobId then hub.followers jobId ++ [q] else hub.followers other := by
  unfold subscribe followers
  dsimp only
  by_cases h : other = jobId
  · rw [if_pos h, h, update_self, Option.getD_some]
  · rw [if_neg h, update_of_ne h]

@[simp] theorem buffer_unsubscribe : (hub.unsubscribe jobId q).buffer other = hub.buffer other := by
  unfold unsubscribe
  split
  · rfl
  · rfl
  · split <;> rfl

@[simp] theorem bufferSize_unsubscribe : (hub.unsubscribe jobId q).bufferSize = hub.bufferSize := by
  unfold unsubscribe
  split
  · rfl
  · rfl
  · split <;> rfl

/-- The entry of a job comes and goes with its followers, which is not to be seen in them. -/
theorem followers_unsubscribe : (hub.unsubscribe jobId q).followers other =
    if other = jobId then (hub.followers jobId).filter (· ≠ q) else hub.followers other := by
  unfold unsubscribe followers
  by_cases h : other = jobId
  · subst h
    rw [if_pos rfl]
    split
    · next hnone => rw [hnone]; rfl
    · next hnil => rw [hnil]; rfl
    · next s subs hsubs =>
      rw [hsubs, Option.getD_some]
      split
      · next hleft => dsimp only; rw [hleft, update_self]; rfl
      · dsimp only; rw [update_self, Option.getD_some]
  · rw [if_neg h]
    split
    · rfl
    · rfl
    · split <;> (dsimp only; rw [update_of_ne h])

end LogHub

/-! ## Threads around it -/

/-- A line as it was published. The hub gets the text; the rest tells lines of one text apart. -/
structure Line where
  jobId : Text
  publisher : Nat
  serial : Nat
  text : Text
  deriving DecidableEq

/-- A queue, with the call of `subscribe` that returned it. -/
structure Subscription where
  jobId : Text
  replayBuffer : Bool
  /-- the lines that were returned with the queue -/
  buf : List Line
  taken : List Line
  waiting : List Line
  /-- how many lines had been published before -/
  since : Nat
  /-- and how many when it was unsubscribed -/
  left : Option Nat

def Subscription.received (r : Subscription) : List Line := r.buf ++ (r.taken ++ r.waiting)

/-- `q.put_nowait(line)`, which a full queue does not take. -/
def Subscription.put (line : Line) (r : Subscription) : Subscription :=
  if r.waiting.length < QUEUE_SIZE then { r with waiting := r.waiting ++ [line] } else r

def Subscription.leave (jobId : Text) (now : Nat) (r : Subscription) : Subscription :=
  if r.jobId = jobId ∧ r.left = none then { r with left := some now } else r

structure Traffic where
  hub : LogHub Line
  /-- what each publisher still has to put, and where, before its call returns -/
  puts : Nat → List (Nat × Line)
  queues : Nat → Option Subscription
  /-- every line published, in the order of the lock; nothing reads it -/
  log : List Line

inductive Call where
  /-- `publish`, to where it gives back the lock -/
  | publish (publisher : Nat) (jobId text : Text)
  /-- one round of its loop -/
  | put (publisher : Nat)
  | subscribe (q : Nat) (jobId : Text) (replayBuffer : Bool)
  | unsubscribe (jobId : Text) (q : Nat)
  | get (q : Nat)

namespace Traffic

def init (bufferSize : Nat) : Traffic where
  hub := .init bufferSize
  puts _ := []
  queues _ := none
  log := []

def step (s : Traffic) : Call → Option Traffic
  | .publish publisher jobId text => match s.puts publisher with
    | _ :: _ => none
    | [] =>
      let line : Line := ⟨jobId, publisher, s.log.length, text⟩
      let (hub, subscribers) := s.hub.publish jobId line
      some { s with
        hub := hub
        puts := update s.puts publisher (subscribers.map (·, line))
        log := s.log ++ [line] }
  | .put publisher => match s.puts publisher with
    | [] => none
    | (q, line) :: rest => some { s with
        puts := update s.puts publisher rest
        queues := update s.queues q ((s.queues q).map (Subscription.put line)) }
  | .subscribe q jobId replayBuffer => match s.queues q with
    | some _ => none
    | none =>
      let (hub, buf) := s.hub.subscribe jobId q replayBuffer
      some { s with
        hub := hub
        queues := update s.queues q (some ⟨jobId, replayBuffer, buf, [], [], s.log.length, none⟩) }
  | .unsubscribe jobId q => some { s with
      hub := s.hub.unsubscribe jobId q
      queues := update s.queues q ((s.queues q).map (Subscription.leave jobId s.log.length)) }
  | .get q => match s.queues q with
    | some ⟨jobId, replayBuffer, buf, taken, line :: waiting, since, left⟩ =>
      let r : Subscription := ⟨jobId, replayBuffer, buf, taken ++ [line], waiting, since, left⟩
      some { s with queues := update s.queues q (some r) }
    | _ => none

/-- No line meets a full queue. -/
def HasRoom (s : Traffic) : Call → Prop
  | .put publisher => ∀ e ∈ (s.puts publisher).head?, ∀ r ∈ s.queues e.1,
      r.waiting.length < QUEUE_SIZE
  | _ => True

instance (s : Traffic) : (call : Call) → Decidable (s.HasRoom call)
  | .put publisher => inferInstanceAs (Decidable (∀ e ∈ (s.puts publisher).head?,
      ∀ r ∈ s.queues e.1, r.waiting.length < QUEUE_SIZE))
  | .publish _ _ _ | .subscribe _ _ _ | .unsubscribe _ _ | .get _ => isTrue trivial

end Traffic

/-! ## What is due, and what is there -/

/-- What a subscriber of `log` is to have: the last lines of its job before it subscribed, if it
    asked for them, and those while it was subscribed. -/
def Subscription.due (bufferSize : Nat) (log : List Line) (r : Subscription) : List Line :=
  (if r.replayBuffer then ((log.take r.since).filter (·.jobId = r.jobId)).rtake bufferSize else []) ++
    ((log.take (r.left.getD log.length)).drop r.since).filter (·.jobId = r.jobId)

/-- The lines of these that are still to be put into `q`. -/
def owed (q : Nat) (puts : List (Nat × Line)) : List Line := (puts.filter (·.1 = q)).map (·.2)

theorem rtake_rtake_append (n : Nat) (xs : List α) (x : α) :
    (xs.rtake n ++ [x]).rtake n = (xs ++ [x]).rtake n := by
  cases n with
  | zero => rw [List.rtake_zero, List.rtake_zero]
  | succ n =>
    rw [List.rtake_concat_succ, List.rtake_concat_succ, List.rtake_eq_reverse_take_reverse,
      List.rtake_eq_reverse_take_reverse, List.rtake_eq_reverse_take_reverse, List.reverse_reverse,
      List.take_take, Nat.min_eq_left (Nat.le_succ n)]

section Due

variable {bufferSize : Nat} {log : List Line} {r : Subscription} {line : Line}

theorem Subscription.due_append (hsince : r.since ≤ log.length)
    (hleft : ∀ n ∈ r.left, n ≤ log.length) :
    r.due bufferSize (log ++ [line]) =
      r.due bufferSize log ++ if r.left = none ∧ r.jobId = line.jobId then [line] else [] := by
  unfold Subscription.due
  rw [List.take_append_of_le_length hsince, List.append_assoc]
  congr 1
  cases h : r.left with
  | some n =>
    rw [Option.getD_some, Option.getD_some, List.take_append_of_le_length (hleft n h),
      if_neg fun h => nomatch h.1]
    exact (List.append_nil _).symm
  | none =>
    rw [Option.getD_none, Option.getD_none, List.take_length, List.take_length,
      List.drop_append_of_le_length hsince, List.filter_append]
    congr 1
    by_cases hjob : r.jobId = line.jobId
    · rw [if_pos ⟨rfl, hjob⟩, List.filter_singleton, decide_eq_true hjob.symm]
      rfl
    · rw [if_neg fun h => hjob h.2, List.filter_singleton, decide_eq_false (Ne.symm hjob)]
      rfl

theorem Subscription.due_put : (r.put line).due bufferSize log = r.due bufferSize log := by
  unfold Subscription.put
  split <;> rfl

/-- From when it leaves, nothing more is due; what is due by then stays. -/
theorem Subscription.due_leave (jobId : Text) :
    (r.leave jobId log.length).due bufferSize log = r.due bufferSize log := by
  unfold Subscription.leave
  split
  · next h =>
    unfold Subscription.due
    rw [h.2]
    rfl
  · rfl

theorem Subscription.received_put (hroom : r.waiting.length < QUEUE_SIZE) :
    (r.put line).received = r.received ++ [line] := by
  unfold Subscription.put Subscription.received
  rw [if_pos hroom]
  show r.buf ++ (r.taken ++ (r.waiting ++ [line])) = r.buf ++ (r.taken ++ r.waiting) ++ [line]
  rw [List.append_assoc, List.append_assoc]

theorem Subscription.received_leave (jobId : Text) (now : Nat) :
    (r.leave jobId now).received = r.received := by
  unfold Subscription.leave
  split <;> rfl

/-- It follows the other jobs it followed before. -/
theorem Subscription.follows_leave {jobId jobId' : Text} {now : Nat} :
    ((r.leave jobId now).jobId = jobId' ∧ (r.leave jobId now).left = none) ↔
      (r.jobId = jobId' ∧ r.left = none) ∧ jobId' ≠ jobId := by
  unfold Subscription.leave
  split
  · next h => exact iff_of_false (fun hnone => nomatch hnone.2) fun hne => hne.2 (hne.1.1 ▸ h.1)
  · next h =>
    refine ⟨fun hfollows => ⟨hfollows, fun heq => h ⟨hfollows.1.trans heq, hfollows.2⟩⟩, And.left⟩

theorem Subscription.jobId_of_mem_due (h : line ∈ r.due bufferSize log) : line.jobId = r.jobId := by
  rcases List.mem_append.mp h with h | h
  · split at h
    · exact of_decide_eq_true (List.mem_filter.mp (List.mem_of_mem_drop h)).2
    · cases h
  · exact of_decide_eq_true (List.mem_filter.mp h).2

end Due

section Owed

variable {q p : Nat} {line : Line} {rest : List (Nat × Line)}

theorem owed_cons_self : owed q ((q, line) :: rest) = line :: owed q rest := by
  unfold owed
  rw [List.filter_cons, if_pos (by exact decide_eq_true rfl), List.map_cons]

theorem owed_cons_ne {other : Nat} (h : other ≠ q) : owed q ((other, line) :: rest) = owed q rest := by
  unfold owed
  rw [List.filter_cons, if_neg fun hq => h (of_decide_eq_true hq)]

theorem mem_owed : line ∈ owed q rest ↔ (q, line) ∈ rest := by
  unfold owed
  rw [List.mem_map]
  constructor
  · rintro ⟨e, he, rfl⟩
    obtain ⟨hmem, hq⟩ := List.mem_filter.mp he
    rw [← of_decide_eq_true hq]
    exact hmem
  · exact fun h => ⟨_, List.mem_filter.mpr ⟨h, decide_eq_true rfl⟩, rfl⟩

/-- A line is to be put once into a queue that follows its job. -/
theorem owed_followers {followers : List Nat} (hnodup : followers.Nodup) :
    owed q (followers.map (·, line)) = if q ∈ followers then [line] else [] := by
  induction followers with
  | nil => rfl
  | cons other followers ih =>
    obtain ⟨hother, hnodup⟩ := List.nodup_cons.mp hnodup
    rw [List.map_cons]
    by_cases h : other = q
    · subst h
      rw [owed_cons_self, ih hnodup, if_neg hother, if_pos List.mem_cons_self]
    · rw [owed_cons_ne h, ih hnodup]
      refine if_congr ?_ rfl rfl
      rw [List.mem_cons, or_iff_right (Ne.symm h)]

end Owed

/-! ## The invariant -/

/-- The lines of one publisher. -/
def ofPublisher (p : Nat) (lines : List Line) : List Line := lines.filter (·.publisher = p)

theorem ofPublisher_append (p : Nat) (xs ys : List Line) :
    ofPublisher p (xs ++ ys) = ofPublisher p xs ++ ofPublisher p ys := List.filter_append ..

theorem ofPublisher_singleton {p : Nat} {line : Line} :
    ofPublisher p [line] = if line.publisher = p then [line] else [] := by
  unfold ofPublisher
  rw [List.filter_singleton]
  by_cases h : line.publisher = p
  · rw [if_pos h, decide_eq_true h]; rfl
  · rw [if_neg h, decide_eq_false h]; rfl

/-- How many lines there were is at most how many there are. -/
def Subscription.InTime (now : Nat) (r : Subscription) : Prop :=
  r.since ≤ now ∧ ∀ n ∈ r.left, n ≤ now

namespace Traffic

structure Ok (bufferSize : Nat) (s : Traffic) : Prop where
  size : s.hub.bufferSize = bufferSize
  serials : s.log.map Line.serial = List.range s.log.length
  buffers : ∀ jobId, s.hub.buffer jobId = (s.log.filter (·.jobId = jobId)).rtake bufferSize
  followers : ∀ jobId q, q ∈ s.hub.followers jobId ↔
    ∃ r, s.queues q = some r ∧ r.jobId = jobId ∧ r.left = none
  nodup : ∀ jobId, (s.hub.followers jobId).Nodup
  /-- a publisher puts its own lines -/
  own : ∀ p, ∀ e ∈ s.puts p, e.2.publisher = p ∧ (s.queues e.1).isSome
  inTime : ∀ q r, s.queues q = some r → r.InTime s.log.length
  /-- what is there, and what is about to be, is what is due -/
  balance : ∀ q r, s.queues q = some r → ∀ p,
    ofPublisher p r.received ++ owed q (s.puts p) = ofPublisher p (r.due bufferSize s.log)

theorem ok_init (bufferSize : Nat) : (init bufferSize).Ok bufferSize where
  size := rfl
  serials := rfl
  buffers _ := by
    show [] = ([] : List Line).rtake bufferSize
    rw [List.rtake_nil]
  followers _ _ := iff_of_false List.not_mem_nil (by rintro ⟨r, h, -⟩; cases h)
  nodup _ := List.nodup_nil
  own _ _ h := nomatch h
  inTime _ _ h := nomatch h
  balance _ _ h := nomatch h

variable {bufferSize : Nat} {s s' : Traffic}

theorem Ok.publish {p : Nat} {jobId text : Text} (h : s.Ok bufferSize)
    (hstep : s.step (.publish p jobId text) = some s') : s'.Ok bufferSize := by
  unfold step at hstep
  dsimp only at hstep
  split at hstep
  · cases hstep
  · next hidle =>
    cases hstep
    generalize hline : (⟨jobId, p, s.log.length, text⟩ : Line) = line
    have hjob : line.jobId = jobId := by rw [← hline]
    have hpublisher : line.publisher = p := by rw [← hline]
    constructor
    · exact h.size
    · show (s.log ++ [line]).map Line.serial = List.range (s.log ++ [line]).length
      rw [List.map_append, h.serials, List.length_append, List.length_singleton, List.range_succ,
        ← hline]
      rfl
    · intro other
      show (s.hub.publish jobId line).1.buffer other =
        ((s.log ++ [line]).filter (·.jobId = other)).rtake bufferSize
      rw [LogHub.buffer_publish, List.filter_append, List.filter_singleton, h.buffers, h.buffers,
        h.size, hjob]
      by_cases hother : other = jobId
      · rw [if_pos hother, decide_eq_true hother.symm, hother]
        exact rtake_rtake_append _ _ _
      · rw [if_neg hother, decide_eq_false (Ne.symm hother)]
        exact congrArg (List.rtake · bufferSize) (List.append_nil _).symm
    · exact h.followers
    · exact h.nodup
    · intro p' e he
      have he : e ∈ update s.puts p ((s.hub.followers jobId).map (·, line)) p' := he
      by_cases hp : p' = p
      · subst hp
        rw [update_self] at he
        obtain ⟨q, hq, rfl⟩ := List.mem_map.mp he
        obtain ⟨r, hr, -⟩ := (h.followers _ _).mp hq
        exact ⟨hpublisher, by rw [hr]; rfl⟩
      · rw [update_of_ne hp] at he
        exact h.own p' e he
    · intro q r hr
      obtain ⟨hsince, hleft⟩ := h.inTime q r hr
      rw [List.length_append]
      exact ⟨Nat.le_add_right_of_le hsince, fun n hn => Nat.le_add_right_of_le (hleft n hn)⟩
    · intro q r hr p'
      obtain ⟨hsince, hleft⟩ := h.inTime q r hr
      show ofPublisher p' r.received ++ owed q (update s.puts p ((s.hub.followers jobId).map (·, line)) p') =
        ofPublisher p' (r.due bufferSize (s.log ++ [line]))
      have hfollows : q ∈ s.hub.followers jobId ↔ r.left = none ∧ r.jobId = line.jobId := by
        rw [h.followers, hjob]
        constructor
        · rintro ⟨r', hr', hjob', hleft'⟩
          cases hr.symm.trans hr'
          exact ⟨hleft', hjob'⟩
        · rintro ⟨hleft', hjob'⟩
          exact ⟨r, hr, hjob', hleft'⟩
      rw [Subscription.due_append hsince hleft, ofPublisher_append, ← h.balance q r hr p']
      by_cases hp : p' = p
      · subst hp
        rw [update_self, hidle, owed_followers (h.nodup _), show owed q [] = [] from rfl,
          List.append_nil]
        congr 1
        by_cases hq : q ∈ s.hub.followers jobId
        · rw [if_pos hq, if_pos (hfollows.mp hq), ofPublisher_singleton, if_pos hpublisher]
        · rw [if_neg hq, if_neg (mt hfollows.mpr hq)]
          rfl
      · rw [update_of_ne hp]
        split
        · rw [ofPublisher_singleton, if_neg (fun heq => hp (heq.symm.trans hpublisher)),
            List.append_nil]
        · exact (List.append_nil _).symm

/-- What a step may do that gives the queue `q` a record `r'` in place of `r`. -/
theorem Ok.change {q : Nat} {r r' : Subscription} {hub : LogHub Line} {puts : Nat → List (Nat × Line)}
    (h : s.Ok bufferSize) (hr : s.queues q = some r) (hsize : hub.bufferSize = s.hub.bufferSize)
    (hbuffer : ∀ jobId, hub.buffer jobId = s.hub.buffer jobId)
    (hself : ∀ jobId, q ∈ hub.followers jobId ↔ r'.jobId = jobId ∧ r'.left = none)
    (hothers : ∀ jobId other, other ≠ q →
      (other ∈ hub.followers jobId ↔ other ∈ s.hub.followers jobId))
    (hnodup : ∀ jobId, (hub.followers jobId).Nodup) (hputs : ∀ p, ∀ e ∈ puts p, e ∈ s.puts p)
    (htime : r'.InTime s.log.length) (hdue : r'.due bufferSize s.log = r.due bufferSize s.log)
    (howed : ∀ p other, other ≠ q → owed other (puts p) = owed other (s.puts p))
    (hbalance : ∀ p, ofPublisher p r'.received ++ owed q (puts p) =
      ofPublisher p r.received ++ owed q (s.puts p)) :
    Ok bufferSize ⟨hub, puts, update s.queues q (some r'), s.log⟩ := by
  constructor
  · exact hsize.trans h.size
  · exact h.serials
  · exact fun jobId => (hbuffer jobId).trans (h.buffers jobId)
  · intro jobId other
    show other ∈ hub.followers jobId ↔
      ∃ r, update s.queues q (some r') other = some r ∧ r.jobId = jobId ∧ r.left = none
    by_cases hother : other = q
    · rw [hother, hself, update_self]
      constructor
      · exact fun h => ⟨r', rfl, h⟩
      · rintro ⟨_, ⟨⟩, h⟩
        exact h
    · rw [hothers jobId other hother, h.followers, update_of_ne hother]
  · exact hnodup
  · intro p e he
    obtain ⟨hpublisher, hsome⟩ := h.own p e (hputs p e he)
    refine ⟨hpublisher, ?_⟩
    show (update s.queues q (some r') e.1).isSome = true
    by_cases hq : e.1 = q
    · rw [hq, update_self]; rfl
    · rw [update_of_ne hq]
      exact hsome
  · intro other r₁ hr₁
    have hr₁ : update s.queues q (some r') other = some r₁ := hr₁
    by_cases hother : other = q
    · rw [hother, update_self] at hr₁
      cases hr₁
      exact htime
    · rw [update_of_ne hother] at hr₁
      exact h.inTime other r₁ hr₁
  · intro other r₁ hr₁ p
    have hr₁ : update s.queues q (some r') other = some r₁ := hr₁
    show ofPublisher p r₁.received ++ owed other (puts p) = ofPublisher p (r₁.due bufferSize s.log)
    by_cases hother : other = q
    · rw [hother, update_self] at hr₁
      cases hr₁
      rw [hother, hbalance, h.balance q r hr p, hdue]
    · rw [update_of_ne hother] at hr₁
      rw [howed p other hother, h.balance other r₁ hr₁ p]

theorem Ok.follows {q : Nat} {r : Subscription} (h : s.Ok bufferSize) (hr : s.queues q = some r)
    (jobId : Text) : q ∈ s.hub.followers jobId ↔ r.jobId = jobId ∧ r.left = none := by
  rw [h.followers]
  constructor
  · rintro ⟨r', hr', hjob⟩
    cases hr.symm.trans hr'
    exact hjob
  · exact fun hjob => ⟨r, hr, hjob⟩

theorem Ok.put {p : Nat} (h : s.Ok bufferSize) (hroom : s.HasRoom (.put p))
    (hstep : s.step (.put p) = some s') : s'.Ok bufferSize := by
  unfold step at hstep
  dsimp only at hstep
  split at hstep
  · cases hstep
  · next q line rest hputs =>
    obtain ⟨hpublisher, hsome⟩ := h.own p (q, line) (by rw [hputs]; exact List.mem_cons_self)
    obtain ⟨r, hr⟩ := Option.isSome_iff_exists.mp hsome
    have hr : s.queues q = some r := hr
    have hpublisher : line.publisher = p := hpublisher
    have hfree : r.waiting.length < QUEUE_SIZE :=
      hroom (q, line) (by rw [hputs]; exact rfl) r hr
    rw [hr, Option.map_some] at hstep
    cases hstep
    have hsame : (r.put line).jobId = r.jobId ∧ (r.put line).left = r.left := by
      unfold Subscription.put
      split <;> exact ⟨rfl, rfl⟩
    refine h.change hr rfl (fun _ => rfl) (fun jobId => ?_) (fun _ _ _ => Iff.rfl) h.nodup
      (fun p' e he => ?_) ?_ Subscription.due_put (fun p' other hother => ?_) fun p' => ?_
    · rw [hsame.1, hsame.2]
      exact h.follows hr jobId
    · by_cases hp : p' = p
      · rw [hp, update_self] at he
        rw [hp, hputs]
        exact List.mem_cons_of_mem _ he
      · rwa [update_of_ne hp] at he
    · obtain ⟨hsince, hleft⟩ := h.inTime q r hr
      unfold Subscription.put
      split <;> exact ⟨hsince, hleft⟩
    · by_cases hp : p' = p
      · rw [hp, update_self, hputs, owed_cons_ne (Ne.symm hother)]
      · rw [update_of_ne hp]
    · rw [Subscription.received_put hfree, ofPublisher_append, ofPublisher_singleton]
      by_cases hp : p' = p
      · rw [hp, update_self, hputs, owed_cons_self, if_pos hpublisher, List.append_assoc]
        rfl
      · rw [update_of_ne hp, if_neg (fun heq => hp (heq.symm.trans hpublisher)), List.append_nil]

theorem Ok.get {q : Nat} (h : s.Ok bufferSize) (hstep : s.step (.get q) = some s') :
    s'.Ok bufferSize := by
  unfold step at hstep
  dsimp only at hstep
  split at hstep
  · next jobId replayBuffer buf taken line waiting since left hr =>
    cases hstep
    have hfollows := h.follows hr
    have htime := h.inTime q _ hr
    refine h.change hr rfl (fun _ => rfl) hfollows (fun _ _ _ => Iff.rfl) h.nodup (fun _ _ he => he)
      htime rfl (fun _ _ _ => rfl) fun p => ?_
    have hreceived : buf ++ (taken ++ [line] ++ waiting) = buf ++ (taken ++ line :: waiting) := by
      rw [List.append_assoc taken]
      rfl
    exact congrArg (ofPublisher p · ++ _) hreceived
  · cases hstep

theorem Ok.unsubscribe {q : Nat} {jobId : Text} (h : s.Ok bufferSize)
    (hstep : s.step (.unsubscribe jobId q) = some s') : s'.Ok bufferSize := by
  cases hstep
  have hnodup (other : Text) : ((s.hub.unsubscribe jobId q).followers other).Nodup := by
    rw [LogHub.followers_unsubscribe]
    split
    · exact (h.nodup jobId).filter _
    · exact h.nodup other
  have hothers (jobId' : Text) (other : Nat) (hother : other ≠ q) :
      other ∈ (s.hub.unsubscribe jobId q).followers jobId' ↔ other ∈ s.hub.followers jobId' := by
    rw [LogHub.followers_unsubscribe]
    split
    · next hjob => rw [List.mem_filter, decide_eq_true hother, hjob, and_iff_left rfl]
    · rfl
  have hself (jobId' : Text) : q ∈ (s.hub.unsubscribe jobId q).followers jobId' ↔
      q ∈ s.hub.followers jobId' ∧ jobId' ≠ jobId := by
    rw [LogHub.followers_unsubscribe]
    split
    · next hjob =>
      refine iff_of_false (fun hmem => ?_) fun hne => hne.2 hjob
      exact of_decide_eq_true (List.mem_filter.mp hmem).2 rfl
    · next hjob => rw [and_iff_left hjob]
  cases hr : s.queues q with
  | some r =>
    refine h.change hr LogHub.bufferSize_unsubscribe (fun _ => LogHub.buffer_unsubscribe)
      (fun jobId' => ?_) hothers hnodup (fun _ _ he => he) ?_ (Subscription.due_leave jobId)
      (fun _ _ _ => rfl) fun p => by rw [Subscription.received_leave]
    · rw [hself, h.follows hr]
      exact Subscription.follows_leave.symm
    · obtain ⟨hsince, hleft⟩ := h.inTime q r hr
      unfold Subscription.leave
      split
      · exact ⟨hsince, fun n hn => by cases hn; exact le_rfl⟩
      · exact ⟨hsince, hleft⟩
  | none =>
    have hnone (jobId' : Text) : q ∉ s.hub.followers jobId' := by
      rw [h.followers]
      rintro ⟨r, hr', -⟩
      cases hr.symm.trans hr'
    rw [Option.map_none, ← hr, Function.update_eq_self]
    refine ⟨LogHub.bufferSize_unsubscribe.trans h.size, h.serials,
      fun _ => LogHub.buffer_unsubscribe.trans (h.buffers _), fun jobId' other => ?_, hnodup, h.own,
      h.inTime, h.balance⟩
    by_cases hother : other = q
    · rw [hother, hself, and_iff_left_of_imp fun hmem => absurd hmem (hnone jobId'), h.followers]
    · rw [hothers jobId' other hother, h.followers]

theorem Ok.subscribe {q : Nat} {jobId : Text} {replayBuffer : Bool} (h : s.Ok bufferSize)
    (hstep : s.step (.subscribe q jobId replayBuffer) = some s') : s'.Ok bufferSize := by
  unfold step at hstep
  dsimp only at hstep
  split at hstep
  · cases hstep
  · next hfresh =>
    cases hstep
    have hnone (jobId' : Text) : q ∉ s.hub.followers jobId' := by
      rw [h.followers]
      rintro ⟨r, hr', -⟩
      cases hfresh.symm.trans hr'
    have howed (p : Nat) : owed q (s.puts p) = [] := by
      refine List.eq_nil_iff_forall_not_mem.mpr fun line hline => ?_
      have hsome := (h.own p _ (mem_owed.mp hline)).2
      rw [hfresh] at hsome
      cases hsome
    constructor
    · exact h.size
    · exact h.serials
    · exact h.buffers
    · intro jobId' other
      show other ∈ (s.hub.subscribe jobId q replayBuffer).1.followers jobId' ↔
        ∃ r, update s.queues q (some ⟨jobId, replayBuffer, _, [], [], s.log.length, none⟩) other =
          some r ∧ r.jobId = jobId' ∧ r.left = none
      rw [LogHub.followers_subscribe]
      by_cases hother : other = q
      · rw [hother, update_self]
        split
        · next hjob =>
          exact iff_of_true (List.mem_append_right _ List.mem_cons_self) ⟨_, rfl, hjob.symm, rfl⟩
        · next hjob =>
          refine iff_of_false (hnone jobId') ?_
          rintro ⟨_, ⟨⟩, heq, -⟩
          exact hjob heq.symm
      · rw [update_of_ne hother, ← h.followers]
        split
        · next hjob => rw [List.mem_append, hjob, List.mem_singleton, or_iff_left hother]
        · rfl
    · intro jobId'
      show ((s.hub.subscribe jobId q replayBuffer).1.followers jobId').Nodup
      rw [LogHub.followers_subscribe]
      split
      · exact List.Nodup.append (h.nodup jobId) (List.nodup_singleton q)
          (List.disjoint_singleton.mpr (hnone jobId))
      · exact h.nodup jobId'
    · intro p e he
      obtain ⟨hpublisher, hsome⟩ := h.own p e he
      refine ⟨hpublisher, ?_⟩
      show (update s.queues q _ e.1).isSome = true
      by_cases hq : e.1 = q
      · rw [hq, update_self]; rfl
      · rw [update_of_ne hq]
        exact hsome
    · intro other r hr
      have hr : update s.queues q _ other = some r := hr
      by_cases hother : other = q
      · rw [hother, update_self] at hr
        cases hr
        exact ⟨le_rfl, nofun⟩
      · rw [update_of_ne hother] at hr
        exact h.inTime other r hr
    · intro other r hr p
      have hr : update s.queues q _ other = some r := hr
      show ofPublisher p r.received ++ owed other (s.puts p) =
        ofPublisher p (r.due bufferSize s.log)
      by_cases hother : other = q
      · rw [hother, update_self] at hr
        cases hr
        rw [hother, howed, List.append_nil]
        refine congrArg (ofPublisher p) ?_
        show (if replayBuffer then s.hub.buffer jobId else []) ++ [] =
          (if replayBuffer then ((s.log.take s.log.length).filter (·.jobId = jobId)).rtake bufferSize
            else []) ++ ((s.log.take s.log.length).drop s.log.length).filter (·.jobId = jobId)
        rw [List.take_length, List.drop_length, h.buffers]
        rfl
      · rw [update_of_ne hother] at hr
        exact h.balance other r hr p

/-- **One step.** -/
theorem Ok.step (h : s.Ok bufferSize) {call : Call} (hroom : s.HasRoom call)
    (hstep : s.step call = some s') : s'.Ok bufferSize := by
  cases call with
  | publish publisher jobId text => exact h.publish hstep
  | put publisher => exact h.put hroom hstep
  | subscribe q jobId replayBuffer => exact h.subscribe hstep
  | unsubscribe jobId q => exact h.unsubscribe hstep
  | get q => exact h.get hstep

/-- **A run.** -/
theorem ok_of_run {calls : List Call} (hroom : Along step HasRoom (init bufferSize) calls)
    (hrun : run step (init bufferSize) calls = some s) : s.Ok bufferSize :=
  run_inv_along (fun _ _ _ h hroom hstep => h.step hroom hstep) (ok_init bufferSize) hroom hrun

end Traffic

/-! ## Once, and in order -/

theorem Subscription.due_sublist {bufferSize : Nat} {log : List Line} {r : Subscription} :
    (r.due bufferSize log).Sublist log := by
  have hbefore : (if r.replayBuffer then
      ((log.take r.since).filter (·.jobId = r.jobId)).rtake bufferSize else []).Sublist
        (log.take r.since) := by
    split
    · exact (List.drop_sublist _ _).trans List.filter_sublist
    · exact List.nil_sublist _
  have hduring : (((log.take (r.left.getD log.length)).drop r.since).filter
      (·.jobId = r.jobId)).Sublist (log.drop r.since) :=
    List.filter_sublist.trans ((List.take_sublist _ _).drop _)
  have hboth := hbefore.append hduring
  rwa [List.take_append_drop] at hboth

theorem count_ofPublisher (line : Line) (lines : List Line) :
    (ofPublisher line.publisher lines).count line = lines.count line :=
  List.count_filter (decide_eq_true rfl)

namespace Traffic

/-- Some publisher has put the line into the hub, and not yet into `q`. -/
def Owes (s : Traffic) (q : Nat) (line : Line) : Prop := ∃ p, (q, line) ∈ s.puts p

variable {bufferSize : Nat} {s : Traffic}

theorem Ok.log_nodup (h : s.Ok bufferSize) : s.log.Nodup :=
  List.Nodup.of_map Line.serial (by rw [h.serials]; exact List.nodup_range)

theorem Ok.count {q : Nat} {r : Subscription} (h : s.Ok bufferSize) (hr : s.queues q = some r)
    (line : Line) : r.received.count line + (owed q (s.puts line.publisher)).count line =
      (r.due bufferSize s.log).count line := by
  have hcount := congrArg (List.count line) (h.balance q r hr line.publisher)
  rwa [List.count_append, count_ofPublisher, count_ofPublisher] at hcount

/-- **The hub neither loses nor duplicates.** In any run in which no line meets a full queue, a
    subscriber has each line that is due to it once, but for those still to be put into its
    queue; it has no other line, so none of another job; and it has the lines of one publisher
    in the order they were published. -/
theorem exactly_once {calls : List Call} {q : Nat} {r : Subscription}
    (hrun : run step (init bufferSize) calls = some s)
    (hroom : Along step HasRoom (init bufferSize) calls) (hr : s.queues q = some r) :
    (∀ line ∈ r.due bufferSize s.log, ¬ s.Owes q line → r.received.count line = 1) ∧
      (∀ line, s.Owes q line → line ∈ r.due bufferSize s.log ∧ line ∉ r.received) ∧
      (∀ line, line ∉ r.due bufferSize s.log → line ∉ r.received) ∧
      (∀ line ∈ r.received, line.jobId = r.jobId) ∧
      ∀ p, (r.received.filter (·.publisher = p)).Sublist s.log := by
  have h := ok_of_run hroom hrun
  have hnodup : (r.due bufferSize s.log).Nodup := h.log_nodup.sublist Subscription.due_sublist
  have hreceived (line : Line) (hdue : line ∉ r.due bufferSize s.log) : line ∉ r.received := by
    have hcount := h.count hr line
    rw [List.count_eq_zero.mpr hdue] at hcount
    exact List.count_eq_zero.mp (Nat.eq_zero_of_add_eq_zero_right hcount)
  refine ⟨fun line hdue howes => ?_, fun line howes => ?_, hreceived, fun line hline => ?_, fun p => ?_⟩
  · have hcount := h.count hr line
    have howed : line ∉ owed q (s.puts line.publisher) := fun hmem => howes ⟨_, mem_owed.mp hmem⟩
    rwa [List.count_eq_zero.mpr howed, List.count_eq_one_of_mem hnodup hdue] at hcount
  · have hcount := h.count hr line
    obtain ⟨p, hp⟩ := howes
    obtain rfl : line.publisher = p := (h.own p _ hp).1
    have howed : 0 < (owed q (s.puts line.publisher)).count line :=
      List.count_pos_iff.mpr (mem_owed.mpr hp)
    have hdue : (r.due bufferSize s.log).count line ≤ 1 := List.nodup_iff_count_le_one.mp hnodup line
    exact ⟨List.count_pos_iff.mp (by omega), List.count_eq_zero.mp (by omega)⟩
  · by_contra hne
    exact hreceived line (fun hdue => hne (Subscription.jobId_of_mem_due hdue)) hline
  · have hpart : (ofPublisher p r.received).Sublist (ofPublisher p (r.due bufferSize s.log)) := by
      rw [← h.balance q r hr p]
      exact List.sublist_append_left _ _
    exact hpart.trans (List.filter_sublist.trans Subscription.due_sublist)

/-- Two publishers and a follower. Of the first three lines the buffer has the last two; the
    line published first after that is put last, when the follower has unsubscribed. -/
def overtakenCalls : List Call :=
  [.publish 1 "j" "a", .publish 2 "k" "x", .publish 1 "j" "b", .publish 1 "j" "c",
    .subscribe 7 "j" true, .publish 1 "j" "d", .publish 2 "j" "e", .put 2, .unsubscribe "j" 7, .get 7,
    .publish 2 "j" "f", .put 1]

theorem exactly_once_overtaken : ∃ s r, run step (init 2) overtakenCalls = some s ∧
    s.queues 7 = some r ∧ r.received.map (·.text) = ["b".toList, "c".toList, "e".toList, "d".toList] ∧
    ∀ line ∈ r.due 2 s.log, ¬ s.Owes 7 line → r.received.count line = 1 := by
  have hroom : Along step HasRoom (init 2) overtakenCalls := by decide +kernel
  have htexts : ((run step (init 2) overtakenCalls).bind (·.queues 7)).map
      (fun r => r.received.map (·.text)) = some ["b".toList, "c".toList, "e".toList, "d".toList] := by
    decide +kernel
  obtain ⟨r, hqueue, htexts⟩ := Option.map_eq_some_iff.mp htexts
  obtain ⟨s, hrun, hr⟩ := Option.bind_eq_some_iff.mp hqueue
  exact ⟨s, r, hrun, hr, htexts, (exactly_once hrun hroom hr).1⟩

/-- When every call of `publish` has returned, what a subscriber has is what is due to it, up to
    the order of lines of different publishers. -/
theorem received_perm_due {calls : List Call} {q : Nat} {r : Subscription}
    (hrun : run step (init bufferSize) calls = some s)
    (hroom : Along step HasRoom (init bufferSize) calls) (hr : s.queues q = some r)
    (hdone : ∀ p, s.puts p = []) : r.received.Perm (r.due bufferSize s.log) := by
  refine List.perm_iff_count.mpr fun line => ?_
  rw [← (ok_of_run hroom hrun).count hr line, hdone]
  rfl

end Traffic

end Infinito.Jobs
