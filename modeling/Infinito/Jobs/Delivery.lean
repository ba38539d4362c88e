import Infinito.Jobs.Stream
import Infinito.Lib.Register

/-!
# Which lines reach a client

A client of `stream_logs` has its lines from the hub, by a buffer of the last lines and a queue
of the new ones, or from `job.log`. Every line is written to the file; the hub gets those that
the API writes, which are all of a job the API runs, and of one the runner manager runs those
before it starts. The client opens the file as long as it has had nothing from the hub.

So the two sources leave gaps and overlap. A client that asks for the log of a managed job from
its start is given what the hub has of it, and never opens the file, in which the rest is
(`managed_lines_missing`). `OneSource` is what it takes for each line to reach the client once:
it has its lines from one of the two, and that one has them all. In every run that meets it, a
client has had every line, once and in order, when it is told that the job is done
(`every_line_delivered`).

A line here is what an event carries before its secrets are masked.
-/

set_option autoImplicit false

namespace Infinito.Jobs

open Py Lib
open Register (lookup_filter_ne lookup_filter_self)

/-! ## A line in two steps -/

/-- The client an event is about. -/
def Event.client : Event → Option Nat
  | .sendBuffered id | .sendQueued id | .openLog id | .readLog id _ _ | .finish id | .detach id =>
      some id
  | _ => none

section

variable (so : SetOrder) (d : Deployment)

/-- Whether the API writes a line at an event. The manager's reader writes to the file alone. -/
def Event.publishes : Event → Bool
  | .queued _ | .starting _ | .startFailed _ _ => true
  | .emit _ => d.runner = .api
  | _ => false

/-- `_publish_job_line`, and a round of the reader's loop, until the line is in the file. -/
def Job.writes (job : Job) (event : Event) : Option Job :=
  match event with
  | .queued _ | .starting _ | .startFailed _ _ =>
      (job.published so d event).map fun line => job.write line
  | .emit _ => match job.reader, job.published so d event with
      | some ⟨buf, _ :: rest⟩, some line =>
          some ({ job with reader := some ⟨buf, rest⟩ }.write line)
      | _, _ => none
  | _ => none

/-- The rest of it, from `LogHub.publish` on. -/
def Job.publishes (job : Job) (line : Text) : Event → Job
  | .startFailed _ _ => { job.publish line with terminal := true, store := [] }
  | _ => job.publish line

/-- The two steps make the event. -/
theorem Job.step_eq_publishes {job : Job} {event : Event} {line : Text}
    (hpublishes : event.publishes d = true) (hline : job.published so d event = some line) :
    job.step so d event = (job.writes so d event).map fun job => job.publishes line event := by
  cases event with
  | queued ms => simp only [Job.step, Job.writes, hline, Option.map_some, Job.publishes]
  | starting ms => simp only [Job.step, Job.writes, hline, Option.map_some, Job.publishes]
  | startFailed ms exc => simp only [Job.step, Job.writes, hline, Option.map_some, Job.publishes]
  | emit ms =>
    have hapi : d.runner = .api := of_decide_eq_true hpublishes
    cases hreader : job.reader with
    | none => simp only [Job.step, Job.writes, hreader, Option.map_none]
    | some reader =>
      obtain ⟨buf, lines⟩ := reader
      cases lines with
      | nil => simp only [Job.step, Job.writes, hreader, Option.map_none]
      | cons raw rest =>
        simp only [Job.step, Job.writes, hreader, hline, hapi, Option.map_some, Job.publishes]
  | started | output _ | eof | exited | cancel | restart | attach _ _ | sendBuffered _
  | sendQueued _ | openLog _ | readLog _ _ _ | finish _ | detach _ => cases hpublishes

end

/-! ## One client and its lines -/

/-- A job that is watched through one client. -/
structure Watch where
  job : Job
  /-- the line that is in the file and on its way to the hub -/
  pending : Option (Text × Event)
  /-- how many lines of `job.log` are not the client's: those before it subscribed, unless it
      asked for a replay -/
  base : Nat
  delivered : List Text
  /-- at the `done` event: the lines it had, and the lines it was to have -/
  outcome : Option (List Text × List Text)

inductive Move where
  /-- the two steps of an event that publishes a line -/
  | write (event : Event)
  | publish
  /-- any other event -/
  | other (event : Event)

/-- The lines the client is sent at an event. -/
def Client.gives (job : Job) (c : Client) : Event → List Text
  | .sendBuffered _ => c.bufferedLines.take 1
  | .sendQueued _ => c.queue.take 1
  | .readLog _ n bytes => match c.tail with
      | none => []
      | some t => match t.read (fileText (job.log.drop t.skipped)) n bytes with
        | none => []
        | some (chunk, _) => (splitStream [] (c.buffer ++ chunk)).1
  | .finish _ => if c.buffer = [] then [] else [c.buffer]
  | _ => []

/-- A round of the loop finds no new data: the queue is empty, the file is read to its end, and
    opened if it had to be. -/
def Client.Drained (job : Job) (c : Client) : Prop :=
  c.bufferedLines = [] ∧ c.queue = [] ∧ match c.tail with
    | none => c.receivedHubData = true ∨ job.log = []
    | some t => t.pos = (fileText (job.log.drop t.skipped)).length

instance (job : Job) (c : Client) : Decidable (c.Drained job) := by
  unfold Client.Drained
  have : Decidable (match c.tail with
      | none => c.receivedHubData = true ∨ job.log = []
      | some t => t.pos = (fileText (job.log.drop t.skipped)).length) := by
    split <;> infer_instance
  infer_instance

section

variable (so : SetOrder) (d : Deployment) (id : Nat)

/-- The client is sent what the event gives it. -/
def Watch.serve (w : Watch) (c : Client) (job : Job) (event : Event) : Option Watch :=
  let delivered := w.delivered ++ c.gives w.job event
  match event with
  | .finish _ =>
      if c.Drained w.job then
        some { w with
          job := job
          delivered := delivered
          outcome := some (delivered, w.job.log.drop w.base) }
      else none
  | _ => some { w with job := job, delivered := delivered }

/-- An event that publishes nothing. -/
def Watch.event (w : Watch) (event : Event) : Option Watch :=
  match w.job.step so d event with
  | none => none
  | some job => match event with
    | .attach i replay =>
        if i = id then
          some ⟨job, w.pending, if replay then 0 else w.job.log.length, [], none⟩
        else some { w with job := job }
    | .restart => some { w with job := job, pending := none }
    | event =>
        if event.client = some id then
          match w.job.clients.lookup id with
          | none => none
          | some c => w.serve c job event
        else some { w with job := job }

def Watch.step (w : Watch) : Move → Option Watch
  | .write event =>
      if event.publishes d then
        match w.pending, w.job.published so d event, w.job.writes so d event with
        | none, some line, some job => some { w with job := job, pending := some (line, event) }
        | _, _, _ => none
      else none
  | .publish => match w.pending with
      | none => none
      | some (line, event) =>
          some { w with job := w.job.publishes line event, pending := none }
  | .other event => if event.publishes d then none else w.event so d id event

/-- A job that nobody watches yet. -/
def Watch.init : Watch := ⟨.init d, none, 0, [], none⟩

/-! ## The runs in which every line is delivered -/

/-- A line without a line end in it. -/
def Unbroken (line : Text) : Prop := ∀ c ∈ line, c ≠ '\n' ∧ c ≠ '\r'

/-- The client is going to read the file from its start. -/
def Client.toRead (c : Client) : Prop :=
  c.replay = true ∧ c.receivedHubData = false ∧ c.queue = []

/-- The client has its lines from one source, which has them all. -/
def OneSource (w : Watch) : Move → Prop
  -- the hub is to have the line: the client has not opened the file, nor is it going to
  | .write event => ∀ line ∈ w.job.published so d event, Unbroken line ∧
      ∀ c ∈ w.job.clients.lookup id, c.tail = none ∧ (c.toRead → w.job.log = [])
  | .publish => ∀ c ∈ w.job.clients.lookup id, c.queue.length < QUEUE_SIZE
  | .other event => match event with
      -- the hub is not to have it: the client has opened the file, or is going to
      | .emit _ => ∀ line ∈ w.job.published so d event, Unbroken line ∧
          ∀ c ∈ w.job.clients.lookup id, w.pending = none ∧ (c.tail ≠ none ∨ c.toRead)
      | .attach i replay => i = id →
          w.pending = none ∧ (replay = true → w.job.hub = w.job.log ∨ w.job.hub = [])
      | .openLog i => i = id → w.pending = none ∧ ∀ c ∈ w.job.clients.lookup id,
          c.queue = [] ∧ (c.replay = true ∨ w.job.log.length = w.base)
      -- no read ends inside a character
      | .readLog i _ bytes => i = id → bytes = 0
      -- the writer is done before the client is
      | .finish i => i = id → w.pending = none
      | _ => True

instance (line : Text) : Decidable (Unbroken line) :=
  List.decidableBAll (fun c => c ≠ '\n' ∧ c ≠ '\r') line

instance (c : Client) : Decidable c.toRead := inferInstanceAs (Decidable (_ ∧ _))

instance (w : Watch) : (move : Move) → Decidable (OneSource so d id w move)
  | .write _ => by unfold OneSource; infer_instance
  | .publish => by unfold OneSource; infer_instance
  | .other event => by cases event <;> (unfold OneSource; infer_instance)

end

/-! ## Lines and text -/

/-- Without carriage returns, the lines and the rest are the text, and have no line end. -/
theorem fileText_splitStream {acc t : Text} (hacc : Unbroken acc.reverse) (ht : '\r' ∉ t) :
    fileText (splitStream acc t).1 ++ (splitStream acc t).2 = acc.reverse ++ t ∧
      (∀ line ∈ (splitStream acc t).1, Unbroken line) ∧ Unbroken (splitStream acc t).2 := by
  induction t generalizing acc with
  | nil =>
    refine ⟨by simp [splitStream, fileText], ?_, hacc⟩
    intro line hline
    cases hline
  | cons c t ih =>
    have hcr : c ≠ '\r' := fun h => ht (h ▸ List.mem_cons_self)
    have ht' : '\r' ∉ t := fun h => ht (List.mem_cons_of_mem _ h)
    unfold splitStream
    by_cases hc : c = '\n'
    · have hnil : Unbroken ([] : Text).reverse := by intro c hc; cases hc
      obtain ⟨htext, hlines, hrest⟩ := ih hnil ht'
      rw [if_pos (Or.inl hc)]
      dsimp only
      refine ⟨?_, ?_, hrest⟩
      · rw [fileText, List.flatMap_cons, List.append_assoc, List.append_assoc]
        show acc.reverse ++ (['\n'] ++ (fileText _ ++ _)) = _
        rw [htext, hc]
        rfl
      · intro line hline
        rcases List.mem_cons.mp hline with rfl | hline
        · exact hacc
        · exact hlines line hline
    · rw [if_neg (by simp [hc, hcr])]
      have hacc' : Unbroken (c :: acc).reverse := by
        intro x hx
        rw [List.reverse_cons] at hx
        rcases List.mem_append.mp hx with hx | hx
        · exact hacc x hx
        · rw [List.mem_singleton.mp hx]
          exact ⟨hc, hcr⟩
      have := ih hacc' ht'
      rwa [List.reverse_cons, List.append_assoc] at this

theorem splitStream_unbroken {acc r : Text} (hr : Unbroken r) :
    splitStream acc r = ([], acc.reverse ++ r) := by
  induction r generalizing acc with
  | nil => simp [splitStream]
  | cons c r ih =>
    obtain ⟨hn, hcr⟩ := hr c List.mem_cons_self
    rw [splitStream, if_neg (by simp [hn, hcr]), ih fun x hx => hr x (List.mem_cons_of_mem _ hx)]
    simp

theorem splitStream_line {acc line t : Text} (hline : Unbroken line) :
    splitStream acc (line ++ '\n' :: t) =
      ((acc.reverse ++ line) :: (splitStream [] t).1, (splitStream [] t).2) := by
  induction line generalizing acc with
  | nil => simp [splitStream]
  | cons c line ih =>
    obtain ⟨hn, hcr⟩ := hline c List.mem_cons_self
    rw [List.cons_append, splitStream, if_neg (by simp [hn, hcr]),
      ih fun x hx => hline x (List.mem_cons_of_mem _ hx)]
    simp

/-- A file and what follows it are split where they were joined. -/
theorem splitStream_fileText {lines : List Text} {r : Text}
    (hlines : ∀ line ∈ lines, Unbroken line) (hr : Unbroken r) : splitStream [] (fileText lines ++ r) = (lines, r) := by
  induction lines with
  | nil =>
    show splitStream [] r = ([], r)
    rw [splitStream_unbroken hr]
    rfl
  | cons line lines ih =>
    have hjoin : fileText (line :: lines) ++ r = line ++ '\n' :: (fileText lines ++ r) := by
      simp [fileText]
    rw [hjoin, splitStream_line (hlines line List.mem_cons_self),
      ih fun l hl => hlines l (List.mem_cons_of_mem _ hl)]
    rfl

theorem no_cr_of_unbroken {lines : List Text} (hlines : ∀ line ∈ lines, Unbroken line) :
    '\r' ∉ fileText lines := by
  intro hmem
  obtain ⟨line, hline, hc⟩ := List.mem_flatMap.mp hmem
  rcases List.mem_append.mp hc with hc | hc
  · exact (hlines line hline '\r' hc).2 rfl
  · exact absurd (List.mem_singleton.mp hc) (by decide)

/-! ## What the client has had -/

/-- Where the lines of a client have got to: some are delivered, and the others are still with
    the hub or on their way to it, in the file it has opened, or in the file it is going to
    read from the start. -/
inductive Fed (log : List Text) (base : Nat) (pending : Option Text) (delivered : List Text)
    (c : Client) : Prop
  | hub (closed : c.tail = none) (unread : c.buffer = [])
      (fresh : c.receivedHubData = false → c.bufferedLines = [] ∧ delivered = [])
      (lines : delivered ++ c.bufferedLines ++ c.queue ++ pending.toList = log.drop base)
  | waiting (closed : c.tail = none) (unread : c.buffer = []) (toRead : c.toRead)
      (settled : pending = none) (buffered : c.bufferedLines = []) (undelivered : delivered = [])
  | file (t : Tail) (opened : c.tail = some t) (skipped : t.skipped = base) (owed : t.owed = 0)
      (settled : pending = none) (buffered : c.bufferedLines = []) (queue : c.queue = [])
      (within : t.pos ≤ (fileText (log.drop base)).length)
      (lines : fileText delivered ++ c.buffer = (fileText (log.drop base)).take t.pos)
      (unbroken : (∀ line ∈ delivered, Unbroken line) ∧ Unbroken c.buffer)

/-- A client is where its lines are; one that asked for a replay is to have them all. -/
structure OnTime (log : List Text) (base : Nat) (pending : Option Text) (delivered : List Text)
    (c : Client) : Prop where
  replay : c.replay = true → base = 0
  fed : Fed log base pending delivered c

structure Kept (id : Nat) (w : Watch) : Prop where
  unbroken : ∀ line ∈ w.job.log, Unbroken line
  base : w.base ≤ w.job.log.length
  client : ∀ c, w.job.clients.lookup id = some c →
    OnTime w.job.log w.base (w.pending.map Prod.fst) w.delivered c
  outcome : ∀ o ∈ w.outcome, o.1 = o.2

section Writes

variable {log delivered : List Text} {base : Nat} {c : Client} {line : Text}

/-- A line is written that the hub will have. -/
theorem OnTime.write (h : OnTime log base none delivered c) (hbase : base ≤ log.length)
    (hclosed : c.tail = none) (hall : c.toRead → log = []) :
    OnTime (log ++ [line]) base (some line) delivered c := by
  have hdrop : (log ++ [line]).drop base = log.drop base ++ [line] :=
    List.drop_append_of_le_length hbase
  refine ⟨h.replay, ?_⟩
  cases h.fed with
  | hub closed unread fresh lines =>
    refine .hub closed unread fresh ?_
    rw [hdrop, ← lines]
    simp
  | waiting closed unread toRead settled buffered undelivered =>
    refine .hub closed unread (fun _ => ⟨buffered, undelivered⟩) ?_
    rw [hdrop, hall toRead, undelivered, buffered, toRead.2.2]
    simp
  | file t opened skipped owed settled buffered queue within lines unbroken =>
    rw [hclosed] at opened
    cases opened

/-- The hub has it. -/
theorem OnTime.publish (h : OnTime log base (some line) delivered c)
    (hroom : c.queue.length < QUEUE_SIZE) : OnTime log base none delivered (c.push line) := by
  have hpush : c.push line = { c with queue := c.queue ++ [line] } := if_pos hroom
  rw [hpush]
  refine ⟨h.replay, ?_⟩
  cases h.fed with
  | hub closed unread fresh lines =>
    refine .hub closed unread fresh ?_
    rw [← lines]
    simp
  | waiting closed unread toRead settled buffered undelivered => cases settled
  | file t opened skipped owed settled buffered queue within lines unbroken => cases settled

/-- A line is written that the hub will not have. -/
theorem OnTime.emit (h : OnTime log base none delivered c) (hbase : base ≤ log.length)
    (hreads : c.tail ≠ none ∨ c.toRead) : OnTime (log ++ [line]) base none delivered c := by
  refine ⟨h.replay, ?_⟩
  cases h.fed with
  | hub closed unread fresh lines =>
    rcases hreads with hopened | htoRead
    · exact absurd closed hopened
    · obtain ⟨hbuffered, hdelivered⟩ := fresh htoRead.2.1
      exact .waiting closed unread htoRead rfl hbuffered hdelivered
  | waiting closed unread toRead settled buffered undelivered =>
    exact .waiting closed unread toRead settled buffered undelivered
  | file t opened skipped owed settled buffered queue within lines unbroken =>
    have htext : fileText ((log ++ [line]).drop base) =
        fileText (log.drop base) ++ fileText [line] := by
      rw [List.drop_append_of_le_length hbase, fileText_append]
    refine .file t opened skipped owed settled buffered queue ?_ ?_ unbroken
    · rw [htext, List.length_append]
      omega
    · rw [htext, List.take_append_of_le_length within]
      exact lines

end Writes

section Clients

variable {so : SetOrder} {d : Deployment} {id i : Nat} {job job' : Job} {c : Client}

theorem lookup_pushed (id : Nat) (clients : List (Nat × Client)) (line : Text) :
    (clients.map fun (i, c) => (i, c.push line)).lookup id =
      (clients.lookup id).map fun c => c.push line := by
  induction clients with
  | nil => rfl
  | cons e clients ih =>
    rw [List.map_cons, List.lookup_cons, List.lookup_cons, ih]
    cases id == e.1 <;> rfl

theorem lookup_setClient (job : Job) (id : Nat) (c : Client) :
    (job.setClient id c).clients.lookup id = some c := by
  simp [Job.setClient]

theorem lookup_without (job : Job) (id : Nat) : (job.without id).clients.lookup id = none :=
  lookup_filter_self job.clients id

theorem lookup_without_ne (job : Job) (h : id ≠ i) :
    (job.without i).clients.lookup id = job.clients.lookup id := lookup_filter_ne h

theorem lookup_setClient_ne (job : Job) (c : Client) (h : id ≠ i) :
    (job.setClient i c).clients.lookup id = job.clients.lookup id := by
  have hne : (id == i) = false := by simpa using h
  rw [Job.setClient, List.lookup_cons, hne]
  exact lookup_without_ne job h

theorem sendAll_same (so : SetOrder) (job : Job) (c : Client) (lines : List Text) :
    (lines.foldl (fun j line => j.send so c line) job).log = job.log ∧
      (lines.foldl (fun j line => j.send so c line) job).clients = job.clients := by
  induction lines generalizing job with
  | nil => exact ⟨rfl, rfl⟩
  | cons line lines ih => exact ih (job.send so c line)

theorem lookup_setClient_sendAll (lines : List Text) (c' : Client) (h : id ≠ i) :
    ((lines.foldl (fun j line => j.send so c line) job).setClient i c').clients.lookup id =
      job.clients.lookup id := by
  rw [lookup_setClient_ne _ _ h, (sendAll_same so job c lines).2]

/-- An event of one client is nothing to the others, and writes no line. -/
theorem stepClient_other {event : Event} (h : job.stepClient so i c event = some job')
    (hne : id ≠ i) : job'.log = job.log ∧ job'.clients.lookup id = job.clients.lookup id := by
  unfold Job.stepClient at h
  split at h
  · split at h
    · cases h
    · cases h
      exact ⟨rfl, lookup_setClient_ne _ _ hne⟩
  · split at h
    · cases h
      exact ⟨rfl, lookup_setClient_ne _ _ hne⟩
    · cases h
  · split at h
    · cases h
      exact ⟨rfl, lookup_setClient_ne _ _ hne⟩
    · cases h
  · split at h
    · cases h
    · split at h
      · cases h
      · cases h
        exact ⟨(sendAll_same so job c _).1, lookup_setClient_sendAll _ _ hne⟩
  · split at h
    · cases h
      split
      · exact ⟨rfl, lookup_without_ne _ hne⟩
      · exact ⟨rfl, lookup_without_ne _ hne⟩
    · cases h
  · cases h
    exact ⟨rfl, lookup_without_ne _ hne⟩
  · cases h

/-- A read that cuts no character returns the next piece of the file. -/
theorem read_whole {t t' : Tail} {text chunk : Text} {n : Nat} (howed : t.owed = 0)
    (h : t.read text n 0 = some (chunk, t')) :
    t' = { t with pos := t.pos + n } ∧ t.pos + n ≤ max t.pos text.length ∧
      text.take t.pos ++ chunk = text.take (t.pos + n) := by
  simp only [Tail.read, howed, if_true, List.replicate_zero, List.nil_append] at h
  split at h
  · cases h
  · rename_i hlen
    rw [List.length_drop] at hlen
    obtain ⟨rfl, rfl⟩ := Prod.mk.inj (Option.some.inj h)
    refine ⟨by cases t; cases howed; rfl, by omega, ?_⟩
    rw [List.take_add]

/-- The client reads on in the file. -/
theorem Fed.read {log delivered : List Text} {base n : Nat} {pending : Option Text} {t t' : Tail}
    {chunk : Text} (hlog : ∀ line ∈ log, Unbroken line) (h : Fed log base pending delivered c)
    (ht : c.tail = some t) (hread : t.read (fileText (log.drop t.skipped)) n 0 = some (chunk, t')) :
    Fed log base pending (delivered ++ (splitStream [] (c.buffer ++ chunk)).1)
      { c with tail := some t', buffer := (splitStream [] (c.buffer ++ chunk)).2 } := by
  cases h with
  | hub closed unread fresh lines =>
    rw [closed] at ht
    cases ht
  | waiting closed unread toRead settled buffered undelivered =>
    rw [closed] at ht
    cases ht
  | file u opened skipped owed settled buffered queue within lines unbroken =>
    rw [opened] at ht
    cases ht
    rw [skipped] at hread
    obtain ⟨rfl, hwithin, hpiece⟩ := read_whole owed hread
    have hcr : '\r' ∉ fileText (log.drop base) :=
      no_cr_of_unbroken fun line hline => hlog line (List.mem_of_mem_drop hline)
    -- what was delivered, what is buffered and what was read now are one stretch of the file
    have hstretch : fileText delivered ++ (c.buffer ++ chunk) =
        (fileText (log.drop base)).take (t.pos + n) := by
      rw [← List.append_assoc, lines, hpiece]
    have hsplit : '\r' ∉ c.buffer ++ chunk := by
      intro hmem
      refine hcr (List.mem_of_mem_take (i := t.pos + n) ?_)
      rw [← hstretch]
      exact List.mem_append_right _ hmem
    have hnil : Unbroken ([] : Text).reverse := by intro x hx; cases hx
    obtain ⟨htext, hnew, hrest⟩ := fileText_splitStream hnil hsplit
    refine .file _ rfl skipped owed settled buffered queue ?_ ?_ ⟨fun line hline => ?_, hrest⟩
    · dsimp only
      omega
    · dsimp only
      rw [fileText_append, List.append_assoc, htext]
      exact hstretch
    · rcases List.mem_append.mp hline with hline | hline
      · exact unbroken.1 line hline
      · exact hnew line hline

/-- The file is opened where the client's lines begin. -/
theorem OnTime.openLog {log delivered : List Text} {base : Nat}
    (h : OnTime log base none delivered c) (hbuffered : c.bufferedLines = [])
    (hfresh : c.receivedHubData = false) (hclosed : c.tail = none) (hqueue : c.queue = [])
    (hstart : c.replay = true ∨ log.length = base) :
    OnTime log base none delivered
      { c with tail := some ⟨if c.replay then 0 else log.length, 0, 0⟩ } := by
  have hskipped : (if c.replay then 0 else log.length) = base := by
    cases hreplay : c.replay with
    | true => exact (h.replay hreplay).symm
    | false =>
      rcases hstart with hstart | hstart
      · rw [hreplay] at hstart
        cases hstart
      · exact hstart
  -- nothing is delivered before the file is opened
  have hbefore : delivered = [] ∧ c.buffer = [] := by
    cases h.fed with
    | hub closed unread fresh lines => exact ⟨(fresh hfresh).2, unread⟩
    | waiting closed unread toRead settled buffered undelivered => exact ⟨undelivered, unread⟩
    | file t opened skipped owed settled buffered queue within lines unbroken =>
      rw [hclosed] at opened
      cases opened
  obtain ⟨rfl, hunread⟩ := hbefore
  have hnil : Unbroken [] := by intro x hx; cases hx
  refine ⟨h.replay, .file _ rfl hskipped rfl rfl hbuffered hqueue (Nat.zero_le _) ?_ ?_⟩
  · rw [hunread]
    rfl
  · rw [hunread]
    exact ⟨by simp, hnil⟩

/-- **At the end the client has had its lines.** -/
theorem Fed.complete {delivered : List Text} {base : Nat} {job : Job}
    (hlog : ∀ line ∈ job.log, Unbroken line) (h : Fed job.log base none delivered c)
    (hdrained : c.Drained job) : c.buffer = [] ∧ delivered = job.log.drop base := by
  obtain ⟨hbuffered, hqueue, hend⟩ := hdrained
  cases h with
  | hub closed unread fresh lines =>
    rw [hbuffered, hqueue, List.append_nil, Option.toList_none, List.append_nil,
      List.append_nil] at lines
    exact ⟨unread, lines⟩
  | waiting closed unread toRead settled buffered undelivered =>
    rw [closed] at hend
    rcases hend with hend | hend
    · rw [toRead.2.1] at hend
      cases hend
    · rw [undelivered, hend, List.drop_nil]
      exact ⟨unread, rfl⟩
  | file t opened skipped owed settled buffered queue within lines unbroken =>
    rw [opened] at hend
    dsimp only at hend
    rw [skipped] at hend
    rw [hend, List.take_length] at lines
    have hleft := splitStream_fileText unbroken.1 unbroken.2
    have hnil : Unbroken [] := by intro x hx; cases hx
    have hright := splitStream_fileText (r := [])
      (fun line hline => hlog line (List.mem_of_mem_drop (i := base) hline)) hnil
    rw [List.append_nil, ← lines, hleft] at hright
    exact ⟨congrArg Prod.snd hright, congrArg Prod.fst hright⟩

end Clients

/-! ## One move -/

section Moves

variable {so : SetOrder} {d : Deployment} {id i : Nat} {job job' : Job} {event : Event}
  {line : Text} {w w' : Watch}

theorem writes_spec (h : job.writes so d event = some job')
    (hline : job.published so d event = some line) :
    job'.log = job.log ++ [line] ∧ job'.clients = job.clients := by
  cases event with
  | queued ms =>
    simp only [Job.writes, hline, Option.map_some] at h
    cases h
    exact ⟨rfl, rfl⟩
  | starting ms =>
    simp only [Job.writes, hline, Option.map_some] at h
    cases h
    exact ⟨rfl, rfl⟩
  | startFailed ms exc =>
    simp only [Job.writes, hline, Option.map_some] at h
    cases h
    exact ⟨rfl, rfl⟩
  | emit ms =>
    simp only [Job.writes, hline] at h
    split at h
    · rename_i hsame
      cases hsame
      cases h
      exact ⟨rfl, rfl⟩
    · cases h
  | started | output _ | eof | exited | cancel | restart | attach _ _ | sendBuffered _
  | sendQueued _ | openLog _ | readLog _ _ _ | finish _ | detach _ => cases hline

theorem publishes_spec (id : Nat) (job : Job) (line : Text) (event : Event) :
    (job.publishes line event).log = job.log ∧
      (job.publishes line event).clients.lookup id =
        (job.clients.lookup id).map fun c => c.push line := by
  have hlookup := lookup_pushed id job.clients line
  unfold Job.publishes
  split <;> (refine ⟨?_, hlookup⟩; simp only [Job.publish])

/-- The manager's reader writes a line, and tells nobody. -/
theorem emit_spec {ms : Nat} (hmanager : (Event.emit ms).publishes d = false)
    (h : job.step so d (.emit ms) = some job') :
    ∃ line, job.published so d (.emit ms) = some line ∧ job'.log = job.log ++ [line] ∧
      job'.clients = job.clients := by
  have hrunner : d.runner = .manager := by
    cases hd : d.runner with
    | manager => rfl
    | api =>
      simp only [Event.publishes, hd] at hmanager
      cases hmanager
  simp only [Job.step, hrunner] at h
  split at h
  · rename_i hline
    cases h
    exact ⟨_, hline, rfl, rfl⟩
  · cases h

/-- Nothing a client could see has changed. -/
theorem Kept.same (h : Kept id w) (hlog : job.log = w.job.log)
    (hclient : job.clients.lookup id = w.job.clients.lookup id) : Kept id { w with job := job } := by
  refine ⟨?_, ?_, ?_, h.outcome⟩
  · rw [hlog]
    exact h.unbroken
  · rw [hlog]
    exact h.base
  · dsimp only
    rw [hlog, hclient]
    exact h.client

theorem Kept.unbroken_append {log : List Text} (h : ∀ l ∈ log, Unbroken l)
    (hline : Unbroken line) : ∀ l ∈ log ++ [line], Unbroken l := by
  intro l hl
  rcases List.mem_append.mp hl with hl | hl
  · exact h l hl
  · rw [List.mem_singleton.mp hl]
    exact hline

theorem Kept.write (h : Kept id w) (hok : OneSource so d id w (.write event))
    (hstep : w.step so d id (.write event) = some w') : Kept id w' := by
  simp only [Watch.step] at hstep
  split at hstep
  · split at hstep
    · rename_i line job hpending hline hjob
      cases hstep
      obtain ⟨hunbroken, hclients⟩ := hok line hline
      obtain ⟨hlog, hsame⟩ := writes_spec hjob hline
      refine ⟨?_, ?_, ?_, h.outcome⟩
      · dsimp only
        rw [hlog]
        exact Kept.unbroken_append h.unbroken hunbroken
      · dsimp only
        rw [hlog, List.length_append]
        exact le_trans h.base (Nat.le_add_right _ _)
      · intro c hc
        dsimp only at hc ⊢
        rw [hsame] at hc
        rw [hlog]
        have hfed := h.client c hc
        rw [hpending] at hfed
        obtain ⟨hclosed, hall⟩ := hclients c hc
        exact hfed.write h.base hclosed hall
    · cases hstep
  · cases hstep

theorem Kept.publish (h : Kept id w) (hok : OneSource so d id w .publish)
    (hstep : w.step so d id .publish = some w') : Kept id w' := by
  simp only [Watch.step] at hstep
  split at hstep
  · cases hstep
  · rename_i line event hpending
    cases hstep
    obtain ⟨hlog, hlookup⟩ := publishes_spec id w.job line event
    refine ⟨?_, ?_, ?_, h.outcome⟩
    · dsimp only
      rw [hlog]
      exact h.unbroken
    · dsimp only
      rw [hlog]
      exact h.base
    · intro c hc
      dsimp only at hc ⊢
      rw [hlookup] at hc
      obtain ⟨c₀, hc₀, rfl⟩ := Option.map_eq_some_iff.mp hc
      rw [hlog]
      have hfed := h.client c₀ hc₀
      rw [hpending] at hfed
      exact hfed.publish (hok c₀ hc₀)

theorem Kept.emit {ms : Nat} (h : Kept id w) (hok : OneSource so d id w (.other (.emit ms)))
    (hmanager : (Event.emit ms).publishes d = false)
    (hstep : w.job.step so d (.emit ms) = some job) : Kept id { w with job := job } := by
  obtain ⟨line, hline, hlog, hsame⟩ := emit_spec hmanager hstep
  obtain ⟨hunbroken, hclients⟩ := hok line hline
  refine ⟨?_, ?_, ?_, h.outcome⟩
  · dsimp only
    rw [hlog]
    exact Kept.unbroken_append h.unbroken hunbroken
  · dsimp only
    rw [hlog, List.length_append]
    exact le_trans h.base (Nat.le_add_right _ _)
  · intro c hc
    dsimp only at hc ⊢
    rw [hsame] at hc
    rw [hlog]
    have hfed := h.client c hc
    obtain ⟨hpending, hreads⟩ := hclients c hc
    rw [hpending] at hfed ⊢
    exact hfed.emit h.base hreads

/-- The client subscribes. -/
theorem Kept.attach {replay : Bool} (h : Kept id w)
    (hok : OneSource so d id w (.other (.attach id replay)))
    (hstep : w.job.step so d (.attach id replay) = some job) :
    Kept id ⟨job, w.pending, if replay then 0 else w.job.log.length, [], none⟩ := by
  obtain ⟨hpending, hreplay⟩ := hok rfl
  simp only [Job.step] at hstep
  split at hstep
  · cases hstep
    refine ⟨h.unbroken, ?_, ?_, ?_⟩
    · dsimp only
      split
      · exact Nat.zero_le _
      · exact le_refl _
    · intro c hc
      dsimp only at hc ⊢
      rw [lookup_setClient] at hc
      cases hc
      rw [hpending]
      cases replay with
      | false =>
        refine ⟨fun h => absurd h Bool.false_ne_true, ?_⟩
        -- without replay the client begins at the end of the log
        refine .hub rfl rfl (fun _ => ⟨rfl, rfl⟩) ?_
        exact (List.drop_length (l := w.job.log)).symm
      | true =>
        refine ⟨fun _ => rfl, ?_⟩
        -- with replay it begins with what the hub holds, or waits for the file to be opened
        by_cases hempty : w.job.hub = []
        · refine .waiting rfl rfl ⟨rfl, ?_, rfl⟩ rfl hempty rfl
          simp [hempty]
        · have hhub : w.job.hub = w.job.log := (hreplay rfl).resolve_right hempty
          refine .hub rfl rfl (fun hfresh => ?_) ?_
          · simp [hempty] at hfresh
          · rw [List.append_nil, List.nil_append, if_pos rfl, hhub]
            exact List.append_nil _
    · intro o ho
      cases ho
  · cases hstep

/-- The client takes a step of its loop, and has its lines as before. -/
theorem Kept.of_client {c' : Client} {delivered : List Text} (h : Kept id w)
    (hlog : job.log = w.job.log) (hclient : job.clients.lookup id = some c')
    (hfed : OnTime w.job.log w.base (w.pending.map Prod.fst) delivered c') :
    Kept id { w with job := job, delivered := delivered } := by
  refine ⟨?_, ?_, ?_, h.outcome⟩
  · rw [hlog]
    exact h.unbroken
  · rw [hlog]
    exact h.base
  · intro c hc
    dsimp only at hc ⊢
    rw [hclient] at hc
    cases hc
    rw [hlog]
    exact hfed

/-- The client is gone. -/
theorem Kept.leave (h : Kept id w) (hlog : job.log = w.job.log)
    (hclient : job.clients.lookup id = none) {delivered : List Text}
    {outcome : Option (List Text × List Text)} (houtcome : ∀ o ∈ outcome, o.1 = o.2) :
    Kept id { w with job := job, delivered := delivered, outcome := outcome } := by
  refine ⟨?_, ?_, ?_, houtcome⟩
  · rw [hlog]
    exact h.unbroken
  · rw [hlog]
    exact h.base
  · intro c hc
    dsimp only at hc
    rw [hclient] at hc
    cases hc

variable {c : Client}

theorem Kept.sendBuffered (h : Kept id w) (hc : w.job.clients.lookup id = some c)
    (hstep : w.job.stepClient so id c (.sendBuffered id) = some job) :
    Kept id { w with job := job, delivered := w.delivered ++ c.bufferedLines.take 1 } := by
  have hfed := h.client c hc
  simp only [Job.stepClient] at hstep
  split at hstep
  · cases hstep
  · rename_i line rest hbuffered
    cases hstep
    refine h.of_client rfl (lookup_setClient _ _ _) ⟨hfed.replay, ?_⟩
    rw [hbuffered]
    cases hfed.fed with
    | hub closed unread fresh lines =>
      refine .hub closed unread (fun hfresh => ?_) ?_
      · rw [(fresh hfresh).1] at hbuffered
        cases hbuffered
      · rw [hbuffered] at lines
        rw [← lines]
        simp
    | waiting closed unread toRead settled buffered undelivered =>
      rw [buffered] at hbuffered
      cases hbuffered
    | file t opened skipped owed settled buffered queue within lines unbroken =>
      rw [buffered] at hbuffered
      cases hbuffered

theorem Kept.sendQueued (h : Kept id w) (hc : w.job.clients.lookup id = some c)
    (hstep : w.job.stepClient so id c (.sendQueued id) = some job) :
    Kept id { w with job := job, delivered := w.delivered ++ c.queue.take 1 } := by
  have hfed := h.client c hc
  simp only [Job.stepClient] at hstep
  split at hstep
  · rename_i line rest hbuffered hqueue
    cases hstep
    refine h.of_client rfl (lookup_setClient _ _ _) ⟨hfed.replay, ?_⟩
    rw [hqueue]
    cases hfed.fed with
    | hub closed unread fresh lines =>
      refine .hub closed unread (fun hfresh => absurd hfresh.symm Bool.false_ne_true) ?_
      rw [hqueue, hbuffered] at lines
      rw [← lines]
      simp [hbuffered]
    | waiting closed unread toRead settled buffered undelivered =>
      rw [toRead.2.2] at hqueue
      cases hqueue
    | file t opened skipped owed settled buffered queue within lines unbroken =>
      rw [queue] at hqueue
      cases hqueue
  · cases hstep

theorem Kept.openLog (h : Kept id w) (hc : w.job.clients.lookup id = some c)
    (hok : OneSource so d id w (.other (.openLog id)))
    (hstep : w.job.stepClient so id c (.openLog id) = some job) :
    Kept id { w with job := job, delivered := w.delivered ++ [] } := by
  obtain ⟨hpending, hclient⟩ := hok rfl
  obtain ⟨hqueue, hstart⟩ := hclient c hc
  have hfed := h.client c hc
  simp only [Job.stepClient] at hstep
  split at hstep
  · rename_i hopen
    obtain ⟨hbuffered, hfresh, hclosed⟩ := hopen
    cases hstep
    rw [hpending] at hfed
    refine h.of_client rfl (lookup_setClient _ _ _) ?_
    rw [hpending, List.append_nil]
    exact hfed.openLog hbuffered hfresh hclosed hqueue hstart
  · cases hstep

theorem Kept.readLog {n bytes : Nat} (h : Kept id w) (hc : w.job.clients.lookup id = some c)
    (hok : OneSource so d id w (.other (.readLog id n bytes)))
    (hstep : w.job.stepClient so id c (.readLog id n bytes) = some job) :
    Kept id { w with
      job := job, delivered := w.delivered ++ c.gives w.job (.readLog id n bytes) } := by
  obtain rfl : bytes = 0 := hok rfl
  have hfed := h.client c hc
  simp only [Job.stepClient] at hstep
  split at hstep
  · cases hstep
  · rename_i t ht
    split at hstep
    · cases hstep
    · rename_i chunk t' hread
      cases hstep
      refine h.of_client ?_ (lookup_setClient _ _ _) ⟨hfed.replay, ?_⟩
      · exact (sendAll_same so w.job c _).1
      · have hgives : c.gives w.job (.readLog id n 0) =
            (splitStream [] (c.buffer ++ chunk)).1 := by
          simp only [Client.gives, ht, hread]
        rw [hgives]
        exact hfed.fed.read h.unbroken ht hread

/-- **The `done` event.** -/
theorem Kept.finish (h : Kept id w) (hc : w.job.clients.lookup id = some c)
    (hpending : w.pending = none) (hdrained : c.Drained w.job)
    (hstep : w.job.stepClient so id c (.finish id) = some job) :
    Kept id { w with
      job := job
      delivered := w.delivered ++ c.gives w.job (.finish id)
      outcome := some (w.delivered ++ c.gives w.job (.finish id), w.job.log.drop w.base) } := by
  have hfed := (h.client c hc).fed
  rw [hpending] at hfed
  obtain ⟨hbuffer, hdelivered⟩ := hfed.complete h.unbroken hdrained
  simp only [Job.stepClient, hbuffer, if_true] at hstep
  split at hstep
  · cases hstep
    have hlog : (w.job.without id).log = w.job.log := rfl
    refine h.leave hlog (lookup_without _ _) ?_
    intro o ho
    cases ho
    simp only [Client.gives, hbuffer, if_true, List.append_nil]
    exact hdelivered
  · cases hstep

theorem Kept.detach (h : Kept id w) (hstep : w.job.stepClient so id c (.detach id) = some job) :
    Kept id { w with job := job, delivered := w.delivered ++ [] } := by
  simp only [Job.stepClient] at hstep
  cases hstep
  have hlog : (w.job.without id).log = w.job.log := rfl
  exact h.leave hlog (lookup_without _ _) h.outcome

theorem Kept.served (h : Kept id w) (hclient : event.client = some id)
    (hc : w.job.clients.lookup id = some c) (hok : OneSource so d id w (.other event))
    (hstep : w.job.stepClient so id c event = some job)
    (hserve : w.serve c job event = some w') : Kept id w' := by
  cases event with
  | sendBuffered i =>
    cases hclient
    cases hserve
    exact h.sendBuffered hc hstep
  | sendQueued i =>
    cases hclient
    cases hserve
    exact h.sendQueued hc hstep
  | openLog i =>
    cases hclient
    cases hserve
    exact h.openLog hc hok hstep
  | readLog i n bytes =>
    cases hclient
    cases hserve
    exact h.readLog hc hok hstep
  | finish i =>
    cases hclient
    simp only [Watch.serve] at hserve
    split at hserve
    · rename_i hdrained
      cases hserve
      exact h.finish hc (hok rfl) hdrained hstep
    · cases hserve
  | detach i =>
    cases hclient
    cases hserve
    exact h.detach hstep
  | queued _ | starting _ | startFailed _ _ | started | output _ | eof | emit _ | exited | cancel
  | restart | attach _ _ => cases hclient

/-- What is neither a line, nor a client's, nor the end of the API, touches no log and no
    client. -/
theorem step_quiet (hpublishes : event.publishes d = false) (hclient : event.client = none)
    (hemit : ∀ ms, event ≠ .emit ms) (hattach : ∀ i replay, event ≠ .attach i replay)
    (hrestart : event ≠ .restart) (h : job.step so d event = some job') :
    job'.log = job.log ∧ job'.clients = job.clients := by
  cases event with
  | queued _ | starting _ | startFailed _ _ => cases hpublishes
  | sendBuffered _ | sendQueued _ | openLog _ | readLog _ _ _ | finish _ | detach _ =>
    cases hclient
  | emit ms => exact absurd rfl (hemit ms)
  | attach i replay => exact absurd rfl (hattach i replay)
  | restart => exact absurd rfl hrestart
  | started =>
    simp only [Job.step] at h
    split at h
    · cases h
      exact ⟨rfl, rfl⟩
    · cases h
  | output chunk =>
    simp only [Job.step] at h
    split at h
    · cases h
      exact ⟨rfl, rfl⟩
    · cases h
  | eof =>
    simp only [Job.step] at h
    split at h
    · cases h
      exact ⟨rfl, rfl⟩
    · cases h
  | exited =>
    simp only [Job.step] at h
    cases h
    exact ⟨rfl, rfl⟩
  | cancel =>
    simp only [Job.step] at h
    split at h
    · cases h
      exact ⟨rfl, rfl⟩
    · cases h
      exact ⟨rfl, rfl⟩

/-- A client's event is a step of that client. -/
theorem step_client (hclient : event.client = some i) (h : job.step so d event = some job') :
    ∃ c, job.clients.lookup i = some c ∧ job.stepClient so i c event = some job' := by
  cases event with
  | sendBuffered _ | sendQueued _ | openLog _ | readLog _ _ _ | finish _ | detach _ =>
    cases hclient
    simp only [Job.step] at h
    split at h
    · cases h
    · rename_i c hc
      exact ⟨c, hc, h⟩
  | queued _ | starting _ | startFailed _ _ | started | output _ | eof | emit _ | exited | cancel
  | restart | attach _ _ => cases hclient

theorem Kept.other (h : Kept id w) (hok : OneSource so d id w (.other event))
    (hpublishes : event.publishes d = false) (hstep : w.event so d id event = some w') :
    Kept id w' := by
  simp only [Watch.event] at hstep
  split at hstep
  · cases hstep
  rename_i job hjob
  split at hstep
  · rename_i i replay
    split at hstep
    · -- the client that is watched attaches
      rename_i hi
      subst hi
      cases hstep
      exact h.attach hok hjob
    · rename_i hi
      cases hstep
      simp only [Job.step] at hjob
      split at hjob
      · cases hjob
        exact h.same rfl (lookup_setClient_ne _ _ (Ne.symm hi))
      · cases hjob
  · cases hstep
    simp only [Job.step] at hjob
    cases hjob
    -- a restart leaves no client
    refine ⟨h.unbroken, h.base, ?_, h.outcome⟩
    intro c hc
    cases hc
  · rename_i hattach hrestart
    split at hstep
    · rename_i hclient
      split at hstep
      · cases hstep
      · rename_i c hc
        obtain ⟨c', hc', hjob'⟩ := step_client hclient hjob
        rw [hc] at hc'
        cases hc'
        exact h.served hclient hc hok hjob' hstep
    · rename_i hclient
      cases hstep
      cases hevent : event.client with
      | some i =>
        -- the step of another client
        have hne : id ≠ i := by
          intro hid
          rw [hevent, hid] at hclient
          exact hclient rfl
        obtain ⟨c, -, hjob'⟩ := step_client hevent hjob
        obtain ⟨hlog, hsame⟩ := stepClient_other hjob' hne
        exact h.same hlog hsame
      | none =>
        by_cases hemit : ∃ ms, event = .emit ms
        · obtain ⟨ms, rfl⟩ := hemit
          exact h.emit hok hpublishes hjob
        · obtain ⟨hlog, hsame⟩ := step_quiet hpublishes hevent
            (fun ms hms => hemit ⟨ms, hms⟩) hattach hrestart hjob
          exact h.same hlog (by rw [hsame])

theorem Kept.step {move : Move} (h : Kept id w) (hok : OneSource so d id w move)
    (hstep : w.step so d id move = some w') : Kept id w' := by
  cases move with
  | write event => exact h.write hok hstep
  | publish => exact h.publish hok hstep
  | other event =>
    simp only [Watch.step] at hstep
    split at hstep
    · cases hstep
    · rename_i hpublishes
      exact h.other hok (Bool.eq_false_of_not_eq_true hpublishes) hstep

theorem Kept.init (d : Deployment) (id : Nat) : Kept id (Watch.init d) := by
  refine ⟨?_, Nat.zero_le _, ?_, ?_⟩
  · intro line hline
    cases hline
  · intro c hc
    cases hc
  · intro o ho
    cases ho

end Moves

/-! ## Whole runs -/

/-- **Every line is delivered, once and in order**: in every run in which the client has its
    lines from one source, whichever process runs the job and however the writer, the hub and
    the clients take turns, what the client has had when it is told that the job is done is
    `job.log`, from its start or from where the client subscribed. -/
theorem every_line_delivered {so : SetOrder} {d : Deployment} {id : Nat} {moves : List Move}
    {w : Watch} (hok : Along (Watch.step so d id) (OneSource so d id) (Watch.init d) moves)
    (hrun : run (Watch.step so d id) (Watch.init d) moves = some w) :
    ∀ o ∈ w.outcome, o.1 = o.2 := by
  have hkept : Kept id w :=
    run_inv_along (fun _ _ _ h ha hs => Kept.step h ha hs) (Kept.init d id) hok hrun
  exact hkept.outcome

/-- A client that asks for the log from its start is shown what the hub has of it, and then
    follows the job, which the API runs. -/
def followedRun : List Move :=
  [ .write (.queued 1), .publish, .write (.starting 2), .publish, .other (.attach 0 true),
    .other .started, .other (.output "hello\n".toList), .other (.sendBuffered 0),
    .write (.emit 3), .other (.sendBuffered 0), .publish, .other (.sendQueued 0),
    .other .exited, .other (.finish 0) ]

theorem every_line_delivered_followedRun :
    ∃ w, run (Watch.step .firstSeen ⟨.api, hunter⟩ 0) (Watch.init ⟨.api, hunter⟩) followedRun =
        some w ∧ ∀ o ∈ w.outcome, o.1 = o.2 := by
  have hok : Along (Watch.step .firstSeen ⟨.api, hunter⟩ 0)
      (OneSource .firstSeen ⟨.api, hunter⟩ 0) (Watch.init ⟨.api, hunter⟩) followedRun := by
    decide +kernel
  exact ⟨_, rfl, every_line_delivered hok rfl⟩

/-- A client asks for the log of a managed job from its start, as the job begins. -/
def managedRun : List Move :=
  [ .write (.queued 1), .publish, .write (.starting 2), .publish, .other (.attach 0 true),
    .other .started, .other (.output "hello\n".toList), .other (.emit 3),
    .other (.sendBuffered 0), .other (.sendBuffered 0), .other .exited, .other (.finish 0) ]

/-- A client asks for the new lines of a job the API runs, while there are none. -/
def quietRun : List Move :=
  [ .write (.queued 1), .publish, .other (.attach 0 false), .other (.openLog 0),
    .other .started, .other (.output "hello\n".toList), .write (.emit 2), .publish,
    .other (.sendQueued 0), .other (.readLog 0 13 0), .other .exited, .other (.finish 0) ]

/-- **Lines are missing** in the first run, the job's own, **and doubled** in the second. -/
theorem lines_missing_and_doubled :
    (run (Watch.step .firstSeen ⟨.manager, hunter⟩ 0) (Watch.init ⟨.manager, hunter⟩)
        managedRun).bind Watch.outcome =
      some (["[RX:1] Queued deployment job.".toList, "[RX:2] Starting deployment runner.".toList],
        ["[RX:1] Queued deployment job.".toList, "[RX:2] Starting deployment runner.".toList,
          "[RX:3] hello".toList]) ∧
    (run (Watch.step .firstSeen ⟨.api, hunter⟩ 0) (Watch.init ⟨.api, hunter⟩)
        quietRun).bind Watch.outcome =
      some (["[RX:2] hello".toList, "[RX:2] hello".toList], ["[RX:2] hello".toList]) := by
  constructor
  · decide +kernel
  · decide +kernel

end Infinito.Jobs
