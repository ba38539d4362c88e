import Infinito.Jobs.Mask
import Infinito.Lib.Lists
import Infinito.Lib.Run

/-!
# Who sees a job's log, and through which masker

A deployment job prints lines, and a client of `stream_logs` gets them as events. Between
the two lie a reader thread, the file `job.log`, a hub with a buffer and a queue for each
client, and two maskers.

The reader masks each line before it writes it. When the API runs the job itself, it masks
with the job's secrets; when the runner manager runs it, in another process, with none
(`Deployment.runnerSecrets`). `stream_logs` masks each event again, with the secrets it
found in the API's memory when the client attached. That memory is short-lived: it is
emptied when the job is canceled, when it fails to start, when a job of the API's own ends,
and when the API restarts — and `job.log` outlives all of these. A client that attaches
afterwards is *blind*: it masks with no secrets, so what it is given must not contain any.

`no_secret_sent` is the theorem for the runs in which that is so, and `secret_sent` is about
two in which it is not.
-/

set_option autoImplicit false

namespace Infinito.Jobs

open Py Lib

/-! ## Lines and text -/

/-- `[RX:<ms>] `, the receive time each line starts with. -/
def stamp (ms : Nat) : Text := "[RX:".toList ++ (Nat.repr ms).toList ++ "] ".toList

/-- `_split_stream_buffer` and `_split_log_lines`: the complete lines, and the rest. A line
    feed and a carriage return end a line alike. -/
def splitStream : Text → Text → List Text × Text
  | acc, [] => ([], acc.reverse)
  | acc, c :: t =>
      if c = '\n' ∨ c = '\r' then
        let (lines, rest) := splitStream [] t
        (acc.reverse :: lines, rest)
      else splitStream (c :: acc) t

/-- The text of a file that was written line by line. -/
def fileText (lines : List Text) : Text := lines.flatMap fun line => line ++ ['\n']

/-- What `errors="replace"` puts for bytes that are not a character. -/
def replacement : Char := '\uFFFD'

def isReplacement (c : Char) : Prop := c = replacement

/-! ## A job -/

inductive Runner where
  /-- `start_process` in the API -/
  | api
  /-- `start_process` in the runner manager -/
  | manager
  deriving DecidableEq

structure Deployment where
  runner : Runner
  credentials : Credentials

def Deployment.secrets (d : Deployment) : List Text := jobSecrets d.credentials

/-- The `secrets` argument of `start_process`. -/
def Deployment.runnerSecrets (d : Deployment) : List Text :=
  match d.runner with
  | .api => d.secrets
  | .manager => []

/-- The reader thread: what it has of an unfinished line, and the finished ones it has yet
    to emit. -/
structure Reader where
  buf : Text
  lines : List Text
  deriving DecidableEq

/-- A client's handle on `job.log`: the lines written before it was opened are skipped
    (none of them with `replay`), then `pos` characters are read, the last of them all but
    `owed` bytes. -/
structure Tail where
  skipped : Nat
  pos : Nat
  owed : Nat
  deriving DecidableEq

/-- One run of `stream_logs`. `secrets` is what `get_secrets` returned at its start. -/
structure Client where
  secrets : List Text
  replay : Bool
  bufferedLines : List Text
  queue : List Text
  receivedHubData : Bool
  tail : Option Tail
  buffer : Text
  deriving DecidableEq

/-- `store` is the job's entry in `_secret_store`, `log` the lines of `job.log`, `sent` the
    lines of every log event sent so far, to whichever client. -/
structure Job where
  store : List Text
  terminal : Bool
  reader : Option Reader
  hub : List Text
  log : List Text
  clients : List (Nat × Client)
  sent : List Text

/-- The job as `create` has it once `_remember_secrets` is done. -/
def Job.init (d : Deployment) : Job := ⟨d.secrets, false, none, [], [], [], []⟩

inductive Event where
  /-- `create`, step by step; `exc` is the text of the exception -/
  | queued (ms : Nat)
  | starting (ms : Nat)
  | startFailed (ms : Nat) (exc : Text)
  | started
  /-- the reader thread: a chunk of output, its end, and a line written -/
  | output (chunk : Text)
  | eof
  | emit (ms : Nat)
  /-- `_wait_and_finalize` -/
  | exited
  | cancel
  /-- the API process ends and another one starts -/
  | restart
  /-- a client, from its request to its end -/
  | attach (id : Nat) (replay : Bool)
  | sendBuffered (id : Nat)
  | sendQueued (id : Nat)
  | openLog (id : Nat)
  | readLog (id : Nat) (n bytes : Nat)
  | finish (id : Nat)
  | detach (id : Nat)

def HUB_BUFFER : Nat := 200

def QUEUE_SIZE : Nat := 1000

/-- `put_nowait`: a full queue drops the line. -/
def Client.push (c : Client) (line : Text) : Client :=
  if c.queue.length < QUEUE_SIZE then { c with queue := c.queue ++ [line] } else c

/-- `LogHub.publish` -/
def Job.publish (job : Job) (line : Text) : Job :=
  { job with
    hub := (job.hub ++ [line]).drop ((job.hub ++ [line]).length - HUB_BUFFER)
    clients := job.clients.map fun (id, c) => (id, c.push line) }

@[simp] theorem Job.publish_log (job : Job) (line : Text) : (job.publish line).log = job.log := by
  simp only [Job.publish]

@[simp] theorem Job.publish_sent (job : Job) (line : Text) :
    (job.publish line).sent = job.sent := by
  simp only [Job.publish]

def Job.write (job : Job) (line : Text) : Job := { job with log := job.log ++ [line] }

def Job.without (job : Job) (id : Nat) : Job :=
  { job with clients := job.clients.filter fun e => e.1 ≠ id }

def Job.setClient (job : Job) (id : Nat) (c : Client) : Job :=
  { job with clients := (id, c) :: (job.without id).clients }

section
variable (so : SetOrder) (d : Deployment)

/-- The line an event publishes, as it is written to `job.log`. -/
def Job.published (job : Job) : Event → Option Text
  | .queued ms => some (stamp ms ++ "Queued deployment job.".toList)
  | .starting ms => some (stamp ms ++ "Starting deployment runner.".toList)
  | .startFailed ms exc => some (stamp ms ++ (match d.runner with
      | .api => "[ERROR] failed to start runner: ".toList
      | .manager => "[ERROR] failed to start runner-manager job: ".toList) ++ exc)
  | .emit ms => match job.reader with
      | some ⟨_, raw :: _⟩ => some (stamp ms ++ maskSecrets so raw d.runnerSecrets)
      | _ => none
  | _ => none

/-- The log event for `line`. -/
def Job.send (job : Job) (c : Client) (line : Text) : Job :=
  { job with sent := job.sent ++ [maskSecrets so line c.secrets] }

/-- What a client reads from its handle: the rest of a character it had begun, `n` whole
    ones, and `bytes` bytes of another. Bytes that are not a character become replacement
    characters, one for a beginning and one for each byte of a rest. -/
def Tail.read (t : Tail) (text : Text) (n bytes : Nat) : Option (Text × Tail) :=
  let whole := (text.drop t.pos).take n
  let head := List.replicate t.owed replacement
  if (text.drop t.pos).length < n then none
  else if bytes = 0 then some (head ++ whole, { t with pos := t.pos + n, owed := 0 })
  else match text.drop (t.pos + n) with
    | [] => none
    | c :: _ =>
        if bytes < c.utf8Size then
          some (head ++ whole ++ [replacement],
            { t with pos := t.pos + n + 1, owed := c.utf8Size - bytes })
        else none

/-- The loop body of `stream_logs` and its end, for one client. -/
def Job.stepClient (job : Job) (id : Nat) (c : Client) : Event → Option Job
  | .sendBuffered _ => match c.bufferedLines with
      | [] => none
      | line :: rest => some ((job.send so c line).setClient id { c with bufferedLines := rest })
  | .sendQueued _ => match c.bufferedLines, c.queue with
      | [], line :: rest => some ((job.send so c line).setClient id
          { c with queue := rest, receivedHubData := true })
      | _, _ => none
  | .openLog _ =>
      if c.bufferedLines = [] ∧ c.receivedHubData = false ∧ c.tail = none then
        some (job.setClient id
          { c with tail := some ⟨if c.replay then 0 else job.log.length, 0, 0⟩ })
      else none
  | .readLog _ n bytes => match c.tail with
      | none => none
      | some t => match t.read (fileText (job.log.drop t.skipped)) n bytes with
        | none => none
        | some (chunk, t') =>
            let (lines, rest) := splitStream [] (c.buffer ++ chunk)
            some ((lines.foldl (fun j line => j.send so c line) job).setClient id
              { c with tail := some t', buffer := rest })
  | .finish _ =>
      if job.terminal then
        some ((if c.buffer = [] then job else job.send so c c.buffer).without id)
      else none
  | .detach _ => some (job.without id)
  | _ => none

def Job.step (job : Job) (event : Event) : Option Job :=
  match event with
  | .queued _ | .starting _ =>
      (job.published so d event).map fun line => (job.write line).publish line
  | .startFailed _ _ => (job.published so d event).map fun line =>
      { (job.write line).publish line with terminal := true, store := [] }
  | .started => if job.reader = none then some { job with reader := some ⟨[], []⟩ } else none
  | .output chunk => match job.reader with
      | some ⟨buf, []⟩ =>
          -- the lines of one chunk go out before the next is read
          let (lines, rest) := splitStream [] (buf ++ chunk)
          some { job with reader := some ⟨rest, lines⟩ }
      | _ => none
  | .eof => match job.reader with
      | some ⟨buf, []⟩ => some { job with reader := some ⟨[], if buf = [] then [] else [buf]⟩ }
      | _ => none
  | .emit _ => match job.reader, job.published so d event with
      | some ⟨buf, _ :: rest⟩, some line =>
          let written := { job with reader := some ⟨buf, rest⟩ }.write line
          some (match d.runner with
            | .api => written.publish line
            | .manager => written)
      | _, _ => none
  | .exited => some { job with
      reader := none
      terminal := true
      store := match d.runner with
        | .api => []
        | .manager => job.store }
  | .cancel => if job.terminal then some job else some { job with terminal := true, store := [] }
  | .restart => some { job with
      store := []
      hub := []
      clients := []
      -- the reader is a thread of the API, or runs on in the manager
      reader := match d.runner with
        | .api => none
        | .manager => job.reader }
  | .attach id replay =>
      if job.clients.lookup id = none then
        some (job.setClient id
          { secrets := job.store
            replay := replay
            bufferedLines := if replay then job.hub else []
            queue := []
            receivedHubData := replay && job.hub ≠ []
            tail := none
            buffer := [] })
      else none
  | .sendBuffered id | .sendQueued id | .openLog id | .readLog id _ _ | .finish id | .detach id =>
      match job.clients.lookup id with
      | none => none
      | some c => job.stepClient so id c event

/-! ## The property, and the runs it holds in -/

/-- No secret is on the line. A secret with an asterisk is not asked about: the mask itself
    may spell it. -/
def Clean (secrets : List Text) (line : Text) : Prop :=
  ∀ s ∈ secrets, '*' ∉ s → ¬ s <:+: line

/-- No log event sent to any client contains a secret. -/
def NoSecretSent (job : Job) : Prop := ∀ line ∈ job.sent, Clean d.secrets line

/-- Some attached client masks with other than the job's secrets. -/
def Job.blind (job : Job) : Prop := ∃ e ∈ job.clients, e.2.secrets ≠ d.secrets

/-- What a client that attaches blind will be shown of the past is clean: the hub's buffer,
    or `job.log` when that is empty. (A read that cuts a character in two shows replacement
    characters, so no secret may have one.) -/
def Job.harmless (job : Job) (replay : Bool) : Prop :=
  (∀ s ∈ d.secrets, replacement ∉ s) ∧
    (replay = true → (∀ line ∈ job.hub, Clean d.secrets line) ∧
      (job.hub = [] → ∀ line ∈ job.log, Clean d.secrets line))

/-- Whether an attaching client asks for a replay. -/
def Event.attaches : Event → Option Bool
  | .attach _ replay => some replay
  | _ => none

/-- A client attaches while the job's secrets are in memory, or else nothing it is shown of
    the past, and nothing published while it is attached, has a secret in it at the source. -/
structure Guarded (job : Job) (event : Event) : Prop where
  attach : ∀ replay, event.attaches = some replay →
    job.store = d.secrets ∨ job.harmless d replay
  publish : ∀ line, job.published so d event = some line → job.blind d → Clean d.secrets line

instance (secrets : List Text) (line : Text) : Decidable (Clean secrets line) :=
  inferInstanceAs (Decidable (∀ s ∈ secrets, '*' ∉ s → ¬ s <:+: line))

instance (job : Job) : Decidable (job.blind d) :=
  inferInstanceAs (Decidable (∃ e ∈ job.clients, e.2.secrets ≠ d.secrets))

instance (job : Job) (replay : Bool) : Decidable (job.harmless d replay) :=
  inferInstanceAs (Decidable (_ ∧ _))

scoped instance decidableForallEqSome {α : Type} (x : Option α) (P : α → Prop) [DecidablePred P] :
    Decidable (∀ a, x = some a → P a) :=
  match x with
  | none => isTrue (by intro a h; cases h)
  | some a => decidable_of_iff (P a) (by simp)

instance (job : Job) (event : Event) : Decidable (Guarded so d job event) :=
  decidable_of_iff
    ((∀ replay, event.attaches = some replay → job.store = d.secrets ∨ job.harmless d replay) ∧
      ∀ line, job.published so d event = some line → job.blind d → Clean d.secrets line)
    ⟨fun h => ⟨h.1, h.2⟩, fun h => ⟨h.1, h.2⟩⟩

end

/-- When the API runs the job, its lines are masked at the source: a secret on one of them
    would have to begin in the receive time. -/
theorem starts_in_stamp {so : SetOrder} {d : Deployment} {ms : Nat} {raw s : Text}
    (hrunner : d.runner = .api) (hs : s ∈ d.secrets) (hstar : '*' ∉ s)
    (h : s <:+: stamp ms ++ maskSecrets so raw d.runnerSecrets) :
    ∃ i < (stamp ms).length, s <+: (stamp ms ++ maskSecrets so raw d.runnerSecrets).drop i := by
  have hsource : d.runnerSecrets = d.secrets := by
    unfold Deployment.runnerSecrets
    rw [hrunner]
  rw [hsource] at h ⊢
  obtain ⟨before, after, heq⟩ := h
  have hdrop : (stamp ms ++ maskSecrets so raw d.secrets).drop before.length = s ++ after := by
    rw [← heq, List.append_assoc, List.drop_left]
  refine ⟨before.length, ?_, ⟨after, hdrop.symm⟩⟩
  by_contra hlong
  rw [List.drop_append, List.drop_eq_nil_of_le (by omega), List.nil_append] at hdrop
  have hin : s <:+: maskSecrets so raw d.secrets := by
    have hpre : s <+: (maskSecrets so raw d.secrets).drop (before.length - (stamp ms).length) :=
      ⟨after, hdrop.symm⟩
    exact hpre.isInfix.trans (List.drop_suffix _ _).isInfix
  exact not_infix_maskSecrets hs (ne_nil_of_mem_jobSecrets hs) hstar hin

/-! ## The defect -/

def hunter : Credentials := ⟨none, some "hunter2".toList, none, none, none⟩

/-- The reader drains what the pipe still held when the job was canceled, while a client
    that attached after the cancellation follows the log. -/
def cancelRun : List Event :=
  [ .queued 1, .starting 2, .started, .cancel,
    .attach 0 false, .openLog 0,
    .output "login root hunter2\n", .emit 3,
    .readLog 0 26 0 ]

/-- The API restarts under a running job, and a client asks for the log from its start. -/
def restartRun : List Event :=
  [ .queued 1, .starting 2, .started, .output "login root hunter2\n", .emit 3,
    .restart, .attach 0 true, .openLog 0, .readLog 0 91 0 ]

/-- **A secret is sent** in both runs. -/
theorem secret_sent :
    (∃ job, run (Job.step .firstSeen ⟨.manager, hunter⟩) (Job.init ⟨.manager, hunter⟩) cancelRun =
        some job ∧ ¬ NoSecretSent ⟨.manager, hunter⟩ job) ∧
      ∃ job, run (Job.step .firstSeen ⟨.manager, hunter⟩) (Job.init ⟨.manager, hunter⟩) restartRun =
        some job ∧ ¬ NoSecretSent ⟨.manager, hunter⟩ job := by
  have hsecret : "hunter2".toList ∈ (Deployment.mk .manager hunter).secrets := by decide
  constructor
  · refine ⟨_, rfl, ?_⟩
    intro h
    exact h _ (List.mem_singleton.mpr rfl) _ hsecret (by decide) (by decide)
  · refine ⟨_, rfl, ?_⟩
    intro h
    exact h _ (List.mem_of_getLast? (by rfl)) _ hsecret (by decide) (by decide)

/-! ## Splitting a stream into lines -/

/-- The lines and the rest are stretches of the stream, without a line end in them. -/
theorem splitStream_spec {acc t : Text} (hacc : '\n' ∉ acc) :
    (∀ line ∈ (splitStream acc t).1, line <:+: acc.reverse ++ t ∧ '\n' ∉ line) ∧
      (splitStream acc t).2 <:+ acc.reverse ++ t ∧ '\n' ∉ (splitStream acc t).2 := by
  induction t generalizing acc with
  | nil => simp [splitStream, hacc]
  | cons c t ih =>
    unfold splitStream
    split
    · obtain ⟨hlines, hrest, hfree⟩ := ih (show '\n' ∉ ([] : Text) by simp)
      have hsub : t <:+ acc.reverse ++ c :: t :=
        (List.suffix_cons c t).trans (List.suffix_append _ _)
      refine ⟨?_, hrest.trans hsub, hfree⟩
      intro line hline
      rcases List.mem_cons.mp hline with rfl | hline
      · exact ⟨(List.prefix_append _ _).isInfix, by simpa using hacc⟩
      · exact ⟨(hlines line hline).1.trans hsub.isInfix, (hlines line hline).2⟩
    · rename_i hbreak
      have hacc' : '\n' ∉ c :: acc := by
        intro h
        rcases List.mem_cons.mp h with h | h
        · exact hbreak (Or.inl h.symm)
        · exact hacc h
      have := ih hacc'
      rw [List.reverse_cons, List.append_assoc] at this
      exact this

/-- A text without a line feed that is in a file is on one of its lines. -/
theorem infix_line_of_infix_fileText {lines : List Text} {s : Text} (hs : '\n' ∉ s) (hne : s ≠ [])
    (h : s <:+: fileText lines) : ∃ line ∈ lines, s <:+: line := by
  induction lines with
  | nil => exact absurd (List.infix_nil.mp h) hne
  | cons line lines ih =>
    have hjoin : fileText (line :: lines) = line ++ '\n' :: fileText lines := by
      simp [fileText]
    rw [hjoin] at h
    rcases infix_of_infix_append_cons hs h with h | h
    · exact ⟨line, List.mem_cons_self, h⟩
    · obtain ⟨l, hl, hin⟩ := ih h
      exact ⟨l, List.mem_cons_of_mem _ hl, hin⟩

theorem fileText_append (lines lines' : List Text) :
    fileText (lines ++ lines') = fileText lines ++ fileText lines' := List.flatMap_append

/-! ## Clients -/

variable {so : SetOrder} {d : Deployment}

theorem Deployment.secret_ne_nil {s : Text} (h : s ∈ d.secrets) : s ≠ [] :=
  ne_nil_of_mem_jobSecrets h

/-- An event is clean if its line was, or if the client masks with the job's secrets. -/
theorem clean_mask {line : Text} {secrets : List Text}
    (h : secrets = d.secrets ∨ Clean d.secrets line) :
    Clean d.secrets (maskSecrets so line secrets) := by
  intro s hs hstar hin
  rcases h with rfl | h
  · exact not_infix_maskSecrets hs (d.secret_ne_nil hs) hstar hin
  · exact h s hs hstar (infix_of_infix_maskSecrets hstar hin)

/-- What a client that masks without the secrets has before it: clean lines only. With its
    handle open, `stream` is all it was ever given through it — the file, but for
    characters a read cut in two. -/
structure BlindOk (d : Deployment) (log : List Text) (c : Client) : Prop where
  noReplacement : ∀ s ∈ d.secrets, replacement ∉ s
  bufferedLines : ∀ line ∈ c.bufferedLines, Clean d.secrets line
  queue : ∀ line ∈ c.queue, Clean d.secrets line
  noBreak : '\n' ∉ c.buffer
  unopened : c.tail = none → c.buffer = [] ∧
    (c.replay = true → c.receivedHubData = false → ∀ line ∈ log, Clean d.secrets line)
  opened : ∀ t, c.tail = some t → t.skipped ≤ log.length ∧
    (∀ line ∈ log.drop t.skipped, Clean d.secrets line) ∧
    t.pos ≤ (fileText (log.drop t.skipped)).length ∧
    ∃ stream, Blot isReplacement ((fileText (log.drop t.skipped)).take t.pos) stream ∧
      c.buffer <:+ stream

def ClientOk (d : Deployment) (log : List Text) (c : Client) : Prop :=
  c.secrets = d.secrets ∨ BlindOk d log c

/-- The invariant. -/
structure Secure (d : Deployment) (job : Job) : Prop where
  sent : NoSecretSent d job
  clients : ∀ e ∈ job.clients, ClientOk d job.log e.2

/-- Writing to the log moves nobody's place in it. -/
theorem BlindOk.write {log : List Text} {c : Client} {line : Text} (hc : BlindOk d log c)
    (hline : Clean d.secrets line) : BlindOk d (log ++ [line]) c := by
  refine ⟨hc.noReplacement, hc.bufferedLines, hc.queue, hc.noBreak, ?_, ?_⟩
  · intro htail
    obtain ⟨hbuffer, hlog⟩ := hc.unopened htail
    refine ⟨hbuffer, ?_⟩
    intro hreplay hreceived l hl
    rcases List.mem_append.mp hl with hl | hl
    · exact hlog hreplay hreceived l hl
    · rw [List.mem_singleton.mp hl]; exact hline
  · intro t ht
    obtain ⟨hskipped, hlog, hpos, stream, hblot, hbuffer⟩ := hc.opened t ht
    rw [List.drop_append_of_le_length hskipped, fileText_append, List.take_append_of_le_length hpos]
    refine ⟨?_, ?_, ?_, stream, hblot, hbuffer⟩
    · rw [List.length_append]; exact Nat.le_add_right_of_le hskipped
    · intro l hl
      rcases List.mem_append.mp hl with hl | hl
      · exact hlog l hl
      · rw [List.mem_singleton.mp hl]; exact hline
    · rw [List.length_append]; exact Nat.le_add_right_of_le hpos

theorem ClientOk.write {log : List Text} {c : Client} {line : Text} (hc : ClientOk d log c)
    (hline : c.secrets ≠ d.secrets → Clean d.secrets line) : ClientOk d (log ++ [line]) c := by
  by_cases hs : c.secrets = d.secrets
  · exact Or.inl hs
  · rcases hc with h | h
    · exact absurd h hs
    · exact Or.inr (h.write (hline hs))

theorem ClientOk.push {log : List Text} {c : Client} {line : Text} (hc : ClientOk d log c)
    (hline : c.secrets ≠ d.secrets → Clean d.secrets line) :
    ClientOk d log (c.push line) := by
  unfold Client.push
  split
  · by_cases hs : c.secrets = d.secrets
    · exact Or.inl hs
    · rcases hc with h | h
      · exact absurd h hs
      · refine Or.inr ⟨h.noReplacement, h.bufferedLines, ?_, h.noBreak, h.unopened, h.opened⟩
        intro l hl
        rcases List.mem_append.mp hl with hl | hl
        · exact h.queue l hl
        · rw [List.mem_singleton.mp hl]; exact hline hs
  · exact hc

theorem Secure.write {job : Job} {line : Text} (h : Secure d job)
    (hline : job.blind d → Clean d.secrets line) : Secure d (job.write line) where
  sent := h.sent
  clients := fun e he => (h.clients e he).write fun hs => hline ⟨e, he, hs⟩

theorem Secure.publish {job : Job} {line : Text} (h : Secure d job)
    (hline : job.blind d → Clean d.secrets line) : Secure d (job.publish line) := by
  refine ⟨?_, ?_⟩
  · unfold NoSecretSent
    rw [Job.publish_sent]
    exact h.sent
  · intro e he
    rw [Job.publish_log]
    obtain ⟨⟨id, c⟩, hc, rfl⟩ := List.mem_map.mp he
    exact (h.clients (id, c) hc).push fun hs => hline ⟨(id, c), hc, hs⟩

theorem Secure.without {job : Job} (h : Secure d job) (id : Nat) : Secure d (job.without id) where
  sent := h.sent
  clients := fun e he => h.clients e (List.mem_filter.mp he).1

theorem Secure.setClient {job : Job} {id : Nat} {c : Client} (h : Secure d job)
    (hc : ClientOk d job.log c) : Secure d (job.setClient id c) where
  sent := h.sent
  clients := by
    intro e he
    rcases List.mem_cons.mp he with rfl | he
    · exact hc
    · exact (h.without id).clients e he

theorem Secure.send {job : Job} {c : Client} {line : Text} (h : Secure d job)
    (hline : c.secrets = d.secrets ∨ Clean d.secrets line) : Secure d (job.send so c line) where
  sent := by
    intro l hl
    rcases List.mem_append.mp hl with hl | hl
    · exact h.sent l hl
    · rw [List.mem_singleton.mp hl]; exact clean_mask hline
  clients := h.clients

theorem Secure.sendAll (so : SetOrder) {job : Job} {c : Client} {lines : List Text}
    (h : Secure d job)
    (hlines : ∀ line ∈ lines, c.secrets = d.secrets ∨ Clean d.secrets line) :
    Secure d (lines.foldl (fun j line => j.send so c line) job) ∧
      (lines.foldl (fun j line => j.send so c line) job).log = job.log := by
  induction lines generalizing job with
  | nil => exact ⟨h, rfl⟩
  | cons line lines ih =>
    exact ih (h.send (hlines line List.mem_cons_self)) fun l hl =>
      hlines l (List.mem_cons_of_mem _ hl)

/-! ## Reading the log -/

/-- A read returns the next piece of the file, but for characters it cut in two. -/
theorem Tail.read_spec {t t' : Tail} {text chunk : Text} {n bytes : Nat}
    (hpos : t.pos ≤ text.length) (h : t.read text n bytes = some (chunk, t')) :
    t'.skipped = t.skipped ∧ t'.pos ≤ text.length ∧
      ∃ piece, text.take t'.pos = text.take t.pos ++ piece ∧ Blot isReplacement piece chunk := by
  have hmarks : ∀ c ∈ List.replicate t.owed replacement, isReplacement c := by
    intro c hc
    exact (List.mem_replicate.mp hc).2
  simp only [Tail.read] at h
  split at h
  · cases h
  rename_i hlen
  rw [List.length_drop] at hlen
  split at h
  · obtain ⟨rfl, rfl⟩ := Prod.mk.inj (Option.some.inj h)
    refine ⟨rfl, ?_, _, List.take_add, (Blot.refl _).marks hmarks⟩
    dsimp only
    omega
  split at h
  · cases h
  rename_i c rest hrest
  split at h
  · obtain ⟨rfl, rfl⟩ := Prod.mk.inj (Option.some.inj h)
    refine ⟨rfl, ?_, (text.drop t.pos).take n ++ [c], ?_, ?_⟩
    · have hlength := congrArg List.length hrest
      simp only [List.length_drop, List.length_cons] at hlength
      dsimp only
      omega
    · dsimp only
      rw [List.take_add, List.take_add, List.append_assoc, hrest]
      rfl
    · have htorn : Blot isReplacement [c] [replacement] :=
        .mark [c] (List.cons_ne_nil _ _) (fun a ha => List.mem_singleton.mp ha) .nil
      exact ((Blot.refl _).marks hmarks).append htorn
  · cases h

/-- A stretch of a client's stream that no read cut in two is on a line of the log. -/
theorem BlindOk.clean_of_infix {log : List Text} {c : Client} (hc : BlindOk d log c)
    {skipped : Nat} {pos : Nat} {stream line : Text}
    (hlog : ∀ l ∈ log.drop skipped, Clean d.secrets l)
    (hblot : Blot isReplacement ((fileText (log.drop skipped)).take pos) stream)
    (hline : line <:+: stream) (hbreak : '\n' ∉ line) : Clean d.secrets line := by
  intro s hs hstar hin
  have hfree : ∀ a ∈ s, ¬ isReplacement a := by
    intro a ha hrepl
    rw [hrepl] at ha
    exact hc.noReplacement s hs ha
  have htext : s <:+: fileText (log.drop skipped) :=
    (hblot.isInfix hfree (hin.trans hline)).trans (List.take_prefix _ _).isInfix
  have hnl : '\n' ∉ s := fun h => hbreak (hin.subset h)
  obtain ⟨l, hl, hsl⟩ := infix_line_of_infix_fileText hnl (d.secret_ne_nil hs) htext
  exact hlog l hl s hs hstar hsl

/-- What is left in the buffer when a client's stream ends. -/
theorem ClientOk.buffer_clean {log : List Text} {c : Client} (hc : ClientOk d log c) :
    c.secrets = d.secrets ∨ Clean d.secrets c.buffer := by
  rcases hc with h | h
  · exact Or.inl h
  · refine Or.inr ?_
    cases ht : c.tail with
    | none =>
      intro s hs _ hin
      rw [(h.unopened ht).1] at hin
      exact d.secret_ne_nil hs (List.infix_nil.mp hin)
    | some t =>
      obtain ⟨-, hlog, -, stream, hblot, hbuffer⟩ := h.opened t ht
      exact h.clean_of_infix hlog hblot hbuffer.isInfix h.noBreak

/-- One read: its lines are clean, and the client is as it was. -/
theorem BlindOk.read {log : List Text} {c : Client} {t t' : Tail} {chunk : Text} {n bytes : Nat}
    (hc : BlindOk d log c) (ht : c.tail = some t)
    (hread : t.read (fileText (log.drop t.skipped)) n bytes = some (chunk, t')) :
    (∀ line ∈ (splitStream [] (c.buffer ++ chunk)).1, Clean d.secrets line) ∧
      BlindOk d log
        { c with tail := some t', buffer := (splitStream [] (c.buffer ++ chunk)).2 } := by
  obtain ⟨hskipped, hlog, hpos, stream, hblot, hbuffer⟩ := hc.opened t ht
  obtain ⟨hsame, hpos', piece, htake, hpiece⟩ := Tail.read_spec hpos hread
  obtain ⟨hlines, hrest, hfree⟩ :=
    splitStream_spec (t := c.buffer ++ chunk) (show '\n' ∉ ([] : Text) by simp)
  have hstream : Blot isReplacement ((fileText (log.drop t.skipped)).take t'.pos)
      (stream ++ chunk) := by
    rw [htake]
    exact hblot.append hpiece
  have hsub : c.buffer ++ chunk <:+ stream ++ chunk := by
    obtain ⟨before, rfl⟩ := hbuffer
    exact ⟨before, by rw [List.append_assoc]⟩
  refine ⟨?_, ?_⟩
  · intro line hline
    obtain ⟨hin, hbreak⟩ := hlines line hline
    exact hc.clean_of_infix hlog hstream (hin.trans hsub.isInfix) hbreak
  · refine ⟨hc.noReplacement, hc.bufferedLines, hc.queue, hfree, ?_, ?_⟩
    · intro h; cases h
    · intro t'' h''
      obtain rfl := Option.some.inj h''
      rw [hsame]
      exact ⟨hskipped, hlog, hpos', _, hstream, hrest.trans hsub⟩

/-! ## One event -/

theorem mem_of_lookup {l : List (Nat × Client)} {id : Nat} {c : Client}
    (h : l.lookup id = some c) : (id, c) ∈ l := by
  obtain ⟨l₁, l₂, rfl, -⟩ := List.lookup_eq_some_iff.mp h
  exact List.mem_append_right _ List.mem_cons_self

/-- A client that attaches is sighted, or blind and shown nothing it must not see. -/
theorem ClientOk.attach {job : Job} {replay : Bool}
    (hok : job.store = d.secrets ∨ job.harmless d replay) :
    ClientOk d job.log
      { secrets := job.store, replay := replay, bufferedLines := if replay then job.hub else []
        queue := [], receivedHubData := replay && job.hub ≠ [], tail := none, buffer := [] } := by
  rcases hok with hstore | ⟨hrepl, hpast⟩
  · exact Or.inl hstore
  · refine Or.inr ⟨hrepl, ?_, ?_, ?_, ?_, ?_⟩
    · intro line hline
      cases replay with
      | false => cases hline
      | true => exact (hpast rfl).1 line hline
    · intro line hline; cases hline
    · exact List.not_mem_nil
    · intro _
      refine ⟨rfl, ?_⟩
      intro hreplay hreceived
      dsimp only at hreplay hreceived
      rw [hreplay] at hreceived
      exact (hpast hreplay).2 (by simpa using hreceived)
    · intro t ht; cases ht

theorem Secure.stepClient {job job' : Job} {id : Nat} {c : Client} {event : Event}
    (h : Secure d job) (hc : ClientOk d job.log c)
    (hstep : job.stepClient so id c event = some job') : Secure d job' := by
  cases event with
  | sendBuffered _ =>
    simp only [Job.stepClient] at hstep
    split at hstep
    · cases hstep
    rename_i line rest hlines
    rw [← Option.some.inj hstep]
    -- the client masks every secret itself, or all that waits for it is masked already
    rcases hc with hs | hb
    · exact (h.send (Or.inl hs)).setClient (Or.inl hs)
    · have hall := hb.bufferedLines
      rw [hlines] at hall
      refine (h.send (Or.inr (hall line List.mem_cons_self))).setClient (Or.inr ?_)
      exact ⟨hb.noReplacement, fun l hl => hall l (List.mem_cons_of_mem _ hl), hb.queue,
        hb.noBreak, hb.unopened, hb.opened⟩
  | sendQueued _ =>
    simp only [Job.stepClient] at hstep
    split at hstep
    · rename_i line rest hbuffered hqueue
      rw [← Option.some.inj hstep]
      rcases hc with hs | hb
      · exact (h.send (Or.inl hs)).setClient (Or.inl hs)
      · have hall := hb.queue
        rw [hqueue] at hall
        refine (h.send (Or.inr (hall line List.mem_cons_self))).setClient (Or.inr ?_)
        refine ⟨hb.noReplacement, hb.bufferedLines, fun l hl => hall l (List.mem_cons_of_mem _ hl),
          hb.noBreak, ?_, hb.opened⟩
        intro htail
        exact ⟨(hb.unopened htail).1, fun _ hreceived => by cases hreceived⟩
    · cases hstep
  | openLog _ =>
    simp only [Job.stepClient] at hstep
    split at hstep
    · rename_i hopen
      obtain ⟨-, hreceived, htail⟩ := hopen
      rw [← Option.some.inj hstep]
      refine h.setClient ?_
      rcases hc with hs | hb
      · exact Or.inl hs
      obtain ⟨hbuffer, hpast⟩ := hb.unopened htail
      refine Or.inr ⟨hb.noReplacement, hb.bufferedLines, hb.queue, hb.noBreak, ?_, ?_⟩
      · intro ht; cases ht
      · intro t ht
        obtain rfl := Option.some.inj ht
        -- with replay and nothing received the log is read from its start, else from its end
        refine ⟨?_, ?_, Nat.zero_le _, [], ?_, ?_⟩
        · dsimp only; split <;> simp
        · intro line hline
          dsimp only at hline
          split at hline
          · rename_i hreplay
            exact hpast hreplay hreceived line hline
          · rw [List.drop_length] at hline; cases hline
        · exact .nil
        · dsimp only; rw [hbuffer]
    · cases hstep
  | readLog _ n bytes =>
    simp only [Job.stepClient] at hstep
    split at hstep
    · cases hstep
    rename_i t ht
    split at hstep
    · cases hstep
    rename_i chunk t' hread
    rw [← Option.some.inj hstep]
    rcases hc with hs | hb
    · obtain ⟨hsecure, -⟩ := h.sendAll so fun _ _ => Or.inl hs
      exact hsecure.setClient (Or.inl hs)
    · obtain ⟨hlines, hnext⟩ := hb.read ht hread
      obtain ⟨hsecure, hlog⟩ := h.sendAll so (c := c) fun l hl => Or.inr (hlines l hl)
      exact hsecure.setClient (Or.inr (by rw [hlog]; exact hnext))
  | finish _ =>
    simp only [Job.stepClient] at hstep
    split at hstep
    · rw [← Option.some.inj hstep]
      refine Secure.without ?_ id
      split
      · exact h
      · exact h.send hc.buffer_clean
    · cases hstep
  | detach _ =>
    simp only [Job.stepClient] at hstep
    rw [← Option.some.inj hstep]
    exact h.without id
  | queued _ | starting _ | startFailed _ _ | started | output _ | eof | emit _ | exited | cancel
  | restart | attach _ _ => cases hstep

/-- A line is written to the log and goes out through the hub. -/
theorem Secure.log {job : Job} {event : Event} {line : Text} (h : Secure d job)
    (hok : Guarded so d job event) (hline : job.published so d event = some line) :
    Secure d (job.write line) ∧ Secure d ((job.write line).publish line) := by
  have hclean := hok.publish line hline
  exact ⟨h.write hclean, (h.write hclean).publish hclean⟩

theorem Secure.step {job job' : Job} {event : Event} (h : Secure d job)
    (hok : Guarded so d job event) (hstep : job.step so d event = some job') : Secure d job' := by
  cases event with
  | queued ms =>
    simp only [Job.step] at hstep
    obtain ⟨line, hline, rfl⟩ := Option.map_eq_some_iff.mp hstep
    exact (h.log hok hline).2
  | starting ms =>
    simp only [Job.step] at hstep
    obtain ⟨line, hline, rfl⟩ := Option.map_eq_some_iff.mp hstep
    exact (h.log hok hline).2
  | startFailed ms exc =>
    simp only [Job.step] at hstep
    obtain ⟨line, hline, rfl⟩ := Option.map_eq_some_iff.mp hstep
    -- the secrets are dropped last, when the line is out
    have hlog := (h.log hok hline).2
    exact ⟨fun l hl => hlog.sent l hl, fun e he => hlog.clients e he⟩
  | started =>
    simp only [Job.step] at hstep
    split at hstep
    · rw [← Option.some.inj hstep]; exact ⟨h.sent, h.clients⟩
    · cases hstep
  | output chunk =>
    simp only [Job.step] at hstep
    split at hstep
    · rw [← Option.some.inj hstep]; exact ⟨h.sent, h.clients⟩
    · cases hstep
  | eof =>
    simp only [Job.step] at hstep
    split at hstep
    · rw [← Option.some.inj hstep]; exact ⟨h.sent, h.clients⟩
    · cases hstep
  | emit ms =>
    simp only [Job.step] at hstep
    split at hstep
    · rename_i buf raw rest line hreader hline
      -- what waits in the reader is sent to nobody yet
      have h' : Secure d { job with reader := some ⟨buf, rest⟩ } := ⟨h.sent, h.clients⟩
      have hclean := hok.publish line hline
      rw [← Option.some.inj hstep]
      split
      · exact (h'.write hclean).publish hclean
      · exact h'.write hclean
    · cases hstep
  | exited =>
    simp only [Job.step] at hstep
    rw [← Option.some.inj hstep]; exact ⟨h.sent, h.clients⟩
  | cancel =>
    simp only [Job.step] at hstep
    split at hstep
    · rw [← Option.some.inj hstep]; exact h
    · rw [← Option.some.inj hstep]; exact ⟨h.sent, h.clients⟩
  | restart =>
    simp only [Job.step] at hstep
    rw [← Option.some.inj hstep]
    exact ⟨h.sent, fun e he => by cases he⟩
  | attach id replay =>
    simp only [Job.step] at hstep
    split at hstep
    · rw [← Option.some.inj hstep]
      exact h.setClient (ClientOk.attach (hok.attach replay rfl))
    · cases hstep
  | sendBuffered id | sendQueued id | openLog id | readLog id n bytes | finish id | detach id =>
    simp only [Job.step] at hstep
    split at hstep
    · cases hstep
    · rename_i c hlookup
      exact h.stepClient (h.clients _ (mem_of_lookup hlookup)) hstep

/-- **No secret reaches a log reader** in a guarded run, whichever process runs the job, and
    whatever it prints, in any order of completion, cancellation, restart and attachment. -/
theorem no_secret_sent {events : List Event} {job : Job}
    (hok : Along (Job.step so d) (Guarded so d) (Job.init d) events)
    (hrun : run (Job.step so d) (Job.init d) events = some job) : NoSecretSent d job := by
  have hinit : Secure d (Job.init d) := by
    refine ⟨?_, ?_⟩
    · intro l hl; cases hl
    · intro e he; cases he
  have hsecure : Secure d job :=
    run_inv_along (fun _ _ _ hs ha h => Secure.step hs ha h) hinit hok hrun
  exact hsecure.sent

/-- One client follows the log from before the job is canceled; another attaches afterwards,
    and is shown the hub's buffer. -/
def guardedRun : List Event :=
  [ .queued 1, .starting 2, .started, .attach 0 false, .openLog 0,
    .output "login root hunter2\n", .emit 3, .readLog 0 26 0, .cancel,
    .attach 1 true, .sendBuffered 1, .sendBuffered 1 ]

theorem no_secret_sent_guardedRun :
    ∃ job, run (Job.step .firstSeen ⟨.manager, hunter⟩) (Job.init ⟨.manager, hunter⟩) guardedRun =
        some job ∧ NoSecretSent ⟨.manager, hunter⟩ job := by
  have hok : Along (Job.step .firstSeen ⟨.manager, hunter⟩)
      (Guarded .firstSeen ⟨.manager, hunter⟩) (Job.init ⟨.manager, hunter⟩) guardedRun := by
    decide
  exact ⟨_, rfl, no_secret_sent hok rfl⟩

end Infinito.Jobs
