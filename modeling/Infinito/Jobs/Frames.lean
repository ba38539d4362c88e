import Infinito.Jobs.Delivery
import Infinito.Lib.Json
import Infinito.Py.Lines
import Infinito.Orders.Customers

/-!
# A log line as an event

`stream_logs` sends each line as an event: the line goes into a JSON message, and the message
into a frame, one `data:` for each of its lines. A client takes the frame apart by the rules of
the event-stream format, in which a line ends at CR, LF or both; the web client does it with
`parseSseFrame`, and has the line from the message with `decodeLogLine`.

`_sse_event` finds the lines of the message with `str.splitlines`, to which three characters are
line breaks that JSON does not escape and the format does not know. They come out as line feeds,
and then the message is no JSON. And `decodeLogLine` takes a line that is blank for none.
`lossless_iff` says that every other line arrives.
-/

set_option autoImplicit false

namespace Infinito.Jobs

open Py Lib Json
open Orders (jsTrim)

/-! ## Frames -/

/-- `_sse_event` -/
def sseEvent (event data : Text) : Text :=
  let lines := if data = [] then [[]] else splitlines data
  joinLines (("event: ".toList ++ event) :: lines.map fun line => "data: ".toList ++ line) ++
    ['\n', '\n']

/-- `next_payload` -/
def nextPayload (eventType jobId : Text) (eventSeq : Nat) (timestamp : Text)
    (payload : List (Text × Scalar)) : Text :=
  print ([("type".toList, .str eventType), ("job_id".toList, .str jobId),
    ("seq".toList, .int eventSeq), ("timestamp".toList, .str timestamp)] ++ payload)

/-! ## The event-stream format -/

/-- The lines that are ended, by CRLF, LF or CR. -/
def streamLines : Text → Text → List Text
  | _, [] => []
  | acc, '\r' :: '\n' :: t => acc.reverse :: streamLines [] t
  | acc, c :: t =>
      if c = '\n' ∨ c = '\r' then acc.reverse :: streamLines [] t else streamLines (c :: acc) t

/-- The field of a line and its value: one blank behind the colon is not part of it. -/
def fieldOf (line : Text) : Text × Text :=
  let value := (line.dropWhile (· ≠ ':')).tail
  (line.takeWhile (· ≠ ':'), if value.head? = some ' ' then value.tail else value)

/-- The events of a stream, by name and data. An empty line ends an event, a colon begins a
    comment, and what is not ended is dropped. -/
def eventsFrom (type : Text) (data : List Text) : List Text → List (Text × Text)
  | [] => []
  | [] :: ls =>
      (if data = [] then [] else [(if type = [] then "message".toList else type, joinLines data)]) ++
        eventsFrom [] [] ls
  | (c :: line) :: ls =>
      if c = ':' then eventsFrom type data ls
      else
        let (field, value) := fieldOf (c :: line)
        if field = "event".toList then eventsFrom value data ls
        else if field = "data".toList then eventsFrom type (data ++ [value]) ls
        else eventsFrom type data ls

def eventStream (t : Text) : List (Text × Text) := eventsFrom [] [] (streamLines [] t)

/-! ## The web client -/

/-- The loop of `parseSseFrame`: the event's name, and the data lines. -/
def frameLine (state : Text × List Text) (line : Text) : Text × List Text :=
  if line = [] ∨ line.head? = some ':' then state
  else
    let (field, value) := fieldOf line
    if field = "event".toList then
      (if value = [] then "message".toList else value, state.2)
    else if field = "data".toList then (state.1, state.2 ++ [value])
    else state

def parseSseFrame (frame : Text) : Option (Text × Text) :=
  let (event, dataLines) := (frame.splitOn '\n').foldl frameLine ("message".toList, [])
  if dataLines = [] then none else some (event, joinLines dataLines)

def decodeLogLine (rawData : Text) : Text :=
  match (parse rawData).bind fun payload => payload.get "line".toList with
  | some (.str line) => if jsTrim line ≠ [] then line else rawData
  | _ => rawData

/-! ## The property -/

/-- Printable ASCII, as job ids and timestamps are. -/
def Printable (t : Text) : Prop := ∀ c ∈ t, 0x20 ≤ c.toNat ∧ c.toNat < 0x7f

instance (t : Text) : Decidable (Printable t) :=
  List.decidableBAll (fun c : Char => 0x20 ≤ c.toNat ∧ c.toNat < 0x7f) t

/-- What the envelope of a log event has beside the line. -/
structure Envelope where
  jobId : Text
  seq : Nat
  timestamp : Text
  jobId_printable : Printable jobId
  timestamp_printable : Printable timestamp

variable (e : Envelope) (line : Text)

/-- The JSON text of the envelope. -/
def logData : Text := nextPayload "log".toList e.jobId e.seq e.timestamp [("line".toList, .str line)]

def logFrame : Text := sseEvent "log".toList (logData e line)

/-- The frame is one event, with the name and the data it was made of. -/
def EventKept : Prop := eventStream (logFrame e line) = [("log".toList, logData e line)]

/-- The web client has the line back. -/
def LineKept : Prop :=
  (parseSseFrame (logFrame e line)).map (fun parsed => decodeLogLine parsed.2) = some line

def Lossless : Prop := EventKept e line ∧ LineKept e line

/-- None of the line breaks that are no control characters. -/
def NoBreak : Prop := ∀ c ∈ line, c ≠ '\u0085' ∧ c ≠ '\u2028' ∧ c ≠ '\u2029'

/-! ## Lines of a frame -/

theorem joinLines_newline {ls : List Text} (hne : ls ≠ []) : joinLines ls ++ ['\n'] = fileText ls := by
  induction ls with
  | nil => exact absurd rfl hne
  | cons l ls ih =>
    cases ls with
    | nil => simp [joinLines, fileText, List.intercalate]
    | cons l' ls =>
      rw [joinLines_cons (List.cons_ne_nil _ _), List.append_assoc, List.cons_append,
        ih (List.cons_ne_nil _ _)]
      simp [fileText]

theorem streamLines_line {acc l t : Text} (hl : Unbroken l) :
    streamLines acc (l ++ '\n' :: t) = (acc.reverse ++ l) :: streamLines [] t := by
  induction l generalizing acc with
  | nil =>
    rw [List.nil_append, streamLines, if_pos (Or.inl rfl), List.append_nil]
    intro t' h
    cases h
  | cons c l ih =>
    obtain ⟨hn, hcr⟩ := hl c List.mem_cons_self
    rw [List.cons_append, streamLines, if_neg (by simp [hn, hcr]),
      ih fun x hx => hl x (List.mem_cons_of_mem _ hx), List.reverse_cons, List.append_assoc]
    · rfl
    · intro t' h
      exact absurd h hcr

/-- The format finds the lines that were written, -/
theorem streamLines_fileText {ls : List Text} (hls : ∀ l ∈ ls, Unbroken l) (t : Text) :
    streamLines [] (fileText ls ++ t) = ls ++ streamLines [] t := by
  induction ls with
  | nil => rfl
  | cons l ls ih =>
    have hjoin : fileText (l :: ls) ++ t = l ++ '\n' :: (fileText ls ++ t) := by simp [fileText]
    rw [hjoin, streamLines_line (hls l List.mem_cons_self),
      ih fun x hx => hls x (List.mem_cons_of_mem _ hx)]
    rfl

/-- and so does splitting at line feeds. -/
theorem splitOn_fileText {ls : List Text} (hls : ∀ l ∈ ls, Unbroken l) (t : Text) :
    (fileText ls ++ t).splitOn '\n' = ls ++ t.splitOn '\n' := by
  induction ls with
  | nil => rfl
  | cons l ls ih =>
    have hjoin : fileText (l :: ls) ++ t = l ++ '\n' :: (fileText ls ++ t) := by simp [fileText]
    have hl : '\n' ∉ l := fun hc => (hls l List.mem_cons_self _ hc).1 rfl
    rw [hjoin, List.splitOn_append_cons_self_of_not_mem hl, ih fun x hx => hls x (List.mem_cons_of_mem _ hx)]
    rfl

theorem eventsFrom_data {type : Text} {data vs : List Text} {ls : List Text} :
    eventsFrom type data ((vs.map fun v => "data: ".toList ++ v) ++ ls) =
      eventsFrom type (data ++ vs) ls := by
  induction vs generalizing data with
  | nil => rw [List.map_nil, List.nil_append, List.append_nil]
  | cons v vs ih =>
    have hstep : eventsFrom type data (("data: ".toList ++ v) ::
        ((vs.map fun v => "data: ".toList ++ v) ++ ls)) =
        eventsFrom type (data ++ [v]) ((vs.map fun v => "data: ".toList ++ v) ++ ls) := rfl
    rw [List.map_cons, List.cons_append, hstep, ih, List.append_assoc]
    rfl

theorem frameLine_data {event : Text} {data vs : List Text} :
    (vs.map fun v => "data: ".toList ++ v).foldl frameLine (event, data) = (event, data ++ vs) := by
  induction vs generalizing data with
  | nil => rw [List.append_nil]; rfl
  | cons v vs ih =>
    have hstep : frameLine (event, data) ("data: ".toList ++ v) = (event, data ++ [v]) := rfl
    rw [List.map_cons, List.foldl_cons, hstep, ih, List.append_assoc]
    rfl

/-- What a frame carries: the data with a line feed for each of its line breaks. -/
def carried (data : Text) : Text := joinLines (splitlines data)

section Frame

variable {event data : Text}

theorem frame_lines (hdata : data ≠ []) : sseEvent event data =
    fileText (("event: ".toList ++ event) :: (splitlines data).map fun l => "data: ".toList ++ l) ++
      ['\n'] := by
  rw [sseEvent, if_neg hdata, ← joinLines_newline (List.cons_ne_nil _ _), List.append_assoc]
  rfl

theorem unbroken_append {t u : Text} (ht : Unbroken t) (hu : Unbroken u) : Unbroken (t ++ u) := by
  intro c hc
  rcases List.mem_append.mp hc with hc | hc
  · exact ht c hc
  · exact hu c hc

theorem frame_unbroken (hevent : Unbroken event) :
    ∀ l ∈ ("event: ".toList ++ event) :: (splitlines data).map (fun l => "data: ".toList ++ l),
      Unbroken l := by
  intro l hl
  rcases List.mem_cons.mp hl with rfl | hl
  · exact unbroken_append (by decide) hevent
  · obtain ⟨l, hline, rfl⟩ := List.mem_map.mp hl
    refine unbroken_append (by decide) fun c hc => ?_
    have hbreak := splitlines_unbroken hline c hc
    constructor
    · rintro rfl
      exact absurd hbreak (by decide)
    · rintro rfl
      exact absurd hbreak (by decide)

theorem eventStream_frame (hdata : data ≠ []) (hlines : splitlines data ≠ [])
    (hevent : Unbroken event) (hne : event ≠ []) :
    eventStream (sseEvent event data) = [(event, carried data)] := by
  have hlast : streamLines [] ['\n'] = [[]] := rfl
  rw [eventStream, frame_lines hdata, streamLines_fileText (frame_unbroken hevent), hlast,
    List.cons_append]
  have hstep (ls : List Text) : eventsFrom [] [] (("event: ".toList ++ event) :: ls) =
      eventsFrom event [] ls := rfl
  rw [hstep, eventsFrom_data, List.nil_append, eventsFrom, if_neg hlines, if_neg hne]
  rfl

theorem parseSseFrame_frame (hdata : data ≠ []) (hlines : splitlines data ≠ [])
    (hevent : Unbroken event) (hne : event ≠ []) :
    parseSseFrame (sseEvent event data) = some (event, carried data) := by
  have hlast : (['\n'] : Text).splitOn '\n' = [[], []] := rfl
  have hstep (state : Text × List Text) : frameLine state ("event: ".toList ++ event) =
      (if event = [] then "message".toList else event, state.2) := rfl
  have hempty (state : Text × List Text) : [[], []].foldl frameLine state = state := rfl
  rw [parseSseFrame, frame_lines hdata, splitOn_fileText (frame_unbroken hevent), hlast,
    List.cons_append, List.foldl_cons, List.foldl_append, hstep, if_neg hne, frameLine_data, hempty]
  dsimp only
  rw [List.nil_append, if_neg hlines]
  rfl

end Frame

/-! ## The message -/

/-- The line breaks that JSON does not escape. -/
def bareBreak (c : Char) : Prop := c = '\u0085' ∨ c = '\u2028' ∨ c = '\u2029'

instance (c : Char) : Decidable (bareBreak c) := inferInstanceAs (Decidable (_ ∨ _ ∨ _))

theorem isLineBreak_bare {c : Char} (hc : ¬ c.toNat < 0x20) :
    isLineBreak c = true ↔ bareBreak c := by
  have hval {d : Char} : c = d ↔ c.toNat = d.toNat := Char.ext_iff.trans UInt32.toNat_inj.symm
  unfold isLineBreak bareBreak
  rw [hval, hval, hval]
  simp only [Bool.or_eq_true, Bool.and_eq_true, decide_eq_true_eq, beq_iff_eq]
  show _ ↔ c.toNat = 0x85 ∨ c.toNat = 0x2028 ∨ c.toNat = 0x2029
  omega

/-- An escaped character is printable, or it is the character. -/
theorem mem_escape {c d : Char} (h : d ∈ escape c) :
    (0x20 ≤ d.toNat ∧ d.toNat < 0x7f) ∨ d = c ∧ ¬ c.toNat < 0x20 := by
  have hall : (['"', '\\', 'b', 'f', 'n', 'r', 't'].all fun e => ['\\', e].all fun d =>
      decide (0x20 ≤ d.toNat ∧ d.toNat < 0x7f)) = true := by decide
  have hshort (e : Char) (he : e ∈ ['"', '\\', 'b', 'f', 'n', 'r', 't']) (d : Char)
      (hd : d ∈ ['\\', e]) : 0x20 ≤ d.toNat ∧ d.toNat < 0x7f :=
    of_decide_eq_true (List.all_eq_true.mp (List.all_eq_true.mp hall e he) d hd)
  have hdigits : ∀ n < 0x20, (['\\', 'u', '0', '0', hexDigit (n / 16), hexDigit (n % 16)].all
      fun d => decide (0x20 ≤ d.toNat ∧ d.toNat < 0x7f)) = true := by decide
  have hlong (n : Nat) (hn : n < 0x20) (d : Char)
      (hd : d ∈ ['\\', 'u', '0', '0', hexDigit (n / 16), hexDigit (n % 16)]) :
      0x20 ≤ d.toNat ∧ d.toNat < 0x7f :=
    of_decide_eq_true (List.all_eq_true.mp (hdigits n hn) d hd)
  unfold escape at h
  split_ifs at h with h₁ h₂ h₃ h₄ h₅ h₆ h₇ h₈
  · exact Or.inl (hshort _ (by decide) d h)
  · exact Or.inl (hshort _ (by decide) d h)
  · exact Or.inl (hshort _ (by decide) d h)
  · exact Or.inl (hshort _ (by decide) d h)
  · exact Or.inl (hshort _ (by decide) d h)
  · exact Or.inl (hshort _ (by decide) d h)
  · exact Or.inl (hshort _ (by decide) d h)
  · exact Or.inl (hlong _ h₈ d h)
  · exact Or.inr ⟨List.mem_singleton.mp h, h₈⟩

theorem printable_append {t u : Text} (ht : Printable t) (hu : Printable u) : Printable (t ++ u) := by
  intro c hc
  rcases List.mem_append.mp hc with hc | hc
  · exact ht c hc
  · exact hu c hc

theorem printable_printText {t : Text} (ht : Printable t) : Printable (printText t) := by
  have hbody : Printable (t.flatMap escape) := by
    intro d hd
    obtain ⟨c, hc, hd⟩ := List.mem_flatMap.mp hd
    rcases mem_escape hd with h | ⟨rfl, -⟩
    · exact h
    · exact ht d hc
  exact printable_append (printable_append (show Printable ['"'] by decide) hbody)
    (show Printable ['"'] by decide)

theorem printable_printInt (n : Nat) : Printable (printInt n) := by
  intro c hc
  have hneg : ¬ (n : Int) < 0 := by omega
  rw [printInt, if_neg hneg, Nat.toList_repr] at hc
  have hdigit := Nat.isDigit_of_mem_toDigits (b := 10) (by decide) (by decide) hc
  unfold Char.isDigit at hdigit
  rw [Bool.and_eq_true, decide_eq_true_eq, decide_eq_true_eq] at hdigit
  have hlo : 48 ≤ c.toNat := hdigit.1
  have hhi : c.toNat ≤ 57 := hdigit.2
  omega

variable {e line}

/-- The envelope up to the text of the line. -/
def logHead (e : Envelope) : Text :=
  printOpen [("type".toList, .str "log".toList), ("job_id".toList, .str e.jobId),
    ("seq".toList, .int e.seq), ("timestamp".toList, .str e.timestamp)] ++
    (printText "line".toList ++ [':', ' ', '"'])

theorem logData_eq : logData e line = logHead e ++ (line.flatMap escape ++ ['"', '\x7d']) := by
  rw [logData, nextPayload, print_concat, logHead]
  simp [printMember, Scalar.print, printText]

theorem printable_logHead : Printable (logHead e) := by
  have hmember {key : Text} {s : Scalar} (hkey : Printable key) (hs : Printable s.print) :
      Printable (printMember (key, s) ++ [',', ' ']) := by
    refine printable_append (printable_append (printable_printText hkey) ?_) (by decide)
    exact printable_append (show Printable [':', ' '] by decide) hs
  refine printable_append ?_
    (printable_append (printable_printText (by decide)) (by decide))
  refine printable_append (show Printable ['\x7b'] by decide) ?_
  refine printable_append (hmember (by decide) (printable_printText (by decide))) ?_
  refine printable_append (hmember (by decide) (printable_printText e.jobId_printable)) ?_
  refine printable_append (hmember (by decide) (printable_printInt e.seq)) ?_
  refine printable_append (hmember (by decide) (printable_printText e.timestamp_printable)) ?_
  exact List.forall_mem_nil _

/-- Every character of the message is no control character. -/
theorem visible_logData : ∀ c ∈ logData e line, ¬ c.toNat < 0x20 := by
  intro c hc
  rw [logData_eq] at hc
  rcases List.mem_append.mp hc with hc | hc
  · have := (printable_logHead c hc).1
    omega
  · rcases List.mem_append.mp hc with hc | hc
    · obtain ⟨d, -, hd⟩ := List.mem_flatMap.mp hc
      rcases mem_escape hd with h | ⟨rfl, h⟩
      · omega
      · exact h
    · have := (show Printable ['"', '\x7d'] by decide) c hc
      omega

theorem logData_ne_nil : logData e line ≠ [] := by
  rw [logData_eq]
  exact List.cons_ne_nil _ _

theorem carried_logData : carried (logData e line) = (logData e line).map relined := by
  refine joinLines_splitlines ?_ ?_ logData_ne_nil
  · intro h
    exact absurd (visible_logData _ h) (by decide)
  · rw [logData_eq, ← List.append_assoc, List.getLast?_append]
    intro c hc
    rw [← Option.some.inj hc]
    decide

theorem unbroken_log : Unbroken "log".toList := by decide

theorem splitlines_logData : splitlines (logData e line) ≠ [] :=
  splitlinesFrom_ne_nil (Or.inr logData_ne_nil)

theorem eventKept_iff_carried : EventKept e line ↔ carried (logData e line) = logData e line := by
  rw [EventKept, logFrame, eventStream_frame logData_ne_nil splitlines_logData unbroken_log (by decide)]
  simp

theorem lineKept_iff_carried :
    LineKept e line ↔ decodeLogLine (carried (logData e line)) = line := by
  rw [LineKept, logFrame,
    parseSseFrame_frame logData_ne_nil splitlines_logData unbroken_log (by decide)]
  simp

/-! ## Breaks that are not escaped -/

theorem relined_of_not_bare {c : Char} (hc : ¬ c.toNat < 0x20) (hbare : ¬ bareBreak c) :
    relined c = c := by
  rw [relined, if_neg (by rw [isLineBreak_bare hc]; exact hbare)]

theorem relined_of_bare {c : Char} (h : bareBreak c) : relined c = '\n' := by
  rcases h with rfl | rfl | rfl <;> rfl

theorem escape_of_bare {c : Char} (h : bareBreak c) : escape c = [c] := by
  rcases h with rfl | rfl | rfl <;> rfl

theorem noBreak_iff : NoBreak line ↔ ∀ c ∈ line, ¬ bareBreak c := by
  unfold NoBreak bareBreak
  refine forall_congr' fun c => imp_congr_right fun _ => ?_
  rw [not_or, not_or]

theorem not_bare_of_printable {c : Char} (h : 0x20 ≤ c.toNat ∧ c.toNat < 0x7f) : ¬ bareBreak c := by
  rintro (rfl | rfl | rfl) <;> exact absurd h (by decide)

theorem map_relined_escape {t : Text} (ht : NoBreak t) :
    (t.flatMap escape).map relined = t.flatMap escape := by
  refine (List.map_congr_left fun c hc => ?_).trans (List.map_id _)
  obtain ⟨d, hd, hc⟩ := List.mem_flatMap.mp hc
  rcases mem_escape hc with h | ⟨rfl, h⟩
  · exact relined_of_not_bare (by omega) (not_bare_of_printable h)
  · exact relined_of_not_bare h (noBreak_iff.mp ht c hd)

theorem map_relined_printable {t : Text} (ht : Printable t) : t.map relined = t := by
  refine (List.map_congr_left fun c hc => ?_).trans (List.map_id _)
  have hc := ht c hc
  exact relined_of_not_bare (by omega) (not_bare_of_printable hc)

theorem map_relined_logData (h : NoBreak line) : (logData e line).map relined = logData e line := by
  rw [logData_eq, List.map_append, List.map_append, map_relined_printable printable_logHead,
    map_relined_escape h, map_relined_printable (show Printable ['"', '\x7d'] by decide)]

theorem length_line_lt : line.length < (logData e line).length := by
  have hle : line.length ≤ (line.flatMap escape).length := by
    have hpos (c : Char) : 1 ≤ (escape c).length := by
      unfold escape
      split_ifs <;> exact Nat.succ_le_succ (Nat.zero_le _)
    induction line with
    | nil => exact Nat.le_refl 0
    | cons c t ih =>
      have hc := hpos c
      rw [List.flatMap_cons, List.length_append, List.length_cons]
      omega
  rw [logData_eq, List.length_append, List.length_append]
  simp only [List.length_cons, List.length_nil]
  omega

/-- The first of the breaks cuts the message, which is then no JSON. -/
theorem parse_carried (h : ¬ NoBreak line) : parse (carried (logData e line)) = none := by
  obtain ⟨x, hx, hbare⟩ : ∃ x ∈ line, bareBreak x := by
    rw [noBreak_iff] at h
    push Not at h
    exact h
  have hfound : (line.find? fun c => decide (bareBreak c)).isSome := by
    rw [List.find?_isSome]
    exact ⟨x, hx, decide_eq_true hbare⟩
  obtain ⟨c, hc⟩ := Option.isSome_iff_exists.mp hfound
  obtain ⟨hbare, before, rest, rfl, hbefore⟩ := List.find?_eq_some_iff_append.mp hc
  have hclean : NoBreak before := noBreak_iff.mpr fun d hd => by simpa using hbefore d hd
  have hcut : (logData e (before ++ c :: rest)).map relined = logHead e ++ (before.flatMap escape ++
      '\n' :: ((rest.flatMap escape ++ ['"', '\x7d']).map relined)) := by
    rw [logData_eq, List.map_append, map_relined_printable printable_logHead, List.flatMap_append,
      List.flatMap_cons, escape_of_bare (of_decide_eq_true hbare), List.append_assoc,
      List.map_append, map_relined_escape hclean]
    simp only [List.map_append, List.map_cons, List.cons_append, List.nil_append,
      relined_of_bare (of_decide_eq_true hbare)]
  rw [carried_logData, hcut, logHead, List.append_assoc, List.append_assoc]
  exact parse_print_cut _ _ _ _

theorem eventKept_iff : EventKept e line ↔ NoBreak line := by
  rw [eventKept_iff_carried, carried_logData]
  constructor
  · intro hmap
    rw [noBreak_iff]
    intro c hc hbare
    have hmem : c ∈ logData e line := by
      rw [logData_eq]
      refine List.mem_append_right _ (List.mem_append_left _ (List.mem_flatMap.mpr ⟨c, hc, ?_⟩))
      rw [escape_of_bare hbare]
      exact List.mem_cons_self
    -- what was the break is a line feed now, and there was none
    have hfeed : '\n' ∈ logData e line := by
      rw [← hmap]
      exact List.mem_map.mpr ⟨c, hmem, relined_of_bare hbare⟩
    exact absurd (visible_logData _ hfeed) (by decide)
  · exact map_relined_logData

theorem parse_logData : ∃ payload, parse (logData e line) = some payload ∧
    payload.get "line".toList = some (.str line) := by
  rw [logData, nextPayload]
  exact ⟨_, parse_print _ _, rfl⟩

theorem lineKept_iff : LineKept e line ↔ NoBreak line ∧ jsTrim line ≠ [] := by
  rw [lineKept_iff_carried]
  have hlen := @length_line_lt e line
  by_cases hbreak : NoBreak line
  · rw [carried_logData, map_relined_logData hbreak]
    obtain ⟨payload, hparse, hget⟩ := @parse_logData e line
    have hdecode : decodeLogLine (logData e line) =
        if jsTrim line ≠ [] then line else logData e line := by
      rw [decodeLogLine, hparse, Option.bind_some, hget]
    rw [hdecode]
    split
    · rename_i hblank
      exact iff_of_true rfl ⟨hbreak, hblank⟩
    · rename_i hblank
      refine iff_of_false (fun heq => ?_) fun h => hblank h.2
      rw [heq] at hlen
      exact Nat.lt_irrefl _ hlen
  · have hraw : decodeLogLine (carried (logData e line)) = carried (logData e line) := by
      rw [decodeLogLine, parse_carried hbreak]
      rfl
    refine iff_of_false (fun heq => ?_) fun h => hbreak h.1
    rw [hraw, carried_logData] at heq
    have hlength := congrArg List.length heq
    rw [List.length_map] at hlength
    omega

/-- **Framing loses nothing if and only if** the line has none of the three line breaks that JSON
    leaves bare, and is not blank. -/
theorem lossless_iff (e : Envelope) (line : Text) :
    Lossless e line ↔ NoBreak line ∧ jsTrim line ≠ [] := by
  rw [Lossless, eventKept_iff, lineKept_iff]
  exact ⟨And.right, fun h => ⟨h.1, h⟩⟩

/-- The envelope of a first line. -/
def firstEnvelope : Envelope where
  jobId := "3f2b"
  seq := 2
  timestamp := "2026-01-01T00:00:00Z"
  jobId_printable := by decide
  timestamp_printable := by decide

/-- A line with a separator in it, and a blank one. -/
theorem line_lost :
    ¬ EventKept firstEnvelope "a\u2028b".toList ∧ ¬ LineKept firstEnvelope "a\u2028b".toList ∧
      ¬ LineKept firstEnvelope "  ".toList := by
  unfold EventKept LineKept
  decide +kernel

end Infinito.Jobs
