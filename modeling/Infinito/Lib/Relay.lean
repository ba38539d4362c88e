import Infinito.Lib.Run
import Mathlib.Data.List.Nodup
import Mathlib.Data.List.Perm.Basic

/-!
# A queue in front of a table

Values are handed in to a queue of bounded length. A worker takes them from there, in batches, and
inserts each batch in a transaction; a value that meets a full queue gets a transaction of its own,
at once. A transaction takes numbers from the sequence of the table row by row, and its rows are
there when it commits. When it is aborted its values are lost. Rows may be forgotten at any time.

`ok_of_run` is the account of every run: each value that was handed in is in one place, and in one
place only; no number is given twice; and of two values that went through the queue the one handed
in first has the smaller number.
-/

set_option autoImplicit false

namespace Infinito.Lib.Relay

variable {α : Type}

/-- A value, as it was handed in; the serial tells equal ones apart. -/
structure Entry (α : Type) where
  serial : Nat
  /-- whether the queue took it -/
  queued : Bool
  value : α

structure Row (α : Type) where
  id : Nat
  entry : Entry α

structure Txn (α : Type) where
  /-- whether it is the worker's -/
  worker : Bool
  todo : List (Entry α)
  rows : List (Row α)

structure State (α : Type) where
  queue : List (Entry α)
  /-- what the worker has taken since its last transaction -/
  batch : List (Entry α)
  txns : List (Txn α)
  table : List (Row α)
  /-- the last number given -/
  sequence : Nat
  /-- what was handed in; nothing reads it, nor the two below -/
  accepted : List (Entry α)
  lost : List (Entry α)
  /-- each with what it was forgotten by -/
  forgotten : List (Row α × (Row α → Bool))

inductive Act (α : Type) where
  | put (value : α)
  | take
  | submit
  | insert (i : Nat)
  | commit (i : Nat)
  | abort (i : Nat)
  | forget (p : Row α → Bool)

def init : State α where
  queue := []
  batch := []
  txns := []
  table := []
  sequence := 0
  accepted := []
  lost := []
  forgotten := []

def workers (txns : List (Txn α)) : List (Txn α) := txns.filter Txn.worker

def step (capacity limit : Nat) (s : State α) : Act α → Option (State α)
  | .put value =>
      let queued := decide (s.queue.length < capacity)
      let e : Entry α := ⟨s.accepted.length, queued, value⟩
      some (if queued then { s with queue := s.queue ++ [e], accepted := s.accepted ++ [e] }
        else { s with txns := s.txns ++ [⟨false, [e], []⟩], accepted := s.accepted ++ [e] })
  | .take => match s.queue with
      | e :: queue =>
          if workers s.txns = [] ∧ s.batch.length < limit then
            some { s with queue := queue, batch := s.batch ++ [e] }
          else none
      | [] => none
  | .submit =>
      if workers s.txns = [] ∧ s.batch ≠ [] ∧ (limit ≤ s.batch.length ∨ s.queue = []) then
        some { s with batch := [], txns := s.txns ++ [⟨true, s.batch, []⟩] }
      else none
  | .insert i => match s.txns[i]? with
      | some ⟨worker, e :: todo, rows⟩ => some { s with
          txns := s.txns.set i ⟨worker, todo, rows ++ [⟨s.sequence + 1, e⟩]⟩
          sequence := s.sequence + 1 }
      | _ => none
  | .commit i => match s.txns[i]? with
      | some ⟨_, [], rows⟩ => some { s with
          txns := s.txns.eraseIdx i
          table := s.table ++ rows }
      | _ => none
  | .abort i => match s.txns[i]? with
      | some t => some { s with
          txns := s.txns.eraseIdx i
          lost := s.lost ++ (t.rows.map Row.entry ++ t.todo) }
      | none => none
  | .forget p => some { s with
      table := s.table.filter fun r => !p r
      forgotten := s.forgotten ++ (s.table.filter p).map (·, p) }

/-! ## Where things are -/

namespace State

/-- The rows there are or were, but for those of transactions that were aborted. -/
def rows (s : State α) : List (Row α) :=
  s.table ++ (s.forgotten.map (·.1) ++ s.txns.flatMap Txn.rows)

/-- The entries that are still to get a row. -/
def waiting (s : State α) : List (Entry α) := s.txns.flatMap Txn.todo ++ (s.batch ++ s.queue)

def places (s : State α) : List (Entry α) := s.rows.map Row.entry ++ (s.lost ++ s.waiting)

/-- The queue, the batch before it, and before that what the worker is inserting. -/
def line (s : State α) : List (Entry α) :=
  (workers s.txns).flatMap Txn.todo ++ (s.batch ++ s.queue)

end State

/-- What holds of every state that a run reaches. -/
structure Ok (s : State α) : Prop where
  accounted : s.accepted.Perm s.places
  serials : s.accepted.map Entry.serial = List.range s.accepted.length
  ids : (s.rows.map Row.id).Nodup
  given : ∀ r ∈ s.rows, r.id ≤ s.sequence
  /-- the worker has one transaction at most -/
  single : (workers s.txns).length ≤ 1
  kind : ∀ t ∈ s.txns, ∀ e ∈ t.rows.map Row.entry ++ t.todo, e.queued = t.worker
  taken : ∀ e ∈ s.batch ++ s.queue, e.queued = true
  sorted : s.line.Pairwise fun e e' => e.serial < e'.serial
  before : ∀ r ∈ s.rows, r.entry.queued = true → ∀ e ∈ s.line, r.entry.serial < e.serial
  order : ∀ r ∈ s.rows, ∀ r' ∈ s.rows, r.entry.queued = true → r'.entry.queued = true →
    r.entry.serial < r'.entry.serial → r.id < r'.id
  reason : ∀ x ∈ s.forgotten, x.2 x.1 = true

theorem ok_init : Ok (init : State α) where
  accounted := List.Perm.refl _
  serials := rfl
  ids := List.nodup_nil
  given := nofun
  single := Nat.zero_le _
  kind := nofun
  taken := nofun
  sorted := List.Pairwise.nil
  before := nofun
  order := nofun
  reason := nofun

/-! ## One transaction among all -/

section Txns

variable {ts us : List (Txn α)} {t : Txn α} {i : Nat}

theorem perm_eraseIdx (h : ts[i]? = some t) : ts.Perm (t :: ts.eraseIdx i) := by
  obtain ⟨hi, rfl⟩ := List.getElem?_eq_some_iff.mp h
  exact (List.getElem_cons_eraseIdx_perm hi).symm

theorem perm_set (h : ts[i]? = some t) (t' : Txn α) : (ts.set i t').Perm (t' :: ts.eraseIdx i) := by
  obtain ⟨hi, -⟩ := List.getElem?_eq_some_iff.mp h
  have hperm := List.getElem_cons_eraseIdx_perm (show i < (ts.set i t').length by rwa [List.length_set])
  rw [List.getElem_set_self, List.eraseIdx_set_eq] at hperm
  exact hperm.symm

/-- Where the worker has one transaction at most, the order of them all does not matter. -/
theorem workers_perm (hsingle : (workers ts).length ≤ 1) (h : ts.Perm us) : workers us = workers ts := by
  have hperm : (workers ts).Perm (workers us) := h.filter _
  match hw : workers ts, hsingle with
  | [], _ => rw [hw] at hperm; exact hperm.nil_eq.symm
  | [t], _ => rw [hw] at hperm; exact List.perm_singleton.mp hperm.symm

theorem workers_cons (h : t.worker = true) (us : List (Txn α)) : workers (t :: us) = t :: workers us :=
  List.filter_cons_of_pos h

theorem workers_cons_of_not (h : t.worker = false) (us : List (Txn α)) :
    workers (t :: us) = workers us :=
  List.filter_cons_of_neg (by rw [h]; exact Bool.false_ne_true)

end Txns

/-! ## What a step keeps -/

section Step

variable {s s' : State α} {capacity limit i : Nat} {e : Entry α} {t : Txn α}

theorem Ok.serial_lt (h : Ok s) {e : Entry α} (he : e ∈ s.accepted) : e.serial < s.accepted.length := by
  have hmem := List.mem_map_of_mem (f := Entry.serial) he
  rwa [h.serials, List.mem_range] at hmem

theorem Ok.mem_accepted_of_row (h : Ok s) {r : Row α} (hr : r ∈ s.rows) : r.entry ∈ s.accepted :=
  h.accounted.mem_iff.mpr (List.mem_append_left _ (List.mem_map_of_mem hr))

theorem Ok.mem_accepted_of_line (h : Ok s) {e : Entry α} (he : e ∈ s.line) : e ∈ s.accepted := by
  refine h.accounted.mem_iff.mpr (List.mem_append_right _ (List.mem_append_right _ ?_))
  rcases List.mem_append.mp he with he | he
  · obtain ⟨t, ht, he⟩ := List.mem_flatMap.mp he
    exact List.mem_append_left _ (List.mem_flatMap.mpr ⟨t, (List.mem_filter.mp ht).1, he⟩)
  · exact List.mem_append_right _ he

/-- Nothing has moved but from one place to the next. -/
theorem Ok.moved (h : Ok s) (haccepted : s'.accepted = s.accepted) (hrows : s'.rows.Perm s.rows)
    (hlost : s'.lost = s.lost) (hwaiting : s'.waiting.Perm s.waiting) (hline : s'.line = s.line)
    (hsequence : s'.sequence = s.sequence) (hsingle : (workers s'.txns).length ≤ 1)
    (hkind : ∀ t ∈ s'.txns, ∀ e ∈ t.rows.map Row.entry ++ t.todo, e.queued = t.worker)
    (htaken : ∀ e ∈ s'.batch ++ s'.queue, e.queued = true)
    (hreason : ∀ x ∈ s'.forgotten, x.2 x.1 = true) : Ok s' where
  accounted := by
    unfold State.places
    rw [haccepted, hlost]
    exact h.accounted.trans
      ((hrows.map Row.entry).symm.append (hwaiting.symm.append_left s.lost))
  serials := by rw [haccepted]; exact h.serials
  ids := (hrows.map Row.id).nodup_iff.mpr h.ids
  given r hr := by rw [hsequence]; exact h.given r (hrows.mem_iff.mp hr)
  single := hsingle
  kind := hkind
  taken := htaken
  sorted := by rw [hline]; exact h.sorted
  before r hr := by rw [hline]; exact h.before r (hrows.mem_iff.mp hr)
  order r hr r' hr' := h.order r (hrows.mem_iff.mp hr) r' (hrows.mem_iff.mp hr')
  reason := hreason

/-! ### Handing in -/

theorem Ok.serials_concat (h : Ok s) {value : α} {queued : Bool} :
    (s.accepted ++ [(⟨s.accepted.length, queued, value⟩ : Entry α)]).map Entry.serial =
      List.range (s.accepted ++ [(⟨s.accepted.length, queued, value⟩ : Entry α)]).length := by
  rw [List.map_append, h.serials, List.length_append, List.length_singleton, List.range_succ]
  rfl

theorem Ok.put (h : Ok s) (value : α) :
    let e : Entry α := ⟨s.accepted.length, true, value⟩
    Ok { s with queue := s.queue ++ [e], accepted := s.accepted ++ [e] } := by
  intro e
  have hline : ({ s with queue := s.queue ++ [e], accepted := s.accepted ++ [e] } : State α).line =
      s.line ++ [e] := by
    unfold State.line
    rw [← List.append_assoc, ← List.append_assoc, ← List.append_assoc]
  refine ⟨?_, h.serials_concat, h.ids, h.given, h.single, h.kind, ?_, ?_, ?_, h.order, h.reason⟩
  · have hplaces : ({ s with queue := s.queue ++ [e], accepted := s.accepted ++ [e] } :
        State α).places = s.places ++ [e] := by
      unfold State.places State.waiting
      simp only [List.append_assoc]
      rfl
    rw [hplaces]
    exact h.accounted.append_right [e]
  · intro x hx
    dsimp only at hx
    rw [← List.append_assoc] at hx
    rcases List.mem_append.mp hx with hx | hx
    · exact h.taken x hx
    · rw [List.mem_singleton.mp hx]
  · rw [hline, List.pairwise_append]
    refine ⟨h.sorted, List.pairwise_singleton _ _, fun x hx y hy => ?_⟩
    rw [List.mem_singleton.mp hy]
    exact h.serial_lt (h.mem_accepted_of_line hx)
  · intro r hr hq x hx
    rw [hline] at hx
    rcases List.mem_append.mp hx with hx | hx
    · exact h.before r hr hq x hx
    · rw [List.mem_singleton.mp hx]
      exact h.serial_lt (h.mem_accepted_of_row hr)

theorem Ok.putAside (h : Ok s) (value : α) :
    let e : Entry α := ⟨s.accepted.length, false, value⟩
    Ok { s with txns := s.txns ++ [⟨false, [e], []⟩], accepted := s.accepted ++ [e] } := by
  intro e
  have hworkers : workers (s.txns ++ [(⟨false, [e], []⟩ : Txn α)]) = workers s.txns := by
    unfold workers
    rw [List.filter_append]
    exact List.append_nil _
  have hrows : ({ s with txns := s.txns ++ [⟨false, [e], []⟩], accepted := s.accepted ++ [e] } :
      State α).rows = s.rows := by
    unfold State.rows
    dsimp only
    rw [List.flatMap_append]
    exact congrArg _ (congrArg _ (List.append_nil _))
  have hline : ({ s with txns := s.txns ++ [⟨false, [e], []⟩], accepted := s.accepted ++ [e] } :
      State α).line = s.line := by
    unfold State.line
    dsimp only
    rw [hworkers]
  refine ⟨?_, h.serials_concat, ?_, ?_, ?_, ?_, h.taken, ?_, ?_, ?_, h.reason⟩
  · have hwaiting : ({ s with txns := s.txns ++ [⟨false, [e], []⟩], accepted := s.accepted ++ [e] } :
        State α).waiting.Perm (s.waiting ++ [e]) := by
      unfold State.waiting
      dsimp only
      rw [List.flatMap_append, List.append_assoc, List.append_assoc]
      exact List.perm_append_comm.append_left _
    refine (h.accounted.append_right [e]).trans ?_
    unfold State.places
    rw [hrows, List.append_assoc, List.append_assoc]
    exact (hwaiting.symm.append_left _).append_left _
  · rw [hrows]
    exact h.ids
  · rw [hrows]
    exact h.given
  · show (workers (s.txns ++ [(⟨false, [e], []⟩ : Txn α)])).length ≤ 1
    rw [hworkers]
    exact h.single
  · intro t ht
    rcases List.mem_append.mp ht with ht | ht
    · exact h.kind t ht
    · rw [List.mem_singleton.mp ht]
      intro x hx
      rw [List.mem_singleton.mp hx]
  · rw [hline]
    exact h.sorted
  · rw [hrows, hline]
    exact h.before
  · rw [hrows]
    exact h.order

/-! ### The worker -/

theorem Ok.take (h : Ok s) {queue : List (Entry α)} (hqueue : s.queue = e :: queue) :
    Ok { s with queue := queue, batch := s.batch ++ [e] } := by
  have hshift : (s.batch ++ [e]) ++ queue = s.batch ++ s.queue := by
    rw [hqueue, List.append_assoc]
    rfl
  refine h.moved rfl (List.Perm.refl _) rfl ?_ ?_ rfl h.single h.kind ?_ h.reason
  · unfold State.waiting
    dsimp only
    rw [hshift]
  · unfold State.line
    dsimp only
    rw [hshift]
  · dsimp only
    rw [hshift]
    exact h.taken

theorem Ok.submit (h : Ok s) (hnone : workers s.txns = []) :
    Ok { s with batch := [], txns := s.txns ++ [⟨true, s.batch, []⟩] } := by
  have hworkers : workers (s.txns ++ [(⟨true, s.batch, []⟩ : Txn α)]) = [⟨true, s.batch, []⟩] := by
    unfold workers at hnone ⊢
    rw [List.filter_append, hnone]
    rfl
  have htodo : (s.txns ++ [(⟨true, s.batch, []⟩ : Txn α)]).flatMap Txn.todo =
      s.txns.flatMap Txn.todo ++ s.batch := by
    rw [List.flatMap_append]
    exact congrArg _ (List.append_nil _)
  refine h.moved rfl ?_ rfl ?_ ?_ rfl ?_ ?_ ?_ h.reason
  · unfold State.rows
    dsimp only
    rw [List.flatMap_append]
    exact List.Perm.of_eq (congrArg _ (congrArg _ (List.append_nil _)))
  · unfold State.waiting
    dsimp only
    rw [htodo, List.append_assoc]
    rfl
  · unfold State.line
    dsimp only
    rw [hworkers, hnone]
    exact congrArg (· ++ s.queue) (List.append_nil s.batch)
  · dsimp only
    rw [hworkers]
    exact Nat.le_refl 1
  · intro t ht
    rcases List.mem_append.mp ht with ht | ht
    · exact h.kind t ht
    · rw [List.mem_singleton.mp ht]
      exact fun x hx => h.taken x (List.mem_append_left _ hx)
  · exact fun x hx => h.taken x (List.mem_append_right _ hx)

/-! ### Transactions -/

/-- What a transaction of the worker has to do comes first in the line. -/
theorem line_todo {ts us : List (Txn α)} (hsingle : (workers ts).length ≤ 1) (h : ts.Perm (t :: us)) :
    (workers ts).flatMap Txn.todo =
      (if t.worker then t.todo else []) ++ (workers us).flatMap Txn.todo := by
  rw [← workers_perm hsingle h]
  cases hw : t.worker with
  | true => rw [workers_cons hw, List.flatMap_cons, if_pos rfl]
  | false => rw [workers_cons_of_not hw, if_neg Bool.false_ne_true]; rfl

theorem workers_length {ts us : List (Txn α)} (h : ts.Perm (t :: us)) :
    (workers ts).length = (if t.worker then 1 else 0) + (workers us).length := by
  have hperm : (workers ts).Perm (workers (t :: us)) := h.filter _
  rw [hperm.length_eq]
  cases hw : t.worker with
  | true => rw [workers_cons hw, List.length_cons, if_pos rfl, Nat.add_comm]
  | false => rw [workers_cons_of_not hw, if_neg Bool.false_ne_true, Nat.zero_add]

theorem Ok.insert (h : Ok s) {worker : Bool} {todo : List (Entry α)} {rows : List (Row α)}
    (ht : s.txns[i]? = some ⟨worker, e :: todo, rows⟩) :
    Ok { s with txns := s.txns.set i ⟨worker, todo, rows ++ [⟨s.sequence + 1, e⟩]⟩
                sequence := s.sequence + 1 } := by
  have hperm := perm_eraseIdx ht
  have hperm' := perm_set ht ⟨worker, todo, rows ++ [⟨s.sequence + 1, e⟩]⟩
  generalize hts : s.txns.set i ⟨worker, todo, rows ++ [⟨s.sequence + 1, e⟩]⟩ = ts at hperm' ⊢
  generalize s.txns.eraseIdx i = us at hperm hperm'
  have hwas : e ∈ s.accepted := by
    refine h.accounted.mem_iff.mpr (List.mem_append_right _ (List.mem_append_right _
      (List.mem_append_left _ (List.mem_flatMap.mpr ⟨_, hperm.mem_iff.mpr List.mem_cons_self, ?_⟩))))
    exact List.mem_cons_self
  have hrows : ({ s with txns := ts, sequence := s.sequence + 1 } : State α).rows.Perm
      (⟨s.sequence + 1, e⟩ :: s.rows) := by
    have hflat : (ts.flatMap Txn.rows).Perm (⟨s.sequence + 1, e⟩ :: s.txns.flatMap Txn.rows) := by
      refine (hperm'.flatMap_right _).trans (List.Perm.trans ?_ ((hperm.flatMap_right _).symm.cons _))
      rw [List.flatMap_cons, List.flatMap_cons, List.append_assoc]
      exact List.perm_middle
    unfold State.rows
    exact ((hflat.append_left _).append_left _).trans
      ((List.perm_middle.append_left _).trans List.perm_middle)
  have hwaiting : s.waiting.Perm
      (e :: ({ s with txns := ts, sequence := s.sequence + 1 } : State α).waiting) := by
    unfold State.waiting
    exact ((hperm.flatMap_right Txn.todo).append_right _).trans
      (((hperm'.flatMap_right Txn.todo).symm.append_right _).cons e)
  have hlen : (workers ts).length = (workers s.txns).length := by
    rw [workers_length hperm, workers_length hperm']
  have hline : s.line = (if worker then [e] else []) ++
      ({ s with txns := ts, sequence := s.sequence + 1 } : State α).line := by
    unfold State.line
    rw [line_todo h.single hperm, line_todo (hlen ▸ h.single) hperm']
    cases worker <;> rfl
  have hnew {r : Row α} (hr : r ∈ ({ s with txns := ts, sequence := s.sequence + 1 } : State α).rows) :
      r = ⟨s.sequence + 1, e⟩ ∨ r ∈ s.rows := List.mem_cons.mp (hrows.mem_iff.mp hr)
  have hkind : e.queued = worker := by
    refine h.kind _ (hperm.mem_iff.mpr List.mem_cons_self) e ?_
    exact List.mem_append_right _ List.mem_cons_self
  have hhead (hq : e.queued = true) : s.line =
      e :: ({ s with txns := ts, sequence := s.sequence + 1 } : State α).line := by
    rw [hline, ← hkind, hq]
    rfl
  refine ⟨?_, h.serials, ?_, ?_, ?_, ?_, h.taken, ?_, ?_, ?_, h.reason⟩
  · refine h.accounted.trans ?_
    unfold State.places
    refine ((hwaiting.append_left _).append_left _).trans (List.Perm.trans ?_
      ((hrows.map Row.entry).symm.append_right _))
    exact (List.perm_middle.append_left _).trans List.perm_middle
  · refine (hrows.map Row.id).nodup_iff.mpr (List.nodup_cons.mpr ⟨?_, h.ids⟩)
    rintro hmem
    obtain ⟨r, hr, hid⟩ := List.mem_map.mp hmem
    exact absurd (h.given r hr) (by rw [hid]; exact Nat.not_succ_le_self _)
  · intro r hr
    rcases hnew hr with rfl | hr
    · exact Nat.le_refl _
    · exact Nat.le_succ_of_le (h.given r hr)
  · exact hlen ▸ h.single
  · intro t ht' x hx
    rcases List.mem_cons.mp (hperm'.mem_iff.mp ht') with rfl | ht'
    · refine h.kind _ (hperm.mem_iff.mpr List.mem_cons_self) x ?_
      rw [List.map_append, List.append_assoc] at hx
      exact hx
    · exact h.kind t (hperm.mem_iff.mpr (List.mem_cons_of_mem _ ht')) x hx
  · have hsorted := h.sorted
    rw [hline] at hsorted
    exact (List.pairwise_append.mp hsorted).2.1
  · intro r hr hq x hx
    rcases hnew hr with rfl | hr
    · have hsorted := h.sorted
      rw [hhead hq] at hsorted
      exact (List.pairwise_cons.mp hsorted).1 x hx
    · refine h.before r hr hq x ?_
      rw [hline]
      exact List.mem_append_right _ hx
  · intro r hr r' hr' hq hq' hlt
    rcases hnew hr with rfl | hr
    · rcases hnew hr' with rfl | hr'
      · exact absurd hlt (Nat.lt_irrefl _)
      · -- what has a row was before all of the line
        have hbefore := h.before r' hr' hq' e (by rw [hhead hq]; exact List.mem_cons_self)
        exact absurd hlt (Nat.lt_asymm hbefore)
    · rcases hnew hr' with rfl | hr'
      · exact Nat.lt_succ_of_le (h.given r hr)
      · exact h.order r hr r' hr' hq hq' hlt

theorem Ok.commit (h : Ok s) {worker : Bool} {rows : List (Row α)}
    (ht : s.txns[i]? = some ⟨worker, [], rows⟩) :
    Ok { s with txns := s.txns.eraseIdx i, table := s.table ++ rows } := by
  have hperm := perm_eraseIdx ht
  generalize s.txns.eraseIdx i = us at hperm ⊢
  have hlen := workers_length hperm
  refine h.moved rfl ?_ rfl ?_ ?_ rfl ?_ ?_ h.taken h.reason
  · unfold State.rows
    have hflat := hperm.flatMap_right Txn.rows
    rw [List.flatMap_cons] at hflat
    rw [List.append_assoc]
    refine List.Perm.append_left _ (List.Perm.trans ?_ (hflat.symm.append_left _))
    rw [← List.append_assoc, ← List.append_assoc]
    exact List.perm_append_comm.append_right _
  · unfold State.waiting
    exact (hperm.flatMap_right Txn.todo).symm.append_right _
  · unfold State.line
    rw [line_todo h.single hperm]
    cases worker <;> rfl
  · exact Nat.le_trans (by rw [hlen]; exact Nat.le_add_left _ _) h.single
  · exact fun t ht' => h.kind t (hperm.mem_iff.mpr (List.mem_cons_of_mem _ ht'))

theorem Ok.abort (h : Ok s) (ht : s.txns[i]? = some t) :
    Ok { s with txns := s.txns.eraseIdx i
                lost := s.lost ++ (t.rows.map Row.entry ++ t.todo) } := by
  have hperm := perm_eraseIdx ht
  generalize s.txns.eraseIdx i = us at hperm ⊢
  generalize hlost : s.lost ++ (t.rows.map Row.entry ++ t.todo) = lost
  have hrows : s.rows.Perm (t.rows ++ ({ s with txns := us, lost := lost } : State α).rows) := by
    unfold State.rows
    refine (((hperm.flatMap_right Txn.rows).append_left _).append_left _).trans ?_
    rw [List.flatMap_cons, ← List.append_assoc, ← List.append_assoc, ← List.append_assoc]
    exact (List.perm_append_comm.append_right _).trans (List.Perm.of_eq (by simp only [List.append_assoc]))
  have hmem {r : Row α} (hr : r ∈ ({ s with txns := us, lost := lost } : State α).rows) : r ∈ s.rows :=
    hrows.mem_iff.mpr (List.mem_append_right _ hr)
  have hwaiting : s.waiting.Perm
      (t.todo ++ ({ s with txns := us, lost := lost } : State α).waiting) := by
    unfold State.waiting
    refine ((hperm.flatMap_right Txn.todo).append_right _).trans (List.Perm.of_eq ?_)
    rw [List.flatMap_cons, List.append_assoc]
  have hline : s.line = (if t.worker then t.todo else []) ++
      ({ s with txns := us, lost := lost } : State α).line := by
    unfold State.line
    rw [line_todo h.single hperm, List.append_assoc]
  refine ⟨?_, h.serials, ?_, fun r hr => h.given r (hmem hr), ?_, ?_, h.taken, ?_, ?_, ?_, h.reason⟩
  · refine h.accounted.trans ?_
    unfold State.places
    dsimp only
    rw [← hlost]
    refine ((hrows.map Row.entry).append (hwaiting.append_left _)).trans ?_
    rw [List.map_append, List.append_assoc, List.append_assoc, List.append_assoc]
    refine (List.perm_append_comm_assoc _ _ _).trans (List.Perm.append_left _ ?_)
    exact List.perm_append_comm_assoc _ _ _
  · have hids := (hrows.map Row.id).nodup_iff.mp h.ids
    rw [List.map_append] at hids
    exact (List.nodup_append.mp hids).2.1
  · have hlen := workers_length hperm
    exact Nat.le_trans (by rw [hlen]; exact Nat.le_add_left _ _) h.single
  · exact fun t ht' => h.kind t (hperm.mem_iff.mpr (List.mem_cons_of_mem _ ht'))
  · have hsorted := h.sorted
    rw [hline] at hsorted
    exact (List.pairwise_append.mp hsorted).2.1
  · intro r hr hq x hx
    refine h.before r (hmem hr) hq x ?_
    rw [hline]
    exact List.mem_append_right _ hx
  · exact fun r hr r' hr' => h.order r (hmem hr) r' (hmem hr')

/-! ### Forgetting -/

theorem Ok.forget (h : Ok s) (p : Row α → Bool) :
    Ok { s with table := s.table.filter fun r => !p r
                forgotten := s.forgotten ++ (s.table.filter p).map (·, p) } := by
  refine h.moved rfl ?_ rfl (List.Perm.refl _) rfl rfl h.single h.kind h.taken ?_
  · have htable : ((s.table.filter fun r => !p r) ++ s.table.filter p).Perm s.table :=
      List.perm_append_comm.trans (List.filter_append_perm p s.table)
    have hfst : ((s.table.filter p).map (·, p)).map Prod.fst = s.table.filter p := by
      rw [List.map_map]
      exact List.map_id _
    unfold State.rows
    dsimp only
    rw [List.map_append, hfst, List.append_assoc]
    refine List.Perm.trans ?_ (htable.append_right _)
    rw [List.append_assoc]
    exact (List.perm_append_comm_assoc _ _ _).append_left _
  · intro x hx
    rcases List.mem_append.mp hx with hx | hx
    · exact h.reason x hx
    · obtain ⟨r, hr, rfl⟩ := List.mem_map.mp hx
      exact (List.mem_filter.mp hr).2

end Step

/-! ## What a run keeps -/

theorem Ok.step {s s' : State α} {capacity limit : Nat} {a : Act α} (h : Ok s)
    (hstep : Relay.step capacity limit s a = some s') : Ok s' := by
  cases a with
  | put value =>
    cases hroom : decide (s.queue.length < capacity) with
    | true =>
      simp only [Relay.step, hroom, if_true, Option.some.injEq] at hstep
      exact hstep ▸ h.put value
    | false =>
      simp only [Relay.step, hroom, Bool.false_eq_true, if_false, Option.some.injEq] at hstep
      exact hstep ▸ h.putAside value
  | take =>
    cases hqueue : s.queue with
    | nil => simp [Relay.step, hqueue] at hstep
    | cons e queue =>
      simp only [Relay.step, hqueue, Option.ite_none_right_eq_some, Option.some.injEq] at hstep
      exact hstep.2 ▸ h.take hqueue
  | submit =>
    simp only [Relay.step, Option.ite_none_right_eq_some, Option.some.injEq] at hstep
    exact hstep.2 ▸ h.submit hstep.1.1
  | insert i =>
    rcases ht : s.txns[i]? with _ | ⟨worker, _ | ⟨e, todo⟩, rows⟩
    · simp [Relay.step, ht] at hstep
    · simp [Relay.step, ht] at hstep
    · simp only [Relay.step, ht, Option.some.injEq] at hstep
      exact hstep ▸ h.insert ht
  | commit i =>
    rcases ht : s.txns[i]? with _ | ⟨worker, _ | ⟨e, todo⟩, rows⟩
    · simp [Relay.step, ht] at hstep
    · simp only [Relay.step, ht, Option.some.injEq] at hstep
      exact hstep ▸ h.commit ht
    · simp [Relay.step, ht] at hstep
  | abort i =>
    cases ht : s.txns[i]? with
    | none => simp [Relay.step, ht] at hstep
    | some t =>
      simp only [Relay.step, ht, Option.some.injEq] at hstep
      exact hstep ▸ h.abort ht
  | forget p =>
    simp only [Relay.step, Option.some.injEq] at hstep
    exact hstep ▸ h.forget p

/-- Rows are added behind the others, or forgotten. -/
theorem table_cases {s s' : State α} {capacity limit : Nat} {a : Act α}
    (hstep : Relay.step capacity limit s a = some s') :
    (∃ rows, s'.table = s.table ++ rows ∧ s'.forgotten = s.forgotten) ∨
    ∃ p, a = .forget p ∧ (s'.table = s.table.filter fun r => !p r) ∧
      s'.forgotten = s.forgotten ++ (s.table.filter p).map (·, p) := by
  have hsame (htable : s'.table = s.table) (hforgotten : s'.forgotten = s.forgotten) :
      ∃ rows, s'.table = s.table ++ rows ∧ s'.forgotten = s.forgotten :=
    ⟨[], by rw [htable, List.append_nil], hforgotten⟩
  cases a with
  | put value =>
    simp only [Relay.step, Option.some.injEq] at hstep
    refine Or.inl (hsame ?_ ?_)
    · rw [← hstep]
      split <;> rfl
    · rw [← hstep]
      split <;> rfl
  | take =>
    cases hqueue : s.queue with
    | nil => simp [Relay.step, hqueue] at hstep
    | cons e queue =>
      simp only [Relay.step, hqueue, Option.ite_none_right_eq_some, Option.some.injEq] at hstep
      exact Or.inl (hsame (by rw [← hstep.2]) (by rw [← hstep.2]))
  | submit =>
    simp only [Relay.step, Option.ite_none_right_eq_some, Option.some.injEq] at hstep
    exact Or.inl (hsame (by rw [← hstep.2]) (by rw [← hstep.2]))
  | insert i =>
    rcases ht : s.txns[i]? with _ | ⟨worker, _ | ⟨e, todo⟩, rows⟩
    · simp [Relay.step, ht] at hstep
    · simp [Relay.step, ht] at hstep
    · simp only [Relay.step, ht, Option.some.injEq] at hstep
      exact Or.inl (hsame (by rw [← hstep]) (by rw [← hstep]))
  | commit i =>
    rcases ht : s.txns[i]? with _ | ⟨worker, _ | ⟨e, todo⟩, rows⟩
    · simp [Relay.step, ht] at hstep
    · simp only [Relay.step, ht, Option.some.injEq] at hstep
      exact Or.inl ⟨rows, by rw [← hstep], by rw [← hstep]⟩
    · simp [Relay.step, ht] at hstep
  | abort i =>
    cases ht : s.txns[i]? with
    | none => simp [Relay.step, ht] at hstep
    | some t =>
      simp only [Relay.step, ht, Option.some.injEq] at hstep
      exact Or.inl (hsame (by rw [← hstep]) (by rw [← hstep]))
  | forget p =>
    simp only [Relay.step, Option.some.injEq] at hstep
    exact Or.inr ⟨p, rfl, by rw [← hstep], by rw [← hstep]⟩

/-- A row that is forgotten does not come back. -/
theorem Ok.not_forgotten {s : State α} (h : Ok s) {r : Row α} (hr : r ∈ s.table) :
    r ∉ s.forgotten.map (·.1) := by
  intro hforgotten
  have hids := h.ids
  unfold State.rows at hids
  rw [List.map_append, List.nodup_append] at hids
  exact hids.2.2 r.id (List.mem_map_of_mem hr) r.id
    (List.mem_map_of_mem (List.mem_append_left _ hforgotten)) rfl

/-- **The account of a run.** -/
theorem ok_of_run {s : State α} {capacity limit : Nat} {acts : List (Act α)}
    (hrun : run (step capacity limit) init acts = some s) : Ok s :=
  @run_inv _ _ _ Ok (fun _ _ _ h hstep => h.step hstep) _ _ _ ok_init hrun

end Infinito.Lib.Relay
