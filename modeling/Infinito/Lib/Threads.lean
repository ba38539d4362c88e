import Infinito.Lib.Effect
import Infinito.Lib.Run
import Mathlib.Data.List.Nodup
import Mathlib.Data.List.Perm.Basic
import Mathlib.Data.List.Range

/-!
# Calls at the same time

A `Prog` is a program in steps, between which other programs may take theirs; `Prog.run` is
what it does when none does. A call is a program that yields another one: the first is run
as it comes, the second inside a lock that all calls share. A call that holds the lock all
along has nothing to do before.

Where no call takes a step while another one is under way without the lock, the calls have
one effect only, that of running one after the other in the order in which they finish
(`serializable`). The lock sees to the rest.
-/

set_option autoImplicit false

namespace Infinito.Lib

variable {ε σ τ α β : Type}

inductive Prog (ε σ α : Type) where
  | done (a : α)
  | fail (e : ε)
  /-- changes the state, and goes on by what it was before -/
  | step (act : σ → σ) (next : σ → Prog ε σ α)

namespace Prog

def bind : Prog ε σ α → (α → Prog ε σ β) → Prog ε σ β
  | done a, f => f a
  | fail e, _ => fail e
  | step act next, f => step act fun s => (next s).bind f

instance : Monad (Prog ε σ) where
  pure := done
  bind := bind

def tryCatch : Prog ε σ α → (ε → Prog ε σ α) → Prog ε σ α
  | done a, _ => done a
  | fail e, handle => handle e
  | step act next, handle => step act fun s => (next s).tryCatch handle

/-- A program on its own. -/
def run : Prog ε σ α → EStateM ε σ α
  | done a => pure a
  | fail e => throw e
  | step act next => fun s => (next s).run (act s)

/-- A program in one step. -/
def atomic (m : EStateM ε σ α) : Prog ε σ α :=
  step (after m) fun s => match m s with
    | .ok a _ => done a
    | .error e _ => fail e

def forEach (xs : List β) (f : β → Prog ε σ Unit) : Prog ε σ Unit :=
  match xs with
  | [] => pure ()
  | x :: xs => do
    f x
    forEach xs f

@[simp] theorem run_pure (a : α) : (pure a : Prog ε σ α).run = pure a := rfl

@[simp] theorem run_done (a : α) : (done a : Prog ε σ α).run = pure a := rfl

@[simp] theorem run_fail (e : ε) : (fail e : Prog ε σ α).run = throw e := rfl

@[simp] theorem run_bind (p : Prog ε σ α) (f : α → Prog ε σ β) :
    (p >>= f).run = p.run >>= fun a => (f a).run := by
  show (p.bind f).run = _
  induction p with
  | done a => rfl
  | fail e => rfl
  | step act next ih =>
    funext s
    exact congrFun (ih s) (act s)

@[simp] theorem run_tryCatch (p : Prog ε σ α) (handle : ε → Prog ε σ α) :
    (p.tryCatch handle).run = MonadExcept.tryCatch p.run fun e => (handle e).run := by
  induction p with
  | done a => rfl
  | fail e => rfl
  | step act next ih =>
    funext s
    exact congrFun (ih s) (act s)

@[simp] theorem run_atomic (m : EStateM ε σ α) : (atomic m).run = m := by
  funext s
  show (match m s with | .ok a _ => done a | .error e _ => fail e : Prog ε σ α).run (after m s) = _
  unfold after
  cases m s <;> rfl

@[simp] theorem run_ite (c : Prop) [Decidable c] (p q : Prog ε σ α) :
    (if c then p else q).run = if c then p.run else q.run := by
  split <;> rfl

@[simp] theorem run_forEach (xs : List β) (f : β → Prog ε σ Unit) :
    (forEach xs f).run = xs.forM fun x => (f x).run := by
  induction xs with
  | nil => rfl
  | cons x xs ih =>
    show (f x >>= fun _ => forEach xs f).run = _
    rw [run_bind, ih]
    rfl

/-- A program on a part of the state. -/
def embed (get : τ → σ) (put : τ → σ → τ) : Prog ε σ α → Prog ε τ α
  | done a => done a
  | fail e => fail e
  | step act next => step (fun t => put t (act (get t))) fun t => (next (get t)).embed get put

theorem run_embed {get : τ → σ} {put : τ → σ → τ} (hget : ∀ t s, get (put t s) = s)
    (hput : ∀ t s s', put (put t s) s' = put t s') (hself : ∀ t, put t (get t) = t)
    (p : Prog ε σ α) (t : τ) : (p.embed get put).run t =
      match p.run (get t) with
      | .ok a s => .ok a (put t s)
      | .error e s => .error e (put t s) := by
  induction p generalizing t with
  | done a =>
    show EStateM.Result.ok a t = .ok a (put t (get t))
    rw [hself]
  | fail e =>
    show EStateM.Result.error e t = .error e (put t (get t))
    rw [hself]
  | step act next ih =>
    show ((next (get t)).embed get put).run (put t (act (get t))) =
      match (next (get t)).run (act (get t)) with
      | .ok a s => .ok a (put t s)
      | .error e s => .error e (put t s)
    rw [ih, hget]
    cases (next (get t)).run (act (get t)) <;> simp [hput]

end Prog

/-! ## Calls that share a lock -/

/-- What to do without the lock, and then with it. -/
abbrev SharedCall (ε σ : Type) := Prog ε σ (Prog ε σ Unit)

/-- A call on its own. -/
def SharedCall.whole (call : SharedCall ε σ) : EStateM ε σ Unit := call.run >>= Prog.run

inductive Thread (ε σ : Type) where
  | outside (moved : Bool) (rest : SharedCall ε σ)
  | inside (rest : Prog ε σ Unit)
  | finished
  | failed

namespace Thread

/-- The next step, if there is one, given whether the lock is free. -/
def next (free : Bool) (s : σ) : Thread ε σ → Option (Thread ε σ × σ)
  | outside _ (.done rest) => if free then some (inside rest, s) else none
  | outside _ (.fail _) => some (failed, s)
  | outside _ (.step act rest) => some (outside true (rest s), act s)
  | inside (.done _) => some (finished, s)
  | inside (.fail _) => some (failed, s)
  | inside (.step act rest) => some (inside (rest s), act s)
  | finished => none
  | failed => none

/-- Under way without the lock. -/
def bare : Thread ε σ → Bool
  | outside moved _ => moved
  | _ => false

/-- Under way with the lock. -/
def holds : Thread ε σ → Bool
  | inside _ => true
  | _ => false

/-- The step it takes next is one without the lock. -/
def stepsBare : Thread ε σ → Bool
  | outside _ (.step _ _) => true
  | outside _ (.fail _) => true
  | _ => false

/-- What is left to do. -/
def left : Thread ε σ → EStateM ε σ Unit
  | outside _ rest => rest.whole
  | inside rest => rest.run
  | finished => pure ()
  | failed => pure ()

end Thread

structure Conf (ε σ : Type) where
  state : σ
  threads : List (Thread ε σ)

namespace Conf

def free (c : Conf ε σ) : Bool := c.threads.all fun t => !t.holds

/-- The `i`-th call takes a step. -/
def go (c : Conf ε σ) (i : Nat) : Option (Conf ε σ) :=
  match c.threads[i]? with
  | none => none
  | some t => match t.next c.free c.state with
    | none => none
    | some (t', s) => some ⟨s, c.threads.set i t'⟩

/-- Calls that have not started. -/
def start (calls : List (SharedCall ε σ)) (s : σ) : Conf ε σ := ⟨s, calls.map (.outside false)⟩

/-- Every call went through. -/
def Over (c : Conf ε σ) : Prop := ∀ t ∈ c.threads, t = .finished

/-- When the `i`-th call takes a step, no other call is under way without the lock; and when
    that step is one without the lock, none is under way with it either. -/
def Apart (c : Conf ε σ) (i : Nat) : Prop := ∀ j < c.threads.length, j ≠ i →
  ∀ t ∈ c.threads[i]?, ∀ u ∈ c.threads[j]?,
    u.bare = false ∧ (t.stepsBare = true → u.holds = false)

instance (c : Conf ε σ) (i : Nat) : Decidable (c.Apart i) :=
  inferInstanceAs (Decidable (∀ j < c.threads.length, j ≠ i → _))

end Conf

/-- Calls one after the other, each of which goes through. -/
def serial (calls : List (SharedCall ε σ)) : List Nat → σ → Option σ
  | [], s => some s
  | i :: is, s => match calls[i]? with
    | none => none
    | some call => match call.whole s with
      | .ok _ s' => serial calls is s'
      | .error _ _ => none

theorem serial_concat {calls : List (SharedCall ε σ)} {is : List Nat} {i : Nat} {s s' s'' : σ}
    {call : SharedCall ε σ} (hs : serial calls is s = some s') (hcall : calls[i]? = some call)
    (hwhole : call.whole s' = .ok () s'') : serial calls (is ++ [i]) s = some s'' := by
  induction is generalizing s with
  | nil =>
    cases hs
    simp [serial, hcall, hwhole]
  | cons j is ih =>
    rw [serial] at hs
    rw [List.cons_append, serial]
    cases hj : calls[j]? with
    | none => rw [hj] at hs; cases hs
    | some other =>
      rw [hj] at hs
      dsimp only at hs ⊢
      cases hother : other.whole s with
      | error e t => rw [hother] at hs; cases hs
      | ok a t =>
        rw [hother] at hs
        exact ih hs

/-! ## One after the other -/

section Serial

variable {calls : List (SharedCall ε σ)} {s₀ : σ}

/-- Some calls have finished, in an order; one may be under way, and what it has left leads to
    where it leads from the state they left; the others have not started. -/
structure InOrder (calls : List (SharedCall ε σ)) (s₀ : σ) (c : Conf ε σ) (order : List Nat)
    (s : σ) (current : Option Nat) : Prop where
  length : c.threads.length = calls.length
  nodup : order.Nodup
  finished : ∀ i, i ∈ order ↔ c.threads[i]? = some .finished
  reached : serial calls order s₀ = some s
  idle : current = none → c.state = s
  under : ∀ i ∈ current, ∃ t call, c.threads[i]? = some t ∧ calls[i]? = some call ∧
    (t.bare = true ∨ t.holds = true) ∧ t.left c.state = call.whole s
  others : ∀ i t, c.threads[i]? = some t → i ∉ current →
    t = .finished ∨ ∃ call, calls[i]? = some call ∧ t = .outside false call

/-- What is left is left, step by step. -/
theorem left_of_next {free : Bool} {s s' : σ} {t t' : Thread ε σ}
    (h : t.next free s = some (t', s')) (hf : t' ≠ .failed) : t.left s = t'.left s' := by
  cases t with
  | outside moved rest =>
    cases rest with
    | done q =>
      simp only [Thread.next] at h
      split at h
      · cases h
        rfl
      · cases h
    | fail e =>
      cases h
      exact absurd rfl hf
    | step act rest =>
      cases h
      rfl
  | inside rest =>
    cases rest with
    | done a => cases h; rfl
    | fail e =>
      cases h
      exact absurd rfl hf
    | step act rest => cases h; rfl
  | finished => cases h
  | failed => cases h

/-- After a step a call is under way, or over. -/
theorem under_of_next {free : Bool} {s s' : σ} {t t' : Thread ε σ}
    (h : t.next free s = some (t', s')) :
    t' = .failed ∨ (t' = .finished ∧ s' = s ∧ t.holds = true) ∨ t'.bare = true ∨ t'.holds = true := by
  cases t with
  | outside moved rest =>
    cases rest with
    | done q =>
      simp only [Thread.next] at h
      split at h
      · cases h
        exact Or.inr (Or.inr (Or.inr rfl))
      · cases h
    | fail e => cases h; exact Or.inl rfl
    | step act rest => cases h; exact Or.inr (Or.inr (Or.inl rfl))
  | inside rest =>
    cases rest with
    | done a => cases h; exact Or.inr (Or.inl ⟨rfl, rfl, rfl⟩)
    | fail e => cases h; exact Or.inl rfl
    | step act rest => cases h; exact Or.inr (Or.inr (Or.inr rfl))
  | finished => cases h
  | failed => cases h

/-- A call that takes a step holds the lock, or takes it while it is free, or is without it. -/
theorem lock_of_next {free : Bool} {s s' : σ} {t t' : Thread ε σ}
    (h : t.next free s = some (t', s')) : free = true ∨ t.stepsBare = true ∨ t.holds = true := by
  cases t with
  | outside moved rest =>
    cases rest with
    | done q =>
      simp only [Thread.next] at h
      split at h
      · rename_i hfree
        exact Or.inl hfree
      · cases h
    | fail e => exact Or.inr (Or.inl rfl)
    | step act rest => exact Or.inr (Or.inl rfl)
  | inside rest => exact Or.inr (Or.inr rfl)
  | finished => cases h
  | failed => cases h

/-- A call that takes a step is the one that is under way, if one is. -/
theorem InOrder.alone {c : Conf ε σ} {order : List Nat} {s : σ} {current : Option Nat}
    (h : InOrder calls s₀ c order s current) {i j : Nat} {t t' : Thread ε σ} {s' : σ}
    (ht : c.threads[i]? = some t) (hapart : c.Apart i) (hnext : t.next c.free c.state = some (t', s'))
    (hj : j ∈ current) : j = i := by
  by_contra hne
  obtain ⟨u, call, hu, -, hunder, -⟩ := h.under j hj
  have hlt : j < c.threads.length := (List.getElem?_eq_some_iff.mp hu).1
  obtain ⟨hbare, hholds⟩ := hapart j hlt hne t ht u hu
  rcases hunder with hub | huh
  · rw [hub] at hbare
    cases hbare
  · rcases lock_of_next hnext with hfree | hsteps | hti
    · rw [Conf.free, List.all_eq_true] at hfree
      have := hfree u (List.mem_of_getElem? hu)
      rw [huh] at this
      cases this
    · rw [hholds hsteps] at huh
      cases huh
    · -- the call that takes the step is under way, and so the one that is
      rcases h.others i t ht (fun hi => hne (Option.mem_unique hj hi)) with rfl | ⟨_, -, rfl⟩
      · cases hti
      · cases hti

/-- **A step keeps the order**, or a call has failed. -/
theorem InOrder.go {c c' : Conf ε σ} {order : List Nat} {s : σ} {current : Option Nat}
    (h : InOrder calls s₀ c order s current) {i : Nat} (hapart : c.Apart i) (hgo : c.go i = some c') :
    Thread.failed ∈ c'.threads ∨ ∃ order s current, InOrder calls s₀ c' order s current := by
  unfold Conf.go at hgo
  split at hgo
  · cases hgo
  rename_i t ht
  split at hgo
  · cases hgo
  rename_i t' s' hnext
  cases hgo
  have hi : i < c.threads.length := (List.getElem?_eq_some_iff.mp ht).1
  have hself : (c.threads.set i t')[i]? = some t' := by
    rw [List.getElem?_set_self hi]
  have hother {j : Nat} (hj : j ≠ i) : (c.threads.set i t')[j]? = c.threads[j]? :=
    List.getElem?_set_ne (Ne.symm hj)
  by_cases hfailed : t' = .failed
  · exact Or.inl (hfailed ▸ List.mem_of_getElem? hself)
  refine Or.inr ?_
  have hleft := left_of_next hnext hfailed
  have halone {j : Nat} (hj : j ∈ current) : j = i := h.alone ht hapart hnext hj
  have hnotfinished : t ≠ .finished := by
    rintro rfl
    cases hnext
  -- the call, and what it has left
  obtain ⟨call, hcall, hwhole⟩ : ∃ call, calls[i]? = some call ∧ t.left c.state = call.whole s := by
    by_cases hcurrent : i ∈ current
    · obtain ⟨u, call, hu, hcall, -, hrest⟩ := h.under i hcurrent
      rw [ht] at hu
      cases hu
      exact ⟨call, hcall, hrest⟩
    · have hnone : current = none := by
        cases hc : current with
        | none => rfl
        | some j =>
          have := halone (j := j) (by rw [hc]; rfl)
          rw [hc, this] at hcurrent
          exact absurd rfl hcurrent
      rcases h.others i t ht hcurrent with hfinished | ⟨call, hcall, rfl⟩
      · exact absurd hfinished hnotfinished
      · exact ⟨call, hcall, by rw [h.idle hnone]; rfl⟩
  have hothers {j : Nat} {u : Thread ε σ} (hj : j ≠ i) (hu : (c.threads.set i t')[j]? = some u) :
      u = .finished ∨ ∃ call, calls[j]? = some call ∧ u = .outside false call := by
    rw [hother hj] at hu
    exact h.others j u hu fun hmem => hj (halone hmem)
  have hlength : (c.threads.set i t').length = calls.length := by rw [List.length_set, h.length]
  rcases under_of_next hnext with hfail | ⟨hfinish, -, -⟩ | hunder
  · exact absurd hfail hfailed
  · -- it is over, and the last in the order
    subst hfinish
    refine ⟨order ++ [i], s', none, hlength, ?_, fun j => ?_, ?_, fun _ => rfl, ?_, ?_⟩
    · refine List.nodup_append.mpr ⟨h.nodup, List.nodup_singleton i, fun j hj k hk => ?_⟩
      rw [List.mem_singleton] at hk
      rintro rfl
      rw [hk, h.finished, ht] at hj
      exact hnotfinished (Option.some.inj hj)
    · by_cases hj : j = i
      · subst hj
        simp [hself]
      · rw [hother hj, ← h.finished]
        simp [hj]
    · exact serial_concat h.reached hcall (hwhole.symm.trans hleft)
    · rintro j ⟨⟩
    · intro j u hu _
      by_cases hj : j = i
      · subst hj
        rw [hself] at hu
        exact Or.inl (Option.some.inj hu).symm
      · exact hothers hj hu
  · -- it is under way
    have hne : t' ≠ .finished := by
      rintro rfl
      rcases hunder with hunder | hunder <;> cases hunder
    refine ⟨order, s, some i, hlength, h.nodup, fun j => ?_, h.reached, nofun,
      fun j hj => ?_, fun j u hu hj => ?_⟩
    · by_cases hj : j = i
      · subst hj
        rw [hself, h.finished, ht]
        simp [hne, hnotfinished]
      · rw [hother hj, h.finished]
    · cases hj
      exact ⟨t', call, hself, hcall, hunder, hleft.symm.trans hwhole⟩
    · exact hothers (fun heq => hj (heq ▸ rfl)) hu

/-- A call that failed stays so. -/
theorem failed_of_go {c c' : Conf ε σ} {i : Nat} (hgo : c.go i = some c')
    (hfailed : Thread.failed ∈ c.threads) : Thread.failed ∈ c'.threads := by
  unfold Conf.go at hgo
  split at hgo
  · cases hgo
  rename_i t ht
  split at hgo
  · cases hgo
  rename_i t' s' hnext
  cases hgo
  obtain ⟨j, hj⟩ := List.mem_iff_getElem?.mp hfailed
  have hne : j ≠ i := by
    rintro rfl
    rw [ht] at hj
    cases hj
    cases hnext
  exact List.mem_of_getElem? ((List.getElem?_set_ne (Ne.symm hne)).trans hj)

theorem inOrder_start (calls : List (SharedCall ε σ)) (s₀ : σ) :
    InOrder calls s₀ (.start calls s₀) [] s₀ none := by
  refine ⟨by simp [Conf.start], List.nodup_nil, fun i => ?_, rfl, fun _ => rfl, ?_, fun i t ht _ => ?_⟩
  · simp [Conf.start]
  · rintro i ⟨⟩
  · rw [Conf.start, List.getElem?_map, Option.map_eq_some_iff] at ht
    obtain ⟨call, hcall, rfl⟩ := ht
    exact Or.inr ⟨call, hcall, rfl⟩

/-- A call has failed, or the calls are in an order. -/
def FailedOrOrdered (calls : List (SharedCall ε σ)) (s₀ : σ) (c : Conf ε σ) : Prop :=
  Thread.failed ∈ c.threads ∨ ∃ order s current, InOrder calls s₀ c order s current

theorem FailedOrOrdered.go {c c' : Conf ε σ} {i : Nat} (h : FailedOrOrdered calls s₀ c)
    (hapart : c.Apart i) (hgo : c.go i = some c') : FailedOrOrdered calls s₀ c' := by
  rcases h with hfailed | ⟨order, s, current, hc⟩
  · exact Or.inl (failed_of_go hgo hfailed)
  · exact hc.go hapart hgo

/-- **Calls that keep apart are serializable**: when all of them went through, they led where
    they lead one after the other, in some order. -/
theorem serializable {calls : List (SharedCall ε σ)} {s₀ : σ} {is : List Nat} {c : Conf ε σ}
    (hapart : Along Conf.go Conf.Apart (.start calls s₀) is)
    (hrun : Lib.run Conf.go (.start calls s₀) is = some c) (hover : c.Over) :
    ∃ order, order.Perm (List.range calls.length) ∧ serial calls order s₀ = some c.state := by
  have hinv : FailedOrOrdered calls s₀ c :=
    run_inv_along (fun _ _ _ hc hi hgo => hc.go hi hgo)
      (Or.inr ⟨_, _, _, inOrder_start calls s₀⟩) hapart hrun
  rcases hinv with hfailed | ⟨order, s, current, hc⟩
  · cases hover _ hfailed
  · have hfinished {i : Nat} {t : Thread ε σ} (ht : c.threads[i]? = some t) : t = .finished :=
      hover t (List.mem_of_getElem? ht)
    have hnone : current = none := by
      cases hcurrent : current with
      | none => rfl
      | some i =>
        obtain ⟨t, call, ht, -, hunder, -⟩ := hc.under i hcurrent
        rw [hfinished ht] at hunder
        rcases hunder with hunder | hunder <;> cases hunder
    refine ⟨order, ?_, by rw [hc.idle hnone]; exact hc.reached⟩
    refine (List.perm_ext_iff_of_nodup hc.nodup List.nodup_range).mpr fun i => ?_
    rw [hc.finished, List.mem_range, ← hc.length]
    constructor
    · intro ht
      exact (List.getElem?_eq_some_iff.mp ht).1
    · intro hlt
      have ht := List.getElem?_eq_getElem hlt
      rw [ht, hfinished ht]

end Serial

/-! ## Calls that hold the lock all along -/

section Locked

/-- The call has no step without the lock to take or taken. -/
def Thread.Locked (t : Thread ε σ) : Prop := t.bare = false ∧ t.stepsBare = false

theorem locked_of_next {free : Bool} {s s' : σ} {t t' : Thread ε σ} (ht : t.Locked)
    (h : t.next free s = some (t', s')) : t'.Locked := by
  cases t with
  | outside moved rest =>
    cases rest with
    | done q =>
      simp only [Thread.next] at h
      split at h
      · cases h
        exact ⟨rfl, rfl⟩
      · cases h
    | fail e => cases ht.2
    | step act rest => cases ht.2
  | inside rest =>
    cases rest with
    | done a => cases h; exact ⟨rfl, rfl⟩
    | fail e => cases h; exact ⟨rfl, rfl⟩
    | step act rest => cases h; exact ⟨rfl, rfl⟩
  | finished => cases h
  | failed => cases h

theorem locked_of_go {c c' : Conf ε σ} {i : Nat} (hc : ∀ t ∈ c.threads, t.Locked)
    (hgo : c.go i = some c') : ∀ t ∈ c'.threads, t.Locked := by
  unfold Conf.go at hgo
  split at hgo
  · cases hgo
  rename_i t ht
  split at hgo
  · cases hgo
  rename_i t' s' hnext
  cases hgo
  intro u hu
  rcases List.mem_or_eq_of_mem_set hu with hu | rfl
  · exact hc u hu
  · exact locked_of_next (hc t (List.mem_of_getElem? ht)) hnext

theorem apart_of_locked {c : Conf ε σ} (hc : ∀ t ∈ c.threads, t.Locked) (i : Nat) : c.Apart i := by
  intro j _ _ t ht u hu
  refine ⟨(hc u (List.mem_of_getElem? hu)).1, fun hsteps => ?_⟩
  rw [(hc t (List.mem_of_getElem? ht)).2] at hsteps
  cases hsteps

/-- Calls that hold the lock all along keep apart, whatever the order of their steps. -/
theorem along_of_locked {c : Conf ε σ} (hc : ∀ t ∈ c.threads, t.Locked) (is : List Nat) :
    Along Conf.go Conf.Apart c is := by
  induction is generalizing c with
  | nil => trivial
  | cons i is ih =>
    refine ⟨apart_of_locked hc i, ?_⟩
    cases hgo : c.go i with
    | none => trivial
    | some c' => exact ih (locked_of_go hc hgo)

end Locked

end Infinito.Lib
