import Infinito.Lib.Run

/-!
# A value that callers load, change and store

Several callers share one value — a file, here — and each of them loads it whole, works
out what to write, and stores that whole. Between its load and its store a caller has a
*window* open, and any number of windows may be open at once, except that callers which
take the lock exclude each other.

A store is *fresh* when the value is still the one its window loaded. If every store is
fresh, the stores form a `Chain`: each loaded what the one before it wrote, so the value is
what the calls produce when made one after the other, in the order of their stores
(`Chain.replay`). A call without the lock gets no help: its store is fresh only if nobody
else stored meanwhile. A call with the lock cannot be overtaken by another lock holder, so
all that has to be asked for it is that no call *without* the lock stores inside its
window. `Orderly` is that condition, read off the state before each store, and
`chain_of_orderly` is the theorem.
-/

namespace Infinito.Lib.Register

open Infinito.Lib

variable {σ Op : Type}

/-- What a kind of call does: what it writes when it finds a value (`none` if it stores
    nothing), and whether it holds the lock from its load to its store. -/
structure Calls (σ Op : Type) where
  writes : σ → Op → Option σ
  locks : Op → Bool

/-- A call between its load and its store. -/
structure Window (σ Op : Type) where
  op : Op
  loaded : σ
  written : σ
  deriving DecidableEq

/-- `stored` is the history: the windows that were stored, oldest first. -/
structure State (σ Op : Type) where
  value : σ
  windows : List (Nat × Window σ Op)
  holder : Option Nat
  stored : List (Window σ Op)

inductive Act (Op : Type) where
  | load (call : Nat) (op : Op)
  | store (call : Nat)

def State.init (v : σ) : State σ Op := ⟨v, [], none, []⟩

/-- A call that stores nothing is over once it has loaded, and gives the lock back. A call
    that wants a lock somebody holds cannot load yet. -/
def step (calls : Calls σ Op) (s : State σ Op) : Act Op → Option (State σ Op)
  | .load call op =>
      if s.windows.lookup call ≠ none then none
      else if calls.locks op ∧ s.holder ≠ none then none
      else match calls.writes s.value op with
        | none => some s
        | some v => some { s with
            windows := (call, ⟨op, s.value, v⟩) :: s.windows
            holder := if calls.locks op then some call else s.holder }
  | .store call =>
      match s.windows.lookup call with
      | none => none
      | some w => some
          { value := w.written
            windows := s.windows.filter (fun e => e.1 ≠ call)
            holder := if calls.locks w.op then none else s.holder
            stored := s.stored ++ [w] }

/-- A call without the lock stores only over the value it loaded, and not while a lock
    holder is between its load and its store. -/
def Orderly (calls : Calls σ Op) (s : State σ Op) : Act Op → Prop
  | .load _ _ => True
  | .store call => ∀ w, s.windows.lookup call = some w → calls.locks w.op = false →
      s.value = w.loaded ∧ s.holder = none

instance [DecidableEq σ] (calls : Calls σ Op) (s : State σ Op) :
    (a : Act Op) → Decidable (Orderly calls s a)
  | .load _ _ => isTrue trivial
  | .store call =>
    match h : s.windows.lookup call with
    | none => isTrue (by intro w hw _; rw [h] at hw; cases hw)
    | some w =>
      decidable_of_iff (calls.locks w.op = false → s.value = w.loaded ∧ s.holder = none)
        (by simp [Orderly, h])

/-! ## Chains -/

/-- Stores of which each loaded what the one before it wrote. -/
inductive Chain (calls : Calls σ Op) : σ → List (Window σ Op) → σ → Prop where
  | nil (v : σ) : Chain calls v [] v
  | cons {w : Window σ Op} {ws : List (Window σ Op)} {v : σ}
      (written : calls.writes w.loaded w.op = some w.written) (rest : Chain calls w.written ws v) :
      Chain calls w.loaded (w :: ws) v

variable {calls : Calls σ Op}

theorem Chain.append {v v' v'' : σ} {ws ws' : List (Window σ Op)} (h : Chain calls v ws v')
    (h' : Chain calls v' ws' v'') : Chain calls v (ws ++ ws') v'' := by
  induction h with
  | nil v => exact h'
  | cons written _ ih => exact .cons written (ih h')

theorem Chain.split {v v'' : σ} {ws ws' : List (Window σ Op)}
    (h : Chain calls v (ws ++ ws') v'') :
    ∃ v', Chain calls v ws v' ∧ Chain calls v' ws' v'' := by
  induction ws generalizing v with
  | nil => exact ⟨v, .nil v, h⟩
  | cons w ws ih =>
    cases h with
    | cons written rest =>
      obtain ⟨v', h₁, h₂⟩ := ih rest
      exact ⟨v', .cons written h₁, h₂⟩

/-- **A chain is a sequential run**: made one after the other from the first value, the
    calls are all accepted and leave the last value. -/
theorem Chain.replay {v v' : σ} {ws : List (Window σ Op)} (h : Chain calls v ws v') :
    (ws.map (·.op)).foldlM calls.writes v = some v' := by
  induction h with
  | nil v => rfl
  | cons written _ ih =>
    rw [List.map_cons, List.foldlM_cons, written]
    exact ih

/-- What holds of the value and is kept by every store but the exceptional ones holds at
    the end, or an exceptional store was made. -/
theorem Chain.until {P : σ → Prop} {Q : Window σ Op → Prop}
    (hstep : ∀ w : Window σ Op, calls.writes w.loaded w.op = some w.written → P w.loaded →
      P w.written ∨ Q w)
    {v v' : σ} {ws : List (Window σ Op)} (h : Chain calls v ws v') (hP : P v) :
    P v' ∨ ∃ w ∈ ws, Q w := by
  induction h with
  | nil v => exact Or.inl hP
  | @cons w ws v written _ ih =>
    rcases hstep w written hP with hw | hq
    · rcases ih hw with hv | ⟨w', hw', hq⟩
      · exact Or.inl hv
      · exact Or.inr ⟨w', List.mem_cons_of_mem _ hw', hq⟩
    · exact Or.inr ⟨w, List.mem_cons_self, hq⟩

/-- A property kept by every store holds throughout a chain. -/
theorem Chain.inv {P : σ → Prop}
    (hstep : ∀ v op v', calls.writes v op = some v' → P v → P v')
    {v v' : σ} {ws : List (Window σ Op)} (h : Chain calls v ws v') (hP : P v) : P v' := by
  induction h with
  | nil v => exact hP
  | cons written _ ih => exact ih (hstep _ _ _ written hP)

/-- Each of the stores of a chain writes what its call makes of what it loaded. -/
theorem Chain.writes_of_mem {v v' : σ} {ws : List (Window σ Op)} (h : Chain calls v ws v')
    {w : Window σ Op} (hw : w ∈ ws) : calls.writes w.loaded w.op = some w.written := by
  induction h with
  | nil v => cases hw
  | cons written _ ih =>
    cases hw with
    | head => exact written
    | tail _ hw => exact ih hw

/-! ## Orderly runs make chains -/

/-- What an orderly run keeps. The last two clauses are the lock: its holder has a window
    open, over the value as it stands, and nobody else with a lock has one. -/
structure Ordered (calls : Calls σ Op) (init : σ) (s : State σ Op) : Prop where
  chain : Chain calls init s.stored s.value
  written : ∀ c w, s.windows.lookup c = some w → calls.writes w.loaded w.op = some w.written
  held : ∀ c, s.holder = some c → ∃ w, s.windows.lookup c = some w ∧ w.loaded = s.value
  only_holder : ∀ c w, s.windows.lookup c = some w → calls.locks w.op = true → s.holder = some c

theorem lookup_filter_ne {β : Type} {l : List (Nat × β)} {c d : Nat} (h : d ≠ c) :
    (l.filter (fun e => e.1 ≠ c)).lookup d = l.lookup d := by
  induction l with
  | nil => rfl
  | cons e l ih =>
    obtain ⟨k, b⟩ := e
    by_cases hk : k = c
    · have hdk : (d == k) = false := by simpa [hk] using h
      rw [List.filter_cons_of_neg (by simp [hk]), List.lookup_cons, hdk]
      exact ih
    · rw [List.filter_cons_of_pos (by simp [hk]), List.lookup_cons, List.lookup_cons, ih]

theorem lookup_filter_self {β : Type} (l : List (Nat × β)) (c : Nat) :
    (l.filter (fun e => e.1 ≠ c)).lookup c = none := by
  induction l with
  | nil => rfl
  | cons e l ih =>
    obtain ⟨k, b⟩ := e
    by_cases hk : k = c
    · rw [List.filter_cons_of_neg (by simp [hk])]
      exact ih
    · have hck : (c == k) = false := by simpa using fun h : c = k => hk h.symm
      rw [List.filter_cons_of_pos (by simp [hk]), List.lookup_cons, hck]
      exact ih

/-- A window still open after a store is another one than the stored one. -/
theorem lookup_of_lookup_filter {β : Type} {l : List (Nat × β)} {c d : Nat} {b : β}
    (h : (l.filter (fun e => e.1 ≠ c)).lookup d = some b) : d ≠ c ∧ l.lookup d = some b := by
  have hne : d ≠ c := by
    intro hd
    rw [hd, lookup_filter_self] at h
    cases h
  exact ⟨hne, by rw [← lookup_filter_ne hne]; exact h⟩

/-- What a store does to the value. -/
theorem step_store {s s' : State σ Op} {c : Nat} (h : step calls s (.store c) = some s') :
    ∃ w, s.windows.lookup c = some w ∧ s'.value = w.written ∧ s'.stored = s.stored ++ [w] ∧
      s'.windows = s.windows.filter (fun e => e.1 ≠ c) := by
  simp only [step] at h
  split at h
  · cases h
  · rename_i w hw
    cases h
    exact ⟨w, hw, rfl, rfl, rfl⟩

/-- A load leaves the value, and opens a window over it if any. -/
theorem step_load {s s' : State σ Op} {c : Nat} {op : Op}
    (h : step calls s (.load c op) = some s') :
    s'.value = s.value ∧ s'.stored = s.stored ∧ (s'.windows = s.windows ∨
      ∃ v, calls.writes s.value op = some v ∧ s'.windows = (c, ⟨op, s.value, v⟩) :: s.windows) := by
  simp only [step] at h
  split at h
  · cases h
  · split at h
    · cases h
    · split at h
      · cases h
        exact ⟨rfl, rfl, Or.inl rfl⟩
      · rename_i v hv
        cases h
        exact ⟨rfl, rfl, Or.inr ⟨v, hv, rfl⟩⟩

/-- Every open window will store what its call makes of what it loaded. -/
def Open (calls : Calls σ Op) (s : State σ Op) : Prop :=
  ∀ c w, s.windows.lookup c = some w → calls.writes w.loaded w.op = some w.written

theorem open_init (v : σ) : Open calls (State.init v) := by
  intro c w h
  cases h

theorem Open.step {s s' : State σ Op} {a : Act Op} (hs : Open calls s)
    (h : step calls s a = some s') : Open calls s' := by
  cases a with
  | load c op =>
    obtain ⟨-, -, hwindows | ⟨v, hv, hwindows⟩⟩ := step_load h
    · intro d w hd
      rw [hwindows] at hd
      exact hs d w hd
    · intro d w hd
      rw [hwindows, List.lookup_cons] at hd
      split at hd
      · cases hd
        exact hv
      · exact hs d w hd
  | store c =>
    obtain ⟨w, -, -, -, hwindows⟩ := step_store h
    intro d w' hd
    rw [hwindows] at hd
    exact hs d w' (lookup_of_lookup_filter hd).2

/-- The calls that have been stored are among those that were loaded. -/
theorem ops_of_loads {P : Op → Prop} {v : σ} {acts : List (Act Op)} {s : State σ Op}
    (hacts : ∀ c op, Act.load c op ∈ acts → P op)
    (hrun : run (step calls) (State.init v) acts = some s) : ∀ w ∈ s.stored, P w.op := by
  have hinv : ∀ {s s' : State σ Op} {acts : List (Act Op)},
      (∀ c w, s.windows.lookup c = some w → P w.op) → (∀ w ∈ s.stored, P w.op) →
      (∀ c op, Act.load c op ∈ acts → P op) → run (step calls) s acts = some s' →
      ∀ w ∈ s'.stored, P w.op := by
    intro s s' acts
    induction acts generalizing s with
    | nil =>
      intro _ hstored _ hrun
      cases hrun
      exact hstored
    | cons a acts ih =>
      intro hwindows hstored hacts hrun
      obtain ⟨s₁, hstep, hrest⟩ := run_cons_eq_some.mp hrun
      have hacts' : ∀ c op, Act.load c op ∈ acts → P op := fun c op hmem =>
        hacts c op (List.mem_cons_of_mem _ hmem)
      cases a with
      | load c op =>
        obtain ⟨-, hsame, hopen⟩ := step_load hstep
        refine ih ?_ (hsame ▸ hstored) hacts' hrest
        obtain hwin | ⟨v, -, hwin⟩ := hopen
        · rw [hwin]
          exact hwindows
        · intro d w hd
          rw [hwin, List.lookup_cons] at hd
          split at hd
          · cases hd
            exact hacts c op List.mem_cons_self
          · exact hwindows d w hd
      | store c =>
        obtain ⟨w, hw, -, hnew, hwin⟩ := step_store hstep
        refine ih ?_ ?_ hacts' hrest
        · intro d w' hd
          rw [hwin] at hd
          exact hwindows d w' (lookup_of_lookup_filter hd).2
        · intro w' hw'
          rw [hnew, List.mem_append, List.mem_singleton] at hw'
          obtain hw' | rfl := hw'
          · exact hstored w' hw'
          · exact hwindows c w' hw
  exact hinv (fun c w h => by cases h) (fun w hw => by cases hw) hacts hrun

theorem Ordered.load {init : σ} {s s' : State σ Op} {c : Nat} {op : Op}
    (hs : Ordered calls init s) (h : step calls s (.load c op) = some s') :
    Ordered calls init s' := by
  simp only [step] at h
  split at h
  · cases h
  rename_i hfresh
  split at h
  · cases h
  rename_i hfree
  split at h
  · rw [← Option.some.inj h]; exact hs
  rename_i v hv
  rw [← Option.some.inj h]
  -- the new window is found under its own name, and hides no other
  have hself : ∀ d w, ((c, ⟨op, s.value, v⟩) :: s.windows).lookup d = some w →
      (d = c ∧ w = ⟨op, s.value, v⟩) ∨ (d ≠ c ∧ s.windows.lookup d = some w) := by
    intro d w hd
    rw [List.lookup_cons] at hd
    by_cases hdc : d = c
    · rw [hdc, beq_self_eq_true] at hd
      exact Or.inl ⟨hdc, (Option.some.inj hd).symm⟩
    · rw [show (d == c) = false by simpa using hdc] at hd
      exact Or.inr ⟨hdc, hd⟩
  refine ⟨hs.chain, ?_, ?_, ?_⟩
  · intro d w hd
    rcases hself d w hd with ⟨-, rfl⟩ | ⟨-, hd⟩
    · exact hv
    · exact hs.written d w hd
  · intro d hd
    dsimp only at hd ⊢
    split at hd
    · obtain rfl : c = d := Option.some.inj hd
      exact ⟨⟨op, s.value, v⟩, by simp, rfl⟩
    · obtain ⟨w, hw, hl⟩ := hs.held d hd
      have hdc : d ≠ c := by
        intro hdc
        rw [hdc] at hw
        exact hfresh (by rw [hw]; simp)
      refine ⟨w, ?_, hl⟩
      rw [List.lookup_cons, show (d == c) = false by simpa using hdc]
      exact hw
  · intro d w hd hlock
    dsimp only
    rcases hself d w hd with ⟨rfl, rfl⟩ | ⟨-, hd⟩
    · exact if_pos hlock
    · have hholder := hs.only_holder d w hd hlock
      by_cases hop : calls.locks op = true
      · exact absurd ⟨hop, by rw [hholder]; simp⟩ hfree
      · rw [if_neg hop]; exact hholder

theorem Ordered.store {init : σ} {s s' : State σ Op} {c : Nat}
    (hs : Ordered calls init s) (hok : Orderly calls s (.store c))
    (h : step calls s (.store c) = some s') : Ordered calls init s' := by
  simp only [step] at h
  split at h
  · cases h
  rename_i w hw
  rw [← Option.some.inj h]
  have hwritten := hs.written c w hw
  -- the store is fresh: by the condition without the lock, by the lock with it
  have hloaded : w.loaded = s.value := by
    cases hlock : calls.locks w.op with
    | false => exact (hok w hw hlock).1.symm
    | true =>
      obtain ⟨w', hw', hl⟩ := hs.held c (hs.only_holder c w hw hlock)
      rw [hw] at hw'
      rw [Option.some.inj hw']
      exact hl
  refine ⟨?_, ?_, ?_, ?_⟩
  · refine hs.chain.append ?_
    rw [← hloaded]
    exact .cons hwritten (.nil _)
  · intro d w' hd
    exact hs.written d w' (lookup_of_lookup_filter hd).2
  · intro d hd
    dsimp only at hd
    split at hd
    · cases hd
    · rename_i hlock
      rw [(hok w hw (by simpa using hlock)).2] at hd
      cases hd
  · intro d w' hd hlock'
    obtain ⟨hdc, hd⟩ := lookup_of_lookup_filter hd
    have hd' := hs.only_holder d w' hd hlock'
    dsimp only
    split
    · rename_i hlock
      rw [hs.only_holder c w hw hlock] at hd'
      exact absurd (Option.some.inj hd').symm hdc
    · exact hd'

theorem Ordered.init (v : σ) : Ordered calls v (State.init v) where
  chain := .nil v
  written := by intro c w h; cases h
  held := by intro c h; cases h
  only_holder := by intro c w h; cases h

theorem Ordered.step {init : σ} {s s' : State σ Op} {a : Act Op} (hs : Ordered calls init s)
    (hok : Orderly calls s a) (h : step calls s a = some s') : Ordered calls init s' := by
  cases a with
  | load c op => exact hs.load h
  | store c => exact hs.store hok h

/-- **An orderly run loses nothing**: the stores made are a chain from the first value to
    the last. -/
theorem chain_of_orderly {v : σ} {acts : List (Act Op)} {s : State σ Op}
    (hok : Along (step calls) (Orderly calls) (State.init v) acts)
    (hrun : run (step calls) (State.init v) acts = some s) : Chain calls v s.stored s.value := by
  have hinv : Ordered calls v s :=
    run_inv_along (fun _ _ _ hs ha h => Ordered.step hs ha h) (Ordered.init v) hok hrun
  exact hinv.chain

end Infinito.Lib.Register
