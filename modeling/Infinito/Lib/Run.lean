/-!
# Runs of a step function

A system is a step function `σ → α → Option σ`: the state after an action, or `none` when
the action cannot be taken there. `run` takes a list of actions in order.

Most invariants of a system hold of every run, and `run_inv` is their induction. Some hold
only of the runs whose steps avoid a defect: `Along ok` says that every step of a run is
taken in a state and with an action that satisfy `ok`, and `run_inv_along` is the same
induction with that much more to use.
-/

namespace Infinito.Lib

variable {σ α : Type}

def run (step : σ → α → Option σ) : σ → List α → Option σ
  | s, [] => some s
  | s, a :: as => match step s a with
    | none => none
    | some s' => run step s' as

/-- Every step of the run is taken where `ok` holds. -/
def Along (step : σ → α → Option σ) (ok : σ → α → Prop) : σ → List α → Prop
  | _, [] => True
  | s, a :: as => ok s a ∧ match step s a with
    | none => True
    | some s' => Along step ok s' as

instance Along.decidable (step : σ → α → Option σ) (ok : σ → α → Prop)
    [∀ s a, Decidable (ok s a)] : (s : σ) → (as : List α) → Decidable (Along step ok s as)
  | _, [] => isTrue trivial
  | s, a :: as =>
    match h : step s a with
    | none => decidable_of_iff (ok s a) (by simp [Along, h])
    | some s' =>
      have := Along.decidable step ok s' as
      decidable_of_iff (ok s a ∧ Along step ok s' as) (by simp [Along, h])

variable {step : σ → α → Option σ}

@[simp] theorem run_nil {s : σ} : run step s [] = some s := rfl

theorem run_cons_eq_some {s t : σ} {a : α} {as : List α} :
    run step s (a :: as) = some t ↔ ∃ s', step s a = some s' ∧ run step s' as = some t := by
  cases h : step s a with
  | none => simp [run, h]
  | some s' => simp [run, h]

theorem run_append_eq_some {s t : σ} {as bs : List α} :
    run step s (as ++ bs) = some t ↔ ∃ u, run step s as = some u ∧ run step u bs = some t := by
  induction as generalizing s with
  | nil => simp
  | cons a as ih =>
    rw [List.cons_append, run_cons_eq_some]
    constructor
    · rintro ⟨s', hs', hrest⟩
      obtain ⟨u, hu, ht⟩ := ih.mp hrest
      exact ⟨u, run_cons_eq_some.mpr ⟨s', hs', hu⟩, ht⟩
    · rintro ⟨u, hu, ht⟩
      obtain ⟨s', hs', hrest⟩ := run_cons_eq_some.mp hu
      exact ⟨s', hs', ih.mpr ⟨u, hrest, ht⟩⟩

theorem Along.cons {ok : σ → α → Prop} {s s' : σ} {a : α} {as : List α} (hs : step s a = some s')
    (h : Along step ok s (a :: as)) : ok s a ∧ Along step ok s' as := by
  unfold Along at h
  rw [hs] at h
  exact h

theorem Along.append_right {ok : σ → α → Prop} {s t : σ} {as bs : List α}
    (hrun : run step s as = some t) (h : Along step ok s (as ++ bs)) : Along step ok t bs := by
  induction as generalizing s with
  | nil =>
    rw [run_nil, Option.some.injEq] at hrun
    rwa [← hrun]
  | cons a as ih =>
    obtain ⟨s', hs', hrest⟩ := run_cons_eq_some.mp hrun
    exact ih hrest (h.cons hs').2

theorem Along.append_left {ok : σ → α → Prop} {s : σ} {as bs : List α}
    (h : Along step ok s (as ++ bs)) : Along step ok s as := by
  induction as generalizing s with
  | nil => trivial
  | cons a as ih =>
    refine ⟨h.1, ?_⟩
    cases hs : step s a with
    | none => trivial
    | some s' => exact ih (h.cons hs).2

/-- **The induction over a run.** -/
theorem run_inv_along {Inv : σ → Prop} {ok : σ → α → Prop}
    (hstep : ∀ s a s', Inv s → ok s a → step s a = some s' → Inv s')
    {s t : σ} {as : List α} (hs : Inv s) (hok : Along step ok s as)
    (hrun : run step s as = some t) : Inv t := by
  induction as generalizing s with
  | nil =>
    rw [run_nil, Option.some.injEq] at hrun
    rw [← hrun]
    exact hs
  | cons a as ih =>
    obtain ⟨s', hs', hrest⟩ := run_cons_eq_some.mp hrun
    obtain ⟨ha, has⟩ := hok.cons hs'
    exact ih (hstep s a s' hs ha hs') has hrest

/-- A run that goes along `ok` goes along whatever an invariant makes of it. -/
theorem Along.of_inv {Inv : σ → Prop} {ok ok' : σ → α → Prop}
    (hstep : ∀ s a s', Inv s → ok s a → step s a = some s' → Inv s')
    (hok : ∀ s a, Inv s → ok s a → ok' s a) {s : σ} {as : List α} (hs : Inv s)
    (h : Along step ok s as) : Along step ok' s as := by
  induction as generalizing s with
  | nil => trivial
  | cons a as ih =>
    refine ⟨hok s a hs h.1, ?_⟩
    cases hs' : step s a with
    | none => trivial
    | some s' =>
      obtain ⟨ha, has⟩ := h.cons hs'
      exact ih (hstep s a s' hs ha hs') has

theorem along_true {s : σ} {as : List α} : Along step (fun _ _ => True) s as := by
  induction as generalizing s with
  | nil => trivial
  | cons a as ih =>
    refine ⟨trivial, ?_⟩
    cases h : step s a with
    | none => trivial
    | some s' => exact ih

theorem run_inv {Inv : σ → Prop} (hstep : ∀ s a s', Inv s → step s a = some s' → Inv s')
    {s t : σ} {as : List α} (hs : Inv s) (hrun : run step s as = some t) : Inv t :=
  run_inv_along (fun s a s' h _ => hstep s a s' h) hs along_true hrun

/-- Where a step keeps `P` exactly if `ok` holds of it, the runs along `ok` are the ones that
    never leave `P`. -/
theorem along_iff {Inv P : σ → Prop} {ok : σ → α → Prop}
    (hinv : ∀ s a s', Inv s → step s a = some s' → Inv s')
    (hstep : ∀ s a s', Inv s → P s → step s a = some s' → (P s' ↔ ok s a))
    {s t : σ} {as : List α} (hs : Inv s) (hp : P s) (hrun : run step s as = some t) :
    Along step ok s as ↔
      ∀ before after u, as = before ++ after → run step s before = some u → P u := by
  induction as generalizing s with
  | nil =>
    refine iff_of_true trivial fun before after u heq hu => ?_
    obtain ⟨rfl, -⟩ := List.append_eq_nil_iff.mp heq.symm
    rw [run_nil, Option.some.injEq] at hu
    rw [← hu]
    exact hp
  | cons a as ih =>
    obtain ⟨s', hs', hrest⟩ := run_cons_eq_some.mp hrun
    have hi := hinv s a s' hs hs'
    have hiff := hstep s a s' hs hp hs'
    constructor
    · intro hok before after u heq hu
      obtain ⟨ha, has⟩ := hok.cons hs'
      cases before with
      | nil =>
        rw [run_nil, Option.some.injEq] at hu
        rw [← hu]
        exact hp
      | cons b before =>
        rw [List.cons_append, List.cons.injEq] at heq
        obtain ⟨rfl, heq⟩ := heq
        obtain ⟨s'', hs'', hu⟩ := run_cons_eq_some.mp hu
        rw [hs'] at hs''
        cases hs''
        exact (ih hi (hiff.mpr ha) hrest).mp has before after u heq hu
    · intro hall
      have hp' : P s' := hall [a] as s' rfl (run_cons_eq_some.mpr ⟨s', hs', rfl⟩)
      refine ⟨hiff.mp hp', ?_⟩
      rw [hs']
      refine (ih hi hp' hrest).mpr fun before after u heq hu => ?_
      exact hall (a :: before) after u (by rw [heq]; rfl) (run_cons_eq_some.mpr ⟨s', hs', hu⟩)

/-! ## Other names for the actions -/

section Named

variable {β : Type} {f : β → α} {ok : σ → α → Prop}

theorem run_map {s : σ} {bs : List β} :
    run (fun s b => step s (f b)) s bs = run step s (bs.map f) := by
  induction bs generalizing s with
  | nil => rfl
  | cons b bs ih =>
    rw [List.map_cons, run, run]
    cases step s (f b) with
    | none => rfl
    | some s' => exact ih

theorem along_map {s : σ} {bs : List β} :
    Along (fun s b => step s (f b)) (fun s b => ok s (f b)) s bs ↔
      Along step ok s (bs.map f) := by
  induction bs generalizing s with
  | nil => rfl
  | cons b bs ih =>
    rw [List.map_cons, Along, Along]
    refine and_congr_right fun _ => ?_
    cases step s (f b) with
    | none => rfl
    | some s' => exact ih

end Named

/-! ## Systems side by side -/

section Family

variable {ι : Type} [DecidableEq ι] {key : α → ι} {ok : σ → α → Prop} {d d' : ι → σ} {as : List α}

/-- A step of the one of many systems that the action is for. -/
def familyStep (step : σ → α → Option σ) (key : α → ι) (d : ι → σ) (a : α) : Option (ι → σ) :=
  (step (d (key a)) a).map fun s i => if i = key a then s else d i

theorem familyStep_eq_some {a : α} :
    familyStep step key d a = some d' ↔
      ∃ s, step (d (key a)) a = some s ∧ d' = fun i => if i = key a then s else d i := by
  unfold familyStep
  rw [Option.map_eq_some_iff]
  exact exists_congr fun s => and_congr_right fun _ => eq_comm

/-- A run of all is a run of each, with the actions that are for it. -/
theorem run_family (hrun : run (familyStep step key) d as = some d') (i : ι) :
    run step (d i) (as.filter fun a => key a = i) = some (d' i) := by
  induction as generalizing d with
  | nil =>
    cases hrun
    rfl
  | cons a as ih =>
    obtain ⟨d₁, hstep, hrest⟩ := run_cons_eq_some.mp hrun
    obtain ⟨s, hs, rfl⟩ := familyStep_eq_some.mp hstep
    have hrest := ih hrest
    by_cases hi : key a = i
    · rw [List.filter_cons_of_pos (by simpa using hi), ← hi]
      refine run_cons_eq_some.mpr ⟨s, hs, ?_⟩
      rw [if_pos hi.symm] at hrest
      rwa [hi]
    · rw [List.filter_cons_of_neg (by simpa using hi)]
      rwa [if_neg (Ne.symm hi)] at hrest

theorem along_family (hrun : run (familyStep step key) d as = some d')
    (hok : Along (familyStep step key) (fun d a => ok (d (key a)) a) d as) (i : ι) :
    Along step ok (d i) (as.filter fun a => key a = i) := by
  induction as generalizing d with
  | nil => trivial
  | cons a as ih =>
    obtain ⟨d₁, hstep, hrest⟩ := run_cons_eq_some.mp hrun
    obtain ⟨ha, has⟩ := hok.cons hstep
    obtain ⟨s, hs, rfl⟩ := familyStep_eq_some.mp hstep
    have hrest := ih hrest has
    by_cases hi : key a = i
    · rw [List.filter_cons_of_pos (by simpa using hi), ← hi]
      refine ⟨ha, ?_⟩
      rw [hs]
      rw [if_pos hi.symm] at hrest
      rwa [hi]
    · rw [List.filter_cons_of_neg (by simpa using hi)]
      rwa [if_neg (Ne.symm hi)] at hrest

end Family

/-! ## Systems that answer -/

section Replies

variable {τ β : Type}

/-- The answers to a list of calls, and the state after them. -/
def replies (serve : σ → α → β × σ) : σ → List α → List β × σ
  | s, [] => ([], s)
  | s, a :: as =>
    let rest := replies serve (serve s a).2 as
    ((serve s a).1 :: rest.1, rest.2)

/-- **A system answers as another does** where a relation of their states, that may look at the calls
    still to come, is kept by calls that are answered alike. -/
theorem replies_refined {serve : σ → α → β × σ} {spec : τ → α → β × τ}
    {R : σ → τ → List α → Prop}
    (hstep : ∀ s t a as, R s t (a :: as) →
      (serve s a).1 = (spec t a).1 ∧ R (serve s a).2 (spec t a).2 as)
    {s : σ} {t : τ} {as : List α} (h : R s t as) :
    (replies serve s as).1 = (replies spec t as).1 ∧
      R (replies serve s as).2 (replies spec t as).2 [] := by
  induction as generalizing s t with
  | nil => exact ⟨rfl, h⟩
  | cons a as ih =>
    obtain ⟨hanswer, hrest⟩ := hstep s t a as h
    obtain ⟨hanswers, hend⟩ := ih hrest
    unfold replies
    exact ⟨List.cons_eq_cons.mpr ⟨hanswer, hanswers⟩, hend⟩

end Replies

end Infinito.Lib
