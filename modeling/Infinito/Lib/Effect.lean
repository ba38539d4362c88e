import Mathlib.Order.Defs.Unbundled

/-!
# Programs that change a state and may raise

`EStateM ε σ` is a program that reads and changes a state and may raise, keeping the state
it raised in — which is what a service does that writes to disk and then fails. `wp` reads
a program as a predicate transformer with two exits, one for returning and one for raising.

What a program can do at all, however it ends, is a preorder on states: `Moves R m`. It
follows the program's structure (`Moves.bind`, `Moves.tryCatch`), so it is proved once for
the closure of the steps a program takes, and every invariant of those steps is then an
invariant of the program (`Keeps`).
-/

set_option autoImplicit false

namespace Infinito.Lib

variable {ε σ α β : Type}

/-- The state a program leaves, returning or raising. -/
def after (m : EStateM ε σ α) (s : σ) : σ :=
  match m s with
  | .ok _ t => t
  | .error _ t => t

/-- `m` from `s` returns into `Q` or raises into `E`. -/
def wp (m : EStateM ε σ α) (Q : α → σ → Prop) (E : ε → σ → Prop) (s : σ) : Prop :=
  match m s with
  | .ok a t => Q a t
  | .error e t => E e t

section Wp

variable {Q : β → σ → Prop} {E : ε → σ → Prop} {s : σ}

@[simp] theorem wp_pure {b : β} : wp (pure b : EStateM ε σ β) Q E s ↔ Q b s := Iff.rfl

@[simp] theorem wp_throw {e : ε} : wp (throw e : EStateM ε σ β) Q E s ↔ E e s := Iff.rfl

theorem wp_congr {m m' : EStateM ε σ β} (h : m s = m' s) : wp m Q E s ↔ wp m' Q E s := by
  unfold wp
  rw [h]

theorem wp_bind {m : EStateM ε σ α} {f : α → EStateM ε σ β} :
    wp (m >>= f) Q E s ↔ wp m (fun a => wp (f a) Q E) E s := by
  show (match EStateM.bind m f s with | .ok a t => _ | .error e t => _) ↔ _
  unfold wp EStateM.bind
  cases m s <;> exact Iff.rfl

theorem wp_tryCatch {m : EStateM ε σ β} {handle : ε → EStateM ε σ β} :
    wp (tryCatch m handle) Q E s ↔ wp m Q (fun e => wp (handle e) Q E) s := by
  show (match EStateM.tryCatch m handle s with | .ok a t => _ | .error e t => _) ↔ _
  unfold wp EStateM.tryCatch
  cases m s <;> exact Iff.rfl

theorem wp_mono {m : EStateM ε σ β} {Q' : β → σ → Prop} {E' : ε → σ → Prop}
    (hQ : ∀ b t, Q b t → Q' b t) (hE : ∀ e t, E e t → E' e t) (h : wp m Q E s) :
    wp m Q' E' s := by
  unfold wp at h ⊢
  cases hm : m s with
  | ok b t => rw [hm] at h; exact hQ b t h
  | error e t => rw [hm] at h; exact hE e t h

end Wp

/-! ## How a program that returned got there -/

theorem bind_eq_ok {m : EStateM ε σ α} {f : α → EStateM ε σ β} {s u : σ} {b : β} :
    (m >>= f) s = .ok b u ↔ ∃ a t, m s = .ok a t ∧ f a t = .ok b u := by
  show EStateM.bind m f s = _ ↔ _
  unfold EStateM.bind
  cases m s with
  | ok a t =>
    constructor
    · intro h; exact ⟨a, t, rfl, h⟩
    · rintro ⟨a', t', h, hf⟩
      cases h
      exact hf
  | error e t => simp

theorem bind_eq_error {m : EStateM ε σ α} {f : α → EStateM ε σ β} {s u : σ} {e : ε} :
    (m >>= f) s = .error e u ↔
      m s = .error e u ∨ ∃ a t, m s = .ok a t ∧ f a t = .error e u := by
  show EStateM.bind m f s = _ ↔ _
  unfold EStateM.bind
  cases m s with
  | ok a t =>
    constructor
    · intro h; exact Or.inr ⟨a, t, rfl, h⟩
    · rintro (h | ⟨a', t', h, hf⟩)
      · cases h
      · cases h
        exact hf
  | error e t => simp

theorem bind_of_ok {m : EStateM ε σ α} {s t : σ} {a : α} (h : m s = .ok a t)
    (f : α → EStateM ε σ β) : (m >>= f) s = f a t := by
  show EStateM.bind m f s = _
  unfold EStateM.bind
  rw [h]

theorem bind_of_error {m : EStateM ε σ α} {s t : σ} {e : ε} (h : m s = .error e t)
    (f : α → EStateM ε σ β) : (m >>= f) s = .error e t := by
  show EStateM.bind m f s = _
  unfold EStateM.bind
  rw [h]

theorem tryCatch_eq_ok {m : EStateM ε σ α} {handle : ε → EStateM ε σ α} {s u : σ} {a : α} :
    tryCatch m handle s = .ok a u ↔
      m s = .ok a u ∨ ∃ e t, m s = .error e t ∧ handle e t = .ok a u := by
  show EStateM.tryCatch m handle s = _ ↔ _
  unfold EStateM.tryCatch
  cases m s with
  | ok b t => simp
  | error e t =>
    constructor
    · intro h; exact Or.inr ⟨e, t, rfl, h⟩
    · rintro (h | ⟨e', t', h, hh⟩)
      · cases h
      · cases h
        exact hh

theorem tryCatch_eq_error {m : EStateM ε σ α} {handle : ε → EStateM ε σ α} {s u : σ} {e : ε} :
    tryCatch m handle s = .error e u ↔ ∃ e' t, m s = .error e' t ∧ handle e' t = .error e u := by
  show EStateM.tryCatch m handle s = _ ↔ _
  unfold EStateM.tryCatch
  cases m s with
  | ok a t => simp
  | error e' t =>
    constructor
    · intro h; exact ⟨e', t, rfl, h⟩
    · rintro ⟨e'', t', h, hh⟩
      cases h
      exact hh

theorem tryCatch_apply (m : EStateM ε σ α) (handle : ε → EStateM ε σ α) (s : σ) :
    tryCatch m handle s = match m s with
      | .ok a t => .ok a t
      | .error e t => handle e t := by
  show EStateM.tryCatch m handle s = _
  unfold EStateM.tryCatch
  cases m s <;> rfl

theorem after_of_ok {m : EStateM ε σ α} {s t : σ} {a : α} (h : m s = .ok a t) : after m s = t := by
  unfold after
  rw [h]

theorem after_of_error {m : EStateM ε σ α} {s t : σ} {e : ε} (h : m s = .error e t) :
    after m s = t := by
  unfold after
  rw [h]

theorem after_bind {P : σ → Prop} {m : EStateM ε σ α} {f : α → EStateM ε σ β} {s : σ}
    (herror : ∀ e t, m s = .error e t → P t) (hok : ∀ a t, m s = .ok a t → P (after (f a) t)) :
    P (after (m >>= f) s) := by
  show P (match EStateM.bind m f s with | .ok _ t => t | .error _ t => t)
  unfold EStateM.bind
  cases hm : m s with
  | ok a t => exact hok a t hm
  | error e t => exact herror e t hm

/-! ## What a program can do to the state -/

/-- However `m` ends, it has moved the state along `R`. -/
def Moves (R : σ → σ → Prop) (m : EStateM ε σ α) : Prop := ∀ s, R s (after m s)

/-- However `m` ends, it leaves `I` as it found it. -/
abbrev Keeps (I : σ → Prop) (m : EStateM ε σ α) : Prop := Moves (fun s t => I s → I t) m

instance keeps_isPreorder {I : σ → Prop} : IsPreorder σ (fun s t => I s → I t) where
  refl _ := id
  trans _ _ _ h h' := h' ∘ h

namespace Moves

variable {R : σ → σ → Prop}

theorem mono {R' : σ → σ → Prop} {m : EStateM ε σ α} (h : ∀ s t, R s t → R' s t)
    (hm : Moves R m) : Moves R' m := fun s => h s _ (hm s)

/-- What is known of the move, of a program whose steps are not followed. -/
theorem wp {m : EStateM ε σ α} {Q : α → σ → Prop} {E : ε → σ → Prop} {s : σ} (hm : Moves R m)
    (hQ : ∀ a t, R s t → Q a t) (hE : ∀ e t, R s t → E e t) : Lib.wp m Q E s := by
  have hmoved := hm s
  unfold Lib.wp
  cases hrun : m s with
  | ok a t =>
    rw [after_of_ok hrun] at hmoved
    exact hQ a t hmoved
  | error e t =>
    rw [after_of_error hrun] at hmoved
    exact hE e t hmoved

theorem ite {c : Prop} [Decidable c] {m n : EStateM ε σ α} (hm : c → Moves R m)
    (hn : ¬ c → Moves R n) : Moves R (if c then m else n) := by
  by_cases h : c
  · rw [if_pos h]; exact hm h
  · rw [if_neg h]; exact hn h

section Preorder

variable [IsPreorder σ R]

theorem ret (a : α) : Moves R (pure a : EStateM ε σ α) := fun s => refl_of R s

theorem raise (e : ε) : Moves R (throw e : EStateM ε σ α) := fun s => refl_of R s

/-- A read of the state. -/
theorem read (f : σ → α) : Moves R (fun s => .ok (f s) s : EStateM ε σ α) := fun s => refl_of R s

/-- What `m` returns can be used to the extent that `m` is known to return it. -/
theorem bind_of {P : α → Prop} {m : EStateM ε σ α} {f : α → EStateM ε σ β} (hm : Moves R m)
    (hP : ∀ s a t, m s = .ok a t → P a) (hf : ∀ a, P a → Moves R (f a)) : Moves R (m >>= f) := by
  intro s
  have hm' := hm s
  unfold after at hm' ⊢
  show R s (match EStateM.bind m f s with | .ok _ t => t | .error _ t => t)
  unfold EStateM.bind
  cases h : m s with
  | ok a t =>
    rw [h] at hm'
    exact trans_of R hm' (hf a (hP s a t h) t)
  | error e t =>
    rw [h] at hm'
    exact hm'

theorem bind {m : EStateM ε σ α} {f : α → EStateM ε σ β} (hm : Moves R m)
    (hf : ∀ a, Moves R (f a)) : Moves R (m >>= f) :=
  bind_of (P := fun _ => True) hm (fun _ _ _ _ => trivial) fun a _ => hf a

theorem tryCatch {m : EStateM ε σ α} {handle : ε → EStateM ε σ α} (hm : Moves R m)
    (hh : ∀ e, Moves R (handle e)) : Moves R (tryCatch m handle) := by
  intro s
  have hm' := hm s
  unfold after at hm' ⊢
  show R s (match EStateM.tryCatch m handle s with | .ok _ t => t | .error _ t => t)
  unfold EStateM.tryCatch
  cases h : m s with
  | ok a t =>
    rw [h] at hm'
    exact hm'
  | error e t =>
    rw [h] at hm'
    exact trans_of R hm' (hh e t)

end Preorder

end Moves

/-- A handler that keeps a property does no harm to it. -/
theorem after_tryCatch {P : σ → Prop} {m : EStateM ε σ α} {handle : ε → EStateM ε σ α} {s : σ}
    (hm : P (after m s)) (hh : ∀ e, Keeps P (handle e)) : P (after (tryCatch m handle) s) := by
  show P (match EStateM.tryCatch m handle s with | .ok _ t => t | .error _ t => t)
  unfold EStateM.tryCatch
  unfold after at hm
  cases h : m s with
  | ok a t =>
    rw [h] at hm
    exact hm
  | error e t =>
    rw [h] at hm
    exact hh e t hm

end Infinito.Lib
