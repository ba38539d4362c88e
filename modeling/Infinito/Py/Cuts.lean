import Infinito.Py.Utf8

/-!
# Text that is decoded piece by piece

A reader that calls `bytes.decode("utf-8", errors="replace")` on each piece of a stream
forgets, between two pieces, the character it was in the middle of. The decoder's state
(`pendingAfter`) says what that costs. Where the next byte would not have gone on with the
character, nothing is lost: it would have been replaced anyway (`decode_append`). Where it
would have, the one character, or the one replacement for what is left of it, becomes two
replacements or more (`count_decode_append_lt`).
-/

set_option autoImplicit false

namespace Infinito.Py

/-- The character the decoder is in the middle of after `bs`. -/
def pendingAfter : Option Pending → Bytes → Option Pending
  | s, [] => s
  | none, b :: bs => pendingAfter (between b).2 bs
  | some p, b :: bs =>
      if p.lo ≤ b.toNat ∧ b.toNat ≤ p.hi then
        if p.owed = 1 then pendingAfter none bs
        else pendingAfter (some ⟨p.owed - 1, 0x80, 0xbf, p.value * 64 + b.toNat % 64⟩) bs
      else pendingAfter (between b).2 bs

/-- The next byte goes on with the character. -/
def Continues : Option Pending → Bytes → Prop
  | some p, b :: _ => p.lo ≤ b.toNat ∧ b.toNat ≤ p.hi
  | _, _ => False

instance : (s : Option Pending) → (bs : Bytes) → Decidable (Continues s bs)
  | some _, _ :: _ => inferInstanceAs (Decidable (_ ∧ _))
  | none, _ => isFalse (by intro h; cases h)
  | some _, [] => isFalse (by intro h; cases h)

/-- The end of `a` lies inside bytes that the decoder would have read as one. -/
def CutInside (a b : Bytes) : Prop := Continues (pendingAfter none a) b

instance (a b : Bytes) : Decidable (CutInside a b) :=
  inferInstanceAs (Decidable (Continues _ _))

theorem not_cutInside_nil {a : Bytes} : ¬ CutInside a [] := by
  unfold CutInside
  cases pendingAfter none a <;> exact id

theorem CutInside.append {a b : Bytes} (h : CutInside a b) (c : Bytes) : CutInside a (b ++ c) := by
  unfold CutInside at h ⊢
  cases hs : pendingAfter none a with
  | none => rw [hs] at h; cases b <;> cases h
  | some p =>
    rw [hs] at h
    cases b with
    | nil => cases h
    | cons x bs => exact h

theorem CutInside.of_append {a b c : Bytes} (hb : b ≠ []) (h : CutInside a (b ++ c)) :
    CutInside a b := by
  unfold CutInside at h ⊢
  cases b with
  | nil => exact absurd rfl hb
  | cons x bs =>
    cases hs : pendingAfter none a with
    | none => rw [hs] at h; cases h
    | some p => rw [hs] at h; exact h

/-! ## A cut that loses nothing -/

/-- The byte that breaks a character off is read afresh. -/
theorem decodeFrom_broken {p : Pending} {b : UInt8} {bs : Bytes}
    (h : ¬ (p.lo ≤ b.toNat ∧ b.toNat ≤ p.hi)) :
    decodeFrom (some p) (b :: bs) = replacement :: decode (b :: bs) := by
  rw [decodeFrom, if_neg h]
  rfl

theorem decodeFrom_append {s : Option Pending} {a b : Bytes}
    (h : ¬ Continues (pendingAfter s a) b) : decodeFrom s (a ++ b) = decodeFrom s a ++ decode b := by
  induction a generalizing s with
  | nil =>
    cases s with
    | none => rfl
    | some p =>
      cases b with
      | nil => rfl
      | cons x bs => exact decodeFrom_broken h
  | cons x as ih =>
    cases s with
    | none =>
      rw [List.cons_append, decodeFrom, ih h, decodeFrom, List.append_assoc]
    | some p =>
      rw [List.cons_append, decodeFrom, decodeFrom]
      rw [pendingAfter] at h
      split
      · rename_i hx
        rw [if_pos hx] at h
        split
        · rename_i howed
          rw [if_pos howed] at h
          rw [ih h, List.cons_append]
        · rename_i howed
          rw [if_neg howed] at h
          exact ih h
      · rename_i hx
        rw [if_neg hx] at h
        rw [ih h, ← List.append_assoc, List.cons_append]

/-- **Where no character is cut, the pieces decode to the text.** -/
theorem decode_append {a b : Bytes} (h : ¬ CutInside a b) : decode (a ++ b) = decode a ++ decode b :=
  decodeFrom_append h

/-! ## A cut that does -/

/-- The bytes a character is continued with are not the first of any. -/
def Pending.Ok (p : Pending) : Prop := 0x80 ≤ p.lo ∧ p.hi ≤ 0xbf

def PendingOk (s : Option Pending) : Prop := ∀ p, s = some p → p.Ok

theorem pendingOk_none : PendingOk none := by
  intro p h
  cases h

theorem pendingOk_tail (owed value : Nat) : PendingOk (some ⟨owed, 0x80, 0xbf, value⟩) := by
  intro p h
  obtain rfl := Option.some.inj h
  exact ⟨Nat.le_refl _, Nat.le_refl _⟩

theorem opens_ok (n : Nat) : PendingOk (opens n) := by
  intro p h
  unfold opens at h
  split_ifs at h <;> obtain rfl := Option.some.inj h <;>
    exact ⟨by dsimp only; omega, by dsimp only; omega⟩

theorem between_ok (b : UInt8) : PendingOk (between b).2 := by
  unfold between
  split
  · exact pendingOk_none
  · split
    · rename_i p hp
      rw [← hp]
      exact opens_ok _
    · exact pendingOk_none

theorem between_continuation {b : UInt8} (hlo : 0x80 ≤ b.toNat) (hhi : b.toNat ≤ 0xbf) :
    between b = ([replacement], none) := by
  have hopens : opens b.toNat = none := by
    unfold opens
    split_ifs <;> first | omega | rfl
  rw [between, if_neg (by omega), hopens]

/-- The replacements a text shows. -/
def replacements (t : Text) : Nat := t.count replacement

@[simp] theorem replacements_nil : replacements [] = 0 := rfl

theorem replacements_append (t u : Text) :
    replacements (t ++ u) = replacements t + replacements u :=
  List.count_append

theorem replacements_cons_le (c : Char) (t : Text) :
    replacements (c :: t) ≤ replacements t + 1 := by
  unfold replacements
  rw [List.count_cons]
  split <;> omega

@[simp] theorem replacements_cons_replacement (t : Text) :
    replacements (replacement :: t) = replacements t + 1 :=
  List.count_cons_self

theorem replacements_cons_of_ne {c : Char} (h : c ≠ replacement) (t : Text) :
    replacements (c :: t) = replacements t :=
  List.count_cons_of_ne h

/-- A byte that goes on with a character is replaced when it is read without it. -/
theorem replacements_decode_continuation {p : Pending} {b : UInt8} {bs : Bytes} (hp : p.Ok)
    (hb : p.lo ≤ b.toNat ∧ b.toNat ≤ p.hi) :
    replacements (decode (b :: bs)) = replacements (decode bs) + 1 := by
  have hbetween := between_continuation (hp.1.trans hb.1) (hb.2.trans hp.2)
  unfold decode
  rw [decodeFrom, hbetween, List.singleton_append, replacements_cons_replacement]

theorem replacements_continue_lt {p : Pending} {b : UInt8} {bs : Bytes} (hp : p.Ok)
    (hb : p.lo ≤ b.toNat ∧ b.toNat ≤ p.hi)
    (hrest : ∀ q : Pending, q.Ok →
      replacements (decodeFrom (some q) bs) ≤ replacements (decode bs) + 1) :
    replacements (decodeFrom (some p) (b :: bs)) < replacements (decode (b :: bs)) + 1 := by
  rw [replacements_decode_continuation hp hb, decodeFrom, if_pos hb]
  split
  · have hle := replacements_cons_le (Char.ofNat (p.value * 64 + b.toNat % 64)) (decodeFrom none bs)
    exact Nat.lt_succ_of_le hle
  · exact Nat.lt_succ_of_le (hrest _ (pendingOk_tail _ _ _ rfl))

/-- The decoder in the middle of a character writes no more replacements than one that gives
    the character up. -/
theorem replacements_pending_le {p : Pending} {bs : Bytes} (hp : p.Ok) :
    replacements (decodeFrom (some p) bs) ≤ replacements (decode bs) + 1 := by
  induction bs generalizing p with
  | nil => exact Nat.le_refl 1
  | cons b bs ih =>
    by_cases hb : p.lo ≤ b.toNat ∧ b.toNat ≤ p.hi
    · exact (replacements_continue_lt hp hb fun _ hq => ih hq).le
    · rw [decodeFrom_broken hb, replacements_cons_replacement]

theorem replacements_pending_lt {p : Pending} {bs : Bytes} (hp : p.Ok)
    (h : Continues (some p) bs) :
    replacements (decodeFrom (some p) bs) < replacements (decode bs) + 1 := by
  cases bs with
  | nil => cases h
  | cons b bs => exact replacements_continue_lt hp h fun _ hq => replacements_pending_le hq

/-- What is decoded after `s` begins with what `a` gives, whatever comes behind `a`. -/
theorem exists_decodeFrom {s : Option Pending} (hs : PendingOk s) (a : Bytes) :
    PendingOk (pendingAfter s a) ∧ ∃ t : Text,
      ∀ b, decodeFrom s (a ++ b) = t ++ decodeFrom (pendingAfter s a) b := by
  induction a generalizing s with
  | nil => exact ⟨hs, [], fun _ => rfl⟩
  | cons x as ih =>
    cases s with
    | none =>
      obtain ⟨hok, t, ht⟩ := ih (between_ok x)
      refine ⟨hok, (between x).1 ++ t, fun b => ?_⟩
      rw [List.cons_append, decodeFrom, ht, List.append_assoc, pendingAfter]
    | some p =>
      by_cases hx : p.lo ≤ x.toNat ∧ x.toNat ≤ p.hi
      · by_cases howed : p.owed = 1
        · obtain ⟨hok, t, ht⟩ := ih pendingOk_none
          rw [pendingAfter, if_pos hx, if_pos howed]
          refine ⟨hok, Char.ofNat (p.value * 64 + x.toNat % 64) :: t, fun b => ?_⟩
          rw [List.cons_append, decodeFrom, if_pos hx, if_pos howed, ht, List.cons_append]
        · obtain ⟨hok, t, ht⟩ :=
            ih (pendingOk_tail (p.owed - 1) (p.value * 64 + x.toNat % 64))
          rw [pendingAfter, if_pos hx, if_neg howed]
          refine ⟨hok, t, fun b => ?_⟩
          rw [List.cons_append, decodeFrom, if_pos hx, if_neg howed, ht]
      · obtain ⟨hok, t, ht⟩ := ih (between_ok x)
        rw [pendingAfter, if_neg hx]
        refine ⟨hok, replacement :: (between x).1 ++ t, fun b => ?_⟩
        rw [List.cons_append, decodeFrom, if_neg hx, ht, List.append_assoc]

theorem exists_decode (a b : Bytes) :
    PendingOk (pendingAfter none a) ∧ ∃ t : Text,
      decode a = t ++ decodeFrom (pendingAfter none a) [] ∧
      decode (a ++ b) = t ++ decodeFrom (pendingAfter none a) b := by
  obtain ⟨hok, t, ht⟩ := exists_decodeFrom pendingOk_none a
  refine ⟨hok, t, ?_, ht b⟩
  have ha := ht []
  rwa [List.append_nil] at ha

/-- **A cut inside a character makes replacements more,** -/
theorem replacements_decode_append_lt {a b : Bytes} (h : CutInside a b) :
    replacements (decode (a ++ b)) < replacements (decode a) + replacements (decode b) := by
  obtain ⟨hok, t, ha, hab⟩ := exists_decode a b
  unfold CutInside at h
  rw [ha, hab, replacements_append, replacements_append]
  cases hs : pendingAfter none a with
  | none => rw [hs] at h; cases b <;> cases h
  | some p =>
    rw [hs] at h
    have hlt := replacements_pending_lt (hok p hs) h
    have hend : replacements (decodeFrom (some p) []) = 1 := rfl
    omega

/-- and no cut makes them fewer. -/
theorem replacements_decode_append_le (a b : Bytes) :
    replacements (decode (a ++ b)) ≤ replacements (decode a) + replacements (decode b) := by
  by_cases h : CutInside a b
  · exact (replacements_decode_append_lt h).le
  · rw [decode_append h, replacements_append]

end Infinito.Py
