import Infinito.Py.Text
import Mathlib.Tactic.Common

/-!
# Text files

`Path.write_text(…, encoding="utf-8")` and `Path.read_text(encoding="utf-8",
errors="replace")`. The decoder never fails: a byte sequence that cannot continue is
replaced by one `U+FFFD`, and the byte that broke it is read afresh. It is a machine over
single bytes whose state is the character it is in the middle of, so that a file written
by the encoder reads back (`decode_encode`) by following one character at a time.

Reading in text mode also turns `\r\n` and `\r` into `\n`, which writing does not undo:
`readText_encode` needs a text without `\r`.
-/

set_option autoImplicit false

namespace Infinito.Py

abbrev Bytes := List UInt8

/-- `str.encode("utf-8")` -/
def encode (t : Text) : Bytes := t.flatMap String.utf8EncodeChar

/-- U+FFFD -/
def replacement : Char := Char.ofNat 0xfffd

/-- The middle of a character: the bytes still owed, the range the next one has to lie in,
    and the value read so far. -/
structure Pending where
  owed : Nat
  lo : Nat
  hi : Nat
  value : Nat

/-- What the first byte of a longer character opens. -/
def opens (n : Nat) : Option Pending :=
  if 0xc2 ≤ n ∧ n ≤ 0xdf then some ⟨1, 0x80, 0xbf, n - 0xc0⟩
  else if n = 0xe0 then some ⟨2, 0xa0, 0xbf, 0⟩
  else if n = 0xed then some ⟨2, 0x80, 0x9f, 0xd⟩
  else if 0xe1 ≤ n ∧ n ≤ 0xef then some ⟨2, 0x80, 0xbf, n - 0xe0⟩
  else if n = 0xf0 then some ⟨3, 0x90, 0xbf, 0⟩
  else if 0xf1 ≤ n ∧ n ≤ 0xf3 then some ⟨3, 0x80, 0xbf, n - 0xf0⟩
  else if n = 0xf4 then some ⟨3, 0x80, 0x8f, 4⟩
  else none

/-- A byte between characters: what it writes, and what it opens. -/
def between (b : UInt8) : Text × Option Pending :=
  if b.toNat < 0x80 then ([Char.ofNat b.toNat], none)
  else match opens b.toNat with
    | some p => ([], some p)
    | none => ([replacement], none)

def decodeFrom : Option Pending → Bytes → Text
  | none, [] => []
  | some _, [] => [replacement]
  | none, b :: bs => (between b).1 ++ decodeFrom (between b).2 bs
  | some p, b :: bs =>
      if p.lo ≤ b.toNat ∧ b.toNat ≤ p.hi then
        if p.owed = 1 then Char.ofNat (p.value * 64 + b.toNat % 64) :: decodeFrom none bs
        else decodeFrom (some ⟨p.owed - 1, 0x80, 0xbf, p.value * 64 + b.toNat % 64⟩) bs
      else replacement :: (between b).1 ++ decodeFrom (between b).2 bs

/-- `bytes.decode("utf-8", errors="replace")` -/
def decode (bs : Bytes) : Text := decodeFrom none bs

section RoundTrip

variable {bs : Bytes} {n : Nat} {p : Pending}

theorem toNat_ofNat_byte (h : n < 256) : (UInt8.ofNat n).toNat = n := by
  rw [UInt8.toNat_ofNat']
  exact Nat.mod_eq_of_lt h

theorem decodeFrom_ascii (h : n < 0x80) :
    decodeFrom none (UInt8.ofNat n :: bs) = Char.ofNat n :: decodeFrom none bs := by
  have hn := toNat_ofNat_byte (show n < 256 by omega)
  simp only [decodeFrom, between, hn, if_pos h, List.singleton_append]

theorem decodeFrom_opens (hlt : n < 256) (h : opens n = some p) :
    decodeFrom none (UInt8.ofNat n :: bs) = decodeFrom (some p) bs := by
  have hn := toNat_ofNat_byte hlt
  have hlow : ¬ n < 0x80 := by
    intro hlow
    rw [opens, if_neg (by omega), if_neg (by omega), if_neg (by omega), if_neg (by omega),
      if_neg (by omega), if_neg (by omega), if_neg (by omega)] at h
    cases h
  simp only [decodeFrom, between, hn, if_neg hlow, h, List.nil_append]

theorem decodeFrom_last (hlt : n < 256) (hlo : p.lo ≤ n) (hhi : n ≤ p.hi) (howed : p.owed = 1) :
    decodeFrom (some p) (UInt8.ofNat n :: bs) =
      Char.ofNat (p.value * 64 + n % 64) :: decodeFrom none bs := by
  have hn := toNat_ofNat_byte hlt
  simp only [decodeFrom, hn]
  rw [if_pos ⟨hlo, hhi⟩, if_pos howed]

theorem decodeFrom_tail (hlt : n < 256) (hlo : p.lo ≤ n) (hhi : n ≤ p.hi) (howed : p.owed ≠ 1) :
    decodeFrom (some p) (UInt8.ofNat n :: bs) =
      decodeFrom (some ⟨p.owed - 1, 0x80, 0xbf, p.value * 64 + n % 64⟩) bs := by
  have hn := toNat_ofNat_byte hlt
  simp only [decodeFrom, hn]
  rw [if_pos ⟨hlo, hhi⟩, if_neg howed]

/-- The byte after `0xe0` opens a third of the range, the byte after `0xed` the surrogates'
    complement; a scalar value's second byte lies in the range its first byte opens. -/
theorem opens_three {v : Nat} (h₁ : 0x7ff < v) (h₂ : v ≤ 0xffff)
    (hs : v < 0xd800 ∨ 0xdfff < v) :
    ∃ lo hi, opens (v / 4096 % 16 + 0xe0) = some ⟨2, lo, hi, v / 4096⟩ ∧
      lo ≤ v / 64 % 64 + 0x80 ∧ v / 64 % 64 + 0x80 ≤ hi := by
  have hq : v / 4096 % 16 = v / 4096 := by omega
  rw [hq]
  by_cases h0 : v / 4096 = 0
  · refine ⟨0xa0, 0xbf, ?_, by omega, by omega⟩
    rw [h0]; rfl
  · by_cases hd : v / 4096 = 0xd
    · refine ⟨0x80, 0x9f, ?_, by omega, by omega⟩
      rw [hd]; rfl
    · refine ⟨0x80, 0xbf, ?_, by omega, by omega⟩
      rw [opens, if_neg (by omega), if_neg (by omega), if_neg (by omega), if_pos (by omega),
        Nat.add_sub_cancel]

theorem opens_four {v : Nat} (h₁ : 0xffff < v) (h₂ : v ≤ 0x10ffff) :
    ∃ lo hi, opens (v / 262144 % 8 + 0xf0) = some ⟨3, lo, hi, v / 262144⟩ ∧
      lo ≤ v / 4096 % 64 + 0x80 ∧ v / 4096 % 64 + 0x80 ≤ hi := by
  have hq : v / 262144 % 8 = v / 262144 := by omega
  rw [hq]
  by_cases h0 : v / 262144 = 0
  · refine ⟨0x90, 0xbf, ?_, by omega, by omega⟩
    rw [h0]; rfl
  · by_cases h4 : v / 262144 = 4
    · refine ⟨0x80, 0x8f, ?_, by omega, by omega⟩
      rw [h4]; rfl
    · refine ⟨0x80, 0xbf, ?_, by omega, by omega⟩
      rw [opens, if_neg (by omega), if_neg (by omega), if_neg (by omega), if_neg (by omega),
        if_neg (by omega), if_pos (by omega), Nat.add_sub_cancel]

theorem decodeFrom_encodeChar (c : Char) :
    decodeFrom none (String.utf8EncodeChar c ++ bs) = c :: decodeFrom none bs := by
  have hc : Char.ofNat c.val.toNat = c := Char.ofNat_toNat c
  have hvalid : c.val.toNat < 0xd800 ∨ 0xdfff < c.val.toNat ∧ c.val.toNat < 0x110000 := c.valid
  have hopen {v : Nat} (h₁ : 0x7f < v) (h₂ : v ≤ 0x7ff) :
      opens (v / 64 % 32 + 0xc0) = some ⟨1, 0x80, 0xbf, v / 64⟩ := by
    have hq : v / 64 % 32 = v / 64 := by omega
    rw [hq, opens, if_pos (by omega), Nat.add_sub_cancel]
  unfold String.utf8EncodeChar
  generalize c.val.toNat = v at hc hvalid
  dsimp only
  by_cases h1 : v ≤ 0x7f
  · rw [if_pos h1, List.cons_append, List.nil_append, decodeFrom_ascii (by omega), hc]
  · rw [if_neg h1]
    by_cases h2 : v ≤ 0x7ff
    · rw [if_pos h2]
      simp only [List.cons_append, List.nil_append]
      rw [decodeFrom_opens (by omega) (hopen (by omega) h2),
        decodeFrom_last (by omega) (by simp) (by simp; omega) rfl]
      rw [show v / 64 * 64 + (v % 64 + 0x80) % 64 = v by omega, hc]
    · rw [if_neg h2]
      by_cases h3 : v ≤ 0xffff
      · obtain ⟨lo, hi, hop, hlo, hhi⟩ := opens_three (by omega) h3 (by omega)
        rw [if_pos h3]
        simp only [List.cons_append, List.nil_append]
        rw [decodeFrom_opens (by omega) hop, decodeFrom_tail (by omega) hlo hhi (by simp),
          decodeFrom_last (by omega) (by simp) (by simp; omega) rfl]
        rw [show (v / 4096 * 64 + (v / 64 % 64 + 0x80) % 64) * 64 + (v % 64 + 0x80) % 64 = v by
          omega, hc]
      · obtain ⟨lo, hi, hop, hlo, hhi⟩ := opens_four (show 0xffff < v by omega) (by omega)
        rw [if_neg h3]
        simp only [List.cons_append, List.nil_append]
        rw [decodeFrom_opens (by omega) hop, decodeFrom_tail (by omega) hlo hhi (by simp),
          decodeFrom_tail (by omega) (by simp) (by simp; omega) (by simp),
          decodeFrom_last (by omega) (by simp) (by simp; omega) rfl]
        rw [show ((v / 262144 * 64 + (v / 4096 % 64 + 0x80) % 64) * 64 +
          (v / 64 % 64 + 0x80) % 64) * 64 + (v % 64 + 0x80) % 64 = v by omega, hc]

/-- **What is encoded is read back.** -/
@[simp] theorem decode_encode (t : Text) : decode (encode t) = t := by
  unfold decode encode
  induction t with
  | nil => rfl
  | cons c cs ih => rw [List.flatMap_cons, decodeFrom_encodeChar, ih]

end RoundTrip

/-! ## Text mode -/

/-- `newline=None` on reading. -/
def universalNewlines : Text → Text
  | [] => []
  | '\r' :: '\n' :: cs => '\n' :: universalNewlines cs
  | '\r' :: cs => '\n' :: universalNewlines cs
  | c :: cs => c :: universalNewlines cs

/-- `path.read_text(encoding="utf-8", errors="replace")` on a file's bytes. -/
def readText (bs : Bytes) : Text := universalNewlines (decode bs)

theorem universalNewlines_of_no_cr {t : Text} (h : '\r' ∉ t) : universalNewlines t = t := by
  induction t with
  | nil => rfl
  | cons c cs ih =>
    have hc : c ≠ '\r' := by
      intro hc
      exact h (by rw [hc]; exact List.mem_cons_self)
    have hcs : universalNewlines cs = cs := ih fun hm => h (List.mem_cons_of_mem _ hm)
    have hstep : universalNewlines (c :: cs) = c :: universalNewlines cs := by
      rw [universalNewlines.eq_4]
      · intro cs' hr _; exact hc hr
      · exact hc
    rw [hstep, hcs]

theorem readText_encode {t : Text} (h : '\r' ∉ t) : readText (encode t) = t := by
  rw [readText, decode_encode, universalNewlines_of_no_cr h]

end Infinito.Py
