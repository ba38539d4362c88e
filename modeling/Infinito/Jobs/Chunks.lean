import Infinito.Jobs.Delivery
import Infinito.Py.Cuts
import Mathlib.Algebra.GroupWithZero.Nat

/-!
# A log that is read in chunks

The reader thread of `start_process` takes what the job has written, at most 4096 bytes at a
time; `stream_logs`, when it follows `job.log`, takes what the file has grown by. Both decode
each chunk on its own and carry the unfinished line, as text, into the next. So the text of a
line does not depend on where the line was cut, except that a cut may lie inside a character.

`chunkFree_iff` says that this is the whole of it: the lines are those of the unsplit stream,
whatever is masked, exactly if no chunk ends inside a character. Else each half of the
character is replaced on its own, and a secret that has the character in it is not recognised
(`cut_secret`).
-/

set_option autoImplicit false

namespace Infinito.Jobs

open Py Lib

/-! ## The two loops -/

/-- What is left in the buffer when the stream ends. -/
def flush (buf : Text) : List Text := if buf = [] then [] else [buf]

/-- The loop of `_reader`, on the results of `os.read`: the empty one is the end. -/
def readerLoop (buf : Text) : List Bytes → List Text
  | [] => flush buf
  | chunk :: reads =>
      if chunk = [] then flush buf
      else
        let (lines, buf) := splitStream [] (buf ++ decode chunk)
        lines ++ readerLoop buf reads

/-- What `_reader` emits, receive times aside. -/
def readerLines (so : SetOrder) (secrets : List Text) (reads : List Bytes) : List Text :=
  (readerLoop [] reads).map fun line => maskSecrets so line secrets

/-- The loop of `event_stream` on the reads of `job.log`, until the job is done and there is
    no more to read. -/
def tailLoop (buffer : Text) : List Bytes → List Text
  | [] => flush buffer
  | chunk :: reads =>
      if chunk = [] then tailLoop buffer reads
      else
        let (lines, buffer) := splitStream [] (buffer ++ decode chunk)
        lines ++ tailLoop buffer reads

/-- The lines of the log events. -/
def tailLines (so : SetOrder) (secrets : List Text) (reads : List Bytes) : List Text :=
  (tailLoop [] reads).map fun line => maskSecrets so line secrets

/-! ## The property -/

/-- A way in which a stream can be read. -/
structure Chunking (stream : Bytes) where
  chunks : List Bytes
  nonempty : [] ∉ chunks
  flatten : chunks.flatten = stream

/-- The stream in one chunk. -/
def Chunking.unsplit (stream : Bytes) : Chunking stream where
  chunks := if stream = [] then [] else [stream]
  nonempty := by
    split
    · exact List.not_mem_nil
    · rename_i h
      rw [List.mem_singleton]
      exact fun h' => h h'.symm
  flatten := by
    split
    · rename_i h
      rw [h, List.flatten_nil]
    · exact List.flatten_singleton

variable {stream : Bytes}

/-- Whatever the secrets are, the lines are those of the unsplit stream. The file may also be
    read when it has not grown. -/
structure ChunkFree (c : Chunking stream) : Prop where
  reader : ∀ so secrets, readerLines so secrets (c.chunks ++ [[]]) =
    readerLines so secrets ((Chunking.unsplit stream).chunks ++ [[]])
  tail : ∀ so secrets reads, reads.filter (· ≠ []) = c.chunks →
    tailLines so secrets reads = tailLines so secrets (Chunking.unsplit stream).chunks

/-- No chunk ends inside a character. -/
def Chunking.Whole (c : Chunking stream) : Prop :=
  ∀ before after, before ++ after = c.chunks → ¬ CutInside before.flatten after.flatten

/-! ## What the loops emit -/

/-- The lines of a text, the last of them if there is something on it. -/
def textLines (t : Text) : List Text := (splitStream [] t).1 ++ flush (splitStream [] t).2

theorem splitStream_break {acc t : Text} {c : Char} (hc : c = '\n' ∨ c = '\r') :
    splitStream acc (c :: t) =
      (acc.reverse :: (splitStream [] t).1, (splitStream [] t).2) := by
  rw [splitStream, if_pos hc]

theorem splitStream_keep {acc t : Text} {c : Char} (hc : ¬ (c = '\n' ∨ c = '\r')) :
    splitStream acc (c :: t) = splitStream (c :: acc) t := by
  rw [splitStream, if_neg hc]

theorem unbroken_nil : Unbroken [] := by
  intro c hc
  cases hc

theorem splitStream_acc {acc w t : Text} (hw : Unbroken w) :
    splitStream acc (w ++ t) = splitStream (w.reverse ++ acc) t := by
  induction w generalizing acc with
  | nil => rfl
  | cons c w ih =>
    rw [List.cons_append, splitStream_keep (not_or.mpr (hw c List.mem_cons_self)),
      ih fun x hx => hw x (List.mem_cons_of_mem _ hx), List.reverse_cons, List.append_assoc,
      List.singleton_append]

theorem unbroken_push {acc : Text} {c : Char} (hacc : Unbroken acc.reverse)
    (hc : ¬ (c = '\n' ∨ c = '\r')) : Unbroken (c :: acc).reverse := by
  intro x hx
  rw [List.reverse_cons] at hx
  rcases List.mem_append.mp hx with hx | hx
  · exact hacc x hx
  · rw [List.mem_singleton.mp hx]
    exact not_or.mp hc

/-- A text that arrives in two parts is split as the whole is. -/
theorem splitStream_append {acc a b : Text} (hacc : Unbroken acc.reverse) :
    splitStream acc (a ++ b) =
      ((splitStream acc a).1 ++ (splitStream [] ((splitStream acc a).2 ++ b)).1,
        (splitStream [] ((splitStream acc a).2 ++ b)).2) := by
  induction a generalizing acc with
  | nil =>
    rw [List.nil_append, splitStream, List.nil_append, splitStream_acc hacc,
      List.reverse_reverse, List.append_nil]
  | cons c a ih =>
    rw [List.cons_append]
    by_cases hc : c = '\n' ∨ c = '\r'
    · rw [splitStream_break hc, splitStream_break hc, @ih [] unbroken_nil]
      rfl
    · rw [splitStream_keep hc, splitStream_keep hc]
      exact ih (unbroken_push hacc hc)

theorem splitStream_rest {acc t : Text} (hacc : Unbroken acc.reverse) :
    Unbroken (splitStream acc t).2 := by
  induction t generalizing acc with
  | nil => exact hacc
  | cons c t ih =>
    by_cases hc : c = '\n' ∨ c = '\r'
    · rw [splitStream_break hc]
      exact @ih [] unbroken_nil
    · rw [splitStream_keep hc]
      exact ih (unbroken_push hacc hc)

theorem textLines_append (a b : Text) :
    textLines (a ++ b) = (splitStream [] a).1 ++ textLines ((splitStream [] a).2 ++ b) := by
  unfold textLines
  rw [@splitStream_append [] _ _ unbroken_nil, List.append_assoc]

theorem textLines_unbroken {t : Text} (ht : Unbroken t) : textLines t = flush t := by
  rw [textLines, splitStream_unbroken ht]
  rfl

/-- **The loop emits the lines of what the chunks decode to.** -/
theorem tailLoop_eq {reads : List Bytes} {buffer : Text} (hbuffer : Unbroken buffer) :
    tailLoop buffer reads = textLines (buffer ++ reads.flatMap decode) := by
  induction reads generalizing buffer with
  | nil => rw [tailLoop, List.flatMap_nil, List.append_nil, textLines_unbroken hbuffer]
  | cons chunk reads ih =>
    rw [tailLoop, List.flatMap_cons]
    split
    · rename_i hchunk
      rw [ih hbuffer, hchunk]
      rfl
    · dsimp only
      rw [ih (@splitStream_rest [] _ unbroken_nil), ← List.append_assoc,
        textLines_append (buffer ++ decode chunk)]

/-- The reader's loop is the other, up to the read that ends it. -/
theorem readerLoop_eq {chunks : List Bytes} {buf : Text} (h : [] ∉ chunks) :
    readerLoop buf (chunks ++ [[]]) = tailLoop buf chunks := by
  induction chunks generalizing buf with
  | nil => rfl
  | cons chunk chunks ih =>
    have hchunk : chunk ≠ [] := fun hc => h (hc ▸ List.mem_cons_self)
    rw [List.cons_append, readerLoop, tailLoop, if_neg hchunk, if_neg hchunk]
    dsimp only
    rw [ih fun hm => h (List.mem_cons_of_mem _ hm)]

theorem flatMap_decode_filter (reads : List Bytes) :
    (reads.filter (· ≠ [])).flatMap decode = reads.flatMap decode := by
  induction reads with
  | nil => rfl
  | cons chunk reads ih =>
    by_cases hchunk : chunk = []
    · rw [List.filter_cons_of_neg (by simp [hchunk]), ih, List.flatMap_cons, hchunk]
      rfl
    · rw [List.filter_cons_of_pos (by simp [hchunk]), List.flatMap_cons, List.flatMap_cons, ih]

/-- What each of the two emits of a stream read in chunks. -/
theorem readerLines_eq (c : Chunking stream) (so : SetOrder) (secrets : List Text) :
    readerLines so secrets (c.chunks ++ [[]]) =
      (textLines (c.chunks.flatMap decode)).map fun line => maskSecrets so line secrets := by
  rw [readerLines, readerLoop_eq c.nonempty, tailLoop_eq unbroken_nil, List.nil_append]

theorem tailLines_eq (so : SetOrder) (secrets : List Text) (reads : List Bytes) :
    tailLines so secrets reads =
      (textLines (reads.flatMap decode)).map fun line => maskSecrets so line secrets := by
  rw [tailLines, tailLoop_eq unbroken_nil, List.nil_append]

theorem flatMap_decode_unsplit (stream : Bytes) :
    (Chunking.unsplit stream).chunks.flatMap decode = decode stream := by
  unfold Chunking.unsplit
  dsimp only
  split
  · rename_i h
    rw [h]
    rfl
  · exact List.flatMap_singleton decode stream

/-! ## Chunks that cut no character -/

theorem decode_flatten {chunks : List Bytes}
    (h : ∀ before after, before ++ after = chunks → ¬ CutInside before.flatten after.flatten) :
    decode chunks.flatten = chunks.flatMap decode := by
  induction chunks using List.reverseRecOn with
  | nil => rfl
  | append_singleton chunks chunk ih =>
    have hlast : ¬ CutInside chunks.flatten chunk := by
      have := h chunks [chunk] rfl
      rwa [List.flatten_singleton] at this
    rw [List.flatten_append, List.flatten_singleton, decode_append hlast, List.flatMap_append,
      List.flatMap_singleton, ih]
    intro before after heq hcut
    refine h before (after ++ [chunk]) (by rw [← List.append_assoc, heq]) ?_
    rw [List.flatten_append]
    exact hcut.append _

theorem ChunkFree.of_whole {c : Chunking stream} (h : c.Whole) : ChunkFree c := by
  have hdecode : c.chunks.flatMap decode = decode stream := by
    rw [← decode_flatten h, c.flatten]
  refine ⟨?_, ?_⟩
  · intro so secrets
    rw [readerLines_eq, readerLines_eq, hdecode, flatMap_decode_unsplit]
  · intro so secrets reads hreads
    rw [tailLines_eq, tailLines_eq, ← flatMap_decode_filter reads, hreads, hdecode,
      flatMap_decode_unsplit]

/-! ## Chunks that do -/

theorem replacements_flatten_le (chunks : List Bytes) :
    replacements (decode chunks.flatten) ≤ replacements (chunks.flatMap decode) := by
  induction chunks using List.reverseRecOn with
  | nil => exact Nat.le_refl 0
  | append_singleton chunks chunk ih =>
    have happend := replacements_decode_append_le chunks.flatten chunk
    rw [List.flatten_append, List.flatten_singleton, List.flatMap_append, List.flatMap_singleton,
      replacements_append]
    omega

/-- **A character that is cut shows in the number of replacements.** -/
theorem replacements_flatten_lt {chunks before after : List Bytes}
    (heq : before ++ after = chunks) (hcut : CutInside before.flatten after.flatten) :
    replacements (decode chunks.flatten) < replacements (chunks.flatMap decode) := by
  induction chunks using List.reverseRecOn generalizing after with
  | nil =>
    obtain ⟨rfl, rfl⟩ := List.append_eq_nil_iff.mp heq
    exact absurd hcut not_cutInside_nil
  | append_singleton chunks chunk ih =>
    have happend := replacements_decode_append_le chunks.flatten chunk
    have hflatten := replacements_flatten_le chunks
    rw [List.flatten_append, List.flatten_singleton, List.flatMap_append, List.flatMap_singleton,
      replacements_append]
    -- the cut lies before the last chunk, or at it
    induction after using List.reverseRecOn with
    | nil => exact absurd hcut not_cutInside_nil
    | append_singleton after last _ =>
      rw [← List.append_assoc] at heq
      obtain ⟨hchunks, hlast⟩ := List.append_inj' heq rfl
      obtain rfl := List.singleton_inj.mp hlast
      rw [List.flatten_append, List.flatten_singleton] at hcut
      by_cases hafter : after.flatten = []
      · rw [hafter, List.nil_append] at hcut
        have hwhole : chunks.flatten = before.flatten := by
          rw [← hchunks, List.flatten_append, hafter, List.append_nil]
        rw [hwhole] at happend hflatten ⊢
        have hlt := replacements_decode_append_lt hcut
        omega
      · have hlt := ih hchunks (hcut.of_append hafter)
        omega

/-! ## Secrets that hide everything else -/

/-- Every character of a text as a secret, but for replacements and asterisks. -/
def spelled (t : Text) : List Text :=
  (t.filter fun x => x ≠ Py.replacement ∧ x ≠ '*').map fun x => [x]

/-- Nothing but replacements and asterisks. -/
def Blank (t : Text) : Prop := ∀ x ∈ t, x = Py.replacement ∨ x = '*'

theorem replacements_mask : replacements MASK = 0 := by decide

theorem replaceFrom_single (x : Char) (t : Text) :
    replaceFrom [x] MASK 0 t = t.flatMap fun c => if c = x then MASK else [c] := by
  induction t with
  | nil => rfl
  | cons c t ih =>
    rw [replaceFrom, List.flatMap_cons]
    by_cases hc : c = x
    · rw [if_pos hc, if_pos (by simp [hc])]
      exact congrArg (MASK ++ ·) ih
    · have hne : ¬ x = c := fun h => hc h.symm
      rw [if_neg hc, if_neg (by simp [hne]), ih]
      rfl

theorem replacements_replace {x : Char} (hx : x ≠ Py.replacement) (t : Text) :
    replacements (replace t [x] MASK) = replacements t := by
  rw [replace, replaceFrom_single]
  induction t with
  | nil => rfl
  | cons c t ih =>
    rw [List.flatMap_cons, replacements_append, ih]
    split
    · rename_i hc
      rw [replacements_mask, hc, replacements_cons_of_ne hx, Nat.zero_add]
    · rw [← replacements_append, List.singleton_append]

theorem mem_replace {x y : Char} {t : Text} (h : y ∈ replace t [x] MASK) :
    y = '*' ∨ y ∈ t ∧ y ≠ x := by
  rw [replace, replaceFrom_single, List.mem_flatMap] at h
  obtain ⟨c, hc, hy⟩ := h
  split at hy
  · exact Or.inl (mask_stars y hy)
  · rename_i hne
    rw [List.mem_singleton.mp hy]
    exact Or.inr ⟨hc, hne⟩

/-- Replacing single characters, none of them a replacement, leaves the replacements and of
    the rest what is not one of them. -/
theorem foldl_replace_single {l : List Text}
    (hl : ∀ s ∈ l, ∃ x, s = [x] ∧ x ≠ Py.replacement) (t : Text) :
    replacements (l.foldl (fun t secret => replace t secret MASK) t) = replacements t ∧
      ∀ y ∈ l.foldl (fun t secret => replace t secret MASK) t,
        y = '*' ∨ y ∈ t ∧ [y] ∉ l := by
  induction l generalizing t with
  | nil => exact ⟨rfl, fun y hy => Or.inr ⟨hy, List.not_mem_nil⟩⟩
  | cons s l ih =>
    obtain ⟨x, rfl, hx⟩ := hl s List.mem_cons_self
    obtain ⟨hcount, hmem⟩ := ih (fun s hs => hl s (List.mem_cons_of_mem _ hs)) (replace t [x] MASK)
    refine ⟨?_, ?_⟩
    · rw [List.foldl_cons, hcount, replacements_replace hx]
    · intro y hy
      rw [List.foldl_cons] at hy
      rcases hmem y hy with hstar | ⟨hin, hnot⟩
      · exact Or.inl hstar
      · rcases mem_replace hin with hstar | ⟨ht, hne⟩
        · exact Or.inl hstar
        · exact Or.inr ⟨ht, by simp [hne, hnot]⟩

theorem mem_spelled {src s : Text} (h : s ∈ spelled src) :
    ∃ x, s = [x] ∧ x ≠ Py.replacement := by
  obtain ⟨x, hx, rfl⟩ := List.mem_map.mp h
  have := (List.mem_filter.mp hx).2
  simp only [decide_eq_true_eq] at this
  exact ⟨x, rfl, this.1⟩

theorem maskListed_spelled {so : SetOrder} {src t : Text} (ht : ∀ x ∈ t, x ∈ src) :
    replacements (maskListed so t (spelled src)) = replacements t ∧
      Blank (maskListed so t (spelled src)) := by
  obtain ⟨hcount, hmem⟩ := foldl_replace_single
    (l := longestFirst (so.order ((spelled src).filter (· ≠ []))))
    (fun s hs => mem_spelled (mem_longestFirst.mp hs).1) t
  refine ⟨hcount, ?_⟩
  intro y hy
  rcases hmem y hy with hstar | ⟨hin, hnot⟩
  · exact Or.inr hstar
  · by_contra h
    rw [not_or] at h
    refine hnot (mem_longestFirst.mpr ⟨?_, List.cons_ne_nil y []⟩)
    exact List.mem_map.mpr ⟨y, List.mem_filter.mpr ⟨ht y hin, by simp [h]⟩, rfl⟩

/-- No pattern begins with a replacement or an asterisk. -/
theorem privateKeyBlock_blank {c : Char} {before : Option Char} {t : Text}
    (hc : c = Py.replacement ∨ c = '*') : privateKeyBlock.matches before (c :: t) = [] := by
  rcases hc with rfl | rfl <;> rfl

theorem tokenValue_blank {c : Char} {before : Option Char} {t : Text}
    (hc : c = Py.replacement ∨ c = '*') : tokenValue.matches before (c :: t) = [] := by
  have hletter : ∀ before', (Re.seq (.ahead (.seq (.many true (.chr isTokenChar)) (.chr isLetter)))
      (.seq (.ahead (.seq (.many true (.chr isTokenChar)) (.chr isDecimal)))
        (.seq (Re.times 20 (.chr isTokenChar)) (.seq (.many true (.chr isTokenChar))
          (.notAhead (.chr isTokenChar)))))).matches before' (c :: t) = [] := by
    intro before'
    rcases hc with rfl | rfl <;> rfl
  rw [tokenValue, Re.matches, List.flatMap_eq_nil_iff]
  rintro ⟨u, t'⟩ hu
  rw [Re.matches] at hu
  split at hu
  · cases hu
  · obtain ⟨rfl, rfl⟩ := Prod.mk.inj (List.mem_singleton.mp hu)
    dsimp only
    rw [hletter]
    rfl

theorem inlineValuePatterns_blank {c : Char} {before : Option Char} {t : Text} {r : Re}
    (hr : r ∈ inlineValuePatterns) (hc : c = Py.replacement ∨ c = '*') :
    r.matches before (c :: t) = [] := by
  simp only [inlineValuePatterns, List.mem_cons, List.not_mem_nil, or_false] at hr
  rcases hr with rfl | rfl | rfl | rfl <;> rcases hc with rfl | rfl <;> rfl

theorem jwtValue_blank {t : Text} (ht : Blank t) : jwtValue.matches none t = [] := by
  cases t with
  | nil => rfl
  | cons c t => rcases ht c List.mem_cons_self with rfl | rfl <;> rfl

theorem groups_eq_none {r s : Re} {before : Option Char} {t : Text}
    (h : r.matches before t = []) : Re.groups r s before t = none := by
  rw [Re.groups, h]
  rfl

theorem groups_eps_eq_none {s : Re} {before : Option Char} {t : Text}
    (h : ∀ before, s.matches before t = []) : Re.groups .eps s before t = none := by
  unfold Re.groups
  simp only [Re.matches, List.flatMap_cons, List.flatMap_nil, h, List.map_nil, List.append_nil]
  rfl

theorem subFrom_blank {r s : Re} {repl : Text → Text → Text}
    (h : ∀ before c t, (c = Py.replacement ∨ c = '*') → Re.groups r s before (c :: t) = none)
    {before : Option Char} {t : Text} (ht : Blank t) : Re.subFrom r s repl 0 before t = t := by
  induction t generalizing before with
  | nil => rfl
  | cons c t ih =>
    rw [Re.subFrom, h before c t (ht c List.mem_cons_self)]
    dsimp only
    rw [ih fun x hx => ht x (List.mem_cons_of_mem _ hx)]

theorem foldl_blank {rs : List Re} (hrs : ∀ r ∈ rs, r ∈ inlineValuePatterns) {t : Text}
    (ht : Blank t) :
    rs.foldl (fun t head => Re.sub head nonSpaces (fun kept _ => kept ++ MASK) t) t = t := by
  induction rs with
  | nil => rfl
  | cons r rs ih =>
    have hr := hrs r List.mem_cons_self
    have hsub : Re.sub r nonSpaces (fun kept _ => kept ++ MASK) t = t :=
      subFrom_blank (fun _ _ _ hc => groups_eq_none (inlineValuePatterns_blank hr hc)) ht
    rw [List.foldl_cons, hsub, ih fun r hr => hrs r (List.mem_cons_of_mem _ hr)]

/-- **With these secrets, masking does nothing but hide what is not a replacement.** -/
theorem replacements_maskSecrets {so : SetOrder} {src t : Text} (ht : ∀ x ∈ t, x ∈ src) :
    replacements (maskSecrets so t (spelled src)) = replacements t := by
  obtain ⟨hcount, hblank⟩ := @maskListed_spelled so _ _ ht
  unfold maskSecrets
  split
  · rfl
  · dsimp only
    rw [show (longestFirst (so.order ((spelled src).filter (· ≠ [])))).foldl
      (fun t secret => replace t secret MASK) t = maskListed so t (spelled src) from rfl]
    rw [Re.sub, subFrom_blank
      (fun _ _ _ hc => groups_eps_eq_none fun _ => privateKeyBlock_blank hc) hblank,
      foldl_blank (fun _ hr => hr) hblank, if_neg (by simp [jwtValue_blank hblank]),
      Re.sub, subFrom_blank
        (fun _ _ _ hc => groups_eps_eq_none fun _ => tokenValue_blank hc) hblank, hcount]

/-! ## The exact condition -/

/-- The replacements in a list of lines. -/
def shown (lines : List Text) : Nat := (lines.map replacements).sum

theorem shown_append (lines lines' : List Text) :
    shown (lines ++ lines') = shown lines + shown lines' := by
  rw [shown, List.map_append, List.sum_append]
  rfl

theorem shown_cons (line : Text) (lines : List Text) :
    shown (line :: lines) = replacements line + shown lines := by
  rw [shown, List.map_cons, List.sum_cons]
  rfl

theorem shown_splitStream (acc t : Text) :
    shown (splitStream acc t).1 + replacements (splitStream acc t).2 =
      replacements acc.reverse + replacements t := by
  induction t generalizing acc with
  | nil => exact Nat.add_comm _ _
  | cons c t ih =>
    by_cases hc : c = '\n' ∨ c = '\r'
    · have hne : c ≠ Py.replacement := by
        rcases hc with rfl | rfl <;> decide
      have hrest := ih []
      rw [List.reverse_nil, replacements_nil] at hrest
      rw [splitStream_break hc, replacements_cons_of_ne hne]
      dsimp only
      rw [shown_cons]
      omega
    · rw [splitStream_keep hc, ih, List.reverse_cons, replacements_append, Nat.add_assoc,
        ← replacements_append]
      rfl

theorem shown_textLines (t : Text) : shown (textLines t) = replacements t := by
  have hsplit := shown_splitStream [] t
  rw [List.reverse_nil, replacements_nil] at hsplit
  have hflush : ∀ buf : Text, shown (flush buf) = replacements buf := by
    intro buf
    unfold flush
    split
    · rename_i h
      rw [h]
      rfl
    · exact Nat.add_zero _
  rw [textLines, shown_append, hflush]
  omega

theorem mem_textLines {t line : Text} (h : line ∈ textLines t) : ∀ x ∈ line, x ∈ t := by
  obtain ⟨hlines, hrest, -⟩ := @splitStream_spec [] t List.not_mem_nil
  rcases List.mem_append.mp h with h | h
  · exact fun x hx => (hlines line h).1.subset hx
  · unfold flush at h
    split at h
    · cases h
    · rw [List.mem_singleton.mp h]
      exact fun x hx => hrest.subset hx

/-- Masked with these secrets, the lines of a text show its replacements. -/
theorem shown_masked {so : SetOrder} {src t : Text} (ht : ∀ x ∈ t, x ∈ src) :
    shown ((textLines t).map fun line => maskSecrets so line (spelled src)) = replacements t := by
  have hlines : (textLines t).map (fun line => replacements (maskSecrets so line (spelled src))) =
      (textLines t).map replacements := by
    refine List.map_congr_left fun line hline => ?_
    exact replacements_maskSecrets fun x hx => ht x (mem_textLines hline x hx)
  rw [shown, List.map_map]
  calc ((textLines t).map fun line => replacements (maskSecrets so line (spelled src))).sum
      = shown (textLines t) := by rw [hlines]; rfl
    _ = replacements t := shown_textLines t

/-- **Log reading does not depend on chunking exactly if no chunk ends inside a character.** -/
theorem chunkFree_iff (c : Chunking stream) : ChunkFree c ↔ c.Whole := by
  constructor
  · intro h before after heq hcut
    have hlt := replacements_flatten_lt heq hcut
    rw [c.flatten] at hlt
    -- with every other character hidden, the lines show how often one was replaced
    let src := c.chunks.flatMap decode ++ decode stream
    have hlines := h.reader .firstSeen (spelled src)
    rw [readerLines_eq, readerLines_eq, flatMap_decode_unsplit] at hlines
    have hshown := congrArg shown hlines
    rw [shown_masked fun x hx => List.mem_append_left _ hx,
      shown_masked fun x hx => List.mem_append_right _ hx] at hshown
    omega
  · exact ChunkFree.of_whole

/-- The password `pä`, cut inside its second letter. -/
def cutStream : Bytes := [0x70, 0xc3, 0xa4, 0x0a]

def cutChunking : Chunking cutStream where
  chunks := [[0x70, 0xc3], [0xa4, 0x0a]]
  nonempty := by decide
  flatten := rfl

/-- **The line depends on where it was cut**, and shows what it can of the secret. -/
theorem cut_secret :
    ¬ ChunkFree cutChunking ∧
      readerLines .firstSeen ["pä".toList] (cutChunking.chunks ++ [[]]) =
        ["p\uFFFD\uFFFD".toList] ∧
      readerLines .firstSeen ["pä".toList] ((Chunking.unsplit cutStream).chunks ++ [[]]) =
        [MASK] := by
  have hcut : readerLines .firstSeen ["pä".toList] (cutChunking.chunks ++ [[]]) =
      ["p\uFFFD\uFFFD".toList] := by decide
  have hwhole : readerLines .firstSeen ["pä".toList]
      ((Chunking.unsplit cutStream).chunks ++ [[]]) = [MASK] := by decide
  refine ⟨?_, hcut, hwhole⟩
  intro h
  have heq := h.reader .firstSeen ["pä".toList]
  rw [hcut, hwhole] at heq
  exact absurd heq (by decide)

end Infinito.Jobs
