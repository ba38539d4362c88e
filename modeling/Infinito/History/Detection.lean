import Infinito.History.Document

/-!
# Secrets in a document

`contains_plaintext_secret` reads single lines; a document is a tree. Of an entry the reader
sees what stands on the line of its key, if the key starts the line and is a word
(`holds_key`); a line with a dash says nothing to it (`holds_dash`); the lines of a vault are
passed over, or say nothing either.

`detects_iff` adds this up: the reader is right about a document if and only if some secret is
seen, or its two kinds of error come together or not at all.
-/

set_option autoImplicit false

namespace Infinito.History

open Py Workspace

/-! ## The scan -/

section Scan

variable {block : Option Nat} {line : Text} {xs ys : List Text}

def stepBlock (block : Option Nat) (line : Text) : Option Nat :=
  if continues block line then block
  else if startsVaultBlock line then some (indentOf line)
  else none

def blockAfter (block : Option Nat) (lines : List Text) : Option Nat := lines.foldl stepBlock block

/-- Some line holds a secret. -/
def holds : Option Nat → List Text → Bool
  | _, [] => false
  | block, line :: lines =>
      (!continues block line && !startsVaultBlock line && isSecretLine line) ||
        holds (stepBlock block line) lines

theorem firstSecret_isSome (n : Nat) (lines : List Text) :
    (firstSecret block n lines).isSome = holds block lines := by
  induction lines generalizing block n with
  | nil => rfl
  | cons line lines ih =>
    unfold firstSecret holds stepBlock
    cases hcont : continues block line with
    | true =>
      rw [if_pos rfl, if_pos rfl, ih]
      rfl
    | false =>
      rw [if_neg Bool.false_ne_true, if_neg Bool.false_ne_true]
      cases hstart : startsVaultBlock line with
      | true =>
        rw [if_pos rfl, if_pos rfl, ih]
        rfl
      | false =>
        rw [if_neg Bool.false_ne_true, if_neg Bool.false_ne_true]
        cases isSecretLine line with
        | true => rfl
        | false =>
          rw [if_neg Bool.false_ne_true, ih]
          rfl

theorem contains_eq_holds (lines : List Text)
    (hlines : ∀ line ∈ lines, ∀ c ∈ line, isLineBreak c = false) :
    (containsPlaintextSecret (printLines lines)).1 = holds none lines := by
  unfold containsPlaintextSecret
  rw [splitlines_printLines hlines, ← firstSecret_isSome 1]
  cases firstSecret none 1 lines <;> rfl

theorem holds_append : holds block (xs ++ ys) = (holds block xs || holds (blockAfter block xs) ys) := by
  induction xs generalizing block with
  | nil => rfl
  | cons line xs ih =>
    rw [List.cons_append, holds, holds, ih, Bool.or_assoc]
    rfl

theorem blockAfter_append : blockAfter block (xs ++ ys) = blockAfter (blockAfter block xs) ys :=
  List.foldl_append

/-- A vault that is open is indented at least as much as the lines at `n`, so it ends there. -/
def Above (n : Nat) (block : Option Nat) : Prop := ∀ k ∈ block, n ≤ k

theorem Above.mono {m n : Nat} (h : Above n block) (hle : m ≤ n) : Above m block :=
  fun k hk => hle.trans (h k hk)

theorem above_none (n : Nat) : Above n none := fun _ hk => (nomatch hk)

theorem not_continues (habove : Above (indentOf line) block) (hline : strip line ≠ []) :
    continues block line = false := by
  cases block with
  | none => rfl
  | some k =>
    simp only [continues, Bool.or_eq_false_iff, decide_eq_false_iff_not]
    exact ⟨hline, Nat.not_lt.mpr (habove k rfl)⟩

end Scan

/-! ## Lines -/

section Line

variable {n : Nat} {c : Char} {t rest : Text} {sep : Char}

theorem lstrip_blanks (n : Nat) (t : Text) : lstrip (blanks n ++ t) = lstrip t := by
  induction n with
  | zero => rfl
  | succ n ih => exact ih

theorem keyBefore_blanks (sep : Char) (n : Nat) (t : Text) :
    keyBefore sep (blanks n ++ t) = keyBefore sep t := by
  unfold keyBefore
  rw [lstrip_blanks]

theorem lstrip_cons (hc : isSpace c = false) : lstrip (c :: t) = c :: t :=
  List.dropWhile_cons_of_neg (by rw [hc]; decide)

/-- What starts a line is seen by whoever strips it. -/
theorem strip_blanks_cons (n : Nat) (hc : isSpace c = false) :
    ∃ u, strip (blanks n ++ c :: t) = c :: u := by
  have hstrip : strip (blanks n ++ c :: t) = rstrip (c :: t) := by
    unfold strip
    rw [lstrip_blanks, lstrip_cons hc]
  rw [hstrip]
  cases hr : rstrip (c :: t) with
  | nil =>
    have := List.rdropWhile_eq_nil_iff.mp hr c List.mem_cons_self
    rw [hc] at this
    cases this
  | cons d u =>
    have hprefix : d :: u <+: c :: t := by
      rw [← hr]
      exact List.rdropWhile_prefix _ _
    rw [(List.cons_prefix_cons.mp hprefix).1]
    exact ⟨u, rfl⟩

theorem indentOf_blanks (n : Nat) (hc : c ≠ ' ') : indentOf (blanks n ++ c :: t) = n := by
  unfold indentOf blanks
  induction n with
  | zero => simp [hc]
  | succ n ih => simpa [List.replicate_succ] using ih

theorem ne_space (hc : isSpace c = false) : c ≠ ' ' := by
  rintro rfl
  exact absurd hc (by decide)

/-- A text that nobody takes for the rest of `key: !vault`. -/
def Tame (rest : Text) : Prop := ∀ r, lstrip rest = ':' :: r → startsWith (lstrip r) "!vault" = false

/-- A line with the dash of a list entry. -/
structure DashLine (m : Nat) (line : Text) : Prop where
  shape : ∃ tail, line = blanks m ++ '-' :: tail ∧
    (tail = [] ∨ ∃ rest, tail = ' ' :: rest ∧ Tame rest)

theorem keyBefore_dash {tail : Text} (htail : tail = [] ∨ ∃ rest, tail = ' ' :: rest) (sep : Char) :
    keyBefore sep ('-' :: tail) = match lstrip tail with
      | [] => none
      | c :: r => if c = sep then some (['-'], r) else none := by
  unfold keyBefore
  rw [lstrip_cons (by decide)]
  have htake : ('-' :: tail).takeWhile isKeyChar = ['-'] := by
    rcases htail with rfl | ⟨rest, rfl⟩ <;> rfl
  have hdrop : ('-' :: tail).dropWhile isKeyChar = tail := by
    rcases htail with rfl | ⟨rest, rfl⟩ <;> rfl
  dsimp only
  rw [htake, hdrop]
  cases lstrip tail <;> rfl

theorem DashLine.holds_none {m : Nat} {line : Text} {block : Option Nat} (h : DashLine m line)
    (habove : Above m block) :
    continues block line = false ∧ startsVaultBlock line = false ∧ isSecretLine line = false := by
  obtain ⟨tail, rfl, htail⟩ := h.shape
  have hshape : tail = [] ∨ ∃ rest, tail = ' ' :: rest :=
    htail.imp id fun ⟨rest, heq, _⟩ => ⟨rest, heq⟩
  have hkey (sep : Char) : keyBefore sep (blanks m ++ '-' :: tail) = match lstrip tail with
      | [] => none
      | c :: r => if c = sep then some (['-'], r) else none := by
    rw [keyBefore_blanks, keyBefore_dash hshape]
  refine ⟨not_continues (by rw [indentOf_blanks m (by decide)]; exact habove) ?_, ?_, ?_⟩
  · obtain ⟨u, hu⟩ := strip_blanks_cons (t := tail) m (show isSpace '-' = false by decide)
    rw [hu]
    exact List.cons_ne_nil _ _
  · unfold startsVaultBlock
    rw [hkey]
    rcases htail with rfl | ⟨rest, rfl, hrest⟩
    · rfl
    · cases hr : lstrip (' ' :: rest) with
      | nil => rfl
      | cons c r =>
        by_cases hc : c = ':'
        · rw [hc] at hr ⊢
          dsimp only
          rw [if_pos rfl]
          dsimp only
          rw [hrest r hr]
          rfl
        · dsimp only
          rw [if_neg hc]
  · have hdash : isSecretKey ['-'] = false := by decide +kernel
    have henv : isPlainEnvLine (blanks m ++ '-' :: tail) = false := by
      unfold isPlainEnvLine assignment
      rw [hkey]
      cases lstrip tail with
      | nil => rfl
      | cons c r =>
        dsimp only
        split
        · rename_i heq
          split at heq
          · cases heq
            rw [hdash]
            rfl
          · cases heq
        · rfl
    unfold isSecretLine
    dsimp only
    split
    · rfl
    split
    · rename_i key value hassign
      unfold assignment at hassign
      rw [hkey] at hassign
      cases hr : lstrip tail with
      | nil =>
        rw [hr] at hassign
        cases hassign
      | cons c r =>
        rw [hr] at hassign
        dsimp only at hassign
        split at hassign
        · cases hassign
          rw [hdash, if_neg Bool.false_ne_true]
          exact henv
        · cases hassign
    · exact henv

end Line

/-! ## Keys -/

section Keys

variable {c : Char} {t tail : Text} {sep : Char}

theorem not_space_of_isKeyChar (h : isKeyChar c = true) : isSpace c = false := by
  unfold isKeyChar at h
  unfold isSpace
  simp only [Bool.or_eq_true, Bool.and_eq_true, decide_eq_true_eq, beq_iff_eq] at h
  simp only [Bool.or_eq_false_iff, Bool.and_eq_false_iff, decide_eq_false_iff_not, beq_eq_false_iff_ne]
  rcases h with ((((h | h) | h) | rfl) | rfl) | rfl
  · omega
  · omega
  · omega
  · decide
  · decide
  · decide

theorem keyBefore_word (hword : t.all isKeyChar = true) (hne : t ≠ []) :
    keyBefore sep (t ++ ':' :: tail) = if ':' = sep then some (t, tail) else none := by
  obtain ⟨c, cs, rfl⟩ := List.exists_cons_of_ne_nil hne
  have hall : ∀ d ∈ c :: cs, isKeyChar d = true := List.all_eq_true.mp hword
  have htake : (c :: cs ++ ':' :: tail).takeWhile isKeyChar = c :: cs := by
    rw [List.takeWhile_append_of_pos hall, List.takeWhile_cons_of_neg (by decide), List.append_nil]
  have hdrop : (c :: cs ++ ':' :: tail).dropWhile isKeyChar = ':' :: tail := by
    rw [List.dropWhile_append_of_pos hall, List.dropWhile_cons_of_neg (by decide)]
  unfold keyBefore
  rw [List.cons_append, lstrip_cons (not_space_of_isKeyChar (hall c List.mem_cons_self)),
    ← List.cons_append]
  dsimp only
  rw [htake, hdrop, lstrip_cons (by decide)]

/-- A key that starts with what no name has in it. -/
theorem keyBefore_none (hspace : isSpace c = false) (hc : isKeyChar c = false) :
    keyBefore sep (c :: t) = none := by
  unfold keyBefore
  rw [lstrip_cons hspace]
  dsimp only
  rw [List.takeWhile_cons_of_neg (by rw [hc]; decide)]

/-- The blanks in front of a text that ends in none. -/
theorem lstrip_append {u v : Text} (hu : strip u ≠ []) : lstrip (u ++ v) = lstrip u ++ v := by
  unfold lstrip
  rw [List.dropWhile_append, if_neg]
  intro hnil
  refine hu ?_
  unfold strip lstrip
  rw [List.isEmpty_iff.mp hnil]
  rfl

/-- A trimmed text starts with no blank. -/
theorem trimmed_cons (hstrip : strip t = t) (hne : t ≠ []) :
    ∃ c cs, t = c :: cs ∧ isSpace c = false := by
  obtain ⟨c, cs, rfl⟩ := List.exists_cons_of_ne_nil hne
  refine ⟨c, cs, rfl, Bool.eq_false_iff.mpr fun hc => ?_⟩
  have hleft := (strip_eq_self_iff.mp hstrip).1
  rw [lstrip, List.dropWhile_cons_of_pos hc] at hleft
  have hlen := (List.dropWhile_suffix isSpace (l := cs)).length_le
  rw [hleft, List.length_cons] at hlen
  omega

theorem keyBefore_phrase (hstrip : strip t = t) (hchars : ∀ c ∈ t, c ≠ sep)
    (hword : t.all isKeyChar = false) : keyBefore sep (t ++ ':' :: tail) = none := by
  have hrest : t.dropWhile isKeyChar ≠ [] := by
    intro hnil
    rw [← Bool.not_eq_true] at hword
    exact hword (List.all_eq_true.mpr (List.dropWhile_eq_nil_iff.mp hnil))
  have hne : t ≠ [] := by
    rintro rfl
    cases hword
  -- the last character of the key is no blank, and stands behind its first word
  have hlast : strip (t.dropWhile isKeyChar) ≠ [] := by
    intro hnil
    have hblank := strip_eq_nil hnil _ (List.getLast_mem hrest)
    rw [(List.dropWhile_suffix _).getLast hrest] at hblank
    have := List.rdropWhile_eq_self_iff.mp (strip_eq_self_iff.mp hstrip).2 hne
    exact this hblank
  obtain ⟨c, cs, hcs, hhead⟩ := trimmed_cons hstrip hne
  have htake : (t ++ ':' :: tail).takeWhile isKeyChar = t.takeWhile isKeyChar := by
    rw [List.takeWhile_append, if_neg]
    intro hlen
    have hcut := congrArg List.length (List.takeWhile_append_dropWhile (p := isKeyChar) (l := t))
    rw [List.length_append, hlen] at hcut
    exact hrest (List.length_eq_zero_iff.mp (by omega))
  have hdrop : (t ++ ':' :: tail).dropWhile isKeyChar = t.dropWhile isKeyChar ++ ':' :: tail := by
    rw [List.dropWhile_append, if_neg fun hnil => hrest (List.isEmpty_iff.mp hnil)]
  unfold keyBefore
  rw [show lstrip (t ++ ':' :: tail) = t ++ ':' :: tail by
    rw [hcs, List.cons_append, lstrip_cons hhead]]
  dsimp only
  rw [htake, hdrop, lstrip_append hlast]
  cases t.takeWhile isKeyChar with
  | nil => rfl
  | cons k ks =>
    cases hd : lstrip (t.dropWhile isKeyChar) with
    | nil =>
      refine absurd ?_ hlast
      unfold strip
      rw [hd]
      rfl
    | cons d ds =>
      have hmem : d ∈ t := (List.dropWhile_suffix _).subset
        ((List.dropWhile_suffix (l := t.dropWhile isKeyChar) isSpace).subset
          (show d ∈ lstrip _ by rw [hd]; exact List.mem_cons_self))
      show (if d = sep then _ else none) = none
      rw [if_neg (hchars d hmem)]

theorem isPlainText_iff : isPlainText t = true ↔
    (∀ c ∈ t, isPrintable c = true) ∧ strip t = t ∧ startsPlain t = true ∧ t.getLast? ≠ some ':' ∧
      (t.tails.any fun u => startsWith u ": " || startsWith u " #") = false := by
  unfold isPlainText
  simp only [Bool.and_eq_true, decide_eq_true_eq, Bool.not_eq_true', List.all_eq_true, and_assoc]

theorem isPlainKey_iff : isPlainKey t = true ↔
    isPlainText t = true ∧ (∀ c ∈ t, c ≠ ':' ∧ c ≠ '=') ∧ startsWith t "---" = false ∧
      startsWith t "..." = false := by
  unfold isPlainKey
  simp only [Bool.and_eq_true, decide_eq_true_eq, Bool.not_eq_true', List.all_eq_true, and_assoc]

theorem ne_nil_of_plain (h : isPlainText t = true) : t ≠ [] := by
  rintro rfl
  cases h

/-- What the patterns make of the line of a key. -/
theorem keyBefore_source (key : Key) (hsep : sep = ':' ∨ sep = '=') :
    keyBefore sep (key.source ++ ':' :: tail) =
      if key.isWord = true ∧ sep = ':' then some (key.name, tail) else none := by
  cases key with
  | plain t h =>
    obtain ⟨htext, hchars, -⟩ := isPlainKey_iff.mp h
    show keyBefore sep (t ++ ':' :: tail) = if t.all isKeyChar = true ∧ sep = ':' then some (t, tail)
      else none
    cases hword : t.all isKeyChar with
    | true =>
      rw [keyBefore_word hword (ne_nil_of_plain htext)]
      rcases hsep with rfl | rfl
      · rfl
      · rfl
    | false =>
      rw [if_neg fun h => Bool.false_ne_true h.1]
      refine keyBefore_phrase (isPlainText_iff.mp htext).2.1 (fun c hc => ?_) hword
      rcases hsep with rfl | rfl
      · exact (hchars c hc).1
      · exact (hchars c hc).2
  | single t h => exact keyBefore_none (by decide) (by decide)
  | double t => exact keyBefore_none (by decide) (by decide)

/-- A key starts with no blank, and is no comment. -/
theorem source_cons (key : Key) :
    ∃ c cs, key.source = c :: cs ∧ isSpace c = false ∧ c ≠ '#' ∧ c ≠ ':' := by
  cases key with
  | plain t h =>
    obtain ⟨htext, hchars, -⟩ := isPlainKey_iff.mp h
    obtain ⟨-, hstrip, hstart, -⟩ := isPlainText_iff.mp htext
    obtain ⟨c, cs, rfl, hc⟩ := trimmed_cons hstrip (ne_nil_of_plain htext)
    refine ⟨c, cs, rfl, hc, ?_, (hchars c List.mem_cons_self).1⟩
    rintro rfl
    exact absurd hstart (by simp [startsPlain, indicators])
  | single t h => exact ⟨'\'', _, rfl, by decide, by decide, by decide⟩
  | double t => exact ⟨'"', _, rfl, by decide, by decide, by decide⟩

theorem isSecretKey_word {key : Key} (hword : key.isWord = true) :
    isSecretKey key.name = isSecretName key.name := by
  have hchars : ∀ c ∈ key.name, isKeyChar c = true := by
    cases key with
    | plain t h => exact List.all_eq_true.mp hword
    | single t h => cases hword
    | double t => cases hword
  have hmap : key.name.map foldCase = key.name.map asciiLower := by
    refine List.map_congr_left fun c hc => ?_
    have hc := hchars c hc
    have hne {d : Char} (hd : isKeyChar d = false) : c ≠ d := by
      rintro rfl
      rw [hd] at hc
      cases hc
    unfold foldCase
    rw [if_neg (hne (by decide)), if_neg, if_neg (hne (by decide))]
    simp [hne (show isKeyChar 'ı' = false by decide), hne (show isKeyChar 'İ' = false by decide)]
  unfold isSecretKey isSecretName
  rw [hmap]

end Keys

/-! ## Values -/

section Values

variable {c q : Char} {t u : Text}

theorem startsPlain_ne (h : startsPlain (c :: t) = true) (hc : c ∈ indicators) : False := by
  rw [startsPlain.eq_def] at h
  dsimp only at h
  split at h
  · rename_i hlead
    simp only [Bool.or_eq_true, decide_eq_true_eq] at hlead
    rcases hlead with (rfl | rfl) | rfl <;> exact absurd hc (by decide)
  · rw [List.contains_iff_mem.mpr hc] at h
    cases h

theorem startsWith_cons_ne {d : Char} (hcd : c ≠ d) : startsWith (c :: t) (d :: u) = false := by
  unfold startsWith
  rw [List.isPrefixOf_cons_cons, beq_eq_false_iff_ne.mpr hcd.symm]
  rfl

/-- Escapes leave it open to sight whether a text starts with braces. -/
theorem startsWith_braces {escape : Char → Text} (hbrace : escape '\x7b' = ['\x7b'])
    (hother : ∀ c, c ≠ '\x7b' → ∃ d ds, escape c = d :: ds ∧ d ≠ '\x7b') (hq : q ≠ '\x7b') :
    startsWith (t.flatMap escape ++ [q]) ['\x7b', '\x7b'] = startsWith t ['\x7b', '\x7b'] := by
  have hone (t : Text) : startsWith (t.flatMap escape ++ [q]) ['\x7b'] = startsWith t ['\x7b'] := by
    cases t with
    | nil => exact startsWith_cons_ne hq
    | cons c t =>
      rw [List.flatMap_cons]
      by_cases hc : c = '\x7b'
      · rw [hc, hbrace]
        rfl
      · obtain ⟨d, ds, hd, hne⟩ := hother c hc
        rw [hd, startsWith_cons_ne hc]
        exact startsWith_cons_ne hne
  cases t with
  | nil => exact startsWith_cons_ne hq
  | cons c t =>
    rw [List.flatMap_cons]
    by_cases hc : c = '\x7b'
    · rw [hc, hbrace]
      exact hone t
    · obtain ⟨d, ds, hd, hne⟩ := hother c hc
      rw [hd, startsWith_cons_ne hc]
      exact startsWith_cons_ne hne

theorem escapeSingle_other (c : Char) (hc : c ≠ '\x7b') :
    ∃ d ds, escapeSingle c = d :: ds ∧ d ≠ '\x7b' := by
  unfold escapeSingle
  split
  · exact ⟨_, _, rfl, by decide⟩
  · exact ⟨c, [], rfl, hc⟩

theorem escapeDouble_other (c : Char) (hc : c ≠ '\x7b') :
    ∃ d ds, escapeDouble c = d :: ds ∧ d ≠ '\x7b' := by
  unfold escapeDouble
  split
  · exact ⟨_, _, rfl, by decide⟩
  split
  · exact ⟨c, [], rfl, hc⟩
  · exact ⟨_, _, rfl, by decide⟩

theorem isBlockScalar_cons (hfold : c ≠ '>') (hliteral : c ≠ '|') : isBlockScalar (c :: u) = false := by
  unfold isBlockScalar
  simp [hfold, hliteral]

theorem lower_eq_tilde (h : lower t = "~".toList) : t = "~".toList := by
  cases t with
  | nil => cases h
  | cons c t =>
    obtain ⟨hc, ht⟩ := List.cons_eq_cons.mp (show (if c = '\u212a' then 'k' else asciiLower c) :: lower t =
      ['~'] from h)
    rw [List.map_eq_nil_iff.mp ht]
    split at hc
    · cases hc
    · have hnat := congrArg Char.toNat hc
      rw [asciiLower_toNat, show '~'.toNat = 126 from rfl] at hnat
      rw [← Char.ofNat_toNat c, show c.toNat = 126 by split at hnat <;> omega]
      rfl

theorem lower_quote_ne {word : Text} (hq : q = '\'' ∨ q = '"') (hword : ∀ c ∈ word.head?, c ≠ q) :
    lower (q :: u) ≠ word := by
  rintro rfl
  refine hword _ rfl ?_
  rcases hq with rfl | rfl <;> rfl

/-- A quoted value is plain unless it starts with braces behind its quote. -/
theorem plainValue_quoted (hq : q = '\'' ∨ q = '"') :
    isPlainYamlValue (q :: u) = !startsWith u ['\x7b', '\x7b'] := by
  have hne {d : Char} (hd : d ≠ '\'' ∧ d ≠ '"') : q ≠ d := by
    rcases hq with rfl | rfl
    · exact hd.1.symm
    · exact hd.2.symm
  have hbraces : (startsWith (q :: u) ['"', '\x7b', '\x7b'] ||
      startsWith (q :: u) ['\'', '\x7b', '\x7b']) = startsWith u ['\x7b', '\x7b'] := by
    rcases hq with rfl | rfl
    · rw [startsWith_cons_ne (by decide)]
      rfl
    · rw [Bool.or_comm, startsWith_cons_ne (by decide)]
      rfl
  have hnull : lower (q :: u) ≠ "null".toList := lower_quote_ne hq fun c hc => by
    cases hc
    exact (hne (by decide)).symm
  have htilde : lower (q :: u) ≠ "~".toList := lower_quote_ne hq fun c hc => by
    cases hc
    exact (hne (by decide)).symm
  unfold isPlainYamlValue
  rw [if_neg (List.cons_ne_nil _ _),
    show startsWith (q :: u) "!vault".toList = false from startsWith_cons_ne (hne (by decide)),
    show startsWith (q :: u) "$ANSIBLE_VAULT;".toList = false from startsWith_cons_ne (hne (by decide)),
    startsWith_cons_ne (hne (by decide)), if_neg (by decide), hbraces]
  cases startsWith u ['\x7b', '\x7b'] with
  | true => rfl
  | false =>
    rw [if_neg Bool.false_ne_true, isBlockScalar_cons (hne (by decide)) (hne (by decide)),
      if_neg Bool.false_ne_true, if_neg]
    · rfl
    · rw [decide_eq_false hnull, decide_eq_false htilde]
      exact Bool.false_ne_true

/-- An unquoted one is plain unless it is encrypted or null. -/
theorem plainValue_plain (h : isPlainText t = true) :
    isPlainYamlValue t = (!startsWith t "$ANSIBLE_VAULT;" && !(lower t = "null" || lower t = "~")) := by
  obtain ⟨-, -, hstart, -⟩ := isPlainText_iff.mp h
  obtain ⟨c, cs, rfl⟩ := List.exists_cons_of_ne_nil (ne_nil_of_plain h)
  have hne {d : Char} (hd : d ∈ indicators) : c ≠ d := by
    rintro rfl
    exact startsPlain_ne hstart hd
  unfold isPlainYamlValue
  rw [if_neg (List.cons_ne_nil _ _),
    show startsWith (c :: cs) "!vault".toList = false from startsWith_cons_ne (hne (by decide)),
    startsWith_cons_ne (hne (by decide)), Bool.false_or, Bool.or_false]
  cases startsWith (c :: cs) "$ANSIBLE_VAULT;".toList with
  | true => rfl
  | false =>
    rw [if_neg Bool.false_ne_true, startsWith_cons_ne (hne (by decide)),
      startsWith_cons_ne (hne (by decide)), if_neg (by decide),
      isBlockScalar_cons (hne (by decide)) (hne (by decide)), if_neg Bool.false_ne_true]
    cases (decide (lower (c :: cs) = "null".toList) || decide (lower (c :: cs) = "~".toList)) <;> rfl

theorem nulls_lower (h : nulls.contains t = true) : lower t = "null".toList ∨ lower t = "~".toList := by
  have hmem := List.contains_iff_mem.mp h
  simp only [nulls, List.mem_cons, List.not_mem_nil, or_false] at hmem
  rcases hmem with rfl | rfl | rfl | rfl
  · exact Or.inl (by decide)
  · exact Or.inl (by decide)
  · exact Or.inl (by decide)
  · exact Or.inr (by decide)

/-- What stands behind the colon, on the line of the key. -/
def YamlNode.after : YamlNode → Text
  | .scalar .null => []
  | .scalar s => ' ' :: s.source
  | .vault _ => " !vault |"
  | .mapping [] => [' ', '\x7b', '\x7d']
  | .list [] => " []"
  | _ => []

theorem strip_space (hstrip : strip t = t) : strip (' ' :: t) = t := by
  unfold strip
  rw [lstrip, List.dropWhile_cons_of_pos (by decide)]
  exact hstrip

theorem strip_quoted (hq : isSpace q = false) (u : Text) : strip (q :: u ++ [q]) = q :: u ++ [q] := by
  have hend : strip [q] = [q] := strip_of_no_space fun c hc => by
    rw [List.mem_singleton.mp hc]
    exact hq
  exact strip_cons_append hq hend (List.cons_ne_nil _ _) u

theorem secret_quoted {s : Scalar} (hs : s.isNull = false) :
    (!startsWith s.content ['\x7b', '\x7b']) =
      (s.isSecret || (s.content = [] || startsWith s.content "$ANSIBLE_VAULT;")) := by
  unfold Scalar.isSecret
  rw [hs]
  cases hcontent : s.content with
  | nil => rfl
  | cons c t =>
    cases hvault : startsWith (c :: t) "$ANSIBLE_VAULT;" with
    | true =>
      have hc : c = '$' := by
        by_contra hne
        rw [show startsWith (c :: t) "$ANSIBLE_VAULT;".toList = false from startsWith_cons_ne hne] at hvault
        cases hvault
      rw [hc, startsWith_cons_ne (by decide)]
      rfl
    | false => simp

/-- What the reader makes of a value behind its key. -/
theorem plainValue_after (v : YamlNode) :
    isPlainYamlValue (strip v.after) = ((v.isSecret && !v.spellsNull) || v.misread) := by
  cases v with
  | scalar s =>
    cases s with
    | null => rfl
    | plain t h =>
      obtain ⟨-, hstrip, hstart, -⟩ := isPlainText_iff.mp h
      show isPlainYamlValue (strip (' ' :: t)) = (((!nulls.contains t && t ≠ [] &&
        !startsWith t "$ANSIBLE_VAULT;" && !startsWith t ['\x7b', '\x7b']) &&
          !(lower t = "null")) || false)
      have hbrace : startsWith t ['\x7b', '\x7b'] = false := by
        obtain ⟨c, cs, rfl⟩ := List.exists_cons_of_ne_nil (ne_nil_of_plain h)
        refine startsWith_cons_ne ?_
        rintro rfl
        exact startsPlain_ne hstart (by decide)
      rw [strip_space hstrip, plainValue_plain h, hbrace, decide_eq_true (ne_nil_of_plain h)]
      cases hnull : nulls.contains t with
      | true =>
        rcases nulls_lower hnull with hlower | hlower
        · simp [hlower]
        · simp [hlower]
      | false =>
        have htilde : lower t ≠ "~".toList := by
          intro hlower
          rw [lower_eq_tilde hlower] at hnull
          exact absurd hnull (by decide)
        rw [decide_eq_false htilde]
        simp
    | single t h =>
      rw [show strip (YamlNode.after (.scalar (.single t h))) = '\'' :: (t.flatMap escapeSingle ++ ['\''])
        from strip_space (strip_quoted (by decide) (t.flatMap escapeSingle)),
        plainValue_quoted (Or.inl rfl), startsWith_braces rfl escapeSingle_other (by decide)]
      show _ = (((Scalar.single t h).isSecret && true) || _)
      rw [Bool.and_true]
      exact secret_quoted (s := .single t h) rfl
    | double t =>
      rw [show strip (YamlNode.after (.scalar (.double t))) = '"' :: (t.flatMap escapeDouble ++ ['"'])
        from strip_space (strip_quoted (by decide) (t.flatMap escapeDouble)),
        plainValue_quoted (Or.inr rfl), startsWith_braces (by decide) escapeDouble_other (by decide)]
      show _ = (((Scalar.double t).isSecret && true) || _)
      rw [Bool.and_true]
      exact secret_quoted (s := .double t) rfl
  | vault ls => exact (show isPlainYamlValue (strip " !vault |".toList) = false by decide)
  | mapping items =>
    cases items with
    | nil => exact (show isPlainYamlValue (strip [' ', '\x7b', '\x7d']) = true by decide)
    | cons item items => rfl
  | list items =>
    cases items with
    | nil => exact (show isPlainYamlValue (strip " []".toList) = true by decide)
    | cons item items => rfl

def YamlNode.isVault : YamlNode → Bool
  | .vault _ => true
  | _ => false

/-- `!vault |`, behind a colon. -/
def opensVault (tail : Text) : Bool :=
  startsWith (lstrip tail) "!vault" && startsWith (lstrip ((lstrip tail).drop 6)) "|"

theorem opensVault_after (v : YamlNode) : opensVault v.after = v.isVault := by
  have hscalar {c : Char} {t : Text} (hspace : isSpace c = false) (hc : c ≠ '!') :
      opensVault (' ' :: c :: t) = false := by
    unfold opensVault
    rw [show lstrip (' ' :: c :: t) = c :: t from lstrip_cons hspace,
      show startsWith (c :: t) "!vault".toList = false from startsWith_cons_ne hc]
    rfl
  cases v with
  | scalar s =>
    cases s with
    | null => rfl
    | plain t h =>
      obtain ⟨-, hstrip, hstart, -⟩ := isPlainText_iff.mp h
      obtain ⟨c, cs, rfl, hspace⟩ := trimmed_cons hstrip (ne_nil_of_plain h)
      refine hscalar hspace ?_
      rintro rfl
      exact startsPlain_ne hstart (by decide)
    | single t h => exact hscalar (by decide) (by decide)
    | double t => exact hscalar (by decide) (by decide)
  | vault ls => exact (show opensVault " !vault |".toList = true by decide)
  | mapping items =>
    cases items with
    | nil => exact (show opensVault [' ', '\x7b', '\x7d'] = false by decide)
    | cons item items => rfl
  | list items =>
    cases items with
    | nil => exact (show opensVault " []".toList = false by decide)
    | cons item items => rfl

end Values

/-! ## Entries, one by one -/

section Entries

variable {l : Layout} {n : Nat} {before tail : Text} {block : Option Nat} {key : Key} {v : YamlNode}

/-- What stands below the line of a key. -/
def YamlNode.under (l : Layout) (n : Nat) : YamlNode → List Text
  | .scalar _ => []
  | .vault ls => ls.map fun t => blanks (n + l.width) ++ t.1
  | .mapping items => mappingLines l (n + l.width) (blanks (n + l.width)) items
  | .list items => listLines l (n + l.shift) (blanks (n + l.shift)) items

theorem lines_key (v : YamlNode) : v.lines l false n before = (before ++ v.after) :: v.under l n := by
  cases v with
  | scalar s =>
    cases s with
    | null => exact congrArg (· :: []) (List.append_nil _).symm
    | plain t h => rfl
    | single t h => rfl
    | double t => rfl
  | vault ls => rfl
  | mapping items =>
    cases items with
    | nil => rfl
    | cons item items => exact congrArg (· :: _) (List.append_nil _).symm
  | list items =>
    cases items with
    | nil => rfl
    | cons item items => exact congrArg (· :: _) (List.append_nil _).symm

/-- The line of a key that starts its line. -/
theorem key_line (key : Key) (habove : Above n block) :
    continues block (blanks n ++ (key.source ++ ':' :: tail)) = false ∧
      startsVaultBlock (blanks n ++ (key.source ++ ':' :: tail)) = (key.isWord && opensVault tail) ∧
      indentOf (blanks n ++ (key.source ++ ':' :: tail)) = n ∧
      isSecretLine (blanks n ++ (key.source ++ ':' :: tail)) =
        (key.isWord && isSecretName key.name && isPlainYamlValue (strip tail)) := by
  obtain ⟨c, cs, hsource, hspace, hcomment, -⟩ := source_cons key
  have hline : key.source ++ ':' :: tail = c :: (cs ++ ':' :: tail) := by rw [hsource]; rfl
  have hindent : indentOf (blanks n ++ (key.source ++ ':' :: tail)) = n := by
    rw [hline]
    exact indentOf_blanks n (ne_space hspace)
  obtain ⟨u, hu⟩ := strip_blanks_cons (t := cs ++ ':' :: tail) n hspace
  refine ⟨not_continues (by rw [hindent]; exact habove) ?_, ?_, hindent, ?_⟩
  · rw [hline, hu]
    exact List.cons_ne_nil _ _
  · unfold startsVaultBlock
    rw [keyBefore_blanks, keyBefore_source key (Or.inl rfl)]
    cases key.isWord with
    | true => rfl
    | false => rfl
  · have hassign : assignment ':' (blanks n ++ (key.source ++ ':' :: tail)) =
        if key.isWord = true then some (key.name, strip tail) else none := by
      unfold assignment
      rw [keyBefore_blanks, keyBefore_source key (Or.inl rfl)]
      cases key.isWord with
      | true => rfl
      | false => rfl
    have henv : isPlainEnvLine (blanks n ++ (key.source ++ ':' :: tail)) = false := by
      unfold isPlainEnvLine assignment
      rw [keyBefore_blanks, keyBefore_source key (Or.inr rfl), if_neg fun h => absurd h.2 (by decide)]
      rfl
    unfold isSecretLine
    rw [hassign, henv, hline, hu]
    dsimp only
    rw [if_neg (by simpa using startsWith_cons_ne hcomment)]
    cases hword : key.isWord with
    | false => rfl
    | true =>
      rw [if_pos rfl]
      dsimp only
      rw [isSecretKey_word hword]
      cases isSecretName key.name <;> rfl

theorem tame_cons {c : Char} {t : Text} (hspace : isSpace c = false) (hc : c ≠ ':') : Tame (c :: t) := by
  intro r hr
  rw [lstrip_cons hspace] at hr
  exact absurd (List.cons_eq_cons.mp hr).1 hc

theorem tame_plain {t : Text} (h : isPlainText t = true) : Tame t := by
  obtain ⟨hchars, hstrip, hstart, -⟩ := isPlainText_iff.mp h
  obtain ⟨c, cs, rfl, hspace⟩ := trimmed_cons hstrip (ne_nil_of_plain h)
  by_cases hc : c = ':'
  · intro r hr
    rw [lstrip_cons hspace] at hr
    cases (List.cons_eq_cons.mp hr).2
    rw [hc] at hstart
    cases cs with
    | nil => cases hstart
    | cons d ds =>
      rw [startsPlain.eq_def] at hstart
      simp only [decide_true, Bool.or_true, if_true, Bool.and_eq_true, decide_eq_true_eq] at hstart
      have hd := hchars d (List.mem_cons_of_mem _ List.mem_cons_self)
      simp only [isPrintable, Bool.or_eq_true, decide_eq_true_eq, hstart.1, false_or,
        Bool.and_eq_true, Bool.not_eq_true'] at hd
      rw [lstrip_cons hd.1.1]
      exact startsWith_cons_ne hstart.2
  · exact tame_cons hspace hc

/-- The dashes of nested lists on one line. -/
def dashes (j : Nat) : Text := (List.replicate j ['-', ' ']).flatten

theorem dashes_succ (j : Nat) : dashes (j + 1) = dashes j ++ ['-', ' '] := by
  unfold dashes
  rw [List.replicate_succ', List.flatten_concat]

theorem dashLine_key (m j : Nat) (key : Key) (tail : Text) :
    DashLine m (blanks m ++ dashes (j + 1) ++ (key.source ++ ':' :: tail)) := by
  refine ⟨_, List.append_assoc _ _ _, Or.inr ⟨dashes j ++ (key.source ++ ':' :: tail), rfl, ?_⟩⟩
  cases j with
  | zero =>
    obtain ⟨c, cs, hsource, hspace, -, hc⟩ := source_cons key
    rw [hsource]
    exact tame_cons hspace hc
  | succ j => exact tame_cons (by decide) (by decide)

theorem dashLine_value (m j : Nat) (v : YamlNode) :
    DashLine m (blanks m ++ dashes j ++ ['-'] ++ v.after) := by
  cases j with
  | zero =>
    refine ⟨v.after, by simp [dashes], ?_⟩
    cases v with
    | scalar s =>
      cases s with
      | null => exact Or.inl rfl
      | plain t h => exact Or.inr ⟨t, rfl, tame_plain h⟩
      | single t h => exact Or.inr ⟨_, rfl, tame_cons (by decide) (by decide)⟩
      | double t => exact Or.inr ⟨_, rfl, tame_cons (by decide) (by decide)⟩
    | vault ls => exact Or.inr ⟨"!vault |".toList, rfl, tame_cons (by decide) (by decide)⟩
    | mapping items =>
      cases items with
      | nil => exact Or.inr ⟨['\x7b', '\x7d'], rfl, tame_cons (by decide) (by decide)⟩
      | cons item items => exact Or.inl rfl
    | list items =>
      cases items with
      | nil => exact Or.inr ⟨"[]".toList, rfl, tame_cons (by decide) (by decide)⟩
      | cons item items => exact Or.inl rfl
  | succ j =>
    refine ⟨' ' :: (dashes j ++ ['-'] ++ v.after), ?_, Or.inr ⟨_, rfl, ?_⟩⟩
    · simp [dashes, List.replicate_succ]
    · cases j with
      | zero => exact tame_cons (by decide) (by decide)
      | succ j => exact tame_cons (by decide) (by decide)

/-- What the reader says about an entry. -/
def Entry.reported (e : Entry) : Bool :=
  isSecretName e.key.name && e.seen && ((e.value.isSecret && !e.value.spellsNull) || e.value.misread)

/-- The line of an entry: it is reported there, and opens a vault that it has. -/
theorem entry_line {m : Nat} (j : Nat) (key : Key) (v : YamlNode) (habove : Above m block) :
    let line := blanks m ++ dashes j ++ (key.source ++ ':' :: v.after)
    (!continues block line && !startsVaultBlock line && isSecretLine line) =
        Entry.reported ⟨decide (j ≠ 0), key, v⟩ ∧
      stepBlock block line = if j = 0 ∧ key.isWord = true ∧ v.isVault = true then some m else none := by
  intro line
  cases j with
  | zero =>
    have hline : line = blanks m ++ (key.source ++ ':' :: v.after) := by simp [line, dashes]
    obtain ⟨hcont, hvault, hindent, hsecret⟩ := @key_line _ v.after _ key habove
    unfold stepBlock Entry.reported Entry.seen
    rw [hline, hcont, hvault, hindent, hsecret, opensVault_after, plainValue_after]
    cases key.isWord with
    | false => simp
    | true =>
      cases v with
      | vault ls => simp [YamlNode.isVault, YamlNode.isSecret, YamlNode.misread]
      | scalar s => simp [YamlNode.isVault]
      | mapping items => simp [YamlNode.isVault]
      | list items => simp [YamlNode.isVault]
  | succ j =>
    obtain ⟨hcont, hvault, hsecret⟩ := (dashLine_key m j key v.after).holds_none habove
    unfold stepBlock Entry.reported Entry.seen
    rw [show line = _ from rfl, hcont, hvault, hsecret]
    simp

theorem keyBefore_absent {sep : Char} {line : Text} (hsep : sep ∉ line) : keyBefore sep line = none := by
  unfold keyBefore
  dsimp only
  cases (lstrip line).takeWhile isKeyChar with
  | nil => rfl
  | cons k ks =>
    cases hrest : lstrip ((lstrip line).dropWhile isKeyChar) with
    | nil => rfl
    | cons c rest =>
      have hmem : c ∈ lstrip ((lstrip line).dropWhile isKeyChar) := by
        rw [hrest]
        exact List.mem_cons_self
      show (if c = sep then _ else none) = none
      refine if_neg fun hc => hsep ?_
      rw [← hc]
      exact (List.dropWhile_suffix _).subset ((List.dropWhile_suffix _).subset
        ((List.dropWhile_suffix _).subset hmem))

/-- A vault line under an open vault belongs to it; elsewhere it says nothing. -/
theorem vault_line {k : Nat} (t : VaultLine) (hn : n < k) (hblock : block = none ∨ block = some n) :
    (!continues block (blanks k ++ t.1) && !startsVaultBlock (blanks k ++ t.1) &&
        isSecretLine (blanks k ++ t.1)) = false ∧ stepBlock block (blanks k ++ t.1) = block := by
  obtain ⟨t, ht⟩ := t
  obtain ⟨hne, hchars⟩ := Bool.and_eq_true_iff.mp ht
  obtain ⟨c, cs, rfl⟩ := List.exists_cons_of_ne_nil (of_decide_eq_true hne)
  have hmem {d : Char} (hd : d ∈ c :: cs) : isKeyChar d = true ∨ d = '$' ∨ d = ';' := by
    have := List.all_eq_true.mp hchars d hd
    simpa only [Bool.or_eq_true, decide_eq_true_eq, or_assoc] using this
  have hspace : isSpace c = false := by
    rcases hmem List.mem_cons_self with hc | rfl | rfl
    · exact not_space_of_isKeyChar hc
    · decide
    · decide
  have hindent : indentOf (blanks k ++ c :: cs) = k := indentOf_blanks k (ne_space hspace)
  rcases hblock with rfl | rfl
  · have hkey {sep : Char} (hsep : sep = ':' ∨ sep = '=') : keyBefore sep (blanks k ++ c :: cs) = none := by
      rw [keyBefore_blanks]
      refine keyBefore_absent fun hd => ?_
      rcases hsep with rfl | rfl
      · rcases hmem hd with hd | hd | hd <;> revert hd <;> decide
      · rcases hmem hd with hd | hd | hd <;> revert hd <;> decide
    have hvault : startsVaultBlock (blanks k ++ c :: cs) = false := by
      unfold startsVaultBlock
      rw [hkey (Or.inl rfl)]
    have hsecret : isSecretLine (blanks k ++ c :: cs) = false := by
      unfold isSecretLine isPlainEnvLine assignment
      rw [hkey (Or.inl rfl), hkey (Or.inr rfl)]
      simp
    unfold stepBlock
    rw [hvault, hsecret]
    exact ⟨rfl, rfl⟩
  · have hcont : continues (some n) (blanks k ++ c :: cs) = true := by
      show (_ || decide (n < indentOf _)) = true
      rw [hindent, decide_eq_true hn, Bool.or_true]
    unfold stepBlock
    rw [hcont]
    exact ⟨rfl, rfl⟩

theorem vault_lines {k : Nat} (ls : List VaultLine) (hn : n < k)
    (hblock : block = none ∨ block = some n) :
    holds block (ls.map fun t => blanks k ++ t.1) = false ∧
      blockAfter block (ls.map fun t => blanks k ++ t.1) = block := by
  induction ls with
  | nil => exact ⟨rfl, rfl⟩
  | cons t ls ih =>
    obtain ⟨hsecret, hstep⟩ := vault_line t hn hblock
    constructor
    · rw [List.map_cons, holds, hsecret, hstep, Bool.false_or]
      exact ih.1
    · show blockAfter (stepBlock block _) _ = block
      rw [hstep]
      exact ih.2

/-- The lines below a key, from the state its line leaves. -/
def HoldsUnder (l : Layout) (v : YamlNode) : Prop :=
  ∀ n block, block = none ∨ v.isVault = true ∧ block = some n →
    holds block (v.under l n) = (v.entries false).any Entry.reported ∧
      Above n (blockAfter block (v.under l n))

/-- The lines of a list entry, its dash behind others. -/
def HoldsDash (l : Layout) (v : YamlNode) : Prop :=
  ∀ m j n block before, before = blanks m ++ dashes j ++ ['-'] → n = m + 2 * j → Above m block →
    holds block (v.lines l true n before) = (v.entries true).any Entry.reported ∧
      Above n (blockAfter block (v.lines l true n before))

def HoldsMapping (l : Layout) (items : List (Key × YamlNode)) : Prop :=
  ∀ m j n block lead, lead = blanks m ++ dashes j → n = m + 2 * j → Above m block →
    holds block (mappingLines l n lead items) =
        (mappingEntries (decide (j ≠ 0)) items).any Entry.reported ∧
      (items ≠ [] → Above n (blockAfter block (mappingLines l n lead items)))

def HoldsList (l : Layout) (items : List YamlNode) : Prop :=
  ∀ m j n block lead, lead = blanks m ++ dashes j → n = m + 2 * j → Above m block →
    holds block (listLines l n lead items) = (listEntries items).any Entry.reported ∧
      (items ≠ [] → Above n (blockAfter block (listLines l n lead items)))

theorem blanks_dashes (n : Nat) : blanks n = blanks n ++ dashes 0 := (List.append_nil _).symm

/-- A list entry with nothing on further lines, or with a vault there. -/
theorem holdsDash_closed (hlines : ∀ n before, v.lines l true n before =
    (before ++ v.after) :: v.under l n)
    (hunder : ∀ n, holds none (v.under l n) = false ∧ blockAfter none (v.under l n) = none)
    (hentries : v.entries true = []) : HoldsDash l v := by
  rintro m j n block before rfl rfl habove
  obtain ⟨hcont, hvault, hsecret⟩ := (dashLine_value m j v).holds_none habove
  have hstep : stepBlock block (blanks m ++ dashes j ++ ['-'] ++ v.after) = none := by
    unfold stepBlock
    rw [hcont, hvault]
    rfl
  rw [hlines, hentries]
  constructor
  · rw [holds, hsecret, hstep, Bool.and_false, Bool.false_or]
    exact (hunder _).1
  · show Above _ (blockAfter (stepBlock block _) _)
    rw [hstep, (hunder _).2]
    exact above_none _

theorem holdsMapping_cons {items : List (Key × YamlNode)} (hv : HoldsUnder l v)
    (hitems : HoldsMapping l items) :
    HoldsMapping l ((key, v) :: items) := by
  rintro m j n block lead rfl hn habove
  have hsplit : mappingLines l n (blanks m ++ dashes j) ((key, v) :: items) =
      ((blanks m ++ dashes j ++ (key.source ++ ':' :: v.after)) :: v.under l n) ++
        mappingLines l n (blanks n) items := by
    show v.lines l false n (blanks m ++ dashes j ++ key.source ++ [':']) ++ _ = _
    rw [lines_key]
    simp
  obtain ⟨hsecret, hstep⟩ := entry_line j key v habove
  -- the state behind the line of the key: nothing open, or the vault of this very entry
  have hblock : stepBlock block (blanks m ++ dashes j ++ (key.source ++ ':' :: v.after)) = none ∨
      v.isVault = true ∧
        stepBlock block (blanks m ++ dashes j ++ (key.source ++ ':' :: v.after)) = some n := by
    rw [hstep]
    split
    · rename_i h
      refine Or.inr ⟨h.2.2, ?_⟩
      rw [hn, h.1]
      rfl
    · exact Or.inl rfl
  obtain ⟨hunder, hafter⟩ := hv n _ hblock
  obtain ⟨hrest, hlast⟩ := hitems n 0 n _ _ (blanks_dashes n) rfl hafter
  rw [hsplit]
  constructor
  · rw [holds_append, holds, hsecret, hunder]
    show (_ || holds (blockAfter (stepBlock block _) _) _) = _
    rw [hrest, mappingEntries, List.any_cons, List.any_append, Bool.or_assoc]
    rfl
  · intro _
    rw [blockAfter_append]
    show Above n (blockAfter (blockAfter (stepBlock block _) _) _)
    cases items with
    | nil => exact hafter
    | cons item items => exact hlast (List.cons_ne_nil _ _)

theorem holdsList_cons {items : List YamlNode} (hv : HoldsDash l v) (hitems : HoldsList l items) :
    HoldsList l (v :: items) := by
  rintro m j n block lead rfl hn habove
  obtain ⟨hfirst, hafter⟩ := hv m j n block _ rfl hn habove
  obtain ⟨hrest, hlast⟩ := hitems n 0 n _ _ (blanks_dashes n) rfl hafter
  constructor
  · rw [listLines, holds_append, hfirst, hrest, listEntries, List.any_append]
  · intro _
    rw [listLines, blockAfter_append]
    cases items with
    | nil => exact hafter
    | cons item items => exact hlast (List.cons_ne_nil _ _)

/-- A key with entries below it. -/
theorem holdsUnder_nested (hvault : v.isVault = false)
    (h : ∀ n, ∃ k, n ≤ k ∧ holds none (v.under l n) = (v.entries false).any Entry.reported ∧
      (v.under l n ≠ [] → Above k (blockAfter none (v.under l n)))) : HoldsUnder l v := by
  intro n block hblock
  obtain rfl | ⟨hopen, -⟩ := hblock
  · obtain ⟨k, hk, hholds, hafter⟩ := h n
    refine ⟨hholds, ?_⟩
    by_cases hnil : v.under l n = []
    · rw [hnil]
      exact above_none n
    · exact (hafter hnil).mono hk
  · rw [hvault] at hopen
    cases hopen

mutual

theorem holds_node (l : Layout) : ∀ v : YamlNode, HoldsUnder l v ∧ HoldsDash l v
  | .scalar s => by
    refine ⟨fun n block hblock => ?_, ?_⟩
    · obtain rfl | ⟨hvault, -⟩ := hblock
      · exact ⟨rfl, above_none n⟩
      · cases hvault
    · refine holdsDash_closed (fun n before => ?_) (fun n => ⟨rfl, rfl⟩) rfl
      cases s with
      | null => exact congrArg (· :: []) (List.append_nil _).symm
      | plain t h => rfl
      | single t h => rfl
      | double t => rfl
  | .vault ls => by
    refine ⟨fun n block hblock => ?_, ?_⟩
    · have hblock : block = none ∨ block = some n := hblock.imp id And.right
      obtain ⟨hholds, hafter⟩ := vault_lines ls (Nat.lt_add_of_pos_right l.deeper) hblock
      refine ⟨hholds, ?_⟩
      show Above n (blockAfter block (ls.map fun t => blanks (n + l.width) ++ t.1))
      rw [hafter]
      rcases hblock with rfl | rfl
      · exact above_none n
      · exact fun k hk => (Option.mem_some_iff.mp hk).le
    · exact holdsDash_closed (fun n before => rfl)
        (fun n => vault_lines ls (Nat.lt_add_of_pos_right l.deeper) (Or.inl rfl)) rfl
  | .mapping items => by
    have hitems := holds_mapping l items
    refine ⟨holdsUnder_nested rfl fun n => ?_, ?_⟩
    · obtain ⟨hholds, hafter⟩ := hitems (n + l.width) 0 _ none _ (blanks_dashes _) rfl (above_none _)
      refine ⟨n + l.width, Nat.le_add_right _ _, hholds, fun hne => hafter ?_⟩
      rintro rfl
      exact hne rfl
    · cases items with
      | nil => exact holdsDash_closed (fun n before => rfl) (fun n => ⟨rfl, rfl⟩) rfl
      | cons item items =>
        rintro m j n block before rfl rfl habove
        obtain ⟨hholds, hafter⟩ := hitems m (j + 1) (m + 2 * j + 2) block
          (blanks m ++ dashes j ++ ['-'] ++ [' ']) (by rw [dashes_succ]; simp) (by omega) habove
        exact ⟨hholds, (hafter (List.cons_ne_nil _ _)).mono (Nat.le_add_right _ _)⟩
  | .list items => by
    have hitems := holds_list l items
    refine ⟨holdsUnder_nested rfl fun n => ?_, ?_⟩
    · obtain ⟨hholds, hafter⟩ := hitems (n + l.shift) 0 _ none _ (blanks_dashes _) rfl (above_none _)
      refine ⟨n + l.shift, Nat.le_add_right _ _, hholds, fun hne => hafter ?_⟩
      rintro rfl
      exact hne rfl
    · cases items with
      | nil => exact holdsDash_closed (fun n before => rfl) (fun n => ⟨rfl, rfl⟩) rfl
      | cons item items =>
        rintro m j n block before rfl rfl habove
        obtain ⟨hholds, hafter⟩ := hitems m (j + 1) (m + 2 * j + 2) block
          (blanks m ++ dashes j ++ ['-'] ++ [' ']) (by rw [dashes_succ]; simp) (by omega) habove
        exact ⟨hholds, (hafter (List.cons_ne_nil _ _)).mono (Nat.le_add_right _ _)⟩

theorem holds_mapping (l : Layout) : ∀ items : List (Key × YamlNode), HoldsMapping l items
  | [] => fun _ _ _ _ _ _ _ _ => ⟨rfl, fun h => absurd rfl h⟩
  | (_, v) :: items => holdsMapping_cons (holds_node l v).1 (holds_mapping l items)

theorem holds_list (l : Layout) : ∀ items : List YamlNode, HoldsList l items
  | [] => fun _ _ _ _ _ _ _ _ => ⟨rfl, fun h => absurd rfl h⟩
  | v :: items => holdsList_cons (holds_node l v).2 (holds_list l items)

end

end Entries

/-! ## No line is cut -/

section Unbroken

variable {l : Layout} {t u : Text}

def Unbroken (line : Text) : Prop := ∀ c ∈ line, isLineBreak c = false

theorem Unbroken.append (ht : Unbroken t) (hu : Unbroken u) : Unbroken (t ++ u) := by
  intro c hc
  exact (List.mem_append.mp hc).elim (ht c) (hu c)

theorem Unbroken.cons {c : Char} (hc : isLineBreak c = false) (ht : Unbroken t) : Unbroken (c :: t) :=
  Unbroken.append (t := [c]) (fun d hd => by rw [List.mem_singleton.mp hd]; exact hc) ht

theorem unbroken_blanks (n : Nat) : Unbroken (blanks n) := by
  intro c hc
  rw [List.eq_of_mem_replicate hc]
  decide

theorem unbroken_of_printable (ht : ∀ c ∈ t, isPrintable c = true) : Unbroken t := by
  intro c hc
  have := ht c hc
  simp only [isPrintable, Bool.or_eq_true, decide_eq_true_eq, Bool.and_eq_true,
    Bool.not_eq_true'] at this
  rcases this with rfl | ⟨⟨hspace, -⟩, -⟩
  · decide
  · refine Bool.eq_false_iff.mpr fun hbreak => ?_
    rw [isSpace_of_isLineBreak hbreak] at hspace
    cases hspace

theorem unbroken_flatMap {escape : Char → Text} (h : ∀ c ∈ t, Unbroken (escape c)) :
    Unbroken (t.flatMap escape) := by
  intro c hc
  obtain ⟨d, hd, hmem⟩ := List.mem_flatMap.mp hc
  exact h d hd c hmem

theorem unbroken_escapeSingle {c : Char} (hc : isPrintable c = true) : Unbroken (escapeSingle c) := by
  unfold escapeSingle
  split
  · exact Unbroken.cons (by decide) (Unbroken.cons (by decide) nofun)
  · exact unbroken_of_printable (t := [c]) fun d hd => by rw [List.mem_singleton.mp hd]; exact hc

theorem unbroken_hexDigit (n : Nat) : isLineBreak (hexDigit n) = false := by
  have hall : "0123456789ABCDEF".toList.all (fun c => !isLineBreak c) = true := by decide
  unfold hexDigit
  rw [List.getD_eq_getElem?_getD]
  cases hget : "0123456789ABCDEF".toList[n]? with
  | none => decide
  | some c => simpa using List.all_eq_true.mp hall c (List.mem_of_getElem? hget)

theorem unbroken_escapeDouble (c : Char) : Unbroken (escapeDouble c) := by
  unfold escapeDouble
  split
  · rename_i hc
    rw [Bool.or_eq_true, decide_eq_true_eq, decide_eq_true_eq] at hc
    refine Unbroken.cons (by decide) (Unbroken.cons ?_ nofun)
    rcases hc with rfl | rfl <;> decide
  split
  · rename_i hc
    exact unbroken_of_printable (t := [c]) fun d hd => by rw [List.mem_singleton.mp hd]; exact hc
  · refine Unbroken.cons (by decide) (Unbroken.cons (by decide) fun d hd => ?_)
    obtain ⟨i, -, rfl⟩ := List.mem_map.mp hd
    exact unbroken_hexDigit _

theorem unbroken_scalar (s : Scalar) : Unbroken s.source := by
  cases s with
  | null => exact nofun
  | plain t h => exact unbroken_of_printable (isPlainText_iff.mp h).1
  | single t h =>
    exact Unbroken.append (Unbroken.cons (by decide) (unbroken_flatMap fun c hc =>
      unbroken_escapeSingle (List.all_eq_true.mp h c hc))) (Unbroken.cons (by decide) nofun)
  | double t =>
    exact Unbroken.append (Unbroken.cons (by decide) (unbroken_flatMap fun c _ =>
      unbroken_escapeDouble c)) (Unbroken.cons (by decide) nofun)

theorem unbroken_key (key : Key) : Unbroken key.source := by
  cases key with
  | plain t h => exact unbroken_scalar (.plain t (isPlainKey_iff.mp h).1)
  | single t h => exact unbroken_scalar (.single t h)
  | double t => exact unbroken_scalar (.double t)

theorem unbroken_vault (t : VaultLine) : Unbroken t.1 := by
  intro c hc
  have := List.all_eq_true.mp (Bool.and_eq_true_iff.mp t.2).2 c hc
  simp only [Bool.or_eq_true, decide_eq_true_eq] at this
  refine Bool.eq_false_iff.mpr fun hbreak => ?_
  have hspace := isSpace_of_isLineBreak hbreak
  rcases this with (hc | rfl) | rfl
  · rw [not_space_of_isKeyChar hc] at hspace
    cases hspace
  · exact absurd hspace (by decide)
  · exact absurd hspace (by decide)

theorem unbroken_text {t : Text} (h : t.all (fun c => !isLineBreak c) = true) : Unbroken t := by
  intro c hc
  simpa using List.all_eq_true.mp h c hc

mutual

theorem unbroken_node : ∀ (v : YamlNode) (dash : Bool) (n : Nat) (before : Text), Unbroken before →
    ∀ line ∈ v.lines l dash n before, Unbroken line
  | .scalar s, dash, n, before, hbefore => by
    intro line hline
    cases s with
    | null => rw [List.mem_singleton.mp hline]; exact hbefore
    | plain t h =>
      rw [List.mem_singleton.mp hline]
      exact hbefore.append (Unbroken.cons (by decide) (unbroken_scalar (.plain t h)))
    | single t h =>
      rw [List.mem_singleton.mp hline]
      exact hbefore.append (Unbroken.cons (by decide) (unbroken_scalar (.single t h)))
    | double t =>
      rw [List.mem_singleton.mp hline]
      exact hbefore.append (Unbroken.cons (by decide) (unbroken_scalar (.double t)))
  | .vault ls, dash, n, before, hbefore => by
    intro line hline
    rcases List.mem_cons.mp hline with rfl | hline
    · exact hbefore.append (unbroken_text (by decide))
    · obtain ⟨t, -, rfl⟩ := List.mem_map.mp hline
      exact (unbroken_blanks _).append (unbroken_vault t)
  | .mapping [], dash, n, before, hbefore => by
    intro line hline
    rw [List.mem_singleton.mp hline]
    exact hbefore.append (unbroken_text (by decide))
  | .mapping (item :: items), dash, n, before, hbefore => by
    intro line hline
    cases dash with
    | true => exact unbroken_mapping (item :: items) _ _ (hbefore.append (unbroken_text (by decide))) line hline
    | false =>
      rcases List.mem_cons.mp hline with rfl | hline
      · exact hbefore
      · exact unbroken_mapping (item :: items) _ _ (unbroken_blanks _) line hline
  | .list [], dash, n, before, hbefore => by
    intro line hline
    rw [List.mem_singleton.mp hline]
    exact hbefore.append (unbroken_text (by decide))
  | .list (item :: items), dash, n, before, hbefore => by
    intro line hline
    cases dash with
    | true => exact unbroken_list (item :: items) _ _ (hbefore.append (unbroken_text (by decide))) line hline
    | false =>
      rcases List.mem_cons.mp hline with rfl | hline
      · exact hbefore
      · exact unbroken_list (item :: items) _ _ (unbroken_blanks _) line hline

theorem unbroken_mapping : ∀ (items : List (Key × YamlNode)) (n : Nat) (lead : Text), Unbroken lead →
    ∀ line ∈ mappingLines l n lead items, Unbroken line
  | [], _, _, _ => nofun
  | (key, v) :: items, n, lead, hlead => by
    intro line hline
    rcases List.mem_append.mp hline with hline | hline
    · exact unbroken_node v _ _ _ ((hlead.append (unbroken_key key)).append (unbroken_text (by decide)))
        line hline
    · exact unbroken_mapping items _ _ (unbroken_blanks n) line hline

theorem unbroken_list : ∀ (items : List YamlNode) (n : Nat) (lead : Text), Unbroken lead →
    ∀ line ∈ listLines l n lead items, Unbroken line
  | [], _, _, _ => nofun
  | v :: items, n, lead, hlead => by
    intro line hline
    rcases List.mem_append.mp hline with hline | hline
    · exact unbroken_node v _ _ _ (hlead.append (unbroken_text (by decide))) line hline
    · exact unbroken_list items _ _ (unbroken_blanks n) line hline

end

end Unbroken

/-! ## The reader and the document -/

section Detects

/-- What a reader of the document says: something secret stands in it. -/
def Document.HasSecret (doc : Document) : Prop := ∃ e ∈ doc.entries, e.isSecret = true

instance (doc : Document) : Decidable doc.HasSecret :=
  inferInstanceAs (Decidable (∃ e ∈ doc.entries, e.isSecret = true))

/-- The reader of lines says the same. -/
def Detects (l : Layout) (doc : Document) : Prop :=
  (containsPlaintextSecret (doc.text l)).1 = true ↔ doc.HasSecret

instance (l : Layout) (doc : Document) : Decidable (Detects l doc) :=
  inferInstanceAs (Decidable (_ ↔ _))

theorem document_reported (l : Layout) (doc : Document) :
    (containsPlaintextSecret (doc.text l)).1 = doc.entries.any Entry.reported := by
  cases doc with
  | mapping items =>
    exact (contains_eq_holds _ (unbroken_mapping items 0 [] nofun)).trans
      (holds_mapping l items 0 0 0 none [] rfl rfl (above_none 0)).1
  | list items =>
    exact (contains_eq_holds _ (unbroken_list items 0 [] nofun)).trans
      (holds_list l items 0 0 0 none [] rfl rfl (above_none 0)).1

theorem reported_eq (e : Entry) : e.reported = (e.found || e.alarm) := by
  unfold Entry.reported Entry.found Entry.alarm Entry.isSecret
  cases isSecretName e.key.name <;> cases e.seen <;> simp

theorem isSecret_eq (e : Entry) : e.isSecret = (e.found || e.hidden) := by
  unfold Entry.found Entry.hidden
  cases e.isSecret <;> cases e.seen <;> simp

theorem exists_entry_or {f g h : Entry → Bool} (hfg : ∀ e, f e = (g e || h e)) (es : List Entry) :
    (∃ e ∈ es, f e = true) ↔ (∃ e ∈ es, g e = true) ∨ ∃ e ∈ es, h e = true := by
  rw [← exists_or]
  refine exists_congr fun e => ?_
  rw [hfg, Bool.or_eq_true, and_or_left]

/-- **What the reader of lines detects, exactly.** -/
theorem detects_iff (l : Layout) (doc : Document) :
    Detects l doc ↔ (∃ e ∈ doc.entries, e.found = true) ∨
      ((∃ e ∈ doc.entries, e.alarm = true) ↔ ∃ e ∈ doc.entries, e.hidden = true) := by
  unfold Detects Document.HasSecret
  rw [document_reported, List.any_eq_true, exists_entry_or reported_eq, exists_entry_or isSecret_eq]
  by_cases hfound : ∃ e ∈ doc.entries, e.found = true
  · simp only [hfound, true_or]
  · simp only [hfound, false_or]

def demoLayout : Layout := ⟨2, 0, by decide⟩

def word (t : Text) (h : isPlainKey t = true) : Key := .plain t h

/-- `users:` with a list entry `- password: hunter2`. -/
def listedPassword : Document :=
  .mapping [(word "users" (by decide), .list [.mapping [(word "password" (by decide),
    .scalar (.plain "hunter2" (by decide)))]])]

/-- `secrets:` with a mapping of vaults below. -/
def vaultedSecrets : Document :=
  .mapping [(word "secrets" (by decide), .mapping [(word "db" (by decide),
    .vault [⟨"$ANSIBLE_VAULT;1.1;AES256", by decide⟩, ⟨"6162", by decide⟩])])]

example : listedPassword.text demoLayout = "users:\n- password: hunter2\n".toList := by decide

/-- A password in a list goes unnoticed, and a mapping of vaults is taken for a secret. -/
theorem detection_fails : ¬ Detects demoLayout listedPassword ∧ ¬ Detects demoLayout vaultedSecrets := by
  decide +kernel

end Detects

end Infinito.History
