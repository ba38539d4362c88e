import Infinito.History.Secrets
import Infinito.History.Git
import Infinito.Lib.Result

/-!
# Vault blocks, and their rotation

A file is read line by line. A line with `!vault |` on it opens a block, of the lines below
that are indented deeper; when these are vault text, they are decrypted with the old password
and encrypted with the new one, and every other line is put out as it was.

What is put out is taken apart as the file was, piece by piece, each vault text replaced by the
new one (`pieces_lines`). That rests on where a block ends: the rotated lines are indented as
the old ones were, and the line that ended the old block is still there.
-/

set_option autoImplicit false

namespace Infinito.Vault

open Py Lib Workspace History

/-! ## Finding blocks -/

/-- `_VAULT_BLOCK_START_RE`, on a line. -/
def opensBlock (line : Text) : Bool :=
  line.tails.any fun t => startsWith t "!vault" && startsWith (lstrip (t.drop 6)) ['|']

/-- The length of its group. -/
def baseIndent (line : Text) : Nat := (line.takeWhile fun c => c = ' ' || c = '\t').length

/-- How many lines belong to the block, and its indentation: of its first line that is not
    blank, and no other is indented less. -/
def scan (base : Nat) : Option Nat → List Text → Nat × Option Nat
  | block, [] => (0, block)
  | block, line :: lines =>
      if strip line = [] then
        let (n, indent) := scan base block lines
        (n + 1, indent)
      else if indentOf line ≤ base ∨ indentOf line < block.getD 0 then (0, block)
      else
        let (n, indent) := scan base (some (block.getD (indentOf line))) lines
        (n + 1, indent)

/-- A line of a block, without the indentation. -/
def dedent (indent : Nat) (line : Text) : Text :=
  if strip line = [] then [] else if indent ≤ line.length then line.drop indent else lstrip line

def vaultText (indent : Nat) (lines : List Text) : Text :=
  strip (joinLines (lines.map (dedent indent)))

def vaultMark : Text := "$ANSIBLE_VAULT;"

inductive Piece where
  | line (line : Text)
  /-- a block that is not vault text -/
  | other (head : Text) (body : List Text)
  | vault (head : Text) (indent : Nat) (size : Nat) (text : Text)
  deriving DecidableEq

/-- The file, taken apart: the given number of lines is taken already. -/
def pieces : Nat → List Text → List Piece
  | _, [] => []
  | taken + 1, _ :: lines => pieces taken lines
  | 0, line :: lines =>
      if opensBlock line then
        match scan (baseIndent line) none lines with
        | (_, none) => .line line :: pieces 0 lines
        | (n, some indent) =>
            let text := vaultText indent (lines.take n)
            if startsWith text vaultMark then .vault line indent n text :: pieces n lines
            else .other line (lines.take n) :: pieces n lines
      else .line line :: pieces 0 lines

/-- The vault texts of a file. -/
def texts (ps : List Piece) : List Text := ps.filterMap fun
  | .vault _ _ _ text => some text
  | _ => none

/-! ## Rotating them -/

/-- What the code uses of `VaultLib`, for any password; a salt is drawn for each encryption. -/
structure VaultLib where
  Salt : Type
  decrypt : Text → Text → Except String Bytes
  encrypt : Salt → Text → Bytes → Except String Text
  /-- what is encrypted is decrypted with the same password -/
  decrypt_encrypt : ∀ salt password plain text, encrypt salt password plain = .ok text →
    decrypt password (strip text) = .ok plain
  /-- vault text: a header, and lines of digits -/
  encrypt_marked : ∀ salt password plain text, encrypt salt password plain = .ok text →
    startsWith (strip text) vaultMark = true
  encrypt_lines : ∀ salt password plain text, encrypt salt password plain = .ok text →
    ∃ lines, strip text = joinLines lines ∧ lines ≠ [] ∧
      ∀ line ∈ lines, line ≠ [] ∧ ∀ c ∈ line, isSpace c = false

variable (V : VaultLib)

/-- A rotation from one password to another, with the salt for each line a block is at. -/
structure Rotation where
  old : Text
  new : Text
  salt : Nat → V.Salt

variable {V}

/-- The new text of a block. -/
def Rotation.rotated (r : Rotation V) (path : Path) (at_ : Nat) (text : Text) : Except Exc Text :=
  let place := posix path ++ ':' :: (Nat.repr at_).toList
  match V.decrypt r.old text with
  | .error exc => .error (.http ⟨400, "failed to decrypt vault block in /" ++
      String.ofList place ++ ": " ++ exc⟩)
  | .ok plain => match V.encrypt (r.salt at_) r.new (encode (decode plain)) with
    | .error exc => .error (.http ⟨500, "failed to encrypt vault block in /" ++
        String.ofList place ++ ": " ++ exc⟩)
    | .ok text' => .ok text'

/-- The lines put out from a piece on, the first of them at line `at_` of the file, and how
    many blocks are replaced. -/
def Rotation.lines (r : Rotation V) (path : Path) : Nat → List Piece → Except Exc (List Text × Nat)
  | _, [] => .ok ([], 0)
  | at_, .line line :: ps => do
      let (out, n) ← r.lines path (at_ + 1) ps
      return (line :: out, n)
  | at_, .other head body :: ps => do
      let (out, n) ← r.lines path (at_ + 1 + body.length) ps
      return (head :: body ++ out, n)
  | at_, .vault head indent size text :: ps => do
      let text' ← r.rotated path at_ text
      let (out, n) ← r.lines path (at_ + 1 + size) ps
      let block := (splitlines (strip text')).map (List.replicate indent ' ' ++ ·)
      return (head :: block ++ out, n + 1)

/-- `rotate_vault_blocks_for_file`, for the text that is read from the file. -/
def Rotation.rotateVaultBlocks (r : Rotation V) (path : Path) (source : Text) :
    Except Exc (Text × Nat) := do
  let (out, n) ← r.lines path 1 (pieces 0 (splitlines source))
  return (joinLines out ++ (if source.getLast? = some '\n' then ['\n'] else []), n)

def Rotation.rotateVaultBlocksForFile (r : Rotation V) (path : Path) (content : Bytes) :
    Except Exc (Text × Nat) :=
  r.rotateVaultBlocks path (readText content)

/-! ## Where a block ends -/

theorem splitlines_joinLines {lines : List Text}
    (hbreak : ∀ line ∈ lines, ∀ c ∈ line, isLineBreak c = false)
    (hlast : lines.getLast? ≠ some []) : splitlines (joinLines lines) = lines := by
  cases lines using List.reverseRecOn with
  | nil => rfl
  | append_singleton ls l =>
    rw [List.getLast?_concat] at hlast
    rw [joinLines_concat, splitlines_printLines_append
      (fun line hline => hbreak line (List.mem_append_left _ hline))
      (hbreak l (List.mem_append_right _ List.mem_cons_self)), if_neg]
    rintro rfl
    exact hlast rfl

theorem not_opens_of_blank {line : Text} (h : strip line = []) : opensBlock line = false := by
  rw [Bool.eq_false_iff]
  intro hopens
  obtain ⟨t, ht, hstart⟩ := List.any_eq_true.mp hopens
  rw [Bool.and_eq_true] at hstart
  obtain ⟨rest, hrest⟩ := List.isPrefixOf_iff_prefix.mp hstart.1
  have hbang : '!' ∈ line := by
    refine ((List.mem_tails _ _).mp ht).subset ?_
    rw [← hrest]
    exact List.mem_append_left _ (by decide)
  exact absurd (strip_eq_nil h '!' hbang) (by decide)

theorem scan_le {base : Nat} {block : Option Nat} {lines : List Text} :
    (scan base block lines).1 ≤ lines.length := by
  induction lines generalizing block with
  | nil => exact le_refl _
  | cons line lines ih =>
    unfold scan
    split
    · exact Nat.succ_le_succ ih
    · split
      · exact Nat.zero_le _
      · exact Nat.succ_le_succ ih

/-- The block is indented deeper than the line that opens it. -/
theorem scan_deeper {base n i : Nat} {block : Option Nat} {lines : List Text}
    (hblock : ∀ b ∈ block, base < b) (h : scan base block lines = (n, some i)) : base < i := by
  induction lines generalizing block n with
  | nil =>
    cases h
    exact hblock i rfl
  | cons line lines ih =>
    unfold scan at h
    split at h
    · cases hscan : scan base block lines with
      | mk m r =>
        rw [hscan] at h
        cases h
        exact ih hblock hscan
    · split at h
      · cases h
        exact hblock i rfl
      · rename_i hends
        rw [not_or, not_le] at hends
        cases hscan : scan base (some (block.getD (indentOf line))) lines with
        | mk m r =>
          rw [hscan] at h
          cases h
          refine ih (fun b hb => ?_) hscan
          cases hb
          cases block with
          | none => exact hends.1
          | some b => exact hblock b rfl

/-- A line that ends a block. -/
def Ends (base : Nat) (indent : Option Nat) (line : Text) : Prop :=
  strip line ≠ [] ∧ (indentOf line ≤ base ∨ indentOf line < indent.getD 0)

theorem scan_ends {base n : Nat} {block r : Option Nat} {lines : List Text}
    (h : scan base block lines = (n, r)) : ∀ line ∈ (lines.drop n).head?, Ends base r line := by
  induction lines generalizing block n with
  | nil =>
    cases h
    intro line hline
    cases hline
  | cons line lines ih =>
    unfold scan at h
    split at h
    · cases hscan : scan base block lines with
      | mk m r' =>
        rw [hscan] at h
        cases h
        exact ih hscan
    · rename_i hblank
      split at h
      · rename_i hends
        cases h
        intro line' hline'
        cases hline'
        exact ⟨hblank, hends⟩
      · cases hscan : scan base (some (block.getD (indentOf line))) lines with
        | mk m r' =>
          rw [hscan] at h
          cases h
          exact ih hscan

/-- A block is read from its lines and the one after them. -/
theorem scan_congr {base n : Nat} {block r : Option Nat} {lines lines' : List Text}
    (h : scan base block lines = (n, r)) (htake : lines'.take n = lines.take n)
    (hnext : (lines'.drop n).head? = (lines.drop n).head?) : scan base block lines' = (n, r) := by
  induction lines generalizing block n lines' with
  | nil =>
    cases h
    have hnil : lines' = [] := List.head?_eq_none_iff.mp hnext
    rw [hnil]
    rfl
  | cons line lines ih =>
    unfold scan at h
    split at h
    · rename_i hblank
      cases hscan : scan base block lines with
      | mk m r' =>
        rw [hscan] at h
        cases h
        cases lines' with
        | nil => cases htake
        | cons line' lines' =>
          obtain ⟨rfl, hrest⟩ := List.cons.inj htake
          unfold scan
          rw [if_pos hblank, ih hscan hrest hnext]
    · rename_i hblank
      split at h
      · rename_i hends
        cases h
        cases lines' with
        | nil => cases hnext
        | cons line' lines' =>
          cases hnext
          unfold scan
          rw [if_neg hblank, if_pos hends]
      · rename_i hends
        cases hscan : scan base (some (block.getD (indentOf line))) lines with
        | mk m r' =>
          rw [hscan] at h
          cases h
          cases lines' with
          | nil => cases htake
          | cons line' lines' =>
            obtain ⟨rfl, hrest⟩ := List.cons.inj htake
            unfold scan
            rw [if_neg hblank, if_neg hends, ih hscan hrest hnext]

/-- Without an indentation there were blank lines only. -/
theorem scan_none {base n : Nat} {block : Option Nat} {lines : List Text}
    (h : scan base block lines = (n, none)) :
    block = none ∧ ∀ line ∈ lines.take n, strip line = [] := by
  induction lines generalizing block n with
  | nil =>
    cases h
    exact ⟨rfl, by simp⟩
  | cons line lines ih =>
    unfold scan at h
    split at h
    · rename_i hblank
      cases hscan : scan base block lines with
      | mk m r' =>
        rw [hscan] at h
        cases h
        obtain ⟨hblock, hall⟩ := ih hscan
        refine ⟨hblock, fun l hl => ?_⟩
        rcases List.mem_cons.mp hl with rfl | hl
        · exact hblank
        · exact hall l hl
    · split at h
      · cases h
        exact ⟨rfl, by simp⟩
      · cases hscan : scan base (some (block.getD (indentOf line))) lines with
        | mk m r' =>
          rw [hscan] at h
          cases h
          cases (ih hscan).1

theorem pieces_taken (k : Nat) (lines : List Text) : pieces k lines = pieces 0 (lines.drop k) := by
  induction k generalizing lines with
  | zero => rfl
  | succ k ih =>
    cases lines with
    | nil => rfl
    | cons line lines =>
      rw [List.drop_succ_cons, ← ih]
      rfl

/-! ## The blocks of a rotated file -/

section Rotate

variable {r : Rotation V} {path : Path}

/-- The first line is put out first. -/
theorem head_lines {at_ k : Nat} {lines out : List Text}
    (h : r.lines path at_ (pieces 0 lines) = .ok (out, k)) : out.head? = lines.head? := by
  cases lines with
  | nil =>
    cases h
    rfl
  | cons line lines =>
    unfold pieces at h
    split at h
    · split at h
      · obtain ⟨⟨out', n⟩, -, h⟩ := bind_ok h
        cases h
        rfl
      · dsimp only at h
        split at h
        · obtain ⟨text', -, h⟩ := bind_ok h
          obtain ⟨⟨out', n⟩, -, h⟩ := bind_ok h
          cases h
          rfl
        · obtain ⟨⟨out', n⟩, -, h⟩ := bind_ok h
          cases h
          rfl
    · obtain ⟨⟨out', n⟩, -, h⟩ := bind_ok h
      cases h
      rfl

/-- Blank lines, and the line after them, are put out as they are. -/
theorem blank_lines {at_ k n : Nat} {lines out : List Text}
    (hblank : ∀ line ∈ lines.take n, strip line = [])
    (h : r.lines path at_ (pieces 0 lines) = .ok (out, k)) :
    out.take n = lines.take n ∧ (out.drop n).head? = (lines.drop n).head? := by
  induction n generalizing at_ k lines out with
  | zero => exact ⟨rfl, head_lines h⟩
  | succ n ih =>
    cases lines with
    | nil =>
      cases h
      exact ⟨rfl, rfl⟩
    | cons line lines =>
      have hline : opensBlock line = false :=
        not_opens_of_blank (hblank line (by rw [List.take_succ_cons]; exact List.mem_cons_self))
      rw [pieces, hline] at h
      obtain ⟨⟨out', m⟩, hrest, h⟩ := bind_ok h
      cases h
      obtain ⟨htake, hnext⟩ := ih (fun l hl => hblank l (by
        rw [List.take_succ_cons]; exact List.mem_cons_of_mem _ hl)) hrest
      exact ⟨by rw [List.take_succ_cons, List.take_succ_cons, htake], hnext⟩

/-- The rotated lines are one block: they go on until the line that ended the old one. -/
theorem scan_block {base indent : Nat} {block rest : List Text} (hbase : base < indent)
    (hblock : ∀ line ∈ block, strip line ≠ [] ∧ indentOf line = indent)
    (hrest : ∀ line ∈ rest.head?, Ends base (some indent) line) :
    scan base (some indent) (block ++ rest) = (block.length, some indent) := by
  induction block with
  | nil =>
    cases rest with
    | nil => rfl
    | cons line rest =>
      obtain ⟨hblank, hends⟩ := hrest line rfl
      rw [List.nil_append, scan, if_neg hblank, if_pos hends]
      rfl
  | cons line block ih =>
    obtain ⟨hblank, hindent⟩ := hblock line List.mem_cons_self
    have hgoes : ¬ (indentOf line ≤ base ∨ indentOf line < (some indent).getD 0) := by
      rw [hindent, Option.getD_some]
      omega
    rw [List.cons_append, scan, if_neg hblank, if_neg hgoes, Option.getD_some,
      ih fun l hl => hblock l (List.mem_cons_of_mem _ hl)]
    rfl

theorem scan_first {base indent : Nat} {block rest : List Text} (hbase : base < indent)
    (hne : block ≠ []) (hblock : ∀ line ∈ block, strip line ≠ [] ∧ indentOf line = indent)
    (hrest : ∀ line ∈ rest.head?, Ends base (some indent) line) :
    scan base none (block ++ rest) = (block.length, some indent) := by
  cases block with
  | nil => exact absurd rfl hne
  | cons line block =>
    obtain ⟨hblank, hindent⟩ := hblock line List.mem_cons_self
    have hgoes : ¬ (indentOf line ≤ base ∨ indentOf line < (none : Option Nat).getD 0) := by
      rw [hindent, Option.getD_none]
      omega
    rw [List.cons_append, scan, if_neg hblank, if_neg hgoes, Option.getD_none, hindent,
      scan_block hbase (fun l hl => hblock l (List.mem_cons_of_mem _ hl)) hrest]
    rfl

/-- An indented line of vault text. -/
theorem indented_line (indent : Nat) {line : Text} (hne : line ≠ [])
    (hspace : ∀ c ∈ line, isSpace c = false) :
    strip (List.replicate indent ' ' ++ line) ≠ [] ∧
      indentOf (List.replicate indent ' ' ++ line) = indent ∧
      dedent indent (List.replicate indent ' ' ++ line) = line := by
  obtain ⟨c, cs, rfl⟩ := List.exists_cons_of_ne_nil hne
  have hc : isSpace c = false := hspace c List.mem_cons_self
  have hblank : strip (List.replicate indent ' ' ++ c :: cs) ≠ [] := by
    intro h
    have := strip_eq_nil h c (List.mem_append_right _ List.mem_cons_self)
    rw [hc] at this
    cases this
  have hcspace : c ≠ ' ' := by
    rintro rfl
    exact absurd hc (by decide)
  refine ⟨hblank, ?_, ?_⟩
  · rw [indentOf, List.takeWhile_append_of_pos (by
        intro x hx
        rw [(List.mem_replicate.mp hx).2]
        rfl), List.takeWhile_cons_of_neg (by simpa using hcspace), List.append_nil,
      List.length_replicate]
  · have hlen : indent ≤ (List.replicate indent ' ' ++ c :: cs).length := by
      rw [List.length_append, List.length_replicate]
      omega
    rw [dedent, if_neg hblank, if_pos hlen]
    exact List.drop_left' List.length_replicate

/-- A text that is rotated becomes lines that are read back as the new text. -/
theorem rotated_block (indent : Nat) {at_ : Nat} {text text' : Text}
    (h : r.rotated path at_ text = .ok text') :
    let block := (splitlines (strip text')).map (List.replicate indent ' ' ++ ·)
    block ≠ [] ∧ (∀ line ∈ block, strip line ≠ [] ∧ indentOf line = indent) ∧
      vaultText indent block = strip text' ∧ startsWith (strip text') vaultMark = true := by
  obtain ⟨plain, salt, hencrypt⟩ : ∃ plain salt, V.encrypt salt r.new plain = .ok text' := by
    unfold Rotation.rotated at h
    split at h
    · cases h
    · split at h
      · cases h
      · rename_i hencrypt
        cases h
        exact ⟨_, _, hencrypt⟩
  obtain ⟨lines, hjoin, hne, hlines⟩ := V.encrypt_lines _ _ _ _ hencrypt
  have hsplit : splitlines (strip text') = lines := by
    rw [hjoin]
    refine splitlines_joinLines (fun line hline c hc => ?_) ?_
    · by_contra hbreak
      rw [Bool.not_eq_false] at hbreak
      have := (hlines line hline).2 c hc
      cases (isSpace_of_isLineBreak hbreak).symm.trans this
    · intro hlast
      exact (hlines [] (List.mem_of_getLast? hlast)).1 rfl
  have hded : lines.map (fun line => dedent indent (List.replicate indent ' ' ++ line)) = lines := by
    refine List.map_congr_left (g := id) (fun line hline => ?_) |>.trans (List.map_id _)
    exact (indented_line indent (hlines line hline).1 (hlines line hline).2).2.2
  dsimp only
  rw [hsplit]
  refine ⟨?_, ?_, ?_, V.encrypt_marked _ _ _ _ hencrypt⟩
  · intro hnil
    exact hne (List.map_eq_nil_iff.mp hnil)
  · intro line hline
    obtain ⟨l, hl, rfl⟩ := List.mem_map.mp hline
    have hl := indented_line indent (hlines l hl).1 (hlines l hl).2
    exact ⟨hl.1, hl.2.1⟩
  · rw [vaultText, List.map_map]
    show strip (joinLines (lines.map fun line => dedent indent (List.replicate indent ' ' ++ line))) = _
    rw [hded, ← hjoin, strip_strip]

/-- A piece of the file, and what it has become. -/
inductive Renewed (r : Rotation V) (path : Path) : Piece → Piece → Prop where
  | line (line : Text) : Renewed r path (.line line) (.line line)
  | other (head : Text) (body : List Text) : Renewed r path (.other head body) (.other head body)
  | vault {at_ : Nat} {text text' : Text} (head : Text) (indent size size' : Nat)
      (h : r.rotated path at_ text = .ok text') :
      Renewed r path (.vault head indent size text) (.vault head indent size' (strip text'))

/-- **What is put out is the file, taken apart the same way, with its blocks rotated.** -/
theorem pieces_lines {at_ k : Nat} {lines out : List Text}
    (h : r.lines path at_ (pieces 0 lines) = .ok (out, k)) :
    List.Forall₂ (Renewed r path) (pieces 0 lines) (pieces 0 out) ∧
      k = (texts (pieces 0 lines)).length := by
  induction hlen : lines.length using Nat.strong_induction_on generalizing at_ k lines out with
  | _ len ih =>
  cases lines with
  | nil =>
    cases h
    exact ⟨.nil, rfl⟩
  | cons line lines =>
    -- what is left of the file is put out as a file is
    have hrest (n : Nat) {at_ m : Nat} {out' : List Text}
        (h : r.lines path at_ (pieces n lines) = .ok (out', m)) :
        (List.Forall₂ (Renewed r path) (pieces n lines) (pieces 0 out') ∧
          m = (texts (pieces n lines)).length) ∧ out'.head? = (lines.drop n).head? := by
      rw [pieces_taken] at h ⊢
      refine ⟨ih (lines.drop n).length ?_ h rfl, head_lines h⟩
      rw [← hlen, List.length_drop, List.length_cons]
      omega
    by_cases hopens : opensBlock line = true
    · cases hscan : scan (baseIndent line) none lines with
      | mk n indent =>
        cases indent with
        | none =>
          have hpieces : pieces 0 (line :: lines) = .line line :: pieces 0 lines := by
            rw [pieces, if_pos hopens, hscan]
          rw [hpieces] at h ⊢
          obtain ⟨⟨out', m⟩, h, hout⟩ := bind_ok h
          cases hout
          obtain ⟨htake, hnext⟩ := blank_lines (scan_none hscan).2 h
          have hout : pieces 0 (line :: out') = .line line :: pieces 0 out' := by
            rw [pieces, if_pos hopens, scan_congr hscan htake hnext]
          rw [hout]
          obtain ⟨⟨hpieces, hcount⟩, -⟩ := hrest 0 h
          exact ⟨.cons (.line line) hpieces, hcount⟩
        | some indent =>
          by_cases hmark : startsWith (vaultText indent (lines.take n)) vaultMark = true
          · have hpieces : pieces 0 (line :: lines) =
                .vault line indent n (vaultText indent (lines.take n)) :: pieces n lines := by
              rw [pieces, if_pos hopens, hscan]
              exact if_pos hmark
            rw [hpieces] at h ⊢
            obtain ⟨text', htext, h⟩ := bind_ok h
            obtain ⟨⟨out', m⟩, hps, hout⟩ := bind_ok h
            cases hout
            obtain ⟨⟨htexts, hcount⟩, hhead⟩ := hrest n hps
            have hnew := rotated_block indent htext
            dsimp only at hnew
            clear h
            generalize (splitlines (strip text')).map (List.replicate indent ' ' ++ ·) = block at hnew ⊢
            obtain ⟨hne, hblock, hvault, hmarked⟩ := hnew
            have hdeeper : baseIndent line < indent := scan_deeper (by simp) hscan
            have hends : ∀ l ∈ out'.head?, Ends (baseIndent line) (some indent) l := by
              rw [hhead]
              exact scan_ends hscan
            have hout : pieces 0 (line :: (block ++ out')) =
                .vault line indent block.length (strip text') :: pieces 0 out' := by
              rw [pieces, if_pos hopens, scan_first hdeeper hne hblock hends]
              dsimp only
              rw [List.take_left, hvault, if_pos hmarked, pieces_taken, List.drop_left]
            rw [List.cons_append, hout]
            refine ⟨.cons (.vault line indent n block.length htext) htexts, ?_⟩
            show m + 1 = (texts (pieces n lines)).length + 1
            rw [hcount]
          · have hpieces : pieces 0 (line :: lines) = .other line (lines.take n) :: pieces n lines := by
              rw [pieces, if_pos hopens, hscan]
              exact if_neg hmark
            rw [hpieces] at h ⊢
            obtain ⟨⟨out', m⟩, h, hout⟩ := bind_ok h
            cases hout
            obtain ⟨⟨hothers, hcount⟩, hhead⟩ := hrest n h
            have htaken : (lines.take n).length = n := by
              have hle : (scan (baseIndent line) none lines).1 ≤ lines.length := scan_le
              rw [hscan] at hle
              exact List.length_take_of_le hle
            have htake : (lines.take n ++ out').take n = lines.take n := List.take_left' htaken
            have hdrop : (lines.take n ++ out').drop n = out' := List.drop_left' htaken
            have hout : pieces 0 (line :: (lines.take n ++ out')) =
                .other line (lines.take n) :: pieces 0 out' := by
              rw [pieces, if_pos hopens, scan_congr hscan htake (by rw [hdrop, hhead])]
              dsimp only
              rw [htake, if_neg hmark, pieces_taken, hdrop]
            rw [List.cons_append, hout]
            exact ⟨.cons (.other line _) hothers, hcount⟩
    · have hpieces (lines : List Text) :
          pieces 0 (line :: lines) = .line line :: pieces 0 lines := by
        rw [pieces, if_neg hopens]
      rw [hpieces] at h ⊢
      obtain ⟨⟨out', m⟩, h, hout⟩ := bind_ok h
      cases hout
      rw [hpieces]
      obtain ⟨⟨hothers, hcount⟩, -⟩ := hrest 0 h
      exact ⟨.cons (.line line) hothers, hcount⟩

end Rotate

end Infinito.Vault
