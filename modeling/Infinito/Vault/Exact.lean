import Infinito.Vault.Blocks
import Infinito.Py.Lines

/-!
# Is a rotation exact?

What the rotation of a file is meant to be is said without its scanner: every vault block of
the text, wherever its header stands, has become one that holds the same plaintext under the new
password, their number is the one returned, and the other lines are those of the file, as YAML
separates lines.

Three things go wrong. A plaintext that is no UTF-8 does not survive being decoded on the way. A
line that mentions `!vault |` without opening a vault block, such as a comment, hides the blocks
below it. And Python cuts lines where YAML does not, so that a form feed in a line becomes a
line break. `rotation_exact_iff` says that these are all.
-/

set_option autoImplicit false

namespace Infinito.Vault

open Py Lib Workspace History

/-! ## What is to be kept -/

/-- A line, and the break it ends with. -/
abbrev Line := Text × Text

/-- The lines of a text, cut at these breaks. -/
def cut (isBreak : Char → Bool) : Text → Text → List Line
  | acc, [] => if acc = [] then [] else [(acc.reverse, [])]
  | acc, '\r' :: '\n' :: cs => (acc.reverse, ['\r', '\n']) :: cut isBreak [] cs
  | acc, c :: cs =>
      if isBreak c then (acc.reverse, [c]) :: cut isBreak [] cs else cut isBreak (c :: acc) cs

/-- The line breaks of YAML. -/
def isYamlBreak (c : Char) : Bool :=
  c = '\n' || c = '\r' || c.toNat == 0x85 || c.toNat == 0x2028 || c.toNat == 0x2029

def yamlLines (t : Text) : List Text := (cut isYamlBreak [] t).map (·.1)

/-- The size and the text of the vault block that a line opens. -/
def vaultAt (line : Text) (lines : List Text) : Option (Nat × Text) :=
  if opensBlock line then
    match scan (baseIndent line) none lines with
    | (_, none) => none
    | (n, some indent) =>
        let text := vaultText indent (lines.take n)
        if startsWith text vaultMark then some (n, text) else none
  else none

/-- The lines outside of vault blocks, each with the block it opens. -/
def items {β : Type} : Nat → List (Text × β) → List ((Text × β) × Option Text)
  | _, [] => []
  | k + 1, _ :: ls => items k ls
  | 0, l :: ls => match vaultAt l.1 (ls.map (·.1)) with
      | some (n, text) => (l, some text) :: items n ls
      | none => (l, none) :: items 0 ls

/-- The same of lines without their breaks. -/
def heads (k : Nat) (lines : List Text) : List (Text × Option Text) :=
  (items k (lines.map fun line => (line, ()))).map fun x => (x.1.1, x.2)

/-- The vault blocks of a text. -/
def vaultBlocks (t : Text) : List Text := (items 0 (cut isLineBreak [] t)).filterMap (·.2)

/-- The lines of a text outside of its vault blocks. -/
def outside (t : Text) : List Line := (items 0 (cut isLineBreak [] t)).map (·.1)

/-- The text of lines with their breaks. -/
def printed (ls : List Line) : Text := ls.flatMap fun l => l.1 ++ l.2

variable {V : VaultLib}

/-- The text is one that the password decrypts. -/
def decrypts (V : VaultLib) (password text : Text) : Bool := (V.decrypt password text).toOption.isSome

/-- What the rotation of a text is meant to be. -/
structure Exact (V : VaultLib) (old new source updated : Text) (count : Nat) : Prop where
  blocks : List.Forall₂ (fun text text' => ∀ plain, V.decrypt old text = .ok plain →
    V.decrypt new text' = .ok plain) (vaultBlocks source) (vaultBlocks updated)
  count : count = (vaultBlocks source).countP (decrypts V old)
  outside : yamlLines (printed (outside updated)) = yamlLines (printed (outside source))

/-- What it takes. -/
structure Rotatable (V : VaultLib) (old source : Text) : Prop where
  utf8 : ∀ text ∈ vaultBlocks source, ∀ plain, V.decrypt old text = .ok plain →
    ∃ t, plain = encode t
  /-- what follows a mention of `!vault |` that is no vault block has none in it -/
  unhidden : ∀ head body, .other head body ∈ pieces 0 (splitlines source) →
    ∀ x ∈ heads 0 body, ∀ text ∈ x.2, decrypts V old text = false
  /-- the lines outside of blocks end where a line of YAML does -/
  breaks : ∀ line ∈ Vault.outside source, ∀ c ∈ line.2, isYamlBreak c = true
  /-- an empty last line ends with a newline -/
  ending : ∀ line ∈ (Vault.outside source).getLast?, line.1 = [] → source.getLast? = some '\n'

/-! ## Lines and their breaks -/

section Cut

variable {isBreak : Char → Bool}

/-- A break of one character, as they are left by reading in text mode. -/
def EndsLine (isBreak : Char → Bool) (b : Text) : Prop := ∃ c, b = [c] ∧ isBreak c = true ∧ c ≠ '\r'

/-- Lines that are cut where they end: all have a break, the last perhaps not. -/
def Cut (isBreak : Char → Bool) (ls : List Line) : Prop :=
  (∀ l ∈ ls, (∀ c ∈ l.1, isBreak c = false) ∧
    (EndsLine isBreak l.2 ∨ l.2 = [] ∧ l.1 ≠ [])) ∧ ls.Pairwise fun l _ => EndsLine isBreak l.2

theorem Cut.sublist {ls ls' : List Line} (h : Cut isBreak ls) (hsub : ls'.Sublist ls) :
    Cut isBreak ls' :=
  ⟨fun l hl => h.1 l (hsub.subset hl), h.2.sublist hsub⟩

theorem cut_cons {acc : Text} {c : Char} {cs : Text} (hc : c ≠ '\r') :
    cut isBreak acc (c :: cs) =
      if isBreak c then (acc.reverse, [c]) :: cut isBreak [] cs else cut isBreak (c :: acc) cs := by
  rw [cut.eq_3]
  intro cs' hcr
  exact absurd hcr hc

theorem cut_line (hcr : isBreak '\r' = true) {acc line : Text} (h : ∀ c ∈ line, isBreak c = false)
    (rest : Text) : cut isBreak acc (line ++ rest) = cut isBreak (line.reverse ++ acc) rest := by
  induction line generalizing acc with
  | nil => rfl
  | cons c cs ih =>
    have hc := h c List.mem_cons_self
    have hne : c ≠ '\r' := by
      rintro rfl
      rw [hcr] at hc
      cases hc
    rw [List.cons_append, cut_cons hne, if_neg (by rw [hc]; decide),
      ih fun d hd => h d (List.mem_cons_of_mem _ hd), List.reverse_cons, List.append_assoc]
    rfl

/-- Lines that are cut where they end are those of their text. -/
theorem cut_printed (hcr : isBreak '\r' = true) {ls : List Line} (h : Cut isBreak ls) :
    cut isBreak [] (printed ls) = ls := by
  induction ls with
  | nil => rfl
  | cons l ls ih =>
    obtain ⟨line, brk⟩ := l
    obtain ⟨hline, hend⟩ := h.1 _ List.mem_cons_self
    have hrest := ih (h.sublist (List.sublist_cons_self _ _))
    show cut isBreak [] ((line ++ brk) ++ printed ls) = _
    rw [List.append_assoc, cut_line hcr hline, List.append_nil]
    rcases hend with ⟨c, rfl, hc, hne⟩ | ⟨rfl, hne⟩
    · rw [List.singleton_append, cut_cons hne, if_pos hc, List.reverse_reverse, hrest]
    · cases ls with
      | nil =>
        show cut isBreak line.reverse [] = _
        rw [cut, if_neg (by simpa using hne), List.reverse_reverse]
      | cons l' ls =>
        obtain ⟨c, hc, -⟩ := (List.pairwise_cons.mp h.2).1 l' List.mem_cons_self
        cases hc

theorem cut_spec {acc t : Text} (hacc : ∀ c ∈ acc, isBreak c = false)
    (ht : '\r' ∉ t) : Cut isBreak (cut isBreak acc t) ∧
      printed (cut isBreak acc t) = acc.reverse ++ t := by
  induction t generalizing acc with
  | nil =>
    rw [cut]
    split
    · rename_i hnil
      rw [hnil]
      exact ⟨⟨nofun, .nil⟩, rfl⟩
    · rename_i hne
      refine ⟨⟨?_, List.pairwise_singleton _ _⟩, by simp [printed]⟩
      intro l hl
      rw [List.mem_singleton.mp hl]
      exact ⟨fun c hc => hacc c (List.mem_reverse.mp hc), Or.inr ⟨rfl, by simpa using hne⟩⟩
  | cons c cs ih =>
    have hne : c ≠ '\r' := fun h => ht (by rw [h]; exact List.mem_cons_self)
    have hcs : '\r' ∉ cs := fun h => ht (List.mem_cons_of_mem _ h)
    rw [cut_cons hne]
    split
    · rename_i hbreak
      obtain ⟨hcut, hprint⟩ := @ih [] (by simp) hcs
      have hend : EndsLine isBreak [c] := ⟨c, rfl, hbreak, hne⟩
      refine ⟨⟨?_, List.pairwise_cons.mpr ⟨fun _ _ => hend, hcut.2⟩⟩, ?_⟩
      · intro l hl
        rcases List.mem_cons.mp hl with rfl | hl
        · exact ⟨fun d hd => hacc d (List.mem_reverse.mp hd), Or.inl hend⟩
        · exact hcut.1 l hl
      · show (acc.reverse ++ [c]) ++ printed (cut isBreak [] cs) = _
        rw [hprint, List.append_assoc]
        rfl
    · rename_i hbreak
      obtain ⟨hcut, hprint⟩ := @ih (c :: acc) (by
        intro d hd
        rcases List.mem_cons.mp hd with rfl | hd
        · exact Bool.eq_false_iff.mpr hbreak
        · exact hacc d hd) hcs
      refine ⟨hcut, hprint.trans ?_⟩
      rw [List.reverse_cons, List.append_assoc]
      rfl

/-- What is no break is in a line. -/
theorem mem_cut {acc t : Text} {c : Char} (hc : isBreak c = false) (hr : c ≠ '\r') (hn : c ≠ '\n')
    (hmem : c ∈ acc ∨ c ∈ t) : ∃ l ∈ cut isBreak acc t, c ∈ l.1 := by
  induction acc, t using cut.induct isBreak with
  | case1 =>
    rcases hmem with hmem | hmem <;> cases hmem
  | case2 acc hne =>
    rw [cut, if_neg hne]
    refine ⟨_, List.mem_singleton_self _, ?_⟩
    rcases hmem with hmem | hmem
    · exact List.mem_reverse.mpr hmem
    · cases hmem
  | case3 acc cs ih =>
    rw [cut]
    rcases hmem with hmem | hmem
    · exact ⟨_, List.mem_cons_self, List.mem_reverse.mpr hmem⟩
    · rcases List.mem_cons.mp hmem with rfl | hmem
      · exact absurd rfl hr
      rcases List.mem_cons.mp hmem with rfl | hmem
      · exact absurd rfl hn
      obtain ⟨l, hl, hcl⟩ := ih (Or.inr hmem)
      exact ⟨l, List.mem_cons_of_mem _ hl, hcl⟩
  | case4 acc d cs hcr hbreak ih =>
    rw [cut.eq_3 _ _ _ _ hcr, if_pos hbreak]
    rcases hmem with hmem | hmem
    · exact ⟨_, List.mem_cons_self, List.mem_reverse.mpr hmem⟩
    · rcases List.mem_cons.mp hmem with rfl | hmem
      · rw [hbreak] at hc
        cases hc
      obtain ⟨l, hl, hcl⟩ := ih (Or.inr hmem)
      exact ⟨l, List.mem_cons_of_mem _ hl, hcl⟩
  | case5 acc d cs hcr hbreak ih =>
    rw [cut.eq_3 _ _ _ _ hcr, if_neg hbreak]
    refine ih ?_
    rcases hmem with hmem | hmem
    · exact Or.inl (List.mem_cons_of_mem _ hmem)
    · rcases List.mem_cons.mp hmem with rfl | hmem
      · exact Or.inl List.mem_cons_self
      · exact Or.inr hmem

theorem cut_lines (acc t : Text) : (cut isLineBreak acc t).map (·.1) = splitlinesFrom acc t := by
  induction acc, t using cut.induct isLineBreak with
  | case1 => rfl
  | case2 acc hne =>
    rw [cut, splitlinesFrom, if_neg hne, if_neg hne]
    rfl
  | case3 acc cs ih =>
    rw [cut, splitlinesFrom, List.map_cons, ih]
  | case4 acc d cs hcr hbreak ih =>
    rw [cut.eq_3 _ _ _ _ hcr, splitlinesFrom.eq_3 _ _ _ hcr, if_pos hbreak, if_pos hbreak,
      List.map_cons, ih]
  | case5 acc d cs hcr hbreak ih =>
    rw [cut.eq_3 _ _ _ _ hcr, splitlinesFrom.eq_3 _ _ _ hcr, if_neg hbreak, if_neg hbreak, ih]

end Cut

/-! ## What is put out has no breaks in its lines -/

/-- The lines of the file a piece keeps. -/
def Piece.kept : Piece → List Text
  | .line l => [l]
  | .other head body => head :: body
  | .vault head _ _ _ => [head]

theorem mem_of_kept {k : Nat} {lines : List Text} {p : Piece} {l : Text}
    (hp : p ∈ pieces k lines) (hl : l ∈ p.kept) : l ∈ lines := by
  induction lines generalizing k with
  | nil => cases hp
  | cons line lines ih =>
    cases k with
    | succ k => exact List.mem_cons_of_mem _ (ih hp)
    | zero =>
      -- the piece is of this line, or of later ones
      have hline {n : Nat} (hp : p = .line line ∨ p ∈ pieces n lines) : l ∈ line :: lines := by
        rcases hp with rfl | hp
        · rw [List.mem_singleton.mp hl]
          exact List.mem_cons_self
        · exact List.mem_cons_of_mem _ (ih hp)
      unfold pieces at hp
      split at hp
      · split at hp
        · exact hline (List.mem_cons.mp hp)
        · rename_i n indent hscan
          dsimp only at hp
          split at hp
          · rcases List.mem_cons.mp hp with rfl | hp
            · rw [List.mem_singleton.mp hl]
              exact List.mem_cons_self
            · exact hline (Or.inr hp)
          · rcases List.mem_cons.mp hp with rfl | hp
            · rcases List.mem_cons.mp hl with rfl | hl
              · exact List.mem_cons_self
              · exact List.mem_cons_of_mem _ (List.mem_of_mem_take hl)
            · exact hline (Or.inr hp)
      · exact hline (List.mem_cons.mp hp)

section Read

variable {r : Rotation V} {path : Path}

theorem lines_unbroken {at_ k : Nat} {ps : List Piece} {out : List Text}
    (hps : ∀ p ∈ ps, ∀ l ∈ p.kept, ∀ c ∈ l, isLineBreak c = false)
    (h : r.lines path at_ ps = .ok (out, k)) : ∀ l ∈ out, ∀ c ∈ l, isLineBreak c = false := by
  induction ps generalizing at_ k out with
  | nil =>
    cases h
    intro l hl
    cases hl
  | cons p ps ih =>
    have hrest {at_ m : Nat} {out' : List Text} (h : r.lines path at_ ps = .ok (out', m)) :
        ∀ l ∈ out', ∀ c ∈ l, isLineBreak c = false :=
      ih (fun q hq => hps q (List.mem_cons_of_mem _ hq)) h
    have hkept := hps p List.mem_cons_self
    cases p with
    | line line =>
      obtain ⟨⟨out', m⟩, hrun, h⟩ := bind_ok h
      cases h
      intro l hl
      rcases List.mem_cons.mp hl with rfl | hl
      · exact hkept l List.mem_cons_self
      · exact hrest hrun l hl
    | other head body =>
      obtain ⟨⟨out', m⟩, hrun, h⟩ := bind_ok h
      cases h
      intro l hl
      rcases List.mem_append.mp hl with hl | hl
      · exact hkept l hl
      · exact hrest hrun l hl
    | vault head indent size text =>
      obtain ⟨text', htext, h⟩ := bind_ok h
      obtain ⟨⟨out', m⟩, hrun, h⟩ := bind_ok h
      cases h
      intro l hl
      rcases List.mem_append.mp hl with hl | hl
      · rcases List.mem_cons.mp hl with rfl | hl
        · exact hkept l List.mem_cons_self
        · obtain ⟨line, hline, rfl⟩ := List.mem_map.mp hl
          intro c hc
          rcases List.mem_append.mp hc with hc | hc
          · rw [(List.mem_replicate.mp hc).2]
            decide
          · exact splitlines_unbroken hline c hc
      · exact hrest hrun l hl

end Read

theorem splitlinesFrom_eq_nil {acc t : Text} (h : splitlinesFrom acc t = []) : t = [] := by
  induction acc, t using splitlinesFrom.induct with
  | case1 => rfl
  | case2 acc hne => rfl
  | case3 acc cs ih => cases h
  | case4 acc c cs hcr hbreak ih =>
    rw [splitlinesFrom.eq_3 _ _ _ hcr, if_pos hbreak] at h
    cases h
  | case5 acc c cs hcr hbreak ih =>
    rw [splitlinesFrom.eq_3 _ _ _ hcr, if_neg hbreak] at h
    rw [ih h] at h
    rw [splitlinesFrom, if_neg (List.cons_ne_nil _ _)] at h
    cases h

/-! ## Headers, wherever they stand -/

section Heads

theorem heads_succ (k : Nat) (line : Text) (lines : List Text) :
    heads (k + 1) (line :: lines) = heads k lines := rfl

theorem heads_cons (line : Text) (lines : List Text) : heads 0 (line :: lines) =
    match vaultAt line lines with
    | some (n, text) => (line, some text) :: heads n lines
    | none => (line, none) :: heads 0 lines := by
  have hlines : (lines.map fun line => (line, ())).map (·.1) = lines := by
    rw [List.map_map]
    exact List.map_id _
  unfold heads
  rw [List.map_cons, items, hlines]
  cases vaultAt line lines <;> rfl

theorem heads_of_some {line text : Text} {lines : List Text} {n : Nat}
    (h : vaultAt line lines = some (n, text)) :
    heads 0 (line :: lines) = (line, some text) :: heads n lines := by
  rw [heads_cons, h]

theorem heads_of_none {line : Text} {lines : List Text} (h : vaultAt line lines = none) :
    heads 0 (line :: lines) = (line, none) :: heads 0 lines := by
  rw [heads_cons, h]

/-- The breaks do not matter to what is a block. -/
theorem items_heads {β : Type} (k : Nat) (ls : List (Text × β)) :
    ((items k ls).map fun x => (x.1.1, x.2)) = heads k (ls.map (·.1)) := by
  induction ls generalizing k with
  | nil => cases k <;> rfl
  | cons l ls ih =>
    cases k with
    | succ k => exact ih k
    | zero =>
      rw [List.map_cons, heads_cons, items]
      cases vaultAt l.1 (ls.map (·.1)) with
      | none => exact congrArg (_ :: ·) (ih 0)
      | some x => exact congrArg (_ :: ·) (ih x.1)

theorem heads_drop (k : Nat) (lines : List Text) : heads k lines = heads 0 (lines.drop k) := by
  induction k generalizing lines with
  | zero => rfl
  | succ k ih =>
    cases lines with
    | nil => rfl
    | cons line lines => exact (heads_succ k line lines).trans (ih lines)

/-- The lines of a block are indented as its first is, at least. -/
theorem scan_body {base n i : Nat} {block : Option Nat} {lines : List Text}
    (h : scan base block lines = (n, some i)) :
    (∀ b ∈ block, b = i) ∧ ∀ l ∈ lines.take n, strip l ≠ [] → i ≤ indentOf l := by
  induction lines generalizing block n with
  | nil =>
    cases h
    exact ⟨fun b hb => (Option.some.inj hb).symm, by simp⟩
  | cons line lines ih =>
    unfold scan at h
    split at h
    · rename_i hblank
      cases hscan : scan base block lines with
      | mk m r =>
        rw [hscan] at h
        cases h
        obtain ⟨hblock, hall⟩ := ih hscan
        refine ⟨hblock, fun l hl hne => ?_⟩
        rcases List.mem_cons.mp hl with rfl | hl
        · exact absurd hblank hne
        · exact hall l hl hne
    · split at h
      · cases h
        exact ⟨fun b hb => (Option.some.inj hb).symm, by simp⟩
      · rename_i hends
        rw [not_or, not_lt] at hends
        cases hscan : scan base (some (block.getD (indentOf line))) lines with
        | mk m r =>
          rw [hscan] at h
          cases h
          obtain ⟨hblock, hall⟩ := ih hscan
          have hi := hblock _ rfl
          refine ⟨fun b hb => ?_, fun l hl hne => ?_⟩
          · rw [← hi, Option.mem_def.mp hb]
            rfl
          · rcases List.mem_cons.mp hl with rfl | hl
            · cases block with
              | none => exact hi.ge
              | some b =>
                rw [← hi]
                exact hends.2
            · exact hall l hl hne

/-- A line that is indented no deeper than the header ends the block. -/
theorem scan_append_stop {base : Nat} {block : Option Nat} {body rest : List Text}
    (hrest : ∀ l ∈ rest.head?, strip l ≠ [] ∧ indentOf l ≤ base) :
    scan base block (body ++ rest) = scan base block body := by
  induction body generalizing block with
  | nil =>
    cases rest with
    | nil => rfl
    | cons l rest =>
      obtain ⟨hblank, hends⟩ := hrest l rfl
      have hstop : scan base block (l :: rest) = (0, block) := by
        rw [scan, if_neg hblank, if_pos (Or.inl hends)]
      exact hstop
  | cons line body ih =>
    rw [List.cons_append, scan, scan]
    split
    · rw [ih]
    · split
      · rfl
      · rw [ih]

theorem indentOf_le_baseIndent (line : Text) : indentOf line ≤ baseIndent line := by
  unfold indentOf baseIndent
  induction line with
  | nil => exact le_refl _
  | cons c cs ih =>
    by_cases hc : c = ' '
    · rw [List.takeWhile_cons_of_pos (by simpa using hc),
        List.takeWhile_cons_of_pos (by simp [hc])]
      exact Nat.succ_le_succ ih
    · rw [List.takeWhile_cons_of_neg (by simpa using hc)]
      exact Nat.zero_le _

/-- The blocks in the body of a piece end where it ends. -/
theorem heads_append {i : Nat} {body rest : List Text}
    (hbody : ∀ l ∈ body, strip l ≠ [] → i ≤ indentOf l)
    (hrest : ∀ l ∈ rest.head?, strip l ≠ [] ∧ indentOf l < i) {k : Nat} (hk : k ≤ body.length) :
    heads k (body ++ rest) = heads k body ++ heads 0 rest := by
  induction body generalizing k with
  | nil =>
    obtain rfl : k = 0 := Nat.le_zero.mp hk
    rfl
  | cons line body ih =>
    have hbody' : ∀ l ∈ body, strip l ≠ [] → i ≤ indentOf l :=
      fun l hl => hbody l (List.mem_cons_of_mem _ hl)
    cases k with
    | succ k => exact ih hbody' (Nat.le_of_succ_le_succ hk)
    | zero =>
      have hsame : vaultAt line (body ++ rest) = vaultAt line body := by
        unfold vaultAt
        by_cases hopens : opensBlock line = true
        · have hline : strip line ≠ [] := fun h => by
            rw [not_opens_of_blank h] at hopens
            cases hopens
          have hdeep : i ≤ baseIndent line :=
            (hbody line List.mem_cons_self hline).trans (indentOf_le_baseIndent line)
          have hscan : scan (baseIndent line) none (body ++ rest) =
              scan (baseIndent line) none body :=
            scan_append_stop fun l hl => ⟨(hrest l hl).1, ((hrest l hl).2.trans_le hdeep).le⟩
          have hle : (scan (baseIndent line) none body).1 ≤ body.length := scan_le
          rw [if_pos hopens, if_pos hopens, hscan]
          cases hr : scan (baseIndent line) none body with
          | mk n indent =>
            rw [hr] at hle
            cases indent with
            | none => rfl
            | some indent =>
              dsimp only
              rw [List.take_append_of_le_length hle]
        · rw [if_neg hopens, if_neg hopens]
      rw [List.cons_append, heads_cons, heads_cons, hsame]
      cases hat : vaultAt line body with
      | none => exact congrArg (_ :: ·) (ih hbody' (Nat.zero_le _))
      | some x =>
        obtain ⟨n, text⟩ := x
        refine congrArg (_ :: ·) (ih hbody' ?_)
        have hle : (scan (baseIndent line) none body).1 ≤ body.length := scan_le
        unfold vaultAt at hat
        split at hat
        · split at hat
          · cases hat
          · rename_i hscan
            dsimp only at hat
            split at hat
            · cases hat
              rw [hscan] at hle
              exact hle
            · cases hat
        · cases hat

/-- The headers in a piece. -/
def Piece.heads : Piece → List (Text × Option Text)
  | .line l => [(l, none)]
  | .other head body => (head, none) :: Vault.heads 0 body
  | .vault head _ _ text => [(head, some text)]

/-- The scanner sees every header, those in the bodies of its pieces apart. -/
theorem heads_pieces (lines : List Text) : heads 0 lines = (pieces 0 lines).flatMap Piece.heads := by
  induction hlen : lines.length using Nat.strong_induction_on generalizing lines with
  | _ len ih =>
  cases lines with
  | nil => rfl
  | cons line lines =>
    have hrest (n : Nat) : heads n lines = (pieces n lines).flatMap Piece.heads := by
      rw [heads_drop, pieces_taken]
      refine ih (lines.drop n).length ?_ _ rfl
      rw [← hlen, List.length_drop, List.length_cons]
      omega
    by_cases hopens : opensBlock line = true
    · cases hscan : scan (baseIndent line) none lines with
      | mk n indent =>
        rw [pieces, if_pos hopens, hscan]
        cases indent with
        | none =>
          rw [heads_of_none (by rw [vaultAt, if_pos hopens, hscan])]
          exact congrArg (_ :: ·) (hrest 0)
        | some indent =>
          dsimp only
          by_cases hmark : startsWith (vaultText indent (lines.take n)) vaultMark = true
          · have hat : vaultAt line lines = some (n, vaultText indent (lines.take n)) := by
              rw [vaultAt, if_pos hopens, hscan]
              exact if_pos hmark
            rw [if_pos hmark, heads_of_some hat]
            exact congrArg (_ :: ·) (hrest n)
          · have hat : vaultAt line lines = none := by
              rw [vaultAt, if_pos hopens, hscan]
              exact if_neg hmark
            have hdeeper : baseIndent line < indent := scan_deeper (by simp) hscan
            have hsplit : heads 0 (lines.take n ++ lines.drop n) =
                heads 0 (lines.take n) ++ heads 0 (lines.drop n) := by
              refine heads_append (scan_body hscan).2 (fun l hl => ?_) (Nat.zero_le _)
              obtain ⟨hblank, hends⟩ := scan_ends hscan l hl
              refine ⟨hblank, ?_⟩
              rcases hends with hends | hends
              · omega
              · exact hends
            rw [List.take_append_drop] at hsplit
            rw [if_neg hmark, heads_of_none hat, hsplit, ← heads_drop, hrest n]
            rfl
    · rw [pieces, if_neg hopens, heads_of_none (by rw [vaultAt, if_neg hopens])]
      exact congrArg (_ :: ·) (hrest 0)

end Heads

/-! ## A blank line at the end -/

theorem strip_append_space {t : Text} {c : Char} (hc : isSpace c = true) :
    strip (t ++ [c]) = strip t := by
  have hl : lstrip (t ++ [c]) = lstrip t ∨ lstrip (t ++ [c]) = lstrip t ++ [c] := by
    unfold lstrip
    rw [List.dropWhile_append]
    split
    · rename_i hnil
      refine Or.inl ?_
      rw [List.isEmpty_iff.mp hnil, List.dropWhile_cons_of_pos hc]
      rfl
    · exact Or.inr rfl
  rcases hl with hl | hl
  · rw [strip, hl]
    rfl
  · rw [strip, hl, rstrip, List.rdropWhile_concat_pos _ _ _ hc]
    rfl

theorem scan_append_blank {base n : Nat} {block r : Option Nat} {lines : List Text}
    (h : scan base block lines = (n, r)) :
    scan base block (lines ++ [[]]) = (if n = lines.length then n + 1 else n, r) := by
  induction lines generalizing block n with
  | nil =>
    cases h
    rfl
  | cons line lines ih =>
    have hlen (m : Nat) : (if m = lines.length then m + 1 else m) + 1 =
        if m + 1 = (line :: lines).length then m + 1 + 1 else m + 1 := by
      rw [List.length_cons]
      split <;> split <;> omega
    unfold scan at h
    rw [List.cons_append, scan]
    split at h
    · rename_i hblank
      cases hscan : scan base block lines with
      | mk m r' =>
        rw [hscan] at h
        cases h
        rw [if_pos hblank, ih hscan, ← hlen]
    · rename_i hblank
      split at h
      · rename_i hends
        cases h
        rw [if_neg hblank, if_pos hends, if_neg (by simp)]
      · rename_i hends
        cases hscan : scan base (some (block.getD (indentOf line))) lines with
        | mk m r' =>
          rw [hscan] at h
          cases h
          rw [if_neg hblank, if_neg hends, ih hscan, ← hlen]

theorem vaultText_append_blank {indent : Nat} {lines : List Text} (hne : lines ≠ []) :
    vaultText indent (lines ++ [[]]) = vaultText indent lines := by
  obtain ⟨init, last, rfl⟩ := List.eq_nil_or_concat lines |>.resolve_left hne
  have hnil : dedent indent [] = [] := rfl
  unfold vaultText
  rw [List.map_append, List.map_singleton, hnil, joinLines_concat, List.append_nil,
    List.concat_eq_append, List.map_append, List.map_singleton, joinLines_concat,
    printLines_append]
  show strip (_ ++ ((dedent indent last ++ ['\n']) ++ [])) = _
  rw [List.append_nil, ← List.append_assoc]
  exact strip_append_space (by decide)

theorem vaultAt_append_blank (line : Text) (lines : List Text) : vaultAt line (lines ++ [[]]) =
    (vaultAt line lines).map fun x => (if x.1 = lines.length then x.1 + 1 else x.1, x.2) := by
  unfold vaultAt
  by_cases hopens : opensBlock line = true
  · rw [if_pos hopens, if_pos hopens]
    cases hscan : scan (baseIndent line) none lines with
    | mk n indent =>
      rw [scan_append_blank hscan]
      cases indent with
      | none => rfl
      | some indent =>
        have hle : (scan (baseIndent line) none lines).1 ≤ lines.length := scan_le
        rw [hscan] at hle
        dsimp only at hle ⊢
        have htake : vaultText indent ((lines ++ [[]]).take (if n = lines.length then n + 1 else n)) =
            vaultText indent (lines.take n) := by
          split
          · rename_i hn
            have hne : lines ≠ [] := by
              rintro rfl
              cases hscan
            rw [hn, List.take_length, List.take_of_length_le (by simp)]
            exact vaultText_append_blank hne
          · rw [List.take_append_of_le_length hle]
        rw [htake]
        split <;> rfl
  · rw [if_neg hopens, if_neg hopens]
    rfl

theorem vaultAt_blank (lines : List Text) : vaultAt [] lines = none := by
  unfold vaultAt
  rw [if_neg (by decide)]

/-- It is a line of its own, or blank space at the end of a block. -/
theorem heads_append_blank (k : Nat) (lines : List Text) :
    heads k (lines ++ [[]]) = heads k lines ∨ heads k (lines ++ [[]]) = heads k lines ++ [([], none)] := by
  induction lines generalizing k with
  | nil =>
    cases k with
    | zero => exact Or.inr (heads_of_none (vaultAt_blank []))
    | succ k => exact Or.inl (by cases k <;> rfl)
  | cons line lines ih =>
    cases k with
    | succ k => exact ih k
    | zero =>
      rw [List.cons_append, heads_cons, heads_cons, vaultAt_append_blank]
      cases vaultAt line lines with
      | none => exact (ih 0).imp (congrArg (_ :: ·)) (congrArg (_ :: ·))
      | some x =>
        obtain ⟨n, text⟩ := x
        dsimp only [Option.map_some]
        split
        · rename_i hn
          refine Or.inl (congrArg (_ :: ·) ?_)
          rw [heads_drop, heads_drop n, List.drop_eq_nil_of_le (by simp [hn]),
            List.drop_eq_nil_of_le hn.ge]
        · exact (ih n).imp (congrArg (_ :: ·)) (congrArg (_ :: ·))

/-- An empty last line that is in no block is the last one. -/
theorem getLast_of_heads {k : Nat} {lines : List Text} {x : Option Text}
    (h : (heads k lines).getLast? = some ([], x)) : lines.getLast? = some [] := by
  induction lines generalizing k with
  | nil => cases k <;> cases h
  | cons line lines ih =>
    cases k with
    | succ k =>
      have hlast := ih (k := k) h
      rw [List.getLast?_cons, hlast]
      rfl
    | zero =>
      rw [heads_cons] at h
      cases hat : vaultAt line lines with
      | none =>
        rw [hat] at h
        dsimp only at h
        cases hrest : heads 0 lines with
        | nil =>
          cases lines with
          | nil =>
            rw [hrest] at h
            cases h
            rfl
          | cons l ls =>
            rw [heads_cons] at hrest
            split at hrest <;> cases hrest
        | cons y ys =>
          rw [List.getLast?_cons, hrest, List.getLast?_cons] at h
          rw [List.getLast?_cons, ih (k := 0) (by rw [hrest, List.getLast?_cons]; exact h)]
          rfl
      | some y =>
        obtain ⟨n, text⟩ := y
        rw [hat] at h
        dsimp only at h
        cases hrest : heads n lines with
        | nil =>
          rw [hrest] at h
          cases h
          rw [vaultAt_blank] at hat
          cases hat
        | cons z zs =>
          rw [List.getLast?_cons, hrest, List.getLast?_cons] at h
          rw [List.getLast?_cons, ih (k := n) (by rw [hrest, List.getLast?_cons]; exact h)]
          rfl

/-- After one that is in no block, another is in none. -/
theorem heads_append_blank_of_last {k : Nat} {lines : List Text} {x : Option Text}
    (h : (heads k lines).getLast? = some ([], x)) :
    heads k (lines ++ [[]]) = heads k lines ++ [([], none)] := by
  induction lines generalizing k with
  | nil => cases k <;> cases h
  | cons line lines ih =>
    cases k with
    | succ k => exact ih h
    | zero =>
      rw [heads_cons] at h
      rw [List.cons_append, heads_cons, heads_cons, vaultAt_append_blank]
      cases hat : vaultAt line lines with
      | none =>
        rw [hat] at h
        refine congrArg (_ :: ·) ?_
        cases hrest : heads 0 lines with
        | nil =>
          cases lines with
          | nil => exact heads_of_none (vaultAt_blank [])
          | cons l ls =>
            rw [heads_cons] at hrest
            split at hrest <;> cases hrest
        | cons y ys =>
          rw [List.getLast?_cons, hrest, List.getLast?_cons] at h
          rw [← hrest]
          exact ih (by rw [hrest, List.getLast?_cons]; exact h)
      | some y =>
        obtain ⟨n, text⟩ := y
        rw [hat] at h
        dsimp only at h
        cases hrest : heads n lines with
        | nil =>
          rw [hrest] at h
          cases h
          rw [vaultAt_blank] at hat
          cases hat
        | cons z zs =>
          have hn : n ≠ lines.length := by
            rintro rfl
            rw [heads_drop, List.drop_length] at hrest
            cases hrest
          rw [List.getLast?_cons, hrest, List.getLast?_cons] at h
          dsimp only [Option.map_some]
          rw [if_neg hn]
          exact congrArg (_ :: ·) (ih (by rw [hrest, List.getLast?_cons]; exact h))


/-! ## The two texts -/

section Compare

/-- What becomes of a block: one that is not decrypted is left alone. -/
def Rotation.Becomes (r : Rotation V) (path : Path) (text text' : Text) : Prop :=
  (∃ at_ u, r.rotated path at_ text = .ok u ∧ text' = strip u) ∨
    (text' = text ∧ decrypts V r.old text = false)

/-- A header, and what it has become. -/
def Head (r : Rotation V) (path : Path) (x y : Text × Option Text) : Prop :=
  x.1 = y.1 ∧ Option.Rel (r.Becomes path) x.2 y.2

variable {r : Rotation V} {path : Path}

theorem renewed_heads {ps qs : List Piece} (h : List.Forall₂ (Renewed r path) ps qs)
    (hunhidden : ∀ head body, .other head body ∈ ps → ∀ x ∈ heads 0 body, ∀ text ∈ x.2,
      decrypts V r.old text = false) :
    List.Forall₂ (Head r path) (ps.flatMap Piece.heads) (qs.flatMap Piece.heads) := by
  induction h with
  | nil => exact .nil
  | cons hp _ ih =>
    have hrest := ih fun head body hmem => hunhidden head body (List.mem_cons_of_mem _ hmem)
    rw [List.flatMap_cons, List.flatMap_cons]
    cases hp with
    | line line => exact .cons ⟨rfl, .none⟩ hrest
    | other head body =>
      have hsame := hunhidden head body List.mem_cons_self
      refine .cons ⟨rfl, .none⟩ (List.rel_append ?_ hrest)
      refine List.forall₂_same.mpr fun x hx => ⟨rfl, ?_⟩
      cases htext : x.2 with
      | none => exact .none
      | some text => exact .some (Or.inr ⟨rfl, hsame x hx text htext⟩)
    | vault head indent size size' hrot =>
      exact .cons ⟨rfl, .some (Or.inl ⟨_, _, hrot, rfl⟩)⟩ hrest

theorem head_blocks {xs ys : List (Text × Option Text)} (h : List.Forall₂ (Head r path) xs ys) :
    xs.map (·.1) = ys.map (·.1) ∧
      List.Forall₂ (r.Becomes path) (xs.filterMap (·.2)) (ys.filterMap (·.2)) := by
  induction h with
  | nil => exact ⟨rfl, .nil⟩
  | @cons x y xs ys hxy _ ih =>
    obtain ⟨hlines, hblocks⟩ := ih
    obtain ⟨x, o⟩ := x
    obtain ⟨y, o'⟩ := y
    obtain ⟨rfl, hrel⟩ : x = y ∧ Option.Rel (r.Becomes path) o o' := hxy
    refine ⟨congrArg (_ :: ·) hlines, ?_⟩
    cases hrel with
    | none => exact hblocks
    | some hb => exact .cons hb hblocks

/-- The blocks that the scanner sees are decrypted, in a rotation that succeeds. -/
theorem decrypts_of_renewed {ps qs : List Piece} (h : List.Forall₂ (Renewed r path) ps qs) :
    ∀ text ∈ texts ps, decrypts V r.old text = true := by
  induction h with
  | nil => nofun
  | cons hp _ ih =>
    cases hp with
    | line line => exact ih
    | other head body => exact ih
    | vault head indent size size' hrot =>
      intro text htext
      rcases List.mem_cons.mp htext with rfl | htext
      · unfold Rotation.rotated at hrot
        unfold decrypts
        split at hrot
        · cases hrot
        · rename_i hplain
          rw [hplain]
          rfl
      · exact ih text htext

/-- **The scanner counts every block exactly if it hides none.** -/
theorem count_iff {p : Text → Bool} {ps : List Piece} (hall : ∀ text ∈ texts ps, p text = true) :
    (texts ps).length ≤ ((ps.flatMap Piece.heads).filterMap (·.2)).countP p ∧
    ((texts ps).length = ((ps.flatMap Piece.heads).filterMap (·.2)).countP p ↔
      ∀ head body, .other head body ∈ ps → ∀ x ∈ heads 0 body, ∀ text ∈ x.2, p text = false) := by
  induction ps with
  | nil => exact ⟨le_refl _, iff_of_true rfl nofun⟩
  | cons q ps ih =>
    rw [List.flatMap_cons, List.filterMap_append, List.countP_append]
    cases q with
    | line l =>
      obtain ⟨hle, hiff⟩ := ih hall
      have hhead : ((Piece.line l).heads.filterMap (·.2)).countP p = 0 := rfl
      rw [hhead, Nat.zero_add]
      refine ⟨hle, hiff.trans ⟨fun h head body hmem => ?_, fun h head body hmem => ?_⟩⟩
      · rcases List.mem_cons.mp hmem with hmem | hmem
        · cases hmem
        · exact h head body hmem
      · exact h head body (List.mem_cons_of_mem _ hmem)
    | vault head indent size text =>
      obtain ⟨hle, hiff⟩ := ih fun t ht => hall t (List.mem_cons_of_mem _ ht)
      have hhead : ((Piece.vault head indent size text).heads.filterMap (·.2)).countP p = 1 := by
        show [text].countP p = 1
        rw [List.countP_singleton, hall text List.mem_cons_self]
        rfl
      have htexts : (texts (.vault head indent size text :: ps)).length = (texts ps).length + 1 := rfl
      rw [hhead, htexts, Nat.add_comm 1]
      refine ⟨Nat.succ_le_succ hle, Nat.succ_inj.trans (hiff.trans
        ⟨fun h head body hmem => ?_, fun h head body hmem => ?_⟩)⟩
      · rcases List.mem_cons.mp hmem with hmem | hmem
        · cases hmem
        · exact h head body hmem
      · exact h head body (List.mem_cons_of_mem _ hmem)
    | other head body =>
      obtain ⟨hle, hiff⟩ := ih hall
      have htexts : (texts (.other head body :: ps)).length = (texts ps).length := rfl
      have hhead : ((Piece.other head body).heads.filterMap (·.2)).countP p =
          ((heads 0 body).filterMap (·.2)).countP p := rfl
      rw [hhead, htexts]
      refine ⟨hle.trans (Nat.le_add_left _ _), ?_⟩
      have hnone : ((heads 0 body).filterMap (·.2)).countP p = 0 ↔
          ∀ x ∈ heads 0 body, ∀ text ∈ x.2, p text = false := by
        rw [List.countP_eq_zero]
        constructor
        · intro h x hx text htext
          exact Bool.eq_false_iff.mpr (h text (List.mem_filterMap.mpr ⟨x, hx, htext⟩))
        · intro h text htext
          obtain ⟨x, hx, htext⟩ := List.mem_filterMap.mp htext
          exact Bool.eq_false_iff.mp (h x hx text htext)
      constructor
      · intro heq head' body' hmem
        have hzero : ((heads 0 body).filterMap (·.2)).countP p = 0 := by omega
        rcases List.mem_cons.mp hmem with hmem | hmem
        · cases hmem
          exact hnone.mp hzero
        · exact hiff.mp (by omega) head' body' hmem
      · intro h
        rw [hnone.mpr (h head body List.mem_cons_self), Nat.zero_add]
        exact hiff.mpr fun head' body' hmem => h head' body' (List.mem_cons_of_mem _ hmem)

end Compare

/-! ## Exactly -/

theorem isLineBreak_of_isYamlBreak {c : Char} (h : isYamlBreak c = true) : isLineBreak c = true := by
  unfold isYamlBreak at h
  unfold isLineBreak
  simp only [Bool.or_eq_true, decide_eq_true_eq, beq_iff_eq, Bool.and_eq_true] at h ⊢
  rcases h with (((rfl | rfl) | h) | h) | h
  · decide
  · decide
  · omega
  · omega
  · omega

theorem vaultBlocks_eq (t : Text) : vaultBlocks t = (heads 0 (splitlines t)).filterMap (·.2) := by
  have h := items_heads 0 (cut isLineBreak [] t)
  rw [cut_lines] at h
  unfold vaultBlocks splitlines
  rw [← h, List.filterMap_map]
  rfl

theorem outside_lines (t : Text) : (outside t).map (·.1) = (heads 0 (splitlines t)).map (·.1) := by
  have h := items_heads 0 (cut isLineBreak [] t)
  rw [cut_lines] at h
  unfold outside splitlines
  rw [← h, List.map_map, List.map_map]
  rfl

theorem items_sublist {β : Type} (k : Nat) (ls : List (Text × β)) :
    ((items k ls).map (·.1)).Sublist ls := by
  induction ls generalizing k with
  | nil => cases k <;> exact List.Sublist.refl _
  | cons l ls ih =>
    cases k with
    | succ k => exact (ih k).trans (List.sublist_cons_self _ _)
    | zero =>
      rw [items]
      cases vaultAt l.1 (ls.map (·.1)) with
      | none => exact (ih 0).cons_cons l
      | some x => exact (ih x.1).cons_cons l

theorem outside_cut {t : Text} (ht : '\r' ∉ t) : Cut isLineBreak (outside t) := by
  have hcr : isLineBreak '\r' = true := by decide
  have hcut : Cut isLineBreak (cut isLineBreak [] t) := (cut_spec (by simp) ht).1
  exact hcut.sublist (items_sublist 0 _)

theorem no_cr_universalNewlines (t : Text) : '\r' ∉ universalNewlines t := by
  induction t using universalNewlines.induct with
  | case1 => exact List.not_mem_nil
  | case2 cs ih =>
    rw [universalNewlines]
    intro h
    rcases List.mem_cons.mp h with h | h
    · cases h
    · exact ih h
  | case3 cs hn ih =>
    rw [universalNewlines.eq_3 _ hn]
    intro h
    rcases List.mem_cons.mp h with h | h
    · cases h
    · exact ih h
  | case4 c cs hn hr ih =>
    rw [universalNewlines.eq_4 _ _ hn hr]
    intro h
    rcases List.mem_cons.mp h with h | h
    · exact hr h.symm
    · exact ih h

/-- Where the lines end as lines of YAML do, they are those of YAML. -/
theorem yamlLines_printed {ls : List Line} (h : Cut isLineBreak ls)
    (hyaml : ∀ l ∈ ls, ∀ c ∈ l.2, isYamlBreak c = true) : yamlLines (printed ls) = ls.map (·.1) := by
  have hends {l : Line} (hl : l ∈ ls) (hend : EndsLine isLineBreak l.2) :
      EndsLine isYamlBreak l.2 := by
    obtain ⟨c, hc, -, hne⟩ := hend
    exact ⟨c, hc, hyaml l hl c (by rw [hc]; exact List.mem_singleton_self c), hne⟩
  have hcr : isYamlBreak '\r' = true := by decide
  refine congrArg (List.map (·.1)) (cut_printed hcr ⟨fun l hl => ?_, ?_⟩)
  · obtain ⟨hline, hend⟩ := h.1 l hl
    refine ⟨fun c hc => ?_, hend.imp_left (hends hl)⟩
    by_contra hbreak
    rw [Bool.not_eq_false] at hbreak
    cases (hline c hc).symm.trans (isLineBreak_of_isYamlBreak hbreak)
  · exact h.2.imp_of_mem fun hl _ hend => hends hl hend

/-- The lines of what is put out. -/
theorem cut_updated {out : List Text} {source : Text}
    (hout : ∀ l ∈ out, ∀ c ∈ l, isLineBreak c = false)
    (hsource : out = [] → source.getLast? ≠ some '\n') :
    let ended := cut isLineBreak [] (joinLines out ++
      if source.getLast? = some '\n' then ['\n'] else [])
    Cut isLineBreak ended ∧ (∀ l ∈ ended, l.2 = ['\n'] ∨ l.2 = []) ∧
      (ended.map (·.1) = out ∧ (out.getLast? = some [] → source.getLast? = some '\n') ∨
        out = ended.map (·.1) ++ [[]] ∧ source.getLast? ≠ some '\n') := by
  have hnewline : EndsLine isLineBreak ['\n'] := ⟨'\n', rfl, by decide, by decide⟩
  have hprinted (ls : List Text) (hls : ∀ l ∈ ls, ∀ c ∈ l, isLineBreak c = false) :
      Cut isLineBreak (ls.map fun l => (l, ['\n'])) := by
    refine ⟨fun x hx => ?_, ?_⟩
    · obtain ⟨l, hl, rfl⟩ := List.mem_map.mp hx
      exact ⟨hls l hl, Or.inl hnewline⟩
    · rw [List.pairwise_map]
      exact List.pairwise_of_forall fun _ _ => hnewline
  have hbreaks {ls : List Text} {l : Line} (hl : l ∈ ls.map fun l => (l, ['\n'])) :
      l.2 = ['\n'] ∨ l.2 = [] := by
    obtain ⟨l, -, rfl⟩ := List.mem_map.mp hl
    exact Or.inl rfl
  have hlines (ls : List Text) : (ls.map fun l => (l, ['\n'])).map (·.1) = ls := by
    rw [List.map_map]
    exact List.map_id _
  have hprint (ls : List Text) : printed (ls.map fun l => (l, ['\n'])) = printLines ls := by
    rw [printed, List.flatMap_map]
    rfl
  cases out using List.reverseRecOn with
  | nil =>
    rw [if_neg (hsource rfl)]
    exact ⟨⟨nofun, .nil⟩, nofun, Or.inl ⟨rfl, nofun⟩⟩
  | append_singleton init last =>
    have hinit : ∀ l ∈ init, ∀ c ∈ l, isLineBreak c = false :=
      fun l hl => hout l (List.mem_append_left _ hl)
    have hlast := hout last (List.mem_append_right _ List.mem_cons_self)
    dsimp only
    rw [joinLines_concat]
    by_cases hn : source.getLast? = some '\n'
    · have htext : printLines init ++ last ++ ['\n'] =
          printed ((init ++ [last]).map fun l => (l, ['\n'])) := by
        rw [hprint, printLines_append, List.append_assoc]
        simp [printLines]
      rw [if_pos hn, htext, cut_printed (by decide) (hprinted _ hout), hlines]
      exact ⟨hprinted _ hout, fun l hl => hbreaks hl, Or.inl ⟨rfl, fun _ => hn⟩⟩
    · rw [if_neg hn, List.append_nil]
      by_cases hnil : last = []
      · rw [hnil, List.append_nil, ← hprint, cut_printed (by decide) (hprinted _ hinit), hlines]
        exact ⟨hprinted _ hinit, fun l hl => hbreaks hl, Or.inr ⟨rfl, hn⟩⟩
      · have htext : printLines init ++ last =
            printed ((init.map fun l => (l, ['\n'])) ++ [(last, [])]) := by
          rw [printed, List.flatMap_append]
          show _ = printed _ ++ _
          rw [hprint]
          simp
        have hcut : Cut isLineBreak ((init.map fun l => (l, ['\n'])) ++ [(last, [])]) := by
          refine ⟨fun l hl => ?_, List.pairwise_append.mpr ⟨(hprinted _ hinit).2,
            List.pairwise_singleton _ _, fun l hl _ _ => ?_⟩⟩
          · rcases List.mem_append.mp hl with hl | hl
            · exact (hprinted _ hinit).1 l hl
            · rw [List.mem_singleton.mp hl]
              exact ⟨hlast, Or.inr ⟨rfl, hnil⟩⟩
          · obtain ⟨l, -, rfl⟩ := List.mem_map.mp hl
            exact hnewline
        rw [htext, cut_printed (by decide) hcut, List.map_append, hlines]
        refine ⟨hcut, fun l hl => ?_, Or.inl ⟨by simp, fun h => absurd (by simpa using h) hnil⟩⟩
        rcases List.mem_append.mp hl with hl | hl
        · exact hbreaks hl
        · rw [List.mem_singleton.mp hl]
          exact Or.inr rfl

section Main

variable {r : Rotation V} {path : Path}

/-- The blocks hold the same plaintexts exactly if these are UTF-8. -/
theorem blocks_iff {bs bs' : List Text} (h : List.Forall₂ (r.Becomes path) bs bs') :
    List.Forall₂ (fun text text' => ∀ plain, V.decrypt r.old text = .ok plain →
      V.decrypt r.new text' = .ok plain) bs bs' ↔
    ∀ text ∈ bs, ∀ plain, V.decrypt r.old text = .ok plain → ∃ t, plain = encode t := by
  induction h with
  | nil => exact iff_of_true .nil nofun
  | @cons text text' bs bs' hb _ ih =>
    rw [List.forall₂_cons, List.forall_mem_cons, ih]
    refine and_congr_left fun _ => forall_congr' fun plain => forall_congr' fun hplain => ?_
    rcases hb with ⟨at_, u, hrot, rfl⟩ | ⟨-, hnone⟩
    swap
    · unfold decrypts at hnone
      rw [hplain] at hnone
      cases hnone
    have hnew : V.decrypt r.new (strip u) = .ok (encode (decode plain)) := by
      unfold Rotation.rotated at hrot
      rw [hplain] at hrot
      dsimp only at hrot
      split at hrot
      · cases hrot
      · rename_i hencrypt
        cases hrot
        exact V.decrypt_encrypt _ _ _ _ hencrypt
    rw [hnew, Except.ok.injEq]
    constructor
    · intro heq
      exact ⟨decode plain, heq.symm⟩
    · rintro ⟨t, rfl⟩
      rw [decode_encode]

/-- Outside of the blocks the lines are the same exactly if they end as lines of YAML do. -/
theorem outside_iff {source updated : Text} {out : List Text} (hcr : '\r' ∉ source)
    (hout : ∀ l ∈ out, ∀ c ∈ l, isLineBreak c = false)
    (hsource : out = [] → source.getLast? ≠ some '\n')
    (hupdated : updated = joinLines out ++ if source.getLast? = some '\n' then ['\n'] else [])
    (hsame : (heads 0 (splitlines source)).map (·.1) = (heads 0 out).map (·.1)) :
    yamlLines (printed (outside updated)) = yamlLines (printed (outside source)) ↔
      (∀ line ∈ outside source, ∀ c ∈ line.2, isYamlBreak c = true) ∧
        ∀ line ∈ (outside source).getLast?, line.1 = [] → source.getLast? = some '\n' := by
  obtain ⟨hcut, hends, hlines⟩ := cut_updated hout hsource
  rw [← hupdated] at hcut hends hlines
  have hsub : (outside updated).Sublist (cut isLineBreak [] updated) := items_sublist 0 _
  have hnew : yamlLines (printed (outside updated)) = (outside updated).map (·.1) := by
    refine yamlLines_printed (hcut.sublist hsub) fun l hl c hc => ?_
    rcases hends l (hsub.subset hl) with h | h
    · rw [h] at hc
      rw [List.mem_singleton.mp hc]
      decide
    · rw [h] at hc
      cases hc
  have hsplit : splitlines updated = (cut isLineBreak [] updated).map (·.1) := (cut_lines _ _).symm
  have hlast (hempty : ∃ line ∈ (outside source).getLast?, line.1 = []) :
      ∃ x, (heads 0 out).getLast? = some ([], x) := by
    obtain ⟨line, hline, hnil⟩ := hempty
    have h := congrArg List.getLast? ((outside_lines source).trans hsame)
    rw [List.getLast?_map, List.getLast?_map, Option.mem_def.mp hline, Option.map_some, hnil] at h
    obtain ⟨⟨l, x⟩, hx, rfl⟩ := Option.map_eq_some_iff.mp h.symm
    exact ⟨x, hx⟩
  rw [hnew, outside_lines, hsplit]
  constructor
  · intro heq
    have hbreaks : ∀ line ∈ outside source, ∀ c ∈ line.2, isYamlBreak c = true := by
      -- a break that is none of YAML's is in a line of YAML, and in no line that is put out
      intro line hline c hc
      by_contra hyaml
      rw [Bool.not_eq_true] at hyaml
      have hmem : c ∈ printed (outside source) :=
        List.mem_flatMap.mpr ⟨line, hline, List.mem_append_right _ hc⟩
      obtain ⟨l, hl, hcl⟩ := @mem_cut _ [] _ _ hyaml (by rintro rfl; cases hyaml)
        (by rintro rfl; cases hyaml) (Or.inr hmem)
      have hl : l.1 ∈ yamlLines (printed (outside source)) := List.mem_map_of_mem hl
      rw [← heq] at hl
      obtain ⟨x, hx, hxl⟩ := List.mem_map.mp hl
      have hin : x.1 ∈ (cut isLineBreak [] updated).map (·.1) := by
        have hx' : x.1 ∈ (heads 0 (splitlines updated)).map (·.1) :=
          List.mem_map_of_mem (hsplit ▸ hx)
        rw [← outside_lines] at hx'
        exact (hsub.map _).subset hx'
      obtain ⟨y, hy, hyx⟩ := List.mem_map.mp hin
      have hnone := (hcut.1 y hy).1 c (by rw [hyx, hxl]; exact hcl)
      obtain ⟨d, hd, hbreak, -⟩ := (outside_cut hcr).1 line hline |>.2.resolve_right (by
        rintro ⟨hnil, -⟩
        rw [hnil] at hc
        cases hc)
      rw [hd] at hc
      rw [List.mem_singleton.mp hc, hbreak] at hnone
      cases hnone
    refine ⟨hbreaks, fun line hline hnil => ?_⟩
    by_contra hn
    rw [yamlLines_printed (outside_cut hcr) hbreaks, outside_lines, hsame] at heq
    obtain ⟨x, hx⟩ := hlast ⟨line, hline, hnil⟩
    rcases hlines with ⟨-, hlines⟩ | ⟨hlines, -⟩
    · exact hn (hlines (getLast_of_heads hx))
    · rcases heads_append_blank 0 ((cut isLineBreak [] updated).map (·.1)) with h | h
      · rw [hlines, h] at hx
        have := heads_append_blank_of_last hx
        rw [h] at this
        simp at this
      · rw [hlines, h, List.map_append] at heq
        simpa using congrArg List.length heq
  · rintro ⟨hbreaks, hending⟩
    rw [yamlLines_printed (outside_cut hcr) hbreaks, outside_lines, hsame]
    rcases hlines with ⟨hlines, -⟩ | ⟨hlines, hn⟩
    · rw [hlines]
    · rcases heads_append_blank 0 ((cut isLineBreak [] updated).map (·.1)) with h | h
      · rw [hlines, h]
      · -- the empty last line is lost: it ended with a break that is not written
        exfalso
        have hkept : ((outside source).map (·.1)).getLast? = some [] := by
          rw [outside_lines, hsame, hlines, h]
          simp
        rw [List.getLast?_map] at hkept
        obtain ⟨line, hline, hnil⟩ := Option.map_eq_some_iff.mp hkept
        exact hn (hending line hline hnil)

/-- **The rotation of a file is exact if and only if** every plaintext is UTF-8, no block is
    hidden below a mention of `!vault |`, every line outside of the blocks ends where a line of
    YAML does, and an empty last line ends with a newline. -/
theorem rotation_exact_iff {content : Bytes} {updated : Text} {count : Nat}
    (h : r.rotateVaultBlocksForFile path content = .ok (updated, count)) :
    Exact V r.old r.new (readText content) updated count ↔ Rotatable V r.old (readText content) := by
  obtain ⟨⟨out, k⟩, hrun, h⟩ := bind_ok h
  obtain ⟨hupdated, rfl⟩ := Prod.mk.inj (Except.ok.inj h)
  generalize hsource : readText content = source at hrun hupdated ⊢
  have hcr : '\r' ∉ source := by
    rw [← hsource]
    exact no_cr_universalNewlines _
  have hout : ∀ l ∈ out, ∀ c ∈ l, isLineBreak c = false :=
    lines_unbroken (fun p hp l hl => splitlines_unbroken (mem_of_kept hp hl)) hrun
  have hnil : out = [] → source.getLast? ≠ some '\n' := by
    rintro rfl
    have hlines : splitlines source = [] := List.head?_eq_none_iff.mp (head_lines hrun).symm
    rw [splitlinesFrom_eq_nil hlines]
    nofun
  obtain ⟨hrenewed, hcount⟩ := pieces_lines hrun
  have hcounted : k = (vaultBlocks source).countP (decrypts V r.old) ↔ ∀ head body,
      .other head body ∈ pieces 0 (splitlines source) → ∀ x ∈ heads 0 body, ∀ text ∈ x.2,
        decrypts V r.old text = false := by
    rw [hcount, vaultBlocks_eq, heads_pieces]
    exact (count_iff (decrypts_of_renewed hrenewed)).2
  -- where nothing is hidden, the headers and their blocks are those that the scanner sees
  have hcompare (hunhidden : ∀ head body, .other head body ∈ pieces 0 (splitlines source) →
      ∀ x ∈ heads 0 body, ∀ text ∈ x.2, decrypts V r.old text = false) :
      (heads 0 (splitlines source)).map (·.1) = (heads 0 out).map (·.1) ∧
        List.Forall₂ (r.Becomes path) (vaultBlocks source) (vaultBlocks updated) := by
    have hheads := renewed_heads hrenewed hunhidden
    rw [← heads_pieces, ← heads_pieces] at hheads
    obtain ⟨hlines, hblocks⟩ := head_blocks hheads
    refine ⟨hlines, ?_⟩
    obtain ⟨-, -, hended⟩ := cut_updated hout hnil
    rw [hupdated, cut_lines] at hended
    rw [vaultBlocks_eq, vaultBlocks_eq]
    rcases hended with ⟨hended, -⟩ | ⟨hended, -⟩
    · rw [show splitlines updated = out from hended]
      exact hblocks
    · rw [hended] at hblocks
      rcases heads_append_blank 0 (splitlinesFrom [] updated) with heq | heq
      · rw [heq] at hblocks
        exact hblocks
      · have hblank : [(([] : Text), (none : Option Text))].filterMap (·.2) = [] := rfl
        rw [heq, List.filterMap_append, hblank, List.append_nil] at hblocks
        exact hblocks
  constructor
  · intro hexact
    have hunhidden := hcounted.mp hexact.count
    obtain ⟨hsame, hblocks⟩ := hcompare hunhidden
    obtain ⟨hbreaks, hending⟩ :=
      (outside_iff hcr hout hnil hupdated.symm hsame).mp hexact.outside
    exact ⟨(blocks_iff hblocks).mp hexact.blocks, hunhidden, hbreaks, hending⟩
  · intro hrotatable
    obtain ⟨hsame, hblocks⟩ := hcompare hrotatable.unhidden
    exact ⟨(blocks_iff hblocks).mpr hrotatable.utf8, hcounted.mpr hrotatable.unhidden,
      (outside_iff hcr hout hnil hupdated.symm hsame).mpr ⟨hrotatable.breaks, hrotatable.ending⟩⟩

end Main

/-! ## Files that are rotated, and files that are not -/

section Demo

def hexDigit (n : Nat) : Char := if n < 10 then Char.ofNat (48 + n) else Char.ofNat (87 + n)

def hexValue (c : Char) : Nat := if c.toNat < 58 then c.toNat - 48 else c.toNat - 87

def hexlify (bs : Bytes) : Text :=
  bs.flatMap fun b => [hexDigit (b.toNat / 16), hexDigit (b.toNat % 16)]

def unhexlify : Text → Option Bytes
  | [] => some []
  | [_] => none
  | c :: d :: cs => (unhexlify cs).map (UInt8.ofNat (hexValue c * 16 + hexValue d) :: ·)

theorem hexDigit_spec : ∀ n < 16, hexValue (hexDigit n) = n ∧ isSpace (hexDigit n) = false := by
  decide

theorem unhexlify_hexlify (bs : Bytes) : unhexlify (hexlify bs) = some bs := by
  induction bs with
  | nil => rfl
  | cons b bs ih =>
    have hb : b.toNat < 256 := b.toNat_lt
    show (unhexlify (hexlify bs)).map _ = _
    rw [ih, (hexDigit_spec (b.toNat / 16) (by omega)).1, (hexDigit_spec (b.toNat % 16) (by omega)).1,
      show b.toNat / 16 * 16 + b.toNat % 16 = b.toNat by omega, Option.map_some, UInt8.ofNat_toNat]

theorem hexlify_no_space (bs : Bytes) : ∀ c ∈ hexlify bs, isSpace c = false := by
  intro c hc
  obtain ⟨b, -, hc⟩ := List.mem_flatMap.mp hc
  have hb : b.toNat < 256 := b.toNat_lt
  rcases List.mem_cons.mp hc with rfl | hc
  · exact (hexDigit_spec _ (by omega)).2
  · rw [List.mem_singleton.mp hc]
    exact (hexDigit_spec _ (by omega)).2

def demoHeader : Text := "$ANSIBLE_VAULT;1.1;AES256"

/-- The text in clear, after the password and a byte that no password has. -/
def demoBody (password : Text) (plain : Bytes) : Text := hexlify (encode password ++ 0xff :: plain)

theorem demoBody_ne_nil (password : Text) (plain : Bytes) : demoBody password plain ≠ [] := by
  intro h
  have hnone := congrArg unhexlify h
  rw [demoBody, unhexlify_hexlify] at hnone
  have := Option.some.inj hnone
  simp at this

theorem strip_demo (password : Text) (plain : Bytes) :
    strip (demoHeader ++ '\n' :: demoBody password plain ++ ['\n']) =
      demoHeader ++ '\n' :: demoBody password plain := by
  rw [strip_append_space (by decide)]
  have hbody := strip_of_no_space (hexlify_no_space (encode password ++ 0xff :: plain))
  have h := strip_cons_append (c := '$') (by decide) hbody (demoBody_ne_nil password plain)
    ("ANSIBLE_VAULT;1.1;AES256\n".toList)
  exact h

/-- A vault that only checks the password. -/
def demoDecrypt (password text : Text) : Except String Bytes :=
  if startsWith text (demoHeader ++ ['\n']) then
    match unhexlify (text.drop 26) with
    | none => .error "not hexadecimal"
    | some bs =>
        if (encode password ++ [0xff]).isPrefixOf bs then .ok (bs.drop ((encode password).length + 1))
        else .error "wrong password"
  else .error "not a vault"

theorem demoDecrypt_demoBody (password : Text) (plain : Bytes) :
    demoDecrypt password (demoHeader ++ '\n' :: demoBody password plain) = .ok plain := by
  have htext : demoHeader ++ '\n' :: demoBody password plain =
      (demoHeader ++ ['\n']) ++ demoBody password plain := by
    rw [List.append_assoc]
    rfl
  have hstart : startsWith (demoHeader ++ '\n' :: demoBody password plain)
      (demoHeader ++ ['\n']) = true := by
    rw [htext]
    exact List.isPrefixOf_iff_prefix.mpr (List.prefix_append _ _)
  have hdrop : (demoHeader ++ '\n' :: demoBody password plain).drop 26 = demoBody password plain := by
    rw [htext]
    exact List.drop_left' (by decide)
  have hbytes : encode password ++ 0xff :: plain = (encode password ++ [0xff]) ++ plain := by
    rw [List.append_assoc]
    rfl
  unfold demoDecrypt
  rw [if_pos hstart, hdrop, demoBody, unhexlify_hexlify]
  dsimp only
  rw [hbytes, if_pos (List.isPrefixOf_iff_prefix.mpr (List.prefix_append _ _))]
  exact congrArg Except.ok (List.drop_left' (by simp))

def demoVault : VaultLib where
  Salt := Unit
  decrypt := demoDecrypt
  encrypt _ password plain := .ok (demoHeader ++ '\n' :: demoBody password plain ++ ['\n'])
  decrypt_encrypt _ password plain text h := by
    cases h
    rw [strip_demo]
    exact demoDecrypt_demoBody password plain
  encrypt_marked _ password plain text h := by
    cases h
    rw [strip_demo]
    rfl
  encrypt_lines _ password plain text h := by
    cases h
    refine ⟨[demoHeader, demoBody password plain], ?_, by simp, ?_⟩
    · rw [strip_demo]
      simp [joinLines, List.intercalate]
    · intro line hline
      rcases List.mem_cons.mp hline with rfl | hline
      · have hspaces : (demoHeader.all fun c => isSpace c = false) = true := by decide
        exact ⟨by decide, fun c hc => of_decide_eq_true (List.all_eq_true.mp hspaces c hc)⟩
      · rw [List.mem_singleton.mp hline]
        exact ⟨demoBody_ne_nil password plain, hexlify_no_space _⟩

def demoRotation : Rotation demoVault := ⟨"old", "new", fun _ => ()⟩

/-- A rotation of the text that is not exact. -/
def RotatedWrong (content : Text) : Prop :=
  ∃ updated count, demoRotation.rotateVaultBlocksForFile [] (encode content) = .ok (updated, count) ∧
    ¬ Exact demoVault "old" "new" (readText (encode content)) updated count

/-- A comment hides a block, a plaintext is no UTF-8, a form feed becomes a line break. -/
theorem rotation_not_exact :
    RotatedWrong
      "a:\n# !vault | text\n  b: !vault |\n    $ANSIBLE_VAULT;1.1;AES256\n    6f6c64ff6869\n" ∧
    RotatedWrong "b: !vault |\n  $ANSIBLE_VAULT;1.1;AES256\n  6f6c64ffff\n" ∧
    RotatedWrong "# a\x0cb\nb: !vault |\n  $ANSIBLE_VAULT;1.1;AES256\n  6f6c64ff6869\n" := by
  refine ⟨⟨"a:\n# !vault | text\n  b: !vault |\n    $ANSIBLE_VAULT;1.1;AES256\n    6f6c64ff6869\n",
      0, by decide +kernel, fun h => ?_⟩,
    ⟨"b: !vault |\n  $ANSIBLE_VAULT;1.1;AES256\n  6e6577ffefbfbd\n", 1, by decide +kernel,
      fun h => ?_⟩,
    ⟨"# a\nb\nb: !vault |\n  $ANSIBLE_VAULT;1.1;AES256\n  6e6577ff6869\n", 1, by decide +kernel,
      fun h => ?_⟩⟩
  · exact absurd h.count (by decide +kernel)
  · have hold : vaultBlocks (readText (encode
        "b: !vault |\n  $ANSIBLE_VAULT;1.1;AES256\n  6f6c64ffff\n")) =
        ["$ANSIBLE_VAULT;1.1;AES256\n6f6c64ffff".toList] := by decide +kernel
    have hnew : vaultBlocks "b: !vault |\n  $ANSIBLE_VAULT;1.1;AES256\n  6e6577ffefbfbd\n".toList =
        ["$ANSIBLE_VAULT;1.1;AES256\n6e6577ffefbfbd".toList] := by decide +kernel
    have hblocks := h.blocks
    rw [hold, hnew] at hblocks
    have hsame := (List.forall₂_cons.mp hblocks).1 [0xff] (by decide +kernel)
    exact absurd hsame (by decide +kernel)
  · exact absurd h.outside (by decide +kernel)

/-- The configuration of an application, with a comment and an encrypted key. -/
theorem rotation_exact_iff_config : ∃ updated,
    demoRotation.rotateVaultBlocksForFile []
      (encode "# app\nkey: !vault |\n  $ANSIBLE_VAULT;1.1;AES256\n  6f6c64ff6869\n\nnext: 1\n") =
        .ok (updated, 1) ∧
    Exact demoVault "old" "new"
      (readText (encode "# app\nkey: !vault |\n  $ANSIBLE_VAULT;1.1;AES256\n  6f6c64ff6869\n\nnext: 1\n"))
      updated 1 := by
  have hrun : demoRotation.rotateVaultBlocksForFile []
      (encode "# app\nkey: !vault |\n  $ANSIBLE_VAULT;1.1;AES256\n  6f6c64ff6869\n\nnext: 1\n") =
        .ok ("# app\nkey: !vault |\n  $ANSIBLE_VAULT;1.1;AES256\n  6e6577ff6869\nnext: 1\n".toList, 1) := by
    decide +kernel
  refine ⟨_, hrun, (rotation_exact_iff hrun).mpr ⟨?_, ?_, ?_, ?_⟩⟩
  · have hblocks : vaultBlocks (readText (encode
        "# app\nkey: !vault |\n  $ANSIBLE_VAULT;1.1;AES256\n  6f6c64ff6869\n\nnext: 1\n")) =
        ["$ANSIBLE_VAULT;1.1;AES256\n6f6c64ff6869".toList] := by decide +kernel
    intro text htext plain hplain
    rw [hblocks] at htext
    rw [List.mem_singleton.mp htext] at hplain
    cases hplain
    exact ⟨"hi".toList, by decide⟩
  · have hpieces : ((pieces 0 (splitlines (readText (encode
        "# app\nkey: !vault |\n  $ANSIBLE_VAULT;1.1;AES256\n  6f6c64ff6869\n\nnext: 1\n")))).all
        fun p => match p with | .other .. => false | _ => true) = true := by decide +kernel
    intro head body hmem
    cases List.all_eq_true.mp hpieces _ hmem
  · have hbreaks : ((outside (readText (encode
        "# app\nkey: !vault |\n  $ANSIBLE_VAULT;1.1;AES256\n  6f6c64ff6869\n\nnext: 1\n"))).all
        fun line => line.2.all isYamlBreak) = true := by decide +kernel
    exact fun line hline => List.all_eq_true.mp (List.all_eq_true.mp hbreaks line hline)
  · intro line hline hnil
    rfl

end Demo

end Infinito.Vault
