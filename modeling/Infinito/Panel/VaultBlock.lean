import Infinito.Orders.Customers
import Infinito.Lib.Trim

/-!
# Vault blocks in the editor

`findVaultBlock` looks upwards from the cursor for a line `key: !vault` and takes the lines below it
for its block, as far as they are indented or begin with `$ANSIBLE_VAULT`, and one blank line.
`replaceVaultBlock` writes over that block. `edit_ok_iff` says when the block is the one that the
cursor is in, when all of it belongs to the scalar of the header, and when the text that is written
is read back.
-/

set_option autoImplicit false

namespace Infinito.Panel

open Lib
open Orders (jsTrim isJsSpace)

/-! ## The lines of a file -/

/-- `!line.trim()` -/
def isBlank (line : Text) : Bool := jsTrim line = []

def vaultMark : Text := "$ANSIBLE_VAULT".toList

/-- `line.trim().startsWith("$ANSIBLE_VAULT")` -/
def isVaultLine (line : Text) : Bool := vaultMark.isPrefixOf (jsTrim line)

def isKeyChar (c : Char) : Bool := c.isAlphanum || c = '_'

/-- The text behind `lead`. -/
def behind (lead t : Text) : Option Text := if lead.isPrefixOf t then some (t.drop lead.length) else none

/-- `(\|[-+]?)?\s*$` -/
def endsHeader (rest : Text) : Bool :=
  match rest with
  | '|' :: '-' :: rest => rest.all isJsSpace
  | '|' :: '+' :: rest => rest.all isJsSpace
  | '|' :: rest => rest.all isJsSpace
  | rest => rest.all isJsSpace

/-- `/^(\s*)([A-Za-z0-9_]+)\s*:\s*!vault\s*(\|[-+]?)?\s*$/`: the indentation and the key. -/
def keyMatch? (line : Text) : Option (Text × Text) := do
  let rest := line.dropWhile isJsSpace
  let key := rest.takeWhile isKeyChar
  let rest ← behind ":".toList ((rest.dropWhile isKeyChar).dropWhile isJsSpace)
  let rest ← behind "!vault".toList (rest.dropWhile isJsSpace)
  if key ≠ [] ∧ endsHeader (rest.dropWhile isJsSpace) then
    some (line.takeWhile isJsSpace, key)
  else none

/-! ## The block -/

structure VaultBlock where
  key : Text
  start : Nat
  stop : Nat
  indent : Text
  deriving DecidableEq

/-- The line goes on with a block. -/
def continues (indent line : Text) : Bool :=
  !isBlank line && (indent.isPrefixOf line || isVaultLine line)

/-- The search for the header, upwards from the line before `n`. -/
def headerAbove (lines : List Text) : Nat → Option (Nat × Text × Text)
  | 0 => none
  | n + 1 => match (lines[n]?).bind keyMatch? with
    | some (base, key) => some (n, base, key)
    | none => headerAbove lines n

/-- How far the block goes on in the lines below its first. -/
def extent (indent : Text) : List Text → Nat
  | [] => 0
  | next :: rest =>
      if isBlank next then 1
      else if indent.isPrefixOf next || isVaultLine next then extent indent rest + 1
      else 0

/-- `indent` -/
def blockIndent (base : Text) : Text := base ++ "  ".toList

/-- The block of a header, by the lines below its first. -/
def blockAt (key base : Text) (start : Nat) (tail : List Text) : VaultBlock where
  key := key
  start := start
  stop := start + 1 + extent (blockIndent base) tail
  indent := blockIndent base

/-- `findVaultBlock` -/
def findVaultBlock (lines : List Text) (lineIndex : Int) : Option VaultBlock :=
  if lineIndex < 0 ∨ lines.length ≤ lineIndex then none
  else match headerAbove lines (lineIndex.toNat + 1) with
    | none => none
    | some (start, base, key) => match lines[start + 1]? with
      | none => none
      | some first =>
          if isVaultLine first then some (blockAt key base start (lines.drop (start + 2)))
          else none

/-- A line of the payload without its indentation. -/
def cleanLine (indent line : Text) : Text :=
  if indent ≠ [] ∧ indent.isPrefixOf line then line.drop indent.length else line.dropWhile isJsSpace

/-- `extractVaultText` -/
def extractVaultText (lines : List Text) (block : VaultBlock) : Text :=
  jsTrim (['\n'].intercalate
    (((lines.take (block.stop + 1)).drop (block.start + 1)).map (cleanLine block.indent)))

/-- `replaceVaultBlock` -/
def replaceVaultBlock (lines : List Text) (block : VaultBlock) (vaultText : Text) : Text :=
  let indent := if block.indent = [] then "  ".toList else block.indent
  ['\n'].intercalate (lines.take (block.start + 1) ++
    (vaultText.splitOn '\n').map (indent ++ ·) ++ lines.drop (block.stop + 1))

/-! ## Where a block is -/

/-- The nearest header at or above the cursor, with a line of a vault below it. -/
structure Location (lines : List Text) (cursor : Int) where
  above : List Text
  header : Text
  first : Text
  tail : List Text
  base : Text
  key : Text
  split : lines = above ++ header :: first :: tail
  isHeader : keyMatch? header = some (base, key)
  isVault : isVaultLine first = true
  le_cursor : above.length ≤ cursor
  cursor_lt : cursor < lines.length
  nearest : ∀ i : Nat, above.length < i → i ≤ cursor → (lines[i]?).bind keyMatch? = none

namespace Location
variable {lines : List Text} {cursor : Int} (loc : Location lines cursor)

def indent : Text := blockIndent loc.base

def block : VaultBlock := blockAt loc.key loc.base loc.above.length loc.tail

theorem length_eq : lines.length = loc.above.length + (loc.tail.length + 2) :=
  (congrArg List.length loc.split).trans (by simp)

theorem getElem?_start : lines[loc.above.length]? = some loc.header :=
  (congrArg (fun l => l[loc.above.length]?) loc.split).trans (by simp)

theorem getElem?_first : lines[loc.above.length + 1]? = some loc.first :=
  (congrArg (fun l => l[loc.above.length + 1]?) loc.split).trans (by simp)

theorem drop_tail : lines.drop (loc.above.length + 2) = loc.tail :=
  (congrArg (fun l => l.drop (loc.above.length + 2)) loc.split).trans (by simp)

end Location

section Find
variable {lines : List Text} {cursor : Int} {block : VaultBlock}

theorem headerAbove_eq_some {n start : Nat} {base key : Text} :
    headerAbove lines n = some (start, base, key) ↔
      start < n ∧ (lines[start]?).bind keyMatch? = some (base, key) ∧
        ∀ i, start < i → i < n → (lines[i]?).bind keyMatch? = none := by
  induction n with
  | zero => simp [headerAbove]
  | succ n ih =>
    rw [headerAbove]
    cases hline : (lines[n]?).bind keyMatch? with
    | some found =>
      constructor
      · intro h
        cases h
        exact ⟨Nat.lt_succ_self _, hline, fun i hlt hle => absurd hlt (by omega)⟩
      · rintro ⟨hlt, hstart, hnone⟩
        by_cases heq : start = n
        · subst heq
          rw [hline] at hstart
          cases hstart
          rfl
        · rw [hnone n (by omega) (Nat.lt_succ_self n)] at hline
          cases hline
    | none =>
      refine ih.trans ?_
      constructor
      · rintro ⟨hlt, hstart, hnone⟩
        refine ⟨by omega, hstart, fun i hi hin => ?_⟩
        by_cases heq : i = n
        · rw [heq]
          exact hline
        · exact hnone i hi (by omega)
      · rintro ⟨hlt, hstart, hnone⟩
        have hne : start ≠ n := by
          rintro rfl
          rw [hline] at hstart
          cases hstart
        exact ⟨by omega, hstart, fun i hi hin => hnone i hi (by omega)⟩

/-- The block that is found is the block of a location. -/
theorem findVaultBlock_eq_some :
    findVaultBlock lines cursor = some block ↔ ∃ loc : Location lines cursor, loc.block = block := by
  constructor
  · intro h
    unfold findVaultBlock at h
    split at h
    · cases h
    · rename_i hrange
      split at h
      · cases h
      · rename_i start base key hheader
        obtain ⟨hlt, hstart, hnone⟩ := headerAbove_eq_some.mp hheader
        split at h
        · cases h
        · rename_i first hfirst
          split at h
          · rename_i hvault
            cases h
            obtain ⟨header, hline, hmatch⟩ := Option.bind_eq_some_iff.mp hstart
            obtain ⟨hlen, hline⟩ := List.getElem?_eq_some_iff.mp hline
            obtain ⟨hlen', hfirst⟩ := List.getElem?_eq_some_iff.mp hfirst
            have hsplit : lines = lines.take start ++ header :: first :: lines.drop (start + 2) := by
              rw [← hline, ← hfirst, List.getElem_cons_drop, List.getElem_cons_drop,
                List.take_append_drop]
            have habove : (lines.take start).length = start := by
              rw [List.length_take]
              omega
            refine ⟨{
              above := lines.take start
              header := header
              first := first
              tail := lines.drop (start + 2)
              base := base
              key := key
              split := hsplit
              isHeader := hmatch
              isVault := hvault
              le_cursor := by omega
              cursor_lt := by omega
              nearest := fun i hi hcursor => hnone i (by omega) (by omega) }, ?_⟩
            exact congrArg (fun start' => blockAt key base start' (lines.drop (start + 2))) habove
          · cases h
  · rintro ⟨loc, rfl⟩
    have hlen := loc.length_eq
    have hle := loc.le_cursor
    have hlt := loc.cursor_lt
    have hheader : headerAbove lines (cursor.toNat + 1) =
        some (loc.above.length, loc.base, loc.key) := by
      refine headerAbove_eq_some.mpr ⟨by omega, ?_, fun i hi hcursor => loc.nearest i hi (by omega)⟩
      rw [loc.getElem?_start]
      exact loc.isHeader
    unfold findVaultBlock
    rw [if_neg (by omega), hheader]
    dsimp only
    rw [loc.getElem?_first]
    dsimp only
    rw [if_pos loc.isVault, loc.drop_tail]
    rfl

end Find

/-! ## Lines and texts -/

section Lines
variable {line indent : Text} {c : Char}

theorem isBlank_iff : isBlank line = true ↔ ∀ c ∈ line, isJsSpace c = true := by
  unfold isBlank
  rw [decide_eq_true_eq]
  exact trim_eq_nil_iff

theorem not_isBlank_iff : isBlank line = false ↔ ∃ c ∈ line, isJsSpace c = false := by
  rw [← Bool.not_eq_true, isBlank_iff]
  push Not
  exact exists_congr fun c => and_congr_right fun _ => iff_of_eq (Bool.not_eq_true _)

theorem vaultMark_solid : ∀ c ∈ vaultMark, isJsSpace c = false := by
  have hall : vaultMark.all (fun c => !isJsSpace c) = true := by decide
  intro c hc
  simpa using List.all_eq_true.mp hall c hc

theorem isVaultLine_iff : isVaultLine line = true ↔ vaultMark <+: line.dropWhile isJsSpace := by
  unfold isVaultLine
  rw [List.isPrefixOf_iff_prefix]
  exact prefix_trim_iff vaultMark_solid

theorem not_isBlank_of_vault (h : isVaultLine line = true) : isBlank line = false := by
  refine not_isBlank_iff.mpr ⟨'$', ?_, by decide⟩
  have hmem : '$' ∈ vaultMark := by
    unfold vaultMark
    decide
  exact (List.dropWhile_sublist _).subset ((isVaultLine_iff.mp h).subset hmem)

theorem not_isBlank_of_continues (h : continues indent line = true) : isBlank line = false := by
  unfold continues at h
  rw [Bool.and_eq_true, Bool.not_eq_true'] at h
  exact h.1

theorem base_of_keyMatch {base key : Text} (h : keyMatch? line = some (base, key)) :
    base = line.takeWhile isJsSpace := by
  unfold keyMatch? at h
  simp only [Option.bind_eq_bind, Option.bind_eq_some_iff] at h
  obtain ⟨_, -, _, -, h⟩ := h
  split at h
  · cases h
    rfl
  · cases h

theorem blockIndent_space {base : Text} (h : ∀ c ∈ base, isJsSpace c = true) :
    ∀ c ∈ blockIndent base, isJsSpace c = true := by
  intro c hc
  rcases List.mem_append.mp hc with hc | hc
  · exact h c hc
  · have hspace : ∀ d ∈ "  ".toList, isJsSpace d = true :=
      List.all_eq_true.mp (by decide)
    exact hspace c hc

theorem blockIndent_ne_nil (base : Text) : blockIndent base ≠ [] :=
  List.append_ne_nil_of_right_ne_nil _ (by decide)

theorem cleanLine_append (h : indent ≠ []) (t : Text) : cleanLine indent (indent ++ t) = t := by
  unfold cleanLine
  rw [if_pos ⟨h, List.isPrefixOf_iff_prefix.mpr (List.prefix_append _ _)⟩, List.drop_left]

theorem isBlank_cleanLine (hindent : ∀ c ∈ indent, isJsSpace c = true) :
    isBlank (cleanLine indent line) = isBlank line := by
  unfold isBlank
  refine decide_eq_decide.mpr ?_
  have hsame : trim isJsSpace (cleanLine indent line) = trim isJsSpace line := by
    unfold cleanLine
    split
    · rename_i h
      obtain ⟨rest, rfl⟩ := List.isPrefixOf_iff_prefix.mp h.2
      rw [List.drop_left, trim_append_left hindent]
    · unfold trim
      rw [List.dropWhile_idempotent]
  exact iff_of_eq (congrArg (· = []) hsame)

/-! ### How far a block goes -/

theorem extent_cons (next : Text) (rest : List Text) :
    extent indent (next :: rest) =
      if isBlank next = true then 1
      else if continues indent next = true then extent indent rest + 1 else 0 := by
  rw [extent]
  unfold continues
  cases isBlank next with
  | true => rfl
  | false => rfl

theorem extent_append {run rest : List Text} (h : ∀ line ∈ run, continues indent line = true) :
    extent indent (run ++ rest) = run.length + extent indent rest := by
  induction run with
  | nil => simp
  | cons line run ih =>
    have hline := h line List.mem_cons_self
    rw [List.cons_append, extent_cons, if_neg (by simp [not_isBlank_of_continues hline]),
      if_pos hline, ih fun other hother => h other (List.mem_cons_of_mem _ hother),
      List.length_cons]
    omega

/-- The lines that go on, up to the first that does not. -/
def run (indent : Text) (tail : List Text) : List Text := tail.takeWhile (continues indent)

/-- The lines from there. -/
def below (indent : Text) (tail : List Text) : List Text := tail.dropWhile (continues indent)

/-- A blank line ends the run, and belongs to the block. -/
def blankBelow (indent : Text) (tail : List Text) : Nat :=
  match below indent tail with
  | [] => 0
  | line :: _ => if isBlank line then 1 else 0

theorem continues_of_below {tail rest : List Text} (h : below indent tail = line :: rest) :
    continues indent line = false := by
  have hne : tail.dropWhile (continues indent) ≠ [] := by
    intro hnil
    unfold below at h
    rw [hnil] at h
    cases h
  have hhead := List.head_dropWhile_not (continues indent) hne
  unfold below at h
  simp only [h, List.head_cons] at hhead
  exact hhead

theorem extent_below (tail : List Text) :
    extent indent (below indent tail) = blankBelow indent tail := by
  unfold blankBelow
  cases hbelow : below indent tail with
  | nil => rfl
  | cons line rest =>
    rw [extent_cons, continues_of_below hbelow]
    rfl

theorem extent_eq (tail : List Text) :
    extent indent tail = (run indent tail).length + blankBelow indent tail := by
  have hsplit : tail = run indent tail ++ below indent tail := List.takeWhile_append_dropWhile.symm
  have hrun : ∀ line ∈ run indent tail, continues indent line = true :=
    fun line hline => List.mem_takeWhile_imp hline
  conv_lhs => rw [hsplit]
  rw [extent_append hrun, extent_below]

end Lines

/-! ## What is read from a block -/

section Read
variable {above tail rest ts : List Text} {header first base key indent text t₀ : Text}

/-- The block that is found at its own header. -/
theorem findVaultBlock_header (hheader : keyMatch? header = some (base, key)) :
    findVaultBlock (above ++ header :: first :: tail) above.length =
      if isVaultLine first then some (blockAt key base above.length tail) else none := by
  have hfound : headerAbove (above ++ header :: first :: tail) (above.length + 1) =
      some (above.length, base, key) := by
    refine headerAbove_eq_some.mpr ⟨Nat.lt_succ_self _, ?_, fun i hi hlt => absurd hi (by omega)⟩
    rw [List.getElem?_append_right le_rfl, Nat.sub_self]
    exact hheader
  have hfirst : (above ++ header :: first :: tail)[above.length + 1]? = some first := by simp
  have htail : (above ++ header :: first :: tail).drop (above.length + 2) = tail := by simp
  have hrange : ¬ ((above.length : Int) < 0 ∨
      ((above ++ header :: first :: tail).length : Int) ≤ above.length) := by
    rw [List.length_append, List.length_cons]
    omega
  unfold findVaultBlock
  rw [if_neg hrange, Int.toNat_natCast, hfound]
  dsimp only
  rw [hfirst]
  dsimp only
  rw [htail]

/-- The lines of a block. -/
theorem lines_blockAt :
    ((above ++ header :: first :: tail).take ((blockAt key base above.length tail).stop + 1)).drop
      ((blockAt key base above.length tail).start + 1) =
      first :: tail.take (extent (blockIndent base) tail) := by
  have hdrop : (above ++ header :: first :: tail).drop (above.length + 1) = first :: tail := by simp
  unfold blockAt
  dsimp only
  rw [List.drop_take, hdrop, show above.length + 1 + extent (blockIndent base) tail + 1 -
    (above.length + 1) = extent (blockIndent base) tail + 1 by omega, List.take_succ_cons]

theorem drop_blockAt :
    (above ++ header :: first :: tail).drop ((blockAt key base above.length tail).stop + 1) =
      tail.drop (extent (blockIndent base) tail) := by
  have hdrop : (above ++ header :: first :: tail).drop (above.length + 2) = tail := by simp
  unfold blockAt
  dsimp only
  rw [show above.length + 1 + extent (blockIndent base) tail + 1 =
    above.length + 2 + extent (blockIndent base) tail by omega, ← List.drop_drop, hdrop]

theorem take_header : (above ++ header :: rest).take (above.length + 1) = above ++ [header] := by
  have hsplit : above ++ header :: rest = (above ++ [header]) ++ rest := by simp
  rw [hsplit]
  exact List.take_left' (List.length_append.trans rfl)

theorem take_blockAt :
    (above ++ header :: first :: tail).take ((blockAt key base above.length tail).start + 1) =
      above ++ [header] := take_header

/-- The text that is read from a payload with `rest` below it. -/
def readText (indent : Text) (payload rest : List Text) : Text :=
  jsTrim (['\n'].intercalate ((payload ++ rest.take (extent indent rest)).map (cleanLine indent)))

/-- What is below the payload is not read when it does not go on. -/
theorem readText_eq (hindent : ∀ c ∈ indent, isJsSpace c = true) (hne : indent ≠ [])
    (htext : jsTrim text = text) (hsolid : text ≠ []) :
    readText indent ((text.splitOn '\n').map (indent ++ ·)) rest = text ↔
      ∀ next more, rest = next :: more → continues indent next = false := by
  have hclean : ((text.splitOn '\n').map (indent ++ ·)).map (cleanLine indent) =
      text.splitOn '\n' := by
    rw [List.map_map]
    conv_rhs => rw [← List.map_id (text.splitOn '\n')]
    exact List.map_congr_left fun t _ => cleanLine_append hne t
  have hread : ∀ lines : List Text, ['\n'].intercalate
      (((text.splitOn '\n').map (indent ++ ·) ++ lines).map (cleanLine indent)) =
      text ++ (lines.map (cleanLine indent)).flatMap fun line => '\n' :: line := by
    intro lines
    rw [List.map_append, hclean, intercalate_append (List.splitOn_ne_nil '\n' text),
      List.intercalate_splitOn]
  unfold readText
  rw [hread]
  cases rest with
  | nil =>
    refine iff_of_true ?_ (fun next more h => by cases h)
    rw [List.take_nil]
    simpa using htext
  | cons next more =>
    rw [extent_cons]
    by_cases hblank : isBlank next = true
    · have hgo : continues indent next = false := by
        unfold continues
        rw [hblank]
        rfl
      refine iff_of_true ?_ (fun _ _ h => by cases h; exact hgo)
      rw [if_pos hblank, List.take_succ_cons, List.take_zero, List.map_cons, List.map_nil,
        List.flatMap_cons, List.flatMap_nil, List.append_nil]
      refine (trim_append_right ?_).trans htext
      intro c hc
      rcases List.mem_cons.mp hc with rfl | hc
      · decide
      · rw [← isBlank_cleanLine hindent, isBlank_iff] at hblank
        exact hblank c hc
    · rw [if_neg hblank]
      by_cases hgo : continues indent next = true
      · refine iff_of_false ?_ (fun h => by simp [h next more rfl] at hgo)
        rw [if_pos hgo, List.take_succ_cons, List.map_cons, List.flatMap_cons]
        rw [← isBlank_cleanLine hindent, Bool.not_eq_true, not_isBlank_iff] at hblank
        obtain ⟨c, hc, hspace⟩ := hblank
        exact trim_append_ne htext hsolid
          (List.mem_append_left _ (List.mem_cons_of_mem _ hc)) hspace
      · refine iff_of_true ?_ (fun _ _ h => by cases h; exact Bool.eq_false_iff.mpr hgo)
        rw [if_neg hgo, List.take_zero]
        simpa using htext

theorem continues_payload (hindent : ∀ c ∈ indent, isJsSpace c = true) {t : Text} :
    continues indent (indent ++ t) = !isBlank t := by
  have hblank : isBlank (indent ++ t) = isBlank t := by
    unfold isBlank
    exact decide_eq_decide.mpr (iff_of_eq (congrArg (· = []) (trim_append_left hindent)))
  have hprefix : indent.isPrefixOf (indent ++ t) = true :=
    List.isPrefixOf_iff_prefix.mpr (List.prefix_append _ _)
  unfold continues
  rw [hblank, hprefix, Bool.true_or, Bool.and_true]

/-- A blank line inside of the text is where the reading ends. -/
theorem read_ne_of_blank (hindent : ∀ c ∈ indent, isJsSpace c = true) (hne : indent ≠ [])
    (hsplit : text.splitOn '\n' = t₀ :: ts)
    (hblank : ∃ t ∈ ts, isBlank t = true) :
    jsTrim (['\n'].intercalate (((indent ++ t₀) :: (ts.map (indent ++ ·) ++ rest).take
      (extent indent (ts.map (indent ++ ·) ++ rest))).map (cleanLine indent))) ≠ text := by
  obtain ⟨t, hfind⟩ := Option.isSome_iff_exists.mp (List.find?_isSome.mpr hblank)
  obtain ⟨ht, front, back, rfl, hfront⟩ := List.find?_eq_some_iff_append.mp hfind
  have hextent : extent indent ((front ++ t :: back).map (indent ++ ·) ++ rest) =
      (front.map (indent ++ ·)).length + 1 := by
    have hrun : ∀ line ∈ front.map (indent ++ ·), continues indent line = true := by
      intro line hline
      obtain ⟨u, hu, rfl⟩ := List.mem_map.mp hline
      rw [continues_payload hindent]
      exact hfront u hu
    have hpayload : isBlank (indent ++ t) = true := by
      rw [isBlank_iff] at ht ⊢
      intro c hc
      rcases List.mem_append.mp hc with hc | hc
      · exact hindent c hc
      · exact ht c hc
    rw [List.map_append, List.append_assoc, extent_append hrun, List.map_cons, List.cons_append,
      extent_cons, if_pos hpayload]
  have htake : ((front ++ t :: back).map (indent ++ ·) ++ rest).take
      ((front.map (indent ++ ·)).length + 1) = front.map (indent ++ ·) ++ [indent ++ t] := by
    rw [List.map_append, List.append_assoc, List.take_length_add_append]
    rfl
  have hclean : ((indent ++ t₀) :: (front.map (indent ++ ·) ++ [indent ++ t])).map
      (cleanLine indent) = (t₀ :: front) ++ [t] := by
    rw [List.map_cons, List.map_append, List.map_map, cleanLine_append hne, List.map_singleton,
      cleanLine_append hne, List.cons_append]
    refine congrArg (fun lines => t₀ :: (lines ++ [t])) ?_
    conv_rhs => rw [← List.map_id front]
    exact List.map_congr_left fun u _ => cleanLine_append hne u
  have hlines : text = ['\n'].intercalate (t₀ :: front) ++
      (t :: back).flatMap fun line => '\n' :: line := by
    rw [← intercalate_append (List.cons_ne_nil _ _), List.cons_append, ← hsplit,
      List.intercalate_splitOn]
  have hspace : ∀ c ∈ [t].flatMap fun line => '\n' :: line, isJsSpace c = true := by
    intro c hc
    rw [List.flatMap_singleton] at hc
    rcases List.mem_cons.mp hc with rfl | hc
    · decide
    · exact isBlank_iff.mp ht c hc
  rw [hextent, htake, hclean, intercalate_append (List.cons_ne_nil _ _)]
  intro heq
  have hshort : jsTrim (['\n'].intercalate (t₀ :: front)) = text :=
    (trim_append_right hspace).symm.trans heq
  have hle := (trim_sublist isJsSpace (['\n'].intercalate (t₀ :: front))).length_le
  have hlen := congrArg List.length hlines
  rw [List.length_append, List.flatMap_cons, List.length_append, List.length_cons, ← hshort]
    at hlen
  have hsame : (jsTrim (['\n'].intercalate (t₀ :: front))).length =
      (trim isJsSpace (['\n'].intercalate (t₀ :: front))).length := rfl
  omega

/-- The text of a payload is read back exactly if it has no blank line and what is below the
    payload does not go on. -/
theorem read_eq_iff (hindent : ∀ c ∈ indent, isJsSpace c = true) (hne : indent ≠ [])
    (htext : jsTrim text = text) (hsolid : text ≠ []) (hsplit : text.splitOn '\n' = t₀ :: ts) :
    jsTrim (['\n'].intercalate (((indent ++ t₀) :: (ts.map (indent ++ ·) ++ rest).take
      (extent indent (ts.map (indent ++ ·) ++ rest))).map (cleanLine indent))) = text ↔
      (∀ t ∈ ts, isBlank t = false) ∧
        ∀ next more, rest = next :: more → continues indent next = false := by
  by_cases hblank : ∃ t ∈ ts, isBlank t = true
  · refine iff_of_false (read_ne_of_blank hindent hne hsplit hblank) fun h => ?_
    obtain ⟨t, ht, hblank⟩ := hblank
    rw [h.1 t ht] at hblank
    cases hblank
  · push Not at hblank
    have hsome : ∀ t ∈ ts, isBlank t = false := fun t ht => Bool.eq_false_iff.mpr (hblank t ht)
    have hrun : ∀ line ∈ ts.map (indent ++ ·), continues indent line = true := by
      intro line hline
      obtain ⟨t, ht, rfl⟩ := List.mem_map.mp hline
      rw [continues_payload hindent, hsome t ht]
      rfl
    have hread := @readText_eq rest _ _ hindent hne htext hsolid
    rw [hsplit] at hread
    unfold readText at hread
    rw [extent_append hrun, List.take_length_add_append, ← List.cons_append]
    refine Iff.trans ?_ (hread.trans (and_iff_right hsome).symm)
    rfl

theorem splitOn_replace (hlines : ∀ line ∈ above ++ header :: first :: tail, '\n' ∉ line)
    (hbase : base = header.takeWhile isJsSpace) :
    (replaceVaultBlock (above ++ header :: first :: tail) (blockAt key base above.length tail)
      text).splitOn '\n' =
      above ++ header :: ((text.splitOn '\n').map (blockIndent base ++ ·) ++
        tail.drop (extent (blockIndent base) tail)) := by
  have hindent : (blockAt key base above.length tail).indent = blockIndent base := rfl
  unfold replaceVaultBlock
  rw [hindent, if_neg (blockIndent_ne_nil base), take_blockAt, drop_blockAt]
  rw [List.splitOn_intercalate]
  · simp
  · intro line hline
    rcases List.mem_append.mp hline with hline | hline
    · rcases List.mem_append.mp hline with hline | hline
      · refine hlines line ?_
        rcases List.mem_append.mp hline with hline | hline
        · exact List.mem_append_left _ hline
        · rw [List.mem_singleton.mp hline]
          exact List.mem_append_right _ List.mem_cons_self
      · obtain ⟨t, ht, rfl⟩ := List.mem_map.mp hline
        intro hmem
        rcases List.mem_append.mp hmem with hmem | hmem
        · rcases List.mem_append.mp hmem with hmem | hmem
          · rw [hbase] at hmem
            exact hlines header (List.mem_append_right _ List.mem_cons_self)
              ((List.takeWhile_sublist _).subset hmem)
          · revert hmem
            decide
        · exact (mem_splitOn ht).1 hmem
    · refine hlines line (List.mem_append_right _ (List.mem_cons_of_mem _ (List.mem_cons_of_mem _ ?_)))
      exact List.mem_of_mem_drop hline
  · simp

end Read

/-! ## The block of a location -/

section Block
variable {indent : Text} {tail : List Text}

theorem take_extent :
    tail.take (extent indent tail) =
      run indent tail ++ (below indent tail).take (blankBelow indent tail) := by
  have hsplit : tail = run indent tail ++ below indent tail := List.takeWhile_append_dropWhile.symm
  rw [extent_eq]
  refine (congrArg (List.take _) hsplit).trans ?_
  rw [List.take_length_add_append]

theorem drop_extent :
    tail.drop (extent indent tail) = (below indent tail).drop (blankBelow indent tail) := by
  have hsplit : tail = run indent tail ++ below indent tail := List.takeWhile_append_dropWhile.symm
  rw [extent_eq]
  refine (congrArg (List.drop _) hsplit).trans ?_
  rw [List.drop_length_add_append]

theorem isBlank_of_below {line : Text}
    (h : line ∈ (below indent tail).take (blankBelow indent tail)) : isBlank line = true := by
  unfold blankBelow at h
  cases hbelow : below indent tail with
  | nil =>
    rw [hbelow] at h
    cases h
  | cons next rest =>
    rw [hbelow] at h
    dsimp only at h
    by_cases hblank : isBlank next = true
    · rw [if_pos hblank] at h
      rw [List.mem_singleton.mp h]
      exact hblank
    · rw [if_neg hblank] at h
      cases h

/-- What is below the block goes on only behind a blank line. -/
theorem rest_ends_iff :
    (∀ next more, tail.drop (extent indent tail) = next :: more → continues indent next = false) ↔
      ∀ line next more, below indent tail = line :: next :: more → isBlank line = true →
        continues indent next = false := by
  rw [drop_extent]
  unfold blankBelow
  cases hbelow : below indent tail with
  | nil => simp
  | cons line rest =>
    dsimp only
    by_cases hblank : isBlank line = true
    · rw [if_pos hblank, List.drop_succ_cons, List.drop_zero]
      constructor
      · intro h line' next more heq _
        cases heq
        exact h next more rfl
      · intro h next more heq
        exact h line next more (by rw [heq]) hblank
    · rw [if_neg hblank, List.drop_zero]
      constructor
      · intro _ line' next more heq hline
        cases heq
        exact absurd hline hblank
      · intro _ next more heq
        cases heq
        exact continues_of_below hbelow

end Block

/-! ## When an edit is as it should be -/

/-- A line of the scalar of a header with this indentation: it is indented more, or blank. -/
def InScalar (base line : Text) : Prop := isBlank line = true ∨ base ++ [' '] <+: line

/-- The lines of the file afterwards. -/
def replacedLines (lines : List Text) (block : VaultBlock) (text : Text) : List Text :=
  (replaceVaultBlock lines block text).splitOn '\n'

/-- The cursor is in the block, all of the block is the scalar of its header, the text is read back
    from where it was written, and the rest of the file is as it was. -/
structure EditOk (lines : List Text) (cursor : Int) (block : VaultBlock) (text : Text) : Prop where
  inside : block.start ≤ cursor ∧ cursor ≤ block.stop
  scalar : ∀ line ∈ (lines.take (block.stop + 1)).drop (block.start + 1),
    InScalar (((lines[block.start]?).getD []).takeWhile isJsSpace) line
  readBack : ∃ block', findVaultBlock (replacedLines lines block text) block.start = some block' ∧
    extractVaultText (replacedLines lines block text) block' = text
  frame : (replacedLines lines block text).take (block.start + 1) = lines.take (block.start + 1) ∧
    (replacedLines lines block text).drop (block.start + 1 + (text.splitOn '\n').length) =
      lines.drop (block.stop + 1)

/-- The cursor is not below the run of the header, the run is indented, nothing goes on behind a
    blank line that ends it, and the text is one of `ansible-vault` without a blank line. -/
structure EditSafe {lines : List Text} {cursor : Int} (loc : Location lines cursor) (text : Text) :
    Prop where
  cursor_le : cursor ≤ loc.above.length + 1 + ((run loc.indent loc.tail).length +
    blankBelow loc.indent loc.tail : Nat)
  deeper : ∀ line ∈ loc.first :: run loc.indent loc.tail, loc.base ++ [' '] <+: line
  ends : ∀ line next more, below loc.indent loc.tail = line :: next :: more →
    isBlank line = true → continues loc.indent next = false
  encrypted : vaultMark <+: text
  noBlank : ∀ line ∈ text.splitOn '\n', isBlank line = false

section Edit
variable {lines : List Text} {cursor : Int} {text : Text}

/-- The block is the scalar of its header exactly if its run is indented. -/
theorem scalar_iff {base first : Text} {tail : List Text} {indent : Text}
    (hfirst : isVaultLine first = true) :
    (∀ line ∈ first :: tail.take (extent indent tail), InScalar base line) ↔
      ∀ line ∈ first :: run indent tail, base ++ [' '] <+: line := by
  have hsolid : ∀ line ∈ first :: run indent tail, isBlank line = false := by
    intro line hline
    rcases List.mem_cons.mp hline with rfl | hline
    · exact not_isBlank_of_vault hfirst
    · exact not_isBlank_of_continues (List.mem_takeWhile_imp hline)
  rw [take_extent, ← List.cons_append]
  constructor
  · intro h line hline
    rcases h line (List.mem_append_left _ hline) with hblank | hdeeper
    · rw [hsolid line hline] at hblank
      cases hblank
    · exact hdeeper
  · intro h line hline
    rcases List.mem_append.mp hline with hline | hline
    · exact Or.inr (h line hline)
    · exact Or.inl (isBlank_of_below hline)

/-- A payload begins with the mark of a vault exactly if its text does. -/
theorem isVaultLine_payload {indent t₀ : Text} {ts : List Text}
    (hindent : ∀ c ∈ indent, isJsSpace c = true) (htext : jsTrim text = text)
    (hsplit : text.splitOn '\n' = t₀ :: ts) :
    isVaultLine (indent ++ t₀) = true ↔ vaultMark <+: text := by
  have hlines : text = t₀ ++ ts.flatMap fun line => '\n' :: line := by
    rw [← intercalate_cons, ← hsplit, List.intercalate_splitOn]
  have hself : t₀.dropWhile isJsSpace = t₀ := by
    have htrim : jsTrim (t₀ ++ ts.flatMap fun line => '\n' :: line) = _ := hlines ▸ htext
    exact dropWhile_of_append (dropWhile_of_trimmed htrim)
  rw [isVaultLine_iff, List.dropWhile_append_of_pos hindent, hself]
  constructor
  · intro h
    rw [hlines]
    exact h.trans (List.prefix_append _ _)
  · intro h
    have ht₀ : t₀ <+: text := ⟨_, hlines.symm⟩
    rcases List.prefix_or_prefix_of_prefix h ht₀ with h' | ⟨rest, hrest⟩
    · exact h'
    · rw [hlines, ← hrest, List.prefix_append_right_inj] at h
      cases rest with
      | nil =>
        rw [List.append_nil] at hrest
        exact ⟨[], by rw [List.append_nil, hrest]⟩
      | cons c rest =>
        cases ts with
        | nil => cases List.prefix_nil.mp h
        | cons line ts =>
          -- the mark would go on behind a line feed
          obtain ⟨rfl, -⟩ := List.cons_prefix_cons.mp h
          have hmem : '\n' ∈ vaultMark := by
            rw [← hrest]
            simp
          exact absurd (vaultMark_solid '\n' hmem) (by decide)

/-- The text is read back exactly if it has the mark and no blank line, and nothing goes on below
    it. -/
theorem readBack_iff {above tail : List Text} {header first base key : Text}
    (hheader : keyMatch? header = some (base, key))
    (hlines : ∀ line ∈ above ++ header :: first :: tail, '\n' ∉ line)
    (htext : jsTrim text = text) :
    (∃ block', findVaultBlock (replacedLines (above ++ header :: first :: tail)
          (blockAt key base above.length tail) text) above.length = some block' ∧
        extractVaultText (replacedLines (above ++ header :: first :: tail)
          (blockAt key base above.length tail) text) block' = text) ↔
      vaultMark <+: text ∧ (∀ line ∈ text.splitOn '\n', isBlank line = false) ∧
        ∀ next more, tail.drop (extent (blockIndent base) tail) = next :: more →
          continues (blockIndent base) next = false := by
  have hbase := base_of_keyMatch hheader
  have hindent : ∀ c ∈ blockIndent base, isJsSpace c = true := by
    refine blockIndent_space fun c hc => ?_
    rw [hbase] at hc
    exact List.mem_takeWhile_imp hc
  cases hsplit : text.splitOn '\n' with
  | nil => exact absurd hsplit (List.splitOn_ne_nil '\n' text)
  | cons t₀ ts =>
    have hpayload := isVaultLine_payload hindent htext hsplit
    unfold replacedLines
    rw [splitOn_replace hlines hbase, hsplit, List.map_cons, List.cons_append,
      findVaultBlock_header hheader]
    by_cases hmark : isVaultLine (blockIndent base ++ t₀) = true
    · have hsolid : text ≠ [] := by
        intro hnil
        have hmark' := hpayload.mp hmark
        rw [hnil] at hmark'
        exact absurd (List.prefix_nil.mp hmark') (by unfold vaultMark; decide)
      have ht₀ : isBlank t₀ = false := by
        have hgo := continues_payload (t := t₀) hindent
        have hline := not_isBlank_of_vault hmark
        unfold continues at hgo
        rw [hline, hmark, Bool.or_true] at hgo
        rw [← Bool.not_eq_true', ← hgo]
        rfl
      rw [if_pos hmark]
      simp only [Option.some.injEq, exists_eq_left']
      unfold extractVaultText
      rw [lines_blockAt]
      refine (read_eq_iff hindent (blockIndent_ne_nil base) htext hsolid hsplit).trans ?_
      rw [List.forall_mem_cons, and_iff_right ht₀, and_iff_right (hpayload.mp hmark)]
    · rw [if_neg hmark]
      refine iff_of_false ?_ fun h => hmark (hpayload.mpr h.1)
      rintro ⟨block', hnone, -⟩
      cases hnone

/-- The file above a payload and below it. -/
theorem frame_blockAt {above tail : List Text} {header first base key : Text}
    (hbase : base = header.takeWhile isJsSpace)
    (hlines : ∀ line ∈ above ++ header :: first :: tail, '\n' ∉ line) :
    (replacedLines (above ++ header :: first :: tail) (blockAt key base above.length tail)
      text).take (above.length + 1) =
      (above ++ header :: first :: tail).take (above.length + 1) ∧
    (replacedLines (above ++ header :: first :: tail) (blockAt key base above.length tail)
      text).drop (above.length + 1 + (text.splitOn '\n').length) =
      (above ++ header :: first :: tail).drop
        ((blockAt key base above.length tail).stop + 1) := by
  unfold replacedLines
  rw [splitOn_replace hlines hbase, drop_blockAt]
  constructor
  · exact take_header.trans take_header.symm
  · have hdrop : ∀ rest : List Text, (above ++ header :: rest).drop (above.length + 1) = rest := by
      simp
    have hlength : ((text.splitOn '\n').map (blockIndent base ++ ·)).length =
        (text.splitOn '\n').length := List.length_map _
    rw [← List.drop_drop, hdrop, ← hlength, List.drop_left]

/-- An edit of a block is as it should be exactly if the edit is safe. -/
theorem editOk_iff (loc : Location lines cursor) (hlines : ∀ line ∈ lines, '\n' ∉ line)
    (htext : jsTrim text = text) :
    EditOk lines cursor loc.block text ↔ EditSafe loc text := by
  obtain ⟨above, header, first, tail, base, key, rfl, hheader, hvault, hle, hlt, hnear⟩ := loc
  have hread := readBack_iff hheader hlines htext
  have hbase := base_of_keyMatch hheader
  have hindentation : (((above ++ header :: first :: tail)[above.length]?).getD []).takeWhile
      isJsSpace = base := by
    rw [List.getElem?_append_right le_rfl, Nat.sub_self]
    exact hbase.symm
  have hscalar : (∀ line ∈ ((above ++ header :: first :: tail).take
        ((blockAt key base above.length tail).stop + 1)).drop
        ((blockAt key base above.length tail).start + 1),
      InScalar ((((above ++ header :: first :: tail)[above.length]?).getD []).takeWhile
        isJsSpace) line) ↔
      ∀ line ∈ first :: run (blockIndent base) tail, base ++ [' '] <+: line := by
    rw [lines_blockAt, hindentation]
    exact scalar_iff hvault
  have hstop : (blockAt key base above.length tail).stop = above.length + 1 +
      ((run (blockIndent base) tail).length + blankBelow (blockIndent base) tail) := by
    rw [← extent_eq]
    rfl
  have hinside : cursor ≤ (blockAt key base above.length tail).stop ↔
      cursor ≤ above.length + 1 + ((run (blockIndent base) tail).length +
        blankBelow (blockIndent base) tail : Nat) := by
    rw [hstop]
    push_cast
    exact Iff.rfl
  constructor
  · intro h
    obtain ⟨hmark, hblank, hends⟩ := hread.mp h.readBack
    exact {
      cursor_le := hinside.mp h.inside.2
      deeper := hscalar.mp h.scalar
      ends := rest_ends_iff.mp hends
      encrypted := hmark
      noBlank := hblank }
  · intro h
    exact {
      inside := ⟨hle, hinside.mpr h.cursor_le⟩
      scalar := hscalar.mpr h.deeper
      readBack := hread.mpr ⟨h.encrypted, h.noBlank, rest_ends_iff.mpr h.ends⟩
      frame := frame_blockAt hbase hlines }

end Edit

/-- A file with a vault block and two plain lines below it. -/
def vaultFile : List Text :=
  ["pw: !vault |".toList, "  $ANSIBLE_VAULT;1.1;AES256".toList, "  6631".toList, "port: 22".toList,
    "user: me".toList]

def encryptedText : Text := "$ANSIBLE_VAULT;1.1;AES256\n3132".toList

/-- The cursor in the block. -/
def inBlock : Location vaultFile 1 where
  above := []
  header := "pw: !vault |".toList
  first := "  $ANSIBLE_VAULT;1.1;AES256".toList
  tail := ["  6631".toList, "port: 22".toList, "user: me".toList]
  base := []
  key := "pw".toList
  split := rfl
  isHeader := by decide +kernel
  isVault := by decide +kernel
  le_cursor := by decide
  cursor_lt := by decide
  nearest := by
    intro i hi hcursor
    have h : i = 1 := by
      rw [List.length_nil] at hi
      omega
    rw [h]
    decide +kernel

end Infinito.Panel
