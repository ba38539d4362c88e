import Infinito.Lib.Lists
import Infinito.Workspace.Imports

/-!
# Export, and import into a fresh workspace

`build_zip` puts every file below the workspace root into an archive, under the path it has
and with the mode it has, `workspace.json` aside. `load_zip` reads an archive more narrowly:
it takes a backslash for a slash, passes over a name that starts like a drive or has a part
`workspace.json`, and stops at a mode that lets others write.

So a path comes back as itself if it is `Portable` (`normalize_posix`), and any other name
leads elsewhere, or nowhere (`parts_of_normalize`).
-/

set_option autoImplicit false

namespace Infinito.Workspace

open Py Lib

/-! ## Export -/

/-- `st_mode` of a regular file -/
structure FileMode where
  val : Nat
  lt : val < 2 ^ 16
  regular : val &&& 0o170000 = 0o100000

def FileMode.othersWrite (m : FileMode) : Bool := m.val &&& 0o022 ≠ 0

/-- The files that `os.walk` comes to below a root, in whatever order. -/
structure Walk (d : Disk) (root : Path) where
  files : List Path
  nodup : files.Nodup
  mem_iff : ∀ rel, rel ∈ files ↔ rel ≠ [] ∧ (d.fileAt (root ++ rel)).isSome

variable {d : Disk} {root : Path}

/-- There is one below any root. -/
def Walk.sorted (d : Disk) (root : Path) : Walk d root where
  files := (sortedBy posix posix_injective (d.nodes.keys.filter fun p =>
    root <+: p ∧ p ≠ root ∧ (d.fileAt p).isSome)).map (·.drop root.length)
  nodup := by
    refine nodup_sortedBy.map_on fun p hp q hq heq => ?_
    obtain ⟨-, ⟨r, rfl⟩, -⟩ := Finset.mem_filter.mp (mem_sortedBy.mp hp)
    obtain ⟨-, ⟨s, rfl⟩, -⟩ := Finset.mem_filter.mp (mem_sortedBy.mp hq)
    rw [List.drop_left, List.drop_left] at heq
    rw [heq]
  mem_iff rel := by
    rw [List.mem_map]
    constructor
    · rintro ⟨p, hp, rfl⟩
      obtain ⟨-, ⟨r, rfl⟩, hne, hfile⟩ := Finset.mem_filter.mp (mem_sortedBy.mp hp)
      rw [List.drop_left]
      exact ⟨by simpa using hne, hfile⟩
    · rintro ⟨hne, hfile⟩
      obtain ⟨b, hb⟩ := Option.isSome_iff_exists.mp hfile
      refine ⟨root ++ rel, mem_sortedBy.mpr (Finset.mem_filter.mpr ?_), List.drop_left⟩
      exact ⟨FinMap.mem_keys_of_get (Nodes.fileAt_eq_some.mp hb), List.prefix_append _ _,
        by simpa using hne, hfile⟩

/-- What goes into the archive, relative to the root. -/
def Walk.exported (walk : Walk d root) : List Path :=
  walk.files.filter fun rel => rel.getLast? ≠ some metaName

/-- `build_zip` -/
def buildZip (walk : Walk d root) (mode : Path → FileMode) : List ZipInfo :=
  walk.exported.map fun rel =>
    { filename := posix rel
      externalAttr := (mode rel).val <<< 16
      content := .ok ((d.fileAt (root ++ rel)).getD []) }

/-! ## Names -/

/-- A path whose name the importer reads as what it is. -/
structure Portable (rel : Path) : Prop where
  no_backslash : ∀ n ∈ rel, '\\' ∉ n.text
  no_drive : startsWithDrive (posix rel) = false
  no_metadata : metaName ∉ rel

/-- Where the importer puts an entry of this name, relative to the root. -/
def memberPath (name : Text) : Option Path :=
  (normalizeZipMemberPath name).map fun relPath => lexical (parts relPath)

section Names

theorem parts_intercalate {segments : List Text} (hne : segments ≠ [])
    (hslash : ∀ s ∈ segments, '/' ∉ s) :
    parts (['/'].intercalate segments) = segments.filterMap part := by
  unfold parts
  rw [List.splitOn_intercalate '/' hslash hne]

theorem posix_ne_nil {rel : Path} (hne : rel ≠ []) : posix rel ≠ [] := by
  intro h
  have : rel.map Part.down = [] := by
    rw [← parts_posix, h]
    rfl
  exact hne (List.map_eq_nil_iff.mp this)

theorem splitOn_posix {rel : Path} (hne : rel ≠ []) :
    (posix rel).splitOn '/' = rel.map (·.text) := by
  unfold posix
  refine List.splitOn_intercalate '/' (fun t ht => ?_) (by simpa using hne)
  obtain ⟨n, -, rfl⟩ := List.mem_map.mp ht
  exact n.no_slash

theorem FileName.text_ne_nil (n : FileName) : n.text ≠ [] := by
  intro h
  have hv := n.valid
  rw [h] at hv
  cases hv

theorem FileName.text_ne_up (n : FileName) : n.text ≠ ['.', '.'] := by
  intro h
  have hv := n.valid
  rw [h] at hv
  cases hv

theorem posix_cons_cons (n m : FileName) (rel : Path) :
    posix (n :: m :: rel) = n.text ++ '/' :: posix (m :: rel) := by
  simp [posix, List.intercalate]

theorem mem_posix {rel : Path} {c : Char} (h : c ∈ posix rel) : c = '/' ∨ ∃ n ∈ rel, c ∈ n.text := by
  induction rel with
  | nil => cases h
  | cons n rel ih =>
    cases rel with
    | nil => exact Or.inr ⟨n, List.mem_singleton_self n, by simpa [posix, List.intercalate] using h⟩
    | cons m rel =>
      rw [posix_cons_cons, List.mem_append, List.mem_cons] at h
      rcases h with h | h | h
      · exact Or.inr ⟨n, List.mem_cons_self, h⟩
      · exact Or.inl h
      · refine (ih h).imp id ?_
        rintro ⟨k, hk, hc⟩
        exact ⟨k, List.mem_cons_of_mem _ hk, hc⟩

/-- A path is spelled without a slash at its end. -/
theorem posix_getLast {rel : Path} (hne : rel ≠ []) : (posix rel).getLast? ≠ some '/' := by
  induction rel with
  | nil => exact absurd rfl hne
  | cons n rel ih =>
    cases rel with
    | nil =>
      intro h
      have hmem := List.mem_of_getLast? h
      exact n.no_slash (by simpa [posix, List.intercalate] using hmem)
    | cons m rel =>
      obtain ⟨c, cs, hcs⟩ := List.exists_cons_of_ne_nil (posix_ne_nil (List.cons_ne_nil m rel))
      rw [posix_cons_cons, List.getLast?_append_cons, hcs, List.getLast?_cons_cons, ← hcs]
      exact ih (List.cons_ne_nil m rel)

theorem posix_head {rel : Path} (hne : rel ≠ []) : (posix rel).head? ≠ some '/' := by
  cases rel with
  | nil => exact absurd rfl hne
  | cons n rel =>
    have hhead : (posix (n :: rel)).head? = n.text.head? := by
      cases rel with
      | nil => simp [posix, List.intercalate]
      | cons m rel => rw [posix_cons_cons, List.head?_append_of_ne_nil _ n.text_ne_nil]
    rw [hhead]
    intro h
    exact n.no_slash (List.mem_of_mem_head? h)

theorem not_endsWith_slash {t : Text} (h : t.getLast? ≠ some '/') : endsWith t ['/'] = false := by
  unfold endsWith
  rw [Bool.eq_false_iff]
  intro hsuffix
  obtain ⟨u, rfl⟩ := List.isSuffixOf_iff_suffix.mp hsuffix
  exact h (by simp)

theorem not_startsWith_slash {t : Text} (h : t.head? ≠ some '/') : startsWith t ['/'] = false := by
  unfold startsWith
  rw [Bool.eq_false_iff]
  intro hbelow
  obtain ⟨u, rfl⟩ := List.isPrefixOf_iff_prefix.mp hbelow
  exact h rfl

/-- The name with its backslashes turned. -/
def turned (name : Text) : Text := name.map fun c => if c = '\\' then '/' else c

theorem turned_eq_self {name : Text} (h : '\\' ∉ name) : turned name = name := by
  unfold turned
  have : name.map (fun c => if c = '\\' then '/' else c) = name.map id := by
    refine List.map_congr_left fun c hc => if_neg ?_
    rintro rfl
    exact h hc
  rw [this, List.map_id]

theorem backslash_notMem_turned (name : Text) : '\\' ∉ turned name := by
  intro h
  obtain ⟨c, -, hc⟩ := List.mem_map.mp h
  split at hc
  · cases hc
  · rename_i hne
    exact hne hc

/-- A name that is taken is spelled by its parts, which are none of those it must not have. -/
theorem normalize_eq_some {name relPath : Text} (h : normalizeZipMemberPath name = some relPath) :
    ∃ segments : List Text, segments ≠ [] ∧ relPath = ['/'].intercalate segments ∧
      segments = ((turned name).splitOn '/').filter (· ≠ []) ∧
      ∀ s ∈ segments, s ≠ ['.', '.'] ∧ s ≠ metaName.text := by
  unfold normalizeZipMemberPath at h
  simp only [Bool.or_eq_true, decide_eq_true_eq] at h
  split at h
  · cases h
  split at h
  · cases h
  split at h
  · cases h
  split at h
  · cases h
  rename_i hparts
  split at h
  · cases h
  rename_i hmeta
  cases h
  obtain ⟨hne, hup⟩ := not_or.mp hparts
  refine ⟨_, hne, rfl, rfl, fun s hs => ⟨?_, ?_⟩⟩
  · rintro rfl
    exact hup (List.any_eq_true.mpr ⟨_, hs, by decide⟩)
  · rintro rfl
    exact hmeta (List.any_eq_true.mpr ⟨_, hs, by decide⟩)

/-- The segments that are file names, as such. -/
def fileNames (segments : List Text) : Path :=
  segments.filterMap fun s => if hs : isFileName s = true then some ⟨s, hs⟩ else none

theorem filterMap_part {segments : List Text} (h : ∀ s ∈ segments, s ≠ ['.', '.']) :
    segments.filterMap part = (fileNames segments).map .down := by
  unfold fileNames
  rw [List.map_filterMap]
  refine List.filterMap_congr fun s hs => ?_
  unfold part
  rw [if_neg (h s hs)]
  by_cases hname : isFileName s = true
  · rw [dif_pos hname, dif_pos hname]
    rfl
  · rw [dif_neg hname, dif_neg hname]
    rfl

/-- What a name that is taken leads to: down, through parts without a backslash. -/
theorem parts_of_normalize {name relPath : Text} (h : normalizeZipMemberPath name = some relPath) :
    ∃ rel : Path, parts relPath = rel.map .down ∧ memberPath name = some rel ∧
      ∀ n ∈ rel, '\\' ∉ n.text ∧ n ≠ metaName := by
  obtain ⟨segments, hne, rfl, hsegments, hnot⟩ := normalize_eq_some h
  have hpiece : ∀ s ∈ segments, '/' ∉ s ∧ '\\' ∉ s := by
    intro s hs
    rw [hsegments] at hs
    obtain ⟨hslash, hmem⟩ := mem_splitOn (List.mem_filter.mp hs).1
    exact ⟨hslash, fun hb => backslash_notMem_turned name (hmem _ hb)⟩
  have hparts : parts (['/'].intercalate segments) = (fileNames segments).map .down := by
    rw [parts_intercalate hne fun s hs => (hpiece s hs).1]
    exact filterMap_part fun s hs => (hnot s hs).1
  refine ⟨fileNames segments, hparts, ?_, ?_⟩
  · rw [memberPath, h, Option.map_some, hparts, lexical_down]
  · intro n hn
    obtain ⟨s, hs, hsome⟩ := List.mem_filterMap.mp hn
    split at hsome
    · cases hsome
      exact ⟨(hpiece s hs).2, fun heq => (hnot s hs).2 (congrArg FileName.text heq)⟩
    · cases hsome

/-- Without a backslash the name is taken as it is, or passed over. -/
theorem normalize_posix {rel : Path} (hne : rel ≠ []) (hplain : ∀ n ∈ rel, '\\' ∉ n.text) :
    normalizeZipMemberPath (posix rel) =
      if startsWithDrive (posix rel) = true ∨ metaName ∈ rel then none else some (posix rel) := by
  have hbackslash : '\\' ∉ posix rel := by
    intro h
    rcases mem_posix h with hslash | ⟨n, hn, hmem⟩
    · cases hslash
    · exact hplain n hn hmem
  -- the importer turns backslashes and drops empty segments: here there are none
  have hturned : (posix rel).map (fun c => if c = '\\' then '/' else c) = posix rel :=
    turned_eq_self hbackslash
  have hsegments : ((posix rel).splitOn '/').filter (· ≠ []) = rel.map (·.text) := by
    rw [splitOn_posix hne, List.filter_eq_self]
    intro t ht
    obtain ⟨n, -, rfl⟩ := List.mem_map.mp ht
    simpa using n.text_ne_nil
  have hstart : startsWith (posix rel) ['\\'] = false := by
    rw [Bool.eq_false_iff]
    intro hbelow
    obtain ⟨u, hu⟩ := List.isPrefixOf_iff_prefix.mp hbelow
    exact hbackslash (by simp [← hu])
  have hup : (rel.map (·.text)).any (· = ['.', '.']) = false := by
    rw [Bool.eq_false_iff]
    intro hany
    obtain ⟨t, ht, hup⟩ := List.any_eq_true.mp hany
    obtain ⟨n, -, rfl⟩ := List.mem_map.mp ht
    exact n.text_ne_up (of_decide_eq_true hup)
  have hmeta : (rel.map (·.text)).any (· = metaName.text) = decide (metaName ∈ rel) := by
    rw [Bool.eq_iff_iff, List.any_eq_true, decide_eq_true_eq]
    constructor
    · rintro ⟨t, ht, heq⟩
      obtain ⟨n, hn, rfl⟩ := List.mem_map.mp ht
      rwa [← FileName.ext (of_decide_eq_true heq)]
    · intro hmem
      exact ⟨_, List.mem_map_of_mem hmem, by simp⟩
  unfold normalizeZipMemberPath
  simp only [hturned, hsegments, hstart, hup, hmeta, not_endsWith_slash (posix_getLast hne),
    not_startsWith_slash (posix_head hne), posix_ne_nil hne, Bool.or_false,
    decide_eq_true_eq, if_false, Bool.false_eq_true, List.map_eq_nil_iff, hne]
  -- two checks are left that a name of the walk may fail
  by_cases hdrive : startsWithDrive (posix rel) = true
  · rw [if_pos hdrive, if_pos (Or.inl hdrive)]
  · by_cases hmem : metaName ∈ rel
    · rw [if_neg hdrive, if_pos hmem, if_pos (Or.inr hmem)]
    · rw [if_neg hdrive, if_neg hmem, if_neg (not_or.mpr ⟨hdrive, hmem⟩)]
      rfl

theorem memberPath_portable {rel : Path} (hne : rel ≠ []) (hportable : Portable rel) :
    memberPath (posix rel) = some rel := by
  unfold memberPath
  rw [normalize_posix hne hportable.no_backslash, if_neg, Option.map_some, parts_posix, lexical_down]
  rintro (hdrive | hmem)
  · rw [hportable.no_drive] at hdrive
    cases hdrive
  · exact hportable.no_metadata hmem

/-- A path without a backslash leads to itself, if anywhere. -/
theorem memberPath_plain {rel t : Path} (hne : rel ≠ []) (hplain : ∀ n ∈ rel, '\\' ∉ n.text)
    (ht : memberPath (posix rel) = some t) : t = rel ∧ startsWithDrive (posix rel) = false := by
  unfold memberPath at ht
  rw [normalize_posix hne hplain] at ht
  split at ht
  · cases ht
  · rename_i hnot
    rw [Option.map_some, parts_posix, lexical_down] at ht
    exact ⟨(Option.some.inj ht).symm, by simpa using (not_or.mp hnot).1⟩

theorem turned_git : turned gitName.text = gitName.text := by decide

/-- What is below `.git` stays there. -/
theorem memberPath_git {rel t : Path} (hgit : rel.head? = some gitName)
    (ht : memberPath (posix rel) = some t) : t.head? = some gitName := by
  obtain ⟨relPath, hrelPath, -⟩ := Option.map_eq_some_iff.mp ht
  obtain ⟨t', hparts, hpath, -⟩ := parts_of_normalize hrelPath
  cases hpath.symm.trans ht
  obtain ⟨segments, hne, rfl, hsegments, -⟩ := normalize_eq_some hrelPath
  have hslash : ∀ s ∈ segments, '/' ∉ s := by
    intro s hs
    rw [hsegments] at hs
    exact (mem_splitOn (List.mem_filter.mp hs).1).1
  obtain ⟨rest, hrest⟩ : ∃ rest, segments = gitName.text :: rest := by
    obtain ⟨pieces, hpieces⟩ : ∃ pieces, (turned (posix rel)).splitOn '/' = gitName.text :: pieces := by
      cases rel with
      | nil => cases hgit
      | cons n rel =>
        cases hgit
        cases rel with
        | nil => exact ⟨[], by decide⟩
        | cons m rel =>
          have hturned : turned (posix (gitName :: m :: rel)) =
              gitName.text ++ '/' :: turned (posix (m :: rel)) := by
            rw [posix_cons_cons]
            exact List.map_append.trans (congrArg (· ++ _) turned_git)
          rw [hturned, List.splitOn_append_cons_self, List.splitOn_eq_singleton gitName.no_slash]
          exact ⟨_, rfl⟩
    rw [hsegments, hpieces, List.filter_cons_of_pos (by decide)]
    exact ⟨_, rfl⟩
  rw [parts_intercalate hne hslash, hrest, List.filterMap_cons_some (part_text gitName)] at hparts
  cases t with
  | nil => cases hparts
  | cons n t =>
    rw [List.map_cons] at hparts
    rw [List.head?_cons, Part.down.inj (List.cons.inj hparts).1.symm]

end Names

/-! ## The entries of an export, as the importer sees them -/

section Entries

variable {rel t : Path} {m : FileMode} {content : Except String Bytes}

/-- The entry of an exported file. -/
def exportEntry (rel : Path) (m : FileMode) (content : Except String Bytes) : ZipInfo :=
  ⟨posix rel, m.val <<< 16, content⟩

theorem exportEntry_mode : (exportEntry rel m content).mode = m.val := by
  show (m.val <<< 16 >>> 16) &&& 0o177777 = m.val
  rw [Nat.shiftLeft_shiftRight]
  show m.val &&& (2 ^ 16 - 1) = m.val
  rw [Nat.and_two_pow_sub_one_eq_mod, Nat.mod_eq_of_lt m.lt]

theorem exportEntry_not_dir (hne : rel ≠ []) : (exportEntry rel m content).isDir = false :=
  not_endsWith_slash (posix_getLast hne)

theorem exportEntry_not_symlink : (exportEntry rel m content).isSymlink = false := by
  unfold ZipInfo.isSymlink
  rw [exportEntry_mode, m.regular]
  decide

theorem exportEntry_unsafe : (exportEntry rel m content).hasUnsafeMode = m.othersWrite := by
  unfold ZipInfo.hasUnsafeMode FileMode.othersWrite
  rw [exportEntry_mode]

/-- An entry that others may write stops the import. -/
theorem memberTarget_unsafe (root : Path) (content : Except String Bytes) (hne : rel ≠ [])
    (hmarked : m.othersWrite = true) :
    ∃ e, memberTarget (.plain root) (exportEntry rel m content) = .error e := by
  unfold memberTarget
  rw [exportEntry_not_dir hne, exportEntry_not_symlink, exportEntry_unsafe, hmarked]
  exact ⟨_, rfl⟩

/-- Any other goes where its name leads, unless that is nowhere. -/
theorem memberTarget_safe (root : Path) (content : Except String Bytes) (hne : rel ≠ [])
    (hsafe : m.othersWrite = false) :
    match memberPath (posix rel) with
    | none => memberTarget (.plain root) (exportEntry rel m content) = .ok none
    | some t => if t = [] then ∃ e, memberTarget (.plain root) (exportEntry rel m content) = .error e
        else ∃ relPath, memberTarget (.plain root) (exportEntry rel m content) =
          .ok (some (relPath, root ++ t)) := by
  unfold memberTarget
  rw [exportEntry_not_dir hne, exportEntry_not_symlink, exportEntry_unsafe, hsafe,
    if_neg Bool.false_ne_true, if_neg Bool.false_ne_true, if_neg Bool.false_ne_true,
    show (exportEntry rel m content).filename = posix rel from rfl]
  cases hnormalize : normalizeZipMemberPath (posix rel) with
  | none =>
    rw [memberPath, hnormalize]
    rfl
  | some relPath =>
    obtain ⟨t, hparts, hpath, -⟩ := parts_of_normalize hnormalize
    have hresolve : (Host.plain root).resolve relPath = some (root ++ t) := by
      show some (lexical (root.map .down ++ parts relPath)) = _
      rw [hparts, ← List.map_append, lexical_down]
    rw [hpath]
    dsimp only
    rw [hresolve]
    have hbase : (Host.plain root).base = root := rfl
    by_cases ht : t = []
    · rw [if_pos ht]
      subst ht
      exact ⟨_, if_pos (Or.inl (List.append_nil root))⟩
    · rw [if_neg ht]
      refine ⟨relPath, if_neg ?_⟩
      rw [not_or, not_not, hbase]
      refine ⟨fun heq => ht ?_, List.prefix_append _ _⟩
      exact List.append_right_eq_self.mp heq

end Entries

end Infinito.Workspace
