import Infinito.Workspace.Exports
import Infinito.Workspace.Sound

/-!
# Export, and import into a fresh workspace

`create` makes a root with four directories and a metadata file in it. `roundtrip_iff` says
which workspaces come back from their own export into such a root: those without a mode that
lets others write, whose files outside `.git` are `Portable`, and none of whose names, as the
importer reads them, is one of the four directories or lies below another.
-/

set_option autoImplicit false

namespace Infinito.Workspace

open Py Lib

variable {ρ : Type}

/-! ## A fresh workspace -/

def hostVarsName : FileName := fileName "host_vars" (Eq.refl true)

def groupVarsName : FileName := fileName "group_vars" (Eq.refl true)

/-- `SECRETS_DIRNAME` -/
def secretsName : FileName := fileName "secrets" (Eq.refl true)

/-- `KEYS_DIRNAME` -/
def keysName : FileName := fileName "keys" (Eq.refl true)

/-- `create`, from the directories on; `record` is the metadata it writes. -/
def createWorkspace (root : Path) (uuid : FileName) (record : Text) : Fs ρ Unit := do
  safeMkdir root
  safeMkdir (root ++ [hostVarsName])
  safeMkdir (root ++ [groupVarsName])
  safeMkdir (root ++ [secretsName])
  safeMkdir (root ++ [secretsName, keysName])
  atomicWriteText uuid (root ++ [metaName]) record

def freshDirs : List Path :=
  [[secretsName, keysName], [secretsName], [groupVarsName], [hostVarsName]]

/-- A root with these directories in it, and nothing else. -/
structure Holds (root : Path) (dirs : List Path) (d : Disk) : Prop where
  root_dir : d.isDir root = true
  below : ∀ rel, rel ≠ [] → d.get (root ++ rel) = if rel ∈ dirs then some .dir else none

structure Fresh (root : Path) (d : Disk) : Prop where
  root_dir : d.isDir root = true
  below : ∀ rel, rel ≠ [] → rel ≠ [metaName] →
    d.get (root ++ rel) = if rel ∈ freshDirs then some .dir else none
  record : ∃ b, d.get (root ++ [metaName]) = some (.file b)

section Create

variable {root p : Path} {dirs : List Path} {d : Disk} {w : World ρ} {uuid : FileName} {text : Text}

theorem Disk.not_file_of_isDir (hdir : d.isDir p = true) (hne : p ≠ []) (b : Bytes) :
    d.get p ≠ some (.file b) := by
  intro hfile
  rcases Nodes.isDir_iff.mp hdir with hnil | hget
  · exact hne hnil
  · cases hfile.symm.trans hget

/-- Below what is no directory there is nothing. -/
theorem Disk.get_below_none (hnot : d.isDir p = false) {r : Path} (hr : r ≠ []) :
    d.get (p ++ r) = none := by
  by_contra hsome
  have hdir := Nodes.closed_iff.mp d.closed (p ++ r) hsome
  rw [List.dropLast_append_of_ne_nil hr] at hdir
  have := Disk.isDir_of_prefix (d := d) hdir (List.prefix_append p _)
  rw [hnot] at this
  cases this

theorem mkdir_root_sound (hf : w.faults = []) (habove : w.disk.isDir root.dropLast = true)
    (hnew : ∀ rel, w.disk.get (root ++ rel) = none) :
    ∃ w', safeMkdir root w = .ok () w' ∧ w'.faults = [] ∧ Holds root [] w'.disk := by
  have hup : ∀ q, q <+: root.reverse.reverse → q ≠ [] → ∀ b, w.disk.get q ≠ some (.file b) := by
    intro q hq hne b
    rw [List.reverse_reverse] at hq
    by_cases heq : q = root
    · rw [heq, ← List.append_nil root, hnew]
      exact nofun
    · exact Disk.not_file_of_isDir (Disk.isDir_of_prefix habove (prefix_dropLast hq heq)) hne b
  obtain ⟨w', hok, hf', hget⟩ := mkdirUp_sound root.reverse hf hup
  refine ⟨w', hok, hf', isDir_of_safeMkdir hok, fun rel hrel => ?_⟩
  rw [hget, if_neg, hnew]
  · rfl
  · rintro ⟨hpre, -⟩
    rw [List.reverse_reverse] at hpre
    have hlen := hpre.length_le
    rw [List.length_append] at hlen
    exact hrel (List.length_eq_zero_iff.mp (by omega))

theorem mkdir_below_sound (rel : Path) (hf : w.faults = []) (hholds : Holds root dirs w.disk)
    (hne : rel ≠ []) (hnew : rel ∉ dirs) (hin : rel.dropLast = [] ∨ rel.dropLast ∈ dirs) :
    ∃ w', safeMkdir (root ++ rel) w = .ok () w' ∧ w'.faults = [] ∧
      Holds root (rel :: dirs) w'.disk := by
  have hself : w.disk.get (root ++ rel) = none := by rw [hholds.below rel hne, if_neg hnew]
  have hparent : w.disk.isDir (root ++ rel).dropLast = true := by
    rw [List.dropLast_append_of_ne_nil hne]
    rcases hin with hnil | hmem
    · rw [hnil, List.append_nil]
      exact hholds.root_dir
    · by_cases hnil : rel.dropLast = []
      · rw [hnil, List.append_nil]
        exact hholds.root_dir
      · exact Nodes.isDir_iff.mpr (Or.inr ((hholds.below _ hnil).trans (if_pos hmem)))
  -- no file is above the new directory, since its parent is one
  have hup : ∀ q, q <+: (root ++ rel).reverse.reverse → q ≠ [] → ∀ b,
      w.disk.get q ≠ some (.file b) := by
    intro q hq hqne b
    rw [List.reverse_reverse] at hq
    by_cases heq : q = root ++ rel
    · rw [heq, hself]
      exact nofun
    · exact Disk.not_file_of_isDir (Disk.isDir_of_prefix hparent (prefix_dropLast hq heq)) hqne b
  obtain ⟨w', hok, hf', hget⟩ := mkdirUp_sound _ hf hup
  rw [List.reverse_reverse] at hget
  have hrootdir : w'.disk.isDir root = true :=
    Disk.isDir_of_prefix (isDir_of_safeMkdir hok) (List.prefix_append root rel)
  refine ⟨w', hok, hf', hrootdir, fun r hr => ?_⟩
  rw [hget]
  by_cases heq : r = rel
  · rw [heq, if_pos ⟨List.prefix_refl _, by simp [hne], hself⟩, if_pos List.mem_cons_self]
  · rw [if_neg, hholds.below r hr]
    · simp only [List.mem_cons, heq, false_or]
    · rintro ⟨hpre, hrne, hnone⟩
      have hdir := Disk.isDir_of_prefix hparent
        (prefix_dropLast hpre fun h => heq (List.append_cancel_left h))
      rcases Nodes.isDir_iff.mp hdir with hnil | hsome
      · exact hrne hnil
      · cases hnone.symm.trans hsome

theorem tmpName_ne (name uuid : FileName) : tmpName name uuid ≠ name := by
  intro h
  have hlen := congrArg (fun n : FileName => n.text.length) h
  simp [tmpName, fileName] at hlen
  omega

/-- A temporary name starts with a dot. -/
theorem tmpName_not_fresh (name uuid : FileName) : [tmpName name uuid] ∉ freshDirs := by
  have hfirst : ∀ rel ∈ freshDirs, ∀ n ∈ rel, n.text.head? ≠ some '.' := by decide
  intro hmem
  exact hfirst _ hmem _ (List.mem_singleton_self _) rfl

theorem tmpPath_concat (dir : Path) (name uuid : FileName) :
    tmpPath uuid (dir ++ [name]) = dir ++ [tmpName name uuid] := by
  unfold tmpPath
  rw [List.getLast?_concat, List.dropLast_concat]

theorem safeMkdir_dir (hdir : w.disk.isDir p = true) : safeMkdir p w = .ok () w := by
  unfold safeMkdir
  cases hp : p.reverse with
  | nil => rfl
  | cons n up =>
    rw [← hp]
    have hget : w.disk.get p.reverse.reverse = some .dir := by
      rw [List.reverse_reverse]
      rcases Nodes.isDir_iff.mp hdir with hnil | hget
      · rw [hnil] at hp
        cases hp
      · exact hget
    rw [hp] at hget ⊢
    unfold mkdirUp
    rw [bind_of_ok (show look (n :: up).reverse w = .ok _ w from rfl), hget]
    rfl

/-- A file is put in place, and its temporary file leaves no trace. -/
theorem atomicWriteText_sound (text : Text) {dir : Path} {name : FileName} (hf : w.faults = [])
    (hdir : w.disk.isDir dir = true) (hnot : w.disk.isDir (dir ++ [name]) = false)
    (htmp : w.disk.get (dir ++ [tmpName name uuid]) = none) :
    ∃ w', atomicWriteText uuid (dir ++ [name]) text w = .ok () w' ∧ w'.faults = [] ∧
      ∀ r, w'.disk.get r =
        if r = dir ++ [name] then some (.file (encode text)) else w.disk.get r := by
  have hdrop {n : FileName} : (dir ++ [n]).dropLast = dir := List.dropLast_concat
  have htmpdir : w.disk.nodes.isDir (dir ++ [tmpName name uuid]) = false := by
    rw [Bool.eq_false_iff]
    intro htmpdir
    rcases Nodes.isDir_iff.mp htmpdir with hnil | hget
    · simp at hnil
    · cases htmp.symm.trans hget
  have hc : (Cmd.write (dir ++ [tmpName name uuid]) (encode text)).refused w.disk.nodes = none :=
    write_allowed (by rw [hdrop]; exact hdir) htmpdir
  have hget₁ (r : Path) : (w.did _ hc).disk.nodes.get r =
      if r = dir ++ [tmpName name uuid] then some (.file (encode text)) else w.disk.get r := rfl
  have htmpfile : (w.did _ hc).disk.nodes.get (dir ++ [tmpName name uuid]) =
      some (.file (encode text)) := (hget₁ _).trans (if_pos rfl)
  have hne : dir ++ [name] ≠ dir ++ [tmpName name uuid] := fun h =>
    tmpName_ne name uuid (by simpa using h.symm)
  have hnot₁ {n : FileName} (hn : w.disk.nodes.isDir (dir ++ [n]) = false) :
      (w.did _ hc).disk.nodes.isDir (dir ++ [n]) = false := by
    rw [Bool.eq_false_iff]
    intro hdir₁
    rcases Nodes.isDir_iff.mp hdir₁ with hnil | hget
    · simp at hnil
    · rw [hget₁] at hget
      split at hget
      · cases hget
      · rw [show w.disk.nodes.isDir _ = true from Nodes.isDir_iff.mpr (Or.inr hget)] at hn
        cases hn
  -- the temporary file is beside the target, so the directory is still there for the rename
  have hdir₁ : (w.did _ hc).disk.nodes.isDir dir = true := by
    rcases Nodes.isDir_iff.mp hdir with hnil | hget
    · exact Nodes.isDir_iff.mpr (Or.inl hnil)
    · refine Nodes.isDir_iff.mpr (Or.inr ((hget₁ dir).trans ?_))
      rw [if_neg (by simp)]
      exact hget
  have hapart : ¬ dir ++ [tmpName name uuid] <+: dir ++ [name] := by
    intro hpre
    exact hne (hpre.eq_of_length (by simp)).symm
  have hc' : (Cmd.rename (dir ++ [tmpName name uuid]) (dir ++ [name])).refused
      (w.did _ hc).disk.nodes = none := by
    simp only [Cmd.refused, htmpfile, hdrop, hdir₁, hapart, hnot₁ hnot, hnot₁ htmpdir]
    simp
  refine ⟨(w.did _ hc).did _ hc', ?_, faults_did (faults_did hf hc) hc', fun r => ?_⟩
  · unfold atomicWriteText
    rw [hdrop, bind_of_ok (safeMkdir_dir hdir), tmpPath_concat, bind_of_ok (exec_sound hf hc),
      exec_sound (faults_did hf hc) hc']
  · show ((w.did _ hc).disk.nodes.move _ _).get r = _
    rw [Nodes.get_move]
    -- the rename moves a file: there is nothing below it to move along
    by_cases hr : dir ++ [name] <+: r
    · obtain ⟨t, rfl⟩ := hr
      rw [if_pos (List.prefix_append _ _), List.drop_left]
      by_cases ht : t = []
      · rw [ht, List.append_nil, List.append_nil, htmpfile, if_pos rfl]
      · rw [if_neg (by simpa using ht), Disk.get_below_none hnot ht]
        exact Disk.get_below_none (d := (w.did _ hc).disk) (hnot₁ htmpdir) ht
    · have hrne : r ≠ dir ++ [name] := by
        rintro rfl
        exact hr (List.prefix_refl _)
      rw [if_neg hr, if_neg hrne]
      by_cases htr : dir ++ [tmpName name uuid] <+: r
      · obtain ⟨t, rfl⟩ := htr
        rw [if_pos (List.prefix_append _ _)]
        by_cases ht : t = []
        · rw [ht, List.append_nil, htmp]
        · rw [Disk.get_below_none htmpdir ht]
      · rw [if_neg htr]
        refine (hget₁ r).trans (if_neg ?_)
        rintro rfl
        exact htr (List.prefix_refl _)

/-- **`create` makes a fresh workspace** where nothing is. -/
theorem createWorkspace_sound (uuid : FileName) (text : Text) (hf : w.faults = [])
    (habove : w.disk.isDir root.dropLast = true) (hnew : ∀ rel, w.disk.get (root ++ rel) = none) :
    ∃ w', createWorkspace root uuid text w = .ok () w' ∧ w'.faults = [] ∧ Fresh root w'.disk := by
  obtain ⟨w₁, h₁, hf₁, hholds₁⟩ := mkdir_root_sound hf habove hnew
  obtain ⟨w₂, h₂, hf₂, hholds₂⟩ :=
    mkdir_below_sound [hostVarsName] hf₁ hholds₁ (by decide) (by decide) (by decide)
  obtain ⟨w₃, h₃, hf₃, hholds₃⟩ :=
    mkdir_below_sound [groupVarsName] hf₂ hholds₂ (by decide) (by decide) (by decide)
  obtain ⟨w₄, h₄, hf₄, hholds₄⟩ :=
    mkdir_below_sound [secretsName] hf₃ hholds₃ (by decide) (by decide) (by decide)
  obtain ⟨w₅, h₅, hf₅, hholds⟩ :=
    mkdir_below_sound [secretsName, keysName] hf₄ hholds₄ (by decide) (by decide) (by decide)
  -- the metadata is written last, where none of the directories is
  have hmeta : w₅.disk.get (root ++ [metaName]) = none :=
    (hholds.below _ (by decide)).trans (if_neg (by decide))
  have htmp : w₅.disk.get (root ++ [tmpName metaName uuid]) = none := by
    rw [hholds.below _ (by simp), if_neg]
    exact tmpName_not_fresh _ _
  have hnot : w₅.disk.isDir (root ++ [metaName]) = false := by
    rw [Bool.eq_false_iff]
    intro hdir
    rcases Nodes.isDir_iff.mp hdir with hnil | hget
    · simp at hnil
    · cases hmeta.symm.trans hget
  obtain ⟨w₆, h₆, hf₆, hget⟩ :=
    atomicWriteText_sound text hf₅ hholds.root_dir hnot htmp
  refine ⟨w₆, ?_, hf₆, ?_, fun rel hne hmetaName => ?_, encode text, ?_⟩
  · unfold createWorkspace
    rw [bind_of_ok h₁, bind_of_ok h₂, bind_of_ok h₃, bind_of_ok h₄, bind_of_ok h₅, h₆]
  · rcases Nodes.isDir_iff.mp hholds.root_dir with hnil | hdir
    · exact Nodes.isDir_iff.mpr (Or.inl hnil)
    · refine Nodes.isDir_iff.mpr (Or.inr ((hget root).trans ?_))
      rw [if_neg (by simp)]
      exact hdir
  · rw [hget, if_neg (by simpa using hmetaName)]
    exact hholds.below rel hne
  · rw [hget, if_pos rfl]

end Create

/-! ## Into it -/

section Import

variable {root p : Path} {d e : Disk} {docs : Docs} {w : World ρ} {uuid : FileName}
  {infos : List ZipInfo}

theorem Disk.fileAt_congr (h : d.get p = e.get p) : d.fileAt p = e.fileAt p := by
  have h : d.nodes.get p = e.nodes.get p := h
  show d.nodes.fileAt p = e.nodes.fileAt p
  unfold Nodes.fileAt
  rw [h]

/-- Where the importer can write in a fresh workspace. -/
theorem Fresh.writable_iff {t : Path} (hfresh : Fresh root d) (hmeta : metaName ∉ t) :
    Writable d (root ++ t) ↔ t ≠ [] ∧ t ∉ freshDirs := by
  constructor
  · rintro ⟨-, hnot⟩
    have ht : t ≠ [] := by
      rintro rfl
      rw [List.append_nil, hfresh.root_dir] at hnot
      cases hnot
    refine ⟨ht, fun hmem => ?_⟩
    have hget : d.get (root ++ t) = some .dir := by
      rw [hfresh.below t ht (by rintro rfl; exact hmeta (List.mem_singleton_self _)), if_pos hmem]
    rw [show d.isDir (root ++ t) = true from Nodes.isDir_iff.mpr (Or.inr hget)] at hnot
    cases hnot
  · rintro ⟨ht, hnotMem⟩
    have hmetaPath {s : Path} (hs : s <+: t) : s ≠ [metaName] := by
      rintro rfl
      exact hmeta (hs.subset (List.mem_singleton_self _))
    refine ⟨fun r hr hne hrt b => ?_, ?_⟩
    · rcases List.prefix_or_prefix_of_prefix hr (List.prefix_append root t) with hup | ⟨s, rfl⟩
      · exact Disk.not_file_of_isDir (Disk.isDir_of_prefix hfresh.root_dir hup) hne b
      · have hs : s <+: t := (List.prefix_append_right_inj root).mp hr
        by_cases hnil : s = []
        · rw [hnil, List.append_nil]
          rw [hnil, List.append_nil] at hne
          exact Disk.not_file_of_isDir hfresh.root_dir hne b
        · rw [hfresh.below s hnil (hmetaPath hs)]
          split <;> simp
    · rw [Bool.eq_false_iff]
      intro hdir
      rcases Nodes.isDir_iff.mp hdir with hnil | hget
      · exact ht (List.append_eq_nil_iff.mp hnil).2
      · have hget : d.get (root ++ t) = some .dir := hget
        rw [hfresh.below t ht (hmetaPath (List.prefix_refl t)), if_neg hnotMem] at hget
        cases hget

/-- After the last entry, `load_zip` changes the metadata at most. -/
theorem refresh_sound (docs : Docs) (uuid : FileName) (hf : w.faults = [])
    (hroot : w.disk.isDir root = true) (hmeta : w.disk.isDir (root ++ [metaName]) = false)
    (htmp : w.disk.get (root ++ [tmpName metaName uuid]) = none) :
    ∃ w', refreshMetaAfterUpload (.plain root) docs uuid w = .ok () w' ∧
      ∀ p, p ≠ root ++ [metaName] → w'.disk.fileAt p = w.disk.fileAt p := by
  obtain ⟨record, u, hexisting, hdisk, huf⟩ := existingBytes_sound (Host.plain root).metaPath hf
  unfold refreshMetaAfterUpload
  rw [bind_of_ok hexisting]
  -- what is asked of the disk before the write leaves it as it is
  simp only [bind, EStateM.bind, pathExists]
  generalize docs.refreshedMeta _ _ _ _ = refreshed
  cases refreshed with
  | none => exact ⟨u, rfl, fun p _ => by rw [hdisk]⟩
  | some text =>
    obtain ⟨v, hwrite, -, hget⟩ := atomicWriteText_sound text huf (hdisk ▸ hroot)
      (hdisk ▸ hmeta) (hdisk ▸ htmp)
    refine ⟨v, hwrite, fun p hp => ?_⟩
    rw [← hdisk]
    exact Disk.fileAt_congr ((hget p).trans (if_neg hp))

theorem extractZip_store (hroot : w.disk.isDir root = true) {w' : World ρ} :
    (∃ counts, extractZip (.plain root) docs (some infos) "override" [] w = .ok counts w') ↔
      storeMembers (.plain root) docs .override [] infos w = .ok () w' := by
  have hensure : ensure (.plain root) w = .ok () w := by
    unfold ensure
    rw [bind_of_ok (show isDir (Host.plain root).base w = .ok _ w from rfl),
      show w.disk.isDir (Host.plain root).base = true from hroot]
    rfl
  have hmode : zipMode "override" = .override := by decide +kernel
  unfold extractZip
  rw [bind_of_ok hensure, ← importMembers_store ⟨0, 0, 0, 0⟩, hmode]
  constructor
  · rintro ⟨counts, hok⟩
    rw [bind_of_ok hok]
    rfl
  · intro hok
    obtain ⟨counts, v, hok, hrest⟩ := bind_eq_ok.mp hok
    cases hrest
    exact ⟨counts, hok⟩

/-- **The import of an archive into a fresh workspace** goes through where every entry has a
    target and the targets fit; then the archive is there. -/
theorem loadZip_sound (docs : Docs) (hf : w.faults = []) (hfresh : Fresh root w.disk)
    (hcontent : ∀ info ∈ infos, ∃ b, info.content = .ok b)
    (hclear : ∀ x ∈ archiveWrites (.plain root) infos, ∀ n,
      n = metaName ∨ n = tmpName metaName uuid → ¬ root ++ [n] <+: x.1) :
    ((∃ done w', loadZip (.plain root) docs uuid (some infos) "override" [] w = .ok done w') ↔
      (∀ info ∈ infos, ∃ target, memberTarget (.plain root) info = .ok target) ∧
        Fits w.disk ((archiveWrites (.plain root) infos).map (·.1))) ∧
    ∀ done w', loadZip (.plain root) docs uuid (some infos) "override" [] w = .ok done w' →
      ∀ p, p ≠ root ++ [metaName] →
        w'.disk.fileAt p = (lastWrite (archiveWrites (.plain root) infos) p).or (w.disk.fileAt p) := by
  obtain ⟨hiff, hputs⟩ := storeMembers_sound (.plain root) docs hf hcontent
  -- once the entries are stored nothing can stop the import
  have hrest {v : World ρ} (hv : storeMembers (.plain root) docs .override [] infos w = .ok () v) :
      ∃ counts w', extractZip (.plain root) docs (some infos) "override" [] w = .ok counts v ∧
        refreshMetaAfterUpload (.plain root) docs uuid v = .ok () w' ∧
        ∀ p, p ≠ root ++ [metaName] → w'.disk.fileAt p =
          (lastWrite (archiveWrites (.plain root) infos) p).or (w.disk.fileAt p) := by
    obtain ⟨hvf, hvputs⟩ := hputs v hv
    have hsame {n : FileName} (hn : n = metaName ∨ n = tmpName metaName uuid) :
        v.disk.get (root ++ [n]) = w.disk.get (root ++ [n]) :=
      hvputs.get_of_not_above fun x hx => hclear x hx n hn
    obtain ⟨b, hrecord⟩ := hfresh.record
    have hmeta : v.disk.isDir (root ++ [metaName]) = false := by
      rw [Bool.eq_false_iff]
      intro hdir
      exact Disk.not_file_of_isDir hdir (by simp) b ((hsame (Or.inl rfl)).trans hrecord)
    have htmp : v.disk.get (root ++ [tmpName metaName uuid]) = none := by
      rw [hsame (Or.inr rfl), hfresh.below _ (by simp), if_neg (tmpName_not_fresh _ _)]
      simpa using tmpName_ne metaName uuid
    obtain ⟨counts, hextract⟩ := (extractZip_store hfresh.root_dir).mpr hv
    obtain ⟨w', hrefresh, hfiles⟩ :=
      refresh_sound docs uuid hvf (hvputs.isDir hfresh.root_dir) hmeta htmp
    exact ⟨counts, w', hextract, hrefresh, fun p hp => (hfiles p hp).trans (hvputs.fileAt p)⟩
  refine ⟨?_, fun done w' hok => ?_⟩
  · rw [← hiff]
    constructor
    · rintro ⟨done, w', hok⟩
      obtain ⟨counts, v, hextract, -⟩ := bind_eq_ok.mp hok
      exact ⟨v, (extractZip_store hfresh.root_dir).mp ⟨counts, hextract⟩⟩
    · rintro ⟨v, hv⟩
      obtain ⟨counts, w', hextract, hrefresh, -⟩ := hrest hv
      refine ⟨⟨"bulk: zip import", counts⟩, w', ?_⟩
      unfold loadZip
      rw [bind_of_ok hextract, bind_of_ok hrefresh]
      rfl
  · obtain ⟨counts, v, hextract, hok⟩ := bind_eq_ok.mp hok
    obtain ⟨counts', w'', hextract', hrefresh, hfiles⟩ :=
      hrest ((extractZip_store hfresh.root_dir).mp ⟨counts, hextract⟩)
    rw [bind_of_ok hrefresh] at hok
    cases hok
    exact hfiles

end Import

/-! ## The round trip -/

variable {d : Disk} {base : Path} (walk : Walk d base) (mode : Path → FileMode) (root : Path)
  (docs : Docs)

/-- Every exported file outside `.git` is there again, with the bytes it had. -/
def Reproduced (d' : Disk) : Prop :=
  ∀ rel ∈ walk.exported, rel.head? ≠ some gitName →
    d'.fileAt (root ++ rel) = d.fileAt (base ++ rel)

/-- `create`, and the import of the export into what it made. -/
def importFresh (uuid uuid' : FileName) (record : Text) : Fs ρ (Done ZipCounts) := do
  createWorkspace root uuid record
  loadZip (.plain root) docs uuid' (some (buildZip walk mode)) "override" []

/-- What a workspace has to be like to come back from its own export. -/
structure Importable : Prop where
  modes : ∀ rel ∈ walk.exported, (mode rel).othersWrite = false
  names : ∀ rel ∈ walk.exported, rel.head? ≠ some gitName → Portable rel
  not_fresh : ∀ rel ∈ walk.exported, ∀ t, memberPath (posix rel) = some t → t ∉ freshDirs
  apart : ∀ rel ∈ walk.exported, ∀ t, memberPath (posix rel) = some t →
    ∀ rel' ∈ walk.exported, ∀ t', memberPath (posix rel') = some t' → t <+: t' → rel = rel'

section Archive

variable {walk mode root} {rel : Path}

theorem mem_exported : rel ∈ walk.exported ↔
    rel ≠ [] ∧ (d.fileAt (base ++ rel)).isSome ∧ rel.getLast? ≠ some metaName := by
  unfold Walk.exported
  rw [List.mem_filter, walk.mem_iff, decide_eq_true_eq, and_assoc]

/-- The archive has an entry for every exported file. -/
theorem buildZip_eq : buildZip walk mode = walk.exported.map fun rel =>
    exportEntry rel (mode rel) (.ok ((d.fileAt (base ++ rel)).getD [])) := rfl

/-- Every entry has a target where no mode and no name stands against it. -/
theorem targets_iff :
    (∀ info ∈ buildZip walk mode, ∃ target, memberTarget (.plain root) info = .ok target) ↔
      ∀ rel ∈ walk.exported, (mode rel).othersWrite = false ∧ memberPath (posix rel) ≠ some [] := by
  rw [buildZip_eq, List.forall_mem_map]
  refine forall₂_congr fun rel hrel => ?_
  have hne := (mem_exported.mp hrel).1
  cases hmode : (mode rel).othersWrite with
  | true =>
    obtain ⟨e, he⟩ := memberTarget_unsafe root
      (.ok ((d.fileAt (base ++ rel)).getD [])) hne hmode
    simp [he]
  | false =>
    have hsafe := memberTarget_safe root
      (.ok ((d.fileAt (base ++ rel)).getD [])) hne hmode
    cases hpath : memberPath (posix rel) with
    | none =>
      rw [hpath] at hsafe
      simp [show memberTarget _ _ = _ from hsafe]
    | some t =>
      rw [hpath] at hsafe
      by_cases ht : t = []
      · obtain ⟨e, he⟩ : ∃ e, memberTarget (.plain root) _ = .error e := by
          simpa only [if_pos ht] using hsafe
        simp [he, ht]
      · obtain ⟨relPath, he⟩ : ∃ relPath, memberTarget (.plain root) _ = .ok (some (relPath, _)) := by
          simpa only [if_neg ht] using hsafe
        simp [he, ht]

/-- What the entry of an exported file writes, if it has a target. -/
def entryWrite (d : Disk) (base root rel : Path) : Option (Path × Bytes) :=
  (memberPath (posix rel)).map fun t => (root ++ t, (d.fileAt (base ++ rel)).getD [])

theorem entryWrite_eq_some {x : Path × Bytes} : entryWrite d base root rel = some x ↔
    ∃ t, memberPath (posix rel) = some t ∧ x = (root ++ t, (d.fileAt (base ++ rel)).getD []) := by
  unfold entryWrite
  rw [Option.map_eq_some_iff]
  exact exists_congr fun t => and_congr_right fun _ => eq_comm

theorem writes_eq (hok : ∀ info ∈ buildZip walk mode,
      ∃ target, memberTarget (.plain root) info = .ok target) :
    archiveWrites (.plain root) (buildZip walk mode) =
      walk.exported.filterMap (entryWrite d base root) := by
  have hsafe := targets_iff.mp hok
  unfold archiveWrites
  rw [buildZip_eq, List.filterMap_map]
  refine List.filterMap_congr fun rel hrel => ?_
  have htarget := memberTarget_safe root
    (.ok ((d.fileAt (base ++ rel)).getD [])) (mem_exported.mp hrel).1 (hsafe rel hrel).1
  unfold entryWrite
  cases hpath : memberPath (posix rel) with
  | none =>
    rw [hpath] at htarget
    simp [show memberTarget _ _ = _ from htarget]
  | some t =>
    rw [hpath] at htarget
    have ht : t ≠ [] := by
      rintro rfl
      exact (hsafe rel hrel).2 hpath
    obtain ⟨relPath, he⟩ : ∃ relPath, memberTarget (.plain root) _ = .ok (some (relPath, _)) := by
      simpa only [if_neg ht] using htarget
    simp only [Function.comp, he]
    rfl

/-- The writes have no path above another, and none twice, where the names are apart. -/
theorem writes_apart {ts : List Path} {e : Disk} :
    Fits e ts ∧ ts.Nodup ↔
      (∀ t ∈ ts, Writable e t) ∧ ts.Pairwise fun t u => ¬ u <+: t ∧ ¬ t <+: u := by
  unfold Fits List.Nodup
  rw [and_assoc, ← List.pairwise_and_iff]
  refine and_congr_right fun _ => List.Pairwise.iff fun t u => ?_
  constructor
  · rintro ⟨⟨hut, htu⟩, hne⟩
    exact ⟨fun h => hne (hut h).symm, fun h => hne (htu h)⟩
  · rintro ⟨hut, htu⟩
    refine ⟨⟨fun h => absurd h hut, fun h => absurd h htu⟩, ?_⟩
    rintro rfl
    exact hut (List.prefix_refl t)

theorem exported_nodup : walk.exported.Nodup := walk.nodup.filter _

theorem fits_iff {e : Disk} (hfresh : Fresh root e) (hok : ∀ info ∈ buildZip walk mode,
      ∃ target, memberTarget (.plain root) info = .ok target) :
    let ts := (archiveWrites (.plain root) (buildZip walk mode)).map (·.1)
    Fits e ts ∧ ts.Nodup ↔
      ∀ rel ∈ walk.exported, ∀ t, memberPath (posix rel) = some t → t ∉ freshDirs ∧
        ∀ rel' ∈ walk.exported, ∀ t', memberPath (posix rel') = some t' → t <+: t' → rel = rel' := by
  have hsafe := targets_iff.mp hok
  dsimp only
  rw [writes_apart, writes_eq hok, List.pairwise_map, List.pairwise_filterMap, List.forall_mem_map]
  have hmember {rel t : Path} (ht : memberPath (posix rel) = some t) : metaName ∉ t := by
    obtain ⟨relPath, hrelPath, -⟩ := Option.map_eq_some_iff.mp ht
    obtain ⟨t', -, hpath, hparts⟩ := parts_of_normalize hrelPath
    cases hpath.symm.trans ht
    exact fun hmem => (hparts _ hmem).2 rfl
  have hbelow {t u : Path} : root ++ t <+: root ++ u ↔ t <+: u := List.prefix_append_right_inj root
  -- that the targets fit is a relation of pairs, and each pair is taken both ways
  constructor
  · rintro ⟨hwritable, hpairs⟩ rel hrel t ht
    have hmem : (root ++ t, (d.fileAt (base ++ rel)).getD []) ∈
        walk.exported.filterMap (entryWrite d base root) :=
      List.mem_filterMap.mpr ⟨rel, hrel, entryWrite_eq_some.mpr ⟨t, ht, rfl⟩⟩
    refine ⟨((hfresh.writable_iff (hmember ht)).mp (hwritable _ hmem)).2, ?_⟩
    intro rel' hrel' t' ht' hpre
    by_contra hne
    have hsymm : Std.Symm fun a a' : Path => ∀ b, entryWrite d base root a = some b →
        ∀ b', entryWrite d base root a' = some b' → ¬ b'.1 <+: b.1 ∧ ¬ b.1 <+: b'.1 :=
      ⟨fun a a' h b hb b' hb' => (h b' hb' b hb).symm⟩
    exact (hpairs.forall hrel hrel' hne _ (entryWrite_eq_some.mpr ⟨t, ht, rfl⟩) _
      (entryWrite_eq_some.mpr ⟨t', ht', rfl⟩)).2 (hbelow.mpr hpre)
  · intro hall
    refine ⟨fun x hx => ?_, exported_nodup.pairwise_of_forall_ne fun rel hrel rel' hrel' hne => ?_⟩
    · obtain ⟨rel, hrel, hentry⟩ := List.mem_filterMap.mp hx
      obtain ⟨t, ht, rfl⟩ := entryWrite_eq_some.mp hentry
      refine (hfresh.writable_iff (hmember ht)).mpr ⟨?_, (hall rel hrel t ht).1⟩
      rintro rfl
      exact (hsafe rel hrel).2 ht
    · intro x hx x' hx'
      obtain ⟨t, ht, rfl⟩ := entryWrite_eq_some.mp hx
      obtain ⟨t', ht', rfl⟩ := entryWrite_eq_some.mp hx'
      exact ⟨fun h => hne ((hall rel' hrel' t' ht').2 rel hrel t ht (hbelow.mp h)).symm,
        fun h => hne ((hall rel hrel t ht).2 rel' hrel' t' ht' (hbelow.mp h))⟩

theorem mem_writes {x : Path × Bytes}
    (hx : x ∈ archiveWrites (.plain root) (buildZip walk mode)) :
    ∃ rel ∈ walk.exported, ∃ t, memberPath (posix rel) = some t ∧ x.1 = root ++ t := by
  unfold archiveWrites at hx
  rw [buildZip_eq, List.filterMap_map] at hx
  obtain ⟨rel, hrel, hentry⟩ := List.mem_filterMap.mp hx
  have hne := (mem_exported.mp hrel).1
  refine ⟨rel, hrel, ?_⟩
  simp only [Function.comp] at hentry
  split at hentry
  · rename_i relPath q b htarget _
    cases hentry
    cases hmode : (mode rel).othersWrite with
    | true =>
      obtain ⟨e, he⟩ := memberTarget_unsafe root
        (.ok ((d.fileAt (base ++ rel)).getD [])) hne hmode
      cases he.symm.trans htarget
    | false =>
      have hsafe := memberTarget_safe root
        (.ok ((d.fileAt (base ++ rel)).getD [])) hne hmode
      cases hpath : memberPath (posix rel) with
      | none =>
        rw [hpath] at hsafe
        cases hsafe.symm.trans htarget
      | some t =>
        rw [hpath] at hsafe
        refine ⟨t, rfl, ?_⟩
        by_cases ht : t = []
        · obtain ⟨e, he⟩ : ∃ e, memberTarget (.plain root) _ = .error e := by
            simpa only [if_pos ht] using hsafe
          cases he.symm.trans htarget
        · obtain ⟨relPath', he⟩ : ∃ relPath', memberTarget (.plain root) _ =
              .ok (some (relPath', root ++ t)) := by
            simpa only [if_neg ht] using hsafe
          cases he.symm.trans htarget
          rfl
  · cases hentry

end Archive

/-- **Export and import, exactly.** A workspace is imported into a fresh one from its own
    export, every file outside `.git` is there again and no two were written to one path, if
    and only if the workspace is `Importable`. -/
theorem roundtrip_iff (uuid uuid' : FileName) (record : Text) {w : World ρ} (hf : w.faults = [])
    (habove : w.disk.isDir root.dropLast = true) (hnew : ∀ rel, w.disk.get (root ++ rel) = none)
    (hunused : ∀ rel ∈ walk.exported, ∀ t, memberPath (posix rel) = some t →
      tmpName metaName uuid' ∉ t) :
    (∃ done w', importFresh walk mode root docs uuid uuid' record w = .ok done w' ∧
        Reproduced walk root w'.disk ∧
        ((archiveWrites (.plain root) (buildZip walk mode)).map (·.1)).Nodup) ↔
      Importable walk mode := by
  obtain ⟨w₁, hcreate, hf₁, hfresh⟩ :=
    createWorkspace_sound uuid record hf habove hnew
  have hrun : importFresh walk mode root docs uuid uuid' record w =
      loadZip (.plain root) docs uuid' (some (buildZip walk mode)) "override" [] w₁ :=
    bind_of_ok hcreate _
  have hcontent : ∀ info ∈ buildZip walk mode, ∃ b, info.content = .ok b := by
    rw [buildZip_eq, List.forall_mem_map]
    exact fun rel _ => ⟨_, rfl⟩
  have hmember {rel t : Path} (ht : memberPath (posix rel) = some t) :
      ∀ n ∈ t, '\\' ∉ n.text ∧ n ≠ metaName := by
    obtain ⟨relPath, hrelPath, -⟩ := Option.map_eq_some_iff.mp ht
    obtain ⟨t', -, hpath, hparts⟩ := parts_of_normalize hrelPath
    cases hpath.symm.trans ht
    exact hparts
  have hclear : ∀ x ∈ archiveWrites (.plain root) (buildZip walk mode), ∀ n,
      n = metaName ∨ n = tmpName metaName uuid' → ¬ root ++ [n] <+: x.1 := by
    intro x hx n hn hpre
    obtain ⟨rel, hrel, t, ht, heq⟩ := mem_writes hx
    rw [heq, List.prefix_append_right_inj] at hpre
    have hmem : n ∈ t := hpre.subset (List.mem_singleton_self n)
    rcases hn with rfl | rfl
    · exact (hmember ht _ hmem).2 rfl
    · exact hunused rel hrel t ht hmem
  obtain ⟨hiff, hfiles⟩ := loadZip_sound docs hf₁ hfresh hcontent hclear
  have hplace {rel : Path} (hrel : rel ∈ walk.exported) : rel ≠ [metaName] := by
    rintro rfl
    exact (mem_exported.mp hrel).2.2 rfl
  have hthere {done w'} (hok : loadZip (.plain root) docs uuid' (some (buildZip walk mode)) "override"
      [] w₁ = .ok done w') {rel : Path} (hrel : rel ∈ walk.exported) :
      w'.disk.fileAt (root ++ rel) =
        lastWrite (archiveWrites (.plain root) (buildZip walk mode)) (root ++ rel) := by
    have hnothing : w₁.disk.fileAt (root ++ rel) = none := by
      have hget := hfresh.below rel (mem_exported.mp hrel).1 (hplace hrel)
      cases hfile : w₁.disk.fileAt (root ++ rel) with
      | none => rfl
      | some b =>
        rw [show w₁.disk.get (root ++ rel) = _ from Nodes.fileAt_eq_some.mp hfile] at hget
        split at hget <;> cases hget
    rw [hfiles done w' hok _ (by simpa using hplace hrel), hnothing, Option.or_none]
  rw [hrun]
  constructor
  · rintro ⟨done, w', hok, hsame, hnodup⟩
    obtain ⟨htargets, hfits⟩ := hiff.mp ⟨done, w', hok⟩
    have hsafe := targets_iff.mp htargets
    have happart := (fits_iff hfresh htargets).mp ⟨hfits, hnodup⟩
    refine ⟨fun rel hrel => (hsafe rel hrel).1, ?_, fun rel hrel t ht => (happart rel hrel t ht).1,
      fun rel hrel t ht => (happart rel hrel t ht).2⟩
    -- a file that is there again was some entry's target
    have hsource {rel : Path} (hrel : rel ∈ walk.exported) (hgit : rel.head? ≠ some gitName) :
        ∃ rel' ∈ walk.exported, memberPath (posix rel') = some rel := by
      obtain ⟨b, hb⟩ := Option.isSome_iff_exists.mp (mem_exported.mp hrel).2.1
      have hlast := ((hthere hok hrel).symm.trans (hsame rel hrel hgit)).trans hb
      obtain ⟨rel', hrel', t, ht, heq⟩ := mem_writes (mem_of_lastWrite hlast)
      rw [List.append_cancel_left heq]
      exact ⟨rel', hrel', ht⟩
    intro rel hrel hgit
    obtain ⟨rel', hrel', hpath⟩ := hsource hrel hgit
    refine ⟨fun n hn => (hmember hpath n hn).1, ?_, fun hmem => (hmember hpath _ hmem).2 rfl⟩
    have hgit' : rel'.head? ≠ some gitName := fun h => hgit (memberPath_git h hpath)
    obtain ⟨rel'', -, hpath''⟩ := hsource hrel' hgit'
    obtain ⟨heq, hdrive⟩ := memberPath_plain (mem_exported.mp hrel').1
      (fun n hn => (hmember hpath'' n hn).1) hpath
    rw [heq]
    exact hdrive
  · intro himportable
    have hpath {rel : Path} (hrel : rel ∈ walk.exported) (hgit : rel.head? ≠ some gitName) :
        memberPath (posix rel) = some rel :=
      memberPath_portable (mem_exported.mp hrel).1 (himportable.names rel hrel hgit)
    have htargets : ∀ info ∈ buildZip walk mode,
        ∃ target, memberTarget (.plain root) info = .ok target := by
      refine targets_iff.mpr fun rel hrel => ⟨himportable.modes rel hrel, fun hnil => ?_⟩
      by_cases hgit : rel.head? = some gitName
      · cases memberPath_git hgit hnil
      · exact (mem_exported.mp hrel).1 (Option.some.inj ((hpath hrel hgit).symm.trans hnil))
    obtain ⟨hfits, hnodup⟩ := (fits_iff hfresh htargets).mpr fun rel hrel t ht =>
      ⟨himportable.not_fresh rel hrel t ht, himportable.apart rel hrel t ht⟩
    obtain ⟨done, w', hok⟩ := hiff.mpr ⟨htargets, hfits⟩
    refine ⟨done, w', hok, fun rel hrel hgit => ?_, hnodup⟩
    obtain ⟨b, hb⟩ := Option.isSome_iff_exists.mp (mem_exported.mp hrel).2.1
    rw [hthere hok hrel, hb]
    refine lastWrite_of_nodup ?_ hnodup
    rw [writes_eq htargets]
    refine List.mem_filterMap.mpr ⟨rel, hrel, entryWrite_eq_some.mpr ⟨rel, hpath hrel hgit, ?_⟩⟩
    rw [hb]
    rfl

section Demo

def demoMode : FileMode := ⟨0o100644, by decide, by decide⟩

/-- A workspace with one file, in `group_vars`. -/
def demoVars : Disk :=
  ⟨.ofList [([demoName "ws"], .dir), ([demoName "ws", groupVarsName], .dir),
    ([demoName "ws", groupVarsName, demoName "all.yml"], .file [1])], by decide⟩

def demoDrive : Disk :=
  ⟨.ofList [([demoName "ws"], .dir), ([demoName "ws", demoName "a:b"], .file [1])], by decide⟩

def emptyDisk : Disk := ⟨.empty, by decide⟩

/-- What is at a path after a program that went through. -/
def gotAt {α : Type} (m : Fs Unit α) (w : World Unit) (p : Path) : Option (Option Bytes) :=
  match m w with
  | .ok _ w' => some (w'.disk.fileAt p)
  | .error _ _ => none

/-- A file whose name starts like a drive is exported, and passed over on the way back. -/
theorem exported_file_lost :
    let walk := Walk.sorted demoDrive [demoName "ws"]
    [demoName "a:b"] ∈ walk.exported ∧
      gotAt (importFresh walk (fun _ => demoMode) [demoName "ws"] plainDocs (demoName "u")
        (demoName "v") []) (.fresh emptyDisk () []) [demoName "ws", demoName "a:b"] = some none := by
  decide +kernel

theorem roundtrip_iff_vars :
    let walk := Walk.sorted demoVars [demoName "ws"]
    ∃ done w', importFresh walk (fun _ => demoMode) [demoName "new"] plainDocs (demoName "u")
        (demoName "v") [] (.fresh emptyDisk () []) = .ok done w' ∧
      Reproduced walk [demoName "new"] w'.disk ∧
      ((archiveWrites (.plain [demoName "new"]) (buildZip walk fun _ => demoMode)).map (·.1)).Nodup := by
  let walk := Walk.sorted demoVars [demoName "ws"]
  let rel : Path := [groupVarsName, demoName "all.yml"]
  have hexported : walk.exported = [rel] := by decide +kernel
  have hpath : memberPath (posix rel) = some rel := by decide +kernel
  have hrel {r t : Path} (hr : r ∈ walk.exported) (ht : memberPath (posix r) = some t) :
      r = rel ∧ t = rel := by
    rw [hexported, List.mem_singleton] at hr
    subst hr
    exact ⟨rfl, Option.some.inj (ht.symm.trans hpath)⟩
  refine (roundtrip_iff walk (fun _ => demoMode) [demoName "new"] plainDocs (demoName "u")
    (demoName "v") [] (w := .fresh emptyDisk () []) rfl rfl (fun _ => rfl) ?_).mpr ⟨?_, ?_, ?_, ?_⟩
  · intro r hr t ht
    rw [(hrel hr ht).2]
    decide
  · exact fun _ _ => by decide
  · intro r hr _
    rw [hexported, List.mem_singleton] at hr
    subst hr
    exact ⟨by decide, by decide +kernel, by decide⟩
  · intro r hr t ht
    rw [(hrel hr ht).2]
    decide
  · intro r hr t ht r' hr' t' ht' _
    rw [(hrel hr ht).1, (hrel hr' ht').1]

end Demo

end Infinito.Workspace
