import Infinito.History.Clean

/-!
# Metadata that is written while a commit is made

`_history_commit` holds the lock of the workspace. Writes to `workspace.json` do not ask for
it: a claim of an invitation, a state, an alias each write a temporary copy next to it and
rename that, at any time. `Action` has both halves as steps of their own, between any two
steps of the commit.

`workspace.json` is in the exclude file by its name, the temporary copy by none. A copy that
is there when everything is staged is recorded, and gone when the commit is verified
(`copy_recorded`). In every run in which git ignores the copies it finds, and no `.gitignore`
takes an exclusion back, no commit has metadata and no verification fails
(`metadata_stays_out`).
-/

set_option autoImplicit false

namespace Infinito.History

open Py Lib Workspace

/-! ## Metadata in a snapshot -/

/-- The name of a temporary copy of `workspace.json`. -/
def isCopyName (n : FileName) : Bool :=
  startsWith n.text ".workspace.json.".toList && endsWith n.text ".tmp".toList

/-- A path at or below `workspace.json` or a copy of it. -/
def isMetadata (p : Path) : Bool := p.head?.any fun n => n = metaName || isCopyName n

/-- No file of the snapshot is metadata. -/
def MetadataFree (files : Snapshot) : Prop :=
  ∀ p content, files.get p = some content → isMetadata p = false

theorem isCopyName_tmpName (uuid : FileName) : isCopyName (tmpName metaName uuid) = true := by
  have htext : (tmpName metaName uuid).text = ".workspace.json.".toList ++ uuid.text ++ ".tmp".toList :=
    rfl
  rw [isCopyName, htext, Bool.and_eq_true]
  constructor
  · rw [startsWith, List.isPrefixOf_iff_prefix, List.append_assoc]
    exact List.prefix_append _ _
  · rw [endsWith, List.isSuffixOf_iff_suffix]
    exact List.suffix_append _ _

theorem tmpPath_metaPath (h : Host) (uuid : FileName) :
    tmpPath uuid h.metaPath = h.base ++ [tmpName metaName uuid] := by
  simp [tmpPath, Host.metaPath]

/-! ## The exclude file -/

/-- A `.gitignore` of the working tree takes an exclusion back. -/
def Reincludes (tree : Snapshot) : Prop :=
  ∃ p ∈ tree.keys, p.getLast? = some ignoreName ∧
    ∃ content ∈ tree.get p, ∃ line ∈ splitlines (readText content), startsWith line ['!'] = true

instance (tree : Snapshot) : Decidable (Reincludes tree) :=
  inferInstanceAs (Decidable (∃ p ∈ tree.keys, _ ∧ ∃ content ∈ tree.get p, _))

/-- A line of an exclude file that takes nothing back, and that the service reads as git
    does. -/
structure PlainLine (line : Text) : Prop where
  unbroken : ∀ c ∈ line, isLineBreak c = false
  excludes : startsWith line ['!'] = false
  stripped : strip line = metaName.text → line = metaName.text

/-- `PlainLine`, as a test. -/
def isPlainLine (line : Text) : Bool :=
  line.all (fun c => !isLineBreak c) && !startsWith line ['!'] &&
    (line == metaName.text || strip line != metaName.text)

theorem plainLine_of_test {line : Text} (h : isPlainLine line = true) : PlainLine line := by
  rw [isPlainLine, Bool.and_eq_true, Bool.and_eq_true, Bool.or_eq_true, List.all_eq_true] at h
  obtain ⟨⟨hunbroken, hexcludes⟩, hstripped⟩ := h
  refine ⟨fun c hc => by simpa using hunbroken c hc, by simpa using hexcludes, fun hstrip => ?_⟩
  rcases hstripped with hself | hother
  · exact beq_iff_eq.mp hself
  · exact absurd hstrip (bne_iff_ne.mp hother)

/-- An exclude file, if there is one, of these lines. -/
def HasLines (exclude : Option Text) (lines : List Text) : Prop :=
  exclude.getD [] = printLines lines ∧ ∀ line ∈ lines, PlainLine line

/-- What is documented of git: the exclude file it starts has plain lines, and a line that
    is the name of a file excludes it at the root, unless a line takes that back. -/
structure Excludes (g : Git) : Prop where
  start : ∃ lines, HasLines g.initExclude lines
  name : ∀ exclude lines tree (p : Path), HasLines exclude lines → metaName.text ∈ lines →
    ¬ Reincludes tree → p.head? = some metaName → g.ignored exclude tree p = true

theorem requiredLines_plain (includeKdbx : Bool) {line : Text}
    (hline : line ∈ requiredLines includeKdbx) :
    PlainLine line ∧ rstrip line = line ∧ line ≠ [] := by
  have hall : (requiredLines includeKdbx).all (fun line =>
      isPlainLine line && rstrip line == line && line != []) = true := by
    cases includeKdbx <;> decide +kernel
  have hline := List.all_eq_true.mp hall line hline
  rw [Bool.and_eq_true, Bool.and_eq_true] at hline
  exact ⟨plainLine_of_test hline.1.1, beq_iff_eq.mp hline.1.2, bne_iff_ne.mp hline.2⟩

theorem rstrip_append {t u : Text} (hu : rstrip u = u) (hne : u ≠ []) : rstrip (t ++ u) = t ++ u := by
  have hlast : ¬ isSpace (u.getLast hne) = true := by
    have := List.rdropWhile_eq_self_iff.mp hu
    exact this hne
  refine List.rdropWhile_eq_self_iff.mpr fun happ => ?_
  rwa [List.getLast_append_of_ne_nil _ hne]

/-- **The exclude file names `workspace.json`** once the service has looked at it. -/
theorem excludeText_names (includeKdbx : Bool) {exclude : Option Text} {lines : List Text}
    (hlines : HasLines exclude lines) :
    ∃ lines', HasLines (excludeText includeKdbx exclude) lines' ∧ metaName.text ∈ lines' := by
  obtain ⟨htext, hplain⟩ := hlines
  have hread : splitlines (exclude.getD []) = lines := by
    rw [htext]
    exact splitlines_printLines fun line hl => (hplain line hl).unbroken
  have hmeta : metaName.text ∈ requiredLines includeKdbx := by cases includeKdbx <;> decide
  unfold excludeText
  simp only [hread]
  split
  · rename_i hnone
    -- nothing is added when every line is there: the name is one of them
    refine ⟨lines, ⟨htext, hplain⟩, ?_⟩
    rw [List.filter_eq_nil_iff] at hnone
    have := hnone _ hmeta
    rw [decide_eq_true_eq, not_not, List.mem_map] at this
    obtain ⟨line, hline, hstrip⟩ := this
    rwa [← (hplain line hline).stripped hstrip]
  · rename_i hsome
    let gap : List Text := if lines.getLast?.any (strip · ≠ []) then [[]] else []
    let additions := (requiredLines includeKdbx).filter fun line => line ∉ lines.map strip
    have hgap : ∀ line ∈ gap, line = [] := by
      intro line hline
      dsimp only [gap] at hline
      split at hline
      · exact List.mem_singleton.mp hline
      · cases hline
    have hadded {line : Text} (hline : line ∈ additions) : line ∈ requiredLines includeKdbx :=
      List.mem_of_mem_filter hline
    refine ⟨lines ++ gap ++ additions, ⟨?_, fun line hline => ?_⟩, ?_⟩
    · show rstrip (joinLines (lines ++ gap ++ additions)) ++ ['\n'] = _
      -- the last line added is not blank, so the text ends with it as printed
      obtain ⟨init, last, hlast⟩ := List.eq_nil_or_concat additions |>.resolve_left hsome
      have hmem : last ∈ additions := by simp [hlast]
      have hrequired := requiredLines_plain includeKdbx (hadded hmem)
      rw [hlast, List.concat_eq_append, ← List.append_assoc, joinLines_concat,
        rstrip_append hrequired.2.1 hrequired.2.2, printLines_append]
      simp [printLines]
    · rcases List.mem_append.mp hline with hline | hline
      · rcases List.mem_append.mp hline with hline | hline
        · exact hplain line hline
        · rw [hgap line hline]
          exact plainLine_of_test (by decide +kernel)
      · exact (requiredLines_plain includeKdbx (hadded hline)).1
    · by_cases hold : metaName.text ∈ lines.map strip
      · obtain ⟨line, hline, hstrip⟩ := List.mem_map.mp hold
        have heq := (hplain line hline).stripped hstrip
        exact List.mem_append_left _ (List.mem_append_left _ (heq ▸ hline))
      · exact List.mem_append_right _ (List.mem_filter.mpr ⟨hmeta, by simpa using hold⟩)

/-! ## The steps -/

/-- How far a commit has come; `r` is the repository as it was staged. -/
inductive Phase where
  | idle
  | begun
  | ready
  | staged (r : Repo)
  | checking (r : Repo) (lines found : List Text)
  | checked (r : Repo)
  | recorded (r : Repo)
  | described (r : Repo)

section Steps

variable (S : Service)

/-- `_history_commit` from one phase to the next. -/
def advance (message : Text) (metadata : Option Metadata) : Phase → Hist Phase
  | .idle => pure .idle
  | .begun => do
      ensureHistoryRepo S
      return .ready
  | .ready => do
      runGit
      let tree ← getWorktree S
      modifyRepo (Repo.stageAll S.git tree)
      let failed ← gitCommand
      match ← getRepo with
      | none => pure .idle
      | some r => if failed.isSome = true ∨ r.changes = ∅ then pure .idle else pure (.staged r)
  | .staged r => do
      let stderr ← gitCommand
      return .checking r (match stderr with
        | none => trackedPaths (printLines (diffLines S.git r))
        | some _ => []) []
  | .checking r (line :: lines) found => do
      let more ← violation S line
      return .checking r lines (found ++ more.toList)
  | .checking _ [] (first :: _) => do
      modifyRepo Repo.unstageAll
      throw (.http (rejection first))
  | .checking r [] [] => pure (.checked r)
  | .checked r =>
      tryCatch
        (do
          runGit
          modifyRepo (Repo.commit S.git (formatCommitMessage message metadata))
          return .recorded r)
        fun exc => do
          modifyRepo Repo.unstageAll
          throw exc
  | .recorded r => do
      -- `git rev-parse HEAD` and `git status`
      runGit
      runGit
      return .described r
  | .described r => do
      let tree ← getWorktree S
      if trackedStatus tree r = true then httpError 500 "workspace history index not clean"
      else pure .idle

/-- A workspace that several requests are at. -/
structure Shared where
  disk : Disk
  repo : Option Repo
  phase : Phase
  message : Text
  metadata : Option Metadata
  /-- a commit failed as the index was not clean -/
  unclean : Bool

inductive Action where
  /-- what an operation does to the disk before it commits, holding the lock -/
  | edit (disk : Disk)
  | begin (message : Text) (metadata : Option Metadata)
  | next (faults : List (Option String))
  /-- the two halves of a write to `workspace.json` -/
  | copy (uuid : FileName) (text : Text) (faults : List (Option String))
  | replace (uuid : FileName) (faults : List (Option String))

/-- A step of the metadata writer. -/
def Shared.writeDisk (s : Shared) (c : Cmd) (faults : List (Option String)) : Shared :=
  { s with disk := (after (exec c) (⟨s.disk, (), [], faults⟩ : World Unit)).disk }

/-- The commit goes on. -/
def Shared.goOn (s : Shared) (faults : List (Option String)) : Shared :=
  match advance S s.message s.metadata s.phase ⟨s.disk, s.repo, [], faults⟩ with
  | .ok phase w => { s with disk := w.disk, repo := w.rest, phase := phase }
  | .error _ w =>
      -- the last part raises for one reason only
      let failed := match s.phase with
        | .described _ => true
        | _ => false
      { s with disk := w.disk, repo := w.rest, phase := .idle, unclean := s.unclean || failed }

def act (s : Shared) : Action → Option Shared
  | .edit disk => match s.phase with
      | .idle => some { s with disk := disk }
      | _ => none
  | .begin message metadata => match s.phase with
      | .idle => some { s with phase := .begun, message := message, metadata := metadata }
      | _ => none
  | .next faults => some (s.goOn S faults)
  | .copy uuid text faults =>
      some (s.writeDisk (.write (tmpPath uuid S.host.metaPath) (encode text)) faults)
  | .replace uuid faults =>
      some (s.writeDisk (.rename (tmpPath uuid S.host.metaPath) S.host.metaPath) faults)

end Steps

/-! ## What holds of every run -/

section Invariant

variable {S : Service}

/-- The files of the index are those of the working tree. -/
def Agrees (S : Service) (d : Disk) (r : Repo) : Prop :=
  MetadataFree r.index ∧
    ∀ p content, r.index.get p = some content → (worktree S.host d).get p = some content

/-- What each phase relies on. -/
def InPhase (S : Service) (d : Disk) (repo : Option Repo) : Phase → Prop
  | .idle | .begun => True
  | .ready => ∃ r lines, repo = some r ∧ HasLines r.exclude lines ∧ metaName.text ∈ lines
  | .staged r | .checking r _ _ | .checked r | .recorded r | .described r => Agrees S d r

structure RepoFree (r : Repo) : Prop where
  exclude : ∃ lines, HasLines r.exclude lines
  index : MetadataFree r.index
  commits : ∀ c ∈ r.commits, MetadataFree c.tree

structure StaysOut (S : Service) (s : Shared) : Prop where
  repo : ∀ r ∈ s.repo, RepoFree r
  phase : InPhase S s.disk s.repo s.phase
  clean : s.unclean = false

theorem metadataFree_empty : MetadataFree .empty := by
  intro p content hp
  cases hp

theorem RepoFree.head {r : Repo} (h : RepoFree r) : MetadataFree r.head := by
  unfold Repo.head
  split
  · exact metadataFree_empty
  · rename_i c cs hcommits
    exact h.commits c (by simp [hcommits])

theorem RepoFree.unstage {r : Repo} (h : RepoFree r) : RepoFree r.unstageAll :=
  ⟨h.exclude, h.head, h.commits⟩

theorem RepoFree.commit {r : Repo} (h : RepoFree r) (g : Git) (message : Text) :
    RepoFree (r.commit g message) := by
  refine ⟨h.exclude, h.index, fun c hc => ?_⟩
  rcases List.mem_cons.mp hc with rfl | hc
  · exact h.index
  · exact h.commits c hc

theorem repoFree_init (hS : Excludes S.git) : RepoFree (Repo.init S.git) :=
  ⟨hS.start, metadataFree_empty, by rintro c ⟨⟩⟩

/-- Every write to metadata is out of sight of what is staged. -/
theorem Agrees.write {d : Disk} {r : Repo} (h : Agrees S d r) {c : Cmd} {faults : List (Option String)}
    (hc : ∀ p, isMetadata p = false → ¬ c.Touches (S.host.base ++ p)) :
    Agrees S (after (exec c) (⟨d, (), [], faults⟩ : World Unit)).disk r := by
  refine ⟨h.1, fun p content hp => ?_⟩
  have hfile := h.2 p content hp
  rcases exec_cases c (⟨d, (), [], faults⟩ : World Unit) with ⟨text, -, hexec⟩ | ⟨hno, hexec⟩
  · rw [after_of_error hexec]
    exact hfile
  · rw [after_of_ok hexec]
    rw [get_worktree] at hfile ⊢
    split
    · rename_i hgit
      rw [if_pos hgit] at hfile
      cases hfile
    · rename_i hgit
      rw [if_neg hgit] at hfile
      rw [← hfile]
      show Nodes.fileAt (c.apply d.nodes) _ = Nodes.fileAt d.nodes _
      rw [Nodes.fileAt, Nodes.fileAt, Cmd.get_apply_of_not_touches (hc p (h.1 p content hp))]

theorem InPhase.write {d : Disk} {repo : Option Repo} {phase : Phase} (h : InPhase S d repo phase)
    {c : Cmd} {faults : List (Option String)}
    (hc : ∀ p, isMetadata p = false → ¬ c.Touches (S.host.base ++ p)) :
    InPhase S (after (exec c) (⟨d, (), [], faults⟩ : World Unit)).disk repo phase := by
  cases phase with
  | idle => trivial
  | begun => trivial
  | ready => exact h
  | staged r => exact Agrees.write h hc
  | checking r lines found => exact Agrees.write h hc
  | checked r => exact Agrees.write h hc
  | recorded r => exact Agrees.write h hc
  | described r => exact Agrees.write h hc

theorem not_touches_meta {n : FileName} (hn : isMetadata [n] = true) {p : Path}
    (hp : isMetadata p = false) : ¬ S.host.base ++ [n] <+: S.host.base ++ p := by
  rw [List.prefix_append_right_inj]
  rintro ⟨r, rfl⟩
  rw [isMetadata] at hp hn
  rw [List.head?_append_of_ne_nil _ (by simp), hn] at hp
  cases hp

theorem metadata_metaName : isMetadata [metaName] = true := by decide

theorem metadata_copy (uuid : FileName) : isMetadata [tmpName metaName uuid] = true := by
  simp [isMetadata, isCopyName_tmpName]

/-- No repository, or one without metadata. -/
abbrev Free (w : World (Option Repo)) : Prop := ∀ r ∈ w.rest, RepoFree r

theorem modifyRepo_free {f : Repo → Repo} (hf : ∀ r, RepoFree r → RepoFree (f r))
    {w : World (Option Repo)} (hw : Free w) : ∀ r ∈ w.rest.map f, RepoFree r := by
  intro r hr
  obtain ⟨r₀, hr₀, rfl⟩ := Option.mem_map.mp hr
  exact hf r₀ (hw r₀ hr₀)

theorem wp_of_keepsBoth {α : Type} {m : Hist α} (hm : KeepsBoth m) {w : World (Option Repo)}
    {Q : α → World (Option Repo) → Prop} {E : Exc → World (Option Repo) → Prop}
    (hQ : ∀ a u, u.disk = w.disk → u.rest = w.rest → Q a u)
    (hE : ∀ e u, u.disk = w.disk → u.rest = w.rest → E e u) : wp m Q E w :=
  hm.wp (fun a u h => hQ a u h.1 h.2) fun e u h => hE e u h.1 h.2

/-- The repository is there, and excludes `workspace.json` by its name. -/
def Named (w : World (Option Repo)) : Prop :=
  ∃ r lines, w.rest = some r ∧ HasLines r.exclude lines ∧ metaName.text ∈ lines

theorem ensureHistoryGitignore_named {w : World (Option Repo)} (hw : Free w) (hsome : w.rest ≠ none) :
    wp (ensureHistoryGitignore S) (fun _ u => Free u ∧ Named u) (fun _ u => Free u) w := by
  have hexclude {u : World (Option Repo)} (hu : u.rest = w.rest) :
      wp (modifyRepo fun r => { r with exclude := excludeText S.includeKdbx r.exclude })
        (fun _ v => Free v ∧ Named v) (fun _ v => Free v) u := by
    obtain ⟨r, hr⟩ := Option.ne_none_iff_exists'.mp hsome
    have hfree := hw r hr
    obtain ⟨lines, hlines⟩ := hfree.exclude
    obtain ⟨lines', hlines', hname⟩ := excludeText_names S.includeKdbx hlines
    have hv : (u.rest.map fun r => { r with exclude := excludeText S.includeKdbx r.exclude }) =
        some { r with exclude := excludeText S.includeKdbx r.exclude } := by
      rw [hu, hr]
      rfl
    refine ⟨fun r' hr' => ?_, _, lines', hv, hlines', hname⟩
    rw [show r' = _ from (Option.some.inj (hv.symm.trans hr')).symm]
    exact ⟨⟨lines', hlines'⟩, hfree.index, hfree.commits⟩
  have hkept {u : World (Option Repo)} (hu : u.rest = w.rest) : Free u := by
    intro r hr
    exact hw r (hu ▸ hr)
  have hwrite {u : World (Option Repo)} (hu : u.rest = w.rest) :
      wp (do
        exec (.write (ignorePath S.host) (encode []))
        modifyRepo fun r => { r with exclude := excludeText S.includeKdbx r.exclude })
        (fun _ v => Free v ∧ Named v) (fun _ v => Free v) u := by
    rw [wp_bind]
    exact Moves.wp exec_keepsRest (fun _ v hv => hexclude (hv.trans hu))
      fun _ v hv => hkept (hv.trans hu)
  unfold ensureHistoryGitignore
  rw [wp_bind]
  show wp (if _ then _ else _) _ _ w
  split
  · rw [wp_bind]
    refine Moves.wp readBytes_keeps.keepsRest (fun existing u hu => ?_) fun _ u hu => hkept hu
    show wp (if _ then _ else _) _ _ u
    split
    · exact hwrite hu
    · exact hexclude hu
  · exact hwrite rfl

theorem ensureHistoryRepo_named (hS : Excludes S.git) {w : World (Option Repo)} (hw : Free w) :
    wp (ensureHistoryRepo S) (fun _ u => Free u ∧ Named u) (fun _ u => Free u) w := by
  cases hrest : w.rest with
  | some r =>
    rw [wp_congr (ensureHistoryRepo_there S hrest)]
    exact ensureHistoryGitignore_named hw (by simp [hrest])
  | none =>
    rw [wp_congr (ensureHistoryRepo_new S hrest)]
    have hinit : ∀ r ∈ some (Repo.init S.git), RepoFree r := by
      rintro _ ⟨⟩
      exact repoFree_init hS
    -- the settings of the new repository
    have hsettings {u : World (Option Repo)} (hu : u.rest = some (Repo.init S.git)) :
        wp (do runGit; runGit; runGit; ensureHistoryGitignore S)
          (fun _ v => Free v ∧ Named v) (fun _ v => Free v) u := by
      have hfree {v : World (Option Repo)} (hv : v.rest = some (Repo.init S.git)) : Free v := by
        intro r hr
        exact hinit r (hv ▸ hr)
      rw [wp_bind]
      refine Moves.wp runGit_keeps.keepsRest (fun _ v hv => ?_) fun _ v hv => hfree (hv.trans hu)
      rw [wp_bind]
      refine Moves.wp runGit_keeps.keepsRest (fun _ v' hv' => ?_)
        fun _ v' hv' => hfree (hv'.trans (hv.trans hu))
      rw [wp_bind]
      refine Moves.wp runGit_keeps.keepsRest (fun _ v'' hv'' => ?_)
        fun _ v'' hv'' => hfree (hv''.trans (hv'.trans (hv.trans hu)))
      have hthere : v''.rest = some (Repo.init S.git) := hv''.trans (hv'.trans (hv.trans hu))
      exact ensureHistoryGitignore_named (hfree hthere) (by simp [hthere])
    rw [wp_bind]
    refine Moves.wp runGit_keeps.keepsRest (fun _ u hu => ?_) fun _ u hu => ?_
    · exact hsettings (u := ⟨u.disk, some (Repo.init S.git), u.log, u.faults⟩) rfl
    · intro r hr
      rw [hu, hrest] at hr
      cases hr

/-- Git ignores the metadata it finds: a copy of `workspace.json` by whatever it goes by,
    and no `.gitignore` takes an exclusion back. -/
def Hidden (S : Service) (d : Disk) (repo : Option Repo) : Prop :=
  ¬ Reincludes (worktree S.host d) ∧
    ∀ r ∈ repo, ∀ p ∈ (worktree S.host d).keys, p.head?.any isCopyName = true →
      S.git.ignored r.exclude (worktree S.host d) p = true

theorem stageAll_free (hS : Excludes S.git) {w : World (Option Repo)} {r : Repo} {lines : List Text}
    (hr : w.rest = some r) (hfree : RepoFree r) (hlines : HasLines r.exclude lines)
    (hname : metaName.text ∈ lines) (hhidden : Hidden S w.disk w.rest) :
    MetadataFree (r.stageAll S.git (worktree S.host w.disk)).index := by
  intro p content hp
  have htree := Repo.get_of_stageAll hp
  rw [Repo.get_stageAll] at hp
  split at hp
  · rename_i hstaged
    rw [Bool.or_eq_true, Bool.not_eq_true'] at hstaged
    rcases hstaged with hindex | hseen
    · obtain ⟨old, hold⟩ := Option.isSome_iff_exists.mp hindex
      exact hfree.index p old hold
    · by_contra hmeta
      rw [Bool.not_eq_false, isMetadata, Option.any_eq_true] at hmeta
      obtain ⟨n, hn, hmeta⟩ := hmeta
      rw [Bool.or_eq_true, decide_eq_true_eq] at hmeta
      have hignored : S.git.ignored r.exclude (worktree S.host w.disk) p = true := by
        rcases hmeta with rfl | hcopy
        · exact hS.name _ lines _ p hlines hname hhidden.1 hn
        · exact hhidden.2 r hr p (FinMap.mem_keys_of_get htree) (by rw [hn]; exact hcopy)
      rw [hignored] at hseen
      cases hseen
  · cases hp

/-- **What a part of the commit does**, however it ends: the repository stays free of
    metadata, and the phase has what it relies on. The last part does not raise. -/
theorem advance_stays (hS : Excludes S.git) (message : Text) (metadata : Option Metadata)
    {phase : Phase} {w : World (Option Repo)} (hw : Free w) (hphase : InPhase S w.disk w.rest phase)
    (hready : phase = .ready → Hidden S w.disk w.rest) :
    wp (advance S message metadata phase) (fun next u => Free u ∧ InPhase S u.disk u.rest next)
      (fun _ u => Free u ∧ ∀ r, phase ≠ .described r) w := by
  have hkept {u : World (Option Repo)} (hu : u.rest = w.rest) : Free u := by
    intro r hr
    exact hw r (hu ▸ hr)
  cases phase with
  | idle => exact ⟨hw, trivial⟩
  | begun =>
    unfold advance
    rw [wp_bind]
    exact wp_mono (fun _ u hu => hu) (fun _ u hu => ⟨hu, fun _ h => by cases h⟩)
      (ensureHistoryRepo_named hS hw)
  | ready =>
    obtain ⟨r, lines, hr, hlines, hname⟩ := hphase
    have hhidden := hready rfl
    unfold advance
    rw [wp_bind]
    refine wp_of_keepsBoth runGit_keeps (fun _ u hdisk hrest => ?_)
      fun _ u _ hrest => ⟨hkept hrest, fun _ h => by cases h⟩
    let r' := r.stageAll S.git (worktree S.host w.disk)
    -- `git add -A` reads the disk as it is now: here the metadata must be hidden
    have hindex : MetadataFree r'.index := stageAll_free hS hr (hw r hr) hlines hname hhidden
    have hstaged : u.rest.map (Repo.stageAll S.git (worktree S.host u.disk)) = some r' := by
      rw [hrest, hr, hdisk]
      rfl
    have hfree : ∀ x ∈ some r', RepoFree x := by
      rintro _ ⟨⟩
      exact ⟨(hw r hr).exclude, hindex, (hw r hr).commits⟩
    have hagrees : Agrees S w.disk r' := ⟨hindex, fun p content hp => Repo.get_of_stageAll hp⟩
    show wp (match u.rest.map (Repo.stageAll S.git (worktree S.host u.disk)) with
      | none => pure Phase.idle
      | some r => if u.faults.head?.join.isSome = true ∨ r.changes = ∅ then pure .idle
        else pure (.staged r)) _ _
      (⟨u.disk, u.rest.map (Repo.stageAll S.git (worktree S.host u.disk)), u.log, u.faults.tail⟩ :
        World (Option Repo))
    -- a failed diff, or nothing staged, ends the commit
    rw [hstaged]
    dsimp only
    split
    · exact ⟨hfree, trivial⟩
    · refine ⟨hfree, ?_⟩
      show Agrees S u.disk r'
      rw [hdisk]
      exact hagrees
  | staged r =>
    unfold advance
    rw [wp_bind]
    refine wp_of_keepsBoth gitCommand_keeps (fun _ u hdisk hrest => ⟨hkept hrest, ?_⟩)
      fun _ u _ hrest => ⟨hkept hrest, fun _ h => by cases h⟩
    show Agrees S u.disk r
    rw [hdisk]
    exact hphase
  | checking r lines found =>
    cases lines with
    | cons line lines =>
      unfold advance
      rw [wp_bind]
      refine wp_of_keepsBoth violation_keeps (fun _ u hdisk hrest => ⟨hkept hrest, ?_⟩)
        fun _ u _ hrest => ⟨hkept hrest, fun _ h => by cases h⟩
      show Agrees S u.disk r
      rw [hdisk]
      exact hphase
    | nil =>
      cases found with
      | nil => exact ⟨hw, hphase⟩
      | cons first others =>
        -- a violation was found, and the index is reset
        exact ⟨modifyRepo_free (fun _ h => h.unstage) hw, fun _ h => by cases h⟩
  | checked r =>
    unfold advance
    rw [wp_tryCatch, wp_bind]
    refine wp_of_keepsBoth runGit_keeps (fun _ u hdisk hrest => ?_) fun _ u _ hrest => ?_
    · refine ⟨modifyRepo_free (fun _ h => h.commit _ _) (hkept hrest), ?_⟩
      show Agrees S u.disk r
      rw [hdisk]
      exact hphase
    · exact ⟨modifyRepo_free (fun _ h => h.unstage) (hkept hrest), fun _ h => by cases h⟩
  | recorded r =>
    unfold advance
    rw [wp_bind]
    refine wp_of_keepsBoth runGit_keeps (fun _ u hdisk hrest => ?_)
      fun _ u _ hrest => ⟨hkept hrest, fun _ h => by cases h⟩
    rw [wp_bind]
    refine wp_of_keepsBoth runGit_keeps (fun _ v hdisk' hrest' => ⟨hkept (hrest'.trans hrest), ?_⟩)
      fun _ v _ hrest' => ⟨hkept (hrest'.trans hrest), fun _ h => by cases h⟩
    show Agrees S v.disk r
    rw [hdisk', hdisk]
    exact hphase
  | described r =>
    -- the tree is still the one that was committed, so the last check finds it clean
    have hclean : trackedStatus (worktree S.host w.disk) r = false := by
      rw [trackedStatus, decide_eq_false_iff_not, not_not]
      intro p hp
      obtain ⟨content, hcontent⟩ := FinMap.exists_of_mem_keys hp
      rw [hcontent, hphase.2 p content hcontent]
    unfold advance
    rw [wp_bind]
    show wp (if trackedStatus (worktree S.host w.disk) r = true then _ else _) _ _ w
    rw [if_neg (by simp [hclean])]
    exact ⟨hw, trivial⟩

end Invariant

/-! ## Runs -/

section Runs

variable {S : Service}

/-- Where everything is staged, metadata is hidden from git. -/
def StagedHidden (S : Service) (s : Shared) : Action → Prop
  | .next _ => match s.phase with
      | .ready => Hidden S s.disk s.repo
      | _ => True
  | _ => True

theorem act_staysOut (hS : Excludes S.git) {s s' : Shared} {a : Action} (hs : StaysOut S s)
    (ha : StagedHidden S s a) (hstep : act S s a = some s') : StaysOut S s' := by
  have hwrite {c : Cmd} {faults : List (Option String)}
      (hc : ∀ p, isMetadata p = false → ¬ c.Touches (S.host.base ++ p)) :
      StaysOut S (s.writeDisk c faults) := ⟨hs.repo, hs.phase.write hc, hs.clean⟩
  cases a with
  | edit disk =>
    simp only [act] at hstep
    split at hstep
    · rename_i hphase
      cases hstep
      exact ⟨hs.repo, by rw [hphase]; trivial, hs.clean⟩
    · cases hstep
  | begin message metadata =>
    simp only [act] at hstep
    split at hstep
    · cases hstep
      exact ⟨hs.repo, trivial, hs.clean⟩
    · cases hstep
  | next faults =>
    cases hstep
    have hready (hphase : s.phase = .ready) : Hidden S s.disk s.repo := by
      unfold StagedHidden at ha
      rw [hphase] at ha
      exact ha
    have hstays := advance_stays hS s.message s.metadata (w := ⟨s.disk, s.repo, [], faults⟩) hs.repo
      hs.phase hready
    unfold Shared.goOn
    unfold wp at hstays
    split
    · rename_i phase w hrun
      rw [hrun] at hstays
      exact ⟨hstays.1, hstays.2, hs.clean⟩
    · rename_i exc w hrun
      rw [hrun] at hstays
      refine ⟨hstays.1, trivial, ?_⟩
      dsimp only
      rw [hs.clean, Bool.false_or]
      split
      · rename_i r hphase
        exact absurd hphase (hstays.2 r)
      · rfl
  | copy uuid text faults =>
    cases hstep
    refine hwrite fun p hp htouch => ?_
    have heq : S.host.base ++ p = tmpPath uuid S.host.metaPath := htouch
    rw [tmpPath_metaPath] at heq
    have hpre : S.host.base ++ [tmpName metaName uuid] <+: S.host.base ++ p := by rw [heq]
    exact not_touches_meta (metadata_copy uuid) hp hpre
  | replace uuid faults =>
    cases hstep
    refine hwrite fun p hp htouch => ?_
    -- a rename touches its source and its target, and both are metadata
    rcases htouch with hsrc | hdst
    · rw [tmpPath_metaPath] at hsrc
      exact not_touches_meta (metadata_copy uuid) hp hsrc
    · exact not_touches_meta metadata_metaName hp hdst

instance (S : Service) (s : Shared) (a : Action) : Decidable (StagedHidden S s a) := by
  unfold StagedHidden Hidden
  split
  · split <;> infer_instance
  · infer_instance

/-- What the history must be: without metadata, and no commit failed as unclean. -/
def Proper (s : Shared) : Prop :=
  (∀ r ∈ s.repo, ∀ c ∈ r.commits, MetadataFree c.tree) ∧ s.unclean = false

/-- A workspace before its first commit. -/
def Shared.new (disk : Disk) : Shared := ⟨disk, none, .idle, [], none, false⟩

/-- **Metadata stays out of the history**, in every run in which git ignores the copies it
    finds when it stages and no `.gitignore` takes an exclusion back, and no commit fails
    its verification. -/
theorem metadata_stays_out (S : Service) (hS : Excludes S.git) (disk : Disk) (as : List Action)
    (t : Shared) (hhidden : Along (act S) (StagedHidden S) (.new disk) as)
    (hrun : run (act S) (.new disk) as = some t) : Proper t := by
  have hstart : StaysOut S (.new disk) := ⟨by rintro r ⟨⟩, trivial, rfl⟩
  have hend : StaysOut S t :=
    run_inv_along (fun _ _ _ => act_staysOut hS) hstart hhidden hrun
  exact ⟨fun r hr => (hend.repo r hr).commits, hend.clean⟩

end Runs

/-! ## A copy that is recorded -/

section Demo

def claimed : FileName := demoName "c1"

/-- A first commit, with a claim whose copy is there when everything is staged and renamed
    before the commit is verified. -/
def copyStaged : List Action :=
  [.begin "edit: a.yml" none, .next [], .copy claimed "\x7b\x7d" [], .next [], .replace claimed []] ++
    List.replicate 7 (.next [])

/-- The disk of a new workspace. -/
def demoStart : Shared := .new demoState.disk

/-- Whether a commit has the copy. -/
def recordsCopy (s : Shared) : Bool :=
  (s.repo.elim [] (·.commits)).any fun c => (c.tree.get [tmpName metaName claimed]).isSome

theorem not_free_of_recordsCopy {s : Shared} (h : recordsCopy s = true) :
    ¬ ∀ r ∈ s.repo, ∀ c ∈ r.commits, MetadataFree c.tree := by
  intro hfree
  unfold recordsCopy at h
  cases hrepo : s.repo with
  | none => rw [hrepo] at h; cases h
  | some r =>
    rw [hrepo] at h
    obtain ⟨c, hc, hcopy⟩ := List.any_eq_true.mp h
    obtain ⟨content, hcontent⟩ := Option.isSome_iff_exists.mp hcopy
    have hout := hfree r hrepo c hc _ _ hcontent
    rw [metadata_copy] at hout
    cases hout

/-- The copy is recorded, and the commit that recorded it fails as unclean. -/
theorem copyStaged_outcome : (run (act demoDeployment.toService) demoStart copyStaged).any
    (fun s => recordsCopy s && s.unclean) = true := by decide +kernel

/-- **A copy is recorded** that is there for the instant in which everything is staged. -/
theorem copy_recorded : ¬ ∀ (as : List Action) (t : Shared),
    run (act demoDeployment.toService) demoStart as = some t → Proper t := by
  intro hall
  have hbad := copyStaged_outcome
  cases hrun : run (act demoDeployment.toService) demoStart copyStaged with
  | none => rw [hrun] at hbad; cases hbad
  | some t =>
    rw [hrun, Option.any_some, Bool.and_eq_true] at hbad
    exact not_free_of_recordsCopy hbad.1 (hall _ t hrun).1

/-- The same, with the claim before the commit stages and another one after. -/
def copyMissed : List Action :=
  [.begin "edit: a.yml" none, .copy claimed "\x7b\x7d" [], .replace claimed [], .next [], .next [],
    .copy claimed "\x7b\x7d" []] ++ List.replicate 4 (.next []) ++ [.replace claimed [], .next [], .next []]

theorem demoGit_excludes : Excludes demoGit := by
  have hcomment : isPlainLine "# git ls-files --others --exclude-from=.git/info/exclude".toList = true := by
    decide +kernel
  refine ⟨⟨["# git ls-files --others --exclude-from=.git/info/exclude".toList], by decide +kernel, ?_⟩,
    fun exclude lines tree p hlines hname _ hp => ?_⟩
  · intro line hline
    rw [List.mem_singleton.mp hline]
    exact plainLine_of_test hcomment
  have hread : splitlines (exclude.getD []) = lines := by
    rw [hlines.1]
    exact splitlines_printLines fun line hl => (hlines.2 line hl).unbroken
  have hmatch : lineMatches metaName.text p = true := by
    obtain ⟨q, rfl⟩ : ∃ q, p = metaName :: q := by
      cases p with
      | nil => cases hp
      | cons n q => exact ⟨q, by rw [Option.some.inj hp]⟩
    have hslash : rstripSlash metaName.text = metaName.text ∧
        endsWith metaName.text ['/'] = false ∧ metaName.text ≠ [] ∧
        startsWith metaName.text ['#'] = false ∧ '/' ∉ metaName.text := by decide
    obtain ⟨hname, hdir, hne, hcomment, hplain⟩ := hslash
    simp [lineMatches, hname, hdir, hne, hcomment, hplain]
  show List.any (splitlines (exclude.getD []) ++ _) _ = true
  rw [hread, List.any_append, List.any_eq_true.mpr ⟨_, hname, hmatch⟩, Bool.true_or]

/-- A commit with a claim before and after it stages. -/
theorem metadata_stays_out_claims : ∃ t,
    run (act demoDeployment.toService) demoStart copyMissed = some t ∧ Proper t := by
  have hruns : (run (act demoDeployment.toService) demoStart copyMissed).isSome = true := by
    decide +kernel
  obtain ⟨t, hrun⟩ := Option.isSome_iff_exists.mp hruns
  exact ⟨t, hrun, metadata_stays_out demoDeployment.toService demoGit_excludes demoState.disk copyMissed t
    (by decide +kernel) hrun⟩

end Demo

end Infinito.History
