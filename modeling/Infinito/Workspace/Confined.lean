import Infinito.Workspace.Files

/-!
# Client-supplied paths are confined, but for what lies below `.git`

A call reaches the disk through the names it was sent. `Serves` lists the commands a name
can cause; each operation carries out no others (`FileCall.does`), so what a call touches is
known from where its names lead.

Both normalisers keep every name inside the root. `workspace.json` and `.git` themselves are
refused, but only as the last component of where a name leads: `.git/config` passes
`_safe_resolve`, and an archive may hold `.git/hooks/post-commit`. `confined_iff` is the
exact statement: of a call that goes through, everything it touches lies inside the root,
and it leaves `workspace.json` and `.git` alone exactly when no name leads there.
-/

set_option autoImplicit false

namespace Infinito.Workspace

open Py Lib

variable {ρ α : Type} {h : Host} {docs : Docs}

/-! ## The calls -/

inductive FileCall where
  | readFile (relPath : Text)
  | writeFile (uuid : FileName) (relPath content : Text)
  | createDir (relPath : Text)
  | renameFile (relPath newPath : Text)
  | deleteFile (relPath : Text)
  | loadZip (data : Option (List ZipInfo)) (defaultMode : Text) (perFileMode : List (Text × Text))

/-- Where a name leads, if it is let through. -/
def named (h : Host) (relPath : Text) : List Path :=
  match safeResolve h relPath with
  | .ok q => [q]
  | .error _ => []

def memberNames (h : Host) (infos : List ZipInfo) : List Path :=
  infos.filterMap fun info => match memberTarget h info with
    | .ok (some (_, q)) => some q
    | _ => none

namespace FileCall

/-- The call, up to the point where it commits; of `load_zip`, the part that goes by names. -/
def run (h : Host) (docs : Docs) : FileCall → Fs ρ Unit
  | readFile relPath => do let _ ← Workspace.readFile h relPath
  | writeFile uuid relPath content => do
      let _ ← Workspace.writeFile h docs uuid relPath content
  | createDir relPath => do let _ ← Workspace.createDir h relPath
  | renameFile relPath newPath => do let _ ← Workspace.renameFile h relPath newPath
  | deleteFile relPath => do let _ ← Workspace.deleteFile h relPath
  | loadZip data defaultMode perFileMode => do
      let _ ← extractZip h docs data defaultMode perFileMode

/-- The text `create_dir` hands to `_safe_resolve`. -/
def dirName (relPath : Text) : Text :=
  let raw := lstripSlash (strip relPath)
  if endsWith raw ['/'] then rstripSlash raw else raw

/-- Where the names of a call lead. -/
def names (h : Host) : FileCall → List Path
  | readFile relPath => named h relPath
  | writeFile _ relPath _ => named h relPath
  | createDir relPath => named h (dirName relPath)
  | renameFile relPath newPath => named h relPath ++ named h (lstripSlash (strip newPath))
  | deleteFile relPath => named h relPath
  | loadZip data _ _ => memberNames h (data.getD [])

/-- Whether the call makes the directories above the path it writes. -/
def makesDirs : FileCall → Bool
  | writeFile .. | createDir .. | loadZip .. => true
  | _ => false

/-- No name leads to `workspace.json`, to `.git` or below it; and where `workspace.json` is
    missing, none leads below it in a call that would make a directory of it. -/
def Clear (h : Host) (d : Disk) (call : FileCall) : Prop :=
  ∀ q ∈ call.names h, ¬ h.Protected q ∧
    (call.makesDirs = true → d.get h.metaPath = none → ¬ h.metaPath <+: q)

instance (h : Host) (d : Disk) (call : FileCall) : Decidable (call.Clear h d) :=
  inferInstanceAs (Decidable (∀ q ∈ call.names h, _))

end FileCall

/-! ## What the operations carry out -/

/-- The commands that names can cause. -/
inductive Serves (dirs : Bool) (names : List Path) (w : World ρ) : Cmd → Prop
  | mkdir {p q : Path} : dirs = true → q ∈ names → p <+: q → p ≠ [] → w.disk.get p = none →
      Serves dirs names w (.mkdir p)
  | read {q : Path} : q ∈ names → Serves dirs names w (.read q)
  | write {q : Path} {content : Bytes} : q ∈ names → Serves dirs names w (.write q content)
  | temp {uuid : FileName} {q : Path} {content : Bytes} : q ∈ names →
      Serves dirs names w (.write (tmpPath uuid q) content)
  | swap {uuid : FileName} {q : Path} : q ∈ names →
      Serves dirs names w (.rename (tmpPath uuid q) q)
  | rename {src dst : Path} : src ∈ names → dst ∈ names → Serves dirs names w (.rename src dst)
  | unlink {q : Path} : q ∈ names → Serves dirs names w (.unlink q)
  | rmtree {q : Path} : q ∈ names → Serves dirs names w (.rmtree q)

section Does

variable {dirs : Bool} {names : List Path} {q : Path}

theorem mem_named {relPath : Text} (hq : safeResolve h relPath = .ok q) : q ∈ named h relPath := by
  simp [named, hq]

theorem eq_of_mem_named {relPath : Text} (hq : q ∈ named h relPath) :
    safeResolve h relPath = .ok q := by
  unfold named at hq
  split at hq
  · rename_i p hp
    rw [List.mem_singleton] at hq
    rw [hp, hq]
  · cases hq

theorem ensure_does {P : World ρ → Cmd → Prop} : Does P (ensure h : Fs ρ Unit) :=
  Moves.bind (Moves.read _) fun _ => Moves.ite (fun _ => Moves.ret ()) fun _ => Moves.raise _

/-- What is resolved is known to be a name of the call from there on. -/
theorem does_resolved {P : World ρ → Cmd → Prop} {relPath : Text} {f : Path → Fs ρ α}
    (hf : ∀ q, q ∈ named h relPath → Does P (f q)) :
    Does P (orRaise (safeResolve h relPath) >>= f) :=
  Moves.bind_of (Does.orRaise _) (fun _ _ _ hok => mem_named (orRaise_eq_ok hok).1) hf

theorem atomicWriteText_does {uuid : FileName} {text : Text} (hdirs : dirs = true)
    (hq : q ∈ names) : Does (Serves dirs names) (atomicWriteText uuid q text : Fs ρ Unit) :=
  Moves.bind
    (safeMkdir_does fun _ _ hp hne hnone =>
      .mkdir hdirs hq (prefix_of_prefix_dropLast hp) hne hnone) fun _ =>
    Moves.bind (Does.exec fun _ _ => .temp hq) fun _ => Does.exec fun _ _ => .swap hq

theorem preserveHostVarsApplications_does (dirs : Bool) {content : Text} (hq : q ∈ names) :
    Does (Serves dirs names) (preserveHostVarsApplications docs q content : Fs ρ Text) := by
  unfold preserveHostVarsApplications
  refine Moves.ite (fun _ => ?_) fun _ => Moves.ret _
  refine Moves.bind (Moves.read _) fun b => Moves.ite (fun _ => ?_) fun _ => Moves.ret _
  refine Moves.tryCatch ?_ fun _ => Moves.ret _
  exact Moves.bind (Does.readBytes fun _ => .read hq) fun _ => Moves.ret _

theorem existingBytes_does {P : World ρ → Cmd → Prop} (hread : ∀ w, P w (.read q)) :
    Does P (existingBytes q : Fs ρ (Option Bytes)) := by
  unfold existingBytes
  refine Moves.bind (Moves.read _) fun b => Moves.ite (fun _ => ?_) fun _ => Moves.ret _
  refine Moves.tryCatch ?_ fun _ => Moves.ret _
  exact Moves.bind (Does.readBytes hread) fun _ => Moves.ret _

theorem readFile_does {relPath : Text} :
    Does (Serves false (named h relPath)) (readFile h relPath : Fs ρ Text) := by
  refine Moves.bind ensure_does fun _ => does_resolved fun q hq => ?_
  refine Moves.bind (Moves.read _) fun b => Moves.ite (fun _ => ?_) fun _ => Moves.raise _
  exact Moves.bind (Does.orFail (Does.readBytes fun _ => .read hq)) fun _ => Moves.ret _

theorem writeFile_does {uuid : FileName} {relPath content : Text} :
    Does (Serves true (named h relPath)) (writeFile h docs uuid relPath content : Fs ρ _) := by
  refine Moves.bind ensure_does fun _ => does_resolved fun q hq => ?_
  refine Moves.bind (Moves.read _) fun existed => ?_
  refine Moves.bind (safeMkdir_does fun w p hp hne hnone =>
    .mkdir rfl hq (prefix_of_prefix_dropLast hp) hne hnone) fun _ => ?_
  refine Moves.bind (preserveHostVarsApplications_does true hq) fun text => ?_
  refine Moves.bind (Does.orFail (atomicWriteText_does rfl hq)) fun _ => ?_
  exact Moves.bind (Does.orRaise _) fun _ => Moves.ret _

theorem createDir_does {relPath : Text} :
    Does (Serves true (named h (FileCall.dirName relPath))) (createDir h relPath : Fs ρ _) := by
  refine Moves.bind ensure_does fun _ => Moves.ite (fun _ => Moves.raise _) fun _ => ?_
  refine does_resolved fun q hq => ?_
  refine Moves.bind (Moves.read _) fun b => Moves.ite (fun _ => Moves.raise _) fun _ => ?_
  refine Moves.bind (Does.orFail (safeMkdir_does fun w p hp hne hnone =>
    .mkdir rfl hq hp hne hnone)) fun _ => ?_
  exact Moves.bind (Does.orRaise _) fun _ => Moves.ret _

theorem renameFile_does {relPath newPath : Text} :
    Does (Serves false (named h relPath ++ named h (lstripSlash (strip newPath))))
      (renameFile h relPath newPath : Fs ρ _) := by
  refine Moves.bind ensure_does fun _ => does_resolved fun src hsrc => ?_
  refine Moves.bind (Moves.read _) fun b => Moves.ite (fun _ => ?_) fun _ => Moves.raise _
  refine Moves.ite (fun _ => Moves.raise _) fun _ => does_resolved fun dst hdst => ?_
  refine Moves.bind (Moves.read _) fun b => Moves.ite (fun _ => Moves.raise _) fun _ => ?_
  refine Moves.bind (Moves.read _) fun b => Moves.ite (fun _ => Moves.raise _) fun _ => ?_
  refine Moves.bind (Moves.read _) fun b => Moves.ite (fun _ => ?_) fun _ => Moves.raise _
  refine Moves.bind (Does.orFail (Does.exec fun _ _ =>
    .rename (List.mem_append_left _ hsrc) (List.mem_append_right _ hdst))) fun _ => ?_
  refine Moves.bind (Does.orRaise _) fun _ => ?_
  exact Moves.bind (Does.orRaise _) fun _ => Moves.ret _

theorem deleteFile_does {relPath : Text} :
    Does (Serves false (named h relPath)) (deleteFile h relPath : Fs ρ _) := by
  refine Moves.bind ensure_does fun _ => does_resolved fun q hq => ?_
  refine Moves.bind (Moves.read _) fun b => Moves.ite (fun _ => ?_) fun _ => Moves.raise _
  refine Moves.bind (Does.orFail ?_) fun _ => Moves.bind (Does.orRaise _) fun _ => Moves.ret _
  refine Moves.bind (Moves.read _) fun b => Moves.ite (fun _ => ?_) fun _ => ?_
  · exact Does.exec fun _ _ => .rmtree hq
  · exact Does.exec fun _ _ => .unlink hq

theorem extract_does (dirs : Bool) {payload : Bytes} (hq : q ∈ names) :
    Does (Serves dirs names) (extract q payload : Fs ρ Unit) :=
  Does.orFail (Moves.bind (Does.exec fun _ _ => .write hq) fun _ => Does.exec fun _ _ => .write hq)

theorem mergeMember_does (dirs : Bool) {counts : ZipCounts} {relPath : Text}
    {existing incoming : Bytes} (hq : q ∈ names) :
    Does (Serves dirs names) (mergeMember docs counts relPath q existing incoming : Fs ρ _) := by
  unfold mergeMember
  split
  · exact Moves.ret _
  · refine Moves.ite (fun _ => Moves.ret _) fun _ => ?_
    exact Moves.bind (extract_does dirs hq) fun _ => Moves.ret _

theorem writeMember_does (dirs : Bool) {counts : ZipCounts} {incoming : Bytes} (hq : q ∈ names) :
    Does (Serves dirs names) (writeMember counts q incoming : Fs ρ _) :=
  Moves.bind (Moves.read _) fun _ => Moves.bind (extract_does dirs hq) fun _ => Moves.ret _

theorem importMember_does {mode : ZipMode} {perFile : List (Text × Text)} {counts : ZipCounts}
    {info : ZipInfo} (hnames : ∀ relPath q, memberTarget h info = .ok (some (relPath, q)) → q ∈ names) :
    Does (Serves true names) (importMember h docs mode perFile counts info : Fs ρ _) := by
  refine Moves.bind_of (P := fun target => memberTarget h info = .ok target) (Does.orRaise _)
    (fun _ _ _ hok => (orRaise_eq_ok hok).1) fun target htarget => ?_
  cases target with
  | none => exact Moves.ret _
  | some member =>
    obtain ⟨relPath, q⟩ := member
    have hq : q ∈ names := hnames relPath q htarget
    refine Moves.bind (safeMkdir_does fun w p hp hne hnone =>
      .mkdir rfl hq (prefix_of_prefix_dropLast hp) hne hnone) fun _ => ?_
    refine Moves.bind (Does.orFail (Does.orRaise _)) fun incoming => ?_
    refine Moves.bind (existingBytes_does fun _ => .read hq) fun existing => ?_
    split
    · exact mergeMember_does true hq
    · exact writeMember_does true hq

theorem mem_memberNames {infos : List ZipInfo} {info : ZipInfo} {relPath : Text}
    (hmem : info ∈ infos) (hq : memberTarget h info = .ok (some (relPath, q))) :
    q ∈ memberNames h infos :=
  List.mem_filterMap.mpr ⟨info, hmem, by simp [hq]⟩

theorem importMembers_does {mode : ZipMode} {perFile : List (Text × Text)} {counts : ZipCounts}
    {infos : List ZipInfo} (hnames : ∀ q ∈ memberNames h infos, q ∈ names) :
    Does (Serves true names) (importMembers h docs mode perFile counts infos : Fs ρ _) := by
  induction infos generalizing counts with
  | nil => exact Moves.ret _
  | cons info infos ih =>
    refine Moves.bind (importMember_does fun relPath q hq =>
      hnames q (mem_memberNames List.mem_cons_self hq)) fun counts => ih fun q hq => hnames q ?_
    obtain ⟨i, hi, heq⟩ := List.mem_filterMap.mp hq
    exact List.mem_filterMap.mpr ⟨i, List.mem_cons_of_mem _ hi, heq⟩

/-- **A call carries out what its names call for, and nothing else.** -/
theorem FileCall.does (docs : Docs) (call : FileCall) :
    Does (Serves call.makesDirs (call.names h)) (call.run h docs : Fs ρ Unit) := by
  cases call with
  | readFile relPath => exact Moves.bind readFile_does fun _ => Moves.ret ()
  | writeFile uuid relPath content => exact Moves.bind writeFile_does fun _ => Moves.ret ()
  | createDir relPath => exact Moves.bind createDir_does fun _ => Moves.ret ()
  | renameFile relPath newPath => exact Moves.bind renameFile_does fun _ => Moves.ret ()
  | deleteFile relPath => exact Moves.bind deleteFile_does fun _ => Moves.ret ()
  | loadZip data mode perFile =>
    refine Moves.bind (Moves.bind ensure_does fun _ => ?_) fun _ => Moves.ret ()
    cases data with
    | none => exact Moves.raise _
    | some infos => exact importMembers_does fun q hq => hq

end Does

/-! ## Where the commands land -/

namespace Host

/-- Inside the root, and the client's own. -/
def Allowed (h : Host) (q : Path) : Prop := h.Inside q ∧ ¬ h.Protected q

instance (h : Host) (q : Path) : Decidable (h.Allowed q) := inferInstanceAs (Decidable (_ ∧ _))

theorem Inside.below {q r : Path} (hq : h.Inside q) (hqr : q <+: r) : h.Inside r := by
  refine ⟨hq.1.trans hqr, ?_⟩
  rintro rfl
  exact hq.2 (hqr.eq_of_length_le hq.1.length_le)

/-- Above an entry of the root there is nothing but directories the root lies in. -/
theorem Inside.of_prefix_singleton {q : Path} {n : FileName} (hq : h.Inside q)
    (hpre : q <+: h.base ++ [n]) : q = h.base ++ [n] := by
  rcases List.prefix_concat_iff.mp hpre with heq | hpre
  · exact heq
  · exact absurd (hpre.eq_of_length_le hq.1.length_le) hq.2

theorem Allowed.below {q r : Path} (hq : h.Allowed q) (hqr : q <+: r) : h.Allowed r := by
  refine ⟨hq.1.below hqr, fun hr => hq.2 ?_⟩
  rcases hr with rfl | hgit
  · exact Or.inl (hq.1.of_prefix_singleton hqr)
  · rcases List.prefix_or_prefix_of_prefix hqr hgit with hpre | hpre
    · rw [hq.1.of_prefix_singleton hpre]
      exact Or.inr (List.prefix_refl _)
    · exact Or.inr hpre

theorem Inside.ne_nil {q : Path} (hq : h.Inside q) : q ≠ [] := by
  rintro rfl
  exact hq.2 (List.prefix_nil.mp hq.1).symm

theorem Inside.sibling {q : Path} {n : FileName} (hq : h.Inside q) :
    h.Inside (q.dropLast ++ [n]) := by
  have hbase : h.base <+: q.dropLast := prefix_dropLast hq.1 hq.2.symm
  refine ⟨hbase.trans (List.prefix_append _ _), ?_⟩
  intro heq
  have hlen := hbase.length_le
  rw [← heq, List.length_append] at hlen
  simp only [List.length_singleton] at hlen
  omega

/-- Next to an allowed path, under another name that is not hidden, is an allowed path. -/
theorem Allowed.sibling {q : Path} {n : FileName} (hq : h.Allowed q) (hn : n ∉ hiddenFiles) :
    h.Allowed (q.dropLast ++ [n]) := by
  refine ⟨hq.1.sibling, ?_⟩
  rintro (heq | hgit)
  · have hlast : n = metaName := by
      have := congrArg List.getLast? heq
      simpa [metaPath] using this
    exact hn (by simp [hlast, hiddenFiles])
  · rcases List.prefix_concat_iff.mp hgit with heq | hpre
    · have hlast : n = gitName := by
        have := congrArg List.getLast? heq
        simpa [gitDir] using this.symm
      exact hn (by simp [hlast, hiddenFiles])
    · exact hq.2 (Or.inr (hpre.trans (List.dropLast_prefix q)))

theorem tmpPath_eq {q : Path} (uuid : FileName) (hne : q ≠ []) :
    ∃ name, tmpPath uuid q = q.dropLast ++ [tmpName name uuid] := by
  unfold tmpPath
  split
  · exact ⟨_, rfl⟩
  · rename_i hnone
    exact absurd (List.getLast?_eq_none_iff.mp hnone) hne

theorem Inside.temp {q : Path} {uuid : FileName} (hq : h.Inside q) : h.Inside (tmpPath uuid q) := by
  obtain ⟨name, heq⟩ := tmpPath_eq uuid hq.ne_nil
  rw [heq]
  exact hq.sibling

theorem Allowed.temp {q : Path} {uuid : FileName} (hq : h.Allowed q) :
    h.Allowed (tmpPath uuid q) := by
  obtain ⟨name, heq⟩ := tmpPath_eq uuid hq.1.ne_nil
  rw [heq]
  exact hq.sibling (tmpName_not_hidden _ _)

end Host

section Confined

variable {dirs : Bool} {names : List Path} {d : Disk}

/-- What holds while a call runs that touches only what is `good`. `metaThere` is whether
    there was a metadata file to begin with. -/
structure Within (h : Host) (good : Path → Prop) (metaThere : Prop) (w : World ρ) : Prop where
  base : w.disk.isDir h.base = true
  log : ∀ c ∈ w.log, ∀ q, c.Touches q → good q
  metadata : metaThere → w.disk.get h.metaPath ≠ none

/-- A directory that is made above a name is inside the root. -/
theorem inside_of_missing {p q : Path} (hbase : d.isDir h.base = true) (hq : h.Inside q)
    (hpre : p <+: q) (hne : p ≠ []) (hnone : d.get p = none) : h.Inside p := by
  have hnotdir : d.isDir p ≠ true := by
    intro hdir
    rcases Nodes.isDir_iff.mp hdir with hnil | hget
    · exact hne hnil
    · rw [Disk.get, hget] at hnone
      cases hnone
  rcases List.prefix_or_prefix_of_prefix hpre hq.1 with hp | hp
  · exact absurd (Disk.isDir_of_prefix hbase hp) hnotdir
  · exact ⟨hp, by rintro rfl; exact hnotdir hbase⟩

/-- Where the names are good, and what lies below and beside good paths is, so is all that a
    command touches that serves them. -/
theorem Serves.touches {good : Path → Prop} {w : World ρ} {c : Cmd} (hc : Serves dirs names w c)
    (hbelow : ∀ q r, good q → q <+: r → good r) (htemp : ∀ uuid q, good q → good (tmpPath uuid q))
    (hmade : ∀ p q, dirs = true → q ∈ names → p <+: q → p ≠ [] → w.disk.get p = none → good p)
    (hin : ∀ q ∈ names, good q) {r : Path} (hr : c.Touches r) : good r := by
  cases hc with
  | mkdir hdirs hq hpre hne hnone =>
    rw [show r = _ from hr]
    exact hmade _ _ hdirs hq hpre hne hnone
  | read hq => rw [show r = _ from hr]; exact hin _ hq
  | write hq => rw [show r = _ from hr]; exact hin _ hq
  | temp hq => rw [show r = _ from hr]; exact htemp _ _ (hin _ hq)
  | swap hq =>
    rcases hr with hr | hr
    · exact hbelow _ _ (htemp _ _ (hin _ hq)) hr
    · exact hbelow _ _ (hin _ hq) hr
  | rename hsrc hdst =>
    rcases hr with hr | hr
    · exact hbelow _ _ (hin _ hsrc) hr
    · exact hbelow _ _ (hin _ hdst) hr
  | unlink hq => rw [show r = _ from hr]; exact hin _ hq
  | rmtree hq => exact hbelow _ _ (hin _ hq) hr

theorem Within.kept (good : Path → Prop) (metaThere : Prop) {m : Fs ρ α} (hm : Does (Serves dirs names) m)
    (hbelow : ∀ q r, good q → q <+: r → good r) (htemp : ∀ uuid q, good q → good (tmpPath uuid q))
    (hmade : ∀ w : World ρ, Within h good metaThere w → ∀ p q, dirs = true → q ∈ names → p <+: q →
      p ≠ [] → w.disk.get p = none → good p)
    (hin : ∀ q ∈ names, good q) (hroot : ¬ good h.base) (hmeta : metaThere → ¬ good h.metaPath) :
    Keeps (Within h good metaThere) m := by
  refine hm.keeps ?_ fun w hw => ⟨hw.base, hw.log, hw.metadata⟩
  intro w c hc hw hserves
  have htouches : ∀ q, c.Touches q → good q := fun q =>
    hserves.touches hbelow htemp (hmade w hw) hin
  have hkept : ∀ q, ¬ good q → (w.did c hc).disk.get q = w.disk.get q := fun q hq =>
    Cmd.get_apply_of_not_touches fun ht => hq (htouches q ht)
  refine ⟨?_, ?_, ?_⟩
  · rcases Nodes.isDir_iff.mp hw.base with hnil | hget
    · exact Nodes.isDir_iff.mpr (Or.inl hnil)
    · exact Nodes.isDir_iff.mpr (Or.inr ((hkept _ hroot).trans hget))
  · intro c' hc' q hq
    rcases List.mem_append.mp hc' with hc' | hc'
    · exact hw.log c' hc' q hq
    · rw [List.mem_singleton] at hc'
      exact htouches q (hc' ▸ hq)
  · intro hthere
    rw [hkept _ (hmeta hthere)]
    exact hw.metadata hthere

end Confined

/-! ## What a call that went through has touched -/

/-- Some command so far has touched `q`. -/
def World.Touched (w : World ρ) (q : Path) : Prop := ∃ c ∈ w.log, c.Touches q

section Touched

variable {P : World ρ → Cmd → Prop} {w w' : World ρ} {q : Path} {a : α} {m : Fs ρ α}

theorem Does.touched (hm : Does P m) (hok : m w = .ok a w') (hq : w.Touched q) : w'.Touched q := by
  obtain ⟨cs, hlog, -, -⟩ := hm.trace w
  rw [after_of_ok hok] at hlog
  obtain ⟨c, hc, hcq⟩ := hq
  exact ⟨c, by rw [hlog]; exact List.mem_append_left _ hc, hcq⟩

theorem Does.touched_of_changed (hm : Does P m) (hok : m w = .ok a w')
    (hne : w'.disk.get q ≠ w.disk.get q) : w'.Touched q := by
  obtain ⟨cs, hlog, -, hframe⟩ := hm.trace w
  rw [after_of_ok hok] at hlog hframe
  by_contra hno
  exact hne (hframe q fun c hc hcq => hno ⟨c, by rw [hlog]; exact List.mem_append_right _ hc, hcq⟩)

theorem touched_of_exec {c : Cmd} (hok : exec c w = .ok () w') (hq : c.Touches q) : w'.Touched q := by
  obtain ⟨hc, rfl⟩ := exec_eq_ok hok
  exact ⟨c, by simp, hq⟩

theorem orFail_eq_ok {what : String} (hok : orFail what m w = .ok a w') : m w = .ok a w' := by
  rcases tryCatch_eq_ok.mp hok with hm | ⟨e, u, -, hraise⟩
  · exact hm
  · cases hraise

theorem ensure_eq_ok (hok : (ensure h : Fs ρ Unit) w = .ok () w') :
    w' = w ∧ w.disk.isDir h.base = true := by
  obtain ⟨b, u, hb, hok⟩ := bind_eq_ok.mp hok
  cases hb
  split at hok
  · rename_i hdir
    cases hok
    exact ⟨rfl, hdir⟩
  · cases hok

theorem touched_of_readBytes {bs : Bytes} (hok : readBytes q w = .ok bs w') : w'.Touched q := by
  obtain ⟨⟨⟩, u, hexec, hok⟩ := bind_eq_ok.mp hok
  cases hok
  exact touched_of_exec hexec rfl

theorem touched_of_atomicWriteText {uuid : FileName} {text : Text}
    (hok : atomicWriteText uuid q text w = .ok () w') : w'.Touched q := by
  obtain ⟨-, u, -, hok⟩ := bind_eq_ok.mp hok
  obtain ⟨-, v, -, hok⟩ := bind_eq_ok.mp hok
  exact touched_of_exec hok (Or.inr (List.prefix_refl q))

/-- Making directories down to a path makes one of a missing `workspace.json` above it. -/
theorem touched_of_safeMkdir {p : Path} (hok : safeMkdir p w = .ok () w') (hpre : q <+: p)
    (hne : q ≠ []) (hnone : w.disk.get q = none) : w'.Touched q := by
  have hdir := Disk.isDir_of_prefix (isDir_of_safeMkdir hok) hpre
  refine Does.touched_of_changed (P := fun _ _ => True) (safeMkdir_does fun _ _ _ _ _ => trivial)
    hok ?_
  rw [hnone]
  rcases Nodes.isDir_iff.mp hdir with hnil | hget
  · exact absurd hnil hne
  · rw [Disk.get, hget]
    simp

/-- What a call that went through has touched of a name: the path, and `workspace.json` if
    that was missing and the path lies below it. -/
def Reached (h : Host) (makesDirs : Bool) (w w' : World ρ) (q : Path) : Prop :=
  w'.Touched q ∧
    (makesDirs = true → w.disk.get h.metaPath = none → h.metaPath <+: q → w'.Touched h.metaPath)

theorem metaPath_ne_nil : h.metaPath ≠ [] := by simp [Host.metaPath]

theorem readFile_reached {relPath text : Text} (hok : readFile h relPath w = .ok text w')
    (hq : q ∈ named h relPath) : Reached h false w w' q := by
  refine ⟨?_, fun hdirs => by cases hdirs⟩
  replace hok := bind_eq_ok.mp hok
  obtain ⟨⟨⟩, u, -, hok⟩ := hok
  replace hok := bind_eq_ok.mp hok
  obtain ⟨target, v, hres, hok⟩ := hok
  obtain ⟨hres, rfl⟩ := orRaise_eq_ok hres
  rw [eq_of_mem_named hq] at hres
  cases hres
  replace hok := bind_eq_ok.mp hok
  obtain ⟨b, _, hb, hok⟩ := hok
  cases hb
  split at hok
  · obtain ⟨bytes, u', hread, hok⟩ := bind_eq_ok.mp hok
    cases hok
    exact touched_of_readBytes (orFail_eq_ok hread)
  · cases hok

theorem deleteFile_reached {relPath : Text} {r : Done Unit}
    (hok : deleteFile h relPath w = .ok r w') (hq : q ∈ named h relPath) :
    Reached h false w w' q := by
  refine ⟨?_, fun hdirs => by cases hdirs⟩
  replace hok := bind_eq_ok.mp hok
  obtain ⟨⟨⟩, u, -, hok⟩ := hok
  replace hok := bind_eq_ok.mp hok
  obtain ⟨target, v, hres, hok⟩ := hok
  obtain ⟨hres, rfl⟩ := orRaise_eq_ok hres
  rw [eq_of_mem_named hq] at hres
  cases hres
  replace hok := bind_eq_ok.mp hok
  obtain ⟨b, _, hb, hok⟩ := hok
  cases hb
  split at hok
  · obtain ⟨⟨⟩, u', hdel, hok⟩ := bind_eq_ok.mp hok
    replace hok := bind_eq_ok.mp hok
    obtain ⟨path, u'', hrel, hok⟩ := hok
    obtain ⟨-, rfl⟩ := orRaise_eq_ok hrel
    cases hok
    obtain ⟨d, _, hd, hdel⟩ := bind_eq_ok.mp (orFail_eq_ok hdel)
    cases hd
    split at hdel
    · exact touched_of_exec hdel (List.prefix_refl q)
    · exact touched_of_exec hdel rfl
  · cases hok

theorem renameFile_reached {relPath newPath : Text} {r : Done Text}
    (hok : renameFile h relPath newPath w = .ok r w')
    (hq : q ∈ named h relPath ++ named h (lstripSlash (strip newPath))) :
    Reached h false w w' q := by
  refine ⟨?_, fun hdirs => by cases hdirs⟩
  replace hok := bind_eq_ok.mp hok
  obtain ⟨⟨⟩, u, -, hok⟩ := hok
  replace hok := bind_eq_ok.mp hok
  obtain ⟨src, v, hsrc, hok⟩ := hok
  obtain ⟨hsrc, rfl⟩ := orRaise_eq_ok hsrc
  replace hok := bind_eq_ok.mp hok
  obtain ⟨b, _, hb, hok⟩ := hok
  cases hb
  split at hok
  swap
  · cases hok
  dsimp only at hok
  split at hok
  · cases hok
  replace hok := bind_eq_ok.mp hok
  obtain ⟨dst, v', hdst, hok⟩ := hok
  obtain ⟨hdst, rfl⟩ := orRaise_eq_ok hdst
  replace hok := bind_eq_ok.mp hok
  obtain ⟨b, _, hb, hok⟩ := hok
  cases hb
  split at hok
  · cases hok
  replace hok := bind_eq_ok.mp hok
  obtain ⟨b, _, hb, hok⟩ := hok
  cases hb
  split at hok
  · cases hok
  replace hok := bind_eq_ok.mp hok
  obtain ⟨b, _, hb, hok⟩ := hok
  cases hb
  split at hok
  swap
  · cases hok
  replace hok := bind_eq_ok.mp hok
  obtain ⟨⟨⟩, u', hren, hok⟩ := hok
  replace hok := bind_eq_ok.mp hok
  obtain ⟨old, u'', hold, hok⟩ := hok
  obtain ⟨-, rfl⟩ := orRaise_eq_ok hold
  replace hok := bind_eq_ok.mp hok
  obtain ⟨new, u'', hnew, hok⟩ := hok
  obtain ⟨-, rfl⟩ := orRaise_eq_ok hnew
  cases hok
  -- the rename itself touches what both names resolved to
  have hren := orFail_eq_ok hren
  rcases List.mem_append.mp hq with hq | hq
  · rw [eq_of_mem_named hq] at hsrc
    cases hsrc
    exact touched_of_exec hren (Or.inl (List.prefix_refl _))
  · rw [eq_of_mem_named hq] at hdst
    cases hdst
    exact touched_of_exec hren (Or.inr (List.prefix_refl _))

theorem safeResolve_ne_metaPath {relPath : Text} (hres : safeResolve h relPath = .ok q) :
    q ≠ h.metaPath := by
  rintro rfl
  have hlast := (safeResolve_eq_ok hres).2.2 metaName (by simp [Host.metaPath])
  exact hlast (by simp [hiddenFiles])

theorem writeFile_reached {uuid : FileName} {relPath content : Text} {r : Done Unit}
    (hok : writeFile h docs uuid relPath content w = .ok r w') (hq : q ∈ named h relPath) :
    Reached h true w w' q := by
  replace hok := bind_eq_ok.mp hok
  obtain ⟨⟨⟩, u, hens, hok⟩ := hok
  obtain ⟨rfl, -⟩ := ensure_eq_ok hens
  replace hok := bind_eq_ok.mp hok
  obtain ⟨target, v, hres, hok⟩ := hok
  obtain ⟨hres, rfl⟩ := orRaise_eq_ok hres
  rw [eq_of_mem_named hq] at hres
  cases hres
  replace hok := bind_eq_ok.mp hok
  obtain ⟨existed, _, hb, hok⟩ := hok
  cases hb
  replace hok := bind_eq_ok.mp hok
  obtain ⟨⟨⟩, u₁, hmk, hok⟩ := hok
  replace hok := bind_eq_ok.mp hok
  obtain ⟨text, u₂, hpres, hok⟩ := hok
  replace hok := bind_eq_ok.mp hok
  obtain ⟨⟨⟩, u₃, hwrite, hok⟩ := hok
  replace hok := bind_eq_ok.mp hok
  obtain ⟨path, u₄, hrel, hok⟩ := hok
  obtain ⟨-, rfl⟩ := orRaise_eq_ok hrel
  cases hok
  have hwrite := orFail_eq_ok hwrite
  refine ⟨touched_of_atomicWriteText hwrite, fun _ hnone hmeta => ?_⟩
  have hpre := prefix_dropLast hmeta (safeResolve_ne_metaPath (eq_of_mem_named hq)).symm
  have htouched := touched_of_safeMkdir hmk hpre metaPath_ne_nil hnone
  have hpres' := (preserveHostVarsApplications_does true hq).touched hpres htouched
  exact (atomicWriteText_does rfl hq).touched hwrite hpres'

theorem createDir_reached {relPath : Text} {r : Done Text}
    (hok : createDir h relPath w = .ok r w') (hq : q ∈ named h (FileCall.dirName relPath)) :
    Reached h true w w' q := by
  replace hok := bind_eq_ok.mp hok
  obtain ⟨⟨⟩, u, hens, hok⟩ := hok
  obtain ⟨rfl, -⟩ := ensure_eq_ok hens
  split at hok
  · cases hok
  replace hok := bind_eq_ok.mp hok
  obtain ⟨target, v, hres, hok⟩ := hok
  obtain ⟨htarget, rfl⟩ := orRaise_eq_ok hres
  have heq : q = target := by
    have := (eq_of_mem_named hq).symm.trans htarget
    injection this
  subst heq
  replace hok := bind_eq_ok.mp hok
  obtain ⟨b, _, hb, hok⟩ := hok
  cases hb
  split at hok
  · cases hok
  rename_i hmissing
  replace hok := bind_eq_ok.mp hok
  obtain ⟨⟨⟩, u₁, hmk, hok⟩ := hok
  replace hok := bind_eq_ok.mp hok
  obtain ⟨path, u₂, hrel, hok⟩ := hok
  obtain ⟨-, rfl⟩ := orRaise_eq_ok hrel
  cases hok
  have hmk := orFail_eq_ok hmk
  have hnone : v.disk.get q = none := by
    simp at hmissing
    exact hmissing.2
  exact ⟨touched_of_safeMkdir hmk (List.prefix_refl q) (safeResolve_inside htarget).ne_nil hnone,
    fun _ hnone hmeta => touched_of_safeMkdir hmk hmeta metaPath_ne_nil hnone⟩

theorem existingBytes_cases {bs : Option Bytes} (hok : existingBytes q w = .ok bs w') :
    bs = none ∨ w'.Touched q := by
  replace hok := bind_eq_ok.mp hok
  obtain ⟨b, _, hb, hok⟩ := hok
  cases hb
  split at hok
  swap
  · cases hok; exact Or.inl rfl
  rcases tryCatch_eq_ok.mp hok with hm | ⟨e, u, -, hret⟩
  · obtain ⟨bytes, u, hread, hret⟩ := bind_eq_ok.mp hm
    cases hret
    exact Or.inr (touched_of_readBytes hread)
  · cases hret
    exact Or.inl rfl

theorem touched_of_extract {payload : Bytes} (hok : extract q payload w = .ok () w') :
    w'.Touched q := by
  obtain ⟨⟨⟩, u, -, hwrite⟩ := bind_eq_ok.mp (orFail_eq_ok hok)
  exact touched_of_exec hwrite rfl

theorem mergeMember_reached {counts counts' : ZipCounts} {relPath : Text}
    {existing incoming : Bytes} (hok : mergeMember docs counts relPath q existing incoming w =
      .ok counts' w') : w' = w ∨ w'.Touched q := by
  unfold mergeMember at hok
  cases hmerge : mergeStructuredBytes docs relPath existing incoming with
  | none =>
    rw [hmerge] at hok
    cases hok
    exact Or.inl rfl
  | some payload =>
    rw [hmerge] at hok
    dsimp only at hok
    by_cases heq : payload = existing
    · rw [if_pos heq] at hok
      cases hok
      exact Or.inl rfl
    · rw [if_neg heq] at hok
      replace hok := bind_eq_ok.mp hok
      obtain ⟨⟨⟩, u, hwrite, hok⟩ := hok
      cases hok
      exact Or.inr (touched_of_extract hwrite)

theorem writeMember_reached {counts counts' : ZipCounts} {incoming : Bytes}
    (hok : writeMember counts q incoming w = .ok counts' w') : w'.Touched q := by
  replace hok := bind_eq_ok.mp hok
  obtain ⟨b, _, hb, hok⟩ := hok
  cases hb
  replace hok := bind_eq_ok.mp hok
  obtain ⟨⟨⟩, u, hwrite, hok⟩ := hok
  cases hok
  exact touched_of_extract hwrite

theorem importMember_reached {mode : ZipMode} {perFile : List (Text × Text)}
    {counts counts' : ZipCounts} {info : ZipInfo} {relPath : Text}
    (hok : importMember h docs mode perFile counts info w = .ok counts' w')
    (hq : memberTarget h info = .ok (some (relPath, q))) :
    w'.Touched q ∧ (w.disk.get h.metaPath = none → h.metaPath <+: q → w'.Touched h.metaPath) := by
  replace hok := bind_eq_ok.mp hok
  obtain ⟨target, v, hres, hok⟩ := hok
  obtain ⟨htarget, rfl⟩ := orRaise_eq_ok hres
  rw [hq] at htarget
  cases htarget
  dsimp only at hok
  replace hok := bind_eq_ok.mp hok
  obtain ⟨⟨⟩, u₁, hmk, hok⟩ := hok
  replace hok := bind_eq_ok.mp hok
  obtain ⟨incoming, u₂, hin, hok⟩ := hok
  obtain ⟨-, rfl⟩ := orRaise_eq_ok (orFail_eq_ok hin)
  replace hok := bind_eq_ok.mp hok
  obtain ⟨existing, u₃, hex, hok⟩ := hok
  have hq' : q ∈ [q] := List.mem_singleton.mpr rfl
  -- whatever becomes of the entry, it is read or written in the end
  have hend : w'.Touched q ∧ (u₃.Touched h.metaPath → w'.Touched h.metaPath) := by
    have hwritten (hok : writeMember counts q incoming u₃ = .ok counts' w') :
        w'.Touched q ∧ (u₃.Touched h.metaPath → w'.Touched h.metaPath) :=
      ⟨writeMember_reached hok, (writeMember_does true hq').touched hok⟩
    generalize resolveZipMode relPath mode perFile = m at hok
    cases m with
    | override => exact hwritten hok
    | merge =>
      cases existing with
      | none => exact hwritten hok
      | some existing =>
        have hread := (existingBytes_cases hex).resolve_left (by simp)
        refine ⟨?_, (mergeMember_does true hq').touched hok⟩
        rcases mergeMember_reached hok with rfl | htouched
        · exact hread
        · exact htouched
  refine ⟨hend.1, fun hnone hmeta => ?_⟩
  by_cases heq : h.metaPath = q
  · rw [heq]; exact hend.1
  · have htouched := touched_of_safeMkdir hmk (prefix_dropLast hmeta heq) metaPath_ne_nil hnone
    exact hend.2 ((existingBytes_does (P := Serves true _) fun _ => .read hq').touched hex htouched)

theorem importMembers_reached {mode : ZipMode} {perFile : List (Text × Text)}
    {counts counts' : ZipCounts} {infos : List ZipInfo}
    (hok : importMembers h docs mode perFile counts infos w = .ok counts' w')
    (hq : q ∈ memberNames h infos) : Reached h true w w' q := by
  induction infos generalizing counts w with
  | nil => cases hq
  | cons info infos ih =>
    obtain ⟨counts₁, u, hfirst, hrest⟩ := bind_eq_ok.mp hok
    have hdoes : Does (fun _ _ => True)
        (importMembers h docs mode perFile counts₁ infos : Fs ρ ZipCounts) :=
      (importMembers_does fun _ hq => hq).weaken fun _ _ _ => trivial
    have hdoes₁ : Does (fun _ _ => True)
        (importMember h docs mode perFile counts info : Fs ρ ZipCounts) :=
      (importMember_does fun _ _ hq =>
        mem_memberNames (List.mem_singleton.mpr (Eq.refl info)) hq).weaken fun _ _ _ => trivial
    obtain ⟨i, hi, htarget⟩ := List.mem_filterMap.mp hq
    rcases List.mem_cons.mp hi with rfl | hi
    · split at htarget
      · rename_i relPath p hmember
        cases htarget
        obtain ⟨hfirst₁, hfirst₂⟩ := importMember_reached hfirst hmember
        exact ⟨hdoes.touched hrest hfirst₁,
          fun _ hnone hmeta => hdoes.touched hrest (hfirst₂ hnone hmeta)⟩
      · cases htarget
    · obtain ⟨hq', hmeta'⟩ := ih hrest (List.mem_filterMap.mpr ⟨i, hi, htarget⟩)
      refine ⟨hq', fun hdirs hnone hmeta => ?_⟩
      -- the first entry may have made the directory already
      by_cases hu : u.disk.get h.metaPath = none
      · exact hmeta' hdirs hu hmeta
      · exact hdoes.touched hrest (hdoes₁.touched_of_changed hfirst (by rw [hnone]; exact hu))

theorem FileCall.reached {call : FileCall} (hok : call.run h docs w = .ok () w')
    (hq : q ∈ call.names h) : Reached h call.makesDirs w w' q := by
  cases call with
  | readFile relPath =>
    obtain ⟨r, u, hrun, hret⟩ := bind_eq_ok.mp hok
    cases hret
    exact readFile_reached hrun hq
  | writeFile uuid relPath content =>
    obtain ⟨r, u, hrun, hret⟩ := bind_eq_ok.mp hok
    cases hret
    exact writeFile_reached hrun hq
  | createDir relPath =>
    obtain ⟨r, u, hrun, hret⟩ := bind_eq_ok.mp hok
    cases hret
    exact createDir_reached hrun hq
  | renameFile relPath newPath =>
    obtain ⟨r, u, hrun, hret⟩ := bind_eq_ok.mp hok
    cases hret
    exact renameFile_reached hrun hq
  | deleteFile relPath =>
    obtain ⟨r, u, hrun, hret⟩ := bind_eq_ok.mp hok
    cases hret
    exact deleteFile_reached hrun hq
  | loadZip data mode perFile =>
    obtain ⟨r, u, hrun, hret⟩ := bind_eq_ok.mp hok
    cases hret
    obtain ⟨⟨⟩, v, hens, hzip⟩ := bind_eq_ok.mp hrun
    obtain ⟨rfl, -⟩ := ensure_eq_ok hens
    cases data with
    | none => cases hzip
    | some infos => exact importMembers_reached hzip hq

end Touched

/-! ## Confinement -/

theorem inside_of_mem_names {call : FileCall} {q : Path} (hq : q ∈ call.names h) : h.Inside q := by
  have hnamed {relPath : Text} (hq : q ∈ named h relPath) : h.Inside q :=
    safeResolve_inside (eq_of_mem_named hq)
  cases call with
  | readFile relPath => exact hnamed hq
  | writeFile uuid relPath content => exact hnamed hq
  | createDir relPath => exact hnamed hq
  | renameFile relPath newPath => exact (List.mem_append.mp hq).elim hnamed hnamed
  | deleteFile relPath => exact hnamed hq
  | loadZip data mode perFile =>
    obtain ⟨info, -, htarget⟩ := List.mem_filterMap.mp hq
    split at htarget
    · rename_i relPath p hmember
      cases htarget
      exact memberTarget_inside hmember
    · cases htarget

theorem base_of_run {call : FileCall} {w w' : World ρ} (hok : call.run h docs w = .ok () w') :
    w.disk.isDir h.base = true := by
  have hbind {α β : Type} {f : Unit → Fs ρ α} {g : α → Fs ρ β} {b : β}
      (hok : ((ensure h >>= f) >>= g) w = .ok b w') : w.disk.isDir h.base = true := by
    obtain ⟨r, u, hrun, -⟩ := bind_eq_ok.mp hok
    obtain ⟨⟨⟩, v, hens, -⟩ := bind_eq_ok.mp hrun
    exact (ensure_eq_ok hens).2
  cases call <;> exact hbind hok

/-- A machine about to serve a call. -/
def World.fresh (disk : Disk) (rest : ρ) (faults : List (Option String)) : World ρ :=
  ⟨disk, rest, [], faults⟩

/-- **Confinement, exactly.** Of a call that goes through, everything it reads or modifies
    lies inside the workspace root; and all of it is the client's own — not `workspace.json`,
    not `.git` and nothing below it — if and only if no name of the call leads there. -/
theorem confined_iff (h : Host) (docs : Docs) (call : FileCall) (disk : Disk) (rest : ρ)
    (faults : List (Option String)) (w' : World ρ)
    (hok : call.run h docs (.fresh disk rest faults) = .ok () w') :
    (∀ c ∈ w'.log, ∀ q, c.Touches q → h.Inside q) ∧
      ((∀ c ∈ w'.log, ∀ q, c.Touches q → h.Allowed q) ↔ call.Clear h disk) := by
  have hbase := base_of_run hok
  have hstart (good : Path → Prop) (metaThere : Prop) (hthere : metaThere → disk.get h.metaPath ≠ none) :
      Within h good metaThere (World.fresh disk rest faults) :=
    ⟨hbase, fun c hc => absurd hc List.not_mem_nil, hthere⟩
  have hend {I : World ρ → Prop} (hkeeps : Keeps I (call.run h docs))
      (hI : I (.fresh disk rest faults)) : I w' := by
    have := hkeeps _ hI
    rwa [after_of_ok hok] at this
  refine ⟨?_, ?_, ?_⟩
  · have hkept : Keeps (Within h h.Inside False) (call.run h docs : Fs ρ Unit) :=
      Within.kept _ _ (call.does docs)
      (fun q r hq hqr => hq.below hqr) (fun uuid q hq => hq.temp)
      (fun w hw p q _ hq hpre hne hnone =>
        inside_of_missing hw.base (inside_of_mem_names hq) hpre hne hnone)
      (fun q hq => inside_of_mem_names hq) (fun hroot => hroot.2 rfl) False.elim
    exact (hend hkept (hstart _ _ False.elim)).log
  · intro hall q hq
    obtain ⟨hq', hmeta'⟩ := call.reached hok hq
    have hallowed {r : Path} (hr : w'.Touched r) : h.Allowed r := by
      obtain ⟨c, hc, hcr⟩ := hr
      exact hall c hc r hcr
    refine ⟨(hallowed hq').2, fun hdirs hnone hmeta => ?_⟩
    exact (hallowed (hmeta' hdirs hnone hmeta)).2 (Or.inl rfl)
  · intro hclear
    have hkept : Keeps (Within h h.Allowed (disk.get h.metaPath ≠ none))
        (call.run h docs : Fs ρ Unit) :=
      Within.kept _ _ (call.does docs)
      (fun q r hq hqr => hq.below hqr) (fun uuid q hq => hq.temp)
      (fun w hw p q hdirs hq hpre hne hnone => by
        refine ⟨inside_of_missing hw.base (inside_of_mem_names hq) hpre hne hnone, ?_⟩
        rintro (rfl | hgit)
        · -- a metadata file that is missing now was missing from the start
          by_cases hthere : disk.get h.metaPath = none
          · exact (hclear q hq).2 hdirs hthere hpre
          · exact hw.metadata hthere hnone
        · exact (hclear q hq).1 (Or.inr (hgit.trans hpre)))
      (fun q hq => ⟨inside_of_mem_names hq, (hclear q hq).1⟩) (fun hroot => hroot.1.2 rfl)
      (fun _ hmeta => hmeta.2 (Or.inl rfl))
    exact (hend hkept (hstart _ _ id)).log

/-! ## A workspace with a history -/

/-- What a program that goes through has carried out. -/
def logOf (m : Fs ρ α) (w : World ρ) : Option (List Cmd) :=
  match m w with
  | .ok _ w' => some w'.log
  | .error _ _ => none

theorem exists_of_logOf {m : Fs ρ Unit} {w : World ρ} {log : List Cmd} (hlog : logOf m w = some log) :
    ∃ w', m w = .ok () w' ∧ w'.log = log := by
  unfold logOf at hlog
  cases hm : m w with
  | ok a w' => rw [hm] at hlog; exact ⟨w', rfl, Option.some.inj hlog⟩
  | error e w' => rw [hm] at hlog; cases hlog

section Demo

def demoName (t : Text) : FileName := if ht : isFileName t = true then ⟨t, ht⟩ else metaName

/-- Documents are written as they come. -/
def plainDocs : Docs where
  preserveApplications _ _ := none
  mergeYaml _ _ := none
  mergeJson _ _ := none
  refreshedMeta _ _ _ _ := none

def demoHost : Host := .plain [demoName "ws"]

def demoNodes : Nodes := .ofList
  [([demoName "ws"], .dir), (demoHost.metaPath, .file []), (demoHost.gitDir, .dir),
    (demoHost.gitDir ++ [demoName "config"], .file [])]

def demoDisk : Disk := ⟨demoNodes, by decide⟩

/-- **A client rewrites the configuration of git.** `.git` is not the last component. -/
theorem git_config_written : ¬ ∀ (call : FileCall) (w' : World Unit),
    call.run demoHost plainDocs (.fresh demoDisk () []) = .ok () w' →
      ∀ c ∈ w'.log, ∀ q, c.Touches q → demoHost.Allowed q := by
  intro hall
  let config : Path := demoHost.gitDir ++ [demoName "config"]
  let temp : Path := demoHost.gitDir ++ [tmpName (demoName "config") (demoName "u")]
  obtain ⟨w', hok, hlog⟩ : ∃ w' : World Unit,
      (FileCall.writeFile (demoName "u") ".git/config" "x").run demoHost plainDocs
          (.fresh demoDisk () []) = .ok () w' ∧
        w'.log = [.write temp (encode "x"), .rename temp config] :=
    exists_of_logOf (by decide +kernel)
  have hallowed : demoHost.Allowed config :=
    hall _ w' hok (.rename temp config) (by simp [hlog]) config (Or.inr (List.prefix_refl _))
  exact absurd hallowed (by decide)

/-- Writing a file of the client's own is confined. -/
theorem confined_write : ∃ w' : World Unit,
    (FileCall.writeFile (demoName "u") "group_vars/all.yml" "x").run demoHost plainDocs
        (.fresh demoDisk () []) = .ok () w' ∧
      ∀ c ∈ w'.log, ∀ q, c.Touches q → demoHost.Allowed q := by
  have hlog : (logOf ((FileCall.writeFile (demoName "u") "group_vars/all.yml" "x").run demoHost
      plainDocs) (World.fresh demoDisk () [])).isSome = true := by decide +kernel
  obtain ⟨log, hlog⟩ := Option.isSome_iff_exists.mp hlog
  obtain ⟨w', hok, -⟩ := exists_of_logOf hlog
  exact ⟨w', hok, (confined_iff demoHost plainDocs _ demoDisk () [] w' hok).2.mpr (by decide)⟩

end Demo

end Infinito.Workspace
