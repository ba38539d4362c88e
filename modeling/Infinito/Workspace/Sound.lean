import Infinito.Workspace.Imports

/-!
# Imports on a machine without I/O errors

An import can stop for two reasons that are not an I/O error: an entry it rejects, and an
entry that has nowhere to be written, because a file is above it or a directory is in its
place. So without I/O errors the entries alone decide: an import in override mode goes
through if and only if every entry has a target and the targets fit, on the disk and with
each other (`storeMembers_sound`), and then it puts the archive on the disk, entry by entry
(`Puts`).
-/

set_option autoImplicit false

namespace Infinito.Workspace

open Py Lib

variable {ρ : Type} {w w' : World ρ}

theorem exec_sound {c : Cmd} (hf : w.faults = []) (hc : c.refused w.disk.nodes = none) :
    exec c w = .ok () (w.did c hc) := by
  have htrouble : w.trouble c = none := by
    unfold World.trouble
    rw [hf, hc]
    rfl
  rcases exec_cases c w with ⟨text, hsome, -⟩ | ⟨h, hexec⟩
  · rw [htrouble] at hsome
    cases hsome
  · exact hexec

theorem faults_did {c : Cmd} (hf : w.faults = []) (hc : c.refused w.disk.nodes = none) :
    (w.did c hc).faults = [] := by
  show w.faults.tail = []
  rw [hf]
  rfl

/-- Directories are made down to a path that no file is above. -/
theorem mkdirUp_sound (rev : List FileName) (hf : w.faults = [])
    (hfile : ∀ q, q <+: rev.reverse → q ≠ [] → ∀ b, w.disk.get q ≠ some (.file b)) :
    ∃ w', mkdirUp rev w = .ok () w' ∧ w'.faults = [] ∧ ∀ r, w'.disk.get r =
      if r <+: rev.reverse ∧ r ≠ [] ∧ w.disk.get r = none then some .dir else w.disk.get r := by
  induction rev with
  | nil =>
    refine ⟨w, rfl, hf, fun r => ?_⟩
    rw [if_neg]
    rintro ⟨hpre, hne, -⟩
    exact hne (List.prefix_nil.mp hpre)
  | cons n up ih =>
    have hcons : (n :: up).reverse = up.reverse ++ [n] := List.reverse_cons
    have hlook : look (n :: up).reverse w = .ok (w.disk.get (n :: up).reverse) w := rfl
    cases hget : w.disk.get (n :: up).reverse with
    | some node =>
      cases node with
      | file b => exact absurd hget (hfile _ (List.prefix_refl _) (by simp) b)
      | dir =>
        -- the walk stops at a directory, and all above it are directories already
        refine ⟨w, ?_, hf, fun r => ?_⟩
        · unfold mkdirUp
          rw [bind_of_ok hlook, hget]
          rfl
        · rw [if_neg]
          rintro ⟨hpre, hne, hnone⟩
          have hdir := Disk.isDir_of_prefix (Nodes.isDir_iff.mpr (Or.inr hget)) hpre
          rcases Nodes.isDir_iff.mp hdir with hnil | hsome
          · exact hne hnil
          · exact absurd (hnone.symm.trans hsome) nofun
    | none =>
      -- the parents are made first, and the last name below them
      obtain ⟨v, hv, hvf, hvget⟩ := ih fun q hq => hfile q (by
        rw [hcons]
        exact hq.trans (List.prefix_append _ _))
      have hself : v.disk.get (n :: up).reverse = none := by
        rw [hvget, if_neg, hget]
        rintro ⟨hpre, -, -⟩
        have hlen := hpre.length_le
        simp only [List.length_reverse, List.length_cons] at hlen
        omega
      have hparent : v.disk.isDir (n :: up).reverse.dropLast = true := by
        rw [hcons, List.dropLast_concat]
        exact isDir_of_mkdirUp hv
      have hc : (Cmd.mkdir (n :: up).reverse).refused v.disk.nodes = none := by
        have hnone : v.disk.nodes.get (n :: up).reverse = none := hself
        have hdir : v.disk.nodes.isDir (n :: up).reverse.dropLast = true := hparent
        simp only [Cmd.refused, hnone, hdir, Option.isSome_none, Bool.false_eq_true, if_false, if_true]
      refine ⟨v.did _ hc, ?_, faults_did hvf hc, fun r => ?_⟩
      · unfold mkdirUp
        rw [bind_of_ok hlook, hget]
        dsimp only
        rw [bind_of_ok hv, exec_sound hvf hc]
      · show (v.disk.nodes.set _ _).get r = _
        rw [FinMap.get_set, hcons]
        by_cases hr : r = up.reverse ++ [n]
        · rw [if_pos hr, hr, if_pos]
          exact ⟨List.prefix_refl _, by simp, by rw [← hcons]; exact hget⟩
        · rw [if_neg hr]
          refine (hvget r).trans ?_
          simp only [List.prefix_concat_iff, hr, false_or]

/-- Where a file can be written: below no file, and not where a directory is. -/
def Writable (d : Disk) (q : Path) : Prop :=
  (∀ r, r <+: q → r ≠ [] → r ≠ q → ∀ b, d.get r ≠ some (.file b)) ∧ d.isDir q = false

/-- The disk with a file put at `q`, and directories above it. -/
def Put (d : Disk) (q : Path) (b : Bytes) (d' : Disk) : Prop :=
  ∀ r, d'.get r = if r = q then some (.file b)
    else if r <+: q ∧ r ≠ [] ∧ d.get r = none then some .dir else d.get r

/-- Once a file is at `q`, what lies above or below `q` cannot be written any more. -/
theorem writable_put {d d' : Disk} {q t : Path} {b : Bytes} (hput : Put d q b d')
    (hq : Writable d q) :
    Writable d' t ↔ Writable d t ∧ (t <+: q → t = q) ∧ (q <+: t → q = t) := by
  have hqne : q ≠ [] := by
    rintro rfl
    exact absurd hq.2 (by simp [Disk.isDir, Nodes.isDir])
  have hdir {e : Disk} {r : Path} (he : e.isDir r = false) (hne : e.get r = some .dir) : False := by
    rw [show e.isDir r = true from Nodes.isDir_iff.mpr (Or.inr hne)] at he
    cases he
  have hroot {e : Disk} (he : e.isDir [] = false) : False := by
    simp [Disk.isDir, Nodes.isDir] at he
  constructor
  · rintro ⟨hfiles, hnot⟩
    have htne : t ≠ [] := by
      rintro rfl
      exact hroot hnot
    -- a path above the file has become a directory, one below has the file above it
    refine ⟨⟨fun r hr hne hrt c hc => ?_, ?_⟩, fun htq => ?_, fun hqt => ?_⟩
    · by_cases hrq : r = q
      · exact hfiles r hr hne hrt b (by rw [hput, if_pos hrq])
      · refine hfiles r hr hne hrt c ?_
        rw [hput, if_neg hrq, if_neg (by simp [hc]), hc]
    · rw [Bool.eq_false_iff]
      intro htdir
      rcases Nodes.isDir_iff.mp htdir with hnil | hget
      · exact htne hnil
      · have hget : d.get t = some .dir := hget
        refine hdir hnot ?_
        rw [hput, if_neg, if_neg (by simp [hget]), hget]
        rintro rfl
        exact hdir hq.2 hget
    · by_contra htq'
      refine hdir hnot ?_
      rw [hput, if_neg htq']
      cases hget : d.get t with
      | none => rw [if_pos ⟨htq, htne, rfl⟩]
      | some node =>
        cases node with
        | dir => rw [if_neg (by simp)]
        | file c => exact absurd hget (hq.1 t htq htne htq' c)
    · by_contra hqt'
      exact hfiles q hqt hqne hqt' b (by rw [hput, if_pos rfl])
  · rintro ⟨⟨hfiles, hnot⟩, habove, hbelow⟩
    refine ⟨fun r hr hne hrt c hc => ?_, ?_⟩
    · rw [hput] at hc
      split at hc
      · rename_i hrq
        subst hrq
        exact hrt (hbelow hr)
      · split at hc
        · cases hc
        · exact hfiles r hr hne hrt c hc
    · rw [Bool.eq_false_iff]
      intro htdir
      rcases Nodes.isDir_iff.mp htdir with hnil | hget
      · rw [hnil] at hnot
        exact hroot hnot
      · rw [show d'.nodes.get t = _ from hput t] at hget
        split at hget
        · cases hget
        · rename_i htq
          split at hget
          · rename_i hpre
            exact htq (habove hpre.1)
          · exact hdir hnot hget

variable {h : Host} {docs : Docs} {info : ZipInfo} {infos : List ZipInfo}

/-- A read of what may be there never fails, and changes nothing. -/
theorem existingBytes_sound (q : Path) (hf : w.faults = []) :
    ∃ found u, existingBytes q w = .ok found u ∧ u.disk = w.disk ∧ u.faults = [] := by
  have hisFile : isFile q w = .ok (w.disk.fileAt q).isSome w := rfl
  unfold existingBytes
  rw [bind_of_ok hisFile]
  cases hfile : w.disk.fileAt q with
  | none => exact ⟨none, w, rfl, rfl, hf⟩
  | some b =>
    have hget : w.disk.nodes.get q = some (.file b) := Nodes.fileAt_eq_some.mp hfile
    have hc : (Cmd.read q).refused w.disk.nodes = none := by
      simp only [Cmd.refused, hget]
    have hread : readBytes q w = .ok b (w.did (.read q) hc) := by
      refine (bind_of_ok (exec_sound hf hc) _).trans ?_
      show EStateM.Result.ok ((w.disk.fileAt q).getD []) _ = _
      rw [hfile]
      rfl
    refine ⟨some b, w.did (.read q) hc, ?_, Disk.ext fun _ => rfl, faults_did hf hc⟩
    simp only [Option.isSome_some, if_true]
    rw [tryCatch_apply, bind_of_ok hread]
    rfl

theorem override_write {m : FoundMember} :
    m.write docs .override [] = some (m.resolved, m.incoming) := by
  unfold FoundMember.write FoundMember.payload
  rfl

theorem write_allowed {d : Nodes} {q : Path} {b : Bytes} (hdir : d.isDir q.dropLast = true)
    (hnot : d.isDir q = false) : (Cmd.write q b).refused d = none := by
  simp only [Cmd.refused, hdir, hnot, Bool.false_eq_true, if_false, if_true]

/-- The write of an entry, where its directory is. -/
theorem extract_sound {q : Path} {b : Bytes} (hf : w.faults = [])
    (hdir : w.disk.isDir q.dropLast = true) (hnot : w.disk.isDir q = false) :
    ∃ w', extract q b w = .ok () w' ∧ w'.faults = [] ∧
      ∀ r, w'.disk.get r = if r = q then some (.file b) else w.disk.get r := by
  have hc : (Cmd.write q []).refused w.disk.nodes = none := write_allowed hdir hnot
  have hget {x : World ρ} {b : Bytes} (hx : (Cmd.write q b).refused x.disk.nodes = none) (r : Path) :
      (x.did _ hx).disk.get r = if r = q then some (.file b) else x.disk.get r := rfl
  have hnot' : (w.did _ hc).disk.nodes.isDir q = false := by
    rw [Bool.eq_false_iff]
    intro hqdir
    rcases Nodes.isDir_iff.mp hqdir with rfl | hq
    · cases hnot
    · rw [show (w.did _ hc).disk.nodes.get q = _ from hget hc q, if_pos rfl] at hq
      cases hq
  have hdir' : (w.did _ hc).disk.nodes.isDir q.dropLast = true := by
    rcases Nodes.isDir_iff.mp hdir with hnil | hq
    · exact Nodes.isDir_iff.mpr (Or.inl hnil)
    · refine Nodes.isDir_iff.mpr (Or.inr ((hget hc q.dropLast).trans ?_))
      rw [if_neg, show w.disk.get q.dropLast = _ from hq]
      intro heq
      rw [show w.disk.isDir q = _ from congrArg w.disk.isDir heq.symm, hdir] at hnot
      cases hnot
  have hc' := write_allowed (b := b) hdir' hnot'
  refine ⟨(w.did _ hc).did _ hc', ?_, faults_did (faults_did hf hc) hc', fun r => ?_⟩
  · unfold extract orFail
    rw [tryCatch_apply, bind_of_ok (exec_sound hf hc), exec_sound (faults_did hf hc) hc']
  · rw [hget hc', hget hc]
    split <;> rfl

/-- An entry that can be written is. -/
theorem storeMember_sound {relPath : Text} {q : Path} {b : Bytes} (hf : w.faults = [])
    (htarget : memberTarget h info = .ok (some (relPath, q))) (hcontent : info.content = .ok b)
    (hwritable : Writable w.disk q) :
    ∃ w', storeMember h docs .override [] info w = .ok () w' ∧ w'.faults = [] ∧
      Put w.disk q b w'.disk := by
  have hqne : q ≠ [] := by
    rintro rfl
    exact absurd hwritable.2 (by simp [Disk.isDir, Nodes.isDir])
  have hstrict : ∀ r, r <+: q.dropLast ↔ r <+: q ∧ r ≠ q := by
    refine fun r => ⟨fun hr => ⟨prefix_of_prefix_dropLast hr, ?_⟩, fun hr => prefix_dropLast hr.1 hr.2⟩
    rintro rfl
    have hlen := hr.length_le
    have hpos := List.length_pos_iff.mpr hqne
    rw [List.length_dropLast] at hlen
    omega
  obtain ⟨u, hmk, huf, hu⟩ : ∃ u, safeMkdir q.dropLast w = .ok () u ∧ u.faults = [] ∧
      ∀ r, u.disk.get r = if r <+: q.dropLast ∧ r ≠ [] ∧ w.disk.get r = none then some .dir
        else w.disk.get r := by
    have := mkdirUp_sound q.dropLast.reverse hf (by
      intro r hr hne
      rw [List.reverse_reverse, hstrict] at hr
      exact hwritable.1 r hr.1 hne hr.2)
    rwa [List.reverse_reverse] at this
  obtain ⟨found, v, hexisting, hvdisk, hvf⟩ := existingBytes_sound q huf
  -- making the parent leaves the target itself alone
  have hself : u.disk.get q = w.disk.get q := by
    rw [hu, if_neg]
    rintro ⟨hpre, -⟩
    exact ((hstrict q).mp hpre).2 rfl
  have hnot : v.disk.isDir q = false := by
    rw [hvdisk, Bool.eq_false_iff]
    intro hqdir
    rcases Nodes.isDir_iff.mp hqdir with hnil | hget
    · exact hqne hnil
    · have hwdir : w.disk.isDir q = true := Nodes.isDir_iff.mpr (Or.inr (hself.symm.trans hget))
      rw [hwritable.2] at hwdir
      cases hwdir
  obtain ⟨x, hextract, hxf, hx⟩ := extract_sound (b := b) hvf (by
    rw [hvdisk]
    exact isDir_of_safeMkdir hmk) hnot
  refine ⟨x, ?_, hxf, fun r => ?_⟩
  · have htargets : orRaise (memberTarget h info) w = .ok (some (relPath, q)) w := by
      rw [htarget]
      rfl
    have hcontents : orFail "failed to extract zip" (orRaise (info.content.mapError .raised)) u =
        .ok b u := by
      rw [hcontent]
      rfl
    have hfound : findMember h info w = .ok (some ⟨relPath, q, b, found⟩) v := by
      unfold findMember
      rw [bind_of_ok htargets]
      dsimp only
      rw [bind_of_ok hmk, bind_of_ok hcontents, bind_of_ok hexisting]
      rfl
    unfold storeMember
    rw [bind_of_ok hfound, Option.bind_some, override_write]
    exact hextract
  · rw [hx, hvdisk]
    by_cases hr : r = q
    · rw [if_pos hr, if_pos hr]
    · rw [if_neg hr, if_neg hr, hu]
      simp only [hstrict, hr, ne_eq, not_false_eq_true, and_true]

/-- Nothing quiet takes away what is there. -/
theorem Does.keeps_node {α : Type} {m : Fs ρ α} (hm : Does Quiet m) {p : Path} {node : Node}
    (hp : w.disk.get p = some node) : (after m w).disk.get p = some node := by
  refine hm.keeps (I := fun v => v.disk.get p = some node) (fun v c hc hv hquiet => ?_)
    (fun v hv => hv) w hp
  cases hquiet with
  | read => exact hv
  | mkdir hnone =>
    rename_i q
    show (v.disk.nodes.set q .dir).get p = _
    rw [FinMap.get_set, if_neg]
    · exact hv
    · rintro rfl
      rw [hv] at hnone
      cases hnone

/-- An entry that went through could be written. -/
theorem writable_of_store {relPath : Text} {q : Path}
    (htarget : memberTarget h info = .ok (some (relPath, q)))
    (hok : storeMember h docs .override [] info w = .ok () w') : Writable w.disk q := by
  obtain ⟨found, v, hfound, hstore⟩ := bind_eq_ok.mp hok
  have hquiet : Does Quiet (findMember h info : Fs ρ (Option FoundMember)) := findMember_does
  have hnode {p : Path} {node : Node} (hp : w.disk.get p = some node) :
      v.disk.get p = some node := by
    rw [← after_of_ok hfound]
    exact hquiet.keeps_node hp
  obtain ⟨target, w₁, htargets, hrest⟩ := bind_eq_ok.mp hfound
  obtain ⟨hmember, rfl⟩ := orRaise_eq_ok htargets
  cases hmember.symm.trans htarget
  obtain ⟨⟨⟩, w₂, hmk, hrest⟩ := bind_eq_ok.mp hrest
  obtain ⟨incoming, w₃, -, hrest⟩ := bind_eq_ok.mp hrest
  obtain ⟨existing, w₄, -, hrest⟩ := bind_eq_ok.mp hrest
  cases hrest
  rw [Option.bind_some, override_write] at hstore
  obtain ⟨⟨⟩, x, hopen, -⟩ := bind_eq_ok.mp (orFail_eq_ok hstore)
  obtain ⟨hc, -⟩ := exec_eq_ok hopen
  obtain ⟨hnot, hdir⟩ := Cmd.write_refused hc
  refine ⟨fun r hr hne hrq b hb => ?_, ?_⟩
  · have hrdir := Disk.isDir_of_prefix (d := v.disk) hdir (prefix_dropLast hr hrq)
    rcases Nodes.isDir_iff.mp hrdir with hnil | hget
    · exact hne hnil
    · cases (hnode hb).symm.trans hget
  · rw [Bool.eq_false_iff]
    intro hqdir
    have hqdir' : v.disk.nodes.isDir q = true := by
      rcases Nodes.isDir_iff.mp hqdir with hnil | hget
      · exact Nodes.isDir_iff.mpr (Or.inl hnil)
      · exact Nodes.isDir_iff.mpr (Or.inr (hnode hget))
    rw [hnot] at hqdir'
    cases hqdir'

/-- Paths that files can be put at, one after the other. -/
def Fits (d : Disk) (ts : List Path) : Prop :=
  (∀ t ∈ ts, Writable d t) ∧ ts.Pairwise fun t u => (u <+: t → u = t) ∧ (t <+: u → t = u)

theorem fits_nil (d : Disk) : Fits d [] :=
  ⟨fun _ h => absurd h List.not_mem_nil, List.Pairwise.nil⟩

theorem fits_cons {d d' : Disk} {q : Path} {b : Bytes} {ts : List Path} (hq : Writable d q)
    (hput : Put d q b d') : Fits d (q :: ts) ↔ Fits d' ts := by
  unfold Fits
  rw [List.pairwise_cons]
  constructor
  · rintro ⟨hall, hfirst, hrest⟩
    refine ⟨fun t ht => ?_, hrest⟩
    exact (writable_put hput hq).mpr ⟨hall t (List.mem_cons_of_mem _ ht), hfirst t ht⟩
  · rintro ⟨hall, hrest⟩
    have hwritable := fun t ht => (writable_put hput hq).mp (hall t ht)
    refine ⟨fun t ht => ?_, fun t ht => (hwritable t ht).2, hrest⟩
    rcases List.mem_cons.mp ht with rfl | ht
    · exact hq
    · exact (hwritable t ht).1

/-- The writes of entries that are all to override, by what is in the archive alone. -/
def archiveWrites (h : Host) (infos : List ZipInfo) : List (Path × Bytes) :=
  infos.filterMap fun info => match memberTarget h info, info.content with
    | .ok (some (_, q)), .ok b => some (q, b)
    | _, _ => none

theorem fileAt_of_put {d d' : Disk} {q : Path} {b : Bytes} (hput : Put d q b d') (p : Path) :
    d'.fileAt p = if p = q then some b else d.fileAt p := by
  have hget : d'.nodes.get p = _ := hput p
  show d'.nodes.fileAt p = if p = q then some b else d.nodes.fileAt p
  unfold Nodes.fileAt
  rw [hget]
  by_cases hp : p = q
  · rw [if_pos hp, if_pos hp]
  · rw [if_neg hp, if_neg hp]
    split
    · rename_i hnone
      split at hnone
      · cases hnone
      · rw [show d.nodes.get p = _ from hnone]
    · rename_i hnot
      split at hnot
      · rename_i hmade
        rw [show d.nodes.get p = none from hmade.2.2]
      · split
        · rename_i content hfile
          exact absurd hfile (hnot content)
        · rfl

/-- Files put on a disk one after the other, each where it can be. -/
inductive Puts : Disk → List (Path × Bytes) → Disk → Prop
  | nil {d : Disk} : Puts d [] d
  | cons {d d' d'' : Disk} {q : Path} {b : Bytes} {writes : List (Path × Bytes)} :
      Writable d q → Put d q b d' → Puts d' writes d'' → Puts d ((q, b) :: writes) d''

namespace Puts

variable {d d' : Disk} {writes : List (Path × Bytes)} {p : Path}

theorem fileAt (hputs : Puts d writes d') (p : Path) :
    d'.fileAt p = (lastWrite writes p).or (d.fileAt p) := by
  induction hputs with
  | nil => rfl
  | @cons d _ _ q b writes hwritable hput _ ih =>
    rw [ih, fileAt_of_put hput, show (q, b) :: writes = [(q, b)] ++ writes from rfl,
      lastWrite_append, lastWrite_singleton, Option.or_assoc]
    split <;> rfl

theorem get_of_not_above (hputs : Puts d writes d') (hp : ∀ x ∈ writes, ¬ p <+: x.1) :
    d'.get p = d.get p := by
  induction hputs with
  | nil => rfl
  | @cons d _ _ q b writes hwritable hput _ ih =>
    obtain ⟨hq, hwrites⟩ := List.forall_mem_cons.mp hp
    rw [ih hwrites, hput, if_neg, if_neg fun h => hq h.1]
    rintro rfl
    exact hq (List.prefix_refl _)

/-- Directories stay. -/
theorem isDir (hputs : Puts d writes d') (hp : d.isDir p = true) : d'.isDir p = true := by
  induction hputs with
  | nil => exact hp
  | @cons d d₁ _ q b writes hwritable hput _ ih =>
    refine ih ?_
    rcases Nodes.isDir_iff.mp hp with hnil | hget
    · exact Nodes.isDir_iff.mpr (Or.inl hnil)
    · have hget : d.get p = some .dir := hget
      refine Nodes.isDir_iff.mpr (Or.inr ((hput p).trans ?_))
      rw [if_neg, if_neg (by simp [hget]), hget]
      rintro rfl
      have hnot := hwritable.2
      rw [hp] at hnot
      cases hnot

end Puts

/-- **A run of entries goes through where they fit**, and puts there what the archive has. -/
theorem storeMembers_sound (h : Host) (docs : Docs) (hf : w.faults = [])
    (hcontent : ∀ info ∈ infos, ∃ b, info.content = .ok b) :
    ((∃ w', storeMembers h docs .override [] infos w = .ok () w') ↔
      (∀ info ∈ infos, ∃ target, memberTarget h info = .ok target) ∧
        Fits w.disk ((archiveWrites h infos).map (·.1))) ∧
    ∀ w', storeMembers h docs .override [] infos w = .ok () w' →
      w'.faults = [] ∧ Puts w.disk (archiveWrites h infos) w'.disk := by
  induction infos generalizing w with
  | nil =>
    refine ⟨iff_of_true ⟨w, rfl⟩ ⟨fun _ h => absurd h List.not_mem_nil, fits_nil w.disk⟩, ?_⟩
    intro w' hok
    cases hok
    exact ⟨hf, .nil⟩
  | cons info infos ih =>
    have hrestcontent := fun i hi => hcontent i (List.mem_cons_of_mem info hi)
    obtain ⟨b, hb⟩ := hcontent info List.mem_cons_self
    rw [List.forall_mem_cons]
    cases htarget : memberTarget h info with
    | error e =>
      -- a name that is refused ends the import
      have hraise : storeMember h docs .override [] info w = .error e w := by
        unfold storeMember findMember
        rw [htarget]
        rfl
      have hnever : ∀ w', storeMembers h docs .override [] (info :: infos) w ≠ .ok () w' := by
        intro w' hok
        rw [storeMembers, bind_of_error hraise] at hok
        cases hok
      refine ⟨iff_of_false (not_exists.mpr hnever) ?_, fun w' hok => absurd hok (hnever w')⟩
      rintro ⟨⟨⟨target, htarget⟩, -⟩, -⟩
      cases htarget
    | ok target =>
      cases target with
      | none =>
        -- an entry that is passed over changes nothing
        have hskip : storeMember h docs .override [] info w = .ok () w := by
          unfold storeMember findMember
          rw [htarget]
          rfl
        have hwrites : archiveWrites h (info :: infos) = archiveWrites h infos := by
          simp [archiveWrites, htarget]
        rw [storeMembers, bind_of_ok hskip, hwrites]
        obtain ⟨hiff, hfiles⟩ := ih hf hrestcontent
        refine ⟨hiff.trans (and_congr_left fun _ => ?_), hfiles⟩
        exact ⟨fun hall => ⟨⟨none, rfl⟩, hall⟩, And.right⟩
      | some member =>
        obtain ⟨relPath, q⟩ := member
        have hwrites : archiveWrites h (info :: infos) = (q, b) :: archiveWrites h infos := by
          simp [archiveWrites, htarget, hb]
        rw [hwrites, List.map_cons]
        by_cases hwritable : Writable w.disk q
        · obtain ⟨v, hstore, hvf, hput⟩ := storeMember_sound hf htarget hb hwritable
          rw [storeMembers, bind_of_ok hstore]
          obtain ⟨hiff, hfiles⟩ := ih hvf hrestcontent
          refine ⟨hiff.trans ?_, fun w' hok => ?_⟩
          · rw [fits_cons hwritable hput]
            refine and_congr_left fun _ => ?_
            exact ⟨fun hall => ⟨⟨_, rfl⟩, hall⟩, And.right⟩
          · exact (hfiles w' hok).imp id fun hputs => .cons hwritable hput hputs
        · -- a path that cannot be written stops the run, whatever comes after it
          have hnever : ∀ w', storeMembers h docs .override [] (info :: infos) w ≠ .ok () w' := by
            intro w' hok
            rw [storeMembers] at hok
            obtain ⟨⟨⟩, v, hfirst, -⟩ := bind_eq_ok.mp hok
            exact hwritable (writable_of_store htarget hfirst)
          refine ⟨iff_of_false (not_exists.mpr hnever) ?_, fun w' hok => absurd hok (hnever w')⟩
          rintro ⟨-, hfits⟩
          exact absurd (hfits.1 q List.mem_cons_self) hwritable

end Infinito.Workspace
