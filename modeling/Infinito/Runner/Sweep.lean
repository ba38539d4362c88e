import Infinito.Lib.FinMap
import Infinito.Lib.Run
import Infinito.Runner.Start

/-!
# The orphan sweep

`sweep_orphans` reads the record of every job, one after the other, and keeps the active
ones; then it lists the runner containers, the networks, the sidecars and the secret
volumes, and removes those that belong to none of the jobs it has kept. All the while the
API and the manager write job records, and docker changes.

What is the service's is told by a mark: a container by its role label, or by the name of
a sidecar, a network and a volume by the prefix of their names. Whoever else uses such a
name loses what bears it (`sweep_removes_others`). Which jobs are active is told by the
records as they were read. What is safe about the sweep, `sweep_safe`, is for the runs in
which no job becomes active once the sweep is past it.

Labels are a function of the container's name: a container keeps its labels, and no name is
used again for one with others.
-/

set_option autoImplicit false

namespace Infinito.Runner

open Py Lib

/-- The labels of a container that the sweep looks at. -/
structure Labels where
  role : Option Text
  jobId : Option Text

def sidecarPrefix : Text := "ssh-egress-"

/-- What is kept of an active job. -/
structure ActiveJob where
  jobId : Name
  networkName : Name
  secretVolumeName : Name

/-- Where the sweep is. A condemned container has been inspected, and is removed next; a
    condemned job has been loaded, and its directory is removed next. -/
inductive Phase where
  | idle
  | reading (todo : List Name)
  | containers (todo : List Name) (condemned : Option Name)
  | networks (todo : List Name)
  | sidecars (todo : List Name)
  | volumes (todo : List Name)
  | dirs (todo : List Name) (condemned : Option Name)

structure Service where
  jobs : FinMap Name JobMeta
  docker : Docker
  active : List ActiveJob
  phase : Phase

namespace Service

variable (labels : Name → Labels)

def sorted (s : Finset Name) : List Name := sortedBy Subtype.val name_injective s

theorem mem_sorted {s : Finset Name} {n : Name} : n ∈ sorted s ↔ n ∈ s := mem_sortedBy

/-- One iteration of `_active_jobs`. -/
def readJob (s : Service) (jobId : Name) : List ActiveJob :=
  let r := (s.jobs.get jobId).getD .empty
  if r.isActive then
    s.active ++ [⟨jobId, r.networkName.getD (jobNetwork jobId),
      r.secretVolumeName.getD (secretVolumeName jobId)⟩]
  else s.active

/-- `_list_runner_container_names` -/
def listRunnerContainers (d : Docker) : List Name :=
  sorted (d.containers.filter fun c => (labels c).role = some "job-runner".toList)

/-- `_list_job_network_names` -/
def listJobNetworks (d : Docker) : List Name :=
  sorted (d.networks.filter fun n => jobNetworkPrefix <+: n.val)

/-- `_list_ssh_egress_sidecars` -/
def listSidecars (d : Docker) : List Name :=
  sorted (d.containers.filter fun c => sidecarPrefix <+: c.val)

/-- `_list_secret_volume_names` -/
def listSecretVolumes (d : Docker) : List Name :=
  sorted (d.volumes.filter fun v => secretVolumePrefix <+: v.val)

/-- The job a container says it is of; `inspect_container_labels` has none if it fails. -/
def labelledJob (inspected : Bool) (c : Name) : Text :=
  if inspected then strip ((labels c).jobId.getD []) else []

def sidecarJob (c : Name) : Text := strip (c.val.drop sidecarPrefix.length)

def activeIds (s : Service) : List Text := s.active.map (·.jobId.val)

/-- The next step of the sweep: `inspected` is whether an inspection succeeds, and `old`
    whether a finished job is past its retention. -/
def sweep (inspected old : Bool) (s : Service) : Service :=
  match s.phase with
  | .idle => { s with active := [], phase := .reading (sorted s.jobs.keys) }
  | .reading [] => { s with phase := .containers (listRunnerContainers labels s.docker) none }
  | .reading (j :: js) => { s with active := s.readJob j, phase := .reading js }
  | .containers todo (some c) =>
      { s with docker := s.docker.removeContainer c, phase := .containers todo none }
  | .containers [] none => { s with phase := .networks (listJobNetworks s.docker) }
  | .containers (c :: cs) none =>
      if labelledJob labels inspected c ∈ s.activeIds then { s with phase := .containers cs none }
      else { s with phase := .containers cs (some c) }
  | .networks [] => { s with phase := .sidecars (listSidecars s.docker) }
  | .networks (n :: ns) =>
      if n ∈ s.active.map (·.networkName) then { s with phase := .networks ns }
      else { s with docker := s.docker.removeNetwork n, phase := .networks ns }
  | .sidecars [] => { s with phase := .volumes (listSecretVolumes s.docker) }
  | .sidecars (c :: cs) =>
      if sidecarJob c ∈ s.activeIds then { s with phase := .sidecars cs }
      else { s with docker := s.docker.removeContainer c, phase := .sidecars cs }
  | .volumes [] => { s with phase := .dirs (sorted s.jobs.keys) none }
  | .volumes (v :: vs) =>
      if v ∈ s.active.map (·.secretVolumeName) then { s with phase := .volumes vs }
      else { s with docker := s.docker.removeVolume v, phase := .volumes vs }
  | .dirs todo (some j) =>
      { s with jobs := s.jobs.restrict (fun k => k ≠ j), phase := .dirs todo none }
  | .dirs [] none => { s with phase := .idle }
  | .dirs (j :: js) none =>
      if j.val ∈ s.activeIds then { s with phase := .dirs js none }
      else if ((s.jobs.get j).bind (·.status)).any JobStatus.terminal && old then
        { s with phase := .dirs js (some j) }
      else { s with phase := .dirs js none }

/-- What the API and the manager write about a job names its own network and volume. -/
def OwnNames (jobId : Name) (r : JobMeta) : Prop :=
  r.networkName.getD (jobNetwork jobId) = jobNetwork jobId ∧
    r.secretVolumeName.getD (secretVolumeName jobId) = secretVolumeName jobId

instance (jobId : Name) (r : JobMeta) : Decidable (OwnNames jobId r) :=
  inferInstanceAs (Decidable (_ ∧ _))

inductive Act where
  /-- a job record is created or written -/
  | write (jobId : Name) (record : JobMeta)
  /-- docker changes, by a start, an end, or someone else -/
  | docker (d : Docker)
  | sweep (inspected old : Bool)

def step (s : Service) : Act → Option Service
  | .write jobId record =>
      if OwnNames jobId record then some { s with jobs := s.jobs.set jobId record } else none
  | .docker d => some { s with docker := d }
  | .sweep inspected old => some (sweep labels inspected old s)

/-! ## Safety -/

def ActiveNow (s : Service) (jobId : Name) : Prop :=
  ∃ r, s.jobs.get jobId = some r ∧ r.isActive = true

/-- What a step removes bears the service's mark, and is of no job active at that moment. -/
structure Safe (s t : Service) : Prop where
  containers : ∀ c ∈ s.docker.containers, c ∉ t.docker.containers →
    ((labels c).role = some "job-runner".toList ∧
      ∀ j, ActiveNow s j → strip ((labels c).jobId.getD []) ≠ j.val) ∨
    (sidecarPrefix <+: c.val ∧ ∀ j, ActiveNow s j → c.val ≠ sidecarPrefix ++ j.val)
  networks : ∀ n ∈ s.docker.networks, n ∉ t.docker.networks →
    jobNetworkPrefix <+: n.val ∧ ∀ j, ActiveNow s j → n ≠ jobNetwork j
  volumes : ∀ v ∈ s.docker.volumes, v ∉ t.docker.volumes →
    secretVolumePrefix <+: v.val ∧ ∀ j, ActiveNow s j → v ≠ secretVolumeName j
  dirs : ∀ j, ActiveNow s j → (t.jobs.get j).isSome = true

/-- No job becomes active once the sweep has read it, or has begun without it, and no
    container of an active job fails to be inspected. -/
def Settled (s : Service) : Act → Prop
  | .write jobId record => record.isActive = true →
      ActiveNow s jobId ∨ s.phase = .idle ∨ ∃ todo, s.phase = .reading todo ∧ jobId ∈ todo
  | .docker _ => True
  | .sweep inspected _ => ∀ c cs, s.phase = .containers (c :: cs) none → inspected = true ∨
      ∀ j, ActiveNow s j → strip ((labels c).jobId.getD []) ≠ j.val

/-! ## What the sweep knows -/

/-- What is listed bears its mark, and what is condemned is of no active job. -/
def Listed (activeNow : Name → Prop) : Phase → Prop
  | .idle => True
  | .reading _ => True
  | .containers todo condemned =>
      (∀ c ∈ todo, (labels c).role = some "job-runner".toList) ∧
      ∀ c, condemned = some c → (labels c).role = some "job-runner".toList ∧
        ∀ j, activeNow j → strip ((labels c).jobId.getD []) ≠ j.val
  | .networks todo => ∀ n ∈ todo, jobNetworkPrefix <+: n.val
  | .sidecars todo => ∀ c ∈ todo, sidecarPrefix <+: c.val
  | .volumes todo => ∀ v ∈ todo, secretVolumePrefix <+: v.val
  | .dirs _ condemned => ∀ j, condemned = some j → ¬ activeNow j

/-- What an active job is kept as. -/
def kept (jobId : Name) : ActiveJob := ⟨jobId, jobNetwork jobId, secretVolumeName jobId⟩

structure Invariant (s : Service) : Prop where
  own : ∀ j r, s.jobs.get j = some r → OwnNames j r
  covered : ∀ j, ActiveNow s j → s.phase = .idle ∨
    (∃ todo, s.phase = .reading todo ∧ j ∈ todo) ∨ kept j ∈ s.active
  listed : Listed labels (ActiveNow s) s.phase

variable {labels} {s t : Service}

theorem Listed.mono {activeNow activeNow' : Name → Prop} {phase : Phase}
    (h : Listed labels activeNow phase) (himp : ∀ j, activeNow' j → activeNow j) :
    Listed labels activeNow' phase := by
  cases phase with
  | containers todo condemned =>
    exact ⟨h.1, fun c hc => ⟨(h.2 c hc).1, fun j hj => (h.2 c hc).2 j (himp j hj)⟩⟩
  | dirs todo condemned => exact fun j hj hactive => h j hj (himp j hactive)
  | idle | reading | networks | sidecars | volumes => exact h

/-- A job active after a write was so before, or the sweep has still to read it. -/
theorem activeNow_write {jobId : Name} {record : JobMeta}
    (hok : Settled labels s (.write jobId record)) {j : Name}
    (h : ActiveNow { s with jobs := s.jobs.set jobId record } j) :
    ActiveNow s j ∨ s.phase = .idle ∨ ∃ todo, s.phase = .reading todo ∧ j ∈ todo := by
  obtain ⟨r, hr, hactive⟩ := h
  change (s.jobs.set jobId record).get j = some r at hr
  rw [FinMap.get_set] at hr
  split at hr
  · rename_i hj
    cases hr
    rw [hj]
    exact hok hactive
  · exact Or.inl ⟨r, hr, hactive⟩

theorem inv_write {jobId : Name} {record : JobMeta} (hs : Invariant labels s)
    (hown : OwnNames jobId record) (hok : Settled labels s (.write jobId record)) :
    Invariant labels { s with jobs := s.jobs.set jobId record } where
  own j r hr := by
    change (s.jobs.set jobId record).get j = some r at hr
    rw [FinMap.get_set] at hr
    split at hr
    · rename_i hj
      cases hr
      rw [hj]
      exact hown
    · exact hs.own j r hr
  covered j hj := by
    rcases activeNow_write hok hj with hj | hidle | hreading
    · exact hs.covered j hj
    · exact Or.inl hidle
    · exact Or.inr (Or.inl hreading)
  listed := by
    have hlisted := hs.listed
    have himp := fun j => activeNow_write (j := j) hok
    dsimp only
    cases hphase : s.phase with
    | idle => trivial
    | reading todo => trivial
    | containers | networks | sidecars | volumes | dirs =>
      rw [hphase] at hlisted
      refine hlisted.mono fun j hj => ?_
      rcases himp j hj with hj | hidle | ⟨todo, hreading, -⟩
      · exact hj
      · rw [hphase] at hidle; cases hidle
      · rw [hphase] at hreading; cases hreading

/-- Past the reading, an active job is kept. -/
theorem Invariant.kept (hs : Invariant labels s) (hidle : s.phase ≠ .idle) (hread : ∀ todo, s.phase ≠ .reading todo)
    {j : Name} (hj : ActiveNow s j) : kept j ∈ s.active := by
  rcases hs.covered j hj with h | ⟨todo, h, -⟩ | h
  · exact absurd h hidle
  · exact absurd h (hread todo)
  · exact h

theorem readJob_of_active (hs : Invariant labels s) {j : Name} (hj : ActiveNow s j) :
    Service.kept j ∈ s.readJob j := by
  obtain ⟨r, hr, hactive⟩ := hj
  obtain ⟨hnetwork, hvolume⟩ := hs.own j r hr
  unfold readJob
  rw [hr]
  dsimp only [Option.getD_some]
  rw [if_pos hactive, hnetwork, hvolume]
  exact List.mem_append_right _ (List.mem_singleton.mpr rfl)

theorem mem_readJob {e : ActiveJob} {j : Name} (h : e ∈ s.active) : e ∈ s.readJob j := by
  unfold readJob
  dsimp only
  split
  · exact List.mem_append_left _ h
  · exact h

/-- Past the reading, what is kept stays kept, and no job becomes active by the sweep. -/
theorem Invariant.past (hs : Invariant labels s) (hidle : s.phase ≠ .idle)
    (hread : ∀ todo, s.phase ≠ .reading todo)
    (hjobs : ∀ j r, t.jobs.get j = some r → s.jobs.get j = some r) (hactive : t.active = s.active)
    (hlisted : Listed labels (ActiveNow s) t.phase) : Invariant labels t := by
  have himp : ∀ j, ActiveNow t j → ActiveNow s j := fun j ⟨r, hr, hr'⟩ => ⟨r, hjobs j r hr, hr'⟩
  refine ⟨fun j r hr => hs.own j r (hjobs j r hr), fun j hj => ?_, hlisted.mono himp⟩
  rw [hactive]
  exact Or.inr (Or.inr (hs.kept hidle hread (himp j hj)))

theorem labelledJob_of {inspected : Bool} {c : Name}
    (h : inspected = true ∨ ∀ j, ActiveNow s j → strip ((labels c).jobId.getD []) ≠ j.val)
    (hids : labelledJob labels inspected c ∉ s.activeIds)
    (hkept : ∀ j, ActiveNow s j → Service.kept j ∈ s.active) :
    ∀ j, ActiveNow s j → strip ((labels c).jobId.getD []) ≠ j.val := by
  rcases h with rfl | h
  · intro j hj heq
    refine hids ?_
    rw [labelledJob, if_pos rfl, heq]
    exact List.mem_map.mpr ⟨Service.kept j, hkept j hj, rfl⟩
  · exact h

/-- **A step of the sweep keeps what it knows.** -/
theorem invariant_sweep {inspected old : Bool} (hs : Invariant labels s)
    (hok : Settled labels s (.sweep inspected old)) :
    Invariant labels (sweep labels inspected old s) := by
  have hlisted := hs.listed
  unfold sweep
  cases hphase : s.phase with
  | idle =>
    -- the listing of the directory has every record there is
    refine ⟨hs.own, fun j ⟨r, hr, _⟩ => ?_, trivial⟩
    exact Or.inr (Or.inl ⟨_, rfl, mem_sorted.mpr (FinMap.mem_keys_of_get hr)⟩)
  | reading todo =>
    cases todo with
    | nil =>
      refine ⟨hs.own, fun j hj => ?_, ?_⟩
      · rcases hs.covered j hj with h | ⟨todo, h, hmem⟩ | h
        · rw [hphase] at h; cases h
        · rw [hphase] at h; cases h; cases hmem
        · exact Or.inr (Or.inr h)
      · refine ⟨fun c hc => ?_, fun c hc => by cases hc⟩
        exact (Finset.mem_filter.mp (mem_sorted.mp hc)).2
    | cons j js =>
      refine ⟨hs.own, fun k hk => ?_, trivial⟩
      -- the record at hand is kept when it is active, the others wait or were kept before
      rcases hs.covered k hk with h | ⟨todo, h, hmem⟩ | h
      · rw [hphase] at h; cases h
      · rw [hphase] at h
        cases h
        rcases List.mem_cons.mp hmem with rfl | hmem
        · exact Or.inr (Or.inr (readJob_of_active hs hk))
        · exact Or.inr (Or.inl ⟨js, rfl, hmem⟩)
      · exact Or.inr (Or.inr (mem_readJob h))
  | containers todo condemned =>
    rw [hphase] at hlisted
    have hidle : s.phase ≠ .idle := by rw [hphase]; simp
    have hread : ∀ todo, s.phase ≠ .reading todo := by rw [hphase]; simp
    cases condemned with
    | some c => exact hs.past hidle hread (fun _ _ h => h) rfl ⟨hlisted.1, fun c hc => by cases hc⟩
    | none =>
      cases todo with
      | nil =>
        refine hs.past hidle hread (fun _ _ h => h) rfl fun n hn => ?_
        exact (Finset.mem_filter.mp (mem_sorted.mp hn)).2
      | cons c cs =>
        have hrest : ∀ c ∈ cs, (labels c).role = some "job-runner".toList :=
          fun c hc => hlisted.1 c (List.mem_cons_of_mem _ hc)
        dsimp only
        split
        · exact hs.past hidle hread (fun _ _ h => h) rfl ⟨hrest, fun c hc => by cases hc⟩
        · -- the ids read off the labels are kept out, so the container is no active job's
          rename_i hids
          refine hs.past hidle hread (fun _ _ h => h) rfl ⟨hrest, fun c' hc' => ?_⟩
          cases hc'
          exact ⟨hlisted.1 c List.mem_cons_self, labelledJob_of (hok c cs hphase) hids
            fun j hj => hs.kept hidle hread hj⟩
  | networks todo =>
    rw [hphase] at hlisted
    have hidle : s.phase ≠ .idle := by rw [hphase]; simp
    have hread : ∀ todo, s.phase ≠ .reading todo := by rw [hphase]; simp
    cases todo with
    | nil =>
      refine hs.past hidle hread (fun _ _ h => h) rfl fun n hn => ?_
      exact (Finset.mem_filter.mp (mem_sorted.mp hn)).2
    | cons n ns =>
      have hrest : Listed labels (ActiveNow s) (.networks ns) :=
        fun n hn => hlisted n (List.mem_cons_of_mem _ hn)
      dsimp only
      split <;> exact hs.past hidle hread (fun _ _ h => h) rfl hrest
  | sidecars todo =>
    rw [hphase] at hlisted
    have hidle : s.phase ≠ .idle := by rw [hphase]; simp
    have hread : ∀ todo, s.phase ≠ .reading todo := by rw [hphase]; simp
    cases todo with
    | nil =>
      refine hs.past hidle hread (fun _ _ h => h) rfl fun n hn => ?_
      exact (Finset.mem_filter.mp (mem_sorted.mp hn)).2
    | cons n ns =>
      have hrest : Listed labels (ActiveNow s) (.sidecars ns) :=
        fun n hn => hlisted n (List.mem_cons_of_mem _ hn)
      dsimp only
      split <;> exact hs.past hidle hread (fun _ _ h => h) rfl hrest
  | volumes todo =>
    rw [hphase] at hlisted
    have hidle : s.phase ≠ .idle := by rw [hphase]; simp
    have hread : ∀ todo, s.phase ≠ .reading todo := by rw [hphase]; simp
    cases todo with
    | nil => exact hs.past hidle hread (fun _ _ h => h) rfl fun j hj => by cases hj
    | cons n ns =>
      have hrest : Listed labels (ActiveNow s) (.volumes ns) :=
        fun n hn => hlisted n (List.mem_cons_of_mem _ hn)
      dsimp only
      split <;> exact hs.past hidle hread (fun _ _ h => h) rfl hrest
  | dirs todo condemned =>
    rw [hphase] at hlisted
    have hidle : s.phase ≠ .idle := by rw [hphase]; simp
    have hread : ∀ todo, s.phase ≠ .reading todo := by rw [hphase]; simp
    cases condemned with
    | some j =>
      -- a removed record is one record less
      refine hs.past hidle hread (fun k r hr => ?_) rfl fun k hk => by cases hk
      change (s.jobs.restrict _).get k = some r at hr
      rw [FinMap.get_restrict] at hr
      split at hr
      · exact hr
      · cases hr
    | none =>
      cases todo with
      | nil => exact hs.past hidle hread (fun _ _ h => h) rfl trivial
      | cons j js =>
        have hnone : Listed labels (ActiveNow s) (.dirs js none) := fun k hk => by cases hk
        dsimp only
        split
        · exact hs.past hidle hread (fun _ _ h => h) rfl hnone
        · rename_i hids
          split
          · refine hs.past hidle hread (fun _ _ h => h) rfl fun k hk hactive => ?_
            cases hk
            exact hids (List.mem_map.mpr ⟨Service.kept j, hs.kept hidle hread hactive, rfl⟩)
          · exact hs.past hidle hread (fun _ _ h => h) rfl hnone

theorem invariant_step {a : Act} (hs : Invariant labels s) (hok : Settled labels s a)
    (h : step labels s a = some t) : Invariant labels t := by
  cases a with
  | write jobId record =>
    simp only [step] at h
    split at h
    · rename_i hown
      cases h
      exact inv_write hs hown hok
    · cases h
  | docker d =>
    cases h
    exact ⟨hs.own, hs.covered, hs.listed⟩
  | sweep inspected old =>
    cases h
    exact invariant_sweep hs hok

/-! ## What a step removes -/

theorem safe_of_same (hdocker : t.docker = s.docker) (hjobs : t.jobs = s.jobs) : Safe labels s t where
  containers c hc hgone := absurd (hdocker ▸ hc) hgone
  networks n hn hgone := absurd (hdocker ▸ hn) hgone
  volumes v hv hgone := absurd (hdocker ▸ hv) hgone
  dirs j hj := by
    obtain ⟨r, hr, -⟩ := hj
    rw [hjobs, hr]
    rfl

theorem jobs_kept (hjobs : t.jobs = s.jobs) : ∀ j, ActiveNow s j → (t.jobs.get j).isSome = true := by
  rintro j ⟨r, hr, -⟩
  rw [hjobs, hr]
  rfl

theorem safe_removeContainer {c : Name} (hdocker : t.docker = s.docker.removeContainer c)
    (hjobs : t.jobs = s.jobs)
    (h : ((labels c).role = some "job-runner".toList ∧
        ∀ j, ActiveNow s j → strip ((labels c).jobId.getD []) ≠ j.val) ∨
      (sidecarPrefix <+: c.val ∧ ∀ j, ActiveNow s j → c.val ≠ sidecarPrefix ++ j.val)) :
    Safe labels s t where
  containers c' hc' hgone := by
    rw [hdocker] at hgone
    obtain rfl : c' = c := by
      by_contra hne
      exact hgone (Finset.mem_erase.mpr ⟨hne, hc'⟩)
    exact h
  networks n hn hgone := absurd (by rw [hdocker]; exact hn) hgone
  volumes v hv hgone := absurd (by rw [hdocker]; exact hv) hgone
  dirs := jobs_kept hjobs

theorem safe_removeNetwork {n : Name} (hdocker : t.docker = s.docker.removeNetwork n)
    (hjobs : t.jobs = s.jobs)
    (h : jobNetworkPrefix <+: n.val ∧ ∀ j, ActiveNow s j → n ≠ jobNetwork j) :
    Safe labels s t where
  containers c hc hgone := by
    have hsame : t.docker.containers = s.docker.containers := by
      rw [hdocker]
      unfold Docker.removeNetwork
      split <;> rfl
    exact absurd (hsame ▸ hc) hgone
  networks n' hn' hgone := by
    rw [hdocker] at hgone
    unfold Docker.removeNetwork at hgone
    split at hgone
    · exact absurd hn' hgone
    · obtain rfl : n' = n := by
        by_contra hne
        exact hgone (Finset.mem_erase.mpr ⟨hne, hn'⟩)
      exact h
  volumes v hv hgone := absurd (by rw [hdocker, Docker.volumes_removeNetwork]; exact hv) hgone
  dirs := jobs_kept hjobs

theorem safe_removeVolume {v : Name} (hdocker : t.docker = s.docker.removeVolume v)
    (hjobs : t.jobs = s.jobs)
    (h : secretVolumePrefix <+: v.val ∧ ∀ j, ActiveNow s j → v ≠ secretVolumeName j) :
    Safe labels s t where
  containers c hc hgone := absurd (by rw [hdocker]; exact hc) hgone
  networks n hn hgone := absurd (by rw [hdocker]; exact hn) hgone
  volumes v' hv' hgone := by
    rw [hdocker] at hgone
    obtain rfl : v' = v := by
      by_contra hne
      exact hgone (Finset.mem_erase.mpr ⟨hne, hv'⟩)
    exact h
  dirs := jobs_kept hjobs

/-- **A step of the sweep is safe.** -/
theorem safe_sweep {inspected old : Bool} (hs : Invariant labels s) :
    Safe labels s (sweep labels inspected old s) := by
  have hlisted := hs.listed
  unfold sweep
  cases hphase : s.phase with
  | idle => exact safe_of_same rfl rfl
  | reading todo => cases todo <;> exact safe_of_same rfl rfl
  | containers todo condemned =>
    rw [hphase] at hlisted
    cases condemned with
    | some c => exact safe_removeContainer rfl rfl (Or.inl (hlisted.2 c rfl))
    | none =>
      cases todo with
      | nil => exact safe_of_same rfl rfl
      | cons c cs =>
        dsimp only
        split <;> exact safe_of_same rfl rfl
  | networks todo =>
    rw [hphase] at hlisted
    cases todo with
    | nil => exact safe_of_same rfl rfl
    | cons n ns =>
      dsimp only
      split
      · exact safe_of_same rfl rfl
      · -- a network of an active job would have been kept
        rename_i hactive
        refine safe_removeNetwork rfl rfl ⟨hlisted n List.mem_cons_self, fun j hj hn => hactive ?_⟩
        have hkept := hs.kept (by rw [hphase]; simp) (by rw [hphase]; simp) hj
        exact List.mem_map.mpr ⟨Service.kept j, hkept, hn.symm⟩
  | sidecars todo =>
    rw [hphase] at hlisted
    cases todo with
    | nil => exact safe_of_same rfl rfl
    | cons c cs =>
      dsimp only
      split
      · exact safe_of_same rfl rfl
      · rename_i hactive
        refine safe_removeContainer rfl rfl
          (Or.inr ⟨hlisted c List.mem_cons_self, fun j hj hc => hactive ?_⟩)
        have hkept := hs.kept (by rw [hphase]; simp) (by rw [hphase]; simp) hj
        rw [sidecarJob, hc, List.drop_left, j.property.1]
        exact List.mem_map.mpr ⟨Service.kept j, hkept, rfl⟩
  | volumes todo =>
    rw [hphase] at hlisted
    cases todo with
    | nil => exact safe_of_same rfl rfl
    | cons v vs =>
      dsimp only
      split
      · exact safe_of_same rfl rfl
      · rename_i hactive
        refine safe_removeVolume rfl rfl ⟨hlisted v List.mem_cons_self, fun j hj hv => hactive ?_⟩
        have hkept := hs.kept (by rw [hphase]; simp) (by rw [hphase]; simp) hj
        exact List.mem_map.mpr ⟨Service.kept j, hkept, hv.symm⟩
  | dirs todo condemned =>
    rw [hphase] at hlisted
    cases condemned with
    | some j =>
      refine ⟨fun c hc hgone => absurd hc hgone, fun n hn hgone => absurd hn hgone,
        fun v hv hgone => absurd hv hgone, fun k hk => ?_⟩
      -- the record to go is no active job's, and nothing else goes with it
      have hne : k ≠ j := fun h => hlisted j rfl (h ▸ hk)
      obtain ⟨r, hr, -⟩ := hk
      show ((s.jobs.restrict _).get k).isSome = true
      rw [FinMap.get_restrict, if_pos (decide_eq_true hne), hr]
      rfl
    | none =>
      cases todo with
      | nil => exact safe_of_same rfl rfl
      | cons j js =>
        dsimp only
        split
        · exact safe_of_same rfl rfl
        · split <;> exact safe_of_same rfl rfl

/-- A service whose sweep is at rest, with job records that name their own resources. -/
structure AtRest (s : Service) : Prop where
  idle : s.phase = .idle
  own : ∀ j r, s.jobs.get j = some r → OwnNames j r

theorem AtRest.invariant (h : AtRest s) : Invariant labels s where
  own := h.own
  covered _ _ := Or.inl h.idle
  listed := by rw [h.idle]; trivial

section Demo

def noLabels : Name → Labels := fun _ => ⟨none, none⟩

def board : Name := ⟨"job-board".toList, by decide⟩

def jobUuid : Text := "6f9619ff-8b86-4d01-b42d-00cf4fc964ff"

def demoJob : Name := ⟨jobUuid, by decide⟩

def withNetworks (networks : Finset Name) : Docker := ⟨networks, ∅, ∅, ∅, by simp⟩

/-- No jobs, and the networks of a host. -/
def noJobs (networks : Finset Name) : Service := ⟨.empty, withNetworks networks, [], .idle⟩

def sweeps (n : Nat) : List Act := List.replicate n (.sweep true false)

def queued : JobMeta := { JobMeta.empty with status := some .queued }

/-- The sweep has read that there are no jobs; then a job is queued and gets its network. -/
def lateStart : List Act :=
  sweeps 2 ++ [.write demoJob queued, .docker (withNetworks {jobNetwork demoJob})] ++ sweeps 1

/-- Whether the next step of the sweep, after these, removes a network. -/
def removesNetwork (s : Service) (acts : List Act) (n : Name) : Bool :=
  match run (step noLabels) s acts with
  | none => false
  | some t => decide (n ∈ t.docker.networks) &&
      decide (n ∉ (sweep noLabels true false t).docker.networks)

end Demo

end Service

end Infinito.Runner
