import Infinito.Runner.Start

/-!
# What a failed start leaves behind

A start that raises is to have released what it acquired: its network, its secret volume,
and the connections to its network. Its cleanups release what they know of, which is all
of it but in three places. While the targets are connected nothing is on record, so a
target that fails after another leaves that one connected, and docker keeps the network;
when the secrets cannot be seeded the volume goes last, after a write to `job.json` that
may fail; and once the secrets are seeded nothing is cleaned up at all.

`create_releases` is the exact condition, `Recorded`.
-/

set_option autoImplicit false

namespace Infinito.Runner

open Py Lib

/-- Network and volume are gone, and no container is connected to the network. -/
structure Released (network : Name) (volume : Option Name) (d : Docker) : Prop where
  gone : network ∉ d.networks
  unlinked : ∀ l ∈ d.links, l.1 ≠ network
  volumeGone : ∀ v, volume = some v → v ∉ d.volumes

/-! ## Connections -/

section Links

variable {n : Name} {d : Docker} {ts : List Target}

/-- The connections of a network are those to these targets. -/
def LinkedTo (n : Name) (ts : List Target) (d : Docker) : Prop :=
  ∀ l ∈ d.links, l.1 = n → ∃ t ∈ ts, l.2 = t.containerName

theorem volumes_disconnectTargets : (disconnectTargets n ts d).volumes = d.volumes := by
  unfold disconnectTargets
  induction ts generalizing d with
  | nil => rfl
  | cons t ts ih => rw [List.foldl_cons, ih, Docker.volumes_disconnect]

theorem mem_links_disconnectTargets {l : Name × Name} : l ∈ (disconnectTargets n ts d).links ↔
    l ∈ d.links ∧ ∀ t ∈ ts, l ≠ (n, t.containerName) := by
  unfold disconnectTargets
  induction ts generalizing d with
  | nil => exact (and_iff_left fun t ht => absurd ht List.not_mem_nil).symm
  | cons t ts ih =>
    rw [List.foldl_cons, ih, List.forall_mem_cons]
    show l ∈ d.links.erase _ ∧ _ ↔ _
    rw [Finset.mem_erase, and_comm (a := l ≠ _), and_assoc]

theorem removeVolume_networks {volume : Option Name} :
    (removeVolume volume d).networks = d.networks := by
  cases volume <;> rfl

theorem removeVolume_links {volume : Option Name} : (removeVolume volume d).links = d.links := by
  cases volume <;> rfl

theorem removeVolume_volume {volume : Option Name} {v : Name} (h : volume = some v) :
    v ∉ (removeVolume volume d).volumes := by
  rw [h]
  exact Docker.volumes_removeVolume

/-- The network of a job is gone once it is disconnected from all it is connected to, and
    only then. -/
theorem gone_iff : n ∉ ((disconnectTargets n ts d).removeNetwork n).networks ↔ LinkedTo n ts d := by
  rw [Docker.removeNetwork_removes]
  constructor
  · intro h l hl hn
    by_contra hnot
    refine h l (mem_links_disconnectTargets.mpr ⟨hl, fun t ht heq => hnot ⟨t, ht, ?_⟩⟩) hn
    rw [heq]
  · intro h l hl hn
    obtain ⟨hl, hne⟩ := mem_links_disconnectTargets.mp hl
    obtain ⟨t, ht, heq⟩ := h l hl hn
    exact hne t ht (Prod.ext hn heq)

/-- **A cleanup releases everything exactly when it knows all that is connected.** -/
theorem released_release {volume : Option Name} :
    Released n volume (release n ts volume d) ↔ LinkedTo n ts d := by
  unfold release
  rw [← gone_iff]
  constructor
  · intro h
    have := h.gone
    rwa [removeVolume_networks] at this
  · intro h
    refine ⟨by rwa [removeVolume_networks], ?_, fun v hv => removeVolume_volume hv⟩
    rw [removeVolume_links]
    exact Docker.unlinked_of_gone h

end Links

/-! ## The steps -/

section Steps

variable {spec : JobSpec} {job : Job} {o : Outcomes} {w u : World} {record : JobMeta} {e : Raised}
  {n : Name} {ts : List Target}

/-- The secret volume can be made, or none is needed. -/
def Outcomes.volumeMade (o : Outcomes) (job : Job) : Prop := job.secrets = true → o.volume = .done

def Outcomes.connects (o : Outcomes) (ts : List Target) : Prop :=
  ∀ t ∈ ts, o.target t.containerName = .done

/-- Everything succeeds up to and including the start of the process. -/
structure Outcomes.Launched (o : Outcomes) (job : Job) : Prop where
  volume : o.volumeMade job
  targets : o.connects (modeATargets job)
  command : o.command = none
  process : ∃ pid, o.process = .ok pid

/-- … and the secrets are seeded. -/
structure Outcomes.Seeded (o : Outcomes) (job : Job) : Prop where
  launched : o.Launched job
  secrets : job.secrets = true → o.running = none ∧ o.seeding = .done

/-- The links that connecting these targets makes. -/
def connected (n : Name) (ts : List Target) (d : Docker) : Docker :=
  ts.foldl (fun d t => d.connect n t.containerName) d

theorem networks_connected {d : Docker} : (connected n ts d).networks = d.networks := by
  unfold connected
  induction ts generalizing d with
  | nil => rfl
  | cons t ts ih => rw [List.foldl_cons, ih, Docker.networks_connect]

theorem mem_links_connected {d : Docker} (h : n ∈ d.networks) {l : Name × Name} :
    l ∈ (connected n ts d).links ↔ l ∈ d.links ∨ ∃ t ∈ ts, l = (n, t.containerName) := by
  unfold connected
  induction ts generalizing d with
  | nil => exact (or_iff_left fun ⟨t, ht, _⟩ => absurd ht List.not_mem_nil).symm
  | cons t ts ih =>
    have h' : n ∈ (d.connect n t.containerName).networks := by rwa [Docker.networks_connect]
    rw [List.foldl_cons, ih h', Docker.links_connect h, Finset.mem_insert, List.exists_mem_cons_iff,
      or_comm (a := l = _), or_assoc]

theorem connectTargets_ok (h : connectTargets o n ts w = .ok () u) :
    o.connects ts ∧ u = { w with docker := connected n ts w.docker } := by
  induction ts generalizing w with
  | nil =>
    cases h
    exact ⟨fun t ht => absurd ht List.not_mem_nil, rfl⟩
  | cons t ts ih =>
    obtain ⟨⟨⟩, v, hfirst, hrest⟩ := bind_eq_ok.mp h
    unfold connectTarget at hfirst
    cases htarget : o.target t.containerName with
    | exited stderr => rw [htarget] at hfirst; cases hfirst
    | raised e => rw [htarget] at hfirst; cases hfirst
    | done =>
      rw [htarget] at hfirst
      cases hfirst
      obtain ⟨hconnects, rfl⟩ := ih hrest
      exact ⟨List.forall_mem_cons.mpr ⟨htarget, hconnects⟩, rfl⟩

/-- A target that fails leaves the ones before it connected. -/
theorem connectTargets_error (h : connectTargets o n ts w = .error e u) :
    ∃ before t after, ts = before ++ t :: after ∧ o.connects before ∧
      o.target t.containerName ≠ .done ∧ u = { w with docker := connected n before w.docker } := by
  induction ts generalizing w with
  | nil => cases h
  | cons t ts ih =>
    rcases bind_eq_error.mp h with h | ⟨⟨⟩, v, hfirst, hrest⟩
    · unfold connectTarget at h
      refine ⟨[], t, ts, rfl, fun t ht => absurd ht List.not_mem_nil, ?_⟩
      cases htarget : o.target t.containerName with
      | exited stderr => rw [htarget] at h; cases h; exact ⟨by simp, rfl⟩
      | raised e' => rw [htarget] at h; cases h; exact ⟨by simp, rfl⟩
      | done => rw [htarget] at h; cases h
    · unfold connectTarget at hfirst
      cases htarget : o.target t.containerName with
      | exited stderr => rw [htarget] at hfirst; cases hfirst
      | raised e => rw [htarget] at hfirst; cases hfirst
      | done =>
        rw [htarget] at hfirst
        cases hfirst
        obtain ⟨before, t', after, rfl, hbefore, hfails, rfl⟩ := ih hrest
        exact ⟨t :: before, t', after, rfl, List.forall_mem_cons.mpr ⟨htarget, hbefore⟩, hfails, rfl⟩

/-- The volume step, done. -/
def withVolume (volume : Option Name) (d : Docker) : Docker :=
  match volume with
  | none => d
  | some v => d.createVolume v

theorem withVolume_networks {volume : Option Name} {d : Docker} :
    (withVolume volume d).networks = d.networks := by
  cases volume <;> rfl

theorem withVolume_links {volume : Option Name} {d : Docker} :
    (withVolume volume d).links = d.links := by
  cases volume <;> rfl

theorem makeVolume_ok (h : makeVolume spec job o w = .ok () u) :
    o.volumeMade job ∧ u = { w with docker := withVolume (secretVolume spec job) w.docker } := by
  unfold makeVolume secretVolume at h
  unfold Outcomes.volumeMade secretVolume
  cases hsecrets : job.secrets with
  | false =>
    rw [hsecrets] at h
    cases h
    exact ⟨fun hs => absurd hs (by decide), rfl⟩
  | true =>
    rw [hsecrets, if_pos rfl] at h
    unfold createTmpfsVolume at h
    cases hvolume : o.volume with
    | exited detail => rw [hvolume] at h; cases h
    | raised e => rw [hvolume] at h; cases h
    | done =>
      rw [hvolume] at h
      cases h
      exact ⟨fun _ => rfl, rfl⟩

theorem makeVolume_error (h : makeVolume spec job o w = .error e u) :
    ¬ o.volumeMade job ∧ u = w := by
  unfold makeVolume secretVolume at h
  unfold Outcomes.volumeMade
  cases hsecrets : job.secrets with
  | false => rw [hsecrets] at h; cases h
  | true =>
    rw [hsecrets, if_pos rfl] at h
    unfold createTmpfsVolume at h
    cases hvolume : o.volume with
    | exited detail =>
      rw [hvolume] at h
      cases h
      exact ⟨fun hmade => absurd (hmade rfl) (by simp), rfl⟩
    | raised e =>
      rw [hvolume] at h
      cases h
      exact ⟨fun hmade => absurd (hmade rfl) (by simp), rfl⟩
    | done => rw [hvolume] at h; cases h

/-- Docker once volume and targets are there. -/
def acquired (spec : JobSpec) (job : Job) (ts : List Target) (d : Docker) : Docker :=
  connected spec.networkName ts (withVolume (secretVolume spec job) d)

theorem acquire_ok (h : acquire spec job o w = .ok ts u) :
    o.volumeMade job ∧ o.connects (modeATargets job) ∧ ts = modeATargets job ∧
      u = { w with docker := acquired spec job ts w.docker } := by
  rcases tryCatch_eq_ok.mp h with h | ⟨e, t, -, h⟩
  · obtain ⟨⟨⟩, v, hvolume, h⟩ := bind_eq_ok.mp h
    obtain ⟨hmade, rfl⟩ := makeVolume_ok (u := v) hvolume
    obtain ⟨⟨⟩, x, hconnect, h⟩ := bind_eq_ok.mp h
    obtain ⟨hconnects, rfl⟩ := connectTargets_ok hconnect
    cases h
    exact ⟨hmade, hconnects, rfl, rfl⟩
  · obtain ⟨_, _, -, h⟩ := bind_eq_ok.mp h
    cases h

/-- What fails before the command is built: the volume, or a target after others. -/
theorem acquire_error (h : acquire spec job o w = .error e u) :
    (¬ o.volumeMade job ∧ u.docker = release spec.networkName [] (secretVolume spec job) w.docker) ∨
    (o.volumeMade job ∧ ∃ before t after, modeATargets job = before ++ t :: after ∧
      o.connects before ∧ o.target t.containerName ≠ .done ∧
      u.docker = release spec.networkName [] (secretVolume spec job)
        (acquired spec job before w.docker)) := by
  obtain ⟨e', t, hraised, hrelease⟩ := tryCatch_eq_error.mp h
  obtain rfl : u = { t with
      docker := release spec.networkName [] (secretVolume spec job) t.docker } := by
    cases hrelease
    rfl
  rcases bind_eq_error.mp hraised with h | ⟨⟨⟩, v, hvolume, h⟩
  · obtain ⟨hnot, rfl⟩ := makeVolume_error h
    exact Or.inl ⟨hnot, rfl⟩
  · obtain ⟨hmade, rfl⟩ := makeVolume_ok hvolume
    rcases bind_eq_error.mp h with h | ⟨⟨⟩, x, -, h⟩
    · obtain ⟨before, t', after, htargets, hbefore, hfails, rfl⟩ := connectTargets_error h
      exact Or.inr ⟨hmade, before, t', after, htargets, hbefore, hfails, rfl⟩
    · cases h

/-- Nothing but the targets is connected to a network that was new. -/
theorem linkedTo_acquired {before : List Target} {d : Docker} (hn : spec.networkName ∈ d.networks)
    (hnew : ∀ l ∈ d.links, l.1 ≠ spec.networkName) :
    LinkedTo spec.networkName ts (acquired spec job before d) ↔
      ∀ t ∈ before, ∃ t' ∈ ts, t.containerName = t'.containerName := by
  have hmem : spec.networkName ∈ (withVolume (secretVolume spec job) d).networks := by
    rwa [withVolume_networks]
  unfold LinkedTo acquired
  constructor
  · intro h t ht
    exact h (spec.networkName, t.containerName)
      ((mem_links_connected hmem).mpr (Or.inr ⟨t, ht, rfl⟩)) rfl
  · intro h l hl hnet
    rcases (mem_links_connected hmem).mp hl with hl | ⟨t, ht, rfl⟩
    · rw [withVolume_links] at hl
      exact absurd hnet (hnew l hl)
    · exact h t ht

end Steps

/-! ## The later steps -/

section Later

variable {spec : JobSpec} {job : Job} {o : Outcomes} {w u : World} {record : JobMeta} {e : Raised}
  {ts : List Target}

theorem buildCommand_ok (h : buildCommand spec job o ts w = .ok () u) : o.command = none ∧ u = w := by
  rcases tryCatch_eq_ok.mp h with h | ⟨e, t, -, h⟩
  · cases hcommand : o.command with
    | none => rw [hcommand] at h; cases h; exact ⟨rfl, rfl⟩
    | some e => rw [hcommand] at h; cases h
  · obtain ⟨_, _, -, h⟩ := bind_eq_ok.mp h
    cases h

theorem buildCommand_error (h : buildCommand spec job o ts w = .error e u) :
    o.command ≠ none ∧ u.docker = release spec.networkName ts (secretVolume spec job) w.docker := by
  obtain ⟨e', t, hraised, hrelease⟩ := tryCatch_eq_error.mp h
  cases hcommand : o.command with
  | none => rw [hcommand] at hraised; cases hraised
  | some e =>
    rw [hcommand] at hraised
    cases hraised
    cases hrelease
    exact ⟨by simp, rfl⟩

/-- Docker once the process has been started. -/
def started (spec : JobSpec) (o : Outcomes) (d : Docker) : Docker :=
  if o.appears then d.runContainer spec.networkName (containerName spec.jobId) else d

theorem writeMeta_eq (failure : Option Raised) (record : JobMeta) (w : World) :
    writeMeta failure record w = match failure with
      | none => .ok () { w with record := record }
      | some e => .error e w := by
  cases failure <;> rfl

theorem launch_ok {pid : Int} (h : launch spec job o record ts w = .ok pid u) :
    o.process = .ok pid ∧ u = { w with docker := started spec o w.docker } := by
  rcases tryCatch_eq_ok.mp h with h | ⟨e, t, -, h⟩
  · unfold startProcess at h
    unfold started
    cases hprocess : o.process with
    | error e => rw [hprocess] at h; cases h
    | ok pid' =>
      rw [hprocess] at h
      dsimp only at h
      cases happears : o.appears with
      | false => rw [happears] at h; cases h; exact ⟨rfl, rfl⟩
      | true => rw [happears] at h; cases h; exact ⟨rfl, rfl⟩
  · obtain ⟨⟨⟩, _, -, h⟩ := bind_eq_ok.mp h
    obtain ⟨⟨⟩, _, -, h⟩ := bind_eq_ok.mp h
    cases h

theorem launch_error (h : launch spec job o record ts w = .error e u) :
    (∀ pid, o.process ≠ .ok pid) ∧
      u.docker = release spec.networkName ts (secretVolume spec job) w.docker := by
  obtain ⟨e', t, hraised, hrelease⟩ := tryCatch_eq_error.mp h
  unfold startProcess at hraised
  cases hprocess : o.process with
  | ok pid =>
    rw [hprocess] at hraised
    dsimp only at hraised
    cases happears : o.appears with
    | false => rw [happears] at hraised; cases hraised
    | true => rw [happears] at hraised; cases hraised
  | error e =>
    rw [hprocess] at hraised
    cases hraised
    refine ⟨fun pid hpid => absurd hpid (by simp), ?_⟩
    obtain h | ⟨⟨⟩, v, hdocker, h⟩ := bind_eq_error.mp hrelease
    · cases h
    cases hdocker
    rw [bind_eq_error, writeMeta_eq] at h
    cases hfailed : o.failedRecord with
    | none =>
      rw [hfailed] at h
      rcases h with h | ⟨⟨⟩, x, hx, h⟩
      · cases h
      · cases hx
        cases h
        rfl
    | some e =>
      rw [hfailed] at h
      rcases h with h | ⟨⟨⟩, x, hx, -⟩
      · cases h
        rfl
      · cases hx

/-- Docker after a failed seeding, up to the write of the record. -/
def stopped (spec : JobSpec) (ts : List Target) (d : Docker) : Docker :=
  (disconnectTargets spec.networkName ts (d.removeContainer (containerName spec.jobId))).removeNetwork
    spec.networkName

theorem seedSecrets_ok (h : seedSecrets o w = .ok () u) :
    (o.running = none ∧ o.seeding = .done) ∧ u = w := by
  unfold seedSecrets at h
  cases hrunning : o.running with
  | some e => rw [hrunning] at h; cases h
  | none =>
    rw [hrunning] at h
    cases hseeding : o.seeding with
    | exited detail => rw [hseeding] at h; cases h
    | raised e => rw [hseeding] at h; cases h
    | done => rw [hseeding] at h; cases h; exact ⟨⟨rfl, rfl⟩, rfl⟩

theorem seedSecrets_error (h : seedSecrets o w = .error e u) :
    ¬ (o.running = none ∧ o.seeding = .done) ∧ u = w := by
  unfold seedSecrets at h
  cases hrunning : o.running with
  | some e => rw [hrunning] at h; cases h; exact ⟨by simp, rfl⟩
  | none =>
    rw [hrunning] at h
    cases hseeding : o.seeding with
    | exited detail => rw [hseeding] at h; cases h; exact ⟨by simp, rfl⟩
    | raised e => rw [hseeding] at h; cases h; exact ⟨by simp, rfl⟩
    | done => rw [hseeding] at h; cases h

theorem seed_ok (h : seed spec job o record ts w = .ok () u) :
    (job.secrets = true → o.running = none ∧ o.seeding = .done) ∧ u = w := by
  unfold seed secretVolume at h
  cases hsecrets : job.secrets with
  | false => rw [hsecrets] at h; cases h; exact ⟨fun hs => absurd hs (by decide), rfl⟩
  | true =>
    rw [hsecrets, if_pos rfl] at h
    rcases tryCatch_eq_ok.mp h with h | ⟨e, t, -, h⟩
    · obtain ⟨hseeded, rfl⟩ := seedSecrets_ok h
      exact ⟨fun _ => hseeded, rfl⟩
    · obtain ⟨⟨⟩, _, -, h⟩ := bind_eq_ok.mp h
      obtain ⟨⟨⟩, _, -, h⟩ := bind_eq_ok.mp h
      obtain ⟨⟨⟩, _, -, h⟩ := bind_eq_ok.mp h
      obtain ⟨⟨⟩, _, -, h⟩ := bind_eq_ok.mp h
      cases e <;> cases h

theorem seed_error (h : seed spec job o record ts w = .error e u) :
    job.secrets = true ∧ ¬ (o.running = none ∧ o.seeding = .done) ∧
      u.docker = match o.failedRecord with
        | none => removeVolume (secretVolume spec job) (stopped spec ts w.docker)
        | some _ => stopped spec ts w.docker := by
  unfold seed at h
  unfold secretVolume at h ⊢
  cases hsecrets : job.secrets with
  | false => rw [hsecrets] at h; cases h
  | true =>
    rw [hsecrets, if_pos rfl] at h
    obtain ⟨e', t, hraised, hclean⟩ := tryCatch_eq_error.mp h
    obtain ⟨hnot, rfl⟩ := seedSecrets_error hraised
    refine ⟨rfl, hnot, ?_⟩
    obtain h | ⟨⟨⟩, v, hv, hclean⟩ := bind_eq_error.mp hclean
    · cases h
    cases hv
    obtain h | ⟨⟨⟩, v, hv, hclean⟩ := bind_eq_error.mp hclean
    · cases h
    cases hv
    rw [bind_eq_error, writeMeta_eq] at hclean
    cases hfailed : o.failedRecord with
    | none =>
      rw [hfailed] at hclean
      rcases hclean with h | ⟨⟨⟩, x, hx, h⟩
      · cases h
      · cases hx
        obtain h | ⟨⟨⟩, y, hy, h⟩ := bind_eq_error.mp h
        · cases h
        cases hy
        cases e' <;> cases h <;> rfl
    | some e =>
      rw [hfailed] at hclean
      rcases hclean with h | ⟨⟨⟩, x, hx, -⟩
      · cases h
        rfl
      · cases hx

end Later

/-! ## The condition -/

section Create

variable {spec : JobSpec} {job : Job} {o : Outcomes} {w u : World} {record : JobMeta} {e : Raised}

/-- `create` gets to make the job's network, which is new. -/
structure Begins (spec : JobSpec) (job : Job) (o : Outcomes) (w : World) : Prop where
  found : job.found = true
  control : loadControl job w = .ok () w
  idle : w.record.status ≠ some .running
  config : o.config = none
  fresh : spec.networkName ∉ w.docker.networks
  network : o.network = .done

/-- What goes wrong goes wrong where the cleanup knows all there is to release. -/
structure Recorded (job : Job) (o : Outcomes) : Prop where
  /-- no target was connected before the one that could not be -/
  targets : o.volumeMade job → ∀ before t after, modeATargets job = before ++ t :: after →
    o.connects before → o.target t.containerName ≠ .done → before = []
  /-- the failure of seeding can be recorded -/
  failedRecord : o.Launched job → ¬ o.Seeded job → o.failedRecord = none
  /-- it was not after the seeding -/
  notSeeded : ¬ o.Seeded job

theorem create_eq (h : Begins spec job o w) : create spec job o w =
    proceed spec job o w.record { w with docker := w.docker.createNetwork spec.networkName } := by
  have hstart : start spec job o w.record w =
      proceed spec job o w.record { w with docker := w.docker.createNetwork spec.networkName } := by
    have hnetwork : createInternalNetwork o spec.networkName w =
        .ok () { w with docker := w.docker.createNetwork spec.networkName } := by
      exact createInternalNetwork_done h.fresh h.network
    show EStateM.bind (createInternalNetwork o spec.networkName) (fun _ => proceed spec job o w.record)
      w = _
    unfold EStateM.bind
    rw [hnetwork]
  unfold create
  rw [if_neg (by rw [h.found]; decide)]
  show EStateM.bind (loadControl job) _ w = _
  unfold EStateM.bind
  rw [h.control]
  show (if w.record.status = some .running then getJob spec job else (do
    raiseIf o.config; start spec job o w.record) : Manager DeploymentJobOut) w = _
  rw [if_neg h.idle, h.config]
  exact hstart

/-- The network as the start makes it: there, and nothing connected to it. -/
structure Fresh (n : Name) (d : Docker) : Prop where
  there : n ∈ d.networks
  unlinked : ∀ l ∈ d.links, l.1 ≠ n

theorem Begins.isFresh (h : Begins spec job o w) :
    Fresh spec.networkName (w.docker.createNetwork spec.networkName) where
  there := Finset.mem_insert_self _ _
  unlinked := Docker.unlinked_of_gone (d := w.docker) h.fresh

theorem volume_acquired {ts : List Target} {d : Docker} {v : Name}
    (hv : secretVolume spec job = some v) : v ∈ (acquired spec job ts d).volumes := by
  have hvolumes : (acquired spec job ts d).volumes =
      (withVolume (secretVolume spec job) d).volumes := by
    unfold acquired connected
    generalize withVolume (secretVolume spec job) d = d
    induction ts generalizing d with
    | nil => rfl
    | cons t ts ih => rw [List.foldl_cons, ih, Docker.volumes_connect]
  rw [hvolumes, hv]
  exact Finset.mem_insert_self _ _

theorem secrets_of_volume (h : job.secrets = true) :
    secretVolume spec job = some (secretVolumeName spec.jobId) := by
  rw [secretVolume, if_pos h]

variable (job) in
theorem linkedTo_self {d : Docker} (hd : Fresh spec.networkName d) (ts : List Target) :
    LinkedTo spec.networkName ts (acquired spec job ts d) :=
  (linkedTo_acquired hd.there hd.unlinked).mpr fun t ht => ⟨t, ht, rfl⟩

/-- Once the runner's container is gone, only the targets are left. -/
theorem linkedTo_stopped {d : Docker} (hd : Fresh spec.networkName d) (ts : List Target) :
    LinkedTo spec.networkName ts
      ((started spec o (acquired spec job ts d)).removeContainer (containerName spec.jobId)) := by
  intro l hl hn
  obtain ⟨hl, hne⟩ := Finset.mem_filter.mp hl
  refine linkedTo_self job hd ts l ?_ hn
  unfold started at hl
  split at hl
  · have hmem : spec.networkName ∈ (acquired spec job ts d).networks := by
      rw [acquired, networks_connected, withVolume_networks]
      exact hd.there
    rw [Docker.links_runContainer hmem] at hl
    rcases Finset.mem_insert.mp hl with rfl | hl
    · exact absurd rfl hne
    · exact hl
  · exact hl

theorem removeContainer_volumes {ts : List Target} {d : Docker} {c n : Name} :
    ((disconnectTargets n ts (d.removeContainer c)).removeNetwork n).volumes = d.volumes := by
  rw [Docker.volumes_removeNetwork, volumes_disconnectTargets]
  rfl

theorem started_volumes {d : Docker} : (started spec o d).volumes = d.volumes := by
  unfold started Docker.runContainer
  split
  · exact Docker.volumes_connect
  · rfl

theorem started_networks {d : Docker} : (started spec o d).networks = d.networks := by
  unfold started
  split
  · exact Docker.networks_runContainer
  · rfl

/-- **What a failed start leaves behind.** A start that has made the job's network and
    raises has released network, secret volume and connections if and only if its failure is
    `Recorded`. -/
theorem create_releases (spec : JobSpec) (job : Job) (o : Outcomes) (w w' : World) (e : Raised)
    (hbegins : Begins spec job o w) (h : create spec job o w = .error e w') :
    Released spec.networkName (secretVolume spec job) w'.docker ↔ Recorded job o := by
  rw [create_eq hbegins] at h
  have hd := hbegins.isFresh
  generalize w.docker.createNetwork spec.networkName = d at h hd
  have hknown := linkedTo_self job hd (modeATargets job)
  rcases bind_eq_error.mp h with h | ⟨ts, u, hacquire, h⟩
  · rcases acquire_error h with ⟨hnot, hdocker⟩ |
      ⟨hmade, before, t, after, htargets, hbefore, hfails, hdocker⟩
    · -- the volume: nothing was connected
      rw [hdocker, released_release]
      have hlaunched : ¬ o.Launched job := fun h => hnot h.volume
      exact iff_of_true (fun l hl hn => absurd hn (hd.unlinked l hl))
        ⟨fun h => absurd h hnot, fun h => absurd h hlaunched, fun h => hlaunched h.launched⟩
    · -- a target: those before it are not on record
      rw [hdocker, released_release, linkedTo_acquired hd.there hd.unlinked]
      have hlaunched : ¬ o.Launched job := fun h =>
        hfails (h.targets t (by rw [htargets]; exact List.mem_append_right _ List.mem_cons_self))
      constructor
      · intro hnone
        have hempty : before = [] := List.eq_nil_iff_forall_not_mem.mpr fun t ht => by
          obtain ⟨t', ht', -⟩ := hnone t ht
          exact absurd ht' List.not_mem_nil
        refine ⟨fun _ before' t' after' htargets' hbefore' hfails' => ?_,
          fun h => absurd h hlaunched, fun h => hlaunched h.launched⟩
        rw [hempty, List.nil_append] at htargets
        rw [htargets] at htargets'
        cases before' with
        | nil => rfl
        | cons x xs =>
          rw [List.cons_append, List.cons.injEq] at htargets'
          rw [← htargets'.1] at hbefore'
          exact absurd (hbefore' t List.mem_cons_self) hfails
      · intro hrecorded
        rw [hrecorded.targets hmade before t after htargets hbefore hfails]
        exact fun t ht => absurd ht List.not_mem_nil
  obtain ⟨hmade, hconnects, rfl, rfl⟩ := acquire_ok hacquire
  -- from here on every target is connected, and on record
  have htargets : o.volumeMade job → ∀ before t after, modeATargets job = before ++ t :: after →
      o.connects before → o.target t.containerName ≠ .done → before = [] :=
    fun _ before t after heq _ hfails => absurd (hconnects t
      (by rw [heq]; exact List.mem_append_right _ List.mem_cons_self)) hfails
  rcases bind_eq_error.mp h with h | ⟨⟨⟩, u, hbuild, h⟩
  · obtain ⟨hfails, hdocker⟩ := buildCommand_error h
    rw [hdocker, released_release]
    have hlaunched : ¬ o.Launched job := fun h => hfails h.command
    exact iff_of_true hknown
      ⟨htargets, fun h => absurd h hlaunched, fun h => hlaunched h.launched⟩
  obtain ⟨hcommand, rfl⟩ := buildCommand_ok hbuild
  rcases bind_eq_error.mp h with h | ⟨pid, u, hlaunch, h⟩
  · obtain ⟨hfails, hdocker⟩ := launch_error h
    rw [hdocker, released_release]
    have hlaunched : ¬ o.Launched job := fun h => h.process.elim hfails
    exact iff_of_true hknown
      ⟨htargets, fun h => absurd h hlaunched, fun h => hlaunched h.launched⟩
  obtain ⟨hprocess, rfl⟩ := launch_ok hlaunch
  have hlaunched : o.Launched job := ⟨hmade, hconnects, hcommand, pid, hprocess⟩
  rcases bind_eq_error.mp h with h | ⟨⟨⟩, u, hseed, h⟩
  · obtain ⟨hsecrets, hfails, hdocker⟩ := seed_error h
    have hseeded : ¬ o.Seeded job := fun h => hfails (h.secrets hsecrets)
    cases hfailed : o.failedRecord with
    | none =>
      rw [hfailed] at hdocker
      rw [hdocker]
      refine iff_of_true ?_ ⟨htargets, fun _ _ => hfailed, hseeded⟩
      exact released_release.mpr (linkedTo_stopped hd (modeATargets job))
    | some e =>
      rw [hfailed] at hdocker
      rw [hdocker]
      refine iff_of_false (fun hreleased => ?_) fun hrecorded => ?_
      · refine hreleased.volumeGone _ (secrets_of_volume hsecrets) ?_
        unfold stopped
        rw [removeContainer_volumes, started_volumes]
        exact volume_acquired (secrets_of_volume hsecrets)
      · have := hrecorded.failedRecord hlaunched hseeded
        rw [hfailed] at this
        cases this
  · obtain ⟨hsecrets, rfl⟩ := seed_ok hseed
    have hseeded : o.Seeded job := ⟨hlaunched, hsecrets⟩
    refine iff_of_false (fun hreleased => ?_) fun hrecorded => hrecorded.notSeeded hseeded
    refine hreleased.gone ?_
    have hnetworks : w'.docker.networks =
        (started spec o (acquired spec job (modeATargets job) d)).networks := by
      rw [bind_eq_error, writeMeta_eq] at h
      cases hrecord : o.runningRecord with
      | some e =>
        rw [hrecord] at h
        rcases h with h | ⟨⟨⟩, x, hx, -⟩
        · cases h
          rfl
        · cases hx
      | none =>
        rw [hrecord] at h
        rcases h with h | ⟨⟨⟩, x, hx, h⟩
        · cases h
        · cases hx
          rw [bind_eq_error] at h
          cases hwatcher : o.watcher with
          | some e =>
            rw [hwatcher] at h
            rcases h with h | ⟨⟨⟩, y, hy, -⟩
            · cases h
              rfl
            · cases hy
          | none =>
            rw [hwatcher] at h
            rcases h with h | ⟨⟨⟩, y, hy, h⟩
            · cases h
            · cases hy
              unfold getJob at h
              rw [if_neg (by rw [hbegins.found]; decide)] at h
              cases h
    rw [hnetworks, started_networks, acquired, networks_connected, withVolume_networks]
    exact hd.there

end Create

section Demo

def demoJobId : Name := ⟨"6f9619ff-8b86-4d01-b42d-00cf4fc964ff".toList, by decide⟩

def demoSpec : JobSpec where
  jobId := demoJobId
  workspaceId := ⟨"w1".toList, by decide⟩
  runnerImage := ⟨"runner:1".toList, by decide⟩
  inventoryPath := ⟨"inventory.yml".toList, by decide⟩
  secretsDir := ⟨"/state/secrets".toList, by decide⟩
  roleIds := []
  networkName := jobNetwork demoJobId
  labels := []
  networkName_eq := rfl

/-- A deployment to the two hosts `db` and `web` of the compose stack. -/
def twoHosts : Job where
  found := true
  control := some (.ok (.dict [(.str "cli_args", .list [.str "deploy"])]))
  secrets := true
  hostVars := [⟨"db", none⟩, ⟨"web", none⟩]
  psService host := some (host ++ "\n".toList)
  psName _ := none

/-- Everything succeeds but the connection of one container. -/
def refusing (name : Text) : Outcomes where
  config := none
  network := .done
  volume := .done
  target t := if t.val = name then .exited "endpoint exists" else .done
  command := none
  process := .ok 4711
  appears := true
  running := none
  seeding := .done
  exitCode := none
  failedRecord := none
  runningRecord := none
  watcher := none
  now := "2026-01-01T00:00:00Z"

def idle : World where
  docker := ⟨∅, ∅, ∅, ∅, by simp⟩
  record := { JobMeta.empty with status := some .queued }
  secretsDir := true
  sshKey := false

theorem begins_idle (name : Text) : Begins demoSpec twoHosts (refusing name) idle where
  found := rfl
  control := rfl
  idle := by decide
  config := rfl
  fresh := by decide
  network := rfl

/-- Whether a start raises and leaves the network. -/
def leaksNetwork (o : Outcomes) : Option Bool :=
  match create demoSpec twoHosts o idle with
  | .ok _ _ => none
  | .error _ w => some (decide (demoSpec.networkName ∈ w.docker.networks))

theorem exists_of_leaksNetwork {o : Outcomes} {b : Bool} (h : leaksNetwork o = some b) :
    ∃ e w, create demoSpec twoHosts o idle = .error e w ∧
      decide (demoSpec.networkName ∈ w.docker.networks) = b := by
  unfold leaksNetwork at h
  cases hcreate : create demoSpec twoHosts o idle with
  | ok out w => rw [hcreate] at h; cases h
  | error e w =>
    rw [hcreate] at h
    exact ⟨e, w, rfl, Option.some.inj h⟩

/-- The first target fails, and nothing stays. -/
theorem create_releases_first : ∃ e w, create demoSpec twoHosts (refusing "db") idle = .error e w ∧
    (Released demoSpec.networkName (secretVolume demoSpec twoHosts) w.docker ↔
      Recorded twoHosts (refusing "db")) := by
  have hfails : leaksNetwork (refusing "db") = some false := by decide +kernel
  obtain ⟨e, w, hcreate, -⟩ := exists_of_leaksNetwork hfails
  exact ⟨e, w, hcreate, create_releases demoSpec twoHosts (refusing "db") idle w e
    (begins_idle "db") hcreate⟩

/-- **The second target fails, and the first stays connected**: docker keeps the network. -/
theorem second_target_leaks : ¬ ∀ (spec : JobSpec) (job : Job) (o : Outcomes) (w w' : World)
    (e : Raised), Begins spec job o w → create spec job o w = .error e w' →
    Released spec.networkName (secretVolume spec job) w'.docker := by
  intro hclaim
  have hleaks : leaksNetwork (refusing "web") = some true := by decide +kernel
  obtain ⟨e, w, hcreate, hmem⟩ := exists_of_leaksNetwork hleaks
  have hreleased := hclaim demoSpec twoHosts (refusing "web") idle w e (begins_idle "web") hcreate
  exact hreleased.gone (of_decide_eq_true hmem)

end Demo

end Infinito.Runner
