import Infinito.Runner.Mounts
import Infinito.Lib.Flags
import Infinito.Lib.Result

/-!
# The hardened container

`_validate_hardened_container_request` is a list of what the extra arguments must not hold, argument
by argument. docker reads the same arguments as options (`Lib.Flags`), and it knows more spellings
than the list does: a boolean option takes a value (`--privileged=true`), `--network` is `--net` too,
`-v` can follow other letters in one argument, and the socket has other paths than the one that is
looked for.

`hardened_iff` says that this is all: a container that docker starts from an accepted command is
hardened just when the extra arguments use none of these. The host's PID namespace is out of reach.
-/

set_option autoImplicit false

namespace Infinito.Runner

open Py
open Lib.Flags (Grammar Given State Opt run_append run_cons run_ended run_stands sound_options)

/-! ## What docker makes of its options -/

/-- What an option of `docker run` sets. -/
inductive Setting where
  | privileged
  | network
  | pid
  | volume
  | mount
  | other (name : Text)
  deriving DecidableEq

/-- The names of an option. -/
def Setting.names : Setting → List Text
  | .privileged => ["privileged"]
  | .network => ["network", "net"]
  | .pid => ["pid"]
  | .volume => ["volume"]
  | .mount => ["mount"]
  | .other name => [name]

/-- A boolean value. -/
def readBool (t : Text) : Option Bool :=
  if t ∈ (["1", "t", "T", "true", "TRUE", "True"] : List Text) then some true
  else if t ∈ (["0", "f", "F", "false", "FALSE", "False"] : List Text) then some false
  else none

/-- The options of the builder that have a value and nothing to do with the hardening. -/
def plainNames : List Text :=
  ["name", "cap-drop", "security-opt", "user", "tmpfs", "label", "entrypoint"]

/-- What the builder relies on of `docker run`. -/
structure DockerRun where
  grammar : Grammar Setting
  /-- Whether it starts a container with these options. -/
  starts : List (Given Setting) → Bool
  /-- The network that a value of `--network` names. -/
  networkName : Text → Text
  /-- Whether an option mounts its own socket. -/
  mountsSocket : Setting → Text → Bool
  named : ∀ name opt, grammar.long name = some opt → name ∈ opt.sets.names
  alone_privileged : ∀ name opt, grammar.long name = some opt → opt.sets = .privileged →
    opt.alone = some "true".toList
  alone_of_mem : ∀ name opt, grammar.long name = some opt →
    opt.sets ∈ [.network, .pid, .volume, .mount] → opt.alone = none
  letters : ∀ c opt, grammar.short c = some opt →
    opt.sets = .volume ∧ opt.alone = none ∨ ∃ name, opt.sets = .other name
  long_plain : ∀ name ∈ plainNames, ∃ opt, grammar.long name = some opt ∧ opt.alone = none
  long_flag : ∀ name ∈ (["rm", "read-only"] : List Text), ∃ opt, grammar.long name = some opt ∧
    opt.alone = some "true".toList
  long_network : ∃ opt, grammar.long "network" = some opt ∧ opt.sets = .network
  short_v : ∃ opt, grammar.short 'v' = some opt ∧ opt.sets = .volume
  short_e : ∃ opt, grammar.short 'e' = some opt ∧ opt.sets = .other "env" ∧ opt.alone = none
  short_w : ∃ opt, grammar.short 'w' = some opt ∧ opt.sets = .other "workdir" ∧ opt.alone = none
  /-- A value without `key=value` fields is a name. -/
  networkName_plain : ∀ value, '=' ∉ value → networkName value = value
  /-- Nothing that is mounted is called like an option. -/
  mountsSocket_option : ∀ sets, mountsSocket sets "--cap-drop" = false
  mountsSocket_network : ∀ value, mountsSocket .network value = false
  mountsSocket_plain : ∀ name ∈ ["rm".toList, "read-only".toList, "env".toList, "workdir".toList] ++
    plainNames, ∀ value, mountsSocket (.other name) value = false

/-- A container, as far as the hardening goes. -/
structure Container where
  privileged : Bool
  hostNetwork : Bool
  hostPid : Bool
  dockerSocket : Bool
  deriving DecidableEq

structure Container.Hardened (c : Container) : Prop where
  privileged : c.privileged = false
  hostNetwork : c.hostNetwork = false
  hostPid : c.hostPid = false
  dockerSocket : c.dockerSocket = false

/-- The value that counts of an option that is given several times. -/
def lastValue (sets : Setting) (settings : List (Setting × Text)) : Option Text :=
  ((settings.filter (·.1 = sets)).getLast?).map Prod.snd

variable (docker : DockerRun)

/-- The container of a list of settings. -/
def DockerRun.container (settings : List (Setting × Text)) : Container where
  privileged := (lastValue .privileged settings).any (readBool · = some true)
  hostNetwork := settings.any fun s => s.1 = .network ∧ docker.networkName s.2 = "host"
  hostPid := (lastValue .pid settings).any (· = "host".toList)
  dockerSocket := settings.any fun s => docker.mountsSocket s.1 s.2

def settingsOf (given : List (Given Setting)) : List (Setting × Text) :=
  given.map fun o => (o.sets, o.value)

/-- The container that a command line starts, after `docker run`. -/
def DockerRun.run (argv : List Text) : Option Container :=
  match docker.grammar.run .options (argv.drop 2) with
  | some (given, s) =>
      if s.pending = [] ∧ docker.starts given = true then
        some (docker.container (settingsOf given))
      else none
  | none => none

/-! ## What the checks overlook -/

def socketPath : Text := "/var/run/docker.sock"

/-- The options whose value is searched for the socket. -/
def Looked (o : Given Setting) : Prop :=
  if o.apart then lower o.arg ∈ (["-v", "--volume", "--mount"] : List Text)
  else "-v".toList <+: lower o.arg ∨ "--volume=".toList <+: lower o.arg ∨
    "--mount=".toList <+: lower o.arg

variable (host : Host) (cfg : ContainerRunnerConfig) (files : JobFiles) (args : CommandArgs)

/-- The mounts that the builder adds. -/
def ownMounts : List Text :=
  (host.hostJobDir ++ ':' :: cfg.workdir) ::
    ((mountOwn (declaredMountTargets cfg.extraArgs) files.own).map (·.spec host.hostJobDir) ++
      (args.bindMounts.map (fun mount => mountValue (host.hostMountSource mount.source) mount) ++
        args.volumeMounts.map fun mount => mountValue mount.source mount))

/-- The extra arguments, read as options, use nothing that the checks overlook. -/
structure Tight (given : List (Given Setting)) (s : State Setting) : Prop where
  /-- no `--privileged=true` -/
  privileged : ∀ o, (given.filter (·.sets = .privileged)).getLast? = some o →
    o.arg ≠ "--privileged".toList → readBool o.value ≠ some true
  /-- no `--net host` -/
  net : ∀ o ∈ given, o.sets = .network → "--net".toList = o.arg ∨ "--net=".toList <+: o.arg →
    docker.networkName o.value ≠ "host"
  /-- the network of the call is not `name=host` -/
  network : ∀ value, truthy (args.effectiveNetwork cfg) = some value → '=' ∈ value →
    docker.networkName value ≠ "host"
  /-- no socket but by a plain option with the plain path -/
  socket : ∀ o ∈ given, docker.mountsSocket o.sets o.value = true →
    (o.sets = .volume ∨ o.sets = .mount) ∧ Looked o ∧ socketPath <:+: o.value
  /-- nor by the mounts that are added -/
  own : s = .options → ∀ value ∈ ownMounts host cfg files args,
    docker.mountsSocket .volume value = false

/-! ## The builder's options, read -/

section Reading

variable {docker host cfg files args} {g : Grammar Setting} {xs ys : List Text}
  {ps qs : List (Setting × Text)}

/-- Arguments that are options, and set this. -/
def ReadsAs (g : Grammar Setting) (xs : List Text) (ps : List (Setting × Text)) : Prop :=
  ∀ given s, g.run .options xs = some (given, s) → s = .options ∧ settingsOf given = ps

theorem ReadsAs.nil : ReadsAs g [] [] := by
  rintro given s ⟨⟩
  exact ⟨rfl, rfl⟩

theorem ReadsAs.append (hxs : ReadsAs g xs ps) (hys : ReadsAs g ys qs) :
    ReadsAs g (xs ++ ys) (ps ++ qs) := by
  intro given s h
  obtain ⟨first, s₁, later, hfirst, hlater, rfl⟩ := run_append.mp h
  obtain ⟨rfl, hps⟩ := hxs _ _ hfirst
  obtain ⟨rfl, hqs⟩ := hys _ _ hlater
  refine ⟨rfl, ?_⟩
  rw [settingsOf, List.map_append]
  exact congrArg₂ (· ++ ·) hps hqs

theorem give_settings {opt : Opt Setting} {arg value : Text} {apart : Bool}
    {given : List (Given Setting)} {s : State Setting}
    (h : opt.give arg apart value = some (given, s)) :
    s = .options ∧ settingsOf given = [(opt.sets, value)] := by
  unfold Opt.give at h
  split at h
  · cases h
    exact ⟨rfl, rfl⟩
  · cases h

/-- An option whose value is the next argument. -/
theorem ReadsAs.next {flag value : Text} {opt : Opt Setting}
    (hflag : g.step .options flag = some ([], .waits flag opt)) :
    ReadsAs g [flag, value] [(opt.sets, value)] := by
  intro given s h
  obtain ⟨first, s₁, later, hfirst, hlater, rfl⟩ := run_cons.mp h
  rw [hflag] at hfirst
  cases hfirst
  obtain ⟨first, s₂, later, hgive, hlater, rfl⟩ := run_cons.mp hlater
  obtain ⟨rfl, hset⟩ := give_settings hgive
  cases hlater
  exact ⟨rfl, by rwa [List.append_nil]⟩

theorem ReadsAs.each {α : Type} {flag : Text} {opt : Opt Setting} (value : α → Text)
    (hflag : g.step .options flag = some ([], .waits flag opt)) (items : List α) :
    ReadsAs g (eachOption flag value items) (items.map fun item => (opt.sets, value item)) := by
  induction items with
  | nil => exact .nil
  | cons item items ih => exact (ReadsAs.next hflag).append ih

/-- The names that the builder uses. -/
theorem builder_names : ∀ name ∈ ["rm".toList, "read-only".toList, "network".toList] ++ plainNames,
    name ≠ [] ∧ ¬ (name.head? = some '-' ∨ name.head? = some '=') ∧
      name.takeWhile (· ≠ '=') = name ∧ '=' ∉ name := by decide

theorem step_long {name : Text} {opt : Opt Setting} (hopt : g.long name = some opt)
    (hname : name ∈ ["rm".toList, "read-only".toList, "network".toList] ++ plainNames) :
    (opt.alone = none → g.step .options ('-' :: '-' :: name) =
        some ([], .waits ('-' :: '-' :: name) opt)) ∧
      ∀ value, opt.alone = some value → g.step .options ('-' :: '-' :: name) =
        opt.give ('-' :: '-' :: name) false value := by
  obtain ⟨hne, hhead, hwhole, heq⟩ := builder_names name hname
  cases name with
  | nil => exact absurd rfl hne
  | cons c rest =>
    have hstep : g.step .options ('-' :: '-' :: c :: rest) =
        g.readLong ('-' :: '-' :: c :: rest) (c :: rest) := rfl
    rw [hstep, Grammar.readLong, if_neg hhead, hwhole, hopt, Option.bind_some, if_neg heq]
    constructor
    · intro halone
      rw [halone]
    · intro value halone
      rw [halone]

theorem step_letter {c : Char} {opt : Opt Setting} (hc : c ≠ '-') (hopt : g.short c = some opt)
    (halone : opt.alone = none) : g.step .options ['-', c] = some ([], .waits ['-', c] opt) := by
  have hstep : g.step .options ['-', c] = g.readShort ['-', c] [c] := by
    unfold Grammar.step
    split
    · rename_i heq
      cases heq
    · rename_i heq
      cases heq
    · rename_i heq
      cases heq
      exact absurd rfl hc
    · rename_i heq
      cases heq
      exact absurd rfl hc
    · rename_i heq
      cases heq
      rfl
    · rename_i h
      exact absurd rfl (h c [])
  rw [hstep, Grammar.readShort, hopt, Option.bind_some]
  simp only [halone, if_true]

theorem sets_plain {name : Text} {sets : Setting} (hname : name ∈ sets.names)
    (hplain : name ∈ ["rm".toList, "read-only".toList] ++ plainNames) : sets = .other name := by
  cases sets with
  | other other => rw [List.mem_singleton.mp hname]
  | _ => exact absurd hplain (by revert name; decide)

/-- An option of the builder with a value and no bearing on the hardening. -/
theorem reads_plain {name : Text} (h : name ∈ plainNames) {α : Type} (value : α → Text)
    (items : List α) : ReadsAs docker.grammar (eachOption ('-' :: '-' :: name) value items)
      (items.map fun item => (.other name, value item)) := by
  obtain ⟨opt, hopt, halone⟩ := docker.long_plain name h
  have hsets := sets_plain (docker.named name opt hopt) (List.mem_append_right _ h)
  rw [← hsets]
  exact ReadsAs.each value ((step_long hopt (List.mem_append_right _ h)).1 halone) items

theorem reads_network (value : Option Text) :
    ReadsAs docker.grammar (optionOf "--network" value)
      ((truthy value).toList.map fun value => (.network, value)) := by
  obtain ⟨opt, hopt, hsets⟩ := docker.long_network
  have halone := docker.alone_of_mem _ opt hopt (by rw [hsets]; decide)
  rw [optionOf_eq, ← hsets]
  exact ReadsAs.each id ((step_long hopt (by decide)).1 halone) _

theorem reads_optionOf {name : Text} (h : name ∈ plainNames) (value : Option Text) :
    ReadsAs docker.grammar (optionOf ('-' :: '-' :: name) value)
      ((truthy value).toList.map fun value => (.other name, value)) := by
  rw [optionOf_eq]
  exact reads_plain h id _

theorem reads_flag {name : Text} (h : name ∈ ["rm".toList, "read-only".toList]) (given : Bool) :
    ReadsAs docker.grammar (aloneIf ('-' :: '-' :: name) given)
      (if given then [(.other name, "true".toList)] else []) := by
  cases given with
  | false => exact .nil
  | true =>
    obtain ⟨opt, hopt, halone⟩ := docker.long_flag name h
    have hsets := sets_plain (docker.named name opt hopt) (List.mem_append_left _ h)
    have hsubset : ["rm".toList, "read-only".toList] ⊆
        ["rm".toList, "read-only".toList, "network".toList] ++ plainNames := by decide
    intro given s hrun
    obtain ⟨first, s₁, later, hfirst, hlater, rfl⟩ := run_cons.mp hrun
    rw [(step_long hopt (hsubset h)).2 _ halone] at hfirst
    obtain ⟨rfl, hset⟩ := give_settings hfirst
    cases hlater
    rw [List.append_nil, hset, hsets]
    exact ⟨rfl, rfl⟩

theorem reads_letter {c : Char} {opt : Opt Setting} (hc : c ≠ '-')
    (hopt : docker.grammar.short c = some opt) (halone : opt.alone = none) {α : Type}
    (value : α → Text) (items : List α) :
    ReadsAs docker.grammar (eachOption ['-', c] value items)
      (items.map fun item => (opt.sets, value item)) :=
  ReadsAs.each value (step_letter hc hopt halone) items

/-! ## The command, read -/

/-- The options before the extra arguments. -/
def headOptions (cfg : ContainerRunnerConfig) (args : CommandArgs) : List Text :=
  aloneIf "--rm" true ++ eachOption "--name" id [runName args.jobId] ++
    optionOf "--network" (args.effectiveNetwork cfg)

/-- The options after them, when hardened. -/
def tailOptions (host : Host) (cfg : ContainerRunnerConfig) (files : JobFiles)
    (args : CommandArgs) : List Text :=
  (eachOption "--cap-drop" id ["ALL"] ++
    (eachOption "--security-opt" id ["no-new-privileges:true"] ++
      (optionOf "--user" args.containerUser ++ (aloneIf "--read-only" args.readOnlyRoot ++
        (eachOption "--tmpfs" id args.tmpfsMounts ++
          eachOption "--label" (fun label => label.1 ++ '=' :: label.2) args.labels))))) ++
  (eachOption "-v" id (ownMounts host cfg files args) ++
    (eachOption "-e" id (envOptions cfg args) ++
      (eachOption "-w" id [cfg.repoDir] ++ eachOption "--entrypoint" id ["/bin/bash"])))

theorem buildOptions_hardened (hhard : args.hardened = true) :
    buildOptions host cfg files args =
      headOptions cfg args ++ (cfg.extraArgs ++ tailOptions host cfg files args) := by
  have hmounts : mountOptions host cfg files args =
      eachOption "-v" id (ownMounts host cfg files args) := by
    simp [mountOptions, ownMounts, eachOption, List.flatMap_map]
  unfold buildOptions frontOptions headOptions tailOptions
  rw [hmounts, hhard]
  simp only [hardenedOptions, if_true, List.append_assoc]

/-! ## What is accepted -/

/-- What the checks of one argument leave out. -/
structure Accepted (arg : Text) (next : Option Text) : Prop where
  flag : lower arg ∉ disallowedHardenedFlags
  pid : lower arg = "--pid".toList → next.map (lower ∘ strip) ≠ some "host".toList
  pidJoined : "--pid=".toList <+: lower arg → ¬ "host".toList <:+ lower arg
  network : lower arg = "--network".toList → next = none
  networkJoined : ¬ "--network=".toList <+: lower arg
  mount : lower arg ∈ (["-v", "--volume", "--mount"] : List Text) →
    ∀ value, next = some value → ¬ socketPath <:+: value
  mountJoined : "-v".toList <+: lower arg ∧ lower arg ≠ "-v".toList ∨
    "--volume=".toList <+: lower arg ∨ "--mount=".toList <+: lower arg →
    ¬ socketPath <:+: lower arg

theorem rejectDockerSocketMount_ok {value : Text} (h : rejectDockerSocketMount value = .ok ()) :
    ¬ socketPath <:+: value := by
  unfold rejectDockerSocketMount at h
  split at h
  · cases h
  · assumption

theorem accepted_of_ok {arg : Text} {next : Option Text} (h : validateArg arg next = .ok ()) :
    Accepted arg next := by
  unfold validateArg at h
  dsimp only at h
  split at h
  · cases h
  · rename_i hflag
    split at h
    · cases h
    · rename_i hpid
      split at h
      · cases h
      · rename_i hnetwork
        obtain ⟨hflag, -⟩ := not_or.mp hflag
        obtain ⟨hpid, hpidJoined⟩ := not_or.mp hpid
        obtain ⟨hnetwork, hnetworkJoined⟩ := not_or.mp hnetwork
        have hmount : (lower arg ∈ (["-v", "--volume", "--mount"] : List Text) →
              next.elim (.ok ()) rejectDockerSocketMount = .ok ()) ∧
            (if "-v".toList <+: lower arg ∧ lower arg ≠ "-v".toList ∨
                "--volume=".toList <+: lower arg ∨ "--mount=".toList <+: lower arg then
              rejectDockerSocketMount (lower arg) else .ok ()) = .ok () := by
          split at h
          · obtain ⟨⟨⟩, hnext, hjoined⟩ := Lib.bind_ok h
            exact ⟨fun _ => hnext, hjoined⟩
          · rename_i hnot
            exact ⟨fun hmem => absurd hmem hnot, h⟩
        refine ⟨hflag, fun harg hnext => hpid ⟨harg, hnext⟩, fun harg hend => hpidJoined ⟨harg, hend⟩,
          fun harg => ?_, hnetworkJoined, fun harg value hnext => ?_, fun hjoined => ?_⟩
        · exact Option.not_isSome_iff_eq_none.mp fun hnext => hnetwork ⟨harg, hnext⟩
        · have hvalue := hmount.1 harg
          rw [hnext] at hvalue
          exact rejectDockerSocketMount_ok hvalue
        · have harg := hmount.2
          rw [if_pos hjoined] at harg
          exact rejectDockerSocketMount_ok harg

/-- Every argument is checked, together with the one after it. -/
theorem accepted_of_mem {extra before rest : List Text} {arg : Text}
    (h : validateArgs extra = .ok ()) (hextra : extra = before ++ arg :: rest)
    (hne : strip arg ≠ []) : Accepted (strip arg) (rest.head?.map strip) := by
  subst hextra
  induction before with
  | nil =>
    rw [List.nil_append, validateArgs, if_pos hne] at h
    obtain ⟨⟨⟩, hfirst, -⟩ := Lib.bind_ok h
    exact accepted_of_ok hfirst
  | cons other before ih =>
    rw [List.cons_append, validateArgs] at h
    split at h
    · obtain ⟨⟨⟩, -, hrest⟩ := Lib.bind_ok h
      exact ih hrest
    · exact ih h

section Overlooked

variable {extra : List Text} {o : Given Setting}

theorem arg_cons (h : docker.grammar.Spells o) : ∃ t, o.arg = '-' :: t := by
  cases h with
  | _ => exact ⟨_, rfl⟩

/-- The argument of an option has been checked, with the value if that is the one after it. -/
theorem accepted_given (hok : validateArgs extra = .ok ()) (hspells : docker.grammar.Spells o)
    (hstands : o.standing <:+: extra) :
    ∃ next, Accepted (strip o.arg) next ∧ (o.apart = true → next = some (strip o.value)) := by
  have hne : strip o.arg ≠ [] := by
    obtain ⟨t, ht⟩ := arg_cons hspells
    have hprefix : "-".toList <+: strip o.arg :=
      Lib.prefix_trim (no_space_of_all (by decide)) (ht ▸ ⟨t, rfl⟩)
    intro hnil
    rw [hnil] at hprefix
    exact absurd hprefix (by decide)
  obtain ⟨before, after, hextra⟩ := hstands
  unfold Given.standing at hextra
  split at hextra
  · have hsplit : extra = before ++ o.arg :: (o.value :: after) := by
      rw [← hextra, List.append_assoc]
      rfl
    exact ⟨_, accepted_of_mem hok hsplit hne, fun _ => rfl⟩
  · rename_i hapart
    have hsplit : extra = before ++ o.arg :: after := by
      rw [← hextra, List.append_assoc]
      rfl
    exact ⟨_, accepted_of_mem hok hsplit hne, fun h => absurd h hapart⟩

theorem privileged_joined (hok : validateArgs extra = .ok ()) (hspells : docker.grammar.Spells o)
    (hstands : o.standing <:+: extra) : o.arg ≠ "--privileged".toList := by
  obtain ⟨next, haccepted, -⟩ := accepted_given hok hspells hstands
  intro harg
  rw [harg] at haccepted
  exact haccepted.flag (by decide)

/-- The names of an option that takes a value. -/
theorem spells_value (hspells : docker.grammar.Spells o)
    (hsets : o.sets ∈ [.network, .pid, .volume, .mount]) :
    (∃ name ∈ o.sets.names, o.arg = '-' :: '-' :: (name ++ '=' :: o.value) ∧ o.apart = false ∨
      o.arg = '-' :: '-' :: name ∧ o.apart = true) ∨
    o.sets = .volume ∧ (o.apart = false → o.value <:+: o.arg) := by
  have hletter {c : Char} {opt : Opt Setting} (hopt : docker.grammar.short c = some opt)
      (hsets : opt.sets ∈ [.network, .pid, .volume, .mount]) :
      opt.sets = .volume ∧ opt.alone = none := by
    rcases docker.letters c opt hopt with hvolume | ⟨name, hother⟩
    · exact hvolume
    · rw [hother] at hsets
      simp at hsets
  cases hspells with
  | alone hopt halone =>
    rw [docker.alone_of_mem _ _ hopt hsets] at halone
    cases halone
  | joined hopt => exact Or.inl ⟨_, docker.named _ _ hopt, Or.inl ⟨rfl, rfl⟩⟩
  | apart hopt _ => exact Or.inl ⟨_, docker.named _ _ hopt, Or.inr ⟨rfl, rfl⟩⟩
  | letter hopt hvalue =>
    obtain ⟨hvolume, halone⟩ := hletter hopt hsets
    refine Or.inr ⟨hvolume, fun _ => ?_⟩
    rcases hvalue with hvalue | hvalue
    · rw [halone] at hvalue
      cases hvalue
    · refine hvalue.isInfix.trans (List.IsSuffix.isInfix ?_)
      exact ((List.suffix_cons _ _).trans (List.suffix_append _ _)).trans (List.suffix_cons _ _)
  | letterApart hopt _ => exact Or.inr ⟨(hletter hopt hsets).1, nofun⟩

theorem prefix_lower_strip {p arg : Text} (hp : p.all (fun c => !isSpace c) = true)
    (h : p <+: lower arg) : p <+: lower (strip arg) := by
  rw [← strip_lower]
  exact Lib.prefix_trim (no_space_of_all hp) h

/-- A network that is accepted is given by the other name. -/
theorem net_of_accepted (hok : validateArgs extra = .ok ()) (hspells : docker.grammar.Spells o)
    (hstands : o.standing <:+: extra) (hsets : o.sets = .network) :
    "--net".toList = o.arg ∨ "--net=".toList <+: o.arg := by
  obtain ⟨next, haccepted, hnext⟩ := accepted_given hok hspells hstands
  rcases spells_value hspells (by rw [hsets]; decide) with ⟨name, hname, h⟩ | ⟨hvolume, -⟩
  · rw [hsets] at hname
    rcases List.mem_pair.mp hname with rfl | rfl
    · exfalso
      rcases h with ⟨harg, -⟩ | ⟨harg, hapart⟩
      · refine haccepted.networkJoined (prefix_lower_strip (by decide) ?_)
        rw [harg]
        exact ⟨lower o.value, rfl⟩
      · rw [hnext hapart] at haccepted
        have hnone := haccepted.network (by rw [harg]; decide)
        cases hnone
    · rcases h with ⟨harg, -⟩ | ⟨harg, -⟩
      · refine Or.inr ?_
        rw [harg]
        exact ⟨o.value, rfl⟩
      · exact Or.inl harg.symm
  · rw [hsets] at hvolume
    cases hvolume

theorem pid_of_accepted (hok : validateArgs extra = .ok ()) (hspells : docker.grammar.Spells o)
    (hstands : o.standing <:+: extra) (hsets : o.sets = .pid) : o.value ≠ "host".toList := by
  obtain ⟨next, haccepted, hnext⟩ := accepted_given hok hspells hstands
  intro hhost
  rcases spells_value hspells (by rw [hsets]; decide) with ⟨name, hname, h⟩ | ⟨hvolume, -⟩
  · rw [hsets] at hname
    cases List.mem_singleton.mp hname
    rcases h with ⟨harg, -⟩ | ⟨harg, hapart⟩
    · rw [hhost] at harg
      rw [harg] at haccepted
      exact haccepted.pidJoined (by decide) (by decide)
    · refine haccepted.pid (by rw [harg]; decide) ?_
      rw [hnext hapart, hhost]
      decide
  · rw [hsets] at hvolume
    cases hvolume

/-- A value that is looked at has not the path of the socket. -/
theorem looked_of_accepted (hok : validateArgs extra = .ok ()) (hspells : docker.grammar.Spells o)
    (hstands : o.standing <:+: extra) (hsets : o.sets = .volume ∨ o.sets = .mount)
    (hlooked : Looked o) : ¬ socketPath <:+: o.value := by
  obtain ⟨next, haccepted, hnext⟩ := accepted_given hok hspells hstands
  intro hpath
  have hsolid : ∀ c ∈ socketPath, isSpace c = false := no_space_of_all (by decide)
  unfold Looked at hlooked
  split at hlooked
  · rename_i hapart
    have hself : ∀ flag ∈ (["-v", "--volume", "--mount"] : List Text), strip flag = flag := by decide
    have harg : lower (strip o.arg) ∈ (["-v", "--volume", "--mount"] : List Text) := by
      rwa [← strip_lower, hself _ hlooked]
    exact haccepted.mount harg _ (hnext hapart) (Lib.infix_trim hsolid hpath)
  · rename_i hapart
    have hmem : o.sets ∈ [.network, .pid, .volume, .mount] := by
      rcases hsets with hsets | hsets <;> rw [hsets] <;> decide
    have hvalue : o.value <:+: o.arg := by
      rcases spells_value hspells hmem with ⟨name, -, ⟨harg, -⟩ | ⟨-, htrue⟩⟩ | ⟨-, hvalue⟩
      · rw [harg]
        exact ((List.suffix_cons _ _).trans ((List.suffix_append _ _).trans
          ((List.suffix_cons _ _).trans (List.suffix_cons _ _)))).isInfix
      · exact absurd htrue hapart
      · exact hvalue (Bool.eq_false_iff.mpr hapart)
    have hin : socketPath <:+: lower (strip o.arg) := by
      rw [← strip_lower]
      refine Lib.infix_trim hsolid ?_
      have hlower : lower socketPath = socketPath := by decide
      rw [← hlower]
      exact (hpath.trans hvalue).map _
    refine haccepted.mountJoined ?_ hin
    rcases hlooked with h | h | h
    · refine Or.inl ⟨prefix_lower_strip (by decide) h, fun hv => ?_⟩
      rw [hv] at hin
      exact absurd hin (by decide)
    · exact Or.inr (Or.inl (prefix_lower_strip (by decide) h))
    · exact Or.inr (Or.inr (prefix_lower_strip (by decide) h))

end Overlooked

/-! ## What docker reads -/

section Whole

variable {given : List (Given Setting)} {s s' : State Setting}

/-- What the options before the extra arguments set. -/
def headSettings (cfg : ContainerRunnerConfig) (args : CommandArgs) : List (Setting × Text) :=
  [(.other "rm".toList, "true".toList), (.other "name".toList, runName args.jobId)] ++
    (truthy (args.effectiveNetwork cfg)).toList.map fun value => (.network, value)

theorem reads_head : ReadsAs docker.grammar (headOptions cfg args) (headSettings cfg args) :=
  ((@reads_flag docker "rm" (by decide) true).append
    (@reads_plain docker "name" (by decide) _ id [runName args.jobId])).append (reads_network _)

/-- A setting that has nothing to do with the hardening. -/
def Idle (docker : DockerRun) (setting : Setting × Text) : Prop :=
  (∃ name, setting.1 = .other name) ∧ docker.mountsSocket setting.1 setting.2 = false

theorem idle_of_mem {name : Text} (h : name ∈ ["rm".toList, "read-only".toList, "env".toList,
    "workdir".toList] ++ plainNames) (value : Text) : Idle docker (.other name, value) :=
  ⟨⟨name, rfl⟩, docker.mountsSocket_plain name h value⟩

theorem idle_map {name : Text} (h : name ∈ ["rm".toList, "read-only".toList, "env".toList,
    "workdir".toList] ++ plainNames) {α : Type} (value : α → Text) (items : List α) :
    ∀ setting ∈ items.map fun item => (Setting.other name, value item), Idle docker setting := by
  intro setting hmem
  obtain ⟨item, -, rfl⟩ := List.mem_map.mp hmem
  exact idle_of_mem h _

/-- The options after the extra arguments set the mounts, and nothing of the hardening. -/
theorem reads_tail : ∃ before after, ReadsAs docker.grammar (tailOptions host cfg files args)
    (before ++ ((ownMounts host cfg files args).map (fun value => (.volume, value)) ++ after)) ∧
      (∀ setting ∈ before, Idle docker setting) ∧ ∀ setting ∈ after, Idle docker setting := by
  obtain ⟨v, hv, hvolume⟩ := docker.short_v
  obtain ⟨e, he, henv, healone⟩ := docker.short_e
  obtain ⟨w, hw, hworkdir, hwalone⟩ := docker.short_w
  have halone : v.alone = none := by
    rcases docker.letters _ _ hv with h | ⟨name, h⟩
    · exact h.2
    · rw [hvolume] at h
      cases h
  have hvolumes := reads_letter (by decide) hv halone id (ownMounts host cfg files args)
  have henvs := reads_letter (by decide) he healone id (envOptions cfg args)
  have hdir := reads_letter (by decide) hw hwalone id [cfg.repoDir]
  rw [hvolume] at hvolumes
  rw [henv] at henvs
  rw [hworkdir] at hdir
  have hbefore := (@reads_plain docker "cap-drop" (by decide) _ id ["ALL"]).append
    ((@reads_plain docker "security-opt" (by decide) _ id ["no-new-privileges:true"]).append
      ((@reads_optionOf docker "user" (by decide) args.containerUser).append
        ((@reads_flag docker "read-only" (by decide) args.readOnlyRoot).append
          ((@reads_plain docker "tmpfs" (by decide) _ id args.tmpfsMounts).append
            (@reads_plain docker "label" (by decide) _ (fun label => label.1 ++ '=' :: label.2)
              args.labels)))))
  have hafter := henvs.append
    (hdir.append (@reads_plain docker "entrypoint" (by decide) _ id ["/bin/bash"]))
  refine ⟨_, _, hbefore.append (hvolumes.append hafter), ?_, ?_⟩
  · simp only [List.forall_mem_append]
    refine ⟨idle_map (by decide) _ _, idle_map (by decide) _ _, idle_map (by decide) _ _, ?_,
      idle_map (by decide) _ _, idle_map (by decide) _ _⟩
    split
    · exact List.forall_mem_singleton.mpr (idle_of_mem (by decide) _)
    · exact fun _ h => absurd h List.not_mem_nil
  · simp only [List.forall_mem_append]
    exact ⟨idle_map (by decide) _ _, idle_map (by decide) _ _, idle_map (by decide) _ _⟩

/-- What follows the extra arguments sets, by where they leave docker. -/
inductive Follows (docker : DockerRun) (mounts : List Text) :
    State Setting → List (Setting × Text) → Prop
  | ended : Follows docker mounts .ended []
  /-- the last option takes `--cap-drop`, and `ALL` is the image -/
  | waits (arg : Text) (opt : Opt Setting) :
      Follows docker mounts (.waits arg opt) [(opt.sets, "--cap-drop".toList)]
  | options {before after : List (Setting × Text)} (hbefore : ∀ setting ∈ before, Idle docker setting)
      (hafter : ∀ setting ∈ after, Idle docker setting) :
      Follows docker mounts .options
        (before ++ (mounts.map (fun value => (.volume, value)) ++ after))

theorem step_plain {arg : Text} (h : ¬ "-".toList <+: arg) :
    g.step .options arg = some ([], .ended) := by
  unfold Grammar.step
  split
  · rfl
  · rename_i heq
    cases heq
  · rfl
  · exact absurd ⟨_, rfl⟩ h
  · exact absurd ⟨_, rfl⟩ h
  · rfl

theorem run_rest {rest : List Text} (himage : ¬ "-".toList <+: cfg.image)
    (h : docker.grammar.run s (tailOptions host cfg files args ++ cfg.image :: rest) =
      some (given, s')) :
    Follows docker (ownMounts host cfg files args) s (settingsOf given) := by
  cases s with
  | ended =>
    rw [run_ended] at h
    cases h
    exact .ended
  | waits arg opt =>
    obtain ⟨more, hmore⟩ : ∃ more, tailOptions host cfg files args ++ cfg.image :: rest =
        "--cap-drop".toList :: "ALL".toList :: more := ⟨_, rfl⟩
    rw [hmore] at h
    obtain ⟨first, s₁, later, hgive, hlater, rfl⟩ := run_cons.mp h
    obtain ⟨rfl, hset⟩ := give_settings hgive
    obtain ⟨none, s₂, last, hplain, hlast, rfl⟩ := run_cons.mp hlater
    rw [step_plain (by decide)] at hplain
    cases hplain
    rw [run_ended] at hlast
    cases hlast
    rw [List.append_nil, List.append_nil, hset]
    exact .waits arg opt
  | options =>
    obtain ⟨before, after, hreads, hbefore, hafter⟩ := @reads_tail docker host cfg files args
    obtain ⟨first, s₁, later, hfirst, hlater, rfl⟩ := run_append.mp h
    obtain ⟨rfl, hsettings⟩ := hreads _ _ hfirst
    obtain ⟨none, s₂, last, hplain, hlast, rfl⟩ := run_cons.mp hlater
    rw [step_plain himage] at hplain
    cases hplain
    rw [run_ended] at hlast
    cases hlast
    rw [List.append_nil, List.append_nil, hsettings]
    exact .options hbefore hafter

/-- docker's options are the call's name and network, the extra arguments, and what follows. -/
theorem run_command {cmd : Command} {container : Container} (hhard : args.hardened = true)
    (himage : ¬ "-".toList <+: cfg.image)
    (hok : buildContainerCommand host cfg files args = .ok cmd)
    (hrun : docker.run cmd.argv = some container) :
    ∃ given s later, docker.grammar.run .options cfg.extraArgs = some (given, s) ∧
      Follows docker (ownMounts host cfg files args) s later ∧
      container = docker.container (headSettings cfg args ++ (settingsOf given ++ later)) := by
  obtain ⟨⟨⟩, -, hcmd⟩ := Lib.bind_ok hok
  cases hcmd
  unfold DockerRun.run at hrun
  split at hrun
  · rename_i all s' hall
    have hargs : (Command.argv ⟨host.dockerBin, buildOptions host cfg files args, cfg.image,
        "-lc".toList :: host.innerCmd cfg :: "container-runner".toList :: args.cliArgs,
        runName args.jobId⟩).drop 2 = headOptions cfg args ++ (cfg.extraArgs ++
          (tailOptions host cfg files args ++ cfg.image :: "-lc".toList :: host.innerCmd cfg ::
            "container-runner".toList :: args.cliArgs)) := by
      show buildOptions host cfg files args ++ _ = _
      rw [buildOptions_hardened hhard, List.append_assoc, List.append_assoc]
    rw [hargs] at hall
    obtain ⟨first, s₁, both, hhead, hboth, rfl⟩ := run_append.mp hall
    obtain ⟨rfl, hsettings⟩ := reads_head _ _ hhead
    obtain ⟨given, s, last, hextra, hlast, rfl⟩ := run_append.mp hboth
    split at hrun
    · cases hrun
      refine ⟨given, s, settingsOf last, hextra, run_rest himage hlast, ?_⟩
      rw [← hsettings]
      simp only [settingsOf, List.map_append]
    · cases hrun
  · cases hrun

/-- What follows the extra arguments has no bearing on the hardening but by the mounts. -/
theorem Follows.mem {mounts : List Text} {later : List (Setting × Text)}
    (h : Follows docker mounts s later) (hsound : docker.grammar.Sound s) :
    ∀ setting ∈ later, Idle docker setting ∨
      (setting.1 ≠ .privileged ∧ setting.2 = "--cap-drop".toList) ∨
      (s = .options ∧ setting.1 = .volume ∧ setting.2 ∈ mounts) := by
  intro setting hmem
  cases h with
  | ended => cases hmem
  | waits arg opt =>
    rw [List.mem_singleton.mp hmem]
    refine Or.inr (Or.inl ⟨fun hprivileged => ?_, rfl⟩)
    have hspells := hsound arg opt rfl []
    generalize ho : (⟨arg, true, opt.sets, []⟩ : Given Setting) = o at hspells
    cases hspells with
    | alone hopt halone => cases ho
    | joined hopt => cases ho
    | letter hopt hvalue => cases ho
    | apart hopt halone =>
      have hsets := congrArg Given.sets ho
      rw [docker.alone_privileged _ _ hopt (hsets.symm.trans hprivileged)] at halone
      cases halone
    | letterApart hopt halone =>
      have hsets := (congrArg Given.sets ho).symm.trans hprivileged
      rcases docker.letters _ _ hopt with ⟨hvolume, -⟩ | ⟨name, hother⟩
      · exact absurd (hvolume.symm.trans hsets) (by decide)
      · exact absurd (hother.symm.trans hsets) Setting.noConfusion
  | options hbefore hafter =>
    rcases List.mem_append.mp hmem with hmem | hmem
    · exact Or.inl (hbefore _ hmem)
    · rcases List.mem_append.mp hmem with hmem | hmem
      · obtain ⟨value, hvalue, rfl⟩ := List.mem_map.mp hmem
        exact Or.inr (Or.inr ⟨rfl, rfl, hvalue⟩)
      · exact Or.inl (hafter _ hmem)

theorem Follows.mounts {mounts : List Text} {later : List (Setting × Text)}
    (h : Follows docker mounts .options later) : ∀ value ∈ mounts, (Setting.volume, value) ∈ later := by
  intro value hvalue
  cases h
  exact List.mem_append_right _ (List.mem_append_left _ (List.mem_map_of_mem hvalue))

end Whole

/-! ## The condition -/

section Condition

variable {given : List (Given Setting)} {s : State Setting} {later : List (Setting × Text)}
  {settings more : List (Setting × Text)}

theorem lastValue_append {sets : Setting} (hhead : ∀ setting ∈ settings, setting.1 ≠ sets)
    (hlater : ∀ setting ∈ later, setting.1 ≠ sets) :
    lastValue sets (settings ++ (more ++ later)) = lastValue sets more := by
  have hnil {l : List (Setting × Text)} (h : ∀ setting ∈ l, setting.1 ≠ sets) :
      l.filter (·.1 = sets) = [] :=
    List.filter_eq_nil_iff.mpr fun setting hmem => by simpa using h setting hmem
  unfold lastValue
  rw [List.filter_append, List.filter_append, hnil hhead, hnil hlater, List.nil_append,
    List.append_nil]

theorem lastValue_settingsOf (sets : Setting) : lastValue sets (settingsOf given) =
    ((given.filter (·.sets = sets)).getLast?).map (·.value) := by
  unfold lastValue settingsOf
  rw [List.filter_map, List.getLast?_map, Option.map_map]
  rfl

theorem mem_of_lastValue {sets : Setting} {value : Text}
    (h : lastValue sets settings = some value) : (sets, value) ∈ settings := by
  obtain ⟨setting, hlast, rfl⟩ := Option.map_eq_some_iff.mp h
  have hmem := List.mem_of_getLast? hlast
  rw [List.mem_filter] at hmem
  rw [← of_decide_eq_true hmem.2]
  exact hmem.1

theorem mem_settingsOf {setting : Setting × Text} :
    setting ∈ settingsOf given ↔ ∃ o ∈ given, (o.sets, o.value) = setting := List.mem_map

theorem mem_headSettings (docker : DockerRun) {setting : Setting × Text} (h : setting ∈ headSettings cfg args) :
    Idle docker setting ∨
      setting.1 = .network ∧ truthy (args.effectiveNetwork cfg) = some setting.2 := by
  rcases List.mem_append.mp h with h | h
  · rcases List.mem_pair.mp h with rfl | rfl
    · exact Or.inl (idle_of_mem (by decide) _)
    · exact Or.inl (idle_of_mem (by decide) _)
  · obtain ⟨value, hvalue, rfl⟩ := List.mem_map.mp h
    exact Or.inr ⟨rfl, Option.mem_toList.mp hvalue⟩

theorem Idle.ne {setting : Setting × Text} (h : Idle docker setting) {sets : Setting}
    (hsets : ∀ name, sets ≠ .other name) : setting.1 ≠ sets := by
  obtain ⟨⟨name, hname⟩, -⟩ := h
  rw [hname]
  exact (hsets name).symm

section Parts

variable {mounts : List Text} (hlater : ∀ setting ∈ later, Idle docker setting ∨
  (setting.1 ≠ .privileged ∧ setting.2 = "--cap-drop".toList) ∨
  (s = .options ∧ setting.1 = .volume ∧ setting.2 ∈ mounts))

include hlater

theorem privileged_iff :
    (docker.container (headSettings cfg args ++ (settingsOf given ++ later))).privileged = false ↔
      ∀ o, (given.filter (·.sets = .privileged)).getLast? = some o →
        readBool o.value ≠ some true := by
  have hhead : ∀ setting ∈ headSettings cfg args, setting.1 ≠ .privileged := by
    intro setting hmem
    rcases mem_headSettings docker hmem with hidle | ⟨hnetwork, -⟩
    · exact hidle.ne nofun
    · rw [hnetwork]
      decide
  have hrest : ∀ setting ∈ later, setting.1 ≠ .privileged := by
    intro setting hmem
    rcases hlater setting hmem with hidle | ⟨hne, -⟩ | ⟨-, hvolume, -⟩
    · exact hidle.ne nofun
    · exact hne
    · rw [hvolume]
      decide
  show (lastValue .privileged _).any _ = false ↔ _
  rw [lastValue_append hhead hrest, lastValue_settingsOf]
  cases (given.filter (·.sets = .privileged)).getLast? with
  | none => simp
  | some o => simp

theorem hostNetwork_iff :
    (docker.container (headSettings cfg args ++ (settingsOf given ++ later))).hostNetwork = false ↔
      (∀ value, truthy (args.effectiveNetwork cfg) = some value →
        docker.networkName value ≠ "host") ∧
      ∀ o ∈ given, o.sets = .network → docker.networkName o.value ≠ "host" := by
  show List.any _ _ = false ↔ _
  rw [List.any_eq_false]
  simp only [decide_eq_true_eq, not_and]
  constructor
  · intro h
    refine ⟨fun value hvalue => ?_, fun o ho hsets => ?_⟩
    · refine h (.network, value) (List.mem_append_left _ (List.mem_append_right _ ?_)) rfl
      exact List.mem_map_of_mem (Option.mem_toList.mpr hvalue)
    · refine h (o.sets, o.value) (List.mem_append_right _ (List.mem_append_left _ ?_)) hsets
      exact mem_settingsOf.mpr ⟨o, ho, rfl⟩
  · rintro ⟨hcall, hgiven⟩ setting hmem hsets
    rcases List.mem_append.mp hmem with hmem | hmem
    · rcases mem_headSettings docker hmem with hidle | ⟨-, hvalue⟩
      · exact absurd hsets (hidle.ne nofun)
      · exact hcall _ hvalue
    · rcases List.mem_append.mp hmem with hmem | hmem
      · obtain ⟨o, ho, rfl⟩ := mem_settingsOf.mp hmem
        exact hgiven o ho hsets
      · rcases hlater setting hmem with hidle | ⟨-, hvalue⟩ | ⟨-, hvolume, -⟩
        · exact absurd hsets (hidle.ne nofun)
        · rw [hvalue, docker.networkName_plain _ (by decide)]
          decide
        · rw [hvolume] at hsets
          cases hsets

theorem hostPid_eq (hpid : ∀ o ∈ given, o.sets = .pid → o.value ≠ "host".toList) :
    (docker.container (headSettings cfg args ++ (settingsOf given ++ later))).hostPid = false := by
  show (lastValue .pid _).any _ = false
  cases hlast : lastValue .pid (headSettings cfg args ++ (settingsOf given ++ later)) with
  | none => rfl
  | some value =>
    have hne : value ≠ "host".toList := by
      rcases List.mem_append.mp (mem_of_lastValue hlast) with hmem | hmem
      · rcases mem_headSettings docker hmem with hidle | ⟨hnetwork, -⟩
        · exact absurd rfl (hidle.ne nofun)
        · cases hnetwork
      · rcases List.mem_append.mp hmem with hmem | hmem
        · obtain ⟨o, ho, heq⟩ := mem_settingsOf.mp hmem
          obtain ⟨hsets, rfl⟩ := Prod.mk.inj heq
          exact hpid o ho hsets
        · rcases hlater _ hmem with hidle | ⟨-, hvalue⟩ | ⟨-, hvolume, -⟩
          · exact absurd rfl (hidle.ne nofun)
          · rw [show value = "--cap-drop".toList from hvalue]
            decide
          · cases hvolume
    simpa using hne

theorem dockerSocket_iff (hown : s = .options → ∀ value ∈ mounts, (Setting.volume, value) ∈ later) :
    (docker.container (headSettings cfg args ++ (settingsOf given ++ later))).dockerSocket = false ↔
      (∀ o ∈ given, docker.mountsSocket o.sets o.value = false) ∧
      (s = .options → ∀ value ∈ mounts, docker.mountsSocket .volume value = false) := by
  show List.any _ _ = false ↔ _
  rw [List.any_eq_false]
  simp only [Bool.not_eq_true]
  constructor
  · intro h
    refine ⟨fun o ho => ?_, fun hs value hvalue => ?_⟩
    · exact h (o.sets, o.value) (List.mem_append_right _ (List.mem_append_left _
        (mem_settingsOf.mpr ⟨o, ho, rfl⟩)))
    · exact h (.volume, value) (List.mem_append_right _ (List.mem_append_right _
        (hown hs value hvalue)))
  · rintro ⟨hgiven, hmounts⟩ setting hmem
    rcases List.mem_append.mp hmem with hmem | hmem
    · rcases mem_headSettings docker hmem with hidle | ⟨hnetwork, hvalue⟩
      · exact hidle.2
      · rw [hnetwork]
        exact docker.mountsSocket_network _
    · rcases List.mem_append.mp hmem with hmem | hmem
      · obtain ⟨o, ho, rfl⟩ := mem_settingsOf.mp hmem
        exact hgiven o ho
      · rcases hlater setting hmem with hidle | ⟨-, hvalue⟩ | ⟨hs, hvolume, hvalue⟩
        · exact hidle.2
        · rw [hvalue]
          exact docker.mountsSocket_option _
        · rw [hvolume]
          exact hmounts hs _ hvalue

end Parts

/-- **What the checks overlook**: the container of an accepted command is hardened if and only if
    the extra arguments, as docker reads them, use nothing of it. -/
theorem hardened_iff {cmd : Command} {container : Container} (hhard : args.hardened = true)
    (himage : ¬ "-".toList <+: cfg.image)
    (hok : buildContainerCommand host cfg files args = .ok cmd)
    (hrun : docker.run cmd.argv = some container) :
    container.Hardened ↔ ∃ given s, docker.grammar.run .options cfg.extraArgs = some (given, s) ∧
      Tight docker host cfg files args given s := by
  obtain ⟨given, s, later, hextra, hfollows, rfl⟩ := run_command hhard himage hok hrun
  obtain ⟨hstands, hsound⟩ := run_stands sound_options hextra
  have hlater := hfollows.mem hsound
  -- the checks have been passed
  obtain ⟨⟨⟩, hvalid, -⟩ := Lib.bind_ok hok
  unfold validateHardenedContainerRequest at hvalid
  rw [if_neg (by rw [hhard]; decide)] at hvalid
  split at hvalid
  · cases hvalid
  · rename_i hnetwork
    obtain ⟨⟨⟩, hargs, -⟩ := Lib.bind_ok hvalid
    have hpassed : ∀ o ∈ given, docker.grammar.Spells o ∧ o.standing <:+: cfg.extraArgs := hstands
    constructor
    · intro h
      obtain ⟨hcall, hnets⟩ := (hostNetwork_iff hlater).mp h.hostNetwork
      obtain ⟨hmounts, hown⟩ := (dockerSocket_iff hlater fun hs => (hs ▸ hfollows).mounts).mp
        h.dockerSocket
      refine ⟨given, s, hextra, ?_, fun o ho hsets _ => hnets o ho hsets,
        fun value hvalue _ => hcall value hvalue, fun o ho hsocket => ?_, hown⟩
      · exact fun o ho _ => (privileged_iff hlater).mp h.privileged o ho
      · rw [hmounts o ho] at hsocket
        cases hsocket
    · rintro ⟨given', s', hextra', htight⟩
      rw [hextra] at hextra'
      cases hextra'
      refine ⟨(privileged_iff hlater).mpr fun o ho => ?_, (hostNetwork_iff hlater).mpr ⟨?_, ?_⟩,
        hostPid_eq hlater fun o ho hsets => ?_,
        (dockerSocket_iff hlater fun hs => (hs ▸ hfollows).mounts).mpr ⟨fun o ho => ?_, htight.own⟩⟩
      · have hmem : o ∈ given := List.mem_of_mem_filter (List.mem_of_getLast? ho)
        exact htight.privileged o ho (privileged_joined hargs (hpassed o hmem).1 (hpassed o hmem).2)
      · -- a plain name has been compared, the fields of another have not
        intro value hvalue
        by_cases hfields : '=' ∈ value
        · exact htight.network value hvalue hfields
        · rw [docker.networkName_plain value hfields]
          rintro rfl
          cases hcall : args.effectiveNetwork cfg with
          | none =>
            rw [hcall] at hvalue
            cases hvalue
          | some call =>
            rw [hcall] at hvalue hnetwork
            rw [(orNone_eq_some.mp hvalue).1] at hnetwork
            exact hnetwork (by decide)
      · intro o ho hsets
        refine htight.net o ho hsets ?_
        exact net_of_accepted hargs (hpassed o ho).1 (hpassed o ho).2 hsets
      · exact pid_of_accepted hargs (hpassed o ho).1 (hpassed o ho).2 hsets
      · refine Bool.eq_false_iff.mpr fun hsocket => ?_
        obtain ⟨hsets, hlooked, hpath⟩ := htight.socket o ho hsocket
        exact looked_of_accepted hargs (hpassed o ho).1 (hpassed o ho).2 hsets hlooked hpath

end Condition

end Reading

/-! ## A docker -/

section Demo

/-- An option that takes a value. -/
def valueOpt (sets : Setting) : Opt Setting := ⟨sets, none, fun _ => true⟩

def boolOpt (sets : Setting) : Opt Setting := ⟨sets, some "true", fun value => (readBool value).isSome⟩

def plainLong (name : Text) : Option (Opt Setting) :=
  if name = "privileged" then some (boolOpt .privileged)
  else if name = "network" ∨ name = "net" then some (valueOpt .network)
  else if name = "pid" then some (valueOpt .pid)
  else if name = "volume" then some (valueOpt .volume)
  else if name = "mount" then some (valueOpt .mount)
  else if name ∈ (["rm", "read-only"] : List Text) then some (boolOpt (.other name))
  else if name ∈ plainNames then some (valueOpt (.other name))
  else none

def plainShort : Char → Option (Opt Setting)
  | 'v' => some (valueOpt .volume)
  | 'e' => some (valueOpt (.other "env"))
  | 'w' => some (valueOpt (.other "workdir"))
  | 'i' => some (boolOpt (.other "interactive"))
  | 't' => some (boolOpt (.other "tty"))
  | _ => none

/-- The name in a value of `--network`, which can be one of its fields. -/
def plainNetworkName (value : Text) : Text :=
  if '=' ∈ value then
    (((value.splitOn ',').find? fun field => "name=".toList <+: field).map afterEquals).getD
      "default"
  else value

/-- A network of docker's own and another do not go together. -/
def plainStarts (given : List (Given Setting)) : Bool :=
  let networks := (given.filter (·.sets = .network)).map (plainNetworkName ·.value)
  let own (name : Text) : Bool := name ∈ (["default", "bridge", "host", "none"] : List Text)
  networks.all own || networks.all (!own ·)

def plainMountsSocket : Setting → Text → Bool
  | .volume, value => (socketPath ++ [':']) <+: value
  | .mount, value => (value.splitOn ',').any fun field =>
      field = "src=".toList ++ socketPath ∨ field = "source=".toList ++ socketPath
  | _, _ => false

/-- An option of `plainLong` is named as it should be, and has a value of its own or none. -/
theorem plainLong_spec {name : Text} {opt : Opt Setting} (h : plainLong name = some opt) :
    name ∈ opt.sets.names ∧ (opt = boolOpt .privileged ∨ opt = boolOpt (.other name) ∨
      opt = valueOpt opt.sets ∧ opt.sets ≠ .privileged) := by
  unfold plainLong at h
  split at h
  · rename_i hname
    cases h
    exact ⟨List.mem_singleton.mpr hname, Or.inl rfl⟩
  · split at h
    · rename_i hname
      cases h
      exact ⟨List.mem_pair.mpr hname, Or.inr (Or.inr ⟨rfl, by decide⟩)⟩
    · split at h
      · rename_i hname
        cases h
        exact ⟨List.mem_singleton.mpr hname, Or.inr (Or.inr ⟨rfl, by decide⟩)⟩
      · split at h
        · rename_i hname
          cases h
          exact ⟨List.mem_singleton.mpr hname, Or.inr (Or.inr ⟨rfl, by decide⟩)⟩
        · split at h
          · rename_i hname
            cases h
            exact ⟨List.mem_singleton.mpr hname, Or.inr (Or.inr ⟨rfl, by decide⟩)⟩
          · split at h
            · cases h
              exact ⟨List.mem_singleton_self _, Or.inr (Or.inl rfl)⟩
            · split at h
              · cases h
                exact ⟨List.mem_singleton_self _, Or.inr (Or.inr ⟨rfl, Setting.noConfusion⟩)⟩
              · cases h

theorem plainShort_spec {c : Char} {opt : Opt Setting} (h : plainShort c = some opt) :
    opt.sets = .volume ∧ opt.alone = none ∨ ∃ name, opt.sets = .other name := by
  unfold plainShort at h
  split at h
  · cases h
    exact Or.inl ⟨rfl, rfl⟩
  all_goals cases h
  all_goals exact Or.inr ⟨_, rfl⟩

/-- A docker with the options that are spoken of here. -/
def plainRun : DockerRun where
  grammar := ⟨plainLong, plainShort⟩
  starts := plainStarts
  networkName := plainNetworkName
  mountsSocket := plainMountsSocket
  named _ _ h := (plainLong_spec h).1
  alone_privileged name opt h hsets := by
    rcases (plainLong_spec h).2 with rfl | rfl | ⟨-, hne⟩
    · rfl
    · cases hsets
    · exact absurd hsets hne
  alone_of_mem name opt h hsets := by
    rcases (plainLong_spec h).2 with rfl | rfl | ⟨hopt, -⟩
    · exact absurd hsets (by decide)
    · simp [boolOpt] at hsets
    · rw [hopt]
      rfl
  letters _ _ h := plainShort_spec h
  long_plain := by
    intro name hname
    have hall : ∀ name ∈ plainNames, plainLong name = some (valueOpt (.other name)) := by
      unfold plainNames
      simp only [List.forall_mem_cons]
      exact ⟨rfl, rfl, rfl, rfl, rfl, rfl, rfl, fun _ h => absurd h List.not_mem_nil⟩
    exact ⟨valueOpt (.other name), hall name hname, rfl⟩
  long_flag := by
    intro name hname
    refine ⟨boolOpt (.other name), ?_, rfl⟩
    rcases List.mem_pair.mp hname with rfl | rfl
    · rfl
    · rfl
  long_network := ⟨valueOpt .network, rfl, rfl⟩
  short_v := ⟨valueOpt .volume, rfl, rfl⟩
  short_e := ⟨valueOpt (.other "env"), rfl, rfl, rfl⟩
  short_w := ⟨valueOpt (.other "workdir"), rfl, rfl, rfl⟩
  networkName_plain _ h := if_neg h
  mountsSocket_option := by
    intro sets
    cases sets with
    | other name => rfl
    | _ => decide
  mountsSocket_network _ := rfl
  mountsSocket_plain _ _ _ := rfl

def hardenedArgs : CommandArgs := { plainArgs with hardened := true }

/-- The container of these extra arguments. -/
def startedWith (extra : List Text) : Option Container :=
  (buildContainerCommand plainHost (runnerConfig extra) passwdFiles hardenedArgs).toOption.bind
    fun cmd => plainRun.run cmd.argv

theorem exists_started {extra : List Text} {container : Container}
    (h : startedWith extra = some container) : ∃ cmd,
      buildContainerCommand plainHost (runnerConfig extra) passwdFiles hardenedArgs = .ok cmd ∧
        plainRun.run cmd.argv = some container := by
  obtain ⟨cmd, hcmd, hrun⟩ := Option.bind_eq_some_iff.mp h
  exact ⟨cmd, Lib.ok_of_toOption hcmd, hrun⟩

theorem hardened_unprivileged : ∃ cmd container,
    buildContainerCommand plainHost (runnerConfig ["--privileged=false", "-v", "/srv/data:/data"])
      passwdFiles hardenedArgs = .ok cmd ∧ plainRun.run cmd.argv = some container ∧
      (container.Hardened ↔ ∃ given s, plainRun.grammar.run .options
          (["--privileged=false", "-v", "/srv/data:/data"] : List Text) = some (given, s) ∧
        Tight plainRun plainHost (runnerConfig ["--privileged=false", "-v", "/srv/data:/data"])
          passwdFiles hardenedArgs given s) := by
  have hstarted : startedWith ["--privileged=false", "-v", "/srv/data:/data"] =
      some ⟨false, false, false, false⟩ := by decide
  obtain ⟨cmd, hok, hrun⟩ := exists_started hstarted
  exact ⟨cmd, _, hok, hrun, hardened_iff rfl (by decide) hok hrun⟩

/-- `--privileged` with a value is none of the flags that are forbidden. -/
theorem privileged_by_value : ¬ ∀ (docker : DockerRun) (host : Host) (cfg : ContainerRunnerConfig)
    (files : JobFiles) (args : CommandArgs) (cmd : Command) (container : Container),
    args.hardened = true → buildContainerCommand host cfg files args = .ok cmd →
      docker.run cmd.argv = some container → container.Hardened := by
  intro hclaim
  have hstarted : startedWith ["--privileged=true"] = some ⟨true, false, false, false⟩ := by decide
  obtain ⟨cmd, hok, hrun⟩ := exists_started hstarted
  have hprivileged := (hclaim plainRun _ _ _ hardenedArgs cmd _ rfl hok hrun).privileged
  cases hprivileged

/-- The other name of `--network`, and `-v` behind other letters. -/
example : startedWith ["--net=host"] = some ⟨false, true, false, false⟩ ∧
    startedWith ["-itv", "/var/run/docker.sock:/s"] = some ⟨false, false, false, true⟩ := by decide

end Demo

end Infinito.Runner
