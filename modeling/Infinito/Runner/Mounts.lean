import Infinito.Runner.Command

/-!
# No path is mounted twice

docker's side of `build_container_command`: which options it knows, which of them take a value,
and the paths that they mount. docker cleans a path before it compares it, and it reads `--mount`,
`--tmpfs` and the options of the builder as well as those that `_declared_mount_targets` looks for.

`mounts_nodup_iff` is for extra arguments that docker accepts. The builder asks only about the
files of the job directory, and only the targets it has read: what keeps a path from being mounted
twice is that nothing else collides.
-/

set_option autoImplicit false

namespace Infinito.Runner

open Py

/-! ## docker's side -/

/-- What the builder relies on of the docker command line. -/
structure DockerCli where
  /-- For the options that mount nothing: whether they take a value. -/
  takesValue : Text → Option Bool
  validMode : Text → Bool
  cleanPath : Text → Text
  /-- The target of a value of `--mount`. -/
  mountTarget : Text → Option Text
  takesValue_rm : takesValue "--rm" = some false
  takesValue_readOnly : takesValue "--read-only" = some false
  takesValue_of_mem : ∀ flag ∈ (["--name", "--network", "--cap-drop", "--security-opt", "--user",
    "--label", "-e", "-w", "--entrypoint"] : List Text), takesValue flag = some true
  validMode_ro : validMode "ro" = true
  /-- A path of plain names from the root is clean. -/
  cleanPath_names : ∀ names, names ≠ [] → (∀ name ∈ names, IsFileName name) →
    cleanPath (names.flatMap ('/' :: ·)) = names.flatMap ('/' :: ·)

/-- What an option does with its value. -/
inductive Use where
  | volume
  | mount
  | tmpfs
  | other

/-- An option as it is spelled. -/
inductive Spelled where
  /-- with its value, or without one -/
  | alone (target : Option Text)
  /-- the value is the next argument -/
  | takes (use : Use)

/-- A target alone, `source:target`, or `source:target:mode`. -/
def DockerCli.targetOfParts (docker : DockerCli) : List Text → Option Text
  | [target] => some (docker.cleanPath target)
  | [_, target] => if docker.validMode target then none else some (docker.cleanPath target)
  | [_, target, mode] => if docker.validMode mode then some (docker.cleanPath target) else none
  | _ => none

def DockerCli.volumeTarget (docker : DockerCli) (spec : Text) : Option Text :=
  docker.targetOfParts (spec.splitOn ':')

def DockerCli.target (docker : DockerCli) : Use → Text → Option Text
  | .volume, value => docker.volumeTarget value
  | .mount, value => (docker.mountTarget value).map docker.cleanPath
  | .tmpfs, value => some (docker.cleanPath (value.takeWhile (· ≠ ':')))
  | .other, _ => none

def DockerCli.spelled (docker : DockerCli) (arg : Text) : Option Spelled :=
  if arg = "-v".toList ∨ arg = "--volume".toList then some (.takes .volume)
  else if arg = "--mount".toList then some (.takes .mount)
  else if arg = "--tmpfs".toList then some (.takes .tmpfs)
  else if "--volume=".toList <+: arg then some (.alone (docker.target .volume (afterEquals arg)))
  else if "--mount=".toList <+: arg then some (.alone (docker.target .mount (afterEquals arg)))
  else if "--tmpfs=".toList <+: arg then some (.alone (docker.target .tmpfs (afterEquals arg)))
  else if "-v=".toList <+: arg then some (.alone (docker.target .volume (afterEquals arg)))
  else if "-v".toList <+: arg then some (.alone (docker.target .volume (arg.drop 2)))
  else (docker.takesValue arg).map fun takes => if takes then .takes .other else .alone none

/-- The paths that a list of options mounts, if it is a list of options. -/
def DockerCli.readOptions (docker : DockerCli) : List Text → Option (List Text)
  | [] => some []
  | arg :: rest =>
      match docker.spelled arg with
      | none => none
      | some (.alone target) => (docker.readOptions rest).map (target.toList ++ ·)
      | some (.takes use) =>
          match rest with
          | [] => none
          | value :: rest => (docker.readOptions rest).map ((docker.target use value).toList ++ ·)

section
variable (docker : DockerCli)

@[simp] theorem readOptions_nil : docker.readOptions [] = some [] := rfl

theorem readOptions_alone {arg : Text} {target : Option Text} (rest : List Text)
    (h : docker.spelled arg = some (.alone target)) :
    docker.readOptions (arg :: rest) = (docker.readOptions rest).map (target.toList ++ ·) := by
  rw [DockerCli.readOptions, h]

theorem readOptions_takes {arg : Text} {use : Use} (value : Text) (rest : List Text)
    (h : docker.spelled arg = some (.takes use)) :
    docker.readOptions (arg :: value :: rest) =
      (docker.readOptions rest).map ((docker.target use value).toList ++ ·) := by
  rw [DockerCli.readOptions, h]

/-- Two lists of options one after the other are a list of options. -/
theorem readOptions_append {front back : List Text} {paths : List Text}
    (h : docker.readOptions front = some paths) :
    docker.readOptions (front ++ back) = (docker.readOptions back).map (paths ++ ·) := by
  induction front using @DockerCli.readOptions.induct docker generalizing paths with
  | case1 =>
    rw [readOptions_nil, Option.some.injEq] at h
    subst h
    simp
  | case2 arg rest hs =>
    rw [DockerCli.readOptions, hs] at h
    cases h
  | case3 arg rest target hs ih =>
    rw [readOptions_alone docker rest hs, Option.map_eq_some_iff] at h
    obtain ⟨later, hlater, rfl⟩ := h
    rw [List.cons_append, readOptions_alone docker _ hs, ih hlater, Option.map_map]
    congr 1
    funext more
    simp
  | case4 arg use hs =>
    rw [DockerCli.readOptions, hs] at h
    cases h
  | case5 arg use hs value rest ih =>
    rw [readOptions_takes docker value rest hs, Option.map_eq_some_iff] at h
    obtain ⟨later, hlater, rfl⟩ := h
    rw [List.cons_append, List.cons_append, readOptions_takes docker value _ hs, ih hlater,
      Option.map_map]
    congr 1
    funext more
    simp

theorem readOptions_append_some {front back paths more : List Text}
    (h : docker.readOptions front = some paths) (hb : docker.readOptions back = some more) :
    docker.readOptions (front ++ back) = some (paths ++ more) := by
  rw [readOptions_append docker h, hb]
  rfl

theorem readOptions_eachOption {α : Type} {flag : Text} {use : Use} (value : α → Text)
    (items : List α) (h : docker.spelled flag = some (.takes use)) :
    docker.readOptions (eachOption flag value items) =
      some (items.filterMap fun item => docker.target use (value item)) := by
  induction items with
  | nil => rfl
  | cons item items ih =>
    have hone : docker.readOptions (eachOption flag value (item :: items)) =
        (docker.readOptions (eachOption flag value items)).map
          ((docker.target use (value item)).toList ++ ·) :=
      readOptions_takes docker (value item) _ h
    rw [hone, ih, Option.map_some, List.filterMap_cons]
    cases docker.target use (value item) <;> rfl

/-! ## The options of the builder -/

theorem spelled_v : docker.spelled "-v" = some (.takes .volume) := rfl

theorem spelled_tmpfs : docker.spelled "--tmpfs" = some (.takes .tmpfs) := rfl

theorem spelled_other {arg : Text} {takes : Bool} (hv : ¬ "-v".toList <+: arg)
    (hvolume : ¬ "--volume".toList <+: arg) (hmount : ¬ "--mount".toList <+: arg)
    (htmpfs : ¬ "--tmpfs".toList <+: arg) (h : docker.takesValue arg = some takes) :
    docker.spelled arg = some (if takes then .takes .other else .alone none) := by
  have hlonger : ∀ {p q : Text}, ¬ p <+: arg → p <+: q → ¬ q <+: arg := fun hp hpq hq =>
    hp (hpq.trans hq)
  have hne : ∀ {p : Text}, ¬ p <+: arg → arg ≠ p := by
    rintro p hp rfl
    exact hp (List.prefix_refl _)
  unfold DockerCli.spelled
  rw [if_neg (not_or.mpr ⟨hne hv, hne hvolume⟩), if_neg (hne hmount), if_neg (hne htmpfs),
    if_neg (hlonger hvolume (by decide)), if_neg (hlonger hmount (by decide)),
    if_neg (hlonger htmpfs (by decide)), if_neg (hlonger hv (by decide)), if_neg hv, h]
  rfl

/-- The builder's options that take a value mount nothing, `-v` and `--tmpfs` apart. -/
theorem spelled_of_mem {flag : Text} (h : flag ∈ (["--name", "--network", "--cap-drop",
    "--security-opt", "--user", "--label", "-e", "-w", "--entrypoint"] : List Text)) :
    docker.spelled flag = some (.takes .other) := by
  refine spelled_other docker ?_ ?_ ?_ ?_ (docker.takesValue_of_mem flag h) <;>
    · revert flag
      decide

theorem readOptions_other {α : Type} (flag : Text) (value : α → Text) (items : List α)
    (h : flag ∈ (["--name", "--network", "--cap-drop",
      "--security-opt", "--user", "--label", "-e", "-w", "--entrypoint"] : List Text)) :
    docker.readOptions (eachOption flag value items) = some [] := by
  rw [readOptions_eachOption docker value items (spelled_of_mem docker h)]
  exact congrArg some (List.filterMap_eq_nil_iff.mpr fun _ _ => rfl)

theorem optionOf_eq (flag : Text) (value : Option Text) :
    optionOf flag value = eachOption flag id (truthy value).toList := by
  unfold optionOf eachOption
  cases truthy value <;> rfl

theorem readOptions_optionOf (flag : Text) (value : Option Text)
    (h : flag ∈ (["--name", "--network", "--cap-drop",
      "--security-opt", "--user", "--label", "-e", "-w", "--entrypoint"] : List Text)) :
    docker.readOptions (optionOf flag value) = some [] := by
  rw [optionOf_eq]
  exact readOptions_other docker flag id _ h

theorem readOptions_aloneIf {flag : Text} (given : Bool)
    (h : docker.spelled flag = some (.alone none)) :
    docker.readOptions (aloneIf flag given) = some [] := by
  cases given with
  | false => rfl
  | true => exact readOptions_alone docker [] h

theorem readOptions_hardenedOptions (hardened : Bool) :
    docker.readOptions (hardenedOptions hardened) = some [] := by
  cases hardened with
  | false => rfl
  | true =>
    exact readOptions_append_some docker
      (readOptions_other docker "--cap-drop" id ["ALL"] (by decide))
      (readOptions_other docker "--security-opt" id ["no-new-privileges:true"] (by decide))

theorem spelled_rm : docker.spelled "--rm" = some (.alone none) :=
  spelled_other docker (by decide) (by decide) (by decide) (by decide) docker.takesValue_rm

theorem spelled_readOnly : docker.spelled "--read-only" = some (.alone none) :=
  spelled_other docker (by decide) (by decide) (by decide) (by decide) docker.takesValue_readOnly

end

/-! ## What the command mounts -/

section
variable (docker : DockerCli) (host : Host) (cfg : ContainerRunnerConfig) (files : JobFiles)
  (args : CommandArgs)

def tmpfsPaths : List Text := args.tmpfsMounts.filterMap (docker.target .tmpfs)

def workdirPath : Option Text := docker.volumeTarget (host.hostJobDir ++ ':' :: cfg.workdir)

/-- Where docker mounts a file of the job directory. -/
def ownPath (file : OwnFile) : Option Text := docker.volumeTarget (file.spec host.hostJobDir)

def bindPaths : List Text :=
  args.bindMounts.filterMap fun mount =>
    docker.volumeTarget (mountValue (host.hostMountSource mount.source) mount)

def volumePaths : List Text :=
  args.volumeMounts.filterMap fun mount => docker.volumeTarget (mountValue mount.source mount)

theorem filterMap_singleton {α β : Type} (f : α → Option β) (a : α) :
    [a].filterMap f = (f a).toList := by
  rw [List.filterMap_cons]
  cases f a <;> rfl

/-- The options before the mounts of the job directory. -/
theorem readOptions_front {extra : List Text}
    (h : docker.readOptions cfg.extraArgs = some extra) :
    docker.readOptions (frontOptions cfg args) = some (extra ++ tmpfsPaths docker args) := by
  have hname := readOptions_append_some docker (readOptions_aloneIf docker true (spelled_rm docker))
    (readOptions_other docker "--name" id [runName args.jobId] (by decide))
  have hnetwork := readOptions_append_some docker hname
    (readOptions_optionOf docker "--network" (args.effectiveNetwork cfg) (by decide))
  have hhardened := readOptions_append_some docker (readOptions_append_some docker hnetwork h)
    (readOptions_hardenedOptions docker args.hardened)
  have huser := readOptions_append_some docker hhardened
    (readOptions_optionOf docker "--user" args.containerUser (by decide))
  have hreadOnly := readOptions_append_some docker huser
    (readOptions_aloneIf docker args.readOnlyRoot (spelled_readOnly docker))
  have htmpfs := readOptions_append_some docker hreadOnly
    (readOptions_eachOption docker id args.tmpfsMounts (spelled_tmpfs docker))
  have hlabels := readOptions_append_some docker htmpfs
    (readOptions_other docker "--label" (fun label => label.1 ++ '=' :: label.2) args.labels
      (by decide))
  rw [frontOptions, hlabels]
  simp only [List.append_nil, List.nil_append]
  rfl

theorem readOptions_mountOptions :
    docker.readOptions (mountOptions host cfg files args) =
      some ((workdirPath docker host cfg).toList ++
        (mountOwn (declaredMountTargets cfg.extraArgs) files.own).filterMap
          (ownPath docker host) ++
        (bindPaths docker host args ++ volumePaths docker args)) := by
  have hworkdir : docker.readOptions (eachOption "-v" id [host.hostJobDir ++ ':' :: cfg.workdir]) =
      some (workdirPath docker host cfg).toList := by
    rw [readOptions_eachOption docker id _ (spelled_v docker)]
    exact congrArg some (filterMap_singleton _ _)
  have hown := readOptions_append_some docker hworkdir
    (readOptions_eachOption docker (·.spec host.hostJobDir)
      (mountOwn (declaredMountTargets cfg.extraArgs) files.own) (spelled_v docker))
  have hgiven := readOptions_append_some docker
    (readOptions_eachOption docker
      (fun mount => mountValue (host.hostMountSource mount.source) mount) args.bindMounts
      (spelled_v docker))
    (readOptions_eachOption docker (fun mount => mountValue mount.source mount) args.volumeMounts
      (spelled_v docker))
  exact readOptions_append_some docker hown hgiven

theorem readOptions_buildOptions {extra : List Text}
    (h : docker.readOptions cfg.extraArgs = some extra) :
    docker.readOptions (buildOptions host cfg files args) =
      some (extra ++ tmpfsPaths docker args ++ ((workdirPath docker host cfg).toList ++
        (mountOwn (declaredMountTargets cfg.extraArgs) files.own).filterMap
          (ownPath docker host) ++
        (bindPaths docker host args ++ volumePaths docker args))) := by
  have hmounts := readOptions_append_some docker (readOptions_front docker cfg args h)
    (readOptions_mountOptions docker host cfg files args)
  have henv := readOptions_append_some docker hmounts
    (readOptions_other docker "-e" id (envOptions cfg args) (by decide))
  have hdir := readOptions_append_some docker henv
    (readOptions_other docker "-w" id [cfg.repoDir] (by decide))
  have hentry := readOptions_append_some docker hdir
    (readOptions_other docker "--entrypoint" id ["/bin/bash"] (by decide))
  rw [buildOptions, hentry]
  simp only [List.append_nil]

end

/-! ## The files of the job directory -/

section
variable (docker : DockerCli) (host : Host) (files : JobFiles)

theorem isFileName_iff (name : Text) : IsFileName name ↔
    name ≠ [] ∧ '/' ∉ name ∧ name ≠ "." ∧ name ≠ ".." := Iff.rfl

instance (name : Text) : Decidable (IsFileName name) :=
  decidable_of_iff _ (isFileName_iff name).symm

theorem own_names {file : OwnFile} (h : file ∈ files.own) :
    ∃ names : List Text, names ≠ [] ∧ (∀ name ∈ names, IsFileName name) ∧
      file.target = names.flatMap ('/' :: ·) := by
  have hname : ∀ names : List Text, (∀ name ∈ names, IsFileName name) → names ≠ [] →
      file.target = names.flatMap ('/' :: ·) → ∃ names : List Text, names ≠ [] ∧
        (∀ name ∈ names, IsFileName name) ∧ file.target = names.flatMap ('/' :: ·) :=
    fun names hnames hne htarget => ⟨names, hne, hnames, htarget⟩
  unfold JobFiles.own at h
  simp only [List.mem_append, List.mem_ite_nil_right, List.mem_singleton, List.mem_map] at h
  rcases h with (((⟨-, rfl⟩ | ⟨name, hmem, rfl⟩) | ⟨-, rfl⟩) | ⟨-, rfl⟩) | ⟨-, rfl⟩
  · exact hname ["usr", "local", "bin", "baudolo-seed"] (by decide) (by decide) (by decide)
  · refine hname ["usr", "bin", name] ?_ (by simp) (by simp)
    intro part hpart
    simp only [List.mem_cons, List.not_mem_nil, or_false] at hpart
    rcases hpart with rfl | rfl | rfl
    · decide
    · decide
    · exact files.shims_named _ hmem
  · exact hname ["etc", "passwd"] (by decide) (by decide) (by decide)
  · exact hname ["etc", "group"] (by decide) (by decide) (by decide)
  · exact hname ["etc", "sudoers.d", "infinito-runner"] (by decide) (by decide) (by decide)

/-- The targets that are no shims. -/
def otherTargets : List Text :=
  ["/usr/local/bin/baudolo-seed", "/etc/passwd", "/etc/group", "/etc/sudoers.d/infinito-runner"]

theorem otherTargets_not_prefix : ∀ target ∈ otherTargets, ¬ "/usr/bin/".toList <+: target := by
  decide

theorem filterMap_sublist_map {α β : Type} {f : α → Option β} {g : α → β} {l : List α}
    (h : ∀ a ∈ l, ∀ b, f a = some b → b = g a) : (l.filterMap f).Sublist (l.map g) := by
  induction l with
  | nil => exact List.Sublist.refl _
  | cons a l ih =>
    have ih := ih fun x hx => h x (List.mem_cons_of_mem a hx)
    rw [List.filterMap_cons, List.map_cons]
    cases hf : f a with
    | none => exact ih.cons _
    | some b =>
      rw [h a List.mem_cons_self b hf]
      exact ih.cons_cons _

/-- No two files of the job directory have one target. -/
theorem own_targets_nodup : (files.own.map OwnFile.target).Nodup := by
  have hif : ∀ (given : Bool) (file : OwnFile),
      ((if given then [file] else []).map OwnFile.target).Sublist [file.target] := by
    intro given file
    cases given with
    | false => exact List.nil_sublist _
    | true => exact List.Sublist.refl _
  have hsub : (files.own.map OwnFile.target).Sublist
      (((["/usr/local/bin/baudolo-seed".toList] ++
        files.controllerBin.map ("/usr/bin/".toList ++ ·)) ++ ["/etc/passwd".toList]) ++
        ["/etc/group".toList] ++ ["/etc/sudoers.d/infinito-runner".toList]) := by
    unfold JobFiles.own
    rw [List.map_append, List.map_append, List.map_append, List.map_append, List.map_map]
    exact ((((hif _ _).append (List.Sublist.refl _)).append (hif _ _)).append (hif _ _)).append
      (hif _ _)
  have hshims : (files.controllerBin.map ("/usr/bin/".toList ++ ·)).Nodup :=
    files.shims_nodup.map fun _ _ h => List.append_cancel_left h
  have hall : (files.controllerBin.map ("/usr/bin/".toList ++ ·) ++ otherTargets).Nodup := by
    refine List.nodup_append.mpr ⟨hshims, by decide, ?_⟩
    rintro shim hshim target htarget rfl
    obtain ⟨name, -, rfl⟩ := List.mem_map.mp hshim
    exact otherTargets_not_prefix _ htarget (List.prefix_append _ _)
  refine hsub.nodup (List.Perm.nodup ?_ hall)
  simp only [List.append_assoc, List.singleton_append, otherTargets]
  exact List.perm_middle

theorem targetOfParts_long {parts : List Text} (h : 3 < parts.length) :
    docker.targetOfParts parts = none := by
  match parts, h with
  | _ :: _ :: _ :: _ :: _, _ => rfl

/-- docker mounts a file of the job directory at its target, or refuses the whole command. -/
theorem ownPath_eq {file : OwnFile} {path : Text} (h : file ∈ files.own)
    (hpath : ownPath docker host file = some path) : path = file.target := by
  obtain ⟨names, hne, hnames, htarget⟩ := own_names files h
  have hspec : file.spec host.hostJobDir =
      (host.hostJobDir ++ '/' :: file.name) ++ ':' :: (file.target ++ ':' :: "ro".toList) := by
    simp [OwnFile.spec]
  have hsplit : (file.spec host.hostJobDir).splitOn ':' =
      (host.hostJobDir ++ '/' :: file.name).splitOn ':' ++
        (file.target.splitOn ':' ++ ["ro".toList]) := by
    rw [hspec, List.splitOn_append_cons_self, List.splitOn_append_cons_self]
    rfl
  have hback : [':'].intercalate (file.target.splitOn ':') = file.target :=
    List.intercalate_splitOn ':'
  have hsource := List.splitOn_ne_nil ':' (host.hostJobDir ++ '/' :: file.name)
  have hparts := List.splitOn_ne_nil ':' file.target
  unfold ownPath DockerCli.volumeTarget at hpath
  rw [hsplit] at hpath
  revert hpath hback hsource hparts
  generalize (host.hostJobDir ++ '/' :: file.name).splitOn ':' = source
  generalize file.target.splitOn ':' = parts
  intro hpath hback hsource hparts
  match source, parts, hsource, hparts with
  | [dir], [target], _, _ =>
    have htarget' : target = file.target := by simpa using hback
    change (if docker.validMode "ro" then _ else none) = some path at hpath
    rw [if_pos docker.validMode_ro, Option.some.injEq, htarget', htarget,
      docker.cleanPath_names names hne hnames] at hpath
    rw [htarget, hpath]
  | _ :: _ :: _, _ :: _, _, _ =>
    rw [targetOfParts_long docker (by simp only [List.length_append, List.length_cons]; omega)]
      at hpath
    cases hpath
  | [_], _ :: _ :: _, _, _ =>
    rw [targetOfParts_long docker (by simp only [List.length_append, List.length_cons]; omega)]
      at hpath
    cases hpath

/-- What the builder mounts of the job directory: the files whose targets are not declared. -/
theorem mountOwn_eq_filter {own : List OwnFile} (hnodup : (own.map OwnFile.target).Nodup)
    (claimed : List Text) :
    mountOwn claimed own = own.filter fun file => file.target ∉ claimed := by
  induction own generalizing claimed with
  | nil => rfl
  | cons file own ih =>
    rw [List.map_cons, List.nodup_cons] at hnodup
    rw [mountOwn]
    by_cases hclaimed : file.target ∈ claimed
    · rw [if_pos hclaimed, ih hnodup.2, List.filter_cons_of_neg (by simpa using hclaimed)]
    · rw [if_neg hclaimed, ih hnodup.2, List.filter_cons_of_pos (by simpa using hclaimed)]
      congr 1
      refine List.filter_congr fun other hother => ?_
      have hne : other.target ≠ file.target := by
        intro heq
        exact hnodup.1 (heq ▸ List.mem_map_of_mem hother)
      simp [hne]

/-! ## No path twice -/

variable (cfg : ContainerRunnerConfig) (args : CommandArgs)

/-- The paths of the mounts that the builder is given. -/
def givenPaths : List Text :=
  tmpfsPaths docker args ++ bindPaths docker host args ++ volumePaths docker args

/-- What the builder never compares, and the targets of the extra arguments that it cannot see,
are apart. -/
structure Apart (extra : List Text) : Prop where
  given : ∀ path ∈ givenPaths docker host args, path ∉ extra
  workdir : ∀ path, workdirPath docker host cfg = some path →
    path ∉ extra ∧ path ∉ givenPaths docker host args
  own : ∀ file ∈ files.own, file.target ∉ declaredMountTargets cfg.extraArgs →
    ∀ path, ownPath docker host file = some path →
      path ∉ extra ∧ path ∉ givenPaths docker host args ∧ workdirPath docker host cfg ≠ some path

/-- The paths of the files of the job directory that are mounted. -/
def ownPaths : List Text :=
  (mountOwn (declaredMountTargets cfg.extraArgs) files.own).filterMap (ownPath docker host)

theorem mem_ownPaths {path : Text} : path ∈ ownPaths docker host files cfg ↔
    ∃ file ∈ files.own, file.target ∉ declaredMountTargets cfg.extraArgs ∧
      ownPath docker host file = some path := by
  unfold ownPaths
  rw [mountOwn_eq_filter (own_targets_nodup files), List.mem_filterMap]
  constructor
  · rintro ⟨file, hfile, hpath⟩
    obtain ⟨hmem, hfree⟩ := List.mem_filter.mp hfile
    exact ⟨file, hmem, of_decide_eq_true hfree, hpath⟩
  · rintro ⟨file, hmem, hfree, hpath⟩
    exact ⟨file, List.mem_filter.mpr ⟨hmem, decide_eq_true hfree⟩, hpath⟩

theorem ownPaths_nodup : (ownPaths docker host files cfg).Nodup := by
  unfold ownPaths
  rw [mountOwn_eq_filter (own_targets_nodup files)]
  have hsub := filterMap_sublist_map (f := ownPath docker host) (g := OwnFile.target)
    (l := files.own.filter fun file => file.target ∉ declaredMountTargets cfg.extraArgs)
    fun file hfile path hpath => ownPath_eq docker host files (List.mem_of_mem_filter hfile) hpath
  exact hsub.nodup (((List.filter_sublist).map _).nodup (own_targets_nodup files))

/-- The command mounts a path twice unless everything that the builder does not compare is apart:
the working directory, the mounts that it is given, and the targets of the extra arguments that
`_declared_mount_targets` does not find. -/
theorem mounts_nodup_iff {cmd : Command} {extra : List Text}
    (hcmd : buildContainerCommand host cfg files args = .ok cmd)
    (hextra : docker.readOptions cfg.extraArgs = some extra) (hnodup : extra.Nodup)
    (hgiven : (givenPaths docker host args).Nodup) :
    ∃ mounts, docker.readOptions cmd.options = some mounts ∧
      (mounts.Nodup ↔ Apart docker host files cfg args extra) := by
  have hoptions : cmd.options = buildOptions host cfg files args := by
    unfold buildContainerCommand at hcmd
    cases hvalid : validateHardenedContainerRequest args.hardened (args.effectiveNetwork cfg)
      cfg.extraArgs args.bindMounts args.volumeMounts with
    | error e => rw [hvalid] at hcmd; cases hcmd
    | ok u => rw [hvalid] at hcmd; cases hcmd; rfl
  refine ⟨_, hoptions ▸ readOptions_buildOptions docker host cfg files args hextra, ?_⟩
  have hperm : (extra ++ tmpfsPaths docker args ++ ((workdirPath docker host cfg).toList ++
        ownPaths docker host files cfg ++
        (bindPaths docker host args ++ volumePaths docker args))).Perm
      (extra ++ (givenPaths docker host args ++ ((workdirPath docker host cfg).toList ++
        ownPaths docker host files cfg))) := by
    rw [List.perm_iff_count]
    intro path
    simp only [givenPaths, List.count_append]
    omega
  change List.Nodup (_ ++ _ ++ (_ ++ ownPaths docker host files cfg ++ _)) ↔ _
  rw [hperm.nodup_iff]
  simp only [List.nodup_append, List.mem_append, Option.mem_toList]
  constructor
  · rintro ⟨-, ⟨-, ⟨-, -, hworkdirOwn⟩, hgivenOthers⟩, hextraOthers⟩
    exact {
      given := fun path hpath hin => hextraOthers path hin path (Or.inl hpath) rfl
      workdir := fun path hpath =>
        ⟨fun hin => hextraOthers path hin path (Or.inr (Or.inl hpath)) rfl,
          fun hin => hgivenOthers path hin path (Or.inl hpath) rfl⟩
      own := fun file hmem hfree path hpath => by
        have hown := (mem_ownPaths docker host files cfg).mpr ⟨file, hmem, hfree, hpath⟩
        exact ⟨fun hin => hextraOthers path hin path (Or.inr (Or.inr hown)) rfl,
          fun hin => hgivenOthers path hin path (Or.inr hown) rfl,
          fun hin => hworkdirOwn path hin path hown rfl⟩ }
  · intro h
    have hown : ∀ path ∈ ownPaths docker host files cfg,
        path ∉ extra ∧ path ∉ givenPaths docker host args ∧
          workdirPath docker host cfg ≠ some path := by
      intro path hpath
      obtain ⟨file, hmem, hfree, hread⟩ := (mem_ownPaths docker host files cfg).mp hpath
      exact h.own file hmem hfree path hread
    refine ⟨hnodup, ⟨hgiven, ⟨?_, ownPaths_nodup docker host files cfg, ?_⟩, ?_⟩, ?_⟩
    · cases workdirPath docker host cfg <;> simp
    · rintro path hpath other hother rfl
      exact (hown path hother).2.2 hpath
    · rintro path hpath other (hother | hother) rfl
      · exact (h.workdir path hother).2 hpath
      · exact (hown path hother).2.1 hpath
    · rintro path hpath other (hother | hother | hother) rfl
      · exact h.given path hother hpath
      · exact (h.workdir path hother).1 hpath
      · exact (hown path hother).1 hpath

end

/-! ## A password file that is mounted already -/

/-- A field of a value of `--mount`. -/
def fieldTarget (field : Text) : Option Text :=
  if field.takeWhile (· ≠ '=') ∈ (["target", "dst", "destination"] : List Text) then
    some (afterEquals field)
  else none

/-- A docker that takes paths as they are. -/
def plainDocker : DockerCli where
  takesValue flag :=
    if flag ∈ (["--rm", "--read-only"] : List Text) then some false
    else if flag ∈ (["--name", "--network", "--cap-drop", "--security-opt", "--user", "--label",
      "-e", "-w", "--entrypoint"] : List Text) then some true
    else none
  validMode mode := mode ∈ (["ro", "rw"] : List Text)
  cleanPath := id
  mountTarget spec := ((spec.splitOn ',').filterMap fieldTarget).getLast?
  takesValue_rm := by decide
  takesValue_readOnly := by decide
  takesValue_of_mem := by decide
  validMode_ro := by decide
  cleanPath_names := fun _ _ _ => rfl

def plainHost : Host where
  dockerBin := "docker"
  hostJobDir := "/jobs/7"
  hostMountSource := id
  innerCmd _ := "exec"

def runnerConfig (extraArgs : List Text) : ContainerRunnerConfig where
  image := "runner"
  repoDir := "/opt/repo"
  workdir := "/workspace"
  network := none
  extraArgs := extraArgs

/-- A job with a password file for the user of the container. -/
def passwdFiles : JobFiles where
  baudoloSeed := false
  controllerBin := []
  runnerPasswd := true
  runnerGroup := false
  runnerSudoers := false
  shims_nodup := List.nodup_nil
  shims_named := fun _ h => absurd h List.not_mem_nil

def plainArgs : CommandArgs where
  jobId := "7"
  cliArgs := ["deploy"]
  runtimeEnv := []
  labels := []
  networkName := none
  containerUser := none
  readOnlyRoot := false
  tmpfsMounts := ["/tmp:rw"]
  bindMounts := []
  volumeMounts := []
  hardened := false

theorem mounts_nodup_declared :
    ∃ mounts, plainDocker.readOptions (buildOptions plainHost
        (runnerConfig ["-v", "/srv/p:/etc/passwd"]) passwdFiles plainArgs) = some mounts ∧
      (mounts.Nodup ↔ Apart plainDocker plainHost passwdFiles
        (runnerConfig ["-v", "/srv/p:/etc/passwd"]) plainArgs ["/etc/passwd"]) :=
  mounts_nodup_iff plainDocker plainHost passwdFiles (runnerConfig ["-v", "/srv/p:/etc/passwd"])
    plainArgs rfl (by decide) (by decide) (by decide)

/-- `_declared_mount_targets` does not know `--mount`. -/
theorem passwd_mounted_twice :
    (buildContainerCommand plainHost
        (runnerConfig ["--mount", "type=bind,src=/srv/p,dst=/etc/passwd"]) passwdFiles
        plainArgs).toOption.bind (plainDocker.readOptions ·.options) =
      some (["/etc/passwd", "/tmp", "/workspace", "/etc/passwd"] : List Text) ∧
    plainDocker.readOptions ["--mount", "type=bind,src=/srv/p,dst=/etc/passwd"] =
      some (["/etc/passwd"] : List Text) ∧
    (givenPaths plainDocker plainHost plainArgs).Nodup := by
  decide

end Infinito.Runner
