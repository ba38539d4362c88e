import Infinito.Roles.Closure

/-!
# The variables of the hosts of a job

A job gets a copy of the workspace, and two passes go over its `host_vars`. One adds the domains of
the roles that come along (`injectRelatedDomains`), the other puts the users and applications of
`group_vars/all.yml` below those of the host (`materializeWorkspaceGroupVars`). Both take the hosts
that have a file, and those of the inventory only if no host has one.

`prepared_iff` says what the hosts are given by that, and which hosts of the inventory are passed
over.
-/

set_option autoImplicit false

namespace Infinito.Runner.HostVars

open Py Lib Lib.Tree Workspace Roles

/-! ## The domains of a role -/

/-- `_DOMAIN_PRIMARY_PATTERN` -/
def domainPrimaryPattern : Re :=
  .seq (.text (fun a b => a = b) "\x7b\x7b".toList) <| .seq spaces <|
    .seq (.text (fun a b => a = b) "DOMAIN_PRIMARY".toList) <| .seq spaces <|
      .text (fun a b => a = b) "\x7d\x7d".toList

/-- `_render_domain_template` -/
def renderDomainTemplate (domainPrimary value : Text) : Text :=
  strip (Re.sub .eps domainPrimaryPattern (fun _ _ => domainPrimary) value)

def textOf : Val → Option Text
  | .str t => some t
  | _ => none

/-- `_iter_domain_values` -/
def iterDomainValues (value : Option (Tree Text Val)) : List Text :=
  let texts := match value with
    | some (.leaf (.str t)) => [t]
    | some (.leaf (.list items)) => items.filterMap textOf
    | some (.node items) =>
        items.filterMap fun (item : Text × Tree Text Val) => item.2.head.bind textOf
    | _ => []
  (texts.map strip).filter (· ≠ [])

/-- `_resolve_role_domains`, of the configuration of a role. -/
def resolveRoleDomains (domainPrimary : Text) (config : Config) : List Text :=
  let domains := asMapping (field "domains" (asMapping (field "server" config)))
  newOf [] (((iterDomainValues (field "canonical" domains)).map
    (renderDomainTemplate domainPrimary)).filter (· ≠ []))

/-- The domains of roles. -/
abbrev RoleDomains := List (Text × List Text)

def discoverRelatedRoleDomains (repo : Repo) (roleConfig : Text → Config) (domainPrimary : Text)
    (fuel : Nat) (selectedRoles : List Text) : Option RoleDomains :=
  (repo.resolveRelatedRoles fuel selectedRoles).map fun related =>
    related.foldl (fun mapping roleId =>
      let domains := resolveRoleDomains domainPrimary (roleConfig roleId)
      if domains ≠ [] then Items.set roleId domains mapping else mapping) []

/-! ## The files of a job -/

/-- What reading a YAML file gives. -/
inductive Doc where
  | broken
  | null
  /-- a value that is no mapping -/
  | other
  | mapping (m : Mapping Text Val)

def noVars : Mapping Text Val := ⟨[], .node List.nodup_nil fun _ h => absurd h List.not_mem_nil⟩

/-- The variables of a host: none where its file is missing, cannot be read or is no mapping. -/
def varsOf : Option Doc → Mapping Text Val
  | some (.mapping m) => m
  | _ => noVars

/-- What the two passes read and write of the directory of a job. -/
structure JobFiles where
  inventory : Doc
  /-- `group_vars/all.yml` -/
  groupVars : Option Doc
  /-- the files of `host_vars`, by the names of the hosts -/
  hostVars : List (Text × Doc)
  distinct : (hostVars.map (·.1)).Nodup

namespace JobFiles

def put (job : JobFiles) (host : Text) (doc : Doc) : JobFiles where
  inventory := job.inventory
  groupVars := job.groupVars
  hostVars := Items.set host doc job.hostVars
  distinct := Items.nodup_set job.distinct host doc

/-- The files of some hosts written anew. -/
def rewrite (f : Option Doc → Doc) (hosts : List Text) (job : JobFiles) : JobFiles :=
  hosts.foldl (fun job host => job.put host (f (Items.get host job.hostVars))) job

/-- `_inventory_host_aliases` -/
def inventoryHostAliases (job : JobFiles) : List Text :=
  let allNode := asMapping (field "all" (varsOf (some job.inventory)).items)
  let children := asMapping (field "children" allNode)
  let hosts := asMapping (field "hosts" allNode) ++
    children.flatMap fun child => asMapping (field "hosts" (asMapping (some child.2)))
  newOf [] ((hosts.map fun item => strip item.1).filter (· ≠ []))

/-- `_job_host_aliases` -/
def jobHostAliases (job : JobFiles) : List Text :=
  if job.hostVars ≠ [] then job.hostVars.map (·.1) else job.inventoryHostAliases

end JobFiles

/-! ## The first pass -/

def domainsOf (vars : Config) : Config := asMapping (field "domains" vars)

def domainsLeaf (values : List Text) : Tree Text Val := .leaf (.list (values.map .str))

/-- The domains with those of the related roles, and whether any were missing. -/
def addDomains (domains : Config) (changed : Bool) : RoleDomains → Config × Bool
  | [] => (domains, changed)
  | (roleId, values) :: related =>
      if (Items.get roleId domains).isSome then addDomains domains changed related
      else addDomains (Items.set roleId (domainsLeaf values) domains) true related

section

variable {domains : Config} {changed : Bool} {related : RoleDomains}

theorem distinct_addDomains (h : (node domains).Distinct) :
    (node (addDomains domains changed related).1).Distinct := by
  induction related generalizing domains changed with
  | nil => exact h
  | cons item related ih =>
    rw [addDomains]
    split
    · exact ih h
    · exact ih (h.set item.1 (.leaf _))

theorem distinct_asMapping {m : Config} (h : (node m).Distinct) (key : Text) :
    (node (asMapping (field key m))).Distinct := by
  unfold field
  cases hget : Items.get key m with
  | none => exact noVars.distinct
  | some t =>
    cases t with
    | leaf v => exact noVars.distinct
    | node items => exact h.get hget

end

def putItem (m : Mapping Text Val) (key : Text) (t : Tree Text Val) (ht : t.Distinct) :
    Mapping Text Val :=
  ⟨Items.set key t m.items, m.distinct.set key ht⟩

/-- The file of a host after the first pass. -/
def withDomains (related : RoleDomains) (file : Option Doc) : Doc :=
  let loaded := varsOf file
  let result := addDomains (domainsOf loaded.items) false related
  let written : Doc := .mapping (putItem loaded "domains" (.node result.1)
    (distinct_addDomains (distinct_asMapping loaded.distinct "domains")))
  if result.2 = false then file.getD written else written

/-- `_inject_related_domains` -/
def injectRelatedDomains (related : RoleDomains) (job : JobFiles) : JobFiles :=
  if related = [] then job
  else
    let hostAliases := job.jobHostAliases
    job.rewrite (withDomains related)
      (if hostAliases = [] then ["target".toList] else hostAliases)

/-! ## The second pass -/

def WORKSPACE_HOST_VAR_OVERRIDE_KEYS : List Text := ["users", "applications"]

/-- A mapping with something in it. -/
def nonEmpty : Option (Tree Text Val) → Option (Tree Text Val)
  | some (.node (item :: items)) => some (.node (item :: items))
  | _ => none

/-- `workspace_overrides` -/
def workspaceOverrides (loaded : Config) : Config :=
  WORKSPACE_HOST_VAR_OVERRIDE_KEYS.filterMap fun key =>
    (nonEmpty (Items.get key loaded)).map fun value => (key, value)

/-- What is put for a key: the value of the host over the workspace's, if it has one. -/
def overridden (existing : Option (Tree Text Val)) (workspaceValue : Tree Text Val) :
    Tree Text Val :=
  match existing, workspaceValue with
  | some (.node (item :: items)), .node base => .node (mergeNestedMappings base (item :: items))
  | _, _ => workspaceValue

def withOverrides (overrides existing : Config) : Config :=
  Items.foldItems overridden existing overrides

section

variable {overrides existing loaded : Config}

theorem nonEmpty_eq_some {t : Option (Tree Text Val)} {w : Tree Text Val}
    (h : nonEmpty t = some w) : t = some w ∧ ∃ base, w = .node base := by
  unfold nonEmpty at h
  split at h
  · cases h
    exact ⟨rfl, _, rfl⟩
  · cases h

theorem distinct_overrides (h : (node loaded).Distinct) :
    ∀ item ∈ workspaceOverrides loaded, item.2.Distinct := by
  intro item hitem
  unfold workspaceOverrides at hitem
  obtain ⟨key, -, hkey⟩ := List.mem_filterMap.mp hitem
  obtain ⟨w, hw, rfl⟩ := Option.map_eq_some_iff.mp hkey
  exact h.get (nonEmpty_eq_some hw).1

theorem distinct_overridden {t : Option (Tree Text Val)} {value : Tree Text Val}
    (ht : ∀ u, t = some u → u.Distinct) (hvalue : value.Distinct) :
    (overridden t value).Distinct := by
  unfold overridden
  split
  · exact distinct_mergeNestedMappings hvalue (ht _ rfl)
  · exact hvalue

theorem distinct_withOverrides (hover : ∀ item ∈ overrides, item.2.Distinct)
    (h : (node existing).Distinct) : (node (withOverrides overrides existing)).Distinct := by
  unfold withOverrides Items.foldItems
  induction overrides generalizing existing with
  | nil => exact h
  | cons item overrides ih =>
    rw [List.forall_mem_cons] at hover
    rw [List.foldl_cons]
    exact ih hover.2 (h.set item.1 (distinct_overridden (fun u hu => h.get hu) hover.1))

end

/-- The file of a host after the second pass. -/
def withWorkspace (loaded : Mapping Text Val) (file : Option Doc) : Doc :=
  .mapping ⟨withOverrides (workspaceOverrides loaded.items) (varsOf file).items,
    distinct_withOverrides (distinct_overrides loaded.distinct) (varsOf file).distinct⟩

/-- `_materialize_workspace_group_vars_into_host_vars` -/
def materializeWorkspaceGroupVars (job : JobFiles) : Except HttpError JobFiles :=
  match job.groupVars with
  | none => .ok job
  | some .null => .ok job
  | some .broken => .error ⟨500, "Internal Server Error"⟩
  | some .other =>
      .error ⟨400, "workspace group_vars/all.yml must contain a YAML mapping"⟩
  | some (.mapping loaded) =>
      if (workspaceOverrides loaded.items).isEmpty then .ok job
      else .ok (job.rewrite (withWorkspace loaded) job.jobHostAliases)

/-- Both passes, in the order in which `create` makes them. -/
def prepareHostVars (related : RoleDomains) (job : JobFiles) : Except HttpError JobFiles :=
  materializeWorkspaceGroupVars (injectRelatedDomains related job)

/-! ## What is written -/

section Passes

variable {related : RoleDomains} {job job' : JobFiles} {file : Option Doc} {f : Option Doc → Doc}
  {hosts : List Text} {host key role : Text} {domains loaded : Config} {changed : Bool}

namespace JobFiles

theorem hostVars_rewrite : (job.rewrite f hosts).hostVars =
    hosts.foldl (fun m host => Items.set host (f (Items.get host m)) m) job.hostVars := by
  unfold rewrite
  induction hosts generalizing job with
  | nil => rfl
  | cons host hosts ih =>
    rw [List.foldl_cons, List.foldl_cons, ih]
    rfl

theorem rewrite_groupVars : (job.rewrite f hosts).groupVars = job.groupVars := by
  unfold rewrite
  induction hosts generalizing job with
  | nil => rfl
  | cons host hosts ih =>
    rw [List.foldl_cons, ih]
    rfl

theorem get_rewrite (hhosts : hosts.Nodup) : Items.get host (job.rewrite f hosts).hostVars =
    if host ∈ hosts then some (f (Items.get host job.hostVars))
    else Items.get host job.hostVars := by
  rw [hostVars_rewrite]
  split
  · rename_i hhost
    exact Items.get_foldl_set_of_mem (fun _ => f) hhosts job.hostVars hhost
  · rename_i hhost
    exact Items.get_foldl_set_of_not_mem (fun _ => f) job.hostVars hhost

theorem nodup_jobHostAliases (job : JobFiles) : job.jobHostAliases.Nodup := by
  unfold jobHostAliases
  split
  · exact job.distinct
  · exact nodup_newOf _ _

/-- The hosts whose files the passes write. -/
def reached (related : RoleDomains) (job : JobFiles) : List Text :=
  if related ≠ [] ∧ job.jobHostAliases = [] then ["target".toList] else job.jobHostAliases

theorem nodup_reached (related : RoleDomains) (job : JobFiles) : (job.reached related).Nodup := by
  unfold reached
  split
  · exact List.nodup_singleton _
  · exact job.nodup_jobHostAliases

theorem mem_reached_of_file (h : host ∈ job.hostVars.map (·.1)) : host ∈ job.reached related := by
  have haliases : job.jobHostAliases = job.hostVars.map (·.1) := by
    unfold jobHostAliases
    exact if_pos fun hnil => by simp [hnil] at h
  unfold reached
  rw [haliases, if_neg fun hno => List.ne_nil_of_mem h hno.2]
  exact h

theorem inject_eq (hrelated : related ≠ []) : injectRelatedDomains related job =
    job.rewrite (withDomains related) (job.reached related) := by
  unfold injectRelatedDomains reached
  rw [if_neg hrelated]
  by_cases hnone : job.jobHostAliases = []
  · simp [hnone, hrelated]
  · simp [hnone]

theorem inject_groupVars : (injectRelatedDomains related job).groupVars = job.groupVars := by
  by_cases hrelated : related = []
  · unfold injectRelatedDomains
    rw [if_pos hrelated]
  · rw [inject_eq hrelated, rewrite_groupVars]

theorem get_inject : Items.get host (injectRelatedDomains related job).hostVars =
    if related ≠ [] ∧ host ∈ job.reached related then
      some (withDomains related (Items.get host job.hostVars))
    else Items.get host job.hostVars := by
  by_cases hrelated : related = []
  · unfold injectRelatedDomains
    rw [if_pos hrelated, if_neg fun h => h.1 hrelated]
  · rw [inject_eq hrelated, get_rewrite (job.nodup_reached related)]
    simp [hrelated]

/-- The second pass takes the hosts that the first one has taken. -/
theorem mem_aliases_inject :
    host ∈ (injectRelatedDomains related job).jobHostAliases ↔ host ∈ job.reached related := by
  by_cases hrelated : related = []
  · unfold injectRelatedDomains reached
    rw [if_pos hrelated, if_neg fun h => h.1 hrelated]
  · have hfiles : ∀ host', host' ∈ (injectRelatedDomains related job).hostVars.map (·.1) ↔
        host' ∈ job.reached related := by
      intro host'
      rw [← not_iff_not, ← Items.get_eq_none_iff, get_inject]
      by_cases hreached : host' ∈ job.reached related
      · simp [hrelated, hreached]
      · simp only [hreached, and_false, if_false, not_false_eq_true, iff_true]
        rw [Items.get_eq_none_iff]
        exact fun hfile => hreached (mem_reached_of_file hfile)
    have hsome : job.reached related ≠ [] := by
      unfold reached
      by_cases hnone : job.jobHostAliases = []
      · simp [hnone, hrelated]
      · simp [hnone]
    have hthere : (injectRelatedDomains related job).hostVars ≠ [] := by
      obtain ⟨host', hhost'⟩ := List.exists_mem_of_ne_nil _ hsome
      intro hnil
      have hmem := (hfiles host').mpr hhost'
      rw [hnil] at hmem
      cases hmem
    unfold jobHostAliases
    rw [if_pos hthere]
    exact hfiles host

end JobFiles

theorem get_addDomains : Items.get role (addDomains domains changed related).1 =
    (Items.get role domains).or ((Items.get role related).map domainsLeaf) := by
  induction related generalizing domains changed with
  | nil => simp [addDomains]
  | cons item related ih =>
    rw [addDomains, Items.get_cons]
    by_cases hrole : item.1 = role
    · rw [if_pos hrole]
      split
      · rename_i hthere
        rw [ih]
        obtain ⟨t, ht⟩ := Option.isSome_iff_exists.mp hthere
        rw [hrole] at ht
        simp [ht]
      · rename_i hmissing
        rw [ih, Items.get_set, if_pos hrole.symm]
        have hnone : Items.get role domains = none := by
          rw [← hrole]
          simpa using hmissing
        simp [hnone]
    · rw [if_neg hrole]
      split
      · exact ih
      · rw [ih, Items.get_set_of_ne (Ne.symm hrole)]

theorem addDomains_unchanged (h : (addDomains domains changed related).2 = false) :
    (addDomains domains changed related).1 = domains ∧ changed = false := by
  induction related generalizing domains changed with
  | nil => exact ⟨rfl, h⟩
  | cons item related ih =>
    rw [addDomains] at h ⊢
    split at h
    · rename_i hthere
      rw [if_pos hthere]
      exact ih h
    · exact absurd (ih h).2 (by decide)

theorem get_withDomains (hkey : key ≠ "domains".toList) :
    Items.get key (varsOf (some (withDomains related file))).items =
      Items.get key (varsOf file).items := by
  unfold withDomains
  dsimp only
  split
  · cases file with
    | none => exact Items.get_set_of_ne hkey _ _
    | some doc => rfl
  · exact Items.get_set_of_ne hkey _ _

theorem domainsOf_withDomains : domainsOf (varsOf (some (withDomains related file))).items =
    (addDomains (domainsOf (varsOf file).items) false related).1 := by
  have hset (t : Config) (m : Config) :
      domainsOf (Items.set "domains".toList (.node t) m) = t := by
    unfold domainsOf field
    rw [Items.get_set, if_pos rfl]
    rfl
  unfold withDomains
  dsimp only
  split
  · rename_i hunchanged
    cases file with
    | none => exact hset _ _
    | some doc => exact (addDomains_unchanged hunchanged).1.symm
  · exact hset _ _

theorem get_workspaceOverrides : Items.get key (workspaceOverrides loaded) =
    if key ∈ WORKSPACE_HOST_VAR_OVERRIDE_KEYS then nonEmpty (Items.get key loaded) else none := by
  unfold workspaceOverrides
  split
  · rename_i hkey
    exact Items.get_filterMap_of_mem _ hkey
  · rename_i hkey
    exact Items.get_filterMap_of_not_mem _ hkey

theorem nodup_workspaceOverrides : ((workspaceOverrides loaded).map (·.1)).Nodup :=
  Items.nodup_filterMap _ (by decide)

theorem get_withOverrides {existing : Config} :
    Items.get key (withOverrides (workspaceOverrides loaded) existing) =
      match Items.get key (workspaceOverrides loaded) with
      | none => Items.get key existing
      | some value => some (overridden (Items.get key existing) value) := by
  unfold withOverrides
  rw [Items.get_foldItems _ nodup_workspaceOverrides]
  cases Items.get key (workspaceOverrides loaded) <;> rfl

/-- The value of the host says what is at a path, and where it does not, the workspace's. -/
theorem probe_overridden {t : Option (Tree Text Val)} {base : Config}
    (ht : ∀ u, t = some u → u.Distinct) (hbase : (node base).Distinct) (p : List Text) :
    (overridden t (.node base)).probe p =
      if (node (asMapping t)).decides p then (node (asMapping t)).probe p
      else (node base).probe p := by
  have hnone : (node base).probe p =
      if (node ([] : Config)).decides p then (node ([] : Config)).probe p
      else (node base).probe p := by
    cases p with
    | nil => rfl
    | cons k p => rfl
  cases t with
  | none => exact hnone
  | some u =>
    cases u with
    | leaf v => exact hnone
    | node items =>
      cases items with
      | nil => exact hnone
      | cons item items => exact probe_mergeNestedMappings hbase (ht _ rfl) p

end Passes

/-! ## What a host is given -/

/-- The users and the applications of the workspace below those of the host, the domains of the
    related roles where the host has none for them, and all else as it was. -/
structure Given (related : RoleDomains) (workspace vars vars' : Config) : Prop where
  rest : ∀ key, key ≠ "domains".toList → Items.get key (workspaceOverrides workspace) = none →
    Items.get key vars' = Items.get key vars
  layered : ∀ key w, Items.get key (workspaceOverrides workspace) = some w →
    ∃ t, Items.get key vars' = some t ∧ ∀ p, t.probe p =
      if (node (asMapping (Items.get key vars))).decides p then
        (node (asMapping (Items.get key vars))).probe p
      else w.probe p
  domains : ∀ role, Items.get role (domainsOf vars') =
    (Items.get role (domainsOf vars)).or ((Items.get role related).map domainsLeaf)

namespace JobFiles

/-- The variables of a host. -/
def vars (job : JobFiles) (host : Text) : Config := (varsOf (Items.get host job.hostVars)).items

/-- The variables of the workspace. -/
def workspaceVars (job : JobFiles) : Config := (varsOf job.groupVars).items

end JobFiles

section Prepared

variable {related : RoleDomains} {job job' : JobFiles} {host key role : Text}

/-- What is in the file of a host at the end. -/
theorem get_prepare (h : prepareHostVars related job = .ok job') :
    Items.get host job'.hostVars =
      if workspaceOverrides job.workspaceVars ≠ [] ∧ host ∈ job.reached related then
        some (withWorkspace (varsOf job.groupVars)
          (Items.get host (injectRelatedDomains related job).hostVars))
      else Items.get host (injectRelatedDomains related job).hostVars := by
  unfold prepareHostVars materializeWorkspaceGroupVars at h
  rw [JobFiles.inject_groupVars] at h
  unfold JobFiles.workspaceVars
  split at h
  · rename_i hgroup
    cases h
    rw [hgroup]
    exact (if_neg fun hno => hno.1 rfl).symm
  · rename_i hgroup
    cases h
    rw [hgroup]
    exact (if_neg fun hno => hno.1 rfl).symm
  · cases h
  · cases h
  · rename_i loaded hgroup
    rw [hgroup]
    split at h
    · rename_i hnone
      cases h
      exact (if_neg fun hno => hno.1 (List.isEmpty_iff.mp hnone)).symm
    · rename_i hsome
      cases h
      have hsome' : workspaceOverrides (varsOf (some (Doc.mapping loaded))).items ≠ [] :=
        fun hnil => hsome (List.isEmpty_iff.mpr hnil)
      rw [JobFiles.get_rewrite (JobFiles.nodup_jobHostAliases _)]
      simp only [JobFiles.mem_aliases_inject, hsome', ne_eq, not_false_eq_true, true_and]
      rfl

/-- A host that is passed over keeps what it has. -/
theorem vars_of_passed_over (h : prepareHostVars related job = .ok job')
    (hhost : host ∉ job.reached related) : job'.vars host = job.vars host := by
  unfold JobFiles.vars
  rw [get_prepare h, if_neg fun hno => hhost hno.2, JobFiles.get_inject,
    if_neg fun hno => hhost hno.2]

theorem given_of_nothing (hrelated : related = [])
    (hnone : workspaceOverrides job.workspaceVars = []) :
    Given related job.workspaceVars (job.vars host) (job.vars host) where
  rest _ _ _ := rfl
  layered key w hw := by
    rw [hnone] at hw
    cases hw
  domains role := by simp [hrelated]

/-- The domains, after the first pass and as well after the second one. -/
theorem domains_after_inject (host : Text) (hhost : host ∈ job.reached related) :
    Items.get role (domainsOf ((injectRelatedDomains related job).vars host)) =
      (Items.get role (domainsOf (job.vars host))).or
        ((Items.get role related).map domainsLeaf) := by
  unfold JobFiles.vars
  rw [JobFiles.get_inject]
  by_cases hrelated : related = []
  · simp [hrelated]
  · rw [if_pos ⟨hrelated, hhost⟩, domainsOf_withDomains, get_addDomains]

theorem get_after_inject (host : Text) (hkey : key ≠ "domains".toList) :
    Items.get key ((injectRelatedDomains related job).vars host) =
      Items.get key (job.vars host) := by
  unfold JobFiles.vars
  rw [JobFiles.get_inject]
  split
  · exact get_withDomains hkey
  · rfl

theorem vars_of_reached (h : prepareHostVars related job = .ok job')
    (hhost : host ∈ job.reached related) : Items.get key (job'.vars host) =
      match Items.get key (workspaceOverrides job.workspaceVars) with
      | none => Items.get key ((injectRelatedDomains related job).vars host)
      | some value =>
          some (overridden (Items.get key ((injectRelatedDomains related job).vars host)) value) := by
  unfold JobFiles.vars
  rw [get_prepare h]
  by_cases hnone : workspaceOverrides job.workspaceVars = []
  · rw [if_neg fun hno => hno.1 hnone, hnone]
    rfl
  · rw [if_pos ⟨hnone, hhost⟩]
    exact get_withOverrides

theorem given_of_reached (h : prepareHostVars related job = .ok job')
    (hhost : host ∈ job.reached related) :
    Given related job.workspaceVars (job.vars host) (job'.vars host) where
  rest key hkey hnone := by
    rw [vars_of_reached h hhost, hnone]
    exact get_after_inject host hkey
  layered key w hw := by
    have hmem : key ∈ WORKSPACE_HOST_VAR_OVERRIDE_KEYS := by
      by_contra hno
      rw [get_workspaceOverrides, if_neg hno] at hw
      cases hw
    have hkey : key ≠ "domains".toList := by
      rintro rfl
      exact absurd hmem (by decide)
    rw [get_workspaceOverrides, if_pos hmem] at hw
    obtain ⟨hget, base, rfl⟩ := nonEmpty_eq_some hw
    have hbase : (node base).Distinct := (varsOf job.groupVars).distinct.get hget
    refine ⟨_, by rw [vars_of_reached h hhost, get_workspaceOverrides, if_pos hmem, hw], ?_⟩
    intro p
    rw [get_after_inject host hkey]
    exact probe_overridden (fun u hu => (varsOf _).distinct.get hu) hbase p
  domains role := by
    have hkey : Items.get "domains".toList (workspaceOverrides job.workspaceVars) = none := by
      rw [get_workspaceOverrides]
      exact if_neg (by decide)
    have hsame : domainsOf (job'.vars host) =
        domainsOf ((injectRelatedDomains related job).vars host) := by
      unfold domainsOf field
      rw [vars_of_reached h hhost, hkey]
    rw [hsame]
    exact domains_after_inject host hhost

/-- **The hosts of the inventory are given what a job has for them** exactly if no host has a file,
    if all of them have one, or if there is nothing to give. -/
theorem given_iff (h : prepareHostVars related job = .ok job') :
    (∀ host ∈ job.inventoryHostAliases,
        Given related job.workspaceVars (job.vars host) (job'.vars host)) ↔
      job.hostVars = [] ∨
        (∀ host ∈ job.inventoryHostAliases, host ∈ job.hostVars.map (·.1)) ∨
        related = [] ∧ workspaceOverrides job.workspaceVars = [] := by
  constructor
  · intro hgiven
    by_cases hfiles : job.hostVars = []
    · exact Or.inl hfiles
    · right
      by_contra hno
      rw [not_or, not_and_or] at hno
      push Not at hno
      obtain ⟨⟨host, hhost, hmissing⟩, hgive⟩ := hno
      have hover : host ∉ job.reached related := by
        have haliases : job.jobHostAliases = job.hostVars.map (·.1) := by
          unfold JobFiles.jobHostAliases
          exact if_pos hfiles
        have hne : job.jobHostAliases ≠ [] := by simpa [haliases] using hfiles
        unfold JobFiles.reached
        rw [if_neg fun hno => hne hno.2, haliases]
        exact hmissing
      have hvars : job.vars host = [] := by
        unfold JobFiles.vars
        rw [Items.get_eq_none_iff.mpr hmissing]
        rfl
      have hhost := hgiven host hhost
      rw [vars_of_passed_over h hover, hvars] at hhost
      cases hgive with
      | inl hrelated =>
        obtain ⟨item, rest, rfl⟩ := List.exists_cons_of_ne_nil hrelated
        have hdomains := hhost.domains item.1
        rw [Items.get_cons, if_pos rfl] at hdomains
        cases hdomains
      | inr hoverrides =>
        obtain ⟨item, rest, hitem⟩ := List.exists_cons_of_ne_nil hoverrides
        obtain ⟨t, ht, -⟩ := hhost.layered item.1 item.2 (by
          rw [hitem, Items.get_cons, if_pos rfl])
        cases ht
  · intro hcase host hhost
    by_cases hreached : host ∈ job.reached related
    · exact given_of_reached h hreached
    · obtain hfiles | hall | ⟨hrelated, hnone⟩ := hcase
      · refine absurd ?_ hreached
        have haliases : job.jobHostAliases = job.inventoryHostAliases := by
          unfold JobFiles.jobHostAliases
          exact if_neg fun hno => hno hfiles
        unfold JobFiles.reached
        rw [haliases, if_neg fun hno => List.ne_nil_of_mem hhost hno.2]
        exact hhost
      · exact absurd (JobFiles.mem_reached_of_file (hall host hhost)) hreached
      · rw [vars_of_passed_over h hreached]
        exact given_of_nothing hrelated hnone

end Prepared

/-! ## The related roles -/

section Discovered

variable {repo : Repo} {roleConfig : Text → Config} {domainPrimary role : Text}
  {selectedRoles related : List Text} {mapping : RoleDomains}

theorem get_discovered : Items.get role (related.foldl (fun mapping roleId =>
      if resolveRoleDomains domainPrimary (roleConfig roleId) ≠ [] then
        Items.set roleId (resolveRoleDomains domainPrimary (roleConfig roleId)) mapping
      else mapping) mapping) =
    if role ∈ related ∧ resolveRoleDomains domainPrimary (roleConfig role) ≠ [] then
      some (resolveRoleDomains domainPrimary (roleConfig role))
    else Items.get role mapping := by
  induction related generalizing mapping with
  | nil => simp
  | cons roleId related ih =>
    rw [List.foldl_cons, ih]
    by_cases hsome : resolveRoleDomains domainPrimary (roleConfig roleId) ≠ []
    · rw [if_pos hsome, Items.get_set]
      by_cases hrole : role = roleId
      · subst hrole
        simp [hsome]
      · simp [hrole]
    · rw [if_neg hsome]
      by_cases hrole : role = roleId
      · subst hrole
        simp [hsome]
      · simp [hrole]

/-- **From the roles that were selected to the variables of the hosts**: the domains that are given
    are those of the roles that can be reached, and the hosts of the inventory are given them, and
    what the workspace has, exactly if no host has a file, all have one, or there is nothing. -/
theorem prepared_iff (repo : Repo) (roleConfig : Text → Config) (domainPrimary : Text)
    (hselected : ∀ r ∈ selectedRoles, strip r ≠ []) (job : JobFiles) :
    ∃ enough, ∀ fuel, enough ≤ fuel → ∃ related,
      discoverRelatedRoleDomains repo roleConfig domainPrimary fuel selectedRoles = some related ∧
      (∀ role domains, Items.get role related = some domains ↔
        domains ≠ [] ∧ resolveRoleDomains domainPrimary (roleConfig role) = domains ∧
          (∃ r ∈ selectedRoles, Relation.ReflTransGen repo.Related (strip r) role) ∧
          ∀ r ∈ selectedRoles, role ≠ strip r) ∧
      ∀ job', prepareHostVars related job = .ok job' →
        ((∀ host ∈ job.inventoryHostAliases,
            Given related job.workspaceVars (job.vars host) (job'.vars host)) ↔
          job.hostVars = [] ∨
            (∀ host ∈ job.inventoryHostAliases, host ∈ job.hostVars.map (·.1)) ∨
            related = [] ∧ workspaceOverrides job.workspaceVars = []) := by
  obtain ⟨enough, hends⟩ := related_reaches repo hselected
  refine ⟨enough, fun fuel hfuel => ?_⟩
  obtain ⟨related, hrun, -, hreach⟩ := hends fuel hfuel
  refine ⟨_, by rw [discoverRelatedRoleDomains, hrun]; rfl, ?_, fun job' h => given_iff h⟩
  intro role domains
  rw [get_discovered, Items.get_nil, ← hreach]
  by_cases hreached : role ∈ related
  · by_cases hsome : resolveRoleDomains domainPrimary (roleConfig role) ≠ []
    · rw [if_pos ⟨hreached, hsome⟩, Option.some_inj]
      constructor
      · rintro rfl
        exact ⟨hsome, rfl, hreached⟩
      · exact fun h => h.2.1
    · rw [if_neg fun hno => hsome hno.2]
      refine iff_of_false (fun hno => by cases hno) fun h => hsome ?_
      rw [h.2.1]
      exact h.1
  · rw [if_neg fun hno => hreached hno.1]
    exact iff_of_false (fun hno => by cases hno) fun h => hreached h.2.2

end Discovered

/-! Two devices, one of which has a file. -/

theorem distinct_single {key : Text} {t : Tree Text Val} (h : t.Distinct) :
    (node [(key, t)]).Distinct := by
  refine .node (List.nodup_singleton _) fun item hitem => ?_
  rw [List.mem_singleton.mp hitem]
  exact h

theorem distinct_nothing : (node ([] : Config)).Distinct := noVars.distinct

theorem distinct_hosts :
    (node [("device".toList, node ([] : Config)), ("edge".toList, node [])]).Distinct := by
  refine .node (by decide) ?_
  simp [distinct_nothing]

def demoInventory : Mapping Text Val :=
  ⟨[("all".toList, .node [("hosts".toList,
      .node [("device".toList, .node []), ("edge".toList, .node [])])])],
    distinct_single (distinct_single distinct_hosts)⟩

def demoWorkspace : Mapping Text Val :=
  ⟨[("users".toList, .node [("administrator".toList, .leaf (.str "root"))])],
    distinct_single (distinct_single (.leaf _))⟩

def demoJob : JobFiles where
  inventory := .mapping demoInventory
  groupVars := some (.mapping demoWorkspace)
  hostVars := [("device", .mapping noVars)]
  distinct := List.nodup_singleton _

def demoConfig (roleId : Text) : Config :=
  if roleId = "web-app-b".toList then
    [("server", .node [("domains", .node [("canonical",
      .leaf (.list [.str "b.\x7b\x7b DOMAIN_PRIMARY \x7d\x7d"]))])])]
  else []

example : discoverRelatedRoleDomains threeRoles demoConfig "example.org" 5 ["web-app-a"] =
    some [("web-app-b".toList, ["b.example.org".toList])] := by
  decide +kernel

theorem demo_prepared (related : RoleDomains) :
    ∃ job', prepareHostVars related demoJob = .ok job' := by
  unfold prepareHostVars materializeWorkspaceGroupVars
  rw [JobFiles.inject_groupVars]
  exact ⟨_, rfl⟩

/-- The device without a file is given nothing. -/
theorem prepared_iff_demo : ∃ enough, ∀ fuel, enough ≤ fuel → ∃ related job',
    discoverRelatedRoleDomains threeRoles demoConfig "example.org" fuel ["web-app-a"] =
        some related ∧ prepareHostVars related demoJob = .ok job' ∧
      ¬ ∀ host ∈ demoJob.inventoryHostAliases,
        Given related demoJob.workspaceVars (demoJob.vars host) (job'.vars host) := by
  obtain ⟨enough, hends⟩ := @prepared_iff ["web-app-a"] threeRoles demoConfig "example.org"
    (by decide) demoJob
  refine ⟨enough, fun fuel hfuel => ?_⟩
  obtain ⟨related, hrun, -, hiff⟩ := hends fuel hfuel
  obtain ⟨job', h⟩ := demo_prepared related
  refine ⟨related, job', hrun, h, ?_⟩
  rw [hiff job' h]
  rintro (hno | hall | hno)
  · cases hno
  · exact absurd (hall "edge" (by decide)) (by decide)
  · cases hno.2

end Infinito.Runner.HostVars
