import Infinito.Lib.Regex
import Infinito.Lib.Worklist
import Infinito.Py.Value
import Infinito.Workspace.Merging

/-!
# Which roles come along

Credentials are generated for the selected roles and for those that provide a service one of them
shares; the domains of a job are looked up for the roles that the selected ones depend on, run
after or load in their tasks. Both are work lists over the roles, and neither the configuration
nor the role index keeps the roles from naming each other in a circle.

`_expand_credential_role_ids` marks a role when it is taken from the queue, and
`_resolve_related_roles` when it is put there: they are `Lib.visit` and `Lib.discover`, and
`closures_reach` says that both end, with what can be reached.
-/

set_option autoImplicit false

namespace Infinito.Roles

open Py Lib Workspace

/-- What `yaml` makes of a file that is a mapping: `True` and texts are leaves. -/
abbrev Config := Items Text Val

/-! ## Shared services -/

/-- `mapping.get(key)` -/
def field (key : Text) (m : Config) : Option (Tree Text Val) := Items.get key m

/-- `as_mapping` -/
def asMapping : Option (Tree Text Val) → Config
  | some (.node items) => items
  | _ => []

/-- `normalized_name` -/
def normalizedName : Option (Tree Text Val) → Text
  | some (.leaf (.str t)) => strip t
  | _ => []

/-- `value is True` -/
def isTrue : Option (Tree Text Val) → Bool
  | some (.leaf (.bool b)) => b
  | _ => false

/-- The services of a role's configuration. -/
def servicesOf (config : Config) : Config :=
  asMapping (field "services" (asMapping (field "compose" config)))

/-- Enabled and shared. -/
def isShared (serviceConf : Tree Text Val) : Bool :=
  let conf := asMapping (some serviceConf)
  isTrue (field "enabled" conf) && isTrue (field "shared" conf)

/-- The role that the registry has for a service, empty where it has none. -/
def registeredRole (serviceRegistry : Config) (serviceKey : Text) : Text :=
  normalizedName (field "role" (asMapping (field serviceKey serviceRegistry)))

def resolveSharedServiceDependencyRoles (config serviceRegistry : Config) : List Text :=
  (servicesOf config).foldl (fun resolved (serviceKey, serviceConf) =>
    if isShared serviceConf = false then resolved
    else
      let roleName := registeredRole serviceRegistry serviceKey
      if roleName = [] ∨ roleName ∈ resolved then resolved else resolved ++ [roleName]) []

/-- What the credentials of a workspace are expanded over. -/
structure Sources where
  /-- `config/main.yml` of a role, empty where there is none -/
  roleConfig : Text → Config
  serviceRegistry : Config
  /-- `group_vars/all.yml` -/
  groupVars : Config
  hostVars : Config

namespace Sources

variable (w : Sources)

/-- `_load_effective_workspace_applications` -/
def effectiveApplications : Config :=
  [w.groupVars, w.hostVars].foldl (fun merged file =>
    mergeMappingsInplace merged (asMapping (field "applications" file))) []

/-- The defaults of a role under what the workspace has for it. -/
def effectiveConfig (roleId : Text) : Config :=
  let effective := w.roleConfig roleId
  match field roleId w.effectiveApplications with
  | some (.node (item :: override)) =>
      if effective = [] then item :: override else mergeMappingsInplace effective (item :: override)
  | _ => effective

/-- The roles that provide what a role shares. -/
def dependencyRoles (roleId : Text) : List Text :=
  resolveSharedServiceDependencyRoles (w.effectiveConfig roleId) w.serviceRegistry

/-- The loop of `_expand_credential_role_ids`; `seen` has what `expanded` has. -/
def expandLoop : Nat → List Text → List Text → Option (List Text)
  | _, [], expanded => some expanded
  | 0, _ :: _, _ => none
  | fuel + 1, head :: queue, expanded =>
      let roleId := strip head
      if roleId = [] ∨ roleId ∈ expanded then expandLoop fuel queue expanded
      else expandLoop fuel (queue ++ unseen (expanded ++ [roleId]) (w.dependencyRoles roleId))
        (expanded ++ [roleId])

def expandCredentialRoleIds (fuel : Nat) (roleIds : List Text) : Option (List Text) :=
  w.expandLoop fuel ((roleIds.filter (· ≠ [])).map strip) []

/-- A service of the first role is enabled and shared in its effective configuration, and the
    registry knows the second one for it. -/
def Shares (a b : Text) : Prop :=
  ∃ service ∈ servicesOf (w.effectiveConfig a), isShared service.2 = true ∧
    b = registeredRole w.serviceRegistry service.1 ∧ b ≠ []

end Sources

section Shared

variable {w : Sources} {config registry : Config}

theorem strip_normalizedName (v : Option (Tree Text Val)) :
    strip (normalizedName v) = normalizedName v := by
  unfold normalizedName
  split
  · exact strip_strip _
  · rfl

theorem mem_shared_go {services : Config} {resolved : List Text} {b : Text} :
    b ∈ services.foldl (fun resolved (serviceKey, serviceConf) =>
        if isShared serviceConf = false then resolved
        else
          let roleName := registeredRole registry serviceKey
          if roleName = [] ∨ roleName ∈ resolved then resolved else resolved ++ [roleName]) resolved ↔
      b ∈ resolved ∨ ∃ service ∈ services, isShared service.2 = true ∧
        b = registeredRole registry service.1 ∧ b ≠ [] := by
  induction services generalizing resolved with
  | nil => simp
  | cons service services ih =>
    rw [List.foldl_cons, ih, List.exists_mem_cons_iff]
    have hstep : b ∈ (if isShared service.2 = false then resolved
        else if registeredRole registry service.1 = [] ∨
          registeredRole registry service.1 ∈ resolved then resolved
          else resolved ++ [registeredRole registry service.1]) ↔
        b ∈ resolved ∨ isShared service.2 = true ∧ b = registeredRole registry service.1 ∧ b ≠ [] := by
      cases hshared : isShared service.2 with
      | false => simp
      | true =>
        rw [if_neg nofun]
        by_cases hskip : registeredRole registry service.1 = [] ∨
            registeredRole registry service.1 ∈ resolved
        · rw [if_pos hskip]
          constructor
          · exact Or.inl
          · rintro (h | ⟨-, rfl, hne⟩)
            · exact h
            · exact hskip.resolve_left hne
        · rw [if_neg hskip, List.mem_append, List.mem_singleton]
          refine or_congr_right ⟨fun h => ⟨rfl, h, ?_⟩, fun h => h.2.1⟩
          rw [h]
          exact fun hempty => hskip (Or.inl hempty)
    rw [show (b ∈ (fun resolved (x : Text × Tree Text Val) => _) resolved service ↔ _) from hstep,
      or_assoc]

theorem mem_dependencyRoles {a b : Text} : b ∈ w.dependencyRoles a ↔ w.Shares a b := by
  unfold Sources.dependencyRoles resolveSharedServiceDependencyRoles Sources.Shares
  rw [mem_shared_go]
  simp

end Shared

/-- The loop over the queue is a visit, for a role that is stripped is stripped once more. -/
theorem expandLoop_eq_visit {w : Sources} {fuel : Nat} {queue expanded : List Text}
    (hqueue : ∀ r ∈ queue, strip r = r ∧ r ≠ []) :
    w.expandLoop fuel queue expanded = visit w.dependencyRoles fuel queue expanded := by
  induction fuel generalizing queue expanded with
  | zero => cases queue <;> rfl
  | succ fuel ih =>
    cases queue with
    | nil => rfl
    | cons head queue =>
      obtain ⟨⟨hstrip, hne⟩, hqueue⟩ := List.forall_mem_cons.mp hqueue
      rw [Sources.expandLoop, visit, hstrip]
      by_cases hseen : head ∈ expanded
      · rw [if_pos (Or.inr hseen), if_pos hseen, ih hqueue]
      · rw [if_neg (by simp [hne, hseen]), if_neg hseen]
        apply ih
        intro r hr
        rcases List.mem_append.mp hr with hr | hr
        · exact hqueue r hr
        · obtain ⟨service, -, -, rfl, hrne⟩ := mem_dependencyRoles.mp (mem_unseen.mp hr).1
          exact ⟨strip_normalizedName _, hrne⟩

/-! ## Related roles -/

/-- What the role index knows of a role, as far as other roles are named by it. -/
structure RoleOut where
  dependencies : List Text
  runAfter : List Text

structure Repo where
  /-- `RoleIndexService()` -/
  index : List (Text × RoleOut)
  /-- by role, what can be read of the files below its `tasks`, sorted by path -/
  taskFiles : List (Text × List Text)

/-- `^`, at the start of a line -/
def lineStart : Re := .notBehind fun c => c ≠ '\n'

/-- `$`, at the end of a line -/
def lineEnd : Re := .alt .eol (.ahead (.chr fun c => c = '\n'))

def spaces : Re := .many true (.chr isSpace)

/-- `['\"]?` -/
def quoteMark : Re := .alt (.chr fun c => c = '\'' || c = '"') .eps

/-- The part of `_LOAD_APP_ID_PATTERN` before its group. -/
def loadBefore : Re :=
  .seq lineStart <| .seq spaces <| .seq (.text (fun a b => a = b) "load_app_id".toList) <|
    .seq spaces <| .seq (.chr fun c => c = ':') <| .seq spaces quoteMark

/-- `[A-Za-z0-9_.-]+` -/
def loadGroup : Re := .many1 (.chr fun c => ('A' ≤ c && c ≤ 'Z') || ('a' ≤ c && c ≤ 'z') ||
  ('0' ≤ c && c ≤ '9') || c = '_' || c = '.' || c = '-')

/-- The part after it. -/
def loadAfter : Re := .seq quoteMark (.seq spaces lineEnd)

/-- The match at a place, if there is one: its group, all of it, and the rest. -/
def matchAt (behind : Option Char) (t : Text) : Option (Text × Text × Text) :=
  ((loadBefore.matches behind t).flatMap fun (u, t) =>
    (loadGroup.matches (Re.lastOf behind u) t).flatMap fun (g, t) =>
      (loadAfter.matches (Re.lastOf (Re.lastOf behind u) g) t).map fun (v, t) =>
        (g, u ++ g ++ v, t)).head?

/-- `finditer`: the groups of the matches. -/
def findIter : Nat → Option Char → Text → List Text
  | 0, _, _ => []
  | fuel + 1, behind, t => match matchAt behind t, t with
    | some (group, whole, rest), _ => group :: findIter fuel (Re.lastOf behind whole) rest
    | none, [] => []
    | none, c :: t => findIter fuel (some c) t

def loadedIn (content : Text) : List Text :=
  (findIter (content.length + 1) none content).map strip

namespace Repo

variable (repo : Repo)

def discoverTaskLoadedRoles (roleId : Text) : List Text :=
  newOf [] ((((Items.get roleId repo.taskFiles).getD []).flatMap loadedIn).filter (· ≠ []))

/-- `candidates`, as they are compared. -/
def candidates (roleId : Text) : List Text :=
  let named : List Text := match Items.get (strip roleId) repo.index with
    | some role => role.dependencies ++ role.runAfter
    | none => []
  ((named ++ repo.discoverTaskLoadedRoles roleId).map strip).filter (· ≠ [])

def resolveRelatedRoles (fuel : Nat) (selectedRoles : List Text) : Option (List Text) :=
  let queue := (selectedRoles.filter (· ≠ [])).map strip
  discover repo.candidates fuel queue queue []

/-- The second role is a dependency of the first one, one that it runs after, or one that is
    loaded by its tasks. -/
def Related (a b : Text) : Prop :=
  b ≠ [] ∧ ((∃ role, Items.get (strip a) repo.index = some role ∧
      ∃ named ∈ role.dependencies ++ role.runAfter, b = strip named) ∨
    ∃ content ∈ (Items.get a repo.taskFiles).getD [], b ∈ loadedIn content)

end Repo

theorem strip_of_mem_loadedIn {content b : Text} (hb : b ∈ loadedIn content) : strip b = b := by
  obtain ⟨group, -, rfl⟩ := List.mem_map.mp hb
  exact strip_strip _

theorem mem_candidates {repo : Repo} {a b : Text} : b ∈ repo.candidates a ↔ repo.Related a b := by
  have hloaded : b ∈ (repo.discoverTaskLoadedRoles a).map strip ↔
      ∃ content ∈ (Items.get a repo.taskFiles).getD [], b ∈ loadedIn content ∧ b ≠ [] := by
    unfold Repo.discoverTaskLoadedRoles
    constructor
    · intro h
      obtain ⟨group, hgroup, rfl⟩ := List.mem_map.mp h
      obtain ⟨hgroup, hne⟩ := List.mem_filter.mp (mem_newOf.mp hgroup).1
      obtain ⟨content, hcontent, hgroup⟩ := List.mem_flatMap.mp hgroup
      rw [strip_of_mem_loadedIn hgroup]
      exact ⟨content, hcontent, hgroup, of_decide_eq_true hne⟩
    · rintro ⟨content, hcontent, hb, hne⟩
      refine List.mem_map.mpr ⟨b, mem_newOf.mpr ⟨?_, List.not_mem_nil⟩, strip_of_mem_loadedIn hb⟩
      exact List.mem_filter.mpr ⟨List.mem_flatMap.mpr ⟨content, hcontent, hb⟩, decide_eq_true hne⟩
  unfold Repo.candidates Repo.Related
  rw [List.mem_filter, List.map_append, List.mem_append, hloaded, decide_eq_true_eq]
  constructor
  · rintro ⟨hnamed | ⟨content, hcontent, hb, -⟩, hne⟩
    · refine ⟨hne, Or.inl ?_⟩
      split at hnamed
      · rename_i role hrole
        obtain ⟨named, hmem, rfl⟩ := List.mem_map.mp hnamed
        exact ⟨role, hrole, named, hmem, rfl⟩
      · cases hnamed
    · exact ⟨hne, Or.inr ⟨content, hcontent, hb⟩⟩
  · rintro ⟨hne, ⟨role, hrole, named, hmem, rfl⟩ | ⟨content, hcontent, hb⟩⟩
    · refine ⟨Or.inl ?_, hne⟩
      rw [hrole]
      exact List.mem_map_of_mem hmem
    · exact ⟨Or.inr ⟨content, hcontent, hb, hne⟩, hne⟩

/-! ## Finitely many roles -/

/-- The start, and the roles that the registry has. -/
def Sources.roles (w : Sources) (start : List Text) : Finset Text :=
  (start ++ w.serviceRegistry.map fun entry => registeredRole w.serviceRegistry entry.1).toFinset

theorem Sources.roles_closed {w : Sources} {start : List Text} {a b : Text}
    (hb : b ∈ w.dependencyRoles a) : b ∈ w.roles start := by
  obtain ⟨service, -, -, rfl, hne⟩ := mem_dependencyRoles.mp hb
  unfold Sources.roles
  rw [List.mem_toFinset, List.mem_append]
  right
  cases hentry : field service.1 w.serviceRegistry with
  | none =>
    unfold registeredRole at hne
    rw [hentry] at hne
    exact absurd rfl hne
  | some entry => exact List.mem_map.mpr ⟨_, Items.mem_of_get hentry, rfl⟩

/-- The start, and what is named in the index or in a task. -/
def Repo.roles (repo : Repo) (start : List Text) : Finset Text :=
  (start ++ (repo.index.flatMap fun role => (role.2.dependencies ++ role.2.runAfter).map strip) ++
    repo.taskFiles.flatMap fun files => files.2.flatMap loadedIn).toFinset

theorem Repo.roles_closed {repo : Repo} {start : List Text} {a b : Text}
    (hb : b ∈ repo.candidates a) : b ∈ repo.roles start := by
  unfold Repo.roles
  rw [List.mem_toFinset, List.mem_append, List.mem_append]
  obtain ⟨-, ⟨role, hrole, named, hmem, rfl⟩ | ⟨content, hcontent, hb⟩⟩ := mem_candidates.mp hb
  · left
    right
    exact List.mem_flatMap.mpr ⟨_, Items.mem_of_get hrole, List.mem_map_of_mem hmem⟩
  · right
    cases hfiles : Items.get a repo.taskFiles with
    | none =>
      rw [hfiles] at hcontent
      cases hcontent
    | some files =>
      rw [hfiles] at hcontent
      exact List.mem_flatMap.mpr ⟨_, Items.mem_of_get hfiles,
        List.mem_flatMap.mpr ⟨content, hcontent, hb⟩⟩

/-! ## The closures -/

/-- The queue that both traversals start with. -/
theorem mem_queue {roleIds : List Text} {a : Text} (hroles : ∀ r ∈ roleIds, strip r ≠ []) :
    a ∈ (roleIds.filter (· ≠ [])).map strip ↔ ∃ r ∈ roleIds, a = strip r := by
  constructor
  · intro ha
    obtain ⟨r, hr, rfl⟩ := List.mem_map.mp ha
    exact ⟨r, List.mem_of_mem_filter hr, rfl⟩
  · rintro ⟨r, hr, rfl⟩
    refine List.mem_map_of_mem (List.mem_filter.mpr ⟨hr, decide_eq_true ?_⟩)
    rintro rfl
    exact hroles _ hr rfl

theorem reached_queue {next : Text → List Text} {roleIds : List Text} {b : Text}
    (hroles : ∀ r ∈ roleIds, strip r ≠ []) :
    Reached next ((roleIds.filter (· ≠ [])).map strip) b ↔
      ∃ r ∈ roleIds, Relation.ReflTransGen (Edge next) (strip r) b := by
  unfold Reached
  constructor
  · rintro ⟨a, ha, hpath⟩
    obtain ⟨r, hr, rfl⟩ := (mem_queue hroles).mp ha
    exact ⟨r, hr, hpath⟩
  · rintro ⟨r, hr, hpath⟩
    exact ⟨_, (mem_queue hroles).mpr ⟨r, hr, rfl⟩, hpath⟩

/-- The roles that credentials are generated for. -/
theorem expand_reaches (w : Sources) {roleIds : List Text} (hroles : ∀ r ∈ roleIds, strip r ≠ []) :
    ∃ enough, ∀ fuel, enough ≤ fuel → ∃ expanded,
      w.expandCredentialRoleIds fuel roleIds = some expanded ∧ expanded.Nodup ∧
        ∀ b, b ∈ expanded ↔ ∃ r ∈ roleIds, Relation.ReflTransGen w.Shares (strip r) b := by
  have hloop (fuel : Nat) : w.expandCredentialRoleIds fuel roleIds =
      visit w.dependencyRoles fuel ((roleIds.filter (· ≠ [])).map strip) [] := by
    refine expandLoop_eq_visit fun a ha => ?_
    obtain ⟨r, hr, rfl⟩ := (mem_queue hroles).mp ha
    exact ⟨strip_strip r, hroles r hr⟩
  have hedge : Edge w.dependencyRoles = w.Shares := by
    funext a b
    exact propext mem_dependencyRoles
  obtain ⟨enough, hends⟩ := @visit_ends _ _ w.dependencyRoles
    ((roleIds.filter (· ≠ [])).map strip) (w.roles ((roleIds.filter (· ≠ [])).map strip))
    (fun _ _ _ hb => Sources.roles_closed hb)
    (fun _ ha => List.mem_toFinset.mpr (List.mem_append_left _ ha))
  refine ⟨enough, fun fuel hfuel => ?_⟩
  obtain ⟨expanded, hrun⟩ := hends fuel hfuel
  obtain ⟨hnodup, hmem⟩ := visit_reaches hrun
  refine ⟨expanded, (hloop fuel).trans hrun, hnodup, fun b => ?_⟩
  rw [hmem, reached_queue hroles, hedge]

/-- The roles whose domains a job looks up. -/
theorem related_reaches (repo : Repo) {selectedRoles : List Text}
    (hroles : ∀ r ∈ selectedRoles, strip r ≠ []) :
    ∃ enough, ∀ fuel, enough ≤ fuel → ∃ related,
      repo.resolveRelatedRoles fuel selectedRoles = some related ∧ related.Nodup ∧
        ∀ b, b ∈ related ↔ (∃ r ∈ selectedRoles, Relation.ReflTransGen repo.Related (strip r) b) ∧
          ∀ r ∈ selectedRoles, b ≠ strip r := by
  have hedge : Edge repo.candidates = repo.Related := by
    funext a b
    exact propext mem_candidates
  obtain ⟨enough, hends⟩ := @discover_ends _ _ repo.candidates
    ((selectedRoles.filter (· ≠ [])).map strip)
    (repo.roles ((selectedRoles.filter (· ≠ [])).map strip))
    (fun _ _ _ hb => Repo.roles_closed hb)
    (fun _ ha => List.mem_toFinset.mpr (List.mem_append_left _ (List.mem_append_left _ ha)))
  refine ⟨enough, fun fuel hfuel => ?_⟩
  obtain ⟨related, hrun⟩ := hends fuel hfuel
  obtain ⟨hnodup, hmem⟩ := discover_reaches hrun
  refine ⟨related, hrun, hnodup, fun b => ?_⟩
  rw [hmem, reached_queue hroles, hedge, mem_queue hroles]
  push Not
  rfl

/-- **Both closures end, with what can be reached**: of the given roles over shared services, and
    of the selected ones, without them, over dependencies, `run_after` and loaded roles. -/
theorem closures_reach (w : Sources) (repo : Repo) {roleIds selectedRoles : List Text}
    (hroles : ∀ r ∈ roleIds, strip r ≠ []) (hselected : ∀ r ∈ selectedRoles, strip r ≠ []) :
    (∃ enough, ∀ fuel, enough ≤ fuel → ∃ expanded,
      w.expandCredentialRoleIds fuel roleIds = some expanded ∧ expanded.Nodup ∧
        ∀ b, b ∈ expanded ↔ ∃ r ∈ roleIds, Relation.ReflTransGen w.Shares (strip r) b) ∧
    ∃ enough, ∀ fuel, enough ≤ fuel → ∃ related,
      repo.resolveRelatedRoles fuel selectedRoles = some related ∧ related.Nodup ∧
        ∀ b, b ∈ related ↔ (∃ r ∈ selectedRoles, Relation.ReflTransGen repo.Related (strip r) b) ∧
          ∀ r ∈ selectedRoles, b ≠ strip r :=
  ⟨expand_reaches w hroles, related_reaches repo hselected⟩

section Demo

/-- Two roles that share each other's service, one of them only in the workspace. -/
def twoRoles : Sources where
  roleConfig role := if role = "web-app-a".toList then
      [("compose", .node [("services", .node [("b", .node [("enabled", .leaf (.bool true)),
        ("shared", .leaf (.bool true))])])])]
    else if role = "web-app-b".toList then
      [("compose", .node [("services", .node [("a", .node [("enabled", .leaf (.bool true)),
        ("shared", .leaf (.bool false))])])])]
    else []
  serviceRegistry := [("a", .node [("role", .leaf (.str "web-app-a"))]),
    ("b", .node [("role", .leaf (.str "web-app-b"))])]
  groupVars := [("applications", .node [("web-app-b", .node [("compose", .node [("services",
    .node [("a", .node [("shared", .leaf (.bool true))])])])])])]
  hostVars := []

/-- Roles that depend on each other, one that is loaded, and one that is not known. -/
def threeRoles : Repo where
  index := [("web-app-a", ⟨["web-app-b"], ["svc-x"]⟩), ("web-app-b", ⟨["web-app-a"], []⟩)]
  taskFiles := [("web-app-b", ["- include_role:\n  vars:\n    load_app_id: 'svc-db'\n"])]

theorem closures_reach_two :
    (∃ enough, ∀ fuel, enough ≤ fuel → ∃ expanded,
      twoRoles.expandCredentialRoleIds fuel [" web-app-a"] = some expanded ∧ expanded.Nodup ∧
        ∀ b, b ∈ expanded ↔
          ∃ r ∈ [" web-app-a".toList], Relation.ReflTransGen twoRoles.Shares (strip r) b) ∧
    ∃ enough, ∀ fuel, enough ≤ fuel → ∃ related,
      threeRoles.resolveRelatedRoles fuel ["web-app-a"] = some related ∧ related.Nodup ∧
        ∀ b, b ∈ related ↔
          (∃ r ∈ ["web-app-a".toList], Relation.ReflTransGen threeRoles.Related (strip r) b) ∧
            ∀ r ∈ ["web-app-a".toList], b ≠ strip r :=
  closures_reach twoRoles threeRoles (by decide) (by decide)

example : twoRoles.expandCredentialRoleIds 5 [" web-app-a"] =
    some ["web-app-a".toList, "web-app-b".toList] := by
  decide

example : threeRoles.resolveRelatedRoles 5 ["web-app-a"] =
    some ["web-app-b".toList, "svc-x".toList, "svc-db".toList] := by
  decide

end Demo

end Infinito.Roles
