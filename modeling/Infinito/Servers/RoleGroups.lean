import Infinito.Servers.Regenerated

/-!
# Roles as groups

An inventory comes about in two ways: `_build_inventory` writes one down, and
`_merge_inventory_roles` edits what is there, which may be nothing.

What an inventory says is what its paths find, a mapping or a value. A merge only puts mappings
where nothing was (`Grown`), and only on the way to its alias. `built_as_merged` puts this
together with the memberships: a host is in the groups it was in, and the alias in its roles.
-/

set_option autoImplicit false

namespace Infinito.Servers

open Py Lib

/-! ## What paths find -/

/-- What a path finds: a mapping, whatever is in it, or another value. -/
inductive Seen where
  | mapping
  | value (v : Val)

/-- `d.get(key)`, for a key of any type. -/
noncomputable def valueAt (d : Dict) (key : Val) : Option Val := by
  classical exact (d.find? fun item => item.1 = key).map (·.2)

noncomputable def look (node : Val) : List Val → Option Seen
  | [] => match node with
    | .dict _ => some .mapping
    | v => some (.value v)
  | key :: path => match node with
    | .dict d => match valueAt d key with
      | some v => look v path
      | none => none
    | _ => none

/-- Mappings are added where nothing was, and nothing else is changed. -/
def Grown (added : List Val → Prop) (node node' : Val) : Prop :=
  ∀ path, (∀ seen, look node path = some seen → look node' path = some seen) ∧
    (look node path = none → (added path → look node' path = some .mapping) ∧
      (¬ added path → look node' path = none))

section Look

variable {d : Dict} {key : Val} {name : Text} {node node' node'' v : Val} {path : List Val}
  {added added' : List Val → Prop} {aliasName roleId : Text} {state : Bool × Dict} {roles : List Text}

theorem valueAt_text (d : Dict) (name : Text) : valueAt d (.str name) = Dict.find d name := by
  unfold valueAt Dict.find
  congr 2
  funext item
  cases hkey : isKey name item.1 with
  | true => simp [Dict.isKey_eq.mp hkey]
  | false =>
    have hne : item.1 ≠ .str name := fun heq => by simp [heq, isKey] at hkey
    simp [hne]

theorem valueAt_nil (key : Val) : valueAt [] key = none := rfl

theorem valueAt_cons (item : Val × Val) (d : Dict) (key : Val) :
    (item.1 = key → valueAt (item :: d) key = some item.2) ∧
      (item.1 ≠ key → valueAt (item :: d) key = valueAt d key) := by
  unfold valueAt
  constructor
  · intro heq
    rw [List.find?_cons_of_pos (by simpa using heq)]
    rfl
  · intro hne
    rw [List.find?_cons_of_neg (by simpa using hne)]

theorem valueAt_set_of_ne (hne : key ≠ .str name) (v : Val) (d : Dict) :
    valueAt (Dict.set name v d) key = valueAt d key := by
  induction d with
  | nil =>
    unfold Dict.set
    exact (valueAt_cons _ _ _).2 hne.symm
  | cons item d ih =>
    unfold Dict.set
    by_cases hkey : isKey name item.1 = true
    · have hitem : item.1 ≠ key := by
        rw [Dict.isKey_eq.mp hkey]
        exact hne.symm
      rw [if_pos hkey, (valueAt_cons (item.1, v) _ _).2 hitem, (valueAt_cons item _ _).2 hitem]
    · rw [if_neg hkey]
      by_cases hitem : item.1 = key
      · rw [(valueAt_cons item _ _).1 hitem, (valueAt_cons item _ _).1 hitem]
      · rw [(valueAt_cons item _ _).2 hitem, (valueAt_cons item _ _).2 hitem, ih]

theorem look_cons (d : Dict) (key : Val) (path : List Val) :
    look (.dict d) (key :: path) = (valueAt d key).bind (look · path) := by
  show (match valueAt d key with
    | some v => look v path
    | none => none) = _
  cases valueAt d key <;> rfl

theorem look_set (d : Dict) (name : Text) (v : Val) (path : List Val) :
    look (.dict (Dict.set name v d)) (.str name :: path) = look v path := by
  rw [look_cons, valueAt_text, Dict.find_set_self]
  rfl

theorem look_set_of_ne (hne : key ≠ .str name) (v : Val) (d : Dict) (path : List Val) :
    look (.dict (Dict.set name v d)) (key :: path) = look (.dict d) (key :: path) := by
  rw [look_cons, look_cons, valueAt_set_of_ne hne]

theorem look_empty_cons (key : Val) (path : List Val) : look (.dict []) (key :: path) = none := by
  rw [look_cons, valueAt_nil]
  rfl

theorem Grown.refl (hadded : ∀ path, added path → look node path ≠ none) : Grown added node node :=
  fun path => ⟨fun _ hseen => hseen, fun hnone =>
    ⟨fun hin => absurd hnone (hadded path hin), fun _ => hnone⟩⟩

theorem Grown.trans (h : Grown added node node') (h' : Grown added' node' node'') :
    Grown (fun path => added path ∨ added' path) node node'' := by
  intro path
  refine ⟨fun seen hseen => (h' path).1 seen ((h path).1 seen hseen), fun hnone => ⟨?_, ?_⟩⟩
  · intro hin
    by_cases hfirst : added path
    · exact (h' path).1 _ (((h path).2 hnone).1 hfirst)
    · exact ((h' path).2 (((h path).2 hnone).2 hfirst)).1 (hin.resolve_left hfirst)
  · intro hout
    have hnone' := ((h path).2 hnone).2 fun hin => hout (Or.inl hin)
    exact ((h' path).2 hnone').2 fun hin => hout (Or.inr hin)

theorem Grown.congr (hiff : ∀ path, added path ↔ added' path) (h : Grown added node node') :
    Grown added' node node' := by
  have heq : added = added' := funext fun path => propext (hiff path)
  rw [← heq]
  exact h

/-- A section is a mapping, or it is missing. -/
def Section (d : Dict) (name : Text) : Prop := ∀ v, Dict.find d name = some v → ∃ m, v = .dict m

/-- The section itself, and what is added in it. -/
def below (name : Text) (added : List Val → Prop) (path : List Val) : Prop :=
  ∃ rest, path = .str name :: rest ∧ (rest = [] ∨ added rest)

/-- **A section that grows.** -/
theorem grown_set {m' : Dict} (hsection : Section d name)
    (hgrown : Grown added (.dict (asDict (Dict.get d name))) (.dict m')) :
    Grown (below name added) (.dict d) (.dict (Dict.set name (.dict m') d)) := by
  intro path
  cases path with
  | nil => exact ⟨fun _ hseen => hseen, fun hnone => nomatch hnone⟩
  | cons key path =>
    by_cases hkey : key = .str name
    · rw [hkey, look_set, look_cons, valueAt_text]
      have hiff : below name added (.str name :: path) ↔ path = [] ∨ added path := by
        constructor
        · rintro ⟨rest, heq, hrest⟩
          rw [(List.cons.inj heq).2]
          exact hrest
        · intro hrest
          exact ⟨path, rfl, hrest⟩
      rw [hiff]
      cases hfind : Dict.find d name with
      | none =>
        -- a missing section is an empty one, apart from itself
        unfold Dict.get at hgrown
        rw [hfind] at hgrown
        refine ⟨nofun, fun _ => ?_⟩
        cases path with
        | nil => exact ⟨fun _ => rfl, fun hout => absurd (Or.inl rfl) hout⟩
        | cons key' path =>
          have hnew := (hgrown (key' :: path)).2 (look_empty_cons key' path)
          refine ⟨fun hin => hnew.1 (hin.resolve_left nofun), fun hout => hnew.2 fun hin => ?_⟩
          exact hout (Or.inr hin)
      | some v =>
        obtain ⟨m, rfl⟩ := hsection v hfind
        unfold Dict.get at hgrown
        rw [hfind] at hgrown
        have hm := hgrown path
        refine ⟨hm.1, fun hnone => ⟨fun hin => ?_, fun hout => ?_⟩⟩
        · rcases hin with rfl | hin
          · cases hnone
          · exact (hm.2 hnone).1 hin
        · exact (hm.2 hnone).2 fun hin => hout (Or.inr hin)
    · rw [look_set_of_ne hkey]
      refine ⟨fun _ hseen => hseen, fun hnone => ⟨?_, fun _ => hnone⟩⟩
      rintro ⟨rest, heq, -⟩
      exact absurd (List.cons.inj heq).1 hkey

/-- A key is set to an empty mapping where it was not. -/
theorem grown_set_new (hno : Dict.has d name = false) :
    Grown (· = [.str name]) (.dict d) (.dict (Dict.set name (.dict []) d)) := by
  have hfind : Dict.find d name = none :=
    Option.isNone_iff_eq_none.mp (Option.isSome_eq_false_iff.mp hno)
  have hsection : Section d name := fun v hv => by
    rw [hfind] at hv
    cases hv
  have hget : Dict.get d name = .none := by
    unfold Dict.get
    rw [hfind]
    rfl
  have hempty : Grown (fun _ => False) (.dict (asDict (Dict.get d name))) (.dict []) := by
    rw [hget]
    exact Grown.refl nofun
  refine (grown_set hsection hempty).congr fun path => ?_
  constructor
  · rintro ⟨rest, rfl, rfl | hrest⟩
    · rfl
    · exact hrest.elim
  · rintro rfl
    exact ⟨[], rfl, Or.inl rfl⟩

end Look

/-! ## The groups that roles are -/

/-- The alias is a host of the group. -/
def HasRole (children : Dict) (group aliasName : Text) : Prop :=
  Dict.has (asDict (Dict.get (asDict (Dict.get children group)) "hosts")) aliasName = true

/-- Every group and its hosts are mappings, or missing. -/
def GroupsFit (children : Dict) : Prop :=
  ∀ group, Section children group ∧ Section (asDict (Dict.get children group)) "hosts"

/-- What a role adds to the groups. -/
def roleAdded (aliasName roleId : Text) (path : List Val) : Prop :=
  strip roleId ≠ [] ∧ below (strip roleId) (below "hosts" (· = [.str aliasName])) path

section Roles

variable {d : Dict} {name aliasName roleId group : Text} {state : Bool × Dict} {roles : List Text}

theorem mergeRole_of_there (h : strip roleId ≠ [] → HasRole state.2 (strip roleId) aliasName) :
    mergeRole aliasName state roleId = state := by
  unfold mergeRole
  dsimp only
  split
  · rfl
  · rename_i hne
    exact if_pos (h hne)

theorem mergeRole_of_not (hne : strip roleId ≠ []) (h : ¬ HasRole state.2 (strip roleId) aliasName) :
    mergeRole aliasName state roleId = (true, Dict.set (strip roleId) (.dict (Dict.set "hosts"
      (.dict (Dict.set aliasName (.dict []) (asDict (Dict.get (asDict (Dict.get state.2
        (strip roleId))) "hosts")))) (asDict (Dict.get state.2 (strip roleId))))) state.2) := by
  unfold mergeRole
  dsimp only
  rw [if_neg hne]
  exact if_neg h

/-- A section that something is in is a mapping. -/
theorem find_of_has (h : Dict.has (asDict (Dict.get d name)) group = true) :
    Dict.find d name = some (.dict (asDict (Dict.get d name))) := by
  unfold Dict.get at h ⊢
  cases hfind : Dict.find d name with
  | none =>
    rw [hfind] at h
    cases h
  | some v =>
    rw [hfind] at h
    cases v with
    | dict m => rfl
    | _ => cases h

theorem hasRole_mergeRole (hne : strip roleId ≠ []) :
    HasRole (mergeRole aliasName state roleId).2 (strip roleId) aliasName := by
  by_cases h : HasRole state.2 (strip roleId) aliasName
  · rw [mergeRole_of_there fun _ => h]
    exact h
  · rw [mergeRole_of_not hne h]
    unfold HasRole
    dsimp only
    rw [Dict.get_set_self]
    show Dict.has (asDict (Dict.get (Dict.set "hosts" _ _) "hosts")) aliasName = true
    rw [Dict.get_set_self]
    exact Dict.has_set_self _ _ _

theorem HasRole.mergeRole (h : HasRole state.2 group aliasName) (roleId : Text) :
    HasRole (mergeRole aliasName state roleId).2 group aliasName := by
  by_cases hne : strip roleId = []
  · rw [mergeRole_of_there fun hrole => absurd hne hrole]
    exact h
  by_cases hgroup : group = strip roleId
  · rw [hgroup]
    exact hasRole_mergeRole hne
  by_cases hthere : HasRole state.2 (strip roleId) aliasName
  · rw [mergeRole_of_there fun _ => hthere]
    exact h
  · rw [mergeRole_of_not hne hthere]
    unfold HasRole
    dsimp only
    rw [Dict.get_set_of_ne _ hgroup]
    exact h

theorem HasRole.mergeRoles (h : HasRole state.2 group aliasName) (roles : List Text) :
    HasRole (roles.foldl (Servers.mergeRole aliasName) state).2 group aliasName := by
  induction roles generalizing state with
  | nil => exact h
  | cons roleId roles ih => exact ih (h.mergeRole roleId)

/-- After the loop the alias is in all of its roles. -/
theorem hasRole_mergeRoles (hmem : roleId ∈ roles) (hne : strip roleId ≠ []) :
    HasRole (roles.foldl (mergeRole aliasName) state).2 (strip roleId) aliasName := by
  induction roles generalizing state with
  | nil => cases hmem
  | cons first roles ih =>
    rcases List.mem_cons.mp hmem with rfl | hmem
    · exact (hasRole_mergeRole hne).mergeRoles roles
    · exact ih hmem

/-- Where it is in all of them already, the loop does nothing. -/
theorem mergeRoles_of_there
    (h : ∀ roleId ∈ roles, strip roleId ≠ [] → HasRole state.2 (strip roleId) aliasName) :
    roles.foldl (mergeRole aliasName) state = state := by
  induction roles with
  | nil => rfl
  | cons roleId roles ih =>
    rw [List.foldl_cons, mergeRole_of_there (h roleId List.mem_cons_self)]
    exact ih fun other hother => h other (List.mem_cons_of_mem _ hother)

/-- If nothing was marked as changed, the alias was in all of them. -/
theorem there_of_unchanged (h : (roles.foldl (mergeRole aliasName) state).1 = false) :
    state.1 = false ∧
      ∀ roleId ∈ roles, strip roleId ≠ [] → HasRole state.2 (strip roleId) aliasName := by
  induction roles generalizing state with
  | nil => exact ⟨h, nofun⟩
  | cons roleId roles ih =>
    obtain ⟨hfirst, hrest⟩ := ih h
    by_cases hthere : strip roleId ≠ [] → HasRole state.2 (strip roleId) aliasName
    · rw [mergeRole_of_there hthere] at hfirst hrest
      exact ⟨hfirst, List.forall_mem_cons.mpr ⟨hthere, hrest⟩⟩
    · obtain ⟨hne, hnot⟩ := Classical.not_imp.mp hthere
      rw [mergeRole_of_not hne hnot] at hfirst
      cases hfirst

theorem GroupsFit.mergeRole (hfit : GroupsFit state.2) (roleId : Text) :
    GroupsFit (mergeRole aliasName state roleId).2 := by
  by_cases hthere : strip roleId ≠ [] → HasRole state.2 (strip roleId) aliasName
  · rw [mergeRole_of_there hthere]
    exact hfit
  · obtain ⟨hne, hnot⟩ := Classical.not_imp.mp hthere
    rw [mergeRole_of_not hne hnot]
    intro group
    dsimp only
    by_cases hgroup : group = strip roleId
    · rw [hgroup, Dict.get_set_self]
      refine ⟨fun v hv => ?_, fun v hv => ?_⟩
      · rw [Dict.find_set_self] at hv
        exact ⟨_, (Option.some.inj hv).symm⟩
      · change Dict.find (Dict.set "hosts" _ _) "hosts" = some v at hv
        rw [Dict.find_set_self] at hv
        exact ⟨_, (Option.some.inj hv).symm⟩
    · unfold Section
      rw [Dict.get_set_of_ne _ hgroup, Dict.find_set_of_ne _ hgroup]
      exact hfit group

/-- **One role**: its group grows, on the way to the alias. -/
theorem grown_mergeRole (hfit : GroupsFit state.2) (roleId : Text) :
    Grown (roleAdded aliasName roleId) (.dict state.2) (.dict (mergeRole aliasName state roleId).2) := by
  by_cases hne : strip roleId = []
  · rw [mergeRole_of_there fun hrole => absurd hne hrole]
    exact Grown.refl fun path hin => absurd hne hin.1
  have hadded : ∀ path, below (strip roleId) (below "hosts" (· = [.str aliasName])) path ↔
      roleAdded aliasName roleId path := fun path => (and_iff_right hne).symm
  by_cases hthere : HasRole state.2 (strip roleId) aliasName
  · rw [mergeRole_of_there fun _ => hthere]
    refine Grown.refl fun path hin => ?_
    obtain ⟨v, hv⟩ := Option.isSome_iff_exists.mp hthere
    have hhosts := find_of_has hthere
    have hhas : Dict.has (asDict (Dict.get state.2 (strip roleId))) "hosts" = true := by
      unfold Dict.has
      rw [hhosts]
      rfl
    have hrole := find_of_has hhas
    obtain ⟨rest, rfl, rfl | ⟨rest, rfl, rfl | rfl⟩⟩ := (hadded path).mpr hin
    · rw [look_cons, valueAt_text, hrole]
      exact nofun
    · rw [look_cons, valueAt_text, hrole, Option.bind_some, look_cons, valueAt_text, hhosts]
      exact nofun
    · rw [look_cons, valueAt_text, hrole, Option.bind_some, look_cons, valueAt_text, hhosts,
        Option.bind_some, look_cons, valueAt_text, hv, Option.bind_some]
      cases v <;> exact nofun
  · rw [mergeRole_of_not hne hthere]
    refine (grown_set (hfit _).1 (grown_set (hfit _).2 (grown_set_new ?_))).congr hadded
    exact Bool.not_eq_true _ ▸ hthere

theorem grown_mergeRoles (hfit : GroupsFit state.2) (roles : List Text) :
    Grown (fun path => ∃ roleId ∈ roles, roleAdded aliasName roleId path) (.dict state.2)
      (.dict (roles.foldl (mergeRole aliasName) state).2) := by
  induction roles generalizing state with
  | nil => exact Grown.refl nofun
  | cons roleId roles ih =>
    refine ((grown_mergeRole hfit roleId).trans (ih (hfit.mergeRole roleId))).congr fun path => ?_
    simp only [List.mem_cons, exists_eq_or_imp]

end Roles

/-! ## The inventory -/

/-- All, children, hosts and the groups are mappings, or missing. -/
structure Fits (data : Dict) : Prop where
  all : Section data "all"
  children : Section (asDict (Dict.get data "all")) "children"
  hosts : Section (asDict (Dict.get data "all")) "hosts"
  groups : GroupsFit (asDict (Dict.get (asDict (Dict.get data "all")) "children"))

/-- What a merge may add: the alias among the hosts, and in the groups of its roles. -/
def inventoryAdded (aliasName : Text) (roles : List Text) : List Val → Prop :=
  below "all" fun path =>
    below "children" (fun path => ∃ roleId ∈ roles, roleAdded aliasName roleId path) path ∨
      below "hosts" (· = [.str aliasName]) path

/-- The inventory afterwards. -/
def mergedRoles (data : Dict) (aliasName : Text) (roles : List Text) : Dict :=
  (mergeInventoryRoles data aliasName roles).getD data

/-- A group, from `all` down, and the way to its hosts. -/
def hostsPath : List Text → List Val
  | [] => [.str "hosts"]
  | group :: path => .str "children" :: .str group :: hostsPath path

section Merge

variable {data data' d : Dict} {aliasName other : Text} {roles path : List Text} {node : Val}

theorem look_ne_none_iff_has (name other : Text) :
    look (.dict d) [.str name, .str other] ≠ none ↔
      Dict.has (asDict (Dict.get d name)) other = true := by
  rw [look_cons, valueAt_text]
  unfold Dict.get
  cases Dict.find d name with
  | none => exact iff_of_false (fun h => h rfl) Bool.false_ne_true
  | some v =>
    cases v with
    | dict m =>
      show look (.dict m) [.str other] ≠ none ↔ Dict.has m other = true
      rw [look_cons, valueAt_text]
      unfold Dict.has
      cases Dict.find m other with
      | none => exact iff_of_false (fun h => h rfl) Bool.false_ne_true
      | some v => exact iff_of_true (by cases v <;> exact nofun) rfl
    | _ => exact iff_of_false (fun h => h rfl) Bool.false_ne_true

theorem look_asDict {key : Val} {path : List Val} :
    look (.dict (asDict node)) (key :: path) = look node (key :: path) := by
  cases node with
  | dict d => rfl
  | _ => exact look_empty_cons key path

theorem look_get (name : Text) (d : Dict) {key : Val} {path : List Val} :
    look (.dict d) (.str name :: key :: path) = look (Dict.get d name) (key :: path) := by
  rw [look_cons, valueAt_text]
  unfold Dict.get
  cases Dict.find d name <;> rfl

/-- To be in a group is to be found there. -/
theorem hasHost_iff (node : Val) (path : List Text) (other : Text) :
    HasHost node path other ↔ look node (hostsPath path ++ [.str other]) ≠ none := by
  induction path generalizing node with
  | nil =>
    show Dict.has (asDict (Dict.get (asDict node) "hosts")) other = true ↔ look node [_, _] ≠ none
    rw [← look_asDict, look_ne_none_iff_has]
  | cons group path ih =>
    show HasHost (Dict.get (asDict (Dict.get (asDict node) "children")) group) path other ↔
      look node (.str "children" :: .str group :: (hostsPath path ++ [.str other])) ≠ none
    rw [ih, ← look_asDict, look_get, ← look_asDict]
    cases hpath : hostsPath path ++ [.str other] with
    | nil =>
      rw [List.append_eq_nil_iff] at hpath
      cases hpath.2
    | cons key rest => rw [look_get]

theorem inGroup_iff (data : Dict) (path : List Text) (other : Text) :
    InGroup data path other ↔
      look (.dict data) (.str "all" :: (hostsPath path ++ [.str other])) ≠ none := by
  unfold InGroup
  rw [hasHost_iff]
  cases hpath : hostsPath path ++ [.str other] with
  | nil =>
    rw [List.append_eq_nil_iff] at hpath
    cases hpath.2
  | cons key rest => rw [look_get]

/-- The memberships that are added: the alias itself, and in its roles. -/
theorem inventoryAdded_iff :
    inventoryAdded aliasName roles (.str "all" :: (hostsPath path ++ [.str other])) ↔
      other = aliasName ∧ (path = [] ∨ ∃ roleId ∈ roles, strip roleId ≠ [] ∧ path = [strip roleId]) := by
  constructor
  · rintro ⟨rest, heq, hrest⟩
    obtain ⟨-, rfl⟩ := List.cons.inj heq
    cases path with
    | nil =>
      rcases hrest with hnil | ⟨tail, heq, -⟩ | ⟨tail, heq, hnil | hother⟩
      · cases hnil
      · cases heq
      · rw [← (List.cons.inj heq).2] at hnil
        cases hnil
      · rw [← (List.cons.inj heq).2] at hother
        cases hother
        exact ⟨rfl, Or.inl rfl⟩
    | cons group path =>
      rcases hrest with hnil | ⟨tail, heq, hnil | ⟨roleId, hmem, hne, rest, hrest, hhosts⟩⟩ | ⟨tail, heq, -⟩
      · cases hnil
      · rw [← (List.cons.inj heq).2] at hnil
        cases hnil
      · rw [← (List.cons.inj heq).2] at hrest
        obtain ⟨hgroup, rfl⟩ := List.cons.inj hrest
        cases hgroup
        cases path with
        | cons next path =>
          rcases hhosts with hnil | ⟨tail, heq, -⟩
          · cases hnil
          · cases heq
        | nil =>
          rcases hhosts with hnil | ⟨tail, heq, hnil | hother⟩
          · cases hnil
          · rw [← (List.cons.inj heq).2] at hnil
            cases hnil
          · rw [← (List.cons.inj heq).2] at hother
            cases hother
            exact ⟨rfl, Or.inr ⟨roleId, hmem, hne, rfl⟩⟩
      · cases heq
  · rintro ⟨rfl, rfl | ⟨roleId, hmem, hne, rfl⟩⟩
    · exact ⟨_, rfl, Or.inr (Or.inr ⟨_, rfl, Or.inr rfl⟩)⟩
    · exact ⟨_, rfl, Or.inr (Or.inl ⟨_, rfl, Or.inr ⟨roleId, hmem, hne, _, rfl,
        Or.inr ⟨_, rfl, Or.inr rfl⟩⟩⟩)⟩

theorem mergeInventoryRoles_eq (data : Dict) (aliasName : Text) (roles : List Text) :
    mergeInventoryRoles data aliasName roles =
      let allNode := asDict (Dict.get data "all")
      let hosts := asDict (Dict.get allNode "hosts")
      let merged := roles.foldl (mergeRole aliasName)
        (!Dict.has hosts aliasName, asDict (Dict.get allNode "children"))
      if merged.1 then
        some (Dict.set "all" (.dict (Dict.set "hosts"
          (.dict (if Dict.has hosts aliasName then hosts else Dict.set aliasName (.dict []) hosts))
          (Dict.set "children" (.dict merged.2) allNode))) data)
      else none := rfl

/-- **What is written is what was there, and the way to the alias.** -/
theorem grown_merge (hfits : Fits data)
    (hmerge : mergeInventoryRoles data aliasName roles = some data') :
    Grown (inventoryAdded aliasName roles) (.dict data) (.dict data') := by
  rw [mergeInventoryRoles_eq] at hmerge
  dsimp only at hmerge
  split at hmerge
  · cases hmerge
    refine grown_set hfits.all ?_
    refine (grown_set hfits.children ?_).trans (grown_set ?_ ?_)
    · exact grown_mergeRoles (show GroupsFit
        (!Dict.has (asDict (Dict.get (asDict (Dict.get data "all")) "hosts")) aliasName,
          asDict (Dict.get (asDict (Dict.get data "all")) "children")).2 from hfits.groups) roles
    · unfold Section
      rw [Dict.find_set_of_ne _ (by decide)]
      exact hfits.hosts
    · rw [Dict.get_set_of_ne _ (by decide)]
      split
      · rename_i hhas
        refine Grown.refl ?_
        rintro _ rfl
        obtain ⟨v, hv⟩ := Option.isSome_iff_exists.mp hhas
        rw [look_cons, valueAt_text, hv, Option.bind_some]
        cases v <;> exact nofun
      · rename_i hno
        exact grown_set_new (Bool.not_eq_true _ ▸ hno)
  · cases hmerge

/-- Nothing is written if the alias is there and in all of its roles. -/
theorem merge_eq_none_iff : mergeInventoryRoles data aliasName roles = none ↔
    InGroup data [] aliasName ∧ ∀ roleId ∈ roles, strip roleId ≠ [] →
      InGroup data [strip roleId] aliasName := by
  rw [mergeInventoryRoles_eq]
  dsimp only
  constructor
  · intro h
    split at h
    · cases h
    · rename_i hunchanged
      obtain ⟨hhosts, hroles⟩ := there_of_unchanged (Bool.not_eq_true _ ▸ hunchanged)
      have hhas : Dict.has (asDict (Dict.get (asDict (Dict.get data "all")) "hosts")) aliasName
        = true := by
        simpa using hhosts
      exact ⟨hhas, hroles⟩
  · rintro ⟨hhosts, hroles⟩
    have hhas : Dict.has (asDict (Dict.get (asDict (Dict.get data "all")) "hosts")) aliasName = true :=
      hhosts
    have hfold : roles.foldl (mergeRole aliasName)
        (!Dict.has (asDict (Dict.get (asDict (Dict.get data "all")) "hosts")) aliasName,
          asDict (Dict.get (asDict (Dict.get data "all")) "children")) = _ := mergeRoles_of_there hroles
    rw [hfold, hhas]
    rfl

/-- **Merging again writes nothing.** -/
theorem merge_again (data : Dict) (aliasName : Text) (roles : List Text) :
    mergeInventoryRoles (mergedRoles data aliasName roles) aliasName roles = none := by
  unfold mergedRoles
  cases hmerge : mergeInventoryRoles data aliasName roles with
  | none => exact hmerge
  | some data' =>
    rw [Option.getD_some, merge_eq_none_iff]
    rw [mergeInventoryRoles_eq] at hmerge
    dsimp only at hmerge
    split at hmerge
    · cases hmerge
      constructor
      · show Dict.has (asDict (Dict.get (asDict (Dict.get (Dict.set "all" _ data) "all"))
            "hosts")) _ = true
        rw [Dict.get_set_self]
        show Dict.has (asDict (Dict.get (Dict.set "hosts" _ _) "hosts")) _ = true
        rw [Dict.get_set_self]
        show Dict.has (if _ then _ else _) _ = true
        split
        · assumption
        · exact Dict.has_set_self _ _ _
      · intro roleId hmem hne
        show HasRole (asDict (Dict.get (asDict (Dict.get (Dict.set "all" _ data) "all")) "children")) _ _
        rw [Dict.get_set_self]
        show HasRole (asDict (Dict.get (Dict.set "hosts" _ (Dict.set "children" _ _)) "children")) _ _
        rw [Dict.get_set_of_ne _ (by decide), Dict.get_set_self]
        exact hasRole_mergeRoles hmem hne
    · cases hmerge

/-- Nothing changes on the paths of an inventory but what the merge adds. -/
theorem look_merged (hfits : Fits data) (path : List Val) :
    (∀ seen, look (.dict data) path = some seen →
        look (.dict (mergedRoles data aliasName roles)) path = some seen) ∧
      (look (.dict data) path = none → look (.dict (mergedRoles data aliasName roles)) path = none ∨
        look (.dict (mergedRoles data aliasName roles)) path = some .mapping ∧
          inventoryAdded aliasName roles path) := by
  unfold mergedRoles
  cases hmerge : mergeInventoryRoles data aliasName roles with
  | none => exact ⟨fun _ hseen => hseen, Or.inl⟩
  | some data' =>
    rw [Option.getD_some]
    obtain ⟨hkept, hnew⟩ := grown_merge hfits hmerge path
    refine ⟨hkept, fun hnone => ?_⟩
    by_cases hin : inventoryAdded aliasName roles path
    · exact Or.inr ⟨(hnew hnone).1 hin, hin⟩
    · exact Or.inl ((hnew hnone).2 hin)

theorem inGroup_mergedRoles (hfits : Fits data) (path : List Text) (other : Text) :
    InGroup (mergedRoles data aliasName roles) path other ↔ InGroup data path other ∨
      other = aliasName ∧ (path = [] ∨ ∃ roleId ∈ roles, strip roleId ≠ [] ∧ path = [strip roleId]) := by
  unfold mergedRoles
  cases hmerge : mergeInventoryRoles data aliasName roles with
  | none =>
    obtain ⟨hself, hroles⟩ := merge_eq_none_iff.mp hmerge
    refine ⟨Or.inl, ?_⟩
    rintro (h | ⟨rfl, rfl | ⟨roleId, hmem, hne, rfl⟩⟩)
    · exact h
    · exact hself
    · exact hroles roleId hmem hne
  | some data' =>
    rw [Option.getD_some, inGroup_iff, inGroup_iff, ← inventoryAdded_iff]
    obtain ⟨hkept, hnew⟩ := grown_merge hfits hmerge (.str "all" :: (hostsPath path ++ [.str other]))
    cases hlook : look (.dict data) (.str "all" :: (hostsPath path ++ [.str other])) with
    | some seen =>
      rw [hkept seen hlook]
      exact iff_of_true nofun (Or.inl nofun)
    | none =>
      by_cases hin : inventoryAdded aliasName roles (.str "all" :: (hostsPath path ++ [.str other]))
      · rw [(hnew hlook).1 hin]
        exact iff_of_true nofun (Or.inr hin)
      · rw [(hnew hlook).2 hin]
        exact iff_of_false (fun h => h rfl) fun h => h.elim (fun h => h rfl) hin

end Merge

/-! ## From nothing -/

section Build

variable {aliasName other group : Text} {roles path : List Text} {children : Dict}

/-- The body of the loop in `_build_inventory`. -/
def buildRole (aliasName : Text) (children : Dict) (roleId : Text) : Dict :=
  let roleName := strip roleId
  if roleName = [] ∨ Dict.has children roleName then children
  else Dict.set roleName (.dict [(.str "hosts", .dict [(.str aliasName, .dict [])])]) children

theorem find_buildRoles (roles : List Text) (children : Dict) (group : Text) :
    Dict.find (roles.foldl (buildRole aliasName) children) group =
      (Dict.find children group).or
        (if ∃ roleId ∈ roles, strip roleId ≠ [] ∧ strip roleId = group then
          some (.dict [(.str "hosts", .dict [(.str aliasName, .dict [])])]) else none) := by
  induction roles generalizing children with
  | nil =>
    rw [if_neg nofun, Option.or_none]
    rfl
  | cons roleId roles ih =>
    rw [List.foldl_cons, ih]
    simp only [List.mem_cons, exists_eq_or_imp]
    unfold buildRole
    dsimp only
    by_cases hskip : strip roleId = [] ∨ Dict.has children (strip roleId)
    · rw [if_pos hskip]
      by_cases hgroup : strip roleId = group
      · rcases hskip with hnil | hhas
        · simp [hnil]
        · rw [hgroup] at hhas
          obtain ⟨v, hv⟩ := Option.isSome_iff_exists.mp hhas
          rw [hv]
          rfl
      · simp [hgroup]
    · rw [if_neg hskip]
      obtain ⟨hne, hno⟩ := not_or.mp hskip
      by_cases hgroup : strip roleId = group
      · have hnone : Dict.find children group = none := by
          rw [← hgroup]
          unfold Dict.has at hno
          simpa using hno
        rw [← hgroup, Dict.find_set_self, hgroup, hnone, if_pos (Or.inl ⟨hgroup ▸ hne, rfl⟩)]
        rfl
      · rw [Dict.find_set_of_ne _ (Ne.symm hgroup)]
        simp [hgroup]

theorem buildInventory_eq (roles : List Text) (aliasName : Text) :
    buildInventory roles aliasName =
      [(.str "all", .dict [(.str "children", .dict (roles.foldl (buildRole aliasName) []))])] := rfl

/-- The groups of an inventory that was written down. -/
theorem inGroup_build (roles : List Text) (aliasName : Text) (group : Text) (path : List Text)
    (other : Text) : InGroup (buildInventory roles aliasName) (group :: path) other ↔
      other = aliasName ∧ ∃ roleId ∈ roles, strip roleId ≠ [] ∧ group :: path = [strip roleId] := by
  rw [buildInventory_eq]
  show HasHost (Dict.get (roles.foldl (buildRole aliasName) []) group) path other ↔ _
  unfold Dict.get
  rw [find_buildRoles, Dict.find_nil, Option.none_or]
  by_cases hrole : ∃ roleId ∈ roles, strip roleId ≠ [] ∧ strip roleId = group
  · rw [if_pos hrole, Option.getD_some]
    cases path with
    | nil =>
      obtain ⟨roleId, hmem, hne, hgroup⟩ := hrole
      have hhas : HasHost (.dict [(.str "hosts", .dict [(.str aliasName, .dict [])])]) [] other ↔
          other = aliasName := by
        show Dict.has [(.str aliasName, .dict [])] other = true ↔ _
        unfold Dict.has
        rw [Dict.find_cons]
        cases hkey : isKey other (.str aliasName) with
        | true => exact iff_of_true rfl (by cases Dict.isKey_eq.mp hkey; rfl)
        | false =>
          refine iff_of_false Bool.false_ne_true ?_
          rintro rfl
          simp [isKey] at hkey
      rw [hhas]
      exact (and_iff_left ⟨roleId, hmem, hne, by rw [hgroup]⟩).symm
    | cons next path =>
      refine iff_of_false (no_host_below_none other path) ?_
      rintro ⟨-, roleId, -, -, heq⟩
      cases heq
  · rw [if_neg hrole]
    refine iff_of_false (no_host_below_none other path) ?_
    rintro ⟨-, roleId, hmem, hne, heq⟩
    exact hrole ⟨roleId, hmem, hne, (List.cons.inj heq).1.symm⟩

theorem fits_nil : Fits [] := by
  have hnone (name : Text) : Section [] name := fun v hv => by cases hv
  exact ⟨hnone _, hnone _, hnone _, fun group => ⟨hnone _, hnone _⟩⟩

end Build

/-- **Creating and merging agree**: from nothing both give the same role groups; merging again
    writes nothing; and of an inventory that is there a merge keeps all that its paths find,
    adding the memberships of the alias and nothing else. -/
theorem built_as_merged (aliasName : Text) (roles : List Text) :
    (∃ merged, mergeInventoryRoles [] aliasName roles = some merged ∧
        ∀ other path, path ≠ [] →
          (InGroup (buildInventory roles aliasName) path other ↔ InGroup merged path other)) ∧
      (∀ data, mergeInventoryRoles (mergedRoles data aliasName roles) aliasName roles = none) ∧
      ∀ data, Fits data →
        (∀ path seen, look (.dict data) path = some seen →
          look (.dict (mergedRoles data aliasName roles)) path = some seen) ∧
        (∀ path, look (.dict data) path = none →
          look (.dict (mergedRoles data aliasName roles)) path = none ∨
            look (.dict (mergedRoles data aliasName roles)) path = some .mapping ∧
              inventoryAdded aliasName roles path) ∧
        ∀ path other, InGroup (mergedRoles data aliasName roles) path other ↔
          InGroup data path other ∨ other = aliasName ∧
            (path = [] ∨ ∃ roleId ∈ roles, strip roleId ≠ [] ∧ path = [strip roleId]) := by
  refine ⟨?_, fun data => merge_again data aliasName roles, fun data hfits => ⟨?_, ?_, ?_⟩⟩
  · cases hmerge : mergeInventoryRoles [] aliasName roles with
    | none => exact absurd (merge_eq_none_iff.mp hmerge).1 Bool.false_ne_true
    | some merged =>
      refine ⟨merged, rfl, fun other path hpath => ?_⟩
      have hmerged : mergedRoles [] aliasName roles = merged := by
        unfold mergedRoles
        rw [hmerge]
        rfl
      obtain ⟨group, path, rfl⟩ := List.exists_cons_of_ne_nil hpath
      have hnone : ¬ InGroup [] (group :: path) other := no_host_below_none other (group :: path)
      rw [inGroup_build, ← hmerged, inGroup_mergedRoles fits_nil]
      simp only [hnone, false_or, reduceCtorEq]
  · exact fun path => (look_merged hfits path).1
  · exact fun path => (look_merged hfits path).2
  · exact fun path other => inGroup_mergedRoles hfits path other

section Demo

/-- An inventory with one server, and no groups yet. -/
def onlyDb : Dict := [(.str "all", .dict [(.str "hosts", .dict [(.str "db", .dict [])])])]

theorem onlyDb_fits : Fits onlyDb where
  all v hv := by
    cases hv
    exact ⟨_, rfl⟩
  children v hv := by cases hv
  hosts v hv := by
    cases hv
    exact ⟨_, rfl⟩
  groups group := ⟨fun v hv => (nomatch hv : False).elim, fun v hv => (nomatch hv : False).elim⟩

/-- A second server, with a role that is named twice. -/
theorem srv_merged :
    InGroup (mergedRoles onlyDb "srv" [" web ".toList, "web".toList]) ["web".toList] "srv" ∧
      InGroup (mergedRoles onlyDb "srv" [" web ".toList, "web".toList]) [] "db" := by
  have hmerged := ((built_as_merged "srv" [" web ".toList, "web".toList]).2.2 onlyDb onlyDb_fits).2.2
  refine ⟨(hmerged _ _).mpr (Or.inr ⟨rfl, Or.inr ⟨"web".toList, ?_, ?_, ?_⟩⟩),
    (hmerged _ _).mpr (Or.inl rfl)⟩
  · exact List.mem_cons_of_mem _ List.mem_cons_self
  · decide
  · decide

end Demo

end Infinito.Servers
