import Infinito.Panel.Selection

/-!
# The inventory follows the selection

`syncInventoryWithSelection`: every group gets the aliases that the selection wants in it and loses
the other managed ones, and a group in which no host is left is dropped. `get_synced` is what the
run makes of one group; what it means for an alias, for a group and for a second run follows from
that, and `sync_ok_iff` says when all of it is as it should be.
-/

set_option autoImplicit false

namespace Infinito.Panel

open Lib
open Lib.Json (Value)
open Orders (jsTrim jsTrim_jsTrim)

/-! ## The run -/

/-- `desiredHostsByRole[roleId].add(alias)` -/
def addHost (role name : Text) (desired : Selection) : Selection :=
  let hosts := (Items.get role desired).getD []
  Items.set role (if name ∈ hosts then hosts else hosts ++ [name]) desired

/-- `desiredHostsByRole` -/
def desiredHostsByRole (merged : Selection) : Selection :=
  (managedAliases merged).foldl (fun desired name =>
    (selectedRoles merged name).foldl (fun desired role => addHost role name desired) desired) []

/-- `desiredAliasesForRole` -/
def desiredHosts (merged : Selection) (role : Text) : List Text :=
  (Items.get role (desiredHostsByRole merged)).getD []

/-- The desired aliases put to the hosts, and whether one was missing. -/
def addDesired (desired : List Text) (hosts : Obj) : Obj × Bool :=
  desired.foldl (fun s name =>
    if hasOwn name s.1 then s else (Items.set name (.obj []) s.1, true)) (hosts, false)

/-- `managedAliases.has(alias) && !desiredAliasesForRole.has(alias)` -/
def unwanted (managed desired : List Text) (name : Text) : Bool := name ∈ managed && name ∉ desired

/-- The hosts that are left in a group. -/
def syncHosts (managed desired : List Text) (hosts : Obj) : Obj :=
  (addDesired desired hosts).1.filter fun host => !unwanted managed desired host.1

def syncChanged (managed desired : List Text) (hosts : Obj) : Bool :=
  (addDesired desired hosts).2 ||
    (addDesired desired hosts).1.any fun host => unwanted managed desired host.1

/-- The hosts of a group that may not be there. -/
def hostsHere (existing : Option Value) : Obj := (hostsOf (existing.getD .null)).getD []

/-- The body of the loop of `syncInventoryWithSelection`. -/
def syncEdit (managed desired : List Text) (existing : Option Value) : Edit Value :=
  let hosts := syncHosts managed desired (hostsHere existing)
  let changed := syncChanged managed desired (hostsHere existing)
  if hosts = [] then .drop (changed || existing.isSome)
  else .put (withHosts (existing.getD .null) hosts) changed

/-- `roleIdsToProcess` -/
def roleIdsToProcess (merged : Selection) (data : Value) : List Text :=
  setOf ((childrenNode data).map (·.1) ++ (desiredHostsByRole merged).map (·.1))

def syncGroup (merged : Selection) (role : Text) (existing : Option Value) : Edit Value :=
  syncEdit (managedAliases merged) (desiredHosts merged role) existing

/-- `syncInventoryWithSelection`: what it writes. -/
def syncInventoryWithSelection (selected : Selection) (hostVarsAliases : List Text) (data : Value) :
    Option Value :=
  let merged := mergeRolesByAlias selected hostVarsAliases
  writtenOf data (editAll (syncGroup merged) (roleIdsToProcess merged data) (childrenNode data))

/-! ## The desired hosts -/

section Desired
variable {merged : Selection} {role name : Text}

theorem mem_addHost {other item : Text} {desired : Selection} :
    item ∈ (Items.get other (addHost role name desired)).getD [] ↔
      item ∈ (Items.get other desired).getD [] ∨ (other = role ∧ item = name) := by
  unfold addHost
  rw [Items.get_set]
  by_cases h : other = role
  · rw [if_pos h, Option.getD_some, h]
    by_cases hmem : name ∈ (Items.get role desired).getD []
    · rw [if_pos hmem]
      constructor
      · exact Or.inl
      · intro hitem
        rcases hitem with hitem | ⟨-, rfl⟩
        · exact hitem
        · exact hmem
    · rw [if_neg hmem, List.mem_append, List.mem_singleton]
      simp
  · rw [if_neg h]
    simp [h]

theorem mem_addHosts {other item : Text} {roles : List Text} {desired : Selection} :
    item ∈ (Items.get other
        (roles.foldl (fun desired role => addHost role name desired) desired)).getD [] ↔
      item ∈ (Items.get other desired).getD [] ∨ (other ∈ roles ∧ item = name) := by
  induction roles generalizing desired with
  | nil => simp
  | cons role roles ih =>
    rw [List.foldl_cons, ih, mem_addHost, List.mem_cons, or_assoc, or_and_right]

theorem mem_desiredHosts :
    name ∈ desiredHosts merged role ↔
      name ∈ managedAliases merged ∧ role ∈ selectedRoles merged name := by
  have hgo : ∀ (names : List Text) (desired : Selection),
      name ∈ (Items.get role (names.foldl (fun desired name => (selectedRoles merged name).foldl
        (fun desired role => addHost role name desired) desired) desired)).getD [] ↔
      name ∈ (Items.get role desired).getD [] ∨
        (name ∈ names ∧ role ∈ selectedRoles merged name) := by
    intro names
    induction names with
    | nil => simp
    | cons other names ih =>
      intro desired
      rw [List.foldl_cons, ih, mem_addHosts, List.mem_cons, or_assoc, or_and_right]
      refine or_congr_right (or_congr_left ?_)
      constructor
      · rintro ⟨hrole, rfl⟩
        exact ⟨rfl, hrole⟩
      · rintro ⟨rfl, hrole⟩
        exact ⟨hrole, rfl⟩
  unfold desiredHosts desiredHostsByRole
  rw [hgo]
  exact or_iff_right List.not_mem_nil

theorem desiredHosts_of_not_mem {data : Value} (h : role ∉ roleIdsToProcess merged data) :
    Items.get role (childrenNode data) = none ∧ desiredHosts merged role = [] := by
  unfold roleIdsToProcess at h
  rw [mem_setOf, List.mem_append, not_or] at h
  refine ⟨Items.get_eq_none_iff.mpr h.1, ?_⟩
  unfold desiredHosts
  rw [Items.get_eq_none_iff.mpr h.2]
  rfl

end Desired

/-! ## One group -/

section Group
variable {managed desired : List Text} {hosts : Obj} {name : Text}

theorem get_addDesired (name : Text) (desired : List Text) (hosts : Obj) :
    Items.get name (addDesired desired hosts).1 =
      if name ∈ desired then some ((Items.get name hosts).getD (.obj []))
      else Items.get name hosts := by
  have hgo : ∀ (desired : List Text) (s : Obj × Bool), Items.get name (desired.foldl (fun s name =>
      if hasOwn name s.1 then s else (Items.set name (Value.obj []) s.1, true)) s).1 =
      if name ∈ desired then some ((Items.get name s.1).getD (.obj [])) else Items.get name s.1 := by
    intro desired
    induction desired with
    | nil => exact fun s => (if_neg List.not_mem_nil).symm
    | cons other desired ih =>
      intro s
      rw [List.foldl_cons, ih]
      by_cases hown : hasOwn other s.1 = true
      · rw [if_pos hown]
        by_cases heq : name = other
        · subst heq
          obtain ⟨value, hvalue⟩ := hasOwn_iff.mp hown
          rw [if_pos List.mem_cons_self, hvalue]
          exact ite_self _
        · simp [heq]
      · rw [if_neg hown, Items.get_set]
        by_cases heq : name = other
        · subst heq
          have hnone : Items.get name s.1 = none := by
            unfold hasOwn at hown
            simpa using hown
          rw [if_pos rfl, if_pos List.mem_cons_self, hnone]
          exact ite_self _
        · rw [if_neg heq]
          simp [heq]
  exact hgo desired (hosts, false)

theorem addDesired_of_all (h : ∀ name ∈ desired, hasOwn name hosts = true) :
    addDesired desired hosts = (hosts, false) := by
  unfold addDesired
  induction desired with
  | nil => rfl
  | cons other desired ih =>
    rw [List.foldl_cons, if_pos (h other List.mem_cons_self)]
    exact ih fun name hname => h name (List.mem_cons_of_mem _ hname)

theorem all_of_addDesired (h : (addDesired desired hosts).2 = false) :
    ∀ name ∈ desired, hasOwn name hosts = true := by
  have hflag : ∀ (desired : List Text) (s : Obj × Bool), s.2 = true → (desired.foldl (fun s name =>
      if hasOwn name s.1 then s else (Items.set name (Value.obj []) s.1, true)) s).2 = true := by
    intro desired
    induction desired with
    | nil => exact fun s hs => hs
    | cons other desired ih =>
      intro s hs
      rw [List.foldl_cons]
      refine ih _ ?_
      split
      · exact hs
      · rfl
  unfold addDesired at h
  induction desired with
  | nil => exact fun name hname => absurd hname List.not_mem_nil
  | cons other desired ih =>
    rw [List.foldl_cons] at h
    by_cases hown : hasOwn other hosts = true
    · rw [if_pos hown] at h
      intro name hname
      rcases List.mem_cons.mp hname with rfl | hname
      · exact hown
      · exact ih h name hname
    · rw [if_neg hown, hflag desired _ rfl] at h
      cases h

theorem get_syncHosts (name : Text) :
    Items.get name (syncHosts managed desired hosts) =
      if name ∈ desired then some ((Items.get name hosts).getD (.obj []))
      else if name ∈ managed then none else Items.get name hosts := by
  unfold syncHosts
  rw [Items.get_filter (fun name => !unwanted managed desired name), get_addDesired]
  unfold unwanted
  by_cases hdesired : name ∈ desired
  · simp [hdesired]
  · by_cases hname : name ∈ managed
    · simp [hdesired, hname]
    · simp [hdesired, hname]

theorem hasOwn_syncHosts :
    hasOwn name (syncHosts managed desired hosts) = true ↔
      name ∈ desired ∨ (name ∉ managed ∧ hasOwn name hosts = true) := by
  unfold hasOwn
  rw [get_syncHosts]
  by_cases hdesired : name ∈ desired
  · simp [hdesired]
  · by_cases hname : name ∈ managed
    · simp [hdesired, hname]
    · simp [hdesired, hname]

/-- Nothing has to be done for a group when it has the desired hosts and no other managed one. -/
theorem syncHosts_self (hall : ∀ name ∈ desired, hasOwn name hosts = true)
    (hnone : ∀ host ∈ hosts, unwanted managed desired host.1 = false) :
    syncHosts managed desired hosts = hosts := by
  unfold syncHosts
  rw [addDesired_of_all hall, List.filter_eq_self]
  intro host hhost
  rw [hnone host hhost]
  rfl

theorem syncChanged_eq_false :
    syncChanged managed desired hosts = false ↔
      (∀ name ∈ desired, hasOwn name hosts = true) ∧
        ∀ host ∈ hosts, unwanted managed desired host.1 = false := by
  unfold syncChanged
  rw [Bool.or_eq_false_iff]
  constructor
  · intro h
    have hall := all_of_addDesired h.1
    rw [addDesired_of_all hall, List.any_eq_false] at h
    exact ⟨hall, fun host hhost => Bool.eq_false_iff.mpr (h.2 host hhost)⟩
  · intro h
    rw [addDesired_of_all h.1, List.any_eq_false]
    exact ⟨rfl, fun host hhost => Bool.eq_false_iff.mp (h.2 host hhost)⟩

theorem result_syncEdit (existing v : Option Value) :
    (syncEdit managed desired existing).result v =
      if syncHosts managed desired (hostsHere existing) = [] then none
      else some (withHosts (existing.getD .null)
        (syncHosts managed desired (hostsHere existing))) := by
  unfold syncEdit
  dsimp only
  split
  · rfl
  · rfl

/-- A step changes nothing exactly if the desired hosts are there, no other managed one is, and a
    group that is there has some host. -/
theorem changed_syncEdit_eq_false {existing : Option Value} :
    (syncEdit managed desired existing).changed = false ↔
      syncChanged managed desired (hostsHere existing) = false ∧
        (hostsHere existing = [] → existing = none) := by
  have hself : syncChanged managed desired (hostsHere existing) = false →
      syncHosts managed desired (hostsHere existing) = hostsHere existing := by
    intro h
    obtain ⟨hall, hnone⟩ := syncChanged_eq_false.mp h
    exact syncHosts_self hall hnone
  unfold syncEdit
  dsimp only
  by_cases hempty : syncHosts managed desired (hostsHere existing) = []
  · rw [if_pos hempty]
    show (syncChanged managed desired (hostsHere existing) || existing.isSome) = false ↔ _
    rw [Bool.or_eq_false_iff, Option.isSome_eq_false_iff, Option.isNone_iff_eq_none]
    refine and_congr_right fun h => ?_
    rw [← hself h]
    exact ⟨fun hnone _ => hnone, fun hnone => hnone hempty⟩
  · rw [if_neg hempty]
    show syncChanged managed desired (hostsHere existing) = false ↔ _
    refine (and_iff_left_of_imp ?_).symm
    intro h hhosts
    rw [hself h] at hempty
    exact absurd hhosts hempty

end Group

/-! ## The whole inventory -/

/-- The inventory after `syncInventoryWithSelection`. -/
def synced (merged : Selection) (data : Value) : Value :=
  afterEdit (syncGroup merged) (roleIdsToProcess merged data) data

/-- The hosts of a group. -/
def hostsIn (data : Value) (group : Text) : Obj := hostsHere (Items.get group (childrenNode data))

section Run
variable (merged : Selection) (inv : Inventory) {group name role : Text}

theorem inGroup_iff {data : Value} : InGroup data group name ↔ hasOwn name (hostsIn data group) = true := by
  unfold InGroup Holds hostsIn hostsHere
  cases Items.get group (childrenNode data) with
  | none => simp [hostsOf, properties, hasOwn]
  | some entry => simp

theorem syncGroup_honest (group : Text)
    (hchanged : (syncGroup merged group (Items.get group (childrenNode inv.data))).changed = false) :
    (syncGroup merged group (Items.get group (childrenNode inv.data))).result
      (Items.get group (childrenNode inv.data)) = Items.get group (childrenNode inv.data) := by
  obtain ⟨hsync, hempty⟩ := changed_syncEdit_eq_false.mp hchanged
  obtain ⟨hall, hnone⟩ := syncChanged_eq_false.mp hsync
  unfold syncGroup
  rw [result_syncEdit, syncHosts_self hall hnone]
  by_cases hhosts : hostsHere (Items.get group (childrenNode inv.data)) = []
  · rw [if_pos hhosts, hempty hhosts]
  · rw [if_neg hhosts]
    cases hget : Items.get group (childrenNode inv.data) with
    | none =>
      rw [hget] at hhosts
      exact absurd rfl hhosts
    | some entry =>
      rw [hget] at hhosts
      obtain ⟨hentry, harray⟩ := inv.noArray _ (Items.mem_of_get hget)
      have hsome : hostsOf entry = some (hostsHere (some entry)) := by
        unfold hostsHere at hhosts ⊢
        rw [Option.getD_some] at hhosts ⊢
        cases hown : hostsOf entry with
        | none =>
          rw [hown] at hhosts
          exact absurd rfl hhosts
        | some hosts => rfl
      exact congrArg some (withHosts_self hentry harray hsome)

/-- What the run makes of a group. -/
theorem get_synced (group : Text) :
    Items.get group (childrenNode (synced merged inv.data)) =
      if syncHosts (managedAliases merged) (desiredHosts merged group)
        (hostsIn inv.data group) = [] then none
      else some (withHosts ((Items.get group (childrenNode inv.data)).getD .null)
        (syncHosts (managedAliases merged) (desiredHosts merged group)
          (hostsIn inv.data group))) := by
  have hstep : (syncGroup merged group (Items.get group (childrenNode inv.data))).result
      (Items.get group (childrenNode inv.data)) = _ := result_syncEdit _ _
  have hkeys : (roleIdsToProcess merged inv.data).Nodup := nodup_setOf _
  unfold synced
  rw [get_afterEdit hkeys fun group _ => syncGroup_honest merged inv group]
  by_cases hmem : group ∈ roleIdsToProcess merged inv.data
  · rw [if_pos hmem]
    exact hstep
  · rw [if_neg hmem]
    obtain ⟨hget, hdesired⟩ := desiredHosts_of_not_mem hmem
    unfold hostsIn
    rw [hget, hdesired]
    rfl

theorem hostsIn_synced (group : Text) :
    hostsIn (synced merged inv.data) group =
      syncHosts (managedAliases merged) (desiredHosts merged group) (hostsIn inv.data group) := by
  rw [hostsIn, get_synced]
  by_cases hempty : syncHosts (managedAliases merged) (desiredHosts merged group)
      (hostsIn inv.data group) = []
  · rw [if_pos hempty, hempty]
    rfl
  · rw [if_neg hempty]
    unfold hostsHere
    rw [Option.getD_some, hostsOf_withHosts]
    rfl

/-- An alias is in a group afterwards when the selection wants it there, or when it is not managed
    and was there. -/
theorem inGroup_synced :
    InGroup (synced merged inv.data) group name ↔
      (name ∈ managedAliases merged ∧ group ∈ selectedRoles merged name) ∨
        (name ∉ managedAliases merged ∧ InGroup inv.data group name) := by
  rw [inGroup_iff, hostsIn_synced, hasOwn_syncHosts, mem_desiredHosts, inGroup_iff]

/-- The keys of the groups are all different afterwards. -/
theorem nodup_synced : ((childrenNode (synced merged inv.data)).map (·.1)).Nodup := by
  unfold synced afterEdit writtenOf
  split
  · rw [Option.getD_some, childrenNode_withChildren]
    exact nodup_editAll _ _ inv.nodup
  · exact inv.nodup

theorem mem_keys {m : Obj} : name ∈ m.map (·.1) ↔ hasOwn name m = true := by
  rw [← not_iff_not, ← Items.get_eq_none_iff]
  unfold hasOwn
  rw [Bool.not_eq_true, Option.isSome_eq_false_iff, Option.isNone_iff_eq_none]

theorem mem_hostNames_synced {item : Text × Value}
    (hitem : item ∈ childrenNode (synced merged inv.data)) :
    name ∈ hostNames item.2 ↔ InGroup (synced merged inv.data) item.1 name := by
  have hget := Items.get_of_mem (nodup_synced merged inv) hitem
  rw [inGroup_iff, hostsIn_synced]
  rw [get_synced] at hget
  by_cases hempty : syncHosts (managedAliases merged) (desiredHosts merged item.1)
      (hostsIn inv.data item.1) = []
  · rw [if_pos hempty] at hget
    cases hget
  · rw [if_neg hempty] at hget
    rw [← Option.some.inj hget, ← mem_keys]
    unfold hostNames withHosts prop
    rw [objectOf_obj, Items.get_set_self]
    rfl

/-- The roles that are reported afterwards. -/
theorem mem_reportedRoles_synced :
    role ∈ reportedRoles (synced merged inv.data) name ↔
      name ≠ [] ∧ role ≠ [] ∧ ∃ group host, InGroup (synced merged inv.data) group host ∧
        jsTrim group = role ∧ jsTrim host = name := by
  rw [mem_reportedRoles]
  refine and_congr_right fun _ => and_congr_right fun _ => ?_
  constructor
  · intro h
    obtain ⟨item, hitem, hrole, host, hhost, hname⟩ := h
    exact ⟨item.1, host, (mem_hostNames_synced merged inv hitem).mp hhost, hrole, hname⟩
  · intro h
    obtain ⟨group, host, hgroup, hrole, hname⟩ := h
    have hin := hgroup
    obtain ⟨entry, hentry, -⟩ := hin
    have hitem := Items.mem_of_get hentry
    exact ⟨(group, entry), hitem, hrole, host, (mem_hostNames_synced merged inv hitem).mpr hgroup,
      hname⟩

/-! ### The selection is reached -/

/-- A host under another spelling of a managed alias is in a group that is selected for it. -/
def SpellingsSelected (data : Value) : Prop :=
  ∀ group host, InGroup data group host → jsTrim host ∈ managedAliases merged →
    jsTrim host ≠ host → jsTrim group = [] ∨ jsTrim group ∈ selectedRoles merged (jsTrim host)

/-- A group without a host is wanted for some alias. -/
def HostlessSelected (data : Value) : Prop :=
  ∀ group, Items.get group (childrenNode data) ≠ none → hostsIn data group = [] →
    ∃ name ∈ managedAliases merged, group ∈ selectedRoles merged name

theorem reported_iff :
    (∀ name ∈ managedAliases merged, ∀ role,
      role ∈ reportedRoles (synced merged inv.data) name ↔ role ∈ selectedRoles merged name) ↔
      SpellingsSelected merged inv.data := by
  constructor
  · intro h group host hgroup hmanaged hspelling
    have hhost : host ∉ managedAliases merged := fun h' => hspelling (jsTrim_of_mem_managed h').1
    by_cases hrole : jsTrim group = []
    · exact Or.inl hrole
    · refine Or.inr ((h _ hmanaged _).mp ((mem_reportedRoles_synced merged inv).mpr ?_))
      exact ⟨(jsTrim_of_mem_managed hmanaged).2, hrole, group, host,
        (inGroup_synced merged inv).mpr (Or.inr ⟨hhost, hgroup⟩), rfl, rfl⟩
  · intro h name hname role
    obtain ⟨htrim, hne⟩ := jsTrim_of_mem_managed hname
    rw [mem_reportedRoles_synced]
    constructor
    · rintro ⟨-, hrole, group, host, hgroup, rfl, rfl⟩
      rcases (inGroup_synced merged inv).mp hgroup with ⟨hhost, hselected⟩ | ⟨hhost, hold⟩
      · rw [(jsTrim_of_mem_managed hhost).1, jsTrim_of_mem_normalizeRoles hselected]
        exact hselected
      · have hspelling : jsTrim host ≠ host := by
          intro heq
          rw [heq] at hname
          exact hhost hname
        exact (h group host hold hname hspelling).resolve_left hrole
    · intro hrole
      exact ⟨hne, (mem_normalizeRoles.mp hrole).1, role, name,
        (inGroup_synced merged inv).mpr (Or.inl ⟨hname, hrole⟩),
        jsTrim_of_mem_normalizeRoles hrole, htrim⟩

/-! ### The rest is as it was -/

/-- The hosts that are not managed stay, with their variables. -/
theorem unmanaged_synced (hname : name ∉ managedAliases merged) (group : Text) :
    Items.get name (hostsIn (synced merged inv.data) group) =
      Items.get name (hostsIn inv.data group) := by
  have hdesired : name ∉ desiredHosts merged group := fun h => hname (mem_desiredHosts.mp h).1
  rw [hostsIn_synced, get_syncHosts, if_neg hdesired, if_neg hname]

/-- A group keeps what it has beside its hosts. -/
theorem vars_synced {entry entry' : Value}
    (hentry : Items.get group (childrenNode inv.data) = some entry)
    (hentry' : Items.get group (childrenNode (synced merged inv.data)) = some entry')
    {key : Text} (hkey : key ≠ "hosts".toList) :
    Items.get key (objectOf entry') = Items.get key (objectOf entry) := by
  rw [get_synced, hentry] at hentry'
  by_cases hempty : syncHosts (managedAliases merged) (desiredHosts merged group)
      (hostsIn inv.data group) = []
  · rw [if_pos hempty] at hentry'
    cases hentry'
  · rw [if_neg hempty] at hentry'
    rw [← Option.some.inj hentry']
    unfold withHosts
    rw [objectOf_obj, Items.get_set_of_ne hkey]
    rfl

/-- No managed alias is in the group. -/
def Unmanaged (data : Value) (group : Text) : Prop :=
  ∀ name ∈ managedAliases merged, ¬ InGroup data group name

theorem untouched_iff :
    (∀ group, Unmanaged merged inv.data group → Unmanaged merged (synced merged inv.data) group →
      Items.get group (childrenNode (synced merged inv.data)) =
        Items.get group (childrenNode inv.data)) ↔
      HostlessSelected merged inv.data := by
  constructor
  · intro h group hthere hempty
    by_contra hnone
    push Not at hnone
    have hdesired : desiredHosts merged group = [] := by
      rw [List.eq_nil_iff_forall_not_mem]
      intro name hname
      obtain ⟨hmanaged, hrole⟩ := mem_desiredHosts.mp hname
      exact hnone name hmanaged hrole
    have hbefore : Unmanaged merged inv.data group := by
      intro name _ hin
      rw [inGroup_iff, hempty] at hin
      cases hin
    have hafter : Unmanaged merged (synced merged inv.data) group := by
      intro name hname hin
      rcases (inGroup_synced merged inv).mp hin with ⟨-, hrole⟩ | ⟨hno, -⟩
      · exact hnone name hname hrole
      · exact hno hname
    have hsame := h group hbefore hafter
    rw [get_synced, hempty, hdesired] at hsame
    exact hthere hsame.symm
  · intro h group hbefore hafter
    have hdesired : ∀ name, name ∉ desiredHosts merged group := by
      intro name hname
      obtain ⟨hmanaged, hrole⟩ := mem_desiredHosts.mp hname
      exact hafter name hmanaged ((inGroup_synced merged inv).mpr (Or.inl ⟨hmanaged, hrole⟩))
    have hchanged : (syncGroup merged group (Items.get group (childrenNode inv.data))).changed =
        false := by
      refine changed_syncEdit_eq_false.mpr ⟨syncChanged_eq_false.mpr ⟨?_, ?_⟩, ?_⟩
      · intro name hname
        exact absurd hname (hdesired name)
      · intro host hhost
        have hin : InGroup inv.data group host.1 := by
          rw [inGroup_iff, ← mem_keys]
          exact List.mem_map_of_mem hhost
        have hno : host.1 ∉ managedAliases merged := fun hmanaged => hbefore _ hmanaged hin
        unfold unwanted
        simp [hno]
      · intro hempty
        by_contra hthere
        obtain ⟨name, hmanaged, hrole⟩ := h group hthere hempty
        exact hdesired name (mem_desiredHosts.mpr ⟨hmanaged, hrole⟩)
    have hself := syncGroup_honest merged inv group hchanged
    refine Eq.trans ?_ hself
    rw [get_synced]
    exact (result_syncEdit _ _).symm

/-! ### A second run -/

theorem changed_synced (group : Text) :
    (syncGroup merged group (Items.get group (childrenNode (synced merged inv.data)))).changed =
      false := by
  have hhosts : hostsHere (Items.get group (childrenNode (synced merged inv.data))) =
      syncHosts (managedAliases merged) (desiredHosts merged group) (hostsIn inv.data group) :=
    hostsIn_synced merged inv group
  refine changed_syncEdit_eq_false.mpr ⟨syncChanged_eq_false.mpr ⟨?_, ?_⟩, ?_⟩
  · intro name hname
    rw [hhosts, hasOwn_syncHosts]
    exact Or.inl hname
  · intro host hhost
    rw [hhosts] at hhost
    exact Bool.eq_false_iff.mpr fun h => by simpa [h] using (List.mem_filter.mp hhost).2
  · intro hempty
    rw [hhosts] at hempty
    rw [get_synced, if_pos hempty]

end Run

/-! ## When it is as it should be -/

/-- The inventory after `syncInventoryWithSelection`, whether or not it was written. -/
def afterSync (selected : Selection) (hostVarsAliases : List Text) (data : Value) : Value :=
  (syncInventoryWithSelection selected hostVarsAliases data).getD data

/-- The selection is reached, nothing else has changed, and a second run writes nothing. -/
structure SyncOk (selected : Selection) (hostVarsAliases : List Text) (merged : Selection)
    (data data' : Value) : Prop where
  reached : ∀ name ∈ managedAliases merged, ∀ role,
    role ∈ reportedRoles data' name ↔ role ∈ selectedRoles merged name
  unmanaged : ∀ name, name ∉ managedAliases merged → ∀ group,
    Items.get name (hostsIn data' group) = Items.get name (hostsIn data group)
  vars : ∀ group entry entry', Items.get group (childrenNode data) = some entry →
    Items.get group (childrenNode data') = some entry' → ∀ key, key ≠ "hosts".toList →
    Items.get key (objectOf entry') = Items.get key (objectOf entry)
  untouched : ∀ group, Unmanaged merged data group → Unmanaged merged data' group →
    Items.get group (childrenNode data') = Items.get group (childrenNode data)
  rest : ∀ key, key ≠ "children".toList → Items.get key (allNode data') = Items.get key (allNode data)
  settled : syncInventoryWithSelection selected hostVarsAliases data' = none

/-- A second run with the same selection writes nothing. -/
theorem sync_settled (selected : Selection) (hostVarsAliases : List Text) (inv : Inventory) :
    syncInventoryWithSelection selected hostVarsAliases
      (synced (mergeRolesByAlias selected hostVarsAliases) inv.data) = none := by
  have hkeys : (roleIdsToProcess (mergeRolesByAlias selected hostVarsAliases)
    (synced (mergeRolesByAlias selected hostVarsAliases) inv.data)).Nodup := nodup_setOf _
  unfold syncInventoryWithSelection writtenOf
  refine if_neg fun hchanged => ?_
  obtain ⟨group, -, hstep⟩ := (changed_editAll _ _ hkeys).mp hchanged
  rw [changed_synced] at hstep
  cases hstep

/-- The inventory follows the selection exactly if every managed alias that a group lists under
    another spelling is selected for it, and every group without a host is selected for some
    alias. -/
theorem sync_ok_iff (selected : Selection) (hostVarsAliases : List Text) (inv : Inventory) :
    SyncOk selected hostVarsAliases (mergeRolesByAlias selected hostVarsAliases) inv.data
      (afterSync selected hostVarsAliases inv.data) ↔
    SpellingsSelected (mergeRolesByAlias selected hostVarsAliases) inv.data ∧
      HostlessSelected (mergeRolesByAlias selected hostVarsAliases) inv.data := by
  constructor
  · intro h
    exact ⟨(reported_iff _ inv).mp h.reached, (untouched_iff _ inv).mp h.untouched⟩
  · intro h
    obtain ⟨hspellings, hhostless⟩ := h
    exact {
      reached := (reported_iff _ inv).mpr hspellings
      unmanaged := fun _ hname group => unmanaged_synced _ inv hname group
      vars := fun _ _ _ hentry hentry' _ hkey => vars_synced _ inv hentry hentry' hkey
      untouched := (untouched_iff _ inv).mpr hhostless
      rest := fun _ hkey => allNode_afterEdit hkey
      settled := sync_settled selected hostVarsAliases inv }

/-- An inventory with one group that has variables and no hosts. -/
def varsOnly : Inventory where
  data := .obj [("all".toList, .obj [("children".toList, .obj [("nginx".toList,
    .obj [("vars".toList, .obj [("port".toList, .num "80".toList)])])])])]
  nodup := List.nodup_singleton _
  noArray := by
    intro item hitem
    cases List.mem_singleton.mp hitem
    constructor
    · intro items h
      cases h
    · intro items h
      cases h

/-- The group is dropped, with its variables, by a run that has nothing to do with it. -/
theorem group_of_vars_dropped :
    Items.get "nginx".toList (childrenNode (afterSync [("web".toList, [])] [] varsOnly.data)) =
      none ∧
    ¬ SyncOk [("web".toList, [])] [] (mergeRolesByAlias [("web".toList, [])] []) varsOnly.data
      (afterSync [("web".toList, [])] [] varsOnly.data) := by
  have hgone : Items.get "nginx".toList
      (childrenNode (afterSync [("web".toList, [])] [] varsOnly.data)) = none := rfl
  refine ⟨hgone, ?_⟩
  intro h
  have hsame := h.untouched "nginx".toList ?_ ?_
  · rw [hgone] at hsame
    cases hsame
  · intro name _ hin
    rw [inGroup_iff] at hin
    cases hin
  · intro name _ hin
    obtain ⟨entry, hentry, -⟩ := hin
    rw [hgone] at hentry
    cases hentry

end Infinito.Panel
