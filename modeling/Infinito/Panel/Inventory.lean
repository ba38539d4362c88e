import Infinito.Py.Value
import Infinito.Lib.Json
import Infinito.Lib.Edits

/-!
# Aliases in the inventory

The inventory as the panel reads it, and the two functions that take an alias out of it:
`renameAliasInInventory` and `removeAliasFromInventory`. Both go through the groups under
`all.children` and look at the hosts of each. Neither looks at `all.hosts`, where the backend puts
every alias; and the removal drops every group that it finds empty.

`alias_cleared_iff` says when an alias is gone and the rest is as it was.
-/

set_option autoImplicit false

namespace Infinito.Panel

open Lib
open Lib.Json (Value)

/-- The properties of an object, each once. -/
abbrev Obj := List (Text × Value)

/-! ## The inventory -/

/-- `value && typeof value === "object"`, with its own properties. -/
def properties : Value → Option Obj
  | .obj members => some members
  | .arr items => some (items.zipIdx.map fun item => (Py.natText item.2, item.1))
  | _ => none

def objectOf (value : Value) : Obj := (properties value).getD []

/-- `m.key` -/
def prop (key : Text) (m : Obj) : Value := (Items.get key m).getD .null

/-- `Object.prototype.hasOwnProperty` -/
def hasOwn (key : Text) (m : Obj) : Bool := (Items.get key m).isSome

/-- `allNode` -/
def allNode (data : Value) : Obj := objectOf (prop "all" (objectOf data))

/-- `childrenNode` -/
def childrenNode (data : Value) : Obj := objectOf (prop "children" (allNode data))

/-- The hosts of a group, if it has an object for them. -/
def hostsOf (entry : Value) : Option Obj :=
  (properties entry).bind fun m => properties (prop "hosts" m)

/-- `{ ...entry, hosts }` -/
def withHosts (entry : Value) (hosts : Obj) : Value :=
  .obj (Items.set "hosts" (.obj hosts) (objectOf entry))

/-- `nextData` -/
def withChildren (data : Value) (next : Obj) : Value :=
  .obj (Items.set "all" (.obj (Items.set "children" (.obj next) (allNode data))) (objectOf data))

/-- What is written: nothing when nothing has changed. -/
def writtenOf (data : Value) (next : Obj × Bool) : Option Value :=
  if next.2 then some (withChildren data next.1) else none

/-! ## Renaming and removing -/

def renameHost (fromAlias toAlias : Text) (hosts : Obj) : Obj :=
  Items.erase fromAlias
    (if hasOwn toAlias hosts then hosts else Items.set toAlias (prop fromAlias hosts) hosts)

/-- The body of the loop of `renameAliasInInventory`. -/
def renameEdit (fromAlias toAlias : Text) (entry : Value) : Edit Value :=
  match hostsOf entry with
  | none => .keep
  | some hosts =>
      if hasOwn fromAlias hosts then .put (withHosts entry (renameHost fromAlias toAlias hosts)) true
      else .keep

/-- `renameAliasInInventory`: what it writes. -/
def renameAliasInInventory (fromAlias toAlias : Text) (data : Value) : Option Value :=
  writtenOf data (editAll (fun _ entry => renameEdit fromAlias toAlias (entry.getD .null))
    ((childrenNode data).map (·.1)) (childrenNode data))

/-- The body of the loop of `removeAliasFromInventory`. -/
def removeEdit (name : Text) (entry : Value) : Edit Value :=
  match hostsOf entry with
  | none => .keep
  | some hosts =>
      let rest := if hasOwn name hosts then Items.erase name hosts else hosts
      if rest = [] then .drop true else .put (withHosts entry rest) (hasOwn name hosts)

/-- `removeAliasFromInventory`: what it writes. -/
def removeAliasFromInventory (name : Text) (data : Value) : Option Value :=
  writtenOf data (editAll (fun _ entry => removeEdit name (entry.getD .null))
    ((childrenNode data).map (·.1)) (childrenNode data))

/-! ## What an inventory holds -/

def NoArray (value : Value) : Prop := ∀ items, value ≠ .arr items

/-- An inventory: each group once, and no list where a mapping belongs. -/
structure Inventory where
  data : Value
  nodup : ((childrenNode data).map (·.1)).Nodup
  noArray : ∀ item ∈ childrenNode data,
    NoArray item.2 ∧ NoArray (prop "hosts" (objectOf item.2))

/-- The alias is listed under `all.hosts`. -/
def InAll (data : Value) (name : Text) : Prop :=
  hasOwn name (objectOf (prop "hosts" (allNode data))) = true

/-- The alias is a host of the entry. -/
def Holds (entry : Value) (name : Text) : Prop := hasOwn name ((hostsOf entry).getD []) = true

/-- The alias is a host of the group. -/
def InGroup (data : Value) (group name : Text) : Prop :=
  ∃ entry, Items.get group (childrenNode data) = some entry ∧ Holds entry name

def Occurs (data : Value) (name : Text) : Prop :=
  InAll data name ∨ ∃ group, InGroup data group name

section Lookup
variable {data : Value} {next : Obj} {entry : Value} {hosts : Obj} {name : Text}

theorem objectOf_obj (members : Obj) : objectOf (.obj members) = members := rfl

theorem allNode_withChildren :
    allNode (withChildren data next) =
      Items.set "children".toList (Value.obj next) (allNode data) := by
  unfold allNode prop
  rw [show objectOf (withChildren data next) = Items.set "all".toList
    (Value.obj (Items.set "children".toList (Value.obj next) (allNode data))) (objectOf data) from
    rfl, Items.get_set_self, Option.getD_some, objectOf_obj]
  rfl

theorem childrenNode_withChildren : childrenNode (withChildren data next) = next := by
  unfold childrenNode prop
  rw [allNode_withChildren, Items.get_set_self, Option.getD_some, objectOf_obj]

theorem hostsOf_withHosts : hostsOf (withHosts entry hosts) = some hosts := by
  unfold hostsOf withHosts prop
  rw [show properties (.obj _) = some _ from rfl, Option.bind_some, Items.get_set_self]
  rfl

/-- What has its hosts already stays the same. -/
theorem withHosts_self (hentry : NoArray entry) (harray : NoArray (prop "hosts" (objectOf entry)))
    (hhosts : hostsOf entry = some hosts) : withHosts entry hosts = entry := by
  cases entry with
  | obj members =>
    have hprop : properties (prop "hosts" members) = some hosts := hhosts
    have hget : Items.get "hosts".toList members = some (.obj hosts) := by
      unfold prop at hprop
      cases hmember : Items.get "hosts".toList members with
      | none =>
        rw [hmember] at hprop
        cases hprop
      | some value =>
        rw [hmember] at hprop
        have hvalue : NoArray value := by
          have := harray
          unfold prop at this
          rw [show objectOf (.obj members) = members from rfl, hmember] at this
          exact this
        cases value with
        | obj items =>
          cases hprop
          rfl
        | arr items => exact absurd rfl (hvalue items)
        | _ => cases hprop
    unfold withHosts
    rw [show objectOf (.obj members) = members from rfl, Items.set_get hget]
  | arr items => exact absurd rfl (hentry items)
  | _ => cases hhosts

theorem hasOwn_iff {m : Obj} : hasOwn name m = true ↔ ∃ value, Items.get name m = some value :=
  Option.isSome_iff_exists

theorem hasOwn_set {key : Text} {value : Value} {m : Obj} :
    hasOwn name (Items.set key value m) = true ↔ name = key ∨ hasOwn name m = true := by
  unfold hasOwn
  rw [Items.get_set]
  by_cases h : name = key
  · simp [h]
  · simp [h]

theorem hasOwn_erase {key : Text} {m : Obj} :
    hasOwn name (Items.erase key m) = true ↔ name ≠ key ∧ hasOwn name m = true := by
  unfold hasOwn
  rw [Items.get_erase]
  by_cases h : name = key
  · simp [h]
  · simp [h]

end Lookup

/-! ## Group by group -/

section Written
variable {edit : Text → Option Value → Edit Value} {keys : List Text} {data : Value}

/-- The inventory after an edit of its groups, whether or not it was written. -/
def afterEdit (edit : Text → Option Value → Edit Value) (keys : List Text) (data : Value) : Value :=
  (writtenOf data (editAll edit keys (childrenNode data))).getD data

/-- A group is what its own step makes of it, if no step says that it changes nothing and does. -/
theorem get_afterEdit (hkeys : keys.Nodup)
    (hhonest : ∀ group ∈ keys, (edit group (Items.get group (childrenNode data))).changed = false →
      (edit group (Items.get group (childrenNode data))).result
        (Items.get group (childrenNode data)) = Items.get group (childrenNode data))
    (group : Text) :
    Items.get group (childrenNode (afterEdit edit keys data)) =
      if group ∈ keys then (edit group (Items.get group (childrenNode data))).result
        (Items.get group (childrenNode data))
      else Items.get group (childrenNode data) := by
  have hnext := get_editAll edit (childrenNode data) hkeys group
  unfold afterEdit writtenOf
  by_cases hmem : group ∈ keys
  · rw [if_pos hmem] at hnext ⊢
    by_cases hchanged : (editAll edit keys (childrenNode data)).2 = true
    · rw [if_pos hchanged, Option.getD_some, childrenNode_withChildren]
      exact hnext
    · rw [if_neg hchanged, Option.getD_none]
      refine (hhonest group hmem (Bool.eq_false_iff.mpr fun hstep => hchanged ?_)).symm
      rw [changed_editAll _ _ hkeys]
      exact ⟨group, hmem, hstep⟩
  · rw [if_neg hmem] at hnext ⊢
    split
    · rw [Option.getD_some, childrenNode_withChildren]
      exact hnext
    · rfl

/-- An edit of the groups leaves the rest of `all` alone. -/
theorem allNode_afterEdit {key : Text} (hkey : key ≠ "children".toList) :
    Items.get key (allNode (afterEdit edit keys data)) = Items.get key (allNode data) := by
  unfold afterEdit writtenOf
  split
  · rw [Option.getD_some, allNode_withChildren, Items.get_set_of_ne hkey]
  · rfl

end Written

/-- The inventory after an edit of the groups that there are. -/
def edited (edit : Value → Edit Value) (data : Value) : Value :=
  afterEdit (fun _ entry => edit (entry.getD .null)) ((childrenNode data).map (·.1)) data

section Edited
variable {edit : Value → Edit Value} (inv : Inventory)

/-- A step that reports no change makes none. -/
def Honest (edit : Value → Edit Value) (data : Value) : Prop :=
  ∀ item ∈ childrenNode data, (edit item.2).changed = false →
    (edit item.2).result (some item.2) = some item.2

/-- The groups after the edit. -/
theorem get_edited (hhonest : Honest edit inv.data) (group : Text) :
    Items.get group (childrenNode (edited edit inv.data)) =
      (Items.get group (childrenNode inv.data)).bind fun entry => (edit entry).result (some entry) := by
  unfold edited
  rw [get_afterEdit inv.nodup]
  · cases hget : Items.get group (childrenNode inv.data) with
    | none =>
      rw [if_neg (Items.get_eq_none_iff.mp hget)]
      rfl
    | some entry =>
      rw [if_pos (List.mem_map_of_mem (Items.mem_of_get hget))]
      rfl
  · intro key hkey
    obtain ⟨item, hitem, rfl⟩ := List.mem_map.mp hkey
    rw [Items.get_of_mem inv.nodup hitem]
    exact hhonest item hitem

theorem inAll_edited (data : Value) (name : Text) :
    InAll (edited edit data) name ↔ InAll data name := by
  unfold InAll prop edited
  rw [allNode_afterEdit (by decide)]

/-- A host of a group after the edit is one of what the step makes of its entry. -/
theorem inGroup_edited (hhonest : Honest edit inv.data) (group name : Text) :
    InGroup (edited edit inv.data) group name ↔
      ∃ entry, Items.get group (childrenNode inv.data) = some entry ∧
        ∃ entry', (edit entry).result (some entry) = some entry' ∧ Holds entry' name := by
  unfold InGroup
  rw [get_edited inv hhonest]
  cases Items.get group (childrenNode inv.data) with
  | none => simp
  | some entry => simp

end Edited

/-! ## The rename -/

/-- The inventory after `renameAliasInInventory`. -/
def renamed (fromAlias toAlias : Text) (data : Value) : Value :=
  (renameAliasInInventory fromAlias toAlias data).getD data

/-- The rename is complete, and touches no group that has nothing to do with it. -/
structure RenameOk (data data' : Value) (fromAlias toAlias : Text) : Prop where
  gone : ¬ Occurs data' fromAlias
  moved : ∀ group,
    InGroup data' group toAlias ↔ InGroup data group fromAlias ∨ InGroup data group toAlias
  others : ∀ group, ¬ InGroup data group fromAlias →
    Items.get group (childrenNode data') = Items.get group (childrenNode data)

section Rename
variable {fromAlias toAlias : Text}

theorem hasOwn_renameHost (hosts : Obj) (name : Text) :
    hasOwn name (renameHost fromAlias toAlias hosts) = true ↔
      name ≠ fromAlias ∧ (name = toAlias ∨ hasOwn name hosts = true) := by
  unfold renameHost
  rw [hasOwn_erase]
  refine and_congr_right fun _ => ?_
  by_cases hto : hasOwn toAlias hosts = true
  · rw [if_pos hto]
    constructor
    · exact Or.inr
    · intro h
      rcases h with rfl | h
      · exact hto
      · exact h
  · rw [if_neg hto, hasOwn_set]

/-- An entry with the old alias gets the new one for it; any other stays. -/
theorem renameEdit_of_holds {entry : Value} (h : Holds entry fromAlias) :
    ∃ entry', (∀ v, (renameEdit fromAlias toAlias entry).result v = some entry') ∧
      ∀ name, Holds entry' name ↔ name ≠ fromAlias ∧ (name = toAlias ∨ Holds entry name) := by
  unfold Holds at h
  cases hhosts : hostsOf entry with
  | none =>
    rw [hhosts] at h
    cases h
  | some hosts =>
    rw [hhosts, Option.getD_some] at h
    refine ⟨withHosts entry (renameHost fromAlias toAlias hosts), ?_, ?_⟩
    · intro v
      unfold renameEdit
      rw [hhosts]
      dsimp only
      rw [if_pos h]
      rfl
    · intro name
      unfold Holds
      rw [hostsOf_withHosts, hhosts]
      exact hasOwn_renameHost hosts name

theorem renameEdit_of_not_holds {entry : Value} (h : ¬ Holds entry fromAlias) :
    renameEdit fromAlias toAlias entry = .keep := by
  unfold Holds at h
  unfold renameEdit
  cases hhosts : hostsOf entry with
  | none => rfl
  | some hosts =>
    rw [hhosts] at h
    exact if_neg h

theorem honest_rename (data : Value) : Honest (renameEdit fromAlias toAlias) data := by
  intro item _ hchanged
  by_cases h : Holds item.2 fromAlias
  · exfalso
    unfold Holds at h
    unfold renameEdit at hchanged
    cases hhosts : hostsOf item.2 with
    | none =>
      rw [hhosts] at h
      cases h
    | some hosts =>
      rw [hhosts] at h hchanged
      dsimp only at hchanged
      rw [Option.getD_some] at h
      rw [if_pos h] at hchanged
      cases hchanged
  · rw [renameEdit_of_not_holds h]
    rfl

/-- The rename takes the old alias out of the groups, and out of nothing else. -/
theorem renameOk_iff (inv : Inventory) (hne : fromAlias ≠ toAlias) :
    RenameOk inv.data (renamed fromAlias toAlias inv.data) fromAlias toAlias ↔
      ¬ InAll inv.data fromAlias := by
  have hall : InAll (renamed fromAlias toAlias inv.data) fromAlias ↔ InAll inv.data fromAlias :=
    inAll_edited inv.data fromAlias
  have hin := inGroup_edited inv (@honest_rename fromAlias toAlias inv.data)
  constructor
  · intro h hold
    exact h.gone (Or.inl (hall.mpr hold))
  · intro hold
    refine ⟨?_, ?_, ?_⟩
    · intro hoccurs
      rcases hoccurs with h | ⟨group, h⟩
      · exact hold (hall.mp h)
      · obtain ⟨entry, -, entry', hresult, hholds⟩ := (hin group fromAlias).mp h
        by_cases hentry : Holds entry fromAlias
        · obtain ⟨next, hnext, hiff⟩ := @renameEdit_of_holds _ toAlias _ hentry
          rw [hnext] at hresult
          cases hresult
          exact ((hiff fromAlias).mp hholds).1 rfl
        · rw [renameEdit_of_not_holds hentry] at hresult
          cases hresult
          exact hentry hholds
    · intro group
      refine (hin group toAlias).trans ?_
      unfold InGroup
      cases hget : Items.get group (childrenNode inv.data) with
      | none => simp
      | some entry =>
        simp only [Option.some.injEq, exists_eq_left']
        by_cases hentry : Holds entry fromAlias
        · obtain ⟨next, hnext, hiff⟩ := @renameEdit_of_holds _ toAlias _ hentry
          have hto : Holds next toAlias := (hiff toAlias).mpr ⟨hne.symm, Or.inl rfl⟩
          simp [hnext, hto, hentry]
        · rw [renameEdit_of_not_holds hentry]
          simp [Edit.result, hentry]
    · intro group hgroup
      refine (get_edited inv (honest_rename inv.data) group).trans ?_
      cases hget : Items.get group (childrenNode inv.data) with
      | none => rfl
      | some entry =>
        have hentry : ¬ Holds entry fromAlias := fun h => hgroup ⟨entry, hget, h⟩
        rw [Option.bind_some, renameEdit_of_not_holds hentry]
        rfl

end Rename

/-! ## The removal -/

/-- The inventory after `removeAliasFromInventory`. -/
def removed (name : Text) (data : Value) : Value :=
  (removeAliasFromInventory name data).getD data

/-- The removal is complete, and touches no group that has nothing to do with it. -/
structure RemoveOk (data data' : Value) (name : Text) : Prop where
  gone : ¬ Occurs data' name
  others : ∀ group, ¬ InGroup data group name →
    Items.get group (childrenNode data') = Items.get group (childrenNode data)

section Remove
variable {name : Text}

/-- A group without hosts is dropped. -/
theorem removeEdit_of_empty {entry : Value} (h : hostsOf entry = some []) (v : Option Value) :
    (removeEdit name entry).result v = none := by
  unfold removeEdit
  rw [h]
  rfl

/-- Any other entry without the alias stays. -/
theorem removeEdit_of_not_holds (inv : Inventory) {item : Text × Value}
    (hitem : item ∈ childrenNode inv.data) (h : ¬ Holds item.2 name)
    (hne : hostsOf item.2 ≠ some []) :
    (removeEdit name item.2).result (some item.2) = some item.2 := by
  unfold Holds at h
  unfold removeEdit
  cases hhosts : hostsOf item.2 with
  | none => rfl
  | some hosts =>
    rw [hhosts] at h hne
    have hown : ¬ hasOwn name hosts = true := h
    have hempty : hosts ≠ [] := fun hnil => hne (congrArg some hnil)
    dsimp only
    rw [if_neg hown, if_neg hempty]
    obtain ⟨hentry, harray⟩ := inv.noArray item hitem
    exact congrArg some (withHosts_self hentry harray hhosts)

theorem not_holds_removeEdit {entry entry' : Value}
    (h : (removeEdit name entry).result (some entry) = some entry') : ¬ Holds entry' name := by
  unfold removeEdit at h
  unfold Holds
  cases hhosts : hostsOf entry with
  | none =>
    rw [hhosts] at h
    cases h
    rw [hhosts]
    exact Bool.false_ne_true
  | some hosts =>
    rw [hhosts] at h
    dsimp only at h
    by_cases hempty : (if hasOwn name hosts = true then Items.erase name hosts else hosts) = []
    · rw [if_pos hempty] at h
      cases h
    · rw [if_neg hempty] at h
      cases h
      rw [hostsOf_withHosts, Option.getD_some]
      by_cases hown : hasOwn name hosts = true
      · rw [if_pos hown]
        exact fun h => (hasOwn_erase.mp h).1 rfl
      · rw [if_neg hown]
        exact hown

theorem honest_remove (inv : Inventory) : Honest (removeEdit name) inv.data := by
  intro item hitem hchanged
  have hold : ¬ Holds item.2 name ∧ hostsOf item.2 ≠ some [] := by
    unfold removeEdit at hchanged
    unfold Holds
    cases hhosts : hostsOf item.2 with
    | none => simp [hasOwn]
    | some hosts =>
      rw [hhosts] at hchanged
      dsimp only at hchanged
      by_cases hempty : (if hasOwn name hosts = true then Items.erase name hosts else hosts) = []
      · rw [if_pos hempty] at hchanged
        cases hchanged
      · rw [if_neg hempty] at hchanged
        have hown : ¬ hasOwn name hosts = true := Bool.eq_false_iff.mp hchanged
        rw [if_neg hown] at hempty
        exact ⟨hown, fun h => hempty (Option.some.inj h)⟩
  exact removeEdit_of_not_holds inv hitem hold.1 hold.2

/-- The removal takes the alias out of the groups and out of nothing else, and drops the groups
    that were empty before. -/
theorem removeOk_iff (inv : Inventory) :
    RemoveOk inv.data (removed name inv.data) name ↔
      ¬ InAll inv.data name ∧ ∀ group entry,
        Items.get group (childrenNode inv.data) = some entry → hostsOf entry ≠ some [] := by
  have hall : InAll (removed name inv.data) name ↔ InAll inv.data name :=
    inAll_edited inv.data name
  have hget := get_edited inv (@honest_remove name inv)
  constructor
  · intro h
    refine ⟨fun hold => h.gone (Or.inl (hall.mpr hold)), ?_⟩
    intro group entry hentry hempty
    have hnot : ¬ Holds entry name := by
      unfold Holds
      rw [hempty]
      exact Bool.false_ne_true
    have hgroup : ¬ InGroup inv.data group name := by
      intro h'
      obtain ⟨other, hother, hholds⟩ := h'
      rw [hentry] at hother
      cases hother
      exact hnot hholds
    have hsame := (hget group).symm.trans (h.others group hgroup)
    rw [hentry, Option.bind_some, removeEdit_of_empty hempty] at hsame
    cases hsame
  · intro h
    obtain ⟨hold, hempty⟩ := h
    refine ⟨?_, ?_⟩
    · intro hoccurs
      rcases hoccurs with h | ⟨group, h⟩
      · exact hold (hall.mp h)
      · obtain ⟨entry, -, entry', hresult, hholds⟩ :=
          (inGroup_edited inv (honest_remove inv) group name).mp h
        exact not_holds_removeEdit hresult hholds
    · intro group hgroup
      refine (hget group).trans ?_
      cases hentry : Items.get group (childrenNode inv.data) with
      | none => rfl
      | some entry =>
        have hnot : ¬ Holds entry name := fun h => hgroup ⟨entry, hentry, h⟩
        exact removeEdit_of_not_holds inv (Items.mem_of_get hentry) hnot
          (hempty group entry hentry)

end Remove

/-- An alias is gone from the inventory, and no other group has changed, exactly if it was not
    listed under `all.hosts` and, for the removal, no group had an empty mapping of hosts. -/
theorem alias_cleared_iff (inv : Inventory) (fromAlias toAlias : Text)
    (hne : fromAlias ≠ toAlias) :
    (RenameOk inv.data (renamed fromAlias toAlias inv.data) fromAlias toAlias ↔
      ¬ InAll inv.data fromAlias) ∧
    (RemoveOk inv.data (removed fromAlias inv.data) fromAlias ↔
      ¬ InAll inv.data fromAlias ∧ ∀ group entry,
        Items.get group (childrenNode inv.data) = some entry → hostsOf entry ≠ some []) :=
  ⟨renameOk_iff inv hne, removeOk_iff inv⟩

/-- An inventory with one group, and the server `web` in it. -/
def oneGroup (topLevel : Obj) : Inventory where
  data := .obj [("all".toList, .obj [("hosts".toList, .obj topLevel), ("children".toList,
    .obj [("nginx".toList, .obj [("hosts".toList, .obj [("web".toList, .obj [])])])])])]
  nodup := List.nodup_singleton _
  noArray := by
    intro item hitem
    cases List.mem_singleton.mp hitem
    constructor
    · intro items h
      cases h
    · intro items h
      cases h

theorem alias_cleared_app :
    RenameOk (oneGroup []).data (renamed "web".toList "app".toList (oneGroup []).data)
      "web".toList "app".toList ∧
    RemoveOk (oneGroup []).data (removed "web".toList (oneGroup []).data) "web".toList := by
  have hall : ¬ InAll (oneGroup []).data "web".toList := Bool.false_ne_true
  obtain ⟨hrename, hremove⟩ :=
    alias_cleared_iff (oneGroup []) "web".toList "app".toList (by decide)
  refine ⟨hrename.mpr hall, hremove.mpr ⟨hall, ?_⟩⟩
  intro group entry hget
  cases List.mem_singleton.mp (Items.mem_of_get hget)
  exact fun h => by cases h

/-- The server is where the backend puts it, and stays there. -/
theorem web_stays_listed :
    ¬ RenameOk (oneGroup [("web".toList, .obj [])]).data
      (renamed "web".toList "app".toList (oneGroup [("web".toList, .obj [])]).data)
      "web".toList "app".toList ∧
    ¬ RemoveOk (oneGroup [("web".toList, .obj [])]).data
      (removed "web".toList (oneGroup [("web".toList, .obj [])]).data) "web".toList := by
  have hall : InAll (oneGroup [("web".toList, .obj [])]).data "web".toList := rfl
  constructor
  · intro h
    exact (renameOk_iff _ (by decide)).mp h hall
  · intro h
    exact ((removeOk_iff _).mp h).1 hall

end Infinito.Panel
