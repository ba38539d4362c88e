import Infinito.Orders.Customers
import Infinito.Lib.Worklist
import Infinito.Panel.Inventory
import Mathlib.Algebra.GroupWithZero.Nat

/-!
# The selection of roles

The roles of every alias, as the panel reads them off an inventory (`extractRolesByAlias`) and as
it keeps them itself (`mergeRolesByAlias`). Both trim what they read: `mem_reportedRoles` says
which roles an inventory gives to an alias.

The names that every object of the browser has of itself (`constructor` and so on) are no aliases
and no roles here.
-/

set_option autoImplicit false

namespace Infinito.Panel

open Lib
open Lib.Json (Value)
open Orders (jsTrim jsTrim_jsTrim)

/-- A list of texts for every key. -/
abbrev Selection := List (Text × List Text)

/-- `new Set(items)` -/
def setOf (items : List Text) : List Text := newOf [] items

theorem mem_setOf {items : List Text} {item : Text} : item ∈ setOf items ↔ item ∈ items := by
  unfold setOf
  rw [mem_newOf]
  exact and_iff_left List.not_mem_nil

theorem nodup_setOf (items : List Text) : (setOf items).Nodup := nodup_newOf [] items

/-- What is no blank text, trimmed. -/
def trimmed (items : List Text) : List Text := (items.map jsTrim).filter (· ≠ [])

theorem mem_trimmed {items : List Text} {item : Text} :
    item ∈ trimmed items ↔ item ≠ [] ∧ ∃ raw ∈ items, jsTrim raw = item := by
  unfold trimmed
  rw [List.mem_filter, List.mem_map, decide_eq_true_eq]
  exact and_comm

/-- `normalizeRoles` -/
def normalizeRoles (roles : List Text) : List Text := setOf (trimmed roles)

theorem mem_normalizeRoles {roles : List Text} {role : Text} :
    role ∈ normalizeRoles roles ↔ role ≠ [] ∧ ∃ raw ∈ roles, jsTrim raw = role :=
  mem_setOf.trans mem_trimmed

theorem jsTrim_of_mem_normalizeRoles {roles : List Text} {role : Text}
    (h : role ∈ normalizeRoles roles) : jsTrim role = role := by
  obtain ⟨-, raw, -, rfl⟩ := mem_normalizeRoles.mp h
  exact jsTrim_jsTrim raw

/-! ## Read off an inventory -/

/-- The length of a text in the browser. -/
def textLength (t : Text) : Nat := (t.map fun c => if c.toNat < 0x10000 then 1 else 2).sum

/-- `Object.keys` -/
def keysOf : Value → List Text
  | .obj members => members.map (·.1)
  | .arr items => (List.range items.length).map Py.natText
  | .str t => (List.range (textLength t)).map Py.natText
  | _ => []

/-- `out[key].push(role)` -/
def pushRole (key role : Text) (out : Selection) : Selection :=
  Items.set key ((Items.get key out).getD [] ++ [role]) out

/-- One group of the loop of `extractRolesByAlias`. -/
def pushHosts (role : Text) (aliases : List Text) (out : Selection) : Selection :=
  aliases.foldl (fun out key =>
    if jsTrim key = [] then out else pushRole (jsTrim key) role out) out

/-- The names under `hosts` of a group. -/
def hostNames (entry : Value) : List Text := keysOf (prop "hosts" (objectOf entry))

/-- `extractRolesByAlias` -/
def extractRolesByAlias (data : Value) : Selection :=
  ((childrenNode data).foldl (fun out item => pushHosts item.1 (hostNames item.2) out) []).map
    fun item => (item.1, normalizeRoles item.2)

/-- The roles that an inventory gives to an alias. -/
def reportedRoles (data : Value) (key : Text) : List Text :=
  (Items.get key (extractRolesByAlias data)).getD []

theorem mem_pushRole {key role other item : Text} {out : Selection} :
    item ∈ (Items.get other (pushRole key role out)).getD [] ↔
      item ∈ (Items.get other out).getD [] ∨ (item = role ∧ other = key) := by
  unfold pushRole
  rw [Items.get_set]
  by_cases h : other = key
  · rw [if_pos h, Option.getD_some, List.mem_append, List.mem_singleton, h]
    simp
  · rw [if_neg h]
    simp [h]

theorem mem_pushHosts {role other item : Text} {aliases : List Text} {out : Selection} :
    item ∈ (Items.get other (pushHosts role aliases out)).getD [] ↔
      item ∈ (Items.get other out).getD [] ∨
        (item = role ∧ other ≠ [] ∧ ∃ key ∈ aliases, jsTrim key = other) := by
  unfold pushHosts
  induction aliases generalizing out with
  | nil => simp
  | cons key aliases ih =>
    rw [List.foldl_cons, ih, List.exists_mem_cons_iff]
    by_cases hkey : jsTrim key = []
    · rw [if_pos hkey, hkey]
      constructor
      · intro h
        rcases h with h | ⟨hrole, hne, h⟩
        · exact Or.inl h
        · exact Or.inr ⟨hrole, hne, Or.inr h⟩
      · intro h
        rcases h with h | ⟨hrole, hne, h | h⟩
        · exact Or.inl h
        · exact absurd h.symm hne
        · exact Or.inr ⟨hrole, hne, h⟩
    · rw [if_neg hkey, mem_pushRole]
      constructor
      · intro h
        rcases h with (h | ⟨hrole, rfl⟩) | ⟨hrole, hne, h⟩
        · exact Or.inl h
        · exact Or.inr ⟨hrole, hkey, Or.inl rfl⟩
        · exact Or.inr ⟨hrole, hne, Or.inr h⟩
      · intro h
        rcases h with h | ⟨hrole, hne, h | h⟩
        · exact Or.inl (Or.inl h)
        · exact Or.inl (Or.inr ⟨hrole, h.symm⟩)
        · exact Or.inr ⟨hrole, hne, h⟩

theorem mem_pushGroups {other item : Text} {groups : Obj} {out : Selection} :
    item ∈ (Items.get other
        (groups.foldl (fun out group => pushHosts group.1 (hostNames group.2) out) out)).getD [] ↔
      item ∈ (Items.get other out).getD [] ∨
        (other ≠ [] ∧ ∃ group ∈ groups, item = group.1 ∧
          ∃ key ∈ hostNames group.2, jsTrim key = other) := by
  induction groups generalizing out with
  | nil => simp
  | cons group groups ih =>
    rw [List.foldl_cons, ih, mem_pushHosts, List.exists_mem_cons_iff, or_assoc]
    refine or_congr_right ?_
    constructor
    · intro h
      rcases h with ⟨hitem, hne, h⟩ | ⟨hne, h⟩
      · exact ⟨hne, Or.inl ⟨hitem, h⟩⟩
      · exact ⟨hne, Or.inr h⟩
    · intro h
      obtain ⟨hne, ⟨hitem, h⟩ | h⟩ := h
      · exact Or.inl ⟨hitem, hne, h⟩
      · exact Or.inr ⟨hne, h⟩

/-- The roles of an alias are the groups in which some host has its name, when both are trimmed. -/
theorem mem_reportedRoles {data : Value} {key role : Text} :
    role ∈ reportedRoles data key ↔
      key ≠ [] ∧ role ≠ [] ∧ ∃ group ∈ childrenNode data, jsTrim group.1 = role ∧
        ∃ host ∈ hostNames group.2, jsTrim host = key := by
  unfold reportedRoles extractRolesByAlias
  rw [Items.get_mapValues]
  have hpushed : ∀ item, item ∈ (Items.get key ((childrenNode data).foldl
      (fun out group => pushHosts group.1 (hostNames group.2) out) [])).getD [] ↔
      key ≠ [] ∧ ∃ group ∈ childrenNode data, item = group.1 ∧
        ∃ host ∈ hostNames group.2, jsTrim host = key := by
    intro item
    rw [mem_pushGroups]
    exact or_iff_right List.not_mem_nil
  have hmap : ∀ roles : Option (List Text), role ∈ (roles.map normalizeRoles).getD [] ↔
      role ≠ [] ∧ ∃ raw ∈ roles.getD [], jsTrim raw = role := by
    intro roles
    cases roles with
    | none => simp
    | some roles => exact mem_normalizeRoles
  rw [hmap]
  constructor
  · intro h
    obtain ⟨hrole, raw, hraw, htrim⟩ := h
    obtain ⟨hkey, group, hgroup, rfl, host, hhost⟩ := (hpushed raw).mp hraw
    exact ⟨hkey, hrole, group, hgroup, htrim, host, hhost⟩
  · intro h
    obtain ⟨hkey, hrole, group, hgroup, htrim, host, hhost⟩ := h
    exact ⟨hrole, group.1, (hpushed group.1).mpr ⟨hkey, group, hgroup, rfl, host, hhost⟩, htrim⟩

/-! ## Kept by the panel -/

/-- `mergeRolesByAlias` -/
def mergeRolesByAlias (incoming : Selection) (hostVarsAliases : List Text) : Selection :=
  hostVarsAliases.foldl
    (fun merged key => if (Items.get key merged).isSome then merged else Items.set key [] merged)
    (incoming.foldl (fun merged item =>
      if jsTrim item.1 = [] then merged
      else Items.set (jsTrim item.1) (normalizeRoles item.2) merged) [])

/-- `managedAliases` -/
def managedAliases (merged : Selection) : List Text := setOf (trimmed (merged.map (·.1)))

/-- The roles that are selected for an alias. -/
def selectedRoles (merged : Selection) (key : Text) : List Text :=
  normalizeRoles ((Items.get key merged).getD [])

theorem jsTrim_of_mem_managed {merged : Selection} {key : Text}
    (h : key ∈ managedAliases merged) : jsTrim key = key ∧ key ≠ [] := by
  obtain ⟨hne, raw, -, rfl⟩ := mem_trimmed.mp (mem_setOf.mp h)
  exact ⟨jsTrim_jsTrim raw, hne⟩

end Infinito.Panel
