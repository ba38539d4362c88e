import Infinito.Lib.Linked
import Infinito.Lib.Run
import Infinito.Servers.Connections
import Infinito.Workspace.Disk

/-!
# The requirements of servers

What a server has to meet is kept in the database, in two tables: `workspace_server` has a number for
each server of each workspace, `workspace_server_requirements` an object for each number. A server is
renamed in the first, and deleted from both by its foreign key.

`requirements_refined` says what the tables are for: every run of the five calls answers as a map does
from workspaces and aliases to requirements. So no alias gets the requirements of another, and none
are left behind.

Each call is one transaction. The numbers are drawn at random, and a run draws each once.
-/

set_option autoImplicit false

namespace Infinito.Servers

open Py Lib
open Workspace (Exc)

/-! ## The calls -/

inductive RequirementCall (ι ρ : Type) where
  | listRequirements (workspaceId : Text)
  | getRequirements (workspaceId aliasName : Text)
  /-- with the number that is drawn -/
  | setRequirements (serverId : ι) (workspaceId aliasName : Text) (requirements : ρ)
  | renameAlias (workspaceId fromAlias toAlias : Text)
  | deleteAlias (workspaceId aliasName : Text)

inductive RequirementAnswer (ρ : Type) where
  | listing (requirementsByAlias : List (Text × ρ))
  | requirements (requirements : ρ)
  | done (changed : Bool)
  | failed (exc : Exc)

def RequirementCall.drawn {ι ρ : Type} : RequirementCall ι ρ → Option ι
  | .setRequirements serverId _ _ _ => some serverId
  | _ => none

/-- The two tables. -/
abbrev RequirementTables (ι ρ : Type) := Linked ι (Text × Text) ρ

/-! ## The aliases of a workspace -/

section Aliases

variable {ι ρ : Type} {t : RequirementTables ι ρ}

/-- The aliases of a workspace. -/
def aliasesOf (workspaceId : Text) (t : RequirementTables ι ρ) : List Text :=
  (t.keys.filter fun r => r.2.1 = workspaceId).map fun r => r.2.2

theorem mem_aliasesOf {workspaceId aliasName : Text} :
    aliasName ∈ aliasesOf workspaceId t ↔ (workspaceId, aliasName) ∈ t.keys.map Prod.snd := by
  unfold aliasesOf
  rw [List.mem_map, List.mem_map]
  constructor
  · rintro ⟨⟨i, key⟩, hr, rfl⟩
    obtain ⟨hr, hkey⟩ := List.mem_filter.mp hr
    exact ⟨_, hr, Prod.ext (of_decide_eq_true hkey) rfl⟩
  · rintro ⟨⟨i, key⟩, hr, rfl⟩
    exact ⟨_, List.mem_filter.mpr ⟨hr, decide_eq_true rfl⟩, rfl⟩

theorem nodup_aliasesOf (workspaceId : Text) : (aliasesOf workspaceId t).Nodup := by
  have hkeys : ((t.keys.filter fun r => r.2.1 = workspaceId).map Prod.snd).Nodup :=
    (List.filter_sublist.map _).nodup t.names
  have hsnd : aliasesOf workspaceId t =
      ((t.keys.filter fun r => r.2.1 = workspaceId).map Prod.snd).map Prod.snd := by
    unfold aliasesOf
    rw [List.map_map]
    rfl
  rw [hsnd]
  refine hkeys.map_on fun x hx y hy heq => ?_
  have hworkspace : ∀ k ∈ (t.keys.filter fun r => r.2.1 = workspaceId).map Prod.snd,
      k.1 = workspaceId := by
    intro k hk
    obtain ⟨r, hr, rfl⟩ := List.mem_map.mp hk
    exact of_decide_eq_true (List.mem_filter.mp hr).2
  exact Prod.ext ((hworkspace x hx).trans (hworkspace y hy).symm) heq

/-- Aliases are stored trimmed, and none is empty. -/
def Trimmed (t : RequirementTables ι ρ) : Prop :=
  ∀ k ∈ t.keys.map Prod.snd, strip k.2 = k.2 ∧ k.2 ≠ []

end Aliases

section Service

variable {ι ρ β : Type} [DecidableEq ι] [LinearOrder β]

-- the order of aliases in the database, the empty object, and what a violated constraint is said to be
variable (collate : Text → β) (noRequirements : ρ) (violation : String)

def aliasRequired : RequirementAnswer ρ := .failed (.http ⟨400, "alias is required"⟩)

/-- The rows of the left join, in their order. -/
def requirementRows (workspaceId : Text) (t : RequirementTables ι ρ) : List (Text × Option ρ) :=
  ((t.keys.filter fun r => r.2.1 = workspaceId).map fun r => (r.2.2, t.valueAt r.1)).insertionSort
    fun a b => collate a.1 ≤ collate b.1

/-- `list_requirements` -/
def listRequirements (workspaceId : Text) (t : RequirementTables ι ρ) : List (Text × ρ) :=
  (requirementRows collate workspaceId t).foldl (fun out row =>
    let aliasKey := strip row.1
    if aliasKey = [] then out else put aliasKey (row.2.getD noRequirements) out) []

/-- `get_requirements` -/
def getRequirements (workspaceId aliasName : Text) (t : RequirementTables ι ρ) :
    RequirementAnswer ρ :=
  let aliasKey := strip aliasName
  if aliasKey = [] then aliasRequired
  else .requirements ((t.get (workspaceId, aliasKey)).getD noRequirements)

/-- `set_requirements`, with `_get_or_create_server_id` -/
def setRequirements (serverId : ι) (workspaceId aliasName : Text) (requirements : ρ)
    (t : RequirementTables ι ρ) : RequirementAnswer ρ × RequirementTables ι ρ :=
  let aliasKey := strip aliasName
  if aliasKey = [] then (aliasRequired, t)
  else match h : t.idOf (workspaceId, aliasKey) with
    | some serverId => (.requirements requirements, t.replace serverId requirements)
    | none =>
        if hfree : serverId ∈ t.keys.map Prod.fst then (.failed (.raised violation), t)
        else (.requirements requirements,
          t.insert serverId (workspaceId, aliasKey) requirements hfree h)

/-- `rename_alias` -/
def renameAlias (workspaceId fromAlias toAlias : Text) (t : RequirementTables ι ρ) :
    RequirementAnswer ρ × RequirementTables ι ρ :=
  let fromKey := strip fromAlias
  let toKey := strip toAlias
  if fromKey = [] ∨ toKey = [] ∨ fromKey = toKey then
    (.failed (.http ⟨400, "from_alias/to_alias required"⟩), t)
  else match t.idOf (workspaceId, fromKey) with
    | none => (.done false, t)
    | some _ =>
        if h : t.idOf (workspaceId, toKey) = none then
          (.done true, t.rekey (workspaceId, fromKey) (workspaceId, toKey) h)
        else
          (.failed (.http ⟨409, if violation = "" then "alias rename failed" else violation⟩), t)

/-- `delete_alias` -/
def deleteAlias (workspaceId aliasName : Text) (t : RequirementTables ι ρ) :
    RequirementAnswer ρ × RequirementTables ι ρ :=
  let aliasKey := strip aliasName
  if aliasKey = [] then (aliasRequired, t)
  else (.done (t.idOf (workspaceId, aliasKey)).isSome, t.erase (workspaceId, aliasKey))

def serveRequirements (t : RequirementTables ι ρ) :
    RequirementCall ι ρ → RequirementAnswer ρ × RequirementTables ι ρ
  | .listRequirements workspaceId =>
      (.listing (listRequirements collate noRequirements workspaceId t), t)
  | .getRequirements workspaceId aliasName =>
      (getRequirements noRequirements workspaceId aliasName t, t)
  | .setRequirements serverId workspaceId aliasName requirements =>
      setRequirements violation serverId workspaceId aliasName requirements t
  | .renameAlias workspaceId fromAlias toAlias =>
      renameAlias violation workspaceId fromAlias toAlias t
  | .deleteAlias workspaceId aliasName => deleteAlias workspaceId aliasName t

/-! ## The map -/

/-- The requirements of each server of each workspace. -/
abbrev Requirements (ρ : Type) := FinMap (Text × Text) ρ

/-- The servers of a workspace, in the order of their aliases. -/
def Requirements.listing (hcollate : Function.Injective collate) (m : Requirements ρ)
    (workspaceId : Text) : List (Text × ρ) :=
  (sortedBy collate hcollate ((m.keys.filter fun k => k.1 = workspaceId).image Prod.snd)).filterMap
    fun aliasName => (m.get (workspaceId, aliasName)).map (aliasName, ·)

/-- What the calls mean. -/
def Requirements.serve (hcollate : Function.Injective collate) (m : Requirements ρ) :
    RequirementCall ι ρ → RequirementAnswer ρ × Requirements ρ
  | .listRequirements workspaceId => (.listing (m.listing collate hcollate workspaceId), m)
  | .getRequirements workspaceId aliasName =>
      if strip aliasName = [] then (aliasRequired, m)
      else (.requirements ((m.get (workspaceId, strip aliasName)).getD noRequirements), m)
  | .setRequirements _ workspaceId aliasName requirements =>
      if strip aliasName = [] then (aliasRequired, m)
      else (.requirements requirements, m.set (workspaceId, strip aliasName) requirements)
  | .renameAlias workspaceId fromAlias toAlias =>
      if strip fromAlias = [] ∨ strip toAlias = [] ∨ strip fromAlias = strip toAlias then
        (.failed (.http ⟨400, "from_alias/to_alias required"⟩), m)
      else match m.get (workspaceId, strip fromAlias), m.get (workspaceId, strip toAlias) with
        | none, _ => (.done false, m)
        | some _, some _ =>
            (.failed (.http ⟨409, if violation = "" then "alias rename failed" else violation⟩), m)
        | some requirements, none =>
            (.done true, (m.restrict (· ≠ (workspaceId, strip fromAlias))).set
              (workspaceId, strip toAlias) requirements)
  | .deleteAlias workspaceId aliasName =>
      if strip aliasName = [] then (aliasRequired, m)
      else (.done (m.get (workspaceId, strip aliasName)).isSome,
        m.restrict (· ≠ (workspaceId, strip aliasName)))

/-! ## Listing -/

variable {t : RequirementTables ι ρ}

theorem put_of_not_mem {γ : Type} {key : Text} {value : γ} {out : List (Text × γ)}
    (h : key ∉ out.map Prod.fst) : put key value out = out ++ [(key, value)] := by
  induction out with
  | nil => rfl
  | cons item out ih =>
    obtain ⟨hne, hrest⟩ := not_or.mp (mt List.mem_cons.mpr h)
    rw [put, if_neg (Ne.symm hne), ih hrest]
    rfl

/-- Rows with different trimmed aliases are listed one after the other. -/
theorem foldl_put {rows : List (Text × Option ρ)} {out : List (Text × ρ)}
    (hrows : ∀ row ∈ rows, strip row.1 = row.1 ∧ row.1 ≠ [])
    (hnodup : (out.map Prod.fst ++ rows.map Prod.fst).Nodup) :
    rows.foldl (fun out row =>
      let aliasKey := strip row.1
      if aliasKey = [] then out else put aliasKey (row.2.getD noRequirements) out) out =
        out ++ rows.map fun row => (row.1, row.2.getD noRequirements) := by
  induction rows generalizing out with
  | nil => exact (List.append_nil out).symm
  | cons row rows ih =>
    obtain ⟨hstrip, hne⟩ := hrows row List.mem_cons_self
    have hnew : row.1 ∉ out.map Prod.fst := fun hmem =>
      (List.nodup_append.mp hnodup).2.2 _ hmem _ List.mem_cons_self rfl
    rw [List.foldl_cons, List.map_cons]
    dsimp only
    rw [hstrip, if_neg hne, put_of_not_mem hnew,
      ih (fun row hrow => hrows row (List.mem_cons_of_mem _ hrow)), List.append_assoc]
    · rfl
    · rw [List.map_append, List.append_assoc]
      exact hnodup

/-- The rows are the aliases in their order, each with its requirements. -/
theorem requirementRows_eq (workspaceId : Text) : requirementRows collate workspaceId t =
    ((aliasesOf workspaceId t).insertionSort fun a b => collate a ≤ collate b).map
      fun aliasName => (aliasName, t.get (workspaceId, aliasName)) := by
  have hrows : (t.keys.filter fun r => r.2.1 = workspaceId).map (fun r => (r.2.2, t.valueAt r.1)) =
      (aliasesOf workspaceId t).map fun aliasName => (aliasName, t.get (workspaceId, aliasName)) := by
    unfold aliasesOf
    rw [List.map_map]
    refine List.map_congr_left fun r hr => Prod.ext rfl ?_
    obtain ⟨hr, hkey⟩ := List.mem_filter.mp hr
    have hid : t.idOf (workspaceId, r.2.2) = some r.1 :=
      Linked.idOf_eq_some.mpr (of_decide_eq_true hkey ▸ hr)
    show t.valueAt r.1 = t.get (workspaceId, r.2.2)
    unfold Linked.get
    rw [hid]
    rfl
  unfold requirementRows
  rw [hrows]
  exact (List.map_insertionSort (fun a b => collate a ≤ collate b)
    (fun a b : Text × Option ρ => collate a.1 ≤ collate b.1) _ _ fun _ _ _ _ => Iff.rfl).symm

theorem listRequirements_eq (hcollate : Function.Injective collate) (htrimmed : Trimmed t)
    (workspaceId : Text) : listRequirements collate noRequirements workspaceId t =
      Requirements.listing collate hcollate t.toMap workspaceId := by
  have hsorted : sortedBy collate hcollate
      ((t.toMap.keys.filter fun k => k.1 = workspaceId).image Prod.snd) =
        (aliasesOf workspaceId t).insertionSort fun a b => collate a ≤ collate b := by
    rw [← @sortedBy_toFinset _ _ _ _ _ hcollate _ (nodup_aliasesOf workspaceId)]
    congr 1
    ext aliasName
    rw [Finset.mem_image, List.mem_toFinset, mem_aliasesOf, ← Linked.isSome_get, ← Linked.get_toMap,
      ← FinMap.mem_keys]
    constructor
    · rintro ⟨⟨workspaceId', aliasName'⟩, hkey, rfl⟩
      obtain ⟨hin, hworkspace⟩ := Finset.mem_filter.mp hkey
      cases hworkspace
      exact hin
    · intro hkey
      exact ⟨_, Finset.mem_filter.mpr ⟨hkey, rfl⟩, rfl⟩
  generalize hs : (aliasesOf workspaceId t).insertionSort (fun a b => collate a ≤ collate b) = sorted
    at hsorted
  have hmem : ∀ aliasName ∈ sorted, (workspaceId, aliasName) ∈ t.keys.map Prod.snd := by
    intro aliasName h
    rw [← hs, List.mem_insertionSort] at h
    exact mem_aliasesOf.mp h
  have hnodup : sorted.Nodup := by
    rw [← hs]
    exact (List.perm_insertionSort _ _).nodup_iff.mpr (nodup_aliasesOf workspaceId)
  unfold listRequirements
  rw [requirementRows_eq, hs, foldl_put]
  · unfold Requirements.listing
    rw [hsorted, List.nil_append, List.map_map, ← List.filterMap_eq_map]
    refine List.filterMap_congr fun aliasName h => ?_
    obtain ⟨requirements, hget⟩ := Option.isSome_iff_exists.mp (Linked.isSome_get.mpr (hmem aliasName h))
    rw [Linked.get_toMap, hget]
    show some (aliasName, (t.get (workspaceId, aliasName)).getD noRequirements) = _
    rw [hget]
    rfl
  · intro row hrow
    obtain ⟨aliasName, h, rfl⟩ := List.mem_map.mp hrow
    exact htrimmed _ (hmem aliasName h)
  · rw [List.map_map, List.map_nil, List.nil_append]
    exact (List.map_id sorted).symm ▸ hnodup

/-! ## One call -/

/-- A call is answered as the map answers it, and leaves the tables with what the map has then. -/
structure Refines (t : RequirementTables ι ρ) (call : RequirementCall ι ρ)
    (served : RequirementAnswer ρ × RequirementTables ι ρ)
    (meant : RequirementAnswer ρ × Requirements ρ) : Prop where
  answer : served.1 = meant.1
  state : served.2.toMap = meant.2
  trimmed : Trimmed served.2
  drawn : ∀ i ∈ served.2.keys.map Prod.fst, i ∈ t.keys.map Prod.fst ∨ call.drawn = some i

/-- Nothing is changed. -/
theorem Refines.same {call : RequirementCall ι ρ} {answer : RequirementAnswer ρ}
    (htrimmed : Trimmed t) : Refines t call (answer, t) (answer, t.toMap) :=
  ⟨rfl, rfl, htrimmed, fun _ hi => Or.inl hi⟩

theorem strip_key (aliasName : Text) (hne : strip aliasName ≠ []) (workspaceId : Text) :
    strip (workspaceId, strip aliasName).2 = (workspaceId, strip aliasName).2 ∧
      (workspaceId, strip aliasName).2 ≠ [] := ⟨strip_strip aliasName, hne⟩

theorem setRequirements_refines {serverId : ι} {workspaceId aliasName : Text} {requirements : ρ}
    (hcollate : Function.Injective collate) (htrimmed : Trimmed t)
    (hfresh : serverId ∉ t.keys.map Prod.fst) :
    Refines t (.setRequirements serverId workspaceId aliasName requirements)
      (setRequirements violation serverId workspaceId aliasName requirements t)
      (Requirements.serve collate noRequirements violation hcollate t.toMap
        (.setRequirements serverId workspaceId aliasName requirements)) := by
  unfold setRequirements Requirements.serve
  dsimp only
  by_cases hne : strip aliasName = []
  · rw [if_pos hne, if_pos hne]
    exact .same htrimmed
  · rw [if_neg hne, if_neg hne]
    split
    · rename_i found hid
      refine ⟨rfl, FinMap.ext fun k => ?_, htrimmed, fun _ hi => Or.inl hi⟩
      rw [Linked.get_toMap, Linked.get_replace hid]
      rfl
    · rename_i hid
      rw [dif_neg hfresh]
      refine ⟨rfl, FinMap.ext fun k => ?_, fun k hk => ?_, fun i hi => ?_⟩
      · rw [Linked.get_toMap, Linked.get_insert]
        rfl
      · rw [Linked.snd_insert] at hk
        rcases List.mem_append.mp hk with hk | hk
        · exact htrimmed k hk
        · rw [List.mem_singleton.mp hk]
          exact strip_key aliasName hne workspaceId
      · rw [Linked.fst_insert] at hi
        rcases List.mem_append.mp hi with hi | hi
        · exact Or.inl hi
        · rw [List.mem_singleton.mp hi]
          exact Or.inr rfl

theorem renameAlias_refines {workspaceId fromAlias toAlias : Text}
    (hcollate : Function.Injective collate) (htrimmed : Trimmed t) :
    Refines t (.renameAlias workspaceId fromAlias toAlias)
      (renameAlias violation workspaceId fromAlias toAlias t)
      (Requirements.serve collate noRequirements violation hcollate t.toMap
        (.renameAlias workspaceId fromAlias toAlias : RequirementCall ι ρ)) := by
  unfold renameAlias Requirements.serve
  dsimp only
  split
  · exact .same htrimmed
  · rename_i hgood
    obtain ⟨hfrom, hgood⟩ := not_or.mp hgood
    obtain ⟨hto, hne⟩ := not_or.mp hgood
    rw [Linked.get_toMap, Linked.get_toMap]
    cases hid : t.idOf (workspaceId, strip fromAlias) with
    | none =>
      rw [Linked.get_eq_none.mpr hid]
      exact .same htrimmed
    | some i =>
      have hkey := Linked.idOf_eq_some.mp hid
      obtain ⟨requirements, hget⟩ :=
        Option.isSome_iff_exists.mp (Linked.isSome_get.mpr (List.mem_map_of_mem hkey))
      rw [hget]
      dsimp only
      split
      · rename_i hfree
        rw [Linked.get_eq_none.mpr hfree]
        refine ⟨rfl, FinMap.ext fun k => ?_, fun k hk => ?_, fun i hi => ?_⟩
        · rw [Linked.get_toMap, Linked.get_rekey, hget, FinMap.get_set, FinMap.get_restrict]
          refine if_congr Iff.rfl rfl ?_
          by_cases hk : k = (workspaceId, strip fromAlias)
          · rw [if_pos hk, if_neg (by simpa using hk)]
          · rw [if_neg hk, if_pos (by simpa using hk)]
            rfl
        · obtain ⟨⟨i', k'⟩, hmem, rfl⟩ := List.mem_map.mp hk
          rcases Linked.mem_rekeyed.mp hmem with ⟨heq, -⟩ | ⟨-, hmem⟩
          · show strip k'.2 = k'.2 ∧ k'.2 ≠ []
            rw [heq]
            exact strip_key toAlias hto workspaceId
          · exact htrimmed _ (List.mem_map_of_mem hmem)
        · have hids : ((t.rekey (workspaceId, strip fromAlias) (workspaceId, strip toAlias) hfree).keys.map
              Prod.fst) = t.keys.map Prod.fst := Linked.fst_rekeyed _ _ _
          rw [hids] at hi
          exact Or.inl hi
      · rename_i htaken
        obtain ⟨other, hother⟩ := Option.ne_none_iff_exists'.mp (mt Linked.get_eq_none.mp htaken)
        rw [hother]
        exact .same htrimmed

theorem deleteAlias_refines {workspaceId aliasName : Text} (hcollate : Function.Injective collate)
    (htrimmed : Trimmed t) :
    Refines t (.deleteAlias workspaceId aliasName) (deleteAlias workspaceId aliasName t)
      (Requirements.serve collate noRequirements violation hcollate t.toMap
        (.deleteAlias workspaceId aliasName : RequirementCall ι ρ)) := by
  unfold deleteAlias Requirements.serve
  dsimp only
  split
  · exact .same htrimmed
  · refine ⟨?_, FinMap.ext fun k => ?_, fun k hk => ?_, fun i hi => ?_⟩
    · rw [Linked.get_toMap]
      refine congrArg RequirementAnswer.done (Bool.eq_iff_iff.mpr ?_)
      rw [Option.isSome_iff_ne_none, Option.isSome_iff_ne_none, Ne, Ne, Linked.get_eq_none]
    · rw [Linked.get_toMap, Linked.get_erase, FinMap.get_restrict]
      by_cases hk : k = (workspaceId, strip aliasName)
      · rw [if_pos hk, if_neg (by simpa using hk)]
      · rw [if_neg hk, if_pos (by simpa using hk)]
        rfl
    · obtain ⟨r, hr, rfl⟩ := List.mem_map.mp hk
      exact htrimmed _ (List.mem_map_of_mem (List.mem_filter.mp hr).1)
    · obtain ⟨r, hr, rfl⟩ := List.mem_map.mp hi
      exact Or.inl (List.mem_map_of_mem (List.mem_filter.mp hr).1)

/-- **Each call does to the tables what it does to the map.** -/
theorem serve_refines (hcollate : Function.Injective collate) (htrimmed : Trimmed t)
    {call : RequirementCall ι ρ} (hfresh : ∀ i ∈ call.drawn, i ∉ t.keys.map Prod.fst) :
    Refines t call (serveRequirements collate noRequirements violation t call)
      (Requirements.serve collate noRequirements violation hcollate t.toMap call) := by
  cases call with
  | listRequirements workspaceId =>
    show Refines t _ (.listing (listRequirements collate noRequirements workspaceId t), t) _
    rw [listRequirements_eq collate noRequirements hcollate htrimmed]
    exact .same htrimmed
  | getRequirements workspaceId aliasName =>
    unfold serveRequirements getRequirements Requirements.serve
    dsimp only
    split
    · exact .same htrimmed
    · exact .same htrimmed
  | setRequirements serverId workspaceId aliasName requirements =>
    exact setRequirements_refines collate noRequirements violation hcollate htrimmed
      (hfresh serverId rfl)
  | renameAlias workspaceId fromAlias toAlias =>
    exact renameAlias_refines collate noRequirements violation hcollate htrimmed
  | deleteAlias workspaceId aliasName =>
    exact deleteAlias_refines collate noRequirements violation hcollate htrimmed

/-! ## Runs -/

/-- The tables hold the map, and none of the numbers that are still to be drawn. -/
structure Stands (t : RequirementTables ι ρ) (m : Requirements ρ)
    (calls : List (RequirementCall ι ρ)) : Prop where
  map : t.toMap = m
  trimmed : Trimmed t
  apart : (t.keys.map Prod.fst ++ calls.filterMap RequirementCall.drawn).Nodup

theorem stands_step (hcollate : Function.Injective collate) {m : Requirements ρ}
    {call : RequirementCall ι ρ} {calls : List (RequirementCall ι ρ)}
    (h : Stands t m (call :: calls)) :
    (serveRequirements collate noRequirements violation t call).1 =
      (Requirements.serve collate noRequirements violation hcollate m call).1 ∧
    Stands (serveRequirements collate noRequirements violation t call).2
      (Requirements.serve collate noRequirements violation hcollate m call).2 calls := by
  obtain ⟨rfl, htrimmed, hnodup⟩ := h
  obtain ⟨-, hlater, hapart⟩ := List.nodup_append.mp hnodup
  have hsublist : List.Sublist (calls.filterMap RequirementCall.drawn)
      ((call :: calls).filterMap RequirementCall.drawn) := (List.sublist_cons_self _ _).filterMap _
  have hnow {i : ι} (hi : call.drawn = some i) :
      (call :: calls).filterMap RequirementCall.drawn =
        i :: calls.filterMap RequirementCall.drawn := List.filterMap_cons_some hi
  have hrefines := serve_refines collate noRequirements violation hcollate htrimmed
    fun i hi hmem => hapart i hmem i (hnow hi ▸ List.mem_cons_self) rfl
  refine ⟨hrefines.answer, hrefines.state, hrefines.trimmed,
    List.nodup_append.mpr ⟨Linked.ids _, hlater.sublist hsublist, fun i hi j hj => ?_⟩⟩
  rcases hrefines.drawn i hi with hold | hdrawn
  · exact hapart i hold j (hsublist.subset hj)
  · rw [hnow hdrawn] at hlater
    intro heq
    exact (List.nodup_cons.mp hlater).1 (heq ▸ hj)

/-- **Every run of calls is answered as by a map** from workspaces and aliases to requirements, and
    that map is what the tables hold in the end. -/
theorem requirements_refined (hcollate : Function.Injective collate)
    {calls : List (RequirementCall ι ρ)} (hdrawn : (calls.filterMap RequirementCall.drawn).Nodup) :
    (replies (serveRequirements collate noRequirements violation) Linked.empty calls).1 =
      (replies (Requirements.serve collate noRequirements violation hcollate) FinMap.empty calls).1 ∧
    (replies (serveRequirements collate noRequirements violation) Linked.empty calls).2.toMap =
      (replies (Requirements.serve collate noRequirements violation hcollate) FinMap.empty calls).2 := by
  have hstart : Stands (Linked.empty : RequirementTables ι ρ) FinMap.empty calls :=
    ⟨Linked.toMap_empty, fun k hk => (List.not_mem_nil hk).elim, hdrawn⟩
  obtain ⟨hanswers, hend⟩ := replies_refined (R := Stands)
    (fun _ _ _ _ h => stands_step collate noRequirements violation hcollate h) hstart
  exact ⟨hanswers, hend.map⟩

end Service

/-- A server is given requirements and renamed. -/
theorem requirements_refined_renamed :
    (replies (serveRequirements (id : Text → Text) 0 "") Linked.empty
      [.setRequirements 1 "ws" "a" 5, .renameAlias "ws" " a" "b", .getRequirements "ws" "b"]).1 =
    ([.requirements 5, .done true, .requirements 5] : List (RequirementAnswer Nat)) := by
  have hrefined := @requirements_refined Nat Nat Text _ _ id 0 "" Function.injective_id
    [.setRequirements 1 "ws" "a" 5, .renameAlias "ws" " a" "b", .getRequirements "ws" "b"] (by decide)
  exact hrefined.1.trans rfl

end Infinito.Servers
