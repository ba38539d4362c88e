import Infinito.Lib.Tree

/-!
# One field of a role

The settings of a role are edited field by field: `_set_path` sets the value at a path and makes
the mappings on the way there, `_delete_path` takes it out and prunes the mappings that are left
empty by it.

The two obey the laws of a lens. What was set is read, what is neither above nor below it stays
(`find_setPath_self`, `find_setPath_apart`), and a field that was not there is taken out without
a trace (`deletePath_setPath`).
-/

set_option autoImplicit false

namespace Infinito.Workspace

open Lib Lib.Tree

variable {κ α : Type} [DecidableEq κ]

/-! ## Setting and deleting -/

/-- `isinstance(existing, dict)`, or the mapping that is put there instead. -/
def mappingAt (key : κ) (m : Items κ α) : Items κ α :=
  match Items.get key m with
  | some (.node below) => below
  | _ => []

/-- `_set_path` -/
def setPath (target : Items κ α) : List κ → Tree κ α → Items κ α
  | [], _ => target
  | [key], value => Items.set key value target
  | key :: path, value => Items.set key (.node (setPath (mappingAt key target) path value)) target

/-- The walk of `_delete_path` and its way back: nothing where a key on the way has no mapping,
    and a mapping that comes back empty is deleted. One that does not ends the pruning, for the
    mappings above it are not empty. -/
def deleteBelow (target : Items κ α) : List κ → Option (Items κ α)
  | [] => some target
  | [key] => some (Items.erase key target)
  | key :: path => match Items.get key target with
    | some (.node below) => match deleteBelow below path with
      | none => none
      | some [] => some (Items.erase key target)
      | some (item :: below) => some (Items.set key (.node (item :: below)) target)
    | _ => none

/-- `_delete_path` -/
def deletePath (target : Items κ α) (path : List κ) : Items κ α :=
  (deleteBelow target path).getD target

/-! ## The laws -/

section Laws

variable {s : Items κ α} {p q : List κ} {k : κ} {v : Tree κ α}

theorem setPath_cons (hp : p ≠ []) (s : Items κ α) (k : κ) (v : Tree κ α) :
    setPath s (k :: p) v = Items.set k (.node (setPath (mappingAt k s) p v)) s := by
  cases p with
  | nil => exact absurd rfl hp
  | cons j p => rfl

theorem find_setPath_self (hp : p ≠ []) (s : Items κ α) (v : Tree κ α) :
    (node (setPath s p v)).find p = some v := by
  induction p generalizing s with
  | nil => exact absurd rfl hp
  | cons k p ih =>
    cases p with
    | nil =>
      rw [setPath, find_node_cons, Items.get_set_self]
      exact find_nil v
    | cons j p =>
      rw [setPath_cons (List.cons_ne_nil _ _), find_node_cons, Items.get_set_self]
      exact ih (List.cons_ne_nil _ _) _

/-- What is found below a key, whatever is there. -/
theorem find_mappingAt (hq : q ≠ []) (s : Items κ α) :
    (node (mappingAt k s)).find q = (Items.get k s).bind (·.find q) := by
  obtain ⟨j, q, rfl⟩ := List.exists_cons_of_ne_nil hq
  unfold mappingAt
  cases Items.get k s with
  | none => rfl
  | some t =>
    cases t with
    | leaf a => rfl
    | node m => rfl

/-- A path that neither leads to `p` nor goes on from it finds what it found. -/
theorem find_setPath_apart (s : Items κ α) (v : Tree κ α) (hpq : ¬ p <+: q) (hqp : ¬ q <+: p) :
    (node (setPath s p v)).find q = (node s).find q := by
  induction p generalizing s q with
  | nil => exact absurd List.nil_prefix hpq
  | cons k p ih =>
    cases q with
    | nil => exact absurd List.nil_prefix hqp
    | cons j q =>
      have hset : ∃ t, setPath s (k :: p) v = Items.set k t s := by
        cases p with
        | nil => exact ⟨_, rfl⟩
        | cons i p => exact ⟨_, rfl⟩
      by_cases hj : j = k
      · rw [hj] at hpq hqp ⊢
        rw [List.cons_prefix_cons] at hpq hqp
        have hp : p ≠ [] := by
          rintro rfl
          exact hpq ⟨rfl, List.nil_prefix⟩
        have hq : q ≠ [] := by
          rintro rfl
          exact hqp ⟨rfl, List.nil_prefix⟩
        rw [setPath_cons hp, find_node_cons, Items.get_set_self, find_node_cons, ← find_mappingAt hq]
        exact ih _ (fun h => hpq ⟨rfl, h⟩) fun h => hqp ⟨rfl, h⟩
      · obtain ⟨t, ht⟩ := hset
        rw [ht, find_node_cons, Items.get_set_of_ne hj, ← find_node_cons]

/-- No mapping below is empty. -/
def NoEmpty (s : Items κ α) : Prop := ∀ p, p ≠ [] → (node s).find p ≠ some (node [])

theorem NoEmpty.below {m : Items κ α} (h : NoEmpty s) (hget : Items.get k s = some (node m)) :
    NoEmpty m ∧ m ≠ [] := by
  constructor
  · intro p hp hfind
    refine h (k :: p) (List.cons_ne_nil _ _) ?_
    rw [find_node_cons, hget]
    exact hfind
  · rintro rfl
    refine h [k] (List.cons_ne_nil _ _) ?_
    rw [find_node_cons, hget]
    exact find_nil _

theorem find_empty (q : List κ) (a : α) : (node ([] : Items κ α)).find q ≠ some (leaf a) := by
  cases q with
  | nil => exact nofun
  | cons k q => exact nofun

theorem noEmpty_nil : NoEmpty ([] : Items κ α) := by
  intro q hq
  obtain ⟨k, q, rfl⟩ := List.exists_cons_of_ne_nil hq
  exact nofun

/-- The way back undoes the way there. -/
theorem deleteBelow_setPath (hp : p ≠ []) (v : Tree κ α) (habsent : (node s).find p = none)
    (hway : ∀ q, q <+: p → q ≠ p → ∀ a, (node s).find q ≠ some (leaf a)) (hempty : NoEmpty s) :
    deleteBelow (setPath s p v) p = some s := by
  induction p generalizing s with
  | nil => exact absurd rfl hp
  | cons k p ih =>
    cases p with
    | nil =>
      rw [find_node_cons] at habsent
      have hget : Items.get k s = none := by
        cases hget : Items.get k s with
        | none => rfl
        | some t =>
          rw [hget] at habsent
          cases t <;> cases habsent
      rw [setPath, deleteBelow, Items.erase_set hget]
    | cons j p =>
      have hne : j :: p ≠ [] := List.cons_ne_nil _ _
      rw [setPath_cons hne, deleteBelow, Items.get_set_self]
      · dsimp only
        cases hget : Items.get k s with
        | none =>
          -- nothing was there: what comes back is the empty mapping that was made
          have hmap : mappingAt k s = [] := by
            unfold mappingAt
            rw [hget]
          rw [hmap, ih hne rfl (fun q _ _ a => find_empty q a) noEmpty_nil]
          dsimp only
          rw [Items.erase_set hget]
        | some t =>
          cases t with
          | leaf a =>
            refine absurd ?_ (hway [k] ⟨j :: p, rfl⟩ (by simp) a)
            rw [find_node_cons, hget]
            rfl
          | node m =>
            have hmap : mappingAt k s = m := by
              unfold mappingAt
              rw [hget]
            obtain ⟨hbelow, hnonempty⟩ := hempty.below hget
            rw [find_node_cons, hget] at habsent
            rw [hmap, ih hne habsent (fun q hq hqne a hfind => ?_) hbelow]
            · obtain ⟨item, m, rfl⟩ := List.exists_cons_of_ne_nil hnonempty
              dsimp only
              rw [Items.set_set, Items.set_get hget]
            · refine hway (k :: q) (List.cons_prefix_cons.mpr ⟨rfl, hq⟩) (by simpa using hqne) a ?_
              rw [find_node_cons, hget]
              exact hfind
      · exact nofun

theorem deletePath_setPath (hp : p ≠ []) (v : Tree κ α) (habsent : (node s).find p = none)
    (hway : ∀ q, q <+: p → q ≠ p → ∀ a, (node s).find q ≠ some (leaf a)) (hempty : NoEmpty s) :
    deletePath (setPath s p v) p = s := by
  unfold deletePath
  rw [deleteBelow_setPath hp v habsent hway hempty]
  rfl

/-- **Setting and deleting a field are a lens.** -/
theorem role_field_lens (s : Items κ α) (p : List κ) (v : Tree κ α) (hp : p ≠ []) :
    (node (setPath s p v)).find p = some v ∧
      (∀ q, ¬ p <+: q → ¬ q <+: p → (node (setPath s p v)).find q = (node s).find q) ∧
      ((node s).find p = none → (∀ q, q <+: p → q ≠ p → ∀ a, (node s).find q ≠ some (leaf a)) →
        NoEmpty s → deletePath (setPath s p v) p = s) :=
  ⟨find_setPath_self hp s v, fun _ hpq hqp => find_setPath_apart s v hpq hqp,
    fun habsent hway hempty => deletePath_setPath hp v habsent hway hempty⟩

end Laws

section Demo

def demoSection : Items String Nat := [("port", .leaf 80)]

theorem demo_find {q : List String} {t : Tree String Nat} (hfind : (node demoSection).find q = some t) :
    t = node demoSection ∨ q = ["port"] ∧ t = leaf 80 := by
  rcases q with _ | ⟨k, q⟩
  · exact Or.inl (Option.some.inj hfind).symm
  · rw [find_node_cons, demoSection, Items.get_cons] at hfind
    by_cases hk : "port" = k
    · rw [if_pos hk] at hfind
      cases q with
      | nil => exact Or.inr ⟨by rw [hk], (Option.some.inj hfind).symm⟩
      | cons j q => cases hfind
    · rw [if_neg hk] at hfind
      cases hfind

theorem role_field_lens_port :
    (node (setPath demoSection ["services", "enabled"] (leaf 1))).find ["services", "enabled"] =
        some (leaf 1) ∧
      (node (setPath demoSection ["services", "enabled"] (leaf 1))).find ["port"] = some (leaf 80) ∧
      deletePath (setPath demoSection ["services", "enabled"] (leaf 1)) ["services", "enabled"] =
        demoSection := by
  obtain ⟨hread, hapart, hrestore⟩ :=
    role_field_lens demoSection ["services", "enabled"] (leaf 1) (by decide)
  refine ⟨hread, (hapart ["port"] (by decide) (by decide)).trans rfl, hrestore rfl ?_ ?_⟩
  · intro q hq hne a hfind
    rcases demo_find hfind with heq | ⟨rfl, -⟩
    · cases heq
    · exact absurd hq (by decide)
  · intro q hq hfind
    rcases demo_find hfind with heq | ⟨-, heq⟩
    · cases heq
    · cases heq

end Demo

end Infinito.Workspace
