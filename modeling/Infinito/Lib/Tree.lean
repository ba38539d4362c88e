import Mathlib.Data.List.Nodup

/-!
# Nested mappings

A `Tree` is a value or a mapping of keys to trees, in the order in which the keys came. What a
mapping says does not depend on that order: two trees are the `Same` if every path finds the
same in both.

The operations are those of an insertion-ordered dictionary, and of one of them only the lookup
matters to the rest (`get_set`, `get_erase`). `foldItems` is the loop that all mergers are: it
goes through the items of one mapping and sets each in the other.
-/

set_option autoImplicit false

namespace Infinito.Lib

inductive Tree (κ α : Type) where
  | leaf (a : α)
  | node (items : List (κ × Tree κ α))

abbrev Items (κ α : Type) := List (κ × Tree κ α)

/-! ## Lookup -/

section Lookup

variable {κ β : Type} [DecidableEq κ] {k j : κ} {v w : β} {m : List (κ × β)}

namespace Items

def get (k : κ) : List (κ × β) → Option β
  | [] => none
  | item :: m => if item.1 = k then some item.2 else get k m

def set (k : κ) (v : β) : List (κ × β) → List (κ × β)
  | [] => [(k, v)]
  | item :: m => if item.1 = k then (item.1, v) :: m else item :: set k v m

def erase (k : κ) (m : List (κ × β)) : List (κ × β) := m.filter fun item => item.1 ≠ k

@[simp] theorem get_nil (k : κ) : get k ([] : List (κ × β)) = none := rfl

theorem get_cons (item : κ × β) (m : List (κ × β)) :
    get k (item :: m) = if item.1 = k then some item.2 else get k m := rfl

theorem get_set (k j : κ) (v : β) (m : List (κ × β)) :
    get j (set k v m) = if j = k then some v else get j m := by
  induction m with
  | nil =>
    rw [set, get_cons]
    by_cases h : j = k
    · rw [if_pos h.symm, if_pos h]
    · rw [if_neg (Ne.symm h), if_neg h]
  | cons item m ih =>
    unfold set
    by_cases hk : item.1 = k
    · rw [if_pos hk, get_cons, get_cons, hk]
      by_cases h : j = k
      · rw [if_pos h.symm, if_pos h]
      · rw [if_neg (Ne.symm h), if_neg h, if_neg (Ne.symm h)]
    · rw [if_neg hk, get_cons, get_cons, ih]
      by_cases h : j = k
      · rw [if_pos h, if_neg (by rw [h]; exact hk), if_pos h]
      · rw [if_neg h, if_neg h]

@[simp] theorem get_set_self (k : κ) (v : β) (m : List (κ × β)) : get k (set k v m) = some v := by
  rw [get_set, if_pos rfl]

theorem get_set_of_ne (h : j ≠ k) (v : β) (m : List (κ × β)) : get j (set k v m) = get j m := by
  rw [get_set, if_neg h]

theorem get_erase (k j : κ) (m : List (κ × β)) :
    get j (erase k m) = if j = k then none else get j m := by
  induction m with
  | nil => simp [erase]
  | cons item m ih =>
    unfold erase at ih ⊢
    by_cases hk : item.1 = k
    · rw [List.filter_cons_of_neg (by simpa using hk), ih, get_cons]
      by_cases h : j = k
      · rw [if_pos h, if_pos h]
      · rw [if_neg h, if_neg h, if_neg (by rw [hk]; exact Ne.symm h)]
    · rw [List.filter_cons_of_pos (by simpa using hk), get_cons, get_cons, ih]
      by_cases h : j = k
      · rw [if_pos h, if_neg (by rw [h]; exact hk), if_pos h]
      · rw [if_neg h, if_neg h]

/-- What is set to what it was is left alone. -/
theorem set_get (h : get k m = some v) : set k v m = m := by
  induction m with
  | nil => cases h
  | cons item m ih =>
    rw [get_cons] at h
    unfold set
    by_cases hk : item.1 = k
    · rw [if_pos hk] at h ⊢
      cases h
      rfl
    · rw [if_neg hk] at h ⊢
      rw [ih h]

theorem set_set (k : κ) (v w : β) (m : List (κ × β)) : set k w (set k v m) = set k w m := by
  induction m with
  | nil => simp [set]
  | cons item m ih =>
    by_cases hk : item.1 = k
    · simp [set, hk]
    · simp [set, hk, ih]

theorem set_of_get_none (h : get k m = none) (v : β) : set k v m = m ++ [(k, v)] := by
  induction m with
  | nil => rfl
  | cons item m ih =>
    rw [get_cons] at h
    unfold set
    by_cases hk : item.1 = k
    · rw [if_pos hk] at h
      cases h
    · rw [if_neg hk] at h ⊢
      rw [ih h]
      rfl

theorem erase_of_get_none (h : get k m = none) : erase k m = m := by
  induction m with
  | nil => rfl
  | cons item m ih =>
    rw [get_cons] at h
    unfold erase at ih ⊢
    by_cases hk : item.1 = k
    · rw [if_pos hk] at h
      cases h
    · rw [if_neg hk] at h
      rw [List.filter_cons_of_pos (by simpa using hk), ih h]

/-- A key that is set where there was none is gone again when it is erased. -/
theorem erase_set (h : get k m = none) (v : β) : erase k (set k v m) = m := by
  rw [set_of_get_none h]
  unfold erase
  rw [List.filter_append]
  have hself := erase_of_get_none h
  unfold erase at hself
  rw [hself]
  simp

theorem mem_of_get (h : get k m = some v) : (k, v) ∈ m := by
  induction m with
  | nil => cases h
  | cons item m ih =>
    rw [get_cons] at h
    by_cases hk : item.1 = k
    · rw [if_pos hk] at h
      cases h
      rw [← hk]
      exact List.mem_cons_self
    · rw [if_neg hk] at h
      exact List.mem_cons_of_mem _ (ih h)

theorem get_eq_none_iff : get k m = none ↔ k ∉ m.map (·.1) := by
  induction m with
  | nil => simp
  | cons item m ih =>
    rw [get_cons, List.map_cons, List.mem_cons, not_or]
    by_cases hk : item.1 = k
    · rw [if_pos hk]
      exact iff_of_false nofun fun h => h.1 hk.symm
    · rw [if_neg hk, ih]
      exact (and_iff_right (Ne.symm hk)).symm

theorem get_of_mem (hm : (m.map (·.1)).Nodup) (h : (k, v) ∈ m) : get k m = some v := by
  induction m with
  | nil => cases h
  | cons item m ih =>
    rw [List.map_cons, List.nodup_cons] at hm
    rw [get_cons]
    rcases List.mem_cons.mp h with rfl | h
    · exact if_pos rfl
    · rw [if_neg, ih hm.2 h]
      intro hk
      rw [hk] at hm
      exact hm.1 (List.mem_map_of_mem h)

theorem nodup_set (hm : (m.map (·.1)).Nodup) (k : κ) (v : β) : ((set k v m).map (·.1)).Nodup := by
  induction m with
  | nil => simp [set]
  | cons item m ih =>
    rw [List.map_cons, List.nodup_cons] at hm
    unfold set
    by_cases hk : item.1 = k
    · rw [if_pos hk, List.map_cons, List.nodup_cons]
      exact hm
    · rw [if_neg hk, List.map_cons, List.nodup_cons]
      refine ⟨?_, ih hm.2⟩
      rw [← get_eq_none_iff, get_set, if_neg hk, get_eq_none_iff]
      exact hm.1

/-- Each item of `src` set in `dst`, to what `f` makes of it and of what is there. -/
def foldItems (f : Option β → β → β) (dst src : List (κ × β)) : List (κ × β) :=
  src.foldl (fun dst item => set item.1 (f (get item.1 dst) item.2) dst) dst

/-- With different keys in `src`, no item meets what another one has set. -/
theorem get_foldItems (f : Option β → β → β) {src : List (κ × β)} (hsrc : (src.map (·.1)).Nodup)
    (dst : List (κ × β)) (k : κ) :
    get k (foldItems f dst src) = match get k src with
      | none => get k dst
      | some v => some (f (get k dst) v) := by
  unfold foldItems
  induction src generalizing dst with
  | nil => rfl
  | cons item src ih =>
    rw [List.map_cons, List.nodup_cons] at hsrc
    rw [List.foldl_cons, ih hsrc.2, get_cons]
    by_cases hk : item.1 = k
    · rw [if_pos hk, get_eq_none_iff.mpr (by rw [← hk]; exact hsrc.1), get_set, if_pos hk.symm, hk]
    · rw [if_neg hk]
      cases get k src with
      | none => exact get_set_of_ne (Ne.symm hk) _ _
      | some v => rw [get_set_of_ne (Ne.symm hk)]

theorem get_foldl_set_of_not_mem (f : κ → Option β → β) {keys : List κ} (m : List (κ × β))
    (hk : k ∉ keys) :
    get k (keys.foldl (fun m key => set key (f key (get key m)) m) m) = get k m := by
  induction keys generalizing m with
  | nil => rfl
  | cons key keys ih =>
    rw [List.mem_cons, not_or] at hk
    rw [List.foldl_cons, ih _ hk.2, get_set_of_ne hk.1]

/-- Different keys that are set one after the other, each to what `f` makes of what is there. -/
theorem get_foldl_set_of_mem (f : κ → Option β → β) {keys : List κ} (hkeys : keys.Nodup)
    (m : List (κ × β)) (hk : k ∈ keys) :
    get k (keys.foldl (fun m key => set key (f key (get key m)) m) m) = some (f k (get k m)) := by
  induction keys generalizing m with
  | nil => cases hk
  | cons key keys ih =>
    rw [List.nodup_cons] at hkeys
    rw [List.foldl_cons]
    cases List.mem_cons.mp hk with
    | inl heq =>
      subst heq
      rw [get_foldl_set_of_not_mem f _ hkeys.1, get_set, if_pos rfl]
    | inr hmem =>
      have hne : k ≠ key := fun heq => hkeys.1 (heq ▸ hmem)
      rw [ih hkeys.2 _ hmem, get_set_of_ne hne]

theorem get_filterMap_of_not_mem {keys : List κ} (g : κ → Option β) (hk : k ∉ keys) :
    get k (keys.filterMap fun key => (g key).map fun v => (key, v)) = none := by
  rw [get_eq_none_iff]
  intro hmem
  obtain ⟨item, hitem, rfl⟩ := List.mem_map.mp hmem
  obtain ⟨key, hkey, hsome⟩ := List.mem_filterMap.mp hitem
  obtain ⟨v, -, rfl⟩ := Option.map_eq_some_iff.mp hsome
  exact hk hkey

theorem get_filterMap_of_mem {keys : List κ} (g : κ → Option β) (hk : k ∈ keys) :
    get k (keys.filterMap fun key => (g key).map fun v => (key, v)) = g k := by
  induction keys with
  | nil => cases hk
  | cons key keys ih =>
    rw [List.filterMap_cons]
    by_cases heq : key = k
    · subst heq
      cases hg : g key with
      | none =>
        by_cases hmem : key ∈ keys
        · exact (ih hmem).trans hg
        · exact get_filterMap_of_not_mem g hmem
      | some v => simp [get_cons]
    · have hmem : k ∈ keys := (List.mem_cons.mp hk).resolve_left (Ne.symm heq)
      cases hg : g key with
      | none => exact ih hmem
      | some v => simpa [get_cons, heq] using ih hmem

omit [DecidableEq κ] in
theorem nodup_filterMap {keys : List κ} (g : κ → Option β) (hkeys : keys.Nodup) :
    ((keys.filterMap fun key => (g key).map fun v => (key, v)).map (·.1)).Nodup := by
  have hsub : ((keys.filterMap fun key => (g key).map fun v => (key, v)).map (·.1)).Sublist
      keys := by
    induction keys with
    | nil => exact .slnil
    | cons key keys ih =>
      rw [List.filterMap_cons]
      cases g key with
      | none => exact (ih hkeys.of_cons).cons _
      | some v => exact (ih hkeys.of_cons).cons_cons _
  exact hkeys.sublist hsub

end Items

end Lookup

/-! ## Trees -/

namespace Tree

variable {κ α : Type} [DecidableEq κ] {t t' : Tree κ α} {m n : Items κ α} {k : κ} {p q : List κ}

/-- What a path finds: a tree. -/
def find (t : Tree κ α) : List κ → Option (Tree κ α)
  | [] => some t
  | k :: p => match t with
    | leaf _ => none
    | node m => match Items.get k m with
      | none => none
      | some t => t.find p

/-- What is there at once: a value, or a mapping. -/
def head : Tree κ α → Option α
  | leaf a => some a
  | node _ => none

/-- What a path finds, apart from what is below it. -/
def probe (t : Tree κ α) (p : List κ) : Option (Option α) := (t.find p).map head

/-- It says what is at the path: by a value or a mapping there, or by a value on the way. -/
def decides (t : Tree κ α) : List κ → Bool
  | [] => true
  | k :: p => match t with
    | leaf _ => true
    | node m => match Items.get k m with
      | none => false
      | some t => t.decides p

/-- Two trees are the same, the order of keys aside. -/
def Same (t t' : Tree κ α) : Prop := ∀ p, t.probe p = t'.probe p

@[simp] theorem find_nil (t : Tree κ α) : t.find [] = some t := by cases t <;> rfl

theorem find_node_cons (m : Items κ α) (k : κ) (p : List κ) :
    (node m).find (k :: p) = (Items.get k m).bind (·.find p) := by
  rw [find]
  cases Items.get k m <;> rfl

@[simp] theorem find_leaf_cons (a : α) (k : κ) (p : List κ) :
    (leaf a : Tree κ α).find (k :: p) = none := rfl

theorem probe_node_cons (m : Items κ α) (k : κ) (p : List κ) :
    (node m).probe (k :: p) = (Items.get k m).bind (·.probe p) := by
  unfold probe
  rw [find_node_cons]
  cases Items.get k m <;> rfl

@[simp] theorem probe_leaf_cons (a : α) (k : κ) (p : List κ) :
    (leaf a : Tree κ α).probe (k :: p) = none := rfl

theorem decides_node_cons (m : Items κ α) (k : κ) (p : List κ) :
    (node m).decides (k :: p) = (Items.get k m).any (·.decides p) := by
  rw [decides]
  cases Items.get k m <;> rfl

@[simp] theorem decides_nil (t : Tree κ α) : t.decides [] = true := by cases t <;> rfl

@[simp] theorem decides_leaf (a : α) (p : List κ) : (leaf a : Tree κ α).decides p = true := by
  cases p <;> rfl

theorem probe_of_not_decides (h : t.decides p = false) : t.probe p = none := by
  induction p generalizing t with
  | nil => simp at h
  | cons k p ih =>
    cases t with
    | leaf a => simp at h
    | node m =>
      rw [decides_node_cons] at h
      rw [probe_node_cons]
      cases hget : Items.get k m with
      | none => rfl
      | some t =>
        rw [hget] at h
        exact ih h

theorem Same.refl (t : Tree κ α) : Same t t := fun _ => rfl

theorem Same.symm (h : Same t t') : Same t' t := fun p => (h p).symm

theorem Same.trans {t'' : Tree κ α} (h : Same t t') (h' : Same t' t'') : Same t t'' :=
  fun p => (h p).trans (h' p)

/-- No key comes twice, in any of the mappings. -/
inductive Distinct : Tree κ α → Prop
  | leaf (a : α) : Distinct (leaf a)
  | node {m : Items κ α} (nodup : (m.map (·.1)).Nodup) (below : ∀ item ∈ m, Distinct item.2) :
      Distinct (node m)

omit [DecidableEq κ] in
theorem Distinct.nodup (h : Distinct (Tree.node m)) : (m.map (·.1)).Nodup := by
  cases h
  assumption

theorem Distinct.get (h : Distinct (Tree.node m)) (hget : Items.get k m = some t) : Distinct t := by
  cases h with
  | node _ below => exact below _ (Items.mem_of_get hget)

theorem Distinct.set (h : Distinct (Tree.node m)) (k : κ) (ht : Distinct t) :
    Distinct (Tree.node (Items.set k t m)) := by
  have hnodup := Items.nodup_set h.nodup k t
  refine .node hnodup fun item hitem => ?_
  have hget := Items.get_of_mem hnodup hitem
  rw [Items.get_set] at hget
  by_cases hk : item.1 = k
  · rw [if_pos hk] at hget
    cases hget
    exact ht
  · rw [if_neg hk] at hget
    exact h.get hget

theorem Distinct.erase (h : Distinct (Tree.node m)) (k : κ) : Distinct (Tree.node (Items.erase k m)) := by
  have hsub : (Items.erase k m).Sublist m := List.filter_sublist
  cases h with
  | node nodup below =>
    exact .node (nodup.sublist (hsub.map _)) fun item hitem => below item (hsub.subset hitem)

theorem probe_set (k j : κ) (t : Tree κ α) (m : Items κ α) (p : List κ) :
    (node (Items.set k t m)).probe (j :: p) = if j = k then t.probe p else (node m).probe (j :: p) := by
  rw [probe_node_cons, probe_node_cons, Items.get_set]
  by_cases hj : j = k
  · rw [if_pos hj, if_pos hj]
    rfl
  · rw [if_neg hj, if_neg hj]

theorem probe_erase_of_ne {j : κ} (hj : j ≠ k) (m : Items κ α) (p : List κ) :
    (node (Items.erase k m)).probe (j :: p) = (node m).probe (j :: p) := by
  rw [probe_node_cons, probe_node_cons, Items.get_erase, if_neg hj]

/-- Other values at the same places. -/
def map {β : Type} (f : α → β) : Tree κ α → Tree κ β
  | leaf a => leaf (f a)
  | node m => node (maps m)
where
  maps : List (κ × Tree κ α) → List (κ × Tree κ β)
    | [] => []
    | item :: m => (item.1, item.2.map f) :: maps m

section Map

variable {β : Type} (f : α → β)

theorem get_maps (k : κ) (m : Items κ α) : Items.get k (map.maps f m) = (Items.get k m).map (map f) := by
  induction m with
  | nil => rfl
  | cons item m ih =>
    show Items.get k ((item.1, item.2.map f) :: map.maps f m) = _
    rw [Items.get_cons, Items.get_cons, ih]
    by_cases hk : item.1 = k
    · rw [if_pos hk, if_pos hk]
      rfl
    · rw [if_neg hk, if_neg hk]

theorem probe_map (t : Tree κ α) (p : List κ) : (t.map f).probe p = (t.probe p).map (Option.map f) := by
  induction p generalizing t with
  | nil => cases t <;> rfl
  | cons k p ih =>
    cases t with
    | leaf a => rfl
    | node m =>
      show (node (map.maps f m)).probe (k :: p) = _
      rw [probe_node_cons, probe_node_cons, get_maps]
      cases Items.get k m with
      | none => rfl
      | some t => exact ih t

omit [DecidableEq κ] in
theorem keys_maps (m : Items κ α) : (map.maps f m).map (·.1) = m.map (·.1) := by
  induction m with
  | nil => rfl
  | cons item m ih =>
    show item.1 :: (map.maps f m).map (·.1) = _
    rw [ih]
    rfl

omit [DecidableEq κ] in
theorem Distinct.map (h : Distinct t) : Distinct (t.map f) := by
  induction h with
  | leaf a => exact .leaf (f a)
  | @node m nodup below ih =>
    refine .node (by rw [keys_maps]; exact nodup) ?_
    clear nodup below
    induction m with
    | nil => exact nofun
    | cons item m ihm =>
      intro other hother
      rcases List.mem_cons.mp hother with rfl | hother
      · exact ih item List.mem_cons_self
      · exact ihm (fun i hi => ih i (List.mem_cons_of_mem _ hi)) other hother

end Map

/-! ## Trees with the same keys -/

section Alike

variable {β γ : Type} {u : Tree κ β} {v : Tree κ γ} {n : Items κ β}

/-- Two trees have the same keys, values aside. -/
def Alike (t : Tree κ α) (u : Tree κ β) : Prop :=
  ∀ p, (t.probe p).map Option.isSome = (u.probe p).map Option.isSome

theorem Alike.symm (h : Alike t u) : Alike u t := fun p => (h p).symm

theorem Alike.trans (h : Alike t u) (h' : Alike u v) : Alike t v := fun p => (h p).trans (h' p)

theorem Same.alike (h : Same t t') : Alike t t' := fun p => by rw [h p]

theorem alike_map (f : α → β) (t : Tree κ α) : Alike (t.map f) t := fun p => by
  rw [probe_map]
  cases t.probe p with
  | none => rfl
  | some a => cases a <;> rfl

theorem Alike.exists_node (h : Alike (Tree.node m) u) : ∃ n, u = Tree.node n := by
  cases u with
  | leaf b => exact absurd (h []) nofun
  | node n => exact ⟨n, rfl⟩

end Alike

/-- How many keys there are in all. -/
def size : Tree κ α → Nat
  | leaf _ => 0
  | node m => sizes m
where
  sizes : List (κ × Tree κ α) → Nat
    | [] => 0
    | item :: m => 1 + item.2.size + sizes m

end Tree

/-- A mapping, with different keys in it and below. -/
structure Mapping (κ α : Type) where
  items : Items κ α
  distinct : (Tree.node items).Distinct

end Infinito.Lib
