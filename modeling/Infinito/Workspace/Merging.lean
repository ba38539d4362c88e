import Infinito.Lib.Tree

/-!
# Three ways to merge mappings

An import merges the files of an archive into those that are there, a job its host variables
over the group variables, and a save fills in what the saved text left out. Each has its own
recursion: `_merge_mappings_inplace` and `_merge_nested_mappings` go through the items of what
lies on top, `_merge_missing` through those of what lies below.

Looked up key by key they do the same: what is on top wins, unless there is a mapping on both
sides (`get_mergeNestedMappings` and its companions). `mergers_agree` is the induction over the
path.
-/

set_option autoImplicit false

namespace Infinito.Workspace

open Lib Lib.Tree

variable {κ α : Type} [DecidableEq κ]

/-! ## The mergers -/

mutual

/-- `_merge_missing`: the destination afterwards, and how many keys were added. -/
def mergeMissing (dst : Items κ α) : List (κ × Tree κ α) → Items κ α × Nat
  | [] => (dst, 0)
  | (key, value) :: src =>
      match Items.get key dst with
      | none =>
          let (dst, added) := mergeMissing (Items.set key value dst) src
          (dst, 1 + added)
      | some existing =>
          let (existing, n) := mergeMissingBelow existing value
          let (dst, added) := mergeMissing (Items.set key existing dst) src
          (dst, n + added)

/-- For a key that is there: only two mappings are merged. -/
def mergeMissingBelow (existing : Tree κ α) : Tree κ α → Tree κ α × Nat
  | .leaf _ => (existing, 0)
  | .node src => match existing with
    | .leaf a => (.leaf a, 0)
    | .node dst =>
        let (dst, added) := mergeMissing dst src
        (.node dst, added)

end

mutual

/-- `_merge_mappings_inplace` -/
def mergeMappingsInplace (destination : Items κ α) : List (κ × Tree κ α) → Items κ α
  | [] => destination
  | (key, value) :: source =>
      mergeMappingsInplace (Items.set key (mergedInplace (Items.get key destination) value) destination)
        source

def mergedInplace (existing : Option (Tree κ α)) : Tree κ α → Tree κ α
  | .leaf a => .leaf a
  | .node source => match existing with
    | some (.node destination) => .node (mergeMappingsInplace destination source)
    | _ => .node source

end

mutual

/-- `_merge_nested_mappings` -/
def mergeNestedMappings (base : Items κ α) : List (κ × Tree κ α) → Items κ α
  | [] => base
  | (key, value) :: override =>
      mergeNestedMappings (Items.set key (mergedNested (Items.get key base) value) base) override

def mergedNested (existing : Option (Tree κ α)) : Tree κ α → Tree κ α
  | .leaf a => .leaf a
  | .node override => match existing with
    | some (.node base) => .node (mergeNestedMappings base override)
    | _ => .node override

end

/-! ## Key by key -/

section Lookup

variable {base override : Items κ α} {k : κ}

theorem mergeNestedMappings_eq (base override : Items κ α) :
    mergeNestedMappings base override = Items.foldItems mergedNested base override := by
  unfold Items.foldItems
  induction override generalizing base with
  | nil => rw [mergeNestedMappings]; rfl
  | cons item override ih => rw [mergeNestedMappings, ih]; rfl

theorem mergeMappingsInplace_eq (destination source : Items κ α) :
    mergeMappingsInplace destination source = Items.foldItems mergedInplace destination source := by
  unfold Items.foldItems
  induction source generalizing destination with
  | nil => rw [mergeMappingsInplace]; rfl
  | cons item source ih => rw [mergeMappingsInplace, ih]; rfl

/-- What `_merge_missing` puts for a key. -/
def filledIn (existing : Option (Tree κ α)) (value : Tree κ α) : Tree κ α :=
  match existing with
  | none => value
  | some existing => (mergeMissingBelow existing value).1

theorem mergeMissing_eq (dst src : Items κ α) :
    (mergeMissing dst src).1 = Items.foldItems filledIn dst src := by
  unfold Items.foldItems
  induction src generalizing dst with
  | nil => rw [mergeMissing]; rfl
  | cons item src ih =>
    obtain ⟨key, value⟩ := item
    rw [mergeMissing, List.foldl_cons]
    cases hget : Items.get key dst with
    | none =>
      show (mergeMissing (Items.set key value dst) src).1 = _
      rw [ih]
      rfl
    | some existing =>
      show (mergeMissing (Items.set key (mergeMissingBelow existing value).1 dst) src).1 = _
      rw [ih]
      rfl

/-- What lies on top, and below it what `merge` makes of two mappings. -/
def onTop (merge : Items κ α → Items κ α → Items κ α) (top below : Option (Tree κ α)) :
    Option (Tree κ α) :=
  match top, below with
  | none, t => t
  | some (.node o), some (.node b) => some (.node (merge b o))
  | some t, _ => some t

theorem get_mergeNestedMappings (hoverride : (override.map (·.1)).Nodup) :
    Items.get k (mergeNestedMappings base override) =
      onTop mergeNestedMappings (Items.get k override) (Items.get k base) := by
  rw [mergeNestedMappings_eq, Items.get_foldItems _ hoverride]
  cases Items.get k override with
  | none => rfl
  | some t =>
    cases t with
    | leaf a => cases Items.get k base <;> rfl
    | node o =>
      cases Items.get k base with
      | none => rfl
      | some b => cases b <;> rfl

theorem get_mergeMappingsInplace (hsource : (override.map (·.1)).Nodup) :
    Items.get k (mergeMappingsInplace base override) =
      onTop mergeMappingsInplace (Items.get k override) (Items.get k base) := by
  rw [mergeMappingsInplace_eq, Items.get_foldItems _ hsource]
  cases Items.get k override with
  | none => rfl
  | some t =>
    cases t with
    | leaf a => cases Items.get k base <;> rfl
    | node o =>
      cases Items.get k base with
      | none => rfl
      | some b => cases b <;> rfl

theorem get_mergeMissing (hsrc : (base.map (·.1)).Nodup) :
    Items.get k (mergeMissing override base).1 =
      onTop (fun b o => (mergeMissing o b).1) (Items.get k override) (Items.get k base) := by
  rw [mergeMissing_eq, Items.get_foldItems _ hsrc]
  cases Items.get k override with
  | none => cases Items.get k base <;> rfl
  | some t =>
    cases Items.get k base with
    | none => cases t <;> rfl
    | some b => cases b <;> cases t <;> rfl

end Lookup

/-! ## They agree -/

section Agree

variable {f g : Items κ α → Items κ α → Items κ α}

/-- Two mergers that look up alike give the same tree. -/
theorem same_of_get
    (hget : ∀ b o k, (node b).Distinct → (node o).Distinct →
      Items.get k (f b o) = onTop f (Items.get k o) (Items.get k b))
    (hget' : ∀ b o k, (node b).Distinct → (node o).Distinct →
      Items.get k (g b o) = onTop g (Items.get k o) (Items.get k b))
    {b o : Items κ α} (hb : (node b).Distinct) (ho : (node o).Distinct) :
    Same (node (f b o)) (node (g b o)) := by
  intro p
  induction p generalizing b o with
  | nil => rfl
  | cons k p ih =>
    rw [probe_node_cons, probe_node_cons, hget b o k hb ho, hget' b o k hb ho]
    cases hgo : Items.get k o with
    | none => rfl
    | some t =>
      cases hgb : Items.get k b with
      | none => cases t <;> rfl
      | some s =>
        cases t with
        | leaf a => rfl
        | node o' =>
          cases s with
          | leaf a => rfl
          | node b' => exact ih (hb.get hgb) (ho.get hgo)

/-- What lies on top says what is at a path, and where it does not, what lies below. -/
theorem probe_of_get
    (hget : ∀ b o k, (node b).Distinct → (node o).Distinct →
      Items.get k (f b o) = onTop f (Items.get k o) (Items.get k b))
    {b o : Items κ α} (hb : (node b).Distinct) (ho : (node o).Distinct) (p : List κ) :
    (node (f b o)).probe p =
      if (node o).decides p then (node o).probe p else (node b).probe p := by
  induction p generalizing b o with
  | nil => rfl
  | cons k p ih =>
    rw [probe_node_cons, probe_node_cons, probe_node_cons, decides_node_cons, hget b o k hb ho]
    cases hgo : Items.get k o with
    | none => rfl
    | some t =>
      cases t with
      | leaf a => simp [onTop]
      | node o' =>
        cases hgb : Items.get k b with
        | none =>
          cases hdec : (node o').decides p with
          | true => simp [onTop, hdec]
          | false => simp [onTop, hdec, probe_of_not_decides hdec]
        | some s =>
          cases s with
          | leaf a =>
            cases p with
            | nil => rfl
            | cons k' p =>
              cases hdec : (node o').decides (k' :: p) with
              | true => simp [onTop, hdec]
              | false => simp [onTop, hdec, probe_of_not_decides hdec]
          | node b' => simpa [onTop] using ih (hb.get hgb) (ho.get hgo)

theorem probe_mergeNestedMappings {b o : Items κ α} (hb : (node b).Distinct)
    (ho : (node o).Distinct) (p : List κ) :
    (node (mergeNestedMappings b o)).probe p =
      if (node o).decides p then (node o).probe p else (node b).probe p :=
  probe_of_get (fun _ _ _ _ ho => get_mergeNestedMappings ho.nodup) hb ho p

mutual

theorem distinct_mergeNestedMappings {base : Items κ α} (hbase : (node base).Distinct) :
    ∀ {override : List (κ × Tree κ α)}, (node override).Distinct →
      (node (mergeNestedMappings base override)).Distinct
  | [] => fun _ => by
    rw [mergeNestedMappings]
    exact hbase
  | (k, value) :: override => by
    intro hoverride
    have hvalue : value.Distinct := by
      cases hoverride with
      | node _ below => exact below _ List.mem_cons_self
    have hrest : (node override).Distinct := by
      cases hoverride with
      | node nodup below =>
        exact .node (List.nodup_cons.mp nodup).2 fun item hitem =>
          below item (List.mem_cons_of_mem _ hitem)
    rw [mergeNestedMappings]
    exact distinct_mergeNestedMappings
      (hbase.set k (distinct_mergedNested (fun t ht => hbase.get ht) hvalue)) hrest

theorem distinct_mergedNested {existing : Option (Tree κ α)}
    (hexisting : ∀ t, existing = some t → t.Distinct) :
    ∀ {value : Tree κ α}, value.Distinct → (mergedNested existing value).Distinct
  | .leaf a => fun _ => by
    rw [mergedNested]
    exact .leaf a
  | .node override => by
    intro hoverride
    cases existing with
    | none =>
      rw [mergedNested]
      · exact hoverride
      · exact fun base hno => by cases hno
    | some t =>
      cases t with
      | leaf a =>
        rw [mergedNested]
        · exact hoverride
        · exact fun base hno => by cases hno
      | node base =>
        rw [mergedNested]
        exact distinct_mergeNestedMappings (hexisting _ rfl) hoverride

end

end Agree

/-! ## What `_merge_missing` counts -/

section Count

variable {dst src : Items κ α} {existing value : Tree κ α} {k : κ}

theorem mergeMissing_cons (dst : Items κ α) (k : κ) (value : Tree κ α) (src : Items κ α) :
    mergeMissing dst ((k, value) :: src) = match Items.get k dst with
      | none => ((mergeMissing (Items.set k value dst) src).1,
          1 + (mergeMissing (Items.set k value dst) src).2)
      | some existing =>
          ((mergeMissing (Items.set k (mergeMissingBelow existing value).1 dst) src).1,
            (mergeMissingBelow existing value).2 +
              (mergeMissing (Items.set k (mergeMissingBelow existing value).1 dst) src).2) := by
  rw [mergeMissing]

theorem mergeMissingBelow_node (dst src : Items κ α) :
    mergeMissingBelow (.node dst) (.node src) =
      (.node (mergeMissing dst src).1, (mergeMissing dst src).2) := by rw [mergeMissingBelow]

/-- Nothing is done where each item finds its key with all it has to give. -/
theorem mergeMissing_of_there (h : ∀ item ∈ src, ∃ existing, Items.get item.1 dst = some existing ∧
    mergeMissingBelow existing item.2 = (existing, 0)) : mergeMissing dst src = (dst, 0) := by
  induction src with
  | nil => rw [mergeMissing]
  | cons item src ih =>
    obtain ⟨existing, hget, hbelow⟩ := h item List.mem_cons_self
    obtain ⟨k, value⟩ := item
    rw [mergeMissing_cons, hget]
    dsimp only
    rw [hbelow, Items.set_get hget, ih fun item hitem => h item (List.mem_cons_of_mem _ hitem)]
    rfl

/-- Where every key is there, nothing is missing. -/
theorem mergeMissingBelow_of_covered {existing value : Tree κ α} (hvalue : value.Distinct)
    (hcovers : ∀ p, value.probe p ≠ none → existing.probe p ≠ none) :
    mergeMissingBelow existing value = (existing, 0) := by
  induction hvalue generalizing existing with
  | leaf a => rw [mergeMissingBelow]
  | @node src nodup below ih =>
    cases existing with
    | leaf a => rw [mergeMissingBelow]
    | node dst =>
      rw [mergeMissingBelow_node, mergeMissing_of_there]
      intro item hitem
      have hitem' := Items.get_of_mem nodup hitem
      have hkey (p : List κ) (hp : item.2.probe p ≠ none) :
          (Items.get item.1 dst).bind (·.probe p) ≠ none := by
        have hthere := hcovers (item.1 :: p)
        rw [probe_node_cons, probe_node_cons, hitem'] at hthere
        exact hthere hp
      cases hget : Items.get item.1 dst with
      | none =>
        rw [hget] at hkey
        exact absurd rfl (hkey [] (by cases item.2 <;> exact nofun))
      | some existing =>
        rw [hget] at hkey
        exact ⟨existing, rfl, ih item hitem hkey⟩

/-- A tree has nothing to add to itself. -/
theorem mergeMissingBelow_self (hvalue : value.Distinct) :
    mergeMissingBelow value value = (value, 0) :=
  mergeMissingBelow_of_covered hvalue fun _ hp => hp

/-- Filling in twice is filling in once. -/
theorem mergeMissingBelow_again (hvalue : value.Distinct) (existing : Tree κ α) :
    mergeMissingBelow (mergeMissingBelow existing value).1 value =
      ((mergeMissingBelow existing value).1, 0) := by
  induction hvalue generalizing existing with
  | leaf a => rfl
  | @node src nodup below ih =>
    cases existing with
    | leaf a => rfl
    | node dst =>
      rw [mergeMissingBelow_node]
      dsimp only
      rw [mergeMissingBelow_node, mergeMissing_of_there]
      intro item hitem
      rw [mergeMissing_eq, Items.get_foldItems _ nodup, Items.get_of_mem nodup hitem]
      refine ⟨_, rfl, ?_⟩
      cases Items.get item.1 dst with
      | none => exact mergeMissingBelow_self (below item hitem)
      | some existing => exact ih item hitem existing

theorem sizes_set_none (hget : Items.get k dst = none) (value : Tree κ α) :
    size.sizes dst < size.sizes (Items.set k value dst) := by
  induction dst with
  | nil =>
    show 0 < 1 + value.size + 0
    omega
  | cons item dst ih =>
    rw [Items.get_cons] at hget
    unfold Items.set
    by_cases hk : item.1 = k
    · rw [if_pos hk] at hget
      cases hget
    · rw [if_neg hk] at hget ⊢
      exact Nat.add_lt_add_left (ih hget) _

theorem sizes_set_some {t : Tree κ α} (hget : Items.get k dst = some existing) (c : Nat)
    (hsize : existing.size + c ≤ t.size) : size.sizes dst + c ≤ size.sizes (Items.set k t dst) := by
  induction dst with
  | nil => cases hget
  | cons item dst ih =>
    rw [Items.get_cons] at hget
    unfold Items.set
    by_cases hk : item.1 = k
    · rw [if_pos hk] at hget ⊢
      cases hget
      show 1 + item.2.size + size.sizes dst + c ≤ 1 + t.size + size.sizes dst
      omega
    · rw [if_neg hk] at hget ⊢
      show 1 + item.2.size + size.sizes dst + c ≤ 1 + item.2.size + size.sizes (Items.set k t dst)
      have := ih hget
      omega

mutual

/-- The tree grows by at least what is counted. -/
theorem size_mergeMissing (dst : Items κ α) :
    ∀ src : List (κ × Tree κ α),
      size.sizes dst + (mergeMissing dst src).2 ≤ size.sizes (mergeMissing dst src).1
  | [] => by rw [mergeMissing]; exact Nat.le_refl _
  | (k, value) :: src => by
    rw [mergeMissing_cons]
    cases hget : Items.get k dst with
    | none =>
      have hset := sizes_set_none hget value
      have hrest := size_mergeMissing (Items.set k value dst) src
      dsimp only
      omega
    | some existing =>
      have hset := sizes_set_some hget _ (size_mergeMissingBelow existing value)
      have hrest := size_mergeMissing (Items.set k (mergeMissingBelow existing value).1 dst) src
      dsimp only
      omega

theorem size_mergeMissingBelow (existing : Tree κ α) :
    ∀ value : Tree κ α, existing.size + (mergeMissingBelow existing value).2 ≤
      (mergeMissingBelow existing value).1.size
  | .leaf a => by rw [mergeMissingBelow]; exact Nat.le_refl _
  | .node src => by
    cases existing with
    | leaf a => rw [mergeMissingBelow]; exact Nat.le_refl _
    | node dst =>
      rw [mergeMissingBelow_node]
      exact size_mergeMissing dst src

end

mutual

/-- Where nothing is counted, nothing is done. -/
theorem mergeMissing_of_zero (dst : Items κ α) :
    ∀ src : List (κ × Tree κ α), (mergeMissing dst src).2 = 0 → (mergeMissing dst src).1 = dst
  | [] => fun _ => by rw [mergeMissing]
  | (k, value) :: src => by
    rw [mergeMissing_cons]
    cases hget : Items.get k dst with
    | none =>
      intro hzero
      dsimp only at hzero
      omega
    | some existing =>
      intro hzero
      dsimp only at hzero ⊢
      have hbelow := mergeMissingBelow_of_zero existing value (by omega)
      rw [hbelow, Items.set_get hget] at hzero ⊢
      exact mergeMissing_of_zero dst src (by omega)

theorem mergeMissingBelow_of_zero (existing : Tree κ α) :
    ∀ value : Tree κ α, (mergeMissingBelow existing value).2 = 0 →
      (mergeMissingBelow existing value).1 = existing
  | .leaf a => fun _ => by rw [mergeMissingBelow]
  | .node src => by
    cases existing with
    | leaf a => exact fun _ => by rw [mergeMissingBelow]
    | node dst =>
      rw [mergeMissingBelow_node]
      intro hzero
      dsimp only at hzero ⊢
      rw [mergeMissing_of_zero dst src hzero]

end

theorem mergeMissing_zero_iff (dst src : Items κ α) :
    (mergeMissing dst src).2 = 0 ↔ (mergeMissing dst src).1 = dst := by
  constructor
  · exact mergeMissing_of_zero dst src
  · intro hsame
    have hsize := size_mergeMissing dst src
    rw [hsame] at hsize
    omega

/-- What is there stays, a value or a mapping. -/
theorem probe_mergeMissing {dst src : Items κ α} (hdst : (node dst).Distinct)
    (hsrc : (node src).Distinct)
    {p : List κ} {v : Option α} (hv : (node dst).probe p = some v) :
    (node (mergeMissing dst src).1).probe p = some v := by
  induction p generalizing dst src with
  | nil => exact hv
  | cons k p ih =>
    rw [probe_node_cons] at hv ⊢
    rw [get_mergeMissing hsrc.nodup]
    cases hgd : Items.get k dst with
    | none =>
      rw [hgd] at hv
      cases hv
    | some t =>
      rw [hgd] at hv
      cases hgs : Items.get k src with
      | none => cases t <;> exact hv
      | some s =>
        cases t with
        | leaf b => cases s <;> exact hv
        | node d =>
          cases s with
          | leaf b => exact hv
          | node s => exact ih (hdst.get hgd) (hsrc.get hgs) hv

mutual

theorem distinct_mergeMissing {dst : Items κ α} (hdst : (node dst).Distinct) :
    ∀ src : List (κ × Tree κ α), (node src).Distinct → (node (mergeMissing dst src).1).Distinct
  | [] => fun _ => by
    rw [mergeMissing]
    exact hdst
  | (k, value) :: src => by
    intro hsrc
    have hvalue : value.Distinct := by
      cases hsrc with
      | node _ below => exact below _ List.mem_cons_self
    have hrest : (node src).Distinct := by
      cases hsrc with
      | node nodup below =>
        exact .node (List.nodup_cons.mp nodup).2 fun item hitem =>
          below item (List.mem_cons_of_mem _ hitem)
    rw [mergeMissing_cons]
    cases hget : Items.get k dst with
    | none => exact distinct_mergeMissing (hdst.set k hvalue) src hrest
    | some existing =>
      have hbelow := distinct_mergeMissingBelow (hdst.get hget) value hvalue
      exact distinct_mergeMissing (hdst.set k hbelow) src hrest

theorem distinct_mergeMissingBelow {existing : Tree κ α} (hexisting : existing.Distinct) :
    ∀ value : Tree κ α, value.Distinct → (mergeMissingBelow existing value).1.Distinct
  | .leaf a => fun _ => by
    rw [mergeMissingBelow]
    exact hexisting
  | .node src => by
    intro hsrc
    cases existing with
    | leaf a =>
      rw [mergeMissingBelow]
      exact hexisting
    | node dst =>
      rw [mergeMissingBelow_node]
      exact distinct_mergeMissing hexisting src hsrc

end

end Count

/-- **The three mergers agree**, and filling in alters no value, does nothing the second time,
    and counts nothing exactly when it does nothing. -/
theorem mergers_agree (b o : Mapping κ α) :
    Same (node (mergeNestedMappings b.items o.items)) (node (mergeMappingsInplace b.items o.items)) ∧
      Same (node (mergeNestedMappings b.items o.items)) (node (mergeMissing o.items b.items).1) ∧
      (∀ p a, (node o.items).probe p = some (some a) →
        (node (mergeMissing o.items b.items).1).probe p = some (some a)) ∧
      mergeMissing (mergeMissing o.items b.items).1 b.items = ((mergeMissing o.items b.items).1, 0) ∧
      ((mergeMissing o.items b.items).2 = 0 ↔ (mergeMissing o.items b.items).1 = o.items) := by
  refine ⟨?_, ?_, fun p a ha => probe_mergeMissing o.distinct b.distinct ha, ?_,
    mergeMissing_zero_iff o.items b.items⟩
  · exact same_of_get (fun _ _ _ _ ho => get_mergeNestedMappings ho.nodup)
      (fun _ _ _ _ ho => get_mergeMappingsInplace ho.nodup) b.distinct o.distinct
  · exact same_of_get (g := fun b o => (mergeMissing o b).1)
      (fun _ _ _ _ ho => get_mergeNestedMappings ho.nodup)
      (fun _ _ _ hb _ => get_mergeMissing hb.nodup) b.distinct o.distinct
  · have hagain := mergeMissingBelow_again b.distinct (.node o.items)
    rw [mergeMissingBelow_node, mergeMissingBelow_node, Prod.mk.injEq, Tree.node.injEq] at hagain
    exact Prod.ext hagain.1 hagain.2

/-- A mapping that meets a value: what is on top wins. -/
example : mergeNestedMappings [("a", .node [("b", .leaf 1)]), ("c", .leaf 2)]
    [("a", .leaf 3)] = [("a", .leaf 3), ("c", (.leaf 2 : Tree String Nat))] := by rfl

end Infinito.Workspace
