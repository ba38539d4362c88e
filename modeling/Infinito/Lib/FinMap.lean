import Mathlib.Data.Finset.Union
import Mathlib.Data.Finset.Option
import Mathlib.Data.List.Sort

/-!
# Finite maps by lookup

A finite map is its lookup function together with the finite set of keys it is defined on.
The lookup says everything — two maps that look up alike are equal (`FinMap.ext`) — so an
operation is described by the lookup it gives, and the key set is only there to be listed.

`ofFn` builds a map from a lookup and any finite set that covers it; every other operation
is an instance, and its lookup lemma holds by unfolding.
-/

set_option autoImplicit false

namespace Infinito.Lib

structure FinMap (κ ν : Type) where
  get : κ → Option ν
  keys : Finset κ
  mem_keys : ∀ k, k ∈ keys ↔ (get k).isSome

namespace FinMap

variable {κ ν μ : Type}

@[ext] theorem ext {m n : FinMap κ ν} (h : ∀ k, m.get k = n.get k) : m = n := by
  have hget : m.get = n.get := funext h
  have hkeys : m.keys = n.keys := by
    ext k
    rw [m.mem_keys, n.mem_keys, hget]
  cases m
  cases n
  cases hget
  cases hkeys
  rfl

/-- The map that looks up as `f` does, given keys that cover `f`. -/
def ofFn (cover : Finset κ) (f : κ → Option ν) (h : ∀ k, (f k).isSome → k ∈ cover) :
    FinMap κ ν where
  get := f
  keys := cover.filter fun k => (f k).isSome
  mem_keys k := by
    rw [Finset.mem_filter]
    exact ⟨And.right, fun hk => ⟨h k hk, hk⟩⟩

@[simp] theorem get_ofFn (cover : Finset κ) (f : κ → Option ν) (h) (k : κ) :
    (ofFn cover f h).get k = f k := rfl

theorem mem_keys_of_get {m : FinMap κ ν} {k : κ} {v : ν} (h : m.get k = some v) : k ∈ m.keys :=
  (m.mem_keys k).mpr (by rw [h]; rfl)

theorem exists_of_mem_keys {m : FinMap κ ν} {k : κ} (h : k ∈ m.keys) : ∃ v, m.get k = some v :=
  Option.isSome_iff_exists.mp ((m.mem_keys k).mp h)

def empty : FinMap κ ν := ofFn ∅ (fun _ => none) (fun _ h => absurd h (by simp))

@[simp] theorem get_empty (k : κ) : (empty : FinMap κ ν).get k = none := rfl

/-- The entries `f` keeps, as `f` changes them. -/
def filterMap (f : κ → ν → Option μ) (m : FinMap κ ν) : FinMap κ μ :=
  ofFn m.keys (fun k => (m.get k).bind (f k)) fun k h => by
    cases hk : m.get k with
    | none => rw [hk] at h; cases h
    | some v => exact mem_keys_of_get hk

@[simp] theorem get_filterMap (f : κ → ν → Option μ) (m : FinMap κ ν) (k : κ) :
    (m.filterMap f).get k = (m.get k).bind (f k) := rfl

def restrict (p : κ → Bool) (m : FinMap κ ν) : FinMap κ ν :=
  m.filterMap fun k v => if p k then some v else none

@[simp] theorem get_restrict (p : κ → Bool) (m : FinMap κ ν) (k : κ) :
    (m.restrict p).get k = if p k then m.get k else none := by
  show (m.get k).bind _ = _
  cases m.get k <;> simp

/-- What `into` finds of `m`, for a re-keying that `back` undoes. -/
def comap [DecidableEq κ] {ι : Type} [DecidableEq ι] (into : ι → κ) (back : κ → Option ι)
    (h : ∀ i, back (into i) = some i) (m : FinMap κ ν) : FinMap ι ν :=
  ofFn (m.keys.biUnion fun k => (back k).toFinset) (fun i => m.get (into i)) fun i hi => by
    rw [Finset.mem_biUnion]
    exact ⟨into i, (m.mem_keys _).mpr hi, Option.mem_toFinset.mpr (h i)⟩

@[simp] theorem get_comap [DecidableEq κ] {ι : Type} [DecidableEq ι] (into : ι → κ)
    (back : κ → Option ι) (h) (m : FinMap κ ν) (i : ι) :
    (m.comap into back h).get i = m.get (into i) := rfl

section Update

variable [DecidableEq κ]

def set (k : κ) (v : ν) (m : FinMap κ ν) : FinMap κ ν :=
  ofFn (insert k m.keys) (fun j => if j = k then some v else m.get j) fun j hj => by
    rw [Finset.mem_insert]
    by_cases h : j = k
    · exact Or.inl h
    · rw [if_neg h] at hj
      exact Or.inr ((m.mem_keys j).mpr hj)

@[simp] theorem get_set (k j : κ) (v : ν) (m : FinMap κ ν) :
    (m.set k v).get j = if j = k then some v else m.get j := rfl

/-- `top` laid over `m`. -/
def overlay (top m : FinMap κ ν) : FinMap κ ν :=
  ofFn (top.keys ∪ m.keys) (fun k => (top.get k).or (m.get k)) fun k h => by
    rw [Finset.mem_union, top.mem_keys, m.mem_keys]
    cases hk : top.get k with
    | none => rw [hk] at h; exact Or.inr h
    | some v => exact Or.inl rfl

@[simp] theorem get_overlay (top m : FinMap κ ν) (k : κ) :
    (top.overlay m).get k = (top.get k).or (m.get k) := rfl

/-- The map of a list of entries; of two for one key the first counts. -/
def ofList : List (κ × ν) → FinMap κ ν
  | [] => empty
  | (k, v) :: es => (ofList es).set k v

@[simp] theorem get_ofList_nil (k : κ) : (ofList ([] : List (κ × ν))).get k = none := rfl

@[simp] theorem get_ofList_cons (e : κ × ν) (es : List (κ × ν)) (k : κ) :
    (ofList (e :: es)).get k = if k = e.1 then some e.2 else (ofList es).get k := rfl

end Update

end FinMap

/-! ## Listing a finite set in order -/

section Sorted

variable {κ β : Type} [LinearOrder β]

/-- The elements of a finite set in the order of their images under an injection. -/
def sortedBy (f : κ → β) (hf : Function.Injective f) (s : Finset κ) : List κ :=
  Quot.liftOn s.val (List.insertionSort fun a b => f a ≤ f b) fun a b hab => by
    have : Std.Total fun a b : κ => f a ≤ f b := ⟨fun a b => le_total (f a) (f b)⟩
    have : IsTrans κ fun a b => f a ≤ f b := ⟨fun a b c => le_trans⟩
    have : Std.Antisymm fun a b : κ => f a ≤ f b := ⟨fun a b h h' => hf (le_antisymm h h')⟩
    refine List.Perm.eq_of_pairwise' (List.pairwise_insertionSort _ a)
      (List.pairwise_insertionSort _ b) ?_
    exact ((List.perm_insertionSort _ a).trans hab).trans (List.perm_insertionSort _ b).symm

@[simp] theorem mem_sortedBy {f : κ → β} {hf : Function.Injective f} {s : Finset κ} {k : κ} :
    k ∈ sortedBy f hf s ↔ k ∈ s := by
  obtain ⟨⟨l⟩, hl⟩ := s
  exact List.mem_insertionSort _

theorem nodup_sortedBy {f : κ → β} {hf : Function.Injective f} {s : Finset κ} :
    (sortedBy f hf s).Nodup := by
  obtain ⟨⟨l⟩, hl⟩ := s
  have hl : l.Nodup := hl
  exact (List.perm_insertionSort _ l).nodup_iff.mpr hl

theorem sortedBy_toFinset [DecidableEq κ] {f : κ → β} {hf : Function.Injective f} {l : List κ}
    (h : l.Nodup) : sortedBy f hf l.toFinset = l.insertionSort fun a b => f a ≤ f b := by
  rw [← List.toFinset_eq h]
  rfl

end Sorted

end Infinito.Lib
