import Infinito.Lib.FinMap

/-!
# A map in two tables

A finite map that is kept in two tables: the one gives each key a number that is drawn for it, the
other has the value for each number. So a key is changed where it stands, and its value goes along.

That no number and no key is there twice and that the two tables have the same numbers is part of
the type. `Linked.toMap` is the map; each operation on the tables is one on the map.
-/

set_option autoImplicit false

namespace Infinito.Lib

structure Linked (ι κ ν : Type) where
  keys : List (ι × κ)
  values : List (ι × ν)
  ids : (keys.map Prod.fst).Nodup
  names : (keys.map Prod.snd).Nodup
  refs : (values.map Prod.fst).Nodup
  linked : ∀ i, i ∈ values.map Prod.fst ↔ i ∈ keys.map Prod.fst

namespace Linked

variable {ι κ ν : Type}

def empty : Linked ι κ ν where
  keys := []
  values := []
  ids := .nil
  names := .nil
  refs := .nil
  linked _ := Iff.rfl

/-! ## Rows -/

/-- A row is known by its first field. -/
theorem eq_of_fst {α β : Type} {rows : List (α × β)} (h : (rows.map Prod.fst).Nodup) {a : α}
    {b c : β} (hb : (a, b) ∈ rows) (hc : (a, c) ∈ rows) : b = c :=
  congrArg Prod.snd (List.inj_on_of_nodup_map h hb hc rfl)

theorem eq_of_snd {α β : Type} {rows : List (α × β)} (h : (rows.map Prod.snd).Nodup) {a b : α}
    {c : β} (ha : (a, c) ∈ rows) (hb : (b, c) ∈ rows) : a = b :=
  congrArg Prod.fst (List.inj_on_of_nodup_map h ha hb rfl)

theorem nodup_concat {α β : Type} {f : α → β} {rows : List α} {r : α} (h : (rows.map f).Nodup)
    (hr : f r ∉ rows.map f) : ((rows ++ [r]).map f).Nodup := by
  rw [List.map_append, List.map_singleton]
  refine h.append (List.nodup_singleton _) fun x hx hx' => hr ?_
  rwa [← List.mem_singleton.mp hx']

/-- The rows that have the number get another value. -/
def replaced [DecidableEq ι] (i : ι) (v : ν) (rows : List (ι × ν)) : List (ι × ν) :=
  rows.map fun r => if r.1 = i then (i, v) else r

theorem fst_replaced [DecidableEq ι] (i : ι) (v : ν) (rows : List (ι × ν)) :
    (replaced i v rows).map Prod.fst = rows.map Prod.fst := by
  unfold replaced
  rw [List.map_map]
  refine List.map_congr_left fun r _ => ?_
  show (if r.1 = i then (i, v) else r).1 = r.1
  split
  · rename_i h
    exact h.symm
  · rfl

theorem mem_replaced_of_ne [DecidableEq ι] {i a : ι} {v w : ν} {rows : List (ι × ν)} (h : a ≠ i) :
    (a, w) ∈ replaced i v rows ↔ (a, w) ∈ rows := by
  unfold replaced
  rw [List.mem_map]
  constructor
  · rintro ⟨r, hr, heq⟩
    split at heq
    · cases heq
      exact absurd rfl h
    · rwa [← heq]
  · intro hr
    exact ⟨(a, w), hr, if_neg h⟩

theorem mem_replaced_self [DecidableEq ι] {i : ι} {v : ν} {rows : List (ι × ν)}
    (h : i ∈ rows.map Prod.fst) : (i, v) ∈ replaced i v rows := by
  obtain ⟨r, hr, rfl⟩ := List.mem_map.mp h
  exact List.mem_map.mpr ⟨r, hr, if_pos rfl⟩

/-- The rows that have the key get another. -/
def rekeyed [DecidableEq κ] (k k' : κ) (rows : List (ι × κ)) : List (ι × κ) :=
  rows.map fun r => if r.2 = k then (r.1, k') else r

theorem fst_rekeyed [DecidableEq κ] (k k' : κ) (rows : List (ι × κ)) :
    (rekeyed k k' rows).map Prod.fst = rows.map Prod.fst := by
  unfold rekeyed
  rw [List.map_map]
  refine List.map_congr_left fun r _ => ?_
  show (if r.2 = k then (r.1, k') else r).1 = r.1
  split
  · rfl
  · rfl

theorem mem_rekeyed [DecidableEq κ] {i : ι} {j k k' : κ} {rows : List (ι × κ)} :
    (i, j) ∈ rekeyed k k' rows ↔ j = k' ∧ (i, k) ∈ rows ∨ j ≠ k ∧ (i, j) ∈ rows := by
  unfold rekeyed
  rw [List.mem_map]
  constructor
  · rintro ⟨⟨i', x⟩, hr, heq⟩
    split at heq
    · rename_i hx
      cases heq
      cases hx
      exact Or.inl ⟨rfl, hr⟩
    · rename_i hx
      cases heq
      exact Or.inr ⟨hx, hr⟩
  · rintro (⟨rfl, hr⟩ | ⟨hj, hr⟩)
    · exact ⟨(i, k), hr, if_pos rfl⟩
    · exact ⟨(i, j), hr, if_neg hj⟩

theorem names_rekeyed [DecidableEq κ] {k k' : κ} {rows : List (ι × κ)}
    (h : (rows.map Prod.snd).Nodup) (hk' : k' ∉ rows.map Prod.snd) :
    ((rekeyed k k' rows).map Prod.snd).Nodup := by
  have hsnd : (rekeyed k k' rows).map Prod.snd =
      (rows.map Prod.snd).map fun x => if x = k then k' else x := by
    unfold rekeyed
    rw [List.map_map, List.map_map]
    refine List.map_congr_left fun r _ => ?_
    show (if r.2 = k then (r.1, k') else r).2 = if r.2 = k then k' else r.2
    split
    · rfl
    · rfl
  rw [hsnd]
  refine h.map_on fun x hx y hy heq => ?_
  split_ifs at heq with hxk hyk hyk
  · rw [hxk, hyk]
  · exact absurd (heq ▸ hy) hk'
  · exact absurd (heq ▸ hx) hk'
  · exact heq

/-! ## Looking up -/

def idOf [DecidableEq κ] (t : Linked ι κ ν) (k : κ) : Option ι :=
  (t.keys.find? fun r => r.2 = k).map Prod.fst

def valueAt [DecidableEq ι] (t : Linked ι κ ν) (i : ι) : Option ν :=
  (t.values.find? fun r => r.1 = i).map Prod.snd

/-- What the left join of the two tables has for a key. -/
def get [DecidableEq ι] [DecidableEq κ] (t : Linked ι κ ν) (k : κ) : Option ν :=
  (t.idOf k).bind t.valueAt

theorem idOf_eq_some [DecidableEq κ] {t : Linked ι κ ν} {i : ι} {k : κ} :
    t.idOf k = some i ↔ (i, k) ∈ t.keys := by
  unfold idOf
  rw [Option.map_eq_some_iff]
  constructor
  · rintro ⟨⟨i', k'⟩, hfind, rfl⟩
    obtain rfl : k' = k := by simpa using List.find?_some hfind
    exact List.mem_of_find?_eq_some hfind
  · intro hmem
    have hsome : (t.keys.find? fun r => r.2 = k).isSome :=
      List.find?_isSome.mpr ⟨(i, k), hmem, decide_eq_true rfl⟩
    obtain ⟨⟨i', k'⟩, hfind⟩ := Option.isSome_iff_exists.mp hsome
    obtain rfl : k' = k := by simpa using List.find?_some hfind
    exact ⟨_, hfind, eq_of_snd t.names (List.mem_of_find?_eq_some hfind) hmem⟩

theorem idOf_eq_none [DecidableEq κ] {t : Linked ι κ ν} {k : κ} :
    t.idOf k = none ↔ k ∉ t.keys.map Prod.snd := by
  rw [Option.eq_none_iff_forall_ne_some, List.mem_map]
  constructor
  · rintro h ⟨⟨i, k'⟩, hmem, rfl⟩
    exact h i (idOf_eq_some.mpr hmem)
  · intro h i hi
    exact h ⟨(i, k), idOf_eq_some.mp hi, rfl⟩

theorem valueAt_eq_some [DecidableEq ι] {t : Linked ι κ ν} {i : ι} {v : ν} :
    t.valueAt i = some v ↔ (i, v) ∈ t.values := by
  unfold valueAt
  rw [Option.map_eq_some_iff]
  constructor
  · rintro ⟨⟨i', v'⟩, hfind, rfl⟩
    obtain rfl : i' = i := by simpa using List.find?_some hfind
    exact List.mem_of_find?_eq_some hfind
  · intro hmem
    have hsome : (t.values.find? fun r => r.1 = i).isSome :=
      List.find?_isSome.mpr ⟨(i, v), hmem, decide_eq_true rfl⟩
    obtain ⟨⟨i', v'⟩, hfind⟩ := Option.isSome_iff_exists.mp hsome
    obtain rfl : i' = i := by simpa using List.find?_some hfind
    exact ⟨_, hfind, eq_of_fst t.refs (List.mem_of_find?_eq_some hfind) hmem⟩

section Change

variable [DecidableEq ι] [DecidableEq κ] {t : Linked ι κ ν} {i : ι} {j k k' : κ} {v : ν}

theorem get_eq_some : t.get k = some v ↔ ∃ i, (i, k) ∈ t.keys ∧ (i, v) ∈ t.values := by
  unfold get
  rw [Option.bind_eq_some_iff]
  exact exists_congr fun i => and_congr idOf_eq_some valueAt_eq_some

/-- Every key has a value. -/
theorem isSome_get : (t.get k).isSome ↔ k ∈ t.keys.map Prod.snd := by
  rw [Option.isSome_iff_exists]
  constructor
  · rintro ⟨v, hv⟩
    obtain ⟨i, hi, -⟩ := get_eq_some.mp hv
    exact List.mem_map_of_mem hi
  · intro hk
    obtain ⟨⟨i, k'⟩, hmem, rfl⟩ := List.mem_map.mp hk
    obtain ⟨⟨i', v⟩, hv, rfl⟩ := List.mem_map.mp ((t.linked i).mpr (List.mem_map_of_mem hmem))
    exact ⟨v, get_eq_some.mpr ⟨i', hmem, hv⟩⟩

theorem get_eq_none : t.get k = none ↔ t.idOf k = none := by
  rw [idOf_eq_none, ← isSome_get, Option.not_isSome_iff_eq_none]

/-- The map that the tables hold. -/
def toMap (t : Linked ι κ ν) : FinMap κ ν :=
  FinMap.ofFn (t.keys.map Prod.snd).toFinset t.get fun _ h => List.mem_toFinset.mpr (isSome_get.mp h)

@[simp] theorem get_toMap : t.toMap.get k = t.get k := rfl

@[simp] theorem toMap_empty : (empty : Linked ι κ ν).toMap = FinMap.empty := FinMap.ext fun _ => rfl

/-! ## Changing the tables -/

/-- A key of its own for a new number. -/
def insert (t : Linked ι κ ν) (i : ι) (k : κ) (v : ν) (hi : i ∉ t.keys.map Prod.fst)
    (hk : t.idOf k = none) : Linked ι κ ν where
  keys := t.keys ++ [(i, k)]
  values := t.values ++ [(i, v)]
  ids := nodup_concat t.ids hi
  names := nodup_concat t.names (idOf_eq_none.mp hk)
  refs := nodup_concat t.refs (mt (t.linked i).mp hi)
  linked j := by
    rw [List.map_append, List.map_append, List.mem_append, List.mem_append, t.linked]
    rfl

/-- Another value for a number. -/
def replace (t : Linked ι κ ν) (i : ι) (v : ν) : Linked ι κ ν where
  keys := t.keys
  values := replaced i v t.values
  ids := t.ids
  names := t.names
  refs := by
    rw [fst_replaced]
    exact t.refs
  linked j := by
    rw [fst_replaced]
    exact t.linked j

/-- A key that no row has in the place of another. -/
def rekey (t : Linked ι κ ν) (k k' : κ) (h : t.idOf k' = none) : Linked ι κ ν where
  keys := rekeyed k k' t.keys
  values := t.values
  ids := by
    rw [fst_rekeyed]
    exact t.ids
  names := names_rekeyed t.names (idOf_eq_none.mp h)
  refs := t.refs
  linked j := by
    rw [fst_rekeyed]
    exact t.linked j

/-- A key is deleted, and what refers to its number. -/
def erase (t : Linked ι κ ν) (k : κ) : Linked ι κ ν where
  keys := t.keys.filter fun r => r.2 ≠ k
  values := t.values.filter fun r => t.idOf k ≠ some r.1
  ids := (List.filter_sublist.map _).nodup t.ids
  names := (List.filter_sublist.map _).nodup t.names
  refs := (List.filter_sublist.map _).nodup t.refs
  linked j := by
    rw [List.mem_map, List.mem_map]
    constructor
    · rintro ⟨⟨i, v⟩, hr, rfl⟩
      obtain ⟨hr, hne⟩ := List.mem_filter.mp hr
      obtain ⟨⟨i', k'⟩, hk, rfl⟩ := List.mem_map.mp ((t.linked i).mp (List.mem_map_of_mem hr))
      refine ⟨(i', k'), List.mem_filter.mpr ⟨hk, decide_eq_true fun heq => ?_⟩, rfl⟩
      have heq : k' = k := heq
      exact of_decide_eq_true hne (idOf_eq_some.mpr (heq ▸ hk))
    · rintro ⟨⟨i, k'⟩, hr, rfl⟩
      obtain ⟨hr, hne⟩ := List.mem_filter.mp hr
      obtain ⟨⟨i', v⟩, hv, rfl⟩ := List.mem_map.mp ((t.linked i).mpr (List.mem_map_of_mem hr))
      refine ⟨(i', v), List.mem_filter.mpr ⟨hv, decide_eq_true fun heq => ?_⟩, rfl⟩
      exact of_decide_eq_true hne (eq_of_fst t.ids hr (idOf_eq_some.mp heq))

/-! ## What is changed -/

omit [DecidableEq ι] in
theorem fst_insert {hi : i ∉ t.keys.map Prod.fst} {hk : t.idOf k = none} :
    (t.insert i k v hi hk).keys.map Prod.fst = t.keys.map Prod.fst ++ [i] := List.map_append

omit [DecidableEq ι] in
theorem snd_insert {hi : i ∉ t.keys.map Prod.fst} {hk : t.idOf k = none} :
    (t.insert i k v hi hk).keys.map Prod.snd = t.keys.map Prod.snd ++ [k] := List.map_append

theorem get_insert {hi : i ∉ t.keys.map Prod.fst} {hk : t.idOf k = none} :
    (t.insert i k v hi hk).get j = if j = k then some v else t.get j := by
  split
  · rename_i hj
    rw [hj]
    exact get_eq_some.mpr ⟨i, List.mem_append_right _ List.mem_cons_self,
      List.mem_append_right _ List.mem_cons_self⟩
  · rename_i hj
    refine Option.ext fun w => ?_
    rw [get_eq_some, get_eq_some]
    refine exists_congr fun a => ⟨fun h => ?_, fun h =>
      ⟨List.mem_append_left _ h.1, List.mem_append_left _ h.2⟩⟩
    have hkey : (a, j) ∈ t.keys := (List.mem_append.mp h.1).resolve_right fun h =>
      hj (congrArg Prod.snd (List.mem_singleton.mp h))
    refine ⟨hkey, (List.mem_append.mp h.2).resolve_right fun h => hi ?_⟩
    have ha : a = i := congrArg Prod.fst (List.mem_singleton.mp h)
    exact ha ▸ List.mem_map_of_mem hkey

theorem get_replace (h : t.idOf k = some i) :
    (t.replace i v).get j = if j = k then some v else t.get j := by
  have hik := idOf_eq_some.mp h
  split
  · rename_i hj
    rw [hj]
    exact get_eq_some.mpr ⟨i, hik,
      mem_replaced_self ((t.linked i).mpr (List.mem_map_of_mem hik))⟩
  · rename_i hj
    refine Option.ext fun w => ?_
    rw [get_eq_some, get_eq_some]
    refine exists_congr fun a => and_congr_right fun hkey => mem_replaced_of_ne ?_
    rintro rfl
    exact hj (eq_of_fst t.ids hkey hik)

theorem get_rekey {h : t.idOf k' = none} :
    (t.rekey k k' h).get j = if j = k' then t.get k else if j = k then none else t.get j := by
  have hnew : ∀ a, (a, k') ∉ t.keys := fun a ha =>
    idOf_eq_none.mp h (List.mem_map_of_mem ha)
  refine Option.ext fun w => ?_
  rw [get_eq_some]
  have hmem (a : ι) : (a, j) ∈ (t.rekey k k' h).keys ↔
      j = k' ∧ (a, k) ∈ t.keys ∨ j ≠ k ∧ (a, j) ∈ t.keys := mem_rekeyed
  split_ifs with hj hjk
  · rw [get_eq_some]
    refine exists_congr fun a => and_congr_left fun _ => (hmem a).trans ?_
    rw [hj]
    exact ⟨fun h => (h.resolve_right fun h' => hnew a h'.2).2, fun h => Or.inl ⟨rfl, h⟩⟩
  · refine iff_of_false ?_ (fun hnone => by cases hnone)
    rintro ⟨a, hkey, -⟩
    rcases (hmem a).mp hkey with ⟨hj', -⟩ | ⟨hjk', -⟩
    · exact hj hj'
    · exact hjk' hjk
  · rw [get_eq_some]
    refine exists_congr fun a => and_congr_left fun _ => (hmem a).trans ?_
    exact ⟨fun h => (h.resolve_left fun h' => hj h'.1).2, fun h => Or.inr ⟨hjk, h⟩⟩

theorem get_erase : (t.erase k).get j = if j = k then none else t.get j := by
  refine Option.ext fun w => ?_
  rw [get_eq_some]
  split
  · rename_i hj
    refine iff_of_false ?_ (fun hnone => by cases hnone)
    rintro ⟨a, hkey, -⟩
    exact of_decide_eq_true (List.mem_filter.mp hkey).2 hj
  · rename_i hj
    rw [get_eq_some]
    refine exists_congr fun a => ⟨fun h => ⟨(List.mem_filter.mp h.1).1,
      (List.mem_filter.mp h.2).1⟩, fun h => ?_⟩
    refine ⟨List.mem_filter.mpr ⟨h.1, decide_eq_true hj⟩,
      List.mem_filter.mpr ⟨h.2, decide_eq_true fun ha => hj ?_⟩⟩
    exact eq_of_fst t.ids h.1 (idOf_eq_some.mp ha)

end Change

end Linked

end Infinito.Lib
