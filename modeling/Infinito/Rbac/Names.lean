import Infinito.Lib.FinMap
import Infinito.Lib.Free
import Infinito.Py.Value
import Infinito.Rbac.Invariant
import Mathlib.Data.List.Lex
import Mathlib.Data.Char

/-!
# The names in a user's list of workspaces

`list_for_user` shows a user the workspaces they own or are a claimed member of, each under its
name. `create` and `rename_workspace_alias` look at that list before they settle a name, and
write the record afterwards; the functions here end where the write begins.

A list names every workspace once exactly if no two workspaces that one user sees have one name
(`namesUnique_iff`). A name that `create` settles is free in its owner's list (`create_clear`).

The list is sorted by the time of the last change in the end, which moves names and changes
none; the order is left out here.
-/

set_option autoImplicit false

namespace Infinito.Rbac

open Py Lib

variable (cs : Casing)

abbrev Records := FinMap Text WorkspaceMeta

/-! ## `list_for_user` -/

inductive Role where
  | owner
  | member
  deriving DecidableEq

structure Entry where
  workspaceId : Text
  name : Text
  createdAt : Text
  state : Text
  role : Role

/-- What the caller is to a workspace, if it is in their list. -/
def roleOf (raw : WorkspaceMeta) (actorId : Text) : Option Role :=
  let doc := metaWithMembers cs raw
  if stripOrNone doc.ownerId = some actorId then some .owner
  else if ∃ entry ∈ doc.members, entry.userId = some actorId then some .member
  else none

/-- `str(meta.get("name") or workspace_id)` -/
def shownName (workspaceId : Text) (raw : WorkspaceMeta) : Text := (truthy raw.name).getD workspaceId

def entryFor (records : Records) (actorId workspaceId : Text) : Option Entry := do
  let raw ← records.get workspaceId
  let role ← roleOf cs raw actorId
  pure {
    workspaceId := workspaceId
    name := shownName workspaceId raw
    createdAt := raw.createdAt.getD []
    state := sanitizeWorkspaceState cs (raw.state.getD [])
    role := role }

/-- `list_for_user` -/
def listForUser (records : Records) (userId : Text) : List Entry :=
  let actorId := strip userId
  if actorId = [] then []
  else (sortedBy id Function.injective_id records.keys).filterMap (entryFor cs records actorId)

/-! ## Deciding on a name -/

/-- `_user_workspace_aliases` -/
def userWorkspaceAliases (records : Records) (ownerId : Option Text) : List Text :=
  match stripOrNone ownerId with
  | none => []
  | some owner => ((listForUser cs records owner).map (strip ·.name)).filter (· ≠ [])

def defaultAlias (n : Nat) : Text := "workspace-".toList ++ natText n

/-- The loop of `_next_default_alias`. Among more numbers than there are names one is free. -/
def nextFree (used : List Text) : (fuel n : Nat) → Text
  | 0, n => defaultAlias n
  | fuel + 1, n => if defaultAlias n ∈ used then nextFree used fuel (n + 1) else defaultAlias n

/-- `_next_default_alias` -/
def nextDefaultAlias (records : Records) (ownerId : Option Text) : Text :=
  let used := userWorkspaceAliases cs records ownerId
  if "main".toList ∉ used then "main" else nextFree used used.length 2

/-- The names `_ensure_alias_unique` looks at. -/
def otherNames (records : Records) (ownerId excludeWorkspaceId : Option Text) : List Text :=
  match stripOrNone ownerId with
  | none => []
  | some owner =>
    ((listForUser cs records owner).filter (some ·.workspaceId ≠ excludeWorkspaceId)).map (·.name)

/-- `create`, up to its write. -/
def create (records : Records) (now : Stamp) (workspaceId : Text)
    (ownerId ownerEmail name : Option Text) : Except HttpError WorkspaceMeta :=
  match stripOrNone name with
  | some cleanedName => do
    ensureAliasUnique ownerId cleanedName (otherNames cs records ownerId none)
    pure (createMeta workspaceId cleanedName now ownerId ownerEmail)
  | none => .ok (createMeta workspaceId (nextDefaultAlias cs records ownerId) now ownerId ownerEmail)

/-- `_sanitize_workspace_id`; an id of another shape is no directory's name. -/
def workspaceKey (workspaceId : Text) : Text := cs.lower (strip workspaceId)

/-- `rename_workspace_alias`, up to its write: the directory, and the record for it. -/
def rename (records : Records) (now : Stamp) (workspaceId newAlias : Text) (ownerId : Option Text) :
    Except HttpError (Text × WorkspaceMeta) :=
  match records.get (workspaceKey cs workspaceId) with
  | none => .error workspaceNotFound
  | some raw => do
    let written ← renameWorkspaceAlias now raw workspaceId newAlias ownerId
      (otherNames cs records ownerId (some workspaceId))
    pure (workspaceKey cs workspaceId, written)

/-! ## Who sees a workspace -/

variable {cs}

def Sees (cs : Casing) (w : WorkspaceMeta) (u : Text) : Prop := (roleOf cs w u).isSome = true

theorem sees_iff_of_normal {w : WorkspaceMeta} {u : Text} : Sees cs w u ↔
    stripOrNone w.ownerId = some u ∨ ∃ e ∈ normalizeMembers cs w.members, e.userId = some u := by
  unfold Sees roleOf metaWithMembers
  dsimp only
  split
  · rename_i howner
    exact iff_of_true rfl (Or.inl howner)
  · rename_i howner
    split
    · rename_i hmember
      exact iff_of_true rfl (Or.inr hmember)
    · rename_i hmember
      refine iff_of_false Bool.false_ne_true ?_
      rintro (h | h)
      · exact howner h
      · exact hmember h

/-- Of a record the service keeps, those who see the workspace are the ids on it. -/
theorem sees_iff {w : WorkspaceMeta} (hw : Inv cs w) {u : Text} : Sees cs w u ↔ u ∈ ids w := by
  rw [sees_iff_of_normal, hw.stripped, normalizeMembers_of_normal hw.normal, mem_ids]

/-- Ids are stripped and not blank. -/
theorem Sees.stripped {w : WorkspaceMeta} {u : Text} (h : Sees cs w u) : strip u = u ∧ u ≠ [] := by
  have hid : ∃ x, stripOrNone x = some u := by
    rcases sees_iff_of_normal.mp h with howner | ⟨e, he, hu⟩
    · exact ⟨_, howner⟩
    · refine ⟨e.userId, ?_⟩
      rw [(Member.normal_iff.mp (mem_normalizeMembers he)).1, hu]
  obtain ⟨x, hx⟩ := hid
  obtain ⟨hstrip, hne⟩ := stripOrNone_eq_some.mp hx
  exact ⟨by rw [← hstrip]; exact strip_strip _, hne⟩

/-! ## Names that are apart -/

/-- No list holds two workspaces of one name. -/
def NamesUnique (cs : Casing) (records : Records) : Prop :=
  ∀ userId, ((listForUser cs records userId).map (·.name)).Nodup

/-- Another workspace that the user sees has the name. -/
def Clashes (cs : Casing) (records : Records) (key name u : Text) : Prop :=
  ∃ k w, records.get k = some w ∧ k ≠ key ∧ Sees cs w u ∧ shownName k w = name

/-- The same as `NamesUnique`, workspace by workspace. -/
def Apart (cs : Casing) (records : Records) : Prop :=
  ∀ key w u, records.get key = some w → Sees cs w u → ¬ Clashes cs records key (shownName key w) u

theorem entryFor_eq_some {records : Records} {u key : Text} {e : Entry} :
    (entryFor cs records u key = some e → ∃ w, records.get key = some w ∧ Sees cs w u ∧
      e.name = shownName key w) := by
  unfold entryFor
  intro h
  obtain ⟨w, hw, h⟩ := Option.bind_eq_some_iff.mp h
  obtain ⟨role, hrole, h⟩ := Option.bind_eq_some_iff.mp h
  cases h
  exact ⟨w, hw, by unfold Sees; rw [hrole]; rfl, rfl⟩

theorem exists_entryFor {records : Records} {u key : Text} {w : WorkspaceMeta}
    (hw : records.get key = some w) (hsees : Sees cs w u) :
    ∃ e, entryFor cs records u key = some e ∧ e.name = shownName key w := by
  obtain ⟨role, hrole⟩ := Option.isSome_iff_exists.mp hsees
  refine ⟨⟨key, shownName key w, w.createdAt.getD [], sanitizeWorkspaceState cs (w.state.getD []), role⟩,
    ?_, rfl⟩
  unfold entryFor
  rw [hw, Option.bind_eq_bind, Option.bind_some, hrole]
  rfl

theorem listForUser_of_sees {records : Records} {w : WorkspaceMeta} {u : Text} (h : Sees cs w u) :
    listForUser cs records u =
      (sortedBy id Function.injective_id records.keys).filterMap (entryFor cs records u) := by
  unfold listForUser
  dsimp only
  rw [h.stripped.1, if_neg h.stripped.2]

theorem namesUnique_iff {records : Records} : NamesUnique cs records ↔ Apart cs records := by
  constructor
  · rintro h key w u hkey hsees ⟨k, w', hk, hne, hsees', hname⟩
    have hnodup := h u
    rw [listForUser_of_sees hsees, List.map_filterMap, List.Nodup, List.pairwise_filterMap] at hnodup
    obtain ⟨e, he, hename⟩ := exists_entryFor hkey hsees
    obtain ⟨e', he', hename'⟩ := exists_entryFor hk hsees'
    have hsym : Std.Symm fun k k' : Text => ∀ b, (entryFor cs records u k).map (·.name) = some b →
        ∀ b', (entryFor cs records u k').map (·.name) = some b' → b ≠ b' :=
      ⟨fun _ _ h b hb b' hb' heq => h b' hb' b hb heq.symm⟩
    refine hnodup.forall (mem_sortedBy.mpr (FinMap.mem_keys_of_get hkey))
      (mem_sortedBy.mpr (FinMap.mem_keys_of_get hk)) hne.symm e.name ?_ e'.name ?_ ?_
    · rw [he]; rfl
    · rw [he']; rfl
    · rw [hename, hename', hname]
  · intro h userId
    unfold listForUser
    dsimp only
    split
    · exact List.nodup_nil
    · rw [List.map_filterMap]
      refine nodup_sortedBy.filterMap fun k k' name hname hname' => ?_
      obtain ⟨e, he, rfl⟩ := Option.map_eq_some_iff.mp hname
      obtain ⟨e', he', heq⟩ := Option.map_eq_some_iff.mp hname'
      obtain ⟨w, hw, hsees, hn⟩ := entryFor_eq_some he
      obtain ⟨w', hw', hsees', hn'⟩ := entryFor_eq_some he'
      by_contra hne
      exact h k w _ hw hsees ⟨k', w', hw', Ne.symm hne, hsees', by rw [← hn', heq, hn]⟩

theorem Apart.set_iff {records : Records} (h : Apart cs records) (key : Text) (w : WorkspaceMeta) :
    Apart cs (records.set key w) ↔
      ∀ u, Sees cs w u → ¬ Clashes cs records key (shownName key w) u := by
  constructor
  · rintro hset u hsees ⟨k, w', hk, hne, hsees', hname⟩
    refine hset key w u ?_ hsees ⟨k, w', ?_, hne, hsees', hname⟩
    · rw [FinMap.get_set, if_pos rfl]
    · rw [FinMap.get_set, if_neg hne, hk]
  · rintro hclear key' w' u hkey hsees ⟨k, v, hk, hne, hsees', hname⟩
    rw [FinMap.get_set] at hkey hk
    by_cases heq : key' = key
    · rw [if_pos heq] at hkey
      rw [if_neg fun hkk => hne (hkk.trans heq.symm)] at hk
      cases hkey
      subst heq
      exact hclear u hsees ⟨k, v, hk, hne, hsees', hname⟩
    · rw [if_neg heq] at hkey
      by_cases hkk : k = key
      · rw [if_pos hkk] at hk
        cases hk
        subst hkk
        exact hclear u hsees' ⟨key', w', hkey, heq, hsees, hname.symm⟩
      · rw [if_neg hkk] at hk
        exact h key' w' u hkey hsees ⟨k, v, hk, hne, hsees', hname⟩

theorem Apart.restrict {records : Records} (h : Apart cs records) (p : Text → Bool) :
    Apart cs (records.restrict p) := by
  have hget {k : Text} {w : WorkspaceMeta} (hk : (records.restrict p).get k = some w) :
      records.get k = some w := by
    rw [FinMap.get_restrict] at hk
    split at hk
    · exact hk
    · cases hk
  rintro key w u hkey hsees ⟨k, w', hk, hne, hsees', hname⟩
  exact h key w u (hget hkey) hsees ⟨k, w', hget hk, hne, hsees', hname⟩

/-! ## A check that is followed by its write -/

theorem create_keeps {records : Records} {now : Stamp} {workspaceId : Text}
    {ownerId ownerEmail name : Option Text} {written : WorkspaceMeta}
    (h : create cs records now workspaceId ownerId ownerEmail name = .ok written) :
    ∃ cleanedName, written = createMeta workspaceId cleanedName now ownerId ownerEmail := by
  unfold create at h
  split at h
  · cases hcheck : ensureAliasUnique ownerId _ _ with
    | error e => rw [hcheck] at h; cases h
    | ok _ =>
      rw [hcheck] at h
      cases h
      exact ⟨_, rfl⟩
  · cases h
    exact ⟨_, rfl⟩

theorem name_mem_listForUser {records : Records} {key u : Text} {w : WorkspaceMeta}
    (hkey : records.get key = some w) (hsees : Sees cs w u) :
    shownName key w ∈ (listForUser cs records u).map (·.name) := by
  obtain ⟨e, he, hname⟩ := exists_entryFor hkey hsees
  rw [listForUser_of_sees hsees, ← hname]
  exact List.mem_map.mpr ⟨e, List.mem_filterMap.mpr
    ⟨key, mem_sortedBy.mpr (FinMap.mem_keys_of_get hkey), he⟩, rfl⟩

theorem defaultAlias_injective : Function.Injective defaultAlias := fun _ _ h =>
  natText_injective (List.append_cancel_left h)

theorem strip_defaultAlias (n : Nat) : strip (defaultAlias n) = defaultAlias n := by
  have hword : ("workspace-".toList.all fun c => !isSpace c) = true := by decide
  refine strip_of_no_space fun c hc => ?_
  rcases List.mem_append.mp hc with hc | hc
  · exact (Bool.not_eq_true' _).mp (List.all_eq_true.mp hword c hc)
  · exact isSpace_of_isDigit (isDigit_of_mem_natText hc)

theorem nextFree_eq (used : List Text) (fuel n : Nat) :
    nextFree used fuel n = Lib.firstFree defaultAlias used fuel n := by
  induction fuel generalizing n with
  | zero => rfl
  | succ fuel ih =>
    rw [nextFree, Lib.firstFree]
    by_cases hused : defaultAlias n ∈ used
    · rw [if_pos hused, if_pos hused, ih]
    · rw [if_neg hused, if_neg hused]

variable (cs) in
theorem nextDefaultAlias_not_mem (records : Records) (ownerId : Option Text) :
    nextDefaultAlias cs records ownerId ∉ userWorkspaceAliases cs records ownerId ∧
      strip (nextDefaultAlias cs records ownerId) = nextDefaultAlias cs records ownerId ∧
      nextDefaultAlias cs records ownerId ≠ [] := by
  unfold nextDefaultAlias
  dsimp only
  split
  · rename_i hmain
    exact ⟨hmain, by decide, by decide⟩
  · rw [nextFree_eq]
    refine ⟨Lib.firstFree_not_mem defaultAlias_injective, ?_⟩
    obtain ⟨k, hk⟩ := @Lib.firstFree_eq _ _ defaultAlias (userWorkspaceAliases cs records ownerId)
      (userWorkspaceAliases cs records ownerId).length 2
    rw [hk]
    refine ⟨strip_defaultAlias k, ?_⟩
    unfold defaultAlias
    exact List.append_ne_nil_of_left_ne_nil (by decide) _

theorem ensureAliasUnique_ok {ownerId : Option Text} {newAlias : Text} {names : List Text}
    (h : ensureAliasUnique ownerId newAlias names = .ok ()) {u : Text}
    (hu : stripOrNone ownerId = some u) : ∀ name ∈ names, strip name ≠ newAlias := by
  intro name hmem heq
  unfold ensureAliasUnique at h
  rw [if_pos ⟨by rw [hu]; exact Option.some_ne_none u, name, hmem, heq⟩] at h
  cases h

/-- The name `create` decides on is not in its owner's list. -/
theorem create_not_mem {records : Records} {now : Stamp} {workspaceId u : Text}
    {ownerId ownerEmail name : Option Text} {written : WorkspaceMeta}
    (h : create cs records now workspaceId ownerId ownerEmail name = .ok written)
    (hu : stripOrNone ownerId = some u) :
    shownName workspaceId written ∉ (listForUser cs records u).map (·.name) := by
  intro hmem
  unfold create at h
  split at h
  · rename_i cleanedName hname
    obtain ⟨hstrip, hne⟩ := stripOrNone_eq_some.mp hname
    have hstripped : strip cleanedName = cleanedName := by rw [← hstrip]; exact strip_strip _
    cases hcheck : ensureAliasUnique ownerId cleanedName (otherNames cs records ownerId none) with
    | error e => rw [hcheck] at h; cases h
    | ok _ =>
      rw [hcheck] at h
      cases h
      -- the name that was asked for is shown as it was checked
      have hshown : shownName workspaceId (createMeta workspaceId cleanedName now ownerId ownerEmail) =
          cleanedName := congrArg (Option.getD · workspaceId) (orNone_of_ne hne)
      rw [hshown] at hmem
      refine ensureAliasUnique_ok hcheck hu cleanedName ?_ hstripped
      unfold otherNames
      rw [hu]
      dsimp only
      rw [List.filter_eq_self.mpr fun e _ => decide_eq_true (Option.some_ne_none e.workspaceId)]
      exact hmem
  · cases h
    -- no name was given: the alias is picked so that no other is like it
    obtain ⟨hno, hstrip, hne⟩ := nextDefaultAlias_not_mem cs records ownerId
    have hshown : shownName workspaceId (createMeta workspaceId (nextDefaultAlias cs records ownerId)
        now ownerId ownerEmail) = nextDefaultAlias cs records ownerId :=
      congrArg (Option.getD · workspaceId) (orNone_of_ne hne)
    rw [hshown] at hmem
    obtain ⟨e, he, heq⟩ := List.mem_map.mp hmem
    have haliases : userWorkspaceAliases cs records ownerId =
        ((listForUser cs records u).map (strip ·.name)).filter (· ≠ []) := by
      unfold userWorkspaceAliases
      rw [hu]
    refine hno ?_
    rw [haliases]
    refine List.mem_filter.mpr ⟨List.mem_map.mpr ⟨e, he, ?_⟩, decide_eq_true hne⟩
    show strip e.name = _
    rw [heq, hstrip]

/-- **A creation that is written where it was checked runs into no clash.** -/
theorem create_clear {records : Records} {now : Stamp} {workspaceId : Text}
    {ownerId ownerEmail name : Option Text} {written : WorkspaceMeta}
    (h : create cs records now workspaceId ownerId ownerEmail name = .ok written) (u : Text)
    (hsees : Sees cs written u) :
    ¬ Clashes cs records workspaceId (shownName workspaceId written) u := by
  have howner : stripOrNone ownerId = some u := by
    obtain ⟨cleanedName, rfl⟩ := create_keeps h
    rcases sees_iff_of_normal.mp hsees with howner | ⟨e, he, -⟩
    · exact (stripOrNone_idem ownerId).symm.trans howner
    · cases he
  rintro ⟨k, w, hk, -, hsees', hname⟩
  refine create_not_mem h howner ?_
  rw [← hname]
  exact name_mem_listForUser hk hsees'

end Infinito.Rbac
