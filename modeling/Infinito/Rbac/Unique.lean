import Infinito.Lib.Run
import Infinito.Rbac.Names

/-!
# When the names are unique

`create` and `rename_workspace_alias` refuse a name that is in the caller's list. Nothing else
does: a claimed invitation brings a workspace into a list under the name its owner gave it, a
rename is seen by everyone who sees the workspace and asks only the caller, and the empty name
that reverts to the workspace's id is not looked up at all. And between a check and the write it
allows there is no lock, so of two creations at once neither sees the other.

The service is the records of its workspaces and the writes that have been decided on and not
made (`Registry`). Calls that decide on a name take two steps, the check and the write; the
calls of `Members` that leave the name alone are one. `Clashfree` is what a step must not run
into for the names to stay apart, and `names_unique_iff` says that it is exact over whole runs.
-/

set_option autoImplicit false

namespace Infinito.Rbac

open Py Lib

variable (cs : Casing)

/-! ## The service -/

/-- A write that has been decided on. -/
structure Pending where
  key : Text
  written : WorkspaceMeta
  /-- The directory is a new one. -/
  fresh : Bool

structure Registry where
  records : Records
  pending : List (Nat × Pending)

inductive Step where
  /-- `create` decides on a name; `workspaceId` is the id it draws -/
  | create (call : Nat) (now : Stamp) (workspaceId : Text) (ownerId ownerEmail name : Option Text)
  /-- `rename_workspace_alias` loads the record and decides on a name -/
  | rename (call : Nat) (now : Stamp) (workspaceId newAlias : Text) (ownerId : Option Text)
  /-- the call writes -/
  | write (call : Nat)
  /-- a call that leaves the name alone, from its load to its write -/
  | update (workspaceId : Text) (op : MetaOp)
  | delete (workspaceId : Text)

def Registry.empty : Registry := ⟨.empty, []⟩

def Registry.pendingOf (s : Registry) (call : Nat) : Option Pending :=
  (s.pending.find? fun e => e.1 = call).map (·.2)

def Registry.start (s : Registry) (call : Nat) (p : Pending) : Option Registry :=
  if (s.pendingOf call).isSome then none else some { s with pending := (call, p) :: s.pending }

def MetaOp.renames : MetaOp → Bool
  | .rename _ _ _ _ _ => true
  | _ => false

/-- A refused call leaves the service as it was. No step: the call cannot be at this point, or
    the id it drew is in use. -/
def Registry.step (s : Registry) : Step → Option Registry
  | .create call now workspaceId ownerId ownerEmail name =>
    match create cs s.records now workspaceId ownerId ownerEmail name with
    | .error _ => some s
    | .ok written => s.start call ⟨workspaceId, written, true⟩
  | .rename call now workspaceId newAlias ownerId =>
    match rename cs s.records now workspaceId newAlias ownerId with
    | .error _ => some s
    | .ok (key, written) => s.start call ⟨key, written, false⟩
  | .write call => do
    let p ← s.pendingOf call
    if p.fresh && (s.records.get p.key).isSome then none
    else some ⟨s.records.set p.key p.written, s.pending.filter fun e => e.1 ≠ call⟩
  | .update workspaceId op =>
    if op.renames then none
    else match (s.records.get (workspaceKey cs workspaceId)).bind (op.writes cs) with
      | none => some s
      | some written => some { s with records := s.records.set (workspaceKey cs workspaceId) written }
  | .delete workspaceId =>
    some { s with records := s.records.restrict fun key => key ≠ workspaceKey cs workspaceId }

variable {cs}

/-! ## The calls that leave the name alone -/

theorem writes_name {op : MetaOp} {w w' : WorkspaceMeta} (hname : op.renames = false)
    (h : op.writes cs w = some w') : w'.name = w.name := by
  cases op with
  | invite now invitedBy email =>
    obtain ⟨a, -, -, -, rfl⟩ := inviteMember_ok (ok_of_toOption h)
    rfl
  | remove now key =>
    obtain ⟨-, -, rfl⟩ := removeMember_ok (ok_of_toOption h)
    rfl
  | transfer now newOwnerId =>
    obtain ⟨owner, promoted, -, -, -, -, rfl⟩ := transferOwnership_ok (ok_of_toOption h)
    rfl
  | access now userId email =>
    obtain ⟨owner, actor, a, members, -, -, -, -, -, -, rfl⟩ :=
      assertWorkspaceAccess_claimed (claimed_of_writes h)
    rfl
  | setState now state => cases h; rfl
  | rename now workspaceId newAlias ownerId otherNames => cases hname

/-- The user a call lets in who was not in before. -/
def MetaOp.joins : MetaOp → Option Text
  | .access _ userId _ => stripOrNone userId
  | _ => none

/-- Nobody sees more after a call, but the user whose claim it is. -/
theorem sees_writes {op : MetaOp} {w w' : WorkspaceMeta} (hw : Inv cs w)
    (h : op.writes cs w = some w') {u : Text} :
    (Sees cs w' u → Sees cs w u ∨ op.joins = some u) ∧ (op.joins = some u → Sees cs w' u) := by
  rw [sees_iff hw, sees_iff (hw.writes h)]
  have hmoves := writes_moves hw h
  cases op with
  | invite now invitedBy email =>
    obtain ⟨a, -, -, hids, -⟩ := hmoves
    exact ⟨fun hu => Or.inl (hids.mem_iff.mp hu), nofun⟩
  | remove now key =>
    obtain ⟨e, -, hids, -⟩ := hmoves
    exact ⟨fun hu => Or.inl (hids.mem_iff.mpr (List.mem_append_right _ hu)), nofun⟩
  | transfer now newOwnerId => exact ⟨fun hu => Or.inl (hmoves.1.mem_iff.mp hu), nofun⟩
  | access now userId email =>
    obtain ⟨actor, hactor, -, hids, -⟩ := hmoves
    show (u ∈ ids w' → u ∈ ids w ∨ stripOrNone userId = some u) ∧
      (stripOrNone userId = some u → u ∈ ids w')
    rw [hactor, Option.some.injEq, hids.mem_iff, List.mem_cons, eq_comm, Or.comm]
    exact ⟨id, Or.inr⟩
  | setState now state => exact ⟨fun hu => Or.inl (hmoves.1 ▸ hu), nofun⟩
  | rename now workspaceId newAlias ownerId otherNames =>
    exact ⟨fun hu => Or.inl (hmoves.1 ▸ hu), nofun⟩

/-- Such a call keeps the names apart exactly if the user it lets in has none of that name. -/
theorem Apart.writes_iff {records : Records} (h : Apart cs records) {key : Text} {op : MetaOp}
    {w w' : WorkspaceMeta} (hkey : records.get key = some w) (hw : Inv cs w)
    (hname : op.renames = false) (hwrites : op.writes cs w = some w') :
    Apart cs (records.set key w') ↔
      ∀ u, op.joins = some u → ¬ Clashes cs records key (shownName key w) u := by
  have hshown : shownName key w' = shownName key w := by
    unfold shownName
    rw [writes_name hname hwrites]
  rw [h.set_iff, hshown]
  constructor
  · intro hclear u hjoins
    exact hclear u ((sees_writes hw hwrites).2 hjoins)
  · intro hclear u hsees
    rcases (sees_writes hw hwrites).1 hsees with hold | hjoins
    · exact h key w u hkey hold
    · exact hclear u hjoins

/-! ## The steps -/

/-- What a step must not run into. A write: that someone to whom it shows the workspace has
    another of its name. A claim: that the user it lets in has. -/
def Clashfree (cs : Casing) (s : Registry) : Step → Prop
  | .write call => ∀ p, s.pendingOf call = some p → ∀ u, Sees cs p.written u →
      ¬ Clashes cs s.records p.key (shownName p.key p.written) u
  | .update workspaceId op => ∀ w, s.records.get (workspaceKey cs workspaceId) = some w →
      op.writes cs w ≠ none → ∀ u, op.joins = some u →
        ¬ Clashes cs s.records (workspaceKey cs workspaceId) (shownName (workspaceKey cs workspaceId) w) u
  | .create .. | .rename .. | .delete _ => True

/-- Every record, and every one about to be written, follows the membership rules. -/
structure Kept (cs : Casing) (s : Registry) : Prop where
  records : ∀ key w, s.records.get key = some w → Inv cs w
  pending : ∀ e ∈ s.pending, Inv cs e.2.written

theorem Kept.empty : Kept cs .empty where
  records := by
    intro key w h
    cases h
  pending := by
    intro e he
    cases he

theorem rename_keeps {records : Records} {now : Stamp} {workspaceId newAlias : Text}
    {ownerId : Option Text} {key : Text} {written : WorkspaceMeta}
    (h : rename cs records now workspaceId newAlias ownerId = .ok (key, written)) :
    ∃ raw others, records.get key = some raw ∧
      renameWorkspaceAlias now raw workspaceId newAlias ownerId others = .ok written := by
  unfold rename at h
  split at h
  · cases h
  · rename_i raw hraw
    cases hwritten : renameWorkspaceAlias now raw workspaceId newAlias ownerId _ with
    | error e => rw [hwritten] at h; cases h
    | ok w =>
      rw [hwritten] at h
      cases h
      exact ⟨raw, _, hraw, hwritten⟩

theorem Kept.start {s s' : Registry} (h : Kept cs s) {call : Nat} {p : Pending}
    (hp : Inv cs p.written) (hs : s.start call p = some s') : Kept cs s' := by
  unfold Registry.start at hs
  split at hs
  · cases hs
  · cases hs
    refine ⟨h.records, fun e he => ?_⟩
    rcases List.mem_cons.mp he with rfl | he
    · exact hp
    · exact h.pending e he

theorem Kept.set {s : Registry} (h : Kept cs s) {key : Text} {w : WorkspaceMeta} (hw : Inv cs w) :
    ∀ key' w', (s.records.set key w).get key' = some w' → Inv cs w' := by
  intro key' w' hget
  rw [FinMap.get_set] at hget
  split at hget
  · cases hget; exact hw
  · exact h.records key' w' hget

theorem Kept.pendingOf {s : Registry} (h : Kept cs s) {call : Nat} {p : Pending}
    (hp : s.pendingOf call = some p) : Inv cs p.written := by
  obtain ⟨e, he, rfl⟩ := Option.map_eq_some_iff.mp hp
  exact h.pending e (List.mem_of_find?_eq_some he)

/-- What the writing step does. -/
theorem step_write {s s' : Registry} {call : Nat} (h : s.step cs (.write call) = some s') :
    ∃ p, s.pendingOf call = some p ∧ s'.records = s.records.set p.key p.written ∧
      s'.pending = s.pending.filter fun e => e.1 ≠ call := by
  obtain ⟨p, hp, h⟩ := Option.bind_eq_some_iff.mp h
  split at h
  · cases h
  · cases h
    exact ⟨p, hp, rfl, rfl⟩

/-- What a call that leaves the name alone does. -/
theorem step_update {s s' : Registry} {workspaceId : Text} {op : MetaOp}
    (h : s.step cs (.update workspaceId op) = some s') :
    op.renames = false ∧ (s' = s ∧
        (∀ w, s.records.get (workspaceKey cs workspaceId) = some w → op.writes cs w = none) ∨
      ∃ w w', s.records.get (workspaceKey cs workspaceId) = some w ∧ op.writes cs w = some w' ∧
        s' = { s with records := s.records.set (workspaceKey cs workspaceId) w' }) := by
  unfold Registry.step at h
  dsimp only at h
  split at h
  · cases h
  · rename_i hrenames
    refine ⟨Bool.not_eq_true _ ▸ hrenames, ?_⟩
    split at h
    · rename_i hnone
      cases h
      refine Or.inl ⟨rfl, fun w hw => ?_⟩
      rw [hw] at hnone
      exact hnone
    · rename_i written hwritten
      obtain ⟨w, hw, hwrites⟩ := Option.bind_eq_some_iff.mp hwritten
      cases h
      exact Or.inr ⟨w, written, hw, hwrites, rfl⟩

/-- Deciding on a name changes no record. -/
theorem records_start {s s' : Registry} {call : Nat} {p : Pending} (h : s.start call p = some s') :
    s'.records = s.records := by
  unfold Registry.start at h
  split at h
  · cases h
  · cases h; rfl

theorem step_create {s s' : Registry} {call : Nat} {now : Stamp} {workspaceId : Text}
    {ownerId ownerEmail name : Option Text}
    (h : s.step cs (.create call now workspaceId ownerId ownerEmail name) = some s') :
    s' = s ∨ ∃ written,
      create cs s.records now workspaceId ownerId ownerEmail name = .ok written ∧
      s.start call ⟨workspaceId, written, true⟩ = some s' := by
  unfold Registry.step at h
  dsimp only at h
  split at h
  · cases h; exact Or.inl rfl
  · rename_i written hwritten
    exact Or.inr ⟨written, hwritten, h⟩

theorem step_rename {s s' : Registry} {call : Nat} {now : Stamp} {workspaceId newAlias : Text}
    {ownerId : Option Text}
    (h : s.step cs (.rename call now workspaceId newAlias ownerId) = some s') :
    s' = s ∨ ∃ key written, rename cs s.records now workspaceId newAlias ownerId = .ok (key, written) ∧
      s.start call ⟨key, written, false⟩ = some s' := by
  unfold Registry.step at h
  dsimp only at h
  split at h
  · cases h; exact Or.inl rfl
  · rename_i key written hwritten
    exact Or.inr ⟨key, written, hwritten, h⟩

theorem Kept.step {s s' : Registry} {a : Step} (h : Kept cs s) (hstep : s.step cs a = some s') :
    Kept cs s' := by
  cases a with
  | create call now workspaceId ownerId ownerEmail name =>
    rcases step_create hstep with rfl | ⟨written, hwritten, hstart⟩
    · exact h
    · obtain ⟨cleanedName, rfl⟩ := create_keeps hwritten
      exact h.start (Inv.create cs _ _ _ _ _) hstart
  | rename call now workspaceId newAlias ownerId =>
    rcases step_rename hstep with rfl | ⟨key, written, hwritten, hstart⟩
    · exact h
    · obtain ⟨raw, others, hraw, hrenamed⟩ := rename_keeps hwritten
      -- a rename writes what the operation of the member list writes
      have hwrites : (MetaOp.rename now workspaceId newAlias ownerId others).writes cs raw =
          some written := by
        show (renameWorkspaceAlias now raw workspaceId newAlias ownerId others).toOption = _
        rw [hrenamed]
        rfl
      exact h.start ((h.records key raw hraw).writes hwrites) hstart
  | write call =>
    obtain ⟨p, hp, hrecords, hpending⟩ := step_write hstep
    constructor
    · rw [hrecords]
      exact h.set (h.pendingOf hp)
    · rw [hpending]
      exact fun e he => h.pending e (List.mem_of_mem_filter he)
  | update workspaceId op =>
    obtain ⟨-, ⟨rfl, -⟩ | ⟨w, w', hw, hwrites, rfl⟩⟩ := step_update hstep
    · exact h
    · exact ⟨h.set ((h.records _ w hw).writes hwrites), h.pending⟩
  | delete workspaceId =>
    cases hstep
    refine ⟨fun key w hget => ?_, h.pending⟩
    rw [FinMap.get_restrict] at hget
    split at hget
    · exact h.records key w hget
    · cases hget

/-- **One step keeps the names apart exactly if it does not run into a clash.** -/
theorem step_apart_iff {s s' : Registry} {a : Step} (h : Kept cs s) (hapart : Apart cs s.records)
    (hstep : s.step cs a = some s') : Apart cs s'.records ↔ Clashfree cs s a := by
  cases a with
  | create call now workspaceId ownerId ownerEmail name =>
    -- the names are checked here, and the record is written by a later step
    refine iff_of_true ?_ trivial
    rcases step_create hstep with rfl | ⟨written, -, hstart⟩
    · exact hapart
    · rw [records_start hstart]
      exact hapart
  | rename call now workspaceId newAlias ownerId =>
    refine iff_of_true ?_ trivial
    rcases step_rename hstep with rfl | ⟨key, written, -, hstart⟩
    · exact hapart
    · rw [records_start hstart]
      exact hapart
  | write call =>
    obtain ⟨p, hp, hrecords, -⟩ := step_write hstep
    rw [hrecords, hapart.set_iff]
    constructor
    · intro hclear p' hp'
      rw [hp] at hp'
      cases hp'
      exact hclear
    · intro hclear
      exact hclear p hp
  | update workspaceId op =>
    obtain ⟨hrenames, ⟨rfl, hnone⟩ | ⟨w, w', hw, hwrites, rfl⟩⟩ := step_update hstep
    · exact iff_of_true hapart fun w hw hwrites => absurd (hnone w hw) hwrites
    · -- the one record that changed against all the others
      rw [hapart.writes_iff hw (h.records _ w hw) hrenames hwrites]
      constructor
      · intro hclear v hv _
        rw [hw] at hv
        cases hv
        exact hclear
      · intro hclear
        exact hclear w hw (by rw [hwrites]; exact Option.some_ne_none w')
  | delete workspaceId =>
    cases hstep
    exact iff_of_true (hapart.restrict _) trivial

theorem namesUnique_empty : NamesUnique cs Registry.empty.records :=
  namesUnique_iff.mpr fun key w u hkey => by cases hkey

/-- **The names in every list are unique in every state of a run exactly if no step of it runs
    into a clash**: of every run of creations, renames, claims, transfers and the other calls, by
    any users, the checks and the writes of creations and renames interleaved in any way. -/
theorem names_unique_iff (acts : List Step) (s : Registry)
    (hrun : run (Registry.step cs) .empty acts = some s) :
    Along (Registry.step cs) (Clashfree cs) .empty acts ↔
      ∀ before after t, acts = before ++ after → run (Registry.step cs) .empty before = some t →
        NamesUnique cs t.records := by
  have hkept (t : Registry) (a : Step) (t' : Registry) (h : Kept cs t) (hs : t.step cs a = some t') :
      Kept cs t' := h.step hs
  have hstep (t : Registry) (a : Step) (t' : Registry) (h : Kept cs t)
      (hunique : NamesUnique cs t.records) (hs : t.step cs a = some t') :
      NamesUnique cs t'.records ↔ Clashfree cs t a := by
    rw [namesUnique_iff] at hunique ⊢
    exact step_apart_iff h hunique hs
  exact along_iff hkept hstep Kept.empty namesUnique_empty hrun

/-! ## Runs into a clash -/

section Demo

def anyTimeText : Text := "2026-01-01T00:00:00Z"

def anyTime : Stamp := ⟨anyTimeText, by decide⟩

/-- A creation that is written where it was checked. -/
def created (call : Nat) (workspaceId owner : Text) (name : Option Text) : List Step :=
  [.create call anyTime workspaceId (some owner) none name, .write call]

def renamed (call : Nat) (workspaceId newAlias owner : Text) : List Step :=
  [.rename call anyTime workspaceId newAlias (some owner), .write call]

/-- Bob is invited to `w1` and comes in. -/
def joined : List Step :=
  [.update "w1" (.invite anyTime "alice" "bob@example.org"),
    .update "w1" (.access anyTime (some "bob") (some "bob@example.org"))]

/-- Bob claims an invitation to Alice's `main` and has a `main`. -/
def claimRun : List Step := created 0 "w1" "alice" none ++ created 1 "w2" "bob" none ++ joined

/-- Alice renames a workspace that Bob sees to the name of one that she does not see. -/
def renameRun : List Step :=
  created 0 "w1" "alice" none ++ created 1 "w2" "bob" (some "notes") ++ joined ++
    renamed 2 "w1" "notes" "alice"

/-- Bob reverts a workspace to its id, which is the name of another. -/
def revertRun : List Step :=
  created 0 "w1" "bob" none ++ created 1 "w2" "bob" (some "w1") ++ renamed 2 "w1" [] "bob"

/-- Bob creates two workspaces at once. -/
def raceRun : List Step :=
  [.create 0 anyTime "w1" (some "bob") none none, .create 1 anyTime "w2" (some "bob") none none,
    .write 0, .write 1]

def namesAfter (acts : List Step) (userId : Text) : Option (List Text) :=
  (run (Registry.step asciiCasing) .empty acts).map fun s =>
    (listForUser asciiCasing s.records userId).map (·.name)

/-- A list has a name twice after the run. -/
def Repeats (acts : List Step) : Prop :=
  ∃ s, run (Registry.step asciiCasing) .empty acts = some s ∧ ¬ NamesUnique asciiCasing s.records

theorem repeats_of_namesAfter {acts : List Step} {userId : Text} {names : List Text}
    (h : namesAfter acts userId = some names) (hdup : ¬ names.Nodup) : Repeats acts := by
  obtain ⟨s, hs, rfl⟩ := Option.map_eq_some_iff.mp h
  exact ⟨s, hs, fun hunique => hdup (hunique userId)⟩

/-- A run in which everyone stays clear of the others' names. -/
theorem names_unique_iff_joined : ∃ s,
    run (Registry.step asciiCasing) .empty
      (created 0 "w1" "alice" none ++ created 1 "w2" "bob" (some "notes") ++ joined) = some s ∧
    (Along (Registry.step asciiCasing) (Clashfree asciiCasing) .empty
        (created 0 "w1" "alice" none ++ created 1 "w2" "bob" (some "notes") ++ joined) ↔
      ∀ before after t,
        created 0 "w1" "alice" none ++ created 1 "w2" "bob" (some "notes") ++ joined =
          before ++ after →
        run (Registry.step asciiCasing) .empty before = some t →
          NamesUnique asciiCasing t.records) := by
  obtain ⟨s, hs⟩ : ∃ s, run (Registry.step asciiCasing) .empty
      (created 0 "w1" "alice" none ++ created 1 "w2" "bob" (some "notes") ++ joined) = some s :=
    Option.isSome_iff_exists.mp (by decide +kernel)
  exact ⟨s, hs, names_unique_iff _ s hs⟩

/-- **A list with a name twice**, after a claim, after a rename by someone else, after a revert to
    the id, and after two creations at once. -/
theorem names_clash : Repeats claimRun ∧ Repeats renameRun ∧ Repeats revertRun ∧ Repeats raceRun := by
  have hclaim : namesAfter claimRun "bob" = some ["main".toList, "main".toList] := by decide +kernel
  have hrename : namesAfter renameRun "bob" = some ["notes".toList, "notes".toList] := by
    decide +kernel
  have hrevert : namesAfter revertRun "bob" = some ["w1".toList, "w1".toList] := by decide +kernel
  have hrace : namesAfter raceRun "bob" = some ["main".toList, "main".toList] := by decide +kernel
  refine ⟨repeats_of_namesAfter hclaim ?_, repeats_of_namesAfter hrename ?_,
    repeats_of_namesAfter hrevert ?_, repeats_of_namesAfter hrace ?_⟩ <;> decide

end Demo

end Infinito.Rbac
