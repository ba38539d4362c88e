import Mathlib.Data.List.Permutation
import Infinito.Lib.Register
import Infinito.Rbac.Invariant

/-!
# Concurrent writers of `workspace.json`

The six writers run in a thread pool, and each of them loads the file, works on the
record, and writes the file. `invite_member`, `remove_member` and `transfer_ownership` do
so under `workspace_write_lock`; a claim inside `assert_workspace_access`,
`set_workspace_state` and `rename_workspace_alias` do not take it. So the file is a
`Lib.Register`, and its six calls are `metaCalls`.

The lock alone does not keep updates from being lost: a claim that loaded before a removal
and stores after it writes the removed member back (`claim_undoes_removal`). What is lost
is lost by a store of a call without the lock, and `no_lost_update` says so: when such a
call stores only over the record it loaded, and not into the window of a lock holder, the
file is what the accepted calls make of it one after the other.
-/

set_option autoImplicit false

namespace Infinito.Rbac

open Py Lib Lib.Register

variable {cs : Casing}

/-- Whether the function holds `workspace_write_lock` from its load to its write. -/
def MetaOp.locks : MetaOp → Bool
  | .invite _ _ _ => true
  | .remove _ _ => true
  | .transfer _ _ => true
  | .access _ _ _ => false
  | .setState _ _ => false
  | .rename _ _ _ _ _ => false

def metaCalls (cs : Casing) : Calls WorkspaceMeta MetaOp where
  writes w op := op.writes cs w
  locks := MetaOp.locks

/-! ## What a lost update is -/

/-- The record without the times stamped on it. -/
def WorkspaceMeta.untimed (w : WorkspaceMeta) : WorkspaceMeta :=
  { w with
    createdAt := none
    updatedAt := none
    members := w.members.map fun e => { e with joinedAt := none, invitedAt := none } }

/-- The entry an accepted removal took out of the record it had loaded. -/
def removedEntry (cs : Casing) (w : Window WorkspaceMeta MetaOp) : Option Member :=
  match w.op with
  | .remove _ key => (normalizeMembers cs w.loaded.members).find?
      (matchesKey (strip key) (normalizeEmail cs (some (strip key))))
  | _ => none

/-- The address an accepted invitation is for. -/
def invitedAddress (cs : Casing) (w : Window WorkspaceMeta MetaOp) : Option Text :=
  match w.op with
  | .invite _ _ email => normalizeEmail cs (some email)
  | _ => none

/-- The user an accepted claim is by. -/
def claimant (w : Window WorkspaceMeta MetaOp) : Option Text :=
  match w.op with
  | .access _ userId _ => stripOrNone userId
  | _ => none

/-- No accepted update is lost. The last three clauses are about one accepted call and the
    ones stored after it: a removed address stays out until it is invited again, a removed
    user until they claim an invitation, and an invited address stays until it is removed. -/
structure NoLostUpdate (cs : Casing) (start : WorkspaceMeta)
    (s : State WorkspaceMeta MetaOp) : Prop where
  serial : ∃ order : List MetaOp, order.Perm (s.stored.map (·.op)) ∧
    ∃ w, order.foldlM (metaCalls cs).writes start = some w ∧ w.untimed = s.value.untimed
  removed_address : ∀ before w after, s.stored = before ++ w :: after →
    ∀ e a, removedEntry cs w = some e → e.email = some a → a ∈ addresses cs s.value →
      ∃ w' ∈ after, invitedAddress cs w' = some a
  removed_user : ∀ before w after, s.stored = before ++ w :: after →
    ∀ e u, removedEntry cs w = some e → e.userId = some u → u ∈ ids s.value →
      ∃ w' ∈ after, claimant w' = some u
  invited : ∀ before w after, s.stored = before ++ w :: after →
    ∀ a, invitedAddress cs w = some a → a ∉ addresses cs s.value →
      ∃ w' ∈ after, ∃ e, removedEntry cs w' = some e ∧ e.email = some a

/-! ## The defect -/

def exampleNow : Stamp := ⟨"2026-01-01T00:00:00Z", by decide⟩

/-- Alice's workspace with Carol in it and Bob invited. -/
def aliceWorkspace : WorkspaceMeta :=
  [ MetaOp.invite exampleNow "alice" "carol@example.org",
    .access exampleNow (some "carol") (some "carol@example.org"),
    .invite exampleNow "alice" "bob@example.org" ].foldl (MetaOp.apply asciiCasing)
    (createMeta "w1" "main" exampleNow (some "alice") (some "alice@example.org"))

/-- Bob's first visit loads the record; Carol is removed; Bob's claim stores what it had
    loaded. -/
def revivingRun : List (Act MetaOp) :=
  [ .load 0 (.access exampleNow (some "bob") (some "bob@example.org")),
    .load 1 (.remove exampleNow "carol"),
    .store 1,
    .store 0 ]

/-- **Carol is back**, and no order of the two accepted calls leaves her there. -/
theorem claim_undoes_removal :
    ∃ s, run (step (metaCalls asciiCasing)) (State.init aliceWorkspace) revivingRun = some s ∧
      "carol".toList ∈ ids s.value ∧ ¬ NoLostUpdate asciiCasing aliceWorkspace s := by
  refine ⟨_, rfl, by decide, ?_⟩
  intro h
  obtain ⟨order, hperm, w, hreplay, heq⟩ := h.serial
  have hcarol : "carol".toList ∈ ids w.untimed := by rw [heq]; decide
  rcases List.perm_pair.mp hperm with rfl | rfl
  · obtain rfl := Option.some.inj (hreplay.symm.trans (by rfl))
    exact absurd hcarol (by decide)
  · obtain rfl := Option.some.inj (hreplay.symm.trans (by rfl))
    exact absurd hcarol (by decide)

/-! ## One stored call -/

/-- An address joins the record by an invitation only. -/
theorem invited_of_address_joins {w : Window WorkspaceMeta MetaOp} {a : Text}
    (hinv : Inv cs w.loaded) (h : w.op.writes cs w.loaded = some w.written)
    (hold : a ∉ addresses cs w.loaded) (hnew : a ∈ addresses cs w.written) :
    invitedAddress cs w = some a := by
  obtain ⟨op, loaded, written⟩ := w
  have hmoves := writes_moves hinv h
  cases op with
  | invite now invitedBy email =>
    obtain ⟨b, hb, -, -, hadd⟩ := hmoves
    rcases List.mem_cons.mp (hadd.mem_iff.mp hnew) with hab | hmem
    · rw [hab]; exact hb
    · exact absurd hmem hold
  | remove now key =>
    obtain ⟨e, -, -, hadd⟩ := hmoves
    exact absurd (hadd.mem_iff.mpr (List.mem_append_right _ hnew)) hold
  | transfer now newOwnerId => exact absurd (hmoves.2.mem_iff.mp hnew) hold
  | access now userId email =>
    obtain ⟨actor, -, -, -, hadd⟩ := hmoves
    exact absurd (hadd.mem_iff.mp hnew) hold
  | setState now state => exact absurd (hmoves.2 ▸ hnew) hold
  | rename now workspaceId newAlias ownerId otherNames => exact absurd (hmoves.2 ▸ hnew) hold

/-- An address leaves the record by a removal only. -/
theorem removed_of_address_leaves {w : Window WorkspaceMeta MetaOp} {a : Text}
    (hinv : Inv cs w.loaded) (h : w.op.writes cs w.loaded = some w.written)
    (hold : a ∈ addresses cs w.loaded) (hnew : a ∉ addresses cs w.written) :
    ∃ e, removedEntry cs w = some e ∧ e.email = some a := by
  obtain ⟨op, loaded, written⟩ := w
  have hmoves := writes_moves hinv h
  cases op with
  | invite now invitedBy email =>
    obtain ⟨b, -, -, -, hadd⟩ := hmoves
    exact absurd (hadd.mem_iff.mpr (List.mem_cons_of_mem _ hold)) hnew
  | remove now key =>
    obtain ⟨e, he, -, hadd⟩ := hmoves
    rcases List.mem_append.mp (hadd.mem_iff.mp hold) with hmem | hmem
    · refine ⟨e, ?_, Option.mem_toList.mp hmem⟩
      simp only [removedEntry]
      rw [normalizeMembers_of_normal hinv.normal]
      exact he
    · exact absurd hmem hnew
  | transfer now newOwnerId => exact absurd (hmoves.2.mem_iff.mpr hold) hnew
  | access now userId email =>
    obtain ⟨actor, -, -, -, hadd⟩ := hmoves
    exact absurd (hadd.mem_iff.mpr hold) hnew
  | setState now state => exact absurd (hmoves.2 ▸ hold) hnew
  | rename now workspaceId newAlias ownerId otherNames => exact absurd (hmoves.2 ▸ hold) hnew

/-- A user joins the record by a claim only. -/
theorem claimant_of_user_joins {w : Window WorkspaceMeta MetaOp} {u : Text}
    (hinv : Inv cs w.loaded) (h : w.op.writes cs w.loaded = some w.written)
    (hold : u ∉ ids w.loaded) (hnew : u ∈ ids w.written) : claimant w = some u := by
  obtain ⟨op, loaded, written⟩ := w
  have hmoves := writes_moves hinv h
  cases op with
  | invite now invitedBy email =>
    obtain ⟨b, -, -, hids, -⟩ := hmoves
    exact absurd (hids.mem_iff.mp hnew) hold
  | remove now key =>
    obtain ⟨e, -, hids, -⟩ := hmoves
    exact absurd (hids.mem_iff.mpr (List.mem_append_right _ hnew)) hold
  | transfer now newOwnerId => exact absurd (hmoves.1.mem_iff.mp hnew) hold
  | access now userId email =>
    obtain ⟨actor, hactor, -, hids, -⟩ := hmoves
    rcases List.mem_cons.mp (hids.mem_iff.mp hnew) with hu | hmem
    · rw [hu]; exact hactor
    · exact absurd hmem hold
  | setState now state => exact absurd (hmoves.1 ▸ hnew) hold
  | rename now workspaceId newAlias ownerId otherNames => exact absurd (hmoves.1 ▸ hnew) hold

/-- What a removal takes away is gone from the record it writes. -/
theorem removed_gone {w : Window WorkspaceMeta MetaOp} {e : Member}
    (hinv : Inv cs w.loaded) (h : w.op.writes cs w.loaded = some w.written)
    (he : removedEntry cs w = some e) :
    (∀ u, e.userId = some u → u ∉ ids w.written) ∧
      (∀ a, e.email = some a → a ∉ addresses cs w.written) := by
  obtain ⟨op, loaded, written⟩ := w
  have hmoves := writes_moves hinv h
  cases op with
  | remove now key =>
    obtain ⟨e', he', hids, hadd⟩ := hmoves
    simp only [removedEntry] at he
    rw [normalizeMembers_of_normal hinv.normal, he'] at he
    obtain rfl := Option.some.inj he
    have hi := List.nodup_append.mp (hids.nodup_iff.mp hinv.ids_nodup)
    have ha := List.nodup_append.mp (hadd.nodup_iff.mp hinv.addresses_nodup)
    constructor
    · intro u hu hmem
      exact hi.2.2 u (by rw [hu]; simp) u hmem rfl
    · intro a hmail hmem
      exact ha.2.2 a (by rw [hmail]; simp) a hmem rfl
  | invite now invitedBy email => cases he
  | transfer now newOwnerId => cases he
  | access now userId email => cases he
  | setState now state => cases he
  | rename now workspaceId newAlias ownerId otherNames => cases he

theorem invited_there {w : Window WorkspaceMeta MetaOp} {a : Text}
    (hinv : Inv cs w.loaded) (h : w.op.writes cs w.loaded = some w.written)
    (ha : invitedAddress cs w = some a) : a ∈ addresses cs w.written := by
  obtain ⟨op, loaded, written⟩ := w
  have hmoves := writes_moves hinv h
  cases op with
  | invite now invitedBy email =>
    obtain ⟨b, hb, -, -, hadd⟩ := hmoves
    simp only [invitedAddress] at ha
    rw [hb] at ha
    rw [← Option.some.inj ha]
    exact hadd.mem_iff.mpr List.mem_cons_self
  | remove now key => cases ha
  | transfer now newOwnerId => cases ha
  | access now userId email => cases ha
  | setState now state => cases ha
  | rename now workspaceId newAlias ownerId otherNames => cases ha

/-! ## Chains of stored calls -/

theorem chain_keeps {w w' : WorkspaceMeta} {ws : List (Window WorkspaceMeta MetaOp)}
    (h : Chain (metaCalls cs) w ws w') (hw : Inv cs w) : Inv cs w' :=
  h.inv (fun _ _ _ hwrites hv => hv.writes hwrites) hw

/-- One call in a chain, with the chain after it. -/
theorem chain_at {w w' : WorkspaceMeta} {before after : List (Window WorkspaceMeta MetaOp)}
    {c : Window WorkspaceMeta MetaOp} (hw : Inv cs w)
    (h : Chain (metaCalls cs) w (before ++ c :: after) w') :
    Inv cs c.loaded ∧ c.op.writes cs c.loaded = some c.written ∧
      Chain (metaCalls cs) c.written after w' := by
  obtain ⟨v, hbefore, hrest⟩ := h.split
  cases hrest with
  | cons written rest => exact ⟨chain_keeps hbefore hw, written, rest⟩

/-- What is true of a record and not of the one a chain ends in was undone by one of the
    chain's calls. -/
theorem chain_until {P : WorkspaceMeta → Prop} {Q : Window WorkspaceMeta MetaOp → Prop}
    (hstep : ∀ c : Window WorkspaceMeta MetaOp, Inv cs c.loaded →
      c.op.writes cs c.loaded = some c.written → P c.loaded → ¬ P c.written → Q c)
    {w w' : WorkspaceMeta} {ws : List (Window WorkspaceMeta MetaOp)} (hw : Inv cs w)
    (h : Chain (metaCalls cs) w ws w') (hP : P w) (hn : ¬ P w') : ∃ c ∈ ws, Q c := by
  have huntil := h.until (P := fun v => Inv cs v ∧ P v) (Q := Q) ?_ ⟨hw, hP⟩
  · rcases huntil with hv | hq
    · exact absurd hv.2 hn
    · exact hq
  · intro c hc ⟨hi, hp⟩
    by_cases hp' : P c.written
    · exact Or.inl ⟨hi.writes hc, hp'⟩
    · exact Or.inr (hstep c hi hc hp hp')

theorem noLostUpdate_of_chain {start : WorkspaceMeta} {s : State WorkspaceMeta MetaOp}
    (hstart : Inv cs start) (h : Chain (metaCalls cs) start s.stored s.value) :
    NoLostUpdate cs start s where
  serial := ⟨_, List.Perm.refl _, s.value, h.replay, rfl⟩
  removed_address := by
    intro before w after hs e a he ha hmem
    rw [hs] at h
    obtain ⟨hinv, hwrites, hrest⟩ := chain_at hstart h
    have hgone := (removed_gone hinv hwrites he).2 a ha
    refine chain_until (P := fun v => a ∉ addresses cs v) ?_ (hinv.writes hwrites) hrest hgone
      (not_not_intro hmem)
    intro c hi hc hold hnew
    exact invited_of_address_joins hi hc hold (not_not.mp hnew)
  removed_user := by
    intro before w after hs e u he hu hmem
    rw [hs] at h
    obtain ⟨hinv, hwrites, hrest⟩ := chain_at hstart h
    have hgone := (removed_gone hinv hwrites he).1 u hu
    refine chain_until (P := fun v => u ∉ ids v) ?_ (hinv.writes hwrites) hrest hgone
      (not_not_intro hmem)
    intro c hi hc hold hnew
    exact claimant_of_user_joins hi hc hold (not_not.mp hnew)
  invited := by
    intro before w after hs a ha hmem
    rw [hs] at h
    obtain ⟨hinv, hwrites, hrest⟩ := chain_at hstart h
    refine chain_until (P := fun v => a ∈ addresses cs v) ?_ (hinv.writes hwrites) hrest
      (invited_there hinv hwrites ha) hmem
    intro c hi hc hold hnew
    exact removed_of_address_leaves hi hc hold hnew

/-- **No accepted update is lost in an orderly run**, on any workspace the service can
    have: one that was created and then changed by any calls, made one at a time, before
    the concurrent ones begin. -/
theorem no_lost_update {workspaceId name : Text} {now : Stamp} {ownerId ownerEmail : Option Text}
    {earlier : List MetaOp} {acts : List (Act MetaOp)} {s : State WorkspaceMeta MetaOp}
    (hok : Along (step (metaCalls cs)) (Orderly (metaCalls cs))
      (State.init (earlier.foldl (MetaOp.apply cs)
        (createMeta workspaceId name now ownerId ownerEmail))) acts)
    (hrun : run (step (metaCalls cs)) (State.init (earlier.foldl (MetaOp.apply cs)
      (createMeta workspaceId name now ownerId ownerEmail))) acts = some s) :
    NoLostUpdate cs (earlier.foldl (MetaOp.apply cs)
      (createMeta workspaceId name now ownerId ownerEmail)) s :=
  noLostUpdate_of_chain ((Inv.create cs _ _ _ _ _).applyAll earlier)
    (chain_of_orderly hok hrun)

/-- Bob's claim and a change of state, each stored over the record it loaded. -/
def orderlyRun : List (Act MetaOp) :=
  [ .load 0 (.access exampleNow (some "bob") (some "bob@example.org")),
    .store 0,
    .load 1 (.remove exampleNow "carol"),
    .store 1,
    .load 2 (.setState exampleNow "Deployed"),
    .store 2 ]

theorem no_lost_update_orderlyRun :
    ∃ s, run (step (metaCalls asciiCasing)) (State.init aliceWorkspace) orderlyRun = some s ∧
      NoLostUpdate asciiCasing aliceWorkspace s := by
  have hok : Along (step (metaCalls asciiCasing)) (Orderly (metaCalls asciiCasing))
      (State.init aliceWorkspace) orderlyRun := by decide
  exact ⟨_, rfl, no_lost_update hok rfl⟩

end Infinito.Rbac
