import Infinito.Rbac.Concurrent

/-!
# The workspace routes: who may do what

A route first asks `ensure_workspace_access`, which may claim an invitation on the way;
the three membership routes then ask `_require_workspace_owner`, which loads the record a
second time and compares its owner; only then does the service function run, with a load
and a write of its own. Nothing ties these steps together, so the routes are modelled here
as requests that advance one step at a time (`Phase`), with any number of them under way.

`delete_workspace` is the route that never asks for the owner: any member may delete
(`member_deletes`). For the other routes the check is made, but in an earlier state than the
one the change is applied in, so it holds as long as ownership does not move in between.
`owner_only` is that statement: the four operations change an owned workspace only for its
owner, in every run in which deletions come from the owner and no step hands the workspace
to another owner while a checked request is still under way.
-/

set_option autoImplicit false

namespace Infinito.Rbac

open Py Lib

/-! ## Requests -/

/-- A route under `/api/workspaces/{id}`. `visit` is any that only needs access. -/
inductive Endpoint where
  | invite (email : Text)
  | remove (memberKey : Text)
  | transfer (newOwnerId : Text)
  | delete
  | setState (state : Text)
  | rename (workspaceId newAlias : Text) (otherNames : List Text)
  | visit
  deriving DecidableEq

/-- What `resolve_auth_context` read from the headers, and the route called. -/
structure Request where
  userId : Option Text
  email : Option Text
  endpoint : Endpoint
  deriving DecidableEq

/-- The operations the authorization matrix reserves to the owner. -/
def Endpoint.ownerOperation : Endpoint → Bool
  | .invite _ | .remove _ | .transfer _ | .delete => true
  | .setState _ | .rename _ _ _ | .visit => false

/-- The routes that call `_require_workspace_owner`; the others call `_require_workspace`. -/
def Endpoint.asksForOwner : Endpoint → Bool
  | .invite _ | .remove _ | .transfer _ => true
  | .delete | .setState _ | .rename _ _ _ | .visit => false

def ownerOnlyOperation : HttpError := ⟨403, "owner-only operation"⟩

/-- The part of `_require_workspace_owner` that follows the access check. -/
def requireWorkspaceOwner (w : WorkspaceMeta) (userId : Option Text) : Except HttpError Text :=
  match stripOrNone userId with
  | none => .error ownerOnlyOperation
  | some actor =>
      if some actor ≠ stripOrNone w.ownerId then .error ownerOnlyOperation else .ok actor

/-- The service call of the route; `delete` and `visit` write no record. -/
def Request.op (now : Stamp) (r : Request) : Option MetaOp :=
  match r.endpoint with
  | .invite email => some (.invite now ((stripOrNone r.userId).getD []) email)
  | .remove key => some (.remove now key)
  | .transfer target => some (.transfer now target)
  | .setState state => some (.setState now state)
  | .rename workspaceId newAlias others => some (.rename now workspaceId newAlias r.userId others)
  | .delete | .visit => none

/-! ## The system -/

/-- How far a request has come. -/
inductive Phase where
  /-- received -/
  | arrived
  /-- the access check found an invitation to claim, and is about to write the record -/
  | claiming (written : WorkspaceMeta)
  /-- past the access check -/
  | admitted
  /-- past whatever check the route makes -/
  | authorised
  /-- the service function has loaded the record, and is about to write -/
  | writing (locked : Bool) (written : WorkspaceMeta)
  deriving DecidableEq

/-- Whether the request has passed every check it will ever be put to. -/
def Phase.checked : Phase → Bool
  | .authorised | .writing _ _ => true
  | .arrived | .claiming _ | .admitted => false

/-- A change made to the workspace, with the owner it had just before. -/
structure Change where
  request : Request
  ownerThen : Option Text
  deriving DecidableEq

/-- `file = none` when there is no such workspace (any more). -/
structure Service where
  file : Option WorkspaceMeta
  requests : List (Nat × Request × Phase)
  holder : Option Nat
  changes : List Change

def ownerOf (file : Option WorkspaceMeta) : Option Text := file.bind (stripOrNone ·.ownerId)

inductive Event where
  | arrive (id : Nat) (request : Request)
  | advance (id : Nat) (now : Stamp)

def Service.others (s : Service) (id : Nat) : List (Nat × Request × Phase) :=
  s.requests.filter (fun e => e.1 ≠ id)

def Service.goto (s : Service) (id : Nat) (r : Request) (phase : Phase) : Service :=
  { s with requests := (id, r, phase) :: s.others id }

/-- The request is answered, with whatever status. -/
def Service.answer (s : Service) (id : Nat) : Service := { s with requests := s.others id }

def Service.record (s : Service) (r : Request) : Service :=
  { s with changes := s.changes ++ [⟨r, ownerOf s.file⟩] }

section
variable (cs : Casing)

/-- One step of a request, over the workspace as it is now. `ensure` answers 404 at each
    load of a workspace that is gone; a write makes the directory anew. -/
def Service.advance (s : Service) (id : Nat) (now : Stamp) (r : Request) :
    Phase → Option Service
  | .arrived =>
      match s.file with
      | none => some (s.answer id)
      | some w => match assertWorkspaceAccess cs now w r.userId r.email with
        | .error _ => some (s.answer id)
        | .ok .granted => some (s.goto id r .admitted)
        | .ok (.claimed w') => some (s.goto id r (.claiming w'))
  | .claiming w' => some ({ s with file := some w' }.goto id r .admitted)
  | .admitted =>
      if r.endpoint.asksForOwner then
        match s.file with
        | none => some (s.answer id)
        | some w => match requireWorkspaceOwner w r.userId with
          | .error _ => some (s.answer id)
          | .ok _ => some (s.goto id r .authorised)
      else some (s.goto id r .authorised)
  | .authorised =>
      match s.file with
      | none => some (s.answer id)
      | some w => match r.op now with
        | some op =>
            if op.locks ∧ s.holder ≠ none then none
            else match op.writes cs w with
              | none => some (s.answer id)
              | some w' => some ({ s with
                  holder := if op.locks then some id else s.holder }.goto id r
                    (.writing op.locks w'))
        | none =>
            if r.endpoint = .delete then some ({ s.record r with file := none }.answer id)
            else some (s.answer id)
  | .writing locked w' =>
      some ({ s.record r with
        file := some w'
        holder := if locked then none else s.holder }.answer id)

def Service.step (s : Service) : Event → Option Service
  | .arrive id r =>
      if s.requests.lookup id = none then some (s.goto id r .arrived) else none
  | .advance id now =>
      match s.requests.lookup id with
      | none => none
      | some (r, phase) => s.advance cs id now r phase

end

/-- The workspace just after it was created, nobody asking for anything. -/
def Service.init (w : WorkspaceMeta) : Service := ⟨some w, [], none, []⟩

/-! ## The property, and the runs it holds in -/

/-- Every change an owner-only operation made to an owned workspace was made by its owner. -/
def OwnerOnly (s : Service) : Prop :=
  ∀ c ∈ s.changes, c.request.endpoint.ownerOperation = true →
    ∀ owner, c.ownerThen = some owner → stripOrNone c.request.userId = some owner

/-- Nobody else is past the checks of an owner-only operation. -/
def Service.noneChecked (s : Service) (id : Nat) : Prop :=
  ∀ e ∈ s.others id, e.2.1.endpoint.ownerOperation = true → e.2.2.checked = false

instance (s : Service) (id : Nat) : Decidable (s.noneChecked id) :=
  inferInstanceAs (Decidable (∀ e ∈ s.others id,
    e.2.1.endpoint.ownerOperation = true → e.2.2.checked = false))

/-- What one step of a request must not do: let a deletion through that is not the owner's,
    or give the workspace another owner while a checked request is under way. -/
def Service.guards (s : Service) (id : Nat) (r : Request) : Phase → Prop
  | .admitted => r.endpoint = .delete → stripOrNone r.userId = ownerOf s.file
  | .claiming w' => ownerOf (some w') = ownerOf s.file ∨ s.noneChecked id
  | .writing _ w' => ownerOf (some w') = ownerOf s.file ∨ s.noneChecked id
  | .arrived | .authorised => True

instance (s : Service) (id : Nat) (r : Request) : (phase : Phase) → Decidable (s.guards id r phase)
  | .admitted => inferInstanceAs (Decidable (_ → _ = _))
  | .claiming _ => inferInstanceAs (Decidable (_ = _ ∨ _))
  | .writing _ _ => inferInstanceAs (Decidable (_ = _ ∨ _))
  | .arrived | .authorised => isTrue trivial

def Guarded (s : Service) : Event → Prop
  | .arrive _ _ => True
  | .advance id _ => ∀ r phase, s.requests.lookup id = some (r, phase) → s.guards id r phase

instance (s : Service) : (event : Event) → Decidable (Guarded s event)
  | .arrive _ _ => isTrue trivial
  | .advance id _ =>
    match h : s.requests.lookup id with
    | none => isTrue (by intro r phase hr; rw [h] at hr; cases hr)
    | some (r, phase) => decidable_of_iff (s.guards id r phase) (by simp [Guarded, h])

/-! ## The defect -/

/-- Carol, a member and not the owner, asks for the workspace to be deleted. -/
def memberDeletes : List Event :=
  [ .arrive 0 ⟨some "carol", some "carol@example.org", .delete⟩,
    .advance 0 exampleNow, .advance 0 exampleNow, .advance 0 exampleNow ]

/-- **It is.** -/
theorem member_deletes :
    ∃ s, run (Service.step asciiCasing) (Service.init aliceWorkspace) memberDeletes = some s ∧
      s.file = none ∧ ¬ OwnerOnly s := by
  refine ⟨_, rfl, rfl, ?_⟩
  intro h
  exact absurd (h _ List.mem_cons_self rfl _ rfl) (by decide)

/-! ## The invariant -/

/-- A request past its checks, if it is for an owner-only operation, is the owner's. -/
def CheckedBy (file : Option WorkspaceMeta) (e : Nat × Request × Phase) : Prop :=
  e.2.1.endpoint.ownerOperation = true → e.2.2.checked = true →
    ∀ owner, ownerOf file = some owner → stripOrNone e.2.1.userId = some owner

structure Sound (s : Service) : Prop where
  checked : ∀ e ∈ s.requests, CheckedBy s.file e
  changes : OwnerOnly s

variable {cs : Casing}

theorem Service.mem_of_others {s : Service} {id : Nat} {e : Nat × Request × Phase}
    (h : e ∈ s.others id) : e ∈ s.requests := (List.mem_filter.mp h).1

theorem Service.mem_of_lookup {s : Service} {id : Nat} {r : Request} {phase : Phase}
    (h : s.requests.lookup id = some (r, phase)) : (id, r, phase) ∈ s.requests := by
  obtain ⟨l₁, l₂, hl, -⟩ := List.lookup_eq_some_iff.mp h
  rw [hl]
  exact List.mem_append_right _ List.mem_cons_self

/-- The owner check lets through the owner the record names at that moment. -/
theorem requireWorkspaceOwner_ok {w : WorkspaceMeta} {userId : Option Text} {actor : Text}
    (h : requireWorkspaceOwner w userId = .ok actor) :
    stripOrNone userId = some actor ∧ ownerOf (some w) = some actor := by
  unfold requireWorkspaceOwner at h
  split at h
  · cases h
  · rename_i a ha
    split at h
    · cases h
    · rename_i hown
      cases h
      exact ⟨ha, (not_not.mp hown).symm⟩

/-- A write leaves the checked requests in order if it keeps the owner, or if there are none. -/
theorem Sound.others_checked {s : Service} {id : Nat} {file : Option WorkspaceMeta}
    (hs : Sound s) (h : ownerOf file = ownerOf s.file ∨ s.noneChecked id) :
    ∀ e ∈ s.others id, CheckedBy file e := by
  intro e he hop hchecked owner howner
  rcases h with hsame | hnone
  · rw [hsame] at howner
    exact hs.checked e (s.mem_of_others he) hop hchecked owner howner
  · rw [hnone e he hop] at hchecked
    cases hchecked

theorem Sound.answer {s : Service} {id : Nat} (hs : Sound s) : Sound (s.answer id) where
  checked := fun e he => hs.checked e (s.mem_of_others he)
  changes := hs.changes

theorem Sound.goto {s : Service} {id : Nat} {r : Request} {phase : Phase} (hs : Sound s)
    (hnew : CheckedBy s.file (id, r, phase)) : Sound (s.goto id r phase) where
  checked := by
    intro e he
    rcases List.mem_cons.mp he with rfl | he
    · exact hnew
    · exact hs.checked e (s.mem_of_others he)
  changes := hs.changes

/-- A request that is not past its checks owes nothing. -/
theorem checkedBy_of_unchecked {file : Option WorkspaceMeta} {id : Nat} {r : Request}
    {phase : Phase} (h : phase.checked = false) : CheckedBy file (id, r, phase) := by
  intro _ hchecked
  rw [h] at hchecked
  cases hchecked

theorem OwnerOnly.record {s : Service} {r : Request} (hs : OwnerOnly s)
    (hr : r.endpoint.ownerOperation = true →
      ∀ owner, ownerOf s.file = some owner → stripOrNone r.userId = some owner) :
    OwnerOnly (s.record r) := by
  intro c hc hop
  rcases List.mem_append.mp hc with hc | hc
  · exact hs c hc hop
  · rw [List.mem_singleton.mp hc] at hop ⊢
    exact hr hop

/-- One request, one step further. -/
theorem Sound.advance {s s' : Service} {id : Nat} {now : Stamp} {r : Request} {phase : Phase}
    (hs : Sound s) (hmem : s.requests.lookup id = some (r, phase))
    (hok : Guarded s (.advance id now)) (h : s.advance cs id now r phase = some s') :
    Sound s' := by
  have hself := hs.checked _ (s.mem_of_lookup hmem)
  have hguard := hok r phase hmem
  cases phase with
  | arrived =>
    simp only [Service.advance] at h
    split at h
    · rw [← Option.some.inj h]; exact hs.answer
    split at h
    · rw [← Option.some.inj h]; exact hs.answer
    · rw [← Option.some.inj h]; exact hs.goto (checkedBy_of_unchecked rfl)
    · rw [← Option.some.inj h]; exact hs.goto (checkedBy_of_unchecked rfl)
  | claiming w' =>
    simp only [Service.advance] at h
    rw [← Option.some.inj h]
    -- the claim is written over the workspace: the guard keeps the others' checks valid
    refine ⟨?_, hs.changes⟩
    intro e he
    rcases List.mem_cons.mp he with rfl | he
    · exact checkedBy_of_unchecked rfl
    · exact hs.others_checked hguard e he
  | admitted =>
    simp only [Service.advance] at h
    split at h
    · split at h
      · rw [← Option.some.inj h]; exact hs.answer
      rename_i w hw
      split at h
      · rw [← Option.some.inj h]; exact hs.answer
      rename_i actor hactor
      rw [← Option.some.inj h]
      refine hs.goto ?_
      intro _ _ owner howner
      obtain ⟨hid, hown⟩ := requireWorkspaceOwner_ok hactor
      rw [hw, hown] at howner
      rw [hid, howner]
    · rename_i hasks
      rw [← Option.some.inj h]
      refine hs.goto ?_
      intro hop _ owner howner
      -- of the owner-only operations only a deletion gets here unasked
      have hdelete : r.endpoint = .delete := by
        dsimp only at hop
        cases he : r.endpoint <;> simp [he, Endpoint.asksForOwner, Endpoint.ownerOperation] at *
      rw [hguard hdelete, howner]
  | authorised =>
    simp only [Service.advance] at h
    split at h
    · rw [← Option.some.inj h]; exact hs.answer
    rename_i w hw
    split at h
    · split at h
      · cases h
      split at h
      · rw [← Option.some.inj h]; exact hs.answer
      rw [← Option.some.inj h]
      have hs' : ∀ holder, Sound { s with holder := holder } :=
        fun _ => ⟨hs.checked, hs.changes⟩
      refine Sound.goto (hs' _) ?_
      exact fun hop _ => hself hop rfl
    · split at h
      · rw [← Option.some.inj h]
        refine ⟨?_, ?_⟩
        · intro e he hop hchecked owner howner
          cases howner
        · exact hs.changes.record fun hop => hself hop rfl
      · rw [← Option.some.inj h]; exact hs.answer
  | writing locked w' =>
    simp only [Service.advance] at h
    rw [← Option.some.inj h]
    refine ⟨?_, ?_⟩
    · intro e he
      exact hs.others_checked hguard e he
    · exact hs.changes.record fun hop => hself hop rfl

theorem Sound.step {s s' : Service} {event : Event} (hs : Sound s) (hok : Guarded s event)
    (h : s.step cs event = some s') : Sound s' := by
  cases event with
  | arrive id r =>
    simp only [Service.step] at h
    split at h
    · rw [← Option.some.inj h]; exact hs.goto (checkedBy_of_unchecked rfl)
    · cases h
  | advance id now =>
    simp only [Service.step] at h
    split at h
    · cases h
    · rename_i r phase hmem
      exact hs.advance hmem hok h

/-- **Owner-only operations are owner-only** in every guarded run, from any record. -/
theorem owner_only {w : WorkspaceMeta} {events : List Event} {s : Service}
    (hok : Along (Service.step cs) Guarded (Service.init w) events)
    (hrun : run (Service.step cs) (Service.init w) events = some s) : OwnerOnly s := by
  have hinit : Sound (Service.init w) := by
    refine ⟨?_, ?_⟩
    · intro e he; cases he
    · intro c hc; cases hc
  have hs : Sound s := run_inv_along (fun _ _ _ hs ha h => Sound.step hs ha h) hinit hok hrun
  exact hs.changes

/-- Alice removes Carol and hands the workspace to Bob, who then deletes it. -/
def guardedRun : List Event :=
  [ .arrive 0 ⟨some "bob", some "bob@example.org", .visit⟩,
    .advance 0 exampleNow, .advance 0 exampleNow,
    .arrive 1 ⟨some "alice", none, .remove "carol"⟩,
    .advance 1 exampleNow, .advance 1 exampleNow, .advance 1 exampleNow, .advance 1 exampleNow,
    .arrive 2 ⟨some "alice", none, .transfer "bob"⟩,
    .advance 2 exampleNow, .advance 2 exampleNow, .advance 2 exampleNow, .advance 2 exampleNow,
    .arrive 3 ⟨some "bob", none, .delete⟩,
    .advance 3 exampleNow, .advance 3 exampleNow, .advance 3 exampleNow ]

theorem owner_only_guardedRun :
    ∃ s, run (Service.step asciiCasing) (Service.init aliceWorkspace) guardedRun = some s ∧
      s.file = none ∧ OwnerOnly s := by
  have hok : Along (Service.step asciiCasing) Guarded (Service.init aliceWorkspace) guardedRun := by
    decide
  exact ⟨_, rfl, rfl, owner_only hok rfl⟩

end Infinito.Rbac
