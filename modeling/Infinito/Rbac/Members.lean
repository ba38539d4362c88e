import Infinito.Lib.Result
import Infinito.Py.Text

/-!
# `workspace.json`: owner, members, pending invitations

A workspace has no database row. Who may enter it is decided by one JSON file, which
`assert_workspace_access`, `invite_member`, `remove_member` and `transfer_ownership`
(`mixins/rbac.py`) and `set_workspace_state` and `rename_workspace_alias`
(`mixins/management.py`) each load whole, change and write back whole. This file is
those six functions over the record, under the source's names.

Two readings of the record are kept apart, as in the source: the *raw* record is what
lies on disk, and `metaWithMembers` is what the membership functions see, members
normalised entry by entry. `set_workspace_state` and `rename_workspace_alias` work on the
raw one.

A function that writes returns the record it writes. `assert_workspace_access` is the
odd one: it only reads, unless the caller's address matches a pending invitation, and
then the read is a write (`Access.claimed`).
-/

namespace Infinito.Rbac

open Py

/-- What `_now_iso` returns: some text, and never the empty one. -/
structure Stamp where
  text : Text
  nonempty : text ≠ []
  deriving DecidableEq

/-- An entry of `members`. `userId = none` is a pending invitation. -/
structure Member where
  userId : Option Text
  email : Option Text
  joinedAt : Option Text
  invitedAt : Option Text
  invitedBy : Option Text
  deriving DecidableEq

/-- `workspace.json`. A key that is absent and a key that holds `null` are read alike
    everywhere, so both are `none`; `other` holds the keys none of the six looks at (the
    inventory's and the deployment's), which they write back as they found them. -/
structure WorkspaceMeta where
  workspaceId : Option Text
  name : Option Text
  createdAt : Option Text
  other : List (Text × Text)
  ownerId : Option Text
  ownerEmail : Option Text
  members : List Member
  state : Option Text
  updatedAt : Option Text
  deriving DecidableEq

/-- What `_load_meta` answers when there is no file to read. -/
def WorkspaceMeta.empty : WorkspaceMeta :=
  { workspaceId := none, name := none, createdAt := none, other := [], ownerId := none
    ownerEmail := none, members := [], state := none, updatedAt := none }

section
variable (cs : Casing)

/-! ## Normalisation -/

def normalizeEmail : Option Text → Option Text
  | none => none
  | some email => if email = [] then none else orNone (cs.lower (strip email))

/-- One round of the loop in `_normalize_members`; an entry with neither id nor address
    is dropped. -/
def normalizeMember (entry : Member) : Option Member :=
  let userId := stripOrNone entry.userId
  let email := normalizeEmail cs entry.email
  if userId = none ∧ email = none then none
  else some
    { userId := userId
      email := email
      joinedAt := truthy entry.joinedAt
      invitedAt := truthy entry.invitedAt
      invitedBy := truthy entry.invitedBy }

def normalizeMembers (raw : List Member) : List Member := raw.filterMap (normalizeMember cs)

def metaWithMembers (raw : WorkspaceMeta) : WorkspaceMeta :=
  { raw with members := normalizeMembers cs raw.members }

/-! ## `create`: the record a workspace starts with -/

def createMeta (workspaceId name : Text) (now : Stamp) (ownerId ownerEmail : Option Text) : WorkspaceMeta :=
  { workspaceId := some workspaceId
    name := some name
    createdAt := some now.text
    other := [("inventory_generated_at", "null"), ("infinito_nexus_version", "\"latest\""),
      ("selected_roles", "[]"), ("host", "null"), ("user", "null"), ("auth_method", "null")]
    ownerId := stripOrNone ownerId
    ownerEmail := stripOrNone ownerEmail
    members := []
    state := some "draft".toList
    updatedAt := some now.text }

/-! ## Access, and the claim it may make -/

/-- What `assert_workspace_access` did besides letting the caller in. -/
inductive Access where
  | granted
  | claimed (written : WorkspaceMeta)
  deriving DecidableEq

/-- The first pending entry under `email` becomes `actor`'s. -/
def claimPending (now : Stamp) (actor email : Text) : List Member → Option (List Member)
  | [] => none
  | entry :: rest =>
      if entry.userId = none ∧ entry.email = some email then
        some ({ entry with
          userId := some actor, joinedAt := some now.text, invitedAt := truthy entry.invitedAt } :: rest)
      else (claimPending now actor email rest).map (entry :: ·)

def workspaceNotFound : HttpError := ⟨404, "workspace not found"⟩

def assertWorkspaceAccess (now : Stamp) (raw : WorkspaceMeta) (userId email : Option Text) :
    Except HttpError Access :=
  let doc := metaWithMembers cs raw
  let actorEmail := normalizeEmail cs email
  match stripOrNone doc.ownerId, stripOrNone userId with
  | none, some _ => .error workspaceNotFound
  | none, none => .ok .granted
  | some _, none => .error workspaceNotFound
  | some ownerId, some actorId =>
      if actorId = ownerId then .ok .granted
      else if ∃ entry ∈ doc.members, entry.userId = some actorId then .ok .granted
      else match actorEmail with
        | none => .error workspaceNotFound
        | some address =>
            match claimPending now actorId address doc.members with
            | none => .error workspaceNotFound
            | some members =>
                .ok (.claimed { doc with members := members, updatedAt := some now.text })

/-! ## The owner's three operations -/

def inviteMember (now : Stamp) (raw : WorkspaceMeta) (invitedBy email : Text) :
    Except HttpError WorkspaceMeta :=
  match normalizeEmail cs (some email) with
  | none => .error ⟨400, "email required"⟩
  | some normalized =>
      let doc := metaWithMembers cs raw
      if normalizeEmail cs doc.ownerEmail = some normalized then
        .error ⟨409, "email already used by owner"⟩
      else if ∃ entry ∈ doc.members, entry.email = some normalized then
        .error ⟨409, "email already invited"⟩
      else
        let newEntry : Member :=
          { userId := none
            email := some normalized
            joinedAt := none
            invitedAt := some now.text
            invitedBy := orNone invitedBy }
        .ok { doc with members := doc.members ++ [newEntry], updatedAt := some now.text }

/-- The test `remove_member` makes on an entry: by id, or by address. -/
def matchesKey (target : Text) (targetEmail : Option Text) (entry : Member) : Bool :=
  entry.userId = some target || (targetEmail ≠ none && entry.email = targetEmail)

def removeMember (now : Stamp) (raw : WorkspaceMeta) (key : Text) :
    Except HttpError WorkspaceMeta :=
  let target := strip key
  if target = [] then .error ⟨400, "member key required"⟩
  else
    let targetEmail := normalizeEmail cs (some target)
    let doc := metaWithMembers cs raw
    let ownerId := stripOrNone doc.ownerId
    let ownerEmail := normalizeEmail cs doc.ownerEmail
    if ownerId = some target then .error ⟨400, "cannot remove the workspace owner"⟩
    else if ownerEmail ≠ none ∧ targetEmail = ownerEmail then
      .error ⟨400, "cannot remove the workspace owner"⟩
    else if doc.members.any (matchesKey target targetEmail) then
      .ok { doc with
        members := doc.members.eraseP (matchesKey target targetEmail), updatedAt := some now.text }
    else .error ⟨404, "member not found"⟩

def transferOwnership (now : Stamp) (raw : WorkspaceMeta) (newOwnerId : Text) :
    Except HttpError WorkspaceMeta :=
  let target := strip newOwnerId
  if target = [] then .error ⟨400, "new_owner_id required"⟩
  else
    let doc := metaWithMembers cs raw
    let currentEmail := normalizeEmail cs doc.ownerEmail
    match stripOrNone doc.ownerId with
    | none => .error ⟨400, "workspace has no owner"⟩
    | some currentOwner =>
        if currentOwner = target then .error ⟨409, "user is already the owner"⟩
        else match doc.members.find? (fun entry => entry.userId = some target) with
          | none => .error ⟨400, "new_owner_id is not a claimed member"⟩
          | some promoted =>
              let remaining := doc.members.eraseP (fun entry => entry.userId = some target)
              let demoted : Member :=
                { userId := some currentOwner
                  email := currentEmail
                  joinedAt := some now.text
                  invitedAt := none
                  invitedBy := none }
              .ok { doc with
                ownerId := some target
                ownerEmail := promoted.email
                members := remaining ++ [demoted]
                updatedAt := some now.text }

/-! ## The two writers that never look at the members -/

def sanitizeWorkspaceState (raw : Text) : Text :=
  let state := cs.lower (strip raw)
  if state = "draft".toList ∨ state = "deployed".toList ∨ state = "finished".toList then state
  else "draft"

def setWorkspaceState (now : Stamp) (raw : WorkspaceMeta) (state : Text) : WorkspaceMeta :=
  { raw with state := some (sanitizeWorkspaceState cs state), updatedAt := some now.text }

/-- `otherNames` are the names `list_for_user(owner_id)` shows for the caller's other
    workspaces: `_ensure_alias_unique` reads them from the other directories. -/
def ensureAliasUnique (ownerId : Option Text) (newAlias : Text) (otherNames : List Text) :
    Except HttpError Unit :=
  if stripOrNone ownerId ≠ none ∧ ∃ name ∈ otherNames, strip name = newAlias then
    .error ⟨409, "alias '" ++ String.ofList newAlias ++
      "' is already used by another workspace; pick a different one"⟩
  else .ok ()

def renameWorkspaceAlias (now : Stamp) (raw : WorkspaceMeta) (workspaceId newAlias : Text)
    (ownerId : Option Text) (otherNames : List Text) : Except HttpError WorkspaceMeta :=
  let cleaned := strip newAlias
  if cleaned = [] then .ok { raw with name := some workspaceId, updatedAt := some now.text }
  else do
    ensureAliasUnique ownerId cleaned otherNames
    .ok { raw with name := some cleaned, updatedAt := some now.text }

/-! ## The six as one type -/

/-- A call that may write `workspace.json`; `now` is the time it stamps. -/
inductive MetaOp where
  | invite (now : Stamp) (invitedBy email : Text)
  | remove (now : Stamp) (key : Text)
  | transfer (now : Stamp) (newOwnerId : Text)
  | access (now : Stamp) (userId email : Option Text)
  | setState (now : Stamp) (state : Text)
  | rename (now : Stamp) (workspaceId newAlias : Text) (ownerId : Option Text) (otherNames : List Text)

/-- What the call writes when it finds `raw` on disk; `none` when it raises or only reads. -/
def MetaOp.writes (raw : WorkspaceMeta) : MetaOp → Option WorkspaceMeta
  | .invite now by' email => (inviteMember cs now raw by' email).toOption
  | .remove now key => (removeMember cs now raw key).toOption
  | .transfer now target => (transferOwnership cs now raw target).toOption
  | .access now userId email =>
      match assertWorkspaceAccess cs now raw userId email with
      | .ok (.claimed written) => some written
      | _ => none
  | .setState now state => some (setWorkspaceState cs now raw state)
  | .rename now workspaceId newAlias ownerId others =>
      (renameWorkspaceAlias now raw workspaceId newAlias ownerId others).toOption

/-- The file after the call, made alone. -/
def MetaOp.apply (raw : WorkspaceMeta) (op : MetaOp) : WorkspaceMeta :=
  (op.writes cs raw).getD raw

end

/-! ## Small facts about the normalisation -/

section
variable {cs : Casing}

theorem normalizeEmail_eq_some {x : Option Text} {a : Text} :
    normalizeEmail cs x = some a ↔ ∃ e, x = some e ∧ e ≠ [] ∧ cs.lower (strip e) = a ∧ a ≠ [] := by
  cases x with
  | none => simp [normalizeEmail]
  | some e =>
    by_cases he : e = []
    · simp [normalizeEmail, he]
    · simp [normalizeEmail, he, orNone_eq_some]


/-- Normalising twice is normalising once: this is where the three facts about `lower`
    are spent. -/
@[simp] theorem normalizeEmail_idem (x : Option Text) :
    normalizeEmail cs (normalizeEmail cs x) = normalizeEmail cs x := by
  cases h : normalizeEmail cs x with
  | none => rfl
  | some a =>
    obtain ⟨e, -, -, ha, hne⟩ := normalizeEmail_eq_some.mp h
    refine normalizeEmail_eq_some.mpr ⟨a, rfl, hne, ?_, hne⟩
    rw [← ha, cs.strip_lower_strip, cs.lower_lower]

theorem normalizeEmail_of_eq_some {x : Option Text} {a : Text} (h : normalizeEmail cs x = some a) :
    normalizeEmail cs (some a) = some a := by
  rw [← h]
  exact normalizeEmail_idem x

@[simp] theorem Stamp.truthy (now : Stamp) : truthy (some now.text) = some now.text :=
  orNone_of_ne now.nonempty

/-- An entry the normaliser leaves as it is. -/
def Member.Normal (cs : Casing) (e : Member) : Prop := normalizeMember cs e = some e

theorem Member.normal_iff {e : Member} : e.Normal cs ↔
    stripOrNone e.userId = e.userId ∧ normalizeEmail cs e.email = e.email ∧
      truthy e.joinedAt = e.joinedAt ∧ truthy e.invitedAt = e.invitedAt ∧
      truthy e.invitedBy = e.invitedBy ∧ ¬ (e.userId = none ∧ e.email = none) := by
  obtain ⟨u, a, j, i, b⟩ := e
  unfold Member.Normal normalizeMember
  constructor
  · intro h
    dsimp only at h ⊢
    split at h
    · cases h
    · rename_i hne
      simp only [Option.some.injEq, Member.mk.injEq] at h
      obtain ⟨h1, h2, h3, h4, h5⟩ := h
      rw [h1, h2] at hne
      exact ⟨h1, h2, h3, h4, h5, hne⟩
  · rintro ⟨h1, h2, h3, h4, h5, hne⟩
    dsimp only at h1 h2 h3 h4 h5 hne ⊢
    rw [h1, h2, h3, h4, h5, if_neg hne]

theorem normal_of_normalizeMember {e e' : Member} (h : normalizeMember cs e = some e') :
    e'.Normal cs := by
  unfold normalizeMember at h
  dsimp only at h
  split at h
  · cases h
  · rename_i hne
    simp only [Option.some.injEq] at h
    subst h
    exact Member.normal_iff.mpr ⟨stripOrNone_idem _, normalizeEmail_idem _, truthy_idem _,
      truthy_idem _, truthy_idem _, hne⟩

theorem mem_normalizeMembers {raw : List Member} {e : Member}
    (h : e ∈ normalizeMembers cs raw) : e.Normal cs := by
  obtain ⟨e', _, he⟩ := List.mem_filterMap.mp h
  exact normal_of_normalizeMember he

theorem normalizeMembers_of_normal {l : List Member} (h : ∀ e ∈ l, e.Normal cs) :
    normalizeMembers cs l = l := by
  induction l with
  | nil => rfl
  | cons e es ih =>
    have he : normalizeMember cs e = some e := h e List.mem_cons_self
    unfold normalizeMembers at ih ⊢
    rw [List.filterMap_cons_some he, ih fun e' he' => h e' (List.mem_cons_of_mem _ he')]

end

end Infinito.Rbac
