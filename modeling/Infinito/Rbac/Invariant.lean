import Infinito.Lib.Lists
import Infinito.Rbac.Members

/-!
# The membership data model, kept by every writer

The requirements list five rules the service layer is to enforce: one owner, who is not a
member; no user twice; a pending entry has an address and no id; no address twice across
owner, members and invitations. Each of the writers rewrites the record differently and
none of them checks the rules, so this file finds what they have in common.

Two lists carry it. `ids` are the user ids on the record, the owner's among them, and
`addresses` its normalised e-mail addresses, the owner's among them. With the owner
counted in, the rules about ids say that `ids` has no duplicate, and the rule about
addresses says the same of `addresses`. What a writer does to the two lists is then small
(`MetaOp.Moves`): an invitation adds an address, a claim adds an id, a removal takes one
entry's keys away, and a transfer of ownership — the one operation that rewrites owner and
members together — only permutes both.
-/

namespace Infinito.Rbac

open Py Lib

variable {cs : Casing}

/-! ## The rules -/

/-- The user ids on the record, the owner's first. -/
def ids (w : WorkspaceMeta) : List Text :=
  (w.ownerId :: w.members.map (·.userId)).filterMap id

/-- The normalised addresses on the record, the owner's first. -/
def addresses (cs : Casing) (w : WorkspaceMeta) : List Text :=
  (w.ownerEmail :: w.members.map (·.email)).filterMap (normalizeEmail cs)

/-- The rules of the data model, read off the record as it lies on disk. -/
structure MembershipOk (cs : Casing) (w : WorkspaceMeta) : Prop where
  owner : ∃ o, w.ownerId = some o ∧ o ≠ []
  owner_not_member : ∀ e ∈ w.members, e.userId ≠ w.ownerId
  ids_nodup : (w.members.filterMap (·.userId)).Nodup
  pending : ∀ e ∈ w.members, e.userId = none → ∃ a, e.email = some a ∧ a ≠ []
  addresses_nodup : (addresses cs w).Nodup

/-- The rules in the form the writers preserve. Whether there is an owner at all is kept
    apart (`owned_writes`): a workspace created by nobody follows the other rules too. -/
structure Inv (cs : Casing) (w : WorkspaceMeta) : Prop where
  stripped : stripOrNone w.ownerId = w.ownerId
  normal : ∀ e ∈ w.members, e.Normal cs
  ids_nodup : (ids w).Nodup
  addresses_nodup : (addresses cs w).Nodup

theorem mem_addresses {w : WorkspaceMeta} {a : Text} : a ∈ addresses cs w ↔
    normalizeEmail cs w.ownerEmail = some a ∨
      ∃ e ∈ w.members, normalizeEmail cs e.email = some a := by
  unfold addresses
  rw [List.mem_filterMap]
  constructor
  · rintro ⟨x, hx, ha⟩
    rcases List.mem_cons.mp hx with rfl | hx
    · exact Or.inl ha
    · obtain ⟨e, he, rfl⟩ := List.mem_map.mp hx
      exact Or.inr ⟨e, he, ha⟩
  · rintro (ha | ⟨e, he, ha⟩)
    · exact ⟨w.ownerEmail, List.mem_cons_self, ha⟩
    · exact ⟨e.email, List.mem_cons_of_mem _ (List.mem_map.mpr ⟨e, he, rfl⟩), ha⟩

theorem mem_ids {w : WorkspaceMeta} {u : Text} : u ∈ ids w ↔
    w.ownerId = some u ∨ ∃ e ∈ w.members, e.userId = some u := by
  unfold ids
  simp only [List.mem_filterMap, List.mem_cons, List.mem_map, id, exists_eq_right]
  constructor
  · rintro (h | h)
    · exact Or.inl h.symm
    · exact Or.inr h
  · rintro (h | h)
    · exact Or.inl h.symm
    · exact Or.inr h

theorem Inv.ok {w : WorkspaceMeta} (h : Inv cs w) (howned : w.ownerId ≠ none) :
    MembershipOk cs w := by
  obtain ⟨o, ho⟩ := Option.ne_none_iff_exists'.mp howned
  have hne : o ≠ [] := by
    have hs := h.stripped
    rw [ho] at hs
    exact (stripOrNone_eq_some.mp hs).2
  have hids := h.ids_nodup
  unfold ids at hids
  rw [ho, List.filterMap_cons_some (show id (some o) = some o from rfl), List.nodup_cons,
    List.filterMap_map] at hids
  refine ⟨⟨o, ho, hne⟩, ?_, hids.2, ?_, h.addresses_nodup⟩
  · intro e he heq
    rw [ho] at heq
    exact hids.1 (List.mem_filterMap.mpr ⟨e, he, heq⟩)
  · intro e he hnone
    obtain ⟨-, hmail, -, -, -, hany⟩ := Member.normal_iff.mp (h.normal e he)
    cases hm : e.email with
    | none => exact absurd ⟨hnone, hm⟩ hany
    | some a =>
      rw [hm] at hmail
      obtain ⟨-, -, -, -, ha⟩ := normalizeEmail_eq_some.mp hmail
      exact ⟨a, rfl, ha⟩

/-- For an entry the normaliser leaves alone, the address read back is the address. -/
theorem Inv.email_eq {w : WorkspaceMeta} (h : Inv cs w) {e : Member} (he : e ∈ w.members) :
    normalizeEmail cs e.email = e.email := (Member.normal_iff.mp (h.normal e he)).2.1

/-! ## What each writer writes

One inversion per function: what was checked, and the record that is written. -/

theorem inviteMember_ok {now : Stamp} {raw w' : WorkspaceMeta} {invitedBy email : Text}
    (h : inviteMember cs now raw invitedBy email = .ok w') :
    ∃ a, normalizeEmail cs (some email) = some a ∧
      normalizeEmail cs raw.ownerEmail ≠ some a ∧
      (∀ e ∈ normalizeMembers cs raw.members, e.email ≠ some a) ∧
      w' = { metaWithMembers cs raw with
        members := normalizeMembers cs raw.members ++ [⟨none, some a, none, some now.text,
          orNone invitedBy⟩]
        updatedAt := some now.text } := by
  unfold inviteMember at h
  split at h
  · cases h
  · rename_i a ha
    dsimp only at h
    split at h
    · cases h
    · rename_i howner
      split at h
      · cases h
      · rename_i hmembers
        cases h
        exact ⟨a, ha, howner, fun e he heq => hmembers ⟨e, he, heq⟩, rfl⟩

theorem removeMember_ok {now : Stamp} {raw w' : WorkspaceMeta} {key : Text}
    (h : removeMember cs now raw key = .ok w') :
    ∃ e, (normalizeMembers cs raw.members).find?
        (matchesKey (strip key) (normalizeEmail cs (some (strip key)))) = some e ∧
      w' = { metaWithMembers cs raw with
        members := (normalizeMembers cs raw.members).eraseP
          (matchesKey (strip key) (normalizeEmail cs (some (strip key))))
        updatedAt := some now.text } := by
  unfold removeMember at h
  dsimp only at h
  split at h
  · cases h
  split at h
  · cases h
  split at h
  · cases h
  split at h
  · rename_i hany
    obtain ⟨e, he⟩ := find?_isSome_of_any hany
    cases h
    exact ⟨e, he, rfl⟩
  · cases h

theorem transferOwnership_ok {now : Stamp} {raw w' : WorkspaceMeta} {newOwnerId : Text}
    (h : transferOwnership cs now raw newOwnerId = .ok w') :
    ∃ owner promoted, stripOrNone raw.ownerId = some owner ∧ strip newOwnerId ≠ [] ∧
      owner ≠ strip newOwnerId ∧
      (normalizeMembers cs raw.members).find? (fun e => e.userId = some (strip newOwnerId)) =
        some promoted ∧
      w' = { metaWithMembers cs raw with
        ownerId := some (strip newOwnerId)
        ownerEmail := promoted.email
        members := (normalizeMembers cs raw.members).eraseP
            (fun e => e.userId = some (strip newOwnerId)) ++
          [⟨some owner, normalizeEmail cs raw.ownerEmail, some now.text, none, none⟩]
        updatedAt := some now.text } := by
  unfold transferOwnership at h
  dsimp only at h
  split at h
  · cases h
  rename_i hne
  split at h
  · cases h
  rename_i owner howner
  split at h
  · cases h
  rename_i hself
  split at h
  · cases h
  · rename_i promoted hpromoted
    cases h
    exact ⟨owner, promoted, howner, hne, hself, hpromoted, rfl⟩

/-- A claim changes the first pending entry under the address and nothing else. -/
theorem claimPending_eq_some {now : Stamp} {actor email : Text} {l l' : List Member}
    (h : claimPending now actor email l = some l') :
    ∃ as e bs, l = as ++ e :: bs ∧ e.userId = none ∧ e.email = some email ∧
      l' = as ++ { e with
        userId := some actor, joinedAt := some now.text, invitedAt := truthy e.invitedAt } :: bs := by
  induction l generalizing l' with
  | nil => cases h
  | cons e rest ih =>
    unfold claimPending at h
    split at h
    · rename_i hpending
      cases h
      exact ⟨[], e, rest, rfl, hpending.1, hpending.2, rfl⟩
    · obtain ⟨rest', hrest, rfl⟩ := Option.map_eq_some_iff.mp h
      obtain ⟨as, e', bs, rfl, hid, hmail, rfl⟩ := ih hrest
      exact ⟨e :: as, e', bs, rfl, hid, hmail, rfl⟩

theorem assertWorkspaceAccess_claimed {now : Stamp} {raw w' : WorkspaceMeta}
    {userId email : Option Text}
    (h : assertWorkspaceAccess cs now raw userId email = .ok (.claimed w')) :
    ∃ owner actor a members, stripOrNone raw.ownerId = some owner ∧
      stripOrNone userId = some actor ∧ actor ≠ owner ∧
      (∀ e ∈ normalizeMembers cs raw.members, e.userId ≠ some actor) ∧
      normalizeEmail cs email = some a ∧
      claimPending now actor a (normalizeMembers cs raw.members) = some members ∧
      w' = { metaWithMembers cs raw with members := members, updatedAt := some now.text } := by
  unfold assertWorkspaceAccess at h
  dsimp only at h
  split at h
  · cases h
  · cases h
  · cases h
  · rename_i owner actor howner hactor
    split at h
    · cases h
    rename_i hne
    split at h
    · cases h
    rename_i hmember
    split at h
    · cases h
    rename_i a ha
    split at h
    · cases h
    · rename_i members hclaim
      cases h
      exact ⟨owner, actor, a, members, howner, hactor, hne,
        fun e he heq => hmember ⟨e, he, heq⟩, ha, hclaim, rfl⟩

/-! ## What each writer does to the two lists -/

/-- What an accepted call does to the ids and the addresses of the record. -/
def MetaOp.Moves (cs : Casing) (w w' : WorkspaceMeta) : MetaOp → Prop
  | .invite _ _ email => ∃ a, normalizeEmail cs (some email) = some a ∧ a ∉ addresses cs w ∧
      (ids w').Perm (ids w) ∧ (addresses cs w').Perm (a :: addresses cs w)
  | .remove _ key => ∃ e,
      w.members.find? (matchesKey (strip key) (normalizeEmail cs (some (strip key)))) = some e ∧
      (ids w).Perm (e.userId.toList ++ ids w') ∧
      (addresses cs w).Perm (e.email.toList ++ addresses cs w')
  | .transfer _ _ => (ids w').Perm (ids w) ∧ (addresses cs w').Perm (addresses cs w)
  | .access _ userId _ => ∃ actor, stripOrNone userId = some actor ∧ actor ∉ ids w ∧
      (ids w').Perm (actor :: ids w) ∧ (addresses cs w').Perm (addresses cs w)
  | .setState _ _ => ids w' = ids w ∧ addresses cs w' = addresses cs w
  | .rename _ _ _ _ _ => ids w' = ids w ∧ addresses cs w' = addresses cs w

/-- The ids and the addresses of the record, taken entry by entry. -/
theorem ids_eq (w : WorkspaceMeta) :
    ids w = w.ownerId.toList ++ w.members.filterMap (·.userId) := by
  unfold ids
  rw [List.filterMap_cons, List.filterMap_map]
  cases w.ownerId <;> rfl

theorem addresses_eq (w : WorkspaceMeta) : addresses cs w =
    (normalizeEmail cs w.ownerEmail).toList ++
      w.members.filterMap (fun e => normalizeEmail cs e.email) := by
  unfold addresses
  rw [List.filterMap_cons, List.filterMap_map]
  cases normalizeEmail cs w.ownerEmail <;> rfl

/-- Taking `e` out of the members takes its two keys out of the two lists. -/
theorem keys_perm_of_members_perm (cs : Casing) {w w' : WorkspaceMeta} {e : Member}
    (hid : w'.ownerId = w.ownerId) (hmail : w'.ownerEmail = w.ownerEmail)
    (h : w.members.Perm (e :: w'.members)) :
    (ids w).Perm (e.userId.toList ++ ids w') ∧
      (addresses cs w).Perm ((normalizeEmail cs e.email).toList ++ addresses cs w') := by
  have key : ∀ (o : List Text) (f : Member → Option Text),
      (o ++ w.members.filterMap f).Perm ((f e).toList ++ (o ++ w'.members.filterMap f)) := by
    intro o f
    have hf : (w.members.filterMap f).Perm ((f e).toList ++ w'.members.filterMap f) := by
      refine (h.filterMap f).trans ?_
      rw [List.filterMap_cons]
      cases f e <;> exact List.Perm.refl _
    refine (hf.append_left o).trans ?_
    rw [← List.append_assoc, ← List.append_assoc]
    exact List.perm_append_comm.append_right _
  rw [ids_eq, ids_eq, addresses_eq, addresses_eq, hid, hmail]
  exact ⟨key _ _, key _ _⟩

theorem Inv.invite {now : Stamp} {invitedBy email : Text} {w w' : WorkspaceMeta} (hw : Inv cs w)
    (h : inviteMember cs now w invitedBy email = .ok w') :
    MetaOp.Moves cs w w' (.invite now invitedBy email) := by
  obtain ⟨a, ha, howner, hmembers, hw'⟩ := inviteMember_ok h
  rw [normalizeMembers_of_normal hw.normal] at hmembers hw'
  have hfresh : a ∉ addresses cs w := by
    intro hmem
    rcases mem_addresses.mp hmem with h' | ⟨e', he', h'⟩
    · exact howner h'
    · rw [hw.email_eq he'] at h'
      exact hmembers e' he' h'
  have hperm : w'.members.Perm (⟨none, some a, none, some now.text, orNone invitedBy⟩ :: w.members) := by
    rw [hw']; exact List.perm_append_comm
  have hkeys := keys_perm_of_members_perm cs (by rw [hw']; rfl) (by rw [hw']; rfl) hperm
  rw [normalizeEmail_of_eq_some ha] at hkeys
  exact ⟨a, ha, hfresh, hkeys.1, hkeys.2⟩

theorem Inv.remove {now : Stamp} {key : Text} {w w' : WorkspaceMeta} (hw : Inv cs w)
    (h : removeMember cs now w key = .ok w') : MetaOp.Moves cs w w' (.remove now key) := by
  obtain ⟨e, he, hw'⟩ := removeMember_ok h
  rw [normalizeMembers_of_normal hw.normal] at he hw'
  have hperm : w.members.Perm (e :: w'.members) := by
    rw [hw']; exact perm_cons_eraseP_of_find? he
  have hkeys := keys_perm_of_members_perm cs (by rw [hw']; rfl) (by rw [hw']; rfl) hperm
  rw [hw.email_eq (List.mem_of_find?_eq_some he)] at hkeys
  exact ⟨e, he, hkeys⟩

/-- The new owner's entry leaves the members as the old owner's joins them: each list
    keeps its elements, only the first place changes hands. -/
theorem Inv.transfer {now : Stamp} {newOwnerId : Text} {w w' : WorkspaceMeta} (hw : Inv cs w)
    (h : transferOwnership cs now w newOwnerId = .ok w') :
    MetaOp.Moves cs w w' (.transfer now newOwnerId) := by
  obtain ⟨owner, promoted, howner, -, -, hfound, hw'⟩ := transferOwnership_ok h
  rw [normalizeMembers_of_normal hw.normal] at hfound hw'
  rw [hw.stripped] at howner
  have hid : promoted.userId = some (strip newOwnerId) := by
    simpa using List.find?_some hfound
  have hperm := perm_cons_eraseP_of_find? hfound
  -- swapping the head of a list with its last entry
  have swap : ∀ {f : Option Text → Option Text} {g : Member → Option Text} {x y : Option Text}
      {rest : List Member} {demoted : Member}, f (g promoted) = f y → f (g demoted) = f x →
      w.members.Perm (promoted :: rest) →
      ((y :: (rest ++ [demoted]).map g).filterMap f).Perm ((x :: w.members.map g).filterMap f) := by
    intro f g x y rest demoted hy hx hrest
    have hold : ((x :: w.members.map g).filterMap f).Perm
        ((x :: g promoted :: rest.map g).filterMap f) := ((hrest.map g).cons x).filterMap f
    refine List.Perm.trans ?_ hold.symm
    have hnew : ((y :: (rest ++ [demoted]).map g).filterMap f).Perm
        ((g demoted :: y :: rest.map g).filterMap f) := by
      refine List.Perm.filterMap f ?_
      rw [List.map_append, ← List.cons_append]
      exact List.perm_append_comm
    refine hnew.trans (List.Perm.of_eq ?_)
    rw [List.filterMap_cons, List.filterMap_cons, List.filterMap_cons, List.filterMap_cons,
      hx, hy]
  constructor
  · rw [hw']
    exact swap hid (by rw [howner]) hperm
  · rw [hw']
    exact swap rfl (normalizeEmail_idem _) hperm

theorem Inv.claim {now : Stamp} {userId email : Option Text} {w w' : WorkspaceMeta}
    (hw : Inv cs w) (h : assertWorkspaceAccess cs now w userId email = .ok (.claimed w')) :
    MetaOp.Moves cs w w' (.access now userId email) := by
  obtain ⟨owner, actor, a, members, howner, hactor, hne, hmember, -, hclaim, hw'⟩ :=
    assertWorkspaceAccess_claimed h
  rw [normalizeMembers_of_normal hw.normal] at hmember hclaim
  rw [hw.stripped] at howner
  obtain ⟨as, e, bs, hw₀, hid, -, hnew⟩ := claimPending_eq_some hclaim
  have hmembers : w'.members = members := by rw [hw']
  refine ⟨actor, hactor, ?_, ?_, ?_⟩
  · intro hmem
    rcases mem_ids.mp hmem with h' | ⟨e', he', h'⟩
    · rw [howner] at h'
      exact hne (Option.some.inj h').symm
    · exact hmember e' he' h'
  · rw [ids_eq, ids_eq, hmembers, hnew, hw₀, show w'.ownerId = w.ownerId by rw [hw']; rfl]
    have hold : (as ++ e :: bs).filterMap (·.userId) = (as ++ bs).filterMap (·.userId) := by
      rw [List.filterMap_append, List.filterMap_append, List.filterMap_cons_none hid]
    rw [hold]
    exact (filterMap_replace_perm.append_left _).trans (List.perm_append_comm_assoc _ _ _)
  · rw [addresses_eq, addresses_eq, hmembers, hnew, hw₀,
      show w'.ownerEmail = w.ownerEmail by rw [hw']; rfl]
    simp only [List.filterMap_append, List.filterMap_cons]
    exact List.Perm.refl _

/-- Renaming and changing the state leave owner and members alone. -/
theorem renameWorkspaceAlias_ok {now : Stamp} {raw w' : WorkspaceMeta} {workspaceId newAlias : Text}
    {ownerId : Option Text} {otherNames : List Text}
    (h : renameWorkspaceAlias now raw workspaceId newAlias ownerId otherNames = .ok w') :
    ∃ name, w' = { raw with name := name, updatedAt := some now.text } := by
  unfold renameWorkspaceAlias at h
  dsimp only at h
  split at h
  · cases h
    exact ⟨_, rfl⟩
  · cases hu : ensureAliasUnique ownerId (strip newAlias) otherNames with
    | error e => rw [hu] at h; cases h
    | ok u => rw [hu] at h; cases h; exact ⟨_, rfl⟩

theorem claimed_of_writes {now : Stamp} {userId email : Option Text} {w w' : WorkspaceMeta}
    (h : (MetaOp.access now userId email).writes cs w = some w') :
    assertWorkspaceAccess cs now w userId email = .ok (.claimed w') := by
  simp only [MetaOp.writes] at h
  split at h
  · rename_i written haccess
    rw [haccess, Option.some.inj h]
  · cases h

/-- **What an accepted call does.** Every writer moves the two lists as `Moves` says. -/
theorem writes_moves {op : MetaOp} {w w' : WorkspaceMeta} (hw : Inv cs w)
    (h : op.writes cs w = some w') : op.Moves cs w w' := by
  cases op with
  | invite now invitedBy email => exact hw.invite (ok_of_toOption h)
  | remove now key => exact hw.remove (ok_of_toOption h)
  | transfer now newOwnerId => exact hw.transfer (ok_of_toOption h)
  | access now userId email => exact hw.claim (claimed_of_writes h)
  | setState now state => cases h; exact ⟨rfl, rfl⟩
  | rename now workspaceId newAlias ownerId otherNames =>
    obtain ⟨name, rfl⟩ := renameWorkspaceAlias_ok (ok_of_toOption h)
    exact ⟨rfl, rfl⟩

/-! ## The rules are kept -/

/-- An entry the service itself builds is one the normaliser would leave alone. -/
theorem Member.normal_of {e : Member} (hid : stripOrNone e.userId = e.userId)
    (hmail : normalizeEmail cs e.email = e.email) (hjoined : truthy e.joinedAt = e.joinedAt)
    (hinvited : truthy e.invitedAt = e.invitedAt) (hby : truthy e.invitedBy = e.invitedBy)
    (hany : e.userId ≠ none ∨ e.email ≠ none) : e.Normal cs := by
  refine Member.normal_iff.mpr ⟨hid, hmail, hjoined, hinvited, hby, ?_⟩
  intro ⟨h1, h2⟩
  rcases hany with h | h
  · exact h h1
  · exact h h2

theorem truthy_orNone (t : Text) : truthy (orNone t) = orNone t := by
  exact truthy_idem (some t)

theorem writes_normal {op : MetaOp} {w w' : WorkspaceMeta} (hw : Inv cs w)
    (h : op.writes cs w = some w') : ∀ e ∈ w'.members, e.Normal cs := by
  intro e he
  cases op with
  | invite now invitedBy email =>
    obtain ⟨a, ha, -, -, rfl⟩ := inviteMember_ok (ok_of_toOption h)
    rcases List.mem_append.mp he with he | he
    · exact mem_normalizeMembers he
    · rw [List.mem_singleton.mp he]
      exact Member.normal_of rfl (normalizeEmail_of_eq_some ha) rfl
        now.truthy (truthy_orNone invitedBy) (Or.inr (by simp))
  | remove now key =>
    obtain ⟨-, -, rfl⟩ := removeMember_ok (ok_of_toOption h)
    exact mem_normalizeMembers (List.mem_of_mem_eraseP he)
  | transfer now newOwnerId =>
    obtain ⟨owner, promoted, howner, -, -, -, rfl⟩ := transferOwnership_ok (ok_of_toOption h)
    rcases List.mem_append.mp he with he | he
    · exact mem_normalizeMembers (List.mem_of_mem_eraseP he)
    · rw [List.mem_singleton.mp he]
      exact Member.normal_of (by rw [← howner]; exact stripOrNone_idem _) (normalizeEmail_idem _)
        now.truthy rfl rfl (Or.inl (by simp))
  | access now userId email =>
    obtain ⟨owner, actor, a, members, -, hactor, -, -, -, hclaim, rfl⟩ :=
      assertWorkspaceAccess_claimed (claimed_of_writes h)
    obtain ⟨as, e₀, bs, hold, -, hmail, rfl⟩ := claimPending_eq_some hclaim
    -- the claimed entry was in the normalized list, and so were the entries on both sides
    have hall : ∀ x ∈ as ++ e₀ :: bs, x.Normal cs := by
      intro x hx
      rw [← hold] at hx
      exact mem_normalizeMembers hx
    rcases List.mem_append.mp he with he | he
    · exact hall e (List.mem_append_left _ he)
    rcases List.mem_cons.mp he with he | he
    · obtain ⟨-, hn, -, -, hby, -⟩ := Member.normal_iff.mp (hall e₀ (by simp))
      rw [he]
      exact Member.normal_of (by rw [← hactor]; exact stripOrNone_idem _) hn now.truthy
        (truthy_idem _) hby (Or.inl (by simp))
    · exact hall e (List.mem_append_right _ (List.mem_cons_of_mem _ he))
  | setState now state => cases h; exact hw.normal e he
  | rename now workspaceId newAlias ownerId otherNames =>
    obtain ⟨name, rfl⟩ := renameWorkspaceAlias_ok (ok_of_toOption h)
    exact hw.normal e he

/-- Only a transfer sets the owner, and to an id that was stripped and is not blank. -/
theorem writes_owner {op : MetaOp} {w w' : WorkspaceMeta} (h : op.writes cs w = some w') :
    w'.ownerId = w.ownerId ∨ ∃ o, w'.ownerId = some o ∧ stripOrNone (some o) = some o := by
  cases op with
  | invite now invitedBy email =>
    obtain ⟨a, -, -, -, rfl⟩ := inviteMember_ok (ok_of_toOption h)
    exact Or.inl rfl
  | remove now key =>
    obtain ⟨-, -, rfl⟩ := removeMember_ok (ok_of_toOption h)
    exact Or.inl rfl
  | transfer now newOwnerId =>
    obtain ⟨owner, promoted, -, hne, -, -, rfl⟩ := transferOwnership_ok (ok_of_toOption h)
    exact Or.inr ⟨_, rfl, stripOrNone_eq_some.mpr ⟨strip_strip _, hne⟩⟩
  | access now userId email =>
    obtain ⟨owner, actor, a, members, -, -, -, -, -, -, rfl⟩ :=
      assertWorkspaceAccess_claimed (claimed_of_writes h)
    exact Or.inl rfl
  | setState now state => cases h; exact Or.inl rfl
  | rename now workspaceId newAlias ownerId otherNames =>
    obtain ⟨name, rfl⟩ := renameWorkspaceAlias_ok (ok_of_toOption h)
    exact Or.inl rfl

theorem owned_writes {op : MetaOp} {w w' : WorkspaceMeta} (h : op.writes cs w = some w')
    (howned : w.ownerId ≠ none) : w'.ownerId ≠ none := by
  rcases writes_owner h with ho | ⟨o, ho, -⟩
  · rw [ho]; exact howned
  · simp [ho]

theorem nodup_of_moves {op : MetaOp} {w w' : WorkspaceMeta} (hw : Inv cs w)
    (h : op.Moves cs w w') : (ids w').Nodup ∧ (addresses cs w').Nodup := by
  have hi := hw.ids_nodup
  have ha := hw.addresses_nodup
  cases op with
  | invite now invitedBy email =>
    obtain ⟨a, -, hfresh, hids, hadd⟩ := h
    exact ⟨hids.nodup_iff.mpr hi, hadd.nodup_iff.mpr (List.nodup_cons.mpr ⟨hfresh, ha⟩)⟩
  | remove now key =>
    obtain ⟨e, -, hids, hadd⟩ := h
    exact ⟨(List.nodup_append.mp (hids.nodup_iff.mp hi)).2.1,
      (List.nodup_append.mp (hadd.nodup_iff.mp ha)).2.1⟩
  | transfer now newOwnerId => exact ⟨h.1.nodup_iff.mpr hi, h.2.nodup_iff.mpr ha⟩
  | access now userId email =>
    obtain ⟨actor, -, hfresh, hids, hadd⟩ := h
    exact ⟨hids.nodup_iff.mpr (List.nodup_cons.mpr ⟨hfresh, hi⟩), hadd.nodup_iff.mpr ha⟩
  | setState now state => rw [h.1, h.2]; exact ⟨hi, ha⟩
  | rename now workspaceId newAlias ownerId otherNames => rw [h.1, h.2]; exact ⟨hi, ha⟩

theorem Inv.writes {op : MetaOp} {w w' : WorkspaceMeta} (hw : Inv cs w)
    (h : op.writes cs w = some w') : Inv cs w' := by
  have hnodup := nodup_of_moves hw (writes_moves hw h)
  refine ⟨?_, writes_normal hw h, hnodup.1, hnodup.2⟩
  rcases writes_owner h with ho | ⟨o, ho, hs⟩
  · rw [ho]; exact hw.stripped
  · rw [ho]; exact hs

theorem Inv.create (cs : Casing) (workspaceId name : Text) (now : Stamp)
    (ownerId ownerEmail : Option Text) :
    Inv cs (createMeta workspaceId name now ownerId ownerEmail) where
  stripped := stripOrNone_idem ownerId
  normal := by intro e he; cases he
  ids_nodup := by
    rw [ids_eq]
    cases ho : stripOrNone ownerId <;> simp [createMeta, ho]
  addresses_nodup := by
    rw [addresses_eq]
    cases ha : normalizeEmail cs (stripOrNone ownerEmail) <;> simp [createMeta, ha]

/-- One call, accepted or refused. -/
theorem Inv.apply {w : WorkspaceMeta} (hw : Inv cs w) (op : MetaOp) : Inv cs (op.apply cs w) := by
  unfold MetaOp.apply
  cases h : op.writes cs w with
  | none => exact hw
  | some w' => exact hw.writes h

theorem owned_apply {w : WorkspaceMeta} (howned : w.ownerId ≠ none) (op : MetaOp) :
    (op.apply cs w).ownerId ≠ none := by
  unfold MetaOp.apply
  cases h : op.writes cs w with
  | none => exact howned
  | some w' => exact owned_writes h howned

theorem Inv.applyAll {w : WorkspaceMeta} (hw : Inv cs w) (ops : List MetaOp) :
    Inv cs (ops.foldl (MetaOp.apply cs) w) := by
  induction ops generalizing w with
  | nil => exact hw
  | cons op ops ih => exact ih (hw.apply op)

theorem owned_applyAll {w : WorkspaceMeta} (howned : w.ownerId ≠ none) (ops : List MetaOp) :
    (ops.foldl (MetaOp.apply cs) w).ownerId ≠ none := by
  induction ops generalizing w with
  | nil => exact howned
  | cons op ops ih => exact ih (owned_apply howned op)

/-- **The membership data model holds in every reachable state**: of a workspace created
    with an owner, after any sequence of calls by anyone, accepted or refused. -/
theorem membership_reachable {workspaceId name : Text} {now : Stamp}
    {ownerId ownerEmail : Option Text} (ops : List MetaOp) (howner : stripOrNone ownerId ≠ none) :
    MembershipOk cs
      (ops.foldl (MetaOp.apply cs) (createMeta workspaceId name now ownerId ownerEmail)) := by
  have hinv := (Inv.create cs workspaceId name now ownerId ownerEmail).applyAll ops
  exact hinv.ok (owned_applyAll howner ops)

/-- Two invitations, both claimed, and a transfer away from the creator and back. -/
theorem membership_after_transfers :
    let now : Stamp := ⟨"2026-01-01T00:00:00Z", by decide⟩
    MembershipOk asciiCasing
      ([ .invite now "alice" " Bob@Example.org ",
         .access now (some "bob") (some "bob@example.org"),
         .transfer now "bob",
         .invite now "bob" "carol@example.org",
         .access now (some "carol") (some "carol@example.org"),
         .transfer now "alice" ].foldl (MetaOp.apply asciiCasing)
        (createMeta "w1" "main" now (some "alice") (some "alice@example.org"))) :=
  membership_reachable _ (by decide)

end Infinito.Rbac
