import Infinito.Lib.Register
import Infinito.Lib.Tree
import Infinito.Servers.Connections

/-!
# The users of a server

The users that are managed for a server are in a file of the workspace, named after the alias of the
server as far as its characters may stand in a name. A call loads the file, changes it and saves it,
and takes no lock for that, so each file is a `Lib.Register` and the workspace a family of them.

`users_separate_iff` is about the calls of which none is overtaken between its load and its save: a
server has the users that its own calls have made, in every run, exactly if no two servers that are
eligible share a file.
-/

set_option autoImplicit false

namespace Infinito.Servers

open Py Lib Lib.Register

/-! ## The calls -/

/-- `_ensure_server_eligible` -/
def ensureServerEligible (info : Eligibility) (serverId : Text) : Except HttpError Unit :=
  let name := strip serverId
  if name = [] then .error ⟨400, "server_id is required"⟩
  else if info.canManage = false then
    .error ⟨400, "User management requires an active deployed server with Keycloak and LDAP."⟩
  else if name ∉ info.keycloakServers then .error ⟨400, "server is not LDAP-eligible"⟩
  else if name ∉ info.reachableServers then .error ⟨400, "ssh connectivity not ready"⟩
  else .ok ()

/-- A password is not kept, only that there is one and since when. -/
structure User where
  firstname : Text
  lastname : Text
  email : Text
  roles : List Text
  enabled : Bool
  passwordSet : Bool
  passwordUpdatedAt : Text
  updatedAt : Text

/-- What is saved under `users`. -/
abbrev UsersFile := List (Text × User)

/-- `_load_users` -/
def loadUsers (file : UsersFile) : UsersFile :=
  file.foldl (fun out (key, value) =>
    if strip key = [] then out else Items.set (strip key) value out) []

inductive UserOp where
  | createUser (username firstname lastname email password : Text) (roles : List Text)
      (enabled : Bool)
  | changePassword (username newPassword : Text)
  | updateRoles (username : Text) (roles : List Text) (enabled : Option Bool)
  | deleteUser (username : Text)

structure Call where
  serverId : Text
  /-- `utc_iso()` -/
  now : Text
  op : UserOp

def strippedRoles (roles : List Text) : List Text := (roles.map strip).filter (· ≠ [])

def createUser (now username firstname lastname email password : Text) (roles : List Text)
    (enabled : Bool) (file : UsersFile) : Except HttpError UsersFile :=
  let userName := strip username
  if userName = [] then .error ⟨400, "username is required"⟩
  else if password = [] then .error ⟨400, "password is required"⟩
  else
    let users := loadUsers file
    if (Items.get userName users).isSome then .error ⟨409, "username already exists"⟩
    else .ok (Items.set userName
      { firstname := strip firstname
        lastname := strip lastname
        email := strip email
        roles := strippedRoles roles
        enabled := enabled
        passwordSet := true
        passwordUpdatedAt := now
        updatedAt := now } users)

def changePassword (now username newPassword : Text) (file : UsersFile) :
    Except HttpError UsersFile :=
  if newPassword = [] then .error ⟨400, "new password is required"⟩
  else
    let users := loadUsers file
    match Items.get (strip username) users with
    | none => .error ⟨404, "user not found"⟩
    | some user => .ok (Items.set (strip username)
        { user with passwordSet := true, passwordUpdatedAt := now, updatedAt := now } users)

def updateRoles (now username : Text) (roles : List Text) (enabled : Option Bool)
    (file : UsersFile) : Except HttpError UsersFile :=
  let users := loadUsers file
  match Items.get (strip username) users with
  | none => .error ⟨404, "user not found"⟩
  | some user => .ok (Items.set (strip username)
      { user with
        roles := strippedRoles roles
        enabled := enabled.getD user.enabled
        updatedAt := now } users)

def deleteUser (username : Text) (file : UsersFile) : Except HttpError UsersFile :=
  let users := loadUsers file
  if (Items.get (strip username) users).isNone then .error ⟨404, "user not found"⟩
  else .ok (Items.erase (strip username) users)

/-- What a call saves, when it finds a file. -/
def serveUsers (info : Eligibility) (call : Call) (file : UsersFile) :
    Except HttpError UsersFile := do
  ensureServerEligible info call.serverId
  match call.op with
  | .createUser username firstname lastname email password roles enabled =>
      createUser call.now username firstname lastname email password roles enabled file
  | .changePassword username newPassword => changePassword call.now username newPassword file
  | .updateRoles username roles enabled => updateRoles call.now username roles enabled file
  | .deleteUser username => deleteUser username file

structure UserOut where
  username : Text
  firstname : Text
  lastname : Text
  email : Text
  roles : List Text
  enabled : Bool
  updatedAt : Text

/-- `list_users`, of a server that is eligible. -/
def listUsers (file : UsersFile) : List UserOut :=
  let users := loadUsers file
  ((users.map (·.1)).insertionSort (· ≤ ·)).filterMap fun username =>
    (Items.get username users).map fun user =>
      { username := username
        firstname := user.firstname
        lastname := user.lastname
        email := user.email
        roles := (strippedRoles user.roles).dedup.insertionSort (· ≤ ·)
        enabled := user.enabled
        updatedAt := user.updatedAt }

/-! ## Calls at the same time -/

variable (beyond : Char → Bool) (info : Eligibility)

/-- `_users_file`, without the directory and the extension. -/
def usersFile (serverId : Text) : Text := sanitizeAlias beyond serverId

inductive UserAct where
  | load (id : Nat) (call : Call)
  | save (id : Nat) (serverId : Text)

/-- The file that is loaded or saved. -/
def UserAct.file : UserAct → Text
  | .load _ call => usersFile beyond call.serverId
  | .save _ serverId => usersFile beyond serverId

def UserAct.toRegister : UserAct → Register.Act Call
  | .load id call => .load id call
  | .save id _ => .store id

def userCalls : Calls UsersFile Call where
  writes file call := (serveUsers info call file).toOption
  locks _ := false

abbrev UsersDisk := Text → Register.State UsersFile Call

def UsersDisk.init : UsersDisk := fun _ => .init []

def usersStep : UsersDisk → UserAct → Option UsersDisk :=
  familyStep (fun file act => Register.step (userCalls info) file act.toRegister)
    (UserAct.file beyond)

/-- The file is as the call has loaded it, when the call saves it. -/
def NotOvertaken (disk : UsersDisk) (act : UserAct) : Prop :=
  Orderly (userCalls info) (disk (act.file beyond)) act.toRegister

def Eligible (serverId : Text) : Prop := ensureServerEligible info serverId = .ok ()

/-- The calls of a server that have been saved, in that order. -/
def UsersDisk.callsOf (disk : UsersDisk) (serverId : Text) : List Call :=
  ((disk (usersFile beyond serverId)).stored.map (·.op)).filter fun call =>
    strip call.serverId = strip serverId

/-! ## Servers that share a file -/

section Shared

variable {beyond info} {disk : UsersDisk} {acts : List UserAct} {serverId : Text} {call : Call}

theorem eligible_of_writes {file file' : UsersFile}
    (h : (userCalls info).writes file call = some file') : Eligible info call.serverId := by
  unfold userCalls serveUsers at h
  unfold Eligible
  cases hok : ensureServerEligible info call.serverId with
  | error e =>
    simp only [hok] at h
    cases h
  | ok u => rfl

/-- The run of one file. -/
theorem run_file (hrun : run (usersStep beyond info) UsersDisk.init acts = some disk)
    (file : Text) : run (Register.step (userCalls info)) (.init [])
      ((acts.filter fun act => act.file beyond = file).map UserAct.toRegister) =
        some (disk file) := by
  rw [← run_map]
  exact run_family hrun file

theorem along_file (hrun : run (usersStep beyond info) UsersDisk.init acts = some disk)
    (hok : Along (usersStep beyond info) (NotOvertaken beyond info) UsersDisk.init acts)
    (file : Text) : Along (Register.step (userCalls info)) (Orderly (userCalls info)) (.init [])
      ((acts.filter fun act => act.file beyond = file).map UserAct.toRegister) := by
  rw [← along_map]
  refine along_family hrun ?_ file
  exact hok

/-- What has been saved to a file belongs to servers that have it. -/
theorem file_of_stored (hrun : run (usersStep beyond info) UsersDisk.init acts = some disk)
    {file : Text} {w : Window UsersFile Call} (hw : w ∈ (disk file).stored) :
    usersFile beyond w.op.serverId = file := by
  refine ops_of_loads (P := fun op => usersFile beyond op.serverId = file) ?_ (run_file hrun file)
    w hw
  intro id op hmem
  obtain ⟨act, hact, heq⟩ := List.mem_map.mp hmem
  obtain ⟨-, hfile⟩ := List.mem_filter.mp hact
  cases act with
  | load id' call' =>
    cases heq
    exact of_decide_eq_true hfile
  | save id' serverId' => cases heq

theorem replay_of_notOvertaken
    (hrun : run (usersStep beyond info) UsersDisk.init acts = some disk)
    (hok : Along (usersStep beyond info) (NotOvertaken beyond info) UsersDisk.init acts)
    (hseparate : ∀ s t, Eligible info s → Eligible info t →
      usersFile beyond s = usersFile beyond t → strip s = strip t)
    (hserver : Eligible info serverId) :
    (disk.callsOf beyond serverId).foldlM (userCalls info).writes [] =
      some (disk (usersFile beyond serverId)).value := by
  have hchain := chain_of_orderly (along_file hrun hok (usersFile beyond serverId))
    (run_file hrun (usersFile beyond serverId))
  have hown : disk.callsOf beyond serverId =
      (disk (usersFile beyond serverId)).stored.map (·.op) := by
    refine List.filter_eq_self.mpr fun call hcall => decide_eq_true ?_
    obtain ⟨w, hw, rfl⟩ := List.mem_map.mp hcall
    exact hseparate _ _ (eligible_of_writes (hchain.writes_of_mem hw)) hserver
      (file_of_stored hrun hw)
  rw [hown]
  exact hchain.replay

/-- A call that makes the first user of a server. -/
def firstUser (serverId : Text) : Call where
  serverId := serverId
  now := "2026-01-01T00:00:00Z"
  op := .createUser "ada" [] [] [] "secret" [] true

/-- The file that it makes. -/
def ada : UsersFile :=
  [("ada", ⟨[], [], [], [], true, true, "2026-01-01T00:00:00Z", "2026-01-01T00:00:00Z"⟩)]

theorem writes_firstUser (h : Eligible info serverId) :
    (userCalls info).writes [] (firstUser serverId) = some ada := by
  unfold Eligible at h
  unfold userCalls serveUsers
  simp only [firstUser, h]
  rfl

theorem load_firstUser (h : Eligible info serverId) :
    Register.step (userCalls info) (.init []) (.load 0 (firstUser serverId)) =
      some ⟨[], [(0, ⟨firstUser serverId, [], ada⟩)], none, []⟩ := by
  have hwrites := writes_firstUser h
  have hlocks : (userCalls info).locks (firstUser serverId) = false := rfl
  simp [Register.step, State.init, hwrites, hlocks]

/-- The workspace after this one call. -/
def UsersDisk.withAda (beyond : Char → Bool) (serverId : Text) : UsersDisk := fun file =>
  if file = usersFile beyond serverId then ⟨ada, [], none, [⟨firstUser serverId, [], ada⟩]⟩
  else .init []

theorem run_firstUser (h : Eligible info serverId) :
    run (usersStep beyond info) UsersDisk.init [.load 0 (firstUser serverId), .save 0 serverId] =
        some (UsersDisk.withAda beyond serverId) ∧
      Along (usersStep beyond info) (NotOvertaken beyond info) UsersDisk.init
        [.load 0 (firstUser serverId), .save 0 serverId] := by
  have hload : usersStep beyond info UsersDisk.init (.load 0 (firstUser serverId)) = some fun file =>
      if file = usersFile beyond serverId then ⟨[], [(0, ⟨firstUser serverId, [], ada⟩)], none, []⟩
      else .init [] := familyStep_eq_some.mpr ⟨_, load_firstUser h, rfl⟩
  have hlocks : (userCalls info).locks (firstUser serverId) = false := rfl
  constructor
  · refine run_cons_eq_some.mpr ⟨_, hload, run_cons_eq_some.mpr ⟨_, ?_, run_nil⟩⟩
    refine familyStep_eq_some.mpr
      ⟨⟨ada, [], none, [⟨firstUser serverId, [], ada⟩]⟩, ?_, ?_⟩
    · simp [Register.step, UserAct.file, UserAct.toRegister, hlocks]
    · funext file
      unfold UsersDisk.withAda UserAct.file
      by_cases hfile : file = usersFile beyond serverId
      · simp [hfile]
      · simp [hfile]
  · refine ⟨trivial, ?_⟩
    rw [hload]
    refine ⟨?_, ?_⟩
    · intro w hw _
      simp only [UserAct.file, if_true] at hw ⊢
      cases hw
      exact ⟨rfl, trivial⟩
    · split <;> trivial

/-- **Every server has the users that its own calls have made**, in every run in which no call is
    overtaken, exactly if no two eligible servers share a file. -/
theorem users_separate_iff (beyond : Char → Bool) (info : Eligibility) :
    (∀ acts disk, run (usersStep beyond info) UsersDisk.init acts = some disk →
        Along (usersStep beyond info) (NotOvertaken beyond info) UsersDisk.init acts →
        ∀ serverId, Eligible info serverId → ∃ file,
          (disk.callsOf beyond serverId).foldlM (userCalls info).writes [] = some file ∧
            listUsers (disk (usersFile beyond serverId)).value = listUsers file) ↔
      ∀ s t, Eligible info s → Eligible info t →
        usersFile beyond s = usersFile beyond t → strip s = strip t := by
  constructor
  · intro hall s t hs ht hfile
    by_contra hne
    obtain ⟨hrun, hok⟩ := @run_firstUser beyond info t ht
    obtain ⟨file, hreplay, hlist⟩ := hall _ _ hrun hok s hs
    have hshared : UsersDisk.withAda beyond t (usersFile beyond s) =
        ⟨ada, [], none, [⟨firstUser t, [], ada⟩]⟩ := if_pos hfile
    have hnone : (UsersDisk.withAda beyond t).callsOf beyond s = [] := by
      unfold UsersDisk.callsOf
      rw [hshared]
      simp [firstUser, Ne.symm hne]
    rw [hnone] at hreplay
    cases hreplay
    rw [hshared] at hlist
    have hone : (listUsers ada).length = 1 := rfl
    have hzero : (listUsers ada).length = 0 := congrArg List.length hlist
    rw [hone] at hzero
    cases hzero
  · intro hseparate acts disk hrun hok serverId hserver
    exact ⟨_, replay_of_notOvertaken hrun hok hseparate hserver, rfl⟩

end Shared

end Infinito.Servers
