import Infinito.Panel.Users
import Infinito.Lib.Tree

/-!
# The form of a user

The editor of the panel shows a user as texts (`userToForm`) and reads the texts back when the form
is applied (`applyUserEditor`). A list of texts becomes one text, its elements joined by a comma
or a line feed. It is read back as YAML first; if that is no list, it is cut at line feeds, commas
and bars.

`edit_unchanged_iff` says for which users the form can be opened and applied without a change:
those whose joined lists are no YAML list and have no separator in an element, and whose tokens
are the same when the blanks around their YAML text are taken off.
-/

set_option autoImplicit false

namespace Infinito.Panel

open Py Lib
open Infinito.Orders (Client WorkspaceUser isJsSpace jsTrim jsTrim_jsTrim asTrimmed usernamePattern
  parseOptionalInt parseStringList parseOptionalObject nonEmpty normalizeWorkspaceUser
  dedupeWorkspaceUsers extractWorkspaceUsers mapUser slug_trimmed)

variable (client : Client)

/-! ## The form -/

structure WorkspaceUserForm where
  username : Text
  firstname : Text
  lastname : Text
  email : Text
  password : Text
  uid : Text
  gid : Text
  roles : Text
  tokens : Text
  authorizedKeys : Text
  /-- `"true"`, `"false"` or empty -/
  reserved : Option Bool
  description : Text

def userToForm (stringify : Val → Text) (user : WorkspaceUser) : WorkspaceUserForm where
  username := user.username
  firstname := user.firstname
  lastname := user.lastname
  email := user.email.getD []
  password := user.password.getD []
  uid := numberText client user.uid
  gid := numberText client user.gid
  roles := user.roles.elim [] [','].intercalate
  tokens := user.tokens.elim [] fun d => jsTrim (stringify (.dict d))
  authorizedKeys := user.authorizedKeys.elim [] ['\n'].intercalate
  reserved := user.reserved
  description := user.description.getD []

def emptyUserForm : WorkspaceUserForm := ⟨[], [], [], [], [], [], [], [], [], [], none, []⟩

inductive UsersEditorMode where
  | create
  | edit
  deriving DecidableEq

/-- The state of the users editor. -/
structure UsersEditor where
  usersDraft : List WorkspaceUser
  usersSelection : List (Text × Bool)
  userForm : WorkspaceUserForm
  usersEditorMode : UsersEditorMode
  editingUsername : Option Text
  userEntryModalOpen : Bool
  usersError : Option Text
  usersStatus : Option Text

def startEditUserEditor (stringify : Val → Text) (username : Text) (s : UsersEditor) :
    UsersEditor :=
  match s.usersDraft.find? fun entry => entry.username = username with
  | none => { s with usersError := some ("User '".toList ++ username ++ "' not found.".toList) }
  | some target =>
    { s with
      usersEditorMode := .edit
      editingUsername := some target.username
      userForm := userToForm client stringify target
      userEntryModalOpen := true
      usersError := none
      usersStatus := some ("Editing user '".toList ++ target.username ++ "'.".toList) }

/-- `nextUser`, or what is wrong with the form. -/
def formUser (form : WorkspaceUserForm) : Except Text WorkspaceUser :=
  let username := lower (jsTrim form.username)
  let tokens := parseOptionalObject client (.str form.tokens)
  if usernamePattern username = false then .error "Username must match a-z0-9."
  else if jsTrim form.firstname = [] ∨ jsTrim form.lastname = [] then
    .error "Firstname and lastname are required."
  else if jsTrim form.tokens ≠ [] ∧ tokens.isNone then
    .error "Tokens must be a YAML/JSON object."
  else .ok
    { username := username
      firstname := jsTrim form.firstname
      lastname := jsTrim form.lastname
      email := orNone (asTrimmed client (.str form.email))
      password := orNone (asTrimmed client (.str form.password))
      uid := parseOptionalInt client (.str form.uid)
      gid := parseOptionalInt client (.str form.gid)
      roles := parseStringList client (.str form.roles)
      tokens := tokens
      authorizedKeys := parseStringList client (.str form.authorizedKeys)
      reserved := form.reserved
      description := orNone (asTrimmed client (.str form.description)) }

/-- What is selected after a user was applied. -/
def selectApplied (editingKey : Option Text) (username : Text) (selection : List (Text × Bool)) :
    List (Text × Bool) :=
  let next := match editingKey with
    | some key => if key ≠ username then Items.erase key selection else selection
    | none => selection
  if (Items.get username next).isSome then next else Items.set username false next

def applyUserEditor (s : UsersEditor) : UsersEditor :=
  match formUser client s.userForm with
  | .error e => { s with usersError := some e }
  | .ok nextUser =>
    let editingKey := if s.usersEditorMode = .edit then truthy s.editingUsername else none
    let taken := s.usersDraft.any fun entry => entry.username = nextUser.username
    if editingKey ≠ some nextUser.username ∧ taken = true then
      { s with
        usersError := some ("User '".toList ++ nextUser.username ++ "' already exists.".toList) }
    else
      let applied := { s with
        usersSelection := selectApplied editingKey nextUser.username s.usersSelection
        usersError := none
        userEntryModalOpen := false }
      match editingKey with
      | some key => { applied with
          usersDraft := s.usersDraft.map fun entry => if entry.username = key then nextUser else entry
          usersEditorMode := .edit
          editingUsername := some nextUser.username
          usersStatus := some
            ("User '".toList ++ nextUser.username ++ "' updated. Save to persist changes.".toList) }
      | none => { applied with
          usersDraft := s.usersDraft ++ [nextUser]
          usersEditorMode := .create
          editingUsername := none
          userForm := emptyUserForm
          usersStatus := some
            ("User '".toList ++ nextUser.username ++ "' added. Save to persist changes.".toList) }

/-! ## A list as one text -/

section Joined
variable {client} {sep : Char} {ts : List Text}

/-- `/[\n,|]/` -/
def isSeparator (c : Char) : Bool := c = '\n' || c = ',' || c = '|'

/-- A text that is trimmed begins and ends with a character that is no blank. -/
theorem isText_iff {t : Text} (hne : t ≠ []) : jsTrim t = t ↔
    isJsSpace (t.head hne) = false ∧ isJsSpace (t.getLast hne) = false := by
  constructor
  · intro h
    have hdrop : t.dropWhile isJsSpace = t := by
      refine (List.dropWhile_suffix _).eq_of_length_le ?_
      have hlen : (jsTrim t).length ≤ (t.dropWhile isJsSpace).length :=
        (List.rdropWhile_prefix _ _).length_le
      rwa [h] at hlen
    have hlast : t.rdropWhile isJsSpace = t := by
      unfold jsTrim at h
      rwa [hdrop] at h
    refine ⟨?_, Bool.eq_false_iff.mpr (List.rdropWhile_eq_self_iff.mp hlast hne)⟩
    have hhead := List.dropWhile_eq_self_iff.mp hdrop (List.length_pos_of_ne_nil hne)
    rw [List.head_eq_getElem]
    exact Bool.eq_false_iff.mpr hhead
  · rintro ⟨hhead, hlast⟩
    unfold jsTrim
    rw [List.dropWhile_eq_self_iff.mpr, List.rdropWhile_eq_self_iff.mpr]
    · intro _
      rw [hlast]
      exact Bool.false_ne_true
    · intro _
      rw [← List.head_eq_getElem hne, hhead]
      exact Bool.false_ne_true

theorem isText_join (hts : IsTexts ts) : IsText ([sep].intercalate ts) := by
  obtain ⟨hne, htexts⟩ := hts
  induction ts with
  | nil => exact absurd rfl hne
  | cons first more ih =>
    obtain ⟨hfirst, hmore⟩ := List.forall_mem_cons.mp htexts
    cases more with
    | nil =>
      rw [List.intercalate_singleton]
      exact hfirst
    | cons next more =>
      have hrest := ih (List.cons_ne_nil _ _) hmore
      have hjoin : [sep].intercalate (first :: next :: more) =
          first ++ sep :: [sep].intercalate (next :: more) := by
        rw [List.intercalate_cons_cons, List.append_assoc]
        rfl
      have hnonempty : first ++ sep :: [sep].intercalate (next :: more) ≠ [] := by simp
      rw [hjoin]
      refine ⟨(isText_iff hnonempty).mpr ⟨?_, ?_⟩, hnonempty⟩
      · rw [List.head_append_of_ne_nil hfirst.2]
        exact ((isText_iff hfirst.2).mp hfirst.1).1
      · rw [List.getLast_append_of_ne_nil _ (List.cons_ne_nil _ _), List.getLast_cons hrest.2]
        exact ((isText_iff hrest.2).mp hrest.1).2

/-- Elements without a separator are what the joined text is cut into. -/
theorem cut_join (hsep : isSeparator sep = true) (hne : ts ≠ [])
    (hts : ∀ t ∈ ts, ∀ c ∈ t, isSeparator c = false) :
    ([sep].intercalate ts).splitOnP isSeparator = ts := by
  induction ts with
  | nil => exact absurd rfl hne
  | cons first more ih =>
    obtain ⟨hfirst, hmore⟩ := List.forall_mem_cons.mp hts
    cases more with
    | nil =>
      rw [List.intercalate_singleton]
      exact List.splitOnP_eq_singleton hfirst
    | cons next more =>
      rw [List.intercalate_cons_cons, List.append_assoc, List.singleton_append,
        List.splitOnP_append_cons_of_forall_mem hfirst sep hsep, ih (List.cons_ne_nil _ _) hmore]

theorem mem_splitOnP {p : Char → Bool} {t piece : Text} (h : piece ∈ t.splitOnP p) :
    ∀ c ∈ piece, p c = false := by
  induction t generalizing piece with
  | nil =>
    rw [List.splitOnP_nil, List.mem_singleton] at h
    rw [h]
    exact fun _ hc => absurd hc List.not_mem_nil
  | cons c t ih =>
    rw [List.splitOnP_cons_eq_if_modifyHead] at h
    split at h
    · rcases List.mem_cons.mp h with rfl | h
      · exact fun _ hc => absurd hc List.not_mem_nil
      · exact ih h
    · rename_i hc
      obtain ⟨first, more, heq⟩ := List.exists_cons_of_ne_nil (List.splitOnP_ne_nil p t)
      rw [heq, List.modifyHead_cons] at h
      rcases List.mem_cons.mp h with rfl | h
      · refine List.forall_mem_cons.mpr ⟨Bool.eq_false_iff.mpr hc, ih ?_⟩
        rw [heq]
        exact List.mem_cons_self
      · refine ih ?_
        rw [heq]
        exact List.mem_cons_of_mem _ h

theorem nonEmpty_eq_some {values : List Text} (hne : ts ≠ []) :
    nonEmpty values = some ts ↔ values.filter (· ≠ []) = ts := by
  unfold nonEmpty
  dsimp only
  split
  · rename_i hnil
    rw [hnil]
    exact ⟨nofun, fun h => absurd h.symm hne⟩
  · rw [Option.some.injEq]

/-- What is read of a list that was joined: as YAML it is a list with these elements, or it is no
list and no element has a separator. -/
def ListKept (client : Client) (sep : Char) (ts : List Text) : Prop :=
  match client.parse ([sep].intercalate ts) with
  | some (.list xs) => (xs.map (asTrimmed client)).filter (· ≠ []) = ts
  | _ => ∀ t ∈ ts, ∀ c ∈ t, isSeparator c = false

theorem parseStringList_join (hsep : isSeparator sep = true) (hts : IsTexts ts) :
    parseStringList client (.str ([sep].intercalate ts)) = some ts ↔ ListKept client sep ts := by
  obtain ⟨htrim, hne⟩ := @isText_join sep ts hts
  have hcut : nonEmpty ((([sep].intercalate ts).splitOnP isSeparator).map jsTrim) = some ts ↔
      ∀ t ∈ ts, ∀ c ∈ t, isSeparator c = false := by
    rw [nonEmpty_eq_some hts.1]
    constructor
    · intro hback t ht c hc
      rw [← hback] at ht
      obtain ⟨piece, hpiece, rfl⟩ := List.mem_map.mp (List.mem_of_mem_filter ht)
      exact mem_splitOnP hpiece c
        ((List.dropWhile_suffix _).subset ((List.rdropWhile_prefix _ _).subset hc))
    · intro hplain
      have hsame : ts.map jsTrim = ts := by
        conv_rhs => rw [← List.map_id ts]
        exact List.map_congr_left fun t ht => (hts.2 t ht).1
      rw [cut_join hsep hts.1 hplain, hsame]
      exact List.filter_eq_self.mpr fun t ht => decide_eq_true (hts.2 t ht).2
  unfold parseStringList ListKept
  rw [asTrimmed_str htrim]
  dsimp only
  cases client.parse ([sep].intercalate ts) with
  | none => exact hcut
  | some v =>
    cases v with
    | list xs =>
      dsimp only
      rw [if_neg hne]
      exact nonEmpty_eq_some hts.1
    | _ => exact hcut

end Joined

/-! ## Opened and applied -/

/-- The lists and the tokens of a user are what is read of the form. -/
structure FormKeeps (client : Client) (stringify : Val → Text) (user : WorkspaceUser) : Prop where
  roles : ∀ ts, user.roles = some ts → ListKept client ',' ts
  authorizedKeys : ∀ ts, user.authorizedKeys = some ts → ListKept client '\n' ts
  tokens : ∀ d, user.tokens = some d → jsTrim (stringify (.dict d)) ≠ [] ∧
    client.parse (jsTrim (stringify (.dict d))) = some (.dict d)

section Applied
variable {client} {stringify : Val → Text} {user : WorkspaceUser}

theorem parseOptionalObject_eq_some {raw : Text} {d : Dict} (htrim : jsTrim raw = raw) :
    parseOptionalObject client (.str raw) = some d ↔
      raw ≠ [] ∧ client.parse raw = some (.dict d) := by
  unfold parseOptionalObject
  rw [asTrimmed_str htrim]
  dsimp only
  cases client.parse raw with
  | none => exact ⟨nofun, fun h => nomatch h.2⟩
  | some v =>
    cases v with
    | dict items =>
      dsimp only
      by_cases hempty : raw = []
      · rw [if_pos hempty]
        exact ⟨nofun, fun h => absurd hempty h.1⟩
      · rw [if_neg hempty, Option.some.injEq, Option.some.injEq, Val.dict.injEq]
        exact ⟨fun h => ⟨hempty, h⟩, And.right⟩
    | _ => exact ⟨nofun, fun h => nomatch h.2⟩

theorem parseStringList_form {sep : Char} (hsep : isSeparator sep = true)
    {ts : Option (List Text)} (hts : ∀ l, ts = some l → IsTexts l) :
    parseStringList client (.str (ts.elim [] [sep].intercalate)) = ts ↔
      ∀ l, ts = some l → ListKept client sep l := by
  cases ts with
  | none => exact ⟨fun _ => nofun, fun _ => parseStringList_empty⟩
  | some l =>
    refine (parseStringList_join hsep (hts l rfl)).trans ⟨?_, fun h => h l rfl⟩
    rintro hkept _ ⟨⟩
    exact hkept

theorem parseOptionalObject_form {d : Option Dict} :
    parseOptionalObject client (.str (d.elim [] fun d => jsTrim (stringify (.dict d)))) = d ↔
      ∀ m, d = some m → jsTrim (stringify (.dict m)) ≠ [] ∧
        client.parse (jsTrim (stringify (.dict m))) = some (.dict m) := by
  cases d with
  | none => exact ⟨fun _ => nofun, fun _ => parseOptionalObject_empty⟩
  | some m =>
    refine (parseOptionalObject_eq_some (jsTrim_jsTrim _)).trans ⟨?_, fun h => h m rfl⟩
    rintro hback _ ⟨⟩
    exact hback

/-- A user's form is read as the user, its lists and its tokens apart. -/
theorem formUser_userToForm (hnumbers : Numbers client) (huser : Normalized client user) :
    formUser client (userToForm client stringify user) =
      if jsTrim (userToForm client stringify user).tokens ≠ [] ∧
          (parseOptionalObject client (.str (userToForm client stringify user).tokens)).isNone then
        .error "Tokens must be a YAML/JSON object."
      else .ok { user with
        roles := parseStringList client (.str (userToForm client stringify user).roles)
        tokens := parseOptionalObject client (.str (userToForm client stringify user).tokens)
        authorizedKeys :=
          parseStringList client (.str (userToForm client stringify user).authorizedKeys) } := by
  have hname : lower (jsTrim (userToForm client stringify user).username) = user.username :=
    slug_trimmed (Bool.and_eq_true_iff.mp huser.username).2
  have hfirst : jsTrim (userToForm client stringify user).firstname = user.firstname :=
    huser.firstname.1
  have hlast : jsTrim (userToForm client stringify user).lastname = user.lastname :=
    huser.lastname.1
  have hemail : orNone (asTrimmed client (.str (userToForm client stringify user).email)) =
      user.email := orNone_back huser.email
  have hpassword : orNone (asTrimmed client (.str (userToForm client stringify user).password)) =
      user.password := orNone_back huser.password
  have hdescription : orNone (asTrimmed client
      (.str (userToForm client stringify user).description)) = user.description :=
    orNone_back huser.description
  have huid : parseOptionalInt client (.str (userToForm client stringify user).uid) = user.uid :=
    parseOptionalInt_back hnumbers huser.uid
  have hgid : parseOptionalInt client (.str (userToForm client stringify user).gid) = user.gid :=
    parseOptionalInt_back hnumbers huser.gid
  unfold formUser
  dsimp only
  rw [hname, hfirst, hlast, hemail, hpassword, hdescription, huid, hgid, huser.username, if_neg,
    if_neg]
  · rfl
  · rw [not_or]
    exact ⟨huser.firstname.2, huser.lastname.2⟩
  · nofun

theorem formUser_eq_ok_iff (hnumbers : Numbers client) (huser : Normalized client user) :
    formUser client (userToForm client stringify user) = .ok user ↔
      FormKeeps client stringify user := by
  have hroles := @parseStringList_form client ',' rfl user.roles huser.roles
  have hkeys := @parseStringList_form client '\n' rfl user.authorizedKeys huser.authorizedKeys
  have htokens := @parseOptionalObject_form client stringify user.tokens
  rw [formUser_userToForm hnumbers huser]
  constructor
  · intro h
    split at h
    · cases h
    · have hsame := Except.ok.inj h
      exact {
        roles := hroles.mp (congrArg WorkspaceUser.roles hsame)
        authorizedKeys := hkeys.mp (congrArg WorkspaceUser.authorizedKeys hsame)
        tokens := htokens.mp (congrArg WorkspaceUser.tokens hsame) }
  · intro h
    have hread : parseOptionalObject client (.str (userToForm client stringify user).tokens) =
        user.tokens := htokens.mpr h.tokens
    have hreadRoles : parseStringList client (.str (userToForm client stringify user).roles) =
        user.roles := hroles.mpr h.roles
    have hreadKeys : parseStringList client
        (.str (userToForm client stringify user).authorizedKeys) = user.authorizedKeys :=
      hkeys.mpr h.authorizedKeys
    rw [hread, hreadRoles, hreadKeys, if_neg]
    rintro ⟨hblank, hnone⟩
    rw [Option.isNone_iff_eq_none] at hnone
    refine hblank ?_
    unfold userToForm
    rw [hnone]
    rfl

/-- The user of a name is found, when no other has it. -/
theorem find_user {users : List WorkspaceUser} (hnodup : (users.map (·.username)).Nodup)
    (hmem : user ∈ users) :
    (users.find? fun entry => entry.username = user.username) = some user := by
  cases hfind : users.find? fun entry => entry.username = user.username with
  | none => exact absurd (decide_eq_true rfl) (List.find?_eq_none.mp hfind user hmem)
  | some target =>
    have hname : target.username = user.username := by simpa using List.find?_some hfind
    rw [List.inj_on_of_nodup_map hnodup (List.mem_of_find?_eq_some hfind) hmem hname]

/-- Applying the form of a user that was just opened. -/
theorem applyUserEditor_opened (hnumbers : Numbers client) (huser : Normalized client user)
    {s : UsersEditor} (hnodup : (s.usersDraft.map (·.username)).Nodup)
    (hmem : user ∈ s.usersDraft) :
    (applyUserEditor client (startEditUserEditor client stringify user.username s)).usersError =
        none ∧
      (applyUserEditor client (startEditUserEditor client stringify user.username s)).usersDraft =
        s.usersDraft ↔ formUser client (userToForm client stringify user) = .ok user := by
  have hne : user.username ≠ [] := by
    intro hempty
    have hname := huser.username
    rw [hempty] at hname
    cases hname
  unfold startEditUserEditor
  rw [find_user hnodup hmem]
  unfold applyUserEditor
  dsimp only
  cases hform : formUser client (userToForm client stringify user) with
  | error e => exact ⟨fun h => (nomatch h.1), nofun⟩
  | ok nextUser =>
    have hname : nextUser.username = user.username := by
      rw [formUser_userToForm hnumbers huser] at hform
      split at hform
      · cases hform
      · rw [← Except.ok.inj hform]
    have hkey : (if UsersEditorMode.edit = .edit then truthy (some user.username) else none) =
        some user.username := orNone_of_ne hne
    dsimp only
    rw [hkey, hname, if_neg fun h => h.1 rfl]
    dsimp only
    rw [Except.ok.injEq]
    constructor
    · rintro ⟨-, hdraft⟩
      have hsame : s.usersDraft.map (fun entry => if entry.username = user.username then nextUser
          else entry) = s.usersDraft.map id := hdraft.trans (List.map_id _).symm
      have hself := List.map_inj_left.mp hsame user hmem
      rwa [if_pos rfl] at hself
    · rintro rfl
      refine ⟨rfl, ?_⟩
      conv_rhs => rw [← List.map_id s.usersDraft]
      refine List.map_congr_left fun entry hentry => ?_
      split
      · rename_i hentryName
        exact (List.inj_on_of_nodup_map hnodup hentry hmem hentryName).symm
      · rfl

/-- **Opened and applied without a change**, a user stays what it was, and so do the others, for
exactly the users whose form keeps them. -/
theorem edit_unchanged_iff (hnumbers : Numbers client) {value : Val}
    (hmem : user ∈ extractWorkspaceUsers client value) {s : UsersEditor}
    (hs : s.usersDraft = extractWorkspaceUsers client value) :
    (applyUserEditor client (startEditUserEditor client stringify user.username s)).usersError =
        none ∧
      (applyUserEditor client (startEditUserEditor client stringify user.username s)).usersDraft =
        s.usersDraft ↔ FormKeeps client stringify user := by
  obtain ⟨hnodup, hnormal⟩ := extract_spec client value
  have huser := hnormal user hmem
  rw [← hs] at hnodup hmem
  rw [applyUserEditor_opened hnumbers huser hnodup hmem]
  exact formUser_eq_ok_iff hnumbers huser

end Applied

/-! ## A key with options -/

/-- A user with one authorized key, as an entry. -/
def keyEntry (key : Text) : Val :=
  .dict [(.str "username".toList, .str "ann".toList), (.str "firstname".toList, .str "ann".toList),
    (.str "lastname".toList, .str "lee".toList),
    (.str "authorized_keys".toList, .list [.str key])]

def keyUser (key : Text) : WorkspaceUser :=
  ⟨"ann", "ann", "lee", none, none, none, none, none, none, some [key], none, none⟩

def editorOf (users : List WorkspaceUser) : UsersEditor where
  usersDraft := users
  usersSelection := []
  userForm := emptyUserForm
  usersEditorMode := .create
  editingUsername := none
  userEntryModalOpen := false
  usersError := none
  usersStatus := none

theorem extract_keyEntry {key : Text}
    (h : normalizeWorkspaceUser plainClient (keyEntry key) none = some (keyUser key)) :
    extractWorkspaceUsers plainClient (.list [keyEntry key]) = [keyUser key] := by
  rw [extractWorkspaceUsers, List.filterMap_cons, h]
  rfl

theorem extract_plainKey : extractWorkspaceUsers plainClient (.list [keyEntry "ssh-rsa AAA"]) =
    [keyUser "ssh-rsa AAA"] := extract_keyEntry rfl

theorem extract_commandKey :
    extractWorkspaceUsers plainClient (.list [keyEntry "command=\"a,b\" ssh-rsa AAA"]) =
      [keyUser "command=\"a,b\" ssh-rsa AAA"] := extract_keyEntry rfl

theorem edit_unchanged_plainKey :
    (applyUserEditor plainClient (startEditUserEditor plainClient (fun _ => []) "ann"
        (editorOf [keyUser "ssh-rsa AAA"]))).usersError = none ∧
      (applyUserEditor plainClient (startEditUserEditor plainClient (fun _ => []) "ann"
        (editorOf [keyUser "ssh-rsa AAA"]))).usersDraft =
        (editorOf [keyUser "ssh-rsa AAA"]).usersDraft ↔
      FormKeeps plainClient (fun _ => []) (keyUser "ssh-rsa AAA") :=
  @edit_unchanged_iff plainClient (fun _ => []) (keyUser "ssh-rsa AAA") numbers_plainClient
    (.list [keyEntry "ssh-rsa AAA"]) (by rw [extract_plainKey]; exact List.mem_singleton_self _)
    (editorOf [keyUser "ssh-rsa AAA"]) extract_plainKey.symm

/-- Without tokens nothing is written as YAML. -/
theorem start_keyUser (stringify : Val → Text) (key : Text) :
    startEditUserEditor plainClient stringify "ann" (editorOf [keyUser key]) =
      startEditUserEditor plainClient (fun _ => []) "ann" (editorOf [keyUser key]) := rfl

/-- The key is cut at the comma of its options. -/
theorem command_key_is_cut :
    keyUser "command=\"a,b\" ssh-rsa AAA" ∈ extractWorkspaceUsers plainClient
      (.list [keyEntry "command=\"a,b\" ssh-rsa AAA"]) ∧
    ∀ stringify : Val → Text, ((applyUserEditor plainClient (startEditUserEditor plainClient
      stringify "ann" (editorOf (extractWorkspaceUsers plainClient
        (.list [keyEntry "command=\"a,b\" ssh-rsa AAA"]))))).usersDraft.map
          (·.authorizedKeys)) = [some ["command=\"a".toList, "b\" ssh-rsa AAA".toList]] := by
  rw [extract_commandKey]
  refine ⟨List.mem_singleton_self _, fun stringify => ?_⟩
  rw [start_keyUser]
  decide +kernel

end Infinito.Panel
