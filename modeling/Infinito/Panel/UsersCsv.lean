import Infinito.Panel.Users
import Infinito.Panel.Csv

/-!
# The users CSV

`usersToCsv` writes a row for each user, lists and tokens as JSON; `parseUsersFromCsv` reads the
rows back by their headers and normalises what it finds.

`parse_usersToCsv_iff` says for which users the round trip holds: every name, e-mail address,
password and description with a carriage return has a quote, a comma or a line feed as well.
-/

set_option autoImplicit false

namespace Infinito.Panel

open Py Lib
open Infinito.Orders (Client WorkspaceUser isJsSpace jsTrim jsTrim_jsTrim asTrimmed orElse
  usernamePattern parseOptionalInt parseStringList parseOptionalObject parseReserved nonEmpty
  normalizeWorkspaceUser dedupeWorkspaceUsers dedupe_eq_self slug_trimmed isSlugChar
  isSlugChar_range)

variable (client : Client)

/-- `USER_CSV_HEADERS` -/
def userCsvHeaders : List Text :=
  ["username", "firstname", "lastname", "email", "password", "uid", "gid", "roles", "tokens",
    "authorized_keys", "reserved", "description"]

/-! ## Writing -/

def jsonCell (value : Option Val) : Text := value.elim [] (jsonText client)

def boolCell (b : Option Bool) : Text := b.elim [] fun b => if b then "true" else "false"

def csvCells (user : WorkspaceUser) : List Text :=
  [user.username, user.firstname, user.lastname, user.email.getD [], user.password.getD [],
    numberText client user.uid, numberText client user.gid,
    jsonCell client (user.roles.map textsValue), jsonCell client (user.tokens.map .dict),
    jsonCell client (user.authorizedKeys.map textsValue), boolCell user.reserved,
    user.description.getD []]

def usersToCsv (users : List WorkspaceUser) : Text :=
  csvText (userCsvHeaders :: users.map (csvCells client))

/-! ## Reading -/

/-- `replace(/\s+/g, "_")` -/
def joinBlanks : Text → Text
  | [] => []
  | c :: t =>
      if isJsSpace c then
        if (t.head?.any isJsSpace) then joinBlanks t else '_' :: joinBlanks t
      else c :: joinBlanks t

def csvHeader (header : Text) : Text := joinBlanks (lower (jsTrim header))

/-- `record`, the cells by their headers. -/
def csvRecord : List Text → List Text → Dict → Dict
  | [], _, record => record
  | header :: headers, cells, record =>
      csvRecord headers cells.tail
        (if header = [] then record else Dict.set header (.str (cells.headD [])) record)

/-- The entry that is made of a record. -/
def csvEntry (record : Dict) : Dict :=
  [(.str "username".toList, orElse (orElse (Dict.get record "username") (Dict.get record "user"))
      (Dict.get record "login")),
    (.str "firstname".toList, orElse (Dict.get record "firstname") (Dict.get record "first_name")),
    (.str "lastname".toList, orElse (Dict.get record "lastname") (Dict.get record "last_name")),
    (.str "email".toList, Dict.get record "email"),
    (.str "password".toList, Dict.get record "password"),
    (.str "uid".toList, Dict.get record "uid"),
    (.str "gid".toList, Dict.get record "gid"),
    (.str "roles".toList, Dict.get record "roles"),
    (.str "tokens".toList, Dict.get record "tokens"),
    (.str "authorized_keys".toList,
      orElse (orElse (Dict.get record "authorized_keys") (Dict.get record "authorizedkeys"))
        (Dict.get record "authorized_key")),
    (.str "reserved".toList, Dict.get record "reserved"),
    (.str "description".toList, Dict.get record "description")]

def csvUser (headers cells : List Text) : Option WorkspaceUser :=
  normalizeWorkspaceUser client (.dict (csvEntry (csvRecord headers cells []))) none

def parseUsersFromCsv (content : Text) : List WorkspaceUser :=
  match parseCsvRows content with
  | [] => []
  | header :: rows =>
      dedupeWorkspaceUsers (rows.filterMap (csvUser client (header.map csvHeader)))

/-! ## The cells of a user -/

/-- The texts that are written as they are. -/
def userTexts (user : WorkspaceUser) : List Text :=
  user.firstname :: user.lastname ::
    (user.email.toList ++ user.password.toList ++ user.description.toList)

section Cells
variable {client} {user : WorkspaceUser}

theorem not_mem_slug {t : Text} (h : usernamePattern t = true) : '\r' ∉ t := by
  intro hmem
  unfold usernamePattern at h
  have hslug := List.all_eq_true.mp (Bool.and_eq_true_iff.mp h).2 _ hmem
  exact absurd hslug (by decide)

theorem not_mem_numberText (h : Numbers client) (n : Option Nat) :
    '\r' ∉ numberText client n := by
  cases n with
  | none => exact List.not_mem_nil
  | some n => exact not_mem_of_number (h.string_int n).2

theorem not_mem_jsonCell (h : Numbers client) (value : Option Val) :
    '\r' ∉ jsonCell client value := by
  cases value with
  | none => exact List.not_mem_nil
  | some value => exact not_mem_jsonText h value

theorem not_mem_boolCell : ∀ b : Option Bool, '\r' ∉ boolCell b
  | none => List.not_mem_nil
  | some true => by decide
  | some false => by decide

/-- Each cell is one of the texts of the user, or has no carriage return. -/
theorem mem_csvCells (hnumbers : Numbers client) (huser : Normalized client user) :
    ∀ cell ∈ csvCells client user, '\r' ∉ cell ∨ cell ∈ userTexts user := by
  have htext : ∀ t : Option Text, (∀ u, t = some u → u ∈ userTexts user) →
      '\r' ∉ t.getD [] ∨ t.getD [] ∈ userTexts user := by
    intro t ht
    cases t with
    | none => exact Or.inl List.not_mem_nil
    | some u => exact Or.inr (ht u rfl)
  intro cell hcell
  simp only [csvCells, List.mem_cons, List.not_mem_nil, or_false] at hcell
  rcases hcell with rfl | rfl | rfl | rfl | rfl | rfl | rfl | rfl | rfl | rfl | rfl | rfl
  · exact Or.inl (not_mem_slug huser.username)
  · exact Or.inr List.mem_cons_self
  · exact Or.inr (List.mem_cons_of_mem _ List.mem_cons_self)
  · exact htext user.email fun u hu => by simp [userTexts, hu]
  · exact htext user.password fun u hu => by simp [userTexts, hu]
  · exact Or.inl (not_mem_numberText hnumbers _)
  · exact Or.inl (not_mem_numberText hnumbers _)
  · exact Or.inl (not_mem_jsonCell hnumbers _)
  · exact Or.inl (not_mem_jsonCell hnumbers _)
  · exact Or.inl (not_mem_jsonCell hnumbers _)
  · exact Or.inl (not_mem_boolCell _)
  · exact htext user.description fun u hu => by simp [userTexts, hu]

theorem jsTrim_getD {t : Option Text} (h : ∀ u, t = some u → IsText u) :
    jsTrim (t.getD []) = t.getD [] := by
  cases t with
  | none => rfl
  | some u => exact (h u rfl).1

/-- What is written for a list or for the tokens: nothing, or JSON between brackets. -/
theorem jsTrim_jsonCell {value : Option Val}
    (h : ∀ v, value = some v → (∃ xs, v = .list xs) ∨ ∃ d, v = .dict d) :
    jsTrim (jsonCell client value) = jsonCell client value := by
  cases value with
  | none => rfl
  | some v =>
    rcases h v rfl with ⟨xs, rfl⟩ | ⟨d, rfl⟩
    · exact jsTrim_jsonList xs
    · exact jsTrim_jsonDict d

theorem isList_of_texts {ts : Option (List Text)} {v : Val} (h : ts.map textsValue = some v) :
    (∃ xs, v = .list xs) ∨ ∃ d, v = .dict d := by
  obtain ⟨ts, -, rfl⟩ := Option.map_eq_some_iff.mp h
  exact Or.inl ⟨_, rfl⟩

theorem isDict_of_tokens {d : Option Dict} {v : Val} (h : d.map Val.dict = some v) :
    (∃ xs, v = .list xs) ∨ ∃ d, v = .dict d := by
  obtain ⟨d, -, rfl⟩ := Option.map_eq_some_iff.mp h
  exact Or.inr ⟨_, rfl⟩

theorem jsTrim_csvCells (hnumbers : Numbers client) (huser : Normalized client user) :
    ∀ cell ∈ csvCells client user, jsTrim cell = cell := by
  intro cell hcell
  simp only [csvCells, List.mem_cons, List.not_mem_nil, or_false] at hcell
  rcases hcell with rfl | rfl | rfl | rfl | rfl | rfl | rfl | rfl | rfl | rfl | rfl | rfl
  · exact jsTrim_slug huser.username
  · exact huser.firstname.1
  · exact huser.lastname.1
  · exact jsTrim_getD huser.email
  · exact jsTrim_getD huser.password
  · exact jsTrim_numberText hnumbers _
  · exact jsTrim_numberText hnumbers _
  · exact jsTrim_jsonCell fun _ => isList_of_texts
  · exact jsTrim_jsonCell fun _ => isDict_of_tokens
  · exact jsTrim_jsonCell fun _ => isList_of_texts
  · cases user.reserved with
    | none => rfl
    | some reserved => cases reserved <;> decide
  · exact jsTrim_getD huser.description

end Cells

/-! ## A user that is read back -/

section Back
variable {client} {user : WorkspaceUser}

theorem parseStringList_cell {ts : Option (List Text)} (hts : ∀ l, ts = some l → IsTexts l)
    (hinverts : ∀ l, ts = some l → Inverts client (textsValue l)) :
    parseStringList client (.str (jsonCell client (ts.map textsValue))) = ts := by
  cases ts with
  | none => exact parseStringList_empty
  | some l =>
    refine parseStringList_of_parse (hts l rfl) (jsTrim_jsonList _) ?_ (hinverts l rfl)
    change jsonText client (.list _) ≠ []
    rw [jsonText]
    exact List.cons_ne_nil _ _

theorem parseOptionalObject_cell {d : Option Dict} (hd : ∀ m, d = some m → m ≠ [])
    (hinverts : ∀ m, d = some m → Inverts client (.dict m)) :
    (parseOptionalObject client (.str (jsonCell client (d.map .dict)))).filter
      (fun m => !m.isEmpty) = d := by
  cases d with
  | none =>
    change (parseOptionalObject client (.str [])).filter _ = none
    rw [parseOptionalObject_empty]
    rfl
  | some m =>
    have hne : jsonText client (.dict m) ≠ [] := by
      rw [jsonText]
      exact List.cons_ne_nil _ _
    change (parseOptionalObject client (.str (jsonText client (.dict m)))).filter _ = some m
    rw [parseOptionalObject_of_parse (jsTrim_jsonDict m) hne (hinverts m rfl),
      Option.filter_some, if_pos]
    simpa using hd m rfl

theorem parseReserved_cell : ∀ b : Option Bool, parseReserved client (.str (boolCell b)) = b
  | none => rfl
  | some true => rfl
  | some false => rfl

/-- JSON is read back where the user has it. -/
structure JsonRead (client : Client) (user : WorkspaceUser) : Prop where
  roles : ∀ ts, user.roles = some ts → Inverts client (textsValue ts)
  tokens : ∀ d, user.tokens = some d → Inverts client (.dict d)
  authorizedKeys : ∀ ts, user.authorizedKeys = some ts → Inverts client (textsValue ts)

theorem get_csvRecord_of_not_mem {headers cells : List Text} {key : Text} (h : key ∉ headers)
    (record : Dict) : Dict.get (csvRecord headers cells record) key = Dict.get record key := by
  induction headers generalizing cells record with
  | nil => rfl
  | cons header headers ih =>
    rw [List.mem_cons, not_or] at h
    rw [csvRecord, ih h.2]
    split
    · rfl
    · exact Dict.get_set_of_ne _ h.1

/-- The cell under a header. -/
theorem get_csvRecord {headers cells : List Text} (hnodup : headers.Nodup) (hblank : [] ∉ headers)
    {i : Nat} {key : Text} (h : headers[i]? = some key) (record : Dict) :
    Dict.get (csvRecord headers cells record) key = .str (cells.getD i []) := by
  induction headers generalizing cells record i with
  | nil => cases h
  | cons header headers ih =>
    obtain ⟨hnot, hnodup⟩ := List.nodup_cons.mp hnodup
    rw [List.mem_cons, not_or] at hblank
    cases i with
    | zero =>
      cases h
      rw [csvRecord, get_csvRecord_of_not_mem hnot, if_neg (Ne.symm hblank.1), Dict.get_set_self]
      cases cells <;> rfl
    | succ i =>
      rw [csvRecord, ih hnodup hblank.2 h]
      cases cells <;> rfl

theorem get_csvCells {i : Nat} {key : Text} (h : userCsvHeaders[i]? = some key) :
    Dict.get (csvRecord userCsvHeaders (csvCells client user) []) key =
      .str ((csvCells client user).getD i []) :=
  get_csvRecord (by decide) (by decide) h []

/-- An entry of texts, normalised. -/
theorem normalize_texts (username firstname lastname email password uid gid roles tokens keys
    reserved description : Text) :
    normalizeWorkspaceUser client (.dict [(.str "username".toList, .str username),
      (.str "firstname".toList, .str firstname), (.str "lastname".toList, .str lastname),
      (.str "email".toList, .str email), (.str "password".toList, .str password),
      (.str "uid".toList, .str uid), (.str "gid".toList, .str gid), (.str "roles".toList, .str roles),
      (.str "tokens".toList, .str tokens), (.str "authorized_keys".toList, .str keys),
      (.str "reserved".toList, .str reserved), (.str "description".toList, .str description)]) none =
    if usernamePattern (lower (jsTrim username)) = false ∨ jsTrim firstname = [] ∨
        jsTrim lastname = [] then none
    else some
      { username := lower (jsTrim username)
        firstname := jsTrim firstname
        lastname := jsTrim lastname
        email := orNone (asTrimmed client (.str email))
        password := orNone (asTrimmed client (.str password))
        uid := parseOptionalInt client (.str uid)
        gid := parseOptionalInt client (.str gid)
        roles := parseStringList client (.str roles)
        tokens := (parseOptionalObject client (.str tokens)).filter fun m => !m.isEmpty
        authorizedKeys := parseStringList client (.str keys)
        reserved := parseReserved client (.str reserved)
        description := orNone (asTrimmed client (.str description)) } := rfl

theorem csvUser_csvCells (hnumbers : Numbers client) (huser : Normalized client user)
    (hjson : JsonRead client user) :
    csvUser client userCsvHeaders (csvCells client user) = some user := by
  have hget := fun (i : Nat) (key : Text) (h : userCsvHeaders[i]? = some key) =>
    @get_csvCells client user i key h
  unfold csvUser csvEntry
  rw [hget 0 "username" rfl, hget 1 "firstname" rfl, hget 2 "lastname" rfl, hget 3 "email" rfl,
    hget 4 "password" rfl, hget 5 "uid" rfl, hget 6 "gid" rfl, hget 7 "roles" rfl,
    hget 8 "tokens" rfl, hget 9 "authorized_keys" rfl, hget 10 "reserved" rfl,
    hget 11 "description" rfl]
  have hname := slug_trimmed (Bool.and_eq_true_iff.mp huser.username).2
  have hemail := @orNone_back client _ huser.email
  have hpassword := @orNone_back client _ huser.password
  have hdescription := @orNone_back client _ huser.description
  have huid := parseOptionalInt_back hnumbers huser.uid
  have hgid := parseOptionalInt_back hnumbers huser.gid
  have hroles := parseStringList_cell huser.roles hjson.roles
  have htokens := parseOptionalObject_cell huser.tokens hjson.tokens
  have hkeys := parseStringList_cell huser.authorizedKeys hjson.authorizedKeys
  have hreserved := @parseReserved_cell client user.reserved
  refine (normalize_texts user.username user.firstname user.lastname (user.email.getD [])
    (user.password.getD []) (numberText client user.uid) (numberText client user.gid)
    (jsonCell client (user.roles.map textsValue)) (jsonCell client (user.tokens.map .dict))
    (jsonCell client (user.authorizedKeys.map textsValue)) (boolCell user.reserved)
    (user.description.getD [])).trans ?_
  rw [hname, huser.firstname.1, huser.lastname.1, hemail, hpassword, hdescription, huid, hgid,
    hroles, htokens, hkeys, hreserved, if_neg]
  rw [not_or, not_or, Bool.not_eq_false]
  exact ⟨huser.username, huser.firstname.2, huser.lastname.2⟩

end Back

/-! ## Users that do not come back -/

section Read
variable {client} {headers cells : List Text} {user : WorkspaceUser}

/-- What a record has under a key. -/
def FromCells (v : Val) : Prop := v = .none ∨ ∃ t, v = .str t ∧ Written t

theorem fromCells_orElse {a b : Val} (ha : FromCells a) (hb : FromCells b) :
    FromCells (orElse a b) := by
  rcases ha with rfl | ⟨t, rfl, ht⟩
  · exact hb
  · exact Or.inr ⟨t, rfl, ht⟩

theorem fromCells_csvRecord {record : Dict} (hcells : ∀ cell ∈ cells, Written cell)
    (hrecord : ∀ key, FromCells (Dict.get record key)) (key : Text) :
    FromCells (Dict.get (csvRecord headers cells record) key) := by
  induction headers generalizing cells record with
  | nil => exact hrecord key
  | cons header headers ih =>
    refine ih (fun cell hcell => hcells cell (List.mem_of_mem_tail hcell)) fun other => ?_
    split
    · exact hrecord other
    · by_cases hother : other = header
      · rw [hother, Dict.get_set_self]
        refine Or.inr ⟨_, rfl, ?_⟩
        cases cells with
        | nil => exact written_nil
        | cons cell cells => exact hcells cell List.mem_cons_self
      · rw [Dict.get_set_of_ne _ hother]
        exact hrecord other

theorem survives_asTrimmed {v : Val} (h : FromCells v) : Survives (asTrimmed client v) := by
  rcases h with rfl | ⟨t, rfl, hreturn | ⟨hquoting, htrim⟩⟩
  · exact Or.inl List.not_mem_nil
  · refine Or.inl fun hmem => hreturn ?_
    exact (List.dropWhile_suffix _).subset ((List.rdropWhile_prefix _ _).subset hmem)
  · rw [asTrimmed_str htrim]
    exact Or.inr hquoting

theorem survives_of_orNone {v : Val} {t : Text} (h : FromCells v)
    (ht : orNone (asTrimmed client v) = some t) : Survives t := by
  obtain ⟨rfl, -⟩ := orNone_eq_some.mp ht
  exact survives_asTrimmed h

/-- A user who was read has no text that would be cut. -/
theorem survives_csvUser (hcells : ∀ cell ∈ cells, Written cell)
    (h : csvUser client headers cells = some user) : ∀ t ∈ userTexts user, Survives t := by
  have hget : ∀ key, FromCells (Dict.get (csvRecord headers cells []) key) := fun key =>
    fromCells_csvRecord hcells (fun _ => Or.inl rfl) key
  unfold csvUser normalizeWorkspaceUser at h
  dsimp only at h
  split at h
  · cases h
  · cases h
    intro t ht
    simp only [userTexts, List.mem_cons, List.mem_append, Option.mem_toList] at ht
    rcases ht with rfl | rfl | (ht | ht) | ht
    · exact survives_asTrimmed (fromCells_orElse (hget "firstname") (hget "first_name"))
    · exact survives_asTrimmed (fromCells_orElse (hget "lastname") (hget "last_name"))
    · exact survives_of_orNone (hget "email") ht
    · exact survives_of_orNone (hget "password") ht
    · exact survives_of_orNone (hget "description") ht

end Read

/-! ## The round trip -/

section RoundTrip
variable {client} {users : List WorkspaceUser}

theorem parseUsersFromCsv_survives (hrows : ∀ user ∈ users, ∀ cell ∈ csvCells client user, Trimmed cell) :
    ∀ user ∈ parseUsersFromCsv client (usersToCsv client users), ∀ t ∈ userTexts user, Survives t := by
  have hwritten := @parseCsvRows_written (userCsvHeaders :: users.map (csvCells client)) (by
    intro row hrow cell hcell
    rcases List.mem_cons.mp hrow with rfl | hrow
    · refine Or.inl ?_
      revert cell
      decide
    · obtain ⟨user, huser, rfl⟩ := List.mem_map.mp hrow
      exact hrows user huser cell hcell)
  intro user huser
  unfold parseUsersFromCsv at huser
  cases hparse : parseCsvRows (usersToCsv client users) with
  | nil =>
    rw [hparse] at huser
    exact absurd huser List.not_mem_nil
  | cons header rows =>
    rw [hparse] at huser
    obtain ⟨cells, hcells, hread⟩ := List.mem_filterMap.mp (mem_dedupe huser)
    refine survives_csvUser (hwritten cells ?_) hread
    unfold usersToCsv at hparse
    rw [hparse]
    exact List.mem_cons_of_mem _ hcells

theorem filterMap_csvUser
    (h : ∀ user ∈ users, csvUser client userCsvHeaders (csvCells client user) = some user) :
    users.filterMap (csvUser client userCsvHeaders ∘ csvCells client) = users := by
  induction users with
  | nil => rfl
  | cons user users ih =>
    obtain ⟨huser, husers⟩ := List.forall_mem_cons.mp h
    rw [List.filterMap_cons, Function.comp_apply, huser]
    dsimp only
    rw [ih husers]

theorem survives_headers : ∀ cell ∈ userCsvHeaders, Survives cell ∧ dropMark cell = cell := by
  have hheaders : ∀ cell ∈ userCsvHeaders, '\r' ∉ cell ∧ dropMark cell = cell := by decide
  exact fun cell hcell => (hheaders cell hcell).imp_left Or.inl

theorem csvHeader_headers : userCsvHeaders.map csvHeader = userCsvHeaders := by decide

/-- **The round trip of the CSV** holds for exactly the users of whom no text is cut. -/
theorem parse_usersToCsv_iff (hnumbers : Numbers client)
    (hnormal : ∀ user ∈ users, ∃ value fallback,
      normalizeWorkspaceUser client value fallback = some user)
    (hnodup : (users.map (·.username)).Nodup) (hjson : ∀ user ∈ users, JsonRead client user) :
    parseUsersFromCsv client (usersToCsv client users) = users ↔
      ∀ user ∈ users, ∀ t ∈ userTexts user, Survives t := by
  have hnormalized : ∀ user ∈ users, Normalized client user := fun user huser =>
    let ⟨_, _, h⟩ := hnormal user huser
    normalized_of_normalize h
  constructor
  · intro hback user huser
    have hrows : ∀ user ∈ users, ∀ cell ∈ csvCells client user, Trimmed cell :=
      fun user huser cell hcell =>
        Or.inr (jsTrim_csvCells hnumbers (hnormalized user huser) cell hcell)
    refine parseUsersFromCsv_survives hrows user ?_
    rw [hback]
    exact huser
  · intro hsurvives
    have hrows : parseCsvRows (usersToCsv client users) =
        userCsvHeaders :: users.map (csvCells client) := by
      refine parseCsvRows_text (List.cons_ne_nil _ _) fun row hrow => ?_
      rcases List.mem_cons.mp hrow with rfl | hrow
      · exact ⟨⟨"username", List.mem_cons_self, by decide⟩, survives_headers⟩
      · obtain ⟨user, huser, rfl⟩ := List.mem_map.mp hrow
        have htrim := jsTrim_csvCells hnumbers (hnormalized user huser)
        refine ⟨⟨user.username, List.mem_cons_self, ?_⟩, fun cell hcell => ⟨?_, ?_⟩⟩
        · rw [jsTrim_slug (hnormalized user huser).username]
          intro hempty
          have hname := (hnormalized user huser).username
          rw [hempty] at hname
          cases hname
        · rcases mem_csvCells hnumbers (hnormalized user huser) cell hcell with h | h
          · exact Or.inl h
          · exact hsurvives user huser cell h
        · exact dropMark_of_trimmed (htrim cell hcell)
    unfold parseUsersFromCsv
    rw [hrows]
    dsimp only
    rw [csvHeader_headers, List.filterMap_map]
    rw [filterMap_csvUser fun user huser =>
      csvUser_csvCells hnumbers (hnormalized user huser) (hjson user huser)]
    refine dedupe_eq_self hnodup fun user huser hempty => ?_
    have hname := (hnormalized user huser).username
    rw [hempty] at hname
    cases hname

end RoundTrip

/-! ## A first name with a carriage return -/

def namedUser (firstname : Text) : WorkspaceUser :=
  ⟨"ann", firstname, "lee", none, none, none, none, none, none, none, none, none⟩

/-- The entry that gives this user. -/
def namedEntry (firstname : Text) : Val :=
  .dict [(.str "username".toList, .str "ann".toList), (.str "firstname".toList, .str firstname),
    (.str "lastname".toList, .str "lee".toList)]

theorem jsonRead_namedUser (firstname : Text) : JsonRead plainClient (namedUser firstname) :=
  ⟨nofun, nofun, nofun⟩

theorem parse_usersToCsv_comma :
    parseUsersFromCsv plainClient (usersToCsv plainClient [namedUser "a,\rb"]) = [namedUser "a,\rb"] ↔
      ∀ user ∈ [namedUser "a,\rb"], ∀ t ∈ userTexts user, Survives t := by
  refine parse_usersToCsv_iff numbers_plainClient ?_ (by decide) ?_
  · intro user huser
    rw [List.mem_singleton.mp huser]
    exact ⟨namedEntry "a,\rb", none, rfl⟩
  · intro user huser
    rw [List.mem_singleton.mp huser]
    exact jsonRead_namedUser _

/-- The carriage return ends the row, and the rest of it is no user. -/
theorem carriage_return_is_cut :
    (∃ value fallback, normalizeWorkspaceUser plainClient value fallback =
      some (namedUser "a\rb")) ∧
    parseUsersFromCsv plainClient (usersToCsv plainClient [namedUser "a\rb"]) ≠
      [namedUser "a\rb"] := by
  have hnobody :
      (parseUsersFromCsv plainClient (usersToCsv plainClient [namedUser "a\rb"])).length = 0 := by
    decide +kernel
  refine ⟨⟨namedEntry "a\rb", none, rfl⟩, fun hback => ?_⟩
  rw [hback] at hnobody
  cases hnobody

end Infinito.Panel
