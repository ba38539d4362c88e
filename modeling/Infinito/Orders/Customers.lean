import Infinito.Orders.Users

/-!
# Whom an order names

An anonymous order comes back with the name of a workspace user. The name is the local part
of the e-mail address, what is left of it in `a`–`z` and digits; who comes first to a name
has the entry, and who comes later under the same name gets that entry.

The web client reads the users section with `extractWorkspaceUsers`. It takes an entry only
with a first and a last name, and it takes a section with a key `users`, `username`,
`firstname` or `lastname` for something else than a map of users.

`attributed_iff` says for which runs of orders every customer has an entry of their own
that the client shows and keeps.
-/

set_option autoImplicit false

namespace Infinito.Orders

open Py Lib

/-! ## The client -/

/-- What the web client has from the language and the YAML library. -/
structure Client where
  /-- `String(value)` of a number or a list -/
  string : Val → Text
  /-- `Number(text)`, where that is finite -/
  number : Text → Option ℚ
  /-- `YAML.parse`, nothing when it throws -/
  parse : Text → Option Val

structure WorkspaceUser where
  username : Text
  firstname : Text
  lastname : Text
  email : Option Text
  password : Option Text
  uid : Option Nat
  gid : Option Nat
  roles : Option (List Text)
  tokens : Option Dict
  authorizedKeys : Option (List Text)
  reserved : Option Bool
  description : Option Text

/-- What `trim()` takes off. -/
def isJsSpace (c : Char) : Bool :=
  let n := c.toNat
  (9 ≤ n && n ≤ 13) || n == 0x20 || n == 0xa0 || n == 0x1680 || (0x2000 ≤ n && n ≤ 0x200a) ||
    n == 0x2028 || n == 0x2029 || n == 0x202f || n == 0x205f || n == 0x3000 || n == 0xfeff

def jsTrim (t : Text) : Text := (t.dropWhile isJsSpace).rdropWhile isJsSpace

variable (client : Client)

/-- `asTrimmed` -/
def asTrimmed (value : Val) : Text :=
  jsTrim (match value with
    | .none => []
    | .str t => t
    | .bool b => if b then "true" else "false"
    | .dict _ => "[object Object]"
    | v => client.string v)

/-- `a ?? b` -/
def orElse (a b : Val) : Val :=
  match a with
  | .none => b
  | v => v

/-- `USERNAME_PATTERN` -/
def usernamePattern (t : Text) : Bool := t ≠ [] && t.all isSlugChar

def parseOptionalInt (value : Val) : Option Nat :=
  match client.number (asTrimmed client value) with
  | some q => if asTrimmed client value ≠ [] ∧ 0 ≤ q.floor then some q.floor.toNat else none
  | none => none

def nonEmpty (values : List Text) : Option (List Text) :=
  let values := values.filter (· ≠ [])
  if values = [] then none else some values

def parseStringList (value : Val) : Option (List Text) :=
  let raw := asTrimmed client value
  match value, client.parse raw with
  | .list xs, _ => nonEmpty (xs.map (asTrimmed client))
  | _, some (.list xs) => if raw = [] then none else nonEmpty (xs.map (asTrimmed client))
  | _, _ => nonEmpty ((raw.splitOnP fun c => c = '\n' || c = ',' || c = '|').map jsTrim)

def parseOptionalObject (value : Val) : Option Dict :=
  let raw := asTrimmed client value
  match value, client.parse raw with
  | .dict d, _ => some d
  | _, some (.dict d) => if raw = [] then none else some d
  | _, _ => none

def parseReserved (value : Val) : Option Bool :=
  let raw := lower (asTrimmed client value)
  match value with
  | .bool b => some b
  | _ => if raw = "true".toList then some true else if raw = "false".toList then some false else none

def normalizeWorkspaceUser (value : Val) (fallbackUsername : Option Text) : Option WorkspaceUser :=
  match value with
  | .dict d =>
    let text (key : Text) : Text := asTrimmed client (Dict.get d key)
    let username := lower (asTrimmed client
      (orElse (Dict.get d "username") (textOrNone fallbackUsername)))
    if usernamePattern username = false ∨ text "firstname" = [] ∨ text "lastname" = [] then none
    else some
      { username := username
        firstname := text "firstname"
        lastname := text "lastname"
        email := orNone (text "email")
        password := orNone (text "password")
        uid := parseOptionalInt client (Dict.get d "uid")
        gid := parseOptionalInt client (Dict.get d "gid")
        roles := parseStringList client (Dict.get d "roles")
        tokens := (parseOptionalObject client (Dict.get d "tokens")).filter fun m => !m.isEmpty
        authorizedKeys := parseStringList client
          (orElse (Dict.get d "authorized_keys") (Dict.get d "authorizedKeys"))
        reserved := parseReserved client (Dict.get d "reserved")
        description := orNone (text "description") }
  | _ => none

/-- `dedupeWorkspaceUsers`: of two users of one name the later one, at its place. -/
def dedupeWorkspaceUsers (users : List WorkspaceUser) : List WorkspaceUser :=
  users.foldl (fun next user => if user.username = [] then next
    else next.filter (fun u => u.username ≠ user.username) ++ [user]) []

/-- An item of a map of users. -/
def mapUser (item : Val × Val) : Option WorkspaceUser :=
  let username : Text := match item.1 with
    | .str t => t
    | k => client.string k
  match item.2 with
  | .dict d => normalizeWorkspaceUser client (.dict (Dict.set "username"
      (orElse (Dict.get d "username") (.str username)) d)) (some username)
  | _ => none

theorem sizeOf_find {d : Dict} {key : Text} {v : Val} (hv : Dict.find d key = some v) :
    sizeOf v < sizeOf d := by
  induction d with
  | nil => cases hv
  | cons item d ih =>
    rw [Dict.find_cons] at hv
    obtain ⟨k, w⟩ := item
    split at hv
    · cases hv
      simp only [List.cons.sizeOf_spec, Prod.mk.sizeOf_spec]
      omega
    · have := ih hv
      simp only [List.cons.sizeOf_spec]
      omega

def extractWorkspaceUsers (value : Val) : List WorkspaceUser :=
  match value with
  | .list entries => dedupeWorkspaceUsers (entries.filterMap (normalizeWorkspaceUser client · none))
  | .dict d => match _hd : Dict.find d "users" with
    | some users => extractWorkspaceUsers users
    | none =>
      if Dict.has d "username" || Dict.has d "firstname" || Dict.has d "lastname" then
        (normalizeWorkspaceUser client (.dict d) none).toList
      else dedupeWorkspaceUsers (d.filterMap (mapUser client))
  | _ => []
termination_by sizeOf value
decreasing_by
  have := sizeOf_find _hd
  simp only [Val.dict.sizeOf_spec]
  omega

/-- `toYamlUserEntry` -/
def toYamlUserEntry (user : WorkspaceUser) : Dict :=
  let optional (key : Text) (value : Option Val) : Dict := (value.map fun v => (.str key, v)).toList
  [(.str "username", .str user.username), (.str "firstname", .str user.firstname),
    (.str "lastname", .str user.lastname)] ++
  optional "email" (user.email.map .str) ++ optional "password" (user.password.map .str) ++
  optional "uid" (user.uid.map fun n => .int n) ++ optional "gid" (user.gid.map fun n => .int n) ++
  optional "roles" (user.roles.map fun ts => .list (ts.map .str)) ++
  optional "tokens" (user.tokens.map .dict) ++
  optional "authorized_keys" (user.authorizedKeys.map fun ts => .list (ts.map .str)) ++
  optional "reserved" (user.reserved.map .bool) ++
  optional "description" (user.description.map .str)

/-- `toYamlUsersMap` -/
def toYamlUsersMap (users : List WorkspaceUser) : Dict :=
  users.foldl (fun out user => Dict.set user.username (.dict (toYamlUserEntry user)) out) []

/-- `saveWorkspaceUsers`: what the users section becomes when the panel saves what it shows,
    nothing when it refuses to. -/
def savedUsers (shown : List WorkspaceUser) : Option Dict :=
  let uniqueUsers := dedupeWorkspaceUsers (shown.filterMap fun user =>
    normalizeWorkspaceUser client (.dict (toYamlUserEntry user)) none)
  if uniqueUsers.length < shown.length then none else some (toYamlUsersMap uniqueUsers)

section Trim

theorem jsTrim_jsTrim (t : Text) : jsTrim (jsTrim t) = jsTrim t := trim_trim isJsSpace t

theorem isSlugChar_range {c : Char} (hc : isSlugChar c = true) :
    (97 ≤ c.toNat ∧ c.toNat ≤ 122) ∨ (48 ≤ c.toNat ∧ c.toNat ≤ 57) := by
  simp only [isSlugChar, Bool.or_eq_true, Bool.and_eq_true, decide_eq_true_eq] at hc
  exact hc

/-- A slug has nothing that is trimmed or lowered. -/
theorem slug_trimmed {t : Text} (ht : t.all isSlugChar = true) : lower (jsTrim t) = t := by
  have hrange : ∀ c ∈ t, (97 ≤ c.toNat ∧ c.toNat ≤ 122) ∨ (48 ≤ c.toNat ∧ c.toNat ≤ 57) :=
    fun c hc => isSlugChar_range (List.all_eq_true.mp ht c hc)
  have hspace : ∀ c ∈ t, isJsSpace c = false := by
    intro c hc
    have := hrange c hc
    simp only [isJsSpace, Bool.or_eq_false_iff, Bool.and_eq_false_iff, decide_eq_false_iff_not,
      beq_eq_false_iff_ne]
    omega
  have htrim : jsTrim t = t := trim_of_forall hspace
  rw [htrim]
  unfold lower
  conv_rhs => rw [← List.map_id t]
  refine List.map_congr_left fun c hc => ?_
  have := hrange c hc
  rw [if_neg]
  · unfold asciiLower
    rw [if_neg (by omega)]
    rfl
  · rintro rfl
    revert this
    decide

end Trim

section Normalize

variable {client} {d : Dict} {u f l : Text} {e : Option Text} {fallback : Option Text}

/-- A user with a name and an e-mail address, and nothing else. -/
def plainUser (username firstname lastname : Text) (email : Option Text) : WorkspaceUser :=
  ⟨username, firstname, lastname, email, none, none, none, none, none, none, none, none⟩

/-- The keys that an order does not write. -/
def otherKeys : List Text :=
  ["password", "uid", "gid", "roles", "tokens", "authorized_keys", "authorizedKeys", "reserved",
    "description"]

theorem asTrimmed_none : asTrimmed client .none = [] := rfl

/-- What is not there is no field of the user. -/
theorem parse_none (client : Client) : parseOptionalInt client .none = none ∧
    parseStringList client .none = none ∧ parseOptionalObject client .none = none ∧ parseReserved client .none = none := by
  refine ⟨?_, ?_, ?_, rfl⟩
  · unfold parseOptionalInt
    rw [asTrimmed_none]
    split
    · rw [if_neg fun h => h.1 rfl]
    · rfl
  · have hcut : nonEmpty (([].splitOnP fun c => c = '\n' || c = ',' || c = '|').map jsTrim) = none := by
      rw [List.splitOnP_nil]
      decide
    unfold parseStringList
    rw [asTrimmed_none]
    dsimp only
    cases client.parse [] with
    | none => exact hcut
    | some v =>
      cases v with
      | list xs => rfl
      | _ => exact hcut
  · unfold parseOptionalObject
    rw [asTrimmed_none]
    dsimp only
    cases client.parse [] with
    | none => rfl
    | some v => cases v <;> rfl

theorem normalize_plain (hu : Dict.get d "username" = .str u) (hf : Dict.get d "firstname" = .str f)
    (hl : Dict.get d "lastname" = .str l) (he : Dict.get d "email" = textOrNone e)
    (hrest : ∀ key ∈ otherKeys, Dict.get d key = .none) (hslug : usernamePattern u = true) :
    normalizeWorkspaceUser client (.dict d) fallback =
      if jsTrim f = [] ∨ jsTrim l = [] then none
      else some (plainUser u (jsTrim f) (jsTrim l) (orNone (jsTrim (e.getD [])))) := by
  obtain ⟨hint, hlist, hobject, hreserved⟩ := parse_none client
  have hname : lower (asTrimmed client (.str u)) = u := by
    refine slug_trimmed ?_
    unfold usernamePattern at hslug
    exact (Bool.and_eq_true_iff.mp hslug).2
  have hemail : asTrimmed client (textOrNone e) = jsTrim (e.getD []) := by cases e <;> rfl
  have hfirst : asTrimmed client (.str f) = jsTrim f := rfl
  have hlast : asTrimmed client (.str l) = jsTrim l := rfl
  unfold normalizeWorkspaceUser
  simp only [hu, hf, hl, he, hname, hslug, hemail, hfirst, hlast, Bool.true_eq_false, false_or,
    hrest "password" (by decide), hrest "uid" (by decide), hrest "gid" (by decide),
    hrest "roles" (by decide), hrest "tokens" (by decide), hrest "authorized_keys" (by decide),
    hrest "authorizedKeys" (by decide), hrest "reserved" (by decide),
    hrest "description" (by decide), orElse, hint, hlist, hobject, hreserved, asTrimmed_none]
  rfl

/-- An order's user, as the client takes it. -/
theorem normalize_newUser {username fullName email : Text} (hslug : usernamePattern username = true) :
    normalizeWorkspaceUser client (newUser username fullName email) fallback =
      if jsTrim (splitFullName fullName).1 = [] ∨ jsTrim (splitFullName fullName).2 = [] then none
      else some (plainUser username (jsTrim (splitFullName fullName).1)
        (jsTrim (splitFullName fullName).2) (orNone (jsTrim (strip email)))) := by
  unfold newUser
  refine normalize_plain (e := some (strip email)) rfl rfl rfl rfl ?_ hslug
  intro key hkey
  simp only [otherKeys, List.mem_cons, List.not_mem_nil, or_false] at hkey
  rcases hkey with rfl | rfl | rfl | rfl | rfl | rfl | rfl | rfl | rfl <;> rfl

/-- Saved, it is taken again as it is. -/
theorem normalize_toYaml {username first last email : Text} (hslug : usernamePattern username = true)
    (hfirst : jsTrim first ≠ []) (hlast : jsTrim last ≠ []) :
    let user := plainUser username (jsTrim first) (jsTrim last) (orNone (jsTrim email))
    normalizeWorkspaceUser client (.dict (toYamlUserEntry user)) fallback = some user := by
  intro user
  have hentry : normalizeWorkspaceUser client (.dict (toYamlUserEntry user)) fallback =
      if jsTrim (jsTrim first) = [] ∨ jsTrim (jsTrim last) = [] then none
      else some (plainUser username (jsTrim (jsTrim first)) (jsTrim (jsTrim last))
        (orNone (jsTrim ((orNone (jsTrim email)).getD [])))) := by
    refine normalize_plain rfl rfl rfl ?_ ?_ hslug
    · show Dict.get (toYamlUserEntry (plainUser _ _ _ (orNone (jsTrim email)))) _ = _
      cases orNone (jsTrim email) <;> rfl
    · intro key hkey
      simp only [otherKeys, List.mem_cons, List.not_mem_nil, or_false] at hkey
      show Dict.get (toYamlUserEntry (plainUser _ _ _ (orNone (jsTrim email)))) _ = _
      cases orNone (jsTrim email) <;>
        rcases hkey with rfl | rfl | rfl | rfl | rfl | rfl | rfl | rfl | rfl <;> rfl
  have hemail : orNone (jsTrim ((orNone (jsTrim email)).getD [])) = orNone (jsTrim email) := by
    by_cases hempty : jsTrim email = []
    · rw [hempty]
      rfl
    · rw [orNone_of_ne hempty, Option.getD_some, jsTrim_jsTrim, orNone_of_ne hempty]
  rw [hentry, hemail, jsTrim_jsTrim, jsTrim_jsTrim, if_neg (not_or.mpr ⟨hfirst, hlast⟩)]

end Normalize

/-! ## Runs of orders -/

/-- An order as it comes in, with the writes that fail. -/
structure Order where
  orderId : Text
  workspaceId : Text
  now : Text
  payload : Dict
  ownerId : Option Text
  ownerEmail : Option Text
  failing : Failing

namespace Order

variable (o : Order)

def email : Text := field o.payload "email"

def fullName : Text := field o.payload "full_name"

def slug : Text := slugifyUsername o.email

def user : Val := newUser o.slug o.fullName o.email

/-- A first name and a last name are left of the name. -/
def Named : Prop := jsTrim (splitFullName o.fullName).1 ≠ [] ∧ jsTrim (splitFullName o.fullName).2 ≠ []

end Order

variable {κ : Type} (yaml : Yaml κ)

/-- One order after the other, each of them successful. -/
def placeOrders : List Order → EStateM HttpError (OrderFiles κ) (List OrderReply)
  | [] => pure []
  | o :: orders => do
    let reply ← placeOrder yaml o.failing o.orderId o.workspaceId o.now o.payload o.ownerId o.ownerEmail
    let replies ← placeOrders orders
    return reply :: replies

/-- What an order adds to the map of users. -/
def book (m : Dict) (o : Order) : Dict :=
  if o.slug = [] ∨ Dict.has m o.slug = true then m else Dict.set o.slug o.user m

/-- The map of users as the orders see it, and the others once there is somebody in it. -/
structure Holds (file : Option κ) (m : Dict) : Prop where
  seen : usersMap (Dict.get (existing yaml file) "users") = m
  written : m ≠ [] → Dict.get (document yaml file) "users" = .dict m

section Runs

variable {yaml} {o : Order} {orders : List Order} {m : Dict} {files files' : OrderFiles κ}
  {reply : OrderReply} {replies : List OrderReply}

theorem existing_dump (doc : Dict) : existing yaml (some (yaml.dump (.dict doc))) = doc := by
  unfold existing mapping
  rw [Option.bind_some, yaml.safeLoad_dump]

/-- **One order**: the name it answers, and the map of users after it. -/
theorem holds_order (hanonymous : stripOrNone o.ownerId = none) (hholds : Holds yaml files.allYml m)
    (hok : placeOrder yaml o.failing o.orderId o.workspaceId o.now o.payload o.ownerId o.ownerEmail
      files = .ok reply files') :
    reply.workspaceUsername = orNone o.slug ∧ Holds yaml files'.allYml (book m o) := by
  obtain ⟨hemail, hreply, hfile⟩ := placeOrder_allYml hanonymous hok
  refine ⟨hreply, ?_⟩
  rw [ensure_document hemail] at hfile
  dsimp only at hfile
  rw [hholds.seen] at hfile
  unfold book
  by_cases hempty : o.slug = []
  · rw [if_pos (show slugifyUsername (field o.payload "email") = [] from hempty)] at hfile
    rw [hfile, if_pos (Or.inl hempty)]
    exact hholds
  rw [if_neg (show ¬ slugifyUsername (field o.payload "email") = [] from hempty)] at hfile
  by_cases hhas : Dict.has m o.slug = true
  · rw [if_pos (show Dict.has m (slugifyUsername (field o.payload "email")) = true from hhas)] at hfile
    rw [hfile, if_pos (Or.inr hhas)]
    exact hholds
  · rw [if_neg (show ¬ Dict.has m (slugifyUsername (field o.payload "email")) = true from hhas)] at hfile
    rw [hfile, if_neg (not_or.mpr ⟨hempty, hhas⟩)]
    refine ⟨?_, fun _ => ?_⟩
    · rw [existing_dump, Dict.get_set_self]
      rfl
    · rw [document_dump, Dict.get_set_self]
      rfl

/-- **A run of orders.** -/
theorem holds_orders (hanonymous : ∀ o ∈ orders, stripOrNone o.ownerId = none)
    (hholds : Holds yaml files.allYml m)
    (hok : placeOrders yaml orders files = .ok replies files') :
    replies.map (·.workspaceUsername) = orders.map (fun o => orNone o.slug) ∧
      Holds yaml files'.allYml (orders.foldl book m) := by
  induction orders generalizing m files replies with
  | nil =>
    cases hok
    exact ⟨rfl, hholds⟩
  | cons o orders ih =>
    obtain ⟨ho, horders⟩ := List.forall_mem_cons.mp hanonymous
    obtain ⟨reply, u, hfirst, hok⟩ := bind_eq_ok.mp hok
    obtain ⟨rest, v, hrest, hok⟩ := bind_eq_ok.mp hok
    cases hok
    obtain ⟨hreply, hnext⟩ := holds_order ho hholds hfirst
    obtain ⟨hreplies, hlast⟩ := ih horders hnext hrest
    exact ⟨by rw [List.map_cons, List.map_cons, hreply, hreplies], hlast⟩

/-- Who is first to a name has the entry. -/
theorem find_booked {key : Text} (hkey : key ≠ []) : Dict.find (orders.foldl book m) key =
    (Dict.find m key).or ((orders.find? fun o => o.slug = key).map (·.user)) := by
  induction orders generalizing m with
  | nil => rw [List.foldl_nil, List.find?_nil, Option.map_none, Option.or_none]
  | cons o orders ih =>
    rw [List.foldl_cons, ih, List.find?_cons]
    unfold book
    by_cases heq : o.slug = key
    · rw [decide_eq_true heq]
      by_cases hhas : Dict.has m o.slug = true
      · rw [if_pos (Or.inr hhas)]
        unfold Dict.has at hhas
        obtain ⟨v, hv⟩ := Option.isSome_iff_exists.mp hhas
        rw [← heq, hv]
        rfl
      · rw [if_neg (not_or.mpr ⟨heq ▸ hkey, hhas⟩), heq, Dict.find_set_self]
        have hnone : Dict.find m key = none := by
          rw [← heq]
          unfold Dict.has at hhas
          simpa using hhas
        rw [hnone]
        rfl
    · rw [decide_eq_false heq]
      split
      · rfl
      · rw [Dict.find_set_of_ne _ (Ne.symm heq)]

/-- Everything in the map is of some order. -/
theorem mem_booked (hm : (m.map (·.1)).Nodup) :
    ((orders.foldl book m).map (·.1)).Nodup ∧ ∀ item ∈ orders.foldl book m,
      item ∈ m ∨ ∃ o ∈ orders, o.slug ≠ [] ∧ item = (.str o.slug, o.user) := by
  induction orders generalizing m with
  | nil => exact ⟨hm, fun item h => Or.inl h⟩
  | cons o orders ih =>
    have hbook : ((book m o).map (·.1)).Nodup := by
      unfold book
      split
      · exact hm
      · exact Dict.nodup_set hm
    obtain ⟨hnodup, hfrom⟩ := ih hbook
    refine ⟨hnodup, fun item hitem => ?_⟩
    rcases hfrom item hitem with hitem | ⟨o', ho', h⟩
    · unfold book at hitem
      split at hitem
      · exact Or.inl hitem
      · rename_i hno
        rcases Dict.mem_of_mem_set hitem with hitem | heq
        · exact Or.inl hitem
        · exact Or.inr ⟨o, List.mem_cons_self, (not_or.mp hno).1, heq⟩
    · exact Or.inr ⟨o', List.mem_cons_of_mem _ ho', h⟩

end Runs

/-! ## What the panel shows and saves -/

section Panel

variable {client} {us : List WorkspaceUser}

theorem dedupe_eq_self (hnodup : (us.map (·.username)).Nodup) (hne : ∀ u ∈ us, u.username ≠ []) :
    dedupeWorkspaceUsers us = us := by
  have hgo : ∀ (us acc : List WorkspaceUser), ((acc ++ us).map (·.username)).Nodup →
      (∀ u ∈ us, u.username ≠ []) →
      us.foldl (fun next user => if user.username = [] then next
        else next.filter (fun u => u.username ≠ user.username) ++ [user]) acc = acc ++ us := by
    intro us
    induction us with
    | nil => intro acc _ _; exact (List.append_nil acc).symm
    | cons u us ih =>
      intro acc hnodup hne
      obtain ⟨hu, hus⟩ := List.forall_mem_cons.mp hne
      have hkeep : acc.filter (fun v => v.username ≠ u.username) = acc := by
        refine List.filter_eq_self.mpr fun v hv => decide_eq_true fun heq => ?_
        rw [List.map_append, List.nodup_append] at hnodup
        exact hnodup.2.2 _ (List.mem_map_of_mem hv) _ (List.mem_map_of_mem List.mem_cons_self) heq
      rw [List.foldl_cons, if_neg hu, hkeep, ih (acc ++ [u]) (by simpa using hnodup) hus]
      simp
  exact hgo us [] hnodup hne

/-- Users that are taken as they are saved are kept on saving. -/
theorem savedUsers_keeps (client : Client) (hnodup : (us.map (·.username)).Nodup)
    (hne : ∀ u ∈ us, u.username ≠ [])
    (hstable : ∀ u ∈ us, normalizeWorkspaceUser client (.dict (toYamlUserEntry u)) none = some u) :
    savedUsers client us = some (toYamlUsersMap us) ∧
      ∀ u ∈ us, (.str u.username, .dict (toYamlUserEntry u)) ∈ toYamlUsersMap us := by
  have hsame : us.filterMap (fun user =>
      normalizeWorkspaceUser client (.dict (toYamlUserEntry user)) none) = us := by
    rw [List.filterMap_congr hstable, List.filterMap_some]
  refine ⟨?_, fun u hu => ?_⟩
  · unfold savedUsers
    dsimp only
    rw [hsame, dedupe_eq_self hnodup hne, if_neg (lt_irrefl _)]
  · have hmap : toYamlUsersMap us = (us.map fun u => (u.username, Val.dict (toYamlUserEntry u))).foldl
        (fun m u => Dict.set u.1 u.2 m) [] := by
      unfold toYamlUsersMap
      rw [List.foldl_map]
    obtain ⟨-, hfrom, -, hthere⟩ :=
      collect (us.map fun u => (u.username, Val.dict (toYamlUserEntry u))) [] List.Pairwise.nil
    rw [← hmap] at hfrom hthere
    obtain ⟨v, hv⟩ := Dict.has_iff.mp (hthere _ (List.mem_map_of_mem hu))
    rcases hfrom _ hv with hnil | ⟨x, hx, heq⟩
    · cases hnil
    · obtain ⟨w, hw, rfl⟩ := List.mem_map.mp hx
      have hname : u.username = w.username := Val.str.inj (congrArg Prod.fst heq)
      rw [← List.inj_on_of_nodup_map hnodup hu hw hname] at heq
      rw [heq] at hv
      exact hv

end Panel

/-- A customer has an entry of their own, by the name the order gave, which the client takes,
    shows and keeps. -/
def Attributed (users : Val) (username : Option Text) (email : Text) : Prop :=
  ∃ name d user saved, username = some name ∧ (.str name, .dict d) ∈ usersOf users ∧
    Dict.get d "email" = .str email ∧
    normalizeWorkspaceUser client (.dict d) (some name) = some user ∧
    user ∈ extractWorkspaceUsers client users ∧
    savedUsers client (extractWorkspaceUsers client users) = some saved ∧
    (.str name, .dict (toYamlUserEntry user)) ∈ saved

/-- The keys by which the client takes a users section for something else. -/
def reservedNames : List Text := ["users", "username", "firstname", "lastname"]

/-- The orders of a run do not get in each other's way. -/
structure OwnEntries (orders : List Order) : Prop where
  slug : ∀ o ∈ orders, o.slug ≠ []
  email : ∀ o ∈ orders, ∀ o' ∈ orders, o.slug = o'.slug → o.email = o'.email
  named : ∀ o ∈ orders, ∀ first, (orders.find? fun x => x.slug = o.slug) = some first → first.Named
  panel : (∀ o ∈ orders, o.slug = "users".toList) ∨ ∀ o ∈ orders, o.slug ∉ reservedNames

section Attribution

variable {client} {o : Order} {orders : List Order}

theorem slug_all (seed : Text) : (slugifyUsername seed).all isSlugChar = true := by
  rw [List.all_eq_true]
  intro c hc
  exact (List.mem_filter.mp (List.mem_of_mem_take hc)).2

theorem slug_pattern (hne : o.slug ≠ []) : usernamePattern o.slug = true := by
  unfold usernamePattern
  rw [Bool.and_eq_true]
  exact ⟨decide_eq_true hne, slug_all _⟩

/-- A customer, as the client takes them. -/
def Order.shown (o : Order) : WorkspaceUser :=
  plainUser o.slug (jsTrim (splitFullName o.fullName).1) (jsTrim (splitFullName o.fullName).2)
    (orNone (jsTrim (strip o.email)))

theorem normalize_user (client : Client) (fallback : Option Text) (hne : o.slug ≠ [])
    {user : WorkspaceUser} :
    normalizeWorkspaceUser client o.user fallback = some user ↔ o.Named ∧ user = o.shown := by
  unfold Order.user
  rw [normalize_newUser (slug_pattern hne)]
  unfold Order.Named Order.shown
  split
  · rename_i h
    exact ⟨nofun, fun ⟨hnamed, _⟩ => absurd h (not_or.mpr hnamed)⟩
  · rename_i h
    rw [Option.some.injEq]
    exact ⟨fun heq => ⟨not_or.mp h, heq.symm⟩, fun ⟨_, heq⟩ => heq.symm⟩

theorem mapUser_user (hne : o.slug ≠ []) {user : WorkspaceUser} :
    mapUser client (.str o.slug, o.user) = some user ↔ o.Named ∧ user = o.shown := by
  rw [← normalize_user client (some o.slug) hne]
  exact Iff.rfl

/-- The map of users after a run that began with none. -/
def booked (orders : List Order) : Dict := orders.foldl book []

theorem booked_nodup : ((booked orders).map (·.1)).Nodup :=
  (mem_booked (m := []) List.Pairwise.nil).1

theorem mem_booked_order {item : Val × Val} (hitem : item ∈ booked orders) :
    ∃ o ∈ orders, o.slug ≠ [] ∧ item = (.str o.slug, o.user) := by
  rcases (mem_booked (m := []) List.Pairwise.nil).2 item hitem with hnil | h
  · cases hnil
  · exact h

theorem find_slug {key : Text} (hkey : key ≠ []) : Dict.find (booked orders) key =
    (orders.find? fun o => o.slug = key).map (·.user) := find_booked hkey

/-- The first order of a name. -/
theorem exists_first (ho : o ∈ orders) :
    ∃ first, (orders.find? fun x => x.slug = o.slug) = some first ∧ first ∈ orders ∧
      first.slug = o.slug := by
  cases hfind : orders.find? fun x => x.slug = o.slug with
  | none => simpa using List.find?_eq_none.mp hfind o ho
  | some first =>
    exact ⟨first, rfl, List.mem_of_find?_eq_some hfind, by simpa using List.find?_some hfind⟩

/-- With a user `users` in it, a section is taken for that one. -/
theorem extract_users {first : Order}
    (hfind : Dict.find (booked orders) "users" = some first.user) :
    extractWorkspaceUsers client (.dict (booked orders)) =
      (normalizeWorkspaceUser client first.user none).toList := by
  have hentry : Dict.find (booked orders) "users" = some (.dict
      [(.str "username", .str first.slug), (.str "firstname", .str (splitFullName first.fullName).1),
        (.str "lastname", .str (splitFullName first.fullName).2),
        (.str "email", .str (strip first.email))]) := hfind
  rw [extractWorkspaceUsers]
  split
  · rename_i users heq
    cases hentry.symm.trans heq
    rw [extractWorkspaceUsers]
    rfl
  · rename_i heq
    cases hentry.symm.trans heq

/-- With a user of another reserved name, it is taken for a single user without one. -/
theorem extract_reserved (hnone : Dict.find (booked orders) "users" = none)
    (hreserved : Dict.has (booked orders) "username" || Dict.has (booked orders) "firstname" ||
      Dict.has (booked orders) "lastname") :
    extractWorkspaceUsers client (.dict (booked orders)) = [] := by
  rw [extractWorkspaceUsers]
  split
  · rename_i heq
    cases hnone.symm.trans heq
  rw [if_pos hreserved]
  have hname : usernamePattern (lower (asTrimmed client
      (orElse (Dict.get (booked orders) "username") (textOrNone none)))) = false := by
    unfold Dict.get
    cases hfind : Dict.find (booked orders) "username" with
    | none => rfl
    | some v =>
      obtain ⟨o, -, -, heq⟩ := mem_booked_order ((Dict.mem_iff_find booked_nodup).mpr hfind)
      rw [show v = o.user from congrArg Prod.snd heq]
      show usernamePattern (lower (jsTrim "[object Object]")) = false
      decide +kernel
  unfold normalizeWorkspaceUser
  dsimp only
  rw [if_pos (Or.inl hname)]
  rfl

theorem shown_nodup : (((booked orders).filterMap (mapUser client)).map (·.username)).Nodup := by
  unfold List.Nodup
  rw [List.pairwise_map, List.pairwise_filterMap]
  refine (List.pairwise_map.mp booked_nodup).imp_of_mem fun ha hb hab u hu v hv heq => hab ?_
  obtain ⟨o, -, ho, rfl⟩ := mem_booked_order ha
  obtain ⟨o', -, ho', rfl⟩ := mem_booked_order hb
  rw [((mapUser_user ho).mp hu).2, ((mapUser_user ho').mp hv).2] at heq
  exact congrArg Val.str heq

theorem extract_plain (hnone : Dict.find (booked orders) "users" = none)
    (hreserved : (Dict.has (booked orders) "username" || Dict.has (booked orders) "firstname" ||
      Dict.has (booked orders) "lastname") = false) :
    extractWorkspaceUsers client (.dict (booked orders)) =
      (booked orders).filterMap (mapUser client) := by
  rw [extractWorkspaceUsers]
  split
  · rename_i heq
    cases hnone.symm.trans heq
  rw [if_neg (by rw [hreserved]; exact Bool.false_ne_true)]
  refine dedupe_eq_self shown_nodup fun u hu => ?_
  obtain ⟨item, hitem, hmap⟩ := List.mem_filterMap.mp hu
  obtain ⟨o, -, ho, rfl⟩ := mem_booked_order hitem
  rw [((mapUser_user ho).mp hmap).2]
  exact ho

theorem has_booked {key : Text} (hkey : key ≠ []) :
    Dict.has (booked orders) key = true ↔ ∃ o ∈ orders, o.slug = key := by
  unfold Dict.has
  rw [find_slug hkey, Option.isSome_map, List.find?_isSome]
  simp

/-- Whom the client shows of a run of orders. -/
theorem extract_booked (hslug : ∀ o ∈ orders, o.slug ≠ []) {user : WorkspaceUser} :
    user ∈ extractWorkspaceUsers client (.dict (booked orders)) ↔
      ∃ o ∈ orders, (orders.find? fun x => x.slug = o.slug) = some o ∧ o.Named ∧ user = o.shown ∧
        (o.slug = "users".toList ∨ ∀ x ∈ orders, x.slug ∉ reservedNames) := by
  have husers : "users".toList ≠ [] := by decide
  cases hfirst : orders.find? fun o => o.slug = "users".toList with
  | some first =>
    -- a customer named `users` is taken for the list of users itself
    have hmem : first ∈ orders := List.mem_of_find?_eq_some hfirst
    have hname : first.slug = "users".toList := by simpa using List.find?_some hfirst
    rw [extract_users (by rw [find_slug husers, hfirst]; rfl), Option.mem_toList,
      normalize_user client none (hslug first hmem)]
    constructor
    · rintro ⟨hnamed, rfl⟩
      exact ⟨first, hmem, by rw [hname, hfirst], hnamed, rfl, Or.inl hname⟩
    · rintro ⟨o, ho, hfind, hnamed, rfl, hpanel⟩
      rcases hpanel with hpanel | hnone
      · rw [hpanel, hfirst] at hfind
        cases hfind
        exact ⟨hnamed, rfl⟩
      · exact absurd (by rw [hname]; decide) (hnone first hmem)
  | none =>
    have hnot : ∀ o ∈ orders, o.slug ≠ "users".toList := by
      simpa using List.find?_eq_none.mp hfirst
    have hnone : Dict.find (booked orders) "users" = none := by rw [find_slug husers, hfirst]; rfl
    have hreserved : (Dict.has (booked orders) "username" || Dict.has (booked orders) "firstname" ||
        Dict.has (booked orders) "lastname") = true ↔ ∃ x ∈ orders, x.slug ∈ reservedNames := by
      rw [Bool.or_eq_true, Bool.or_eq_true, has_booked (by decide), has_booked (by decide),
        has_booked (by decide), ← exists_or, ← exists_or]
      refine exists_congr fun x => ?_
      rw [← and_or_left, ← and_or_left]
      refine and_congr_right fun hx => ?_
      simp only [reservedNames, List.mem_cons, List.not_mem_nil, or_false, hnot x hx, false_or,
        or_assoc]
    -- a customer with a reserved name makes the section look like one user
    by_cases hsome : ∃ x ∈ orders, x.slug ∈ reservedNames
    · rw [extract_reserved hnone (hreserved.mpr hsome)]
      refine iff_of_false List.not_mem_nil ?_
      rintro ⟨o, ho, -, -, -, hpanel | hall⟩
      · exact hnot o ho hpanel
      · obtain ⟨x, hx, hmem⟩ := hsome
        exact hall x hx hmem
    · rw [extract_plain hnone (Bool.eq_false_iff.mpr fun h => hsome (hreserved.mp h)),
        List.mem_filterMap]
      constructor
      · rintro ⟨item, hitem, hmap⟩
        obtain ⟨o, -, hne, rfl⟩ := mem_booked_order hitem
        have hfind := (Dict.mem_iff_find booked_nodup).mp hitem
        rw [find_slug hne] at hfind
        obtain ⟨first, hfirst, huser⟩ := Option.map_eq_some_iff.mp hfind
        have hname : first.slug = o.slug := by simpa using List.find?_some hfirst
        rw [← huser, ← hname] at hmap
        obtain ⟨hnamed, rfl⟩ := (mapUser_user (hname ▸ hne)).mp hmap
        exact ⟨first, List.mem_of_find?_eq_some hfirst, by rw [hname, hfirst], hnamed, rfl,
          Or.inr fun x hx hmem => hsome ⟨x, hx, hmem⟩⟩
      · rintro ⟨o, ho, hfind, hnamed, rfl, -⟩
        refine ⟨(.str o.slug, o.user), (Dict.mem_iff_find booked_nodup).mpr ?_,
          (mapUser_user (hslug o ho)).mpr ⟨hnamed, rfl⟩⟩
        rw [find_slug (hslug o ho), hfind]
        rfl

/-- Nobody is shown twice. -/
theorem extract_nodup :
    ((extractWorkspaceUsers client (.dict (booked orders))).map (·.username)).Nodup := by
  cases hfind : Dict.find (booked orders) "users" with
  | some v =>
    obtain ⟨o, -, -, heq⟩ := mem_booked_order ((Dict.mem_iff_find booked_nodup).mpr hfind)
    rw [show v = o.user from congrArg Prod.snd heq] at hfind
    rw [extract_users hfind]
    cases normalizeWorkspaceUser client o.user none <;> simp
  | none =>
    cases hreserved : (Dict.has (booked orders) "username" || Dict.has (booked orders) "firstname" ||
        Dict.has (booked orders) "lastname") with
    | true =>
      rw [extract_reserved hfind hreserved]
      exact List.Pairwise.nil
    | false =>
      rw [extract_plain hfind hreserved]
      exact shown_nodup

theorem Order.email_strip (o : Order) : strip o.email = o.email := by
  unfold Order.email field
  dsimp only
  split
  · exact strip_strip _
  · rfl

end Attribution

section Exactly

variable {client} {o : Order} {orders : List Order}

/-- What an attributed order says about the one that has its entry. -/
theorem own_of_attributed (hslug : ∀ o ∈ orders, o.slug ≠ [])
    (hattributed : Attributed client (.dict (booked orders)) (orNone o.slug) o.email) :
    ∃ first, (orders.find? fun x => x.slug = o.slug) = some first ∧ first.email = o.email ∧
      first.Named ∧ (o.slug = "users".toList ∨ ∀ x ∈ orders, x.slug ∉ reservedNames) := by
  obtain ⟨name, d, user, saved, hname, hmem, hemail, hnorm, hshown, -, -⟩ := hattributed
  obtain ⟨rfl, hne⟩ := orNone_eq_some.mp hname
  have hfind := (Dict.mem_iff_find booked_nodup).mp hmem
  rw [find_slug hne] at hfind
  obtain ⟨first, hfirst, huser⟩ := Option.map_eq_some_iff.mp hfind
  have hsame : first.slug = o.slug := by simpa using List.find?_some hfirst
  rw [← huser, normalize_user client _ (hsame ▸ hne)] at hnorm
  obtain ⟨o', -, -, -, hshow, hpanel⟩ := (extract_booked hslug).mp hshown
  have hname' : o'.slug = o.slug := by
    rw [← hsame]
    exact congrArg WorkspaceUser.username (hshow.symm.trans hnorm.2)
  rw [hname'] at hpanel
  refine ⟨first, hfirst, ?_, hnorm.1, hpanel⟩
  have hd : Val.dict d = newUser first.slug first.fullName first.email := huser.symm
  cases hd
  rw [← first.email_strip]
  exact Val.str.inj hemail

theorem attributed_of_own (hown : OwnEntries orders) (ho : o ∈ orders) :
    Attributed client (.dict (booked orders)) (orNone o.slug) o.email := by
  obtain ⟨first, hfirst, hmem, hsame⟩ := exists_first ho
  have hnamed := hown.named o ho first hfirst
  have hne := hown.slug o ho
  have hshown : first.shown ∈ extractWorkspaceUsers client (.dict (booked orders)) := by
    refine (extract_booked hown.slug).mpr ⟨first, hmem, by rw [hsame, hfirst], hnamed, rfl, ?_⟩
    exact hown.panel.imp (fun hall => hall first hmem) id
  obtain ⟨hsaved, hkept⟩ := savedUsers_keeps client extract_nodup
    (fun u hu => by
      obtain ⟨x, hx, -, -, rfl, -⟩ := (extract_booked hown.slug).mp hu
      exact hown.slug x hx)
    (fun u hu => by
      obtain ⟨x, hx, -, hx', rfl, -⟩ := (extract_booked hown.slug).mp hu
      exact normalize_toYaml (slug_pattern (hown.slug x hx)) hx'.1 hx'.2)
  refine ⟨o.slug, _, first.shown, _, orNone_of_ne hne, (Dict.mem_iff_find booked_nodup).mpr ?_, ?_,
    (normalize_user client _ (hsame ▸ hne)).mpr ⟨hnamed, rfl⟩, hshown, hsaved, ?_⟩
  · rw [find_slug hne, hfirst]
    rfl
  · rw [hown.email o ho first hmem hsame.symm]
    exact congrArg Val.str first.email_strip
  · rw [← hsame]
    exact hkept _ hshown

end Exactly

section Demo

def demoOrder (fullName email : Text) : Order :=
  ⟨"o", "w", "t", [(.str "full_name", .str fullName), (.str "email", .str email),
    (.str "items", .list [.str "web-app-nextcloud"])], none, none, nothingFails⟩

def noFiles : OrderFiles (Bool × Val) := ⟨none, [], []⟩

def demoClient : Client := ⟨fun _ => [], fun _ => none, fun _ => none⟩

/-- The names a run of orders gave, and the users after it. -/
def placed (orders : List Order) : Option (List (Option Text) × Val) :=
  match placeOrders treeYaml orders noFiles with
  | .ok replies files => some (replies.map (·.workspaceUsername),
      Dict.get (document treeYaml files.allYml) "users")
  | .error _ _ => none

end Demo

end Infinito.Orders
