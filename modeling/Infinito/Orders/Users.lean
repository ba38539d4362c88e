import Infinito.Py.Yaml
import Infinito.Lib.Effect
import Mathlib.Data.List.Nodup

/-!
# Orders and the users they leave

`place_order` files an order, and for one that nobody is logged in for it also sees to a
user in `group_vars/all.yml`. The file is read with `yaml.safe_load`, which raises at a tag
it does not know; then the file counts as empty, and is written anew with the one user in
it. Everything else reads the same file with `load_workspace_yaml_document`, whose loader
takes any tag.

`order_keeps_iff` says when an order keeps what was in the file, by that second loader: when
the first one takes the file too, and no two entries of a list of users go by one name.
-/

set_option autoImplicit false

namespace Infinito.Orders

open Py Lib

/-! ## Names -/

/-- `str.lower` where it gives letters of ASCII, all that `_slugify_username` keeps. -/
def lowered (t : Text) : Text :=
  t.flatMap fun c => if c = '\u0130' then ['i', '\u0307'] else lower [c]

def isSlugChar (c : Char) : Bool := ('a' ≤ c && c ≤ 'z') || ('0' ≤ c && c ≤ '9')

/-- `_slugify_username` -/
def slugifyUsername (seed : Text) : Text :=
  (((lowered (strip seed)).takeWhile (· ≠ '@')).filter isSlugChar).take 32

/-- `text.split()` -/
def splitWords (t : Text) : List Text := (t.splitOnP isSpace).filter (· ≠ [])

/-- `_split_full_name` -/
def splitFullName (fullName : Text) : Text × Text :=
  match splitWords (strip fullName) with
  | [] => ([], [])
  | first :: rest => (first, [' '].intercalate rest)

/-! ## Users -/

/-- `users_map` of the users section: a list is turned into a mapping, by user name. -/
def usersMap : Val → Dict
  | .dict items => items
  | .list entries => entries.foldl (fun m entry => match entry with
      | .dict d => if (Dict.get d "username").truth then
          Dict.set (Dict.get d "username").text (.dict d) m else m
      | _ => m) []
  | _ => []

def newUser (username fullName email : Text) : Val :=
  .dict [(.str "username", .str username), (.str "firstname", .str (splitFullName fullName).1),
    (.str "lastname", .str (splitFullName fullName).2), (.str "email", .str (strip email))]

/-- What is in a file, as `_ensure_workspace_user_for_order` reads it. -/
def existing {κ : Type} (yaml : Yaml κ) (file : Option κ) : Dict :=
  mapping yaml.safeLoad file

/-- `_ensure_workspace_user_for_order` on `group_vars/all.yml`: the user name, and the
    document that is written, if one is. -/
def ensureWorkspaceUserForOrder {κ : Type} (yaml : Yaml κ) (file : Option κ)
    (fullName email : Text) : Text × Option Dict :=
  let username := slugifyUsername (if email = [] then fullName else email)
  if username = [] then ([], none)
  else
    let doc := existing yaml file
    let users := usersMap (Dict.get doc "users")
    if Dict.has users username then (username, none)
    else (username, some (Dict.set "users"
      (.dict (Dict.set username (newUser username fullName email) users)) doc))

/-! ## Orders -/

/-- The files of a workspace that an order concerns. -/
structure OrderFiles (κ : Type) where
  /-- `group_vars/all.yml` -/
  allYml : Option κ
  /-- `orders/<id>.yml`, by order id -/
  orders : List (Text × κ)
  /-- `workspace.json` -/
  record : Dict

/-- The writes that fail, by what the exception says. -/
structure Failing where
  allYml : Option String
  order : Option String
  record : Bool

structure OrderReply where
  orderId : Text
  createdAt : Text
  ownerUserId : Option Text
  workspaceUsername : Option Text

/-- `str(payload.get(key) or "").strip()` -/
def field (payload : Dict) (key : Text) : Text :=
  let v := Dict.get payload key
  if v.truth then strip v.text else []

/-- `str(payload.get(key) or default)` -/
def fieldOr (payload : Dict) (key default : Text) : Text :=
  let v := Dict.get payload key
  if v.truth then v.text else default

def textOrNone (t : Option Text) : Val := (t.map Val.str).getD .none

/-- The record of an order. -/
def orderRecord (orderId workspaceId now : Text) (actorId ownerEmail username : Option Text)
    (payload : Dict) : Val :=
  let optional (key : Text) : Val := textOrNone (orNone (field payload key))
  .dict
    [(.str "order_id", .str orderId), (.str "workspace_id", .str workspaceId),
      (.str "created_at", .str now), (.str "owner_user_id", textOrNone actorId),
      (.str "owner_email", .str ((truthy ownerEmail).getD (field payload "email"))),
      (.str "workspace_username", textOrNone username),
      (.str "contact", .dict
        [(.str "full_name", .str (field payload "full_name")),
          (.str "email", .str (field payload "email")),
          (.str "company", optional "company"), (.str "phone", optional "phone")]),
      (.str "billing_address", .dict
        [(.str "street", optional "street"), (.str "postal_code", optional "postal_code"),
          (.str "city", optional "city"), (.str "country", optional "country"),
          (.str "vat_id", optional "vat_id")]),
      (.str "billing", .dict
        [(.str "cycle", .str (fieldOr payload "billing_cycle" "monthly")),
          (.str "payment_method", .str (fieldOr payload "payment_method" "invoice"))]),
      (.str "notes", optional "notes"), (.str "items", Dict.get payload "items"),
      (.str "terms_accepted", .bool (Dict.get payload "terms_accepted").truth)]

variable {κ : Type} (yaml : Yaml κ) (failing : Failing)

/-- The user of an order that nobody is logged in for. -/
def orderUser (actorId : Option Text) (payload : Dict) :
    EStateM HttpError (OrderFiles κ) Text := fun files =>
  match actorId with
  | some _ => .ok [] files
  | none =>
    match ensureWorkspaceUserForOrder yaml files.allYml (field payload "full_name")
      (field payload "email") with
    | (username, none) => .ok username files
    | (username, some doc) => match failing.allYml with
        | some text => .error ⟨500, "failed to write group_vars/all.yml: " ++ text⟩ files
        | none => .ok username { files with allYml := some (yaml.dump (.dict doc)) }

/-- The order itself, and the stamp on the metadata, which may fail. -/
def fileOrder (orderId now : Text) (record : Val) : EStateM HttpError (OrderFiles κ) Unit :=
  fun files => match failing.order with
    | some text => .error ⟨500, "failed to write order file: " ++ text⟩ files
    | none =>
      let stamped := Dict.set "updated_at" (.str now) (Dict.set "last_order_at" (.str now) files.record)
      .ok () { files with
        orders := (orderId, yaml.dump record) :: files.orders
        record := if failing.record then files.record else stamped }

/-- `place_order` -/
def placeOrder (orderId workspaceId now : Text) (payload : Dict) (ownerId ownerEmail : Option Text) :
    EStateM HttpError (OrderFiles κ) OrderReply := do
  if field payload "full_name" = [] then throw ⟨400, "full_name is required"⟩
  else if field payload "email" = [] then throw ⟨400, "email is required"⟩
  else match Dict.get payload "items" with
    | .list (_ :: _) => do
      let actorId := stripOrNone ownerId
      let username ← orderUser yaml failing actorId payload
      fileOrder yaml failing orderId now (orderRecord orderId workspaceId now actorId ownerEmail
        (orNone username) payload)
      return ⟨orderId, now, actorId, orNone username⟩
    | _ => throw ⟨400, "items must be a non-empty list of order entries"⟩

/-! ## What an order keeps -/

/-- The users of a users section: of a mapping its items, of a list the entries that have a
    user name, each under that name. -/
def usersOf : Val → List (Val × Val)
  | .dict items => items
  | .list entries => entries.filterMap fun entry => match entry with
      | .dict d => if (Dict.get d "username").truth then
          some (.str (Dict.get d "username").text, .dict d) else none
      | _ => none
  | _ => []

/-- The top level of a file, as everything but the orders reads it. -/
def document (file : Option κ) : Dict := mapping yaml.load file

/-- Everything but one user is as it was. -/
structure Kept (before after : Dict) : Prop where
  keys : ∀ item ∈ before, item.1 ≠ .str "users" → item ∈ after
  users : ∀ u ∈ usersOf (Dict.get before "users"), u ∈ usersOf (Dict.get after "users")
  added : ∃ x, ∀ u ∈ usersOf (Dict.get after "users"),
    u ∈ usersOf (Dict.get before "users") ∨ u = x

/-- No two entries of a list go by one name with different content. -/
def OneEach : Val → Prop
  | .list entries => ∀ u ∈ usersOf (.list entries), ∀ u' ∈ usersOf (.list entries),
      u.1 = u'.1 → u = u'
  | _ => True

section Maps

variable {entries : List Val} {d : Dict}

/-- The users of a list, under their names. -/
def namedUser : Val → Option (Text × Val)
  | .dict d => if (Dict.get d "username").truth then some ((Dict.get d "username").text, .dict d)
      else none
  | _ => none

theorem usersOf_list :
    usersOf (.list entries) = (entries.filterMap namedUser).map fun u => (.str u.1, u.2) := by
  unfold usersOf
  rw [List.map_filterMap]
  refine List.filterMap_congr fun entry _ => ?_
  unfold namedUser
  cases entry with
  | dict d =>
    dsimp only
    split <;> rfl
  | _ => rfl

theorem usersMap_list : usersMap (.list entries) =
    (entries.filterMap namedUser).foldl (fun m u => Dict.set u.1 u.2 m) [] := by
  rw [List.foldl_filterMap]
  refine congrArg (fun f => entries.foldl f []) (funext fun m => funext fun entry => ?_)
  unfold namedUser
  cases entry with
  | dict d =>
    dsimp only
    split <;> rfl
  | _ => rfl

/-- What a run of items put into a dictionary leaves: their last, of every key. -/
theorem collect (us : List (Text × Val)) (m : Dict) (hm : (m.map (·.1)).Nodup) :
    let m' := us.foldl (fun m u => Dict.set u.1 u.2 m) m
    (m'.map (·.1)).Nodup ∧ (∀ item ∈ m', item ∈ m ∨ ∃ u ∈ us, item = (.str u.1, u.2)) ∧
      (∀ key, Dict.has m key = true → Dict.has m' key = true) ∧
      ∀ u ∈ us, Dict.has m' u.1 = true := by
  induction us generalizing m with
  | nil => exact ⟨hm, fun item h => Or.inl h, fun key h => h, nofun⟩
  | cons u us ih =>
    obtain ⟨hnodup, hfrom, hkept, hthere⟩ := ih (Dict.set u.1 u.2 m) (Dict.nodup_set hm)
    have hhas {key : Text} (hkey : Dict.has m key = true) :
        Dict.has (Dict.set u.1 u.2 m) key = true := by
      by_cases heq : key = u.1
      · rw [heq]
        exact Dict.has_set_self _ _ _
      · obtain ⟨v, hv⟩ := Dict.has_iff.mp hkey
        exact Dict.has_iff.mpr ⟨v, Dict.mem_set_of_ne hv (by simpa using heq)⟩
    refine ⟨hnodup, fun item hitem => ?_, fun key hkey => hkept key (hhas hkey), ?_⟩
    · rcases hfrom item hitem with hset | ⟨v, hv, heq⟩
      · rcases Dict.mem_of_mem_set hset with hmem | heq
        · exact Or.inl hmem
        · exact Or.inr ⟨u, List.mem_cons_self, heq⟩
      · exact Or.inr ⟨v, List.mem_cons_of_mem _ hv, heq⟩
    · intro v hv
      rcases List.mem_cons.mp hv with rfl | hv
      · exact hkept _ (Dict.has_set_self _ _ _)
      · exact hthere v hv

/-- No user is made up, of whatever shape the section is. -/
theorem usersMap_subset {node : Val} : ∀ u ∈ usersMap node, u ∈ usersOf node := by
  intro u hu
  cases node with
  | dict items => exact hu
  | list entries =>
    rw [usersMap_list] at hu
    rw [usersOf_list]
    rcases (collect _ [] List.Pairwise.nil).2.1 u hu with hnil | ⟨v, hv, rfl⟩
    · cases hnil
    · exact List.mem_map_of_mem hv
  | _ => cases hu

/-- Whoever is in the section has a name in the map. -/
theorem has_of_usersOf {node user : Val} {username : Text}
    (hu : (.str username, user) ∈ usersOf node) : Dict.has (usersMap node) username = true := by
  cases node with
  | dict items => exact Dict.has_iff.mpr ⟨user, hu⟩
  | list entries =>
    rw [usersOf_list] at hu
    obtain ⟨v, hv, heq⟩ := List.mem_map.mp hu
    cases heq
    rw [usersMap_list]
    exact (collect _ [] List.Pairwise.nil).2.2.2 v hv
  | _ => cases hu

/-- None is lost, if and only if no two of a list stand for one name. -/
theorem usersMap_keeps {node : Val} : (∀ u ∈ usersOf node, u ∈ usersMap node) ↔ OneEach node := by
  cases node with
  | dict items => exact ⟨fun _ => trivial, fun _ u hu => hu⟩
  | list entries =>
    obtain ⟨hnodup, -, -, hthere⟩ := collect (entries.filterMap namedUser) [] List.Pairwise.nil
    rw [← usersMap_list] at hnodup hthere
    constructor
    · intro hall u hu u' hu' heq
      exact List.inj_on_of_nodup_map hnodup (hall u hu) (hall u' hu') heq
    · intro hone u hu
      have hu' := hu
      rw [usersOf_list] at hu
      obtain ⟨v, hv, rfl⟩ := List.mem_map.mp hu
      obtain ⟨w, hw⟩ := Dict.has_iff.mp (hthere v hv)
      rw [hone _ hu' _ (usersMap_subset _ hw) rfl]
      exact hw
  | _ => exact ⟨fun _ => trivial, fun _ u hu => by cases hu⟩

end Maps

/-! ## When an order keeps it -/

/-- The user name is one already, or none. -/
def Present (file : Option κ) (username : Text) : Prop :=
  username = [] ∨ Dict.has (usersMap (Dict.get (existing yaml file) "users")) username = true

/-- The orders read the file as the others do, and nobody in it shares a name; or else there
    is nothing in it but the user that is written. -/
def Understood (file : Option κ) (username : Text) (user : Val) : Prop :=
  match file.bind yaml.safeLoad with
  | some (.dict d) => OneEach (Dict.get d "users")
  | some _ => True
  | none => (∀ item ∈ document yaml file, item.1 = .str "users") ∧
      ∀ u ∈ usersOf (Dict.get (document yaml file) "users"), u = (.str username, user)

section Keeps

variable {yaml failing} {file : Option κ}

theorem Kept.refl (doc : Dict) : Kept doc doc :=
  ⟨fun _ h _ => h, fun _ h => h, (.none, .none), fun _ h => Or.inl h⟩

theorem document_dump (doc : Dict) : document yaml (some (yaml.dump (.dict doc))) = doc := by
  unfold document mapping
  rw [Option.bind_some, yaml.load_of_safeLoad (yaml.safeLoad_dump _)]

theorem document_of_safeLoad {v : Val} (hv : file.bind yaml.safeLoad = some v) :
    document yaml file = existing yaml file := Yaml.mapping_of_safeLoad hv

/-- A user set into what the file was read as keeps that, but for users of one name. -/
theorem kept_set {doc : Dict} {username : Text} {user : Val}
    (hno : Dict.has (usersMap (Dict.get doc "users")) username = false) :
    Kept doc (Dict.set "users"
        (.dict (Dict.set username user (usersMap (Dict.get doc "users")))) doc) ↔
      OneEach (Dict.get doc "users") := by
  have hafter : usersOf (Dict.get (Dict.set "users"
      (.dict (Dict.set username user (usersMap (Dict.get doc "users")))) doc) "users") =
      usersMap (Dict.get doc "users") ++ [(.str username, user)] := by
    rw [Dict.get_set_self, ← Dict.set_of_not_has hno]
    rfl
  rw [← usersMap_keeps]
  constructor
  · intro hkept u hu
    have hmem := hkept.users u hu
    rw [hafter] at hmem
    rcases List.mem_append.mp hmem with hmem | hmem
    · exact hmem
    · rw [List.mem_singleton.mp hmem] at hu
      rw [has_of_usersOf hu] at hno
      cases hno
  · intro hall
    refine ⟨fun item hitem hne => Dict.mem_set_of_ne hitem hne, fun u hu => ?_,
      (.str username, user), fun u hu => ?_⟩
    · rw [hafter]
      exact List.mem_append_left _ (hall u hu)
    · rw [hafter] at hu
      rcases List.mem_append.mp hu with hu | hu
      · exact Or.inl (usersMap_subset u hu)
      · exact Or.inr (List.mem_singleton.mp hu)

/-- The document an order writes, if it writes one. -/
theorem ensure_document {fullName email : Text} (hemail : email ≠ []) :
    (ensureWorkspaceUserForOrder yaml file fullName email).2 =
      let username := slugifyUsername email
      let users := usersMap (Dict.get (existing yaml file) "users")
      if username = [] then none
      else if Dict.has users username then none
      else some (Dict.set "users" (.dict (Dict.set username (newUser username fullName email) users))
        (existing yaml file)) := by
  unfold ensureWorkspaceUserForOrder
  rw [if_neg hemail]
  dsimp only
  split
  · rfl
  · split <;> rfl

theorem orderUser_eq_ok {payload : Dict} {username : Text} {files files' : OrderFiles κ}
    (hok : orderUser yaml failing none payload files = .ok username files') :
    username = (ensureWorkspaceUserForOrder yaml files.allYml (field payload "full_name")
      (field payload "email")).1 ∧
    files'.allYml = match (ensureWorkspaceUserForOrder yaml files.allYml (field payload "full_name")
      (field payload "email")).2 with
      | none => files.allYml
      | some doc => some (yaml.dump (.dict doc)) := by
  unfold orderUser at hok
  split at hok
  · cases ‹none = some _›
  · split at hok
    · rename_i heq
      cases hok
      rw [heq]
      exact ⟨rfl, rfl⟩
    · rename_i heq
      split at hok
      · cases hok
      · cases hok
        rw [heq]
        exact ⟨rfl, rfl⟩

theorem ensure_username {fullName email : Text} (hemail : email ≠ []) :
    (ensureWorkspaceUserForOrder yaml file fullName email).1 = slugifyUsername email := by
  unfold ensureWorkspaceUserForOrder
  rw [if_neg hemail]
  dsimp only
  split
  · rename_i h
    exact h.symm
  · split <;> rfl

/-- What a successful order without an owner answers, and does to `group_vars/all.yml`. -/
theorem placeOrder_allYml {orderId workspaceId now : Text} {payload : Dict}
    {ownerId ownerEmail : Option Text} {reply : OrderReply} {files files' : OrderFiles κ}
    (hanonymous : stripOrNone ownerId = none)
    (hok : placeOrder yaml failing orderId workspaceId now payload ownerId ownerEmail files =
      .ok reply files') :
    field payload "email" ≠ [] ∧
    reply.workspaceUsername = orNone (slugifyUsername (field payload "email")) ∧
    files'.allYml = match (ensureWorkspaceUserForOrder yaml files.allYml (field payload "full_name")
      (field payload "email")).2 with
      | none => files.allYml
      | some doc => some (yaml.dump (.dict doc)) := by
  unfold placeOrder at hok
  by_cases hname : field payload "full_name" = []
  · rw [if_pos hname] at hok
    cases hok
  by_cases hemail : field payload "email" = []
  · rw [if_neg hname, if_pos hemail] at hok
    cases hok
  rw [if_neg hname, if_neg hemail] at hok
  have hrun : ∃ username u, orderUser yaml failing none payload files = .ok username u ∧
      u.allYml = files'.allYml ∧ reply.workspaceUsername = orNone username := by
    cases hitems : Dict.get payload "items" with
    | list items =>
      rw [hitems] at hok
      cases items with
      | nil => cases hok
      | cons item items =>
        obtain ⟨username, u, huser, hok⟩ := bind_eq_ok.mp hok
        obtain ⟨⟨⟩, v, hfile, hok⟩ := bind_eq_ok.mp hok
        cases hok
        rw [hanonymous] at huser
        refine ⟨username, u, huser, ?_, rfl⟩
        unfold fileOrder at hfile
        split at hfile
        · cases hfile
        · cases hfile
          rfl
    | _ =>
      rw [hitems] at hok
      cases hok
  obtain ⟨username, u, huser, hsame, hreply⟩ := hrun
  obtain ⟨rfl, hfile⟩ := orderUser_eq_ok huser
  rw [ensure_username hemail] at hreply
  exact ⟨hemail, hreply, hsame.symm.trans hfile⟩

end Keeps

/-- **What an order keeps.** After a successful order without an owner, every top-level key
    but `users` has its value, every user is there unchanged and at most one was added, if
    and only if no user is to be added, or the file was understood. -/
theorem order_keeps_iff {orderId workspaceId now : Text} {payload : Dict}
    {ownerId ownerEmail : Option Text} {reply : OrderReply} {files files' : OrderFiles κ}
    (hanonymous : stripOrNone ownerId = none)
    (hok : placeOrder yaml failing orderId workspaceId now payload ownerId ownerEmail files =
      .ok reply files') :
    let username := slugifyUsername (field payload "email")
    Kept (document yaml files.allYml) (document yaml files'.allYml) ↔
      Present yaml files.allYml username ∨ Understood yaml files.allYml username
        (newUser username (field payload "full_name") (field payload "email")) := by
  obtain ⟨hemail, -, hfile⟩ := placeOrder_allYml hanonymous hok
  intro username
  rw [hfile, ensure_document hemail]
  dsimp only
  by_cases hempty : username = []
  · rw [if_pos hempty]
    exact iff_of_true (Kept.refl _) (Or.inl (Or.inl hempty))
  rw [if_neg hempty]
  cases hhas : Dict.has (usersMap (Dict.get (existing yaml files.allYml) "users")) username with
  | true =>
    rw [if_pos rfl]
    exact iff_of_true (Kept.refl _) (Or.inl (Or.inr hhas))
  | false =>
    rw [if_neg Bool.false_ne_true]
    have habsent : ¬ Present yaml files.allYml username := by
      rintro (h | h)
      · exact hempty h
      · rw [hhas] at h
        cases h
    dsimp only
    rw [document_dump, or_iff_right habsent]
    unfold Understood
    cases hload : files.allYml.bind yaml.safeLoad with
    | some v =>
      -- the file was read: the user is set in what it holds
      rw [document_of_safeLoad hload, kept_set hhas]
      unfold existing mapping
      rw [hload]
      cases v <;> exact Iff.rfl
    | none =>
      -- the file was not read and is written anew, with the users alone
      have hnothing : existing yaml files.allYml = [] := by
        unfold existing mapping
        rw [hload]
      rw [hnothing]
      constructor
      · intro hkept
        refine ⟨fun item hitem => ?_, fun u hu => List.mem_singleton.mp (hkept.users u hu)⟩
        by_contra hne
        rw [List.mem_singleton.mp (hkept.keys item hitem hne)] at hne
        exact hne rfl
      · rintro ⟨honly, husers⟩
        refine ⟨fun item hitem hne => absurd (honly item hitem) hne,
          fun u hu => List.mem_singleton.mpr (husers u hu),
          (.str username, newUser username (field payload "full_name") (field payload "email")),
          fun u hu => Or.inr (List.mem_singleton.mp hu)⟩

section Demo

/-- Contents by what they stand for, and whether `yaml.safe_load` knows all their tags. -/
def treeYaml : Yaml (Bool × Val) where
  safeLoad content := if content.1 then some content.2 else none
  load content := some content.2
  dump v := (true, v)
  load_of_safeLoad := by
    rintro ⟨known, v⟩ v' h
    cases known with
    | true => exact h
    | false => cases h
  safeLoad_dump _ := rfl

def nothingFails : Failing := ⟨none, none, false⟩

def demoPayload : Dict :=
  [(.str "full_name", .str "Ann Lee"), (.str "email", .str "ann@example.org"),
    (.str "items", .list [.str "web-app-nextcloud"])]

/-- A file with one encrypted value in it. -/
def vaultFiles : OrderFiles (Bool × Val) :=
  ⟨some (false, .dict [(.str "api_key", .other "!vault |")]), [], []⟩

def plainFiles : OrderFiles (Bool × Val) :=
  ⟨some (true, .dict [(.str "api_key", .str "k")]), [], []⟩

/-- What is in `group_vars/all.yml` after an order that went through. -/
def documentAfter (files : OrderFiles (Bool × Val)) : Option Dict :=
  match placeOrder treeYaml nothingFails "o" "w" "t" demoPayload none none files with
  | .ok _ files' => some (document treeYaml files'.allYml)
  | .error _ _ => none

/-- The order of a customer takes an encrypted value away. -/
theorem vault_value_lost :
    Dict.has (document treeYaml vaultFiles.allYml) "api_key" = true ∧
      (documentAfter vaultFiles).map (Dict.has · "api_key") = some false := by
  decide +kernel

theorem order_keeps_iff_plain : ∃ (reply : OrderReply) (files' : OrderFiles (Bool × Val)),
    placeOrder treeYaml nothingFails "o" "w" "t" demoPayload none none plainFiles = .ok reply files' ∧
      Kept (document treeYaml plainFiles.allYml) (document treeYaml files'.allYml) := by
  have hafter : (documentAfter plainFiles).isSome = true := by decide +kernel
  unfold documentAfter at hafter
  cases hrun : placeOrder treeYaml nothingFails "o" "w" "t" demoPayload none none plainFiles with
  | error e files' =>
    rw [hrun] at hafter
    cases hafter
  | ok reply files' =>
    exact ⟨reply, files', rfl, (order_keeps_iff treeYaml nothingFails rfl hrun).mpr (Or.inr trivial)⟩

end Demo

end Infinito.Orders
