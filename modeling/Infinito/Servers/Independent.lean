import Infinito.Servers.Connections

/-!
# Servers that share files

What a workspace keeps for a server lies in three places: its host variables in a file of
`host_vars`, its passwords in the credentials vault, under titles, and its key pair in
`secrets/keys`. All three are named after the alias, with every character that is not
`A-Za-z0-9._-` turned into an underscore. So two servers may share all of it; and since the
public key is the private key's name with `.pub` behind it, a server may own the public key of
another as its private one.

`independent_iff` says that those are the only servers that get into each other's way.
-/

set_option autoImplicit false

namespace Infinito.Servers

open Py Lib

/-- The alias of a server, as the operations accept it. -/
structure Alias where
  name : Text
  trimmed : strip name = name
  nonempty : name ≠ []

/-! ## The three places -/

/-- `secrets/credentials.kdbx`: its password, and the passwords in it by title. -/
structure Kdbx where
  masterPassword : Text
  entries : List (Text × Text)

structure ServerStore (κ : Type) extends ServerFiles κ where
  vault : Option Kdbx
  /-- `secrets/keys/`, by file name -/
  keys : Text → Option Text

/-- `_vault_alias` -/
def vaultAlias (aliasName : Text) : Text :=
  sanitizeHostFilename (if aliasName = [] then "default" else aliasName)

inductive EntryKind where
  | vaultPassword
  | serverPassword
  | keyPassphrase

/-- `_vault_entry_title` -/
def vaultEntryTitle (kind : EntryKind) (aliasName : Text) : Text :=
  match kind with
  | .vaultPassword => "vault_password"
  | .serverPassword => "server_password::" ++ vaultAlias aliasName
  | .keyPassphrase => "key_passphrase::" ++ vaultAlias aliasName

def publicName (safeAlias : Text) : Text := safeAlias ++ ".pub".toList

/-- `_upsert_kdbx_entry`: nothing leaves the entry, the empty password deletes it. -/
def upsertKdbxEntry (title : Text) (password : Option Text) (entries : List (Text × Text)) :
    List (Text × Text) :=
  match password with
  | none => entries
  | some [] => entries.eraseP fun e => e.1 = title
  | some p => put title p entries

section
variable {κ : Type} (yaml : TaggedYaml κ)

/-- `_open_kdbx`, and the vault it creates. -/
def openKdbx (masterPassword : Text) (createIfMissing : Bool) (confirm : Option Text) :
    EStateM HttpError (ServerStore κ) Unit := fun s =>
  if strip masterPassword = [] then .error ⟨400, "master_password is required"⟩ s
  else match s.vault with
    | none =>
        if createIfMissing = false then .error ⟨404, "credentials vault not found"⟩ s
        else if confirm ≠ some masterPassword then
          .error ⟨400, "master password confirmation mismatch"⟩ s
        else .ok () { s with vault := some ⟨masterPassword, []⟩ }
    | some kdbx =>
        if kdbx.masterPassword = masterPassword then .ok () s
        else .error ⟨400, "invalid master password"⟩ s

/-- What is done to the entries, and saved. -/
def saveEntries (f : List (Text × Text) → List (Text × Text)) :
    EStateM HttpError (ServerStore κ) Unit := fun s =>
  .ok () { s with vault := s.vault.map fun kdbx => { kdbx with entries := f kdbx.entries } }

/-! ## The operations -/

/-- The host variables rewritten, and the alias entered in the inventory. The first is done
    when the second fails. -/
def writeHostVars (aliasValue : Text) (f : Dict → Dict) :
    EStateM HttpError (ServerStore κ) Unit := fun s =>
  let name := yml (sanitizeHostFilename aliasValue)
  match loadYamlMapping yaml ("host_vars/" ++ name) (s.hostVars name) with
  | .error e => .error e s
  | .ok existing =>
    let hostVars (other : Text) : Option κ :=
      if other = name then some (yaml.dumpMapping (.dict (f existing))) else s.hostVars other
    match loadYamlMapping yaml "inventory.yml" s.inventory with
    | .error e => .error e { s with hostVars := hostVars }
    | .ok data =>
      let inventory := match withAlias data aliasValue with
        | none => s.inventory
        | some data => some (yaml.dumpMapping (.dict data))
      .ok () { s with hostVars := hostVars, inventory := inventory }

/-- `upsert_server_connection`, with what it leaves when it fails. -/
def connectServer (aliasName host user : Text) (port : Option Int) :
    EStateM HttpError (ServerStore κ) Unit := do
  if strip aliasName = [] then throw ⟨400, "alias is required"⟩
  else if strip host = [] ∨ strip user = [] then throw ⟨400, "host and user are required"⟩
  else if port.any fun n => n < 1 || 65535 < n then throw ⟨400, "port out of range"⟩
  else writeHostVars yaml (strip aliasName) fun existing =>
    connected existing (strip host) (strip user) port

/-- `set_primary_domain` -/
def setPrimaryDomain (aliasName : Text) (primaryDomain : Option Text) :
    EStateM HttpError (ServerStore κ) Unit := do
  if strip aliasName = [] then throw ⟨400, "alias is required"⟩
  else writeHostVars yaml (strip aliasName) fun data =>
    match stripOrNone primaryDomain with
    | some domain => Dict.set "DOMAIN_PRIMARY" (.str domain) data
    | none => Dict.pop "DOMAIN_PRIMARY" data

/-- `set_vault_entries` -/
def setVaultEntries (aliasName masterPassword : Text) (confirm : Option Text)
    (createIfMissing : Bool) (serverPassword vaultPassword keyPassphrase : Option Text) :
    EStateM HttpError (ServerStore κ) Unit := do
  openKdbx masterPassword createIfMissing confirm
  saveEntries fun entries =>
    upsertKdbxEntry (vaultEntryTitle .keyPassphrase aliasName) keyPassphrase
      (upsertKdbxEntry (vaultEntryTitle .vaultPassword aliasName) vaultPassword
        (upsertKdbxEntry (vaultEntryTitle .serverPassword aliasName) serverPassword entries))

/-- `ssh-keygen`: the key pair for a file name, an algorithm, a passphrase and a comment,
    nothing when it fails. -/
abbrev Keygen := Text → Text → Text → Text → Option (Text × Text)

/-- The two files of a key pair, as the directory has them afterwards. -/
def setKeys (safeAlias : Text) (pair : Option (Text × Text)) :
    EStateM HttpError (ServerStore κ) Unit := fun s =>
  let keys (name : Text) : Option Text :=
    if name = safeAlias then pair.map (·.1)
    else if name = publicName safeAlias then pair.map (·.2)
    else s.keys name
  .ok () { s with keys := keys }

/-- `generate_ssh_keypair`. The old files go first. `generated` is `_generate_passphrase()`. -/
def generateSshKeypair (keygen : Keygen) (generated : Text) (aliasName algorithm : Text)
    (withPassphrase : Bool) (masterPassword confirm : Option Text) :
    EStateM HttpError (ServerStore κ) Unit := do
  let safeAlias := vaultAlias aliasName
  setKeys safeAlias none
  let algo := strip (lower (if algorithm = [] then "ed25519" else algorithm))
  if algo ∉ ["ed25519".toList, "rsa".toList, "ecdsa".toList] then
    throw ⟨400, "unsupported ssh algorithm"⟩
  else if withPassphrase ∧ truthy masterPassword = none then
    throw ⟨400, "master_password is required"⟩
  else
    let passphrase := if withPassphrase then generated else []
    match keygen safeAlias algo passphrase (strip aliasName) with
    | none => throw ⟨500, "ssh-keygen failed"⟩
    | some pair => do
      setKeys safeAlias (some pair)
      if withPassphrase then do
        openKdbx (masterPassword.getD []) true confirm
        saveEntries (upsertKdbxEntry (vaultEntryTitle .keyPassphrase aliasName) (some passphrase))
      else pure ()

/-! ## The property -/

inductive ServerOp where
  | upsertServerConnection (host user : Text) (port : Option Int)
  | setPrimaryDomain (primaryDomain : Option Text)
  | setVaultEntries (masterPassword : Text) (confirm : Option Text) (createIfMissing : Bool)
      (serverPassword vaultPassword keyPassphrase : Option Text)
  | generateSshKeypair (generated algorithm : Text) (withPassphrase : Bool)
      (masterPassword confirm : Option Text)

/-- An operation on the server of an alias. -/
def ServerOp.program (keygen : Keygen) (aliasName : Text) :
    ServerOp → EStateM HttpError (ServerStore κ) Unit
  | .upsertServerConnection host user port => connectServer yaml aliasName host user port
  | .setPrimaryDomain domain => Servers.setPrimaryDomain yaml aliasName domain
  | .setVaultEntries master confirm create server vault key =>
      Servers.setVaultEntries aliasName master confirm create server vault key
  | .generateSshKeypair generated algorithm withPassphrase master confirm =>
      Servers.generateSshKeypair keygen generated aliasName algorithm withPassphrase master confirm

/-- What the operations use for a server. -/
structure Owned (κ : Type) where
  hostVars : Option κ
  serverPassword : List (Text × Text)
  keyPassphrase : List (Text × Text)
  privateKey : Option Text
  publicKey : Option Text

/-- The entries of a title. -/
def ServerStore.titled (s : ServerStore κ) (title : Text) : List (Text × Text) :=
  ((s.vault.map Kdbx.entries).getD []).filter fun e => e.1 = title

def owned (aliasName : Text) (s : ServerStore κ) : Owned κ where
  hostVars := s.hostVars (yml (sanitizeHostFilename aliasName))
  serverPassword := s.titled (vaultEntryTitle .serverPassword aliasName)
  keyPassphrase := s.titled (vaultEntryTitle .keyPassphrase aliasName)
  privateKey := s.keys (vaultAlias aliasName)
  publicKey := s.keys (publicName (vaultAlias aliasName))

/-- Whatever is done to the server `a`, and however it ends, `b` has what it had. -/
def Independent (keygen : Keygen) (a b : Alias) : Prop :=
  ∀ (op : ServerOp) (s : ServerStore κ),
    owned b.name (after (op.program yaml keygen a.name) s) = owned b.name s

/-- The names that the two aliases are turned into are not one, nor one the public key's of the
    other. -/
structure Apart (a b : Alias) : Prop where
  ne : sanitizeHostFilename a.name ≠ sanitizeHostFilename b.name
  publicLeft : publicName (sanitizeHostFilename a.name) ≠ sanitizeHostFilename b.name
  publicRight : sanitizeHostFilename a.name ≠ publicName (sanitizeHostFilename b.name)

end

/-! ## Names and titles -/

theorem vaultAlias_of_ne {a : Text} (h : a ≠ []) : vaultAlias a = sanitizeHostFilename a := by
  rw [vaultAlias, if_neg h]

theorem yml_inj {a b : Text} (h : yml a = yml b) : a = b := List.append_cancel_right h

/-- Titles of one kind are as different as the aliases, those of two kinds always. -/
theorem title_server_inj {a b : Text}
    (h : vaultEntryTitle .serverPassword a = vaultEntryTitle .serverPassword b) :
    vaultAlias a = vaultAlias b := List.append_cancel_left h

theorem title_key_inj {a b : Text}
    (h : vaultEntryTitle .keyPassphrase a = vaultEntryTitle .keyPassphrase b) :
    vaultAlias a = vaultAlias b := List.append_cancel_left h

theorem title_server_ne_key (a b : Text) :
    vaultEntryTitle .serverPassword a ≠ vaultEntryTitle .keyPassphrase b := fun h => by cases h

theorem title_server_ne_vault (a b : Text) :
    vaultEntryTitle .serverPassword a ≠ vaultEntryTitle .vaultPassword b := fun h => by cases h

theorem title_key_ne_vault (a b : Text) :
    vaultEntryTitle .keyPassphrase a ≠ vaultEntryTitle .vaultPassword b := fun h => by cases h

/-! ## Entries -/

theorem filter_put_of_ne {title other p : Text} (h : other ≠ title) (entries : List (Text × Text)) :
    (put title p entries).filter (fun e => e.1 = other) = entries.filter fun e => e.1 = other := by
  induction entries with
  | nil => simp [put, h.symm]
  | cons e entries ih =>
    unfold put
    split
    · rename_i he
      rw [List.filter_cons_of_neg (by simp [h.symm]), List.filter_cons_of_neg (by simp [he, h.symm])]
    · rw [List.filter_cons, List.filter_cons, ih]

theorem filter_eraseP_of_ne {title other : Text} (h : other ≠ title)
    (entries : List (Text × Text)) :
    (entries.eraseP fun e => e.1 = title).filter (fun e => e.1 = other) =
      entries.filter fun e => e.1 = other := by
  induction entries with
  | nil => rfl
  | cons e entries ih =>
    by_cases he : e.1 = title
    · rw [List.eraseP_cons_of_pos (by simp [he]), List.filter_cons_of_neg (by simp [he, h.symm])]
    · rw [List.eraseP_cons_of_neg (by simp [he]), List.filter_cons, List.filter_cons, ih]

/-- An entry is written without a look at the others. -/
theorem filter_upsert_of_ne {title other : Text} (h : other ≠ title) (password : Option Text)
    (entries : List (Text × Text)) :
    (upsertKdbxEntry title password entries).filter (fun e => e.1 = other) =
      entries.filter fun e => e.1 = other := by
  unfold upsertKdbxEntry
  split
  · rfl
  · exact filter_eraseP_of_ne h entries
  · exact filter_put_of_ne h entries

/-! ## What each step leaves alone -/

section
variable {κ : Type} {yaml : TaggedYaml κ} {keygen : Keygen} {b : Text}

/-- The server has what it had. -/
def SameFor (b : Text) (s t : ServerStore κ) : Prop := owned b t = owned b s

instance : IsPreorder (ServerStore κ) (SameFor b) where
  refl _ := rfl
  trans _ _ _ h h' := h'.trans h

theorem moves_openKdbx (masterPassword : Text) (create : Bool) (confirm : Option Text) :
    Moves (SameFor b) (openKdbx (κ := κ) masterPassword create confirm) := by
  intro s
  unfold after openKdbx
  split
  · rename_i t hrun
    split at hrun
    · cases hrun
    · split at hrun
      · rename_i hvault
        split at hrun
        · cases hrun
        · split at hrun
          · cases hrun
          · -- a vault without entries is as good as none
            cases hrun
            unfold SameFor owned ServerStore.titled
            rw [hvault]
            rfl
      · split at hrun
        · cases hrun
          rfl
        · cases hrun
  · rename_i e t hrun
    split at hrun
    · cases hrun; rfl
    · split at hrun
      · split at hrun
        · cases hrun; rfl
        · split at hrun
          · cases hrun; rfl
          · cases hrun
      · split at hrun
        · cases hrun
        · cases hrun; rfl

theorem moves_saveEntries {f : List (Text × Text) → List (Text × Text)}
    (hserver : ∀ entries, (f entries).filter (fun e => e.1 = vaultEntryTitle .serverPassword b) =
      entries.filter fun e => e.1 = vaultEntryTitle .serverPassword b)
    (hkey : ∀ entries, (f entries).filter (fun e => e.1 = vaultEntryTitle .keyPassphrase b) =
      entries.filter fun e => e.1 = vaultEntryTitle .keyPassphrase b) :
    Moves (SameFor b) (saveEntries (κ := κ) f) := by
  intro s
  have htitled : ∀ (title : Text) (kdbx : Option Kdbx),
      (∀ entries, (f entries).filter (fun e => e.1 = title) =
        entries.filter fun e => e.1 = title) →
      (((kdbx.map fun kdbx => { kdbx with entries := f kdbx.entries }).map
        Kdbx.entries).getD []).filter (fun e => e.1 = title) =
        ((kdbx.map Kdbx.entries).getD []).filter fun e => e.1 = title := by
    intro title kdbx h
    cases kdbx with
    | none => rfl
    | some kdbx => exact h kdbx.entries
  unfold SameFor owned after saveEntries ServerStore.titled
  dsimp only
  rw [htitled _ _ hserver, htitled _ _ hkey]

theorem moves_setKeys {safeAlias : Text} (pair : Option (Text × Text))
    (hprivate : vaultAlias b ≠ safeAlias ∧ vaultAlias b ≠ publicName safeAlias)
    (hpublic : publicName (vaultAlias b) ≠ safeAlias ∧
      publicName (vaultAlias b) ≠ publicName safeAlias) :
    Moves (SameFor b) (setKeys (κ := κ) safeAlias pair) := by
  intro s
  unfold SameFor owned after setKeys
  dsimp only
  rw [if_neg hprivate.1, if_neg hprivate.2, if_neg hpublic.1, if_neg hpublic.2]
  rfl

theorem moves_writeHostVars {a : Text} (f : Dict → Dict)
    (h : sanitizeHostFilename b ≠ sanitizeHostFilename a) :
    Moves (SameFor b) (writeHostVars yaml a f) := by
  intro s
  have hname : yml (sanitizeHostFilename b) ≠ yml (sanitizeHostFilename a) := fun heq => h (yml_inj heq)
  unfold after writeHostVars SameFor owned
  dsimp only
  split
  · rename_i t hrun
    split at hrun
    · cases hrun
    · split at hrun
      · cases hrun
      · cases hrun
        dsimp only
        rw [if_neg hname]
        rfl
  · rename_i e t hrun
    split at hrun
    · cases hrun
      rfl
    · split at hrun
      · cases hrun
        dsimp only
        rw [if_neg hname]
        rfl
      · cases hrun

/-! ## What each operation leaves alone -/

section Apart

variable {a b : Alias}

theorem Apart.title_server (h : Apart a b) :
    vaultEntryTitle .serverPassword b.name ≠ vaultEntryTitle .serverPassword a.name := by
  intro heq
  have := title_server_inj heq
  rw [vaultAlias_of_ne a.nonempty, vaultAlias_of_ne b.nonempty] at this
  exact h.ne this.symm

theorem Apart.title_key (h : Apart a b) :
    vaultEntryTitle .keyPassphrase b.name ≠ vaultEntryTitle .keyPassphrase a.name := by
  intro heq
  have := title_key_inj heq
  rw [vaultAlias_of_ne a.nonempty, vaultAlias_of_ne b.nonempty] at this
  exact h.ne this.symm

theorem Apart.moves_connect (h : Apart a b) (host user : Text) (port : Option Int) :
    Moves (SameFor b.name) (connectServer (κ := κ) yaml a.name host user port) := by
  refine Moves.ite (fun _ => Moves.raise _) fun _ => ?_
  refine Moves.ite (fun _ => Moves.raise _) fun _ => ?_
  refine Moves.ite (fun _ => Moves.raise _) fun _ => ?_
  exact moves_writeHostVars _ (by rw [a.trimmed]; exact fun heq => h.ne heq.symm)

theorem Apart.moves_primary (h : Apart a b) (domain : Option Text) :
    Moves (SameFor b.name) (setPrimaryDomain (κ := κ) yaml a.name domain) := by
  refine Moves.ite (fun _ => Moves.raise _) fun _ => ?_
  exact moves_writeHostVars _ (by rw [a.trimmed]; exact fun heq => h.ne heq.symm)

theorem Apart.moves_entries (h : Apart a b) (master : Text) (confirm : Option Text) (create : Bool)
    (server vault key : Option Text) :
    Moves (SameFor b.name) (setVaultEntries (κ := κ) a.name master confirm create server vault key) := by
  refine Moves.bind (moves_openKdbx _ _ _) fun _ => moves_saveEntries ?_ ?_
  · intro entries
    rw [filter_upsert_of_ne (title_server_ne_key _ _), filter_upsert_of_ne (title_server_ne_vault _ _),
      filter_upsert_of_ne h.title_server]
  · intro entries
    rw [filter_upsert_of_ne h.title_key, filter_upsert_of_ne (title_key_ne_vault _ _),
      filter_upsert_of_ne (title_server_ne_key _ _).symm]

theorem Apart.moves_setKeys (h : Apart a b) (pair : Option (Text × Text)) :
    Moves (SameFor b.name) (setKeys (κ := κ) (vaultAlias a.name) pair) := by
  refine Servers.moves_setKeys pair ?_ ?_
  all_goals rw [vaultAlias_of_ne a.nonempty, vaultAlias_of_ne b.nonempty]
  · exact ⟨h.ne.symm, h.publicLeft.symm⟩
  · exact ⟨h.publicRight.symm, fun heq => h.ne (List.append_cancel_right heq).symm⟩

theorem Apart.moves_keypair (h : Apart a b) (generated algorithm : Text) (withPassphrase : Bool)
    (master confirm : Option Text) :
    Moves (SameFor b.name)
      (generateSshKeypair (κ := κ) keygen generated a.name algorithm withPassphrase master confirm) := by
  refine Moves.bind (h.moves_setKeys none) fun _ => ?_
  refine Moves.ite (fun _ => Moves.raise _) fun _ => ?_
  refine Moves.ite (fun _ => Moves.raise _) fun _ => ?_
  generalize (if withPassphrase = true then generated else []) = passphrase
  dsimp only
  split
  · exact Moves.raise _
  · refine Moves.bind (h.moves_setKeys _) fun _ => ?_
    refine Moves.ite (fun _ => ?_) fun _ => Moves.ret _
    refine Moves.bind (moves_openKdbx _ _ _) fun _ => moves_saveEntries ?_ ?_
    · exact fun entries => filter_upsert_of_ne (title_server_ne_key _ _) _ entries
    · exact fun entries => filter_upsert_of_ne h.title_key _ entries

/-- **An operation on one of two servers that are apart leaves the other alone.** -/
theorem Apart.moves (h : Apart a b) (op : ServerOp) :
    Moves (SameFor b.name) (op.program (κ := κ) yaml keygen a.name) := by
  cases op with
  | upsertServerConnection host user port => exact h.moves_connect host user port
  | setPrimaryDomain domain => exact h.moves_primary domain
  | setVaultEntries master confirm create server vault key =>
    exact h.moves_entries master confirm create server vault key
  | generateSshKeypair generated algorithm withPassphrase master confirm =>
    exact h.moves_keypair generated algorithm withPassphrase master confirm

/-! ## Servers that are not apart -/

/-- A workspace with nothing but keys. -/
def keysOnly (key : Option Text) : ServerStore κ :=
  { hostVars := fun _ => none, inventory := none, record := [], vault := none, keys := fun _ => key }

/-- A connection is written where there was none. -/
theorem connect_writes (a : Alias) : ((after (ServerOp.program (κ := κ) yaml keygen a.name
    (.upsertServerConnection "h" "u" none)) (keysOnly none)).hostVars
      (yml (sanitizeHostFilename a.name))).isSome := by
  have hhost : ¬ (strip "h".toList = [] ∨ strip "u".toList = []) := by decide
  unfold ServerOp.program
  dsimp only
  unfold connectServer
  rw [a.trimmed, if_neg a.nonempty, if_neg hhost, if_neg (by decide)]
  unfold after writeHostVars keysOnly
  dsimp only [loadYamlMapping]
  rw [if_pos rfl]
  rfl

/-- A key pair of an unknown kind takes the old one away. -/
theorem keypair_removes (a : Alias) {name : Text}
    (hname : name = sanitizeHostFilename a.name ∨ name = publicName (sanitizeHostFilename a.name)) :
    (after (ServerOp.program (κ := κ) yaml keygen a.name
      (.generateSshKeypair [] "dsa" false none none)) (keysOnly (some []))).keys name = none := by
  have halgo : strip (lower (if "dsa".toList = [] then "ed25519".toList else "dsa".toList)) ∉
      ["ed25519".toList, "rsa".toList, "ecdsa".toList] := by decide
  have hrun : ∃ e, generateSshKeypair (κ := κ) keygen [] a.name "dsa" false none none
      (keysOnly (some [])) = .error e (after (setKeys (vaultAlias a.name) none)
        (keysOnly (some []))) := by
    unfold generateSshKeypair
    dsimp only
    rw [if_pos halgo]
    exact ⟨_, rfl⟩
  obtain ⟨e, hrun⟩ := hrun
  rw [ServerOp.program, after_of_error hrun, vaultAlias_of_ne a.nonempty]
  unfold after setKeys
  dsimp only
  rcases hname with rfl | rfl
  · rw [if_pos rfl]
    rfl
  · rw [if_pos rfl]
    split <;> rfl

end Apart

/-- **Two servers are independent if and only if** their names are apart. -/
theorem independent_iff (yaml : TaggedYaml κ) (keygen : Keygen) (a b : Alias) :
    Independent yaml keygen a b ↔ Apart a b := by
  constructor
  · intro h
    refine ⟨fun heq => ?_, fun heq => ?_, fun heq => ?_⟩
    · have hsame := congrArg Owned.hostVars
        (h (.upsertServerConnection "h" "u" none) (keysOnly none))
      have hwritten := @connect_writes _ yaml keygen a
      unfold owned at hsame
      dsimp only at hsame
      rw [heq, hsame] at hwritten
      cases hwritten
    · have hsame := congrArg Owned.privateKey
        (h (.generateSshKeypair [] "dsa" false none none) (keysOnly (some [])))
      unfold owned at hsame
      dsimp only at hsame
      rw [vaultAlias_of_ne b.nonempty, ← heq, keypair_removes a (Or.inr rfl)] at hsame
      cases hsame
    · have hsame := congrArg Owned.publicKey
        (h (.generateSshKeypair [] "dsa" false none none) (keysOnly (some [])))
      unfold owned at hsame
      dsimp only at hsame
      rw [vaultAlias_of_ne b.nonempty, ← heq, keypair_removes a (Or.inl rfl)] at hsame
      cases hsame
  · intro h op s
    exact h.moves op s

end

section Demo

def blankAlias : Alias := ⟨"web 1", by decide, by decide⟩

def underscoreAlias : Alias := ⟨"web_1", by decide, by decide⟩

def plainAlias : Alias := ⟨"x", by decide, by decide⟩

def pubAlias : Alias := ⟨"x.pub", by decide, by decide⟩

/-- A connection of `web 1` is one of `web_1`; a key pair for `x` is made where `x.pub` has its
    private key. -/
theorem servers_shared :
    ¬ Independent treeYaml (fun _ _ _ _ => some ("private", "public")) blankAlias underscoreAlias ∧
      ¬ Independent treeYaml (fun _ _ _ _ => some ("private", "public")) plainAlias pubAlias := by
  refine ⟨fun h => ?_, fun h => ?_⟩
  · have hsame := congrArg (fun o => o.hostVars.isSome)
      (h (.upsertServerConnection "10.0.0.1" "root" none) (keysOnly none))
    revert hsame
    decide +kernel
  · have hsame := congrArg Owned.privateKey
      (h (.generateSshKeypair [] "rsa" false none none) (keysOnly (some "old".toList)))
    revert hsame
    decide +kernel

end Demo

end Infinito.Servers
