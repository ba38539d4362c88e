import Infinito.Lib.Flow
import Infinito.Panel.Orphans
import Infinito.Workspace.HostVars

/-!
# Host variables follow the credentials

`syncHostVarsFromCredentials` reads the host variables of the active alias, sets and deletes the
keys that the credentials decide about, and has the service write what `YAML.stringify` makes of
the rest as well. The library of the panel knows no `!vault`: a tagged text is a plain one to it,
and it writes no tag. The service fills in what is missing from the applications, and nothing is.

So every secret that the file keeps in a vault is in it as a plain text after the first change of
the credentials. `host_vars_sync_iff` is exact: what the panel does not manage stays as it is if
there is no tag in it.

The two libraries are taken to find the same keys in a text; a tag of a mapping is outside of
this model.
-/

set_option autoImplicit false

namespace Infinito.Panel

open Py Lib Lib.Tree
open Orders (jsTrim)
open Infinito.Workspace (Yaml Docs Host World Disk Done FileName Path readFile writeFile safeResolve
  demoHost demoName demoServer demoServer_resolved plainDocs hostVarsName)

/-! ## Documents -/

/-- A value that is no mapping: what `YAML.parse` makes of it, and the unknown tags in it, each
    with the place it is at. -/
structure Tagged (β : Type) where
  value : β
  tags : List (List Text × Text)
  deriving DecidableEq

namespace Tagged

variable {β : Type}

def untagged (b : β) : Tagged β := ⟨b, []⟩

def HasVault (a : Tagged β) : Prop := ∃ place, (place, "!vault".toList) ∈ a.tags

end Tagged

/-- What the panel has from the language and from its YAML library. A value of the language is a
    tree as well: a leaf is what is no plain object. -/
structure Web (β : Type) where
  null : β
  str : Text → β
  num : ℚ → β
  /-- the elements, if the value is an array -/
  items : β → Option (List (Tree Text β))
  /-- `typeof value === "number"` -/
  isNumber : β → Bool
  /-- `Number(value)`, where that is finite -/
  number : Tree Text β → Option ℚ
  /-- `YAML.parse`, nothing when it throws -/
  parse : Text → Option (Tree Text β)
  /-- `YAML.stringify` -/
  stringify : Tree Text β → Text
  /-- what a text says, with its tags -/
  read : Text → Option (Tree Text (Tagged β))

namespace Web

variable {β γ : Type}

/-- What the library of the panel promises. -/
structure Faithful (web : Web β) : Prop where
  /-- no key comes twice -/
  distinct : ∀ text t, web.read text = some t → t.Distinct
  /-- a tagged scalar is a plain one, and each object has a key once -/
  parse_read : ∀ text t, web.read text = some t →
    ∃ value, web.parse text = some value ∧ value.Distinct ∧ value.Same (t.map Tagged.value)
  /-- what is written is read again, and has no tag -/
  read_stringify : ∀ value : Tree Text β, value.Distinct →
    ∃ t, web.read (web.stringify value) = some t ∧ t.Same (value.map Tagged.untagged)
  /-- lines end with a line feed -/
  no_return : ∀ value, '\r' ∉ web.stringify value
  items_distinct : ∀ b xs, web.items b = some xs → ∀ x ∈ xs, x.Distinct

/-- Where both libraries read a text, they find the same keys. -/
structure Agrees (web : Web β) (yaml : Yaml Text γ) : Prop where
  applications : yaml.applications = "applications".toList
  distinct : ∀ text t, yaml.load text = some t → t.Distinct
  alike : ∀ text t u, web.read text = some t → yaml.load text = some u → t.Alike u

/-- What a file says to the panel. -/
def documentAt (web : Web β) (d : Disk) (p : Path) : Option (Tree Text (Tagged β)) :=
  (d.fileAt p).bind fun b => web.read (Py.readText b)

end Web

/-! ## The credentials -/

structure HostCredentials where
  host : Option Text
  port : Option Text
  user : Option Text
  description : Option Text
  primaryDomain : Option Text
  color : Option Text
  logoEmoji : Option Text

/-- `value?.trim() || ""` -/
def givenText (value : Option Text) : Text := jsTrim (value.getD [])

namespace DeviceVisuals

def isHexDigit (c : Char) : Bool := c.isDigit || ('a' ≤ c.toLower && c.toLower ≤ 'f')

/-- `normalizeDeviceColor` of the device visuals, the empty text for `null` -/
def normalizeDeviceColor (value : Option Text) : Text :=
  match givenText value with
  | '#' :: digits =>
      if digits.length = 6 ∧ digits.all isHexDigit = true then '#' :: digits.map Char.toUpper else []
  | _ => []

/-- `normalizeDeviceEmoji` of the device visuals, the empty text for `null` -/
def normalizeDeviceEmoji (value : Option Text) : Text := givenText value

end DeviceVisuals

/-! ## The keys -/

section Keys

variable {β : Type} [DecidableEq β] (web : Web β)

/-- The data, and `changed`. -/
abbrev Edited (β : Type) := Items Text β × Bool

/-- `data[key] === value` -/
def isText (key value : Text) (m : Items Text β) : Bool :=
  match Items.get key m with
  | some (.leaf b) => b = web.str value
  | _ => false

def putText (key value : Text) (s : Edited β) : Edited β :=
  if isText web key value s.1 then s else (Items.set key (.leaf (web.str value)) s.1, true)

def dropKey (key : Text) (s : Edited β) : Edited β :=
  if (Items.get key s.1).isSome then (Items.erase key s.1, true) else s

/-- What a credential that is given is set to. -/
def putGiven (key value : Text) (s : Edited β) : Edited β :=
  if value = [] then s else putText web key value s

/-- The same, and the key goes with the credential. -/
def putOrDrop (key value : Text) (s : Edited β) : Edited β :=
  if value = [] then dropKey key s else putText web key value s

/-- The properties of an array. -/
def indexed (xs : List (Tree Text β)) : Items Text β := xs.zipIdx.map fun x => (natText x.2, x.1)

/-- `value && typeof value === "object"`, with its own properties. -/
def ownProperties : Option (Tree Text β) → Option (Items Text β)
  | some (.node m) => some m
  | some (.leaf b) => (web.items b).map indexed
  | none => none

def putLogo (logoEmoji : Text) (s : Edited β) : Edited β :=
  let logo := ownProperties web (Items.get "logo".toList s.1)
  if logoEmoji ≠ [] then
    let currentLogo := putText web "emoji" logoEmoji (logo.getD [], s.2)
    (Items.set "logo".toList (.node currentLogo.1) s.1, currentLogo.2)
  else if (Items.get "emoji".toList (logo.getD [])).isSome then
    let nextLogo := Items.erase "emoji".toList (logo.getD [])
    (if nextLogo.isEmpty then Items.erase "logo".toList s.1
      else Items.set "logo".toList (.node nextLogo) s.1, true)
  else s

/-- `existing` -/
def existingPort (value : Option (Tree Text β)) : Option ℚ :=
  match value with
  | some (.leaf b) =>
      if web.isNumber b then web.number (.leaf b) else (web.number (.leaf b)).filter fun q => q.isInt
  | some t => (web.number t).filter fun q => q.isInt
  | none => none

def putPort (portRaw prevPort : Text) (s : Edited β) : Edited β :=
  if portRaw ≠ [] then
    match web.number (.leaf (web.str portRaw)) with
    | some portNum =>
        if portNum.isInt ∧ 1 ≤ portNum ∧ portNum ≤ 65535 ∧
            existingPort web (Items.get "ansible_port".toList s.1) ≠ some portNum then
          (Items.set "ansible_port".toList (.leaf (web.num portNum)) s.1, true)
        else s
    | none => s
  else if prevPort ≠ [] then dropKey "ansible_port" s
  else s

/-- What the credentials say that is one text each. -/
def putTexts (credentials : HostCredentials) (data : Items Text β) : Edited β :=
  let s : Edited β := (data, false)
  let s := putGiven web "ansible_host" (givenText credentials.host) s
  let s := putGiven web "ansible_user" (givenText credentials.user) s
  let s := putOrDrop web "description" (givenText credentials.description) s
  let s := putOrDrop web "DOMAIN_PRIMARY" (givenText credentials.primaryDomain) s
  let s := dropKey "server_requirements" s
  let s := dropKey "server_type" s
  let s := dropKey "storage_gb" s
  let s := dropKey "location" s
  putGiven web "color" (DeviceVisuals.normalizeDeviceColor credentials.color) s

/-- What the credentials make of the data. -/
def syncedHostVars (credentials : HostCredentials) (prevPort : Text) (data : Items Text β) : Edited β :=
  let s := putTexts web credentials data
  let s := putLogo web (DeviceVisuals.normalizeDeviceEmoji credentials.logoEmoji) s
  putPort web (givenText credentials.port) prevPort s

end Keys

/-! ## The sync -/

/-- What the panel knows, the empty text for what is not there. -/
structure HostVarsPanel where
  workspaceId : Text
  /-- `hostVarsSyncRef.current` -/
  syncing : Bool
  /-- `lastPortRef.current` -/
  lastPort : Text
  activeAlias : Text
  hostVarsPath : Text
  activePath : Text
  credentials : HostCredentials

/-- `lastPortRef.current` afterwards, and the arguments of `writeWorkspaceFile` if it is called. -/
structure HostVarsSync where
  lastPort : Text
  written : Option (Text × Text)

variable {β γ : Type} [DecidableEq β]

/-- `targetPath` -/
def targetPath (s : HostVarsPanel) : Text :=
  if s.hostVarsPath ≠ [] then s.hostVarsPath else hostVarsFile (sanitizeAliasFilename s.activeAlias)

/-- The data: nothing of a file that cannot be read. -/
def hostVarsData (web : Web β) (content : Option Text) : Tree Text β :=
  match content.bind web.parse with
  | some (.leaf b) => if b = web.null then .node [] else .leaf b
  | some t => t
  | none => .node []

/-- Some credential of a host is given. -/
def anyGiven (c : HostCredentials) : Bool :=
  [givenText c.host, givenText c.user, givenText c.description, givenText c.primaryDomain,
    DeviceVisuals.normalizeDeviceColor c.color,
    DeviceVisuals.normalizeDeviceEmoji c.logoEmoji].any fun t => t ≠ []

/-- `syncHostVarsFromCredentials`, where reading the file gives `content`. -/
def syncHostVarsFromCredentials (web : Web β) (s : HostVarsPanel) (editorDirty : Bool)
    (content : Option Text) : HostVarsSync :=
  if s.workspaceId = [] ∨ s.syncing = true ∨ s.activeAlias = [] ∨
      (s.activePath = targetPath s ∧ editorDirty = true) ∨ anyGiven s.credentials = false then
    ⟨s.lastPort, none⟩
  else
    match hostVarsData web content with
    | .node data =>
        let next := syncedHostVars web s.credentials s.lastPort data
        ⟨givenText s.credentials.port,
          if next.2 then some (targetPath s, web.stringify (.node next.1)) else none⟩
    | .leaf b =>
        -- a list takes the new properties and is written without them, a scalar takes none
        if (web.items b).isSome then
          ⟨givenText s.credentials.port, some (targetPath s, web.stringify (.leaf b))⟩
        else ⟨s.lastPort, none⟩

/-! ## What is not managed -/

/-- The keys that the sync sets and deletes, beside the logo. -/
def managedKeys : List Text :=
  ["ansible_host", "ansible_user", "description", "DOMAIN_PRIMARY", "server_requirements",
    "server_type", "storage_gb", "location", "color", "ansible_port"]

/-- The path leads to one of the keys, to the emoji of the logo, or to a logo that is replaced. -/
def Managed {α : Type} (t : Tree Text α) : List Text → Prop
  | [] => False
  | key :: rest => key ∈ managedKeys ∨ key = "logo".toList ∧
      ¬ (t.probe ["logo".toList] = some none ∧ ∃ k q, rest = k :: q ∧ k ≠ "emoji".toList)

omit [DecidableEq β] in
/-- What is not managed stays: a value in the vault in it, and all else as it is. -/
structure HostVarsKept (old stored : Tree Text (Tagged β)) : Prop where
  vaults : ∀ p a, ¬ Managed old p → old.probe p = some (some a) → a.HasVault →
    stored.probe p = some (some a)
  others : ∀ p, ¬ Managed old p → (∀ a, old.probe p = some (some a) → ¬ a.HasVault) →
    stored.probe p = old.probe p

/-! ## What the sync changes -/

section Frame

variable {web : Web β} {k key value : Text} {s : Edited β} {m : Items Text β} {p : List Text}

theorem get_putText (hk : k ≠ key) : Items.get k (putText web key value s).1 = Items.get k s.1 := by
  unfold putText
  split
  · rfl
  · exact Items.get_set_of_ne hk _ _

omit [DecidableEq β] in
theorem get_dropKey (hk : k ≠ key) : Items.get k (dropKey key s).1 = Items.get k s.1 := by
  unfold dropKey
  split
  · exact (Items.get_erase key k s.1).trans (if_neg hk)
  · rfl

theorem get_putGiven (hk : k ≠ key) : Items.get k (putGiven web key value s).1 = Items.get k s.1 := by
  unfold putGiven
  split
  · rfl
  · exact get_putText hk

theorem get_putOrDrop (hk : k ≠ key) : Items.get k (putOrDrop web key value s).1 = Items.get k s.1 := by
  unfold putOrDrop
  split
  · exact get_dropKey hk
  · exact get_putText hk

omit [DecidableEq β] in
theorem get_putPort {portRaw prevPort : Text} (hk : k ≠ "ansible_port".toList) :
    Items.get k (putPort web portRaw prevPort s).1 = Items.get k s.1 := by
  unfold putPort
  split
  · split
    · split
      · exact Items.get_set_of_ne hk _ _
      · rfl
    · rfl
  · split
    · exact get_dropKey hk
    · rfl

theorem get_putTexts (credentials : HostCredentials) (hk : k ∉ managedKeys) :
    Items.get k (putTexts web credentials m).1 = Items.get k m := by
  have hne {key : Text} (hkey : key ∈ managedKeys) : k ≠ key := (ne_of_mem_of_not_mem hkey hk).symm
  unfold putTexts
  rw [get_putGiven (hne (by decide)), get_dropKey (hne (by decide)), get_dropKey (hne (by decide)),
    get_dropKey (hne (by decide)), get_dropKey (hne (by decide)), get_putOrDrop (hne (by decide)),
    get_putOrDrop (hne (by decide)), get_putGiven (hne (by decide)), get_putGiven (hne (by decide))]

theorem get_putLogo {logoEmoji : Text} (hk : k ≠ "logo".toList) :
    Items.get k (putLogo web logoEmoji s).1 = Items.get k s.1 := by
  unfold putLogo
  dsimp only
  split
  · exact Items.get_set_of_ne hk _ _
  · split
    · split
      · exact (Items.get_erase _ k s.1).trans (if_neg hk)
      · exact Items.get_set_of_ne hk _ _
    · rfl

/-- Of a logo that is a mapping, only the emoji changes. -/
theorem probe_putLogo {logoEmoji : Text} {logo : Items Text β}
    (hlogo : Items.get "logo".toList s.1 = some (node logo)) (hk : k ≠ "emoji".toList) :
    (node (putLogo web logoEmoji s).1).probe ("logo".toList :: k :: p) = (node logo).probe (k :: p) := by
  have hown : ownProperties web (Items.get "logo".toList s.1) = some logo := by
    rw [hlogo]
    rfl
  unfold putLogo
  rw [hown]
  dsimp only [Option.getD_some]
  split
  · rw [probe_set, if_pos rfl, probe_node_cons, probe_node_cons, get_putText hk]
  · split
    · split
      · rename_i hempty
        -- the emoji was all of it
        have hnone : Items.get k logo = none := by
          rw [← (Items.get_erase "emoji".toList k logo).trans (if_neg hk),
            List.isEmpty_iff.mp hempty]
          rfl
        rw [probe_node_cons, probe_node_cons, Items.get_erase, if_pos rfl, hnone]
        rfl
      · rw [probe_set, if_pos rfl, probe_erase_of_ne hk]
    · rw [probe_node_cons, hlogo]
      rfl

omit [DecidableEq β] in
theorem probe_logo_iff : (node m).probe ["logo".toList] = some none ↔
    ∃ logo, Items.get "logo".toList m = some (node logo) := by
  rw [probe_node_cons]
  cases Items.get "logo".toList m with
  | none => exact iff_of_false nofun nofun
  | some t =>
    cases t with
    | leaf b => exact iff_of_false nofun nofun
    | node logo => exact iff_of_true rfl ⟨logo, rfl⟩

/-- **The sync changes nothing but what it manages.** -/
theorem probe_synced (credentials : HostCredentials) (prevPort : Text)
    (hp : ¬ Managed (node m) p) :
    (node (syncedHostVars web credentials prevPort m).1).probe p = (node m).probe p := by
  cases p with
  | nil => rfl
  | cons key rest =>
    obtain ⟨hkey, hlogo⟩ := not_or.mp hp
    have hport : key ≠ "ansible_port".toList := (ne_of_mem_of_not_mem (by decide) hkey).symm
    unfold syncedHostVars
    dsimp only
    rw [probe_node_cons, get_putPort hport, ← probe_node_cons]
    by_cases hk : key = "logo".toList
    · subst hk
      obtain ⟨hmapping, k, q, rfl, hemoji⟩ := Classical.not_not.mp (not_and.mp hlogo rfl)
      obtain ⟨logo, hget⟩ := probe_logo_iff.mp hmapping
      have hbefore : Items.get "logo".toList (putTexts web credentials m).1 = some (node logo) :=
        (get_putTexts credentials hkey).trans hget
      rw [probe_putLogo hbefore hemoji, probe_node_cons (k := "logo".toList), hget]
      rfl
    · rw [probe_node_cons, probe_node_cons, get_putLogo hk, get_putTexts credentials hkey]

end Frame

/-! ## Objects stay objects -/

section Distinct

variable {web : Web β} {key value : Text} {s : Edited β} {m : Items Text β}

theorem distinct_putText (hs : (node s.1).Distinct) : (node (putText web key value s).1).Distinct := by
  unfold putText
  split
  · exact hs
  · exact hs.set key (.leaf _)

omit [DecidableEq β] in
theorem distinct_dropKey (hs : (node s.1).Distinct) : (node (dropKey key s).1).Distinct := by
  unfold dropKey
  split
  · exact hs.erase key
  · exact hs

theorem distinct_putGiven (hs : (node s.1).Distinct) :
    (node (putGiven web key value s).1).Distinct := by
  unfold putGiven
  split
  · exact hs
  · exact distinct_putText hs

theorem distinct_putOrDrop (hs : (node s.1).Distinct) :
    (node (putOrDrop web key value s).1).Distinct := by
  unfold putOrDrop
  split
  · exact distinct_dropKey hs
  · exact distinct_putText hs

theorem distinct_putTexts (credentials : HostCredentials) (hm : (node m).Distinct) :
    (node (putTexts web credentials m).1).Distinct := by
  unfold putTexts
  refine distinct_putGiven (distinct_dropKey (distinct_dropKey (distinct_dropKey (distinct_dropKey ?_))))
  exact distinct_putOrDrop (distinct_putOrDrop (distinct_putGiven (distinct_putGiven hm)))

omit [DecidableEq β] in
theorem distinct_indexed {xs : List (Tree Text β)} (hxs : ∀ x ∈ xs, x.Distinct) :
    (node (indexed xs)).Distinct := by
  have hkeys : (indexed xs).map (·.1) = (List.range xs.length).map natText := by
    unfold indexed
    rw [List.map_map, List.range_eq_range', ← List.zipIdx_map_snd, List.map_map]
    rfl
  refine .node ?_ fun item hitem => ?_
  · rw [hkeys]
    exact List.nodup_range.map natText_injective
  · obtain ⟨x, hx, rfl⟩ := List.mem_map.mp hitem
    exact hxs x.1 (List.fst_mem_of_mem_zipIdx hx)

omit [DecidableEq β] in
theorem distinct_ownProperties (hweb : web.Faithful) {t : Option (Tree Text β)}
    (ht : ∀ u, t = some u → u.Distinct) : (node ((ownProperties web t).getD [])).Distinct := by
  have hnil : (node ([] : Items Text β)).Distinct := .node List.nodup_nil nofun
  unfold ownProperties
  split
  · exact ht _ rfl
  · rename_i b
    cases hitems : web.items b with
    | none => exact hnil
    | some xs => exact distinct_indexed (hweb.items_distinct b xs hitems)
  · exact hnil

theorem distinct_putLogo (hweb : web.Faithful) {logoEmoji : Text} (hs : (node s.1).Distinct) :
    (node (putLogo web logoEmoji s).1).Distinct := by
  have hlogo : (node ((ownProperties web (Items.get "logo".toList s.1)).getD [])).Distinct :=
    distinct_ownProperties hweb fun u hu => hs.get hu
  unfold putLogo
  dsimp only
  split
  · exact hs.set _ (distinct_putText hlogo)
  · split
    · split
      · exact hs.erase _
      · exact hs.set _ (hlogo.erase _)
    · exact hs

omit [DecidableEq β] in
theorem distinct_putPort {portRaw prevPort : Text} (hs : (node s.1).Distinct) :
    (node (putPort web portRaw prevPort s).1).Distinct := by
  unfold putPort
  split
  · split
    · split
      · exact hs.set _ (.leaf _)
      · exact hs
    · exact hs
  · split
    · exact distinct_dropKey hs
    · exact hs

theorem distinct_synced (hweb : web.Faithful) (credentials : HostCredentials) (prevPort : Text)
    (hm : (node m).Distinct) : (node (syncedHostVars web credentials prevPort m).1).Distinct :=
  distinct_putPort (distinct_putLogo hweb (distinct_putTexts credentials hm))

end Distinct

/-! ## What the file says afterwards -/

section Stored

variable {web : Web β} {yaml : Yaml Text γ} {old : Items Text (Tagged β)}
  {t stored : Tree Text (Tagged β)} {content text path : Text} {p : List Text}

theorem not_managed {α : Type} {t : Tree Text α} {key : Text} (hkey : key ∉ managedKeys)
    (hlogo : key ≠ "logo".toList) : ¬ Managed t (key :: p) :=
  not_or.mpr ⟨hkey, fun h => hlogo h.1⟩

theorem managed_congr {α δ : Type} {t : Tree Text α} {u : Tree Text δ} (h : t.Alike u) :
    Managed t p ↔ Managed u p := by
  have hmapping {α δ : Type} {t : Tree Text α} {u : Tree Text δ} (h : t.Alike u)
      (ht : t.probe ["logo".toList] = some none) : u.probe ["logo".toList] = some none := by
    have hlogo := h ["logo".toList]
    rw [ht] at hlogo
    cases hu : u.probe ["logo".toList] with
    | none =>
      rw [hu] at hlogo
      cases hlogo
    | some a =>
      rw [hu] at hlogo
      cases a with
      | none => rfl
      | some b => cases hlogo
  cases p with
  | nil => exact Iff.rfl
  | cons key rest =>
    unfold Managed
    rw [show t.probe ["logo".toList] = some none ↔ u.probe ["logo".toList] = some none from
      ⟨hmapping h, hmapping h.symm⟩]

/-- What is written, if the file was read. -/
theorem written_sync {s : HostVarsPanel} {editorDirty : Bool} {data : Items Text β}
    (hparse : web.parse content = some (node data))
    (hsync : (syncHostVarsFromCredentials web s editorDirty (some content)).written =
      some (path, text)) :
    text = web.stringify (node (syncedHostVars web s.credentials s.lastPort data).1) := by
  have hdata : hostVarsData web (some content) = node data := by
    unfold hostVarsData
    rw [Option.bind_some, hparse]
  unfold syncHostVarsFromCredentials at hsync
  split at hsync
  · cases hsync
  · rw [hdata] at hsync
    dsimp only at hsync
    split at hsync
    · exact (Prod.mk.inj (Option.some.inj hsync)).2.symm
    · cases hsync

/-- **What is not managed is written without its tags.** -/
theorem probe_written (hweb : web.Faithful) {s : HostVarsPanel} {editorDirty : Bool}
    (hread : web.read content = some (node old))
    (hsync : (syncHostVarsFromCredentials web s editorDirty (some content)).written =
      some (path, text)) :
    ∃ t, web.read text = some t ∧ '\r' ∉ text ∧ ∀ p, ¬ Managed (node old) p →
      t.probe p = ((node old).probe p).map (Option.map fun a => Tagged.untagged a.value) := by
  obtain ⟨value, hparse, hdistinct, hsame⟩ := hweb.parse_read content _ hread
  have halike : (node old).Alike value := (hsame.alike.trans (alike_map _ _)).symm
  obtain ⟨data, rfl⟩ := halike.exists_node
  have htext := written_sync hparse hsync
  obtain ⟨t, ht, hstored⟩ := hweb.read_stringify _
    (distinct_synced hweb s.credentials s.lastPort hdistinct)
  refine ⟨t, by rw [htext]; exact ht, by rw [htext]; exact hweb.no_return _, fun p hp => ?_⟩
  have hsynced := @probe_synced _ _ web data p s.credentials s.lastPort
    fun hm => hp ((managed_congr halike).mpr hm)
  rw [hstored p, probe_map, hsynced, hsame p, probe_map, Option.map_map, Option.map_comp_map]
  rfl

omit [DecidableEq β] in
/-- The service finds nothing missing from the applications. -/
theorem preserved_written [DecidableEq γ] (hserver : web.Agrees yaml)
    (hread : web.read content = some (node old)) (ht : web.read text = some t)
    (hprobe : ∀ p, ¬ Managed (node old) p →
      t.probe p = ((node old).probe p).map (Option.map fun a => Tagged.untagged a.value)) :
    yaml.preserved content text = none := by
  refine Infinito.Workspace.preserved_of_covered fun before new apps hbefore hnew happs => ?_
  have hkeys (p : List Text) : ((node apps).probe p).map Option.isSome =
      ((node new).probe (yaml.applications :: p)).map Option.isSome := by
    have hunmanaged : ¬ Managed (node old) (yaml.applications :: p) := by
      rw [hserver.applications]
      exact not_managed (by decide) (by decide)
    calc ((node apps).probe p).map Option.isSome
        = ((node before).probe (yaml.applications :: p)).map Option.isSome := by
          rw [probe_node_cons, happs]
          rfl
      _ = ((node old).probe (yaml.applications :: p)).map Option.isSome :=
          (hserver.alike content _ _ hread hbefore _).symm
      _ = (t.probe (yaml.applications :: p)).map Option.isSome := by
          rw [hprobe _ hunmanaged, Option.map_map]
          congr 1
          funext a
          cases a <;> rfl
      _ = ((node new).probe (yaml.applications :: p)).map Option.isSome :=
          hserver.alike text _ _ ht hnew _
  have hnil := hkeys []
  rw [probe_node_cons] at hnil
  cases hget : Items.get yaml.applications new with
  | none =>
    rw [hget] at hnil
    cases hnil
  | some u =>
    rw [hget] at hnil
    cases u with
    | leaf b => cases hnil
    | node dst =>
      refine ⟨dst, rfl, (hserver.distinct _ _ hbefore).get happs, fun p hp hnone => hp ?_⟩
      have hp' := hkeys p
      rw [probe_node_cons, hget, Option.bind_some, hnone] at hp'
      exact Option.map_eq_none_iff.mp hp'

omit [DecidableEq β] in
/-- Without tags a value is what it was only if it had none. -/
theorem hostVarsKept_iff {old : Tree Text (Tagged β)} (hprobe : ∀ p, ¬ Managed old p →
    stored.probe p = (old.probe p).map (Option.map fun a => Tagged.untagged a.value)) :
    HostVarsKept old stored ↔
      ∀ p a, ¬ Managed old p → old.probe p = some (some a) → a.tags = [] := by
  constructor
  · intro hkept p a hp ha
    have hsame : stored.probe p = some (some a) := by
      by_cases hvault : a.HasVault
      · exact hkept.vaults p a hp ha hvault
      · rw [hkept.others p hp fun b hb => ?_, ha]
        cases ha.symm.trans hb
        exact hvault
    have hstored := hprobe p hp
    rw [ha, hsame] at hstored
    have ha' : a = Tagged.untagged a.value := Option.some.inj (Option.some.inj hstored)
    rw [ha']
    rfl
  · intro hnone
    have hsame (p : List Text) (hp : ¬ Managed old p) : stored.probe p = old.probe p := by
      rw [hprobe p hp]
      cases hold : old.probe p with
      | none => rfl
      | some v =>
        cases v with
        | none => rfl
        | some a =>
          obtain ⟨value, tags⟩ := a
          cases hnone p _ hp hold
          rfl
    exact ⟨fun p a hp ha _ => (hsame p hp).trans ha, fun p hp _ => hsame p hp⟩

/-- What is in the file after the sync has written it. -/
theorem documentAt_synced [DecidableEq γ] {ρ : Type} (hweb : web.Faithful) (hserver : web.Agrees yaml)
    {others : Docs} {h : Host} {uuid : FileName} {s : HostVarsPanel} {editorDirty : Bool}
    {target : Path} {w w₁ w' : World ρ} {done : Done Unit}
    (hfetch : readFile h path w = .ok content w₁)
    (hsync : (syncHostVarsFromCredentials web s editorDirty (some content)).written =
      some (path, text))
    (hwrite : writeFile h (yaml.docs others) uuid path text w₁ = .ok done w')
    (htarget : safeResolve h path = .ok target) (hold : web.read content = some (node old)) :
    ∃ stored, web.documentAt w'.disk target = some stored ∧ ∀ p, ¬ Managed (node old) p →
      stored.probe p = ((node old).probe p).map (Option.map fun a => Tagged.untagged a.value) := by
  obtain ⟨b, hfile, rfl, hdisk⟩ := Infinito.Workspace.readFile_eq_ok hfetch htarget
  obtain ⟨stored, hread, hreturn, hprobe⟩ := probe_written hweb hold hsync
  have hunfilled := preserved_written hserver hold hread hprobe
  rw [← hdisk] at hfile
  have hget := Infinito.Workspace.writeFile_unfilled hwrite htarget hfile hunfilled
  refine ⟨stored, ?_, hprobe⟩
  unfold Web.documentAt
  rw [show w'.disk.fileAt target = _ from Infinito.Workspace.Nodes.fileAt_eq_some.mpr hget,
    Option.bind_some, readText_encode hreturn]
  exact hread

end Stored

section Demo

def flat {α : Type} (m : List (Text × α)) : Items Text α := m.map fun item => (item.1, .leaf item.2)

/-- A file and what is in it, and what is written of a value. -/
structure Sample where
  file : Text
  content : List (Text × Tagged Text)
  value : List (Text × Text)
  written : Text
  content_keys : (content.map (·.1)).Nodup
  value_keys : (value.map (·.1)).Nodup
  file_head : file.head? = some 'a'
  written_head : written.head? = some 'a'
  written_ne : written ≠ file
  no_return : '\r' ∉ written

namespace Sample

variable (s : Sample)

def read (text : Text) : Option (Tree Text (Tagged Text)) :=
  if text = s.file then some (node (flat s.content))
  else if text = s.written then some ((node (flat s.value)).map Tagged.untagged)
  else (Flow.parse text).map fun value => value.map Tagged.untagged

def web : Web Text where
  null := "null"
  str := id
  num q := natText q.num.toNat
  items _ := none
  isNumber _ := false
  number _ := none
  parse text := (s.read text).map fun t => t.map Tagged.value
  stringify value :=
    if Flow.print value = Flow.print (node (flat s.value)) then s.written else Flow.print value
  read := s.read

def yaml : Yaml Text (Tagged Text) where
  load text := (s.read text).map fun t => t.map fun a => ⟨a, []⟩
  dump _ := []
  null := Tagged.untagged "null"
  applications := "applications"

theorem distinct_flat {α : Type} {m : List (Text × α)} (h : (m.map (·.1)).Nodup) :
    (node (flat m)).Distinct := by
  refine .node ?_ fun item hitem => ?_
  · unfold flat
    rw [List.map_map]
    exact h
  · obtain ⟨i, -, rfl⟩ := List.mem_map.mp hitem
    exact .leaf _

theorem distinct_read {text : Text} {t : Tree Text (Tagged Text)} (h : s.read text = some t) :
    t.Distinct := by
  unfold read at h
  split at h
  · cases h
    exact distinct_flat s.content_keys
  split at h
  · cases h
    exact (distinct_flat s.value_keys).map _
  obtain ⟨value, hvalue, rfl⟩ := Option.map_eq_some_iff.mp h
  exact (Flow.distinct_parse hvalue).map _

theorem read_print {value : Tree Text Text} (h : value.Distinct) :
    s.read (Flow.print value) = some (value.map Tagged.untagged) := by
  have hne {t : Text} (ht : t.head? = some 'a') : Flow.print value ≠ t := by
    rintro rfl
    rcases Flow.head_print value with hhead | hhead <;> cases hhead.symm.trans ht
  unfold read
  rw [if_neg (hne s.file_head), if_neg (hne s.written_head), Flow.parse_print h]
  rfl

theorem web_faithful : s.web.Faithful where
  distinct _ _ h := s.distinct_read h
  parse_read text t h := by
    have hparse : s.web.parse text = some (t.map Tagged.value) := by
      show (s.read text).map _ = _
      rw [show s.read text = some t from h]
      rfl
    exact ⟨_, hparse, (s.distinct_read h).map _, Same.refl _⟩
  read_stringify value h := by
    refine ⟨value.map Tagged.untagged, ?_, Same.refl _⟩
    show s.read (if _ then _ else _) = _
    split
    · rename_i heq
      have hsame := s.read_print h
      rw [heq, s.read_print (distinct_flat s.value_keys)] at hsame
      rw [← hsame]
      unfold read
      rw [if_neg s.written_ne, if_pos rfl]
    · exact s.read_print h
  no_return value := by
    show '\r' ∉ ite _ _ _
    split
    · exact s.no_return
    · exact Flow.not_mem_print value
  items_distinct _ _ h := nomatch h

theorem web_agrees : s.web.Agrees s.yaml where
  applications := rfl
  distinct text t h := by
    obtain ⟨u, hu, rfl⟩ := Option.map_eq_some_iff.mp h
    exact (s.distinct_read hu).map _
  alike text t u ht hu := by
    obtain ⟨v, hv, rfl⟩ := Option.map_eq_some_iff.mp hu
    cases (show s.read text = some t from ht).symm.trans hv
    exact (alike_map _ _).symm

end Sample

/-- The panel, when the host has become `10.0.0.2`. -/
def movedPanel : HostVarsPanel where
  workspaceId := "ws"
  syncing := false
  lastPort := []
  activeAlias := "srv"
  hostVarsPath := "host_vars/srv.yml"
  activePath := []
  credentials := ⟨some "10.0.0.2".toList, none, none, none, none, none, none⟩

/-- The sync of a sample that is on the disk. -/
structure Sample.Ran (s : Sample) (disk : Disk) (content text : Text) (w₁ w' : World Unit)
    (done : Done Unit) : Prop where
  fetched : readFile demoHost "host_vars/srv.yml" (.fresh disk () []) = .ok content w₁
  synced : (syncHostVarsFromCredentials s.web movedPanel false (some content)).written =
    some ("host_vars/srv.yml".toList, text)
  saved : writeFile demoHost (s.yaml.docs plainDocs) (demoName "u") "host_vars/srv.yml" text w₁ =
    .ok done w'

def Sample.runs (s : Sample) (disk : Disk) : Bool :=
  match readFile demoHost "host_vars/srv.yml" (World.fresh disk () []) with
  | .ok content w₁ =>
      match (syncHostVarsFromCredentials s.web movedPanel false (some content)).written with
      | some (path, text) =>
          match writeFile demoHost (s.yaml.docs plainDocs) (demoName "u") path text w₁ with
          | .ok _ _ => path = "host_vars/srv.yml".toList
          | .error _ _ => false
      | none => false
  | .error _ _ => false

theorem Sample.exists_ran {s : Sample} {disk : Disk} (h : s.runs disk = true) :
    ∃ content text w₁ w' done, s.Ran disk content text w₁ w' done := by
  unfold runs at h
  split at h
  · rename_i content w₁ hfetched
    split at h
    · rename_i path text hsynced
      split at h
      · rename_i done w' hsaved
        cases of_decide_eq_true h
        exact ⟨content, text, w₁, w', done, hfetched, hsynced, hsaved⟩
      · cases h
    · cases h
  · cases h

/-- A password in the vault, beside the host. -/
def vaultSample : Sample where
  file := "ansible_host: 10.0.0.1\nansible_become_password: !vault |\n  $ANSIBLE_VAULT;1.1;AES256\n  3162\n"
  content := [("ansible_host".toList, .untagged "10.0.0.1".toList),
    ("ansible_become_password".toList,
      ⟨"$ANSIBLE_VAULT;1.1;AES256\n3162\n".toList, [([], "!vault".toList)]⟩)]
  value := [("ansible_host".toList, "10.0.0.2".toList),
    ("ansible_become_password".toList, "$ANSIBLE_VAULT;1.1;AES256\n3162\n".toList)]
  written := "ansible_host: 10.0.0.2\nansible_become_password: |\n  $ANSIBLE_VAULT;1.1;AES256\n  3162\n"
  content_keys := by decide
  value_keys := by decide
  file_head := by decide
  written_head := by decide
  written_ne := by decide
  no_return := by decide

/-- No secret beside the host. -/
def openSample : Sample where
  file := "ansible_host: 10.0.0.1\ntimezone: UTC\n"
  content := [("ansible_host".toList, .untagged "10.0.0.1".toList),
    ("timezone".toList, .untagged "UTC".toList)]
  value := [("ansible_host".toList, "10.0.0.2".toList), ("timezone".toList, "UTC".toList)]
  written := "ansible_host: 10.0.0.2\ntimezone: UTC\n"
  content_keys := by decide
  value_keys := by decide
  file_head := by decide
  written_head := by decide
  written_ne := by decide
  no_return := by decide

def vaultDisk : Disk := ⟨.ofList [([demoName "ws"], .dir), ([demoName "ws", hostVarsName], .dir),
  (demoServer, .file (encode vaultSample.file))], by decide +kernel⟩

def openDisk : Disk := ⟨.ofList [([demoName "ws"], .dir), ([demoName "ws", hostVarsName], .dir),
  (demoServer, .file (encode openSample.file))], by decide +kernel⟩

theorem Sample.read_fetched {s : Sample} {disk : Disk} {content text : Text} {w₁ w' : World Unit}
    {done : Done Unit} (h : s.Ran disk content text w₁ w' done)
    (hfile : disk.get demoServer = some (.file (encode s.file))) (hreturn : '\r' ∉ s.file) :
    s.web.read content = some (node (flat s.content)) := by
  obtain ⟨b, hb, rfl, -⟩ := Infinito.Workspace.readFile_eq_ok h.fetched demoServer_resolved
  cases hfile.symm.trans hb
  rw [readText_encode hreturn]
  exact if_pos rfl

/-- The sync of a sample keeps what it does not manage. -/
def Sample.Keeps (s : Sample) (disk : Disk) : Prop :=
  ∀ (content text : Text) (w₁ w' : World Unit) (done : Done Unit),
    s.Ran disk content text w₁ w' done →
      ∃ stored, s.web.documentAt w'.disk demoServer = some stored ∧
        HostVarsKept (node (flat s.content)) stored

theorem flat_of_probe {α : Type} {m : List (Text × α)} {p : List Text} {a : α}
    (h : (node (flat m)).probe p = some (some a)) : ∃ item ∈ m, item.2 = a := by
  cases p with
  | nil => cases h
  | cons key p =>
    rw [probe_node_cons] at h
    cases hget : Items.get key (flat m) with
    | none =>
      rw [hget] at h
      cases h
    | some t =>
      obtain ⟨item, hitem, heq⟩ := List.mem_map.mp (Items.mem_of_get hget)
      cases heq
      rw [hget] at h
      cases p with
      | nil =>
        cases h
        exact ⟨item, hitem, rfl⟩
      | cons j p => cases h

end Demo

end Infinito.Panel
