import Infinito.Servers.Independent
import Infinito.Panel.Selection

/-!
# Files of aliases that are gone

The backend names the files of an alias after what `_sanitize_host_filename` makes of it, and keeps
the keys in `secrets/keys/`. The panel finds the aliases of an inventory in its groups, looks for
keys in `secrets/ssh_keys/`, and takes the name of a file for an alias
(`collectOrphanCleanupItems`). `files_of_alias_iff` says when the two fit: for the cleanup of
orphans, and for the two effects that clean an alias up and rename it.
-/

set_option autoImplicit false

namespace Infinito.Panel

open Py Lib
open Lib.Json (Value)
open Orders (jsTrim jsTrim_jsTrim isJsSpace)
open Servers (isHostChar sanitizeHostFilename vaultAlias vaultAlias_of_ne publicName yml)

/-! ## What the backend writes -/

def hostVarsFile (name : Text) : Text := "host_vars/".toList ++ yml name

/-- `_keys_dir` -/
def keyFile (name : Text) : Text := "secrets/keys/".toList ++ name

/-- The files that the backend creates for an alias. -/
def backendFiles (name : Text) : List Text :=
  [hostVarsFile (sanitizeHostFilename name), keyFile (vaultAlias name),
    keyFile (publicName (vaultAlias name))]

/-! ## What the panel does -/

structure FileEntry where
  path : Text
  isDir : Bool

/-- The text behind a prefix, which may be in either case. -/
def afterPrefix (lead t : Text) : Option Text :=
  if (t.take lead.length).map Char.toLower = lead then some (t.drop lead.length) else none

/-- The text before a suffix, which may be in either case. -/
def beforeSuffix (suffix t : Text) : Option Text :=
  (afterPrefix suffix.reverse t.reverse).map List.reverse

/-- `/^host_vars\/([^/]+)\.ya?ml$/i` -/
def hostVarsMatch (path : Text) : Option Text :=
  (afterPrefix "host_vars/".toList path).bind fun rest =>
    if '/' ∈ rest then none
    else ((beforeSuffix ".yml".toList rest).or (beforeSuffix ".yaml".toList rest)).filter (· ≠ [])

/-- `/^secrets\/ssh_keys\/([^/]+?)(\.pub)?$/i`: the name, and whether `.pub` follows. -/
def keyMatch (path : Text) : Option (Text × Bool) :=
  (afterPrefix "secrets/ssh_keys/".toList path).bind fun rest =>
    if rest = [] ∨ '/' ∈ rest then none
    else match (beforeSuffix ".pub".toList rest).filter (· ≠ []) with
      | some name => some (name, true)
      | none => some (rest, false)

inductive OrphanKind where
  | hostVars
  | sshKeyPrivate
  | sshKeyPublic

structure OrphanCleanupItem where
  path : Text
  owner : Text
  kind : OrphanKind

/-- The body of the loop of `collectOrphanCleanupItems`. -/
def orphanItem (aliases : List Text) (entry : FileEntry) : Option OrphanCleanupItem :=
  if entry.isDir then none
  else match hostVarsMatch entry.path with
    | some name =>
        if jsTrim name ≠ [] ∧ jsTrim name ∉ aliases then
          some ⟨entry.path, jsTrim name, .hostVars⟩
        else none
    | none => match keyMatch entry.path with
      | some (name, isPublic) =>
          if jsTrim name ≠ [] ∧ jsTrim name ∉ aliases then
            some ⟨entry.path, jsTrim name, if isPublic then .sshKeyPublic else .sshKeyPrivate⟩
          else none
      | none => none

/-- `files.some((entry) => entry.path === path)` -/
def hasPath (files : List FileEntry) (path : Text) : Bool := files.any fun entry => entry.path = path

/-- `inventoryAliases` -/
def inventoryAliases (files : List FileEntry) (data : Value) : List Text :=
  if hasPath files "inventory.yml".toList then
    setOf (trimmed ((extractRolesByAlias data).map (·.1)))
  else []

/-- `collectOrphanCleanupItems` -/
def collectOrphanCleanupItems (localeCompare : Text → Text → Int) (files : List FileEntry)
    (data : Value) : List OrphanCleanupItem :=
  (files.filterMap (orphanItem (inventoryAliases files data))).insertionSort
    fun a b => localeCompare a.path b.path ≤ 0

/-- `sanitizeAliasFilename`: a character beyond the first plane is two of them in the browser. -/
def sanitizeAliasFilename (name : Text) : Text :=
  let cleaned := (jsTrim name).flatMap fun c =>
    if isHostChar c then [c] else if c.toNat < 0x10000 then ['_'] else ['_', '_']
  if cleaned = [] then "host" else cleaned

def sshKeyFile (name : Text) : Text := "secrets/ssh_keys/".toList ++ name

/-- The places where the panel looks for the files of an alias. -/
def panelFiles (name : Text) : List Text :=
  let safe := sanitizeAliasFilename name
  [hostVarsFile safe, sshKeyFile safe, sshKeyFile (safe ++ ".pub".toList)]

/-- The paths that the cleanup of an alias deletes. -/
def cleanedPaths (files : List FileEntry) (name : Text) : List Text :=
  if name = [] then [] else (panelFiles name).filter fun path => hasPath files path

/-- The paths that the rename of an alias moves, and where to. -/
def movedPaths (files : List FileEntry) (fromAlias toAlias : Text) : List (Text × Text) :=
  if fromAlias = [] ∨ toAlias = [] ∨ fromAlias = toAlias then []
  else ((panelFiles fromAlias).zip (panelFiles toAlias)).filter fun move =>
    hasPath files move.1 && !hasPath files move.2

/-! ## The aliases that the panel sees -/

/-- The name is, trimmed, a host of some group. -/
def Listed (data : Value) (name : Text) : Prop :=
  ∃ group ∈ childrenNode data, ∃ host ∈ hostNames group.2, jsTrim host = name

section Aliases
variable {name : Text}

theorem get_pushHosts_ne_nil {role : Text} {aliases : List Text} {out : Selection}
    (h : ∀ key, Items.get key out ≠ some []) (key : Text) :
    Items.get key (pushHosts role aliases out) ≠ some [] := by
  unfold pushHosts
  induction aliases generalizing out with
  | nil => exact h key
  | cons other aliases ih =>
    rw [List.foldl_cons]
    refine ih fun key => ?_
    split
    · exact h key
    · unfold pushRole
      rw [Items.get_set]
      split
      · exact fun heq => List.append_ne_nil_of_right_ne_nil _ (by simp) (Option.some.inj heq)
      · exact h key

theorem get_pushGroups_ne_nil {groups : Obj} {out : Selection}
    (h : ∀ key, Items.get key out ≠ some []) (key : Text) :
    Items.get key (groups.foldl (fun out group => pushHosts group.1 (hostNames group.2) out) out) ≠
      some [] := by
  induction groups generalizing out with
  | nil => exact h key
  | cons group groups ih =>
    rw [List.foldl_cons]
    exact ih (get_pushHosts_ne_nil h)

/-- The keys of the roles are the names of the hosts. -/
theorem mem_extracted {data : Value} :
    name ∈ (extractRolesByAlias data).map (·.1) ↔ name ≠ [] ∧ Listed data name := by
  have hne := @get_pushGroups_ne_nil (childrenNode data) [] (fun _ => nofun) name
  have hmem := fun item => @mem_pushGroups name item (childrenNode data) []
  unfold extractRolesByAlias Listed
  rw [← not_iff_not, ← Items.get_eq_none_iff, Items.get_mapValues, Option.map_eq_none_iff]
  cases hget : Items.get name ((childrenNode data).foldl
      (fun out group => pushHosts group.1 (hostNames group.2) out) []) with
  | none =>
    refine iff_of_true rfl ?_
    rintro ⟨hname, group, hgroup, hhost⟩
    have := (hmem group.1).mpr (Or.inr ⟨hname, group, hgroup, rfl, hhost⟩)
    rw [hget] at this
    exact List.not_mem_nil this
  | some roles =>
    refine iff_of_false nofun (not_not.mpr ?_)
    cases roles with
    | nil => exact absurd hget hne
    | cons role roles =>
      have := (hmem role).mp (by rw [hget]; exact List.mem_cons_self)
      rcases this with h | ⟨hname, group, hgroup, -, hhost⟩
      · exact absurd h List.not_mem_nil
      · exact ⟨hname, group, hgroup, hhost⟩

theorem mem_inventoryAliases {files : List FileEntry} {data : Value} :
    name ∈ inventoryAliases files data ↔
      hasPath files "inventory.yml".toList = true ∧ name ≠ [] ∧ Listed data name := by
  unfold inventoryAliases
  by_cases hready : hasPath files "inventory.yml".toList = true
  · rw [if_pos hready, mem_setOf, mem_trimmed]
    constructor
    · rintro ⟨hname, raw, hraw, rfl⟩
      obtain ⟨-, group, hgroup, host, hhost, rfl⟩ := mem_extracted.mp hraw
      exact ⟨hready, hname, group, hgroup, host, hhost, (jsTrim_jsTrim host).symm⟩
    · rintro ⟨-, hname, hlisted⟩
      obtain ⟨group, hgroup, host, hhost, rfl⟩ := hlisted
      exact ⟨hname, jsTrim host,
        mem_extracted.mpr ⟨hname, group, hgroup, host, hhost, rfl⟩, jsTrim_jsTrim host⟩
  · rw [if_neg hready]
    exact iff_of_false List.not_mem_nil fun h => hready h.1

end Aliases

/-! ## The names of the files -/

section Names
variable {name : Text} {c : Char}

theorem isHostChar_bounds (h : isHostChar c = true) :
    45 ≤ c.toNat ∧ c.toNat < 128 ∧ c ≠ '/' := by
  have hslash : c ≠ '/' := by
    rintro rfl
    revert h
    decide
  suffices hrange : 45 ≤ c.toNat ∧ c.toNat < 128 from ⟨hrange.1, hrange.2, hslash⟩
  simp only [isHostChar, Bool.or_eq_true, decide_eq_true_eq] at h
  rcases h with ((h | rfl) | rfl) | rfl
  · obtain ⟨hlow, hhigh⟩ := isAlphanum_bounds h
    exact ⟨le_trans (by decide) hlow, lt_of_le_of_lt hhigh (by decide)⟩
  · decide
  · decide
  · decide

theorem sanitized_chars (name : Text) :
    sanitizeHostFilename name ≠ [] ∧ ∀ c ∈ sanitizeHostFilename name, isHostChar c = true := by
  unfold sanitizeHostFilename
  dsimp only
  split
  · exact ⟨by decide, List.all_eq_true.mp (by decide)⟩
  · rename_i h
    refine ⟨h, ?_⟩
    intro c hc
    obtain ⟨d, -, rfl⟩ := List.mem_map.mp hc
    split
    · assumption
    · decide

theorem dropWhile_congr {p q : Char → Bool} {t : Text} (h : ∀ c ∈ t, p c = q c) :
    t.dropWhile p = t.dropWhile q := by
  induction t with
  | nil => rfl
  | cons c t ih =>
    rw [List.dropWhile_cons, List.dropWhile_cons, h c List.mem_cons_self,
      ih fun c hc => h c (List.mem_cons_of_mem _ hc)]

/-- The backend and the panel make the same name of an alias with common characters: of the first
    plane, and none that only one of them trims. -/
theorem sanitize_agree (h : ∀ c ∈ name, c.toNat < 0x10000 ∧ isJsSpace c = isSpace c) :
    sanitizeHostFilename name = sanitizeAliasFilename name := by
  have hdrop : name.dropWhile isJsSpace = name.dropWhile isSpace :=
    dropWhile_congr fun c hc => (h c hc).2
  have htrim : jsTrim name = strip name := by
    unfold jsTrim strip rstrip lstrip List.rdropWhile
    rw [hdrop]
    refine congrArg List.reverse (dropWhile_congr fun c hc => (h c ?_).2)
    exact (List.dropWhile_sublist _).subset (List.mem_reverse.mp hc)
  have hchars : ((strip name).map fun c => if isHostChar c then c else '_') =
      (strip name).flatMap fun c =>
        if isHostChar c then [c] else if c.toNat < 0x10000 then ['_'] else ['_', '_'] := by
    rw [List.map_eq_flatMap]
    refine List.flatMap_congr fun c hc => ?_
    have hplane := (h c ((Servers.strip_sublist name).subset hc)).1
    rw [if_pos hplane]
    split
    · rfl
    · rfl
  unfold sanitizeHostFilename sanitizeAliasFilename
  rw [htrim, hchars]

theorem jsTrim_sanitized (name : Text) :
    jsTrim (sanitizeHostFilename name) = sanitizeHostFilename name := by
  refine trim_of_forall fun c hc => ?_
  obtain ⟨hlow, hhigh, -⟩ := isHostChar_bounds ((sanitized_chars name).2 c hc)
  simp only [isJsSpace, Bool.or_eq_false_iff, Bool.and_eq_false_iff, decide_eq_false_iff_not,
    beq_eq_false_iff_ne]
  omega

theorem afterPrefix_append {lead t : Text} (h : lead.map Char.toLower = lead) :
    afterPrefix lead (lead ++ t) = some t := by
  unfold afterPrefix
  rw [List.take_left, h, if_pos rfl, List.drop_left]

theorem beforeSuffix_append {suffix t : Text} (h : suffix.map Char.toLower = suffix) :
    beforeSuffix suffix (t ++ suffix) = some t := by
  unfold beforeSuffix
  rw [List.reverse_append, afterPrefix_append (by rw [List.map_reverse, h])]
  simp

theorem hostVarsMatch_file (name : Text) :
    hostVarsMatch (hostVarsFile (sanitizeHostFilename name)) = some (sanitizeHostFilename name) := by
  have hslash : '/' ∉ yml (sanitizeHostFilename name) := by
    intro h
    rcases List.mem_append.mp h with h | h
    · exact (isHostChar_bounds ((sanitized_chars name).2 _ h)).2.2 rfl
    · revert h
      decide
  have hname : decide (sanitizeHostFilename name ≠ []) = true :=
    decide_eq_true (sanitized_chars name).1
  unfold hostVarsMatch hostVarsFile
  rw [afterPrefix_append (by decide), Option.bind_some, if_neg hslash]
  unfold yml
  rw [beforeSuffix_append (by decide), Option.some_or, Option.filter_some, if_pos hname]

/-- What is in `secrets/keys/` is never looked at. -/
theorem matches_keyFile (name : Text) :
    hostVarsMatch (keyFile name) = none ∧ keyMatch (keyFile name) = none := by
  constructor
  · unfold hostVarsMatch afterPrefix keyFile
    rw [if_neg]
    · rfl
    · intro h
      have := congrArg List.head? h
      simp at this
  · unfold keyMatch afterPrefix keyFile
    rw [if_neg]
    · rfl
    · intro h
      have := congrArg (fun t => t[8]?) h
      simp at this

end Names

/-! ## Orphans -/

/-- A workspace with an inventory. -/
structure Workspace where
  files : List FileEntry
  data : Value
  ready : hasPath files "inventory.yml".toList = true

/-- Nothing that is offered belongs to an alias of the inventory. -/
def OffersNoLiveFile (localeCompare : Text → Text → Int) (ws : Workspace) : Prop :=
  ∀ name, Occurs ws.data name →
    ∀ item ∈ collectOrphanCleanupItems localeCompare ws.files ws.data,
      item.path ∉ backendFiles name

section Offers
variable {localeCompare : Text → Text → Int} {ws : Workspace} {name : Text}

theorem mem_collected {item : OrphanCleanupItem} :
    item ∈ collectOrphanCleanupItems localeCompare ws.files ws.data ↔
      ∃ entry ∈ ws.files, orphanItem (inventoryAliases ws.files ws.data) entry = some item := by
  unfold collectOrphanCleanupItems
  rw [List.mem_insertionSort, List.mem_filterMap]

theorem path_of_orphanItem {aliases : List Text} {entry : FileEntry} {item : OrphanCleanupItem}
    (h : orphanItem aliases entry = some item) : item.path = entry.path := by
  unfold orphanItem at h
  split at h
  · cases h
  · split at h
    · split at h
      · cases h
        rfl
      · cases h
    · split at h
      · split at h
        · cases h
          rfl
        · cases h
      · cases h

/-- The host variables of an alias are offered when their name is not among the aliases. -/
theorem orphanItem_hostVars (aliases : List Text) {entry : FileEntry}
    (hpath : entry.path = hostVarsFile (sanitizeHostFilename name)) :
    orphanItem aliases entry =
      if entry.isDir = false ∧ sanitizeHostFilename name ∉ aliases then
        some ⟨entry.path, sanitizeHostFilename name, .hostVars⟩
      else none := by
  have hne := (sanitized_chars name).1
  unfold orphanItem
  rw [hpath, hostVarsMatch_file]
  dsimp only
  rw [jsTrim_sanitized]
  cases entry.isDir with
  | true => simp
  | false => simp [hne]

theorem orphanItem_key (aliases : List Text) {entry : FileEntry}
    (hpath : entry.path = keyFile name) : orphanItem aliases entry = none := by
  unfold orphanItem
  rw [hpath, (matches_keyFile name).1, (matches_keyFile name).2]
  exact ite_self _

/-- No file of an alias is offered exactly if its name is that of a host in some group. -/
theorem offersNoLiveFile_iff :
    OffersNoLiveFile localeCompare ws ↔
      ∀ name, Occurs ws.data name →
        (∃ entry ∈ ws.files, entry.isDir = false ∧
          entry.path = hostVarsFile (sanitizeHostFilename name)) →
        Listed ws.data (sanitizeHostFilename name) := by
  have hmem : ∀ name, sanitizeHostFilename name ∈ inventoryAliases ws.files ws.data ↔
      Listed ws.data (sanitizeHostFilename name) := by
    intro name
    rw [mem_inventoryAliases]
    constructor
    · intro h
      exact h.2.2
    · intro h
      exact ⟨ws.ready, (sanitized_chars name).1, h⟩
  constructor
  · intro h name hlive hfile
    obtain ⟨entry, hentry, hdir, hpath⟩ := hfile
    by_contra hunlisted
    have hoffered := orphanItem_hostVars (inventoryAliases ws.files ws.data) hpath
    rw [if_pos ⟨hdir, fun h => hunlisted ((hmem name).mp h)⟩] at hoffered
    refine h name hlive _ (mem_collected.mpr ⟨entry, hentry, hoffered⟩) ?_
    rw [hpath]
    exact List.mem_cons_self
  · intro h name hlive item hitem hpath
    obtain ⟨entry, hentry, hoffered⟩ := mem_collected.mp hitem
    rw [path_of_orphanItem hoffered] at hpath
    rcases List.mem_cons.mp hpath with hpath | hpath
    · rw [orphanItem_hostVars _ hpath] at hoffered
      by_cases hcond : entry.isDir = false ∧
          sanitizeHostFilename name ∉ inventoryAliases ws.files ws.data
      · exact hcond.2 ((hmem name).mpr (h name hlive ⟨entry, hentry, hcond.1, hpath⟩))
      · rw [if_neg hcond] at hoffered
        cases hoffered
    · rcases List.mem_cons.mp hpath with hpath | hpath
      · rw [orphanItem_key _ hpath] at hoffered
        cases hoffered
      · rw [orphanItem_key _ (List.mem_singleton.mp hpath)] at hoffered
        cases hoffered

end Offers

/-! ## Cleaning up and renaming -/

/-- Every file that the backend created for the alias is among the paths. -/
def CoversFiles (files : List FileEntry) (name : Text) (paths : List Text) : Prop :=
  ∀ path ∈ backendFiles name, hasPath files path = true → path ∈ paths

/-- The backend has no key for the alias. -/
def NoKey (files : List FileEntry) (name : Text) : Prop :=
  ∀ path ∈ [keyFile (vaultAlias name), keyFile (publicName (vaultAlias name))],
    hasPath files path = false

section Effects
variable {files : List FileEntry} {name toAlias : Text}

theorem hostVarsFile_injective : Function.Injective hostVarsFile := by
  intro a b h
  exact List.append_cancel_right (List.append_cancel_left h)

theorem keyFile_ne_hostVarsFile (key other : Text) : keyFile key ≠ hostVarsFile other := by
  unfold keyFile hostVarsFile
  intro h
  have := congrArg List.head? h
  simp at this

theorem keyFile_ne_sshKeyFile (key other : Text) : keyFile key ≠ sshKeyFile other := by
  unfold keyFile sshKeyFile
  intro h
  have := congrArg (fun t => t[8]?) h
  simp at this

theorem hostVarsFile_ne_sshKeyFile (name other : Text) : hostVarsFile name ≠ sshKeyFile other := by
  unfold hostVarsFile sshKeyFile
  intro h
  have := congrArg List.head? h
  simp at this

theorem mem_panelFiles {path : Text} :
    path ∈ panelFiles name ↔ path = hostVarsFile (sanitizeAliasFilename name) ∨
      path = sshKeyFile (sanitizeAliasFilename name) ∨
      path = sshKeyFile (sanitizeAliasFilename name ++ ".pub".toList) := by
  unfold panelFiles
  rw [List.mem_cons, List.mem_cons, List.mem_singleton]

/-- The panel looks for no key where the backend puts it. -/
theorem keyFile_not_mem (key : Text) : keyFile key ∉ panelFiles name := by
  intro h
  rcases mem_panelFiles.mp h with h | h | h
  · exact keyFile_ne_hostVarsFile _ _ h
  · exact keyFile_ne_sshKeyFile _ _ h
  · exact keyFile_ne_sshKeyFile _ _ h

theorem hostVarsFile_mem_iff {other : Text} :
    hostVarsFile other ∈ panelFiles name ↔ other = sanitizeAliasFilename name := by
  rw [mem_panelFiles]
  constructor
  · intro h
    rcases h with h | h | h
    · exact hostVarsFile_injective h
    · exact absurd h (hostVarsFile_ne_sshKeyFile _ _)
    · exact absurd h (hostVarsFile_ne_sshKeyFile _ _)
  · rintro rfl
    exact Or.inl rfl

theorem mem_backendFiles {path : Text} :
    path ∈ backendFiles name ↔ path = hostVarsFile (sanitizeHostFilename name) ∨
      path = keyFile (vaultAlias name) ∨ path = keyFile (publicName (vaultAlias name)) := by
  unfold backendFiles
  rw [List.mem_cons, List.mem_cons, List.mem_singleton]

/-- Paths that are none of the backend's keys cover the files of an alias exactly if it has no
    key, and its host variables are among them when there are any. -/
theorem coversFiles_iff {paths : List Text} (hkeys : ∀ key, keyFile key ∉ paths) :
    CoversFiles files name paths ↔
      NoKey files name ∧ (hasPath files (hostVarsFile (sanitizeHostFilename name)) = true →
        hostVarsFile (sanitizeHostFilename name) ∈ paths) := by
  constructor
  · intro h
    refine ⟨?_, h _ (mem_backendFiles.mpr (Or.inl rfl))⟩
    intro path hpath
    rw [List.mem_cons, List.mem_singleton] at hpath
    refine Bool.eq_false_iff.mpr fun hthere => ?_
    have hmem := h path (mem_backendFiles.mpr (Or.inr hpath)) hthere
    rcases hpath with rfl | rfl
    · exact hkeys _ hmem
    · exact hkeys _ hmem
  · intro h path hpath hthere
    obtain ⟨hnone, hvars⟩ := h
    rcases mem_backendFiles.mp hpath with rfl | hpath
    · exact hvars hthere
    · have := hnone path (by rw [List.mem_cons, List.mem_singleton]; exact hpath)
      rw [this] at hthere
      cases hthere

theorem mem_cleanedPaths (hname : name ≠ []) {path : Text} :
    path ∈ cleanedPaths files name ↔ path ∈ panelFiles name ∧ hasPath files path = true := by
  unfold cleanedPaths
  rw [if_neg hname, List.mem_filter]

theorem cleanup_iff (hname : name ≠ []) :
    CoversFiles files name (cleanedPaths files name) ↔
      NoKey files name ∧ (hasPath files (hostVarsFile (sanitizeHostFilename name)) = true →
        sanitizeHostFilename name = sanitizeAliasFilename name) := by
  rw [coversFiles_iff fun key hkey => keyFile_not_mem key ((mem_cleanedPaths hname).mp hkey).1]
  refine and_congr_right fun _ => forall_congr' fun hthere => ?_
  rw [mem_cleanedPaths hname, hostVarsFile_mem_iff]
  exact and_iff_left hthere

theorem mem_movedPaths (hname : name ≠ []) (hto : toAlias ≠ []) (hne : name ≠ toAlias)
    {path : Text} (hpath : path ∈ (movedPaths files name toAlias).map (·.1)) :
    path ∈ panelFiles name := by
  obtain ⟨move, hmove, rfl⟩ := List.mem_map.mp hpath
  unfold movedPaths at hmove
  rw [if_neg (by simp [hname, hto, hne])] at hmove
  exact (List.of_mem_zip (List.mem_filter.mp hmove).1).1

theorem hostVarsFile_moved_iff (hname : name ≠ []) (hto : toAlias ≠ []) (hne : name ≠ toAlias)
    {other : Text} (hthere : hasPath files (hostVarsFile other) = true) :
    hostVarsFile other ∈ (movedPaths files name toAlias).map (·.1) ↔
      other = sanitizeAliasFilename name ∧
        hasPath files (hostVarsFile (sanitizeAliasFilename toAlias)) = false := by
  constructor
  · intro h
    have hother := hostVarsFile_mem_iff.mp (mem_movedPaths hname hto hne h)
    refine ⟨hother, ?_⟩
    obtain ⟨move, hmove, hfirst⟩ := List.mem_map.mp h
    unfold movedPaths panelFiles at hmove
    rw [if_neg (by simp [hname, hto, hne])] at hmove
    obtain ⟨hzip, hfree⟩ := List.mem_filter.mp hmove
    rw [Bool.and_eq_true, Bool.not_eq_true'] at hfree
    simp only [List.zip_cons_cons, List.zip_nil_right, List.mem_cons, List.not_mem_nil,
      or_false] at hzip
    rcases hzip with rfl | rfl | rfl
    · exact hfree.2
    · exact absurd hfirst.symm (hostVarsFile_ne_sshKeyFile _ _)
    · exact absurd hfirst.symm (hostVarsFile_ne_sshKeyFile _ _)
  · rintro ⟨rfl, hfree⟩
    refine List.mem_map.mpr ⟨(hostVarsFile (sanitizeAliasFilename name),
      hostVarsFile (sanitizeAliasFilename toAlias)), ?_, rfl⟩
    unfold movedPaths panelFiles
    rw [if_neg (by simp [hname, hto, hne]), List.mem_filter, hthere, hfree]
    exact ⟨List.mem_cons_self, rfl⟩

theorem rename_iff (hname : name ≠ []) (hto : toAlias ≠ []) (hne : name ≠ toAlias) :
    CoversFiles files name ((movedPaths files name toAlias).map (·.1)) ↔
      NoKey files name ∧ (hasPath files (hostVarsFile (sanitizeHostFilename name)) = true →
        sanitizeHostFilename name = sanitizeAliasFilename name ∧
          hasPath files (hostVarsFile (sanitizeAliasFilename toAlias)) = false) := by
  rw [coversFiles_iff fun key hkey => keyFile_not_mem key (mem_movedPaths hname hto hne hkey)]
  refine and_congr_right fun _ => forall_congr' fun hthere => ?_
  exact hostVarsFile_moved_iff hname hto hne hthere

end Effects

/-- The panel and the backend agree on the files of the aliases exactly if every alias with a file
    of host variables is named by its file in some group, and, for one that is cleaned up or
    renamed, it has no key, both make the same name of it, and the new name is free. -/
theorem files_of_alias_iff (localeCompare : Text → Text → Int) (ws : Workspace)
    (name toAlias : Text) (hname : name ≠ []) (hto : toAlias ≠ []) (hne : name ≠ toAlias) :
    (OffersNoLiveFile localeCompare ws ↔
      ∀ live, Occurs ws.data live →
        (∃ entry ∈ ws.files, entry.isDir = false ∧
          entry.path = hostVarsFile (sanitizeHostFilename live)) →
        Listed ws.data (sanitizeHostFilename live)) ∧
    (CoversFiles ws.files name (cleanedPaths ws.files name) ↔
      NoKey ws.files name ∧ (hasPath ws.files (hostVarsFile (sanitizeHostFilename name)) = true →
        sanitizeHostFilename name = sanitizeAliasFilename name)) ∧
    (CoversFiles ws.files name ((movedPaths ws.files name toAlias).map (·.1)) ↔
      NoKey ws.files name ∧ (hasPath ws.files (hostVarsFile (sanitizeHostFilename name)) = true →
        sanitizeHostFilename name = sanitizeAliasFilename name ∧
          hasPath ws.files (hostVarsFile (sanitizeAliasFilename toAlias)) = false)) :=
  ⟨offersNoLiveFile_iff, cleanup_iff hname, rename_iff hname hto hne⟩

/-- The order of plain texts. -/
def compareTexts (a b : Text) : Int := if a = b then 0 else if a < b then -1 else 1

/-- The server `web` is in a group, and has host variables. -/
def grouped : Workspace where
  files := [⟨"host_vars/web.yml".toList, false⟩, ⟨"inventory.yml".toList, false⟩]
  data := (oneGroup []).data
  ready := by decide

theorem files_of_alias_web :
    OffersNoLiveFile compareTexts grouped ∧
    CoversFiles grouped.files "web".toList (cleanedPaths grouped.files "web".toList) ∧
    CoversFiles grouped.files "web".toList
      ((movedPaths grouped.files "web".toList "app".toList).map (·.1)) := by
  have hkeys : NoKey grouped.files "web".toList := by
    unfold NoKey
    decide +kernel
  obtain ⟨hoffers, hcleanup, hrename⟩ := files_of_alias_iff compareTexts grouped "web".toList
    "app".toList (by decide) (by decide) (by decide)
  refine ⟨hoffers.mpr ?_, hcleanup.mpr ⟨hkeys, fun _ => by decide +kernel⟩,
    hrename.mpr ⟨hkeys, fun _ => ⟨by decide +kernel, by decide +kernel⟩⟩⟩
  intro live hlive _
  have hweb : live = "web".toList := by
    rcases hlive with hall | ⟨group, entry, hentry, hholds⟩
    · cases hall
    · cases List.mem_singleton.mp (Items.mem_of_get hentry)
      obtain ⟨value, hvalue⟩ := hasOwn_iff.mp hholds
      exact congrArg Prod.fst (List.mem_singleton.mp (Items.mem_of_get hvalue))
  rw [hweb]
  exact ⟨_, List.mem_singleton_self _, "web".toList, List.mem_singleton_self _, by decide +kernel⟩

/-- The server `web` is in no group yet, and has host variables and a pair of keys. -/
def ungrouped : Workspace where
  files := [⟨"host_vars/web.yml".toList, false⟩, ⟨"inventory.yml".toList, false⟩,
    ⟨"secrets/keys/web".toList, false⟩, ⟨"secrets/keys/web.pub".toList, false⟩]
  data := .obj [("all".toList, .obj [("hosts".toList, .obj [("web".toList, .obj [])])])]
  ready := by decide

/-- The host variables of a server are offered for deletion, and its keys survive it. -/
theorem ungrouped_server_offered :
    ¬ OffersNoLiveFile compareTexts ungrouped ∧
    ¬ CoversFiles ungrouped.files "web".toList (cleanedPaths ungrouped.files "web".toList) ∧
    ¬ CoversFiles ungrouped.files "web".toList
      ((movedPaths ungrouped.files "web".toList "app".toList).map (·.1)) := by
  have hkey : ¬ NoKey ungrouped.files "web".toList := by
    unfold NoKey
    decide +kernel
  refine ⟨?_, ?_, ?_⟩
  · intro h
    have hlisted := offersNoLiveFile_iff.mp h "web".toList (Or.inl rfl)
      ⟨_, List.mem_cons_self, rfl, by decide +kernel⟩
    obtain ⟨group, hgroup, -⟩ := hlisted
    exact List.not_mem_nil hgroup
  · intro h
    exact hkey ((cleanup_iff (by decide)).mp h).1
  · intro h
    exact hkey ((rename_iff (by decide) (by decide) (by decide)).mp h).1

end Infinito.Panel
