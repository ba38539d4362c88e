import Infinito.History.Frames
import Infinito.History.Clean

/-!
# What a restore leaves of the workspace

`restore_history_workspace` empties the workspace, but for `.git` and `workspace.json`, and
copies the archive of the commit into it. What the history excludes is in no archive, so a
restore deletes it: the logs, and the password store next to the vaults whose passwords it
holds (`store_deleted`). `workspace.json` at the root is the one excluded file that the two
payload functions pass over.

`restored_iff` says when a restore that went through has left everything excluded as it was
and the rest as the commit has it. `Restorable` is that condition, on the workspace before
and on what git makes of the commit.
-/

set_option autoImplicit false

namespace Infinito.History

open Py Lib Workspace

/-! ## What is excluded -/

def logsName : FileName := fileName "logs" (by decide)

def secretsName : FileName := fileName "secrets" (Eq.refl true)

def kdbxName : FileName := fileName "credentials.kdbx" (by decide)

/-- The lines of `requiredLines`, as git reads them: a name without a slash is excluded
    wherever it is, and `logs/` where it is a directory. -/
def Unrecorded (includeKdbx : Bool) (p : Path) (node : Node) : Prop :=
  metaName ∈ p ∨ logsName ∈ (if node = .dir then p else p.dropLast) ∨
    (includeKdbx = false ∧ [secretsName, kdbxName] <+: p)

theorem not_unrecorded_ignore {includeKdbx : Bool} {node : Node} :
    ¬ Unrecorded includeKdbx [ignoreName] node := by
  have hmeta : metaName ∉ [ignoreName] := by decide
  have hlogs : logsName ∉ [ignoreName] := by decide
  rintro (h | h | ⟨-, h⟩)
  · exact hmeta h
  · split at h
    · exact hlogs h
    · cases h
  · exact absurd h.length_le (by decide)

/-! ## The claim, and when it holds -/

section

variable (D : Deployment) (c : Commit)

/-- What is excluded is as it was, and the other files are those of the commit. -/
structure Restored (before after : Disk) : Prop where
  excluded : ∀ p node, Unrecorded D.includeKdbx p node →
    (after.get (D.host.base ++ p) = some node ↔ before.get (D.host.base ++ p) = some node)
  recorded : ∀ p content, isPayload p = true → ¬ Unrecorded D.includeKdbx p (.file content) →
    (after.get (D.host.base ++ p) = some (.file content) ↔ c.tree.get p = some content)

/-- `.gitignore` as it is after the commit that follows a restore. -/
def restoredIgnore (files : Snapshot) : Option Node :=
  if D.enabled = true then settledNode ((extracted files).get [ignoreName])
  else (extracted files).get [ignoreName]

/-- The workspace has at the excluded paths just what the archive of the commit has there,
    which is as a rule nothing; and the archive is the commit, its `.gitignore` included. -/
structure Restorable (before : Disk) (files : Snapshot) : Prop where
  excluded : ∀ p node, isPayload p = true → Unrecorded D.includeKdbx p node →
    (before.get (D.host.base ++ p) = some node ↔ (extracted files).get p = some node)
  exported : ∀ p content, isPayload p = true → p ≠ [ignoreName] →
    ¬ Unrecorded D.includeKdbx p (.file content) →
    (files.get p = some content ↔ c.tree.get p = some content)
  ignoreFile : ∀ content,
    restoredIgnore D files = some (.file content) ↔ c.tree.get [ignoreName] = some content

end

/-! ## Emptying and copying -/

section Payload

variable {base : Path} {w w' : World Unit}

/-- Nothing is below a file, or below nothing. -/
theorem get_below {d : Disk} {p q : Path} (hdir : d.isDir p = false) (hpre : p <+: q) (hne : p ≠ q) :
    d.get q = none := by
  by_contra hget
  have hparent : d.isDir q.dropLast = true := Nodes.closed_iff.mp d.closed q hget
  rw [Disk.isDir_of_prefix hparent (prefix_dropLast hpre hne)] at hdir
  cases hdir

/-- One round of `_clear_workspace_payload`. -/
theorem clearOne_disk {p : Path} (hp : p ≠ [])
    (hok : (do
      if ← isDir p then exec (.rmtree p)
      else if ← pathExists p then exec (.unlink p) else pure () : Fs Unit Unit) w = .ok () w')
    (q : Path) : w'.disk.get q = if p <+: q then none else w.disk.get q := by
  obtain ⟨b, u, hb, hok⟩ := bind_eq_ok.mp hok
  cases hb
  split at hok
  · obtain ⟨hc, rfl⟩ := exec_eq_ok hok
    rw [World.did_get]
    show (w.disk.nodes.restrict _).get q = _
    rw [FinMap.get_restrict]
    by_cases hpre : p <+: q
    · simp [hpre]
    · simp only [hpre, not_false_eq_true, decide_true, if_true, if_false]
      rfl
  · rename_i hdir
    rw [Bool.not_eq_true] at hdir
    obtain ⟨b, u, hb, hok⟩ := bind_eq_ok.mp hok
    cases hb
    split at hok
    · -- a file goes alone, and there is nothing below it
      obtain ⟨hc, rfl⟩ := exec_eq_ok hok
      rw [World.did_get]
      show (w.disk.nodes.restrict _).get q = _
      rw [FinMap.get_restrict]
      by_cases hpq : q = p
      · rw [hpq]
        simp
      · rw [if_pos (by simpa using hpq)]
        by_cases hpre : p <+: q
        · rw [if_pos hpre]
          exact get_below hdir hpre (Ne.symm hpq)
        · rw [if_neg hpre]
          rfl
    · rename_i hnone
      cases hok
      by_cases hpre : p <+: q
      · rw [if_pos hpre]
        by_cases hpq : q = p
        · rw [hpq]
          simpa [hp] using hnone
        · exact get_below hdir hpre (Ne.symm hpq)
      · rw [if_neg hpre]

theorem clearAll_disk (base : Path) {children : List Path} (hchildren : ∀ p ∈ children, p ≠ [])
    (hok : children.forM (fun p => (do
      if ← isDir (base ++ p) then exec (.rmtree (base ++ p))
      else if ← pathExists (base ++ p) then exec (.unlink (base ++ p)) else pure () :
      Fs Unit Unit)) w = .ok () w') (q : Path) :
    w'.disk.get q = if ∃ p ∈ children, base ++ p <+: q then none else w.disk.get q := by
  induction children generalizing w with
  | nil =>
    cases hok
    simp
  | cons p children ih =>
    obtain ⟨⟨⟩, u, hfirst, hok⟩ := bind_eq_ok.mp hok
    have hne : base ++ p ≠ [] := by simp [hchildren p List.mem_cons_self]
    have hfirst := clearOne_disk hne hfirst q
    rw [ih (fun p hp => hchildren p (List.mem_cons_of_mem _ hp)) hok, hfirst]
    by_cases hlater : ∃ p ∈ children, base ++ p <+: q
    · obtain ⟨p', hp', hpre⟩ := hlater
      rw [if_pos ⟨p', hp', hpre⟩, if_pos ⟨p', List.mem_cons_of_mem _ hp', hpre⟩]
    · rw [if_neg hlater]
      by_cases hpre : base ++ p <+: q
      · rw [if_pos hpre, if_pos ⟨p, List.mem_cons_self, hpre⟩]
      · rw [if_neg hpre, if_neg]
        rintro ⟨p', hp', hpre'⟩
        rcases List.mem_cons.mp hp' with rfl | hp'
        · exact hpre hpre'
        · exact hlater ⟨p', hp', hpre'⟩

theorem get_payload {d : Nodes} {p : Path} :
    (payload base d).get p = if isPayload p = true then d.get (base ++ p) else none := by
  rw [payload, FinMap.get_restrict, FinMap.get_comap]

/-- The first name of a path decides whether it is payload. -/
theorem isPayload_cons {n : FileName} {p : Path} : isPayload (n :: p) = isPayload [n] := by
  simp [isPayload]

/-- **Emptying the workspace** removes its payload, and nothing else. -/
theorem clearWorkspacePayload_disk (hok : clearWorkspacePayload base w = .ok () w') (p : Path) :
    w'.disk.get (base ++ p) = if isPayload p = true then none else w.disk.get (base ++ p) := by
  have hmem (q : Path) : q ∈ sortedBy posix posix_injective
      ((payload base w.disk.nodes).keys.filter fun p => p.length = 1) ↔
      (isPayload q = true ∧ w.disk.get (base ++ q) ≠ none) ∧ q.length = 1 := by
    rw [mem_sortedBy, Finset.mem_filter, FinMap.mem_keys, get_payload]
    refine and_congr_left' ?_
    by_cases hq : isPayload q = true
    · rw [if_pos hq, Option.isSome_iff_ne_none]
      exact ⟨fun h => ⟨hq, h⟩, And.right⟩
    · rw [if_neg hq]
      exact ⟨nofun, fun h => absurd h.1 hq⟩
  have hchildren := clearAll_disk base (fun q hq => by
    have hlen := ((hmem q).mp hq).2
    rintro rfl
    cases hlen) hok (base ++ p)
  rw [hchildren]
  cases p with
  | nil =>
    rw [if_neg, if_neg (by decide)]
    rintro ⟨q, hq, hpre⟩
    have hlen := hpre.length_le
    rw [List.length_append, ((hmem q).mp hq).2, List.append_nil] at hlen
    omega
  | cons n p =>
    rw [isPayload_cons]
    by_cases hn : isPayload [n] = true
    · rw [if_pos hn]
      split
      · rfl
      · rename_i hnone
        by_contra hget
        -- there is something at the root, above what is there
        refine hnone ⟨[n], (hmem [n]).mpr ⟨⟨hn, ?_⟩, rfl⟩, ?_⟩
        · intro habove
          by_cases hnil : p = []
          · rw [hnil] at hget
            exact hget habove
          · have hne : base ++ [n] ≠ base ++ n :: p := by simpa using Ne.symm hnil
            have hdir : w.disk.isDir (base ++ [n]) = false := by
              rw [Bool.eq_false_iff]
              intro hdir
              rcases Nodes.isDir_iff.mp hdir with hroot | hdir
              · simp at hroot
              · rw [show w.disk.nodes.get (base ++ [n]) = none from habove] at hdir
                cases hdir
            exact hget (get_below hdir ((List.prefix_append_right_inj _).mpr ⟨p, rfl⟩) hne)
        · exact (List.prefix_append_right_inj _).mpr ⟨p, rfl⟩
    · rw [if_neg hn, if_neg]
      rintro ⟨q, hq, hpre⟩
      obtain ⟨⟨hpayload, -⟩, hlen⟩ := (hmem q).mp hq
      obtain ⟨m, rfl⟩ := List.length_eq_one_iff.mp hlen
      obtain ⟨rest, hrest⟩ := (List.prefix_append_right_inj _).mp hpre
      cases hrest
      exact hn hpayload

theorem copyAll_disk {source : Nodes} {keys : List Path}
    (hok : keys.forM (fun p => (match source.get p with
      | some .dir => exec (.mkdir (base ++ p))
      | some (.file content) => exec (.write (base ++ p) content)
      | none => pure () : Fs Unit Unit)) w = .ok () w') (p : Path) :
    w'.disk.get (base ++ p) =
      if p ∈ keys ∧ source.get p ≠ none then source.get p else w.disk.get (base ++ p) := by
  induction keys generalizing w with
  | nil =>
    cases hok
    simp
  | cons k keys ih =>
    obtain ⟨⟨⟩, u, hfirst, hok⟩ := bind_eq_ok.mp hok
    -- one key at a time: a copied node is overwritten by no later key but its own
    have hcopied : u.disk.get (base ++ p) =
        if p = k ∧ source.get p ≠ none then source.get p else w.disk.get (base ++ p) := by
      cases hget : source.get k with
      | none =>
        simp only [hget] at hfirst
        cases hfirst
        rw [if_neg]
        rintro ⟨rfl, hne⟩
        exact hne hget
      | some node =>
        have hput : u.disk.get (base ++ p) =
            if base ++ p = base ++ k then some node else w.disk.get (base ++ p) := by
          cases node with
          | dir =>
            simp only [hget] at hfirst
            obtain ⟨hc, rfl⟩ := exec_eq_ok hfirst
            rfl
          | file content =>
            simp only [hget] at hfirst
            obtain ⟨hc, rfl⟩ := exec_eq_ok hfirst
            rfl
        rw [hput]
        by_cases hpk : p = k
        · subst hpk
          simp [hget]
        · simp [hpk]
    rw [ih hok, hcopied]
    by_cases hpk : p = k
    · subst hpk
      by_cases hget : source.get p = none
      · simp [hget]
      · simp [hget]
    · simp [hpk]

/-- **Copying** puts the payload of the source there, and nothing else. -/
theorem copyWorkspacePayload_disk {source : Nodes}
    (hok : copyWorkspacePayload source base w = .ok () w') (p : Path) :
    w'.disk.get (base ++ p) = if isPayload p = true ∧ source.get p ≠ none then source.get p
      else w.disk.get (base ++ p) := by
  rw [copyAll_disk hok]
  refine if_congr ?_ rfl rfl
  rw [mem_sortedBy, FinMap.mem_keys, FinMap.get_restrict]
  by_cases hp : isPayload p = true
  · rw [if_pos hp, Option.isSome_iff_ne_none]
    exact ⟨fun h => ⟨hp, h.2⟩, fun h => ⟨h.2, h.2⟩⟩
  · rw [if_neg hp]
    exact ⟨nofun, fun h => absurd h.1 hp⟩

theorem readPayload_keeps : KeepsBoth (readPayload base) := by
  intro w
  obtain ⟨read, hread, heq⟩ := readPayload_eq base w
  have hkeeps (keys : List Path) : KeepsBoth (keys.forM read) := by
    induction keys with
    | nil => exact Moves.ret ()
    | cons p keys ih =>
      refine Moves.bind ?_ fun _ => ih
      rcases hread p with hp | hp
      · rw [hp]
        exact read_keeps
      · rw [hp]
        exact Moves.ret ()
  unfold after
  rw [heq]
  exact Moves.bind (hkeeps _) (fun _ => Moves.ret (payload base w.disk.nodes)) w

end Payload

/-! ## A restore that went through -/

section Restore

variable {D : Deployment} {c : Commit}

theorem exportHistorySnapshot_ok {g : Git} {path : Option Path} {files : Snapshot}
    {w w' : World Unit} (hok : exportHistorySnapshot g c path w = .ok files w') :
    g.archived c.tree path = some files ∧ w'.disk = w.disk := by
  obtain ⟨stderr, u, hgit, hok⟩ := bind_eq_ok.mp hok
  have hu : u.disk = w.disk := gitCommand_keeps.keepsDisk.of_ok hgit
  cases stderr with
  | some text => cases hok
  | none =>
    cases harchived : g.archived c.tree path with
    | none =>
      simp only [harchived] at hok
      cases hok
    | some files' =>
      simp only [harchived] at hok
      cases hok
      exact ⟨rfl, hu⟩

/-- **The restore** has put the archive where the payload was. -/
theorem restoreWorkspace_disk {h : Host} {g : Git} {docs : RoleDocs} {w w' : World Unit}
    (hok : restoreWorkspace h g docs c w = .ok () w') :
    ∃ files, g.archived c.tree none = some files ∧ ∀ p, w'.disk.get (h.base ++ p) =
      if isPayload p = true then (extracted files).get p else w.disk.get (h.base ++ p) := by
  obtain ⟨files, u₁, hexport, hok⟩ := bind_eq_ok.mp hok
  obtain ⟨hfiles, hu₁⟩ := exportHistorySnapshot_ok hexport
  obtain ⟨⟨⟩, u₂, hvalid, hok⟩ := bind_eq_ok.mp hok
  obtain ⟨backup, u₃, hread, hok⟩ := bind_eq_ok.mp hok
  have hu₂ : u₂.disk = u₁.disk := by
    unfold validateSnapshotFiles at hvalid
    cases hinvalid : invalidFile docs files with
    | none =>
      rw [hinvalid] at hvalid
      cases hvalid
      rfl
    | some e =>
      rw [hinvalid] at hvalid
      cases hvalid
  have hu₃ : u₃.disk = u₂.disk := readPayload_keeps.keepsDisk.of_ok hread
  refine ⟨files, hfiles, fun p => ?_⟩
  rcases tryCatch_eq_ok.mp hok with hok | ⟨exc, v, -, hok⟩
  · obtain ⟨⟨⟩, v, hclear, hcopy⟩ := bind_eq_ok.mp hok
    rw [copyWorkspacePayload_disk hcopy, clearWorkspacePayload_disk hclear, hu₃, hu₂, hu₁]
    by_cases hp : isPayload p = true
    · by_cases hget : (extracted files).get p = none
      · simp [hp, hget]
      · simp [hp, hget]
    · simp [hp]
  · -- what failed is raised again, once the backup is copied
    obtain ⟨⟨⟩, v₁, -, hok⟩ := bind_eq_ok.mp hok
    obtain ⟨⟨⟩, v₂, -, hok⟩ := bind_eq_ok.mp hok
    cases hok

theorem resolveHistorySha_ok {g : Git} {sha : Text} {w w' : World (Option Repo)}
    (hok : resolveHistorySha g sha w = .ok c w') :
    w'.disk = w.disk ∧ ∃ r, w.rest = some r ∧ g.revParse r.commits (strip sha) = some c := by
  obtain ⟨repo, u, hrepo, hok⟩ := bind_eq_ok.mp hok
  cases hrepo
  cases hr : w.rest with
  | none =>
    simp only [hr] at hok
    cases hok
  | some r =>
    simp only [hr] at hok
    split at hok
    · cases hok
    · obtain ⟨stderr, v, hgit, hok⟩ := bind_eq_ok.mp hok
      have hv : v.disk = w.disk := gitCommand_keeps.keepsDisk.of_ok hgit
      cases stderr with
      | some text => cases hok
      | none =>
        cases hc : g.revParse r.commits (strip sha) with
        | none =>
          simp only [hc] at hok
          cases hok
        | some c' =>
          simp only [hc] at hok
          cases hok
          exact ⟨hv, r, rfl, hc⟩

/-- What is at a path of the workspace after a restore. -/
def restoredNode (D : Deployment) (files : Snapshot) (before : Disk) (p : Path) : Option Node :=
  if p = [ignoreName] then restoredIgnore D files
  else if isPayload p = true then (extracted files).get p
  else before.get (D.host.base ++ p)

theorem restore_disk {sha : Text} {w w' : World (Option Repo)}
    (hok : (Call.restoreHistoryWorkspace sha).run D w = .ok () w') :
    ∃ r c files, w.rest = some r ∧ D.git.revParse r.commits (strip sha) = some c ∧
      D.git.archived c.tree none = some files ∧
      ∀ p, w'.disk.get (D.host.base ++ p) = restoredNode D files w.disk p := by
  obtain ⟨⟨message, metadata⟩, v, hchange, hcommit⟩ := bind_eq_ok.mp hok
  obtain ⟨⟨⟩, u₁, hensure, hchange⟩ := bind_eq_ok.mp hchange
  obtain ⟨u, hu, rfl⟩ := onDisk_eq_ok hensure
  obtain ⟨rfl, -⟩ := ensure_eq_ok hu
  obtain ⟨c, u₂, hresolve, hchange⟩ := bind_eq_ok.mp hchange
  obtain ⟨hdisk, r, hr, hc⟩ := resolveHistorySha_ok hresolve
  obtain ⟨⟨⟩, u₃, hrestore, hchange⟩ := bind_eq_ok.mp hchange
  obtain ⟨x, hx, rfl⟩ := onDisk_eq_ok hrestore
  obtain ⟨files, hfiles, hget⟩ := restoreWorkspace_disk hx
  cases hchange
  refine ⟨r, c, files, hr, hc, hfiles, fun p => ?_⟩
  have hpayload : isPayload [ignoreName] = true := by decide
  rw [historyCommit_disk hcommit, restoredNode, restoredIgnore]
  have hx' : x.disk.get (D.host.base ++ p) =
      if isPayload p = true then (extracted files).get p else w.disk.get (D.host.base ++ p) := by
    rw [hget p]
    show (if _ then _ else u₂.disk.get _) = _
    rw [hdisk]
  have hsettled : settled D.toService x.disk (D.host.base ++ p) = if p = [ignoreName] then
      settledNode (x.disk.get (D.host.base ++ p)) else x.disk.get (D.host.base ++ p) :=
    if_congr (List.append_right_inj _) rfl rfl
  show (if D.enabled = true then settled D.toService x.disk _ else x.disk.get _) = _
  rw [hsettled, hx']
  by_cases hp : p = [ignoreName]
  · rw [if_pos hp, if_pos hp, hp, if_pos hpayload]
  · rw [if_neg hp, if_neg hp, ite_self]

/-- **When a restore keeps to the claim**: one that went through has left what is excluded as
    it was, and made the rest the commit, just when the workspace and the archive allow it. -/
theorem restored_iff {sha : Text} {r : Repo} {files : Snapshot} {w w' : World (Option Repo)}
    (hrepo : w.rest = some r) (hc : D.git.revParse r.commits (strip sha) = some c)
    (hfiles : D.git.archived c.tree none = some files)
    (hok : (Call.restoreHistoryWorkspace sha).run D w = .ok () w') :
    Restored D c w.disk w'.disk ↔ Restorable D c w.disk files := by
  obtain ⟨r', c', files', hr', hc', hfiles', hget⟩ := restore_disk hok
  rw [hrepo] at hr'
  cases hr'
  rw [hc] at hc'
  cases hc'
  rw [hfiles] at hfiles'
  cases hfiles'
  have hignore : isPayload [ignoreName] = true := by decide
  have hpayload {p : Path} (hp : isPayload p = true) (hne : p ≠ [ignoreName]) :
      w'.disk.get (D.host.base ++ p) = (extracted files).get p := by
    rw [hget, restoredNode, if_neg hne, if_pos hp]
  have hexcluded {p : Path} {node : Node} (hex : Unrecorded D.includeKdbx p node) :
      p ≠ [ignoreName] := by
    rintro rfl
    exact not_unrecorded_ignore hex
  constructor
  · intro h
    refine ⟨fun p node hp hex => ?_, fun p content hp hne hex => ?_, fun content => ?_⟩
    · rw [← hpayload hp (hexcluded hex)]
      exact (h.excluded p node hex).symm
    · rw [← extracted_file, ← hpayload hp hne]
      exact h.recorded p content hp hex
    · have := h.recorded [ignoreName] content hignore not_unrecorded_ignore
      rwa [hget, restoredNode, if_pos rfl] at this
  · intro h
    refine ⟨fun p node hex => ?_, fun p content hp hex => ?_⟩
    · by_cases hp : isPayload p = true
      · rw [hpayload hp (hexcluded hex)]
        exact (h.excluded p node hp hex).symm
      · rw [hget, restoredNode, if_neg (hexcluded hex), if_neg hp]
    · by_cases hne : p = [ignoreName]
      · subst hne
        rw [hget, restoredNode, if_pos rfl]
        exact h.ignoreFile content
      · rw [hpayload hp hne, extracted_file]
        exact h.exported p content hp hne hex

end Restore

/-! ## The password store -/

section Demo

def vaultTree : Snapshot := .ofList [([ignoreName], []), ([demoName "b.yml"], encode "b: 1\n")]

/-- A workspace with a recorded file and a password store. -/
def vaultWorld : World (Option Repo) where
  disk := ⟨.ofList [([demoName "ws"], .dir), (demoHost.metaPath, .file []),
    (demoHost.base ++ [ignoreName], .file []),
    (demoHost.base ++ [demoName "b.yml"], .file (encode "b: 1\n")),
    (demoHost.base ++ [secretsName], .dir),
    (demoHost.base ++ [secretsName, kdbxName], .file (encode "kdbx"))], by decide⟩
  rest := some ⟨excludeText false demoGit.initExclude, vaultTree, [⟨"c".toList, [], vaultTree⟩]⟩
  log := []
  faults := []

def restoreFirst : Call := .restoreHistoryWorkspace "c"

/-- The restore goes through, and what is at a path then is as told. -/
def leaves (p : Path) (node : Option Node) : Bool :=
  match restoreFirst.run demoDeployment vaultWorld with
  | .ok _ w => w.disk.get (demoHost.base ++ p) = node
  | .error _ _ => false

/-- **The password store is deleted** by a restore. -/
theorem store_deleted : ∃ w', restoreFirst.run demoDeployment vaultWorld = .ok () w' ∧
    ¬ Restored demoDeployment ⟨"c".toList, [], vaultTree⟩ vaultWorld.disk w'.disk := by
  have hgone : leaves [secretsName, kdbxName] none = true := by decide +kernel
  unfold leaves at hgone
  cases hrun : restoreFirst.run demoDeployment vaultWorld with
  | error e w' =>
    rw [hrun] at hgone
    cases hgone
  | ok a w' =>
    rw [hrun] at hgone
    refine ⟨w', rfl, fun h => ?_⟩
    have hgone : w'.disk.get (demoHost.base ++ [secretsName, kdbxName]) = none :=
      of_decide_eq_true hgone
    have hex : Unrecorded false [secretsName, kdbxName] (.file (encode "kdbx")) :=
      Or.inr (Or.inr ⟨rfl, List.prefix_refl _⟩)
    have hthere : vaultWorld.disk.get (demoHost.base ++ [secretsName, kdbxName]) =
      some (.file (encode "kdbx")) := by decide +kernel
    have hkept := (h.excluded _ _ hex).mpr hthere
    cases hgone.symm.trans hkept

/-- The same workspace without the store. -/
def plainWorld : World (Option Repo) :=
  { vaultWorld with disk := ⟨.ofList [([demoName "ws"], .dir), (demoHost.metaPath, .file []),
      (demoHost.base ++ [ignoreName], .file []),
      (demoHost.base ++ [demoName "b.yml"], .file (encode "b: 1\n"))], by decide⟩ }

def plainFiles : Snapshot := vaultTree.restrict fun _ => true

theorem archived_plain : demoGit.archived vaultTree none = some plainFiles := by
  simp [demoGit, plainFiles]

theorem restorable_plain : Restorable demoDeployment ⟨"c".toList, [], vaultTree⟩ plainWorld.disk
    plainFiles := by
  have hkeys : ∀ q ∈ (payload demoHost.base plainWorld.disk.nodes).keys ∪
      (extracted plainFiles).keys, isPayload q = true →
        plainWorld.disk.nodes.get (demoHost.base ++ q) = (extracted plainFiles).get q := by
    decide +kernel
  have hsame (p : Path) (hp : isPayload p = true) :
      plainWorld.disk.nodes.get (demoHost.base ++ p) = (extracted plainFiles).get p := by
    by_cases hmem : p ∈ (payload demoHost.base plainWorld.disk.nodes).keys ∪
        (extracted plainFiles).keys
    · exact hkeys p hmem hp
    · rw [Finset.mem_union, not_or, FinMap.mem_keys, FinMap.mem_keys, get_payload, if_pos hp,
        Option.not_isSome_iff_eq_none, Option.not_isSome_iff_eq_none] at hmem
      rw [hmem.1, hmem.2]
  have hignore : restoredIgnore demoDeployment plainFiles = some (.file []) := by decide +kernel
  refine ⟨fun p node hp _ => ?_, fun p content _ _ _ => ?_, fun content => ?_⟩
  · show plainWorld.disk.nodes.get (demoHost.base ++ p) = some node ↔ _
    rw [hsame p hp]
  · rw [plainFiles, FinMap.get_restrict, if_pos rfl]
  · rw [hignore]
    show some (Node.file []) = some (Node.file content) ↔ some [] = some content
    simp

theorem restored_iff_plain : ∃ w', restoreFirst.run demoDeployment plainWorld = .ok () w' ∧
    Restored demoDeployment ⟨"c".toList, [], vaultTree⟩ plainWorld.disk w'.disk := by
  have hends : (match restoreFirst.run demoDeployment plainWorld with
      | .ok _ _ => true
      | .error _ _ => false) = true := by decide +kernel
  cases hrun : restoreFirst.run demoDeployment plainWorld with
  | error e w' =>
    rw [hrun] at hends
    cases hends
  | ok a w' =>
    refine ⟨w', rfl, ?_⟩
    exact (restored_iff rfl rfl archived_plain hrun).mpr restorable_plain

end Demo

end Infinito.History
