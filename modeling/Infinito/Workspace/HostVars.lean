import Infinito.Workspace.Merging
import Infinito.Workspace.Roundtrip

/-!
# Host variables are written over what applications are configured

`write_file` reads the host variables file that is there before it replaces it, and fills the
`applications` of the new text with what only the old one has.

It does so if both are mappings. A text that says nothing at all is none: saving an empty
document takes the applications with it, where saving `{}` keeps them. `host_vars_kept_iff` is
exact: the applications are kept if the new text is a mapping, or if there is no value in them.

Reading and writing YAML is the library's (`Yaml`). A document stands for the tree it spells
out; one whose aliases put a single mapping in two places is outside of this model.
-/

set_option autoImplicit false

namespace Infinito.Workspace

open Py Lib Lib.Tree

/-- A value as it was loaded: what it is apart from the `!vault` texts in it, and these. -/
structure Leaf (β : Type) where
  skeleton : β
  vaults : List Text
  deriving DecidableEq

/-- `scalar_value.replace("\r\n", "\n")` -/
def unixNewlines : Text → Text
  | '\r' :: '\n' :: t => '\n' :: unixNewlines t
  | c :: t => c :: unixNewlines t
  | [] => []

/-- What `_represent_tagged_yaml_value` writes for a `!vault` text. -/
def vaultScalar (t : Text) : Text :=
  joinLines (((unixNewlines t).splitOn '\n').map strip |>.filter fun line => line ≠ [])

/-- The value as it comes back from a dump. -/
def Leaf.represented {β : Type} (a : Leaf β) : Leaf β := { a with vaults := a.vaults.map vaultScalar }

/-- The YAML library, as the service uses it. -/
structure Yaml (κ β : Type) where
  /-- `load_workspace_yaml_document`, or nothing if it raises -/
  load : Text → Option (Tree κ (Leaf β))
  /-- `_dump_yaml_mapping` -/
  dump : Items κ (Leaf β) → Text
  /-- what an empty document is loaded to, without vault texts -/
  null : β
  /-- the key `applications` -/
  applications : κ

variable {κ β : Type} [DecidableEq κ] [DecidableEq β]

namespace Yaml

variable (yaml : Yaml κ β)

def Gives (a : Leaf β) : Prop := ∃ text t p, yaml.load text = some t ∧ t.probe p = some (some a)

/-- What the library promises. -/
structure Faithful : Prop where
  /-- a mapping has each key once -/
  distinct : ∀ text t, yaml.load text = some t → t.Distinct
  /-- what was loaded is loaded again from its dump -/
  load_dump : ∀ m : Items κ (Leaf β), (node m).Distinct →
    (∀ p a, (node m).probe p = some (some a) → yaml.Gives a) →
    yaml.load (yaml.dump m) = some ((node m).map Leaf.represented)
  /-- line breaks are all one -/
  load_newlines : ∀ text, yaml.load (universalNewlines text) = yaml.load text

/-- `incoming_applications`, as far as it is a mapping. -/
def incomingApplications (incoming : Items κ (Leaf β)) : Option (Items κ (Leaf β)) :=
  match Items.get yaml.applications incoming with
  | none => some []
  | some (.leaf a) => if a = ⟨yaml.null, []⟩ then some [] else none
  | some (.node m) => some m

/-- `_preserve_host_vars_applications`, with the two texts at hand. -/
def preserved (existing content : Text) : Option Text :=
  match yaml.load content, yaml.load existing with
  | some (.node incoming), some (.node existing) =>
      match Items.get yaml.applications existing with
      | some (.node (item :: items)) =>
          match yaml.incomingApplications incoming with
          | none => none
          | some incomingApplications =>
              let (merged, mergedPaths) := mergeMissing incomingApplications (item :: items)
              if mergedPaths ≤ 0 then none
              else some (yaml.dump (Items.set yaml.applications (.node merged) incoming))
      | _ => none
  | _, _ => none

def docs (docs : Docs) : Docs := { docs with preserveApplications := yaml.preserved }

/-- What a file says. -/
def documentAt (d : Disk) (p : Path) : Option (Tree κ (Leaf β)) :=
  (d.fileAt p).bind fun b => yaml.load (readText b)

/-- An empty document, or a mapping whose applications are absent, null or a mapping. -/
def Fits : Tree κ (Leaf β) → Prop
  | .leaf a => a = ⟨yaml.null, []⟩
  | .node m => (yaml.incomingApplications m).isSome = true

/-- What a text gives: an empty document nothing, and nothing is given by `applications: null`. -/
def given : Tree κ (Leaf β) → Items κ (Leaf β)
  | .leaf _ => []
  | .node m => match Items.get yaml.applications m with
    | some (.leaf _) => Items.erase yaml.applications m
    | _ => m

end Yaml

/-- There is the value, or it as it comes back from a dump. -/
def Stores (t : Tree κ (Leaf β)) (p : List κ) (v : Option (Leaf β)) : Prop :=
  t.probe p = some v ∨ t.probe p = some (v.map Leaf.represented)

/-- There is something at the path itself, or a value above it. -/
def Decides (t : Tree κ (Leaf β)) (p : List κ) : Prop :=
  (∃ v, t.probe p = some v) ∨ ∃ q r a, p = q ++ r ∧ r ≠ [] ∧ t.probe q = some (some a)

/-- The values of the applications stay unless the new content decides otherwise, and what it
    gives is stored. -/
structure Yaml.Kept (yaml : Yaml κ β) (old new stored : Tree κ (Leaf β)) : Prop where
  applications : ∀ p a, old.probe (yaml.applications :: p) = some (some a) →
    Stores stored (yaml.applications :: p) (some a) ∨ Decides new (yaml.applications :: p)
  given : ∀ p v, p ≠ [] → new.probe p = some v → Stores stored p v

/-! ## On documents -/

section Documents

variable {yaml : Yaml κ β} {dst src incoming old apps : Items κ (Leaf β)} {p : List κ} {a : Leaf β}
  {t new stored : Tree κ (Leaf β)}

omit [DecidableEq β] in
theorem not_decides_nil {k : κ} : ¬ Decides (node ([] : Items κ (Leaf β))) (k :: p) := by
  rintro (⟨v, hv⟩ | ⟨q, r, b, hq, -, hb⟩)
  · cases hv
  · cases q with
    | nil => cases hb
    | cons j q => cases hb

omit [DecidableEq β] in
theorem decides_cons {k : κ} {m : Items κ (Leaf β)} (hget : Items.get k m = some t) :
    Decides (node m) (k :: p) ↔ Decides t p := by
  have hprobe (q : List κ) : (node m).probe (k :: q) = t.probe q := by
    rw [probe_node_cons, hget]
    rfl
  constructor
  · rintro (⟨v, hv⟩ | ⟨q, r, b, hq, hr, hb⟩)
    · exact Or.inl ⟨v, by rw [← hprobe]; exact hv⟩
    · cases q with
      | nil => cases hb
      | cons j q =>
        obtain ⟨rfl, hpq⟩ := List.cons.inj hq
        exact Or.inr ⟨q, r, b, hpq, hr, by rw [← hprobe]; exact hb⟩
  · rintro (⟨v, hv⟩ | ⟨q, r, b, hq, hr, hb⟩)
    · exact Or.inl ⟨v, by rw [hprobe]; exact hv⟩
    · exact Or.inr ⟨k :: q, r, b, by rw [hq]; rfl, hr, by rw [hprobe]; exact hb⟩

omit [DecidableEq β] in
/-- A value of what lies below is filled in, unless what is on top decides about its place. -/
theorem filled_or_decides (hdst : (node dst).Distinct) (hsrc : (node src).Distinct)
    (ha : (node src).probe p = some (some a)) :
    (node (mergeMissing dst src).1).probe p = some (some a) ∨ Decides (node dst) p := by
  induction p generalizing dst src with
  | nil => cases ha
  | cons k p ih =>
    cases hgd : Items.get k dst with
    | none =>
      rw [probe_node_cons] at ha ⊢
      rw [get_mergeMissing hsrc.nodup, hgd]
      exact Or.inl ha
    | some t =>
      rw [decides_cons hgd]
      cases t with
      | leaf b =>
        refine Or.inr ?_
        cases p with
        | nil => exact Or.inl ⟨some b, rfl⟩
        | cons j p => exact Or.inr ⟨[], j :: p, b, rfl, nofun, rfl⟩
      | node d =>
        rw [probe_node_cons] at ha ⊢
        cases hgs : Items.get k src with
        | none =>
          rw [hgs] at ha
          cases ha
        | some s =>
          rw [hgs] at ha
          rw [get_mergeMissing hsrc.nodup, hgd, hgs]
          cases s with
          | leaf b =>
            cases p with
            | nil => exact Or.inr (Or.inl ⟨none, rfl⟩)
            | cons j p => cases ha
          | node s => exact ih (hdst.get hgd) (hsrc.get hgs) ha

omit [DecidableEq β] in
/-- A merge makes no values up. -/
theorem probe_mergeMissing_cases (hdst : (node dst).Distinct) (hsrc : (node src).Distinct)
    (ha : (node (mergeMissing dst src).1).probe p = some (some a)) :
    (node dst).probe p = some (some a) ∨ (node src).probe p = some (some a) := by
  induction p generalizing dst src with
  | nil => cases ha
  | cons k p ih =>
    rw [probe_node_cons, get_mergeMissing hsrc.nodup] at ha
    rw [probe_node_cons, probe_node_cons]
    cases hgd : Items.get k dst with
    | none =>
      rw [hgd] at ha
      exact Or.inr ha
    | some t =>
      rw [hgd] at ha
      cases hgs : Items.get k src with
      | none =>
        rw [hgs] at ha
        cases t <;> exact Or.inl ha
      | some s =>
        rw [hgs] at ha
        cases t with
        | leaf b => cases s <;> exact Or.inl ha
        | node d =>
          cases s with
          | leaf b => exact Or.inl ha
          | node s => exact ih (hdst.get hgd) (hsrc.get hgs) ha

omit [DecidableEq β] in
theorem given_node (m : Items κ (Leaf β)) :
    yaml.given (node m) = match Items.get yaml.applications m with
      | some (.leaf _) => Items.erase yaml.applications m
      | _ => m := rfl

omit [DecidableEq β] in
theorem get_given_of_ne {k : κ} (hk : k ≠ yaml.applications) (m : Items κ (Leaf β)) :
    Items.get k (yaml.given (node m)) = Items.get k m := by
  rw [given_node]
  split
  · rw [Items.get_erase, if_neg hk]
  · rfl

/-- The applications that a text gives are what is filled up. -/
theorem get_given_applications (hdst : yaml.incomingApplications incoming = some dst) :
    Items.get yaml.applications (yaml.given (node incoming)) = some (node dst) ∨
      dst = [] ∧ Items.get yaml.applications (yaml.given (node incoming)) = none := by
  unfold Yaml.incomingApplications at hdst
  rw [given_node]
  cases hget : Items.get yaml.applications incoming with
  | none =>
    rw [hget] at hdst
    cases hdst
    exact Or.inr ⟨rfl, hget⟩
  | some t =>
    rw [hget] at hdst
    cases t with
    | leaf b =>
      dsimp only at hdst ⊢
      split at hdst
      · cases hdst
        exact Or.inr ⟨rfl, by rw [Items.get_erase, if_pos rfl]⟩
      · cases hdst
    | node m =>
      cases hdst
      exact Or.inl hget

/-- The new text, its applications filled up. -/
def Yaml.filled (yaml : Yaml κ β) (incoming dst apps : Items κ (Leaf β)) : Items κ (Leaf β) :=
  Items.set yaml.applications (.node (mergeMissing dst apps).1) incoming

/-- **Where the applications are filled up, nothing is lost.** -/
theorem kept_filled (hdst : yaml.incomingApplications incoming = some dst)
    (hdistinct : (node dst).Distinct) (happs : (node apps).Distinct)
    (hold : Items.get yaml.applications old = some (node apps))
    (hstored : ∀ p v, (node (yaml.filled incoming dst apps)).probe p = some v → Stores stored p v) :
    yaml.Kept (node old) (node (yaml.given (node incoming))) stored := by
  constructor
  · intro p a ha
    rw [probe_node_cons, hold] at ha
    rcases filled_or_decides hdistinct happs ha with hfilled | hdecides
    · exact Or.inl (hstored _ _ (by rw [Yaml.filled, probe_set, if_pos rfl, hfilled]))
    · rcases get_given_applications hdst with hget | ⟨rfl, -⟩
      · exact Or.inr ((decides_cons hget).mpr hdecides)
      · cases p with
        | nil => cases ha
        | cons k p => exact absurd hdecides not_decides_nil
  · intro p v hp hv
    refine hstored p v ?_
    cases p with
    | nil => exact absurd rfl hp
    | cons k p =>
      rw [Yaml.filled, probe_set]
      rw [probe_node_cons] at hv
      by_cases hk : k = yaml.applications
      · rw [if_pos hk]
        rw [hk] at hv
        rcases get_given_applications hdst with hget | ⟨-, hget⟩
        · rw [hget] at hv
          exact probe_mergeMissing hdistinct happs hv
        · rw [hget] at hv
          cases hv
      · rw [if_neg hk, probe_node_cons, ← get_given_of_ne hk]
        exact hv

omit [DecidableEq β] in
/-- Where nothing is stored, the applications are kept only if there is no value in them. -/
theorem kept_empty_iff (hold : Items.get yaml.applications old = some (node apps)) (b : Leaf β) :
    yaml.Kept (node old) (node []) (leaf b) ↔ ∀ p a, (node apps).probe p ≠ some (some a) := by
  have hprobe (p : List κ) : (node old).probe (yaml.applications :: p) = (node apps).probe p := by
    rw [probe_node_cons, hold]
    rfl
  constructor
  · intro hkept p a ha
    rcases hkept.applications p a (by rw [hprobe]; exact ha) with (hstored | hstored) | hdecides
    · cases hstored
    · cases hstored
    · exact not_decides_nil hdecides
  · intro hnone
    constructor
    · intro p a ha
      rw [hprobe] at ha
      exact absurd ha (hnone p a)
    · intro p v hp hv
      cases p with
      | nil => exact absurd rfl hp
      | cons k p => cases hv

theorem preserved_eq {existing content : Text} {item : κ × Tree κ (Leaf β)}
    {items : Items κ (Leaf β)} (hcontent : yaml.load content = some (node incoming))
    (hexisting : yaml.load existing = some (node old))
    (hold : Items.get yaml.applications old = some (node (item :: items)))
    (hdst : yaml.incomingApplications incoming = some dst) :
    yaml.preserved existing content =
      if (mergeMissing dst (item :: items)).2 ≤ 0 then none
      else some (yaml.dump (yaml.filled incoming dst (item :: items))) := by
  unfold Yaml.preserved
  rw [hcontent, hexisting]
  dsimp only
  rw [hold]
  dsimp only
  rw [hdst]
  rfl

theorem preserved_of_no_mapping {existing content : Text} {b : Leaf β}
    (hcontent : yaml.load content = some (leaf b)) : yaml.preserved existing content = none := by
  unfold Yaml.preserved
  rw [hcontent]

theorem preserved_of_no_applications {existing content : Text}
    (hexisting : yaml.load existing = some (node old))
    (hold : Items.get yaml.applications old = some (node [])) :
    yaml.preserved existing content = none := by
  unfold Yaml.preserved
  rw [hexisting]
  split
  · rename_i heq
    cases heq
    rw [hold]
  · rfl

/-- Nothing is filled in where the new text has every key that the applications have. -/
theorem preserved_of_covered {existing content : Text}
    (hcovered : ∀ old new apps, yaml.load existing = some (node old) →
      yaml.load content = some (node new) → Items.get yaml.applications old = some (node apps) →
        ∃ dst, Items.get yaml.applications new = some (node dst) ∧ (node apps).Distinct ∧
          ∀ p, (node apps).probe p ≠ none → (node dst).probe p ≠ none) :
    yaml.preserved existing content = none := by
  unfold Yaml.preserved
  split
  · rename_i new old hnew hold
    split
    · rename_i item items happs
      obtain ⟨dst, hdst, hdistinct, hcovers⟩ := hcovered old new _ hold hnew happs
      have hincoming : yaml.incomingApplications new = some dst := by
        unfold Yaml.incomingApplications
        rw [hdst]
      have hzero := mergeMissingBelow_of_covered hdistinct hcovers
      rw [mergeMissingBelow_node] at hzero
      rw [hincoming]
      exact if_pos (Nat.le_zero.mpr (Prod.mk.inj hzero).2)
    · rfl
  · rfl

omit [DecidableEq β] in
/-- What is given is in the text. -/
theorem probe_of_given {k : κ} {v : Option (Leaf β)}
    (hv : (node (yaml.given (node incoming))).probe (k :: p) = some v) :
    (node incoming).probe (k :: p) = some v := by
  rw [probe_node_cons] at hv ⊢
  by_cases hk : k = yaml.applications
  · rw [hk] at hv ⊢
    rw [given_node] at hv
    split at hv
    · rw [Items.get_erase, if_pos rfl] at hv
      cases hv
    · exact hv
  · rw [get_given_of_ne hk] at hv
    exact hv

omit [DecidableEq β] in
/-- Leaving the text alone keeps applications that say nothing. -/
theorem kept_of_no_values (hold : Items.get yaml.applications old = some (node [])) :
    yaml.Kept (node old) (node (yaml.given (node incoming))) (node incoming) := by
  constructor
  · intro p a ha
    rw [probe_node_cons, hold] at ha
    cases p <;> cases ha
  · intro p v hp hv
    cases p with
    | nil => exact absurd rfl hp
    | cons k p => exact Or.inl (probe_of_given hv)

/-- What was counted as nothing is the text as it is. -/
theorem filled_of_zero {item : κ × Tree κ (Leaf β)} {items : Items κ (Leaf β)}
    (hdst : yaml.incomingApplications incoming = some dst)
    (hzero : (mergeMissing dst (item :: items)).2 ≤ 0) :
    yaml.filled incoming dst (item :: items) = incoming := by
  have hsame := mergeMissing_of_zero dst (item :: items) (Nat.le_zero.mp hzero)
  unfold Yaml.filled
  rw [hsame]
  refine Items.set_get ?_
  unfold Yaml.incomingApplications at hdst
  -- a missing or null section has nothing in it, so that something would have been counted
  have hne : dst ≠ [] := by
    rintro rfl
    rw [mergeMissing_cons] at hzero
    dsimp only [Items.get_nil] at hzero
    omega
  cases hget : Items.get yaml.applications incoming with
  | none =>
    rw [hget] at hdst
    cases hdst
    exact absurd rfl hne
  | some t =>
    rw [hget] at hdst
    cases t with
    | leaf b =>
      dsimp only at hdst
      split at hdst
      · cases hdst
        exact absurd rfl hne
      · cases hdst
    | node m =>
      cases hdst
      rfl

theorem distinct_applications (hdistinct : (node incoming).Distinct)
    (hdst : yaml.incomingApplications incoming = some dst) : (node dst).Distinct := by
  unfold Yaml.incomingApplications at hdst
  have hnil : (node ([] : Items κ (Leaf β))).Distinct := .node List.nodup_nil nofun
  split at hdst
  · cases hdst
    exact hnil
  · split at hdst
    · cases hdst
      exact hnil
    · cases hdst
  · rename_i hget
    cases hdst
    exact hdistinct.get hget

/-- The values of the filled text are values of the two texts. -/
theorem gives_filled {existing content : Text} (hcontent : yaml.load content = some (node incoming))
    (hexisting : yaml.load existing = some (node old))
    (hold : Items.get yaml.applications old = some (node apps))
    (hdst : yaml.incomingApplications incoming = some dst)
    (hdistinct : (node dst).Distinct) (happs : (node apps).Distinct)
    (ha : (node (yaml.filled incoming dst apps)).probe p = some (some a)) : yaml.Gives a := by
  cases p with
  | nil => cases ha
  | cons k p =>
    rw [Yaml.filled, probe_set] at ha
    by_cases hk : k = yaml.applications
    · rw [if_pos hk] at ha
      rcases probe_mergeMissing_cases hdistinct happs ha with hnew | hprev
      · rcases get_given_applications hdst with hget | ⟨rfl, -⟩
        · have hgiven : (node (yaml.given (node incoming))).probe (yaml.applications :: p) =
              some (some a) := by
            rw [probe_node_cons, hget]
            exact hnew
          exact ⟨content, _, _, hcontent, probe_of_given hgiven⟩
        · cases p <;> cases hnew
      · refine ⟨existing, _, yaml.applications :: p, hexisting, ?_⟩
        rw [probe_node_cons, hold]
        exact hprev
    · rw [if_neg hk] at ha
      exact ⟨content, _, k :: p, hcontent, ha⟩

/-- **The text that is written keeps the applications**, unless it is empty and they are not. -/
theorem preserved_kept_iff (hfaithful : yaml.Faithful) {existing content : Text}
    (hexisting : yaml.load existing = some (node old))
    (hold : Items.get yaml.applications old = some (node apps))
    (hcontent : yaml.load content = some t) (hfits : yaml.Fits t) :
    (∃ stored, yaml.load ((yaml.preserved existing content).getD content) = some stored ∧
        yaml.Kept (node old) (node (yaml.given t)) stored) ↔
      (∃ m, t = node m) ∨ ∀ p a, (node apps).probe p ≠ some (some a) := by
  have happs : (node apps).Distinct := (hfaithful.distinct _ _ hexisting).get hold
  cases t with
  | leaf b =>
    rw [preserved_of_no_mapping hcontent, Option.getD_none, hcontent]
    constructor
    · rintro ⟨_, ⟨⟩, hkept⟩
      exact Or.inr ((kept_empty_iff hold b).mp hkept)
    · rintro (⟨m, hm⟩ | hnone)
      · cases hm
      · exact ⟨_, rfl, (kept_empty_iff hold b).mpr hnone⟩
  | node incoming =>
    refine iff_of_true ?_ (Or.inl ⟨incoming, rfl⟩)
    obtain ⟨dst, hdst⟩ := Option.isSome_iff_exists.mp hfits
    have hincoming := hfaithful.distinct _ _ hcontent
    have hdistinct := distinct_applications hincoming hdst
    cases apps with
    | nil =>
      rw [preserved_of_no_applications hexisting hold, Option.getD_none, hcontent]
      exact ⟨_, rfl, kept_of_no_values hold⟩
    | cons item items =>
      rw [preserved_eq hcontent hexisting hold hdst]
      by_cases hzero : (mergeMissing dst (item :: items)).2 ≤ 0
      · rw [if_pos hzero, Option.getD_none, hcontent]
        refine ⟨_, rfl, kept_filled hdst hdistinct happs hold fun p v hv => Or.inl ?_⟩
        rw [filled_of_zero hdst hzero] at hv
        exact hv
      · rw [if_neg hzero, Option.getD_some]
        have hfilled : (node (yaml.filled incoming dst (item :: items))).Distinct :=
          hincoming.set yaml.applications (distinct_mergeMissing hdistinct _ happs)
        refine ⟨_, hfaithful.load_dump _ hfilled fun p a ha =>
          gives_filled hcontent hexisting hold hdst hdistinct happs ha, ?_⟩
        refine kept_filled hdst hdistinct happs hold fun p v hv => Or.inr ?_
        rw [probe_map, hv]
        rfl

end Documents

/-! ## On the disk -/

section Run

variable {ρ : Type} {h : Host} {docs : Docs} {w w' : World ρ} {uuid : FileName} {target : Path}
  {relPath content text : Text} {b : Bytes}

/-- What was written atomically is there. -/
theorem atomicWriteText_eq_ok (hok : atomicWriteText uuid target text w = .ok () w') :
    w'.disk.get target = some (.file (encode text)) := by
  obtain ⟨⟨⟩, u, -, hok⟩ := bind_eq_ok.mp hok
  obtain ⟨⟨⟩, v, hwrite, hrename⟩ := bind_eq_ok.mp hok
  obtain ⟨hc, rfl⟩ := exec_eq_ok hwrite
  obtain ⟨hc', rfl⟩ := exec_eq_ok hrename
  have hmoved := Nodes.get_move_append (tmpPath uuid target) target []
    (u.disk.nodes.set (tmpPath uuid target) (.file (encode text)))
  rw [List.append_nil, List.append_nil, FinMap.get_set, if_pos rfl] at hmoved
  exact hmoved

/-- The next command does not meet an I/O error. -/
def World.Healthy (w : World ρ) : Prop := w.faults.head?.join = none

instance (w : World ρ) : Decidable w.Healthy := inferInstanceAs (Decidable (_ = none))

theorem readBytes_healthy (hhealthy : w.Healthy) (hfile : w.disk.get target = some (.file b)) :
    ∃ w', readBytes target w = .ok b w' ∧ w'.disk = w.disk := by
  have hrefused : (Cmd.read target).refused w.disk.nodes = none := by
    have hget : w.disk.nodes.get target = some (.file b) := hfile
    simp only [Cmd.refused, hget]
  have htrouble : w.trouble (.read target) = none := by
    unfold World.trouble
    rw [hhealthy, hrefused]
    rfl
  rcases exec_cases (.read target) w with ⟨_, hsome, -⟩ | ⟨hnone, hexec⟩
  · rw [htrouble] at hsome
    cases hsome
  · have hb : w.disk.fileAt target = some b := Nodes.fileAt_eq_some.mpr hfile
    refine ⟨w.did (.read target) (World.refused_of_trouble hnone),
      bind_eq_ok.mpr ⟨(), _, hexec, ?_⟩, Disk.ext fun _ => rfl⟩
    show EStateM.Result.ok ((w.disk.fileAt target).getD []) _ = _
    rw [hb]
    rfl

/-- A file that was read is there, and the disk is as it was. -/
theorem readFile_eq_ok (hok : readFile h relPath w = .ok text w')
    (htarget : safeResolve h relPath = .ok target) :
    ∃ b, w.disk.get target = some (.file b) ∧ text = readText b ∧ w'.disk = w.disk := by
  replace hok := bind_eq_ok.mp hok
  obtain ⟨⟨⟩, u, hens, hok⟩ := hok
  obtain ⟨rfl, -⟩ := ensure_eq_ok hens
  replace hok := bind_eq_ok.mp hok
  obtain ⟨q, v, hres, hok⟩ := hok
  obtain ⟨hresolved, rfl⟩ := orRaise_eq_ok hres
  cases htarget.symm.trans hresolved
  replace hok := bind_eq_ok.mp hok
  obtain ⟨there, v', hthere, hok⟩ := hok
  cases hthere
  split at hok
  · obtain ⟨bytes, u', hread, hok⟩ := bind_eq_ok.mp hok
    cases hok
    obtain ⟨hfile, hdisk⟩ := readBytes_eq_ok (orFail_eq_ok hread)
    exact ⟨bytes, hfile, rfl, hdisk⟩
  · cases hok

/-- What `write_file` puts in place of a file that is there. -/
theorem writeFile_written {done : Done Unit}
    (hok : writeFile h docs uuid relPath content w = .ok done w')
    (htarget : safeResolve h relPath = .ok target) (hfile : w.disk.get target = some (.file b)) :
    ∃ written u, preserveHostVarsApplications docs target content w = .ok written u ∧
      w'.disk.get target = some (.file (encode written)) := by
  replace hok := bind_eq_ok.mp hok
  obtain ⟨⟨⟩, u, hens, hok⟩ := hok
  obtain ⟨rfl, -⟩ := ensure_eq_ok hens
  replace hok := bind_eq_ok.mp hok
  obtain ⟨q, v, hres, hok⟩ := hok
  obtain ⟨hresolved, rfl⟩ := orRaise_eq_ok hres
  cases htarget.symm.trans hresolved
  replace hok := bind_eq_ok.mp hok
  obtain ⟨existed, _, hb, hok⟩ := hok
  cases hb
  -- the file is in a directory already
  have hdir : v.disk.isDir target.dropLast = true :=
    Nodes.closed_iff.mp v.disk.closed target (by
      show v.disk.get target ≠ none
      rw [hfile]
      exact nofun)
  replace hok := bind_eq_ok.mp hok
  obtain ⟨⟨⟩, u₁, hmk, hok⟩ := hok
  rw [safeMkdir_dir hdir] at hmk
  cases hmk
  replace hok := bind_eq_ok.mp hok
  obtain ⟨written, u₂, hpres, hok⟩ := hok
  replace hok := bind_eq_ok.mp hok
  obtain ⟨⟨⟩, u₃, hwrite, hok⟩ := hok
  replace hok := bind_eq_ok.mp hok
  obtain ⟨path, u₄, hrel, hok⟩ := hok
  obtain ⟨-, rfl⟩ := orRaise_eq_ok hrel
  cases hok
  exact ⟨written, u₂, hpres, atomicWriteText_eq_ok (orFail_eq_ok hwrite)⟩

/-- What `write_file` puts in place of a host variables file. -/
theorem writeFile_host_vars {done : Done Unit}
    (hok : writeFile h docs uuid relPath content w = .ok done w') (hhealthy : w.Healthy)
    (htarget : safeResolve h relPath = .ok target) (hhost : isHostVarsFile target = true)
    (hfile : w.disk.get target = some (.file b)) :
    w'.disk.get target =
      some (.file (encode ((docs.preserveApplications (readText b) content).getD content))) := by
  obtain ⟨written, u, hpres, hget⟩ := writeFile_written hok htarget hfile
  obtain ⟨r, hread, -⟩ := readBytes_healthy hhealthy hfile
  have hthere : isFile target w = .ok true w := by
    show EStateM.Result.ok (w.disk.fileAt target).isSome w = _
    rw [show w.disk.fileAt target = some b from Nodes.fileAt_eq_some.mpr hfile]
    rfl
  unfold preserveHostVarsApplications at hpres
  rw [if_pos hhost, bind_of_ok hthere, if_pos rfl, tryCatch_apply, bind_of_ok hread] at hpres
  cases hpres
  exact hget

/-- Where nothing is to be filled in, the new text is written as it is. -/
theorem writeFile_unfilled {done : Done Unit}
    (hok : writeFile h docs uuid relPath content w = .ok done w')
    (htarget : safeResolve h relPath = .ok target) (hfile : w.disk.get target = some (.file b))
    (hnone : docs.preserveApplications (readText b) content = none) :
    w'.disk.get target = some (.file (encode content)) := by
  obtain ⟨written, u, hpres, hget⟩ := writeFile_written hok htarget hfile
  have hwritten : written = content := by
    unfold preserveHostVarsApplications at hpres
    split at hpres
    · obtain ⟨there, v, hthere, hpres⟩ := bind_eq_ok.mp hpres
      cases hthere
      split at hpres
      · rcases tryCatch_eq_ok.mp hpres with hread | ⟨e, v, -, hpure⟩
        · obtain ⟨bytes, v, hbytes, hread⟩ := bind_eq_ok.mp hread
          cases hread
          cases hfile.symm.trans (readBytes_eq_ok hbytes).1
          rw [hnone]
          rfl
        · cases hpure
          rfl
      · cases hpres
        rfl
    · cases hpres
      rfl
  rw [← hwritten]
  exact hget

/-- What a host variables file says after it was saved. -/
theorem documentAt_writeFile {yaml : Yaml κ β} {done : Done Unit} (hfaithful : yaml.Faithful)
    (hok : writeFile h (yaml.docs docs) uuid relPath content w = .ok done w') (hhealthy : w.Healthy)
    (htarget : safeResolve h relPath = .ok target) (hhost : isHostVarsFile target = true)
    (hfile : w.disk.get target = some (.file b)) :
    yaml.documentAt w'.disk target =
      yaml.load ((yaml.preserved (readText b) content).getD content) := by
  have hget := writeFile_host_vars hok hhealthy htarget hhost hfile
  unfold Yaml.documentAt
  rw [show w'.disk.fileAt target = _ from Nodes.fileAt_eq_some.mpr hget]
  show yaml.load (universalNewlines (decode (encode _))) = _
  rw [decode_encode, hfaithful.load_newlines]
  rfl

end Run

/-- **Saving host variables keeps the applications** unless the new text is an empty document
    and there is something to lose. -/
theorem host_vars_kept_iff {ρ : Type} {yaml : Yaml κ β} (hfaithful : yaml.Faithful) (others : Docs)
    {h : Host} {uuid : FileName} {relPath content : Text} {w w' : World ρ} {done : Done Unit}
    {target : Path} {b : Bytes} {old apps : Items κ (Leaf β)} {new : Tree κ (Leaf β)}
    (hok : writeFile h (yaml.docs others) uuid relPath content w = .ok done w')
    (hhealthy : w.Healthy) (htarget : safeResolve h relPath = .ok target)
    (hhost : isHostVarsFile target = true) (hfile : w.disk.get target = some (.file b))
    (hold : yaml.load (readText b) = some (node old))
    (happs : Items.get yaml.applications old = some (node apps))
    (hnew : yaml.load content = some new) (hfits : yaml.Fits new) :
    (∃ stored, yaml.documentAt w'.disk target = some stored ∧
        yaml.Kept (node old) (node (yaml.given new)) stored) ↔
      (∃ m, new = node m) ∨ ∀ p a, (node apps).probe p ≠ some (some a) := by
  rw [documentAt_writeFile hfaithful hok hhealthy htarget hhost hfile]
  exact preserved_kept_iff hfaithful hold happs hnew hfits

/-! ## A server whose applications are lost -/

section Demo

/-- A document of nothing but `applications`, without its white space. -/
def demoParse : Nat → Text → Option (Tree Unit (Leaf Bool))
  | 0, _ => none
  | n + 1, t =>
      if t = [] ∨ t = "null".toList then some (.leaf ⟨false, []⟩)
      else if t = "true".toList then some (.leaf ⟨true, []⟩)
      else if t = "{}".toList then some (.node [])
      else if "applications:".toList <+: t then
        (demoParse n (t.drop 13)).map fun v => .node [((), v)]
      else none

def demoFlat (t : Text) : Text := t.filter fun c => !(c = ' ' || c = '\n' || c = '\r')

def demoLoad (t : Text) : Option (Tree Unit (Leaf Bool)) :=
  demoParse ((demoFlat t).length + 1) (demoFlat t)

/-- What stands after a key, the next lines indented by `depth`. -/
def demoValue (depth : Nat) : Tree Unit (Leaf Bool) → Text
  | .leaf a => if a.skeleton then " true\n".toList else " null\n".toList
  | .node [] => " {}\n".toList
  | .node (item :: _) =>
      "\n".toList ++ List.replicate depth ' ' ++ "applications:".toList ++ demoValue (depth + 2) item.2

def demoDump : Items Unit (Leaf Bool) → Text
  | [] => "{}\n".toList
  | item :: _ => "applications:".toList ++ demoValue 2 item.2

def demoYaml : Yaml Unit Bool where
  load := demoLoad
  dump := demoDump
  null := false
  applications := ()

theorem demoFlat_universalNewlines (t : Text) : demoFlat (universalNewlines t) = demoFlat t := by
  unfold demoFlat
  fun_induction universalNewlines t with
  | case1 => rfl
  | case2 t ih => simpa using ih
  | case3 t _ ih => simpa using ih
  | case4 c t _ _ ih => rw [List.filter_cons, List.filter_cons, ih]

theorem demoParse_key (n : Nat) (t : Text) :
    demoParse (n + 1) ("applications:".toList ++ t) = (demoParse n t).map fun v => .node [((), v)] := by
  have hne {u : Text} (hu : u.head? ≠ some 'a') : "applications:".toList ++ t ≠ u := by
    rintro rfl
    exact hu rfl
  rw [demoParse, if_neg (not_or.mpr ⟨hne (by decide), hne (by decide)⟩), if_neg (hne (by decide)),
    if_neg (hne (by decide)), if_pos (List.prefix_append _ _)]
  rfl

/-- All that is loaded is a chain of mappings, with a value without vault texts at its end. -/
theorem demoParse_sound {n : Nat} {t : Text} {v : Tree Unit (Leaf Bool)} (hv : demoParse n t = some v) :
    v.Distinct ∧ ∀ p a, v.probe p = some (some a) → a.vaults = [] := by
  induction n generalizing t v with
  | zero => cases hv
  | succ n ih =>
    have hleaf (b : Bool) : (leaf ⟨b, []⟩ : Tree Unit (Leaf Bool)).Distinct ∧
        ∀ p a, (leaf ⟨b, []⟩ : Tree Unit (Leaf Bool)).probe p = some (some a) → a.vaults = [] := by
      refine ⟨.leaf _, fun p a ha => ?_⟩
      cases p with
      | nil =>
        cases ha
        rfl
      | cons k p => cases ha
    rw [demoParse] at hv
    split at hv
    · cases hv
      exact hleaf false
    split at hv
    · cases hv
      exact hleaf true
    split at hv
    · cases hv
      refine ⟨.node List.nodup_nil nofun, fun p a ha => ?_⟩
      cases p <;> cases ha
    split at hv
    · obtain ⟨u, hu, rfl⟩ := Option.map_eq_some_iff.mp hv
      obtain ⟨hdistinct, hplain⟩ := ih hu
      refine ⟨.node (by simp) fun item hitem => ?_, fun p a ha => ?_⟩
      · rw [List.mem_singleton.mp hitem]
        exact hdistinct
      · cases p with
        | nil => cases ha
        | cons k p => exact hplain p a ha
    · cases hv

theorem demoFlat_append (t u : Text) : demoFlat (t ++ u) = demoFlat t ++ demoFlat u :=
  List.filter_append ..

theorem demoFlat_spaces (n : Nat) : demoFlat (List.replicate n ' ') = [] := by
  induction n with
  | zero => rfl
  | succ n ih => exact ih

theorem demoFlat_key : demoFlat "applications:".toList = "applications:".toList := by decide

theorem demoFlat_node (depth : Nat) (item : Unit × Tree Unit (Leaf Bool)) (m : Items Unit (Leaf Bool)) :
    demoFlat (demoValue depth (.node (item :: m))) =
      "applications:".toList ++ demoFlat (demoValue (depth + 2) item.2) := by
  rw [demoValue, demoFlat_append, demoFlat_append, demoFlat_append, demoFlat_spaces, demoFlat_key]
  rfl

theorem demoParse_value {v : Tree Unit (Leaf Bool)} (hv : v.Distinct)
    (hplain : ∀ p a, v.probe p = some (some a) → a.vaults = []) (depth n : Nat)
    (hn : (demoFlat (demoValue depth v)).length < n) :
    demoParse n (demoFlat (demoValue depth v)) = some (v.map Leaf.represented) := by
  induction hv generalizing depth n with
  | leaf a =>
    obtain ⟨n, rfl⟩ : ∃ k, n = k + 1 := ⟨n - 1, by omega⟩
    obtain ⟨b, vaults⟩ := a
    cases hplain [] _ rfl
    cases b <;> rfl
  | @node m nodup below ih =>
    obtain ⟨n, rfl⟩ : ∃ k, n = k + 1 := ⟨n - 1, by omega⟩
    cases m with
    | nil => rfl
    | cons item m =>
      -- there is but one key
      have hnil : m = [] := by
        rw [List.map_cons, List.nodup_cons] at nodup
        cases m with
        | nil => rfl
        | cons j m => exact absurd (List.mem_map_of_mem List.mem_cons_self) nodup.1
      subst hnil
      rw [demoFlat_node] at hn ⊢
      rw [List.length_append] at hn
      have hlen : "applications:".toList.length = 13 := rfl
      rw [demoParse_key, ih item List.mem_cons_self
        (fun p a ha => hplain (item.1 :: p) a (by
          rw [probe_node_cons, Items.get_cons, if_pos rfl]
          exact ha)) (depth + 2) n (by omega)]
      rfl

theorem demoYaml_faithful : demoYaml.Faithful where
  distinct _ _ ht := (demoParse_sound ht).1
  load_dump m hm hgives := by
    have hplain : ∀ p a, (node m).probe p = some (some a) → a.vaults = [] := by
      intro p a ha
      obtain ⟨text, t, q, ht, hq⟩ := hgives p a ha
      exact (demoParse_sound ht).2 q a hq
    show demoLoad (demoDump m) = _
    unfold demoLoad
    cases m with
    | nil => rfl
    | cons item m =>
      -- a document is a value with its first line not indented
      have hflat := demoFlat_node 0 item m
      rw [← demoFlat_key, ← demoFlat_append] at hflat
      rw [show demoDump (item :: m) = "applications:".toList ++ demoValue 2 item.2 from rfl, ← hflat]
      exact demoParse_value hm hplain 0 _ (Nat.lt_succ_self _)
  load_newlines t := by
    show demoLoad _ = demoLoad _
    unfold demoLoad
    rw [demoFlat_universalNewlines]

def demoServer : Path := [demoName "ws", hostVarsName, demoName "srv.yml"]

def demoOld : Text := "applications:\n  applications: true\n"

def demoOldItems : Items Unit (Leaf Bool) := [((), node [((), leaf ⟨true, []⟩)])]

def serverDisk : Disk := ⟨.ofList
  [([demoName "ws"], .dir), ([demoName "ws", hostVarsName], .dir), (demoServer, .file (encode demoOld))],
  by decide +kernel⟩

/-- Saving `content` keeps the applications of the server. -/
def KeepsApplications (content : Text) : Prop :=
  ∀ (w' : World Unit) (done : Done Unit) (new : Tree Unit (Leaf Bool)),
    writeFile demoHost (demoYaml.docs plainDocs) (demoName "u") "host_vars/srv.yml" content
        (.fresh serverDisk () []) = .ok done w' →
      demoYaml.load content = some new →
        ∃ stored, demoYaml.documentAt w'.disk demoServer = some stored ∧
          demoYaml.Kept (node demoOldItems) (node (demoYaml.given new)) stored

def demoWritten (content : Text) : Option (Done Unit × Option Bytes) :=
  match writeFile demoHost (demoYaml.docs plainDocs) (demoName "u") "host_vars/srv.yml" content
      (.fresh serverDisk () []) with
  | .ok done w' => some (done, w'.disk.fileAt demoServer)
  | .error _ _ => none

theorem exists_of_demoWritten {content : Text} (h : (demoWritten content).isSome = true) :
    ∃ (w' : World Unit) (done : Done Unit),
      writeFile demoHost (demoYaml.docs plainDocs) (demoName "u") "host_vars/srv.yml" content
        (.fresh serverDisk () []) = .ok done w' := by
  unfold demoWritten at h
  split at h
  · rename_i done w' hok
    exact ⟨w', done, hok⟩
  · cases h

theorem demoOld_loads : demoYaml.load (readText (encode demoOld)) = some (node demoOldItems) := by
  rw [readText_encode (by decide)]
  rfl

theorem demoServer_resolved : safeResolve demoHost "host_vars/srv.yml" = .ok demoServer := by decide

/-- **Saving an empty document loses the applications.** -/
theorem empty_document_loses : ¬ KeepsApplications [] := by
  intro hkeeps
  obtain ⟨w', done, hok⟩ :=
    exists_of_demoWritten (show (demoWritten []).isSome = true by decide +kernel)
  have hempty : demoYaml.load [] = some (leaf ⟨false, []⟩) := rfl
  have happs : Items.get () demoOldItems = some (node [((), leaf ⟨true, []⟩)]) := rfl
  have hkept := hkeeps w' done _ hok hempty
  rw [documentAt_writeFile demoYaml_faithful hok rfl demoServer_resolved (by decide) rfl,
    preserved_kept_iff demoYaml_faithful demoOld_loads happs hempty rfl] at hkept
  rcases hkept with ⟨m, hm⟩ | hnone
  · cases hm
  · exact hnone [()] _ rfl

/-- Saving `{}` keeps them. -/
theorem braces_keep : ∃ (w' : World Unit) (done : Done Unit),
    writeFile demoHost (demoYaml.docs plainDocs) (demoName "u") "host_vars/srv.yml" "{}".toList
        (.fresh serverDisk () []) = .ok done w' ∧
      ∃ stored, demoYaml.documentAt w'.disk demoServer = some stored ∧
        demoYaml.Kept (node demoOldItems) (node []) stored := by
  obtain ⟨w', done, hok⟩ :=
    exists_of_demoWritten (show (demoWritten "{}".toList).isSome = true by decide +kernel)
  have hbraces : demoYaml.load "{}".toList = some (node []) := rfl
  have happs : Items.get () demoOldItems = some (node [((), leaf ⟨true, []⟩)]) := rfl
  exact ⟨w', done, hok, (host_vars_kept_iff demoYaml_faithful plainDocs hok rfl demoServer_resolved
    (by decide) rfl demoOld_loads happs hbraces rfl).mpr (Or.inl ⟨[], rfl⟩)⟩

end Demo

end Infinito.Workspace
