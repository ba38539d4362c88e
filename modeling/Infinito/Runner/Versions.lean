import Infinito.Lib.First
import Infinito.Lib.Lists
import Infinito.Lib.Run
import Infinito.RateLimits.Windows
import Mathlib.Data.List.Sort

/-!
# The versions that are offered

A job runs in an image of the version that was asked for: the configured image, with another tag.
Which tags there are is asked of the registry of packages, and when that fails of the repository;
the answer is kept for a while, by all threads together.

`records_offered` says what is made of the tags that are fetched: every version among them can be
asked for, and is given the first tag that means it. `lists_fresh` is about the runs of the cache,
in which calls overtake each other: nobody is given a list that is past its time, unless it could
not be fetched again. `images_published` puts the two together with the image: its repository stays,
port and all, and its tag is one that was fetched for that version.
-/

set_option autoImplicit false

namespace Infinito.Runner

open Py Lib

/-! ## Versions -/

def latest : Text := "latest".toList

/-- `0|[1-9]\d*` -/
def isPart : Text → Bool
  | [] => false
  | c :: cs => (c == '0' && cs.isEmpty) || ('1' ≤ c && c ≤ '9' && cs.all isDecimal)

/-- `_STABLE_SEMVER_RE` on a stripped text: its three groups, with dots between them. -/
def stableSemver (text : Text) : Option Text :=
  let body := if text.head? = some 'v' then text.tail else text
  let parts := body.splitOn '.'
  if parts.length = 3 ∧ parts.all isPart = true then some body else none

/-- `normalize_infinito_nexus_version`, of nothing as of the empty text. -/
def normalizeInfinitoNexusVersion (value : Text) : Except HttpError Text :=
  let text := strip value
  if text = [] ∨ lower text = latest then .ok latest
  else match stableSemver text with
    | some version => .ok version
    | none =>
        .error ⟨400, "invalid infinito_nexus_version (expected latest or stable semver)"⟩

/-- `int(part)`. More than 4300 digits are a `ValueError`. -/
def partNumber (part : Text) : Option Nat :=
  if 4300 < part.length then none
  else some (part.foldl (fun n c => 10 * n + (digitValue c).getD 0) 0)

/-- `_sort_key`, nothing where it raises. The lists are compared as tuples are. -/
def sortKey (version : Text) : Option (List Nat) :=
  match stableSemver version with
  | none => some [0, 0, 0]
  | some body => (body.splitOn '.').mapM partNumber

def keyOf (version : Text) : List Nat := (sortKey version).getD []

/-! ## Records -/

structure InfinitoNexusVersionRecord where
  value : Text
  label : Text
  gitTag : Option Text
  imageTag : Text
  commitSha : Option Text
  deriving DecidableEq

def latestRecord (imageTag : Text) : InfinitoNexusVersionRecord :=
  ⟨latest, latest, none, imageTag, none⟩

def isLatest (item : Text) : Bool := lower (strip item) = latest

/-- The version that a tag means, if it means one. -/
def meaning (item : Text) : Option Text :=
  if isLatest item = true then none else stableSemver (strip item)

def versionRecord (version item : Text) : InfinitoNexusVersionRecord :=
  ⟨version, version, some (strip item), strip item, none⟩

/-- `deduped`: of two tags for one version the first counts. -/
def deduped (tags : List Text) : List InfinitoNexusVersionRecord :=
  firsts InfinitoNexusVersionRecord.value []
    (tags.filterMap fun item => (meaning item).map fun version => versionRecord version item)

/-- `ordered` -/
def ordered (tags : List Text) : List InfinitoNexusVersionRecord :=
  (deduped tags).insertionSort fun a b => keyOf b.value ≤ keyOf a.value

/-- `_build_records`, nothing where it raises. -/
def buildRecords (tags : List Text) : Option (List InfinitoNexusVersionRecord) :=
  if (deduped tags).all (fun record => (sortKey record.value).isSome) = true then
    let latestImageTag :=
      if tags.any isLatest = true then latest
      else ((ordered tags).head?.map InfinitoNexusVersionRecord.imageTag).getD latest
    some (latestRecord latestImageTag :: ordered tags)
  else none

/-- `resolve_infinito_nexus_record`, in the records that are listed. -/
def resolveInfinitoNexusRecord (records : List InfinitoNexusVersionRecord) (version : Text) :
    Except HttpError InfinitoNexusVersionRecord :=
  match normalizeInfinitoNexusVersion version with
  | .error e => .error e
  | .ok normalized =>
    match records.find? fun record => record.value = normalized with
    | some record => .ok record
    | none =>
        .error ⟨400, "unsupported infinito_nexus_version: " ++ String.ofList normalized⟩

/-! ## Images -/

/-- `str.rfind` -/
def rfind (c : Char) (t : Text) : Int :=
  if c ∈ t then (t.length : Int) - 1 - t.reverse.idxOf c else -1

/-- `_replace_image_tag` -/
def replaceImageTag (image tag : Text) : Except HttpError Text :=
  let base := strip image
  if base = [] then .error ⟨500, "JOB_RUNNER_IMAGE (or INFINITO_NEXUS_IMAGE) must be set"⟩
  else
    let base := base.takeWhile (· ≠ '@')
    let base := if rfind '/' base < rfind ':' base then base.take (rfind ':' base).toNat else base
    .ok (base ++ ':' :: tag)

/-- `resolve_job_runner_image`, in the records that are listed. -/
def resolveJobRunnerImage (records : List InfinitoNexusVersionRecord) (version baseImage : Text) :
    Except HttpError Text :=
  match normalizeInfinitoNexusVersion version with
  | .error e => .error e
  | .ok normalized =>
    if '@' ∈ baseImage ∧ normalized = latest then .ok (strip baseImage)
    else match resolveInfinitoNexusRecord records normalized with
      | .error e => .error e
      | .ok record => replaceImageTag baseImage record.imageTag

/-! ## The cache -/

/-- A list with the time of the call that has made it and, unless it could not be fetched, the tags
    it is made of: only proofs look at these. -/
structure Listing where
  records : List InfinitoNexusVersionRecord
  begun : Int
  tags : Option (List Text)

/-- What `list_infinito_nexus_versions` is at. -/
inductive VersionCall where
  | fetching (cached : Option Listing) (now : Int)
  | storing (listing : Listing) (failed : Bool)

/-- The list that a call has, from the cache or to be put there. -/
def VersionCall.listing : VersionCall → Option Listing
  | .fetching cached _ => cached
  | .storing listing _ => some listing

/-- A list that was returned, to a call that was made at a time and may have failed to fetch one. -/
structure VersionAnswer where
  listing : Listing
  asked : Int
  failed : Bool

/-- `_CACHE` and the calls, with what has been fetched and returned. -/
structure VersionCache where
  cached : Option Listing
  expiresAt : Int
  calls : Nat → Option VersionCall
  fetched : List (List Text)
  returned : List VersionAnswer

def VersionCache.init : VersionCache := ⟨none, 0, fun _ => none, [], []⟩

inductive VersionAct where
  | list (call : Nat) (forceRefresh : Bool) (now : Int)
  /-- with the tags of the packages and of the repository, if they can be fetched -/
  | fetch (call : Nat) (packageTags repoTags : Option (List Text))
  | store (call : Nat)

/-- A cached list that is not empty. -/
def usable (cached : Option Listing) : Option Listing :=
  cached.filter fun listing => !listing.records.isEmpty

/-- The records of what is fetched, and the tags. -/
def builtFrom (fetchedTags : Option (List Text)) :
    Option (List Text × List InfinitoNexusVersionRecord) :=
  fetchedTags.bind fun tags => (buildRecords tags).map fun records => (tags, records)

/-- What stands in for a list that cannot be fetched. -/
def fallback (now : Int) : Listing := ⟨[latestRecord latest], now, none⟩

/-- A step of `list_infinito_nexus_versions`: to where it lets the lock go, the requests, and the
    rest. -/
def VersionCache.step (ttl : Nat) (s : VersionCache) : VersionAct → Option VersionCache
  | .list c forceRefresh now => match s.calls c with
    | some _ => none
    | none =>
      match (usable s.cached).filter fun _ => !forceRefresh && (ttl == 0 || now < s.expiresAt) with
      | some listing => some { s with returned := ⟨listing, now, false⟩ :: s.returned }
      | none => some { s with calls := Function.update s.calls c (some (.fetching s.cached now)) }
  | .fetch c packageTags repoTags => match s.calls c with
    | some (.fetching cached now) =>
      match (builtFrom packageTags).or (builtFrom repoTags) with
      | some (tags, records) =>
        some { s with
          calls := Function.update s.calls c (some (.storing ⟨records, now, some tags⟩ false))
          fetched := tags :: s.fetched }
      | none =>
        match usable cached with
        | some listing =>
          some { s with
            calls := Function.update s.calls c none
            returned := ⟨listing, now, true⟩ :: s.returned }
        | none =>
          some { s with calls := Function.update s.calls c (some (.storing (fallback now) true)) }
    | _ => none
  | .store c => match s.calls c with
    | some (.storing listing failed) =>
      some { s with
        cached := some listing
        expiresAt := if 0 < ttl then listing.begun + ttl * RateLimits.second else listing.begun
        calls := Function.update s.calls c none
        returned := ⟨listing, listing.begun, failed⟩ :: s.returned }
    | _ => none

/-! ## What versions are made of -/

section Versions

variable {c : Char} {t body part version v : Text}

theorem isDecimal_of_isSpace (h : isSpace c = true) : isDecimal c = false := by
  have hspaces : c.toNat ∈ [9, 10, 11, 12, 13, 28, 29, 30, 31, 32, 133, 160, 5760, 8192, 8193, 8194,
      8195, 8196, 8197, 8198, 8199, 8200, 8201, 8202, 8232, 8233, 8239, 8287, 12288] := by
    unfold isSpace at h
    simp only [Bool.or_eq_true, Bool.and_eq_true, decide_eq_true_eq, beq_iff_eq] at h
    simp only [List.mem_cons, List.not_mem_nil]
    omega
  have hno : ∀ n ∈ [9, 10, 11, 12, 13, 28, 29, 30, 31, 32, 133, 160, 5760, 8192, 8193, 8194, 8195,
      8196, 8197, 8198, 8199, 8200, 8201, 8202, 8232, 8233, 8239, 8287, 12288],
      (decimalZeros.any fun z => z ≤ n && n < z + 10) = false := by decide
  exact hno _ hspaces

theorem isDecimal_of_mem_part (h : isPart part = true) (hc : c ∈ part) : isDecimal c = true := by
  cases part with
  | nil => cases hc
  | cons d ds =>
    simp only [isPart, Bool.or_eq_true, Bool.and_eq_true, beq_iff_eq, List.isEmpty_iff,
      decide_eq_true_eq, List.all_eq_true] at h
    obtain ⟨rfl, rfl⟩ | ⟨⟨hlow, hhigh⟩, hds⟩ := h
    · rw [List.mem_singleton.mp hc]
      decide
    · cases List.mem_cons.mp hc with
      | inl hd =>
        have hlow' : 49 ≤ c.toNat := by rw [hd]; exact hlow
        have hhigh' : c.toNat ≤ 57 := by rw [hd]; exact hhigh
        refine List.any_eq_true.mpr ⟨0x30, List.mem_cons_self, ?_⟩
        simp only [Bool.and_eq_true, decide_eq_true_eq]
        omega
      | inr htail => exact hds c htail

theorem stableSemver_eq_some (h : stableSemver t = some body) :
    (t = body ∨ t = 'v' :: body) ∧ (body.splitOn '.').length = 3 ∧
      ∀ part ∈ body.splitOn '.', isPart part = true := by
  unfold stableSemver at h
  by_cases hv : t.head? = some 'v'
  · obtain ⟨tail, rfl⟩ : ∃ tail, t = 'v' :: tail := ⟨t.tail, (List.eq_cons_of_mem_head? hv)⟩
    simp only [List.head?_cons, if_true, List.tail_cons] at h
    split at h
    · rename_i hparts
      cases h
      exact ⟨Or.inr rfl, hparts.1, List.all_eq_true.mp hparts.2⟩
    · cases h
  · simp only [if_neg hv] at h
    split at h
    · rename_i hparts
      cases h
      exact ⟨Or.inl rfl, hparts.1, List.all_eq_true.mp hparts.2⟩
    · cases h

theorem mem_version (h : stableSemver t = some body) (hc : c ∈ body) :
    isDecimal c = true ∨ c = '.' := by
  obtain ⟨-, -, hparts⟩ := stableSemver_eq_some h
  obtain hdot | ⟨part, hpart, hmem⟩ := exists_mem_splitOn (a := '.') hc
  · exact Or.inr hdot
  · exact Or.inl (isDecimal_of_mem_part (hparts part hpart) hmem)

theorem dot_mem_version (h : stableSemver t = some body) : '.' ∈ body := by
  obtain ⟨-, hlength, -⟩ := stableSemver_eq_some h
  by_contra hdot
  rw [List.splitOn_eq_singleton hdot] at hlength
  cases hlength

/-- A version means itself. -/
theorem stableSemver_version (h : stableSemver t = some body) : stableSemver body = some body := by
  obtain ⟨-, hlength, hparts⟩ := stableSemver_eq_some h
  have hhead : body.head? ≠ some 'v' := by
    intro hv
    obtain hdigit | hdot := mem_version h (List.mem_of_head? hv)
    · exact absurd hdigit (by decide)
    · exact absurd hdot (by decide)
  unfold stableSemver
  simp only [if_neg hhead, hlength, List.all_eq_true.mpr hparts, and_self, if_true]

theorem strip_version (h : stableSemver t = some body) : strip body = body := by
  refine strip_of_no_space fun c hc => ?_
  by_contra hspace
  have hspace : isSpace c = true := by simpa using hspace
  obtain hdigit | rfl := mem_version h hc
  · rw [isDecimal_of_isSpace hspace] at hdigit
    cases hdigit
  · exact absurd hspace (by decide)

theorem lower_version_ne (h : stableSemver t = some body) : lower body ≠ latest := by
  intro hlower
  have hdot : '.' ∈ lower body := List.mem_map.mpr ⟨'.', dot_mem_version h, by decide⟩
  rw [hlower] at hdot
  exact absurd hdot (by decide)

theorem version_ne_latest (h : stableSemver t = some body) : body ≠ latest := by
  rintro rfl
  exact lower_version_ne h (by decide)

theorem version_ne_nil (h : stableSemver t = some body) : body ≠ [] :=
  List.ne_nil_of_mem (dot_mem_version h)

/-! ## Versions that are asked for -/

theorem normalize_latest : normalizeInfinitoNexusVersion latest = .ok latest := by decide

theorem normalize_version (h : stableSemver t = some body) :
    normalizeInfinitoNexusVersion body = .ok body := by
  unfold normalizeInfinitoNexusVersion
  simp only [strip_version h, version_ne_nil h, lower_version_ne h, or_self, if_false,
    stableSemver_version h]

theorem normalize_eq_ok (h : normalizeInfinitoNexusVersion version = .ok v) :
    v = latest ∨ stableSemver (strip version) = some v := by
  unfold normalizeInfinitoNexusVersion at h
  simp only at h
  split at h
  · cases h
    exact Or.inl rfl
  · split at h
    · rename_i hsemver
      cases h
      exact Or.inr hsemver
    · cases h

/-- What is asked for is read once. -/
theorem normalize_normalized (h : normalizeInfinitoNexusVersion version = .ok v) :
    normalizeInfinitoNexusVersion v = .ok v := by
  obtain rfl | hversion := normalize_eq_ok h
  · exact normalize_latest
  · exact normalize_version hversion

theorem meaning_eq_some (h : meaning t = some v) :
    isLatest t = false ∧ stableSemver (strip t) = some v := by
  unfold meaning at h
  split at h
  · cases h
  · rename_i hlatest
    exact ⟨by simpa using hlatest, h⟩

end Versions

/-! ## The records -/

section Records

variable {tags : List Text} {records : List InfinitoNexusVersionRecord}
  {r : InfinitoNexusVersionRecord} {item version v : Text}

/-- The first tag that means a version. -/
def firstTag (tags : List Text) (version : Text) : Option Text :=
  tags.find? fun item => meaning item = some version

theorem meaning_of_firstTag (h : firstTag tags v = some item) :
    item ∈ tags ∧ meaning item = some v :=
  ⟨List.mem_of_find?_eq_some h, by simpa using List.find?_some h⟩

theorem mem_deduped :
    r ∈ deduped tags ↔
      ∃ item, firstTag tags r.value = some item ∧ r = versionRecord r.value item := by
  unfold deduped firstTag
  rw [mem_firsts, List.find?_filterMap]
  have htest : ∀ item, (((meaning item).map fun version => versionRecord version item).any
      fun b => decide (b.value = r.value)) = decide (meaning item = some r.value) := by
    intro item
    cases hmeaning : meaning item with
    | none => simp
    | some version => simp [versionRecord]
  simp only [htest, List.not_mem_nil, not_false_eq_true, true_and]
  constructor
  · intro h
    obtain ⟨item, hitem, hr⟩ := Option.bind_eq_some_iff.mp h
    have hmeaning : meaning item = some r.value := by simpa using List.find?_some hitem
    rw [hmeaning, Option.map_some, Option.some.injEq] at hr
    exact ⟨item, hitem, hr.symm⟩
  · rintro ⟨item, hitem, hr⟩
    have hmeaning : meaning item = some r.value := by simpa using List.find?_some hitem
    rw [hitem, Option.bind_some, hmeaning, Option.map_some, ← hr]

theorem mem_ordered :
    r ∈ ordered tags ↔
      ∃ item, firstTag tags r.value = some item ∧ r = versionRecord r.value item := by
  unfold ordered
  rw [List.mem_insertionSort, mem_deduped]

theorem ordered_pairwise :
    (ordered tags).Pairwise fun a b => keyOf b.value ≤ keyOf a.value := by
  unfold ordered
  have : Std.Total fun a b : InfinitoNexusVersionRecord => keyOf b.value ≤ keyOf a.value :=
    ⟨fun a b => le_total (keyOf b.value) (keyOf a.value)⟩
  have : IsTrans InfinitoNexusVersionRecord fun a b => keyOf b.value ≤ keyOf a.value :=
    ⟨fun a b c hab hbc => le_trans hbc hab⟩
  exact List.pairwise_insertionSort _ _

theorem nodup_ordered : ((ordered tags).map InfinitoNexusVersionRecord.value).Nodup := by
  unfold ordered
  rw [((List.perm_insertionSort _ _).map _).nodup_iff]
  exact nodup_firsts

theorem value_of_mem_ordered (h : r ∈ ordered tags) : stableSemver r.value = some r.value := by
  obtain ⟨item, hitem, -⟩ := mem_ordered.mp h
  exact stableSemver_version (meaning_eq_some (meaning_of_firstTag hitem).2).2

/-- Which tag a version has among the tags that were fetched. -/
inductive TagOf (tags : List Text) : Text → Text → Prop
  | version {v item : Text} (first : firstTag tags v = some item) : TagOf tags v (strip item)
  | latest (there : tags.any isLatest = true) : TagOf tags latest latest
  | greatest {v item : Text} (missing : tags.any isLatest = false)
      (first : firstTag tags v = some item)
      (above : ∀ w t, t ∈ tags → meaning t = some w → keyOf w ≤ keyOf v) :
      TagOf tags latest (strip item)
  | nothing (missing : tags.any isLatest = false) (none : ∀ t ∈ tags, meaning t = none) :
      TagOf tags latest latest

/-- What the records that are offered are, by the tags that were fetched. -/
structure Offered (tags : List Text) (records : List InfinitoNexusVersionRecord) : Prop where
  /-- the latest version comes first, then the greatest -/
  sorted : records.tail.Pairwise fun a b => keyOf b.value ≤ keyOf a.value
  once : (records.map InfinitoNexusVersionRecord.value).Nodup
  /-- what is offered can be asked for -/
  listed : ∀ r ∈ records, resolveInfinitoNexusRecord records r.value = .ok r
  /-- and so can the latest version, and every version that was fetched, however it is written -/
  known : ∀ version v, normalizeInfinitoNexusVersion version = .ok v →
    (v = latest ∨ ∃ t ∈ tags, meaning t = some v) →
    ∃ r, resolveInfinitoNexusRecord records version = .ok r
  tagged : ∀ version r, resolveInfinitoNexusRecord records version = .ok r →
    normalizeInfinitoNexusVersion version = .ok r.value ∧ TagOf tags r.value r.imageTag

theorem resolve_eq_ok :
    resolveInfinitoNexusRecord records version = .ok r ↔
      ∃ v, normalizeInfinitoNexusVersion version = .ok v ∧
        records.find? (fun record => record.value = v) = some r := by
  unfold resolveInfinitoNexusRecord
  cases hversion : normalizeInfinitoNexusVersion version with
  | error e =>
    refine iff_of_false (fun h => ?_) (fun h => ?_)
    · cases h
    · obtain ⟨v, hv, -⟩ := h
      cases hv
  | ok normalized =>
    simp only [Except.ok.injEq, exists_eq_left']
    cases records.find? fun record => record.value = normalized with
    | none => exact iff_of_false (fun h => by cases h) (fun h => by cases h)
    | some record => simp

/-- Where no two records have one value, each is found by its own. -/
theorem find?_value (hnodup : (records.map InfinitoNexusVersionRecord.value).Nodup)
    (h : r ∈ records) : records.find? (fun record => record.value = r.value) = some r := by
  have hsome : (records.find? fun record => record.value = r.value).isSome = true :=
    List.find?_isSome.mpr ⟨r, h, by simp⟩
  obtain ⟨found, hfound⟩ := Option.isSome_iff_exists.mp hsome
  have hvalue : found.value = r.value := by simpa using List.find?_some hfound
  rw [hfound, List.inj_on_of_nodup_map hnodup (List.mem_of_find?_eq_some hfound) h hvalue]

theorem buildRecords_eq_some (h : buildRecords tags = some records) :
    ∃ tag, records = latestRecord tag :: ordered tags ∧ TagOf tags latest tag := by
  unfold buildRecords at h
  split at h
  · cases h
    refine ⟨_, rfl, ?_⟩
    by_cases hlatest : tags.any isLatest = true
    · rw [if_pos hlatest]
      exact TagOf.latest hlatest
    · rw [if_neg hlatest]
      have hmissing : tags.any isLatest = false := by simpa using hlatest
      cases hordered : ordered tags with
      | nil =>
        refine TagOf.nothing hmissing fun t ht => ?_
        cases hmeaning : meaning t with
        | none => rfl
        | some v =>
          have hfound : (firstTag tags v).isSome = true :=
            List.find?_isSome.mpr ⟨t, ht, by simpa using hmeaning⟩
          obtain ⟨item, hitem⟩ := Option.isSome_iff_exists.mp hfound
          have hmem : versionRecord v item ∈ ordered tags := mem_ordered.mpr ⟨item, hitem, rfl⟩
          rw [hordered] at hmem
          cases hmem
      | cons r rest =>
        have hr : r ∈ ordered tags := by rw [hordered]; exact List.mem_cons_self
        obtain ⟨item, hitem, heq⟩ := mem_ordered.mp hr
        have htag : r.imageTag = strip item := by rw [heq]; rfl
        simp only [List.head?_cons, Option.map_some, Option.getD_some, htag]
        refine TagOf.greatest hmissing hitem fun w t ht hmeaning => ?_
        have hfound : (firstTag tags w).isSome = true :=
          List.find?_isSome.mpr ⟨t, ht, by simpa using hmeaning⟩
        obtain ⟨other, hother⟩ := Option.isSome_iff_exists.mp hfound
        have hmem : versionRecord w other ∈ ordered tags := mem_ordered.mpr ⟨other, hother, rfl⟩
        have hsorted : (ordered tags).Pairwise fun a b => keyOf b.value ≤ keyOf a.value :=
          ordered_pairwise
        rw [hordered] at hmem hsorted
        cases List.mem_cons.mp hmem with
        | inl hself =>
          rw [← hself]
          exact le_refl _
        | inr hrest => exact (List.pairwise_cons.mp hsorted).1 _ hrest
  · cases h

theorem latest_not_mem_ordered (h : r ∈ ordered tags) : r.value ≠ latest :=
  version_ne_latest (value_of_mem_ordered h)

/-- Three versions are fetched, one of them twice, and no latest one. -/
def demoTags : List Text := ["v1.9.0", " v1.10.0", "1.10.0", "ci-7", "v1.2.30"]

def demoRecords : List InfinitoNexusVersionRecord :=
  [latestRecord "v1.10.0", versionRecord "1.10.0" "v1.10.0", versionRecord "1.9.0" "v1.9.0",
    versionRecord "1.2.30" "v1.2.30"]

end Records

/-! ## Images -/

section Images

variable {c : Char} {s t image tag version v : Text}

theorem rfind_of_not_mem (h : c ∉ t) : rfind c t = -1 := if_neg h

theorem rfind_nonneg (h : c ∈ t) : 0 ≤ rfind c t := by
  have hlt : t.reverse.idxOf c < t.length := by
    rw [← List.length_reverse]
    exact List.idxOf_lt_length_iff.mpr (List.mem_reverse.mpr h)
  unfold rfind
  rw [if_pos h]
  omega

theorem rfind_lt (c : Char) (t : Text) : rfind c t < t.length := by
  unfold rfind
  split <;> omega

theorem rfind_append_of_mem (h : c ∈ t) : rfind c (s ++ t) = s.length + rfind c t := by
  unfold rfind
  rw [if_pos h, if_pos (List.mem_append_right _ h), List.reverse_append,
    List.idxOf_append_of_mem (List.mem_reverse.mpr h), List.length_append]
  omega

theorem rfind_append_of_not_mem (h : c ∉ t) : rfind c (s ++ t) = rfind c s := by
  unfold rfind
  by_cases hs : c ∈ s
  · rw [if_pos hs, if_pos (List.mem_append_left _ hs), List.reverse_append,
      List.idxOf_append_of_notMem (fun hmem => h (List.mem_reverse.mp hmem)),
      List.length_append, List.length_reverse]
    omega
  · rw [if_neg hs, if_neg fun hmem => (List.mem_append.mp hmem).elim hs h]

theorem rfind_self (h : c ∉ t) : rfind c (c :: t) = 0 := by
  unfold rfind
  rw [if_pos List.mem_cons_self, List.reverse_cons,
    List.idxOf_append_of_notMem (fun hmem => h (List.mem_reverse.mp hmem)), List.length_reverse,
    List.length_cons]
  simp

/-- What names an image: where it is kept, and which one it is, by a tag, by a digest or by both. A
    colon in the repository is that of a port, and a slash follows. -/
structure Reference where
  repository : Text
  tag : Option Text
  digest : Option Text
  named : repository ≠ []
  portOnly : ':' ∉ repository.rtakeWhile (· ≠ '/')
  noDigest : '@' ∉ repository
  plainTag : ∀ t ∈ tag, ':' ∉ t ∧ '/' ∉ t ∧ '@' ∉ t
  spaceless : ∀ c ∈ repository ++ tag.getD [] ++ digest.getD [], isSpace c = false

namespace Reference

variable (r : Reference)

def tagPart : Text := (r.tag.map (':' :: ·)).getD []

def digestPart : Text := (r.digest.map ('@' :: ·)).getD []

/-- The reference as it is written. -/
def text : Text := r.repository ++ r.tagPart ++ r.digestPart

/-- A colon of the repository is followed by a slash. -/
theorem slash_of_colon {front back : Text} (h : r.repository = front ++ ':' :: back) :
    '/' ∈ back := by
  by_contra hslash
  refine r.portOnly ?_
  unfold List.rtakeWhile
  rw [h, List.reverse_append, List.reverse_cons, List.append_assoc, List.mem_reverse,
    List.takeWhile_append_of_pos]
  · exact List.mem_append_right _ (by simp)
  · intro a ha
    have hne : a ≠ '/' := by
      rintro rfl
      exact hslash (List.mem_reverse.mp ha)
    simpa using hne

theorem colon_before_slash : ¬ rfind '/' r.repository < rfind ':' r.repository := by
  intro hlt
  by_cases hcolon : ':' ∈ r.repository
  · obtain ⟨front, back, hsplit, hlast⟩ := exists_last hcolon
    have hslash := r.slash_of_colon hsplit
    have hcons : '/' ∈ ':' :: back := List.mem_cons_of_mem _ hslash
    have hbehind : rfind '/' (':' :: back) = 1 + rfind '/' back :=
      rfind_append_of_mem (s := [':']) hslash
    rw [hsplit, rfind_append_of_mem hcons, rfind_append_of_mem List.mem_cons_self,
      rfind_self hlast, hbehind] at hlt
    have := rfind_nonneg hslash
    omega
  · rw [rfind_of_not_mem hcolon] at hlt
    by_cases hslash : '/' ∈ r.repository
    · have := rfind_nonneg hslash
      omega
    · rw [rfind_of_not_mem hslash] at hlt
      omega

theorem takeWhile_text : r.text.takeWhile (· ≠ '@') = r.repository ++ r.tagPart := by
  have hfront : ∀ c ∈ r.repository ++ r.tagPart, decide (c ≠ '@') = true := by
    intro c hc
    rw [decide_eq_true_eq]
    rintro rfl
    cases List.mem_append.mp hc with
    | inl hrepository => exact r.noDigest hrepository
    | inr htag =>
      unfold tagPart at htag
      cases hr : r.tag with
      | none =>
        rw [hr] at htag
        cases htag
      | some t =>
        rw [hr] at htag
        cases List.mem_cons.mp htag with
        | inl hcolon => exact absurd hcolon (by decide)
        | inr hmem => exact (r.plainTag t hr).2.2 hmem
  unfold text
  rw [List.takeWhile_append_of_pos hfront]
  have hdigest : r.digestPart.takeWhile (· ≠ '@') = [] := by
    unfold digestPart
    cases r.digest with
    | none => rfl
    | some d => exact List.takeWhile_cons_of_neg (by decide)
  rw [hdigest, List.append_nil]

theorem mem_text (h : c ∈ r.text) :
    c ∈ r.repository ++ r.tag.getD [] ++ r.digest.getD [] ∨ c = ':' ∨ c = '@' := by
  unfold text tagPart digestPart at h
  cases hr : r.tag <;> cases hd : r.digest <;> rw [hr, hd] at h <;> simp at h ⊢ <;> tauto

theorem strip_text : strip r.text = r.text := by
  refine strip_of_no_space fun c hc => ?_
  obtain hmem | rfl | rfl := r.mem_text hc
  · exact r.spaceless c hmem
  · decide
  · decide

theorem text_ne_nil : r.text ≠ [] := by
  unfold text
  intro h
  exact r.named (List.append_eq_nil_iff.mp (List.append_eq_nil_iff.mp h).1).1

theorem digest_of_mem (h : '@' ∈ r.text) : r.digest.isSome = true := by
  cases hd : r.digest with
  | some d => rfl
  | none =>
    exfalso
    have hfront : r.text = r.repository ++ r.tagPart := by
      unfold text digestPart
      rw [hd]
      exact List.append_nil _
    rw [← r.takeWhile_text] at hfront
    rw [hfront] at h
    exact absurd (List.mem_takeWhile_imp h) (by decide)

/-- **The tag is put where a tag belongs**: behind the repository, port and all, in place of the tag
    and the digest. -/
theorem replaceImageTag_text (tag : Text) :
    replaceImageTag r.text tag = .ok (r.repository ++ ':' :: tag) := by
  unfold replaceImageTag
  simp only [r.strip_text, if_neg r.text_ne_nil, r.takeWhile_text]
  unfold tagPart
  cases hr : r.tag with
  | none =>
    simp only [Option.map_none, Option.getD_none, List.append_nil, if_neg r.colon_before_slash]
  | some t =>
    obtain ⟨hcolon, hslash, -⟩ := r.plainTag t hr
    have hslash' : '/' ∉ ':' :: t := by
      rw [List.mem_cons, not_or]
      exact ⟨by decide, hslash⟩
    have hcut : rfind ':' (r.repository ++ ':' :: t) = r.repository.length := by
      rw [rfind_append_of_mem List.mem_cons_self, rfind_self hcolon]
      omega
    have hbefore : rfind '/' (r.repository ++ ':' :: t) < (r.repository.length : Int) := by
      rw [rfind_append_of_not_mem hslash']
      exact rfind_lt _ _
    simp only [Option.map_some, Option.getD_some, hcut, if_pos hbefore, Int.toNat_natCast,
      List.take_left]

end Reference

/-- What is given to a job that asks for a version, of a list that was made of tags. -/
theorem resolveJobRunnerImage_eq_ok {records : List InfinitoNexusVersionRecord} {r : Reference}
    (h : resolveJobRunnerImage records version r.text = .ok image) :
    ∃ v, normalizeInfinitoNexusVersion version = .ok v ∧
      (v = latest ∧ r.digest.isSome = true ∧ image = r.text ∨
        ∃ record, resolveInfinitoNexusRecord records version = .ok record ∧ record.value = v ∧
          image = r.repository ++ ':' :: record.imageTag) := by
  unfold resolveJobRunnerImage at h
  cases hversion : normalizeInfinitoNexusVersion version with
  | error e =>
    rw [hversion] at h
    cases h
  | ok v =>
    rw [hversion] at h
    refine ⟨v, rfl, ?_⟩
    simp only at h
    split at h
    · rename_i hpinned
      cases h
      exact Or.inl ⟨hpinned.2, r.digest_of_mem hpinned.1, r.strip_text⟩
    · split at h
      · cases h
      · rename_i record hrecord
        rw [r.replaceImageTag_text] at h
        cases h
        obtain ⟨w, hw, hfound⟩ := resolve_eq_ok.mp hrecord
        rw [normalize_normalized hversion, Except.ok.injEq] at hw
        subst hw
        refine Or.inr ⟨record, resolve_eq_ok.mpr ⟨v, hversion, hfound⟩, ?_, rfl⟩
        simpa using List.find?_some hfound

end Images

/-! ## Runs of the cache -/

section Runs

variable {ttl : Nat} {s s' : VersionCache} {act : VersionAct} {acts : List VersionAct}
  {fetched : List (List Text)} {listing : Listing} {a : VersionAnswer}

/-- A list is made of tags that were fetched, or stands in for one. -/
structure Listing.Made (fetched : List (List Text)) (listing : Listing) : Prop where
  built : ∀ tags, listing.tags = some tags →
    tags ∈ fetched ∧ buildRecords tags = some listing.records
  standsIn : listing.tags = none → listing.records = [latestRecord latest]

theorem Listing.Made.mono {tags : List Text} (h : listing.Made fetched) :
    listing.Made (tags :: fetched) :=
  ⟨fun made hmade => ⟨List.mem_cons_of_mem _ (h.built made hmade).1, (h.built made hmade).2⟩,
    h.standsIn⟩

theorem made_fallback (now : Int) : (fallback now).Made fetched where
  built tags htags := by cases htags
  standsIn _ := rfl

/-- Not past its time when it was asked for. -/
def VersionAnswer.Fresh (ttl : Nat) (a : VersionAnswer) : Prop :=
  0 < ttl → a.failed = false → a.asked < a.listing.begun + ttl * RateLimits.second

structure VersionCache.Good (ttl : Nat) (s : VersionCache) : Prop where
  cached : ∀ listing, s.cached = some listing → listing.Made s.fetched ∧
    (0 < ttl → s.expiresAt = listing.begun + ttl * RateLimits.second)
  calls : ∀ c call listing, s.calls c = some call → call.listing = some listing →
    listing.Made s.fetched
  returned : ∀ a ∈ s.returned, a.listing.Made s.fetched ∧ a.Fresh ttl

/-- A call moves on to a list that is made of what was fetched. -/
theorem VersionCache.Good.goto (h : s.Good ttl) (c : Nat) (call : Option VersionCall)
    (hcall : ∀ listing, (call.bind VersionCall.listing) = some listing → listing.Made s.fetched) :
    VersionCache.Good ttl { s with calls := Function.update s.calls c call } where
  cached := h.cached
  calls d other listing hd hlisting := by
    replace hd : Function.update s.calls c call d = some other := hd
    by_cases heq : d = c
    · rw [heq, Function.update_self] at hd
      refine hcall listing ?_
      rw [hd]
      exact hlisting
    · rw [Function.update_of_ne heq] at hd
      exact h.calls d other listing hd hlisting
  returned := h.returned

theorem VersionCache.Good.answer (h : s.Good ttl) (ha : a.listing.Made s.fetched)
    (hfresh : a.Fresh ttl) : VersionCache.Good ttl { s with returned := a :: s.returned } where
  cached := h.cached
  calls := h.calls
  returned b hb := by
    cases List.mem_cons.mp hb with
    | inl hab =>
      rw [hab]
      exact ⟨ha, hfresh⟩
    | inr hmem => exact h.returned b hmem

theorem VersionCache.Good.fetch (h : s.Good ttl) (tags : List Text) :
    VersionCache.Good ttl { s with fetched := tags :: s.fetched } where
  cached listing hlisting := ⟨(h.cached listing hlisting).1.mono, (h.cached listing hlisting).2⟩
  calls c call listing hcall hlisting := (h.calls c call listing hcall hlisting).mono
  returned a ha := ⟨(h.returned a ha).1.mono, (h.returned a ha).2⟩

/-- The expiry is that of the list, whichever call was overtaken by whichever. -/
theorem VersionCache.Good.store (h : s.Good ttl) (hlisting : listing.Made s.fetched) :
    VersionCache.Good ttl { s with
      cached := some listing
      expiresAt :=
        if 0 < ttl then listing.begun + ttl * RateLimits.second else listing.begun } where
  cached other hother := by
    cases hother
    exact ⟨hlisting, fun hpos => if_pos hpos⟩
  calls := h.calls
  returned := h.returned

theorem usable_eq_some {cached : Option Listing} (h : usable cached = some listing) :
    cached = some listing := (Option.filter_eq_some_iff.mp h).1

theorem builtFrom_eq_some {fetchedTags : Option (List Text)} {tags : List Text}
    {records : List InfinitoNexusVersionRecord} (h : builtFrom fetchedTags = some (tags, records)) :
    buildRecords tags = some records := by
  unfold builtFrom at h
  obtain ⟨given, -, hbuilt⟩ := Option.bind_eq_some_iff.mp h
  obtain ⟨built, hrecords, heq⟩ := Option.map_eq_some_iff.mp hbuilt
  cases heq
  exact hrecords

theorem good_init : VersionCache.init.Good ttl where
  cached listing h := by cases h
  calls c call listing h := by cases h
  returned a h := by cases h

theorem good_step (h : s.Good ttl) (hstep : s.step ttl act = some s') : s'.Good ttl := by
  unfold VersionCache.step at hstep
  cases act with
  | list c forceRefresh now =>
    simp only at hstep
    split at hstep
    · cases hstep
    · split at hstep
      · rename_i listing hlisting
        cases hstep
        obtain ⟨husable, htest⟩ := Option.filter_eq_some_iff.mp hlisting
        obtain ⟨hmade, hexpiry⟩ := h.cached listing (usable_eq_some husable)
        refine h.answer hmade fun hpos _ => ?_
        simp only [Bool.and_eq_true, Bool.or_eq_true, beq_iff_eq, decide_eq_true_eq] at htest
        rw [← hexpiry hpos]
        exact htest.2.resolve_left (Nat.ne_of_gt hpos)
      · cases hstep
        exact h.goto c _ fun listing hlisting => (h.cached listing hlisting).1
  | fetch c packageTags repoTags =>
    simp only at hstep
    split at hstep
    · rename_i cached now hcall
      split at hstep
      · rename_i tags records hbuilt
        cases hstep
        have hrecords : buildRecords tags = some records := by
          cases hpackage : builtFrom packageTags with
          | none =>
            rw [hpackage, Option.none_or] at hbuilt
            exact builtFrom_eq_some hbuilt
          | some built =>
            rw [hpackage, Option.some_or] at hbuilt
            rw [hbuilt] at hpackage
            exact builtFrom_eq_some hpackage
        refine (h.fetch tags).goto c _ fun listing hlisting => ?_
        cases hlisting
        refine ⟨fun made hmade => ?_, fun hnone => by cases hnone⟩
        cases hmade
        exact ⟨List.mem_cons_self, hrecords⟩
      · split at hstep
        · rename_i listing husable
          cases hstep
          have hmade := h.calls c _ listing hcall (usable_eq_some husable)
          have hgone := h.goto c none fun other hother => by cases hother
          exact hgone.answer (a := ⟨listing, now, true⟩) hmade fun _ hfailed => by cases hfailed
        · cases hstep
          refine h.goto c _ fun listing hlisting => ?_
          cases hlisting
          exact made_fallback now
    · cases hstep
  | store c =>
    simp only at hstep
    split at hstep
    · rename_i listing failed hcall
      cases hstep
      have hmade := h.calls c _ listing hcall rfl
      have hgone := (h.store hmade).goto c none fun other hother => by cases hother
      refine hgone.answer (a := ⟨listing, listing.begun, failed⟩) hmade fun hpos _ => ?_
      show listing.begun < listing.begun + ttl * RateLimits.second
      have hsecond : (0 : Int) < ttl * RateLimits.second :=
        Int.mul_pos (Int.natCast_pos.mpr hpos) (by decide)
      omega
    · cases hstep

theorem good_of_run (h : run (VersionCache.step ttl) VersionCache.init acts = some s) :
    s.Good ttl :=
  run_inv (fun _ _ _ hs hstep => good_step hs hstep) good_init h

/-- **No list is past its time**, in whatever order the calls that fetch one store it: what is
    returned was fetched by a call that began within the time to live, unless it could not be
    fetched again. -/
theorem lists_fresh (h : run (VersionCache.step ttl) VersionCache.init acts = some s)
    (hpos : 0 < ttl) (ha : a ∈ s.returned) (hfetched : a.failed = false) :
    a.asked < a.listing.begun + ttl * RateLimits.second ∧ a.listing.Made s.fetched :=
  ⟨((good_of_run h).returned a ha).2 hpos hfetched, ((good_of_run h).returned a ha).1⟩

def olderTags : List Text := ["v1.9.0"]

def demoOlder : Listing where
  records := [latestRecord "v1.9.0", versionRecord "1.9.0" "v1.9.0"]
  begun := 0
  tags := some olderTags

/-- The first call is overtaken by the second, and then stores what is older. -/
def overtakenList : List VersionAct :=
  [.list 0 false 0, .list 1 false (10 * RateLimits.second), .fetch 1 none (some demoTags), .store 1,
    .fetch 0 (some olderTags) none, .store 0, .list 2 false (20 * RateLimits.second)]

theorem demo_portOnly :
    ':' ∉ "localhost:5000/core".toList.rtakeWhile fun c => decide (c ≠ '/') := by decide

theorem demo_noDigest : '@' ∉ "localhost:5000/core".toList := by decide

theorem demo_plainTag : ∀ t ∈ some "edge".toList, ':' ∉ t ∧ '/' ∉ t ∧ '@' ∉ t := by decide

def demoImage : Reference where
  repository := "localhost:5000/core"
  tag := some "edge"
  digest := none
  named := List.cons_ne_nil _ _
  portOnly := demo_portOnly
  noDigest := demo_noDigest
  plainTag := demo_plainTag
  spaceless := no_space_of_all rfl

/-- What the third call is given. -/
def demoAnswer : VersionAnswer := ⟨demoOlder, 20 * RateLimits.second, false⟩

theorem overtaken_runs : ∃ s,
    run (VersionCache.step 900) VersionCache.init overtakenList = some s ∧
      demoAnswer ∈ s.returned := by
  refine ⟨_, rfl, ?_⟩
  exact List.mem_cons_self

theorem lists_fresh_overtaken : ∃ s,
    run (VersionCache.step 900) VersionCache.init overtakenList = some s ∧
      demoAnswer.asked < demoOlder.begun + (900 : Nat) * RateLimits.second ∧
      demoOlder.Made s.fetched := by
  obtain ⟨s, hrun, ha⟩ := overtaken_runs
  exact ⟨s, hrun, lists_fresh hrun (by decide) ha rfl⟩

end Runs

end Infinito.Runner
