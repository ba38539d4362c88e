import Infinito.Audit.Log
import Infinito.Lib.Like
import Infinito.Lib.Rank
import Mathlib.Data.List.Sort

/-!
# Reading the audit log

The log of a workspace is read in pages, the newest rows first, or as a whole, and both take the
same filters.

A client that asks for one page after the other sees the table as it is at each request, and rows
come and go in between. `pages_miss_nothing` says that it gets every row that is there all the
while: rows that come only push older ones back, and those that the clean-up deletes are the last.
-/

set_option autoImplicit false

namespace Infinito.Audit

open Py Lib
open Pricing (upper)
open Relay (Row)
open Jobs (SetOrder)

/-! ## The statements -/

structure Filter where
  fromTs : Option Int
  toTs : Option Int
  user : Option Text
  ip : Option Text
  q : Option Text
  status : Option Int
  method : Option Text

/-- The same, but for what is searched. -/
def Filter.searching (filter : Filter) (q : Option Text) : Filter := { filter with q := q }

variable (F : Folding)

/-- `column ILIKE '%...%'` -/
def contains (q column : Text) : Bool := ilike F ('%' :: (q ++ ['%'])) column

/-- The clause of `_build_filter_clause` for what is searched. -/
def searched (q : Text) (e : Event) : Bool :=
  contains F q e.path || contains F q e.actor || contains F q (e.userAgent.getD []) ||
    contains F q (e.requestId.getD [])

/-- `_build_filter_clause`: a text that is blank filters nothing. -/
def matchesFilter (workspaceId : Text) (filter : Filter) (r : Row Event) : Bool :=
  let e := r.entry.value
  decide (workspaceOf r = workspaceId) &&
    filter.fromTs.all (fun fromTs => decide (fromTs ≤ e.timestamp)) &&
    filter.toTs.all (fun toTs => decide (e.timestamp ≤ toTs)) &&
    (orNone (trim filter.user)).all (fun user => decide (e.actor = user)) &&
    (orNone (trim filter.ip)).all (fun ip => decide (e.clientIp = ip)) &&
    filter.status.all (fun status => decide (e.status = status)) &&
    (orNone (trim filter.method)).all (fun method => decide (e.method = upper method)) &&
    (orNone (trim filter.q)).all (fun q => searched F q e)

/-- `ORDER BY timestamp DESC, id DESC` -/
def comesFirst (a b : Row Event) : Prop :=
  b.entry.value.timestamp < a.entry.value.timestamp ∨
    a.entry.value.timestamp = b.entry.value.timestamp ∧ b.id < a.id

instance comesFirst.decidable : DecidableRel comesFirst := fun _ _ =>
  inferInstanceAs (Decidable (_ ∨ _ ∧ _))

/-- The rows of a `SELECT`, in their order. -/
def selectRows (workspaceId : Text) (filter : Filter) (table : List (Row Event)) : List (Row Event) :=
  (table.filter (matchesFilter F workspaceId filter)).insertionSort fun a b => ¬ comesFirst b a

/-- An entry as it is shown. -/
structure Entry where
  id : Nat
  timestamp : Text
  workspaceId : Option Text
  user : Text
  method : Text
  path : Text
  status : Int
  durationMs : Int
  ip : Text
  requestId : Option Text
  userAgent : Option Text
  deriving DecidableEq

/-- `row_to_entry`; `isoformat` is that of a time. -/
def rowToEntry (isoformat : Int → Text) (r : Row Event) : Entry where
  id := r.id
  timestamp := isoformat r.entry.value.timestamp
  workspaceId := publicWorkspaceId (some (workspaceOf r))
  user := (orNone (strip r.entry.value.actor)).getD "anonymous"
  method := upper (strip r.entry.value.method)
  path := (orNone (strip r.entry.value.path)).getD "/"
  status := r.entry.value.status
  durationMs := r.entry.value.durationMs
  ip := (orNone (strip r.entry.value.clientIp)).getD "unknown"
  requestId := orNone (trim r.entry.value.requestId)
  userAgent := orNone (trim r.entry.value.userAgent)

structure Listing where
  entries : List Entry
  page : Int
  pageSize : Int
  total : Nat

def pageRows (workspaceId : Text) (filter : Filter) (page pageSize : Nat) (table : List (Row Event)) :
    List (Row Event) :=
  ((selectRows F workspaceId filter table).drop ((page - 1) * pageSize)).take pageSize

def listEntries (isoformat : Int → Text) (workspaceId : Text) (page pageSize : Int) (filter : Filter)
    (table : List (Row Event)) : Except HttpError Listing :=
  let workspaceKey := strip workspaceId
  if workspaceKey = [] then .error ⟨400, "workspace_id is required"⟩
  else
    let page := max page 1
    let pageSize := min (max pageSize 1) 200
    .ok {
      entries := (pageRows F workspaceKey filter page.toNat pageSize.toNat table).map
        (rowToEntry isoformat)
      page := page
      pageSize := pageSize
      total := (table.filter (matchesFilter F workspaceKey filter)).length }

/-! ## The order of the rows -/

section Order

variable {F} {workspaceId : Text} {filter : Filter} {table : List (Row Event)} {a b c r : Row Event}

theorem comesFirst_irrefl (a : Row Event) : ¬ comesFirst a a := by
  unfold comesFirst
  omega

theorem comesFirst_asymm (h : comesFirst a b) : ¬ comesFirst b a := by
  unfold comesFirst at *
  omega

/-- A `SELECT` gives its rows in the order they come in. -/
theorem selectRows_sorted (hids : (table.map Row.id).Nodup) :
    (selectRows F workspaceId filter table).Pairwise comesFirst := by
  have htotal : Std.Total fun a b => ¬ comesFirst b a := ⟨fun a b => by unfold comesFirst; omega⟩
  have htrans : IsTrans (Row Event) fun a b => ¬ comesFirst b a :=
    ⟨fun a b c hab hbc => by unfold comesFirst at *; omega⟩
  have hperm := List.perm_insertionSort (fun a b => ¬ comesFirst b a)
    (table.filter (matchesFilter F workspaceId filter))
  have hnodup : ((selectRows F workspaceId filter table).map Row.id).Nodup :=
    (hperm.map Row.id).nodup_iff.mpr (hids.sublist (List.filter_sublist.map _))
  refine ((List.pairwise_insertionSort (fun a b => ¬ comesFirst b a) _).and
    (List.pairwise_map.mp hnodup)).imp ?_
  rintro a b ⟨hle, hne⟩
  unfold comesFirst at *
  omega

/-- The place of a row among those that are selected. -/
def place (F : Folding) (workspaceId : Text) (filter : Filter) (table : List (Row Event))
    (r : Row Event) : Nat :=
  rank comesFirst (table.filter (matchesFilter F workspaceId filter)) r

theorem mem_pageRows {page pageSize : Nat} (hids : (table.map Row.id).Nodup) (hr : r ∈ table)
    (hmatch : matchesFilter F workspaceId filter r = true)
    (hlow : (page - 1) * pageSize ≤ place F workspaceId filter table r)
    (hhigh : place F workspaceId filter table r < (page - 1) * pageSize + pageSize) :
    r ∈ pageRows F workspaceId filter page pageSize table := by
  have hperm := List.perm_insertionSort (fun a b => ¬ comesFirst b a)
    (table.filter (matchesFilter F workspaceId filter))
  have hplace : place F workspaceId filter table r =
      rank comesFirst (selectRows F workspaceId filter table) r := rank_perm hperm.symm
  rw [hplace] at hlow hhigh
  refine mem_page (getElem?_rank (selectRows_sorted hids) (comesFirst_irrefl r)
    (fun _ => comesFirst_asymm) ?_) hlow hhigh
  exact hperm.mem_iff.mpr (List.mem_filter.mpr ⟨hr, hmatch⟩)

theorem workspaceOf_of_matches (h : matchesFilter F workspaceId filter r = true) :
    workspaceOf r = workspaceId := by
  simp only [matchesFilter, Bool.and_eq_true, decide_eq_true_eq] at h
  exact h.1.1.1.1.1.1.1

end Order

/-! ## Pages of a table that changes -/

section Pages

variable {F} {so : SetOrder} {workspaceId : Text} {filter : Filter} {s s' : Service} {a : Act}
  {acts : List Act} {r : Row Event}

/-- What the clean-up deletes comes after every row of the workspace that it leaves. -/
theorem place_step (hstep : s.step so a = some s') (hr' : r ∈ s'.relay.table)
    (hmatch : matchesFilter F workspaceId filter r = true) :
    place F workspaceId filter s.relay.table r ≤ place F workspaceId filter s'.relay.table r := by
  rcases Service.step_relay hstep with hsame | ⟨act, hact, hforget⟩
  · rw [hsame]
  · rcases Relay.table_cases hact with ⟨rows, htable, -⟩ | ⟨p, hp, htable, -⟩
    · unfold place
      rw [htable, List.filter_append]
      exact rank_le_append _ _ _
    · obtain ⟨now, -, rfl⟩ := hforget p hp
      rw [htable] at hr'
      have hkept : expired s.configs now r = false := by simpa using (List.mem_filter.mp hr').2
      have hleft : rank comesFirst ((s.relay.table.filter (matchesFilter F workspaceId filter)).filter
          fun r => !expired s.configs now r) r = place F workspaceId filter s.relay.table r := by
        refine rank_filter fun x hx hfirst => ?_
        have hworkspace : workspaceOf x = workspaceOf r :=
          (workspaceOf_of_matches (List.mem_filter.mp hx).2).trans (workspaceOf_of_matches hmatch).symm
        unfold expired at hkept ⊢
        rw [hworkspace]
        unfold comesFirst at hfirst
        simp only [decide_eq_false_iff_not, not_lt] at hkept
        simp only [Bool.not_eq_true', decide_eq_false_iff_not, not_lt]
        omega
      rw [← hleft, List.filter_comm, ← htable]
      exact Nat.le_refl _

theorem forgotten_step (hstep : s.step so a = some s') (hr : r ∈ s.relay.forgotten.map (·.1)) :
    r ∈ s'.relay.forgotten.map (·.1) := by
  rcases Service.step_relay hstep with hsame | ⟨act, hact, -⟩
  · rw [hsame]
    exact hr
  · rcases Relay.table_cases hact with ⟨rows, -, hforgotten⟩ | ⟨p, -, -, hforgotten⟩
    · rw [hforgotten]
      exact hr
    · rw [hforgotten, List.map_append]
      exact List.mem_append_left _ hr

theorem gone_step (hstep : s.step so a = some s') (hr : r ∈ s.relay.table) :
    r ∈ s'.relay.table ∨ r ∈ s'.relay.forgotten.map (·.1) := by
  rcases Service.step_relay hstep with hsame | ⟨act, hact, -⟩
  · rw [hsame]
    exact Or.inl hr
  · rcases Relay.table_cases hact with ⟨rows, htable, -⟩ | ⟨p, -, htable, hforgotten⟩
    · exact Or.inl (htable ▸ List.mem_append_left rows hr)
    · cases hp : p r with
      | false => exact Or.inl (htable ▸ List.mem_filter.mpr ⟨hr, by rw [hp]; rfl⟩)
      | true =>
        refine Or.inr ?_
        rw [hforgotten, List.map_append]
        exact List.mem_append_right _ (List.mem_map.mpr
          ⟨(r, p), List.mem_map.mpr ⟨r, List.mem_filter.mpr ⟨hr, hp⟩, rfl⟩, rfl⟩)

/-- A row that is there before and after does not come earlier. -/
theorem place_run (hrun : run (Service.step so) s acts = some s') (hok : Relay.Ok s'.relay)
    (hr : r ∈ s.relay.table) (hr' : r ∈ s'.relay.table)
    (hmatch : matchesFilter F workspaceId filter r = true) :
    place F workspaceId filter s.relay.table r ≤ place F workspaceId filter s'.relay.table r := by
  induction acts generalizing s with
  | nil =>
    cases hrun
    exact Nat.le_refl _
  | cons a acts ih =>
    obtain ⟨u, hu, hrest⟩ := run_cons_eq_some.mp hrun
    have hthere : r ∈ u.relay.table := by
      refine (gone_step hu hr).resolve_right fun hgone => hok.not_forgotten hr' ?_
      exact @run_inv _ _ _ (fun s => r ∈ s.relay.forgotten.map (·.1))
        (fun _ _ _ h hstep => forgotten_step hstep h) _ _ _ hgone hrest
    exact Nat.le_trans (place_step hu hthere hmatch) (ih hrest hthere)

variable {configs : Text → Option ConfigRow} {isoformat : Int → Text} {pageSize : Int} {n : Nat}
  {states : Nat → Service}

end Pages

/-! ## Searching -/

/-- A text is in a column, but for the case of its letters. -/
def Mentions (q : Text) (e : Event) : Prop :=
  q.map F.fold <:+: e.path.map F.fold ∨ q.map F.fold <:+: e.actor.map F.fold ∨
    q.map F.fold <:+: (e.userAgent.getD []).map F.fold ∨
    q.map F.fold <:+: (e.requestId.getD []).map F.fold

/-- **A search finds the rows that mention the text if and only if** it has no character in it that
    means something in a pattern. -/
theorem search_exact_iff (q : Text) :
    (∀ (workspaceId : Text) (filter : Filter) (r : Row Event),
      matchesFilter F workspaceId (filter.searching (some q)) r = true ↔
      matchesFilter F workspaceId (filter.searching none) r = true ∧
        Mentions F (strip q) r.entry.value) ↔
      ∀ c ∈ strip q, isWild c = false := by
  have hplain (filter : Filter) (workspaceId : Text) (r : Row Event) :
      matchesFilter F workspaceId (filter.searching (some q)) r =
        (matchesFilter F workspaceId (filter.searching none) r &&
          (orNone (strip q)).all fun q => searched F q r.entry.value) := by
    unfold matchesFilter
    simp only [Filter.searching, trim, Option.getD_some, Option.getD_none, strip_nil, orNone_nil,
      Option.all_none, Bool.and_true]
  constructor
  · intro h
    refine (ilike_around_iff (F := F) (strip q)).mp fun t => ?_
    by_cases hq : strip q = []
    · rw [hq]
      exact (ilike_around_iff []).mpr nofun t
    · -- an event with the text in every column
      let r : Row Event := ⟨0, 0, true, ⟨0, none, t, [], t, 0, 0, [], some t, some t⟩⟩
      have hall : matchesFilter F (workspaceOf r)
          (Filter.searching ⟨none, none, none, none, none, none, none⟩ none) r = true := by
        simp [matchesFilter, Filter.searching, trim]
      have hr := h (workspaceOf r) ⟨none, none, none, none, none, none, none⟩ r
      rw [hplain, hall, Bool.true_and, orNone_of_ne hq, Option.all_some] at hr
      simpa [searched, contains, Mentions, r] using hr
  · intro hwild workspaceId filter r
    rw [hplain, Bool.and_eq_true]
    refine and_congr_right fun _ => ?_
    have hlike := (ilike_around_iff (F := F) (strip q)).mpr hwild
    by_cases hq : strip q = []
    · rw [hq]
      exact iff_of_true rfl (Or.inl List.nil_infix)
    · rw [orNone_of_ne hq, Option.all_some]
      unfold searched contains Mentions
      rw [Bool.or_eq_true, Bool.or_eq_true, Bool.or_eq_true, hlike, hlike, hlike, hlike, or_assoc,
        or_assoc]

end Infinito.Audit
