import Infinito.Lib.Run
import Infinito.Lib.Tree
import Infinito.RateLimits.Deployments

/-!
# The lock of a workspace

`workspace_write_lock` keeps a lock for each id, without the blanks around it. `ensure` finds the
directory of the id in lower case as well. So an id that is spelled in upper case leads to the
workspace of the one in lower case, and has a lock of its own.

`one_lock_iff` says for which ids the two agree: a request that holds the lock of a workspace shuts
out the others exactly if no two ids in use differ in more than the blanks around them.
-/

set_option autoImplicit false

namespace Infinito.Workspace

open Py Lib
open RateLimits (sanitizeWorkspaceId isLegacyId isUuid4 isHex uuid4Shape)

/-! ## The table of the locks -/

/-- `_workspace_locks`. A lock is the number that it was made as. -/
structure LockTable where
  locks : List (Text × Nat)
  made : Nat

/-- `workspace_write_lock`, up to the lock that it takes; nothing if it raises a `ValueError`. -/
def workspaceWriteLock (workspaceId : Text) (table : LockTable) : Option (Nat × LockTable) :=
  let normalized := strip workspaceId
  if normalized = [] then none
  else match Items.get normalized table.locks with
    | some lock => some (lock, table)
    | none => some (table.made, ⟨Items.set normalized table.made table.locks, table.made + 1⟩)

/-- The table after one more call. -/
def LockTable.after (table : LockTable) (workspaceId : Text) : LockTable :=
  match workspaceWriteLock workspaceId table with
  | some (_, next) => next
  | none => table

/-- `ensure`: the name of the directory under the root of the workspaces, which `isDir` tells. -/
def ensureRoot (isDir : Text → Bool) (workspaceId : Text) : Except HttpError Text :=
  match sanitizeWorkspaceId workspaceId with
  | .error e => .error e
  | .ok workspaceKey =>
      if isDir workspaceKey then .ok workspaceKey else .error ⟨404, "workspace not found"⟩

/-- `ensure` resolves both ids to one directory. -/
def SameRoot (a b : Text) : Prop :=
  ∃ isDir root, ensureRoot isDir a = .ok root ∧ ensureRoot isDir b = .ok root

section Table
variable {table : LockTable} {a b : Text} {lock : Nat}

theorem workspaceWriteLock_of_get (h : Items.get (strip a) table.locks = some lock)
    (hne : strip a ≠ []) : workspaceWriteLock a table = some (lock, table) := by
  unfold workspaceWriteLock
  dsimp only
  rw [if_neg hne, h]

/-- The lock that is taken is in the table then. -/
theorem get_of_workspaceWriteLock {table' : LockTable}
    (h : workspaceWriteLock a table = some (lock, table')) :
    strip a ≠ [] ∧ Items.get (strip a) table'.locks = some lock := by
  unfold workspaceWriteLock at h
  dsimp only at h
  split at h
  · cases h
  · rename_i hne
    refine ⟨hne, ?_⟩
    split at h
    · rename_i hget
      cases h
      exact hget
    · cases h
      rw [Items.get_set, if_pos rfl]

/-- A lock stays in the table. -/
theorem get_after {key : Text} (h : Items.get key table.locks = some lock) :
    Items.get key (table.after a).locks = some lock := by
  unfold LockTable.after workspaceWriteLock
  dsimp only
  by_cases hne : strip a = []
  · rw [if_pos hne]
    exact h
  · rw [if_neg hne]
    cases hget : Items.get (strip a) table.locks with
    | some other => exact h
    | none =>
      dsimp only
      rw [Items.get_set]
      split
      · rename_i heq
        rw [heq, hget] at h
        cases h
      · exact h

theorem get_foldl_after {key : Text} (between : List Text)
    (h : Items.get key table.locks = some lock) :
    Items.get key (between.foldl LockTable.after table).locks = some lock := by
  induction between generalizing table with
  | nil => exact h
  | cons other between ih => exact ih (get_after h)

end Table

/-! ## Requests that wait for a lock -/

/-- A thread with the lock of an id. -/
structure Section where
  thread : Nat
  lock : Nat
  workspaceId : Text

structure Locking where
  table : LockTable
  waiting : List Section
  held : List Section

def Locking.init : Locking := ⟨⟨[], 0⟩, [], []⟩

inductive LockAct where
  /-- `workspace_write_lock` is called -/
  | ask (thread : Nat) (workspaceId : Text)
  /-- the lock is free, or the thread has it already -/
  | acquire (thread : Nat)
  | release (thread : Nat)

def Locking.step (s : Locking) : LockAct → Option Locking
  | .ask thread workspaceId =>
      if thread ∈ s.waiting.map (·.thread) then none
      else match workspaceWriteLock workspaceId s.table with
        | none => some s
        | some (lock, table) =>
            some { s with table := table, waiting := ⟨thread, lock, workspaceId⟩ :: s.waiting }
  | .acquire thread => match s.waiting.find? (·.thread = thread) with
      | none => none
      | some entry =>
          if ∀ other ∈ s.held, other.lock = entry.lock → other.thread = thread then
            some { s with
              waiting := s.waiting.filter (·.thread ≠ thread)
              held := entry :: s.held }
          else none
  | .release thread =>
      if thread ∈ s.waiting.map (·.thread) ∨ thread ∉ s.held.map (·.thread) then none
      else some { s with held := s.held.eraseP (·.thread = thread) }

/-! ## One lock for each workspace -/

/-- The ids of one workspace have one lock, whatever calls come in between. -/
def OneLock (ids : Text → Prop) : Prop :=
  ∀ a b, ids a → ids b → SameRoot a b → ∀ (table : LockTable) (between : List Text) lock table',
    workspaceWriteLock a table = some (lock, table') → ∃ table'',
      workspaceWriteLock b (between.foldl LockTable.after table') = some (lock, table'')

/-- No two threads hold the lock of one workspace. -/
def Locking.Exclusive (s : Locking) : Prop :=
  ∀ entry ∈ s.held, ∀ other ∈ s.held, entry.thread ≠ other.thread →
    ¬ SameRoot entry.workspaceId other.workspaceId

/-- Threads that use these ids exclude each other. -/
def Excluding (ids : Text → Prop) : Prop :=
  ∀ as s, (∀ thread workspaceId, LockAct.ask thread workspaceId ∈ as → ids workspaceId) →
    run Locking.step Locking.init as = some s → s.Exclusive

/-- The ids of one workspace differ in the blanks around them only. -/
def OneSpelling (ids : Text → Prop) : Prop :=
  ∀ a b, ids a → ids b → SameRoot a b → strip a = strip b

section Iff
variable {ids : Text → Prop} {s s' : Locking} {act : LockAct}

theorem oneLock_of_oneSpelling (h : OneSpelling ids) : OneLock ids := by
  intro a b ha hb hroot table between lock table' hlock
  obtain ⟨hne, hget⟩ := get_of_workspaceWriteLock hlock
  have hsame := h a b ha hb hroot
  rw [hsame] at hne hget
  exact ⟨_, workspaceWriteLock_of_get (get_foldl_after between hget) hne⟩

/-- What holds of a run: every lock is the one of its id, and those who hold one lock are one
    thread. -/
structure Locking.Good (ids : Text → Prop) (s : Locking) : Prop where
  used : ∀ entry ∈ s.waiting ++ s.held, ids entry.workspaceId
  known : ∀ entry ∈ s.waiting ++ s.held,
    Items.get (strip entry.workspaceId) s.table.locks = some entry.lock
  alone : ∀ entry ∈ s.held, ∀ other ∈ s.held, entry.lock = other.lock → entry.thread = other.thread

theorem good_init : Locking.init.Good ids := ⟨nofun, nofun, nofun⟩

/-- What stays of the sections stays good. -/
theorem Locking.Good.mono {table : LockTable} {waiting held : List Section} (h : s.Good ids)
    (hsub : waiting ++ held ⊆ s.waiting ++ s.held) (hheld : held ⊆ s.held)
    (htable : table = s.table) : Locking.Good ids ⟨table, waiting, held⟩ := by
  subst htable
  exact ⟨fun entry hentry => h.used entry (hsub hentry),
    fun entry hentry => h.known entry (hsub hentry),
    fun entry hentry other hother => h.alone entry (hheld hentry) other (hheld hother)⟩

theorem good_step (h : s.Good ids) (hact : ∀ thread workspaceId,
    act = .ask thread workspaceId → ids workspaceId) (hstep : s.step act = some s') :
    s'.Good ids := by
  cases act with
  | ask thread workspaceId =>
    rw [Locking.step] at hstep
    split at hstep
    · cases hstep
    · split at hstep
      · cases hstep
        exact h
      · rename_i lock table hlock
        cases hstep
        have hafter : table = s.table.after workspaceId := by
          unfold LockTable.after
          rw [hlock]
        refine ⟨?_, ?_, h.alone⟩
        · intro entry hentry
          rcases List.mem_cons.mp hentry with rfl | hentry
          · exact hact thread workspaceId rfl
          · exact h.used entry hentry
        · intro entry hentry
          rcases List.mem_cons.mp hentry with rfl | hentry
          · exact (get_of_workspaceWriteLock hlock).2
          · rw [hafter]
            exact get_after (h.known entry hentry)
  | acquire thread =>
    rw [Locking.step] at hstep
    split at hstep
    · cases hstep
    · rename_i entry hentry
      split at hstep
      · rename_i hfree
        cases hstep
        have hmem := List.mem_of_find?_eq_some hentry
        have hthread : entry.thread = thread := by simpa using List.find?_some hentry
        have hsub : s.waiting.filter (·.thread ≠ thread) ++ entry :: s.held ⊆
            s.waiting ++ s.held := by
          intro other hother
          rcases List.mem_append.mp hother with hother | hother
          · exact List.mem_append_left _ (List.mem_of_mem_filter hother)
          · rcases List.mem_cons.mp hother with rfl | hother
            · exact List.mem_append_left _ hmem
            · exact List.mem_append_right _ hother
        refine ⟨fun other hother => h.used other (hsub hother),
          fun other hother => h.known other (hsub hother), ?_⟩
        intro one hone other hother hlock
        rcases List.mem_cons.mp hone with heq | hone'
        · rcases List.mem_cons.mp hother with heq' | hother'
          · rw [heq, heq']
          · rw [heq] at hlock ⊢
            rw [hthread]
            exact (hfree other hother' hlock.symm).symm
        · rcases List.mem_cons.mp hother with heq' | hother'
          · rw [heq'] at hlock ⊢
            rw [hthread]
            exact hfree one hone' hlock
          · exact h.alone one hone' other hother' hlock
      · cases hstep
  | release thread =>
    rw [Locking.step] at hstep
    split at hstep
    · cases hstep
    · cases hstep
      refine h.mono (fun other hother => ?_) List.eraseP_subset rfl
      rcases List.mem_append.mp hother with hother | hother
      · exact List.mem_append_left _ hother
      · exact List.mem_append_right _ (List.eraseP_subset hother)

theorem good_run {as : List LockAct} (h : s.Good ids) (hids : ∀ thread workspaceId,
    LockAct.ask thread workspaceId ∈ as → ids workspaceId) (hrun : run Locking.step s as = some s') :
    s'.Good ids := by
  induction as generalizing s with
  | nil =>
    cases hrun
    exact h
  | cons act as ih =>
    obtain ⟨u, hu, hrest⟩ := run_cons_eq_some.mp hrun
    refine ih (good_step h (fun thread workspaceId heq => ?_) hu)
      (fun thread workspaceId hmem => hids thread workspaceId (List.mem_cons_of_mem _ hmem)) hrest
    exact hids thread workspaceId (heq ▸ List.mem_cons_self)

theorem excluding_of_oneSpelling (h : OneSpelling ids) : Excluding ids := by
  intro as s hids hrun entry hentry other hother hne hroot
  have hgood := good_run good_init hids hrun
  have hentry' := List.mem_append_right s.waiting hentry
  have hother' := List.mem_append_right s.waiting hother
  have hsame := h _ _ (hgood.used entry hentry') (hgood.used other hother') hroot
  have hlock := hgood.known entry hentry'
  rw [hsame, hgood.known other hother', Option.some.injEq] at hlock
  exact hne (hgood.alone entry hentry other hother hlock.symm)

/-- An id that is resolved is not blank. -/
theorem strip_ne_nil {isDir : Text → Bool} {a root : Text} (h : ensureRoot isDir a = .ok root) :
    strip a ≠ [] := by
  intro hempty
  unfold ensureRoot sanitizeWorkspaceId at h
  rw [hempty] at h
  cases h

/-- Two ids that are spelled differently have two locks. -/
theorem two_locks {a b : Text} (ha : strip a ≠ []) (hb : strip b ≠ []) (hne : strip a ≠ strip b) :
    workspaceWriteLock a ⟨[], 0⟩ = some (0, ⟨[(strip a, 0)], 1⟩) ∧
      workspaceWriteLock b ⟨[(strip a, 0)], 1⟩ = some (1, ⟨[(strip a, 0), (strip b, 1)], 2⟩) := by
  unfold workspaceWriteLock
  dsimp only
  rw [if_neg ha, if_neg hb]
  simp [Items.get, Items.set, hne]

theorem oneSpelling_of_oneLock (h : OneLock ids) : OneSpelling ids := by
  intro a b ha hb hroot
  by_contra hne
  obtain ⟨isDir, root, hroota, hrootb⟩ := hroot
  obtain ⟨hfirst, hsecond⟩ := two_locks (strip_ne_nil hroota) (strip_ne_nil hrootb) hne
  obtain ⟨table, hsame⟩ := h a b ha hb ⟨isDir, root, hroota, hrootb⟩ _ [] _ _ hfirst
  rw [List.foldl_nil, hsecond] at hsame
  cases hsame

theorem oneSpelling_of_excluding (h : Excluding ids) : OneSpelling ids := by
  intro a b ha hb hroot
  by_contra hne
  obtain ⟨isDir, root, hroota, hrootb⟩ := id hroot
  obtain ⟨hfirst, hsecond⟩ := two_locks (strip_ne_nil hroota) (strip_ne_nil hrootb) hne
  -- both threads are inside at once
  have hrun : run Locking.step Locking.init [.ask 0 a, .acquire 0, .ask 1 b, .acquire 1] =
      some ⟨⟨[(strip a, 0), (strip b, 1)], 2⟩, [], [⟨1, 1, b⟩, ⟨0, 0, a⟩]⟩ := by
    simp [run, Locking.step, Locking.init, hfirst, hsecond]
  refine h _ _ ?_ hrun ⟨0, 0, a⟩ (by simp) ⟨1, 1, b⟩ (by simp) Nat.zero_ne_one hroot
  intro thread workspaceId hmem
  simp only [List.mem_cons, LockAct.ask.injEq, reduceCtorEq, false_or, or_false,
    List.not_mem_nil] at hmem
  rcases hmem with ⟨-, rfl⟩ | ⟨-, rfl⟩
  · exact ha
  · exact hb

/-- **The ids in use have one lock for each workspace, and threads exclude each other**, exactly if
    no two ids of a workspace differ in more than the blanks around them. -/
theorem one_lock_iff (ids : Text → Prop) :
    (OneLock ids ↔ OneSpelling ids) ∧ (Excluding ids ↔ OneSpelling ids) :=
  ⟨⟨oneSpelling_of_oneLock, oneLock_of_oneSpelling⟩,
    ⟨oneSpelling_of_excluding, excluding_of_oneSpelling⟩⟩

end Iff

/-! ## All the spellings of an id -/

theorem isDigit_iff (c : Char) : c.isDigit = true ↔ 48 ≤ c.toNat ∧ c.toNat ≤ 57 := by
  simp [Char.isDigit, UInt32.le_iff_toNat_le]

/-- A small letter, a digit or a dash. -/
def isIdChar (c : Char) : Bool := c.isLower || c.isDigit || c = '-'

theorem isIdChar_shape : ∀ p ∈ uuid4Shape, ∀ c : Char, p c = true → isIdChar c = true := by
  intro p hp c hc
  have hhex : isHex c = true → isIdChar c = true := by
    intro h
    unfold isHex at h
    unfold isIdChar
    rcases Bool.or_eq_true_iff.mp h with hdigit | hletter
    · rw [hdigit]
      simp
    · have hlower : c.isLower = true := by
        rw [isLower_iff]
        simp [Char.le_def, UInt32.le_iff_toNat_le] at hletter
        omega
      rw [hlower]
      rfl
  simp only [uuid4Shape, List.mem_append, List.mem_replicate, List.mem_cons, List.not_mem_nil,
    or_false] at hp
  have hfour : p = isHex ∨ p = (· == '-') ∨ p = (· == '4') ∨
      p = (fun c => c == '8' || c == '9' || c == 'a' || c == 'b') := by tauto
  rcases hfour with rfl | rfl | rfl | rfl
  · exact hhex hc
  · rw [eq_of_beq hc]
    rfl
  · rw [eq_of_beq hc]
    rfl
  · simp only [Bool.or_eq_true, beq_iff_eq] at hc
    rcases hc with ((rfl | rfl) | rfl) | rfl <;> rfl

theorem isIdChar_of_sanitize {raw id : Text} (h : sanitizeWorkspaceId raw = .ok id) :
    ∀ c ∈ id, isIdChar c = true := by
  intro c hc
  unfold sanitizeWorkspaceId at h
  dsimp only at h
  split at h
  · rename_i hid
    cases h
    rcases Bool.or_eq_true_iff.mp hid with hlegacy | huuid
    · have hclass := List.all_eq_true.mp (Bool.and_eq_true_iff.mp hlegacy).2 c hc
      unfold isIdChar
      rw [hclass]
      rfl
    · obtain ⟨hlen, hall⟩ := Bool.and_eq_true_iff.mp huuid
      rw [← List.map_fst_zip (Nat.le_of_eq (eq_of_beq hlen))] at hc
      obtain ⟨pair, hpair, rfl⟩ := List.mem_map.mp hc
      exact isIdChar_shape _ (List.of_mem_zip hpair).2 _ (List.all_eq_true.mp hall _ hpair)
  · cases h

/-- A small letter as a capital one. -/
def capital (c : Char) : Char := if c.isLower then Char.ofNat (c.toNat - 32) else c

theorem capital_toNat (c : Char) :
    (capital c).toNat = if 97 ≤ c.toNat ∧ c.toNat ≤ 122 then c.toNat - 32 else c.toNat := by
  unfold capital
  by_cases h : c.isLower = true
  · rw [if_pos h, if_pos ((isLower_iff c).mp h), toNat_ofNat_of_lt]
    have := (isLower_iff c).mp h
    omega
  · rw [if_neg h, if_neg (mt (isLower_iff c).mpr h)]

theorem isIdChar_range {c : Char} (h : isIdChar c = true) :
    97 ≤ c.toNat ∧ c.toNat ≤ 122 ∨ 48 ≤ c.toNat ∧ c.toNat ≤ 57 ∨ c.toNat = 45 := by
  unfold isIdChar at h
  simp only [Bool.or_eq_true, decide_eq_true_eq] at h
  rcases h with (h | h) | rfl
  · exact Or.inl ((isLower_iff c).mp h)
  · exact Or.inr (Or.inl ((isDigit_iff c).mp h))
  · exact Or.inr (Or.inr rfl)

theorem lower_capital {id : Text} (h : ∀ c ∈ id, isIdChar c = true) :
    lower (id.map capital) = id := by
  unfold lower
  rw [List.map_map]
  refine (List.map_congr_left fun c hc => ?_).trans (List.map_id _)
  have hrange := isIdChar_range (h c hc)
  have hcap := capital_toNat c
  have hk : capital c ≠ '\u212a' := by
    intro heq
    rw [heq] at hcap
    rw [show '\u212a'.toNat = 8490 from rfl] at hcap
    split at hcap <;> omega
  rw [Function.comp_apply, if_neg hk]
  refine Char.ext (UInt32.toNat_inj.mp ?_)
  show (asciiLower (capital c)).toNat = c.toNat
  rw [asciiLower_toNat, hcap]
  split <;> split <;> omega

theorem isSpace_of_range {c : Char} (hlow : 33 ≤ c.toNat) (hhigh : c.toNat ≤ 122) :
    isSpace c = false := by
  unfold isSpace
  simp only [Bool.or_eq_false_iff, Bool.and_eq_false_iff, decide_eq_false_iff_not,
    beq_eq_false_iff_ne]
  omega

theorem strip_of_isIdChar {id : Text} (h : ∀ c ∈ id, isIdChar c = true) : strip id = id := by
  refine strip_of_no_space fun c hc => ?_
  have hrange := isIdChar_range (h c hc)
  exact isSpace_of_range (by omega) (by omega)

theorem strip_capital {id : Text} (h : ∀ c ∈ id, isIdChar c = true) :
    strip (id.map capital) = id.map capital := by
  refine strip_of_no_space fun d hd => ?_
  obtain ⟨c, hc, rfl⟩ := List.mem_map.mp hd
  have hrange := isIdChar_range (h c hc)
  have hcap := capital_toNat c
  split at hcap
  · exact isSpace_of_range (by omega) (by omega)
  · exact isSpace_of_range (by omega) (by omega)

theorem lower_of_sanitize {raw id : Text} (h : sanitizeWorkspaceId raw = .ok id) :
    lower (strip raw) = id := by
  unfold sanitizeWorkspaceId at h
  dsimp only at h
  split at h
  · exact Except.ok.inj h
  · cases h

theorem sanitizeWorkspaceId_capital {id : Text} (h : sanitizeWorkspaceId id = .ok id) :
    sanitizeWorkspaceId (id.map capital) = .ok id := by
  have hchars := isIdChar_of_sanitize h
  have hself := lower_of_sanitize h
  unfold sanitizeWorkspaceId at h ⊢
  rw [strip_capital hchars, lower_capital hchars]
  rw [hself] at h
  exact h

/-- **Every spelling of an id has one lock** exactly if there is no letter in the id. -/
theorem oneSpelling_all_iff {id : Text} (hid : sanitizeWorkspaceId id = .ok id) :
    OneSpelling (fun raw => sanitizeWorkspaceId raw = .ok id) ↔ ∀ c ∈ id, c.isLower = false := by
  have hchars := isIdChar_of_sanitize hid
  constructor
  · intro h c hc
    by_contra hletter
    have hsame : strip (id.map capital) = strip id := by
      apply h _ _ (sanitizeWorkspaceId_capital hid) hid
      refine ⟨fun _ => true, id, ?_, ?_⟩
      · unfold ensureRoot
        rw [sanitizeWorkspaceId_capital hid]
        rfl
      · unfold ensureRoot
        rw [hid]
        rfl
    rw [strip_capital hchars, strip_of_isIdChar hchars] at hsame
    have hcapital : capital c = c := List.map_inj_left.mp (hsame.trans (List.map_id id).symm) c hc
    have hnat := capital_toNat c
    have hrange := (isLower_iff c).mp (by simpa using hletter)
    rw [hcapital, if_pos hrange] at hnat
    omega
  · intro h
    have hcore : ∀ raw, sanitizeWorkspaceId raw = .ok id → strip raw = id := by
      intro raw hraw
      have hlower := lower_of_sanitize hraw
      rw [← hlower]
      refine (List.map_id _).symm.trans (List.map_congr_left fun c hc => ?_)
      have hmem : (if c = '\u212a' then 'k' else asciiLower c) ∈ id := by
        rw [← hlower]
        exact List.mem_map_of_mem hc
      have hno := h _ hmem
      split at hno
      · cases hno
      · rename_i hk
        rw [if_neg hk]
        have hup : ¬ (65 ≤ c.toNat ∧ c.toNat ≤ 90) := by
          intro hrange
          have hnat := asciiLower_toNat c
          rw [if_pos hrange] at hnat
          rw [(isLower_iff _).mpr (by omega)] at hno
          cases hno
        unfold asciiLower
        rw [if_neg hup]
        rfl
    intro a b ha hb _
    rw [hcore a ha, hcore b hb]

/-! ## One workspace under two spellings -/

/-- A workspace under its id and under the id in capitals: two locks, and two threads inside. -/
theorem two_spellings_two_locks :
    SameRoot "abc123" "ABC123" ∧
      (∃ lock lock' table table', workspaceWriteLock "abc123" ⟨[], 0⟩ = some (lock, table) ∧
        workspaceWriteLock "ABC123" table = some (lock', table') ∧ lock ≠ lock') ∧
      ∃ s, run Locking.step Locking.init [.ask 0 "abc123", .acquire 0, .ask 1 "ABC123",
        .acquire 1] = some s ∧ ¬ s.Exclusive := by
  have hroot : SameRoot "abc123" "ABC123" := ⟨fun _ => true, "abc123".toList, by rfl, by rfl⟩
  refine ⟨hroot, ⟨0, 1, _, _, rfl, rfl, by decide⟩, _, rfl, fun h => ?_⟩
  exact h ⟨0, 0, "abc123"⟩ (List.mem_cons_of_mem _ List.mem_cons_self) ⟨1, 1, "ABC123"⟩
    List.mem_cons_self Nat.zero_ne_one hroot

end Infinito.Workspace
