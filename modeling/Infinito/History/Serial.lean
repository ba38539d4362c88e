import Infinito.History.Steps

/-!
# Operations on a workspace at the same time

Operations that hold the lock from beginning to end have one effect only, whatever the order
of their steps: that of running one after the other (`locked_serializable`). The restores hold
it to commit only. One that empties the workspace while a file is renamed leaves the file under
both names (`restored_mixture`), which neither order of the two does.

Where restores keep apart from the other calls, every run is serializable
(`calls_serializable`).
-/

set_option autoImplicit false

namespace Infinito.History

open Py Lib Workspace

section Serial

variable (D : Deployment)

/-- The working tree after calls one after the other, each of which goes through. -/
def sequential (calls : List Call) : List Nat → World (Option Repo) → Option (World (Option Repo))
  | [], w => some w
  | i :: is, w => match calls[i]? with
    | none => none
    | some call => match call.run D w with
      | .ok _ u => sequential calls is u
      | .error _ _ => none

theorem serial_shared (calls : List Call) (order : List Nat) (w : World (Option Repo)) :
    serial (calls.map (Call.shared D)) order w = sequential D calls order w := by
  induction order generalizing w with
  | nil => rfl
  | cons i is ih =>
    rw [serial, sequential, List.getElem?_map]
    cases calls[i]? with
    | none => rfl
    | some call =>
      simp only [Option.map_some, whole_shared]
      cases call.run D w with
      | ok a u => exact ih u
      | error e u => rfl

/-- Calls that have not started, on a workspace. -/
def startCalls (calls : List Call) (w : World (Option Repo)) : Conf Exc (World (Option Repo)) :=
  .start (calls.map (Call.shared D)) w

/-- The working tree is that of the calls one after the other, in some order. -/
def Serializable (calls : List Call) (w u : World (Option Repo)) : Prop :=
  ∃ order v, order.Perm (List.range calls.length) ∧ sequential D calls order w = some v ∧
    worktree D.host v.disk = worktree D.host u.disk

/-- **Calls whose restores keep apart are serializable.** -/
theorem calls_serializable (D : Deployment) (calls : List Call) (w : World (Option Repo))
    (is : List Nat) (c : Conf Exc (World (Option Repo)))
    (hapart : Along Conf.go Conf.Apart (startCalls D calls w) is)
    (hrun : run Conf.go (startCalls D calls w) is = some c) (hover : c.Over) :
    Serializable D calls w c.state := by
  obtain ⟨order, hperm, hserial⟩ := serializable hapart hrun hover
  rw [List.length_map] at hperm
  rw [serial_shared] at hserial
  exact ⟨order, c.state, hperm, hserial, rfl⟩

/-- Whether a call has a part without the lock. -/
def Call.restores : Call → Bool
  | restoreHistoryWorkspace _ => true
  | restoreHistoryPath _ _ => true
  | _ => false

/-- A call that does not restore holds the lock from beginning to end. -/
theorem shared_of_not_restores {call : Call} (h : call.restores = false) :
    ∃ p, call.shared D = .done p := by
  cases call with
  | restoreHistoryWorkspace sha => cases h
  | restoreHistoryPath sha path => cases h
  | writeFile uuid relPath content => exact ⟨_, rfl⟩
  | createDir relPath => exact ⟨_, rfl⟩
  | renameFile relPath newPath => exact ⟨_, rfl⟩
  | deleteFile relPath => exact ⟨_, rfl⟩
  | loadZip uuid data defaultMode perFileMode => exact ⟨_, rfl⟩
  | editRole uuids hostAlias edit => exact ⟨_, rfl⟩

/-- **Calls that do not restore are serializable**, whatever the order of their steps. -/
theorem locked_serializable (D : Deployment) (calls : List Call) (w : World (Option Repo))
    (is : List Nat) (c : Conf Exc (World (Option Repo))) (hcalls : ∀ call ∈ calls, call.restores = false)
    (hrun : run Conf.go (startCalls D calls w) is = some c) (hover : c.Over) :
    Serializable D calls w c.state := by
  refine calls_serializable D calls w is c (along_of_locked (fun t ht => ?_) is) hrun hover
  obtain ⟨p, hp, rfl⟩ := List.mem_map.mp ht
  obtain ⟨call, hcall, rfl⟩ := List.mem_map.mp hp
  obtain ⟨q, hq⟩ := shared_of_not_restores D (hcalls call hcall)
  rw [hq]
  exact ⟨rfl, rfl⟩

end Serial

/-! ## A mixture -/

section Demo

def firstTree : Snapshot := .ofList [([ignoreName], []), ([demoName "b.yml"], encode "b: 1\n")]

def recordedNodes : Nodes := .ofList
  [([demoName "ws"], .dir), (demoHost.metaPath, .file []), (demoHost.base ++ [ignoreName], .file []),
    (demoHost.base ++ [demoName "b.yml"], .file (encode "b: 1\n"))]

/-- A workspace with one file, recorded. -/
def recordedWorld : World (Option Repo) where
  disk := ⟨recordedNodes, by decide⟩
  rest := some ⟨excludeText false demoGit.initExclude, firstTree, [⟨"c".toList, [], firstTree⟩]⟩
  log := []
  faults := []

def overlapping : List Call := [.restoreHistoryWorkspace "c", .renameFile "b.yml" "c.yml"]

/-- The restore lists the files, the rename runs, and the restore goes on. -/
def betweenSteps : List Nat := List.replicate 6 0 ++ List.replicate 14 1 ++ List.replicate 8 0

/-- The file is there under both names. -/
def twice (w : World (Option Repo)) : Bool :=
  ((worktree demoHost w.disk).get [demoName "b.yml"]).isSome &&
    ((worktree demoHost w.disk).get [demoName "c.yml"]).isSome

def isOver (c : Conf Exc (World (Option Repo))) : Bool := c.threads.all fun t => match t with
  | .finished => true
  | _ => false

theorem over_of_isOver {c : Conf Exc (World (Option Repo))} (h : isOver c = true) : c.Over := by
  intro t ht
  have := List.all_eq_true.mp h t ht
  cases t with
  | finished => rfl
  | outside moved rest => cases this
  | inside rest => cases this
  | failed => cases this

theorem perm_range_two {order : List Nat} (h : order.Perm (List.range 2)) :
    order = [0, 1] ∨ order = [1, 0] := by
  obtain ⟨a, b, rfl⟩ := List.length_eq_two.mp h.length_eq
  have ha : a < 2 := List.mem_range.mp (h.mem_iff.mp (by simp))
  have hb : b < 2 := List.mem_range.mp (h.mem_iff.mp (by simp))
  have hne : a ≠ b := by
    have := h.nodup_iff.mpr List.nodup_range
    simpa using this
  rcases (by omega : a = 0 ∧ b = 1 ∨ a = 1 ∧ b = 0) with ⟨rfl, rfl⟩ | ⟨rfl, rfl⟩
  · exact Or.inl rfl
  · exact Or.inr rfl

theorem not_serializable_of_twice {u : World (Option Repo)} (hu : twice u = true) :
    ¬ Serializable demoDeployment overlapping recordedWorld u := by
  rintro ⟨order, v, hperm, hv, htree⟩
  have hfirst : (sequential demoDeployment overlapping [0, 1] recordedWorld).all
      (fun w => !twice w) = true := by decide +kernel
  have hsecond : (sequential demoDeployment overlapping [1, 0] recordedWorld).all
      (fun w => !twice w) = true := by decide +kernel
  have hnever : (sequential demoDeployment overlapping order recordedWorld).all
      (fun w => !twice w) = true := by
    rcases perm_range_two hperm with rfl | rfl
    · exact hfirst
    · exact hsecond
  have htree : worktree demoHost v.disk = worktree demoHost u.disk := htree
  rw [hv, Option.all_some, twice, htree] at hnever
  rw [twice] at hu
  rw [hu] at hnever
  cases hnever

/-- **A restore that another call overlaps leaves a mixture.** -/
theorem restored_mixture : ¬ ∀ (is : List Nat) (c : Conf Exc (World (Option Repo))),
    run Conf.go (startCalls demoDeployment overlapping recordedWorld) is = some c → c.Over →
      Serializable demoDeployment overlapping recordedWorld c.state := by
  intro hall
  have hbad : (run Conf.go (startCalls demoDeployment overlapping recordedWorld) betweenSteps).any
      (fun c => isOver c && twice c.state) = true := by decide +kernel
  cases hrun : run Conf.go (startCalls demoDeployment overlapping recordedWorld) betweenSteps with
  | none => rw [hrun] at hbad; cases hbad
  | some c =>
    rw [hrun, Option.any_some, Bool.and_eq_true] at hbad
    exact not_serializable_of_twice hbad.2 (hall _ c hrun (over_of_isOver hbad.1))

/-- The rename waits until the restore is over. -/
def keptApart : List Nat := List.replicate 13 0 ++ List.replicate 14 1

theorem calls_serializable_keptApart : ∃ c,
    run Conf.go (startCalls demoDeployment overlapping recordedWorld) keptApart = some c ∧
      Serializable demoDeployment overlapping recordedWorld c.state := by
  have hends : (run Conf.go (startCalls demoDeployment overlapping recordedWorld) keptApart).any
      isOver = true := by decide +kernel
  cases hrun : run Conf.go (startCalls demoDeployment overlapping recordedWorld) keptApart with
  | none => rw [hrun] at hends; cases hends
  | some c =>
    rw [hrun, Option.any_some] at hends
    exact ⟨c, rfl, calls_serializable demoDeployment overlapping recordedWorld keptApart c
      (by decide +kernel) hrun (over_of_isOver hends)⟩

end Demo

end Infinito.History
