import Mathlib.Algebra.BigOperators.Group.Finset.Basic
import Mathlib.Algebra.Order.BigOperators.Group.Finset
import Mathlib.Data.Finset.SDiff
import Mathlib.Logic.Relation

/-!
# Work lists

Two traversals of a graph that is given by its successors. `visit` marks a node when it is taken
from the queue, so a node may wait in the queue more than once; `discover` marks it when it is
put there, and returns what it found beyond the start.

Both return exactly what can be reached (`visit_reaches`, `discover_reaches`), each node once,
and both end if the successors stay in a finite set (`visit_ends`, `discover_ends`): what waits
and what may still be put in the queue together become less with every node that is taken.
-/

set_option autoImplicit false

namespace Infinito.Lib

variable {α : Type} [DecidableEq α]

/-- The elements that are not in `seen`. -/
def unseen (seen l : List α) : List α := l.filter (· ∉ seen)

theorem mem_unseen {seen l : List α} {b : α} : b ∈ unseen seen l ↔ b ∈ l ∧ b ∉ seen := by
  unfold unseen
  rw [List.mem_filter, decide_eq_true_eq]

/-- The rest of the list that is new, each element once. -/
def newOf (seen : List α) (candidates : List α) : List α :=
  candidates.foldl (fun found c => if c ∈ seen ∨ c ∈ found then found else found ++ [c]) []

/-- Nodes are marked when they are taken; nothing where the fuel does not last. -/
def visit (next : α → List α) : Nat → List α → List α → Option (List α)
  | _, [], out => some out
  | 0, _ :: _, _ => none
  | fuel + 1, a :: queue, out =>
      if a ∈ out then visit next fuel queue out
      else visit next fuel (queue ++ unseen (out ++ [a]) (next a)) (out ++ [a])

/-- Nodes are marked when they are put in the queue. -/
def discover (next : α → List α) : Nat → List α → List α → List α → Option (List α)
  | _, [], _, related => some related
  | 0, _ :: _, _, _ => none
  | fuel + 1, a :: queue, seen, related =>
      let found := newOf seen (next a)
      discover next fuel (queue ++ found) (seen ++ found) (related ++ found)

/-- One node has the other as a successor. -/
def Edge (next : α → List α) (a b : α) : Prop := b ∈ next a

/-- What can be reached from one of the nodes. -/
def Reached (next : α → List α) (start : List α) (b : α) : Prop :=
  ∃ a ∈ start, Relation.ReflTransGen (Edge next) a b

variable {next : α → List α} {start : List α}

omit [DecidableEq α] in
theorem Reached.of_mem {a : α} (ha : a ∈ start) : Reached next start a := ⟨a, ha, .refl⟩

omit [DecidableEq α] in
theorem Reached.step {a b : α} (ha : Reached next start a) (hb : b ∈ next a) :
    Reached next start b := by
  obtain ⟨s, hs, hpath⟩ := ha
  exact ⟨s, hs, hpath.tail hb⟩

omit [DecidableEq α] in
/-- A closed set has everything that can be reached. -/
theorem Reached.mem_of_closed {S : α → Prop} {b : α} (hstart : ∀ a ∈ start, S a)
    (hclosed : ∀ a, S a → ∀ b ∈ next a, S b) (hb : Reached next start b) : S b := by
  obtain ⟨a, ha, hpath⟩ := hb
  induction hpath with
  | refl => exact hstart a ha
  | tail _ hlast ih => exact hclosed _ ih _ hlast

/-! ## What is new -/

theorem mem_newOf_go {seen candidates found : List α} {b : α} :
    b ∈ candidates.foldl
        (fun found c => if c ∈ seen ∨ c ∈ found then found else found ++ [c]) found ↔
      b ∈ found ∨ b ∈ candidates ∧ b ∉ seen := by
  induction candidates generalizing found with
  | nil => simp
  | cons c candidates ih =>
    rw [List.foldl_cons, ih]
    by_cases hc : c ∈ seen ∨ c ∈ found
    · rw [if_pos hc, List.mem_cons]
      constructor
      · exact Or.imp_right fun h => ⟨Or.inr h.1, h.2⟩
      · rintro (h | ⟨rfl | h, hno⟩)
        · exact Or.inl h
        · exact Or.inl (hc.resolve_left hno)
        · exact Or.inr ⟨h, hno⟩
    · rw [if_neg hc, List.mem_append, List.mem_singleton, List.mem_cons]
      constructor
      · rintro ((h | rfl) | h)
        · exact Or.inl h
        · exact Or.inr ⟨Or.inl rfl, fun hs => hc (Or.inl hs)⟩
        · exact Or.inr ⟨Or.inr h.1, h.2⟩
      · rintro (h | ⟨rfl | h, hno⟩)
        · exact Or.inl (Or.inl h)
        · exact Or.inl (Or.inr rfl)
        · exact Or.inr ⟨h, hno⟩

theorem mem_newOf {seen candidates : List α} {b : α} :
    b ∈ newOf seen candidates ↔ b ∈ candidates ∧ b ∉ seen := by
  unfold newOf
  rw [mem_newOf_go]
  simp

theorem nodup_newOf (seen candidates : List α) : (newOf seen candidates).Nodup := by
  have hgo : ∀ found : List α, found.Nodup → (candidates.foldl (fun found c =>
      if c ∈ seen ∨ c ∈ found then found else found ++ [c]) found).Nodup := by
    induction candidates with
    | nil => exact fun found h => h
    | cons c candidates ih =>
      intro found hfound
      rw [List.foldl_cons]
      refine ih _ ?_
      split
      · exact hfound
      · rename_i hc
        exact hfound.append (List.nodup_singleton c)
          (List.disjoint_singleton.mpr fun h => hc (Or.inr h))
  exact hgo [] List.nodup_nil

/-! ## Marked when taken -/

/-- What holds while `visit` is under way. -/
structure Visiting (next : α → List α) (start queue out : List α) : Prop where
  nodup : out.Nodup
  started : ∀ a ∈ start, a ∈ out ∨ a ∈ queue
  waiting : ∀ a ∈ queue, Reached next start a
  reached : ∀ a ∈ out, Reached next start a
  closed : ∀ a ∈ out, ∀ b ∈ next a, b ∈ out ∨ b ∈ queue

omit [DecidableEq α] in
theorem Visiting.skip {queue out : List α} {a : α} (h : Visiting next start (a :: queue) out)
    (ha : a ∈ out) : Visiting next start queue out where
  nodup := h.nodup
  started b hb := by
    rcases h.started b hb with hout | hqueue
    · exact Or.inl hout
    · rcases List.mem_cons.mp hqueue with rfl | hqueue
      · exact Or.inl ha
      · exact Or.inr hqueue
  waiting b hb := h.waiting b (List.mem_cons_of_mem _ hb)
  reached := h.reached
  closed b hb c hc := by
    rcases h.closed b hb c hc with hout | hqueue
    · exact Or.inl hout
    · rcases List.mem_cons.mp hqueue with rfl | hqueue
      · exact Or.inl ha
      · exact Or.inr hqueue

theorem Visiting.take {queue out : List α} {a : α} (h : Visiting next start (a :: queue) out)
    (ha : a ∉ out) :
    Visiting next start (queue ++ unseen (out ++ [a]) (next a)) (out ++ [a]) := by
  have hreached : Reached next start a := h.waiting a List.mem_cons_self
  have hmoved {b : α} (hb : b ∈ out ∨ b ∈ a :: queue) : b ∈ out ++ [a] ∨
      b ∈ queue ++ unseen (out ++ [a]) (next a) := by
    rcases hb with hout | hqueue
    · exact Or.inl (List.mem_append_left _ hout)
    · rcases List.mem_cons.mp hqueue with rfl | hqueue
      · exact Or.inl (List.mem_append_right _ (List.mem_singleton.mpr rfl))
      · exact Or.inr (List.mem_append_left _ hqueue)
  refine ⟨?_, fun b hb => hmoved (h.started b hb), fun b hb => ?_, fun b hb => ?_,
    fun b hb c hc => ?_⟩
  · exact h.nodup.append (List.nodup_singleton a) (List.disjoint_singleton.mpr ha)
  · rcases List.mem_append.mp hb with hb | hb
    · exact h.waiting b (List.mem_cons_of_mem _ hb)
    · exact hreached.step (mem_unseen.mp hb).1
  · rcases List.mem_append.mp hb with hb | hb
    · exact h.reached b hb
    · rw [List.mem_singleton.mp hb]
      exact hreached
  · rcases List.mem_append.mp hb with hb | hb
    · exact hmoved (h.closed b hb c hc)
    · obtain rfl := List.mem_singleton.mp hb
      by_cases hnew : c ∈ out ++ [b]
      · exact Or.inl hnew
      · exact Or.inr (List.mem_append_right _ (mem_unseen.mpr ⟨hc, hnew⟩))

theorem visit_reaches_go {fuel : Nat} {queue out result : List α}
    (h : Visiting next start queue out) (hrun : visit next fuel queue out = some result) :
    Visiting next start [] result := by
  induction fuel generalizing queue out with
  | zero =>
    cases queue with
    | nil =>
      obtain rfl := Option.some.inj hrun
      exact h
    | cons a queue => cases hrun
  | succ fuel ih =>
    cases queue with
    | nil =>
      obtain rfl := Option.some.inj hrun
      exact h
    | cons a queue =>
      rw [visit] at hrun
      split at hrun
      · rename_i ha
        exact ih (h.skip ha) hrun
      · rename_i ha
        exact ih (h.take ha) hrun

/-- **What is visited** is what can be reached, each node once. -/
theorem visit_reaches {fuel : Nat} {result : List α} (hrun : visit next fuel start [] = some result) :
    result.Nodup ∧ ∀ b, b ∈ result ↔ Reached next start b := by
  have h : Visiting next start [] result :=
    visit_reaches_go ⟨List.nodup_nil, fun a ha => Or.inr ha, fun a ha => .of_mem ha, nofun, nofun⟩ hrun
  refine ⟨h.nodup, fun b => ⟨h.reached b, fun hb => ?_⟩⟩
  refine hb.mem_of_closed (S := (· ∈ result)) (fun a ha => ?_) fun a ha c hc => ?_
  · exact (h.started a ha).resolve_right List.not_mem_nil
  · exact (h.closed a ha c hc).resolve_right List.not_mem_nil

/-- What waits, and what the nodes of `U` may still add. -/
def visitRest (next : α → List α) (U : Finset α) (queue out : List α) : Nat :=
  queue.length + ∑ a ∈ U \ out.toFinset, (next a).length

theorem visit_ends_go {U : Finset α} (hU : ∀ a ∈ U, ∀ b ∈ next a, b ∈ U) {fuel : Nat}
    {queue out : List α} (hqueue : ∀ a ∈ queue, a ∈ U) (hfuel : visitRest next U queue out ≤ fuel) :
    ∃ result, visit next fuel queue out = some result := by
  induction fuel generalizing queue out with
  | zero =>
    cases queue with
    | nil => exact ⟨out, rfl⟩
    | cons a queue =>
      unfold visitRest at hfuel
      simp at hfuel
  | succ fuel ih =>
    cases queue with
    | nil => exact ⟨out, rfl⟩
    | cons a queue =>
      obtain ⟨ha, hqueue⟩ := List.forall_mem_cons.mp hqueue
      unfold visitRest at hfuel
      rw [List.length_cons] at hfuel
      rw [visit]
      split
      · refine ih hqueue ?_
        unfold visitRest
        omega
      · rename_i hnew
        refine ih (fun b hb => ?_) ?_
        · rcases List.mem_append.mp hb with hb | hb
          · exact hqueue b hb
          · exact hU a ha b (mem_unseen.mp hb).1
        · have hmem : a ∈ U \ out.toFinset := by simp [ha, hnew]
          have hsplit := Finset.sum_erase_add _ (fun b => (next b).length) hmem
          have herase : (U \ out.toFinset).erase a = U \ (out ++ [a]).toFinset := by
            ext b
            simp only [Finset.mem_erase, Finset.mem_sdiff, List.mem_toFinset, List.mem_append,
              List.mem_singleton]
            tauto
          rw [herase] at hsplit
          have hunseen : (unseen (out ++ [a]) (next a)).length ≤ (next a).length :=
            List.length_filter_le _ _
          unfold visitRest
          rw [List.length_append]
          omega

/-- **The visit ends** where the successors stay in a finite set. -/
theorem visit_ends {U : Finset α} (hU : ∀ a ∈ U, ∀ b ∈ next a, b ∈ U) (hstart : ∀ a ∈ start, a ∈ U) :
    ∃ enough, ∀ fuel, enough ≤ fuel → ∃ result, visit next fuel start [] = some result :=
  ⟨visitRest next U start [], fun _ hfuel => visit_ends_go hU hstart hfuel⟩

/-! ## Marked when put in the queue -/

/-- What holds while `discover` is under way. -/
structure Discovering (next : α → List α) (start queue seen related : List α) : Prop where
  nodup : related.Nodup
  known : ∀ a, a ∈ seen ↔ a ∈ start ∨ a ∈ related
  apart : ∀ a ∈ related, a ∉ start
  waiting : ∀ a ∈ queue, a ∈ seen
  reached : ∀ a ∈ seen, Reached next start a
  closed : ∀ a ∈ seen, a ∈ queue ∨ ∀ b ∈ next a, b ∈ seen

theorem Discovering.take {queue seen related : List α} {a : α}
    (h : Discovering next start (a :: queue) seen related) :
    Discovering next start (queue ++ newOf seen (next a)) (seen ++ newOf seen (next a))
      (related ++ newOf seen (next a)) := by
  have hseen : a ∈ seen := h.waiting a List.mem_cons_self
  have hnew {b : α} (hb : b ∈ next a) : b ∈ seen ++ newOf seen (next a) := by
    by_cases hbseen : b ∈ seen
    · exact List.mem_append_left _ hbseen
    · exact List.mem_append_right _ (mem_newOf.mpr ⟨hb, hbseen⟩)
  refine ⟨?_, fun b => ?_, fun b hb => ?_, fun b hb => ?_, fun b hb => ?_, fun b hb => ?_⟩
  · refine h.nodup.append (nodup_newOf _ _) fun b hb hfound => ?_
    exact (mem_newOf.mp hfound).2 ((h.known b).mpr (Or.inr hb))
  · rw [List.mem_append, List.mem_append, h.known, or_assoc]
  · rcases List.mem_append.mp hb with hb | hb
    · exact h.apart b hb
    · exact fun hstart => (mem_newOf.mp hb).2 ((h.known b).mpr (Or.inl hstart))
  · rcases List.mem_append.mp hb with hb | hb
    · exact List.mem_append_left _ (h.waiting b (List.mem_cons_of_mem _ hb))
    · exact List.mem_append_right _ hb
  · rcases List.mem_append.mp hb with hb | hb
    · exact h.reached b hb
    · exact (h.reached a hseen).step (mem_newOf.mp hb).1
  · rcases List.mem_append.mp hb with hb | hb
    · rcases h.closed b hb with hqueue | hnext
      · rcases List.mem_cons.mp hqueue with rfl | hqueue
        · exact Or.inr fun c hc => hnew hc
        · exact Or.inl (List.mem_append_left _ hqueue)
      · exact Or.inr fun c hc => List.mem_append_left _ (hnext c hc)
    · exact Or.inl (List.mem_append_right _ hb)

theorem discover_reaches_go {fuel : Nat} {queue seen related result : List α}
    (h : Discovering next start queue seen related)
    (hrun : discover next fuel queue seen related = some result) :
    ∃ seen, Discovering next start [] seen result := by
  induction fuel generalizing queue seen related with
  | zero =>
    cases queue with
    | nil =>
      obtain rfl := Option.some.inj hrun
      exact ⟨seen, h⟩
    | cons a queue => cases hrun
  | succ fuel ih =>
    cases queue with
    | nil =>
      obtain rfl := Option.some.inj hrun
      exact ⟨seen, h⟩
    | cons a queue => exact ih h.take hrun

/-- **What is discovered** is what can be reached beyond the start, each node once. -/
theorem discover_reaches {fuel : Nat} {result : List α}
    (hrun : discover next fuel start start [] = some result) :
    result.Nodup ∧ ∀ b, b ∈ result ↔ Reached next start b ∧ b ∉ start := by
  have hinit : Discovering next start start start [] := ⟨List.nodup_nil, fun a => by simp, nofun,
    fun a ha => ha, fun a ha => .of_mem ha, fun a ha => Or.inl ha⟩
  obtain ⟨seen, h⟩ := discover_reaches_go hinit hrun
  refine ⟨h.nodup, fun b => ⟨fun hb => ?_, fun ⟨hb, hno⟩ => ?_⟩⟩
  · exact ⟨h.reached b ((h.known b).mpr (Or.inr hb)), h.apart b hb⟩
  · have hseen : b ∈ seen := hb.mem_of_closed (S := (· ∈ seen))
      (fun a ha => (h.known a).mpr (Or.inl ha))
      fun a ha => (h.closed a ha).resolve_left List.not_mem_nil
    exact ((h.known b).mp hseen).resolve_left hno

theorem discover_ends_go {U : Finset α} (hU : ∀ a ∈ U, ∀ b ∈ next a, b ∈ U) {fuel : Nat}
    {queue seen related : List α} (hqueue : ∀ a ∈ queue, a ∈ U)
    (hfuel : queue.length + (U \ seen.toFinset).card ≤ fuel) :
    ∃ result, discover next fuel queue seen related = some result := by
  induction fuel generalizing queue seen related with
  | zero =>
    cases queue with
    | nil => exact ⟨related, rfl⟩
    | cons a queue => simp at hfuel
  | succ fuel ih =>
    cases queue with
    | nil => exact ⟨related, rfl⟩
    | cons a queue =>
      obtain ⟨ha, hqueue⟩ := List.forall_mem_cons.mp hqueue
      rw [List.length_cons] at hfuel
      refine ih (fun b hb => ?_) ?_
      · rcases List.mem_append.mp hb with hb | hb
        · exact hqueue b hb
        · exact hU a ha b (mem_newOf.mp hb).1
      · -- what is put in the queue was in `U` and unseen
        have hsub : (newOf seen (next a)).toFinset ⊆ U \ seen.toFinset := by
          intro b hb
          obtain ⟨hnext, hno⟩ := mem_newOf.mp (List.mem_toFinset.mp hb)
          simp [hU a ha b hnext, hno]
        have hcard := Finset.card_sdiff_add_card_eq_card hsub
        have hrest : (U \ seen.toFinset) \ (newOf seen (next a)).toFinset =
            U \ (seen ++ newOf seen (next a)).toFinset := by
          ext b
          simp only [Finset.mem_sdiff, List.mem_toFinset, List.mem_append]
          tauto
        rw [hrest, List.toFinset_card_of_nodup (nodup_newOf _ _)] at hcard
        rw [List.length_append]
        omega

/-- **The discovery ends** where the successors stay in a finite set. -/
theorem discover_ends {U : Finset α} (hU : ∀ a ∈ U, ∀ b ∈ next a, b ∈ U)
    (hstart : ∀ a ∈ start, a ∈ U) :
    ∃ enough, ∀ fuel, enough ≤ fuel →
      ∃ result, discover next fuel start start [] = some result :=
  ⟨start.length + (U \ start.toFinset).card, fun _ hfuel => discover_ends_go hU hstart hfuel⟩

end Infinito.Lib
