import Mathlib.Data.List.Infix
import Mathlib.Data.List.TakeWhile

/-!
# The options of a command line

An option goes by a name (`--name`) or by a letter (`-n`), and has its value joined to it, as the
argument after it, or from its declaration when it stands alone. Letters share an argument as long
as they take no value. The first argument that is no option ends the options, and so does `--`.

The arguments are read one at a time, and what is kept between two of them is a `State`. A command
line is put together from parts: `run_append` is how one reads it part by part.
-/

set_option autoImplicit false

namespace Infinito.Lib.Flags

variable {ι : Type}

/-- An option as a program declares it. -/
structure Opt (ι : Type) where
  sets : ι
  /-- its value when it stands alone; an option without one takes a value -/
  alone : Option (List Char)
  accepts : List Char → Bool

structure Grammar (ι : Type) where
  long : List Char → Option (Opt ι)
  short : Char → Option (Opt ι)

/-- An option as it was given. -/
structure Given (ι : Type) where
  /-- the argument that it stands in -/
  arg : List Char
  /-- whether the value is the argument after that -/
  apart : Bool
  sets : ι
  value : List Char
  deriving DecidableEq

/-- Between two arguments. -/
inductive State (ι : Type) where
  | options
  /-- the option in `arg` takes the next argument -/
  | waits (arg : List Char) (opt : Opt ι)
  | ended

/-- The option with this value, after which options go on. -/
def Opt.give (opt : Opt ι) (arg : List Char) (apart : Bool) (value : List Char) :
    Option (List (Given ι) × State ι) :=
  if opt.accepts value then some ([⟨arg, apart, opt.sets, value⟩], .options) else none

/-- What an argument that names an option gives, with what is after the dashes. -/
def Grammar.readLong (g : Grammar ι) (arg name : List Char) :
    Option (List (Given ι) × State ι) :=
  if name.head? = some '-' ∨ name.head? = some '=' then none
  else (g.long (name.takeWhile (· ≠ '='))).bind fun opt =>
    if '=' ∈ name then opt.give arg false (name.dropWhile (· ≠ '=')).tail
    else match opt.alone with
      | some value => opt.give arg false value
      | none => some ([], .waits arg opt)

/-- What an argument of letters gives, with the letters that are left. -/
def Grammar.readShort (g : Grammar ι) (arg : List Char) :
    List Char → Option (List (Given ι) × State ι)
  | [] => some ([], .options)
  | c :: rest => (g.short c).bind fun opt => match rest with
      | '=' :: d :: value => opt.give arg false (d :: value)
      | _ => match opt.alone with
        | some value => (opt.give arg false value).bind fun first =>
            (g.readShort arg rest).map fun more => (first.1 ++ more.1, more.2)
        | none => if rest = [] then some ([], .waits arg opt) else opt.give arg false rest

def Grammar.step (g : Grammar ι) : State ι → List Char → Option (List (Given ι) × State ι)
  | .ended, _ => some ([], .ended)
  | .waits arg opt, value => opt.give arg true value
  | .options, ['-', '-'] => some ([], .ended)
  | .options, '-' :: '-' :: name => g.readLong ('-' :: '-' :: name) name
  | .options, '-' :: c :: rest => g.readShort ('-' :: c :: rest) (c :: rest)
  | .options, _ => some ([], .ended)

def Grammar.run (g : Grammar ι) : State ι → List (List Char) → Option (List (Given ι) × State ι)
  | s, [] => some ([], s)
  | s, arg :: args => (g.step s arg).bind fun first =>
      (g.run first.2 args).map fun more => (first.1 ++ more.1, more.2)

variable {g : Grammar ι} {s s' : State ι} {opt : Opt ι} {given : List (Given ι)}
  {arg value : List Char} {args more : List (List Char)}

/-! ## Part by part -/

@[simp] theorem run_nil : g.run s [] = some ([], s) := rfl

@[simp] theorem run_ended : g.run .ended args = some ([], .ended) := by
  induction args with
  | nil => rfl
  | cons arg args ih =>
    rw [Grammar.run, Grammar.step, Option.bind_some, ih]
    rfl

theorem run_cons : g.run s (arg :: args) = some (given, s') ↔
    ∃ first s₁ later, g.step s arg = some (first, s₁) ∧ g.run s₁ args = some (later, s') ∧
      given = first ++ later := by
  rw [Grammar.run, Option.bind_eq_some_iff]
  constructor
  · rintro ⟨⟨first, s₁⟩, hfirst, h⟩
    obtain ⟨⟨later, s₂⟩, hlater, h⟩ := Option.map_eq_some_iff.mp h
    cases h
    exact ⟨first, s₁, later, hfirst, hlater, rfl⟩
  · rintro ⟨first, s₁, later, hfirst, hlater, rfl⟩
    exact ⟨_, hfirst, Option.map_eq_some_iff.mpr ⟨_, hlater, rfl⟩⟩

theorem run_append : g.run s (args ++ more) = some (given, s') ↔
    ∃ first s₁ later, g.run s args = some (first, s₁) ∧ g.run s₁ more = some (later, s') ∧
      given = first ++ later := by
  induction args generalizing s given with
  | nil => simp
  | cons arg args ih =>
    rw [List.cons_append, run_cons]
    constructor
    · rintro ⟨first, s₁, later, hfirst, hlater, rfl⟩
      obtain ⟨next, s₂, last, hnext, hlast, rfl⟩ := ih.mp hlater
      refine ⟨first ++ next, s₂, last, ?_, hlast, (List.append_assoc _ _ _).symm⟩
      exact run_cons.mpr ⟨first, s₁, next, hfirst, hnext, rfl⟩
    · rintro ⟨both, s₂, last, hboth, hlast, rfl⟩
      obtain ⟨first, s₁, next, hfirst, hnext, rfl⟩ := run_cons.mp hboth
      refine ⟨first, s₁, next ++ last, hfirst, ?_, List.append_assoc _ _ _⟩
      exact ih.mpr ⟨next, s₂, last, hnext, hlast, rfl⟩

/-! ## How an option is spelled -/

/-- How an option can be spelled. -/
inductive Grammar.Spells (g : Grammar ι) : Given ι → Prop
  | alone {name value : List Char} {opt : Opt ι} (hopt : g.long name = some opt)
      (halone : opt.alone = some value) : g.Spells ⟨'-' :: '-' :: name, false, opt.sets, value⟩
  | joined {name value : List Char} {opt : Opt ι} (hopt : g.long name = some opt) :
      g.Spells ⟨'-' :: '-' :: (name ++ '=' :: value), false, opt.sets, value⟩
  | apart {name value : List Char} {opt : Opt ι} (hopt : g.long name = some opt)
      (halone : opt.alone = none) : g.Spells ⟨'-' :: '-' :: name, true, opt.sets, value⟩
  | letter {before after value : List Char} {c : Char} {opt : Opt ι} (hopt : g.short c = some opt)
      (hvalue : opt.alone = some value ∨ value <:+ after) :
      g.Spells ⟨'-' :: (before ++ c :: after), false, opt.sets, value⟩
  | letterApart {before value : List Char} {c : Char} {opt : Opt ι} (hopt : g.short c = some opt)
      (halone : opt.alone = none) : g.Spells ⟨'-' :: (before ++ [c]), true, opt.sets, value⟩

/-- What an argument gives is spelled in it, whatever is its value. -/
def Grammar.Reads (g : Grammar ι) (arg : List Char) : List (Given ι) × State ι → Prop
  | (given, s) => (∀ o ∈ given, g.Spells o ∧ o.apart = false ∧ o.arg = arg) ∧
      ∀ a opt, s = .waits a opt → a = arg ∧ ∀ value, g.Spells ⟨arg, true, opt.sets, value⟩

theorem reads_give (h : g.Spells ⟨arg, false, opt.sets, value⟩)
    (hgive : opt.give arg false value = some (given, s)) : g.Reads arg (given, s) := by
  unfold Opt.give at hgive
  split at hgive
  · cases hgive
    refine ⟨fun o ho => ?_, nofun⟩
    rw [List.mem_singleton.mp ho]
    exact ⟨h, rfl, rfl⟩
  · cases hgive

theorem reads_waits (h : ∀ value, g.Spells ⟨arg, true, opt.sets, value⟩) :
    g.Reads arg ([], .waits arg opt) := by
  refine ⟨nofun, fun a opt' heq => ?_⟩
  cases heq
  exact ⟨rfl, h⟩

theorem takeWhile_append_tail {t : List Char} (h : '=' ∈ t) :
    t.takeWhile (· ≠ '=') ++ '=' :: (t.dropWhile (· ≠ '=')).tail = t := by
  induction t with
  | nil => cases h
  | cons c t ih =>
    by_cases hc : c = '='
    · simp [hc]
    · have hmem : '=' ∈ t := (List.mem_cons.mp h).resolve_left (Ne.symm hc)
      simpa [hc] using ih hmem

theorem reads_long {name : List Char}
    (h : g.readLong ('-' :: '-' :: name) name = some (given, s)) :
    g.Reads ('-' :: '-' :: name) (given, s) := by
  unfold Grammar.readLong at h
  split at h
  · cases h
  · obtain ⟨opt, hopt, h⟩ := Option.bind_eq_some_iff.mp h
    split at h
    · rename_i heq
      have hspelled : g.Spells ⟨'-' :: '-' :: (name.takeWhile (· ≠ '=') ++
          '=' :: (name.dropWhile (· ≠ '=')).tail), false, opt.sets,
          (name.dropWhile (· ≠ '=')).tail⟩ := .joined hopt
      rw [takeWhile_append_tail heq] at hspelled
      exact reads_give hspelled h
    · rename_i hne
      have hname : name.takeWhile (· ≠ '=') = name :=
        by
        rw [List.takeWhile_eq_self_iff]
        intro c hc
        simpa using ne_of_mem_of_not_mem hc hne
      rw [hname] at hopt
      split at h
      · rename_i halone
        exact reads_give (.alone hopt halone) h
      · rename_i halone
        cases h
        exact reads_waits fun value => .apart hopt halone

theorem reads_short {before letters : List Char} (harg : arg = '-' :: (before ++ letters))
    (h : g.readShort arg letters = some (given, s)) : g.Reads arg (given, s) := by
  induction letters generalizing before given with
  | nil =>
    cases h
    exact ⟨nofun, nofun⟩
  | cons c rest ih =>
    rw [Grammar.readShort] at h
    obtain ⟨opt, hopt, h⟩ := Option.bind_eq_some_iff.mp h
    split at h
    · rename_i d value
      refine reads_give ?_ h
      rw [harg]
      exact .letter hopt (Or.inr (List.suffix_cons _ _))
    · split at h
      · rename_i value halone
        obtain ⟨⟨first, s₁⟩, hfirst, h⟩ := Option.bind_eq_some_iff.mp h
        obtain ⟨⟨later, s₂⟩, hlater, h⟩ := Option.map_eq_some_iff.mp h
        cases h
        have hspelled : g.Spells ⟨arg, false, opt.sets, value⟩ := by
          rw [harg]
          exact .letter hopt (Or.inl halone)
        have harg' : arg = '-' :: ((before ++ [c]) ++ rest) := by
          rw [harg, List.append_assoc]
          rfl
        have hrest : g.Reads arg (later, s₂) := ih harg' hlater
        refine ⟨fun o ho => ?_, hrest.2⟩
        rcases List.mem_append.mp ho with ho | ho
        · exact (reads_give hspelled hfirst).1 o ho
        · exact hrest.1 o ho
      · rename_i halone
        split at h
        · rename_i hnil
          cases h
          refine reads_waits fun value => ?_
          rw [harg, hnil]
          exact .letterApart hopt halone
        · refine reads_give ?_ h
          rw [harg]
          exact .letter hopt (Or.inr (List.suffix_refl _))

/-- An argument read where options are expected. -/
theorem reads_step (h : g.step .options arg = some (given, s)) : g.Reads arg (given, s) := by
  unfold Grammar.step at h
  split at h
  · rename_i heq
    cases heq
  · rename_i heq
    cases heq
  · cases h
    exact ⟨nofun, nofun⟩
  · exact reads_long h
  · exact @reads_short _ _ _ _ _ [] _ rfl h
  · cases h
    exact ⟨nofun, nofun⟩

/-! ## Where an option stands -/

/-- The arguments of an option. -/
def Given.standing (o : Given ι) : List (List Char) := if o.apart then [o.arg, o.value] else [o.arg]

/-- The argument whose option waits for its value. -/
def State.pending : State ι → List (List Char)
  | .waits arg _ => [arg]
  | _ => []

/-- An option that waits is spelled right, whatever its value. -/
def Grammar.Sound (g : Grammar ι) (s : State ι) : Prop :=
  ∀ arg opt, s = .waits arg opt → ∀ value, g.Spells ⟨arg, true, opt.sets, value⟩

theorem sound_options : g.Sound (.options : State ι) := nofun

/-- One step: what it gives, and what it waits for, are in the arguments read. -/
theorem step_stands (hs : g.Sound s) (h : g.step s arg = some (given, s')) :
    (∀ o ∈ given, g.Spells o ∧ o.standing <:+: s.pending ++ [arg]) ∧ g.Sound s' ∧
      (s'.pending = [] ∨ s'.pending = [arg]) := by
  cases s with
  | ended =>
    cases h
    exact ⟨nofun, nofun, Or.inl rfl⟩
  | waits a opt =>
    change opt.give a true arg = _ at h
    unfold Opt.give at h
    split at h
    · cases h
      refine ⟨fun o ho => ?_, nofun, Or.inl rfl⟩
      rw [List.mem_singleton.mp ho]
      exact ⟨hs a opt rfl arg, List.infix_refl _⟩
    · cases h
  | options =>
    obtain ⟨hgiven, hwaits⟩ := reads_step h
    refine ⟨fun o ho => ?_, fun a opt heq => ?_, ?_⟩
    · obtain ⟨hspelled, hapart, harg⟩ := hgiven o ho
      unfold Given.standing
      rw [hapart, harg]
      exact ⟨hspelled, List.infix_refl _⟩
    · obtain ⟨rfl, hspelled⟩ := hwaits a opt heq
      exact hspelled
    · cases s' with
      | waits a opt =>
        rw [← (hwaits a opt rfl).1]
        exact Or.inr rfl
      | _ => exact Or.inl rfl

/-- What is read is in the arguments, spelled as an option can be. -/
theorem run_stands (hs : g.Sound s) (h : g.run s args = some (given, s')) :
    (∀ o ∈ given, g.Spells o ∧ o.standing <:+: s.pending ++ args) ∧ g.Sound s' := by
  induction args generalizing s given with
  | nil =>
    cases h
    exact ⟨nofun, hs⟩
  | cons arg args ih =>
    obtain ⟨first, s₁, later, hfirst, hlater, rfl⟩ := run_cons.mp h
    obtain ⟨hgiven, hsound, hpending⟩ := step_stands hs hfirst
    obtain ⟨hrest, hsound'⟩ := ih hsound hlater
    -- what is read after the step was there before it
    have hsuffix : s₁.pending ++ args <:+ s.pending ++ arg :: args := by
      rcases hpending with hnil | harg
      · rw [hnil, List.nil_append]
        exact ((List.suffix_cons arg args).trans (List.suffix_append _ _))
      · rw [harg]
        exact List.suffix_append _ _
    refine ⟨fun o ho => ?_, hsound'⟩
    rcases List.mem_append.mp ho with ho | ho
    · refine (hgiven o ho).imp id fun hinfix => hinfix.trans ?_
      rw [List.append_cons s.pending arg args]
      exact (List.prefix_append (s.pending ++ [arg]) args).isInfix
    · exact (hrest o ho).imp id fun hinfix => hinfix.trans hsuffix.isInfix

end Infinito.Lib.Flags
