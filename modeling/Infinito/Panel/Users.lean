import Infinito.Orders.Customers
import Infinito.Lib.Json

/-!
# The users of the panel

What the panel has of a user is what `normalizeWorkspaceUser` makes of an entry. `Normalized` says
what is known of such a user, whatever the entry was: its texts are trimmed and not empty, its
numbers were read, its lists have elements.

The rest is what the panel relies on of the language: numbers written and read back (`Numbers`),
and JSON.
-/

set_option autoImplicit false

namespace Infinito.Panel

open Py Lib
open Infinito.Orders (Client WorkspaceUser isJsSpace jsTrim jsTrim_jsTrim asTrimmed orElse
  usernamePattern parseOptionalInt parseStringList parseOptionalObject parseReserved nonEmpty
  normalizeWorkspaceUser dedupeWorkspaceUsers extractWorkspaceUsers mapUser isSlugChar
  isSlugChar_range)

variable (client : Client)

/-! ## Numbers and JSON -/

/-- `Number` and `String` on numbers. -/
structure Numbers : Prop where
  number_string : ∀ {t q}, client.number t = some q → 0 ≤ q.floor →
    client.number (client.string (.int q.floor)) = some q.floor
  string_int : ∀ n, client.string (.int n) ≠ [] ∧
    ∀ c ∈ client.string (.int n), c.isDigit = true ∨ c ∈ ['e', '.', '+', '-']
  string_float : ∀ q, ∀ c ∈ client.string (.float q), c.isDigit = true ∨ c ∈ ['e', '.', '+', '-']

/-- A key of an object. -/
def keyText : Val → Text
  | .str t => t
  | key => client.string key

mutual

/-- `JSON.stringify` -/
def jsonText : Val → Text
  | .none => "null".toList
  | .bool b => if b then "true".toList else "false".toList
  | .int n => client.string (.int n)
  | .float q => client.string (.float q)
  | .str t => Json.printText t
  | .list xs => '[' :: [','].intercalate (jsonTexts xs) ++ [']']
  | .dict items => '\x7b' :: [','].intercalate (jsonMembers items) ++ ['\x7d']
  | .other t => Json.printText t

def jsonTexts : List Val → List Text
  | [] => []
  | x :: xs => jsonText x :: jsonTexts xs

def jsonMembers : Dict → List Text
  | [] => []
  | (key, value) :: items =>
      (Json.printText (keyText client key) ++ ':' :: jsonText value) :: jsonMembers items

end

/-- `YAML.parse` reads a value as it was written by `JSON.stringify`. -/
def Inverts (value : Val) : Prop := client.parse (jsonText client value) = some value

section Json
variable {client}

theorem not_mem_of_number {t : Text}
    (h : ∀ c ∈ t, c.isDigit = true ∨ c ∈ ['e', '.', '+', '-']) : '\r' ∉ t := by
  intro hmem
  rcases h _ hmem with h | h <;> exact absurd h (by decide)

theorem mem_intercalate {c : Char} {sep : Text} {parts : List Text}
    (h : c ∈ sep.intercalate parts) : c ∈ sep ∨ ∃ part ∈ parts, c ∈ part := by
  induction parts with
  | nil => exact absurd h List.not_mem_nil
  | cons part parts ih =>
    cases parts with
    | nil =>
      rw [List.intercalate_singleton] at h
      exact Or.inr ⟨part, List.mem_cons_self, h⟩
    | cons next parts =>
      rw [List.intercalate_cons_cons, List.mem_append, List.mem_append] at h
      rcases h with (h | h) | h
      · exact Or.inr ⟨part, List.mem_cons_self, h⟩
      · exact Or.inl h
      · exact (ih h).imp_right fun ⟨p, hp, hc⟩ => ⟨p, List.mem_cons_of_mem _ hp, hc⟩

mutual

/-- What is written as JSON has no carriage return: in a text it is escaped. -/
theorem not_mem_jsonText (h : Numbers client) : ∀ value, '\r' ∉ jsonText client value
  | .none => by rw [jsonText]; decide
  | .bool b => by rw [jsonText]; cases b <;> decide
  | .int n => by rw [jsonText]; exact not_mem_of_number (h.string_int n).2
  | .float q => by rw [jsonText]; exact not_mem_of_number (h.string_float q)
  | .str t => by rw [jsonText]; exact Json.not_mem_printText t
  | .other t => by rw [jsonText]; exact Json.not_mem_printText t
  | .list xs => by
    rw [jsonText, List.cons_append, List.mem_cons, List.mem_append, List.mem_singleton]
    rintro (hc | hc | hc)
    · exact absurd hc (by decide)
    · rcases mem_intercalate hc with hc | ⟨part, hpart, hc⟩
      · exact absurd hc (by decide)
      · exact not_mem_jsonTexts h xs part hpart hc
    · exact absurd hc (by decide)
  | .dict items => by
    rw [jsonText, List.cons_append, List.mem_cons, List.mem_append, List.mem_singleton]
    rintro (hc | hc | hc)
    · exact absurd hc (by decide)
    · rcases mem_intercalate hc with hc | ⟨part, hpart, hc⟩
      · exact absurd hc (by decide)
      · exact not_mem_jsonMembers h items part hpart hc
    · exact absurd hc (by decide)

theorem not_mem_jsonTexts (h : Numbers client) :
    ∀ xs, ∀ part ∈ jsonTexts client xs, '\r' ∉ part
  | [], part, hpart => absurd hpart (by rw [jsonTexts]; exact List.not_mem_nil)
  | x :: xs, part, hpart => by
    rw [jsonTexts] at hpart
    rcases List.mem_cons.mp hpart with rfl | hpart
    · exact not_mem_jsonText h x
    · exact not_mem_jsonTexts h xs part hpart

theorem not_mem_jsonMembers (h : Numbers client) :
    ∀ items, ∀ part ∈ jsonMembers client items, '\r' ∉ part
  | [], part, hpart => absurd hpart (by rw [jsonMembers]; exact List.not_mem_nil)
  | (key, value) :: items, part, hpart => by
    rw [jsonMembers] at hpart
    rcases List.mem_cons.mp hpart with rfl | hpart
    · rw [List.mem_append, List.mem_cons]
      rintro (hc | hc | hc)
      · exact Json.not_mem_printText _ hc
      · exact absurd hc (by decide)
      · exact not_mem_jsonText h value hc
    · exact not_mem_jsonMembers h items part hpart

end

/-- What does not begin and end with a blank is trimmed. -/
theorem jsTrim_between {first last : Char} (hfirst : isJsSpace first = false)
    (hlast : isJsSpace last = false) (t : Text) :
    jsTrim (first :: t ++ [last]) = first :: t ++ [last] := by
  unfold jsTrim
  rw [List.cons_append, List.dropWhile_cons_of_neg (by rw [hfirst]; exact Bool.false_ne_true),
    ← List.cons_append, List.rdropWhile_concat_neg _ _ _ (by rw [hlast]; exact Bool.false_ne_true)]

theorem jsTrim_jsonList (xs : List Val) :
    jsTrim (jsonText client (.list xs)) = jsonText client (.list xs) := by
  rw [jsonText]
  exact jsTrim_between (by decide) (by decide) _

theorem jsTrim_jsonDict (items : Dict) :
    jsTrim (jsonText client (.dict items)) = jsonText client (.dict items) := by
  rw [jsonText]
  exact jsTrim_between (by decide) (by decide) _

end Json

/-! ## What is known of a user -/

/-- A trimmed text that is not empty. -/
def IsText (t : Text) : Prop := jsTrim t = t ∧ t ≠ []

/-- A number that was read. -/
def IsNumber (n : Nat) : Prop := ∃ t q, client.number t = some q ∧ 0 ≤ q.floor ∧ n = q.floor.toNat

/-- A list that is kept. -/
def IsTexts (ts : List Text) : Prop := ts ≠ [] ∧ ∀ t ∈ ts, IsText t

structure Normalized (user : WorkspaceUser) : Prop where
  username : usernamePattern user.username = true
  firstname : IsText user.firstname
  lastname : IsText user.lastname
  email : ∀ t, user.email = some t → IsText t
  password : ∀ t, user.password = some t → IsText t
  uid : ∀ n, user.uid = some n → IsNumber client n
  gid : ∀ n, user.gid = some n → IsNumber client n
  roles : ∀ ts, user.roles = some ts → IsTexts ts
  tokens : ∀ d, user.tokens = some d → d ≠ []
  authorizedKeys : ∀ ts, user.authorizedKeys = some ts → IsTexts ts
  description : ∀ t, user.description = some t → IsText t

section Normalized
variable {client} {value : Val} {fallback : Option Text} {user : WorkspaceUser}

theorem jsTrim_asTrimmed (value : Val) : jsTrim (asTrimmed client value) = asTrimmed client value :=
  jsTrim_jsTrim _

theorem isText_of_orNone {value : Val} {t : Text} (h : orNone (asTrimmed client value) = some t) :
    IsText t := by
  obtain ⟨rfl, hne⟩ := orNone_eq_some.mp h
  exact ⟨jsTrim_asTrimmed value, hne⟩

theorem isNumber_of_parse {n : Nat} (h : parseOptionalInt client value = some n) :
    IsNumber client n := by
  unfold parseOptionalInt at h
  split at h
  · rename_i q hq
    split at h
    · rename_i hread
      exact ⟨_, q, hq, hread.2, (Option.some.inj h).symm⟩
    · cases h
  · cases h

theorem isTexts_of_nonEmpty {values ts : List Text} (hvalues : ∀ t ∈ values, jsTrim t = t)
    (h : nonEmpty values = some ts) : IsTexts ts := by
  unfold nonEmpty at h
  dsimp only at h
  split at h
  · cases h
  · rename_i hne
    cases h
    refine ⟨hne, fun t ht => ?_⟩
    obtain ⟨hmem, hnonempty⟩ := List.mem_filter.mp ht
    exact ⟨hvalues t hmem, of_decide_eq_true hnonempty⟩

theorem isTexts_of_parse {ts : List Text} (h : parseStringList client value = some ts) :
    IsTexts ts := by
  have hlist : ∀ xs : List Val, ∀ t ∈ xs.map (asTrimmed client), jsTrim t = t := by
    intro xs t ht
    obtain ⟨x, -, rfl⟩ := List.mem_map.mp ht
    exact jsTrim_asTrimmed x
  unfold parseStringList at h
  dsimp only at h
  split at h
  · exact isTexts_of_nonEmpty (hlist _) h
  · split at h
    · cases h
    · exact isTexts_of_nonEmpty (hlist _) h
  · refine isTexts_of_nonEmpty ?_ h
    intro t ht
    obtain ⟨x, -, rfl⟩ := List.mem_map.mp ht
    exact jsTrim_jsTrim x

theorem normalized_of_normalize (h : normalizeWorkspaceUser client value fallback = some user) :
    Normalized client user := by
  unfold normalizeWorkspaceUser at h
  split at h
  · rename_i d
    dsimp only at h
    split at h
    · cases h
    · rename_i hvalid
      rw [not_or, not_or] at hvalid
      obtain ⟨hname, hfirst, hlast⟩ := hvalid
      cases h
      exact {
        username := by simpa using hname
        firstname := ⟨jsTrim_asTrimmed _, hfirst⟩
        lastname := ⟨jsTrim_asTrimmed _, hlast⟩
        email := fun _ h => isText_of_orNone h
        password := fun _ h => isText_of_orNone h
        uid := fun _ h => isNumber_of_parse h
        gid := fun _ h => isNumber_of_parse h
        roles := fun _ h => isTexts_of_parse h
        tokens := fun d h => by
          have hkeep := (Option.filter_eq_some_iff.mp h).2
          rintro rfl
          cases hkeep
        authorizedKeys := fun _ h => isTexts_of_parse h
        description := fun _ h => isText_of_orNone h }
  · cases h

end Normalized

/-! ## Fields that are read back -/

section Back
variable {client}

theorem asTrimmed_str {t : Text} (h : jsTrim t = t) : asTrimmed client (.str t) = t := h

theorem orNone_back {t : Option Text} (h : ∀ u, t = some u → IsText u) :
    orNone (asTrimmed client (.str (t.getD []))) = t := by
  cases t with
  | none => rfl
  | some u =>
    obtain ⟨htrim, hne⟩ := h u rfl
    rw [Option.getD_some, asTrimmed_str htrim, orNone_of_ne hne]

theorem jsTrim_slug {t : Text} (h : usernamePattern t = true) : jsTrim t = t := by
  unfold usernamePattern at h
  refine trim_of_forall fun c hc => ?_
  have hslug := isSlugChar_range (List.all_eq_true.mp (Bool.and_eq_true_iff.mp h).2 c hc)
  simp only [isJsSpace, Bool.or_eq_false_iff, Bool.and_eq_false_iff, decide_eq_false_iff_not,
    beq_eq_false_iff_ne]
  omega

theorem jsTrim_number (h : Numbers client) (n : Int) :
    jsTrim (client.string (.int n)) = client.string (.int n) := by
  have hsigns : ∀ c ∈ ['e', '.', '+', '-'], isJsSpace c = false := by
    simp only [List.forall_mem_cons]
    exact ⟨rfl, rfl, rfl, rfl, nofun⟩
  refine trim_of_forall fun c hc => ?_
  rcases (h.string_int n).2 c hc with hdigit | hsign
  · unfold Char.isDigit at hdigit
    rw [Bool.and_eq_true, decide_eq_true_eq, decide_eq_true_eq] at hdigit
    have hlow : 48 ≤ c.toNat := UInt32.le_iff_toNat_le.mp hdigit.1
    have hhigh : c.toNat ≤ 57 := UInt32.le_iff_toNat_le.mp hdigit.2
    simp only [isJsSpace, Bool.or_eq_false_iff, Bool.and_eq_false_iff, decide_eq_false_iff_not,
      beq_eq_false_iff_ne]
    omega
  · exact hsigns c hsign

/-- How a number is written, in a cell or in a form. -/
def numberText (client : Client) (n : Option Nat) : Text :=
  n.elim [] fun n => client.string (.int n)

theorem jsTrim_numberText (h : Numbers client) (n : Option Nat) :
    jsTrim (numberText client n) = numberText client n := by
  cases n with
  | none => rfl
  | some n => exact jsTrim_number h n

theorem parseOptionalInt_back (h : Numbers client) {n : Option Nat}
    (hn : ∀ m, n = some m → IsNumber client m) :
    parseOptionalInt client (.str (numberText client n)) = n := by
  cases n with
  | none =>
    unfold parseOptionalInt
    split
    · exact if_neg fun h => h.1 rfl
    · rfl
  | some m =>
    obtain ⟨t, q, hq, hpos, rfl⟩ := hn m rfl
    have htext : asTrimmed client (.str (numberText client (some q.floor.toNat))) =
        client.string (.int q.floor) := by
      rw [asTrimmed_str (jsTrim_numberText h _)]
      unfold numberText
      rw [Option.elim_some, Int.toNat_of_nonneg hpos]
    have hne := (h.string_int q.floor).1
    unfold parseOptionalInt
    rw [htext, h.number_string hq hpos]
    change (if _ ∧ 0 ≤ (q.floor : ℚ).floor then some (q.floor : ℚ).floor.toNat else none) = _
    rw [Rat.floor_intCast, if_pos ⟨hne, hpos⟩]

theorem nonEmpty_of_isTexts {ts : List Text} (h : IsTexts ts) : nonEmpty ts = some ts := by
  have hkeep : ts.filter (· ≠ []) = ts :=
    List.filter_eq_self.mpr fun t ht => decide_eq_true (h.2 t ht).2
  unfold nonEmpty
  rw [hkeep]
  exact if_neg h.1

/-- A list of texts, as a value. -/
def textsValue (ts : List Text) : Val := .list (ts.map .str)

theorem map_asTrimmed_texts {ts : List Text} (h : ∀ t ∈ ts, IsText t) :
    (ts.map Val.str).map (asTrimmed client) = ts := by
  rw [List.map_map]
  conv_rhs => rw [← List.map_id ts]
  exact List.map_congr_left fun t ht => asTrimmed_str (h t ht).1

/-- A list that is read from a text that is no list itself. -/
theorem parseStringList_of_parse {raw : Text} {ts : List Text} (hts : IsTexts ts)
    (htrim : jsTrim raw = raw) (hne : raw ≠ [])
    (hparse : client.parse raw = some (textsValue ts)) :
    parseStringList client (.str raw) = some ts := by
  unfold parseStringList
  dsimp only
  rw [asTrimmed_str htrim, hparse]
  unfold textsValue
  dsimp only
  rw [if_neg hne, map_asTrimmed_texts hts.2, nonEmpty_of_isTexts hts]

theorem parseOptionalObject_of_parse {raw : Text} {d : Dict} (htrim : jsTrim raw = raw)
    (hne : raw ≠ []) (hparse : client.parse raw = some (.dict d)) :
    parseOptionalObject client (.str raw) = some d := by
  unfold parseOptionalObject
  dsimp only
  rw [asTrimmed_str htrim, hparse]
  dsimp only
  rw [if_neg hne]

theorem parseStringList_empty : parseStringList client (.str []) = none := by
  have hcut : nonEmpty (([].splitOnP fun c => c = '\n' || c = ',' || c = '|').map jsTrim) = none := by
    rw [List.splitOnP_nil]
    decide
  unfold parseStringList
  rw [asTrimmed_str rfl]
  dsimp only
  split
  · rename_i heq
    cases heq
  · exact if_pos rfl
  · exact hcut

theorem parseOptionalObject_empty : parseOptionalObject client (.str []) = none := by
  unfold parseOptionalObject
  rw [asTrimmed_str rfl]
  dsimp only
  split
  · rename_i heq
    cases heq
  · exact if_pos rfl
  · rfl

end Back

/-! ## The users that are shown -/

section Shown
variable {client} {user : WorkspaceUser}

theorem mem_dedupe {users : List WorkspaceUser} (h : user ∈ dedupeWorkspaceUsers users) :
    user ∈ users := by
  have hfold : ∀ (users acc : List WorkspaceUser), user ∈ users.foldl (fun next user =>
      if user.username = [] then next
      else next.filter (fun u => u.username ≠ user.username) ++ [user]) acc →
      user ∈ acc ∨ user ∈ users := by
    intro users
    induction users with
    | nil => exact fun acc h => Or.inl h
    | cons first users ih =>
      intro acc h
      rcases ih _ h with h | h
      · dsimp only at h
        split at h
        · exact Or.inl h
        · rcases List.mem_append.mp h with h | h
          · exact Or.inl (List.mem_of_mem_filter h)
          · exact Or.inr (List.mem_singleton.mp h ▸ List.mem_cons_self)
      · exact Or.inr (List.mem_cons_of_mem _ h)
  exact (hfold users [] h).resolve_left List.not_mem_nil

theorem nodup_dedupe (users : List WorkspaceUser) :
    ((dedupeWorkspaceUsers users).map (·.username)).Nodup := by
  have hfold : ∀ (users acc : List WorkspaceUser), (acc.map (·.username)).Nodup →
      ((users.foldl (fun next user => if user.username = [] then next
        else next.filter (fun u => u.username ≠ user.username) ++ [user]) acc).map
          (·.username)).Nodup := by
    intro users
    induction users with
    | nil => exact fun acc h => h
    | cons first users ih =>
      intro acc h
      refine ih _ ?_
      dsimp only
      split
      · exact h
      · rw [List.map_append, List.nodup_append]
        refine ⟨(List.Sublist.map _ List.filter_sublist).nodup h, List.nodup_singleton _, ?_⟩
        rintro name hname other hother rfl
        obtain ⟨u, hu, rfl⟩ := List.mem_map.mp hname
        exact of_decide_eq_true (List.mem_filter.mp hu).2 (List.mem_singleton.mp hother)
  exact hfold users [] List.nodup_nil

/-- The panel never shows two users of one name, and every user it shows was normalised. -/
theorem extract_spec (client : Client) (value : Val) :
    ((extractWorkspaceUsers client value).map (·.username)).Nodup ∧
      ∀ user ∈ extractWorkspaceUsers client value, Normalized client user := by
  fun_induction extractWorkspaceUsers client value with
  | case1 entries =>
    refine ⟨nodup_dedupe _, fun user huser => ?_⟩
    obtain ⟨entry, -, hentry⟩ := List.mem_filterMap.mp (mem_dedupe huser)
    exact normalized_of_normalize hentry
  | case2 d users hd ih => exact ih
  | case3 d hd hsingle =>
    cases huser : normalizeWorkspaceUser client (.dict d) none with
    | none => exact ⟨List.nodup_nil, fun _ h => absurd h List.not_mem_nil⟩
    | some user =>
      refine ⟨List.nodup_singleton _, fun other hother => ?_⟩
      rw [List.mem_singleton.mp hother]
      exact normalized_of_normalize huser
  | case4 d hd hmany =>
    refine ⟨nodup_dedupe _, fun user huser => ?_⟩
    obtain ⟨⟨key, entry⟩, -, hentry⟩ := List.mem_filterMap.mp (mem_dedupe huser)
    unfold mapUser at hentry
    dsimp only at hentry
    split at hentry
    · exact normalized_of_normalize hentry
    · cases hentry
  | case5 value hlist hdict => exact ⟨List.nodup_nil, fun _ h => absurd h List.not_mem_nil⟩

end Shown

/-! ## A client for plain texts -/

/-- A client for texts that are plain scalars to YAML, and no numbers. -/
def plainClient : Client where
  string _ := ['0']
  number t := if t = ['0'] then some 0 else none
  parse t := some (.str t)

theorem numbers_plainClient : Numbers plainClient where
  number_string {t q} h _ := by
    have hq : q = 0 := by
      change (if t = ['0'] then some (0 : ℚ) else none) = some q at h
      split at h
      · exact (Option.some.inj h).symm
      · cases h
    rw [hq]
    rfl
  string_int n := ⟨List.cons_ne_nil _ _, by
    intro c hc
    rw [List.mem_singleton.mp hc]
    exact Or.inl rfl⟩
  string_float q := by
    intro c hc
    rw [List.mem_singleton.mp hc]
    exact Or.inl rfl

end Infinito.Panel
