import Mathlib.Data.List.Dedup
import Mathlib.Data.List.Sort
import Infinito.Lib.Regex
import Infinito.Py.Text

/-!
# `mask_secrets`

The masker of `services/job_runner/secrets.py`: the secrets of the job are overwritten by
`MASK`, longest first, and then whatever five patterns recognise as a credential.

Two facts are all the log stream needs of it. A secret it was given is not in its result
(`not_infix_maskSecrets`). And it never spells a text that was not there before
(`infix_of_infix_maskSecrets`): everything it writes is asterisks, so the result is the
text blotted. Both are for secrets without an asterisk; `"**"` is in every masked line.
-/

set_option autoImplicit false

namespace Infinito.Jobs

open Py Lib

/-- `"********"` -/
def MASK : Text := List.replicate 8 '*'

def isStar (c : Char) : Prop := c = '*'

theorem mask_ne_nil : MASK ≠ [] := by decide

theorem mask_stars : ∀ c ∈ MASK, isStar c := by
  intro c hc
  exact (List.mem_replicate.mp hc).2

/-! ## The secrets of a request -/

/-- What a deployment request carries in confidence, and the vault password `create`
    reads from the workspace's key store. The schema refuses empty values. -/
structure Credentials where
  masterPassword : Option Text
  authPassword : Option Text
  authPrivateKey : Option Text
  authPassphrase : Option Text
  runtimeVaultPassword : Option Text

/-- `_dedupe`: the first of equal items stays. -/
def dedupe (items : List Text) : List Text :=
  items.foldl (fun out item => if item ∈ out then out else out ++ [item]) []

def collectSecrets (req : Credentials) : List Text :=
  dedupe <|
    ((truthy req.masterPassword).toList ++ (truthy req.authPassword).toList ++
      match truthy req.authPrivateKey with
      | none => []
      | some key => key :: ((splitlines key).map strip).filter (· ≠ [])) ++
    (truthy req.authPassphrase).toList

/-- The list `create` hands to `_remember_secrets` and to the runner. -/
def jobSecrets (req : Credentials) : List Text :=
  let secrets := collectSecrets req
  match truthy req.runtimeVaultPassword with
  | none => secrets
  | some password => if password ∈ secrets then secrets else secrets ++ [password]

theorem mem_dedupe {items : List Text} {s : Text} : s ∈ dedupe items ↔ s ∈ items := by
  have key : ∀ (items out : List Text),
      s ∈ items.foldl (fun out item => if item ∈ out then out else out ++ [item]) out ↔
        s ∈ out ∨ s ∈ items := by
    intro items
    induction items with
    | nil => simp
    | cons item items ih =>
      intro out
      rw [List.foldl_cons, ih]
      by_cases hmem : item ∈ out
      · rw [if_pos hmem, List.mem_cons]
        constructor
        · rintro (h | h)
          · exact Or.inl h
          · exact Or.inr (Or.inr h)
        · rintro (h | rfl | h)
          · exact Or.inl h
          · exact Or.inl hmem
          · exact Or.inr h
      · rw [if_neg hmem, List.mem_append, List.mem_singleton, List.mem_cons, or_assoc]
  simpa [dedupe] using key items []

theorem truthy_ne_nil {x : Option Text} {s : Text} (h : truthy x = some s) : s ≠ [] := by
  cases x with
  | none => cases h
  | some t => exact (orNone_eq_some.mp h).2

/-- No collected secret is empty. -/
theorem ne_nil_of_mem_jobSecrets {req : Credentials} {s : Text} (h : s ∈ jobSecrets req) :
    s ≠ [] := by
  have hcollected : s ∈ collectSecrets req → s ≠ [] := by
    intro hs
    unfold collectSecrets at hs
    rw [mem_dedupe] at hs
    simp only [List.mem_append, Option.mem_toList] at hs
    rcases hs with ((hs | hs) | hs) | hs
    · exact truthy_ne_nil hs
    · exact truthy_ne_nil hs
    · split at hs
      · cases hs
      · rename_i key hkey
        rcases List.mem_cons.mp hs with rfl | hs
        · exact truthy_ne_nil hkey
        · simpa using (List.mem_filter.mp hs).2
    · exact truthy_ne_nil hs
  unfold jobSecrets at h
  dsimp only at h
  split at h
  · exact hcollected h
  · rename_i password hpassword
    split at h
    · exact hcollected h
    · rcases List.mem_append.mp h with h | h
      · exact hcollected h
      · rw [List.mem_singleton.mp h]
        exact truthy_ne_nil hpassword

/-! ## `str.replace` -/

/-- `text.replace(old, new)` for a non-empty `old`, with the first `skip` characters
    already replaced. -/
def replaceFrom (old new : Text) : Nat → Text → Text
  | _, [] => []
  | skip + 1, _ :: t => replaceFrom old new skip t
  | 0, c :: t =>
      if old.isPrefixOf (c :: t) then new ++ replaceFrom old new (old.length - 1) t
      else c :: replaceFrom old new 0 t

def replace (text old new : Text) : Text := replaceFrom old new 0 text

/-! ## The patterns -/

/-- A letter as `(?i)` matches it: ſ is an s, the Kelvin sign a k, and the two Turkish i's
    an i. -/
def likeIgnoringCase (c x : Char) : Bool :=
  asciiLower x = c || (c = 's' && x = 'ſ') || (c = 'k' && x = '\u212a') ||
    (c = 'i' && (x = 'İ' || x = 'ı'))

def isLetter (x : Char) : Bool :=
  (97 ≤ (asciiLower x).toNat && (asciiLower x).toNat ≤ 122) || x = 'ſ' || x = '\u212a' || x = 'İ' ||
    x = 'ı'

/-- `(?i)[A-Za-z0-9_-]` -/
def isTokenChar (x : Char) : Bool :=
  isLetter x || (48 ≤ x.toNat && x.toNat ≤ 57) || x = '_' || x = '-'

/-- `[A-Za-z0-9_-]` -/
def isWordChar (x : Char) : Bool :=
  (97 ≤ (asciiLower x).toNat && (asciiLower x).toNat ≤ 122) ||
    (48 ≤ x.toNat && x.toNat ≤ 57) || x = '_' || x = '-'

section
open Re

def spaces : Re := many true (chr isSpace)

def spaces1 : Re := many1 (chr isSpace)

def literal (t : Text) : Re := text (fun c x => c = x) t

def literalIgnoringCase (t : Text) : Re := text likeIgnoringCase t

/-- `([^\s]+)` -/
def nonSpaces : Re := many1 (chr fun c => !isSpace c)

/-- The patterns of `_INLINE_VALUE_PATTERNS`, each by its first group; the second is
    `nonSpaces` in all of them. -/
def inlineValuePatterns : List Re :=
  [ seq (anyOf (["password", "passwd", "passphrase", "secret", "token", "apikey", "api_key",
        "access_key", "private_key"].map fun key => literalIgnoringCase key.toList))
      (seq spaces (seq (chr fun c => c = ':' || c = '=') spaces)),
    seq (literalIgnoringCase "sshpass") (seq spaces1 (seq (literalIgnoringCase "-p") spaces1)),
    seq (literalIgnoringCase "--password") spaces1,
    seq (literalIgnoringCase "--token") spaces1 ]

def tokenValue : Re :=
  seq (notBehind isTokenChar)
    (seq (ahead (seq (many true (chr isTokenChar)) (chr isLetter)))
      (seq (ahead (seq (many true (chr isTokenChar)) (chr isDecimal)))
        (seq (times 20 (chr isTokenChar))
          (seq (many true (chr isTokenChar)) (notAhead (chr isTokenChar))))))

def jwtValue : Re :=
  let part := many1 (chr isWordChar)
  seq bol (seq part (seq (literal ".") (seq part (seq (literal ".") (seq part eol)))))

def privateKeyBlock : Re :=
  let kind := many true (chr fun c => (65 ≤ c.toNat && c.toNat ≤ 90) || c = ' ')
  seq (literal "-----BEGIN ") (seq kind (seq (literal "PRIVATE KEY-----")
    (seq (many false (chr fun _ => true))
      (seq (literal "-----END ") (seq kind (literal "PRIVATE KEY-----"))))))

end

/-! ## The masker -/

/-- The order in which Python iterates over a set of strings: every element once, and
    nothing more is promised. -/
structure SetOrder where
  order : List Text → List Text
  nodup : ∀ l, (order l).Nodup
  mem : ∀ l x, x ∈ order l ↔ x ∈ l

def SetOrder.firstSeen : SetOrder where
  order := List.dedup
  nodup := List.nodup_dedup
  mem _ _ := List.mem_dedup

/-- `sorted(secret_set, key=len, reverse=True)` -/
def longestFirst (secrets : List Text) : List Text :=
  secrets.insertionSort fun a b => b.length ≤ a.length

def maskSecrets (so : SetOrder) (text : Text) (secrets : List Text) : Text :=
  if text = [] then text
  else
    let secretSet := so.order (secrets.filter (· ≠ []))
    let redacted := (longestFirst secretSet).foldl (fun t secret => replace t secret MASK) text
    let redacted := Re.sub .eps privateKeyBlock (fun kept _ => kept ++ MASK) redacted
    let redacted := inlineValuePatterns.foldl
      (fun t head => Re.sub head nonSpaces (fun kept _ => kept ++ MASK) t) redacted
    if jwtValue.matches none redacted ≠ [] then MASK
    else Re.sub .eps tokenValue (fun kept _ => kept ++ MASK) redacted

/-! ## What masking leaves -/

theorem replaceFrom_blot {old : Text} (hne : old ≠ []) {skip : Nat} {t : Text} :
    Blot isStar (t.drop skip) (replaceFrom old MASK skip t) := by
  induction t generalizing skip with
  | nil =>
    rw [List.drop_nil]
    exact .nil
  | cons c t ih =>
    cases skip with
    | succ skip => exact ih
    | zero =>
      simp only [replaceFrom, List.drop_zero]
      split
      · rename_i hpre
        obtain ⟨rest, hrest⟩ := List.isPrefixOf_iff_prefix.mp hpre
        have hdrop : t.drop (old.length - 1) = rest := by
          have hlen : 0 < old.length := List.length_pos_iff.mpr hne
          calc t.drop (old.length - 1)
              = (c :: t).drop (old.length - 1 + 1) := rfl
            _ = (c :: t).drop old.length := by rw [Nat.sub_add_cancel hlen]
            _ = rest := by rw [← hrest, List.drop_left]
        rw [← hrest]
        refine .mark old mask_ne_nil mask_stars ?_
        rw [← hdrop]
        exact ih
      · refine .keep c ?_
        rw [← List.drop_zero (l := t)]
        exact ih

theorem replace_blot {old : Text} (hne : old ≠ []) (t : Text) :
    Blot isStar t (replace t old MASK) := by
  rw [← List.drop_zero (l := t)]
  exact replaceFrom_blot hne

/-- What is replaced is gone: a match could only start where one was just ruled out. -/
theorem not_infix_replaceFrom {old : Text} (hne : old ≠ []) (hstar : '*' ∉ old) {skip : Nat}
    {t : Text} : ¬ old <:+: replaceFrom old MASK skip t := by
  have hfree : ∀ c ∈ old, ¬ isStar c := by
    intro c hc h
    rw [h] at hc
    exact hstar hc
  induction t generalizing skip with
  | nil =>
    intro h
    cases skip <;> exact hne (List.infix_nil.mp h)
  | cons c t ih =>
    intro h
    cases skip with
    | succ skip => exact ih h
    | zero =>
      simp only [replaceFrom] at h
      split at h
      · exact ih (isInfix_of_marks_append mask_stars hfree h)
      · rename_i hpre
        rcases List.infix_cons_iff.mp h with hhead | hin
        · have hblot : Blot isStar (c :: t) (c :: replaceFrom old MASK 0 t) := .keep c (by
            rw [← List.drop_zero (l := t)]
            exact replaceFrom_blot hne)
          exact hpre (List.isPrefixOf_iff_prefix.mpr (hblot.isPrefix hfree hhead))
        · exact ih hin

/-- `t'` spells nothing, asterisks aside, that `t` does not. -/
def Hides (t t' : Text) : Prop := ∀ w : Text, '*' ∉ w → w <:+: t' → w <:+: t

theorem Hides.refl (t : Text) : Hides t t := fun _ _ h => h

theorem Hides.trans {t t' t'' : Text} (h : Hides t t') (h' : Hides t' t'') : Hides t t'' :=
  fun w hw hin => h w hw (h' w hw hin)

theorem hides_of_blot {t t' : Text} (h : Blot isStar t t') : Hides t t' := by
  intro w hw hin
  refine h.isInfix ?_ hin
  intro c hc hstar
  rw [hstar] at hc
  exact hw hc

theorem hides_mask (t : Text) : Hides t MASK := by
  intro w hw hin
  cases w with
  | nil => exact List.nil_infix
  | cons c w =>
    have hc := mask_stars c (hin.subset List.mem_cons_self)
    rw [hc] at hw
    exact absurd List.mem_cons_self hw

theorem hides_sub {r s : Re} (t : Text) : Hides t (Re.sub r s (fun kept _ => kept ++ MASK) t) :=
  hides_of_blot (Re.sub_blot mask_ne_nil mask_stars t)

theorem hides_foldl {α : Type} {f : Text → α → Text} {l : List α}
    (hf : ∀ a ∈ l, ∀ t, Hides t (f t a)) (t : Text) : Hides t (l.foldl f t) := by
  induction l generalizing t with
  | nil => exact Hides.refl t
  | cons a l ih =>
    have hrest := ih (fun b hb => hf b (List.mem_cons_of_mem _ hb)) (f t a)
    exact (hf a List.mem_cons_self t).trans hrest

/-- The secrets' part of the masker. -/
def maskListed (so : SetOrder) (text : Text) (secrets : List Text) : Text :=
  (longestFirst (so.order (secrets.filter (· ≠ [])))).foldl
    (fun t secret => replace t secret MASK) text

theorem mem_longestFirst {so : SetOrder} {secrets : List Text} {s : Text} :
    s ∈ longestFirst (so.order (secrets.filter (· ≠ []))) ↔ s ∈ secrets ∧ s ≠ [] := by
  unfold longestFirst
  rw [List.mem_insertionSort, so.mem, List.mem_filter, decide_eq_true_eq]

theorem hides_maskListed (so : SetOrder) (text : Text) (secrets : List Text) :
    Hides text (maskListed so text secrets) :=
  hides_foldl (fun _ hs t => hides_of_blot (replace_blot (mem_longestFirst.mp hs).2 t)) text

/-- The patterns only hide further. -/
theorem hides_maskSecrets_of_listed (so : SetOrder) (text : Text) (secrets : List Text) :
    Hides (maskListed so text secrets) (maskSecrets so text secrets) := by
  unfold maskSecrets
  split
  · rename_i htext
    intro w _ hin
    rw [htext] at hin
    rw [List.infix_nil.mp hin]
    exact List.nil_infix
  · dsimp only
    split
    · exact hides_mask _
    · refine (hides_sub _).trans ((hides_foldl ?_ _).trans (hides_sub _))
      exact fun _ _ t => hides_sub t

/-- **Masking spells nothing new.** -/
theorem infix_of_infix_maskSecrets {so : SetOrder} {text w : Text} {secrets : List Text}
    (hstar : '*' ∉ w) (h : w <:+: maskSecrets so text secrets) : w <:+: text :=
  (hides_maskListed so text secrets).trans (hides_maskSecrets_of_listed so text secrets) w hstar h

theorem not_infix_foldl_replace {s : Text} (hstar : '*' ∉ s) {l : List Text}
    (hl : ∀ x ∈ l, x ≠ []) (hs : s ∈ l) (t : Text) :
    ¬ s <:+: l.foldl (fun t secret => replace t secret MASK) t := by
  induction l generalizing t with
  | nil => cases hs
  | cons a l ih =>
    intro h
    have hl' : ∀ x ∈ l, x ≠ [] := fun x hx => hl x (List.mem_cons_of_mem _ hx)
    rcases List.mem_cons.mp hs with rfl | hs
    · have hrest : Hides (replace t s MASK) (l.foldl _ (replace t s MASK)) :=
        hides_foldl (fun x hx t => hides_of_blot (replace_blot (hl' x hx) t)) _
      exact not_infix_replaceFrom (hl s List.mem_cons_self) hstar (hrest s hstar h)
    · exact ih hl' hs _ h

/-- **A secret the masker was given is not in its result.** -/
theorem not_infix_maskSecrets {so : SetOrder} {text s : Text} {secrets : List Text}
    (hs : s ∈ secrets) (hne : s ≠ []) (hstar : '*' ∉ s) :
    ¬ s <:+: maskSecrets so text secrets := by
  intro h
  have hlisted := hides_maskSecrets_of_listed so text secrets s hstar h
  refine not_infix_foldl_replace hstar ?_ (mem_longestFirst.mpr ⟨hs, hne⟩) text hlisted
  exact fun x hx => (mem_longestFirst.mp hx).2

/-- **Masking removes every secret**, however the secrets overlap or repeat, and whatever the
    patterns take for a credential. -/
theorem masks_every_secret (so : SetOrder) (text : Text) (secrets : List Text)
    (hsecrets : ∀ s ∈ secrets, s ≠ [] ∧ '*' ∉ s) :
      ∀ s ∈ secrets, ¬ s <:+: maskSecrets so text secrets := by
  intro s hs
  obtain ⟨hne, hstar⟩ := hsecrets s hs
  exact not_infix_maskSecrets hs hne hstar

/-- Two secrets, one within the other and overlapping itself in the text. -/
theorem masks_every_secret_overlap :
    ¬ "aba".toList <:+: maskSecrets .firstSeen "token=ababa abab" ["aba", "ab", "aba"] ∧
      ¬ "ab".toList <:+: maskSecrets .firstSeen "token=ababa abab" ["aba", "ab", "aba"] := by
  have hsecrets : ∀ s ∈ ["aba".toList, "ab".toList, "aba".toList], s ≠ [] ∧ '*' ∉ s := by
    intro s hs
    simp only [List.mem_cons, List.not_mem_nil, or_false] at hs
    rcases hs with rfl | rfl | rfl <;> decide
  have hall := masks_every_secret .firstSeen "token=ababa abab" _ hsecrets
  exact ⟨hall _ List.mem_cons_self, hall _ (List.mem_cons_of_mem _ List.mem_cons_self)⟩

example : maskSecrets .firstSeen "login root hunter2 --token abc" ["hunter2".toList] =
    "login root ******** --token ********" := by decide

end Infinito.Jobs
