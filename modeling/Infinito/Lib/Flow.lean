import Infinito.Lib.Json
import Infinito.Lib.Tree

/-!
# Trees of texts in flow style

A tree whose values are texts, written between braces with a comma behind each item, and its reader.
What is written is read again (`parse_print`), and no key of what is read comes twice
(`distinct_parse`).
-/

set_option autoImplicit false

namespace Infinito.Lib.Flow

open Lib.Tree

abbrev Doc := Tree (List Char) (List Char)

variable {n : Nat} {t rest key : List Char} {value : Doc} {m : List (List Char × Doc)}

/-! ## Writing and reading -/

mutual

def print : Doc → List Char
  | .leaf t => Json.printText t
  | .node m => '\x7b' :: printItems m

def printItems : List (List Char × Doc) → List Char
  | [] => ['\x7d']
  | (key, value) :: m => Json.printText key ++ (':' :: ' ' :: print value ++ ',' :: printItems m)

end

mutual

def read : Nat → List Char → Option (Doc × List Char)
  | n + 1, '\x7b' :: t => (readItems n t).map fun r => (.node r.1, r.2)
  | _ + 1, '"' :: t => (Json.string t).map fun r => (.leaf r.1, r.2)
  | _, _ => none

def readItems : Nat → List Char → Option (List (List Char × Doc) × List Char)
  | _ + 1, '\x7d' :: t => some ([], t)
  | n + 1, '"' :: t => match Json.string t with
      | some (key, ':' :: ' ' :: t) => match read n t with
          | some (value, ',' :: t) => match readItems n t with
              | some (m, t) => if (Items.get key m).isSome then none else some ((key, value) :: m, t)
              | none => none
          | _ => none
      | _ => none
  | _, _ => none

end

def parse (t : List Char) : Option Doc :=
  match read (t.length + 1) t with
  | some (value, []) => some value
  | _ => none

/-! ## What is written is read again -/

theorem read_text (n : Nat) (t rest : List Char) :
    read (n + 1) (Json.printText t ++ rest) = some (.leaf t, rest) := by
  unfold Json.printText
  rw [List.append_assoc, List.cons_append, read, List.singleton_append, Json.string_text]
  rfl

theorem readItems_cons
    (hvalue : read n (print value ++ ',' :: (printItems m ++ rest)) =
      some (value, ',' :: (printItems m ++ rest)))
    (hm : readItems n (printItems m ++ rest) = some (m, rest)) (hkey : key ∉ m.map (·.1)) :
    readItems (n + 1) (printItems ((key, value) :: m) ++ rest) = some ((key, value) :: m, rest) := by
  have htext : printItems ((key, value) :: m) ++ rest =
      '"' :: (key.flatMap Json.escape ++
        '"' :: ':' :: ' ' :: (print value ++ ',' :: (printItems m ++ rest))) := by
    rw [printItems, Json.printText]
    simp only [List.append_assoc, List.cons_append, List.nil_append]
  rw [htext, readItems, Json.string_text]
  simp only [hvalue, hm, Items.get_eq_none_iff.mpr hkey]
  rfl

theorem read_print (hvalue : value.Distinct) (hn : (print value).length < n) :
    read n (print value ++ rest) = some (value, rest) := by
  obtain ⟨n, rfl⟩ : ∃ k, n = k + 1 := ⟨n - 1, by omega⟩
  induction hvalue generalizing n rest with
  | leaf t => rw [print, read_text]
  | @node m nodup below ih =>
    have hitems : ∀ (l : List (List Char × Doc)) (n : Nat), (l.map (·.1)).Nodup →
        (∀ item ∈ l, item ∈ m) → (printItems l).length ≤ n →
          readItems n (printItems l ++ rest) = some (l, rest) := by
      intro l
      induction l with
      | nil =>
        intro n _ _ hlen
        rw [printItems, List.length_singleton] at hlen
        obtain ⟨n, rfl⟩ : ∃ k, n = k + 1 := ⟨n - 1, by omega⟩
        rw [printItems, List.singleton_append, readItems]
      | cons item l ihl =>
        intro n hnodup hmem hlen
        obtain ⟨key, value⟩ := item
        rw [List.map_cons, List.nodup_cons] at hnodup
        have hsize : (printItems ((key, value) :: l)).length =
            (Json.printText key).length + ((print value).length + (printItems l).length + 3) := by
          rw [printItems]
          simp only [List.length_append, List.length_cons]
          omega
        rw [hsize] at hlen
        obtain ⟨k, rfl⟩ : ∃ k, n = k + 2 := ⟨n - 2, by omega⟩
        refine readItems_cons ?_ ?_ hnodup.1
        · have hvalue : (print value).length < k + 1 := by omega
          exact ih (key, value) (hmem _ List.mem_cons_self) k hvalue
        · exact ihl (k + 1) hnodup.2 (fun i hi => hmem i (List.mem_cons_of_mem _ hi)) (by omega)
    rw [print, List.length_cons] at hn
    rw [print, List.cons_append, read, hitems m n nodup (fun _ h => h) (by omega)]
    rfl

theorem parse_print (hvalue : value.Distinct) : parse (print value) = some value := by
  have hread := @read_print ((print value).length + 1) [] value hvalue (Nat.lt_succ_self _)
  rw [List.append_nil] at hread
  unfold parse
  rw [hread]

/-! ## What is read has each key once -/

mutual

theorem distinct_read {n : Nat} {t rest : List Char} {value : Doc}
    (h : read n t = some (value, rest)) : value.Distinct := by
  unfold read at h
  split at h
  · obtain ⟨r, hr, h⟩ := Option.map_eq_some_iff.mp h
    cases h
    exact distinct_readItems hr
  · obtain ⟨r, hr, h⟩ := Option.map_eq_some_iff.mp h
    cases h
    exact .leaf _
  · cases h

theorem distinct_readItems {n : Nat} {t rest : List Char} {m : List (List Char × Doc)}
    (h : readItems n t = some (m, rest)) : (node m).Distinct := by
  unfold readItems at h
  split at h
  · cases h
    exact .node List.nodup_nil nofun
  · split at h
    · split at h
      · rename_i hvalue
        split at h
        · rename_i hm
          split at h
          · cases h
          · rename_i hkey
            cases h
            have hbelow := distinct_readItems hm
            have hnew := Items.get_eq_none_iff.mp (Option.not_isSome_iff_eq_none.mp hkey)
            refine .node (List.nodup_cons.mpr ⟨hnew, hbelow.nodup⟩) fun item hitem => ?_
            rcases List.mem_cons.mp hitem with rfl | hitem
            · exact distinct_read hvalue
            · cases hbelow with
              | node _ below => exact below item hitem
        · cases h
      · cases h
    · cases h
  · cases h

end

theorem distinct_parse (h : parse t = some value) : value.Distinct := by
  unfold parse at h
  split at h
  · rename_i hread
    cases h
    exact distinct_read hread
  · cases h

/-! ## How it looks -/

theorem head_print (value : Doc) : (print value).head? = some '"' ∨ (print value).head? = some '\x7b' := by
  cases value with
  | leaf t =>
    rw [print, Json.printText]
    exact Or.inl rfl
  | node m =>
    rw [print]
    exact Or.inr rfl

mutual

theorem not_mem_print : ∀ value : Doc, '\r' ∉ print value
  | .leaf t => by
    rw [print]
    exact Json.not_mem_printText t
  | .node m => by
    rw [print, List.mem_cons, not_or]
    exact ⟨by decide, not_mem_printItems m⟩

theorem not_mem_printItems : ∀ m : List (List Char × Doc), '\r' ∉ printItems m
  | [] => by
    rw [printItems]
    decide
  | (key, value) :: m => by
    rw [printItems]
    simp only [List.cons_append, List.mem_append, List.mem_cons, not_or]
    exact ⟨Json.not_mem_printText key, by decide, by decide, not_mem_print value, by decide,
      not_mem_printItems m⟩

end

end Infinito.Lib.Flow
