import Infinito.History.Git
import Infinito.History.Secrets

/-!
# Block-style YAML

Mappings and lists of scalars, nested as one likes, and how they stand in a file: one key a
line, what belongs to it deeper below, a list entry behind its dash, and a mapping in a list
with its first key on the line of the dash. A scalar stands on one line: unquoted where that
reads back (`isPlainText`), in single quotes, or in double quotes with escapes; an encrypted
value is a `!vault` block scalar.

`Entry.isSecret` is what a reader of the document would say: under a telling key stands a
text, which is neither encrypted nor a template. The entries that a reader of single lines
judges otherwise are of two kinds, `Entry.alarm` and `Entry.hidden`.
-/

set_option autoImplicit false

namespace Infinito.History

open Py Workspace

/-! ## Scalars -/

/-- A character that can stand in a line as it is. -/
def isPrintable (c : Char) : Bool :=
  c = ' ' || (!isSpace c && Nat.ble 0x20 c.toNat && c.toNat ≠ 0x7f)

/-- What no unquoted scalar starts with. -/
def indicators : List Char :=
  ['#', ',', '[', ']', '\x7b', '\x7d', '&', '*', '!', '|', '>', '\'', '"', '%', '@', '\x60']

/-- A dash, a question mark or a colon starts a scalar only where a text follows at once. -/
def startsPlain : Text → Bool
  | [] => false
  | c :: cs =>
      if c = '-' || c = '?' || c = ':' then
        match cs with
        | [] => false
        | d :: _ => d ≠ ' ' && d ≠ '!'
      else !indicators.contains c

/-- Whether a text reads back as it is, unquoted. -/
def isPlainText (t : Text) : Bool :=
  t.all isPrintable && strip t = t && startsPlain t && t.getLast? ≠ some ':' &&
    !(t.tails.any fun u => startsWith u ": " || startsWith u " #")

/-- The same for a key. Keys with a colon or an equals sign are quoted. -/
def isPlainKey (t : Text) : Bool :=
  isPlainText t && t.all (fun c => c ≠ ':' && c ≠ '=') && !startsWith t "---" && !startsWith t "..."

def escapeSingle (c : Char) : Text := if c = '\'' then ['\'', '\''] else [c]

def hexDigit (n : Nat) : Char := "0123456789ABCDEF".toList.getD n '0'

def escapeDouble (c : Char) : Text :=
  if c = '"' || c = '\\' then ['\\', c]
  else if isPrintable c then [c]
  else '\\' :: 'U' :: (List.range 8).map fun i => hexDigit (c.toNat / 16 ^ (7 - i) % 16)

inductive Scalar where
  /-- nothing at all -/
  | null
  | plain (t : Text) (h : isPlainText t = true)
  | single (t : Text) (h : t.all isPrintable = true)
  | double (t : Text)

/-- The text of a scalar in the file. -/
def Scalar.source : Scalar → Text
  | .null => []
  | .plain t _ => t
  | .single t _ => '\'' :: t.flatMap escapeSingle ++ ['\'']
  | .double t => '"' :: t.flatMap escapeDouble ++ ['"']

def Scalar.content : Scalar → Text
  | .null => []
  | .plain t _ | .single t _ | .double t => t

/-- The spellings of null. -/
def nulls : List Text := ["null", "Null", "NULL", "~"]

def Scalar.isNull : Scalar → Bool
  | .null => true
  | .plain t _ => nulls.contains t
  | _ => false

/-- A text, neither encrypted nor a template. -/
def Scalar.isSecret (s : Scalar) : Bool :=
  !s.isNull && s.content ≠ [] && !startsWith s.content "$ANSIBLE_VAULT;" &&
    !startsWith s.content ['\x7b', '\x7b']

/-! ## Documents -/

inductive Key where
  | plain (t : Text) (h : isPlainKey t = true)
  | single (t : Text) (h : t.all isPrintable = true)
  | double (t : Text)

def Key.name : Key → Text
  | .plain t _ | .single t _ | .double t => t

def Key.source : Key → Text
  | .plain t _ => t
  | .single t h => (Scalar.single t h).source
  | .double t => (Scalar.double t).source

/-- A line of a vault: the header, or digits. -/
def isVaultLine (t : Text) : Bool :=
  t ≠ [] && t.all fun c => isKeyChar c || c = '$' || c = ';'

abbrev VaultLine := { t : Text // isVaultLine t = true }

inductive YamlNode where
  | scalar (s : Scalar)
  | vault (lines : List VaultLine)
  | mapping (items : List (Key × YamlNode))
  | list (items : List YamlNode)

inductive Document where
  | mapping (items : List (Key × YamlNode))
  | list (items : List YamlNode)

/-- How much deeper stands what belongs to a key; for a list that may be nothing. -/
structure Layout where
  width : Nat
  shift : Nat
  deeper : 0 < width

def blanks (n : Nat) : Text := List.replicate n ' '

mutual

/-- A node at indentation `n`, behind what stands before it on its line: a key, or a dash. -/
def YamlNode.lines (l : Layout) (dash : Bool) (n : Nat) (before : Text) : YamlNode → List Text
  | .scalar .null => [before]
  | .scalar s => [before ++ ' ' :: s.source]
  | .vault ls => (before ++ " !vault |".toList) :: ls.map fun t => blanks (n + l.width) ++ t.1
  | .mapping [] => [before ++ [' ', '\x7b', '\x7d']]
  | .mapping (item :: items) =>
      if dash then mappingLines l (n + 2) (before ++ [' ']) (item :: items)
      else before :: mappingLines l (n + l.width) (blanks (n + l.width)) (item :: items)
  | .list [] => [before ++ " []".toList]
  | .list (item :: items) =>
      if dash then listLines l (n + 2) (before ++ [' ']) (item :: items)
      else before :: listLines l (n + l.shift) (blanks (n + l.shift)) (item :: items)

/-- The entries of a mapping, the first of them behind `lead`. -/
def mappingLines (l : Layout) (n : Nat) (lead : Text) : List (Key × YamlNode) → List Text
  | [] => []
  | (key, v) :: items =>
      v.lines l false n (lead ++ key.source ++ [':']) ++ mappingLines l n (blanks n) items

def listLines (l : Layout) (n : Nat) (lead : Text) : List YamlNode → List Text
  | [] => []
  | v :: items => v.lines l true n (lead ++ ['-']) ++ listLines l n (blanks n) items

end

def Document.lines (l : Layout) : Document → List Text
  | .mapping items => mappingLines l 0 [] items
  | .list items => listLines l 0 [] items

def Document.text (l : Layout) (doc : Document) : Text := printLines (doc.lines l)

/-! ## Entries -/

/-- An entry of a mapping, and whether it stands behind a dash. -/
structure Entry where
  dash : Bool
  key : Key
  value : YamlNode

mutual

def YamlNode.entries (dash : Bool) : YamlNode → List Entry
  | .scalar _ => []
  | .vault _ => []
  | .mapping items => mappingEntries dash items
  | .list items => listEntries items

def mappingEntries (dash : Bool) : List (Key × YamlNode) → List Entry
  | [] => []
  | (key, v) :: items => ⟨dash, key, v⟩ :: (v.entries false ++ mappingEntries false items)

def listEntries : List YamlNode → List Entry
  | [] => []
  | v :: items => v.entries true ++ listEntries items

end

def Document.entries : Document → List Entry
  | .mapping items => mappingEntries false items
  | .list items => listEntries items

/-- A character, letter case aside, as patterns compare it. -/
def foldCase (c : Char) : Char :=
  if c = 'ſ' then 's' else if c = 'ı' || c = 'İ' then 'i'
  else if c = '\u212a' then 'k' else asciiLower c

/-- `_SECRET_KEY_RE.search`, on any name. -/
def isSecretName (name : Text) : Bool := secretWords.any fun word => word <:+: name.map foldCase

def YamlNode.isSecret : YamlNode → Bool
  | .scalar s => s.isSecret
  | _ => false

/-- A telling key with a text under it. -/
def Entry.isSecret (e : Entry) : Bool := isSecretName e.key.name && e.value.isSecret

/-! ## What single lines do not tell -/

def Key.isWord : Key → Bool
  | .plain t _ => t.all isKeyChar
  | _ => false

/-- The entry starts its line, with a key made of letters, digits and `_.-`. -/
def Entry.seen (e : Entry) : Bool := !e.dash && e.key.isWord

/-- Nothing secret, and still something behind the colon, or nothing there where something
    is expected. -/
def YamlNode.misread : YamlNode → Bool
  | .scalar .null => true
  | .scalar (.plain _ _) => false
  | .scalar s => s.content = [] || startsWith s.content "$ANSIBLE_VAULT;"
  | .vault _ => false
  | .mapping _ => true
  | .list _ => true

/-- A text that spells null, if not the way null is spelled. -/
def YamlNode.spellsNull : YamlNode → Bool
  | .scalar (.plain t _) => lower t = "null"
  | _ => false

def Entry.found (e : Entry) : Bool := e.isSecret && e.seen && !e.value.spellsNull

def Entry.hidden (e : Entry) : Bool := e.isSecret && (!e.seen || e.value.spellsNull)

def Entry.alarm (e : Entry) : Bool := isSecretName e.key.name && e.seen && e.value.misread

end Infinito.History
