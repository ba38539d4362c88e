import Infinito.Workspace.Files

/-!
# Plaintext secrets in a file

`contains_plaintext_secret` reads a file line by line. Vault blocks are skipped — the line
that opens one, and everything indented deeper — and of the other lines those count that
assign to a key with a telling name, unless the value is encrypted, templated or null.

The two assignment patterns have one shape, `key`, separator, value, and the keys a
character class that neither the separator nor a blank belongs to, so a match is found by
one pass over the line.
-/

set_option autoImplicit false

namespace Infinito.History

open Py Workspace

/-- `[A-Za-z0-9_.-]` -/
def isKeyChar (c : Char) : Bool :=
  let n := c.toNat
  (65 ≤ n && n ≤ 90) || (97 ≤ n && n ≤ 122) || (48 ≤ n && n ≤ 57) || c == '_' || c == '.' || c == '-'

/-- `^\s*([A-Za-z0-9_.-]+)\s*SEP`: the key, and what follows the separator. -/
def keyBefore (sep : Char) (line : Text) : Option (Text × Text) :=
  let line := lstrip line
  match line.takeWhile isKeyChar, lstrip (line.dropWhile isKeyChar) with
  | [], _ => none
  | _ :: _, [] => none
  | key, c :: rest => if c = sep then some (key, rest) else none

/-- `_YAML_ASSIGN_RE` and `_ENV_ASSIGN_RE`, the value stripped. -/
def assignment (sep : Char) (line : Text) : Option (Text × Text) :=
  (keyBefore sep line).map fun (key, rest) => (key, strip rest)

/-- `_VAULT_BLOCK_START_RE` -/
def startsVaultBlock (line : Text) : Bool :=
  match keyBefore ':' line with
  | none => false
  | some (_, rest) =>
      let value := lstrip rest
      startsWith value "!vault" && startsWith (lstrip (value.drop 6)) "|"

/-- The alternatives of `_SECRET_KEY_RE`. -/
def secretWords : List Text :=
  ["password", "passwd", "passphrase", "secret", "token", "private_key", "apikey", "api_key",
    "api-key", "accesskey", "access_key", "access-key"]

def isSecretKey (key : Text) : Bool := secretWords.any fun word => word <:+: key.map asciiLower

/-- `_BLOCK_SCALAR_RE` -/
def isBlockScalar (value : Text) : Bool :=
  [['>'], ['|'], ['>', '+'], ['>', '-'], ['|', '+'], ['|', '-']].contains value

/-- A value of a YAML assignment to a telling key that counts as plaintext. -/
def isPlainYamlValue (value : Text) : Bool :=
  if value = [] then true
  else if startsWith value "!vault" || startsWith value "$ANSIBLE_VAULT;" ||
    startsWith value ['{', '{'] then false
  else if startsWith value ['"', '{', '{'] || startsWith value ['\'', '{', '{'] then false
  else if isBlockScalar value then true
  else if lower value = "null" || lower value = "~" then false
  else true

/-- The same for an environment assignment. -/
def isPlainEnvValue (value : Text) : Bool :=
  if value = [] then false
  else if startsWith value ['{', '{'] || startsWith value "$ANSIBLE_VAULT;" then false
  else if startsWith value ['"', '{', '{'] || startsWith value ['\'', '{', '{'] then false
  else true

def isPlainEnvLine (line : Text) : Bool :=
  match assignment '=' line with
  | some (key, value) => isSecretKey key && isPlainEnvValue value
  | none => false

/-- A line outside of vault blocks that holds a secret. -/
def isSecretLine (line : Text) : Bool :=
  let stripped := strip line
  if stripped = [] || startsWith stripped ['#'] then false
  else match assignment ':' line with
    | some (key, value) => if isSecretKey key then isPlainYamlValue value else isPlainEnvLine line
    | none => isPlainEnvLine line

/-- `len(line) - len(line.lstrip(" "))` -/
def indentOf (line : Text) : Nat := (line.takeWhile (· = ' ')).length

/-- Whether the line continues a vault block opened at that indentation. -/
def continues (block : Option Nat) (line : Text) : Bool :=
  match block with
  | none => false
  | some indent => strip line = [] || indent < indentOf line

/-- The loop of `contains_plaintext_secret`: the number of the first line with a secret. -/
def firstSecret : Option Nat → Nat → List Text → Option Nat
  | _, _, [] => none
  | block, n, line :: lines =>
      if continues block line then firstSecret block (n + 1) lines
      else if startsVaultBlock line then firstSecret (some (indentOf line)) (n + 1) lines
      else if isSecretLine line then some n
      else firstSecret none (n + 1) lines

def containsPlaintextSecret (text : Text) : Bool × Option Nat :=
  match firstSecret none 1 (splitlines text) with
  | some n => (true, some n)
  | none => (false, none)

/-- `_BINARY_SUFFIXES` -/
def binarySuffixes : List Text :=
  [".kdbx", ".png", ".jpg", ".jpeg", ".gif", ".svg", ".ico", ".woff", ".woff2", ".ttf", ".otf",
    ".zip", ".gz", ".bz2", ".xz", ".bin"]

def isBinaryPath (path : Text) : Bool := binarySuffixes.any (endsWith (lower path))

/-- A file of the history holds no plaintext secret. -/
def Clean (content : Bytes) : Prop := containsPlaintextSecret (readText content) = (false, none)

instance (content : Bytes) : Decidable (Clean content) := inferInstanceAs (Decidable (_ = _))

theorem clean_iff {content : Bytes} :
    Clean content ↔ firstSecret none 1 (splitlines (readText content)) = none := by
  unfold Clean containsPlaintextSecret
  cases firstSecret none 1 (splitlines (readText content)) <;> simp

/-- A vault value is no secret, whatever key it is assigned to; its plaintext is one. -/
example : containsPlaintextSecret "db_password: !vault |\n  $ANSIBLE_VAULT;1.1;AES256\n  6162\n" =
    (false, none) := by decide

example : containsPlaintextSecret "a: 1\ndb_password: hunter2\n" = (true, some 2) := by decide

end Infinito.History
