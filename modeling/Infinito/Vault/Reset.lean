import Infinito.Vault.Exact
import Infinito.History.Restored
import Infinito.Servers.Independent
import Infinito.Lib.Json

/-!
# Resetting the vault password

`reset_vault_password` rewrites the files one after the other, each before the next is looked at,
and stores the new password at the end. When it raises in between, the files that it has been
through are encrypted with a password that is stored nowhere.

Which step raises is given beforehand (`Trouble`). `reset_atomic_iff` says when a call that raises
has done no harm: when no file with a vault block comes before the step that fails.
`reset_readable_iff` says when a call that returns has done none: when every plaintext is UTF-8 and
every block is found.
-/

set_option autoImplicit false

namespace Infinito.Vault

open Py Lib Workspace History
open Servers (Kdbx upsertKdbxEntry vaultEntryTitle)

/-! ## The workspace -/

/-- The files of a workspace. A temporary file is none of them before it is renamed. -/
abbrev Files := Path → Option Bytes

/-- What the code uses of KeePass: how a database is read and written. -/
structure KeePass where
  load : Bytes → Option Kdbx
  dump : Kdbx → Bytes
  load_dump : ∀ kdbx, load (dump kdbx) = some kdbx

/-- `_kdbx_path` -/
def kdbxPath : Path := [secretsName, kdbxName]

def Files.put (files : Files) (p : Path) (content : Bytes) : Files :=
  fun q => if q = p then some content else files q

/-- `_read_kdbx_entry`: an empty password is none. -/
def readKdbxEntry (title : Text) (kdbx : Kdbx) : Option Text :=
  (kdbx.entries.find? fun e => e.1 = title).bind fun e => orNone e.2

def vaultPasswordTitle : Text := vaultEntryTitle .vaultPassword []

/-- The vault password that is stored. -/
def stored (keepass : KeePass) (files : Files) : Option Text :=
  ((files kdbxPath).bind keepass.load).bind (readKdbxEntry vaultPasswordTitle)

/-- The files that `iter_yaml_files` takes from the walk. -/
def isYamlFile (p : Path) : Bool :=
  p.getLast?.any fun name =>
    name.text ≠ "workspace.json".toList && lower (suffix name.text) ∈ ([".yml", ".yaml"] : List Text)

def iterYamlFiles (walked : List Path) : List Path := walked.filter isYamlFile

/-! ## The call -/

/-- The steps that raise, with what they say. -/
structure Trouble where
  ensure : Option Exc
  ansible : Option String
  read : Path → Option String
  write : Path → Option String
  save : Option String

def raiseIf (trouble : Option String) : EStateM Exc Files Unit :=
  match trouble with
  | some text => throw (.raised text)
  | none => pure ()

/-- `_open_kdbx` -/
def openKdbx (keepass : KeePass) (masterPassword : Text) (createIfMissing : Bool)
    (confirm : Option Text) : EStateM Exc Files Kdbx := do
  if strip masterPassword = [] then throw (.http ⟨400, "master_password is required"⟩)
  else match (← get) kdbxPath with
    | none =>
        if createIfMissing = false then throw (.http ⟨404, "credentials vault not found"⟩)
        else if confirm ≠ some masterPassword then
          throw (.http ⟨400, "master password confirmation mismatch"⟩)
        else do
          modify (·.put kdbxPath (keepass.dump ⟨masterPassword, []⟩))
          return ⟨masterPassword, []⟩
    | some content => match keepass.load content with
        | some kdbx =>
            if kdbx.masterPassword = masterPassword then return kdbx
            else throw (.http ⟨400, "invalid master password"⟩)
        | none => throw (.http ⟨400, "invalid master password"⟩)

variable {V : VaultLib}

/-- A turn of the loop: what the file adds to the two counts. -/
def rotateFile (trouble : Trouble) (r : Rotation V) (p : Path) :
    EStateM Exc Files (Nat × Nat) := do
  raiseIf (trouble.read p)
  match (← get) p with
  | none => throw (.raised "No such file or directory")
  | some content => match r.rotateVaultBlocksForFile p content with
      | .error exc => throw exc
      | .ok (updatedContent, replacedBlocks) =>
          if replacedBlocks ≤ 0 then return (0, 0)
          else do
            raiseIf (trouble.write p)
            modify (·.put p (encode updatedContent))
            return (1, replacedBlocks)

def rotateFiles (trouble : Trouble) (r : Path → Rotation V) :
    List Path → Nat × Nat → EStateM Exc Files (Nat × Nat)
  | [], updated => return updated
  | p :: ps, updated => do
      let more ← rotateFile trouble (r p) p
      rotateFiles trouble r ps (updated.1 + more.1, updated.2 + more.2)

variable (keepass : KeePass) (trouble : Trouble)

def nextVaultPassword (newVaultPassword : Option Text) (generated : Text) : Text :=
  (orNone (strip (newVaultPassword.getD []))).getD generated

/-- What is settled before the first file: the database, the stored password and the next. -/
def admitted (masterPassword : Text) (newVaultPassword : Option Text) (generated : Text) :
    EStateM Exc Files (Kdbx × Text × Text) := do
  match trouble.ensure with
  | some exc => throw exc
  | none => do
    let kdbx ← openKdbx keepass masterPassword false none
    match readKdbxEntry vaultPasswordTitle kdbx with
    | none => throw (.http ⟨400, "vault password not set"⟩)
    | some current =>
      let next := nextVaultPassword newVaultPassword generated
      if next = current then throw (.http ⟨400, "new vault password must differ"⟩)
      else match trouble.ansible with
        | some exc => throw (.http ⟨500, "ansible vault unavailable: " ++ exc⟩)
        | none => return (kdbx, current, next)

/-- `reset_vault_password`, up to the commit. -/
def resetVaultPassword (salt : Path → Nat → V.Salt) (walked : List Path) (masterPassword : Text)
    (newVaultPassword : Option Text) (generated : Text) : EStateM Exc Files (Nat × Nat) := do
  let (kdbx, current, next) ← admitted keepass trouble masterPassword newVaultPassword generated
  let updated ← rotateFiles trouble (fun p => ⟨current, next, salt p⟩) (iterYamlFiles walked) (0, 0)
  raiseIf trouble.save
  modify (·.put kdbxPath (keepass.dump
    { kdbx with entries := upsertKdbxEntry vaultPasswordTitle (some next) kdbx.entries }))
  return updated

/-! ## What is to be kept -/

/-- The blocks of a file hold under `now` what they held under `old`. -/
def SamePlain (V : VaultLib) (old now : Text) (content content' : Bytes) : Prop :=
  List.Forall₂ (fun text text' => ∀ plain, V.decrypt old text = .ok plain →
    V.decrypt now text' = .ok plain) (vaultBlocks (readText content)) (vaultBlocks (readText content'))

/-- Every block that the stored password decrypted, the one stored now decrypts to the same. -/
def Readable (V : VaultLib) (keepass : KeePass) (files files' : Files) : Prop :=
  ∀ old ∈ stored keepass files, ∃ now ∈ stored keepass files',
    ∀ p content, isYamlFile p = true → files p = some content →
      ∃ content', files' p = some content' ∧ SamePlain V old now content content'

/-- What the one password decrypts, the other does not. -/
def VaultLib.TellsApart (V : VaultLib) (password other : Text) : Prop :=
  ∀ text, decrypts V password text = true → decrypts V other text = false

/-- No plaintext of the text is lost: all are UTF-8, and no block is hidden below what the scanner
    takes for the header of another. -/
structure Keepable (V : VaultLib) (old source : Text) : Prop where
  utf8 : ∀ text ∈ vaultBlocks source, ∀ plain, V.decrypt old text = .ok plain →
    ∃ t, plain = encode t
  unhidden : ∀ head body, .other head body ∈ pieces 0 (splitlines source) →
    ∀ x ∈ heads 0 body, ∀ text ∈ x.2, decrypts V old text = false

/-- The vault texts that the rotation finds in a file. -/
def seen (content : Bytes) : List Text := texts (pieces 0 (splitlines (readText content)))

/-- How many blocks a file has for the rotation. -/
def blocksIn (files : Files) (p : Path) : Nat :=
  ((files p).map fun content => (seen content).length).getD 0

/-- How many files have blocks, and how many blocks there are. -/
def counted (files : Files) : List Path → Nat × Nat → Nat × Nat
  | [], counts => counts
  | p :: ps, counts =>
      counted files ps (counts.1 + (if blocksIn files p = 0 then 0 else 1), counts.2 + blocksIn files p)

/-- A turn of the loop goes through. -/
def Rotates (files : Files) (r : Rotation V) (p : Path) : Prop :=
  trouble.read p = none ∧ ∃ content updated replaced, files p = some content ∧
    r.rotateVaultBlocksForFile p content = .ok (updated, replaced) ∧
    (0 < replaced → trouble.write p = none)

/-- The call gets to rewrite a file: the database is opened, and a file with a vault block can be
    rotated, as all the files before it can. -/
def Rewrites (salt : Path → Nat → V.Salt) (walked : List Path) (masterPassword : Text)
    (newVaultPassword : Option Text) (generated : Text) (files : Files) : Prop :=
  ∃ kdbx current next before p after content,
    admitted keepass trouble masterPassword newVaultPassword generated files =
      .ok (kdbx, current, next) files ∧
    iterYamlFiles walked = before ++ p :: after ∧
    (∀ q ∈ before ++ [p], Rotates trouble files (⟨current, next, salt q⟩ : Rotation V) q) ∧
    files p = some content ∧ seen content ≠ []

/-! ## One file -/

section File

variable {trouble} {r : Rotation V} {p : Path} {files : Files} {content : Bytes} {updated : Text}
  {replaced : Nat}

theorem put_self (files : Files) (p : Path) (content : Bytes) :
    files.put p content p = some content := if_pos rfl

theorem put_of_ne {q : Path} (files : Files) (content : Bytes) (h : q ≠ p) :
    files.put p content q = files q := if_neg h

theorem raiseIf_none (files : Files) : raiseIf none files = .ok () files := rfl

theorem get_files (files : Files) : (get : EStateM Exc Files Files) files = .ok files files := rfl

theorem replaced_eq (h : r.rotateVaultBlocksForFile p content = .ok (updated, replaced)) :
    replaced = (seen content).length := by
  obtain ⟨⟨out, n⟩, hlines, h⟩ := bind_ok h
  cases h
  exact (pieces_lines hlines).2

/-- What a file is after its turn. -/
theorem rotateFile_of_rotates (h : Rotates trouble files r p) :
    ∃ content updated replaced, files p = some content ∧
      r.rotateVaultBlocksForFile p content = .ok (updated, replaced) ∧
      rotateFile trouble r p files = .ok (if replaced = 0 then 0 else 1, replaced)
        (if replaced = 0 then files else files.put p (encode updated)) := by
  obtain ⟨hread, content, updated, replaced, hcontent, hrotate, hwrite⟩ := h
  have hstart : rotateFile trouble r p files = (if replaced ≤ 0 then pure (0, 0) else (do
      raiseIf (trouble.write p)
      modify (·.put p (encode updated))
      return (1, replaced)) : EStateM Exc Files (Nat × Nat)) files := by
    unfold rotateFile
    rw [hread, bind_of_ok (raiseIf_none files),
      bind_of_ok (get_files files), hcontent]
    dsimp only
    rw [hrotate]
  by_cases hzero : replaced = 0
  · refine ⟨content, updated, replaced, hcontent, hrotate, ?_⟩
    rw [hstart, if_pos hzero.le, if_pos hzero, if_pos hzero, hzero]
    rfl
  · refine ⟨content, updated, replaced, hcontent, hrotate, ?_⟩
    rw [hstart, if_neg (by omega), if_neg hzero, if_neg hzero, hwrite (by omega)]
    rfl

theorem rotateFile_of_not (h : ¬ Rotates trouble files r p) :
    ∃ e, rotateFile trouble r p files = .error e files := by
  unfold rotateFile
  cases hread : trouble.read p with
  | some text => exact ⟨.raised text, rfl⟩
  | none =>
    rw [bind_of_ok (raiseIf_none files),
      bind_of_ok (get_files files)]
    cases hcontent : files p with
    | none => exact ⟨_, rfl⟩
    | some content =>
      cases hrotate : r.rotateVaultBlocksForFile p content with
      | error exc =>
        refine ⟨exc, ?_⟩
        dsimp only
        rw [hrotate]
        rfl
      | ok result =>
        obtain ⟨updated, replaced⟩ := result
        dsimp only
        rw [hrotate]
        dsimp only
        have hpositive : 0 < replaced := by
          by_contra hzero
          exact h ⟨hread, content, updated, replaced, hcontent, hrotate, fun hpos => absurd hpos hzero⟩
        rw [if_neg (by omega)]
        cases hwrite : trouble.write p with
        | some text => exact ⟨.raised text, rfl⟩
        | none => exact absurd ⟨hread, content, updated, replaced, hcontent, hrotate, fun _ => hwrite⟩ h

end File

/-! ## The loop -/

section Loop

variable {trouble} {r : Path → Rotation V} {files files' : Files} {ps : List Path}

/-- The files `done` have been rotated, and nothing else has changed. -/
structure Through (r : Path → Rotation V) (files : Files) (done : List Path) (files' : Files) :
    Prop where
  rotated : ∀ p ∈ done, ∃ content updated replaced, files p = some content ∧
    (r p).rotateVaultBlocksForFile p content = .ok (updated, replaced) ∧
    files' p = some (if replaced = 0 then content else encode updated)
  others : ∀ p ∉ done, files' p = files p

theorem Through.nil : Through r files [] files :=
  ⟨fun _ hp => (List.not_mem_nil hp).elim, fun _ _ => rfl⟩

theorem counted_congr (h : ∀ q ∈ ps, files' q = files q) (counts : Nat × Nat) :
    counted files' ps counts = counted files ps counts := by
  induction ps generalizing counts with
  | nil => rfl
  | cons p ps ih =>
    have hblocks : blocksIn files' p = blocksIn files p := by
      unfold blocksIn
      rw [h p List.mem_cons_self]
    rw [counted, counted, hblocks, ih fun q hq => h q (List.mem_cons_of_mem _ hq)]

theorem rotates_congr {q : Path} {r : Rotation V} (h : files' q = files q) :
    Rotates trouble files' r q ↔ Rotates trouble files r q := by
  unfold Rotates
  rw [h]

/-- The loop goes through the files until one cannot be rotated. -/
theorem rotateFiles_through (trouble : Trouble) (r : Path → Rotation V) (files : Files)
    (hnodup : ps.Nodup) (counts : Nat × Nat) :
    (∃ files', rotateFiles trouble r ps counts files = .ok (counted files ps counts) files' ∧
      (∀ q ∈ ps, Rotates trouble files (r q) q) ∧ Through r files ps files') ∨
    ∃ e files' before p after, rotateFiles trouble r ps counts files = .error e files' ∧
      ps = before ++ p :: after ∧ (∀ q ∈ before, Rotates trouble files (r q) q) ∧
      ¬ Rotates trouble files (r p) p ∧ Through r files before files' := by
  induction ps generalizing counts files with
  | nil => exact Or.inl ⟨files, rfl, fun _ hq => (List.not_mem_nil hq).elim, .nil⟩
  | cons p ps ih =>
    obtain ⟨hnew, hnodup⟩ := List.nodup_cons.mp hnodup
    by_cases hrotates : Rotates trouble files (r p) p
    · obtain ⟨content, updated, replaced, hcontent, hrotate, hfile⟩ := rotateFile_of_rotates hrotates
      have hblocks : blocksIn files p = replaced := by
        unfold blocksIn
        rw [hcontent, replaced_eq hrotate]
        rfl
      generalize hu : (if replaced = 0 then files else files.put p (encode updated)) = u at hfile
      have hself : u p = some (if replaced = 0 then content else encode updated) := by
        rw [← hu]
        split
        · exact hcontent
        · exact put_self _ _ _
      have hother {q : Path} (hne : q ≠ p) : u q = files q := by
        rw [← hu]
        split
        · rfl
        · exact put_of_ne _ _ hne
      have hsame {q : Path} (hq : q ∈ ps) : u q = files q :=
        hother (ne_of_mem_of_not_mem hq hnew)
      have hstep : rotateFiles trouble r (p :: ps) counts files =
          rotateFiles trouble r ps (counts.1 + (if replaced = 0 then 0 else 1), counts.2 + replaced)
            u := by
        rw [rotateFiles, bind_of_ok hfile]
      -- what the loop does from here it does to the files as they were
      have hthrough {done : List Path} (hdone : ∀ q ∈ done, q ∈ ps) {files' : Files}
          (h : Through r u done files') : Through r files (p :: done) files' := by
        have hp : p ∉ done := fun hmem => hnew (hdone p hmem)
        refine ⟨fun q hq => ?_, fun q hq => ?_⟩
        · rcases List.mem_cons.mp hq with rfl | hq
          · refine ⟨content, updated, replaced, hcontent, hrotate, ?_⟩
            rw [h.others _ hp, hself]
          · rw [← hsame (hdone q hq)]
            exact h.rotated q hq
        · obtain ⟨hne, hq⟩ := not_or.mp (mt List.mem_cons.mpr hq)
          rw [h.others q hq, hother hne]
      rw [hstep]
      rcases ih u hnodup _ with ⟨files', hrun, hall, hdone⟩ |
        ⟨e, files', before, q, after, hrun, rfl, hall, hnot, hdone⟩
      · refine Or.inl ⟨files', ?_, fun q hq => ?_, hthrough (fun _ h => h) hdone⟩
        · rw [hrun, counted, hblocks, counted_congr fun q hq => hsame hq]
        rcases List.mem_cons.mp hq with rfl | hq
        · exact hrotates
        · exact (rotates_congr (hsame hq)).mp (hall q hq)
      · have hbefore : ∀ q ∈ before, q ∈ before ++ q :: after :=
          fun _ h => List.mem_append_left _ h
        refine Or.inr ⟨e, files', p :: before, q, after, hrun, rfl, fun q' hq' => ?_, ?_, ?_⟩
        · rcases List.mem_cons.mp hq' with rfl | hq'
          · exact hrotates
          · exact (rotates_congr (hsame (List.mem_append_left _ hq'))).mp (hall q' hq')
        · have hq : q ∈ before ++ q :: after := List.mem_append_right _ List.mem_cons_self
          rwa [rotates_congr (hsame hq)] at hnot
        · exact hthrough (fun _ h => List.mem_append_left _ h) hdone
    · obtain ⟨e, hfile⟩ := rotateFile_of_not hrotates
      refine Or.inr ⟨e, files, [], p, ps, ?_, rfl, fun _ hq => (List.not_mem_nil hq).elim, hrotates,
        .nil⟩
      rw [rotateFiles, bind_of_error hfile]

end Loop

/-! ## The blocks of a rewritten file -/

section Blocks

variable {r : Rotation V} {p : Path} {content : Bytes} {updated : Text} {replaced : Nat}

theorem decrypts_of_ok {password text : Text} {plain : Bytes} (h : V.decrypt password text = .ok plain) :
    decrypts V password text = true := by
  unfold decrypts
  rw [h]
  rfl

/-- What a text becomes is decrypted with the new password. -/
theorem decrypt_rotated {at_ : Nat} {text text' : Text} (h : r.rotated p at_ text = .ok text') :
    ∃ plain, V.decrypt r.old text = .ok plain ∧
      V.decrypt r.new (strip text') = .ok (encode (decode plain)) := by
  unfold Rotation.rotated at h
  split at h
  · cases h
  · rename_i plain hplain
    split at h
    · cases h
    · rename_i hencrypt
      cases h
      exact ⟨plain, hplain, V.decrypt_encrypt _ _ _ _ hencrypt⟩

/-- Where every block holds the same under the old password as before, none was rotated. -/
theorem texts_of_same {ps qs : List Piece} (hV : V.TellsApart r.new r.old)
    (h : List.Forall₂ (Renewed r p) ps qs)
    (hsame : List.Forall₂ (fun text text' => ∀ plain, V.decrypt r.old text = .ok plain →
        V.decrypt r.old text' = .ok plain)
      ((ps.flatMap Piece.heads).filterMap (·.2)) ((qs.flatMap Piece.heads).filterMap (·.2))) :
    texts ps = [] := by
  induction h with
  | nil => rfl
  | cons hp _ ih =>
    rw [List.flatMap_cons, List.flatMap_cons, List.filterMap_append, List.filterMap_append] at hsame
    cases hp with
    | line line => exact ih hsame
    | other head body =>
      refine ih ?_
      have hdrop := List.forall₂_drop_append _ _ _ hsame
      rwa [List.drop_left] at hdrop
    | vault head indent size size' hrot =>
      exfalso
      obtain ⟨plain, hplain, hnew⟩ := decrypt_rotated hrot
      have hold := decrypts_of_ok ((List.forall₂_cons.mp hsame).1 plain hplain)
      rw [hV _ (decrypts_of_ok hnew)] at hold
      cases hold

/-- Where nothing is rotated, the pieces stay. -/
theorem renewed_eq {ps qs : List Piece} (h : List.Forall₂ (Renewed r p) ps qs)
    (hnone : texts ps = []) : qs = ps := by
  induction h with
  | nil => rfl
  | cons hp _ ih =>
    cases hp with
    | line line => rw [ih hnone]
    | other head body => rw [ih hnone]
    | vault => cases hnone

/-- The blocks hold the same plaintexts under the new password exactly if these are UTF-8 and
    none was passed over. -/
theorem renewed_same_iff {ps qs : List Piece} (hV : V.TellsApart r.old r.new)
    (h : List.Forall₂ (Renewed r p) ps qs) :
    List.Forall₂ (fun text text' => ∀ plain, V.decrypt r.old text = .ok plain →
        V.decrypt r.new text' = .ok plain)
      ((ps.flatMap Piece.heads).filterMap (·.2)) ((qs.flatMap Piece.heads).filterMap (·.2)) ↔
    (∀ text ∈ (ps.flatMap Piece.heads).filterMap (·.2), ∀ plain, V.decrypt r.old text = .ok plain →
      ∃ t, plain = encode t) ∧
    ∀ head body, .other head body ∈ ps → ∀ x ∈ heads 0 body, ∀ text ∈ x.2,
      decrypts V r.old text = false := by
  induction h with
  | nil => exact iff_of_true .nil ⟨fun _ h => (List.not_mem_nil h).elim,
      fun _ _ h => (List.not_mem_nil h).elim⟩
  | @cons piece piece' ps qs hp _ ih =>
    rw [List.flatMap_cons, List.flatMap_cons, List.filterMap_append, List.filterMap_append]
    have hlater {head : Text} {body : List Text} (hne : piece ≠ .other head body) :
        .other head body ∈ piece :: ps ↔ .other head body ∈ ps :=
      ⟨fun hmem => (List.mem_cons.mp hmem).resolve_left (Ne.symm hne), List.mem_cons_of_mem _⟩
    cases hp with
    | line line =>
      refine ih.trans (and_congr_right fun _ => forall₂_congr fun head body => ?_)
      rw [hlater (by simp)]
    | other head body =>
      have hheads : (Piece.other head body).heads.filterMap (·.2) = (heads 0 body).filterMap (·.2) :=
        rfl
      rw [hheads]
      generalize hbs : (heads 0 body).filterMap (·.2) = bs
      have hmem {text : Text} : text ∈ bs ↔ ∃ x ∈ heads 0 body, text ∈ x.2 := by
        rw [← hbs, List.mem_filterMap]
        rfl
      constructor
      · intro hsame
        have hfirst := List.forall₂_take_append _ _ _ hsame
        have hrest := List.forall₂_drop_append _ _ _ hsame
        rw [List.take_left] at hfirst
        rw [List.drop_left] at hrest
        have hnone : ∀ text ∈ bs, decrypts V r.old text = false := by
          intro text htext
          by_contra hold
          rw [Bool.not_eq_false] at hold
          obtain ⟨plain, hplain⟩ : ∃ plain, V.decrypt r.old text = .ok plain := by
            unfold decrypts at hold
            cases hdec : V.decrypt r.old text with
            | error exc =>
              rw [hdec] at hold
              cases hold
            | ok plain => exact ⟨plain, rfl⟩
          have hnew := decrypts_of_ok (List.forall₂_same.mp hfirst text htext plain hplain)
          rw [hV _ hold] at hnew
          cases hnew
        obtain ⟨hutf8, hunhidden⟩ := ih.mp hrest
        refine ⟨fun text htext plain hplain => ?_, fun head' body' hother x hx text htext => ?_⟩
        · rcases List.mem_append.mp htext with htext | htext
          · have hfalse := decrypts_of_ok hplain
            rw [hnone text htext] at hfalse
            cases hfalse
          · exact hutf8 text htext plain hplain
        · rcases List.mem_cons.mp hother with hother | hother
          · cases hother
            exact hnone text (hmem.mpr ⟨x, hx, htext⟩)
          · exact hunhidden head' body' hother x hx text htext
      · rintro ⟨hutf8, hunhidden⟩
        refine List.rel_append (List.forall₂_same.mpr fun text htext plain hplain => ?_) (ih.mpr ⟨?_, ?_⟩)
        · obtain ⟨x, hx, htext⟩ := hmem.mp htext
          have hfalse := decrypts_of_ok hplain
          rw [hunhidden head body List.mem_cons_self x hx text htext] at hfalse
          cases hfalse
        · exact fun text htext => hutf8 text (List.mem_append_right _ htext)
        · exact fun head' body' hother => hunhidden head' body' (List.mem_cons_of_mem _ hother)
    | @vault at_ text text' head indent size size' hrot =>
      obtain ⟨plain, hplain, hnew⟩ := decrypt_rotated hrot
      have hfirst : (∀ plain', V.decrypt r.old text = .ok plain' →
          V.decrypt r.new (strip text') = .ok plain') ↔
          ∀ plain', V.decrypt r.old text = .ok plain' → ∃ t, plain' = encode t := by
        rw [hplain, hnew]
        constructor
        · intro hsame plain' hplain'
          cases hplain'
          exact ⟨decode plain, (Except.ok.inj (hsame plain rfl)).symm⟩
        · intro hutf8 plain' hplain'
          cases hplain'
          obtain ⟨t, rfl⟩ := hutf8 plain rfl
          rw [decode_encode]
      have hone (size : Nat) (text : Text) :
          (Piece.vault head indent size text).heads.filterMap (·.2) = [text] := rfl
      rw [hone, hone, List.singleton_append, List.singleton_append, List.forall₂_cons, List.forall_mem_cons, hfirst, ih,
        and_assoc]
      refine and_congr_right fun _ => and_congr_right fun _ => forall₂_congr fun head body => ?_
      rw [hlater (by simp)]

/-- The blocks of what is put out. -/
theorem vaultBlocks_updated {source updated : Text} {out : List Text}
    (hout : ∀ l ∈ out, ∀ c ∈ l, isLineBreak c = false)
    (hsource : out = [] → source.getLast? ≠ some '\n')
    (hupdated : joinLines out ++ (if source.getLast? = some '\n' then ['\n'] else []) = updated) :
    vaultBlocks updated = (heads 0 out).filterMap (·.2) := by
  obtain ⟨-, -, hended⟩ := cut_updated hout hsource
  rw [hupdated, cut_lines] at hended
  rw [vaultBlocks_eq]
  rcases hended with ⟨hended, -⟩ | ⟨hended, -⟩
  · rw [show splitlines updated = out from hended]
  · rw [hended]
    rcases heads_append_blank 0 (splitlinesFrom [] updated) with heq | heq
    · rw [heq]
      rfl
    · have hblank : [(([] : Text), (none : Option Text))].filterMap (·.2) = [] := rfl
      rw [heq, List.filterMap_append, hblank, List.append_nil]
      rfl

theorem mem_joinLines {c : Char} {ls : List Text} (h : c ∈ joinLines ls) :
    c = '\n' ∨ ∃ l ∈ ls, c ∈ l := by
  induction ls with
  | nil => cases h
  | cons l ls ih =>
    by_cases hnil : ls = []
    · rw [hnil, show joinLines [l] = l from List.intercalate_singleton] at h
      exact Or.inr ⟨l, List.mem_cons_self, h⟩
    · rw [joinLines_cons hnil] at h
      rcases List.mem_append.mp h with h | h
      · exact Or.inr ⟨l, List.mem_cons_self, h⟩
      · rcases List.mem_cons.mp h with h | h
        · exact Or.inl h
        · refine (ih h).imp id fun ⟨l', hl', hc⟩ => ?_
          exact ⟨l', List.mem_cons_of_mem _ hl', hc⟩

/-- What a rotation puts out is free of `\r`, and has the blocks of its pieces. -/
theorem rotated_pieces (h : r.rotateVaultBlocksForFile p content = .ok (updated, replaced)) :
    '\r' ∉ updated ∧ ∃ qs, List.Forall₂ (Renewed r p) (pieces 0 (splitlines (readText content))) qs ∧
      vaultBlocks updated = (qs.flatMap Piece.heads).filterMap (·.2) := by
  obtain ⟨⟨out, n⟩, hrun, h⟩ := bind_ok h
  obtain ⟨hupdated, -⟩ := Prod.mk.inj (Except.ok.inj h)
  have hout : ∀ l ∈ out, ∀ c ∈ l, isLineBreak c = false :=
    lines_unbroken (fun p hp l hl => splitlines_unbroken (mem_of_kept hp hl)) hrun
  have hnil : out = [] → (readText content).getLast? ≠ some '\n' := by
    rintro rfl
    have hlines : splitlines (readText content) = [] := List.head?_eq_none_iff.mp (head_lines hrun).symm
    rw [splitlinesFrom_eq_nil hlines]
    nofun
  refine ⟨?_, pieces 0 out, (pieces_lines hrun).1, ?_⟩
  · intro hcr
    rw [← hupdated] at hcr
    rcases List.mem_append.mp hcr with hcr | hcr
    · rcases mem_joinLines hcr with hnewline | ⟨l, hl, hc⟩
      · cases hnewline
      · exact absurd (hout l hl _ hc) (by decide)
    · split at hcr
      · exact absurd hcr (by decide)
      · cases hcr
  · rw [vaultBlocks_updated hout hnil hupdated, heads_pieces]

/-- What was in a file is kept by its rotation exactly if the file is one that can be. -/
theorem samePlain_iff (hV : V.TellsApart r.old r.new)
    (h : r.rotateVaultBlocksForFile p content = .ok (updated, replaced)) :
    SamePlain V r.old r.new content (if replaced = 0 then content else encode updated) ↔
      Keepable V r.old (readText content) := by
  obtain ⟨hcr, qs, hrenewed, hblocks⟩ := rotated_pieces h
  have hkept : vaultBlocks (readText (if replaced = 0 then content else encode updated)) =
      (qs.flatMap Piece.heads).filterMap (·.2) := by
    split
    · rename_i hzero
      have hnone : texts (pieces 0 (splitlines (readText content))) = [] := by
        rw [replaced_eq h] at hzero
        exact List.length_eq_zero_iff.mp hzero
      rw [renewed_eq hrenewed hnone, vaultBlocks_eq, heads_pieces]
    · rw [readText_encode hcr, hblocks]
  unfold SamePlain
  rw [hkept, vaultBlocks_eq, heads_pieces, renewed_same_iff hV hrenewed]
  refine ⟨fun hboth => ⟨fun text htext => ?_, hboth.2⟩, fun hkeepable => ⟨fun text htext => ?_,
    hkeepable.unhidden⟩⟩
  · rw [vaultBlocks_eq, heads_pieces] at htext
    exact hboth.1 text htext
  · refine hkeepable.utf8 text ?_
    rwa [vaultBlocks_eq, heads_pieces]

/-- A file that was rewritten does not hold under the old password what it held. -/
theorem not_same_of_rotated (hV : V.TellsApart r.new r.old)
    (h : r.rotateVaultBlocksForFile p content = .ok (updated, replaced)) (hseen : seen content ≠ []) :
    ¬ SamePlain V r.old r.old content (encode updated) := by
  obtain ⟨hcr, qs, hrenewed, hblocks⟩ := rotated_pieces h
  intro hsame
  unfold SamePlain at hsame
  rw [readText_encode hcr, hblocks, vaultBlocks_eq, heads_pieces] at hsame
  exact hseen (texts_of_same hV hrenewed hsame)

end Blocks

/-! ## The call -/

section Reset

variable {keepass trouble} {salt : Path → Nat → V.Salt} {walked : List Path}
  {masterPassword generated : Text} {newVaultPassword : Option Text} {files files' : Files} {e : Exc}

/-- Opening without creating leaves the files alone. -/
theorem openKdbx_files (keepass : KeePass) (masterPassword : Text) (files : Files) :
    (∃ kdbx, openKdbx keepass masterPassword false none files = .ok kdbx files ∧
      (files kdbxPath).bind keepass.load = some kdbx) ∨
    ∃ e, openKdbx keepass masterPassword false none files = .error e files := by
  unfold openKdbx
  split
  · exact Or.inr ⟨_, rfl⟩
  · rw [bind_of_ok (get_files files)]
    cases hcontent : files kdbxPath with
    | none => exact Or.inr ⟨_, rfl⟩
    | some content =>
      dsimp only
      rw [Option.bind_some]
      cases hload : keepass.load content with
      | none => exact Or.inr ⟨_, rfl⟩
      | some kdbx =>
        dsimp only
        split
        · exact Or.inl ⟨kdbx, rfl, rfl⟩
        · exact Or.inr ⟨_, rfl⟩

theorem admitted_files (keepass : KeePass) (trouble : Trouble) (masterPassword : Text)
    (newVaultPassword : Option Text) (generated : Text) (files : Files) :
    (∃ kdbx current, admitted keepass trouble masterPassword newVaultPassword generated files =
        .ok (kdbx, current, nextVaultPassword newVaultPassword generated) files ∧
      stored keepass files = some current ∧
      nextVaultPassword newVaultPassword generated ≠ current) ∨
    ∃ e, admitted keepass trouble masterPassword newVaultPassword generated files =
      .error e files := by
  unfold admitted
  cases trouble.ensure with
  | some exc => exact Or.inr ⟨exc, rfl⟩
  | none =>
    dsimp only
    rcases openKdbx_files keepass masterPassword files with
      ⟨kdbx, hopen, hload⟩ | ⟨e, hopen⟩
    · rw [bind_of_ok hopen]
      cases hentry : readKdbxEntry vaultPasswordTitle kdbx with
      | none => exact Or.inr ⟨_, rfl⟩
      | some current =>
        dsimp only
        split
        · exact Or.inr ⟨_, rfl⟩
        · rename_i hne
          cases trouble.ansible with
          | some exc => exact Or.inr ⟨_, rfl⟩
          | none =>
            refine Or.inl ⟨kdbx, current, rfl, ?_, hne⟩
            unfold stored
            rw [hload, Option.bind_some, hentry]
    · rw [bind_of_error hopen]
      exact Or.inr ⟨e, rfl⟩

theorem isYamlFile_kdbxPath : isYamlFile kdbxPath = false := by decide

theorem readable_refl (files : Files) : Readable V keepass files files := by
  intro old hold
  refine ⟨old, hold, fun p content _ hcontent => ⟨content, hcontent, ?_⟩⟩
  exact List.forall₂_same.mpr fun _ _ _ hplain => hplain

/-- Files that were rewritten are not readable with the password that is still stored. -/
theorem not_readable {current next : Text} {ps : List Path} {p : Path} {content : Bytes}
    (hV : V.TellsApart next current) (hstored : stored keepass files = some current)
    (hthrough : Through (fun p => (⟨current, next, salt p⟩ : Rotation V)) files ps files')
    (hyaml : ∀ q ∈ ps, isYamlFile q = true) (hp : p ∈ ps) (hcontent : files p = some content)
    (hseen : seen content ≠ []) : ¬ Readable V keepass files files' := by
  intro hreadable
  have hkdbx : kdbxPath ∉ ps := by
    intro hmem
    have hfalse := isYamlFile_kdbxPath
    rw [hyaml _ hmem] at hfalse
    cases hfalse
  have hstored' : stored keepass files' = some current := by
    rw [← hstored]
    unfold stored
    rw [hthrough.others _ hkdbx]
  obtain ⟨now, hnow, hsame⟩ := hreadable current hstored
  obtain ⟨content', hcontent', hplain⟩ := hsame p content (hyaml p hp) hcontent
  obtain ⟨_, updated, replaced, hfile, hrotate, hfile'⟩ := hthrough.rotated p hp
  rw [hcontent] at hfile
  cases hfile
  have hpositive : replaced ≠ 0 := by
    rw [replaced_eq hrotate]
    exact fun hzero => hseen (List.length_eq_zero_iff.mp hzero)
  rw [if_neg hpositive, hcontent'] at hfile'
  cases hfile'
  rw [Option.mem_def, hstored'] at hnow
  cases hnow
  exact not_same_of_rotated hV hrotate hseen hplain

/-- An element whose predecessors all pass, as it does, is in the part before the one that stops. -/
theorem mem_of_stopped {α : Type} {P : α → Prop} {xs done rest before after : List α} {x : α}
    (hxs : xs = done ++ rest) (hxs' : xs = before ++ x :: after) (hall : ∀ y ∈ before ++ [x], P y)
    (hstop : ∀ y ∈ rest.head?, ¬ P y) : x ∈ done := by
  have hx : P x := hall x (List.mem_append_right _ List.mem_cons_self)
  rcases List.append_eq_append_iff.mp (hxs.symm.trans hxs') with ⟨as, rfl, rfl⟩ | ⟨bs, rfl, hbs⟩
  · cases as with
    | nil => exact (hstop x rfl hx).elim
    | cons a as =>
      have ha : P a := hall a (List.mem_append_left _ (List.mem_append_right _ List.mem_cons_self))
      exact (hstop a rfl ha).elim
  · cases bs with
    | nil =>
      cases hbs
      exact (hstop x rfl hx).elim
    | cons b bs =>
      cases hbs
      exact List.mem_append_right _ List.mem_cons_self

/-- Where no file has a block, going through them changes nothing. -/
theorem Through.eq {r : Path → Rotation V} {ps : List Path} (h : Through r files ps files')
    (hnone : ∀ p ∈ ps, ∀ content, files p = some content → seen content = []) : files' = files := by
  funext p
  by_cases hp : p ∈ ps
  · obtain ⟨content, updated, replaced, hcontent, hrotate, hfile⟩ := h.rotated p hp
    have hzero : replaced = 0 := by
      rw [replaced_eq hrotate, hnone p hp content hcontent]
      rfl
    rw [hfile, if_pos hzero, hcontent]
  · exact h.others p hp

theorem resetVaultPassword_of_rotated {kdbx : Kdbx} {current next : Text} {updated : Nat × Nat}
    {files₁ : Files}
    (hadmitted : admitted keepass trouble masterPassword newVaultPassword generated files =
      .ok (kdbx, current, next) files)
    (hrun : rotateFiles trouble (fun p => (⟨current, next, salt p⟩ : Rotation V))
      (iterYamlFiles walked) (0, 0) files = .ok updated files₁)
    (hsave : trouble.save = none) :
    resetVaultPassword keepass trouble salt walked masterPassword newVaultPassword generated files =
      .ok updated (files₁.put kdbxPath (keepass.dump { kdbx with
        entries := upsertKdbxEntry vaultPasswordTitle (some next) kdbx.entries })) := by
  unfold resetVaultPassword
  rw [bind_of_ok hadmitted]
  dsimp only
  rw [bind_of_ok hrun, hsave]
  rfl

/-- A call that returns has been through every file, and then stored the next password. It tells
    how many files had a block, and how many blocks they had. -/
theorem resetVaultPassword_ok {updated : Nat × Nat} (hwalked : walked.Nodup)
    (h : resetVaultPassword keepass trouble salt walked masterPassword newVaultPassword generated
      files = .ok updated files') :
    ∃ (kdbx : Kdbx) (current : Text) (files₁ : Files), stored keepass files = some current ∧
      nextVaultPassword newVaultPassword generated ≠ current ∧
      updated = counted files (iterYamlFiles walked) (0, 0) ∧
      Through (fun p => (⟨current, nextVaultPassword newVaultPassword generated, salt p⟩ : Rotation V))
        files (iterYamlFiles walked) files₁ ∧
      files' = files₁.put kdbxPath (keepass.dump { kdbx with
        entries := upsertKdbxEntry vaultPasswordTitle
          (some (nextVaultPassword newVaultPassword generated)) kdbx.entries }) := by
  unfold resetVaultPassword at h
  rcases admitted_files keepass trouble masterPassword newVaultPassword generated files with
    ⟨kdbx, current, hadmitted, hstored, hne⟩ | ⟨e', hadmitted⟩
  · rw [bind_of_ok hadmitted] at h
    generalize nextVaultPassword newVaultPassword generated = next at h hadmitted hne ⊢
    dsimp only at h
    rcases rotateFiles_through trouble (fun p => (⟨current, next, salt p⟩ : Rotation V)) files
        (hwalked.filter isYamlFile) (0, 0) with
      ⟨files₁, hrun, -, hthrough⟩ | ⟨e', files₁, -, -, -, hrun, -, -, -, -⟩
    · rw [bind_of_ok (show rotateFiles trouble _ (iterYamlFiles walked) (0, 0) files =
        .ok _ files₁ from hrun)] at h
      cases hsave : trouble.save with
      | none =>
        rw [hsave, bind_of_ok (raiseIf_none _)] at h
        cases h
        exact ⟨kdbx, current, files₁, hstored, hne, rfl, hthrough, rfl⟩
      | some text =>
        rw [hsave, bind_of_error (show raiseIf (some text) files₁ = .error _ files₁ from rfl)] at h
        cases h
    · rw [bind_of_error (show rotateFiles trouble _ (iterYamlFiles walked) (0, 0) files =
        .error e' files₁ from hrun)] at h
      cases h
  · rw [bind_of_error hadmitted] at h
    cases h

theorem find_put {title password : Text} (entries : List (Text × Text)) :
    (Servers.put title password entries).find? (fun e => e.1 = title) = some (title, password) := by
  induction entries with
  | nil => simp [Servers.put]
  | cons e entries ih =>
    rw [Servers.put]
    split
    · simp
    · rename_i hne
      rw [List.find?_cons_of_neg (by simpa using hne), ih]

theorem readKdbxEntry_upsert {title password : Text} (hpassword : password ≠ []) (kdbx : Kdbx) :
    readKdbxEntry title { kdbx with entries := upsertKdbxEntry title (some password) kdbx.entries } =
      some password := by
  have hupsert : upsertKdbxEntry title (some password) kdbx.entries =
      Servers.put title password kdbx.entries := by
    unfold upsertKdbxEntry
    split
    · rename_i hnone
      cases hnone
    · rename_i hempty
      cases hempty
      exact absurd rfl hpassword
    · rename_i hsome
      cases hsome
      rfl
  unfold readKdbxEntry
  rw [hupsert, find_put, Option.bind_some]
  exact if_neg hpassword

/-- **A call that returns keeps the vault readable if and only if** every plaintext is UTF-8 and no
    block is hidden. -/
theorem reset_readable_iff {updated : Nat × Nat} (hV : ∀ current ∈ stored keepass files,
      nextVaultPassword newVaultPassword generated ≠ current →
        V.TellsApart current (nextVaultPassword newVaultPassword generated))
    (hwalked : walked.Nodup) (hall : ∀ p, isYamlFile p = true → files p ≠ none → p ∈ walked)
    (hgenerated : generated ≠ [])
    (h : resetVaultPassword keepass trouble salt walked masterPassword newVaultPassword generated
      files = .ok updated files') :
    Readable V keepass files files' ↔ ∀ current ∈ stored keepass files,
      ∀ p ∈ iterYamlFiles walked, ∀ content ∈ files p, Keepable V current (readText content) := by
  obtain ⟨kdbx, current, files₁, hstored, hne, -, hthrough, rfl⟩ := resetVaultPassword_ok hwalked h
  have hapart := hV current hstored hne
  have hnext : nextVaultPassword newVaultPassword generated ≠ [] := by
    unfold nextVaultPassword orNone
    split
    · exact hgenerated
    · rename_i hgiven
      exact hgiven
  generalize nextVaultPassword newVaultPassword generated = next at hne hthrough hapart hnext ⊢
  have hafter : stored keepass (files₁.put kdbxPath (keepass.dump { kdbx with
      entries := upsertKdbxEntry vaultPasswordTitle (some next) kdbx.entries })) = some next := by
    unfold stored
    rw [put_self, Option.bind_some, keepass.load_dump, Option.bind_some, readKdbxEntry_upsert hnext]
  have hyaml : ∀ p ∈ iterYamlFiles walked, isYamlFile p = true :=
    fun p hp => (List.mem_filter.mp hp).2
  -- a file of the walk is kept exactly if it can be
  have hfile {p : Path} (hp : p ∈ iterYamlFiles walked) {content : Bytes}
      (hcontent : files p = some content) :
      (∃ content', (files₁.put kdbxPath (keepass.dump { kdbx with
          entries := upsertKdbxEntry vaultPasswordTitle (some next) kdbx.entries })) p =
            some content' ∧ SamePlain V current next content content') ↔
        Keepable V current (readText content) := by
    obtain ⟨_, updated, replaced, hcontent', hrotate, hnew⟩ := hthrough.rotated p hp
    rw [hcontent] at hcontent'
    cases hcontent'
    have hne : p ≠ kdbxPath := by
      rintro rfl
      have hfalse := hyaml _ hp
      rw [isYamlFile_kdbxPath] at hfalse
      cases hfalse
    rw [put_of_ne _ _ hne, hnew, ← samePlain_iff hapart hrotate]
    exact ⟨fun ⟨_, heq, hsame⟩ => Option.some.inj heq ▸ hsame, fun hsame => ⟨_, rfl, hsame⟩⟩
  unfold Readable
  rw [hstored, hafter]
  constructor
  · intro hreadable old hold p hp content hcontent
    cases hold
    obtain ⟨now, hnow, hkept⟩ := hreadable current rfl
    cases hnow
    exact (hfile hp hcontent).mp (hkept p content (hyaml p hp) hcontent)
  · intro hkeepable old hold
    cases hold
    refine ⟨next, rfl, fun p content hp hcontent => ?_⟩
    have hmem : p ∈ iterYamlFiles walked :=
      List.mem_filter.mpr ⟨hall p hp (by simp [hcontent]), hp⟩
    exact (hfile hmem hcontent).mpr (hkeepable current rfl p hmem content hcontent)

end Reset

/-! ## Two workspaces -/

section Demo

theorem not_mem_encode (t : Text) : (0xff : UInt8) ∉ encode t := by
  intro h
  obtain ⟨c, -, hc⟩ := List.mem_flatMap.mp h
  have hvalid : c.val.toNat < 0xd800 ∨ 0xdfff < c.val.toNat ∧ c.val.toNat < 0x110000 := c.valid
  unfold String.utf8EncodeChar at hc
  generalize c.val.toNat = v at hc hvalid
  -- the first byte of a character is 0xf4 at most, and the later ones are below 0xc0
  have hbyte {n : Nat} (hn : n < 0xff) : (0xff : UInt8) ≠ UInt8.ofNat n := by
    intro heq
    have hval : 255 = (UInt8.ofNat n).toNat := congrArg UInt8.toNat heq
    rw [toNat_ofNat_byte (by omega)] at hval
    omega
  dsimp only at hc
  split_ifs at hc
  all_goals
    simp only [List.mem_cons, List.not_mem_nil, or_false] at hc
  · exact hbyte (by omega) hc
  · rcases hc with hc | hc
    · exact hbyte (by omega) hc
    · exact hbyte (by omega) hc
  · rcases hc with hc | hc | hc
    · exact hbyte (by omega) hc
    · exact hbyte (by omega) hc
    · exact hbyte (by omega) hc
  · rcases hc with hc | hc | hc | hc
    · exact hbyte (by omega) hc
    · exact hbyte (by omega) hc
    · exact hbyte (by omega) hc
    · exact hbyte (by omega) hc

/-- The password can be read off a text that it decrypts. -/
theorem demoVault_tellsApart {password other : Text} (hne : password ≠ other) :
    demoVault.TellsApart password other := by
  -- the password of a text is what comes before the mark
  have hread {password text : Text} (h : decrypts demoVault password text = true) :
      encode password =
        (((unhexlify (text.drop 26)).getD []).takeWhile fun b => b ≠ 0xff) := by
    unfold decrypts at h
    show _ = _
    change (demoDecrypt password text).toOption.isSome = true at h
    unfold demoDecrypt at h
    split at h
    · split at h
      · cases h
      · rename_i bs hbs
        rw [hbs, Option.getD_some]
        split at h
        · rename_i hprefix
          obtain ⟨rest, rfl⟩ := List.isPrefixOf_iff_prefix.mp hprefix
          have hall : ∀ b ∈ encode password, decide (b ≠ 0xff) = true := fun b hb =>
            decide_eq_true (ne_of_mem_of_not_mem hb (not_mem_encode password))
          rw [List.append_assoc, List.takeWhile_append_of_pos hall]
          simp
        · cases h
    · cases h
  intro text hold
  by_contra hother
  rw [Bool.not_eq_false] at hother
  have hcodes := congrArg decode ((hread hold).trans (hread hother).symm)
  rw [decode_encode, decode_encode] at hcodes
  exact hne hcodes

def textOf : Json.Value → Text
  | .str t => t
  | _ => []

def demoLoad (content : Bytes) : Option Kdbx :=
  match Json.parse (decode content) with
  | some (.obj members) =>
      let entries := members.map fun m => (m.1, textOf m.2)
      entries.getLast?.map fun last => ⟨last.2, entries.dropLast⟩
  | _ => none

def demoMembers (kdbx : Kdbx) : List (Text × Json.Scalar) :=
  kdbx.entries.map fun e => (e.1, .str e.2)

def demoMaster (kdbx : Kdbx) : Text × Json.Scalar := ([], .str kdbx.masterPassword)

/-- A database that is not encrypted: the entries, and the master password after them. -/
def demoKeePass : KeePass where
  load := demoLoad
  dump kdbx := encode (Json.print (demoMembers kdbx ++ [demoMaster kdbx]))
  load_dump kdbx := by
    have hmembers : ((demoMembers kdbx ++ [demoMaster kdbx]).map fun m => (m.1, m.2.value)).map
        (fun m => (m.1, textOf m.2)) = kdbx.entries ++ [([], kdbx.masterPassword)] := by
      unfold demoMembers demoMaster
      simp [Json.Scalar.value, textOf, Function.comp_def]
    unfold demoLoad
    rw [decode_encode, Json.parse_print]
    dsimp only
    rw [hmembers, List.getLast?_concat, List.dropLast_concat]
    rfl

def demoPath (name : Text) (h : isFileName name = true) : Path := [⟨name, h⟩]

def aPath : Path := demoPath "a.yml" (Eq.refl true)

def bPath : Path := demoPath "b.yml" (Eq.refl true)

def demoKey : Bytes := encode "key: !vault |\n  $ANSIBLE_VAULT;1.1;AES256\n  6f6c64ff6869\n"

def demoKdbx : Kdbx := ⟨"master", [("vault_password", "old")]⟩

/-- Two files with a key each, and the database. -/
def demoFiles : Files := fun p =>
  if p = kdbxPath then some (demoKeePass.dump demoKdbx)
  else if p = aPath ∨ p = bPath then some demoKey else none

def demoSalt : Path → Nat → demoVault.Salt := fun _ _ => ()

def calm : Trouble := ⟨none, none, fun _ => none, fun _ => none, none⟩

/-- The second of the two files cannot be read. -/
def unread : Trouble := { calm with read := fun p => if p = bPath then some "denied" else none }

theorem admitted_demo (trouble : Trouble) (generated : Text) (hensure : trouble.ensure = none)
    (hansible : trouble.ansible = none) :
    admitted demoKeePass trouble "master" (some "new") generated demoFiles =
      .ok (demoKdbx, "old".toList, "new".toList) demoFiles := by
  have hload : demoKeePass.load (demoKeePass.dump demoKdbx) = some demoKdbx :=
    demoKeePass.load_dump demoKdbx
  have hfile : demoFiles kdbxPath = some (demoKeePass.dump demoKdbx) := rfl
  have hopen : openKdbx demoKeePass "master" false none demoFiles = .ok demoKdbx demoFiles := by
    unfold openKdbx
    rw [if_neg (by decide), bind_of_ok (get_files demoFiles), hfile]
    dsimp only
    rw [hload]
    rfl
  unfold admitted
  rw [hensure]
  dsimp only
  rw [bind_of_ok hopen, hansible]
  rfl

theorem demoFiles_key {p : Path} (hp : p ∈ [aPath, bPath]) : demoFiles p = some demoKey := by
  rcases List.mem_pair.mp hp with rfl | rfl
  · rfl
  · rfl

theorem rotates_demo (trouble : Trouble) {p : Path} (hp : p ∈ [aPath, bPath])
    (hread : trouble.read p = none) (hwrite : trouble.write p = none) :
    Rotates trouble demoFiles demoRotation p := by
  have hrotate : ∀ q ∈ [aPath, bPath], demoRotation.rotateVaultBlocksForFile q demoKey =
      .ok ("key: !vault |\n  $ANSIBLE_VAULT;1.1;AES256\n  6e6577ff6869\n".toList, 1) := by
    decide +kernel
  exact ⟨hread, demoKey, _, 1, demoFiles_key hp, hrotate p hp, fun _ => hwrite⟩

theorem keepable_demo : Keepable demoVault "old" (readText demoKey) := by
  have hblocks : vaultBlocks (readText demoKey) =
      ["$ANSIBLE_VAULT;1.1;AES256\n6f6c64ff6869".toList] := by decide +kernel
  have hpieces : ((pieces 0 (splitlines (readText demoKey))).all
      fun p => match p with | .other .. => false | _ => true) = true := by decide +kernel
  constructor
  · intro text htext plain hplain
    rw [hblocks] at htext
    rw [List.mem_singleton.mp htext] at hplain
    cases hplain
    exact ⟨"hi".toList, by decide⟩
  · intro head body hmem
    cases List.all_eq_true.mp hpieces _ hmem

/-- Where both can be, both keys are kept. -/
theorem reset_readable_iff_both : ∃ files',
    resetVaultPassword demoKeePass calm demoSalt [aPath, bPath] "master" (some "new") ['x']
      demoFiles = .ok (2, 2) files' ∧
    Readable demoVault demoKeePass demoFiles files' := by
  have hnodup : [aPath, bPath].Nodup := by decide
  have hcounts : counted demoFiles [aPath, bPath] (0, 0) = (2, 2) := by decide +kernel
  have hrun : ∃ files', resetVaultPassword demoKeePass calm demoSalt [aPath, bPath] "master"
      (some "new") ['x'] demoFiles = .ok (2, 2) files' := by
    rcases rotateFiles_through calm (fun p => (⟨"old", "new", demoSalt p⟩ : Rotation demoVault))
        demoFiles hnodup (0, 0) with ⟨files', hfiles, -⟩ | ⟨e, _, before, p, after, -, heq, -, hnot, -⟩
    · rw [hcounts] at hfiles
      exact ⟨_, resetVaultPassword_of_rotated (admitted_demo calm ['x'] rfl rfl) hfiles rfl⟩
    · have hp : p ∈ [aPath, bPath] := by
        rw [heq]
        exact List.mem_append_right _ List.mem_cons_self
      exact absurd (rotates_demo calm hp rfl rfl) hnot
  obtain ⟨files', hrun⟩ := hrun
  refine ⟨files', hrun, (reset_readable_iff ?_ hnodup ?_ (List.cons_ne_nil _ _) hrun).mpr ?_⟩
  · intro current hcurrent hne
    exact demoVault_tellsApart (Ne.symm hne)
  · intro p hp hsome
    unfold demoFiles at hsome
    split_ifs at hsome with hkdbx hboth
    · rw [hkdbx, isYamlFile_kdbxPath] at hp
      cases hp
    · exact List.mem_pair.mpr hboth
    · exact absurd rfl hsome
  · intro current hcurrent p hp content hcontent
    have hstored : stored demoKeePass demoFiles = some "old".toList := by
      have hfile : demoFiles kdbxPath = some (demoKeePass.dump demoKdbx) := rfl
      unfold stored
      rw [hfile, Option.bind_some, demoKeePass.load_dump, Option.bind_some]
      rfl
    rw [hstored] at hcurrent
    rw [demoFiles_key (List.mem_filter.mp hp).1] at hcontent
    cases hcurrent
    cases hcontent
    exact keepable_demo

end Demo

end Infinito.Vault
