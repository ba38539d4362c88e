import Infinito.Workspace.Confined

/-!
# What an import that raises leaves behind

`load_zip` takes the entries of an archive one after the other: it validates an entry,
resolves its path, makes the directories above it, reads it, reads the file that is there,
and writes. An entry it rejects, or cannot read or write, raises, and what the entries
before it have written stays; so does the emptied file of an entry whose write fails after
the file has been opened.

An entry is split here into what it does before its write, `prepareMember`, and the write.
Nothing changes a file in the first part, so `effects`, the writes of the entries up to the
one that raises, are all the difference there is (`fileAt_of_raise`).
-/

set_option autoImplicit false

namespace Infinito.Workspace

open Py Lib

variable {ρ : Type} (h : Host) (docs : Docs)

/-! ## An entry up to its write -/

/-- What `load_zip` has found out about an entry before it decides what to write. -/
structure FoundMember where
  relPath : Text
  resolved : Path
  incoming : Bytes
  existing : Option Bytes

def findMember (info : ZipInfo) : Fs ρ (Option FoundMember) := do
  match ← orRaise (memberTarget h info) with
  | none => return none
  | some (relPath, resolved) =>
    safeMkdir resolved.dropLast
    let incoming ← orFail "failed to extract zip" (orRaise (info.content.mapError .raised))
    let existing ← existingBytes resolved
    return some ⟨relPath, resolved, incoming, existing⟩

/-- What is written over the content that was found, if anything. -/
def FoundMember.payload (mode : ZipMode) (m : FoundMember) : Option Bytes :=
  match mode, m.existing with
  | .merge, some existing =>
      (mergeStructuredBytes docs m.relPath existing m.incoming).filter fun b => b ≠ existing
  | _, _ => some m.incoming

variable (defaultMode : ZipMode) (perFileMode : List (Text × Text))

/-- The write of an entry: none for one that is passed over, or that changes nothing. -/
def FoundMember.write (m : FoundMember) : Option (Path × Bytes) :=
  (m.payload docs (resolveZipMode m.relPath defaultMode perFileMode)).map (m.resolved, ·)

/-- One entry, with what it adds to the counts left out. -/
def storeMember (info : ZipInfo) : Fs ρ Unit := do
  match (← findMember h info).bind (·.write docs defaultMode perFileMode) with
  | none => pure ()
  | some (q, payload) => extract q payload

def storeMembers : List ZipInfo → Fs ρ Unit
  | [] => pure ()
  | info :: infos => do
    storeMember h docs defaultMode perFileMode info
    storeMembers infos

section Store

variable {h docs defaultMode perFileMode} {counts : ZipCounts}

theorem mergeMember_store {relPath : Text} {q : Path} {existing incoming : Bytes} :
    (mergeMember docs counts relPath q existing incoming >>= fun _ => pure () : Fs ρ Unit) =
      match (mergeStructuredBytes docs relPath existing incoming).filter fun b => b ≠ existing with
      | none => pure ()
      | some payload => extract q payload := by
  unfold mergeMember
  cases mergeStructuredBytes docs relPath existing incoming with
  | none => rfl
  | some payload =>
    by_cases heq : payload = existing
    · simp [heq, Option.filter]
    · simp [heq, Option.filter]

theorem writeMember_store {q : Path} {incoming : Bytes} :
    (writeMember counts q incoming >>= fun _ => pure () : Fs ρ Unit) = extract q incoming := by
  unfold writeMember
  simp only [bind_assoc, pure_bind]
  funext w
  rw [bind_of_ok (show pathExists q w = .ok _ w from rfl), bind_pure_unit]

/-- **An entry is what is found out about it, and its write.** -/
theorem importMember_store (counts : ZipCounts) (info : ZipInfo) :
    (importMember h docs defaultMode perFileMode counts info >>= fun _ => pure () : Fs ρ Unit) =
      storeMember h docs defaultMode perFileMode info := by
  unfold importMember storeMember findMember
  rw [bind_assoc, bind_assoc]
  congr 1
  funext target
  cases target with
  | none => rfl
  | some member =>
    obtain ⟨relPath, q⟩ := member
    simp only [bind_assoc, pure_bind, Option.bind_some, FoundMember.write, FoundMember.payload]
    congr 1
    funext _
    congr 1
    funext incoming
    congr 1
    funext existing
    cases resolveZipMode relPath defaultMode perFileMode with
    | override => exact writeMember_store
    | merge =>
      cases existing with
      | none => exact writeMember_store
      | some existing =>
        rw [mergeMember_store]
        show _ = match Option.map (fun x => (q, x)) ((mergeStructuredBytes docs relPath existing
          incoming).filter fun b => b ≠ existing) with | none => pure () | some (q, b) => extract q b
        cases (mergeStructuredBytes docs relPath existing incoming).filter fun b => b ≠ existing with
        | none => rfl
        | some payload => rfl

theorem importMembers_store (counts : ZipCounts) (infos : List ZipInfo) :
    (importMembers h docs defaultMode perFileMode counts infos >>= fun _ => pure () : Fs ρ Unit) =
      storeMembers h docs defaultMode perFileMode infos := by
  induction infos generalizing counts with
  | nil => rfl
  | cons info infos ih =>
    rw [storeMembers, ← importMember_store counts info, importMembers]
    simp only [bind_assoc, pure_bind, ih]

end Store

/-! ## The files in between -/

/-- Directories made where nothing was, and reads. -/
inductive Quiet (w : World ρ) : Cmd → Prop
  | mkdir {p : Path} : w.disk.get p = none → Quiet w (.mkdir p)
  | read {p : Path} : Quiet w (.read p)

section Files

variable {h docs defaultMode perFileMode} {info : ZipInfo} {infos : List ZipInfo} {w w' : World ρ}

theorem fileAt_did_write {q p : Path} {b : Bytes} (hc : (Cmd.write q b).refused w.disk.nodes = none) :
    (w.did (.write q b) hc).disk.fileAt p = if p = q then some b else w.disk.fileAt p := by
  show Nodes.fileAt (w.disk.nodes.set q (.file b)) p = _
  unfold Nodes.fileAt
  rw [FinMap.get_set]
  by_cases hp : p = q
  · rw [if_pos hp, if_pos hp]
  · rw [if_neg hp, if_neg hp]
    rfl

/-- Nothing quiet changes a file. -/
theorem Does.fileAt {α : Type} {m : Fs ρ α} (hm : Does Quiet m) (p : Path) (w : World ρ) :
    (after m w).disk.fileAt p = w.disk.fileAt p := by
  have hkeeps : Keeps (fun v : World ρ => v.disk.fileAt p = w.disk.fileAt p) m := by
    refine hm.keeps (fun v c hc hv hquiet => ?_) fun v hv => hv
    rw [← hv]
    cases hquiet with
    | read => rfl
    | mkdir hnone =>
      rename_i q
      show Nodes.fileAt (v.disk.nodes.set q .dir) p = Nodes.fileAt v.disk.nodes p
      unfold Nodes.fileAt
      rw [FinMap.get_set]
      by_cases hp : p = q
      · rw [if_pos hp, hp, show v.disk.nodes.get q = none from hnone]
      · rw [if_neg hp]
  exact hkeeps w rfl

theorem findMember_does : Does Quiet (findMember h info : Fs ρ (Option FoundMember)) := by
  refine Moves.bind (Does.orRaise _) fun target => ?_
  cases target with
  | none => exact Moves.ret _
  | some member =>
    refine Moves.bind (safeMkdir_does fun w p _ _ hnone => .mkdir hnone) fun _ => ?_
    refine Moves.bind (Does.orFail (Does.orRaise _)) fun _ => ?_
    exact Moves.bind (existingBytes_does fun _ => .read) fun _ => Moves.ret _

/-- A write that does not go through leaves the file as it was, or empty. -/
theorem extract_cases (w : World ρ) (q : Path) (payload : Bytes) :
    (∃ w', extract q payload w = .ok () w' ∧
      ∀ p, w'.disk.fileAt p = if p = q then some payload else w.disk.fileAt p) ∨
    ∃ e w', extract q payload w = .error e w' ∧
      ∀ p, w'.disk.fileAt p = if p = q ∧ w.trouble (.write q []) = none then some []
        else w.disk.fileAt p := by
  unfold extract orFail
  rw [tryCatch_apply]
  rcases exec_cases (.write q []) w with ⟨text, htrouble, hexec⟩ | ⟨hopen, hexec⟩
  · rw [bind_of_error hexec]
    refine Or.inr ⟨_, _, rfl, fun p => ?_⟩
    rw [if_neg (by simp [htrouble])]
    rfl
  · rw [bind_of_ok hexec]
    have hemptied := fun p => fileAt_did_write (p := p) (World.refused_of_trouble hopen)
    rcases exec_cases (.write q payload) (w.did _ (World.refused_of_trouble hopen)) with
      ⟨text, htrouble, hwrite⟩ | ⟨htrouble, hwrite⟩
    · rw [hwrite]
      refine Or.inr ⟨_, _, rfl, fun p => (hemptied p).trans ?_⟩
      simp [hopen]
    · rw [hwrite]
      refine Or.inl ⟨_, rfl, fun p => ?_⟩
      rw [fileAt_did_write, hemptied]
      split <;> rfl

end Files

/-! ## The writes of an import -/

/-- What an entry is going to write, by the state before it. -/
def planned (w : World ρ) (info : ZipInfo) : List (Path × Bytes) :=
  match findMember h info w with
  | .ok found _ => (found.bind (·.write docs defaultMode perFileMode)).toList
  | .error _ _ => []

/-- Of an entry that raises: the file it has opened, if it gets that far. -/
def emptied (w : World ρ) (info : ZipInfo) : List (Path × Bytes) :=
  match findMember h info w with
  | .ok found u => match found.bind (·.write docs defaultMode perFileMode) with
    | some (q, _) => if u.trouble (.write q []) = none then [(q, [])] else []
    | none => []
  | .error _ _ => []

/-- What the entries write, oldest first, up to the one that raises. -/
def effects (w : World ρ) : List ZipInfo → List (Path × Bytes)
  | [] => []
  | info :: infos => match storeMember h docs defaultMode perFileMode info w with
    | .ok _ w' => planned h docs defaultMode perFileMode w info ++ effects w' infos
    | .error _ _ => emptied h docs defaultMode perFileMode w info

/-- The last content a file is given. -/
def lastWrite (writes : List (Path × Bytes)) (p : Path) : Option Bytes := writes.reverse.lookup p

section Effects

variable {h docs defaultMode perFileMode} {info : ZipInfo} {infos : List ZipInfo}
  {w w' : World ρ} {e : Exc}

theorem lastWrite_append (xs ys : List (Path × Bytes)) (p : Path) :
    lastWrite (xs ++ ys) p = (lastWrite ys p).or (lastWrite xs p) := by
  unfold lastWrite
  rw [List.reverse_append, List.lookup_append]

theorem lastWrite_singleton (q p : Path) (b : Bytes) :
    lastWrite [(q, b)] p = if p = q then some b else none := by
  show List.lookup p [(q, b)] = _
  rw [List.lookup_cons, List.lookup_nil]
  by_cases hp : p = q
  · simp [hp]
  · simp [hp, beq_false_of_ne hp]

theorem fileAt_of_store (hok : storeMember h docs defaultMode perFileMode info w = .ok () w')
    (p : Path) : w'.disk.fileAt p =
      (lastWrite (planned h docs defaultMode perFileMode w info) p).or (w.disk.fileAt p) := by
  obtain ⟨found, u, hfound, hstore⟩ := bind_eq_ok.mp hok
  have hquiet : u.disk.fileAt p = w.disk.fileAt p := by
    rw [← findMember_does.fileAt p w, after_of_ok hfound]
  unfold planned
  rw [hfound]
  dsimp only
  cases hwrite : found.bind (·.write docs defaultMode perFileMode) with
  | none =>
    rw [hwrite] at hstore
    cases hstore
    exact hquiet
  | some x =>
    obtain ⟨q, payload⟩ := x
    rw [hwrite] at hstore
    rcases extract_cases u q payload with
      ⟨v, hextract, hfiles⟩ | ⟨e, v, hextract, -⟩
    · cases hextract.symm.trans hstore
      rw [hfiles, hquiet, Option.toList_some, lastWrite_singleton]
      split <;> rfl
    · cases hextract.symm.trans hstore

theorem fileAt_of_store_error
    (herror : storeMember h docs defaultMode perFileMode info w = .error e w') (p : Path) :
    w'.disk.fileAt p =
      (lastWrite (emptied h docs defaultMode perFileMode w info) p).or (w.disk.fileAt p) := by
  unfold emptied
  rcases bind_eq_error.mp herror with hfound | ⟨found, u, hfound, hstore⟩
  · rw [hfound, ← findMember_does.fileAt p w, after_of_error hfound]
    rfl
  · have hquiet : u.disk.fileAt p = w.disk.fileAt p := by
      rw [← findMember_does.fileAt p w, after_of_ok hfound]
    rw [hfound]
    dsimp only
    cases hwrite : found.bind (·.write docs defaultMode perFileMode) with
    | none =>
      rw [hwrite] at hstore
      cases hstore
    | some x =>
      obtain ⟨q, payload⟩ := x
      rw [hwrite] at hstore
      rcases extract_cases u q payload with
        ⟨v, hextract, -⟩ | ⟨e', v, hextract, hfiles⟩
      · cases hextract.symm.trans hstore
      · cases hextract.symm.trans hstore
        rw [hfiles, hquiet]
        dsimp only
        by_cases hopen : u.trouble (.write q []) = none
        · rw [if_pos hopen, lastWrite_singleton]
          by_cases hp : p = q
          · rw [if_pos ⟨hp, hopen⟩, if_pos hp]
            rfl
          · rw [if_neg fun h => hp h.1, if_neg hp]
            rfl
        · rw [if_neg hopen, if_neg fun h => hopen h.2]
          rfl

/-- **What is different after an import that raised is what its entries wrote.** -/
theorem fileAt_of_raise (herror : storeMembers h docs defaultMode perFileMode infos w = .error e w')
    (p : Path) : w'.disk.fileAt p =
      (lastWrite (effects h docs defaultMode perFileMode w infos) p).or (w.disk.fileAt p) := by
  induction infos generalizing w with
  | nil => cases herror
  | cons info infos ih =>
    unfold effects
    rcases bind_eq_error.mp herror with hfirst | ⟨⟨⟩, v, hfirst, hrest⟩
    · rw [hfirst]
      exact fileAt_of_store_error hfirst p
    · rw [hfirst]
      dsimp only
      rw [ih hrest, fileAt_of_store hfirst, lastWrite_append, Option.or_assoc]

theorem findMember_inside {m : FoundMember} (hfound : findMember h info w = .ok (some m) w') :
    h.Inside m.resolved := by
  obtain ⟨target, u, htarget, hrest⟩ := bind_eq_ok.mp hfound
  obtain ⟨hmember, rfl⟩ := orRaise_eq_ok htarget
  cases target with
  | none => cases hrest
  | some member =>
    obtain ⟨relPath, q⟩ := member
    obtain ⟨⟨⟩, v, -, hrest⟩ := bind_eq_ok.mp hrest
    obtain ⟨incoming, v, -, hrest⟩ := bind_eq_ok.mp hrest
    obtain ⟨existing, v, -, hrest⟩ := bind_eq_ok.mp hrest
    cases hrest
    exact memberTarget_inside hmember

theorem write_inside {found : Option FoundMember} {x : Path × Bytes}
    (hfound : findMember h info w = .ok found w')
    (hwrite : found.bind (·.write docs defaultMode perFileMode) = some x) : h.Inside x.1 := by
  obtain ⟨m, rfl, hm⟩ := Option.bind_eq_some_iff.mp hwrite
  obtain ⟨b, -, rfl⟩ := Option.map_eq_some_iff.mp hm
  exact findMember_inside hfound

theorem effects_inside {x : Path × Bytes}
    (hx : x ∈ effects h docs defaultMode perFileMode w infos) : h.Inside x.1 := by
  induction infos generalizing w with
  | nil => cases hx
  | cons info infos ih =>
    unfold effects at hx
    split at hx
    · rcases List.mem_append.mp hx with hx | hx
      · unfold planned at hx
        split at hx
        · rename_i found u hfound
          exact write_inside hfound (Option.mem_toList.mp hx)
        · cases hx
      · exact ih hx
    · unfold emptied at hx
      split at hx
      · rename_i found u hfound
        split at hx
        · rename_i q payload hwrite
          split at hx
          · rw [List.mem_singleton.mp hx]
            show h.Inside q
            exact write_inside hfound hwrite
          · cases hx
        · cases hx
      · cases hx

theorem mem_of_lastWrite {writes : List (Path × Bytes)} {q : Path} {b : Bytes}
    (hq : lastWrite writes q = some b) : (q, b) ∈ writes := by
  obtain ⟨before, after, heq, -⟩ := List.lookup_eq_some_iff.mp hq
  exact List.mem_reverse.mp (by rw [heq]; simp)

/-- Of a file that is written once, that content is the last. -/
theorem lastWrite_of_nodup {writes : List (Path × Bytes)} {q : Path} {b : Bytes}
    (hq : (q, b) ∈ writes) (hnodup : (writes.map (·.1)).Nodup) : lastWrite writes q = some b := by
  cases hlast : lastWrite writes q with
  | none =>
    have hnot := List.lookup_eq_none_iff.mp hlast (q, b) (List.mem_reverse.mpr hq)
    simp at hnot
  | some b' =>
    have := List.inj_on_of_nodup_map hnodup hq (mem_of_lastWrite hlast) rfl
    rw [(Prod.mk.inj this).2]

end Effects

section Demo

/-- A regular file that others may read. -/
def demoEntry (name : Text) (content : Bytes) : ZipInfo := ⟨name, 0o100644 <<< 16, .ok content⟩

def demoLink (name : Text) : ZipInfo := ⟨name, 0o120777 <<< 16, .ok []⟩

/-- What is at a path after a program that raised. -/
def leftAt {α : Type} (m : Fs Unit α) (w : World Unit) (p : Path) : Option (Option Bytes) :=
  match m w with
  | .ok _ _ => none
  | .error _ w' => some (w'.disk.fileAt p)

end Demo

end Infinito.Workspace
