import Infinito.Audit.Query
import Infinito.Lib.Json
import Infinito.Py.Utf8

/-!
# Exporting the audit log

The log of a workspace is exported as lines of JSON. `export_shows_pages` reads them back, as the
entries that the pages show, in their order.
-/

set_option autoImplicit false

namespace Infinito.Audit

open Py Lib
open Lib.Json (Scalar)
open Relay (Row)

/-! ## Lines of JSON -/

/-- `isoformat_z`, of a text -/
def isoformatZ (value : Text) : Option Text :=
  let trimmed := strip value
  if ("+00:00" : Text).isSuffixOf trimmed then some (trimmed.rdrop 6 ++ ['Z']) else orNone trimmed

def textScalar : Option Text → Scalar
  | some t => .str t
  | none => .null

/-- The members of an entry but for the last, in the order of `row_to_entry`. -/
def Entry.members (e : Entry) : List (Text × Scalar) :=
  [("id", .int e.id), ("timestamp", textScalar (isoformatZ e.timestamp)),
    ("workspace_id", textScalar e.workspaceId), ("user", .str e.user), ("method", .str e.method),
    ("path", .str e.path), ("status", .int e.status), ("duration_ms", .int e.durationMs),
    ("ip", .str e.ip), ("request_id", textScalar e.requestId)]

def Entry.last (e : Entry) : Text × Scalar := ("user_agent", textScalar e.userAgent)

/-- `json.dumps(payload, ensure_ascii=False)` -/
def Entry.dumps (e : Entry) : Text := Json.print (e.members ++ [e.last])

def encodeJsonl (rows : List Entry) : Bytes := encode (rows.flatMap fun row => row.dumps ++ ['\n'])

/-! ## Comma-separated values -/

def FIELDNAMES : List Text :=
  ["id", "timestamp", "workspace_id", "user", "method", "path", "status", "duration_ms", "ip",
    "request_id", "user_agent"]

/-- A field as `csv.writer` writes it: in quotes, where it has to be. -/
def csvField (t : Text) : Text :=
  if t.any fun c => c = ',' || c = '"' || c = '\r' || c = '\n' then
    '"' :: t.flatMap (fun c => if c = '"' then ['"', '"'] else [c]) ++ ['"']
  else t

def csvRow (fields : List Text) : Text := List.intercalate [','] (fields.map csvField) ++ ['\r', '\n']

/-- A value of a row: nothing is empty. -/
def csvValue : Scalar → Text
  | .null => []
  | .bool b => if b then "True" else "False"
  | .int n => Json.printInt n
  | .str t => t

def encodeCsv (rows : List Entry) : Bytes :=
  encode (csvRow FIELDNAMES ++ rows.flatMap fun row =>
    csvRow ((row.members ++ [row.last]).map fun m => csvValue m.2))

variable (F : Folding) (isoformat : Int → Text)

/-- `export_entries`, of what is not zipped: the body. -/
def exportEntries (workspaceId fmt : Text) (filter : Filter) (table : List (Row Event)) :
    Except HttpError Bytes :=
  let workspaceKey := strip workspaceId
  if workspaceKey = [] then .error ⟨400, "workspace_id is required"⟩
  else
    let normalizedFormat := (orNone (lower (strip fmt))).getD "jsonl"
    if normalizedFormat ∉ (["jsonl", "csv"] : List Text) then .error ⟨400, "unsupported export format"⟩
    else
      let rows := (selectRows F workspaceKey filter table).map (rowToEntry isoformat)
      .ok (if normalizedFormat = "jsonl".toList then encodeJsonl rows else encodeCsv rows)

/-! ## The lines are read back -/

/-- What an entry is read as. -/
def Entry.value (e : Entry) : Json.Value :=
  .obj ((e.members ++ [e.last]).map fun m => (m.1, m.2.value))

/-- The lines of a body that are not empty. -/
def jsonLines (body : Bytes) : List Text := ((decode body).splitOn '\n').filter (· ≠ [])

theorem newline_not_mem_dumps (e : Entry) : '\n' ∉ e.dumps := by
  intro h
  have hspace : 0x20 ≤ '\n'.toNat := Json.space_le_print h
  exact absurd hspace (by decide)

theorem splitOn_lines {ls : List Text} (h : ∀ l ∈ ls, '\n' ∉ l) :
    (ls.flatMap fun l => l ++ ['\n']).splitOn '\n' = ls ++ [[]] := by
  induction ls with
  | nil => rfl
  | cons l ls ih =>
    rw [List.flatMap_cons, List.append_assoc, List.cons_append, List.nil_append,
      List.splitOn_append_cons_self_of_not_mem (h l List.mem_cons_self),
      ih fun x hx => h x (List.mem_cons_of_mem _ hx)]
    rfl

theorem jsonLines_encodeJsonl (rows : List Entry) :
    jsonLines (encodeJsonl rows) = rows.map Entry.dumps := by
  have hlines : (rows.flatMap fun row => row.dumps ++ ['\n']) =
      (rows.map Entry.dumps).flatMap fun l => l ++ ['\n'] := by
    rw [List.flatMap_map]
  unfold jsonLines encodeJsonl
  rw [decode_encode, hlines, splitOn_lines, List.filter_append]
  · have hkept : (rows.map Entry.dumps).filter (· ≠ []) = rows.map Entry.dumps := by
      refine List.filter_eq_self.mpr fun l hl => ?_
      obtain ⟨e, -, rfl⟩ := List.mem_map.mp hl
      rfl
    rw [hkept]
    exact List.append_nil _
  · intro l hl
    obtain ⟨e, -, rfl⟩ := List.mem_map.mp hl
    exact newline_not_mem_dumps e

theorem parse_dumps (e : Entry) : Json.parse e.dumps = some e.value := Json.parse_print _ _

/-! ## Pages and the whole -/

/-- The entries of a listing, where there is one. -/
def shown (listing : Except HttpError Listing) : List Entry := match listing with
  | .ok listing => listing.entries
  | .error _ => []

theorem flatMap_pages {α : Type} (xs : List α) (size n : Nat) :
    (List.range n).flatMap (fun i => (xs.drop (i * size)).take size) = xs.take (n * size) := by
  induction n with
  | zero => simp
  | succ n ih =>
    rw [List.range_succ, List.flatMap_append, ih, List.flatMap_singleton, Nat.succ_mul, List.take_add]

/-- **The lines of an export are the entries of the pages**, one after the other. -/
theorem export_shows_pages {F : Folding} {isoformat : Int → Text} {workspaceId : Text}
    {filter : Filter} {table : List (Row Event)} {body : Bytes} {pageSize : Int} {n : Nat}
    (hbody : exportEntries F isoformat workspaceId "jsonl" filter table = .ok body)
    (hn : ∃ listing, listEntries F isoformat workspaceId (n + 1) pageSize filter table = .ok listing ∧
      listing.total ≤ listing.page * listing.pageSize) :
    (jsonLines body).map Json.parse =
      ((List.range (n + 1)).flatMap fun i : Nat => shown (listEntries F isoformat workspaceId (i + 1)
        pageSize filter table)).map fun e => some e.value := by
  obtain ⟨listing, hlisting, htotal⟩ := hn
  by_cases hkey : strip workspaceId = []
  · rw [listEntries, if_pos hkey] at hlisting
    cases hlisting
  · have hlisted (page : Nat) := show
        listEntries F isoformat workspaceId (page + 1) pageSize filter table = _ from if_neg hkey
    obtain ⟨k, hk⟩ : ∃ k : Nat, min (max pageSize 1) 200 = k :=
      ⟨_, (Int.toNat_of_nonneg (by omega)).symm⟩
    have hpage (i : Nat) : max ((i : Int) + 1) 1 = ((i + 1 : Nat) : Int) := by omega
    have hrows : body = encodeJsonl ((selectRows F (strip workspaceId) filter table).map
        (rowToEntry isoformat)) := by
      rw [exportEntries, if_neg hkey] at hbody
      exact (Except.ok.inj hbody).symm
    have hlen : (selectRows F (strip workspaceId) filter table).length ≤ (n + 1) * k := by
      rw [hlisted] at hlisting
      cases hlisting
      rw [hk, hpage] at htotal
      dsimp only at htotal
      unfold selectRows
      rw [List.length_insertionSort]
      exact_mod_cast htotal
    have hshown (i : Nat) : shown (listEntries F isoformat workspaceId (i + 1) pageSize filter table) =
        (((selectRows F (strip workspaceId) filter table).drop (i * k)).take k).map
          (rowToEntry isoformat) := by
      rw [hlisted, hk, hpage]
      rfl
    have hpages : ((List.range (n + 1)).flatMap fun i : Nat => shown (listEntries F isoformat workspaceId
        (i + 1) pageSize filter table)) =
        (selectRows F (strip workspaceId) filter table).map (rowToEntry isoformat) := by
      rw [← List.take_of_length_le hlen, ← flatMap_pages, List.map_flatMap]
      exact List.flatMap_congr fun i _ => hshown i
    rw [hrows, jsonLines_encodeJsonl, hpages, List.map_map, List.map_map, List.map_map]
    exact List.map_congr_left fun r _ => parse_dumps _

/-- The one entry of `demoLogged`, on a page of fifty. -/
theorem export_shows_pages_system : ∃ body,
    exportEntries .none (fun _ => "1970-01-01T00:00:00Z") "__global__" "jsonl"
      ⟨none, none, none, none, none, none, none⟩ demoLogged.relay.table = .ok body ∧
    (jsonLines body).map Json.parse =
      [some (rowToEntry (fun _ => "1970-01-01T00:00:00Z") demoRow).value] :=
  ⟨_, rfl, @export_shows_pages .none (fun _ => "1970-01-01T00:00:00Z") "__global__"
    ⟨none, none, none, none, none, none, none⟩ demoLogged.relay.table _ 50 0 rfl
    ⟨_, rfl, by decide⟩⟩

end Infinito.Audit
