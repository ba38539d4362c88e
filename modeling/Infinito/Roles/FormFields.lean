import Infinito.Py.Value
import Infinito.History.Document
import Infinito.Workspace.RoleFields

/-!
# The form fields of a role

`load_form_fields` flattens up to six documents of a role into fields with a path. Two walkers do
it, one for the schema and one for the defaults; they differ in what they take for a field, for a
section, and for nothing (`Shape`), and in the field they make.

A path that is a field in one document may be a section in another, and then the fields below it
are there as well: the documents are merged path by path, and no path is compared with one that
goes on from it. `fields_apart_iff` says that this is the only way in which fields overlap.
-/

set_option autoImplicit false

namespace Infinito.Roles

open Py Lib
open Infinito.History (foldCase)

/-! ## Fields -/

inductive FormFieldType where
  | boolean
  | integer
  | float
  | string
  | text
  | list
  | mapping
  | password
  deriving DecidableEq

def formFieldTypes : List (Text × FormFieldType) :=
  [("boolean", .boolean), ("integer", .integer), ("float", .float), ("string", .string),
    ("text", .text), ("list", .list), ("mapping", .mapping), ("password", .password)]

structure FormField where
  path : List Text
  type : FormFieldType
  label : Text
  description : Option Text
  default : Val
  enum : Option (List Val)
  validation : Option Text
  secret : Bool

/-- `APP_CONFIG_MARKERS` -/
def appConfigMarkers : List Text := ["image", "ports", "run_after", "version", "name"]

/-- `_is_app_config_block` -/
def isAppConfigBlock : Val → Bool
  | .dict items => appConfigMarkers.any (Dict.has items)
  | _ => false

/-- `_SECRET_NAME_PATTERN`, its alternatives spelled out. -/
def secretNames : List Text := ["password", "secret", "token", "apikey", "api_key", "api-key"]

/-- `_is_secret_name` -/
def isSecretName (name : Text) : Bool := secretNames.any fun word => word <:+: name.map foldCase

/-- `_infer_type` -/
def inferType : Val → FormFieldType
  | .bool _ => .boolean
  | .int _ => .integer
  | .float _ => .float
  | .str t => if '\n' ∈ t ∨ 120 < t.length then .text else .string
  | .list _ => .list
  | .dict _ => .mapping
  | _ => .string

/-- `str.title`: a letter is a capital where no letter is before it. -/
def title (t : Text) : Text :=
  let rec go (inWord : Bool) : Text → Text
    | [] => []
    | c :: t => (if inWord then asciiLower c else c.toUpper) :: go c.isAlpha t
  go false t

/-- `_label_from_path` -/
def labelFromPath (path : List Text) : Text :=
  (path.getLast?).elim [] fun name =>
    title (strip (name.map fun c => if c = '_' ∨ c = '-' then ' ' else c))

/-- `path[-1]` -/
def nameOf (path : List Text) : Text := path.getLast?.getD []

/-! ## The two walkers -/

/-- What a walker takes a value for. -/
inductive Shape where
  | field
  | walked
  | skipped
  deriving DecidableEq

structure Walker where
  shape : Val → Shape
  /-- The field that is made of a value; nothing where its fields do not validate. -/
  field : List Text → Val → Option FormField
  path_of_field : ∀ {path value made}, field path value = some made → made.path = path

/-- The field of a default. -/
def inferredField (path : List Text) (value : Val) : FormField where
  path := path
  type := if isSecretName (nameOf path) then .password else inferType value
  label := labelFromPath path
  description := none
  default := value
  enum := none
  validation := none
  secret := isSecretName (nameOf path)

/-- The cases of `_walk_defaults`: a mapping that is not empty is walked. -/
def defaultsWalker : Walker where
  shape value :=
    if isAppConfigBlock value then .skipped
    else match value with
      | .dict (_ :: _) => .walked
      | _ => .field
  field path value := some (inferredField path value)
  path_of_field h := by
    cases h
    rfl

/-- `schema_leaf_keys` -/
def schemaLeafKeys : List Text :=
  ["description", "algorithm", "validation", "type", "default", "enum"]

/-- An optional text, as a model validates it. -/
def optionalText : Val → Option (Option Text)
  | .none => some none
  | .str t => some (some t)
  | _ => none

/-- `ftype` -/
def declaredType (items : Dict) (secret : Bool) : FormFieldType :=
  let inferred := if secret then .password else .string
  match Dict.get items "type" with
  | .str t => ((formFieldTypes.find? (·.1 = t)).map (·.2)).getD inferred
  | _ => inferred

/-- The field of an entry of the schema. -/
def declaredField (path : List Text) (items : Dict) (description : Option Text) : FormField :=
  let secret := isSecretName (nameOf path)
  let type := declaredType items secret
  { path := path
    type := type
    label := labelFromPath path
    description := description
    default := Dict.get items "default"
    enum := match Dict.get items "enum" with
      | .list values => some values
      | _ => none
    validation := match Dict.get items "validation" with
      | .str t => some t
      | _ => none
    secret := secret || type = .password }

/-- The cases of `_walk_schema`: a mapping with none of the leaf keys is walked. -/
def schemaWalker : Walker where
  shape
    | .dict items => if schemaLeafKeys.any (Dict.has items) then .field else .walked
    | _ => .field
  field path
    | .dict items => (optionalText (Dict.get items "description")).map (declaredField path items)
    | value => some (inferredField path value)
  path_of_field {path value made} h := by
    cases value with
    | dict items =>
      obtain ⟨description, -, rfl⟩ := Option.map_eq_some_iff.mp h
      rfl
    | _ =>
      cases h
      rfl

/-- The fields by their paths. -/
abbrev Fields := List (List Text × FormField)

mutual

/-- What a walker does with a value at a path. -/
def walkValue (walker : Walker) (path : List Text) : Val → Fields → Option Fields
  | value, out =>
      match walker.shape value with
      | .skipped => some out
      | .field => (walker.field path value).map fun made => Items.set path made out
      | .walked =>
          match value with
          | .dict items => walkItems walker path items out
          | _ => some out

/-- `_walk_defaults` and `_walk_schema` -/
def walkItems (walker : Walker) (above : List Text) : Dict → Fields → Option Fields
  | [], out => some out
  | (key, value) :: items, out =>
      (walkValue walker (above ++ [key.text]) value out).bind (walkItems walker above items)

end

/-! ## Loading -/

/-- The documents of a role, nothing where there is no file or no YAML. -/
structure RoleDir where
  metaSchema : Option Val
  metaMain : Option Val
  metaInfo : Option Val
  metaServer : Option Val
  metaVolumes : Option Val
  configMain : Option Val

/-- `_read_yaml_mapping` -/
def readYamlMapping : Option Val → Dict
  | some (.dict items) => items
  | _ => []

/-- The items whose keys are not these. -/
def without (keys : List Text) (items : Dict) : Dict :=
  items.filter fun item => !keys.any fun key => isKey key item.1

/-- `_META_DEFAULTS_FILES`, without the metadata for the registry. -/
def RoleDir.metaDefaults (role : RoleDir) : List Dict :=
  [without ["galaxy_info"] (readYamlMapping role.metaMain), readYamlMapping role.metaInfo,
    readYamlMapping role.metaServer, readYamlMapping role.metaVolumes]

/-- `config/main.yml`, without what is a service link. -/
def RoleDir.configDefaults (role : RoleDir) : Dict :=
  without ["features", "services"] (readYamlMapping role.configMain)

/-- Several documents into one dictionary of fields. -/
def walkAll (walker : Walker) (documents : List Dict) : Option Fields :=
  documents.foldlM (fun out items => walkItems walker [] items out) []

/-- `_load_from_meta_schema` -/
def loadFromMetaSchema (role : RoleDir) : Option Fields :=
  walkAll schemaWalker [readYamlMapping role.metaSchema]

/-- `_load_from_meta_defaults` -/
def loadFromMetaDefaults (role : RoleDir) : Option Fields :=
  walkAll defaultsWalker role.metaDefaults

/-- `_load_from_config_main` -/
def loadFromConfigMain (role : RoleDir) : Option Fields :=
  walkAll defaultsWalker [role.configDefaults]

/-- `merged.update(fields)` -/
def update (merged fields : Fields) : Fields :=
  fields.foldl (fun merged item => Items.set item.1 item.2 merged) merged

/-- `"/".join(field.path).lower()` -/
def sortKey (field : FormField) : Text := lower (['/'].intercalate field.path)

/-- `load_form_fields` -/
def loadFormFields (role : RoleDir) : Option (List FormField) := do
  let schemaFields ← loadFromMetaSchema role
  let metaDefaultFields ← loadFromMetaDefaults role
  let configDefaultFields ← loadFromConfigMain role
  let merged := update (update (update [] configDefaultFields) metaDefaultFields) schemaFields
  return (merged.map (·.2)).insertionSort fun f g => sortKey f ≤ sortKey g

/-! ## What a document says of a path -/

/-- The path leads through walked mappings to a field. -/
inductive IsField (walker : Walker) : Dict → List Text → Prop where
  | here {items : Dict} {key value : Val} : (key, value) ∈ items → walker.shape value = .field →
      IsField walker items [key.text]
  | inside {items lower : Dict} {key : Val} {path : List Text} : (key, .dict lower) ∈ items →
      walker.shape (.dict lower) = .walked → IsField walker lower path →
      IsField walker items (key.text :: path)

/-- The path leads through walked mappings to one with a field below it. -/
inductive IsSection (walker : Walker) : Dict → List Text → Prop where
  | here {items lower : Dict} {key : Val} {path : List Text} : (key, .dict lower) ∈ items →
      walker.shape (.dict lower) = .walked → IsField walker lower path →
      IsSection walker items [key.text]
  | inside {items lower : Dict} {key : Val} {path : List Text} : (key, .dict lower) ∈ items →
      walker.shape (.dict lower) = .walked → IsSection walker lower path →
      IsSection walker items (key.text :: path)

/-- The documents as they are walked. -/
def RoleDir.documents (role : RoleDir) : List (Walker × Dict) :=
  (schemaWalker, readYamlMapping role.metaSchema) ::
    (role.metaDefaults ++ [role.configDefaults]).map fun items => (defaultsWalker, items)

/-- No path is a field in one document and a section in one, the same or another. -/
def FieldsApart (role : RoleDir) : Prop :=
  ∀ leaf ∈ role.documents, ∀ tree ∈ role.documents, ∀ path,
    IsField leaf.1 leaf.2 path → ¬ IsSection tree.1 tree.2 path

section
variable {walker : Walker} {items : Dict} {path : List Text}

theorem IsField.ne_nil (h : IsField walker items path) : path ≠ [] := by
  cases h <;> exact List.cons_ne_nil _ _

theorem IsSection.ne_nil (h : IsSection walker items path) : path ≠ [] := by
  cases h <;> exact List.cons_ne_nil _ _

/-- What leads to a field leads to sections on the way. -/
theorem isSection_of_longer {rest : List Text} (hpath : path ≠ []) (hrest : rest ≠ [])
    (h : IsField walker items (path ++ rest)) : IsSection walker items path := by
  induction path generalizing items with
  | nil => exact absurd rfl hpath
  | cons name path ih =>
    generalize hwhole : name :: path ++ rest = whole at h
    cases h with
    | here hmem hshape =>
      injection hwhole with _ htail
      exact absurd (List.append_eq_nil_iff.mp htail).2 hrest
    | inside hmem hshape hbelow =>
      injection hwhole with hname htail
      subst hname htail
      cases path with
      | nil => exact .here hmem hshape hbelow
      | cons next path => exact .inside hmem hshape (ih (List.cons_ne_nil _ _) hbelow)

theorem IsSection.exists_field (h : IsSection walker items path) :
    ∃ rest, rest ≠ [] ∧ IsField walker items (path ++ rest) := by
  induction h with
  | here hmem hshape hfield => exact ⟨_, hfield.ne_nil, .inside hmem hshape hfield⟩
  | inside hmem hshape _ ih =>
    obtain ⟨rest, hrest, hfield⟩ := ih
    exact ⟨rest, hrest, .inside hmem hshape hfield⟩

end

/-! ## What a walk adds -/

/-- The paths that have a field. -/
def Fields.paths (out : Fields) : List (List Text) := out.map (·.1)

/-- Every path once, and its field knows it. -/
structure Fields.Keyed (out : Fields) : Prop where
  nodup : out.paths.Nodup
  path_eq : ∀ item ∈ out, item.2.path = item.1

theorem keyed_nil : Fields.Keyed [] := ⟨List.nodup_nil, fun _ h => absurd h List.not_mem_nil⟩

theorem mem_paths_set {out : Fields} {path other : List Text} {made : FormField} :
    other ∈ Fields.paths (Items.set path made out) ↔ other = path ∨ other ∈ out.paths := by
  unfold Fields.paths
  rw [← not_iff_not, not_or, ← Items.get_eq_none_iff, ← Items.get_eq_none_iff, Items.get_set]
  by_cases h : other = path
  · simp [h]
  · simp [h]

theorem mem_of_mem_set {out : Fields} {path : List Text} {made : FormField}
    {item : List Text × FormField} (h : item ∈ Items.set path made out) :
    item = (path, made) ∨ item ∈ out := by
  induction out with
  | nil => exact Or.inl (List.mem_singleton.mp h)
  | cons first out ih =>
    unfold Items.set at h
    split at h
    · rename_i hfirst
      rcases List.mem_cons.mp h with rfl | h
      · exact Or.inl (by rw [hfirst])
      · exact Or.inr (List.mem_cons_of_mem _ h)
    · rcases List.mem_cons.mp h with rfl | h
      · exact Or.inr List.mem_cons_self
      · exact (ih h).imp_right (List.mem_cons_of_mem _)

theorem Fields.Keyed.set {out : Fields} {path : List Text} {made : FormField} (h : out.Keyed)
    (hmade : made.path = path) : Fields.Keyed (Items.set path made out) where
  nodup := Items.nodup_set h.nodup path made
  path_eq item hitem := by
    rcases mem_of_mem_set hitem with rfl | hitem
    · exact hmade
    · exact h.path_eq item hitem

/-- What a value at a path adds. -/
inductive Adds (walker : Walker) (path : List Text) : Val → List Text → Prop where
  | field {value : Val} : walker.shape value = .field → Adds walker path value path
  | walked {lower : Dict} {rest : List Text} : walker.shape (.dict lower) = .walked →
      IsField walker lower rest → Adds walker path (.dict lower) (path ++ rest)

theorem isField_cons {walker : Walker} {key value : Val} {items : Dict} {path : List Text} :
    IsField walker ((key, value) :: items) path ↔
      Adds walker [key.text] value path ∨ IsField walker items path := by
  constructor
  · intro h
    cases h with
    | here hmem hshape =>
      rcases List.mem_cons.mp hmem with heq | hmem
      · injection heq with hkey hvalue
        subst hkey hvalue
        exact Or.inl (.field hshape)
      · exact Or.inr (.here hmem hshape)
    | inside hmem hshape hfield =>
      rcases List.mem_cons.mp hmem with heq | hmem
      · injection heq with hkey hvalue
        subst hkey hvalue
        exact Or.inl (.walked hshape hfield)
      · exact Or.inr (.inside hmem hshape hfield)
  · rintro (h | h)
    · cases h with
      | field hshape => exact .here List.mem_cons_self hshape
      | walked hshape hfield => exact .inside List.mem_cons_self hshape hfield
    · cases h with
      | here hmem hshape => exact .here (List.mem_cons_of_mem _ hmem) hshape
      | inside hmem hshape hfield => exact .inside (List.mem_cons_of_mem _ hmem) hshape hfield

theorem adds_append {walker : Walker} {above names path : List Text} {value : Val} :
    Adds walker (above ++ names) value path ↔
      ∃ rest, path = above ++ rest ∧ Adds walker names value rest := by
  constructor
  · intro h
    cases h with
    | field hshape => exact ⟨_, rfl, .field hshape⟩
    | walked hshape hfield => exact ⟨_, List.append_assoc .., .walked hshape hfield⟩
  · rintro ⟨rest, rfl, h⟩
    cases h with
    | field hshape => exact .field hshape
    | walked hshape hfield =>
      rw [← List.append_assoc]
      exact .walked hshape hfield

section
variable {walker : Walker} {path : List Text} {value : Val} {out : Fields}

theorem walkValue_of_skipped (h : walker.shape value = .skipped) :
    walkValue walker path value out = some out := by
  cases value <;> simp only [walkValue, h]

theorem walkValue_of_field (h : walker.shape value = .field) :
    walkValue walker path value out =
      (walker.field path value).map fun made => Items.set path made out := by
  cases value <;> simp only [walkValue, h]

theorem walkValue_of_walked {lower : Dict} (h : walker.shape (.dict lower) = .walked) :
    walkValue walker path (.dict lower) out = walkItems walker path lower out := by
  simp only [walkValue, h]

/-- Nothing but a mapping can be walked. -/
theorem walkValue_of_no_dict (h : walker.shape value = .walked)
    (hvalue : ∀ lower, value ≠ .dict lower) : walkValue walker path value out = some out := by
  cases value with
  | dict lower => exact absurd rfl (hvalue lower)
  | _ => simp only [walkValue, h]

end

mutual

theorem walkValue_spec (walker : Walker) (path : List Text) (value : Val) {out result : Fields}
    (h : walkValue walker path value out = some result) (hout : out.Keyed) :
    result.Keyed ∧ ∀ p, p ∈ result.paths ↔ p ∈ out.paths ∨ Adds walker path value p := by
  cases hshape : walker.shape value with
  | skipped =>
    rw [walkValue_of_skipped hshape, Option.some.injEq] at h
    subst h
    refine ⟨hout, fun p => ⟨Or.inl, ?_⟩⟩
    rintro (hp | hp)
    · exact hp
    · cases hp with
      | field hfield => rw [hshape] at hfield; cases hfield
      | walked hwalked => rw [hshape] at hwalked; cases hwalked
  | field =>
    rw [walkValue_of_field hshape] at h
    obtain ⟨made, hmade, rfl⟩ := Option.map_eq_some_iff.mp h
    refine ⟨hout.set (walker.path_of_field hmade), fun p => ?_⟩
    rw [mem_paths_set, or_comm]
    refine or_congr_right ⟨?_, ?_⟩
    · rintro rfl
      exact .field hshape
    · intro hp
      cases hp with
      | field _ => rfl
      | walked hwalked => rw [hshape] at hwalked; cases hwalked
  | walked =>
    match value with
    | .dict lower =>
      rw [walkValue_of_walked hshape] at h
      obtain ⟨hkeyed, hpaths⟩ := walkItems_spec walker path lower h hout
      refine ⟨hkeyed, fun p => ?_⟩
      rw [hpaths]
      refine or_congr_right ⟨?_, ?_⟩
      · rintro ⟨rest, rfl, hfield⟩
        exact .walked hshape hfield
      · intro hp
        cases hp with
        | field hfield => rw [hshape] at hfield; cases hfield
        | walked _ hfield => exact ⟨_, rfl, hfield⟩
    | .none | .bool _ | .int _ | .float _ | .str _ | .list _ | .other _ =>
      rw [walkValue_of_no_dict hshape nofun, Option.some.injEq] at h
      subst h
      refine ⟨hout, fun p => ⟨Or.inl, ?_⟩⟩
      rintro (hp | hp)
      · exact hp
      · cases hp with
        | field hfield => rw [hshape] at hfield; cases hfield

theorem walkItems_spec (walker : Walker) (above : List Text) (items : Dict) {out result : Fields}
    (h : walkItems walker above items out = some result) (hout : out.Keyed) :
    result.Keyed ∧ ∀ p, p ∈ result.paths ↔
      p ∈ out.paths ∨ ∃ rest, p = above ++ rest ∧ IsField walker items rest := by
  match items with
  | [] =>
    rw [walkItems, Option.some.injEq] at h
    subst h
    refine ⟨hout, fun p => ⟨Or.inl, ?_⟩⟩
    rintro (hp | ⟨rest, -, hfield⟩)
    · exact hp
    · cases hfield with
      | here hmem _ => exact absurd hmem List.not_mem_nil
      | inside hmem _ _ => exact absurd hmem List.not_mem_nil
  | (key, value) :: items =>
    rw [walkItems] at h
    obtain ⟨middle, hmiddle, hrest⟩ := Option.bind_eq_some_iff.mp h
    obtain ⟨hkeyed, hpaths⟩ := walkValue_spec walker (above ++ [key.text]) value hmiddle hout
    obtain ⟨hkeyed', hpaths'⟩ := walkItems_spec walker above items hrest hkeyed
    refine ⟨hkeyed', fun p => ?_⟩
    rw [hpaths', hpaths, or_assoc, adds_append]
    refine or_congr_right ?_
    simp only [isField_cons, and_or_left, exists_or]

end

/-! ## What is loaded -/

theorem foldlM_walk_spec (walker : Walker) (documents : List Dict) {out result : Fields}
    (h : documents.foldlM (fun out items => walkItems walker [] items out) out = some result)
    (hout : out.Keyed) : result.Keyed ∧ ∀ p, p ∈ result.paths ↔
      p ∈ out.paths ∨ ∃ items ∈ documents, IsField walker items p := by
  induction documents generalizing out with
  | nil =>
    rw [List.foldlM_nil] at h
    cases h
    exact ⟨hout, fun p => by simp⟩
  | cons items documents ih =>
    rw [List.foldlM_cons] at h
    obtain ⟨middle, hmiddle, hrest⟩ := Option.bind_eq_some_iff.mp h
    obtain ⟨hkeyed, hpaths⟩ := walkItems_spec walker [] items hmiddle hout
    obtain ⟨hkeyed', hpaths'⟩ := ih hrest hkeyed
    refine ⟨hkeyed', fun p => ?_⟩
    rw [hpaths', hpaths, or_assoc]
    simp

theorem walkAll_spec {walker : Walker} {documents : List Dict} {result : Fields}
    (h : walkAll walker documents = some result) : result.Keyed ∧
      ∀ p, p ∈ result.paths ↔ ∃ items ∈ documents, IsField walker items p := by
  obtain ⟨hkeyed, hpaths⟩ := foldlM_walk_spec walker documents h keyed_nil
  refine ⟨hkeyed, fun p => (hpaths p).trans (or_iff_right ?_)⟩
  exact List.not_mem_nil

theorem update_spec {merged fields : Fields} (hmerged : merged.Keyed)
    (hfields : ∀ item ∈ fields, item.2.path = item.1) :
    (update merged fields).Keyed ∧
      ∀ p, p ∈ (update merged fields).paths ↔ p ∈ merged.paths ∨ p ∈ fields.paths := by
  induction fields generalizing merged with
  | nil => exact ⟨hmerged, fun p => ⟨Or.inl, Or.rec id (absurd · List.not_mem_nil)⟩⟩
  | cons item fields ih =>
    obtain ⟨hkeyed, hpaths⟩ := ih (hmerged.set (hfields item List.mem_cons_self))
      fun other hother => hfields other (List.mem_cons_of_mem _ hother)
    refine ⟨hkeyed, fun p => (hpaths p).trans ?_⟩
    rw [mem_paths_set, Fields.paths, Fields.paths, Fields.paths, List.map_cons, List.mem_cons,
      or_assoc, or_left_comm]

theorem map_path_eq {out : Fields} (h : out.Keyed) :
    out.map (·.2.path) = out.paths := List.map_congr_left h.path_eq

theorem exists_document (role : RoleDir) (P : Walker → Dict → Prop) :
    (∃ document ∈ role.documents, P document.1 document.2) ↔
      P schemaWalker (readYamlMapping role.metaSchema) ∨
        (∃ items ∈ role.metaDefaults, P defaultsWalker items) ∨
        P defaultsWalker role.configDefaults := by
  unfold RoleDir.documents
  rw [List.exists_mem_cons_iff, or_congr_right]
  constructor
  · rintro ⟨document, hmem, h⟩
    obtain ⟨items, hitems, rfl⟩ := List.mem_map.mp hmem
    rcases List.mem_append.mp hitems with hitems | hitems
    · exact Or.inl ⟨items, hitems, h⟩
    · exact Or.inr (List.mem_singleton.mp hitems ▸ h)
  · rintro (⟨items, hitems, h⟩ | h)
    · exact ⟨_, List.mem_map_of_mem (List.mem_append_left _ hitems), h⟩
    · exact ⟨_, List.mem_map_of_mem (List.mem_append_right _ (List.mem_singleton_self _)), h⟩

/-- The fields of a role are the fields of its documents, each once. -/
theorem loadFormFields_spec {role : RoleDir} {fields : List FormField}
    (h : loadFormFields role = some fields) : (fields.map (·.path)).Nodup ∧
      ∀ p, p ∈ fields.map (·.path) ↔
        ∃ document ∈ role.documents, IsField document.1 document.2 p := by
  unfold loadFormFields at h
  obtain ⟨schema, hschema, h⟩ := Option.bind_eq_some_iff.mp h
  obtain ⟨defaults, hdefaults, h⟩ := Option.bind_eq_some_iff.mp h
  obtain ⟨config, hconfig, h⟩ := Option.bind_eq_some_iff.mp h
  cases h
  obtain ⟨hkeyedSchema, hpathsSchema⟩ := walkAll_spec hschema
  obtain ⟨hkeyedDefaults, hpathsDefaults⟩ := walkAll_spec hdefaults
  obtain ⟨hkeyedConfig, hpathsConfig⟩ := walkAll_spec hconfig
  obtain ⟨hfirst, hpathsFirst⟩ := update_spec keyed_nil hkeyedConfig.path_eq
  obtain ⟨hsecond, hpathsSecond⟩ := update_spec hfirst hkeyedDefaults.path_eq
  obtain ⟨hmerged, hpathsMerged⟩ := update_spec hsecond hkeyedSchema.path_eq
  have hperm := (List.perm_insertionSort (fun f g => sortKey f ≤ sortKey g)
    ((update (update (update [] config) defaults) schema).map (·.2))).map (·.path)
  rw [List.map_map] at hperm
  have hpaths := map_path_eq hmerged
  constructor
  · rw [hperm.nodup_iff]
    exact hpaths ▸ hmerged.nodup
  · intro p
    have hone : ∀ (walker : Walker) (items : Dict),
        (∃ other ∈ [items], IsField walker other p) ↔ IsField walker items p := by simp
    calc _
        ↔ p ∈ (update (update (update [] config) defaults) schema).paths := by
          rw [hperm.mem_iff, ← hpaths]
          rfl
      _ ↔ ((p ∈ Fields.paths [] ∨ p ∈ config.paths) ∨ p ∈ defaults.paths) ∨ p ∈ schema.paths := by
          rw [hpathsMerged, hpathsSecond, hpathsFirst]
      _ ↔ p ∈ schema.paths ∨ p ∈ defaults.paths ∨ p ∈ config.paths := by
          rw [or_iff_right (show p ∉ Fields.paths [] from List.not_mem_nil), or_comm,
            or_comm (a := p ∈ config.paths)]
      _ ↔ _ := by
          rw [hpathsSchema, hpathsDefaults, hpathsConfig, hone, hone,
            exists_document role fun walker items => IsField walker items p]

/-! ## Fields that do not overlap -/

open Infinito.Workspace (setPath find_setPath_apart)

/-- Each field has a place of its own in the section of the application. -/
structure NoOverlap (fields : List FormField) : Prop where
  nodup : (fields.map (·.path)).Nodup
  prefix_free : ∀ f ∈ fields, ∀ g ∈ fields, f.path <+: g.path → f.path = g.path
  set_apart : ∀ f ∈ fields, ∀ g ∈ fields, f.path ≠ g.path → ∀ {α : Type} (items : Items Text α)
    (value : Lib.Tree Text α),
    (Lib.Tree.node (setPath items f.path value)).find g.path = (Lib.Tree.node items).find g.path

/-- **Fields overlap exactly where a path is a field here and a section there.** -/
theorem fields_apart_iff {role : RoleDir} {fields : List FormField}
    (h : loadFormFields role = some fields) : NoOverlap fields ↔ FieldsApart role := by
  obtain ⟨hnodup, hpaths⟩ := loadFormFields_spec h
  constructor
  · intro hover leaf hleaf tree htree path hfield hsection
    obtain ⟨rest, hrest, hlonger⟩ := hsection.exists_field
    obtain ⟨f, hf, hfpath⟩ := List.mem_map.mp ((hpaths path).mpr ⟨leaf, hleaf, hfield⟩)
    obtain ⟨g, hg, hgpath⟩ := List.mem_map.mp ((hpaths (path ++ rest)).mpr ⟨tree, htree, hlonger⟩)
    have heq := hover.prefix_free f hf g hg (by rw [hfpath, hgpath]; exact List.prefix_append _ _)
    rw [hfpath, hgpath, eq_comm, List.append_right_eq_self] at heq
    exact hrest heq
  · intro hapart
    have hfree : ∀ f ∈ fields, ∀ g ∈ fields, f.path <+: g.path → f.path = g.path := by
      rintro f hf g hg ⟨rest, hrest⟩
      obtain ⟨leaf, hleaf, hfield⟩ := (hpaths f.path).mp (List.mem_map_of_mem hf)
      obtain ⟨tree, htree, hlonger⟩ := (hpaths g.path).mp (List.mem_map_of_mem hg)
      by_cases hnil : rest = []
      · rw [← hrest, hnil, List.append_nil]
      · rw [← hrest] at hlonger
        exact absurd (isSection_of_longer hfield.ne_nil hnil hlonger)
          (hapart leaf hleaf tree htree f.path hfield)
    refine ⟨hnodup, hfree, fun f hf g hg hne α items value => ?_⟩
    apply find_setPath_apart
    · intro hfg
      exact hne (hfree f hf g hg hfg)
    · intro hgf
      exact hne (hfree g hg f hf hgf).symm

/-- A role with a schema and with defaults in `config/main.yml`. -/
def roleOf (schema config : Dict) : RoleDir where
  metaSchema := some (.dict schema)
  metaMain := none
  metaInfo := none
  metaServer := none
  metaVolumes := none
  configMain := some (.dict config)

def portSchema : Dict := [(.str "port".toList, .int 80)]

theorem fields_apart_port : ∃ fields, loadFormFields (roleOf portSchema []) = some fields ∧
    (NoOverlap fields ↔ FieldsApart (roleOf portSchema [])) :=
  ⟨_, rfl, fields_apart_iff rfl⟩

/-- The schema has `port` as a number, the defaults as a section. -/
theorem port_overlaps :
    ∃ fields, loadFormFields (roleOf portSchema
        [(.str "port".toList, .dict [(.str "http".toList, .int 80)])]) = some fields ∧
      fields.map (·.path) = [["port".toList], ["port".toList, "http".toList]] ∧
      ¬ NoOverlap fields := by
  refine ⟨_, rfl, rfl, fun h => ?_⟩
  have hprefix := h.prefix_free _ List.mem_cons_self _ (List.mem_cons_of_mem _ List.mem_cons_self)
    ⟨["http".toList], rfl⟩
  exact absurd hprefix (by decide)

end Infinito.Roles
