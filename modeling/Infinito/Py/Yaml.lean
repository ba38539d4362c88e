import Infinito.Py.Value

/-!
# YAML, from outside

The services read YAML with two loaders. `yaml.safe_load` raises at a tag it does not know,
such as `!vault`; `load_workspace_yaml_document` is the same loader with a constructor for
every other tag. What either makes of a content is the library's, and a parameter here;
what the services count on is what the fields say.
-/

set_option autoImplicit false

namespace Infinito.Py

/-- The YAML library, on the contents `κ` of files. -/
structure Yaml (κ : Type) where
  /-- `yaml.safe_load`, nothing when it raises -/
  safeLoad : κ → Option Val
  /-- `load_workspace_yaml_document`, nothing when it raises -/
  load : κ → Option Val
  /-- `yaml.safe_dump` -/
  dump : Val → κ
  /-- the second loader is the first one, and knows more tags -/
  load_of_safeLoad : ∀ {content v}, safeLoad content = some v → load content = some v
  safeLoad_dump : ∀ v, safeLoad (dump v) = some v

/-- The mapping a loader finds in a file, empty where it finds none. -/
def mapping {κ : Type} (loader : κ → Option Val) (file : Option κ) : Dict :=
  match file.bind loader with
  | some (.dict d) => d
  | _ => []

/-- Where `yaml.safe_load` takes a file, both loaders find the same. -/
theorem Yaml.mapping_of_safeLoad {κ : Type} {yaml : Yaml κ} {file : Option κ} {v : Val}
    (hv : file.bind yaml.safeLoad = some v) : mapping yaml.load file = mapping yaml.safeLoad file := by
  obtain ⟨content, rfl, hcontent⟩ := Option.bind_eq_some_iff.mp hv
  unfold mapping
  rw [hv, Option.bind_some, yaml.load_of_safeLoad hcontent]

/-- The same, with the dumper that writes tagged values too. -/
structure TaggedYaml (κ : Type) extends Yaml κ where
  /-- no value in it has a tag that `yaml.safe_load` does not know -/
  plain : Val → Bool
  /-- `_dump_yaml_mapping` -/
  dumpMapping : Val → κ
  safeLoad_dumpMapping : ∀ v, safeLoad (dumpMapping v) = if plain v then some v else none

end Infinito.Py
