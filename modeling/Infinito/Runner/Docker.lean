import Mathlib.Data.Finset.Image
import Mathlib.Data.Finset.Prod
import Infinito.Py.Text

/-!
# Docker, as the runner manager uses it

Networks, volumes, containers, and which container is connected to which network. A
connection is to a network that exists — `links_network` — and docker keeps it that way by
refusing to remove a network that has one.

The removal commands are taken to succeed, in docker's sense: what is not refused is gone
afterwards, and removing what is not there changes nothing.
-/

set_option autoImplicit false

namespace Infinito.Runner

open Py

/-! ## Names -/

/-- A name as it is after `strip`, and not empty. -/
abbrev Name := { t : Text // strip t = t ∧ t ≠ [] }

theorem name_injective : Function.Injective (Subtype.val : Name → Text) := Subtype.val_injective

/-- `str(value or "").strip()`, where an empty text is no name. -/
def nameOf (t : Text) : Option Name :=
  if h : strip t ≠ [] then some ⟨strip t, strip_strip t, h⟩ else none

/-- The lines docker printed that name something; none if the command failed. -/
def dockerLines (stdout : Option Text) : List Name :=
  ((stdout.map splitlines).getD []).filterMap nameOf

/-! ## The state -/

structure Docker where
  networks : Finset Name
  volumes : Finset Name
  containers : Finset Name
  /-- network and container -/
  links : Finset (Name × Name)
  links_network : ∀ l ∈ links, l.1 ∈ networks

namespace Docker

variable {d : Docker} {n c v : Name}

def createNetwork (n : Name) (d : Docker) : Docker :=
  { d with
    networks := insert n d.networks
    links_network := fun l hl => Finset.mem_insert_of_mem (d.links_network l hl) }

/-- Refused while a container is connected. -/
def removeNetwork (n : Name) (d : Docker) : Docker :=
  if h : ∃ l ∈ d.links, l.1 = n then d
  else { d with
    networks := d.networks.erase n
    links_network := fun l hl =>
      Finset.mem_erase.mpr ⟨fun hn => h ⟨l, hl, hn⟩, d.links_network l hl⟩ }

def connect (n c : Name) (d : Docker) : Docker :=
  if h : n ∈ d.networks then { d with
    links := insert (n, c) d.links
    links_network := fun l hl => by
      rcases Finset.mem_insert.mp hl with rfl | hl
      · exact h
      · exact d.links_network l hl }
  else d

def disconnect (n c : Name) (d : Docker) : Docker :=
  { d with
    links := d.links.erase (n, c)
    links_network := fun l hl => d.links_network l (Finset.mem_of_mem_erase hl) }

def createVolume (v : Name) (d : Docker) : Docker := { d with volumes := insert v d.volumes }

def removeVolume (v : Name) (d : Docker) : Docker := { d with volumes := d.volumes.erase v }

/-- `docker run --name c --network n`. -/
def runContainer (n c : Name) (d : Docker) : Docker :=
  { d with containers := insert c d.containers }.connect n c

def removeContainer (c : Name) (d : Docker) : Docker :=
  { d with
    containers := d.containers.erase c
    links := d.links.filter fun l => l.2 ≠ c
    links_network := fun l hl => d.links_network l (Finset.mem_of_mem_filter l hl) }

@[simp] theorem links_createNetwork : (d.createNetwork n).links = d.links := rfl
@[simp] theorem networks_createNetwork : (d.createNetwork n).networks = insert n d.networks := rfl
@[simp] theorem links_createVolume : (d.createVolume v).links = d.links := rfl
@[simp] theorem networks_createVolume : (d.createVolume v).networks = d.networks := rfl
@[simp] theorem links_removeVolume : (d.removeVolume v).links = d.links := rfl
@[simp] theorem networks_removeVolume : (d.removeVolume v).networks = d.networks := rfl
@[simp] theorem networks_removeContainer : (d.removeContainer c).networks = d.networks := rfl
@[simp] theorem volumes_removeContainer : (d.removeContainer c).volumes = d.volumes := rfl
@[simp] theorem networks_disconnect : (d.disconnect n c).networks = d.networks := rfl
@[simp] theorem volumes_disconnect : (d.disconnect n c).volumes = d.volumes := rfl

@[simp] theorem volumes_removeVolume : v ∉ (d.removeVolume v).volumes := Finset.notMem_erase _ _

@[simp] theorem networks_connect : (d.connect n c).networks = d.networks := by
  unfold connect
  split <;> rfl

@[simp] theorem volumes_connect : (d.connect n c).volumes = d.volumes := by
  unfold connect
  split <;> rfl

@[simp] theorem volumes_removeNetwork : (d.removeNetwork n).volumes = d.volumes := by
  unfold removeNetwork
  split <;> rfl

@[simp] theorem networks_runContainer : (d.runContainer n c).networks = d.networks :=
  networks_connect

theorem links_connect (h : n ∈ d.networks) : (d.connect n c).links = insert (n, c) d.links := by
  unfold connect
  rw [dif_pos h]

theorem links_runContainer (h : n ∈ d.networks) :
    (d.runContainer n c).links = insert (n, c) d.links := links_connect h

/-- **A network is gone exactly when nothing was connected to it**, or it was not there. -/
theorem removeNetwork_removes : n ∉ (d.removeNetwork n).networks ↔ ∀ l ∈ d.links, l.1 ≠ n := by
  unfold removeNetwork
  split
  · rename_i h
    obtain ⟨l, hl, hn⟩ := h
    exact iff_of_false (fun hnot => hnot (hn ▸ d.links_network l hl)) fun h => h l hl hn
  · rename_i h
    exact iff_of_true (Finset.notMem_erase _ _) fun l hl hn => h ⟨l, hl, hn⟩

/-- Nothing is connected to a network that is gone. -/
theorem unlinked_of_gone (h : n ∉ d.networks) : ∀ l ∈ d.links, l.1 ≠ n :=
  fun l hl hn => h (hn ▸ d.links_network l hl)

end Docker

end Infinito.Runner
