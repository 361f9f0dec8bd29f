import Nivren.Registry.Manifest
import Nivren.Library.Codec

/-! The fingerprint of a project.

`fingerprint` hashes a list of byte strings, each behind its length. The list holds no mark between
dependencies, grants, unsafe modules, limits and files, and neither the edition nor the payload
limit, so that different projects can feed the same bytes to the hash.
-/

namespace Nivren

open Codec

/-- A project as its fingerprint sees it: the sources by relative path, in order. -/
structure Project where
  manifest : Manifest
  files : List (String × Bytes)
deriving DecidableEq

namespace Project

def limitPart (limit : Option ℕ) : List Bytes := (limit.map (leBytes 8)).toList

/-- What is hashed behind the entry. -/
def openParts (p : Project) : List Bytes :=
  (p.manifest.dependencies.toList.flatMap fun (name, version) => [utf8 name, utf8 version]) ++
  (p.manifest.capabilities.toList.flatMap fun capability =>
    utf8 capability :: (p.manifest.capabilityScopes[capability]?.map utf8).toList) ++
  (p.manifest.unsafeModules.toList.flatMap fun module => [utf8 "unsafe", utf8 module]) ++
  limitPart p.manifest.instructionLimit ++ limitPart p.manifest.memoryLimit ++
  p.files.flatMap fun (path, contents) => [utf8 path, contents]

def parts (compiler : String) (p : Project) : List Bytes :=
  [utf8 "Nivren project fingerprint v1", utf8 compiler, utf8 p.manifest.name,
    utf8 p.manifest.version, utf8 p.manifest.entry] ++ p.openParts

/-- The bytes that `fingerprint` feeds to the hash; `hash_part` takes lengths of 64 bits. -/
def hashed (compiler : String) (p : Project) : Output Unit :=
  writeAll (frame 8 ()) (p.parts compiler)

/-- Two projects whose open parts read the same end to end. -/
structure Confused (p q : Project) : Prop where
  different : p ≠ q
  name : p.manifest.name = q.manifest.name
  version : p.manifest.version = q.manifest.version
  entry : p.manifest.entry = q.manifest.entry
  openParts : p.openParts = q.openParts

theorem parts_inj {compiler : String} {p q : Project} : p.parts compiler = q.parts compiler ↔
      p.manifest.name = q.manifest.name ∧ p.manifest.version = q.manifest.version ∧
        p.manifest.entry = q.manifest.entry ∧ p.openParts = q.openParts := by
  simp [parts, utf8_inj]

def bare (edition : ℕ) (instructions memory payload : Option ℕ) : Project :=
  ⟨⟨"shop", "1.0.0", "main.niv", ∅, ∅, ∅, ∅, instructions, memory, payload, edition⟩, []⟩

end Project

end Nivren
