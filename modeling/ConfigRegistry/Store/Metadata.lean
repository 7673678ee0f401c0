import ConfigRegistry.Js.Record
import ConfigRegistry.Schema.Validator

/-!
# What a document says about itself

`src/store/metadata.ts`: the `sops` block and the revision counter `version`, which are not
configuration.
-/

namespace ConfigRegistry.Store

open Js Schema

/-- The counter of a document, 0 where it carries none that can be read. -/
def versionOf (document : Record) : Nat :=
  match document.lookup "version" with
  | some (.num (.fin q)) =>
    if (Number.fin q).isSafeInteger && !(Number.fin q).lt (.fin 0) then q.num.toNat else 0
  | _ => 0

def bumpedVersion (document : Record) : Nat := versionOf document + 1

/-- The document without its metadata. -/
def configOnly (document : Record) : Record := document.filter fun f => !isMetadataKey f.1

theorem mem_configOnly {document : Record} {key : String} {value : Value} :
    (key, value) ∈ configOnly document ↔ (key, value) ∈ document ∧ isMetadataKey key = false := by
  simp [configOnly]

theorem lookup_configOnly (document : Record) (key : String) :
    (configOnly document).lookup key = if isMetadataKey key then none else document.lookup key := by
  rw [configOnly, Record.lookup_filter fun k => !isMetadataKey k]
  cases isMetadataKey key <;> rfl

end ConfigRegistry.Store
