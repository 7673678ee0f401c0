import ConfigRegistry.Identity.Registry
import ConfigRegistry.Js.Record
import ConfigRegistry.Schema.Validator
import ConfigRegistry.Store.Loader

/-!
# The check of the repository

`src/cli/validate-repo.ts`, on the tree of one commit. It works without the key: secrets are told
from their ciphertext.
-/

namespace ConfigRegistry.Cli

open Js Schema Store Identity

structure Finding where
  file : String
  message : String
deriving DecidableEq

/-- `listYamlFiles`, with what the files hold. -/
def listYamlFiles (tree : List (String × String)) (dir : String) : List (String × String) :=
  tree.filter fun (path, _) => startsWith path (dir ++ "/") && endsWith path ".yaml"

/-- `readSchemas`, of the schema files. A plain object cannot hold the name `__proto__`. -/
def readSchemas : List (String × String) → Except Error (List (String × String))
  | [] => .ok []
  | (path, source) :: rest =>
    let service := sliceBetween path "schema/" ".yaml"
    if service.toList.contains '/' then
      .error (.of s!"{path} is not a schema file: expected schema/<service>.yaml")
    else do
      let schemas ← readSchemas rest
      pure (if service = "__proto__" then schemas else (service, source) :: schemas)

/-- `readSources`, of the configuration files. -/
def readSources : List (String × String) → Except Error (List (String × String))
  | [] => .ok []
  | (path, source) :: rest =>
    let candidate := sliceBetween path "config/" ".yaml"
    if !isNamespace candidate then
      .error (.of s!"{path} is not a config file: expected config/<service>/<environment>.yaml")
    else do
      let sources ← readSources rest
      pure ((candidate, source) :: sources)

/-- The own properties of what a document parses to. -/
def ownProperties : Value → Record
  | .obj fields => fields
  | .arr items => items.mapIdx fun i v => (toString i, v)
  | .str s => s.toList.mapIdx fun i c => (toString i, .str (String.singleton c))
  | _ => []

/-- A value that is recognisable as ciphertext. -/
def isEncrypted : Value → Bool
  | .str s => sopsEncrypted s
  | _ => false

section

variable (rt : Runtime)

/-- What is wrong with the document of a namespace. -/
def validateDocument (schemas : SchemaSet) (ns source : String) : List Finding :=
  let file := configPath ns
  let service := String.ofList (ns.toList.takeWhile (· != '/'))
  match rt.parseYaml source with
  | .error e => [⟨file, "is not valid YAML: " ++ e.message⟩]
  | .ok document =>
    let config := (ownProperties document).filter fun f => f.1 != "sops"
    (schemas.validate service rt config).map (fun e => ⟨file, e.message⟩) ++
      (config.filter fun f => schemas.isSecret service f.1 && !isEncrypted f.2).map fun (key, _) =>
        ⟨file, s!"'{key}' is declared secret but was committed unencrypted — check .sops.yaml"⟩

/-- The text of an issue; where the source leaves its wording to zod, `wording` has it. -/
def issueText (wording : Issue → String) (issue : Issue) : String :=
  (if issue.path.isEmpty then "(root)" else ".".intercalate issue.path) ++ ": " ++
    issue.message.getD (wording issue)

/-- The message of the error that `ServiceRegistry.fromYaml` throws. -/
def registryMessage (wording : Issue → String) : ServiceRegistryError → String
  | .unparsed e => e.message
  | .invalid issues => "services.yaml is invalid: " ++ "; ".intercalate (issues.map (issueText wording))
  | .clash message => message

/-- `validateGrants`. -/
def validateGrants (wording : Issue → String) (sources : List (String × String))
    (servicesYaml : Option String) : List Finding :=
  match servicesYaml with
  | none => [⟨"services.yaml", "is missing — no service could read anything"⟩]
  | some text =>
    match ServiceRegistry.fromYaml rt.parseYaml text with
    | .error e => [⟨"services.yaml", registryMessage wording e⟩]
    | .ok registry =>
      registry.services.flatMap fun service =>
        (service.namespaces.filter fun ns => (sources.lookup ns).isNone).map fun ns =>
          let name := service.name
          ⟨"services.yaml", s!"'{name}' is granted '{ns}', which has no config file"⟩

/-- `validateRepository`. It fails where a file of `config` is not the document of a namespace. -/
def validateRepository (wording : Issue → String) (tree : List (String × String)) :
    Except Error (List Finding) :=
  match readSchemas (listYamlFiles tree "schema") >>= SchemaSet.fromFiles rt with
  | .error e => .ok [⟨"schema/", e.message⟩]
  | .ok schemas => do
    let sources ← readSources (listYamlFiles tree "config")
    pure (sources.flatMap (fun (ns, source) => validateDocument rt schemas ns source) ++
      validateGrants rt wording sources (tree.lookup "services.yaml"))

end

end ConfigRegistry.Cli
