import ConfigRegistry.Async.Drive
import ConfigRegistry.Js.Record
import ConfigRegistry.Schema.Validator
import ConfigRegistry.Store.Loader
import ConfigRegistry.Store.Transactions

/-!
# Saving the global schema

`src/schema/schema-write-service.ts` and `src/schema/schema-dry-run.ts`: a save reads all config
documents, decrypts and validates them one by one, and then writes `schema.yaml`.
-/

namespace ConfigRegistry.Schema

open Js Async Store

/-! ### The global schema -/

section

variable (rt : Runtime)

/-- `Object.entries` of what `typeof` calls an object. -/
def entriesOf : Value → Option Record
  | .obj fields => some fields
  | .arr items => some (items.zipIdx.map fun (item, i) => (toString i, item))
  | _ => none

/-- `{ version: 1, keys: definition.keys }`. -/
def keysDocument (definition : Record) : Value :=
  .obj (("version", .num (.fin 1)) ::
    match definition.lookup "keys" with
    | some keys => [("keys", keys)]
    | none => [])

/-- The services of `schema.yaml`, each as a schema file of its own. A record cannot hold the name
`__proto__`. -/
def serviceFiles : Record → Except Error (List (String × String))
  | [] => .ok []
  | (service, .obj definition) :: rest => do
    let files ← serviceFiles rest
    pure (if service = "__proto__" then files
      else (service, rt.stringifyYaml (keysDocument definition)) :: files)
  | (service, _) :: _ => .error (.of s!"schema.yaml service '{service}' must be a mapping")

/-- `retiring === true`. -/
def declaresRetiring (services : Record) (service : String) : Bool :=
  match (services.lookup service).bind fun value => value.field "retiring" with
  | some (.bool retiring) => retiring
  | _ => false

/-- `SchemaSet.fromDocument`. -/
def SchemaSet.fromDocument (source : String) : Except Error SchemaSet :=
  match rt.parseYaml source with
  | .error _ => .error (.of "schema.yaml is not valid YAML")
  | .ok parsed =>
    match parsed.field "version", (parsed.field "services").bind entriesOf with
    | some (.num (.fin 1)), some services => do
      let files ← serviceFiles rt services
      let result ← SchemaSet.fromFiles rt files
      pure ⟨result.services.map fun (service, schema) =>
        (service, { schema with version := .fin 1, retiring := declaresRetiring services service })⟩
    | _, _ => .error (.of "schema.yaml must contain version: 1 and a services mapping")

end

/-! ### The service -/

/-- `const [service = '', environment = ''] = namespace.split('/')`. -/
def splitNamespace (ns : String) : String × String :=
  let parts := ns.toList.splitOn '/'
  (String.ofList (parts.headD []), String.ofList (parts.tail.headD []))

/-- `SchemaWriteResult`. -/
inductive SchemaWriteResult where
  | written (revision : Nat) (etag : String)
  | unchanged (revision : Nat) (etag : String)
  | conflict (currentEtag : String) (revision : Nat)
  | invalid (errors : List ValidationError)
deriving DecidableEq

structure State where
  db : Database
  /-- Beside the code: the files at each revision. -/
  at_ : Nat → Files

/-- The database after a transaction. -/
def State.commit (s : State) (db : Database) : State where
  db
  at_ := Function.update s.at_ db.revision db.files

/-- What a snapshot of a directory lists, in some order. -/
def Listing (files : Files) (dir : String) (listing : List (String × String)) : Prop :=
  ∀ path source, (path, source) ∈ listing ↔
    startsWith path (dir ++ "/") = true ∧ files.lookup path = some source

inductive Op where
  /-- `db.readAll('config')`. -/
  | readAll
  /-- `decryptor.decrypt(path, source)`. -/
  | decrypt (path source : String)
  /-- `db.write(…)` of a save that validated `listing`. -/
  | write (source : String) (expectedEtag : Option String) (listing : List (String × String))
  /-- A transaction of the rest of the service. -/
  | transaction (requests : List MutationRequest)

abbrev Op.Res : Op → Type
  | .readAll => List (String × String)
  | .decrypt _ _ => String
  | .write _ _ _ => SchemaWriteResult
  | .transaction _ => Unit

abbrev lang : Sig where
  State := State
  Err := Error
  Op := Op
  Res := Op.Res

section

variable (rt : Runtime) (contentHash : String → String) (decrypt : String → String → Except Error String)

/-- The request of a save. -/
def schemaRequest (source : String) (expectedEtag : Option String) : MutationRequest where
  path := "schema.yaml"
  content := some source
  expectedEtag := expectedEtag.map some
  actor := ""
  keys := []

/-- The result of a save. -/
def toResult (source : String) : BatchWriteResult → SchemaWriteResult
  | .written revision => .written revision (contentHash source)
  | .unchanged revision => .unchanged revision (contentHash source)
  | .conflict _ actual revision => .conflict (actual.getD "") revision

/-- `db.write({ path: 'schema.yaml', content: source, expectedEtag })`. -/
def State.write (s : State) (source : String) (expectedEtag : Option String) :
    Except Error SchemaWriteResult × State :=
  match writeMany contentHash [schemaRequest source expectedEtag] [] [] s.db with
  | (.error e, _) => (.error e, s)
  | (.ok result, db) => (.ok (toResult contentHash source result), s.commit db)

/-- What the operations do. Each may fail, a write also after it has taken effect. -/
def Op.answers : (o : Op) → State → Except Error o.Res → State → Prop
  | .readAll, s, r, s' => (∀ listing, r = .ok listing → Listing s.db.files "config" listing) ∧ s' = s
  | .decrypt path source, s, r, s' =>
    (∀ plaintext, r = .ok plaintext → decrypt path source = .ok plaintext) ∧ s' = s
  | .write source expectedEtag _, s, r, s' => (r, s') = s.write contentHash source expectedEtag ∨
      r.isOk = false ∧ (s' = s ∨ s' = (s.write contentHash source expectedEtag).2)
  | .transaction requests, s, _, s' => s' = s ∨
      s' = s.commit (writeMany contentHash requests [] [] s.db).2

abbrev sem : Sem lang where
  step o s r s' := o.answers contentHash decrypt s r s'
  torn _ _ _ := False
  crash _ _ := False

/-- `ConfigLoader.resolveOne`. -/
def resolveOne (ns source : String) : Prog lang RawConfig := do
  let plaintext ← Prog.op (S := lang) (.decrypt (configPath ns) source)
  Prog.done (S := lang) (parseConfig rt.parseYaml (configPath ns) plaintext)

/-- ``{ key: `${namespace}.${problem.key}`, message: problem.message }``. -/
def ValidationError.within (ns : String) (problem : ValidationError) : ValidationError :=
  { problem with key := ns ++ "." ++ problem.key }

/-- The complaints about one document of the dry run. -/
def dryRunOne (schema : SchemaSet) (file : String × String) : Prog lang (List ValidationError) :=
  let parts := splitNamespace file.1
  (do
    let config ← resolveOne rt file.1 file.2
    pure ((schema.validate parts.1 rt config).map (ValidationError.within file.1))).handle fun e =>
    pure [fail file.1 s!"could not validate {parts.1}/{parts.2}: {e.message}"]

/-- `SchemaDryRun.validateExisting`: the complaints about all documents. -/
def validateExisting (schema : SchemaSet) (sources : List (String × String)) :
    Prog lang (List ValidationError) := do
  let errors ← Prog.collect sources (dryRunOne rt schema)
  pure errors.flatten

/-- `configSources`: the namespaces of a listing. -/
def configSources (listing : List (String × String)) : List (String × String) :=
  listing.filterMap fun (path, source) => (namespaceOf path).map fun ns => (ns, source)

/-- `SchemaWriteService.save`. -/
def save (source : String) (expectedEtag : Option String) : Prog lang SchemaWriteResult :=
  match SchemaSet.fromDocument rt source with
  | .error e => pure (.invalid [fail "*" e.message])
  | .ok schema => do
    let listing ← Prog.op (S := lang) .readAll
    let errors ← validateExisting rt schema (configSources listing)
    if errors.isEmpty then Prog.op (S := lang) (.write source expectedEtag listing)
    else pure (.invalid errors)

/-- What the service is asked for: a save of the schema, or a transaction. -/
inductive Request where
  | save (source : String) (expectedEtag : Option String)
  | transaction (requests : List MutationRequest)
deriving DecidableEq

def serve : Request → Prog lang (Option SchemaWriteResult)
  | .save source expectedEtag => do
    let result ← save rt source expectedEtag
    pure (some result)
  | .transaction requests => do
    Prog.op (S := lang) (.transaction requests)
    pure none

def service : System lang Request (Option SchemaWriteResult) where
  sem := sem contentHash decrypt
  body _ c := serve rt c

/-- The service has just started. -/
def Started (s : State) : Prop := s.at_ s.db.revision = s.db.files

end

end ConfigRegistry.Schema
