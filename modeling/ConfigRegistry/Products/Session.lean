import ConfigRegistry.Json.Text
import ConfigRegistry.Schema.Builder
import ConfigRegistry.Store.EnvironmentOrder
import ConfigRegistry.Store.Loader
import ConfigRegistry.Store.Metadata
import ConfigRegistry.Store.Transactions

/-!
# One product operation

`ProductMutation` of `src/store/product-write-operations.ts`: what an operation reads of the
snapshot it was given, and the writes it gathers for one transaction.
-/

namespace ConfigRegistry.Products

open Js Json Schema Store

inductive Credential where
  | iam | breakGlass
deriving DecidableEq

def Credential.name : Credential → String
  | .iam => "iam"
  | .breakGlass => "break-glass"

structure Actor where
  email : String
  id : String
  via : Option Credential := none

inductive ErrorCode where
  | conflict | invalid | secretNotEncrypted | failed | wouldOrphan
deriving DecidableEq

structure ProductWriteError where
  code : ErrorCode
  detail : String
  errors : Option (List ValidationError) := none
  currentCommit : Option Nat := none

structure ProductWriteResult where
  commit : Nat
  changedKeys : List String

abbrev Outcome : Type := Except ProductWriteError ProductWriteResult

/-- What an operation is stopped by: a `Refusal`, or an error of what it calls. -/
inductive Thrown where
  | refusal (failure : ProductWriteError)
  | error (e : Error)

abbrev Attempt (α : Type) : Type := Except Thrown α

def refuse {α : Type} (detail : String) (code : ErrorCode) : Attempt α :=
  .error (.refusal { code, detail })

/-- A `Refusal` that carries what the validator said. -/
def refuseErrors {α : Type} (detail : String) (errors : List ValidationError) : Attempt α :=
  .error (.refusal { code := .invalid, detail, errors := some errors })

/-- A call whose error is not caught. -/
def lift {α : Type} : Except Error α → Attempt α
  | .ok a => .ok a
  | .error e => .error (.error e)

/-- A property of what is not an object is read. -/
def typeError {α : Type} : Attempt α := .error (.error (.of "TypeError"))

/-- `ProductWriteOptions`, with what the service takes from its runtime: SHA-256, the order of
`localeCompare`, sops, and the clock. -/
structure ProductWriteOptions where
  rt : Runtime
  contentHash : String → String
  /-- `a.localeCompare(b) <= 0`. -/
  localeLe : String → String → Bool
  /-- `decryptor.decrypt(path, source)`. -/
  decrypt : String → String → Except Error String
  /-- `encryptor.encrypt(namespace, plaintext)`. -/
  encrypt : String → String → Except Error String
  /-- `new Date().toISOString()`. -/
  now : String
  onCommitted : Except Error Unit := .ok ()

/-- `/^[a-z][a-z0-9-]*$/`. -/
def identifier (value : String) : Bool :=
  match value.toList with
  | [] => false
  | c :: cs => c.isLower && cs.all fun c => c.isLower || c.isDigit || c == '-'

def archiveAlreadyExists : String := "an archive already exists for this product"

def isEmptySecret : Option Value → Bool
  | none | some .null | some (.str "") => true
  | _ => false

def schemaPath (service : String) : String := "schema/" ++ service ++ ".yaml"

def archivedPath (service : String) : String := "archived/" ++ service ++ ".yaml"

/-- `config/<service>/`. -/
def configPrefix (service : String) : String := "config/" ++ service ++ "/"

/-- `<service>/<environment>`. -/
def namespaceText (service environment : String) : String := service ++ "/" ++ environment

/-- `config/<service>/<environment>.yaml`. -/
abbrev documentPath (service environment : String) : String :=
  configPath (namespaceText service environment)

/-- The files, each with its path. -/
def listing (files : Files) : List (String × String) := files.entries.map fun f => (f.1, f.2)

/-- `productBase`: the digest of the files that an operation on the product is reviewed against. -/
def productBase (o : ProductWriteOptions) (files : Files) (service : String) : String :=
  let reviewed := (listing files).filter fun (path, _) =>
    path == schemaPath service || path == "services.yaml" || path == "environments.yaml" ||
      startsWith path (configPrefix service)
  let sorted := reviewed.insertionSort fun a b => o.localeLe a.1 b.1
  o.contentHash (String.ofList (render (.arr (sorted.map fun (path, source) =>
    .arr [.str path.toList, .str source.toList]))))

/-- What an operation asks to be written, and what it has read beside what all of them read. -/
structure Plan where
  writes : List MutationRequest := []
  reads : List String := []
  /-- Beside the code: the documents given to the encryptor, with their environments. -/
  given : List (String × Record) := []

def Plan.append (p q : Plan) : Plan := ⟨p.writes ++ q.writes, p.reads ++ q.reads, p.given ++ q.given⟩

structure ProductMutation where
  options : ProductWriteOptions
  service : String
  actor : Actor
  files : Files
  schemas : SchemaSet
  registry : Value
  order : EnvironmentOrder

namespace ProductMutation

/-- The constructor. -/
def create (options : ProductWriteOptions) (service : String) (actor : Actor) (files : Files) :
    Attempt ProductMutation := do
  let schemas ← lift (SchemaSet.fromTree options.rt (listing files))
  let registry ← lift (options.rt.parseYaml
    ((files.lookup "services.yaml").getD "version: 1\nservices: []\n"))
  let order := EnvironmentOrder.fromYaml options.rt.parseYaml
    ((files.lookup "environments.yaml").getD "")
  pure { options, service, actor, files, schemas, registry, order }

variable (session : ProductMutation)

def productSchema : Attempt Value :=
  match session.files.lookup (schemaPath session.service) with
  | none => refuse "unknown product" .invalid
  | some source => lift (session.options.rt.parseYaml source)

/-- `registry.services`, which its methods are called on. -/
def services : Attempt (List Value) :=
  match session.registry.field "services" with
  | some (.arr services) => pure services
  | _ => typeError

/-- `services.find(p)`, of a `p` that reads a property. -/
def find (p : Value → Bool) : List Value → Attempt (Option Value)
  | [] => pure none
  | .null :: _ => typeError
  | entry :: rest => if p entry then pure (some entry) else find p rest

/-- `services.filter(p)`, of a `p` that reads a property. -/
def filter (p : Value → Bool) : List Value → Attempt (List Value)
  | [] => pure []
  | .null :: _ => typeError
  | entry :: rest => do
    let kept ← filter p rest
    pure (if p entry then entry :: kept else kept)

/-- `entry.name === name`. -/
def isNamed (name : String) (entry : Value) : Bool :=
  match entry.field "name" with
  | some (.str s) => s == name
  | _ => false

/-- `entry.uid === uid`. -/
def hasUid (uid : Number) (entry : Value) : Bool :=
  match entry.field "uid" with
  | some (.num n) => n == uid
  | _ => false

def requireProduct : Attempt Value := do
  let identity ← find (isNamed session.service) (← session.services)
  match identity with
  | some identity =>
    if session.schemas.has session.service then pure identity else refuse "unknown product" .invalid
  | none => refuse "unknown product" .invalid

def select (keys : List String) : Attempt (List String) :=
  let selected := keys.eraseDups
  if selected.isEmpty then refuse "select at least one key" .invalid
  else
    match selected.find? fun key => (session.schemas.definitionsFor session.service).lookup key |>.isNone with
    | some key => refuse s!"unknown key: {key}" .invalid
    | none => pure selected

/-- The environment files of the product. -/
def environments : List (String × String) :=
  (listing session.files).filter fun (path, _) =>
    startsWith path (configPrefix session.service) && endsWith path ".yaml"

/-- The environment an environment file is for. -/
def environmentOf (path : String) : String := sliceBetween path (configPrefix session.service) ".yaml"

def etag (path : String) : Option String := Store.etag session.options.contentHash session.files path

/-- `loader.resolveOne`. -/
def resolveOne (o : ProductWriteOptions) (ns source : String) : Except Error Record := do
  let plaintext ← o.decrypt (configPath ns) source
  parseConfig o.rt.parseYaml (configPath ns) plaintext

/-- `document`: the configuration of an environment, nothing where it has no file. -/
def document (environment : String) : Attempt Record :=
  if !identifier environment then refuse "invalid environment" .invalid
  else
    match session.files.lookup (documentPath session.service environment) with
    | none => pure []
    | some source => lift (resolveOne session.options (namespaceText session.service environment) source)

/-- The fields of a document as they are written: the keys in order, then its own fields. -/
def ordered (value : Record) : Record :=
  (sortTexts (configOnly value).keys).filterMap
      (fun key => (value.lookup key).map fun held => (key, held)) ++
    value.filter fun f => isMetadataKey f.1

/-- Whether a secret has come out of the encryptor as it should. -/
def secretKept (value encrypted : Record) (key : String) : Bool :=
  isEmptySecret (value.lookup key) && isEmptySecret (encrypted.lookup key) ||
    match encrypted.lookup key with
    | some (.str held) => sopsEncrypted held
    | _ => false

def encode (environment : String) (value : Record) (schemas : SchemaSet) : Attempt String :=
  if !(value.lookup "version").any (fun | .num n => n.isSafeInteger | _ => false) then
    refuse "document version exhausted" .invalid
  else do
    let source ← lift (session.options.encrypt (namespaceText session.service environment)
      (session.options.rt.stringifyYaml (.obj (ordered value))))
    match ← lift (session.options.rt.parseYaml source) with
    | .obj encrypted =>
      match (configOnly value).keys.find? fun key =>
          schemas.isSecret session.service key && !secretKept value encrypted key with
      | some key => refuse s!"secret values were not encrypted: {key}" .secretNotEncrypted
      | none => pure source
    | _ => refuse "encryptor returned an invalid document" .invalid

def put (path : String) (content : Option String) (keys : List String) : MutationRequest where
  path
  content
  expectedEtag := some (session.etag path)
  actor := match session.actor.via with
    | some via => session.actor.email ++ " (" ++ via.name ++ ")"
    | none => session.actor.email
  keys

/-- The document with the changes made to it; a key is not removed this way. -/
def override (next : Record) : List (String × Option Value) → Attempt Record
  | [] => pure next
  | (key, value) :: changes =>
    match value with
    | some v =>
      if isMetadataKey key then
        refuse "use product-wide Delete to remove keys; metadata cannot be edited" .invalid
      else override (next.set key v) changes
    | none => refuse "use product-wide Delete to remove keys; metadata cannot be edited" .invalid

/-- `values`: some keys of one environment get new values. -/
def values (environment : String) (changes : List (String × Option Value))
    (expectedEtag : Option (Option String)) : Attempt Plan :=
  let path := documentPath session.service environment
  if !session.order.all.contains environment then refuse "environment is not declared" .invalid
  else if expectedEtag.any (fun expected => expected != session.etag path) then
    refuse "file changed; review and reapply your edit" .conflict
  else do
    let current ← session.document environment
    let next ← override (configOnly current) changes
    let errors := session.schemas.validate session.service session.options.rt next
    if !errors.isEmpty then refuseErrors "configuration is invalid" errors
    else if (session.files.lookup path).isSome && (Value.obj (configOnly current)).deepEqual (.obj next) then
      pure { reads := [path] }
    else
      let value := next.set "version" (.num (.ofNat (bumpedVersion current)))
      let changed := (changes.map Prod.fst).filter fun key =>
        !sameField ((configOnly current).lookup key) (value.lookup key)
      let source ← session.encode environment value session.schemas
      let keys := if changed.isEmpty then changes.map Prod.fst else changed
      pure { writes := [session.put path (some source) keys], reads := [path]
             given := [(environment, value)] }

/-- `commit`, of a plan that was made on `session.files`. -/
def commit (plan : Plan) (db : Database) : Attempt Outcome × Database :=
  let reads := ([schemaPath session.service, "services.yaml", "environments.yaml"] ++ plan.reads).eraseDups
  let (result, db') := writeMany session.options.contentHash plan.writes
    (reads.map fun path => { path, expectedEtag := session.etag path })
    [{ path := "config/" ++ session.service
       files := session.environments.map fun (path, _) =>
        sliceBetween path (configPrefix session.service) "" }] db
  match result with
  | .error e => (.error (.error e), db')
  | .ok (.conflict path _ revision) =>
    (.ok (.error { code := .conflict, detail := path ++ " changed; review and reapply your edit"
                   currentCommit := some revision }), db')
  | .ok (.written revision) | .ok (.unchanged revision) =>
    (.ok (.ok { commit := revision
                changedKeys := (plan.writes.flatMap MutationRequest.keys).eraseDups }), db')

end ProductMutation

/-- What a failed operation answers. -/
def failureOf (service : String) : Thrown → ProductWriteError
  | .refusal failure => failure
  | .error _ =>
    { code := .failed, detail := s!"could not update {service}; no successful write was acknowledged" }

/-- `run`, of an operation whose snapshot is the database it commits to. -/
def run (o : ProductWriteOptions) (service : String) (actor : Actor)
    (action : ProductMutation → Attempt Plan) (db : Database) : Outcome × Database :=
  if !identifier service then (.error { code := .invalid, detail := "invalid product name" }, db)
  else
    match ProductMutation.create o service actor db.files with
    | .error e => (.error (failureOf service e), db)
    | .ok session =>
      match action session with
      | .error e => (.error (failureOf service e), db)
      | .ok plan =>
        match session.commit plan db with
        | (.error e, db') => (.error (failureOf service e), db')
        | (.ok (.error failure), db') => (.error failure, db')
        | (.ok (.ok result), db') =>
          match o.onCommitted with
          | .ok () => (.ok result, db')
          | .error e => (.error (failureOf service (.error e)), db')

end ConfigRegistry.Products
