import ConfigRegistry.Products.Session

/-!
# Product operations

`src/store/product-write-operations.ts`: each operation decides from one snapshot what to write, and
writes it in one transaction.
-/

namespace ConfigRegistry.Products

open Js Schema Store

/-- `createProduct`'s request. -/
structure CreateRequest where
  service : String
  uid : Number
  environments : List String
  schema : String
  defaults : Record

structure WriteRequest where
  service : String
  environment : String
  changes : List (String × Option Value)
  expectedEtag : Option (Option String) := none

structure PromoteRequest where
  service : String
  source : String
  target : String
  keys : List String

structure AddKeysRequest where
  service : String
  environment : String
  keys : List KeyDraft
  expectedEtag : Option (Option String) := none

/-- The registry entry of a new product. -/
def newIdentity (r : CreateRequest) : Value :=
  .obj [("name", .str r.service), ("uid", .num r.uid),
    ("namespaces", .arr (r.environments.map fun env => .str (namespaceText r.service env)))]

/-- The document of each environment of a new product. -/
def newDocument (r : CreateRequest) : Record := r.defaults.set "version" (.num (.fin 1))

/-- The file of each environment of a new product. -/
def newDocuments (session : ProductMutation) (r : CreateRequest) (schemas : SchemaSet) :
    List String → Attempt (List MutationRequest)
  | [] => pure []
  | env :: environments => do
    let source ← session.encode env (newDocument r) schemas
    let rest ← newDocuments session r schemas environments
    pure (session.put (documentPath r.service env) (some source) r.defaults.keys :: rest)

def createProduct (r : CreateRequest) (session : ProductMutation) : Attempt Plan := do
  if ["new", "retiring"].contains r.service then refuse "product name is reserved" .invalid
  else if !r.uid.isSafeInteger || r.uid.lt (.fin 0) then
    refuse "uid must be a non-negative integer" .invalid
  else
    let services ← session.services
    if (← ProductMutation.find (ProductMutation.isNamed r.service) services).isSome then
      refuse s!"{r.service} is already declared" .invalid
    else
      match ← ProductMutation.find (ProductMutation.hasUid r.uid) services with
      | some holder =>
        let uid := session.options.rt.numberText r.uid
        let name := session.options.rt.textOf (holder.field "name")
        refuse s!"uid {uid} already belongs to {name}" .invalid
      | none =>
        if session.schemas.has r.service || !session.environments.isEmpty then
          refuse "product data already exists" .invalid
        else if r.environments.isEmpty || !decide r.environments.Nodup ||
            r.environments.any (fun env => !identifier env || !session.order.all.contains env) then
          refuse "choose distinct declared environments" .invalid
        else
          let schemas ← lift (SchemaSet.fromFiles session.options.rt [(r.service, r.schema)])
          let errors := schemas.validate r.service session.options.rt r.defaults
          if !errors.isEmpty then refuseErrors "invalid defaults" errors
          else if r.defaults.keys.any fun key => isMetadataKey key || schemas.isSecret r.service key then
            refuse "defaults cannot contain secrets or metadata" .invalid
          else
            let documents ← newDocuments session r schemas r.environments
            let registry := session.registry.set "services" (.arr (services ++ [newIdentity r]))
            pure { writes := session.put (schemaPath r.service) (some r.schema) [r.service] ::
                     (documents ++ [session.put "services.yaml"
                       (some (session.options.rt.stringifyYaml registry)) [r.service]])
                   given := r.environments.map fun env => (env, newDocument r) }

def writeValues (r : WriteRequest) (session : ProductMutation) : Attempt Plan := do
  let _ ← session.requireProduct
  session.values r.environment r.changes r.expectedEtag

def setRetiring (service : String) (retiring force : Bool) (session : ProductMutation) :
    Attempt Plan := do
  let _ ← session.requireProduct
  if retiring && !force && (session.files.lookup (archivedPath service)).isSome then
    refuse archiveAlreadyExists .invalid
  else
    let document ← session.productSchema
    let marked := if retiring then document.set "retiring" (.bool true) else document.delete "retiring"
    pure { writes := [session.put (schemaPath service)
      (some (session.options.rt.stringifyYaml marked)) ["retiring"]] }

/-- The values that a promotion takes along. -/
def promoted (request : PromoteRequest) (source : Record) :
    List String → Attempt (List (String × Option Value))
  | [] => pure []
  | key :: keys =>
    match source.lookup key with
    | none => refuse s!"{key} is not set in {request.source}" .invalid
    | some value => do
      let rest ← promoted request source keys
      pure ((key, some value) :: rest)

def promote (r : PromoteRequest) (session : ProductMutation) : Attempt Plan := do
  let _ ← session.requireProduct
  if session.order.next r.source != some r.target then
    refuse "promotion target must be the next declared environment" .invalid
  else
    let keys ← session.select r.keys
    match keys.find? fun key => session.schemas.isSecret r.service key with
    | some key => refuse s!"cannot promote a secret ({key}) — set it directly in {r.target}" .invalid
    | none =>
      let source ← session.document r.source
      let changes ← promoted r source keys
      let plan ← session.values r.target changes none
      pure (Plan.append { reads := [documentPath r.service r.source] } plan)

/-- The values that the drafts of keys that are not secret start with. -/
def draftedDefaults (drafts : List KeyDraft) : Record :=
  drafts.foldl (fun defaults draft =>
    match draft.default with
    | none | some .null => defaults
    | some value => if draft.secret then defaults else defaults.set (trim draft.name) value) []

/-- What `addKeys` does with each environment: all must fit the new schema, and the one it was asked
for gets the defaults. -/
def addDefaults (session : ProductMutation) (r : AddKeysRequest) (candidate : SchemaSet)
    (names : List String) (defaults : Record) : List (String × String) → Attempt Plan
  | [] => pure {}
  | (envPath, _) :: rest => do
    let environment := session.environmentOf envPath
    let path := documentPath r.service r.environment
    let current ← session.document environment
    let target := environment == r.environment
    if target && r.expectedEtag.any (fun expected =>
        expected != some (session.options.contentHash ((session.files.lookup path).getD ""))) then
      refuse "file changed; review and reapply your edit" .conflict
    else
      let next := if target then Record.assign (configOnly current) defaults else configOnly current
      let errors := candidate.validate r.service session.options.rt next
      if !errors.isEmpty then refuseErrors "configuration is invalid" errors
      else
        let read : Plan := { reads := [documentPath r.service environment] }
        let wrote ← if target && !(Value.obj (configOnly current)).deepEqual (.obj next) then do
            let value := next.set "version" (.num (.ofNat (bumpedVersion current)))
            let source ← session.encode environment value candidate
            pure { writes := [session.put path (some source) names], given := [(environment, value)] }
          else pure {}
        let others ← addDefaults session r candidate names defaults rest
        pure (read.append (Plan.append wrote others))

def addKeys (r : AddKeysRequest) (session : ProductMutation) : Attempt Plan := do
  let rt := session.options.rt
  let _ ← session.requireProduct
  let lower := session.order.all.head?
  if lower != some r.environment then
    let declared := lower.getD "undefined"
    refuse s!"variables can only be added in {declared}" .invalid
  else if r.keys.isEmpty then refuse "add at least one variable" .invalid
  else
    match buildSchema rt r.keys with
    | .error problems => refuseErrors "invalid schema" problems
    | .ok built =>
      let added := Value.record ((← lift (rt.parseYaml built)).field "keys")
      let document ← session.productSchema
      let declared := Value.record (document.field "keys")
      let clashes := added.keys.filter declared.has
      if !clashes.isEmpty then
        refuseErrors "invalid schema" (clashes.map fun name => fail name s!"'{name}' is already declared")
      else
        let nextSource := rt.stringifyYaml (document.set "keys" (.obj (declared.assign added)))
        let candidate ← lift (SchemaSet.fromFiles rt [(r.service, nextSource)])
        let names := added.keys
        let defaults := draftedDefaults r.keys
        if (session.files.lookup (documentPath r.service r.environment)).isNone then
          refuse "create the environment file first" .invalid
        else
          let plan ← addDefaults session r candidate names defaults session.environments
          pure (plan.append { writes := [session.put (schemaPath r.service) (some nextSource) names] })

/-- What `deleteKeys` does with each environment. -/
def deleteFrom (session : ProductMutation) (service : String) (candidate : SchemaSet)
    (keys : List String) : List (String × String) → Attempt Plan
  | [] => pure {}
  | (path, _) :: rest => do
    let environment := session.environmentOf path
    let current ← session.document environment
    let next := (configOnly current).deleteAll keys
    if !(candidate.validate service session.options.rt next).isEmpty then
      refuse s!"cannot remove keys: {path} would remain invalid" .wouldOrphan
    else
      let read : Plan := { reads := [documentPath service environment] }
      let wrote ← if !(Value.obj (configOnly current)).deepEqual (.obj next) then do
          let value := next.set "version" (.num (.ofNat (bumpedVersion current)))
          let source ← session.encode environment value candidate
          pure { writes := [session.put path (some source) keys], given := [(environment, value)] }
        else pure {}
      let others ← deleteFrom session service candidate keys rest
      pure (read.append (Plan.append wrote others))

/-- The state an operation was reviewed against is not the one it runs on. -/
def reviewedOther (session : ProductMutation) (service : String) (expectedBase : Option String) : Bool :=
  expectedBase.any fun base => base != productBase session.options session.files service

def deleteKeys (service : String) (selected : List String) (expectedBase : Option String)
    (session : ProductMutation) : Attempt Plan := do
  let rt := session.options.rt
  if reviewedOther session service expectedBase then
    refuse "Product changed; review the deletion scope again." .conflict
  else
    let _ ← session.requireProduct
    let keys ← session.select selected
    let document ← session.productSchema
    let declared := (Value.record (document.field "keys")).deleteAll keys
    let nextSource := rt.stringifyYaml (document.set "keys" (.obj declared))
    let candidate ← lift (SchemaSet.fromFiles rt [(service, nextSource)])
    let plan ← deleteFrom session service candidate keys session.environments
    pure (plan.append { writes := [session.put (schemaPath service) (some nextSource) keys] })

/-- What is kept of an archived product. -/
def archiveOf (session : ProductMutation) (service : String) (identity : Value) : Value :=
  .obj [("version", .num (.fin 1)),
    ("archived", .obj [("at", .str session.options.now), ("by", .str session.actor.email)]),
    ("service", identity),
    ("schema", .str ((session.files.lookup (schemaPath service)).getD "")),
    ("environments", .obj (session.environments.map fun (path, source) =>
      (session.environmentOf path, .str source)))]

def archiveProduct (service : String) (expectedBase : Option String) (force : Bool)
    (session : ProductMutation) : Attempt Plan := do
  let rt := session.options.rt
  if reviewedOther session service expectedBase then
    refuse "Product changed; review the archive again." .conflict
  else
    let identity ← session.requireProduct
    if !session.schemas.isRetiring service then
      refuse "mark the product retiring before archiving" .invalid
    else if (session.files.lookup (archivedPath service)).isSome && !force then
      refuse archiveAlreadyExists .invalid
    else
      let archive := rt.stringifyYaml (archiveOf session service identity)
      let kept ← ProductMutation.filter (fun entry => !ProductMutation.isNamed service entry)
        (← session.services)
      let registry := session.registry.set "services" (.arr kept)
      pure { writes := session.put "services.yaml" (some (rt.stringifyYaml registry)) [service] ::
        session.put (archivedPath service) (some archive) [service] ::
        (session.environments.map (fun (path, _) => session.put path none [service]) ++
          [session.put (schemaPath service) none [service]]) }

/-- What the console asks for. -/
inductive Operation where
  | createProduct (request : CreateRequest)
  | writeValues (request : WriteRequest)
  | setRetiring (service : String) (retiring force : Bool)
  | promote (request : PromoteRequest)
  | addKeys (request : AddKeysRequest)
  | deleteKeys (service : String) (selected : List String) (expectedBase : Option String)
  | archiveProduct (service : String) (expectedBase : Option String) (force : Bool)

namespace Operation

def service : Operation → String
  | .createProduct r => r.service
  | .writeValues r => r.service
  | .setRetiring service _ _ => service
  | .promote r => r.service
  | .addKeys r => r.service
  | .deleteKeys service _ _ => service
  | .archiveProduct service _ _ => service

def action : Operation → ProductMutation → Attempt Plan
  | .createProduct r => Products.createProduct r
  | .writeValues r => Products.writeValues r
  | .setRetiring service retiring force => Products.setRetiring service retiring force
  | .promote r => Products.promote r
  | .addKeys r => Products.addKeys r
  | .deleteKeys service selected expectedBase => Products.deleteKeys service selected expectedBase
  | .archiveProduct service expectedBase force => Products.archiveProduct service expectedBase force

/-- The operation, run with nothing beside it. -/
def perform (op : Operation) (o : ProductWriteOptions) (actor : Actor) (db : Database) :
    Outcome × Database :=
  run o op.service actor op.action db

end Operation

end ConfigRegistry.Products
