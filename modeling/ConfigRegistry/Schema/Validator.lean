import ConfigRegistry.Js.Runtime

/-!
# Typed configuration keys

`src/schema/validator.ts` and `src/store/metadata.ts`: what a product's schema file declares, and
which documents it accepts.
-/

namespace ConfigRegistry.Schema

open Js

/-- `isMetadataKey`: the fields of a document that are not configuration. -/
def isMetadataKey (key : String) : Bool := key == "version" || key == "sops"

inductive KeyType where
  | string | int | bool | enum | url | stringList
deriving DecidableEq

/-- `KEY_TYPES.includes(type)`, with the type it names. -/
def KeyType.ofName : String → Option KeyType
  | "string" => some .string
  | "int" => some .int
  | "bool" => some .bool
  | "enum" => some .enum
  | "url" => some .url
  | "string[]" => some .stringList
  | _ => none

structure KeyDefinition where
  type : KeyType
  default : Option Value := none
  values : Option (List String) := none
  min : Option Number := none
  max : Option Number := none
  secret : Bool
  description : Option String := none

structure ValidationError where
  key : String
  message : String
deriving DecidableEq

/-- `SOPS_ENCRYPTED = /^ENC\[AES256_GCM,/`. -/
def sopsEncrypted (value : String) : Bool := startsWith value "ENC[AES256_GCM,"

/-- `URL_SCHEMES`. -/
def urlSchemes : List String := ["http:", "https:"]

def fail (key message : String) : ValidationError := { key, message }

/-- `KNOWN_VERSIONS`. -/
def knownVersions : List Number := [.fin 1]

section

variable (rt : Runtime)

/-- `n < bound`, where a bound that is not declared bounds nothing. -/
def below (n : Number) : Option Number → Bool
  | some bound => n.lt bound
  | none => false

/-- `n > bound`. -/
def above (n : Number) : Option Number → Bool
  | some bound => bound.lt n
  | none => false

/-- The check of a value that is neither ciphertext nor null against the declared type. -/
def checkType (key : String) (definition : KeyDefinition) (value : Value) : Option ValidationError :=
  match definition.type with
  | .string =>
    match value with
    | .str _ => none
    | _ => some (fail key s!"'{key}' must be a string")
  | .bool =>
    match value with
    | .bool _ => none
    | _ => some (fail key s!"'{key}' must be true or false")
  | .int =>
    match value with
    | .num n =>
      if !n.isInteger then some (fail key s!"'{key}' must be a whole number")
      else if below n definition.min then
        some (fail key (s!"'{key}' must be at least " ++ (definition.min.map rt.numberText).getD ""))
      else if above n definition.max then
        some (fail key (s!"'{key}' must be at most " ++ (definition.max.map rt.numberText).getD ""))
      else none
    | _ => some (fail key s!"'{key}' must be a whole number")
  | .enum =>
    let values := definition.values.getD []
    match value with
    | .str s =>
      if values.contains s then none
      else some (fail key (s!"'{key}' must be one of: " ++ ", ".intercalate values))
    | _ => some (fail key (s!"'{key}' must be one of: " ++ ", ".intercalate values))
  | .url =>
    match value with
    | .str s =>
      match rt.urlProtocol s with
      | none => some (fail key s!"'{key}' must be a valid URL")
      | some protocol =>
        if urlSchemes.contains protocol then none
        else some (fail key s!"'{key}' must be an http or https URL")
    | _ => some (fail key s!"'{key}' must be a URL")
  | .stringList =>
    match value with
    | .arr items =>
      if items.all fun | .str _ => true | _ => false then none
      else some (fail key s!"'{key}' must be a list of strings")
    | _ => some (fail key s!"'{key}' must be a list of strings")

/-- `checkValue`. Ciphertext is taken for a secret whatever its type. -/
def checkValue (key : String) (definition : KeyDefinition) (value : Value) : Option ValidationError :=
  match value with
  | .str s =>
    if sopsEncrypted s then
      if definition.secret then none
      else some (fail key s!"'{key}' holds an encrypted value but is not marked secret in the schema")
    else checkType rt key definition value
  | .null => some (fail key s!"'{key}' cannot be null — delete the key to remove the override")
  | _ => checkType rt key definition value

/-- `parseSchemaVersion`, of a file that has parsed to `parsed`. -/
def parseSchemaVersion (service : String) (parsed : Value) : Except Error Number :=
  match parsed.field "version" with
  | none => .error (.of s!"schema/{service}.yaml declares no version; every schema must declare one")
  | some (.num n) =>
    if !n.isInteger then
      .error (.of s!"schema/{service}.yaml declares a version that is not a whole number")
    else if knownVersions.contains n then .ok n
    else .error (.of
      (s!"schema/{service}.yaml declares version {rt.numberText n}; this service knows " ++
        ", ".intercalate (knownVersions.map rt.numberText)))
  | some _ => .error (.of s!"schema/{service}.yaml declares a version that is not a whole number")

/-- `parseRetiring`. -/
def parseRetiring (service : String) (parsed : Value) : Except Error Bool :=
  match parsed.field "retiring" with
  | none => .ok false
  | some (.bool b) => .ok b
  | some v => .error (.of
      s!"schema/{service}.yaml declares 'retiring: {rt.text v}'; it must be true or false")

/-- The definition a key's mapping declares, before its default is looked at. -/
def definitionOf (type : KeyType) (raw : Value) : KeyDefinition where
  type
  values := match raw.field "values" with
    | some (.arr values) => some (values.map rt.text)
    | _ => none
  min := match raw.field "min" with
    | some (.num n) => some n
    | _ => none
  max := match raw.field "max" with
    | some (.num n) => some n
    | _ => none
  secret := match raw.field "secret" with
    | some (.bool b) => b
    | _ => false
  description := match raw.field "description" with
    | some (.str s) => some s
    | _ => none

/-- `parseKey`. -/
def parseKey (service key : String) (raw : Value) : Except Error KeyDefinition :=
  let place := s!"schema/{service}.yaml: '{key}'"
  if !raw.isMapping then .error (.of s!"{place} must be a mapping describing the key")
  else
    match (match raw.field "type" with | some (.str s) => KeyType.ofName s | _ => none) with
    | none =>
      let declared := rt.textOf (raw.field "type")
      .error (.of s!"{place} declares unsupported type '{declared}'")
    | some type =>
      let definition := definitionOf rt type raw
      if type = .enum ∧ definition.values.getD [] = [] then
        .error (.of s!"{place} is an enum and must list at least one permitted value")
      else
        match definition.min, definition.max with
        | some min, some max =>
          if max.lt min then
            .error (.of s!"{place} has min {rt.numberText min} greater than max {rt.numberText max}")
          else withDefault place definition
        | _, _ => withDefault place definition
where
  /-- The declared default, which must pass the check that a written value passes. -/
  withDefault (place : String) (definition : KeyDefinition) : Except Error KeyDefinition :=
    match raw.field "default" with
    | none => .ok definition
    | some fallback =>
      match checkValue rt key definition fallback with
      | some problem => .error (.of s!"{place} declares a default it rejects: {problem.message}")
      | none => .ok { definition with default := some fallback }

/-- Read one definition for each key, in the order of the file. -/
def parseKeys (service : String) : List (String × Value) → Except Error (List (String × KeyDefinition))
  | [] => .ok []
  | (key, raw) :: rest => do
    let definition ← parseKey rt service key raw
    let definitions ← parseKeys service rest
    pure ((key, definition) :: definitions)

/-- `parseSchema`, of a file that has parsed to `parsed`. -/
def parseSchema (service : String) (parsed : Value) : Except Error (List (String × KeyDefinition)) :=
  let shape := Error.of s!"schema/{service}.yaml must be a mapping with a 'keys' mapping"
  if !parsed.isMapping then .error shape
  else
    match parsed.field "keys" with
    | none => .ok []
    | some (.obj keys) => parseKeys rt service keys
    | some _ => .error shape

/-- What one schema file declares. -/
structure ProductSchema where
  definitions : List (String × KeyDefinition)
  version : Number
  retiring : Bool

/-- One file of `SchemaSet.fromFiles`. -/
def ProductSchema.ofSource (service source : String) : Except Error ProductSchema :=
  match rt.parseYaml source with
  | .error _ => .error (.of s!"schema/{service}.yaml is not valid YAML")
  | .ok parsed => do
    let definitions ← parseSchema rt service parsed
    let version ← parseSchemaVersion rt service parsed
    let retiring ← parseRetiring rt service parsed
    pure { definitions, version, retiring }

/-- The schemas of all products. -/
structure SchemaSet where
  services : List (String × ProductSchema)

/-- `SchemaSet.fromFiles`: every file must be acceptable. -/
def SchemaSet.fromFiles : List (String × String) → Except Error SchemaSet
  | [] => .ok ⟨[]⟩
  | (service, source) :: rest => do
    let schema ← ProductSchema.ofSource rt service source
    let set ← SchemaSet.fromFiles rest
    pure ⟨(service, schema) :: set.services⟩

/-- The product a path of the database holds the schema of: `/^schema\/([^/]+)\.yaml$/`. A record
cannot hold the name `__proto__`. -/
def schemaName (path : String) : Option String :=
  if startsWith path "schema/" && endsWith path ".yaml" then
    let name := sliceBetween path "schema/" ".yaml"
    if name = "" ∨ '/' ∈ name.toList ∨ name = "__proto__" then none else some name
  else none

/-- `SchemaSet.fromTree`. -/
def SchemaSet.fromTree (files : List (String × String)) : Except Error SchemaSet :=
  SchemaSet.fromFiles rt (files.filterMap fun (path, source) =>
    (schemaName path).map fun name => (name, source))

end

namespace SchemaSet

variable (set : SchemaSet) (service : String)

/-- Whether a schema exists at all. -/
def has : Bool := (set.services.lookup service).isSome

def definitionsFor : List (String × KeyDefinition) :=
  ((set.services.lookup service).map ProductSchema.definitions).getD []

def isRetiring : Bool := ((set.services.lookup service).map ProductSchema.retiring).getD false

/-- Whether this key must be encrypted before it is committed. -/
def isSecret (key : String) : Bool :=
  (((set.definitionsFor service).lookup key).map KeyDefinition.secret).getD false

/-- `defaultsFor`. -/
def defaultsFor : List (String × Value) :=
  (set.definitionsFor service).filterMap fun (key, definition) =>
    definition.default.map fun value => (key, value)

/-- The complaint about one entry of a document. -/
def checkEntry (rt : Runtime) (keys : List (String × KeyDefinition)) (entry : String × Value) :
    Option ValidationError :=
  if isMetadataKey entry.1 then none
  else
    match keys.lookup entry.1 with
    | none => some (fail entry.1 s!"'{entry.1}' is not a key in the {service} schema")
    | some definition => checkValue rt entry.1 definition entry.2

/-- `validate`: every problem at once; none means that the document is valid. -/
def validate (rt : Runtime) (config : List (String × Value)) : List ValidationError :=
  match set.services.lookup service with
  | none => [fail "*" s!"no schema is defined for service '{service}'"]
  | some schema => config.filterMap (checkEntry service rt schema.definitions)

end SchemaSet

end ConfigRegistry.Schema
