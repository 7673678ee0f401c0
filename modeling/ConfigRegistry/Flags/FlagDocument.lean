import ConfigRegistry.Js.Value

/-!
# Feature flags

`src/flags/flag-document.ts`: the document of all flags, checked as a whole at its file boundary.
-/

namespace ConfigRegistry.Flags

open Js

/-- `/^[A-Z][A-Za-z0-9]*$/`. -/
def isName (name : String) : Bool :=
  match name.toList with
  | [] => false
  | c :: cs => c.isUpper && cs.all fun c => c.isUpper || c.isLower || c.isDigit

/-- `FlagDocument`: the values of each flag by environment. -/
structure FlagDocument where
  flags : List (String × List (String × Bool))
deriving DecidableEq

structure FlagValidationError where
  key : String
  message : String
deriving DecidableEq

/-- What one environment's entry of a flag is: a value, or a complaint. -/
def checkEnvironment (has : String → Bool) (name : String) (entry : String × Value) :
    Except FlagValidationError (String × Bool) :=
  if !has entry.1 then
    .error ⟨s!"{name}.{entry.1}", s!"unknown environment '{entry.1}'"⟩
  else
    match entry.2 with
    | .bool b => .ok (entry.1, b)
    | _ => .error ⟨s!"{name}.{entry.1}", "flag value must be true or false"⟩

/-- The complaints and the values of a list of checked entries. -/
def partitionChecked {α : Type} : List (Except FlagValidationError α) →
    List FlagValidationError × List α
  | [] => ([], [])
  | .error e :: rest => (e :: (partitionChecked rest).1, (partitionChecked rest).2)
  | .ok a :: rest => ((partitionChecked rest).1, a :: (partitionChecked rest).2)

/-- One flag of the document: its complaints, and its values when it is a mapping. -/
def checkFlag (has : String → Bool) (name : String) (raw : Value) :
    List FlagValidationError × Option (List (String × Bool)) :=
  let named := if isName name then [] else [⟨name, "flag name must be TitleCase"⟩]
  match raw with
  | .obj entries =>
    let (errors, values) := partitionChecked (entries.map (checkEnvironment has name))
    (named ++ errors, some values)
  | _ => (named ++ [⟨name, "flag values must be an environment mapping"⟩], none)

/-- `FlagValidator.validateFile`. -/
def validateFile (parseYaml : String → Except Error Value) (has : String → Bool) (source : String) :
    Except (List FlagValidationError) FlagDocument :=
  match parseYaml source with
  | .error _ => .error [⟨"*", "flags.yaml is not valid YAML"⟩]
  | .ok parsed =>
    match parsed.field "version", parsed.field "flags" with
    | some (.num (.fin 1)), some (.obj flags) =>
      let checked := flags.map fun (name, raw) => (name, checkFlag has name raw)
      let errors := checked.flatMap fun (_, c) => c.1
      if errors.isEmpty then
        .ok ⟨checked.filterMap fun (name, c) => c.2.map fun values => (name, values)⟩
      else .error errors
    | _, _ => .error [⟨"*", "flags.yaml must contain version: 1 and a flags mapping"⟩]

namespace FlagDocument

variable (document : FlagDocument)

/-- `FlagSet.valueOf`. -/
def valueOf (name environment : String) : Bool :=
  (((document.flags.lookup name).bind fun values => values.lookup environment)).getD false

/-- `FlagSet.resolveFor`. -/
def resolveFor (environment : String) : List (String × Bool) :=
  document.flags.map fun (name, _) => (name, document.valueOf name environment)

end FlagDocument

end ConfigRegistry.Flags
