import ConfigRegistry.Js.Record
import ConfigRegistry.Schema.Validator

/-!
# Turning a form into a schema

`src/schema/builder.ts`: drafts in, YAML or every problem out.
-/

namespace ConfigRegistry.Schema

open Js

/-- A key as the form describes it, before anything has been checked. -/
structure KeyDraft where
  name : String
  type : String
  secret : Bool
  values : List String
  description : String
  min : Option Value := none
  max : Option Value := none
  default : Option Value

abbrev SchemaProblem : Type := ValidationError

/-- `TYPES`. -/
def types : List String := ["string", "int", "bool", "enum", "url", "string[]"]

/-- `NAME = /^[A-Z][A-Z0-9_]*$/`. -/
def isKeyName (name : String) : Bool :=
  match name.toList with
  | [] => false
  | c :: cs => c.isUpper && cs.all fun c => c.isUpper || c.isDigit || c == '_'

/-- The white space and line terminators of JavaScript. -/
def isSpace (c : Char) : Bool :=
  (9 ≤ c.toNat && c.toNat ≤ 13) || (0x2000 ≤ c.toNat && c.toNat ≤ 0x200A) ||
    [0x20, 0xA0, 0x1680, 0x2028, 0x2029, 0x202F, 0x205F, 0x3000, 0xFEFF].contains c.toNat

/-- A character that is printed in ASCII is none of them. -/
theorem isSpace_of_printed {c : Char} (hlow : 33 ≤ c.toNat) (hhigh : c.toNat ≤ 126) : isSpace c = false := by
  unfold isSpace
  simp only [Bool.or_eq_false_iff, Bool.and_eq_false_iff, decide_eq_false_iff_not, List.contains_eq_mem]
  refine ⟨⟨.inr (by omega), .inl (by omega)⟩, ?_⟩
  simp only [List.mem_cons, List.not_mem_nil, or_false]
  omega

/-- `text.trim()`. -/
def trim (text : String) : String :=
  String.ofList ((text.toList.dropWhile isSpace).reverse.dropWhile isSpace).reverse

/-- Whether a value is of the type the key declares. Null is always allowed. -/
def isOfType (type : String) (value : Value) : Bool :=
  match value with
  | .null => true
  | .num n => type == "int" && n.isInteger
  | .bool _ => type == "bool"
  | .arr items => type == "string[]" && items.all fun | .str _ => true | _ => false
  | .str _ => !(["int", "bool", "string[]"].contains type)
  | .obj _ => false

/-- A finite number. -/
def finiteNumber : Option Value → Option Number
  | some (.num (.fin q)) => some (.fin q)
  | _ => none

/-- A bound that is declared is a whole number. -/
def checkBound (name label : String) : Option Value → List SchemaProblem
  | none => []
  | some (.num n) => if n.isInteger then [] else [fail name s!"{label} must be a whole number"]
  | some _ => [fail name s!"{label} must be a whole number"]

section

variable (rt : Runtime)

/-- The values a draft declares. -/
def KeyDraft.declared (draft : KeyDraft) : List String :=
  draft.values.filter fun value => trim value != ""

/-- `value < bound`, of a bound that is a number. -/
def numberBelow (n : Number) : Option Value → Bool
  | some (.num bound) => n.lt bound
  | _ => false

/-- `value > bound`, of a bound that is a number. -/
def numberAbove (n : Number) : Option Value → Bool
  | some (.num bound) => bound.lt n
  | _ => false

/-- The problems with a draft's default. -/
def checkDefault (draft : KeyDraft) (name : String) : List SchemaProblem :=
  match draft.default with
  | none | some .null => []
  | some value =>
    let text := rt.text value
    if !draft.declared.isEmpty then
      if draft.declared.contains text then []
      else [fail name (s!"default '{text}' is not one of " ++ ", ".intercalate draft.declared)]
    else if !isOfType draft.type value then
      [fail name s!"default '{text}' is not a valid {draft.type}"]
    else
      match value with
      | .num n =>
        (if numberBelow n draft.min then
          [fail name (s!"default {text} is below min " ++ rt.textOf draft.min)] else []) ++
        (if numberAbove n draft.max then
          [fail name (s!"default {text} is above max " ++ rt.textOf draft.max)] else [])
      | _ => []

/-- `checkKey`, of a draft that comes after the names `seen`. -/
def checkKey (draft : KeyDraft) (seen : List String) : List SchemaProblem :=
  let name := trim draft.name
  let named :=
    (if isKeyName name then []
      else [fail name s!"'{name}' is not a valid key name: use upper snake case, like SESSION_TTL"]) ++
    (if isMetadataKey name then
      [fail name s!"'{name}' is reserved by the file format and cannot be a key"] else []) ++
    (if seen.contains name then [fail name s!"'{name}' is declared twice"] else [])
  if !types.contains draft.type then
    named ++ [fail name s!"'{draft.type}' is not a type this console knows"]
  else
    let enumerated := !draft.declared.isEmpty
    let filled := match draft.default with
      | none | some .null | some (.str "") => false
      | _ => true
    let bounded := draft.min.isSome || draft.max.isSome
    named ++
    (if draft.secret && draft.type != "string" then [fail name "only a string can be secret"] else []) ++
    (if draft.secret && filled then
      [fail name "a secret is created without a value; set it on the product page"] else []) ++
    (if draft.secret && enumerated then [fail name "a secret cannot declare values"] else []) ++
    (if enumerated && !(["string", "enum"].contains draft.type) then
      [fail name s!"values can only be declared for a string, not for {draft.type}"] else []) ++
    (if bounded && draft.type != "int" then
      [fail name s!"min and max can only be declared for an int, not for {draft.type}"] else []) ++
    checkBound name "min" draft.min ++ checkBound name "max" draft.max ++
    (match finiteNumber draft.min, finiteNumber draft.max with
      | some min, some max =>
        if max.lt min then
          [fail name (s!"min {rt.numberText min} is above max {rt.numberText max}: " ++
            "no value could satisfy it")]
        else []
      | _, _ => []) ++
    checkDefault rt draft name

/-- The problems of all drafts, each seen after those before it. -/
def checkKeys : List KeyDraft → List String → List SchemaProblem
  | [], _ => []
  | draft :: drafts, seen => checkKey rt draft seen ++ checkKeys drafts (seen ++ [trim draft.name])

/-- A field that is written where there is something to write. -/
def optionally (key : String) : Option Value → Record
  | some value => [(key, value)]
  | none => []

/-- The mapping that declares a key. -/
def KeyDraft.definition (draft : KeyDraft) : Record :=
  let values := draft.declared
  [("type", .str (if values.isEmpty then draft.type else "enum"))] ++
    optionally "values" (if values.isEmpty then none else some (.arr (values.map .str))) ++
    optionally "min" draft.min ++ optionally "max" draft.max ++
    optionally "secret" (if draft.secret then some (.bool true) else none) ++
    optionally "description"
      (if trim draft.description = "" then none else some (.str (trim draft.description))) ++
    match draft.default with
    | none | some .null => []
    | some value => if draft.secret then [] else [("default", value)]

/-- The definitions of all drafts, by name. -/
def draftedKeys (drafts : List KeyDraft) : Record :=
  drafts.foldl (fun keys draft => keys.set (trim draft.name) (.obj draft.definition)) []

/-- `buildSchema`. -/
def buildSchema (drafts : List KeyDraft) : Except (List SchemaProblem) String :=
  let problems := checkKeys rt drafts []
  if problems.isEmpty then
    .ok (rt.stringifyYaml (.obj [("version", .num (.fin 1)), ("keys", .obj (draftedKeys drafts))]))
  else .error problems

end

end ConfigRegistry.Schema
