import ConfigRegistry.Js.Value
import Mathlib.Data.List.Basic

/-!
# What the service takes from its runtime

The YAML package, the URL class and the printing of numbers are not part of the repository; they
are the fields of a `Runtime`. Strings are matched character by character.
-/

namespace ConfigRegistry.Js

/-- The functions the source calls and does not define. -/
structure Runtime where
  /-- `parse` of the yaml package. -/
  parseYaml : String → Except Error Value
  /-- `stringify` of the yaml package. -/
  stringifyYaml : Value → String
  /-- `new URL(value).protocol`; none where the constructor throws. -/
  urlProtocol : String → Option String
  /-- `Number.prototype.toString`. -/
  numberText : Number → String

mutual

/-- `String(value)`. -/
def Runtime.text (rt : Runtime) : Value → String
  | .null => "null"
  | .bool b => toString b
  | .num n => rt.numberText n
  | .str s => s
  | .arr items => ",".intercalate (rt.texts items)
  | .obj _ => "[object Object]"

/-- The items of an array as `join` prints them: null prints as nothing. -/
def Runtime.texts (rt : Runtime) : List Value → List String
  | [] => []
  | .null :: items => "" :: rt.texts items
  | v :: items => rt.text v :: rt.texts items

end

/-- `String(value)` of a field that may be absent. -/
def Runtime.textOf (rt : Runtime) : Option Value → String
  | some v => rt.text v
  | none => "undefined"

/-- `value.startsWith(pre)`. -/
def startsWith (value pre : String) : Bool := pre.toList.isPrefixOf value.toList

/-- `value.endsWith(post)`. -/
def endsWith (value post : String) : Bool := post.toList.isSuffixOf value.toList

/-- `value.slice(a, -b)` for the lengths `a` of `pre` and `b` of `post`. -/
def sliceBetween (value pre post : String) : String :=
  String.ofList ((value.toList.drop pre.toList.length).take
    (value.toList.length - pre.toList.length - post.toList.length))

end ConfigRegistry.Js
