/-!
# JavaScript values and errors

What a YAML or JSON document parses to, and what the service throws. Numbers are the finite
doubles, seen as rationals, with the infinities and NaN beside them.
-/

namespace ConfigRegistry.Js

/-- The system error codes the source looks at; `other` stands for every other one. -/
inductive Code where
  | ENOENT | ENOTDIR | EISDIR | EEXIST | other
deriving DecidableEq, Repr

/-- A thrown `Error`; `code` is set when it came from the operating system. -/
structure Error where
  message : String
  code : Option Code := none
deriving DecidableEq, Repr

/-- `new Error(message)`. -/
def Error.of (message : String) : Error := { message }

/-- `(error as NodeJS.ErrnoException).code === 'ENOENT'`. -/
def Error.isMissing (e : Error) : Bool := e.code == some .ENOENT

inductive Number where
  | fin (q : Rat)
  | inf (negative : Bool)
  | nan
deriving DecidableEq

/-- `Number.MAX_SAFE_INTEGER`. -/
def maxSafeInteger : Nat := 9007199254740991

/-- `Number.isInteger`. -/
def Number.isInteger : Number → Bool
  | .fin q => q.den == 1
  | _ => false

/-- `Number.isSafeInteger`. -/
def Number.isSafeInteger : Number → Bool
  | .fin q => q.den == 1 && q.num.natAbs ≤ maxSafeInteger
  | _ => false

/-- `a < b`. -/
def Number.lt : Number → Number → Bool
  | .fin p, .fin q => p < q
  | .inf true, .fin _ => true
  | .inf true, .inf false => true
  | .fin _, .inf false => true
  | _, _ => false

def Number.ofNat (n : Nat) : Number := .fin n

/-- The values documents hold. Mappings keep the order of their keys, and have each key once. -/
inductive Value where
  | null
  | bool (b : Bool)
  | num (n : Number)
  | str (s : String)
  | arr (items : List Value)
  | obj (fields : List (String × Value))

namespace Value

/-- `(value as { key?: unknown }).key`; none where JavaScript reads `undefined`. -/
def field (v : Value) (key : String) : Option Value :=
  match v with
  | obj fields => fields.lookup key
  | _ => none

/-- `typeof value === 'object' && value !== null && !Array.isArray(value)`. -/
def isMapping : Value → Bool
  | obj _ => true
  | _ => false

/-- `Boolean(value)`. -/
def truthy : Value → Bool
  | null => false
  | bool b => b
  | num (.fin q) => q != 0
  | num (.inf _) => true
  | num .nan => false
  | str s => s != ""
  | arr _ => true
  | obj _ => true

end Value

end ConfigRegistry.Js
