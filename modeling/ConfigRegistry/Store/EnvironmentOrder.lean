import ConfigRegistry.Js.Value

/-!
# The declared order of environments

`src/store/environment-order.ts`.
-/

namespace ConfigRegistry.Store

open Js

/-- Which environment promotes into which. -/
structure EnvironmentOrder where
  order : List String
deriving DecidableEq

namespace EnvironmentOrder

def none : EnvironmentOrder := ⟨[]⟩

/-- `EnvironmentOrder.fromYaml`: a file that declares no order declares no environment. -/
def fromYaml (parseYaml : String → Except Error Value) (source : String) : EnvironmentOrder :=
  match parseYaml source with
  | .error _ => none
  | .ok parsed =>
    match parsed.field "order" with
    | some (.arr order) => ⟨order.filterMap fun | .str s => some s | _ => Option.none⟩
    | _ => none

def all (o : EnvironmentOrder) : List String := o.order

/-- The environment after this one, or none when there is none or it is not listed. -/
def next (o : EnvironmentOrder) (environment : String) : Option String :=
  if environment ∈ o.order then o.order[o.order.idxOf environment + 1]? else Option.none

end EnvironmentOrder

end ConfigRegistry.Store
