import ConfigRegistry.Async.Drive
import ConfigRegistry.Flags.FlagDocument
import ConfigRegistry.Js.Record
import ConfigRegistry.Store.Transactions

/-!
# Setting a flag

`src/flags/flag-write-service.ts`: a set reads the document of all flags, puts one value into it and
writes the whole document back. The read and the write are two operations, each atomic in the
database, and other sets run between them.
-/

namespace ConfigRegistry.Flags

open Js Async Store

/-! ### The document -/

/-- `isRecord(value)`, with its fields. -/
def asRecord : Option Value → Option Record
  | some (.obj fields) => some fields
  | _ => none

@[simp] theorem asRecord_obj (fields : Record) : asRecord (some (.obj fields)) = some fields := rfl

/-- `record[key] = value`: assigning to the prototype of a plain object gives it no key. -/
def assignKey (record : Record) (key : String) (value : Value) : Record :=
  if key = "__proto__" ∧ ¬ record.has key = true then record else record.set key value

/-- `{ version: 1, flags: {} }`. -/
def emptyDocument : Record := [("version", .num (.fin 1)), ("flags", .obj [])]

/-- The document that a set changes: the stored one, or an empty one when that has no mapping of
flags. -/
def documentOf : Value → Record
  | .obj fields => if (asRecord (fields.lookup "flags")).isSome then fields else emptyDocument
  | _ => emptyDocument

/-- `flags[name][environment] = value`. -/
def withFlag (document : Record) (name environment : String) (value : Bool) : Record :=
  let flags := (asRecord (document.lookup "flags")).getD []
  let values := (asRecord (flags.lookup name)).getD []
  document.set "flags" (.obj (assignKey flags name (.obj (assignKey values environment (.bool value)))))

section

variable (rt : Runtime)

/-- `current ? parse(current) : { version: 1, flags: {} }`. -/
def parseCurrent : Option String → Except Error Value
  | none => .ok (.obj emptyDocument)
  | some source => if source = "" then .ok (.obj emptyDocument) else rt.parseYaml source

/-- The text that a set writes. -/
def nextContent (current : Option String) (name environment : String) (value : Bool) :
    Except Error String := do
  let parsed ← parseCurrent rt current
  pure (rt.stringifyYaml (.obj (withFlag (documentOf parsed) name environment value)))

end

/-! ### The service -/

/-- `FlagWriteResult`. -/
inductive FlagWriteResult where
  | written (revision : Nat) (etag : String)
  | unchanged (revision : Nat) (etag : String)
  | conflict (currentEtag : String) (revision : Nat)
  | invalid (errors : List FlagValidationError)

def FlagWriteResult.accepted : FlagWriteResult → Bool
  | written _ _ | unchanged _ _ => true
  | conflict _ _ | invalid _ => false

/-- The arguments of a set. -/
structure SetCall where
  name : String
  environment : String
  value : Bool
  expectedEtag : Option String
  actor : String

/-- A set that took effect, with the texts of `flags.yaml` before and after. -/
structure SetEffect where
  t : Nat
  call : SetCall
  before : Option String
  after : Option String

structure State where
  db : Database
  /-- The environments that the validator knows. -/
  environments : List String
  /-- Beside the code: the sets that took effect, newest first. -/
  effects : List SetEffect := []

/-- `flags.yaml`. -/
def State.flags (s : State) : Option String := s.db.files.lookup "flags.yaml"

inductive Op where
  /-- `db.read('flags.yaml')`. -/
  | read
  /-- `db.write(…)` of call `t`, which read `base`. -/
  | write (t : Nat) (call : SetCall) (base : Option String) (content : String)
  /-- A transaction of the rest of the service. -/
  | transaction (requests : List MutationRequest)

abbrev Op.Res : Op → Type
  | .read => Option String
  | .write _ _ _ _ => FlagWriteResult
  | .transaction _ => Unit

abbrev lang : Sig where
  State := State
  Err := Error
  Op := Op
  Res := Op.Res

section

variable (rt : Runtime) (contentHash : String → String)

/-- `toResult`. -/
def toResult (content : String) : BatchWriteResult → FlagWriteResult
  | .written revision => .written revision (contentHash content)
  | .unchanged revision => .unchanged revision (contentHash content)
  | .conflict _ actual revision => .conflict (actual.getD "") revision

/-- The request of a set. -/
def SetCall.request (call : SetCall) (content : String) : MutationRequest where
  path := "flags.yaml"
  content := some content
  expectedEtag := call.expectedEtag.map some
  actor := call.actor
  keys := [call.name]

/-- `validator.validateFile(content)`. -/
def State.validate (s : State) (content : String) : Except (List FlagValidationError) FlagDocument :=
  validateFile rt.parseYaml (fun environment => s.environments.contains environment) content

/-- `db.write(…)`, checked once more under its lock. -/
def State.write (s : State) (t : Nat) (call : SetCall) (content : String) :
    Except Error FlagWriteResult × State :=
  match s.validate rt content with
  | .error errors => (.ok (.invalid errors), s)
  | .ok _ =>
    match writeMany contentHash [call.request content] [] [] s.db with
    | (.error e, _) => (.error e, s)
    | (.ok result, db) =>
      (.ok (toResult contentHash content result), { s with
        db
        effects :=
          if result.accepted then ⟨t, call, s.flags, db.files.lookup "flags.yaml"⟩ :: s.effects
          else s.effects })

/-- What the operations do. Each may fail, a write also after it has taken effect. -/
def Op.answers : (o : Op) → State → Except Error o.Res → State → Prop
  | .read, s, r, s' => (∀ source, r = .ok source → source = s.flags) ∧ s' = s
  | .write t call _ content, s, r, s' => (r, s') = s.write rt contentHash t call content ∨
      r.isOk = false ∧ (s' = s ∨ s' = (s.write rt contentHash t call content).2)
  | .transaction requests, s, _, s' => s' = s ∨
      s' = { s with db := (writeMany contentHash requests [] [] s.db).2 }

abbrev sem : Sem lang where
  step o s r s' := o.answers rt contentHash s r s'
  torn _ _ _ := False
  crash _ _ := False

/-- A computation of the current turn. -/
def lift {α : Type} (r : Except Error α) : Prog lang α := Prog.done (S := lang) r

/-- `FlagWriteService.set`. -/
def FlagWriteService.set (t : Nat) (call : SetCall) : Prog lang FlagWriteResult := do
  let current ← Prog.op (S := lang) .read
  let content ← lift (nextContent rt current call.name call.environment call.value)
  match (← Prog.get (S := lang)).validate rt content with
  | .error errors => pure (.invalid errors)
  | .ok _ => Prog.op (S := lang) (.write t call current content)

/-- What the service is asked for: a set, other environments for the validator, or a transaction. -/
inductive Request where
  | set (call : SetCall)
  | setEnvironments (names : List String)
  | transaction (requests : List MutationRequest)

def serve (t : Nat) : Request → Prog lang (Option FlagWriteResult)
  | .set call => do
    let result ← FlagWriteService.set rt t call
    pure (some result)
  | .setEnvironments names => do
    Prog.modify (S := lang) fun s => { s with environments := names }
    pure none
  | .transaction requests => do
    Prog.op (S := lang) (.transaction requests)
    pure none

/-- Nothing but a set writes `flags.yaml`. -/
def Request.elsewhere : Request → Prop
  | .transaction requests => ∀ r ∈ requests, r.path ≠ "flags.yaml"
  | _ => True

def service : System lang Request (Option FlagWriteResult) where
  sem := sem rt contentHash
  body := serve rt
  mayArrive _ c := c.elsewhere

/-- The service has just started. -/
def Started (s : State) : Prop := s.effects = []

end

end ConfigRegistry.Flags
