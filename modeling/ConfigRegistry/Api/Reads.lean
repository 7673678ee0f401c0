import ConfigRegistry.Api.Response
import ConfigRegistry.Async.Drive

/-!
# Reading

The read route of `src/routes/internal.ts`. A caller that already has the current commit is held
until the cache moves on or a timer fires; meanwhile the grant table, the schemas and the cache are
each replaced by whatever the rest of the service does.
-/

namespace ConfigRegistry.Api

open Js Async Identity Schema Store

/-- A request: the uid of the connection and whether it can be read, now and once more after a wait,
the namespace, and the commit the caller has. -/
structure Call where
  uid : Nat
  readable : Bool
  readableLater : Bool
  service : String
  environment : String
  since : Option String

/-- `${service}/${environment}`. -/
def Call.onNamespace (call : Call) : String := call.service ++ "/" ++ call.environment

/-- `resolver.resolve(socket).uid`. -/
def Call.credentials (call : Call) (readable : Bool) : Except Error Nat :=
  if readable then .ok call.uid
  else .error (.of "could not read peer credentials from the socket")

/-- A waiter: the call that registered it, and the commit that call has. -/
structure Listener where
  call : Nat
  since : String
deriving DecidableEq

/-- A response that was sent, with the table and the commit in force at that moment. -/
structure Sent where
  t : Nat
  call : Call
  reply : Reply
  registry : ServiceRegistry
  commit : Option Nat

/-- What the read API is given and keeps. -/
structure State where
  registry : ServiceRegistry
  schemas : SchemaSet
  cache : ConfigCache
  guard : AccessGuard := {}
  listeners : List Listener := []
  /-- What `onRead` was told, newest first. -/
  reads : List ReadLogEntry := []
  /-- Beside the code: the tables that were in force before, and all that was sent, newest first. -/
  past : List ServiceRegistry := []
  sent : List Sent := []

/-- Every table that was in force, newest first. -/
def State.tables (s : State) : List ServiceRegistry := s.registry :: s.past

inductive Op where
  /-- The promise of `waitForChange`, of call `t`. -/
  | change (t : Nat) (since : String)

abbrev Op.Res : Op → Type
  | .change _ _ => Unit

abbrev lang : Sig where
  State := State
  Err := Error
  Op := Op
  Res := Op.Res

/-- `cache.commit() === since`. -/
def isAt (cache : ConfigCache) (since : String) : Bool := cache.commit.map toString == some since

/-- `unsubscribe()`, by call `t`. -/
def State.unsubscribe (s : State) (t : Nat) : State :=
  { s with listeners := s.listeners.filter fun l => l.call != t }

/-- A waiter that has been woken has unsubscribed. One that is still there is woken by its timer. -/
abbrev sem : Sem lang where
  step | .change t _, s, r, s' => r = .ok () ∧ s' = s.unsubscribe t
  torn _ _ _ := False
  crash _ _ := False

/-! ### The route -/

/-- `guard.authorize(socket, namespace)`. -/
def authorize (call : Call) (readable : Bool) : Prog lang (Except Denied ServiceIdentity) :=
  .turn
    (fun s => { s with
      guard := (s.guard.authorize s.registry (call.credentials readable) call.onNamespace).2 })
    fun s => pure (s.guard.authorize s.registry (call.credentials readable) call.onNamespace).1

/-- `reply.send(…)`. -/
def send (t : Nat) (call : Call) (reply : Reply) : Prog lang Reply := do
  Prog.modify (S := lang) fun s =>
    { s with sent := ⟨t, call, reply, s.registry, s.cache.commit⟩ :: s.sent }
  pure reply

/-- The response with the values, or that there are none. -/
def sendConfig (t : Nat) (call : Call) (identity : ServiceIdentity) : Prog lang Reply := do
  let s ← Prog.get (S := lang)
  let answer := respond s.cache s.schemas identity call.service call.environment
  Prog.modify (S := lang) fun s => { s with reads := answer.1 :: s.reads }
  send t call answer.2

/-- `waitForChange`. -/
def waitForChange (t : Nat) (since : String) : Prog lang Unit := do
  Prog.modify (S := lang) fun s => { s with listeners := s.listeners ++ [⟨t, since⟩] }
  -- The commit may already have moved.
  Prog.modify (S := lang) fun s => if isAt s.cache since then s else s.unsubscribe t
  Prog.op (S := lang) (.change t since)

/-- The caller is up to date: it is held, and judged again. -/
def hold (t : Nat) (call : Call) (identity : ServiceIdentity) (since : String) :
    Prog lang Reply := do
  waitForChange t since
  match ← authorize call call.readableLater with
  | .error problem => send t call (.forbidden problem)
  | .ok _ =>
    if isAt (← Prog.get (S := lang)).cache since then send t call .notModified
    else sendConfig t call identity

/-- The commit for which the request is held. -/
def Call.holdsFor (call : Call) (cache : ConfigCache) : Option String :=
  call.since.filter fun since => since != "" && isAt cache since

/-- `GET /config/:service/:environment`. -/
def readConfig (t : Nat) (call : Call) : Prog lang Reply := do
  match ← authorize call call.readable with
  | .error problem => send t call (.forbidden problem)
  | .ok identity =>
    match call.holdsFor (← Prog.get (S := lang)).cache with
    | some since => hold t call identity since
    | none => sendConfig t call identity

/-! ### The rest of the service -/

/-- `cache.reload(tree, { flagsByEnvironment })`: waiters that see another commit are woken. -/
def State.reload (s : State) (tree : ConfigTree)
    (flagsByEnvironment : List (String × List (String × Bool))) : State :=
  { s with
    cache := s.cache.reload tree flagsByEnvironment
    listeners := s.listeners.filter fun l => isAt (s.cache.reload tree flagsByEnvironment) l.since }

/-- A table replaces the one in force. -/
def State.setRegistry (s : State) (table : ServiceRegistry) : State :=
  { s with registry := table, past := s.registry :: s.past }

/-- What happens to the read API. -/
inductive Request where
  | read (call : Call)
  | setRegistry (table : ServiceRegistry)
  | setSchemas (set : SchemaSet)
  | reload (tree : ConfigTree) (flagsByEnvironment : List (String × List (String × Bool)))
  | markSynced (commit : String)

def serve (t : Nat) : Request → Prog lang (Option Reply)
  | .read call => do
    let reply ← readConfig t call
    pure (some reply)
  | .setRegistry table => do
    Prog.modify (S := lang) fun s => s.setRegistry table
    pure none
  | .setSchemas set => do
    Prog.modify (S := lang) fun s => { s with schemas := set }
    pure none
  | .reload tree flagsByEnvironment => do
    Prog.modify (S := lang) fun s => s.reload tree flagsByEnvironment
    pure none
  | .markSynced commit => do
    Prog.modify (S := lang) fun s => { s with cache := { s.cache with synced := some commit } }
    pure none

def service : System lang Request (Option Reply) where
  sem := sem
  body := serve

/-- The read API has just been built, over any table, schemas and cache. -/
structure Built (s : State) : Prop where
  guard : s.guard = {}
  listeners : s.listeners = []
  reads : s.reads = []
  past : s.past = []
  sent : s.sent = []

/-- The read API on a schedule. -/
def serviceDriver : Driver lang Request (Option Reply) Unit where
  body := serve
  perform | _, .change t _, s => some (.ok (), s.unsubscribe t)

theorem serviceDriver_follows : serviceDriver.Follows service where
  body := rfl
  allow _ _ _ := trivial
  allowArrive _ _ _ := trivial
  step c o s r s' h := by
    cases o
    cases h
    exact ⟨rfl, rfl⟩
  cut _ _ _ _ h := nomatch h
  crash _ _ h := nomatch h

/-- Uid 1002 may read `payments/prod`, of which revision 0 is served. -/
def samplePayments : State where
  registry :=
    { services := [{ name := "payments", uid := 1002, namespaces := ["payments/prod"] }]
      version := 1
      unique := by simp }
  schemas := ⟨[]⟩
  cache := { tree := some ⟨0, [("payments/prod", [("apiKey", .str "first")])]⟩ }

theorem samplePayments_built : Built samplePayments := ⟨rfl, rfl, rfl, rfl, rfl⟩

end ConfigRegistry.Api
