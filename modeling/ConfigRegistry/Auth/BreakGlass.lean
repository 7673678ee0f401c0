import ConfigRegistry.Async.Drive
import ConfigRegistry.Auth.Totp
import ConfigRegistry.Boot.RepositoryState
import Mathlib.Algebra.Ring.Rat

/-!
# The break-glass credential

`src/boot/repository-state.ts` and `src/auth/break-glass.ts`, with what `src/server.ts` makes of
them: the state that every reload refreshes, and the sign-in that was given the record of that state
when the service booted. What the functions a reload is given do, and whether iam answers, is up to
the world.
-/

namespace ConfigRegistry.Auth

open Js Async Boot Identity Schema

/-- What `RepositoryState` holds. -/
structure RepositoryState where
  registry : ServiceRegistry
  schemas : SchemaSet
  record : Option BreakGlassRecord

/-- `BreakGlassAlert['outcome']`. -/
inductive Outcome where
  | succeeded
  | failed
  | refused_iam_up
deriving DecidableEq

/-- `BreakGlassAlert`, with the call that raised it. -/
structure BreakGlassAlert where
  attempt : Nat
  outcome : Outcome
  at_ : Int
deriving DecidableEq

/-- An attempt that was accepted, with the step it spent and the record that the repository state
held at that moment. -/
structure Accepted where
  attempt : Nat
  password : String
  code : String
  now : Int
  counter : Int
  held : Option BreakGlassRecord

structure Process where
  repository : RepositoryState
  /-- `BreakGlassOptions.record`. -/
  record : Option BreakGlassRecord
  lastUsedCounter : Option Int := none
  /-- Every alert that was raised, newest first. -/
  alerts : List BreakGlassAlert := []
  /-- Beside the code: what each attempt was told of iam, and the attempts that were accepted, newest
  first. -/
  reachable : List (Nat × Bool) := []
  accepted : List Accepted := []

/-- The operations of a reload and of an attempt. -/
inductive Op where
  /-- `readFile('services.yaml')`. -/
  | readServices
  | loadSchemas
  /-- `readFile(breakGlassPath)`. -/
  | readBreakGlass (path : String)
  | decrypt (path source : String)
  | onCache
  /-- `isIamReachable()`, asked by attempt `t`. -/
  | isIamReachable (t : Nat)
  | randomBytes (size : Nat)
  | scrypt (password : String) (salt : Bytes) (keyLength : Nat) (n r p : Number)

abbrev Op.Res : Op → Type
  | .readServices | .readBreakGlass _ | .decrypt _ _ => String
  | .loadSchemas => List (String × String)
  | .isIamReachable _ => Bool
  | .randomBytes _ | .scrypt _ _ _ _ _ _ => Bytes
  | .onCache => Unit

abbrev lang : Sig where
  State := Process
  Err := Error
  Op := Op
  Res := Op.Res

/-- Await an operation. -/
abbrev op (o : Op) : Prog lang o.Res := Prog.op (S := lang) o

/-- A computation of the current turn. -/
def lift {α : Type} (r : Except Error α) : Prog lang α := Prog.done (S := lang) r

/-! ### Reloading -/

/-- Which of the optional `RepositoryStateOptions` there are. -/
structure RepositoryStateOptions where
  breakGlassPath : Option String
  decrypt : Bool := true
  onCache : Bool := true

section

variable (rt : Runtime)

/-- Replace a part of the repository state. -/
def setState (f : RepositoryState → RepositoryState) : Prog lang Unit :=
  Prog.modify (S := lang) fun s => { s with repository := f s.repository }

/-- The table that `services.yaml` holds. -/
def tableOf (source : String) : Except Error ServiceRegistry :=
  match ServiceRegistry.fromYaml rt.parseYaml source with
  | .ok table => .ok table
  -- Only logged, so the list of issues is left out of the message.
  | .error _ => .error (.of "services.yaml is invalid")

/-- `reloadRegistry`. -/
def reloadRegistry : Prog lang Unit :=
  .handle (do
    let source ← op .readServices
    let registry ← lift (tableOf rt source)
    setState fun s => { s with registry })
    fun _ => pure ()

/-- `reloadSchemas`. -/
def reloadSchemas : Prog lang Unit :=
  .handle (do
    let files ← op .loadSchemas
    let schemas ← lift (SchemaSet.fromFiles rt files)
    setState fun s => { s with schemas })
    fun _ => pure ()

/-- The record that a decrypted document holds, when it is complete. -/
def parseRecord (decrypted : String) : Except Error BreakGlassRecord := do
  match recordOf (← rt.parseYaml decrypted) with
  | some record => .ok record
  | none => .error (.of "the break-glass record is missing fields")

/-- `this.options.decrypt ? await this.options.decrypt(path, source) : source`. -/
def decryptRecord (options : RepositoryStateOptions) (path source : String) : Prog lang String :=
  if options.decrypt then op (.decrypt path source) else pure source

/-- `reloadBreakGlass`. -/
def reloadBreakGlass (options : RepositoryStateOptions) : Prog lang Unit :=
  match options.breakGlassPath with
  | none => pure ()
  | some path => do
    match ← (op (.readBreakGlass path)).attempt with
    | .error _ => setState fun s => { s with record := none }
    | .ok source =>
      .handle (do
        let decrypted ← decryptRecord options path source
        let record ← lift (parseRecord rt decrypted)
        setState fun s => { s with record := some record })
        fun _ => pure ()

/-- `RepositoryState.reload`. -/
def reload (options : RepositoryStateOptions) : Prog lang Unit := do
  reloadRegistry rt
  reloadSchemas rt
  reloadBreakGlass rt options
  if options.onCache then op .onCache else pure ()

end

/-! ### Signing in -/

/-- `BreakGlassActor`. -/
structure BreakGlassActor where
  email : Value
  id : String

/-- `Denied`. -/
structure Denied where
  code : String
  detail : String
deriving DecidableEq

/-- `DENIED`. -/
def denied : Denied := ⟨"break_glass_denied", "Break-glass sign-in is not available."⟩

def keyLength : Nat := 32

/-- What a stored hash says: the parameters, the salt and the derived key. -/
structure StoredHash where
  n : String
  r : String
  p : String
  salt : String
  hash : String

/-- `stored.split('$')`, when all of its parts are there. -/
def StoredHash.parse (stored : String) : Option StoredHash :=
  match (stored.toList.splitOn '$').map String.ofList with
  | scheme :: n :: r :: p :: salt :: hash :: _ =>
    if scheme ≠ "scrypt" ∨ n = "" ∨ r = "" ∨ p = "" ∨ salt = "" ∨ hash = "" then none
    else some { n, r, p, salt, hash }
  | _ => none

section

variable (crypto : Crypto)

/-- The key that a password derives under the parameters of a stored hash. -/
def StoredHash.derive (stored : StoredHash) (password : String) : Except Error Bytes :=
  crypto.scrypt password (crypto.fromBase64 stored.salt) (crypto.fromBase64 stored.hash).length
    (crypto.number stored.n) (crypto.number stored.r) (crypto.number stored.p)

/-- `hashPassword`; nothing here uses the text it makes. -/
def hashPassword (password : String) : Prog lang Unit := do
  let salt ← op (.randomBytes 16)
  let _ ← op (.scrypt password salt keyLength (.fin (2 ^ 15)) (.fin 8) (.fin 1))
  pure ()

/-- `verifyPassword`. -/
def verifyPassword (password : String) (stored : Value) : Prog lang Bool :=
  match stored with
  | .str text =>
    match StoredHash.parse text with
    | none => pure false
    | some stored => do
      let expected := crypto.fromBase64 stored.hash
      let derived ← op (.scrypt password (crypto.fromBase64 stored.salt) expected.length
        (crypto.number stored.n) (crypto.number stored.r) (crypto.number stored.p))
      pure (derived == expected)
  | _ => .fail (.of "stored.split is not a function")

/-- `decodeBase32` of a field that may be no text. -/
def secretOf : Value → Except Error Bytes
  | .str text => decodeBase32 crypto text
  | _ => .error (.of "input.toUpperCase is not a function")

/-- `this.options.alert(…)`. -/
def alert (t : Nat) (outcome : Outcome) (now : Int) : Prog lang Unit :=
  Prog.modify (S := lang) fun s => { s with alerts := ⟨t, outcome, now⟩ :: s.alerts }

/-- The step is spent, and the alert raised. -/
def Process.accept (s : Process) (t : Nat) (password code : String) (now counter : Int) : Process :=
  { s with
    lastUsedCounter := some counter
    alerts := ⟨t, .succeeded, now⟩ :: s.alerts
    accepted := ⟨t, password, code, now, counter, s.repository.record⟩ :: s.accepted }

/-- `BreakGlass.attempt`, called at the clock reading `now`. -/
def attempt (t : Nat) (password code : String) (now : Int) :
    Prog lang (Except Denied BreakGlassActor) := do
  let record := (← Prog.get (S := lang)).record
  if ← op (.isIamReachable t) then
    alert t .refused_iam_up now
    pure (.error denied)
  else
    match record with
    | none =>
      hashPassword password
      alert t .failed now
      pure (.error denied)
    | some record =>
      let passwordOk ← verifyPassword crypto password record.passwordHash
      let secret ← lift (secretOf crypto record.totpSecret)
      let last := (← Prog.get (S := lang)).lastUsedCounter
      let totp ← lift (verifyTotp crypto code secret now 6 last)
      -- Both are evaluated before either is judged.
      match passwordOk, totp with
      | true, some counter =>
        Prog.modify (S := lang) fun s => s.accept t password code now counter
        pure (.ok ⟨record.actorEmail, s!"break-glass:{totpCounter now}"⟩)
      | _, _ =>
        alert t .failed now
        pure (.error denied)

/-- What the service is asked for: a reload of the repository state, or an attempt to sign in at a
clock reading. -/
inductive Request where
  | reload
  | attempt (password code : String) (now : Int)

/-- What a request answers: nothing, or the result of the attempt. -/
abbrev Answer : Type := Option (Except Denied BreakGlassActor)

/-- The program of a request. -/
def serve (rt : Runtime) (options : RepositoryStateOptions) (t : Nat) : Request → Prog lang Answer
  | .reload => do
    reload rt options
    pure none
  | .attempt password code now => do
    let result ← attempt crypto t password code now
    pure (some result)

/-- What an operation may answer. -/
def Op.answers : (o : Op) → Process → Except Error o.Res → Process → Prop
  | .isIamReachable t, s, r, s' => ∃ b, r = .ok b ∧ s' = { s with reachable := (t, b) :: s.reachable }
  | .scrypt password salt keyLength n r p, s, r', s' =>
    r' = crypto.scrypt password salt keyLength n r p ∧ s' = s
  | .randomBytes _, s, r, s' => r.isOk = true ∧ s' = s
  -- The functions a reload is given answer what they like.
  | _, s, _, s' => s' = s

abbrev sem : Sem lang where
  step o s r s' := o.answers crypto s r s'
  torn _ _ _ := False
  crash _ _ := False

def service (rt : Runtime) (options : RepositoryStateOptions) : System lang Request Answer where
  sem := sem crypto
  body := serve crypto rt options

/-- The service has just booted: the sign-in was given the record of the repository state. -/
structure Booted (s : Process) : Prop where
  record : s.record = s.repository.record
  lastUsedCounter : s.lastUsedCounter = none
  alerts : s.alerts = []
  reachable : s.reachable = []
  accepted : s.accepted = []

/-! ### Schedules -/

/-- What a schedule has an operation answer. -/
inductive Choice where
  | text (content : String)
  | reachable (up : Bool)
  /-- What there is to answer without a choice. -/
  | done
  | fails (e : Error)

/-- The operations, executable. -/
def perform : Choice → (o : Op) → Process → Option (Except Error o.Res × Process)
  | .reachable up, .isIamReachable t, s => some (.ok up, { s with reachable := (t, up) :: s.reachable })
  | .done, .scrypt password salt keyLength n r p, s =>
    some (crypto.scrypt password salt keyLength n r p, s)
  | .done, .randomBytes size, s => some (.ok (List.replicate size 0), s)
  | .done, .loadSchemas, s => some (.ok [], s)
  | .done, .onCache, s => some (.ok (), s)
  | .text content, .readServices, s => some (.ok content, s)
  | .text content, .readBreakGlass _, s => some (.ok content, s)
  | .text content, .decrypt _ _, s => some (.ok content, s)
  | .fails e, .readServices, s => some (.error e, s)
  | .fails e, .readBreakGlass _, s => some (.error e, s)
  | _, _, _ => none

theorem answers_of_perform {c : Choice} {o : Op} {s s' : Process} {r : Except Error o.Res}
    (h : perform crypto c o s = some (r, s')) : o.answers crypto s r s' := by
  unfold perform at h
  split at h
  case h_1 => cases h; exact ⟨_, rfl, rfl⟩
  case h_2 => cases h; exact ⟨rfl, rfl⟩
  case h_3 => cases h; exact ⟨rfl, rfl⟩
  case h_11 => cases h
  all_goals cases h; rfl

def serviceDriver (rt : Runtime) (options : RepositoryStateOptions) :
    Driver lang Request Answer Choice where
  body := serve crypto rt options
  perform := perform crypto

theorem serviceDriver_follows (rt : Runtime) (options : RepositoryStateOptions) :
    (serviceDriver crypto rt options).Follows (service crypto rt options) where
  body := rfl
  allow _ _ _ := trivial
  allowArrive _ _ _ := trivial
  step _ _ _ _ _ h := answers_of_perform crypto h
  cut _ _ _ _ h := nomatch h
  crash _ _ h := nomatch h

end

/-- The salt and the key of the password `opensesame`, under the least parameters. -/
def sampleSalt : Bytes := [115, 97, 108, 116]

def sampleKey : Bytes := [243, 196, 250, 191, 44, 34, 233, 131]

/-- The functions as they are on the texts of the runs below: the secret is the one of the published
test vectors of one-time passwords. -/
def sampleCrypto : Crypto where
  scrypt password salt keyLength n r p :=
    if password = "opensesame" ∧ salt = sampleSalt ∧ keyLength = 8 ∧ n = .fin 2 ∧ r = .fin 1 ∧ p = .fin 1
    then .ok sampleKey
    else .error (.of "not in the sample")
  hmacSha1 _ message :=
    if message = [0, 0, 0, 0, 0, 0, 0, 1] then
      [117, 164, 138, 25, 212, 203, 225, 0, 100, 78, 138, 193, 57, 126, 234, 116, 122, 45, 51, 171]
    else if message = [0, 0, 0, 0, 0, 0, 0, 2] then
      [11, 172, 183, 250, 8, 47, 239, 48, 120, 34, 17, 147, 139, 193, 197, 231, 4, 22, 255, 68]
    else []
  fromBase64 text :=
    if text = "c2FsdA==" then sampleSalt else if text = "88T6vywi6YM=" then sampleKey else []
  number text := if text = "2" then .fin 2 else if text = "1" then .fin 1 else .nan
  toUpperCase := id
  isSpace c := c == ' '

def sampleRecord : BreakGlassRecord where
  passwordHash := .str "scrypt$2$1$1$c2FsdA==$88T6vywi6YM="
  totpSecret := .str "GEZDGNBVGY3TQOJQGEZDGNBVGY3TQOJQ"
  actorEmail := .str "ops@example.com"

/-- A service that booted with the record. -/
def sampleProcess : Process where
  repository := { registry := noServices, schemas := ⟨[]⟩, record := some sampleRecord }
  record := some sampleRecord

theorem sampleProcess_booted : Booted sampleProcess := ⟨rfl, rfl, rfl, rfl, rfl⟩

end ConfigRegistry.Auth
