import ConfigRegistry.Async.Prog
import ConfigRegistry.Engine.Language
import ConfigRegistry.Fs.Trees

/-!
# Durable files and the redo journal

`src/store/file-writer.ts`, `src/store/transaction-journal.ts` and `src/store/database-path.ts`.
-/

namespace ConfigRegistry.Engine

open Js Async Fs Store

/-- A file of a transaction, as its intent records it. -/
structure Mutation where
  path : String
  hash : Option String
  actor : Option String
  keys : List String
deriving DecidableEq

/-- `TransactionIntent`. -/
structure Intent where
  revision : Nat
  files : List Mutation
deriving DecidableEq

/-- `PreparedTransaction`. -/
structure Prepared where
  id : String
  files : List Mutation

/-- What the engine takes from its runtime: SHA-256, the identifiers that `randomUUID` gives one after the
other, the number of the process, and the text of an intent, written by `JSON.stringify` and read by
`JSON.parse` and the shape check. -/
structure Host where
  contentHash : String → String
  uuid : Nat → String
  pid : String
  encode : Intent → String
  decode : String → Except Error Intent

/-- A synchronous check, within a turn. -/
def lift {α : Type} (r : Except Error α) : Prog lang α := .done r

/-- The place that a path names. -/
def placeOf (path : String) : Place := (path.toList.splitOn '/').map String.ofList

/-- `databasePath`. -/
def databasePath (path : String) : Except Error Place :=
  if isDatabasePath path then .ok (placeOf path) else .error (.of s!"invalid database path: {path}")

/-- `assertNoSymlinks`. -/
def assertNoSymlinks (path : String) : Prog lang Unit := do
  let place ← lift (databasePath path)
  Prog.each (place.inits.map base) fun candidate => do
    match ← (Prog.op (S := lang) (.lstat candidate)).attempt with
    | .ok .link => Prog.fail (.of s!"symlink in database path: {path}")
    | .ok _ => pure ()
    | .error e => if e.isMissing then pure () else Prog.fail e

/-- `readOptional`. -/
def readOptional (place : Place) : Prog lang (Option String) := do
  match ← (Prog.op (S := lang) (.readFile place)).attempt with
  | .ok text => pure (some text)
  | .error e => if e.isMissing then pure none else Prog.fail e

section

variable (host : Host)

/-- `randomUUID`. -/
def randomUUID : Prog lang String :=
  .turn (fun s => { s with drawn := s.drawn + 1 }) fun s => pure (host.uuid s.drawn)

/-! ### `FileWriter` -/

def syncDirectory (place : Place) : Prog lang Unit := Prog.op (S := lang) (.sync place)

/-- `ensureDirectory`: the links of new directories are made durable, from the inside out. -/
def ensureDirectory (place : Place) : Prog lang Unit := do
  match ← Prog.op (S := lang) (.mkdir place) with
  | none => pure ()
  | some first =>
    Prog.each (place.inits.filter fun p => (dirname first).length ≤ p.length).reverse syncDirectory

/-- The name of a file until it is complete: `${path}.${process.pid}.${randomUUID()}.tmp`. -/
def temporary (place : Place) (id : String) : Place :=
  place.dropLast ++ [place.getLastD "" ++ "." ++ host.pid ++ "." ++ id ++ ".tmp"]

/-- `write`. -/
def write (place : Place) (content : String) : Prog lang Unit := do
  ensureDirectory (dirname place)
  let id ← randomUUID host
  Prog.handle
    (do
      Prog.op (S := lang) (.create (temporary host place id) content)
      Prog.op (S := lang) (.rename (temporary host place id) place)
      syncDirectory (dirname place))
    fun cause => do
      let _ ← (Prog.op (S := lang) (.rm (temporary host place id))).attempt
      Prog.fail cause

/-- `remove`. -/
def remove (place : Place) : Prog lang Unit := do
  Prog.op (S := lang) (.rm place)
  syncDirectory (dirname place)

/-- `install`. -/
def install (staged target : Place) : Prog lang Unit := do
  ensureDirectory (dirname target)
  Prog.op (S := lang) (.rename staged target)
  syncDirectory (dirname target)
  syncDirectory (dirname staged)

/-! ### `TransactionJournal` -/

def staged (id : String) (index : Nat) : Place := transaction id ++ [s!"{index}.stage"]

/-- `complete`. -/
def complete (id : String) : Prog lang Unit := do
  Prog.op (S := lang) (.rmAll (transaction id))
  syncDirectory directory

/-- What an intent records of a request. -/
def mutationOf (request : MutationRequest) : Mutation where
  path := request.path
  hash := request.content.map host.contentHash
  actor := if request.actor = "" then none else some request.actor
  keys := request.keys

/-- `prepare`. -/
def prepare (files : List MutationRequest) : Prog lang Prepared := do
  let id ← randomUUID host
  let _ ← Prog.op (S := lang) (.mkdir (transaction id))
  syncDirectory []
  syncDirectory [".journal"]
  syncDirectory directory
  Prog.handle
    (do
      Prog.each files.zipIdx fun (file, index) =>
        match file.content with
        | some content => write host (staged id index) content
        | none => pure ()
      pure ⟨id, files.map (mutationOf host)⟩)
    fun cause => do
      complete id
      Prog.fail cause

/-- `recordIntent`. -/
def recordIntent (prepared : Prepared) (revision : Nat) : Prog lang Intent := do
  let intent : Intent := ⟨revision, prepared.files⟩
  write host (intentFile prepared.id) (host.encode intent)
  pure intent

/-- Whether a file is as an intent has it. -/
def Mutation.matches_ (file : Mutation) (current : Option String) : Bool := current.map host.contentHash == file.hash

/-- The payload of a file that is still to be replaced is checked before anything is. -/
def checkPayload (id : String) (file : Mutation) (index : Nat) : Prog lang Unit := do
  assertNoSymlinks file.path
  if file.hash.isNone then pure ()
  else do
    let target ← readOptional (placeOf file.path)
    if file.matches_ host target then pure ()
    else do
      let payload ← readOptional (staged id index)
      if file.matches_ host payload then pure ()
      else Prog.fail (.of s!"cannot recover transaction {id}: payload {index} is missing or corrupt")

/-- One file is removed or replaced, where it has not been. -/
def applyFile (id : String) (file : Mutation) (index : Nat) : Prog lang Unit := do
  let current ← readOptional (placeOf file.path)
  if file.matches_ host current then pure ()
  else if file.hash.isNone then remove (placeOf file.path)
  else install (staged id index) (placeOf file.path)

/-- `apply`. -/
def apply (id : String) (intent : Intent) : Prog lang Unit := do
  Prog.each intent.files.zipIdx fun (file, index) => checkPayload host id file index
  Prog.each intent.files.zipIdx fun (file, index) => applyFile host id file index

/-- `/^[a-f0-9-]{36}$/`. -/
def isTransactionId (name : String) : Bool :=
  name.length == 36 && name.toList.all fun c => ('a' ≤ c && c ≤ 'f') || c.isDigit || c == '-'

/-- One directory of the journal: a transaction that is to be finished, or the rest of one that never was. -/
def pendingOf (id : String) : Prog lang (Option (String × Intent)) := do
  if !isTransactionId id then Prog.fail (.of "unrecognized transaction directory")
  else do
    match ← readOptional (intentFile id) with
    | none => do
      complete id
      pure none
    | some source => do
      let intent ← lift (host.decode source)
      Prog.each intent.files fun file => do
        let _ ← lift (databasePath file.path)
        pure ()
      pure (some (id, intent))

/-- `pending`: the transactions that are to be finished, in the order of their revisions. -/
def pending : Prog lang (List (String × Intent)) := do
  match ← (Prog.op (S := lang) (.readdir directory)).attempt with
  | .error e => if e.isMissing then pure [] else Prog.fail e
  | .ok entries => do
    let found ← Prog.collect (entries.map Prod.fst) (pendingOf host)
    pure ((found.filterMap id).insertionSort fun a b => a.2.revision ≤ b.2.revision)

end

end ConfigRegistry.Engine
