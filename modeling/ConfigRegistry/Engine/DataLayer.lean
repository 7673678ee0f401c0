import ConfigRegistry.Engine.Journal
import ConfigRegistry.Store.Views

/-!
# The data engine

`DBEngine` of `src/store/data-layer.ts`: its calls as programs. `t` is the number of the call, which takes its
turns at the locks under it.
-/

namespace ConfigRegistry.Engine

open Js Async Fs Store

/-- `withLock`. -/
def withLock {α : Type} (lock : Lock) (t : Nat) (body : Prog lang α) : Prog lang α := do
  Prog.modify (S := lang) (State.enqueue · lock t)
  Prog.op (S := lang) (.enter lock t)
  Prog.ensure body (Prog.modify (S := lang) (State.release · lock))

/-- `withPaths`. -/
def withPaths {α : Type} (t : Nat) (paths : List String) (body : Prog lang α) : Prog lang α :=
  match paths with
  | [] => body
  | path :: remaining => withLock (.path path) t (withPaths t remaining body)

/-- What a validator reports. -/
structure FieldError where
  key : String
  message : String
deriving DecidableEq

/-- `MutationRequest`, with its validator, which may throw. -/
structure Request extends MutationRequest where
  validate : String → Except Error (List FieldError)

/-- `BatchWriteResult`. -/
inductive Result where
  | written (revision : Nat) (etags : List (String × String))
  | unchanged (revision : Nat) (etags : List (String × String))
  | conflict (path : String) (actual : Option String) (revision : Nat)
  | invalid (path : String) (errors : List FieldError)
deriving DecidableEq

/-- A call of `writeMany`. -/
structure Batch where
  requests : List Request
  checks : List ReadPrecondition := []
  collections : List CollectionPrecondition := []

/-- White space, as `\s` and `trim` have it. -/
def isSpace (c : Char) : Bool :=
  c.toNat ∈ [9, 10, 11, 12, 13, 32, 160, 5760, 8232, 8233, 8239, 8287, 12288, 65279] ||
    (8192 ≤ c.toNat && c.toNat ≤ 8202)

/-- The number that `.revision` holds. -/
def parseRevision (source : String) : Except Error Nat :=
  let digits := source.toList.takeWhile Char.isDigit
  let value := Nat.ofDigitChars 10 digits 0
  if digits ≠ [] ∧ (source.toList.dropWhile Char.isDigit).all isSpace ∧ value ≤ maxSafeInteger then .ok value
  else .error (.of "invalid database revision")

/-- `revisionUnlocked`. -/
def revisionUnlocked : Prog lang Nat := do
  match ← readOptional [".revision"] with
  | none => pure 0
  | some source => lift (parseRevision source)

/-- `readUnlocked`. -/
def readUnlocked (path : String) : Prog lang (Option String) := do
  assertNoSymlinks path
  readOptional (placeOf path)

/-- `assertHealthy`. -/
def assertHealthy : Prog lang Unit := do
  let s ← Prog.get (S := lang)
  if s.recoveryRequired then
    Prog.fail (.of "database recovery required; restart before reading or writing")
  else pure ()

section

variable (host : Host)

/-- The event of a file. -/
def eventOf (id : String) (intent : Intent) (file : Mutation) : WriteEvent where
  path := file.path
  revision := intent.revision
  etag := file.hash.getD ""
  actor := file.actor
  keys := file.keys
  transactionId := id

/-- `.revision` is written where it is not the transaction's yet. -/
def recordRevision (current revision : Nat) : Prog lang Unit :=
  if current = revision then pure () else write host [".revision"] (toString revision ++ "\n")

/-- `finish`. -/
def finish (id : String) (intent : Intent) : Prog lang Unit := do
  let current ← revisionUnlocked
  if current > intent.revision ∨ current + 1 < intent.revision then
    Prog.fail (.of s!"cannot recover transaction {id}: unexpected revision")
  else do
    apply host id intent
    recordRevision host current intent.revision
    Prog.each intent.files fun file => Prog.op (S := lang) (.emit (eventOf id intent file))
    complete id

/-- What the first recovery does. -/
def recoverPending : Prog lang Unit := do
  let found ← pending host
  Prog.each found fun (id, intent) => finish host id intent

/-- The first call runs the recovery that all wait for. -/
def begin_ (t : Nat) : Prog lang Unit := do
  let s ← Prog.get (S := lang)
  match s.ready with
  | .absent => do
    Prog.modify (S := lang) fun s => { s with ready := .running t }
    let r ← (withLock .publication t (recoverPending host)).attempt
    Prog.modify (S := lang) fun s => { s with ready := .settled r }
  | _ => pure ()

/-- `recover`. -/
def recover (t : Nat) : Prog lang Unit := do
  begin_ host t
  Prog.op (S := lang) .first
  assertHealthy

/-- A read under the publication lock. -/
def published {α : Type} (t : Nat) (body : Prog lang α) : Prog lang α := do
  recover host t
  withLock .publication t do
    assertHealthy
    body

/-- `read`. -/
def read (t : Nat) (path : String) : Prog lang (Option String) := do
  let _ ← lift (databasePath path)
  published host t (readUnlocked path)

/-- `etag`. -/
def etag (t : Nat) (path : String) : Prog lang (Option String) := do
  let content ← read host t path
  pure (content.map host.contentHash)

/-- `revision`. -/
def revision (t : Nat) : Prog lang Nat := published host t revisionUnlocked

/-- The names of a path that is joined to the root. -/
def joined (path : String) : Place := (placeOf path).filter (· != "")

/-- The check of a directory before it is read; the root is not checked. -/
def checkDirectory (path : String) : Prog lang Unit := if path = "" then pure () else assertNoSymlinks path

/-- `visit`, of `snapshot`. The directories that are below one another are not more than `depth`. -/
def visit (depth : Nat) (path : String) : Prog lang (List (String × String)) :=
  match depth with
  | 0 => Prog.fail (.of "the tree is deeper than it has entries")
  | depth + 1 => do
    checkDirectory path
    match ← (Prog.op (S := lang) (.readdir (joined path))).attempt with
    | .error e => if e.isMissing then pure [] else Prog.fail e
    | .ok entries => do
      let found ← Prog.collect entries fun (name, kind) =>
        if isPrivate name then pure []
        else
          let child := Fs.child path name
          match kind with
          | .link => Prog.fail (.of s!"symlink in database path: {child}")
          | .dir => visit depth child
          | .file => do
            match ← readOptional (joined child) with
            | none => pure []
            | some content => pure [(child, content)]
      pure found.flatten

/-- `snapshot`. -/
def snapshot (t : Nat) (pre : String) : Prog lang (Nat × List (String × String)) := do
  lift (if pre = "" then .ok () else (databasePath pre).map fun _ => ())
  published host t do
    let s ← Prog.get (S := lang)
    let files ← visit (s.disk.entries.length + 2) pre
    let revision ← revisionUnlocked
    pure (revision, files)

/-- What the validators report, unless one of them throws. -/
def validateAll : List Request → Except Error (List FieldError)
  | [] => .ok []
  | request :: requests => do
    let errors ← match request.content with
      | none => .ok []
      | some content => request.validate content
    let others ← validateAll requests
    pure (errors ++ others)

/-- The names of the documents in a directory; one that is absent has none. -/
def documentNames (path : String) : Prog lang (List String) := do
  assertNoSymlinks path
  match ← (Prog.op (S := lang) (.readdir (placeOf path))).attempt with
  | .ok entries => pure (sortTexts ((entries.map Prod.fst).filter fun name => endsWith name ".yaml"))
  | .error e => if e.isMissing then pure [] else Prog.fail e

/-- What was staged is removed. -/
def abandon : Option Prepared → Prog lang Unit
  | some prepared => complete prepared.id
  | none => pure ()

/-- A conflict that is found once the payloads are staged. -/
def refuse (prepared : Option Prepared) (path : String) (actual : Option String) : Prog lang Result := do
  abandon prepared
  let revision ← revisionUnlocked
  pure (.conflict path actual revision)

/-- The conflict of a directory that does not hold the documents it should. -/
def checkCollection (prepared : Option Prepared) (check : CollectionPrecondition) : Prog lang (Option Result) := do
  let names ← documentNames check.path
  if names ≠ sortTexts check.files then do
    let r ← refuse prepared check.path none
    pure (some r)
  else pure none

/-- The conflict of a file that is not as it was read. -/
def checkRead (prepared : Option Prepared) (check : ReadPrecondition) : Prog lang (Option Result) := do
  let source ← readUnlocked check.path
  let actual := source.map host.contentHash
  if actual ≠ check.expectedEtag then do
    let r ← refuse prepared check.path actual
    pure (some r)
  else pure none

/-- The last part of a transaction: its intent is recorded, and it is carried out. A failure here leaves it
to the next process. -/
def publish (prepared : Prepared) (etags : List (String × String)) : Prog lang Result := do
  let current ← revisionUnlocked
  if current + 1 > maxSafeInteger then Prog.fail (.of "database revision exhausted")
  else do
    Prog.handle
      (do
        let intent ← recordIntent host prepared (current + 1)
        finish host prepared.id intent)
      fun e => do
        Prog.modify (S := lang) fun s => { s with recoveryRequired := true }
        Prog.fail e
    pure (.written (current + 1) etags)

/-- What `writeMany` does under the publication lock. -/
def commit (batch : Batch) (prepared : Option Prepared) (etags : List (String × String)) : Prog lang Result := do
  assertHealthy
  match ← Prog.search batch.collections (checkCollection prepared) with
  | some r => pure r
  | none =>
    match ← Prog.search batch.checks (checkRead host prepared) with
    | some r => pure r
    | none =>
      match prepared with
      | none => do
        let revision ← revisionUnlocked
        pure (.unchanged revision etags)
      | some prepared => publish host prepared etags

/-- What is written of a file: its new etag, and the empty text where it is deleted. -/
def etagOf (request : MutationRequest) : String × String :=
  (request.path, (request.content.map host.contentHash).getD "")

/-- What changes is staged; where nothing does, nothing is. -/
def prepareChanged (changed : List MutationRequest) : Prog lang (Option Prepared) :=
  if changed = [] then pure none
  else do
    let prepared ← prepare host changed
    pure (some prepared)

/-- What `writeMany` does under the locks of its paths. -/
def transact (t : Nat) (batch : Batch) : Prog lang Result := do
  let errors ← lift (validateAll batch.requests)
  if errors ≠ [] then
    pure (.invalid ((batch.requests.head?.map fun request => request.path).getD "") errors)
  else do
    let current ← Prog.collect batch.requests fun request => do
      let actual ← etag host t request.path
      pure (request.toMutationRequest, actual)
    match current.find? fun (request, actual) => request.expectedEtag.any (· != actual) with
    | some (request, actual) => do
      let revision ← revision host t
      pure (.conflict request.path actual revision)
    | none => do
      let changed := (current.filter fun (request, actual) =>
        request.content.map host.contentHash != actual).map Prod.fst
      let prepared ← prepareChanged host changed
      withLock .publication t (commit host batch prepared (batch.requests.map fun r => etagOf host r.toMutationRequest))

/-- The paths of a call that `writeMany` refuses. -/
def checkPaths (batch : Batch) : Except Error Unit :=
  match (batch.checks.map ReadPrecondition.path ++ batch.collections.map CollectionPrecondition.path ++
      batch.requests.map fun r => r.path).find? fun path => !isDatabasePath path with
  | some path => .error (.of s!"invalid database path: {path}")
  | none =>
    if (batch.requests.map fun r => r.path).Nodup then .ok ()
    else .error (.of "duplicate database path in transaction")

/-- `writeMany`. -/
def writeMany (t : Nat) (batch : Batch) : Prog lang Result := do
  lift (checkPaths batch)
  recover host t
  withPaths t (sortTexts (batch.requests.map fun r => r.path)) (transact host t batch)

/-! ### Calls -/

inductive Call where
  | recover
  | read (path : String)
  | etag (path : String)
  | revision
  | snapshot (pre : String)
  | writeMany (batch : Batch)

inductive Answer where
  | recovered
  | text (content : Option String)
  | etag (etag : Option String)
  | revision (revision : Nat)
  | snapshot (revision : Nat) (files : List (String × String))
  | result (r : Result)

/-- The program of a call. -/
def serve (t : Nat) : Call → Prog lang Answer
  | .recover => do
    recover host t
    pure .recovered
  | .read path => .text <$> read host t path
  | .etag path => .etag <$> etag host t path
  | .revision => .revision <$> revision host t
  | .snapshot pre => do
    let (revision, files) ← snapshot host t pre
    pure (.snapshot revision files)
  | .writeMany batch => .result <$> writeMany host t batch

/-- The engine: calls arrive at any time. -/
def engine (fails : Op → State → Prop) (kills : Prop) : System lang Call Answer where
  sem := sem fails kills
  body := serve host

end

end ConfigRegistry.Engine
