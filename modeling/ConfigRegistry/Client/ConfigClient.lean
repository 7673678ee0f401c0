import ConfigRegistry.Async.Pool
import ConfigRegistry.Fs.Replacing
import ConfigRegistry.Json.Members

/-!
# The client that services import

`src/client/config-client.ts`. A client holds the values, flags and commit of the last answer in memory, and keeps
that answer in a cache file. Requests go to a server that is outside the process.
-/

namespace ConfigRegistry.Client

open Js Json Fs Async

/-! ### Values -/

/-- The own values of an object, by key. -/
abbrev Fields : Type := List Char → Option Doc

/-- The members an array is spread to. -/
def indexed (items : List Doc) : List (List Char × Doc) :=
  items.zipIdx.map fun (item, index) => ((toString index).toList, item)

/-- The code units of a character, each as a text; a surrogate alone reads as U+FFFD. -/
def unitTexts (c : Char) : List Doc :=
  if c.toNat < 0x10000 then [.str [c]] else [.str [Char.ofNat 0xFFFD], .str [Char.ofNat 0xFFFD]]

/-- `{ ...value }`. -/
def spread : Doc → Fields
  | .obj members => fun key => (own members).lookup key
  | .arr items => fun key => (indexed items).lookup key
  | .str s => fun key => (indexed (s.flatMap unitTexts)).lookup key
  | _ => fun _ => none

/-- `{ ...defaults, ...config }`. -/
def overlay (defaults : Fields) (config : Doc) : Fields := fun key => (spread config key).or (defaults key)

/-- `value ?? {}`. -/
def orEmpty : Option Doc → Doc
  | none | some .null => .obj []
  | some value => value

/-- `a === b`, of values that were parsed from two texts: no object of one is an object of the other. Numbers are
told apart by their lexemes. -/
def identical : Option Doc → Option Doc → Bool
  | none, none => true
  | some .null, some .null => true
  | some (.bool a), some (.bool b) => a == b
  | some (.num m), some (.num n) => m == n
  | some (.str s), some (.str t) => s == t
  | _, _ => false

/-- `Boolean(value)`. -/
def truthy : Doc → Bool
  | .null => false
  | .bool b => b
  | .num n => !(n.chars.takeWhile fun c => c != 'e' && c != 'E').all fun c => c == '-' || c == '0' || c == '.'
  | .str s => !s.isEmpty
  | .arr _ | .obj _ => true

/-! ### Answers -/

/-- `ConfigClientOptions`: what the functions below read of it. -/
structure Options where
  service : List Char
  environment : List Char
  cachePath : Option String := none

/-- `ServedConfig`; the commit is none where the answer has none. -/
structure Served where
  commit : Option Doc
  config : Doc
  flags : Doc

/-- What `fetch` resolves to for an answer. -/
def Served.ofAnswer (status : Nat) (body : List Char) : Except Error (Option Served) :=
  if status ≠ 200 then .ok none
  else
    match Json.parse body with
    | none => .error (.of "SyntaxError")
    | some .null => .error (.of "TypeError")
    | some parsed =>
      .ok (some ⟨parsed.member "commit", orEmpty (parsed.member "config"), orEmpty (parsed.member "flags")⟩)

/-- `value === text`. -/
def isText (value : Option Doc) (text : List Char) : Bool :=
  match value with
  | some (.str s) => s == text
  | _ => false

/-- What `readCache` makes of the text of the file. -/
def Served.ofCache (options : Options) (text : List Char) : Option Served :=
  match Json.parse text with
  | none => none
  | some parsed =>
    if isText (parsed.member "service") options.service && isText (parsed.member "environment") options.environment then
      match parsed.member "commit", parsed.member "config" with
      | some (.str commit), some (.obj config) => some ⟨some (.str commit), .obj config, orEmpty (parsed.member "flags")⟩
      | some (.str commit), some (.arr config) => some ⟨some (.str commit), .arr config, orEmpty (parsed.member "flags")⟩
      | _, _ => none
    else none

/-- The text that `writeCache` writes: a commit that is undefined is not printed. -/
def Served.cacheText (options : Options) (served : Served) : List Char :=
  stringify (.obj ([("service".toList, .str options.service), ("environment".toList, .str options.environment)] ++
    (match served.commit with
      | some commit => [("commit".toList, commit)]
      | none => []) ++ [("config".toList, served.config), ("flags".toList, served.flags)]))

/-! ### The state -/

/-- What a client holds. -/
structure Memory where
  defaults : Fields := fun _ => none
  resolved : Fields := fun _ => none
  flags : Fields := fun _ => none
  commit : Option Doc := some .null

namespace Memory

variable (m : Memory)

/-- `flag`. -/
def flag (name : List Char) (fallback : Doc) : Doc :=
  match m.flags name with
  | none | some .null => fallback
  | some value => value

/-- What `apply` does before it awaits. -/
def apply (served : Served) : Memory :=
  { m with resolved := overlay m.defaults served.config, flags := spread served.flags, commit := served.commit }

/-- What `load` does before it awaits. -/
def reset (defaults : Fields) : Memory := { m with defaults := defaults, resolved := defaults }

/-- What `load` does with a cached answer. -/
def adopt (defaults : Fields) (served : Served) : Memory :=
  { m with resolved := overlay defaults served.config, flags := spread served.flags, commit := served.commit }

end Memory

structure State where
  memory : Memory := {}
  /-- The watch that has not been stopped, and those whose signal is aborted. -/
  watchAbort : Option Nat := none
  aborted : List Nat := []
  /-- How often the handlers were told. -/
  notified : Nat := 0
  /-- The cache file, and the process. -/
  files : Replaced := {}
  pid : Nat := 1
  /-- Beside the code: the version that the server has, and had when a call last sent its request. -/
  version : Nat := 0
  sent : Nat → Nat := fun _ => 0
  /-- Beside the code: the answer that was applied last, with its version where a server gave it, and whether the
  writing of it was reported to have failed. -/
  applied : Option Served := none
  failed : Bool := false
  /-- Beside the code: the call that has an answer it has not done with. -/
  holder : Option Nat := none

def State.request (s : State) (call : Nat) : State :=
  { s with sent := fun u => if u = call then s.version else s.sent u }

def State.apply (s : State) (served : Served) : State :=
  { s with memory := s.memory.apply served, applied := some served, failed := false }

/-- The call has done with its answer. -/
def State.release (s : State) (call : Nat) : State := if s.holder = some call then { s with holder := none } else s

/-- What a client awaits: an answer to the request of a call, the steps of reading and writing its cache file, and the
delay before a watch goes on. -/
inductive Op where
  | fetch (call : Nat) (since : Option Doc)
  | readCache
  | openTemp (pid : Nat)
  | write (inode : Nat) (text : List Char)
  | rename (pid : Nat)
  | unlink (pid : Nat)
  | delay

def Op.Res : Op → Type
  | .fetch _ _ => Nat × List Char
  | .readCache => List Char
  | .openTemp _ => Nat
  | .write _ _ | .rename _ | .unlink _ | .delay => Unit

def lang : Sig where
  State := State
  Err := Error
  Op := Op
  Res := Op.Res

/-! ### The client -/

variable (options : Options)

/-- `fetch`, for a call. -/
def fetch (call : Nat) (since : Option Doc) : Prog lang (Option Served) := do
  Prog.modify (S := lang) fun s => s.request call
  let answer ← Prog.op (S := lang) (.fetch call (since.filter truthy))
  .done (Served.ofAnswer answer.1 answer.2)

def readCache : Prog lang (Option Served) :=
  match options.cachePath with
  | none => pure none
  | some _ => do
    match ← (Prog.op (S := lang) .readCache).attempt with
    | .error _ => pure none
    | .ok text => pure (Served.ofCache options text)

/-- `rename`, and where it fails `unlink`. -/
def publish (pid : Nat) : Prog lang Unit :=
  (Prog.op (S := lang) (.rename pid)).handle fun cause => do
    let _ ← (Prog.op (S := lang) (.unlink pid)).attempt
    Prog.fail cause

def writeCache (served : Served) : Prog lang Unit :=
  match options.cachePath with
  | none => pure ()
  | some _ => do
    let s ← Prog.get
    let inode ← Prog.op (S := lang) (.openTemp s.pid)
    Prog.op (S := lang) (.write inode (served.cacheText options))
    publish s.pid

/-- `apply`, for a call. What `onError` and the handlers do is not part of the client. -/
def apply (call : Nat) (served : Served) : Prog lang Unit := do
  let s ← Prog.get
  Prog.modify (S := lang) fun s => s.apply served
  (writeCache options served).handle fun _ => Prog.modify (S := lang) fun s => { s with failed := true }
  let changed := !identical served.commit s.memory.commit
  Prog.modify (S := lang) fun s => { s.release call with notified := if changed then s.notified + 1 else s.notified }

def refresh (call : Nat) : Prog lang Bool := do
  match ← (fetch call none).attempt with
  | .error _ => pure false
  | .ok none => pure false
  | .ok (some served) => do
    let s ← Prog.get
    apply options call served
    pure (!identical served.commit s.memory.commit)

/-- One turn of the loop of `watch`, and whether the loop goes on. -/
def watchTurn (call : Nat) : Prog lang Bool :=
  Prog.handle (do
    let s ← Prog.get (S := lang)
    let served ← fetch call s.memory.commit
    let s ← Prog.get (S := lang)
    if s.aborted.contains call then do
      Prog.modify (S := lang) fun s => s.release call
      pure false
    else do
      match served with
      | some served => apply options call served
      | none => pure ()
      pure true)
  fun _ => do
    Prog.op (S := lang) .delay
    pure true

/-- The loop of `watch`, for so many turns. -/
def watchLoop (call : Nat) : Nat → Prog lang Unit
  | 0 => pure ()
  | n + 1 => do
    let s ← Prog.get (S := lang)
    if s.aborted.contains call then pure ()
    else if ← watchTurn options call then watchLoop call n
    else pure ()

/-- `watch`. A client that is watching already goes on with that. -/
def watch (call turns : Nat) : Prog lang Unit := do
  let s ← Prog.get (S := lang)
  if s.watchAbort.isSome then pure ()
  else do
    Prog.modify (S := lang) fun s => { s with watchAbort := some call }
    watchLoop options call turns

/-- `stopWatching`. -/
def stopWatching : Prog lang Unit :=
  Prog.modify (S := lang) fun s => { s with watchAbort := none, aborted := s.watchAbort.toList ++ s.aborted }

/-- `load`; the refresh that it starts is a call of its own. -/
def load (defaults : Fields) : Prog lang Unit := do
  Prog.modify (S := lang) fun s => { s with memory := s.memory.reset defaults }
  match ← readCache options with
  | some cached => Prog.modify (S := lang) fun s => { s with memory := s.memory.adopt defaults cached }
  | none => pure ()

end ConfigRegistry.Client
