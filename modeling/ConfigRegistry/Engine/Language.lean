import ConfigRegistry.Async.Pool
import ConfigRegistry.Fs.Disks
import ConfigRegistry.Store.Transactions

/-!
# What the data engine awaits

The shared memory of `src/store/data-layer.ts`, the directory that it keeps the database in, and the
operations that its calls await: those of `node:fs`, the turns of `src/git/write-lock.ts`, and the consumer
of write events. An operation may fail for reasons of its own, and leave a part of what it was to do.
-/

namespace ConfigRegistry.Engine

open Js Async Fs

/-- The locks of an engine. -/
inductive Lock where
  | publication
  | path (path : String)
deriving DecidableEq

/-- `ready`: the first recovery, which call `t` runs; every call awaits its result. -/
inductive Readiness where
  | absent
  | running (t : Nat)
  | settled (r : Except Error Unit)

/-- `WriteEvent`. -/
structure WriteEvent where
  path : String
  revision : Nat
  etag : String
  actor : Option String
  keys : List String
  transactionId : String
deriving DecidableEq

/-- The directory of the journal. -/
def directory : Place := [".journal", "transactions"]

/-- The directory of a transaction. -/
def transaction (id : String) : Place := directory ++ [id]

/-- The intent of a transaction. -/
def intentFile (id : String) : Place := transaction id ++ ["intent.json"]

/-- The transaction whose intent a place is for. -/
def intentOf (place : Place) : Option String :=
  match place with
  | [".journal", "transactions", id, "intent.json"] => some id
  | _ => none

structure State where
  disk : Disk
  /-- The calls that wait for a lock, the first of which has it: the promises that are chained. -/
  queue : Lock → List Nat
  ready : Readiness
  recoveryRequired : Bool
  /-- How many times `randomUUID` has been called. -/
  drawn : Nat
  /-- What the consumer has been called with. -/
  events : List WriteEvent
  /-- The calls of the consumer that returned. -/
  taken : List WriteEvent
  /-- The intents that have become visible, and their texts. -/
  visible : List (String × String)

namespace State

variable (s : State)

/-- A call of `withLock` takes its turn behind those that are in line. -/
def enqueue (lock : Lock) (t : Nat) : State :=
  { s with queue := fun l => if l = lock then s.queue l ++ [t] else s.queue l }

/-- `release()`. -/
def release (lock : Lock) : State :=
  { s with queue := fun l => if l = lock then (s.queue l).tail else s.queue l }

/-- A new process on the same directory. -/
def restart : State :=
  { s with queue := fun _ => [], ready := .absent, recoveryRequired := false }

end State

inductive Op where
  /-- `await previous`, in `withLock`. -/
  | enter (lock : Lock) (t : Nat)
  /-- `await this.ready`. -/
  | first
  | lstat (place : Place)
  | readFile (place : Place)
  | readdir (place : Place)
  | mkdir (place : Place)
  | sync (place : Place)
  | create (place : Place) (text : String)
  | rename (source target : Place)
  | rm (place : Place)
  | rmAll (place : Place)
  /-- `onWrite`. -/
  | emit (event : WriteEvent)

def Op.Res : Op → Type
  | .lstat _ => Kind
  | .readFile _ => String
  | .readdir _ => List (String × Kind)
  | .mkdir _ => Option Place
  | _ => Unit

/-- The signature of the engine's programs. -/
abbrev lang : Sig := ⟨State, Error, Op, Op.Res⟩

/-- The state with another disk, where an operation has changed it. -/
def State.on (s : State) {α : Type} (r : Except Error α × Disk) : Except Error α × State :=
  (r.1, { s with disk := r.2 })

/-- `rename`, which makes an intent visible. -/
def State.rename (s : State) (source target : Place) : Except Error Unit × State :=
  match s.disk.rename source target, intentOf target, s.disk.readFile source with
  | (.ok _, disk), some id, .ok text => (.ok (), { s with disk, visible := s.visible ++ [(id, text)] })
  | (r, disk), _, _ => (r, { s with disk })

/-- What an operation does where nothing is wrong with the disk and the consumer returns. -/
def Op.perform : (o : Op) → State → Except Error o.Res × State
  | .enter _ _, s => (.ok (), s)
  | .first, s =>
    match s.ready with
    | .settled r => (r, s)
    | _ => (.ok (), s)
  | .lstat place, s => ((s.disk.lstat place).map Entry.kind, s)
  | .readFile place, s => (s.disk.readFile place, s)
  | .readdir place, s => (s.disk.readdir place, s)
  | .mkdir place, s => s.on (s.disk.mkdir place)
  | .sync place, s => (s.disk.sync place, s)
  | .create place text, s => s.on (s.disk.create place text)
  | .rename source target, s => s.rename source target
  | .rm place, s => s.on (s.disk.rm place)
  | .rmAll place, s => s.on (s.disk.rmAll place)
  | .emit event, s => (.ok (), { s with events := s.events ++ [event], taken := s.taken ++ [event] })

/-- What an operation that fails, or is cut short, may leave. -/
def Op.leaves : Op → State → State → Prop
  | .mkdir place, s, s' => ∃ n, s' = { s with disk := s.disk.mkdirs ((s.disk.missing place).take n) }
  | .create place _, s, s' => s' = s ∨ ∃ text, (s.disk.create place text).1.isOk = true ∧
      s' = { s with disk := (s.disk.create place text).2 }
  | .rename source target, s, s' => s' = s ∨ s' = (s.rename source target).2
  | .rm place, s, s' => s' = s ∨ s' = { s with disk := (s.disk.rm place).2 }
  | .rmAll place, s, s' => ∃ kept : Place → Bool,
      s' = { s with disk := s.disk.keep fun p => !place.isPrefixOf p || kept p }
  | .emit event, s, s' => s' = s ∨ s' = { s with events := s.events ++ [event] }
  | _, s, s' => s' = s

/-- An operation of the engine itself: the others are its environment's, and always come to an end. -/
def Op.waits : Op → Bool
  | .enter _ _ | .first => true
  | _ => false

/-- Whether what an operation waits for has come. -/
def Op.may : Op → State → Prop
  | .enter lock t, s => (s.queue lock).head? = some t
  | .first, s => ∃ r, s.ready = .settled r
  | _, _ => True

instance (o : Op) (s : State) : Decidable (o.may s) :=
  match o with
  | .enter lock t => inferInstanceAs (Decidable ((s.queue lock).head? = some t))
  | .first =>
    match hready : s.ready with
    | .settled r => .isTrue ⟨r, hready⟩
    | .absent => .isFalse fun ⟨r, h⟩ => by rw [hready] at h; cases h
    | .running t => .isFalse fun ⟨r, h⟩ => by rw [hready] at h; cases h
  | .lstat _ | .readFile _ | .readdir _ | .mkdir _ | .sync _ | .create _ _ | .rename _ _ | .rm _ | .rmAll _
  | .emit _ => .isTrue trivial

/-- What the operations do. `fails` says which of them may fail for reasons of their own, and `kills` whether
the process may be killed. -/
def sem (fails : Op → State → Prop) (kills : Prop) : Sem lang where
  step o s r s' := o.may s ∧ ((r, s') = o.perform s ∨
    o.waits = false ∧ fails o s ∧ (∃ e, r = .error e) ∧ o.leaves s s')
  torn o s s' := o.leaves s s'
  crash s s' := kills ∧ s' = s.restart

end ConfigRegistry.Engine
