import Mathlib.Logic.Relation

/-!
# Asynchronous programs

A single-threaded event loop runs many calls at once. Each call is a `Prog`: it awaits
primitive operations of a signature, and between two awaits it runs one uninterrupted *turn*,
in which it may read and change the shared memory. An awaited operation answers with a value
or with an error, so `try`/`catch` and `finally` are ordinary program transformers.

Programs are well-founded trees, so a function of the modelled code that loops does so over
data it has already read.
-/

namespace ConfigRegistry.Async

/-- The state a language acts on, the errors it throws and the operations it can await. -/
structure Sig where
  State : Type
  Err : Type
  Op : Type
  Res : Op → Type

/-- One call of an asynchronous function. -/
inductive Prog (S : Sig) (α : Type) where
  /-- Returned, or threw. -/
  | done (r : Except S.Err α)
  /-- A synchronous step: `f` changes the state, `k` goes on from what was there before. -/
  | turn (f : S.State → S.State) (k : S.State → Prog S α)
  /-- Suspended until the operation `o` completes. -/
  | await (o : S.Op) (k : Except S.Err (S.Res o) → Prog S α)

/-- Where a call stands: it awaits an operation, is about to run a turn, or has ended. -/
inductive Phase (ω : Type) where
  | awaiting (o : ω)
  | ready
  | ended

namespace Prog

variable {S : Sig} {α β γ : Type}

def bind : Prog S α → (α → Prog S β) → Prog S β
  | done (.ok a), g => g a
  | done (.error e), _ => done (.error e)
  | turn f k, g => turn f fun s => (k s).bind g
  | await o k, g => await o fun r => (k r).bind g

instance : Monad (Prog S) where
  pure a := done (.ok a)
  bind := bind

/-- `throw e`. -/
def fail (e : S.Err) : Prog S α := done (.error e)

/-- Await one operation; its error is thrown. -/
def op (o : S.Op) : Prog S (S.Res o) := await o done

/-- Read the shared memory within the current turn. -/
def get : Prog S S.State := turn id fun s => pure s

/-- Change the shared memory within the current turn. -/
def modify (f : S.State → S.State) : Prog S Unit := turn f fun _ => pure ()

/-- Run `p` and hand back how it ended. -/
def attempt : Prog S α → Prog S (Except S.Err α)
  | done r => done (.ok r)
  | turn f k => turn f fun s => (k s).attempt
  | await o k => await o fun r => (k r).attempt

/-- `try { p } catch (e) { h e }`. -/
def handle (p : Prog S α) (h : S.Err → Prog S α) : Prog S α := do
  match ← p.attempt with
  | .ok a => pure a
  | .error e => h e

/-- `try { p } finally { q }`. -/
def ensure (p : Prog S α) (q : Prog S Unit) : Prog S α := do
  let r ← p.attempt
  q
  done r

/-- `for (const a of xs) await body(a)`. -/
def each (xs : List α) (body : α → Prog S Unit) : Prog S Unit :=
  match xs with
  | [] => pure ()
  | a :: xs => do body a; each xs body

/-- The loop that collects one result for each element. -/
def collect (xs : List α) (body : α → Prog S β) : Prog S (List β) :=
  match xs with
  | [] => pure []
  | a :: xs => do
    let b ← body a
    let bs ← collect xs body
    pure (b :: bs)

/-- The loop that leaves early with the first answer. -/
def search (xs : List α) (body : α → Prog S (Option β)) : Prog S (Option β) :=
  match xs with
  | [] => pure none
  | a :: xs => do
    match ← body a with
    | some b => pure (some b)
    | none => search xs body

@[simp] theorem pure_bind' (a : α) (g : α → Prog S β) : (pure a >>= g) = g a := rfl

@[simp] theorem done_ok_bind (a : α) (g : α → Prog S β) : (done (.ok a) >>= g) = g a := rfl

@[simp] theorem done_error_bind (e : S.Err) (g : α → Prog S β) :
    (done (.error e) >>= g) = done (.error e) := rfl

@[simp] theorem fail_bind (e : S.Err) (g : α → Prog S β) :
    ((fail e : Prog S α) >>= g) = fail e := rfl

@[simp] theorem turn_bind (f : S.State → S.State) (k : S.State → Prog S α) (g : α → Prog S β) :
    (turn f k >>= g) = turn f fun s => k s >>= g := rfl

@[simp] theorem await_bind (o : S.Op) (k : Except S.Err (S.Res o) → Prog S α) (g : α → Prog S β) :
    (await o k >>= g) = await o fun r => k r >>= g := rfl

theorem bind_pure' (p : Prog S α) : (p >>= pure) = p := by
  induction p with
  | done r => cases r <;> rfl
  | turn f k ih => simp only [turn_bind, ih]
  | await o k ih => simp only [await_bind, ih]

theorem bind_assoc' (p : Prog S α) (g : α → Prog S β) (h : β → Prog S γ) :
    (p >>= g >>= h) = p >>= fun a => g a >>= h := by
  induction p with
  | done r => cases r <;> rfl
  | turn f k ih => simp only [turn_bind, ih]
  | await o k ih => simp only [await_bind, ih]

instance : LawfulMonad (Prog S) :=
  LawfulMonad.mk' (Prog S) (fun p => bind_pure' p) (fun _ _ => rfl) bind_assoc'

@[simp] theorem attempt_pure (a : α) : (pure a : Prog S α).attempt = pure (.ok a) := rfl

@[simp] theorem attempt_fail (e : S.Err) : (fail e : Prog S α).attempt = pure (.error e) := rfl

/-- Run the synchronous turns up to the next await. -/
def settle : Prog S α → S.State → Prog S α × S.State
  | turn f k, s => (k s).settle (f s)
  | done r, s => (done r, s)
  | await o k, s => (await o k, s)

/-- The operation the program is suspended at. -/
def awaits : Prog S α → Option S.Op
  | await o _ => some o
  | _ => none

/-- Where the program stands. -/
def phase : Prog S α → Phase S.Op
  | await o _ => .awaiting o
  | turn _ _ => .ready
  | done _ => .ended

/-- Suspended at an await, or finished. -/
def Settled : Prog S α → Prop
  | turn _ _ => False
  | _ => True

theorem settle_settled (p : Prog S α) (s : S.State) : (p.settle s).1.Settled := by
  induction p generalizing s with
  | done r => trivial
  | turn f k ih => exact ih s (f s)
  | await o k => trivial

theorem settle_of_settled {p : Prog S α} (h : p.Settled) (s : S.State) : p.settle s = (p, s) := by
  cases p with
  | turn f k => exact h.elim
  | done r => rfl
  | await o k => rfl

end Prog

end ConfigRegistry.Async
