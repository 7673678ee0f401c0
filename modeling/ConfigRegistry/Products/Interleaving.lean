import ConfigRegistry.Products.Commits

/-!
# Operations side by side

Several operations can be under way: each has taken its snapshot, and commits to whatever the others
have made of the database by then. Snapshots and commits take effect one at a time.
-/

namespace ConfigRegistry.Products

open Js Schema Store

variable {o : ProductWriteOptions}

/-- The call, on a snapshot that the database may have left behind. -/
def Call.performFrom (o : ProductWriteOptions) (c : Call) (files : Files) (db : Database) :
    Outcome × Database := c.operation.performFrom (c.options o) c.actor files db

/-- The database, and the calls that have taken their snapshot of it. -/
structure Board where
  db : Database
  pending : List (Call × Files) := []

/-- What happens next: a call takes its snapshot, or one that has goes on to its commit. -/
inductive Turn where
  | opens (c : Call)
  | commits (n : Nat)

namespace Board

def after (o : ProductWriteOptions) (b : Board) : Turn → Board
  | .opens c => { b with pending := b.pending ++ [(c, b.db.files)] }
  | .commits n =>
    match b.pending[n]? with
    | none => b
    | some (c, files) => { db := (c.performFrom o files b.db).2, pending := b.pending.eraseIdx n }

def run (o : ProductWriteOptions) (turns : List Turn) (b : Board) : Board := turns.foldl (after o) b

/-- What a turn does to the database: nothing, or what one of the calls does to it. -/
theorem after_cases (b : Board) (t : Turn) : (b.after o t).db = b.db ∨ ∃ c files, (c, files) ∈ b.pending ∧
    (b.after o t).db = (c.performFrom o files b.db).2 := by
  cases t with
  | opens c => exact .inl rfl
  | commits n =>
    simp only [after]
    split
    · exact .inl rfl
    · rename_i c files hn
      exact .inr ⟨c, files, List.mem_of_getElem? hn, rfl⟩

/-- Whoever is under way after a turn was before it, or has just taken a snapshot. -/
theorem mem_pending_after {b : Board} {t : Turn} {c : Call} {files : Files}
    (h : (c, files) ∈ (b.after o t).pending) : (c, files) ∈ b.pending ∨ t = .opens c ∧ files = b.db.files := by
  cases t with
  | opens c' =>
    rcases List.mem_append.1 h with h | h
    · exact .inl h
    · obtain ⟨rfl, rfl⟩ := Prod.mk.inj (List.mem_singleton.1 h)
      exact .inr ⟨rfl, rfl⟩
  | commits n =>
    simp only [after] at h
    split at h
    · exact .inl h
    · exact .inl (List.mem_of_mem_eraseIdx h)

end Board

/-- The calls of a run: those that take their snapshot in it. -/
def callsOf (turns : List Turn) : List Call :=
  turns.filterMap fun
    | .opens c => some c
    | .commits _ => none

/-- What holds at first and is kept by every turn holds after all of them. -/
theorem run_induction {P : Board → Prop} {turns : List Turn} {b : Board}
    (hstep : ∀ b, ∀ t ∈ turns, P b → P (b.after o t)) (h : P b) : P (b.run o turns) := by
  induction turns generalizing b with
  | nil => exact h
  | cons t turns ih =>
    exact ih (fun b t' ht' => hstep b t' (List.mem_cons_of_mem _ ht')) (hstep b t List.mem_cons_self h)

end ConfigRegistry.Products
