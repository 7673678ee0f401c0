import ConfigRegistry.Git.Runs

/-!
# The activities on the clone exclude each other

Nothing makes a retry or a pull wait for a sync, or for one another. This file shows that they do not
interleave, commit whole mirrors and rebase or merge over a clean clone only, when each comes once
the others are done and a retry or a pull finds no half-finished sync; and gives a run in which a
webhook merges in the middle of a sync, and the sync commits a tree the database never had.
-/

namespace ConfigRegistry.Git

open Js Async

variable (rules : Rules)

/-- The clone is worked on by one activity at a time: commits of syncs are whole mirrors of one
revision, and rebases and merges find no uncommitted change. -/
structure Orderly (s : State) : Prop where
  exclusive : ¬ Interleaved s.activities
  whole : ∀ c ∈ s.made, c.mirror.Of s.db ∧ c.tree.Same (c.mirror.recorded rules)
  clean : ∀ m ∈ s.trace, m.rewrites = true → m.dirty = false

/-- The condition: a sync starts when no retry or pull is in progress, and a retry or pull when
nothing is and the clone is clean. A `syncNow` during a sync shares it. -/
def oneAtATime (s : State) : Request → Prop
  | .write _ => True
  | .sync => s.running ≠ none ∨ s.busy = []
  | .retry | .webhook | .poll => s.running = none ∧ s.busy = [] ∧ s.Clean rules

instance : (s : State) → (c : Request) → Decidable (oneAtATime rules s c)
  | _, .write _ => .isTrue trivial
  | s, .sync => inferInstanceAs (Decidable (s.running ≠ none ∨ s.busy = []))
  | s, .retry | s, .webhook | s, .poll =>
    inferInstanceAs (Decidable (s.running = none ∧ s.busy = [] ∧ s.Clean rules))

/-- The terms of these runs: everything takes part, and pulls find the clone clean. -/
def orderlyTerms : Terms := ⟨True, True⟩

theorem inTurn_oneAtATime : InTurn rules orderlyTerms (oneAtATime rules) where
  sync _ h := h.elim .inl fun hb => .inr (.inl hb)
  apart s c h hc := by
    cases c with
    | write files => cases hc
    | sync => cases hc
    | retry => exact ⟨trivial, h.1, h.2.1, fun _ => h.2.2.1⟩
    | webhook => exact ⟨trivial, h.1, h.2.1, fun _ => h.2.2.1⟩
    | poll => exact ⟨trivial, h.1, h.2.1, fun _ => h.2.2.1⟩

/-- In every run of activities that wait for each other the clone is worked on in order. -/
theorem clone_is_worked_on_in_order {p : Pool lang Request Unit}
    (h : Reach (service rules (oneAtATime rules)) Init p) : Orderly rules p.state := by
  have hs := sound_of_reach (inTurn_oneAtATime rules) h
  exact ⟨hs.grouped, fun c hc => ⟨(hs.made c hc).mirror, (hs.made c hc).complete⟩,
    hs.moves trivial⟩

/-- A tree of plain files. -/
def plainTree (files : List (String × String)) : Tree :=
  (files.map fun (path, text) => ⟨path, .file text false⟩).toAList

/-- A commit from elsewhere. -/
def seed (sha : String) (files : List (String × String)) : Commit := ⟨sha, "seed", plainTree files, none⟩

/-- A clone whose HEAD is checked out, and a database that may have moved on. -/
def checkedOut (head files : List (String × String)) : State where
  db := ⟨fun _ => files, 1⟩
  clone := { tree := plainTree head, index := plainTree head, head := [seed "c0" head] }

theorem init_checkedOut (head files : List (String × String)) : Init (checkedOut head files) where
  running := rfl
  busy := rfl
  served _ _ h := nomatch h
  trace := rfl
  made := rfl
  calls := rfl
  settled := rfl
  pulled := rfl
  pushed := rfl
  carries c hc := by
    have hmem : c ∈ [seed "c0" head] := hc
    rw [List.mem_singleton.1 hmem]
    rfl

/-- Operations of call `t` that work. -/
def works (t n : Nat) : List (Event Request Choice) := List.replicate n (.run t .works)

/-- A sync and a pull, one after the other. -/
def syncThenPull : Pool lang Request Unit :=
  (driver plainRules fun s c => decide (oneAtATime plainRules s c)).drive
    ⟨checkedOut [("a.yaml", "1")] [("a.yaml", "2")], []⟩
    (.arrive .sync :: works 0 17 ++ .arrive .webhook :: works 1 1 ++
      .run 1 (.brings [seed "c0" [("a.yaml", "1")]]) :: works 1 6)

theorem clone_is_worked_on_in_order_sync_then_pull :
    (syncThenPull.threads.length = 2 ∧ syncThenPull.Quiet ∧ syncThenPull.state.made.length = 1) ∧
      Orderly plainRules syncThenPull.state := by
  refine ⟨by decide +kernel, ?_⟩
  exact clone_is_worked_on_in_order plainRules
    (Driver.drive_reach (driver_follows plainRules fun _ _ h => by simpa using h)
      (init_checkedOut _ _) _)

/-- A sync has written the new `a.yaml` and the unchanged `b.yaml` when a webhook fast-forwards the
clone to a commit that changes `b.yaml`; the sync goes on to commit. -/
def pullWithinSync : Pool lang Request Unit :=
  (driver plainRules fun _ _ => true).drive
    ⟨checkedOut [("a.yaml", "1"), ("b.yaml", "1")] [("a.yaml", "2"), ("b.yaml", "1")], []⟩
    (.arrive .sync :: works 0 10 ++ .arrive .webhook :: works 1 1 ++
      .run 1 (.brings [seed "c1" [("a.yaml", "1"), ("b.yaml", "2")],
        seed "c0" [("a.yaml", "1"), ("b.yaml", "1")]]) :: works 1 1 ++ works 0 5)

/-- The merge runs between two steps of the sync and over its changes, and the commit has a file of
the database and a file of the pull. -/
theorem pull_interleaves_with_sync :
    ∃ p, Reach (service plainRules fun _ _ => True) Init p ∧ Interleaved p.state.activities ∧
      (∃ c ∈ p.state.made, ¬ c.tree.Same (c.mirror.recorded plainRules)) ∧
      ∃ m ∈ p.state.trace, m.rewrites = true ∧ m.dirty = true := by
  refine ⟨pullWithinSync, Driver.drive_reach (driver_follows plainRules fun _ _ _ => trivial)
    (init_checkedOut _ _) _, ⟨0, 1, by decide, by decide +kernel⟩, ?_, by decide +kernel⟩
  have hmade : ∃ c ∈ pullWithinSync.state.made,
      c.tree.differs (c.mirror.recorded plainRules) = true := by decide +kernel
  obtain ⟨c, hc, hd⟩ := hmade
  refine ⟨c, hc, fun hsame => ?_⟩
  rw [Tree.differs_eq_false.2 hsame] at hd
  cases hd

end ConfigRegistry.Git
