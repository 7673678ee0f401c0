import ConfigRegistry.Git.Exactness

/-!
# What becomes of a pull

A pull changes the clone, a reload reads the database, and the mirror of the next sync writes the
database over the clone. This file shows that what a fast-forward brought is served and kept exactly
where the database held it before the pull.
-/

namespace ConfigRegistry.Git

open Js Async

variable (rules : Rules)

/-- Retries and pulls come when nothing else is in progress, whatever the clone is like. -/
def inTurns (s : State) : Request → Prop
  | .write _ => True
  | .sync => s.running ≠ none ∨ s.busy = []
  | .retry | .webhook | .poll => s.running = none ∧ s.busy = []

instance : (s : State) → (c : Request) → Decidable (inTurns s c)
  | _, .write _ => .isTrue trivial
  | s, .sync => inferInstanceAs (Decidable (s.running ≠ none ∨ s.busy = []))
  | s, .retry | s, .webhook | s, .poll =>
    inferInstanceAs (Decidable (s.running = none ∧ s.busy = []))

theorem inTurn_inTurns : InTurn rules ⟨True, False⟩ inTurns where
  sync _ h := h.elim .inl fun hb => .inr (.inl hb)
  apart s c h hc := by
    cases c with
    | write files => cases hc
    | sync => cases hc
    | retry => exact ⟨trivial, h.1, h.2, False.elim⟩
    | webhook => exact ⟨trivial, h.1, h.2, False.elim⟩
    | poll => exact ⟨trivial, h.1, h.2, False.elim⟩

namespace Pull

variable (e : Pull)

/-- The condition: the database has the text at the path already. -/
def Held (db : Store.Versions) : Prop :=
  ((db.at_ e.revision).lookup e.path).map some = e.node.map Node.text

/-- Nobody has written the path since the pull, up to a revision of the database. -/
def Untouched (db : Store.Versions) (revision : Nat) : Prop :=
  ∀ r, e.revision ≤ r → r < revision → (db.at_ (r + 1)).lookup e.path = (db.at_ r).lookup e.path

instance (db : Store.Versions) (revision : Nat) : Decidable (e.Untouched db revision) :=
  decidable_of_iff (∀ r < revision, e.revision ≤ r →
      (db.at_ (r + 1)).lookup e.path = (db.at_ r).lookup e.path)
    ⟨fun h r hle hlt => h r hlt hle, fun h r hlt hle => h r hle hlt⟩

/-- What is served has what the pull brought. -/
def ServedIn (files : Store.Tree) : Prop := (files.lookup e.path).map some = e.node.map Node.text

/-- A commit still has it. -/
def KeptIn (tree : Tree) : Prop := (tree.lookup e.path).map Node.text = e.node.map Node.text

instance (db : Store.Versions) : Decidable (e.Held db) := inferInstanceAs (Decidable (_ = _))

instance (files : Store.Tree) : Decidable (e.ServedIn files) := inferInstanceAs (Decidable (_ = _))

instance (tree : Tree) : Decidable (e.KeptIn tree) := inferInstanceAs (Decidable (_ = _))

variable {e}

/-- A path nobody writes stays as it was at the pull. -/
theorem Untouched.lookup {db : Store.Versions} {revision : Nat} (h : e.Untouched db revision)
    (hle : e.revision ≤ revision) :
    (db.at_ revision).lookup e.path = (db.at_ e.revision).lookup e.path := by
  induction revision, hle using Nat.le_induction with
  | base => rfl
  | succ r hr ih =>
    rw [h r hr (Nat.lt_succ_self r)]
    exact ih fun r' hr' hlt => h r' hr' (Nat.lt_succ_of_lt hlt)

/-- Where no write was pending, the database holds what the pull brought only if the text did not
change. -/
theorem held_iff {s : State} {old new : Tree} (hold : old.Exact (filesOf s.db.current))
    (he : e ∈ s.pulls old new) :
    e.Held s.db ↔
      (old.lookup e.path).map Node.text = (new.lookup e.path).map Node.text := by
  obtain ⟨path, -, rfl⟩ := List.mem_map.1 he
  have hpath := hold path
  rw [lookup_filesOf] at hpath
  rw [hpath]
  exact .rfl

end Pull

/-- In every run in which pulls do not overlap with syncs, what a fast-forward brought is served by a
later reload and kept by a later sync, of a path nobody has written since, exactly where the database
held it. -/
theorem pull_survives_iff {p : Pool lang Request Unit} (h : Reach (service rules inTurns) Init p)
    {e : Pull} (he : e ∈ p.state.pulled) :
    e.revision ≤ p.state.db.revision ∧
    (∀ revision files, p.state.served = some (revision, files) → e.revision ≤ revision →
      e.Untouched p.state.db revision → (e.ServedIn files ↔ e.Held p.state.db)) ∧
    ∀ c ∈ p.state.made, e ∈ c.after → e.Untouched p.state.db c.mirror.revision →
      c.mirror.KeptAt rules e.path → (e.KeptIn c.tree ↔ e.Held p.state.db) := by
  have hs := sound_of_reach (inTurn_inTurns rules) h
  refine ⟨hs.pulled e he, ?_, ?_⟩
  · intro revision files hserved hle huntouched
    obtain ⟨-, rfl⟩ := hs.served revision files hserved
    rw [Pull.ServedIn, huntouched.lookup hle]
    exact .rfl
  · intro c hc hafter huntouched hkept
    have hsound := hs.made c hc
    have hdb := huntouched.lookup (hsound.after e hafter)
    have htree : (c.tree.lookup e.path).map Node.text =
        ((p.state.db.at_ e.revision).lookup e.path).map some := by
      rw [hsound.complete e.path, (c.mirror.keptAt_iff rules e.path).1 hkept, hsound.mirror.source,
        lookup_filesOf, hdb]
    rw [Pull.KeptIn, htree]
    exact .rfl

/-- A write that reaches both the database and the remote, the pull of the remote's commit, and
another write that a sync commits. -/
def heldPull : Pool lang Request Unit :=
  (driver plainRules fun s c => decide (inTurns s c)).drive
    ⟨checkedOut [("a.yaml", "1")] [("a.yaml", "1")], []⟩
    (.arrive (.write [("a.yaml", "2")]) :: works 0 1 ++ .arrive .webhook :: works 1 1 ++
      .run 1 (.brings [seed "c1" [("a.yaml", "2")], seed "c0" [("a.yaml", "1")]]) :: works 1 6 ++
      .arrive (.write [("a.yaml", "2"), ("b.yaml", "1")]) :: works 2 1 ++ .arrive .sync ::
      works 3 22)

theorem pull_survives_iff_held :
    ∃ e ∈ heldPull.state.pulled, e.path = "a.yaml" ∧ e.revision = 2 ∧
      (∃ files, heldPull.state.served = some (2, files) ∧ e.ServedIn files) ∧
      ∃ c ∈ heldPull.state.made, c.mirror.revision = 3 ∧ e.KeptIn c.tree := by
  have hrun : ∃ e ∈ heldPull.state.pulled, e.path = "a.yaml" ∧ e.revision = 2 ∧
      e.Held heldPull.state.db ∧
      heldPull.state.served = some (2, [("a.yaml", "2")]) ∧
      e.Untouched heldPull.state.db 2 ∧
      ∃ c ∈ heldPull.state.made, c.mirror.revision = 3 ∧ e ∈ c.after ∧
        e.Untouched heldPull.state.db c.mirror.revision ∧ c.mirror.Kept plainRules := by
    decide +kernel
  obtain ⟨e, he, hpath, hrevision, hheld, hserved, hreload, c, hc, hmirror, hafter, hsync, hkept⟩ :=
    hrun
  have hreach : Reach (service plainRules inTurns) Init heldPull :=
    Driver.drive_reach (driver_follows plainRules fun _ _ h => by simpa using h)
      (init_checkedOut _ _) _
  obtain ⟨-, hreloads, hsyncs⟩ := pull_survives_iff plainRules hreach he
  refine ⟨e, he, hpath, hrevision, ⟨_, hserved, ?_⟩, c, hc, hmirror, ?_⟩
  · exact (hreloads 2 _ hserved (Nat.le_of_eq hrevision) hreload).2 hheld
  · exact (hsyncs c hc hafter hsync (hkept e.path)).2 hheld

/-- The database and HEAD are the same when a webhook brings an upstream edit of `services.yaml`;
then a sync runs. -/
def pulledEdit : Pool lang Request Unit :=
  (driver plainRules fun s c => decide (inTurns s c)).drive
    ⟨checkedOut [("services.yaml", "1")] [("services.yaml", "1")], []⟩
    (.arrive .webhook :: works 0 1 ++
      .run 0 (.brings [seed "c1" [("services.yaml", "2")], seed "c0" [("services.yaml", "1")]]) ::
      works 0 6 ++ .arrive .sync :: works 1 17)

/-- Nothing was ever written to the database, and yet the reload serves the old text and the sync
commits it over the new one. -/
theorem pulled_edit_is_reverted :
    ∃ p, Reach (service plainRules inTurns) Init p ∧ p.state.db.revision = 1 ∧
      ∃ e ∈ p.state.pulled, (p.state.served.any fun (_, files) => !decide (e.ServedIn files)) ∧
        ∃ c ∈ p.state.made, e ∈ c.after ∧ c.parent.lookup e.path = e.node ∧ ¬ e.KeptIn c.tree :=
  ⟨pulledEdit, Driver.drive_reach (driver_follows plainRules fun _ _ h => by simpa using h)
    (init_checkedOut _ _) _, by decide +kernel⟩

end ConfigRegistry.Git
