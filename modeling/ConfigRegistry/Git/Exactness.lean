import ConfigRegistry.Git.Exclusion

/-!
# What a sync commits

A sync commits what `git add -A` takes of its mirror. This file shows when that is the database: git
leaves out files that its ignore rules name and files inside another repository, stores others with
their line endings changed, and keeps what the listing of the clone passes over.
-/

namespace ConfigRegistry.Git

open Js Async

variable (rules : Rules)

/-- No activity but syncs: the other git operations do not run. -/
def syncsOnly (_ : State) (c : Request) : Prop := c.apart = false

instance (s : State) (c : Request) : Decidable (syncsOnly s c) := inferInstanceAs (Decidable (_ = _))

theorem inTurn_syncsOnly : InTurn rules ⟨False, False⟩ syncsOnly where
  sync _ _ := .inr (.inr id)
  apart _ c h hc := by
    rw [syncsOnly, hc] at h
    cases h

/-- A commit is one revision of the database, file for file, and the commit before it was not. -/
def Made.Mirrors (c : Made) : Prop :=
  c.tree.Exact c.mirror.source ∧ ¬ c.parent.Exact c.mirror.source

instance (c : Made) : Decidable c.Mirrors := instDecidableAnd

/-- The condition: git takes the mirror as the database is, and a commit that held the revision
already has no executable file, whose mode the mirror would change. -/
def Made.Takes (c : Made) : Prop :=
  c.mirror.Kept rules ∧ (c.parent.Exact c.mirror.source → c.parent.Plain)

/-- Whatever the clone was and whoever writes meanwhile, a sync mirrors the revision of its snapshot,
and its commit is that revision exactly where git takes it so. -/
theorem commit_mirrors_iff {p : Pool lang Request Unit} (h : Reach (service rules syncsOnly) Init p)
    {c : Made} (hc : c ∈ p.state.made) :
    c.mirror.Of p.state.db ∧ (c.Mirrors ↔ c.Takes rules) := by
  have hs := (sound_of_reach (inTurn_syncsOnly rules) h).made c hc
  have hexact : c.tree.Exact c.mirror.source ↔ c.mirror.Kept rules := by
    rw [Mirror.kept_iff]
    exact forall_congr' fun path => by rw [hs.complete path]
  refine ⟨hs.mirror, fun ⟨htree, hparent⟩ => ⟨hexact.1 htree, fun h => (hparent h).elim⟩, ?_⟩
  rintro ⟨hkept, hmodes⟩
  refine ⟨hexact.2 hkept, fun hparent => ?_⟩
  -- Both trees hold the revision without a mode, so there was nothing to commit.
  have hplain : c.tree.Plain := fun path text hp => hkept.plain path text (by
    rw [← hs.complete path]
    exact hp)
  have hsame := Tree.differs_eq_false.2 ((hexact.2 hkept).unique hparent hplain (hmodes hparent))
  rw [hs.differs] at hsame
  cases hsame

/-- A write between two syncs, the second of which is under way when another write comes. -/
def mirroredWrites : Pool lang Request Unit :=
  (driver plainRules fun s c => decide (syncsOnly s c)).drive
    ⟨checkedOut [("a.yaml", "1"), ("gone.yaml", "1")] [("a.yaml", "2")], []⟩
    (.arrive .sync :: works 0 3 ++ .arrive (.write [("a.yaml", "3")]) :: works 1 1 ++ works 0 15)

theorem commit_mirrors_iff_writes :
    ∃ c ∈ mirroredWrites.state.made, mirroredWrites.state.db.revision = 2 ∧ c.mirror.revision = 1 ∧
      c.mirror.Of mirroredWrites.state.db ∧ (c.Mirrors ↔ c.Takes plainRules) := by
  have hmade : ∃ c ∈ mirroredWrites.state.made,
      mirroredWrites.state.db.revision = 2 ∧ c.mirror.revision = 1 := by decide +kernel
  obtain ⟨c, hc, hrevisions⟩ := hmade
  exact ⟨c, hc, hrevisions.1, hrevisions.2, commit_mirrors_iff plainRules
    (Driver.drive_reach (driver_follows plainRules fun _ _ h => by simpa using h)
      (init_checkedOut _ _) _) hc⟩

/-- `.gitignore` with a single name in it. -/
def gitignore : Rules where
  excludes look path := look ".gitignore" == some (.file path false)
  stores _ _ text := text

/-- The clone ignores `flags.yaml`, and the database gets one. -/
def ignoredWrite : Pool lang Request Unit :=
  (driver gitignore fun s c => decide (syncsOnly s c)).drive
    ⟨checkedOut [(".gitignore", "flags.yaml"), ("services.yaml", "1")]
      [(".gitignore", "flags.yaml"), ("services.yaml", "2"), ("flags.yaml", "on")], []⟩
    (.arrive .sync :: works 0 22)

/-- The commit has no `flags.yaml`, which its revision of the database has. -/
theorem ignored_file_is_omitted :
    ∃ p, Reach (service gitignore syncsOnly) Init p ∧ ∃ c ∈ p.state.made, ¬ c.Mirrors ∧
      c.mirror.source.lookup "flags.yaml" = some "on" ∧ c.tree.lookup "flags.yaml" = none :=
  ⟨ignoredWrite, Driver.drive_reach (driver_follows gitignore fun _ _ h => by simpa using h)
    (init_checkedOut _ _) _, by decide +kernel⟩

end ConfigRegistry.Git
