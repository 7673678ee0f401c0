import ConfigRegistry.Async.Drive
import ConfigRegistry.Backup.SyncEngine
import ConfigRegistry.Git.WorkingTree

/-!
# The language of the clone

What `src/store/sync-engine.ts` and `src/git/repository.ts` act on: the working tree, the index and
the history of the clone, and the database that is mirrored into it. Every await of the code that
reads or changes the working tree, the index or HEAD is an operation `on` the clone, and is logged
with the activity that made it; any other activity may come between two of them.
-/

namespace ConfigRegistry.Git

open Js Async

/-- A commit; a history is a list of them, newest first. -/
structure Commit where
  sha : String
  message : String
  tree : Tree
  /-- The tree that a sync committed as this commit, or as the one this replays. Git does not keep
  it. -/
  carries : Option Tree
deriving DecidableEq

/-- The tree of a history's newest commit. -/
def headTree : List Commit → Tree
  | [] => ∅
  | commit :: _ => commit.tree

/-- The clone. -/
structure Clone where
  /-- The working tree, the index and HEAD. -/
  tree : Tree
  index : Tree
  head : List Commit
  /-- `FETCH_HEAD`, and the `main` of the remote as the clone last saw it. -/
  fetched : List Commit := []
  tracking : List Commit := []
  /-- Where HEAD was, while a rebase is stopped at a conflict. -/
  rebasing : Option (List Commit) := none

/-- What a fast-forward made of a path, and the revision the database had then. -/
structure Pull where
  path : String
  node : Option Node
  revision : Nat
deriving DecidableEq

/-- A commit that a sync made, with the tree it was made on, the mirror it was made of and the pulls
before it. -/
structure Made where
  tree : Tree
  parent : Tree
  mirror : Mirror
  after : List Pull

/-- A call of `syncNow`: the sync whose promise it was given, the revision of the database then, and
whether that sync had taken an older snapshot. -/
structure Call where
  sync : Nat
  revision : Nat
  late : Bool

/-- A sync that ended, with HEAD at that moment and the mirror it had made. -/
structure Settled where
  sync : Nat
  result : Except Error Backup.SyncResult
  head : List Commit
  mirror : Mirror

/-- A step of an activity that read or changed the clone: whether it was a rebase or a merge, and
whether it found uncommitted changes. -/
structure Move where
  activity : Nat
  rewrites : Bool
  dirty : Bool
deriving DecidableEq

structure State where
  db : Store.Versions
  clone : Clone
  /-- `SyncEngine.running`: the call whose sync is in progress. -/
  running : Option Nat := none
  /-- What the last reload installed, with its revision. -/
  served : Option (Nat × Store.Tree) := none
  /-- Beside the code: the retries and pulls in progress, the revision of the running sync's
  snapshot, and its mirror. -/
  busy : List Nat := []
  taken : Option Nat := none
  mirror : Mirror := ⟨∅, 0, ∅, ∅, []⟩
  /-- Beside the code: every step on the clone, every commit made by a sync, every call of `syncNow`,
  every sync that ended, every path a fast-forward changed, and every commit that was pushed. -/
  trace : List Move := []
  made : List Made := []
  calls : List Call := []
  settled : List Settled := []
  pulled : List Pull := []
  pushed : List Commit := []

/-- The operations on the working tree, the index and HEAD. -/
inductive CloneOp where
  /-- `mkdir(destination, …)`. -/
  | mkdir
  /-- `collectFiles(destination)`. -/
  | collectFiles
  /-- `rm(path, { force: true })`. -/
  | remove (path : String)
  /-- `open(temporary, 'wx')` and the write of the text. -/
  | createTemporary (temporary content : String)
  /-- `rename(temporary, path)`. -/
  | renameTemporary (temporary path : String)
  /-- `git status --porcelain`. -/
  | status
  /-- `git add -A`. -/
  | add
  /-- `git diff --cached --name-only`. -/
  | diffCached
  /-- `git commit`. -/
  | commit (message : String)
  /-- `git rev-parse HEAD`. -/
  | headCommit
  /-- `git log <remote>/main..HEAD`. -/
  | unpushed
  /-- `git push <remote> HEAD:main`. -/
  | push
  /-- `git rebase FETCH_HEAD`. -/
  | rebase
  /-- `git rebase --abort`. -/
  | abort
  /-- `git merge --ff-only <remote>/main`. -/
  | merge

abbrev CloneOp.Res : CloneOp → Type
  | .collectFiles => List String
  | .status | .diffCached => Bool
  | .headCommit => String
  | .unpushed => Nat
  | _ => Unit

def CloneOp.rewrites : CloneOp → Bool
  | .rebase | .merge => true
  | _ => false

inductive Op where
  /-- Activity `t` reads or changes the clone. -/
  | on (t : Nat) (o : CloneOp)
  /-- `journal.rotate()`, `journal.drain(handle)` and `journal.discard(handle)`. -/
  | rotate
  | drain
  | discard
  /-- `db.snapshot()`. -/
  | snapshot
  /-- The process id and a `randomUUID()`. -/
  | unique
  /-- The first line of `git remote`, if that answers one. -/
  | remote
  /-- `git fetch <remote> main`. -/
  | fetch
  /-- `git ls-tree` and `git show` at a commit. -/
  | readSources
  /-- The reads of the database that a reload makes, and their installation. -/
  | reload
  /-- A transaction that leaves the database with these files. -/
  | publish (files : Store.Tree)
  /-- The promise of the sync that call `t` started. -/
  | joined (t : Nat)

abbrev Op.Res : Op → Type
  | .on _ o => o.Res
  | .drain => List Backup.JournalEntry
  | .snapshot => Files
  | .unique => String
  | .remote => Option String
  | .joined _ => Backup.SyncResult
  | _ => Unit

abbrev lang : Sig where
  State := State
  Err := Error
  Op := Op
  Res := Op.Res

/-- Await an operation. -/
abbrev op (o : Op) : Prog lang o.Res := Prog.op (S := lang) o

/-- Activity `t` awaits an operation on the clone. -/
abbrev on (t : Nat) (o : CloneOp) : Prog lang o.Res := op (.on t o)

/-- `snapshot` enters no directory whose name begins with a dot. -/
def readable (files : Store.Tree) : Bool :=
  files.all fun (path, _) => (segments path).dropLast.all fun name => name.head? != some '.'

/-- The history `head`, with its own commits replayed on `onto`. A commit whose change `onto`
already has stays as an empty one. -/
def Rebases (head onto head' : List Commit) : Prop :=
  ∃ here base above again, head = here ++ base ∧ onto = above ++ base ∧ head' = again ++ onto ∧
    List.Forall₂ (fun c c' => c'.carries = c.carries) here again

namespace State

variable (rules : Rules) (s : State)

def headTree : Tree := Git.headTree s.clone.head

/-- Whether `git status --porcelain` reports something. -/
def dirty : Bool := changes rules s.clone.tree s.clone.index s.headTree

/-- The working tree and the index are those of HEAD, and no rebase is stopped. -/
def Clean : Prop := s.dirty rules = false ∧ s.clone.rebasing = none

instance : Decidable (s.Clean rules) := instDecidableAnd

/-- Whether git refuses to rebase: something is staged, or a tracked file changed. -/
def modified : Bool :=
  s.clone.index.differs s.headTree ||
    s.clone.index.keys.any fun path =>
      (staged rules s.clone.tree s.clone.index).lookup path != s.clone.index.lookup path

def setTree (tree : Tree) : State := { s with clone := { s.clone with tree } }

def add : State :=
  { s with clone := { s.clone with index := staged rules s.clone.tree s.clone.index } }

def commit (message sha : String) : State :=
  { s with
    clone := { s.clone with
      head := ⟨sha, message, s.clone.index, some s.clone.index⟩ :: s.clone.head }
    made := ⟨s.clone.index, s.headTree, s.mirror, s.pulled⟩ :: s.made }

/-- The snapshot of the running sync. -/
def takeSnapshot : State :=
  { s with
    taken := some s.db.revision
    mirror := { s.mirror with source := filesOf s.db.current, revision := s.db.revision } }

/-- The listing of the running sync. -/
def collect (previous : List String) : State :=
  { s with mirror := { s.mirror with
      found := s.clone.tree, tracked := s.clone.index, previous } }

def push : State :=
  { s with clone := { s.clone with tracking := s.clone.head }, pushed := s.clone.head ++ s.pushed }

/-- What a fast-forward from `old` to `new` changes. -/
def pulls (old new : Tree) : List Pull :=
  ((old.keys ++ new.keys).filter fun path => old.lookup path != new.lookup path).map fun path =>
    ⟨path, new.lookup path, s.db.revision⟩

/-- HEAD moves to the remote's `main`; `tree` and `index` are what is checked out. -/
def forward (tree index : Tree) : State :=
  { s with
    clone := { s.clone with tree, index, head := s.clone.tracking }
    pulled := s.pulls s.headTree (Git.headTree s.clone.tracking) ++ s.pulled }

/-- A step of activity `t`, in a clone that was dirty or not. -/
def log (t : Nat) (o : CloneOp) (dirty : Bool) : State :=
  { s with trace := ⟨t, o.rewrites, dirty⟩ :: s.trace }

/-- A call of `syncNow` is given the promise of the sync of call `t`. -/
def call (t : Nat) : State :=
  { s with calls := ⟨t, s.db.revision, s.taken.any (· < s.db.revision)⟩ :: s.calls }

/-- The sync of call `t` begins. -/
def start (t : Nat) : State := { s with running := some t, taken := none }.call t

/-- The promise of the sync of call `t` is settled. -/
def settle (t : Nat) (result : Except Error Backup.SyncResult) : State :=
  { s with settled := ⟨t, result, s.clone.head, s.mirror⟩ :: s.settled }

/-- `this.running = null`. -/
def clear : State := { s with running := none }

def enter (t : Nat) : State := { s with busy := t :: s.busy }

def leave (t : Nat) : State := { s with busy := s.busy.erase t }

end State

section

variable (rules : Rules)

/-- A fast-forward to the remote's `main` touches nothing that has been changed locally, and leaves
alone what it does not touch. -/
structure Forwards (s : State) (tree index : Tree) : Prop where
  ancestor : s.clone.head <:+ s.clone.tracking
  unchanged : ∀ path, s.headTree.lookup path ≠ (headTree s.clone.tracking).lookup path →
    (s.clone.index.lookup path = s.headTree.lookup path ∨
      s.clone.index.lookup path = (headTree s.clone.tracking).lookup path) ∧
    (staged rules s.clone.tree s.clone.index).lookup path = s.clone.index.lookup path
  touched : ∀ path, s.headTree.lookup path ≠ (headTree s.clone.tracking).lookup path →
    index.lookup path = (headTree s.clone.tracking).lookup path ∧
    (tree.lookup path).map (rules.store tree path) = index.lookup path
  others : ∀ path, s.headTree.lookup path = (headTree s.clone.tracking).lookup path →
    index.lookup path = s.clone.index.lookup path ∧ tree.lookup path = s.clone.tree.lookup path

/-- What an operation on the clone does when it does not fail. -/
def CloneOp.answers : (o : CloneOp) → State → o.Res → State → Prop
  | .mkdir, s, _, s' => s' = s
  | .collectFiles, s, r, s' => r.Sublist s.clone.tree.collected ∧ s' = s.collect r
  | .remove path, s, _, s' => s' = s.setTree (s.clone.tree.erase path)
  | .createTemporary temporary content, s, _, s' => temporary ∉ s.clone.tree ∧
      s' = s.setTree (s.clone.tree.insert temporary (.file content false))
  | .renameTemporary temporary path, s, _, s' => ∃ node, s.clone.tree.lookup temporary = some node ∧
      s' = s.setTree ((s.clone.tree.erase temporary).insert path node)
  | .status, s, r, s' => r = s.dirty rules ∧ s' = s
  | .add, s, _, s' => s' = s.add rules
  | .diffCached, s, r, s' => r = s.clone.index.differs s.headTree ∧ s' = s
  | .commit message, s, _, s' => s.clone.index.differs s.headTree = true ∧
      ∃ sha, s' = s.commit message sha
  | .headCommit, s, r, s' => (s.clone.head.head?.map Commit.sha) = some r ∧ s' = s
  | .unpushed, s, r, s' => r = (s.clone.head.filter fun c => c ∉ s.clone.tracking).length ∧ s' = s
  | .push, s, _, s' => s' = s.push
  | .rebase, s, _, s' => s.modified rules = false ∧ s.clone.rebasing = none ∧ ∃ tree head,
      Rebases s.clone.head s.clone.fetched head ∧
      s' = { s with clone := { s.clone with tree, index := headTree head, head } } ∧
      s'.modified rules = false
  | .abort, s, _, s' => ∃ orig tree, s.clone.rebasing = some orig ∧
      s' = { s with clone := { s.clone with
        tree, index := headTree orig, head := orig, rebasing := none } } ∧
      s'.modified rules = false
  | .merge, s, _, s' => s.clone.tracking <:+ s.clone.head ∧ s' = s ∨
      ∃ tree index, Forwards rules s tree index ∧ s' = s.forward tree index

/-- How an operation on the clone fails: with its effect or without it, with a part of a temporary
file, or in the middle of a rebase that meets a conflict. -/
def CloneOp.fails : (o : CloneOp) → State → Error → State → Prop
  | .remove path, s, _, s' => s' = s ∨ s' = s.setTree (s.clone.tree.erase path)
  | .createTemporary temporary content, s, _, s' => s' = s ∨ temporary ∉ s.clone.tree ∧
      ∃ part, part.toList <+: content.toList ∧
        s' = s.setTree (s.clone.tree.insert temporary (.file part false))
  | .renameTemporary temporary path, s, _, s' => s' = s ∨
      ∃ node, s.clone.tree.lookup temporary = some node ∧
        s' = s.setTree ((s.clone.tree.erase temporary).insert path node)
  | .commit message, s, _, s' => s' = s ∨ s.clone.index.differs s.headTree = true ∧
      ∃ sha, s' = s.commit message sha
  | .rebase, s, _, s' => s' = s ∨ s.modified rules = false ∧ s.clone.rebasing = none ∧
      ∃ tree index head, s' = { s with clone := { s.clone with
        tree, index, head, rebasing := some s.clone.head } }
  | _, s, _, s' => s' = s

/-- What an operation does when it does not fail. -/
def Op.answers : (o : Op) → State → o.Res → State → Prop
  | .on t o, s, r, s' => ∃ s₁, o.answers rules s r s₁ ∧ s' = s₁.log t o (s.dirty rules)
  | .snapshot, s, r, s' => readable s.db.current = true ∧ r = filesOf s.db.current ∧
      s' = s.takeSnapshot
  | .fetch, s, _, s' => ∃ history, (∀ c ∈ history, c.carries = none ∨ c ∈ s.pushed) ∧
      s' = { s with clone := { s.clone with fetched := history, tracking := history } }
  | .reload, s, _, s' => s' = { s with served := some (s.db.revision, s.db.current) }
  | .publish files, s, _, s' => s' = { s with db := s.db.publish files }
  | .joined t, s, r, s' => (∃ entry ∈ s.settled, entry.sync = t ∧ entry.result = .ok r) ∧ s' = s
  | _, s, _, s' => s' = s

/-- How an operation fails. -/
def Op.fails : (o : Op) → State → Error → State → Prop
  | .on t o, s, e, s' => ∃ s₁, o.fails rules s e s₁ ∧ s' = s₁.log t o (s.dirty rules)
  | .unique, _, _, _ | .remote, _, _, _ => False
  | .joined t, s, e, s' => (∃ entry ∈ s.settled, entry.sync = t ∧ entry.result = .error e) ∧ s' = s
  | _, s, _, s' => s' = s

abbrev sem : Sem lang where
  step o s r s' := match r with
    | .ok a => o.answers rules s a s'
    | .error e => o.fails rules s e s'
  torn _ _ _ := False
  crash _ _ := False

end

end ConfigRegistry.Git
