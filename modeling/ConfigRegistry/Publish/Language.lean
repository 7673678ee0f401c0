import ConfigRegistry.Async.Drive
import ConfigRegistry.Backup.SyncEngine

/-!
# The language of publishing

What `src/git/repository.ts`, `src/git/syncer.ts`, `src/store/sync-engine.ts` and
`src/store/pending-sync.ts` act on once a working tree is to become commits on a remote: the commits of
the clone and of the remote, the journal, and what the service remembers of its last back-up. The
working tree itself is left out: whether a sync finds changes is an answer of its own.
-/

namespace ConfigRegistry.Publish

open Js Async Backup

abbrev Sha : Type := String

/-- The commits that a branch has, the newest first. -/
abbrev History : Type := List Sha

structure Clone where
  head : History
  /-- `FETCH_HEAD`, and the `main` of the remote as the clone last saw it, if it ever did. -/
  fetched : History := []
  tracking : Option History := none
  /-- Where HEAD was, while a rebase is stopped at a conflict. -/
  rebasing : Option History := none

/-- What was the case when a call came, or looked for something to push: whether the remote had all of
HEAD, whether it lacked some of it when the clone last heard of it, and whether the journal had an
entry. -/
structure Look where
  call : Nat
  contained : Bool
  lacking : Bool
  entries : Bool
deriving DecidableEq

structure State where
  clone : Clone
  /-- Whether a remote is configured, and the `main` it has. -/
  configured : Bool
  remote : Option History
  /-- `pending.jsonl` and `sending.jsonl`. -/
  pending : List JournalEntry := []
  sending : List JournalEntry := []
  /-- The service has booted. -/
  up : Bool := false
  /-- `SyncEngine.running`: the call whose sync is in progress. -/
  running : Option Nat := none
  /-- `ConfigCache.synced`. -/
  synced : Option Sha := none
  /-- Beside the code: the sync whose promise each call of `syncNow` was given, and how syncs ended. -/
  calls : List (Nat × Nat) := []
  settled : List (Nat × Except Error SyncResult) := []
  /-- Beside the code: the `main` of the remote as of the last push or fetch that succeeded, the
  reports in progress, the looks, and the calls that attempted a push. -/
  known : History := []
  reporting : List Nat := []
  looks : List Look := []
  attempts : List Nat := []

/-- Who reads HEAD. -/
inductive Reader where
  | boot
  | fallback
  | commit
  | pull
deriving DecidableEq

inductive Op where
  /-- `journal.recover()`, `rotate()`, `drain(handle)`, `discard(handle)` and `append(entry)`. -/
  | recover
  | rotate
  | drain
  | discard
  | append (entry : JournalEntry)
  /-- The two reads of `journal.peek()`. -/
  | peekSending
  | peekPending
  /-- The reads and decryptions of a load, with its installation in the cache. -/
  | load
  /-- `snapshots.save(sources)`, and whether `snapshots.load()` finds one. -/
  | saveSnapshot
  | loadSnapshot
  /-- `readSnapshot()` and `mirrorSnapshot(…)`. -/
  | mirror
  /-- `git status --porcelain`, for the sync of call `t`. -/
  | status (t : Nat)
  /-- `git add -A`, `git diff --cached --name-only` and `git commit`. -/
  | add
  | diffCached
  | commit (message : String)
  /-- `git rev-parse HEAD`. -/
  | headCommit (reader : Reader)
  /-- The first line of `git remote`, if that answers one. -/
  | remoteName
  /-- `git log <remote>/main..HEAD`, for call `t`. -/
  | unpushed (t : Nat)
  /-- `git push <remote> HEAD:main`, for call `t`, which is to publish a commit it has made or
  whatever is there. -/
  | push (t : Nat) (made : Option Sha)
  /-- `git fetch <remote> main`. -/
  | fetch
  /-- `git rebase FETCH_HEAD`. -/
  | rebase
  /-- `git rebase --abort`. -/
  | abort
  /-- `git merge --ff-only <remote>/main`. -/
  | merge
  /-- The promise of the sync that call `t` started. -/
  | joined (t : Nat)
  /-- Somebody else leaves the `main` of the remote with this history. -/
  | upstream (main : History)

abbrev Op.Res : Op → Type
  | .drain | .peekSending | .peekPending => List JournalEntry
  | .loadSnapshot | .status _ | .diffCached => Bool
  | .mirror => List String
  | .headCommit _ => Sha
  | .remoteName => Option String
  | .unpushed _ => List Sha
  | .joined _ => SyncResult
  | _ => Unit

abbrev lang : Sig where
  State := State
  Err := Error
  Op := Op
  Res := Op.Res

/-- Await an operation. -/
abbrev op (o : Op) : Prog lang o.Res := Prog.op (S := lang) o

namespace State

variable (s : State)

/-- The remote's `main` has the commit. -/
def Has (sha : Sha) : Prop := ∃ main, s.remote = some main ∧ sha ∈ main

/-- The remote's `main` has all of HEAD. -/
def contained : Bool := s.clone.head.all fun sha => s.remote.any fun main => main.contains sha

/-- A push would not be forced: HEAD has all that the remote's `main` has. -/
def FastForward : Prop := ∀ main, s.remote = some main → main ⊆ s.clone.head

instance : Decidable s.FastForward :=
  match h : s.remote with
  | none => .isTrue fun _ hmain => by rw [h] at hmain; cases hmain
  | some main =>
    decidable_of_iff (main ⊆ s.clone.head)
      ⟨fun hsub m hm => by rw [h] at hm; cases hm; exact hsub, fun hff => hff main h⟩

/-- Call `t` notes what is the case. -/
def look (t : Nat) : State :=
  { s with looks := ⟨t, s.contained, s.clone.head.any fun sha => !s.known.contains sha,
      !(s.sending ++ s.pending).isEmpty⟩ :: s.looks }

/-- Call `t` attempts a push. -/
def attempt (t : Nat) : State := { s with attempts := t :: s.attempts }

/-- The remote takes HEAD, and the clone hears of it or does not. -/
def push : State :=
  { s with
    clone := { s.clone with tracking := some s.clone.head }
    remote := some s.clone.head
    known := s.clone.head }

def pushUnheard : State := { s with remote := some s.clone.head }

def fetch (main : History) : State :=
  { s with clone := { s.clone with fetched := main, tracking := some main }, known := main }

def moveHead (head : History) : State := { s with clone := { s.clone with head } }

/-- The memory of a process that has just started. -/
def restart : State := { s with up := false, running := none, synced := none, reporting := [] }

end State

/-- HEAD with its own commits replayed, as new ones, on what was fetched; nothing is to do where it is
on that already. -/
def Rebases (head onto head' : History) : Prop :=
  onto ⊆ head ∧ head' = head ∨
    ¬ onto ⊆ head ∧ ∃ again, (∀ sha ∈ again, sha ∉ head) ∧ head' = again ++ onto

/-- What an operation does when it does not fail. -/
def Op.answers : (o : Op) → State → o.Res → State → Prop
  | .recover, s, _, s' => s' = { s with pending := s.sending ++ s.pending, sending := [] }
  | .rotate, s, _, s' => s' = { s with pending := [], sending := s.pending }
  | .drain, s, r, s' | .peekSending, s, r, s' => r = s.sending ∧ s' = s
  | .peekPending, s, r, s' => r = s.pending ∧ s' = s
  | .discard, s, _, s' => s' = { s with sending := [] }
  | .append entry, s, _, s' => s' = { s with pending := s.pending ++ [entry] }
  | .status t, s, _, s' => s' = s.look t
  | .commit _, s, _, s' => ∃ sha, sha ∉ s.clone.head ∧ s' = s.moveHead (sha :: s.clone.head)
  | .headCommit _, s, r, s' => s.clone.head.head? = some r ∧ s' = s
  | .remoteName, s, r, s' => (∀ name, r = some name → s.configured = true) ∧ s' = s
  | .unpushed t, s, r, s' => (∃ main, s.clone.tracking = some main ∧
      r = s.clone.head.filter fun sha => !main.contains sha) ∧ s' = s.look t
  | .push t _, s, _, s' => s.FastForward ∧ s' = (s.attempt t).push
  | .fetch, s, _, s' => ∃ main, s.remote = some main ∧ s' = s.fetch main
  | .rebase, s, _, s' => s.clone.rebasing = none ∧
      ∃ head, Rebases s.clone.head s.clone.fetched head ∧ s' = s.moveHead head
  | .abort, s, _, s' => ∃ head, s.clone.rebasing = some head ∧
      s' = { s with clone := { s.clone with head, rebasing := none } }
  | .merge, s, _, s' => ∃ main, s.clone.tracking = some main ∧
      (main ⊆ s.clone.head ∧ s' = s ∨ s.clone.head ⊆ main ∧ s' = s.moveHead main)
  | .joined t, s, r, s' => (t, .ok r) ∈ s.settled ∧ s' = s
  | .upstream main, s, _, s' => s' = { s with remote := some main }
  | _, s, _, s' => s' = s

/-- How an operation fails: with its effect or without it, or in the middle. -/
def Op.fails : (o : Op) → State → Error → State → Prop
  | .recover, s, _, s' => s' = s ∨ s' = { s with pending := s.sending ++ s.pending }
  | .rotate, s, _, s' => s' = s ∨ s' = { s with sending := [] }
  | .discard, s, _, s' => s' = s ∨ s' = { s with sending := [] }
  | .append entry, s, _, s' => s' = s ∨ s' = { s with pending := s.pending ++ [entry] }
  | .status t, s, _, s' | .unpushed t, s, _, s' => s' = s.look t
  | .commit _, s, _, s' => s' = s ∨ ∃ sha, sha ∉ s.clone.head ∧ s' = s.moveHead (sha :: s.clone.head)
  | .push t _, s, _, s' => s' = s.attempt t ∨ s.FastForward ∧ s' = (s.attempt t).pushUnheard
  | .rebase, s, _, s' => s' = s ∨ s.clone.rebasing = none ∧ ∃ part, s' = { s with
      clone := { s.clone with head := part ++ s.clone.fetched, rebasing := some s.clone.head } }
  | .remoteName, _, _, _ => False
  | .joined t, s, e, s' => (t, .error e) ∈ s.settled ∧ s' = s
  | _, s, _, s' => s' = s

/-- Operations are not cut short: what a kill leaves of one is what a failure leaves. -/
abbrev sem : Sem lang where
  step o s r s' := match r with
    | .ok a => o.answers s a s'
    | .error e => o.fails s e s'
  torn _ _ _ := False
  crash s s' := s' = s.restart

/-! ### What a step can do -/

/-- The operations that change the journal. -/
def Op.onJournal : Op → Bool
  | .recover | .rotate | .discard | .append _ => true
  | _ => false

/-- What becomes of the remote's `main`, and of what the clone knows of it: a push or a fetch that the
clone hears of, a push it does not hear of, or a push of somebody else. -/
inductive Refs (o : Op) (s s' : State) : Prop where
  | same : s'.remote = s.remote → s'.clone.tracking = s.clone.tracking → s'.known = s.known →
      Refs o s s'
  | pushed : s.FastForward → s'.remote = some s.clone.head →
      s'.clone.tracking = some s.clone.head → s'.known = s.clone.head → Refs o s s'
  | unheard : s.FastForward → s'.remote = some s.clone.head →
      s'.clone.tracking = s.clone.tracking → s'.known = s.known → Refs o s s'
  | fetched (main : History) : s.remote = some main → s'.remote = some main →
      s'.clone.tracking = some main → s'.known = main → Refs o s s'
  | upstream (main : History) : o = .upstream main → s'.remote = some main →
      s'.clone.tracking = s.clone.tracking → s'.known = s.known → Refs o s s'

/-- What an operation leaves alone, beside what becomes of the refs. -/
structure Effect (o : Op) (s s' : State) : Prop where
  refs : Refs o s s'
  synced : s'.synced = s.synced
  calls : s'.calls = s.calls
  settled : s'.settled = s.settled
  reporting : s'.reporting = s.reporting
  looks : s.looks ⊆ s'.looks
  attempts : s.attempts ⊆ s'.attempts
  journal : o.onJournal = true ∨ s'.sending = s.sending ∧ s'.pending = s.pending

theorem Effect.refl (o : Op) (s : State) : Effect o s s where
  refs := .same rfl rfl rfl
  synced := rfl
  calls := rfl
  settled := rfl
  reporting := rfl
  looks := List.Subset.refl _
  attempts := List.Subset.refl _
  journal := .inr ⟨rfl, rfl⟩

/-- A change of the journal. -/
theorem effect_journal {o : Op} (ho : o.onJournal = true) (s : State) (pending sending : List JournalEntry) :
    Effect o s { s with pending, sending } :=
  { Effect.refl o s with refs := .same rfl rfl rfl, journal := .inl ho }

/-- A change of the clone that leaves the remote-tracking branch. -/
theorem effect_clone (o : Op) {s : State} {clone : Clone} (h : clone.tracking = s.clone.tracking) :
    Effect o s { s with clone } :=
  { Effect.refl o s with refs := .same rfl h rfl, journal := .inr ⟨rfl, rfl⟩ }

theorem effect_look (o : Op) (s : State) (t : Nat) : Effect o s (s.look t) :=
  { Effect.refl o s with
    refs := .same rfl rfl rfl
    looks := List.subset_cons_self _ _
    journal := .inr ⟨rfl, rfl⟩ }

theorem effect_push (o : Op) {s : State} (h : s.FastForward) (t : Nat) : Effect o s (s.attempt t).push :=
  { Effect.refl o s with
    refs := .pushed h rfl rfl rfl
    attempts := List.subset_cons_self _ _
    journal := .inr ⟨rfl, rfl⟩ }

theorem effect_answers {o : Op} {s s' : State} {a : o.Res} (h : o.answers s a s') : Effect o s s' := by
  have hsame (h : s' = s) : Effect o s s' := h ▸ .refl o s
  cases o with
  | recover | rotate | discard | append _ => cases h; exact effect_journal rfl s _ _
  | drain | peekSending | peekPending | headCommit _ | remoteName | joined _ => exact hsame h.2
  | load | saveSnapshot | loadSnapshot | mirror | add | diffCached => exact hsame h
  | status t => cases h; exact effect_look _ s t
  | unpushed t => cases h.2; exact effect_look _ s t
  | commit message =>
    obtain ⟨sha, -, rfl⟩ := h
    exact effect_clone _ rfl
  | push t made =>
    obtain ⟨hff, rfl⟩ := h
    exact effect_push _ hff t
  | fetch =>
    obtain ⟨main, hmain, rfl⟩ := h
    exact { Effect.refl .fetch s with
      refs := .fetched main hmain hmain rfl rfl
      journal := .inr ⟨rfl, rfl⟩ }
  | rebase =>
    obtain ⟨-, head, -, rfl⟩ := h
    exact effect_clone _ rfl
  | abort =>
    obtain ⟨head, -, rfl⟩ := h
    exact effect_clone _ rfl
  | merge =>
    obtain ⟨main, -, ⟨-, hs⟩ | ⟨-, rfl⟩⟩ := h
    · exact hsame hs
    · exact effect_clone _ rfl
  | upstream main =>
    cases h
    exact { Effect.refl (.upstream main) s with
      refs := .upstream main rfl rfl rfl rfl
      journal := .inr ⟨rfl, rfl⟩ }

theorem effect_fails {o : Op} {s s' : State} {e : Error} (h : o.fails s e s') : Effect o s s' := by
  have hsame (h : s' = s) : Effect o s s' := h ▸ .refl o s
  cases o with
  | recover | rotate | discard | append _ =>
    rcases h with hs | rfl
    · exact hsame hs
    · exact effect_journal rfl s _ _
  | status t | unpushed t => cases h; exact effect_look _ s t
  | commit message =>
    rcases h with hs | ⟨sha, -, rfl⟩
    · exact hsame hs
    · exact effect_clone _ rfl
  | push t made =>
    rcases h with rfl | ⟨hff, rfl⟩
    · exact { Effect.refl (.push t made) s with
        refs := .same rfl rfl rfl
        attempts := List.subset_cons_self _ _
        journal := .inr ⟨rfl, rfl⟩ }
    · exact { Effect.refl (.push t made) s with
        refs := .unheard hff rfl rfl rfl
        attempts := List.subset_cons_self _ _
        journal := .inr ⟨rfl, rfl⟩ }
  | rebase =>
    rcases h with hs | ⟨-, part, rfl⟩
    · exact hsame hs
    · exact effect_clone _ rfl
  | remoteName => cases h
  | joined _ => exact hsame h.2
  | drain | peekSending | peekPending | headCommit _ | load | saveSnapshot | loadSnapshot | mirror | add
    | diffCached | fetch | abort | merge | upstream _ => exact hsame h

/-- What any operation leaves alone, whether it works or fails. -/
theorem effect_of_step {o : Op} {s s' : State} {r : Except Error o.Res} (h : sem.step o s r s') :
    Effect o s s' := by
  cases r with
  | ok a => exact effect_answers h
  | error e => exact effect_fails h

end ConfigRegistry.Publish
