import ConfigRegistry.Async.Accord
import ConfigRegistry.Publish.Language

/-!
# What publishes

`src/git/repository.ts`, `src/git/syncer.ts`, `src/store/sync-engine.ts` and
`src/store/pending-sync.ts`, with what `src/server.ts` sets going: the boot, writes, syncs, the retry of
unpushed commits, the pulls of the webhook and of the poll, and the report of what is pending.
-/

namespace ConfigRegistry.Publish

open Js Async Backup

/-- `Promise<PushResult>`. -/
structure PushResult where
  pushed : Bool
  reason : Option String := none

/-- `RetryResult`. -/
structure RetryResult where
  pushed : Bool
  commits : Nat
deriving DecidableEq

/-- `PendingSyncReport`. -/
structure PendingSyncReport where
  entries : List JournalEntry
  unpushed : List Sha
  ready : Bool
deriving DecidableEq

namespace GitRepository

variable (t : Nat)

def commitWorkingTree (message : String) : Prog lang (Option Sha) := do
  op .add
  let staged ← op .diffCached
  if staged = false then pure none
  else
    op (.commit message)
    let sha ← op (.headCommit .commit)
    pure (some sha)

def rebaseAndPush (made : Option Sha) (first : Error) : Prog lang PushResult := do
  match ← (op .fetch).attempt with
  | .error _ => pure { pushed := false, reason := some first.message }
  | .ok _ =>
    match ← (op .rebase).attempt with
    | .error cause =>
      let _ ← (op .abort).attempt
      pure { pushed := false, reason := some ("remote has diverged: " ++ cause.message) }
    | .ok _ =>
      Prog.handle (do
        op (.push t made)
        pure { pushed := true }) fun cause =>
          pure { pushed := false, reason := some cause.message }

def push (made : Option Sha) : Prog lang PushResult := do
  match ← op .remoteName with
  | none => pure { pushed := false, reason := some "no remote is configured" }
  | some _ =>
    Prog.handle (do
      op (.push t made)
      pure { pushed := true }) fun cause => rebaseAndPush t made cause

def unpushedCommits : Prog lang (List Sha) := do
  match ← op .remoteName with
  | none => pure []
  | some _ => Prog.handle (op (.unpushed t)) fun _ => pure []

def pull : Prog lang Sha := do
  match ← op .remoteName with
  | none => op (.headCommit .pull)
  | some _ =>
    op .fetch
    op .merge
    op (.headCommit .pull)

end GitRepository

/-- `gitSyncPort(repository).commit`. -/
def commit (message : String) : Prog lang Sha := do
  match ← GitRepository.commitWorkingTree message with
  | some commit => pure commit
  | none => .fail (.of "Git reported changes but produced no commit")

namespace SyncEngine

variable (t : Nat)

/-- `onSynced`: `cache.markSynced(commit)`. -/
def markSynced (commit : Sha) : Prog lang Unit :=
  Prog.modify (S := lang) fun s => { s with synced := some commit }

/-- `performSync`. -/
def performSync : Prog lang SyncResult := do
  op .rotate
  let files ← op .mirror
  let changed ← op (.status t)
  if changed = false then
    op .discard
    pure { kind := .clean, files }
  else
    let entries ← op .drain
    let sha ← commit (composeCommitMessage files entries)
    op .discard
    let pushed ← GitRepository.push t (some sha)
    if pushed.pushed then
      markSynced sha
      pure { kind := .synced, files, commit := some sha }
    else pure { kind := .deferred, files, commit := some sha, reason := pushed.reason }

/-- Call `t` of `syncNow` is given the promise of the sync of call `u`. -/
def given (u : Nat) : Prog lang Unit :=
  Prog.modify (S := lang) fun s => { s with calls := (t, u) :: s.calls }

/-- `syncNow`: while a sync runs, its promise is handed out. The slot is cleared once the promise is
settled and whoever started the sync goes on. -/
def syncNow : Prog lang SyncResult := do
  match (← Prog.get (S := lang)).running with
  | some u =>
    given t u
    op (.joined u)
  | none =>
    Prog.modify (S := lang) fun s => { s with running := some t }
    given t t
    let r ← (performSync t).attempt
    Prog.modify (S := lang) fun s => { s with settled := (t, r) :: s.settled }
    Prog.ensure (op (.joined t)) (Prog.modify (S := lang) fun s => { s with running := none })

end SyncEngine

/-- `GitSyncer.retryUnpushed`. -/
def retryUnpushed (t : Nat) : Prog lang RetryResult := do
  let pending := (← (GitRepository.unpushedCommits t).attempt).toOption.getD []
  if pending.length = 0 then pure { pushed := false, commits := 0 }
  else
    let result ← GitRepository.push t none
    pure { pushed := result.pushed, commits := if result.pushed then pending.length else 0 }

namespace PendingSync

variable (t : Nat) (hasRemote : Bool)

/-- `journal.peek()`. -/
def peek : Prog lang (List JournalEntry) := do
  let sending ← op .peekSending
  let pending ← op .peekPending
  pure (sending ++ pending)

/-- `report`. -/
def report : Prog lang PendingSyncReport := do
  let entries ← peek
  let unpushed ← (if hasRemote then GitRepository.unpushedCommits t else pure [])
  pure { entries, unpushed, ready := hasRemote && (entries.length > 0 || unpushed.length > 0) }

end PendingSync

/-- `main`, up to where the service answers: the journal, and the load from the database or from the
last snapshot, with `markSynced` after it. -/
def boot : Prog lang Unit := do
  op .recover
  Prog.handle (do
    op .load
    let head ← op (.headCommit .boot)
    SyncEngine.markSynced head
    op .saveSnapshot) fun _ => do
      let found ← op .loadSnapshot
      if found then
        op .load
        let head ← Prog.handle (op (.headCommit .fallback)) fun _ => pure ""
        SyncEngine.markSynced head
      else pure ()
  Prog.modify (S := lang) fun s => { s with up := true }

/-- What sets something going: the start of the process, a save with its journal entries, one of the
triggers of a sync, the timers and the listener of `src/server.ts`, the console's look at what is
pending, and the others who push to the remote. -/
inductive Request where
  | boot
  | write (entries : List JournalEntry)
  | sync
  | retry
  | webhook
  | poll
  | report
  | upstream (main : History)
deriving DecidableEq

/-- What a request is answered with. -/
inductive Answer where
  | done
  | synced (result : SyncResult)
  | retried (result : RetryResult)
  | reported (report : PendingSyncReport)
deriving DecidableEq

/-- The report of call `t`, from its start to its end. -/
def reporting (t : Nat) (p : Prog lang PendingSyncReport) : Prog lang PendingSyncReport := do
  Prog.modify (S := lang) fun s => { s with reporting := t :: s.reporting }
  p.ensure (Prog.modify (S := lang) fun s => { s with reporting := s.reporting.erase t })

/-- Call `t` notes what is the case as it comes. -/
def noting (t : Nat) : Prog lang Unit := Prog.modify (S := lang) fun s => s.look t

/-- The program of the request made as call `t`. `hasRemote` is whether the configuration names a
remote. -/
def serve (hasRemote : Bool) (t : Nat) : Request → Prog lang Answer
  | .boot => do
    boot
    pure .done
  | .write entries => do
    Prog.each entries fun entry => op (.append entry)
    pure .done
  | .sync => do
    noting t
    let result ← SyncEngine.syncNow t
    pure (.synced result)
  | .retry => do
    noting t
    let result ← retryUnpushed t
    pure (.retried result)
  | .webhook => do
    let _ ← GitRepository.pull
    op .load
    pure .done
  | .poll => Prog.handle (do
    let _ ← GitRepository.pull.attempt
    op .load
    pure .done) fun _ => pure .done
  | .report => do
    let report ← reporting t (PendingSync.report t hasRemote)
    pure (.reported report)
  | .upstream main => do
    op (.upstream main)
    pure .done

/-- A boot comes when nothing is in progress, requests once the service has booted, and the others push
whenever they want. -/
def arrives (p : Pool lang Request Answer) : Request → Prop
  | .boot => p.state.up = false ∧ p.Quiet
  | .upstream _ => True
  | _ => p.state.up = true

def service (hasRemote : Bool) : System lang Request Answer where
  sem := sem
  body := serve hasRemote
  mayArrive := arrives

/-- Where the operations keep an assertion, a pull does. -/
theorem idle_pull {A : Accord lang} {sem' : Sem lang} {t : Nat} {P : State → Prop}
    (hop : ∀ o, A.Idle sem' t P (op o)) : A.Idle sem' t P GitRepository.pull := by
  refine .bind (hop .remoteName) fun name => ?_
  cases name with
  | none => exact hop _
  | some name => exact .bind (hop .fetch) fun _ => .bind (hop .merge) fun _ => hop _

/-! ### Scheduled runs -/

/-- Which of its outcomes an operation has: it works, a status with what it finds, a commit or a rebase
with the commits it makes, or it fails without an effect. -/
inductive Choice where
  | works
  | finds (changed : Bool)
  | makes (shas : List Sha)
  | fails

def Choice.failing : Choice → Bool
  | .fails => true
  | _ => false

/-- The answer of an operation that works. -/
def Op.answer (s : State) : (o : Op) → Option (o.Res × State)
  | .recover => some ((), { s with pending := s.sending ++ s.pending, sending := [] })
  | .rotate => some ((), { s with pending := [], sending := s.pending })
  | .drain | .peekSending => some (s.sending, s)
  | .peekPending => some (s.pending, s)
  | .discard => some ((), { s with sending := [] })
  | .append entry => some ((), { s with pending := s.pending ++ [entry] })
  | .load | .saveSnapshot | .add => some ((), s)
  | .loadSnapshot | .diffCached => some (true, s)
  | .mirror => some ([], s)
  | .headCommit _ => s.clone.head.head?.map fun sha => (sha, s)
  | .remoteName => some (if s.configured then some "origin" else none, s)
  | .unpushed t => s.clone.tracking.map fun main =>
      (s.clone.head.filter fun sha => !main.contains sha, s.look t)
  | .push t _ => if s.FastForward then some ((), (s.attempt t).push) else none
  | .fetch => s.remote.map fun main => ((), s.fetch main)
  | .merge => s.clone.tracking.bind fun main =>
      if main ⊆ s.clone.head then some ((), s)
      else if s.clone.head ⊆ main then some ((), s.moveHead main) else none
  | .upstream main => some ((), { s with remote := some main })
  | .status _ | .commit _ | .rebase | .abort | .joined _ => none

theorem answers_of_answer {s s' : State} {o : Op} {a : o.Res} (h : o.answer s = some (a, s')) :
    o.answers s a s' := by
  cases o with
  | headCommit reader =>
    obtain ⟨sha, hsha, heq⟩ := Option.map_eq_some_iff.1 h
    cases heq
    exact ⟨hsha, rfl⟩
  | remoteName =>
    cases h
    refine ⟨fun name hname => ?_, rfl⟩
    split at hname
    · assumption
    · cases hname
  | unpushed t =>
    obtain ⟨main, hmain, heq⟩ := Option.map_eq_some_iff.1 h
    cases heq
    exact ⟨⟨main, hmain, rfl⟩, rfl⟩
  | push t made =>
    simp only [Op.answer] at h
    split at h
    · cases h
      exact ⟨‹_›, rfl⟩
    · cases h
  | fetch =>
    obtain ⟨main, hmain, heq⟩ := Option.map_eq_some_iff.1 h
    cases heq
    exact ⟨main, hmain, rfl⟩
  | merge =>
    obtain ⟨main, hmain, heq⟩ := Option.bind_eq_some_iff.1 h
    refine ⟨main, hmain, ?_⟩
    split at heq
    · cases heq
      exact .inl ⟨‹_›, rfl⟩
    · split at heq
      · cases heq
        exact .inr ⟨‹_›, rfl⟩
      · cases heq
  | recover | rotate | discard | append _ | load | saveSnapshot | add | upstream _ => cases h; rfl
  | drain | peekSending | peekPending => cases h; exact ⟨rfl, rfl⟩
  | loadSnapshot | diffCached | mirror => cases h; rfl
  | status _ | commit _ | rebase | abort | joined _ => cases h

/-- The failure of an operation, without an effect on anything but what is noted beside the code. -/
def Op.failure (s : State) : Op → Option State
  | .remoteName | .joined _ => none
  | .status t | .unpushed t => some (s.look t)
  | .push t _ => some (s.attempt t)
  | _ => some s

theorem fails_of_failure {s s' : State} {o : Op} (h : o.failure s = some s') (e : Error) :
    o.fails s e s' := by
  cases o with
  | remoteName | joined _ => cases h
  | recover | rotate | discard | append _ | commit _ | push _ _ | rebase => cases h; exact .inl rfl
  | _ => cases h; rfl

/-- The result of the sync of a call, as its promise was settled. -/
def State.settledBy (s : State) (t : Nat) : Option (Except Error SyncResult) :=
  (s.settled.find? fun entry => entry.1 == t).map Prod.snd

theorem mem_settled {s : State} {t : Nat} {r : Except Error SyncResult} (h : s.settledBy t = some r) :
    (t, r) ∈ s.settled := by
  obtain ⟨⟨u, r'⟩, hfind, rfl⟩ := Option.map_eq_some_iff.1 h
  obtain rfl : u = t := by simpa using List.find?_some hfind
  exact List.mem_of_find?_eq_some hfind

/-- An operation with the outcome that was chosen. -/
def perform : Choice → (o : Op) → State → Option (Except Error o.Res × State)
  | .works, .joined t, s => (s.settledBy t).map fun r => (r, s)
  | .works, o, s => (o.answer s).map fun (a, s') => (.ok a, s')
  | .finds changed, .status t, s => some (.ok changed, s.look t)
  | .makes [sha], .commit _, s =>
    if sha ∈ s.clone.head then none else some (.ok (), s.moveHead (sha :: s.clone.head))
  | .makes again, .rebase, s =>
    if s.clone.rebasing.isNone && !decide (s.clone.fetched ⊆ s.clone.head) &&
        again.all fun sha => !s.clone.head.contains sha then
      some (.ok (), s.moveHead (again ++ s.clone.fetched))
    else none
  | .fails, o, s => (o.failure s).map fun s' => (.error (.of "failed"), s')
  | _, _, _ => none

theorem step_of_perform {c : Choice} {o : Op} {s s' : State} {r : Except Error o.Res}
    (h : perform c o s = some (r, s')) : sem.step o s r s' := by
  unfold perform at h
  split at h
  · rename_i t s
    obtain ⟨r', hr', heq⟩ := Option.map_eq_some_iff.1 h
    cases heq
    cases r with
    | ok a => exact ⟨mem_settled hr', rfl⟩
    | error e => exact ⟨mem_settled hr', rfl⟩
  · obtain ⟨⟨a, s''⟩, ha, heq⟩ := Option.map_eq_some_iff.1 h
    cases heq
    exact answers_of_answer ha
  · cases h
    rfl
  · split at h
    · cases h
    · cases h
      exact ⟨_, ‹_›, rfl⟩
  · split at h
    · rename_i hready
      cases h
      simp only [Bool.and_eq_true, Option.isNone_iff_eq_none, Bool.not_eq_true', decide_eq_false_iff_not,
        List.all_eq_true, List.contains_eq_mem] at hready
      exact ⟨hready.1.1, _, .inr ⟨hready.1.2, _, hready.2, rfl⟩, rfl⟩
    · cases h
  · obtain ⟨s'', hs, heq⟩ := Option.map_eq_some_iff.1 h
    cases heq
    exact fails_of_failure hs _
  · cases h

/-- An operation answers, unless its failure was chosen. -/
theorem isOk_of_perform {c : Choice} {o : Op} {s s' : State} {r : Except Error o.Res}
    (h : perform c o s = some (r, s')) (ho : ∀ t, o ≠ .joined t) : r.isOk = !c.failing := by
  unfold perform at h
  split at h
  · exact (ho _ rfl).elim
  · obtain ⟨⟨a, s''⟩, -, heq⟩ := Option.map_eq_some_iff.1 h
    cases heq
    rfl
  · cases h
    rfl
  · split at h
    · cases h
    · cases h
      rfl
  · split at h
    · cases h
      rfl
    · cases h
  · obtain ⟨s'', -, heq⟩ := Option.map_eq_some_iff.1 h
    cases heq
    rfl
  · cases h

/-- The service on a schedule, with those of its outcomes that are allowed. -/
def serviceDriver (hasRemote : Bool) (allowed : Choice → Op → State → Bool) :
    Driver lang Request Answer Choice where
  body := serve hasRemote
  allowArrive p c :=
    match c with
    | .boot => !p.state.up && decide p.Quiet
    | .upstream _ => true
    | _ => p.state.up
  perform c o s := if allowed c o s = true then perform c o s else none
  crash s := some s.restart

theorem arrives_of_allowArrive {hasRemote : Bool} {allowed : Choice → Op → State → Bool}
    {p : Pool lang Request Answer} {c : Request}
    (h : (serviceDriver hasRemote allowed).allowArrive p c = true) : arrives p c := by
  cases c with
  | boot =>
    simp only [serviceDriver, Bool.and_eq_true, Bool.not_eq_true', decide_eq_true_eq] at h
    exact h
  | upstream main => trivial
  | write _ | sync | retry | webhook | poll | report => exact h

/-- A schedule whose outcomes are allowed is a run of the service in which they are. -/
theorem serviceDriver_follows {hasRemote : Bool} {allowed : Choice → Op → State → Bool} {sem' : Sem lang}
    (hstep : ∀ c o s r s', allowed c o s = true → perform c o s = some (r, s') → sem'.step o s r s')
    (hcrash : ∀ s, sem'.crash s s.restart) :
    (serviceDriver hasRemote allowed).Follows { service hasRemote with sem := sem' } where
  body := rfl
  allow _ _ _ := trivial
  allowArrive _ _ h := arrives_of_allowArrive h
  step c o s r s' h := by
    simp only [serviceDriver] at h
    split at h
    · exact hstep c o s r s' ‹_› h
    · cases h
  cut _ _ _ _ h := by cases h
  crash s s' h := by
    cases h
    exact hcrash s

/-- Operation after operation of call `t` works. -/
def works (t n : Nat) : List (Event Request Choice) := List.replicate n (.run t .works)

/-- A sync of call `t` up to its push, with the commit that it makes. -/
def commits (t : Nat) (sha : Sha) : List (Event Request Choice) :=
  .arrive .sync :: works t 2 ++ .run t (.finds true) :: works t 3 ++ .run t (.makes [sha]) :: works t 3

/-- A clone with one commit. -/
def freshClone (tracking remote : Option History) : State where
  clone := { head := ["c0"], tracking }
  configured := true
  remote
  known := tracking.getD []

end ConfigRegistry.Publish
