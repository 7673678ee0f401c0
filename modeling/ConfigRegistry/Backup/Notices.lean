import ConfigRegistry.Backup.Language
import Mathlib.Data.List.Induction
import Mathlib.Data.List.Infix

/-!
# The notice of the last back-up

`src/store/sync-status.ts`, with what reports to it: the two routes of the console that sync, the
scheduler, the retry of pushes, and the dismissal of the notice. This file shows which failure the
notice is of.
-/

namespace ConfigRegistry.Backup

open Js

/-! ### The notice -/

/-- `BackupNoticeCode`. -/
inductive BackupNoticeCode where
  | backupFailed
  | backupDeferred
  | backupNoRemote
deriving DecidableEq

inductive NoticeTone where
  | done
  | problem
deriving DecidableEq

structure Notice where
  tone : NoticeTone
  text : String
deriving DecidableEq

/-- `noticeFor`, of the codes of back-ups. -/
def noticeFor : BackupNoticeCode → Notice
  | .backupFailed => ⟨.problem, "Back-up failed. The live values are unchanged; try again."⟩
  | .backupDeferred => ⟨.problem, "Saved locally but not yet on the remote. Retry will keep trying."⟩
  | .backupNoRemote => ⟨.problem, "No git remote is configured, so nothing was pushed."⟩

/-- `text.includes(part)`. -/
def includes (text part : String) : Bool := decide (part.toList <:+: text.toList)

/-- `SyncStatus`. -/
structure SyncStatus where
  code : Option BackupNoticeCode := none
deriving DecidableEq

namespace SyncStatus

variable (status : SyncStatus)

def notice : Option Notice := status.code.map noticeFor

def clear (_ : SyncStatus) : SyncStatus := ⟨none⟩

def noteError (_ : SyncStatus) : SyncStatus := ⟨some .backupFailed⟩

def noteResult (result : SyncResult) : SyncStatus :=
  match result.kind with
  | .synced => ⟨none⟩
  | .clean => status
  | .deferred =>
    ⟨some (if result.reason.any fun reason => includes reason "no remote" then .backupNoRemote
      else .backupDeferred)⟩

end SyncStatus

/-! ### What reports to it -/

/-- How a sync ended. -/
abbrev Outcome : Type := Except Error SyncResult

/-- What starts a sync of the scheduler. -/
inductive Alarm where
  | timer
  | idle

/-- What happens: a sync ends, whatever started it, a push is retried, or the notice is
dismissed. -/
inductive NoticeEvent where
  /-- `POST /sync`, confirmed. -/
  | sync (outcome : Outcome)
  /-- `POST /sync/auto`, with the sync that turning it on sets going. -/
  | setAuto (enabled : Bool) (outcome : Outcome)
  /-- `SyncScheduler.run`. -/
  | run (alarm : Alarm) (outcome : Outcome)
  /-- The timer of `retryUnpushed`. -/
  | retry (pushed : Bool)
  /-- `GET /sync/ack`. -/
  | ack

structure Process where
  status : SyncStatus
  autoSync : Bool

namespace Process

variable (p : Process)

/-- `afterSync`, or the handler of what was thrown. -/
def afterSync : Outcome → Process
  | .ok result => { p with status := p.status.noteResult result }
  | .error _ => { p with status := p.status.noteError }

/-- The scheduler reports what was thrown. -/
def onError : Outcome → Process
  | .ok _ => p
  | .error _ => { p with status := p.status.noteError }

def step : NoticeEvent → Process
  | .sync outcome => p.afterSync outcome
  | .setAuto enabled outcome =>
    let p' := { p with autoSync := enabled }
    if enabled then p'.afterSync outcome else p'
  | .run _ outcome => if p.autoSync then p.onError outcome else p
  | .retry pushed => if pushed then { p with status := p.status.clear } else p
  | .ack => { p with status := p.status.clear }

/-- The process after a sequence of events. -/
def after (events : List NoticeEvent) : Process := events.foldl step p

@[simp] theorem after_nil : p.after [] = p := rfl

@[simp] theorem after_concat (events : List NoticeEvent) (e : NoticeEvent) :
    p.after (events ++ [e]) = (p.after events).step e := by
  simp [after]

end Process

/-! ### What the notice should be of -/

/-- What an event says about the back-up. -/
inductive Signal where
  /-- An attempt to back up ended. -/
  | attempted (outcome : Outcome)
  /-- A retry pushed. -/
  | pushed
  | dismissed

/-- An attempt threw or was deferred. -/
def Outcome.failed : Outcome → Bool
  | .ok result => result.kind == .deferred
  | .error _ => true

/-- The code of a failure. -/
def Outcome.code : Outcome → BackupNoticeCode
  | .ok result =>
    if result.reason.any fun reason => includes reason "no remote" then .backupNoRemote
    else .backupDeferred
  | .error _ => .backupFailed

/-- An attempt that found nothing to back up. -/
def Signal.clean : Signal → Bool
  | .attempted (.ok result) => result.kind == .clean
  | _ => false

/-- A sync that pushed, or a retry that did. -/
def Signal.succeeded : Signal → Bool
  | .attempted (.ok result) => result.kind == .synced
  | .pushed => true
  | _ => false

/-- The signal of an event, where it is one. The scheduler runs only while auto-sync is on. -/
def NoticeEvent.signal (autoSync : Bool) : NoticeEvent → Option Signal
  | .sync outcome | .setAuto true outcome => some (.attempted outcome)
  | .run _ outcome => if autoSync then some (.attempted outcome) else none
  | .retry true => some .pushed
  | .ack => some .dismissed
  | .setAuto false _ | .retry false => none

/-- The signals of a sequence of events, the newest first. -/
def signals (p : Process) : List NoticeEvent → List Signal
  | [] => []
  | e :: events => signals (p.step e) events ++ (e.signal p.autoSync).toList

/-- The newest signal that is not of a clean sync. -/
def newest (signals : List Signal) : Option Signal := signals.find? fun s => !s.clean

/-- The condition on an event: what the scheduler runs throws, or finds nothing to back up. -/
def NoticeEvent.Reported (autoSync : Bool) : NoticeEvent → Prop
  | .run _ (.ok result) => autoSync = true → result.kind = .clean
  | _ => True

/-- The condition on a sequence of events. -/
def Reported (p : Process) : List NoticeEvent → Prop
  | [] => True
  | e :: events => e.Reported p.autoSync ∧ Reported (p.step e) events

theorem signals_concat (p : Process) (events : List NoticeEvent) (e : NoticeEvent) :
    signals p (events ++ [e]) = (e.signal (p.after events).autoSync).toList ++ signals p events := by
  induction events generalizing p with
  | nil => simp [signals]
  | cons e' events ih => simp [signals, ih, Process.after]

theorem reported_concat {p : Process} {events : List NoticeEvent} {e : NoticeEvent} :
    Reported p (events ++ [e]) ↔ Reported p events ∧ e.Reported (p.after events).autoSync := by
  induction events generalizing p with
  | nil => simp [Reported]
  | cons e' events ih => simp [Reported, ih, Process.after, and_assoc]

/-- The newest signal that is not of a clean sync is of this failed attempt. -/
def Stands (signals : List Signal) (outcome : Outcome) : Prop :=
  newest signals = some (.attempted outcome) ∧ outcome.failed = true

/-- The code that a signal leaves behind. -/
def Signal.code : Signal → Option BackupNoticeCode
  | .attempted outcome => if outcome.failed then some outcome.code else none
  | .pushed | .dismissed => none

theorem stands_iff {signals : List Signal} {code : BackupNoticeCode} :
    (newest signals).bind Signal.code = some code ↔
      ∃ outcome, Stands signals outcome ∧ outcome.code = code := by
  constructor
  · intro h
    obtain ⟨s, hs, hcode⟩ := Option.bind_eq_some_iff.1 h
    cases s with
    | attempted outcome =>
      simp only [Signal.code, Option.ite_none_right_eq_some, Option.some.injEq] at hcode
      exact ⟨outcome, ⟨hs, hcode.1⟩, hcode.2⟩
    | pushed | dismissed => cases hcode
  · rintro ⟨outcome, ⟨hnewest, hfailed⟩, rfl⟩
    rw [hnewest, Option.bind_some, Signal.code, if_pos hfailed]

/-- What an event that is reported makes of the code. -/
theorem code_step {p : Process} {e : NoticeEvent} (h : e.Reported p.autoSync) :
    (p.step e).status.code =
      match e.signal p.autoSync with
      | none => p.status.code
      | some s => if s.clean then p.status.code else s.code := by
  have hafter (p : Process) (outcome : Outcome) : (p.afterSync outcome).status.code =
      if (Signal.attempted outcome).clean then p.status.code else (Signal.attempted outcome).code := by
    cases outcome with
    | error e => rfl
    | ok result =>
      obtain ⟨kind, files, commit, reason⟩ := result
      cases kind <;> rfl
  cases e with
  | sync outcome => exact hafter p outcome
  | setAuto enabled outcome =>
    cases enabled with
    | true => exact hafter { p with autoSync := true } outcome
    | false => rfl
  | run alarm outcome =>
    cases hauto : p.autoSync with
    | false => simp [Process.step, NoticeEvent.signal, hauto]
    | true =>
      cases outcome with
      | error e => simp [Process.step, NoticeEvent.signal, hauto, Process.onError, SyncStatus.noteError,
          Signal.clean, Signal.code, Outcome.failed, Outcome.code]
      | ok result =>
        have hclean : result.kind = .clean := h hauto
        simp [Process.step, NoticeEvent.signal, hauto, Process.onError, Signal.clean, hclean]
  | retry pushed => cases pushed <;> rfl
  | ack => rfl

/-- The code is that of the newest signal that is not of a clean sync. -/
theorem code_after {p : Process} (hp : p.status.code = none) {events : List NoticeEvent}
    (h : Reported p events) :
    (p.after events).status.code = (newest (signals p events)).bind Signal.code := by
  induction events using List.reverseRecOn with
  | nil => exact hp
  | append_singleton events e ih =>
    obtain ⟨hevents, he⟩ := reported_concat.1 h
    rw [Process.after_concat, code_step he, signals_concat, ih hevents]
    cases e.signal (p.after events).autoSync with
    | none => rfl
    | some s =>
      cases hclean : s.clean <;> simp [newest, hclean]

/-- **The notice tells the truth** where what the scheduler runs throws or finds nothing: it is of a
failure exactly when the newest attempt that was not clean failed, and was neither dismissed nor
followed by a push; and a success clears it. -/
theorem notice_tells_the_truth {p : Process} (hp : p.status.code = none) {events : List NoticeEvent}
    (h : Reported p events) :
    (∀ code, (p.after events).status.code = some code ↔
      ∃ outcome, Stands (signals p events) outcome ∧ outcome.code = code) ∧
    ∀ e s, e.Reported (p.after events).autoSync → e.signal (p.after events).autoSync = some s →
      s.succeeded = true → ((p.after events).step e).status.notice = none := by
  refine ⟨fun code => by rw [code_after hp h, stands_iff], fun e s he hs hsucceeded => ?_⟩
  rw [SyncStatus.notice, code_step he, hs]
  cases s with
  | attempted outcome =>
    cases outcome with
    | error e => cases hsucceeded
    | ok result =>
      have hkind : result.kind = .synced := by simpa [Signal.succeeded] using hsucceeded
      simp [Signal.clean, Signal.code, Outcome.failed, hkind]
  | pushed => rfl
  | dismissed => cases hsucceeded

def resultOf (kind : SyncKind) : SyncResult where
  kind
  files := ["config/payments/prod.yaml"]

/-- A back-up is deferred, the next one finds nothing to commit, and the timer's throws. -/
def deferredThenClean : List NoticeEvent :=
  [.sync (.ok (resultOf .deferred)), .sync (.ok (resultOf .clean)), .run .timer (.error (.of "locked"))]

/-- The notice is of the timer's sync, and a retry clears it. -/
theorem notice_tells_the_truth_cleared :
    ((Process.mk {} true).after deferredThenClean).status.code = some .backupFailed ∧
      (∃ outcome, Stands (signals (Process.mk {} true) deferredThenClean) outcome ∧
        outcome.code = .backupFailed) ∧
      (((Process.mk {} true).after deferredThenClean).step (.retry true)).status.notice = none := by
  have hreported : Reported (Process.mk {} true) deferredThenClean := ⟨trivial, trivial, trivial, trivial⟩
  obtain ⟨hcode, hclears⟩ := notice_tells_the_truth (p := Process.mk {} true) rfl hreported
  have hfailed : ((Process.mk {} true).after deferredThenClean).status.code = some .backupFailed := rfl
  exact ⟨hfailed, (hcode .backupFailed).1 hfailed, hclears (.retry true) .pushed trivial rfl rfl⟩

/-- A clean sync is the most recent attempt, and the notice of the one before it stands. -/
theorem clean_leaves_the_notice :
    ¬ ∀ (p : Process) (events : List NoticeEvent), p.status.code = none →
      ((p.after events).status.notice.isSome = true ↔
        ∃ outcome rest, signals p events = .attempted outcome :: rest ∧ outcome.failed = true) := by
  intro h
  obtain ⟨outcome, rest, hsignals, hfailed⟩ := (h (Process.mk {} false)
    [.sync (.ok (resultOf .deferred)), .sync (.ok (resultOf .clean))] rfl).1 rfl
  cases hsignals
  cases hfailed

end ConfigRegistry.Backup
