import ConfigRegistry.Backup.Notices

/-!
# When syncs start

`src/store/sync-scheduler.ts` and its wiring in `src/server.ts`: an interval that always runs, and a timer that every
write sets anew. The event loop may run a timer late, but not before it is due.
-/

namespace ConfigRegistry.Backup

deriving instance DecidableEq for Alarm

/-- `SyncScheduler`: the moments its timers are due. -/
structure SyncScheduler where
  autoSync : Bool := false
  timer : Option Nat := none
  idle : Option Nat := none
deriving DecidableEq

/-- `intervalMs` and `idleMs`. -/
structure Delays where
  interval : Nat
  idle : Nat

def Delays.of (delays : Delays) : Alarm → Nat
  | .timer => delays.interval
  | .idle => delays.idle

inductive SchedulerEvent where
  | setAutoSync (enabled : Bool)
  | start
  | stop
  | notifyWrite
  /-- A timer runs. -/
  | rings (alarm : Alarm)
deriving DecidableEq

/-- What happens, and when. -/
structure Happening where
  moment : Nat
  event : SchedulerEvent
deriving DecidableEq

namespace SyncScheduler

variable (delays : Delays) (s : SyncScheduler)

def due : Alarm → Option Nat
  | .timer => s.timer
  | .idle => s.idle

def setAutoSync (enabled : Bool) : SyncScheduler := { s with autoSync := enabled }

def start (now : Nat) : SyncScheduler :=
  if s.timer.isSome then s else { s with timer := some (now + delays.interval) }

def stop : SyncScheduler := { s with timer := none, idle := none }

def notifyWrite (now : Nat) : SyncScheduler :=
  if s.autoSync then { s with idle := some (now + delays.idle) } else s

/-- `setInterval` sets its timer anew, `setTimeout` does not. -/
def ring (now : Nat) : Alarm → SyncScheduler
  | .timer => { s with timer := some (now + delays.interval) }
  | .idle => { s with idle := none }

def step (h : Happening) : SyncScheduler :=
  match h.event with
  | .setAutoSync enabled => s.setAutoSync enabled
  | .start => s.start delays h.moment
  | .stop => s.stop
  | .notifyWrite => s.notifyWrite delays h.moment
  | .rings alarm => s.ring delays h.moment alarm

/-- `run`: the sync that a timer starts. -/
def starts (h : Happening) : Option Alarm :=
  match h.event with
  | .rings alarm => if s.autoSync then some alarm else none
  | _ => none

/-- The scheduler after what happened. -/
def after (history : List Happening) : SyncScheduler := history.foldl (step delays) s

/-- Time goes on, a timer runs when it is due, and nothing happens when one has been due for longer than `late`. -/
structure MayHappen (late now : Nat) (h : Happening) : Prop where
  onward : now ≤ h.moment
  due : ∀ alarm, h.event = .rings alarm → ∃ due, s.due alarm = some due ∧ due ≤ h.moment
  punctual : ∀ alarm due, s.due alarm = some due → h.moment ≤ due + late

/-- What can happen to a scheduler from a moment on. -/
def Runs (late : Nat) : SyncScheduler → Nat → List Happening → Prop
  | _, _, [] => True
  | s, now, h :: hs => s.MayHappen late now h ∧ Runs late (s.step delays h) h.moment hs

/-- What sets the idle timer anew, or stops it. -/
def Resets (h : Happening) : Prop :=
  h.event = .stop ∨ h.event = .rings .idle ∨ h.event = .notifyWrite ∧ s.autoSync = true

/-- Nothing does. -/
def Undisturbed : SyncScheduler → List Happening → Prop
  | _, [] => True
  | s, h :: hs => ¬ s.Resets h ∧ Undisturbed (s.step delays h) hs

variable {delays} {s} {late now : Nat} {alarm : Alarm} {h : Happening} {hs pre post : List Happening}

/-! ### Runs -/

@[simp] theorem after_nil : s.after delays [] = s := rfl

@[simp] theorem after_cons : s.after delays (h :: hs) = (s.step delays h).after delays hs := rfl

theorem after_append : s.after delays (pre ++ post) = (s.after delays pre).after delays post := List.foldl_append ..

/-- The interval is due within its length. -/
def Soon (delays : Delays) (s : SyncScheduler) (now : Nat) : Prop :=
  ∀ due, s.timer = some due → due ≤ now + delays.interval

theorem Soon.step (hsoon : Soon delays s now) (honward : now ≤ h.moment) :
    Soon delays (s.step delays h) h.moment := by
  have hlater : ∀ due, s.timer = some due → due ≤ h.moment + delays.interval := fun due hdue => by
    have := hsoon due hdue
    omega
  intro due hdue
  rw [SyncScheduler.step] at hdue
  split at hdue
  · exact hlater due hdue
  · rw [start] at hdue
    split at hdue
    · exact hlater due hdue
    · obtain rfl := Option.some.inj hdue
      exact Nat.le_refl _
  · cases hdue
  · rw [notifyWrite] at hdue
    split at hdue <;> exact hlater due hdue
  · rename_i alarm _
    cases alarm with
    | timer =>
      obtain rfl := Option.some.inj hdue
      exact Nat.le_refl _
    | idle => exact hlater due hdue

theorem Runs.drop (hsoon : Soon delays s now) (hruns : Runs delays late s now (pre ++ post)) :
    ∃ now', Runs delays late (s.after delays pre) now' post ∧ Soon delays (s.after delays pre) now' := by
  induction pre generalizing s now with
  | nil => exact ⟨now, hruns, hsoon⟩
  | cons h pre ih => exact ih (hsoon.step hruns.1.onward) hruns.2

/-- A timer is left as it is by everything but its own ringing, a stop, and a write where it is the idle one. -/
theorem due_step (hring : h.event ≠ .rings alarm) (hstop : h.event ≠ .stop)
    (hwrite : alarm = .idle → h.event ≠ .notifyWrite) {due : Nat} (hdue : s.due alarm = some due) :
    (s.step delays h).due alarm = some due := by
  rw [SyncScheduler.step]
  split
  · cases alarm <;> exact hdue
  · rw [start]
    split
    · exact hdue
    · rename_i hnone
      cases alarm with
      | timer => exact absurd (by rw [show s.timer = some due from hdue]; rfl) hnone
      | idle => exact hdue
  · rename_i heq
    exact absurd heq hstop
  · rename_i heq
    cases alarm with
    | timer =>
      rw [notifyWrite]
      split <;> exact hdue
    | idle => exact absurd heq (hwrite rfl)
  · rename_i rung heq
    have hne : rung ≠ alarm := fun h => hring (h ▸ heq)
    cases rung <;> cases alarm <;> first | exact absurd rfl hne | exact hdue

/-- A timer that is set rings in time, if it is let. -/
theorem rings_by {due : Nat} (hruns : Runs delays late s now hs) (hdue : s.due alarm = some due)
    (hlet : ∀ h ∈ hs, h.moment ≤ due + late → h.event ≠ .stop ∧ (alarm = .idle → h.event ≠ .notifyWrite))
    (hlater : ∃ h ∈ hs, due + late < h.moment) :
    ∃ mid h rest, hs = mid ++ h :: rest ∧ h.event = .rings alarm ∧ h.moment ≤ due + late ∧
      ∀ k ∈ mid, k.moment ≤ due + late := by
  induction hs generalizing s now with
  | nil =>
    obtain ⟨h, hmem, -⟩ := hlater
    cases hmem
  | cons h hs ih =>
    have hmoment := hruns.1.punctual alarm due hdue
    by_cases hring : h.event = .rings alarm
    · exact ⟨[], h, hs, rfl, hring, hmoment, by simp⟩
    · have hkept := hlet h (List.mem_cons_self ..) hmoment
      have hrest : ∃ h ∈ hs, due + late < h.moment := by
        obtain ⟨k, hk, hlt⟩ := hlater
        rcases List.mem_cons.1 hk with rfl | hk
        · omega
        · exact ⟨k, hk, hlt⟩
      obtain ⟨mid, k, rest, rfl, hrings, hby, hmid⟩ := ih hruns.2 (due_step hring hkept.1 hkept.2 hdue)
        (fun k hk => hlet k (List.mem_cons_of_mem _ hk)) hrest
      exact ⟨h :: mid, k, rest, rfl, hrings, hby, List.forall_mem_cons.2 ⟨hmoment, hmid⟩⟩

theorem autoSync_after (hon : s.autoSync = true) (hkept : ∀ h ∈ hs, h.event ≠ .setAutoSync false) :
    (s.after delays hs).autoSync = true := by
  induction hs generalizing s with
  | nil => exact hon
  | cons h hs ih =>
    refine ih ?_ fun k hk => hkept k (List.mem_cons_of_mem _ hk)
    have hnot := hkept h (List.mem_cons_self ..)
    rw [SyncScheduler.step]
    split
    · rename_i enabled heq
      cases enabled with
      | true => rfl
      | false => exact absurd heq hnot
    · rw [start]
      split <;> exact hon
    · exact hon
    · rw [notifyWrite, if_pos hon]
      exact hon
    · rename_i rung _
      cases rung <;> exact hon

/-! ### Writes -/

/-- Every write is followed by a sync within the interval, and within the shorter delay where no other write comes
between, unless the scheduler is stopped or set to leave syncing to the operator. -/
theorem writes_are_synced {w : Nat} (alarm : Alarm)
    (hruns : Runs delays late {} now (pre ++ ⟨w, .notifyWrite⟩ :: post))
    (hon : (after delays {} pre).autoSync = true)
    (hstarted : alarm = .timer → (after delays {} pre).timer ≠ none)
    (hleft : ∀ h ∈ post, h.moment ≤ w + delays.of alarm + late →
      h.event ≠ .stop ∧ h.event ≠ .setAutoSync false ∧ (alarm = .idle → h.event ≠ .notifyWrite))
    (hlater : ∃ h ∈ post, w + delays.of alarm + late < h.moment) :
    ∃ mid h rest, post = mid ++ h :: rest ∧ h.moment ≤ w + delays.of alarm + late ∧
      (after delays {} (pre ++ ⟨w, .notifyWrite⟩ :: mid)).starts h = some alarm := by
  have hfresh : Soon delays {} now := fun due hdue => by cases hdue
  obtain ⟨now', hafter, hsoon⟩ := Runs.drop hfresh hruns
  generalize hs : after delays {} pre = s at *
  have hset : ∃ due, (s.step delays ⟨w, .notifyWrite⟩).due alarm = some due ∧ due ≤ w + delays.of alarm := by
    have hstep : s.step delays ⟨w, .notifyWrite⟩ = { s with idle := some (w + delays.idle) } := if_pos hon
    rw [hstep]
    cases alarm with
    | idle => exact ⟨_, rfl, Nat.le_refl _⟩
    | timer =>
      obtain ⟨due, hdue⟩ := Option.ne_none_iff_exists'.1 (hstarted rfl)
      have honward : now' ≤ w := hafter.1.onward
      have := hsoon due hdue
      exact ⟨due, hdue, by simp only [Delays.of]; omega⟩
  obtain ⟨due, hdue, hsmall⟩ := hset
  obtain ⟨h, hmem, hlt⟩ := hlater
  obtain ⟨mid, k, rest, rfl, hrings, hby, hmid⟩ := rings_by hafter.2 hdue
    (fun k hk hle => ⟨(hleft k hk (by omega)).1, (hleft k hk (by omega)).2.2⟩) ⟨h, hmem, by omega⟩
  refine ⟨mid, k, rest, rfl, by omega, ?_⟩
  have hstill : ((s.step delays ⟨w, .notifyWrite⟩).after delays mid).autoSync = true := by
    refine autoSync_after ?_ fun j hj => ?_
    · show (s.notifyWrite delays w).autoSync = true
      rw [notifyWrite, if_pos hon]
      exact hon
    · have := hmid j hj
      exact (hleft j (List.mem_append_left _ hj) (by omega)).2.1
  rw [after_append, hs, after_cons]
  simp only [starts, hrings, hstill, if_true]

/-- Auto-sync is turned on, two writes come, and the timer rings two moments after the second. -/
theorem runs_twice : Runs ⟨10, 2⟩ 0 {} 0 ([⟨0, .setAutoSync true⟩, ⟨1, .notifyWrite⟩] ++
    ⟨2, .notifyWrite⟩ :: [⟨4, .rings .idle⟩, ⟨5, .start⟩]) := by
  refine ⟨?_, ?_, ?_, ?_, ?_, trivial⟩
  all_goals
    refine ⟨by decide, fun alarm h => ?_, fun alarm due h => ?_⟩
    · cases alarm <;> cases h <;> exact ⟨_, rfl, by decide⟩
    · cases alarm <;> cases h <;> decide

theorem writes_are_synced_twice :
    ∃ mid h rest, [⟨4, .rings .idle⟩, ⟨5, .start⟩] = mid ++ h :: rest ∧ h.moment ≤ 2 + 2 + 0 ∧
      (after ⟨10, 2⟩ {} ([⟨0, .setAutoSync true⟩, ⟨1, .notifyWrite⟩] ++ ⟨2, .notifyWrite⟩ :: mid)).starts h =
        some .idle :=
  writes_are_synced .idle runs_twice rfl (by decide) (by decide) (by decide)

/-! ### Idle syncs -/

theorem idle_step (hresets : ¬ s.Resets h) : (s.step delays h).idle = s.idle := by
  rw [SyncScheduler.step]
  split
  · rfl
  · rw [start]
    split <;> rfl
  · rename_i heq
    exact absurd (.inl heq) hresets
  · rename_i heq
    rw [notifyWrite, if_neg fun hon => hresets (.inr (.inr ⟨heq, hon⟩))]
  · rename_i rung heq
    cases rung with
    | timer => rfl
    | idle => exact absurd (.inr (.inl heq)) hresets

theorem undisturbed_concat (hk : ¬ (s.after delays hs).Resets h) (hhs : s.Undisturbed delays hs) :
    s.Undisturbed delays (hs ++ [h]) := by
  induction hs generalizing s with
  | nil => exact ⟨hk, trivial⟩
  | cons k hs ih => exact ⟨hhs.1, ih hk hhs.2⟩

/-- Where the idle timer is set, the last write set it. -/
theorem write_of_idle {due : Nat} (hidle : (after delays s pre).idle = some due) (hfresh : s.idle = none) :
    ∃ pre' w mid, pre = pre' ++ ⟨w, .notifyWrite⟩ :: mid ∧ due = w + delays.idle ∧
      (after delays s pre').autoSync = true ∧
      (after delays s (pre' ++ [⟨w, .notifyWrite⟩])).Undisturbed delays mid := by
  induction pre using List.reverseRecOn with
  | nil =>
    rw [after_nil, hfresh] at hidle
    cases hidle
  | append_singleton pre h ih =>
    rw [after_append] at hidle
    by_cases hresets : (s.after delays pre).Resets h
    · rcases hresets with hstop | hring | ⟨hwrite, hon⟩
      · simp [SyncScheduler.step, hstop, stop] at hidle
      · simp [SyncScheduler.step, hring, ring] at hidle
      · simp [SyncScheduler.step, hwrite, notifyWrite, hon] at hidle
        obtain ⟨moment, event⟩ := h
        exact ⟨pre, moment, [], by rw [← hwrite], hidle.symm, hon, trivial⟩
    · obtain ⟨pre', w, mid, rfl, hdue, hon, hmid⟩ := ih (by rwa [after_cons, after_nil, idle_step hresets] at hidle)
      refine ⟨pre', w, mid ++ [h], by simp, hdue, hon, undisturbed_concat ?_ hmid⟩
      rwa [← after_append, List.append_assoc]

/-- The idle timer rings only after a write with auto-sync on, when that long no other such write has come; between
two of its rings there is a write. -/
theorem idle_syncs_follow_writes (hruns : Runs delays late {} now (pre ++ h :: post)) (hring : h.event = .rings .idle) :
    ∃ pre' w mid, pre = pre' ++ ⟨w, .notifyWrite⟩ :: mid ∧ w + delays.idle ≤ h.moment ∧
      (after delays {} pre').autoSync = true ∧
      (after delays {} (pre' ++ [⟨w, .notifyWrite⟩])).Undisturbed delays mid := by
  have hfresh : Soon delays {} now := fun due hdue => by cases hdue
  obtain ⟨now', hafter, -⟩ := Runs.drop hfresh hruns
  obtain ⟨due, hdue, hle⟩ := hafter.1.due .idle hring
  obtain ⟨pre', w, mid, hpre, hset, hon, hmid⟩ := write_of_idle hdue rfl
  exact ⟨pre', w, mid, hpre, hset ▸ hle, hon, hmid⟩

theorem idle_syncs_follow_writes_twice :
    ∃ pre' w mid, ([⟨0, .setAutoSync true⟩, ⟨1, .notifyWrite⟩, ⟨2, .notifyWrite⟩] : List Happening) =
        pre' ++ ⟨w, .notifyWrite⟩ :: mid ∧ w + 2 ≤ 4 ∧ (after ⟨10, 2⟩ {} pre').autoSync = true ∧
      (after ⟨10, 2⟩ {} (pre' ++ [⟨w, .notifyWrite⟩])).Undisturbed ⟨10, 2⟩ mid := by
  have hruns : Runs ⟨10, 2⟩ 0 {} 0 ([⟨0, .setAutoSync true⟩, ⟨1, .notifyWrite⟩, ⟨2, .notifyWrite⟩] ++
      ⟨4, .rings .idle⟩ :: [⟨5, .start⟩]) := runs_twice
  exact idle_syncs_follow_writes hruns rfl

end SyncScheduler

end ConfigRegistry.Backup
