import Mathlib.Data.List.Count
import Mathlib.Data.List.Nodup
import Mathlib.Data.List.Perm.Basic

/-!
# The log sink

`LogDbSink` of `src/logging/db-sink.ts`: lines are buffered by kind, and a flush inserts the rows of both kinds, one
after the other. A line is known by its place among those that were handed to the sink.
-/

namespace ConfigRegistry.Logging

/-- `BATCH_ROWS`. -/
def batchRows : Nat := 100

/-- `MAX_BUFFERED`. -/
def maxBuffered : Nat := 5000

inductive Line where
  | malformed | app | access
deriving DecidableEq

/-- A call of `flush` that awaits an insert; `closes` where `close` awaits the call. -/
structure Flush where
  app : List Nat
  access : List Nat
  appDone : Bool
  closes : Bool

/-- The rows that are still to be inserted. -/
def Flush.pending (f : Flush) : List Nat := if f.appDone then f.access else f.app ++ f.access

/-- The sink, with the lines that were handed to it and what the database has got of them. -/
structure LogDbSink where
  appRows : List Nat := []
  accessRows : List Nat := []
  timer : Bool := false
  closed : Bool := false
  dropped : Nat := 0
  flushes : List Flush := []
  /-- A flush that `close` awaited has ended. -/
  closing : Bool := false
  handed : Nat := 0
  inserted : List Nat := []

inductive Event where
  | line (line : Line)
  | timer
  | flush
  /-- The insert that a flush awaits succeeds or fails. -/
  | settles (i : Nat) (succeeds : Bool)
  | close
  | closed

namespace LogDbSink

variable (s : LogDbSink)

/-- `flush`, up to its first insert. -/
def flush (closes : Bool) : LogDbSink :=
  let cleared := { s with timer := false, appRows := [], accessRows := [] }
  if s.appRows.isEmpty && s.accessRows.isEmpty then { cleared with closing := s.closing || closes }
  else { cleared with flushes := s.flushes ++ [⟨s.appRows, s.accessRows, s.appRows.isEmpty, closes⟩] }

/-- What `push` makes of the rows of a kind: they are full, or not. -/
def shifted (rows : List Nat) : List Nat := if maxBuffered ≤ rows.length then rows.drop 1 else rows

def overflow (rows : List Nat) : Nat := if maxBuffered ≤ rows.length then 1 else 0

/-- `push('app', row)`. -/
def pushApp (row : Nat) : LogDbSink :=
  if s.closed then s
  else
    let target := shifted s.appRows ++ [row]
    let pushed := { s with appRows := target, dropped := s.dropped + overflow s.appRows }
    if batchRows ≤ target.length then pushed.flush false else { pushed with timer := true }

/-- `push('access', row)`. -/
def pushAccess (row : Nat) : LogDbSink :=
  if s.closed then s
  else
    let target := shifted s.accessRows ++ [row]
    let pushed := { s with accessRows := target, dropped := s.dropped + overflow s.accessRows }
    if batchRows ≤ target.length then pushed.flush false else { pushed with timer := true }

/-- `write` of the stream. -/
def write (line : Line) : LogDbSink :=
  let s' := { s with handed := s.handed + 1 }
  match line with
  | .malformed => { s' with dropped := s.dropped + 1 }
  | .app => s'.pushApp s.handed
  | .access => s'.pushAccess s.handed

/-- What follows the insert that a flush awaits. -/
def settle (i : Nat) (succeeds : Bool) : LogDbSink :=
  match s.flushes[i]? with
  | none => s
  | some f =>
    let others := s.flushes.eraseIdx i
    if succeeds then
      if f.appDone then
        { s with inserted := s.inserted ++ f.access, flushes := others, closing := s.closing || f.closes }
      else if f.access.isEmpty then
        { s with inserted := s.inserted ++ f.app, flushes := others, closing := s.closing || f.closes }
      else { s with inserted := s.inserted ++ f.app, flushes := others ++ [{ f with appDone := true }] }
    else
      { s with dropped := s.dropped + (f.app.length + f.access.length), flushes := others,
               closing := s.closing || f.closes }

def step : Event → LogDbSink
  | .line line => s.write line
  | .timer => if s.timer then s.flush false else s
  | .flush => s.flush false
  | .settles i succeeds => s.settle i succeeds
  | .close => s.flush true
  | .closed => if s.closing then { s with closed := true, closing := false } else s

def run (events : List Event) : LogDbSink := events.foldl step s

/-- The rows that are somewhere: in the database, in a flush that runs, or buffered. -/
def rows : List Nat := s.inserted ++ (s.flushes.flatMap Flush.pending ++ (s.appRows ++ s.accessRows))

/-- Every line that was handed to the sink is accounted for. -/
def Balanced : Prop :=
  s.handed = s.inserted.length + (s.appRows.length + s.accessRows.length) +
    (s.flushes.flatMap Flush.pending).length + s.dropped

/-- How many lines the event leaves out: one that comes after the sink was closed. -/
def leftOut : Event → Nat
  | .line .malformed => 0
  | .line _ => if s.closed then 1 else 0
  | _ => 0

/-- How many rows the event counts again: those of a flush that fails after the first of its inserts. -/
def recounted : Event → Nat
  | .settles i false => ((s.flushes[i]?).map fun f => if f.appDone then f.app.length else 0).getD 0
  | _ => 0

end LogDbSink

/-- What the events of a run come to. -/
def total (amount : LogDbSink → Event → Nat) : LogDbSink → List Event → Nat
  | _, [] => 0
  | s, e :: events => amount s e + total amount (s.step e) events

namespace LogDbSink

variable {s : LogDbSink}

/-- A step from one sink to the next: what there was of rows is kept or dropped, a row may come for a line that is handed
over, and the lines and rows are counted with `lost` lines left out and `again` rows counted twice. -/
structure Moves (s s' : LogDbSink) (lost again : Nat) : Prop where
  handed : s'.handed = s.handed ∨ s'.handed = s.handed + 1
  count : ∀ r, s'.rows.count r ≤ s.rows.count r + if r = s.handed then s'.handed - s.handed else 0
  length : s'.rows.length + s'.dropped + lost + s.handed = s.rows.length + s.dropped + again + s'.handed

theorem rows_flush (closes : Bool) : (s.flush closes).rows = s.rows := by
  unfold flush
  dsimp only
  split
  · rename_i hempty
    rw [Bool.and_eq_true, List.isEmpty_iff, List.isEmpty_iff] at hempty
    simp [rows, hempty.1, hempty.2]
  · cases happ : s.appRows with
    | nil => simp [rows, Flush.pending, happ]
    | cons a app => simp [rows, Flush.pending, happ]

theorem flush_handed (closes : Bool) : (s.flush closes).handed = s.handed ∧ (s.flush closes).dropped = s.dropped := by
  unfold flush
  dsimp only
  split <;> exact ⟨rfl, rfl⟩

theorem moves_flush (closes : Bool) : Moves s (s.flush closes) 0 0 := by
  obtain ⟨hhanded, hdropped⟩ := @flush_handed s closes
  constructor
  · exact .inl hhanded
  · intro r
    rw [rows_flush]
    omega
  · rw [rows_flush, hhanded, hdropped]

theorem length_shifted (target : List Nat) : (shifted target).length + overflow target = target.length := by
  unfold shifted overflow
  have hmax : maxBuffered = 5000 := rfl
  split
  · rw [List.length_drop]
    omega
  · omega

theorem count_shifted (r : Nat) (target : List Nat) : (shifted target).count r ≤ target.count r := by
  unfold shifted
  split
  · exact (List.drop_sublist 1 target).count_le r
  · exact Nat.le_refl _

/-- A flush after a push moves what the push has moved. -/
theorem Moves.then_flush {s s' : LogDbSink} {lost again : Nat} (h : Moves s s' lost again) (closes : Bool) :
    Moves s (s'.flush closes) lost again := by
  obtain ⟨hhanded, hdropped⟩ := @flush_handed s' closes
  constructor
  · rw [hhanded]
    exact h.handed
  · intro r
    rw [rows_flush, hhanded]
    exact h.count r
  · rw [rows_flush, hhanded, hdropped]
    exact h.length

/-- A row that is pushed to one of the two targets, from which the oldest may be displaced. -/
theorem moves_push {s' : LogDbSink} (target others : List Nat) (hrows : s.rows.Perm (target ++ others))
    (hrows' : s'.rows.Perm (shifted target ++ [s.handed] ++ others)) (hhanded : s'.handed = s.handed + 1)
    (hdropped : s'.dropped = s.dropped + overflow target) : Moves s s' 0 0 := by
  refine ⟨.inr hhanded, fun r => ?_, ?_⟩
  · have hshifted := count_shifted r target
    rw [hrows.count_eq, hrows'.count_eq, hhanded]
    simp only [List.count_append, List.count_singleton, beq_iff_eq]
    split <;> split <;> omega
  · have hshifted := length_shifted target
    rw [hrows.length_eq, hrows'.length_eq, hhanded, hdropped]
    simp only [List.length_append, List.length_singleton]
    omega

/-- A line of which no row is pushed. -/
theorem moves_unpushed {s' : LogDbSink} {lost : Nat} (hhanded : s'.handed = s.handed + 1)
    (hlost : s'.dropped + lost = s.dropped + 1) (hrows : s'.rows = s.rows) : Moves s s' lost 0 := by
  refine ⟨.inr hhanded, fun r => ?_, ?_⟩
  · rw [hrows]
    exact Nat.le_add_right _ _
  · rw [hrows, hhanded]
    omega

theorem moves_pushApp : Moves s ({ s with handed := s.handed + 1 }.pushApp s.handed) (if s.closed then 1 else 0) 0 := by
  unfold pushApp
  dsimp only
  by_cases hclosed : s.closed = true
  · rw [if_pos hclosed, if_pos hclosed]
    refine moves_unpushed ?_ ?_ ?_ <;> rfl
  · have hpushed : Moves s { s with
        handed := s.handed + 1, appRows := shifted s.appRows ++ [s.handed], dropped := s.dropped + overflow s.appRows }
        0 0 := by
      refine moves_push s.appRows (s.inserted ++ s.flushes.flatMap Flush.pending ++ s.accessRows) ?_ ?_ rfl rfl
      all_goals
        rw [List.perm_iff_count]
        intro r
        simp only [rows, List.count_append]
        omega
    rw [if_neg hclosed, if_neg hclosed]
    split
    · exact hpushed.then_flush false
    · exact ⟨hpushed.handed, hpushed.count, hpushed.length⟩

theorem moves_pushAccess : Moves s ({ s with handed := s.handed + 1 }.pushAccess s.handed)
    (if s.closed then 1 else 0) 0 := by
  unfold pushAccess
  dsimp only
  by_cases hclosed : s.closed = true
  · rw [if_pos hclosed, if_pos hclosed]
    refine moves_unpushed ?_ ?_ ?_ <;> rfl
  · have hpushed : Moves s { s with
        handed := s.handed + 1, accessRows := shifted s.accessRows ++ [s.handed],
        dropped := s.dropped + overflow s.accessRows } 0 0 := by
      refine moves_push s.accessRows (s.inserted ++ s.flushes.flatMap Flush.pending ++ s.appRows) ?_ ?_ rfl rfl
      all_goals
        rw [List.perm_iff_count]
        intro r
        simp only [rows, List.count_append]
        omega
    rw [if_neg hclosed, if_neg hclosed]
    split
    · exact hpushed.then_flush false
    · exact ⟨hpushed.handed, hpushed.count, hpushed.length⟩

theorem moves_write (line : Line) : Moves s (s.write line) (s.leftOut (.line line)) 0 := by
  cases line with
  | malformed => refine moves_unpushed ?_ ?_ ?_ <;> rfl
  | app => exact moves_pushApp
  | access => exact moves_pushAccess

/-- The rows of the flushes are those of one of them and those of the others. -/
theorem pending_perm {flushes : List Flush} {i : Nat} {f : Flush} (h : flushes[i]? = some f) :
    (flushes.flatMap Flush.pending).Perm (f.pending ++ (flushes.eraseIdx i).flatMap Flush.pending) := by
  obtain ⟨hi, rfl⟩ := List.getElem?_eq_some_iff.1 h
  exact ((List.getElem_cons_eraseIdx_perm hi).symm.flatMap_right _)

theorem moves_settle (i : Nat) (succeeds : Bool) :
    Moves s (s.settle i succeeds) 0 (s.recounted (.settles i succeeds)) := by
  unfold settle
  cases hf : s.flushes[i]? with
  | none =>
    have hnone : s.recounted (.settles i succeeds) = 0 := by
      cases succeeds with
      | true => rfl
      | false =>
        unfold recounted
        dsimp only
        rw [hf]
        rfl
    rw [hnone]
    exact ⟨.inl rfl, fun r => Nat.le_add_right _ _, rfl⟩
  | some f =>
    have hperm := pending_perm hf
    have hcount : ∀ r, (s.flushes.flatMap Flush.pending).count r =
        f.pending.count r + ((s.flushes.eraseIdx i).flatMap Flush.pending).count r := by
      intro r
      rw [hperm.count_eq, List.count_append]
    have hlength : (s.flushes.flatMap Flush.pending).length =
        f.pending.length + ((s.flushes.eraseIdx i).flatMap Flush.pending).length := by
      rw [hperm.length_eq, List.length_append]
    dsimp only
    cases succeeds with
    | true =>
      have hagain : s.recounted (.settles i true) = 0 := rfl
      rw [hagain, if_pos rfl]
      split
      · rename_i hdone
        rw [Flush.pending, if_pos hdone] at hcount hlength
        refine ⟨.inl rfl, fun r => ?_, ?_⟩
        · have := hcount r
          simp only [rows, List.count_append]
          omega
        · simp only [rows, List.length_append]
          omega
      · rename_i hdone
        rw [Flush.pending, if_neg hdone] at hcount hlength
        split
        · rename_i hempty
          rw [List.isEmpty_iff] at hempty
          rw [hempty, List.append_nil] at hcount hlength
          refine ⟨.inl rfl, fun r => ?_, ?_⟩
          · have := hcount r
            simp only [rows, List.count_append]
            omega
          · simp only [rows, List.length_append]
            omega
        · have hrest : ({ f with appDone := true } : Flush).pending = f.access := rfl
          refine ⟨.inl rfl, fun r => ?_, ?_⟩
          · have := hcount r
            simp only [rows, List.flatMap_append, List.flatMap_singleton, hrest, List.count_append] at this ⊢
            omega
          · simp only [rows, List.flatMap_append, List.flatMap_singleton, hrest, List.length_append] at hlength ⊢
            omega
    | false =>
      have hagain : s.recounted (.settles i false) = if f.appDone then f.app.length else 0 := by
        unfold recounted
        dsimp only
        rw [hf]
        rfl
      rw [hagain, if_neg Bool.false_ne_true]
      refine ⟨.inl rfl, fun r => ?_, ?_⟩
      · have := hcount r
        simp only [rows, List.count_append]
        omega
      · have hpending : f.pending.length + (if f.appDone then f.app.length else 0) = f.app.length + f.access.length := by
          unfold Flush.pending
          split
          · omega
          · rw [List.length_append]
            omega
        simp only [rows, List.length_append]
        omega

/-- What every step does. -/
theorem moves_step (e : Event) : Moves s (s.step e) (s.leftOut e) (s.recounted e) := by
  cases e with
  | line line => exact moves_write line
  | timer =>
    unfold step
    dsimp only
    split
    · exact moves_flush false
    · exact ⟨.inl rfl, fun r => Nat.le_add_right _ _, rfl⟩
  | flush => exact moves_flush false
  | settles i succeeds => exact moves_settle i succeeds
  | close => exact moves_flush true
  | closed =>
    unfold step
    dsimp only
    split <;> exact ⟨.inl rfl, fun r => Nat.le_add_right _ _, rfl⟩

/-- No line is in two places, and none that was not handed over. -/
def Distinct (s : LogDbSink) : Prop := ∀ r, s.rows.count r ≤ if r < s.handed then 1 else 0

theorem Distinct.step (h : s.Distinct) (e : Event) : (s.step e).Distinct := by
  intro r
  have hmoves := @moves_step s e
  have hcount := hmoves.count r
  have hold := h r
  rcases hmoves.handed with hsame | hnew
  · rw [hsame] at hcount ⊢
    split at hcount <;> split at hold <;> split <;> omega
  · rw [hnew] at hcount ⊢
    split at hcount <;> split at hold <;> split <;> omega

theorem run_distinct (h : s.Distinct) (events : List Event) : (s.run events).Distinct := by
  induction events generalizing s with
  | nil => exact h
  | cons e events ih => exact ih (h.step e)

/-- The lines and the rows, counted over a run. -/
theorem run_length (events : List Event) :
    (s.run events).rows.length + (s.run events).dropped + total leftOut s events + s.handed =
      s.rows.length + s.dropped + total recounted s events + (s.run events).handed := by
  induction events generalizing s with
  | nil => rfl
  | cons e events ih =>
    have hmoves := (@moves_step s e).length
    have hrest := @ih (s.step e)
    show ((s.step e).run events).rows.length + ((s.step e).run events).dropped +
        (s.leftOut e + total leftOut (s.step e) events) + s.handed =
      s.rows.length + s.dropped + (s.recounted e + total recounted (s.step e) events) +
        ((s.step e).run events).handed
    omega

theorem balanced_iff : s.Balanced ↔ s.handed = s.rows.length + s.dropped := by
  unfold Balanced rows
  rw [List.length_append, List.length_append, List.length_append]
  omega

end LogDbSink

/-- A line that comes once the sink is closed, or a flush that fails after it has inserted rows. -/
def Slips (s : LogDbSink) (e : Event) : Prop :=
  (s.closed = true ∧ (e = .line .app ∨ e = .line .access)) ∨
    ∃ i f, e = .settles i false ∧ s.flushes[i]? = some f ∧ f.appDone = true ∧ f.app ≠ []

theorem amounts_of_not_slips {s : LogDbSink} {e : Event} (h : ¬ Slips s e) : s.leftOut e = 0 ∧ s.recounted e = 0 := by
  cases e with
  | line line =>
    refine ⟨?_, rfl⟩
    cases line with
    | malformed => rfl
    | app => exact if_neg fun hclosed => h (.inl ⟨hclosed, .inl rfl⟩)
    | access => exact if_neg fun hclosed => h (.inl ⟨hclosed, .inr rfl⟩)
  | settles i succeeds =>
    refine ⟨rfl, ?_⟩
    cases succeeds with
    | true => rfl
    | false =>
      unfold LogDbSink.recounted
      dsimp only
      cases hf : s.flushes[i]? with
      | none => rfl
      | some f =>
        show (if f.appDone then f.app.length else 0) = 0
        split
        · rename_i hdone
          rw [List.length_eq_zero_iff]
          by_contra happ
          exact h (.inr ⟨i, f, rfl, hf, hdone, happ⟩)
        · rfl
  | timer => exact ⟨rfl, rfl⟩
  | flush => exact ⟨rfl, rfl⟩
  | close => exact ⟨rfl, rfl⟩
  | closed => exact ⟨rfl, rfl⟩

theorem total_eq_zero {amount : LogDbSink → Event → Nat} {s : LogDbSink} {events : List Event}
    (h : ∀ before e after, events = before ++ e :: after → amount (s.run before) e = 0) : total amount s events = 0 := by
  induction events generalizing s with
  | nil => rfl
  | cons e events ih =>
    have hfirst : amount s e = 0 := h [] e events rfl
    have hrest : total amount (s.step e) events = 0 := ih fun before e' after heq => by
      rw [heq] at h
      exact h (e :: before) e' after rfl
    show amount s e + total amount (s.step e) events = 0
    omega

/-- In every state of every run no row is in the database twice, and the lines are accounted for just where those that
were left out are as many as the rows that were counted again; so they are in a run without either. -/
theorem log_rows_are_conserved (events : List Event) :
    (({} : LogDbSink).run events).inserted.Nodup ∧
      ((({} : LogDbSink).run events).Balanced ↔
        total LogDbSink.leftOut {} events = total LogDbSink.recounted {} events) ∧
      ((∀ before e after, events = before ++ e :: after → ¬ Slips (({} : LogDbSink).run before) e) →
        (({} : LogDbSink).run events).Balanced) := by
  have hdistinct : (({} : LogDbSink).run events).Distinct := LogDbSink.run_distinct (fun r => Nat.zero_le _) events
  have hlength := @LogDbSink.run_length {} events
  have hbalanced : (({} : LogDbSink).run events).Balanced ↔
      total LogDbSink.leftOut {} events = total LogDbSink.recounted {} events := by
    rw [LogDbSink.balanced_iff]
    have hnone : ({} : LogDbSink).rows.length = 0 := rfl
    have hzero : ({} : LogDbSink).dropped = 0 ∧ ({} : LogDbSink).handed = 0 := ⟨rfl, rfl⟩
    omega
  refine ⟨?_, hbalanced, fun h => hbalanced.2 ?_⟩
  · rw [List.nodup_iff_count_le_one]
    intro r
    have hcount := hdistinct r
    unfold LogDbSink.rows at hcount
    rw [List.count_append] at hcount
    split at hcount <;> omega
  · rw [total_eq_zero fun before e after heq => (amounts_of_not_slips (h before e after heq)).1,
      total_eq_zero fun before e after heq => (amounts_of_not_slips (h before e after heq)).2]

/-- A flush inserts a row of one kind and fails with one of the other: both are counted as dropped. -/
theorem inserted_row_is_dropped_too : ¬ ∀ events : List Event, (({} : LogDbSink).run events).Balanced := by
  intro h
  have hflush := h [.line .app, .line .access, .flush, .settles 0 true, .settles 0 false]
  unfold LogDbSink.Balanced at hflush
  revert hflush
  decide +kernel

end ConfigRegistry.Logging
