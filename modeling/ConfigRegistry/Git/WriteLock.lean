import Mathlib.Data.List.Basic
import Mathlib.Logic.Function.Basic

/-!
# The write lock

`WriteLock` of `src/git/write-lock.ts`: each call of `withLock` awaits the promise at the tail, and puts one of its own
there. What it comes to is a queue in which the calls take turns.
-/

namespace ConfigRegistry.Git.Locking

/-! ### Taking turns -/

/-- The calls that have come, those that have had their turn begin and those that have had it end: one turn at a
time. -/
structure Turns where
  called : Nat
  entered : Nat
  ended : Nat
  ended_le : ended ≤ entered
  entered_le : entered ≤ ended + 1
  entered_called : entered ≤ called

namespace Turns

def first : Turns := ⟨0, 0, 0, Nat.le_refl 0, Nat.zero_le 1, Nat.le_refl 0⟩

variable (t : Turns)

def call : Turns :=
  { t with called := t.called + 1, entered_called := Nat.le_succ_of_le t.entered_called }

def enter (h : t.entered = t.ended) (hcalled : t.entered < t.called) : Turns where
  called := t.called
  entered := t.entered + 1
  ended := t.ended
  ended_le := Nat.le_succ_of_le t.ended_le
  entered_le := Nat.succ_le_succ (Nat.le_of_eq h)
  entered_called := hcalled

def leave (h : t.ended < t.entered) : Turns where
  called := t.called
  entered := t.entered
  ended := t.ended + 1
  ended_le := h
  entered_le := Nat.le_succ_of_le t.entered_le
  entered_called := t.entered_called

/-- It is the turn of call `i`. -/
def At (i : Nat) : Prop := t.ended ≤ i ∧ i < t.entered

variable {t}

theorem At.unique {i j : Nat} (hi : t.At i) (hj : t.At j) : i = j := by
  obtain ⟨hi, hi'⟩ := hi
  obtain ⟨hj, hj'⟩ := hj
  have := t.entered_le
  omega

theorem exists_at : (∃ i, t.At i) ↔ t.ended < t.entered := by
  constructor
  · rintro ⟨i, hended, hentered⟩
    omega
  · intro h
    exact ⟨t.ended, Nat.le_refl _, h⟩

end Turns

/-! ### The lock -/

/-- How a promise settles. -/
inductive Outcome (V : Type) where
  | fulfilled (value : V)
  | rejected (error : V)
deriving DecidableEq

/-- The promises: that of `Promise.resolve()`, the one that call `i` puts at the tail, the one that it returns, and those
of the rest of the program. -/
inductive Promise where
  | resolved
  | released (i : Nat)
  | result (i : Nat)
  | other (n : Nat)
deriving DecidableEq

/-- Where a call of `withLock` is: it awaits the previous one, `fn` is on the stack, it awaits what `fn` has returned, or
it has ended. -/
inductive Place where
  | waiting
  | calling
  | awaiting (body : Promise)
  | ended

structure Caller where
  previous : Promise
  place : Place

/-- The lock, with the calls of `withLock` and what has become of the promises; `default` stands for `undefined`. -/
structure WriteLock (V : Type) [Inhabited V] where
  tail : Promise := .resolved
  depth : Int := 0
  calls : List Caller := []
  settled : Promise → Option (Outcome V) := fun p => if p = .resolved then some (.fulfilled default) else none

inductive Event (V : Type) where
  /-- The rest of the program settles a promise of its own. -/
  | settles (n : Nat) (o : Outcome V)
  | withLock
  | enters (i : Nat)
  | returns (i : Nat) (body : Promise)
  | throws (i : Nat) (error : V)
  | resumes (i : Nat)

namespace WriteLock

variable {V : Type} [Inhabited V] (s : WriteLock V)

def held : Bool := decide (0 < s.depth)

def put (i : Nat) (previous : Promise) (place : Place) : List Caller := s.calls.set i ⟨previous, place⟩

/-- The `finally` of `withLock`, after which its own promise settles. -/
def finish (i : Nat) (previous : Promise) (o : Outcome V) : WriteLock V :=
  { s with
    depth := s.depth - 1
    calls := s.put i previous .ended
    settled := Function.update (Function.update s.settled (.released i) (some (.fulfilled default)))
      (.result i) (some o) }

/-- One step, where it is possible. A `previous` that was rejected is caught, so it does not matter how it settles. -/
def step : Event V → Option (WriteLock V)
  | .settles n o =>
    if (s.settled (.other n)).isSome then none
    else some { s with settled := Function.update s.settled (.other n) (some o) }
  | .withLock =>
    some { s with tail := .released s.calls.length, calls := s.calls ++ [⟨s.tail, .waiting⟩] }
  | .enters i =>
    match s.calls[i]? with
    | some ⟨previous, .waiting⟩ =>
      if (s.settled previous).isSome then
        some { s with depth := s.depth + 1, calls := s.put i previous .calling }
      else none
    | _ => none
  | .returns i body =>
    match s.calls[i]? with
    | some ⟨previous, .calling⟩ => some { s with calls := s.put i previous (.awaiting body) }
    | _ => none
  | .throws i error =>
    match s.calls[i]? with
    | some ⟨previous, .calling⟩ => some (s.finish i previous (.rejected error))
    | _ => none
  | .resumes i =>
    match s.calls[i]? with
    | some ⟨previous, .awaiting body⟩ => (s.settled body).map (s.finish i previous)
    | _ => none

/-- The schedules: what has happened, and where it leads. -/
inductive Reaches : List (Event V) → WriteLock V → Prop where
  | start : Reaches [] {}
  | next {events : List (Event V)} {s s' : WriteLock V} {e : Event V} :
      Reaches events s → s.step e = some s' → Reaches (events ++ [e]) s'

/-- The body of call `i` runs: `fn` has been called, and its end has not been taken up. -/
def Runs (i : Nat) : Prop := ∃ c, s.calls[i]? = some c ∧ c.place ≠ .waiting ∧ c.place ≠ .ended

end WriteLock

namespace Event

variable {V : Type}

/-- The call whose body starts. -/
def started : Event V → Option Nat
  | .enters i => some i
  | _ => none

/-- The call whose body ends. -/
def finished : Event V → Option Nat
  | .throws i _ => some i
  | .resumes i => some i
  | _ => none

/-- The call whose body has come back. -/
def ofBody : Event V → Option Nat
  | .returns i _ => some i
  | .throws i _ => some i
  | .resumes i => some i
  | _ => none

/-- What the body of call `i` has come back with. -/
def said (i : Nat) (events : List (Event V)) : List (Event V) := events.filter fun e => e.ofBody = some i

variable {i : Nat} {events : List (Event V)} {e : Event V}

theorem said_append_self (h : e.ofBody = some i) : said i (events ++ [e]) = said i events ++ [e] := by
  unfold said
  rw [List.filter_append, List.filter_singleton, decide_eq_true h, cond_true]

theorem said_append_of_ne (h : e.ofBody ≠ some i) : said i (events ++ [e]) = said i events := by
  unfold said
  rw [List.filter_append, List.filter_singleton, decide_eq_false h, cond_false, List.append_nil]

theorem said_append_of_none (h : e.ofBody = none) : said i (events ++ [e]) = said i events := by
  apply said_append_of_ne
  rw [h]
  exact (Option.some_ne_none i).symm

theorem mem_said (h : e.ofBody = some i) : e ∈ said i events ↔ e ∈ events := by
  unfold said
  rw [List.mem_filter, decide_eq_true_iff]
  exact and_iff_left h

end Event

/-! ### Every step is one of the queue -/

/-- The promise that call `i` awaits. -/
def link : Nat → Promise
  | 0 => .resolved
  | i + 1 => .released i

theorem link_ne_result (i j : Nat) : link i ≠ .result j := by
  cases i <;> exact Promise.noConfusion

theorem link_ne_other (i n : Nat) : link i ≠ .other n := by
  cases i <;> exact Promise.noConfusion

theorem link_eq_released {i j : Nat} : link i = .released j ↔ i = j + 1 := by
  cases i with
  | zero => exact ⟨fun h => Promise.noConfusion h, fun h => by omega⟩
  | succ i =>
    show Promise.released i = .released j ↔ i + 1 = j + 1
    rw [Promise.released.injEq]
    omega

/-- What an event is to the queue. -/
inductive Turns.Moves {V : Type} (t : Turns) : Event V → Turns → Prop where
  | settles (n : Nat) (o : Outcome V) : Moves t (.settles n o) t
  | withLock : Moves t .withLock t.call
  | enters (h : t.entered = t.ended) (hcalled : t.entered < t.called) : Moves t (.enters t.entered) (t.enter h hcalled)
  | returns {i : Nat} (h : t.At i) (body : Promise) : Moves t (.returns i body) t
  | throws (h : t.ended < t.entered) (error : V) : Moves t (.throws t.ended error) (t.leave h)
  | resumes (h : t.ended < t.entered) : Moves t (.resumes t.ended) (t.leave h)

section Ordered

variable {V : Type} {t t' : Turns} {events : List (Event V)}

/-- In what order the bodies start and end. -/
structure Ordered (events : List (Event V)) (t : Turns) : Prop where
  starts : events.filterMap Event.started = List.range t.entered
  ends : events.filterMap Event.finished = List.range t.ended

theorem Ordered.step (h : Ordered events t) {e : Event V} (hm : t.Moves e t') : Ordered (events ++ [e]) t' := by
  obtain ⟨hstarts, hends⟩ := h
  have hsame : ∀ {f : Event V → Option Nat} {n : Nat}, events.filterMap f = List.range n → f e = none →
      (events ++ [e]).filterMap f = List.range n := by
    intro f n hf he
    rw [List.filterMap_append, hf, List.filterMap_cons_none he, List.filterMap_nil, List.append_nil]
  have hnext : ∀ {f : Event V → Option Nat} {n : Nat}, events.filterMap f = List.range n → f e = some n →
      (events ++ [e]).filterMap f = List.range (n + 1) := by
    intro f n hf he
    rw [List.filterMap_append, hf, List.filterMap_cons_some he, List.filterMap_nil, List.range_succ]
  cases hm with
  | settles n o => exact ⟨hsame hstarts rfl, hsame hends rfl⟩
  | withLock => exact ⟨hsame hstarts rfl, hsame hends rfl⟩
  | enters hentered hcalled => exact ⟨hnext hstarts rfl, hsame hends rfl⟩
  | returns hat body => exact ⟨hsame hstarts rfl, hsame hends rfl⟩
  | throws hend error => exact ⟨hsame hstarts rfl, hnext hends rfl⟩
  | resumes hend => exact ⟨hsame hstarts rfl, hnext hends rfl⟩

end Ordered

namespace WriteLock

variable {V : Type} [Inhabited V] {s s' : WriteLock V} {t : Turns} {events : List (Event V)}

/-- What a step does, and when it is possible. -/
inductive Steps (s : WriteLock V) : Event V → WriteLock V → Prop where
  | settles {n : Nat} {o : Outcome V} (h : s.settled (.other n) = none) :
      Steps s (.settles n o) { s with settled := Function.update s.settled (.other n) (some o) }
  | withLock : Steps s .withLock
      { s with tail := .released s.calls.length, calls := s.calls ++ [⟨s.tail, .waiting⟩] }
  | enters {i : Nat} {previous : Promise} (hc : s.calls[i]? = some ⟨previous, .waiting⟩)
      (h : (s.settled previous).isSome) :
      Steps s (.enters i) { s with depth := s.depth + 1, calls := s.put i previous .calling }
  | returns {i : Nat} {previous : Promise} (hc : s.calls[i]? = some ⟨previous, .calling⟩) (body : Promise) :
      Steps s (.returns i body) { s with calls := s.put i previous (.awaiting body) }
  | throws {i : Nat} {previous : Promise} (hc : s.calls[i]? = some ⟨previous, .calling⟩) (error : V) :
      Steps s (.throws i error) (s.finish i previous (.rejected error))
  | resumes {i : Nat} {previous body : Promise} {o : Outcome V}
      (hc : s.calls[i]? = some ⟨previous, .awaiting body⟩) (h : s.settled body = some o) :
      Steps s (.resumes i) (s.finish i previous o)

theorem steps_of_step {e : Event V} (h : s.step e = some s') : Steps s e s' := by
  cases e with
  | settles n o =>
    unfold step at h
    dsimp only at h
    split at h
    · exact absurd h (by simp)
    · rename_i hnone
      obtain rfl := Option.some.inj h
      exact .settles (by simpa using hnone)
  | withLock =>
    obtain rfl := Option.some.inj h
    exact .withLock
  | enters i =>
    unfold step at h
    dsimp only at h
    split at h
    · rename_i previous hc
      split at h
      · rename_i hsettled
        obtain rfl := Option.some.inj h
        exact .enters hc hsettled
      · exact absurd h (by simp)
    · exact absurd h (by simp)
  | returns i body =>
    unfold step at h
    dsimp only at h
    split at h
    · rename_i previous hc
      obtain rfl := Option.some.inj h
      exact .returns hc body
    · exact absurd h (by simp)
  | throws i error =>
    unfold step at h
    dsimp only at h
    split at h
    · rename_i previous hc
      obtain rfl := Option.some.inj h
      exact .throws hc error
    · exact absurd h (by simp)
  | resumes i =>
    unfold step at h
    dsimp only at h
    split at h
    · rename_i previous body hc
      obtain ⟨o, hsettled, rfl⟩ := Option.map_eq_some_iff.1 h
      exact .resumes hc hsettled
    · exact absurd h (by simp)

/-- The lock is where the queue is: the callers are linked, and a link is settled once the call before it has ended. -/
structure Queued (s : WriteLock V) (t : Turns) : Prop where
  called : s.calls.length = t.called
  caller : ∀ i c, s.calls[i]? = some c →
    c.previous = link i ∧ (c.place = .waiting ↔ t.entered ≤ i) ∧ (c.place = .ended ↔ i < t.ended)
  tail : s.tail = link t.called
  links : ∀ i, (s.settled (link i)).isSome ↔ i ≤ t.ended
  results : ∀ i, (s.settled (.result i)).isSome ↔ i < t.ended
  depth : s.depth = t.entered - t.ended

theorem queued_first : Queued ({} : WriteLock V) .first where
  called := rfl
  caller := by
    intro i c hc
    exact absurd hc (by simp)
  tail := rfl
  links := by
    intro i
    cases i with
    | zero => exact iff_of_true rfl (Nat.le_refl 0)
    | succ i => exact iff_of_false Bool.false_ne_true (Nat.not_succ_le_zero i)
  results := fun i => iff_of_false Bool.false_ne_true (Nat.not_lt_zero i)
  depth := rfl

theorem getElem?_put {i j : Nat} {previous : Promise} {place : Place} {c c' : Caller} (hc : s.calls[i]? = some c)
    (h : (s.put i previous place)[j]? = some c') : (j = i ∧ c' = ⟨previous, place⟩) ∨ (j ≠ i ∧ s.calls[j]? = some c') := by
  unfold put at h
  by_cases hij : i = j
  · subst hij
    obtain ⟨hi, -⟩ := List.getElem?_eq_some_iff.1 hc
    rw [List.getElem?_set_self hi] at h
    exact .inl ⟨rfl, (Option.some.inj h).symm⟩
  · rw [List.getElem?_set_ne hij] at h
    exact .inr ⟨Ne.symm hij, h⟩

theorem length_put (i : Nat) (previous : Promise) (place : Place) : (s.put i previous place).length = s.calls.length :=
  List.length_set

/-- A caller that neither waits nor has ended has its turn. -/
theorem Queued.at_of (h : Queued s t) {i : Nat} {c : Caller} (hc : s.calls[i]? = some c) (hwaiting : c.place ≠ .waiting)
    (hended : c.place ≠ .ended) : t.At i := by
  obtain ⟨-, hwaits, hdone⟩ := h.caller i c hc
  exact ⟨Nat.not_lt.1 fun hlt => hended (hdone.2 hlt), Nat.not_le.1 fun hle => hwaiting (hwaits.2 hle)⟩

/-- The end of a call whose turn it is. -/
theorem Queued.finish (h : Queued s t) {i : Nat} {c : Caller} (hc : s.calls[i]? = some c) (hat : t.At i)
    (o : Outcome V) : ∃ hend : t.ended < t.entered, i = t.ended ∧ Queued (s.finish i c.previous o) (t.leave hend) := by
  obtain ⟨hended, hentered⟩ := hat
  have hone := t.entered_le
  have hend : t.ended < t.entered := by omega
  have hi : i = t.ended := by omega
  subst hi
  refine ⟨hend, rfl, ?_⟩
  constructor
  · exact (length_put _ _ _).trans h.called
  · intro j c' hc'
    obtain ⟨hprevious, -, -⟩ := h.caller _ _ hc
    rcases getElem?_put hc hc' with ⟨rfl, rfl⟩ | ⟨hne, hj⟩
    · refine ⟨hprevious, ?_, ?_⟩
      · exact iff_of_false Place.noConfusion (Nat.not_le.2 hend)
      · exact iff_of_true rfl (Nat.lt_succ_self _)
    · obtain ⟨hlink, hwaiting, hdone⟩ := h.caller _ _ hj
      refine ⟨hlink, hwaiting, hdone.trans ?_⟩
      show j < t.ended ↔ j < t.ended + 1
      omega
  · exact h.tail
  · intro j
    show (Function.update (Function.update s.settled _ _) _ _ (link j)).isSome ↔ j ≤ t.ended + 1
    rw [Function.update_of_ne (link_ne_result j _)]
    by_cases hj : j = t.ended + 1
    · rw [link_eq_released.2 hj, Function.update_self]
      exact iff_of_true rfl (Nat.le_of_eq hj)
    · rw [Function.update_of_ne fun heq => hj (link_eq_released.1 heq), h.links]
      omega
  · intro j
    show (Function.update (Function.update s.settled _ _) _ _ (.result j)).isSome ↔ j < t.ended + 1
    by_cases hj : j = t.ended
    · rw [hj, Function.update_self]
      exact iff_of_true rfl (Nat.lt_succ_self _)
    · rw [Function.update_of_ne fun heq => hj (Promise.result.inj heq), Function.update_of_ne Promise.noConfusion,
        h.results]
      omega
  · have hdepth := h.depth
    show s.depth - 1 = (t.entered : Int) - (t.ended + 1 : Nat)
    omega

theorem Queued.step (h : Queued s t) {e : Event V} (hs : Steps s e s') : ∃ t', t.Moves e t' ∧ Queued s' t' := by
  cases hs with
  | @settles n o hnone =>
    refine ⟨t, .settles n o, h.called, h.caller, h.tail, ?_, ?_, h.depth⟩
    · intro i
      show (Function.update s.settled (.other n) (some o) (link i)).isSome ↔ i ≤ t.ended
      rw [Function.update_of_ne (link_ne_other i n)]
      exact h.links i
    · intro i
      show (Function.update s.settled (.other n) (some o) (.result i)).isSome ↔ i < t.ended
      rw [Function.update_of_ne Promise.noConfusion]
      exact h.results i
  | withLock =>
    refine ⟨t.call, .withLock, ?_, ?_, ?_, h.links, h.results, h.depth⟩
    · show (s.calls ++ [_]).length = t.called + 1
      rw [List.length_append, h.called]
      rfl
    · intro i c hc
      have hcalled := t.entered_called
      have hended := t.ended_le
      rcases Nat.lt_trichotomy i s.calls.length with hi | hi | hi
      · rw [List.getElem?_append_left hi] at hc
        exact h.caller i c hc
      · rw [hi, List.getElem?_concat_length] at hc
        obtain rfl := Option.some.inj hc
        rw [h.called] at hi
        subst hi
        exact ⟨h.tail, iff_of_true rfl hcalled, iff_of_false Place.noConfusion (by show ¬ t.called < t.ended; omega)⟩
      · rw [List.getElem?_eq_none (by rw [List.length_append]; exact hi)] at hc
        exact absurd hc (by simp)
    · show Promise.released s.calls.length = .released t.called
      rw [h.called]
  | @enters i previous hc hsettled =>
    obtain ⟨hprevious, hwaiting, -⟩ := h.caller i _ hc
    obtain rfl : previous = link i := hprevious
    have hle := hwaiting.1 rfl
    have hlink := (h.links i).1 hsettled
    have hended := t.ended_le
    obtain ⟨hi, -⟩ := List.getElem?_eq_some_iff.1 hc
    rw [h.called] at hi
    have hentered : t.entered = t.ended := by omega
    obtain rfl : i = t.entered := by omega
    refine ⟨t.enter hentered hi, .enters hentered hi, ?_, ?_, h.tail, h.links, h.results, ?_⟩
    · exact (length_put _ _ _).trans h.called
    · intro j c' hc'
      rcases getElem?_put hc hc' with ⟨rfl, rfl⟩ | ⟨hne, hj⟩
      · exact ⟨rfl, iff_of_false Place.noConfusion (Nat.not_succ_le_self _),
          iff_of_false Place.noConfusion (Nat.not_lt.2 hended)⟩
      · obtain ⟨hlink', hwaiting', hdone⟩ := h.caller _ _ hj
        refine ⟨hlink', hwaiting'.trans ?_, hdone⟩
        show t.entered ≤ j ↔ t.entered + 1 ≤ j
        omega
    · have hdepth := h.depth
      show s.depth + 1 = ((t.entered + 1 : Nat) : Int) - t.ended
      omega
  | @returns i previous hc body =>
    have hat := h.at_of hc Place.noConfusion Place.noConfusion
    refine ⟨t, .returns hat body, ?_, ?_, h.tail, h.links, h.results, h.depth⟩
    · exact (length_put _ _ _).trans h.called
    · intro j c' hc'
      rcases getElem?_put hc hc' with ⟨rfl, rfl⟩ | ⟨hne, hj⟩
      · exact ⟨(h.caller _ _ hc).1, iff_of_false Place.noConfusion (Nat.not_le.2 hat.2),
          iff_of_false Place.noConfusion (Nat.not_lt.2 hat.1)⟩
      · exact h.caller _ _ hj
  | @throws i previous hc error =>
    obtain ⟨hend, rfl, hqueued⟩ := h.finish hc (h.at_of hc Place.noConfusion Place.noConfusion) (.rejected error)
    exact ⟨t.leave hend, .throws hend error, hqueued⟩
  | @resumes i previous body o hc hsettled =>
    obtain ⟨hend, rfl, hqueued⟩ := h.finish hc (h.at_of hc Place.noConfusion Place.noConfusion) o
    exact ⟨t.leave hend, .resumes hend, hqueued⟩

/-! ### What the bodies come to -/

open Event

/-- What a caller has been told by its body, and what it has made of it. -/
inductive Told (s : WriteLock V) (i : Nat) : Place → List (Event V) → Prop where
  | waiting : Told s i .waiting []
  | calling : Told s i .calling []
  | awaiting (body : Promise) : Told s i (.awaiting body) [.returns i body]
  | thrown {error : V} (h : s.settled (.result i) = some (.rejected error)) : Told s i .ended [.throws i error]
  | taken {body : Promise} {o : Outcome V} (h : s.settled (.result i) = some o) (hbody : s.settled body = some o) :
      Told s i .ended [.returns i body, .resumes i]

structure Records (s : WriteLock V) (events : List (Event V)) : Prop where
  told : ∀ i c, s.calls[i]? = some c → Told s i c.place (said i events)
  silent : ∀ i, s.calls.length ≤ i → said i events = []

/-- A promise settles once. -/
theorem Queued.settled_step (h : Queued s t) {e : Event V} (hs : Steps s e s') {p : Promise} {o : Outcome V}
    (hp : s.settled p = some o) : s'.settled p = some o := by
  have hfinish : ∀ {i : Nat} {c : Caller} (o' : Outcome V), s.calls[i]? = some c → t.At i →
      (s.finish i c.previous o').settled p = some o := by
    intro i c o' hc hat
    show Function.update (Function.update s.settled _ _) _ _ p = some o
    have hone := t.entered_le
    obtain ⟨hended, hentered⟩ := hat
    have hresult : p ≠ .result i := by
      rintro rfl
      have := (h.results i).1 (by rw [hp]; rfl)
      omega
    have hlink : p ≠ .released i := by
      rintro rfl
      have := (h.links (i + 1)).1 (by rw [link, hp]; rfl)
      omega
    rw [Function.update_of_ne hresult, Function.update_of_ne hlink, hp]
  cases hs with
  | settles hnone =>
    show Function.update s.settled _ _ p = some o
    rw [Function.update_of_ne, hp]
    rintro rfl
    rw [hnone] at hp
    exact absurd hp (by simp)
  | withLock => exact hp
  | enters hc hsettled => exact hp
  | returns hc body => exact hp
  | throws hc error => exact hfinish _ hc (h.at_of hc Place.noConfusion Place.noConfusion)
  | resumes hc hsettled => exact hfinish _ hc (h.at_of hc Place.noConfusion Place.noConfusion)

theorem Told.mono {i : Nat} {place : Place} {l : List (Event V)} (h : Told s i place l)
    (hs : ∀ {p o}, s.settled p = some o → s'.settled p = some o) : Told s' i place l := by
  cases h with
  | waiting => exact .waiting
  | calling => exact .calling
  | awaiting body => exact .awaiting body
  | thrown h => exact .thrown (hs h)
  | taken h hbody => exact .taken (hs h) (hs hbody)

theorem records_first : Records ({} : WriteLock V) [] where
  told := by
    intro i c hc
    exact absurd hc (by simp)
  silent := fun _ _ => rfl

/-- What the step of call `i` itself is to the records: all the others stay as they are. -/
theorem Records.put (hr : Records s events) {e : Event V} (hs : Queued s t) (hsteps : Steps s e s') {i : Nat} {c : Caller}
    {previous : Promise} {place : Place} (hc : s.calls[i]? = some c) (hcalls : s'.calls = s.put i previous place)
    (he : e.ofBody = some i ∨ e.ofBody = none) (htold : Told s' i place (said i (events ++ [e]))) :
    Records s' (events ++ [e]) := by
  have hother : ∀ j, j ≠ i → said j (events ++ [e]) = said j events := by
    intro j hj
    rcases he with he | he
    · apply said_append_of_ne
      rw [he]
      exact fun heq => hj (Option.some.inj heq).symm
    · exact said_append_of_none he
  constructor
  · intro j c' hc'
    rw [hcalls] at hc'
    rcases getElem?_put hc hc' with ⟨rfl, rfl⟩ | ⟨hne, hj⟩
    · exact htold
    · rw [hother j hne]
      exact (hr.told j c' hj).mono (hs.settled_step hsteps)
  · intro j hj
    obtain ⟨hi, -⟩ := List.getElem?_eq_some_iff.1 hc
    rw [hcalls, length_put] at hj
    rw [hother j (by omega)]
    exact hr.silent j hj

theorem Records.step (hr : Records s events) {e : Event V} (hs : Queued s t) (hsteps : Steps s e s') :
    Records s' (events ++ [e]) := by
  cases hsteps with
  | @settles n o hnone =>
    have hsame : ∀ i, said i (events ++ [.settles n o]) = said i events := fun i => said_append_of_none rfl
    constructor
    · intro i c hc
      rw [hsame]
      exact (hr.told i c hc).mono (hs.settled_step (.settles hnone))
    · intro i hi
      rw [hsame]
      exact hr.silent i hi
  | withLock =>
    have hsame : ∀ i, said i (events ++ [.withLock]) = said i events := fun i => said_append_of_none rfl
    constructor
    · intro i c hc
      rw [hsame]
      rcases Nat.lt_trichotomy i s.calls.length with hi | hi | hi
      · rw [List.getElem?_append_left hi] at hc
        exact (hr.told i c hc).mono id
      · rw [hi, List.getElem?_concat_length] at hc
        obtain rfl := Option.some.inj hc
        rw [hr.silent i (Nat.le_of_eq hi.symm)]
        exact .waiting
      · rw [List.getElem?_eq_none (by rw [List.length_append]; exact hi)] at hc
        exact absurd hc (by simp)
    · intro i hi
      rw [List.length_append] at hi
      rw [hsame]
      exact hr.silent i (Nat.le_of_succ_le hi)
  | @enters i previous hc hsettled =>
    refine hr.put hs (.enters hc hsettled) hc rfl (.inr rfl) ?_
    rw [said_append_of_none rfl]
    have htold := hr.told i _ hc
    cases hsaid : said i events with
    | nil => exact .calling
    | cons e' l =>
      rw [hsaid] at htold
      cases htold
  | @returns i previous hc body =>
    refine hr.put hs (.returns hc body) hc rfl (.inl rfl) ?_
    rw [said_append_self rfl]
    have htold := hr.told i _ hc
    cases hsaid : said i events with
    | nil => exact .awaiting body
    | cons e' l =>
      rw [hsaid] at htold
      cases htold
  | @throws i previous hc error =>
    refine hr.put hs (.throws hc error) hc rfl (.inl rfl) ?_
    rw [said_append_self rfl]
    have htold := hr.told i _ hc
    cases hsaid : said i events with
    | nil => exact .thrown (Function.update_self _ _ _)
    | cons e' l =>
      rw [hsaid] at htold
      cases htold
  | @resumes i previous body o hc hsettled =>
    refine hr.put hs (.resumes hc hsettled) hc rfl (.inl rfl) ?_
    rw [said_append_self rfl]
    have htold := hr.told i _ hc
    have hsaid : said i events = [.returns i body] := by
      generalize said i events = l at htold
      cases htold
      rfl
    rw [hsaid]
    exact .taken (Function.update_self _ _ _) (hs.settled_step (.resumes hc hsettled) hsettled)

/-- Every schedule keeps to the queue. -/
theorem Reaches.queued (h : Reaches events s) :
    ∃ t, Queued s t ∧ Ordered events t ∧ Records s events := by
  induction h with
  | start => exact ⟨.first, queued_first, ⟨rfl, rfl⟩, records_first⟩
  | next _ hstep ih =>
    obtain ⟨t, hqueued, hordered, hrecords⟩ := ih
    have hsteps := steps_of_step hstep
    obtain ⟨t', hmoves, hqueued'⟩ := hqueued.step hsteps
    exact ⟨t', hqueued', hordered.step hmoves, hrecords.step hqueued hsteps⟩

theorem Queued.runs_iff (h : Queued s t) (i : Nat) : s.Runs i ↔ t.At i := by
  constructor
  · rintro ⟨c, hc, hwaiting, hended⟩
    exact h.at_of hc hwaiting hended
  · rintro ⟨hended, hentered⟩
    have hi : i < s.calls.length := by
      rw [h.called]
      exact Nat.lt_of_lt_of_le hentered t.entered_called
    obtain ⟨-, hwaits, hdone⟩ := h.caller i _ (List.getElem?_eq_getElem hi)
    refine ⟨_, List.getElem?_eq_getElem hi, ?_, ?_⟩
    · exact fun hplace => Nat.not_le.2 hentered (hwaits.1 hplace)
    · exact fun hplace => Nat.not_lt.2 hended (hdone.1 hplace)

/-- What the promise of a call has settled to is what its body has come to. -/
theorem Queued.result_iff (h : Queued s t) (hr : Records s events) (i : Nat) (o : Outcome V) :
    s.settled (.result i) = some o ↔
      (∃ error, Event.throws i error ∈ events ∧ o = .rejected error) ∨
        ∃ body, Event.returns i body ∈ events ∧ Event.resumes i ∈ events ∧ s.settled body = some o := by
  have hthrows : ∀ error, Event.throws i error ∈ events ↔ Event.throws i error ∈ said i events :=
    fun error => (mem_said rfl).symm
  have hreturns : ∀ body, Event.returns i body ∈ events ↔ Event.returns i body ∈ said i events :=
    fun body => (mem_said rfl).symm
  have hresumes : Event.resumes i ∈ events ↔ Event.resumes i ∈ said i events := (mem_said rfl).symm
  simp only [hthrows, hreturns, hresumes]
  by_cases hi : i < s.calls.length
  · have htold := hr.told i _ (List.getElem?_eq_getElem hi)
    obtain ⟨-, -, hdone⟩ := h.caller i _ (List.getElem?_eq_getElem hi)
    have hnone : (s.calls[i]).place ≠ .ended → s.settled (.result i) = none := fun hne => by
      have := (h.results i).not.2 fun hlt => hne (hdone.2 hlt)
      simpa using this
    generalize (s.calls[i]).place = place at htold hnone
    generalize said i events = l at htold
    cases htold with
    | waiting => simp [hnone Place.noConfusion]
    | calling => simp [hnone Place.noConfusion]
    | awaiting body => simp [hnone Place.noConfusion]
    | thrown hresult => simp [hresult, eq_comm]
    | taken hresult hbody => simp [hresult, hbody, eq_comm]
  · have hnone : s.settled (.result i) = none := by
      have hle := h.called
      have hcalled := t.entered_called
      have hended := t.ended_le
      have := (h.results i).not.2 (by omega)
      simpa using this
    rw [hr.silent i (Nat.not_lt.1 hi), hnone]
    simp

/-- A call that waits can have its turn once those before it have settled. -/
theorem Queued.enters (h : Queued s t) {k : Nat} {previous : Promise} (hc : s.calls[k]? = some ⟨previous, .waiting⟩)
    (hbefore : ∀ i < k, (s.settled (.result i)).isSome) : (s.step (.enters k)).isSome := by
  obtain ⟨hprevious, -, -⟩ := h.caller k _ hc
  obtain rfl : previous = link k := hprevious
  have hle : k ≤ t.ended := by
    by_contra hlt
    have := (h.results t.ended).1 (hbefore t.ended (Nat.not_le.1 hlt))
    omega
  unfold WriteLock.step
  dsimp only
  rw [hc]
  dsimp only
  rw [if_pos ((h.links k).2 hle)]
  rfl

/-- The write lock is a fair mutex: one body runs at a time, the bodies start and end in the order of the calls, the
promise of a call settles as its own body has ended, the lock is held while a body runs, and it is free once the calls
have settled: those that have come, for a call that comes next, and the first ones, for the one that waits for them. -/
theorem write_lock_is_a_fair_mutex (h : Reaches events s) :
    (∀ i j, s.Runs i → s.Runs j → i = j) ∧
      (∃ n, events.filterMap Event.started = List.range n) ∧
      (∃ n, events.filterMap Event.finished = List.range n) ∧
      (∀ i o, s.settled (.result i) = some o ↔
        (∃ error, Event.throws i error ∈ events ∧ o = .rejected error) ∨
          ∃ body, Event.returns i body ∈ events ∧ Event.resumes i ∈ events ∧ s.settled body = some o) ∧
      (s.held = true ↔ ∃ i, s.Runs i) ∧
      ((∀ i < s.calls.length, (s.settled (.result i)).isSome) → s.depth = 0 ∧ (s.settled s.tail).isSome) ∧
      ∀ k previous, s.calls[k]? = some ⟨previous, .waiting⟩ → (∀ i < k, (s.settled (.result i)).isSome) →
        (s.step (.enters k)).isSome := by
  obtain ⟨t, hqueued, hordered, hrecords⟩ := h.queued
  have hruns := hqueued.runs_iff
  refine ⟨?_, ⟨_, hordered.starts⟩, ⟨_, hordered.ends⟩, hqueued.result_iff hrecords, ?_, ?_, ?_⟩
  · intro i j hi hj
    exact ((hruns i).1 hi).unique ((hruns j).1 hj)
  · have hdepth := hqueued.depth
    simp only [hruns, Turns.exists_at]
    unfold held
    rw [decide_eq_true_iff, hdepth]
    omega
  · intro hsettled
    have hle := hqueued.called
    have hended := t.ended_le
    have hcalled := t.entered_called
    have hall : t.ended = t.called := by
      by_contra hne
      have := (hqueued.results t.ended).1 (hsettled t.ended (by omega))
      omega
    refine ⟨?_, ?_⟩
    · rw [hqueued.depth]
      omega
    · rw [hqueued.tail, hqueued.links]
      exact Nat.le_of_eq hall.symm
  · intro k previous hc hbefore
    exact hqueued.enters hc hbefore

/-- A body that throws and one that comes back later. -/
theorem write_lock_is_a_fair_mutex_two : ∃ s : WriteLock Nat,
    Reaches [.withLock, .withLock, .enters 0, .throws 0 7, .enters 1, .returns 1 (.other 0), .settles 0 (.fulfilled 3),
      .resumes 1] s ∧
      (∀ i j, s.Runs i → s.Runs j → i = j) ∧ s.settled (.result 0) = some (.rejected 7) ∧
      s.settled (.result 1) = some (.fulfilled 3) ∧ s.depth = 0 := by
  have hreaches := (((((((Reaches.start.next (e := .withLock) rfl).next (e := .withLock) rfl).next
    (e := .enters 0) rfl).next (e := .throws 0 7) rfl).next (e := .enters 1) rfl).next
    (e := .returns 1 (.other 0)) rfl).next (e := .settles 0 (.fulfilled 3)) rfl).next (e := .resumes 1) (V := Nat) rfl
  exact ⟨_, hreaches, (write_lock_is_a_fair_mutex hreaches).1, rfl, rfl, rfl⟩

end WriteLock

end ConfigRegistry.Git.Locking
