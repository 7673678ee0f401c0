import ConfigRegistry.Async.Prog
import Mathlib.Data.List.Basic

/-!
# Interleaved calls, process kills and restarts

A `Pool` is one process: the shared state and every call that has arrived, in order of arrival.
The index of a call in the pool is its identity. At any moment a new call may arrive, one awaited
operation may complete, a call whose operation has completed may run its next turn, or the process
may be killed: the operations in progress may be cut short, the state goes through `crash`, and the
calls that had not finished never do. Between the moment an operation takes effect and the turn
that its result starts, the other calls go on.
-/

namespace ConfigRegistry.Async

/-- What the operations of a language do. `torn` is what an operation that is cut short by a kill
may leave behind, `crash` what a kill does to the state itself. -/
structure Sem (S : Sig) where
  step : (o : S.Op) → S.State → Except S.Err (S.Res o) → S.State → Prop
  torn : S.Op → S.State → S.State → Prop
  crash : S.State → S.State → Prop

/-- The semantics with fewer runs: operations complete, are torn and processes are killed only
where the given conditions allow it. -/
def Sem.restrict {S : Sig} (sem : Sem S)
    (may : (o : S.Op) → S.State → Except S.Err (S.Res o) → Prop)
    (mayTear : S.Op → S.State → S.State → Prop) (mayCrash : S.State → Prop) : Sem S where
  step o s r s' := may o s r ∧ sem.step o s r s'
  torn o s s' := mayTear o s s' ∧ sem.torn o s s'
  crash s s' := mayCrash s ∧ sem.crash s s'

/-- A call: what was asked, and the rest of its program (`none` once the process was killed). -/
structure Thread (S : Sig) (ι ρ : Type) where
  request : ι
  prog : Option (Prog S ρ)

namespace Thread

variable {S : Sig} {ι ρ : Type}

/-- A kill ends the calls that have not returned; an answer already given stays given. -/
def kill (th : Thread S ι ρ) : Thread S ι ρ :=
  match th.prog with
  | some (.done r) => ⟨th.request, some (.done r)⟩
  | _ => ⟨th.request, none⟩

/-- The operation the call awaits. -/
def awaits (th : Thread S ι ρ) : Option S.Op := th.prog.bind Prog.awaits

/-- Where the call stands; a kill ends it. -/
def phase (th : Thread S ι ρ) : Phase S.Op :=
  match th.prog with
  | some q => q.phase
  | none => .ended

/-- The call has returned or thrown, or was killed. -/
def ended (th : Thread S ι ρ) : Bool :=
  match th.prog with
  | none | some (.done _) => true
  | _ => false

/-- The call has returned, without an error. -/
def succeeded (th : Thread S ι ρ) : Bool :=
  match th.prog with
  | some (.done (.ok _)) => true
  | _ => false

/-- What the call has answered. -/
def answer (th : Thread S ι ρ) : Option (Except S.Err ρ) :=
  match th.prog with
  | some (.done r) => some r
  | _ => none

theorem prog_of_succeeded {th : Thread S ι ρ} (h : th.succeeded = true) :
    ∃ a, th.prog = some (.done (.ok a)) := by
  rcases th with ⟨c, _ | ⟨_ | a⟩ | ⟨f, k⟩ | ⟨o, k⟩⟩
  case some.done.ok => exact ⟨a, rfl⟩
  all_goals cases h

@[simp] theorem phase_some (c : ι) (q : Prog S ρ) : (⟨c, some q⟩ : Thread S ι ρ).phase = q.phase :=
  rfl

@[simp] theorem phase_kill (th : Thread S ι ρ) : th.kill.phase = .ended := by
  rcases th with ⟨c, _ | ⟨r⟩ | ⟨f, k⟩ | ⟨o, k⟩⟩ <;> rfl

theorem awaits_of_phase {th : Thread S ι ρ} {o : S.Op} (h : th.phase = .awaiting o) :
    th.awaits = some o := by
  rcases th with ⟨c, _ | ⟨r⟩ | ⟨f, k⟩ | ⟨o, k⟩⟩ <;> cases h
  rfl

end Thread

/-- The last element of a list with one more. -/
theorem getElem?_concat_cases {α : Type} {l : List α} {a b : α} {i : Nat}
    (h : (l ++ [a])[i]? = some b) : l[i]? = some b ∧ i < l.length ∨ i = l.length ∧ b = a := by
  by_cases hi : i < l.length
  · rw [List.getElem?_append_left hi] at h
    exact .inl ⟨h, hi⟩
  · have hlt := (List.getElem?_eq_some_iff.1 h).1
    rw [List.length_append, List.length_singleton] at hlt
    obtain rfl : i = l.length := by omega
    rw [List.getElem?_concat_length] at h
    exact .inr ⟨rfl, by cases h; rfl⟩

/-- One process and the calls it has received. -/
structure Pool (S : Sig) (ι ρ : Type) where
  state : S.State
  threads : List (Thread S ι ρ)

namespace Pool

variable {S : Sig} {ι ρ : Type}

/-- Call `t` was asked for `c` and has answered `r`. -/
def Answered (p : Pool S ι ρ) (t : Nat) (c : ι) (r : Except S.Err ρ) : Prop :=
  p.threads[t]? = some ⟨c, some (.done r)⟩

theorem answered_iff {p : Pool S ι ρ} {t : Nat} {c : ι} {r : Except S.Err ρ} :
    p.threads[t]?.map Thread.request = some c ∧ p.threads[t]?.bind Thread.answer = some r ↔
      p.Answered t c r := by
  unfold Answered
  cases p.threads[t]? with
  | none => simp
  | some th => rcases th with ⟨c', _ | ⟨r'⟩ | ⟨f, k⟩ | ⟨o, k⟩⟩ <;> simp [Thread.answer]

instance [DecidableEq ι] [DecidableEq S.Err] [DecidableEq ρ] (p : Pool S ι ρ) (t : Nat) (c : ι)
    (r : Except S.Err ρ) : Decidable (p.Answered t c r) :=
  decidable_of_iff _ answered_iff

/-- No call is still running. -/
def Quiet (p : Pool S ι ρ) : Prop := p.threads.all Thread.ended = true

instance (p : Pool S ι ρ) : Decidable p.Quiet := inferInstanceAs (Decidable (_ = true))

/-- Every call of a quiet pool has ended. -/
theorem Quiet.phase {p : Pool S ι ρ} (h : p.Quiet) {t : Nat} {th : Thread S ι ρ}
    (ht : p.threads[t]? = some th) : th.phase = .ended := by
  have hended := List.all_eq_true.1 h th (List.mem_of_getElem? ht)
  rcases th with ⟨c, _ | ⟨r⟩ | ⟨f, k⟩ | ⟨o, k⟩⟩
  case some.turn => cases hended
  case some.await => cases hended
  all_goals rfl

end Pool

/-- A process: what its operations do, the program it runs for each call, whether the operation
that a call awaits may complete now, and whether a call may arrive. -/
structure System (S : Sig) (ι ρ : Type) where
  sem : Sem S
  body : Nat → ι → Prog S ρ
  may : Pool S ι ρ → Nat → Prop := fun _ _ => True
  mayArrive : Pool S ι ρ → ι → Prop := fun _ _ => True

/-- The operations in progress, in order of arrival, each either untouched or cut short by the
kill. -/
inductive Tear {S : Sig} {ι ρ : Type} (sem : Sem S) :
    List (Thread S ι ρ) → S.State → S.State → Prop where
  | nil (s : S.State) : Tear sem [] s s
  | skip {th : Thread S ι ρ} {ths : List (Thread S ι ρ)} {s s' : S.State} :
      Tear sem ths s s' → Tear sem (th :: ths) s s'
  | cut {c : ι} {o : S.Op} {k : Except S.Err (S.Res o) → Prog S ρ} {ths : List (Thread S ι ρ)}
      {s s' s'' : S.State} :
      sem.torn o s s' → Tear sem ths s' s'' → Tear sem (⟨c, some (.await o k)⟩ :: ths) s s''

section

variable {S : Sig} {ι ρ : Type} (sys : System S ι ρ)

/-- One step of the process. -/
inductive Step : Pool S ι ρ → Pool S ι ρ → Prop where
  | arrive {p : Pool S ι ρ} {c : ι} : sys.mayArrive p c →
      Step p
        ⟨((sys.body p.threads.length c).settle p.state).2,
          p.threads ++ [⟨c, some ((sys.body p.threads.length c).settle p.state).1⟩]⟩
  | complete {p : Pool S ι ρ} {t : Nat} {c : ι} {o : S.Op} {k : Except S.Err (S.Res o) → Prog S ρ}
      {r : Except S.Err (S.Res o)} {s' : S.State} :
      sys.may p t → p.threads[t]? = some ⟨c, some (.await o k)⟩ → sys.sem.step o p.state r s' →
      Step p ⟨s', p.threads.set t ⟨c, some (k r)⟩⟩
  | resume {p : Pool S ι ρ} {t : Nat} {c : ι} {q : Prog S ρ} :
      p.threads[t]? = some ⟨c, some q⟩ →
      Step p ⟨(q.settle p.state).2, p.threads.set t ⟨c, some (q.settle p.state).1⟩⟩
  | kill {p : Pool S ι ρ} {s' s'' : S.State} :
      Tear sys.sem p.threads p.state s' → sys.sem.crash s' s'' →
      Step p ⟨s'', p.threads.map Thread.kill⟩

/-- Every run of the process. -/
abbrev Steps : Pool S ι ρ → Pool S ι ρ → Prop := Relation.ReflTransGen (Step sys)

/-- The states reached from a fresh process whose shared state satisfies `init`. -/
def Reach (init : S.State → Prop) (p : Pool S ι ρ) : Prop := ∃ s, init s ∧ Steps sys ⟨s, []⟩ p

variable {sys} {init : S.State → Prop}

theorem Reach.start {s : S.State} (h : init s) : Reach sys init ⟨s, []⟩ := ⟨s, h, .refl⟩

theorem Reach.next {p p' : Pool S ι ρ} (h : Reach sys init p) (hs : Step sys p p') :
    Reach sys init p' :=
  let ⟨s, hi, hr⟩ := h
  ⟨s, hi, hr.tail hs⟩

/-- An answer stays given. -/
theorem Step.answered {p p' : Pool S ι ρ} (h : Step sys p p') {t : Nat} {c : ι}
    {r : Except S.Err ρ} (ht : p.Answered t c r) : p'.Answered t c r := by
  have hlt := (List.getElem?_eq_some_iff.1 ht).1
  unfold Pool.Answered at ht ⊢
  cases h with
  | arrive _ => rwa [List.getElem?_append_left hlt]
  | complete _ hu _ =>
    rw [List.getElem?_set]
    split
    · rename_i heq
      subst heq
      rw [hu] at ht
      cases ht
    · exact ht
  | resume hu =>
    rw [List.getElem?_set]
    split
    · rename_i heq
      subst heq
      rw [hu] at ht
      cases ht
      exact if_pos hlt
    · exact ht
  | kill _ _ =>
    rw [List.getElem?_map, ht]
    rfl

/-- A call has been there before, or has just arrived and run its first turn. -/
theorem Step.origin {p p' : Pool S ι ρ} (h : Step sys p p') {t : Nat} {th : Thread S ι ρ}
    (ht : p'.threads[t]? = some th) :
    (∃ th', p.threads[t]? = some th' ∧ th'.request = th.request) ∨
      th.prog = some ((sys.body t th.request).settle p.state).1 := by
  cases h with
  | arrive _ =>
    rcases getElem?_concat_cases ht with ⟨ht, -⟩ | ⟨rfl, rfl⟩
    · exact .inl ⟨th, ht, rfl⟩
    · exact .inr rfl
  | complete _ hu _ =>
    rw [List.getElem?_set] at ht
    split at ht
    · rename_i heq
      subst heq
      split at ht
      · cases ht
        exact .inl ⟨_, hu, rfl⟩
      · cases ht
    · exact .inl ⟨th, ht, rfl⟩
  | resume hu =>
    rw [List.getElem?_set] at ht
    split at ht
    · rename_i heq
      subst heq
      split at ht
      · cases ht
        exact .inl ⟨_, hu, rfl⟩
      · cases ht
    · exact .inl ⟨th, ht, rfl⟩
  | kill _ _ =>
    rw [List.getElem?_map, Option.map_eq_some_iff] at ht
    obtain ⟨th', ht, rfl⟩ := ht
    refine .inl ⟨th', ht, ?_⟩
    rcases th' with ⟨c, _ | ⟨r⟩ | ⟨f, k⟩ | ⟨o, k⟩⟩ <;> rfl

end

end ConfigRegistry.Async
