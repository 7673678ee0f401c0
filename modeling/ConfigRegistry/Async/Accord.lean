import ConfigRegistry.Async.Operations
import ConfigRegistry.Async.Triple

/-!
# Accords

A discipline without ghost state: an invariant, what each call relies on of the others, and what is
known of a call before it arrives and while it waits. Its triples are over the shared state alone, and
`Accord.holds` carries them to every run of a process that is not killed, `Accord.holds_killed` to every
run of one whose state survives that.
-/

namespace ConfigRegistry.Async

/-- What the calls of a process keep. `fresh t` is known before call `t` arrives, and `waits t o`
while it awaits `o`. -/
structure Accord (S : Sig) where
  inv : S.State → Prop
  rely : Nat → S.State → S.State → Prop
  fresh : Nat → S.State → Prop
  waits : Nat → S.Op → S.State → Prop := fun _ _ _ => True
  rely_refl : ∀ t s, rely t s s
  rely_trans : ∀ t s s' s'', rely t s s' → rely t s' s'' → rely t s s''
  fresh_rely : ∀ t s s', fresh t s → rely t s s' → fresh t s'
  waits_rely : ∀ t o s s', waits t o s → rely t s s' → waits t o s' := by intros; trivial

/-- Operations are not cut short, and the process is not killed. -/
structure Sem.Lasting {S : Sig} (sem : Sem S) : Prop where
  torn : ∀ o s s', ¬ sem.torn o s s'
  crash : ∀ s s', ¬ sem.crash s s'

namespace Accord

variable {S : Sig} (A : Accord S) (sem : Sem S) (t : Nat)

/-- What is known of a call where it stands. -/
def parked (t : Nat) : Phase S.Op → S.State → Prop
  | .awaiting o, s => A.waits t o s
  | .ready, _ | .ended, _ => True

/-- The discipline of an accord. -/
def discipline : Discipline S where
  Ghost := Unit
  inv x := A.inv x.state
  rely t x y := A.rely t x.state y.state
  move _ _ _ := True
  parked t φ x := A.parked t φ x.state
  unborn t x := A.fresh t x.state
  rely_refl _ _ := A.rely_refl _ _
  rely_trans _ _ _ _ := A.rely_trans _ _ _ _
  move_refl _ _ := trivial
  move_trans _ _ _ _ _ _ := trivial
  parked_rely t φ _ _ h hr := by
    cases φ with
    | awaiting o => exact A.waits_rely t o _ _ h hr
    | ready => trivial
    | ended => trivial
  unborn_rely _ _ _ := A.fresh_rely _ _ _

/-- A change by call `t` that the invariant and all others allow. -/
structure Keeps (s s' : S.State) : Prop where
  inv : A.inv s'
  others : ∀ u, u ≠ t → A.rely u s s'

/-- No other call undoes `P`. -/
def Stable (P : S.State → Prop) : Prop := ∀ s s', P s → A.rely t s s' → A.inv s' → P s'

variable {α β : Type}

/-- From every state in which `P` holds, call `t` may run `p`, and `Q` holds of how it ends. -/
def Runs (P : S.State → Prop) (p : Prog S α) (Q : Except S.Err α → S.State → Prop) : Prop :=
  A.discipline.Triple sem t (fun x => P x.state) p fun r x => Q r x.state

/-- The program returned, and `R` holds of what it returned. -/
def Returned {State Err : Type} (R : α → State → Prop) : Except Err α → State → Prop
  | .ok a, s => R a s
  | .error _, _ => False

/-- `R` holds of what the program returned, if it did. -/
def IfReturned {State Err : Type} (R : α → State → Prop) : Except Err α → State → Prop
  | .ok a, s => R a s
  | .error _, _ => True

variable {A sem t}

theorem Keeps.refl {s : S.State} (h : A.inv s) : A.Keeps t s s := ⟨h, fun u _ => A.rely_refl u s⟩

theorem Stable.and {P Q : S.State → Prop} (hP : A.Stable t P) (hQ : A.Stable t Q) :
    A.Stable t fun s => P s ∧ Q s :=
  fun s s' h hr hi => ⟨hP s s' h.1 hr hi, hQ s s' h.2 hr hi⟩

theorem Stable.ifReturned {R : α → S.State → Prop} (h : ∀ a, A.Stable t (R a)) (r : Except S.Err α) :
    A.Stable t (IfReturned R r) := by
  cases r with
  | ok a => exact h a
  | error e => exact fun _ _ _ _ _ => trivial

theorem Stable.returned {R : α → S.State → Prop} (h : ∀ a, A.Stable t (R a)) (r : Except S.Err α) :
    A.Stable t (Returned R r) := by
  cases r with
  | ok a => exact h a
  | error e => exact fun _ _ hr _ _ => hr

theorem Stable.const (p : Prop) : A.Stable t fun _ => p := fun _ _ h _ _ => h

theorem lift_keeps {s s' : S.State} (h : A.Keeps t s s') :
    A.discipline.Keeps t ⟨s, ()⟩ ⟨s', ()⟩ := ⟨h.inv, h.others⟩

namespace Runs

variable {P : S.State → Prop}

theorem done {r : Except S.Err α} {Q : Except S.Err α → S.State → Prop}
    (h : ∀ s, P s → A.inv s → Q r s) : A.Runs sem t P (.done r) Q :=
  Discipline.Triple.done fun x hx hi => h x.state hx hi

theorem pure {a : α} {Q : Except S.Err α → S.State → Prop} (h : ∀ s, P s → A.inv s → Q (.ok a) s) :
    A.Runs sem t P (Pure.pure a) Q := done h

/-- An operation: what it does is kept, and leads to `Q`, and what is left where it is cut short is kept. -/
theorem op_torn {o : S.Op} {Q : Except S.Err (S.Res o) → S.State → Prop}
    (hP : A.Stable t P) (hQ : ∀ r, A.Stable t (Q r)) (hw : ∀ s, P s → A.inv s → A.waits t o s)
    (h : ∀ s r s', P s → A.inv s → sem.step o s r s' → A.Keeps t s s' ∧ Q r s')
    (htorn : ∀ s s', P s → A.inv s → sem.torn o s s' → A.Keeps t s s') :
    A.Runs sem t P (Prog.op o) Q := by
  have hperforms : A.discipline.Performs sem t (fun x => P x.state) o fun r x => Q r x.state :=
    { stable := fun x y hx hr hi => hP _ _ hx hr hi
      parked := fun x hx hi => hw x.state hx hi
      after := fun r x y hx hr hi => hQ r _ _ hx hr hi
      torn := fun x s' hx hi hs => by
        have hkeep := htorn x.state s' hx hi hs
        exact ⟨x.ghost, trivial, hkeep.inv, hkeep.others⟩
      effect := fun x r s' hx hi _ hs => by
        obtain ⟨hkeep, hq⟩ := h x.state r s' hx hi hs
        exact ⟨x.ghost, trivial, ⟨hkeep.inv, hkeep.others⟩, hq⟩ }
  exact hperforms.triple

/-- An operation that is not cut short. -/
theorem op_untorn (htorn : ∀ o s s', ¬ sem.torn o s s') {o : S.Op} {Q : Except S.Err (S.Res o) → S.State → Prop}
    (hP : A.Stable t P) (hQ : ∀ r, A.Stable t (Q r)) (hw : ∀ s, P s → A.inv s → A.waits t o s)
    (h : ∀ s r s', P s → A.inv s → sem.step o s r s' → A.Keeps t s s' ∧ Q r s') :
    A.Runs sem t P (Prog.op o) Q :=
  op_torn hP hQ hw h fun _ _ _ _ hs => (htorn _ _ _ hs).elim

theorem op (hsem : sem.Lasting) {o : S.Op} {Q : Except S.Err (S.Res o) → S.State → Prop}
    (hP : A.Stable t P) (hQ : ∀ r, A.Stable t (Q r)) (hw : ∀ s, P s → A.inv s → A.waits t o s)
    (h : ∀ s r s', P s → A.inv s → sem.step o s r s' → A.Keeps t s s' ∧ Q r s') :
    A.Runs sem t P (Prog.op o) Q := op_untorn hsem.torn hP hQ hw h

/-- A read of the shared memory, within the turn. -/
theorem get_bind {g : S.State → Prog S β} {Q : Except S.Err β → S.State → Prop}
    (h : ∀ s, A.Runs sem t (fun s' => P s' ∧ s' = s) (g s) Q) :
    A.Runs sem t P (Prog.get >>= g) Q :=
  Discipline.Triple.get_bind (fun _ _ _ => trivial) fun s => h s

theorem bind {p : Prog S α} {g : α → Prog S β} {R : Except S.Err α → S.State → Prop}
    {Q : Except S.Err β → S.State → Prop} (hp : A.Runs sem t P p R)
    (hok : ∀ a, A.Runs sem t (R (.ok a)) (g a) Q)
    (herr : ∀ e s, A.inv s → R (.error e) s → Q (.error e) s) : A.Runs sem t P (p >>= g) Q :=
  Discipline.Triple.bind hp hok fun e x hi hx => herr e x.state hi hx

/-- A synchronous step that answers what it read, and a change of the shared memory with it. -/
theorem turn {f : S.State → S.State} {a : S.State → α} {Q : Except S.Err α → S.State → Prop}
    (h : ∀ s, P s → A.inv s → A.Keeps t s (f s) ∧ Q (.ok (a s)) (f s)) :
    A.Runs sem t P (.turn f fun s => Pure.pure (a s)) Q := by
  refine Discipline.Triple.turn (R := fun s x => Q (.ok (a s)) x.state) (fun _ _ _ => trivial)
    (fun x hx hi => ?_) fun _ => .done fun _ hx _ => hx
  obtain ⟨hkeep, hq⟩ := h x.state hx hi
  exact ⟨x.ghost, trivial, ⟨hkeep.inv, hkeep.others⟩, hq⟩

/-- A change of the shared memory. -/
theorem modify {f : S.State → S.State} {Q : Except S.Err Unit → S.State → Prop}
    (h : ∀ s, P s → A.inv s → A.Keeps t s (f s) ∧ Q (.ok ()) (f s)) :
    A.Runs sem t P (Prog.modify f) Q := turn h

/-- A program that returns, and what follows it. -/
theorem bind_returns {p : Prog S α} {g : α → Prog S β} {R : α → S.State → Prop}
    {Q : Except S.Err β → S.State → Prop} (hp : A.Runs sem t P p (Returned R))
    (hg : ∀ a, A.Runs sem t (R a) (g a) Q) : A.Runs sem t P (p >>= g) Q :=
  bind hp hg fun _ _ _ h => False.elim h

/-- A program that may fail, and what follows it where it does not. -/
theorem bind_ifReturned {p : Prog S α} {g : α → Prog S β} {R : α → S.State → Prop}
    {Q : β → S.State → Prop} (hp : A.Runs sem t P p (IfReturned R))
    (hg : ∀ a, A.Runs sem t (R a) (g a) (IfReturned Q)) : A.Runs sem t P (p >>= g) (IfReturned Q) :=
  bind hp hg fun _ _ _ _ => trivial

theorem conseq {P' : S.State → Prop} {p : Prog S α} {Q Q' : Except S.Err α → S.State → Prop}
    (hp : ∀ s, A.inv s → P' s → P s) (hq : ∀ r s, A.inv s → Q r s → Q' r s)
    (h : A.Runs sem t P p Q) : A.Runs sem t P' p Q' :=
  Discipline.Triple.conseq (fun x hi hx => hp x.state hi hx) (fun r x hi hx => hq r x.state hi hx) h

/-- What the assertion says beside the state may be assumed. -/
theorem assume {φ : Prop} {p : Prog S α} {Q : Except S.Err α → S.State → Prop}
    (h : φ → A.Runs sem t P p Q) : A.Runs sem t (fun s => P s ∧ φ) p Q :=
  fun x hx hi => h hx.2 x hx.1 hi

/-- What the assertion says may be assumed. -/
theorem fact {φ : Prop} {p : Prog S α} {Q : Except S.Err α → S.State → Prop}
    (h : φ → A.Runs sem t (fun _ => True) p Q) : A.Runs sem t (fun _ => φ) p Q :=
  fun x hx hi => h hx x trivial hi

theorem attempt {p : Prog S α} {Q : Except S.Err (Except S.Err α) → S.State → Prop}
    (h : A.Runs sem t P p fun r => Q (.ok r)) : A.Runs sem t P p.attempt Q :=
  Discipline.Triple.attempt h

theorem handle {p : Prog S α} {h : S.Err → Prog S α} {R Q : Except S.Err α → S.State → Prop}
    (hp : A.Runs sem t P p R) (hok : ∀ a s, A.inv s → R (.ok a) s → Q (.ok a) s)
    (herr : ∀ e, A.Runs sem t (R (.error e)) (h e) Q) : A.Runs sem t P (p.handle h) Q :=
  Discipline.Triple.handle hp (fun a x hi hx => hok a x.state hi hx) herr

/-- `try`/`finally`, whose last block returns. -/
theorem ensure {p : Prog S α} {q : Prog S Unit} {R Q : Except S.Err α → S.State → Prop}
    (hp : A.Runs sem t P p R) (hq : ∀ r, A.Runs sem t (R r) q (Returned fun _ s => Q r s)) :
    A.Runs sem t P (p.ensure q) Q := by
  refine Discipline.Triple.ensure hp fun r => ?_
  refine Discipline.Triple.conseq (fun _ _ hx => hx) (fun r' x _ hr => ?_) (hq r)
  cases r' <;> exact hr

/-- The loop that collects results keeps `P` and relates each result to its element. -/
theorem collect {body : α → Prog S β} {R : α → β → Prop}
    (h : ∀ a, A.Runs sem t P (body a) (Returned fun b s => P s ∧ R a b)) (as : List α) :
    A.Runs sem t P (Prog.collect as body) (Returned fun bs s => P s ∧ List.Forall₂ R as bs) := by
  refine Discipline.Triple.conseq (fun _ _ hx => hx) (fun r x _ hr => ?_)
    (Discipline.Triple.collect (R := R) (E := fun _ _ => False) (fun a => ?_) as)
  · cases r <;> exact hr
  · refine Discipline.Triple.conseq (fun _ _ hx => hx) (fun r x _ hr => ?_) (h a)
    cases r <;> exact hr

/-- A branch. -/
theorem ite {c : Prop} [Decidable c] {p q : Prog S α} {Q : Except S.Err α → S.State → Prop}
    (hp : c → A.Runs sem t P p Q) (hq : ¬ c → A.Runs sem t P q Q) :
    A.Runs sem t P (if c then p else q) Q := by
  split
  · exact hp ‹c›
  · exact hq ‹¬ c›

end Runs

section Idle

variable {P : S.State → Prop}

/-- A program that keeps `P`, and leaves nothing else to be known. -/
abbrev Idle (A : Accord S) (sem : Sem S) (t : Nat) (P : S.State → Prop) (p : Prog S α) : Prop :=
  A.Runs sem t P p fun _ => P

namespace Idle

theorem of_returned {p : Prog S α} (h : A.Runs sem t P p (Returned fun _ => P)) : A.Idle sem t P p :=
  h.conseq (fun _ _ hs => hs) fun r _ _ hr => by
    cases r with
    | ok a => exact hr
    | error e => exact hr.elim

theorem done (r : Except S.Err α) : A.Idle sem t P (.done r) := Runs.done fun _ h _ => h

theorem pure (a : α) : A.Idle sem t P (Pure.pure a) := done (.ok a)

theorem fail (e : S.Err) : A.Idle sem t P (Prog.fail e : Prog S α) := done (.error e)

theorem bind {p : Prog S α} {g : α → Prog S β} (hp : A.Idle sem t P p) (hg : ∀ a, A.Idle sem t P (g a)) :
    A.Idle sem t P (p >>= g) :=
  Runs.bind hp hg fun _ _ _ h => h

theorem attempt {p : Prog S α} (hp : A.Idle sem t P p) : A.Idle sem t P p.attempt := Runs.attempt hp

theorem attempt_returns {p : Prog S α} (hp : A.Idle sem t P p) :
    A.Runs sem t P p.attempt (Returned fun _ => P) :=
  Runs.attempt hp

theorem handle {p : Prog S α} {h : S.Err → Prog S α} (hp : A.Idle sem t P p)
    (hh : ∀ e, A.Idle sem t P (h e)) : A.Idle sem t P (p.handle h) :=
  Runs.handle hp (fun _ _ _ h => h) hh

theorem ensure {p : Prog S α} {q : Prog S Unit} (hp : A.Idle sem t P p) (hq : A.Idle sem t P q) :
    A.Idle sem t P (p.ensure q) :=
  bind hp.attempt fun r => bind hq fun _ => done r

theorem each (xs : List α) {body : α → Prog S Unit} (h : ∀ a, A.Idle sem t P (body a)) :
    A.Idle sem t P (Prog.each xs body) := by
  induction xs with
  | nil => exact .pure ()
  | cons a xs ih => exact bind (h a) fun _ => ih

theorem search (xs : List α) {body : α → Prog S (Option β)} (h : ∀ a, A.Idle sem t P (body a)) :
    A.Idle sem t P (Prog.search xs body) := by
  induction xs with
  | nil => exact .pure none
  | cons a xs ih =>
    apply bind (h a)
    intro b
    cases b with
    | some b => exact .pure (some b)
    | none => exact ih

theorem collect (xs : List α) {body : α → Prog S β} (h : ∀ a, A.Idle sem t P (body a)) :
    A.Idle sem t P (Prog.collect xs body) := by
  induction xs with
  | nil => exact .pure []
  | cons a xs ih => exact bind (h a) fun b => bind ih fun bs => .pure (b :: bs)

/-- A program none of whose operations and turns disturb `P`. -/
theorem of_within {φ : S.Op → Prop} {ψ : S.State → S.State → Prop} {p : Prog S α} (h : p.Within φ ψ)
    (hP : A.Stable t P) (hwaits : ∀ o s, φ o → P s → A.inv s → A.waits t o s)
    (hstep : ∀ o s r s', φ o → P s → A.inv s → sem.step o s r s' → A.Keeps t s s' ∧ P s')
    (htorn : ∀ o s s', φ o → P s → A.inv s → sem.torn o s s' → A.Keeps t s s')
    (hturn : ∀ s s', P s → A.inv s → ψ s s' → A.Keeps t s s' ∧ P s') : A.Idle sem t P p := by
  induction p with
  | done r => exact .done r
  | turn f k ih =>
    have hrest : ∀ s, A.Idle sem t P (k s) := fun s => ih s (h.2 s)
    have hf : A.Runs sem t P (.turn f fun s => Pure.pure s) fun _ => P :=
      .turn fun s hs hi => hturn s (f s) hs hi (h.1 s)
    exact bind hf hrest
  | await o k ih =>
    have hrest : ∀ r, A.Idle sem t P (k r) := fun r => ih r (h.2 r)
    have hop : A.Idle sem t P (Prog.op o) :=
      .op_torn hP (fun _ => hP) (fun s hs hi => hwaits o s h.1 hs hi)
        (fun s r s' hs hi hstep' => hstep o s r s' h.1 hs hi hstep')
        fun s s' hs hi htorn' => htorn o s s' h.1 hs hi htorn'
    exact bind hop.attempt hrest

end Idle

end Idle

section

variable {ι ρ : Type} {sys : System S ι ρ} {post : Nat → ι → Except S.Err ρ → S.State → Prop}

/-- What a kill leaves standing: the invariant, what is known of calls that have not arrived, and what
the others have established. -/
structure Survives (A : Accord S) (sys : System S ι ρ)
    (post : Nat → ι → Except S.Err ρ → S.State → Prop) : Prop where
  inv : ∀ s s', A.inv s → sys.sem.crash s s' → A.inv s'
  fresh : ∀ t s s', A.fresh t s → sys.sem.crash s s' → A.fresh t s'
  post : ∀ t c r s s', post t c r s → sys.sem.crash s s' → post t c r s'

theorem survives_of_lasting (hsem : sys.sem.Lasting) : A.Survives sys post where
  inv _ _ _ hc := (hsem.crash _ _ hc).elim
  fresh _ _ _ _ hc := (hsem.crash _ _ hc).elim
  post _ _ _ _ _ _ hc := (hsem.crash _ _ hc).elim

/-- The contract of an accord: calls arrive fresh, and establish `post`. -/
def contract (hkill : A.Survives sys post) (hpost : ∀ t c r, A.Stable t (post t c r))
    (hserve : ∀ (p : Pool S ι ρ) (c : ι), sys.mayArrive p c →
      A.Runs sys.sem p.threads.length (fun s => A.fresh p.threads.length s ∧ s = p.state)
        (sys.body p.threads.length c) (post p.threads.length c)) : Contract A.discipline sys where
  post t c r x := post t c r x.state
  born _ _ _ _ := True
  crashed _ _ := True
  post_rely hx hr hi := hpost _ _ _ _ _ hx hr hi
  arrive {p c x} hp hc := by
    refine ⟨(), trivial, .refl hp.inv, Contract.wp_of_triple (hserve p c hc) ?_ hp.inv ?_⟩
    · exact ⟨hp.unborn _ (Nat.le_refl _), hp.state⟩
    · exact fun _ _ hi hq => ⟨(), trivial, .refl hi, trivial, hq⟩
  allowed _ _ _ _ := trivial
  crash hi hc := ⟨(), trivial, hkill.inv _ _ hi hc, fun _ => trivial,
    fun _ hu => hkill.fresh _ _ _ hu hc, fun _ _ _ hp => hkill.post _ _ _ _ _ hp hc⟩

variable {init : S.State → Prop} (hsem : sys.sem.Lasting)
  (hpost : ∀ t c r, A.Stable t (post t c r))
  (hserve : ∀ (p : Pool S ι ρ) (c : ι), sys.mayArrive p c →
    A.Runs sys.sem p.threads.length (fun s => A.fresh p.threads.length s ∧ s = p.state)
      (sys.body p.threads.length c) (post p.threads.length c))
  (hinit : ∀ s, init s → A.inv s ∧ ∀ t, A.fresh t s)

include hinit in
theorem good_of_reach (hkill : A.Survives sys post) {p : Pool S ι ρ} (h : Reach sys init p) :
    (contract hkill hpost hserve).Good p ⟨p.state, ()⟩ := by
  obtain ⟨s, hs, hrun⟩ := h
  obtain ⟨hi, hfresh⟩ := hinit s hs
  have hstart : (contract hkill hpost hserve).Good ⟨s, []⟩ ⟨s, ()⟩ := .start hi hfresh
  obtain ⟨x, hx, -⟩ := hstart.steps hrun
  rw [← hx.state]
  exact hx

include hpost hserve hinit

/-- What every run keeps, kills included: the invariant, and what calls have established when they
end. -/
theorem holds_killed (hkill : A.Survives sys post) {p : Pool S ι ρ} (h : Reach sys init p) :
    A.inv p.state ∧ ∀ t c r, p.Answered t c r → post t c r p.state := by
  have hgood := good_of_reach hpost hserve hinit hkill h
  exact ⟨hgood.inv, fun t c r hr => hgood.answered hr⟩

include hsem

/-- What every run keeps of a process that is not killed. -/
theorem holds {p : Pool S ι ρ} (h : Reach sys init p) :
    A.inv p.state ∧ ∀ t c r, p.Answered t c r → post t c r p.state :=
  holds_killed hpost hserve hinit (survives_of_lasting hsem) h

/-- What every run keeps of the calls that wait. -/
theorem waiting {p : Pool S ι ρ} (h : Reach sys init p) {t : Nat} {th : Thread S ι ρ} {o : S.Op}
    (ht : p.threads[t]? = some th) (ho : th.phase = .awaiting o) : A.waits t o p.state := by
  have hparked := (good_of_reach hpost hserve hinit (survives_of_lasting hsem) h).parked t th ht
  rw [ho] at hparked
  exact hparked

/-- A step is one that any call yet to arrive relies on. -/
theorem step_rely {p p' : Pool S ι ρ} (h : Reach sys init p) (hs : Step sys p p') {t : Nat}
    (ht : p'.threads.length ≤ t) : A.rely t p.state p'.state := by
  obtain ⟨x, hx, hrely⟩ :=
    (good_of_reach hpost hserve hinit (survives_of_lasting hsem) h).step_rely hs hsem.crash
  have := hrely t ht
  rw [← hx.state]
  exact this

end

end Accord

end ConfigRegistry.Async
