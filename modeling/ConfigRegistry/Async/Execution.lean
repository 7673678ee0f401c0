import ConfigRegistry.Async.Operations

/-!
# Executing one call

What a call comes to when no other runs: `run` follows the program, where a function says what each operation
does to the state, and is stuck where an operation does not complete.
-/

namespace ConfigRegistry.Async

namespace Prog

variable {S : Sig} {α β : Type} (step : (o : S.Op) → S.State → Option (Except S.Err (S.Res o) × S.State))

/-- The result and the last state. -/
def run : Prog S α → S.State → Option (Except S.Err α × S.State)
  | done r, s => some (r, s)
  | turn f k, s => (k s).run (f s)
  | await o k, s => (step o s).bind fun x => (k x.1).run x.2

variable {step} {s s' : S.State}

@[simp] theorem run_done (r : Except S.Err α) : (done r).run step s = some (r, s) := rfl

@[simp] theorem run_pure (a : α) : (pure a : Prog S α).run step s = some (.ok a, s) := rfl

@[simp] theorem run_fail (e : S.Err) : (fail e : Prog S α).run step s = some (.error e, s) := rfl

@[simp] theorem run_modify (f : S.State → S.State) : (modify f).run step s = some (.ok (), f s) := rfl

@[simp] theorem run_get_bind (g : S.State → Prog S β) : (get >>= g).run step s = (g s).run step s := rfl

theorem run_op (o : S.Op) : (op o).run step s = step o s := by
  show ((step o s).bind fun x => some (x.1, x.2)) = step o s
  cases step o s <;> rfl

theorem run_bind (p : Prog S α) (g : α → Prog S β) :
    (p >>= g).run step s = (p.run step s).bind fun x =>
      match x.1 with
      | .ok a => (g a).run step x.2
      | .error e => some (.error e, x.2) := by
  induction p generalizing s with
  | done r => cases r <;> rfl
  | turn f k ih => exact ih s
  | await o k ih =>
    show ((step o s).bind fun x => ((k x.1) >>= g).run step x.2) = _
    rw [run, Option.bind_assoc]
    exact congrArg _ (funext fun x => ih x.1)

/-- What follows a program that returns. -/
theorem run_bind_ok {p : Prog S α} {a : α} (h : p.run step s = some (.ok a, s')) (g : α → Prog S β) :
    (p >>= g).run step s = (g a).run step s' := by
  rw [run_bind, h]
  rfl

/-- A program that throws ends there. -/
theorem run_bind_error {p : Prog S α} {e : S.Err} (h : p.run step s = some (.error e, s')) (g : α → Prog S β) :
    (p >>= g).run step s = some (.error e, s') := by
  rw [run_bind, h]
  rfl

theorem run_attempt (p : Prog S α) :
    p.attempt.run step s = (p.run step s).map fun x => (.ok x.1, x.2) := by
  induction p generalizing s with
  | done r => rfl
  | turn f k ih => exact ih s
  | await o k ih =>
    show ((step o s).bind fun x => (k x.1).attempt.run step x.2) = _
    rw [run, Option.map_bind]
    exact congrArg _ (funext fun x => ih x.1)

/-- What follows a program whose end is looked at. -/
theorem run_attempt_bind {p : Prog S α} {r : Except S.Err α} (h : p.run step s = some (r, s'))
    (g : Except S.Err α → Prog S β) : (p.attempt >>= g).run step s = (g r).run step s' := by
  apply run_bind_ok
  rw [run_attempt, h]
  rfl

theorem run_handle_ok {p : Prog S α} {h : S.Err → Prog S α} {a : α} (hp : p.run step s = some (.ok a, s')) :
    (p.handle h).run step s = some (.ok a, s') := run_attempt_bind hp _

theorem run_handle_error {p : Prog S α} {h : S.Err → Prog S α} {e : S.Err}
    (hp : p.run step s = some (.error e, s')) : (p.handle h).run step s = (h e).run step s' :=
  run_attempt_bind hp _

theorem run_ensure {p : Prog S α} {q : Prog S Unit} {r : Except S.Err α} {s'' : S.State}
    (hp : p.run step s = some (r, s')) (hq : q.run step s' = some (.ok (), s'')) :
    (p.ensure q).run step s = some (r, s'') := by
  unfold ensure
  rw [run_attempt_bind hp, run_bind_ok hq]
  rfl

/-- What holds of the state along the operations and turns of a program holds of the state it ends in. -/
theorem run_within {φ : S.Op → Prop} {ψ : S.State → S.State → Prop} {P : S.State → Prop} {p : Prog S α}
    (h : p.Within φ ψ) (hstep : ∀ o s r s', φ o → P s → step o s = some (r, s') → P s')
    (hturn : ∀ s s', P s → ψ s s' → P s') (hs : P s) {r : Except S.Err α} (hrun : p.run step s = some (r, s')) :
    P s' := by
  induction p generalizing s with
  | done r' =>
    obtain ⟨-, rfl⟩ := Prod.mk.inj (Option.some.inj hrun)
    exact hs
  | turn f k ih => exact ih s (h.2 s) (hturn s (f s) hs (h.1 s)) hrun
  | await o k ih =>
    obtain ⟨⟨r', s₁⟩, hs₁, hrun⟩ := Option.bind_eq_some_iff.1 hrun
    exact ih r' (h.2 r') (hstep o s r' s₁ h.1 hs hs₁) hrun

/-! ### Where a program ends -/

variable (step) in
/-- The program comes to an end, and there `Q` holds. -/
def Ends (p : Prog S α) (s : S.State) (Q : Except S.Err α → S.State → Prop) : Prop :=
  ∃ r s', p.run step s = some (r, s') ∧ Q r s'

namespace Ends

variable {p : Prog S α} {g : α → Prog S β} {R : Except S.Err α → S.State → Prop}

theorem mono {Q : Except S.Err α → S.State → Prop} (h : p.Ends step s R) (hR : ∀ r s', R r s' → Q r s') :
    p.Ends step s Q := by
  obtain ⟨r, s', hrun, hr⟩ := h
  exact ⟨r, s', hrun, hR r s' hr⟩

theorem done {r : Except S.Err α} (h : R r s) : (Prog.done r).Ends step s R := ⟨r, s, rfl, h⟩

theorem modify {f : S.State → S.State} {Q : Except S.Err Unit → S.State → Prop} (h : Q (.ok ()) (f s)) :
    (Prog.modify f).Ends step s Q := ⟨.ok (), f s, rfl, h⟩

theorem op {o : S.Op} {r : Except S.Err (S.Res o)} {Q : Except S.Err (S.Res o) → S.State → Prop}
    (h : step o s = some (r, s')) (hQ : Q r s') : (Prog.op o).Ends step s Q := by
  refine ⟨r, s', ?_, hQ⟩
  rw [run_op, h]

theorem of_run {r : Except S.Err α} (h : p.run step s = some (r, s')) (hR : R r s') : p.Ends step s R :=
  ⟨r, s', h, hR⟩

/-- A program ends in one way only. -/
theorem elim {r : Except S.Err α} (h : p.Ends step s R) (hrun : p.run step s = some (r, s')) : R r s' := by
  obtain ⟨r', s'', hrun', hr⟩ := h
  rw [hrun] at hrun'
  obtain ⟨rfl, rfl⟩ := Prod.mk.inj (Option.some.inj hrun')
  exact hr

theorem bind {Q : Except S.Err β → S.State → Prop} (hp : p.Ends step s R)
    (hok : ∀ a s', R (.ok a) s' → (g a).Ends step s' Q) (herror : ∀ e s', R (.error e) s' → Q (.error e) s') :
    (p >>= g).Ends step s Q := by
  obtain ⟨r, s', hrun, hr⟩ := hp
  cases r with
  | ok a =>
    obtain ⟨r', s'', hrun', hr'⟩ := hok a s' hr
    refine ⟨r', s'', ?_, hr'⟩
    rw [run_bind_ok hrun, hrun']
  | error e => exact ⟨.error e, s', run_bind_error hrun g, herror e s' hr⟩

/-- What follows a program that returns. -/
theorem bind_ok {a : α} {Q : Except S.Err β → S.State → Prop} (hp : p.run step s = some (.ok a, s'))
    (hg : (g a).Ends step s' Q) : (p >>= g).Ends step s Q := by
  obtain ⟨r, s'', hrun, hr⟩ := hg
  refine ⟨r, s'', ?_, hr⟩
  rw [run_bind_ok hp, hrun]

/-- A program that throws ends there. -/
theorem bind_error {e : S.Err} {Q : Except S.Err β → S.State → Prop} (hp : p.run step s = some (.error e, s'))
    (hQ : Q (.error e) s') : (p >>= g).Ends step s Q :=
  ⟨.error e, s', run_bind_error hp g, hQ⟩

theorem attempt_bind {g : Except S.Err α → Prog S β} {Q : Except S.Err β → S.State → Prop}
    (hp : p.Ends step s R) (hg : ∀ r s', R r s' → (g r).Ends step s' Q) : (p.attempt >>= g).Ends step s Q := by
  obtain ⟨r, s', hrun, hr⟩ := hp
  obtain ⟨r', s'', hrun', hr'⟩ := hg r s' hr
  refine ⟨r', s'', ?_, hr'⟩
  rw [run_attempt_bind hrun, hrun']

theorem handle {h : S.Err → Prog S α} {Q : Except S.Err α → S.State → Prop} (hp : p.Ends step s R)
    (hok : ∀ a s', R (.ok a) s' → Q (.ok a) s') (herror : ∀ e s', R (.error e) s' → (h e).Ends step s' Q) :
    (p.handle h).Ends step s Q := by
  apply attempt_bind hp
  intro r s' hr
  cases r with
  | ok a => exact done (hok a s' hr)
  | error e => exact herror e s' hr

theorem ensure {q : Prog S Unit} {Q : Except S.Err α → S.State → Prop} (hp : p.Ends step s R)
    (hq : ∀ r s', R r s' → q.Ends step s' fun r' s'' => r' = .ok () ∧ Q r s'') : (p.ensure q).Ends step s Q := by
  apply attempt_bind hp
  intro r s' hr
  apply bind (hq r s' hr)
  · rintro _ s'' ⟨-, hQ⟩
    exact done hQ
  · rintro e s'' ⟨hcontra, -⟩
    cases hcontra

/-- A program whose operations all complete comes to an end. -/
theorem of_within {φ : S.Op → Prop} {ψ : S.State → S.State → Prop} (h : p.Within φ ψ)
    (hstep : ∀ o s, φ o → (step o s).isSome = true) : p.Ends step s fun _ _ => True := by
  induction p generalizing s with
  | done r => exact done trivial
  | turn f k ih =>
    obtain ⟨r, s', hrun, -⟩ := ih s (h.2 s) (s := f s)
    exact ⟨r, s', hrun, trivial⟩
  | await o k ih =>
    obtain ⟨⟨r, s'⟩, hs'⟩ := Option.isSome_iff_exists.1 (hstep o s h.1)
    obtain ⟨r', s'', hrun, -⟩ := ih r (h.2 r) (s := s')
    refine ⟨r', s'', ?_, trivial⟩
    rw [run, hs']
    exact hrun

end Ends

end Prog

section

variable {S : Sig} {ι ρ : Type} {sys : System S ι ρ}
  {step : (o : S.Op) → S.State → Option (Except S.Err (S.Res o) × S.State)}

/-- From the turn that begins a program, or the rest of one, a process can go the way of `run`. -/
theorem steps_of_run (hmay : ∀ p t, sys.may p t)
    (hstep : ∀ o s r s', step o s = some (r, s') → sys.sem.step o s r s') {t : Nat} {c : ι} {q : Prog S ρ}
    {s s' : S.State} {r : Except S.Err ρ} {p : Pool S ι ρ} (hrun : q.run step s = some (r, s'))
    (hs : p.state = (q.settle s).2) (ht : p.threads[t]? = some ⟨c, some (q.settle s).1⟩) :
    Steps sys p ⟨s', p.threads.set t ⟨c, some (.done r)⟩⟩ := by
  induction q generalizing s p with
  | done r' =>
    obtain ⟨rfl, rfl⟩ := Prod.mk.inj (Option.some.inj hrun)
    obtain ⟨hlt, hget⟩ := List.getElem?_eq_some_iff.1 ht
    have hget' : p.threads[t] = ⟨c, some (.done r')⟩ := hget
    have hsame : p.threads.set t ⟨c, some (.done r')⟩ = p.threads := by
      rw [← hget']
      exact List.set_getElem_self hlt
    have hstate : p.state = s := hs
    rw [hsame, ← hstate]
  | turn f k ih => exact ih s hrun hs ht
  | await o k ih =>
    obtain ⟨⟨r', s₁⟩, hs₁, hrun⟩ := Option.bind_eq_some_iff.1 hrun
    have hlt := (List.getElem?_eq_some_iff.1 ht).1
    have hstate : p.state = s := hs
    have hcomplete := Step.complete (hmay p t) ht (hstate ▸ hstep o s r' s₁ hs₁)
    have hresume : Step sys ⟨s₁, p.threads.set t ⟨c, some (k r')⟩⟩ _ := .resume (List.getElem?_set_self hlt)
    have hrest := ih r' (p := ⟨((k r').settle s₁).2, p.threads.set t ⟨c, some ((k r').settle s₁).1⟩⟩) hrun rfl
      (List.getElem?_set_self hlt)
    rw [List.set_set] at hresume hrest
    exact .head hcomplete (.head hresume hrest)

/-- A call that arrives can go the way of `run`. -/
theorem steps_of_run_arrive (hmay : ∀ p t, sys.may p t)
    (hstep : ∀ o s r s', step o s = some (r, s') → sys.sem.step o s r s') {p : Pool S ι ρ} {c : ι}
    (hc : sys.mayArrive p c) {s' : S.State} {r : Except S.Err ρ}
    (hrun : (sys.body p.threads.length c).run step p.state = some (r, s')) :
    Steps sys p ⟨s', p.threads ++ [⟨c, some (.done r)⟩]⟩ := by
  have hrest := steps_of_run hmay hstep (p := ⟨((sys.body p.threads.length c).settle p.state).2,
    p.threads ++ [⟨c, some ((sys.body p.threads.length c).settle p.state).1⟩]⟩) hrun rfl
    List.getElem?_concat_length
  simp only [List.set_append_right _ _ (Nat.le_refl _), Nat.sub_self, List.set_cons_zero] at hrest
  exact .head (.arrive hc) hrest

end

end ConfigRegistry.Async
