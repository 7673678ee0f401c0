import ConfigRegistry.Async.Pool

/-!
# A call that is alone

What a call does when no other runs: `eval` follows the program, with the answers of the operations
given by a function, and `Alone.steps` shows that the process goes that way.
-/

namespace ConfigRegistry.Async

namespace Prog

variable {S : Sig} {α β : Type} (answer : (o : S.Op) → Except S.Err (S.Res o))

/-- The result and the last state, where operations leave the state alone and answer `answer`. -/
def eval : Prog S α → S.State → Except S.Err α × S.State
  | done r, s => (r, s)
  | turn f k, s => (k s).eval (f s)
  | await o k, s => (k (answer o)).eval s

@[simp] theorem eval_pure (a : α) (s : S.State) : (pure a : Prog S α).eval answer s = (.ok a, s) :=
  rfl

@[simp] theorem eval_done (r : Except S.Err α) (s : S.State) : (done r).eval answer s = (r, s) := rfl

@[simp] theorem eval_op (o : S.Op) (s : S.State) : (op o).eval answer s = (answer o, s) := rfl

@[simp] theorem eval_modify (f : S.State → S.State) (s : S.State) :
    (modify f).eval answer s = (.ok (), f s) := rfl

theorem eval_bind (p : Prog S α) (g : α → Prog S β) (s : S.State) :
    (p >>= g).eval answer s =
      match p.eval answer s with
      | (.ok a, s') => (g a).eval answer s'
      | (.error e, s') => (.error e, s') := by
  induction p generalizing s with
  | done r => cases r <;> rfl
  | turn f k ih => exact ih s (f s)
  | await o k ih => exact ih (answer o) s

/-- What follows a program that returns. -/
theorem eval_bind_ok {p : Prog S α} {a : α} {s s' : S.State} (h : p.eval answer s = (.ok a, s'))
    (g : α → Prog S β) : (p >>= g).eval answer s = (g a).eval answer s' := by
  rw [eval_bind, h]

/-- A program that throws ends there. -/
theorem eval_bind_error {p : Prog S α} {e : S.Err} {s s' : S.State}
    (h : p.eval answer s = (.error e, s')) (g : α → Prog S β) :
    (p >>= g).eval answer s = (.error e, s') := by
  rw [eval_bind, h]

@[simp] theorem eval_attempt (p : Prog S α) (s : S.State) :
    p.attempt.eval answer s = (.ok (p.eval answer s).1, (p.eval answer s).2) := by
  induction p generalizing s with
  | done r => rfl
  | turn f k ih => exact ih s (f s)
  | await o k ih => exact ih (answer o) s

theorem eval_handle (p : Prog S α) (h : S.Err → Prog S α) (s : S.State) :
    (p.handle h).eval answer s =
      match p.eval answer s with
      | (.ok a, s') => (.ok a, s')
      | (.error e, s') => (h e).eval answer s' := by
  rw [handle, eval_bind, eval_attempt]
  cases p.eval answer s with
  | mk r s' => cases r <;> rfl

end Prog

section

variable {S : Sig} {ι ρ : Type} {sys : System S ι ρ} {answer : (o : S.Op) → Except S.Err (S.Res o)}

/-- The answers are ones that the operations may give to call `t`. -/
structure Alone (sys : System S ι ρ) (t : Nat) (answer : (o : S.Op) → Except S.Err (S.Res o)) :
    Prop where
  may : ∀ p, sys.may p t
  step : ∀ o s, sys.sem.step o s (answer o) s

/-- From the turn that begins a program, or the rest of one, a process can go the way of `eval`. -/
theorem Alone.steps_settled {t : Nat} (h : Alone sys t answer) {c : ι} {q : Prog S ρ} {s : S.State}
    {p : Pool S ι ρ} (hs : p.state = (q.settle s).2)
    (ht : p.threads[t]? = some ⟨c, some (q.settle s).1⟩) :
    Steps sys p ⟨(q.eval answer s).2, p.threads.set t ⟨c, some (.done (q.eval answer s).1)⟩⟩ := by
  induction q generalizing s p with
  | done r =>
    obtain ⟨hlt, hget⟩ := List.getElem?_eq_some_iff.1 ht
    have hsame : p.threads.set t ⟨c, some (.done r)⟩ = p.threads := by
      rw [show (⟨c, some (.done r)⟩ : Thread S ι ρ) = p.threads[t] from hget.symm]
      exact List.set_getElem_self hlt
    rw [Prog.eval_done, hsame, show s = p.state from hs.symm]
  | turn f k ih => exact ih s hs ht
  | await o k ih =>
    have hlt := (List.getElem?_eq_some_iff.1 ht).1
    obtain rfl : p.state = s := hs
    have hcomplete := Step.complete (h.may p) ht (h.step o p.state)
    have hresume : Step sys ⟨p.state, p.threads.set t ⟨c, some (k (answer o))⟩⟩ _ :=
      .resume (List.getElem?_set_self hlt)
    have hrest := ih (answer o) (p := ⟨((k (answer o)).settle p.state).2,
      p.threads.set t ⟨c, some ((k (answer o)).settle p.state).1⟩⟩) rfl (List.getElem?_set_self hlt)
    rw [List.set_set] at hresume hrest
    exact .head hcomplete (.head hresume hrest)

/-- A call that arrives can go the way of `eval`. -/
theorem Alone.arrives {p : Pool S ι ρ} (h : Alone sys p.threads.length answer) {c : ι}
    (hc : sys.mayArrive p c) :
    Steps sys p ⟨((sys.body p.threads.length c).eval answer p.state).2, p.threads ++
      [⟨c, some (.done ((sys.body p.threads.length c).eval answer p.state).1)⟩]⟩ := by
  have hrest := h.steps_settled (p := ⟨((sys.body p.threads.length c).settle p.state).2,
    p.threads ++ [⟨c, some ((sys.body p.threads.length c).settle p.state).1⟩]⟩) rfl
    List.getElem?_concat_length
  simp only [List.set_append_right _ _ (Nat.le_refl _), Nat.sub_self, List.set_cons_zero] at hrest
  exact .head (.arrive hc) hrest

end

end ConfigRegistry.Async
