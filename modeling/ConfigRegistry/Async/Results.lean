import ConfigRegistry.Async.Accord

/-!
# What programs return

A fact about all that a program may return, whatever its operations answer, joins what is known of the state
that it ends in. And the loops, where what one round finds is known of its element.
-/

namespace ConfigRegistry.Async

variable {S : Sig} {α β : Type}

namespace Prog

/-- Whatever its operations answer, the program returns such a result, or throws. -/
def Gives (R : α → Prop) : Prog S α → Prop
  | done r => ∀ a, r = .ok a → R a
  | turn _ k => ∀ s, (k s).Gives R
  | await _ k => ∀ r, (k r).Gives R

namespace Gives

variable {R : α → Prop} {Q : β → Prop}

theorem pure {a : α} (h : R a) : (Pure.pure a : Prog S α).Gives R := fun b hb => by
  obtain rfl := Except.ok.inj hb
  exact h

theorem fail (e : S.Err) : (Prog.fail e : Prog S α).Gives R := fun b hb => by cases hb

theorem mono {R' : α → Prop} {p : Prog S α} (hp : p.Gives R) (h : ∀ a, R a → R' a) : p.Gives R' := by
  induction p with
  | done r => exact fun a ha => h a (hp a ha)
  | turn f k ih => exact fun s => ih s (hp s)
  | await o k ih => exact fun r => ih r (hp r)

theorem any (p : Prog S α) : p.Gives fun _ => True := by
  induction p with
  | done r => exact fun _ _ => trivial
  | turn f k ih => exact ih
  | await o k ih => exact ih

theorem bind {p : Prog S α} {g : α → Prog S β} (hp : p.Gives R) (hg : ∀ a, R a → (g a).Gives Q) :
    (p >>= g).Gives Q := by
  induction p with
  | done r =>
    cases r with
    | ok a => exact hg a (hp a rfl)
    | error e => exact fail e
  | turn f k ih => exact fun s => ih s (hp s)
  | await o k ih => exact fun r => ih r (hp r)

theorem bind_any {p : Prog S α} {g : α → Prog S β} (hg : ∀ a, (g a).Gives Q) : (p >>= g).Gives Q :=
  bind (any p) fun a _ => hg a

theorem attempt {p : Prog S α} (hp : p.Gives R) : p.attempt.Gives fun r => ∀ a, r = .ok a → R a := by
  induction p with
  | done r => exact fun r' h a ha => hp a (by rw [Except.ok.inj h]; exact ha)
  | turn f k ih => exact fun s => ih s (hp s)
  | await o k ih => exact fun r => ih r (hp r)

theorem handle {p : Prog S α} {h : S.Err → Prog S α} (hp : p.Gives R) (hh : ∀ e, (h e).Gives R) :
    (p.handle h).Gives R := by
  apply bind hp.attempt
  intro r hr
  cases r with
  | ok a => exact pure (hr a rfl)
  | error e => exact hh e

theorem collect {body : α → Prog S β} (h : ∀ a, (body a).Gives Q) (xs : List α) :
    (Prog.collect xs body).Gives fun bs => ∀ b ∈ bs, Q b := by
  induction xs with
  | nil => exact pure (by simp)
  | cons a xs ih => exact bind (h a) fun b hb => bind ih fun bs hbs => pure (List.forall_mem_cons.2 ⟨hb, hbs⟩)

/-- What follows a program may rest on what it returns. -/
theorem within_bind {φ : S.Op → Prop} {ψ : S.State → S.State → Prop} {p : Prog S α} {g : α → Prog S β}
    (hp : p.Gives R) (hwithin : p.Within φ ψ) (hg : ∀ a, R a → (g a).Within φ ψ) : (p >>= g).Within φ ψ := by
  induction p with
  | done r =>
    cases r with
    | ok a => exact hg a (hp a rfl)
    | error e => trivial
  | turn f k ih => exact ⟨hwithin.1, fun s => ih s (hp s) (hwithin.2 s)⟩
  | await o k ih => exact ⟨hwithin.1, fun r => ih r (hp r) (hwithin.2 r)⟩

end Gives

end Prog

/-- A result that is returned is one of these. -/
def IfOk {Err : Type} (R : α → Prop) (r : Except Err α) : Prop := ∀ a, r = .ok a → R a

@[simp] theorem ifOk_ok {Err : Type} {R : α → Prop} {a : α} : IfOk R (.ok a : Except Err α) ↔ R a :=
  ⟨fun h => h a rfl, fun h _ hb => Except.ok.inj hb ▸ h⟩

@[simp] theorem ifOk_error {Err : Type} {R : α → Prop} {e : Err} : IfOk R (.error e : Except Err α) :=
  fun _ h => by cases h

namespace Accord.Runs

variable {A : Accord S} {sem : Sem S} {t : Nat} {P : S.State → Prop}

/-- What a program returns is known of how it ends. -/
theorem gives {R : α → Prop} {p : Prog S α} {Q : Except S.Err α → S.State → Prop} (h : A.Runs sem t P p Q)
    (hp : p.Gives R) : A.Runs sem t P p fun r s => Q r s ∧ IfOk R r := by
  have hwp : ∀ (p : Prog S α), p.Gives R → ∀ x₀ x, A.discipline.wp sem t p
      (fun r x₀ y => A.discipline.Keeps t x₀ y ∧ Q r y.state) x₀ x →
      A.discipline.wp sem t p (fun r x₀ y => A.discipline.Keeps t x₀ y ∧ Q r y.state ∧ IfOk R r) x₀ x := by
    intro p hp
    induction p with
    | done r => exact fun x₀ x hx => ⟨hx.1, hx.2, hp⟩
    | turn f k ih =>
      rintro x₀ x ⟨hready, g, hmove, hx⟩
      exact ⟨hready, g, hmove, ih _ (hp _) x₀ _ hx⟩
    | await o k ih =>
      rintro x₀ x ⟨hyields, hcompletes⟩
      exact ⟨hyields, hcompletes.mono fun r _ => Discipline.Ready.mono fun _ _ => ih r (hp r) _ _⟩
  exact fun x hx hi => hwp p hp x x (h x hx hi)

/-- What may be said of the state at the start may be fixed. -/
theorem fix {σ : Type} {f : S.State → σ} {p : Prog S α} {Q : Except S.Err α → S.State → Prop}
    (h : ∀ v, A.Runs sem t (fun s => P s ∧ f s = v) p Q) : A.Runs sem t P p Q :=
  fun x hx hi => h (f x.state) x ⟨hx, rfl⟩ hi

/-- The loop that leaves early: what is found is found of one of the elements, and where nothing is, each round has
found nothing. -/
theorem search {body : α → Prog S (Option β)} {none_ : α → Prop} {some_ : α → β → Prop} {xs : List α}
    (h : ∀ a ∈ xs, A.Runs sem t P (body a) fun r s => P s ∧
      IfOk (fun b => (b = none → none_ a) ∧ ∀ x, b = some x → some_ a x) r) :
    A.Runs sem t P (Prog.search xs body) fun r s => P s ∧
      IfOk (fun b => (b = none → ∀ a ∈ xs, none_ a) ∧ ∀ x, b = some x → ∃ a ∈ xs, some_ a x) r := by
  induction xs with
  | nil =>
    refine .pure fun s hs _ => ⟨hs, ?_⟩
    simp
  | cons a xs ih =>
    rw [List.forall_mem_cons] at h
    refine .bind h.1 (fun b => ?_) fun e s _ hs => ⟨hs.1, ifOk_error⟩
    cases b with
    | some x =>
      refine .pure fun s hs _ => ⟨hs.1, ?_⟩
      rw [ifOk_ok] at hs ⊢
      refine ⟨fun hnone => (by cases hnone), fun y hy => ⟨a, List.mem_cons_self, ?_⟩⟩
      exact hs.2.2 y hy
    | none =>
      apply Accord.Runs.assume
      intro hnone
      refine (ih h.2).conseq (fun s _ hs => hs) fun r s _ hr => ⟨hr.1, ?_⟩
      cases r with
      | error e => exact ifOk_error
      | ok b =>
        rw [ifOk_ok] at hr ⊢
        refine ⟨fun hb => List.forall_mem_cons.2 ⟨(ifOk_ok.1 hnone).1 rfl, hr.2.1 hb⟩, fun x hx => ?_⟩
        obtain ⟨a', ha', hsome⟩ := hr.2.2 x hx
        exact ⟨a', List.mem_cons_of_mem a ha', hsome⟩

/-- The loop that collects results, of which each is related to its element. -/
theorem collected {body : α → Prog S β} {R : α → β → Prop} {xs : List α}
    (h : ∀ a ∈ xs, A.Runs sem t P (body a) fun r s => P s ∧ IfOk (R a) r) :
    A.Runs sem t P (Prog.collect xs body) fun r s => P s ∧ IfOk (List.Forall₂ R xs) r := by
  induction xs with
  | nil => exact .pure fun s hs _ => ⟨hs, ifOk_ok.2 .nil⟩
  | cons a xs ih =>
    rw [List.forall_mem_cons] at h
    refine .bind h.1 (fun b => ?_) fun e s _ hs => ⟨hs.1, ifOk_error⟩
    apply Accord.Runs.assume
    intro hb
    refine .bind (ih h.2) (fun bs => ?_) fun e s _ hs => ⟨hs.1, ifOk_error⟩
    exact .pure fun s hs _ => ⟨hs.1, ifOk_ok.2 (.cons (ifOk_ok.1 hb) (ifOk_ok.1 hs.2))⟩

end Accord.Runs

end ConfigRegistry.Async
