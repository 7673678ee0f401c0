import ConfigRegistry.Async.Rely

/-!
# Stable assertions and triples

A call that keeps nothing in the shared memory between an operation and the turn after it is
reasoned about with assertions that the other calls cannot undo. `D.Triple t P p Q` says that call
`t` may run `p` whenever `P` holds, and that `Q` holds of its result; the rules below follow the
ways in which programs are put together.
-/

namespace ConfigRegistry.Async

namespace Discipline

variable {S : Sig} (D : Discipline S) (sem : Sem S) (t : Nat)

/-- No other call undoes `P`. -/
def Stable (P : D.W → Prop) : Prop := ∀ x y, P x → D.rely t x y → D.inv y → P y

variable {α β : Type}

/-- From every state in which `P` holds, `p` runs and ends with `Q`, having kept the discipline. -/
def Triple (P : D.W → Prop) (p : Prog S α) (Q : Except S.Err α → D.W → Prop) : Prop :=
  ∀ x, P x → D.inv x → D.wp sem t p (fun r x₀ y => D.Keeps t x₀ y ∧ Q r y) x x

/-- A postcondition in two parts: for what is returned and for what is thrown. -/
def Outcome (ok : α → D.W → Prop) (err : S.Err → D.W → Prop) : Except S.Err α → D.W → Prop
  | .ok a => ok a
  | .error e => err e

/-- What an operation does from `P`: wherever its guard holds, its effect is kept and leads to `Q`,
and so is what a kill leaves of it. -/
structure Performs (P : D.W → Prop) (o : S.Op) (Q : Except S.Err (S.Res o) → D.W → Prop) :
    Prop where
  stable : D.Stable t P
  parked : ∀ x, P x → D.inv x → D.parked t (.awaiting o) x
  after : ∀ r, D.Stable t (Q r)
  effect : ∀ x r s', P x → D.inv x → D.guard t o x → sem.step o x.state r s' →
    ∃ g, D.move t x.ghost g ∧ D.Keeps t x ⟨s', g⟩ ∧ Q r ⟨s', g⟩
  torn : ∀ x s', P x → D.inv x → sem.torn o x.state s' →
    ∃ g, D.move t x.ghost g ∧ D.Keeps t x ⟨s', g⟩

variable {D sem t}

theorem Stable.and {P Q : D.W → Prop} (hP : D.Stable t P) (hQ : D.Stable t Q) :
    D.Stable t fun x => P x ∧ Q x :=
  fun x y h hr hi => ⟨hP x y h.1 hr hi, hQ x y h.2 hr hi⟩

theorem Stable.const (p : Prop) : D.Stable t fun _ => p := fun _ _ h _ _ => h

theorem Stable.exists {ι : Type} {P : ι → D.W → Prop} (h : ∀ i, D.Stable t (P i)) :
    D.Stable t fun x => ∃ i, P i x :=
  fun x y ⟨i, hx⟩ hr hi => ⟨i, h i x y hx hr hi⟩

theorem Performs.conseq {P : D.W → Prop} {o : S.Op} {Q Q' : Except S.Err (S.Res o) → D.W → Prop}
    (h : D.Performs sem t P o Q) (hs : ∀ r, D.Stable t (Q' r)) (hq : ∀ r x, Q r x → Q' r x) :
    D.Performs sem t P o Q' where
  stable := h.stable
  parked := h.parked
  after := hs
  torn := h.torn
  effect x r s' hx hi hg hst := by
    obtain ⟨g, hm, hk, hr⟩ := h.effect x r s' hx hi hg hst
    exact ⟨g, hm, hk, hq r _ hr⟩

/-- An operation followed by the rest of the program. -/
theorem Performs.bind {P : D.W → Prop} {o : S.Op} {R : Except S.Err (S.Res o) → D.W → Prop}
    {g : S.Res o → Prog S β} {Q : Except S.Err β → D.W → Prop} (h : D.Performs sem t P o R)
    (hok : ∀ a, D.Triple sem t (R (.ok a)) (g a) Q) (herr : ∀ e x, D.inv x → R (.error e) x → Q (.error e) x) :
    D.Triple sem t P (Prog.op o >>= g) Q := by
  intro x hx hi
  refine ⟨⟨⟨hi, fun u _ => D.rely_refl u x⟩, h.parked x hx hi⟩, fun y hxy hiy _ => ?_⟩
  have hy : P y := h.stable x y hx hxy hiy
  refine ⟨fun r s' hg hs => ?_, fun s' ht => h.torn y s' hy hiy ht⟩
  obtain ⟨g', hm, hk, hr⟩ := h.effect y r s' hy hiy hg hs
  refine ⟨g', hm, hk, fun z hz hiz => ?_⟩
  have hrz : R r z := h.after r _ z hr hz hiz
  cases r with
  | ok a => exact hok a z hrz hiz
  | error e => exact ⟨.refl hiz, herr e z hiz hrz⟩

/-- A triple holds of a program that goes on within a turn. -/
theorem Triple.within {P : D.W → Prop} {p : Prog S α} {Q : Except S.Err α → D.W → Prop} {x₀ x : D.W}
    (h : D.Triple sem t P p Q) (hk : D.Keeps t x₀ x) (hx : P x) :
    D.wp sem t p (fun r y₀ y => D.Keeps t y₀ y ∧ Q r y) x₀ x :=
  wp_rebase hk.others (fun _ _ hr => ⟨hk.trans hr.1, hr.2⟩) (fun _ _ _ hr => hr) (h x hx hk.inv)

theorem Triple.done {P : D.W → Prop} {r : Except S.Err α} {Q : Except S.Err α → D.W → Prop}
    (h : ∀ x, P x → D.inv x → Q r x) : D.Triple sem t P (.done r) Q :=
  fun x hx hi => ⟨.refl hi, h x hx hi⟩

/-- A synchronous step: what it leaves is kept, and the rest runs from there. -/
theorem Triple.turn {P : D.W → Prop} {f : S.State → S.State} {k : S.State → Prog S α}
    {R : S.State → D.W → Prop} {Q : Except S.Err α → D.W → Prop}
    (hready : ∀ x, P x → D.inv x → D.parked t .ready x)
    (hstep : ∀ x, P x → D.inv x → ∃ g, D.move t x.ghost g ∧ D.Keeps t x ⟨f x.state, g⟩ ∧
      R x.state ⟨f x.state, g⟩)
    (hrest : ∀ s, D.Triple sem t (R s) (k s) Q) : D.Triple sem t P (.turn f k) Q := by
  intro x hx hi
  obtain ⟨g, hm, hk, hr⟩ := hstep x hx hi
  exact ⟨hready x hx hi, g, hm, (hrest x.state).within hk hr⟩

theorem Performs.triple {P : D.W → Prop} {o : S.Op} {Q : Except S.Err (S.Res o) → D.W → Prop}
    (h : D.Performs sem t P o Q) : D.Triple sem t P (Prog.op o) Q := by
  have hb : (Prog.op o >>= pure) = (Prog.op o : Prog S (S.Res o)) := Prog.bind_pure' _
  rw [← hb]
  exact h.bind (fun a => Triple.done fun _ hx _ => hx) fun _ _ _ hx => hx

theorem Triple.conseq {P P' : D.W → Prop} {p : Prog S α} {Q Q' : Except S.Err α → D.W → Prop}
    (hp : ∀ x, D.inv x → P' x → P x) (hq : ∀ r x, D.inv x → Q r x → Q' r x)
    (h : D.Triple sem t P p Q) : D.Triple sem t P' p Q' :=
  fun x hx hi => wp_mono (fun r _ y ⟨hk, hr⟩ => ⟨hk, hq r y hk.inv hr⟩) (h x (hp x hi hx) hi)

/-- What the assertion says beside the state may be assumed. -/
theorem Triple.assume {P : D.W → Prop} {φ : Prop} {p : Prog S α} {Q : Except S.Err α → D.W → Prop}
    (h : φ → D.Triple sem t P p Q) : D.Triple sem t (fun x => P x ∧ φ) p Q :=
  fun x hx hi => h hx.2 x hx.1 hi

theorem Triple.bind {P : D.W → Prop} {p : Prog S α} {g : α → Prog S β}
    {R : Except S.Err α → D.W → Prop} {Q : Except S.Err β → D.W → Prop}
    (h : D.Triple sem t P p R) (hok : ∀ a, D.Triple sem t (R (.ok a)) (g a) Q)
    (herr : ∀ e x, D.inv x → R (.error e) x → Q (.error e) x) : D.Triple sem t P (p >>= g) Q := by
  intro x hx hi
  refine wp_bind (wp_mono (fun r y₀ y => ?_) (h x hx hi))
  rintro ⟨hk, hr⟩
  cases r with
  | ok a => exact (hok a).within hk hr
  | error e => exact ⟨hk, herr e _ hk.inv hr⟩

/-- A read of the shared memory. -/
theorem Triple.get_bind {P : D.W → Prop} {g : S.State → Prog S β} {Q : Except S.Err β → D.W → Prop}
    (hready : ∀ x, P x → D.inv x → D.parked t .ready x)
    (h : ∀ s, D.Triple sem t (fun x => P x ∧ x.state = s) (g s) Q) :
    D.Triple sem t P (Prog.get >>= g) Q :=
  .turn (R := fun s x => P x ∧ x.state = s) hready
    (fun x hx hi => ⟨x.ghost, D.move_refl t _, .refl hi, hx, rfl⟩) h

/-- A change of the shared memory. -/
theorem Triple.modify {P R : D.W → Prop} {f : S.State → S.State}
    (hready : ∀ x, P x → D.inv x → D.parked t .ready x)
    (hstep : ∀ x, P x → D.inv x → ∃ g, D.move t x.ghost g ∧ D.Keeps t x ⟨f x.state, g⟩ ∧
      R ⟨f x.state, g⟩) :
    D.Triple sem t P (Prog.modify f) (D.Outcome (fun _ => R) fun _ _ => False) :=
  .turn (R := fun _ => R) hready hstep fun _ => .done fun _ hx _ => hx

theorem Triple.attempt {P : D.W → Prop} {p : Prog S α} {Q : Except S.Err (Except S.Err α) → D.W → Prop}
    (h : D.Triple sem t P p fun r => Q (.ok r)) : D.Triple sem t P p.attempt Q :=
  fun x hx hi => wp_attempt (h x hx hi)

theorem Triple.handle {P : D.W → Prop} {p : Prog S α} {h : S.Err → Prog S α}
    {R Q : Except S.Err α → D.W → Prop} (hp : D.Triple sem t P p R)
    (hok : ∀ a x, D.inv x → R (.ok a) x → Q (.ok a) x)
    (herr : ∀ e, D.Triple sem t (R (.error e)) (h e) Q) : D.Triple sem t P (p.handle h) Q := by
  intro x hx hi
  refine wp_handle (wp_mono (fun r y₀ y => ?_) (hp x hx hi))
  rintro ⟨hk, hr⟩
  cases r with
  | ok a => exact ⟨hk, hok a _ hk.inv hr⟩
  | error e => exact (herr e).within hk hr

/-- `try`/`finally`, where the last block cannot fail. -/
theorem Triple.ensure {P : D.W → Prop} {p : Prog S α} {q : Prog S Unit}
    {R Q : Except S.Err α → D.W → Prop} (hp : D.Triple sem t P p R)
    (hq : ∀ r, D.Triple sem t (R r) q (D.Outcome (fun _ => Q r) fun _ _ => False)) :
    D.Triple sem t P (p.ensure q) Q := by
  intro x hx hi
  refine wp_ensure (wp_mono (fun r y₀ y => ?_) (hp x hx hi))
  rintro ⟨hk, hr⟩
  refine wp_mono (fun r' z₀ z => ?_) ((hq r).within hk hr)
  rintro ⟨hkz, hz⟩
  cases r' with
  | ok a => exact ⟨hkz, hz⟩
  | error e => exact hz.elim

/-- The loop that collects results keeps `P` and relates each result to its element. -/
theorem Triple.collect {P : D.W → Prop} {body : α → Prog S β} {R : α → β → Prop}
    {E : S.Err → D.W → Prop}
    (h : ∀ a, D.Triple sem t P (body a) (D.Outcome (fun b x => P x ∧ R a b) E)) (as : List α) :
    D.Triple sem t P (Prog.collect as body)
      (D.Outcome (fun bs x => P x ∧ List.Forall₂ R as bs) E) := by
  induction as with
  | nil => exact Triple.done fun x hx _ => ⟨hx, .nil⟩
  | cons a as ih =>
    refine (h a).bind (fun b => ?_) fun e x _ he => he
    intro x ⟨hx, hb⟩ hi
    have hrest : D.Triple sem t P (Prog.collect as body >>= fun bs => pure (b :: bs))
        (D.Outcome (fun bs x => P x ∧ List.Forall₂ R (a :: as) bs) E) :=
      ih.bind (fun bs => Triple.done fun y ⟨hy, hbs⟩ _ => ⟨hy, .cons hb hbs⟩) fun e x _ he => he
    exact hrest x hx hi

end Discipline

namespace Contract

variable {S : Sig} {D : Discipline S} {ι ρ : Type} {sys : System S ι ρ}

/-- A call that arrives into `P` and satisfies a triple keeps the discipline, where it may end with
what the triple says of its result. -/
theorem wp_of_triple {t : Nat} {x : D.W} {P : D.W → Prop} {p : Prog S ρ}
    {Q post : Except S.Err ρ → D.W → Prop} (h : D.Triple sys.sem t P p Q) (hx : P x) (hi : D.inv x)
    (hend : ∀ r y, D.inv y → Q r y → ∃ g, D.move t y.ghost g ∧ D.Keeps t y ⟨y.state, g⟩ ∧
      D.parked t .ended ⟨y.state, g⟩ ∧ post r ⟨y.state, g⟩) :
    D.wp sys.sem t p (D.Ends t post) x x := by
  refine Discipline.wp_mono (fun r x₀ y => ?_) (h x hx hi)
  rintro ⟨hk, hr⟩
  obtain ⟨g, hm, hk', hp, hpost⟩ := hend r y hk.inv hr
  exact ⟨g, hm, ⟨hk.trans hk', hp⟩, hpost⟩

end Contract

end ConfigRegistry.Async
