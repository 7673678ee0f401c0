import ConfigRegistry.Git.OneAtATime

/-!
# What the activities do in turn

Each program of `ConfigRegistry.Git.Activities`, run by the call that holds the clone: what a sync
knows of its mirror at each step, what a push keeps of the history, and that retries and pulls leave
everything sound. `sound_of_reach` carries it to every run of one activity at a time.
-/

namespace ConfigRegistry.Git

open Js Async

variable {rules : Rules} {terms : Terms} {α β : Type}

/-- The database and the calls may go on without undoing `K`. -/
def Steady (K : State → Prop) : Prop :=
  ∀ (s : State) (db : Store.Versions) (calls : List Call), s.db.Extends db → K s →
    K { s with db, calls }

/-- Call `t` has the clone, and knows `K`. -/
structure Holding (role : Role) (t : Nat) (K : State → Prop) (x : World State Unit) : Prop where
  has : x.state.Has role t
  knows : K x.state

variable (rules terms) in
/-- From `K`, call `t` may run `p`, which leads to `Q`, or to `E` where it throws. -/
def Works (role : Role) (t : Nat) (K : State → Prop) (p : Prog lang α) (Q : α → State → Prop)
    (E : State → Prop) : Prop :=
  (taking rules terms).Triple (sem rules) t (Holding role t K) p
    ((taking rules terms).Outcome (fun a => Holding role t (Q a)) fun _ => Holding role t E)

theorem steady_true : Steady fun _ => True := fun _ _ _ _ _ => trivial

theorem stable_holding {K : State → Prop} (hK : Steady K) (role : Role) (t : Nat) :
    (taking rules terms).Stable t (Holding role t K) := by
  rintro ⟨s, g⟩ ⟨s', g'⟩ ⟨hh, hk⟩ hr -
  obtain ⟨db, calls, rfl⟩ := hr.frame hh.holds
  exact ⟨by cases role <;> exact hh, hK s db calls hr.db hk⟩

namespace Works

variable {role : Role} {t : Nat} {K : State → Prop} {p : Prog lang α} {R : α → State → Prop}
  {Q : β → State → Prop} {E E' : State → Prop}

theorem bind {g : α → Prog lang β} (hp : Works rules terms role t K p R E)
    (hg : ∀ a, Works rules terms role t (R a) (g a) Q E) : Works rules terms role t K (p >>= g) Q E :=
  Discipline.Triple.bind hp hg fun _ _ _ h => h

theorem pure {Q : α → State → Prop} (a : α) (h : ∀ s, K s → Q a s) :
    Works rules terms role t K (Pure.pure a) Q E :=
  .done fun _ hx _ => ⟨hx.has, h _ hx.knows⟩

theorem fail {Q : α → State → Prop} (e : Error) (h : ∀ s, K s → E s) :
    Works rules terms role t K (Prog.fail e) Q E :=
  .done fun _ hx _ => ⟨hx.has, h _ hx.knows⟩

theorem conseq {K' : State → Prop} {R' : α → State → Prop} (hk : ∀ s, K' s → K s)
    (hr : ∀ a s, R a s → R' a s) (he : ∀ s, E s → E' s) (hp : Works rules terms role t K p R E) :
    Works rules terms role t K' p R' E' :=
  Discipline.Triple.conseq (fun _ _ hx => ⟨hx.has, hk _ hx.knows⟩) (fun r _ _ hx => by
    cases r with
    | ok a => exact ⟨hx.has, hr a _ hx.knows⟩
    | error e => exact ⟨hx.has, he _ hx.knows⟩) hp

/-- What the assertion says beside the state may be assumed. -/
theorem assume {φ : Prop} (h : φ → Works rules terms role t K p R E) :
    Works rules terms role t (fun s => K s ∧ φ) p R E :=
  fun x hx hi => h hx.knows.2 x ⟨hx.has, hx.knows.1⟩ hi

/-- `try { p } catch { h }`. -/
theorem handle {h : Error → Prog lang α} (hp : Works rules terms role t K p R E)
    (hh : ∀ e, Works rules terms role t E (h e) R E') : Works rules terms role t K (p.handle h) R E' :=
  Discipline.Triple.handle hp (fun _ _ _ h => h) hh

/-- What goes on whatever became of `p`. -/
theorem attempt_bind {g : Except Error α → Prog lang β} (hp : Works rules terms role t K p R E)
    (hok : ∀ a, Works rules terms role t (R a) (g (.ok a)) Q E')
    (herr : ∀ e, Works rules terms role t E (g (.error e)) Q E') :
    Works rules terms role t K (p.attempt >>= g) Q E' := by
  have hattempt : (taking rules terms).Triple (sem rules) t (Holding role t K) p.attempt
      ((taking rules terms).Outcome
        ((taking rules terms).Outcome (fun a => Holding role t (R a)) fun _ => Holding role t E)
        fun _ _ => False) := Discipline.Triple.attempt (S := lang) hp
  refine Discipline.Triple.bind hattempt (fun r => ?_) fun _ _ _ h => h.elim
  cases r with
  | ok a => exact hok a
  | error e => exact herr e

end Works

/-! ### Operations -/

/-- An operation on the clone. -/
theorem works_on {role : Role} {t : Nat} {o : CloneOp} {K E : State → Prop} {Q : o.Res → State → Prop}
    (hK : Steady K) (hQ : ∀ a, Steady (Q a)) (hE : Steady E)
    (hok : ∀ s a s₁, K s → o.answers rules s a s₁ → Q a (s₁.log t o (s.dirty rules)))
    (herr : ∀ s e s₁, K s → o.fails rules s e s₁ → E (s₁.log t o (s.dirty rules)))
    (hclean : ∀ s, K s → o.rewrites = true → terms.tidy → s.dirty rules = false)
    (hmade : ∀ s, K s → ∀ message, o = .commit message →
      s.clone.index.differs s.headTree = true →
      Made.Sound rules s.db ⟨s.clone.index, s.headTree, s.mirror, s.pulled⟩) :
    Works rules terms role t K (on t o) Q E := by
  have hperforms : (taking rules terms).Performs (sem rules) t (Holding role t K) (.on t o)
      ((taking rules terms).Outcome (fun a => Holding role t (Q a)) fun _ => Holding role t E) := by
    refine ⟨stable_holding hK role t, fun _ _ _ h => (nomatch h), fun r => ?_, ?_, fun _ _ _ _ h => h.elim⟩
    · cases r with
      | ok a => exact stable_holding (hQ a) role t
      | error e => exact stable_holding hE role t
    · intro x r s' hx hi _ hs
      obtain ⟨hrunning, hbusy, hleaves⟩ := leaves_on hs
      have hi' := hi.on hx.has.holds (hclean _ hx.knows) (hmade _ hx.knows) hs
      have hhas : s'.Has role t := by
        cases role with
        | sync => exact hrunning.trans hx.has
        | apart =>
          show t ∈ s'.busy
          rw [hbusy]
          exact hx.has
      refine ⟨x.ghost, trivial, keeps_of hi hi' hleaves (.inl hx.has.holds), ?_⟩
      cases r with
      | ok a =>
        obtain ⟨s₁, ha, rfl⟩ := hs
        exact ⟨hhas, hok _ a s₁ hx.knows ha⟩
      | error e =>
        obtain ⟨s₁, ha, rfl⟩ := hs
        exact ⟨hhas, herr _ e s₁ hx.knows ha⟩
  exact hperforms.triple

/-- One that neither rewrites nor commits, and whose failure nobody looks at. -/
theorem works_plainly {role : Role} {t : Nat} {o : CloneOp} {K : State → Prop} {Q : o.Res → State → Prop}
    (hK : Steady K) (hQ : ∀ a, Steady (Q a)) (hrw : o.rewrites = false)
    (hcommit : ∀ message, o ≠ .commit message)
    (hok : ∀ s a s₁, K s → o.answers rules s a s₁ → Q a (s₁.log t o (s.dirty rules))) :
    Works rules terms role t K (on t o) Q fun _ => True :=
  works_on hK hQ steady_true hok (fun _ _ _ _ _ => trivial)
    (fun _ _ h => by rw [hrw] at h; cases h) fun _ _ message h => (hcommit message h).elim

/-- An operation elsewhere that changes at most what `Leaves` and `Sound` are indifferent to. -/
theorem works_elsewhere {role : Role} {t : Nat} {o : Op} {K : State → Prop} {Q : o.Res → State → Prop}
    {E : State → Prop} (hK : Steady K) (hQ : ∀ a, Steady (Q a)) (hE : Steady E)
    (hok : ∀ s a s', Sound rules terms s → s.Has role t → K s → o.answers rules s a s' →
      Sound rules terms s' ∧ Leaves t s s' ∧ s'.Has role t ∧ Q a s')
    (herr : ∀ s e s', K s → o.fails rules s e s' → s' = s ∧ E s) :
    Works rules terms role t K (op o) Q E := by
  have hperforms : (taking rules terms).Performs (sem rules) t (Holding role t K) o
      ((taking rules terms).Outcome (fun a => Holding role t (Q a)) fun _ => Holding role t E) := by
    refine ⟨stable_holding hK role t, fun _ _ _ h => (nomatch h), fun r => ?_, ?_, fun _ _ _ _ h => h.elim⟩
    · cases r with
      | ok a => exact stable_holding (hQ a) role t
      | error e => exact stable_holding hE role t
    · intro x r s' hx hi _ hs
      cases r with
      | ok a =>
        obtain ⟨hi', hleaves, hhas, hq⟩ := hok _ a s' hi hx.has hx.knows hs
        exact ⟨x.ghost, trivial, keeps_of hi hi' hleaves (.inl hx.has.holds), hhas, hq⟩
      | error e =>
        obtain ⟨rfl, he⟩ := herr _ e s' hx.knows hs
        exact ⟨x.ghost, trivial, .refl hi, hx.has, he⟩
  exact hperforms.triple

theorem Leaves.refl (t : Nat) (s : State) : Leaves t s s := ⟨.refl, fun _ _ => .rfl, fun _ _ => id⟩

/-- An operation that leaves everything as it is. -/
theorem works_idle {role : Role} {t : Nat} {o : Op} {K : State → Prop} (hK : Steady K)
    (hok : ∀ s a s', o.answers rules s a s' → s' = s)
    (herr : ∀ s e s', o.fails rules s e s' → s' = s) :
    Works rules terms role t K (op o) (fun _ => K) fun _ => True :=
  works_elsewhere hK (fun _ => hK) steady_true
    (fun s a s' hi hh hk h => by
      obtain rfl := hok s a s' h
      exact ⟨hi, .refl t s', hh, hk⟩)
    fun s e s' _ h => ⟨herr s e s' h, trivial⟩

end ConfigRegistry.Git
