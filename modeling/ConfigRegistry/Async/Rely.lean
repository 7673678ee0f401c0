import ConfigRegistry.Async.Pool
import Mathlib.Data.List.Basic

/-!
# Rely-guarantee reasoning about interleaved calls

A `Discipline` fixes what all calls maintain: an invariant `inv` of the shared state together with
ghost state, and for each call `t` the relation `rely t` that bounds what the other calls may do
while `t` is suspended. `wp` is the weakest precondition of one call under the discipline: it
follows the program, lets the others interfere at every await and again before the turn that
follows it, and asks of each completed operation and of each turn that the invariant is kept and
that no other call sees more than it relies on. Within a turn nothing is asked, since no other call
can observe it.

Ghost state changes as the proof of the running call decides, within `move t`. With
`move t = fun _ _ => True` this is plain auxiliary state; with the steps of an abstract program it
makes `wp` a simulation.
-/

namespace ConfigRegistry.Async

/-- The shared state with the ghost state that the proofs attach to it. -/
structure World (σ γ : Type) where
  state : σ
  ghost : γ

/-- The rules all calls of a process follow. `parked t φ` is what is known while call `t` stands
at `φ`; `guard t o` is what call `t` may assume when `o`
completes; `unborn t` is known of the call with index `t` before it arrives. -/
structure Discipline (S : Sig) where
  Ghost : Type
  inv : World S.State Ghost → Prop
  rely : Nat → World S.State Ghost → World S.State Ghost → Prop
  move : Nat → Ghost → Ghost → Prop
  parked : Nat → Phase S.Op → World S.State Ghost → Prop
  guard : Nat → S.Op → World S.State Ghost → Prop := fun _ _ _ => True
  unborn : Nat → World S.State Ghost → Prop
  rely_refl : ∀ t x, rely t x x
  rely_trans : ∀ t x y z, rely t x y → rely t y z → rely t x z
  move_refl : ∀ t g, move t g g
  move_trans : ∀ t g g' g'', move t g g' → move t g' g'' → move t g g''
  parked_rely : ∀ t φ x y, parked t φ x → rely t x y → parked t φ y
  unborn_rely : ∀ t x y, unborn t x → rely t x y → unborn t y

namespace Discipline

variable {S : Sig} (D : Discipline S) (sem : Sem S) (t : Nat)

/-- The state together with the ghost state of a discipline. -/
abbrev W : Type := World S.State D.Ghost

/-- What call `t` does between `x₀` and `x` keeps the invariant, and no other call sees more than
it relies on. -/
structure Keeps (x₀ x : D.W) : Prop where
  inv : D.inv x
  others : ∀ u, u ≠ t → D.rely u x₀ x

/-- The turn that began at `x₀` ends at `x`, where the call stands at `φ`. -/
structure Yields (φ : Phase S.Op) (x₀ x : D.W) : Prop extends D.Keeps t x₀ x where
  parked : D.parked t φ x

/-- What a call suspended at `o` must do from every state the others may leave it in: whatever the
operation answers, its effect is kept and what comes `next` goes on; if a kill cuts `o` short, what
is left is kept. -/
def Completes (o : S.Op) (next : Except S.Err (S.Res o) → D.W → Prop) (x : D.W) : Prop :=
  ∀ y, D.rely t x y → D.inv y → D.parked t (.awaiting o) y →
    (∀ r s', D.guard t o y → sem.step o y.state r s' → ∃ g, D.move t y.ghost g ∧
      D.Keeps t y ⟨s', g⟩ ∧ next r ⟨s', g⟩) ∧
    ∀ s', sem.torn o y.state s' → ∃ g, D.move t y.ghost g ∧ D.Keeps t y ⟨s', g⟩

variable {α β : Type}

/-- Wherever the others lead from `x`, a turn that begins there satisfies `pre`. -/
def Ready (pre : D.W → D.W → Prop) (x : D.W) : Prop := ∀ y, D.rely t x y → D.inv y → pre y y

/-- The weakest precondition of `p` for the postcondition `Q`, in a turn that began at `x₀` and has
reached `x`. `Q` sees the beginning of the turn in which `p` ends. -/
def wp : Prog S α → (Except S.Err α → D.W → D.W → Prop) → D.W → D.W → Prop
  | .done r, Q, x₀, x => Q r x₀ x
  | .turn f k, Q, x₀, x => D.parked t .ready x ∧
    ∃ g, D.move t x.ghost g ∧ wp (k x.state) Q x₀ ⟨f x.state, g⟩
  | .await o k, Q, x₀, x => D.Yields t (.awaiting o) x₀ x ∧
    D.Completes sem t o (fun r => D.Ready t (wp (k r) Q)) x

/-- What a program's continuation needs of its result. -/
def Then (Q : Except S.Err β → D.W → D.W → Prop) (g : α → Prog S β) :
    Except S.Err α → D.W → D.W → Prop
  | .ok a => D.wp sem t (g a) Q
  | .error e => Q (.error e)

variable {D sem t}

theorem Keeps.refl {x : D.W} (h : D.inv x) : D.Keeps t x x := ⟨h, fun u _ => D.rely_refl u x⟩

theorem Keeps.trans {x y z : D.W} (h : D.Keeps t x y) (h' : D.Keeps t y z) : D.Keeps t x z :=
  ⟨h'.inv, fun u hu => D.rely_trans u x y z (h.others u hu) (h'.others u hu)⟩

theorem Completes.mono {o : S.Op} {next next' : Except S.Err (S.Res o) → D.W → Prop} {x : D.W}
    (h : ∀ r y, next r y → next' r y) (hr : D.Completes sem t o next x) :
    D.Completes sem t o next' x := by
  intro y hy hi hp
  refine ⟨fun r s' hg hs => ?_, (hr y hy hi hp).2⟩
  obtain ⟨g, hm, hk, hn⟩ := (hr y hy hi hp).1 r s' hg hs
  exact ⟨g, hm, hk, h _ _ hn⟩

/-- A suspended call is still suspended after the others ran. -/
theorem Completes.rely {o : S.Op} {next : Except S.Err (S.Res o) → D.W → Prop} {x y : D.W}
    (hr : D.Completes sem t o next x) (hxy : D.rely t x y) : D.Completes sem t o next y :=
  fun z hz hi hp => hr z (D.rely_trans t x y z hxy hz) hi hp

theorem Ready.mono {pre pre' : D.W → D.W → Prop} {x : D.W} (h : ∀ y₀ y, pre y₀ y → pre' y₀ y)
    (hr : D.Ready t pre x) : D.Ready t pre' x :=
  fun y hy hi => h _ _ (hr y hy hi)

theorem Ready.rely {pre : D.W → D.W → Prop} {x y : D.W} (hr : D.Ready t pre x)
    (hxy : D.rely t x y) : D.Ready t pre y :=
  fun z hz hi => hr z (D.rely_trans t x y z hxy hz) hi

theorem wp_mono {Q Q' : Except S.Err α → D.W → D.W → Prop} (h : ∀ r x₀ x, Q r x₀ x → Q' r x₀ x)
    {p : Prog S α} {x₀ x : D.W} (hp : D.wp sem t p Q x₀ x) : D.wp sem t p Q' x₀ x := by
  induction p generalizing x₀ x with
  | done r => exact h _ _ _ hp
  | turn f k ih =>
    obtain ⟨hn, g, hm, hp⟩ := hp
    exact ⟨hn, g, hm, ih _ hp⟩
  | await o k ih => exact ⟨hp.1, hp.2.mono fun r _ => Ready.mono fun _ _ => ih r⟩

theorem wp_bind {Q : Except S.Err β → D.W → D.W → Prop} {g : α → Prog S β} {p : Prog S α}
    {x₀ x : D.W} (hp : D.wp sem t p (D.Then sem t Q g) x₀ x) : D.wp sem t (p >>= g) Q x₀ x := by
  induction p generalizing x₀ x with
  | done r => cases r <;> exact hp
  | turn f k ih =>
    obtain ⟨hn, g', hm, hp⟩ := hp
    exact ⟨hn, g', hm, ih _ hp⟩
  | await o k ih => exact ⟨hp.1, hp.2.mono fun r _ => Ready.mono fun _ _ => ih r⟩

theorem wp_attempt {Q : Except S.Err (Except S.Err α) → D.W → D.W → Prop} {p : Prog S α}
    {x₀ x : D.W} (hp : D.wp sem t p (fun r => Q (.ok r)) x₀ x) :
    D.wp sem t p.attempt Q x₀ x := by
  induction p generalizing x₀ x with
  | done r => exact hp
  | turn f k ih =>
    obtain ⟨hn, g', hm, hp⟩ := hp
    exact ⟨hn, g', hm, ih _ hp⟩
  | await o k ih => exact ⟨hp.1, hp.2.mono fun r _ => Ready.mono fun _ _ => ih r⟩

/-- How `try`/`catch` ends: as the body when it returns, as the handler when it throws. -/
theorem wp_handle {Q : Except S.Err α → D.W → D.W → Prop} {p : Prog S α} {h : S.Err → Prog S α}
    {x₀ x : D.W}
    (hp : D.wp sem t p (fun r y₀ y => match r with
      | .ok a => Q (.ok a) y₀ y
      | .error e => D.wp sem t (h e) Q y₀ y) x₀ x) : D.wp sem t (p.handle h) Q x₀ x :=
  wp_bind (wp_attempt (wp_mono (fun r _ _ hr => by cases r <;> exact hr) hp))

/-- How `try`/`finally` ends: the last block runs whatever happened, and an error of its own
replaces the outcome. -/
theorem wp_ensure {Q : Except S.Err α → D.W → D.W → Prop} {p : Prog S α} {q : Prog S Unit}
    {x₀ x : D.W}
    (hp : D.wp sem t p (fun r => D.wp sem t q fun r' y₀ y => match r' with
      | .ok _ => Q r y₀ y
      | .error e => Q (.error e) y₀ y) x₀ x) : D.wp sem t (p.ensure q) Q x₀ x :=
  wp_bind (wp_attempt (wp_mono (fun _ _ _ hr =>
    wp_bind (wp_mono (fun r' _ _ h => by cases r' <;> exact h) hr)) hp))

/-- A turn may be taken to have begun earlier, from where it has kept the discipline. -/
theorem wp_rebase {Q Q' : Except S.Err α → D.W → D.W → Prop} {p : Prog S α} {x₀ x₁ x : D.W}
    (hk : ∀ u, u ≠ t → D.rely u x₀ x₁) (h₁ : ∀ r y, Q r x₁ y → Q' r x₀ y)
    (h : ∀ r y₀ y, Q r y₀ y → Q' r y₀ y) (hp : D.wp sem t p Q x₁ x) : D.wp sem t p Q' x₀ x := by
  induction p generalizing x with
  | done r => exact h₁ _ _ hp
  | turn f k ih =>
    obtain ⟨hn, g, hm, hp⟩ := hp
    exact ⟨hn, g, hm, ih _ hp⟩
  | await o k _ =>
    obtain ⟨hy, hc⟩ := hp
    exact ⟨⟨⟨hy.inv, fun u hu => D.rely_trans u _ _ _ (hk u hu) (hy.others u hu)⟩, hy.parked⟩,
      hc.mono fun r _ => Ready.mono fun _ _ => wp_mono h⟩

/-- Running the turn up to the next await keeps what `wp` says of the rest. -/
theorem wp_settle {Q : Except S.Err α → D.W → D.W → Prop} {p : Prog S α} {x₀ x : D.W}
    (hp : D.wp sem t p Q x₀ x) :
    ∃ g, D.move t x.ghost g ∧ D.wp sem t (p.settle x.state).1 Q x₀ ⟨(p.settle x.state).2, g⟩ := by
  induction p generalizing x₀ x with
  | done r => exact ⟨x.ghost, D.move_refl t _, hp⟩
  | await o k _ => exact ⟨x.ghost, D.move_refl t _, hp⟩
  | turn f k ih =>
    obtain ⟨-, g, hm, hp⟩ := hp
    obtain ⟨g', hm', hp'⟩ := ih _ hp
    exact ⟨g', D.move_trans t _ _ _ hm hm', hp'⟩

end Discipline

/-- How a call may end: with a last change of the ghost state it has yielded, and `post` holds. -/
def Discipline.Ends {S : Sig} (D : Discipline S) (t : Nat) {ρ : Type}
    (post : Except S.Err ρ → D.W → Prop) (r : Except S.Err ρ) (x₀ x : D.W) : Prop :=
  ∃ g, D.move t x.ghost g ∧ D.Yields t .ended x₀ ⟨x.state, g⟩ ∧ post r ⟨x.state, g⟩

/-- What is known of a pool between steps, whatever its calls have established. -/
structure Discipline.Stands {S : Sig} (D : Discipline S) {ι ρ : Type} (p : Pool S ι ρ) (x : D.W) :
    Prop where
  state : x.state = p.state
  inv : D.inv x
  parked : ∀ t th, p.threads[t]? = some th → D.parked t th.phase x
  unborn : ∀ t, p.threads.length ≤ t → D.unborn t x

/-- Every call keeps the discipline `D`: from any state in which it may arrive it runs within
`wp`, what it has established when it answers is never undone by the others, its operations
complete only where their guards hold, and a kill leads back to the invariant. -/
structure Contract {S : Sig} (D : Discipline S) {ι ρ : Type} (sys : System S ι ρ) where
  post : Nat → ι → Except S.Err ρ → D.W → Prop
  born : Nat → ι → D.Ghost → D.Ghost → Prop
  crashed : D.Ghost → D.Ghost → Prop
  post_rely : ∀ {t c r x y}, post t c r x → D.rely t x y → D.inv y → post t c r y
  arrive : ∀ {p : Pool S ι ρ} {c x}, D.Stands p x → sys.mayArrive p c →
    ∃ g, born p.threads.length c x.ghost g ∧ D.Keeps p.threads.length x ⟨x.state, g⟩ ∧
      D.wp sys.sem p.threads.length (sys.body p.threads.length c)
        (D.Ends p.threads.length (post p.threads.length c)) ⟨x.state, g⟩ ⟨x.state, g⟩
  allowed : ∀ {p : Pool S ι ρ} {x t th o}, D.Stands p x → sys.may p t → p.threads[t]? = some th →
    th.awaits = some o → D.guard t o x
  crash : ∀ {x : D.W} {s'}, D.inv x → sys.sem.crash x.state s' → ∃ g, crashed x.ghost g ∧
    D.inv ⟨s', g⟩ ∧ (∀ t, D.parked t .ended ⟨s', g⟩) ∧ (∀ t, D.unborn t x → D.unborn t ⟨s', g⟩) ∧
    ∀ t c r, post t c r x → post t c r ⟨s', g⟩

namespace Contract

variable {S : Sig} {D : Discipline S} {ι ρ : Type} {sys : System S ι ρ} (C : Contract D sys)

/-- What is known of a call between steps: what it established when it ended, or that wherever
the others lead, the rest of it runs within `wp`. -/
def Suspended (t : Nat) (c : ι) : Prog S ρ → D.W → Prop
  | .done r, x => C.post t c r x
  | q, x => D.Ready t (D.wp sys.sem t q (D.Ends t (C.post t c))) x

/-- The discipline holds of a pool between steps. -/
structure Good (p : Pool S ι ρ) (x : D.W) : Prop extends D.Stands p x where
  calls : ∀ t c q, p.threads[t]? = some ⟨c, some q⟩ → C.Suspended t c q x

/-- How the ghost state may change in one step of the pool. -/
inductive Moves : D.Ghost → D.Ghost → Prop where
  | run (t : Nat) {g g' : D.Ghost} : D.move t g g' → Moves g g'
  | arrive (t : Nat) (c : ι) {g g' g'' : D.Ghost} : C.born t c g g' → D.move t g' g'' → Moves g g''
  | crash {g g' : D.Ghost} : C.crashed g g' → Moves g g'

variable {C}

theorem Good.start {s : S.State} {g : D.Ghost} (hi : D.inv ⟨s, g⟩) (hu : ∀ t, D.unborn t ⟨s, g⟩) :
    C.Good ⟨s, []⟩ ⟨s, g⟩ where
  state := rfl
  inv := hi
  parked := fun t th h => by simp at h
  calls := fun t c q h => by simp at h
  unborn := fun t _ => hu t

theorem Suspended.rely {t : Nat} {c : ι} {q : Prog S ρ} {x y : D.W} (h : C.Suspended t c q x)
    (hxy : D.rely t x y) (hi : D.inv y) : C.Suspended t c q y := by
  cases q with
  | done r => exact C.post_rely h hxy hi
  | turn f k => exact Discipline.Ready.rely h hxy
  | await o k => exact Discipline.Ready.rely h hxy

/-- A settled program that satisfies `wp` has yielded and is suspended. -/
theorem suspended_of_wp {t : Nat} {c : ι} {q : Prog S ρ} {x₀ x : D.W} (hq : q.Settled)
    (h : D.wp sys.sem t q (D.Ends t (C.post t c)) x₀ x) :
    ∃ g, D.move t x.ghost g ∧ D.Yields t q.phase x₀ ⟨x.state, g⟩ ∧
      C.Suspended t c q ⟨x.state, g⟩ := by
  cases q with
  | turn f k => exact hq.elim
  | done r => exact h
  | await o k =>
    obtain ⟨hy, hc⟩ := h
    refine ⟨x.ghost, D.move_refl t _, hy, fun y hxy hi => ⟨⟨⟨hi, fun u _ => D.rely_refl u y⟩, ?_⟩,
      hc.rely hxy⟩⟩
    exact D.parked_rely t _ _ _ hy.parked hxy

/-- A call that is ready for its next turn is suspended before it. -/
theorem suspended_of_ready {t : Nat} {c : ι} {q : Prog S ρ} {x : D.W} (hi : D.inv x)
    (h : D.Ready t (D.wp sys.sem t q (D.Ends t (C.post t c))) x) :
    ∃ g, D.move t x.ghost g ∧ D.Keeps t x ⟨x.state, g⟩ ∧ D.parked t q.phase ⟨x.state, g⟩ ∧
      C.Suspended t c q ⟨x.state, g⟩ := by
  have hw := h x (D.rely_refl t x) hi
  have hkeep : D.Keeps t x x := .refl hi
  cases q with
  | done r =>
    obtain ⟨g, hm, hy, hp⟩ := hw
    exact ⟨g, hm, hy.toKeeps, hy.parked, hp⟩
  | turn f k => exact ⟨x.ghost, D.move_refl t _, hkeep, hw.1, h⟩
  | await o k => exact ⟨x.ghost, D.move_refl t _, hkeep, hw.1.parked, h⟩

/-- One call moves on and the discipline still holds. -/
theorem Good.set {p : Pool S ι ρ} {x y : D.W} (hg : C.Good p x) {t : Nat} {c : ι} {q q' : Prog S ρ}
    (ht : p.threads[t]? = some ⟨c, some q⟩) (hk : D.Keeps t x y) (hp : D.parked t q'.phase y)
    (hs : C.Suspended t c q' y) : C.Good ⟨y.state, p.threads.set t ⟨c, some q'⟩⟩ y := by
  have hlt : t < p.threads.length := (List.getElem?_eq_some_iff.1 ht).1
  refine ⟨⟨rfl, hk.inv, fun u th hu => ?_, fun u hu => ?_⟩, fun u d q hu => ?_⟩
  · by_cases hut : u = t
    · subst hut
      rw [List.getElem?_set_self hlt] at hu
      cases hu
      exact hp
    · rw [List.getElem?_set_ne (Ne.symm hut)] at hu
      exact D.parked_rely u _ _ _ (hg.parked u th hu) (hk.others u hut)
  · rw [List.length_set] at hu
    exact D.unborn_rely u _ _ (hg.unborn u hu) (hk.others u (by omega))
  · by_cases hut : u = t
    · subst hut
      rw [List.getElem?_set_self hlt] at hu
      cases hu
      exact hs
    · rw [List.getElem?_set_ne (Ne.symm hut)] at hu
      exact (hg.calls u d q hu).rely (hk.others u hut) hk.inv

/-- One operation completes: the discipline holds again. -/
theorem Good.complete {p : Pool S ι ρ} {x : D.W} (hg : C.Good p x) {t : Nat} {c : ι} {o : S.Op}
    {k : Except S.Err (S.Res o) → Prog S ρ} {r : Except S.Err (S.Res o)} {s' : S.State}
    (hmay : sys.may p t) (ht : p.threads[t]? = some ⟨c, some (.await o k)⟩)
    (hs : sys.sem.step o p.state r s') :
    ∃ x', C.Good ⟨s', p.threads.set t ⟨c, some (k r)⟩⟩ x' ∧ D.move t x.ghost x'.ghost ∧
      ∀ u, u ≠ t → D.rely u x x' := by
  have hsus := hg.calls t c _ ht x (D.rely_refl t x) hg.inv
  have hguard := C.allowed hg.toStands hmay ht rfl
  rw [← hg.state] at hs
  obtain ⟨g, hm, hk, hn⟩ := (hsus.2 x (D.rely_refl t x) hg.inv (hg.parked t _ ht)).1 r s' hguard hs
  obtain ⟨g', hm', hk', hp, hsus'⟩ := suspended_of_ready hk.inv hn
  have hothers : ∀ u, u ≠ t → D.rely u x ⟨s', g'⟩ :=
    fun u hu => D.rely_trans u _ _ _ (hk.others u hu) (hk'.others u hu)
  exact ⟨⟨s', g'⟩, hg.set ht ⟨hk'.inv, hothers⟩ hp hsus', D.move_trans t _ _ _ hm hm', hothers⟩

/-- A call runs its next turn: the discipline holds again. -/
theorem Good.resume {p : Pool S ι ρ} {x : D.W} (hg : C.Good p x) {t : Nat} {c : ι} {q : Prog S ρ}
    (ht : p.threads[t]? = some ⟨c, some q⟩) :
    ∃ x', C.Good ⟨(q.settle p.state).2, p.threads.set t ⟨c, some (q.settle p.state).1⟩⟩ x' ∧
      D.move t x.ghost x'.ghost ∧ ∀ u, u ≠ t → D.rely u x x' := by
  have hkeep : D.Keeps t x x := .refl hg.inv
  by_cases hq : q.Settled
  · rw [Prog.settle_of_settled hq, ← hg.state]
    exact ⟨x, hg.set ht hkeep (hg.parked t _ ht) (hg.calls t c q ht), D.move_refl t _, hkeep.others⟩
  · cases q with
    | done r => exact (hq trivial).elim
    | await o k => exact (hq trivial).elim
    | turn f k =>
      have hwp := hg.calls t c _ ht x (D.rely_refl t x) hg.inv
      obtain ⟨g, hm, hwp⟩ := Discipline.wp_settle hwp
      obtain ⟨g', hm', hy, hs⟩ := suspended_of_wp (Prog.settle_settled _ _) hwp
      rw [hg.state] at hm' hy hs
      exact ⟨_, hg.set ht hy.toKeeps hy.parked hs, D.move_trans t _ _ _ hm hm', hy.others⟩

/-- A call arrives and runs its first turn. -/
theorem Good.arrive {p : Pool S ι ρ} {x : D.W} (hg : C.Good p x) {c : ι} (hc : sys.mayArrive p c) :
    ∃ x', C.Good ⟨((sys.body p.threads.length c).settle p.state).2,
        p.threads ++ [⟨c, some ((sys.body p.threads.length c).settle p.state).1⟩]⟩ x' ∧
      (∃ g, C.born p.threads.length c x.ghost g ∧ D.move p.threads.length g x'.ghost) ∧
      ∀ u, u ≠ p.threads.length → D.rely u x x' := by
  obtain ⟨g, hb, hk, hwp⟩ := C.arrive hg.toStands hc
  obtain ⟨g', hm, hwp'⟩ := Discipline.wp_settle hwp
  obtain ⟨g₁, hm₁, hy, hsus⟩ := suspended_of_wp (Prog.settle_settled _ _) hwp'
  simp only [hg.state] at hsus hy hm hm₁ hk
  have hothers : ∀ u, u ≠ p.threads.length → D.rely u x _ :=
    fun u hu => D.rely_trans u _ _ _ (hk.others u hu) (hy.others u hu)
  refine ⟨_, ⟨⟨rfl, hy.inv, fun u th hu => ?_, fun u hu => ?_⟩, fun u d q hu => ?_⟩,
    ⟨g, hb, D.move_trans _ _ _ _ hm hm₁⟩, hothers⟩
  · obtain ⟨hu, hlt⟩ | ⟨rfl, rfl⟩ := getElem?_concat_cases hu
    · exact D.parked_rely u _ _ _ (hg.parked u th hu) (hothers u (by omega))
    · exact hy.parked
  · rw [List.length_append, List.length_singleton] at hu
    exact D.unborn_rely u _ _ (hg.unborn u (by omega)) (hothers u (by omega))
  · obtain ⟨hu, hlt⟩ | ⟨rfl, hq⟩ := getElem?_concat_cases hu
    · exact (hg.calls u d q hu).rely (hothers u (by omega)) hy.inv
    · cases hq
      exact hsus

/-- Cutting operations short keeps the invariant and what the calls that were not cut rely on. -/
theorem tear_rely {ths : List (Thread S ι ρ)} {s s' : S.State} (h : Tear sys.sem ths s s') :
    ∀ {n : Nat} {x : D.W}, x.state = s → D.inv x →
      (∀ i th, ths[i]? = some th → D.parked (n + i) th.phase x) →
      (∀ i c q, ths[i]? = some ⟨c, some q⟩ → C.Suspended (n + i) c q x) →
      ∃ x' : D.W, x'.state = s' ∧ D.inv x' ∧ Relation.ReflTransGen C.Moves x.ghost x'.ghost ∧
        ∀ u, (∀ i c o k, ths[i]? = some ⟨c, some (.await o k)⟩ → u ≠ n + i) → D.rely u x x' := by
  induction h with
  | nil s => exact fun hx hi _ _ => ⟨_, hx, hi, .refl, fun u _ => D.rely_refl u _⟩
  | skip _ ih =>
    intro n x hx hi hp hs
    have hsucc : ∀ i, n + 1 + i = n + (i + 1) := fun i => by omega
    obtain ⟨x', hx', hi', hm, hr⟩ := ih (n := n + 1) hx hi
      (fun i th hq => by rw [hsucc]; exact hp (i + 1) th (by simpa using hq))
      (fun i c q hq => by rw [hsucc]; exact hs (i + 1) c q (by simpa using hq))
    refine ⟨x', hx', hi', hm, fun u hu => hr u fun i c o k hk => ?_⟩
    rw [hsucc]
    exact hu (i + 1) c o k (by simpa using hk)
  | @cut c o k ths s s₁ s₂ ht _ ih =>
    intro n x hx hi hp hs
    have hsucc : ∀ i, n + 1 + i = n + (i + 1) := fun i => by omega
    have h0 := hs 0 c _ rfl x (D.rely_refl _ x) hi
    subst hx
    obtain ⟨g, hm₁, hk₁⟩ := (h0.2 x (D.rely_refl _ x) hi (hp 0 _ rfl)).2 s₁ ht
    obtain ⟨x', hx', hi', hm, hr⟩ := ih (n := n + 1) (x := ⟨s₁, g⟩) rfl hk₁.inv
      (fun i th hq => by
        rw [hsucc]
        exact D.parked_rely _ _ _ _ (hp (i + 1) th (by simpa using hq)) (hk₁.others _ (by omega)))
      (fun i c q hq => by
        rw [hsucc]
        exact (hs (i + 1) c q (by simpa using hq)).rely (hk₁.others _ (by omega)) hk₁.inv)
    refine ⟨x', hx', hi', .head (.run _ hm₁) hm, fun u hu =>
      D.rely_trans u _ _ _ (hk₁.others u ?_) (hr u fun i c o k hk => ?_)⟩
    · exact hu 0 c o k rfl
    · rw [hsucc]
      exact hu (i + 1) c o k (by simpa using hk)

/-- What a call established when it answered still holds. -/
theorem Good.answered {p : Pool S ι ρ} {x : D.W} (hg : C.Good p x) {t : Nat} {c : ι}
    {r : Except S.Err ρ} (h : p.Answered t c r) : C.post t c r x :=
  hg.calls t c _ h

/-- The process is killed: what has been answered stands, and the invariant holds of what is left. -/
theorem Good.kill {p : Pool S ι ρ} {x : D.W} (hg : C.Good p x) {s' s'' : S.State}
    (ht : Tear sys.sem p.threads p.state s') (hc : sys.sem.crash s' s'') :
    ∃ x', C.Good ⟨s'', p.threads.map Thread.kill⟩ x' ∧
      Relation.ReflTransGen C.Moves x.ghost x'.ghost := by
  obtain ⟨y, rfl, hi, hm, hr⟩ := tear_rely ht (n := 0) hg.state hg.inv
    (fun i th hq => by rw [Nat.zero_add]; exact hg.parked i th hq)
    (fun i c q hq => by rw [Nat.zero_add]; exact hg.calls i c q hq)
  obtain ⟨g, hcr, hi', hpk, hub, hpost⟩ := C.crash hi hc
  refine ⟨⟨s'', g⟩, ⟨⟨rfl, hi', fun u th hu => ?_, fun u hu => ?_⟩, fun u d q hu => ?_⟩,
    hm.tail (.crash hcr)⟩
  · rw [List.getElem?_map, Option.map_eq_some_iff] at hu
    obtain ⟨th', _, rfl⟩ := hu
    rw [Thread.phase_kill]
    exact hpk u
  · rw [List.length_map] at hu
    refine hub u (D.unborn_rely u _ _ (hg.unborn u hu) (hr u fun i c o k hk => ?_))
    have := (List.getElem?_eq_some_iff.1 hk).1
    omega
  · rw [List.getElem?_map, Option.map_eq_some_iff] at hu
    obtain ⟨⟨d', q'⟩, hu, hk⟩ := hu
    rcases q' with _ | ⟨r⟩ | ⟨f, k⟩ | ⟨o, k⟩
    case some.done =>
      simp only [Thread.kill, Thread.mk.injEq, Option.some.injEq] at hk
      obtain ⟨rfl, rfl⟩ := hk
      exact hpost u d' r (C.post_rely (hg.answered hu) (hr u fun i c o k hk => by
        rintro rfl
        rw [Nat.zero_add] at hu
        rw [hu] at hk
        cases hk) hi)
    all_goals simp [Thread.kill] at hk

theorem Good.step {p p' : Pool S ι ρ} {x : D.W} (hg : C.Good p x) (h : Step sys p p') :
    ∃ x', C.Good p' x' ∧ Relation.ReflTransGen C.Moves x.ghost x'.ghost := by
  cases h with
  | arrive hc =>
    obtain ⟨x', hg', ⟨g, hb, hm⟩, -⟩ := hg.arrive hc
    exact ⟨x', hg', .single (.arrive _ _ hb hm)⟩
  | complete hmay ht hs =>
    obtain ⟨x', hg', hm, -⟩ := hg.complete hmay ht hs
    exact ⟨x', hg', .single (.run _ hm)⟩
  | resume ht =>
    obtain ⟨x', hg', hm, -⟩ := hg.resume ht
    exact ⟨x', hg', .single (.run _ hm)⟩
  | kill ht hc => exact hg.kill ht hc

/-- A step that kills nothing is one that any call yet to arrive relies on. -/
theorem Good.step_rely {p p' : Pool S ι ρ} {x : D.W} (hg : C.Good p x) (h : Step sys p p')
    (hc : ∀ s s', ¬ sys.sem.crash s s') :
    ∃ x', C.Good p' x' ∧ ∀ u, p'.threads.length ≤ u → D.rely u x x' := by
  cases h with
  | arrive hc =>
    obtain ⟨x', hg', -, hr⟩ := hg.arrive hc
    refine ⟨x', hg', fun u hu => hr u ?_⟩
    rw [List.length_append, List.length_singleton] at hu
    omega
  | @complete t _ _ _ _ _ hmay ht hs =>
    obtain ⟨x', hg', -, hr⟩ := hg.complete hmay ht hs
    have hlt := (List.getElem?_eq_some_iff.1 ht).1
    refine ⟨x', hg', fun u hu => hr u ?_⟩
    rw [List.length_set] at hu
    omega
  | resume ht =>
    obtain ⟨x', hg', -, hr⟩ := hg.resume ht
    have hlt := (List.getElem?_eq_some_iff.1 ht).1
    refine ⟨x', hg', fun u hu => hr u ?_⟩
    rw [List.length_set] at hu
    omega
  | kill ht hk => exact (hc _ _ hk).elim

/-- **Soundness.** The discipline holds throughout every run. -/
theorem Good.steps {p p' : Pool S ι ρ} {x : D.W} (hg : C.Good p x) (h : Steps sys p p') :
    ∃ x', C.Good p' x' ∧ Relation.ReflTransGen C.Moves x.ghost x'.ghost := by
  induction h with
  | refl => exact ⟨x, hg, .refl⟩
  | tail _ hs ih =>
    obtain ⟨y, hy, hxy⟩ := ih
    obtain ⟨z, hz, hyz⟩ := hy.step hs
    exact ⟨z, hz, hxy.trans hyz⟩

end Contract

end ConfigRegistry.Async
