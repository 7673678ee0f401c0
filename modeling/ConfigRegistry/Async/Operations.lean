import ConfigRegistry.Async.Pool

/-!
# The operations of a program

What a call may come to await is read off its program.
-/

namespace ConfigRegistry.Async

namespace Prog

variable {S : Sig} {α β : Type} {φ : S.Op → Prop}

/-- Every operation that the program may come to await satisfies `φ`. -/
def Only (φ : S.Op → Prop) : Prog S α → Prop
  | done _ => True
  | turn _ k => ∀ s, (k s).Only φ
  | await o k => φ o ∧ ∀ r, (k r).Only φ

theorem only_bind {p : Prog S α} {g : α → Prog S β} (hp : p.Only φ) (hg : ∀ a, (g a).Only φ) :
    (p >>= g).Only φ := by
  induction p with
  | done r =>
    cases r with
    | ok a => exact hg a
    | error e => trivial
  | turn f k ih => exact fun s => ih s (hp s)
  | await o k ih => exact ⟨hp.1, fun r => ih r (hp.2 r)⟩

theorem only_get_bind {g : S.State → Prog S β} (hg : ∀ s, (g s).Only φ) :
    (Prog.get >>= g).Only φ := hg

theorem only_settle {p : Prog S α} (hp : p.Only φ) (s : S.State) : (p.settle s).1.Only φ := by
  induction p generalizing s with
  | done r => trivial
  | turn f k ih => exact ih s (hp s) (f s)
  | await o k => exact hp

/-- Every operation that the program may come to await satisfies `φ`, and every turn changes the state as
`ψ` allows. -/
def Within (φ : S.Op → Prop) (ψ : S.State → S.State → Prop) : Prog S α → Prop
  | done _ => True
  | turn f k => (∀ s, ψ s (f s)) ∧ ∀ s, (k s).Within φ ψ
  | await o k => φ o ∧ ∀ r, (k r).Within φ ψ

namespace Within

variable {ψ : S.State → S.State → Prop}

theorem pure (a : α) : (Pure.pure a : Prog S α).Within φ ψ := trivial

theorem fail (e : S.Err) : (Prog.fail e : Prog S α).Within φ ψ := trivial

theorem op {o : S.Op} (h : φ o) : (Prog.op o).Within φ ψ := ⟨h, fun _ => trivial⟩

theorem get_bind (hψ : ∀ s, ψ s s) {g : S.State → Prog S β} (hg : ∀ s, (g s).Within φ ψ) :
    (Prog.get >>= g).Within φ ψ := ⟨hψ, hg⟩

theorem modify {f : S.State → S.State} (hf : ∀ s, ψ s (f s)) : (Prog.modify f).Within φ ψ :=
  ⟨hf, fun _ => trivial⟩

theorem bind {p : Prog S α} {g : α → Prog S β} (hp : p.Within φ ψ) (hg : ∀ a, (g a).Within φ ψ) :
    (p >>= g).Within φ ψ := by
  induction p with
  | done r =>
    cases r with
    | ok a => exact hg a
    | error e => trivial
  | turn f k ih => exact ⟨hp.1, fun s => ih s (hp.2 s)⟩
  | await o k ih => exact ⟨hp.1, fun r => ih r (hp.2 r)⟩

theorem attempt {p : Prog S α} (hp : p.Within φ ψ) : p.attempt.Within φ ψ := by
  induction p with
  | done r => trivial
  | turn f k ih => exact ⟨hp.1, fun s => ih s (hp.2 s)⟩
  | await o k ih => exact ⟨hp.1, fun r => ih r (hp.2 r)⟩

theorem handle {p : Prog S α} {h : S.Err → Prog S α} (hp : p.Within φ ψ) (hh : ∀ e, (h e).Within φ ψ) :
    (p.handle h).Within φ ψ := by
  apply bind hp.attempt
  intro r
  cases r with
  | ok a => exact pure a
  | error e => exact hh e

theorem ensure {p : Prog S α} {q : Prog S Unit} (hp : p.Within φ ψ) (hq : q.Within φ ψ) :
    (p.ensure q).Within φ ψ :=
  bind hp.attempt fun _ => bind hq fun _ => trivial

theorem each {xs : List α} {body : α → Prog S Unit} (h : ∀ a ∈ xs, (body a).Within φ ψ) :
    (Prog.each xs body).Within φ ψ := by
  induction xs with
  | nil => trivial
  | cons a xs ih =>
    rw [List.forall_mem_cons] at h
    exact bind h.1 fun _ => ih h.2

theorem collect {xs : List α} {body : α → Prog S β} (h : ∀ a ∈ xs, (body a).Within φ ψ) :
    (Prog.collect xs body).Within φ ψ := by
  induction xs with
  | nil => trivial
  | cons a xs ih =>
    rw [List.forall_mem_cons] at h
    exact bind h.1 fun _ => bind (ih h.2) fun _ => trivial

theorem search {xs : List α} {body : α → Prog S (Option β)} (h : ∀ a ∈ xs, (body a).Within φ ψ) :
    (Prog.search xs body).Within φ ψ := by
  induction xs with
  | nil => trivial
  | cons a xs ih =>
    rw [List.forall_mem_cons] at h
    apply bind h.1
    intro b
    cases b with
    | some b => trivial
    | none => exact ih h.2

end Within

end Prog

variable {S : Sig} {ι ρ : Type} {sys : System S ι ρ} {φ : Nat → ι → S.Op → Prop}

/-- The program of every call, or the rest of one, has only operations of that call. -/
def Pool.OnlyOwn (φ : Nat → ι → S.Op → Prop) (p : Pool S ι ρ) : Prop :=
  ∀ (t : Nat) (c : ι) (q : Prog S ρ), p.threads[t]? = some ⟨c, some q⟩ → q.Only (φ t c)

theorem onlyOwn_of_steps (hbody : ∀ n c, (sys.body n c).Only (φ n c)) {p p' : Pool S ι ρ}
    (h : Steps sys p p') (hp : p.OnlyOwn φ) : p'.OnlyOwn φ := by
  induction h with
  | refl => exact hp
  | @tail p p' _ hs ih =>
    intro t c q ht
    cases hs with
    | arrive _ =>
      rcases getElem?_concat_cases ht with ⟨ht, -⟩ | ⟨rfl, hnew⟩
      · exact ih t c q ht
      · cases hnew
        exact Prog.only_settle (hbody _ _) _
    | @complete u c' o k r s' _ hu _ =>
      rw [List.getElem?_set] at ht
      split at ht
      · rename_i heq
        subst heq
        split at ht
        · cases ht
          exact (ih _ _ _ hu).2 r
        · cases ht
      · exact ih t c q ht
    | @resume u c' q' hu =>
      rw [List.getElem?_set] at ht
      split at ht
      · rename_i heq
        subst heq
        split at ht
        · cases ht
          exact Prog.only_settle (ih _ _ _ hu) _
        · cases ht
      · exact ih t c q ht
    | kill _ _ =>
      rw [List.getElem?_map, Option.map_eq_some_iff] at ht
      obtain ⟨⟨c', prog⟩, ht, hkill⟩ := ht
      rcases prog with _ | ⟨r⟩ | ⟨f, k⟩ | ⟨o, k⟩
      case some.done =>
        cases hkill
        trivial
      all_goals cases hkill

/-- In every run, what a call awaits is one of its own operations. -/
theorem awaits_of_reach (hbody : ∀ n c, (sys.body n c).Only (φ n c)) {init : S.State → Prop}
    {p : Pool S ι ρ} (h : Reach sys init p) {t : Nat} {th : Thread S ι ρ} {o : S.Op}
    (ht : p.threads[t]? = some th) (ho : th.phase = .awaiting o) : φ t th.request o := by
  obtain ⟨s, -, hrun⟩ := h
  have hawaits := Thread.awaits_of_phase ho
  rcases th with ⟨c, _ | q⟩
  · cases hawaits
  · have honly := onlyOwn_of_steps hbody hrun (fun t c q ht => by cases ht) t c q ht
    cases q with
    | await o' k =>
      cases hawaits
      exact honly.1
    | done r => cases hawaits
    | turn f k => cases hawaits

end ConfigRegistry.Async
