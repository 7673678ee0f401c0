import ConfigRegistry.Async.Pool

/-!
# Calls that do not overlap

A process whose calls arrive only while no other is running goes from one call to the next, and what each call keeps
from its start to its end holds along the run, kills included.
-/

namespace ConfigRegistry.Async

variable {S : Sig} {ι ρ : Type}

theorem ended_cases {th : Thread S ι ρ} (h : th.ended = true) :
    th.prog = none ∨ ∃ r, th.prog = some (.done r) := by
  rcases th with ⟨c, _ | ⟨r⟩ | ⟨f, k⟩ | ⟨o, k⟩⟩
  · exact .inl rfl
  · exact .inr ⟨r, rfl⟩
  · cases h
  · cases h

theorem kill_of_ended {th : Thread S ι ρ} (h : th.ended = true) : th.kill = th := by
  rcases th with ⟨c, _ | ⟨r⟩ | ⟨f, k⟩ | ⟨o, k⟩⟩
  · rfl
  · rfl
  · cases h
  · cases h

theorem map_kill_of_ended {ths : List (Thread S ι ρ)} (h : ths.all Thread.ended = true) :
    ths.map Thread.kill = ths := by
  rw [List.map_congr_left (g := id), List.map_id]
  intro th hth
  exact kill_of_ended (List.all_eq_true.1 h th hth)

theorem tear_of_ended {sem : Sem S} {ths : List (Thread S ι ρ)} {s s' : S.State}
    (h : ths.all Thread.ended = true) (ht : Tear sem ths s s') : s' = s := by
  induction ht with
  | nil s => rfl
  | skip _ ih =>
    rw [List.all_cons, Bool.and_eq_true] at h
    exact ih h.2
  | cut _ _ _ =>
    rw [List.all_cons, Bool.and_eq_true] at h
    cases h.1

/-- Of calls that have ended and one more, only that one is cut short. -/
theorem tear_concat {sem : Sem S} {ths : List (Thread S ι ρ)} {c : ι} {q : Prog S ρ} {s s' : S.State}
    (h : ths.all Thread.ended = true) (ht : Tear sem (ths ++ [⟨c, some q⟩]) s s') :
    s' = s ∨ ∃ o, q.awaits = some o ∧ sem.torn o s s' := by
  induction ths generalizing s with
  | nil =>
    cases ht with
    | skip hrest =>
      cases hrest
      exact .inl rfl
    | cut htorn hrest =>
      cases hrest
      exact .inr ⟨_, rfl, htorn⟩
  | cons th ths ih =>
    rw [List.all_cons, Bool.and_eq_true] at h
    cases ht with
    | skip hrest => exact ih h.2 hrest
    | cut _ _ => cases h.1

/-- What holds between the calls, and from the start of a call to its end. -/
structure Serial (sys : System S ι ρ) where
  rest : List (Thread S ι ρ) → S.State → Prop
  busy : List (Thread S ι ρ) → ι → Prog S ρ → S.State → Prop
  quiet : ∀ p c, sys.mayArrive p c → p.Quiet
  arrive : ∀ ths c s, rest ths s →
    busy ths c ((sys.body ths.length c).settle s).1 ((sys.body ths.length c).settle s).2
  settle : ∀ ths c q s, busy ths c q s → busy ths c (q.settle s).1 (q.settle s).2
  complete : ∀ ths c o k s r s', busy ths c (.await o k) s → sys.sem.step o s r s' → busy ths c (k r) s'
  done : ∀ ths c r s, busy ths c (.done r) s → rest (ths ++ [⟨c, some (.done r)⟩]) s
  crash : ∀ ths s s', rest ths s → sys.sem.crash s s' → rest ths s'
  kill : ∀ ths c q s s' s'', busy ths c q s → s' = s ∨ (∃ o, q.awaits = some o ∧ sys.sem.torn o s s') →
    sys.sem.crash s' s'' → rest (ths ++ [⟨c, none⟩]) s''

namespace Serial

variable {sys : System S ι ρ} (I : Serial sys)

/-- No call is running, or the last one is. -/
inductive Stands (p : Pool S ι ρ) : Prop where
  | resting (hquiet : p.threads.all Thread.ended = true) (h : I.rest p.threads p.state)
  | running (ths : List (Thread S ι ρ)) (c : ι) (q : Prog S ρ) (hthreads : p.threads = ths ++ [⟨c, some q⟩])
      (hended : ths.all Thread.ended = true) (h : I.busy ths c q p.state)

variable {I} {p p' : Pool S ι ρ}

/-- While no call is running, what holds between the calls holds. -/
theorem Stands.rest (h : I.Stands p) (hquiet : p.Quiet) : I.rest p.threads p.state := by
  cases h with
  | resting _ h => exact h
  | running ths c q hthreads hended h =>
    have hlast : (⟨c, some q⟩ : Thread S ι ρ).ended = true := by
      refine List.all_eq_true.1 hquiet _ ?_
      rw [hthreads]
      exact List.mem_concat_self
    rcases ended_cases hlast with hnone | ⟨r, hr⟩
    · cases hnone
    · obtain rfl := Option.some.inj hr
      rw [hthreads]
      exact I.done ths c r p.state h

theorem last_of_running {ths : List (Thread S ι ρ)} {c c' : ι} {q q' : Prog S ρ} {t : Nat}
    (hended : ths.all Thread.ended = true) (ht : (ths ++ [⟨c, some q⟩])[t]? = some ⟨c', some q'⟩) :
    (∃ r, q' = .done r) ∨ t = ths.length ∧ c' = c ∧ q' = q := by
  rcases getElem?_concat_cases ht with ⟨ht, -⟩ | ⟨rfl, hth⟩
  · rcases ended_cases (List.all_eq_true.1 hended _ (List.mem_of_getElem? ht)) with hnone | ⟨r, hr⟩
    · cases hnone
    · exact .inl ⟨r, Option.some.inj hr⟩
  · cases hth
    exact .inr ⟨rfl, rfl, rfl⟩

theorem set_getElem_same {l : List (Thread S ι ρ)} {t : Nat} {th : Thread S ι ρ} (h : l[t]? = some th) :
    l.set t th = l := by
  obtain ⟨hlt, rfl⟩ := List.getElem?_eq_some_iff.1 h
  exact List.set_getElem_self hlt

/-- One step of the process. -/
theorem Stands.step (h : I.Stands p) (hs : Step sys p p') : I.Stands p' := by
  cases hs with
  | arrive hmay =>
    rename_i c
    have hquiet := I.quiet p c hmay
    exact .running p.threads c _ rfl hquiet (I.arrive _ c _ (h.rest hquiet))
  | complete hmay ht hstep =>
    rename_i t c o k r s'
    cases h with
    | resting hquiet _ =>
      have hend := List.all_eq_true.1 hquiet _ (List.mem_of_getElem? ht)
      cases hend
    | running ths c' q hthreads hended h =>
      rw [hthreads] at ht
      rcases last_of_running hended ht with ⟨r', hr'⟩ | ⟨rfl, rfl, rfl⟩
      · cases hr'
      · refine .running ths c (k r) ?_ hended (I.complete _ _ _ _ _ _ _ h hstep)
        show p.threads.set ths.length _ = _
        rw [hthreads, List.set_append_right _ _ (Nat.le_refl _), Nat.sub_self, List.set_cons_zero]
  | resume ht =>
    rename_i t c q'
    have hsame : ∀ r, q' = .done r → I.Stands ⟨(q'.settle p.state).2, p.threads.set t ⟨c, some (q'.settle p.state).1⟩⟩ := by
      rintro r rfl
      show I.Stands ⟨p.state, p.threads.set t ⟨c, some (.done r)⟩⟩
      rw [set_getElem_same ht]
      exact h
    cases h with
    | resting hquiet _ =>
      rcases ended_cases (List.all_eq_true.1 hquiet _ (List.mem_of_getElem? ht)) with hnone | ⟨r, hr⟩
      · cases hnone
      · exact hsame r (Option.some.inj hr)
    | running ths c' q hthreads hended h =>
      rw [hthreads] at ht
      rcases last_of_running hended ht with ⟨r, hr⟩ | ⟨rfl, rfl, rfl⟩
      · exact hsame r hr
      · refine .running ths c _ ?_ hended (I.settle ths c q' p.state h)
        show p.threads.set ths.length _ = _
        rw [hthreads, List.set_append_right _ _ (Nat.le_refl _), Nat.sub_self, List.set_cons_zero]
  | kill htear hcrash =>
    rename_i s' s''
    cases h with
    | resting hquiet h =>
      obtain rfl := tear_of_ended hquiet htear
      refine .resting ?_ ?_
      · show (p.threads.map Thread.kill).all Thread.ended = true
        rwa [map_kill_of_ended hquiet]
      · show I.rest (p.threads.map Thread.kill) s''
        rw [map_kill_of_ended hquiet]
        exact I.crash _ _ _ h hcrash
    | running ths c q hthreads hended h =>
      rw [hthreads] at htear
      have hthreads' : p.threads.map Thread.kill = ths ++ [(⟨c, some q⟩ : Thread S ι ρ).kill] := by
        rw [hthreads, List.map_append, map_kill_of_ended hended]
        rfl
      have hall : (p.threads.map Thread.kill).all Thread.ended = true := by
        rw [hthreads', List.all_append, hended]
        cases q <;> rfl
      refine .resting hall ?_
      show I.rest (p.threads.map Thread.kill) s''
      rw [hthreads']
      have htorn := tear_concat hended htear
      cases q with
      | done r =>
        rcases htorn with rfl | ⟨o, ho, -⟩
        · exact I.crash _ _ _ (I.done ths c r _ h) hcrash
        · cases ho
      | turn f k => exact I.kill ths c _ _ _ _ h htorn hcrash
      | await o k => exact I.kill ths c _ _ _ _ h htorn hcrash

/-- Every run of the process. -/
theorem stands_of_reach {init : S.State → Prop} (hinit : ∀ s, init s → I.rest [] s) (h : Reach sys init p) :
    I.Stands p := by
  obtain ⟨s, hs, hsteps⟩ := h
  induction hsteps with
  | refl => exact .resting rfl (hinit s hs)
  | tail _ hstep ih => exact ih.step hstep

end Serial

end ConfigRegistry.Async
