import ConfigRegistry.Async.Pool

/-!
# Driving a process along a schedule

`drive` runs a pool along a list of events with an executable version of the operations. Its
result is reached by real steps (`drive_steps`), so a concrete run of a modelled system is checked
by evaluation.
-/

namespace ConfigRegistry.Async

/-- One scheduled event: a call arrives, the operation call `t` awaits completes (`χ` chooses
among its possible outcomes) and the call runs its next turn, or the process is killed, between
operations or in the one that call `t` awaits (`χ` chooses what is left of it). -/
inductive Event (ι χ : Type) where
  | arrive (c : ι)
  | run (t : Nat) (choice : χ)
  | kill
  | killIn (t : Nat) (choice : χ)

/-- An executable version of the operations; `none` where the chosen outcome is not possible. -/
structure Driver (S : Sig) (ι ρ χ : Type) where
  body : Nat → ι → Prog S ρ
  allow : Pool S ι ρ → Nat → Bool := fun _ _ => true
  allowArrive : Pool S ι ρ → ι → Bool := fun _ _ => true
  perform : χ → (o : S.Op) → S.State → Option (Except S.Err (S.Res o) × S.State)
  cut : χ → S.Op → S.State → Option S.State := fun _ _ _ => none
  crash : S.State → Option S.State := fun _ => none

/-- The driver follows the process. -/
structure Driver.Follows {S : Sig} {ι ρ χ : Type} (d : Driver S ι ρ χ) (sys : System S ι ρ) :
    Prop where
  body : d.body = sys.body
  allow : ∀ p t, d.allow p t = true → sys.may p t
  allowArrive : ∀ p c, d.allowArrive p c = true → sys.mayArrive p c
  step : ∀ c o s r s', d.perform c o s = some (r, s') → sys.sem.step o s r s'
  cut : ∀ c o s s', d.cut c o s = some s' → sys.sem.torn o s s'
  crash : ∀ s s', d.crash s = some s' → sys.sem.crash s s'

section

variable {S : Sig} {ι ρ χ : Type} (d : Driver S ι ρ χ)

/-- A call suspended at an operation, with the operation's chosen outcome. -/
def Driver.resume (c : χ) (s : S.State) : Prog S ρ → Option (Prog S ρ × S.State)
  | .await o k => (d.perform c o s).map fun (r, s') => (k r).settle s'
  | _ => none

/-- The pool after one event; an impossible event changes nothing. -/
def Driver.next (p : Pool S ι ρ) : Event ι χ → Pool S ι ρ
  | .arrive c =>
    if d.allowArrive p c then
      let (q, s) := (d.body p.threads.length c).settle p.state
      ⟨s, p.threads ++ [⟨c, some q⟩]⟩
    else p
  | .run t choice =>
    match p.threads[t]? with
    | some ⟨c, some q⟩ =>
      match d.allow p t, d.resume choice p.state q with
      | true, some (q', s') => ⟨s', p.threads.set t ⟨c, some q'⟩⟩
      | _, _ => p
    | _ => p
  | .kill =>
    match d.crash p.state with
    | some s => ⟨s, p.threads.map Thread.kill⟩
    | none => p
  | .killIn t choice =>
    match ((p.threads[t]?.bind Thread.awaits).bind fun o => d.cut choice o p.state).bind d.crash with
    | some s => ⟨s, p.threads.map Thread.kill⟩
    | none => p

/-- The pool after a schedule. -/
def Driver.drive (p : Pool S ι ρ) (es : List (Event ι χ)) : Pool S ι ρ := es.foldl d.next p

variable {d} {sys : System S ι ρ}

theorem tear_untouched (sem : Sem S) (ths : List (Thread S ι ρ)) (s : S.State) :
    Tear sem ths s s := by
  induction ths with
  | nil => exact .nil s
  | cons th ths ih => exact .skip ih

/-- One operation is cut short, the others are not. -/
theorem tear_one (sem : Sem S) {ths : List (Thread S ι ρ)} {t : Nat} {th : Thread S ι ρ} {o : S.Op}
    {s s' : S.State} (ht : ths[t]? = some th) (ho : th.awaits = some o) (hs : sem.torn o s s') :
    Tear sem ths s s' := by
  induction ths generalizing t with
  | nil => cases ht
  | cons th₀ ths ih =>
    cases t with
    | succ t => exact .skip (ih ht)
    | zero =>
      cases ht
      rcases th with ⟨c, _ | ⟨r⟩ | ⟨f, k⟩ | ⟨o', k⟩⟩
      case some.await =>
        cases ho
        exact .cut hs (tear_untouched _ _ _)
      all_goals cases ho

theorem Driver.next_steps (h : d.Follows sys) (p : Pool S ι ρ) (e : Event ι χ) :
    Steps sys p (d.next p e) := by
  cases e with
  | arrive c =>
    simp only [Driver.next]
    split
    case isTrue ha =>
      have hs : Step sys p _ := .arrive (h.allowArrive p c ha)
      rw [← h.body] at hs
      exact .single hs
    case isFalse => exact .refl
  | kill =>
    simp only [Driver.next]
    split
    case h_1 s hs => exact .single (.kill (tear_untouched _ _ _) (h.crash _ _ hs))
    case h_2 => exact .refl
  | killIn t choice =>
    simp only [Driver.next]
    split
    case h_1 s hs =>
      obtain ⟨s', hs', hc⟩ := Option.bind_eq_some_iff.1 hs
      obtain ⟨o, ho, hcut⟩ := Option.bind_eq_some_iff.1 hs'
      obtain ⟨th, ht, ho⟩ := Option.bind_eq_some_iff.1 ho
      exact .single (.kill (tear_one _ ht ho (h.cut _ _ _ _ hcut)) (h.crash _ _ hc))
    case h_2 => exact .refl
  | run t choice =>
    simp only [Driver.next]
    split
    case h_2 => exact .refl
    case h_1 c q ht =>
      split
      case h_2 => exact .refl
      case h_1 q' s' ha hq =>
        cases q with
        | done r => simp [Driver.resume] at hq
        | turn f k => simp [Driver.resume] at hq
        | await o k =>
          simp only [Driver.resume, Option.map_eq_some_iff] at hq
          obtain ⟨⟨r, s₁⟩, hr, hq⟩ := hq
          have hs := Step.complete (h.allow p t ha) ht (h.step choice o p.state r s₁ hr)
          have hlt : t < p.threads.length := (List.getElem?_eq_some_iff.1 ht).1
          have hs' : Step sys ⟨s₁, p.threads.set t ⟨c, some (k r)⟩⟩ _ :=
            .resume (List.getElem?_set_self hlt)
          simp only at hq
          rw [hq, List.set_set] at hs'
          exact .head hs (.single hs')

/-- A driven schedule is a run. -/
theorem Driver.drive_steps (h : d.Follows sys) (p : Pool S ι ρ) (es : List (Event ι χ)) :
    Steps sys p (d.drive p es) := by
  induction es generalizing p with
  | nil => exact .refl
  | cons e es ih => exact (Driver.next_steps h p e).trans (ih _)

theorem Driver.drive_reach (h : d.Follows sys) {init : S.State → Prop} {s : S.State} (hs : init s)
    (es : List (Event ι χ)) : Reach sys init (d.drive ⟨s, []⟩ es) :=
  ⟨s, hs, Driver.drive_steps h _ es⟩

end

end ConfigRegistry.Async
