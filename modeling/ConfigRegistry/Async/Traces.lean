import ConfigRegistry.Async.Operations

/-!
# Traces of one call

What one call awaits from its first turn to its last, with the states the process goes through meanwhile: other
calls may change the state while an operation is in progress and until the turn that its result starts.
-/

namespace ConfigRegistry.Async

/-- An operation that was awaited, what it came to, and the states from the turn that awaits it up to the turn that
its result starts. -/
structure Visit (S : Sig) where
  op : S.Op
  result : Except S.Err (S.Res op)
  states : List S.State

/-- The states that steps of others lead through, the first and the last with them. -/
inductive Path {σ : Type} (others : σ → σ → Prop) : σ → List σ → σ → Prop where
  | here (s : σ) : Path others s [s] s
  | next {s s' t : σ} {ss : List σ} : others s s' → Path others s' ss t → Path others s (s :: ss) t

theorem Path.start_mem {σ : Type} {others : σ → σ → Prop} {s t : σ} {ss : List σ} (h : Path others s ss t) :
    s ∈ ss := by
  cases h with
  | here => exact List.mem_singleton_self _
  | next _ _ => exact List.mem_cons_self

theorem Path.last_mem {σ : Type} {others : σ → σ → Prop} {s t : σ} {ss : List σ} (h : Path others s ss t) :
    t ∈ ss := by
  induction h with
  | here => exact List.mem_singleton_self _
  | next _ _ ih => exact List.mem_cons_of_mem _ ih

theorem Path.head {σ : Type} {others : σ → σ → Prop} {s t : σ} {ss : List σ} (h : Path others s ss t) :
    ss.head? = some s := by
  cases h with
  | here => rfl
  | next _ _ => rfl

theorem Path.last {σ : Type} {others : σ → σ → Prop} {s t : σ} {ss : List σ} (h : Path others s ss t) :
    ss.getLast? = some t := by
  induction h with
  | here => rfl
  | next _ _ ih => rw [List.getLast?_cons, ih, Option.getD_some]

section

variable {S : Sig} {α β : Type} (step : (o : S.Op) → S.State → Except S.Err (S.Res o) → S.State → Prop)
  (others : S.State → S.State → Prop)

/-- The call goes from a state through these visits to its result and the last state. -/
inductive Traces {α : Type} : Prog S α → S.State → List (Visit S) → Except S.Err α → S.State → Prop where
  | done (r : Except S.Err α) (s : S.State) : Traces (.done r) s [] r s
  | turn {f : S.State → S.State} {k : S.State → Prog S α} {s t : S.State} {vs : List (Visit S)}
      {r : Except S.Err α} : Traces (k s) (f s) vs r t → Traces (.turn f k) s vs r t
  | await {o : S.Op} {k : Except S.Err (S.Res o) → Prog S α} {s a b s' t : S.State} {before after : List S.State}
      {q : Except S.Err (S.Res o)} {vs : List (Visit S)} {r : Except S.Err α} :
      Path others s before a → step o a q b → Path others b after s' → Traces (k q) s' vs r t →
      Traces (.await o k) s (⟨o, q, before ++ after⟩ :: vs) r t

/-- An operation that goes from one state to another through these. -/
def Waits (o : S.Op) (s : S.State) (q : Except S.Err (S.Res o)) (states : List S.State) (s' : S.State) : Prop :=
  ∃ a b before after, Path others s before a ∧ step o a q b ∧ Path others b after s' ∧ states = before ++ after

variable {step others} {s t : S.State} {vs : List (Visit S)}

theorem Waits.start_mem {o : S.Op} {q : Except S.Err (S.Res o)} {states : List S.State}
    (h : Waits step others o s q states t) : s ∈ states := by
  obtain ⟨a, b, before, after, hbefore, -, -, rfl⟩ := h
  exact List.mem_append_left _ hbefore.start_mem

theorem Waits.last_mem {o : S.Op} {q : Except S.Err (S.Res o)} {states : List S.State}
    (h : Waits step others o s q states t) : t ∈ states := by
  obtain ⟨a, b, before, after, -, -, hafter, rfl⟩ := h
  exact List.mem_append_right _ hafter.last_mem

theorem Waits.head {o : S.Op} {q : Except S.Err (S.Res o)} {states : List S.State}
    (h : Waits step others o s q states t) : states.head? = some s := by
  obtain ⟨a, b, before, after, hbefore, -, -, rfl⟩ := h
  rw [List.head?_append, hbefore.head]
  rfl

theorem Waits.last {o : S.Op} {q : Except S.Err (S.Res o)} {states : List S.State}
    (h : Waits step others o s q states t) : states.getLast? = some t := by
  obtain ⟨a, b, before, after, -, -, hafter, rfl⟩ := h
  rw [List.getLast?_append, hafter.last]
  rfl

theorem traces_done {r r' : Except S.Err α} :
    Traces step others (.done r) s vs r' t ↔ vs = [] ∧ r' = r ∧ t = s := by
  constructor
  · rintro ⟨⟩
    exact ⟨rfl, rfl, rfl⟩
  · rintro ⟨rfl, rfl, rfl⟩
    exact .done r' t

theorem traces_pure {a : α} {r : Except S.Err α} :
    Traces step others (pure a) s vs r t ↔ vs = [] ∧ r = .ok a ∧ t = s := traces_done

theorem traces_turn {f : S.State → S.State} {k : S.State → Prog S α} {r : Except S.Err α} :
    Traces step others (.turn f k) s vs r t ↔ Traces step others (k s) (f s) vs r t := by
  constructor
  · rintro ⟨⟩
    assumption
  · exact .turn

theorem traces_await {o : S.Op} {k : Except S.Err (S.Res o) → Prog S α} {r : Except S.Err α} :
    Traces step others (.await o k) s vs r t ↔ ∃ q states s' rest, Waits step others o s q states s' ∧
      Traces step others (k q) s' rest r t ∧ vs = ⟨o, q, states⟩ :: rest := by
  constructor
  · intro h
    cases h with
    | await hbefore hstep hafter hrest => exact ⟨_, _, _, _, ⟨_, _, _, _, hbefore, hstep, hafter, rfl⟩, hrest, rfl⟩
  · rintro ⟨q, states, s', rest, ⟨a, b, before, after, hbefore, hstep, hafter, rfl⟩, hrest, rfl⟩
    exact .await hbefore hstep hafter hrest

theorem traces_get_bind {g : S.State → Prog S β} {r : Except S.Err β} :
    Traces step others (Prog.get >>= g) s vs r t ↔ Traces step others (g s) s vs r t := traces_turn

theorem traces_modify_bind {f : S.State → S.State} {g : Unit → Prog S β} {r : Except S.Err β} :
    Traces step others (Prog.modify f >>= g) s vs r t ↔ Traces step others (g ()) (f s) vs r t := traces_turn

theorem traces_modify {f : S.State → S.State} {r : Except S.Err Unit} :
    Traces step others (Prog.modify f) s vs r t ↔ vs = [] ∧ r = .ok () ∧ t = f s := by
  unfold Prog.modify
  rw [traces_turn, traces_pure]

theorem traces_op {o : S.Op} {r : Except S.Err (S.Res o)} :
    Traces step others (Prog.op o) s vs r t ↔ ∃ states, Waits step others o s r states t ∧ vs = [⟨o, r, states⟩] := by
  unfold Prog.op
  rw [traces_await]
  constructor
  · rintro ⟨q, states, s', rest, hwaits, hrest, rfl⟩
    obtain ⟨rfl, rfl, rfl⟩ := traces_done.1 hrest
    exact ⟨states, hwaits, rfl⟩
  · rintro ⟨states, hwaits, rfl⟩
    exact ⟨r, states, t, [], hwaits, .done r t, rfl⟩

/-- The visits of a program that goes on with another are those of both. -/
theorem traces_bind {p : Prog S α} {g : α → Prog S β} {r : Except S.Err β} :
    Traces step others (p >>= g) s vs r t ↔
      (∃ a vs₁ s' vs₂, Traces step others p s vs₁ (.ok a) s' ∧ Traces step others (g a) s' vs₂ r t ∧
        vs = vs₁ ++ vs₂) ∨
      ∃ e, r = .error e ∧ Traces step others p s vs (.error e) t := by
  induction p generalizing s vs with
  | done q =>
    cases q with
    | error e =>
      constructor
      · intro h
        obtain ⟨rfl, rfl, rfl⟩ := traces_done.1 h
        exact .inr ⟨e, rfl, .done _ _⟩
      · rintro (⟨a, vs₁, s', vs₂, hp, -⟩ | ⟨e', rfl, hp⟩)
        · obtain ⟨-, hcontra, -⟩ := traces_done.1 hp
          cases hcontra
        · obtain ⟨rfl, he, rfl⟩ := traces_done.1 hp
          cases he
          exact .done _ _
    | ok a =>
      constructor
      · intro h
        exact .inl ⟨a, [], s, vs, .done _ _, h, rfl⟩
      · rintro (⟨a', vs₁, s', vs₂, hp, hg, rfl⟩ | ⟨e', rfl, hp⟩)
        · obtain ⟨rfl, ha, rfl⟩ := traces_done.1 hp
          cases ha
          exact hg
        · obtain ⟨-, hcontra, -⟩ := traces_done.1 hp
          cases hcontra
  | turn f k ih =>
    show Traces step others (.turn f fun s => k s >>= g) s vs r t ↔ _
    simp only [traces_turn, ih]
  | await o k ih =>
    show Traces step others (.await o fun q => k q >>= g) s vs r t ↔ _
    simp only [traces_await, ih]
    constructor
    · rintro ⟨q, states, s', rest, hwaits, hrest, rfl⟩
      rcases hrest with ⟨a, vs₁, s'', vs₂, hp, hg, rfl⟩ | ⟨e, rfl, hp⟩
      · exact .inl ⟨a, _, s'', vs₂, ⟨q, states, s', vs₁, hwaits, hp, rfl⟩, hg, rfl⟩
      · exact .inr ⟨e, rfl, q, states, s', rest, hwaits, hp, rfl⟩
    · rintro (⟨a, _, s'', vs₂, ⟨q, states, s', vs₁, hwaits, hp, rfl⟩, hg, rfl⟩ | ⟨e, rfl, q, states, s', rest, hwaits, hp, rfl⟩)
      · exact ⟨q, states, s', _, hwaits, .inl ⟨a, vs₁, s'', vs₂, hp, hg, rfl⟩, rfl⟩
      · exact ⟨q, states, s', rest, hwaits, .inr ⟨e, rfl, hp⟩, rfl⟩

theorem traces_attempt {p : Prog S α} {r : Except S.Err (Except S.Err α)} :
    Traces step others p.attempt s vs r t ↔ ∃ q, r = .ok q ∧ Traces step others p s vs q t := by
  induction p generalizing s vs with
  | done q =>
    show Traces step others (.done (.ok q)) s vs r t ↔ _
    simp only [traces_done]
    constructor
    · rintro ⟨rfl, rfl, rfl⟩
      exact ⟨q, rfl, rfl, rfl, rfl⟩
    · rintro ⟨q', rfl, rfl, rfl, rfl⟩
      exact ⟨rfl, rfl, rfl⟩
  | turn f k ih =>
    show Traces step others (.turn f fun s => (k s).attempt) s vs r t ↔ _
    simp only [traces_turn, ih]
  | await o k ih =>
    show Traces step others (.await o fun q => (k q).attempt) s vs r t ↔ _
    simp only [traces_await, ih]
    constructor
    · rintro ⟨q, states, s', rest, hwaits, ⟨q', rfl, hrest⟩, rfl⟩
      exact ⟨q', rfl, q, states, s', rest, hwaits, hrest, rfl⟩
    · rintro ⟨q', rfl, q, states, s', rest, hwaits, hrest, rfl⟩
      exact ⟨q, states, s', rest, hwaits, ⟨q', rfl, hrest⟩, rfl⟩

/-- What follows a program whose end is looked at. -/
theorem traces_attempt_bind {p : Prog S α} {g : Except S.Err α → Prog S β} {r : Except S.Err β} :
    Traces step others (p.attempt >>= g) s vs r t ↔ ∃ q vs₁ s' vs₂, Traces step others p s vs₁ q s' ∧
      Traces step others (g q) s' vs₂ r t ∧ vs = vs₁ ++ vs₂ := by
  rw [traces_bind]
  constructor
  · rintro (⟨q, vs₁, s', vs₂, hp, hg, rfl⟩ | ⟨e, -, hp⟩)
    · obtain ⟨q', hq, hp⟩ := traces_attempt.1 hp
      obtain rfl := Except.ok.inj hq
      exact ⟨q, vs₁, s', vs₂, hp, hg, rfl⟩
    · obtain ⟨q', hq, -⟩ := traces_attempt.1 hp
      cases hq
  · rintro ⟨q, vs₁, s', vs₂, hp, hg, rfl⟩
    exact .inl ⟨q, vs₁, s', vs₂, traces_attempt.2 ⟨q, rfl, hp⟩, hg, rfl⟩

theorem traces_handle {p : Prog S α} {h : S.Err → Prog S α} {r : Except S.Err α} :
    Traces step others (p.handle h) s vs r t ↔ (∃ a, r = .ok a ∧ Traces step others p s vs (.ok a) t) ∨
      ∃ e vs₁ s' vs₂, Traces step others p s vs₁ (.error e) s' ∧ Traces step others (h e) s' vs₂ r t ∧
        vs = vs₁ ++ vs₂ := by
  unfold Prog.handle
  rw [traces_attempt_bind]
  constructor
  · rintro ⟨q, vs₁, s', vs₂, hp, hg, rfl⟩
    cases q with
    | ok a =>
      obtain ⟨rfl, rfl, rfl⟩ := traces_pure.1 hg
      rw [List.append_nil]
      exact .inl ⟨a, rfl, hp⟩
    | error e => exact .inr ⟨e, vs₁, s', vs₂, hp, hg, rfl⟩
  · rintro (⟨a, rfl, hp⟩ | ⟨e, vs₁, s', vs₂, hp, hg, rfl⟩)
    · exact ⟨.ok a, vs, t, [], hp, .done _ _, (List.append_nil _).symm⟩
    · exact ⟨.error e, vs₁, s', vs₂, hp, hg, rfl⟩

/-- What a program awaits are operations it is said to await. -/
theorem Traces.ops {φ : S.Op → Prop} {ψ : S.State → S.State → Prop} {p : Prog S α} {r : Except S.Err α}
    (h : Traces step others p s vs r t) (hp : p.Within φ ψ) : ∀ v ∈ vs, φ v.op := by
  induction h with
  | done r s => simp
  | turn _ ih => exact ih (hp.2 _)
  | await _ _ _ _ ih => exact List.forall_mem_cons.2 ⟨hp.1, ih (hp.2 _)⟩

/-- What no turn of a program changes stays as it was where it does not change during any operation. -/
theorem Traces.steady {γ : Type} {φ : S.Op → Prop} {f : S.State → γ} {p : Prog S α} {r : Except S.Err α}
    (h : Traces step others p s vs r t) (hp : p.Within φ fun s s' => f s' = f s)
    (hvs : ∀ v ∈ vs, ∀ a ∈ v.states, ∀ b ∈ v.states, f a = f b) :
    (∀ v ∈ vs, ∀ a ∈ v.states, f a = f s) ∧ f t = f s := by
  induction h with
  | done r s => simp
  | turn _ ih =>
    rename_i f' k s t vs r hrest
    obtain ⟨hall, hlast⟩ := ih (hp.2 _) hvs
    have hturn : f (f' s) = f s := hp.1 s
    rw [hturn] at hlast
    refine ⟨?_, hlast⟩
    intro v hv a ha
    rw [hall v hv a ha, hturn]
  | await hbefore hstep hafter hrest ih =>
    obtain ⟨hfirst, hvs⟩ := List.forall_mem_cons.1 hvs
    rename_i o k s a b s' t before after q vs r hvisits
    have hstart : s ∈ before ++ after := List.mem_append_left _ hbefore.start_mem
    have hend : s' ∈ before ++ after := List.mem_append_right _ hafter.last_mem
    have hsame := hfirst _ hend _ hstart
    obtain ⟨hall, hlast⟩ := ih (hp.2 _) hvs
    rw [hsame] at hlast
    refine ⟨?_, hlast⟩
    rw [List.forall_mem_cons]
    constructor
    · intro a ha
      exact hfirst a ha _ hstart
    · intro v hv a ha
      rw [hall v hv a ha, hsame]

theorem Path.keeps {σ γ : Type} {others : σ → σ → Prop} {f : σ → γ} (hothers : ∀ s s', others s s' → f s' = f s)
    {s t : σ} {ss : List σ} (h : Path others s ss t) : f t = f s := by
  induction h with
  | here => rfl
  | next hs _ ih => rw [ih, hothers _ _ hs]

/-- What neither the turns of a program nor its operations nor others change is at the end as it was. -/
theorem Traces.keeps {γ : Type} {φ : S.Op → Prop} {f : S.State → γ} {p : Prog S α} {r : Except S.Err α}
    (h : Traces step others p s vs r t) (hp : p.Within φ fun s s' => f s' = f s)
    (hstep : ∀ o s q s', step o s q s' → f s' = f s) (hothers : ∀ s s', others s s' → f s' = f s) : f t = f s := by
  induction h with
  | done r s => rfl
  | turn _ ih => rw [ih (hp.2 _), hp.1]
  | await hbefore hs hafter _ ih => rw [ih (hp.2 _), hafter.keeps hothers, hstep _ _ _ _ hs, hbefore.keeps hothers]

theorem Waits.keeps {γ : Type} {f : S.State → γ} {o : S.Op} {q : Except S.Err (S.Res o)} {states : List S.State}
    (h : Waits step others o s q states t) (hstep : ∀ o s q s', step o s q s' → f s' = f s)
    (hothers : ∀ s s', others s s' → f s' = f s) : f t = f s := by
  obtain ⟨a, b, before, after, hbefore, hs, hafter, -⟩ := h
  rw [hafter.keeps hothers, hstep _ _ _ _ hs, hbefore.keeps hothers]

end

end ConfigRegistry.Async
