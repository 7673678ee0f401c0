import ConfigRegistry.Async.Accord

/-!
# What a lock guards

An accord with more to rely on: what a lock guards is changed by no other call while a call holds it. And the
moments of a run: a process every step of which leads to one of the states that a run goes through, so that
what a call finds can be said of one of them.
-/

namespace ConfigRegistry.Async

namespace Accord

variable {S : Sig} {κ : Type} {γ : κ → Type}

/-- The accord with an invariant more, and something that lasts once it is so. -/
def also (A : Accord S) (inv : S.State → Prop) (lasts : S.State → S.State → Prop) (hrefl : ∀ s, lasts s s)
    (htrans : ∀ s s' s'', lasts s s' → lasts s' s'' → lasts s s'') : Accord S where
  inv s := A.inv s ∧ inv s
  rely t s s' := A.rely t s s' ∧ lasts s s'
  fresh := A.fresh
  waits := A.waits
  rely_refl t s := ⟨A.rely_refl t s, hrefl s⟩
  rely_trans t s s' s'' h h' := ⟨A.rely_trans t s s' s'' h.1 h'.1, htrans s s' s'' h.2 h'.2⟩
  fresh_rely t s s' hs h := A.fresh_rely t s s' hs h.1
  waits_rely t o s s' hs h := A.waits_rely t o s s' hs h.1

/-- The accord in which the part that a lock guards is changed by no other call while a call holds it. -/
def guarding (A : Accord S) (holds : κ → Nat → S.State → Prop) (part : (k : κ) → S.State → γ k)
    (hholds : ∀ k t s s', holds k t s → A.rely t s s' → holds k t s') : Accord S where
  inv := A.inv
  rely t s s' := A.rely t s s' ∧ ∀ k, holds k t s → part k s' = part k s
  fresh := A.fresh
  waits := A.waits
  rely_refl t s := ⟨A.rely_refl t s, fun _ _ => rfl⟩
  rely_trans t s s' s'' h h' := by
    refine ⟨A.rely_trans t s s' s'' h.1 h'.1, fun k hs => ?_⟩
    rw [h'.2 k (hholds k t s s' hs h.1), h.2 k hs]
  fresh_rely t s s' hs h := A.fresh_rely t s s' hs h.1
  waits_rely t o s s' hs h := A.waits_rely t o s s' hs h.1

variable {A : Accord S} {t : Nat} {s s' : S.State}

theorem keeps_also {inv : S.State → Prop} {lasts : S.State → S.State → Prop} {hrefl : ∀ s, lasts s s}
    {htrans : ∀ s s' s'', lasts s s' → lasts s' s'' → lasts s s''} (h : A.Keeps t s s') (hinv : inv s')
    (hlasts : lasts s s') : (A.also inv lasts hrefl htrans).Keeps t s s' :=
  ⟨⟨h.inv, hinv⟩, fun u hu => ⟨h.others u hu, hlasts⟩⟩

variable {holds : κ → Nat → S.State → Prop} {part : (k : κ) → S.State → γ k}
  {hholds : ∀ k t s s', holds k t s → A.rely t s s' → holds k t s'}

/-- A change that leaves what the others hold. -/
theorem keeps_guarding (h : A.Keeps t s s')
    (hparts : ∀ k u, u ≠ t → holds k u s → part k s' = part k s) : (A.guarding holds part hholds).Keeps t s s' :=
  ⟨h.inv, fun u hu => ⟨h.others u hu, fun k hk => hparts k u hu hk⟩⟩

end Accord

/-! ### Steps of a run -/

section

variable {S : Sig} {ι ρ : Type} {sys : System S ι ρ} {A : Accord S}
  {post : Nat → ι → Except S.Err ρ → S.State → Prop} {init : S.State → Prop}

/-- A step that kills nothing is taken by one call, and all others rely on it. -/
theorem Accord.step_others (hpost : ∀ t c r, A.Stable t (post t c r))
    (hserve : ∀ (p : Pool S ι ρ) (c : ι), sys.mayArrive p c →
      A.Runs sys.sem p.threads.length (fun s => A.fresh p.threads.length s ∧ s = p.state)
        (sys.body p.threads.length c) (post p.threads.length c))
    (hinit : ∀ s, init s → A.inv s ∧ ∀ t, A.fresh t s) (hkill : A.Survives sys post) {p p' : Pool S ι ρ}
    (h : Reach sys init p) (hs : Step sys p p') :
    p'.threads = p.threads.map Thread.kill ∨
      ∃ u, (∀ t, t ≠ u → A.rely t p.state p'.state) ∧ ∀ t, t ≠ u → p'.threads[t]? = p.threads[t]? := by
  have hgood := Accord.good_of_reach hpost hserve hinit hkill h
  cases hs with
  | arrive hc =>
    obtain ⟨x, hx, -, hrely⟩ := hgood.arrive hc
    refine .inr ⟨p.threads.length, fun t ht => ?_, fun t ht => ?_⟩
    · have hone := hrely t ht
      have hstate := hx.state
      rw [← hstate]
      exact hone
    · by_cases hlt : t < p.threads.length
      · exact List.getElem?_append_left hlt
      · rw [List.getElem?_eq_none (by rw [List.length_append, List.length_singleton]; omega),
        List.getElem?_eq_none (by omega)]
  | @complete u c o k r s' hmay hu hstep =>
    obtain ⟨x, hx, -, hrely⟩ := hgood.complete hmay hu hstep
    refine .inr ⟨u, fun t ht => ?_, fun t ht => List.getElem?_set_ne (Ne.symm ht)⟩
    have hone := hrely t ht
    have hstate := hx.state
    rw [← hstate]
    exact hone
  | @resume u c q hu =>
    obtain ⟨x, hx, -, hrely⟩ := hgood.resume hu
    refine .inr ⟨u, fun t ht => ?_, fun t ht => List.getElem?_set_ne (Ne.symm ht)⟩
    have hone := hrely t ht
    have hstate := hx.state
    rw [← hstate]
    exact hone
  | kill _ _ => exact .inl rfl

/-! ### The moments of a run -/

/-- The operations with fewer runs: each of them leads to a state that is one of the moments. -/
def Sem.through (sem : Sem S) (moment : S.State → Prop) : Sem S :=
  { sem with step := fun o s r s' => moment s' ∧ sem.step o s r s' }

/-- The process whose operations lead to such moments only. -/
def System.through (sys : System S ι ρ) (moment : S.State → Prop) : System S ι ρ :=
  { sys with sem := sys.sem.through moment }

/-- The states between one pool and another. -/
def Between (sys : System S ι ρ) (a b : Pool S ι ρ) (s : S.State) : Prop :=
  ∃ q, Steps sys a q ∧ Steps sys q b ∧ q.state = s

theorem tear_through {moment : S.State → Prop} {ths : List (Thread S ι ρ)} {s s' : S.State}
    (h : Tear sys.sem ths s s') : Tear (sys.sem.through moment) ths s s' := by
  induction h with
  | nil s => exact .nil s
  | skip _ ih => exact .skip ih
  | cut ht _ ih => exact .cut ht ih

theorem step_through {moment : S.State → Prop} {p p' : Pool S ι ρ} (h : Step sys p p') (hmoment : moment p'.state) :
    Step (sys.through moment) p p' := by
  cases h with
  | arrive hc =>
    have harrive : (sys.through moment).mayArrive p _ := hc
    exact .arrive harrive
  | complete hmay ht hs =>
    have hstep : (sys.through moment).sem.step _ p.state _ _ := ⟨hmoment, hs⟩
    exact .complete hmay ht hstep
  | resume ht => exact .resume ht
  | kill ht hc => exact .kill (tear_through ht) hc

/-- A run goes through its own moments. -/
theorem steps_through {a b c : Pool S ι ρ} (h : Steps sys a b) (hlater : Steps sys b c) :
    Steps (sys.through (Between sys a c)) a b := by
  induction h with
  | refl => exact .refl
  | @tail q q' hq hs ih =>
    have hrest : Steps sys q c := (Relation.ReflTransGen.single hs).trans hlater
    exact (ih hrest).tail (step_through hs ⟨q', hq.tail hs, hlater, rfl⟩)

end

end ConfigRegistry.Async
