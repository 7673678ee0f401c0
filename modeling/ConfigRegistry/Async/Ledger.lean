import ConfigRegistry.Async.Accord

/-!
# What is only added to

A process whose calls only add to what is so. What is true of the state and lasts as it grows is known to a call from
then on, whatever the others do and however often the process is killed.
-/

namespace ConfigRegistry.Async

/-- How a state grows, and what holds of it throughout. -/
structure Ledger (S : Sig) where
  inv : S.State → Prop
  grows : S.State → S.State → Prop
  refl : ∀ s, grows s s
  trans : ∀ s s' s'', grows s s' → grows s' s'' → grows s s''

namespace Ledger

variable {S : Sig} (L : Ledger S)

/-- The accord in which every call relies on the others to add only. -/
def accord : Accord S where
  inv := L.inv
  rely _ := L.grows
  fresh _ _ := True
  rely_refl _ := L.refl
  rely_trans _ := L.trans
  fresh_rely _ _ _ _ _ := trivial

/-- What stays true as the state grows. -/
def Lasts (P : S.State → Prop) : Prop := ∀ s s', P s → L.grows s s' → P s'

variable {L} {sem : Sem S} {t : Nat} {P : S.State → Prop} {α β : Type}

theorem Lasts.and {Q : S.State → Prop} (hP : L.Lasts P) (hQ : L.Lasts Q) : L.Lasts fun s => P s ∧ Q s :=
  fun s s' h hg => ⟨hP s s' h.1 hg, hQ s s' h.2 hg⟩

theorem Lasts.const (p : Prop) : L.Lasts fun _ => p := fun _ _ h _ => h

theorem Lasts.stable (h : L.Lasts P) : L.accord.Stable t P := fun s s' hs hg _ => h s s' hs hg

/-- A step that adds to the state, and what is known after it. -/
structure Adds (L : Ledger S) (Q : S.State → Prop) (s s' : S.State) : Prop where
  grows : L.grows s s'
  inv : L.inv s'
  known : Q s'

theorem runs_op {o : S.Op} {R : Except S.Err (S.Res o) → S.State → Prop} (hP : L.Lasts P) (hR : ∀ r, L.Lasts (R r))
    (hstep : ∀ s r s', P s → L.inv s → sem.step o s r s' → L.Adds (R r) s s')
    (htorn : ∀ s s', L.inv s → sem.torn o s s' → L.grows s s' ∧ L.inv s') :
    L.accord.Runs sem t P (Prog.op o) fun r s => P s ∧ R r s := by
  refine .op_torn hP.stable (fun r => (hP.and (hR r)).stable) (fun _ _ _ => trivial) (fun s r s' hs hi h => ?_)
    fun s s' _ hi h => ?_
  · have hadds := hstep s r s' hs hi h
    exact ⟨⟨hadds.inv, fun _ _ => hadds.grows⟩, hP s s' hs hadds.grows, hadds.known⟩
  · obtain ⟨hg, hi'⟩ := htorn s s' hi h
    exact ⟨hi', fun _ _ => hg⟩

section

variable {ι ρ : Type} {sys : System S ι ρ} {post : Nat → ι → ρ → S.State → Prop} {init : S.State → Prop}

/-- What every run keeps, kills included: what holds throughout, and what calls knew when they returned. -/
theorem holds (hpost : ∀ t c r, L.Lasts (post t c r))
    (hserve : ∀ (p : Pool S ι ρ) (c : ι), sys.mayArrive p c →
      L.accord.Runs sys.sem p.threads.length (fun s => s = p.state) (sys.body p.threads.length c)
        (Accord.IfReturned (post p.threads.length c)))
    (hinit : ∀ s, init s → L.inv s) (hinv : ∀ s s', L.inv s → sys.sem.crash s s' → L.inv s')
    (hgrows : ∀ s s', sys.sem.crash s s' → L.grows s s') {p : Pool S ι ρ} (h : Reach sys init p) :
    L.inv p.state ∧ ∀ t c r, p.Answered t c (.ok r) → post t c r p.state := by
  have hsurvives : L.accord.Survives sys fun t c => Accord.IfReturned (post t c) :=
    { inv := hinv
      fresh := fun _ _ _ _ _ => trivial
      post := fun t c r s s' hr hc => by
        cases r with
        | ok a => exact hpost t c a s s' hr (hgrows s s' hc)
        | error e => trivial }
  have hstable : ∀ t c r, L.accord.Stable t (Accord.IfReturned (post t c) r) := fun t c r =>
    .ifReturned (fun a => (hpost t c a).stable) r
  obtain ⟨hi, hanswered⟩ := Accord.holds_killed hstable
    (fun p c hc => (hserve p c hc).conseq (fun _ _ hs => hs.2) fun _ _ _ hr => hr)
    (fun s hs => ⟨hinit s hs, fun _ => trivial⟩) hsurvives h
  exact ⟨hi, fun t c r hr => hanswered t c (.ok r) hr⟩

end

end Ledger

end ConfigRegistry.Async
