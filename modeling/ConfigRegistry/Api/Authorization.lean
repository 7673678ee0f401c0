import ConfigRegistry.Api.Reads
import ConfigRegistry.Async.Accord
import ConfigRegistry.Async.Operations
import ConfigRegistry.Js.Text

/-!
# Authorization over time

A read may be suspended while the table, the schemas and the cache are replaced. This file shows that
whatever is sent is right at the moment it is sent, that no waiter misses a change or outlives its
request, and that a caller that is never granted a namespace is always told the same, whatever the
cache and the schemas hold.
-/

namespace ConfigRegistry.Api

open Js Async Identity Schema Store

/-- The response is right by the table and the commit in force when it was sent. -/
def Sent.Lawful (e : Sent) : Prop :=
  match e.reply with
  | .ok _ | .notFound => e.registry.Grants e.call.uid e.call.onNamespace
  | .notModified => ∃ since, e.call.since = some since ∧ e.commit.map toString = some since
  | .forbidden problem => problem = denied

/-- What was sent to call `t`. -/
def State.sentTo (s : State) (t : Nat) : List Sent := s.sent.filter fun e => e.t == t

/-- What all calls keep. -/
structure Sound (s : State) : Prop where
  sent : ∀ e ∈ s.sent, e.Lawful
  /-- Who waits has the commit that is served. -/
  listeners : ∀ l ∈ s.listeners, isAt s.cache l.since = true
  alerts : s.guard.AlertsOnce

/-- What call `t` relies on. -/
structure Undisturbed (t : Nat) (s s' : State) : Prop where
  sent : s'.sentTo t = s.sentTo t
  listeners : ∀ l ∈ s'.listeners, l.call = t → l ∈ s.listeners
  tables : s.tables <:+ s'.tables

/-- Nothing was sent to call `t`, and it has no waiter but for the commit `since`. -/
def Waiting (t : Nat) (since : Option String) (s : State) : Prop :=
  s.sentTo t = [] ∧ ∀ l ∈ s.listeners, l.call = t → some l.since = since

/-- Call `t` waits for its own commit to be left. -/
def Op.heldFor (t : Nat) : Op → State → Prop
  | .change u since, s => u = t ∧ Waiting t (some since) s

def accord : Accord lang where
  inv := Sound
  rely := Undisturbed
  fresh t := Waiting t none
  waits t o s := o.heldFor t s
  rely_refl _ _ := ⟨rfl, fun _ h _ => h, List.suffix_refl _⟩
  rely_trans _ _ _ _ h h' := ⟨h'.sent.trans h.sent, fun l hl hc => h.listeners l (h'.listeners l hl hc) hc,
    h.tables.trans h'.tables⟩
  fresh_rely _ _ _ h hr := ⟨hr.sent.trans h.1, fun l hl hc => h.2 l (hr.listeners l hl hc) hc⟩
  waits_rely _ o _ _ h hr := by
    cases o with
    | change u since =>
      exact ⟨h.1, hr.sent.trans h.2.1, fun l hl hc => h.2.2 l (hr.listeners l hl hc) hc⟩

theorem sem_lasting : sem.Lasting := ⟨fun _ _ _ h => h, fun _ _ h => h⟩

variable {t : Nat} {call : Call}

theorem stable_waiting (since : Option String) : accord.Stable t (Waiting t since) :=
  fun _ _ h hr _ => ⟨hr.sent.trans h.1, fun l hl hc => h.2 l (hr.listeners l hl hc) hc⟩

/-- A change of what no call looks back at. -/
theorem undisturbed_of_eq {s s' : State} (u : Nat) (hsent : s'.sent = s.sent)
    (hlisteners : s'.listeners = s.listeners) (htables : s'.tables = s.tables) :
    Undisturbed u s s' :=
  ⟨by rw [State.sentTo, State.sentTo, hsent], fun l hl _ => hlisteners ▸ hl,
    htables ▸ List.suffix_refl _⟩

/-- How a read ends: one response was sent to it, and it has no waiter. -/
def Answered (t : Nat) (call : Call) (reply : Reply) (s : State) : Prop :=
  (∃ e, s.sentTo t = [e] ∧ e.call = call ∧ e.reply = reply) ∧ ∀ l ∈ s.listeners, l.call ≠ t

theorem send_runs (reply : Reply) :
    accord.Runs sem t
      (fun s => Waiting t none s ∧ (⟨t, call, reply, s.registry, s.cache.commit⟩ : Sent).Lawful)
      (send t call reply) (Accord.Returned (Answered t call)) := by
  refine .bind_returns (R := fun _ => Answered t call reply) (.modify fun s h hi => ?_)
    fun _ => .pure fun s h _ => h
  refine ⟨⟨⟨?_, hi.listeners, hi.alerts⟩, fun u hu => ⟨?_, fun l hl _ => hl, List.suffix_refl _⟩⟩, ?_⟩
  · intro e he
    rcases List.mem_cons.1 he with rfl | he
    · exact h.2
    · exact hi.sent e he
  · exact List.filter_cons_of_neg (by simpa using Ne.symm hu)
  · refine ⟨⟨⟨t, call, reply, s.registry, s.cache.commit⟩, ?_, rfl, rfl⟩, fun l hl hc => ?_⟩
    · have hsent : s.sentTo t = [] := h.1.1
      unfold State.sentTo at hsent ⊢
      rw [List.filter_cons_of_pos (by simp), hsent]
    · cases h.1.2 l hl hc

theorem credentials_uid (call : Call) (readable : Bool) (u : Nat)
    (h : call.credentials readable = .ok u) : u = call.uid := by
  unfold Call.credentials at h
  split at h <;> cases h
  rfl

/-- The guard lets in whom the table in force grants the namespace, and refuses all others alike. -/
def Judged (t : Nat) (call : Call) (a : Except Denied ServiceIdentity) (s : State) : Prop :=
  Waiting t none s ∧ match a with
    | .ok _ => s.registry.Grants call.uid call.onNamespace
    | .error problem => problem = denied

theorem authorize_runs (call : Call) (readable : Bool) :
    accord.Runs sem t (Waiting t none) (authorize call readable) (Accord.Returned (Judged t call)) := by
  refine .turn fun s h hi => ⟨⟨⟨hi.sent, hi.listeners, hi.alerts.authorize _⟩, fun u _ =>
    undisturbed_of_eq u rfl rfl rfl⟩, h, ?_⟩
  split
  · rename_i hok
    exact AccessGuard.grants_of_authorize (credentials_uid call readable) hok
  · rename_i herr
    exact AccessGuard.authorize_error herr

theorem refuse_runs (problem : Denied) :
    accord.Runs sem t (Judged t call (.error problem)) (send t call (.forbidden problem))
      (Accord.Returned (Answered t call)) := by
  refine Accord.Runs.conseq (fun s _ h => ?_) (fun _ _ _ h => h) (send_runs (.forbidden problem))
  exact ⟨h.1, h.2⟩

theorem sendConfig_runs (identity : ServiceIdentity) :
    accord.Runs sem t (Judged t call (.ok identity)) (sendConfig t call identity)
      (Accord.Returned (Answered t call)) := by
  refine .get_bind fun s₀ => ?_
  refine .bind_returns (R := fun _ s => Judged t call (.ok identity) s) (.modify fun s h hi => ?_)
    fun _ => ?_
  · exact ⟨⟨⟨hi.sent, hi.listeners, hi.alerts⟩, fun u _ => undisturbed_of_eq u rfl rfl rfl⟩, h.1⟩
  refine (send_runs _).conseq (fun s _ h => ⟨h.1, ?_⟩) fun _ _ _ h => h
  rcases respond_cases s₀.cache s₀.schemas identity call.service call.environment with
    hreply | ⟨body, hreply⟩
  · unfold Sent.Lawful
    rw [hreply]
    exact h.2
  · unfold Sent.Lawful
    rw [hreply]
    exact h.2

/-- Removing a waiter of call `t` is no business of the others. -/
theorem keeps_unsubscribe {s : State} (hi : Sound s) : accord.Keeps t s (s.unsubscribe t) :=
  ⟨⟨hi.sent, fun l hl => hi.listeners l (List.mem_filter.1 hl).1, hi.alerts⟩,
    fun _ _ => ⟨rfl, fun _ hl _ => (List.mem_filter.1 hl).1, List.suffix_refl _⟩⟩

theorem waiting_unsubscribe {s : State} {since : Option String} (h : Waiting t since s) :
    Waiting t none (s.unsubscribe t) := by
  refine ⟨h.1, fun l hl hc => ?_⟩
  have hne := (List.mem_filter.1 hl).2
  rw [hc] at hne
  simp at hne

theorem change_runs (since : String) :
    accord.Runs sem t (Waiting t (some since)) (Prog.op (S := lang) (.change t since))
      (Accord.Returned fun _ => Waiting t none) := by
  refine .op sem_lasting (stable_waiting _) (fun r => ?_) (fun s h _ => ⟨rfl, h⟩) fun s r s' h hi hs => ?_
  · cases r with
    | ok _ => exact stable_waiting none
    | error _ => exact fun _ _ h _ _ => h
  · obtain ⟨rfl, rfl⟩ := hs
    exact ⟨keeps_unsubscribe hi, waiting_unsubscribe h⟩

theorem waitForChange_runs (since : String) :
    accord.Runs sem t (fun (s : State) => Waiting t none s ∧ isAt s.cache since = true)
      (waitForChange t since) (Accord.Returned fun _ => Waiting t none) := by
  refine .bind_returns (R := fun _ (s : State) => Waiting t (some since) s ∧ isAt s.cache since = true)
    (.modify fun s h hi => ?_) fun _ => ?_
  · have hmem : ∀ l, l ∈ s.listeners ++ [⟨t, since⟩] → l ∈ s.listeners ∨ l = ⟨t, since⟩ :=
      fun l hl => (List.mem_append.1 hl).imp_right List.mem_singleton.1
    refine ⟨⟨⟨hi.sent, fun l hl => ?_, hi.alerts⟩, fun u hu => ⟨rfl, fun l hl hc => ?_,
      List.suffix_refl _⟩⟩, ⟨h.1.1, fun l hl hc => ?_⟩, h.2⟩
    · rcases hmem l hl with hl | rfl
      · exact hi.listeners l hl
      · exact h.2
    · rcases hmem l hl with hl | rfl
      · exact hl
      · exact (hu hc.symm).elim
    · rcases hmem l hl with hl | rfl
      · cases h.1.2 l hl hc
      · rfl
  · refine .bind_returns (R := fun _ => Waiting t (some since)) (.modify fun s h hi => ?_)
      fun _ => change_runs since
    rw [if_pos h.2]
    exact ⟨.refl hi, h.1⟩

theorem hold_runs (identity : ServiceIdentity) (since : String) :
    accord.Runs sem t
      (fun (s : State) => (Waiting t none s ∧ isAt s.cache since = true) ∧ call.since = some since)
      (hold t call identity since) (Accord.Returned (Answered t call)) := by
  refine Accord.Runs.assume fun hsince => ?_
  refine .bind_returns (waitForChange_runs since) fun _ => ?_
  refine .bind_returns (authorize_runs call call.readableLater) fun judged => ?_
  cases judged with
  | error problem => exact refuse_runs problem
  | ok found =>
    refine .get_bind fun s₀ => .ite (fun hat => ?_) fun _ => ?_
    · refine (send_runs _).conseq (fun s _ h => ⟨h.1.1, since, hsince, ?_⟩) fun _ _ _ h => h
      rw [h.2]
      exact beq_iff_eq.1 hat
    · exact (sendConfig_runs identity).conseq (fun _ _ h => h.1) fun _ _ _ h => h

theorem readConfig_runs :
    accord.Runs sem t (Waiting t none) (readConfig t call) (Accord.Returned (Answered t call)) := by
  refine .bind_returns (authorize_runs call call.readable) fun judged => ?_
  cases judged with
  | error problem => exact refuse_runs problem
  | ok identity =>
    refine .get_bind fun s₀ => ?_
    cases hheld : call.holdsFor s₀.cache with
    | none => exact (sendConfig_runs identity).conseq (fun _ _ h => h.1) fun _ _ _ h => h
    | some since =>
      obtain ⟨hsince, hat⟩ := Option.filter_eq_some_iff.1 hheld
      refine (hold_runs identity since).conseq (fun s _ h => ⟨⟨h.1.1, ?_⟩, hsince⟩) fun _ _ _ h => h
      rw [h.2]
      exact (Bool.and_eq_true_iff.1 hat).2

/-- How a request ends. -/
def Ended (t : Nat) (c : Request) (r : Except Error (Option Reply)) (s : State) : Prop :=
  (∀ l ∈ s.listeners, l.call ≠ t) ∧ match c with
    | .read call => ∃ e, s.sentTo t = [e] ∧ e.call = call ∧ r = .ok (some e.reply)
    | _ => r = .ok none

theorem stable_ended (t : Nat) (c : Request) (r : Except Error (Option Reply)) :
    accord.Stable t (Ended t c r) := by
  rintro s s' ⟨hnone, hend⟩ hr _
  refine ⟨fun l hl hc => hnone l (hr.listeners l hl hc) hc, ?_⟩
  cases c with
  | read call => simpa only [hr.sent] using hend
  | _ => exact hend

theorem serve_runs (c : Request) :
    accord.Runs sem t (Waiting t none) (serve t c) (Ended t c) := by
  have hnone {s : State} (h : Waiting t none s) : ∀ l ∈ s.listeners, l.call ≠ t := by
    intro l hl hc
    cases h.2 l hl hc
  cases c with
  | read call =>
    refine .bind_returns readConfig_runs fun reply => .pure fun s h _ => ?_
    obtain ⟨⟨e, hsent, hcall, hreply⟩, hgone⟩ := h
    exact ⟨hgone, e, hsent, hcall, by rw [hreply]⟩
  | setRegistry table =>
    refine .bind_returns (R := fun _ => Waiting t none) (.modify fun s h hi => ?_)
      fun _ => .pure fun s h _ => ⟨hnone h, rfl⟩
    exact ⟨⟨⟨hi.sent, hi.listeners, hi.alerts⟩, fun u _ => ⟨rfl, fun _ hl _ => hl,
      List.suffix_cons _ _⟩⟩, h⟩
  | setSchemas set =>
    refine .bind_returns (R := fun _ => Waiting t none) (.modify fun s h hi => ?_)
      fun _ => .pure fun s h _ => ⟨hnone h, rfl⟩
    exact ⟨⟨⟨hi.sent, hi.listeners, hi.alerts⟩, fun u _ => undisturbed_of_eq u rfl rfl rfl⟩, h⟩
  | reload tree flagsByEnvironment =>
    refine .bind_returns (R := fun _ => Waiting t none) (.modify fun s h hi => ?_)
      fun _ => .pure fun s h _ => ⟨hnone h, rfl⟩
    exact ⟨⟨⟨hi.sent, fun l hl => (List.mem_filter.1 hl).2, hi.alerts⟩, fun u _ =>
      ⟨rfl, fun l hl _ => (List.mem_filter.1 hl).1, List.suffix_refl _⟩⟩,
      h.1, fun l hl hc => h.2 l (List.mem_filter.1 hl).1 hc⟩
  | markSynced commit =>
    refine .bind_returns (R := fun _ => Waiting t none) (.modify fun s h hi => ?_)
      fun _ => .pure fun s h _ => ⟨hnone h, rfl⟩
    exact ⟨⟨⟨hi.sent, hi.listeners, hi.alerts⟩, fun u _ => undisturbed_of_eq u rfl rfl rfl⟩, h⟩

section

variable {p : Pool lang Request (Option Reply)}

theorem serve_arrives (p : Pool lang Request (Option Reply)) (c : Request) :
    accord.Runs sem p.threads.length
      (fun s => Waiting p.threads.length none s ∧ s = p.state) (serve p.threads.length c)
      (Ended p.threads.length c) :=
  (serve_runs c).conseq (fun _ _ h => h.1) fun _ _ _ h => h

theorem built_sound {s : State} (h : Built s) : Sound s ∧ ∀ t, Waiting t none s := by
  refine ⟨⟨?_, ?_, ?_⟩, fun t => ⟨?_, ?_⟩⟩
  · simp [h.sent]
  · simp [h.listeners]
  · rw [h.guard]
    exact ⟨rfl, List.nodup_nil⟩
  · simp [State.sentTo, h.sent]
  · simp [h.listeners]

/-- What every run keeps. -/
theorem sound_of_reach (h : Reach service Built p) :
    Sound p.state ∧ ∀ t c r, p.Answered t c r → Ended t c r p.state :=
  accord.holds sem_lasting stable_ended (fun p c _ => serve_arrives p c) (fun _ => built_sound) h

theorem heldFor_of_reach (h : Reach service Built p) {t : Nat}
    {th : Thread lang Request (Option Reply)} {o : Op} (ht : p.threads[t]? = some th)
    (ho : th.phase = .awaiting o) : o.heldFor t p.state :=
  accord.waiting sem_lasting stable_ended (fun p c _ => serve_arrives p c) (fun _ => built_sound) h ht ho

theorem tables_of_step {p' : Pool lang Request (Option Reply)} (h : Reach service Built p)
    (hs : Step service p p') : p.state.tables <:+ p'.state.tables :=
  (accord.step_rely sem_lasting stable_ended (fun p c _ => serve_arrives p c) (fun _ => built_sound)
    h hs (Nat.le_refl _)).tables

/-! ### A caller that is not granted the namespace -/

/-- No table that was ever in force grants the caller the namespace. -/
def State.NeverGrants (s : State) (call : Call) : Prop :=
  ∀ table ∈ s.tables, ¬ table.Grants call.uid call.onNamespace

/-- Such a caller is refused in the turn in which its request arrives. -/
theorem refused_on_arrival {s : State} (h : ¬ s.registry.Grants call.uid call.onNamespace) :
    ((serve t (.read call)).settle s).1 = .done (.ok (some (.forbidden denied))) := by
  have hrefused := AccessGuard.authorize_of_not_grants s.guard
    (credentials_uid call call.readable) h
  simp only [serve, readConfig, authorize, Prog.turn_bind, Prog.settle, Prog.pure_bind', hrefused]
  rfl

/-- However long the request has been there. -/
theorem refused_of_reach (h : Reach service Built p) {th : Thread lang Request (Option Reply)}
    (ht : p.threads[t]? = some th) (hc : th.request = .read call)
    (hnever : p.state.NeverGrants call) :
    p.Answered t (.read call) (.ok (some (.forbidden denied))) := by
  obtain ⟨s, hs, hrun⟩ := h
  induction hrun generalizing th with
  | refl => cases ht
  | @tail p p' hrun hstep ih =>
    have htables := tables_of_step ⟨s, hs, hrun⟩ hstep
    have hbefore : p.state.NeverGrants call := fun table hm => hnever table (htables.subset hm)
    rcases hstep.origin ht with ⟨th', ht', hreq⟩ | hnew
    · exact hstep.answered (ih ht' (hreq.trans hc) hbefore)
    · have hrefused := refused_on_arrival (t := t) (hbefore _ List.mem_cons_self)
      rw [hc] at hnew
      rw [Pool.Answered, ht, ← hc, ← hrefused, hc]
      exact congrArg some (congrArg₂ Thread.mk hc hnew)

/-! ### Waiting for a change -/

/-- A call awaits only the change of the commit it came with. -/
def Op.isOf (t : Nat) (c : Request) : Op → Prop
  | .change u since => u = t ∧ ∃ call, c = .read call ∧ call.since = some since

theorem only_sendConfig {φ : Op → Prop} (identity : ServiceIdentity) :
    (sendConfig t call identity).Only (S := lang) φ := fun _ _ _ => trivial

theorem only_hold {φ : Op → Prop} {since : String} (identity : ServiceIdentity)
    (h : φ (.change t since)) : (hold t call identity since).Only (S := lang) φ := by
  have hwait : (waitForChange t since).Only (S := lang) φ := fun _ _ => ⟨h, fun _ => trivial⟩
  refine Prog.only_bind hwait fun _ => ?_
  refine Prog.only_bind (p := authorize call call.readableLater) (fun _ => trivial) fun judged => ?_
  cases judged with
  | error problem => exact fun _ => trivial
  | ok found =>
    refine Prog.only_get_bind fun s => ?_
    split
    · exact fun _ => trivial
    · exact only_sendConfig identity

theorem serve_only (t : Nat) (c : Request) : (serve t c).Only (S := lang) (Op.isOf t c) := by
  cases c with
  | read call =>
    refine Prog.only_bind (p := readConfig t call) ?_ fun _ => trivial
    refine Prog.only_bind (p := authorize call call.readable) (fun _ => trivial) fun judged => ?_
    cases judged with
    | error problem => exact fun _ => trivial
    | ok identity =>
      refine Prog.only_get_bind fun s => ?_
      split
      · rename_i since hheld
        exact only_hold identity ⟨rfl, call, rfl, (Option.filter_eq_some_iff.1 hheld).1⟩
      · exact only_sendConfig identity
  | _ => exact fun _ => trivial

/-- Call `t` is registered for the commit `since`. -/
def State.Subscribed (s : State) (t : Nat) (since : String) : Prop := ⟨t, since⟩ ∈ s.listeners

/-- What holds of the reads at every moment. -/
structure Guarded (p : Pool lang Request (Option Reply)) : Prop where
  /-- Whatever was sent was right when it was sent. -/
  lawful : ∀ e ∈ p.state.sent, e.Lawful
  /-- A read that has been answered was sent one response. -/
  answered : ∀ t call r, p.Answered t (.read call) r →
    ∃ e, p.state.sentTo t = [e] ∧ e.call = call ∧ r = .ok (some e.reply)
  /-- A request that is held has been woken, unless its commit is still the one that is served and it
  is registered for the next. -/
  held : ∀ t th u since, p.threads[t]? = some th → th.phase = .awaiting (.change u since) →
    u = t ∧ (∃ call, th.request = .read call ∧ call.since = some since) ∧
      ((∀ l ∈ p.state.listeners, l.call ≠ t) ∨
        p.state.Subscribed t since ∧ isAt p.state.cache since = true)
  /-- A request that has ended has no waiter. -/
  removed : ∀ t c r, p.Answered t c r → ∀ l ∈ p.state.listeners, l.call ≠ t
  /-- A caller that was never granted the namespace has been refused. -/
  refused : ∀ t th call, p.threads[t]? = some th → th.request = .read call →
    p.state.NeverGrants call → p.Answered t (.read call) (.ok (some (.forbidden denied)))

theorem guarded_of_reach (h : Reach service Built p) : Guarded p := by
  obtain ⟨hsound, hended⟩ := sound_of_reach h
  refine ⟨hsound.sent, fun t call r hr => (hended t _ r hr).2, ?_, fun t c r hr => (hended t c r hr).1,
    fun t th call ht hc => refused_of_reach h ht hc⟩
  intro t th u since ht ho
  obtain ⟨hu, -, hwait⟩ := heldFor_of_reach h ht ho
  refine ⟨hu, (awaits_of_reach serve_only h ht ho).2, ?_⟩
  by_cases hreg : ∃ l ∈ p.state.listeners, l.call = t
  · obtain ⟨⟨u', since'⟩, hl, rfl⟩ := hreg
    obtain rfl := Option.some.inj (hwait _ hl rfl)
    exact .inr ⟨hl, hsound.listeners _ hl⟩
  · exact .inl fun l hl hcall => hreg ⟨l, hl, hcall⟩

/-- A step that moves the commit wakes everyone who is registered. -/
theorem woken_of_step {p' : Pool lang Request (Option Reply)} (h : Reach service Built p)
    (hs : Step service p p') (hmoved : p'.state.cache.commit ≠ p.state.cache.commit) {u : Nat}
    {since : String} (hsub : p.state.Subscribed u since) : ¬ p'.state.Subscribed u since := by
  intro hsub'
  have hbefore := (sound_of_reach h).1.listeners _ hsub
  have hafter := (sound_of_reach (h.next hs)).1.listeners _ hsub'
  simp only [isAt, beq_iff_eq, Option.map_eq_some_iff] at hbefore hafter
  obtain ⟨c, hc, htext⟩ := hbefore
  obtain ⟨c', hc', htext'⟩ := hafter
  exact hmoved (by rw [hc, hc', natText_injective (htext'.trans htext.symm)])

/-- **The read API is authorized over time**: every response is right when it is sent, the first
reload that moves the commit wakes every request that is held, requests that have ended leave no
waiter, and a caller that is never granted the namespace is told the same in any two runs, whatever
the cache and the schemas hold in them. -/
theorem reads_are_authorized (h : Reach service Built p) :
    Guarded p ∧
      (∀ p' u since, Step service p p' → p'.state.cache.commit ≠ p.state.cache.commit →
        p.state.Subscribed u since → ¬ p'.state.Subscribed u since) ∧
      ∀ (p' : Pool lang Request (Option Reply)) (t t' : Nat)
        (th th' : Thread lang Request (Option Reply)) (call : Call), Reach service Built p' →
        p.threads[t]? = some th → p'.threads[t']? = some th' → th.request = .read call →
        th'.request = .read call → p.state.NeverGrants call → p'.state.NeverGrants call →
        th = th' := by
  refine ⟨guarded_of_reach h, fun p' u since hs hmoved hsub => woken_of_step h hs hmoved hsub, ?_⟩
  intro p' t t' th th' call h' ht ht' hc hc' hnever hnever'
  have hrefused := refused_of_reach h ht hc hnever
  have hrefused' := refused_of_reach h' ht' hc' hnever'
  rw [Pool.Answered, ht] at hrefused
  rw [Pool.Answered, ht'] at hrefused'
  exact Option.some.inj (hrefused.trans hrefused'.symm)

end

/-- A caller with the current commit is held until a reload moves on, another one is refused. -/
def heldRead : Pool lang Request (Option Reply) :=
  serviceDriver.drive ⟨samplePayments, []⟩
    [.arrive (.read ⟨1002, true, true, "payments", "prod", some "0"⟩),
      .arrive (.read ⟨1003, true, true, "payments", "prod", some "0"⟩),
      .arrive (.reload ⟨1, [("payments/prod", [("apiKey", .str "rotated")])]⟩ []), .run 0 ()]

theorem reads_are_authorized_held :
    heldRead.state.sent.map (fun e => (e.t, e.reply.status, e.commit)) =
        [(0, 200, some 1), (1, 403, some 0)] ∧
      Guarded heldRead ∧
      (∀ p' u since, Step service heldRead p' →
        p'.state.cache.commit ≠ heldRead.state.cache.commit →
        heldRead.state.Subscribed u since → ¬ p'.state.Subscribed u since) ∧
      ∀ (p' : Pool lang Request (Option Reply)) (t t' : Nat)
        (th th' : Thread lang Request (Option Reply)) (call : Call), Reach service Built p' →
        heldRead.threads[t]? = some th → p'.threads[t']? = some th' → th.request = .read call →
        th'.request = .read call → heldRead.state.NeverGrants call → p'.state.NeverGrants call →
        th = th' :=
  ⟨by decide +kernel, reads_are_authorized
    (Driver.drive_reach serviceDriver_follows samplePayments_built _)⟩

end ConfigRegistry.Api
