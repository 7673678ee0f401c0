import ConfigRegistry.Async.Traces
import ConfigRegistry.Client.ConfigClient

/-!
# The pace of a watch

What the loop of `watch` awaits between one request and the next. The other calls of the client may do anything
meanwhile, and the server may answer anything.
-/

namespace ConfigRegistry.Client

open Js Json Async

/-! ### Requests and what is between them -/

/-- What came of a request. -/
def answerOf : Visit lang → Option (Except Error (Nat × List Char))
  | ⟨.fetch _ _, result, _⟩ => some result
  | _ => none

/-- A request was sent. -/
def IsRequest (v : Visit lang) : Prop := (answerOf v).isSome = true

/-- The retry delay elapsed. -/
def IsDelay (v : Visit lang) : Prop := v.op = Op.delay

/-- The commit of the client is not the same in all of these states. -/
def Changed (states : List State) : Prop := ∃ a ∈ states, ∃ b ∈ states, a.memory.commit ≠ b.memory.commit

/-- One request, what the loop awaited after it, and the next request. -/
def Consecutive (vs : List (Visit lang)) (v : Visit lang) (mid : List (Visit lang)) (w : Visit lang) : Prop :=
  ∃ before after, vs = before ++ v :: (mid ++ w :: after) ∧ IsRequest v ∧ IsRequest w ∧ ∀ m ∈ mid, ¬ IsRequest m

def statesOf (v : Visit lang) : List State := v.states

/-- The states from one request to the moment the next is sent. -/
def between (v : Visit lang) (mid : List (Visit lang)) (w : Visit lang) : List State :=
  statesOf v ++ mid.flatMap statesOf ++ (statesOf w).take 1

/-- Before the next request the server held the first, the delay elapsed, or the commit changed. -/
def Paced (v : Visit lang) (mid : List (Visit lang)) (w : Visit lang) : Prop :=
  (∃ body, answerOf v = some (.ok (304, body))) ∨ (∃ d ∈ mid, IsDelay d) ∨
    Changed (between v mid w)

/-- No two requests of the loop follow each other at once. -/
def NeverSpins (vs : List (Visit lang)) : Prop := ∀ v mid w, Consecutive vs v mid w → Paced v mid w

/-- What `fetch` makes of an answer, or of its failure. -/
def received (q : Except Error (Nat × List Char)) : Except Error (Option Served) :=
  match q with
  | .ok answer => Served.ofAnswer answer.1 answer.2
  | .error e => .error e

/-- The request was answered with 304, or failed, or was answered with another commit than the client had by then, or
other calls changed the commit during the request or the writing of the cache file. -/
def Held (v : Visit lang) (mid : List (Visit lang)) : Prop :=
  (∃ body, answerOf v = some (.ok (304, body))) ∨
  (∃ q e, answerOf v = some q ∧ received q = .error e) ∨
  (∃ q served s, answerOf v = some q ∧ received q = .ok (some served) ∧ v.states.getLast? = some s ∧
    served.commit ≠ s.memory.commit) ∨
  Changed v.states ∨ ∃ m ∈ mid, Changed m.states

theorem Changed.mono {states states' : List State} (h : Changed states) (hsub : ∀ s ∈ states, s ∈ states') :
    Changed states' := by
  obtain ⟨a, ha, b, hb, hne⟩ := h
  exact ⟨a, hsub a ha, b, hsub b hb, hne⟩

theorem not_changed {states : List State} {commit : Option Doc} (h : ∀ s ∈ states, s.memory.commit = commit) :
    ¬ Changed states := by
  rintro ⟨a, ha, b, hb, hne⟩
  exact hne ((h a ha).trans (h b hb).symm)

theorem same_of_not_changed {states : List State} (h : ¬ Changed states) :
    ∀ a ∈ states, ∀ b ∈ states, a.memory.commit = b.memory.commit := by
  intro a ha b hb
  by_contra hne
  exact h ⟨a, ha, b, hb, hne⟩

/-- Of a request, what follows it, and more: two consecutive requests are the first two, or both among the rest. -/
theorem consecutive_cons {v₀ : Visit lang} {mid₀ rest : List (Visit lang)} (hmid₀ : ∀ m ∈ mid₀, ¬ IsRequest m)
    (hrest : ∀ w ∈ rest.head?, IsRequest w) {v w : Visit lang} {mid : List (Visit lang)}
    (h : Consecutive (v₀ :: (mid₀ ++ rest)) v mid w) :
    (v = v₀ ∧ mid = mid₀ ∧ ∃ after, rest = w :: after) ∨ Consecutive rest v mid w := by
  obtain ⟨before, after, heq, hv, hw, hmid⟩ := h
  cases before with
  | nil =>
    obtain ⟨rfl, htail⟩ := List.cons.inj heq
    left
    rcases List.append_eq_append_iff.1 htail with ⟨l, rfl, hl⟩ | ⟨l, rfl, hl⟩
    · cases l with
      | nil => exact ⟨rfl, by simp, after, by simpa using hl⟩
      | cons x l =>
        exact (hmid x (by simp) (hrest x (by rw [hl]; rfl))).elim
    · cases l with
      | nil => exact ⟨rfl, by simp, after, by simpa using hl.symm⟩
      | cons x l =>
        obtain ⟨rfl, -⟩ := List.cons.inj hl
        exact (hmid₀ w (by simp) hw).elim
  | cons x before =>
    obtain ⟨rfl, htail⟩ := List.cons.inj heq
    right
    rcases List.append_eq_append_iff.1 htail with ⟨l, rfl, hl⟩ | ⟨l, rfl, hl⟩
    · exact ⟨l, after, hl, hv, hw, hmid⟩
    · cases l with
      | nil => exact ⟨[], after, hl.symm, hv, hw, hmid⟩
      | cons y l =>
        obtain ⟨rfl, -⟩ := List.cons.inj hl
        exact (hmid₀ v (by simp) hv).elim

/-! ### One turn of the loop -/

/-- Neither a request nor a delay. -/
def Op.Local : Op → Prop
  | .fetch _ _ | .delay => False
  | _ => True

theorem local_of_op {v : Visit lang} (h : Op.Local v.op) : ¬ IsRequest v ∧ ¬ IsDelay v := by
  obtain ⟨o, result, states⟩ := v
  unfold IsRequest IsDelay
  cases o <;> simp_all [Op.Local, answerOf]

/-- A turn that does not change the commit. -/
abbrev KeepsCommit (s s' : State) : Prop := s'.memory.commit = s.memory.commit

variable (options : Options)

theorem publish_within (pid : Nat) : (publish pid).Within Op.Local KeepsCommit :=
  .handle (.op trivial) fun cause => .bind (.attempt (.op trivial)) fun _ => .fail cause

theorem writeCache_within (served : Served) : (writeCache options served).Within Op.Local KeepsCommit := by
  unfold writeCache
  split
  · exact .pure ()
  · refine .get_bind (fun s => (rfl : KeepsCommit s s)) fun s => ?_
    refine .bind (.op trivial) fun inode => .bind (.op trivial) fun _ => ?_
    exact publish_within s.pid

/-- What `apply` does after it has set the commit. -/
def saving (call : Nat) (served : Served) (changed : Bool) : Prog lang Unit := do
  (writeCache options served).handle fun _ => Prog.modify (S := lang) fun s => { s with failed := true }
  Prog.modify (S := lang) fun s => { s.release call with notified := if changed then s.notified + 1 else s.notified }

theorem State.memory_release (s : State) (call : Nat) : (s.release call).memory = s.memory := by
  unfold State.release
  split <;> rfl

theorem saving_within (call : Nat) (served : Served) (changed : Bool) :
    (saving options call served changed).Within Op.Local KeepsCommit := by
  refine .bind (.handle (writeCache_within options served) fun _ => .modify fun _ => rfl) fun _ => ?_
  exact .modify fun s => congrArg Memory.commit (s.memory_release call)

section

variable {step : (o : Op) → State → Except Error o.Res → State → Prop} {others : State → State → Prop}
  {s t : State} {vs : List (Visit lang)}

/-- Where `apply` is not disturbed, the client has the commit of the answer from the first state on. -/
theorem apply_visits {call : Nat} {served : Served} {r : Except Error Unit}
    (h : Traces (S := lang) step others (apply options call served) s vs r t) :
    (∀ v ∈ vs, ¬ IsRequest v ∧ ¬ IsDelay v) ∧ ((∀ v ∈ vs, ¬ Changed v.states) →
      (∀ v ∈ vs, ∀ a ∈ v.states, a.memory.commit = served.commit) ∧ t.memory.commit = served.commit) := by
  unfold apply at h
  replace h := traces_get_bind.1 h
  replace h := traces_modify_bind.1 h
  have hwithin := saving_within options call served (!identical served.commit s.memory.commit)
  refine ⟨fun v hv => local_of_op (h.ops hwithin v hv), ?_⟩
  intro hsame
  refine Traces.steady (f := fun s : State => s.memory.commit) h hwithin ?_
  intro v hv
  exact same_of_not_changed (hsame v hv)

/-- `apply` never throws. -/
theorem apply_returns {call : Nat} {served : Served} {r : Except Error Unit}
    (h : Traces (S := lang) step others (apply options call served) s vs r t) : r = .ok () := by
  unfold apply at h
  replace h := traces_modify_bind.1 (traces_get_bind.1 h)
  rcases traces_bind.1 h with ⟨u, vs₁, s', vs₂, hwrite, hend, rfl⟩ | ⟨e, rfl, hwrite⟩
  · exact (traces_modify.1 hend).2.1
  · rcases traces_handle.1 hwrite with ⟨a, hcontra, -⟩ | ⟨e', vs₁, s', vs₂, -, hfail, -⟩
    · cases hcontra
    · exact (traces_modify.1 hfail).2.1

theorem fetch_visits {call : Nat} {since : Option Doc} {r : Except Error (Option Served)}
    (h : Traces (S := lang) step others (fetch call since) s vs r t) : ∃ q states,
      vs = [⟨Op.fetch call (since.filter truthy), q, states⟩] ∧ r = received q ∧
      Waits (S := lang) step others (Op.fetch call (since.filter truthy)) (s.request call) q states t := by
  unfold fetch at h
  replace h := traces_modify_bind.1 h
  rcases traces_bind.1 h with ⟨answer, vs₁, s', vs₂, hop, hdone, rfl⟩ | ⟨e, rfl, hop⟩
  · obtain ⟨states, hwaits, rfl⟩ := traces_op.1 hop
    obtain ⟨rfl, rfl, rfl⟩ := traces_done.1 hdone
    exact ⟨.ok answer, states, rfl, rfl, hwaits⟩
  · obtain ⟨states, hwaits, rfl⟩ := traces_op.1 hop
    exact ⟨.error e, states, rfl, rfl, hwaits⟩

/-- What a turn of the loop comes to once its request has been answered. -/
inductive Turned (call : Nat) (step : (o : Op) → State → Except Error o.Res → State → Prop) (others : State → State → Prop) :
    Except Error (Option Served) → State → List (Visit lang) → Except Error Bool → State → Prop where
  | failed {e : Error} {s t : State} {q : Except Error Unit} {states : List State} {b : Except Error Bool}
      (h : Waits (S := lang) step others Op.delay s q states t) :
      Turned call step others (.error e) s [⟨Op.delay, q, states⟩] b t
  | stopped {served : Option Served} {s : State} (h : s.aborted.contains call = true) :
      Turned call step others (.ok served) s [] (.ok false) (s.release call)
  | unchanged {s : State} : Turned call step others (.ok none) s [] (.ok true) s
  | applied {served : Served} {s t : State} {vs : List (Visit lang)} {r : Except Error Unit} {b : Except Error Bool}
      (h : Traces (S := lang) step others (apply options call served) s vs r t) :
      Turned call step others (.ok (some served)) s vs b t

theorem turn_visits {call : Nat} {b : Except Error Bool}
    (h : Traces (S := lang) step others (watchTurn options call) s vs b t) : ∃ q states s' rest,
      vs = ⟨Op.fetch call (s.memory.commit.filter truthy), q, states⟩ :: rest ∧
      Waits (S := lang) step others (Op.fetch call (s.memory.commit.filter truthy)) (s.request call) q states s' ∧
      Turned options call step others (received q) s' rest b t := by
  unfold watchTurn at h
  rcases traces_handle.1 h with ⟨b', rfl, hbody⟩ | ⟨e, vs₁, s₁, vs₂, hbody, hdelay, rfl⟩
  · replace hbody := traces_get_bind.1 hbody
    rcases traces_bind.1 hbody with ⟨served, vs₁, s', vs₂, hfetch, hrest, rfl⟩ | ⟨e, hcontra, -⟩
    · obtain ⟨q, states, rfl, hq, hwaits⟩ := fetch_visits hfetch
      refine ⟨q, states, s', vs₂, rfl, hwaits, ?_⟩
      rw [← hq]
      replace hrest := traces_get_bind.1 hrest
      split at hrest
      · rename_i hstopped
        have hend := traces_modify_bind.1 hrest
        obtain ⟨rfl, hb, rfl⟩ := traces_pure.1 hend
        obtain rfl := Except.ok.inj hb
        exact .stopped hstopped
      · cases served with
        | none =>
          obtain ⟨rfl, hb, rfl⟩ := traces_pure.1 hrest
          obtain rfl := Except.ok.inj hb
          exact .unchanged
        | some served =>
          rcases traces_bind.1 hrest with ⟨u, vs₁, s'', vs₂, happly, hend, rfl⟩ | ⟨e, hcontra, -⟩
          · obtain ⟨rfl, -, rfl⟩ := traces_pure.1 hend
            rw [List.append_nil]
            exact .applied happly
          · cases hcontra
    · cases hcontra
  · replace hbody := traces_get_bind.1 hbody
    have hdelay' : ∃ q states, vs₂ = [⟨Op.delay, q, states⟩] ∧
        Waits (S := lang) step others Op.delay s₁ q states t := by
      rcases traces_bind.1 hdelay with ⟨u, vs₁, s', vs₂, hop, hend, rfl⟩ | ⟨e, -, hop⟩
      · obtain ⟨states, hwaits, rfl⟩ := traces_op.1 hop
        obtain ⟨rfl, -, rfl⟩ := traces_pure.1 hend
        exact ⟨_, states, rfl, hwaits⟩
      · obtain ⟨states, hwaits, rfl⟩ := traces_op.1 hop
        exact ⟨_, states, rfl, hwaits⟩
    obtain ⟨q', states', rfl, hd⟩ := hdelay'
    rcases traces_bind.1 hbody with ⟨served, vs₁, s', vs₂, hfetch, hrest, rfl⟩ | ⟨e', he, hfetch⟩
    · replace hrest := traces_get_bind.1 hrest
      split at hrest
      · have hend := traces_modify_bind.1 hrest
        cases (traces_pure.1 hend).2.1
      · cases served with
        | none => cases (traces_pure.1 hrest).2.1
        | some served =>
          rcases traces_bind.1 hrest with ⟨u, vs₁, s'', vs₂, -, hend, -⟩ | ⟨e', he, happly⟩
          · cases (traces_pure.1 hend).2.1
          · cases apply_returns options happly
    · obtain ⟨q, states, rfl, hq, hwaits⟩ := fetch_visits hfetch
      refine ⟨q, states, s₁, [⟨Op.delay, q', states'⟩], rfl, hwaits, ?_⟩
      rw [← hq]
      exact .failed hd

/-- The first state of the next request has the commit that the turn ended with. -/
theorem turn_paced {since : Option Doc} {call : Nat} {q : Except Error (Nat × List Char)} {states : List State}
    {s' : State} {rest : List (Visit lang)}
    (hwaits : Waits (S := lang) step others (Op.fetch call since) s q states s')
    (h : Turned options call step others (received q) s' rest (.ok true) t) {w : Visit lang} {a : State}
    (hw : (statesOf w).head? = some a) (ha : a.memory.commit = t.memory.commit) :
    Paced ⟨Op.fetch call since, q, states⟩ rest w ↔ Held ⟨Op.fetch call since, q, states⟩ rest := by
  have hanswer : answerOf ⟨Op.fetch call since, q, states⟩ = some q := rfl
  have hlast : states.getLast? = some s' := hwaits.last
  have hmem : s' ∈ states := hwaits.last_mem
  have hnext : (statesOf w).take 1 = [a] := by
    cases hstates : statesOf w with
    | nil =>
      rw [hstates] at hw
      cases hw
    | cons b l =>
      rw [hstates] at hw
      obtain rfl := Option.some.inj hw
      rfl
  -- A change that other calls make is a change between the requests.
  have hothers : Changed states ∨ (∃ m ∈ rest, Changed m.states) →
      Changed (between ⟨Op.fetch call since, q, states⟩ rest w) := by
    rintro (hchanged | ⟨m, hm, hchanged⟩)
    · exact hchanged.mono fun s hs => List.mem_append_left _ (List.mem_append_left _ hs)
    · refine hchanged.mono fun s hs => List.mem_append_left _ (List.mem_append_right _ ?_)
      exact List.mem_flatMap.2 ⟨m, hm, hs⟩
  constructor
  · rintro (h304 | ⟨d, hd, hdelay⟩ | hchanged)
    · exact .inl h304
    · generalize hq : received q = served at h
      cases h with
      | failed _ => exact .inr (.inl ⟨q, _, hanswer, hq⟩)
      | unchanged => cases hd
      | applied happly => exact (((apply_visits options happly).1 d hd).2 hdelay).elim
    · by_contra hheld
      have hnot : ¬ Changed states ∧ ∀ m ∈ rest, ¬ Changed m.states := by
        constructor
        · intro hc
          exact hheld (.inr (.inr (.inr (.inl hc))))
        · intro m hm hc
          exact hheld (.inr (.inr (.inr (.inr ⟨m, hm, hc⟩))))
      have hsame := same_of_not_changed hnot.1
      have hall : ∀ b ∈ between ⟨Op.fetch call since, q, states⟩ rest w,
          b.memory.commit = s'.memory.commit := by
        generalize hq : received q = served at h
        have hends : (∀ m ∈ rest, ∀ b ∈ m.states, b.memory.commit = s'.memory.commit) ∧
            t.memory.commit = s'.memory.commit := by
          cases h with
          | failed _ => exact (hheld (.inr (.inl ⟨q, _, hanswer, hq⟩))).elim
          | unchanged => exact ⟨by simp, rfl⟩
          | applied happly =>
            rename_i served r
            have hserved : served.commit = s'.memory.commit := by
              by_contra hne
              exact hheld (.inr (.inr (.inl ⟨q, served, s', hanswer, hq, hlast, hne⟩)))
            have := (apply_visits options happly).2 hnot.2
            rwa [hserved] at this
        intro b hb
        unfold between at hb
        rw [hnext] at hb
        rcases List.mem_append.1 hb with hb | hb
        · rcases List.mem_append.1 hb with hb | hb
          · exact hsame b hb s' hmem
          · obtain ⟨m, hm, hb⟩ := List.mem_flatMap.1 hb
            exact hends.1 m hm b hb
        · obtain rfl := List.mem_singleton.1 hb
          rw [ha, hends.2]
      exact not_changed hall hchanged
  · rintro (h304 | ⟨q', e, hq', herror⟩ | ⟨q', served, s'', hq', hserved, hs'', hne⟩ | hchanged)
    · exact .inl h304
    · obtain rfl := Option.some.inj hq'
      rw [herror] at h
      cases h with
      | failed _ => exact .inr (.inl ⟨_, List.mem_singleton_self _, rfl⟩)
    · obtain rfl := Option.some.inj hq'
      obtain rfl := Option.some.inj (hlast.symm.trans hs'')
      rw [hserved] at h
      refine .inr (.inr ?_)
      cases h with
      | applied happly =>
        by_cases hmid : ∃ m ∈ rest, Changed m.states
        · exact hothers (.inr hmid)
        · have hsteady := (apply_visits options happly).2 fun m hm hc => hmid ⟨m, hm, hc⟩
          refine ⟨a, ?_, s', ?_, ?_⟩
          · unfold between
            rw [hnext]
            exact List.mem_append_right _ (List.mem_singleton_self _)
          · exact List.mem_append_left _ (List.mem_append_left _ hmem)
          · rw [ha, hsteady.2]
            exact hne
    · exact .inr (.inr (hothers hchanged))

/-! ### The loop -/

theorem rest_not_request {call : Nat} {served : Except Error (Option Served)} {rest : List (Visit lang)} {b : Except Error Bool}
    (h : Turned options call step others served s rest b t) : ∀ m ∈ rest, ¬ IsRequest m := by
  cases h with
  | failed _ =>
    intro m hm
    obtain rfl := List.mem_singleton.1 hm
    intro hcontra
    cases hcontra
  | stopped _ => simp
  | unchanged => simp
  | applied happly => exact fun m hm => ((apply_visits options happly).1 m hm).1

/-- By induction on the turns: the loop begins with a request for what comes after the commit it finds, and between
any two consecutive requests the pace is kept just where it is held. -/
theorem loop_paced {call n : Nat} {r : Except Error Unit}
    (h : Traces (S := lang) step others (watchLoop options call n) s vs r t) :
    (∀ w ∈ vs.head?, IsRequest w ∧ ∃ a, (statesOf w).head? = some a ∧ a.memory.commit = s.memory.commit) ∧
      ∀ v mid w, Consecutive vs v mid w → (Paced v mid w ↔ Held v mid) := by
  have hnone : ∀ v mid w, ¬ Consecutive [] v mid w := by
    rintro v mid w ⟨before, after, heq, -⟩
    simp at heq
  induction n generalizing s vs r with
  | zero =>
    obtain ⟨rfl, -, -⟩ := traces_pure.1 h
    exact ⟨by simp, fun v mid w hc => (hnone v mid w hc).elim⟩
  | succ n ih =>
    unfold watchLoop at h
    replace h := traces_get_bind.1 h
    split at h
    · obtain ⟨rfl, -, -⟩ := traces_pure.1 h
      exact ⟨by simp, fun v mid w hc => (hnone v mid w hc).elim⟩
    · have hturn : ∃ b vs₁ s₁ vs₂, Traces (S := lang) step others (watchTurn options call) s vs₁ b s₁ ∧
          vs = vs₁ ++ vs₂ ∧ (vs₂ = [] ∨
            b = .ok true ∧ Traces (S := lang) step others (watchLoop options call n) s₁ vs₂ r t) := by
        rcases traces_bind.1 h with ⟨b, vs₁, s₁, vs₂, hturn, hrest, rfl⟩ | ⟨e, rfl, hturn⟩
        · refine ⟨_, vs₁, s₁, vs₂, hturn, rfl, ?_⟩
          cases b with
          | false => exact .inl (traces_pure.1 hrest).1
          | true => exact .inr ⟨rfl, hrest⟩
        · exact ⟨_, vs, t, [], hturn, (List.append_nil _).symm, .inl rfl⟩
      obtain ⟨b, vs₁, s₁, vs₂, hturn, rfl, hnext⟩ := hturn
      obtain ⟨q, states, s', rest, rfl, hwaits, hturned⟩ := turn_visits options hturn
      have hmid := rest_not_request options hturned
      have hhead : ∀ w ∈ vs₂.head?, IsRequest w := by
        rcases hnext with rfl | ⟨-, hloop⟩
        · simp
        · exact fun w hw => ((ih hloop).1 w hw).1
      constructor
      · intro w hw
        obtain rfl := Option.some.inj hw
        exact ⟨rfl, s.request call, hwaits.head, rfl⟩
      · intro v mid w hc
        rcases consecutive_cons hmid hhead hc with ⟨rfl, rfl, after, rfl⟩ | hc
        · rcases hnext with hnil | ⟨rfl, hloop⟩
          · cases hnil
          · obtain ⟨-, a, hstate, hcommit⟩ := (ih hloop).1 w rfl
            exact turn_paced options hwaits hturned hstate hcommit
        · rcases hnext with rfl | ⟨-, hloop⟩
          · exact (hnone v mid w hc).elim
          · exact (ih hloop).2 v mid w hc

end

/-- However the server answers and whatever the other calls of the client do, a watch never spins just where each
request that is followed by another is held: answered with 304, failed, answered with another commit than the client
has by then, or overtaken by a change that other calls make. -/
theorem watch_never_spins_iff (options : Options)
    {step : (o : Op) → State → Except Error o.Res → State → Prop} {others : State → State → Prop}
    {call turns : Nat} {s t : State} {vs : List (Visit lang)} {r : Except Error Unit}
    (h : Traces (S := lang) step others (watch options call turns) s vs r t) :
    NeverSpins vs ↔ ∀ v mid w, Consecutive vs v mid w → Held v mid := by
  have hpairs : ∀ v mid w, Consecutive vs v mid w → (Paced v mid w ↔ Held v mid) := by
    unfold watch at h
    replace h := traces_get_bind.1 h
    split at h
    · obtain ⟨rfl, -, -⟩ := traces_pure.1 h
      rintro v mid w ⟨before, after, heq, -⟩
      simp at heq
    · exact (loop_paced options (traces_modify_bind.1 h)).2
  constructor
  · intro hpaced v mid w hc
    exact (hpairs v mid w hc).1 (hpaced v mid w hc)
  · intro hheld v mid w hc
    exact (hpairs v mid w hc).2 (hheld v mid w hc)

/-! ### A namespace that is refused -/

/-- Operations leave the client as it was. -/
def untouched (o : Op) (s : State) (_ : Except Error o.Res) (s' : State) : Prop := s' = s

/-- The request of a turn that is answered with 403. -/
def refused (call : Nat) (s : State) : Visit lang :=
  ⟨Op.fetch call (s.memory.commit.filter truthy), (.ok (403, []) : Except Error (Nat × List Char)),
    [s.request call, s.request call]⟩

theorem refused_turn {options : Options} {call : Nat} {s : State} (hs : s.aborted.contains call = false) :
    Traces (S := lang) untouched (fun _ _ => False) (watchTurn options call) s [refused call s] (.ok true)
      (s.request call) := by
  have hfetch : Traces (S := lang) untouched (fun _ _ => False) (fetch call s.memory.commit) s [refused call s]
      (.ok none) (s.request call) :=
    traces_modify_bind.2 (.await (.here _) rfl (.here _) (.done _ _))
  refine traces_handle.2 (.inl ⟨true, rfl, traces_get_bind.2 (traces_bind.2 (.inl ⟨none, _, _, [], hfetch, ?_, rfl⟩))⟩)
  refine traces_get_bind.2 ?_
  have hs' : (s.request call).aborted.contains call = false := hs
  rw [hs']
  exact .done _ _

/-- The client when its watch has begun, and when it has sent its first request. -/
def begun : State := { watchAbort := some 0 }

def asked : State := begun.request 0

/-- A watch that is refused twice. -/
def refusals : List (Visit lang) := [refused 0 begun, refused 0 asked]

theorem refusals_traced (options : Options) : Traces (S := lang) untouched (fun _ _ => False)
    (watch options 0 2) {} refusals (.ok ()) (asked.request 0) := by
  refine traces_get_bind.2 (traces_modify_bind.2 ?_)
  refine traces_get_bind.2 (traces_bind.2 (.inl ⟨true, [_], asked, [_], refused_turn rfl, ?_, rfl⟩))
  exact traces_get_bind.2 (traces_bind.2 (.inl ⟨true, [_], _, [], refused_turn rfl, .done _ _, rfl⟩))

theorem refusals_consecutive : Consecutive refusals (refused 0 begun) [] (refused 0 asked) :=
  ⟨[], [], rfl, rfl, rfl, by simp⟩

/-- A watch of a namespace that is refused requests without pause. -/
theorem refused_watch_spins : ¬ ∀ (options : Options) (step : (o : Op) → State → Except Error o.Res → State → Prop)
    (others : State → State → Prop) (call turns : Nat) (s t : State) (vs : List (Visit lang)) (r : Except Error Unit),
    Traces (S := lang) step others (watch options call turns) s vs r t → NeverSpins vs := by
  intro h
  have hspins := h _ _ _ _ _ _ _ _ _ (refusals_traced ⟨"web".toList, "prod".toList, none⟩)
  rcases hspins _ _ _ refusals_consecutive with ⟨body, h304⟩ | ⟨d, hd, -⟩ | hchanged
  · cases h304
  · cases hd
  · have hstates : between (refused 0 begun) [] (refused 0 asked) = [asked, asked, asked.request 0] := rfl
    rw [hstates] at hchanged
    refine @not_changed _ (some .null) ?_ hchanged
    simp [asked, begun, State.request]

theorem refused_watch_spins_iff :
    NeverSpins refusals ↔ ∀ v mid w, Consecutive refusals v mid w → Held v mid :=
  watch_never_spins_iff ⟨"web".toList, "prod".toList, none⟩ (refusals_traced ⟨"web".toList, "prod".toList, none⟩)

end ConfigRegistry.Client
