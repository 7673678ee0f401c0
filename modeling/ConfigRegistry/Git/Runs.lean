import ConfigRegistry.Git.Syncing

/-!
# Runs of one activity at a time

Who takes the clone and gives it back: a call of `syncNow` that starts a sync, and every retry and
pull. In runs where these come in turn, everything stays sound (`sound_of_reach`).
-/

namespace ConfigRegistry.Git

open Js Async

variable {rules : Rules} {terms : Terms} {t : Nat}

/-- Call `t` does not have the clone. -/
def Without (t : Nat) (x : World State Unit) : Prop := ¬ x.state.Holds t

theorem stable_without (t : Nat) : (taking rules terms).Stable t (Without t) :=
  fun _ _ h hr _ hy => h (hr.holds.1 hy)

/-- Call `t` has just arrived. -/
structure Arriving (t : Nat) (K : State → Prop) (x : World State Unit) : Prop where
  without : ¬ x.state.Holds t
  unmarked : ¬ x.state.Marked t
  knows : K x.state

theorem ready_parked {x : World State Unit} : (taking rules terms).parked t .ready x :=
  fun h => nomatch h

/-- A call that holds nothing awaits an operation that changes at most the database. -/
theorem without_op {o : Op}
    (hs : ∀ s r s', (sem rules).step o s r s' → s' = s ∨ ∃ files, s' = { s with db := s.db.publish files }) :
    (taking rules terms).Triple (sem rules) t (Without t) (op o) fun _ => Without t := by
  have hperforms : (taking rules terms).Performs (sem rules) t (Without t) o
      fun _ => Without t := by
    refine ⟨stable_without t, fun _ _ _ h => (nomatch h), fun _ => stable_without t, ?_,
      fun _ _ _ _ h => h.elim⟩
    intro x r s' hx hi _ h
    obtain rfl | ⟨files, rfl⟩ := hs _ _ _ h
    · exact ⟨x.ghost, trivial, .refl hi, hx⟩
    · have hext : x.state.db.Extends (x.state.db.publish files) :=
        Store.Versions.extends_publish files
      refine ⟨x.ghost, trivial, keeps_of hi (Sound.db hi hext) ?_ (.inr (.inl ⟨_, _, rfl⟩)), hx⟩
      exact ⟨hext, fun _ _ => .rfl, fun _ _ => id⟩
  exact hperforms.triple

theorem write_triple (files : Store.Tree) :
    (taking rules terms).Triple (sem rules) t (Without t) (op (.publish files))
      fun _ => Without t := by
  refine without_op fun s r s' h => ?_
  cases r with
  | ok a => exact .inr ⟨files, h⟩
  | error e => exact .inl h

theorem joined_triple (t' : Nat) :
    (taking rules terms).Triple (sem rules) t (Without t) (op (.joined t')) fun _ => Without t := by
  refine without_op fun s r s' h => ?_
  cases r with
  | ok a => exact .inl h.2
  | error e => exact .inl h.2

/-! ### Taking the clone and giving it back -/

/-- A call that is given the promise of the running sync. -/
theorem Sound.call {s : State} (h : Sound rules terms s) {t' : Nat} (hrun : s.running = some t') :
    Sound rules terms (s.call t') := by
  have hlate {m : Nat} (hm : s.taken = some m) (hl : s.taken.any (· < s.db.revision) = false) :
      s.db.revision ≤ m := by
    rw [hm] at hl
    simpa using hl
  refine { h with calls := fun c hc => ?_, snapshot := fun c hc hr hl m hm => ?_,
                  inTime := fun c hc e he hsync hfresh hl => ?_ }
  · obtain rfl | hc := List.mem_cons.1 hc
    · exact Nat.le_refl _
    · exact h.calls c hc
  · obtain rfl | hc := List.mem_cons.1 hc
    · exact hlate hm hl
    · exact h.snapshot c hc hr hl m hm
  · obtain rfl | hc := List.mem_cons.1 hc
    · have htaken := h.answered e he hfresh (by rw [hsync]; exact hrun)
      exact hlate htaken hl
    · exact h.inTime c hc e he hsync hfresh hl

/-- Nobody has the clone. -/
theorem holds_none {s : State} (hrun : s.running = none) (hbusy : s.busy = []) (u : Nat) :
    ¬ s.Holds u := by
  simp [State.Holds, hrun, hbusy]

/-- A sync starts while nothing else is in progress. -/
theorem Sound.start {s : State} (h : Sound rules terms s) (hbusy : s.busy = [])
    (hmark : ¬ s.Marked t) : Sound rules terms (s.start t) := by
  have hfresh : ∀ e ∈ s.settled, e.sync ≠ t := fun e he heq => hmark (.inr ⟨e, he, heq⟩)
  have hbase : Sound rules terms { s with running := some t, taken := none } :=
    { h with
      one := by simp [hbusy]
      latest := fun u hu => by
        have hut : u = t := by
          simp only [State.Holds, hbusy, List.not_mem_nil, or_false, Option.some.injEq] at hu
          exact hu.symm
        subst hut
        exact latest_of_notMem fun hm => hmark (.inl hm)
      snapshot := fun _ _ _ _ _ hm => nomatch hm
      answered := fun e he _ hr => (hfresh e he (Option.some.inj hr).symm).elim }
  exact hbase.call rfl

/-- The promise of the running sync is settled. -/
theorem Sound.settle {s : State} (h : Sound rules terms s) (hrun : s.running = some t)
    {result : Except Error Backup.SyncResult} (hf : Finished rules t result s) :
    Sound rules terms (s.settle t result) := by
  refine { h with settled := fun e he hfresh => ?_, answered := fun e he hfresh hr => ?_,
                  inTime := fun c hc e he hsync hfresh hl => ?_ }
  · obtain rfl | he := List.mem_cons.1 he
    · obtain ⟨hof, -, hcarries⟩ := hf hfresh
      exact ⟨hof, hcarries⟩
    · exact h.settled e he hfresh
  · obtain rfl | he := List.mem_cons.1 he
    · exact (hf hfresh).2.1
    · exact h.answered e he hfresh hr
  · obtain rfl | he := List.mem_cons.1 he
    · exact h.snapshot c hc (hrun.trans (congrArg some hsync)) hl _ (hf hfresh).2.1
    · exact h.inTime c hc e he hsync hfresh hl

/-- The running sync is the only activity. -/
theorem Sound.busy_of_running {s : State} (h : Sound rules terms s) (hrun : s.running = some t) :
    s.busy = [] := by
  have hone := h.one
  rw [hrun] at hone
  refine List.eq_nil_of_length_eq_zero ?_
  simp at hone
  simp [hone]

/-- A retry or pull in progress is the only activity. -/
theorem Sound.of_busy {s : State} (h : Sound rules terms s) (ht : t ∈ s.busy) :
    s.running = none ∧ s.busy = [t] := by
  have hone := h.one
  match hb : s.busy with
  | [] => simp [hb] at ht
  | [u] =>
    rw [hb, List.mem_singleton] at ht
    subst ht
    cases hr : s.running with
    | none => exact ⟨rfl, rfl⟩
    | some v => simp [hb, hr] at hone
  | u :: v :: rest =>
    simp only [hb, List.length_append, List.length_cons] at hone
    omega

theorem Sound.clear {s : State} (h : Sound rules terms s) (hrun : s.running = some t) :
    Sound rules terms s.clear where
  one := by simp [State.clear, h.busy_of_running hrun]
  apart := h.apart
  grouped := h.grouped
  latest u hu := h.latest u (hu.elim (fun hn => nomatch hn) .inr)
  moves := h.moves
  made := h.made
  settled := h.settled
  calls := h.calls
  snapshot _ _ hr := nomatch hr
  answered _ _ _ hr := nomatch hr
  inTime := h.inTime
  served := h.served
  pulled := h.pulled

theorem Sound.enter {s : State} (h : Sound rules terms s) (hrun : s.running = none)
    (hbusy : s.busy = []) (hmark : ¬ s.Marked t) (hapart : terms.apart) :
    Sound rules terms (s.enter t) :=
  { h with
    one := by simp [State.enter, hrun, hbusy]
    apart := fun hn => (hn hapart).elim
    latest := fun u hu => by
      have hut : u = t := by
        simpa [State.Holds, State.enter, hrun, hbusy] using hu
      subst hut
      exact latest_of_notMem fun hm => hmark (.inl hm) }

theorem Sound.leave {s : State} (h : Sound rules terms s) (ht : t ∈ s.busy) :
    Sound rules terms (s.leave t) := by
  obtain ⟨hrun, hbusy⟩ := h.of_busy ht
  have hnone : (s.leave t).busy = [] := by simp [State.leave, hbusy]
  exact
    { h with
      one := by
        rw [hnone]
        simp [State.leave, hrun]
      apart := fun _ => hnone
      latest := fun u hu => (holds_none (s := s.leave t) hrun hnone u hu).elim }

/-- A turn of the call that has the clone, or takes it from nobody. -/
theorem keeps_turn {x : World State Unit} {s' : State} (hi : Sound rules terms x.state)
    (hi' : Sound rules terms s') (hdb : s'.db = x.state.db)
    (hholds : ∀ u, u ≠ t → (s'.Holds u ↔ x.state.Holds u))
    (hmarked : ∀ u, u ≠ t → s'.Marked u → x.state.Marked u)
    (hframe : x.state.Holds t ∨ Frame x.state s' ∨ ∀ u, ¬ x.state.Holds u) :
    (taking rules terms).Keeps t x ⟨s', x.ghost⟩ :=
  keeps_of hi hi' ⟨by rw [hdb]; exact .refl, hholds, hmarked⟩ hframe

/-- A sync of its own: it runs, its promise is settled, and whoever awaited it goes on. -/
theorem ownSync_triple :
    (taking rules terms).Triple (sem rules) t
      (Arriving t fun s => s.running = none ∧ s.busy = [])
      (do
        Prog.modify (S := lang) fun s => s.start t
        let r ← (SyncEngine.performSync t).attempt
        Prog.modify (S := lang) fun s => s.settle t r
        Prog.ensure (op (.joined t)) (Prog.modify (S := lang) State.clear))
      fun _ => Without t := by
  -- The slot is taken.
  refine Discipline.Triple.bind (R := (taking rules terms).Outcome
    (fun _ => Holding .sync t fun s => ∀ e ∈ s.settled, e.sync ≠ t) fun _ _ => False) ?_
    (fun _ => ?_) fun _ _ _ h => h.elim
  · refine .modify (fun _ _ _ => ready_parked) fun x h hi => ?_
    obtain ⟨hrun, hbusy⟩ := h.knows
    refine ⟨x.ghost, trivial, keeps_turn hi (Sound.start hi hbusy h.unmarked) rfl
      (fun u hu => ?_) (fun _ _ => id) (.inr (.inr (holds_none hrun hbusy))), rfl, ?_⟩
    · simp [State.Holds, State.start, State.call, hrun, hbusy, Ne.symm hu]
    · exact fun e he heq => h.unmarked (.inr ⟨e, he, heq⟩)
  -- The sync runs.
  have hsync : (taking rules terms).Triple (sem rules) t
      (Holding .sync t fun s => ∀ e ∈ s.settled, e.sync ≠ t) (SyncEngine.performSync t).attempt
      ((taking rules terms).Outcome (fun r => Holding .sync t (Finished rules t r))
        fun _ _ => False) := by
    refine Discipline.Triple.attempt (S := lang)
      (Discipline.Triple.conseq (fun _ _ h => h) ?_ (performSync_works t))
    intro r x _ h
    cases r with
    | ok r => exact h
    | error e =>
      refine ⟨h.has, finished_deferred t ?_⟩
      intro _ h
      cases h
  refine Discipline.Triple.bind hsync (fun r => ?_) fun _ _ _ h => h.elim
  -- Its promise is settled.
  refine Discipline.Triple.bind (R := (taking rules terms).Outcome
    (fun _ => Holding .sync t fun _ => True) fun _ _ => False) ?_ (fun _ => ?_)
    fun _ _ _ h => h.elim
  · refine .modify (fun _ _ _ => ready_parked) fun x h hi => ?_
    have hx : Holding .sync t (Finished rules t r) x := h
    refine ⟨x.ghost, trivial, keeps_turn hi (Sound.settle hi hx.has hx.knows) rfl
      (fun _ _ => .rfl) (fun u hu hm => ?_) (.inl hx.has.holds), hx.has, trivial⟩
    obtain hm | ⟨e, he, rfl⟩ := hm
    · exact .inl hm
    · obtain rfl | he := List.mem_cons.1 he
      · exact (hu rfl).elim
      · exact .inr ⟨e, he, rfl⟩
  -- The slot is cleared.
  have hjoined : Works rules terms .sync t (fun _ => True) (op (.joined t)) (fun _ _ => True)
      fun _ => True :=
    works_idle steady_true (fun _ _ _ h => h.2) fun _ _ _ h => h.2
  refine Discipline.Triple.ensure (Q := fun _ => Without t) hjoined fun r => ?_
  refine .modify (fun _ _ _ => ready_parked) fun x h hi => ?_
  have hx : x.state.running = some t := by
    cases r with
    | ok a => exact h.has
    | error e => exact h.has
  have hbusy := Sound.busy_of_running hi hx
  refine ⟨x.ghost, trivial, keeps_turn hi (Sound.clear hi hx) rfl (fun u hu => ?_)
    (fun _ _ => id) (.inl (.inl hx)), ?_⟩
  · simp [State.Holds, State.clear, hx, hbusy, Ne.symm hu]
  · exact holds_none (s := x.state.clear) rfl hbusy t

/-- `syncNow`, where nothing but a sync is in progress. -/
theorem syncNow_triple :
    (taking rules terms).Triple (sem rules) t
      (Arriving t fun s => s.running ≠ none ∨ s.busy = []) (SyncEngine.syncNow t)
      fun _ => Without t := by
  unfold SyncEngine.syncNow
  refine .get_bind (fun _ _ _ => ready_parked) fun s => ?_
  split
  · rename_i t' hrun
    refine Discipline.Triple.bind (R := (taking rules terms).Outcome (fun _ => Without t)
      fun _ _ => False) ?_ (fun _ => joined_triple t') fun _ _ _ h => h.elim
    refine .modify (fun _ _ _ => ready_parked) ?_
    rintro x ⟨h, rfl⟩ hi
    exact ⟨x.ghost, trivial, keeps_turn hi (Sound.call hi hrun) rfl (fun _ _ => .rfl)
      (fun _ _ => id) (.inr (.inl ⟨_, _, rfl⟩)), h.without⟩
  · rename_i hrun
    refine Discipline.Triple.conseq ?_ (fun _ _ _ h => h) ownSync_triple
    rintro x - ⟨h, rfl⟩
    exact ⟨h.without, h.unmarked, hrun, h.knows.resolve_left fun hne => hne hrun⟩

/-! ### Retries and pulls -/

/-- A retry or pull takes the clone and gives it back, however it ends. -/
theorem during_triple {p : Prog lang Unit} (hapart : terms.apart)
    (hp : Works rules terms .apart t (Tidy rules terms) p (fun _ _ => True) fun _ => True) :
    (taking rules terms).Triple (sem rules) t
      (Arriving t fun s => s.running = none ∧ s.busy = [] ∧ Tidy rules terms s) (during t p)
      fun _ => Without t := by
  unfold during
  refine Discipline.Triple.bind (R := (taking rules terms).Outcome
    (fun _ => Holding .apart t (Tidy rules terms)) fun _ _ => False) ?_ (fun _ => ?_)
    fun _ _ _ h => h.elim
  · refine .modify (fun _ _ _ => ready_parked) fun x h hi => ?_
    obtain ⟨hrun, hbusy, htidy⟩ := h.knows
    refine ⟨x.ghost, trivial, keeps_turn hi (Sound.enter hi hrun hbusy h.unmarked hapart) rfl
      (fun u hu => ?_) (fun _ _ => id) (.inr (.inr (holds_none hrun hbusy))), .head _, htidy⟩
    simp [State.Holds, State.enter, hrun, hbusy, hu]
  · refine Discipline.Triple.ensure (Q := fun _ => Without t) hp fun r => ?_
    refine .modify (fun _ _ _ => ready_parked) fun x h hi => ?_
    have hx : t ∈ x.state.busy := by
      cases r with
      | ok a => exact h.has
      | error e => exact h.has
    obtain ⟨hrun, hbusy⟩ := Sound.of_busy hi hx
    have hnone : (x.state.leave t).busy = [] := by simp [State.leave, hbusy]
    refine ⟨x.ghost, trivial, keeps_turn hi (Sound.leave hi hx) rfl (fun u hu => ?_)
      (fun _ _ => id) (.inl (.inr hx)), holds_none (s := x.state.leave t) hrun hnone t⟩
    simp [State.Holds, State.leave, hrun, hbusy, hu]

section

variable (t)

theorem headCommit_works {role : Role} {K : State → Prop} (hK : Steady K)
    (hlog : ∀ s o dirty, K s → K (s.log t o dirty)) :
    Works rules terms role t K (GitRepository.headCommit t) (fun _ => K) fun _ => True :=
  works_plainly hK (fun _ => hK) rfl (fun _ h => nomatch h) fun s a s₁ h he => by
    obtain ⟨-, rfl⟩ := he
    exact hlog _ _ _ h

theorem retryUnpushed_works :
    Works rules terms .apart t (Tidy rules terms) (retryUnpushed t) (fun _ _ => True)
      fun _ => True := by
  unfold retryUnpushed
  have hunpushed : Works rules terms .apart t (Tidy rules terms)
      (GitRepository.unpushedCommits t) (fun _ => Tidy rules terms) (Tidy rules terms) := by
    unfold GitRepository.unpushedCommits
    refine Works.bind (R := fun _ => Tidy rules terms) ?_ fun remote => ?_
    · exact works_elsewhere steady_tidy (fun _ => steady_tidy) steady_tidy
        (fun s a s' hi hh hk h => by
          obtain rfl := h
          exact ⟨hi, .refl t s', hh, hk⟩)
        fun _ _ _ _ h => h.elim
    · cases remote with
      | none => exact .pure _ fun _ h => h
      | some remote =>
        refine Works.handle (E := Tidy rules terms) ?_ fun _ => .pure _ fun _ h => h
        exact works_on steady_tidy (fun _ => steady_tidy) steady_tidy
          (fun s a s₁ h he => by
            obtain ⟨-, rfl⟩ := he
            exact h)
          (fun s e s₁ h he => by
            obtain rfl := he
            exact h)
          (fun _ _ h => nomatch h) fun _ _ _ h => nomatch h
  have hpush : Works rules terms .apart t (Tidy rules terms)
      (do let _ ← GitRepository.push t; pure ()) (fun _ _ => True) fun _ => True :=
    .bind (.conseq (fun _ h => ⟨trivial, h⟩) (fun _ _ h => h) (fun _ h => h)
      (push_works t lasting_true)) fun _ => .pure _ fun _ _ => trivial
  refine hunpushed.attempt_bind (fun pending => ?_) fun e => .pure _ fun _ _ => trivial
  split
  · exact .pure _ fun _ _ => trivial
  · exact hpush

theorem pull_works :
    Works rules terms .apart t (Tidy rules terms) (GitRepository.pull t) (fun _ _ => True)
      fun _ => True := by
  unfold GitRepository.pull
  refine (works_idle (o := .remote) steady_tidy (fun _ _ _ h => h)
    fun _ _ _ h => h.elim).bind fun remote => ?_
  have hhead : Works rules terms .apart t (fun _ => True) (GitRepository.headCommit t)
      (fun _ _ => True) fun _ => True := headCommit_works t steady_true fun _ _ _ h => h
  cases remote with
  | none => exact .conseq (fun _ _ => trivial) (fun _ _ h => h) (fun _ h => h) hhead
  | some remote =>
    have hmerge : Works rules terms .apart t (Tidy rules terms) (on t .merge) (fun _ _ => True)
        fun _ => True :=
      works_on steady_tidy (fun _ => steady_true) steady_true (fun _ _ _ _ _ => trivial)
        (fun _ _ _ _ _ => trivial) (fun _ h _ => h) fun _ _ _ h => nomatch h
    refine Works.bind (.conseq (fun _ h => ⟨trivial, h⟩) (fun _ _ h => h.2) (fun _ h => h)
      (fetch_works t lasting_true)) fun _ => hmerge.bind fun _ => hhead

theorem reload_works :
    Works rules terms .apart t (fun _ => True) (reloadFromRepository t) (fun _ _ => True)
      fun _ => True := by
  unfold reloadFromRepository GitRepository.readSources
  have hhead : Works rules terms .apart t (fun _ => True) (GitRepository.headCommit t)
      (fun _ _ => True) fun _ => True := headCommit_works t steady_true fun _ _ _ h => h
  have hread : Works rules terms .apart t (fun _ => True) (op .readSources) (fun _ _ => True)
      fun _ => True :=
    works_idle steady_true (fun _ _ _ h => h) fun _ _ _ h => h
  have hreload : Works rules terms .apart t (fun _ => True) (op .reload) (fun _ _ => True)
      fun _ => True := by
    refine works_elsewhere steady_true (fun _ => steady_true) steady_true ?_
      fun s e s' _ h => ⟨h, trivial⟩
    rintro s a s' hi hh - rfl
    refine ⟨{ hi with served := fun r files h => ?_ }, ⟨.refl, fun _ _ => .rfl, fun _ _ => id⟩,
      hh, trivial⟩
    obtain ⟨rfl, rfl⟩ := Prod.mk.inj (Option.some.inj h)
    exact ⟨Nat.le_refl _, rfl⟩
  refine Works.bind (hhead.bind fun commit => hread.bind fun _ => .pure _ fun _ h => h)
    fun commit => ?_
  refine Discipline.Triple.get_bind (fun _ _ _ => ready_parked) fun s => ?_
  refine Discipline.Triple.conseq (fun _ _ h => h.1) (fun _ _ _ h => h) ?_
  dsimp only
  split
  · exact Works.pure _ fun _ h => h
  · exact hhead.attempt_bind (fun _ => hreload) fun _ => hreload

theorem webhook_works :
    Works rules terms .apart t (Tidy rules terms) (do
      let _ ← GitRepository.pull t
      reloadFromRepository t) (fun _ _ => True) fun _ => True :=
  (pull_works t).bind fun _ => reload_works t

theorem poll_works :
    Works rules terms .apart t (Tidy rules terms) (Prog.handle (do
      let _ ← (GitRepository.pull t).attempt
      reloadFromRepository t) fun _ => pure ()) (fun _ _ => True) fun _ => True :=
  Works.handle ((pull_works t).attempt_bind (fun _ => reload_works t) fun _ => reload_works t)
    fun _ => .pure _ fun _ h => h

end

/-! ### Every run -/

variable (rules terms) in
/-- Requests come in turn: a retry or pull when nothing is in progress, and to a clean clone if that
is promised; a sync when nothing but a sync is. -/
structure InTurn (asks : State → Request → Prop) : Prop where
  sync : ∀ s, asks s .sync → s.running ≠ none ∨ s.busy = [] ∨ ¬ terms.apart
  apart : ∀ s c, asks s c → c.apart = true →
    terms.apart ∧ s.running = none ∧ s.busy = [] ∧ Tidy rules terms s

theorem serve_triple {asks : State → Request → Prop} (hturn : InTurn rules terms asks)
    (c : Request) : (taking rules terms).Triple (sem rules) t (Arriving t fun s => asks s c)
      (serve t c) fun _ => Without t := by
  have happly {c : Request} (hc : c.apart = true) {p : Prog lang Unit}
      (hp : Works rules terms .apart t (Tidy rules terms) p (fun _ _ => True) fun _ => True) :
      (taking rules terms).Triple (sem rules) t (Arriving t fun s => asks s c) (during t p)
        fun _ => Without t := fun x hx hi =>
    have hk := hturn.apart _ c hx.knows hc
    during_triple hk.1 hp x ⟨hx.without, hx.unmarked, hk.2⟩ hi
  cases c with
  | write files =>
    exact Discipline.Triple.conseq (fun _ _ h => h.without) (fun _ _ _ h => h) (write_triple files)
  | sync =>
    refine Discipline.Triple.bind (R := fun _ => Without t) ?_
      (fun _ => .done fun _ h _ => h) fun _ _ _ h => h
    intro x hx hi
    refine syncNow_triple x ⟨hx.without, hx.unmarked, ?_⟩ hi
    obtain h | h | h := hturn.sync _ hx.knows
    · exact .inl h
    · exact .inr h
    · exact .inr (hi.apart h)
  | retry => exact happly rfl (retryUnpushed_works t)
  | webhook => exact happly rfl (webhook_works t)
  | poll => exact happly rfl (poll_works t)

/-- Every call of the service takes its turn. -/
def turns {asks : State → Request → Prop} (hturn : InTurn rules terms asks) :
    Contract (taking rules terms) (service rules asks) where
  post _ _ _ _ := True
  born _ _ _ _ := True
  crashed _ _ := True
  post_rely _ _ _ := trivial
  arrive {p c x} hst hc := by
    obtain ⟨hwithout, hunmarked⟩ := hst.unborn p.threads.length (Nat.le_refl _)
    refine ⟨x.ghost, trivial, .refl hst.inv, ?_⟩
    refine Contract.wp_of_triple (serve_triple hturn c) ⟨hwithout, hunmarked, ?_⟩ hst.inv ?_
    · rw [hst.state]
      exact hc
    · intro r y hi hy
      exact ⟨y.ghost, trivial, .refl hi, fun _ => hy, trivial⟩
  allowed _ _ _ _ := trivial
  crash _ h := h.elim

theorem Init.sound {s : State} (h : Init s) : Sound rules terms s where
  one := by simp [h.running, h.busy]
  apart _ := h.busy
  grouped := by
    rintro ⟨a, b, -, hsub⟩
    rw [State.activities, h.trace] at hsub
    cases hsub
  latest t ht := (holds_none h.running h.busy t ht).elim
  moves := by simp [h.trace]
  made := by simp [h.made]
  settled := by simp [h.settled]
  calls := by simp [h.calls]
  snapshot := by simp [h.calls]
  answered := by simp [h.settled]
  inTime := by simp [h.calls]
  served := h.served
  pulled := by simp [h.pulled]

/-- Every run of one activity at a time is sound. -/
theorem sound_of_reach {asks : State → Request → Prop} (hturn : InTurn rules terms asks)
    {p : Pool lang Request Unit} (h : Reach (service rules asks) Init p) :
    Sound rules terms p.state := by
  obtain ⟨s, hs, hsteps⟩ := h
  have hstart : (turns hturn).Good ⟨s, []⟩ ⟨s, ()⟩ :=
    .start hs.sound fun t => ⟨holds_none hs.running hs.busy t, fun hm => by
      obtain hm | ⟨e, he, -⟩ := hm
      · simp [State.activities, hs.trace] at hm
      · simp [hs.settled] at he⟩
  obtain ⟨x, hx, -⟩ := hstart.steps hsteps
  rw [← hx.state]
  exact hx.inv

end ConfigRegistry.Git
