import ConfigRegistry.Async.Accord
import ConfigRegistry.Publish.Activities

/-!
# The commit that is reported as synced

The cache is told of a commit by a sync that has pushed, of the one that it made before the push, and by
the boot, of HEAD. This file shows that the remote has the commit in the runs in which HEAD is on the
remote at a boot and no rebase takes a sync's commit from HEAD before it is pushed, and gives a run with
such a rebase.
-/

namespace ConfigRegistry.Publish

open Js Async Backup
open Accord (Idle)

/-- What the cache reports is null, or a commit that the remote's `main` has. -/
def Provenance (s : State) : Prop := ∀ sha, s.synced = some sha → s.Has sha

/-- HEAD is on the remote. -/
def State.HeadPublished (s : State) : Prop := ∀ sha, s.clone.head.head? = some sha → s.Has sha

/-- The condition on steps: nobody takes a commit from the remote's `main`; a boot finds HEAD on the
remote, and can read it when it falls back; and a push of a sync that succeeds finds its commit in
HEAD. -/
def faithful : (o : Op) → State → Except Error o.Res → Prop
  | .upstream main, s, _ => ∀ old, s.remote = some old → old ⊆ main
  | .headCommit .boot, s, _ => s.HeadPublished
  | .headCommit .fallback, s, r => r.isOk = true ∧ s.HeadPublished
  | .push _ (some sha), s, r => r.isOk = true → sha ∈ s.clone.head
  | _, _, _ => True

/-- The operations in the runs that meet the condition. -/
abbrev semFaithful : Sem lang := sem.restrict faithful (fun _ _ _ => True) fun _ => True

/-- The service in these runs. -/
def serviceFaithful (hasRemote : Bool) : System lang Request Answer :=
  { service hasRemote with sem := semFaithful }

theorem untorn : ∀ o s s', ¬ semFaithful.torn o s s' := fun _ _ _ h => h.2

/-- The remote's `main` has no commit less. -/
def Grows (s s' : State) : Prop := ∀ old, s.remote = some old → ∃ main, s'.remote = some main ∧ old ⊆ main

theorem Grows.refl (s : State) : Grows s s := fun old h => ⟨old, h, List.Subset.refl old⟩

theorem Grows.of_eq {s s' : State} (h : s'.remote = s.remote) : Grows s s' :=
  fun old hold => ⟨old, h.trans hold, List.Subset.refl old⟩

theorem Grows.has {s s' : State} (h : Grows s s') {sha : Sha} (hs : s.Has sha) : s'.Has sha := by
  obtain ⟨old, hold, hmem⟩ := hs
  obtain ⟨main, hmain, hsub⟩ := h old hold
  exact ⟨main, hmain, hsub hmem⟩

/-- What an operation may do: the remote grows, and what the cache reports stays. -/
theorem grows_of_step {o : Op} {s s' : State} {r : Except Error o.Res}
    (h : semFaithful.step o s r s') : Grows s s' ∧ s'.synced = s.synced := by
  obtain ⟨hmay, hs⟩ := h
  have heffect := effect_of_step hs
  refine ⟨?_, heffect.synced⟩
  cases heffect.refs with
  | same hremote => exact .of_eq hremote
  | pushed hff hremote | unheard hff hremote =>
    exact fun old hold => ⟨_, hremote, hff old hold⟩
  | fetched main hbefore hafter => exact .of_eq (hafter.trans hbefore.symm)
  | upstream main ho hremote =>
    subst ho
    exact fun old hold => ⟨main, hremote, hmay old hold⟩

/-- Calls keep the provenance, and the remote grows. -/
def accord : Accord lang where
  inv := Provenance
  rely _ := Grows
  fresh _ _ := True
  rely_refl _ := Grows.refl
  rely_trans _ _ _ _ h h' := fun old hold => by
    obtain ⟨main, hmain, hsub⟩ := h old hold
    obtain ⟨main', hmain', hsub'⟩ := h' main hmain
    exact ⟨main', hmain', List.Subset.trans hsub hsub'⟩
  fresh_rely _ _ _ h _ := h

variable {t : Nat}

theorem stable_true : accord.Stable t fun _ => True := fun _ _ _ _ _ => trivial

/-- What keeps the report, and lets the remote grow. -/
theorem keeps_of_grows {s s' : State} (hi : Provenance s) (h : Grows s s') (hsynced : s'.synced = s.synced) :
    accord.Keeps t s s' :=
  ⟨fun sha hsha => h.has (hi sha (hsynced ▸ hsha)), fun _ _ => h⟩

/-- An operation, with what is known of its answer. -/
theorem op_runs {o : Op} {Q : Except Error o.Res → State → Prop} (hQ : ∀ r, accord.Stable t (Q r))
    (h : ∀ s r s', semFaithful.step o s r s' → Q r s') :
    accord.Runs semFaithful t (fun _ => True) (op o) Q := by
  refine .op_untorn untorn stable_true hQ (fun _ _ _ => trivial) fun s r s' _ hi hs => ⟨?_, h s r s' hs⟩
  obtain ⟨hgrows, hsynced⟩ := grows_of_step hs
  exact keeps_of_grows hi hgrows hsynced

/-- A program that may run at any time, and leaves nothing to be known. -/
abbrev Unbound {α : Type} (t : Nat) (p : Prog lang α) : Prop :=
  accord.Idle semFaithful t (fun _ => True) p

theorem idle_op (o : Op) : Unbound t (op o) := op_runs (fun _ => stable_true) fun _ _ _ _ => trivial

theorem idle_modify {f : State → State} (hremote : ∀ s, (f s).remote = s.remote)
    (hsynced : ∀ s, (f s).synced = s.synced) : Unbound t (Prog.modify (S := lang) f) :=
  Accord.Runs.modify fun s _ hi => ⟨keeps_of_grows hi (.of_eq (hremote s)) (hsynced s), trivial⟩

/-! ### Pushes -/

/-- The remote has the commit that was to be published. -/
def Published (made : Option Sha) (s : State) : Prop := ∀ sha, made = some sha → s.Has sha

theorem stable_published (made : Option Sha) : accord.Stable t (Published made) :=
  fun _ _ h hr _ sha hsha => Grows.has hr (h sha hsha)

theorem stable_ok {α : Type} {P : State → Prop} (hP : accord.Stable t P) (r : Except Error α) :
    accord.Stable t fun s => r.isOk = true → P s :=
  fun s s' h hr hi hok => hP s s' (h hok) hr hi

/-- A push that succeeds leaves the remote with HEAD. -/
theorem push_op_runs (made : Option Sha) :
    accord.Runs semFaithful t (fun _ => True) (op (.push t made)) fun r s =>
      r.isOk = true → Published made s := by
  refine op_runs (fun r => stable_ok (stable_published made) r) fun s r s' hs hok sha hsha => ?_
  subst hsha
  cases r with
  | error e => cases hok
  | ok a =>
    obtain ⟨hmay, -, rfl⟩ := hs
    exact ⟨_, rfl, hmay hok⟩

/-- A push that reports success has published. -/
def Pushed (made : Option Sha) (result : PushResult) (s : State) : Prop :=
  result.pushed = true → Published made s

abbrev Pushes (t : Nat) (made : Option Sha) (p : Prog lang PushResult) : Prop :=
  accord.Runs semFaithful t (fun _ => True) p (Accord.Returned (Pushed made))

theorem refused (made : Option Sha) (reason : Option String) :
    Pushes t made (Pure.pure { pushed := false, reason }) := by
  refine .pure fun _ _ _ hpushed => ?_
  cases hpushed

/-- The push, with `recover` where it fails. -/
theorem pushes_handle {made : Option Sha} {recover : Error → Prog lang PushResult}
    (h : ∀ e, Pushes t made (recover e)) :
    Pushes t made (Prog.handle (do
      op (.push t made)
      pure { pushed := true }) recover) := by
  have hpush : accord.Runs semFaithful t (fun _ => True) (do
      op (.push t made)
      pure { pushed := true }) (Accord.IfReturned (Pushed made)) :=
    .bind (push_op_runs made) (fun _ => .pure fun s hs _ _ => hs rfl) fun _ _ _ _ => trivial
  refine .handle hpush (fun result s _ hr => hr) fun e => ?_
  exact (h e).conseq (fun _ _ _ => trivial) fun _ _ _ hr => hr

theorem rebaseAndPush_runs (made : Option Sha) (first : Error) :
    Pushes t made (GitRepository.rebaseAndPush t made first) := by
  refine .bind_returns (Idle.attempt_returns (idle_op .fetch)) fun r => ?_
  cases r with
  | error e => exact refused made _
  | ok a =>
    refine .bind_returns (Idle.attempt_returns (idle_op .rebase)) fun r => ?_
    cases r with
    | error cause => exact .bind_returns (Idle.attempt_returns (idle_op .abort)) fun _ => refused made _
    | ok a => exact pushes_handle fun e => refused made _

theorem push_runs (made : Option Sha) : Pushes t made (GitRepository.push t made) := by
  refine .bind (R := fun r _ => r.isOk = true) (op_runs (fun r => .const _) fun s r s' hs => ?_)
    (fun name => ?_) fun e s _ h => by cases h
  · cases r with
    | ok a => rfl
    | error e => cases hs.2
  · cases name with
    | none => exact (refused made _).conseq (fun _ _ _ => trivial) fun _ _ _ h => h
    | some name =>
      exact (pushes_handle fun e => rebaseAndPush_runs made e).conseq (fun _ _ _ => trivial)
        fun _ _ _ h => h

/-! ### Syncs and boots -/

/-- The cache is told of a commit that the remote has. -/
theorem markSynced_runs (sha : Sha) :
    accord.Runs semFaithful t (fun s => s.Has sha) (SyncEngine.markSynced sha) fun _ _ => True := by
  refine .modify fun s hs _ => ⟨⟨fun sha' hsha' => ?_, fun _ _ => .of_eq rfl⟩, trivial⟩
  cases hsha'
  exact hs

theorem idle_commit (message : String) : Unbound t (commit message) := by
  refine .bind (.bind (idle_op .add) fun _ => .bind (idle_op .diffCached) fun staged => ?_) fun made => ?_
  · split
    · exact .pure none
    · exact .bind (idle_op _) fun _ => .bind (idle_op _) fun sha => .pure (some sha)
  · cases made with
    | none => exact .fail _
    | some sha => exact .pure sha

theorem idle_performSync : Unbound t (SyncEngine.performSync t) := by
  refine .bind (idle_op .rotate) fun _ => .bind (idle_op .mirror) fun files =>
    .bind (idle_op (.status t)) fun changed => ?_
  split
  · exact .bind (idle_op .discard) fun _ => .pure _
  · refine .bind (idle_op .drain) fun entries => .bind (idle_commit _) fun sha =>
      .bind (idle_op .discard) fun _ => ?_
    refine Accord.Runs.bind_returns (push_runs (some sha)) fun pushed => ?_
    refine .ite (fun hpushed => ?_) fun _ => (Idle.pure _).conseq (fun _ _ _ => trivial) fun _ _ _ h => h
    refine Accord.Runs.bind (R := fun _ _ => True) ((markSynced_runs sha).conseq
      (fun s _ h => h hpushed sha rfl) fun _ _ _ h => h) (fun _ => Idle.pure _) fun _ _ _ h => h

theorem idle_given (u : Nat) : Unbound t (SyncEngine.given t u) := idle_modify (fun _ => rfl) fun _ => rfl

theorem idle_syncNow : Unbound t (SyncEngine.syncNow t) := by
  refine .get_bind fun s => .conseq (P := fun _ => True) (fun _ _ _ => trivial) (fun _ _ _ h => h) ?_
  cases s.running with
  | some u => exact Idle.bind (idle_given u) fun _ => idle_op (.joined u)
  | none =>
    refine Idle.bind (idle_modify (fun _ => rfl) fun _ => rfl) fun _ => ?_
    refine Idle.bind (idle_given t) fun _ => Idle.bind idle_performSync.attempt fun r => ?_
    refine Idle.bind (idle_modify (fun _ => rfl) fun _ => rfl) fun _ => ?_
    exact Idle.ensure (idle_op (.joined t)) (idle_modify (fun _ => rfl) fun _ => rfl)

/-- HEAD, which a boot finds on the remote. -/
theorem head_runs {reader : Reader} (hreader : reader = .boot ∨ reader = .fallback) :
    accord.Runs semFaithful t (fun _ => True) (op (.headCommit reader)) fun r s =>
      (reader = .fallback → r.isOk = true) ∧ ∀ sha, r = .ok sha → s.Has sha := by
  refine op_runs (fun r s s' h hr _ => ⟨h.1, fun sha hsha => Grows.has hr (h.2 sha hsha)⟩) ?_
  intro s r s' hs
  obtain ⟨hmay, hs⟩ := hs
  refine ⟨fun hfallback => ?_, fun sha hsha => ?_⟩
  · subst hfallback
    exact hmay.1
  · subst hsha
    obtain ⟨hhead, rfl⟩ := hs
    rcases hreader with rfl | rfl
    · exact hmay sha hhead
    · exact hmay.2 sha hhead

theorem idle_boot : Unbound t boot := by
  have hload : Unbound t (do
      op .load
      let head ← op (.headCommit .boot)
      SyncEngine.markSynced head
      op .saveSnapshot) := by
    refine .bind (idle_op .load) fun _ => ?_
    refine Accord.Runs.bind (head_runs (.inl rfl)) (fun head => ?_) fun _ _ _ _ => trivial
    refine .bind (R := fun _ _ => True) ((markSynced_runs head).conseq (fun s _ h => h.2 head rfl)
      fun _ _ _ h => h) (fun _ => idle_op .saveSnapshot) fun _ _ _ h => h
  have hfallback : Unbound t (do
      op .load
      let head ← Prog.handle (op (.headCommit .fallback)) fun _ => pure ""
      SyncEngine.markSynced head) := by
    refine .bind (idle_op .load) fun _ => ?_
    refine Accord.Runs.bind_returns (R := fun head (s : State) => s.Has head) ?_
      fun head => markSynced_runs head
    refine .handle (head_runs (.inr rfl)) (fun head s _ h => h.2 head rfl) fun e => ?_
    exact .pure fun s h _ => by cases h.1 rfl
  refine .bind (idle_op .recover) fun _ => .bind (.handle hload fun _ => .bind (idle_op .loadSnapshot)
    fun found => ?_) fun _ => idle_modify (fun _ => rfl) fun _ => rfl
  split
  · exact hfallback
  · exact .pure ()

theorem idle_push : Unbound t (GitRepository.push t none) :=
  (push_runs none).conseq (fun _ _ h => h) fun _ _ _ _ => trivial

theorem idle_unpushed : Unbound t (GitRepository.unpushedCommits t) := by
  refine Idle.bind (idle_op .remoteName) fun name => ?_
  cases name with
  | none => exact Idle.pure []
  | some name => exact Idle.handle (idle_op (.unpushed t)) fun _ => Idle.pure []

theorem idle_retry : Unbound t (retryUnpushed t) := by
  refine Idle.bind idle_unpushed.attempt fun pending => ?_
  dsimp only
  split
  · exact Idle.pure _
  · exact Idle.bind idle_push fun result => Idle.pure _

theorem idle_report (hasRemote : Bool) : Unbound t (reporting t (PendingSync.report t hasRemote)) := by
  have hpeek : Unbound t PendingSync.peek :=
    Idle.bind (idle_op .peekSending) fun _ => Idle.bind (idle_op .peekPending) fun _ => Idle.pure _
  have hreport : Unbound t (PendingSync.report t hasRemote) := by
    refine Idle.bind hpeek fun entries => Idle.bind ?_ fun unpushed => Idle.pure _
    split
    · exact idle_unpushed
    · exact Idle.pure []
  refine Idle.bind (idle_modify (fun _ => rfl) fun _ => rfl) fun _ => ?_
  exact Idle.ensure hreport (idle_modify (fun _ => rfl) fun _ => rfl)

theorem idle_noting : Unbound t (noting t) := idle_modify (fun _ => rfl) fun _ => rfl

theorem idle_serve (hasRemote : Bool) (c : Request) : Unbound t (serve hasRemote t c) := by
  cases c with
  | boot => exact Idle.bind idle_boot fun _ => Idle.pure _
  | write entries => exact Idle.bind (Idle.each entries fun entry => idle_op (.append entry)) fun _ => Idle.pure _
  | sync => exact Idle.bind idle_noting fun _ => Idle.bind idle_syncNow fun _ => Idle.pure _
  | retry => exact Idle.bind idle_noting fun _ => Idle.bind idle_retry fun _ => Idle.pure _
  | webhook => exact Idle.bind (idle_pull idle_op) fun _ => Idle.bind (idle_op .load) fun _ => Idle.pure _
  | poll =>
    refine Idle.handle ?_ fun _ => Idle.pure _
    exact Idle.bind (idle_pull idle_op).attempt fun _ => Idle.bind (idle_op .load) fun _ => Idle.pure _
  | report => exact Idle.bind (idle_report hasRemote) fun _ => Idle.pure _
  | upstream main => exact Idle.bind (idle_op (.upstream main)) fun _ => Idle.pure _

/-- A kill takes what the cache reports, and nothing from the remote. -/
theorem survives (hasRemote : Bool) : accord.Survives (serviceFaithful hasRemote) fun _ _ _ _ => True where
  inv s s' _ hc := by
    obtain rfl := hc.2
    intro sha hsha
    cases hsha
  fresh _ _ _ _ _ := trivial
  post _ _ _ _ _ _ _ := trivial

/-- **The synced commit is real provenance** in the runs in which nobody takes a commit from the remote,
a boot finds HEAD there, and a push of a sync finds the commit that it is to publish in HEAD. -/
theorem synced_commit_is_real {hasRemote : Bool} {p : Pool lang Request Answer}
    (h : Reach (serviceFaithful hasRemote) Provenance p) : Provenance p.state := by
  have hserve (p' : Pool lang Request Answer) (c : Request) (_ : (serviceFaithful hasRemote).mayArrive p' c) :=
    (idle_serve (t := p'.threads.length) hasRemote c).conseq
      (fun s _ (_ : accord.fresh p'.threads.length s ∧ s = p'.state) => trivial) fun _ _ _ hs => hs
  exact (Accord.holds_killed (A := accord) (fun _ _ _ => stable_true) hserve
    (fun _ hs => ⟨hs, fun _ => trivial⟩) (survives hasRemote) h).1

/-- Whether an outcome meets the condition. -/
def isFaithful (c : Choice) (o : Op) (s : State) : Bool :=
  let published := s.clone.head.head?.all fun sha => s.remote.any fun main => main.contains sha
  match o with
  | .upstream main => s.remote.all fun old => decide (old ⊆ main)
  | .headCommit .boot => published
  | .headCommit .fallback => !c.failing && published
  | .push _ (some sha) => c.failing || s.clone.head.contains sha
  | _ => true

theorem headPublished_of_all {s : State}
    (h : (s.clone.head.head?.all fun sha => s.remote.any fun main => main.contains sha) = true) :
    s.HeadPublished := by
  intro sha hsha
  rw [hsha, Option.all_some] at h
  obtain ⟨main, hmain, hmem⟩ := (Option.any_eq_true _ _).1 h
  exact ⟨main, hmain, by simpa using hmem⟩

theorem faithful_of_isFaithful {c : Choice} {o : Op} {s s' : State} {r : Except Error o.Res}
    (h : perform c o s = some (r, s')) (hc : isFaithful c o s = true) : faithful o s r := by
  cases o with
  | upstream main =>
    intro old hold
    rw [isFaithful, hold, Option.all_some] at hc
    exact of_decide_eq_true hc
  | headCommit reader =>
    cases reader with
    | boot => exact headPublished_of_all hc
    | fallback =>
      rw [isFaithful, Bool.and_eq_true] at hc
      refine ⟨?_, headPublished_of_all hc.2⟩
      rw [isOk_of_perform h fun t => by simp]
      exact hc.1
    | commit | pull => trivial
  | push t made =>
    cases made with
    | none => trivial
    | some sha =>
      intro hok
      rw [isOk_of_perform h fun t => by simp] at hok
      rw [isFaithful, Bool.or_eq_true] at hc
      rcases hc with hfailing | hmem
      · rw [hfailing] at hok
        cases hok
      · simpa using hmem
  | _ => trivial

theorem faithfulDriver_follows (hasRemote : Bool) :
    (serviceDriver hasRemote isFaithful).Follows (serviceFaithful hasRemote) :=
  serviceDriver_follows (fun _ _ _ _ _ hc h => ⟨faithful_of_isFaithful h hc, step_of_perform h⟩)
    fun _ => ⟨trivial, rfl⟩

theorem provenance_freshClone (tracking remote : Option History) :
    Provenance (freshClone tracking remote) := fun _ h => by cases h

/-- The service boots on a clone whose HEAD is on the remote, and a sync pushes. -/
def pushedSync : Pool lang Request Answer :=
  (serviceDriver true isFaithful).drive ⟨freshClone (some ["c0"]) (some ["c0"]), []⟩
    (.arrive .boot :: works 0 4 ++ commits 1 "c1" ++ works 1 2)

/-- The remote has the commit that the cache reports. -/
theorem synced_commit_is_real_pushed :
    pushedSync.state.synced = some "c1" ∧ Provenance pushedSync.state :=
  ⟨by decide +kernel, synced_commit_is_real
    (Driver.drive_reach (faithfulDriver_follows true) (provenance_freshClone _ _) _)⟩

/-- Somebody else pushes before the sync does, and the sync pushes what a rebase has made of its
commit. -/
def rebasedSync : Pool lang Request Answer :=
  (serviceDriver true fun _ _ _ => true).drive ⟨freshClone (some ["c0"]) (some ["c0"]), []⟩
    (.arrive .boot :: works 0 4 ++ .arrive (.upstream ["u1", "c0"]) :: works 1 1 ++ commits 2 "c1" ++
      [.run 2 .works, .run 2 .fails, .run 2 .works, .run 2 (.makes ["r1"]), .run 2 .works])

/-- The cache reports the commit that the rebase has replaced. -/
theorem synced_commit_is_replaced :
    ¬ ∀ p, Reach (service true) Provenance p → Provenance p.state := by
  intro h
  have hreach : Reach (service true) Provenance rebasedSync :=
    Driver.drive_reach (serviceDriver_follows (fun _ _ _ _ _ _ h => step_of_perform h) fun _ => rfl)
      (provenance_freshClone _ _) _
  have hsynced : rebasedSync.state.synced = some "c1" := by decide +kernel
  have hremote : rebasedSync.state.remote = some ["r1", "u1", "c0"] := by decide +kernel
  obtain ⟨main, hmain, hmem⟩ := h _ hreach "c1" hsynced
  rw [hremote] at hmain
  cases hmain
  simp at hmem

end ConfigRegistry.Publish
