import ConfigRegistry.Async.Accord
import ConfigRegistry.Publish.Activities

/-!
# Back-ups that were deferred

A commit that could not be pushed is left to the retries and to the syncs that follow, and the console
reports that it is pending. Whether there is one is read off a branch of the clone. This file shows that
every later retry and every later sync attempts a push, and that reports tell the truth, in the runs in
which that branch can be read and each sync has something to push, and gives a run in which a clone
without the branch never retries.
-/

namespace ConfigRegistry.Publish

open Js Async Backup
open Accord (Idle Returned IfReturned)

/-! ### What is to hold of the calls -/

/-- Call `t` has attempted a push, or the remote's `main` had all of HEAD while it looked. -/
def State.Backed (s : State) (t : Nat) : Prop :=
  t ∈ s.attempts ∨ ∃ l ∈ s.looks, l.call = t ∧ l.contained = true

/-- So has the sync whose promise call `t` was given, or call `t` itself. -/
def State.BackedBySync (s : State) (t : Nat) : Prop :=
  s.Backed t ∨ ∃ u, (t, u) ∈ s.calls ∧ s.Backed u

/-- While call `t` looked, the report was ready exactly if the journal had an entry, or HEAD a commit that
the remote lacked as of the last push or fetch that succeeded. -/
def State.Reports (s : State) (t : Nat) (report : PendingSyncReport) : Prop :=
  ∃ l ∈ s.looks, l.call = t ∧ report.ready = (l.entries || l.lacking)

/-- A sync has returned `deferred`. -/
def Deferred (p : Pool lang Request Answer) : Prop :=
  ∃ t result, p.Answered t .sync (.ok (.synced result)) ∧ result.kind = .deferred

/-- Every retry and every sync that came after `p` has attempted a push by the time it ends in `p'`. -/
def Retried (p p' : Pool lang Request Answer) : Prop :=
  ∀ t ≥ p.threads.length, ∀ r, (p'.Answered t .retry r → p'.state.Backed t) ∧
    (p'.Answered t .sync r → p'.state.BackedBySync t)

/-- Every report is ready exactly while something is pending. -/
def Reported (p : Pool lang Request Answer) : Prop :=
  ∀ t report, p.Answered t .report (.ok (.reported report)) → p.state.Reports t report

/-- Where runs start: a remote is configured, the clone knows of its `main` what its remote-tracking
branch says, and nothing has been called. -/
structure Starts (s : State) : Prop where
  configured : s.configured = true
  known : s.known = s.clone.tracking.getD []
  has : ∀ sha ∈ s.known, s.Has sha
  up : s.up = false
  running : s.running = none
  reporting : s.reporting = []
  calls : s.calls = []
  settled : s.settled = []
  looks : s.looks = []
  attempts : s.attempts = []

/-- The condition on steps: nobody takes from the remote's `main` what the clone knows to be there;
`git remote` answers, and so does `git log`, unless nothing of HEAD is lacking; a sync finds changes,
unless the remote has all of HEAD, and nothing fails in it before the push; and the journal stays as it
is while a report is in progress. -/
def tended : (o : Op) → State → Except Error o.Res → Prop
  | .upstream main, s, _ => s.known ⊆ main
  | .remoteName, _, r => ∃ name, r = .ok (some name)
  | .unpushed _, s, r => r.isOk = true ∨ s.clone.head ⊆ s.known
  | .status _, s, r => r = .ok true ∨ r = .ok false ∧ s.contained = true
  | .diffCached, _, r => r = .ok true
  | .mirror, _, r | .drain, _, r | .add, _, r | .commit _, _, r | .headCommit .commit, _, r => r.isOk = true
  | .rotate, s, r | .discard, s, r => r.isOk = true ∧ s.reporting = []
  | .append _, s, _ | .recover, s, _ => s.reporting = []
  | _, _, _ => True

/-- The operations in the runs that meet the condition. -/
abbrev semTended : Sem lang := sem.restrict tended (fun _ _ _ => True) fun _ => True

/-- The service in these runs. -/
def serviceTended : System lang Request Answer := { service true with sem := semTended }

theorem tended_untorn : ∀ o s s', ¬ semTended.torn o s s' := fun _ _ _ h => h.2

/-! ### What the calls keep -/

/-- Nothing is forgotten of what was noted. -/
structure Grown (s s' : State) : Prop where
  looks : s.looks ⊆ s'.looks
  attempts : s.attempts ⊆ s'.attempts
  calls : s.calls ⊆ s'.calls

theorem Grown.refl (s : State) : Grown s s := ⟨List.Subset.refl _, List.Subset.refl _, List.Subset.refl _⟩

theorem Grown.trans {s s' s'' : State} (h : Grown s s') (h' : Grown s' s'') : Grown s s'' :=
  ⟨fun _ hl => h'.looks (h.looks hl), fun _ ht => h'.attempts (h.attempts ht),
    fun _ ht => h'.calls (h.calls ht)⟩

/-- An assertion about what was noted. -/
def Lasting (P : State → Prop) : Prop := ∀ s s', Grown s s' → P s → P s'

theorem Lasting.and {P Q : State → Prop} (hP : Lasting P) (hQ : Lasting Q) : Lasting fun s => P s ∧ Q s :=
  fun s s' h hs => ⟨hP s s' h hs.1, hQ s s' h hs.2⟩

theorem lasting_true : Lasting fun _ => True := fun _ _ _ _ => trivial

theorem lasting_attempted (t : Nat) : Lasting fun s => t ∈ s.attempts := fun _ _ h hs => h.attempts hs

theorem lasting_given (t u : Nat) : Lasting fun s => (t, u) ∈ s.calls := fun _ _ h hs => h.calls hs

theorem lasting_looked (φ : Look → Prop) : Lasting fun s => ∃ l ∈ s.looks, φ l := by
  intro s s' h hs
  obtain ⟨l, hl, hφ⟩ := hs
  exact ⟨l, h.looks hl, hφ⟩

theorem lasting_backed (t : Nat) : Lasting fun s => s.Backed t := by
  intro s s' h hs
  rcases hs with hs | hs
  · exact .inl (h.attempts hs)
  · exact .inr (lasting_looked _ s s' h hs)

theorem lasting_backedBySync (t : Nat) : Lasting fun s => s.BackedBySync t := by
  intro s s' h hs
  rcases hs with hs | ⟨u, hu, hs⟩
  · exact .inl (lasting_backed t s s' h hs)
  · exact .inr ⟨u, h.calls hu, lasting_backed u s s' h hs⟩

/-- The remote-tracking branch is what the clone last heard of the remote, the remote still has that, and
the syncs that have ended did attempt their pushes. -/
structure Informed (s : State) : Prop where
  known : s.known = s.clone.tracking.getD []
  has : ∀ sha ∈ s.known, s.Has sha
  backed : ∀ u r, (u, r) ∈ s.settled → s.Backed u

/-- What a call relies on: nothing is forgotten, and its report meets no other change of the journal. -/
structure Noted (t : Nat) (s s' : State) : Prop extends Grown s s' where
  reporting : t ∈ s'.reporting ↔ t ∈ s.reporting
  journal : t ∈ s.reporting → s'.sending = s.sending ∧ s'.pending = s.pending

/-- Calls keep what the clone knows, and what was noted. -/
def tending : Accord lang where
  inv := Informed
  rely := Noted
  fresh _ _ := True
  rely_refl _ s := ⟨.refl s, Iff.rfl, fun _ => ⟨rfl, rfl⟩⟩
  rely_trans t s s' s'' h h' := by
    refine ⟨h.toGrown.trans h'.toGrown, h'.reporting.trans h.reporting, fun ht => ?_⟩
    obtain ⟨hsending, hpending⟩ := h.journal ht
    obtain ⟨hsending', hpending'⟩ := h'.journal (h.reporting.2 ht)
    exact ⟨hsending'.trans hsending, hpending'.trans hpending⟩
  fresh_rely _ _ _ h _ := h

variable {t : Nat}

theorem Lasting.stable {P : State → Prop} (h : Lasting P) : tending.Stable t P :=
  fun s s' hs hr _ => h s s' hr.toGrown hs

/-! ### Operations -/

theorem reporting_of_onJournal {o : Op} {s : State} {r : Except Error o.Res} (h : tended o s r)
    (ho : o.onJournal = true) : s.reporting = [] := by
  cases o with
  | recover | append _ => exact h
  | rotate | discard => exact h.2
  | _ => cases ho

theorem noted_of_step {o : Op} {s s' : State} {r : Except Error o.Res} (h : semTended.step o s r s')
    (u : Nat) : Noted u s s' := by
  have heffect := effect_of_step h.2
  refine ⟨⟨heffect.looks, heffect.attempts, ?_⟩, by rw [heffect.reporting], fun hu => ?_⟩
  · rw [heffect.calls]
    exact List.Subset.refl _
  · rcases heffect.journal with ho | hsame
    · rw [reporting_of_onJournal h.1 ho] at hu
      cases hu
    · exact hsame

theorem informed_of_step {o : Op} {s s' : State} {r : Except Error o.Res} (hi : Informed s)
    (h : semTended.step o s r s') : Informed s' := by
  have heffect := effect_of_step h.2
  have hbacked : ∀ u r, (u, r) ∈ s'.settled → s'.Backed u := by
    intro u r hu
    rw [heffect.settled] at hu
    exact lasting_backed u s s' (noted_of_step h u).toGrown (hi.backed u r hu)
  cases heffect.refs with
  | same hremote htracking hknown =>
    refine ⟨by rw [hknown, htracking, hi.known], fun sha hsha => ?_, hbacked⟩
    rw [State.Has, hremote]
    exact hi.has sha (hknown ▸ hsha)
  | pushed hff hremote htracking hknown =>
    refine ⟨by rw [hknown, htracking]; rfl, fun sha hsha => ?_, hbacked⟩
    exact ⟨_, hremote, hknown ▸ hsha⟩
  | unheard hff hremote htracking hknown =>
    refine ⟨by rw [hknown, htracking, hi.known], fun sha hsha => ?_, hbacked⟩
    obtain ⟨main, hmain, hmem⟩ := hi.has sha (hknown ▸ hsha)
    exact ⟨_, hremote, hff main hmain hmem⟩
  | fetched main hbefore hafter htracking hknown =>
    refine ⟨by rw [hknown, htracking]; rfl, fun sha hsha => ?_, hbacked⟩
    exact ⟨main, hafter, hknown ▸ hsha⟩
  | upstream main ho hremote htracking hknown =>
    subst ho
    refine ⟨by rw [hknown, htracking, hi.known], fun sha hsha => ?_, hbacked⟩
    exact ⟨main, hremote, h.1 (hknown ▸ hsha)⟩

section

variable {P : State → Prop}

/-- An operation, with what is known of its answer. -/
theorem tended_op {o : Op} {Q : Except Error o.Res → State → Prop} (hP : tending.Stable t P)
    (hQ : ∀ r, tending.Stable t (Q r))
    (h : ∀ s r s', P s → Informed s → semTended.step o s r s' → Q r s') :
    tending.Runs semTended t P (op o) Q :=
  .op_untorn tended_untorn hP hQ (fun _ _ _ => trivial) fun s r s' hs hi hstep =>
    ⟨⟨informed_of_step hi hstep, fun u _ => noted_of_step hstep u⟩, h s r s' hs hi hstep⟩

theorem tended_idle (hP : Lasting P) (o : Op) : tending.Idle semTended t P (op o) :=
  tended_op hP.stable (fun _ => hP.stable) fun s _ s' hs _ hstep =>
    hP s s' (noted_of_step hstep t).toGrown hs

/-- An operation that the condition lets succeed only. -/
theorem tended_returns {o : Op} (ho : ∀ s r, tended o s r → r.isOk = true) (hP : Lasting P) :
    tending.Runs semTended t P (op o) (Returned fun _ => P) := by
  refine tended_op hP.stable (.returned fun _ => hP.stable) fun s r s' hs _ hstep => ?_
  cases r with
  | ok a => exact hP s s' (noted_of_step hstep t).toGrown hs
  | error e => cases ho _ _ hstep.1

/-- A change of the shared memory that notes or forgets nothing. -/
theorem tended_modify {f : State → State} (hP : Lasting P) (hi : ∀ s, Informed s → Informed (f s))
    (hn : ∀ s u, u ≠ t → Noted u s (f s)) (hg : ∀ s, Grown s (f s)) :
    tending.Runs semTended t P (Prog.modify (S := lang) f) (Returned fun _ => P) :=
  .modify fun s hs h => ⟨⟨hi s h, hn s⟩, hP s (f s) (hg s) hs⟩

/-- A change of what the process remembers, which is beside everything that was noted. -/
theorem tended_memory {f : State → State} (hP : Lasting P)
    (hf : ∀ s, ∃ up running synced, f s = { s with up, running, synced }) :
    tending.Runs semTended t P (Prog.modify (S := lang) f) (Returned fun _ => P) := by
  refine tended_modify hP (fun s hi => ?_) (fun s u _ => ?_) fun s => ?_ <;>
    obtain ⟨up, running, synced, hs⟩ := hf s <;> rw [hs]
  · exact ⟨hi.known, hi.has, hi.backed⟩
  · exact ⟨⟨List.Subset.refl _, List.Subset.refl _, List.Subset.refl _⟩, Iff.rfl, fun _ => ⟨rfl, rfl⟩⟩
  · exact ⟨List.Subset.refl _, List.Subset.refl _, List.Subset.refl _⟩

/-! ### Pushes -/

theorem rebaseAndPush_keeps (hP : Lasting P) (made : Option Sha) (first : Error) :
    tending.Runs semTended t P (GitRepository.rebaseAndPush t made first) (Returned fun _ => P) := by
  refine .bind_returns (Idle.attempt_returns (tended_idle hP .fetch)) fun r => ?_
  cases r with
  | error e => exact .pure fun _ hs _ => hs
  | ok a =>
    refine .bind_returns (Idle.attempt_returns (tended_idle hP .rebase)) fun r => ?_
    cases r with
    | error cause =>
      exact .bind_returns (Idle.attempt_returns (tended_idle hP .abort)) fun _ => .pure fun _ hs _ => hs
    | ok a =>
      refine .handle (R := fun _ => P) (.bind (tended_idle hP _) (fun _ => .pure fun _ hs _ => hs)
        fun _ _ _ hs => hs) (fun _ _ _ hs => hs) fun e => ?_
      exact .pure fun _ hs _ => hs

/-- A push that fails was attempted. -/
theorem push_attempts (hP : Lasting P) (made : Option Sha) :
    tending.Runs semTended t P (op (.push t made)) fun _ s => P s ∧ t ∈ s.attempts := by
  refine tended_op hP.stable (fun _ => (hP.and (lasting_attempted t)).stable) fun s r s' hs _ hstep => ?_
  refine ⟨hP s s' (noted_of_step hstep t).toGrown hs, ?_⟩
  cases r with
  | ok a =>
    obtain ⟨-, -, rfl⟩ := hstep
    exact List.mem_cons_self
  | error e =>
    obtain ⟨-, rfl | ⟨-, rfl⟩⟩ := hstep <;> exact List.mem_cons_self

theorem remoteName_runs (hP : tending.Stable t P) :
    tending.Runs semTended t P (op .remoteName) (Returned fun name s => P s ∧ name.isSome = true) := by
  refine tended_op hP (.returned fun _ => hP.and (.const _)) fun s r s' hs _ hstep => ?_
  obtain ⟨⟨name, rfl⟩, -, rfl⟩ := hstep
  exact ⟨hs, rfl⟩

theorem push_returns (hP : Lasting P) (made : Option Sha) :
    tending.Runs semTended t P (GitRepository.push t made) (Returned fun _ s => P s ∧ t ∈ s.attempts) := by
  refine .bind_returns (remoteName_runs hP.stable) fun name => .assume fun hname => ?_
  cases name with
  | none => cases hname
  | some name =>
    refine .handle (R := fun _ (s : State) => P s ∧ t ∈ s.attempts) (.bind (push_attempts hP made)
      (fun _ => .pure fun _ hs _ => hs) fun _ _ _ hs => hs) (fun _ _ _ hs => hs) fun e => ?_
    exact rebaseAndPush_keeps (hP.and (lasting_attempted t)) made e

/-! ### Looks -/

theorem contained_of_subset {s : State} (hi : Informed s) (h : s.clone.head ⊆ s.known) :
    s.contained = true := by
  rw [State.contained, List.all_eq_true]
  intro sha hsha
  obtain ⟨main, hmain, hmem⟩ := hi.has sha (h hsha)
  rw [hmain]
  simpa using hmem

/-- What a look is worth: `E` of the journal, and of HEAD what `git log` listed, or nothing. -/
def Seen (t : Nat) (E : Bool → Prop) (unpushed : List Sha) (s : State) : Prop :=
  ∃ l ∈ s.looks, l.call = t ∧ E l.entries ∧ l.lacking = !unpushed.isEmpty ∧
    (unpushed = [] → l.contained = true)

theorem lasting_seen (t : Nat) (E : Bool → Prop) (unpushed : List Sha) : Lasting (Seen t E unpushed) :=
  lasting_looked _

/-- Whether the journal has an entry. -/
def State.hasEntries (s : State) : Bool := !(s.sending ++ s.pending).isEmpty

/-- The look of a call that lists what is unpushed, if the list is empty exactly when nothing is lacking. -/
theorem seen_look {s : State} {E : Bool → Prop} (hi : Informed s) (hE : E s.hasEntries)
    {unpushed : List Sha} (h : unpushed = [] ↔ s.clone.head ⊆ s.known) :
    Seen t E unpushed (s.look t) := by
  refine ⟨_, List.mem_cons_self, rfl, hE, ?_, fun hnil => contained_of_subset hi (h.1 hnil)⟩
  rw [Bool.eq_iff_iff, Bool.not_eq_true', List.isEmpty_eq_false_iff, ne_eq, h]
  simp [List.subset_def]

theorem unpushed_runs (hP : tending.Stable t P) {E : Bool → Prop} (hE : ∀ s, P s → E s.hasEntries) :
    tending.Runs semTended t P (GitRepository.unpushedCommits t) (Returned (Seen t E)) := by
  refine .bind_returns (remoteName_runs hP) fun name => .assume fun hname => ?_
  cases name with
  | none => cases hname
  | some name =>
    refine .handle (R := fun r => Seen t E (r.toOption.getD [])) ?_ (fun _ _ _ hs => hs) fun e =>
      .pure fun _ hs _ => hs
    refine tended_op hP (fun r => (lasting_seen t E _).stable) fun s r s' hs hi hstep => ?_
    obtain ⟨hmay, hstep⟩ := hstep
    cases r with
    | ok unpushed =>
      obtain ⟨⟨main, hmain, rfl⟩, rfl⟩ := hstep
      refine seen_look hi (hE s hs) ?_
      rw [hi.known, hmain]
      show (s.clone.head.filter fun sha => !main.contains sha) = [] ↔ s.clone.head ⊆ main
      simp [List.subset_def]
    | error e =>
      cases hstep
      have hsub : s.clone.head ⊆ s.known := hmay.resolve_left fun hok => by cases hok
      exact seen_look hi (hE s hs) ⟨fun _ => hsub, fun _ => rfl⟩

end

/-! ### Retries, syncs and reports -/

theorem retryUnpushed_runs :
    tending.Runs semTended t (fun _ => True) (retryUnpushed t) fun _ s => s.Backed t := by
  have hlooked := (unpushed_runs (t := t) (P := fun _ => True) (E := fun _ => True) lasting_true.stable
    fun _ _ => trivial)
  refine .bind_returns (R := fun r => Seen t (fun _ => True) (r.toOption.getD [])) (.attempt ?_) fun r => ?_
  · refine hlooked.conseq (fun _ _ h => h) fun r s _ hr => ?_
    cases r with
    | ok unpushed => exact hr
    | error e => exact hr.elim
  · refine .ite (fun hnone => .pure fun s hs _ => ?_) fun _ => ?_
    · obtain ⟨l, hl, hcall, -, -, hcontained⟩ := hs
      exact .inr ⟨l, hl, hcall, hcontained (List.length_eq_zero_iff.1 hnone)⟩
    · refine .bind_returns ((push_returns lasting_true none).conseq (fun _ _ _ => trivial) fun _ _ _ h => h)
        fun result => .pure fun s hs _ => .inl hs.2

section

variable {P : State → Prop}

theorem commit_returns (hP : Lasting P) (message : String) :
    tending.Runs semTended t P (commit message) (Returned fun _ => P) := by
  have hstaged : tending.Runs semTended t P (op .diffCached) (Returned fun staged s => P s ∧ staged = true) := by
    refine tended_op hP.stable (.returned fun _ => hP.stable.and (.const _)) fun s r s' hs _ hstep => ?_
    obtain ⟨hr, hstep⟩ := hstep
    obtain rfl : r = .ok true := hr
    obtain rfl : s' = s := hstep
    exact ⟨hs, rfl⟩
  refine .bind_returns (R := fun made s => P s ∧ made.isSome = true) ?_ fun made => .assume fun hmade => ?_
  · refine .bind_returns (tended_returns (fun _ _ h => h) hP) fun _ => ?_
    refine .bind_returns hstaged fun staged => .assume fun hstaged => ?_
    subst hstaged
    refine .bind_returns (tended_returns (fun _ _ h => h) hP) fun _ => ?_
    exact .bind_returns (tended_returns (fun _ _ h => h) hP) fun sha => .pure fun _ hs _ => ⟨hs, rfl⟩
  · cases made with
    | none => cases hmade
    | some sha => exact .pure fun _ hs _ => hs

theorem discard_returns (hP : Lasting P) :
    tending.Runs semTended t P (op .discard) (Returned fun _ => P) :=
  tended_returns (fun _ _ h => h.1) hP

/-- A sync that finds nothing to push finds the remote with all of HEAD. -/
theorem status_runs (hP : Lasting P) :
    tending.Runs semTended t P (op (.status t))
      (Returned fun changed s => P s ∧ (changed = false → s.Backed t)) := by
  have hstable (changed : Bool) : tending.Stable t fun s => P s ∧ (changed = false → s.Backed t) :=
    (hP.and fun s s' h hs hchanged => lasting_backed t s s' h (hs hchanged)).stable
  refine tended_op hP.stable (.returned hstable) fun s r s' hs _ hstep => ?_
  have hkept := hP s s' (noted_of_step hstep t).toGrown hs
  obtain ⟨hr | ⟨hr, hcontained⟩, hstep⟩ := hstep
  · cases hr
    exact ⟨hkept, fun h => by cases h⟩
  · cases hr
    cases hstep
    exact ⟨hkept, fun _ => .inr ⟨_, List.mem_cons_self, rfl, hcontained⟩⟩

theorem markSynced_returns (hP : Lasting P) (sha : Sha) :
    tending.Runs semTended t P (SyncEngine.markSynced sha) (Returned fun _ => P) :=
  tended_memory hP fun s => ⟨s.up, s.running, some sha, rfl⟩

theorem performSync_returns (hP : Lasting P) :
    tending.Runs semTended t P (SyncEngine.performSync t) (Returned fun _ s => P s ∧ s.Backed t) := by
  have hbacked : Lasting fun s => P s ∧ s.Backed t := hP.and (lasting_backed t)
  refine .bind_returns (tended_returns (fun _ _ h => h.1) hP) fun _ => ?_
  refine .bind_returns (tended_returns (o := .mirror) (fun _ _ h => h) hP) fun files => ?_
  refine .bind_returns (status_runs hP) fun changed => .ite (fun hclean => ?_) fun _ => ?_
  · refine .bind_returns ((discard_returns hbacked).conseq (fun _ _ h => ⟨h.1, h.2 hclean⟩) fun _ _ _ h => h)
      fun _ => .pure fun _ hs _ => hs
  · refine .bind_returns (R := fun _ => P) ((tended_returns (o := .drain) (fun _ _ h => h) hP).conseq
      (fun _ _ h => h.1) fun _ _ _ h => h) fun entries => ?_
    refine .bind_returns (commit_returns hP _) fun sha => .bind_returns (discard_returns hP) fun _ => ?_
    refine .bind_returns (R := fun _ (s : State) => P s ∧ s.Backed t)
      ((push_returns hP (some sha)).conseq (fun _ _ h => h) fun r s _ hr => ?_) fun pushed => ?_
    · cases r with
      | ok pushed => exact ⟨hr.1, .inl hr.2⟩
      | error e => exact hr
    · refine .ite (fun _ => ?_) fun _ => .pure fun _ hs _ => hs
      exact .bind_returns (markSynced_returns hbacked sha) fun _ => .pure fun _ hs _ => hs

end

theorem given_runs (u : Nat) :
    tending.Runs semTended t (fun _ => True) (SyncEngine.given t u) (Returned fun _ s => (t, u) ∈ s.calls) := by
  refine .modify fun s _ hi => ⟨⟨⟨hi.known, hi.has, hi.backed⟩, fun v _ => ?_⟩, List.mem_cons_self⟩
  exact ⟨⟨List.Subset.refl _, List.Subset.refl _, List.subset_cons_self _ _⟩, Iff.rfl, fun _ => ⟨rfl, rfl⟩⟩

/-- The promise of a sync is settled by one that has ended. -/
theorem joined_runs (u : Nat) :
    tending.Runs semTended t (fun s => (t, u) ∈ s.calls) (op (.joined u)) fun _ s => s.BackedBySync t := by
  refine tended_op (lasting_given t u).stable (fun _ => (lasting_backedBySync t).stable)
    fun s r s' hs hi hstep => ?_
  cases r with
  | ok result =>
    obtain ⟨-, hsettled, rfl⟩ := hstep
    exact .inr ⟨u, hs, hi.backed u _ hsettled⟩
  | error e =>
    obtain ⟨-, hsettled, rfl⟩ := hstep
    exact .inr ⟨u, hs, hi.backed u _ hsettled⟩

theorem settle_runs (r : Except Error SyncResult) :
    tending.Runs semTended t (fun s => (t, t) ∈ s.calls ∧ s.Backed t)
      (Prog.modify (S := lang) fun s => { s with settled := (t, r) :: s.settled })
      (Returned fun _ s => (t, t) ∈ s.calls) := by
  refine .modify fun s hs hi => ⟨⟨⟨hi.known, hi.has, fun u r' hu => ?_⟩, fun v _ => ?_⟩, hs.1⟩
  · rcases List.mem_cons.1 hu with heq | hu
    · cases heq
      exact hs.2
    · exact hi.backed u r' hu
  · exact ⟨⟨List.Subset.refl _, List.Subset.refl _, List.Subset.refl _⟩, Iff.rfl, fun _ => ⟨rfl, rfl⟩⟩

theorem syncNow_runs :
    tending.Runs semTended t (fun _ => True) (SyncEngine.syncNow t) fun _ s => s.BackedBySync t := by
  have hset (running : Option Nat) {P : State → Prop} (hP : Lasting P) :
      tending.Runs semTended t P (Prog.modify (S := lang) fun s => { s with running }) (Returned fun _ => P) :=
    tended_memory hP fun s => ⟨s.up, running, s.synced, rfl⟩
  refine .get_bind fun s => .conseq (P := fun _ => True) (fun _ _ _ => trivial) (fun _ _ _ h => h) ?_
  cases s.running with
  | some u => exact .bind_returns (given_runs u) fun _ => joined_runs u
  | none =>
    refine .bind_returns (hset (some t) lasting_true) fun _ => .bind_returns (given_runs t) fun _ => ?_
    refine .bind_returns (R := fun _ (s : State) => (t, t) ∈ s.calls ∧ s.Backed t) (.attempt ?_) fun r => ?_
    · refine (performSync_returns (lasting_given t t)).conseq (fun _ _ h => h) fun r s _ hr => ?_
      cases r with
      | ok result => exact hr
      | error e => exact hr.elim
    · refine .bind_returns (settle_runs r) fun _ => .ensure (joined_runs t) fun r => ?_
      exact hset none (lasting_backedBySync t)

/-- The report of call `t` is in progress, and the journal is as it has read it. -/
def Reading (t : Nat) (φ : List JournalEntry → List JournalEntry → Prop) (s : State) : Prop :=
  t ∈ s.reporting ∧ φ s.sending s.pending

theorem stable_reading (φ : List JournalEntry → List JournalEntry → Prop) :
    tending.Stable t (Reading t φ) := by
  intro s s' h hr _
  obtain ⟨hsending, hpending⟩ := hr.journal h.1
  refine ⟨hr.reporting.2 h.1, ?_⟩
  rw [hsending, hpending]
  exact h.2

theorem peek_runs :
    tending.Runs semTended t (Reading t fun _ _ => True) PendingSync.peek
      (IfReturned fun entries => Reading t fun sending pending => sending ++ pending = entries) := by
  refine .bind_ifReturned (R := fun first => Reading t fun sending _ => sending = first) ?_ fun first =>
    .bind_ifReturned (R := fun second => Reading t fun sending pending => sending ++ pending = first ++ second)
      ?_ fun second => .pure fun _ hs _ => hs
  · refine tended_op (stable_reading _) (.ifReturned fun _ => stable_reading _) fun s r s' hs _ hstep => ?_
    cases r with
    | ok first =>
      obtain ⟨-, rfl, rfl⟩ := hstep
      exact ⟨hs.1, rfl⟩
    | error e => trivial
  · refine tended_op (stable_reading _) (.ifReturned fun _ => stable_reading _) fun s r s' hs _ hstep => ?_
    cases r with
    | ok second =>
      obtain ⟨-, rfl, rfl⟩ := hstep
      exact ⟨hs.1, by rw [← hs.2]⟩
    | error e => trivial

theorem lasting_reports (t : Nat) (report : PendingSyncReport) : Lasting fun s => s.Reports t report :=
  lasting_looked _

theorem report_runs :
    tending.Runs semTended t (Reading t fun _ _ => True) (PendingSync.report t true)
      (IfReturned fun report s => s.Reports t report) := by
  refine .bind_ifReturned peek_runs fun entries => ?_
  have hlooked := unpushed_runs (t := t) (E := fun b => b = !entries.isEmpty) (stable_reading fun sending pending =>
    sending ++ pending = entries) fun s hs => by rw [State.hasEntries, hs.2]
  refine .bind_returns hlooked fun unpushed => .pure fun s hs _ => ?_
  obtain ⟨l, hl, hcall, hentries, hlacking, -⟩ := hs
  refine ⟨l, hl, hcall, ?_⟩
  rw [hentries, hlacking]
  cases entries <;> cases unpushed <;> rfl

/-- Reports of others may begin and end meanwhile. -/
theorem noted_reporting {u : Nat} {s : State} {reporting : List Nat} (h : u ∈ reporting ↔ u ∈ s.reporting) :
    Noted u s { s with reporting } :=
  ⟨⟨List.Subset.refl _, List.Subset.refl _, List.Subset.refl _⟩, h, fun _ => ⟨rfl, rfl⟩⟩

theorem reporting_runs :
    tending.Runs semTended t (fun _ => True) (reporting t (PendingSync.report t true))
      (IfReturned fun report s => s.Reports t report) := by
  refine .bind_returns (R := fun _ => Reading t fun _ _ => True) (.modify fun s _ hi => ?_) fun _ =>
    .ensure report_runs fun r => .modify fun s hs hi => ?_
  · refine ⟨⟨⟨hi.known, hi.has, hi.backed⟩, fun u hu => noted_reporting ?_⟩, List.mem_cons_self, trivial⟩
    exact ⟨fun h => (List.mem_cons.1 h).resolve_left hu, fun h => List.mem_cons_of_mem _ h⟩
  · refine ⟨⟨⟨hi.known, hi.has, hi.backed⟩, fun u hu => noted_reporting (List.mem_erase_of_ne hu)⟩, ?_⟩
    cases r <;> exact hs

/-! ### Runs -/

/-- What is to hold of a call that has ended. -/
def Attended (t : Nat) : Request → Except Error Answer → State → Prop
  | .retry, _, s => s.Backed t
  | .sync, _, s => s.BackedBySync t
  | .report, r, s => ∀ report, r = .ok (.reported report) → s.Reports t report
  | _, _, _ => True

theorem lasting_attended (t : Nat) (c : Request) (r : Except Error Answer) : Lasting (Attended t c r) := by
  cases c with
  | retry => exact lasting_backed t
  | sync => exact lasting_backedBySync t
  | report => exact fun s s' h hs report hr => lasting_reports t report s s' h (hs report hr)
  | _ => exact lasting_true

theorem noting_returns :
    tending.Runs semTended t (fun _ => True) (noting t) (Returned fun _ _ => True) := by
  refine tended_modify lasting_true (fun s hi => ⟨hi.known, hi.has, fun u r hu => ?_⟩) (fun s u _ => ?_) fun s => ?_
  · exact lasting_backed u s _ ⟨List.subset_cons_self _ _, List.Subset.refl _, List.Subset.refl _⟩
      (hi.backed u r hu)
  · exact ⟨⟨List.subset_cons_self _ _, List.Subset.refl _, List.Subset.refl _⟩, Iff.rfl, fun _ => ⟨rfl, rfl⟩⟩
  · exact ⟨List.subset_cons_self _ _, List.Subset.refl _, List.Subset.refl _⟩

theorem tended_boot : tending.Idle semTended t (fun _ => True) boot := by
  have hop (o : Op) : tending.Idle semTended t (fun _ => True) (op o) := tended_idle lasting_true o
  have hmark (sha : Sha) : tending.Idle semTended t (fun _ => True) (SyncEngine.markSynced sha) :=
    .of_returned (markSynced_returns lasting_true sha)
  have hup : tending.Idle semTended t (fun _ => True) (Prog.modify (S := lang) fun s => { s with up := true }) :=
    .of_returned (tended_memory lasting_true fun s => ⟨true, s.running, s.synced, rfl⟩)
  refine .bind (hop .recover) fun _ => .bind (.handle ?_ fun _ => .bind (hop .loadSnapshot) fun found => ?_)
    fun _ => hup
  · exact .bind (hop .load) fun _ => .bind (hop _) fun head => .bind (hmark head) fun _ => hop .saveSnapshot
  · split
    · exact .bind (hop .load) fun _ => .bind (.handle (hop _) fun _ => .pure "") hmark
    · exact .pure ()

theorem serve_attends (c : Request) :
    tending.Runs semTended t (fun _ => True) (serve true t c) (Attended t c) := by
  have hop (o : Op) : tending.Idle semTended t (fun _ => True) (op o) := tended_idle lasting_true o
  have hidle {p : Prog lang Answer} (h : tending.Idle semTended t (fun _ => True) p)
      (hc : ∀ r s, Attended t c r s) : tending.Runs semTended t (fun _ => True) p (Attended t c) :=
    h.conseq (fun _ _ _ => trivial) fun r s _ _ => hc r s
  cases c with
  | boot => exact hidle (.bind tended_boot fun _ => .pure _) fun _ _ => trivial
  | write entries =>
    exact hidle (.bind (.each entries fun entry => hop (.append entry)) fun _ => .pure _) fun _ _ => trivial
  | sync =>
    refine .bind_returns noting_returns fun _ => .bind syncNow_runs (fun result => ?_) fun e s _ hs => hs
    exact .pure fun s hs _ => hs
  | retry =>
    refine .bind_returns noting_returns fun _ => .bind retryUnpushed_runs (fun result => ?_) fun e s _ hs => hs
    exact .pure fun s hs _ => hs
  | webhook =>
    exact hidle (.bind (idle_pull hop) fun _ => .bind (hop .load) fun _ => .pure _) fun _ _ => trivial
  | poll =>
    refine hidle (.handle ?_ fun _ => .pure _) fun _ _ => trivial
    exact .bind (idle_pull hop).attempt fun _ => .bind (hop .load) fun _ => .pure _
  | report =>
    refine .bind reporting_runs (fun report => .pure fun s hs _ report' hr => ?_) fun e s _ _ report' hr => ?_
    · cases hr
      exact hs
    · cases hr
  | upstream main => exact hidle (.bind (hop _) fun _ => .pure _) fun _ _ => trivial

/-- A kill forgets nothing of what was noted. -/
theorem survives_tended : tending.Survives serviceTended Attended where
  inv s s' hi hc := by
    obtain rfl := hc.2
    exact ⟨hi.known, hi.has, hi.backed⟩
  fresh _ _ _ _ _ := trivial
  post t c r s s' hs hc := by
    obtain rfl := hc.2
    exact lasting_attended t c r s _ ⟨List.Subset.refl _, List.Subset.refl _, List.Subset.refl _⟩ hs

theorem attended_of_reach {p : Pool lang Request Answer} (h : Reach serviceTended Starts p) {t : Nat}
    {c : Request} {r : Except Error Answer} (hr : p.Answered t c r) : Attended t c r p.state := by
  have hserve (p' : Pool lang Request Answer) (c : Request) (_ : serviceTended.mayArrive p' c) :
      tending.Runs semTended p'.threads.length (fun s => tending.fresh p'.threads.length s ∧ s = p'.state)
        (serve true p'.threads.length c) (Attended p'.threads.length c) :=
    (serve_attends c).conseq (fun _ _ _ => trivial) fun _ _ _ hs => hs
  have hstart (s : State) (hs : Starts s) : Informed s ∧ ∀ t, tending.fresh t s := by
    refine ⟨⟨hs.known, hs.has, fun u r hu => ?_⟩, fun _ => trivial⟩
    rw [hs.settled] at hu
    cases hu
  exact (Accord.holds_killed (fun t c r => (lasting_attended t c r).stable) hserve hstart survives_tended h).2
    t c r hr

/-- **A deferred back-up is retried until it is pushed**, and reports are ready exactly while something is
pending, in the runs that meet the condition. -/
theorem deferred_backup_is_retried {p p' : Pool lang Request Answer} (h : Reach serviceTended Starts p)
    (hs : Steps serviceTended p p') : (Deferred p → Retried p p') ∧ Reported p' := by
  have hreach : Reach serviceTended Starts p' := by
    obtain ⟨s, hstart, hrun⟩ := h
    exact ⟨s, hstart, hrun.trans hs⟩
  have hended {t : Nat} {c : Request} {r : Except Error Answer} (hr : p'.Answered t c r) :
      Attended t c r p'.state := attended_of_reach hreach hr
  exact ⟨fun _ t _ r => ⟨hended, hended⟩, fun t report hr => hended hr report rfl⟩

/-- Whether an outcome meets the condition, on a remote that nobody else pushes to. -/
def isTended (c : Choice) (o : Op) (s : State) : Bool :=
  match o with
  | .upstream _ => false
  | .remoteName =>
    match c with
    | .works => s.configured
    | _ => false
  | .status _ =>
    match c with
    | .finds changed => changed
    | _ => false
  | .diffCached =>
    match c with
    | .works => true
    | _ => false
  | .unpushed _ | .mirror | .drain | .add | .commit _ | .headCommit .commit => !c.failing
  | .rotate | .discard => !c.failing && s.reporting.isEmpty
  | .append _ | .recover => s.reporting.isEmpty
  | _ => true

theorem tended_of_isTended {c : Choice} {o : Op} {s s' : State} {r : Except Error o.Res}
    (h : perform c o s = some (r, s')) (hc : isTended c o s = true) : tended o s r := by
  have hok (ho : ∀ t, o ≠ .joined t) : r.isOk = !c.failing := isOk_of_perform h ho
  cases o with
  | upstream main => cases hc
  | remoteName =>
    cases c with
    | works =>
      have hconfigured : s.configured = true := hc
      simp only [perform, Op.answer, hconfigured, if_true] at h
      cases h
      exact ⟨_, rfl⟩
    | finds _ | makes _ | fails => cases hc
  | status t =>
    cases c with
    | finds changed =>
      obtain rfl : changed = true := hc
      cases h
      exact .inl rfl
    | works | makes _ | fails => cases hc
  | diffCached =>
    cases c with
    | works =>
      cases h
      exact rfl
    | finds _ | makes _ | fails => cases hc
  | unpushed t => exact .inl ((hok fun t => by simp).trans hc)
  | mirror | drain | add | commit _ => exact (hok fun t => by simp).trans hc
  | rotate | discard =>
    obtain ⟨hworks, hnone⟩ := (Bool.and_eq_true _ _).mp hc
    exact ⟨(hok fun t => by simp).trans hworks, List.isEmpty_iff.1 hnone⟩
  | append _ | recover => exact List.isEmpty_iff.1 hc
  | headCommit reader =>
    cases reader with
    | commit => exact (hok fun t => by simp).trans hc
    | boot | fallback | pull => trivial
  | _ => trivial

theorem tendedDriver_follows : (serviceDriver true isTended).Follows serviceTended :=
  serviceDriver_follows (fun _ _ _ _ _ hc h => ⟨tended_of_isTended h hc, step_of_perform h⟩)
    fun _ => ⟨trivial, rfl⟩

theorem starts_freshClone {tracking remote : Option History}
    (h : ∀ sha ∈ tracking.getD [], (freshClone tracking remote).Has sha) :
    Starts (freshClone tracking remote) :=
  ⟨rfl, rfl, h, rfl, rfl, rfl, rfl, rfl, rfl, rfl⟩

/-- A boot, and a sync whose push and whose fetch fail. -/
def outage : List (Event Request Choice) :=
  .arrive .boot :: works 0 4 ++ commits 1 "c1" ++ [.run 1 .fails, .run 1 .fails, .run 1 .works]

/-- What the sync returns. -/
def outageResult : SyncResult :=
  { kind := .deferred, files := [], commit := some "c1", reason := some "failed" }

/-- The outage, in a clone that knows of the remote's `main`. -/
def afterOutage : Pool lang Request Answer :=
  (serviceDriver true isTended).drive ⟨freshClone (some ["c0"]) (some ["c0"]), []⟩ outage

/-- The retry pushes. -/
def afterRetry : Pool lang Request Answer :=
  (serviceDriver true isTended).drive afterOutage (.arrive .retry :: works 2 4)

theorem deferred_backup_is_retried_pushed :
    Deferred afterOutage ∧ afterRetry.Answered 2 .retry (.ok (.retried ⟨true, 1⟩)) ∧
      afterRetry.state.Backed 2 := by
  have hdeferred : Deferred afterOutage := ⟨1, outageResult, by decide +kernel, rfl⟩
  have hanswered : afterRetry.Answered 2 .retry (.ok (.retried ⟨true, 1⟩)) := by decide +kernel
  have hstart : Starts (freshClone (some ["c0"]) (some ["c0"])) :=
    starts_freshClone fun sha hsha => ⟨_, rfl, hsha⟩
  obtain ⟨hretried, -⟩ := deferred_backup_is_retried
    (Driver.drive_reach tendedDriver_follows hstart outage)
    (Driver.drive_steps tendedDriver_follows afterOutage (.arrive .retry :: works 2 4))
  exact ⟨hdeferred, hanswered, (hretried hdeferred 2 (by decide +kernel) _).1 hanswered⟩

/-- The outage, in a clone that has never pushed or fetched. -/
def afterFirstOutage : Pool lang Request Answer :=
  (serviceDriver true fun _ _ _ => true).drive ⟨freshClone none none, []⟩ outage

/-- The retry cannot list what is unpushed. -/
def afterIdleRetry : Pool lang Request Answer :=
  (serviceDriver true fun _ _ _ => true).drive afterFirstOutage [.arrive .retry, .run 2 .works, .run 2 .fails]

/-- The clone without a remote-tracking branch never retries. -/
theorem deferred_backup_is_not_retried :
    ¬ ∀ p p', Reach (service true) Starts p → Steps (service true) p p' →
      (Deferred p → Retried p p') ∧ Reported p' := by
  intro h
  have hfollows : (serviceDriver true fun _ _ _ => true).Follows (service true) :=
    serviceDriver_follows (fun _ _ _ _ _ _ h => step_of_perform h) fun _ => rfl
  have hstart : Starts (freshClone none none) := starts_freshClone fun sha hsha => by cases hsha
  have hdeferred : Deferred afterFirstOutage := ⟨1, outageResult, by decide +kernel, rfl⟩
  have hanswered : afterIdleRetry.Answered 2 .retry (.ok (.retried ⟨false, 0⟩)) := by decide +kernel
  obtain ⟨hretried, -⟩ := h _ _ (Driver.drive_reach hfollows hstart outage)
    (Driver.drive_steps hfollows afterFirstOutage [.arrive .retry, .run 2 .works, .run 2 .fails])
  have hattempts : 2 ∉ afterIdleRetry.state.attempts := by decide +kernel
  have hlooks : ¬ ∃ l ∈ afterIdleRetry.state.looks, l.call = 2 ∧ l.contained = true := by decide +kernel
  exact ((hretried hdeferred 2 (by decide +kernel) _).1 hanswered).elim hattempts hlooks

end ConfigRegistry.Publish
