import ConfigRegistry.Async.Accord
import ConfigRegistry.Engine.DataLayer

/-!
# The engine does not deadlock

The locks of paths are taken in the order of the paths, and the publication lock after them; what runs under
the publication lock waits for nothing but the disk and the consumer of events.
-/

namespace ConfigRegistry.Engine

open Js Async Fs Store

/-! ### What runs without waiting for another call -/

/-- The locks and the first recovery are as they were. -/
structure SameTurns (s s' : State) : Prop where
  queue : s'.queue = s.queue
  ready : s'.ready = s.ready

theorem SameTurns.refl (s : State) : SameTurns s s := ⟨rfl, rfl⟩

/-- The program waits for no other call, and takes no turn. -/
abbrev Unlocked {α : Type} (p : Prog lang α) : Prop :=
  p.Within (S := lang) (fun o : Op => o.waits = false) SameTurns

section Unlocked

variable {host : Host} {α : Type}

theorem unlocked_lift (r : Except Error α) : Unlocked (lift r) := trivial

theorem unlocked_op {o : Op} (h : o.waits = false) : Unlocked (Prog.op (S := lang) o) := .op h

theorem unlocked_assertNoSymlinks (path : String) : Unlocked (assertNoSymlinks path) := by
  apply Prog.Within.bind (unlocked_lift _)
  intro place
  apply Prog.Within.each
  intro candidate _
  apply Prog.Within.bind (unlocked_op rfl).attempt
  intro r
  match r with
  | .ok .link => exact .fail _
  | .ok .file => exact .pure ()
  | .ok .dir => exact .pure ()
  | .error e =>
    show Unlocked (if e.isMissing then Pure.pure () else Prog.fail e)
    split
    · exact .pure ()
    · exact .fail _

theorem unlocked_readOptional (place : Place) : Unlocked (readOptional place) := by
  apply Prog.Within.bind (unlocked_op rfl).attempt
  intro r
  cases r with
  | ok text => exact .pure _
  | error e =>
    show Unlocked (if e.isMissing then Pure.pure none else Prog.fail e)
    split
    · exact .pure none
    · exact .fail _

theorem unlocked_sync (place : Place) : Unlocked (syncDirectory place) := unlocked_op rfl

theorem unlocked_ensureDirectory (place : Place) : Unlocked (ensureDirectory place) := by
  apply Prog.Within.bind (unlocked_op rfl)
  intro first
  cases first with
  | none => exact .pure ()
  | some first => exact .each fun p _ => unlocked_sync p

theorem unlocked_randomUUID : Unlocked (randomUUID host) := ⟨fun _ => ⟨rfl, rfl⟩, fun _ => trivial⟩

theorem unlocked_write (place : Place) (content : String) : Unlocked (write host place content) := by
  apply Prog.Within.bind (unlocked_ensureDirectory _)
  intro _
  apply Prog.Within.bind unlocked_randomUUID
  intro id
  apply Prog.Within.handle
  · apply Prog.Within.bind (unlocked_op rfl)
    intro _
    exact .bind (unlocked_op rfl) fun _ => unlocked_sync _
  · intro e
    exact .bind (unlocked_op rfl).attempt fun _ => .fail e

theorem unlocked_remove (place : Place) : Unlocked (remove place) :=
  .bind (unlocked_op rfl) fun _ => unlocked_sync _

theorem unlocked_install (staged target : Place) : Unlocked (install staged target) := by
  apply Prog.Within.bind (unlocked_ensureDirectory _)
  intro _
  apply Prog.Within.bind (unlocked_op rfl)
  intro _
  exact .bind (unlocked_sync _) fun _ => unlocked_sync _

theorem unlocked_complete (id : String) : Unlocked (complete id) :=
  .bind (unlocked_op rfl) fun _ => unlocked_sync _

theorem unlocked_prepare (files : List MutationRequest) : Unlocked (prepare host files) := by
  apply Prog.Within.bind unlocked_randomUUID
  intro id
  apply Prog.Within.bind (unlocked_op rfl)
  intro _
  apply Prog.Within.bind (unlocked_sync _)
  intro _
  apply Prog.Within.bind (unlocked_sync _)
  intro _
  apply Prog.Within.bind (unlocked_sync _)
  intro _
  apply Prog.Within.handle
  · apply Prog.Within.bind
    · apply Prog.Within.each
      rintro ⟨file, index⟩ _
      dsimp only
      split
      · exact unlocked_write _ _
      · exact .pure ()
    · exact fun _ => .pure _
  · intro e
    exact .bind (unlocked_complete id) fun _ => .fail e

theorem unlocked_recordIntent (prepared : Prepared) (revision : Nat) :
    Unlocked (recordIntent host prepared revision) :=
  .bind (unlocked_write _ _) fun _ => .pure _

theorem unlocked_checkPayload (id : String) (file : Mutation) (index : Nat) :
    Unlocked (checkPayload host id file index) := by
  apply Prog.Within.bind (unlocked_assertNoSymlinks _)
  intro _
  split
  · exact .pure ()
  · apply Prog.Within.bind (unlocked_readOptional _)
    intro target
    split
    · exact .pure ()
    · apply Prog.Within.bind (unlocked_readOptional _)
      intro payload
      split
      · exact .pure ()
      · exact .fail _

theorem unlocked_applyFile (id : String) (file : Mutation) (index : Nat) :
    Unlocked (applyFile host id file index) := by
  apply Prog.Within.bind (unlocked_readOptional _)
  intro current
  split
  · exact .pure ()
  · split
    · exact unlocked_remove _
    · exact unlocked_install _ _

theorem unlocked_apply (id : String) (intent : Intent) : Unlocked (apply host id intent) :=
  .bind (.each fun f _ => unlocked_checkPayload id f.1 f.2) fun _ => .each fun f _ => unlocked_applyFile id f.1 f.2

theorem unlocked_pendingOf (id : String) : Unlocked (pendingOf host id) := by
  unfold pendingOf
  split
  · exact .fail _
  · apply Prog.Within.bind (unlocked_readOptional _)
    intro source
    cases source with
    | none => exact .bind (unlocked_complete id) fun _ => .pure none
    | some source =>
      apply Prog.Within.bind (unlocked_lift _)
      intro intent
      apply Prog.Within.bind
      · exact .each fun file _ => .bind (unlocked_lift _) fun _ => .pure ()
      · exact fun _ => .pure _

theorem unlocked_pending : Unlocked (pending host) := by
  apply Prog.Within.bind (unlocked_op rfl).attempt
  intro r
  cases r with
  | error e =>
    show Unlocked (if e.isMissing then Pure.pure [] else Prog.fail e)
    split
    · exact .pure []
    · exact .fail _
  | ok entries => exact .bind (.collect fun id _ => unlocked_pendingOf id) fun _ => .pure _

theorem unlocked_revisionUnlocked : Unlocked revisionUnlocked := by
  apply Prog.Within.bind (unlocked_readOptional _)
  intro source
  cases source with
  | none => exact .pure 0
  | some source => exact unlocked_lift _

theorem unlocked_readUnlocked (path : String) : Unlocked (readUnlocked path) :=
  .bind (unlocked_assertNoSymlinks path) fun _ => unlocked_readOptional _

theorem unlocked_assertHealthy : Unlocked assertHealthy := by
  apply Prog.Within.get_bind SameTurns.refl
  intro s
  split
  · exact .fail _
  · exact .pure ()

theorem unlocked_recordRevision (current revision : Nat) : Unlocked (recordRevision host current revision) := by
  unfold recordRevision
  split
  · exact .pure ()
  · exact unlocked_write _ _

theorem unlocked_finish (id : String) (intent : Intent) : Unlocked (finish host id intent) := by
  apply Prog.Within.bind unlocked_revisionUnlocked
  intro current
  split
  · exact .fail _
  · apply Prog.Within.bind (unlocked_apply id intent)
    intro _
    apply Prog.Within.bind (unlocked_recordRevision _ _)
    intro _
    apply Prog.Within.bind
    · exact .each fun file _ => unlocked_op rfl
    · exact fun _ => unlocked_complete id

theorem unlocked_recoverPending : Unlocked (recoverPending host) :=
  .bind unlocked_pending fun _ => .each fun f _ => unlocked_finish f.1 f.2

theorem unlocked_checkDirectory (path : String) : Unlocked (checkDirectory path) := by
  unfold checkDirectory
  split
  · exact .pure ()
  · exact unlocked_assertNoSymlinks _

theorem unlocked_visit (depth : Nat) (path : String) : Unlocked (visit depth path) := by
  induction depth generalizing path with
  | zero => exact .fail _
  | succ depth ih =>
    apply Prog.Within.bind (unlocked_checkDirectory path)
    intro _
    apply Prog.Within.bind (unlocked_op rfl).attempt
    intro r
    cases r with
    | error e =>
      show Unlocked (if e.isMissing then Pure.pure [] else Prog.fail e)
      split
      · exact .pure []
      · exact .fail _
    | ok entries =>
      apply Prog.Within.bind
      · apply Prog.Within.collect
        rintro ⟨name, kind⟩ _
        dsimp only
        split
        · exact .pure []
        · cases kind with
          | link => exact .fail _
          | dir => exact ih _
          | file =>
            apply Prog.Within.bind (unlocked_readOptional _)
            intro content
            cases content with
            | none => exact .pure []
            | some content => exact .pure _
      · exact fun _ => .pure _

theorem unlocked_documentNames (path : String) : Unlocked (documentNames path) := by
  apply Prog.Within.bind (unlocked_assertNoSymlinks _)
  intro _
  apply Prog.Within.bind (unlocked_op rfl).attempt
  intro r
  cases r with
  | ok entries => exact .pure _
  | error e =>
    show Unlocked (if e.isMissing then Pure.pure [] else Prog.fail e)
    split
    · exact .pure []
    · exact .fail _

theorem unlocked_refuse (prepared : Option Prepared) (path : String) (actual : Option String) :
    Unlocked (refuse prepared path actual) := by
  have habandon : Unlocked (abandon prepared) := by
    cases prepared with
    | none => exact .pure ()
    | some prepared => exact unlocked_complete _
  exact .bind habandon fun _ => .bind unlocked_revisionUnlocked fun _ => .pure _

theorem unlocked_checkCollection (prepared : Option Prepared) (check : CollectionPrecondition) :
    Unlocked (checkCollection prepared check) := by
  apply Prog.Within.bind (unlocked_documentNames _)
  intro names
  split
  · exact .bind (unlocked_refuse _ _ _) fun _ => .pure _
  · exact .pure none

theorem unlocked_checkRead (prepared : Option Prepared) (check : ReadPrecondition) :
    Unlocked (checkRead host prepared check) := by
  apply Prog.Within.bind (unlocked_readUnlocked _)
  intro source
  dsimp only
  split
  · exact .bind (unlocked_refuse _ _ _) fun _ => .pure _
  · exact .pure none

theorem unlocked_publish (prepared : Prepared) (etags : List (String × String)) :
    Unlocked (publish host prepared etags) := by
  apply Prog.Within.bind unlocked_revisionUnlocked
  intro current
  split
  · exact .fail _
  · apply Prog.Within.bind
    · apply Prog.Within.handle
      · exact .bind (unlocked_recordIntent _ _) fun intent => unlocked_finish _ intent
      · intro e
        apply Prog.Within.bind
        · exact .modify fun _ => ⟨rfl, rfl⟩
        · exact fun _ => .fail e
    · exact fun _ => .pure _

theorem unlocked_commit (batch : Batch) (prepared : Option Prepared) (etags : List (String × String)) :
    Unlocked (commit host batch prepared etags) := by
  apply Prog.Within.bind unlocked_assertHealthy
  intro _
  apply Prog.Within.bind (.search fun check _ => unlocked_checkCollection _ check)
  intro r
  cases r with
  | some r => exact .pure r
  | none =>
    apply Prog.Within.bind (.search fun check _ => unlocked_checkRead _ check)
    intro r
    cases r with
    | some r => exact .pure r
    | none =>
      cases prepared with
      | none => exact .bind unlocked_revisionUnlocked fun _ => .pure _
      | some prepared => exact unlocked_publish _ _

end Unlocked

/-! ### Turns at the locks -/

/-- The order in which a call takes locks. -/
def Lock.before : Lock → Lock → Prop
  | .path p, .path q => textLe p q = true ∧ p ≠ q
  | .path _, .publication => True
  | .publication, _ => False

/-- The call that runs the first recovery. -/
def Readiness.runner : Readiness → Option Nat
  | .running t => some t
  | _ => none

/-- Whether the first recovery has begun. -/
def Readiness.Begun : Readiness → Prop
  | .absent => False
  | _ => True

/-- Call `t` is in line at no lock, and does not run the recovery. -/
structure Outside (t : Nat) (s : State) : Prop where
  queue : ∀ lock, t ∉ s.queue lock
  runner : s.ready.runner ≠ some t

/-- Call `t` has these locks, is in line at no other, and runs the recovery where `running` says so. -/
structure Held (t : Nat) (locks : List Lock) (running : Bool) (s : State) : Prop where
  mem : ∀ lock, t ∈ s.queue lock ↔ lock ∈ locks
  head : ∀ lock ∈ locks, (s.queue lock).head? = some t
  runner : s.ready.runner = some t ↔ running = true

/-- Call `t` waits for a lock: those that it has come before it, and it runs no recovery unless it waits to
publish. -/
structure InLine (t : Nat) (lock : Lock) (s : State) : Prop where
  mem : t ∈ s.queue lock
  others : ∀ l, t ∈ s.queue l → l = lock ∨ l.before lock ∧ (s.queue l).head? = some t
  runner : s.ready.runner = some t → lock = .publication

/-- Call `t` waits for the first recovery, with locks of paths only. -/
structure Idle (t : Nat) (s : State) : Prop where
  others : ∀ l, t ∈ s.queue l → (∃ path, l = .path path) ∧ (s.queue l).head? = some t
  runner : s.ready.runner ≠ some t
  begun : s.ready.Begun

/-- What is known of call `t` where it waits. -/
def Waiting (t : Nat) : Op → State → Prop
  | .enter lock u, s => u = t ∧ InLine t lock s
  | .first, s => Idle t s
  | _, _ => True

/-- What the others leave of what call `t` has. -/
structure Untouched (t : Nat) (s s' : State) : Prop where
  mem : ∀ lock, t ∈ s'.queue lock ↔ t ∈ s.queue lock
  head : ∀ lock, (s.queue lock).head? = some t → (s'.queue lock).head? = some t
  runner : s'.ready.runner = some t ↔ s.ready.runner = some t
  begun : s.ready.Begun → s'.ready.Begun

theorem SameTurns.untouched {s s' : State} (h : SameTurns s s') (t : Nat) : Untouched t s s' := by
  constructor
  · simp [h.queue]
  · simp [h.queue]
  · rw [h.ready]
  · rw [h.ready]
    exact id

theorem Untouched.trans {t : Nat} {s s' s'' : State} (h : Untouched t s s') (h' : Untouched t s' s'') :
    Untouched t s s'' where
  mem lock := (h'.mem lock).trans (h.mem lock)
  head lock hhead := h'.head lock (h.head lock hhead)
  runner := h'.runner.trans h.runner
  begun hbegun := h'.begun (h.begun hbegun)

theorem Outside.untouched {t : Nat} {s s' : State} (h : Outside t s) (hs : Untouched t s s') : Outside t s' where
  queue lock hmem := h.queue lock ((hs.mem lock).1 hmem)
  runner hrunner := h.runner (hs.runner.1 hrunner)

theorem Waiting.untouched {t : Nat} {o : Op} {s s' : State} (h : Waiting t o s) (hs : Untouched t s s') :
    Waiting t o s' := by
  cases o with
  | enter lock u =>
    obtain ⟨rfl, h⟩ := h
    refine ⟨rfl, ⟨(hs.mem lock).2 h.mem, fun l hl => ?_, fun hr => h.runner (hs.runner.1 hr)⟩⟩
    rcases h.others l ((hs.mem l).1 hl) with rfl | ⟨hbefore, hhead⟩
    · exact .inl rfl
    · exact .inr ⟨hbefore, hs.head l hhead⟩
  | first =>
    refine ⟨fun l hl => ?_, fun hr => h.runner (hs.runner.1 hr), hs.begun h.begun⟩
    obtain ⟨hpath, hhead⟩ := h.others l ((hs.mem l).1 hl)
    exact ⟨hpath, hs.head l hhead⟩
  | _ => trivial

/-- Calls take turns: no call is in line twice at one lock. -/
def turns : Accord lang where
  inv s := ∀ lock, (s.queue lock).Nodup
  rely := Untouched
  fresh := Outside
  waits := Waiting
  rely_refl t s := (SameTurns.refl s).untouched t
  rely_trans _ _ _ _ h h' := h.trans h'
  fresh_rely _ _ _ h hs := h.untouched hs
  waits_rely _ _ _ _ h hs := h.untouched hs

variable {fails : Op → State → Prop} {kills : Prop} {t : Nat} {locks : List Lock} {running : Bool}

theorem SameTurns.keeps {s s' : State} (h : SameTurns s s') (hi : turns.inv s) : turns.Keeps t s s' where
  inv lock := by
    rw [h.queue]
    exact hi lock
  others u _ := h.untouched u

theorem Held.same {s s' : State} (h : Held t locks running s) (hs : SameTurns s s') : Held t locks running s' where
  mem lock := by rw [hs.queue]; exact h.mem lock
  head lock := by rw [hs.queue]; exact h.head lock
  runner := by rw [hs.ready]; exact h.runner

theorem stable_held : turns.Stable t (Held t locks running) := fun s s' h hs _ => by
  refine ⟨fun lock => (hs.mem lock).trans (h.mem lock), fun lock hlock => hs.head lock (h.head lock hlock), ?_⟩
  exact hs.runner.trans h.runner

theorem rename_sameTurns (s : State) (source target : Place) : SameTurns s (s.rename source target).2 := by
  unfold State.rename
  split
  · exact ⟨rfl, rfl⟩
  · exact ⟨rfl, rfl⟩

/-- Operations other than the two waits leave the locks alone, whether they succeed, fail or are cut short. -/
theorem leaves_sameTurns {o : Op} {s s' : State} (h : o.leaves s s') : SameTurns s s' := by
  cases o with
  | mkdir place =>
    obtain ⟨n, rfl⟩ := h
    exact ⟨rfl, rfl⟩
  | create place text =>
    rcases h with rfl | ⟨text, -, rfl⟩
    · exact .refl _
    · exact ⟨rfl, rfl⟩
  | rename source target =>
    rcases h with rfl | rfl
    · exact .refl _
    · exact rename_sameTurns s source target
  | rm place =>
    rcases h with rfl | rfl
    · exact .refl _
    · exact ⟨rfl, rfl⟩
  | rmAll place =>
    obtain ⟨kept, rfl⟩ := h
    exact ⟨rfl, rfl⟩
  | emit event =>
    rcases h with rfl | rfl
    · exact .refl _
    · exact ⟨rfl, rfl⟩
  | _ =>
    obtain rfl : s' = s := h
    exact .refl _

theorem perform_sameTurns (o : Op) (s : State) : SameTurns s (o.perform s).2 := by
  cases o with
  | first =>
    simp only [Op.perform]
    split
    · exact .refl _
    · exact .refl _
  | rename source target => exact rename_sameTurns s source target
  | _ => exact ⟨rfl, rfl⟩

theorem step_sameTurns {o : Op} {s s' : State} {r : Except Error o.Res} (h : (sem fails kills).step o s r s') :
    SameTurns s s' := by
  rcases h.2 with h | ⟨-, -, -, h⟩
  · have := perform_sameTurns o s
    rwa [← h] at this
  · exact leaves_sameTurns h

/-- What waits for no other call is done with the locks that there are. -/
theorem idle_of_unlocked {α : Type} {p : Prog lang α} (h : Unlocked p) :
    turns.Idle (sem fails kills) t (Held t locks running) p := by
  apply Accord.Idle.of_within h stable_held
  · intro o s ho _ _
    cases o with
    | enter lock u => cases ho
    | first => cases ho
    | _ => trivial
  · intro o s r s' _ hheld hi hstep
    have hsame := step_sameTurns hstep
    exact ⟨hsame.keeps hi, hheld.same hsame⟩
  · intro o s s' _ _ hi htorn
    exact (leaves_sameTurns htorn).keeps hi
  · intro s s' hheld hi hsame
    exact ⟨hsame.keeps hi, hheld.same hsame⟩

/-! ### Taking a lock -/

theorem Lock.before_irrefl (lock : Lock) : ¬lock.before lock := by
  cases lock with
  | publication => exact id
  | path p => exact fun h => h.2 rfl

theorem queue_enqueue (s : State) (lock : Lock) (t : Nat) (l : Lock) :
    (s.enqueue lock t).queue l = if l = lock then s.queue l ++ [t] else s.queue l := rfl

theorem queue_release (s : State) (lock l : Lock) :
    (s.release lock).queue l = if l = lock then (s.queue l).tail else s.queue l := rfl

/-- Call `t` has these locks, and is in line at one more. -/
structure Queued (t : Nat) (lock : Lock) (locks : List Lock) (running : Bool) (s : State) : Prop where
  mem : ∀ l, t ∈ s.queue l ↔ l = lock ∨ l ∈ locks
  head : ∀ l ∈ locks, (s.queue l).head? = some t
  runner : s.ready.runner = some t ↔ running = true

variable {lock : Lock}

theorem stable_queued : turns.Stable t (Queued t lock locks running) := fun s s' h hs _ => by
  refine ⟨fun l => (hs.mem l).trans (h.mem l), fun l hl => hs.head l (h.head l hl), hs.runner.trans h.runner⟩

/-- A call takes its turn at a lock that it is not in line at. -/
theorem enqueue_keeps {s : State} (hi : turns.inv s) (hheld : Held t locks running s) (hnew : lock ∉ locks) :
    turns.Keeps t s (s.enqueue lock t) ∧ Queued t lock locks running (s.enqueue lock t) := by
  have hout : t ∉ s.queue lock := fun hmem => hnew ((hheld.mem lock).1 hmem)
  refine ⟨⟨fun l => ?_, fun u hu => ⟨fun l => ?_, fun l hhead => ?_, Iff.rfl, id⟩⟩, ⟨fun l => ?_, fun l hl => ?_, hheld.runner⟩⟩
  · rw [queue_enqueue]
    split
    · rename_i heq
      subst heq
      rw [List.nodup_append]
      refine ⟨hi l, List.nodup_singleton t, ?_⟩
      intro a ha b hb
      rw [List.mem_singleton.1 hb]
      rintro rfl
      exact hout ha
    · exact hi l
  · rw [queue_enqueue]
    split
    · rw [List.mem_append, List.mem_singleton, or_iff_left hu]
    · rfl
  · rw [queue_enqueue]
    split
    · rw [List.head?_append, hhead]
      rfl
    · exact hhead
  · rw [queue_enqueue]
    split
    · rename_i heq
      simp [heq]
    · rename_i hne
      rw [hheld.mem l, or_iff_right hne]
  · rw [queue_enqueue, if_neg, hheld.head l hl]
    rintro rfl
    exact hnew hl

/-- A call leaves the lock that it has. -/
theorem release_keeps {s : State} (hi : turns.inv s) (hheld : Held t (lock :: locks) running s)
    (hnew : lock ∉ locks) :
    turns.Keeps t s (s.release lock) ∧ Held t locks running (s.release lock) := by
  have hhead := hheld.head lock List.mem_cons_self
  obtain ⟨rest, hqueue⟩ := List.head?_eq_some_iff.1 hhead
  have hnodup := hi lock
  rw [hqueue, List.nodup_cons] at hnodup
  refine ⟨⟨fun l => ?_, fun u hu => ⟨fun l => ?_, fun l hl => ?_, Iff.rfl, id⟩⟩, ⟨fun l => ?_, fun l hl => ?_, hheld.runner⟩⟩
  · rw [queue_release]
    split
    · rename_i heq
      rw [heq, hqueue]
      exact hnodup.2
    · exact hi l
  · rw [queue_release]
    split
    · rename_i heq
      rw [heq, hqueue, List.tail_cons, List.mem_cons, or_iff_right hu]
    · rfl
  · rw [queue_release, if_neg, hl]
    rintro rfl
    rw [hhead] at hl
    exact hu (Option.some.inj hl).symm
  · rw [queue_release]
    split
    · rename_i heq
      rw [heq, hqueue, List.tail_cons]
      exact iff_of_false hnodup.1 hnew
    · rename_i hne
      rw [hheld.mem l, List.mem_cons, or_iff_right hne]
  · rw [queue_release, if_neg, hheld.head l (List.mem_cons_of_mem _ hl)]
    rintro rfl
    exact hnew hl

/-- What is done with one more lock is done with it from its turn on until the end. -/
theorem idle_withLock {α : Type} {body : Prog lang α} (hbefore : ∀ l ∈ locks, l.before lock)
    (hrunning : running = true → lock = .publication)
    (hbody : turns.Idle (sem fails kills) t (Held t (lock :: locks) running) body) :
    turns.Idle (sem fails kills) t (Held t locks running) (withLock lock t body) := by
  have hnew : lock ∉ locks := fun hmem => lock.before_irrefl (hbefore lock hmem)
  have hline : turns.Runs (sem fails kills) t (Held t locks running) (Prog.modify (S := lang) (State.enqueue · lock t))
      (Accord.Returned fun _ s => Queued t lock locks running s) :=
    .modify fun s hheld hi => enqueue_keeps hi hheld hnew
  have henter : turns.Runs (sem fails kills) t (Queued t lock locks running) (Prog.op (S := lang) (.enter lock t))
      (Accord.Returned fun _ s => Held t (lock :: locks) running s) := by
    refine .op_torn stable_queued (Accord.Stable.returned fun _ => stable_held) ?_ ?_ ?_
    · intro s hqueued _
      refine ⟨rfl, (hqueued.mem lock).2 (.inl rfl), fun l hl => ?_, fun hrunner => ?_⟩
      · exact ((hqueued.mem l).1 hl).imp_right fun hl => ⟨hbefore l hl, hqueued.head l hl⟩
      · exact hrunning (hqueued.runner.1 hrunner)
    · rintro s r s' hqueued hi ⟨hmay, hstep | ⟨hwaits, -⟩⟩
      · obtain ⟨rfl, rfl⟩ := Prod.mk.inj hstep
        refine ⟨.refl hi, fun l => ?_, fun l hl => ?_, hqueued.runner⟩
        · rw [hqueued.mem l, List.mem_cons]
        · rcases List.mem_cons.1 hl with rfl | hl
          · exact hmay
          · exact hqueued.head l hl
      · cases hwaits
    · intro s s' _ hi htorn
      have hleaves : Op.leaves (.enter lock t) s s' := htorn
      exact (leaves_sameTurns hleaves).keeps hi
  have hrelease : turns.Runs (sem fails kills) t (Held t (lock :: locks) running)
      (Prog.modify (S := lang) (State.release · lock)) (Accord.Returned fun _ s => Held t locks running s) :=
    .modify fun s hheld hi => release_keeps hi hheld hnew
  apply Accord.Runs.bind_returns hline
  intro _
  apply Accord.Runs.bind_returns henter
  intro _
  exact .ensure hbody fun _ => hrelease

/-! ### The first recovery -/

variable {host : Host}

/-- The locks are those of paths. -/
def OfPaths (locks : List Lock) : Prop := ∀ lock ∈ locks, ∃ path, lock = .path path

theorem OfPaths.before (h : OfPaths locks) : ∀ l ∈ locks, l.before .publication := by
  intro l hl
  obtain ⟨path, rfl⟩ := h l hl
  exact trivial

/-- Call `t` has these locks, and the first recovery has begun. -/
def Started (t : Nat) (locks : List Lock) (s : State) : Prop := Held t locks false s ∧ s.ready.Begun

theorem stable_started : turns.Stable t (Started t locks) := fun s s' h hs hi =>
  ⟨stable_held s s' h.1 hs hi, hs.begun h.2⟩

/-- A change of what is known of the first recovery, which leaves the queues. -/
theorem ready_keeps {s : State} {ready : Readiness} (hi : turns.inv s) (hbegun : ready.Begun)
    (hothers : ∀ u, u ≠ t → (ready.runner = some u ↔ s.ready.runner = some u)) :
    turns.Keeps t s { s with ready } :=
  ⟨hi, fun u hu => ⟨fun _ => Iff.rfl, fun _ => id, hothers u hu, fun _ => hbegun⟩⟩

theorem begin_runs (hpaths : OfPaths locks) :
    turns.Runs (sem fails kills) t (Held t locks false) (begin_ host t) (Accord.Returned fun _ => Started t locks) := by
  refine .get_bind fun s => ?_
  cases hready : s.ready with
  | absent =>
    have hbegin : turns.Runs (sem fails kills) t (fun s' => Held t locks false s' ∧ s' = s)
        (Prog.modify (S := lang) fun s => { s with ready := .running t })
        (Accord.Returned fun _ => Held t locks true) := by
      apply Accord.Runs.modify
      rintro s' ⟨hheld, rfl⟩ hi
      refine ⟨ready_keeps hi trivial fun u hu => ?_, hheld.mem, hheld.head, by simp [Readiness.runner]⟩
      rw [hready]
      simp [Readiness.runner, Ne.symm hu]
    have hrecover : turns.Idle (sem fails kills) t (Held t locks true)
        (withLock .publication t (recoverPending host)) :=
      idle_withLock hpaths.before (fun _ => rfl) (idle_of_unlocked unlocked_recoverPending)
    apply Accord.Runs.bind_returns hbegin
    intro _
    apply Accord.Runs.bind_returns hrecover.attempt_returns
    intro r
    apply Accord.Runs.modify
    intro s' hheld hi
    refine ⟨ready_keeps hi trivial fun u hu => ?_, ⟨hheld.mem, hheld.head, by simp [Readiness.runner]⟩, trivial⟩
    have hrunner := hheld.runner.2 rfl
    rw [hrunner]
    simp [Readiness.runner, Ne.symm hu]
  | running u =>
    refine .pure fun s' hs _ => ?_
    obtain ⟨hheld, rfl⟩ := hs
    exact ⟨hheld, by rw [hready]; trivial⟩
  | settled r =>
    refine .pure fun s' hs _ => ?_
    obtain ⟨hheld, rfl⟩ := hs
    exact ⟨hheld, by rw [hready]; trivial⟩

theorem first_runs (hpaths : OfPaths locks) :
    turns.Runs (sem fails kills) t (Started t locks) (Prog.op (S := lang) .first) fun _ => Held t locks false := by
  refine .op_torn stable_started (fun _ => stable_held) ?_ ?_ ?_
  · rintro s ⟨hheld, hbegun⟩ _
    refine ⟨fun l hl => ?_, fun hrunner => ?_, hbegun⟩
    · have hmem := (hheld.mem l).1 hl
      exact ⟨hpaths l hmem, hheld.head l hmem⟩
    · exact Bool.false_ne_true (hheld.runner.1 hrunner)
  · intro s r s' hstarted hi hstep
    have hsame := step_sameTurns hstep
    exact ⟨hsame.keeps hi, hstarted.1.same hsame⟩
  · intro s s' _ hi htorn
    have hleaves : Op.leaves .first s s' := htorn
    exact (leaves_sameTurns hleaves).keeps hi

theorem idle_recover (hpaths : OfPaths locks) :
    turns.Idle (sem fails kills) t (Held t locks false) (recover host t) := by
  apply Accord.Runs.bind_returns (begin_runs hpaths)
  intro _
  have hhealthy : turns.Idle (sem fails kills) t (Held t locks false) assertHealthy :=
    idle_of_unlocked unlocked_assertHealthy
  exact .bind (first_runs hpaths) (fun _ => hhealthy) fun _ _ _ hheld => hheld

/-! ### Calls -/

variable {α : Type}

theorem idle_published (hpaths : OfPaths locks) {body : Prog lang α} (hbody : Unlocked body) :
    turns.Idle (sem fails kills) t (Held t locks false) (published host t body) := by
  apply Accord.Idle.bind (idle_recover hpaths)
  intro _
  apply idle_withLock hpaths.before (fun _ => rfl)
  exact idle_of_unlocked (.bind unlocked_assertHealthy fun _ => hbody)

theorem idle_read (hpaths : OfPaths locks) (path : String) :
    turns.Idle (sem fails kills) t (Held t locks false) (read host t path) :=
  .bind (.done _) fun _ => idle_published hpaths (unlocked_readUnlocked path)

theorem idle_etag (hpaths : OfPaths locks) (path : String) :
    turns.Idle (sem fails kills) t (Held t locks false) (etag host t path) :=
  .bind (idle_read hpaths path) fun _ => .pure _

theorem idle_revision (hpaths : OfPaths locks) :
    turns.Idle (sem fails kills) t (Held t locks false) (revision host t) :=
  idle_published hpaths unlocked_revisionUnlocked

theorem idle_snapshot (hpaths : OfPaths locks) (pre : String) :
    turns.Idle (sem fails kills) t (Held t locks false) (snapshot host t pre) := by
  apply Accord.Idle.bind (.done _)
  intro _
  apply idle_published hpaths
  apply Prog.Within.get_bind SameTurns.refl
  intro s
  exact .bind (unlocked_visit _ pre) fun _ => .bind unlocked_revisionUnlocked fun _ => .pure _

theorem idle_prepareChanged (changed : List MutationRequest) :
    turns.Idle (sem fails kills) t (Held t locks false) (prepareChanged host changed) := by
  unfold prepareChanged
  split
  · exact .pure none
  · exact .bind (idle_of_unlocked (unlocked_prepare changed)) fun _ => .pure _

theorem idle_transact (hpaths : OfPaths locks) (batch : Batch) :
    turns.Idle (sem fails kills) t (Held t locks false) (transact host t batch) := by
  apply Accord.Idle.bind (.done _)
  intro errors
  split
  · exact .pure _
  · apply Accord.Idle.bind
    · exact .collect _ fun request => .bind (idle_etag hpaths request.path) fun _ => .pure _
    · intro current
      split
      · exact .bind (idle_revision hpaths) fun _ => .pure _
      · apply Accord.Idle.bind (idle_prepareChanged _)
        intro prepared
        apply idle_withLock hpaths.before (fun _ => rfl)
        exact idle_of_unlocked (unlocked_commit _ _ _)

/-- The locks of paths are taken in the order of the paths. -/
theorem idle_withPaths {paths : List String} {body : Prog lang α}
    (hsorted : paths.Pairwise fun p q => textLe p q = true ∧ p ≠ q) (hpaths : OfPaths locks)
    (hbefore : ∀ lock ∈ locks, ∀ path ∈ paths, lock.before (.path path))
    (hbody : ∀ locks, OfPaths locks → turns.Idle (sem fails kills) t (Held t locks false) body) :
    turns.Idle (sem fails kills) t (Held t locks false) (withPaths t paths body) := by
  induction paths generalizing locks with
  | nil => exact hbody locks hpaths
  | cons path paths ih =>
    rw [List.pairwise_cons] at hsorted
    have hfirst : ∀ l ∈ locks, l.before (.path path) := fun l hl => hbefore l hl path List.mem_cons_self
    apply idle_withLock hfirst (fun hrunning => (Bool.false_ne_true hrunning).elim)
    apply ih hsorted.2
    · intro l hl
      rcases List.mem_cons.1 hl with rfl | hl
      · exact ⟨path, rfl⟩
      · exact hpaths l hl
    · intro l hl q hq
      rcases List.mem_cons.1 hl with rfl | hl
      · exact hsorted.1 q hq
      · exact hbefore l hl q (List.mem_cons_of_mem _ hq)

/-- Distinct paths that are sorted come one strictly after the other. -/
theorem pairwise_sortTexts {paths : List String} (h : paths.Nodup) :
    (sortTexts paths).Pairwise fun p q => textLe p q = true ∧ p ≠ q := by
  have hsorted : (sortTexts paths).Pairwise fun p q => textLe p q = true := List.pairwise_insertionSort _ _
  have hperm : (sortTexts paths).Perm paths := List.perm_insertionSort (fun p q => textLe p q = true) paths
  exact hsorted.and ((hperm.nodup_iff).2 h)

theorem idle_writeMany (batch : Batch) :
    turns.Idle (sem fails kills) t (Held t [] false) (writeMany host t batch) := by
  have hnone : OfPaths [] := by
    intro l hl
    cases hl
  unfold writeMany
  cases hcheck : checkPaths batch with
  | error e => exact .done _
  | ok u =>
    have hnodup : (batch.requests.map fun r => r.path).Nodup := by
      unfold checkPaths at hcheck
      split at hcheck
      · cases hcheck
      · split at hcheck
        · assumption
        · cases hcheck
    apply Accord.Idle.bind (.done _)
    intro _
    apply Accord.Idle.bind (idle_recover hnone)
    intro _
    apply idle_withPaths (pairwise_sortTexts hnodup) hnone
    · intro l hl
      cases hl
    · exact fun locks hpaths => idle_transact hpaths batch

theorem idle_serve (c : Call) : turns.Idle (sem fails kills) t (Held t [] false) (serve host t c) := by
  have hnone : OfPaths [] := by
    intro l hl
    cases hl
  cases c with
  | recover => exact .bind (idle_recover hnone) fun _ => .pure _
  | read path => exact .bind (idle_read hnone path) fun _ => .pure _
  | etag path => exact .bind (idle_etag hnone path) fun _ => .pure _
  | revision => exact .bind (idle_revision hnone) fun _ => .pure _
  | snapshot pre => exact .bind (idle_snapshot hnone pre) fun _ => .pure _
  | writeMany batch => exact .bind (idle_writeMany batch) fun _ => .pure _

theorem held_nil_iff {s : State} : Held t [] false s ↔ Outside t s := by
  constructor
  · intro h
    exact ⟨fun l hl => List.not_mem_nil ((h.mem l).1 hl), fun hr => Bool.false_ne_true (h.runner.1 hr)⟩
  · intro h
    refine ⟨fun l => iff_of_false (h.queue l) List.not_mem_nil, ?_, iff_of_false h.runner Bool.false_ne_true⟩
    intro l hl
    cases hl

/-! ### Some call can take a step -/

/-- An engine of a process that has just started. -/
structure Init (s : State) : Prop where
  queue : ∀ lock, s.queue lock = []
  ready : s.ready = .absent
  healthy : s.recoveryRequired = false

/-- Call `t` takes a step: it runs its next turn, or what it awaits comes. -/
inductive Advances (sys : System lang Call Answer) (t : Nat) : Pool lang Call Answer → Pool lang Call Answer → Prop where
  | complete {p : Pool lang Call Answer} {c : Call} {o : Op} {k : Except Error o.Res → Prog lang Answer}
      {r : Except Error o.Res} {s' : State} :
      sys.may p t → p.threads[t]? = some ⟨c, some (.await o k)⟩ → sys.sem.step o p.state r s' →
      Advances sys t p ⟨s', p.threads.set t ⟨c, some (k r)⟩⟩
  | resume {p : Pool lang Call Answer} {c : Call} {f : State → State} {k : State → Prog lang Answer} :
      p.threads[t]? = some ⟨c, some (.turn f k)⟩ →
      Advances sys t p ⟨((Prog.turn (S := lang) f k).settle p.state).2,
        p.threads.set t ⟨c, some ((Prog.turn (S := lang) f k).settle p.state).1⟩⟩

theorem Advances.step {sys : System lang Call Answer} {p p' : Pool lang Call Answer} (h : Advances sys t p p') :
    Step sys p p' := by
  cases h with
  | complete hmay ht hstep => exact .complete hmay ht hstep
  | resume ht => exact .resume ht

/-- A process that is not killed ends no call before it returns. -/
theorem prog_of_steps {p p' : Pool lang Call Answer} (h : Steps (engine host fails False) p p')
    (hp : ∀ th ∈ p.threads, th.prog ≠ none) : ∀ th ∈ p'.threads, th.prog ≠ none := by
  induction h with
  | refl => exact hp
  | tail _ hs ih =>
    intro th hth
    cases hs with
    | arrive _ =>
      rcases List.mem_append.1 hth with hth | hth
      · exact ih th hth
      · rw [List.mem_singleton.1 hth]
        simp
    | complete _ _ _ =>
      rcases List.mem_or_eq_of_mem_set hth with hth | rfl
      · exact ih th hth
      · simp
    | resume _ =>
      rcases List.mem_or_eq_of_mem_set hth with hth | rfl
      · exact ih th hth
      · simp
    | kill _ hcrash => exact hcrash.1.elim

/-- A process that is not killed leaves nothing to survive. -/
theorem survives : turns.Survives (engine host fails False) fun t _ _ s => Outside t s where
  inv _ _ _ hcrash := hcrash.1.elim
  fresh _ _ _ _ hcrash := hcrash.1.elim
  post _ _ _ _ _ _ hcrash := hcrash.1.elim

/-- Where no call can take a step, one that has a turn somewhere or runs the recovery awaits what has not
come. -/
theorem waiting_of_reach {p : Pool lang Call Answer} (h : Reach (engine host fails False) Init p)
    (hstuck : ∀ t p', ¬Advances (engine host fails False) t p p') :
    (∀ t c q, p.threads[t]? = some ⟨c, some q⟩ → (∃ r, q = .done r) ∨
      ∃ o, q.awaits = some o ∧ Waiting t o p.state ∧ ¬o.may p.state) ∧
    ∀ t, ¬Outside t p.state →
      ∃ c q o, p.threads[t]? = some ⟨c, some q⟩ ∧ q.awaits = some o ∧ Waiting t o p.state ∧ ¬o.may p.state := by
  have hpost : ∀ t (_ : Call) (_ : Except Error Answer), turns.Stable t fun s => Outside t s :=
    fun t _ _ s s' houtside hs _ => houtside.untouched hs
  have hserve : ∀ (p : Pool lang Call Answer) (c : Call), (engine host fails False).mayArrive p c →
      turns.Runs (engine host fails False).sem p.threads.length
        (fun s => turns.fresh p.threads.length s ∧ s = p.state) ((engine host fails False).body p.threads.length c)
        fun _ s => Outside p.threads.length s :=
    fun p c _ => (idle_serve c).conseq (fun s _ hs => held_nil_iff.2 hs.1) fun r s _ hheld => held_nil_iff.1 hheld
  have hinit : ∀ s, Init s → turns.inv s ∧ ∀ t, turns.fresh t s := by
    intro s hs
    refine ⟨fun l => ?_, fun t => ⟨fun l => ?_, ?_⟩⟩
    · rw [hs.queue l]
      exact List.nodup_nil
    · rw [hs.queue l]
      exact List.not_mem_nil
    · rw [hs.ready]
      simp [Readiness.runner]
  have hgood := Accord.good_of_reach hpost hserve hinit survives h
  have hstop : ∀ t c q, p.threads[t]? = some ⟨c, some q⟩ → (∃ r, q = .done r) ∨
      ∃ o, q.awaits = some o ∧ Waiting t o p.state ∧ ¬o.may p.state := by
    intro t c q ht
    cases q with
    | done r => exact .inl ⟨r, rfl⟩
    | turn f k => exact (hstuck t _ (.resume ht)).elim
    | await o k =>
      refine .inr ⟨o, rfl, hgood.parked t _ ht, fun hmay => ?_⟩
      have hstep : (sem fails False).step o p.state (o.perform p.state).1 (o.perform p.state).2 := ⟨hmay, .inl rfl⟩
      exact hstuck t _ (.complete trivial ht hstep)
  refine ⟨hstop, fun t houtside => ?_⟩
  have hlt : t < p.threads.length := by
    by_contra hge
    exact houtside (hgood.unborn t (by omega))
  have hthread : p.threads[t]? = some p.threads[t] := List.getElem?_eq_getElem hlt
  cases hth : p.threads[t] with
  | mk c prog =>
    rw [hth] at hthread
    cases prog with
    | none =>
      obtain ⟨s, -, hrun⟩ := h
      have := prog_of_steps hrun (by simp) _ (List.mem_of_getElem? hthread)
      exact (this rfl).elim
    | some q =>
      rcases hstop t c q hthread with ⟨r, rfl⟩ | ⟨o, hrest⟩
      · exact (houtside (hgood.calls t c _ hthread)).elim
      · exact ⟨c, q, o, hthread, hrest⟩

/-- A call in line at a lock has another one before it, or its turn has come. -/
theorem head_of_mem {s : State} {lock : Lock} {t : Nat} (h : t ∈ s.queue lock) :
    ∃ u, (s.queue lock).head? = some u ∧ u ∈ s.queue lock := by
  cases hqueue : s.queue lock with
  | nil =>
    rw [hqueue] at h
    cases h
  | cons u rest => exact ⟨u, rfl, List.mem_cons_self⟩

/-- The path whose lock a call awaits. -/
def awaitedPath (th : Thread lang Call Answer) : Option String :=
  match th.awaits with
  | some (.enter (.path path) _) => some path
  | _ => none

/-- A process that has just started on an empty directory. -/
def emptyState : State where
  disk := ⟨[]⟩
  queue _ := []
  ready := .absent
  recoveryRequired := false
  drawn := 0
  events := []
  taken := []
  visible := []

theorem init_emptyState : Init emptyState := ⟨fun _ => rfl, rfl, rfl⟩

/-- A runtime whose texts have no use here but for the names of files. -/
def plainHost : Host where
  contentHash text := text
  uuid n := toString n
  pid := "1"
  encode intent := toString intent.revision
  decode _ := .error (.of "Unexpected token in JSON")

/-- One call has arrived, and takes its turn at the publication lock. -/
def oneCall : Pool lang Call Answer :=
  ⟨((serve plainHost 0 .revision).settle emptyState).2,
    [⟨.revision, some ((serve plainHost 0 .revision).settle emptyState).1⟩]⟩

end ConfigRegistry.Engine
