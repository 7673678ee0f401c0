import ConfigRegistry.Backup.SyncEngine

/-!
# Who may change what

Syncs exclude each other through `running`, publications through the publication lock, and a
recovery runs before anything else does. An `Account` says what a run of the service keeps, and what
a sync and a delivery know at each of their steps; its steps are proved one by one, and `Account.holds`
carries them to every run.
-/

namespace ConfigRegistry.Backup

open Js Json Async

/-- The service, in the runs whose operations meet `may` and whose requests are among `asks`. A kill
leaves file writes whole. -/
def service (may : (o : Op) → State → Except Error o.Res → Prop) (asks : Request → Prop)
    (kills : Prop) : System lang Request Unit where
  sem := sem.restrict may (fun _ _ _ => False) fun _ => kills
  body := serve
  mayArrive p c := asks c ∧ match c with
    | .boot => p.state.up = false ∧ p.Quiet
    | _ => p.state.up = true

/-- Where a sync stands. -/
inductive Stage where
  | started
  | removed
  | rotated
  | taken (source : Files)
  | removing (source : Files) (todo : List String)
  | writing (source : Files) (todo : List (Σ _ : String, FileVersion))
  | mirrored (source : Files)
  | clean (source : Files)
  | changed (source : Files)
  | read (source : Files) (text : List Char)
  | committed
  | over

/-- The steps of a sync, as `performSync` takes them. -/
inductive Next : Stage → (o : Op) → o.Res → Stage → Prop
  | mkdir : Next .started .mkdir () .started
  | remove : Next .started (.remove .sending .rotated) () .removed
  | rename : Next .removed .rename () .rotated
  | create : Next .removed .createSending () .rotated
  | snapshot (source : Files) : Next .rotated .snapshot source (.taken source)
  | mkdirClone (source : Files) : Next (.taken source) .mkdirClone () (.taken source)
  | collect (source : Files) (previous : List String) : Next (.taken source) .collect previous
      (.removing source (previous.filter fun file => file ∉ source.keys))
  | removeFile (source : Files) (file : String) (todo : List String) :
      Next (.removing source (file :: todo)) (.removeFile file) () (.removing source todo)
  | writeFile (source : Files) (file : String) (version : FileVersion)
      (todo : List (Σ _ : String, FileVersion)) :
      Next (.writing source (⟨file, version⟩ :: todo)) (.writeFile file version) () (.writing source todo)
  | unchanged (source : Files) : Next (.mirrored source) .status false (.clean source)
  | differs (source : Files) : Next (.mirrored source) .status true (.changed source)
  | discardClean (source : Files) : Next (.clean source) (.remove .sending .clean) () .over
  | read (source : Files) (text : List Char) :
      Next (.changed source) (.readFile .sending) text (.read source text)
  | commit (source : Files) (files : List String) {text : List Char} {docs : List Doc} (sha : String) :
      parseLines text = some docs →
      Next (.read source text)
        (.commit (composeCommitMessage files (docs.filterMap JournalEntry.ofDoc))) sha .committed
  | discardCommitted : Next .committed (.remove .sending .committed) () .over
  | push (r : Bool × Option String) : Next .over .push r .over

/-- What only the running sync changes. -/
structure SyncFrame (s s' : State) : Prop where
  running : s'.running = s.running
  sending : s'.sending = s.sending
  clone : s'.clone = s.clone
  head : s'.head = s.head
  commits : s'.commits = s.commits
  cleared : s'.cleared = s.cleared
  source : s'.source = s.source
  taken : s'.taken = s.taken

/-- What only the holder of the publication lock changes. -/
structure WriteFrame (s s' : State) : Prop where
  files : s'.files = s.files
  revision : s'.revision = s.revision
  publishing : s'.publishing = s.publishing
  healthy : s'.healthy = s.healthy

theorem SyncFrame.refl (s : State) : SyncFrame s s := ⟨rfl, rfl, rfl, rfl, rfl, rfl, rfl, rfl⟩

theorem WriteFrame.refl (s : State) : WriteFrame s s := ⟨rfl, rfl, rfl, rfl⟩

theorem SyncFrame.trans {s s' s'' : State} (h : SyncFrame s s') (h' : SyncFrame s' s'') :
    SyncFrame s s'' :=
  ⟨h'.running.trans h.running, h'.sending.trans h.sending, h'.clone.trans h.clone,
    h'.head.trans h.head, h'.commits.trans h.commits, h'.cleared.trans h.cleared,
    h'.source.trans h.source, h'.taken.trans h.taken⟩

theorem WriteFrame.trans {s s' s'' : State} (h : WriteFrame s s') (h' : WriteFrame s' s'') :
    WriteFrame s s'' :=
  ⟨h'.files.trans h.files, h'.revision.trans h.revision, h'.publishing.trans h.publishing,
    h'.healthy.trans h.healthy⟩

/-- What a run of the service keeps: the invariant `I`, the relation `R` between the states before
and after any step but a kill, what a sync knows at each stage, and what a delivery knows of the
entries it still has to append. -/
structure Account (may : (o : Op) → State → Except Error o.Res → Prop) (asks : Request → Prop)
    (kills : Prop) where
  I : State → Prop
  R : State → State → Prop
  at_ : Stage → State → Prop
  wrote : List JournalEntry → State → Prop
  R_refl : ∀ s, R s s
  R_trans : ∀ {s s' s''}, R s s' → R s' s'' → R s s''
  at_frame : ∀ {σ s s'}, at_ σ s → SyncFrame s s' → R s s' → I s' → at_ σ s'
  wrote_frame : ∀ {todo s s'}, wrote todo s → WriteFrame s s' → R s s' → I s' → wrote todo s'
  /-- Who runs and whether the service is up is nobody's business. -/
  bookkeeping : ∀ {s} (running : Option Nat) (results : List (Nat × Except Error SyncResult)) (up : Bool),
    I s → I { s with running, results, up } ∧ R s { s with running, results, up }
  started : ∀ s, at_ .started s
  step : ∀ {σ o a σ' s s'}, I s → at_ σ s → Next σ o a σ' → may o s (.ok a) → o.answers s a s' →
    I s' ∧ R s s' ∧ at_ σ' s'
  removed_all : ∀ {source s}, at_ (.removing source []) s → at_ (.writing source source.entries) s
  written_all : ∀ {source s}, at_ (.writing source []) s → at_ (.mirrored source) s
  absent : ∀ {source s}, at_ (.changed source) s → s.sending = none → at_ (.read source []) s
  commitFails : ∀ {source text docs s} files, I s → at_ (.read source text) s →
    parseLines text = some docs →
    I (s.commit (composeCommitMessage files (docs.filterMap JournalEntry.ofDoc))) ∧
      R s (s.commit (composeCommitMessage files (docs.filterMap JournalEntry.ofDoc)))
  publish : ∀ {s changes}, I s → s.publishing = false → s.healthy = true →
    (changes.map Change.path).Nodup → I (s.publish changes) ∧ R s (s.publish changes) ∧
      wrote ((s.changed changes).map (·.entry (s.revision + 1))) (s.publish changes)
  deliver : ∀ {s e todo}, I s → wrote (e :: todo) s →
    I (s.append e) ∧ R s (s.append e) ∧ wrote todo (s.append e)
  published : ∀ {s}, I s → wrote [] s → I { s with publishing := false } ∧
    R s { s with publishing := false }
  failed : ∀ {s} publishing, I s → I { s with healthy := false, publishing } ∧
    R s { s with healthy := false, publishing }
  append : ∀ {s e}, asks (.append e) → I s → I (s.append e) ∧ R s (s.append e)
  merge : ∀ {s}, asks .boot → I s → s.up = false →
    let s₁ := s.rewritePending (s.sending.getD [] ++ s.pending.getD [])
    I s₁ ∧ R s s₁ ∧ I (s₁.removeFile .sending .recovered) ∧ R s₁ (s₁.removeFile .sending .recovered)
  restart : ∀ {s}, kills → I s → I s.restart

/-- The calls in progress and the one that holds the publication lock. -/
structure Tokens where
  active : Set Nat
  publisher : Option Nat

/-- The tokens and the state agree. -/
structure Consistent (x : World State Tokens) : Prop where
  down : x.state.up = false →
    x.ghost.active.Subsingleton ∧ x.state.running = none ∧ x.ghost.publisher = none
  lock : x.ghost.publisher = none ↔ x.state.publishing = false
  runs : ∀ t, x.state.running = some t → t ∈ x.ghost.active
  holds : ∀ t, x.ghost.publisher = some t → t ∈ x.ghost.active

/-- What call `t` relies on. -/
structure Lets (R : State → State → Prop) (t : Nat) (x y : World State Tokens) : Prop where
  active : t ∈ x.ghost.active ↔ t ∈ y.ghost.active
  related : t ∈ x.ghost.active → R x.state y.state
  up : t ∈ x.ghost.active → x.state.up = true → y.state.up = true
  alone : t ∈ x.ghost.active → x.state.up = false → y = x
  sync : x.state.running = some t → SyncFrame x.state y.state
  sync' : y.state.running = some t → x.state.running = some t
  lock : x.ghost.publisher = some t → y.ghost.publisher = some t ∧ WriteFrame x.state y.state
  lock' : y.ghost.publisher = some t → x.ghost.publisher = some t

section

variable {may : (o : Op) → State → Except Error o.Res → Prop} {asks : Request → Prop} {kills : Prop}
  (A : Account may asks kills)

theorem Lets.refl (t : Nat) (x : World State Tokens) : Lets A.R t x x :=
  ⟨.rfl, fun _ => A.R_refl _, fun _ h => h, fun _ _ => rfl, fun _ => .refl _, id,
    fun h => ⟨h, .refl _⟩, id⟩

theorem Lets.trans {t : Nat} {x y z : World State Tokens} (h : Lets A.R t x y) (h' : Lets A.R t y z) :
    Lets A.R t x z where
  active := h.active.trans h'.active
  related ht := A.R_trans (h.related ht) (h'.related (h.active.1 ht))
  up ht hu := h'.up (h.active.1 ht) (h.up ht hu)
  alone ht hd := by
    obtain rfl := h.alone ht hd
    exact h'.alone ht hd
  sync hr := (h.sync hr).trans (h'.sync ((h.sync hr).running.trans hr))
  sync' hr := h.sync' (h'.sync' hr)
  lock hl :=
    have hy := h.lock hl
    have hz := h'.lock hy.1
    ⟨hz.1, hy.2.trans hz.2⟩
  lock' hl := h.lock' (h'.lock' hl)

/-- The calls of the service keep an account. -/
def coordination : Discipline lang where
  Ghost := Tokens
  inv x := A.I x.state ∧ Consistent x
  rely := Lets A.R
  move _ _ _ := True
  parked t φ x := t ∈ x.ghost.active ↔ φ ≠ .ended
  unborn t x := t ∉ x.ghost.active
  rely_refl := Lets.refl A
  rely_trans _ _ _ _ := Lets.trans A
  move_refl _ _ := trivial
  move_trans _ _ _ _ _ _ := trivial
  parked_rely _ _ _ _ hp h := h.active.symm.trans hp
  unborn_rely _ _ _ hx h hy := hx (h.active.2 hy)

/-- How a step of call `t` may change the world for the others. -/
structure Touches (t : Nat) (x : World State Tokens) (s' : State) (publisher : Option Nat) : Prop where
  related : A.R x.state s'
  up : s'.up = x.state.up
  sync : ∀ u, u ≠ t → x.state.running = some u → SyncFrame x.state s'
  sync' : ∀ u, u ≠ t → s'.running = some u → x.state.running = some u
  lock : ∀ u, u ≠ t → x.ghost.publisher = some u → publisher = some u ∧ WriteFrame x.state s'
  lock' : ∀ u, u ≠ t → publisher = some u → x.ghost.publisher = some u

variable {A}

theorem Touches.keeps {t : Nat} {x : World State Tokens} {s' : State} (publisher : Option Nat)
    (h : Touches A t x s' publisher) (ht : t ∈ x.ghost.active) (hi : (coordination A).inv x)
    (hI : A.I s') (hlock : publisher = none ↔ s'.publishing = false)
    (hdown : x.state.up = false → s'.running = none ∧ publisher = none) :
    (coordination A).Keeps t x ⟨s', { x.ghost with publisher }⟩ := by
  have hmine : ∀ {u}, (u ≠ t → u ∈ x.ghost.active) → u ∈ x.ghost.active := by
    intro u hu
    by_cases hut : u = t
    · rw [hut]
      exact ht
    · exact hu hut
  refine ⟨⟨hI, fun hd => ?_, hlock, fun u hu => ?_, fun u hu => ?_⟩, fun u hu => ?_⟩
  · rw [h.up] at hd
    exact ⟨(hi.2.down hd).1, hdown hd⟩
  · exact hmine fun hut => hi.2.runs u (h.sync' u hut hu)
  · exact hmine fun hut => hi.2.holds u (h.lock' u hut hu)
  · refine ⟨.rfl, fun _ => h.related, fun _ hu => h.up.trans hu, fun hua hd => ?_, h.sync u hu,
      h.sync' u hu, h.lock u hu, h.lock' u hu⟩
    exact (hu ((hi.2.down hd).1 hua ht)).elim

/-- The operations that no frame needs to be shown of: those of the journal and the database. -/
def Op.ofJournal : Op → Bool
  | .mkdir | .appendFile _ | .readFile _ | .publish _ | .complete | .joined _ => true
  | _ => false

/-- No operation starts or ends a sync, or the service. -/
theorem step_bookkeeping {o : Op} {s s' : State} {r : Except Error o.Res} (h : sem.step o s r s') :
    s'.up = s.up ∧ s'.running = s.running := by
  cases r with
  | ok a =>
    cases o with
    | publish changes =>
      obtain ⟨-, -, -, rfl⟩ := h
      split <;> exact ⟨rfl, rfl⟩
    | remove file why =>
      obtain rfl := h
      cases file <;> cases why <;> exact ⟨rfl, rfl⟩
    | rename => obtain ⟨-, rfl⟩ := h; exact ⟨rfl, rfl⟩
    | readFile file => obtain ⟨-, rfl⟩ := h; exact ⟨rfl, rfl⟩
    | snapshot => obtain ⟨-, -, -, rfl⟩ := h; exact ⟨rfl, rfl⟩
    | collect => obtain ⟨-, rfl⟩ := h; exact ⟨rfl, rfl⟩
    | status => obtain ⟨-, rfl⟩ := h; exact ⟨rfl, rfl⟩
    | commit message => obtain ⟨-, rfl⟩ := h; exact ⟨rfl, rfl⟩
    | joined t => obtain ⟨-, rfl⟩ := h; exact ⟨rfl, rfl⟩
    | _ => obtain rfl := h; exact ⟨rfl, rfl⟩
  | error e =>
    cases o with
    | publish changes => obtain ⟨-, rfl | rfl⟩ := h <;> exact ⟨rfl, rfl⟩
    | commit message => obtain rfl | ⟨-, rfl⟩ := h <;> exact ⟨rfl, rfl⟩
    | rename => obtain ⟨-, rfl⟩ := h; exact ⟨rfl, rfl⟩
    | readFile file => obtain ⟨-, rfl⟩ := h; exact ⟨rfl, rfl⟩
    | snapshot => obtain ⟨-, rfl⟩ := h; exact ⟨rfl, rfl⟩
    | joined t => obtain ⟨-, rfl⟩ := h; exact ⟨rfl, rfl⟩
    | _ => obtain rfl := h; exact ⟨rfl, rfl⟩

/-- Only a publication changes the database. -/
theorem step_writeFrame {o : Op} {s s' : State} {r : Except Error o.Res} (h : sem.step o s r s')
    (hp : ∀ changes, o ≠ .publish changes) : WriteFrame s s' := by
  cases r with
  | ok a =>
    cases o with
    | publish changes => exact (hp changes rfl).elim
    | remove file why =>
      obtain rfl := h
      cases file <;> cases why <;> exact ⟨rfl, rfl, rfl, rfl⟩
    | rename => obtain ⟨-, rfl⟩ := h; exact ⟨rfl, rfl, rfl, rfl⟩
    | readFile file => obtain ⟨-, rfl⟩ := h; exact .refl s'
    | snapshot => obtain ⟨-, -, -, rfl⟩ := h; exact ⟨rfl, rfl, rfl, rfl⟩
    | collect => obtain ⟨-, rfl⟩ := h; exact .refl s'
    | status => obtain ⟨-, rfl⟩ := h; exact .refl s'
    | commit message => obtain ⟨-, rfl⟩ := h; exact ⟨rfl, rfl, rfl, rfl⟩
    | joined t => obtain ⟨-, rfl⟩ := h; exact .refl s'
    | _ => obtain rfl := h; exact ⟨rfl, rfl, rfl, rfl⟩
  | error e =>
    cases o with
    | publish changes => exact (hp changes rfl).elim
    | commit message => obtain rfl | ⟨-, rfl⟩ := h <;> exact ⟨rfl, rfl, rfl, rfl⟩
    | rename => obtain ⟨-, rfl⟩ := h; exact .refl s'
    | readFile file => obtain ⟨-, rfl⟩ := h; exact .refl s'
    | snapshot => obtain ⟨-, rfl⟩ := h; exact .refl s'
    | joined t => obtain ⟨-, rfl⟩ := h; exact .refl s'
    | _ => obtain rfl := h; exact .refl s'

/-- The operations of the journal and the database leave a sync alone. -/
theorem step_syncFrame {o : Op} {s s' : State} {r : Except Error o.Res} (h : sem.step o s r s')
    (ho : o.ofJournal = true) : SyncFrame s s' := by
  cases r with
  | ok a =>
    cases o with
    | publish changes =>
      obtain ⟨-, -, -, rfl⟩ := h
      split <;> exact ⟨rfl, rfl, rfl, rfl, rfl, rfl, rfl, rfl⟩
    | appendFile e => obtain rfl := h; exact ⟨rfl, rfl, rfl, rfl, rfl, rfl, rfl, rfl⟩
    | readFile file => obtain ⟨-, rfl⟩ := h; exact .refl s'
    | joined t => obtain ⟨-, rfl⟩ := h; exact .refl s'
    | mkdir | complete => obtain rfl := h; exact .refl s'
    | _ => cases ho
  | error e =>
    cases o with
    | publish changes => obtain ⟨-, rfl | rfl⟩ := h <;> exact ⟨rfl, rfl, rfl, rfl, rfl, rfl, rfl, rfl⟩
    | readFile file => obtain ⟨-, rfl⟩ := h; exact .refl s'
    | joined t => obtain ⟨-, rfl⟩ := h; exact .refl s'
    | appendFile _ | mkdir | complete => obtain rfl := h; exact .refl s'
    | _ => cases ho

/-- An operation that leaves the tokens alone. -/
theorem touches_op {o : Op} {t : Nat} {x : World State Tokens} {s' : State} {r : Except Error o.Res}
    (h : sem.step o x.state r s') (hR : A.R x.state s') (hp : ∀ changes, o ≠ .publish changes)
    (hs : o.ofJournal = true ∨ x.state.running = some t ∨ x.state.running = none) :
    Touches A t x s' x.ghost.publisher where
  related := hR
  up := (step_bookkeeping h).1
  sync u hu hr := by
    rcases hs with ho | ht | hn
    · exact step_syncFrame h ho
    · rw [ht] at hr
      exact (hu (Option.some.inj hr).symm).elim
    · rw [hn] at hr
      cases hr
  sync' u _ hr := (step_bookkeeping h).2 ▸ hr
  lock u _ hl := ⟨hl, step_writeFrame h hp⟩
  lock' _ _ hl := hl

/-- The service in the runs of an account. -/
abbrev serviceSem (may : (o : Op) → State → Except Error o.Res → Prop) (kills : Prop) : Sem lang :=
  sem.restrict may (fun _ _ _ => False) fun _ => kills

/-- An operation of a call that leaves the tokens alone and keeps the account. -/
theorem performs_op {o : Op} {t : Nat} {P : (coordination A).W → Prop}
    {Q : Except Error o.Res → (coordination A).W → Prop} (hP : (coordination A).Stable t P)
    (hQ : ∀ r, (coordination A).Stable t (Q r)) (hactive : ∀ x, P x → t ∈ x.ghost.active)
    (hp : ∀ changes, o ≠ .publish changes)
    (hs : ∀ x, P x → Consistent x →
      o.ofJournal = true ∨ x.state.running = some t ∨ x.state.running = none)
    (hstep : ∀ x r s', P x → (coordination A).inv x → (serviceSem may kills).step o x.state r s' →
      A.I s' ∧ A.R x.state s' ∧ Q r ⟨s', x.ghost⟩) :
    (coordination A).Performs (serviceSem may kills) t P o Q where
  stable := hP
  parked x hx _ := ⟨fun _ h => (nomatch h), fun _ => hactive x hx⟩
  after := hQ
  effect x r s' hx hi _ hst := by
    obtain ⟨hI, hR, hq⟩ := hstep x r s' hx hi hst
    have htouch := touches_op hst.2 hR hp (hs x hx hi.2)
    have hframe := step_writeFrame hst.2 hp
    refine ⟨x.ghost, trivial, htouch.keeps _ (hactive x hx) hi hI ?_ ?_, hq⟩
    · rw [hframe.publishing]
      exact hi.2.lock
    · exact fun hd => ⟨(step_bookkeeping hst.2).2.trans (hi.2.down hd).2.1, (hi.2.down hd).2.2⟩
  torn _ _ _ _ h := h.1.elim

/-! ### What a call knows -/

/-- Call `t` is in progress in a running service. -/
structure Live (t : Nat) (x : World State Tokens) : Prop where
  active : t ∈ x.ghost.active
  up : x.state.up = true

/-- It neither syncs nor publishes. -/
structure Calm (t : Nat) (x : World State Tokens) : Prop extends Live t x where
  idle : x.state.running ≠ some t
  unlocked : x.ghost.publisher ≠ some t

variable (A) in
/-- It syncs, and has come to stage `σ`. -/
structure Syncing (t : Nat) (σ : Stage) (x : World State Tokens) : Prop extends Live t x where
  running : x.state.running = some t
  unlocked : x.ghost.publisher ≠ some t
  knows : A.at_ σ x.state

variable (A) in
/-- It publishes, and has the entries `todo` to deliver. -/
structure Delivering (t : Nat) (todo : List JournalEntry) (x : World State Tokens) : Prop
    extends Live t x where
  idle : x.state.running ≠ some t
  locked : x.ghost.publisher = some t
  knows : A.wrote todo x.state

/-- It recovers the journal, alone. -/
structure Booting (t : Nat) (P : State → Prop) (x : World State Tokens) : Prop where
  active : t ∈ x.ghost.active
  down : x.state.up = false
  knows : P x.state

theorem Live.lets {t : Nat} {x y : World State Tokens} (h : Live t x) (hr : Lets A.R t x y) :
    Live t y :=
  ⟨hr.active.1 h.active, hr.up h.active h.up⟩

theorem stable_calm (t : Nat) : (coordination A).Stable t (Calm t) := by
  intro x y h hr _
  exact ⟨h.toLive.lets hr, fun hy => h.idle (hr.sync' hy), fun hy => h.unlocked (hr.lock' hy)⟩

theorem stable_syncing (t : Nat) (σ : Stage) : (coordination A).Stable t (Syncing A t σ) := by
  intro x y h hr hi
  have hframe := hr.sync h.running
  exact ⟨h.toLive.lets hr, hframe.running.trans h.running, fun hy => h.unlocked (hr.lock' hy),
    A.at_frame h.knows hframe (hr.related h.active) hi.1⟩

theorem stable_delivering (t : Nat) (todo : List JournalEntry) :
    (coordination A).Stable t (Delivering A t todo) := by
  intro x y h hr hi
  have hlock := hr.lock h.locked
  exact ⟨h.toLive.lets hr, fun hy => h.idle (hr.sync' hy), hlock.1,
    A.wrote_frame h.knows hlock.2 (hr.related h.active) hi.1⟩

theorem stable_booting (t : Nat) (P : State → Prop) : (coordination A).Stable t (Booting t P) := by
  intro x y h hr _
  rw [hr.alone h.active h.down]
  exact h

/-! ### A sync -/

variable (A) in
/-- A part of a sync, from one stage to another; it may fail anywhere. -/
abbrev Syncs (t : Nat) {α : Type} (σ : Stage) (p : Prog lang α) (σ' : α → Stage) : Prop :=
  (coordination A).Triple (serviceSem may kills) t (Syncing A t σ) p
    ((coordination A).Outcome (fun a => Syncing A t (σ' a)) fun _ => Syncing A t .started)

theorem Syncing.move {t : Nat} {σ σ' : Stage} {x : World State Tokens} (h : Syncing A t σ x)
    (hk : A.at_ σ' x.state) : Syncing A t σ' x :=
  ⟨h.toLive, h.running, h.unlocked, hk⟩

theorem Syncing.stage {t : Nat} {σ : Stage} {x : World State Tokens} (h : Syncing A t σ x) :
    Syncing A t .started x :=
  h.move (A.started x.state)

/-- The operations that change nothing when they fail. -/
def Op.clean : Op → Bool
  | .commit _ | .publish _ => false
  | _ => true

theorem unchanged_of_fails {o : Op} {s s' : State} {e : Error} (h : o.fails s e s')
    (ho : o.clean = true) : s' = s := by
  cases o with
  | commit message => cases ho
  | publish changes => cases ho
  | rename => exact h.2
  | readFile file => exact h.2
  | snapshot => exact h.2
  | joined t => exact h.2
  | _ => exact h

/-- One step of a sync. -/
theorem sync_performs {o : Op} {t : Nat} {σ : Stage} {τ : o.Res → Stage}
    (hnext : ∀ a, Next σ o a (τ a)) (ho : o.clean = true) :
    (coordination A).Performs (serviceSem may kills) t (Syncing A t σ) o
      ((coordination A).Outcome (fun a => Syncing A t (τ a)) fun _ => Syncing A t σ) := by
  refine performs_op (stable_syncing t σ) (fun r => ?_) (fun x h => h.active)
    (fun _ h => by subst h; cases ho) (fun x h _ => .inr (.inl h.running)) ?_
  · cases r with
    | ok a => exact stable_syncing t (τ a)
    | error e => exact stable_syncing t σ
  · rintro x (e | a) s' h hi ⟨hmay, hs⟩
    · obtain rfl := unchanged_of_fails hs ho
      exact ⟨hi.1, A.R_refl _, h⟩
    · obtain ⟨hI, hR, hk⟩ := A.step hi.1 h.knows (hnext a) hmay hs
      have hb := step_bookkeeping (r := .ok a) hs
      exact ⟨hI, hR, ⟨h.active, hb.1.trans h.up⟩, hb.2.trans h.running, h.unlocked, hk⟩

theorem sync_op {o : Op} {t : Nat} {σ : Stage} {τ : o.Res → Stage}
    (hnext : ∀ a, Next σ o a (τ a)) (ho : o.clean = true) : Syncs A t σ (op o) τ :=
  (sync_performs hnext ho).triple.conseq (fun _ _ h => h) fun r _ _ h => by
    cases r with
    | ok a => exact h
    | error e => exact Syncing.stage h

theorem Syncs.bind {t : Nat} {α β : Type} {σ : Stage} {p : Prog lang α} {σ' : α → Stage}
    {g : α → Prog lang β} {σ'' : β → Stage} (h : Syncs A t σ p σ')
    (hg : ∀ a, Syncs A t (σ' a) (g a) σ'') : Syncs A t σ (p >>= g) σ'' :=
  Discipline.Triple.bind h hg fun _ _ _ h => h

theorem syncs_pure {t : Nat} {α : Type} {σ : Stage} {σ' : α → Stage} (a : α)
    (h : ∀ s, A.at_ σ s → A.at_ (σ' a) s) : Syncs A t σ (pure a) σ' :=
  .done fun _ hx _ => hx.move (h _ hx.knows)

theorem Syncs.from {t : Nat} {α : Type} {σ₀ σ : Stage} {p : Prog lang α} {σ' : α → Stage}
    (h : Syncs A t σ p σ') (hk : ∀ s, A.at_ σ₀ s → A.at_ σ s) : Syncs A t σ₀ p σ' :=
  .conseq (fun _ _ hx => hx.move (hk _ hx.knows)) (fun _ _ _ h => h) h

/-- The handle of a rotation is that of `sending.jsonl`. -/
theorem rotate_syncs (t : Nat) :
    (coordination A).Triple (serviceSem may kills) t (Syncing A t .started) WriteJournal.rotate
      ((coordination A).Outcome (fun handle x => Syncing A t .rotated x ∧ handle = ⟨.sending⟩)
        fun _ => Syncing A t .started) := by
  unfold WriteJournal.rotate
  refine Discipline.Triple.bind (sync_op (fun _ => .mkdir) (by rfl)) (fun _ => ?_) fun _ _ _ h => h
  refine Discipline.Triple.bind (sync_op (fun _ => .remove) (by rfl)) (fun _ => ?_) fun _ _ _ h => h
  have hrename : Syncs A t .removed
      (Prog.handle (op .rename) fun e => if e.isMissing then op .createSending else .fail e)
      fun _ => .rotated := by
    refine Discipline.Triple.handle (sync_performs (τ := fun _ => .rotated) (fun _ => .rename)
      (by rfl)).triple (fun _ _ _ h => h) fun e => ?_
    split
    · exact sync_op (fun _ => .create) (by rfl)
    · exact .done fun _ h _ => Syncing.stage h
  exact Discipline.Triple.bind hrename (fun _ => .done fun _ h _ => ⟨h, rfl⟩) fun _ _ _ h => h

theorem removing_syncs (t : Nat) (source : Files) (previous : List String) :
    Syncs A t (.removing source (previous.filter fun file => file ∉ source.keys))
      (Prog.each previous fun file => if file ∈ source.keys then pure () else op (.removeFile file))
      fun _ => .removing source [] := by
  induction previous with
  | nil => exact syncs_pure _ fun _ h => h
  | cons file previous ih =>
    rw [Prog.each]
    by_cases hmem : file ∈ source.keys
    · rw [if_pos hmem, List.filter_cons_of_neg (by simpa using hmem)]
      exact ih
    · rw [if_neg hmem, List.filter_cons_of_pos (by simpa using hmem)]
      exact (sync_op (fun _ => .removeFile source file _) (by rfl)).bind fun _ => ih

theorem writing_syncs (t : Nat) (source : Files) (todo : List (Σ _ : String, FileVersion)) :
    Syncs A t (.writing source todo)
      (Prog.each todo fun ⟨file, version⟩ => op (.writeFile file version))
      fun _ => .writing source [] := by
  induction todo with
  | nil => exact syncs_pure _ fun _ h => h
  | cons entry todo ih =>
    obtain ⟨file, version⟩ := entry
    rw [Prog.each]
    exact (sync_op (fun _ => .writeFile source file version todo) (by rfl)).bind fun _ => ih

theorem mirrorSnapshot_syncs (t : Nat) (source : Files) :
    Syncs A t (.taken source) (SyncEngine.mirrorSnapshot source) fun _ => .mirrored source := by
  unfold SyncEngine.mirrorSnapshot
  refine (sync_op (fun _ => .mkdirClone source) (by rfl)).bind fun _ => ?_
  refine (sync_op (fun previous => .collect source previous) (by rfl)).bind fun previous => ?_
  refine (removing_syncs t source previous).bind fun _ => ?_
  refine ((writing_syncs t source source.entries).from fun _ => A.removed_all).bind fun _ => ?_
  exact syncs_pure _ fun _ => A.written_all

/-- What a drain reads, and what it makes of it. -/
theorem drain_syncs (t : Nat) (source : Files) :
    (coordination A).Triple (serviceSem may kills) t (Syncing A t (.changed source))
      (WriteJournal.drain ⟨.sending⟩)
      ((coordination A).Outcome
        (fun docs x => ∃ text, parseLines text = some docs ∧ Syncing A t (.read source text) x)
        fun _ => Syncing A t .started) := by
  have hframed : ∀ (text : Option (List Char)),
      (coordination A).Stable t fun x => Syncing A t (.changed source) x ∧ x.state.sending = text :=
    fun text x y h hr hi =>
      ⟨stable_syncing t _ x y h.1 hr hi, (hr.sync h.1.running).sending.trans h.2⟩
  have hread : Syncs A t (.changed source) (readOptional .sending) fun text => .read source text := by
    have hperforms : (coordination A).Performs (serviceSem may kills) t (Syncing A t (.changed source))
        (.readFile .sending)
        ((coordination A).Outcome (fun text => Syncing A t (.read source text))
          fun e x => ∃ text, e.isMissing = text.isNone ∧ Syncing A t (.changed source) x ∧
            x.state.sending = text) := by
      refine performs_op (stable_syncing t _) (fun r => ?_) (fun x h => h.active) nofun
        (fun x h _ => .inr (.inl h.running)) ?_
      · cases r with
        | ok text => exact stable_syncing t _
        | error e => exact .exists fun text => .and (.const _) (hframed text)
      · rintro x (e | text) s' h hi ⟨hmay, hs⟩
        · obtain ⟨hm, rfl⟩ := hs
          exact ⟨hi.1, A.R_refl _, _, hm, h, rfl⟩
        · obtain ⟨hI, hR, hk⟩ := A.step hi.1 h.knows (.read source text) hmay hs
          obtain ⟨-, rfl⟩ := hs
          exact ⟨hI, hR, h.move hk⟩
    refine Discipline.Triple.handle hperforms.triple (fun _ _ _ h => h) fun e => ?_
    rintro x ⟨text, hm, h, hx⟩ hi
    split
    · rename_i hmissing
      rw [hmissing, eq_comm, Option.isNone_iff_eq_none] at hm
      subst hm
      exact ⟨.refl hi, h.move (A.absent h.knows hx)⟩
    · exact ⟨.refl hi, h.stage⟩
  unfold WriteJournal.drain
  refine Discipline.Triple.bind hread (fun text => ?_) fun _ _ _ h => h
  unfold parseJsonl
  split
  · rename_i docs hdocs
    exact .done fun x h _ => ⟨text, hdocs, h⟩
  · exact .done fun x h _ => Syncing.stage h

theorem commit_syncs (t : Nat) (source : Files) (files : List String) (docs : List Doc) :
    (coordination A).Triple (serviceSem may kills) t
      (fun x => ∃ text, parseLines text = some docs ∧ Syncing A t (.read source text) x)
      (op (.commit (composeCommitMessage files (docs.filterMap JournalEntry.ofDoc))))
      ((coordination A).Outcome (fun _ => Syncing A t .committed) fun _ => Syncing A t .started) := by
  refine Discipline.Performs.triple (performs_op
    (.exists fun text => .and (.const _) (stable_syncing t _)) (fun r => ?_)
    (fun x ⟨_, _, h⟩ => h.active) nofun (fun x ⟨_, _, h⟩ _ => .inr (.inl h.running)) ?_)
  · cases r with
    | ok sha => exact stable_syncing t _
    | error e => exact stable_syncing t _
  · rintro x (e | sha) s' ⟨text, hdocs, h⟩ hi ⟨hmay, hs⟩
    · obtain rfl | ⟨-, rfl⟩ := hs
      · exact ⟨hi.1, A.R_refl _, h.stage⟩
      · obtain ⟨hI, hR⟩ := A.commitFails files hi.1 h.knows hdocs
        exact ⟨hI, hR, ⟨h.active, h.up⟩, h.running, h.unlocked, A.started _⟩
    · obtain ⟨hI, hR, hk⟩ := A.step hi.1 h.knows (.commit source files sha hdocs) hmay hs
      obtain ⟨-, rfl⟩ := hs
      exact ⟨hI, hR, ⟨h.active, h.up⟩, h.running, h.unlocked, hk⟩

theorem performSync_syncs (t : Nat) :
    Syncs A t .started SyncEngine.performSync fun _ => .over := by
  unfold SyncEngine.performSync
  refine Discipline.Triple.bind (rotate_syncs t) (fun handle => ?_) fun _ _ _ h => h
  refine .assume fun hhandle => ?_
  subst hhandle
  refine (sync_op (fun source => .snapshot source) (by rfl)).bind fun source => ?_
  refine (mirrorSnapshot_syncs t source).bind fun files => ?_
  refine (sync_op (τ := fun changed => if changed then .changed source else .clean source)
    (fun changed => ?_) (by rfl)).bind fun changed => ?_
  · cases changed with
    | true => exact .differs source
    | false => exact .unchanged source
  cases changed with
  | false =>
    refine (sync_op (fun _ => .discardClean source) (by rfl)).bind fun _ => ?_
    exact syncs_pure _ fun _ h => h
  | true =>
    refine Discipline.Triple.bind (drain_syncs t source) (fun docs => ?_) fun _ _ _ h => h
    refine Discipline.Triple.bind (commit_syncs t source files docs) (fun sha => ?_) fun _ _ _ h => h
    refine (sync_op (fun _ => .discardCommitted) (by rfl)).bind fun _ => ?_
    refine (sync_op (fun r => .push r) (by rfl)).bind
      fun ⟨pushed, reason⟩ => ?_
    cases pushed <;> exact syncs_pure _ fun _ h => h

/-- A call in progress is ready for its next turn. -/
theorem parked_ready {t : Nat} {x : World State Tokens} (h : t ∈ x.ghost.active) :
    (coordination A).parked t .ready x :=
  ⟨fun _ h => (nomatch h), fun _ => h⟩

/-- A change of who syncs. -/
theorem keeps_running {t : Nat} {x : World State Tokens} (hi : (coordination A).inv x)
    (h : Live t x) (running : Option Nat) (results : List (Nat × Except Error SyncResult))
    (hfrom : x.state.running = none ∨ x.state.running = some t)
    (hto : running = none ∨ running = some t) :
    (coordination A).Keeps t x ⟨{ x.state with running, results }, x.ghost⟩ := by
  obtain ⟨hI, hR⟩ := A.bookkeeping running results x.state.up hi.1
  refine Touches.keeps x.ghost.publisher ⟨hR, rfl, fun u hu hr => ?_, fun u hu hr => ?_,
    fun _ _ hl => ⟨hl, rfl, rfl, rfl, rfl⟩, fun _ _ hl => hl⟩ h.active hi hI hi.2.lock fun hd => ?_
  · rcases hfrom with hn | hn
    · rw [hn] at hr
      cases hr
    · rw [hn] at hr
      exact (hu (Option.some.inj hr).symm).elim
  · simp only at hr
    rcases hto with rfl | rfl
    · cases hr
    · exact (hu (Option.some.inj hr).symm).elim
  · rw [h.up] at hd
    cases hd

theorem syncNow_triple (t : Nat) :
    (coordination A).Triple (serviceSem may kills) t (Calm t) (SyncEngine.syncNow t)
      fun _ => Calm t := by
  unfold SyncEngine.syncNow
  refine .get_bind (fun x h _ => parked_ready h.active) fun s => ?_
  split
  · rename_i t' _
    refine .conseq (fun _ _ h => h.1) (fun r _ _ h => h) (performs_op (o := .joined t')
      (Q := fun _ => Calm t) (stable_calm t) (fun _ => stable_calm t) (fun _ h => h.active)
      (fun _ h => nomatch h) (fun _ _ _ => .inl rfl) ?_).triple
    rintro x r s' h hi ⟨-, hs⟩
    have hsame : s' = x.state := by
      cases r with
      | ok a => exact hs.2
      | error e => exact hs.2
    subst hsame
    exact ⟨hi.1, A.R_refl _, h⟩
  · rename_i hnone
    refine Discipline.Triple.bind (R := (coordination A).Outcome (fun _ => Syncing A t .started)
      fun _ _ => False) ?_ (fun _ => ?_) fun _ _ _ h => h.elim
    · refine .modify (fun x h _ => parked_ready h.1.active) ?_
      rintro x ⟨h, rfl⟩ hi
      exact ⟨x.ghost, trivial, keeps_running hi h.toLive (some t) x.state.results (.inl hnone)
        (.inr rfl), ⟨h.active, h.up⟩, rfl, h.unlocked, A.started _⟩
    · have hend (r : Except Error SyncResult) : (coordination A).Triple (serviceSem may kills) t
          (Syncing A t .started) (Prog.modify (S := lang) (SyncEngine.ended t r))
          ((coordination A).Outcome (fun _ => Calm t) fun _ _ => False) := by
        refine .modify (fun x h _ => parked_ready h.active) ?_
        rintro x h hi
        exact ⟨x.ghost, trivial, keeps_running hi h.toLive none _ (.inr h.running) (.inl rfl),
          ⟨h.active, h.up⟩, fun h => (nomatch h), h.unlocked⟩
      have hsync : (coordination A).Triple (serviceSem may kills) t (Syncing A t .started)
          SyncEngine.performSync fun _ => Syncing A t .started :=
        (performSync_syncs t).conseq (fun _ _ h => h) fun r _ _ h => by
          cases r with
          | ok a => exact Syncing.stage h
          | error e => exact h
      refine Discipline.Triple.bind (R := (coordination A).Outcome (fun _ => Syncing A t .started)
        fun _ _ => False) hsync.attempt (fun r => ?_) fun _ _ _ h => h.elim
      exact (hend r).bind (fun _ => .done fun _ h _ => h) fun _ _ _ h => h.elim

/-! ### A database write -/

/-- Call `t` holds the publication lock. -/
structure Locked (t : Nat) (x : World State Tokens) : Prop extends Live t x where
  idle : x.state.running ≠ some t
  locked : x.ghost.publisher = some t

theorem Delivering.toLocked {t : Nat} {todo : List JournalEntry} {x : World State Tokens}
    (h : Delivering A t todo x) : Locked t x :=
  ⟨h.toLive, h.idle, h.locked⟩

/-- A change of the database by the call that holds the lock, or that takes it. -/
theorem keeps_publishing {t : Nat} {x : World State Tokens} {s' : State} {publisher : Option Nat}
    (hi : (coordination A).inv x) (h : Live t x) (hI : A.I s') (hR : A.R x.state s')
    (hs : SyncFrame x.state s') (hup : s'.up = x.state.up)
    (hfrom : x.ghost.publisher = none ∨ x.ghost.publisher = some t)
    (hto : publisher = none ∨ publisher = some t) (hlock : publisher = none ↔ s'.publishing = false) :
    (coordination A).Keeps t x ⟨s', { x.ghost with publisher }⟩ := by
  refine Touches.keeps _ ⟨hR, hup, fun _ _ _ => hs, fun _ _ hr => hs.running ▸ hr, fun u hu hl => ?_,
    fun u hu hl => ?_⟩ h.active hi hI hlock fun hd => ?_
  · rcases hfrom with hn | hn
    · rw [hn] at hl
      cases hl
    · rw [hn] at hl
      exact (hu (Option.some.inj hl).symm).elim
  · rcases hto with rfl | rfl
    · cases hl
    · exact (hu (Option.some.inj hl).symm).elim
  · rw [h.up] at hd
    cases hd

/-- A publication takes the lock, unless there is nothing to change. -/
theorem publish_performs (t : Nat) {changes : List Change}
    (hnodup : (changes.map Change.path).Nodup) :
    (coordination A).Performs (serviceSem may kills) t (Calm t) (.publish changes)
      ((coordination A).Outcome
        (fun entries x => (entries = [] ∧ Calm t x) ∨ (entries ≠ [] ∧ Delivering A t entries x))
        fun _ => Calm t) where
  stable := stable_calm t
  parked x h _ := ⟨fun _ h => (nomatch h), fun _ => h.active⟩
  after r := by
    cases r with
    | error e => exact stable_calm t
    | ok entries =>
      rintro x y (h | h) hr hi
      · exact .inl ⟨h.1, stable_calm t x y h.2 hr hi⟩
      · exact .inr ⟨h.1, stable_delivering t _ x y h.2 hr hi⟩
  torn _ _ _ _ h := h.1.elim
  effect x r s' h hi _ hs := by
    cases r with
    | error e =>
      obtain ⟨-, hfree, rfl | rfl⟩ := hs
      · exact ⟨x.ghost, trivial, .refl hi, h⟩
      · obtain ⟨hI, hR⟩ := A.failed x.state.publishing hi.1
        have hnone := hi.2.lock.2 hfree
        exact ⟨x.ghost, trivial, keeps_publishing hi h.toLive hI hR ⟨rfl, rfl, rfl, rfl, rfl, rfl, rfl, rfl⟩
          rfl (.inl hnone) (.inl hnone) hi.2.lock, ⟨h.active, h.up⟩, h.idle, h.unlocked⟩
    | ok entries =>
      obtain ⟨-, hfree, hhealthy, rfl, rfl⟩ := hs
      have hnone := hi.2.lock.2 hfree
      cases hc : x.state.changed changes with
      | nil => exact ⟨x.ghost, trivial, .refl hi, .inl ⟨rfl, h⟩⟩
      | cons c cs =>
        obtain ⟨hI, hR, hw⟩ := A.publish hi.1 hfree hhealthy hnodup
        rw [hc] at hw
        refine ⟨{ x.ghost with publisher := some t }, trivial, keeps_publishing hi h.toLive hI hR
          ⟨rfl, rfl, rfl, rfl, rfl, rfl, rfl, rfl⟩ rfl (.inl hnone) (.inr rfl) ⟨fun h => (nomatch h), fun h => (nomatch h)⟩, .inr ⟨?_, ?_⟩⟩
        · exact List.cons_ne_nil _ _
        · exact ⟨⟨h.active, h.up⟩, h.idle, rfl, hw⟩

/-- An operation of a delivery that changes nothing. -/
theorem delivering_idle {o : Op} {t : Nat} {todo : List JournalEntry} (ho : o.ofJournal = true)
    (hp : ∀ changes, o ≠ .publish changes)
    (hsame : ∀ s r s', sem.step o s r s' → s' = s) :
    (coordination A).Triple (serviceSem may kills) t (Delivering A t todo) (op o)
      fun _ => Delivering A t todo := by
  refine (performs_op (stable_delivering t todo) (Q := fun _ => Delivering A t todo)
    (fun _ => stable_delivering t todo) (fun _ h => h.active) hp (fun _ _ _ => .inl ho) ?_).triple
  rintro x r s' h hi ⟨-, hs⟩
  obtain rfl := hsame _ _ _ hs
  exact ⟨hi.1, A.R_refl _, h⟩

theorem append_delivers (t : Nat) (e : JournalEntry) (todo : List JournalEntry) :
    (coordination A).Triple (serviceSem may kills) t (Delivering A t (e :: todo))
      (WriteJournal.append e)
      ((coordination A).Outcome (fun _ => Delivering A t todo) fun _ => Locked t) := by
  unfold WriteJournal.append
  refine Discipline.Triple.bind (delivering_idle rfl (fun _ h => nomatch h) fun s r s' h => by
    cases r <;> exact h) (fun _ => ?_) fun _ _ _ h => h.toLocked
  have hperforms : (coordination A).Performs (serviceSem may kills) t (Delivering A t (e :: todo))
      (.appendFile e) ((coordination A).Outcome (fun _ => Delivering A t todo)
        fun _ => Delivering A t (e :: todo)) := by
    refine performs_op (stable_delivering t _) (fun r => ?_) (fun _ h => h.active)
      (fun _ h => nomatch h) (fun _ _ _ => .inl rfl) ?_
    · cases r with
      | ok a => exact stable_delivering t _
      | error e => exact stable_delivering t _
    · rintro x (err | a) s' h hi ⟨-, hs⟩
      · obtain rfl := hs
        exact ⟨hi.1, A.R_refl _, h⟩
      · obtain rfl := hs
        obtain ⟨hI, hR, hw⟩ := A.deliver hi.1 h.knows
        exact ⟨hI, hR, ⟨h.active, h.up⟩, h.idle, h.locked, hw⟩
  exact hperforms.triple.conseq (fun _ _ h => h) fun r _ _ h => by
    cases r with
    | ok a => exact h
    | error e => exact Delivering.toLocked h

theorem each_delivers (t : Nat) (todo : List JournalEntry) :
    (coordination A).Triple (serviceSem may kills) t (Delivering A t todo)
      (Prog.each todo WriteJournal.append)
      ((coordination A).Outcome (fun _ => Delivering A t []) fun _ => Locked t) := by
  induction todo with
  | nil => exact .done fun _ h _ => h
  | cons e todo ih =>
    rw [Prog.each]
    exact (append_delivers t e todo).bind (fun _ => ih) fun _ _ _ h => h

/-- The lock is released, in a good state or in one that refuses everything. -/
theorem release_triple (t : Nat) (P : World State Tokens → Prop) (hP : ∀ x, P x → Locked t x)
    (hkeep : ∀ x, P x → A.I x.state → A.I { x.state with publishing := false } ∧
      A.R x.state { x.state with publishing := false }) :
    (coordination A).Triple (serviceSem may kills) t P
      (Prog.modify (S := lang) fun s => { s with publishing := false })
      ((coordination A).Outcome (fun _ => Calm t) fun _ _ => False) := by
  refine .modify (fun x h _ => parked_ready (hP x h).active) fun x hx hi => ?_
  have h := hP x hx
  obtain ⟨hI, hR⟩ := hkeep x hx hi.1
  exact ⟨{ x.ghost with publisher := none }, trivial, keeps_publishing hi h.toLive hI hR
    ⟨rfl, rfl, rfl, rfl, rfl, rfl, rfl, rfl⟩ rfl (.inr h.locked) (.inl rfl) ⟨fun _ => rfl, fun _ => rfl⟩,
    ⟨h.active, h.up⟩, h.idle, fun h => nomatch h⟩

theorem write_triple (t : Nat) (changes : List Change) :
    (coordination A).Triple (serviceSem may kills) t (Calm t) (write changes) fun _ => Calm t := by
  unfold write
  split
  · exact .done fun _ h _ => h
  rename_i hnodup
  rw [not_not] at hnodup
  refine (publish_performs t hnodup).bind (fun entries => ?_) fun _ _ _ h => h
  rintro x (⟨rfl, h⟩ | ⟨hne, h⟩) hi
  · exact ⟨.refl hi, h⟩
  rw [if_neg (by simpa using hne)]
  -- The two ways in which the delivery ends.
  have hdeliver : (coordination A).Triple (serviceSem may kills) t (Delivering A t entries)
      (do Prog.each entries WriteJournal.append; op .complete)
      ((coordination A).Outcome (fun _ => Delivering A t []) fun _ => Locked t) := by
    refine (each_delivers t entries).bind (fun _ => ?_) fun _ _ _ h => h
    refine (delivering_idle (o := .complete) rfl (fun _ h => nomatch h) fun s r s' h => by
      cases r <;> exact h).conseq (fun _ _ h => h) fun r _ _ h => ?_
    cases r with
    | ok a => exact h
    | error e => exact Delivering.toLocked h
  refine Discipline.Triple.ensure (R := (coordination A).Outcome (fun _ => Delivering A t [])
    fun _ x => Locked t x ∧ x.state.healthy = false) (Q := fun _ => Calm t) ?_ (fun r => ?_) x h hi
  · refine hdeliver.handle (fun _ _ _ h => h) fun e => ?_
    refine Discipline.Triple.bind (R := (coordination A).Outcome
      (fun _ x => Locked t x ∧ x.state.healthy = false) fun _ _ => False) ?_
      (fun _ => .done fun _ h _ => h) fun _ _ _ h => h.elim
    refine .modify (fun x h _ => parked_ready (h : Locked t x).active) fun x h hi => ?_
    have h : Locked t x := h
    obtain ⟨hI, hR⟩ := A.failed x.state.publishing hi.1
    exact ⟨x.ghost, trivial, keeps_publishing hi h.toLive hI hR ⟨rfl, rfl, rfl, rfl, rfl, rfl, rfl, rfl⟩
      rfl (.inr h.locked) (.inr h.locked) hi.2.lock, ⟨⟨h.active, h.up⟩, h.idle, h.locked⟩, rfl⟩
  · cases r with
    | ok a => exact release_triple t _ (fun _ h => Delivering.toLocked h) fun x h hI =>
        A.published hI (h : Delivering A t [] x).knows
    | error e =>
      refine release_triple t _ (fun _ h => h.1) fun x h hI => ?_
      have hunhealthy : { x.state with publishing := false } =
          { x.state with healthy := false, publishing := false } := by rw [← h.2]
      rw [hunhealthy]
      exact A.failed _ hI

/-! ### A recovery, and the other calls -/

/-- A step of a recovery. -/
theorem booting_op {o : Op} {t : Nat} {P : State → Prop} {Q : o.Res → State → Prop}
    (hp : ∀ changes, o ≠ .publish changes)
    (hok : ∀ s a s', P s → A.I s → s.up = false → o.answers s a s' →
      A.I s' ∧ A.R s s' ∧ Q a s')
    (herr : ∀ s e s', o.fails s e s' → s' = s) :
    (coordination A).Triple (serviceSem may kills) t (Booting t P) (op o)
      ((coordination A).Outcome (fun a => Booting t (Q a)) fun e x => Booting t P x ∧
        o.fails x.state e x.state) := by
  refine (performs_op (stable_booting t P) (Q := (coordination A).Outcome (fun a => Booting t (Q a))
    fun e => Booting t fun s => P s ∧ o.fails s e s) (fun r => ?_) (fun _ h => h.active) hp
    (fun _ h hc => .inr (.inr (hc.down h.down).2.1)) ?_).triple.conseq (fun _ _ h => h) fun r _ _ h => ?_
  · cases r with
    | ok a => exact stable_booting t _
    | error e => exact stable_booting t _
  · rintro x (e | a) s' h hi ⟨-, hs⟩
    · obtain rfl := herr _ _ _ hs
      exact ⟨hi.1, A.R_refl _, h.active, h.down, h.knows, hs⟩
    · obtain ⟨hI, hR, hq⟩ := hok _ a s' h.knows hi.1 h.down hs
      exact ⟨hI, hR, h.active, (step_bookkeeping (r := .ok a) hs).1.trans h.down, hq⟩
  · cases r with
    | ok a => exact h
    | error e =>
      have h : Booting t (fun s => P s ∧ o.fails s e s) _ := h
      exact ⟨⟨h.active, h.down, h.knows.1⟩, h.knows.2⟩

theorem Booting.weaken {t : Nat} {P P' : State → Prop} {x : World State Tokens}
    (h : Booting t P x) (hp : ∀ s, P s → P' s) : Booting t P' x :=
  ⟨h.active, h.down, hp _ h.knows⟩

theorem readOptional_boots {t : Nat} {P : State → Prop} (file : JournalFile) :
    (coordination A).Triple (serviceSem may kills) t (Booting t P) (readOptional file)
      ((coordination A).Outcome
        (fun text => Booting t fun s => P s ∧ text = (s.file file).getD [])
        fun _ => Booting t P) := by
  have hread := booting_op (A := A) (o := .readFile file) (t := t) (P := P)
    (Q := fun text s => P s ∧ text = (s.file file).getD []) (fun _ h => nomatch h) ?_ fun _ _ _ h => h.2
  · refine hread.handle (fun _ _ _ h => h) fun e => ?_
    rintro x ⟨h, hm, -⟩ hi
    split
    · rename_i hmissing
      rw [hmissing, eq_comm, Option.isNone_iff_eq_none] at hm
      exact ⟨.refl hi, h.active, h.down, h.knows, by rw [hm]; rfl⟩
    · exact ⟨.refl hi, h⟩
  · rintro s text s' hp hI - ⟨ht, rfl⟩
    exact ⟨hI, A.R_refl _, hp, by rw [ht]; rfl⟩

theorem recover_triple (t : Nat) (hboot : asks .boot) :
    (coordination A).Triple (serviceSem may kills) t (Booting t fun _ => True) WriteJournal.recover
      fun _ => Booting t fun _ => True := by
  have hforget {P : State → Prop} (x) (h : Booting t P x) : Booting t (fun _ => True) x :=
    h.weaken fun _ _ => trivial
  unfold WriteJournal.recover
  refine (readOptional_boots .sending).bind (fun orphaned => ?_) fun _ _ _ h => h
  split
  · exact .done fun x h _ => hforget x h
  refine (readOptional_boots .pending).bind (fun pending => ?_) fun _ x _ h => hforget x h
  have hrewrite := booting_op (A := A) (o := .rewritePending (orphaned ++ pending)) (t := t)
    (P := fun s => (True ∧ orphaned = (s.file .sending).getD []) ∧ pending = (s.file .pending).getD [])
    (Q := fun _ s => A.I (s.removeFile .sending .recovered) ∧ A.R s (s.removeFile .sending .recovered))
    (fun _ h => nomatch h) ?_ fun _ _ _ h => h
  · refine hrewrite.bind (fun _ => ?_) fun _ x _ h => hforget x h.1
    refine (booting_op (o := .remove .sending .recovered) (Q := fun _ _ => True)
      (fun _ h => nomatch h) ?_ fun _ _ _ h => h).conseq (fun _ _ h => h) fun r x _ h => ?_
    · rintro s - s' ⟨hI, hR⟩ - - rfl
      exact ⟨hI, hR, trivial⟩
    · cases r with
      | ok a => exact h
      | error e => exact hforget x h.1
  · rintro s - s' ⟨⟨-, rfl⟩, rfl⟩ hI hdown rfl
    obtain ⟨hI, hR, hmore⟩ := A.merge hboot hI hdown
    exact ⟨hI, hR, hmore⟩

/-- Call `t` holds nothing. -/
structure Idle (t : Nat) (x : World State Tokens) : Prop where
  active : t ∈ x.ghost.active
  idle : x.state.running ≠ some t
  unlocked : x.ghost.publisher ≠ some t

theorem Calm.toIdle {t : Nat} {x : World State Tokens} (h : Calm t x) : Idle t x :=
  ⟨h.active, h.idle, h.unlocked⟩

theorem Booting.toIdle {t : Nat} {P : State → Prop} {x : World State Tokens} (h : Booting t P x)
    (hc : Consistent x) : Idle t x := by
  obtain ⟨-, hr, hp⟩ := hc.down h.down
  exact ⟨h.active, by rw [hr]; nofun, by rw [hp]; nofun⟩

/-- The end of a recovery: the service is up. -/
theorem keeps_up {t : Nat} {P : State → Prop} {x : World State Tokens}
    (hi : (coordination A).inv x) (h : Booting t P x) :
    (coordination A).Keeps t x ⟨{ x.state with up := true }, x.ghost⟩ := by
  obtain ⟨hsub, hr, hp⟩ := hi.2.down h.down
  obtain ⟨hI, -⟩ := A.bookkeeping x.state.running x.state.results true hi.1
  refine ⟨⟨hI, fun hd => (nomatch hd), hi.2.lock, hi.2.runs, hi.2.holds⟩, fun u hu => ?_⟩
  have hgone : u ∉ x.ghost.active := fun hua => hu (hsub hua h.active)
  refine ⟨.rfl, fun h => (hgone h).elim, fun h => (hgone h).elim, fun h => (hgone h).elim,
    fun hru => ?_, id, fun hpu => ?_, id⟩
  · rw [hr] at hru
    cases hru
  · rw [hp] at hpu
    cases hpu

theorem boot_triple (t : Nat) (hboot : asks .boot) :
    (coordination A).Triple (serviceSem may kills) t (Booting t fun _ => True) (serve t .boot)
      fun _ => Idle t := by
  refine (recover_triple t hboot).bind (fun _ => ?_) fun _ _ hi h => Booting.toIdle h hi.2
  refine .conseq (fun _ _ h => h) (fun r x _ h => ?_) (Discipline.Triple.modify (R := Idle t)
    (fun x h _ => parked_ready (h : Booting t _ x).active) fun x h hi => ?_)
  · cases r with
    | ok a => exact h
    | error e => exact h.elim
  · have h : Booting t (fun _ => True) x := h
    have hidle := h.toIdle hi.2
    exact ⟨x.ghost, trivial, keeps_up hi h, hidle.active, hidle.idle, hidle.unlocked⟩

/-- An operation of the journal that changes nothing. -/
theorem calm_idle {o : Op} {t : Nat} (ho : o.ofJournal = true)
    (hp : ∀ changes, o ≠ .publish changes) (hsame : ∀ s r s', sem.step o s r s' → s' = s) :
    (coordination A).Triple (serviceSem may kills) t (Calm t) (op o) fun _ => Calm t := by
  refine (performs_op (stable_calm t) (Q := fun _ => Calm t) (fun _ => stable_calm t)
    (fun _ h => h.active) hp (fun _ _ _ => .inl ho) ?_).triple
  rintro x r s' h hi ⟨-, hs⟩
  obtain rfl := hsame _ _ _ hs
  exact ⟨hi.1, A.R_refl _, h⟩

theorem append_triple (t : Nat) (e : JournalEntry) (hask : asks (.append e)) :
    (coordination A).Triple (serviceSem may kills) t (Calm t) (WriteJournal.append e)
      fun _ => Calm t := by
  unfold WriteJournal.append
  refine (calm_idle (o := .mkdir) rfl (fun _ h => nomatch h) fun s r s' h => by cases r <;> exact h).bind
    (fun _ => ?_) fun _ _ _ h => h
  refine (performs_op (stable_calm t) (Q := fun _ => Calm t) (fun _ => stable_calm t)
    (fun _ h => h.active) (by nofun) (fun _ _ _ => .inl rfl) ?_).triple
  rintro x (err | a) s' h hi ⟨-, hs⟩
  · obtain rfl := hs
    exact ⟨hi.1, A.R_refl _, h⟩
  · obtain rfl := hs
    obtain ⟨hI, hR⟩ := A.append hask hi.1
    exact ⟨hI, hR, ⟨h.active, h.up⟩, h.idle, h.unlocked⟩

theorem peek_triple (t : Nat) :
    (coordination A).Triple (serviceSem may kills) t (Calm t) WriteJournal.peek fun _ => Calm t := by
  have hread (file : JournalFile) : (coordination A).Triple (serviceSem may kills) t (Calm t)
      (readOptional file) fun _ => Calm t := by
    refine (calm_idle (o := .readFile file) rfl (fun _ h => nomatch h) fun s r s' h => by
      cases r <;> exact h.2).handle (fun _ _ _ h => h) fun e => ?_
    split <;> exact .done fun _ h _ => h
  unfold WriteJournal.peek
  refine (hread .sending).bind (fun sending => ?_) fun _ _ _ h => h
  refine (hread .pending).bind (fun pending => ?_) fun _ _ _ h => h
  unfold parseJsonl
  split <;> exact .done fun _ h _ => h

/-- Every call of a service that is up. -/
theorem serve_triple (t : Nat) (c : Request) (hask : asks c) (hc : c ≠ .boot) :
    (coordination A).Triple (serviceSem may kills) t (Calm t) (serve t c) fun _ => Idle t := by
  have hidle {p : Prog lang Unit}
      (h : (coordination A).Triple (serviceSem may kills) t (Calm t) p fun _ => Calm t) :
      (coordination A).Triple (serviceSem may kills) t (Calm t) p fun _ => Idle t :=
    h.conseq (fun _ _ h => h) fun _ _ _ h => Calm.toIdle h
  cases c with
  | boot => exact (hc rfl).elim
  | write changes => exact hidle (write_triple t changes)
  | append e => exact hidle (append_triple t e hask)
  | sync => exact hidle ((syncNow_triple t).bind (fun _ => .done fun _ h _ => h) fun _ _ _ h => h)
  | peek => exact hidle ((peek_triple t).bind (fun _ => .done fun _ h _ => h) fun _ _ _ h => h)

/-! ### Every run -/

/-- A call arrives. -/
theorem keeps_arrival {t : Nat} {x : World State Tokens} (hi : (coordination A).inv x)
    (hdown : x.state.up = false → x.ghost.active = ∅) :
    (coordination A).Keeps t x ⟨x.state, { x.ghost with active := insert t x.ghost.active }⟩ := by
  refine ⟨⟨hi.1, fun hd => ⟨?_, (hi.2.down hd).2⟩, hi.2.lock, fun u hu => .inr (hi.2.runs u hu),
    fun u hu => .inr (hi.2.holds u hu)⟩, fun u hu => ?_⟩
  · show (insert t x.ghost.active).Subsingleton
    rw [hdown hd, insert_empty_eq]
    exact Set.subsingleton_singleton
  · exact ⟨⟨.inr, fun h => h.resolve_left hu⟩, fun _ => A.R_refl _, fun _ h => h,
      fun hua hd => (by rw [hdown hd] at hua; exact hua.elim), fun _ => .refl _, id,
      fun h => ⟨h, .refl _⟩, id⟩

/-- A call ends. -/
theorem keeps_departure {t : Nat} {x : World State Tokens} (hi : (coordination A).inv x)
    (h : Idle t x) :
    (coordination A).Keeps t x ⟨x.state, { x.ghost with active := x.ghost.active \ {t} }⟩ := by
  refine ⟨⟨hi.1, fun hd => ⟨(hi.2.down hd).1.anti Set.sdiff_subset, (hi.2.down hd).2⟩, hi.2.lock,
    fun u hu => ⟨hi.2.runs u hu, ?_⟩, fun u hu => ⟨hi.2.holds u hu, ?_⟩⟩, fun u hu => ?_⟩
  · rintro rfl
    exact h.idle hu
  · rintro rfl
    exact h.unlocked hu
  · refine ⟨⟨fun hua => ⟨hua, hu⟩, fun hua => hua.1⟩, fun _ => A.R_refl _, fun _ h => h,
      fun hua hd => (hu ((hi.2.down hd).1 hua h.active)).elim, fun _ => .refl _, id,
      fun h => ⟨h, .refl _⟩, id⟩

/-- When a request is admitted. -/
def Admits (x : World State Tokens) : Request → Prop
  | .boot => x.state.up = false ∧ x.ghost.active = ∅
  | _ => x.state.up = true

theorem arrive_triple (t : Nat) (c : Request) (hask : asks c) {x : World State Tokens}
    (hi : (coordination A).inv x) (hnew : t ∉ x.ghost.active)
    (hc : Admits x c) :
    ∃ P : World State Tokens → Prop,
      P ⟨x.state, { x.ghost with active := insert t x.ghost.active }⟩ ∧
      (coordination A).Triple (serviceSem may kills) t P (serve t c) fun _ => Idle t := by
  by_cases hb : c = .boot
  · subst hb
    exact ⟨_, ⟨.inl rfl, hc.1, trivial⟩, boot_triple t hask⟩
  · have hup : x.state.up = true := by
      cases c with
      | boot => exact (hb rfl).elim
      | _ => exact hc
    exact ⟨_, ⟨⟨.inl rfl, hup⟩, fun hr => hnew (hi.2.runs t hr), fun hl => hnew (hi.2.holds t hl)⟩,
      serve_triple t c hask hb⟩

variable (A) in
/-- Every call keeps the account. -/
def serviceContract : Contract (coordination A) (service may asks kills) where
  post _ _ _ _ := True
  born _ _ _ _ := True
  crashed _ _ := True
  post_rely _ _ _ := trivial
  arrive {p c x} hp harrive := by
    obtain ⟨hask, hc⟩ := harrive
    have hempty : p.Quiet → x.ghost.active = ∅ := by
      intro hquiet
      refine Set.eq_empty_iff_forall_notMem.2 fun u hu => ?_
      by_cases hlt : u < p.threads.length
      · have ht := List.getElem?_eq_getElem hlt
        exact (hp.parked u _ ht).1 hu (hquiet.phase ht)
      · exact hp.unborn u (by omega) hu
    have hc' : Admits x c := by
      rw [← hp.state] at hc
      cases c with
      | boot => exact ⟨hc.1, hempty hc.2⟩
      | _ => exact hc
    obtain ⟨P, hP, htriple⟩ := arrive_triple (A := A) p.threads.length c hask hp.inv
      (hp.unborn _ (Nat.le_refl _)) hc'
    have hkeep : (coordination A).Keeps p.threads.length x
        ⟨x.state, { x.ghost with active := insert p.threads.length x.ghost.active }⟩ := by
      refine keeps_arrival hp.inv fun hd => ?_
      cases c with
      | boot => exact hc'.2
      | _ =>
        have hup : x.state.up = true := hc'
        rw [hup] at hd
        cases hd
    refine ⟨_, trivial, hkeep, Contract.wp_of_triple htriple hP hkeep.inv fun r y hi h => ?_⟩
    exact ⟨_, trivial, keeps_departure hi h, ⟨fun h => (h.2 rfl).elim, fun h => (h rfl).elim⟩, trivial⟩
  allowed _ _ _ _ := trivial
  crash {x s'} hi hc := by
    obtain ⟨hkills, rfl⟩ := hc
    refine ⟨⟨∅, none⟩, trivial, ⟨A.restart hkills hi.1, fun _ => ⟨Set.subsingleton_empty, rfl, rfl⟩,
      ⟨fun _ => rfl, fun _ => rfl⟩, fun _ h => (nomatch h), fun _ h => (nomatch h)⟩,
      fun t => ⟨fun h => h.elim, fun h => (h rfl).elim⟩, fun t _ h => h, fun _ _ _ _ => trivial⟩

/-- The account holds in every state the service reaches. -/
theorem Account.holds (A : Account may asks kills) {init : State → Prop}
    (hinit : ∀ s, init s → A.I s ∧ s.running = none ∧ s.publishing = false)
    {p : Pool lang Request Unit} (h : Reach (service may asks kills) init p) : A.I p.state := by
  obtain ⟨s, hs, hrun⟩ := h
  obtain ⟨hI, hr, hp⟩ := hinit s hs
  have hgood : (serviceContract A).Good ⟨s, []⟩ ⟨s, ⟨∅, none⟩⟩ := by
    refine .start ⟨hI, fun _ => ⟨Set.subsingleton_empty, hr, rfl⟩, ⟨fun _ => hp, fun _ => rfl⟩, ?_,
      fun _ h => nomatch h⟩ fun t h => h
    intro t ht
    simp only [hr] at ht
    cases ht
  obtain ⟨x, hx, -⟩ := hgood.steps hrun
  have hI : A.I x.state := hx.inv.1
  rw [hx.state] at hI
  exact hI

end

/-! ### Scheduled runs -/

/-- The service on a schedule: operations answer or, when the schedule says so, fail. -/
def serviceDriver (mayNow : (o : Op) → State → Except Error o.Res → Bool)
    (asksNow : Request → Bool) (killed : Bool) : Driver lang Request Unit Bool where
  body := serve
  allowArrive p c := asksNow c && match c with
    | .boot => !p.state.up && decide p.Quiet
    | _ => p.state.up
  perform works o s := (perform works o s).filter fun answer => mayNow o s answer.1
  crash s := if killed then some s.restart else none

theorem serviceDriver_follows {may : (o : Op) → State → Except Error o.Res → Prop}
    {asks : Request → Prop} {kills : Prop} {mayNow : (o : Op) → State → Except Error o.Res → Bool}
    {asksNow : Request → Bool} {killed : Bool} (hmay : ∀ o s r, mayNow o s r = true → may o s r)
    (hasks : ∀ c, asksNow c = true → asks c) (hkills : killed = true → kills) :
    (serviceDriver mayNow asksNow killed).Follows (service may asks kills) where
  body := rfl
  allow _ _ _ := trivial
  allowArrive p c h := by
    obtain ⟨hask, hc⟩ := (Bool.and_eq_true _ _).mp h
    refine ⟨hasks c hask, ?_⟩
    cases c with
    | boot =>
      obtain ⟨hup, hquiet⟩ := (Bool.and_eq_true _ _).mp hc
      exact ⟨by simpa using hup, of_decide_eq_true hquiet⟩
    | _ => exact hc
  step works o s r s' h := by
    obtain ⟨hp, hm⟩ := Option.filter_eq_some_iff.1 h
    exact ⟨hmay o s r hm, step_of_perform hp⟩
  cut _ _ _ _ h := nomatch h
  crash s s' h := by
    simp only [serviceDriver] at h
    split at h
    · rename_i hk
      cases h
      exact ⟨hkills hk, rfl⟩
    · cases h

/-- A call that runs to its end, when it takes `n` operations that all work. -/
def requestAlone (t n : Nat) (c : Request) : List (Event Request Bool) :=
  .arrive c :: List.replicate n (.run t true)

end ConfigRegistry.Backup
