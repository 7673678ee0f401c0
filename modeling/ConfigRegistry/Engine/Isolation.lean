import ConfigRegistry.Async.Guarded
import ConfigRegistry.Async.Results
import ConfigRegistry.Engine.Guards
import ConfigRegistry.Engine.Staging

/-!
# Publication is isolated

While a call has its turn at the publication lock, no other call of the engine changes what the database holds:
the calls that prepare their transactions meanwhile write in the journal only. While it has the lock of a path,
none changes the file there. The operations may fail and be cut short, and the process may be killed.
-/

namespace ConfigRegistry.Engine

open Js Async Fs Store

/-- Call `t` has its turn at a lock. -/
def Has (lock : Lock) (t : Nat) (s : State) : Prop := (s.queue lock).head? = some t

/-- What the database holds: all that is not of the journal. -/
def State.database (s : State) : Disk := ⟨s.disk.elsewhere ".journal"⟩

/-- What is told of the database under a lock. -/
def Lock.Part : Lock → Type
  | .publication => Disk
  | .path _ => Option String

/-- What a lock guards. -/
def Lock.part : (lock : Lock) → State → lock.Part
  | .publication, s => s.database
  | .path file, s => textAt s.disk file

/-- The first recovery has come to an end. -/
def Settled (s : State) : Prop := ∃ r, s.ready = .settled r

/-- Files are in directories, what is in the root leads into the database, and no call has come to the locks of
paths before the first recovery is over. -/
structure Sound (s : State) : Prop where
  rooted : Rooted s.disk
  inward : Inward s.disk
  started : ∀ path, s.queue (.path path) ≠ [] → Settled s

/-- Calls take turns, and no other call changes what is guarded by a lock that a call has. -/
def serving : Accord lang :=
  (turns.also Sound (fun s s' => Settled s → Settled s') (fun _ h => h) fun _ _ _ h h' hs => h' (h hs)).guarding
    Has Lock.part fun lock _ _ _ h hr => hr.1.head lock h

variable {fails : Op → State → Prop} {kills : Prop} {moment : State → Prop} {host : Host} {t : Nat}
  {locks : List Lock} {running : Bool} {s s' : State} {α β : Type} {φ ψ : State → Prop} {mine : String → Prop}
  {place : Place}

theorem Has.unique {lock : Lock} {u : Nat} (hu : Has lock u s) (h : Has lock t s) : u = t :=
  Option.some.inj (hu.symm.trans h)

theorem SameTurns.settled (h : SameTurns s s') (hs : Settled s) : Settled s' := by
  obtain ⟨r, hr⟩ := hs
  exact ⟨r, by rw [h.ready, hr]⟩

theorem part_of_disk (lock : Lock) (h : s'.disk = s.disk) : lock.part s' = lock.part s := by
  cases lock with
  | publication =>
    show (⟨s'.disk.elsewhere ".journal"⟩ : Disk) = ⟨s.disk.elsewhere ".journal"⟩
    rw [h]
  | path path =>
    show textAt s'.disk path = textAt s.disk path
    rw [h]

/-- A change of one call that leaves what the others have. -/
theorem serving_keeps (h : turns.Keeps t s s') (hsound : Sound s') (hsettled : Settled s → Settled s')
    (hparts : ∀ lock u, u ≠ t → Has lock u s → lock.part s' = lock.part s) : serving.Keeps t s s' :=
  Accord.keeps_guarding (Accord.keeps_also h hsound hsettled) hparts

/-! ### What a call knows -/

/-- What is known under some locks stays while the call has them. -/
def Guarded (locks : List Lock) (φ : State → Prop) : Prop :=
  ∀ s s', φ s → (Settled s → Settled s') → (∀ lock ∈ locks, lock.part s' = lock.part s) → φ s'

theorem Guarded.and (hφ : Guarded locks φ) (hψ : Guarded locks ψ) : Guarded locks fun s => φ s ∧ ψ s :=
  fun s s' h hsettled hparts => ⟨hφ s s' h.1 hsettled hparts, hψ s s' h.2 hsettled hparts⟩

theorem guarded_true : Guarded locks fun _ => True := fun _ _ _ _ _ => trivial

theorem guarded_settled : Guarded locks Settled := fun _ _ h hsettled _ => hsettled h

theorem Guarded.more {lock : Lock} (h : Guarded locks φ) : Guarded (lock :: locks) φ :=
  fun s s' hs hsettled hparts => h s s' hs hsettled fun l hl => hparts l (List.mem_cons_of_mem lock hl)

/-- Call `t` has these locks, and knows this. -/
def Knows (t : Nat) (locks : List Lock) (running : Bool) (φ : State → Prop) (s : State) : Prop :=
  Held t locks running s ∧ φ s

theorem stable_knows (hφ : Guarded locks φ) : serving.Stable t (Knows t locks running φ) := by
  rintro s s' ⟨hheld, hs⟩ hr hi
  refine ⟨stable_held s s' hheld hr.1.1 hi.1, hφ s s' hs hr.1.2 fun lock hlock => ?_⟩
  exact hr.2 lock (hheld.head lock hlock)

/-! ### What is done beside the database -/

/-- The operation changes nothing but the journal. -/
def Op.Private : Op → Prop
  | .mkdir place | .create place _ | .rm place | .rmAll place => place.head? = some ".journal"
  | .rename source target => source.head? = some ".journal" ∧ target.head? = some ".journal"
  | _ => True

theorem database_congr (h : s'.disk.elsewhere ".journal" = s.disk.elsewhere ".journal") : s'.database = s.database :=
  congrArg Disk.mk h

theorem head_of_steps {place p : Place} (h : place.head? = some ".journal") (hp : p ∈ Disk.steps place) :
    p.head? = some ".journal" := by
  have hmem : p ∈ (base place).inits := List.mem_of_mem_tail hp
  have hne : p ≠ [] := by
    rintro rfl
    rw [Disk.steps] at hp
    cases hbase : base place with
    | nil =>
      rw [hbase] at hp
      cases hp
    | cons x rest =>
      rw [hbase, List.inits_cons, List.tail_cons, List.mem_map] at hp
      obtain ⟨q, -, hq⟩ := hp
      cases hq
  have hway : p <+: place := by
    refine ((List.mem_inits _ _).1 hmem).trans ?_
    rw [base]
    split
    · exact List.dropLast_prefix place
    · exact List.prefix_refl place
  obtain ⟨rest, rfl⟩ := hway
  cases p with
  | nil => exact (hne rfl).elim
  | cons x p => exact h

theorem elsewhere_rename {d : Disk} {source target : Place} (hsource : source.head? = some ".journal")
    (htarget : target.head? = some ".journal") :
    (d.rename source target).2.elsewhere ".journal" = d.elsewhere ".journal" := by
  unfold Disk.rename
  split
  · rfl
  · split
    · rfl
    · split
      · rfl
      · split
        · rfl
        · rw [Disk.elsewhere_put htarget, Disk.elsewhere_keep]
          intro p hp
          rw [bne_eq_false_iff_eq] at hp
          rw [hp, hsource]
    · rfl

/-- Whether it succeeds, fails or is cut short. -/
theorem database_of_leaves {o : Op} (ho : o.Private) (h : o.leaves s s') : s'.database = s.database := by
  cases o with
  | mkdir place =>
    obtain ⟨n, rfl⟩ := h
    refine database_congr (Disk.elsewhere_mkdirs fun p hp => ?_)
    exact head_of_steps ho (List.mem_filter.1 (List.mem_of_mem_take hp)).1
  | create place text =>
    rcases h with rfl | ⟨text, hok, rfl⟩
    · rfl
    · apply database_congr
      show (s.disk.create place text).2.elsewhere ".journal" = _
      unfold Disk.create
      split
      · rfl
      · split
        · rfl
        · exact Disk.elsewhere_put ho
      · rfl
  | rename source target =>
    rcases h with rfl | rfl
    · rfl
    · apply database_congr
      rw [disk_rename]
      exact elsewhere_rename ho.1 ho.2
  | rm place =>
    rcases h with rfl | rfl
    · rfl
    · apply database_congr
      show (s.disk.rm place).2.elsewhere ".journal" = _
      unfold Disk.rm
      split
      · rfl
      · rfl
      · apply Disk.elsewhere_keep
        intro p hp
        rw [bne_eq_false_iff_eq] at hp
        rw [hp]
        exact ho
  | rmAll place =>
    obtain ⟨kept, rfl⟩ := h
    apply database_congr
    apply Disk.elsewhere_keep
    intro p hp
    rw [Bool.or_eq_false_iff, Bool.not_eq_false', List.isPrefixOf_iff_prefix] at hp
    obtain ⟨⟨rest, rfl⟩, -⟩ := hp
    cases place with
    | nil => cases ho
    | cons x place => exact ho
  | emit event =>
    rcases h with rfl | rfl
    · rfl
    · rfl
  | _ =>
    obtain rfl : s' = s := h
    rfl

theorem database_of_perform {o : Op} (ho : o.Private) (s : State) : (o.perform s).2.database = s.database := by
  cases o with
  | mkdir place =>
    apply database_congr
    show (s.disk.mkdir place).2.elsewhere ".journal" = _
    unfold Disk.mkdir
    split
    · rfl
    · exact Disk.elsewhere_mkdirs fun p hp => head_of_steps ho (List.mem_filter.1 hp).1
  | create place text =>
    by_cases hok : (s.disk.create place text).1.isOk = true
    · exact database_of_leaves (o := .create place text) ho (.inr ⟨text, hok, rfl⟩)
    · apply database_congr
      show (s.disk.create place text).2.elsewhere ".journal" = _
      unfold Disk.create at hok ⊢
      split
      · rfl
      · split
        · rfl
        · exact Disk.elsewhere_put ho
      · rfl
  | rename source target => exact database_of_leaves (o := .rename source target) ho (.inr rfl)
  | rm place => exact database_of_leaves (o := .rm place) ho (.inr rfl)
  | rmAll place =>
    apply database_congr
    show (s.disk.rmAll place).2.elsewhere ".journal" = _
    unfold Disk.rmAll
    split
    · rfl
    · apply Disk.elsewhere_keep
      intro p hp
      rw [Bool.not_eq_false', List.isPrefixOf_iff_prefix] at hp
      obtain ⟨rest, rfl⟩ := hp
      cases place with
      | nil => cases ho
      | cons x place => exact ho
  | first =>
    show (Op.perform .first s).2.database = s.database
    cases hready : s.ready <;> simp [Op.perform, hready]
  | _ => rfl

theorem database_of_step {o : Op} {r : Except Error o.Res} (ho : o.Private) (h : (sem fails kills).step o s r s') :
    s'.database = s.database := by
  rcases h.2 with h | ⟨-, -, -, h⟩
  · have hsame := database_of_perform ho s
    rwa [← h] at hsame
  · exact database_of_leaves ho h

/-- The program waits for no other call, takes no turn and changes nothing but the journal. -/
abbrev Aside (p : Prog lang α) : Prop :=
  p.Within (S := lang) (fun o : Op => o.waits = false ∧ o.Private) fun s s' => SameTurns s s' ∧ s'.database = s.database

theorem aside_op {o : Op} (hwaits : o.waits = false) (hprivate : o.Private) : Aside (Prog.op (S := lang) o) :=
  .op ⟨hwaits, hprivate⟩

theorem aside_sync (place : Place) : Aside (syncDirectory place) := aside_op rfl trivial

theorem aside_randomUUID : Aside (randomUUID host) := ⟨fun _ => ⟨⟨rfl, rfl⟩, rfl⟩, fun _ => trivial⟩

theorem aside_complete (id : String) : Aside (complete id) :=
  .bind (aside_op (o := .rmAll (transaction id)) rfl rfl) fun _ => aside_sync _

theorem aside_assertHealthy : Aside assertHealthy := by
  apply Prog.Within.get_bind fun s => ⟨SameTurns.refl s, rfl⟩
  intro s
  split
  · exact .fail _
  · exact .pure ()

/-- A file of a transaction is written. -/
theorem aside_write {id name : String} (hname : name ≠ "") (content : String) :
    Aside (write host (transaction id ++ [name]) content) := by
  have hbase : base (transaction id ++ [name]) = transaction id ++ [name] := by
    rw [base, if_neg]
    simpa using hname
  have hdirname : dirname (transaction id ++ [name]) = transaction id := by
    rw [dirname, hbase, List.dropLast_concat]
  have htemporary : ∀ uuid, (temporary host (transaction id ++ [name]) uuid).head? = some ".journal" := by
    intro uuid
    rw [temporary, List.dropLast_concat]
    rfl
  unfold write
  rw [hdirname]
  apply Prog.Within.bind
  · apply Prog.Within.bind (aside_op (o := .mkdir (transaction id)) rfl rfl)
    intro first
    cases first with
    | none => exact .pure ()
    | some first => exact .each fun p _ => aside_sync p
  · intro _
    apply Prog.Within.bind aside_randomUUID
    intro uuid
    apply Prog.Within.handle
    · apply Prog.Within.bind (aside_op (o := .create _ content) rfl (htemporary uuid))
      intro _
      exact .bind (aside_op (o := .rename _ _) rfl ⟨htemporary uuid, rfl⟩) fun _ => aside_sync _
    · intro e
      exact .bind (aside_op (o := .rm _) rfl (htemporary uuid)).attempt fun _ => .fail e

theorem aside_prepare (files : List MutationRequest) : Aside (prepare host files) := by
  have hname : ∀ index : Nat, s!"{index}.stage" ≠ "" := by
    intro index h
    have hlist := congrArg (fun text : String => text.toList.getLast?) h
    have hlast : (toString index ++ ".stage").toList.getLast? = some 'e' := by
      rw [String.toList_append, List.getLast?_append]
      rfl
    rw [show (s!"{index}.stage" : String) = toString index ++ ".stage" from rfl, hlast] at hlist
    cases hlist
  apply Prog.Within.bind aside_randomUUID
  intro id
  apply Prog.Within.bind (aside_op (o := .mkdir (transaction id)) rfl rfl)
  intro _
  apply Prog.Within.bind (aside_sync _)
  intro _
  apply Prog.Within.bind (aside_sync _)
  intro _
  apply Prog.Within.bind (aside_sync _)
  intro _
  apply Prog.Within.handle
  · apply Prog.Within.bind
    · apply Prog.Within.each
      rintro ⟨file, index⟩ _
      dsimp only
      split
      · exact aside_write (hname index) _
      · exact .pure ()
    · exact fun _ => .pure _
  · intro e
    exact .bind (aside_complete id) fun _ => .fail e

/-- What is done beside the database leaves all that is known of it. -/
theorem aside_keeps (hi : serving.inv s) (hturns : SameTurns s s') (hdata : s'.database = s.database) :
    serving.Keeps t s s' ∧ ∀ lock : Lock, lock.part s' = lock.part s := by
  have hsame : s'.disk.elsewhere ".journal" = s.disk.elsewhere ".journal" := congrArg Disk.entries hdata
  have hparts : ∀ lock : Lock, lock.part s' = lock.part s := by
    intro lock
    cases lock with
    | publication => exact hdata
    | path path => exact textAt_congr hsame
  have hsound : Sound s' := by
    refine ⟨hi.2.rooted.congr hsame, hi.2.inward.congr hsame, fun path hpath => hturns.settled (hi.2.started path ?_)⟩
    rwa [← hturns.queue]
  exact ⟨serving_keeps (hturns.keeps hi.1) hsound hturns.settled fun lock _ _ _ => hparts lock, hparts⟩

theorem Knows.aside (h : Knows t locks running φ s) (hφ : Guarded locks φ) (hturns : SameTurns s s')
    (hparts : ∀ lock : Lock, lock.part s' = lock.part s) : Knows t locks running φ s' :=
  ⟨h.1.same hturns, hφ s s' h.2 hturns.settled fun lock _ => hparts lock⟩

theorem idle_of_aside {p : Prog lang α} (h : Aside p) (hφ : Guarded locks φ) :
    serving.Idle ((sem fails kills).through moment) t (Knows t locks running φ) p := by
  apply Accord.Idle.of_within h (stable_knows hφ)
  · intro o s ho _ _
    cases o with
    | enter lock u => cases ho.1
    | first => cases ho.1
    | _ => trivial
  · intro o s r s' ho hknows hi hstep
    have hturns := step_sameTurns hstep.2
    obtain ⟨hkeeps, hparts⟩ := aside_keeps hi hturns (database_of_step ho.2 hstep.2)
    exact ⟨hkeeps, hknows.aside hφ hturns hparts⟩
  · intro o s s' ho _ hi htorn
    exact (aside_keeps hi (leaves_sameTurns htorn) (database_of_leaves ho.2 htorn)).1
  · intro s s' hknows hi hsame
    obtain ⟨hkeeps, hparts⟩ := aside_keeps hi hsame.1 hsame.2
    exact ⟨hkeeps, hknows.aside hφ hsame.1 hparts⟩

/-! ### What is done with the lock -/

/-- The program waits for no other call, takes no turn and leaves the files of all paths but these. -/
abbrev Confines (mine : String → Prop) (p : Prog lang α) : Prop :=
  p.Within (S := lang) (fun o : Op => o.waits = false ∧ o.Careful mine)
    fun s s' => SameTurns s s' ∧ s'.disk = s.disk

theorem confined_of_step {o : Op} {r : Except Error o.Res} (ho : o.Careful mine) (h : (sem fails kills).step o s r s') :
    Confined mine s.disk s'.disk := by
  rcases h.2 with h | ⟨-, -, -, h⟩
  · have hconfined := confined_of_perform ho s
    rwa [← h] at hconfined
  · exact confined_of_leaves ho h

/-- A call that has the publication lock changes the files of its own paths. -/
theorem confined_keeps (hi : serving.inv s) (hpublication : Has .publication t s)
    (hmine : ∀ path u, mine path → Has (.path path) u s → u = t) (hturns : SameTurns s s')
    (hconfined : Confined mine s.disk s'.disk) : serving.Keeps t s s' := by
  have hsound : Sound s' := by
    refine ⟨hconfined.rooted hi.2.rooted, hconfined.inward hi.2.inward, fun path hpath => hturns.settled (hi.2.started path ?_)⟩
    rwa [← hturns.queue]
  apply serving_keeps (hturns.keeps hi.1) hsound hturns.settled
  intro lock u hu hhas
  cases lock with
  | publication => exact (hu (hhas.unique hpublication)).elim
  | path path => exact hconfined.others path fun hpath => hu (hmine path u hpath hhas)

theorem idle_of_confines {p : Prog lang α} (h : Confines mine p) (hmem : Lock.publication ∈ locks)
    (hmine : ∀ s, Held t locks running s → Sound s → ∀ path u, mine path → Has (.path path) u s → u = t)
    (hφ : Guarded [] φ) :
    serving.Idle ((sem fails kills).through moment) t (Knows t locks running φ) p := by
  have hsame : ∀ {s s'}, Knows t locks running φ s → serving.inv s → SameTurns s s' →
      Confined mine s.disk s'.disk → serving.Keeps t s s' ∧ Knows t locks running φ s' := by
    intro s s' hknows hi hturns hconfined
    refine ⟨confined_keeps hi (hknows.1.head _ hmem) (hmine s hknows.1 hi.2) hturns hconfined, ?_⟩
    refine ⟨hknows.1.same hturns, hφ s s' hknows.2 hturns.settled fun lock hlock => ?_⟩
    cases hlock
  have hweak : Guarded locks φ := fun s s' hs hsettled _ => hφ s s' hs hsettled fun lock hlock => by cases hlock
  apply Accord.Idle.of_within h (stable_knows hweak)
  · intro o s ho _ _
    cases o with
    | enter lock u => cases ho.1
    | first => cases ho.1
    | _ => trivial
  · intro o s r s' ho hknows hi hstep
    exact hsame hknows hi (step_sameTurns hstep.2) (confined_of_step ho.2 hstep.2)
  · intro o s s' ho hknows hi htorn
    exact (hsame hknows hi (leaves_sameTurns htorn) (confined_of_leaves ho.2 htorn)).1
  · intro s s' hknows hi hturn
    exact hsame hknows hi hturn.1 (by rw [hturn.2]; exact .refl _ _)

theorem confines_of_reads {p : Prog lang α} (h : Reads p) : Confines mine p := by
  induction p with
  | done r => trivial
  | turn f k ih => exact (h.1 ⟨⟨[]⟩, fun _ => [], .absent, false, 0, [], [], []⟩).elim
  | await o k ih =>
    refine ⟨?_, fun r => ih r (h.2 r)⟩
    have hpublic := h.1
    cases o with
    | lstat place => exact ⟨rfl, trivial⟩
    | readFile place => exact ⟨rfl, trivial⟩
    | readdir place => exact ⟨rfl, trivial⟩
    | _ => exact hpublic.elim

theorem confines_op {o : Op} (hwaits : o.waits = false) (ho : o.Careful mine) : Confines mine (Prog.op (S := lang) o) :=
  .op ⟨hwaits, ho⟩

theorem confines_sync (place : Place) : Confines mine (syncDirectory place) := confines_op rfl trivial

theorem confines_readOptional (place : Place) : Confines mine (readOptional place) := by
  apply Prog.Within.bind (confines_op (o := .readFile place) rfl trivial).attempt
  intro r
  cases r with
  | ok text => trivial
  | error e =>
    show Confines mine (if e.isMissing then _ else _)
    split <;> trivial

theorem confines_ensureDirectory {place : Place}
    (hinside : ∀ name, [name] ∈ Disk.steps place → isPrivate name = false → Inside name) :
    Confines mine (ensureDirectory place) := by
  apply Prog.Within.bind (confines_op (o := .mkdir place) rfl hinside)
  intro first
  cases first with
  | none => trivial
  | some first => exact .each fun p _ => confines_sync p

/-- The first name of a directory that is made is that of the place it is made for. -/
theorem head_of_dirname {name : String} (h : [name] ∈ Disk.steps (dirname place)) : [name] <+: place := by
  rw [Disk.steps] at h
  have hbase : base (dirname place) <+: dirname place := by
    rw [base]
    split
    · exact List.dropLast_prefix _
    · exact List.prefix_rfl
  have hdirname : dirname place <+: place := by
    rw [dirname, base]
    split
    · exact (List.dropLast_prefix _).trans (List.dropLast_prefix _)
    · exact List.dropLast_prefix _
  exact (((List.mem_inits _ _).1 (List.mem_of_mem_tail h)).trans hbase).trans hdirname

theorem inside_of_reserved {name : String} (h : Reserved place) (hname : [name] <+: place)
    (hprivate : isPrivate name = false) : Inside name := by
  obtain ⟨more, rfl⟩ := hname
  rcases h with hhead | ⟨rest, hrest⟩
  · obtain rfl : name = ".journal" := Option.some.inj hhead
    have hjournal : isPrivate ".journal" = true := by decide
    rw [hjournal] at hprivate
    cases hprivate
  · obtain ⟨rfl, -⟩ := List.cons.inj hrest
    exact inside_revision rest

theorem confines_write (hplace : Reserved place) (htemporary : ∀ uuid, Reserved (temporary host place uuid))
    (content : String) : Confines mine (write host place content) := by
  apply Prog.Within.bind (confines_ensureDirectory fun name hname => inside_of_reserved hplace (head_of_dirname hname))
  intro _
  refine ⟨fun _ => ⟨⟨rfl, rfl⟩, rfl⟩, fun s => ?_⟩
  apply Prog.Within.handle
  · apply Prog.Within.bind (confines_op (o := .create _ content) rfl (htemporary _))
    intro _
    exact .bind (confines_op (o := .rename _ _) rfl ⟨htemporary _, .inl hplace⟩) fun _ => confines_sync _
  · intro e
    exact .bind (confines_op (o := .rm _) rfl (.inl (htemporary _).hidden)).attempt fun _ => .fail e

theorem reserved_transaction (id : String) (rest : Place) : Reserved (transaction id ++ rest) := .inl rfl

theorem confines_complete (id : String) : Confines mine (complete id) :=
  .bind (confines_op (o := .rmAll (transaction id)) rfl (hidden_journal rfl)) fun _ => confines_sync _

theorem confines_recordIntent (prepared : Prepared) (revision : Nat) :
    Confines mine (recordIntent host prepared revision) := by
  refine .bind (confines_write (reserved_transaction _ _) (fun uuid => ?_) _) fun _ => .pure _
  obtain ⟨temp, htemp, -⟩ := temporary_eq host (transaction prepared.id) "intent.json" uuid
  rw [htemp]
  exact reserved_transaction _ _

theorem confines_recordRevision (current revision : Nat) : Confines mine (recordRevision host current revision) := by
  unfold recordRevision
  split
  · trivial
  · refine confines_write (.inr ⟨"", rfl⟩) (fun uuid => .inr ⟨"." ++ host.pid ++ "." ++ uuid ++ ".tmp", ?_⟩) _
    apply congrArg (fun name => [name])
    apply String.toList_inj.1
    simp

theorem confines_checkPayload (id : String) (file : Mutation) (index : Nat) :
    Confines mine (checkPayload host id file index) := by
  apply Prog.Within.bind (confines_of_reads (reads_assertNoSymlinks _))
  intro _
  split
  · trivial
  · apply Prog.Within.bind (confines_readOptional _)
    intro target
    split
    · trivial
    · apply Prog.Within.bind (confines_readOptional _)
      intro payload
      split <;> trivial

theorem confines_applyFile {file : Mutation} (hfile : mine file.path ∧ isDatabasePath file.path = true) (id : String)
    (index : Nat) : Confines mine (applyFile host id file index) := by
  have hnamed : Named mine (placeOf file.path) := ⟨file.path, hfile.1, hfile.2, rfl⟩
  apply Prog.Within.bind (confines_readOptional _)
  intro current
  split
  · trivial
  · split
    · exact .bind (confines_op (o := .rm _) rfl (.inr hnamed)) fun _ => confines_sync _
    · apply Prog.Within.bind
      · exact confines_ensureDirectory fun name hname _ => inside_of_way hfile.2 (head_of_dirname hname)
      intro _
      apply Prog.Within.bind (confines_op (o := .rename _ _) rfl ⟨reserved_transaction _ _, .inr hnamed⟩)
      intro _
      exact .bind (confines_sync _) fun _ => confines_sync _

/-- A transaction changes the files that its intent names. -/
theorem confines_finish {intent : Intent} (h : ∀ file ∈ intent.files, mine file.path ∧ isDatabasePath file.path = true)
    (id : String) : Confines mine (finish host id intent) := by
  apply Prog.Within.bind (confines_of_reads reads_revisionUnlocked)
  intro current
  split
  · trivial
  · apply Prog.Within.bind
    · apply Prog.Within.bind (.each fun f _ => confines_checkPayload id f.1 f.2)
      intro _
      apply Prog.Within.each
      rintro ⟨file, index⟩ hfile
      have hmem : file ∈ intent.files := List.fst_mem_of_mem_zipIdx hfile
      exact confines_applyFile (h file hmem) id index
    · intro _
      apply Prog.Within.bind (confines_recordRevision _ _)
      intro _
      apply Prog.Within.bind (.each fun file _ => confines_op (o := .emit _) rfl trivial)
      exact fun _ => confines_complete id

/-- The intents that are to be carried out name paths of the database. -/
theorem pending_gives : (pending host).Gives fun found =>
    ∀ f ∈ found, ∀ file ∈ f.2.files, isDatabasePath file.path = true := by
  have hchecks : ∀ (files : List Mutation), (Prog.each files fun file => (do
      let _ ← lift (databasePath file.path)
      pure () : Prog lang Unit)).Gives fun _ => ∀ file ∈ files, isDatabasePath file.path = true := by
    intro files
    induction files with
    | nil => exact .pure (by simp)
    | cons file files ih =>
      have hfirst : (do
          let _ ← lift (databasePath file.path)
          pure () : Prog lang Unit).Gives fun _ => isDatabasePath file.path = true := by
        unfold databasePath
        split
        · rename_i hpath
          exact .pure hpath
        · exact .fail _
      apply hfirst.bind
      intro _ hpath
      exact ih.mono fun _ hfiles => List.forall_mem_cons.2 ⟨hpath, hfiles⟩
  have hone : ∀ id, (pendingOf host id).Gives fun r : Option (String × Intent) =>
      ∀ f, r = some f → ∀ file ∈ f.2.files, isDatabasePath file.path = true := by
    intro id
    unfold pendingOf
    split
    · exact .fail _
    · apply Prog.Gives.bind_any
      intro source
      cases source with
      | none => exact .bind_any fun _ => .pure (by simp)
      | some source =>
        apply Prog.Gives.bind_any
        intro intent
        apply (hchecks intent.files).bind
        intro _ hfiles
        refine .pure fun f hf => ?_
        obtain rfl := Option.some.inj hf
        exact hfiles
  apply Prog.Gives.bind_any
  intro r
  cases r with
  | error e =>
    show Prog.Gives _ (if e.isMissing then _ else _)
    split
    · exact .pure (by simp)
    · exact .fail e
  | ok entries =>
    apply (Prog.Gives.collect hone _).bind
    intro found hfound
    refine .pure fun f hf => ?_
    have hmem := (List.mem_insertionSort _).1 hf
    rw [List.mem_filterMap] at hmem
    obtain ⟨r, hr, hsome⟩ := hmem
    exact hfound r hr f hsome

/-- The recovery changes files of the database. -/
theorem confines_recoverPending : Confines (fun _ => True) (recoverPending host) := by
  apply pending_gives.within_bind
  · apply Prog.Within.bind (confines_op (o := .readdir directory) rfl trivial).attempt
    intro r
    cases r with
    | error e =>
      show Confines _ (if e.isMissing then _ else _)
      split <;> trivial
    | ok entries =>
      apply Prog.Within.bind
      · apply Prog.Within.collect
        intro id _
        unfold pendingOf
        split
        · trivial
        · apply Prog.Within.bind (confines_readOptional _)
          intro source
          cases source with
          | none => exact .bind (confines_complete id) fun _ => .pure none
          | some source =>
            apply Prog.Within.bind (show Confines (fun _ => True) (lift (host.decode source)) from trivial)
            intro intent
            apply Prog.Within.bind
            · apply Prog.Within.each
              intro file _
              exact .bind (show Confines (fun _ => True) (lift (databasePath file.path)) from trivial) fun _ => .pure ()
            · exact fun _ => .pure _
      · exact fun _ => .pure _
  · intro found hfound
    apply Prog.Within.each
    rintro ⟨id, intent⟩ hmem
    exact confines_finish (fun file hfile => ⟨trivial, hfound _ hmem file hfile⟩) id

/-! ### Turns -/

/-- What is known of the state a call enters at, and stays so while it has the lock, is there for what it does. -/
theorem locked_runs (entered : State → Prop) {lock : Lock} {R : Except Error α → Prop} {body : Prog lang α}
    (hbefore : ∀ l ∈ locks, l.before lock) (hrunning : running = true → lock = .publication)
    (hφ : Guarded locks φ) (hsettled : ∀ path, lock = .path path → ∀ s, φ s → Settled s)
    (hentered : ∀ s, moment s → Sound s → Held t (lock :: locks) running s → φ s → entered s)
    (hstable : Guarded (lock :: locks) entered) (hψ : Guarded locks ψ)
    (hbody : serving.Runs ((sem fails kills).through moment) t (Knows t (lock :: locks) running entered) body
      fun r s => Knows t (lock :: locks) running ψ s ∧ R r) :
    serving.Runs ((sem fails kills).through moment) t (Knows t locks running φ) (withLock lock t body)
      fun r s => Knows t locks running ψ s ∧ R r := by
  have hnew : lock ∉ locks := fun hmem => lock.before_irrefl (hbefore lock hmem)
  have hline : serving.Runs ((sem fails kills).through moment) t (Knows t locks running φ)
      (Prog.modify (S := lang) (State.enqueue · lock t))
      (Accord.Returned fun _ s => Queued t lock locks running s ∧ φ s) := by
    apply Accord.Runs.modify
    rintro s ⟨hheld, hs⟩ hi
    obtain ⟨hkeeps, hqueued⟩ := enqueue_keeps hi.1 hheld hnew
    have hsound : Sound (s.enqueue lock t) := by
      refine ⟨hi.2.rooted, hi.2.inward, fun path hpath => ?_⟩
      rw [queue_enqueue] at hpath
      split at hpath
      · rename_i heq
        exact hsettled path heq.symm s hs
      · exact hi.2.started path hpath
    exact ⟨serving_keeps hkeeps hsound id fun lock _ _ _ => part_of_disk lock rfl, hqueued,
      hφ s _ hs id fun lock _ => part_of_disk lock rfl⟩
  have hqueue : serving.Stable t fun s => Queued t lock locks running s ∧ φ s := by
    rintro s s' ⟨hqueued, hs⟩ hr hi
    refine ⟨stable_queued s s' hqueued hr.1.1 hi.1, hφ s s' hs hr.1.2 fun l hl => ?_⟩
    exact hr.2 l (hqueued.head l hl)
  have henter : serving.Runs ((sem fails kills).through moment) t (fun s => Queued t lock locks running s ∧ φ s)
      (Prog.op (S := lang) (.enter lock t))
      (Accord.Returned fun _ => Knows t (lock :: locks) running entered) := by
    refine .op_torn hqueue (Accord.Stable.returned fun _ => stable_knows hstable) ?_ ?_ ?_
    · rintro s ⟨hqueued, -⟩ _
      refine ⟨rfl, (hqueued.mem lock).2 (.inl rfl), fun l hl => ?_, fun hrunner => ?_⟩
      · exact ((hqueued.mem l).1 hl).imp_right fun hl => ⟨hbefore l hl, hqueued.head l hl⟩
      · exact hrunning (hqueued.runner.1 hrunner)
    · rintro s r s' ⟨hqueued, hs⟩ hi ⟨hmoment, hmay, hstep | ⟨hwaits, -⟩⟩
      · obtain ⟨rfl, rfl⟩ := Prod.mk.inj hstep
        have hheld : Held t (lock :: locks) running s' := by
          refine ⟨fun l => ?_, fun l hl => ?_, hqueued.runner⟩
          · rw [hqueued.mem l, List.mem_cons]
          · rcases List.mem_cons.1 hl with rfl | hl
            · exact hmay
            · exact hqueued.head l hl
        exact ⟨.refl hi, hheld, hentered s' hmoment hi.2 hheld hs⟩
      · cases hwaits
    · intro s s' _ hi htorn
      obtain rfl : s' = s := htorn
      exact .refl hi
  have hrelease : ∀ r : Except Error α, serving.Runs ((sem fails kills).through moment) t
      (fun s => Knows t (lock :: locks) running ψ s ∧ R r) (Prog.modify (S := lang) (State.release · lock))
      (Accord.Returned fun _ s => Knows t locks running ψ s ∧ R r) := by
    intro r
    apply Accord.Runs.modify
    rintro s ⟨⟨hheld, hs⟩, hr⟩ hi
    obtain ⟨hkeeps, hleft⟩ := release_keeps hi.1 hheld hnew
    have hsound : Sound (s.release lock) := by
      refine ⟨hi.2.rooted, hi.2.inward, fun path hpath => hi.2.started path ?_⟩
      rw [queue_release] at hpath
      split at hpath
      · intro hnil
        rw [hnil] at hpath
        exact hpath rfl
      · exact hpath
    exact ⟨serving_keeps hkeeps hsound id fun lock _ _ _ => part_of_disk lock rfl,
      ⟨hleft, hψ s _ hs id fun lock _ => part_of_disk lock rfl⟩, hr⟩
  apply Accord.Runs.bind_returns hline
  intro _
  apply Accord.Runs.bind_returns henter
  intro _
  exact .ensure hbody hrelease

/-! ### The first recovery -/

/-- A call that runs the recovery, or waits for it, has no lock of a path that matters before it is over. -/
theorem Sound.free (h : Sound s) (hready : ¬Settled s) (path : String) (u : Nat) : ¬Has (.path path) u s := by
  intro hhas
  apply hready
  apply h.started path
  intro hnil
  rw [Has, hnil] at hhas
  cases hhas

theorem Held.unsettled (h : Held t locks true s) : ¬Settled s := by
  rintro ⟨r, hr⟩
  have hrunner := h.runner.2 rfl
  rw [hr] at hrunner
  cases hrunner

theorem begin_serves (hpaths : OfPaths locks) (hφ : Guarded locks φ) :
    serving.Runs ((sem fails kills).through moment) t (Knows t locks false φ) (begin_ host t)
      (Accord.Returned fun _ s => Started t locks s ∧ φ s) := by
  refine .get_bind fun s => ?_
  cases hready : s.ready with
  | absent =>
    have hunsettled : ¬Settled s := by
      rintro ⟨r, hr⟩
      rw [hready] at hr
      cases hr
    -- No call has come to the locks of paths, so what is known rests on none.
    have hnone : ∀ s', Knows t locks false φ s' ∧ s' = s → serving.inv s' → locks = [] := by
      rintro s' ⟨⟨hheld, -⟩, rfl⟩ hi
      cases hlocks : locks with
      | nil => rfl
      | cons l rest =>
        obtain ⟨path, rfl⟩ := hpaths l (by rw [hlocks]; exact List.mem_cons_self)
        have hhas := hheld.head (.path path) (by rw [hlocks]; exact List.mem_cons_self)
        exact (hi.2.free hunsettled path t hhas).elim
    intro x hx hi
    have hlocks := hnone x.state hx hi
    subst hlocks
    have hbegin : serving.Runs ((sem fails kills).through moment) t (fun s' => Knows t [] false φ s' ∧ s' = s)
        (Prog.modify (S := lang) fun s => { s with ready := .running t })
        (Accord.Returned fun _ => Knows t [] true φ) := by
      apply Accord.Runs.modify
      rintro s' ⟨⟨hheld, hs⟩, rfl⟩ hi
      have hkeeps : turns.Keeps t s' { s' with ready := .running t } := ready_keeps hi.1 trivial fun u hu => by
        rw [hready]
        simp [Readiness.runner, Ne.symm hu]
      have hsound : Sound { s' with ready := .running t } :=
        ⟨hi.2.rooted, hi.2.inward, fun path hpath => (hunsettled (hi.2.started path hpath)).elim⟩
      refine ⟨serving_keeps hkeeps hsound (fun h => (hunsettled h).elim) fun lock _ _ _ => part_of_disk lock rfl, ?_⟩
      refine ⟨⟨hheld.mem, hheld.head, by simp [Readiness.runner]⟩, ?_⟩
      exact hφ s' _ hs (fun h => (hunsettled h).elim) fun lock hlock => by cases hlock
    have hrecover : serving.Runs ((sem fails kills).through moment) t (Knows t [] true φ)
        (withLock .publication t (recoverPending host)) fun r s => Knows t [] true φ s ∧ True := by
      refine locked_runs φ hpaths.before (fun _ => rfl) hφ (fun _ h => by cases h) (fun _ _ _ _ h => h)
        hφ.more hφ ?_
      have hidle : serving.Idle ((sem fails kills).through moment) t (Knows t [.publication] true φ)
          (recoverPending host) := by
        refine idle_of_confines confines_recoverPending List.mem_cons_self ?_ hφ
        intro s hheld hsound path u _ hhas
        exact (hsound.free hheld.unsettled path u hhas).elim
      exact hidle.conseq (fun _ _ hs => hs) fun _ _ _ hs => ⟨hs, trivial⟩
    refine (Accord.Runs.bind_returns hbegin fun _ => ?_) x hx hi
    apply Accord.Runs.bind_returns hrecover.attempt
    intro r
    apply Accord.Runs.modify
    rintro s' ⟨⟨hheld, hs⟩, -⟩ hi
    have hkeeps : turns.Keeps t s' { s' with ready := .settled r } := ready_keeps hi.1 trivial fun u hu => by
      rw [hheld.runner.2 rfl]
      simp [Readiness.runner, Ne.symm hu]
    have hsound : Sound { s' with ready := .settled r } := ⟨hi.2.rooted, hi.2.inward, fun _ _ => ⟨r, rfl⟩⟩
    refine ⟨serving_keeps hkeeps hsound (fun _ => ⟨r, rfl⟩) fun lock _ _ _ => part_of_disk lock rfl, ?_⟩
    refine ⟨⟨⟨hheld.mem, hheld.head, by simp [Readiness.runner]⟩, trivial⟩, ?_⟩
    exact hφ s' _ hs (fun _ => ⟨r, rfl⟩) fun lock hlock => by cases hlock
  | running u =>
    refine .pure fun s' hs _ => ?_
    obtain ⟨⟨hheld, hs⟩, rfl⟩ := hs
    exact ⟨⟨hheld, by rw [hready]; trivial⟩, hs⟩
  | settled r =>
    refine .pure fun s' hs _ => ?_
    obtain ⟨⟨hheld, hs⟩, rfl⟩ := hs
    exact ⟨⟨hheld, by rw [hready]; trivial⟩, hs⟩

theorem first_serves (hpaths : OfPaths locks) (hφ : Guarded locks φ) :
    serving.Runs ((sem fails kills).through moment) t (fun s => Started t locks s ∧ φ s)
      (Prog.op (S := lang) .first) fun _ => Knows t locks false fun s => φ s ∧ Settled s := by
  have hstarted : serving.Stable t fun s => Started t locks s ∧ φ s := by
    rintro s s' ⟨⟨hheld, hbegun⟩, hs⟩ hr hi
    have hknows := stable_knows hφ s s' ⟨hheld, hs⟩ hr hi
    exact ⟨⟨hknows.1, hr.1.1.begun hbegun⟩, hknows.2⟩
  refine .op_torn hstarted (fun _ => stable_knows (hφ.and guarded_settled)) ?_ ?_ ?_
  · rintro s ⟨⟨hheld, hbegun⟩, -⟩ _
    refine ⟨fun l hl => ?_, fun hrunner => ?_, hbegun⟩
    · have hmem := (hheld.mem l).1 hl
      exact ⟨hpaths l hmem, hheld.head l hmem⟩
    · exact Bool.false_ne_true (hheld.runner.1 hrunner)
  · rintro s r s' ⟨⟨hheld, -⟩, hs⟩ hi hstep
    have hmay : Settled s := hstep.2.1
    have hturns := step_sameTurns hstep.2
    obtain ⟨hkeeps, hparts⟩ := aside_keeps hi hturns (database_of_step (o := .first) trivial hstep.2)
    exact ⟨hkeeps, Knows.aside ⟨hheld, hs, hmay⟩ (hφ.and guarded_settled) hturns hparts⟩
  · intro s s' _ hi htorn
    obtain rfl : s' = s := htorn
    exact .refl hi

theorem recover_serves (hpaths : OfPaths locks) (hφ : Guarded locks φ) :
    serving.Runs ((sem fails kills).through moment) t (Knows t locks false φ) (recover host t)
      fun _ => Knows t locks false fun s => φ s ∧ Settled s := by
  apply Accord.Runs.bind_returns (begin_serves hpaths hφ)
  intro _
  exact .bind (first_serves hpaths hφ) (fun _ => idle_of_aside aside_assertHealthy (hφ.and guarded_settled))
    fun _ _ _ hs => hs

/-! ### Reads of the database -/

/-- The operation looks at the disk. -/
def Op.Looks : Op → Prop
  | .lstat _ | .readFile _ | .readdir _ => True
  | _ => False

/-- The operations that look at the disk do not fail for reasons of their own. -/
def Looking (fails : Op → State → Prop) : Prop := ∀ o s, o.Looks → ¬fails o s

/-- What nothing strikes. -/
abbrev unstruck : Faults := fun _ => none

theorem Op.Public.looks {o : Op} (h : o.Public) : o.Looks := by
  cases o with
  | lstat place => trivial
  | readFile place => trivial
  | readdir place => trivial
  | _ => exact h.elim

theorem Op.Looks.private {o : Op} (h : o.Looks) : o.Private := by
  cases o with
  | lstat place => trivial
  | readFile place => trivial
  | readdir place => trivial
  | _ => exact h.elim

/-- An operation that looks at the disk changes nothing, and finds what is there. -/
theorem look_serves {o : Op} (h : o.Looks) (hφ : Guarded locks φ) {R : Except Error o.Res → Prop}
    (hfound : ∀ s, φ s → R (o.found s.disk)) :
    serving.Runs ((sem fails kills).through moment) t (Knows t locks running φ) (Prog.op o)
      fun r s => Knows t locks running φ s ∧ (Looking fails → R r) ∧ IfOk (fun a => R (.ok a)) r := by
  refine .op_torn (stable_knows hφ) (fun r => (stable_knows hφ).and (Accord.Stable.const _)) ?_ ?_ ?_
  · intro s _ _
    cases o with
    | enter lock u => exact h.elim
    | first => exact h.elim
    | _ => trivial
  · rintro s r s' hknows hi ⟨-, hstep⟩
    have hturns := step_sameTurns hstep
    obtain ⟨hkeeps, hparts⟩ := aside_keeps hi hturns (database_of_step h.private hstep)
    refine ⟨hkeeps, hknows.aside hφ hturns hparts, ?_⟩
    rcases hstep.2 with hperform | ⟨-, hfails, ⟨e, rfl⟩, -⟩
    · have hr : r = o.found s.disk := by
        have hperform' : o.perform s = (o.found s.disk, s) := by
          cases o with
          | lstat place => rfl
          | readFile place => rfl
          | readdir place => rfl
          | _ => exact h.elim
        rw [hperform'] at hperform
        exact congrArg Prod.fst hperform
      have hR : R r := by
        rw [hr]
        exact hfound s hknows.2
      refine ⟨fun _ => hR, fun a ha => ?_⟩
      rwa [ha] at hR
    · exact ⟨fun hlooking => (hlooking o s h hfails).elim, ifOk_error⟩
  · intro s s' _ hi htorn
    have hsame : s' = s := by
      cases o with
      | lstat place => exact htorn
      | readFile place => exact htorn
      | readdir place => exact htorn
      | _ => exact h.elim
    rw [hsame]
    exact .refl hi

/-- What only reads finds what the database holds, and leaves it. -/
theorem reads_serve {d : Disk} {p : Prog lang α} (h : Reads p) (hφ : Guarded locks φ)
    (hdisk : ∀ s, φ s → s.disk.elsewhere ".journal" = d.elsewhere ".journal") :
    serving.Runs ((sem fails kills).through moment) t (Knows t locks running φ) p
      fun r s => Knows t locks running φ s ∧ (Looking fails → r = observe unstruck d p) := by
  induction p with
  | done r => exact .done fun s hs _ => ⟨hs, fun _ => rfl⟩
  | turn f k ih => exact (h.1 ⟨⟨[]⟩, fun _ => [], .absent, false, 0, [], [], []⟩).elim
  | await o k ih =>
    have hop : serving.Runs ((sem fails kills).through moment) t (Knows t locks running φ) (Prog.op (S := lang) o).attempt
        (Accord.Returned fun r s => Knows t locks running φ s ∧ (Looking fails → r = answer unstruck d o)) := by
      apply Accord.Runs.attempt
      refine (look_serves h.1.looks hφ (R := fun r => r = answer unstruck d o) fun s hs => ?_).conseq
        (fun _ _ hs => hs) fun r s _ hr => ⟨hr.1, hr.2.1⟩
      have hfound : o.found s.disk = answer unstruck s.disk o := by rw [answer, struck_alone]
      rw [hfound]
      exact answer_congr (hdisk s hs) h.1
    refine Accord.Runs.bind_returns hop fun r => ?_
    apply Accord.Runs.assume
    intro hr
    refine (ih r (h.2 r)).conseq (fun _ _ hs => hs) fun r' s _ hq => ⟨hq.1, fun hlooking => ?_⟩
    rw [hq.2 hlooking, hr hlooking]
    rfl

/-- What a call knows of the moment at which it has come to the publication lock. -/
structure Seen (moment : State → Prop) (t : Nat) (φ : State → Prop) (m : State) : Prop where
  moment : moment m
  sound : Sound m
  publishes : Has .publication t m
  known : φ m

/-- The database is as it was at a moment. -/
def Since (m s : State) : Prop := s.database = m.database

theorem guarded_since (m : State) : Guarded (.publication :: locks) (Since m) :=
  fun _ _ h _ hparts => (hparts .publication List.mem_cons_self).trans h

theorem Since.elsewhere {m : State} (h : Since m s) :
    s.disk.elsewhere ".journal" = m.disk.elsewhere ".journal" := congrArg Disk.entries h

/-- What is done at the publication lock finds the database as it was at one moment. -/
theorem publication_serves {R : Except Error α → Prop} {body : Prog lang α} (hpaths : OfPaths locks)
    (hφ : Guarded locks φ) (hψ : Guarded locks ψ)
    (hbody : ∀ m, Seen moment t φ m → serving.Runs ((sem fails kills).through moment) t
      (Knows t (.publication :: locks) false fun s => φ s ∧ Since m s) body
      fun r s => Knows t (.publication :: locks) false ψ s ∧ R r) :
    serving.Runs ((sem fails kills).through moment) t (Knows t locks false φ) (withLock .publication t body)
      fun r s => Knows t locks false ψ s ∧ R r := by
  refine locked_runs (fun s => ∃ m, Seen moment t φ m ∧ φ s ∧ Since m s) hpaths.before (fun _ => rfl)
    hφ (fun _ h => by cases h) ?_ ?_ hψ ?_
  · intro s hmoment hsound hheld hs
    exact ⟨s, ⟨hmoment, hsound, hheld.head _ List.mem_cons_self, hs⟩, hs, rfl⟩
  · rintro s s' ⟨m, hseen, hs, hsince⟩ hsettled hparts
    exact ⟨m, hseen, (hφ.more.and (guarded_since m)) s s' ⟨hs, hsince⟩ hsettled hparts⟩
  · rintro x ⟨hheld, m, hseen, hknown⟩ hi
    exact hbody m hseen x ⟨hheld, hknown⟩ hi

/-- A read under the publication lock. -/
theorem published_serves {R : State → α → Prop} {body : Prog lang α} (hpaths : OfPaths locks) (hφ : Guarded locks φ)
    (hbody : ∀ m, Seen moment t φ m → serving.Runs ((sem fails kills).through moment) t
      (Knows t (.publication :: locks) false fun s => φ s ∧ Since m s) body
      fun r s => Knows t (.publication :: locks) false φ s ∧ IfOk (R m) r) :
    serving.Runs ((sem fails kills).through moment) t (Knows t locks false φ) (published host t body)
      fun r s => Knows t locks false φ s ∧ IfOk (fun a => ∃ m, Seen moment t φ m ∧ R m a) r := by
  refine .bind (recover_serves hpaths hφ) (fun _ => ?_) fun e s _ hs => ⟨⟨hs.1, hs.2.1⟩, ifOk_error⟩
  have hlocked : serving.Runs ((sem fails kills).through moment) t (Knows t locks false φ)
      (withLock .publication t do
        assertHealthy
        body)
      fun r s => Knows t locks false φ s ∧ IfOk (fun a => ∃ m, Seen moment t φ m ∧ R m a) r := by
    refine publication_serves hpaths hφ hφ fun m hseen => ?_
    refine .bind (idle_of_aside aside_assertHealthy (hφ.more.and (guarded_since m))) (fun _ => ?_)
      fun e s _ hs => ⟨⟨hs.1, hs.2.1⟩, ifOk_error⟩
    refine (hbody m hseen).conseq (fun _ _ hs => hs) fun r s _ hr => ⟨hr.1, fun a ha => ?_⟩
    exact ⟨m, hseen, hr.2 a ha⟩
  exact hlocked.conseq (fun s _ hs => ⟨hs.1, hs.2.1⟩) fun _ _ _ hs => hs

end ConfigRegistry.Engine
