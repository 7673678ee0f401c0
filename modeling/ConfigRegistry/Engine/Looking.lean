import ConfigRegistry.Async.Execution
import ConfigRegistry.Engine.DataLayer

/-!
# A call that is alone

The engine with one call, on a disk some places of which cannot be looked at, read, listed or written. What
a call reads of the database is what it would have read before anything was staged.
-/

namespace ConfigRegistry.Engine

open Js Async Fs Store

/-- What fails for reasons of its own, and how. -/
abbrev Faults : Type := Op → Option Error

/-- The error of an operation that fails for a reason of its own. A turn at a lock does not. -/
def Op.struck (faults : Faults) (o : Op) : Option Error := if o.waits then none else faults o

/-- An operation of a call that is alone; it is stuck where it waits for another call. -/
def Op.stepWith (faults : Faults) (o : Op) (s : State) : Option (Except Error o.Res × State) :=
  if o.may s then
    match o.struck faults with
    | some e => some (.error e, s)
    | none => some (o.perform s)
  else none

variable {faults : Faults} {α : Type}

theorem Op.leaves_self (o : Op) (h : o.waits = false) (s : State) : o.leaves s s := by
  cases o with
  | enter lock t => cases h
  | first => cases h
  | mkdir place => exact ⟨0, rfl⟩
  | create place text => exact .inl rfl
  | rename source target => exact .inl rfl
  | rm place => exact .inl rfl
  | emit event => exact .inl rfl
  | rmAll place =>
    refine ⟨fun _ => true, ?_⟩
    simp [Disk.keep]
  | _ => exact rfl

/-- A call that is alone does what the engine does. -/
theorem step_of_stepWith {o : Op} {s s' : State} {r : Except Error o.Res} (h : o.stepWith faults s = some (r, s')) :
    (sem (fun o _ => (faults o).isSome = true) False).step o s r s' := by
  unfold Op.stepWith at h
  split at h
  · rename_i hmay
    refine ⟨hmay, ?_⟩
    split at h
    · rename_i e hstruck
      obtain ⟨rfl, rfl⟩ := Prod.mk.inj (Option.some.inj h)
      unfold Op.struck at hstruck
      split at hstruck
      · cases hstruck
      · rename_i hwaits
        have hwaits : o.waits = false := Bool.eq_false_iff.2 hwaits
        exact .inr ⟨hwaits, by simp [hstruck], ⟨e, rfl⟩, o.leaves_self hwaits s⟩
    · exact .inl (Option.some.inj h).symm
  · cases h

/-- A call that arrives where no other runs can go the way of `run`. -/
theorem steps_of_alone {host : Host} {p : Pool lang Call Answer} {c : Call} {s' : State} {r : Except Error Answer}
    (h : (serve host p.threads.length c).run (Op.stepWith faults) p.state = some (r, s')) :
    Steps (engine host (fun o _ => (faults o).isSome = true) False) p
      ⟨s', p.threads ++ [⟨c, some (.done r)⟩]⟩ := by
  have hstep : ∀ o s r s', Op.stepWith faults o s = some (r, s') →
      (engine host (fun o _ => (faults o).isSome = true) False).sem.step o s r s' :=
    fun _ _ _ _ h => step_of_stepWith h
  exact steps_of_run_arrive (fun _ _ => trivial) hstep trivial h

/-! ### Programs that only read the database -/

/-- What is read is not of the journal. -/
def Op.Public : Op → Prop
  | .lstat place | .readFile place => place.head? ≠ some ".journal"
  | .readdir place => place.head? ≠ some ".journal" ∧ base place ≠ []
  | _ => False

/-- What an operation that reads finds on the disk. -/
def Op.found (d : Disk) : (o : Op) → Except Error o.Res
  | .lstat place => (d.lstat place).map Entry.kind
  | .readFile place => d.readFile place
  | .readdir place => d.readdir place
  | .mkdir _ => .ok none
  | .enter _ _ | .first | .sync _ | .create _ _ | .rename _ _ | .rm _ | .rmAll _ | .emit _ => .ok ()

/-- What an operation that reads comes to. -/
def answer (faults : Faults) (d : Disk) (o : Op) : Except Error o.Res :=
  match o.struck faults with
  | some e => .error e
  | none => o.found d

/-- What a program that only reads comes to. -/
def observe (faults : Faults) (d : Disk) : Prog lang α → Except Error α
  | .done r => r
  | .turn _ _ => .error (.of "not a program that only reads")
  | .await o k => observe faults d (k (answer faults d o))

/-- The program reads what is not of the journal, and does nothing else. -/
abbrev Reads (p : Prog lang α) : Prop := p.Within (S := lang) Op.Public fun _ _ => False

theorem step_of_public {o : Op} (h : o.Public) (s : State) :
    o.stepWith faults s = some (answer faults s.disk o, s) := by
  have hmay : o.may s := by
    cases o with
    | enter lock t => exact h.elim
    | first => exact h.elim
    | _ => trivial
  have hfound : o.perform s = (o.found s.disk, s) := by
    cases o with
    | lstat place => rfl
    | readFile place => rfl
    | readdir place => rfl
    | _ => exact h.elim
  unfold Op.stepWith answer
  rw [if_pos hmay, hfound]
  cases o.struck faults <;> rfl

theorem run_of_reads {p : Prog lang α} (h : Reads p) (s : State) :
    p.run (Op.stepWith faults) s = some (observe faults s.disk p, s) := by
  induction p with
  | done r => rfl
  | turn f k ih => exact (h.1 s).elim
  | await o k ih =>
    show ((o.stepWith faults s).bind fun x => (k x.1).run (Op.stepWith faults) x.2) = _
    rw [step_of_public h.1]
    exact ih _ (h.2 _)

theorem answer_congr {d d' : Disk} (h : d.elsewhere ".journal" = d'.elsewhere ".journal") {o : Op} (ho : o.Public) :
    answer faults d o = answer faults d' o := by
  have hfound : o.found d = o.found d' := by
    cases o with
    | lstat place => rw [Op.found, Op.found, Disk.lstat_congr h ho]
    | readFile place => rw [Op.found, Op.found, Disk.readFile_congr h ho]
    | readdir place => rw [Op.found, Op.found, Disk.readdir_congr h ho.1 ho.2]
    | _ => exact ho.elim
  rw [answer, answer, hfound]

/-- What is read is the same whatever the journal holds. -/
theorem observe_congr {d d' : Disk} (h : d.elsewhere ".journal" = d'.elsewhere ".journal") {p : Prog lang α}
    (hp : Reads p) : observe faults d p = observe faults d' p := by
  induction p with
  | done r => rfl
  | turn f k ih => rfl
  | await o k ih =>
    rw [observe, observe, answer_congr h hp.1]
    exact ih _ (hp.2 _)

theorem observe_bind (d : Disk) (p : Prog lang α) {β : Type} (g : α → Prog lang β) (hp : Reads p) :
    observe faults d (p >>= g) = observe faults d p >>= fun a => observe faults d (g a) := by
  induction p with
  | done r => cases r <;> rfl
  | turn f k ih => exact (hp.1 ⟨d, fun _ => [], .absent, false, 0, [], [], []⟩).elim
  | await o k ih => exact ih _ (hp.2 _)

/-- The first name of a place of the database does not begin with a dot. -/
theorem head_placeOf {path : String} (h : isDatabasePath path = true) :
    ∃ name, (placeOf path).head? = some name ∧ name ≠ "" ∧ isHidden name = false := by
  rw [isDatabasePath, Bool.and_eq_true, Bool.and_eq_true] at h
  obtain ⟨⟨hne, hfull⟩, hdots⟩ := h
  rw [List.all_eq_true] at hfull hdots
  cases hparts : path.toList.splitOn '/' with
  | nil => exact (List.splitOn_ne_nil _ _ hparts).elim
  | cons part rest =>
    refine ⟨String.ofList part, by rw [placeOf, hparts]; rfl, ?_, ?_⟩
    · intro hempty
      have hpart : part = [] := by
        have := congrArg String.toList hempty
        rwa [String.toList_ofList] at this
      subst hpart
      cases rest with
      | nil =>
        have hjoin : List.intercalate ['/'] (path.toList.splitOn '/') = path.toList := List.intercalate_splitOn '/'
        rw [hparts] at hjoin
        have : path = "" := String.toList_inj.1 hjoin.symm
        rw [this] at hne
        cases hne
      | cons next rest =>
        have := hfull [] (by rw [hparts]; exact List.mem_cons_self)
        cases this
    · have := hdots part (by rw [hparts]; exact List.mem_cons_self)
      simpa [isHidden, String.toList_ofList] using this

theorem public_of_head {place : Place} {name : String} (h : place.head? = some name) (hname : isHidden name = false) :
    place.head? ≠ some ".journal" := by
  rw [h]
  intro heq
  obtain rfl := Option.some.inj heq
  revert hname
  decide

theorem public_placeOf {path : String} (h : isDatabasePath path = true) :
    (placeOf path).head? ≠ some ".journal" := by
  obtain ⟨name, hhead, -, hname⟩ := head_placeOf h
  exact public_of_head hhead hname

theorem base_placeOf_ne {path : String} (h : isDatabasePath path = true) : base (placeOf path) ≠ [] := by
  obtain ⟨name, hhead, hne, -⟩ := head_placeOf h
  rw [base]
  split
  · rename_i hlast
    cases hcase : placeOf path with
    | nil =>
      rw [hcase] at hhead
      cases hhead
    | cons x rest =>
      rw [hcase] at hhead hlast
      obtain rfl := Option.some.inj hhead
      cases rest with
      | nil => exact (hne (Option.some.inj hlast)).elim
      | cons y rest => simp
  · intro hnil
    rw [hnil] at hhead
    cases hhead

theorem public_init {path : String} (h : isDatabasePath path = true) {place : Place}
    (hplace : place ∈ (placeOf path).inits.map base) : place.head? ≠ some ".journal" := by
  obtain ⟨p, hp, rfl⟩ := List.mem_map.1 hplace
  apply Disk.head_base
  rw [List.mem_inits] at hp
  obtain ⟨rest, hrest⟩ := hp
  have hpublic := public_placeOf h
  cases p with
  | nil => simp
  | cons x p =>
    rw [← hrest] at hpublic
    exact hpublic

theorem reads_assertNoSymlinks (path : String) : Reads (assertNoSymlinks path) := by
  unfold assertNoSymlinks databasePath
  split
  · rename_i hpath
    show Reads (Prog.each ((placeOf path).inits.map base) _)
    apply Prog.Within.each
    intro candidate hcandidate
    apply Prog.Within.bind
    · apply Prog.Within.attempt
      exact .op (public_init hpath hcandidate)
    · intro r
      cases r with
      | error e =>
        show Reads (if e.isMissing then _ else _)
        split <;> trivial
      | ok kind => cases kind <;> trivial
  · trivial

theorem reads_readOptional {place : Place} (h : place.head? ≠ some ".journal") : Reads (readOptional place) := by
  unfold readOptional
  apply Prog.Within.bind
  · apply Prog.Within.attempt
    exact .op h
  · intro r
    cases r with
    | ok text => trivial
    | error e =>
      show Reads (if e.isMissing then _ else _)
      split <;> trivial

theorem reads_revisionUnlocked : Reads revisionUnlocked := by
  unfold revisionUnlocked
  apply Prog.Within.bind (reads_readOptional (by decide))
  intro source
  cases source <;> trivial

theorem reads_readUnlocked (path : String) : Reads (readUnlocked path) := by
  by_cases hpath : isDatabasePath path = true
  · exact .bind (reads_assertNoSymlinks path) fun _ => reads_readOptional (public_placeOf hpath)
  · unfold readUnlocked assertNoSymlinks databasePath
    rw [if_neg hpath]
    trivial

theorem reads_documentNames (path : String) : Reads (documentNames path) := by
  by_cases hpath : isDatabasePath path = true
  · apply Prog.Within.bind (reads_assertNoSymlinks path)
    intro _
    apply Prog.Within.bind
    · apply Prog.Within.attempt
      exact .op ⟨public_placeOf hpath, base_placeOf_ne hpath⟩
    · intro r
      cases r with
      | ok entries => trivial
      | error e =>
        show Reads (if e.isMissing then _ else _)
        split <;> trivial
  · unfold documentNames assertNoSymlinks databasePath
    rw [if_neg hpath]
    trivial

end ConfigRegistry.Engine
