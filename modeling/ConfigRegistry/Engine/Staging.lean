import ConfigRegistry.Engine.Bootstrapping

/-!
# What is staged

`prepare` of `src/store/transaction-journal.ts`, where any operation may fail: the payloads are written in the
directory of their transaction, and either that is complete, or it is removed, or it stays.
-/

namespace ConfigRegistry.Engine

open Js Async Fs Store

variable {faults : Faults} {host : Host} {s s' : State} {id : String}

/-! ### Operations that are struck -/

/-- One of the operations fails for a reason of its own. -/
def Strikes (faults : Faults) (ops : List Op) : Prop := ∃ o ∈ ops, (o.struck faults).isSome = true

theorem run_op_struck (o : Op) {e : Error} (hmay : o.may s) (h : o.struck faults = some e) :
    (Prog.op (S := lang) o).run (Op.stepWith faults) s = some (.error e, s) := by
  rw [Prog.run_op, Op.stepWith, if_pos hmay, h]

theorem not_strikes_cons {o : Op} {ops : List Op} :
    ¬Strikes faults (o :: ops) ↔ o.struck faults = none ∧ ¬Strikes faults ops := by
  simp [Strikes, not_or]

theorem not_strikes_nil : ¬Strikes faults [] := by
  simp [Strikes]

theorem not_strikes_append {ops ops' : List Op} :
    ¬Strikes faults (ops ++ ops') ↔ ¬Strikes faults ops ∧ ¬Strikes faults ops' := by
  simp [Strikes, or_imp, forall_and]

/-! ### The directory of a transaction -/

/-- The name of a file that is not complete yet. -/
def IsTemporary (name : String) : Prop := name.toList.getLast? = some 'p'

/-- The directory of a transaction is there; what is in it are files, all of them complete. -/
structure Housed (d : Disk) (id : String) : Prop where
  leads : d.Leads (transaction id)
  files : ∀ name, d.at_ (transaction id ++ [name]) ≠ some .dir
  complete : ∀ name, IsTemporary name → d.at_ (transaction id ++ [name]) = none

theorem temporary_eq (host : Host) (place : Place) (name uuid : String) :
    ∃ temp, temporary host (place ++ [name]) uuid = place ++ [temp] ∧ IsTemporary temp ∧ temp ≠ "" := by
  refine ⟨name ++ "." ++ host.pid ++ "." ++ uuid ++ ".tmp", ?_, ?_, ?_⟩
  · simp [temporary]
  · rw [IsTemporary, String.toList_append, List.getLast?_append]
    rfl
  · intro h
    have hlist := congrArg String.toList h
    simp at hlist

theorem dirname_transaction {name : String} (hname : name ≠ "") :
    dirname (transaction id ++ [name]) = transaction id := by
  have hbase : base (transaction id ++ [name]) = transaction id ++ [name] := by
    rw [base, if_neg]
    simpa using hname
  rw [dirname, hbase, List.dropLast_concat]

/-- Nothing is missing on the way to a place that one gets to. -/
theorem mkdir_leads {d : Disk} {place : Place} (h : d.Leads place) : d.mkdir place = (.ok none, d) := by
  have hsteps : ∀ p ∈ Disk.steps place, d.at_ p = some .dir := by
    intro p hp
    rw [Disk.steps, base_of_proper h.1] at hp
    exact h.2 p ((List.mem_inits _ _).1 (List.mem_of_mem_tail hp))
  have hnone : (Disk.steps place).find? (fun p => d.at_ p != none && d.at_ p != some .dir) = none := by
    rw [List.find?_eq_none]
    intro p hp
    simp [hsteps p hp]
  have hmissing : d.missing place = [] := by
    rw [Disk.missing, List.filter_eq_nil_iff]
    intro p hp
    simp [hsteps p hp]
  rw [Disk.mkdir, hnone, hmissing]
  rfl

/-! ### One file is written -/

/-- What is done of a file's writing until it is there, and then. -/
def writeOps (host : Host) (place : Place) (content : String) (n : Nat) : List Op :=
  [.mkdir (dirname place), .create (temporary host place (host.uuid n)) content,
    .rename (temporary host place (host.uuid n)) place]

/-- Nothing has changed but the journal and what is drawn. -/
structure Beside (s s' : State) : Prop where
  files : s'.disk.elsewhere ".journal" = s.disk.elsewhere ".journal"
  events : s'.events = s.events
  visible : s'.visible = s.visible
  queue : s'.queue = s.queue
  ready : s'.ready = s.ready
  healthy : s'.recoveryRequired = s.recoveryRequired

theorem Beside.refl (s : State) : Beside s s := ⟨rfl, rfl, rfl, rfl, rfl, rfl⟩

theorem Beside.trans {s₁ s₂ s₃ : State} (h : Beside s₁ s₂) (h' : Beside s₂ s₃) : Beside s₁ s₃ :=
  ⟨h'.files.trans h.files, h'.events.trans h.events, h'.visible.trans h.visible, h'.queue.trans h.queue,
    h'.ready.trans h.ready, h'.healthy.trans h.healthy⟩

theorem head_transaction (id : String) (rest : Place) : (transaction id ++ rest).head? = some ".journal" := rfl

theorem Disk.Leads.congr {d d' : Disk} {place : Place} (h : d.Leads place)
    (hsame : ∀ p, p <+: place → d'.at_ p = d.at_ p) : d'.Leads place :=
  ⟨h.1, fun p hp => (hsame p hp).trans (h.2 p hp)⟩

theorem ne_of_way {place p : Place} {name : String} (h : p <+: place) : p ≠ place ++ [name] := by
  rintro rfl
  have hlength := h.length_le
  simp at hlength

section Write

variable {name temp content : String}

/-- A file is begun in the directory of a transaction. -/
theorem Housed.create (h : Housed s.disk id) (htemp : IsTemporary temp) :
    (Op.create (transaction id ++ [temp]) content).perform s =
      (.ok (), { s with disk := s.disk.put (transaction id ++ [temp]) (.file content) }) := by
  have habsent : (s.disk.at_ (transaction id ++ [temp])).isSome = false := by
    rw [h.complete temp htemp]
    rfl
  rw [Op.perform, Disk.create, List.dropLast_concat, h.leads.lstat]
  simp only [habsent, Bool.false_eq_true, if_false]
  rfl

/-- What is begun is below a directory that is still there. -/
theorem Housed.put_leads {d : Disk} (h : Housed d id) {entry : Entry} :
    (d.put (transaction id ++ [temp]) entry).Leads (transaction id) := by
  apply Disk.Leads.congr h.leads
  intro p hp
  rw [Disk.at_put (by simp), if_neg (ne_of_way hp)]

/-- A file that was begun takes its name. -/
theorem Housed.rename {d : Disk} (h : Housed d id) (htemp : IsTemporary temp) (hne : temp ≠ "")
    (hname : ¬IsTemporary name) (hname' : name ≠ "") :
    let begun := d.put (transaction id ++ [temp]) (.file content)
    let ended := (begun.keep fun p => p != transaction id ++ [temp]).put (transaction id ++ [name]) (.file content)
    begun.rename (transaction id ++ [temp]) (transaction id ++ [name]) = (.ok (), ended) ∧
      begun.readFile (transaction id ++ [temp]) = .ok content ∧ Housed ended id ∧
      ended.elsewhere ".journal" = d.elsewhere ".journal" := by
  intro begun ended
  have hleads : begun.Leads (transaction id) := h.put_leads
  have hdiffers : name ≠ temp := by
    rintro rfl
    exact hname htemp
  have hsource : begun.lstat (transaction id ++ [temp]) = .ok (.file content) := by
    rw [hleads.lstat_name hne, Disk.at_put (by simp), if_pos rfl]
    rfl
  have hbase : base (transaction id ++ [name]) = transaction id ++ [name] := by
    rw [base, if_neg]
    simpa using hname'
  have htarget : begun.at_ (transaction id ++ [name]) ≠ some .dir := by
    rw [Disk.at_put (by simp), if_neg (by simpa using hdiffers)]
    exact h.files name
  have hat : ∀ p, p ≠ [] → ended.at_ p = if p = transaction id ++ [name] then some (.file content)
      else if p = transaction id ++ [temp] then none else d.at_ p := by
    intro p hp
    rw [Disk.at_put (by simp)]
    split
    · rfl
    · rw [Disk.at_keep hp, Disk.at_put (by simp)]
      by_cases htemp' : p = transaction id ++ [temp] <;> simp [htemp']
  refine ⟨?_, ?_, ⟨?_, ?_, ?_⟩, ?_⟩
  · rw [Disk.rename, hsource]
    simp only [dirname_transaction hname', hleads.lstat]
    rw [if_neg (by simpa using hbase), if_neg htarget]
  · rw [Disk.readFile, hsource]
  · apply Disk.Leads.congr h.leads
    intro p hp
    by_cases hroot : p = []
    · subst hroot
      rfl
    · rw [hat p hroot, if_neg (ne_of_way hp), if_neg (ne_of_way hp)]
  · intro other
    rw [hat _ (by simp)]
    split
    · simp
    · split
      · simp
      · exact h.files other
  · intro other hother
    have hne' : other ≠ name := by
      rintro rfl
      exact hname hother
    rw [hat _ (by simp), if_neg (by simpa using hne')]
    split
    · rfl
    · exact h.complete other hother
  · rw [Disk.elsewhere_put (head_transaction id _), Disk.elsewhere_keep, Disk.elsewhere_put (head_transaction id _)]
    intro p hp
    rw [bne_eq_false_iff_eq] at hp
    rw [hp]
    exact head_transaction id _

/-- The directory that a file is written to is there already. -/
theorem run_ensureDirectory (faults : Faults) {place : Place} (h : s.disk.Leads place) :
    (∀ e, (Op.mkdir place).struck faults = some e →
      (ensureDirectory place).run (Op.stepWith faults) s = some (.error e, s)) ∧
    ((Op.mkdir place).struck faults = none →
      (ensureDirectory place).run (Op.stepWith faults) s = some (.ok (), s)) := by
  have hperform : (Op.mkdir place).perform s = (.ok none, s) := by
    rw [Op.perform, mkdir_leads h]
    rfl
  constructor
  · intro e he
    exact Prog.run_bind_error (run_op_struck (.mkdir place) trivial he) _
  · intro hfree
    have hmkdir : (Prog.op (S := lang) (.mkdir place)).run (Op.stepWith faults) s = some (.ok none, s) := by
      rw [run_op_unstruck (o := .mkdir place) trivial hfree, hperform]
    exact (Prog.run_bind_ok hmkdir _).trans rfl

/-- What is removed of a file that was begun. -/
theorem run_cleanup (faults : Faults) (place : Place) (cause : Error) : ∃ s',
    ((do
      let _ ← (Prog.op (S := lang) (.rm place)).attempt
      Prog.fail cause : Prog lang Unit)).run (Op.stepWith faults) s = some (.error cause, s') ∧
    (s' = s ∨ (s.disk.lstat place).isOk = true ∧ s' = { s with disk := s.disk.keep fun p => p != place }) := by
  cases hstruck : (Op.rm place).struck faults with
  | some e => exact ⟨s, Prog.run_attempt_bind (run_op_struck (.rm place) trivial hstruck) _, .inl rfl⟩
  | none =>
    have hrm := run_op_unstruck (s := s) (o := .rm place) trivial hstruck
    refine ⟨_, Prog.run_attempt_bind hrm _, ?_⟩
    show { s with disk := (s.disk.rm place).2 } = s ∨ _
    cases hlstat : s.disk.lstat place with
    | error e =>
      left
      rw [Disk.rm, hlstat]
    | ok entry =>
      cases entry with
      | dir =>
        left
        rw [Disk.rm, hlstat]
      | file text =>
        right
        refine ⟨rfl, ?_⟩
        show { s with disk := (s.disk.rm place).2 } = _
        rw [Disk.rm, hlstat]
      | link =>
        right
        refine ⟨rfl, ?_⟩
        show { s with disk := (s.disk.rm place).2 } = _
        rw [Disk.rm, hlstat]

/-- A file that was begun is removed, or stays: the directory is as it was. -/
theorem begun_beside (h : Housed s.disk id) (n : Nat) {s₁ : State}
    (hs₁ : s₁ = { s with drawn := n, disk := s.disk.put (transaction id ++ [temp]) (.file content) }) {s₂ : State}
    (hs₂ : s₂ = s₁ ∨ (s₁.disk.lstat (transaction id ++ [temp])).isOk = true ∧
      s₂ = { s₁ with disk := s₁.disk.keep fun p => p != transaction id ++ [temp] }) :
    Beside s s₂ ∧ s₂.disk.Leads (transaction id) := by
  have hput : (s.disk.put (transaction id ++ [temp]) (.file content)).elsewhere ".journal" =
      s.disk.elsewhere ".journal" := Disk.elsewhere_put (head_transaction id _)
  have hleads : (s.disk.put (transaction id ++ [temp]) (.file content)).Leads (transaction id) := h.put_leads
  subst hs₁
  rcases hs₂ with rfl | ⟨-, rfl⟩
  · exact ⟨⟨hput, rfl, rfl, rfl, rfl, rfl⟩, hleads⟩
  · refine ⟨⟨?_, rfl, rfl, rfl, rfl, rfl⟩, Disk.Leads.congr hleads fun p hp => ?_⟩
    · show ((s.disk.put (transaction id ++ [temp]) (.file content)).keep _).elsewhere ".journal" = _
      rw [Disk.elsewhere_keep, hput]
      intro p hp
      rw [bne_eq_false_iff_eq] at hp
      rw [hp]
      exact head_transaction id _
    · by_cases hroot : p = []
      · subst hroot
        rfl
      · show ((s.disk.put (transaction id ++ [temp]) (.file content)).keep _).at_ p = _
        rw [Disk.at_keep hroot, if_pos]
        rw [bne_iff_ne]
        exact ne_of_way hp

/-- A file was written: what there is of it besides. -/
structure Wrote (id : String) (place : Place) (content : String) (s s' : State) : Prop where
  housed : Housed s'.disk id
  drawn : s'.drawn = s.drawn + 1
  beside : Beside { s with visible := s'.visible } s'
  visible : s'.visible = s.visible ++ ((intentOf place).map fun i => (i, content)).toList

/-- `write`, of a file of a transaction. -/
theorem run_write (host : Host) (faults : Faults) (content : String) (h : Housed s.disk id) (hname : ¬IsTemporary name) (hname' : name ≠ "") :
    (Strikes faults (writeOps host (transaction id ++ [name]) content s.drawn) → ∃ e s',
      (write host (transaction id ++ [name]) content).run (Op.stepWith faults) s = some (.error e, s') ∧
      Beside s s' ∧ s'.disk.Leads (transaction id)) ∧
    (¬Strikes faults (writeOps host (transaction id ++ [name]) content s.drawn) → ∃ r s',
      (write host (transaction id ++ [name]) content).run (Op.stepWith faults) s = some (r, s') ∧
      Wrote id (transaction id ++ [name]) content s s' ∧
      (r = .ok () ↔ (Op.sync (transaction id)).struck faults = none)) := by
  obtain ⟨temp, htempEq, htemp, hne⟩ := temporary_eq host (transaction id) name (host.uuid s.drawn)
  rw [writeOps, htempEq, dirname_transaction hname']
  obtain ⟨hmkdirStruck, hmkdir⟩ := run_ensureDirectory faults h.leads
  have hwrite : ∀ r s', (Prog.handle
      (do
        Prog.op (S := lang) (.create (transaction id ++ [temp]) content)
        Prog.op (S := lang) (.rename (transaction id ++ [temp]) (transaction id ++ [name]))
        syncDirectory (transaction id))
      fun cause => do
        let _ ← (Prog.op (S := lang) (.rm (transaction id ++ [temp]))).attempt
        Prog.fail cause).run (Op.stepWith faults) { s with drawn := s.drawn + 1 } = some (r, s') →
      (Op.mkdir (transaction id)).struck faults = none →
      (write host (transaction id ++ [name]) content).run (Op.stepWith faults) s = some (r, s') := by
    intro r s' hrun hfree
    unfold write
    rw [dirname_transaction hname']
    refine (Prog.run_bind_ok (hmkdir hfree) _).trans ?_
    rw [← htempEq] at hrun
    exact hrun
  have habsent : ({ s with drawn := s.drawn + 1 } : State).disk.lstat (transaction id ++ [temp]) = .error enoent := by
    rw [h.leads.lstat_name hne, h.complete temp htemp]
    rfl
  have hcreate : (Op.create (transaction id ++ [temp]) content).perform { s with drawn := s.drawn + 1 } =
      (.ok (), { s with drawn := s.drawn + 1, disk := s.disk.put (transaction id ++ [temp]) (.file content) }) :=
    Housed.create (s := { s with drawn := s.drawn + 1 }) h htemp
  obtain ⟨hrename, hread, hended, helse⟩ := h.rename htemp hne hname hname'
  cases hmk : (Op.mkdir (transaction id)).struck faults with
  | some e =>
    constructor
    · rintro -
      refine ⟨e, s, ?_, .refl s, h.leads⟩
      unfold write
      rw [dirname_transaction hname']
      exact Prog.run_bind_error (hmkdirStruck e hmk) _
    · intro hfree
      rw [(not_strikes_cons.1 hfree).1] at hmk
      cases hmk
  | none =>
    cases hcr : (Op.create (transaction id ++ [temp]) content).struck faults with
    | some e =>
      constructor
      · rintro -
        obtain ⟨s₀, hs₀⟩ : ∃ s₀ : State, s₀ = { s with drawn := s.drawn + 1 } := ⟨_, rfl⟩
        rw [← hs₀] at habsent hwrite
        obtain ⟨s', hrun, hs'⟩ := run_cleanup faults (s := s₀) (transaction id ++ [temp]) e
        have hsame : s' = s₀ := by
          rcases hs' with hs' | ⟨hok, -⟩
          · exact hs'
          · rw [habsent] at hok
            cases hok
        rw [hsame] at hrun
        have hfails := run_op_struck (s := s₀) (.create (transaction id ++ [temp]) content) trivial hcr
        refine ⟨e, s₀, hwrite _ _ ((Prog.run_handle_error (Prog.run_bind_error hfails _)).trans hrun) hmk, ?_, ?_⟩
        · rw [hs₀]
          exact ⟨rfl, rfl, rfl, rfl, rfl, rfl⟩
        · rw [hs₀]
          exact h.leads
      · intro hfree
        rw [(not_strikes_cons.1 (not_strikes_cons.1 hfree).2).1] at hcr
        cases hcr
    | none =>
      have hcreated := (run_op_unstruck (o := .create (transaction id ++ [temp]) content)
        (s := { s with drawn := s.drawn + 1 }) trivial hcr).trans (congrArg some hcreate)
      cases hrn : (Op.rename (transaction id ++ [temp]) (transaction id ++ [name])).struck faults with
      | some e =>
        constructor
        · rintro -
          obtain ⟨s', hrun, hs'⟩ := run_cleanup faults
            (s := { s with drawn := s.drawn + 1, disk := s.disk.put (transaction id ++ [temp]) (.file content) })
            (transaction id ++ [temp]) e
          obtain ⟨hbeside, hdir⟩ := begun_beside h (s.drawn + 1) rfl hs'
          refine ⟨e, s', hwrite _ _ ?_ hmk, hbeside, hdir⟩
          refine (Prog.run_handle_error ?_).trans hrun
          exact (Prog.run_bind_ok hcreated _).trans
            (Prog.run_bind_error (run_op_struck (.rename _ _) trivial hrn) _)
        · intro hfree
          rw [(not_strikes_cons.1 (not_strikes_cons.1 (not_strikes_cons.1 hfree).2).2).1] at hrn
          cases hrn
      | none =>
        refine ⟨fun hstrikes => ?_, fun _ => ?_⟩
        · exact (not_strikes_cons.2 ⟨hmk, not_strikes_cons.2 ⟨hcr, not_strikes_cons.2 ⟨hrn, not_strikes_nil⟩⟩⟩ hstrikes).elim
        obtain ⟨s₁, hs₁⟩ : ∃ s₁ : State, s₁ =
          { s with drawn := s.drawn + 1, disk := s.disk.put (transaction id ++ [temp]) (.file content) } := ⟨_, rfl⟩
        obtain ⟨ended, hendedEq⟩ : ∃ d, d = ((s.disk.put (transaction id ++ [temp]) (.file content)).keep
          fun p => p != transaction id ++ [temp]).put (transaction id ++ [name]) (.file content) := ⟨_, rfl⟩
        rw [← hendedEq] at hrename hended helse
        have hrenamed : (Op.rename (transaction id ++ [temp]) (transaction id ++ [name])).perform s₁ = (.ok (),
            { s₁ with disk := ended, visible := s.visible ++
              ((intentOf (transaction id ++ [name])).map fun i => (i, content)).toList }) := by
          show s₁.rename _ _ = _
          rw [hs₁, State.rename]
          simp only [hrename, hread]
          cases intentOf (transaction id ++ [name]) with
          | none =>
            simp
            rfl
          | some id' =>
            simp
            rfl
        obtain ⟨s₂, hs₂⟩ : ∃ s₂ : State, s₂ = { s₁ with disk := ended, visible := s.visible ++
              ((intentOf (transaction id ++ [name])).map fun i => (i, content)).toList } := ⟨_, rfl⟩
        rw [← hs₂] at hrenamed
        rw [← hs₁] at hcreated
        have hwrote : Wrote id (transaction id ++ [name]) content s s₂ := by
          rw [hs₂, hs₁]
          exact ⟨hended, rfl, ⟨helse, rfl, rfl, rfl, rfl, rfl⟩, rfl⟩
        have hmoved := (run_op_unstruck (o := .rename (transaction id ++ [temp]) (transaction id ++ [name]))
          (s := s₁) trivial hrn).trans (congrArg some hrenamed)
        cases hsy : (Op.sync (transaction id)).struck faults with
        | none =>
          have hsynced : (syncDirectory (transaction id)).run (Op.stepWith faults) s₂ = some (.ok (), s₂) := by
            refine (run_op_unstruck (o := .sync (transaction id)) trivial hsy).trans ?_
            rw [Op.perform, Disk.sync, hwrote.housed.leads.lstat]
            rfl
          refine ⟨.ok (), s₂, hwrite _ _ ?_ hmk, hwrote, by simp⟩
          exact Prog.run_handle_ok ((Prog.run_bind_ok hcreated _).trans ((Prog.run_bind_ok hmoved _).trans hsynced))
        | some e =>
          obtain ⟨s', hrun, hs'⟩ := run_cleanup faults (s := s₂) (transaction id ++ [temp]) e
          have hgone : s₂.disk.lstat (transaction id ++ [temp]) = .error enoent := by
            rw [hwrote.housed.leads.lstat_name hne, hwrote.housed.complete temp htemp]
            rfl
          have hsame : s' = s₂ := by
            rcases hs' with hs' | ⟨hok, -⟩
            · exact hs'
            · rw [hgone] at hok
              cases hok
          subst hsame
          refine ⟨.error e, s', hwrite _ _ ?_ hmk, hwrote, by simp⟩
          refine (Prog.run_handle_error ?_).trans hrun
          exact (Prog.run_bind_ok hcreated _).trans ((Prog.run_bind_ok hmoved _).trans
            (run_op_struck (.sync (transaction id)) trivial hsy))

end Write

/-! ### The payloads are staged -/

/-- What is done for the payloads of a transaction, from the `n`-th identifier on. -/
def stagingOps (host : Host) (id : String) : Nat → List (MutationRequest × Nat) → List Op
  | _, [] => []
  | n, (file, index) :: files =>
    match file.content with
    | some content => writeOps host (staged id index) content n ++ .sync (transaction id) :: stagingOps host id (n + 1) files
    | none => stagingOps host id n files

/-- How many payloads there are. -/
def payloads (files : List (MutationRequest × Nat)) : Nat := files.countP fun file => file.1.content.isSome

/-- The loop of `prepare`. -/
def stage (host : Host) (id : String) (files : List (MutationRequest × Nat)) : Prog lang Unit :=
  Prog.each files fun (file, index) =>
    match file.content with
    | some content => write host (staged id index) content
    | none => pure ()

theorem staged_name (index : Nat) : ¬IsTemporary s!"{index}.stage" ∧ s!"{index}.stage" ≠ "" ∧
    s!"{index}.stage" ≠ "intent.json" := by
  have hlast : (s!"{index}.stage").toList.getLast? = some 'e' := by
    show (toString index ++ ".stage").toList.getLast? = some 'e'
    rw [String.toList_append, List.getLast?_append]
    rfl
  refine ⟨?_, ?_, ?_⟩
  · rw [IsTemporary, hlast]
    decide
  · intro h
    rw [h] at hlast
    cases hlast
  · intro h
    rw [h] at hlast
    revert hlast
    decide

theorem intentOf_transaction {id name : String} :
    intentOf (transaction id ++ [name]) = if name = "intent.json" then some id else none := by
  show intentOf [".journal", "transactions", id, name] = _
  by_cases h : name = "intent.json"
  · subst h
    rfl
  · rw [if_neg h, intentOf]
    rintro other heq
    simp only [List.cons.injEq] at heq
    exact h heq.2.2.2.1

theorem Wrote.staged {index : Nat} {content : String} (h : Wrote id (staged id index) content s s') : Beside s s' := by
  have hvisible : s'.visible = s.visible := by
    have hv := h.visible
    rw [Engine.staged, intentOf_transaction, if_neg (staged_name index).2.2] at hv
    simpa using hv
  obtain ⟨hfiles, hevents, -, hqueue, hready, hhealthy⟩ := h.beside
  exact ⟨hfiles, hevents, hvisible, hqueue, hready, hhealthy⟩

theorem run_stage (host : Host) (faults : Faults) (files : List (MutationRequest × Nat)) (h : Housed s.disk id) :
    (Strikes faults (stagingOps host id s.drawn files) → ∃ e s',
      (stage host id files).run (Op.stepWith faults) s = some (.error e, s') ∧
      Beside s s' ∧ s'.disk.Leads (transaction id)) ∧
    (¬Strikes faults (stagingOps host id s.drawn files) → ∃ s',
      (stage host id files).run (Op.stepWith faults) s = some (.ok (), s') ∧
      Beside s s' ∧ Housed s'.disk id ∧ s'.drawn = s.drawn + payloads files) := by
  induction files generalizing s with
  | nil =>
    constructor
    · exact fun hstrikes => (not_strikes_nil hstrikes).elim
    · exact fun _ => ⟨s, rfl, .refl s, h, rfl⟩
  | cons entry files ih =>
    obtain ⟨file, index⟩ := entry
    cases hcontent : file.content with
    | none =>
      have hops : stagingOps host id s.drawn ((file, index) :: files) = stagingOps host id s.drawn files := by
        rw [stagingOps, hcontent]
      have hcount : payloads ((file, index) :: files) = payloads files := by
        simp [payloads, hcontent]
      have hstage : stage host id ((file, index) :: files) = stage host id files := by
        rw [stage, Prog.each]
        simp only [hcontent]
        rfl
      rw [hops, hcount, hstage]
      exact ih h
    | some content =>
      have hops : stagingOps host id s.drawn ((file, index) :: files) =
          writeOps host (staged id index) content s.drawn ++
            .sync (transaction id) :: stagingOps host id (s.drawn + 1) files := by
        rw [stagingOps, hcontent]
      have hcount : payloads ((file, index) :: files) = payloads files + 1 := by
        simp [payloads, hcontent]
      have hstage : stage host id ((file, index) :: files) =
          (write host (staged id index) content >>= fun _ => stage host id files) := by
        rw [stage, Prog.each]
        simp only [hcontent]
        rfl
      obtain ⟨hname, hname', -⟩ := staged_name index
      obtain ⟨hstruck, hfree⟩ := run_write host faults content h hname hname'
      rw [hops, hcount, hstage]
      by_cases hwritten : Strikes faults (writeOps host (staged id index) content s.drawn)
      · refine ⟨fun _ => ?_, fun hnone => ((not_strikes_append.1 hnone).1 hwritten).elim⟩
        obtain ⟨e, s', hrun, hrest⟩ := hstruck hwritten
        exact ⟨e, s', Prog.run_bind_error hrun _, hrest⟩
      · obtain ⟨r, s₁, hrun, hwrote, hsync⟩ := hfree hwritten
        have hbeside := hwrote.staged
        cases hsy : (Op.sync (transaction id)).struck faults with
        | some e =>
          have herror : ∃ e, r = .error e := by
            cases r with
            | error e => exact ⟨e, rfl⟩
            | ok u =>
              rw [hsync.1 rfl] at hsy
              cases hsy
          obtain ⟨e, rfl⟩ := herror
          refine ⟨fun _ => ⟨e, s₁, Prog.run_bind_error hrun _, hbeside, hwrote.housed.leads⟩, ?_⟩
          intro hnone
          rw [(not_strikes_cons.1 (not_strikes_append.1 hnone).2).1] at hsy
          cases hsy
        | none =>
          obtain rfl := hsync.2 hsy
          obtain ⟨hstruck', hfree'⟩ := ih hwrote.housed
          rw [hwrote.drawn] at hstruck' hfree'
          constructor
          · intro hstrikes
            have hrest : Strikes faults (stagingOps host id (s.drawn + 1) files) := by
              by_contra hnone
              exact not_strikes_append.2 ⟨hwritten, not_strikes_cons.2 ⟨hsy, hnone⟩⟩ hstrikes
            obtain ⟨e, s', hrun', hbeside', hdir⟩ := hstruck' hrest
            exact ⟨e, s', (Prog.run_bind_ok hrun _).trans hrun', hbeside.trans hbeside', hdir⟩
          · intro hnone
            obtain ⟨s', hrun', hbeside', hhoused, hdrawn⟩ :=
              hfree' (not_strikes_cons.1 (not_strikes_append.1 hnone).2).2
            exact ⟨s', (Prog.run_bind_ok hrun _).trans hrun', hbeside.trans hbeside', hhoused, by omega⟩

/-! ### The directory comes and goes -/

/-- Nothing is at the place of a transaction, or below it. -/
def Vacant (d : Disk) (id : String) : Prop := ∀ rest, d.at_ (transaction id ++ rest) = none

theorem proper_transaction (hid : ProperName id) : ∀ name ∈ transaction id, ProperName name := by
  intro name hname
  simp only [transaction, directory, List.cons_append, List.nil_append, List.mem_cons, List.not_mem_nil, or_false] at hname
  rcases hname with rfl | rfl | rfl
  · exact ⟨by decide, by decide⟩
  · exact ⟨by decide, by decide⟩
  · exact hid

/-- The directory of a transaction is created. -/
theorem housed_of_mkdir {d d' : Disk} {first : Option Place} (hid : ProperName id) (hvacant : Vacant d id)
    (hmkdir : d.mkdir (transaction id) = (.ok first, d')) :
    Housed d' id ∧ d'.elsewhere ".journal" = d.elsewhere ".journal" := by
  have hproper := proper_transaction hid
  have hsteps : ∀ p, p ∈ Disk.steps (transaction id) ↔ p ≠ [] ∧ p <+: transaction id := by
    intro p
    rw [Disk.steps, base_of_proper hproper]
    show p ∈ [[".journal"], [".journal", "transactions"], [".journal", "transactions", id]] ↔ _
    rw [← List.mem_inits]
    show _ ↔ p ≠ [] ∧ p ∈ [[], [".journal"], [".journal", "transactions"], [".journal", "transactions", id]]
    simp only [List.mem_cons, List.not_mem_nil, or_false]
    constructor
    · rintro (rfl | rfl | rfl) <;> simp
    · rintro ⟨hne, rfl | rfl | rfl | rfl⟩ <;> simp_all
  rw [Disk.mkdir] at hmkdir
  split at hmkdir
  · cases (Prod.mk.inj hmkdir).1
  · rename_i hnone
    obtain ⟨-, rfl⟩ := Prod.mk.inj hmkdir
    rw [List.find?_eq_none] at hnone
    have hroot : [] ∉ d.missing (transaction id) := by
      intro hmem
      exact ((hsteps []).1 (List.mem_filter.1 hmem).1).1 rfl
    have hat : ∀ p, (d.mkdirs (d.missing (transaction id))).at_ p =
        if p ∈ d.missing (transaction id) then some .dir else d.at_ p := fun p => Disk.at_mkdirs hroot
    have hbelow : ∀ name, transaction id ++ [name] ∉ d.missing (transaction id) := by
      intro name hmem
      exact ne_of_way ((hsteps _).1 (List.mem_filter.1 hmem).1).2 rfl
    have hfile : ∀ name, (d.mkdirs (d.missing (transaction id))).at_ (transaction id ++ [name]) = none := by
      intro name
      rw [hat, if_neg (hbelow name)]
      exact hvacant [name]
    refine ⟨⟨⟨hproper, fun p hp => ?_⟩, fun name => ?_, fun name _ => hfile name⟩, ?_⟩
    · rw [hat]
      by_cases hp' : p = []
      · subst hp'
        rw [if_neg hroot, Disk.at_root]
      · have hstep := (hsteps p).2 ⟨hp', hp⟩
        split
        · rfl
        · rename_i hthere
          have hsome : d.at_ p ≠ none := by
            intro habsent
            exact hthere (List.mem_filter.2 ⟨hstep, by simp [habsent]⟩)
          have := hnone p hstep
          simpa [hsome] using this
    · rw [hfile]
      simp
    · apply Disk.elsewhere_mkdirs
      intro p hp
      obtain ⟨hne, hway⟩ := (hsteps p).1 (List.mem_filter.1 hp).1
      cases p with
      | nil => exact (hne rfl).elim
      | cons first rest =>
        obtain ⟨tail, htail⟩ := hway
        rw [List.cons_append] at htail
        rw [(List.cons.inj htail).1]
        rfl

/-- The directory of a transaction is removed, unless that fails. -/
theorem run_complete (faults : Faults) (hleads : s.disk.Leads (transaction id)) :
    ∃ r s', (complete id).run (Op.stepWith faults) s = some (r, s') ∧ Beside s s' ∧
      (((Op.rmAll (transaction id)).struck faults).isSome = true → (∃ e, r = .error e) ∧
        s'.disk.Leads (transaction id)) ∧
      ((Op.rmAll (transaction id)).struck faults = none → Vacant s'.disk id) := by
  cases hstruck : (Op.rmAll (transaction id)).struck faults with
  | some e =>
    exact ⟨.error e, s, Prog.run_bind_error (run_op_struck (.rmAll _) trivial hstruck) _, .refl s,
      fun _ => ⟨⟨e, rfl⟩, hleads⟩, by simp⟩
  | none =>
    obtain ⟨s₁, hs₁⟩ : ∃ s₁ : State, s₁ =
        { s with disk := s.disk.keep fun p => !(transaction id).isPrefixOf p } := ⟨_, rfl⟩
    have hperform : (Op.rmAll (transaction id)).perform s = (.ok (), s₁) := by
      rw [Op.perform, Disk.rmAll, hleads.lstat, hs₁]
      rfl
    have hremoved := (run_op_unstruck (o := .rmAll (transaction id)) (s := s) trivial hstruck).trans
      (congrArg some hperform)
    have hvacant : Vacant s₁.disk id := by
      intro rest
      rw [hs₁]
      show (s.disk.keep _).at_ _ = none
      rw [Disk.at_keep (by simp [transaction, directory]), if_neg]
      simp
    have hbeside : Beside s s₁ := by
      rw [hs₁]
      refine ⟨Disk.elsewhere_keep fun p hp => ?_, rfl, rfl, rfl, rfl, rfl⟩
      rw [Bool.not_eq_false', List.isPrefixOf_iff_prefix] at hp
      obtain ⟨rest, rfl⟩ := hp
      exact head_transaction id rest
    have hsync : ∃ r, (syncDirectory directory).run (Op.stepWith faults) s₁ = some (r, s₁) := by
      cases hsy : (Op.sync directory).struck faults with
      | some e => exact ⟨_, run_op_struck (.sync directory) trivial hsy⟩
      | none => exact ⟨_, run_op_unstruck (o := .sync directory) trivial hsy⟩
    obtain ⟨r, hsync⟩ := hsync
    exact ⟨r, s₁, (Prog.run_bind_ok hremoved _).trans hsync, hbeside, by simp, fun _ => hvacant⟩

/-! ### `prepare` -/

/-- The directory of the next transaction is created. -/
def Made (faults : Faults) (d : Disk) (id : String) : Prop :=
  (Op.mkdir (transaction id)).struck faults = none ∧ (d.mkdir (transaction id)).1.isOk = true

/-- The links to the directory are made durable. -/
def linkOps : List Op := [.sync [], .sync [".journal"], .sync directory]

/-- What a call of `prepare` comes to. -/
structure Prepares (host : Host) (faults : Faults) (files : List MutationRequest) (s : State) (r : Except Error Prepared)
    (s' : State) : Prop where
  beside : Beside s s'
  refused : ¬Made faults s.disk (host.uuid s.drawn) → (∃ e, r = .error e) ∧ Vacant s'.disk (host.uuid s.drawn)
  unlinked : Made faults s.disk (host.uuid s.drawn) → Strikes faults linkOps →
    (∃ e, r = .error e) ∧ s'.disk.Leads (transaction (host.uuid s.drawn))
  unstaged : Made faults s.disk (host.uuid s.drawn) → ¬Strikes faults linkOps →
    Strikes faults (stagingOps host (host.uuid s.drawn) (s.drawn + 1) files.zipIdx) → (∃ e, r = .error e) ∧
      (((Op.rmAll (transaction (host.uuid s.drawn))).struck faults).isSome = true →
        s'.disk.Leads (transaction (host.uuid s.drawn))) ∧
      ((Op.rmAll (transaction (host.uuid s.drawn))).struck faults = none → Vacant s'.disk (host.uuid s.drawn))
  prepared : Made faults s.disk (host.uuid s.drawn) → ¬Strikes faults linkOps →
    ¬Strikes faults (stagingOps host (host.uuid s.drawn) (s.drawn + 1) files.zipIdx) →
    r = .ok ⟨host.uuid s.drawn, files.map (mutationOf host)⟩ ∧ Housed s'.disk (host.uuid s.drawn) ∧
      s'.drawn = s.drawn + 1 + payloads files.zipIdx

/-- The links that are there are made durable, unless that is struck. -/
theorem run_links (faults : Faults) (hleads : s.disk.Leads (transaction id)) {α : Type} (g : Unit → Prog lang α) :
    (Strikes faults linkOps → ∃ e, (do
      syncDirectory []
      syncDirectory [".journal"]
      syncDirectory directory
      g () : Prog lang α).run (Op.stepWith faults) s = some (.error e, s)) ∧
    (¬Strikes faults linkOps → (do
      syncDirectory []
      syncDirectory [".journal"]
      syncDirectory directory
      g () : Prog lang α).run (Op.stepWith faults) s = (g ()).run (Op.stepWith faults) s) := by
  have hsync : ∀ p, p <+: transaction id →
      (∀ e, (Op.sync p).struck faults = some e →
        (syncDirectory p).run (Op.stepWith faults) s = some (.error e, s)) ∧
      ((Op.sync p).struck faults = none → (syncDirectory p).run (Op.stepWith faults) s = some (.ok (), s)) := by
    intro p hp
    refine ⟨fun e he => run_op_struck (.sync p) trivial he, fun hfree => ?_⟩
    refine (run_op_unstruck (o := .sync p) trivial hfree).trans ?_
    have hway : s.disk.Leads p :=
      ⟨fun name hname => hleads.1 name (hp.subset hname), fun q hq => hleads.2 q (hq.trans hp)⟩
    rw [Op.perform, Disk.sync, hway.lstat]
    rfl
  obtain ⟨hrootStruck, hroot⟩ := hsync [] List.nil_prefix
  obtain ⟨hjournalStruck, hjournal⟩ := hsync [".journal"] ⟨["transactions", id], rfl⟩
  obtain ⟨hdirectoryStruck, hdirectory⟩ := hsync directory ⟨[id], rfl⟩
  cases h₁ : (Op.sync []).struck faults with
  | some e =>
    refine ⟨fun _ => ⟨e, Prog.run_bind_error (hrootStruck e h₁) _⟩, fun hnone => ?_⟩
    rw [(not_strikes_cons.1 hnone).1] at h₁
    cases h₁
  | none =>
    cases h₂ : (Op.sync [".journal"]).struck faults with
    | some e =>
      refine ⟨fun _ => ⟨e, (Prog.run_bind_ok (hroot h₁) _).trans (Prog.run_bind_error (hjournalStruck e h₂) _)⟩,
        fun hnone => ?_⟩
      rw [(not_strikes_cons.1 (not_strikes_cons.1 hnone).2).1] at h₂
      cases h₂
    | none =>
      cases h₃ : (Op.sync directory).struck faults with
      | some e =>
        refine ⟨fun _ => ⟨e, (Prog.run_bind_ok (hroot h₁) _).trans ((Prog.run_bind_ok (hjournal h₂) _).trans
          (Prog.run_bind_error (hdirectoryStruck e h₃) _))⟩, fun hnone => ?_⟩
        rw [(not_strikes_cons.1 (not_strikes_cons.1 (not_strikes_cons.1 hnone).2).2).1] at h₃
        cases h₃
      | none =>
        refine ⟨fun hstrikes => ?_, fun _ => ?_⟩
        · exact (not_strikes_cons.2 ⟨h₁, not_strikes_cons.2 ⟨h₂, not_strikes_cons.2 ⟨h₃, not_strikes_nil⟩⟩⟩ hstrikes).elim
        · exact (Prog.run_bind_ok (hroot h₁) _).trans ((Prog.run_bind_ok (hjournal h₂) _).trans
            (Prog.run_bind_ok (hdirectory h₃) _))

theorem run_prepare (faults : Faults) (files : List MutationRequest) (hid : ProperName (host.uuid s.drawn))
    (hvacant : Vacant s.disk (host.uuid s.drawn)) : ∃ r s',
      (prepare host files).run (Op.stepWith faults) s = some (r, s') ∧ Prepares host faults files s r s' := by
  obtain ⟨id, hidEq⟩ : ∃ id, id = host.uuid s.drawn := ⟨_, rfl⟩
  rw [← hidEq] at hid hvacant
  obtain ⟨s₀, hs₀⟩ : ∃ s₀ : State, s₀ = { s with drawn := s.drawn + 1 } := ⟨_, rfl⟩
  have hbegun : Beside s s₀ := by
    rw [hs₀]
    exact ⟨rfl, rfl, rfl, rfl, rfl, rfl⟩
  have hvacant₀ : Vacant s₀.disk id := by rwa [hs₀]
  have hstart : ∀ r s', ((Prog.op (S := lang) (.mkdir (transaction id))) >>= fun _ => do
      syncDirectory []
      syncDirectory [".journal"]
      syncDirectory directory
      Prog.handle
        (do
          stage host id files.zipIdx
          pure (⟨id, files.map (mutationOf host)⟩ : Prepared))
        fun cause => do
          complete id
          Prog.fail cause).run (Op.stepWith faults) s₀ = some (r, s') →
      (prepare host files).run (Op.stepWith faults) s = some (r, s') := by
    intro r s' hrun
    rw [hidEq, hs₀] at hrun
    exact hrun
  have hmade : (Op.mkdir (transaction id)).struck faults ≠ none ∨
      (s.disk.mkdir (transaction id)).1.isOk = false → ¬Made faults s.disk id := by
    rintro (hne | herror) ⟨hfree, hok⟩
    · exact hne hfree
    · rw [herror] at hok
      cases hok
  have hdisk₀ : s₀.disk = s.disk := by rw [hs₀]
  cases hmk : (Op.mkdir (transaction id)).struck faults with
  | some e =>
    have hnot := hmade (.inl (by simp [hmk]))
    subst hidEq
    refine ⟨.error e, s₀, hstart _ _ (Prog.run_bind_error (run_op_struck (.mkdir _) trivial hmk) _), hbegun,
      fun _ => ⟨⟨e, rfl⟩, hvacant₀⟩, fun h => (hnot h).elim, fun h => (hnot h).elim, fun h => (hnot h).elim⟩
  | none =>
    cases hm : s₀.disk.mkdir (transaction id) with
    | mk result d =>
      have hperform : (Op.mkdir (transaction id)).perform s₀ = (result, { s₀ with disk := d }) := by
        rw [Op.perform, hm]
        rfl
      have hmkdir := (run_op_unstruck (o := .mkdir (transaction id)) (s := s₀) trivial hmk).trans
        (congrArg some hperform)
      cases result with
      | error e =>
        have hsame : d = s₀.disk := by
          rw [Disk.mkdir] at hm
          split at hm
          · exact (Prod.mk.inj hm).2.symm
          · cases (Prod.mk.inj hm).1
        subst hsame
        have hnot := hmade (.inr (by rw [← hdisk₀, hm]; rfl))
        subst hidEq
        exact ⟨.error e, s₀, hstart _ _ (Prog.run_bind_error hmkdir _), hbegun,
          fun _ => ⟨⟨e, rfl⟩, hvacant₀⟩, fun h => (hnot h).elim, fun h => (hnot h).elim, fun h => (hnot h).elim⟩
      | ok first =>
        obtain ⟨s₁, hs₁⟩ : ∃ s₁ : State, s₁ = { s₀ with disk := d } := ⟨_, rfl⟩
        rw [← hs₁] at hmkdir
        obtain ⟨hhoused, helse⟩ := housed_of_mkdir hid hvacant₀ hm
        have hhoused₁ : Housed s₁.disk id := by rwa [hs₁]
        have hbeside₁ : Beside s s₁ := by
          refine hbegun.trans ?_
          rw [hs₁]
          exact ⟨helse, rfl, rfl, rfl, rfl, rfl⟩
        have hdrawn₁ : s₁.drawn = s.drawn + 1 := by rw [hs₁, hs₀]
        have hyes : Made faults s.disk id := ⟨hmk, by rw [← hdisk₀, hm]; rfl⟩
        obtain ⟨hunlinked, hlinked⟩ := run_links faults hhoused₁.leads (fun _ => Prog.handle
          (do
            stage host id files.zipIdx
            pure (⟨id, files.map (mutationOf host)⟩ : Prepared))
          fun cause => do
            complete id
            Prog.fail cause)
        by_cases hlinks : Strikes faults linkOps
        · obtain ⟨e, hrun⟩ := hunlinked hlinks
          subst hidEq
          exact ⟨.error e, s₁, hstart _ _ ((Prog.run_bind_ok hmkdir _).trans hrun), hbeside₁,
            fun h => (h hyes).elim, fun _ _ => ⟨⟨e, rfl⟩, hhoused₁.leads⟩, fun _ h => (h hlinks).elim,
            fun _ h => (h hlinks).elim⟩
        · have hrest := hlinked hlinks
          obtain ⟨hstruck, hfree⟩ := run_stage host faults files.zipIdx hhoused₁
          rw [hdrawn₁] at hstruck hfree
          by_cases hstaging : Strikes faults (stagingOps host id (s.drawn + 1) files.zipIdx)
          · obtain ⟨cause, s₂, hrun, hbeside₂, hleads₂⟩ := hstruck hstaging
            obtain ⟨r, s₃, hcomplete, hbeside₃, hkept, hgone⟩ := run_complete faults hleads₂
            have hthrows : ∃ e, (do
                complete id
                Prog.fail cause : Prog lang Prepared).run (Op.stepWith faults) s₂ = some (.error e, s₃) := by
              cases r with
              | ok u => exact ⟨cause, (Prog.run_bind_ok hcomplete _).trans rfl⟩
              | error e => exact ⟨e, Prog.run_bind_error hcomplete _⟩
            obtain ⟨e, hthrows⟩ := hthrows
            have hall := hrest.trans ((Prog.run_handle_error (Prog.run_bind_error hrun _)).trans hthrows)
            subst hidEq
            exact ⟨.error e, s₃, hstart _ _ ((Prog.run_bind_ok hmkdir _).trans hall),
              (hbeside₁.trans hbeside₂).trans hbeside₃, fun h => (h hyes).elim, fun _ h => (hlinks h).elim,
              fun _ _ _ => ⟨⟨e, rfl⟩, fun h => (hkept h).2, hgone⟩, fun _ _ h => (h hstaging).elim⟩
          · obtain ⟨s₂, hrun, hbeside₂, hhoused₂, hdrawn₂⟩ := hfree hstaging
            have hall := hrest.trans (Prog.run_handle_ok ((Prog.run_bind_ok hrun _).trans rfl))
            subst hidEq
            exact ⟨_, s₂, hstart _ _ ((Prog.run_bind_ok hmkdir _).trans hall), hbeside₁.trans hbeside₂,
              fun h => (h hyes).elim, fun _ h => (hlinks h).elim, fun _ _ h => (hstaging h).elim,
              fun _ _ _ => ⟨rfl, hhoused₂, hdrawn₂⟩⟩

end ConfigRegistry.Engine
