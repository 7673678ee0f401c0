import ConfigRegistry.Engine.Staging

/-!
# What follows the staging

The preconditions that `writeMany` of `src/store/data-layer.ts` reads under the publication lock, the conflicts
that it finds there, and the recording of an intent.
-/

namespace ConfigRegistry.Engine

open Js Async Fs Store

variable {faults : Faults} {host : Host} {s s' : State} {id : String}

/-! ### What is checked once the payloads are staged -/

/-- The directory does not hold the documents that it should. -/
def collectionDiffers (check : CollectionPrecondition) : Prog lang Bool := do
  let names ← documentNames check.path
  pure (decide (names ≠ sortTexts check.files))

/-- The file is not as it was read. -/
def readDiffers (host : Host) (check : ReadPrecondition) : Prog lang Bool := do
  let source ← readUnlocked check.path
  pure (decide (source.map host.contentHash ≠ check.expectedEtag))

/-- The first of some tests that comes out, or cannot be made. -/
def firstDiffers {α : Type} (faults : Faults) (d : Disk) (test : α → Prog lang Bool) : List α → Except Error Bool
  | [] => .ok false
  | a :: rest =>
    match observe faults d (test a) with
    | .ok false => firstDiffers faults d test rest
    | r => r

/-- What the preconditions of a call come to. -/
def verdict (host : Host) (faults : Faults) (d : Disk) (batch : Batch) : Except Error Bool :=
  match firstDiffers faults d collectionDiffers batch.collections with
  | .ok false => firstDiffers faults d (readDiffers host) batch.checks
  | r => r

section Checks

variable {α β : Type} {prepared : Option Prepared}

/-- One check: what is read, and a conflict where it fails. -/
def check (prepared : Option Prepared) (read : α → Prog lang β) (fails : α → β → Bool) (path : α → String)
    (actual : α → β → Option String) (a : α) : Prog lang (Option Result) := do
  let x ← read a
  if fails a x then do
    let r ← refuse prepared (path a) (actual a x)
    pure (some r)
  else pure none

theorem run_search (read : α → Prog lang β) (fails : α → β → Bool) (path : α → String)
    (actual : α → β → Option String) {test : α → Prog lang Bool}
    (htest : ∀ a, test a = read a >>= fun x => pure (fails a x)) (hreads : ∀ a, Reads (read a))
    {Q : Except Error Result → State → Prop}
    (hrefuse : ∀ path actual, ∃ r s', (refuse prepared path actual).run (Op.stepWith faults) s = some (r, s') ∧ Q r s')
    (xs : List α) :
    (∀ e, firstDiffers faults s.disk test xs = .error e →
      (Prog.search xs (check prepared read fails path actual)).run (Op.stepWith faults) s = some (.error e, s)) ∧
    (firstDiffers faults s.disk test xs = .ok false →
      (Prog.search xs (check prepared read fails path actual)).run (Op.stepWith faults) s = some (.ok none, s)) ∧
    (firstDiffers faults s.disk test xs = .ok true → ∃ r s',
      (Prog.search xs (check prepared read fails path actual)).run (Op.stepWith faults) s =
        some (r.map some, s') ∧ Q r s') := by
  induction xs with
  | nil => exact ⟨by simp [firstDiffers], fun _ => rfl, by simp [firstDiffers]⟩
  | cons a rest ih =>
    obtain ⟨iherror, ihfalse, ihtrue⟩ := ih
    have hread : (read a).run (Op.stepWith faults) s = some (observe faults s.disk (read a), s) :=
      run_of_reads (hreads a) s
    have hobserve : observe faults s.disk (read a >>= fun x => (pure (fails a x) : Prog lang Bool)) =
        observe faults s.disk (read a) >>= fun x => observe faults s.disk (pure (fails a x) : Prog lang Bool) :=
      observe_bind s.disk (read a) (fun x => (pure (fails a x) : Prog lang Bool)) (hreads a)
    rw [firstDiffers, htest, hobserve]
    cases hx : observe faults s.disk (read a) with
    | error e =>
      rw [hx] at hread
      have hfails : (Prog.search (a :: rest) (check prepared read fails path actual)).run (Op.stepWith faults) s =
          some (.error e, s) := Prog.run_bind_error (Prog.run_bind_error hread _) _
      refine ⟨fun e' he' => ?_, fun h => (by cases h), fun h => (by cases h)⟩
      obtain rfl : e = e' := Except.error.inj he'
      exact hfails
    | ok x =>
      rw [hx] at hread
      cases hf : fails a x with
      | false =>
        have hpass : (check prepared read fails path actual a).run (Op.stepWith faults) s = some (.ok none, s) := by
          refine (Prog.run_bind_ok hread _).trans ?_
          rw [hf]
          rfl
        have hgo : (Prog.search (a :: rest) (check prepared read fails path actual)).run (Op.stepWith faults) s =
            (Prog.search rest (check prepared read fails path actual)).run (Op.stepWith faults) s :=
          Prog.run_bind_ok hpass _
        rw [hgo]
        have hthis : (Except.ok x >>= fun x => observe faults s.disk (pure (fails a x) : Prog lang Bool)) = .ok false := by
          show observe faults s.disk (pure (fails a x) : Prog lang Bool) = .ok false
          rw [hf]
          rfl
        rw [hthis]
        exact ⟨iherror, ihfalse, ihtrue⟩
      | true =>
        have hthis : (Except.ok x >>= fun x => observe faults s.disk (pure (fails a x) : Prog lang Bool)) = .ok true := by
          show observe faults s.disk (pure (fails a x) : Prog lang Bool) = .ok true
          rw [hf]
          rfl
        rw [hthis]
        refine ⟨fun e he => (by cases he), fun h => (by cases h), fun _ => ?_⟩
        obtain ⟨r, s', hrun, hq⟩ := hrefuse (path a) (actual a x)
        refine ⟨r, s', ?_, hq⟩
        have hcheck : (check prepared read fails path actual a).run (Op.stepWith faults) s = some (r.map some, s') := by
          refine (Prog.run_bind_ok hread _).trans ?_
          rw [hf]
          cases r with
          | ok conflict => exact (Prog.run_bind_ok hrun _).trans rfl
          | error e => exact Prog.run_bind_error hrun _
        cases r with
        | ok conflict => exact (Prog.run_bind_ok hcheck _).trans rfl
        | error e => exact Prog.run_bind_error hcheck _

end Checks

theorem checkCollection_eq (prepared : Option Prepared) :
    checkCollection prepared = check prepared (fun c : CollectionPrecondition => documentNames c.path)
      (fun c names => decide (names ≠ sortTexts c.files)) (fun c => c.path) fun _ _ => none := by
  funext c
  unfold checkCollection check
  congr 1
  funext names
  by_cases h : names = sortTexts c.files <;> simp [h]

theorem checkRead_eq (prepared : Option Prepared) :
    checkRead host prepared = check prepared (fun c : ReadPrecondition => readUnlocked c.path)
      (fun c source => decide (source.map host.contentHash ≠ c.expectedEtag)) (fun c => c.path)
      fun _ source => source.map host.contentHash := by
  funext c
  unfold checkRead check
  congr 1
  funext source
  by_cases h : source.map host.contentHash = c.expectedEtag <;> simp [h]

theorem reads_bind_pure {α β : Type} {p : Prog lang α} {f : α → β} (h : Reads p) :
    Reads (p >>= fun a => pure (f a)) := h.bind fun _ => trivial

theorem reads_collectionDiffers (check : CollectionPrecondition) : Reads (collectionDiffers check) :=
  reads_bind_pure (reads_documentNames _)

theorem reads_readDiffers (check : ReadPrecondition) : Reads (readDiffers host check) :=
  reads_bind_pure (reads_readUnlocked _)

/-- What is read for a precondition does not depend on the journal. -/
theorem firstDiffers_congr {α : Type} {d d' : Disk} (h : d'.elsewhere ".journal" = d.elsewhere ".journal")
    {test : α → Prog lang Bool} (htest : ∀ a, Reads (test a)) (xs : List α) :
    firstDiffers faults d' test xs = firstDiffers faults d test xs := by
  induction xs with
  | nil => rfl
  | cons a rest ih =>
    rw [firstDiffers, firstDiffers, observe_congr h (htest a), ih]

theorem verdict_congr {d d' : Disk} (h : d'.elsewhere ".journal" = d.elsewhere ".journal") (batch : Batch) :
    verdict host faults d' batch = verdict host faults d batch := by
  rw [verdict, verdict, firstDiffers_congr h reads_collectionDiffers, firstDiffers_congr h reads_readDiffers]

/-- A refusal: a conflict, or what was thrown. -/
def IsRefusal (r : Except Error Result) : Prop := ∀ revision etags, r ≠ .ok (.written revision etags)

/-- What a call that goes no further leaves of its transaction. -/
structure GivesUp (faults : Faults) (id : String) (s : State) (r : Except Error Result) (s' : State) : Prop where
  refusal : IsRefusal r
  beside : Beside s s'
  kept : ((Op.rmAll (transaction id)).struck faults).isSome = true → s'.disk.Leads (transaction id)
  gone : (Op.rmAll (transaction id)).struck faults = none → Vacant s'.disk id

/-- The revision is read, and a conflict is the result. -/
theorem run_conflict (faults : Faults) (path : String) (actual : Option String) (s : State) : ∃ r,
    ((do
      let revision ← revisionUnlocked
      pure (.conflict path actual revision) : Prog lang Result)).run (Op.stepWith faults) s = some (r, s) ∧
    IsRefusal r := by
  have hread : revisionUnlocked.run (Op.stepWith faults) s = some (observe faults s.disk revisionUnlocked, s) :=
    run_of_reads reads_revisionUnlocked s
  cases hobserved : observe faults s.disk revisionUnlocked with
  | error e =>
    rw [hobserved] at hread
    exact ⟨.error e, Prog.run_bind_error hread _, by simp [IsRefusal]⟩
  | ok n =>
    rw [hobserved] at hread
    exact ⟨.ok (.conflict path actual n), (Prog.run_bind_ok hread _).trans rfl, by simp [IsRefusal]⟩

theorem run_refuse (faults : Faults) (files : List Mutation) (hleads : s.disk.Leads (transaction id)) (path : String)
    (actual : Option String) : ∃ r s',
      (refuse (some ⟨id, files⟩) path actual).run (Op.stepWith faults) s = some (r, s') ∧ GivesUp faults id s r s' := by
  obtain ⟨r, s', hcomplete, hbeside, hkept, hgone⟩ := run_complete faults hleads
  cases r with
  | error e =>
    exact ⟨.error e, s', Prog.run_bind_error hcomplete _, by simp [IsRefusal], hbeside, fun h => (hkept h).2, hgone⟩
  | ok u =>
    obtain ⟨r, hrun, hrefusal⟩ := run_conflict faults path actual s'
    exact ⟨r, s', (Prog.run_bind_ok hcomplete _).trans hrun, hrefusal, hbeside, fun h => (hkept h).2, hgone⟩

theorem run_refuse_none (path : String) (actual : Option String) : ∃ r s',
    (refuse none path actual).run (Op.stepWith faults) s = some (r, s') ∧ IsRefusal r ∧ s' = s := by
  obtain ⟨r, hrun, hrefusal⟩ := run_conflict faults path actual s
  exact ⟨r, s, hrun, hrefusal, rfl⟩

/-! ### The intent is recorded -/

/-- The programs of the engine leave the intents that have become visible where they are, but for what an
operation makes visible. -/
abbrev Grows {α : Type} (p : Prog lang α) : Prop :=
  p.Within (S := lang) (fun o : Op => o.waits = false) fun s s' => s'.visible = s.visible

theorem grows_of_reads {α : Type} {p : Prog lang α} (h : Reads p) : Grows p := by
  induction p with
  | done r => trivial
  | turn f k ih => exact (h.1 ⟨⟨[]⟩, fun _ => [], .absent, false, 0, [], [], []⟩).elim
  | await o k ih =>
    refine ⟨?_, fun r => ih r (h.2 r)⟩
    have hpublic := h.1
    cases o with
    | enter lock t => exact hpublic.elim
    | first => exact hpublic.elim
    | _ => rfl

theorem grows_op {o : Op} (h : o.waits = false) : Grows (Prog.op (S := lang) o) := .op h

theorem grows_readOptional (place : Place) : Grows (readOptional place) := by
  apply Prog.Within.bind (grows_op rfl).attempt
  intro r
  cases r with
  | ok text => trivial
  | error e =>
    show Grows (if e.isMissing then _ else _)
    split <;> trivial

theorem grows_ensureDirectory (place : Place) : Grows (ensureDirectory place) := by
  apply Prog.Within.bind (grows_op rfl)
  intro first
  cases first with
  | none => trivial
  | some first => exact .each fun p _ => grows_op rfl

theorem grows_write (place : Place) (content : String) : Grows (write host place content) := by
  apply Prog.Within.bind (grows_ensureDirectory _)
  intro _
  refine ⟨fun _ => rfl, fun s => ?_⟩
  apply Prog.Within.handle
  · exact .bind (grows_op rfl) fun _ => .bind (grows_op rfl) fun _ => grows_op rfl
  · intro e
    exact .bind (grows_op rfl).attempt fun _ => .fail e

theorem grows_checkPayload (id : String) (file : Mutation) (index : Nat) : Grows (checkPayload host id file index) := by
  apply Prog.Within.bind (grows_of_reads (reads_assertNoSymlinks _))
  intro _
  split
  · trivial
  · apply Prog.Within.bind (grows_readOptional _)
    intro target
    split
    · trivial
    · apply Prog.Within.bind (grows_readOptional _)
      intro payload
      split <;> trivial

theorem grows_applyFile (id : String) (file : Mutation) (index : Nat) : Grows (applyFile host id file index) := by
  apply Prog.Within.bind (grows_readOptional _)
  intro current
  split
  · trivial
  · split
    · exact .bind (grows_op rfl) fun _ => grows_op rfl
    · exact .bind (grows_ensureDirectory _) fun _ => .bind (grows_op rfl) fun _ =>
        .bind (grows_op rfl) fun _ => grows_op rfl

theorem grows_finish (host : Host) (id : String) (intent : Intent) : Grows (finish host id intent) := by
  apply Prog.Within.bind (grows_of_reads reads_revisionUnlocked)
  intro current
  split
  · trivial
  · apply Prog.Within.bind
    · exact .bind (.each fun f _ => grows_checkPayload id f.1 f.2) fun _ => .each fun f _ => grows_applyFile id f.1 f.2
    · intro _
      apply Prog.Within.bind
      · unfold recordRevision
        split
        · trivial
        · exact grows_write _ _
      · intro _
        apply Prog.Within.bind (.each fun file _ => grows_op rfl)
        intro _
        exact .bind (grows_op rfl) fun _ => grows_op rfl

/-- Nothing that is done makes an intent invisible. -/
theorem visible_of_stepWith {o : Op} {r : Except Error o.Res} (h : o.stepWith faults s = some (r, s')) :
    s.visible.length ≤ s'.visible.length := by
  unfold Op.stepWith at h
  split at h
  · split at h
    · obtain ⟨-, rfl⟩ := Prod.mk.inj (Option.some.inj h)
      exact Nat.le_refl _
    · have hs' : (o.perform s).2 = s' := congrArg Prod.snd (Option.some.inj h)
      rw [← hs']
      cases o with
      | rename source target =>
        show s.visible.length ≤ (s.rename source target).2.visible.length
        unfold State.rename
        split
        · simp
        · exact Nat.le_refl _
      | first =>
        show s.visible.length ≤ (Op.perform .first s).2.visible.length
        cases hready : s.ready <;> simp [Op.perform, hready]
      | _ => exact Nat.le_refl _
  · cases h

theorem ends_of_grows (faults : Faults) {α : Type} {p : Prog lang α} (h : Grows p) : ∃ r s',
    p.run (Op.stepWith faults) s = some (r, s') ∧ s.visible.length ≤ s'.visible.length := by
  have hstep : ∀ (o : Op) (s : State), o.waits = false → (Op.stepWith faults o s).isSome = true := by
    intro o s ho
    have hmay : o.may s := by
      cases o with
      | enter lock t => cases ho
      | first => cases ho
      | _ => trivial
    rw [Op.stepWith, if_pos hmay]
    split <;> rfl
  obtain ⟨r, s', hrun, -⟩ := Prog.Ends.of_within h hstep (s := s)
  refine ⟨r, s', hrun, ?_⟩
  exact Prog.run_within (P := fun s' : State => s.visible.length ≤ s'.visible.length) h
    (fun o s₁ r s₂ _ hs₁ hstep => Nat.le_trans hs₁ (visible_of_stepWith hstep))
    (fun s₁ s₂ hs₁ hvisible => by rw [hvisible]; exact hs₁) (Nat.le_refl _) hrun

/-- The intent of a transaction can be recorded: there is a revision for it, and nothing strikes. -/
def Recordable (host : Host) (faults : Faults) (d : Disk) (id : String) (files : List Mutation) (n : Nat) : Prop :=
  ∃ current, observe faults d revisionUnlocked = .ok current ∧ current + 1 ≤ maxSafeInteger ∧
    ¬Strikes faults (writeOps host (intentFile id) (host.encode ⟨current + 1, files⟩) n)

theorem recordable_congr {d d' : Disk} (h : d'.elsewhere ".journal" = d.elsewhere ".journal") {files : List Mutation}
    {n : Nat} : Recordable host faults d' id files n ↔ Recordable host faults d id files n := by
  rw [Recordable, Recordable, observe_congr h reads_revisionUnlocked]

theorem intent_name : ¬IsTemporary "intent.json" ∧ "intent.json" ≠ "" := by
  unfold IsTemporary
  decide

/-- The intent of a transaction has become visible, and the call does not tell that it was refused. -/
structure Recorded (s : State) (r : Except Error Result) (s' : State) : Prop where
  visible : s.visible.length < s'.visible.length
  written : ∀ result, r = .ok result → ∃ revision etags, result = .written revision etags

/-- The directory of a transaction that was not recorded is still there. -/
structure Stranded (id : String) (s : State) (r : Except Error Result) (s' : State) : Prop where
  refusal : IsRefusal r
  visible : s'.visible = s.visible
  leads : s'.disk.Leads (transaction id)

theorem isRefusal_error (e : Error) : IsRefusal (.error e) := by
  simp [IsRefusal]

/-- The last part of a transaction: either its intent becomes visible, or its directory stays. -/
theorem run_publish (host : Host) (faults : Faults) (files : List Mutation) (etags : List (String × String)) (h : Housed s.disk id) : ∃ r s',
    (publish host ⟨id, files⟩ etags).run (Op.stepWith faults) s = some (r, s') ∧
    (Recordable host faults s.disk id files s.drawn → Recorded s r s') ∧
    (¬Recordable host faults s.disk id files s.drawn → Stranded id s r s') := by
  have hread : revisionUnlocked.run (Op.stepWith faults) s = some (observe faults s.disk revisionUnlocked, s) :=
    run_of_reads reads_revisionUnlocked s
  cases hobserved : observe faults s.disk revisionUnlocked with
  | error e =>
    rw [hobserved] at hread
    refine ⟨.error e, s, Prog.run_bind_error hread _, ?_, fun _ => ⟨isRefusal_error e, rfl, h.leads⟩⟩
    rintro ⟨current, hcurrent, -⟩
    rw [hobserved] at hcurrent
    cases hcurrent
  | ok current =>
    rw [hobserved] at hread
    by_cases hlarge : current + 1 > maxSafeInteger
    · refine ⟨.error (.of "database revision exhausted"), s, ?_, ?_, fun _ => ⟨isRefusal_error _, rfl, h.leads⟩⟩
      · refine (Prog.run_bind_ok hread _).trans ?_
        rw [if_pos hlarge]
        rfl
      · rintro ⟨current', hcurrent, hsmall, -⟩
        rw [hobserved] at hcurrent
        obtain rfl := Except.ok.inj hcurrent
        omega
    · obtain ⟨hstruck, hfree⟩ := run_write host faults (host.encode ⟨current + 1, files⟩)
        h intent_name.1 intent_name.2
      have hgo : ∀ r s', (Prog.handle
            (do
              let intent ← recordIntent host ⟨id, files⟩ (current + 1)
              finish host id intent)
            (fun e => do
              Prog.modify (S := lang) fun s => { s with recoveryRequired := true }
              Prog.fail e)).run (Op.stepWith faults) s = some (r, s') →
          (publish host ⟨id, files⟩ etags).run (Op.stepWith faults) s =
            some (r.map fun _ => .written (current + 1) etags, s') := by
        intro r s' hrun
        refine (Prog.run_bind_ok hread _).trans ?_
        rw [if_neg hlarge]
        cases r with
        | error e => exact Prog.run_bind_error hrun _
        | ok u => exact (Prog.run_bind_ok hrun _).trans rfl
      have hrecordable : Recordable host faults s.disk id files s.drawn ↔
          ¬Strikes faults (writeOps host (intentFile id) (host.encode ⟨current + 1, files⟩) s.drawn) := by
        constructor
        · rintro ⟨current', hcurrent, -, hnone⟩
          rw [hobserved] at hcurrent
          obtain rfl := Except.ok.inj hcurrent
          exact hnone
        · exact fun hnone => ⟨current, hobserved, by omega, hnone⟩
      rw [hrecordable]
      by_cases hstrikes : Strikes faults (writeOps host (intentFile id) (host.encode ⟨current + 1, files⟩) s.drawn)
      · obtain ⟨e, s₁, hrun, hbeside, hleads⟩ := hstruck hstrikes
        have hrecord : (recordIntent host ⟨id, files⟩ (current + 1)).run (Op.stepWith faults) s =
            some (.error e, s₁) := Prog.run_bind_error hrun _
        have hall := hgo (.error e) { s₁ with recoveryRequired := true }
          ((Prog.run_handle_error (Prog.run_bind_error hrecord _)).trans rfl)
        exact ⟨_, _, hall, fun hnone => (hnone hstrikes).elim, fun _ => ⟨isRefusal_error e, hbeside.visible, hleads⟩⟩
      · obtain ⟨r, s₁, hrun, hwrote, -⟩ := hfree hstrikes
        have hvisible : s.visible.length < s₁.visible.length := by
          rw [hwrote.visible, intentOf_transaction, if_pos rfl]
          simp
        cases r with
        | error e =>
          have hrecord : (recordIntent host ⟨id, files⟩ (current + 1)).run (Op.stepWith faults) s =
              some (.error e, s₁) := Prog.run_bind_error hrun _
          have hall := hgo (.error e) { s₁ with recoveryRequired := true }
            ((Prog.run_handle_error (Prog.run_bind_error hrecord _)).trans rfl)
          exact ⟨_, _, hall, fun _ => ⟨hvisible, by simp [Except.map]⟩, fun hnot => (hnot hstrikes).elim⟩
        | ok u =>
          have hrecord : (recordIntent host ⟨id, files⟩ (current + 1)).run (Op.stepWith faults) s =
              some (.ok ⟨current + 1, files⟩, s₁) := (Prog.run_bind_ok hrun _).trans rfl
          obtain ⟨r, s₂, hfinish, hgrown⟩ := ends_of_grows faults (s := s₁)
            (grows_finish host id ⟨current + 1, files⟩)
          cases r with
          | ok u =>
            have hall := hgo (.ok u) s₂ (Prog.run_handle_ok ((Prog.run_bind_ok hrecord _).trans hfinish))
            exact ⟨_, _, hall, fun _ => ⟨by omega, by simp [Except.map]⟩, fun hnot => (hnot hstrikes).elim⟩
          | error e =>
            have hall := hgo (.error e) { s₂ with recoveryRequired := true }
              ((Prog.run_handle_error ((Prog.run_bind_ok hrecord _).trans hfinish)).trans rfl)
            exact ⟨_, _, hall, fun _ => ⟨Nat.lt_of_lt_of_le hvisible hgrown, by simp [Except.map]⟩, fun hnot => (hnot hstrikes).elim⟩

end ConfigRegistry.Engine
