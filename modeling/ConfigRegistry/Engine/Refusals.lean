import ConfigRegistry.Engine.Recording

/-!
# What a refused call leaves

The exits of `writeMany` of `src/store/data-layer.ts` before the intent of its transaction is recorded: what they
leave of the database, of its revision and events, and of the directory in which the payloads were staged.
-/

namespace ConfigRegistry.Engine

open Js Async Fs Store

variable {faults : Faults} {host : Host} {s s' : State} {id : String}

/-! ### `commit` -/

section Commit

variable {prepared : Option Prepared} {Q : Except Error Result → State → Prop}

theorem run_collections
    (hrefuse : ∀ path actual, ∃ r s', (refuse prepared path actual).run (Op.stepWith faults) s = some (r, s') ∧ Q r s')
    (xs : List CollectionPrecondition) :
    (∀ e, firstDiffers faults s.disk collectionDiffers xs = .error e →
      (Prog.search xs (checkCollection prepared)).run (Op.stepWith faults) s = some (.error e, s)) ∧
    (firstDiffers faults s.disk collectionDiffers xs = .ok false →
      (Prog.search xs (checkCollection prepared)).run (Op.stepWith faults) s = some (.ok none, s)) ∧
    (firstDiffers faults s.disk collectionDiffers xs = .ok true → ∃ r s',
      (Prog.search xs (checkCollection prepared)).run (Op.stepWith faults) s = some (r.map some, s') ∧ Q r s') := by
  have hsearch := run_search (fun c : CollectionPrecondition => documentNames c.path)
    (fun c names => decide (names ≠ sortTexts c.files)) (fun c => c.path) (fun _ _ => none)
    (fun c => (rfl : collectionDiffers c = _)) (fun c => reads_documentNames c.path) hrefuse xs
  rw [← checkCollection_eq] at hsearch
  exact hsearch

theorem run_reads (host : Host)
    (hrefuse : ∀ path actual, ∃ r s', (refuse prepared path actual).run (Op.stepWith faults) s = some (r, s') ∧ Q r s')
    (xs : List ReadPrecondition) :
    (∀ e, firstDiffers faults s.disk (readDiffers host) xs = .error e →
      (Prog.search xs (checkRead host prepared)).run (Op.stepWith faults) s = some (.error e, s)) ∧
    (firstDiffers faults s.disk (readDiffers host) xs = .ok false →
      (Prog.search xs (checkRead host prepared)).run (Op.stepWith faults) s = some (.ok none, s)) ∧
    (firstDiffers faults s.disk (readDiffers host) xs = .ok true → ∃ r s',
      (Prog.search xs (checkRead host prepared)).run (Op.stepWith faults) s = some (r.map some, s') ∧ Q r s') := by
  have hsearch := run_search (fun c : ReadPrecondition => readUnlocked c.path)
    (fun c source => decide (source.map host.contentHash ≠ c.expectedEtag)) (fun c => c.path)
    (fun _ source => source.map host.contentHash) (fun c => (rfl : readDiffers host c = _))
    (fun c => reads_readUnlocked c.path) hrefuse xs
  rw [← checkRead_eq] at hsearch
  exact hsearch

/-- What `commit` goes on with where its preconditions hold. -/
def settle (host : Host) (prepared : Option Prepared) (etags : List (String × String)) : Prog lang Result :=
  match prepared with
  | none => do
    let revision ← revisionUnlocked
    pure (.unchanged revision etags)
  | some prepared => publish host prepared etags

theorem run_commit (host : Host) (faults : Faults) (batch : Batch) (etags : List (String × String)) (hhealthy : s.recoveryRequired = false)
    (hrefuse : ∀ path actual, ∃ r s', (refuse prepared path actual).run (Op.stepWith faults) s = some (r, s') ∧ Q r s') :
    (∀ e, verdict host faults s.disk batch = .error e →
      (commit host batch prepared etags).run (Op.stepWith faults) s = some (.error e, s)) ∧
    (verdict host faults s.disk batch = .ok true → ∃ r s',
      (commit host batch prepared etags).run (Op.stepWith faults) s = some (r, s') ∧ Q r s') ∧
    (verdict host faults s.disk batch = .ok false →
      (commit host batch prepared etags).run (Op.stepWith faults) s =
        (settle host prepared etags).run (Op.stepWith faults) s) := by
  have hassert : assertHealthy.run (Op.stepWith faults) s = some (.ok (), s) := run_assertHealthy hhealthy
  obtain ⟨hcerror, hcfalse, hctrue⟩ := run_collections hrefuse batch.collections
  obtain ⟨hrerror, hrfalse, hrtrue⟩ := run_reads host hrefuse batch.checks
  rw [verdict]
  cases hcollections : firstDiffers faults s.disk collectionDiffers batch.collections with
  | error e =>
    refine ⟨fun e' he' => ?_, fun h => (by cases h), fun h => (by cases h)⟩
    obtain rfl : e = e' := Except.error.inj he'
    exact (Prog.run_bind_ok hassert _).trans (Prog.run_bind_error (hcerror e hcollections) _)
  | ok differs =>
    cases differs with
    | true =>
      refine ⟨fun e he => (by cases he), fun _ => ?_, fun h => (by cases h)⟩
      obtain ⟨r, s', hrun, hq⟩ := hctrue hcollections
      refine ⟨r, s', (Prog.run_bind_ok hassert _).trans ?_, hq⟩
      cases r with
      | ok conflict => exact (Prog.run_bind_ok hrun _).trans rfl
      | error e => exact Prog.run_bind_error hrun _
    | false =>
      have hpass := hcfalse hcollections
      cases hreads : firstDiffers faults s.disk (readDiffers host) batch.checks with
      | error e =>
        refine ⟨fun e' he' => ?_, fun h => (by cases h), fun h => (by cases h)⟩
        obtain rfl : e = e' := Except.error.inj he'
        exact (Prog.run_bind_ok hassert _).trans ((Prog.run_bind_ok hpass _).trans
          (Prog.run_bind_error (hrerror e hreads) _))
      | ok differs =>
        cases differs with
        | true =>
          refine ⟨fun e he => (by cases he), fun _ => ?_, fun h => (by cases h)⟩
          obtain ⟨r, s', hrun, hq⟩ := hrtrue hreads
          refine ⟨r, s', (Prog.run_bind_ok hassert _).trans ((Prog.run_bind_ok hpass _).trans ?_), hq⟩
          cases r with
          | ok conflict => exact (Prog.run_bind_ok hrun _).trans rfl
          | error e => exact Prog.run_bind_error hrun _
        | false =>
          refine ⟨fun e he => (by cases he), fun h => (by cases h), fun _ => ?_⟩
          refine (Prog.run_bind_ok hassert _).trans ((Prog.run_bind_ok hpass _).trans
            ((Prog.run_bind_ok (hrfalse hreads) _).trans ?_))
          unfold settle
          cases prepared <;> rfl

end Commit

/-! ### What is staged -/

/-- A file that is not as its request expects it. -/
def isStale (current : MutationRequest × Option String) : Bool := current.1.expectedEtag.any (· != current.2)

/-- The requests with the etags that their files have. -/
def currentOf (host : Host) (faults : Faults) (d : Disk) (requests : List Request) :
    Except Error (List (MutationRequest × Option String)) :=
  requests.mapM fun request => (observe faults d (readUnlocked request.path)).map fun source =>
    (request.toMutationRequest, source.map host.contentHash)

/-- What a call stages: nothing where it is refused before. -/
def changedOf (host : Host) (faults : Faults) (d : Disk) (batch : Batch) : Except Error (List MutationRequest) := do
  let errors ← validateAll batch.requests
  if errors ≠ [] then pure []
  else do
    let current ← currentOf host faults d batch.requests
    if current.any isStale then pure []
    else pure ((current.filter fun c => c.1.content.map host.contentHash != c.2).map Prod.fst)

/-- An engine that has recovered, and whose publication lock no call has. -/
structure Calm (s : State) : Prop where
  ready : s.ready = .settled (.ok ())
  queue : s.queue .publication = []
  healthy : s.recoveryRequired = false

variable {t : Nat} {batch : Batch}

theorem run_etag (host : Host) (faults : Faults) (hcalm : Calm s) {path : String} (hpath : isDatabasePath path = true) :
    (etag host t path).run (Op.stepWith faults) s =
      some ((observe faults s.disk (readUnlocked path)).map (·.map host.contentHash), s) := by
  have hread : (readUnlocked path).run (Op.stepWith faults) (s.enqueue .publication t) =
      some (observe faults s.disk (readUnlocked path), s.enqueue .publication t) :=
    run_of_reads (reads_readUnlocked path) (s.enqueue .publication t)
  have hpublished : (published host t (readUnlocked path)).run (Op.stepWith faults) s =
      some (observe faults s.disk (readUnlocked path), s) :=
    run_published hcalm.ready hcalm.queue hcalm.healthy hread
  have hplace : (lift (databasePath path)).run (Op.stepWith faults) s = some (.ok (placeOf path), s) := by
    rw [databasePath, if_pos hpath]
    rfl
  have hall : (read host t path).run (Op.stepWith faults) s = some (observe faults s.disk (readUnlocked path), s) :=
    (Prog.run_bind_ok hplace _).trans hpublished
  cases hobserved : observe faults s.disk (readUnlocked path) with
  | error e =>
    rw [hobserved] at hall
    exact Prog.run_bind_error hall _
  | ok source =>
    rw [hobserved] at hall
    exact (Prog.run_bind_ok hall _).trans rfl

theorem run_current (host : Host) (faults : Faults) (hcalm : Calm s) {requests : List Request} (hpaths : ∀ r ∈ requests, isDatabasePath r.path = true) :
    (Prog.collect requests fun request => do
      let actual ← etag host t request.path
      pure (request.toMutationRequest, actual)).run (Op.stepWith faults) s =
      some (currentOf host faults s.disk requests, s) := by
  suffices hcollect : (Prog.collect (requests.map id) fun request => do
      let actual ← etag host t request.path
      pure (request.toMutationRequest, actual)).run (Op.stepWith faults) s =
      some (currentOf host faults s.disk requests, s) by
    rwa [List.map_id] at hcollect
  apply run_collect
  intro request hrequest
  have hetag := run_etag host faults (t := t) hcalm (hpaths request hrequest)
  show ((etag host t request.path).bind _).run (Op.stepWith faults) s = _
  cases hobserved : observe faults s.disk (readUnlocked request.path) with
  | error e =>
    rw [hobserved] at hetag
    exact Prog.run_bind_error hetag _
  | ok source =>
    rw [hobserved] at hetag
    exact (Prog.run_bind_ok hetag _).trans rfl

theorem run_revision (host : Host) (faults : Faults) (hcalm : Calm s) :
    (revision host t).run (Op.stepWith faults) s = some (observe faults s.disk revisionUnlocked, s) :=
  run_published hcalm.ready hcalm.queue hcalm.healthy (run_of_reads reads_revisionUnlocked _)

/-! ### `writeMany` -/

/-- Nothing tells of a call that was refused. -/
structure Clean (id : String) (s : State) (r : Except Error Result) (s' : State) : Prop where
  refusal : IsRefusal r
  files : s'.disk.elsewhere ".journal" = s.disk.elsewhere ".journal"
  events : s'.events = s.events
  visible : s'.visible = s.visible
  vacant : Vacant s'.disk id

theorem Clean.of_same {r : Except Error Result} (hrefusal : IsRefusal r) (hvacant : Vacant s.disk id) : Clean id s r s :=
  ⟨hrefusal, rfl, rfl, rfl, hvacant⟩

/-- How the directory of a transaction that is not recorded comes to stay. -/
inductive Strands (host : Host) (faults : Faults) (d : Disk) (id : String) (n : Nat) (changed : List MutationRequest)
    (batch : Batch) : Prop
  /-- The links to it could not be made durable, which `prepare` does before its `try`. -/
  | unlinked (h : Strikes faults linkOps)
  /-- A payload could not be staged, and then the directory could not be removed. -/
  | unstaged (hlinks : ¬Strikes faults linkOps) (h : Strikes faults (stagingOps host id n changed.zipIdx))
      (hrm : ((Op.rmAll (transaction id)).struck faults).isSome = true)
  /-- A precondition could not be read. -/
  | unread (hlinks : ¬Strikes faults linkOps) (hstaging : ¬Strikes faults (stagingOps host id n changed.zipIdx))
      (e : Error) (h : verdict host faults d batch = .error e)
  /-- A precondition failed, and then the directory could not be removed. -/
  | unremoved (hlinks : ¬Strikes faults linkOps) (hstaging : ¬Strikes faults (stagingOps host id n changed.zipIdx))
      (h : verdict host faults d batch = .ok true)
      (hrm : ((Op.rmAll (transaction id)).struck faults).isSome = true)
  /-- The revision could not be read or is the last one, or the intent could not be written. -/
  | unrecorded (hlinks : ¬Strikes faults linkOps) (hstaging : ¬Strikes faults (stagingOps host id n changed.zipIdx))
      (h : verdict host faults d batch = .ok false)
      (hrecord : ¬Recordable host faults d id (changed.map (mutationOf host)) (n + payloads changed.zipIdx))

/-- What is given up leaves nothing, where the directory could be removed. -/
theorem GivesUp.cases {r : Except Error Result} (h : GivesUp faults id s r s') :
    (((Op.rmAll (transaction id)).struck faults).isSome = true → Stranded id s r s') ∧
    ((Op.rmAll (transaction id)).struck faults = none → Clean id s r s') :=
  ⟨fun hrm => ⟨h.refusal, h.beside.visible, h.kept hrm⟩,
    fun hrm => ⟨h.refusal, h.beside.files, h.beside.events, h.beside.visible, h.gone hrm⟩⟩

theorem struck_cases (faults : Faults) (o : Op) : (o.struck faults).isSome = true ∨ o.struck faults = none := by
  cases o.struck faults <;> simp

/-- What comes before leaves no more than the journal. -/
theorem Stranded.after {s₀ : State} {r : Except Error Result} (hbeside : Beside s₀ s) (h : Stranded id s r s') :
    Stranded id s₀ r s' :=
  ⟨h.refusal, h.visible.trans hbeside.visible, h.leads⟩

theorem Clean.after {s₀ : State} {r : Except Error Result} (hbeside : Beside s₀ s) (h : Clean id s r s') :
    Clean id s₀ r s' :=
  ⟨h.refusal, h.files.trans hbeside.files, h.events.trans hbeside.events, h.visible.trans hbeside.visible, h.vacant⟩

theorem Recorded.after {s₀ : State} {r : Except Error Result} (hbeside : Beside s₀ s) (h : Recorded s r s') :
    Recorded s₀ r s' := by
  refine ⟨?_, h.written⟩
  rw [← hbeside.visible]
  exact h.visible

/-- How the commit of what was staged ends. -/
structure Settles (host : Host) (faults : Faults) (batch : Batch) (id : String) (files : List Mutation) (s : State)
    (r : Except Error Result) (s' : State) : Prop where
  unread : ∀ e, verdict host faults s.disk batch = .error e → Stranded id s r s'
  unremoved : verdict host faults s.disk batch = .ok true → ((Op.rmAll (transaction id)).struck faults).isSome = true →
    Stranded id s r s'
  refused : verdict host faults s.disk batch = .ok true → (Op.rmAll (transaction id)).struck faults = none →
    Clean id s r s'
  recorded : verdict host faults s.disk batch = .ok false → Recordable host faults s.disk id files s.drawn →
    Recorded s r s'
  unrecorded : verdict host faults s.disk batch = .ok false → ¬Recordable host faults s.disk id files s.drawn →
    Stranded id s r s'

theorem run_settled (host : Host) (faults : Faults) (hcalm : Calm s) (h : Housed s.disk id) (files : List Mutation) (etags : List (String × String)) :
    ∃ r s', (withLock .publication t (commit host batch (some ⟨id, files⟩) etags)).run (Op.stepWith faults) s =
        some (r, s') ∧ Settles host faults batch id files s r s' := by
  obtain ⟨s₁, hs₁⟩ : ∃ s₁, s₁ = s.enqueue .publication t := ⟨_, rfl⟩
  have hbeside : s₁.disk = s.disk ∧ s₁.drawn = s.drawn ∧ s₁.visible = s.visible ∧ s₁.events = s.events := by
    rw [hs₁]
    exact ⟨rfl, rfl, rfl, rfl⟩
  obtain ⟨hdisk, hdrawn, hvisible, hevents⟩ := hbeside
  have hhoused : Housed s₁.disk id := by rwa [hdisk]
  have hhealthy : s₁.recoveryRequired = false := by
    rw [hs₁]
    exact hcalm.healthy
  have hlocked : ∀ r s', (commit host batch (some ⟨id, files⟩) etags).run (Op.stepWith faults) s₁ = some (r, s') →
      (withLock .publication t (commit host batch (some ⟨id, files⟩) etags)).run (Op.stepWith faults) s =
        some (r, s'.release .publication) := by
    intro r s' hrun
    rw [hs₁] at hrun
    exact run_withLock hcalm.queue hrun
  have hstranded : ∀ r s', Stranded id s₁ r s' → Stranded id s r (s'.release .publication) :=
    fun r s' hs' => ⟨hs'.refusal, hs'.visible.trans hvisible, hs'.leads⟩
  obtain ⟨herror, htrue, hfalse⟩ := run_commit host faults batch etags hhealthy
    (run_refuse faults files hhoused.leads)
  rw [hdisk] at herror htrue hfalse
  cases hverdict : verdict host faults s.disk batch with
  | error e =>
    refine ⟨_, _, hlocked _ _ (herror e hverdict), fun _ _ => ?_, ?_, ?_, ?_, ?_⟩
    · exact hstranded _ _ ⟨isRefusal_error e, rfl, hhoused.leads⟩
    all_goals
      intro hother
      rw [hverdict] at hother
      cases hother
  | ok differs =>
    cases differs with
    | true =>
      obtain ⟨r, s', hrun, hgives⟩ := htrue hverdict
      refine ⟨_, _, hlocked _ _ hrun, ?_, fun _ hrm => hstranded _ _ (hgives.cases.1 hrm), fun _ hrm => ?_, ?_, ?_⟩
      · intro e hother
        rw [hverdict] at hother
        cases hother
      · have hclean := hgives.cases.2 hrm
        exact ⟨hclean.refusal, hclean.files.trans (by rw [hdisk]), hclean.events.trans hevents,
          hclean.visible.trans hvisible, hclean.vacant⟩
      all_goals
        intro hother
        rw [hverdict] at hother
        cases hother
    | false =>
      obtain ⟨r, s', hrun, hrecorded, hnot⟩ := run_publish host faults files etags hhoused
      rw [hdisk, hdrawn] at hrecorded hnot
      refine ⟨_, _, hlocked _ _ ((hfalse hverdict).trans hrun), ?_, ?_, ?_, fun _ hrecord => ?_,
        fun _ hrecord => hstranded _ _ (hnot hrecord)⟩
      · intro e hother
        rw [hverdict] at hother
        cases hother
      · intro hother
        rw [hverdict] at hother
        cases hother
      · intro hother
        rw [hverdict] at hother
        cases hother
      · have hwrote := hrecorded hrecord
        refine ⟨?_, hwrote.written⟩
        rw [← hvisible]
        exact hwrote.visible

/-- How a call ends: its directory stays where `p`, and elsewhere either nothing does or its intent is recorded. -/
structure Ending (p : Prop) (id : String) (s : State) (r : Except Error Result) (s' : State) : Prop where
  stranded : p → Stranded id s r s'
  quiet : ¬p → Clean id s r s' ∨ Recorded s r s'

theorem Ending.of_clean {p : Prop} {r : Except Error Result} (hp : ¬p) (h : Clean id s r s') : Ending p id s r s' :=
  ⟨fun hyes => (hp hyes).elim, fun _ => .inl h⟩

theorem Ending.of_stranded {p : Prop} {r : Except Error Result} (hp : p) (h : Stranded id s r s') : Ending p id s r s' :=
  ⟨fun _ => h, fun hno => (hno hp).elim⟩

theorem Ending.of_recorded {p : Prop} {r : Except Error Result} (hp : ¬p) (h : Recorded s r s') : Ending p id s r s' :=
  ⟨fun hyes => (hp hyes).elim, fun _ => .inr h⟩

/-- Nothing was staged, and a call says so or finds a conflict. -/
theorem run_unstaged (host : Host) (faults : Faults) (hcalm : Calm s) (hvacant : Vacant s.disk id) (etags : List (String × String)) :
    ∃ r s', (withLock .publication t (commit host batch none etags)).run (Op.stepWith faults) s = some (r, s') ∧
      Clean id s r s' := by
  obtain ⟨s₁, hs₁⟩ : ∃ s₁, s₁ = s.enqueue .publication t := ⟨_, rfl⟩
  have hhealthy : s₁.recoveryRequired = false := by
    rw [hs₁]
    exact hcalm.healthy
  suffices hcommit : ∃ r, (commit host batch none etags).run (Op.stepWith faults) s₁ = some (r, s₁) ∧ IsRefusal r by
    obtain ⟨r, hrun, hrefusal⟩ := hcommit
    rw [hs₁] at hrun
    have hlocked := run_withLock hcalm.queue hrun
    rw [release_enqueue hcalm.queue] at hlocked
    exact ⟨r, s, hlocked, .of_same hrefusal hvacant⟩
  obtain ⟨herror, htrue, hfalse⟩ := run_commit host faults batch etags hhealthy
    fun path actual => run_refuse_none path actual
  cases hverdict : verdict host faults s₁.disk batch with
  | error e => exact ⟨_, herror e hverdict, isRefusal_error e⟩
  | ok differs =>
    cases differs with
    | true =>
      obtain ⟨r, s', hrun, hrefusal, rfl⟩ := htrue hverdict
      exact ⟨r, hrun, hrefusal⟩
    | false =>
      have hread : revisionUnlocked.run (Op.stepWith faults) s₁ = some (observe faults s₁.disk revisionUnlocked, s₁) :=
        run_of_reads reads_revisionUnlocked s₁
      cases hobserved : observe faults s₁.disk revisionUnlocked with
      | error e =>
        rw [hobserved] at hread
        exact ⟨.error e, (hfalse hverdict).trans (Prog.run_bind_error hread _), isRefusal_error e⟩
      | ok revision =>
        rw [hobserved] at hread
        exact ⟨.ok (.unchanged revision etags), (hfalse hverdict).trans ((Prog.run_bind_ok hread _).trans rfl),
          by simp [IsRefusal]⟩

/-- Something is staged. -/
theorem run_staged (host : Host) (faults : Faults) (hcalm : Calm s) (hid : ProperName (host.uuid s.drawn)) (hvacant : Vacant s.disk (host.uuid s.drawn))
    {changed : List MutationRequest} (hchanged : changed ≠ []) (etags : List (String × String)) : ∃ r s',
      (do
        let prepared ← prepareChanged host changed
        withLock .publication t (commit host batch prepared etags)).run (Op.stepWith faults) s = some (r, s') ∧
      Ending (Made faults s.disk (host.uuid s.drawn) ∧
        Strands host faults s.disk (host.uuid s.drawn) (s.drawn + 1) changed batch) (host.uuid s.drawn) s r s' := by
  obtain ⟨r, s₁, hrun, hprepares⟩ := run_prepare faults changed hid hvacant
  have hbeside := hprepares.beside
  have hthrows : ∀ e, r = .error e → (do
        let prepared ← prepareChanged host changed
        withLock .publication t (commit host batch prepared etags)).run (Op.stepWith faults) s = some (.error e, s₁) := by
    rintro e rfl
    have hprepare : (prepareChanged host changed).run (Op.stepWith faults) s = some (.error e, s₁) := by
      rw [prepareChanged, if_neg hchanged]
      exact Prog.run_bind_error hrun _
    exact Prog.run_bind_error hprepare _
  have hclean : ∀ e : Error, Vacant s₁.disk (host.uuid s.drawn) → Clean (host.uuid s.drawn) s (.error e) s₁ :=
    fun e hgone => ⟨isRefusal_error e, hbeside.files, hbeside.events, hbeside.visible, hgone⟩
  by_cases hmade : Made faults s.disk (host.uuid s.drawn)
  swap
  · obtain ⟨⟨e, rfl⟩, hgone⟩ := hprepares.refused hmade
    exact ⟨_, _, hthrows e rfl, .of_clean (fun h => hmade h.1) (hclean e hgone)⟩
  by_cases hlinks : Strikes faults linkOps
  · obtain ⟨⟨e, rfl⟩, hleads⟩ := hprepares.unlinked hmade hlinks
    exact ⟨_, _, hthrows e rfl, .of_stranded ⟨hmade, .unlinked hlinks⟩ ⟨isRefusal_error e, hbeside.visible, hleads⟩⟩
  by_cases hstaging : Strikes faults (stagingOps host (host.uuid s.drawn) (s.drawn + 1) changed.zipIdx)
  · obtain ⟨⟨e, rfl⟩, hkept, hgone⟩ := hprepares.unstaged hmade hlinks hstaging
    rcases struck_cases faults (.rmAll (transaction (host.uuid s.drawn))) with hrm | hrm
    · exact ⟨_, _, hthrows e rfl, .of_stranded ⟨hmade, .unstaged hlinks hstaging hrm⟩
        ⟨isRefusal_error e, hbeside.visible, hkept hrm⟩⟩
    · refine ⟨_, _, hthrows e rfl, .of_clean ?_ (hclean e (hgone hrm))⟩
      rintro ⟨-, hstrands⟩
      cases hstrands with
      | unlinked h => exact hlinks h
      | unstaged _ _ h => simp [hrm] at h
      | unread _ h => exact h hstaging
      | unremoved _ h => exact h hstaging
      | unrecorded _ h => exact h hstaging
  obtain ⟨rfl, hhoused, hdrawn⟩ := hprepares.prepared hmade hlinks hstaging
  have hcalm₁ : Calm s₁ :=
    ⟨hbeside.ready.trans hcalm.ready, by rw [hbeside.queue, hcalm.queue], hbeside.healthy.trans hcalm.healthy⟩
  obtain ⟨r, s₂, hsettled, hsettles⟩ := run_settled host faults (t := t) hcalm₁
    hhoused (changed.map (mutationOf host)) etags
  have hall : (do
        let prepared ← prepareChanged host changed
        withLock .publication t (commit host batch prepared etags)).run (Op.stepWith faults) s = some (r, s₂) := by
    have hprepare : (prepareChanged host changed).run (Op.stepWith faults) s =
        some (.ok (some ⟨host.uuid s.drawn, changed.map (mutationOf host)⟩), s₁) := by
      rw [prepareChanged, if_neg hchanged]
      exact (Prog.run_bind_ok hrun _).trans rfl
    exact (Prog.run_bind_ok hprepare _).trans hsettled
  refine ⟨r, s₂, hall, ?_⟩
  obtain ⟨hunread, hunremoved, hrefused, hrecorded, hunrecorded⟩ := hsettles
  rw [verdict_congr hbeside.files] at hunread hunremoved hrefused hrecorded hunrecorded
  rw [recordable_congr hbeside.files, hdrawn] at hrecorded hunrecorded
  cases hverdict : verdict host faults s.disk batch with
  | error e =>
    exact .of_stranded ⟨hmade, .unread hlinks hstaging e hverdict⟩ ((hunread e hverdict).after hbeside)
  | ok differs =>
    cases differs with
    | true =>
      rcases struck_cases faults (.rmAll (transaction (host.uuid s.drawn))) with hrm | hrm
      · exact .of_stranded ⟨hmade, .unremoved hlinks hstaging hverdict hrm⟩ ((hunremoved hverdict hrm).after hbeside)
      · refine .of_clean ?_ ((hrefused hverdict hrm).after hbeside)
        rintro ⟨-, hstrands⟩
        cases hstrands with
        | unlinked h => exact hlinks h
        | unstaged _ h => exact hstaging h
        | unread _ _ e h => simp [hverdict] at h
        | unremoved _ _ _ h => simp [hrm] at h
        | unrecorded _ _ h => simp [hverdict] at h
    | false =>
      by_cases hrecord : Recordable host faults s.disk (host.uuid s.drawn) (changed.map (mutationOf host))
          (s.drawn + 1 + payloads changed.zipIdx)
      · refine .of_recorded ?_ ((hrecorded hverdict hrecord).after hbeside)
        rintro ⟨-, hstrands⟩
        cases hstrands with
        | unlinked h => exact hlinks h
        | unstaged _ h => exact hstaging h
        | unread _ _ e h => simp [hverdict] at h
        | unremoved _ _ h => simp [hverdict] at h
        | unrecorded _ _ _ h => exact h hrecord
      · exact .of_stranded ⟨hmade, .unrecorded hlinks hstaging hverdict hrecord⟩
          ((hunrecorded hverdict hrecord).after hbeside)

/-- The directory of a call stays though its intent is not recorded. -/
def Leaves (host : Host) (faults : Faults) (s : State) (batch : Batch) : Prop :=
  ∃ changed, changedOf host faults s.disk batch = .ok changed ∧ changed ≠ [] ∧
    Made faults s.disk (host.uuid s.drawn) ∧
    Strands host faults s.disk (host.uuid s.drawn) (s.drawn + 1) changed batch

theorem not_leaves_of_error {e : Error} (h : changedOf host faults s.disk batch = .error e) :
    ¬Leaves host faults s batch := by
  rintro ⟨changed, hchanged, -⟩
  rw [h] at hchanged
  cases hchanged

theorem not_leaves_of_nil (h : changedOf host faults s.disk batch = .ok []) : ¬Leaves host faults s batch := by
  rintro ⟨changed, hchanged, hne, -⟩
  rw [h] at hchanged
  exact hne (Except.ok.inj hchanged).symm

theorem leaves_iff {changed : List MutationRequest} (h : changedOf host faults s.disk batch = .ok changed)
    (hne : changed ≠ []) : Leaves host faults s batch ↔ Made faults s.disk (host.uuid s.drawn) ∧
      Strands host faults s.disk (host.uuid s.drawn) (s.drawn + 1) changed batch := by
  constructor
  · rintro ⟨changed', hchanged, -, hmade, hstrands⟩
    rw [h] at hchanged
    obtain rfl := Except.ok.inj hchanged
    exact ⟨hmade, hstrands⟩
  · exact fun ⟨hmade, hstrands⟩ => ⟨changed, h, hne, hmade, hstrands⟩

/-- What `transact` does where the requests are valid: it reads the etags, and goes on by whether one is stale. -/
theorem transact_valid (host : Host) (faults : Faults) {errors : List FieldError}
    (hvalid : validateAll batch.requests = .ok errors) (herrors : ¬errors ≠ []) :
    ∃ rest : List (MutationRequest × Option String) → Prog lang Result,
      (∀ s, (transact host t batch).run (Op.stepWith faults) s =
        (Prog.collect batch.requests (fun request => do
          let actual ← etag host t request.path
          pure (request.toMutationRequest, actual)) >>= rest).run (Op.stepWith faults) s) ∧
      (∀ current stale, current.find? isStale = some stale → rest current = (do
        let revision ← revision host t
        pure (.conflict stale.1.path stale.2 revision))) ∧
      ∀ current, current.find? isStale = none → rest current = (do
        let prepared ← prepareChanged host
          ((current.filter fun c => c.1.content.map host.contentHash != c.2).map Prod.fst)
        withLock .publication t (commit host batch prepared
          (batch.requests.map fun r => etagOf host r.toMutationRequest))) := by
  unfold transact
  rw [hvalid]
  apply Exists.intro
  refine ⟨fun s => (Prog.run_bind_ok (run_lift _ s) _).trans ?_, fun current stale hfind => ?_, fun current hfind => ?_⟩
  · rw [if_neg herrors]
  · dsimp only
    split
    · rename_i request actual heq
      obtain rfl := Option.some.inj (hfind.symm.trans heq)
      rfl
    · rename_i heq
      cases hfind.symm.trans heq
  · dsimp only
    split
    · rename_i request actual heq
      cases hfind.symm.trans heq
    · rfl

theorem run_transact (host : Host) (faults : Faults) (hcalm : Calm s) (hid : ProperName (host.uuid s.drawn)) (hvacant : Vacant s.disk (host.uuid s.drawn))
    (hpaths : ∀ r ∈ batch.requests, isDatabasePath r.path = true) : ∃ r s',
      (transact host t batch).run (Op.stepWith faults) s = some (r, s') ∧
      Ending (Leaves host faults s batch) (host.uuid s.drawn) s r s' := by
  cases hvalid : validateAll batch.requests with
  | error e =>
    refine ⟨.error e, s, ?_, .of_clean (not_leaves_of_error (e := e) ?_) (.of_same (isRefusal_error e) hvacant)⟩
    · unfold transact
      rw [hvalid]
      exact Prog.run_bind_error (run_lift _ s) _
    · rw [changedOf, hvalid]
      rfl
  | ok errors =>
    by_cases herrors : errors ≠ []
    · refine ⟨.ok (.invalid ((batch.requests.head?.map fun request => request.path).getD "") errors), s, ?_,
        .of_clean (not_leaves_of_nil ?_) (.of_same (by simp [IsRefusal]) hvacant)⟩
      · unfold transact
        rw [hvalid]
        refine (Prog.run_bind_ok (run_lift _ s) _).trans ?_
        rw [if_pos herrors]
        rfl
      · rw [changedOf, hvalid]
        exact if_pos herrors
    · have hcurrentRun := run_current host faults (t := t) hcalm hpaths
      have hchangedOf : changedOf host faults s.disk batch = (do
          let current ← currentOf host faults s.disk batch.requests
          if current.any isStale then pure []
          else pure ((current.filter fun c => c.1.content.map host.contentHash != c.2).map Prod.fst)) := by
        rw [changedOf, hvalid]
        exact if_neg herrors
      obtain ⟨rest, htransact, hstale, hfine⟩ := transact_valid host faults (t := t) hvalid herrors
      cases hcurrent : currentOf host faults s.disk batch.requests with
      | error e =>
        rw [hcurrent] at hcurrentRun hchangedOf
        exact ⟨.error e, s, (htransact s).trans (Prog.run_bind_error hcurrentRun _),
          .of_clean (not_leaves_of_error hchangedOf) (.of_same (isRefusal_error e) hvacant)⟩
      | ok current =>
        rw [hcurrent] at hcurrentRun hchangedOf
        cases hfind : current.find? isStale with
        | some stale =>
          have hany : current.any isStale = true :=
            List.any_eq_true.2 ⟨stale, List.mem_of_find?_eq_some hfind, List.find?_some hfind⟩
          have hnil : changedOf host faults s.disk batch = .ok [] := hchangedOf.trans (if_pos hany)
          have hrevision := run_revision host faults (t := t) hcalm
          obtain ⟨r, hrun, hrefusal⟩ : ∃ r, (do
              let revision ← revision host t
              pure (.conflict stale.1.path stale.2 revision) : Prog lang Result).run (Op.stepWith faults) s =
                some (r, s) ∧ IsRefusal r := by
            cases hobserved : observe faults s.disk revisionUnlocked with
            | error e =>
              rw [hobserved] at hrevision
              exact ⟨.error e, Prog.run_bind_error hrevision _, isRefusal_error e⟩
            | ok n =>
              rw [hobserved] at hrevision
              exact ⟨.ok (.conflict stale.1.path stale.2 n), (Prog.run_bind_ok hrevision _).trans rfl,
                by simp [IsRefusal]⟩
          refine ⟨r, s, ((htransact s).trans (Prog.run_bind_ok hcurrentRun _)).trans ?_, .of_clean (not_leaves_of_nil hnil)
            (.of_same hrefusal hvacant)⟩
          rw [hstale current stale hfind]
          exact hrun
        | none =>
          have hnone : ¬current.any isStale = true := by
            rw [List.find?_eq_none] at hfind
            simpa using hfind
          obtain ⟨changed, hchangedEq⟩ : ∃ changed, changed =
              (current.filter fun c => c.1.content.map host.contentHash != c.2).map Prod.fst := ⟨_, rfl⟩
          have hchanged : changedOf host faults s.disk batch = .ok changed := by
            rw [hchangedEq]
            exact hchangedOf.trans (if_neg hnone)
          by_cases hne : changed = []
          · obtain ⟨r, s', hrun, hclean⟩ := run_unstaged host faults (t := t) hcalm
              hvacant (batch.requests.map fun r => etagOf host r.toMutationRequest)
            rw [hne] at hchanged
            refine ⟨r, s', ((htransact s).trans (Prog.run_bind_ok hcurrentRun _)).trans ?_,
              .of_clean (not_leaves_of_nil hchanged) hclean⟩
            rw [hfine current hfind]
            have hprepare : (prepareChanged host changed).run (Op.stepWith faults) s = some (.ok none, s) := by
              rw [prepareChanged, if_pos hne]
              rfl
            rw [hchangedEq] at hprepare
            exact (Prog.run_bind_ok hprepare _).trans hrun
          · obtain ⟨r, s', hrun, hending⟩ := run_staged host faults (t := t) hcalm hid
              hvacant hne (batch.requests.map fun r => etagOf host r.toMutationRequest)
            refine ⟨r, s', ((htransact s).trans (Prog.run_bind_ok hcurrentRun _)).trans ?_, ?_⟩
            · rw [hfine current hfind]
              rw [hchangedEq] at hrun
              exact hrun
            · have hiff := leaves_iff hchanged hne
              exact ⟨fun h => hending.stranded (hiff.1 h), fun h => hending.quiet fun h' => h (hiff.2 h')⟩

/-! ### `writeMany` from outside -/

theorem run_withPaths (faults : Faults) (t : Nat) (Q : Except Error Result → State → Prop)
    (hrelease : ∀ r s' lock, Q r s' → Q r (s'.release lock))
    {body : Prog lang Result} (hbody : ∀ queue : Lock → List Nat, queue .publication = [] →
      ∃ r s', body.run (Op.stepWith faults) { s with queue } = some (r, s') ∧ Q r s')
    (paths : List String) (hnodup : paths.Nodup) : ∀ queue : Lock → List Nat, queue .publication = [] →
      (∀ path ∈ paths, queue (.path path) = []) →
      ∃ r s', (withPaths t paths body).run (Op.stepWith faults) { s with queue } = some (r, s') ∧ Q r s' := by
  induction paths with
  | nil => exact fun queue hqueue _ => hbody queue hqueue
  | cons path remaining ih =>
    intro queue hqueue hfree
    obtain ⟨hpath, hremaining⟩ := List.nodup_cons.1 hnodup
    obtain ⟨r, s', hrun, hq⟩ := ih hremaining
      (fun l => if l = .path path then queue l ++ [t] else queue l)
      (by simpa using hqueue) (by
        intro other hother
        have hne : other ≠ path := by
          rintro rfl
          exact hpath hother
        simpa [hne] using hfree other (List.mem_cons_of_mem _ hother))
    exact ⟨r, s'.release (.path path), run_withLock (hfree path List.mem_cons_self) hrun, hrelease _ _ _ hq⟩

theorem Ending.of_queue {p : Prop} {r : Except Error Result} {queue : Lock → List Nat}
    (h : Ending p id { s with queue } r s') : Ending p id s r s' where
  stranded hp := ⟨(h.stranded hp).refusal, (h.stranded hp).visible, (h.stranded hp).leads⟩
  quiet hp := (h.quiet hp).imp (fun hclean => ⟨hclean.refusal, hclean.files, hclean.events, hclean.visible, hclean.vacant⟩)
    fun hrecorded => ⟨hrecorded.visible, hrecorded.written⟩

theorem Ending.release {p : Prop} {r : Except Error Result} (lock : Lock) (h : Ending p id s r s') :
    Ending p id s r (s'.release lock) where
  stranded hp := ⟨(h.stranded hp).refusal, (h.stranded hp).visible, (h.stranded hp).leads⟩
  quiet hp := (h.quiet hp).imp (fun hclean => ⟨hclean.refusal, hclean.files, hclean.events, hclean.visible, hclean.vacant⟩)
    fun hrecorded => ⟨hrecorded.visible, hrecorded.written⟩

/-- `recover`, of an engine whose first recovery failed, or that has to be restarted. -/
theorem run_recover_closed (host : Host) (faults : Faults) {ready : Except Error Unit} (hready : s.ready = .settled ready)
    (hclosed : ¬(ready = .ok () ∧ s.recoveryRequired = false)) :
    ∃ e, (recover host t).run (Op.stepWith faults) s = some (.error e, s) := by
  have hbegin : (begin_ host t).run (Op.stepWith faults) s = some (.ok (), s) := by
    unfold begin_
    rw [Prog.run_get_bind, hready]
    rfl
  have hfirst : (Prog.op (S := lang) .first).run (Op.stepWith faults) s = some (ready, s) := by
    have hmay : (Op.first).may s := ⟨_, hready⟩
    rw [run_op_unstruck hmay (struck_of_waits rfl), Op.perform, hready]
    rfl
  cases ready with
  | error e => exact ⟨e, (Prog.run_bind_ok hbegin _).trans (Prog.run_bind_error hfirst _)⟩
  | ok u =>
    have hassert : assertHealthy.run (Op.stepWith faults) s =
        some (.error (.of "database recovery required; restart before reading or writing"), s) := by
      unfold assertHealthy
      rw [Prog.run_get_bind, if_pos]
      · rfl
      · simpa using hclosed
    exact ⟨_, (Prog.run_bind_ok hbegin _).trans ((Prog.run_bind_ok hfirst _).trans hassert)⟩

theorem paths_of_checkPaths (h : checkPaths batch = .ok ()) :
    (∀ r ∈ batch.requests, isDatabasePath r.path = true) ∧ (batch.requests.map fun r => r.path).Nodup := by
  unfold checkPaths at h
  split at h
  · cases h
  · rename_i hnone
    split at h
    · rename_i hnodup
      refine ⟨fun r hr => ?_, hnodup⟩
      rw [List.find?_eq_none] at hnone
      have hpath := hnone r.path (List.mem_append_right _ (List.mem_map.2 ⟨r, hr, rfl⟩))
      simpa using hpath
    · cases h

/-- The directory that a call stages its payloads in stays, though its intent is not recorded. -/
def Abandons (host : Host) (faults : Faults) (s : State) (batch : Batch) : Prop :=
  checkPaths batch = .ok () ∧ s.ready = .settled (.ok ()) ∧ s.recoveryRequired = false ∧ Leaves host faults s batch

theorem run_writeMany (host : Host) (faults : Faults) (t : Nat) (batch : Batch)
    (hready : ∃ r, s.ready = .settled r) (hqueue : ∀ lock, s.queue lock = []) (hid : ProperName (host.uuid s.drawn))
    (hvacant : Vacant s.disk (host.uuid s.drawn)) : ∃ r s',
      (writeMany host t batch).run (Op.stepWith faults) s = some (r, s') ∧
      Ending (Abandons host faults s batch) (host.uuid s.drawn) s r s' := by
  obtain ⟨ready, hready⟩ := hready
  cases hcheck : checkPaths batch with
  | error e =>
    refine ⟨.error e, s, ?_, .of_clean ?_ (.of_same (isRefusal_error e) hvacant)⟩
    · unfold writeMany
      rw [hcheck]
      exact Prog.run_bind_error (run_lift _ s) _
    · rintro ⟨hok, -⟩
      rw [hcheck] at hok
      cases hok
  | ok u =>
    have hbegin : ∀ r s', (recover host t >>= fun _ =>
          withPaths t (sortTexts (batch.requests.map fun r => r.path)) (transact host t batch)).run
            (Op.stepWith faults) s = some (r, s') →
        (writeMany host t batch).run (Op.stepWith faults) s = some (r, s') := by
      intro r s' hrun
      unfold writeMany
      rw [hcheck]
      exact (Prog.run_bind_ok (run_lift _ s) _).trans hrun
    by_cases hopen : ready = .ok () ∧ s.recoveryRequired = false
    · obtain ⟨rfl, hhealthy⟩ := hopen
      obtain ⟨hpaths, hnodup⟩ := paths_of_checkPaths hcheck
      have hdistinct : (sortTexts (batch.requests.map fun r => r.path)).Nodup :=
        (pairwise_sortTexts hnodup).imp And.right
      obtain ⟨r, s', hrun, hending⟩ := run_withPaths faults t
        (fun r s' => Ending (Leaves host faults s batch) (host.uuid s.drawn) s r s') (fun r s' lock h => h.release lock)
        (fun queue hfree => by
          have hcalm : Calm { s with queue } := ⟨hready, hfree, hhealthy⟩
          obtain ⟨r, s', hrun, hending⟩ := run_transact host faults (t := t) hcalm hid hvacant hpaths
          exact ⟨r, s', hrun, hending.of_queue⟩)
        (sortTexts (batch.requests.map fun r => r.path)) hdistinct s.queue (hqueue _) fun path _ => hqueue _
      refine ⟨r, s', hbegin r s' ((Prog.run_bind_ok (run_recover_ready hready hhealthy) _).trans hrun), ?_⟩
      exact ⟨fun h => hending.stranded h.2.2.2, fun h => hending.quiet fun hleaves => h ⟨hcheck, hready, hhealthy, hleaves⟩⟩
    · obtain ⟨e, hrecover⟩ := run_recover_closed host faults (t := t) hready hopen
      refine ⟨.error e, s, hbegin _ _ (Prog.run_bind_error hrecover _), .of_clean ?_ (.of_same (isRefusal_error e) hvacant)⟩
      rintro ⟨-, hready', hhealthy, -⟩
      rw [hready] at hready'
      exact hopen ⟨Readiness.settled.inj hready', hhealthy⟩

/-- A call that was refused, or that threw before its intent was recorded. -/
structure Refused (s : State) (r : Except Error Result) (s' : State) : Prop where
  refusal : IsRefusal r
  unrecorded : ∀ e, r = .error e → s'.visible = s.visible

/-- A call leaves nothing: the files, `.revision` among them, and the events are as they were, and there is no
directory of its transaction. -/
structure LeavesNothing (id : String) (s s' : State) : Prop where
  files : s'.disk.elsewhere ".journal" = s.disk.elsewhere ".journal"
  events : s'.events = s.events
  vacant : Vacant s'.disk id

theorem Stranded.refused {r : Except Error Result} (h : Stranded id s r s') :
    Refused s r s' ∧ ¬LeavesNothing id s s' := by
  refine ⟨⟨h.refusal, fun _ _ => h.visible⟩, fun hnothing => ?_⟩
  have hthere := h.leads.2 (transaction id) (List.prefix_refl _)
  have hgone := hnothing.vacant []
  rw [List.append_nil, hthere] at hgone
  cases hgone

theorem Ending.refused_iff {p : Prop} {r : Except Error Result} (h : Ending p id s r s') :
    (Refused s r s' → LeavesNothing id s s') ↔ ¬p := by
  constructor
  · intro hclaim hp
    obtain ⟨hrefused, hsomething⟩ := (h.stranded hp).refused
    exact hsomething (hclaim hrefused)
  · intro hp hrefused
    rcases h.quiet hp with hclean | hrecorded
    · exact ⟨hclean.files, hclean.events, hclean.vacant⟩
    · cases r with
      | ok result =>
        obtain ⟨revision, etags, rfl⟩ := hrecorded.written result rfl
        exact (hrefused.refusal revision etags rfl).elim
      | error e =>
        have hsame := hrefused.unrecorded e rfl
        have hmore := hrecorded.visible
        rw [hsame] at hmore
        exact (Nat.lt_irrefl _ hmore).elim

/-- A call that is refused leaves nothing, but for the exits at which the directory of its transaction is not
removed. -/
theorem refusals_leave_nothing_iff (host : Host) (faults : Faults) (t : Nat) (batch : Batch)
    (hready : ∃ r, s.ready = .settled r) (hqueue : ∀ lock, s.queue lock = []) (hid : ProperName (host.uuid s.drawn))
    (hvacant : Vacant s.disk (host.uuid s.drawn)) : ∃ r s',
      (writeMany host t batch).run (Op.stepWith faults) s = some (r, s') ∧
      ((Refused s r s' → LeavesNothing (host.uuid s.drawn) s s') ↔ ¬Abandons host faults s batch) := by
  obtain ⟨r, s', hrun, hending⟩ := run_writeMany host faults t batch hready hqueue hid hvacant
  exact ⟨r, s', hrun, hending.refused_iff⟩

/-- A file where the documents of a product should be. -/
def misfiled : State where
  disk := ⟨[(["config"], .file "")]⟩
  queue _ := []
  ready := .settled (.ok ())
  recoveryRequired := false
  drawn := 0
  events := []
  taken := []
  visible := []

/-- A call that relies on there being no documents. -/
def listing : Batch where
  requests := [{ path := "schema.yaml", content := some "", expectedEtag := none, actor := "", keys := [],
                 validate := fun _ => .ok [] }]
  collections := [{ path := "config", files := [] }]

/-- The payload is staged before the directory turns out not to be one. -/
theorem abandons_listing : Abandons plainHost (fun _ => none) misfiled listing := by
  have hnone : ∀ ops, ¬Strikes (fun _ => none) ops := by
    intro ops
    simp [Strikes, struck_alone]
  obtain ⟨e, hverdict⟩ : ∃ e, verdict plainHost (fun _ => none) misfiled.disk listing = .error e := ⟨_, rfl⟩
  refine ⟨rfl, rfl, rfl, [⟨"schema.yaml", some "", none, "", []⟩], rfl, by simp, ⟨rfl, rfl⟩, ?_⟩
  exact .unread (hnone _) (hnone _) e hverdict

/-- The call throws, and the directory of its transaction stays. -/
theorem refusals_leave_nothing_iff_listing : ∃ r s',
    (writeMany plainHost 0 listing).run (Op.stepWith fun _ => none) misfiled = some (r, s') ∧
    Refused misfiled r s' ∧ ¬LeavesNothing "0" misfiled s' := by
  have hid : ProperName (plainHost.uuid misfiled.drawn) := ⟨by decide, by decide⟩
  obtain ⟨r, s', hrun, hiff⟩ := refusals_leave_nothing_iff (s := misfiled) plainHost (fun _ => none) 0 listing
    ⟨_, rfl⟩ (fun _ => rfl) hid fun _ => rfl
  obtain ⟨hrefused, hsomething⟩ := Classical.not_imp.1 fun hclaim => hiff.1 hclaim abandons_listing
  exact ⟨r, s', hrun, hrefused, hsomething⟩

end ConfigRegistry.Engine
