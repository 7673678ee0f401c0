import ConfigRegistry.Engine.Answers

/-!
# Transactions are decided at one moment

A transaction is accepted or refused for what the database held at one moment at which the call had its turn to
publish: the etags that it read before, under the locks of its paths, are still those of its files then.
-/

namespace ConfigRegistry.Engine

open Js Async Fs Store

/-- The directories and the files that were read are as the call expects. -/
structure Passed (host : Host) (d : Disk) (batch : Batch) : Prop where
  collections : ∀ check ∈ batch.collections,
    observe unstruck d (documentNames check.path) = .ok (sortTexts check.files)
  checks : ∀ check ∈ batch.checks, etagAt host d check.path = check.expectedEtag

/-- A directory does not hold the documents, or a file is not as it was read, that the call expects. -/
def Stale (host : Host) (d : Disk) (batch : Batch) (path : String) (actual : Option String) : Prop :=
  (∃ check ∈ batch.collections, check.path = path ∧ actual = none ∧
    ∃ names, observe unstruck d (documentNames path) = .ok names ∧ names ≠ sortTexts check.files) ∨
  ∃ check ∈ batch.checks, check.path = path ∧ actual = etagAt host d path ∧ actual ≠ check.expectedEtag

/-- Every file is as its request expects. -/
def Expected (host : Host) (d : Disk) (batch : Batch) : Prop :=
  ∀ request ∈ batch.requests, ∀ e, request.expectedEtag = some e → etagAt host d request.path = e

/-- What a transaction returns is so for what the database held at a moment at which the call could publish. -/
def Justified (host : Host) (moment : State → Prop) (t : Nat) (batch : Batch) : Result → Prop
  | .invalid path errors => validateAll batch.requests = .ok errors ∧ errors ≠ [] ∧
    path = (batch.requests.head?.map fun request => request.path).getD ""
  | .conflict path actual revision => validateAll batch.requests = .ok [] ∧
    ((∃ m, Seen moment t (fun _ => True) m ∧ revisionOf m.disk = .ok revision) ∧
      (∃ m, Seen moment t (fun _ => True) m ∧ etagAt host m.disk path = actual ∧ ∃ request ∈ batch.requests,
        request.path = path ∧ ∃ e, request.expectedEtag = some e ∧ e ≠ actual) ∨
    ∃ m, Seen moment t (fun _ => True) m ∧ revisionOf m.disk = .ok revision ∧ Expected host m.disk batch ∧
      Stale host m.disk batch path actual)
  | .unchanged revision etags => validateAll batch.requests = .ok [] ∧
    (∃ m, Seen moment t (fun _ => True) m ∧ revisionOf m.disk = .ok revision ∧ Expected host m.disk batch ∧
      Passed host m.disk batch ∧
      ∀ request ∈ batch.requests, etagAt host m.disk request.path = request.content.map host.contentHash) ∧
    etags = batch.requests.map fun request => etagOf host request.toMutationRequest
  | .written revision etags => validateAll batch.requests = .ok [] ∧
    (∃ m n, Seen moment t (fun _ => True) m ∧ revisionOf m.disk = .ok n ∧ revision = n + 1 ∧
      revision ≤ maxSafeInteger ∧ Expected host m.disk batch ∧ Passed host m.disk batch ∧
      ∃ request ∈ batch.requests, etagAt host m.disk request.path ≠ request.content.map host.contentHash) ∧
    etags = batch.requests.map fun request => etagOf host request.toMutationRequest

/-- The call asks for what the database holds. -/
def Call.Asks : Call → Prop
  | .read _ | .etag _ | .revision | .snapshot _ => True
  | .recover | .writeMany _ => False

/-- The answer tells what the database holds. -/
def Tells (host : Host) (d : Disk) : Call → Answer → Prop
  | .read path, a => a = .text (textAt d path)
  | .etag path, a => a = .etag (etagAt host d path)
  | .revision, a => ∃ n, revisionOf d = .ok n ∧ a = .revision n
  | .snapshot pre, a => ∃ n files depth, revisionOf d = .ok n ∧ observe unstruck d (visit depth pre) = .ok files ∧
    a = .snapshot n files
  | .recover, _ | .writeMany _, _ => True

/-- What a call returns is so for what the database held, at a moment at which the call had its turn to publish. -/
def Owed (host : Host) (moment : State → Prop) (t : Nat) (c : Call) (a : Answer) : Prop :=
  (c.Asks → ∃ m, Seen moment t (fun _ => True) m ∧ Tells host m.disk c a) ∧
  ∀ batch, c = .writeMany batch → ∃ r, a = .result r ∧ Justified host moment t batch r

variable {fails : Op → State → Prop} {kills : Prop} {moment : State → Prop} {host : Host} {t : Nat}
  {locks : List Lock} {running : Bool} {s s' : State} {α β : Type} {φ ψ : State → Prop}

/-! ### Under the publication lock -/

theorem aside_abandon (prepared : Option Prepared) : Aside (abandon prepared) := by
  cases prepared with
  | none => trivial
  | some prepared => exact aside_complete _

theorem refuse_serves {m : State} (hφ : Guarded locks φ) (prepared : Option Prepared) (path : String)
    (actual : Option String) :
    serving.Runs ((sem fails kills).through moment) t
      (Knows t (.publication :: locks) false fun s => φ s ∧ Since m s) (refuse prepared path actual)
      fun r s => Knows t (.publication :: locks) false (fun s => φ s ∧ Since m s) s ∧
        IfOk (fun result => ∃ revision, result = .conflict path actual revision ∧
          (Looking fails → revisionOf m.disk = .ok revision)) r := by
  refine .bind (idle_of_aside (aside_abandon prepared) (hφ.more.and (guarded_since m))) (fun _ => ?_)
    fun e s _ hs => ⟨hs, ifOk_error⟩
  refine .bind (revisionUnlocked_serves hφ) (fun revision => ?_) fun e s _ hs => ⟨hs.1, ifOk_error⟩
  exact .pure fun s hs _ => ⟨hs.1, ifOk_ok.2 ⟨revision, rfl, ifOk_ok.1 hs.2⟩⟩

/-- A check of the database: what it finds where it passes, and the conflict where it does not. -/
theorem checkCollection_serves {m : State} (hφ : Guarded locks φ) (prepared : Option Prepared)
    (check : CollectionPrecondition) :
    serving.Runs ((sem fails kills).through moment) t
      (Knows t (.publication :: locks) false fun s => φ s ∧ Since m s) (checkCollection prepared check)
      fun r s => Knows t (.publication :: locks) false (fun s => φ s ∧ Since m s) s ∧
        IfOk (fun b => (b = none → Looking fails →
            observe unstruck m.disk (documentNames check.path) = .ok (sortTexts check.files)) ∧
          ∀ x, b = some x → ∃ revision, x = .conflict check.path none revision ∧ (Looking fails →
            revisionOf m.disk = .ok revision ∧ ∃ names,
              observe unstruck m.disk (documentNames check.path) = .ok names ∧ names ≠ sortTexts check.files)) r := by
  refine .bind (reads_serve (d := m.disk) (reads_documentNames check.path) (hφ.more.and (guarded_since m))
    fun s hs => hs.2.elsewhere) (fun names => ?_) fun e s _ hs => ⟨hs.1, ifOk_error⟩
  apply Accord.Runs.assume
  intro hnames
  refine .ite (fun hdiffers => ?_) fun hsame => ?_
  · refine .bind (refuse_serves hφ prepared check.path none) (fun x => ?_) fun e s _ hs => ⟨hs.1, ifOk_error⟩
    refine .pure fun s hs _ => ⟨hs.1, ifOk_ok.2 ⟨fun h => (by cases h), fun y hy => ?_⟩⟩
    obtain rfl := Option.some.inj hy
    obtain ⟨revision, hx, hrevision⟩ := ifOk_ok.1 hs.2
    exact ⟨revision, hx, fun hlooking => ⟨hrevision hlooking, names, (hnames hlooking).symm, hdiffers⟩⟩
  · refine .pure fun s hs _ => ⟨hs, ifOk_ok.2 ⟨fun _ hlooking => ?_, fun y hy => (by cases hy)⟩⟩
    rw [← hnames hlooking, not_not.1 hsame]

theorem checkRead_serves {m : State} (hseen : Seen moment t φ m) (hφ : Guarded locks φ) (prepared : Option Prepared)
    (check : ReadPrecondition) :
    serving.Runs ((sem fails kills).through moment) t
      (Knows t (.publication :: locks) false fun s => φ s ∧ Since m s) (checkRead host prepared check)
      fun r s => Knows t (.publication :: locks) false (fun s => φ s ∧ Since m s) s ∧
        IfOk (fun b => (b = none → Looking fails → etagAt host m.disk check.path = check.expectedEtag) ∧
          ∀ x, b = some x → ∃ actual revision, x = .conflict check.path actual revision ∧ (Looking fails →
            revisionOf m.disk = .ok revision ∧ actual = etagAt host m.disk check.path ∧
              actual ≠ check.expectedEtag)) r := by
  refine .bind (readUnlocked_serves hseen hφ check.path) (fun content => ?_) fun e s _ hs => ⟨hs.1, ifOk_error⟩
  apply Accord.Runs.assume
  intro hcontent
  have hetag : Looking fails → content.map host.contentHash = etagAt host m.disk check.path := fun hlooking => by
    rw [ifOk_ok.1 hcontent hlooking, etagAt]
  refine .ite (fun hdiffers => ?_) fun hsame => ?_
  · refine .bind (refuse_serves hφ prepared check.path _) (fun x => ?_) fun e s _ hs => ⟨hs.1, ifOk_error⟩
    refine .pure fun s hs _ => ⟨hs.1, ifOk_ok.2 ⟨fun h => (by cases h), fun y hy => ?_⟩⟩
    obtain rfl := Option.some.inj hy
    obtain ⟨revision, hx, hrevision⟩ := ifOk_ok.1 hs.2
    exact ⟨_, revision, hx, fun hlooking => ⟨hrevision hlooking, hetag hlooking, hdiffers⟩⟩
  · refine .pure fun s hs _ => ⟨hs, ifOk_ok.2 ⟨fun _ hlooking => ?_, fun y hy => (by cases hy)⟩⟩
    rw [← hetag hlooking, not_not.1 hsame]

/-- The paths that a call has the locks of. -/
def Mine (locks : List Lock) (path : String) : Prop := Lock.path path ∈ locks

theorem mine_unique (h : Held t (.publication :: locks) running s) {path : String} {u : Nat} (hmine : Mine locks path)
    (hhas : Has (.path path) u s) : u = t := hhas.unique (h.head _ (List.mem_cons_of_mem _ hmine))

/-- A transaction is carried out. -/
theorem carry_serves {prepared : Prepared} (revision : Nat)
    (hfiles : ∀ file ∈ prepared.files, Mine locks file.path ∧ isDatabasePath file.path = true) :
    serving.Idle ((sem fails kills).through moment) t (Knows t (.publication :: locks) false Settled)
      (Prog.handle
        (do
          let intent ← recordIntent host prepared revision
          finish host prepared.id intent)
        fun e => do
          Prog.modify (S := lang) fun s => { s with recoveryRequired := true }
          Prog.fail e) := by
  have hconfines : Confines (Mine locks) (Prog.handle
      (do
        let intent ← recordIntent host prepared revision
        finish host prepared.id intent)
      fun e => do
        Prog.modify (S := lang) fun s => { s with recoveryRequired := true }
        Prog.fail e) := by
    apply Prog.Within.handle
    · have hintent : (recordIntent host prepared revision).Gives fun intent => intent.files = prepared.files :=
        .bind_any fun _ => .pure rfl
      apply hintent.within_bind (confines_recordIntent prepared revision)
      intro intent hsame
      apply confines_finish
      intro file hfile
      rw [hsame] at hfile
      exact hfiles file hfile
    · intro e
      exact .bind (.modify fun _ => ⟨⟨rfl, rfl⟩, rfl⟩) fun _ => .fail e
  refine idle_of_confines hconfines List.mem_cons_self ?_ guarded_settled
  intro s hheld _ path u hmine hhas
  exact mine_unique hheld hmine hhas

/-- What `commit` returns is so for what the database held when it began. -/
def Decided (host : Host) (d : Disk) (batch : Batch) (prepared : Option Prepared) (etags : List (String × String)) :
    Result → Prop
  | .invalid _ _ => False
  | .conflict path actual revision => revisionOf d = .ok revision ∧ Stale host d batch path actual
  | .unchanged revision etags' => revisionOf d = .ok revision ∧ Passed host d batch ∧ prepared = none ∧ etags' = etags
  | .written revision etags' => (∃ n, revisionOf d = .ok n ∧ revision = n + 1 ∧ revision ≤ maxSafeInteger) ∧
    Passed host d batch ∧ prepared ≠ none ∧ etags' = etags

theorem publish_serves {m : State} {batch : Batch} (hφ : Guarded locks φ) (hsettled : ∀ s, φ s → Settled s)
    {prepared : Prepared} (hfiles : ∀ file ∈ prepared.files, Mine locks file.path ∧ isDatabasePath file.path = true)
    (hpassed : Looking fails → Passed host m.disk batch) (etags : List (String × String)) :
    serving.Runs ((sem fails kills).through moment) t
      (Knows t (.publication :: locks) false fun s => φ s ∧ Since m s) (publish host prepared etags)
      fun r s => Knows t (.publication :: locks) false Settled s ∧
        IfOk (fun result => Looking fails → Decided host m.disk batch (some prepared) etags result) r := by
  refine .bind (revisionUnlocked_serves hφ) (fun current => ?_)
    fun e s _ hs => ⟨⟨hs.1.1, hsettled s hs.1.2.1⟩, ifOk_error⟩
  apply Accord.Runs.assume
  intro hcurrent
  refine .ite (fun _ => ?_) fun hsmall => ?_
  · exact .done fun s hs _ => ⟨⟨hs.1, hsettled s hs.2.1⟩, ifOk_error⟩
  · refine .bind ((carry_serves (current + 1) hfiles).conseq (fun s _ hs => ⟨hs.1, hsettled s hs.2.1⟩) fun _ _ _ hs => hs) (fun _ => ?_)
      fun e s _ hs => ⟨hs, ifOk_error⟩
    refine .pure fun s hs _ => ⟨hs, ifOk_ok.2 fun hlooking => ?_⟩
    exact ⟨⟨current, ifOk_ok.1 hcurrent hlooking, rfl, by omega⟩, hpassed hlooking, by simp, rfl⟩

theorem commit_serves {m : State} (hseen : Seen moment t φ m) (hφ : Guarded locks φ) (hsettled : ∀ s, φ s → Settled s)
    (batch : Batch) {prepared : Option Prepared} (hfiles : ∀ p, prepared = some p → ∀ file ∈ p.files,
      Mine locks file.path ∧ isDatabasePath file.path = true) (etags : List (String × String)) :
    serving.Runs ((sem fails kills).through moment) t
      (Knows t (.publication :: locks) false fun s => φ s ∧ Since m s) (commit host batch prepared etags)
      fun r s => Knows t (.publication :: locks) false Settled s ∧
        IfOk (fun result => Looking fails → Decided host m.disk batch prepared etags result) r := by
  refine .bind (idle_of_aside aside_assertHealthy (hφ.more.and (guarded_since m))) (fun _ => ?_)
    fun e s _ hs => ⟨⟨hs.1, hsettled s hs.2.1⟩, ifOk_error⟩
  refine .bind (Accord.Runs.search fun check _ => checkCollection_serves hφ prepared check) (fun found => ?_)
    fun e s _ hs => ⟨⟨hs.1.1, hsettled s hs.1.2.1⟩, ifOk_error⟩
  apply Accord.Runs.assume
  intro hcollections
  obtain ⟨hcollections, hconflict⟩ := ifOk_ok.1 hcollections
  cases found with
  | some r =>
    obtain ⟨check, hcheck, revision, rfl, hstale⟩ := hconflict r rfl
    refine .pure fun s hs _ => ⟨⟨hs.1, hsettled s hs.2.1⟩, ifOk_ok.2 fun hlooking => ?_⟩
    obtain ⟨hrevision, names, hnames, hdiffers⟩ := hstale hlooking
    exact ⟨hrevision, .inl ⟨check, hcheck, rfl, rfl, names, hnames, hdiffers⟩⟩
  | none =>
    refine .bind (Accord.Runs.search fun check _ => checkRead_serves hseen hφ prepared check) (fun found => ?_)
      fun e s _ hs => ⟨⟨hs.1.1, hsettled s hs.1.2.1⟩, ifOk_error⟩
    apply Accord.Runs.assume
    intro hchecks
    obtain ⟨hchecks, hconflict⟩ := ifOk_ok.1 hchecks
    cases found with
    | some r =>
      obtain ⟨check, hcheck, actual, revision, rfl, hstale⟩ := hconflict r rfl
      refine .pure fun s hs _ => ⟨⟨hs.1, hsettled s hs.2.1⟩, ifOk_ok.2 fun hlooking => ?_⟩
      obtain ⟨hrevision, hactual, hdiffers⟩ := hstale hlooking
      exact ⟨hrevision, .inr ⟨check, hcheck, rfl, hactual, hdiffers⟩⟩
    | none =>
      have hpassed : Looking fails → Passed host m.disk batch := fun hlooking =>
        ⟨fun check hcheck => hcollections rfl check hcheck hlooking,
          fun check hcheck => hchecks rfl check hcheck hlooking⟩
      cases prepared with
      | none =>
        refine .bind (revisionUnlocked_serves hφ) (fun revision => ?_)
          fun e s _ hs => ⟨⟨hs.1.1, hsettled s hs.1.2.1⟩, ifOk_error⟩
        refine .pure fun s hs _ => ⟨⟨hs.1.1, hsettled s hs.1.2.1⟩, ifOk_ok.2 fun hlooking => ?_⟩
        exact ⟨ifOk_ok.1 hs.2 hlooking, hpassed hlooking, rfl, rfl⟩
      | some prepared => exact publish_serves hφ hsettled (hfiles prepared rfl) hpassed etags

/-! ### Under the locks of the paths -/

/-- The files at the paths that a call has the locks of. -/
def Valued (locks : List Lock) (v : String → Option String) (s : State) : Prop :=
  Settled s ∧ ∀ path, Mine locks path → textAt s.disk path = v path

theorem guarded_valued {v : String → Option String} : Guarded locks (Valued locks v) := by
  rintro s s' ⟨hs, hvalues⟩ hsettled hparts
  refine ⟨hsettled hs, fun path hmine => ?_⟩
  have hpart : textAt s'.disk path = textAt s.disk path := hparts (.path path) hmine
  rw [hpart, hvalues path hmine]

/-- What was read for a request: the etag that its file has as long as the call has the lock. -/
def Looked (host : Host) (moment : State → Prop) (t : Nat) (fails : Op → State → Prop) (v : String → Option String)
    (request : Request) (found : MutationRequest × Option String) : Prop :=
  found.1 = request.toMutationRequest ∧ (Looking fails → found.2 = (v request.path).map host.contentHash ∧
    ∃ m, Seen moment t (fun _ => True) m ∧ etagAt host m.disk request.path = found.2)

theorem looked_serves (hpaths : OfPaths locks) {v : String → Option String} {request : Request}
    (hmine : Mine locks request.path) :
    serving.Runs ((sem fails kills).through moment) t (Knows t locks false (Valued locks v))
      (do
        let actual ← etag host t request.path
        pure (request.toMutationRequest, actual))
      fun r s => Knows t locks false (Valued locks v) s ∧ IfOk (Looked host moment t fails v request) r := by
  refine .bind (etag_serves hpaths guarded_valued request.path) (fun actual => ?_) fun e s _ hs => ⟨hs.1, ifOk_error⟩
  refine .pure fun s hs _ => ⟨hs.1, ifOk_ok.2 ⟨rfl, fun hlooking => ?_⟩⟩
  obtain ⟨m, hseen, hactual⟩ := ifOk_ok.1 hs.2
  have hvalue := hseen.known.2 request.path hmine
  refine ⟨?_, m, hseen.plain, (hactual hlooking).symm⟩
  rw [hactual hlooking, etagAt, hvalue]

theorem prepareChanged_gives (changed : List MutationRequest) : (prepareChanged host changed).Gives fun prepared =>
    (prepared = none → changed = []) ∧
      ∀ p, prepared = some p → changed ≠ [] ∧ p.files = changed.map (mutationOf host) := by
  unfold prepareChanged
  split
  · rename_i hnone
    exact .pure ⟨fun _ => hnone, fun p hp => by cases hp⟩
  · rename_i hsome
    have hprepare : (prepare host changed).Gives fun p => p.files = changed.map (mutationOf host) := by
      apply Prog.Gives.bind_any
      intro id
      apply Prog.Gives.bind_any
      intro _
      apply Prog.Gives.bind_any
      intro _
      apply Prog.Gives.bind_any
      intro _
      apply Prog.Gives.bind_any
      intro _
      exact .handle (.bind_any fun _ => .pure rfl) fun e => .bind_any fun _ => .fail e
    apply hprepare.bind
    intro p hp
    refine .pure ⟨fun h => (by cases h), fun q hq => ?_⟩
    obtain rfl := Option.some.inj hq
    exact ⟨hsome, hp⟩

theorem aside_prepareChanged (changed : List MutationRequest) : Aside (prepareChanged host changed) := by
  unfold prepareChanged
  split
  · trivial
  · exact .bind (aside_prepare changed) fun _ => .pure _

theorem mem_right_of_forall₂ {R : α → β → Prop} {as : List α} {bs : List β} (h : List.Forall₂ R as bs) {b : β}
    (hb : b ∈ bs) : ∃ a ∈ as, R a b := by
  induction h with
  | nil => cases hb
  | @cons a b' as bs hab _ ih =>
    rcases List.mem_cons.1 hb with rfl | hb
    · exact ⟨a, List.mem_cons_self, hab⟩
    · obtain ⟨a', ha', hab'⟩ := ih hb
      exact ⟨a', List.mem_cons_of_mem a ha', hab'⟩

theorem transact_serves (hpaths : OfPaths locks) {batch : Batch}
    (hmine : ∀ request ∈ batch.requests, Mine locks request.path ∧ isDatabasePath request.path = true) :
    serving.Runs ((sem fails kills).through moment) t (Knows t locks false Settled) (transact host t batch)
      fun r s => Knows t locks false Settled s ∧
        IfOk (fun result => Looking fails → Justified host moment t batch result) r := by
  unfold transact
  cases hvalid : validateAll batch.requests with
  | error e => exact .done fun s hs _ => ⟨hs, ifOk_error⟩
  | ok errors =>
    refine .ite (fun hinvalid => ?_) fun hnone => ?_
    · exact .pure fun s hs _ => ⟨hs, ifOk_ok.2 fun _ => ⟨hvalid, hinvalid, rfl⟩⟩
    · have hvalid : validateAll batch.requests = .ok [] := by rw [hvalid, not_not.1 hnone]
      -- The values that the files have as long as their locks are held.
      refine .fix (f := fun (s : State) (path : String) => textAt s.disk path) fun v => ?_
      have hlooks : ∀ request ∈ batch.requests,
          serving.Runs ((sem fails kills).through moment) t (Knows t locks false (Valued locks v))
            (do
              let actual ← etag host t request.path
              pure (request.toMutationRequest, actual))
            fun r s => Knows t locks false (Valued locks v) s ∧ IfOk (Looked host moment t fails v request) r :=
        fun request hrequest => looked_serves hpaths (hmine request hrequest).1
      have hstart : ∀ s, Knows t locks false Settled s ∧ (fun path => textAt s.disk path) = v →
          Knows t locks false (Valued locks v) s :=
        fun s hs => ⟨hs.1.1, hs.1.2, fun path _ => congrFun hs.2 path⟩
      refine .bind ((Accord.Runs.collected hlooks).conseq (fun s _ hs => hstart s hs) fun _ _ _ hs => hs)
        (fun current => ?_) fun e s _ hs => ⟨⟨hs.1.1, hs.1.2.1⟩, ifOk_error⟩
      apply Accord.Runs.assume
      intro hlooked
      rw [ifOk_ok] at hlooked
      split
      · rename_i request' actual hfind
        obtain ⟨request, hrequest, hsame, hactual⟩ := mem_right_of_forall₂ hlooked (List.mem_of_find?_eq_some hfind)
        obtain rfl : request' = request.toMutationRequest := hsame
        refine .bind (revision_serves hpaths guarded_valued) (fun revision => ?_)
          fun e s _ hs => ⟨⟨hs.1.1, hs.1.2.1⟩, ifOk_error⟩
        refine .pure fun s hs _ => ⟨⟨hs.1.1, hs.1.2.1⟩, ifOk_ok.2 fun hlooking => ⟨hvalid, .inl ⟨?_, ?_⟩⟩⟩
        · obtain ⟨m, hseen, hrevision⟩ := ifOk_ok.1 hs.2
          exact ⟨m, hseen.plain, hrevision hlooking⟩
        · obtain ⟨-, m, hseen, hetag⟩ := hactual hlooking
          refine ⟨m, hseen, hetag, request, hrequest, rfl, ?_⟩
          have hdiffers : request.expectedEtag.any (· != actual) = true := by
            have hfound := List.find?_some hfind
            exact hfound
          cases hexpected : request.expectedEtag with
          | none =>
            rw [hexpected] at hdiffers
            cases hdiffers
          | some e =>
            rw [hexpected] at hdiffers
            exact ⟨e, rfl, by simpa using hdiffers⟩
      · rename_i hfind
        have hmet : ∀ request ∈ batch.requests, ∃ found ∈ current, Looked host moment t fails v request found ∧
            ∀ e, request.expectedEtag = some e → e = found.2 := by
          intro request hrequest
          obtain ⟨found, hfound, hlook⟩ := mem_right_of_forall₂ hlooked.flip hrequest
          refine ⟨found, hfound, hlook, fun e he => ?_⟩
          have hnot := List.find?_eq_none.1 hfind found hfound
          obtain ⟨request', actual⟩ := found
          obtain rfl : request' = request.toMutationRequest := hlook.1
          by_contra hne
          apply hnot
          show request.expectedEtag.any (· != actual) = true
          rw [he]
          simpa using hne
        have hfiles : ∀ prepared : Option Prepared, (∀ p, prepared = some p →
            (current.filter fun x => x.1.content.map host.contentHash != x.2).map Prod.fst ≠ [] ∧ p.files =
              ((current.filter fun x => x.1.content.map host.contentHash != x.2).map Prod.fst).map (mutationOf host)) →
            ∀ p, prepared = some p → ∀ file ∈ p.files, Mine locks file.path ∧ isDatabasePath file.path = true := by
          intro prepared hprepared p hp file hfile
          rw [(hprepared p hp).2] at hfile
          obtain ⟨request', hrequest', rfl⟩ := List.mem_map.1 hfile
          obtain ⟨found, hfound, rfl⟩ := List.mem_map.1 hrequest'
          obtain ⟨request, hrequest, hsame, -⟩ := mem_right_of_forall₂ hlooked (List.mem_filter.1 hfound).1
          rw [hsame]
          exact hmine request hrequest
        refine .bind ((idle_of_aside (aside_prepareChanged _) guarded_valued).gives (prepareChanged_gives _))
          (fun prepared => ?_) fun e s _ hs => ⟨⟨hs.1.1, hs.1.2.1⟩, ifOk_error⟩
        apply Accord.Runs.assume
        intro hprepared
        obtain ⟨hunchanged, hchanged⟩ := ifOk_ok.1 hprepared
        refine publication_serves hpaths guarded_valued guarded_settled fun m hseen => ?_
        refine (commit_serves hseen guarded_valued (fun s hs => hs.1) batch (hfiles prepared hchanged) _).conseq
          (fun _ _ hs => hs) fun r s _ hr => ⟨hr.1, fun result hok hlooking => ?_⟩
        have hdecided := hr.2 result hok hlooking
        have hvalue : ∀ request ∈ batch.requests,
            etagAt host m.disk request.path = (v request.path).map host.contentHash := by
          intro request hrequest
          rw [etagAt, hseen.known.2 request.path (hmine request hrequest).1]
        have hexpected : Expected host m.disk batch := by
          intro request hrequest e he
          obtain ⟨found, -, hlook, hmatches⟩ := hmet request hrequest
          rw [hvalue request hrequest, hmatches e he, (hlook.2 hlooking).1]
        cases result with
        | invalid path errors => exact hdecided.elim
        | conflict path actual revision =>
          exact ⟨hvalid, .inr ⟨m, hseen.plain, hdecided.1, hexpected, hdecided.2⟩⟩
        | unchanged revision etags =>
          obtain ⟨hrevision, hpassed, hnothing, hetags⟩ := hdecided
          refine ⟨hvalid, ⟨m, hseen.plain, hrevision, hexpected, hpassed, fun request hrequest => ?_⟩, hetags⟩
          obtain ⟨found, hfound, hlook, -⟩ := hmet request hrequest
          have hempty := List.map_eq_nil_iff.1 (hunchanged hnothing)
          have hsame := List.filter_eq_nil_iff.1 hempty found hfound
          obtain ⟨request', actual⟩ := found
          obtain rfl : request' = request.toMutationRequest := hlook.1
          obtain rfl : actual = (v request.path).map host.contentHash := (hlook.2 hlooking).1
          rw [hvalue request hrequest]
          exact Eq.symm (by simpa using hsame)
        | written revision etags =>
          obtain ⟨⟨n, hn, hnext, hsafe⟩, hpassed, hsomething, hetags⟩ := hdecided
          refine ⟨hvalid, ⟨m, n, hseen.plain, hn, hnext, hsafe, hexpected, hpassed, ?_⟩, hetags⟩
          obtain ⟨p, hp⟩ := Option.ne_none_iff_exists'.1 hsomething
          have hne := (hchanged p hp).1
          obtain ⟨found, hfound⟩ := List.exists_mem_of_ne_nil _ fun hnil => hne (List.map_eq_nil_iff.2 hnil)
          obtain ⟨hfound, hdiffers⟩ := List.mem_filter.1 hfound
          obtain ⟨request, hrequest, hlook⟩ := mem_right_of_forall₂ hlooked hfound
          refine ⟨request, hrequest, fun heq => ?_⟩
          rw [hvalue request hrequest] at heq
          obtain ⟨request', actual⟩ := found
          obtain rfl : request' = request.toMutationRequest := hlook.1
          obtain rfl : actual = (v request.path).map host.contentHash := (hlook.2 hlooking).1
          have hcontent : request.content.map host.contentHash ≠ (v request.path).map host.contentHash := by
            simpa using hdiffers
          exact hcontent heq.symm

/-! ### Calls -/

theorem withPaths_serves {paths : List String} {body : Prog lang α} {R : Except Error α → Prop}
    (hsorted : paths.Pairwise fun p q => textLe p q = true ∧ p ≠ q) (hpaths : OfPaths locks)
    (hbefore : ∀ lock ∈ locks, ∀ path ∈ paths, lock.before (.path path))
    (hbody : ∀ locks', OfPaths locks' → (∀ path ∈ paths, Mine locks' path) → (∀ lock ∈ locks, lock ∈ locks') →
      serving.Runs ((sem fails kills).through moment) t (Knows t locks' false Settled) body
        fun r s => Knows t locks' false Settled s ∧ R r) :
    serving.Runs ((sem fails kills).through moment) t (Knows t locks false Settled) (withPaths t paths body)
      fun r s => Knows t locks false Settled s ∧ R r := by
  induction paths generalizing locks with
  | nil => exact hbody locks hpaths (by simp) fun _ h => h
  | cons path paths ih =>
    rw [List.pairwise_cons] at hsorted
    have hfirst : ∀ l ∈ locks, l.before (.path path) := fun l hl => hbefore l hl path List.mem_cons_self
    refine locked_runs Settled hfirst (fun h => (Bool.false_ne_true h).elim) guarded_settled
      (fun _ _ _ h => h) (fun _ _ _ _ h => h) guarded_settled guarded_settled ?_
    apply ih hsorted.2
    · intro l hl
      rcases List.mem_cons.1 hl with rfl | hl
      · exact ⟨path, rfl⟩
      · exact hpaths l hl
    · intro l hl q hq
      rcases List.mem_cons.1 hl with rfl | hl
      · exact hsorted.1 q hq
      · exact hbefore l hl q (List.mem_cons_of_mem _ hq)
    · intro locks' hpaths' hall hmore
      refine hbody locks' hpaths' (List.forall_mem_cons.2 ⟨hmore _ List.mem_cons_self, hall⟩) fun lock hlock => ?_
      exact hmore lock (List.mem_cons_of_mem _ hlock)

theorem writeMany_serves (batch : Batch) :
    serving.Runs ((sem fails kills).through moment) t (Knows t [] false fun _ => True) (writeMany host t batch)
      fun r s => Knows t [] false (fun _ => True) s ∧
        IfOk (fun result => Looking fails → Justified host moment t batch result) r := by
  have hnone : OfPaths [] := by
    intro l hl
    cases hl
  unfold writeMany
  cases hcheck : checkPaths batch with
  | error e => exact .done fun s hs _ => ⟨hs, ifOk_error⟩
  | ok u =>
    have hchecked : (∀ request ∈ batch.requests, isDatabasePath request.path = true) ∧
        (batch.requests.map fun r => r.path).Nodup := by
      unfold checkPaths at hcheck
      split at hcheck
      · cases hcheck
      · rename_i hfind
        split at hcheck
        · rename_i hnodup
          refine ⟨fun request hrequest => ?_, hnodup⟩
          have hnot := List.find?_eq_none.1 hfind request.path
            (List.mem_append_right _ (List.mem_map_of_mem hrequest))
          simpa using hnot
        · cases hcheck
    show serving.Runs _ _ _ (recover host t >>= fun _ =>
      withPaths t (sortTexts (batch.requests.map fun r => r.path)) (transact host t batch)) _
    refine .bind (recover_serves hnone guarded_true) (fun _ => ?_) fun e s _ hs => ⟨⟨hs.1, trivial⟩, ifOk_error⟩
    have hlocked : serving.Runs ((sem fails kills).through moment) t (Knows t [] false Settled)
        (withPaths t (sortTexts (batch.requests.map fun r => r.path)) (transact host t batch))
        fun r s => Knows t [] false Settled s ∧
          IfOk (fun result => Looking fails → Justified host moment t batch result) r := by
      apply withPaths_serves (pairwise_sortTexts hchecked.2) hnone (fun l hl => by cases hl)
      intro locks' hpaths hall _
      apply transact_serves hpaths
      intro request hrequest
      refine ⟨hall request.path ?_, hchecked.1 request hrequest⟩
      rw [sortTexts, List.mem_insertionSort]
      exact List.mem_map_of_mem hrequest
    exact hlocked.conseq (fun s _ hs => ⟨hs.1, hs.2.2⟩) fun r s _ hr => ⟨⟨hr.1.1, trivial⟩, hr.2⟩

theorem owed_of_tells {c : Call} {a : Answer} {m : State} (hseen : Seen moment t (fun _ => True) m)
    (htells : Tells host m.disk c a) (hc : ∀ batch, c ≠ .writeMany batch) : Owed host moment t c a :=
  ⟨fun _ => ⟨m, hseen, htells⟩, fun batch h => (hc batch h).elim⟩

theorem serve_serves (c : Call) :
    serving.Runs ((sem fails kills).through moment) t (Knows t [] false fun _ => True) (serve host t c)
      fun r s => Knows t [] false (fun _ => True) s ∧ IfOk (fun a => Looking fails → Owed host moment t c a) r := by
  have hnone : OfPaths [] := by
    intro l hl
    cases hl
  cases c with
  | recover =>
    refine .bind (recover_serves hnone guarded_true) (fun _ => ?_) fun e s _ hs => ⟨⟨hs.1, trivial⟩, ifOk_error⟩
    exact .pure fun s hs _ => ⟨⟨hs.1, trivial⟩, ifOk_ok.2 fun _ => ⟨fun h => h.elim, fun _ h => (by cases h)⟩⟩
  | read path =>
    refine .bind (read_serves hnone guarded_true path) (fun content => ?_) fun e s _ hs => ⟨hs.1, ifOk_error⟩
    refine .pure fun s hs _ => ⟨hs.1, ifOk_ok.2 fun hlooking => ?_⟩
    obtain ⟨m, hseen, hcontent⟩ := ifOk_ok.1 hs.2
    exact owed_of_tells hseen (congrArg Answer.text (hcontent hlooking)) (by simp)
  | etag path =>
    refine .bind (etag_serves hnone guarded_true path) (fun actual => ?_) fun e s _ hs => ⟨hs.1, ifOk_error⟩
    refine .pure fun s hs _ => ⟨hs.1, ifOk_ok.2 fun hlooking => ?_⟩
    obtain ⟨m, hseen, hactual⟩ := ifOk_ok.1 hs.2
    exact owed_of_tells hseen (congrArg Answer.etag (hactual hlooking)) (by simp)
  | revision =>
    refine .bind (revision_serves hnone guarded_true) (fun n => ?_) fun e s _ hs => ⟨hs.1, ifOk_error⟩
    refine .pure fun s hs _ => ⟨hs.1, ifOk_ok.2 fun hlooking => ?_⟩
    obtain ⟨m, hseen, hn⟩ := ifOk_ok.1 hs.2
    exact owed_of_tells hseen ⟨n, hn hlooking, rfl⟩ (by simp)
  | snapshot pre =>
    refine .bind (snapshot_serves hnone guarded_true pre) (fun a => ?_) fun e s _ hs => ⟨hs.1, ifOk_error⟩
    refine .pure fun s hs _ => ⟨hs.1, ifOk_ok.2 fun hlooking => ?_⟩
    obtain ⟨m, hseen, hsnapshot⟩ := ifOk_ok.1 hs.2
    obtain ⟨hn, depth, hfiles⟩ := hsnapshot hlooking
    exact owed_of_tells hseen ⟨a.1, a.2, depth, hn, hfiles, rfl⟩ (by simp)
  | writeMany batch =>
    refine .bind (writeMany_serves batch) (fun result => ?_) fun e s _ hs => ⟨hs.1, ifOk_error⟩
    refine .pure fun s hs _ => ⟨hs.1, ifOk_ok.2 fun hlooking => ⟨fun h => h.elim, fun batch' h => ?_⟩⟩
    obtain rfl := Call.writeMany.inj h
    exact ⟨result, rfl, ifOk_ok.1 hs.2 hlooking⟩

end ConfigRegistry.Engine
