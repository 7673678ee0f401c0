import ConfigRegistry.Async.Accord
import ConfigRegistry.Js.Codec
import ConfigRegistry.Schema.SchemaWrites

/-!
# Saved schemas fit

A save validates the config documents that it has listed, and writes `schema.yaml` whatever they have
become since. This file shows that a saved schema fits the stored documents in the runs in which none
of them is created or changed in between, and gives a run in which one is.
-/

namespace ConfigRegistry.Schema

open Js Async Store

/-! ### What a save is to establish -/

section

variable (rt : Runtime) (decrypt : String → String → Except Error String)

/-- A document resolves, and its values validate. -/
def FitsDocument (schema : SchemaSet) (file : String × String) : Prop :=
  ∃ config, ResolvesTo decrypt rt.parseYaml file (file.1, config) ∧
    schema.validate (splitNamespace file.1).1 rt config = []

/-- Every config document of the files fits. -/
def FitsStored (schema : SchemaSet) (files : Files) : Prop :=
  ∀ path source ns, startsWith path "config/" = true → files.lookup path = some source →
    namespaceOf path = some ns → FitsDocument rt decrypt schema (ns, source)

/-- `schema.yaml` of a revision is this text, and what it denotes fits the documents of that
revision. -/
structure SavedFits (s : State) (source : String) (revision : Nat) : Prop where
  known : revision ≤ s.db.revision
  stored : (s.at_ revision).lookup "schema.yaml" = some source
  fits : ∃ schema, SchemaSet.fromDocument rt source = .ok schema ∧
    FitsStored rt decrypt schema (s.at_ revision)

end

variable {rt : Runtime} {contentHash : String → String} {decrypt : String → String → Except Error String}

/-! ### Writes -/

/-- The write would put this text in place of another one. -/
structure State.Writes (contentHash : String → String) (s : State) (source : String)
    (expectedEtag : Option String) : Prop where
  other : etag contentHash s.db.files "schema.yaml" ≠ some (contentHash source)
  expected : ∀ e, expectedEtag = some e → etag contentHash s.db.files "schema.yaml" = some e

/-- A later state, with the same files at the revisions before. -/
structure Later (s s' : State) : Prop where
  revision : s.db.revision ≤ s'.db.revision
  at_ : ∀ a, a ≤ s.db.revision → s'.at_ a = s.at_ a

/-- Saves fit now and later. -/
def accord : Accord lang where
  inv := Started
  rely _ := Later
  fresh _ _ := True
  rely_refl _ _ := ⟨Nat.le_refl _, fun _ _ => rfl⟩
  rely_trans _ _ _ _ h h' := ⟨Nat.le_trans h.revision h'.revision,
    fun a ha => (h'.at_ a (Nat.le_trans ha h.revision)).trans (h.at_ a ha)⟩
  fresh_rely _ _ _ h _ := h

theorem SavedFits.later {s s' : State} {source : String} {revision : Nat}
    (h : SavedFits rt decrypt s source revision) (hl : Later s s') :
    SavedFits rt decrypt s' source revision := by
  refine ⟨Nat.le_trans h.known hl.revision, ?_, ?_⟩
  · rw [hl.at_ _ h.known]
    exact h.stored
  · rw [hl.at_ _ h.known]
    exact h.fits

variable {t : Nat}

theorem keeps_commit {s : State} {db : Database} (h : Started s)
    (hdb : db = s.db ∨ db.revision = s.db.revision + 1) : accord.Keeps t s (s.commit db) := by
  have hlater : Later s (s.commit db) := by
    rcases hdb with rfl | hdb
    · refine ⟨Nat.le_refl _, fun a _ => ?_⟩
      rw [State.commit, ← show s.at_ s.db.revision = s.db.files from h, Function.update_eq_self]
    · refine ⟨by rw [State.commit, hdb]; omega, fun a ha => ?_⟩
      exact Function.update_of_ne (by omega) _ _
  exact ⟨Function.update_self _ _ _, fun _ _ => hlater⟩

theorem revision_of_writeMany (requests : List MutationRequest) (db : Database) :
    (writeMany contentHash requests [] [] db).2 = db ∨
      (writeMany contentHash requests [] [] db).2.revision = db.revision + 1 := by
  cases hwrite : writeMany contentHash requests [] [] db with
  | mk r db' =>
    rcases writeMany_publishes hwrite with ⟨hdb, -⟩ | ⟨-, -, -, hdb⟩
    · exact .inl hdb
    · rw [hdb]
      exact .inr rfl

theorem keeps_write {s : State} (h : Started s) (source : String) (expectedEtag : Option String) :
    accord.Keeps t s (s.write contentHash source expectedEtag).2 := by
  have hrevision : (writeMany contentHash [schemaRequest source expectedEtag] [] [] s.db).2 = s.db ∨ _ :=
    revision_of_writeMany [schemaRequest source expectedEtag] s.db
  unfold State.write
  split
  · exact .refl h
  · rename_i result db hwrite
    rw [hwrite] at hrevision
    exact keeps_commit h hrevision

/-- A write that was published: its condition held, and it put in `schema.yaml` alone. -/
theorem written_of_write {s s' : State} {source : String} {expectedEtag : Option String}
    {revision : Nat} {etag' : String}
    (h : (.ok (.written revision etag'), s') = s.write contentHash source expectedEtag) :
    s.Writes contentHash source expectedEtag ∧ s'.db.revision = revision ∧
      s'.at_ revision = s.db.files.insert "schema.yaml" source := by
  unfold State.write at h
  split at h
  · cases h
  · rename_i result db hwrite
    rcases writeMany_publishes hwrite with ⟨-, hnot⟩ | ⟨hok, hexpected, hchanged, hdb⟩
    · cases result with
      | written n => exact (hnot n rfl).elim
      | unchanged n => cases h
      | conflict path actual n => cases h
    · cases hok
      cases h
      have hother : etag contentHash s.db.files "schema.yaml" ≠ some (contentHash source) := by
        intro hsame
        refine hchanged (List.filter_eq_nil_iff.2 fun r hr => ?_)
        cases List.mem_singleton.1 hr
        dsimp only [schemaRequest]
        rw [hsame, Option.map_some, bne_self_eq_false]
        exact Bool.false_ne_true
      have hone : changedRequests contentHash s.db [schemaRequest source expectedEtag] =
          [schemaRequest source expectedEtag] := by
        refine List.filter_eq_self.2 fun r hr => ?_
        cases List.mem_singleton.1 hr
        exact bne_iff_ne.2 hother.symm
      refine ⟨⟨hother, fun e he => ?_⟩, ?_, ?_⟩
      · have hfound := List.find?_eq_none.1 (Option.map_eq_none_iff.1 hexpected) _ (List.mem_singleton.2 rfl)
        simp only [schemaRequest, he, Option.map_some, Option.any_some, bne_iff_ne, ne_eq, not_not] at hfound
        exact hfound.symm
      · rw [hdb]
        rfl
      · rw [hdb, hone]
        exact Function.update_self _ _ _

/-! ### The condition -/

/-- Every stored config document is one that the save has listed, with the text it had. -/
def State.Undisturbed (s : State) (listing : List (String × String)) : Prop :=
  ∀ path source, startsWith path "config/" = true → namespaceOf path ≠ none →
    s.db.files.lookup path = some source → (path, source) ∈ listing

section

variable (rt contentHash decrypt)

/-- The condition on steps: when a save puts another text in `schema.yaml`, no config document has
been created or changed since it listed them. -/
def semUndisturbed : Sem lang :=
  { sem contentHash decrypt with
    step o s r s' := o.answers contentHash decrypt s r s' ∧
      ∀ source expectedEtag listing, o = .write source expectedEtag listing →
        s.Writes contentHash source expectedEtag → s.Undisturbed listing }

/-- The service in the runs that meet the condition. -/
def serviceUndisturbed : System lang Request (Option SchemaWriteResult) :=
  { service rt contentHash decrypt with sem := semUndisturbed contentHash decrypt }

end

theorem sem_lasting : (semUndisturbed contentHash decrypt).Lasting := ⟨fun _ _ _ h => h, fun _ _ h => h⟩

theorem stable_true : accord.Stable t fun _ => True := fun _ _ _ _ _ => trivial

/-! ### The dry run -/

/-- An operation that only reads. -/
theorem read_runs {o : Op} {φ : o.Res → Prop}
    (h : ∀ s r s', o.answers contentHash decrypt s r s' → s' = s ∧ ∀ a, r = .ok a → φ a) :
    accord.Runs (semUndisturbed contentHash decrypt) t (fun _ => True) (Prog.op (S := lang) o)
      fun r _ => ∀ a, r = .ok a → φ a := by
  refine .op sem_lasting stable_true (fun r => .const _) (fun _ _ _ => trivial) ?_
  intro s r s' _ hi hs
  obtain ⟨rfl, ha⟩ := h s r s' hs.1
  exact ⟨.refl hi, ha⟩

theorem resolveOne_runs (ns source : String) :
    accord.Runs (semUndisturbed contentHash decrypt) t (fun _ => True) (resolveOne rt ns source)
      fun r _ => ∀ config, r = .ok config → ResolvesTo decrypt rt.parseYaml (ns, source) (ns, config) := by
  refine .bind (R := fun r _ => ∀ plaintext, r = .ok plaintext →
    decrypt (configPath ns) source = .ok plaintext) (read_runs fun s r s' h => ⟨h.2, h.1⟩)
    (fun plaintext => .done fun s h _ config hconfig => ?_) fun e s _ _ config hconfig => ?_
  · exact ⟨rfl, plaintext, h plaintext rfl, hconfig⟩
  · cases hconfig

/-- A document without complaints fits. -/
theorem dryRunOne_runs (schema : SchemaSet) (file : String × String) :
    accord.Runs (semUndisturbed contentHash decrypt) t (fun _ => True) (dryRunOne rt schema file)
      (Accord.Returned fun errors _ => errors = [] → FitsDocument rt decrypt schema file) := by
  refine .handle (R := fun r _ => ∀ errors, r = .ok errors → errors = [] →
    FitsDocument rt decrypt schema file) ?_ (fun errors s _ h => h errors rfl)
    fun e => .pure fun s _ _ hnone => ?_
  · refine .bind (resolveOne_runs file.1 file.2) (fun config => .pure fun s h _ errors herrors hnone => ?_)
      fun e s _ _ errors herrors => ?_
    · cases herrors
      exact ⟨config, h config rfl, List.map_eq_nil_iff.1 hnone⟩
    · cases herrors
  · cases hnone

theorem fits_of_flatten {schema : SchemaSet} {sources : List (String × String)}
    {errors : List (List ValidationError)}
    (h : List.Forall₂ (fun file errors => errors = [] → FitsDocument rt decrypt schema file) sources errors)
    (hnone : errors.flatten = []) : ∀ file ∈ sources, FitsDocument rt decrypt schema file := by
  induction h with
  | nil =>
    intro file hfile
    cases hfile
  | cons hfile _ ih =>
    rw [List.flatten_cons, List.append_eq_nil_iff] at hnone
    intro file hmem
    rcases List.mem_cons.1 hmem with rfl | hmem
    · exact hfile hnone.1
    · exact ih hnone.2 file hmem

/-- Documents without complaints fit. -/
theorem validateExisting_runs (schema : SchemaSet) (sources : List (String × String)) :
    accord.Runs (semUndisturbed contentHash decrypt) t (fun _ => True)
      (validateExisting rt schema sources)
      (Accord.Returned fun errors _ => errors = [] →
        ∀ file ∈ sources, FitsDocument rt decrypt schema file) := by
  refine .bind_returns (Accord.Runs.collect (R := fun file errors => errors = [] →
    FitsDocument rt decrypt schema file) (fun file => (dryRunOne_runs schema file).conseq
      (fun _ _ h => h) fun r s _ h => ?_) sources) fun errors => .pure fun s h _ hnone => ?_
  · cases r with
    | ok errors => exact ⟨trivial, h⟩
    | error e => exact h
  · exact fits_of_flatten h.2 hnone

/-! ### Saves -/

/-- A save that was answered as written fits. -/
def Ended (rt : Runtime) (decrypt : String → String → Except Error String) (c : Request)
    (r : Except Error (Option SchemaWriteResult)) (s : State) : Prop :=
  ∀ source expectedEtag revision etag', c = .save source expectedEtag →
    r = .ok (some (.written revision etag')) → SavedFits rt decrypt s source revision

theorem stable_ended (c : Request) (r : Except Error (Option SchemaWriteResult)) :
    accord.Stable t (Ended rt decrypt c r) :=
  fun _ _ h hr _ source expectedEtag revision etag' hc hok =>
    (h source expectedEtag revision etag' hc hok).later hr

/-- Documents that fit as they were listed fit as they are stored when nothing disturbed them. -/
theorem fitsStored_of_undisturbed {schema : SchemaSet} {s : State} {listing : List (String × String)}
    (h : ∀ file ∈ configSources listing, FitsDocument rt decrypt schema file)
    (hs : s.Undisturbed listing) (source : String) :
    FitsStored rt decrypt schema (s.db.files.insert "schema.yaml" source) := by
  intro path text ns hpath hlookup hns
  have hne : path ≠ "schema.yaml" := by
    rintro rfl
    exact absurd hpath (by decide)
  rw [AList.lookup_insert_ne hne] at hlookup
  have hmem := hs path text hpath (by rw [hns]; exact Option.some_ne_none ns) hlookup
  exact h _ (List.mem_filterMap.2 ⟨(path, text), hmem, by dsimp only; rw [hns]; rfl⟩)

theorem write_runs {schema : SchemaSet} {source : String} (hparsed : SchemaSet.fromDocument rt source = .ok schema)
    (expectedEtag : Option String) {listing : List (String × String)}
    (h : ∀ file ∈ configSources listing, FitsDocument rt decrypt schema file) :
    accord.Runs (semUndisturbed contentHash decrypt) t (fun _ => True)
      (Prog.op (S := lang) (.write source expectedEtag listing)) fun r s =>
        ∀ revision etag', r = .ok (.written revision etag') → SavedFits rt decrypt s source revision := by
  refine .op sem_lasting stable_true (fun r s s' hfits hl _ revision etag' hr =>
    (hfits revision etag' hr).later hl) (fun _ _ _ => trivial) fun s r s' _ hi hs => ?_
  obtain ⟨hs, hcond⟩ := hs
  have hkeeps : accord.Keeps t s s' := by
    rcases hs with hs | ⟨-, rfl | rfl⟩
    · rw [show s' = (s.write contentHash source expectedEtag).2 by rw [← hs]]
      exact keeps_write hi source expectedEtag
    · exact .refl hi
    · exact keeps_write hi source expectedEtag
  refine ⟨hkeeps, fun revision etag' hr => ?_⟩
  subst hr
  have hwrite : (.ok (.written revision etag'), s') = s.write contentHash source expectedEtag :=
    hs.resolve_right fun hfailed => by cases hfailed.1
  obtain ⟨hwrites, hrevision, hfiles⟩ := written_of_write hwrite
  have hundisturbed := hcond source expectedEtag listing rfl hwrites
  refine ⟨Nat.le_of_eq hrevision.symm, ?_, schema, hparsed, ?_⟩
  · rw [hfiles]
    exact AList.lookup_insert _
  · rw [hfiles]
    exact fitsStored_of_undisturbed h hundisturbed source

theorem save_runs (source : String) (expectedEtag : Option String) :
    accord.Runs (semUndisturbed contentHash decrypt) t (fun _ => True) (save rt source expectedEtag)
      fun r s => ∀ revision etag', r = .ok (.written revision etag') →
        SavedFits rt decrypt s source revision := by
  have hinvalid (errors : List ValidationError) :
      accord.Runs (semUndisturbed contentHash decrypt) t (fun _ => True)
        (pure (.invalid errors) : Prog lang SchemaWriteResult) fun r s => ∀ revision etag',
          r = .ok (.written revision etag') → SavedFits rt decrypt s source revision := by
    refine .pure fun s _ _ revision etag' hr => ?_
    cases hr
  unfold save
  split
  · exact hinvalid _
  · rename_i schema hparsed
    have hread : accord.Runs (semUndisturbed contentHash decrypt) t (fun _ => True)
        (Prog.op (S := lang) .readAll) fun r _ => ∀ listing, r = .ok listing → True :=
      read_runs fun s r s' h => ⟨h.2, fun _ _ => trivial⟩
    refine .bind hread (fun listing => ?_) fun e s _ _ revision etag' hr => by cases hr
    refine .bind_returns ((validateExisting_runs schema (configSources listing)).conseq
      (fun _ _ _ => trivial) fun _ _ _ h => h) fun errors => ?_
    refine .ite (fun hnone => ?_) fun _ => (hinvalid errors).conseq (fun _ _ _ => trivial) fun _ _ _ h => h
    exact fun x hx hi => write_runs hparsed expectedEtag (hx (List.isEmpty_iff.1 hnone)) x trivial hi

theorem serve_runs (c : Request) :
    accord.Runs (semUndisturbed contentHash decrypt) t (fun _ => True) (serve rt c)
      (Ended rt decrypt c) := by
  cases c with
  | save source expectedEtag =>
    refine .bind (save_runs source expectedEtag) (fun result => .pure fun s h _ => ?_) fun e s _ _ => ?_
    · intro source' expectedEtag' revision etag' hc hok
      cases hc
      cases hok
      exact h revision etag' rfl
    · intro source' expectedEtag' revision etag' _ hok
      cases hok
  | transaction requests =>
    refine .bind (R := fun _ _ => True) (.op sem_lasting stable_true (fun _ => stable_true)
      (fun _ _ _ => trivial) fun s r s' _ hi hs => ⟨?_, trivial⟩) (fun _ => .pure fun s _ _ => ?_)
      fun e s _ _ => ?_
    · rcases hs.1 with rfl | rfl
      · exact .refl hi
      · exact keeps_commit hi (revision_of_writeMany requests s.db)
    · intro source expectedEtag revision etag' hc
      cases hc
    · intro source expectedEtag revision etag' hc
      cases hc

/-- **A saved schema fits the stored data** in the runs in which no config document is created or
changed between the listing and the write of a save. -/
theorem saved_schema_fits {rt : Runtime} {contentHash : String → String}
    {decrypt : String → String → Except Error String} {p : Pool lang Request (Option SchemaWriteResult)}
    (h : Reach (serviceUndisturbed rt contentHash decrypt) Started p) {t : Nat} {source : String}
    {expectedEtag : Option String} {revision : Nat} {etag' : String}
    (hanswer : p.Answered t (.save source expectedEtag) (.ok (some (.written revision etag')))) :
    SavedFits rt decrypt p.state source revision := by
  have hserve (p' : Pool lang Request (Option SchemaWriteResult)) (c : Request)
      (_ : (serviceUndisturbed rt contentHash decrypt).mayArrive p' c) :
      accord.Runs (semUndisturbed contentHash decrypt) p'.threads.length
        (fun s => accord.fresh p'.threads.length s ∧ s = p'.state) (serve rt c) (Ended rt decrypt c) :=
    (serve_runs c).conseq (fun _ _ _ => trivial) fun _ _ _ hs => hs
  obtain ⟨-, hended⟩ := Accord.holds (A := accord) sem_lasting (fun _ c r => stable_ended c r) hserve
    (fun s hs => ⟨hs, fun _ => trivial⟩) h
  exact hended t _ _ hanswer source expectedEtag revision etag' rfl rfl

/-! ### Runs -/

/-- The config documents, in the order of the files. -/
def listed (files : Files) : List (String × String) :=
  files.entries.filterMap fun file =>
    if startsWith file.1 "config/" then some (file.1, file.2) else none

theorem listing_listed (files : Files) : Listing files "config" (listed files) := by
  intro path source
  rw [listed, List.mem_filterMap]
  constructor
  · rintro ⟨⟨path', source'⟩, hmem, hfile⟩
    split at hfile
    · cases hfile
      exact ⟨‹_›, AList.mem_lookup_iff.2 hmem⟩
    · cases hfile
  · rintro ⟨hpath, hlookup⟩
    have hpath' : startsWith path "config/" = true := hpath
    exact ⟨⟨path, source⟩, AList.mem_lookup_iff.1 hlookup, if_pos hpath'⟩

/-- The operations succeed. -/
def perform (contentHash : String → String) (decrypt : String → String → Except Error String) :
    (o : Op) → State → Option (Except Error o.Res × State)
  | .readAll, s => some (.ok (listed s.db.files), s)
  | .decrypt path source, s => some (decrypt path source, s)
  | .write source expectedEtag _, s => some (s.write contentHash source expectedEtag)
  | .transaction requests, s => some (.ok (), s.commit (writeMany contentHash requests [] [] s.db).2)

theorem answers_of_perform {o : Op} {s s' : State} {r : Except Error o.Res}
    (h : perform contentHash decrypt o s = some (r, s')) : o.answers contentHash decrypt s r s' := by
  cases o with
  | readAll =>
    cases h
    refine ⟨fun listing hlisting => ?_, rfl⟩
    cases hlisting
    exact listing_listed s.db.files
  | decrypt path source =>
    cases h
    exact ⟨fun _ h => h, rfl⟩
  | write source expectedEtag listing => exact .inl (Option.some.inj h).symm
  | transaction requests =>
    cases h
    exact .inr rfl

/-- The service on a schedule; undisturbed if a save finds the documents that it has listed. -/
def serviceDriver (rt : Runtime) (contentHash : String → String)
    (decrypt : String → String → Except Error String) (undisturbed : Bool) :
    Driver lang Request (Option SchemaWriteResult) Unit where
  body _ c := serve rt c
  perform _ o s :=
    match o with
    | .write source expectedEtag listing =>
      if undisturbed && listed s.db.files != listing then none
      else perform contentHash decrypt (.write source expectedEtag listing) s
    | .readAll => perform contentHash decrypt .readAll s
    | .decrypt path source => perform contentHash decrypt (.decrypt path source) s
    | .transaction requests => perform contentHash decrypt (.transaction requests) s

theorem answers_of_driver {undisturbed : Bool} {c : Unit} {o : Op} {s s' : State}
    {r : Except Error o.Res}
    (h : (serviceDriver rt contentHash decrypt undisturbed).perform c o s = some (r, s')) :
    o.answers contentHash decrypt s r s' ∧ (undisturbed = true → ∀ source expectedEtag listing,
      o = .write source expectedEtag listing → s.Undisturbed listing) := by
  cases o with
  | write source expectedEtag listing =>
    simp only [serviceDriver] at h
    split at h
    · cases h
    · rename_i hsame
      refine ⟨answers_of_perform h, fun hundisturbed source' expectedEtag' listing' ho => ?_⟩
      cases ho
      simp only [hundisturbed, Bool.true_and, bne_iff_ne, ne_eq, not_not] at hsame
      intro path text hpath _ hlookup
      exact hsame ▸ (listing_listed s.db.files path text).2 ⟨hpath, hlookup⟩
  | readAll | decrypt _ _ | transaction _ =>
    refine ⟨answers_of_perform h, fun _ source' expectedEtag' listing' ho => ?_⟩
    cases ho

theorem serviceDriver_follows (rt : Runtime) (contentHash : String → String)
    (decrypt : String → String → Except Error String) :
    (serviceDriver rt contentHash decrypt false).Follows (service rt contentHash decrypt) where
  body := rfl
  allow _ _ _ := trivial
  allowArrive _ _ _ := trivial
  step _ _ _ _ _ h := (answers_of_driver h).1
  cut _ _ _ _ h := by cases h
  crash _ _ h := by cases h

theorem serviceUndisturbedDriver_follows (rt : Runtime) (contentHash : String → String)
    (decrypt : String → String → Except Error String) :
    (serviceDriver rt contentHash decrypt true).Follows
      (serviceUndisturbed rt contentHash decrypt) where
  body := rfl
  allow _ _ _ := trivial
  allowArrive _ _ _ := trivial
  step _ _ _ _ _ h := ⟨(answers_of_driver h).1,
    fun source expectedEtag listing ho _ => (answers_of_driver h).2 rfl source expectedEtag listing ho⟩
  cut _ _ _ _ h := by cases h
  crash _ _ h := by cases h

/-- A schema with one text key for one product. -/
def apiKeySchema : String := jsonRuntime.stringifyYaml (.obj [("version", .num (.fin 1)),
  ("services", .obj [("payments", .obj [("keys", .obj [("apiKey", .obj [("type", .str "string")])])])])])

/-- A config document of the product with one key. -/
def configWith (key : String) : String := jsonRuntime.stringifyYaml (.obj [(key, .str "first")])

/-- Documents are stored as they are. -/
def unsealed (_ source : String) : Except Error String := .ok source

def stateWith (files : Files) : State where
  db := { files, revision := 0 }
  at_ _ := files

theorem started_stateWith (files : Files) : Started (stateWith files) := rfl

/-- A save that finds a document, validates it and writes. -/
def undisturbedSave : Pool lang Request (Option SchemaWriteResult) :=
  (serviceDriver jsonRuntime id unsealed true).drive
    ⟨stateWith ((∅ : Files).insert "config/payments/prod.yaml" (configWith "apiKey")), []⟩
    [.arrive (.save apiKeySchema none), .run 0 (), .run 0 (), .run 0 ()]

/-- The save is written, and fits. -/
theorem saved_schema_fits_undisturbed :
    undisturbedSave.Answered 0 (.save apiKeySchema none) (.ok (some (.written 1 apiKeySchema))) ∧
      SavedFits jsonRuntime unsealed undisturbedSave.state apiKeySchema 1 := by
  have hreach : Reach (serviceUndisturbed jsonRuntime id unsealed) Started undisturbedSave :=
    Driver.drive_reach (serviceUndisturbedDriver_follows jsonRuntime id unsealed)
      (started_stateWith _) _
  have hwritten : undisturbedSave.Answered 0 (.save apiKeySchema none)
      (.ok (some (.written 1 apiKeySchema))) := by decide +kernel
  exact ⟨hwritten, saved_schema_fits hreach hwritten⟩

/-- A document with an unknown key is created after a save has listed the documents. -/
def disturbedSave : Pool lang Request (Option SchemaWriteResult) :=
  (serviceDriver jsonRuntime id unsealed false).drive ⟨stateWith ∅, []⟩
    [.arrive (.save apiKeySchema none), .run 0 (),
      .arrive (.transaction [⟨"config/payments/prod.yaml", some (configWith "retries"), none, "alice",
        ["retries"]⟩]), .run 1 (), .run 0 ()]

/-- The save is written, and the document does not validate. -/
theorem saved_schema_misfits :
    ¬ ∀ p, Reach (service jsonRuntime id unsealed) Started p →
      ∀ t source expectedEtag revision etag', p.Answered t (.save source expectedEtag)
        (.ok (some (.written revision etag'))) → SavedFits jsonRuntime unsealed p.state source revision := by
  intro h
  have hreach : Reach (service jsonRuntime id unsealed) Started disturbedSave :=
    Driver.drive_reach (serviceDriver_follows jsonRuntime id unsealed) (started_stateWith _) _
  have hwritten : disturbedSave.Answered 0 (.save apiKeySchema none)
      (.ok (some (.written 2 apiKeySchema))) := by decide +kernel
  obtain ⟨schema, hschema, hfits⟩ := (h _ hreach 0 _ _ _ _ hwritten).fits
  have hstored : (disturbedSave.state.at_ 2).lookup "config/payments/prod.yaml" =
      some (configWith "retries") := by decide +kernel
  obtain ⟨config, ⟨-, plaintext, hplaintext, hconfig⟩, hvalid⟩ :=
    hfits _ _ "payments/prod" (by decide) hstored (by decide +kernel)
  cases hplaintext
  have hinvalid : ((SchemaSet.fromDocument jsonRuntime apiKeySchema).toOption.bind fun schema =>
      (parseConfig jsonRuntime.parseYaml (configPath "payments/prod") (configWith "retries")).toOption.map
        fun config => (schema.validate "payments" jsonRuntime config).isEmpty) = some false := by
    decide +kernel
  rw [hschema, hconfig] at hinvalid
  simp only [Except.toOption, Option.bind_some, Option.map_some, Option.some.injEq] at hinvalid
  rw [show (splitNamespace "payments/prod").1 = "payments" by decide +kernel] at hvalid
  rw [hvalid] at hinvalid
  cases hinvalid

end ConfigRegistry.Schema
