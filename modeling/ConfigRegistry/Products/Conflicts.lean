import ConfigRegistry.Products.Commits

/-!
# Conflicts without anybody else

An operation that runs alone finds everything as it has read it. What it lists is another matter: the
snapshot goes into every directory, and the commit lists one.
-/

namespace ConfigRegistry.Products

open Js Schema Store

variable {o : ProductWriteOptions} {actor : Actor} {session : ProductMutation} {op : Operation}
  {db : Database}

/-! ### Attempts that report no conflict -/

/-- If it refuses, it is not for a conflict. -/
def Calm {α : Type} (x : Attempt α) : Prop :=
  ∀ failure, x = .error (.refusal failure) → failure.code ≠ .conflict

theorem calm_pure {α : Type} (a : α) : Calm (pure a : Attempt α) := by
  intro failure h
  cases h

theorem calm_lift {α : Type} (x : Except Error α) : Calm (lift x) := by
  intro failure h
  cases x <;> cases h

theorem calm_typeError {α : Type} : Calm (typeError : Attempt α) := by
  intro failure h
  cases h

theorem calm_refuse {α : Type} {detail : String} {code : ErrorCode} (hcode : code ≠ .conflict) :
    Calm (refuse detail code : Attempt α) := by
  intro failure h
  cases h
  exact hcode

theorem calm_refuseErrors {α : Type} {detail : String} {errors : List ValidationError} :
    Calm (refuseErrors detail errors : Attempt α) := by
  intro failure h
  cases h
  simp

theorem calm_bind {α β : Type} {x : Attempt α} {f : α → Attempt β} (hx : Calm x)
    (hf : ∀ a, x = .ok a → Calm (f a)) : Calm (x >>= f) := by
  intro failure h
  cases x with
  | error e =>
    refine hx failure ?_
    cases h
    rfl
  | ok a => exact hf a rfl failure h

theorem calm_ite {α : Type} {c : Prop} [Decidable c] {x y : Attempt α} (hx : c → Calm x)
    (hy : ¬ c → Calm y) : Calm (if c then x else y) := by
  split
  · exact hx ‹_›
  · exact hy ‹_›

/-- A guard that refuses, though not for a conflict. -/
theorem calm_guard {α : Type} {c : Prop} [Decidable c] {detail : String} {code : ErrorCode}
    {y : Attempt α} (hcode : code ≠ .conflict) (hy : ¬ c → Calm y) :
    Calm (if c then refuse detail code else y) := calm_ite (fun _ => calm_refuse hcode) hy

theorem calm_services : Calm session.services := by
  unfold ProductMutation.services
  split
  · exact calm_pure _
  · exact calm_typeError

theorem calm_find (p : Value → Bool) (services : List Value) : Calm (ProductMutation.find p services) := by
  fun_induction ProductMutation.find p services with
  | case1 => exact calm_pure _
  | case2 => exact calm_typeError
  | case3 => exact calm_pure _
  | case4 _ _ _ _ ih => exact ih

theorem calm_filter (p : Value → Bool) (services : List Value) :
    Calm (ProductMutation.filter p services) := by
  fun_induction ProductMutation.filter p services with
  | case1 => exact calm_pure _
  | case2 => exact calm_typeError
  | case3 entry rest hne ih =>
    apply calm_bind ih
    intro kept _
    exact calm_pure _

theorem calm_requireProduct : Calm session.requireProduct := by
  unfold ProductMutation.requireProduct
  apply calm_bind calm_services
  intro services _
  apply calm_bind (calm_find _ _)
  intro identity _
  split
  · exact calm_ite (fun _ => calm_pure _) fun _ => calm_refuse (by decide)
  · exact calm_refuse (by decide)

theorem calm_select (keys : List String) : Calm (session.select keys) := by
  unfold ProductMutation.select
  apply calm_guard (by decide)
  intro _
  split
  · exact calm_refuse (by decide)
  · exact calm_pure _

theorem calm_productSchema : Calm session.productSchema := by
  unfold ProductMutation.productSchema
  split
  · exact calm_refuse (by decide)
  · exact calm_lift _

theorem calm_document (environment : String) : Calm (session.document environment) := by
  unfold ProductMutation.document
  apply calm_guard (by decide)
  intro _
  split
  · exact calm_pure _
  · exact calm_lift _

theorem calm_encode (environment : String) (value : Record) (schemas : SchemaSet) :
    Calm (session.encode environment value schemas) := by
  unfold ProductMutation.encode
  apply calm_guard (by decide)
  intro _
  apply calm_bind (calm_lift _)
  intro source _
  apply calm_bind (calm_lift _)
  intro parsed _
  split
  · split
    · exact calm_refuse (by decide)
    · exact calm_pure _
  · exact calm_refuse (by decide)

theorem calm_override (next : Record) (changes : List (String × Option Value)) :
    Calm (ProductMutation.override next changes) := by
  fun_induction ProductMutation.override next changes with
  | case1 => exact calm_pure _
  | case2 => exact calm_refuse (by decide)
  | case3 _ _ _ _ _ ih => exact ih
  | case4 => exact calm_refuse (by decide)

/-- `values`, where the file is as the caller has seen it. -/
theorem calm_values {environment : String} {changes : List (String × Option Value)}
    {expectedEtag : Option (Option String)}
    (hexpected : ∀ e, expectedEtag = some e → e = session.etag (documentPath session.service environment)) :
    Calm (session.values environment changes expectedEtag) := by
  unfold ProductMutation.values
  apply calm_guard (by decide)
  intro _
  apply calm_ite
  · intro hany
    cases expectedEtag with
    | none => cases hany
    | some e =>
      rw [hexpected e rfl] at hany
      simp at hany
  intro _
  apply calm_bind (calm_document _)
  intro current _
  apply calm_bind (calm_override _ _)
  intro next _
  apply calm_ite
  · intro _
    exact calm_refuseErrors
  intro _
  apply calm_ite
  · intro _
    exact calm_pure _
  intro _
  apply calm_bind (calm_encode _ _ _)
  intro source _
  exact calm_pure _

theorem calm_newDocuments (r : CreateRequest) (schemas : SchemaSet) (environments : List String) :
    Calm (newDocuments session r schemas environments) := by
  induction environments with
  | nil => exact calm_pure _
  | cons env environments ih =>
    apply calm_bind (calm_encode _ _ _)
    intro source _
    apply calm_bind ih
    intro rest _
    exact calm_pure _

theorem calm_promoted (request : PromoteRequest) (source : Record) (keys : List String) :
    Calm (promoted request source keys) := by
  induction keys with
  | nil => exact calm_pure _
  | cons key keys ih =>
    unfold promoted
    split
    · exact calm_refuse (by decide)
    · apply calm_bind ih
      intro rest _
      exact calm_pure _

/-- `addKeys`, where the file is as the caller has seen it. -/
theorem calm_addDefaults {r : AddKeysRequest} {candidate : SchemaSet} {names : List String}
    {defaults : Record} {envs : List (String × String)}
    (hexpected : ∀ e, r.expectedEtag = some e →
      e = some (session.options.contentHash
        ((session.files.lookup (documentPath r.service r.environment)).getD ""))) :
    Calm (addDefaults session r candidate names defaults envs) := by
  induction envs with
  | nil => exact calm_pure _
  | cons f envs ih =>
    simp only [addDefaults]
    apply calm_bind (calm_document _)
    intro current _
    apply calm_ite
    · intro hany
      rw [Bool.and_eq_true] at hany
      cases he : r.expectedEtag with
      | none =>
        rw [he] at hany
        cases hany.2
      | some e =>
        rw [he, hexpected e he] at hany
        simp at hany
    intro _
    apply calm_ite
    · intro _
      exact calm_refuseErrors
    intro _
    apply calm_ite
    · intro _
      apply calm_bind (calm_encode _ _ _)
      intro source _
      apply calm_bind (calm_pure _)
      intro wrote _
      apply calm_bind ih
      intro others _
      exact calm_pure _
    · intro _
      apply calm_bind (calm_pure _)
      intro wrote _
      apply calm_bind ih
      intro others _
      exact calm_pure _

theorem calm_deleteFrom {service : String} {candidate : SchemaSet} {keys : List String}
    {envs : List (String × String)} : Calm (deleteFrom session service candidate keys envs) := by
  induction envs with
  | nil => exact calm_pure _
  | cons f envs ih =>
    simp only [deleteFrom]
    apply calm_bind (calm_document _)
    intro current _
    apply calm_guard (by decide)
    intro _
    apply calm_ite
    · intro _
      apply calm_bind (calm_encode _ _ _)
      intro source _
      apply calm_bind (calm_pure _)
      intro wrote _
      apply calm_bind ih
      intro others _
      exact calm_pure _
    · intro _
      apply calm_bind (calm_pure _)
      intro wrote _
      apply calm_bind ih
      intro others _
      exact calm_pure _

/-- What the operation was told of the files, where it was told anything, is so. -/
def Operation.Expects (o : ProductWriteOptions) (files : Files) : Operation → Prop
  | .writeValues r => ∀ e, r.expectedEtag = some e →
      e = Store.etag o.contentHash files (documentPath r.service r.environment)
  | .addKeys r => ∀ e, r.expectedEtag = some e →
      e = Store.etag o.contentHash files (documentPath r.service r.environment)
  | .deleteKeys service _ expectedBase => ∀ b, expectedBase = some b → b = productBase o files service
  | .archiveProduct service expectedBase _ => ∀ b, expectedBase = some b → b = productBase o files service
  | .createProduct _ | .setRetiring _ _ _ | .promote _ => True

theorem not_reviewedOther {files : Files} {service : String} {expectedBase : Option String}
    (hoptions : session.options = o) (hfiles : session.files = files)
    (h : ∀ b, expectedBase = some b → b = productBase o files service) :
    reviewedOther session service expectedBase = false := by
  cases expectedBase with
  | none => rfl
  | some b =>
    have hb := h b rfl
    rw [reviewedOther, hoptions, hfiles, Option.any_some, ← hb]
    exact bne_self_eq_false b

/-- An operation whose expectations hold is not refused for a conflict. -/
theorem Operation.calm {files : Files} (hopen : Opened o op.service actor files session)
    (hexpects : op.Expects o files) : Calm (op.action session) := by
  obtain ⟨rfl, hservice, -, rfl, -, -, -⟩ := id hopen
  cases op with
  | createProduct r =>
    apply calm_guard (by decide)
    intro _
    apply calm_guard (by decide)
    intro _
    apply calm_bind calm_services
    intro services _
    apply calm_bind (calm_find _ _)
    intro named _
    apply calm_guard (by decide)
    intro _
    apply calm_bind (calm_find _ _)
    intro holder _
    cases holder with
    | some holder => exact calm_refuse (by decide)
    | none =>
      apply calm_guard (by decide)
      intro _
      apply calm_guard (by decide)
      intro _
      apply calm_bind (calm_lift _)
      intro schemas _
      apply calm_ite
      · intro _
        exact calm_refuseErrors
      intro _
      apply calm_guard (by decide)
      intro _
      apply calm_bind (calm_newDocuments _ _ _)
      intro documents _
      exact calm_pure _
  | writeValues r =>
    change session.service = r.service at hservice
    apply calm_bind calm_requireProduct
    intro identity _
    exact calm_values fun e he => by rw [hservice]; exact hexpects e he
  | setRetiring service retiring force =>
    apply calm_bind calm_requireProduct
    intro identity _
    apply calm_guard (by decide)
    intro _
    apply calm_bind calm_productSchema
    intro document _
    exact calm_pure _
  | promote r =>
    apply calm_bind calm_requireProduct
    intro identity _
    apply calm_guard (by decide)
    intro _
    apply calm_bind (calm_select _)
    intro keys _
    split
    · exact calm_refuse (by decide)
    apply calm_bind (calm_document _)
    intro source _
    apply calm_bind (calm_promoted _ _ _)
    intro changes _
    apply calm_bind (calm_values (by simp))
    intro plan _
    exact calm_pure _
  | addKeys r =>
    apply calm_bind calm_requireProduct
    intro identity _
    apply calm_guard (by decide)
    intro _
    apply calm_guard (by decide)
    intro _
    split
    · exact calm_refuseErrors
    apply calm_bind (calm_lift _)
    intro parsed _
    apply calm_bind calm_productSchema
    intro document _
    apply calm_ite
    · intro _
      exact calm_refuseErrors
    intro _
    apply calm_bind (calm_lift _)
    intro candidate _
    apply calm_guard (by decide)
    intro hfile
    apply calm_bind
    · apply calm_addDefaults
      intro e he
      rw [hexpects e he, Store.etag]
      cases hlookup : session.files.lookup (documentPath r.service r.environment) with
      | none => simp [hlookup] at hfile
      | some source => rfl
    intro swept _
    exact calm_pure _
  | deleteKeys service selected expectedBase =>
    have hreviewed := not_reviewedOther rfl rfl hexpects
    apply calm_ite
    · intro h
      rw [hreviewed] at h
      cases h
    intro _
    apply calm_bind calm_requireProduct
    intro identity _
    apply calm_bind (calm_select _)
    intro keys _
    apply calm_bind calm_productSchema
    intro document _
    apply calm_bind (calm_lift _)
    intro candidate _
    apply calm_bind calm_deleteFrom
    intro swept _
    exact calm_pure _
  | archiveProduct service expectedBase force =>
    have hreviewed := not_reviewedOther rfl rfl hexpects
    apply calm_ite
    · intro h
      rw [hreviewed] at h
      cases h
    intro _
    apply calm_bind calm_requireProduct
    intro identity _
    apply calm_guard (by decide)
    intro _
    apply calm_guard (by decide)
    intro _
    apply calm_bind calm_services
    intro services _
    apply calm_bind (calm_filter _ _)
    intro kept _
    exact calm_pure _

/-! ### The commit -/

/-- On what it has read itself, a transaction meets a conflict in a directory or not at all. -/
theorem writeMany_conflict_iff {contentHash : String → String} {requests : List MutationRequest}
    {checks : List ReadPrecondition} {collections : List CollectionPrecondition}
    (hrequests : ∀ r ∈ requests, r.expectedEtag = some (Store.etag contentHash db.files r.path))
    (hchecks : ∀ check ∈ checks, check.expectedEtag = Store.etag contentHash db.files check.path) :
    (∃ path actual revision, (writeMany contentHash requests checks collections db).1 =
        .ok (.conflict path actual revision)) ↔
      (∀ path ∈ checks.map ReadPrecondition.path ++ collections.map CollectionPrecondition.path ++
        requests.map MutationRequest.path, isDatabasePath path = true) ∧
      (requests.map MutationRequest.path).Nodup ∧
      (requests.map MutationRequest.path).findSome? db.readError = none ∧
      ∃ conflict, staleCollection db collections = .ok (some conflict) := by
  have hexpected : staleRequest contentHash db requests = none := by
    refine Option.map_eq_none_iff.2 (List.find?_eq_none.2 fun r hr => ?_)
    rw [hrequests r hr]
    simp
  have hread : ∀ conflict, staleRead contentHash db checks ≠ .ok (some conflict) := by
    intro conflict h
    obtain ⟨check, hcheck, hne, -⟩ := staleRead_eq_some h
    exact hne (hchecks check hcheck)
  simp only [writeMany, hexpected]
  cases hpaths : (checks.map ReadPrecondition.path ++ collections.map CollectionPrecondition.path ++
      requests.map MutationRequest.path).find? fun path => !isDatabasePath path with
  | some path =>
    refine iff_of_false (by simp) fun h => ?_
    have := h.1 path (List.mem_of_find?_eq_some hpaths)
    have hinvalid := List.find?_some hpaths
    rw [this] at hinvalid
    cases hinvalid
  | none =>
    have hvalid : ∀ path ∈ checks.map ReadPrecondition.path ++
        collections.map CollectionPrecondition.path ++ requests.map MutationRequest.path,
        isDatabasePath path = true := by
      intro path hpath
      simpa using List.find?_eq_none.1 hpaths path hpath
    rw [and_iff_right hvalid]
    dsimp only
    by_cases hn : (requests.map MutationRequest.path).Nodup
    · rw [if_neg (not_not.2 hn), and_iff_right hn]
      cases hreadable : (requests.map MutationRequest.path).findSome? db.readError with
      | some e => exact iff_of_false (by simp) (by simp)
      | none =>
        dsimp only
        cases hcollection : staleCollection db collections with
        | error e => exact iff_of_false (by simp) (by simp)
        | ok found =>
          cases found with
          | some conflict =>
            obtain ⟨check, -, rfl⟩ := staleCollection_eq_some hcollection
            exact iff_of_true ⟨_, _, _, rfl⟩ ⟨rfl, _, rfl⟩
          | none =>
            refine iff_of_false ?_ (by simp)
            dsimp only
            split
            · simp
            · rename_i conflict h
              exact (hread conflict h).elim
            · split
              · simp
              · split <;> simp
    · rw [if_pos hn]
      exact iff_of_false (by simp) fun h => hn h.1

/-- The operation is not stopped before its commit has listed `config/<service>`: nothing refuses it,
and the paths it writes are valid and can be read. -/
structure Reaches (op : Operation) (o : ProductWriteOptions) (actor : Actor) (db : Database) : Prop where
  product : identifier op.service = true
  plan : ∃ session plan, ProductMutation.create o op.service actor db.files = .ok session ∧
    op.action session = .ok plan ∧
    (∀ path ∈ session.compared plan ++ ["config/" ++ op.service] ++ plan.writes.map MutationRequest.path,
      isDatabasePath path = true) ∧
    (plan.writes.map MutationRequest.path).Nodup ∧
    (plan.writes.map MutationRequest.path).findSome? db.readError = none
  directory : ∃ names, db.directoryNames ("config/" ++ op.service) = .ok names

/-- The YAML files below `config/<service>` are directly in it, and what is named like one is a file. -/
structure Flat (db : Database) (service : String) : Prop where
  direct : ∀ name, endsWith name ".yaml" = true →
    (db.files.lookup (configPrefix service ++ name)).isSome = true → Segment name
  files : ∀ name, Segment name → endsWith name ".yaml" = true →
    db.isDirectory (configPrefix service ++ name) = true →
    (db.files.lookup (configPrefix service ++ name)).isSome = true

theorem flat_iff {service : String} : Flat db service ↔ ∀ name, endsWith name ".yaml" = true →
    ((db.files.lookup (configPrefix service ++ name)).isSome = true ↔ Segment name ∧
      ((db.files.lookup (configPrefix service ++ name)).isSome = true ∨
        db.isDirectory (configPrefix service ++ name) = true)) := by
  constructor
  · intro h name hname
    constructor
    · intro hfile
      exact ⟨h.direct name hname hfile, .inl hfile⟩
    · rintro ⟨hsegment, hfile | hdirectory⟩
      · exact hfile
      · exact h.files name hsegment hname hdirectory
  · intro h
    constructor
    · intro name hname hfile
      exact ((h name hname).1 hfile).1
    · intro name hsegment hname hdirectory
      exact (h name hname).2 ⟨hsegment, .inr hdirectory⟩

/-- The conflict that a commit reports on what its session has read. -/
theorem commit_conflict_iff {plan : Plan} (hopen : Opened o op.service actor db.files session)
    (hplan : op.action session = .ok plan) :
    (∃ failure, (session.commit plan db).1 = .ok (.error failure)) ↔
      (∀ path ∈ session.compared plan ++ ["config/" ++ op.service] ++ plan.writes.map MutationRequest.path,
        isDatabasePath path = true) ∧
      (plan.writes.map MutationRequest.path).Nodup ∧
      (plan.writes.map MutationRequest.path).findSome? db.readError = none ∧
      (∃ names, db.directoryNames ("config/" ++ op.service) = .ok names) ∧ ¬ Flat db op.service := by
  obtain ⟨hoptions, hservice, -, hfiles, -, -, -⟩ := id hopen
  have hetag : ∀ path, session.etag path = Store.etag o.contentHash db.files path := by
    intro path
    rw [ProductMutation.etag, hoptions, hfiles]
  have hiff := @writeMany_conflict_iff db _ plan.writes
    ((session.compared plan).map fun path => { path, expectedEtag := session.etag path })
    [{ path := "config/" ++ session.service, files := session.listed }]
    (fun w hw => by rw [op.expected hservice hplan w hw, hetag])
    (fun check hcheck => by
      obtain ⟨path, -, rfl⟩ := List.mem_map.1 hcheck
      exact hetag path)
  have hpaths : ((session.compared plan).map fun path =>
      ({ path, expectedEtag := session.etag path } : ReadPrecondition)).map ReadPrecondition.path =
      session.compared plan := by
    rw [List.map_map]
    exact List.map_id _
  rw [hpaths] at hiff
  have hflat : (∀ name, endsWith name ".yaml" = true → (name ∈ session.listed ↔ Segment name ∧
      ((db.files.lookup ("config/" ++ session.service ++ "/" ++ name)).isSome = true ∨
        db.isDirectory ("config/" ++ session.service ++ "/" ++ name) = true))) ↔ Flat db op.service := by
    rw [flat_iff]
    apply forall_congr'
    intro name
    apply imp_congr_right
    intro hname
    rw [mem_listed, and_iff_right hname, hservice, hfiles]
    rfl
  have hcollection := @staleCollection_conflict db
    ⟨"config/" ++ session.service, session.listed⟩ nodup_listed
    fun name hname => (mem_listed.1 hname).1
  dsimp only at hcollection
  rw [hflat] at hcollection
  rw [hcollection] at hiff
  simp only [List.map_cons, List.map_nil, hservice] at hiff
  rw [← hiff]
  have hcommit := (@commit_of_writeMany session plan db _ _ rfl).2.1
  rw [hoptions, hservice] at hcommit
  exact hcommit

theorem failureCode_of_calm {α : Type} {x : Attempt α} {e : Thrown} {service : String} (hx : Calm x)
    (h : x = .error e) : failureCode (.error (failureOf service e)) ≠ some .conflict := by
  cases e with
  | refusal failure =>
    intro hcode
    exact hx failure h (Option.some.inj hcode)
  | error e => simp [failureCode, failureOf]

theorem calm_create {files : Files} {service : String} :
    Calm (ProductMutation.create o service actor files) := by
  unfold ProductMutation.create
  apply calm_bind (calm_lift _)
  intro schemas _
  apply calm_bind (calm_lift _)
  intro registry _
  exact calm_pure _

theorem calm_commit {plan : Plan} : Calm (session.commit plan db).1 := by
  intro failure h
  simp only [ProductMutation.commit] at h
  generalize writeMany _ _ _ _ _ = written at h
  obtain ⟨result, db'⟩ := written
  cases result with
  | error e => cases h
  | ok result => cases result <;> cases h

/-- What a commit answers on what its session has read. -/
theorem failureCode_commit {plan : Plan} {answer : Attempt Outcome} {db' : Database}
    (hopen : Opened o op.service actor db.files session) (hplan : op.action session = .ok plan)
    (h : session.commit plan db = (answer, db')) :
    (∃ failure, answer = .ok (.error failure) ∧ failure.code = .conflict) ∧
        (∀ path ∈ session.compared plan ++ ["config/" ++ op.service] ++ plan.writes.map MutationRequest.path,
          isDatabasePath path = true) ∧
        (plan.writes.map MutationRequest.path).Nodup ∧
        (plan.writes.map MutationRequest.path).findSome? db.readError = none ∧
        (∃ names, db.directoryNames ("config/" ++ op.service) = .ok names) ∧ ¬ Flat db op.service ∨
      (∀ failure, answer ≠ .ok (.error failure)) ∧
        ¬ ((∀ path ∈ session.compared plan ++ ["config/" ++ op.service] ++
            plan.writes.map MutationRequest.path, isDatabasePath path = true) ∧
          (plan.writes.map MutationRequest.path).Nodup ∧
          (plan.writes.map MutationRequest.path).findSome? db.readError = none ∧
          (∃ names, db.directoryNames ("config/" ++ op.service) = .ok names) ∧ ¬ Flat db op.service) := by
  have hiff := commit_conflict_iff hopen hplan
  have hcode := (@commit_of_writeMany session plan db _ _ rfl).2.2
  rw [h] at hiff hcode
  by_cases hfailure : ∃ failure, answer = .ok (.error failure)
  · obtain ⟨failure, hanswer⟩ := hfailure
    exact .inl ⟨⟨failure, hanswer, hcode failure hanswer⟩, hiff.1 ⟨failure, hanswer⟩⟩
  · exact .inr ⟨fun failure hanswer => hfailure ⟨failure, hanswer⟩, fun hall => hfailure (hiff.2 hall)⟩

/-- An operation that runs alone reports a conflict when its commit is reached and `config/<service>` is
not flat, and only then. -/
theorem conflict_iff (hexpects : op.Expects o db.files) :
    failureCode (op.perform o actor db).1 = some .conflict ↔
      Reaches op o actor db ∧ ¬ Flat db op.service := by
  unfold Operation.perform run
  split
  · rename_i hproduct
    refine iff_of_false (by simp [failureCode]) fun h => ?_
    rw [h.1.product] at hproduct
    cases hproduct
  rename_i hproduct
  have hproduct : identifier op.service = true := by simpa using hproduct
  cases hsession : ProductMutation.create o op.service actor db.files with
  | error e =>
    refine iff_of_false (failureCode_of_calm calm_create hsession) fun h => ?_
    obtain ⟨session, plan, hcreate, -⟩ := h.1.plan
    rw [hsession] at hcreate
    cases hcreate
  | ok session =>
    have hopen := create_eq_ok hsession
    cases hplan : op.action session with
    | error e =>
      dsimp only
      rw [hplan]
      refine iff_of_false (failureCode_of_calm (op.calm hopen hexpects) hplan) fun h => ?_
      obtain ⟨session', plan, hcreate, haction, -⟩ := h.1.plan
      rw [hsession] at hcreate
      cases hcreate
      rw [hplan] at haction
      cases haction
    | ok plan =>
      cases hcommit : session.commit plan db with
      | mk answer db' =>
        dsimp only
        rw [hplan]
        dsimp only
        rw [hcommit]
        rcases failureCode_commit hopen hplan hcommit with
          ⟨⟨failure, rfl, hcode⟩, hpaths, hn, hreadable, hdirectory, hflat⟩ | ⟨hanswer, hnot⟩
        · refine iff_of_true ?_ ⟨⟨hproduct, ⟨session, plan, hsession, hplan, hpaths, hn, hreadable⟩,
            hdirectory⟩, hflat⟩
          rw [failureCode, hcode]
        · refine iff_of_false ?_ fun h => hnot ?_
          · cases answer with
            | error e =>
              have hcalm := @calm_commit session db plan
              rw [hcommit] at hcalm
              exact failureCode_of_calm hcalm rfl
            | ok outcome =>
              cases outcome with
              | error failure => exact (hanswer failure rfl).elim
              | ok result =>
                dsimp only
                split <;> simp [failureCode, failureOf]
          · obtain ⟨session', plan', hcreate, haction, hpaths, hn, hreadable⟩ := h.1.plan
            rw [hsession] at hcreate
            cases hcreate
            rw [hplan] at haction
            cases haction
            exact ⟨hpaths, hn, hreadable, h.1.directory, h.2⟩

/-- The registry with the product, and an old document kept in a directory of its own. -/
def nestedRegistry : Database :=
  { webRegistry with
    files := webRegistry.files.insert "config/web/old/dev.yaml"
      (jsonRuntime.stringifyYaml (.obj [("COUNT", .num (.fin 2)), ("version", .num (.fin 1))])) }

def retireWeb : Operation := .setRetiring "web" true false

end ConfigRegistry.Products
