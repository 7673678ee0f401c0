import ConfigRegistry.Products.Versioning

/-!
# Being overtaken

An operation that writes values names what it was decided on, also where it writes nothing. If any of it
has changed when it commits, it reports a conflict.
-/

namespace ConfigRegistry.Products

open Js Schema Store

variable {o : ProductWriteOptions} {actor : Actor} {session : ProductMutation}

/-! ### The paths of such an operation -/

instance : DecidablePred Segment := fun name => inferInstanceAs (Decidable ('/' ∉ name.toList))

/-- Segments that are not empty and do not begin with a dot make a path of the database. -/
theorem isDatabasePath_of_segments {path : String} {segments : List String} (hne : segments ≠ [])
    (hpath : path.toList = ['/'].intercalate (segments.map String.toList))
    (hsegments : ∀ s ∈ segments, Segment s ∧ s ≠ "" ∧ s.toList.head? ≠ some '.') : isDatabasePath path = true := by
  have hparts : path.toList.splitOn '/' = segments.map String.toList := by
    rw [hpath]
    apply List.splitOn_intercalate
    · intro part hpart
      obtain ⟨s, hs, rfl⟩ := List.mem_map.1 hpart
      exact (hsegments s hs).1
    · simpa using hne
  have hnonempty : path ≠ "" := by
    rintro rfl
    have hlist : "".toList.splitOn '/' = [[]] := by decide
    rw [hlist] at hparts
    cases segments with
    | nil => exact hne rfl
    | cons s rest =>
      obtain ⟨hs, -⟩ := List.cons.inj hparts
      exact (hsegments s List.mem_cons_self).2.1 (String.toList_inj.1 hs.symm)
  simp only [isDatabasePath, hparts, Bool.and_eq_true, bne_iff_ne, List.all_eq_true]
  refine ⟨⟨hnonempty, fun part hpart => ?_⟩, fun part hpart => ?_⟩
  · obtain ⟨s, hs, rfl⟩ := List.mem_map.1 (List.dropLast_subset _ hpart)
    have hs := (hsegments s hs).2.1
    simpa [String.toList_eq_nil_iff] using hs
  · obtain ⟨s, hs, rfl⟩ := List.mem_map.1 hpart
    exact (hsegments s hs).2.2

/-- An identifier, with an extension or without, is a segment of a path. -/
theorem segment_of_extended {name : String} (h : identifier name = true) {extension : String}
    (hextension : Segment extension) : Segment (name ++ extension) ∧ name ++ extension ≠ "" ∧
      (name ++ extension).toList.head? ≠ some '.' := by
  have hname := segment_of_identifier h
  rw [identifier] at h
  split at h
  · cases h
  · rename_i c cs hlist
    rw [Bool.and_eq_true] at h
    have happend : (name ++ extension).toList = c :: (cs ++ extension.toList) := by
      rw [String.toList_append, hlist, List.cons_append]
    refine ⟨?_, ?_, ?_⟩
    · unfold Segment at hname hextension ⊢
      rw [String.toList_append, List.mem_append, not_or]
      exact ⟨hname, hextension⟩
    · intro hempty
      rw [hempty] at happend
      cases happend
    · rw [happend, List.head?_cons]
      intro hdot
      cases hdot
      exact absurd h.1 (by decide)

theorem plain_of_identifier {name : String} (h : identifier name = true) :
    Segment name ∧ name ≠ "" ∧ name.toList.head? ≠ some '.' := by
  have := segment_of_extended h (show Segment "" by decide)
  rwa [String.append_empty] at this

theorem isDatabasePath_directory {service : String} (h : identifier service = true) :
    isDatabasePath ("config/" ++ service) = true := by
  apply isDatabasePath_of_segments (show ["config", service] ≠ [] by simp)
  · simp [List.intercalate]
  · simp only [List.forall_mem_cons, List.not_mem_nil, false_imp_iff, implies_true, and_true]
    exact ⟨by decide, plain_of_identifier h⟩

theorem isDatabasePath_schemaPath {service : String} (h : identifier service = true) :
    isDatabasePath (schemaPath service) = true := by
  apply isDatabasePath_of_segments (show ["schema", service ++ ".yaml"] ≠ [] by simp)
  · simp [schemaPath, List.intercalate]
  · simp only [List.forall_mem_cons, List.not_mem_nil, false_imp_iff, implies_true, and_true]
    exact ⟨by decide, segment_of_extended h (by decide)⟩

theorem isDatabasePath_documentPath {service environment : String} (hservice : identifier service = true)
    (henvironment : identifier environment = true) : isDatabasePath (documentPath service environment) = true := by
  apply isDatabasePath_of_segments (show ["config", service, environment ++ ".yaml"] ≠ [] by simp)
  · simp [documentPath_eq, configPrefix, List.intercalate]
  · simp only [List.forall_mem_cons, List.not_mem_nil, false_imp_iff, implies_true, and_true]
    exact ⟨by decide, plain_of_identifier hservice, segment_of_extended henvironment (by decide)⟩

/-- The paths that a plan is about are the product's schema and documents, and none is written twice. -/
structure Plan.Regular (service : String) (plan : Plan) : Prop where
  writes : ∀ w ∈ plan.writes, w.path = schemaPath service ∨
    ∃ environment, identifier environment = true ∧ w.path = documentPath service environment
  reads : ∀ path ∈ plan.reads, ∃ environment, identifier environment = true ∧
    path = documentPath service environment
  distinct : (plan.writes.map MutationRequest.path).Nodup

theorem regular_of_values {environment : String} {changes : List (String × Option Value)}
    {expectedEtag : Option (Option String)} {plan : Plan}
    (h : session.values environment changes expectedEtag = .ok plan) : plan.Regular session.service := by
  obtain ⟨-, -, current, next, hcurrent, -, hplan⟩ := values_cases h
  have hid := (document_eq_ok hcurrent).1
  rcases hplan with ⟨-, -, rfl⟩ | ⟨-, source, keys, -, rfl⟩
  · constructor
    · simp
    · simp only [List.mem_singleton, forall_eq]
      exact ⟨environment, hid, rfl⟩
    · simp
  · constructor
    · simp only [List.mem_singleton, forall_eq]
      exact .inr ⟨environment, hid, rfl⟩
    · simp only [List.mem_singleton, forall_eq]
      exact ⟨environment, hid, rfl⟩
    · simp

section

variable {candidate : SchemaSet} {edit : String → Record → Record} {keys : List String}
  {envs : List (String × String)} {plan : Plan}

/-- A pass over the product's documents, and then its schema. -/
theorem Passed.regular {content : Option String} (hpassed : Passed session candidate edit keys session.environments plan) :
    Plan.Regular session.service
      { writes := plan.writes ++ [session.put (schemaPath session.service) content keys]
        reads := plan.reads
        given := plan.given } := by
  constructor
  · intro w hw
    rcases List.mem_append.1 hw with hw | hw
    · exact .inr (hpassed.writes w hw)
    · rw [List.mem_singleton.1 hw]
      exact .inl rfl
  · exact hpassed.reads
  · have hpaths : (session.environments.map fun f =>
        documentPath session.service (session.environmentOf f.1)) = session.environments.map Prod.fst := by
      apply List.map_congr_left
      intro f hf
      exact (mem_environments hf).1.symm
    have hdistinct : (plan.writes.map MutationRequest.path).Nodup := by
      have hsublist := hpassed.sublist
      rw [hpaths] at hsublist
      exact nodup_environments.sublist hsublist
    rw [List.map_append, List.nodup_append]
    refine ⟨hdistinct, by simp, ?_⟩
    intro path hpath path' hpath'
    obtain ⟨w, hw, rfl⟩ := List.mem_map.1 hpath
    obtain ⟨environment, -, hpath⟩ := hpassed.writes w hw
    rw [List.map_singleton, List.mem_singleton] at hpath'
    rw [hpath', hpath]
    exact (schemaPath_ne_documentPath _ _ _).symm

end

theorem Operation.regular {op : Operation} {plan : Plan} (hservice : session.service = op.service)
    (hop : op.writesValues = true) (h : op.action session = .ok plan) : plan.Regular op.service := by
  rw [← hservice]
  cases op with
  | createProduct r => cases hop
  | setRetiring service retiring force => cases hop
  | archiveProduct service expectedBase force => cases hop
  | writeValues r =>
    obtain ⟨identity, -, h⟩ := bind_eq_ok.1 h
    exact regular_of_values h
  | promote r =>
    obtain ⟨-, keys, source, changes, values, -, -, hsource, -, hvalues, rfl⟩ := promote_cases h
    change session.service = r.service at hservice
    obtain ⟨hwrites, hreads, hdistinct⟩ := regular_of_values hvalues
    refine ⟨hwrites, List.forall_mem_cons.2 ⟨?_, hreads⟩, hdistinct⟩
    exact ⟨r.source, (document_eq_ok hsource).1, by rw [hservice]⟩
  | addKeys r =>
    obtain ⟨-, -, built, added, document, candidate, swept, -, -, -, -, -, hpassed, rfl⟩ :=
      addKeys_passed hservice h
    change session.service = r.service at hservice
    rw [← hservice]
    exact hpassed.regular
  | deleteKeys service selected expectedBase =>
    change session.service = service at hservice
    subst hservice
    obtain ⟨-, identity, keys, document, candidate, swept, -, -, -, -, hpassed, rfl⟩ := deleteKeys_passed h
    exact hpassed.regular

/-- The paths that a transaction compares, lists and writes. -/
theorem Plan.Regular.valid {service : String} {plan : Plan} (h : plan.Regular service)
    (hproduct : identifier service = true) (hservice : session.service = service) :
    ∀ path ∈ session.compared plan ++ ["config/" ++ session.service] ++ plan.writes.map MutationRequest.path,
      isDatabasePath path = true := by
  intro path hpath
  rcases List.mem_append.1 hpath with hpath | hpath
  · rcases List.mem_append.1 hpath with hpath | hpath
    · rcases mem_compared.1 hpath with rfl | rfl | rfl | hpath
      · rw [hservice]
        exact isDatabasePath_schemaPath hproduct
      · decide
      · decide
      · obtain ⟨environment, hid, rfl⟩ := h.reads path hpath
        exact isDatabasePath_documentPath hproduct hid
    · rw [List.mem_singleton] at hpath
      rw [hpath, hservice]
      exact isDatabasePath_directory hproduct
  · obtain ⟨w, hw, rfl⟩ := List.mem_map.1 hpath
    rcases h.writes w hw with hpath | ⟨environment, hid, hpath⟩
    · rw [hpath]
      exact isDatabasePath_schemaPath hproduct
    · rw [hpath]
      exact isDatabasePath_documentPath hproduct hid

/-! ### What a commit finds -/

/-- A transaction whose paths are valid and can be read finds something stale, or nothing. -/
theorem writeMany_stale {contentHash : String → String} {requests : List MutationRequest}
    {checks : List ReadPrecondition} {collections : List CollectionPrecondition} {db : Database}
    (hpaths : ∀ path ∈ checks.map ReadPrecondition.path ++ collections.map CollectionPrecondition.path ++
      requests.map MutationRequest.path, isDatabasePath path = true)
    (hn : (requests.map MutationRequest.path).Nodup)
    (hwritten : ∀ r ∈ requests, db.readError r.path = none)
    (hread : ∀ check ∈ checks, db.readError check.path = none)
    (hlisted : ∀ check ∈ collections, ∃ names, db.directoryNames check.path = .ok names) :
    (∃ path actual revision,
        writeMany contentHash requests checks collections db = (.ok (.conflict path actual revision), db)) ∨
      staleRequest contentHash db requests = none ∧ staleCollection db collections = .ok none ∧
        staleRead contentHash db checks = .ok none := by
  have hvalid : (checks.map ReadPrecondition.path ++ collections.map CollectionPrecondition.path ++
      requests.map MutationRequest.path).find? (fun path => !isDatabasePath path) = none := by
    apply List.find?_eq_none.2
    intro path hpath
    simp [hpaths path hpath]
  have hreadable : (requests.map MutationRequest.path).findSome? db.readError = none := by
    apply List.findSome?_eq_none_iff.2
    intro path hpath
    obtain ⟨r, hr, rfl⟩ := List.mem_map.1 hpath
    exact hwritten r hr
  have hcollection : ∃ found, staleCollection db collections = .ok found := by
    clear hvalid hpaths
    induction collections with
    | nil => exact ⟨none, rfl⟩
    | cons check collections ih =>
      obtain ⟨names, hnames⟩ := hlisted check List.mem_cons_self
      rw [staleCollection, hnames]
      change ∃ found, (if sortTexts (names.filter fun name => endsWith name ".yaml") =
        sortTexts check.files then staleCollection db collections else pure _) = .ok found
      split
      · exact ih fun check' hcheck' => hlisted check' (List.mem_cons_of_mem _ hcheck')
      · exact ⟨_, rfl⟩
  have hfound : ∃ found, staleRead contentHash db checks = .ok found := by
    clear hvalid hpaths
    induction checks with
    | nil => exact ⟨none, rfl⟩
    | cons check checks ih =>
      rw [staleRead, hread check List.mem_cons_self]
      dsimp only
      split
      · exact ih fun check' hcheck' => hread check' (List.mem_cons_of_mem _ hcheck')
      · exact ⟨_, rfl⟩
  simp only [writeMany, hvalid, not_not.2 hn, if_false, hreadable]
  cases hrequest : staleRequest contentHash db requests with
  | some conflict =>
    obtain ⟨r, -, rfl⟩ := Option.map_eq_some_iff.1 hrequest
    exact .inl ⟨_, _, _, rfl⟩
  | none =>
    obtain ⟨found, hcollection⟩ := hcollection
    rw [hcollection]
    cases found with
    | some conflict =>
      obtain ⟨check, -, rfl⟩ := staleCollection_eq_some hcollection
      exact .inl ⟨_, _, _, rfl⟩
    | none =>
      obtain ⟨found, hread⟩ := hfound
      rw [hread]
      cases found with
      | some conflict =>
        obtain ⟨check, -, -, rfl⟩ := staleRead_eq_some hread
        exact .inl ⟨_, _, _, rfl⟩
      | none => exact .inr ⟨rfl, rfl, rfl⟩

/-- What an operation has read, lists or writes can be read: no directory stands where one of its files
should be, and no file where it needs a directory. -/
structure Legible (db : Database) (session : ProductMutation) (plan : Plan) : Prop where
  compared : ∀ path ∈ session.compared plan, db.readError path = none
  written : ∀ w ∈ plan.writes, db.readError w.path = none
  listed : ∃ names, db.directoryNames ("config/" ++ session.service) = .ok names

/-- Something that an operation was decided on is no longer as it was: a file that it has read, or one
that it would write, or which documents the product has. -/
def Overtaken (files : Files) (db : Database) (session : ProductMutation) (plan : Plan) : Prop :=
  (∃ path ∈ session.compared plan, files.lookup path ≠ db.files.lookup path) ∨
    (∃ w ∈ plan.writes, files.lookup w.path ≠ db.files.lookup w.path) ∨
    ∃ environment, Segment environment ∧ db.isDirectory (documentPath session.service environment) = false ∧
      (files.lookup (documentPath session.service environment)).isSome ≠
        (db.files.lookup (documentPath session.service environment)).isSome

/-- An operation on values that was overtaken reports a conflict, and changes nothing. -/
theorem conflict_of_overtaken {op : Operation} {files : Files} {db : Database} {plan : Plan}
    (hash : Function.Injective o.contentHash) (hop : op.writesValues = true)
    (hproduct : identifier op.service = true)
    (hsession : ProductMutation.create o op.service actor files = .ok session)
    (hplan : op.action session = .ok plan) (hlegible : Legible db session plan)
    (hovertaken : Overtaken files db session plan) :
    failureCode (op.performFrom o actor files db).1 = some .conflict ∧
      (op.performFrom o actor files db).2 = db := by
  obtain ⟨hoptions, hservice, -, hfiles, -, -, -⟩ := id (create_eq_ok hsession)
  have hregular := op.regular hservice hop hplan
  have hetag : ∀ path, session.etag path = Store.etag o.contentHash files path := by
    intro path
    rw [ProductMutation.etag, hoptions, hfiles]
  have hreads : ((session.compared plan).map fun path =>
      ({ path, expectedEtag := session.etag path } : ReadPrecondition)).map ReadPrecondition.path =
      session.compared plan := by
    rw [List.map_map]
    exact List.map_id _
  obtain ⟨hdb, hconflict, hcode⟩ :=
    @commit_of_writeMany session plan db _ _ Prod.mk.eta.symm
  obtain ⟨hperformed, hreported⟩ := @performFrom_of_plan _ _ _ _ _ db _ hproduct hsession hplan
  have hstale := @writeMany_stale session.options.contentHash plan.writes
    ((session.compared plan).map fun path => { path, expectedEtag := session.etag path })
    [{ path := "config/" ++ session.service, files := session.listed }] db
    ?_ hregular.distinct hlegible.written ?_ (by simpa using hlegible.listed)
  · rcases hstale with ⟨path, actual, revision, hwrite⟩ | ⟨hrequest, hcollection, hread⟩
    · rw [hwrite] at hdb hconflict
      obtain ⟨failure, hfailure⟩ := hconflict.2 ⟨path, actual, revision, rfl⟩
      rw [hreported failure hfailure, failureCode, hcode failure hfailure, hperformed]
      exact ⟨rfl, hdb⟩
    · exfalso
      rcases hovertaken with ⟨path, hpath, hne⟩ | ⟨w, hw, hne⟩ | ⟨environment, hsegment, hfile, hne⟩
      · have := (staleRead_eq_none.1 hread _ (List.mem_map_of_mem hpath)).2
        dsimp only at this
        rw [hetag, hoptions] at this
        exact hne (lookup_eq_of_etag hash this)
      · have := List.find?_eq_none.1 (Option.map_eq_none_iff.1 hrequest) w hw
        rw [op.expected hservice hplan w hw, hetag, hoptions] at this
        exact hne (lookup_eq_of_etag hash (by simpa using this))
      · have hlisted := ((@staleCollection_one db
          ⟨"config/" ++ session.service, session.listed⟩ nodup_listed
          fun name hname => (mem_listed.1 hname).1).1 hcollection).2 (environment ++ ".yaml")
            (endsWith_iff.2 ⟨environment, rfl⟩)
        have hpath : "config/" ++ session.service ++ "/" ++ (environment ++ ".yaml") =
            documentPath session.service environment := by
          simp only [documentPath_eq, configPrefix, String.append_assoc]
        have hname : Segment (environment ++ ".yaml") := by
          unfold Segment
          rw [String.toList_append, List.mem_append, not_or]
          exact ⟨hsegment, by decide⟩
        rw [mem_listed, and_iff_right (endsWith_iff.2 ⟨environment, rfl⟩)] at hlisted
        dsimp only at hlisted
        rw [hpath, hfile, and_iff_right hname, hfiles, ← String.append_assoc, ← documentPath_eq] at hlisted
        simp only [Bool.false_eq_true, or_false] at hlisted
        exact hne (Bool.eq_iff_iff.2 hlisted)
  · intro path hpath
    rw [hreads] at hpath
    exact hregular.valid hproduct hservice path hpath
  · intro check hcheck
    obtain ⟨path, hpath, rfl⟩ := List.mem_map.1 hcheck
    exact hlegible.compared path hpath

/-! ### The counter -/

/-- A document that says the same as before is the same text, and so is not written. -/
theorem DocumentStep.same_text {op : Operation} {service environment : String} {files files' : Files}
    {before after : Record} (h : DocumentStep o op service environment files files')
    (hthere : (files.lookup (documentPath service environment)).isSome = true)
    (hthere' : (files'.lookup (documentPath service environment)).isSome = true)
    (hbefore : Resolved o files service environment before)
    (hafter : Resolved o files' service environment after)
    (hsame : SameConfig (configOnly before) (configOnly after)) :
    files'.lookup (documentPath service environment) = files.lookup (documentPath service environment) := by
  cases h with
  | kept h => exact h
  | created hnone =>
    rw [hnone] at hthere
    cases hthere
  | archived base force hop hnone =>
    rw [hnone] at hthere'
    cases hthere'
  | written hop hservice before' after' hbefore' hafter' hversion hchanged =>
    obtain rfl := Resolved.unique rfl hbefore hbefore'
    obtain rfl := Resolved.unique rfl hafter hafter'
    exact (hchanged hsame).elim

/-- The document that an operation on one document is for. -/
def Operation.documentOf : Operation → Option (String × String)
  | .writeValues r => some (r.service, r.environment)
  | .promote r => some (r.service, r.target)
  | .createProduct _ | .setRetiring _ _ _ | .addKeys _ | .deleteKeys _ _ _ | .archiveProduct _ _ _ => none

theorem writes_of_values {environment : String} {changes : List (String × Option Value)}
    {expectedEtag : Option (Option String)} {plan : Plan}
    (h : session.values environment changes expectedEtag = .ok plan) :
    ∀ w ∈ plan.writes, w.path = documentPath session.service environment := by
  obtain ⟨-, -, current, next, -, -, ⟨-, -, rfl⟩ | ⟨-, source, keys, -, rfl⟩⟩ := values_cases h
  · simp
  · simp only [List.mem_singleton, forall_eq]
    rfl

theorem Operation.writes_documentOf {op : Operation} {plan : Plan} {service environment : String}
    (hservice : session.service = op.service) (hop : op.documentOf = some (service, environment))
    (h : op.action session = .ok plan) : ∀ w ∈ plan.writes, w.path = documentPath service environment := by
  cases op with
  | createProduct r => cases hop
  | setRetiring service retiring force => cases hop
  | archiveProduct service expectedBase force => cases hop
  | addKeys r => cases hop
  | deleteKeys service selected expectedBase => cases hop
  | writeValues r =>
    cases hop
    obtain ⟨identity, -, h⟩ := bind_eq_ok.1 h
    have hwrites := writes_of_values h
    rwa [hservice] at hwrites
  | promote r =>
    cases hop
    obtain ⟨-, keys, source, changes, values, -, -, -, -, hvalues, rfl⟩ := promote_cases h
    have hwrites := writes_of_values hvalues
    rwa [hservice] at hwrites

/-- An operation on one document that leaves its text leaves the whole database. -/
theorem Committed.idle_of_text {op : Operation} {files : Files} {db db' : Database} {plan : Plan}
    {service environment : String} (h : Committed op o actor files db db' session plan)
    (hop : op.documentOf = some (service, environment))
    (htext : db'.files.lookup (documentPath service environment) =
      db.files.lookup (documentPath service environment)) : db' = db := by
  rcases h.published with ⟨-, hdb⟩ | ⟨hchanged, -⟩
  · exact hdb
  · exfalso
    apply hchanged
    apply List.filter_eq_nil_iff.2
    intro w hw
    have hpath := op.writes_documentOf h.opened.service_eq hop h.planned w hw
    have hcontent := h.written hw
    rw [hpath, htext] at hcontent
    rw [hpath, Store.etag, hcontent]
    simp

/-- The product's document, before anybody has changed it. -/
def countDocument : Record := [("COUNT", .num (.fin 3)), ("version", .num (.fin 1))]

theorem documentPath_web : documentPath "web" "dev" = "config/web/dev.yaml" := by decide +kernel

theorem lookup_webDocument : webRegistry.files.lookup (documentPath "web" "dev") =
    some (jsonRuntime.stringifyYaml (.obj countDocument)) := by
  rw [documentPath_web, webRegistry]
  dsimp only
  rw [AList.lookup_insert_ne (by decide), countDocument, AList.lookup_insert]

theorem resolveOne_plain {ns : String} {v : Record} :
    ProductMutation.resolveOne plainOptions ns (jsonRuntime.stringifyYaml (.obj v)) = .ok v := by
  unfold ProductMutation.resolveOne
  apply bind_eq_ok.2
  refine ⟨_, rfl, ?_⟩
  change parseConfig jsonRuntime.parseYaml _ _ = _
  rw [parseConfig, parse_stringify]

theorem resolved_webDocument : Resolved plainOptions webRegistry.files "web" "dev" countDocument := by
  refine .inr ⟨_, lookup_webDocument, ?_⟩
  exact resolveOne_plain

end ConfigRegistry.Products
