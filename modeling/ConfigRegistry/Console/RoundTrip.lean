import ConfigRegistry.Console.ProductForm
import ConfigRegistry.Products.Conflicts

/-!
# Saving the page of a product

What saving a page does to the values of its environment, where the operator has edited some of its fields and left
the others as they were rendered.
-/

namespace ConfigRegistry.Console

open Js Schema Store Products

/-- Nothing beside the submitted values stops a save: the product and its schema are there, the document is one that
the schema accepts, and the files that the transaction reads, lists and writes are in order. -/
structure Ready (o : ProductWriteOptions) (actor : Actor) (db : Database) (service environment : String)
    (schema : ProductSchema) (source : String) (stored : Record) : Prop where
  product : identifier service = true
  name : identifier environment = true
  session : ∃ session identity, ProductMutation.create o service actor db.files = .ok session ∧
    session.requireProduct = .ok identity ∧ session.order.all.contains environment = true
  declares : Declares o.rt db.files service schema
  keys : (schema.definitions.map Prod.fst).Nodup
  file : db.files.lookup (documentPath service environment) = some source
  resolved : ProductMutation.resolveOne o (namespaceText service environment) source = .ok stored
  valid : schema.Fits o.rt service stored
  version : (Number.ofNat (bumpedVersion stored)).isSafeInteger = true
  readable : ∀ path ∈ [schemaPath service, "services.yaml", "environments.yaml", documentPath service environment],
    db.readError path = none
  listed : ∃ names, db.directoryNames ("config/" ++ service) = .ok names
  flat : Flat db service
  revision : db.revision + 1 ≤ maxSafeInteger
  committed : o.onCommitted = .ok ()

/-- A value with values in it. -/
def isTree : Option Value → Bool
  | some (.arr _) | some (.obj _) => true
  | _ => false

/-- The encryptor goes through a document value by value: it makes a ciphertext of each value of a secret that is not
blank, and a list stays a list. -/
def Seals (o : ProductWriteOptions) (service environment : String) (schema : ProductSchema) : Prop :=
  ∀ (config : Record) (version : Nat), (∀ f ∈ config, isMetadataKey f.1 = false) →
    ∃ source encrypted, o.encrypt (namespaceText service environment) (o.rt.stringifyYaml
        (.obj (ProductMutation.ordered (config.set "version" (.num (.ofNat version)))))) = .ok source ∧
      o.rt.parseYaml source = .ok (.obj encrypted) ∧
      ∀ key, isMetadataKey key = false → schema.isSecret key = true →
        ProductMutation.secretKept (config.set "version" (.num (.ofNat version))) encrypted key =
          !isTree (config.lookup key)

/-- The configuration with the values that are posted. -/
def overridden (stored : Record) (posted : List (String × Value)) : Record :=
  posted.foldl (fun r f => Record.set r f.1 f.2) (configOnly stored)

section

variable (o : ProductWriteOptions) (actor : Actor) (db : Database) (numbers : Numbers) (service environment : String)
  (schema : ProductSchema) (source : String) (stored : Record) (edited : String → Option (List String))

/-- What saving the page asks for. -/
def save : Operation :=
  .writeValues (saveRequest numbers o.rt service environment (o.contentHash source) schema stored edited)

/-- A document is to be written that holds a list for a secret. -/
def WritesSecretList : Prop :=
  (∃ key, isMetadataKey key = false ∧ schema.isSecret key = true ∧
      isTree ((overridden stored (posts numbers o.rt edited (rows schema stored))).lookup key) = true) ∧
    (Value.obj (configOnly stored)).deepEqual
      (.obj (overridden stored (posts numbers o.rt edited (rows schema stored)))) = false

/-- A value that the operator submitted is refused, and none of those that were left. -/
def EditRefused : Prop :=
  (∃ row ∈ rows schema stored, (edited row.key).isSome = true ∧ Rejected numbers o.rt edited row) ∧
    ∀ row ∈ rows schema stored, edited row.key = none → ¬ Rejected numbers o.rt edited row

/-- The save is refused because of a value that the operator submitted, or is done and changes no other key. -/
def RoundTrips (out : Outcome × Database) : Prop :=
  (∃ failure, out.1 = .error failure ∧ failure.code = .invalid) ∧ EditRefused o numbers schema stored edited ∨
    ∃ result after, out.1 = .ok result ∧ Resolved o out.2.files service environment after ∧
      ∀ key, isMetadataKey key = false → (∀ row ∈ rows schema stored, row.key = key → edited key = none) →
        SameValue (after.lookup key) (stored.lookup key)

end

section

variable {o : ProductWriteOptions} {actor : Actor} {session : ProductMutation} {db : Database} {op : Operation}

theorem writeMany_accepted {contentHash : String → String} {requests : List MutationRequest}
    {checks : List ReadPrecondition} {collections : List CollectionPrecondition}
    (hpaths : ∀ path ∈ checks.map ReadPrecondition.path ++ collections.map CollectionPrecondition.path ++
      requests.map MutationRequest.path, isDatabasePath path = true)
    (hn : (requests.map MutationRequest.path).Nodup)
    (hwritten : ∀ r ∈ requests, db.readError r.path = none)
    (hrequest : staleRequest contentHash db requests = none) (hcollection : staleCollection db collections = .ok none)
    (hread : staleRead contentHash db checks = .ok none) (hrevision : db.revision + 1 ≤ maxSafeInteger) :
    ∃ revision, (writeMany contentHash requests checks collections db).1 = .ok (.written revision) ∨
      (writeMany contentHash requests checks collections db).1 = .ok (.unchanged revision) := by
  have hvalid : (checks.map ReadPrecondition.path ++ collections.map CollectionPrecondition.path ++
      requests.map MutationRequest.path).find? (fun path => !isDatabasePath path) = none := by
    apply List.find?_eq_none.2
    intro path hpath
    simp [hpaths path hpath]
  have hreadable : (requests.map MutationRequest.path).findSome? db.readError = none := by
    apply List.findSome?_eq_none_iff.2
    intro path hpath
    obtain ⟨r, hr, rfl⟩ := List.mem_map.1 hpath
    exact hwritten r hr
  simp only [writeMany, hvalid, not_not.2 hn, if_false, hreadable, hrequest, hcollection, hread]
  split
  · exact ⟨_, .inr rfl⟩
  · rw [if_neg (by omega)]
    exact ⟨_, .inl rfl⟩

/-- A commit that nothing is in the way of. -/
theorem commit_ok {plan : Plan} (hproduct : identifier op.service = true)
    (hsession : ProductMutation.create o op.service actor db.files = .ok session)
    (hop : op.writesValues = true) (hplan : op.action session = .ok plan) (hlegible : Legible db session plan)
    (hflat : Flat db op.service) (hrevision : db.revision + 1 ≤ maxSafeInteger) :
    ∃ result, (session.commit plan db).1 = .ok (.ok result) := by
  have hopen := create_eq_ok hsession
  have hnoconflict : ¬ ∃ failure, (session.commit plan db).1 = .ok (.error failure) := by
    rw [commit_conflict_iff hopen hplan]
    exact fun h => h.2.2.2.2 hflat
  have hregular := op.regular hopen.service_eq hop hplan
  have hreads : ((session.compared plan).map fun path =>
      ({ path, expectedEtag := session.etag path } : ReadPrecondition)).map ReadPrecondition.path =
      session.compared plan := by
    rw [List.map_map]
    exact List.map_id _
  have hpaths : ∀ path ∈ ((session.compared plan).map fun path =>
        ({ path, expectedEtag := session.etag path } : ReadPrecondition)).map ReadPrecondition.path ++
      [({ path := "config/" ++ session.service, files := session.listed } : CollectionPrecondition)].map
        CollectionPrecondition.path ++ plan.writes.map MutationRequest.path, isDatabasePath path = true := by
    rw [hreads]
    exact hregular.valid hproduct hopen.service_eq
  have hread : ∀ check ∈ (session.compared plan).map fun path =>
      ({ path, expectedEtag := session.etag path } : ReadPrecondition), db.readError check.path = none := by
    intro check hcheck
    obtain ⟨path, hpath, rfl⟩ := List.mem_map.1 hcheck
    exact hlegible.compared path hpath
  have hlisted : ∀ check ∈ [({ path := "config/" ++ session.service, files := session.listed } :
      CollectionPrecondition)], ∃ names, db.directoryNames check.path = .ok names := by
    intro check hcheck
    obtain rfl := List.mem_singleton.1 hcheck
    exact hlegible.listed
  rcases @writeMany_stale session.options.contentHash _ _ _ _ hpaths hregular.distinct hlegible.written hread hlisted with
    ⟨path, actual, revision, hwrite⟩ | ⟨hrequest, hcollection, hchecked⟩
  · exact (hnoconflict ((commit_of_writeMany hwrite).2.1.2 ⟨path, actual, revision, rfl⟩)).elim
  · have haccepted := writeMany_accepted hpaths hregular.distinct hlegible.written hrequest hcollection hchecked hrevision
    unfold ProductMutation.commit
    dsimp only
    unfold ProductMutation.compared ProductMutation.listed at haccepted
    generalize writeMany _ plan.writes _ _ _ = written at haccepted
    obtain ⟨result, db'⟩ := written
    rcases haccepted with ⟨revision, hresult | hresult⟩
    all_goals
      change result = _ at hresult
      subst hresult
      exact ⟨_, rfl⟩

/-- Setting the values that are posted: they are refused where one is for metadata. -/
theorem override_posted (posted : List (String × Value)) (next : Record) :
    (∃ f ∈ posted, isMetadataKey f.1 = true) ∧
        ProductMutation.override next (posted.map fun f => (f.1, some f.2)) =
          refuse "use product-wide Delete to remove keys; metadata cannot be edited" .invalid ∨
      (∀ f ∈ posted, isMetadataKey f.1 = false) ∧
        ProductMutation.override next (posted.map fun f => (f.1, some f.2)) =
          .ok (posted.foldl (fun r f => r.set f.1 f.2) next) := by
  induction posted generalizing next with
  | nil => exact .inr ⟨by simp, rfl⟩
  | cons f posted ih =>
    rw [List.map_cons]
    unfold ProductMutation.override
    cases hmeta : isMetadataKey f.1 with
    | true => exact .inl ⟨⟨f, List.mem_cons_self, hmeta⟩, rfl⟩
    | false =>
      rcases ih (next.set f.1 f.2) with ⟨⟨g, hg, hgmeta⟩, hrefused⟩ | ⟨hplain, hset⟩
      · exact .inl ⟨⟨g, List.mem_cons_of_mem _ hg, hgmeta⟩, hrefused⟩
      · exact .inr ⟨List.forall_mem_cons.2 ⟨hmeta, hplain⟩, hset⟩

theorem definedChanges_posted (posted : List (String × Value)) :
    definedChanges (posted.map fun f => (f.1, some f.2)) = posted := by
  induction posted with
  | nil => rfl
  | cons f posted ih => exact List.cons_eq_cons.2 ⟨rfl, ih⟩

/-- Where each key is posted once, it gets the value that is posted for it. -/
theorem lastChange_posted {posted : List (String × Value)} (hn : (posted.map Prod.fst).Nodup) {key : String} {v : Value} :
    lastChange posted key = some v ↔ (key, v) ∈ posted := by
  unfold lastChange
  rw [lookup_iff_mem, List.mem_reverse]
  rw [List.map_reverse, List.nodup_reverse]
  exact hn

theorem eq_of_deepEqual_text {v : Value} {s : String} (h : v.deepEqual (.str s) = true) : v = .str s := by
  cases v with
  | str t =>
    rw [Value.deepEqual] at h
    rw [eq_of_beq h]
  | _ => simp [Value.deepEqual] at h

theorem ok_bind {α β : Type} (a : α) (f : α → Attempt β) : ((.ok a : Attempt α) >>= f) = f a := rfl

/-- The session has read the document of an environment, in the version that is expected. -/
structure Reads (session : ProductMutation) (environment etag : String) (stored : Record) : Prop where
  declared : session.order.all.contains environment = true
  current : session.etag (documentPath session.service environment) = some etag
  document : session.document environment = .ok stored

section

variable {environment etag : String} {stored next : Record} {changes : List (String × Option Value)}

theorem Reads.refused {e : Thrown} (h : Reads session environment etag stored)
    (hoverride : ProductMutation.override (configOnly stored) changes = .error e) :
    session.values environment changes (some (some etag)) = .error e := by
  unfold ProductMutation.values
  dsimp only
  rw [h.declared, if_neg (by simp), h.current, if_neg (by simp), h.document]
  rw [ok_bind, hoverride]
  rfl

theorem Reads.invalid (h : Reads session environment etag stored)
    (hoverride : ProductMutation.override (configOnly stored) changes = .ok next)
    (herrors : session.schemas.validate session.service session.options.rt next ≠ []) :
    session.values environment changes (some (some etag)) = refuseErrors "configuration is invalid"
      (session.schemas.validate session.service session.options.rt next) := by
  unfold ProductMutation.values
  dsimp only
  rw [h.declared, if_neg (by simp), h.current, if_neg (by simp), h.document]
  rw [ok_bind, hoverride, ok_bind, if_pos (by simpa using herrors)]

theorem Reads.accepted (h : Reads session environment etag stored)
    (hoverride : ProductMutation.override (configOnly stored) changes = .ok next)
    (herrors : session.schemas.validate session.service session.options.rt next = [])
    (hencode : (Value.obj (configOnly stored)).deepEqual (.obj next) = false →
      ∃ source, session.encode environment (nextVersion stored next) session.schemas = .ok source)
    (hfile : (session.files.lookup (documentPath session.service environment)).isSome = true) :
    ∃ plan, session.values environment changes (some (some etag)) = .ok plan := by
  unfold ProductMutation.values
  dsimp only
  rw [h.declared, if_neg (by simp), h.current, if_neg (by simp), h.document]
  rw [ok_bind, hoverride, ok_bind, if_neg (by simp [herrors]), hfile, Bool.true_and]
  cases hsame : (Value.obj (configOnly stored)).deepEqual (.obj next) with
  | true => exact ⟨_, rfl⟩
  | false =>
    obtain ⟨source, hsource⟩ := hencode hsame
    unfold nextVersion at hsource
    rw [if_neg Bool.false_ne_true, hsource]
    exact ⟨_, rfl⟩

end

/-- The encryptor does what it should with a document that is written, unless a secret of it is a list. -/
theorem encode_of_seals {service environment : String} {schema : ProductSchema} {stored next : Record}
    (hseals : Seals o service environment schema) (hoptions : session.options = o) (hservice : session.service = service)
    (hschema : session.schemas.services.lookup session.service = some schema)
    (hversion : (Number.ofNat (bumpedVersion stored)).isSafeInteger = true)
    (hplain : ∀ f ∈ next, isMetadataKey f.1 = false) :
    (∃ source, session.encode environment (nextVersion stored next) session.schemas = .ok source) ↔
      ∀ key, isMetadataKey key = false → schema.isSecret key = true → isTree (next.lookup key) = false := by
  subst hoptions hservice
  obtain ⟨source, encrypted, hsource, hparse, hkept⟩ := hseals next (bumpedVersion stored) hplain
  constructor
  · rintro ⟨source', hsource'⟩ key hmeta hsecret
    have hencodes := encode_eq_ok hschema hsource'
    have hencrypted := hencodes.encrypted
    obtain ⟨held, hheld, hall⟩ := hencodes.kept
    unfold nextVersion at hencrypted hall
    rw [hsource] at hencrypted
    obtain rfl := Except.ok.inj hencrypted
    rw [hparse] at hheld
    obtain rfl := Value.obj.inj (Except.ok.inj hheld)
    by_contra htree
    have hthere : key ∈ (configOnly (next.set "version" (.num (.ofNat (bumpedVersion stored))))).keys := by
      cases hlookup : next.lookup key with
      | none =>
        rw [hlookup] at htree
        exact (htree rfl).elim
      | some v =>
        rw [← lookup_nextVersion_ne stored next hmeta] at hlookup
        exact Record.mem_keys.2 ⟨v, mem_configOnly.2 ⟨Record.mem_of_lookup hlookup, hmeta⟩⟩
    have hsealed := hall key hthere hsecret
    rw [hkept key hmeta hsecret] at hsealed
    exact htree (by simpa using hsealed)
  · intro hleaves
    refine ⟨source, ?_⟩
    have hfield : (nextVersion stored next).lookup "version" = some (.num (.ofNat (bumpedVersion stored))) :=
      Record.lookup_set_self _ _ _
    have hnone : (configOnly (nextVersion stored next)).keys.find? (fun key =>
        session.schemas.isSecret session.service key &&
          !ProductMutation.secretKept (nextVersion stored next) encrypted key) = none := by
      apply List.find?_eq_none.2
      intro key hkey
      obtain ⟨v, hv⟩ := Record.mem_keys.1 hkey
      have hmeta : isMetadataKey key = false := (mem_configOnly.1 hv).2
      rw [isSecret_eq hschema]
      cases hsecret : schema.isSecret key with
      | false => simp
      | true =>
        unfold nextVersion
        rw [hkept key hmeta hsecret, hleaves key hmeta hsecret]
        simp
    unfold ProductMutation.encode
    refine (if_neg ?_).trans ?_
    · rw [hfield, Option.any_some]
      simpa using hversion
    · unfold nextVersion at hnone ⊢
      rw [hsource]
      simp only [lift, ok_bind, hparse, hnone]
      rfl

theorem reads_of_values {environment : String} {changes : List (String × Option Value)}
    {expectedEtag : Option (Option String)} {plan : Plan}
    (h : session.values environment changes expectedEtag = .ok plan) :
    ∀ path ∈ plan.reads, path = documentPath session.service environment := by
  obtain ⟨-, -, current, next, -, -, ⟨-, -, rfl⟩ | ⟨-, source, keys, -, rfl⟩⟩ := values_cases h
  all_goals
    simp only [List.mem_singleton, forall_eq]

theorem performFrom_of_refusal {files : Files} {failure : ProductWriteError} (hproduct : identifier op.service = true)
    (hsession : ProductMutation.create o op.service actor files = .ok session)
    (h : op.action session = .error (.refusal failure)) : (op.performFrom o actor files db).1 = .error failure := by
  unfold Operation.performFrom runFrom
  rw [if_neg (by simp [hproduct]), hsession]
  dsimp only
  rw [h]
  rfl

theorem performFrom_of_error {files : Files} {e : Thrown}
    (hsession : ProductMutation.create o op.service actor files = .ok session) (h : op.action session = .error e)
    (result : ProductWriteResult) : (op.performFrom o actor files db).1 ≠ .ok result := by
  unfold Operation.performFrom runFrom
  split
  · simp
  · rw [hsession]
    dsimp only
    rw [h]
    simp

theorem performFrom_of_commit {files : Files} {plan : Plan} {result : ProductWriteResult}
    (hproduct : identifier op.service = true)
    (hsession : ProductMutation.create o op.service actor files = .ok session) (hplan : op.action session = .ok plan)
    (hcommit : (session.commit plan db).1 = .ok (.ok result)) (hcommitted : o.onCommitted = .ok ()) :
    (op.performFrom o actor files db).1 = .ok result := by
  unfold Operation.performFrom runFrom
  rw [if_neg (by simp [hproduct]), hsession]
  dsimp only
  rw [hplan]
  dsimp only
  generalize session.commit plan db = committed at hcommit
  obtain ⟨answer, db'⟩ := committed
  change answer = _ at hcommit
  subst hcommit
  dsimp only
  rw [hcommitted]

end

section

variable {o : ProductWriteOptions} {actor : Actor} {db : Database} {numbers : Numbers} {service environment : String}
  {schema : ProductSchema} {source : String} {stored : Record} {edited : String → Option (List String)}

theorem Ready.changes_eq (h : Ready o actor db service environment schema source stored) :
    (saveRequest numbers o.rt service environment (o.contentHash source) schema stored edited).changes =
      (posts numbers o.rt edited (rows schema stored)).map fun f => (f.1, some f.2) :=
  changesOf_body fun _ hrow => (mem_rows h.keys hrow).1

theorem Ready.nodup_posts (h : Ready o actor db service environment schema source stored) :
    ((posts numbers o.rt edited (rows schema stored)).map Prod.fst).Nodup := by
  have hkeys := h.keys
  have hrows : (rows schema stored).map LiveKeyRow.key = schema.definitions.map Prod.fst := rows_keys
  rw [← hrows] at hkeys
  exact hkeys.sublist posts_keys

/-- A save opens a session, and goes on to the values with the document that it has read. -/
theorem Ready.opened (h : Ready o actor db service environment schema source stored) (numbers : Numbers)
    (edited : String → Option (List String)) :
    ∃ session, ProductMutation.create o service actor db.files = .ok session ∧
      session.schemas.services.lookup session.service = some schema ∧ Reads session environment
        (o.contentHash source) stored ∧
      (save o numbers service environment schema source stored edited).action session =
        session.values environment ((posts numbers o.rt edited (rows schema stored)).map fun f => (f.1, some f.2))
          (some (some (o.contentHash source))) := by
  obtain ⟨session, identity, hsession, hproduct, henvironment⟩ := h.session
  obtain ⟨hoptions, hservice, -, hfiles, -, -, -⟩ := id (create_eq_ok hsession)
  refine ⟨session, hsession, ?_, ⟨henvironment, ?_, ?_⟩, ?_⟩
  · rw [hservice]
    exact (create_eq_ok hsession).declares.2 h.declares
  · unfold ProductMutation.etag Store.etag
    rw [hservice, hfiles, h.file, hoptions]
    rfl
  · unfold ProductMutation.document
    rw [h.name, hservice, hfiles, h.file, hoptions]
    show lift (ProductMutation.resolveOne o (namespaceText service environment) source) = _
    rw [h.resolved]
    rfl
  · show (session.requireProduct >>= fun _ => session.values environment _ (some (some (o.contentHash source)))) = _
    rw [hproduct, h.changes_eq]
    rfl

/-- An unedited row posts what it posts on a page that is not edited at all. -/
theorem postedValue_unedited {row : LiveKeyRow} (h : edited row.key = none) :
    postedValue numbers o.rt edited row = postedValue numbers o.rt (fun _ => none) row := by
  unfold postedValue submittedRow
  rw [h]

/-- A value that is not accepted is enough for a refusal. -/
theorem Ready.refused (h : Ready o actor db service environment schema source stored)
    (hrejected : ∃ row ∈ rows schema stored, Rejected numbers o.rt edited row) :
    ∃ failure, ((save o numbers service environment schema source stored edited).performFrom o actor db.files db).1 =
      .error failure ∧ failure.code = .invalid := by
  obtain ⟨session, hsession, hschema, hreads, haction⟩ := h.opened numbers edited
  obtain ⟨row, hrow, v, hposted, hbad⟩ := hrejected
  have hmem : (row.key, v) ∈ posts numbers o.rt edited (rows schema stored) := mem_posts.2 ⟨row, hrow, rfl, hposted⟩
  rcases override_posted (posts numbers o.rt edited (rows schema stored)) (configOnly stored) with
    ⟨-, hoverride⟩ | ⟨hplain, hoverride⟩
  · rw [hreads.refused hoverride] at haction
    exact ⟨_, performFrom_of_refusal h.product hsession haction, rfl⟩
  · have herrors : session.schemas.validate session.service session.options.rt
        (overridden stored (posts numbers o.rt edited (rows schema stored))) ≠ [] := by
      intro hnil
      obtain ⟨schema', hschema', hfits⟩ := validate_eq_nil.1 hnil
      rw [hschema] at hschema'
      obtain rfl := Option.some.inj hschema'
      have hnext : (row.key, v) ∈ overridden stored (posts numbers o.rt edited (rows schema stored)) := by
        apply Record.mem_of_lookup
        rw [overridden, lookup_foldl_set, (lastChange_posted h.nodup_posts).2 hmem]
        rfl
      obtain ⟨definition, hdefinition, hcheck⟩ := (checkEntry_eq_none (hplain _ hmem)).1 (hfits _ hnext)
      rw [(mem_rows h.keys hrow).1, Option.some_inj] at hdefinition
      subst hdefinition
      rw [(create_eq_ok hsession).options_eq] at hcheck
      rcases hbad with hbad | hbad
      · rw [hplain _ hmem] at hbad
        cases hbad
      · exact hbad hcheck
    rw [hreads.invalid hoverride herrors] at haction
    exact ⟨_, performFrom_of_refusal h.product hsession haction, rfl⟩

theorem overridden_plain {posted : List (String × Value)} (h : ∀ f ∈ posted, isMetadataKey f.1 = false) :
    ∀ f ∈ overridden stored posted, isMetadataKey f.1 = false := by
  rintro ⟨key, v⟩ hmem
  rcases override_posted posted (configOnly stored) with ⟨⟨f, hf, hmeta⟩, -⟩ | ⟨-, hoverride⟩
  · rw [h f hf] at hmeta
    cases hmeta
  · rcases mem_override hoverride hmem with hmem | ⟨-, hmeta⟩
    · exact configOnly_plain stored _ hmem
    · exact hmeta

/-- A document with a list for a secret is not written. -/
theorem Ready.unsealed (h : Ready o actor db service environment schema source stored)
    (hseals : Seals o service environment schema) (hlists : WritesSecretList o numbers schema stored edited)
    (result : ProductWriteResult) :
    ((save o numbers service environment schema source stored edited).performFrom o actor db.files db).1 ≠
      .ok result := by
  obtain ⟨session, hsession, hschema, hreads, haction⟩ := h.opened numbers edited
  obtain ⟨hoptions, hservice, -, -, -, -, -⟩ := id (create_eq_ok hsession)
  cases hvalues : session.values environment
      ((posts numbers o.rt edited (rows schema stored)).map fun f => (f.1, some f.2))
      (some (some (o.contentHash source))) with
  | error e =>
    rw [hvalues] at haction
    exact performFrom_of_error hsession haction result
  | ok plan =>
    obtain ⟨-, -, current, next, hcurrent, hnext, hplan⟩ := values_cases hvalues
    rw [hreads.document] at hcurrent
    obtain rfl := Except.ok.inj hcurrent
    obtain ⟨hnext, hplain, -⟩ := override_eq_ok hnext
    rw [definedChanges_posted] at hnext
    obtain ⟨⟨key, hmeta, hsecret, htree⟩, hchanged⟩ := hlists
    unfold overridden at htree hchanged
    rw [← hnext] at htree hchanged
    rcases hplan with ⟨-, hsame, -⟩ | ⟨-, written, keys, hencode, -⟩
    · rw [hchanged] at hsame
      cases hsame
    · have hposted : ∀ f ∈ posts numbers o.rt edited (rows schema stored), isMetadataKey f.1 = false := fun f hf =>
        hplain _ (List.mem_map_of_mem hf)
      have hleaves := (encode_of_seals hseals hoptions hservice hschema h.version (hnext ▸ overridden_plain hposted)).1
        ⟨written, hencode⟩ key hmeta hsecret
      rw [htree] at hleaves
      cases hleaves

/-- Where every value is accepted, and no list is to be a secret, the save is done. -/
theorem Ready.saved (h : Ready o actor db service environment schema source stored)
    (hseals : Seals o service environment schema)
    (haccepted : ∀ row ∈ rows schema stored, ¬ Rejected numbers o.rt edited row)
    (hlists : ¬ WritesSecretList o numbers schema stored edited) :
    ∃ result, ((save o numbers service environment schema source stored edited).performFrom o actor db.files db).1 =
      .ok result := by
  obtain ⟨session, hsession, hschema, hreads, haction⟩ := h.opened numbers edited
  obtain ⟨hoptions, hservice, -, hfiles, -, -, -⟩ := id (create_eq_ok hsession)
  have hgood : ∀ f ∈ posts numbers o.rt edited (rows schema stored), isMetadataKey f.1 = false ∧
      ∃ definition, schema.definitions.lookup f.1 = some definition ∧ checkValue o.rt f.1 definition f.2 = none := by
    rintro ⟨key, v⟩ hf
    obtain ⟨row, hrow, rfl, hposted⟩ := mem_posts.1 hf
    have hnot := haccepted row hrow
    refine ⟨?_, row.definition, (mem_rows h.keys hrow).1, ?_⟩
    · cases hmeta : isMetadataKey row.key with
      | false => rfl
      | true => exact (hnot ⟨v, hposted, .inl hmeta⟩).elim
    · by_contra hcheck
      exact hnot ⟨v, hposted, .inr hcheck⟩
  rcases override_posted (posts numbers o.rt edited (rows schema stored)) (configOnly stored) with
    ⟨⟨f, hf, hmeta⟩, -⟩ | ⟨hplain, hoverride⟩
  · rw [(hgood f hf).1] at hmeta
    cases hmeta
  · have hfits : schema.Fits o.rt service (overridden stored (posts numbers o.rt edited (rows schema stored))) := by
      rintro ⟨key, v⟩ hmem
      rcases mem_override hoverride hmem with hmem | ⟨hmem, -⟩
      · exact h.valid _ (mem_configOnly.1 hmem).1
      · obtain ⟨f, hf, heq⟩ := List.mem_map.1 hmem
        cases heq
        exact (checkEntry_eq_none (hgood f hf).1).2 (hgood f hf).2
    have herrors : session.schemas.validate session.service session.options.rt
        (overridden stored (posts numbers o.rt edited (rows schema stored))) = [] := by
      refine validate_eq_nil.2 ⟨schema, hschema, ?_⟩
      rw [hoptions, hservice]
      exact hfits
    have hnext : ∀ f ∈ overridden stored (posts numbers o.rt edited (rows schema stored)),
        isMetadataKey f.1 = false := overridden_plain hplain
    obtain ⟨plan, hplan⟩ := hreads.accepted hoverride herrors (fun hchanged =>
        (encode_of_seals hseals hoptions hservice hschema h.version hnext).2 fun key hmeta hsecret => by
        by_contra htree
        exact hlists ⟨⟨key, hmeta, hsecret, by simpa using htree⟩, hchanged⟩) (by
      rw [hfiles, hservice, h.file]
      rfl)
    rw [hplan] at haction
    have hregular := regular_of_values hplan
    have hlegible : Legible db session plan := by
      have hone : ∀ w ∈ plan.writes, w.path = documentPath session.service environment := writes_of_values hplan
      have hread : ∀ path ∈ plan.reads, path = documentPath session.service environment := reads_of_values hplan
      have hreadable := h.readable
      rw [← hservice] at hreadable
      refine ⟨fun path hpath => hreadable path ?_, fun w hw => ?_, ?_⟩
      · rcases mem_compared.1 hpath with rfl | rfl | rfl | hpath
        · simp
        · simp
        · simp
        · simp [hread path hpath]
      · rw [hone w hw]
        exact hreadable _ (by simp)
      · rw [hservice]
        exact h.listed
    obtain ⟨result, hcommit⟩ := @commit_ok o actor session db
      (save o numbers service environment schema source stored edited) _ h.product hsession rfl haction hlegible h.flat h.revision
    exact ⟨result, performFrom_of_commit h.product hsession haction hcommit h.committed⟩

theorem eq_of_deepEqualItems_strings {values : List Value} {items : List String}
    (h : Value.deepEqualItems values (items.map Value.str) = true) : values = items.map Value.str := by
  induction values generalizing items with
  | nil =>
    cases items with
    | nil => rfl
    | cons item items => simp [Value.deepEqualItems] at h
  | cons v values ih =>
    cases items with
    | nil => simp [Value.deepEqualItems] at h
    | cons item items =>
      rw [List.map_cons, Value.deepEqualItems, Bool.and_eq_true] at h
      rw [List.map_cons, eq_of_deepEqual_text h.1, ih h.2]

/-- Only the value itself is the same as one that was read from a text. -/
theorem eq_of_deepEqual_posted {w : Value} {definition : Option KeyDefinition} {raw : String}
    (h : w.deepEqual (valueOf numbers definition raw) = true) : w = valueOf numbers definition raw := by
  unfold valueOf at h ⊢
  split at h
  · split at h
    · rw [if_pos ‹_›]
      exact eq_of_deepEqual_text h
    · rw [if_neg ‹_›]
      cases w with
      | num n =>
        rw [Value.deepEqual] at h
        rw [eq_of_beq h]
      | _ => simp [Value.deepEqual] at h
  · cases w with
    | bool b =>
      rw [Value.deepEqual] at h
      rw [eq_of_beq h]
    | _ => simp [Value.deepEqual] at h
  · cases w with
    | arr values =>
      rw [Value.deepEqual] at h
      rw [eq_of_deepEqualItems_strings h]
    | _ => simp [Value.deepEqual] at h
  · exact eq_of_deepEqual_text h

theorem eq_of_sameValue_posted {row : LiveKeyRow} {v : Value} {held : Option Value}
    (hposted : postedValue numbers o.rt edited row = some v) (h : SameValue held (some v)) : held = some v := by
  rcases h with h | h
  · exact h
  · cases held with
    | none => cases h
    | some w =>
      have hread : ∃ definition raw, v = valueOf numbers definition raw := by
        unfold postedValue at hposted
        dsimp only at hposted
        split at hposted
        · cases hposted
        · split at hposted
          · cases hposted
          · exact ⟨_, _, (Option.some.inj hposted).symm⟩
      obtain ⟨definition, raw, rfl⟩ := hread
      have hequal : w.deepEqual (valueOf numbers definition raw) = true := h
      rw [eq_of_deepEqual_posted hequal]

/-- The values that are shown are accepted. -/
theorem Ready.row_valid (h : Ready o actor db service environment schema source stored) {row : LiveKeyRow}
    (hrow : row ∈ rows schema stored) (v : Value) (hv : row.value = some v) (hmeta : isMetadataKey row.key = false) :
    checkValue o.rt row.key row.definition v = none := by
  obtain ⟨hdefinition, hvalue⟩ := mem_rows h.keys hrow
  rw [hv] at hvalue
  split at hvalue
  · cases hvalue
  · obtain ⟨definition, hdefinition', hcheck⟩ := (checkEntry_eq_none hmeta).1
      (h.valid _ (Record.mem_of_lookup hvalue.symm))
    rw [hdefinition, Option.some_inj] at hdefinition'
    subst hdefinition'
    exact hcheck

/-- A row that gives back what it shows is not refused. -/
theorem Ready.not_rejected (h : Ready o actor db service environment schema source stored)
    (hreads : ReadsBack numbers o.rt) {row : LiveKeyRow} (hrow : row ∈ rows schema stored) (hedited : edited row.key = none)
    (hgives : GivesBack row) : ¬ Rejected numbers o.rt edited row := by
  rintro ⟨v, hposted, hbad⟩
  rw [postedValue_unedited hedited] at hposted
  obtain ⟨hmeta, hsame⟩ := (faithful_iff hreads (h.row_valid hrow)).2 hgives v hposted
  rcases hbad with hbad | hbad
  · rw [hmeta] at hbad
    cases hbad
  · apply hbad
    cases hvalue : row.value with
    | none =>
      rw [hvalue] at hsame
      rcases hsame with hsame | hsame <;> cases hsame
    | some w =>
      have hw := h.row_valid hrow w hvalue hmeta
      rw [hvalue] at hsame
      rcases hsame with hsame | hsame
      · rw [Option.some.inj hsame]
        exact hw
      · exact checkValue_of_deepEqual hsame hw

/-- The document after a save that was done has the values that were posted. -/
theorem Ready.after (hash : Function.Injective o.contentHash)
    (yaml : ∀ v, o.rt.parseYaml (o.rt.stringifyYaml v) = .ok v)
    (sops : ∀ ns text source, o.encrypt ns text = .ok source → o.decrypt (configPath ns) source = .ok text)
    (h : Ready o actor db service environment schema source stored) {result : ProductWriteResult}
    (hok : ((save o numbers service environment schema source stored edited).performFrom o actor db.files db).1 =
      .ok result) :
    ∃ after, Resolved o ((save o numbers service environment schema source stored edited).performFrom o actor
        db.files db).2.files service environment after ∧
      ∀ key, isMetadataKey key = false → SameValue (after.lookup key)
        ((lastChange (posts numbers o.rt edited (rows schema stored)) key).or (stored.lookup key)) := by
  obtain ⟨hoverrides, -⟩ := overrides_of_writeValues hash yaml sops hok
  rw [h.changes_eq, definedChanges_posted] at hoverrides
  obtain ⟨before, after, hbefore, hafter, hlookup⟩ := hoverrides.document
  have hresolved : Resolved o db.files service environment stored := .inr ⟨source, h.file, h.resolved⟩
  obtain rfl := Resolved.unique rfl hbefore hresolved
  exact ⟨after, hafter, hlookup⟩

end

/-! ### A product with a name -/

/-- The documents of a product stand side by side where no file or directory is further down. -/
theorem flat_of_direct {db : Database} {service : String}
    (hfiles : ∀ path ∈ db.files.keys, startsWith path (configPrefix service) = true →
      '/' ∉ path.toList.drop (configPrefix service).toList.length)
    (hfolders : ∀ folder ∈ db.folders, startsWith folder (configPrefix service) = false) : Flat db service := by
  have hkeys : ∀ path, (db.files.lookup path).isSome = true → path ∈ db.files.keys := fun path h =>
    AList.lookup_isSome.1 h
  have hrest : ∀ name, configPrefix service ++ name ∈ db.files.keys → Segment name := by
    intro name hname
    have := hfiles _ hname (startsWith_iff.2 ⟨name, rfl⟩)
    rwa [String.toList_append, List.drop_left] at this
  refine ⟨fun name _ hname => hrest name (hkeys _ hname), fun name hsegment _ hdirectory => ?_⟩
  unfold Database.isDirectory at hdirectory
  rw [Bool.or_eq_true] at hdirectory
  rcases hdirectory with hbelow | hfolder
  · obtain ⟨path, hpath, hbelow⟩ := List.any_eq_true.1 hbelow
    obtain ⟨rest, rfl⟩ := startsWith_iff.1 hbelow
    rw [String.append_assoc, String.append_assoc] at hpath
    refine (hrest _ hpath ?_).elim
    simp [String.toList_append]
  · obtain ⟨folder, hfolder, heither⟩ := List.any_eq_true.1 hfolder
    have hstart : startsWith folder (configPrefix service) = true := by
      rw [Bool.or_eq_true] at heither
      rcases heither with hsame | hbelow
      · exact startsWith_iff.2 ⟨name, eq_of_beq hsame⟩
      · obtain ⟨rest, rfl⟩ := startsWith_iff.1 hbelow
        exact startsWith_iff.2 ⟨name ++ "/" ++ rest, by simp [String.append_assoc]⟩
    rw [hfolders folder hfolder] at hstart
    cases hstart

theorem trim_ne_empty {cs : List Char} {c : Char} (hc : c ∈ cs) (hspace : isSpace c = false) :
    trim (String.ofList cs) ≠ "" := by
  intro h
  have hnil : (cs.dropWhile isSpace).rdropWhile isSpace = [] := by
    rw [← trim_ofList, h]
    rfl
  rw [← List.takeWhile_append_dropWhile (p := isSpace) (l := cs), List.mem_append] at hc
  have hall := List.rdropWhile_eq_nil_iff.1 hnil
  rcases hc with hc | hc
  · rw [List.mem_takeWhile_imp hc] at hspace
    cases hspace
  · rw [hall c hc] at hspace
    cases hspace

theorem exists_digit (z : Int) : ∃ c ∈ intChars z, Json.isDigit c = true := by
  have hdigits : ∀ n, ∃ c, c ∈ Nat.toDigits 10 n := fun n => List.exists_mem_of_ne_nil _ Nat.toDigits_ne_nil
  cases z with
  | ofNat n =>
    obtain ⟨c, hc⟩ := hdigits n
    exact ⟨c, hc, isDigit_of_mem hc⟩
  | negSucc n =>
    obtain ⟨c, hc⟩ := hdigits (n + 1)
    exact ⟨c, List.mem_cons_of_mem _ hc, isDigit_of_mem hc⟩

theorem isSpace_of_isDigit {c : Char} (h : Json.isDigit c = true) : isSpace c = false := by
  unfold Json.isDigit at h
  rw [Bool.and_eq_true, decide_eq_true_eq, decide_eq_true_eq, Char.le_def, Char.le_def] at h
  have hlow : 48 ≤ c.toNat := h.1
  have hhigh : c.toNat ≤ 57 := h.2
  exact isSpace_of_printed (by omega) (by omega)

def wholeNumbers : Numbers where
  numberOf raw := .fin (intOfChars raw.toList)

theorem readsBack_wholeNumbers : ReadsBack wholeNumbers jsonRuntime := by
  intro n hn
  cases n with
  | fin q =>
    have hq : ((q.num : Int) : Rat) = q := Rat.coe_int_num_of_den_eq_one (by simpa [Number.isInteger] using hn)
    refine ⟨?_, ?_⟩
    · show Number.fin (intOfChars (String.ofList (intChars q.num)).toList) = .fin q
      rw [String.toList_ofList, intOfChars_intChars, hq]
    · show trim (String.ofList (intChars q.num)) ≠ ""
      obtain ⟨c, hc, hdigit⟩ := exists_digit q.num
      exact trim_ne_empty hc (isSpace_of_isDigit hdigit)
  | _ => cases hn

/-- A schema with a whole number and a name. -/
def nameSchema : ProductSchema where
  definitions := [("COUNT", { type := .int, secret := false }), ("NAME", { type := .string, secret := false })]
  version := .fin 1
  retiring := false

def nameSchemaText : String :=
  jsonRuntime.stringifyYaml (.obj [("version", .num (.fin 1)), ("keys", .obj [
    ("COUNT", .obj [("type", .str "int")]), ("NAME", .obj [("type", .str "string")])])])

/-- The product has no name yet. -/
def nameRegistry : Database where
  files := ((((∅ : Files).insert "environments.yaml" environmentsText).insert "schema/web.yaml" nameSchemaText).insert
    "config/web/dev.yaml" (jsonRuntime.stringifyYaml (.obj countDocument))).insert "services.yaml"
      (jsonRuntime.stringifyYaml webServices)
  revision := 1

theorem ofSource_nameSchema : ProductSchema.ofSource jsonRuntime "web" nameSchemaText = .ok nameSchema := by
  unfold ProductSchema.ofSource nameSchemaText
  rw [parse_stringify]
  rfl

theorem ok_of_toOption {ε α : Type} {x : Except ε α} {a : α} (h : x.toOption = some a) : x = .ok a := by
  cases x with
  | error e => cases h
  | ok b => exact congrArg Except.ok (Option.some.inj h)

theorem ready_nameRegistry : Ready plainOptions { email := "ops@example.com", id := "ops" } nameRegistry "web" "dev"
    nameSchema (jsonRuntime.stringifyYaml (.obj countDocument)) countDocument where
  product := by decide +kernel
  name := by decide +kernel
  session := by
    have hopened : (ProductMutation.create plainOptions "web" { email := "ops@example.com", id := "ops" }
        nameRegistry.files).toOption.any (fun session =>
          session.requireProduct.toOption.isSome && session.order.all.contains "dev") = true := by decide +kernel
    obtain ⟨session, hsession, hboth⟩ := (Option.any_eq_true _ _).1 hopened
    rw [Bool.and_eq_true] at hboth
    obtain ⟨identity, hidentity⟩ := Option.isSome_iff_exists.1 hboth.1
    exact ⟨session, identity, ok_of_toOption hsession, ok_of_toOption hidentity, hboth.2⟩
  declares := by
    refine ⟨productName_of_identifier (by decide +kernel), nameSchemaText, ?_, ofSource_nameSchema⟩
    unfold nameRegistry
    rw [AList.lookup_insert_ne (by decide), AList.lookup_insert_ne (by decide)]
    exact AList.lookup_insert _
  keys := by decide
  file := by
    rw [documentPath_web, nameRegistry]
    dsimp only
    rw [AList.lookup_insert_ne (by decide)]
    exact AList.lookup_insert _
  resolved := resolveOne_plain
  valid := by
    show ∀ f ∈ countDocument, SchemaSet.checkEntry "web" jsonRuntime nameSchema.definitions f = none
    decide +kernel
  version := by decide +kernel
  readable := by decide +kernel
  listed := by
    have hnames : (nameRegistry.directoryNames ("config/" ++ "web")).toOption.isSome = true := by decide +kernel
    obtain ⟨names, hnames⟩ := Option.isSome_iff_exists.1 hnames
    exact ⟨names, ok_of_toOption hnames⟩
  flat := flat_of_direct (by decide +kernel) (by decide +kernel)
  revision := by decide
  committed := rfl

theorem isSecret_nameSchema (key : String) : nameSchema.isSecret key = false := by
  have hplain : ∀ f ∈ nameSchema.definitions, f.2.secret = false := by decide
  unfold ProductSchema.isSecret
  cases hlookup : nameSchema.definitions.lookup key with
  | none => rfl
  | some definition => exact hplain _ (mem_of_lookup hlookup)

theorem seals_nameSchema : Seals plainOptions "web" "dev" nameSchema := by
  intro config version _
  refine ⟨_, _, rfl, parse_stringify _, fun key _ hsecret => ?_⟩
  rw [isSecret_nameSchema] at hsecret
  cases hsecret

/-- What the operator edits: the name. -/
def nameEdited (key : String) : Option (List String) := if key = "NAME" then some ["shop"] else none

end ConfigRegistry.Console
