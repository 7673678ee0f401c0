import ConfigRegistry.Products.Rewriting

/-!
# Creating and archiving a product

The two operations that change the registry, and what each operation does to the files.
-/

namespace ConfigRegistry.Products

open Js Schema Store

variable {o : ProductWriteOptions} {actor : Actor} {session : ProductMutation}
  {schema : ProductSchema} {op : Operation} {db db' : Database} {plan : Plan}

/-! ### Creating -/

/-- What creating a product did to the files. -/
structure Created (o : ProductWriteOptions) (r : CreateRequest) (files files' : Files)
    (given : List (String × Record)) (schema : ProductSchema) : Prop where
  product : identifier r.service = true
  uid : r.uid.isSafeInteger = true ∧ r.uid.lt (.fin 0) = false
  environments : r.environments ≠ [] ∧ ∀ environment ∈ r.environments, identifier environment = true
  undeclared : files.lookup (schemaPath r.service) = none
  undocumented : ∀ environment, files.lookup (documentPath r.service environment) = none
  schema_written : files'.lookup (schemaPath r.service) = some r.schema
  accepted : ProductSchema.ofSource o.rt r.service r.schema = .ok schema
  fits : schema.Fits o.rt r.service r.defaults
  plain : ∀ key ∈ r.defaults.keys, isMetadataKey key = false ∧ schema.isSecret key = false
  given_eq : given = r.environments.map fun environment => (environment, newDocument r)
  encoded : ∀ environment ∈ r.environments, ∃ source,
    files'.lookup (documentPath r.service environment) = some source ∧
      Encodes o r.service environment schema (newDocument r) source
  document : ∀ environment, environment ∉ r.environments →
    files'.lookup (documentPath r.service environment) = none
  registry : ∃ registry services,
    o.rt.parseYaml ((files.lookup "services.yaml").getD "version: 1\nservices: []\n") = .ok registry ∧
      registry.field "services" = some (.arr services) ∧
      (∀ entry ∈ services, ProductMutation.isNamed r.service entry = false ∧
        ProductMutation.hasUid r.uid entry = false) ∧
      files'.lookup "services.yaml" = some (o.rt.stringifyYaml
        (registry.set "services" (.arr (services ++ [newIdentity r]))))
  others : ∀ path, path ≠ schemaPath r.service → path ≠ "services.yaml" →
    (∀ environment, path ≠ documentPath r.service environment) → files'.lookup path = files.lookup path

theorem Created.declares {r : CreateRequest} {files files' : Files} {given : List (String × Record)}
    (h : Created o r files files' given schema) : Declares o.rt files' r.service schema :=
  ⟨productName_of_identifier h.product, r.schema, h.schema_written, h.accepted⟩

/-- What `createProduct` plans. -/
structure Creates (session : ProductMutation) (r : CreateRequest) (schema : ProductSchema)
    (services : List Value) (plan : Plan) : Prop where
  uid : r.uid.isSafeInteger = true ∧ r.uid.lt (.fin 0) = false
  environments : r.environments ≠ [] ∧ ∀ environment ∈ r.environments, identifier environment = true
  undeclared : session.schemas.services.lookup r.service = none
  undocumented : session.environments = []
  accepted : ProductSchema.ofSource session.options.rt r.service r.schema = .ok schema
  fits : schema.Fits session.options.rt r.service r.defaults
  plain : ∀ key ∈ r.defaults.keys, isMetadataKey key = false ∧ schema.isSecret key = false
  given_eq : plan.given = r.environments.map fun environment => (environment, newDocument r)
  listed : session.services = .ok services
  fresh : ∀ entry ∈ services, ProductMutation.isNamed r.service entry = false ∧
    ProductMutation.hasUid r.uid entry = false
  documents : ∃ documents, List.Forall₂ (Rewrite session schema) documents plan.given ∧
    plan.writes = session.put (schemaPath r.service) (some r.schema) [r.service] ::
      (documents ++ [session.put "services.yaml" (some (session.options.rt.stringifyYaml
        (session.registry.set "services" (.arr (services ++ [newIdentity r]))))) [r.service]])

theorem newDocuments_eq_ok {r : CreateRequest} {schemas : SchemaSet} {environments : List String}
    {documents : List MutationRequest} (hservice : session.service = r.service)
    (hs : schemas.services.lookup session.service = some schema)
    (hfits : schema.Fits session.options.rt session.service r.defaults)
    (hid : ∀ environment ∈ environments, identifier environment = true)
    (h : newDocuments session r schemas environments = .ok documents) :
    List.Forall₂ (Rewrite session schema) documents
      (environments.map fun environment => (environment, newDocument r)) := by
  induction environments generalizing documents with
  | nil => cases h; exact .nil
  | cons environment environments ih =>
    obtain ⟨source, hsource, h⟩ := bind_eq_ok.1 h
    obtain ⟨rest, hrest, h⟩ := bind_eq_ok.1 h
    cases h
    refine .cons ?_ (ih (fun e he => hid e (List.mem_cons_of_mem _ he)) hrest)
    exact rewrite_of_encode hs (hid environment List.mem_cons_self) (by rw [hservice]) hfits hsource

theorem createProduct_eq_ok {r : CreateRequest} (hservice : session.service = r.service)
    (h : createProduct r session = .ok plan) :
    ∃ schema services, Creates session r schema services plan := by
  obtain ⟨-, h⟩ := guard_eq_ok (by simp) h
  obtain ⟨huid, h⟩ := guard_eq_ok (by simp) h
  obtain ⟨services, hservices, h⟩ := bind_eq_ok.1 h
  obtain ⟨named, hnamed, h⟩ := bind_eq_ok.1 h
  obtain ⟨hnone, h⟩ := guard_eq_ok (by simp) h
  obtain ⟨holder, hholder, h⟩ := bind_eq_ok.1 h
  cases holder with
  | some holder => cases h
  | none =>
    obtain ⟨hexists, h⟩ := guard_eq_ok (by simp) h
    obtain ⟨henvironments, h⟩ := guard_eq_ok (by simp) h
    obtain ⟨schemas, hschemas, h⟩ := bind_eq_ok.1 h
    obtain ⟨hvalid, h⟩ := guard_eq_ok (by simp) h
    obtain ⟨hplain, h⟩ := guard_eq_ok (by simp) h
    obtain ⟨documents, hdocuments, h⟩ := bind_eq_ok.1 h
    cases h
    obtain ⟨schema, hschema, hlookup⟩ := fromFiles_one (lift_eq_ok.1 hschemas)
    obtain ⟨schema', hs', hfits⟩ := validate_eq_nil.1 (by simpa using hvalid)
    rw [hlookup] at hs'
    cases hs'
    simp only [Bool.or_eq_false_iff] at huid hexists henvironments
    have hid : ∀ environment ∈ r.environments, identifier environment = true := by
      intro environment hmem
      have := List.any_eq_false.1 henvironments.2 environment hmem
      simp at this
      exact this.1
    refine ⟨schema, services, ?_, ⟨?_, hid⟩, ?_, ?_, hschema, hfits, ?_, rfl, hservices, ?_,
      documents, ?_, rfl⟩
    · exact ⟨by simpa using huid.1, huid.2⟩
    · simpa using henvironments.1.1
    · exact Option.isNone_iff_eq_none.1 (by simpa [SchemaSet.has] using hexists.1)
    · simpa using hexists.2
    · intro key hkey
      have := List.any_eq_false.1 hplain key hkey
      rw [isSecret_eq hlookup] at this
      simpa using this
    · intro entry hentry
      have hnone : named = none := by simpa using hnone
      exact ⟨find_eq_none (hnone ▸ hnamed) entry hentry, find_eq_none hholder entry hentry⟩
    · rw [← hservice] at hlookup hfits
      exact newDocuments_eq_ok hservice hlookup hfits hid hdocuments

theorem Creates.created {r : CreateRequest} {services : List Value}
    (hp : Performed (.createProduct r) o actor db db' session plan)
    (h : Creates session r schema services plan) : Created o r db.files db'.files plan.given schema := by
  obtain ⟨documents, hdocuments, hwrites⟩ := h.documents
  have hproduct : identifier r.service = true := hp.product
  have hsegment := segment_of_identifier hproduct
  have hopen := hp.opened
  obtain ⟨rfl, hservice, -, hfiles, -, -, -⟩ := id hopen
  change session.service = r.service at hservice
  have hpaths : ∀ w ∈ plan.writes, w.path = schemaPath r.service ∨ w.path = "services.yaml" ∨
      ∃ environment ∈ r.environments, w.path = documentPath r.service environment := by
    intro w hw
    rw [hwrites, List.mem_cons, List.mem_append, List.mem_singleton] at hw
    rcases hw with rfl | hw | rfl
    · exact .inl rfl
    · obtain ⟨g, hg, hrewrite⟩ := forall₂_left hdocuments hw
      rw [h.given_eq] at hg
      obtain ⟨environment, henv, rfl⟩ := List.mem_map.1 hg
      exact .inr (.inr ⟨environment, henv, hservice ▸ hrewrite.path⟩)
    · exact .inr (.inl rfl)
  have hundocumented : ∀ environment, db.files.lookup (documentPath r.service environment) = none := by
    intro environment
    cases hlookup : db.files.lookup (documentPath r.service environment) with
    | none => rfl
    | some source =>
      rw [← hfiles, ← hservice] at hlookup
      have hmem := mem_environments_of_lookup hlookup
      rw [h.undocumented] at hmem
      cases hmem
  refine ⟨hproduct, h.uid, h.environments, ?_, hundocumented, hp.written (hwrites ▸ List.mem_cons_self),
    h.accepted, h.fits, h.plain, h.given_eq, ?_, ?_, ?_, ?_⟩
  · cases hlookup : db.files.lookup (schemaPath r.service) with
    | none => rfl
    | some source =>
      obtain ⟨schema', hok⟩ := fromTree_ok_iff.1 ⟨_, hopen.schemas⟩ r.service source
        (productName_of_identifier hproduct) hlookup
      have hdeclared := hopen.declares.2 ⟨productName_of_identifier hproduct, source, hlookup, hok⟩
      rw [h.undeclared] at hdeclared
      cases hdeclared
  · intro environment henv
    obtain ⟨w, hw, hrewrite⟩ := forall₂_right hdocuments
      (h.given_eq ▸ List.mem_map_of_mem henv : (environment, newDocument r) ∈ plan.given)
    obtain ⟨source, hsource, hencodes⟩ := hrewrite.content
    have hmem : w ∈ plan.writes := by
      rw [hwrites]
      exact List.mem_cons_of_mem _ (List.mem_append_left _ hw)
    rw [hservice] at hencodes
    refine ⟨source, ?_, hencodes⟩
    rw [← hsource, ← hp.written hmem, hrewrite.path, hservice]
  · intro environment hnot
    refine (hp.untouched fun w hw hpath => ?_).trans (hundocumented environment)
    rcases hpaths w hw with hw | hw | ⟨e, he, hw⟩
    · exact schemaPath_ne_documentPath _ _ _ (hw.symm.trans hpath)
    · exact services_ne_documentPath _ _ (hw.symm.trans hpath)
    · obtain ⟨-, rfl⟩ := documentPath_inj hsegment hsegment (hpath.symm.trans hw)
      exact hnot he
  · refine ⟨session.registry, services, hopen.registry, services_eq_ok.1 h.listed, h.fresh, ?_⟩
    have hmem : session.put "services.yaml" (some (session.options.rt.stringifyYaml
        (session.registry.set "services" (.arr (services ++ [newIdentity r]))))) [r.service] ∈ plan.writes := by
      rw [hwrites]
      exact List.mem_cons_of_mem _ (List.mem_append_right _ (List.mem_singleton_self _))
    exact hp.written hmem
  · intro path hschemaPath hservices hdocumentPath
    refine hp.untouched fun w hw hpath => ?_
    rcases hpaths w hw with hw | hw | ⟨e, -, hw⟩
    · exact hschemaPath (hpath.symm.trans hw)
    · exact hservices (hpath.symm.trans hw)
    · exact hdocumentPath e (hpath.symm.trans hw)

/-! ### Archiving -/

/-- What archiving a product did to the files. -/
structure Archived (o : ProductWriteOptions) (actor : Actor) (service : String) (files files' : Files)
    (schema : ProductSchema) : Prop where
  product : identifier service = true
  declared : Declares o.rt files service schema
  registry : ∃ registry services,
    o.rt.parseYaml ((files.lookup "services.yaml").getD "version: 1\nservices: []\n") = .ok registry ∧
      registry.field "services" = some (.arr services) ∧
      (∃ entry ∈ services, ProductMutation.isNamed service entry = true) ∧
      files'.lookup "services.yaml" = some (o.rt.stringifyYaml (registry.set "services"
        (.arr (services.filter fun entry => !ProductMutation.isNamed service entry))))
  archive : ∃ source identity environments, files.lookup (schemaPath service) = some source ∧
    files'.lookup (archivedPath service) = some (o.rt.stringifyYaml (.obj [("version", .num (.fin 1)),
      ("archived", .obj [("at", .str o.now), ("by", .str actor.email)]), ("service", identity),
      ("schema", .str source), ("environments", .obj environments)])) ∧
    ∀ environment value, (environment, value) ∈ environments ↔
      ∃ text, value = .str text ∧ files.lookup (documentPath service environment) = some text
  undeclared : files'.lookup (schemaPath service) = none
  undocumented : ∀ environment, files'.lookup (documentPath service environment) = none
  others : ∀ path, path ≠ schemaPath service → path ≠ "services.yaml" → path ≠ archivedPath service →
    (∀ environment, path ≠ documentPath service environment) → files'.lookup path = files.lookup path

theorem archiveProduct_eq_ok {service : String} {expectedBase : Option String} {force : Bool}
    (h : archiveProduct service expectedBase force session = .ok plan) :
    ∃ identity services, session.requireProduct = .ok identity ∧ session.services = .ok services ∧
      plan.given = [] ∧ ∀ w, w ∈ plan.writes ↔
        w = session.put "services.yaml" (some (session.options.rt.stringifyYaml (session.registry.set
          "services" (.arr (services.filter fun entry => !ProductMutation.isNamed service entry))))) [service] ∨
        w = session.put (archivedPath service)
          (some (session.options.rt.stringifyYaml (archiveOf session service identity))) [service] ∨
        (∃ f ∈ session.environments, w = session.put f.1 none [service]) ∨
        w = session.put (schemaPath service) none [service] := by
  obtain ⟨-, h⟩ := guard_eq_ok (by simp) h
  obtain ⟨identity, hp, h⟩ := bind_eq_ok.1 h
  obtain ⟨-, h⟩ := guard_eq_ok (by simp) h
  obtain ⟨-, h⟩ := guard_eq_ok (by simp) h
  obtain ⟨services, hservices, h⟩ := bind_eq_ok.1 h
  obtain ⟨kept, hkept, h⟩ := bind_eq_ok.1 h
  cases h
  obtain rfl := filter_eq_ok hkept
  refine ⟨identity, services, hp, hservices, rfl, fun w => ?_⟩
  rw [List.mem_cons, List.mem_cons, List.mem_append, List.mem_map, List.mem_singleton]
  simp only [eq_comm]

theorem archived_of_performed {service : String} {expectedBase : Option String} {force : Bool}
    (hp : Performed (.archiveProduct service expectedBase force) o actor db db' session plan) :
    (∃ schema, Archived o actor service db.files db'.files schema) ∧ plan.given = [] := by
  obtain ⟨identity, services, hproduct, hservices, hgiven, hmem⟩ := archiveProduct_eq_ok hp.planned
  have hid : identifier service = true := hp.product
  have hsegment := segment_of_identifier hid
  have hopen := hp.opened
  obtain ⟨rfl, hservice, rfl, hfiles, -, -, -⟩ := id hopen
  change session.service = service at hservice
  obtain ⟨services', schema, hservices', hentry, hnamed, hs⟩ := requireProduct_eq_ok hproduct
  rw [hservices] at hservices'
  cases hservices'
  have hdeclared := hopen.declares.1 (hservice ▸ hs)
  obtain ⟨source, hsource, -⟩ := hdeclared.2
  refine ⟨⟨schema, hid, hdeclared, ?_, ?_, ?_, ?_, ?_⟩, hgiven⟩
  · refine ⟨session.registry, services, hopen.registry, services_eq_ok.1 hservices,
      ⟨identity, hentry, hservice ▸ hnamed⟩, ?_⟩
    exact hp.written ((hmem _).2 (.inl rfl))
  · refine ⟨source, identity, session.environments.map fun f =>
      (session.environmentOf f.1, .str f.2), hsource, ?_, ?_⟩
    · have hwritten := hp.written ((hmem _).2 (.inr (.inl rfl)))
      rw [archiveOf, hfiles, hsource] at hwritten
      exact hwritten
    · intro environment value
      rw [List.mem_map]
      constructor
      · rintro ⟨f, hf, heq⟩
        obtain ⟨rfl, rfl⟩ := Prod.mk.inj heq
        obtain ⟨hpath, hlookup⟩ := mem_environments hf
        refine ⟨f.2, rfl, ?_⟩
        rw [← hservice, ← hpath, ← hfiles]
        exact hlookup
      · rintro ⟨text, rfl, hlookup⟩
        rw [← hfiles, ← hservice] at hlookup
        exact ⟨_, mem_environments_of_lookup hlookup,
          congrArg (·, Value.str text) (environmentOf_documentPath environment)⟩
  · exact hp.written ((hmem _).2 (.inr (.inr (.inr rfl))))
  · intro environment
    cases hlookup : db.files.lookup (documentPath service environment) with
    | none =>
      refine (hp.untouched fun w hw hpath => ?_).trans hlookup
      rcases (hmem w).1 hw with rfl | rfl | ⟨f, hf, rfl⟩ | rfl
      · exact services_ne_documentPath _ _ hpath
      · exact archivedPath_ne_documentPath _ _ _ hpath
      · have := (mem_environments hf).2
        rw [hfiles, show f.1 = _ from hpath, hlookup] at this
        cases this
      · exact schemaPath_ne_documentPath _ _ _ hpath
    | some source =>
      rw [← hfiles, ← hservice] at hlookup
      rw [← hservice]
      exact hp.written ((hmem _).2 (.inr (.inr (.inl ⟨_, mem_environments_of_lookup hlookup, rfl⟩))))
  · intro path hschemaPath hservicesPath harchivedPath hdocumentPath
    refine hp.untouched fun w hw hpath => ?_
    rcases (hmem w).1 hw with rfl | rfl | ⟨f, hf, rfl⟩ | rfl
    · exact hservicesPath hpath.symm
    · exact harchivedPath hpath.symm
    · refine hdocumentPath (session.environmentOf f.1) ?_
      rw [← hservice, ← (mem_environments hf).1]
      exact hpath.symm
    · exact hschemaPath hpath.symm

/-! ### Any operation -/

/-- What an operation that was carried out did to the files. -/
inductive Effect (op : Operation) (o : ProductWriteOptions) (actor : Actor) (files files' : Files)
    (given : List (String × Record)) : Prop
  | rewritten (old schema : ProductSchema) (gone : List String) (hop : op.rewrites = true)
      (hgone : ∀ key, key ∈ gone ↔ key ∈ op.gone)
      (h : Rewritten o op.service op.target files files' given old schema gone)
  | created (r : CreateRequest) (schema : ProductSchema) (hop : op = .createProduct r)
      (h : Created o r files files' given schema)
  | archived (service : String) (expectedBase : Option String) (force : Bool) (schema : ProductSchema)
      (hop : op = .archiveProduct service expectedBase force) (hgiven : given = [])
      (h : Archived o actor service files files' schema)

/-- Paths that are of another product than `service`, or of none. -/
def Foreign (service path : String) : Prop :=
  path ≠ schemaPath service ∧ path ≠ archivedPath service ∧
    ∀ environment, path ≠ documentPath service environment

/-- Beside the registry an operation writes the files of its own product only. -/
theorem Effect.foreign {files files' : Files} {given : List (String × Record)}
    (h : Effect op o actor files files' given) {path : String} (hf : Foreign op.service path)
    (hpath : path ≠ "services.yaml") : files'.lookup path = files.lookup path := by
  obtain ⟨hschema, harchived, hdocument⟩ := hf
  cases h with
  | rewritten old schema gone hop hgone h => exact h.others path hschema hdocument
  | created r schema hop h =>
    subst hop
    exact h.others path hschema hpath hdocument
  | archived service base force schema hop hgiven h =>
    subst hop
    exact h.others path hschema hpath harchived hdocument

/-- What an operation does to the files of other products: nothing. -/
theorem Effect.frame {files files' : Files} {given : List (String × Record)}
    (h : Effect op o actor files files' given) {product : String} (hname : ProductName product)
    (hp : product ≠ op.service) :
    files'.lookup (schemaPath product) = files.lookup (schemaPath product) ∧
      files'.lookup (archivedPath product) = files.lookup (archivedPath product) ∧
      ∀ environment, files'.lookup (documentPath product environment) =
        files.lookup (documentPath product environment) := by
  have hservice : Segment op.service := by
    cases h with
    | rewritten old schema gone hop hgone h => exact segment_of_identifier h.product
    | created r schema hop h =>
      subst hop
      exact segment_of_identifier h.product
    | archived service base force schema hop hgiven h =>
      subst hop
      exact segment_of_identifier h.product
  refine ⟨h.foreign ⟨fun heq => hp (schemaPath_inj heq), fun heq => ?_, fun e heq => ?_⟩ ?_,
    h.foreign ⟨fun heq => ?_, fun heq => hp (archivedPath_inj heq), fun e heq => ?_⟩ ?_,
    fun environment => h.foreign ⟨fun heq => ?_, fun heq => ?_, fun e heq => ?_⟩ ?_⟩
  · exact archivedPath_ne_schemaPath _ _ heq.symm
  · exact schemaPath_ne_documentPath _ _ _ heq
  · exact (services_ne_schemaPath _).symm
  · exact archivedPath_ne_schemaPath _ _ heq
  · exact archivedPath_ne_documentPath _ _ _ heq
  · exact (services_ne_archivedPath _).symm
  · exact schemaPath_ne_documentPath _ _ _ heq.symm
  · exact archivedPath_ne_documentPath _ _ _ heq.symm
  · exact hp (documentPath_inj hname.segment hservice heq).1
  · exact (services_ne_documentPath _ _).symm

theorem Performed.effect (yaml : ∀ v, o.rt.parseYaml (o.rt.stringifyYaml v) = .ok v)
    (h : Performed op o actor db db' session plan) :
    Effect op o actor db.files db'.files plan.given := by
  have hplan := h.planned
  have hopen := h.opened
  obtain ⟨rfl, hservice, rfl, hfiles, -, -, -⟩ := id hopen
  rw [← hservice, ← hfiles] at hopen
  cases op with
  | createProduct r =>
    obtain ⟨schema, services, hcreates⟩ := createProduct_eq_ok hservice hplan
    exact .created r schema rfl (hcreates.created h)
  | writeValues r =>
    obtain ⟨old, hrewrites⟩ := writeValues_eq_ok hplan
    exact .rewritten old old [] rfl (fun _ => Iff.rfl) (hrewrites.rewritten h)
  | setRetiring service retiring force =>
    change session.service = service at hservice
    subst hservice
    obtain ⟨old, schema, hrewrites⟩ := setRetiring_eq_ok yaml hopen hplan
    exact .rewritten old schema [] rfl (fun _ => Iff.rfl) (hrewrites.rewritten h)
  | promote r =>
    obtain ⟨old, hrewrites⟩ := promote_eq_ok hplan
    exact .rewritten old old [] rfl (fun _ => Iff.rfl) (hrewrites.rewritten h)
  | addKeys r =>
    obtain ⟨old, schema, hrewrites⟩ := addKeys_eq_ok yaml hopen hservice hplan
    exact .rewritten old schema [] rfl (fun _ => Iff.rfl) (hrewrites.rewritten h)
  | deleteKeys service selected expectedBase =>
    change session.service = service at hservice
    subst hservice
    obtain ⟨old, schema, gone, hgone, hrewrites⟩ := deleteKeys_eq_ok yaml hopen hplan
    exact .rewritten old schema gone rfl hgone (hrewrites.rewritten h)
  | archiveProduct service expectedBase force =>
    obtain ⟨⟨schema, harchived⟩, hgiven⟩ := archived_of_performed h
    exact .archived service expectedBase force schema rfl hgiven harchived

end ConfigRegistry.Products
