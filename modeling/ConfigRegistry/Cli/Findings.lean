import ConfigRegistry.Cli.ValidateRepo
import ConfigRegistry.Products.GrantTable

/-!
# When the check of the repository finds nothing

The check of a database's mirror, said of the files it is a mirror of.
-/

namespace ConfigRegistry.Cli

open Js Schema Store Identity Products

variable {rt : Runtime} {files : Files}

/-! ### The files that are checked -/

theorem mem_listYamlFiles {dir path source : String} :
    (path, source) ∈ listYamlFiles (listing files) dir ↔
      files.lookup path = some source ∧ ∃ name, path = dir ++ "/" ++ name ++ ".yaml" := by
  rw [listYamlFiles, List.mem_filter, mem_listing, Bool.and_eq_true]
  refine and_congr_right fun _ => ⟨fun ⟨hstart, hend⟩ => ⟨_, eq_sliceBetween _ hstart hend (by decide)⟩, ?_⟩
  rintro ⟨name, rfl⟩
  exact ⟨startsWith_iff.2 ⟨name ++ ".yaml", String.append_assoc⟩, endsWith_iff.2 ⟨dir ++ "/" ++ name, rfl⟩⟩

theorem mem_listYamlFiles_schema {path source : String} :
    (path, source) ∈ listYamlFiles (listing files) "schema" ↔
      ∃ name, path = schemaPath name ∧ files.lookup (schemaPath name) = some source := by
  rw [mem_listYamlFiles]
  constructor
  · rintro ⟨hlookup, name, rfl⟩
    exact ⟨name, rfl, hlookup⟩
  · rintro ⟨name, rfl, hlookup⟩
    exact ⟨hlookup, name, rfl⟩

theorem mem_listYamlFiles_config {path source : String} :
    (path, source) ∈ listYamlFiles (listing files) "config" ↔
      ∃ ns, path = configPath ns ∧ files.lookup (configPath ns) = some source := by
  rw [mem_listYamlFiles]
  constructor
  · rintro ⟨hlookup, ns, rfl⟩
    exact ⟨ns, rfl, hlookup⟩
  · rintro ⟨ns, rfl, hlookup⟩
    exact ⟨hlookup, ns, rfl⟩

/-- What is between the directory and the suffix of a schema file. -/
abbrev schemaFileName (path : String) : String := sliceBetween path "schema/" ".yaml"

theorem readSchemas_ok_iff {entries : List (String × String)} :
    (∃ schemas, readSchemas entries = .ok schemas) ↔ ∀ f ∈ entries, Segment (schemaFileName f.1) := by
  induction entries with
  | nil => exact ⟨fun _ _ h => (nomatch h), fun _ => ⟨[], rfl⟩⟩
  | cons f entries ih =>
    obtain ⟨path, source⟩ := f
    rw [List.forall_mem_cons, readSchemas]
    constructor
    · rintro ⟨schemas, h⟩
      split at h
      · cases h
      · rename_i hsegment
        obtain ⟨rest, hrest, -⟩ := bind_eq_ok.1 h
        exact ⟨fun hmem => hsegment (List.contains_iff_mem.2 hmem), ih.1 ⟨rest, hrest⟩⟩
    · rintro ⟨hsegment, hall⟩
      obtain ⟨rest, hrest⟩ := ih.2 hall
      rw [if_neg fun hmem => hsegment (List.contains_iff_mem.1 hmem), hrest]
      exact ⟨_, rfl⟩

theorem mem_readSchemas {entries schemas : List (String × String)} (h : readSchemas entries = .ok schemas)
    {name source : String} : (name, source) ∈ schemas ↔
      name ≠ "__proto__" ∧ ∃ path, (path, source) ∈ entries ∧ schemaFileName path = name := by
  induction entries generalizing schemas with
  | nil =>
    cases h
    exact ⟨fun h => (nomatch h), fun ⟨_, _, h, _⟩ => (nomatch h)⟩
  | cons f entries ih =>
    obtain ⟨path, text⟩ := f
    rw [readSchemas] at h
    split at h
    · cases h
    obtain ⟨rest, hrest, h⟩ := bind_eq_ok.1 h
    have ih := ih hrest
    have hcons : (∃ p, (p, source) ∈ (path, text) :: entries ∧ schemaFileName p = name) ↔
        (text = source ∧ schemaFileName path = name) ∨
          ∃ p, (p, source) ∈ entries ∧ schemaFileName p = name := by
      constructor
      · rintro ⟨p, hmem, hp⟩
        rcases List.mem_cons.1 hmem with heq | hmem
        · cases heq
          exact .inl ⟨rfl, hp⟩
        · exact .inr ⟨p, hmem, hp⟩
      · rintro (⟨rfl, hp⟩ | ⟨p, hmem, hp⟩)
        · exact ⟨path, List.mem_cons_self, hp⟩
        · exact ⟨p, List.mem_cons_of_mem _ hmem, hp⟩
    rw [hcons]
    cases h
    split
    · rename_i hproto
      rw [ih]
      refine and_congr_right fun hne => ⟨.inr, fun h => h.resolve_left ?_⟩
      rintro ⟨-, hp⟩
      exact hne (hp.symm.trans hproto)
    · rename_i hproto
      rw [List.mem_cons, ih]
      constructor
      · rintro (heq | ⟨hne, h⟩)
        · cases heq
          exact ⟨hproto, .inl ⟨rfl, rfl⟩⟩
        · exact ⟨hne, .inr h⟩
      · rintro ⟨hne, ⟨rfl, rfl⟩ | h⟩
        · exact .inl rfl
        · exact .inr ⟨hne, h⟩

theorem readSources_eq_ok {entries sources : List (String × String)} :
    readSources entries = .ok sources ↔
      (∀ f ∈ entries, isNamespace (sliceBetween f.1 "config/" ".yaml") = true) ∧
        sources = entries.map fun f => (sliceBetween f.1 "config/" ".yaml", f.2) := by
  induction entries generalizing sources with
  | nil => exact ⟨fun h => ⟨nofun, (Except.ok.inj h).symm⟩, fun ⟨_, h⟩ => h ▸ rfl⟩
  | cons f entries ih =>
    obtain ⟨path, source⟩ := f
    rw [List.forall_mem_cons, List.map_cons, readSources]
    cases hns : isNamespace (sliceBetween path "config/" ".yaml") with
    | false => exact ⟨nofun, fun ⟨⟨h, _⟩, _⟩ => (nomatch h)⟩
    | true =>
      constructor
      · intro h
        obtain ⟨rest, hrest, h⟩ := bind_eq_ok.1 h
        cases h
        obtain ⟨hall, rfl⟩ := ih.1 hrest
        exact ⟨⟨rfl, hall⟩, rfl⟩
      · rintro ⟨⟨-, hall⟩, rfl⟩
        exact bind_eq_ok.2 ⟨_, ih.2 ⟨hall, rfl⟩, rfl⟩

/-! ### Namespaces -/

theorem segment_of_isSlug {cs : List Char} (h : isSlug cs = true) : Segment (String.ofList cs) := by
  intro hmem
  rw [String.toList_ofList] at hmem
  cases cs with
  | nil => cases hmem
  | cons c cs =>
    rw [isSlug, Bool.and_eq_true, List.all_eq_true] at h
    rcases List.mem_cons.1 hmem with rfl | hmem
    · exact absurd h.1 (by decide)
    · exact absurd (h.2 _ hmem) (by decide)

/-- The product that a namespace belongs to, as the check reads it. -/
def serviceOf (ns : String) : String := String.ofList (ns.toList.takeWhile (· != '/'))

theorem serviceOf_namespaceText {product environment : String} (h : Segment product) :
    serviceOf (namespaceText product environment) = product := by
  have hall : ∀ c ∈ product.toList, (c != '/') = true := by
    intro c hc
    rw [bne_iff_ne]
    rintro rfl
    exact h hc
  apply String.toList_inj.1
  have htext : (namespaceText product environment).toList =
      product.toList ++ '/' :: environment.toList := by simp [namespaceText]
  rw [serviceOf, String.toList_ofList, htext, List.takeWhile_append_of_pos hall]
  simp

/-- A namespace is a product and an environment. -/
theorem eq_namespaceText {ns : String} (h : isNamespace ns = true) :
    ∃ product environment, ns = namespaceText product environment ∧ ProductName product := by
  rw [isNamespace] at h
  split at h
  · rename_i service environment hsplit
    rw [Bool.and_eq_true] at h
    refine ⟨String.ofList service, String.ofList environment, ?_, segment_of_isSlug h.1, ?_, ?_⟩
    · have hjoin : ['/'].intercalate (ns.toList.splitOn '/') = ns.toList :=
        List.intercalate_splitOn '/'
      rw [hsplit] at hjoin
      apply String.toList_inj.1
      rw [← hjoin]
      simp [namespaceText, List.intercalate]
    · intro hempty
      have := congrArg String.toList hempty
      rw [String.toList_ofList] at this
      subst this
      exact absurd h.1 (by decide)
    · intro hproto
      have := congrArg String.toList hproto
      rw [String.toList_ofList] at this
      subst this
      exact absurd h.1 (by decide)
  · cases h

/-! ### Nothing is found -/

/-- The check finds nothing wrong with a document. -/
def Passes (rt : Runtime) (product : String) (schema : ProductSchema) (source : String) : Prop :=
  ∃ document, rt.parseYaml source = .ok document ∧ ∀ key v, (key, v) ∈ ownProperties document →
    key ≠ "sops" → SchemaSet.checkEntry product rt schema.definitions (key, v) = none ∧
      (schema.isSecret key = true → isEncrypted v = true)

/-- The check finds nothing wrong with the files. -/
structure Clean (rt : Runtime) (files : Files) : Prop where
  schemas : ∀ name source, files.lookup (schemaPath name) = some source →
    Segment name ∧ (name ≠ "__proto__" → ∃ schema, ProductSchema.ofSource rt name source = .ok schema)
  documents : ∀ ns source, files.lookup (configPath ns) = some source → isNamespace ns = true ∧
    ∃ schema, Products.Declares rt files (serviceOf ns) schema ∧ Passes rt (serviceOf ns) schema source
  grants : ∃ services, Granting rt files services ∧
    ∀ s ∈ services, ∀ ns ∈ s.namespaces, (files.lookup (configPath ns)).isSome = true

theorem validateDocument_eq_nil {set : SchemaSet} {ns source : String} :
    validateDocument rt set ns source = [] ↔
      ∃ schema, set.services.lookup (serviceOf ns) = some schema ∧ Passes rt (serviceOf ns) schema source := by
  rw [validateDocument, ← serviceOf]
  cases hparse : rt.parseYaml source with
  | error e => exact ⟨nofun, fun ⟨_, _, _, h, _⟩ => by rw [hparse] at h; cases h⟩
  | ok document =>
    dsimp only
    rw [List.append_eq_nil_iff, List.map_eq_nil_iff, List.map_eq_nil_iff, validate_eq_nil,
      List.filter_eq_nil_iff]
    constructor
    · rintro ⟨⟨schema, hs, hfits⟩, hsecrets⟩
      refine ⟨schema, hs, document, hparse, fun key v hmem hkey => ?_⟩
      have hconfig : (key, v) ∈ (ownProperties document).filter fun f => f.1 != "sops" :=
        List.mem_filter.2 ⟨hmem, by simpa using hkey⟩
      refine ⟨hfits _ hconfig, fun hsecret => ?_⟩
      have := hsecrets _ hconfig
      rw [isSecret_eq hs, hsecret] at this
      simpa using this
    · rintro ⟨schema, hs, document', hparse', hpass⟩
      rw [hparse] at hparse'
      cases hparse'
      refine ⟨⟨schema, hs, ?_⟩, ?_⟩
      · rintro ⟨key, v⟩ hconfig
        obtain ⟨hmem, hkey⟩ := List.mem_filter.1 hconfig
        exact (hpass key v hmem (bne_iff_ne.1 hkey)).1
      · rintro ⟨key, v⟩ hconfig
        obtain ⟨hmem, hkey⟩ := List.mem_filter.1 hconfig
        have hsecret := (hpass key v hmem (bne_iff_ne.1 hkey)).2
        rw [isSecret_eq hs]
        cases h : schema.isSecret key with
        | false => simp
        | true => simp [hsecret h]

theorem validateGrants_eq_nil {wording : Issue → String} {sources : List (String × String)}
    {servicesYaml : Option String} : validateGrants rt wording sources servicesYaml = [] ↔
      ∃ text registry, servicesYaml = some text ∧ ServiceRegistry.fromYaml rt.parseYaml text = .ok registry ∧
        ∀ s ∈ registry.services, ∀ ns ∈ s.namespaces, (sources.lookup ns).isSome = true := by
  cases servicesYaml with
  | none => exact ⟨nofun, fun ⟨_, _, h, _⟩ => (nomatch h)⟩
  | some text =>
    cases hyaml : ServiceRegistry.fromYaml rt.parseYaml text with
    | error e =>
      refine ⟨fun h => ?_, fun ⟨_, _, htext, hok, _⟩ => ?_⟩
      · simp only [validateGrants, hyaml] at h
        cases h
      · cases htext
        rw [hyaml] at hok
        cases hok
    | ok registry =>
      simp only [validateGrants, hyaml, List.flatMap_eq_nil_iff, List.map_eq_nil_iff, List.filter_eq_nil_iff]
      constructor
      · intro h
        refine ⟨text, registry, rfl, hyaml, fun s hs ns hns => ?_⟩
        have := h s hs ns hns
        rw [Option.isNone_iff_eq_none, ← ne_eq, Option.ne_none_iff_isSome] at this
        exact this
      · rintro ⟨text', registry', htext, hok, h⟩ s hs ns hns
        cases htext
        rw [hyaml] at hok
        cases hok
        rw [Option.isNone_iff_eq_none, ← ne_eq, Option.ne_none_iff_isSome]
        exact h s hs ns hns

theorem lookup_listing (path : String) : (listing files).lookup path = files.lookup path := by
  cases h : files.lookup path with
  | some source =>
    obtain ⟨text, htext⟩ := lookup_of_mem (mem_listing.2 h)
    have := mem_listing.1 (mem_of_lookup htext)
    rw [h] at this
    cases this
    exact htext
  | none =>
    cases hl : (listing files).lookup path with
    | none => rfl
    | some source =>
      rw [mem_listing.1 (mem_of_lookup hl)] at h
      cases h

/-- What the schemas that the check reads declare. -/
theorem lookup_checked {schemas : List (String × String)} {set : SchemaSet}
    (h : readSchemas (listYamlFiles (listing files) "schema") = .ok schemas)
    (hset : SchemaSet.fromFiles rt schemas = .ok set) {product : String} {schema : ProductSchema}
    (hname : ProductName product) :
    set.services.lookup product = some schema ↔ Products.Declares rt files product schema := by
  have hmem : ∀ schema, (product, schema) ∈ set.services ↔ Products.Declares rt files product schema := by
    intro schema
    rw [mem_fromFiles hset _ _]
    constructor
    · rintro ⟨source, hsource, hok⟩
      obtain ⟨-, path, hpath, hfile⟩ := (mem_readSchemas h).1 hsource
      obtain ⟨name, rfl, hlookup⟩ := mem_listYamlFiles_schema.1 hpath
      rw [schemaFileName, schemaPath, sliceBetween_append] at hfile
      subst hfile
      exact ⟨hname, source, hlookup, hok⟩
    · rintro ⟨-, source, hsource, hok⟩
      refine ⟨source, (mem_readSchemas h).2 ⟨hname.own, schemaPath product, ?_, ?_⟩, hok⟩
      · exact mem_listYamlFiles_schema.2 ⟨product, rfl, hsource⟩
      · rw [schemaFileName, schemaPath, sliceBetween_append]
  refine ⟨fun hlookup => (hmem schema).1 (mem_of_lookup hlookup), fun hdeclares => ?_⟩
  obtain ⟨schema', hlookup⟩ := lookup_of_mem ((hmem schema).2 hdeclares)
  rw [hlookup, hdeclares.unique ((hmem schema').1 (mem_of_lookup hlookup))]

/-- Every schema file that the check reads is accepted. -/
theorem checked_ok_iff :
    (∃ set, readSchemas (listYamlFiles (listing files) "schema") >>= SchemaSet.fromFiles rt = .ok set) ↔
      ∀ name source, files.lookup (schemaPath name) = some source →
        Segment name ∧ (name ≠ "__proto__" → ∃ schema, ProductSchema.ofSource rt name source = .ok schema) := by
  have hname : ∀ name, schemaFileName (schemaPath name) = name := fun name => sliceBetween_append _ _ _
  constructor
  · rintro ⟨set, h⟩ name source hlookup
    obtain ⟨schemas, hread, hset⟩ := bind_eq_ok.1 h
    have hmem := mem_listYamlFiles_schema.2 ⟨name, rfl, hlookup⟩
    have hsegment := readSchemas_ok_iff.1 ⟨schemas, hread⟩ _ hmem
    rw [hname] at hsegment
    refine ⟨hsegment, fun hproto => ?_⟩
    exact fromFiles_ok_iff.1 ⟨set, hset⟩ name source ((mem_readSchemas hread).2 ⟨hproto, _, hmem, hname name⟩)
  · intro h
    obtain ⟨schemas, hread⟩ : ∃ schemas, readSchemas (listYamlFiles (listing files) "schema") = .ok schemas := by
      refine readSchemas_ok_iff.2 ?_
      rintro ⟨path, source⟩ hmem
      obtain ⟨name, rfl, hlookup⟩ := mem_listYamlFiles_schema.1 hmem
      rw [hname]
      exact (h name source hlookup).1
    obtain ⟨set, hset⟩ : ∃ set, SchemaSet.fromFiles rt schemas = .ok set := by
      refine fromFiles_ok_iff.2 fun name source hmem => ?_
      obtain ⟨hproto, path, hpath, hfile⟩ := (mem_readSchemas hread).1 hmem
      obtain ⟨name', rfl, hlookup⟩ := mem_listYamlFiles_schema.1 hpath
      rw [hname] at hfile
      subst hfile
      exact (h name' source hlookup).2 hproto
    exact ⟨set, bind_eq_ok.2 ⟨schemas, hread, hset⟩⟩

theorem sources_eq_ok {sources : List (String × String)}
    (h : readSources (listYamlFiles (listing files) "config") = .ok sources) {ns source : String} :
    (ns, source) ∈ sources ↔ files.lookup (configPath ns) = some source := by
  obtain ⟨-, rfl⟩ := readSources_eq_ok.1 h
  rw [List.mem_map]
  constructor
  · rintro ⟨⟨path, text⟩, hmem, heq⟩
    obtain ⟨ns', rfl, hlookup⟩ := mem_listYamlFiles_config.1 hmem
    rw [configPath, sliceBetween_append] at heq
    cases heq
    exact hlookup
  · intro hlookup
    refine ⟨_, mem_listYamlFiles_config.2 ⟨ns, rfl, hlookup⟩, ?_⟩
    rw [configPath, sliceBetween_append]

/-- The check of a mirror finds nothing exactly when nothing is wrong with the files. -/
theorem validateRepository_eq_nil {wording : Issue → String} :
    validateRepository rt wording (listing files) = .ok [] ↔ Clean rt files := by
  rw [validateRepository]
  cases hread : readSchemas (listYamlFiles (listing files) "schema") >>= SchemaSet.fromFiles rt with
  | error e =>
    refine ⟨nofun, fun h => ?_⟩
    obtain ⟨set, hset⟩ := checked_ok_iff.2 h.schemas
    rw [hread] at hset
    cases hset
  | ok set =>
    obtain ⟨schemas, hschemas, hset⟩ := bind_eq_ok.1 hread
    have hnamespace : (∃ sources, readSources (listYamlFiles (listing files) "config") = .ok sources) ↔
        ∀ ns source, files.lookup (configPath ns) = some source → isNamespace ns = true := by
      constructor
      · rintro ⟨sources, h⟩ ns source hlookup
        have := (readSources_eq_ok.1 h).1 _ (mem_listYamlFiles_config.2 ⟨ns, rfl, hlookup⟩)
        rwa [configPath, sliceBetween_append] at this
      · intro h
        refine ⟨_, readSources_eq_ok.2 ⟨?_, rfl⟩⟩
        rintro ⟨path, source⟩ hmem
        obtain ⟨ns, rfl, hlookup⟩ := mem_listYamlFiles_config.1 hmem
        rw [configPath, sliceBetween_append]
        exact h ns source hlookup
    have hfound : ∀ sources, readSources (listYamlFiles (listing files) "config") = .ok sources →
        ∀ ns, (sources.lookup ns).isSome = true ↔ (files.lookup (configPath ns)).isSome = true := by
      intro sources hsources ns
      rw [Option.isSome_iff_exists, Option.isSome_iff_exists]
      constructor
      · rintro ⟨source, h⟩
        exact ⟨source, (sources_eq_ok hsources).1 (mem_of_lookup h)⟩
      · rintro ⟨source, h⟩
        exact lookup_of_mem ((sources_eq_ok hsources).2 h)
    constructor
    · intro h
      obtain ⟨sources, hsources, h⟩ := bind_eq_ok.1 h
      obtain ⟨hdocuments, hgrants⟩ := List.append_eq_nil_iff.1 (Except.ok.inj h)
      obtain ⟨text, registry, htext, hok, hgranted⟩ := validateGrants_eq_nil.1 hgrants
      rw [lookup_listing] at htext
      refine ⟨checked_ok_iff.1 ⟨set, hread⟩, fun ns source hlookup => ?_,
        registry.services, ⟨text, registry, htext, hok, rfl⟩, fun s hs ns hns =>
          (hfound sources hsources ns).1 (hgranted s hs ns hns)⟩
      have hns := hnamespace.1 ⟨sources, hsources⟩ ns source hlookup
      obtain ⟨product, environment, rfl, hname⟩ := eq_namespaceText hns
      obtain ⟨schema, hs, hpasses⟩ := validateDocument_eq_nil.1
        (List.flatMap_eq_nil_iff.1 hdocuments _ ((sources_eq_ok hsources).2 hlookup))
      rw [serviceOf_namespaceText hname.segment] at hs hpasses ⊢
      exact ⟨hns, schema, (lookup_checked hschemas hset hname).1 hs, hpasses⟩
    · rintro ⟨-, hdocuments, services, ⟨text, registry, htext, hok, rfl⟩, hgranted⟩
      obtain ⟨sources, hsources⟩ := hnamespace.2 fun ns source hlookup => (hdocuments ns source hlookup).1
      refine bind_eq_ok.2 ⟨sources, hsources, congrArg Except.ok (List.append_eq_nil_iff.2 ⟨?_, ?_⟩)⟩
      · refine List.flatMap_eq_nil_iff.2 ?_
        rintro ⟨ns, source⟩ hmem
        obtain ⟨hns, schema, hdeclares, hpasses⟩ := hdocuments ns source ((sources_eq_ok hsources).1 hmem)
        obtain ⟨product, environment, rfl, hname⟩ := eq_namespaceText hns
        refine validateDocument_eq_nil.2 ⟨schema, ?_, hpasses⟩
        rw [serviceOf_namespaceText hname.segment] at hdeclares ⊢
        exact (lookup_checked hschemas hset hname).2 hdeclares
      · refine validateGrants_eq_nil.2 ⟨text, registry, ?_, hok, fun s hs ns hns =>
          (hfound sources hsources ns).2 (hgranted s hs ns hns)⟩
        rw [lookup_listing]
        exact htext

/-- What the check has seen of the documents of a product. -/
theorem Clean.passes (h : Clean rt files) {product environment source : String}
    {schema : ProductSchema} (hdeclares : Products.Declares rt files product schema)
    (hlookup : files.lookup (documentPath product environment) = some source) :
    isNamespace (namespaceText product environment) = true ∧ Passes rt product schema source := by
  obtain ⟨hns, schema', hdeclares', hpasses⟩ := h.documents _ _ hlookup
  rw [serviceOf_namespaceText hdeclares.1.segment] at hdeclares' hpasses
  rw [hdeclares.unique hdeclares']
  exact ⟨hns, hpasses⟩

end ConfigRegistry.Cli
