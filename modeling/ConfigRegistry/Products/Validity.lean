import ConfigRegistry.Products.Grants

/-!
# The registry stays valid

Whatever the operations do and however they end, `services.yaml` and every schema stay acceptable,
and every document fits the schema of its product.
-/

namespace ConfigRegistry.Products

open Js Schema Store Identity

variable {o : ProductWriteOptions} {actor : Actor} {op : Operation}

/-- What the service needs of its database to load it. -/
structure Valid (o : ProductWriteOptions) (files : Files) : Prop where
  registry : ∃ source registry, files.lookup "services.yaml" = some source ∧
    ServiceRegistry.fromYaml o.rt.parseYaml source = .ok registry
  documents : ∃ schemas, SchemaSet.fromTree o.rt (listing files) = .ok schemas ∧
    ∀ product environment source, schemas.has product = true → Segment environment →
      files.lookup (documentPath product environment) = some source →
      ∃ current, ProductMutation.resolveOne o (namespaceText product environment) source = .ok current ∧
        schemas.validate product o.rt current = []

/-- A document resolves to a configuration that fits. -/
def Fitting (o : ProductWriteOptions) (product : String) (schema : ProductSchema)
    (environment source : String) : Prop :=
  ∃ current, ProductMutation.resolveOne o (namespaceText product environment) source = .ok current ∧
    schema.Fits o.rt product (configOnly current)

theorem fits_configOnly_iff {rt : Runtime} {service : String} {schema : ProductSchema} {config : Record} :
    schema.Fits rt service (configOnly config) ↔ schema.Fits rt service config := by
  constructor
  · rintro h ⟨key, value⟩ hmem
    cases hmeta : isMetadataKey key with
    | true => exact checkEntry_metadata hmeta
    | false => exact h _ (mem_configOnly.2 ⟨hmem, hmeta⟩)
  · rintro h ⟨key, value⟩ hmem
    exact h _ (mem_configOnly.1 hmem).1

/-- The same, schema by schema. -/
theorem valid_iff {files : Files} : Valid o files ↔ (∃ services, Granting o.rt files services) ∧
    SchemasAccepted o.rt files ∧ ∀ product schema, Declares o.rt files product schema →
      ∀ environment source, Segment environment →
        files.lookup (documentPath product environment) = some source →
        Fitting o product schema environment source := by
  constructor
  · rintro ⟨⟨source, registry, hsource, hok⟩, schemas, hschemas, hdocuments⟩
    refine ⟨⟨_, source, registry, hsource, hok, rfl⟩, fromTree_ok_iff.1 ⟨schemas, hschemas⟩, ?_⟩
    intro product schema hdeclares environment text hsegment hlookup
    have hs := (lookup_fromTree hschemas).2 hdeclares
    obtain ⟨current, hcurrent, hvalid⟩ :=
      hdocuments product environment text (by rw [SchemaSet.has, hs]; rfl) hsegment hlookup
    obtain ⟨schema', hs', hfits⟩ := validate_eq_nil.1 hvalid
    rw [hs] at hs'
    cases hs'
    exact ⟨current, hcurrent, fits_configOnly_iff.2 hfits⟩
  · rintro ⟨⟨services, source, registry, hsource, hok, -⟩, hschemas, hdocuments⟩
    obtain ⟨schemas, hset⟩ := fromTree_ok_iff.2 hschemas
    refine ⟨⟨source, registry, hsource, hok⟩, schemas, hset, ?_⟩
    intro product environment text hhas hsegment hlookup
    obtain ⟨schema, hs⟩ := Option.isSome_iff_exists.1 hhas
    obtain ⟨current, hcurrent, hfits⟩ := hdocuments product schema ((lookup_fromTree hset).1 hs)
      environment text hsegment hlookup
    exact ⟨current, hcurrent, validate_eq_nil.2 ⟨schema, hs, fits_configOnly_iff.1 hfits⟩⟩

/-- What was encrypted resolves to what it was made of. -/
theorem fitting_of_encodes {product environment source : String} {schema : ProductSchema} {value : Record}
    (yaml : ∀ v, o.rt.parseYaml (o.rt.stringifyYaml v) = .ok v)
    (sops : ∀ ns text source, o.encrypt ns text = .ok source → o.decrypt (configPath ns) source = .ok text)
    (h : Encodes o product environment schema value source)
    (hfits : schema.Fits o.rt product (configOnly value)) : Fitting o product schema environment source := by
  refine ⟨ProductMutation.ordered value, ?_, ?_⟩
  · rw [ProductMutation.resolveOne, sops _ _ _ h.encrypted]
    change parseConfig _ _ _ = _
    rw [parseConfig, yaml]
  · rintro ⟨key, v⟩ hmem
    obtain ⟨hmem, hmeta⟩ := mem_configOnly.1 hmem
    exact hfits _ (mem_configOnly.2 ⟨mem_ordered hmem, hmeta⟩)

theorem Fitting.of_definitions {product environment source : String} {old schema : ProductSchema}
    (h : Fitting o product old environment source) (heq : schema.definitions = old.definitions) :
    Fitting o product schema environment source := by
  obtain ⟨current, hcurrent, hfits⟩ := h
  refine ⟨current, hcurrent, fun f hf => ?_⟩
  rw [heq]
  exact hfits f hf

/-- Files of other products say what they said. -/
theorem Declares.of_lookup {rt : Runtime} {files files' : Files} {product : String} {schema : ProductSchema}
    (h : Declares rt files' product schema)
    (heq : files'.lookup (schemaPath product) = files.lookup (schemaPath product)) :
    Declares rt files product schema := by
  obtain ⟨hname, source, hsource, hok⟩ := h
  exact ⟨hname, source, heq ▸ hsource, hok⟩

/-- The product of an operation afterwards: its schema is accepted, and its documents fit it. -/
theorem Effect.own {files files' : Files} {given : List (String × Record)}
    (yaml : ∀ v, o.rt.parseYaml (o.rt.stringifyYaml v) = .ok v)
    (sops : ∀ ns text source, o.encrypt ns text = .ok source → o.decrypt (configPath ns) source = .ok text)
    (h : Effect op o actor files files' given)
    (hdocuments : ∀ product schema, Declares o.rt files product schema →
      ∀ environment source, Segment environment →
        files.lookup (documentPath product environment) = some source →
        Fitting o product schema environment source) :
    (∃ schema, Declares o.rt files' op.service schema ∧ ∀ environment source, Segment environment →
        files'.lookup (documentPath op.service environment) = some source →
        Fitting o op.service schema environment source) ∨
      files'.lookup (schemaPath op.service) = none := by
  cases h with
  | rewritten old schema gone hop hgone h =>
    refine .inl ⟨schema, h.declares, fun environment source hsegment hlookup => ?_⟩
    by_cases hgiven : ∃ value, (environment, value) ∈ given
    · obtain ⟨value, hmem⟩ := hgiven
      obtain ⟨-, hfits, written, hwritten, hencodes⟩ := h.encoded _ hmem
      rw [hwritten] at hlookup
      cases hlookup
      exact fitting_of_encodes yaml sops hencodes hfits
    · rw [h.document environment fun value hmem => hgiven ⟨value, hmem⟩] at hlookup
      rcases h.kept with hsame | hkept
      · exact (hdocuments _ old h.declared environment source hsegment hlookup).of_definitions hsame
      · rcases hkept environment source hlookup with hmem | ⟨current, hresolved, hfits, -⟩
        · exact (hgiven hmem).elim
        · rcases hresolved with ⟨hnone, -⟩ | ⟨source', hsource', hcurrent⟩
          · rw [hlookup] at hnone
            cases hnone
          · rw [hlookup] at hsource'
            cases hsource'
            exact ⟨current, hcurrent, hfits⟩
  | created r schema hop h =>
    subst hop
    refine .inl ⟨schema, h.declares, fun environment source hsegment hlookup => ?_⟩
    by_cases henv : environment ∈ r.environments
    · obtain ⟨written, hwritten, hencodes⟩ := h.encoded environment henv
      change files'.lookup (documentPath r.service environment) = _ at hlookup
      rw [hwritten] at hlookup
      cases hlookup
      exact fitting_of_encodes yaml sops hencodes (fits_configOnly_version h.fits)
    · have hnone := h.document environment henv
      change files'.lookup (documentPath r.service environment) = _ at hlookup
      rw [hnone] at hlookup
      cases hlookup
  | archived service base force schema hop hgiven h =>
    subst hop
    exact .inr h.undeclared

theorem Effect.valid {files files' : Files} {given : List (String × Record)}
    (yaml : ∀ v, o.rt.parseYaml (o.rt.stringifyYaml v) = .ok v)
    (sops : ∀ ns text source, o.encrypt ns text = .ok source → o.decrypt (configPath ns) source = .ok text)
    (h : Effect op o actor files files' given) (hv : Valid o files) : Valid o files' := by
  obtain ⟨⟨services, hg⟩, hschemas, hdocuments⟩ := valid_iff.1 hv
  have hown := h.own yaml sops hdocuments
  refine valid_iff.2 ⟨?_, ?_, ?_⟩
  · rcases h.granting yaml hg with ⟨-, hg'⟩ | ⟨r, schema, -, -, -, hg'⟩ | ⟨service, base, force, schema, -, -, -, hg'⟩
    all_goals exact ⟨_, hg'⟩
  · intro product source hname hlookup
    by_cases hp : product = op.service
    · subst hp
      rcases hown with ⟨schema, ⟨-, source', hsource', hok⟩, -⟩ | hnone
      · rw [hlookup] at hsource'
        cases hsource'
        exact ⟨schema, hok⟩
      · rw [hlookup] at hnone
        cases hnone
    · rw [(h.frame hname hp).1] at hlookup
      exact hschemas product source hname hlookup
  · intro product schema hdeclares environment source hsegment hlookup
    by_cases hp : product = op.service
    · subst hp
      rcases hown with ⟨schema', hdeclares', hfits⟩ | hnone
      · obtain rfl := hdeclares.unique hdeclares'
        exact hfits environment source hsegment hlookup
      · obtain ⟨-, source', hsource', -⟩ := hdeclares
        rw [hnone] at hsource'
        cases hsource'
    · obtain ⟨hschema, -, hdocument⟩ := h.frame hdeclares.1 hp
      rw [hdocument] at hlookup
      exact hdocuments product schema (hdeclares.of_lookup hschema) environment source hsegment hlookup

/-- Validity does not depend on who encrypts next. -/
theorem valid_options {c : Call} {files : Files} : Valid (c.options o) files ↔ Valid o files := by
  constructor <;>
  · intro h
    obtain ⟨hregistry, hschemas, hdocuments⟩ := valid_iff.1 h
    exact valid_iff.2 ⟨hregistry, hschemas, hdocuments⟩

/-- One call keeps a valid database valid. -/
theorem Call.valid {c : Call} {db : Database} (hash : Function.Injective o.contentHash)
    (yaml : ∀ v, o.rt.parseYaml (o.rt.stringifyYaml v) = .ok v)
    (sops : ∀ ns text source, c.encrypt ns text = .ok source → o.decrypt (configPath ns) source = .ok text)
    (h : Valid o db.files) : Valid o (c.perform o db).2.files := by
  rcases c.perform_cases (o := o) db hash yaml with ⟨hsame, -⟩ | ⟨heffect, -⟩
  · rw [hsame]
    exact h
  · exact valid_options.1 (heffect.valid yaml sops (valid_options.2 h))

theorem valid_emptyRegistry : Valid plainOptions emptyRegistry.files := by
  have hnone : ∀ product, emptyRegistry.files.lookup (schemaPath product) = none := fun product =>
    lookup_emptyRegistry (services_ne_schemaPath product).symm (schemaPath_ne_environments product)
  refine valid_iff.2 ⟨⟨[], granting_emptyRegistry⟩, fun product source _ hlookup => ?_, ?_⟩
  · rw [hnone] at hlookup
    cases hlookup
  · rintro product schema ⟨-, source, hsource, -⟩
    rw [hnone] at hsource
    cases hsource

end ConfigRegistry.Products
