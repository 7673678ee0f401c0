import ConfigRegistry.Products.Effects
import ConfigRegistry.Schema.Drafts
import Mathlib.Data.List.Forall2

/-!
# Rewriting the documents of a product

`writeValues`, `promote`, `setRetiring`, `addKeys` and `deleteKeys` leave the registry alone: each
writes some documents of one product, and may replace its schema.
-/

namespace ConfigRegistry.Products

open Js Schema Store

variable {o : ProductWriteOptions} {actor : Actor} {session : ProductMutation}
  {old schema : ProductSchema}

/-- A request that writes what the encryptor made of a document. -/
structure Rewrite (session : ProductMutation) (schema : ProductSchema) (w : MutationRequest)
    (g : String × Record) : Prop where
  environment : identifier g.1 = true
  path : w.path = documentPath session.service g.1
  fits : schema.Fits session.options.rt session.service (configOnly g.2)
  content : ∃ source, w.content = some source ∧
    Encodes session.options session.service g.1 schema g.2 source

/-- A file that is not written holds a document that fits, and none of the keys that go. -/
def Kept (session : ProductMutation) (schema : ProductSchema) (gone : List String)
    (environment : String) : Prop :=
  ∃ current, session.document environment = .ok current ∧
    schema.Fits session.options.rt session.service (configOnly current) ∧
    ∀ key ∈ gone, ∀ v, (key, v) ∉ configOnly current

theorem fits_configOnly_version {service : String} {rt : Runtime} {next : Record} {v : Value}
    (h : schema.Fits rt service next) : schema.Fits rt service (configOnly (next.set "version" v)) := by
  rintro ⟨key, value⟩ hmem
  obtain ⟨hmem, hmeta⟩ := mem_configOnly.1 hmem
  rcases Record.mem_set hmem with hmem | ⟨rfl, -⟩
  · exact h _ hmem
  · cases hmeta

/-- A document with its next version is encoded and put. -/
theorem rewrite_of_encode {environment : String} {next : Record} {v : Value} {set : SchemaSet}
    {source : String} {keys : List String} {path : String}
    (hs : set.services.lookup session.service = some schema) (hid : identifier environment = true)
    (hpath : path = documentPath session.service environment)
    (hfits : schema.Fits session.options.rt session.service next)
    (h : session.encode environment (next.set "version" v) set = .ok source) :
    Rewrite session schema (session.put path (some source) keys) (environment, next.set "version" v) where
  environment := hid
  path := hpath
  fits := fits_configOnly_version hfits
  content := ⟨source, rfl, encode_eq_ok hs h⟩

/-- What `values` does: nothing, or write the document of the environment. -/
theorem values_eq_ok {environment : String} {changes : List (String × Option Value)}
    {expectedEtag : Option (Option String)} {plan : Plan}
    (hs : session.schemas.services.lookup session.service = some schema)
    (h : session.values environment changes expectedEtag = .ok plan) :
    List.Forall₂ (Rewrite session schema) plan.writes plan.given ∧
      ∀ g ∈ plan.given, g.1 = environment := by
  simp only [ProductMutation.values] at h
  obtain ⟨-, h⟩ := guard_eq_ok (by simp) h
  obtain ⟨-, h⟩ := guard_eq_ok (by simp) h
  obtain ⟨current, hcurrent, h⟩ := bind_eq_ok.1 h
  obtain ⟨next, hnext, h⟩ := bind_eq_ok.1 h
  obtain ⟨hvalid, h⟩ := guard_eq_ok (by simp) h
  have hfits : schema.Fits session.options.rt session.service next := by
    obtain ⟨schema', hs', hfits⟩ := validate_eq_nil.1 (by simpa using hvalid)
    rw [hs] at hs'
    cases hs'
    exact hfits
  split at h
  · cases h
    exact ⟨.nil, nofun⟩
  · obtain ⟨source, hsource, h⟩ := bind_eq_ok.1 h
    cases h
    refine ⟨.cons ?_ .nil, fun g hg => by rw [List.mem_singleton.1 hg]⟩
    exact rewrite_of_encode hs (document_eq_ok hcurrent).1 rfl hfits hsource

/-! ### Every environment in turn -/

/-- What a pass over environment files does with each of them. -/
structure Swept (session : ProductMutation) (schema : ProductSchema) (gone : List String)
    (added : Record) (envs : List (String × String)) (plan : Plan) : Prop where
  documents : List.Forall₂ (Rewrite session schema) plan.writes plan.given
  drawn : ∀ g ∈ plan.given, ∃ current, session.document g.1 = .ok current ∧
    ∀ key v, (key, v) ∈ configOnly g.2 → (key, v) ∈ configOnly current ∨ (key, v) ∈ added
  existing : ∀ g ∈ plan.given, ∃ f ∈ envs, g.1 = session.environmentOf f.1
  each : ∀ f ∈ envs, (∃ value, (session.environmentOf f.1, value) ∈ plan.given) ∨
    Kept session schema gone (session.environmentOf f.1)

theorem Swept.nil {gone : List String} {added : Record} : Swept session schema gone added [] {} :=
  ⟨.nil, nofun, nofun, nofun⟩

/-- One more file, which was kept. -/
theorem Swept.keep {gone : List String} {added : Record} {f : String × String}
    {envs : List (String × String)} {reads : List String} {others : Plan}
    (h : Swept session schema gone added envs others)
    (hk : Kept session schema gone (session.environmentOf f.1)) :
    Swept session schema gone added (f :: envs)
      (Plan.append { reads := reads } (Plan.append {} others)) where
  documents := h.documents
  drawn := h.drawn
  existing g hg := by
    obtain ⟨f', hf', heq⟩ := h.existing g hg
    exact ⟨f', List.mem_cons_of_mem _ hf', heq⟩
  each f' hf' := by
    rcases List.mem_cons.1 hf' with rfl | hf'
    · exact .inr hk
    · exact h.each f' hf'

/-- One more file, which was written. -/
theorem Swept.write {gone : List String} {added : Record} {f : String × String}
    {envs : List (String × String)} {reads : List String} {others : Plan} {w : MutationRequest}
    {current value : Record} (h : Swept session schema gone added envs others)
    (hw : Rewrite session schema w (session.environmentOf f.1, value))
    (hcurrent : session.document (session.environmentOf f.1) = .ok current)
    (hdrawn : ∀ key v, (key, v) ∈ configOnly value → (key, v) ∈ configOnly current ∨ (key, v) ∈ added) :
    Swept session schema gone added (f :: envs)
      (Plan.append { reads := reads } (Plan.append
        { writes := [w], given := [(session.environmentOf f.1, value)] } others)) where
  documents := .cons hw h.documents
  drawn g hg := by
    rcases List.mem_cons.1 hg with rfl | hg
    · exact ⟨current, hcurrent, hdrawn⟩
    · exact h.drawn g hg
  existing g hg := by
    rcases List.mem_cons.1 hg with rfl | hg
    · exact ⟨f, List.mem_cons_self, rfl⟩
    · obtain ⟨f', hf', heq⟩ := h.existing g hg
      exact ⟨f', List.mem_cons_of_mem _ hf', heq⟩
  each f' hf' := by
    rcases List.mem_cons.1 hf' with rfl | hf'
    · exact .inl ⟨value, List.mem_cons_self⟩
    · exact (h.each f' hf').imp_left fun ⟨v, hv⟩ => ⟨v, List.mem_cons_of_mem _ hv⟩

theorem mem_configOnly_version {next : Record} {v w : Value} {key : String}
    (h : (key, w) ∈ configOnly (next.set "version" v)) : (key, w) ∈ next := by
  obtain ⟨h, hmeta⟩ := mem_configOnly.1 h
  rcases Record.mem_set h with h | ⟨rfl, -⟩
  · exact h
  · cases hmeta

theorem mem_assign {r other : Record} {key : String} {v : Value} (h : (key, v) ∈ r.assign other) :
    (key, v) ∈ r ∨ (key, v) ∈ other := by
  rw [Record.assign] at h
  induction other generalizing r with
  | nil => exact .inl h
  | cons f other ih =>
    rcases ih h with h | h
    · rcases Record.mem_set h with h | ⟨rfl, rfl⟩
      · exact .inl h
      · exact .inr List.mem_cons_self
    · exact .inr (List.mem_cons_of_mem _ h)

theorem addDefaults_eq_ok {r : AddKeysRequest} {candidate : SchemaSet} {names : List String}
    {defaults : Record} {envs : List (String × String)} {plan : Plan} (hservice : session.service = r.service)
    (hs : candidate.services.lookup r.service = some schema)
    (h : addDefaults session r candidate names defaults envs = .ok plan) :
    Swept session schema [] defaults envs plan := by
  induction envs generalizing plan with
  | nil => cases h; exact .nil
  | cons f envs ih =>
    simp only [addDefaults] at h
    obtain ⟨current, hcurrent, h⟩ := bind_eq_ok.1 h
    generalize hnext : (if (session.environmentOf f.1 == r.environment) = true then
      (configOnly current).assign defaults else configOnly current) = next at h
    obtain ⟨-, h⟩ := guard_eq_ok (by simp) h
    obtain ⟨hvalid, h⟩ := guard_eq_ok (by simp) h
    obtain ⟨schema', hs', hfits⟩ := validate_eq_nil.1 (by simpa using hvalid)
    rw [hs] at hs'
    cases hs'
    rw [← hservice] at hs hfits
    split at h
    · rename_i htarget
      obtain ⟨source, hsource, h⟩ := bind_eq_ok.1 h
      obtain ⟨wrote, hwrote, h⟩ := bind_eq_ok.1 h
      obtain ⟨others, hothers, h⟩ := bind_eq_ok.1 h
      cases hwrote
      cases h
      have henv : session.environmentOf f.1 = r.environment := by
        simp only [Bool.and_eq_true, beq_iff_eq] at htarget
        exact htarget.1
      refine (ih hothers).write (rewrite_of_encode hs (document_eq_ok hcurrent).1 ?_ hfits hsource)
        hcurrent fun key v hmem => ?_
      · rw [henv, hservice]
      · have hmem := mem_configOnly_version hmem
        rw [henv, beq_self_eq_true, if_pos rfl] at hnext
        rw [← hnext] at hmem
        exact mem_assign hmem
    · rename_i htarget
      obtain ⟨wrote, hwrote, h⟩ := bind_eq_ok.1 h
      obtain ⟨others, hothers, h⟩ := bind_eq_ok.1 h
      cases hwrote
      cases h
      refine (ih hothers).keep ⟨current, hcurrent, ?_, nofun⟩
      cases heq : session.environmentOf f.1 == r.environment with
      | true =>
        rw [heq] at htarget
        exact hfits.of_deepEqual (by simpa using htarget)
      | false =>
        rw [heq] at hnext
        subst hnext
        exact hfits

theorem deleteFrom_eq_ok {candidate : SchemaSet} {keys : List String} {envs : List (String × String)}
    {plan : Plan} (hs : candidate.services.lookup session.service = some schema)
    (henvs : ∀ f ∈ envs, f.1 = documentPath session.service (session.environmentOf f.1))
    (h : deleteFrom session session.service candidate keys envs = .ok plan) :
    Swept session schema keys [] envs plan := by
  induction envs generalizing plan with
  | nil => cases h; exact .nil
  | cons f envs ih =>
    simp only [deleteFrom] at h
    obtain ⟨current, hcurrent, h⟩ := bind_eq_ok.1 h
    obtain ⟨hvalid, h⟩ := guard_eq_ok (by simp) h
    obtain ⟨schema', hs', hfits⟩ := validate_eq_nil.1 (by simpa using hvalid)
    rw [hs] at hs'
    cases hs'
    have hpaths : ∀ f ∈ envs, f.1 = documentPath session.service (session.environmentOf f.1) :=
      fun f' hf' => henvs f' (List.mem_cons_of_mem _ hf')
    split at h
    · obtain ⟨source, hsource, h⟩ := bind_eq_ok.1 h
      obtain ⟨wrote, hwrote, h⟩ := bind_eq_ok.1 h
      obtain ⟨others, hothers, h⟩ := bind_eq_ok.1 h
      cases hwrote
      cases h
      exact (ih hpaths hothers).write (rewrite_of_encode hs (document_eq_ok hcurrent).1
        (henvs f List.mem_cons_self) hfits hsource) hcurrent
        fun key v hmem => .inl (List.mem_filter.1 (mem_configOnly_version hmem)).1
    · rename_i hequal
      obtain ⟨wrote, hwrote, h⟩ := bind_eq_ok.1 h
      obtain ⟨others, hothers, h⟩ := bind_eq_ok.1 h
      cases hwrote
      cases h
      have hequal : (Value.obj (configOnly current)).deepEqual
          (.obj ((configOnly current).deleteAll keys)) = true := by simpa using hequal
      exact (ih hpaths hothers).keep ⟨current, hcurrent, hfits.of_deepEqual hequal,
        fun key hkey v => not_mem_of_deepEqual_deleteAll hequal hkey⟩

theorem mem_environments {f : String × String} (h : f ∈ session.environments) :
    f.1 = documentPath session.service (session.environmentOf f.1) ∧
      session.files.lookup f.1 = some f.2 := by
  obtain ⟨hmem, hdoc⟩ := List.mem_filter.1 h
  exact ⟨isDocument_iff.1 hdoc, mem_listing.1 hmem⟩

theorem environmentOf_documentPath (environment : String) :
    session.environmentOf (documentPath session.service environment) = environment := by
  rw [ProductMutation.environmentOf, documentPath_eq, sliceBetween_append]

/-- Every document of the product is one of its environment files. -/
theorem mem_environments_of_lookup {environment source : String}
    (h : session.files.lookup (documentPath session.service environment) = some source) :
    (documentPath session.service environment, source) ∈ session.environments := by
  refine List.mem_filter.2 ⟨mem_listing.2 h, isDocument_iff.2 ?_⟩
  exact congrArg _ (environmentOf_documentPath environment).symm

/-! ### Schemas that are rewritten -/

section

variable {rt : Runtime} {service : String}

/-- A schema that differs in its mark only. -/
theorem ofSource_retiring (yaml : ∀ v, rt.parseYaml (rt.stringifyYaml v) = .ok v) {source : String}
    {document marked : Value} (hparse : rt.parseYaml source = .ok document)
    (h : ProductSchema.ofSource rt service source = .ok old)
    (hfield : ∀ key, key ≠ "retiring" → marked.field key = document.field key)
    (hmapping : marked.isMapping = document.isMapping) {retiring : Bool}
    (hretiring : parseRetiring rt service marked = .ok retiring) :
    ProductSchema.ofSource rt service (rt.stringifyYaml marked) = .ok { old with retiring } := by
  obtain ⟨parsed, hparsed, hd, hv, -⟩ := ofSource_eq_ok.1 h
  rw [hparse] at hparsed
  cases hparsed
  refine ofSource_eq_ok.2 ⟨marked, yaml marked, ?_, ?_, hretiring⟩
  · rw [parseSchema, hmapping, hfield "keys" (by decide)]
    exact hd
  · rw [parseSchemaVersion, hfield "version" (by decide)]
    exact hv

theorem field_set_self {fields : Record} {key : String} {v : Value} :
    ((Value.obj fields).set key v).field key = some v := Record.lookup_set_self fields key v

theorem field_set_ne {document v : Value} {key k : String} (h : k ≠ key) :
    (document.set key v).field k = document.field k := by
  cases document with
  | obj fields => exact Record.lookup_set_ne fields v h
  | _ => rfl

theorem field_delete_ne {document : Value} {key k : String} (h : k ≠ key) :
    (document.delete key).field k = document.field k := by
  cases document with
  | obj fields => exact (Record.lookup_delete fields key k).trans (if_neg h)
  | _ => rfl

theorem isMapping_set (document : Value) (key : String) (v : Value) :
    (document.set key v).isMapping = document.isMapping := by
  cases document <;> rfl

theorem isMapping_delete (document : Value) (key : String) :
    (document.delete key).isMapping = document.isMapping := by
  cases document <;> rfl

theorem lookup_assign_ne {r other : Record} {key : String} (h : key ∉ other.keys) :
    (r.assign other).lookup key = r.lookup key := by
  rw [Record.assign]
  induction other generalizing r with
  | nil => rfl
  | cons f other ih =>
    rw [Record.keys, List.map_cons, List.mem_cons, not_or] at h
    rw [List.foldl_cons, ih h.2, Record.lookup_set_ne r f.2 h.1]

/-- A schema with other keys: what is declared as it was is defined as it was. -/
theorem definition_of_ofSource (yaml : ∀ v, rt.parseYaml (rt.stringifyYaml v) = .ok v)
    {source : String} {document : Value} {keys : Record} (hparse : rt.parseYaml source = .ok document)
    (hold : ProductSchema.ofSource rt service source = .ok old)
    (hnew : ProductSchema.ofSource rt service (rt.stringifyYaml (document.set "keys" (.obj keys))) =
      .ok schema) {key : String} (hkey : keys.lookup key = (Value.record (document.field "keys")).lookup key) :
    schema.definitions.lookup key = old.definitions.lookup key := by
  obtain ⟨parsed, hparsed, hd, -⟩ := ofSource_eq_ok.1 hold
  obtain ⟨parsed', hparsed', hd', -⟩ := ofSource_eq_ok.1 hnew
  rw [hparse] at hparsed
  rw [yaml] at hparsed'
  cases hparsed
  cases hparsed'
  obtain ⟨⟨⟨fields, rfl⟩, -⟩, hkeys⟩ := parseSchema_eq_ok.1 hd
  obtain ⟨-, hkeys'⟩ := parseSchema_eq_ok.1 hd'
  rw [field_set_self] at hkeys'
  obtain ⟨hsome, hnone⟩ := lookup_parseKeys hkeys key
  obtain ⟨hsome', hnone'⟩ := lookup_parseKeys hkeys' key
  cases hraw : (Value.record ((Value.obj fields).field "keys")).lookup key with
  | none => rw [hnone hraw, hnone' (hkey.trans hraw)]
  | some raw =>
    obtain ⟨d, hdraw, hlookup⟩ := hsome raw hraw
    obtain ⟨d', hdraw', hlookup'⟩ := hsome' raw (hkey.trans hraw)
    rw [hdraw] at hdraw'
    cases hdraw'
    rw [hlookup, hlookup']

theorem declared_of_definition {source : String} {document : Value}
    (hparse : rt.parseYaml source = .ok document)
    (h : ProductSchema.ofSource rt service source = .ok schema) {key : String} {d : KeyDefinition}
    (hd : schema.definitions.lookup key = some d) :
    (Value.record (document.field "keys")).has key = true := by
  obtain ⟨parsed, hparsed, hschema, -⟩ := ofSource_eq_ok.1 h
  rw [hparse] at hparsed
  cases hparsed
  rw [Record.has_eq_true]
  cases hraw : (Value.record (document.field "keys")).lookup key with
  | some raw => exact ⟨raw, rfl⟩
  | none =>
    rw [(lookup_parseKeys (parseSchema_eq_ok.1 hschema).2 key).2 hraw] at hd
    cases hd

theorem definition_of_isSecret {key : String} (h : schema.isSecret key = true) :
    ∃ d, schema.definitions.lookup key = some d := by
  cases hd : schema.definitions.lookup key with
  | none =>
    rw [ProductSchema.isSecret, hd] at h
    cases h
  | some d => exact ⟨d, rfl⟩

theorem has_of_set {document : Value} {name key : String} {keys : Record}
    (h : (Value.record ((document.set name (.obj keys)).field name)).has key = true) :
    keys.has key = true := by
  cases document with
  | obj fields =>
    rw [field_set_self] at h
    exact h
  | _ => cases h

end

/-! ### The operations -/

/-- The environment whose document the operation may create. -/
def Operation.target : Operation → Option String
  | .writeValues r => some r.environment
  | .promote r => some r.target
  | _ => none

/-- The keys the operation takes away. -/
def Operation.gone : Operation → List String
  | .deleteKeys _ selected _ => selected
  | _ => []

/-- Whether the operation leaves the registry alone. -/
def Operation.rewrites : Operation → Bool
  | .createProduct _ | .archiveProduct _ _ _ => false
  | _ => true

/-- What an operation that rewrites documents plans. -/
structure Rewrites (session : ProductMutation) (target : Option String) (old schema : ProductSchema)
    (gone : List String) (plan : Plan) : Prop where
  declared : session.schemas.services.lookup session.service = some old
  registered : ∃ services, session.services = .ok services ∧
    ∃ entry ∈ services, ProductMutation.isNamed session.service entry = true
  documents : ∃ documents, List.Forall₂ (Rewrite session schema) documents plan.given ∧
    (plan.writes = documents ∧ schema = old ∨
      ∃ text keys, plan.writes = documents ++ [session.put (schemaPath session.service) (some text) keys] ∧
        ProductSchema.ofSource session.options.rt session.service text = .ok schema)
  existing : ∀ g ∈ plan.given, target = some g.1 ∨
    ∃ f ∈ session.environments, g.1 = session.environmentOf f.1
  definitions : ∀ key d, old.definitions.lookup key = some d →
    key ∈ gone ∨ schema.definitions.lookup key = some d
  removed : ∀ key ∈ gone, schema.isSecret key = false
  metadata : ∀ key, isMetadataKey key = true → schema.isSecret key = true → old.isSecret key = true
  drawn : ∀ g ∈ plan.given, ∀ key v, (key, v) ∈ configOnly g.2 → schema.isSecret key = true →
    old.isSecret key = true ∨ ∃ current w, session.document g.1 = .ok current ∧
      (key, w) ∈ configOnly current
  kept : schema.definitions = old.definitions ∨ ∀ f ∈ session.environments,
    (∃ value, (session.environmentOf f.1, value) ∈ plan.given) ∨
      Kept session schema gone (session.environmentOf f.1)

/-- Where the schema stays. -/
theorem Rewrites.of_values {identity : Value} (hp : session.requireProduct = .ok identity)
    {environment : String} {changes : List (String × Option Value)}
    {expectedEtag : Option (Option String)} {plan : Plan}
    (h : session.values environment changes expectedEtag = .ok plan) (reads : List String) :
    ∃ old, Rewrites session (some environment) old old []
      (Plan.append { reads := reads } plan) := by
  obtain ⟨services, old, hservices, hentry, hnamed, hs⟩ := requireProduct_eq_ok hp
  obtain ⟨hdocuments, hgiven⟩ := values_eq_ok hs h
  exact ⟨old, hs, ⟨services, hservices, identity, hentry, hnamed⟩, ⟨_, hdocuments, .inl ⟨rfl, rfl⟩⟩,
    fun g hg => .inl (by rw [hgiven g hg]), fun _ _ hd => .inr hd, nofun, fun _ _ hsecret => hsecret,
    fun _ _ _ _ _ hsecret => .inl hsecret, .inl rfl⟩

theorem writeValues_eq_ok {r : WriteRequest} {plan : Plan} (h : writeValues r session = .ok plan) :
    ∃ old, Rewrites session (some r.environment) old old [] plan := by
  obtain ⟨identity, hp, h⟩ := bind_eq_ok.1 h
  exact Rewrites.of_values hp h []

theorem promote_eq_ok {r : PromoteRequest} {plan : Plan} (h : promote r session = .ok plan) :
    ∃ old, Rewrites session (some r.target) old old [] plan := by
  obtain ⟨identity, hp, h⟩ := bind_eq_ok.1 h
  obtain ⟨-, h⟩ := guard_eq_ok (by simp) h
  obtain ⟨keys, hkeys, h⟩ := bind_eq_ok.1 h
  split at h
  · cases h
  · obtain ⟨source, hsource, h⟩ := bind_eq_ok.1 h
    obtain ⟨changes, hchanges, h⟩ := bind_eq_ok.1 h
    obtain ⟨plan', hvalues, h⟩ := bind_eq_ok.1 h
    cases h
    exact Rewrites.of_values hp hvalues _

/-- The schema file of a product that has one, as the operation reads it. -/
theorem productSchema_eq_ok (hopen : Opened session.options session.service actor session.files session)
    (hs : session.schemas.services.lookup session.service = some old) {document : Value}
    (h : session.productSchema = .ok document) : ∃ source,
      session.options.rt.parseYaml source = .ok document ∧
      ProductSchema.ofSource session.options.rt session.service source = .ok old := by
  obtain ⟨-, source, hsource, hok⟩ := hopen.declares.1 hs
  rw [ProductMutation.productSchema, hsource] at h
  exact ⟨source, lift_eq_ok.1 h, hok⟩

theorem setRetiring_eq_ok (yaml : ∀ v, session.options.rt.parseYaml (session.options.rt.stringifyYaml v) = .ok v)
    (hopen : Opened session.options session.service actor session.files session)
    {retiring force : Bool} {plan : Plan} (h : setRetiring session.service retiring force session = .ok plan) :
    ∃ old schema, Rewrites session none old schema [] plan := by
  obtain ⟨identity, hp, h⟩ := bind_eq_ok.1 h
  obtain ⟨services, old, hservices, hentry, hnamed, hs⟩ := requireProduct_eq_ok hp
  obtain ⟨-, h⟩ := guard_eq_ok (by simp) h
  obtain ⟨document, hdocument, h⟩ := bind_eq_ok.1 h
  obtain ⟨source, hparse, hold⟩ := productSchema_eq_ok hopen hs hdocument
  obtain ⟨parsed, hparsed, hd, -⟩ := ofSource_eq_ok.1 hold
  rw [hparse] at hparsed
  cases hparsed
  obtain ⟨⟨⟨fields, rfl⟩, -⟩, -⟩ := parseSchema_eq_ok.1 hd
  cases h
  refine ⟨old, { old with retiring }, hs, ⟨services, hservices, identity, hentry, hnamed⟩,
    ⟨[], .nil, .inr ⟨_, _, rfl, ?_⟩⟩, nofun, fun _ _ hd => .inr hd, nofun, fun _ _ hsecret => hsecret,
    fun _ _ _ _ _ hsecret => .inl hsecret, .inl rfl⟩
  cases retiring with
  | true =>
    refine ofSource_retiring yaml hparse hold (fun key hkey => field_set_ne hkey) rfl ?_
    rw [parseRetiring, field_set_self]
  | false =>
    refine ofSource_retiring yaml hparse hold (fun key hkey => field_delete_ne hkey) rfl ?_
    have hnone : ((Value.obj fields).delete "retiring").field "retiring" = none :=
      (Record.lookup_delete fields "retiring" "retiring").trans (if_pos rfl)
    rw [parseRetiring, hnone]

/-- A pass over every environment, and then the schema. -/
theorem Rewrites.of_swept {identity : Value} (hp : session.requireProduct = .ok identity)
    (hs : session.schemas.services.lookup session.service = some old) {gone : List String} {added : Record}
    {swept : Plan} (hsweep : Swept session schema gone added session.environments swept) {text : String}
    {keys : List String}
    (hschema : ProductSchema.ofSource session.options.rt session.service text = .ok schema)
    (hdefinitions : ∀ key d, old.definitions.lookup key = some d →
      key ∈ gone ∨ schema.definitions.lookup key = some d)
    (hremoved : ∀ key ∈ gone, schema.isSecret key = false)
    (hmetadata : ∀ key, isMetadataKey key = true → schema.isSecret key = true → old.isSecret key = true)
    (hadded : ∀ key v, (key, v) ∈ added → schema.isSecret key = false) :
    Rewrites session none old schema gone (swept.append
      { writes := [session.put (schemaPath session.service) (some text) keys] }) := by
  obtain ⟨services, -, hservices, hentry, hnamed, -⟩ := requireProduct_eq_ok hp
  have hgiven : (swept.append { writes := [session.put (schemaPath session.service) (some text) keys] }).given =
      swept.given := List.append_nil _
  refine ⟨hs, ⟨services, hservices, identity, hentry, hnamed⟩, ⟨swept.writes, ?_, .inr ⟨text, keys, rfl, hschema⟩⟩,
    fun g hg => .inr (hsweep.existing g (hgiven ▸ hg)), hdefinitions, hremoved, hmetadata, ?_, .inr ?_⟩
  · rw [hgiven]
    exact hsweep.documents
  · intro g hg key v hmem hsecret
    obtain ⟨current, hcurrent, hdrawn⟩ := hsweep.drawn g (hgiven ▸ hg)
    rcases hdrawn key v hmem with hmem | hmem
    · exact .inr ⟨current, v, hcurrent, hmem⟩
    · rw [hadded key v hmem] at hsecret
      cases hsecret
  · rw [hgiven]
    exact hsweep.each

/-- The default of a key that is added is the one of a draft that is not secret. -/
theorem mem_draftedDefaults {drafts : List KeyDraft} {key : String} {v : Value}
    (h : (key, v) ∈ draftedDefaults drafts) :
    ∃ draft ∈ drafts, draft.secret = false ∧ key = trim draft.name := by
  have hfold : ∀ (step : Record → KeyDraft → Record), (∀ r draft, (key, v) ∈ step r draft →
      (key, v) ∈ r ∨ draft.secret = false ∧ key = trim draft.name) → ∀ (drafts : List KeyDraft) (defaults : Record),
      (key, v) ∈ drafts.foldl step defaults →
      (key, v) ∈ defaults ∨ ∃ draft ∈ drafts, draft.secret = false ∧ key = trim draft.name := by
    intro step hstep drafts
    induction drafts with
    | nil => exact fun _ h => .inl h
    | cons draft drafts ih =>
      intro defaults h
      rcases ih _ h with h | ⟨d, hd, heq⟩
      · exact (hstep _ _ h).imp_right fun heq => ⟨draft, List.mem_cons_self, heq⟩
      · exact .inr ⟨d, List.mem_cons_of_mem _ hd, heq⟩
  refine (hfold _ (fun defaults draft h => ?_) drafts [] h).resolve_left nofun
  split at h
  · exact .inl h
  · exact .inl h
  · split at h
    · exact .inl h
    · rename_i hsecret
      rcases Record.mem_set h with h | ⟨rfl, -⟩
      · exact .inl h
      · exact .inr ⟨by simpa using hsecret, rfl⟩

/-- What a schema with drafted keys declares of a draft that is not secret is not secret. -/
theorem drafted_not_secret {rt : Runtime} {schema : ProductSchema}
    (yaml : ∀ v, rt.parseYaml (rt.stringifyYaml v) = .ok v) {drafts : List KeyDraft} {built : String} (hbuilt : buildSchema rt drafts = .ok built) {service : String} {document : Value}
    {declared : Record} (hfresh : ∀ name ∈ (draftedKeys drafts).keys, declared.has name = false)
    (hschema : ProductSchema.ofSource rt service
      (rt.stringifyYaml (document.set "keys" (.obj (declared.assign (draftedKeys drafts))))) = .ok schema)
    {draft : KeyDraft} (hdraft : draft ∈ drafts) (hplain : draft.secret = false) :
    schema.isSecret (trim draft.name) = false := by
  obtain ⟨parsed, hparsed, hd, -⟩ := ofSource_eq_ok.1 hschema
  rw [yaml] at hparsed
  cases hparsed
  obtain ⟨⟨⟨fields, hfields⟩, -⟩, hkeys⟩ := parseSchema_eq_ok.1 hd
  have hobj : ∃ fields, document = .obj fields := by
    cases document with
    | obj fields => exact ⟨fields, rfl⟩
    | _ => cases hfields
  obtain ⟨fields, rfl⟩ := hobj
  rw [field_set_self] at hkeys
  obtain ⟨hsome, hnone⟩ := lookup_parseKeys hkeys (trim draft.name)
  rw [ProductSchema.isSecret]
  cases hraw : (declared.assign (draftedKeys drafts)).lookup (trim draft.name) with
  | none =>
    rw [hnone hraw]
    rfl
  | some raw =>
    obtain ⟨d, hdraw, hlookup⟩ := hsome raw hraw
    have hname := draftedKeys_has hdraft
    have hmem : (trim draft.name, raw) ∈ draftedKeys drafts := by
      refine (mem_assign (Record.mem_of_lookup hraw)).resolve_left fun hmem => ?_
      obtain ⟨v, hv⟩ := Record.has_eq_true.1 hname
      have hnot := hfresh _ (Record.mem_keys.2 ⟨v, Record.mem_of_lookup hv⟩)
      rw [Record.has_eq_true.2 (Record.lookup_isSome_of_mem hmem)] at hnot
      cases hnot
    obtain ⟨draft', hdraft', hsame, rfl⟩ := mem_draftedKeys hmem
    obtain rfl := draft_unique hbuilt hdraft hdraft' hsame
    rw [hlookup, Option.map_some, Option.getD_some]
    exact secret_of_parseKey hdraw (secret_definition hplain)

theorem addKeys_eq_ok (yaml : ∀ v, session.options.rt.parseYaml (session.options.rt.stringifyYaml v) = .ok v)
    (hopen : Opened session.options session.service actor session.files session)
    {r : AddKeysRequest} (hservice : session.service = r.service) {plan : Plan}
    (h : addKeys r session = .ok plan) : ∃ old schema, Rewrites session none old schema [] plan := by
  obtain ⟨identity, hp, h⟩ := bind_eq_ok.1 h
  obtain ⟨-, old, -, -, -, hs⟩ := requireProduct_eq_ok hp
  obtain ⟨-, h⟩ := guard_eq_ok (by simp) h
  obtain ⟨-, h⟩ := guard_eq_ok (by simp) h
  split at h
  · cases h
  rename_i built hbuilt
  obtain ⟨parsed, hparsed, h⟩ := bind_eq_ok.1 h
  obtain ⟨document, hdocument, h⟩ := bind_eq_ok.1 h
  obtain ⟨hclashes, h⟩ := guard_eq_ok (by simp) h
  obtain ⟨candidate, hcandidate, h⟩ := bind_eq_ok.1 h
  obtain ⟨-, h⟩ := guard_eq_ok (by simp) h
  obtain ⟨swept, hswept, h⟩ := bind_eq_ok.1 h
  cases h
  have hadded : Value.record (parsed.field "keys") = draftedKeys r.keys := by
    rw [buildSchema_eq_ok hbuilt, lift_eq_ok, yaml] at hparsed
    cases hparsed
    rfl
  obtain ⟨source, hparse, hold⟩ := productSchema_eq_ok hopen hs hdocument
  obtain ⟨schema, hschema, hlookup⟩ := fromFiles_one (lift_eq_ok.1 hcandidate)
  have hsweep := addDefaults_eq_ok hservice hlookup hswept
  rw [← hservice] at hschema ⊢
  rw [hadded] at hschema hclashes ⊢
  have hkey : ∀ key, key ∉ (draftedKeys r.keys).keys →
      schema.definitions.lookup key = old.definitions.lookup key := fun key hkey =>
    definition_of_ofSource yaml hparse hold hschema (lookup_assign_ne hkey)
  have hfresh : ∀ name ∈ (draftedKeys r.keys).keys,
      (Value.record (document.field "keys")).has name = false := by simpa using hclashes
  refine ⟨old, schema, Rewrites.of_swept hp hs hsweep hschema ?_ nofun ?_ ?_⟩
  · intro key d hd
    refine .inr ((hkey key fun hin => ?_).trans hd)
    have hnone := hfresh key hin
    rw [declared_of_definition hparse hold hd] at hnone
    cases hnone
  · intro key hmeta hsecret
    have hnot : key ∉ (draftedKeys r.keys).keys := by
      intro hin
      rw [draftedKeys_not_metadata hbuilt hin] at hmeta
      cases hmeta
    rw [ProductSchema.isSecret, hkey key hnot] at hsecret
    exact hsecret
  · intro key v hmem
    obtain ⟨draft, hdraft, hplain, rfl⟩ := mem_draftedDefaults hmem
    exact drafted_not_secret yaml hbuilt hfresh hschema hdraft hplain

theorem lookup_deleteAll (r : Record) (keys : List String) (key : String) :
    (r.deleteAll keys).lookup key = if key ∈ keys then none else r.lookup key := by
  rw [Record.deleteAll, Record.lookup_filter fun k => !keys.contains k]
  by_cases h : key ∈ keys <;> simp [h]

theorem deleteKeys_eq_ok (yaml : ∀ v, session.options.rt.parseYaml (session.options.rt.stringifyYaml v) = .ok v)
    (hopen : Opened session.options session.service actor session.files session)
    {selected : List String} {expectedBase : Option String} {plan : Plan}
    (h : deleteKeys session.service selected expectedBase session = .ok plan) :
    ∃ old schema gone, (∀ key, key ∈ gone ↔ key ∈ selected) ∧
      Rewrites session none old schema gone plan := by
  obtain ⟨-, h⟩ := guard_eq_ok (by simp) h
  obtain ⟨identity, hp, h⟩ := bind_eq_ok.1 h
  obtain ⟨-, old, -, -, -, hs⟩ := requireProduct_eq_ok hp
  obtain ⟨keys, hkeys, h⟩ := bind_eq_ok.1 h
  obtain ⟨document, hdocument, h⟩ := bind_eq_ok.1 h
  obtain ⟨candidate, hcandidate, h⟩ := bind_eq_ok.1 h
  obtain ⟨swept, hswept, h⟩ := bind_eq_ok.1 h
  cases h
  obtain ⟨source, hparse, hold⟩ := productSchema_eq_ok hopen hs hdocument
  obtain ⟨schema, hschema, hlookup⟩ := fromFiles_one (lift_eq_ok.1 hcandidate)
  have hsweep := deleteFrom_eq_ok hlookup (fun f hf => (mem_environments hf).1) hswept
  have hkey : ∀ key, key ∉ keys → schema.definitions.lookup key = old.definitions.lookup key :=
    fun key hkey => definition_of_ofSource yaml hparse hold hschema
      ((lookup_deleteAll _ keys key).trans (if_neg hkey))
  have hremoved : ∀ key ∈ keys, schema.isSecret key = false := by
    intro key hin
    cases hsecret : schema.isSecret key with
    | false => rfl
    | true =>
      obtain ⟨d, hd⟩ := definition_of_isSecret hsecret
      have hhas := has_of_set (declared_of_definition (yaml _) hschema hd)
      rw [Record.has, lookup_deleteAll, if_pos hin] at hhas
      cases hhas
  have hselected : ∀ key, key ∈ keys ↔ key ∈ selected := by
    intro key
    rw [(select_eq_ok hkeys).1, List.mem_eraseDups]
  refine ⟨old, schema, keys, hselected, Rewrites.of_swept hp hs hsweep hschema ?_ hremoved ?_ nofun⟩
  · intro key d hd
    by_cases hin : key ∈ keys
    · exact .inl hin
    · exact .inr ((hkey key hin).trans hd)
  · intro key hmeta hsecret
    by_cases hin : key ∈ keys
    · rw [hremoved key hin] at hsecret
      cases hsecret
    · rw [ProductSchema.isSecret, hkey key hin] at hsecret
      exact hsecret

/-! ### The database afterwards -/

/-- The database lists the product in its registry. -/
def Registered (rt : Runtime) (files : Files) (product : String) : Prop :=
  ∃ registry services, rt.parseYaml ((files.lookup "services.yaml").getD "version: 1\nservices: []\n") =
      .ok registry ∧ registry.field "services" = some (.arr services) ∧
    ∃ entry ∈ services, ProductMutation.isNamed product entry = true

/-- What an operation that rewrites documents did to the files. -/
structure Rewritten (o : ProductWriteOptions) (service : String) (target : Option String)
    (files files' : Files) (given : List (String × Record)) (old schema : ProductSchema)
    (gone : List String) : Prop where
  product : identifier service = true
  declared : Declares o.rt files service old
  declares : Declares o.rt files' service schema
  registered : Registered o.rt files service
  encoded : ∀ g ∈ given, identifier g.1 = true ∧ schema.Fits o.rt service (configOnly g.2) ∧
    ∃ source, files'.lookup (documentPath service g.1) = some source ∧
      Encodes o service g.1 schema g.2 source
  existing : ∀ g ∈ given, target = some g.1 ∨
    ∃ source, files.lookup (documentPath service g.1) = some source
  definitions : ∀ key d, old.definitions.lookup key = some d →
    key ∈ gone ∨ schema.definitions.lookup key = some d
  removed : ∀ key ∈ gone, schema.isSecret key = false
  metadata : ∀ key, isMetadataKey key = true → schema.isSecret key = true → old.isSecret key = true
  drawn : ∀ g ∈ given, ∀ key v, (key, v) ∈ configOnly g.2 → schema.isSecret key = true →
    old.isSecret key = true ∨ ∃ current w, Resolved o files service g.1 current ∧
      (key, w) ∈ configOnly current
  document : ∀ environment, (∀ value, (environment, value) ∉ given) →
    files'.lookup (documentPath service environment) = files.lookup (documentPath service environment)
  kept : schema.definitions = old.definitions ∨ ∀ environment source,
    files.lookup (documentPath service environment) = some source →
    (∃ value, (environment, value) ∈ given) ∨ ∃ current, Resolved o files service environment current ∧
      schema.Fits o.rt service (configOnly current) ∧ ∀ key ∈ gone, ∀ v, (key, v) ∉ configOnly current
  others : ∀ path, path ≠ schemaPath service → (∀ environment, path ≠ documentPath service environment) →
    files'.lookup path = files.lookup path

theorem forall₂_left {α β : Type} {R : α → β → Prop} {as : List α} {bs : List β}
    (h : List.Forall₂ R as bs) {a : α} (ha : a ∈ as) : ∃ b ∈ bs, R a b := by
  induction h with
  | nil => cases ha
  | cons hab _ ih =>
    rcases List.mem_cons.1 ha with rfl | ha
    · exact ⟨_, List.mem_cons_self, hab⟩
    · obtain ⟨b, hb, hr⟩ := ih ha
      exact ⟨b, List.mem_cons_of_mem _ hb, hr⟩

theorem forall₂_right {α β : Type} {R : α → β → Prop} {as : List α} {bs : List β}
    (h : List.Forall₂ R as bs) {b : β} (hb : b ∈ bs) : ∃ a ∈ as, R a b :=
  forall₂_left h.flip hb

/-- The request for a document, and what else such a plan writes. -/
theorem Rewrites.writes {target : Option String} {gone : List String} {plan : Plan}
    (h : Rewrites session target old schema gone plan) :
    (∀ g ∈ plan.given, ∃ w ∈ plan.writes, Rewrite session schema w g) ∧
    (∀ w ∈ plan.writes, w.path = schemaPath session.service ∨
      ∃ g ∈ plan.given, w.path = documentPath session.service g.1) ∧
    ((∀ w ∈ plan.writes, w.path ≠ schemaPath session.service) ∧ schema = old ∨
      ∃ w ∈ plan.writes, w.path = schemaPath session.service ∧ ∃ text, w.content = some text ∧
        ProductSchema.ofSource session.options.rt session.service text = .ok schema) := by
  obtain ⟨documents, hdocuments, hwrites⟩ := h.documents
  have hpaths : ∀ w ∈ documents, ∃ g ∈ plan.given, w.path = documentPath session.service g.1 := by
    intro w hw
    obtain ⟨g, hg, hrewrite⟩ := forall₂_left hdocuments hw
    exact ⟨g, hg, hrewrite.path⟩
  rcases hwrites with ⟨hwrites, heq⟩ | ⟨text, keys, hwrites, hschema⟩
  · rw [hwrites]
    refine ⟨fun g hg => forall₂_right hdocuments hg, fun w hw => .inr (hpaths w hw), .inl ⟨?_, heq⟩⟩
    intro w hw hpath
    obtain ⟨g, -, hdoc⟩ := hpaths w hw
    exact schemaPath_ne_documentPath _ _ _ (hpath.symm.trans hdoc)
  · rw [hwrites]
    refine ⟨fun g hg => ?_, fun w hw => ?_, .inr
      ⟨_, List.mem_append_right _ (List.mem_singleton_self _), rfl, text, rfl, hschema⟩⟩
    · obtain ⟨w, hw, hrewrite⟩ := forall₂_right hdocuments hg
      exact ⟨w, List.mem_append_left _ hw, hrewrite⟩
    · rcases List.mem_append.1 hw with hw | hw
      · exact .inr (hpaths w hw)
      · rw [List.mem_singleton.1 hw]
        exact .inl rfl

theorem Rewrites.rewritten {op : Operation} {db db' : Database} {plan : Plan} {target : Option String}
    {gone : List String} (hp : Performed op o actor db db' session plan)
    (h : Rewrites session target old schema gone plan) :
    Rewritten o op.service target db.files db'.files plan.given old schema gone := by
  obtain ⟨hdocuments, hpaths, hschema⟩ := h.writes
  have hopen := hp.opened
  have hproduct := hp.product
  obtain ⟨rfl, hservice, -, hfiles, -, -, -⟩ := id hopen
  rw [← hservice] at hopen hproduct ⊢
  have hdeclared := hopen.declares.1 h.declared
  have hwritten : ∀ environment source, db.files.lookup (documentPath session.service environment) =
      some source → ∃ f ∈ session.environments, session.environmentOf f.1 = environment := by
    intro environment source hlookup
    rw [← hfiles] at hlookup
    exact ⟨_, mem_environments_of_lookup hlookup, environmentOf_documentPath environment⟩
  refine ⟨hproduct, hdeclared, ?_, ?_, ?_, ?_, h.definitions, h.removed, h.metadata, ?_, ?_, ?_, ?_⟩
  · rcases hschema with ⟨hunwritten, rfl⟩ | ⟨w, hw, hpath, text, htext, hok⟩
    · obtain ⟨hname, source, hlookup, hok⟩ := hdeclared
      exact ⟨hname, source, (hp.untouched hunwritten).trans hlookup, hok⟩
    · have hlookup := hp.written hw
      rw [hpath, htext] at hlookup
      exact ⟨hdeclared.1, text, hlookup, hok⟩
  · obtain ⟨services, hservices, entry, hentry, hnamed⟩ := h.registered
    exact ⟨session.registry, services, hopen.registry, services_eq_ok.1 hservices, entry, hentry, hnamed⟩
  · intro g hg
    obtain ⟨w, hw, hrewrite⟩ := hdocuments g hg
    obtain ⟨source, hsource, hencodes⟩ := hrewrite.content
    refine ⟨hrewrite.environment, hrewrite.fits, source, ?_, hencodes⟩
    rw [← hrewrite.path, hp.written hw, hsource]
  · intro g hg
    refine (h.existing g hg).imp_right fun ⟨f, hf, henv⟩ => ⟨f.2, ?_⟩
    obtain ⟨hpath, hlookup⟩ := mem_environments hf
    rw [henv, ← hpath, ← hfiles]
    exact hlookup
  · intro g hg key v hmem hsecret
    refine (h.drawn g hg key v hmem hsecret).imp_right fun ⟨current, w, hcurrent, hw⟩ => ⟨current, w, ?_, hw⟩
    rw [← hfiles]
    exact (document_eq_ok hcurrent).2
  · intro environment hnot
    refine hp.untouched fun w hw hpath => ?_
    rcases hpaths w hw with hw | ⟨g, hg, hdoc⟩
    · exact schemaPath_ne_documentPath _ _ _ (hw.symm.trans hpath)
    · have hsegment := segment_of_identifier hproduct
      obtain ⟨-, rfl⟩ := documentPath_inj hsegment hsegment (hpath.symm.trans hdoc)
      exact hnot g.2 hg
  · refine h.kept.imp_right fun hkept environment source hlookup => ?_
    obtain ⟨f, hf, rfl⟩ := hwritten environment source hlookup
    refine (hkept f hf).imp_right fun ⟨current, hcurrent, hfits, hgone⟩ => ⟨current, ?_, hfits, hgone⟩
    rw [← hfiles]
    exact (document_eq_ok hcurrent).2
  · intro path hschemaPath hdocumentPath
    refine hp.untouched fun w hw hpath => ?_
    rcases hpaths w hw with hw | ⟨g, -, hdoc⟩
    · exact hschemaPath (hpath.symm.trans hw)
    · exact hdocumentPath g.1 (hpath.symm.trans hdoc)

end ConfigRegistry.Products
