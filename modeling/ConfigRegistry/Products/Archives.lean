import ConfigRegistry.Products.Commits

/-!
# What is left of an archived product

The archive is the only way back to a product, so it has to hold all of it.
-/

namespace ConfigRegistry.Products

open Js Schema Store

variable {o : ProductWriteOptions} {actor : Actor} {session : ProductMutation}

/-- The registry entry of the product, and its schema. -/
theorem identity_of_requireProduct {identity : Value} (h : session.requireProduct = .ok identity) :
    ∃ services, session.registry.field "services" = some (.arr services) ∧
      services.find? (ProductMutation.isNamed session.service) = some identity := by
  obtain ⟨services, hservices, h⟩ := bind_eq_ok.1 h
  obtain ⟨found, hfound, h⟩ := bind_eq_ok.1 h
  refine ⟨services, services_eq_ok.1 hservices, ?_⟩
  rw [find?_of_find hfound]
  cases found with
  | none => cases h
  | some entry =>
    dsimp only at h
    split at h
    · rw [pure_eq_ok.1 h]
    · cases h

/-- A record that holds all of a product: its registry entry, and the texts of its files. -/
structure Holds (files : Files) (service : String) (identity : Value) (record : Value) : Prop where
  identified : record.field "service" = some identity
  schema : ∃ source, files.lookup (schemaPath service) = some source ∧
    record.field "schema" = some (.str source)
  environments : ∃ documents, record.field "environments" = some (.obj documents) ∧
    ∀ environment, Segment environment →
      documents.lookup environment = (files.lookup (documentPath service environment)).map .str

/-- The product went into its archive, and nothing else happened. -/
structure ArchivedWhole (rt : Runtime) (service : String) (force : Bool) (files files' : Files) : Prop where
  archive : ∃ registry services identity text record,
    rt.parseYaml ((files.lookup "services.yaml").getD "version: 1\nservices: []\n") = .ok registry ∧
    registry.field "services" = some (.arr services) ∧
    services.find? (ProductMutation.isNamed service) = some identity ∧
    files'.lookup (archivedPath service) = some text ∧ rt.parseYaml text = .ok record ∧
    Holds files service identity record ∧
    ∃ source, files'.lookup "services.yaml" = some source ∧
      rt.parseYaml source = .ok (registry.set "services"
        (.arr (services.filter fun entry => !ProductMutation.isNamed service entry)))
  undeclared : files'.lookup (schemaPath service) = none
  undocumented : ∀ environment, Segment environment → files'.lookup (documentPath service environment) = none
  others : ∀ path, path ≠ schemaPath service → path ≠ "services.yaml" → path ≠ archivedPath service →
    (∀ environment, Segment environment → path ≠ documentPath service environment) →
    files'.lookup path = files.lookup path
  replaced : (files.lookup (archivedPath service)).isSome = true → force = true

theorem lookup_archived (environment : String) :
    (session.environments.map fun f => (session.environmentOf f.1, Value.str f.2)).lookup environment =
      (session.files.lookup (documentPath session.service environment)).map .str := by
  have hmem : ∀ v, (environment, v) ∈ session.environments.map
        (fun f => (session.environmentOf f.1, Value.str f.2)) ↔
      ∃ text, session.files.lookup (documentPath session.service environment) = some text ∧ v = .str text := by
    intro v
    rw [List.mem_map]
    constructor
    · rintro ⟨f, hf, heq⟩
      obtain ⟨rfl, rfl⟩ := Prod.mk.inj heq
      obtain ⟨hpath, hlookup⟩ := mem_environments hf
      exact ⟨f.2, hpath ▸ hlookup, rfl⟩
    · rintro ⟨text, hlookup, rfl⟩
      exact ⟨_, mem_environments_of_lookup hlookup,
        congrArg (·, Value.str text) (environmentOf_documentPath environment)⟩
  cases hlookup : session.files.lookup (documentPath session.service environment) with
  | none =>
    rw [hlookup] at hmem
    cases hfound : (session.environments.map fun f =>
      (session.environmentOf f.1, Value.str f.2)).lookup environment with
    | none => rfl
    | some v =>
      obtain ⟨text, htext, -⟩ := (hmem v).1 (Record.mem_of_lookup hfound)
      cases htext
  | some text =>
    rw [hlookup] at hmem
    obtain ⟨v, hv⟩ := Record.lookup_isSome_of_mem ((hmem (.str text)).2 ⟨text, rfl, rfl⟩)
    obtain ⟨text', htext, rfl⟩ := (hmem v).1 (Record.mem_of_lookup hv)
    cases htext
    exact hv

/-- Nothing is archived over an archive, unless that is asked for. -/
theorem forced_of_archiveProduct {service : String} {expectedBase : Option String} {force : Bool}
    {plan : Plan} (h : archiveProduct service expectedBase force session = .ok plan)
    (hexists : (session.files.lookup (archivedPath service)).isSome = true) : force = true := by
  obtain ⟨-, h⟩ := guard_eq_ok (by simp) h
  obtain ⟨identity, -, h⟩ := bind_eq_ok.1 h
  obtain ⟨-, h⟩ := guard_eq_ok (by simp) h
  obtain ⟨hforce, -⟩ := guard_eq_ok (by simp) h
  rw [hexists, Bool.true_and] at hforce
  simpa using hforce

theorem Committed.archivedWhole {service : String} {expectedBase : Option String} {force : Bool}
    {files : Files} {db db' : Database} {plan : Plan}
    (yaml : ∀ v, o.rt.parseYaml (o.rt.stringifyYaml v) = .ok v)
    (h : Committed (.archiveProduct service expectedBase force) o actor files db db' session plan) :
    ArchivedWhole o.rt service force db.files db'.files := by
  obtain ⟨identity, services, hproduct, hservices, -, hmem⟩ := archiveProduct_eq_ok h.planned
  have hopen := h.opened
  obtain ⟨rfl, hservice, rfl, hfiles, -, hregistry, -⟩ := id hopen
  change session.service = service at hservice
  subst hservice
  obtain ⟨services', hfield, hidentity⟩ := identity_of_requireProduct hproduct
  rw [services_eq_ok.1 hservices] at hfield
  cases hfield
  -- What the plan was made of is what the commit has found.
  have hregistered := h.read "services.yaml" (.inr (.inl rfl))
  have hschema := h.read (schemaPath session.service) (.inl rfl)
  have hdocument : ∀ environment, Segment environment →
      session.files.lookup (documentPath session.service environment) =
        db.files.lookup (documentPath session.service environment) := by
    intro environment henv
    rcases h.documents henv with hsome | ⟨hnone, hdb⟩
    · obtain ⟨source, hsource⟩ := Option.isSome_iff_exists.1 hsome
      change files.lookup (documentPath session.service environment) = some source at hsource
      rw [← hfiles] at hsource
      have hwrite := h.replaced _ ((hmem _).2 (.inr (.inr (.inl ⟨_, mem_environments_of_lookup hsource, rfl⟩))))
      rw [← hfiles] at hwrite
      exact hwrite
    · rw [hfiles]
      exact hnone.trans hdb.symm
  have hsource : ∃ source, session.files.lookup (schemaPath session.service) = some source := by
    obtain ⟨-, schema, -, -, -, hs⟩ := requireProduct_eq_ok hproduct
    obtain ⟨-, source, hsource, -⟩ := hopen.declares.1 hs
    exact ⟨source, hfiles ▸ hsource⟩
  obtain ⟨source, hsource⟩ := hsource
  rw [← hfiles] at hregistered hschema hregistry
  have harchive := h.written ((hmem _).2 (.inr (.inl rfl)))
  have hregistry' := h.written ((hmem _).2 (.inl rfl))
  refine ⟨⟨session.registry, services, identity, _, _, ?_, services_eq_ok.1 hservices, hidentity, harchive,
    yaml _, ⟨rfl, ⟨source, ?_, ?_⟩, ⟨_, rfl, fun environment henv => ?_⟩⟩, ⟨_, hregistry', yaml _⟩⟩, ?_, ?_, ?_, ?_⟩
  · rw [← hregistered]
    exact hregistry
  · exact hschema ▸ hsource
  · rw [archiveOf, hsource]
    rfl
  · rw [← hdocument environment henv]
    exact lookup_archived environment
  · exact h.written ((hmem _).2 (.inr (.inr (.inr rfl))))
  · intro environment henv
    cases hlookup : session.files.lookup (documentPath session.service environment) with
    | some text =>
      exact h.written ((hmem _).2 (.inr (.inr (.inl ⟨_, mem_environments_of_lookup hlookup, rfl⟩))))
    | none =>
      refine (h.untouched fun w hw hpath => ?_).trans ((hdocument environment henv).symm.trans hlookup)
      rcases (hmem w).1 hw with rfl | rfl | ⟨f, hf, rfl⟩ | rfl
      · exact services_ne_documentPath _ _ hpath
      · exact archivedPath_ne_documentPath _ _ _ hpath
      · have := (mem_environments hf).2
        rw [show f.1 = _ from hpath, hlookup] at this
        cases this
      · exact schemaPath_ne_documentPath _ _ _ hpath
  · intro path hschemaPath hservicesPath harchivedPath hdocumentPath
    refine h.untouched fun w hw hpath => ?_
    rcases (hmem w).1 hw with rfl | rfl | ⟨f, hf, rfl⟩ | rfl
    · exact hservicesPath hpath.symm
    · exact harchivedPath hpath.symm
    · obtain ⟨hdoc, hlookup⟩ := mem_environments hf
      rw [hdoc, hfiles] at hlookup
      exact hdocumentPath _ (h.segment hlookup) (hpath.symm.trans hdoc)
    · exact hschemaPath hpath.symm
  · intro hexists
    have hwrite := h.replaced _ ((hmem _).2 (.inr (.inl rfl)))
    change files.lookup (archivedPath session.service) = _ at hwrite
    exact forced_of_archiveProduct h.planned (by rw [hfiles, hwrite]; exact hexists)

/-- The registry with the product, which is marked retiring. -/
def retiringRegistry : Database :=
  { webRegistry with
    files := webRegistry.files.insert "schema/web.yaml"
      (jsonRuntime.stringifyYaml (webSchema.set "retiring" (.bool true))) }

end ConfigRegistry.Products
