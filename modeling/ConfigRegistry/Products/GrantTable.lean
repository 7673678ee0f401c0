import ConfigRegistry.Identity.Acceptance
import ConfigRegistry.Products.Lifecycle

/-!
# The grant table of a database

What each operation does to `services.yaml`, as the grant table reads it.
-/

namespace ConfigRegistry.Products

open Js Schema Store Identity

variable {o : ProductWriteOptions} {actor : Actor} {op : Operation}


/-- The entry of a new product, as the grant table reads it. -/
def newService (r : CreateRequest) : ServiceIdentity where
  name := r.service
  uid := match r.uid with
    | .fin q => q.num.toNat
    | _ => 0
  namespaces := r.environments.map (namespaceText r.service)

theorem isSlug_of_identifier {name : String} (h : identifier name = true) :
    isSlug name.toList = true := by
  rw [identifier] at h
  split at h
  · cases h
  · rename_i c cs hcons
    rw [hcons, isSlug]
    simp only [Bool.and_eq_true, List.all_eq_true] at h ⊢
    refine ⟨by simp [isSlugStart, h.1], fun d hd => ?_⟩
    have := h.2 d hd
    simp only [isSlugStart]
    exact this

theorem isNamespace_of_identifiers {service environment : String} (hs : identifier service = true)
    (he : identifier environment = true) : isNamespace (namespaceText service environment) = true := by
  have hsplit : (namespaceText service environment).toList.splitOn '/' =
      [service.toList, environment.toList] := by
    have htext : (namespaceText service environment).toList =
        service.toList ++ '/' :: environment.toList := by simp [namespaceText]
    rw [htext, List.splitOn_append_cons_self, List.splitOn_eq_singleton (segment_of_identifier hs),
      List.splitOn_eq_singleton (segment_of_identifier he)]
    rfl
  rw [isNamespace, hsplit]
  simp [isSlug_of_identifier hs, isSlug_of_identifier he]

/-- A new product's entry declares it. -/
theorem declares_newIdentity {r : CreateRequest} (hs : identifier r.service = true)
    (huid : r.uid.isSafeInteger = true ∧ r.uid.lt (.fin 0) = false)
    (henvs : r.environments ≠ [] ∧ ∀ environment ∈ r.environments, identifier environment = true) :
    Identity.Declares (newIdentity r) (newService r) := by
  refine checkService_eq_ok.2 ⟨rfl, if_neg (identifier_ne_empty hs), ?_, ?_⟩
  · obtain ⟨hsafe, hneg⟩ := huid
    refine checkUid_eq_ok.2 ?_
    rw [newService, newIdentity]
    cases hq : r.uid with
    | fin q =>
      rw [hq] at hsafe hneg
      refine ⟨q, rfl, hsafe, ?_, rfl⟩
      have : 0 ≤ q := by simpa [Number.lt] using hneg
      exact Rat.num_nonneg.2 this
    | _ =>
      rw [hq] at hsafe
      cases hsafe
  · refine checkNamespaces_eq_ok.2 ⟨?_, by simpa [newService] using henvs.1, fun ns hns => ?_⟩
    · rw [newService, List.map_map]
      rfl
    · obtain ⟨environment, henv, rfl⟩ := List.mem_map.1 hns
      exact isNamespace_of_identifiers hs (henvs.2 environment henv)

/-- An entry is named as its service is. -/
theorem isNamed_eq {v : Value} {service : ServiceIdentity} (h : Identity.Declares v service)
    (name : String) : ProductMutation.isNamed name v = (service.name == name) := by
  have hname := (checkService_eq_ok.1 h).2.1
  rw [ProductMutation.isNamed]
  cases hfield : v.field "name" with
  | none =>
    rw [hfield] at hname
    cases hname
  | some w =>
    rw [hfield] at hname
    cases w with
    | str s =>
      rw [checkName] at hname
      split at hname
      · cases hname
      · rw [Except.ok.inj hname]
    | _ => cases hname

/-- Where no entry has the number, no service has it as its uid. -/
theorem uid_ne_of_hasUid {v : Value} {service : ServiceIdentity} (h : Identity.Declares v service)
    {r : CreateRequest} (huid : r.uid.isSafeInteger = true ∧ r.uid.lt (.fin 0) = false)
    (hfresh : ProductMutation.hasUid r.uid v = false) : service.uid ≠ (newService r).uid := by
  obtain ⟨q, hq, hsafe, hnum, huid'⟩ := checkUid_eq_ok.1 (checkService_eq_ok.1 h).2.2.1
  rw [ProductMutation.hasUid, hq] at hfresh
  rw [newService, huid']
  cases hr : r.uid with
  | fin p =>
    rw [hr] at huid hfresh
    have hp : 0 ≤ p.num := Rat.num_nonneg.2 (by simpa [Number.lt] using huid.2)
    simp only [Number.isSafeInteger, Bool.and_eq_true, beq_iff_eq] at hsafe huid
    intro heq
    have hnums : q.num = p.num := by
      dsimp only at heq
      omega
    have : q = p := Rat.ext hnums (hsafe.1.trans huid.1.1.symm)
    simp [this] at hfresh
  | _ =>
    rw [hr] at huid
    cases huid.1

theorem field_services {registry : Value} {items items' : List Value}
    (h : registry.field "services" = some (.arr items)) :
    (registry.set "services" (.arr items')).field "services" = some (.arr items') := by
  cases registry with
  | obj fields => exact field_set_self
  | _ => cases h

/-- A registry with other items lists what they declare. -/
theorem lists_set {registry : Value} {services services' : List ServiceIdentity} {items' : List Value}
    (h : Lists registry services) (hitems : List.Forall₂ Identity.Declares items' services')
    (hunique : (services'.map ServiceIdentity.uid).Nodup) :
    Lists (registry.set "services" (.arr items')) services' := by
  obtain ⟨items, hfield, -⟩ := h.items
  refine ⟨(isMapping_set _ _ _).trans h.mapping, ?_, ⟨items', field_services hfield, hitems⟩, hunique⟩
  rw [field_set_ne (by decide)]
  exact h.version

theorem forall₂_filter {items : List Value} {services : List ServiceIdentity}
    (h : List.Forall₂ Identity.Declares items services) (name : String) :
    List.Forall₂ Identity.Declares (items.filter fun v => !ProductMutation.isNamed name v)
      (services.filter fun s => !(s.name == name)) := by
  induction h with
  | nil => exact .nil
  | cons hv hrest ih =>
    rw [List.filter_cons, List.filter_cons, isNamed_eq hv]
    split
    · exact .cons hv ih
    · exact ih

/-- The grant table that `services.yaml` holds, where it is accepted. -/
def Granting (rt : Runtime) (files : Files) (services : List ServiceIdentity) : Prop :=
  ∃ source registry, files.lookup "services.yaml" = some source ∧
    ServiceRegistry.fromYaml rt.parseYaml source = .ok registry ∧ registry.services = services

theorem granting_iff {rt : Runtime} {files : Files} {services : List ServiceIdentity} :
    Granting rt files services ↔ ∃ source v, files.lookup "services.yaml" = some source ∧
      rt.parseYaml source = .ok v ∧ Lists v services := by
  constructor
  · rintro ⟨source, registry, hsource, hok, hservices⟩
    obtain ⟨v, hv, hlists⟩ := fromYaml_ok_iff.1 ⟨registry, hok, hservices⟩
    exact ⟨source, v, hsource, hv, hlists⟩
  · rintro ⟨source, v, hsource, hv, hlists⟩
    obtain ⟨registry, hok, hservices⟩ := fromYaml_ok_iff.2 ⟨v, hv, hlists⟩
    exact ⟨source, registry, hsource, hok, hservices⟩

theorem Granting.unique {rt : Runtime} {files : Files} {services services' : List ServiceIdentity}
    (h : Granting rt files services) (h' : Granting rt files services') : services = services' := by
  obtain ⟨source, registry, hsource, hok, rfl⟩ := h
  obtain ⟨source', registry', hsource', hok', rfl⟩ := h'
  rw [hsource] at hsource'
  cases hsource'
  rw [hok] at hok'
  cases hok'
  rfl

/-- What a call does to the grant table. -/
theorem Effect.granting {files files' : Files} {given : List (String × Record)}
    {services : List ServiceIdentity} (yaml : ∀ v, o.rt.parseYaml (o.rt.stringifyYaml v) = .ok v)
    (h : Effect op o actor files files' given) (hg : Granting o.rt files services) :
    (∃ old schema gone, Rewritten o op.service op.target files files' given old schema gone) ∧
        Granting o.rt files' services ∨
      (∃ r schema, op = .createProduct r ∧ Created o r files files' given schema ∧
        (∀ s ∈ services, s.name ≠ r.service) ∧ Granting o.rt files' (services ++ [newService r])) ∨
      ∃ service base force schema, op = .archiveProduct service base force ∧ given = [] ∧
        Archived o actor service files files' schema ∧
        Granting o.rt files' (services.filter fun s => !(s.name == service)) := by
  obtain ⟨source, v, hsource, hv, hlists⟩ := granting_iff.1 hg
  obtain ⟨items, hfield, hitems⟩ := hlists.items
  cases h with
  | rewritten old schema gone hop hgone h =>
    refine .inl ⟨⟨old, schema, gone, h⟩, granting_iff.2 ⟨source, v, ?_, hv, hlists⟩⟩
    rw [h.others _ (services_ne_schemaPath _) fun e => services_ne_documentPath _ e]
    exact hsource
  | created r schema hop h =>
    obtain ⟨registry, listed, hregistry, hlisted, hfresh, hwritten⟩ := h.registry
    rw [hsource, Option.getD_some, hv] at hregistry
    cases hregistry
    rw [hfield] at hlisted
    cases hlisted
    have hnew : ∀ s ∈ services, s.name ≠ r.service ∧ s.uid ≠ (newService r).uid := by
      intro s hs
      obtain ⟨entry, hentry, hdeclares⟩ := forall₂_right hitems hs
      obtain ⟨hname, huid⟩ := hfresh entry hentry
      rw [isNamed_eq hdeclares] at hname
      exact ⟨by simpa using hname, uid_ne_of_hasUid hdeclares h.uid huid⟩
    refine .inr (.inl ⟨r, schema, hop, h, fun s hs => (hnew s hs).1,
      granting_iff.2 ⟨_, _, hwritten, yaml _, lists_set hlists ?_ ?_⟩⟩)
    · exact List.rel_append hitems
        (.cons (declares_newIdentity h.product h.uid h.environments) .nil)
    · rw [List.map_append, List.nodup_append]
      refine ⟨hlists.unique, List.nodup_singleton _, fun a ha b hb => ?_⟩
      obtain ⟨s, hs, rfl⟩ := List.mem_map.1 ha
      rw [List.mem_singleton.1 hb]
      exact (hnew s hs).2
  | archived service base force schema hop hgiven h =>
    obtain ⟨registry, listed, hregistry, hlisted, -, hwritten⟩ := h.registry
    rw [hsource, Option.getD_some, hv] at hregistry
    cases hregistry
    rw [hfield] at hlisted
    cases hlisted
    refine .inr (.inr ⟨service, base, force, schema, hop, hgiven, h,
      granting_iff.2 ⟨_, _, hwritten, yaml _, lists_set hlists (forall₂_filter hitems service) ?_⟩⟩)
    exact hlists.unique.sublist (List.filter_sublist.map _)

end ConfigRegistry.Products
