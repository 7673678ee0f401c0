import ConfigRegistry.Products.GrantTable
import ConfigRegistry.Products.Runs

/-!
# Grants and files

`services.yaml` says which environments a product is granted, and the files which it has. Each
operation writes one or the other, and most of them keep the two in step.
-/

namespace ConfigRegistry.Products

open Js Schema Store Identity

variable {o : ProductWriteOptions} {actor : Actor} {op : Operation}

/-- The services grant the product what it has files for, and nothing of it once it is archived. -/
structure Agrees (files : Files) (services : List ServiceIdentity) (product : String) : Prop where
  granted : ∀ environment, (files.lookup (documentPath product environment)).isSome = true ↔
    ∃ s ∈ services, s.name = product ∧ namespaceText product environment ∈ s.namespaces
  archived : (files.lookup (archivedPath product)).isSome = true → (∀ s ∈ services, s.name ≠ product) →
    ∀ s ∈ services, ∀ environment, namespaceText product environment ∉ s.namespaces

/-- Grants and files agree. -/
def GrantsAgree (rt : Runtime) (files : Files) : Prop :=
  ∃ services, Granting rt files services ∧ ∀ product, ProductName product → Agrees files services product

/-- A call that writes values finds the document it writes to, and one that archives a product finds
no service but the product's own that is granted anything of it. -/
def Call.KeepsGrants (o : ProductWriteOptions) (c : Call) (db : Database) : Prop :=
  match c.operation with
  | .writeValues r => (db.files.lookup (documentPath r.service r.environment)).isSome = true
  | .promote r => (db.files.lookup (documentPath r.service r.target)).isSome = true
  | .archiveProduct service _ _ => ∀ services, Granting o.rt db.files services →
    ∀ s ∈ services, s.name ≠ service → ∀ environment, namespaceText service environment ∉ s.namespaces
  | _ => True

theorem namespaceText_inj {a b x y : String} (ha : Segment a) (hb : Segment b)
    (h : namespaceText a x = namespaceText b y) : a = b ∧ x = y := segment_inj ha hb h

/-- A namespace that a new product is granted. -/
theorem mem_newService {r : CreateRequest} {product environment : String} (hs : Segment r.service)
    (hp : Segment product) : namespaceText product environment ∈ (newService r).namespaces ↔
      product = r.service ∧ environment ∈ r.environments := by
  rw [newService, List.mem_map]
  constructor
  · rintro ⟨e, he, heq⟩
    obtain ⟨rfl, rfl⟩ := namespaceText_inj hs hp heq
    exact ⟨rfl, he⟩
  · rintro ⟨rfl, he⟩
    exact ⟨environment, he, rfl⟩

theorem Rewritten.exists_iff {files files' : Files} {given : List (String × Record)} {service : String}
    {target : Option String} {old schema : ProductSchema} {gone : List String}
    (h : Rewritten o service target files files' given old schema gone)
    (htarget : ∀ environment, target = some environment →
      (files.lookup (documentPath service environment)).isSome = true) (environment : String) :
    (files'.lookup (documentPath service environment)).isSome =
      (files.lookup (documentPath service environment)).isSome := by
  by_cases hgiven : ∃ value, (environment, value) ∈ given
  · obtain ⟨value, hmem⟩ := hgiven
    obtain ⟨-, -, source, hsource, -⟩ := h.encoded _ hmem
    rw [hsource]
    rcases h.existing _ hmem with heq | ⟨source', hsource'⟩
    · rw [htarget _ heq]
      rfl
    · rw [hsource']
      rfl
  · rw [h.document environment fun value hmem => hgiven ⟨value, hmem⟩]

theorem Agrees.of_lookup {files files' : Files} {services services' : List ServiceIdentity} {product : String}
    (h : Agrees files services product)
    (hdocument : ∀ environment, (files'.lookup (documentPath product environment)).isSome =
      (files.lookup (documentPath product environment)).isSome)
    (harchived : files'.lookup (archivedPath product) = files.lookup (archivedPath product))
    (hown : ∀ s, s.name = product → (s ∈ services' ↔ s ∈ services))
    (hgrants : ∀ s ∈ services', s ∈ services ∨
      ∀ environment, namespaceText product environment ∉ s.namespaces) : Agrees files' services' product := by
  constructor
  · intro environment
    rw [hdocument, h.granted]
    constructor
    · rintro ⟨s, hs, hname, hns⟩
      exact ⟨s, (hown s hname).2 hs, hname, hns⟩
    · rintro ⟨s, hs, hname, hns⟩
      exact ⟨s, (hown s hname).1 hs, hname, hns⟩
  · intro hexists hnone s hs environment
    rw [harchived] at hexists
    rcases hgrants s hs with hs | hs
    · refine h.archived hexists (fun s' hs' hname => ?_) s hs environment
      exact hnone s' ((hown s' hname).2 hs') hname
    · exact hs environment

theorem Effect.grantsAgree {c : Call} {db : Database} {files' : Files} {given : List (String × Record)}
    (yaml : ∀ v, o.rt.parseYaml (o.rt.stringifyYaml v) = .ok v)
    (h : Effect c.operation (c.options o) actor db.files files' given) (hkeeps : c.KeepsGrants o db)
    (ha : GrantsAgree o.rt db.files) : GrantsAgree o.rt files' := by
  obtain ⟨services, hg, hagrees⟩ := ha
  rw [Call.KeepsGrants] at hkeeps
  rcases h.granting (o := c.options o) yaml hg with ⟨⟨old, schema, gone, hr⟩, hg'⟩ | ⟨r, schema, hop, hr, hfresh, hg'⟩ |
    ⟨service, base, force, schema, hop, -, hr, hg'⟩
  · refine ⟨services, hg', fun product hname => ?_⟩
    by_cases hp : product = c.operation.service
    · subst hp
      refine (hagrees _ hname).of_lookup (hr.exists_iff fun environment htarget => ?_) ?_
        (fun s _ => Iff.rfl) fun s hs => .inl hs
      · cases hop : c.operation with
        | writeValues r =>
          rw [hop] at hkeeps htarget
          cases htarget
          exact hkeeps
        | promote r =>
          rw [hop] at hkeeps htarget
          cases htarget
          exact hkeeps
        | _ =>
          rw [hop] at htarget
          cases htarget
      · exact hr.others _ (archivedPath_ne_schemaPath _ _) fun e => archivedPath_ne_documentPath _ _ e
    · obtain ⟨-, harchived, hdocument⟩ := h.frame hname hp
      exact (hagrees _ hname).of_lookup (fun e => by rw [hdocument]) harchived (fun s _ => Iff.rfl)
        fun s hs => .inl hs
  · have hsegment := segment_of_identifier hr.product
    refine ⟨_, hg', fun product hname => ?_⟩
    by_cases hp : product = r.service
    · subst hp
      constructor
      · intro environment
        constructor
        · intro hexists
          have henv : environment ∈ r.environments := by
            by_contra hnot
            rw [hr.document environment hnot] at hexists
            cases hexists
          exact ⟨newService r, by simp, rfl, (mem_newService hsegment hsegment).2 ⟨rfl, henv⟩⟩
        · rintro ⟨s, hs, hname', hns⟩
          rcases List.mem_append.1 hs with hs | hs
          · exact (hfresh s hs hname').elim
          · rw [List.mem_singleton.1 hs] at hns
            obtain ⟨source, hsource, -⟩ := hr.encoded environment ((mem_newService hsegment hsegment).1 hns).2
            rw [hsource]
            rfl
      · intro _ hnone
        exact (hnone (newService r) (by simp) rfl).elim
    · have hservice : product ≠ c.operation.service := by
        rw [hop]
        exact hp
      obtain ⟨-, harchived, hdocument⟩ := h.frame hname hservice
      refine (hagrees _ hname).of_lookup (fun e => by rw [hdocument]) harchived ?_ ?_
      · intro s hs
        rw [List.mem_append, List.mem_singleton]
        refine ⟨fun hmem => hmem.resolve_right ?_, .inl⟩
        rintro rfl
        exact hp hs.symm
      · intro s hs
        rw [List.mem_append, List.mem_singleton] at hs
        refine hs.imp_right ?_
        rintro rfl environment hmem
        exact hp ((mem_newService hsegment hname.segment).1 hmem).1
  · refine ⟨_, hg', fun product hname => ?_⟩
    by_cases hp : product = service
    · subst hp
      rw [hop] at hkeeps
      constructor
      · intro environment
        rw [hr.undocumented environment]
        refine ⟨nofun, ?_⟩
        rintro ⟨s, hs, hname', -⟩
        have := (List.mem_filter.1 hs).2
        simp [hname'] at this
      · intro _ _ s hs environment
        obtain ⟨hs, hne⟩ := List.mem_filter.1 hs
        exact hkeeps services hg s hs (by simpa using hne) environment
    · have hservice : product ≠ c.operation.service := by
        rw [hop]
        exact hp
      obtain ⟨-, harchived, hdocument⟩ := h.frame hname hservice
      refine (hagrees _ hname).of_lookup (fun e => by rw [hdocument]) harchived ?_ ?_
      · intro s hs
        rw [List.mem_filter]
        refine ⟨fun hmem => hmem.1, fun hmem => ⟨hmem, ?_⟩⟩
        simp [hs, hp]
      · exact fun s hs => .inl (List.mem_filter.1 hs).1

/-- Grants and files agree after any calls, where no call creates a document without granting it or
archives a product that others are granted. -/
theorem grants_stay_in_step (hash : Function.Injective o.contentHash)
    (yaml : ∀ v, o.rt.parseYaml (o.rt.stringifyYaml v) = .ok v) {calls : List Call} {db : Database}
    (hcalls : EachCall o (Call.KeepsGrants o) calls db) (h : GrantsAgree o.rt db.files) :
    GrantsAgree o.rt (afterCalls o calls db).files := by
  refine hcalls.induction (I := fun db => GrantsAgree o.rt db.files) (fun c _ db hc ha => ?_) h
  rcases c.perform_cases (o := o) db hash yaml with ⟨hsame, -⟩ | ⟨heffect, -⟩
  · rw [hsame]
    exact ha
  · exact heffect.grantsAgree yaml hc ha

theorem granting_emptyRegistry : Granting jsonRuntime emptyRegistry.files [] := by
  refine granting_iff.2 ⟨_, _, AList.lookup_insert _, parse_stringify _, rfl, ⟨1, rfl⟩, ⟨[], rfl, .nil⟩, ?_⟩
  exact List.nodup_nil

theorem grantsAgree_emptyRegistry : GrantsAgree jsonRuntime emptyRegistry.files := by
  refine ⟨[], granting_emptyRegistry, fun product _ => ⟨fun environment => ?_, fun _ _ s hs => nomatch hs⟩⟩
  rw [lookup_emptyRegistry (services_ne_documentPath _ _).symm (documentPath_ne_environments _ _)]
  exact ⟨nofun, fun ⟨s, hs, _⟩ => nomatch hs⟩

/-- A product is created, and a value of it is changed. -/
theorem grants_stay_in_step_changed : GrantsAgree jsonRuntime (afterCalls plainOptions
    [createWeb, plainCall (.writeValues { service := "web", environment := "dev"
                                          changes := [("COUNT", some (.num (.fin 4)))] })]
    emptyRegistry).files := by
  have hfile : ((createWeb.perform plainOptions emptyRegistry).2.files.lookup
      (documentPath "web" "dev")).isSome = true := by
    rw [createWeb_eq]
    decide
  exact grants_stay_in_step (o := plainOptions) Function.injective_id parse_stringify
    ⟨trivial, hfile, trivial⟩ grantsAgree_emptyRegistry

theorem granting_web {files : Files}
    (h : files.lookup "services.yaml" = some (jsonRuntime.stringifyYaml webServices)) :
    Granting jsonRuntime files [⟨"web", 1001, ["web/dev"]⟩] := by
  refine granting_iff.2 ⟨_, _, h, parse_stringify _, rfl, ⟨1, rfl⟩, ⟨_, rfl, .cons ?_ .nil⟩, ?_⟩
  · refine checkService_eq_ok.2 ⟨rfl, rfl, checkUid_eq_ok.2 ⟨1001, rfl, rfl, by decide, rfl⟩, ?_⟩
    exact checkNamespaces_eq_ok.2 ⟨rfl, by decide, by decide +kernel⟩
  · exact List.nodup_singleton _

/-- A value is written for an environment that has no file yet. -/
def firstProdValue : Call :=
  plainCall (.writeValues { service := "web", environment := "prod"
                            changes := [("COUNT", some (.num (.fin 4)))] })

/-- The file is there, and the product is not granted it. -/
theorem first_value_is_not_granted : GrantsAgree jsonRuntime emptyRegistry.files ∧
    ¬ GrantsAgree jsonRuntime (afterCalls plainOptions [createWeb, firstProdValue] emptyRegistry).files := by
  refine ⟨grantsAgree_emptyRegistry, ?_⟩
  have hafter : afterCalls plainOptions [createWeb, firstProdValue] emptyRegistry =
      (firstProdValue.perform plainOptions webRegistry).2 := by rw [← createWeb_eq]; rfl
  rw [hafter]
  obtain ⟨hfile, htable⟩ : ((firstProdValue.perform plainOptions webRegistry).2.files.lookup
        (documentPath "web" "prod")).isSome = true ∧
      (firstProdValue.perform plainOptions webRegistry).2.files.lookup "services.yaml" =
        some (jsonRuntime.stringifyYaml webServices) := by decide +kernel
  rintro ⟨services, hg, hagrees⟩
  obtain rfl := hg.unique (granting_web htable)
  have hname : ProductName "web" := productName_of_identifier (by decide)
  obtain ⟨s, hs, -, hns⟩ := ((hagrees "web" hname).granted "prod").1 hfile
  rw [List.mem_singleton.1 hs] at hns
  revert hns
  decide

end ConfigRegistry.Products
