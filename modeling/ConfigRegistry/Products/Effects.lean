import ConfigRegistry.Products.Paths
import ConfigRegistry.Schema.SchemaSet

/-!
# What an operation can do

Each operation's plan, once it was not refused, and the database after its transaction. The results
about runs of operations read nothing else of the code.
-/

namespace ConfigRegistry.Products

open Js Schema Store

variable {o : ProductWriteOptions} {actor : Actor} {service : String} {files : Files}
  {session : ProductMutation}

/-! ### Attempts -/

@[simp] theorem refuse_ne_ok {α : Type} {detail : String} {code : ErrorCode} {a : α} :
    refuse detail code = .ok a ↔ False := ⟨nofun, nofun⟩

@[simp] theorem refuseErrors_ne_ok {α : Type} {detail : String} {errors : List ValidationError} {a : α} :
    refuseErrors detail errors = .ok a ↔ False := ⟨nofun, nofun⟩

@[simp] theorem typeError_ne_ok {α : Type} {a : α} : typeError = .ok a ↔ False := ⟨nofun, nofun⟩

@[simp] theorem lift_eq_ok {α : Type} {x : Except Error α} {a : α} : lift x = .ok a ↔ x = .ok a := by
  cases x with
  | error e => exact ⟨nofun, nofun⟩
  | ok b => exact ⟨fun h => by cases h; rfl, fun h => by cases h; rfl⟩

@[simp] theorem pure_eq_ok {α : Type} {a b : α} : (pure a : Attempt α) = .ok b ↔ a = b :=
  ⟨fun h => by cases h; rfl, fun h => by cases h; rfl⟩

/-- A guard that refuses was not met. -/
theorem guard_eq_ok {α : Type} {c : Bool} {x y : Attempt α} {a : α} (hx : ∀ a, x ≠ .ok a)
    (h : (if c = true then x else y) = .ok a) : c = false ∧ y = .ok a := by
  cases c with
  | true => exact (hx a h).elim
  | false => exact ⟨rfl, h⟩

theorem mem_listing {path source : String} :
    (path, source) ∈ listing files ↔ files.lookup path = some source := by
  rw [listing, List.mem_map]
  constructor
  · rintro ⟨⟨p, c⟩, hmem, heq⟩
    cases heq
    exact AList.mem_lookup_iff.2 hmem
  · intro h
    exact ⟨⟨path, source⟩, AList.mem_lookup_iff.1 h, rfl⟩

/-! ### Schemas of a database -/

/-- The database holds a schema of the product, and this is what it declares. -/
def Declares (rt : Runtime) (files : Files) (product : String) (schema : ProductSchema) : Prop :=
  ProductName product ∧ ∃ source, files.lookup (schemaPath product) = some source ∧
    ProductSchema.ofSource rt product source = .ok schema

/-- Every schema file is accepted. -/
def SchemasAccepted (rt : Runtime) (files : Files) : Prop :=
  ∀ product source, ProductName product → files.lookup (schemaPath product) = some source →
    ∃ schema, ProductSchema.ofSource rt product source = .ok schema

theorem mem_schemaFiles {name source : String} :
    (name, source) ∈ ((listing files).filterMap fun (path, source) =>
      (schemaName path).map fun name => (name, source)) ↔
      ProductName name ∧ files.lookup (schemaPath name) = some source := by
  rw [List.mem_filterMap]
  constructor
  · rintro ⟨⟨path, content⟩, hmem, heq⟩
    obtain ⟨n, hn, hpair⟩ := Option.map_eq_some_iff.1 heq
    cases hpair
    obtain ⟨rfl, hname⟩ := schemaName_eq_some.1 hn
    exact ⟨hname, mem_listing.1 hmem⟩
  · rintro ⟨hname, hlookup⟩
    exact ⟨_, mem_listing.2 hlookup, by simp [schemaName_eq_some.2 ⟨rfl, hname⟩]⟩

theorem fromTree_ok_iff {rt : Runtime} :
    (∃ set, SchemaSet.fromTree rt (listing files) = .ok set) ↔ SchemasAccepted rt files := by
  rw [SchemaSet.fromTree, fromFiles_ok_iff]
  constructor
  · intro h product source hname hlookup
    exact h product source (mem_schemaFiles.2 ⟨hname, hlookup⟩)
  · intro h name source hmem
    obtain ⟨hname, hlookup⟩ := mem_schemaFiles.1 hmem
    exact h name source hname hlookup

theorem Declares.unique {rt : Runtime} {product : String} {schema schema' : ProductSchema}
    (h : Declares rt files product schema) (h' : Declares rt files product schema') :
    schema = schema' := by
  obtain ⟨-, source, hsource, hok⟩ := h
  obtain ⟨-, source', hsource', hok'⟩ := h'
  rw [hsource] at hsource'
  cases hsource'
  rw [hok] at hok'
  exact Except.ok.inj hok'

theorem lookup_fromTree {rt : Runtime} {set : SchemaSet}
    (h : SchemaSet.fromTree rt (listing files) = .ok set) {product : String} {schema : ProductSchema} :
    set.services.lookup product = some schema ↔ Declares rt files product schema := by
  have hmem := fun schema => mem_fromFiles h product schema
  have hdeclares : ∀ schema, (product, schema) ∈ set.services → Declares rt files product schema := by
    intro schema hin
    obtain ⟨source, hsource, hok⟩ := (hmem schema).1 hin
    obtain ⟨hname, hlookup⟩ := mem_schemaFiles.1 hsource
    exact ⟨hname, source, hlookup, hok⟩
  constructor
  · exact fun hlookup => hdeclares schema (Schema.mem_of_lookup hlookup)
  · intro hd
    obtain ⟨hname, source, hsource, hok⟩ := hd
    have hin := (hmem schema).2 ⟨source, mem_schemaFiles.2 ⟨hname, hsource⟩, hok⟩
    obtain ⟨schema', hlookup⟩ := Schema.lookup_of_mem hin
    rw [hlookup, (hdeclares schema' (Schema.mem_of_lookup hlookup)).unique
      ⟨hname, source, hsource, hok⟩]

/-! ### Sessions -/

/-- The session of an operation on `files`. -/
structure Opened (o : ProductWriteOptions) (service : String) (actor : Actor) (files : Files)
    (session : ProductMutation) : Prop where
  options_eq : session.options = o
  service_eq : session.service = service
  actor_eq : session.actor = actor
  files_eq : session.files = files
  schemas : SchemaSet.fromTree o.rt (listing files) = .ok session.schemas
  registry : o.rt.parseYaml ((files.lookup "services.yaml").getD "version: 1\nservices: []\n") =
    .ok session.registry
  order : session.order = EnvironmentOrder.fromYaml o.rt.parseYaml
    ((files.lookup "environments.yaml").getD "")

theorem create_eq_ok (h : ProductMutation.create o service actor files = .ok session) :
    Opened o service actor files session := by
  obtain ⟨schemas, hschemas, h⟩ := bind_eq_ok.1 h
  obtain ⟨registry, hregistry, h⟩ := bind_eq_ok.1 h
  cases h
  exact ⟨rfl, rfl, rfl, rfl, lift_eq_ok.1 hschemas, lift_eq_ok.1 hregistry, rfl⟩

theorem Opened.declares (h : Opened o service actor files session) {product : String}
    {schema : ProductSchema} :
    session.schemas.services.lookup product = some schema ↔ Declares o.rt files product schema :=
  lookup_fromTree h.schemas

/-- The operation was carried out: its plan, and the database after its transaction. -/
structure Performed (op : Operation) (o : ProductWriteOptions) (actor : Actor) (db db' : Database)
    (session : ProductMutation) (plan : Plan) : Prop where
  product : identifier op.service = true
  created : ProductMutation.create o op.service actor db.files = .ok session
  opened : Opened o op.service actor db.files session
  planned : op.action session = .ok plan
  distinct : (plan.writes.map MutationRequest.path).Nodup
  lookup : ∀ path, db'.files.lookup path =
    match requestFor plan.writes path with
    | some r => r.content
    | none => db.files.lookup path
  advanced : db' = db ∨ db'.revision = db.revision + 1

/-- An operation leaves everything as it was, or was carried out. -/
theorem perform_cases {op : Operation} {db db' : Database} {out : Outcome}
    (hash : Function.Injective o.contentHash) (h : op.perform o actor db = (out, db')) :
    db' = db ∧ (∀ result, out ≠ .ok result) ∨ ∃ session plan, Performed op o actor db db' session plan := by
  simp only [Operation.perform, run] at h
  split at h
  · cases h; exact .inl ⟨rfl, nofun⟩
  rename_i hproduct
  split at h
  · cases h; exact .inl ⟨rfl, nofun⟩
  rename_i session hsession
  split at h
  · cases h; exact .inl ⟨rfl, nofun⟩
  rename_i plan hplan
  simp only [ProductMutation.commit] at h
  generalize hwrite : writeMany _ _ _ _ _ = written at h
  obtain ⟨result, db₁⟩ := written
  have hopened := create_eq_ok hsession
  rw [hopened.options_eq] at hwrite
  rcases writeMany_cases hash hwrite with ⟨rfl, hrefused⟩ | ⟨hresult, hcarried⟩
  · refine .inl ?_
    cases result with
    | error e => cases h; exact ⟨rfl, nofun⟩
    | ok result =>
      cases result with
      | conflict path actual revision => cases h; exact ⟨rfl, nofun⟩
      | written n => exact nomatch hrefused _ rfl
      | unchanged n => exact nomatch hrefused _ rfl
  · have hdb : db' = db₁ := by
      rcases hresult with ⟨rfl, -⟩ | ⟨rfl, -⟩ <;>
      · dsimp only at h
        split at h <;> cases h
        all_goals rfl
    rw [hdb]
    exact .inr ⟨session, plan, by simpa using hproduct, hsession, hopened, hplan, hcarried.distinct,
      hcarried.lookup, hresult.imp (fun h => h.2) (fun h => h.2)⟩

section

variable {op : Operation} {db db' : Database} {plan : Plan}

/-- What was asked to be written was written. -/
theorem Performed.written (h : Performed op o actor db db' session plan) {r : MutationRequest}
    (hr : r ∈ plan.writes) : db'.files.lookup r.path = r.content := by
  rw [h.lookup, requestFor_of_mem h.distinct hr]

theorem Performed.untouched (h : Performed op o actor db db' session plan) {path : String}
    (hpath : ∀ r ∈ plan.writes, r.path ≠ path) : db'.files.lookup path = db.files.lookup path := by
  rw [h.lookup, requestFor_eq_none.2 hpath]

end

/-! ### The registry -/

theorem services_eq_ok {services : List Value} :
    session.services = .ok services ↔ session.registry.field "services" = some (.arr services) := by
  rw [ProductMutation.services]
  split
  · rename_i items h
    rw [h]
    exact ⟨fun h => by cases h; rfl, fun h => by cases h; rfl⟩
  · rename_i h
    exact ⟨nofun, fun hs => (h services hs).elim⟩

theorem find_eq_some {p : Value → Bool} {services : List Value} {entry : Value}
    (h : ProductMutation.find p services = .ok (some entry)) : entry ∈ services ∧ p entry = true := by
  induction services with
  | nil => cases h
  | cons e rest ih =>
    have hcons : e = .null ∨ ProductMutation.find p (e :: rest) =
        if p e then pure (some e) else ProductMutation.find p rest := by
      cases e <;> first | exact .inl rfl | exact .inr rfl
    rcases hcons with rfl | hcons
    · cases h
    · rw [hcons] at h
      split at h
      · rename_i hp
        cases h
        exact ⟨List.mem_cons_self, hp⟩
      · exact (ih h).imp_left (List.mem_cons_of_mem _)

theorem find_eq_none {p : Value → Bool} {services : List Value}
    (h : ProductMutation.find p services = .ok none) : ∀ entry ∈ services, p entry = false := by
  induction services with
  | nil => exact fun _ hmem => nomatch hmem
  | cons e rest ih =>
    have hcons : e = .null ∨ ProductMutation.find p (e :: rest) =
        if p e then pure (some e) else ProductMutation.find p rest := by
      cases e <;> first | exact .inl rfl | exact .inr rfl
    rcases hcons with rfl | hcons
    · cases h
    · rw [hcons] at h
      split at h
      · cases h
      · rename_i hp
        intro entry hmem
        rcases List.mem_cons.1 hmem with rfl | hmem
        · simpa using hp
        · exact ih h entry hmem

theorem filter_eq_ok {p : Value → Bool} {services kept : List Value}
    (h : ProductMutation.filter p services = .ok kept) : kept = services.filter p := by
  induction services generalizing kept with
  | nil => cases h; rfl
  | cons e rest ih =>
    have hcons : e = .null ∨ ProductMutation.filter p (e :: rest) = (do
        let kept ← ProductMutation.filter p rest
        pure (if p e then e :: kept else kept)) := by
      cases e <;> first | exact .inl rfl | exact .inr rfl
    rcases hcons with rfl | hcons
    · cases h
    · rw [hcons] at h
      obtain ⟨others, hothers, h⟩ := bind_eq_ok.1 h
      cases h
      rw [List.filter_cons, ih hothers]

/-- The product has an entry and a schema. -/
theorem requireProduct_eq_ok {identity : Value} (h : session.requireProduct = .ok identity) :
    ∃ services schema, session.services = .ok services ∧ identity ∈ services ∧
      ProductMutation.isNamed session.service identity = true ∧
      session.schemas.services.lookup session.service = some schema := by
  obtain ⟨services, hservices, h⟩ := bind_eq_ok.1 h
  obtain ⟨found, hfound, h⟩ := bind_eq_ok.1 h
  cases found with
  | none => cases h
  | some entry =>
    obtain ⟨hmem, hnamed⟩ := find_eq_some hfound
    dsimp only at h
    split at h
    · rename_i hhas
      cases h
      obtain ⟨schema, hschema⟩ := Option.isSome_iff_exists.1 hhas
      exact ⟨services, schema, hservices, hmem, hnamed, hschema⟩
    · cases h

theorem select_eq_ok {keys selected : List String} (h : session.select keys = .ok selected) :
    selected = keys.eraseDups ∧ ∀ key ∈ selected,
      ∃ d, (session.schemas.definitionsFor session.service).lookup key = some d := by
  simp only [ProductMutation.select] at h
  split at h
  · cases h
  split at h
  · cases h
  · rename_i hfind
    cases h
    refine ⟨rfl, fun key hkey => ?_⟩
    have := List.find?_eq_none.1 hfind key hkey
    exact Option.isSome_iff_exists.1 (by simpa [Option.isNone_iff_eq_none, Option.isSome_iff_ne_none] using this)

/-! ### Documents -/

/-- The configuration of an environment as the loader resolves it, nothing where it has no file. -/
def Resolved (o : ProductWriteOptions) (files : Files) (product environment : String)
    (current : Record) : Prop :=
  files.lookup (documentPath product environment) = none ∧ current = [] ∨
    ∃ source, files.lookup (documentPath product environment) = some source ∧
      ProductMutation.resolveOne o (namespaceText product environment) source = .ok current

theorem document_eq_ok {environment : String} {current : Record}
    (h : session.document environment = .ok current) : identifier environment = true ∧
      Resolved session.options session.files session.service environment current := by
  rw [ProductMutation.document] at h
  split at h
  · cases h
  · rename_i hid
    refine ⟨by simpa using hid, ?_⟩
    split at h
    · rename_i hnone
      cases h
      exact .inl ⟨hnone, rfl⟩
    · rename_i source hsome
      exact .inr ⟨source, hsome, lift_eq_ok.1 h⟩

/-- An override adds submitted values of configuration keys. -/
theorem mem_override {next next' : Record} {changes : List (String × Option Value)}
    (h : ProductMutation.override next changes = .ok next') {key : String} {value : Value}
    (hmem : (key, value) ∈ next') :
    (key, value) ∈ next ∨ (key, some value) ∈ changes ∧ isMetadataKey key = false := by
  induction changes generalizing next with
  | nil => cases h; exact .inl hmem
  | cons c changes ih =>
    obtain ⟨k, v⟩ := c
    cases v with
    | none => cases h
    | some v =>
      simp only [ProductMutation.override] at h
      split at h
      · cases h
      · rename_i hmeta
        rcases ih h with hin | ⟨hin, hk⟩
        · rcases Record.mem_set hin with hin | ⟨rfl, rfl⟩
          · exact .inl hin
          · exact .inr ⟨List.mem_cons_self, by simpa using hmeta⟩
        · exact .inr ⟨List.mem_cons_of_mem _ hin, hk⟩

/-- What the encryptor made of a document that was written. -/
structure Encodes (o : ProductWriteOptions) (product environment : String) (schema : ProductSchema)
    (value : Record) (source : String) : Prop where
  encrypted : o.encrypt (namespaceText product environment)
    (o.rt.stringifyYaml (.obj (ProductMutation.ordered value))) = .ok source
  kept : ∃ held, o.rt.parseYaml source = .ok (.obj held) ∧ ∀ key ∈ (configOnly value).keys,
    schema.isSecret key = true → ProductMutation.secretKept value held key = true

theorem encode_eq_ok {environment : String} {value : Record} {set : SchemaSet}
    {schema : ProductSchema} {source : String} (hs : set.services.lookup session.service = some schema)
    (h : session.encode environment value set = .ok source) :
    Encodes session.options session.service environment schema value source := by
  rw [ProductMutation.encode] at h
  split at h
  · cases h
  obtain ⟨source', hencrypt, h⟩ := bind_eq_ok.1 h
  obtain ⟨parsed, hparse, h⟩ := bind_eq_ok.1 h
  cases parsed with
  | obj held =>
    dsimp only at h
    split at h
    · cases h
    · rename_i hfind
      cases h
      refine ⟨lift_eq_ok.1 hencrypt, held, lift_eq_ok.1 hparse, fun key hkey hsecret => ?_⟩
      have := List.find?_eq_none.1 hfind key hkey
      rw [isSecret_eq hs, hsecret] at this
      simpa using this
  | _ => cases h

theorem lookup_selected (value : Record) (keys : List String) (key : String) :
    (keys.filterMap fun k => (value.lookup k).map fun held => (k, held)).lookup key =
      if key ∈ keys then value.lookup key else none := by
  induction keys with
  | nil => rfl
  | cons k keys ih =>
    rw [List.filterMap_cons]
    cases hk : value.lookup k with
    | none =>
      rw [Option.map_none, ih]
      by_cases h : key = k
      · subst h
        simp [hk]
      · simp [h]
    | some held =>
      rw [Option.map_some]
      by_cases h : key = k
      · subst h
        simp [hk]
      · rw [List.lookup_cons, beq_false_of_ne h, ih]
        simp [h]

/-- The fields of a document are those of the value, whatever their order. -/
theorem lookup_ordered (value : Record) (key : String) :
    (ProductMutation.ordered value).lookup key = value.lookup key := by
  rw [ProductMutation.ordered, List.lookup_append, lookup_selected,
    Record.lookup_filter isMetadataKey]
  cases hmeta : isMetadataKey key with
  | true =>
    have hkeys : key ∉ sortTexts (configOnly value).keys := by
      rw [mem_sortTexts, Record.mem_keys]
      rintro ⟨v, hv⟩
      rw [(mem_configOnly.1 hv).2] at hmeta
      cases hmeta
    simp [hkeys]
  | false =>
    by_cases hkeys : key ∈ sortTexts (configOnly value).keys
    · simp [hkeys]
    · cases hv : value.lookup key with
      | none => simp
      | some v =>
        rw [mem_sortTexts, Record.mem_keys] at hkeys
        exact (hkeys ⟨v, mem_configOnly.2 ⟨Record.mem_of_lookup hv, hmeta⟩⟩).elim

/-- A key has one value in the document that is written. -/
theorem lookup_of_mem_ordered {value : Record} {key : String} {v : Value} (hkey : isMetadataKey key = false)
    (h : (key, v) ∈ ProductMutation.ordered value) : value.lookup key = some v := by
  rcases List.mem_append.1 h with h | h
  · obtain ⟨k, -, hk⟩ := List.mem_filterMap.1 h
    obtain ⟨w, hw, heq⟩ := Option.map_eq_some_iff.1 hk
    cases heq
    exact hw
  · rw [(List.mem_filter.1 h).2] at hkey
    cases hkey

theorem mem_ordered {value : Record} {key : String} {v : Value}
    (h : (key, v) ∈ ProductMutation.ordered value) : (key, v) ∈ value := by
  rcases List.mem_append.1 h with h | h
  · obtain ⟨k, -, hk⟩ := List.mem_filterMap.1 h
    obtain ⟨w, hw, heq⟩ := Option.map_eq_some_iff.1 hk
    cases heq
    exact Record.mem_of_lookup hw
  · exact (List.mem_filter.1 h).1

end ConfigRegistry.Products
