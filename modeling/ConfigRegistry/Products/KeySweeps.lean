import ConfigRegistry.Products.Overtaking

/-!
# Keys that come and go

`addKeys` and `deleteKeys` rewrite the schema and pass over every document of the product. What the one
has added the other takes away again, and neither does more than that.
-/

namespace ConfigRegistry.Products

open Js Schema Store

variable {o : ProductWriteOptions} {actor : Actor} {session : ProductMutation}

/-! ### One pass -/

/-- What a pass makes of a document: it is left as it is, where the edit changes nothing, or holds what
the edit says. -/
def Edited (edit : Record → Record) (before after : Record) : Prop :=
  after = before ∧ (edit (configOnly before) = configOnly before ∨
      SameConfig (configOnly before) (edit (configOnly before))) ∨
    ∀ key, isMetadataKey key = false → after.lookup key = (edit (configOnly before)).lookup key

/-- A pass over all documents of a product, that also writes its schema. -/
structure Sweeps (o : ProductWriteOptions) (service : String) (edit : String → Record → Record) (text : String)
    (files files' : Files) : Prop where
  schema : files'.lookup (schemaPath service) = some text
  documents : ∀ environment, Segment environment →
    (files.lookup (documentPath service environment)).isSome = true →
    (files'.lookup (documentPath service environment)).isSome = true ∧ ∃ before after,
      Resolved o files service environment before ∧ Resolved o files' service environment after ∧
        Edited (edit environment) before after
  absent : ∀ environment, Segment environment → files.lookup (documentPath service environment) = none →
    files'.lookup (documentPath service environment) = none
  others : ∀ path, path ≠ schemaPath service → (∀ environment, path ≠ documentPath service environment) →
    files'.lookup path = files.lookup path

section

variable {candidate : SchemaSet} {edit : String → Record → Record} {keys : List String}
  {envs : List (String × String)} {plan : Plan}

/-- What a pass does with each file: its document stays, or is written. -/
theorem Passed.each (h : Passed session candidate edit keys envs plan)
    (hdistinct : (envs.map fun f => documentPath session.service (session.environmentOf f.1)).Nodup)
    {f : String × String} (hf : f ∈ envs) : ∃ current,
      session.document (session.environmentOf f.1) = .ok current ∧
      ((∀ w ∈ plan.writes, w.path ≠ documentPath session.service (session.environmentOf f.1)) ∧
          (edit (session.environmentOf f.1) (configOnly current) = configOnly current ∨
            SameConfig (configOnly current) (edit (session.environmentOf f.1) (configOnly current))) ∨
        ∃ source, session.put (documentPath session.service (session.environmentOf f.1)) (some source) keys ∈
            plan.writes ∧
          session.encode (session.environmentOf f.1)
            (nextVersion current (edit (session.environmentOf f.1) (configOnly current))) candidate =
              .ok source) := by
  have hfresh : ∀ {envs : List (String × String)} {others : Plan} {path : String},
      Passed session candidate edit keys envs others →
      path ∉ envs.map (fun f => documentPath session.service (session.environmentOf f.1)) →
      ∀ w ∈ others.writes, w.path ≠ path := by
    intro envs others path hpassed hpath w hw heq
    apply hpath
    rw [← heq]
    exact hpassed.sublist.subset (List.mem_map_of_mem hw)
  induction h with
  | nil => cases hf
  | kept hcurrent hvalid hsame hothers ih =>
    rw [List.map_cons, List.nodup_cons] at hdistinct
    rcases List.mem_cons.1 hf with rfl | hf
    · have hkept := hfresh hothers hdistinct.1
      exact ⟨_, hcurrent, .inl ⟨hkept, hsame⟩⟩
    · exact ih hdistinct.2 hf
  | wrote hcurrent hvalid hother hsource hothers ih =>
    rw [List.map_cons, List.nodup_cons] at hdistinct
    rcases List.mem_cons.1 hf with rfl | hf
    · exact ⟨_, hcurrent, .inr ⟨_, List.mem_cons_self, hsource⟩⟩
    · obtain ⟨current, hcurrent', hkept | ⟨source, hmem, hencode⟩⟩ := ih hdistinct.2 hf
      · refine ⟨current, hcurrent', .inl ⟨List.forall_mem_cons.2 ⟨fun heq => ?_, hkept.1⟩, hkept.2⟩⟩
        apply hdistinct.1
        change documentPath session.service (session.environmentOf _) = _ at heq
        rw [heq]
        exact List.mem_map_of_mem hf
      · exact ⟨current, hcurrent', .inr ⟨source, List.mem_cons_of_mem _ hmem, hencode⟩⟩

theorem environments_map_path : (session.environments.map fun f =>
    documentPath session.service (session.environmentOf f.1)) = session.environments.map Prod.fst := by
  apply List.map_congr_left
  intro f hf
  exact (mem_environments hf).1.symm

/-- A pass that was planned is done. -/
theorem Committed.sweeps {op : Operation} {files : Files} {db db' : Database} {swept : Plan} {text : String}
    (yaml : ∀ v, o.rt.parseYaml (o.rt.stringifyYaml v) = .ok v)
    (sops : ∀ ns text source, o.encrypt ns text = .ok source → o.decrypt (configPath ns) source = .ok text)
    (h : Committed op o actor files db db' session plan)
    (hpassed : Passed session candidate edit keys session.environments swept)
    (hwrites : plan.writes = swept.writes ++ [session.put (schemaPath op.service) (some text) keys])
    (hreads : plan.reads = swept.reads) : Sweeps o op.service edit text db.files db'.files := by
  obtain ⟨rfl, hservice, -, hfiles, -, -, -⟩ := id h.opened
  have hdistinct : (session.environments.map fun f =>
      documentPath session.service (session.environmentOf f.1)).Nodup := by
    rw [environments_map_path]
    exact nodup_environments
  have hread : ∀ environment, (files.lookup (documentPath op.service environment)).isSome = true →
      ∃ f ∈ session.environments, session.environmentOf f.1 = environment ∧
        files.lookup (documentPath op.service environment) =
          db.files.lookup (documentPath op.service environment) := by
    intro environment hsome
    obtain ⟨source, hsource⟩ := Option.isSome_iff_exists.1 hsome
    rw [← hfiles, ← hservice] at hsource
    have hmem := mem_environments_of_lookup hsource
    have hpath := hpassed.read hmem
    rw [environmentOf_documentPath, hservice, ← hreads] at hpath
    exact ⟨_, hmem, environmentOf_documentPath environment, h.read _ (.inr (.inr (.inr hpath)))⟩
  constructor
  · have hmem : session.put (schemaPath op.service) (some text) keys ∈ plan.writes := by
      rw [hwrites]
      simp
    exact h.written hmem
  · intro environment hsegment hsome
    have hfile : (files.lookup (documentPath op.service environment)).isSome = true := by
      rcases h.documents hsegment with hfile | ⟨-, hnone⟩
      · exact hfile
      · rw [hnone] at hsome
        cases hsome
    obtain ⟨f, hf, henvironment, hsame⟩ := hread environment hfile
    obtain ⟨current, hcurrent, hcases⟩ := hpassed.each hdistinct hf
    have hpath := hpassed.read hf
    rw [henvironment, hservice, ← hreads] at hpath
    rw [henvironment] at hcurrent hcases
    have hbefore := h.resolved hpath hcurrent
    rw [hservice] at hcases
    rcases hcases with ⟨hkept, hnothing⟩ | ⟨source, hmem, hencode⟩
    · have hlookup : db'.files.lookup (documentPath op.service environment) =
          db.files.lookup (documentPath op.service environment) := by
        apply h.untouched
        intro w hw
        rw [hwrites] at hw
        rcases List.mem_append.1 hw with hw | hw
        · exact hkept w hw
        · rw [List.mem_singleton.1 hw]
          exact schemaPath_ne_documentPath _ _ _
      refine ⟨hlookup ▸ hsome, current, current, hbefore, ?_, .inl ⟨rfl, hnothing⟩⟩
      unfold Resolved at hbefore ⊢
      rw [hlookup]
      exact hbefore
    · have hwrite : session.put (documentPath op.service environment) (some source) keys ∈ plan.writes := by
        rw [hwrites]
        exact List.mem_append_left _ hmem
      have hwritten : db'.files.lookup (documentPath op.service environment) = some source := h.written hwrite
      refine ⟨by rw [hwritten]; rfl, current, _, hbefore, h.readBack yaml sops hwrite rfl rfl hencode,
        .inr fun key hkey => ?_⟩
      rw [lookup_ordered, lookup_nextVersion_ne _ _ hkey]
  · intro environment hsegment hnone
    rw [← hnone]
    apply h.untouched
    intro w hw hpath
    rw [hwrites] at hw
    rcases List.mem_append.1 hw with hw | hw
    · have hmem := hpassed.sublist.subset (List.mem_map_of_mem hw)
      obtain ⟨f, hf, heq⟩ := List.mem_map.1 hmem
      have hlookup := (mem_environments hf).2
      rw [(mem_environments hf).1, heq, hpath, hfiles] at hlookup
      obtain ⟨-, -, -, hsame⟩ := hread environment (by rw [hlookup]; rfl)
      rw [hlookup, hnone] at hsame
      cases hsame
    · rw [List.mem_singleton.1 hw] at hpath
      exact schemaPath_ne_documentPath _ _ _ hpath
  · intro path hschema hdocument
    apply h.untouched
    rintro w hw rfl
    rw [hwrites] at hw
    rcases List.mem_append.1 hw with hw | hw
    · obtain ⟨environment, -, hpath⟩ := hpassed.writes w hw
      rw [hservice] at hpath
      exact hdocument environment hpath
    · rw [List.mem_singleton.1 hw] at hschema
      exact hschema rfl

end

/-! ### The edits -/

/-- A document from which keys were deleted holds none of them, and otherwise what it held. -/
theorem Edited.lookup_deleteAll {keys : List String} {before after : Record}
    (h : Edited (fun config => config.deleteAll keys) before after) {key : String}
    (hkey : isMetadataKey key = false) :
    after.lookup key = if key ∈ keys then none else before.lookup key := by
  have hdeleted : ((configOnly before).deleteAll keys).lookup key =
      if key ∈ keys then none else before.lookup key := by
    rw [Record.deleteAll, Record.lookup_filter fun k => !keys.contains k, lookup_configOnly, hkey]
    by_cases hmem : key ∈ keys <;> simp [hmem]
  rcases h with ⟨rfl, hsame | hsame⟩ | hedited
  · have hsame : (configOnly after).deleteAll keys = configOnly after := hsame
    rw [← hdeleted, hsame, lookup_configOnly, hkey]
    rfl
  · split
    · rename_i hmem
      cases hlookup : after.lookup key with
      | none => rfl
      | some v =>
        have hheld : (key, v) ∈ configOnly after := mem_configOnly.2 ⟨Record.mem_of_lookup hlookup, hkey⟩
        exact (not_mem_of_deepEqual_deleteAll hsame hmem hheld).elim
    · rfl
  · rw [hedited key hkey, hdeleted]

/-- A document that got defaults holds what it held of every other key. -/
theorem Edited.lookup_addedTo {environment env : String} {defaults before after : Record}
    (h : Edited (addedTo environment defaults env) before after) {key : String}
    (hkey : isMetadataKey key = false) (hdefault : key ∉ defaults.keys) :
    after.lookup key = before.lookup key := by
  rcases h with ⟨rfl, -⟩ | hedited
  · rfl
  · have hadded : (addedTo environment defaults env (configOnly before)).lookup key =
        (configOnly before).lookup key := by
      unfold addedTo
      split
      · exact lookup_assign_ne hdefault
      · rfl
    rw [hedited key hkey, hadded, lookup_configOnly, hkey]
    rfl

/-- Keys that are assigned to a record without them come after all of its own. -/
theorem assign_eq_append {r other : Record} (h : ∀ key ∈ other.keys, r.has key = false) :
    ∃ rest, r.assign other = r ++ rest ∧ ∀ f ∈ rest, f.1 ∈ other.keys := by
  have hset : ∀ (r rest : Record) (key : String) (value : Value), r.has key = false →
      (r ++ rest).set key value = r ++ rest.set key value := by
    intro r rest key value hnew
    induction r with
    | nil => rfl
    | cons f r ih =>
      obtain ⟨k, v⟩ := f
      rw [Record.has, List.lookup_cons] at hnew
      have hne : k ≠ key := by
        rintro rfl
        simp at hnew
      rw [beq_false_of_ne (Ne.symm hne)] at hnew
      rw [List.cons_append, Record.set, if_neg hne, ih hnew]
      rfl
  have hfold : ∀ (others : Record) (rest : Record), (∀ key ∈ Record.keys others, r.has key = false) →
      ∃ rest', others.foldl (fun r f => r.set f.1 f.2) (r ++ rest) = r ++ rest' ∧
        ∀ f ∈ rest', f ∈ rest ∨ f.1 ∈ Record.keys others := by
    intro others
    induction others with
    | nil => exact fun rest _ => ⟨rest, rfl, fun f hf => .inl hf⟩
    | cons f others ih =>
      intro rest hnew
      rw [List.foldl_cons, hset r rest f.1 f.2 (hnew _ List.mem_cons_self)]
      obtain ⟨rest', heq, hmem⟩ := ih (rest.set f.1 f.2) fun key hkey => hnew key (List.mem_cons_of_mem _ hkey)
      refine ⟨rest', heq, fun g hg => ?_⟩
      rcases hmem g hg with hmem | hmem
      · obtain ⟨k, v⟩ := g
        rcases Record.mem_set hmem with hmem | ⟨rfl, -⟩
        · exact .inl hmem
        · exact .inr List.mem_cons_self
      · exact .inr (List.mem_cons_of_mem _ hmem)
  obtain ⟨rest, heq, hmem⟩ := hfold other [] h
  rw [List.append_nil] at heq
  refine ⟨rest, heq, fun f hf => (hmem f hf).resolve_left List.not_mem_nil⟩

theorem deleteAll_assign {r other : Record} {keys : List String} (hnew : ∀ key ∈ other.keys, r.has key = false)
    (hkeys : ∀ key, key ∈ keys ↔ key ∈ other.keys) : (r.assign other).deleteAll keys = r := by
  obtain ⟨rest, heq, hrest⟩ := assign_eq_append hnew
  rw [heq, Record.deleteAll, List.filter_append]
  have hkept : (r.filter fun f => !keys.contains f.1) = r := by
    apply List.filter_eq_self.2
    rintro ⟨key, value⟩ hf
    rw [Bool.not_eq_true', List.contains_eq_mem, decide_eq_false_iff_not, hkeys]
    intro hmem
    obtain ⟨v, hv⟩ := Record.lookup_isSome_of_mem hf
    have := hnew key hmem
    rw [Record.has, hv] at this
    cases this
  have hgone : (rest.filter fun f => !keys.contains f.1) = [] := by
    apply List.filter_eq_nil_iff.2
    intro f hf
    have hmem := (hkeys f.1).2 (hrest f hf)
    simp [hmem]
  rw [hkept, hgone, List.append_nil]

/-! ### The schema -/

/-- A schema document that says the same is read as the same schema. -/
theorem ofSource_of_fields {rt : Runtime} {service source text : String} {document document' : Value}
    {schema : ProductSchema} (hparse : rt.parseYaml source = .ok document)
    (hparse' : rt.parseYaml text = .ok document') (hschema : ProductSchema.ofSource rt service source = .ok schema)
    (hmapping : document'.isMapping = document.isMapping)
    (hkeys : document'.field "keys" = some (.obj (Value.record (document.field "keys"))))
    (hfield : ∀ key, key ≠ "keys" → document'.field key = document.field key) :
    ProductSchema.ofSource rt service text = .ok schema := by
  obtain ⟨parsed, hparsed, hd, hv, hr⟩ := ofSource_eq_ok.1 hschema
  rw [hparse] at hparsed
  cases hparsed
  refine ofSource_eq_ok.2 ⟨document', hparse', ?_, ?_, ?_⟩
  · obtain ⟨⟨⟨fields, hfields⟩, -⟩, hd⟩ := parseSchema_eq_ok.1 hd
    refine parseSchema_eq_ok.2 ⟨⟨?_, .inr ⟨_, hkeys⟩⟩, ?_⟩
    · rw [hfields] at hmapping
      cases document' with
      | obj fields' => exact ⟨fields', rfl⟩
      | _ => cases hmapping
    · rw [hkeys]
      exact hd
  · rw [parseSchemaVersion, hfield "version" (by decide)]
    exact hv
  · rw [parseRetiring, hfield "retiring" (by decide)]
    exact hr

/-- The schema that an operation rewrites is the one that its commit finds. -/
theorem Committed.schemaFile {op : Operation} {files : Files} {db db' : Database} {plan : Plan}
    {identity document : Value} (h : Committed op o actor files db db' session plan)
    (hproduct : session.requireProduct = .ok identity) (hdocument : session.productSchema = .ok document) :
    ∃ source schema, ProductName op.service ∧ db.files.lookup (schemaPath op.service) = some source ∧
      o.rt.parseYaml source = .ok document ∧ ProductSchema.ofSource o.rt op.service source = .ok schema := by
  obtain ⟨rfl, hservice, -, hfiles, -, -, -⟩ := id h.opened
  obtain ⟨-, schema, -, -, -, hs⟩ := requireProduct_eq_ok hproduct
  obtain ⟨hname, source, hsource, hok⟩ := h.declares hs
  rw [ProductMutation.productSchema, hfiles, hservice, h.read _ (.inl rfl), hsource] at hdocument
  exact ⟨source, schema, hname, hsource, lift_eq_ok.1 hdocument, hok⟩

/-- What `addKeys` does to the files: its schema declares the drafted keys too, and its documents are
passed over. -/
structure KeysAdded (o : ProductWriteOptions) (r : AddKeysRequest) (files files' : Files) : Prop where
  product : ProductName r.service
  drafted : ∃ source document schema, files.lookup (schemaPath r.service) = some source ∧
    o.rt.parseYaml source = .ok document ∧ ProductSchema.ofSource o.rt r.service source = .ok schema ∧
    (∀ name ∈ (draftedKeys r.keys).keys, (Value.record (document.field "keys")).has name = false) ∧
    Sweeps o r.service (addedTo r.environment (draftedDefaults r.keys))
      (o.rt.stringifyYaml (document.set "keys"
        (.obj ((Value.record (document.field "keys")).assign (draftedKeys r.keys))))) files files'

/-- What `deleteKeys` does to the files. -/
structure KeysDropped (o : ProductWriteOptions) (service : String) (selected : List String)
    (files files' : Files) : Prop where
  product : ProductName service
  dropped : ∃ source document schema, files.lookup (schemaPath service) = some source ∧
    o.rt.parseYaml source = .ok document ∧ ProductSchema.ofSource o.rt service source = .ok schema ∧
    (∃ schema', ProductSchema.ofSource o.rt service (o.rt.stringifyYaml (document.set "keys"
      (.obj ((Value.record (document.field "keys")).deleteAll selected.eraseDups)))) = .ok schema') ∧
    Sweeps o service (fun _ config => config.deleteAll selected.eraseDups)
      (o.rt.stringifyYaml (document.set "keys"
        (.obj ((Value.record (document.field "keys")).deleteAll selected.eraseDups)))) files files'

section

variable {files : Files} {db db' : Database} {plan : Plan}

theorem Committed.keysAdded {r : AddKeysRequest} (yaml : ∀ v, o.rt.parseYaml (o.rt.stringifyYaml v) = .ok v)
    (sops : ∀ ns text source, o.encrypt ns text = .ok source → o.decrypt (configPath ns) source = .ok text)
    (h : Committed (.addKeys r) o actor files db db' session plan) : KeysAdded o r db.files db'.files := by
  obtain ⟨-, -, built, added, document, candidate, swept, hbuilt, hadded, hdocument, hfresh, -, hpassed, hplan⟩ :=
    addKeys_passed h.opened.service_eq h.planned
  obtain ⟨identity, hproduct, -⟩ := bind_eq_ok.1 h.planned
  obtain ⟨source, schema, hname, hsource, hparse, hok⟩ := h.schemaFile hproduct hdocument
  obtain ⟨rfl, -⟩ := id h.opened
  have hdrafted : added = draftedKeys r.keys := by
    rw [buildSchema_eq_ok hbuilt, yaml] at hadded
    exact (Except.ok.inj hadded).symm
  subst hdrafted
  refine ⟨hname, source, document, schema, hsource, hparse, hok, hfresh, ?_⟩
  exact h.sweeps yaml sops hpassed (by rw [hplan]; rfl) (by rw [hplan])

theorem Committed.keysDropped {service : String} {selected : List String} {base : Option String}
    (yaml : ∀ v, o.rt.parseYaml (o.rt.stringifyYaml v) = .ok v)
    (sops : ∀ ns text source, o.encrypt ns text = .ok source → o.decrypt (configPath ns) source = .ok text)
    (h : Committed (.deleteKeys service selected base) o actor files db db' session plan) :
    KeysDropped o service selected db.files db'.files := by
  have hservice : session.service = service := h.opened.service_eq
  subst hservice
  obtain ⟨-, identity, keys, document, candidate, swept, hproduct, hkeys, hdocument, hcandidate, hpassed, hplan⟩ :=
    deleteKeys_passed h.planned
  obtain rfl := (select_eq_ok hkeys).1
  obtain ⟨source, schema, hname, hsource, hparse, hok⟩ := h.schemaFile hproduct hdocument
  obtain ⟨rfl, -⟩ := id h.opened
  obtain ⟨schema', hschema', -⟩ := fromFiles_one hcandidate
  refine ⟨hname, source, document, schema, hsource, hparse, hok, ⟨schema', hschema'⟩, ?_⟩
  exact h.sweeps yaml sops hpassed (by rw [hplan]; rfl) (by rw [hplan])

end

/-! ### Deleting -/

/-- The selected keys are gone from the schema and from every document, and nothing else is. -/
structure KeysDeleted (o : ProductWriteOptions) (service : String) (selected : List String)
    (files files' : Files) : Prop where
  schema : ∃ old new, Declares o.rt files service old ∧ Declares o.rt files' service new ∧
    new.retiring = old.retiring ∧ ∀ key, new.definitions.lookup key =
      if key ∈ selected then none else old.definitions.lookup key
  documents : ∀ environment, Segment environment →
    (files.lookup (documentPath service environment)).isSome = true →
    (files'.lookup (documentPath service environment)).isSome = true ∧ ∃ before after,
      Resolved o files service environment before ∧ Resolved o files' service environment after ∧
        ∀ key, isMetadataKey key = false →
          after.lookup key = if key ∈ selected then none else before.lookup key
  absent : ∀ environment, Segment environment → files.lookup (documentPath service environment) = none →
    files'.lookup (documentPath service environment) = none
  others : ∀ path, path ≠ schemaPath service → (∀ environment, path ≠ documentPath service environment) →
    files'.lookup path = files.lookup path

theorem KeysDropped.deleted {service : String} {selected : List String} {files files' : Files}
    (yaml : ∀ v, o.rt.parseYaml (o.rt.stringifyYaml v) = .ok v)
    (h : KeysDropped o service selected files files') : KeysDeleted o service selected files files' := by
  obtain ⟨hname, source, document, old, hsource, hparse, hold, ⟨new, hnew⟩, hsweeps⟩ := h
  have hdeleted : ∀ key, ((Value.record (document.field "keys")).deleteAll selected.eraseDups).lookup key =
      if key ∈ selected then none else (Value.record (document.field "keys")).lookup key := by
    intro key
    rw [Record.deleteAll, Record.lookup_filter fun k => !selected.eraseDups.contains k]
    by_cases hmem : key ∈ selected <;> simp [hmem]
  refine ⟨⟨old, new, ⟨hname, source, hsource, hold⟩, ⟨hname, _, hsweeps.schema, hnew⟩, ?_, fun key => ?_⟩, ?_,
    hsweeps.absent, hsweeps.others⟩
  · obtain ⟨parsed, hparsed, -, -, hretiring⟩ := ofSource_eq_ok.1 hold
    obtain ⟨parsed', hparsed', -, -, hretiring'⟩ := ofSource_eq_ok.1 hnew
    rw [hparse] at hparsed
    rw [yaml] at hparsed'
    cases hparsed
    cases hparsed'
    rw [parseRetiring, field_set_ne (by decide), ← parseRetiring, hretiring] at hretiring'
    exact (Except.ok.inj hretiring').symm
  · split
    · rename_i hmem
      obtain ⟨parsed, hparsed, hd, -⟩ := ofSource_eq_ok.1 hnew
      rw [yaml] at hparsed
      cases hparsed
      obtain ⟨⟨⟨fields, hfields⟩, -⟩, hkeys⟩ := parseSchema_eq_ok.1 hd
      have hfield : (document.set "keys" (.obj
          ((Value.record (document.field "keys")).deleteAll selected.eraseDups))).field "keys" =
          some (.obj ((Value.record (document.field "keys")).deleteAll selected.eraseDups)) := by
        cases document with
        | obj fields => exact field_set_self
        | _ => cases hfields
      rw [hfield] at hkeys
      apply (lookup_parseKeys hkeys key).2
      have := hdeleted key
      rwa [if_pos hmem] at this
    · rename_i hmem
      apply definition_of_ofSource yaml hparse hold hnew
      rw [hdeleted, if_neg hmem]
  · intro environment hsegment hsome
    obtain ⟨hsome', before, after, hbefore, hafter, hedited⟩ := hsweeps.documents environment hsegment hsome
    refine ⟨hsome', before, after, hbefore, hafter, fun key hkey => ?_⟩
    rw [hedited.lookup_deleteAll hkey]
    simp only [List.mem_eraseDups]

/-! ### Adding, and then deleting -/

/-- The product is as it was: what it declares, and what its documents say. -/
structure Restored (o : ProductWriteOptions) (service : String) (files files' : Files) : Prop where
  schema : ∃ schema, Declares o.rt files service schema ∧ Declares o.rt files' service schema
  documents : ∀ environment, Segment environment →
    (files.lookup (documentPath service environment)).isSome = true →
    (files'.lookup (documentPath service environment)).isSome = true ∧ ∃ before after,
      Resolved o files service environment before ∧ Resolved o files' service environment after ∧
        ∀ key, isMetadataKey key = false → after.lookup key = before.lookup key
  absent : ∀ environment, Segment environment → files.lookup (documentPath service environment) = none →
    files'.lookup (documentPath service environment) = none
  others : ∀ path, path ≠ schemaPath service → (∀ environment, path ≠ documentPath service environment) →
    files'.lookup path = files.lookup path

theorem mem_draftedKeys_keys {drafts : List KeyDraft} {key : String} :
    key ∈ (draftedKeys drafts).keys ↔ ∃ draft ∈ drafts, key = trim draft.name := by
  constructor
  · intro h
    exact (mem_keys_drafted h).resolve_left List.not_mem_nil
  · rintro ⟨draft, hdraft, rfl⟩
    obtain ⟨v, hv⟩ := Record.has_eq_true.1 (draftedKeys_has hdraft)
    exact Record.mem_keys.2 ⟨v, Record.mem_of_lookup hv⟩

/-- A document of a valid registry holds nothing that its schema does not declare. -/
theorem lookup_of_fits {rt : Runtime} {service : String} {schema : ProductSchema} {config : Record} {key : String}
    (hfits : schema.Fits rt service (configOnly config)) (hkey : isMetadataKey key = false)
    (hnone : schema.definitions.lookup key = none) : config.lookup key = none := by
  cases hlookup : config.lookup key with
  | none => rfl
  | some v =>
    obtain ⟨d, hd, -⟩ := (checkEntry_eq_none hkey).1
      (hfits _ (mem_configOnly.2 ⟨Record.mem_of_lookup hlookup, hkey⟩))
    rw [hnone] at hd
    cases hd

theorem KeysAdded.restored {r : AddKeysRequest} {selected : List String} {files files' files'' : Files}
    (yaml : ∀ v, o.rt.parseYaml (o.rt.stringifyYaml v) = .ok v) (hvalid : Valid o files)
    (hadd : KeysAdded o r files files') (hdrop : KeysDropped o r.service selected files' files'')
    (hselected : ∀ key, key ∈ selected ↔ ∃ draft ∈ r.keys, key = trim draft.name) :
    Restored o r.service files files'' := by
  obtain ⟨hname, source, document, schema, hsource, hparse, hok, hfresh, hsweeps⟩ := hadd
  obtain ⟨-, source', document', schema', hsource', hparse', hok', -, hsweeps'⟩ := hdrop
  obtain rfl := Option.some.inj (hsource'.symm.trans hsweeps.schema)
  obtain rfl := Except.ok.inj (hparse'.symm.trans (yaml _))
  obtain ⟨parsed, hparsed, hd, -⟩ := ofSource_eq_ok.1 hok
  obtain rfl := Except.ok.inj (hparsed.symm.trans hparse)
  obtain ⟨⟨⟨fields, rfl⟩, -⟩, hkeys⟩ := parseSchema_eq_ok.1 hd
  have hnames : ∀ key, key ∈ selected.eraseDups ↔ key ∈ (draftedKeys r.keys).keys := by
    intro key
    rw [List.mem_eraseDups, hselected, mem_draftedKeys_keys]
  have hdocuments := (valid_iff.1 hvalid).2.2
  refine ⟨⟨schema, ⟨hname, source, hsource, hok⟩, hname, _, hsweeps'.schema, ?_⟩, ?_, ?_, ?_⟩
  · rw [field_set_self]
    change ProductSchema.ofSource o.rt r.service (o.rt.stringifyYaml (Value.set _ "keys"
      (.obj (Record.deleteAll (Record.assign (Value.record ((Value.obj fields).field "keys"))
        (draftedKeys r.keys)) selected.eraseDups)))) = _
    rw [deleteAll_assign hfresh hnames]
    apply ofSource_of_fields hparse (yaml _) hok
    · rw [isMapping_set, isMapping_set]
    · exact field_set_self
    · intro key hkey
      rw [field_set_ne hkey, field_set_ne hkey]
  · intro environment hsegment hsome
    obtain ⟨hsome', before, middle, hbefore, hmiddle, hadded⟩ := hsweeps.documents environment hsegment hsome
    obtain ⟨hsome'', middle', after, hmiddle', hafter, hdeleted⟩ := hsweeps'.documents environment hsegment hsome'
    obtain rfl := Resolved.unique rfl hmiddle hmiddle'
    refine ⟨hsome'', before, after, hbefore, hafter, fun key hkey => ?_⟩
    rw [hdeleted.lookup_deleteAll hkey]
    split
    · rename_i hmem
      -- The key is new, so the document cannot have held it.
      obtain ⟨text, htext⟩ := Option.isSome_iff_exists.1 hsome
      obtain ⟨current, hcurrent, hfits⟩ := hdocuments r.service schema ⟨hname, source, hsource, hok⟩
        environment text hsegment htext
      obtain rfl := Resolved.unique rfl hbefore (.inr ⟨text, htext, hcurrent⟩)
      have hundeclared : (Value.record ((Value.obj fields).field "keys")).lookup key = none := by
        have hhas := hfresh key ((hnames key).1 hmem)
        rwa [Record.has, Option.isSome_eq_false_iff, Option.isNone_iff_eq_none] at hhas
      exact (lookup_of_fits hfits hkey ((lookup_parseKeys hkeys key).2 hundeclared)).symm
    · rename_i hmem
      apply hadded.lookup_addedTo hkey
      intro hdefault
      apply hmem
      obtain ⟨v, hv⟩ := Record.mem_keys.1 hdefault
      obtain ⟨draft, hdraft, -, heq⟩ := mem_draftedDefaults hv
      rw [List.mem_eraseDups, hselected]
      exact ⟨draft, hdraft, heq⟩
  · intro environment hsegment hnone
    exact hsweeps'.absent environment hsegment (hsweeps.absent environment hsegment hnone)
  · intro path hpath hdocument
    rw [hsweeps'.others path hpath hdocument, hsweeps.others path hpath hdocument]

/-- Whatever becomes of an operation on values, it touches the files of its own product only. -/
theorem others_of_writesValues {op : Operation} (hash : Function.Injective o.contentHash)
    (hop : op.writesValues = true) (files : Files) (db : Database) {path : String}
    (hschema : path ≠ schemaPath op.service) (hdocument : ∀ environment, path ≠ documentPath op.service environment) :
    (op.performFrom o actor files db).2.files.lookup path = db.files.lookup path := by
  rcases op.performFrom_cases actor hash files db with ⟨hsame, -⟩ | ⟨⟨session, plan, hcommitted⟩, -⟩
  · rw [hsame]
  · apply hcommitted.untouched
    rintro w hw rfl
    rcases (op.regular hcommitted.opened.service_eq hop hcommitted.planned).writes w hw with
      hpath | ⟨environment, -, hpath⟩
    · exact hschema hpath
    · exact hdocument environment hpath

/-- The calls that add keys to a product or delete keys of it. -/
def Call.ChangesKeys (c : Call) (service : String) : Prop :=
  (∃ r : AddKeysRequest, r.service = service ∧ c.operation = .addKeys r) ∨
    ∃ selected base, c.operation = .deleteKeys service selected base

theorem Call.ChangesKeys.writesValues {c : Call} {service : String} (h : c.ChangesKeys service) :
    c.operation.writesValues = true ∧ c.operation.service = service := by
  rcases h with ⟨r, rfl, heq⟩ | ⟨selected, base, heq⟩
  · rw [heq]
    exact ⟨rfl, rfl⟩
  · rw [heq]
    exact ⟨rfl, rfl⟩

/-- A call that was answered with ok was carried out. -/
theorem Call.committed_of_ok {c : Call} {files : Files} {db : Database} {result : ProductWriteResult}
    (hash : Function.Injective o.contentHash) (h : (c.performFrom o files db).1 = .ok result) :
    ∃ session plan, Committed c.operation (c.options o) c.actor files db (c.performFrom o files db).2 session
      plan := by
  have hcases : (c.performFrom o files db).2 = db ∧ (∀ result, (c.performFrom o files db).1 ≠ .ok result) ∨
      (∃ session plan, Committed c.operation (c.options o) c.actor files db (c.performFrom o files db).2 session
        plan) ∧ _ := c.operation.performFrom_cases (o := c.options o) c.actor hash files db
  rcases hcases with ⟨-, hrefused⟩ | ⟨hcommitted, -⟩
  · exact (hrefused result h).elim
  · exact hcommitted

def createBare : Call :=
  plainCall (.createProduct {
    service := "a"
    uid := .fin 1
    environments := ["dev"]
    schema := jsonRuntime.stringifyYaml (.obj [("version", .num (.fin 1))])
    defaults := [] })

/-- The registry with a product that declares no keys. -/
def bareRegistry : Database where
  files := ((((∅ : Files).insert "environments.yaml" environmentsText).insert "schema/a.yaml"
      (jsonRuntime.stringifyYaml (.obj [("version", .num (.fin 1))]))).insert "config/a/dev.yaml"
      (jsonRuntime.stringifyYaml (.obj [("version", .num (.fin 1))]))).insert
    "services.yaml" (jsonRuntime.stringifyYaml (.obj [("version", .num (.fin 1)), ("services", .arr [
      .obj [("name", .str "a"), ("uid", .num (.fin 1)), ("namespaces", .arr [.str "a/dev"])]])]))
  revision := 1

theorem createBare_eq : (createBare.perform plainOptions emptyRegistry).2 = bareRegistry := by
  have h : ((createBare.perform plainOptions emptyRegistry).2.files.entries,
      (createBare.perform plainOptions emptyRegistry).2.revision,
      (createBare.perform plainOptions emptyRegistry).2.folders) =
      (bareRegistry.files.entries, bareRegistry.revision, bareRegistry.folders) := by decide +kernel
  obtain ⟨hfiles, hrest⟩ := Prod.mk.inj h
  exact Database.ext_entries hfiles (Prod.mk.inj hrest).1 (Prod.mk.inj hrest).2

theorem sealing_plainCall (operation : Operation) : (plainCall operation).Sealing plainOptions := by
  intro ns text source h
  cases h
  rfl

theorem valid_bareRegistry : Valid plainOptions bareRegistry.files := by
  rw [← createBare_eq]
  exact createBare.valid Function.injective_id parse_stringify (sealing_plainCall _) valid_emptyRegistry

/-- The form for one key, with a default. -/
def onDraft : KeyDraft where
  name := "ON"
  type := "bool"
  secret := false
  values := []
  description := ""
  default := some (.bool true)

def addOn : Call := plainCall (.addKeys { service := "a", environment := "dev", keys := [onDraft] })

def deleteOn : Call := plainCall (.deleteKeys "a" ["ON"] none)

end ConfigRegistry.Products
