import ConfigRegistry.Js.Codec
import ConfigRegistry.Schema.Drafted
import ConfigRegistry.Schema.SchemaWrites

/-!
# One document for the schemas of all products

`composeGlobalSchema` of `src/cli/migrate-schema.ts`, and what `SchemaSet.fromDocument` of
`src/schema/validator.ts` reads in a document compared with what `SchemaSet.fromFiles` reads in a file for each
product.
-/

namespace ConfigRegistry.Schema

open Js

section

variable (rt : Runtime)

/-- `const { version, ...definition } = parsed`; the rest of a value that is no mapping is refused after it. -/
def withoutVersion : Value → Except Error Record
  | .null => .error (.of "TypeError")
  | .obj fields => .ok (Record.delete fields "version")
  | _ => .ok []

/-- The entry of each file. -/
def composedServices : List (String × String) → Except Error Record
  | [] => .ok []
  | (service, source) :: files => do
    let parsed ← rt.parseYaml source
    let definition ← withoutVersion parsed
    let _ ← SchemaSet.fromFiles rt [(service, source)]
    let services ← composedServices files
    pure (if service = "__proto__" then services else (service, .obj definition) :: services)

/-- The document of some services. -/
def globalDocument (services : Record) : Value := .obj [("version", .num (.fin 1)), ("services", .obj services)]

/-- `composeGlobalSchema`. -/
def composeGlobalSchema (files : List (String × String)) : Except Error String := do
  let services ← composedServices rt files
  let _ ← SchemaSet.fromDocument rt (rt.stringifyYaml (globalDocument services))
  pure (rt.stringifyYaml (globalDocument services))

end

variable {rt : Runtime} {service : String}

/-! ### One entry -/

/-- The keys of a mapping do not depend on what else it holds. -/
theorem parseSchema_congr {v w : Value} (hv : v.isMapping = true) (hw : w.isMapping = true)
    (h : v.field "keys" = w.field "keys") : parseSchema rt service v = parseSchema rt service w := by
  unfold parseSchema
  rw [hv, hw, h]

theorem keysDocument_eq (fields : Record) :
    keysDocument fields = .obj ([("version", .num (.fin 1))] ++ optionally "keys" (fields.lookup "keys")) := by
  unfold keysDocument
  cases List.lookup "keys" fields <;> rfl

theorem parseSchema_keysDocument (fields : Record) :
    parseSchema rt service (keysDocument fields) = parseSchema rt service (.obj fields) := by
  rw [keysDocument_eq]
  apply parseSchema_congr rfl rfl
  show List.lookup "keys" ([("version", Value.num (.fin 1))] ++ optionally "keys" (fields.lookup "keys")) = _
  rw [List.lookup_append, lookup_optionally_self]
  rfl

theorem ofSource_keysDocument (yaml : ∀ v, rt.parseYaml (rt.stringifyYaml v) = .ok v) {fields : Record}
    {schema : ProductSchema} :
    ProductSchema.ofSource rt service (rt.stringifyYaml (keysDocument fields)) = .ok schema ↔
      parseSchema rt service (.obj fields) = .ok schema.definitions ∧ schema.version = .fin 1 ∧
        schema.retiring = false := by
  have hversion : parseSchemaVersion rt service (keysDocument fields) = .ok (.fin 1) := by
    rw [keysDocument_eq]
    rfl
  have hretiring : parseRetiring rt service (keysDocument fields) = .ok false := by
    have hfield : (keysDocument fields).field "retiring" = none := by
      rw [keysDocument_eq]
      show List.lookup "retiring" ([("version", Value.num (.fin 1))] ++ optionally "keys" (fields.lookup "keys")) = _
      rw [List.lookup_append, lookup_optionally (by decide)]
      rfl
    unfold parseRetiring
    rw [hfield]
  rw [ofSource_eq_ok]
  constructor
  · rintro ⟨parsed, hparsed, hd, hv, hr⟩
    rw [yaml] at hparsed
    obtain rfl := Except.ok.inj hparsed
    rw [parseSchema_keysDocument] at hd
    rw [hversion] at hv
    rw [hretiring] at hr
    exact ⟨hd, (Except.ok.inj hv).symm, (Except.ok.inj hr).symm⟩
  · rintro ⟨hd, hv, hr⟩
    refine ⟨_, yaml _, ?_, ?_, ?_⟩
    · rw [parseSchema_keysDocument, hd]
    · rw [hversion, hv]
    · rw [hretiring, hr]

/-! ### All entries -/

theorem lookup_iff_mem {α : Type} {entries : List (String × α)} (hn : (entries.map Prod.fst).Nodup) {key : String}
    {a : α} : entries.lookup key = some a ↔ (key, a) ∈ entries := by
  constructor
  · exact mem_of_lookup
  · intro h
    induction entries with
    | nil => cases h
    | cons f entries ih =>
      obtain ⟨k, b⟩ := f
      rw [List.map_cons, List.nodup_cons] at hn
      rcases List.mem_cons.1 h with heq | hmem
      · obtain ⟨rfl, rfl⟩ := Prod.mk.inj heq
        exact List.lookup_cons_self
      · have hne : key ≠ k := by
          rintro rfl
          exact hn.1 (List.mem_map.2 ⟨(key, a), hmem, rfl⟩)
        rw [List.lookup_cons, beq_false_of_ne hne]
        exact ih hn.2 hmem

theorem names_fromFiles {files : List (String × String)} {set : SchemaSet}
    (h : SchemaSet.fromFiles rt files = .ok set) : set.services.map Prod.fst = files.map Prod.fst := by
  induction files generalizing set with
  | nil =>
    cases h
    rfl
  | cons f files ih =>
    obtain ⟨name, source⟩ := f
    obtain ⟨schema, others, -, ho, rfl⟩ := fromFiles_cons.1 h
    rw [List.map_cons, List.map_cons, ih ho]

/-- The schema of a product is what its file says. -/
theorem lookup_fromFiles {files : List (String × String)} {set : SchemaSet}
    (h : SchemaSet.fromFiles rt files = .ok set) (hn : (files.map Prod.fst).Nodup) {schema : ProductSchema} :
    set.services.lookup service = some schema ↔
      ∃ source, (service, source) ∈ files ∧ ProductSchema.ofSource rt service source = .ok schema := by
  rw [lookup_iff_mem (by rwa [names_fromFiles h]), mem_fromFiles h]

/-- The file of an entry, where the record of files can hold it. -/
def fileOf (rt : Runtime) (f : String × Value) : Option (String × String) :=
  if f.1 = "__proto__" then none else some (f.1, rt.stringifyYaml (keysDocument (Value.record (some f.2))))

theorem record_of_mapping {entry : Value} (h : entry.isMapping = true) :
    entry = .obj (Value.record (some entry)) := by
  cases entry with
  | obj fields => rfl
  | _ => cases h

theorem mapping_of_parseSchema {parsed : Value} {definitions : List (String × KeyDefinition)}
    (h : parseSchema rt service parsed = .ok definitions) : ∃ fields, parsed = .obj fields := by
  refine ⟨_, record_of_mapping ?_⟩
  by_contra hnot
  unfold parseSchema at h
  rw [if_pos (by simpa using hnot)] at h
  cases h

theorem serviceFiles_eq_ok {services : Record} {files : List (String × String)} :
    serviceFiles rt services = .ok files ↔
      (∀ f ∈ services, f.2.isMapping = true) ∧ files = services.filterMap (fileOf rt) := by
  induction services generalizing files with
  | nil =>
    constructor
    · intro h
      cases h
      exact ⟨by simp, rfl⟩
    · rintro ⟨-, rfl⟩
      rfl
  | cons f services ih =>
    obtain ⟨name, value⟩ := f
    rw [List.forall_mem_cons]
    cases hvalue : value.isMapping with
    | false =>
      refine iff_of_false ?_ (by simp)
      intro h
      cases value with
      | obj fields => cases hvalue
      | _ => cases h
    | true =>
      obtain ⟨fields, rfl⟩ : ∃ fields, value = .obj fields := ⟨_, record_of_mapping hvalue⟩
      rw [serviceFiles, bind_eq_ok]
      constructor
      · rintro ⟨others, hothers, h⟩
        obtain ⟨hall, rfl⟩ := ih.1 hothers
        refine ⟨⟨rfl, hall⟩, ?_⟩
        obtain rfl := Except.ok.inj h
        rw [List.filterMap_cons, fileOf]
        by_cases hname : name = "__proto__" <;> simp [hname, Value.record]
      · rintro ⟨⟨-, hall⟩, rfl⟩
        refine ⟨_, ih.2 ⟨hall, rfl⟩, ?_⟩
        rw [List.filterMap_cons, fileOf]
        by_cases hname : name = "__proto__" <;> simp [hname, Value.record, pure, Except.pure]

theorem mem_files {services : Record} {name source : String} : (name, source) ∈ services.filterMap (fileOf rt) ↔
    ∃ value, (name, value) ∈ services ∧ name ≠ "__proto__" ∧
      source = rt.stringifyYaml (keysDocument (Value.record (some value))) := by
  rw [List.mem_filterMap]
  constructor
  · rintro ⟨⟨name', value⟩, hmem, h⟩
    unfold fileOf at h
    split at h
    · cases h
    · rename_i hne
      obtain ⟨rfl, rfl⟩ := Prod.mk.inj (Option.some.inj h)
      exact ⟨value, hmem, hne, rfl⟩
  · rintro ⟨value, hmem, hne, rfl⟩
    exact ⟨_, hmem, if_neg hne⟩

theorem nodup_files {services : Record} (hn : services.keys.Nodup) :
    ((services.filterMap (fileOf rt)).map Prod.fst).Nodup := by
  have hnames : (services.filterMap (fileOf rt)).map Prod.fst = services.keys.filter fun name => name != "__proto__" := by
    clear hn
    induction services with
    | nil => rfl
    | cons f services ih =>
      rw [List.filterMap_cons, fileOf]
      by_cases h : f.1 = "__proto__"
      · simpa [h, Record.keys] using ih
      · simpa [h, Record.keys] using ih
  rw [hnames]
  exact hn.filter _

/-! ### The document -/

/-- The keys of an entry are read, whatever its retirement mark. -/
def Legible (rt : Runtime) (service : String) (entry : Value) : Prop :=
  ∃ definitions, parseSchema rt service entry = .ok definitions

/-- The document declares version 1 and these services. -/
structure Declares (parsed : Value) (services : Record) : Prop where
  version : parsed.field "version" = some (.num (.fin 1))
  services : (parsed.field "services").bind entriesOf = some services

/-- `value.retiring === true`. -/
def isMarked (value : Value) : Bool :=
  match value.field "retiring" with
  | some (.bool b) => b
  | _ => false

theorem declaresRetiring_of_lookup {services : Record} {entry : Value} (h : services.lookup service = some entry) :
    declaresRetiring services service = isMarked entry := by
  unfold declaresRetiring
  rw [h, Option.bind_some]
  rfl

section

variable {source : String} {parsed : Value} {services : Record}

theorem fromDocument_eq_ok (hparsed : rt.parseYaml source = .ok parsed) (hservices : Declares parsed services)
    {set : SchemaSet} :
    SchemaSet.fromDocument rt source = .ok set ↔ (∀ f ∈ services, f.2.isMapping = true) ∧
      ∃ result, SchemaSet.fromFiles rt (services.filterMap (fileOf rt)) = .ok result ∧
        set = ⟨result.services.map fun s =>
          (s.1, { s.2 with version := .fin 1, retiring := declaresRetiring services s.1 })⟩ := by
  have hread : SchemaSet.fromDocument rt source = (do
      let files ← serviceFiles rt services
      let result ← SchemaSet.fromFiles rt files
      pure ⟨result.services.map fun s =>
        (s.1, { s.2 with version := .fin 1, retiring := declaresRetiring services s.1 })⟩) := by
    unfold SchemaSet.fromDocument
    rw [hparsed]
    dsimp only
    rw [hservices.version, hservices.services]
    rfl
  rw [hread, bind_eq_ok]
  constructor
  · rintro ⟨files, hfiles, h⟩
    obtain ⟨hall, rfl⟩ := serviceFiles_eq_ok.1 hfiles
    obtain ⟨result, hresult, h⟩ := bind_eq_ok.1 h
    exact ⟨hall, result, hresult, (Except.ok.inj h).symm⟩
  · rintro ⟨hall, result, hresult, rfl⟩
    exact ⟨_, serviceFiles_eq_ok.2 ⟨hall, rfl⟩, bind_eq_ok.2 ⟨result, hresult, rfl⟩⟩

theorem ofSource_file (yaml : ∀ v, rt.parseYaml (rt.stringifyYaml v) = .ok v) {entry : Value}
    (h : entry.isMapping = true) {schema : ProductSchema} :
    ProductSchema.ofSource rt service (rt.stringifyYaml (keysDocument (Value.record (some entry)))) = .ok schema ↔
      parseSchema rt service entry = .ok schema.definitions ∧ schema.version = .fin 1 ∧ schema.retiring = false := by
  rw [ofSource_keysDocument yaml, ← record_of_mapping h]

/-- A document is accepted where its entries are mappings with keys that can be read. -/
theorem fromDocument_ok_iff (yaml : ∀ v, rt.parseYaml (rt.stringifyYaml v) = .ok v)
    (hparsed : rt.parseYaml source = .ok parsed) (hservices : Declares parsed services) :
    (∃ set, SchemaSet.fromDocument rt source = .ok set) ↔
      ∀ f ∈ services, f.2.isMapping = true ∧ (f.1 ≠ "__proto__" → Legible rt f.1 f.2) := by
  simp only [fromDocument_eq_ok hparsed hservices]
  constructor
  · rintro ⟨set, hall, result, hresult, -⟩ f hf
    refine ⟨hall f hf, ?_⟩
    intro hne
    obtain ⟨schema, hschema⟩ := fromFiles_ok_iff.1 ⟨result, hresult⟩ f.1 _ (mem_files.2 ⟨f.2, hf, hne, rfl⟩)
    exact ⟨_, ((ofSource_file yaml (hall f hf)).1 hschema).1⟩
  · intro h
    have hfiles : ∃ result, SchemaSet.fromFiles rt (services.filterMap (fileOf rt)) = .ok result := by
      rw [fromFiles_ok_iff]
      intro name text hmem
      obtain ⟨value, hvalue, hne, rfl⟩ := mem_files.1 hmem
      obtain ⟨hmapping, hlegible⟩ := h _ hvalue
      obtain ⟨definitions, hd⟩ := hlegible hne
      exact ⟨⟨definitions, .fin 1, false⟩, (ofSource_file yaml hmapping).2 ⟨hd, rfl, rfl⟩⟩
    obtain ⟨result, hresult⟩ := hfiles
    exact ⟨_, fun f hf => (h f hf).1, result, hresult, rfl⟩

theorem lookup_map_value {α β : Type} (entries : List (String × α)) (g : String × α → β) (key : String) :
    (entries.map fun f => (f.1, g f)).lookup key = (entries.lookup key).map fun a => g (key, a) := by
  induction entries with
  | nil => rfl
  | cons f entries ih =>
    obtain ⟨k, a⟩ := f
    rw [List.map_cons, List.lookup_cons, List.lookup_cons, ih]
    by_cases h : key = k
    · subst h
      simp
    · rw [beq_false_of_ne h]

/-- What a document says of a product. -/
theorem lookup_fromDocument (yaml : ∀ v, rt.parseYaml (rt.stringifyYaml v) = .ok v)
    (hparsed : rt.parseYaml source = .ok parsed) (hservices : Declares parsed services)
    (hn : services.keys.Nodup) {set : SchemaSet} (h : SchemaSet.fromDocument rt source = .ok set)
    {schema : ProductSchema} : set.services.lookup service = some schema ↔
      ∃ entry, (service, entry) ∈ services ∧ service ≠ "__proto__" ∧
        parseSchema rt service entry = .ok schema.definitions ∧ schema.version = .fin 1 ∧
        schema.retiring = isMarked entry := by
  obtain ⟨hall, result, hresult, rfl⟩ := (fromDocument_eq_ok hparsed hservices).1 h
  dsimp only
  rw [lookup_map_value result.services fun s =>
    (⟨s.2.definitions, .fin 1, declaresRetiring services s.1⟩ : ProductSchema), Option.map_eq_some_iff]
  constructor
  · rintro ⟨read, hread, rfl⟩
    obtain ⟨text, htext, hok⟩ := (lookup_fromFiles hresult (nodup_files hn)).1 hread
    obtain ⟨entry, hentry, hne, rfl⟩ := mem_files.1 htext
    have hd := ((ofSource_file yaml (hall _ hentry)).1 hok).1
    have hlookup : services.lookup service = some entry := (lookup_iff_mem hn).2 hentry
    exact ⟨entry, hentry, hne, hd, rfl, declaresRetiring_of_lookup hlookup⟩
  · rintro ⟨entry, hentry, hne, hd, hv, hr⟩
    have hok : ProductSchema.ofSource rt service (rt.stringifyYaml (keysDocument (Value.record (some entry)))) =
        .ok ⟨schema.definitions, .fin 1, false⟩ := (ofSource_file yaml (hall _ hentry)).2 ⟨hd, rfl, rfl⟩
    have hlookup : services.lookup service = some entry := (lookup_iff_mem hn).2 hentry
    refine ⟨_, (lookup_fromFiles hresult (nodup_files hn)).2 ⟨_, mem_files.2 ⟨entry, hentry, hne, rfl⟩, hok⟩, ?_⟩
    obtain ⟨definitions, version, retiring⟩ := schema
    obtain rfl : version = _ := hv
    obtain rfl : retiring = _ := hr
    rw [declaresRetiring_of_lookup hlookup]

end

/-! ### The document and a file for each entry -/

/-- The file of version 1 and an entry; an entry that is no mapping is such a file itself. -/
def entryDocument (entry : Value) : Value :=
  if entry.isMapping then
    .obj ([("version", .num (.fin 1))] ++ optionally "keys" (entry.field "keys") ++
      optionally "retiring" (entry.field "retiring"))
  else entry

/-- The retirement mark is true or false, or absent. -/
def MarkedPlainly (entry : Value) : Prop :=
  entry.field "retiring" = none ∨ ∃ b, entry.field "retiring" = some (.bool b)

theorem parseRetiring_iff {entry : Value} {b : Bool} :
    parseRetiring rt service entry = .ok b ↔ MarkedPlainly entry ∧ b = isMarked entry := by
  unfold parseRetiring MarkedPlainly isMarked
  cases entry.field "retiring" with
  | none => simp [eq_comm]
  | some v => cases v <;> simp [eq_comm]

theorem field_entryDocument {entry : Value} (h : entry.isMapping = true) :
    (entryDocument entry).field "keys" = entry.field "keys" ∧
      (entryDocument entry).field "retiring" = entry.field "retiring" := by
  obtain ⟨fields, rfl⟩ : ∃ fields, entry = .obj fields := by
    cases entry with
    | obj fields => exact ⟨fields, rfl⟩
    | _ => cases h
  unfold entryDocument
  rw [if_pos h]
  constructor
  · show List.lookup "keys" ([("version", Value.num (.fin 1))] ++ optionally "keys" (fields.lookup "keys") ++
      optionally "retiring" (fields.lookup "retiring")) = _
    rw [List.lookup_append, List.lookup_append, lookup_optionally_self, lookup_optionally (by decide), Option.or_none]
    rfl
  · show List.lookup "retiring" ([("version", Value.num (.fin 1))] ++ optionally "keys" (fields.lookup "keys") ++
      optionally "retiring" (fields.lookup "retiring")) = _
    rw [List.lookup_append, List.lookup_append, lookup_optionally_self, lookup_optionally (by decide)]
    rfl

theorem ofSource_entryDocument (yaml : ∀ v, rt.parseYaml (rt.stringifyYaml v) = .ok v) {entry : Value}
    {schema : ProductSchema} :
    ProductSchema.ofSource rt service (rt.stringifyYaml (entryDocument entry)) = .ok schema ↔
      entry.isMapping = true ∧ parseSchema rt service entry = .ok schema.definitions ∧ schema.version = .fin 1 ∧
        MarkedPlainly entry ∧ schema.retiring = isMarked entry := by
  rw [ofSource_eq_ok]
  cases hmapping : entry.isMapping with
  | false =>
    refine iff_of_false ?_ (by simp)
    rintro ⟨parsed, hparsed, hd, -⟩
    rw [yaml] at hparsed
    obtain rfl := Except.ok.inj hparsed
    have hsame : entryDocument entry = entry := if_neg (by simp [hmapping])
    rw [hsame] at hd
    unfold parseSchema at hd
    rw [hmapping] at hd
    cases hd
  | true =>
    obtain ⟨hkeys, hretiring⟩ := field_entryDocument hmapping
    have hmap : (entryDocument entry).isMapping = true := by
      unfold entryDocument
      rw [if_pos hmapping]
      rfl
    have hschema : parseSchema rt service (entryDocument entry) = parseSchema rt service entry :=
      parseSchema_congr hmap hmapping hkeys
    have hversion : parseSchemaVersion rt service (entryDocument entry) = .ok (.fin 1) := by
      unfold entryDocument
      rw [if_pos hmapping]
      rfl
    have hmark : parseRetiring rt service (entryDocument entry) = parseRetiring rt service entry := by
      unfold parseRetiring
      rw [hretiring]
    constructor
    · rintro ⟨parsed, hparsed, hd, hv, hr⟩
      rw [yaml] at hparsed
      obtain rfl := Except.ok.inj hparsed
      rw [hschema] at hd
      rw [hversion] at hv
      rw [hmark] at hr
      obtain ⟨hplain, hb⟩ := parseRetiring_iff.1 hr
      exact ⟨rfl, hd, (Except.ok.inj hv).symm, hplain, hb⟩
    · rintro ⟨-, hd, hv, hplain, hb⟩
      refine ⟨_, yaml _, ?_, ?_, ?_⟩
      · rw [hschema, hd]
      · rw [hversion, hv]
      · rw [hmark]
        exact parseRetiring_iff.2 ⟨hplain, hb⟩

/-- The document is accepted where the file of each entry is, and says the same of each product. -/
structure SameMeaning (rt : Runtime) (source : String) (services : Record) : Prop where
  accepted : (∃ set, SchemaSet.fromDocument rt source = .ok set) ↔
    ∀ f ∈ services, ∃ set, SchemaSet.fromFiles rt [(f.1, rt.stringifyYaml (entryDocument f.2))] = .ok set
  equal : ∀ set, SchemaSet.fromDocument rt source = .ok set → ∀ f ∈ services, ∀ own,
    SchemaSet.fromFiles rt [(f.1, rt.stringifyYaml (entryDocument f.2))] = .ok own →
    set.services.lookup f.1 = own.services.lookup f.1

theorem own_ok_iff (yaml : ∀ v, rt.parseYaml (rt.stringifyYaml v) = .ok v) {f : String × Value} :
    (∃ set, SchemaSet.fromFiles rt [(f.1, rt.stringifyYaml (entryDocument f.2))] = .ok set) ↔
      f.2.isMapping = true ∧ Legible rt f.1 f.2 ∧ MarkedPlainly f.2 := by
  rw [fromFiles_ok_iff]
  constructor
  · intro h
    obtain ⟨schema, hschema⟩ := h f.1 _ (List.mem_singleton_self _)
    obtain ⟨hmapping, hd, -, hplain, -⟩ := (ofSource_entryDocument yaml).1 hschema
    exact ⟨hmapping, ⟨_, hd⟩, hplain⟩
  · rintro ⟨hmapping, ⟨definitions, hd⟩, hplain⟩ name text hmem
    obtain ⟨rfl, rfl⟩ := Prod.mk.inj (List.mem_singleton.1 hmem)
    exact ⟨⟨definitions, .fin 1, isMarked f.2⟩, (ofSource_entryDocument yaml).2 ⟨hmapping, hd, rfl, hplain, rfl⟩⟩

/-- They mean the same where the document is refused for an entry, or all marks are plain. -/
theorem sameMeaning_iff (yaml : ∀ v, rt.parseYaml (rt.stringifyYaml v) = .ok v) {source : String} {parsed : Value}
    {services : Record} (hparsed : rt.parseYaml source = .ok parsed)
    (hservices : Declares parsed services) (hn : services.keys.Nodup) :
    SameMeaning rt source services ↔
      (∃ f ∈ services, f.2.isMapping = false ∨ f.1 ≠ "__proto__" ∧ ¬ Legible rt f.1 f.2) ∨
        ∀ f ∈ services, f.1 ≠ "__proto__" ∧ MarkedPlainly f.2 := by
  have haccepted := fromDocument_ok_iff yaml hparsed hservices
  by_cases hbad : ∃ f ∈ services, f.2.isMapping = false ∨ f.1 ≠ "__proto__" ∧ ¬ Legible rt f.1 f.2
  · refine iff_of_true ?_ (.inl hbad)
    obtain ⟨f, hf, hbad⟩ := hbad
    have hrefused : ¬ ∃ set, SchemaSet.fromDocument rt source = .ok set := by
      rw [haccepted]
      intro h
      obtain ⟨hmapping, hlegible⟩ := h f hf
      rcases hbad with hnot | ⟨hne, hnot⟩
      · rw [hmapping] at hnot
        cases hnot
      · exact hnot (hlegible hne)
    constructor
    · refine iff_of_false hrefused ?_
      intro h
      obtain ⟨hmapping, hlegible, -⟩ := (own_ok_iff yaml).1 (h f hf)
      rcases hbad with hnot | ⟨-, hnot⟩
      · rw [hmapping] at hnot
        cases hnot
      · exact hnot hlegible
    · intro set hset
      exact (hrefused ⟨set, hset⟩).elim
  · have hgood : ∀ f ∈ services, f.2.isMapping = true ∧ (f.1 ≠ "__proto__" → Legible rt f.1 f.2) := by
      intro f hf
      constructor
      · by_contra hnot
        exact hbad ⟨f, hf, .inl (by simpa using hnot)⟩
      · intro hne
        by_contra hnot
        exact hbad ⟨f, hf, .inr ⟨hne, hnot⟩⟩
    obtain ⟨set, hset⟩ := haccepted.2 hgood
    rw [or_iff_right hbad]
    constructor
    · intro h f hf
      have hown := h.accepted.1 ⟨set, hset⟩ f hf
      obtain ⟨-, -, hplain⟩ := (own_ok_iff yaml).1 hown
      refine ⟨?_, hplain⟩
      intro hproto
      obtain ⟨own, hown⟩ := hown
      obtain ⟨schema, -, hlookup⟩ := fromFiles_one hown
      have hequal := h.equal set hset f hf own hown
      rw [hlookup] at hequal
      obtain ⟨-, -, hne, -⟩ := (lookup_fromDocument yaml hparsed hservices hn hset).1 hequal
      exact hne hproto
    · intro hall
      constructor
      · refine iff_of_true ⟨set, hset⟩ ?_
        intro f hf
        obtain ⟨hmapping, hlegible⟩ := hgood f hf
        exact (own_ok_iff yaml).2 ⟨hmapping, hlegible (hall f hf).1, (hall f hf).2⟩
      · intro set hset f hf own hown
        obtain ⟨schema, hok, hlookup⟩ := fromFiles_one hown
        obtain ⟨-, hd, hv, -, hb⟩ := (ofSource_entryDocument yaml).1 hok
        rw [hlookup]
        exact (lookup_fromDocument yaml hparsed hservices hn hset).2 ⟨f.2, hf, (hall f hf).1, hd, hv, hb⟩

/-! ### The composed document -/

/-- What the composer keeps of a file. -/
theorem composedServices_ok {files : List (String × String)} {set : SchemaSet}
    (h : SchemaSet.fromFiles rt files = .ok set) : ∃ services, composedServices rt files = .ok services ∧
      services.keys = (files.map Prod.fst).filter (fun name => name != "__proto__") ∧
      ∀ name entry, (name, entry) ∈ services ↔ ∃ source fields, (name, source) ∈ files ∧ name ≠ "__proto__" ∧
        rt.parseYaml source = .ok (.obj fields) ∧ entry = .obj (Record.delete fields "version") := by
  induction files generalizing set with
  | nil => exact ⟨[], rfl, rfl, by simp⟩
  | cons f files ih =>
    obtain ⟨name, source⟩ := f
    obtain ⟨schema, others, hschema, hothers, -⟩ := fromFiles_cons.1 h
    obtain ⟨services, hservices, hkeys, hmem⟩ := ih hothers
    obtain ⟨parsed, hparsed, hd, -⟩ := ofSource_eq_ok.1 hschema
    obtain ⟨fields, rfl⟩ := mapping_of_parseSchema hd
    have hown : SchemaSet.fromFiles rt [(name, source)] = .ok ⟨[(name, schema)]⟩ :=
      fromFiles_cons.2 ⟨schema, ⟨[]⟩, hschema, rfl, rfl⟩
    have hfirst : ∀ text fields', (name, text) = (name, source) → rt.parseYaml text = .ok (.obj fields') →
        fields' = fields := by
      rintro text fields' heq htext
      obtain ⟨-, rfl⟩ := Prod.mk.inj heq
      rw [hparsed] at htext
      exact (Value.obj.inj (Except.ok.inj htext)).symm
    have hcompose : composedServices rt ((name, source) :: files) = .ok
        (if name = "__proto__" then services else (name, .obj (Record.delete fields "version")) :: services) := by
      rw [composedServices, hparsed]
      show (do
        let _ ← SchemaSet.fromFiles rt [(name, source)]
        let services ← composedServices rt files
        pure (if name = "__proto__" then services else (name, .obj (Record.delete fields "version")) :: services)) = _
      rw [hown, hservices]
      rfl
    refine ⟨_, hcompose, ?_, ?_⟩
    · by_cases hname : name = "__proto__"
      · simp [hname, hkeys]
      · rw [if_neg hname]
        simp [hname, ← hkeys, Record.keys]
    · intro name' entry
      by_cases hname : name = "__proto__"
      · rw [if_pos hname, hmem]
        constructor
        · rintro ⟨text, fields', htext, hrest⟩
          exact ⟨text, fields', List.mem_cons_of_mem _ htext, hrest⟩
        · rintro ⟨text, fields', htext, hne, hrest⟩
          rcases List.mem_cons.1 htext with heq | htext
          · obtain ⟨rfl, -⟩ := Prod.mk.inj heq
            exact (hne hname).elim
          · exact ⟨text, fields', htext, hne, hrest⟩
      · rw [if_neg hname, List.mem_cons, hmem]
        constructor
        · rintro (heq | ⟨text, fields', htext, hrest⟩)
          · obtain ⟨rfl, rfl⟩ := Prod.mk.inj heq
            exact ⟨source, fields, List.mem_cons_self, hname, hparsed, rfl⟩
          · exact ⟨text, fields', List.mem_cons_of_mem _ htext, hrest⟩
        · rintro ⟨text, fields', htext, hne, hok, rfl⟩
          rcases List.mem_cons.1 htext with heq | htext
          · obtain ⟨rfl, rfl⟩ := Prod.mk.inj heq
            obtain rfl := hfirst _ _ rfl hok
            exact .inl rfl
          · exact .inr ⟨text, fields', htext, hne, hok, rfl⟩

theorem declares_globalDocument (services : Record) : Declares (globalDocument services) services := ⟨rfl, rfl⟩

theorem field_delete {fields : Record} {key name : String} (h : key ≠ name) :
    (Value.obj (Record.delete fields name)).field key = (Value.obj fields).field key := by
  show (Record.delete fields name).lookup key = fields.lookup key
  rw [Record.lookup_delete, if_neg h]

/-- A schema is declared in version 1 only. -/
theorem version_of_ok {parsed : Value} {n : Number} (h : parseSchemaVersion rt service parsed = .ok n) :
    n = .fin 1 := by
  unfold parseSchemaVersion at h
  split at h
  · cases h
  · split at h
    · cases h
    · split at h
      · rename_i hknown
        obtain rfl := Except.ok.inj h
        simpa [knownVersions] using hknown
      · cases h
  · cases h

/-- Files that are accepted compose to a document that says the same of each product but `__proto__`. -/
theorem composed_says {files : List (String × String)} {set : SchemaSet}
    (yaml : ∀ v, rt.parseYaml (rt.stringifyYaml v) = .ok v) (hn : (files.map Prod.fst).Nodup)
    (h : SchemaSet.fromFiles rt files = .ok set) : ∃ text document, composeGlobalSchema rt files = .ok text ∧
      SchemaSet.fromDocument rt text = .ok document ∧ ∀ service, document.services.lookup service =
        if service = "__proto__" then none else set.services.lookup service := by
  obtain ⟨services, hservices, hkeys, hmem⟩ := composedServices_ok h
  have hnodup : services.keys.Nodup := by
    rw [hkeys]
    exact hn.filter _
  have hparsed := yaml (globalDocument services)
  have hdeclares := declares_globalDocument services
  have hread : ∀ f ∈ services, f.2.isMapping = true ∧ (f.1 ≠ "__proto__" → Legible rt f.1 f.2) := by
    rintro ⟨name, entry⟩ hf
    obtain ⟨source, fields, hsource, hne, hparsed, rfl⟩ := (hmem name entry).1 hf
    refine ⟨rfl, ?_⟩
    intro _
    obtain ⟨schema, hschema⟩ := fromFiles_ok_iff.1 ⟨set, h⟩ name source hsource
    obtain ⟨parsed, hp, hd, -⟩ := ofSource_eq_ok.1 hschema
    rw [hparsed] at hp
    obtain rfl := Except.ok.inj hp
    refine ⟨schema.definitions, ?_⟩
    rw [← hd]
    exact parseSchema_congr rfl rfl (field_delete (by decide))
  obtain ⟨document, hdocument⟩ := (fromDocument_ok_iff yaml hparsed hdeclares).2 hread
  refine ⟨_, document, ?_, hdocument, ?_⟩
  · unfold composeGlobalSchema
    rw [hservices]
    show (do
      let _ ← SchemaSet.fromDocument rt (rt.stringifyYaml (globalDocument services))
      pure (rt.stringifyYaml (globalDocument services))) = _
    rw [hdocument]
    rfl
  · intro service
    have hmeans : ∀ schema, document.services.lookup service = some schema ↔
        service ≠ "__proto__" ∧ set.services.lookup service = some schema := by
      intro schema
      rw [lookup_fromDocument yaml hparsed hdeclares hnodup hdocument, lookup_fromFiles h hn]
      constructor
      · rintro ⟨entry, hentry, hne, hd, hv, hr⟩
        obtain ⟨source, fields, hsource, -, hp, rfl⟩ := (hmem service entry).1 hentry
        obtain ⟨own, hown⟩ := fromFiles_ok_iff.1 ⟨set, h⟩ service source hsource
        refine ⟨hne, source, hsource, ?_⟩
        obtain ⟨parsed, hp', hd', hv', hr'⟩ := ofSource_eq_ok.1 hown
        rw [hp] at hp'
        obtain rfl := Except.ok.inj hp'
        have hversion := version_of_ok hv'
        obtain ⟨hplain, hmark⟩ := parseRetiring_iff.1 hr'
        refine ofSource_eq_ok.2 ⟨_, hp, ?_, ?_, ?_⟩
        · rw [← hd]
          exact (parseSchema_congr rfl rfl (field_delete (by decide))).symm
        · rw [hv', hversion, hv]
        · rw [hr', hmark, hr]
          unfold isMarked
          rw [field_delete (by decide)]
      · rintro ⟨hne, source, hsource, hown⟩
        obtain ⟨parsed, hp, hd, hv, hr⟩ := ofSource_eq_ok.1 hown
        obtain ⟨fields, rfl⟩ := mapping_of_parseSchema hd
        refine ⟨_, (hmem service _).2 ⟨source, fields, hsource, hne, hp, rfl⟩, hne, ?_, version_of_ok hv, ?_⟩
        · rw [← hd]
          exact parseSchema_congr rfl rfl (field_delete (by decide))
        · obtain ⟨-, hmark⟩ := parseRetiring_iff.1 hr
          rw [hmark]
          unfold isMarked
          rw [field_delete (by decide)]
    apply Option.ext
    intro schema
    rw [hmeans]
    by_cases hproto : service = "__proto__" <;> simp [hproto]

/-- The files compose to a document that has the same definitions and the same retiring products. -/
def SameComposed (rt : Runtime) (files : List (String × String)) (set : SchemaSet) : Prop :=
  ∃ text document, composeGlobalSchema rt files = .ok text ∧ SchemaSet.fromDocument rt text = .ok document ∧
    ∀ service, document.services.lookup service = set.services.lookup service

theorem sameComposed_iff {files : List (String × String)} {set : SchemaSet}
    (yaml : ∀ v, rt.parseYaml (rt.stringifyYaml v) = .ok v) (hn : (files.map Prod.fst).Nodup)
    (h : SchemaSet.fromFiles rt files = .ok set) :
    SameComposed rt files set ↔ "__proto__" ∉ files.map Prod.fst := by
  obtain ⟨text, document, htext, hdocument, hmeans⟩ := composed_says yaml hn h
  have hlookup : set.services.lookup "__proto__" = none ↔ "__proto__" ∉ files.map Prod.fst := by
    rw [← names_fromFiles h, List.lookup_eq_none_iff]
    constructor
    · intro hnone hmem
      obtain ⟨f, hf, hname⟩ := List.mem_map.1 hmem
      simpa [hname] using hnone f hf
    · intro hnone f hf
      have hne : f.1 ≠ "__proto__" := by
        intro hname
        exact hnone (List.mem_map.2 ⟨f, hf, hname⟩)
      simpa using hne.symm
  rw [← hlookup]
  constructor
  · rintro ⟨text', document', htext', hdocument', hequal⟩
    rw [htext] at htext'
    obtain rfl := Except.ok.inj htext'
    rw [hdocument] at hdocument'
    obtain rfl := Except.ok.inj hdocument'
    rw [← hequal, hmeans, if_pos rfl]
  · intro hproto
    refine ⟨text, document, htext, hdocument, ?_⟩
    intro service
    rw [hmeans]
    split
    · subst service
      exact hproto.symm
    · rfl

/-- Files that are accepted mean the same as the document they compose to unless one is of the product `__proto__`.
A document means the same as the files of its entries where it is refused for an entry that is no mapping or whose
keys cannot be read, or all retirement marks are plain and no entry is of the product `__proto__`. -/
theorem document_and_files_agree_iff {rt : Runtime} (yaml : ∀ v, rt.parseYaml (rt.stringifyYaml v) = .ok v) :
    (∀ files set, (files.map Prod.fst).Nodup → SchemaSet.fromFiles rt files = .ok set →
      (SameComposed rt files set ↔ "__proto__" ∉ files.map Prod.fst)) ∧
    ∀ source parsed services, rt.parseYaml source = .ok parsed → Declares parsed services → services.keys.Nodup →
      (SameMeaning rt source services ↔
        (∃ f ∈ services, f.2.isMapping = false ∨ f.1 ≠ "__proto__" ∧ ¬ Legible rt f.1 f.2) ∨
          ∀ f ∈ services, f.1 ≠ "__proto__" ∧ MarkedPlainly f.2) := by
  constructor
  · intro files set hn h
    exact sameComposed_iff yaml hn h
  · intro source parsed services hparsed hservices hn
    exact sameMeaning_iff yaml hparsed hservices hn

/-- A product whose retirement mark is a text. -/
def unsureServices : Record := [("web", .obj [("retiring", .str "yes")])]

/-- The document reads the mark as false, and the file of the entry is refused. -/
theorem unsure_mark_is_guessed : ¬ ∀ (rt : Runtime) (source : String) (parsed : Value) (services : Record),
    (∀ v, rt.parseYaml (rt.stringifyYaml v) = .ok v) → rt.parseYaml source = .ok parsed → Declares parsed services →
    services.keys.Nodup → SameMeaning rt source services := by
  intro h
  have hsame := h jsonRuntime _ _ unsureServices parse_stringify (parse_stringify (globalDocument unsureServices))
    (declares_globalDocument _) (by simp [unsureServices, Record.keys])
  rw [sameMeaning_iff parse_stringify (parse_stringify (globalDocument unsureServices)) (declares_globalDocument _)
    (by simp [unsureServices, Record.keys])] at hsame
  rcases hsame with ⟨f, hf, hbad⟩ | hplain
  · obtain rfl := List.mem_singleton.1 hf
    rcases hbad with hbad | ⟨-, hbad⟩
    · cases hbad
    · exact hbad ⟨[], rfl⟩
  · obtain ⟨-, hplain⟩ := hplain _ (List.mem_singleton_self _)
    rcases hplain with hnone | ⟨b, hb⟩
    · cases hnone
    · cases hb

theorem document_and_files_agree_in_json :
    (∀ files set, (files.map Prod.fst).Nodup → SchemaSet.fromFiles jsonRuntime files = .ok set →
      (SameComposed jsonRuntime files set ↔ "__proto__" ∉ files.map Prod.fst)) ∧
    ∀ source parsed services, jsonRuntime.parseYaml source = .ok parsed → Declares parsed services →
      services.keys.Nodup → (SameMeaning jsonRuntime source services ↔
        (∃ f ∈ services, f.2.isMapping = false ∨ f.1 ≠ "__proto__" ∧ ¬ Legible jsonRuntime f.1 f.2) ∨
          ∀ f ∈ services, f.1 ≠ "__proto__" ∧ MarkedPlainly f.2) :=
  document_and_files_agree_iff parse_stringify

end ConfigRegistry.Schema
