import ConfigRegistry.Js.Record
import ConfigRegistry.Schema.Validator

/-!
# What a set of schemas says

The facts about `SchemaSet` that its users need: which schema a product has in a set, and what it
takes for a document to fit it.
-/

namespace ConfigRegistry.Schema

open Js

variable {rt : Runtime} {service : String}

theorem bind_eq_ok {ε α β : Type} {x : Except ε α} {f : α → Except ε β} {b : β} :
    x >>= f = .ok b ↔ ∃ a, x = .ok a ∧ f a = .ok b := by
  cases x with
  | error e => exact ⟨nofun, fun ⟨_, h, _⟩ => (nomatch h)⟩
  | ok a => exact ⟨fun h => ⟨a, rfl, h⟩, fun ⟨_, h, hf⟩ => by cases h; exact hf⟩

/-! ### One file -/

theorem parseKeys_cons {key : String} {raw : Value} {rest : Record}
    {definitions : List (String × KeyDefinition)} :
    parseKeys rt service ((key, raw) :: rest) = .ok definitions ↔
      ∃ d ds, parseKey rt service key raw = .ok d ∧ parseKeys rt service rest = .ok ds ∧
        definitions = (key, d) :: ds := by
  rw [parseKeys]
  constructor
  · intro h
    obtain ⟨d, hd, h⟩ := bind_eq_ok.1 h
    obtain ⟨ds, hds, h⟩ := bind_eq_ok.1 h
    cases h
    exact ⟨d, ds, hd, hds, rfl⟩
  · rintro ⟨d, ds, hd, hds, rfl⟩
    exact bind_eq_ok.2 ⟨d, hd, bind_eq_ok.2 ⟨ds, hds, rfl⟩⟩

/-- Each key has the definition its mapping declares. -/
theorem lookup_parseKeys {fields : Record} {definitions : List (String × KeyDefinition)}
    (h : parseKeys rt service fields = .ok definitions) (key : String) :
    (∀ raw, fields.lookup key = some raw →
      ∃ d, parseKey rt service key raw = .ok d ∧ definitions.lookup key = some d) ∧
    (fields.lookup key = none → definitions.lookup key = none) := by
  induction fields generalizing definitions with
  | nil =>
    cases h
    exact ⟨nofun, fun _ => rfl⟩
  | cons f fields ih =>
    obtain ⟨k, v⟩ := f
    obtain ⟨d, ds, hd, hds, rfl⟩ := parseKeys_cons.1 h
    by_cases hk : key = k
    · subst hk
      rw [List.lookup_cons_self, List.lookup_cons_self]
      exact ⟨fun raw hraw => ⟨d, Option.some.inj hraw ▸ hd, rfl⟩, nofun⟩
    · rw [List.lookup_cons, beq_false_of_ne hk, List.lookup_cons, beq_false_of_ne hk]
      exact ih hds

/-- Every field is a key that can be read. -/
theorem parseKeys_ok_iff {fields : Record} :
    (∃ definitions, parseKeys rt service fields = .ok definitions) ↔
      ∀ key raw, (key, raw) ∈ fields → ∃ d, parseKey rt service key raw = .ok d := by
  induction fields with
  | nil => exact ⟨fun _ _ _ h => (nomatch h), fun _ => ⟨[], rfl⟩⟩
  | cons f fields ih =>
    obtain ⟨k, v⟩ := f
    constructor
    · rintro ⟨definitions, h⟩ key raw hmem
      obtain ⟨d, ds, hd, hds, -⟩ := parseKeys_cons.1 h
      rcases List.mem_cons.1 hmem with heq | hmem
      · obtain ⟨rfl, rfl⟩ := Prod.mk.inj heq
        exact ⟨d, hd⟩
      · exact ih.1 ⟨ds, hds⟩ key raw hmem
    · intro h
      obtain ⟨d, hd⟩ := h k v List.mem_cons_self
      obtain ⟨ds, hds⟩ := ih.2 fun key raw hmem => h key raw (List.mem_cons_of_mem _ hmem)
      exact ⟨_, parseKeys_cons.2 ⟨d, ds, hd, hds, rfl⟩⟩

/-- The keys of a schema file are absent or a mapping. -/
def HasKeys (parsed : Value) : Prop :=
  (∃ fields, parsed = .obj fields) ∧
    (parsed.field "keys" = none ∨ ∃ keys, parsed.field "keys" = some (.obj keys))

theorem parseSchema_eq_ok {parsed : Value} {definitions : List (String × KeyDefinition)} :
    parseSchema rt service parsed = .ok definitions ↔
      HasKeys parsed ∧ parseKeys rt service (Value.record (parsed.field "keys")) = .ok definitions := by
  rw [parseSchema]
  constructor
  · intro h
    split at h
    · cases h
    · rename_i hmapping
      have hobj : ∃ fields, parsed = .obj fields := by
        cases parsed with
        | obj fields => exact ⟨fields, rfl⟩
        | _ => exact (hmapping rfl).elim
      split at h
      · rename_i hkeys
        refine ⟨⟨hobj, .inl hkeys⟩, ?_⟩
        rw [hkeys]
        exact h
      · rename_i keys hkeys
        refine ⟨⟨hobj, .inr ⟨keys, hkeys⟩⟩, ?_⟩
        rw [hkeys]
        exact h
      · cases h
  · rintro ⟨⟨⟨fields, rfl⟩, hkeys⟩, h⟩
    dsimp only [Value.isMapping]
    rcases hkeys with hkeys | ⟨keys, hkeys⟩ <;> rw [hkeys] at h ⊢ <;> exact h

theorem ofSource_eq_ok {source : String} {schema : ProductSchema} :
    ProductSchema.ofSource rt service source = .ok schema ↔ ∃ parsed, rt.parseYaml source = .ok parsed ∧
      parseSchema rt service parsed = .ok schema.definitions ∧
      parseSchemaVersion rt service parsed = .ok schema.version ∧
      parseRetiring rt service parsed = .ok schema.retiring := by
  rw [ProductSchema.ofSource]
  constructor
  · intro h
    split at h
    · cases h
    · rename_i parsed hparsed
      obtain ⟨definitions, hd, h⟩ := bind_eq_ok.1 h
      obtain ⟨version, hv, h⟩ := bind_eq_ok.1 h
      obtain ⟨retiring, hr, h⟩ := bind_eq_ok.1 h
      cases h
      exact ⟨parsed, hparsed, hd, hv, hr⟩
  · rintro ⟨parsed, hparsed, hd, hv, hr⟩
    rw [hparsed]
    exact bind_eq_ok.2 ⟨_, hd, bind_eq_ok.2 ⟨_, hv, bind_eq_ok.2 ⟨_, hr, rfl⟩⟩⟩

/-! ### All files -/

theorem fromFiles_cons {name source : String} {rest : List (String × String)} {set : SchemaSet} :
    SchemaSet.fromFiles rt ((name, source) :: rest) = .ok set ↔
      ∃ schema others, ProductSchema.ofSource rt name source = .ok schema ∧
        SchemaSet.fromFiles rt rest = .ok others ∧ set = ⟨(name, schema) :: others.services⟩ := by
  rw [SchemaSet.fromFiles]
  constructor
  · intro h
    obtain ⟨schema, hs, h⟩ := bind_eq_ok.1 h
    obtain ⟨others, ho, h⟩ := bind_eq_ok.1 h
    cases h
    exact ⟨schema, others, hs, ho, rfl⟩
  · rintro ⟨schema, others, hs, ho, rfl⟩
    exact bind_eq_ok.2 ⟨schema, hs, bind_eq_ok.2 ⟨others, ho, rfl⟩⟩

/-- A set has the schemas of its files. -/
theorem mem_fromFiles {files : List (String × String)} {set : SchemaSet}
    (h : SchemaSet.fromFiles rt files = .ok set) (name : String) (schema : ProductSchema) :
    (name, schema) ∈ set.services ↔
      ∃ source, (name, source) ∈ files ∧ ProductSchema.ofSource rt name source = .ok schema := by
  induction files generalizing set with
  | nil =>
    cases h
    simp
  | cons f files ih =>
    obtain ⟨k, source⟩ := f
    obtain ⟨s, others, hs, ho, rfl⟩ := fromFiles_cons.1 h
    rw [List.mem_cons, ih ho]
    constructor
    · rintro (heq | ⟨source', hmem, hok⟩)
      · obtain ⟨rfl, rfl⟩ := Prod.mk.inj heq
        exact ⟨source, List.mem_cons_self, hs⟩
      · exact ⟨source', List.mem_cons_of_mem _ hmem, hok⟩
    · rintro ⟨source', hmem, hok⟩
      rcases List.mem_cons.1 hmem with heq | hmem
      · obtain ⟨rfl, rfl⟩ := Prod.mk.inj heq
        rw [hs] at hok
        cases hok
        exact .inl rfl
      · exact .inr ⟨source', hmem, hok⟩

theorem fromFiles_ok_iff {files : List (String × String)} :
    (∃ set, SchemaSet.fromFiles rt files = .ok set) ↔
      ∀ name source, (name, source) ∈ files → ∃ schema, ProductSchema.ofSource rt name source = .ok schema := by
  induction files with
  | nil => exact ⟨fun _ _ _ h => (nomatch h), fun _ => ⟨_, rfl⟩⟩
  | cons f files ih =>
    obtain ⟨k, source⟩ := f
    constructor
    · rintro ⟨set, h⟩ name source' hmem
      obtain ⟨s, others, hs, ho, rfl⟩ := fromFiles_cons.1 h
      rcases List.mem_cons.1 hmem with heq | hmem
      · obtain ⟨rfl, rfl⟩ := Prod.mk.inj heq
        exact ⟨s, hs⟩
      · exact ih.1 ⟨others, ho⟩ name source' hmem
    · intro h
      obtain ⟨s, hs⟩ := h k source List.mem_cons_self
      obtain ⟨others, ho⟩ := ih.2 fun name source' hmem => h name source' (List.mem_cons_of_mem _ hmem)
      exact ⟨_, fromFiles_cons.2 ⟨s, others, hs, ho, rfl⟩⟩

/-- One schema alone. -/
theorem fromFiles_one {source : String} {set : SchemaSet}
    (h : SchemaSet.fromFiles rt [(service, source)] = .ok set) :
    ∃ schema, ProductSchema.ofSource rt service source = .ok schema ∧
      set.services.lookup service = some schema := by
  obtain ⟨schema, others, hs, ho, rfl⟩ := fromFiles_cons.1 h
  exact ⟨schema, hs, List.lookup_cons_self⟩

theorem mem_of_lookup {α : Type} {entries : List (String × α)} {key : String} {a : α}
    (h : entries.lookup key = some a) : (key, a) ∈ entries := by
  induction entries with
  | nil => cases h
  | cons f entries ih =>
    obtain ⟨k, b⟩ := f
    rw [List.lookup_cons] at h
    split at h
    · rename_i heq
      obtain rfl := eq_of_beq heq
      cases h
      exact List.mem_cons_self
    · exact List.mem_cons_of_mem _ (ih h)

theorem lookup_of_mem {α : Type} {entries : List (String × α)} {key : String} {a : α}
    (h : (key, a) ∈ entries) : ∃ b, entries.lookup key = some b := by
  induction entries with
  | nil => cases h
  | cons f entries ih =>
    obtain ⟨k, b⟩ := f
    by_cases hk : key = k
    · exact ⟨b, by rw [hk, List.lookup_cons_self]⟩
    · rw [List.lookup_cons, beq_false_of_ne hk]
      exact ih ((List.mem_cons.1 h).resolve_left fun he => hk (Prod.mk.inj he).1)

/-! ### Values that look alike -/

theorem all_texts_of_deepEqual {xs ys : List Value} (h : Value.deepEqualItems xs ys = true)
    (hys : (ys.all fun | .str _ => true | _ => false) = true) :
    (xs.all fun | .str _ => true | _ => false) = true := by
  induction xs generalizing ys with
  | nil => rfl
  | cons x xs ih =>
    cases ys with
    | nil => cases h
    | cons y ys =>
      rw [Value.deepEqualItems, Bool.and_eq_true] at h
      rw [List.all_cons, Bool.and_eq_true] at hys ⊢
      refine ⟨?_, ih h.2 hys.2⟩
      cases y with
      | str t => cases x <;> first | rfl | cases h.1
      | _ => cases hys.1

/-- Where a key accepts a value it accepts every value that is deeply equal to it. -/
theorem checkValue_of_deepEqual {key : String} {d : KeyDefinition} {v w : Value}
    (h : v.deepEqual w = true) (hw : checkValue rt key d w = none) : checkValue rt key d v = none := by
  cases v <;> cases w <;> try cases h
  case null.null => exact hw
  case bool.bool a b =>
    obtain rfl : a = b := by simpa [Value.deepEqual] using h
    exact hw
  case num.num m n =>
    obtain rfl : m = n := by simpa [Value.deepEqual] using h
    exact hw
  case str.str s t =>
    obtain rfl : s = t := by simpa [Value.deepEqual] using h
    exact hw
  case arr.arr xs ys =>
    rw [Value.deepEqual] at h
    change checkType rt key d (.arr ys) = none at hw
    change checkType rt key d (.arr xs) = none
    rw [checkType] at hw ⊢
    cases hd : d.type with
    | stringList =>
      simp only [hd] at hw ⊢
      split at hw
      · rename_i hys
        exact if_pos (all_texts_of_deepEqual h hys)
      · cases hw
    | _ =>
      simp only [hd] at hw
      cases hw
  case obj.obj fs gs =>
    have hsome : ∃ problem, checkValue rt key d (.obj gs) = some problem := by
      change ∃ problem, checkType rt key d (.obj gs) = some problem
      unfold checkType
      cases d.type <;> exact ⟨_, rfl⟩
    obtain ⟨problem, hproblem⟩ := hsome
    rw [hproblem] at hw
    cases hw

/-! ### Documents -/

/-- The schema marks the key secret. -/
def ProductSchema.isSecret (schema : ProductSchema) (key : String) : Bool :=
  ((schema.definitions.lookup key).map KeyDefinition.secret).getD false

/-- Every entry of the document passes the check of its key. -/
def ProductSchema.Fits (rt : Runtime) (service : String) (schema : ProductSchema) (config : Record) : Prop :=
  ∀ f ∈ config, SchemaSet.checkEntry service rt schema.definitions f = none

theorem isSecret_eq {set : SchemaSet} {schema : ProductSchema}
    (h : set.services.lookup service = some schema) (key : String) :
    set.isSecret service key = schema.isSecret key := by
  rw [SchemaSet.isSecret, SchemaSet.definitionsFor, h]
  rfl

theorem validate_eq_nil {set : SchemaSet} {config : Record} :
    set.validate service rt config = [] ↔
      ∃ schema, set.services.lookup service = some schema ∧ schema.Fits rt service config := by
  rw [SchemaSet.validate]
  split
  · rename_i h
    rw [h]
    exact ⟨nofun, fun ⟨_, hs, _⟩ => nomatch hs⟩
  · rename_i schema h
    rw [h]
    constructor
    · intro hnil
      exact ⟨schema, rfl, fun f hf => List.filterMap_eq_nil_iff.1 hnil f hf⟩
    · rintro ⟨schema', hs, hfits⟩
      cases hs
      exact List.filterMap_eq_nil_iff.2 hfits

/-- Metadata always passes. -/
theorem checkEntry_metadata {keys : List (String × KeyDefinition)} {f : String × Value}
    (h : isMetadataKey f.1 = true) : SchemaSet.checkEntry service rt keys f = none := by
  rw [SchemaSet.checkEntry, h]
  rfl

/-- Any other entry passes when its key is declared and its value is what the key declares. -/
theorem checkEntry_eq_none {keys : List (String × KeyDefinition)} {key : String} {value : Value}
    (h : isMetadataKey key = false) : SchemaSet.checkEntry service rt keys (key, value) = none ↔
      ∃ d, keys.lookup key = some d ∧ checkValue rt key d value = none := by
  rw [SchemaSet.checkEntry]
  simp only [h, Bool.false_eq_true, if_false]
  cases keys.lookup key with
  | none => exact ⟨nofun, fun ⟨_, hd, _⟩ => nomatch hd⟩
  | some d => exact ⟨fun hv => ⟨d, rfl, hv⟩, fun ⟨_, hd, hv⟩ => by cases hd; exact hv⟩

theorem lookup_of_deepEqualFields {fs gs : Record} {key : String} {v : Value}
    (h : Value.deepEqualFields fs gs = true) (hmem : (key, v) ∈ fs) :
    ∃ w, gs.lookup key = some w ∧ v.deepEqual w = true := by
  induction fs with
  | nil => cases hmem
  | cons f fs ih =>
    rw [Value.deepEqualFields, Bool.and_eq_true] at h
    rcases List.mem_cons.1 hmem with rfl | hmem
    · have hfield := h.1
      rw [Value.deepEqualField] at hfield
      split at hfield
      · rename_i w hw
        exact ⟨w, hw, hfield⟩
      · cases hfield
    · exact ih h.2 hmem

/-- A document that looks like one that fits fits. -/
theorem ProductSchema.Fits.of_deepEqual {schema : ProductSchema} {fs gs : Record}
    (hfits : schema.Fits rt service gs) (h : (Value.obj fs).deepEqual (.obj gs) = true) :
    schema.Fits rt service fs := by
  rintro ⟨key, v⟩ hmem
  rw [Value.deepEqual, Bool.and_eq_true] at h
  obtain ⟨w, hw, hvw⟩ := lookup_of_deepEqualFields h.2 hmem
  by_cases hmeta : isMetadataKey key = true
  · exact checkEntry_metadata hmeta
  · have hconfig : isMetadataKey key = false := by simpa using hmeta
    obtain ⟨d, hd, hcheck⟩ := (checkEntry_eq_none hconfig).1 (hfits _ (Record.mem_of_lookup hw))
    exact (checkEntry_eq_none hconfig).2 ⟨d, hd, checkValue_of_deepEqual hvw hcheck⟩

/-- A document that deleting keys leaves as it is holds none of them. -/
theorem not_mem_of_deepEqual_deleteAll {fs : Record} {keys : List String} {key : String} {v : Value}
    (h : (Value.obj fs).deepEqual (.obj (fs.deleteAll keys)) = true) (hkey : key ∈ keys) :
    (key, v) ∉ fs := by
  intro hmem
  rw [Value.deepEqual, Bool.and_eq_true] at h
  have hlength : (fs.filter fun f => !keys.contains f.1).length = fs.length :=
    (eq_of_beq h.1).symm
  have := List.length_filter_eq_length_iff.1 hlength (key, v) hmem
  simp [hkey] at this

end ConfigRegistry.Schema
