import ConfigRegistry.Cli.Findings
import ConfigRegistry.Products.Secrets
import ConfigRegistry.Products.Validity

/-!
# What the write path accepts and the check of the repository does not

The write path checks a document before it is encrypted, and the repository's check reads what is
committed.
-/

namespace ConfigRegistry.Products

open Js Schema Store Identity Cli

variable {o : ProductWriteOptions} {actor : Actor} {op : Operation}

/-! ### What sops does to a document -/

/-- What sops may answer for a value. -/
inductive Answered : Value → Value → Prop
  | plain (v : Value) : Answered v v
  | cipher (v : Value) (s : String) (hv : isEmptySecret (some v) = false) (hs : sopsEncrypted s = true) :
      Answered v (.str s)
  | items {vs ws : List Value} (h : List.Forall₂ Answered vs ws) : Answered (.arr vs) (.arr ws)
  | fields {fs gs : Record} (hkeys : fs.keys = gs.keys)
      (h : List.Forall₂ Answered (fs.map Prod.snd) (gs.map Prod.snd)) : Answered (.obj fs) (.obj gs)

/-- The encryptor answers each field of a document by itself, and adds a block of its own. -/
def SopsEncrypts (o : ProductWriteOptions) : Prop :=
  ∀ ns (value : Record) source (held : Record), o.encrypt ns (o.rt.stringifyYaml (.obj value)) = .ok source →
    o.rt.parseYaml source = .ok (.obj held) → ∃ (answer : String → Value → Value) (block : Record),
      (∀ key v, Answered v (answer key v)) ∧ (∀ f ∈ block, f.1 = "sops") ∧
      held = (value.map fun f => (f.1, answer f.1 f.2)) ++ block

/-- The decryptor answers a document with one of the same keys. -/
def SopsDecrypts (o : ProductWriteOptions) : Prop :=
  ∀ ns source document current, o.rt.parseYaml source = .ok document →
    ProductMutation.resolveOne o ns source = .ok current → ∀ key, isMetadataKey key = false →
    ((∃ v, (key, v) ∈ ownProperties document) ↔ ∃ v, (key, v) ∈ current)

theorem sopsEncrypted_empty : sopsEncrypted "" = false := by decide

theorem isEmptySecret_iff {v : Option Value} :
    isEmptySecret v = true ↔ v = none ∨ v = some .null ∨ v = some (.str "") := by
  constructor
  · intro h
    unfold isEmptySecret at h
    split at h
    · exact .inl rfl
    · exact .inr (.inl rfl)
    · exact .inr (.inr rfl)
    · cases h
  · rintro (rfl | rfl | rfl) <;> rfl

theorem Answered.of_empty {w : Value} (h : Answered (.str "") w) : w = .str "" := by
  cases h with
  | plain => rfl
  | cipher _ s hv hs => cases hv

theorem all_texts_of_answered {vs ws : List Value} (h : List.Forall₂ Answered vs ws)
    (hvs : (vs.all fun | .str _ => true | _ => false) = true) :
    (ws.all fun | .str _ => true | _ => false) = true := by
  induction h with
  | nil => rfl
  | @cons v w vs ws hvw hrest ih =>
    rw [List.all_cons, Bool.and_eq_true] at hvs ⊢
    refine ⟨?_, ih hvs.2⟩
    cases hvw with
    | plain => exact hvs.1
    | cipher => rfl
    | items => exact hvs.1
    | fields => exact hvs.1

/-- What is answered for a value passes the check that the value passes, unless it is ciphertext. -/
theorem checkValue_of_answered {rt : Runtime} {key : String} {d : KeyDefinition} {v w : Value}
    (h : Answered v w) (hv : checkValue rt key d v = none)
    (hw : ∀ s, w = .str s → sopsEncrypted s = false) : checkValue rt key d w = none := by
  cases h with
  | plain => exact hv
  | cipher _ s hempty hs =>
    rw [hw s rfl] at hs
    cases hs
  | items h =>
    rename_i vs ws
    change checkType rt key d (.arr ws) = none
    change checkType rt key d (.arr vs) = none at hv
    cases htype : d.type <;> simp only [checkType, htype] at hv ⊢ <;> try cases hv
    split at hv
    · rename_i hall
      exact if_pos (all_texts_of_answered h hall)
    · cases hv
  | fields h =>
    rename_i fs gs
    change checkType rt key d (.obj fs) = none at hv
    cases htype : d.type <;> simp only [checkType, htype] at hv <;> cases hv

theorem lookup_map_answer (r : Record) (answer : String → Value → Value) (key : String) :
    (r.map fun f => (f.1, answer f.1 f.2)).lookup key = (r.lookup key).map (answer key) := by
  induction r with
  | nil => rfl
  | cons f r ih =>
    rw [List.map_cons, List.lookup_cons, List.lookup_cons]
    by_cases h : key = f.1
    · subst h
      rw [beq_self_eq_true]
      rfl
    · rw [beq_false_of_ne h]
      exact ih

theorem lookup_block {block : Record} (h : ∀ f ∈ block, f.1 = "sops") {key : String} (hkey : key ≠ "sops") :
    block.lookup key = none := by
  cases hv : block.lookup key with
  | none => rfl
  | some v => exact (hkey (h _ (Record.mem_of_lookup hv))).elim

/-- What the document holds that a document was encrypted to. -/
theorem SopsEncrypts.answers (sops : SopsEncrypts o) {ns source : String} {value held : Record}
    (h : o.encrypt ns (o.rt.stringifyYaml (.obj (ProductMutation.ordered value))) = .ok source)
    (hparse : o.rt.parseYaml source = .ok (.obj held)) : ∃ answer : String → Value → Value,
      (∀ key v, Answered v (answer key v)) ∧
      (∀ key, isMetadataKey key = false → held.lookup key = (value.lookup key).map (answer key)) ∧
      ∀ key v, isMetadataKey key = false → (key, v) ∈ held → held.lookup key = some v := by
  obtain ⟨answer, block, hanswer, hblock, rfl⟩ := sops _ _ _ _ h hparse
  have hlookup : ∀ key, isMetadataKey key = false →
      ((ProductMutation.ordered value).map (fun f => (f.1, answer f.1 f.2)) ++ block).lookup key =
        (value.lookup key).map (answer key) := by
    intro key hmeta
    have hkey : key ≠ "sops" := by
      rintro rfl
      cases hmeta
    rw [List.lookup_append, lookup_map_answer, lookup_block hblock hkey, lookup_ordered, Option.or_none]
  refine ⟨answer, hanswer, hlookup, fun key v hmeta hmem => ?_⟩
  rw [hlookup key hmeta]
  rcases List.mem_append.1 hmem with hmem | hmem
  · obtain ⟨⟨k, w⟩, hw, heq⟩ := List.mem_map.1 hmem
    cases heq
    rw [lookup_of_mem_ordered hmeta hw]
    rfl
  · obtain rfl := hblock _ hmem
    cases hmeta

/-! ### What the check asks of an operation -/

/-- The schema that the documents of an operation are encrypted under. -/
def Operation.Under (op : Operation) (rt : Runtime) (files : Files) (schema : ProductSchema) : Prop :=
  match op with
  | .createProduct r => ProductSchema.ofSource rt r.service r.schema = .ok schema
  | _ => Declares rt files op.service schema

/-- The schema marks the key secret, and the operation does not take it away. -/
def Operation.isSecret (op : Operation) (schema : ProductSchema) (key : String) : Bool :=
  schema.isSecret key && !op.gone.contains key

/-- The condition on one document and what the encryptor answered for it. -/
structure Committable (secret : String → Bool) (value held : Record) : Prop where
  /-- No secret is the empty text. -/
  filled : ∀ key, isMetadataKey key = false → secret key = true → value.lookup key ≠ some (.str "")
  /-- Nothing is encrypted that is not secret. -/
  plain : ∀ key s, isMetadataKey key = false → secret key = false → held.lookup key = some (.str s) →
    sopsEncrypted s = false
  /-- The version is encrypted where a schema calls it secret. -/
  version : secret "version" = true → ∀ v, ("version", v) ∈ held → isEncrypted v = true

/-- Every document that was given comes out of the encryptor as the check wants it. -/
def AllCommittable (o : ProductWriteOptions) (service : String) (secret : String → Bool)
    (given : List (String × Record)) : Prop :=
  ∀ g ∈ given, ∀ answer held, o.encrypt (namespaceText service g.1)
    (o.rt.stringifyYaml (.obj (ProductMutation.ordered g.2))) = .ok answer →
    o.rt.parseYaml answer = .ok (.obj held) → Committable secret g.2 held

/-- What an operation must meet for the check to accept what it commits. -/
structure Operation.PassesCheck (op : Operation) (o : ProductWriteOptions) (actor : Actor) (db : Database) :
    Prop where
  documents : ∀ schema, op.Under o.rt db.files schema →
    AllCommittable o op.service (op.isSecret schema) (op.documents o actor db)
  /-- A product is archived while no other service is granted anything of it. -/
  archived : ∀ service base force, op = .archiveProduct service base force →
    ∀ services, Granting o.rt db.files services → ∀ s ∈ services, s.name ≠ service →
      ∀ environment, namespaceText service environment ∉ s.namespaces

/-- A document that was encrypted passes the check under this condition. -/
theorem passes_iff {product environment source : String} {schema : ProductSchema} {value held : Record}
    (sops : SopsEncrypts o) (hfits : schema.Fits o.rt product (configOnly value))
    (h : Encodes o product environment schema value source)
    (hparse : o.rt.parseYaml source = .ok (.obj held)) :
    Passes o.rt product schema source ↔ Committable schema.isSecret value held := by
  obtain ⟨answer, hanswer, hheld, hlookup⟩ := sops.answers h.encrypted hparse
  have hsops : ∀ {key}, isMetadataKey key = false → key ≠ "sops" := by
    rintro key hmeta rfl
    cases hmeta
  constructor
  · rintro ⟨document, hdocument, hpass⟩
    rw [hparse] at hdocument
    cases hdocument
    refine ⟨fun key hmeta hsecret hempty => ?_, fun key s hmeta hplain hs => ?_, fun hsecret v hv => ?_⟩
    · have hblank := hheld key hmeta
      rw [hempty, Option.map_some, (hanswer key (.str "")).of_empty] at hblank
      have := (hpass key _ (Record.mem_of_lookup hblank) (hsops hmeta)).2 hsecret
      rw [isEncrypted, sopsEncrypted_empty] at this
      cases this
    · cases hcipher : sopsEncrypted s with
      | false => rfl
      | true =>
        obtain ⟨d, hd, hcheck⟩ := (checkEntry_eq_none hmeta).1
          (hpass key _ (Record.mem_of_lookup hs) (hsops hmeta)).1
        rw [checkValue, if_pos hcipher] at hcheck
        split at hcheck
        · rename_i hsecret
          rw [isSecret_iff.2 ⟨d, hd, hsecret⟩] at hplain
          cases hplain
        · cases hcheck
    · exact (hpass _ _ hv (by decide)).2 hsecret
  · intro hc
    refine ⟨_, hparse, fun key v hmem hkey => ?_⟩
    cases hmeta : isMetadataKey key with
    | true =>
      refine ⟨checkEntry_metadata hmeta, fun hsecret => ?_⟩
      rw [isMetadataKey, Bool.or_eq_true, beq_iff_eq, beq_iff_eq] at hmeta
      rcases hmeta with rfl | rfl
      · exact hc.version hsecret v hmem
      · exact (hkey rfl).elim
    | false =>
      have hv := hlookup key v hmeta hmem
      obtain ⟨w, hw, rfl⟩ := Option.map_eq_some_iff.1 ((hheld key hmeta).symm.trans hv)
      have hmem' : (key, w) ∈ configOnly value := mem_configOnly.2 ⟨Record.mem_of_lookup hw, hmeta⟩
      obtain ⟨d, hd, hcheck⟩ := (checkEntry_eq_none hmeta).1 (hfits _ hmem')
      cases hsecret : schema.isSecret key with
      | false =>
        constructor
        · refine (checkEntry_eq_none hmeta).2
            ⟨d, hd, checkValue_of_answered (hanswer key w) hcheck fun s hs => ?_⟩
          rw [hs] at hv
          exact hc.plain key s hmeta hsecret hv
        · intro h
          cases h
      | true =>
        obtain ⟨encrypted, hencrypted, hkept⟩ := h.kept
        rw [hparse] at hencrypted
        cases hencrypted
        have hkept := hkept key (Record.mem_keys.2 ⟨w, hmem'⟩) hsecret
        rw [ProductMutation.secretKept, hw, hv, Bool.or_eq_true, Bool.and_eq_true] at hkept
        rcases hkept with ⟨hempty, -⟩ | hcipher
        · rcases isEmptySecret_iff.1 hempty with hnone | hnull | hblank
          · cases hnone
          · cases hnull
            cases hcheck
          · rw [hblank] at hw
            exact (hc.filled key hmeta hsecret hw).elim
        · split at hcipher
          · rename_i s hs
            obtain ⟨d', hd', hsecret'⟩ := isSecret_iff.1 hsecret
            rw [hd] at hd'
            cases hd'
            rw [Option.some_inj.1 hs]
            refine ⟨(checkEntry_eq_none hmeta).2 ⟨d, hd, ?_⟩, fun _ => hcipher⟩
            rw [checkValue, if_pos hcipher, if_pos hsecret']
          · cases hcipher

/-! ### The files of the product, and the others -/

theorem foreign_schemaPath {service name : String} (h : name ≠ service) : Foreign service (schemaPath name) :=
  ⟨fun heq => h (schemaPath_inj heq), (archivedPath_ne_schemaPath _ _).symm,
    schemaPath_ne_documentPath _ _⟩

theorem foreign_configPath {service ns : String} (h : ∀ environment, ns ≠ namespaceText service environment) :
    Foreign service (configPath ns) := by
  have hpath : configPath ns = "config/" ++ (ns ++ ".yaml") := String.append_assoc
  refine ⟨?_, ?_, fun environment heq => h environment ?_⟩
  · rw [hpath, schemaPath_append]
    exact append_ne 1 (by decide) (by decide) (by decide) _ _
  · rw [hpath, archivedPath_append]
    exact append_ne 1 (by decide) (by decide) (by decide) _ _
  · have := congrArg (fun path => sliceBetween path "config/" ".yaml") heq
    simpa only [documentPath, configPath, sliceBetween_append] using this

/-- The documents of other products stay as they are. -/
theorem Effect.foreign_config {files files' : Files} {given : List (String × Record)}
    (heffect : Effect op o actor files files' given) {ns : String}
    (h : ∀ environment, ns ≠ namespaceText op.service environment) :
    files'.lookup (configPath ns) = files.lookup (configPath ns) := by
  refine heffect.foreign (foreign_configPath h) fun heq => ?_
  have hpath : configPath ns = "config/" ++ (ns ++ ".yaml") := String.append_assoc
  rw [hpath, ← String.append_empty (s := "services.yaml")] at heq
  exact append_ne 1 (by decide) (by decide) (by decide) _ _ heq

/-- The check has only the product's own files and the grants to look at again. -/
theorem Effect.clean {files files' : Files} {given : List (String × Record)}
    (heffect : Effect op o actor files files' given) (hname : ProductName op.service) (h : Clean o.rt files)
    (hschema : ∀ source, files'.lookup (schemaPath op.service) = some source →
      ∃ schema, ProductSchema.ofSource o.rt op.service source = .ok schema)
    (hdocuments : ∀ environment source, files'.lookup (documentPath op.service environment) = some source →
      isNamespace (namespaceText op.service environment) = true ∧
        ∃ schema, Declares o.rt files' op.service schema ∧ Passes o.rt op.service schema source)
    (hgrants : ∃ services, Granting o.rt files' services ∧
      ∀ s ∈ services, ∀ ns ∈ s.namespaces, (files'.lookup (configPath ns)).isSome = true) :
    Clean o.rt files' := by
  have hsame : ∀ name, name ≠ op.service →
      files'.lookup (schemaPath name) = files.lookup (schemaPath name) := fun name hne =>
    heffect.foreign (foreign_schemaPath hne) (services_ne_schemaPath name).symm
  refine ⟨fun name source hlookup => ?_, fun ns source hlookup => ?_, hgrants⟩
  · by_cases hown : name = op.service
    · subst hown
      exact ⟨hname.segment, fun _ => hschema source hlookup⟩
    · rw [hsame name hown] at hlookup
      exact h.schemas name source hlookup
  · by_cases hown : ∃ environment, ns = namespaceText op.service environment
    · obtain ⟨environment, rfl⟩ := hown
      rw [serviceOf_namespaceText hname.segment]
      exact hdocuments environment source hlookup
    · have hforeign : ∀ environment, ns ≠ namespaceText op.service environment :=
        fun environment heq => hown ⟨environment, heq⟩
      rw [heffect.foreign_config hforeign] at hlookup
      obtain ⟨hns, schema, hdeclares, hpasses⟩ := h.documents ns source hlookup
      obtain ⟨product, environment, rfl, hproduct⟩ := eq_namespaceText hns
      rw [serviceOf_namespaceText hproduct.segment] at hdeclares hpasses ⊢
      refine ⟨hns, schema, hdeclares.of_lookup (hsame product ?_).symm, hpasses⟩
      rintro rfl
      exact hforeign environment rfl

/-! ### Documents rewritten -/

section

variable {service : String} {target : Option String} {files files' : Files}
  {given : List (String × Record)} {old schema : ProductSchema} {gone : List String}

/-- A field that is stored or was given is declared as it was, unless it is taken away. -/
theorem Rewritten.secret_iff (opens : SopsDecrypts o) (hclean : Clean o.rt files)
    (h : Rewritten o service target files files' given old schema gone) {g : String × Record} (hg : g ∈ given)
    {key : String} (hkey : isMetadataKey key = true ∨ ∃ v, (key, v) ∈ configOnly g.2) :
    schema.isSecret key = true ↔ old.isSecret key = true ∧ key ∉ gone := by
  constructor
  · intro hsecret
    have hnot : key ∉ gone := by
      intro hin
      rw [h.removed key hin] at hsecret
      cases hsecret
    refine ⟨?_, hnot⟩
    rcases hkey with hmeta | ⟨v, hv⟩
    · exact h.metadata key hmeta hsecret
    · rcases h.drawn g hg key v hv hsecret with hold | ⟨current, w, hresolved, hw⟩
      · exact hold
      · rcases hresolved with ⟨-, rfl⟩ | ⟨source, hsource, hcurrent⟩
        · cases hw
        · obtain ⟨hw, hmeta⟩ := mem_configOnly.1 hw
          obtain ⟨-, document, hparse, hpasses⟩ := hclean.passes h.declared hsource
          obtain ⟨u, hu⟩ := (opens _ _ _ _ hparse hcurrent key hmeta).2 ⟨w, hw⟩
          have hsops : key ≠ "sops" := by
            rintro rfl
            cases hmeta
          obtain ⟨d, hd, -⟩ := (checkEntry_eq_none hmeta).1 (hpasses key u hu hsops).1
          obtain ⟨d', hd', hsecret'⟩ := isSecret_iff.1 hsecret
          rw [(h.definitions key d hd).resolve_left hnot] at hd'
          cases hd'
          exact isSecret_iff.2 ⟨d, hd, hsecret'⟩
  · rintro ⟨hsecret, hnot⟩
    obtain ⟨d, hd, hsecret⟩ := isSecret_iff.1 hsecret
    exact isSecret_iff.2 ⟨d, (h.definitions key d hd).resolve_left hnot, hsecret⟩

/-- A document that is not written passes as it did. -/
theorem Rewritten.passes_kept (opens : SopsDecrypts o) (hclean : Clean o.rt files)
    (h : Rewritten o service target files files' given old schema gone) {environment source : String}
    (hnot : ∀ value, (environment, value) ∉ given)
    (hlookup : files.lookup (documentPath service environment) = some source) :
    Passes o.rt service schema source := by
  obtain ⟨-, document, hparse, hpasses⟩ := hclean.passes h.declared hlookup
  refine ⟨document, hparse, fun key v hmem hsops => ?_⟩
  obtain ⟨hcheck, hsecret⟩ := hpasses key v hmem hsops
  rcases h.kept with hsame | hkept
  · rw [ProductSchema.isSecret, hsame]
    exact ⟨hcheck, hsecret⟩
  · obtain ⟨current, hresolved, -, hgone⟩ := (hkept environment source hlookup).resolve_left (by
      rintro ⟨value, hmem⟩
      exact hnot value hmem)
    cases hmeta : isMetadataKey key with
    | true => exact ⟨checkEntry_metadata hmeta, fun hs => hsecret (h.metadata key hmeta hs)⟩
    | false =>
      obtain ⟨d, hd, hvalue⟩ := (checkEntry_eq_none hmeta).1 hcheck
      have hnew : schema.definitions.lookup key = some d := by
        refine (h.definitions key d hd).resolve_left fun hin => ?_
        rcases hresolved with ⟨hnone, -⟩ | ⟨source', hsource', hcurrent⟩
        · rw [hlookup] at hnone
          cases hnone
        · rw [hlookup] at hsource'
          cases hsource'
          obtain ⟨w, hw⟩ := (opens _ _ _ _ hparse hcurrent key hmeta).1 ⟨v, hmem⟩
          exact hgone key hin w (mem_configOnly.2 ⟨hw, hmeta⟩)
      refine ⟨(checkEntry_eq_none hmeta).2 ⟨d, hnew, hvalue⟩, fun hs => hsecret ?_⟩
      rw [ProductSchema.isSecret, hnew] at hs
      rw [ProductSchema.isSecret, hd]
      exact hs

end

theorem Committable.congr {secret secret' : String → Bool} {value held : Record}
    (h : Committable secret value held)
    (hsame : ∀ key, (isMetadataKey key = true ∨ ∃ v, (key, v) ∈ configOnly value) →
      (secret key = true ↔ secret' key = true))
    (hheld : ∀ key v, isMetadataKey key = false → held.lookup key = some v →
      ∃ w, value.lookup key = some w) : Committable secret' value held := by
  have hconfig : ∀ {key v}, isMetadataKey key = false → value.lookup key = some v →
      ∃ v, (key, v) ∈ configOnly value :=
    fun hmeta hv => ⟨_, mem_configOnly.2 ⟨Record.mem_of_lookup hv, hmeta⟩⟩
  refine ⟨fun key hmeta hsecret hempty => ?_, fun key s hmeta hplain hs => ?_, fun hsecret => ?_⟩
  · exact h.filled key hmeta ((hsame key (.inr (hconfig hmeta hempty))).2 hsecret) hempty
  · obtain ⟨w, hw⟩ := hheld key _ hmeta hs
    refine h.plain key s hmeta ?_ hs
    rw [← Bool.not_eq_true, hsame key (.inr (hconfig hmeta hw)), hplain]
    exact nofun
  · exact h.version ((hsame _ (.inl (by decide))).2 hsecret)

theorem Rewritten.clean_iff {target : Option String} {files files' : Files} {given : List (String × Record)}
    {old schema : ProductSchema} {gone : List String} (opens : SopsDecrypts o) (sops : SopsEncrypts o)
    (hclean : Clean o.rt files) (heffect : Effect op o actor files files' given)
    (hgone : ∀ key, key ∈ gone ↔ key ∈ op.gone)
    (h : Rewritten o op.service target files files' given old schema gone) :
    Clean o.rt files' ↔ AllCommittable o op.service (op.isSecret old) given := by
  have hsecret : ∀ g ∈ given, ∀ key, (isMetadataKey key = true ∨ ∃ v, (key, v) ∈ configOnly g.2) →
      (schema.isSecret key = true ↔ op.isSecret old key = true) := by
    intro g hg key hkey
    rw [h.secret_iff opens hclean hg hkey, Operation.isSecret, hgone]
    simp
  have hheld : ∀ g : String × Record, ∀ answer held, o.encrypt (namespaceText op.service g.1)
      (o.rt.stringifyYaml (.obj (ProductMutation.ordered g.2))) = .ok answer →
      o.rt.parseYaml answer = .ok (.obj held) → ∀ key v, isMetadataKey key = false →
      held.lookup key = some v → ∃ w, g.2.lookup key = some w := by
    intro g answer held hanswer hparse key v hmeta hv
    obtain ⟨answer, -, hheld, -⟩ := sops.answers hanswer hparse
    obtain ⟨w, hw, -⟩ := Option.map_eq_some_iff.1 ((hheld key hmeta).symm.trans hv)
    exact ⟨w, hw⟩
  constructor
  · intro hclean' g hg answer held hanswer hparse
    obtain ⟨-, hfits, source, hsource, hencodes⟩ := h.encoded g hg
    cases hencodes.encrypted.symm.trans hanswer
    have hpasses := (hclean'.passes h.declares hsource).2
    exact ((passes_iff sops hfits hencodes hparse).1 hpasses).congr (hsecret g hg)
      (hheld g _ held hanswer hparse)
  · intro hall
    refine heffect.clean (productName_of_identifier h.product) hclean (fun source hlookup => ?_)
      (fun environment source hlookup => ?_) ?_
    · obtain ⟨-, source', hsource', hok⟩ := h.declares
      rw [hlookup] at hsource'
      cases hsource'
      exact ⟨schema, hok⟩
    · by_cases hgiven : ∃ value, (environment, value) ∈ given
      · obtain ⟨value, hg⟩ := hgiven
        obtain ⟨hid, hfits, source', hsource', hencodes⟩ := h.encoded _ hg
        cases hsource'.symm.trans hlookup
        obtain ⟨held, hparse, -⟩ := hencodes.kept
        refine ⟨isNamespace_of_identifiers h.product hid, schema, h.declares, ?_⟩
        refine (passes_iff sops hfits hencodes hparse).2 ?_
        exact (hall _ hg _ held hencodes.encrypted hparse).congr
          (fun key hkey => (hsecret _ hg key hkey).symm) (hheld (environment, value) _ held hencodes.encrypted hparse)
      · have hnot : ∀ value, (environment, value) ∉ given := fun value hmem => hgiven ⟨value, hmem⟩
        rw [h.document environment hnot] at hlookup
        exact ⟨(hclean.passes h.declared hlookup).1, schema, h.declares,
          h.passes_kept opens hclean hnot hlookup⟩
    · obtain ⟨services, ⟨text, registry, htext, hok, rfl⟩, hgranted⟩ := hclean.grants
      refine ⟨registry.services, ⟨text, registry, ?_, hok, rfl⟩, fun s hs ns hns => ?_⟩
      · rw [h.others _ (services_ne_schemaPath _) fun e => services_ne_documentPath _ e]
        exact htext
      · have hfile := hgranted s hs ns hns
        by_cases hown : ∃ environment, ns = namespaceText op.service environment
        · obtain ⟨environment, rfl⟩ := hown
          by_cases hgiven : ∃ value, (environment, value) ∈ given
          · obtain ⟨value, hg⟩ := hgiven
            obtain ⟨-, -, source, hsource, -⟩ := h.encoded _ hg
            exact Option.isSome_iff_exists.2 ⟨source, hsource⟩
          · change (files'.lookup (documentPath op.service environment)).isSome = true
            rw [h.document environment fun value hmem => hgiven ⟨value, hmem⟩]
            exact hfile
        · rw [heffect.foreign_config fun environment heq => hown ⟨environment, heq⟩]
          exact hfile

/-! ### A product created or archived -/

theorem Created.clean_iff {r : CreateRequest} {files files' : Files} {given : List (String × Record)}
    {schema : ProductSchema} (yaml : ∀ v, o.rt.parseYaml (o.rt.stringifyYaml v) = .ok v)
    (sops : SopsEncrypts o) (hclean : Clean o.rt files)
    (heffect : Effect (.createProduct r) o actor files files' given) (h : Created o r files files' given schema) :
    Clean o.rt files' ↔ AllCommittable o r.service schema.isSecret given := by
  have hgiven : ∀ environment, (environment, newDocument r) ∈ given ↔ environment ∈ r.environments := by
    intro environment
    rw [h.given_eq, List.mem_map]
    exact ⟨fun ⟨_, he, heq⟩ => by cases heq; exact he, fun he => ⟨_, he, rfl⟩⟩
  constructor
  · intro hclean' g hg answer held hanswer hparse
    rw [h.given_eq] at hg
    obtain ⟨environment, he, rfl⟩ := List.mem_map.1 hg
    obtain ⟨source, hsource, hencodes⟩ := h.encoded environment he
    cases hencodes.encrypted.symm.trans hanswer
    exact (passes_iff sops (fits_configOnly_version h.fits) hencodes hparse).1
      (hclean'.passes h.declares hsource).2
  · intro hall
    refine heffect.clean (productName_of_identifier h.product) hclean (fun source hlookup => ?_)
      (fun environment source hlookup => ?_) ?_
    · cases h.schema_written.symm.trans hlookup
      exact ⟨schema, h.accepted⟩
    · by_cases he : environment ∈ r.environments
      · obtain ⟨source', hsource', hencodes⟩ := h.encoded environment he
        cases hsource'.symm.trans hlookup
        obtain ⟨held, hparse, -⟩ := hencodes.kept
        exact ⟨isNamespace_of_identifiers h.product (h.environments.2 environment he), schema, h.declares,
          (passes_iff sops (fits_configOnly_version h.fits) hencodes hparse).2
            (hall _ ((hgiven environment).2 he) _ held hencodes.encrypted hparse)⟩
      · cases (h.document environment he).symm.trans hlookup
    · obtain ⟨services, hg, hgranted⟩ := hclean.grants
      rcases heffect.granting yaml hg with ⟨⟨old, _, _, hrewritten⟩, -⟩ | ⟨r', _, hop, -, -, hg'⟩ |
        ⟨_, _, _, _, hop, -⟩
      · obtain ⟨-, source, hsource, -⟩ := hrewritten.declared
        cases h.undeclared.symm.trans hsource
      · cases hop
        refine ⟨_, hg', fun s hs ns hns => ?_⟩
        rcases List.mem_append.1 hs with hs | hs
        · have hfile := hgranted s hs ns hns
          rw [heffect.foreign_config]
          · exact hfile
          · rintro environment rfl
            change (files.lookup (documentPath r.service environment)).isSome = true at hfile
            rw [h.undocumented] at hfile
            cases hfile
        · rw [List.mem_singleton.1 hs, newService] at hns
          obtain ⟨environment, he, rfl⟩ := List.mem_map.1 hns
          obtain ⟨source, hsource, -⟩ := h.encoded environment he
          exact Option.isSome_iff_exists.2 ⟨source, hsource⟩
      · cases hop

theorem Archived.clean_iff {service : String} {base : Option String} {force : Bool} {files files' : Files}
    {given : List (String × Record)} {schema : ProductSchema}
    (yaml : ∀ v, o.rt.parseYaml (o.rt.stringifyYaml v) = .ok v) (hclean : Clean o.rt files)
    (heffect : Effect (.archiveProduct service base force) o actor files files' given)
    (h : Archived o actor service files files' schema) :
    Clean o.rt files' ↔ ∀ services, Granting o.rt files services → ∀ s ∈ services, s.name ≠ service →
      ∀ environment, namespaceText service environment ∉ s.namespaces := by
  obtain ⟨services, hg, hgranted⟩ := hclean.grants
  have hg' : Granting o.rt files' (services.filter fun s => !(s.name == service)) := by
    rcases heffect.granting yaml hg with ⟨⟨_, _, _, hrewritten⟩, -⟩ | ⟨_, _, hop, -⟩ |
      ⟨_, _, _, _, hop, -, -, hg'⟩
    · obtain ⟨-, source, hsource, -⟩ := hrewritten.declares
      cases h.undeclared.symm.trans hsource
    · cases hop
    · cases hop
      exact hg'
  constructor
  · intro hclean' services' hservices s hs hne environment hns
    obtain rfl := hg.unique hservices
    obtain ⟨kept, hkept, hfiles⟩ := hclean'.grants
    obtain rfl := hg'.unique hkept
    have hfile := hfiles s (List.mem_filter.2 ⟨hs, by simpa using hne⟩) _ hns
    change (files'.lookup (documentPath service environment)).isSome = true at hfile
    rw [h.undocumented] at hfile
    cases hfile
  · intro hall
    refine heffect.clean (productName_of_identifier h.product) hclean (fun source hlookup => ?_)
      (fun environment source hlookup => ?_) ⟨_, hg', fun s hs ns hns => ?_⟩
    · cases h.undeclared.symm.trans hlookup
    · cases (h.undocumented environment).symm.trans hlookup
    · obtain ⟨hs, hne⟩ := List.mem_filter.1 hs
      rw [heffect.foreign_config]
      · exact hgranted s hs ns hns
      · rintro environment rfl
        exact hall services hg s hs (by simpa using hne) environment hns

theorem under_iff {rt : Runtime} {files : Files} {schema : ProductSchema} (hop : op.rewrites = true) :
    op.Under rt files schema ↔ Declares rt files op.service schema := by
  cases op with
  | createProduct => cases hop
  | _ => exact Iff.rfl

theorem sopsEncrypts_plainOptions : SopsEncrypts plainOptions := by
  intro ns value source held hanswer hparse
  have htext : jsonRuntime.stringifyYaml (.obj value) = source := Except.ok.inj hanswer
  cases (parse_stringify (.obj value)).symm.trans (htext ▸ hparse)
  exact ⟨fun _ v => v, [], fun _ v => .plain v, nofun, by simp⟩

theorem sopsDecrypts_plainOptions : SopsDecrypts plainOptions := by
  intro ns source document current hparse hresolve key _
  change jsonRuntime.parseYaml source = _ at hparse
  change parseConfig jsonRuntime.parseYaml _ source = _ at hresolve
  rw [parseConfig, hparse] at hresolve
  cases document <;> cases hresolve <;> exact Iff.rfl

/-- The check of a mirror, without the wording of what it finds. -/
def reportsNothing (db : Database) : Bool :=
  match validateRepository jsonRuntime (fun _ => "") (listing db.files) with
  | .ok [] => true
  | _ => false

theorem reportsNothing_iff {db : Database} : reportsNothing db = true ↔
    validateRepository jsonRuntime (fun _ => "") (listing db.files) = .ok [] := by
  rw [reportsNothing]
  split
  · rename_i h
    exact ⟨fun _ => h, fun _ => rfl⟩
  · rename_i h
    exact ⟨nofun, fun heq => (h heq).elim⟩

/-- A secret is given an empty value. -/
def blankToken : Call :=
  plainCall (.writeValues { service := "web", environment := "dev", changes := [("TOKEN", some (.str ""))] })

end ConfigRegistry.Products
