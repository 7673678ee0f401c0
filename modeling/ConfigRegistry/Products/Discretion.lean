import ConfigRegistry.Engine.Journal
import ConfigRegistry.Products.Documents

/-!
# What a write tells of a secret

Two writes give the same keys the same values but for the texts of some secrets. What the caller is
answered and what is recorded of the transaction is to be the same for both: neither the validator, the
comparison with the stored document nor an error of the encryptor tells one text from the other.
-/

namespace ConfigRegistry.Products

open Js Schema Store

/-! ### Requests that differ in contents -/

/-- Two requests for one file. Both contents or neither have the digest that the file is expected to have. -/
structure SameRequest (contentHash : String → String) (w w' : MutationRequest) : Prop where
  path : w'.path = w.path
  expected : w'.expectedEtag = w.expectedEtag
  actor : w'.actor = w.actor
  keys : w'.keys = w.keys
  digest : ∃ e, w.expectedEtag = some e ∧ (w.content.map contentHash = e ↔ w'.content.map contentHash = e)

/-- What is recorded of a request beside the content: the path, the actor and the keys. -/
def recorded (w : MutationRequest) : String × String × List String := (w.path, w.actor, w.keys)

section

variable {contentHash : String → String} {ws ws' : List MutationRequest} {db : Database}

theorem map_of_sameRequests {α : Type} {f : MutationRequest → α}
    (hf : ∀ w w', SameRequest contentHash w w' → f w' = f w) (h : List.Forall₂ (SameRequest contentHash) ws ws') :
    ws'.map f = ws.map f := by
  induction h with
  | nil => rfl
  | cons hw _ ih => rw [List.map_cons, List.map_cons, hf _ _ hw, ih]

theorem staleRequest_congr (h : List.Forall₂ (SameRequest contentHash) ws ws') :
    staleRequest contentHash db ws' = staleRequest contentHash db ws := by
  induction h with
  | nil => rfl
  | cons hw _ ih =>
    unfold staleRequest at ih ⊢
    rw [List.find?_cons, List.find?_cons, hw.path, hw.expected]
    split
    · rw [Option.map_some, Option.map_some, hw.path]
    · exact ih

/-- A request that is not stale finds the file as it expects. -/
theorem expected_of_staleRequest (h : staleRequest contentHash db ws = none) {w : MutationRequest} (hw : w ∈ ws)
    {e : Option String} (he : w.expectedEtag = some e) : e = etag contentHash db.files w.path := by
  unfold staleRequest at h
  have hnone := List.find?_eq_none.1 (Option.map_eq_none_iff.1 h) w hw
  rw [he] at hnone
  simpa using hnone

theorem changedRequests_congr (hstale : staleRequest contentHash db ws = none)
    (h : List.Forall₂ (SameRequest contentHash) ws ws') :
    List.Forall₂ (SameRequest contentHash) (changedRequests contentHash db ws) (changedRequests contentHash db ws') := by
  have hfresh : ∀ w ∈ ws, ∀ e, w.expectedEtag = some e → e = etag contentHash db.files w.path := fun w hw e he =>
    expected_of_staleRequest hstale hw he
  clear hstale
  induction h with
  | nil => exact .nil
  | @cons w w' ws ws' hw _ ih =>
    have ih := ih fun w hw => hfresh w (List.mem_cons_of_mem _ hw)
    obtain ⟨e, he, hdigest⟩ := hw.digest
    have hetag := hfresh w List.mem_cons_self e he
    rw [hetag] at hdigest
    unfold changedRequests at ih ⊢
    rw [List.filter_cons, List.filter_cons, hw.path]
    by_cases hsame : w.content.map contentHash = etag contentHash db.files w.path
    · rw [if_neg (by simp [hsame]), if_neg (by simp [hdigest.1 hsame])]
      exact ih
    · have hsame' : ¬ w'.content.map contentHash = etag contentHash db.files w.path := fun hcontra =>
        hsame (hdigest.2 hcontra)
      rw [if_pos (by simpa using hsame), if_pos (by simpa using hsame')]
      exact .cons hw ih

/-- The contents do not show in the result of a transaction. -/
theorem writeMany_congr {checks : List ReadPrecondition} {collections : List CollectionPrecondition}
    (h : List.Forall₂ (SameRequest contentHash) ws ws') :
    (writeMany contentHash ws' checks collections db).1 = (writeMany contentHash ws checks collections db).1 := by
  have hpaths : ws'.map MutationRequest.path = ws.map MutationRequest.path :=
    map_of_sameRequests (fun _ _ hw => hw.path) h
  unfold writeMany
  rw [hpaths, staleRequest_congr h]
  dsimp only
  split
  · rfl
  split
  · rfl
  split
  · rfl
  split
  · rfl
  rename_i hstale
  split
  · rfl
  · rfl
  split
  · rfl
  · rfl
  have hempty : (changedRequests contentHash db ws').isEmpty = (changedRequests contentHash db ws).isEmpty := by
    have hlength := (changedRequests_congr hstale h).length_eq
    cases hws : changedRequests contentHash db ws <;> cases hws' : changedRequests contentHash db ws' <;>
      simp_all
  rw [hempty]
  split
  · rfl
  split
  · rfl
  · rfl

end

/-! ### Attempts that come to the same -/

/-- Both stop with the same failure, or neither stops. -/
def Alike {α β : Type} (service : String) (R : α → β → Prop) : Attempt α → Attempt β → Prop
  | .ok a, .ok b => R a b
  | .error e, .error e' => failureOf service e = failureOf service e'
  | _, _ => False

section

variable {α α' β β' : Type} {service : String} {R : α → α' → Prop} {S : β → β' → Prop}

theorem alike_pure {a : α} {a' : α'} (h : R a a') : Alike service R (pure a) (pure a') := h

theorem alike_refl {R : α → α → Prop} (h : ∀ a, R a a) (x : Attempt α) : Alike service R x x := by
  cases x with
  | ok a => exact h a
  | error e => rfl

/-- An error that is not a refusal is not told. -/
theorem alike_error (e e' : Error) : Alike service R (.error (.error e)) (.error (.error e')) := rfl

theorem alike_bind {x : Attempt α} {x' : Attempt α'} {f : α → Attempt β} {f' : α' → Attempt β'}
    (h : Alike service R x x') (hf : ∀ a a', x = .ok a → x' = .ok a' → R a a' → Alike service S (f a) (f' a')) :
    Alike service S (x >>= f) (x' >>= f') := by
  cases x with
  | ok a =>
    cases x' with
    | ok a' => exact hf a a' rfl rfl h
    | error e' => exact h.elim
  | error e =>
    cases x' with
    | ok a' => exact h.elim
    | error e' => exact h

/-- A step that is the same for both. -/
theorem alike_bind_self {x : Attempt α} {f : α → Attempt β} {f' : α → Attempt β'}
    (hf : ∀ a, x = .ok a → Alike service S (f a) (f' a)) : Alike service S (x >>= f) (x >>= f') := by
  cases x with
  | ok a => exact hf a rfl
  | error e => rfl

theorem alike_ite {c : Prop} [Decidable c] {x y : Attempt β} {x' y' : Attempt β'} (hx : c → Alike service S x x')
    (hy : ¬ c → Alike service S y y') : Alike service S (if c then x else y) (if c then x' else y') := by
  split
  · exact hx ‹_›
  · exact hy ‹_›

end

/-! ### Documents that differ in secret texts -/

/-- A text that a secret is newly set to: it is not empty, not taken for ciphertext, and not what is stored. -/
structure NewSecret (stored : Record) (key text : String) : Prop where
  nonempty : text ≠ ""
  plain : sopsEncrypted text = false
  fresh : (key, Value.str text) ∉ stored

/-- The values are the same, or are two texts that a secret is newly set to. -/
def Twins (secret : String → Prop) (stored : Record) (key : String) (v w : Value) : Prop :=
  v = w ∨ secret key ∧ ∃ s t, v = .str s ∧ w = .str t ∧ NewSecret stored key s ∧ NewSecret stored key t

/-- Two documents that are the same but for such texts. -/
abbrev TwinDocuments (secret : String → Prop) (stored : Record) : Record → Record → Prop :=
  List.Forall₂ fun f g => f.1 = g.1 ∧ Twins secret stored f.1 f.2 g.2

/-- Two lists of changes that are the same but for such texts. -/
abbrev TwinChanges (secret : String → Prop) (stored : Record) :
    List (String × Option Value) → List (String × Option Value) → Prop :=
  List.Forall₂ fun f g => f.1 = g.1 ∧ (f.2 = g.2 ∨ ∃ v w, f.2 = some v ∧ g.2 = some w ∧ Twins secret stored f.1 v w)

section

variable {secret : String → Prop} {stored next next' : Record}

theorem twinDocuments_refl (r : Record) : TwinDocuments secret stored r r := by
  induction r with
  | nil => exact .nil
  | cons f r ih => exact .cons ⟨rfl, .inl rfl⟩ ih

theorem TwinDocuments.keys_eq (h : TwinDocuments secret stored next next') : next'.keys = next.keys := by
  induction h with
  | nil => rfl
  | cons hf _ ih => exact List.cons_eq_cons.2 ⟨hf.1.symm, ih⟩

theorem TwinDocuments.filter (p : String → Bool) (h : TwinDocuments secret stored next next') :
    TwinDocuments secret stored (next.filter fun f => p f.1) (next'.filter fun f => p f.1) := by
  induction h with
  | nil => exact .nil
  | @cons f g next next' hf _ ih =>
    rw [List.filter_cons, List.filter_cons, ← hf.1]
    split
    · exact .cons hf ih
    · exact ih

theorem TwinDocuments.set {key : String} {v w : Value} (h : TwinDocuments secret stored next next')
    (hv : Twins secret stored key v w) : TwinDocuments secret stored (next.set key v) (next'.set key w) := by
  induction h with
  | nil => exact .cons ⟨rfl, hv⟩ .nil
  | @cons f g next next' hf hrest ih =>
    obtain ⟨k, u⟩ := f
    obtain ⟨k', u'⟩ := g
    obtain ⟨hk, hu⟩ := hf
    change k = k' at hk
    subst hk
    unfold Record.set
    by_cases hkey : k = key
    · rw [if_pos hkey, if_pos hkey]
      exact .cons ⟨rfl, hkey ▸ hv⟩ hrest
    · rw [if_neg hkey, if_neg hkey]
      exact .cons ⟨rfl, hu⟩ ih

/-- A key that both hold has two values that are twins. -/
theorem TwinDocuments.lookup (h : TwinDocuments secret stored next next') (key : String) :
    next.lookup key = next'.lookup key ∨ ∃ s t, next.lookup key = some (.str s) ∧ next'.lookup key = some (.str t) ∧
      NewSecret stored key s ∧ NewSecret stored key t := by
  induction h with
  | nil => exact .inl rfl
  | @cons f g next next' hf _ ih =>
    obtain ⟨k, u⟩ := f
    obtain ⟨k', u'⟩ := g
    obtain ⟨hk, hu⟩ := hf
    change k = k' at hk
    subst hk
    by_cases hkey : key = k
    · subst hkey
      rw [List.lookup_cons_self, List.lookup_cons_self]
      rcases hu with hu | ⟨-, s, t, hs, ht, hnew⟩
      · exact .inl (congrArg some hu)
      · exact .inr ⟨s, t, congrArg some hs, congrArg some ht, hnew⟩
    · rw [List.lookup_cons, List.lookup_cons, beq_false_of_ne hkey]
      exact ih

theorem eq_of_deepEqual_str {v : Value} {s : String} (h : v.deepEqual (.str s) = true) : v = .str s := by
  cases v with
  | str t =>
    rw [Value.deepEqual] at h
    rw [eq_of_beq h]
  | _ => simp [Value.deepEqual] at h

/-- A new text is not the same as what is stored. -/
theorem NewSecret.differs {key s : String} {v : Value} (h : NewSecret stored key s) (hv : (key, v) ∈ stored) :
    v.deepEqual (.str s) = false := by
  cases hequal : v.deepEqual (.str s) with
  | false => rfl
  | true => exact (h.fresh (eq_of_deepEqual_str hequal ▸ hv)).elim

theorem deepEqualFields_twins {config : Record} (hconfig : ∀ f ∈ config, f ∈ stored)
    (h : TwinDocuments secret stored next next') :
    Value.deepEqualFields config next' = Value.deepEqualFields config next := by
  induction config with
  | nil => rfl
  | cons f config ih =>
    obtain ⟨key, v⟩ := f
    rw [Value.deepEqualFields, Value.deepEqualFields, ih fun f hf => hconfig f (List.mem_cons_of_mem _ hf)]
    congr 1
    rw [Value.deepEqualField, Value.deepEqualField]
    rcases h.lookup key with hsame | ⟨s, t, hs, ht, hnew, hnew'⟩
    · rw [hsame]
    · have hv := hconfig _ List.mem_cons_self
      rw [hs, ht]
      exact (hnew'.differs hv).trans (hnew.differs hv).symm

/-- Whether a document is as it was stored does not tell the texts apart. -/
theorem deepEqual_twins {config : Record} (hconfig : ∀ f ∈ config, f ∈ stored)
    (h : TwinDocuments secret stored next next') :
    (Value.obj config).deepEqual (.obj next') = (Value.obj config).deepEqual (.obj next) := by
  rw [Value.deepEqual, Value.deepEqual, deepEqualFields_twins hconfig h, h.length_eq]

theorem sameField_twins {config : Record} (hconfig : ∀ f ∈ config, f ∈ stored)
    (h : TwinDocuments secret stored next next') (key : String) :
    sameField (config.lookup key) (next'.lookup key) = sameField (config.lookup key) (next.lookup key) := by
  rcases h.lookup key with hsame | ⟨s, t, hs, ht, hnew, hnew'⟩
  · rw [hsame]
  · rw [hs, ht]
    cases hv : config.lookup key with
    | none => rfl
    | some v =>
      have hv := hconfig _ (Record.mem_of_lookup hv)
      exact (hnew'.differs hv).trans (hnew.differs hv).symm

end

/-! ### One write -/

section

variable {o : ProductWriteOptions} {actor : Actor} {session : ProductMutation} {stored : Record}

theorem alike_override {secret : String → Prop} {service : String} {next next' : Record}
    {changes changes' : List (String × Option Value)} (hnext : TwinDocuments secret stored next next')
    (h : TwinChanges secret stored changes changes') :
    Alike service (TwinDocuments secret stored) (ProductMutation.override next changes)
      (ProductMutation.override next' changes') := by
  induction h generalizing next next' with
  | nil => exact hnext
  | @cons f g changes changes' hf _ ih =>
    obtain ⟨key, v⟩ := f
    obtain ⟨key', w⟩ := g
    obtain ⟨hkey, hv⟩ := hf
    change key = key' at hkey
    subst hkey
    unfold ProductMutation.override
    rcases hv with hv | ⟨v', w', hv, hw, htwins⟩
    · change v = w at hv
      subst hv
      cases v with
      | none => rfl
      | some v => exact alike_ite (fun _ => rfl) fun _ => ih (hnext.set (.inl rfl))
    · change v = some v' at hv
      change w = some w' at hw
      subst hv hw
      exact alike_ite (fun _ => rfl) fun _ => ih (hnext.set htwins)

/-- The key is a secret text of the product. -/
def ProductMutation.SecretText (session : ProductMutation) (key : String) : Prop :=
  ∃ schema definition, session.schemas.services.lookup session.service = some schema ∧
    schema.definitions.lookup key = some definition ∧ definition.secret = true ∧ definition.type = .string

/-- No complaint of the validator tells the texts apart. -/
theorem validate_twins {next next' : Record} (h : TwinDocuments session.SecretText stored next next') :
    session.schemas.validate session.service session.options.rt next' =
      session.schemas.validate session.service session.options.rt next := by
  unfold SchemaSet.validate
  cases hs : session.schemas.services.lookup session.service with
  | none => rfl
  | some schema =>
    show next'.filterMap _ = next.filterMap _
    induction h with
    | nil => rfl
    | @cons f g next next' hf _ ih =>
      obtain ⟨key, v⟩ := f
      obtain ⟨key', w⟩ := g
      obtain ⟨hkey, hv⟩ := hf
      change key = key' at hkey
      subst hkey
      have hentry : SchemaSet.checkEntry session.service session.options.rt schema.definitions (key, w) =
          SchemaSet.checkEntry session.service session.options.rt schema.definitions (key, v) := by
        rcases hv with hv | ⟨⟨schema', definition, hs', hdefinition, -, htype⟩, s, t, hv, hw, hnew, hnew'⟩
        · change v = w at hv
          rw [hv]
        · rw [hs] at hs'
          obtain rfl := Option.some.inj hs'
          change v = .str s at hv
          change w = .str t at hw
          subst hv hw
          have haccepted : ∀ u, sopsEncrypted u = false →
              checkValue session.options.rt key definition (.str u) = none := by
            intro u hu
            rw [checkValue, hu, if_neg Bool.false_ne_true, checkType, htype]
          unfold SchemaSet.checkEntry
          rw [hdefinition]
          dsimp only
          rw [haccepted s hnew.plain, haccepted t hnew'.plain]
      rw [List.filterMap_cons, List.filterMap_cons, hentry, ih]

/-- A value that sops has encrypted. -/
def isCiphertext : Option Value → Bool
  | some (.str s) => sopsEncrypted s
  | _ => false

/-- Two outputs that agree on the keys whose values agree, and are both ciphertext or both not at the others. -/
def AlikeOutputs (value value' : Record) : Value → Value → Prop
  | .obj encrypted, .obj encrypted' => ∀ key,
    (value.lookup key = value'.lookup key → encrypted.lookup key = encrypted'.lookup key) ∧
      (value.lookup key ≠ value'.lookup key →
        isCiphertext (encrypted.lookup key) = isCiphertext (encrypted'.lookup key))
  | v, v' => (∀ encrypted, v ≠ .obj encrypted) ∧ ∀ encrypted, v' ≠ .obj encrypted

/-- Both fail, with any errors, or both succeed, with results that are related. -/
def Corresponds {α : Type} (R : α → α → Prop) : Except Error α → Except Error α → Prop
  | .ok a, .ok b => R a b
  | .error _, .error _ => True
  | _, _ => False

/-- What the encryptor answers to two documents of an environment is alike. -/
def AlikeEncrypted (o : ProductWriteOptions) (service environment : String) (value value' : Record) : Prop :=
  Corresponds (fun source source' => Corresponds (AlikeOutputs value value') (o.rt.parseYaml source) (o.rt.parseYaml source'))
    (o.encrypt (namespaceText service environment) (o.rt.stringifyYaml (.obj (ProductMutation.ordered value))))
    (o.encrypt (namespaceText service environment) (o.rt.stringifyYaml (.obj (ProductMutation.ordered value'))))

/-- Both answers of the encryptor or neither have the digest of the file. -/
def AlikeDigests (o : ProductWriteOptions) (files : Files) (service environment : String) (value value' : Record) : Prop :=
  ∀ source source',
    o.encrypt (namespaceText service environment) (o.rt.stringifyYaml (.obj (ProductMutation.ordered value))) = .ok source →
    o.encrypt (namespaceText service environment) (o.rt.stringifyYaml (.obj (ProductMutation.ordered value'))) = .ok source' →
    (some (o.contentHash source) = etag o.contentHash files (documentPath service environment) ↔
      some (o.contentHash source') = etag o.contentHash files (documentPath service environment))

theorem alikeEncrypted_of_ok {service environment source source' : String} {value value' : Record} {v v' : Value}
    (hs : o.encrypt (namespaceText service environment)
      (o.rt.stringifyYaml (.obj (ProductMutation.ordered value))) = .ok source)
    (hs' : o.encrypt (namespaceText service environment)
      (o.rt.stringifyYaml (.obj (ProductMutation.ordered value'))) = .ok source')
    (hv : o.rt.parseYaml source = .ok v) (hv' : o.rt.parseYaml source' = .ok v')
    (h : AlikeOutputs value value' v v') : AlikeEncrypted o service environment value value' := by
  unfold AlikeEncrypted
  rw [hs, hs']
  show Corresponds (AlikeOutputs value value') (o.rt.parseYaml source) (o.rt.parseYaml source')
  rw [hv, hv']
  exact h

theorem secretKept_eq (value encrypted : Record) (key : String) :
    ProductMutation.secretKept value encrypted key =
      (isEmptySecret (value.lookup key) && isEmptySecret (encrypted.lookup key) || isCiphertext (encrypted.lookup key)) := by
  unfold ProductMutation.secretKept isCiphertext
  rfl

theorem isEmptySecret_text {text : String} (h : text ≠ "") : isEmptySecret (some (.str text)) = false := by
  unfold isEmptySecret
  split
  · contradiction
  · rename_i heq
    cases Option.some.inj heq
  · rename_i heq
    exact (h (Value.str.inj (Option.some.inj heq))).elim
  · rfl

theorem secretKept_twins {secret : String → Prop} {value value' encrypted encrypted' : Record}
    (h : TwinDocuments secret stored value value')
    (houtputs : AlikeOutputs value value' (.obj encrypted) (.obj encrypted')) (key : String) :
    ProductMutation.secretKept value' encrypted' key = ProductMutation.secretKept value encrypted key := by
  obtain ⟨hagree, hcipher⟩ := houtputs key
  rw [secretKept_eq, secretKept_eq]
  rcases h.lookup key with hsame | ⟨s, t, hs, ht, hnew, hnew'⟩
  · rw [← hagree hsame, hsame]
  · by_cases hequal : value.lookup key = value'.lookup key
    · rw [← hagree hequal, hequal]
    · rw [hs, ht, isEmptySecret_text hnew.nonempty, isEmptySecret_text hnew'.nonempty, hcipher hequal]
      rfl

/-- The encryptor is told the documents, and what is made of its answers does not tell them apart. -/
theorem alike_encode {environment : String} {value value' : Record} {schemas : SchemaSet}
    {secret : String → Prop} (h : TwinDocuments secret stored value value')
    (hversion : value.lookup "version" = value'.lookup "version")
    (halike : AlikeEncrypted session.options session.service environment value value') :
    Alike session.service (fun source source' => session.options.encrypt (namespaceText session.service environment)
          (session.options.rt.stringifyYaml (.obj (ProductMutation.ordered value))) = .ok source ∧
        session.options.encrypt (namespaceText session.service environment)
          (session.options.rt.stringifyYaml (.obj (ProductMutation.ordered value'))) = .ok source')
      (session.encode environment value schemas) (session.encode environment value' schemas) := by
  unfold ProductMutation.encode
  rw [hversion]
  refine alike_ite (fun _ => rfl) fun _ => ?_
  unfold AlikeEncrypted at halike
  revert halike
  cases session.options.encrypt (namespaceText session.service environment)
      (session.options.rt.stringifyYaml (.obj (ProductMutation.ordered value))) with
  | error e =>
    cases session.options.encrypt (namespaceText session.service environment)
        (session.options.rt.stringifyYaml (.obj (ProductMutation.ordered value'))) with
    | error e' => exact fun _ => rfl
    | ok source' => exact False.elim
  | ok source =>
    cases session.options.encrypt (namespaceText session.service environment)
        (session.options.rt.stringifyYaml (.obj (ProductMutation.ordered value'))) with
    | error e' => exact False.elim
    | ok source' =>
      intro halike
      change Corresponds _ (session.options.rt.parseYaml source) (session.options.rt.parseYaml source') at halike
      show Alike session.service _ (lift (session.options.rt.parseYaml source) >>= _)
        (lift (session.options.rt.parseYaml source') >>= _)
      refine alike_bind (R := AlikeOutputs value value') ?_ fun v v' _ _ hv => ?_
      · revert halike
        cases session.options.rt.parseYaml source <;> cases session.options.rt.parseYaml source'
        · exact fun _ => rfl
        · exact False.elim
        · exact False.elim
        · exact id
      · cases v with
        | obj encrypted =>
          cases v' with
          | obj encrypted' =>
            have hkeys : (configOnly value').keys = (configOnly value).keys :=
              TwinDocuments.keys_eq (h.filter fun k => !isMetadataKey k)
            have hkept : (configOnly value').keys.find? (fun key =>
                  schemas.isSecret session.service key && !ProductMutation.secretKept value' encrypted' key) =
                (configOnly value).keys.find? fun key =>
                  schemas.isSecret session.service key && !ProductMutation.secretKept value encrypted key := by
              rw [hkeys]
              congr 1
              funext key
              rw [secretKept_twins h hv key]
            dsimp only
            rw [hkept]
            split
            · rfl
            · exact ⟨rfl, rfl⟩
          | _ => exact (hv.1 encrypted rfl).elim
        | _ =>
          cases v' with
          | obj encrypted' => exact (hv.2 encrypted' rfl).elim
          | _ => rfl

/-- Two plans that differ in contents only. -/
structure SamePlan (contentHash : String → String) (plan plan' : Plan) : Prop where
  writes : List.Forall₂ (SameRequest contentHash) plan.writes plan'.writes
  reads : plan'.reads = plan.reads

theorem TwinChanges.keys_eq {secret : String → Prop} {changes changes' : List (String × Option Value)}
    (h : TwinChanges secret stored changes changes') : changes'.map Prod.fst = changes.map Prod.fst := by
  induction h with
  | nil => rfl
  | cons hf _ ih => exact List.cons_eq_cons.2 ⟨hf.1.symm, ih⟩

theorem alike_values {environment : String} {changes changes' : List (String × Option Value)}
    {expectedEtag : Option (Option String)}
    (hchanges : ∀ current, session.document environment = .ok current →
      TwinChanges session.SecretText current changes changes')
    (halike : ∀ current next next', session.document environment = .ok current →
      ProductMutation.override (configOnly current) changes = .ok next →
      ProductMutation.override (configOnly current) changes' = .ok next' →
      AlikeEncrypted session.options session.service environment (nextVersion current next) (nextVersion current next') ∧
        AlikeDigests session.options session.files session.service environment (nextVersion current next)
          (nextVersion current next')) :
    Alike session.service (SamePlan session.options.contentHash)
      (session.values environment changes expectedEtag) (session.values environment changes' expectedEtag) := by
  unfold ProductMutation.values
  refine alike_ite (fun _ => rfl) fun _ => alike_ite (fun _ => rfl) fun _ => ?_
  refine alike_bind_self fun current hcurrent => ?_
  have hchanges := hchanges current hcurrent
  have hconfig : ∀ f ∈ configOnly current, f ∈ current := fun f hf => (List.mem_filter.1 hf).1
  refine alike_bind (alike_override (twinDocuments_refl _) hchanges) fun next next' hnext hnext' htwins => ?_
  obtain ⟨halike, hdigest⟩ := halike current next next' hcurrent hnext hnext'
  dsimp only
  rw [validate_twins htwins, deepEqual_twins hconfig htwins]
  refine alike_ite (fun _ => rfl) fun _ => alike_ite (fun _ => ⟨.nil, rfl⟩) fun _ => ?_
  have hvalue : TwinDocuments session.SecretText current (nextVersion current next) (nextVersion current next') :=
    htwins.set (.inl rfl)
  have hversion : (nextVersion current next).lookup "version" = (nextVersion current next').lookup "version" := by
    unfold nextVersion
    rw [Record.lookup_set_self, Record.lookup_set_self]
  refine alike_bind (alike_encode hvalue hversion halike) fun source source' _ _ hsources => ?_
  have hchanged : (changes'.map Prod.fst).filter (fun key =>
        !sameField ((configOnly current).lookup key) ((nextVersion current next').lookup key)) =
      (changes.map Prod.fst).filter fun key =>
        !sameField ((configOnly current).lookup key) ((nextVersion current next).lookup key) := by
    rw [hchanges.keys_eq]
    congr 1
    funext key
    rw [sameField_twins hconfig hvalue key]
  refine ⟨.cons ⟨rfl, rfl, rfl, ?_, _, rfl, hdigest source source' hsources.1 hsources.2⟩ .nil, rfl⟩
  show (if (List.filter _ (changes'.map Prod.fst)).isEmpty then changes'.map Prod.fst else List.filter _ (changes'.map Prod.fst)) =
    if (List.filter _ (changes.map Prod.fst)).isEmpty then changes.map Prod.fst else List.filter _ (changes.map Prod.fst)
  unfold nextVersion at hchanged
  rw [hchanged, hchanges.keys_eq]

end

/-! ### The whole operation -/

section

variable (o : ProductWriteOptions) (actor : Actor) (files : Files) (db : Database)

/-- The files that the transaction intent of a commit records. -/
def ProductMutation.intent (host : Engine.Host) (session : ProductMutation) (plan : Plan) (db : Database) :
    List Engine.Mutation :=
  match (writeMany session.options.contentHash plan.writes
      ((session.compared plan).map fun path => { path, expectedEtag := session.etag path })
      [{ path := "config/" ++ session.service, files := session.listed }] db).1 with
  | .ok (.written _) => (changedRequests session.options.contentHash db plan.writes).map (Engine.mutationOf host)
  | _ => []

/-- What an operation gives to one of its plan, nothing where it is stopped before. -/
def Operation.fromPlan {α : Type} (op : Operation) (f : ProductMutation → Plan → List α) : List α :=
  if !identifier op.service then []
  else
    match ProductMutation.create o op.service actor files with
    | .error _ => []
    | .ok session =>
      match op.action session with
      | .error _ => []
      | .ok plan => f session plan

/-- The files that the transaction intent of an operation records. -/
def Operation.intentFrom (op : Operation) (host : Engine.Host) : List Engine.Mutation :=
  op.fromPlan o actor files fun session plan => session.intent host plan db

theorem Operation.eventsFrom_eq (op : Operation) :
    op.eventsFrom o actor files db = op.fromPlan o actor files fun session plan => session.events plan db := rfl

/-- The key is a text that the product keeps secret. -/
def SecretText (service key : String) : Prop :=
  ∃ schema definition, Declares o.rt files service schema ∧ schema.definitions.lookup key = some definition ∧
    definition.secret = true ∧ definition.type = .string

/-- The changes are those of the request, but for texts that secrets are newly set to. -/
def OtherSecrets (r : WriteRequest) (changes' : List (String × Option Value)) : Prop :=
  List.Forall₂ (fun f g => f.1 = g.1 ∧ (f.2 = g.2 ∨ SecretText o files r.service f.1 ∧
    ∃ s t, f.2 = some (.str s) ∧ g.2 = some (.str t) ∧ ∀ stored, Resolved o files r.service r.environment stored →
      NewSecret stored f.1 s ∧ NewSecret stored f.1 t)) r.changes changes'

/-- The document that a write gives to the encryptor, where it gets so far. -/
def Proposed (r : WriteRequest) (value : Record) : Prop :=
  ∃ current next, Resolved o files r.service r.environment current ∧
    ProductMutation.override (configOnly current) r.changes = .ok next ∧ value = nextVersion current next

/-- The caller is answered the same, and the same is recorded, but for the digests of the contents. -/
structure Undisclosed (host : Engine.Host) (op op' : Operation) : Prop where
  outcome : (op'.performFrom o actor files db).1 = (op.performFrom o actor files db).1
  events : (op'.eventsFrom o actor files db).map (fun e => (e.path, e.actor, e.keys)) =
    (op.eventsFrom o actor files db).map fun e => (e.path, e.actor, e.keys)
  intent : (op'.intentFrom o actor files db host).map (fun m => (m.path, m.actor, m.keys)) =
    (op.intentFrom o actor files db host).map fun m => (m.path, m.actor, m.keys)

end

section

variable {o : ProductWriteOptions} {actor : Actor} {files : Files} {db : Database} {session : ProductMutation}
  {plan plan' : Plan} {host : Engine.Host}

theorem fresh_of_written {contentHash : String → String} {requests : List MutationRequest} {checks : List ReadPrecondition}
    {collections : List CollectionPrecondition} {revision : Nat}
    (h : (writeMany contentHash requests checks collections db).1 = .ok (.written revision)) :
    staleRequest contentHash db requests = none := by
  cases hstale : staleRequest contentHash db requests with
  | none => rfl
  | some conflict =>
    unfold writeMany at h
    rw [hstale] at h
    dsimp only at h
    split at h
    · cases h
    split at h
    · cases h
    split at h
    · cases h
    · have hconflict : conflict = .written revision := Except.ok.inj h
      unfold staleRequest at hstale
      obtain ⟨w, -, hw⟩ := Option.map_eq_some_iff.1 hstale
      rw [hconflict] at hw
      cases hw

theorem compared_congr (h : SamePlan session.options.contentHash plan plan') :
    session.compared plan' = session.compared plan := by
  unfold ProductMutation.compared
  rw [h.reads]

theorem commit_congr (h : SamePlan session.options.contentHash plan plan') :
    (session.commit plan' db).1 = (session.commit plan db).1 := by
  have hkeys : plan'.writes.map MutationRequest.keys = plan.writes.map MutationRequest.keys :=
    map_of_sameRequests (fun _ _ hw => hw.keys) h.writes
  have hresult := @writeMany_congr session.options.contentHash _ _ db
    ((session.compared plan).map fun path => { path, expectedEtag := session.etag path })
    [{ path := "config/" ++ session.service, files := session.listed }] h.writes
  unfold ProductMutation.compared ProductMutation.listed at hresult
  unfold ProductMutation.commit
  rw [h.reads, List.flatMap_def, List.flatMap_def, hkeys]
  dsimp only
  generalize writeMany _ plan'.writes _ _ _ = written' at hresult ⊢
  generalize writeMany _ plan.writes _ _ _ = written at hresult ⊢
  obtain ⟨result, db₁⟩ := written
  obtain ⟨result', db₂⟩ := written'
  change result' = result at hresult
  subst hresult
  cases result' with
  | error e => rfl
  | ok result => cases result <;> rfl

theorem events_congr (h : SamePlan session.options.contentHash plan plan') :
    (session.events plan' db).map (fun e => (e.path, e.actor, e.keys)) =
      (session.events plan db).map fun e => (e.path, e.actor, e.keys) := by
  unfold ProductMutation.events writeEvents
  rw [compared_congr h, writeMany_congr h.writes]
  split
  · rename_i revision hwritten
    rw [List.map_map, List.map_map]
    refine map_of_sameRequests (fun w w' hw => ?_) (changedRequests_congr (fresh_of_written hwritten) h.writes)
    show (w'.path, w'.actor, w'.keys) = (w.path, w.actor, w.keys)
    rw [hw.path, hw.actor, hw.keys]
  · rfl

theorem intent_congr (h : SamePlan session.options.contentHash plan plan') :
    (session.intent host plan' db).map (fun m => (m.path, m.actor, m.keys)) =
      (session.intent host plan db).map fun m => (m.path, m.actor, m.keys) := by
  unfold ProductMutation.intent
  rw [compared_congr h, writeMany_congr h.writes]
  split
  · rename_i revision hwritten
    rw [List.map_map, List.map_map]
    refine map_of_sameRequests (fun w w' hw => ?_) (changedRequests_congr (fresh_of_written hwritten) h.writes)
    show (w'.path, (if w'.actor = "" then none else some w'.actor), w'.keys) =
      (w.path, (if w.actor = "" then none else some w.actor), w.keys)
    rw [hw.path, hw.actor, hw.keys]
  · rfl

theorem alike_writeValues {r : WriteRequest} {changes' : List (String × Option Value)}
    (hopen : Opened o r.service actor files session) (hchanges : OtherSecrets o files r changes')
    (halike : ∀ value value', Proposed o files r value → Proposed o files { r with changes := changes' } value' →
      AlikeEncrypted o r.service r.environment value value' ∧
        AlikeDigests o files r.service r.environment value value') :
    Alike r.service (SamePlan o.contentHash) (writeValues r session)
      (writeValues { r with changes := changes' } session) := by
  obtain ⟨rfl, hservice, -, rfl, -, -, -⟩ := id hopen
  unfold writeValues
  rw [← hservice]
  refine alike_bind_self fun identity _ => alike_values (fun current hcurrent => ?_) fun current next next' hcurrent hnext hnext' => ?_
  · have hresolved := (document_eq_ok hcurrent).2
    rw [hservice] at hresolved
    refine hchanges.imp fun f g hf => ⟨hf.1, ?_⟩
    rcases hf.2 with hsame | ⟨⟨schema, definition, hdeclares, hsecret⟩, s, t, hs, ht, hnew⟩
    · exact .inl hsame
    · refine .inr ⟨_, _, hs, ht, .inr ⟨⟨schema, definition, ?_, hsecret⟩, s, t, rfl, rfl, hnew current hresolved⟩⟩
      rw [hservice]
      exact hopen.declares.2 hdeclares
  · have hresolved := (document_eq_ok hcurrent).2
    rw [hservice] at hresolved ⊢
    exact halike _ _ ⟨current, next, hresolved, hnext, rfl⟩ ⟨current, next', hresolved, hnext', rfl⟩

section

variable {service : String} {action action' : ProductMutation → Attempt Plan}

theorem runFrom_congr (h : ∀ session, ProductMutation.create o service actor files = .ok session →
    Alike service (SamePlan session.options.contentHash) (action session) (action' session)) :
    (runFrom o service actor action' files db).1 = (runFrom o service actor action files db).1 := by
  unfold runFrom
  split
  · rfl
  cases hsession : ProductMutation.create o service actor files with
  | error e => rfl
  | ok session =>
    have halike := h session hsession
    revert halike
    dsimp only
    cases action session <;> cases action' session
    · exact fun halike => congrArg Except.error halike.symm
    · exact False.elim
    · exact False.elim
    · rename_i plan plan'
      intro halike
      have hcommit := @commit_congr db _ _ _ halike
      dsimp only
      generalize session.commit plan db = committed at hcommit ⊢
      generalize session.commit plan' db = committed' at hcommit ⊢
      obtain ⟨answer, db₁⟩ := committed
      obtain ⟨answer', db₂⟩ := committed'
      change answer' = answer at hcommit
      subst hcommit
      cases answer' with
      | error e => rfl
      | ok outcome =>
        cases outcome with
        | error failure => rfl
        | ok result =>
          dsimp only
          cases o.onCommitted <;> rfl

/-- What is made of two plans is the same where it does not depend on their contents. -/
theorem fromPlan_congr {α β : Type} {op op' : Operation} {f : ProductMutation → Plan → List α} {g : α → β}
    (hservice : op'.service = op.service)
    (hf : ∀ session plan plan', SamePlan session.options.contentHash plan plan' →
      (f session plan').map g = (f session plan).map g)
    (h : ∀ session, ProductMutation.create o op.service actor files = .ok session →
      Alike op.service (SamePlan session.options.contentHash) (op.action session) (op'.action session)) :
    (op'.fromPlan o actor files f).map g = (op.fromPlan o actor files f).map g := by
  unfold Operation.fromPlan
  rw [hservice]
  split
  · rfl
  cases hsession : ProductMutation.create o op.service actor files with
  | error e => rfl
  | ok session =>
    have halike := h session hsession
    revert halike
    dsimp only
    cases op.action session <;> cases op'.action session
    · exact fun _ => rfl
    · exact False.elim
    · exact False.elim
    · exact fun halike => hf session _ _ halike

end

/-- What is answered and recorded of a write does not tell what text a secret is set to. -/
theorem secret_texts_are_undisclosed {r : WriteRequest} {changes' : List (String × Option Value)}
    (hchanges : OtherSecrets o files r changes')
    (hencrypted : ∀ value value', Proposed o files r value → Proposed o files { r with changes := changes' } value' →
      AlikeEncrypted o r.service r.environment value value')
    (hdigests : ∀ value value', Proposed o files r value → Proposed o files { r with changes := changes' } value' →
      AlikeDigests o files r.service r.environment value value') :
    Undisclosed o actor files db host (.writeValues r) (.writeValues { r with changes := changes' }) := by
  have hall : ∀ session, ProductMutation.create o r.service actor files = .ok session →
      Alike r.service (SamePlan session.options.contentHash) (writeValues r session)
        (writeValues { r with changes := changes' } session) := by
    intro session hsession
    have hopen := create_eq_ok hsession
    rw [hopen.options_eq]
    exact alike_writeValues hopen hchanges fun value value' hvalue hvalue' =>
      ⟨hencrypted value value' hvalue hvalue', hdigests value value' hvalue hvalue'⟩
  constructor
  · exact runFrom_congr hall
  · exact fromPlan_congr rfl (fun _ _ _ hplan => events_congr hplan) hall
  · exact fromPlan_congr rfl (fun _ _ _ hplan => intent_congr hplan) hall

end

/-! ### Setting one secret to two texts -/

/-- A document with a sealed secret, as it is stored. -/
def sealedDocument (data : String) (version : Nat) : Record :=
  [("TOKEN", .str ("ENC[AES256_GCM," ++ data)), ("version", .num (.ofNat version))]

def sealedText (data : String) (version : Nat) : String := jsonRuntime.stringifyYaml (.obj (sealedDocument data version))

def openText (token : String) (version : Nat) : String :=
  jsonRuntime.stringifyYaml (.obj [("TOKEN", .str token), ("version", .num (.ofNat version))])

/-- The product, with a secret that is set. -/
def sealedRegistry : Database where
  files := webRegistry.files.insert "config/web/dev.yaml" (sealedText "old" 1)
  revision := 2

def setToken (token : String) : WriteRequest where
  service := "web"
  environment := "dev"
  changes := [("TOKEN", some (.str token))]

/-- A service that decrypts the stored document, and encrypts one document to one text and all others to another. -/
def sealingOptions (first other : String) : ProductWriteOptions :=
  { plainOptions with
    decrypt := fun _ source => .ok (if source = sealedText "old" 1 then openText "old" 1 else source)
    encrypt := fun _ text => .ok (if text = openText "blue" 2 then first else other) }

def plainHost : Engine.Host where
  contentHash := id
  uuid n := toString n
  pid := "1"
  encode _ := ""
  decode _ := .error (.of "SyntaxError")

theorem lookup_webSchema :
    webRegistry.files.lookup (schemaPath "web") = some (jsonRuntime.stringifyYaml webSchema) := by
  unfold webRegistry
  rw [AList.lookup_insert_ne (by decide), AList.lookup_insert_ne (by decide)]
  exact AList.lookup_insert _

theorem secretText_token (first other : String) :
    SecretText (sealingOptions first other) sealedRegistry.files "web" "TOKEN" := by
  have hschema : (ProductSchema.ofSource jsonRuntime "web" (jsonRuntime.stringifyYaml webSchema)).toOption.any
      (fun schema => (schema.definitions.lookup "TOKEN").any fun definition =>
        definition.secret && decide (definition.type = .string)) = true := by decide +kernel
  obtain ⟨schema, hschema, htoken⟩ := (Option.any_eq_true _ _).1 hschema
  obtain ⟨definition, hdefinition, htype⟩ := (Option.any_eq_true _ _).1 htoken
  rw [Bool.and_eq_true, decide_eq_true_eq] at htype
  have hfile : sealedRegistry.files.lookup (schemaPath "web") = some (jsonRuntime.stringifyYaml webSchema) := by
    unfold sealedRegistry
    rw [AList.lookup_insert_ne (by decide)]
    exact lookup_webSchema
  have hof : ProductSchema.ofSource jsonRuntime "web" (jsonRuntime.stringifyYaml webSchema) = .ok schema := by
    revert hschema
    cases ProductSchema.ofSource jsonRuntime "web" (jsonRuntime.stringifyYaml webSchema) with
    | ok s => exact fun hschema => congrArg Except.ok (Option.some.inj hschema)
    | error e => exact fun hschema => by cases hschema
  exact ⟨schema, definition, ⟨productName_of_identifier (by decide), _, hfile, hof⟩, hdefinition, htype⟩

/-- Of the stored document only the old text is known. -/
theorem fresh_of_resolved {first other token : String} {stored : Record} (htoken : token ≠ "old")
    (h : Resolved (sealingOptions first other) sealedRegistry.files "web" "dev" stored) :
    ("TOKEN", Value.str token) ∉ stored := by
  have hfile : sealedRegistry.files.lookup (documentPath "web" "dev") = some (sealedText "old" 1) :=
    AList.lookup_insert _
  have hread : (ProductMutation.resolveOne (sealingOptions "" "") (namespaceText "web" "dev")
      (sealedText "old" 1)).toOption.any (fun stored => stored.all fun f =>
        f.2.deepEqual (.str "old") || f.1 != "TOKEN") = true := by decide +kernel
  rcases h with ⟨hnone, -⟩ | ⟨source, hsource, hresolved⟩
  · rw [hfile] at hnone
    cases hnone
  · rw [hfile, Option.some_inj] at hsource
    subst hsource
    have hsame : ProductMutation.resolveOne (sealingOptions "" "") (namespaceText "web" "dev") (sealedText "old" 1) =
      .ok stored := hresolved
    rw [hsame] at hread
    intro hmem
    have hold := List.all_eq_true.1 hread _ hmem
    rw [Bool.or_eq_true] at hold
    rcases hold with hold | hold
    · exact htoken (Value.str.inj (eq_of_deepEqual_str hold))
    · cases hold

theorem otherSecrets_token (first other : String) : OtherSecrets (sealingOptions first other) sealedRegistry.files
    (setToken "blue") (setToken "green").changes := by
  refine .cons ⟨rfl, .inr ⟨secretText_token first other, "blue", "green", rfl, rfl, fun stored hstored => ?_⟩⟩ .nil
  exact ⟨⟨by decide, by decide, fresh_of_resolved (by decide) hstored⟩,
    ⟨by decide, by decide, fresh_of_resolved (by decide) hstored⟩⟩

/-- The documents that are given to the encryptor have the two texts. -/
theorem lookup_of_proposed {o : ProductWriteOptions} {files : Files} {token : String} {value : Record}
    (h : Proposed o files (setToken token) value) : value.lookup "TOKEN" = some (.str token) := by
  obtain ⟨current, next, -, hnext, rfl⟩ := h
  obtain ⟨rfl, -, -⟩ := override_eq_ok hnext
  rw [lookup_nextVersion_ne _ _ (by decide), lookup_foldl_set]
  rfl

theorem alikeOutputs_sealed {value value' : Record} {data data' : String} {version : Nat}
    (h : value.lookup "TOKEN" ≠ value'.lookup "TOKEN") :
    AlikeOutputs value value' (.obj (sealedDocument data version)) (.obj (sealedDocument data' version)) := by
  intro key
  by_cases hkey : key = "TOKEN"
  · subst hkey
    refine ⟨fun hsame => (h hsame).elim, fun _ => ?_⟩
    have hcipher : ∀ data, isCiphertext ((sealedDocument data version).lookup "TOKEN") = true := fun data =>
      startsWith_iff.2 ⟨data, rfl⟩
    rw [hcipher, hcipher]
  · have hlookup : ∀ data, (sealedDocument data version).lookup key =
        List.lookup key [("version", Value.num (.ofNat version))] := by
      intro data
      unfold sealedDocument
      rw [List.lookup_cons, beq_false_of_ne hkey]
    refine ⟨fun _ => ?_, fun _ => ?_⟩
    all_goals rw [hlookup, hlookup]

/-- The answers are alike, whichever sealed text each of them is. -/
theorem alikeEncrypted_sealed {o : ProductWriteOptions} {files : Files} {version : Nat} {value value' : Record}
    (hrt : o.rt = jsonRuntime) (hanswer : ∀ ns text, ∃ data, o.encrypt ns text = .ok (sealedText data version))
    (hvalue : Proposed o files (setToken "blue") value) (hvalue' : Proposed o files (setToken "green") value') :
    AlikeEncrypted o "web" "dev" value value' := by
  have hne : value.lookup "TOKEN" ≠ value'.lookup "TOKEN" := by
    rw [lookup_of_proposed hvalue, lookup_of_proposed hvalue']
    simp
  have hparse : ∀ data, o.rt.parseYaml (sealedText data version) = .ok (.obj (sealedDocument data version)) := by
    intro data
    unfold sealedText
    rw [hrt, parse_stringify]
  obtain ⟨data, hdata⟩ := hanswer (namespaceText "web" "dev")
    (o.rt.stringifyYaml (.obj (ProductMutation.ordered value)))
  obtain ⟨data', hdata'⟩ := hanswer (namespaceText "web" "dev")
    (o.rt.stringifyYaml (.obj (ProductMutation.ordered value')))
  exact alikeEncrypted_of_ok hdata hdata' (hparse data) (hparse data') (alikeOutputs_sealed hne)

theorem encrypt_sealing (first other ns text : String) :
    (sealingOptions first other).encrypt ns text = .ok first ∨ (sealingOptions first other).encrypt ns text = .ok other := by
  by_cases htext : text = openText "blue" 2
  · exact .inl (congrArg Except.ok (if_pos htext))
  · exact .inr (congrArg Except.ok (if_neg htext))

theorem secret_texts_are_undisclosed_token : Undisclosed (sealingOptions (sealedText "1" 2) (sealedText "2" 2))
    { email := "ops@example.com", id := "ops" } sealedRegistry.files sealedRegistry plainHost
    (.writeValues (setToken "blue")) (.writeValues (setToken "green")) := by
  have hanswer : ∀ ns text, ∃ data,
      (sealingOptions (sealedText "1" 2) (sealedText "2" 2)).encrypt ns text = .ok (sealedText data 2) := fun ns text =>
    (encrypt_sealing _ _ ns text).elim (fun h => ⟨_, h⟩) fun h => ⟨_, h⟩
  refine secret_texts_are_undisclosed (otherSecrets_token _ _)
    (fun value value' hvalue hvalue' => alikeEncrypted_sealed rfl hanswer hvalue hvalue')
    fun value value' _ _ source source' hsource hsource' => ?_
  -- Neither is the text of the file, which has the version before.
  have hdiffers : ∀ ns text source,
      (sealingOptions (sealedText "1" 2) (sealedText "2" 2)).encrypt ns text = .ok source →
        some source ≠ etag id sealedRegistry.files (documentPath "web" "dev") := by
    intro ns text source h
    have hfile : etag id sealedRegistry.files (documentPath "web" "dev") = some (sealedText "old" 1) := by decide +kernel
    rw [hfile]
    rcases encrypt_sealing (sealedText "1" 2) (sealedText "2" 2) ns text with hanswer | hanswer
    all_goals
      rw [hanswer] at h
      obtain rfl := Except.ok.inj h
      decide +kernel
  exact iff_of_false (hdiffers _ _ _ hsource) (hdiffers _ _ _ hsource')

/-- An encryptor may answer one of the texts with what the file holds already, and that one is not recorded. -/
theorem stored_answer_is_disclosed : ¬ ∀ (o : ProductWriteOptions) (actor : Actor) (files : Files) (db : Database)
    (host : Engine.Host) (r : WriteRequest) (changes' : List (String × Option Value)), OtherSecrets o files r changes' →
    (∀ value value', Proposed o files r value → Proposed o files { r with changes := changes' } value' →
      AlikeEncrypted o r.service r.environment value value') →
    Undisclosed o actor files db host (.writeValues r) (.writeValues { r with changes := changes' }) := by
  intro h
  have hanswer : ∀ ns text, ∃ data,
      (sealingOptions (sealedText "1" 1) (sealedText "old" 1)).encrypt ns text = .ok (sealedText data 1) := fun ns text =>
    (encrypt_sealing _ _ ns text).elim (fun h => ⟨_, h⟩) fun h => ⟨_, h⟩
  have hevents := (h (sealingOptions (sealedText "1" 1) (sealedText "old" 1)) { email := "ops@example.com", id := "ops" }
    sealedRegistry.files sealedRegistry plainHost (setToken "blue") (setToken "green").changes (otherSecrets_token _ _)
    fun value value' hvalue hvalue' => alikeEncrypted_sealed rfl hanswer hvalue hvalue').events
  have hblue : ((Operation.writeValues (setToken "blue")).eventsFrom
      (sealingOptions (sealedText "1" 1) (sealedText "old" 1)) { email := "ops@example.com", id := "ops" }
      sealedRegistry.files sealedRegistry).length = 1 := by decide +kernel
  have hgreen : ((Operation.writeValues (setToken "green")).eventsFrom
      (sealingOptions (sealedText "1" 1) (sealedText "old" 1)) { email := "ops@example.com", id := "ops" }
      sealedRegistry.files sealedRegistry).length = 0 := by decide +kernel
  have hlength := congrArg List.length hevents
  rw [List.length_map, List.length_map] at hlength
  have hsame : 0 = 1 := hgreen.symm.trans (hlength.trans hblue)
  cases hsame

end ConfigRegistry.Products
