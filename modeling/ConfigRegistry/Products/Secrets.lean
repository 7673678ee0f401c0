import ConfigRegistry.Products.Runs

/-!
# Secrets at rest

What a stored secret may be is told from what the encryptor was given: a ledger, beside the
database, keeps the last document that was given for each file and what was answered.
-/

namespace ConfigRegistry.Products

open Js Schema Store

variable {o : ProductWriteOptions} {actor : Actor} {op : Operation}

/-- A document that was given to the encryptor, and what it answered. -/
structure Encryption where
  document : Record
  answer : String

/-- The encryptions of files, and of the documents that an archive keeps for each environment. The
latest comes first. -/
abbrev Ledger : Type := List ((String × String) × Encryption)

/-- What a call gives to its encryptor, with the answers. -/
def Call.encryptions (o : ProductWriteOptions) (c : Call) (db : Database) : Ledger :=
  (c.operation.documents (c.options o) c.actor db).filterMap fun (environment, value) =>
    match c.encrypt (namespaceText c.operation.service environment)
      (o.rt.stringifyYaml (.obj (ProductMutation.ordered value))) with
    | .ok answer =>
      some ((documentPath c.operation.service environment, environment), ⟨value, answer⟩)
    | .error _ => none

/-- An archive keeps the documents of the product's files. -/
def archivedEntries (service : String) (ledger : Ledger) : Ledger :=
  ledger.filterMap fun ((path, environment), e) =>
    if path = documentPath service environment then some ((archivedPath service, environment), e)
    else none

/-- What a call that is carried out adds to the ledger. -/
def Call.entries (o : ProductWriteOptions) (c : Call) (db : Database) (ledger : Ledger) : Ledger :=
  match c.operation with
  | .archiveProduct service _ _ => archivedEntries service ledger
  | _ => c.encryptions o db

/-- The ledger after a call. -/
def Call.record (o : ProductWriteOptions) (c : Call) (db : Database) (ledger : Ledger) : Ledger :=
  if (c.perform o db).2.revision = db.revision then ledger else c.entries o db ledger ++ ledger

/-- The database and the ledger after some calls. -/
def afterRecorded (o : ProductWriteOptions) (calls : List Call) (s : Database × Ledger) :
    Database × Ledger :=
  calls.foldl (fun s c => ((c.perform o s.1).2, c.record o s.1 s.2)) s

/-- What may be stored of a secret that was given with the value `given`: nothing, an empty value, or
ciphertext that is not what was given. -/
def SealedValue (given held : Option Value) : Prop :=
  isEmptySecret held = true ∨ ∃ s, held = some (.str s) ∧ sopsEncrypted s = true ∧ given ≠ held

/-- A stored document is what the encryptor answered, and each of its secrets is sealed. -/
def SealedDocument (rt : Runtime) (ledger : Ledger) (place : String × String) (schema : ProductSchema)
    (source : String) : Prop :=
  ∃ e, ledger.lookup place = some e ∧ e.answer = source ∧ ∀ held, rt.parseYaml source = .ok (.obj held) →
    ∀ key, schema.isSecret key = true → SealedValue (e.document.lookup key) (held.lookup key)

/-- The documents that an archive keeps are sealed, by the schema it keeps. -/
def SealedArchive (rt : Runtime) (ledger : Ledger) (product text : String) : Prop :=
  ∀ archive schemaText schema environments environment source, rt.parseYaml text = .ok archive →
    archive.field "schema" = some (.str schemaText) →
    ProductSchema.ofSource rt product schemaText = .ok schema →
    archive.field "environments" = some (.obj environments) → (environment, .str source) ∈ environments →
    SealedDocument rt ledger (archivedPath product, environment) schema source

/-- Every secret at rest is sealed. -/
structure Sealed (rt : Runtime) (files : Files) (ledger : Ledger) : Prop where
  documents : ∀ product schema environment source, Declares rt files product schema →
    files.lookup (documentPath product environment) = some source →
    SealedDocument rt ledger (documentPath product environment, environment) schema source
  archives : ∀ product text, ProductName product → files.lookup (archivedPath product) = some text →
    SealedArchive rt ledger product text

/-- What a call asks of its encryptor and of a new schema. -/
structure Call.KeepsSecrets (o : ProductWriteOptions) (c : Call) (db : Database) : Prop where
  /-- No text that looks like ciphertext comes back as it was given. -/
  changed : ∀ g ∈ c.operation.documents (c.options o) c.actor db, ∀ answer held,
    c.encrypt (namespaceText c.operation.service g.1)
      (o.rt.stringifyYaml (.obj (ProductMutation.ordered g.2))) = .ok answer →
    o.rt.parseYaml answer = .ok (.obj held) → ∀ key s, isMetadataKey key = false →
    g.2.lookup key = some (.str s) → sopsEncrypted s = true → held.lookup key ≠ some (.str s)
  /-- A key that was not given is answered empty or as ciphertext. -/
  added : ∀ g ∈ c.operation.documents (c.options o) c.actor db, ∀ answer held,
    c.encrypt (namespaceText c.operation.service g.1)
      (o.rt.stringifyYaml (.obj (ProductMutation.ordered g.2))) = .ok answer →
    o.rt.parseYaml answer = .ok (.obj held) → ∀ key, isMetadataKey key = false →
    g.2.lookup key = none → SealedValue none (held.lookup key)
  /-- A new schema does not call the fields of the file format secret. -/
  declared : ∀ r, c.operation = .createProduct r → ∀ schema,
    ProductSchema.ofSource o.rt r.service r.schema = .ok schema →
    ∀ key, isMetadataKey key = true → schema.isSecret key = false

/-! ### The invariant -/

/-- Each field of a stored document is sealed, or is not a secret. -/
def Guarded (rt : Runtime) (ledger : Ledger) (place : String × String) (schema : ProductSchema)
    (source : String) : Prop :=
  ∃ e held, ledger.lookup place = some e ∧ e.answer = source ∧ rt.parseYaml source = .ok (.obj held) ∧
    ∀ key v, isMetadataKey key = false → held.lookup key = some v →
      SealedValue (e.document.lookup key) (some v) ∨
        ∃ d, schema.definitions.lookup key = some d ∧ d.secret = false

structure Guards (rt : Runtime) (files : Files) (ledger : Ledger) : Prop where
  plain : ∀ product schema, Declares rt files product schema → ∀ key, isMetadataKey key = true →
    schema.isSecret key = false
  documents : ∀ product schema environment source, Declares rt files product schema →
    files.lookup (documentPath product environment) = some source →
    Guarded rt ledger (documentPath product environment, environment) schema source
  archives : ∀ product text, ProductName product → files.lookup (archivedPath product) = some text →
    SealedArchive rt ledger product text

theorem isSecret_iff {schema : ProductSchema} {key : String} : schema.isSecret key = true ↔
    ∃ d, schema.definitions.lookup key = some d ∧ d.secret = true := by
  rw [ProductSchema.isSecret]
  cases schema.definitions.lookup key with
  | none =>
    constructor
    · intro h
      cases h
    · rintro ⟨_, h, -⟩
      cases h
  | some d =>
    constructor
    · intro h
      exact ⟨d, rfl, h⟩
    · rintro ⟨_, h, hs⟩
      cases h
      exact hs

theorem Guarded.sealed {rt : Runtime} {ledger : Ledger} {place : String × String}
    {schema : ProductSchema} {source : String} (h : Guarded rt ledger place schema source)
    (hplain : ∀ key, isMetadataKey key = true → schema.isSecret key = false) :
    SealedDocument rt ledger place schema source := by
  obtain ⟨e, held, he, hanswer, hparse, hfields⟩ := h
  refine ⟨e, he, hanswer, fun held' hparse' key hsecret => ?_⟩
  rw [hparse] at hparse'
  cases hparse'
  have hconfig : isMetadataKey key = false := by
    cases hmeta : isMetadataKey key with
    | false => rfl
    | true =>
      rw [hplain key hmeta] at hsecret
      cases hsecret
  cases hv : held.lookup key with
  | none => exact .inl rfl
  | some v =>
    rcases hfields key v hconfig hv with hsealed | ⟨d, hd, hpublic⟩
    · exact hsealed
    · obtain ⟨d', hd', hsecret'⟩ := isSecret_iff.1 hsecret
      rw [hd] at hd'
      cases hd'
      rw [hpublic] at hsecret'
      cases hsecret'

theorem Guards.sealed {rt : Runtime} {files : Files} {ledger : Ledger} (h : Guards rt files ledger) :
    Sealed rt files ledger :=
  ⟨fun product schema environment source hdeclares hlookup =>
    (h.documents product schema environment source hdeclares hlookup).sealed
      (h.plain product schema hdeclares), h.archives⟩

/-- A schema that defines what was defined keeps a document guarded, unless it holds keys that go. -/
theorem Guarded.of_definitions {rt : Runtime} {ledger ledger' : Ledger} {place place' : String × String}
    {old schema : ProductSchema} {source : String} (h : Guarded rt ledger place old source)
    (hledger : ∀ e, ledger.lookup place = some e → ledger'.lookup place' = some e)
    (hdefinitions : ∀ held key v d, rt.parseYaml source = .ok (.obj held) → isMetadataKey key = false →
      held.lookup key = some v → old.definitions.lookup key = some d →
      schema.definitions.lookup key = some d) : Guarded rt ledger' place' schema source := by
  obtain ⟨e, held, he, hanswer, hparse, hfields⟩ := h
  refine ⟨e, held, hledger e he, hanswer, hparse, fun key v hconfig hv => ?_⟩
  exact (hfields key v hconfig hv).imp_right fun ⟨d, hd, hpublic⟩ =>
    ⟨d, hdefinitions held key v d hparse hconfig hv hd, hpublic⟩

/-- What the encryptor made of a document is guarded. -/
theorem guarded_of_encodes {ledger : Ledger} {service environment source : String} {schema : ProductSchema}
    {value : Record} (h : Encodes o service environment schema value source)
    (hfits : schema.Fits o.rt service (configOnly value))
    (hchanged : ∀ held, o.rt.parseYaml source = .ok (.obj held) → ∀ key s, isMetadataKey key = false →
      value.lookup key = some (.str s) → sopsEncrypted s = true → held.lookup key ≠ some (.str s))
    (hadded : ∀ held, o.rt.parseYaml source = .ok (.obj held) → ∀ key, isMetadataKey key = false →
      value.lookup key = none → SealedValue none (held.lookup key)) {place : String × String}
    (hledger : ledger.lookup place = some ⟨value, source⟩) : Guarded o.rt ledger place schema source := by
  obtain ⟨held, hparse, hkept⟩ := h.kept
  refine ⟨_, held, hledger, rfl, hparse, fun key v hconfig hv => ?_⟩
  cases hw : value.lookup key with
  | none =>
    have := hadded held hparse key hconfig hw
    rw [hv] at this
    exact .inl this
  | some w =>
    have hmem : (key, w) ∈ configOnly value := mem_configOnly.2 ⟨Record.mem_of_lookup hw, hconfig⟩
    obtain ⟨d, hd, -⟩ := (checkEntry_eq_none hconfig).1 (hfits _ hmem)
    cases hsecret : d.secret with
    | false => exact .inr ⟨d, hd, hsecret⟩
    | true =>
      refine .inl ?_
      have hsealed := hkept key (Record.mem_keys.2 ⟨w, hmem⟩) (isSecret_iff.2 ⟨d, hd, hsecret⟩)
      rw [ProductMutation.secretKept, hv, hw, Bool.or_eq_true, Bool.and_eq_true] at hsealed
      rcases hsealed with ⟨-, hempty⟩ | hcipher
      · exact .inl hempty
      · cases v with
        | str s =>
          refine .inr ⟨s, rfl, hcipher, fun heq => ?_⟩
          rw [Option.some.inj heq] at hw
          exact hchanged held hparse key s hconfig hw hcipher hv
        | _ => cases hcipher

/-! ### The ledger -/

theorem mem_encryptions {c : Call} {db : Database} {place : String × String} {e : Encryption} :
    (place, e) ∈ c.encryptions o db ↔ ∃ g ∈ c.operation.documents (c.options o) c.actor db,
      place = (documentPath c.operation.service g.1, g.1) ∧ e.document = g.2 ∧
      c.encrypt (namespaceText c.operation.service g.1)
        (o.rt.stringifyYaml (.obj (ProductMutation.ordered g.2))) = .ok e.answer := by
  rw [Call.encryptions, List.mem_filterMap]
  constructor
  · rintro ⟨g, hg, heq⟩
    dsimp only at heq
    split at heq
    · rename_i answer hanswer
      cases heq
      exact ⟨g, hg, rfl, rfl, hanswer⟩
    · cases heq
  · rintro ⟨g, hg, rfl, hdocument, hanswer⟩
    refine ⟨g, hg, ?_⟩
    obtain ⟨document, answer⟩ := e
    dsimp only at hdocument hanswer ⊢
    rw [hanswer, hdocument]

theorem mem_of_lookup_ledger {ledger : Ledger} {place : String × String} {e : Encryption}
    (h : ledger.lookup place = some e) : (place, e) ∈ ledger := by
  obtain ⟨l₁, l₂, rfl, -⟩ := List.lookup_eq_some_iff.1 h
  simp

theorem lookup_ledger_none {ledger : Ledger} {place : String × String}
    (h : ∀ e, (place, e) ∉ ledger) : ledger.lookup place = none := by
  cases he : ledger.lookup place with
  | none => rfl
  | some e => exact (h e (mem_of_lookup_ledger he)).elim

theorem exists_lookup_of_mem {ledger : Ledger} {place : String × String} {e : Encryption}
    (h : (place, e) ∈ ledger) : ∃ e', ledger.lookup place = some e' := by
  cases he : ledger.lookup place with
  | some e' => exact ⟨e', rfl⟩
  | none =>
    have := List.lookup_eq_none_iff.1 he _ h
    simp at this

theorem archivedEntries_cons (service path environment : String) (e : Encryption) (ledger : Ledger) :
    archivedEntries service (((path, environment), e) :: ledger) =
      if path = documentPath service environment then
        ((archivedPath service, environment), e) :: archivedEntries service ledger
      else archivedEntries service ledger := by
  rw [archivedEntries, List.filterMap_cons]
  by_cases hpath : path = documentPath service environment <;> simp [hpath, archivedEntries]

/-- An archive's entry is the one of the file it was. -/
theorem lookup_archivedEntries (service environment : String) (ledger : Ledger) :
    (archivedEntries service ledger).lookup (archivedPath service, environment) =
      ledger.lookup (documentPath service environment, environment) := by
  induction ledger with
  | nil => rfl
  | cons f ledger ih =>
    obtain ⟨⟨path, env⟩, e⟩ := f
    rw [archivedEntries_cons]
    by_cases hplace : (documentPath service environment, environment) = (path, env)
    · obtain ⟨rfl, rfl⟩ := Prod.mk.inj hplace
      rw [if_pos rfl, List.lookup_cons_self, List.lookup_cons_self]
    · rw [List.lookup_cons, beq_false_of_ne hplace]
      by_cases hpath : path = documentPath service env
      · have hne : (archivedPath service, environment) ≠ (archivedPath service, env) := by
          intro heq
          obtain ⟨-, rfl⟩ := Prod.mk.inj heq
          exact hplace (by rw [hpath])
        rw [if_pos hpath, List.lookup_cons, beq_false_of_ne hne]
        exact ih
      · rw [if_neg hpath]
        exact ih

theorem mem_archivedEntries {service : String} {ledger : Ledger} {place : String × String}
    {e : Encryption} (h : (place, e) ∈ archivedEntries service ledger) : place.1 = archivedPath service := by
  obtain ⟨⟨⟨path, env⟩, e'⟩, -, heq⟩ := List.mem_filterMap.1 h
  dsimp only at heq
  split at heq
  · cases heq
    rfl
  · cases heq

/-- Entries are about the product's own files. -/
theorem lookup_entries_none {c : Call} {db : Database} {ledger : Ledger} {place : String × String}
    (harchived : place.1 ≠ archivedPath c.operation.service)
    (hdocument : place.1 ≠ documentPath c.operation.service place.2) :
    (c.entries o db ledger).lookup place = none := by
  refine lookup_ledger_none fun e he => ?_
  have hencryptions : (place, e) ∉ c.encryptions o db := by
    intro hmem
    obtain ⟨g, -, rfl, -, -⟩ := mem_encryptions.1 hmem
    exact hdocument rfl
  rw [Call.entries] at he
  split at he
  · rename_i service base force hop
    rw [hop] at harchived
    exact harchived (mem_archivedEntries he)
  · exact hencryptions he

/-! ### What a call keeps -/

/-- The decryptor hides no key of a stored document, as sops does not. -/
def Shows (o : ProductWriteOptions) : Prop :=
  ∀ ns source held current, o.rt.parseYaml source = .ok (.obj held) →
    ProductMutation.resolveOne o ns source = .ok current → ∀ key v, held.lookup key = some v →
    isMetadataKey key = false → ∃ w, (key, w) ∈ current

theorem lookup_append_none {ledger ledger' : Ledger} {place : String × String}
    (h : ledger.lookup place = none) : (ledger ++ ledger').lookup place = ledger'.lookup place := by
  rw [List.lookup_append, h, Option.none_or]

theorem lookup_append_some {ledger ledger' : Ledger} {place : String × String} {e : Encryption}
    (h : ledger.lookup place = some e) : (ledger ++ ledger').lookup place = some e := by
  rw [List.lookup_append, h, Option.some_or]

/-- The documents that a call gives are guarded by what it adds to the ledger. -/
theorem guarded_of_given {c : Call} {db : Database} {ledger : Ledger} {files' : Files} {schema : ProductSchema}
    (hc : c.KeepsSecrets o db) (hop : ∀ service base force, c.operation ≠ .archiveProduct service base force)
    (hencoded : ∀ g ∈ c.operation.documents (c.options o) c.actor db,
      schema.Fits o.rt c.operation.service (configOnly g.2) ∧ ∃ source,
        files'.lookup (documentPath c.operation.service g.1) = some source ∧
        Encodes (c.options o) c.operation.service g.1 schema g.2 source)
    {environment source : String} {value : Record}
    (hgiven : (environment, value) ∈ c.operation.documents (c.options o) c.actor db)
    (hlookup : files'.lookup (documentPath c.operation.service environment) = some source) :
    Guarded o.rt (c.entries o db ledger ++ ledger)
      (documentPath c.operation.service environment, environment) schema source := by
  have hentries : c.entries o db ledger = c.encryptions o db := by
    rw [Call.entries]
    split
    · rename_i service base force heq
      exact (hop service base force heq).elim
    · rfl
  obtain ⟨-, written, -, hencodes⟩ := hencoded _ hgiven
  have hmem : ((documentPath c.operation.service environment, environment), ⟨value, written⟩) ∈
      c.encryptions o db := mem_encryptions.2 ⟨_, hgiven, rfl, rfl, hencodes.encrypted⟩
  obtain ⟨e, he⟩ := exists_lookup_of_mem hmem
  obtain ⟨g, hg, hplace, hdocument, hanswer⟩ := mem_encryptions.1 (mem_of_lookup_ledger he)
  obtain ⟨-, rfl⟩ := Prod.mk.inj hplace
  obtain ⟨hfits, written', hwritten', hencodes'⟩ := hencoded g hg
  rw [hlookup] at hwritten'
  cases hwritten'
  have heq : e = ⟨g.2, source⟩ := by
    have hsource : Except.ok e.answer = Except.ok source := hanswer.symm.trans hencodes'.encrypted
    obtain ⟨document, answer⟩ := e
    cases hdocument
    cases hsource
    rfl
  subst heq
  exact guarded_of_encodes (o := c.options o) hencodes' hfits
    (fun held hparse => hc.changed g hg source held hanswer hparse)
    (fun held hparse => hc.added g hg source held hanswer hparse)
    (lookup_append_some (hentries ▸ he))

/-- Files of other products are guarded as they were. -/
theorem Guards.frame {c : Call} {db : Database} {ledger : Ledger} {files' : Files}
    {given : List (String × Record)} (hg : Guards o.rt db.files ledger)
    (h : Effect c.operation (c.options o) c.actor db.files files' given)
    (hservice : Segment c.operation.service)
    (hplain : ∀ schema, Declares o.rt files' c.operation.service schema → ∀ key, isMetadataKey key = true →
      schema.isSecret key = false)
    (hdocuments : ∀ schema environment source, Declares o.rt files' c.operation.service schema →
      files'.lookup (documentPath c.operation.service environment) = some source →
      Guarded o.rt (c.entries o db ledger ++ ledger)
        (documentPath c.operation.service environment, environment) schema source)
    (harchives : ∀ text, files'.lookup (archivedPath c.operation.service) = some text →
      SealedArchive o.rt (c.entries o db ledger ++ ledger) c.operation.service text) :
    Guards o.rt files' (c.entries o db ledger ++ ledger) := by
  constructor
  · intro product schema hdeclares
    by_cases hp : product = c.operation.service
    · subst hp
      exact hplain schema hdeclares
    · obtain ⟨hschema, -, -⟩ := h.frame hdeclares.1 hp
      obtain ⟨hname, source, hsource, hok⟩ := hdeclares
      exact hg.plain product schema ⟨hname, source, hschema ▸ hsource, hok⟩
  · intro product schema environment source hdeclares hlookup
    by_cases hp : product = c.operation.service
    · subst hp
      exact hdocuments schema environment source hdeclares hlookup
    · obtain ⟨hschema, -, hdocument⟩ := h.frame hdeclares.1 hp
      rw [hdocument] at hlookup
      obtain ⟨hname, text, htext, hok⟩ := hdeclares
      refine (hg.documents product schema environment source ⟨hname, text, hschema ▸ htext, hok⟩
        hlookup).of_definitions (fun e he => ?_) fun _ _ _ _ _ _ _ hd => hd
      rw [lookup_append_none (lookup_entries_none ?_ ?_)]
      · exact he
      · exact (archivedPath_ne_documentPath _ _ _).symm
      · exact fun heq => hp (documentPath_inj hname.segment hservice heq).1
  · intro product text hname hlookup
    by_cases hp : product = c.operation.service
    · subst hp
      exact harchives text hlookup
    · obtain ⟨-, harchived, -⟩ := h.frame hname hp
      rw [harchived] at hlookup
      intro archive schemaText schema environments environment source hparse hs hok henvs hmem
      obtain ⟨e, he, hsealed⟩ := hg.archives product text hname hlookup archive schemaText schema
        environments environment source hparse hs hok henvs hmem
      refine ⟨e, ?_, hsealed⟩
      rw [lookup_append_none (lookup_entries_none ?_ ?_)]
      · exact he
      · exact fun heq => hp (archivedPath_inj heq)
      · exact archivedPath_ne_documentPath _ _ _

/-- An archive that no call replaced is sealed as it was. -/
theorem SealedArchive.of_ledger {rt : Runtime} {ledger ledger' : Ledger} {product text : String}
    (h : SealedArchive rt ledger product text)
    (hledger : ∀ environment, ledger'.lookup (archivedPath product, environment) =
      ledger.lookup (archivedPath product, environment)) : SealedArchive rt ledger' product text := by
  intro archive schemaText schema environments environment source hparse hs hok henvs hmem
  obtain ⟨e, he, hsealed⟩ :=
    h archive schemaText schema environments environment source hparse hs hok henvs hmem
  exact ⟨e, (hledger environment).trans he, hsealed⟩

theorem lookup_encryptions_archived {c : Call} {db : Database} {ledger : Ledger}
    (hop : ∀ service base force, c.operation ≠ .archiveProduct service base force)
    (service environment : String) :
    (c.entries o db ledger ++ ledger).lookup (archivedPath service, environment) =
      ledger.lookup (archivedPath service, environment) := by
  refine lookup_append_none (lookup_ledger_none fun e he => ?_)
  rw [Call.entries] at he
  split at he
  · rename_i service base force heq
    exact hop service base force heq
  · obtain ⟨g, -, hplace, -⟩ := mem_encryptions.1 he
    exact archivedPath_ne_documentPath _ _ _ (Prod.mk.inj hplace).1

/-- A document that was not given keeps its entry. -/
theorem lookup_entries_kept {c : Call} {db : Database} {ledger : Ledger} {environment : String}
    (hnot : ∀ value, (environment, value) ∉ c.operation.documents (c.options o) c.actor db) :
    (c.entries o db ledger ++ ledger).lookup (documentPath c.operation.service environment, environment) =
      ledger.lookup (documentPath c.operation.service environment, environment) := by
  refine lookup_append_none (lookup_ledger_none fun e he => ?_)
  have hencryptions : ((documentPath c.operation.service environment, environment), e) ∉
      c.encryptions o db := by
    intro hmem
    obtain ⟨g, hg, hplace, -⟩ := mem_encryptions.1 hmem
    obtain ⟨-, rfl⟩ := Prod.mk.inj hplace
    exact hnot g.2 hg
  rw [Call.entries] at he
  split at he
  · exact archivedPath_ne_documentPath _ _ _ (mem_archivedEntries he).symm
  · exact hencryptions he

theorem Rewritten.guards {c : Call} {db : Database} {ledger : Ledger} {files' : Files}
    {old schema : ProductSchema} {gone : List String} (shows : Shows o) (hc : c.KeepsSecrets o db)
    (hg : Guards o.rt db.files ledger) (hop : c.operation.rewrites = true)
    (heffect : Effect c.operation (c.options o) c.actor db.files files'
      (c.operation.documents (c.options o) c.actor db))
    (h : Rewritten (c.options o) c.operation.service c.operation.target db.files files'
      (c.operation.documents (c.options o) c.actor db) old schema gone) :
    Guards o.rt files' (c.entries o db ledger ++ ledger) := by
  have hnot : ∀ service base force, c.operation ≠ .archiveProduct service base force := by
    intro service base force heq
    rw [heq] at hop
    cases hop
  have hold := hg.plain _ old h.declared
  refine hg.frame heffect (segment_of_identifier h.product) ?_ ?_ ?_
  · intro schema' hdeclares key hmeta
    obtain rfl := hdeclares.unique h.declares
    cases hsecret : schema'.isSecret key with
    | false => rfl
    | true =>
      have := h.metadata key hmeta hsecret
      rw [hold key hmeta] at this
      cases this
  · intro schema' environment source hdeclares hlookup
    obtain rfl := hdeclares.unique h.declares
    by_cases hgiven : ∃ value, (environment, value) ∈ c.operation.documents (c.options o) c.actor db
    · obtain ⟨value, hmem⟩ := hgiven
      exact guarded_of_given hc hnot (fun g hg => (h.encoded g hg).2) hmem hlookup
    · have hnone : ∀ value, (environment, value) ∉ c.operation.documents (c.options o) c.actor db :=
        fun value hmem => hgiven ⟨value, hmem⟩
      rw [h.document environment hnone] at hlookup
      refine (hg.documents _ old environment source h.declared hlookup).of_definitions
        (fun e he => (lookup_entries_kept hnone).trans he) fun held key v d hparse hconfig hv hd => ?_
      rcases h.kept with hsame | hkept
      · rw [hsame]
        exact hd
      · rcases hkept environment source hlookup with hmem | ⟨current, hresolved, -, hgone⟩
        · exact (hgiven hmem).elim
        · rcases hresolved with ⟨hnone, -⟩ | ⟨source', hsource', hcurrent⟩
          · rw [hlookup] at hnone
            cases hnone
          · rw [hlookup] at hsource'
            cases hsource'
            obtain ⟨w, hw⟩ := shows _ _ held current hparse hcurrent key v hv hconfig
            exact (h.definitions key d hd).resolve_left fun hin =>
              hgone key hin w (mem_configOnly.2 ⟨hw, hconfig⟩)
  · intro text hlookup
    rw [h.others _ (archivedPath_ne_schemaPath _ _) fun e => archivedPath_ne_documentPath _ _ e] at hlookup
    exact (hg.archives _ text (productName_of_identifier h.product) hlookup).of_ledger fun environment =>
      lookup_encryptions_archived hnot _ environment

theorem Created.guards {c : Call} {db : Database} {ledger : Ledger} {files' : Files} {r : CreateRequest}
    {schema : ProductSchema} (hc : c.KeepsSecrets o db) (hg : Guards o.rt db.files ledger)
    (hop : c.operation = .createProduct r)
    (heffect : Effect c.operation (c.options o) c.actor db.files files'
      (c.operation.documents (c.options o) c.actor db))
    (h : Created (c.options o) r db.files files' (c.operation.documents (c.options o) c.actor db) schema) :
    Guards o.rt files' (c.entries o db ledger ++ ledger) := by
  have hservice : c.operation.service = r.service := by rw [hop]; rfl
  have hnot : ∀ service base force, c.operation ≠ .archiveProduct service base force := by
    intro service base force heq
    rw [heq] at hop
    cases hop
  have hdeclared : ∀ schema', Declares o.rt files' c.operation.service schema' → schema' = schema := by
    intro schema' hdeclares
    rw [hservice] at hdeclares
    exact hdeclares.unique h.declares
  refine hg.frame heffect ?_ ?_ ?_ ?_
  · rw [hservice]
    exact segment_of_identifier h.product
  · intro schema' hdeclares key hmeta
    rw [hdeclared schema' hdeclares]
    exact hc.declared r hop schema h.accepted key hmeta
  · intro schema' environment source hdeclares hlookup
    obtain rfl := hdeclared schema' hdeclares
    have henv : environment ∈ r.environments := by
      by_contra hmem
      have hnone := h.document environment hmem
      rw [hservice, hnone] at hlookup
      cases hlookup
    refine guarded_of_given hc hnot (fun g hgiven => ?_)
      (h.given_eq ▸ List.mem_map_of_mem henv : (environment, newDocument r) ∈ _) hlookup
    rw [h.given_eq] at hgiven
    obtain ⟨e, he, rfl⟩ := List.mem_map.1 hgiven
    rw [hservice]
    exact ⟨fits_configOnly_version h.fits, h.encoded e he⟩
  · intro text hlookup
    rw [hservice] at hlookup ⊢
    rw [h.others _ (archivedPath_ne_schemaPath _ _) (services_ne_archivedPath _).symm
      fun e => archivedPath_ne_documentPath _ _ e] at hlookup
    exact (hg.archives _ text (productName_of_identifier h.product) hlookup).of_ledger fun environment =>
      lookup_encryptions_archived hnot _ environment

theorem Archived.guards {c : Call} {db : Database} {ledger : Ledger} {files' : Files} {service : String}
    {base : Option String} {force : Bool} {schema : ProductSchema}
    (yaml : ∀ v, o.rt.parseYaml (o.rt.stringifyYaml v) = .ok v) (hg : Guards o.rt db.files ledger)
    (hop : c.operation = .archiveProduct service base force)
    (heffect : Effect c.operation (c.options o) c.actor db.files files'
      (c.operation.documents (c.options o) c.actor db))
    (h : Archived (c.options o) c.actor service db.files files' schema) :
    Guards o.rt files' (c.entries o db ledger ++ ledger) := by
  have hservice : c.operation.service = service := by rw [hop]; rfl
  have hentries : c.entries o db ledger = archivedEntries service ledger := by rw [Call.entries, hop]
  refine hg.frame heffect ?_ ?_ ?_ ?_ <;> rw [hservice]
  · exact segment_of_identifier h.product
  · rintro schema' ⟨-, source, hsource, -⟩
    rw [h.undeclared] at hsource
    cases hsource
  · rintro schema' environment source - hlookup
    rw [h.undocumented] at hlookup
    cases hlookup
  · obtain ⟨source, identity, environments, hsource, harchive, hkept⟩ := h.archive
    intro text hlookup
    rw [harchive] at hlookup
    cases hlookup
    intro archive schemaText schema' environments' environment answer hparse hs hok henvs hmem
    cases (yaml _).symm.trans hparse
    cases hs
    cases henvs
    obtain ⟨text, htext, hdocument⟩ := (hkept environment _).1 hmem
    cases htext
    have hdeclares : Declares o.rt db.files service schema' :=
      ⟨productName_of_identifier h.product, source, hsource, hok⟩
    obtain ⟨e, he, hsealed⟩ := (hg.documents service schema' environment answer hdeclares hdocument).sealed
      (hg.plain service schema' hdeclares)
    refine ⟨e, ?_, hsealed⟩
    rw [hentries]
    exact lookup_append_some ((lookup_archivedEntries service environment ledger).trans he)

/-- What a call that keeps secrets leaves guarded. -/
theorem Call.guards {c : Call} {db : Database} {ledger : Ledger} (hash : Function.Injective o.contentHash)
    (yaml : ∀ v, o.rt.parseYaml (o.rt.stringifyYaml v) = .ok v) (shows : Shows o)
    (hc : c.KeepsSecrets o db) (hg : Guards o.rt db.files ledger) :
    Guards o.rt (c.perform o db).2.files (c.record o db ledger) := by
  have hsame : (c.perform o db).2 = db → Guards o.rt (c.perform o db).2.files (c.record o db ledger) := by
    intro heq
    rw [Call.record, heq, if_pos rfl]
    exact hg
  rcases c.perform_cases (o := o) db hash yaml with ⟨heq, -⟩ | ⟨heffect, heq | hrevision⟩
  · exact hsame heq
  · exact hsame heq
  · rw [Call.record, if_neg (by omega)]
    cases id heffect with
    | rewritten old schema gone hop hgone h => exact h.guards shows hc hg hop heffect
    | created r schema hop h => exact h.guards hc hg hop heffect
    | archived service base force schema hop hgiven h => exact h.guards yaml hg hop heffect

/-- No product, no document and no archive. -/
structure Unpopulated (files : Files) : Prop where
  schemas : ∀ product, files.lookup (schemaPath product) = none
  documents : ∀ product environment, files.lookup (documentPath product environment) = none
  archives : ∀ product, files.lookup (archivedPath product) = none

theorem Unpopulated.guards {rt : Runtime} {files : Files} (h : Unpopulated files) : Guards rt files [] := by
  constructor
  · rintro product schema ⟨-, source, hsource, -⟩
    rw [h.schemas] at hsource
    cases hsource
  · intro product schema environment source _ hlookup
    rw [h.documents] at hlookup
    cases hlookup
  · intro product text _ hlookup
    rw [h.archives] at hlookup
    cases hlookup

theorem afterRecorded_fst (calls : List Call) (s : Database × Ledger) :
    (afterRecorded o calls s).1 = afterCalls o calls s.1 := by
  induction calls generalizing s with
  | nil => rfl
  | cons c calls ih => exact ih _

theorem unpopulated_emptyRegistry : Unpopulated emptyRegistry.files :=
  ⟨fun _ => lookup_emptyRegistry (services_ne_schemaPath _).symm (schemaPath_ne_environments _),
    fun _ _ => lookup_emptyRegistry (services_ne_documentPath _ _).symm (documentPath_ne_environments _ _),
    fun _ => lookup_emptyRegistry (services_ne_archivedPath _).symm (archivedPath_ne_environments _)⟩

theorem shows_plainOptions : Shows plainOptions := by
  intro ns source held current hparse hresolve key v hv _
  change parseConfig jsonRuntime.parseYaml _ source = _ at hresolve
  change jsonRuntime.parseYaml source = _ at hparse
  rw [parseConfig, hparse] at hresolve
  cases hresolve
  exact ⟨v, Record.mem_of_lookup hv⟩

def isText : Value → Bool
  | .str _ => true
  | _ => false

theorem keepsSecrets_createWeb : createWeb.KeepsSecrets plainOptions emptyRegistry where
  changed g hg answer held hanswer hparse key s _ hs _ := by
    have hplain : ((createWeb.operation.documents (createWeb.options plainOptions) createWeb.actor
        emptyRegistry).all fun g => g.2.all fun f => !isText f.2) = true := by
      decide +kernel
    have := List.all_eq_true.1 (List.all_eq_true.1 hplain g hg) _ (Record.mem_of_lookup hs)
    cases this
  added g hg answer held hanswer hparse key _ hnone := by
    have htext : jsonRuntime.stringifyYaml (.obj (ProductMutation.ordered g.2)) = answer :=
      Except.ok.inj hanswer
    have hheld := (parse_stringify (.obj (ProductMutation.ordered g.2))).symm.trans (htext ▸ hparse)
    cases hheld
    rw [lookup_ordered, hnone]
    exact .inl rfl
  declared r hop schema hok key hmeta := by
    cases hop
    cases hsecret : schema.isSecret key with
    | false => rfl
    | true =>
      obtain ⟨d, hd, -⟩ := isSecret_iff.1 hsecret
      have hhas := declared_of_definition (parse_stringify webSchema) hok hd
      rw [isMetadataKey, Bool.or_eq_true, beq_iff_eq, beq_iff_eq] at hmeta
      rcases hmeta with rfl | rfl <;> cases hhas

/-- A secret whose value looks like ciphertext, where nothing is encrypted. -/
def cipherLike : Call :=
  plainCall (.writeValues { service := "web", environment := "dev"
                            changes := [("TOKEN", some (.str "ENC[AES256_GCM,x"))] })

/-- The document as it was submitted. -/
def cipherLikeDocument : Record :=
  [("COUNT", .num (.fin 3)), ("TOKEN", .str "ENC[AES256_GCM,x"), ("version", .num (.fin 2))]

theorem webSchema_ofSource : ∃ schema,
    ProductSchema.ofSource jsonRuntime "web" (jsonRuntime.stringifyYaml webSchema) = .ok schema ∧
      schema.isSecret "TOKEN" = true := by
  have hsecret : (ProductSchema.ofSource jsonRuntime "web" (jsonRuntime.stringifyYaml webSchema)).toOption.map
      (fun schema => schema.isSecret "TOKEN") = some true := by decide +kernel
  cases h : ProductSchema.ofSource jsonRuntime "web" (jsonRuntime.stringifyYaml webSchema) with
  | ok schema =>
    rw [h, Except.toOption, Option.map_some, Option.some_inj] at hsecret
    exact ⟨schema, rfl, hsecret⟩
  | error e =>
    rw [h] at hsecret
    cases hsecret

end ConfigRegistry.Products
