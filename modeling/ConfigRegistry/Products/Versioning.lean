import ConfigRegistry.Products.Interleaving
import ConfigRegistry.Products.ValueWrites

/-!
# The version of a document

A document counts the writes that changed what it says. A write that would change nothing is left out,
though not the comparison of what it was decided on.
-/

namespace ConfigRegistry.Products

open Js Schema Store

variable {o : ProductWriteOptions} {actor : Actor} {session : ProductMutation}

/-- A request that writes a document with its next version, because its configuration changes. -/
def Bumps (session : ProductMutation) (plan : Plan) (environment : String) (w : MutationRequest) : Prop :=
  ∃ current next set source, w.path = documentPath session.service environment ∧ w.content = some source ∧
    session.document environment = .ok current ∧ w.path ∈ plan.reads ∧
    (∀ f ∈ next, isMetadataKey f.1 = false) ∧
    ((session.files.lookup w.path).isSome = true → ¬ SameConfig (configOnly current) next) ∧
    session.encode environment (nextVersion current next) set = .ok source

/-- The operations that write values. -/
def Operation.writesValues : Operation → Bool
  | .writeValues _ | .promote _ | .addKeys _ | .deleteKeys _ _ _ => true
  | .createProduct _ | .setRetiring _ _ _ | .archiveProduct _ _ _ => false

theorem bumps_of_values {environment : String} {changes : List (String × Option Value)}
    {expectedEtag : Option (Option String)} {plan : Plan}
    (h : session.values environment changes expectedEtag = .ok plan) :
    ∀ w ∈ plan.writes, Bumps session plan environment w := by
  obtain ⟨-, -, current, next, hcurrent, hnext, ⟨-, -, rfl⟩ | ⟨hother, source, keys, hsource, rfl⟩⟩ :=
    values_cases h
  · simp
  · intro w hw
    obtain rfl := List.mem_singleton.1 hw
    refine ⟨current, next, session.schemas, source, rfl, rfl, hcurrent, List.mem_cons_self,
      override_plain (configOnly_plain current) hnext, fun hsome hsame => ?_, hsource⟩
    change (session.files.lookup (documentPath session.service environment)).isSome = true at hsome
    rw [hsome, Bool.true_and] at hother
    rw [SameConfig, hother] at hsame
    cases hsame

theorem Bumps.of_reads {plan plan' : Plan} {environment : String} {w : MutationRequest}
    (h : Bumps session plan environment w) (hreads : ∀ path ∈ plan.reads, path ∈ plan'.reads) :
    Bumps session plan' environment w := by
  obtain ⟨current, next, set, source, hpath, hcontent, hcurrent, hread, hplain, hother, hsource⟩ := h
  exact ⟨current, next, set, source, hpath, hcontent, hcurrent, hreads _ hread, hplain, hother, hsource⟩

theorem Passed.bumps {candidate : SchemaSet} {edit : String → Record → Record} {keys : List String}
    {envs : List (String × String)} {plan : Plan}
    (hedit : ∀ environment config, (∀ f ∈ config, isMetadataKey f.1 = false) →
      ∀ f ∈ edit environment config, isMetadataKey f.1 = false)
    (h : Passed session candidate edit keys envs plan) :
    ∀ w ∈ plan.writes, ∃ environment, Bumps session plan environment w := by
  induction h with
  | nil => simp
  | kept hcurrent hvalid hsame hothers ih =>
    intro w hw
    obtain ⟨environment, hbumps⟩ := ih w hw
    exact ⟨environment, hbumps.of_reads fun path hpath => List.mem_cons_of_mem _ hpath⟩
  | wrote hcurrent hvalid hother hsource hothers ih =>
    intro w hw
    rcases List.mem_cons.1 hw with rfl | hw
    · refine ⟨_, _, _, candidate, _, rfl, rfl, hcurrent, List.mem_cons_self,
        hedit _ _ (configOnly_plain _), fun _ hsame => ?_, hsource⟩
      rw [SameConfig, hother] at hsame
      cases hsame
    · obtain ⟨environment, hbumps⟩ := ih w hw
      exact ⟨environment, hbumps.of_reads fun path hpath => List.mem_cons_of_mem _ hpath⟩

theorem addedTo_plain {drafts : List KeyDraft} {built environment : String}
    (hbuilt : buildSchema session.options.rt drafts = .ok built) (env : String) (config : Record)
    (hconfig : ∀ f ∈ config, isMetadataKey f.1 = false) :
    ∀ f ∈ addedTo environment (draftedDefaults drafts) env config, isMetadataKey f.1 = false := by
  rintro ⟨key, v⟩ hmem
  unfold addedTo at hmem
  split at hmem
  · rcases mem_assign hmem with hmem | hmem
    · exact hconfig _ hmem
    · obtain ⟨draft, hdraft, -, rfl⟩ := mem_draftedDefaults hmem
      obtain ⟨v', hv'⟩ := Record.has_eq_true.1 (draftedKeys_has hdraft)
      exact draftedKeys_not_metadata hbuilt (Record.mem_keys.2 ⟨v', Record.mem_of_lookup hv'⟩)
  · exact hconfig _ hmem

/-- Whatever such an operation writes beside the schema of its product is a document with its next version. -/
theorem Operation.bumps {op : Operation} {plan : Plan} (hservice : session.service = op.service)
    (hop : op.writesValues = true) (h : op.action session = .ok plan) : ∀ w ∈ plan.writes,
      w.path = schemaPath session.service ∨ ∃ environment, Bumps session plan environment w := by
  cases op with
  | createProduct r => cases hop
  | setRetiring service retiring force => cases hop
  | archiveProduct service expectedBase force => cases hop
  | writeValues r =>
    obtain ⟨identity, -, h⟩ := bind_eq_ok.1 h
    exact fun w hw => .inr ⟨_, bumps_of_values h w hw⟩
  | promote r =>
    obtain ⟨-, keys, source, changes, values, -, -, -, -, hvalues, rfl⟩ := promote_cases h
    exact fun w hw => .inr ⟨_, (bumps_of_values hvalues w hw).of_reads fun path hpath =>
      List.mem_cons_of_mem _ hpath⟩
  | addKeys r =>
    obtain ⟨-, -, built, added, document, candidate, swept, hbuilt, -, -, -, -, hpassed, rfl⟩ :=
      addKeys_passed hservice h
    intro w hw
    rcases List.mem_append.1 hw with hw | hw
    · obtain ⟨environment, hbumps⟩ := hpassed.bumps (addedTo_plain hbuilt) w hw
      exact .inr ⟨environment, hbumps.of_reads fun _ h => h⟩
    · rw [List.mem_singleton.1 hw]
      left
      change schemaPath r.service = _
      rw [hservice]
      rfl
  | deleteKeys service selected expectedBase =>
    change session.service = service at hservice
    subst hservice
    obtain ⟨-, identity, keys, document, candidate, swept, -, -, -, -, hpassed, rfl⟩ := deleteKeys_passed h
    intro w hw
    rcases List.mem_append.1 hw with hw | hw
    · have hedit : ∀ (_ : String) (config : Record), (∀ f ∈ config, isMetadataKey f.1 = false) →
          ∀ f ∈ config.deleteAll keys, isMetadataKey f.1 = false := fun _ config hconfig f hf =>
        hconfig f (List.mem_filter.1 hf).1
      obtain ⟨environment, hbumps⟩ := hpassed.bumps hedit w hw
      exact .inr ⟨environment, hbumps.of_reads fun _ h => h⟩
    · rw [List.mem_singleton.1 hw]
      exact .inl rfl

/-! ### A commit and a document -/

/-- What a step does to a document: it leaves the text, or creates it with version 1, or takes it away,
or an operation that writes values changes its configuration and raises its version by one. -/
inductive DocumentStep (o : ProductWriteOptions) (op : Operation) (service environment : String)
    (files files' : Files) : Prop
  | kept (h : files'.lookup (documentPath service environment) =
      files.lookup (documentPath service environment))
  | created (hnone : files.lookup (documentPath service environment) = none) (after : Record)
      (hafter : Resolved o files' service environment after) (hversion : versionOf after = 1)
  | archived (base : Option String) (force : Bool) (hop : op = .archiveProduct service base force)
      (hnone : files'.lookup (documentPath service environment) = none)
  | written (hop : op.writesValues = true) (hservice : op.service = service) (before after : Record)
      (hbefore : Resolved o files service environment before)
      (hafter : Resolved o files' service environment after)
      (hversion : versionOf after = versionOf before + 1)
      (hchanged : ¬ SameConfig (configOnly before) (configOnly after))

/-- A document that was encoded is read back from the database that its request was carried out on. -/
theorem Committed.readBack {op : Operation} {files : Files} {db db' : Database} {plan : Plan}
    {environment source : String} {value : Record} {set : SchemaSet} {w : MutationRequest}
    (yaml : ∀ v, o.rt.parseYaml (o.rt.stringifyYaml v) = .ok v)
    (sops : ∀ ns text source, o.encrypt ns text = .ok source → o.decrypt (configPath ns) source = .ok text)
    (h : Committed op o actor files db db' session plan) (hw : w ∈ plan.writes)
    (hpath : w.path = documentPath op.service environment) (hcontent : w.content = some source)
    (hsource : session.encode environment value set = .ok source) :
    Resolved o db'.files op.service environment (ProductMutation.ordered value) := by
  obtain ⟨rfl, hservice, -, -, -, -, -⟩ := h.opened
  have hwritten := h.written hw
  rw [hpath, hcontent] at hwritten
  have hresolve := resolveOne_of_encode yaml sops hsource
  rw [hservice] at hresolve
  exact .inr ⟨source, hwritten, hresolve⟩

theorem documentStep_of_bumps {op : Operation} {files : Files} {db db' : Database} {plan : Plan}
    {environment : String} {w : MutationRequest}
    (yaml : ∀ v, o.rt.parseYaml (o.rt.stringifyYaml v) = .ok v)
    (sops : ∀ ns text source, o.encrypt ns text = .ok source → o.decrypt (configPath ns) source = .ok text)
    (h : Committed op o actor files db db' session plan) (hop : op.writesValues = true) (hw : w ∈ plan.writes)
    (hbumps : Bumps session plan environment w) :
    DocumentStep o op op.service environment db.files db'.files := by
  have hservice := h.opened.service_eq
  obtain ⟨current, next, set, source, hpath, hcontent, hcurrent, hread, hplain, hother, hsource⟩ := hbumps
  rw [hservice] at hpath
  rw [hpath] at hread hother
  have hafter := h.readBack yaml sops hw hpath hcontent hsource
  have hversion := versionOf_of_encode hsource
  have hsame := h.read _ (.inr (.inr (.inr hread)))
  rw [h.opened.files_eq, hsame] at hother
  cases hfile : db.files.lookup (documentPath op.service environment) with
  | none =>
    have hempty : current = [] := by
      rcases h.resolved hread hcurrent with ⟨-, hempty⟩ | ⟨source', hsource', -⟩
      · exact hempty
      · rw [hfile] at hsource'
        cases hsource'
    rw [hempty] at hversion
    exact .created hfile _ hafter (hempty ▸ hversion)
  | some text =>
    refine .written hop rfl current _ (h.resolved hread hcurrent) hafter hversion ?_
    rw [sameConfig_written hplain]
    exact hother (by rw [hfile]; rfl)

theorem newDocuments_encoded {r : CreateRequest} {schemas : SchemaSet} {environments : List String}
    {documents : List MutationRequest} (h : newDocuments session r schemas environments = .ok documents) :
    ∀ w ∈ documents, ∃ environment source, w.path = documentPath r.service environment ∧
      w.content = some source ∧ session.encode environment (newDocument r) schemas = .ok source := by
  induction environments generalizing documents with
  | nil =>
    obtain rfl := pure_eq_ok.1 h
    simp
  | cons env environments ih =>
    obtain ⟨source, hsource, h⟩ := bind_eq_ok.1 h
    obtain ⟨rest, hrest, h⟩ := bind_eq_ok.1 h
    obtain rfl := pure_eq_ok.1 h
    exact List.forall_mem_cons.2 ⟨⟨env, source, rfl, rfl, hsource⟩, ih hrest⟩

/-- What `createProduct` writes. -/
theorem createProduct_encoded {r : CreateRequest} {plan : Plan} (h : createProduct r session = .ok plan) :
    session.environments = [] ∧ ∀ w ∈ plan.writes, w.path = schemaPath r.service ∨ w.path = "services.yaml" ∨
      ∃ environment source schemas, w.path = documentPath r.service environment ∧ w.content = some source ∧
        session.encode environment (newDocument r) schemas = .ok source := by
  obtain ⟨-, h⟩ := guard_eq_ok (by simp) h
  obtain ⟨-, h⟩ := guard_eq_ok (by simp) h
  obtain ⟨services, -, h⟩ := bind_eq_ok.1 h
  obtain ⟨named, -, h⟩ := bind_eq_ok.1 h
  obtain ⟨-, h⟩ := guard_eq_ok (by simp) h
  obtain ⟨holder, -, h⟩ := bind_eq_ok.1 h
  cases holder with
  | some holder => cases h
  | none =>
    obtain ⟨hexists, h⟩ := guard_eq_ok (by simp) h
    obtain ⟨-, h⟩ := guard_eq_ok (by simp) h
    obtain ⟨schemas, -, h⟩ := bind_eq_ok.1 h
    obtain ⟨-, h⟩ := guard_eq_ok (by simp) h
    obtain ⟨-, h⟩ := guard_eq_ok (by simp) h
    obtain ⟨documents, hdocuments, h⟩ := bind_eq_ok.1 h
    obtain rfl := pure_eq_ok.1 h
    rw [Bool.or_eq_false_iff] at hexists
    refine ⟨by simpa using hexists.2, fun w hw => ?_⟩
    rcases List.mem_cons.1 hw with rfl | hw
    · exact .inl rfl
    rcases List.mem_append.1 hw with hw | hw
    · obtain ⟨environment, source, hpath, hcontent, hsource⟩ := newDocuments_encoded hdocuments w hw
      exact .inr (.inr ⟨environment, source, schemas, hpath, hcontent, hsource⟩)
    · rw [List.mem_singleton.1 hw]
      exact .inr (.inl rfl)

theorem newDocument_eq (r : CreateRequest) : newDocument r = nextVersion [] r.defaults := by
  have hone : Number.ofNat (bumpedVersion []) = .fin 1 := by
    rw [Number.ofNat]
    exact congrArg Number.fin Nat.cast_one
  rw [newDocument, nextVersion, hone]

/-- The steps that commits make. -/
theorem Committed.documentStep {op : Operation} {files : Files} {db db' : Database} {plan : Plan}
    {service environment : String} (hsegment : Segment service)
    (yaml : ∀ v, o.rt.parseYaml (o.rt.stringifyYaml v) = .ok v)
    (sops : ∀ ns text source, o.encrypt ns text = .ok source → o.decrypt (configPath ns) source = .ok text)
    (h : Committed op o actor files db db' session plan) :
    DocumentStep o op service environment db.files db'.files := by
  have hservice := h.opened.service_eq
  have hown : Segment op.service := segment_of_identifier h.product
  by_cases hwrites : ∃ w ∈ plan.writes, w.path = documentPath service environment
  · obtain ⟨w, hw, hwpath⟩ := hwrites
    by_cases hop : op.writesValues = true
    · rcases op.bumps hservice hop h.planned w hw with hpath | ⟨environment', hbumps⟩
      · exact (schemaPath_ne_documentPath _ _ _ (hpath.symm.trans hwpath)).elim
      · have hstep := documentStep_of_bumps yaml sops h hop hw hbumps
        obtain ⟨current, next, set, source, hpath, -⟩ := hbumps
        rw [hservice] at hpath
        obtain ⟨rfl, rfl⟩ := documentPath_inj hown hsegment (hpath.symm.trans hwpath)
        exact hstep
    · cases op with
      | writeValues r => exact (hop rfl).elim
      | promote r => exact (hop rfl).elim
      | addKeys r => exact (hop rfl).elim
      | deleteKeys service selected expectedBase => exact (hop rfl).elim
      | setRetiring product retiring force =>
        obtain ⟨identity, -, hplan⟩ := bind_eq_ok.1 h.planned
        obtain ⟨-, hplan⟩ := guard_eq_ok (by simp) hplan
        obtain ⟨document, -, hplan⟩ := bind_eq_ok.1 hplan
        obtain rfl := pure_eq_ok.1 hplan
        obtain rfl := List.mem_singleton.1 hw
        exact (schemaPath_ne_documentPath _ _ _ hwpath).elim
      | createProduct r =>
        obtain ⟨hempty, hall⟩ := createProduct_encoded h.planned
        rcases hall w hw with hpath | hpath | ⟨environment', source, schemas, hpath, hcontent, hsource⟩
        · exact (schemaPath_ne_documentPath _ _ _ (hpath.symm.trans hwpath)).elim
        · exact (services_ne_documentPath _ _ (hpath.symm.trans hwpath)).elim
        · obtain ⟨rfl, rfl⟩ := documentPath_inj hown hsegment (hpath.symm.trans hwpath)
          have hnone : files.lookup (documentPath r.service environment') = none := by
            cases hfile : files.lookup (documentPath r.service environment') with
            | none => rfl
            | some text =>
              rw [← h.opened.files_eq] at hfile
              change session.service = r.service at hservice
              rw [← hservice] at hfile
              have := mem_environments_of_lookup hfile
              rw [hempty] at this
              cases this
          have hreplaced := h.replaced w hw
          rw [hpath, hnone] at hreplaced
          rw [newDocument_eq] at hsource
          exact .created hreplaced.symm _ (h.readBack yaml sops hw hpath hcontent hsource)
            (versionOf_of_encode hsource)
      | archiveProduct product expectedBase force =>
        obtain ⟨identity, services, -, -, -, hmem⟩ := archiveProduct_eq_ok h.planned
        change session.service = product at hservice
        rcases (hmem w).1 hw with rfl | rfl | ⟨f, hf, rfl⟩ | rfl
        · exact (services_ne_documentPath _ _ hwpath).elim
        · exact (archivedPath_ne_documentPath _ _ _ hwpath).elim
        · have hpath := (mem_environments hf).1
          rw [hservice] at hpath
          obtain ⟨rfl, -⟩ := documentPath_inj hown hsegment (hpath.symm.trans hwpath)
          have hwritten := h.written hw
          change db'.files.lookup f.1 = none at hwritten
          rw [show f.1 = _ from hwpath] at hwritten
          exact .archived expectedBase force rfl hwritten
        · exact (schemaPath_ne_documentPath _ _ _ hwpath).elim
  · exact .kept (h.untouched fun w hw hpath => hwrites ⟨w, hw, hpath⟩)

/-- Whatever a call does, on whatever snapshot, it makes one step of each document. -/
theorem Call.documentStep {c : Call} {files : Files} {db : Database} {service environment : String}
    (hash : Function.Injective o.contentHash) (yaml : ∀ v, o.rt.parseYaml (o.rt.stringifyYaml v) = .ok v)
    (sops : ∀ ns text source, c.encrypt ns text = .ok source → o.decrypt (configPath ns) source = .ok text)
    (hsegment : Segment service) :
    DocumentStep o c.operation service environment db.files (c.performFrom o files db).2.files := by
  have hcases : (c.performFrom o files db).2 = db ∧ _ ∨ _ :=
    c.operation.performFrom_cases (o := c.options o) c.actor hash files db
  rcases hcases with ⟨hsame, -⟩ | ⟨⟨session, plan, hcommitted⟩, -⟩
  · refine .kept ?_
    rw [hsame]
  · have hstep : DocumentStep (c.options o) c.operation service environment db.files
        (c.performFrom o files db).2.files := hcommitted.documentStep hsegment yaml sops
    cases hstep with
    | kept h => exact .kept h
    | created hnone after hafter hversion => exact .created hnone after hafter hversion
    | archived base force hop hnone => exact .archived base force hop hnone
    | written hop hservice before after hbefore hafter hversion hchanged =>
      exact .written hop hservice before after hbefore hafter hversion hchanged

/-! ### Runs -/

/-- What a call encrypts is decrypted to what it was. -/
def Call.Sealing (o : ProductWriteOptions) (c : Call) : Prop :=
  ∀ ns text source, c.encrypt ns text = .ok source → o.decrypt (configPath ns) source = .ok text

/-- Whoever takes part in a run encrypts what can be decrypted. -/
def AllSealing (o : ProductWriteOptions) (turns : List Turn) (b : Board) : Prop :=
  (∀ c ∈ callsOf turns, c.Sealing o) ∧ ∀ p ∈ b.pending, p.1.Sealing o

theorem AllSealing.after {t : Turn} {turns : List Turn} {b : Board} (h : AllSealing o (t :: turns) b) :
    AllSealing o turns (b.after o t) := by
  obtain ⟨hcalls, hpending⟩ := h
  constructor
  · intro c hc
    apply hcalls
    cases t with
    | opens c' => exact List.mem_cons_of_mem _ hc
    | commits n => exact hc
  · rintro ⟨c, files⟩ hp
    rcases Board.mem_pending_after hp with hp | ⟨rfl, -⟩
    · exact hpending _ hp
    · exact hcalls c List.mem_cons_self

/-- Every turn makes one step of each document, or of none. -/
theorem Board.documentStep {b : Board} {t : Turn} {service environment : String}
    (hash : Function.Injective o.contentHash) (yaml : ∀ v, o.rt.parseYaml (o.rt.stringifyYaml v) = .ok v)
    (hsegment : Segment service) (hsealing : ∀ p ∈ b.pending, p.1.Sealing o) :
    (b.after o t).db.files.lookup (documentPath service environment) =
        b.db.files.lookup (documentPath service environment) ∨
      ∃ c files, (c, files) ∈ b.pending ∧
        DocumentStep o c.operation service environment b.db.files (b.after o t).db.files := by
  rcases b.after_cases (o := o) t with h | ⟨c, files, hmem, h⟩
  · exact .inl (by rw [h])
  · rw [h]
    exact .inr ⟨c, files, hmem, Call.documentStep hash yaml (hsealing _ hmem) hsegment⟩

/-- How often a file is replaced in a run. -/
def replacements (o : ProductWriteOptions) (path : String) : List Turn → Board → Nat
  | [], _ => 0
  | t :: turns, b =>
    (if (b.after o t).db.files.lookup path = b.db.files.lookup path then 0 else 1) +
      replacements o path turns (b.after o t)

/-- A file is there all through a run. -/
def ThereThroughout (o : ProductWriteOptions) (path : String) : List Turn → Board → Prop
  | [], b => (b.db.files.lookup path).isSome = true
  | t :: turns, b => (b.db.files.lookup path).isSome = true ∧ ThereThroughout o path turns (b.after o t)

theorem ThereThroughout.first {path : String} {turns : List Turn} {b : Board}
    (h : ThereThroughout o path turns b) : (b.db.files.lookup path).isSome = true := by
  cases turns with
  | nil => exact h
  | cons t turns => exact h.1

theorem Resolved.unique {files files' : Files} {service environment : String} {current current' : Record}
    (hsame : files'.lookup (documentPath service environment) = files.lookup (documentPath service environment))
    (h : Resolved o files service environment current) (h' : Resolved o files' service environment current') :
    current = current' := by
  rcases h with ⟨hnone, rfl⟩ | ⟨source, hsource, hcurrent⟩
  · rcases h' with ⟨-, rfl⟩ | ⟨source', hsource', -⟩
    · rfl
    · rw [hsame, hnone] at hsource'
      cases hsource'
  · rcases h' with ⟨hnone', -⟩ | ⟨source', hsource', hcurrent'⟩
    · rw [hsame, hsource] at hnone'
      cases hnone'
    · rw [hsame, hsource] at hsource'
      cases hsource'
      rw [hcurrent] at hcurrent'
      exact Except.ok.inj hcurrent'

/-- From its creation to its archive, a document's version is what it was at first and the number of
times that it was replaced. -/
theorem version_of_run {turns : List Turn} {b : Board} {service environment : String} {before : Record}
    (hash : Function.Injective o.contentHash) (yaml : ∀ v, o.rt.parseYaml (o.rt.stringifyYaml v) = .ok v)
    (hsegment : Segment service) (hsealing : AllSealing o turns b)
    (hthere : ThereThroughout o (documentPath service environment) turns b)
    (hbefore : Resolved o b.db.files service environment before) :
    ∃ after, Resolved o (b.run o turns).db.files service environment after ∧
      versionOf after = versionOf before + replacements o (documentPath service environment) turns b := by
  induction turns generalizing b before with
  | nil => exact ⟨before, hbefore, rfl⟩
  | cons t turns ih =>
    obtain ⟨hfirst, hrest⟩ := hthere
    have hkept (h : (b.after o t).db.files.lookup (documentPath service environment) =
        b.db.files.lookup (documentPath service environment)) :
        ∃ after, Resolved o (b.run o (t :: turns)).db.files service environment after ∧
          versionOf after = versionOf before +
            replacements o (documentPath service environment) (t :: turns) b := by
      have hresolved : Resolved o (b.after o t).db.files service environment before := by
        unfold Resolved at hbefore ⊢
        rw [h]
        exact hbefore
      obtain ⟨after, hafter, hversion⟩ := ih hsealing.after hrest hresolved
      refine ⟨after, hafter, ?_⟩
      rw [hversion, replacements, if_pos h, Nat.zero_add]
    rcases @Board.documentStep o b t service environment hash yaml hsegment hsealing.2 with
      h | ⟨c, files, -, hstep⟩
    · exact hkept h
    cases hstep with
    | kept h => exact hkept h
    | created hnone after hafter hversion =>
      rw [hnone] at hfirst
      cases hfirst
    | archived base force hop hnone =>
      have := hrest.first
      rw [hnone] at this
      cases this
    | written hop hservice before' after hbefore' hafter hversion hchanged =>
      obtain rfl := Resolved.unique rfl hbefore hbefore'
      have hdiffers : (b.after o t).db.files.lookup (documentPath service environment) ≠
          b.db.files.lookup (documentPath service environment) := by
        intro hsame
        obtain rfl := Resolved.unique hsame hbefore hafter
        omega
      obtain ⟨last, hlast, hcount⟩ := ih hsealing.after hrest hafter
      refine ⟨last, hlast, ?_⟩
      rw [hcount, hversion, replacements, if_neg hdiffers]
      omega

/-! ### A write that changes nothing -/

theorem Committed.idle {op : Operation} {files : Files} {db db' : Database} {plan : Plan}
    (h : Committed op o actor files db db' session plan) (hwrites : plan.writes = []) : db' = db := by
  rcases h.published with ⟨-, hdb⟩ | ⟨hsome, -⟩
  · exact hdb
  · rw [hwrites] at hsome
    exact (hsome rfl).elim

/-- A document that already says what it is asked to say is not written. -/
theorem no_writes_of_values {environment : String} {changes : List (String × Option Value)}
    {expectedEtag : Option (Option String)} {plan : Plan} {before next : Record}
    (h : session.values environment changes expectedEtag = .ok plan)
    (hbefore : session.document environment = .ok before)
    (hfile : (session.files.lookup (documentPath session.service environment)).isSome = true)
    (hnext : ProductMutation.override (configOnly before) changes = .ok next)
    (hsame : SameConfig (configOnly before) next) : plan.writes = [] := by
  obtain ⟨-, -, current, next', hcurrent, hnext', ⟨-, -, rfl⟩ | ⟨hother, -⟩⟩ := values_cases h
  · rfl
  · rw [hbefore] at hcurrent
    cases hcurrent
    rw [hnext] at hnext'
    cases hnext'
    rw [hfile, Bool.true_and] at hother
    rw [SameConfig, hother] at hsame
    cases hsame

end ConfigRegistry.Products
