import ConfigRegistry.Async.Drive
import ConfigRegistry.Async.Triple
import ConfigRegistry.Flags.FlagDocument
import ConfigRegistry.Identity.Registry
import ConfigRegistry.Schema.Validator
import ConfigRegistry.Store.EnvironmentOrder
import ConfigRegistry.Store.Loader

/-!
# Reloading

`src/boot/repository-state.ts` and its wiring in `src/server.ts`: everything the service reads out
of the database and keeps current, and the reload that refreshes it. Reads of the database, the
decryption of a document and every group of assignments made in one turn are operations of the
language `lang`; other reloads and database writes may run between any two of them.
-/

namespace ConfigRegistry.Boot

open Js Identity Schema Store Flags Async

/-- `BreakGlassRecord`. The code only checks that its fields count as true. -/
structure BreakGlassRecord where
  passwordHash : Value
  totpSecret : Value
  actorEmail : Value

/-- What the running service holds, with the database it is served from. -/
structure Server where
  db : Versions
  registry : ServiceRegistry
  /-- The revision at which the table in force was read, none before the first successful read.
  The code does not keep it. -/
  registryRead : Option Nat
  schemas : SchemaSet
  record : Option BreakGlassRecord
  flagEnvironments : List String
  cache : ConfigCache
  /-- The last snapshot of sources saved for the next boot. -/
  saved : Option ConfigSources

/-- What a turn of a reload assigns. -/
inductive Assignment where
  | registry (table : ServiceRegistry) (readAt : Nat)
  | schemas (set : SchemaSet)
  | record (found : Option BreakGlassRecord)
  | flagEnvironments (names : List String)
  | cache (tree : ConfigTree) (flagsByEnvironment : List (String × List (String × Bool)))

def Assignment.apply (s : Server) : Assignment → Server
  | .registry table readAt => { s with registry := table, registryRead := some readAt }
  | .schemas set => { s with schemas := set }
  | .record found => { s with record := found }
  | .flagEnvironments names => { s with flagEnvironments := names }
  | .cache tree flags => { s with cache := s.cache.reload tree flags }

/-- The operations of a reload and of a save. -/
inductive Op where
  /-- `db.read(path)`. -/
  | read (path : String)
  /-- `db.snapshot(prefix)`. -/
  | snapshot (dir : String)
  /-- The break-glass record, from the volume or from the clone. -/
  | readBreakGlass (path : String)
  | decrypt (path source : String)
  | assign (a : Assignment)
  /-- The value of the variable `flagEnvironments`. -/
  | environments
  /-- `snapshots.save(sources)`. -/
  | save (sources : ConfigSources)
  /-- A transaction that leaves the database with these files. -/
  | write (files : Tree)

abbrev Op.Res : Op → Type
  | .read _ => Option String × Nat
  | .snapshot _ => Tree × Nat
  | .readBreakGlass _ => String
  | .decrypt _ _ => String
  | .environments => List String
  | _ => Unit

/-- The language of reloads. What `read` and `snapshot` answer comes with the revision it was read
at. -/
abbrev lang : Sig where
  State := Server
  Err := Error
  Op := Op
  Res := Op.Res

section

variable (rt : Runtime) (decrypt : String → String → Except Error String)

/-- Await an operation. -/
abbrev op (o : Op) : Prog lang o.Res := Prog.op (S := lang) o

/-- What an operation does when it does not fail. -/
def Op.answers : (o : Op) → Server → o.Res → Server → Prop
  | .read path, s, r, s' => r = (s.db.current.lookup path, s.db.revision) ∧ s' = s
  | .snapshot dir, s, r, s' => r = (s.db.current.under dir, s.db.revision) ∧ s' = s
  | .readBreakGlass _, s, _, s' => s' = s
  | .decrypt path source, s, r, s' => decrypt path source = .ok r ∧ s' = s
  | .assign a, s, _, s' => s' = a.apply s
  | .environments, s, r, s' => r = s.flagEnvironments ∧ s' = s
  | .save sources, s, _, s' => s' = { s with saved := some sources }
  | .write files, s, _, s' => s' = { s with db := s.db.publish files }

/-- Whether an operation may fail; the service's own variables are always there. -/
def Op.fallible : Op → Bool
  | .assign _ | .environments => false
  | _ => true

/-- Operations take effect, or fail without one. -/
abbrev sem : Sem lang where
  step o s r s' := match r with
    | .ok a => o.answers decrypt s a s'
    | .error _ => o.fallible = true ∧ s' = s
  torn _ _ _ := False
  crash _ _ := False

/-- The boot table: nothing to a uid nothing runs as. -/
def noServices : ServiceRegistry where
  services := [{ name := "none", uid := 65534, namespaces := ["none/none"] }]
  version := 1
  unique := by simp

/-- `readFile` of a path that is not the break-glass record: an absent file is an error. -/
def readFile (path : String) : Prog lang (String × Nat) := do
  match ← op (.read path) with
  | (some source, readAt) => pure (source, readAt)
  | (none, _) => .fail { message := s!"{path} is absent", code := some .ENOENT }

/-- `reloadRegistry`. -/
def reloadRegistry : Prog lang Unit :=
  .handle (do
    let (source, readAt) ← readFile "services.yaml"
    match ServiceRegistry.fromYaml rt.parseYaml source with
    | .ok table => op (.assign (.registry table readAt))
    -- Only logged, so the list of issues is left out of the message.
    | .error _ => .fail (.of "services.yaml is invalid"))
    fun _ => pure ()

/-- The product a path under `schema/` is the schema file of. -/
def schemaFile (path : String) : Option String :=
  if startsWith path "schema/" && endsWith path ".yaml" then
    let name := sliceBetween path "schema/" ".yaml"
    if name = "__proto__" then none else some name
  else none

/-- `loadSchemas`. -/
def loadSchemas : Prog lang (List (String × String)) := do
  let (files, _) ← op (.snapshot "schema")
  pure (files.filterMap fun (path, source) => (schemaFile path).map fun name => (name, source))

/-- `reloadSchemas`. -/
def reloadSchemas : Prog lang Unit :=
  .handle (do
    let files ← loadSchemas
    match SchemaSet.fromFiles rt files with
    | .ok set => op (.assign (.schemas set))
    | .error e => .fail e)
    fun _ => pure ()

/-- A field that counts as true. -/
def truthy (v : Option Value) : Option Value := v.filter Value.truthy

/-- The record a decrypted document holds, when it has its three fields. -/
def recordOf (parsed : Value) : Option BreakGlassRecord := do
  let passwordHash ← truthy (parsed.field "passwordHash")
  let totpSecret ← truthy (parsed.field "totpSecret")
  let actorEmail ← truthy (parsed.field "actorEmail")
  pure { passwordHash, totpSecret, actorEmail }

/-- `reloadBreakGlass`: an unreadable file clears the record, an unusable one keeps it. -/
def reloadBreakGlass (breakGlassPath : Option String) : Prog lang Unit :=
  match breakGlassPath with
  | none => pure ()
  | some path => do
    match ← (op (.readBreakGlass path)).attempt with
    | .error _ => op (.assign (.record none))
    | .ok source =>
      .handle (do
        let decrypted ← op (.decrypt path source)
        match rt.parseYaml decrypted with
        | .error e => .fail e
        | .ok parsed =>
          match recordOf parsed with
          | some record => op (.assign (.record (some record)))
          | none => .fail (.of "the break-glass record is missing fields"))
        fun _ => pure ()

/-- `ConfigLoader.resolve`: decryption, then parsing, namespace by namespace; one that cannot be
read fails the whole load. -/
def resolve (sources : ConfigSources) : Prog lang ConfigTree := do
  let namespaces ← Prog.collect sources.sources fun (ns, source) => do
    let plaintext ← op (.decrypt (configPath ns) source)
    match parseConfig rt.parseYaml (configPath ns) plaintext with
    | .ok config => pure (ns, config)
    | .error e => .fail e
  pure { commit := sources.commit, namespaces }

/-- `dbSources`. -/
def dbSources : Prog lang ConfigSources := do
  let (files, revision) ← op (.snapshot "config")
  pure (readSources revision files)

/-- `readEnvironmentOrder`. -/
def readEnvironmentOrder : Prog lang EnvironmentOrder := do
  let (source, _) ← op (.read "environments.yaml")
  pure (EnvironmentOrder.fromYaml rt.parseYaml (source.getD ""))

/-- `flagsByEnvironment`. -/
def flagsByEnvironment : Prog lang (List (String × List (String × Bool))) := do
  let order ← readEnvironmentOrder rt
  op (.assign (.flagEnvironments order.all))
  let (source, _) ← op (.read "flags.yaml")
  match source with
  | none => pure []
  | some source =>
    if source = "" then pure []
    else
      -- The names last assigned, whichever reload assigned them.
      let names ← op .environments
      match validateFile rt.parseYaml (fun environment => names.contains environment) source with
      | .error _ => pure []
      | .ok document =>
        pure (names.map fun environment => (environment, document.resolveFor environment))

/-- `onCache`: the values last, after everything that governs them. -/
def onCache : Prog lang Unit := do
  let sources ← dbSources
  let tree ← resolve rt sources
  let flags ← flagsByEnvironment rt
  op (.assign (.cache tree flags))
  op (.save sources)

/-- `RepositoryState.reload`. -/
def reload (breakGlassPath : Option String) : Prog lang Unit := do
  reloadRegistry rt
  reloadSchemas rt
  reloadBreakGlass rt breakGlassPath
  onCache rt

/-- What the service is asked to do: reload (the webhook and the poll), or write a transaction and
reload (the console, after a save). -/
inductive Request where
  | reload
  | save (files : Tree)

/-- The program of a request. -/
def serve (breakGlassPath : Option String) : Request → Prog lang Unit
  | .reload => reload rt breakGlassPath
  | .save files => do
    op (.write files)
    reload rt breakGlassPath

/-- The running service. -/
def service (breakGlassPath : Option String) : System lang Request Unit where
  sem := sem decrypt
  body _ c := serve rt breakGlassPath c

section Triples

/-! What the parts of a reload establish, in any discipline in which their operations keep `P`. -/

variable {rt decrypt} {D : Discipline lang} {sem' : Sem lang} {t : Nat} {P E : D.W → Prop}

/-- What holds after a decrypted document is parsed: `ok` when it parses, `failed` otherwise. -/
structure ParsesTo (rt : Runtime) (path plaintext : String) (ok failed : Prop) : Prop where
  ok : ∀ config, parseConfig rt.parseYaml path plaintext = .ok config → ok
  failed : ∀ e, parseConfig rt.parseYaml path plaintext = .error e → failed

variable (rt decrypt D sem' t P E) in
theorem resolve_triple
    (h : ∀ ns source, D.Performs sem' t P (.decrypt (configPath ns) source)
      (D.Outcome (fun plaintext x => decrypt (configPath ns) source = .ok plaintext ∧
        ParsesTo rt (configPath ns) plaintext (P x) (E x)) fun _ => E))
    (sources : ConfigSources) :
    D.Triple sem' t P (resolve rt sources) (D.Outcome (fun tree x => P x ∧
      tree.commit = sources.commit ∧
      List.Forall₂ (ResolvesTo decrypt rt.parseYaml) sources.sources tree.namespaces) fun _ => E) := by
  refine Discipline.Triple.bind (Discipline.Triple.collect (P := P)
    (R := ResolvesTo decrypt rt.parseYaml) (E := fun _ => E) (fun file => ?_) sources.sources)
    (fun namespaces => ?_) (fun e x _ he => he)
  · obtain ⟨ns, source⟩ := file
    refine (h ns source).bind (fun plaintext => ?_) fun e x _ he => he
    cases hc : parseConfig rt.parseYaml (configPath ns) plaintext with
    | error e => exact .done fun x hx _ => hx.2.failed e hc
    | ok config => exact .done fun x hx _ => ⟨hx.2.ok config hc, rfl, plaintext, hx.1, hc⟩
  · exact .done fun x hx _ => ⟨hx.1, rfl, hx.2⟩

/-- An operation keeps `P`, whether it answers or fails. -/
abbrev KeptBy (D : Discipline lang) (sem' : Sem lang) (t : Nat) (P : D.W → Prop) (o : Op) : Prop :=
  D.Performs sem' t P o (D.Outcome (fun _ => P) fun _ => P)

/-- A part of a reload keeps `P`. -/
abbrev Part (D : Discipline lang) (sem' : Sem lang) (t : Nat) (P : D.W → Prop) (p : Prog lang Unit) :
    Prop :=
  D.Triple sem' t P p (D.Outcome (fun _ => P) fun _ => P)

theorem Part.caught {p : Prog lang Unit} (h : Part D sem' t P p) :
    Part D sem' t P (.handle p fun _ => pure ()) :=
  .handle h (fun _ _ _ hx => hx) fun _ => .done fun _ hx _ => hx

theorem reloadRegistry_part (hread : KeptBy D sem' t P (.read "services.yaml"))
    (hassign : ∀ table readAt, KeptBy D sem' t P (.assign (.registry table readAt))) :
    Part D sem' t P (reloadRegistry rt) := by
  refine Part.caught ?_
  unfold readFile
  simp only [bind_assoc]
  refine hread.bind (fun found => ?_) fun _ _ _ h => h
  obtain ⟨_ | source, readAt⟩ := found
  · exact .done fun _ hx _ => hx
  · simp only [Prog.pure_bind']
    cases ServiceRegistry.fromYaml rt.parseYaml source with
    | error e => exact .done fun _ hx _ => hx
    | ok table => exact (hassign table readAt).triple

theorem reloadSchemas_part (hread : KeptBy D sem' t P (.snapshot "schema"))
    (hassign : ∀ set, KeptBy D sem' t P (.assign (.schemas set))) :
    Part D sem' t P (reloadSchemas rt) := by
  refine Part.caught ?_
  unfold loadSchemas
  simp only [bind_assoc]
  refine hread.bind (fun found => ?_) fun _ _ _ h => h
  simp only [Prog.pure_bind']
  cases SchemaSet.fromFiles rt (found.1.filterMap fun (path, source) =>
    (schemaFile path).map fun name => (name, source)) with
  | error e => exact .done fun _ hx _ => hx
  | ok set => exact (hassign set).triple

theorem reloadBreakGlass_part (hread : ∀ path, KeptBy D sem' t P (.readBreakGlass path))
    (hdecrypt : ∀ path source, KeptBy D sem' t P (.decrypt path source))
    (hassign : ∀ found, KeptBy D sem' t P (.assign (.record found)))
    (breakGlassPath : Option String) :
    Part D sem' t P (reloadBreakGlass rt breakGlassPath) := by
  unfold reloadBreakGlass
  cases breakGlassPath with
  | none => exact .done fun _ hx _ => hx
  | some path =>
    refine Discipline.Triple.bind (R := fun _ => P)
      (.attempt ((hread path).triple.conseq (fun _ _ h => h) fun r _ _ h => by cases r <;> exact h))
      (fun found => ?_) fun _ _ _ h => h
    cases found with
    | error e => exact (hassign none).triple
    | ok source =>
      refine Part.caught ?_
      refine (hdecrypt path source).bind (fun decrypted => ?_) fun _ _ _ h => h
      cases rt.parseYaml decrypted with
      | error e => exact .done fun _ hx _ => hx
      | ok parsed =>
        dsimp only
        cases recordOf parsed with
        | none => exact .done fun _ hx _ => hx
        | some record =>
          exact (hassign (some record)).triple

variable (rt D sem' t P E) in
theorem flagsByEnvironment_triple
    (hread : ∀ path ∈ ["environments.yaml", "flags.yaml"],
      D.Performs sem' t P (.read path) (D.Outcome (fun _ => P) fun _ => E))
    (hassign : ∀ names, D.Performs sem' t P (.assign (.flagEnvironments names))
      (D.Outcome (fun _ => P) fun _ => E))
    (hnames : D.Performs sem' t P .environments (D.Outcome (fun _ => P) fun _ => E)) :
    D.Triple sem' t P (flagsByEnvironment rt) (D.Outcome (fun _ => P) fun _ => E) := by
  unfold flagsByEnvironment readEnvironmentOrder
  rw [Prog.bind_assoc']
  refine (hread "environments.yaml" (by simp)).bind (fun source => ?_) fun e x _ he => he
  refine (hassign _).bind (fun _ => ?_) fun e x _ he => he
  refine (hread "flags.yaml" (by simp)).bind (fun source => ?_) fun e x _ he => he
  obtain ⟨_ | source, _⟩ := source
  · exact .done fun x hx _ => hx
  · by_cases hs : source = ""
    · simp only [hs, if_true]
      exact .done fun x hx _ => hx
    · simp only [hs, if_false]
      refine hnames.bind (fun names => ?_) fun e x _ he => he
      cases validateFile rt.parseYaml (fun environment => names.contains environment) source with
      | error _ => exact .done fun x hx _ => hx
      | ok document => exact .done fun x hx _ => hx

end Triples

end

/-! ### Scheduled runs -/

section

variable (decrypt : String → String → Except Error String)

/-- The answer an operation gives when it does not fail; none for a record that nothing says the
text of. -/
def Op.answer (s : Server) : (o : Op) → Option (o.Res × Server)
  | .read path => some ((s.db.current.lookup path, s.db.revision), s)
  | .snapshot dir => some ((s.db.current.under dir, s.db.revision), s)
  | .readBreakGlass _ => none
  | .decrypt path source =>
    match decrypt path source with
    | .ok plaintext => some (plaintext, s)
    | .error _ => none
  | .assign a => some ((), a.apply s)
  | .environments => some (s.flagEnvironments, s)
  | .save sources => some ((), { s with saved := some sources })
  | .write files => some ((), { s with db := s.db.publish files })

theorem Op.answers_of_answer {s s' : Server} {o : Op} {a : o.Res}
    (h : o.answer decrypt s = some (a, s')) : o.answers decrypt s a s' := by
  cases o with
  | read path => cases h; exact ⟨rfl, rfl⟩
  | snapshot dir => cases h; exact ⟨rfl, rfl⟩
  | readBreakGlass path => cases h
  | decrypt path source =>
    simp only [Op.answer] at h
    split at h
    · rename_i plaintext hd
      cases h
      exact ⟨hd, rfl⟩
    · cases h
  | assign a => cases h; rfl
  | environments => cases h; exact ⟨rfl, rfl⟩
  | save sources => cases h; rfl
  | write files => cases h; rfl

/-- Operations answer or, when the schedule says so, fail. -/
def perform : Bool → (o : Op) → Server → Option (Except Error o.Res × Server)
  | true, o, s => (o.answer decrypt s).map fun (a, s') => (.ok a, s')
  | false, o, s => if o.fallible then some (.error { message := "input/output error", code := some .other }, s) else none

theorem step_of_perform {c : Bool} {o : Op} {s s' : Server} {r : Except Error o.Res}
    (h : perform decrypt c o s = some (r, s')) : (sem decrypt).step o s r s' := by
  cases c with
  | true =>
    obtain ⟨⟨a, s₁⟩, ha, he⟩ := Option.map_eq_some_iff.1 h
    cases he
    exact o.answers_of_answer decrypt ha
  | false =>
    simp only [perform] at h
    split at h
    · rename_i hf
      cases h
      exact ⟨hf, rfl⟩
    · cases h

variable (rt : Runtime) (breakGlassPath : Option String)

/-- The service on a schedule. -/
def serviceDriver : Driver lang Request Unit Bool where
  body _ c := serve rt breakGlassPath c
  perform := perform decrypt

theorem serviceDriver_follows :
    (serviceDriver decrypt rt breakGlassPath).Follows (service rt decrypt breakGlassPath) where
  body := rfl
  allow _ _ _ := trivial
  allowArrive _ _ _ := trivial
  step _ _ _ _ _ h := step_of_perform decrypt h
  cut _ _ _ _ h := nomatch h
  crash _ _ h := nomatch h

end

def grantsPayments : String :=
  "version: 1\nservices:\n  - {name: payments, uid: 1002, namespaces: [payments/prod]}\n"

def grantsLedger : String :=
  "version: 1\nservices:\n  - {name: ledger, uid: 1003, namespaces: [payments/prod]}\n"

/-- The documents of the runs below, as the YAML package reads them. -/
def sampleYaml (source : String) : Except Error Value :=
  if source = grantsPayments then
    .ok (.obj [("version", .num (.fin 1)), ("services", .arr [.obj [("name", .str "payments"),
      ("uid", .num (.fin 1002)), ("namespaces", .arr [.str "payments/prod"])]])])
  else if source = grantsLedger then
    .ok (.obj [("version", .num (.fin 1)), ("services", .arr [.obj [("name", .str "ledger"),
      ("uid", .num (.fin 1003)), ("namespaces", .arr [.str "payments/prod"])]])])
  else if source = "apiKey: first\n" then .ok (.obj [("apiKey", .str "first")])
  else if source = "apiKey: rotated\n" then .ok (.obj [("apiKey", .str "rotated")])
  else if source = "" then .ok .null
  else .error (.of "not in the sample")

/-- A runtime that knows the sample documents. -/
def sampleRuntime : Runtime where
  parseYaml := sampleYaml
  stringifyYaml _ := ""
  urlProtocol _ := none
  numberText _ := ""

/-- Uid 1002 may read `payments/prod`. -/
def beforeRevocation : Tree :=
  [("services.yaml", grantsPayments),
    ("config/payments/prod.yaml", "apiKey: first\n")]

/-- Uid 1003 may instead, and the secret is another one. -/
def afterRevocation : Tree :=
  [("services.yaml", grantsLedger),
    ("config/payments/prod.yaml", "apiKey: rotated\n")]

def freshServer : Server where
  db := { at_ := fun _ => beforeRevocation, revision := 0 }
  registry := noServices
  registryRead := none
  schemas := ⟨[]⟩
  record := none
  flagEnvironments := []
  cache := {}
  saved := none

/-- Documents that are not encrypted. -/
abbrev unencrypted (_ source : String) : Except Error String := .ok source

end ConfigRegistry.Boot
