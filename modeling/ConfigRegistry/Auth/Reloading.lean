import ConfigRegistry.Async.Alone
import ConfigRegistry.Auth.BreakGlass

/-!
# What a reload keeps

A reload reads its parts one after another, and each may fail. This file shows what it leaves of
each, whatever the functions it is given do: the registry, the schemas and an unusable record stay as
they were, but a record that cannot be read is dropped for whatever reason, and what the reload of
the cache throws is thrown on.
-/

namespace ConfigRegistry.Auth

open Js Async Boot Identity Schema

variable (rt : Runtime) (options : RepositoryStateOptions)
  (answer : (o : Op) → Except Error o.Res)

/-- The text of the break-glass record, once read. -/
def decryptedRecord (path source : String) : Except Error String :=
  if options.decrypt then answer (.decrypt path source) else .ok source

/-- What a reload makes of the table that was in force. -/
def registryAfter (registry : ServiceRegistry) : ServiceRegistry :=
  (answer .readServices >>= tableOf rt).toOption.getD registry

/-- What a reload makes of the schemas. -/
def schemasAfter (schemas : SchemaSet) : SchemaSet :=
  (answer .loadSchemas >>= SchemaSet.fromFiles rt).toOption.getD schemas

/-- What a reload makes of the record. -/
def recordAfter (record : Option BreakGlassRecord) : Option BreakGlassRecord :=
  match options.breakGlassPath with
  | none => record
  | some path =>
    match answer (.readBreakGlass path) with
    | .error _ => none
    | .ok source =>
      (decryptedRecord options answer path source >>= parseRecord rt).toOption.orElse fun _ => record

theorem eval_reloadRegistry (s : Process) :
    (reloadRegistry rt).eval answer s = (.ok (), { s with
      repository := { s.repository with registry := registryAfter rt answer s.repository.registry } }) := by
  unfold reloadRegistry registryAfter
  rw [Prog.eval_handle, Prog.eval_bind, Prog.eval_op]
  cases answer .readServices with
  | error e => rfl
  | ok source =>
    simp only [lift, bind, Except.bind]
    cases tableOf rt source with
    | error e => rfl
    | ok table => rfl

theorem eval_reloadSchemas (s : Process) :
    (reloadSchemas rt).eval answer s = (.ok (), { s with
      repository := { s.repository with schemas := schemasAfter rt answer s.repository.schemas } }) := by
  unfold reloadSchemas schemasAfter
  rw [Prog.eval_handle, Prog.eval_bind, Prog.eval_op]
  cases answer .loadSchemas with
  | error e => rfl
  | ok files =>
    simp only [lift, bind, Except.bind]
    cases SchemaSet.fromFiles rt files with
    | error e => rfl
    | ok schemas => rfl

theorem eval_reloadBreakGlass (s : Process) :
    (reloadBreakGlass rt options).eval answer s = (.ok (), { s with
      repository := { s.repository with
        record := recordAfter rt options answer s.repository.record } }) := by
  unfold reloadBreakGlass recordAfter
  cases options.breakGlassPath with
  | none => rfl
  | some path =>
    dsimp only
    rw [Prog.eval_bind, Prog.eval_attempt, Prog.eval_op]
    cases answer (.readBreakGlass path) with
    | error e => rfl
    | ok source =>
      dsimp only
      have hdecrypted : (decryptRecord options path source).eval answer s =
          (decryptedRecord options answer path source, s) := by
        unfold decryptRecord decryptedRecord
        split <;> rfl
      rw [Prog.eval_handle, Prog.eval_bind, hdecrypted]
      cases decryptedRecord options answer path source with
      | error e => rfl
      | ok decrypted =>
        simp only [lift, bind, Except.bind]
        cases parseRecord rt decrypted with
        | error e => rfl
        | ok record => rfl

/-- What `onCache` throws, when it is there. -/
def cacheResult : Except Error Unit := if options.onCache then answer .onCache else .ok ()

/-- What a reload leaves of the repository state. -/
def stateAfter (s : RepositoryState) : RepositoryState where
  registry := registryAfter rt answer s.registry
  schemas := schemasAfter rt answer s.schemas
  record := recordAfter rt options answer s.record

/-- A reload replaces each part by what it read, and ends as the reload of the cache does. -/
theorem eval_reload (s : Process) :
    (reload rt options).eval answer s = (cacheResult options answer,
      { s with repository := stateAfter rt options answer s.repository }) := by
  unfold reload
  rw [Prog.eval_bind_ok _ (eval_reloadRegistry rt answer s),
    Prog.eval_bind_ok _ (eval_reloadSchemas rt answer _),
    Prog.eval_bind_ok _ (eval_reloadBreakGlass rt options answer _)]
  unfold cacheResult
  split <;> rfl

/-- What is promised of a reload that leaves `s'` of `s` and ends with `r`: it does not throw, the
registry and the schemas are those of a source that was read or as before, and the record is gone
when its file is `absent`, that of a file that decrypts and is complete, and as before otherwise. -/
structure KeepsGood (absent : Error → Bool) (s s' : RepositoryState) (r : Except Error Unit) :
    Prop where
  resolves : r = .ok ()
  registry : s'.registry = s.registry ∨ ∃ source, answer .readServices = .ok source ∧
    tableOf rt source = .ok s'.registry
  schemas : s'.schemas = s.schemas ∨ ∃ files, answer .loadSchemas = .ok files ∧
    SchemaSet.fromFiles rt files = .ok s'.schemas
  unconfigured : options.breakGlassPath = none → s'.record = s.record
  unread : ∀ path e, options.breakGlassPath = some path → answer (.readBreakGlass path) = .error e →
    s'.record = if absent e then none else s.record
  read : ∀ path source, options.breakGlassPath = some path →
    answer (.readBreakGlass path) = .ok source →
      (∀ record, (decryptedRecord options answer path source >>= parseRecord rt) = .ok record →
        s'.record = some record) ∧
      ∀ e, (decryptedRecord options answer path source >>= parseRecord rt) = .error e →
        s'.record = s.record

/-- The condition: the reload of the cache does not throw, and a file that cannot be read is absent,
or there was no record to lose. -/
structure Spared (absent : Error → Bool) (s : RepositoryState) : Prop where
  onCache : options.onCache = true → answer .onCache = .ok ()
  record : ∀ path e, options.breakGlassPath = some path → answer (.readBreakGlass path) = .error e →
    absent e = true ∨ s.record = none

theorem registryAfter_cases (registry : ServiceRegistry) :
    registryAfter rt answer registry = registry ∨ ∃ source, answer .readServices = .ok source ∧
      tableOf rt source = .ok (registryAfter rt answer registry) := by
  unfold registryAfter
  cases answer .readServices with
  | error e => exact .inl rfl
  | ok source =>
    simp only [bind, Except.bind]
    cases htable : tableOf rt source with
    | error e => exact .inl rfl
    | ok table => exact .inr ⟨source, rfl, htable⟩

theorem schemasAfter_cases (schemas : SchemaSet) :
    schemasAfter rt answer schemas = schemas ∨ ∃ files, answer .loadSchemas = .ok files ∧
      SchemaSet.fromFiles rt files = .ok (schemasAfter rt answer schemas) := by
  unfold schemasAfter
  cases answer .loadSchemas with
  | error e => exact .inl rfl
  | ok files =>
    simp only [bind, Except.bind]
    cases hset : SchemaSet.fromFiles rt files with
    | error e => exact .inl rfl
    | ok set => exact .inr ⟨files, rfl, hset⟩

/-- Whatever the functions it is given do, a reload keeps what is promised exactly where the reload
of the cache does not throw and an unreadable record is an absent one. -/
theorem reload_keeps_good_iff (absent : Error → Bool) (s : Process) :
    KeepsGood rt options answer absent s.repository
        ((reload rt options).eval answer s).2.repository ((reload rt options).eval answer s).1 ↔
      Spared options answer absent s.repository := by
  rw [eval_reload]
  constructor
  · intro h
    constructor
    · intro hcache
      have hresult := h.resolves
      rw [cacheResult, if_pos hcache] at hresult
      exact hresult
    · intro path e hpath he
      have hrecord := h.unread path e hpath he
      rw [stateAfter, recordAfter, hpath] at hrecord
      simp only [he] at hrecord
      cases habsent : absent e with
      | true => exact .inl rfl
      | false =>
        rw [habsent] at hrecord
        exact .inr hrecord.symm
  · intro h
    refine ⟨?_, registryAfter_cases rt answer _, schemasAfter_cases rt answer _, ?_, ?_, ?_⟩
    · unfold cacheResult
      split
      · rename_i hcache
        exact h.onCache hcache
      · rfl
    · intro hnone
      rw [stateAfter, recordAfter, hnone]
    · intro path e hpath he
      rw [stateAfter, recordAfter, hpath]
      simp only [he]
      split
      · rfl
      · rename_i habsent
        exact ((h.record path e hpath he).resolve_left habsent).symm
    · intro path source hpath hsource
      rw [stateAfter, recordAfter, hpath]
      simp only [hsource]
      constructor
      · intro record hrecord
        rw [hrecord]
        rfl
      · intro e he
        rw [he]
        rfl

/-- A record that was read at boot. -/
def bootRecord : BreakGlassRecord := ⟨.str "scrypt$2$1$1$c2FsdA==$a2V5", .str "GEZDGNBV", .str "ops"⟩

def bootProcess : Process where
  repository := { registry := noServices, schemas := ⟨[]⟩, record := some bootRecord }
  record := some bootRecord

/-- Every file is there but the volume of the record, which answers EIO. -/
def unreadableVolume : (o : Op) → Except Error o.Res
  | .onCache => .ok ()
  | .randomBytes _ | .scrypt _ _ _ _ _ _ => .ok []
  | .isIamReachable _ => .ok false
  | .loadSchemas => .ok []
  | .readServices | .decrypt _ _ => .ok ""
  | .readBreakGlass _ => .error ⟨"i/o error", some .other⟩

/-- The file of the record is absent, and the reload of the cache throws. -/
def failingCache : (o : Op) → Except Error o.Res
  | .onCache => .error (.of "could not decrypt config/payments/prod.yaml")
  | .readBreakGlass _ => .error ⟨"no such file", some .ENOENT⟩
  | o => unreadableVolume o

/-- An unreadable record is lost, and a reload throws. -/
theorem reload_drops_record_and_throws :
    ¬ KeepsGood sampleRuntime ⟨some "break-glass.yaml", true, true⟩ unreadableVolume Error.isMissing
        bootProcess.repository
        ((reload sampleRuntime ⟨some "break-glass.yaml", true, true⟩).eval unreadableVolume
          bootProcess).2.repository
        ((reload sampleRuntime ⟨some "break-glass.yaml", true, true⟩).eval unreadableVolume
          bootProcess).1 ∧
      ¬ KeepsGood sampleRuntime ⟨some "break-glass.yaml", true, true⟩ failingCache Error.isMissing
        bootProcess.repository
        ((reload sampleRuntime ⟨some "break-glass.yaml", true, true⟩).eval failingCache
          bootProcess).2.repository
        ((reload sampleRuntime ⟨some "break-glass.yaml", true, true⟩).eval failingCache
          bootProcess).1 := by
  constructor
  · intro h
    have hrecord := h.unread "break-glass.yaml" _ rfl rfl
    cases hrecord
  · intro h
    have hresolves := h.resolves
    cases hresolves

end ConfigRegistry.Auth
