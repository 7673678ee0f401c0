import ConfigRegistry.Identity.AccessGuard
import ConfigRegistry.Schema.Validator
import ConfigRegistry.Store.Loader
import ConfigRegistry.Store.Metadata

/-!
# What a read answers

The end of the read route in `src/routes/internal.ts`: the response is put together from the cache
and the schemas within one turn.
-/

namespace ConfigRegistry.Api

open Js Identity Schema Store

/-- `ReadLogEntry`, of a read that was served or whose namespace has no file. -/
structure ReadLogEntry where
  served : Bool
  uid : Nat
  service : String
  onNamespace : String
  commit : Option Nat
  keys : List String

/-- The body of a served read. -/
structure Body where
  service : String
  environment : String
  commit : Option Nat
  retiring : Bool
  config : Record
  flags : List (String × Bool)
  syncedCommit : Option String

/-- What is sent. -/
inductive Reply where
  | ok (body : Body)
  | notModified
  | forbidden (problem : Denied)
  /-- `{ code: 'not_found', title: 'Not Found' }`. -/
  | notFound

def Reply.status : Reply → Nat
  | ok _ => 200
  | notModified => 304
  | forbidden problem => problem.status
  | notFound => 404

/-- The log entry and the response of a read by `identity`. -/
def respond (cache : ConfigCache) (schemas : SchemaSet) (identity : ServiceIdentity)
    (service environment : String) : ReadLogEntry × Reply :=
  let entry : ReadLogEntry :=
    { served := false, uid := identity.uid, service := identity.name
      onNamespace := service ++ "/" ++ environment, commit := cache.commit, keys := [] }
  match (cache.get service environment).map configOnly with
  | none => (entry, .notFound)
  | some config =>
    ({ entry with served := true, keys := config.map Prod.fst },
      .ok
        { service, environment
          commit := cache.commit
          retiring := schemas.isRetiring service
          config
          flags := cache.flagsFor environment
          syncedCommit := cache.synced })

variable {cache : ConfigCache} {schemas : SchemaSet} {identity : ServiceIdentity}
  {service environment : String}

variable (cache schemas identity service environment) in
/-- A read that gets this far is answered with the values or with their absence. -/
theorem respond_cases : (respond cache schemas identity service environment).2 = .notFound ∨
    ∃ body, (respond cache schemas identity service environment).2 = .ok body := by
  unfold respond
  dsimp only
  split
  · exact .inl rfl
  · exact .inr ⟨_, rfl⟩

variable (schemas identity) in
/-- A namespace that the cache holds is served. -/
theorem respond_of_get {stored : RawConfig} (h : cache.get service environment = some stored) :
    ∃ body, (respond cache schemas identity service environment).2 = .ok body := by
  unfold respond
  rw [h]
  exact ⟨_, rfl⟩

/-- A body says what the cache held. -/
theorem body_of_respond {body : Body}
    (h : (respond cache schemas identity service environment).2 = .ok body) :
    body.commit = cache.commit ∧ body.flags = cache.flagsFor environment ∧
      ∃ stored, cache.get service environment = some stored ∧ body.config = configOnly stored := by
  unfold respond at h
  dsimp only at h
  split at h
  · cases h
  · rename_i config hconfig
    cases h
    obtain ⟨stored, hstored, rfl⟩ := Option.map_eq_some_iff.1 hconfig
    exact ⟨rfl, rfl, stored, hstored, rfl⟩

end ConfigRegistry.Api
