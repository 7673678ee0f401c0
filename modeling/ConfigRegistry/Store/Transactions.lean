import ConfigRegistry.Js.Runtime
import ConfigRegistry.Js.Text
import Mathlib.Data.List.AList

/-!
# One transaction

`writeMany` of `src/store/data-layer.ts`, run with nothing beside it: what it refuses, and what the
database is afterwards. SHA-256 is the parameter `contentHash`.
-/

namespace ConfigRegistry.Store

open Js

/-- The files of a database, by path. -/
abbrev Files : Type := AList fun _ : String => String

structure Database where
  files : Files
  revision : Nat
  /-- Directories that no file may be in; those on the way to a file are there without being named. -/
  folders : List String := []

theorem Database.ext_entries {db db' : Database} (hfiles : db.files.entries = db'.files.entries)
    (hrevision : db.revision = db'.revision) (hfolders : db.folders = db'.folders) : db = db' := by
  cases db
  cases db'
  rw [Database.mk.injEq]
  exact ⟨AList.ext hfiles, hrevision, hfolders⟩

/-- What `databasePath` lets through: a relative, normal path none of whose parts starts with a
dot. -/
def isDatabasePath (path : String) : Bool :=
  let parts := path.toList.splitOn '/'
  path != "" && parts.dropLast.all (fun part => !part.isEmpty) &&
    parts.all fun part => part.head? != some '.'

/-- One file of a transaction. `expectedEtag` is absent where nothing is expected, and null where
the file must be. -/
structure MutationRequest where
  path : String
  content : Option String
  expectedEtag : Option (Option String)
  actor : String
  keys : List String
deriving DecidableEq

structure ReadPrecondition where
  path : String
  expectedEtag : Option String

structure CollectionPrecondition where
  path : String
  files : List String

inductive BatchWriteResult where
  | written (revision : Nat)
  | unchanged (revision : Nat)
  | conflict (path : String) (actual : Option String) (revision : Nat)

/-- Whether the path leads through the directory. -/
def isBelow (dir path : String) : Bool := startsWith path (dir ++ "/")

/-- The name in a directory that a path goes through. -/
def childName (dir path : String) : Option String :=
  if isBelow dir path then
    some (String.ofList ((path.toList.drop (dir.toList.length + 1)).takeWhile (· != '/')))
  else none

/-- `dirname`, of a path that is not in the root. -/
def parentOf (path : String) : Option String :=
  if '/' ∈ path.toList then
    some (String.ofList ((path.toList.reverse.dropWhile (· != '/')).drop 1).reverse)
  else none

namespace Database

variable (db : Database)

/-- Whether there is a directory at the path. -/
def isDirectory (path : String) : Bool :=
  db.files.keys.any (isBelow path) || db.folders.any fun folder => folder == path || isBelow path folder

/-- Whether a file stands where the path needs a directory. -/
def isBlocked (path : String) : Bool := db.files.keys.any fun file => isBelow file path

/-- What reading the path throws: `lstat` does where a part of it is a file, and `readFile` where it
is a directory. -/
def readError (path : String) : Option Error :=
  if db.isBlocked path then some { message := "ENOTDIR", code := some .ENOTDIR }
  else if db.isDirectory path then some { message := "EISDIR", code := some .EISDIR }
  else none

/-- `readdir`; a directory that is absent holds nothing. -/
def directoryNames (dir : String) : Except Error (List String) :=
  if db.isBlocked dir || (db.files.lookup dir).isSome then
    .error { message := "ENOTDIR", code := some .ENOTDIR }
  else .ok ((db.files.keys ++ db.folders).filterMap (childName dir)).eraseDups

end Database

section

variable (contentHash : String → String)

/-- `etag`. -/
def etag (files : Files) (path : String) : Option String := (files.lookup path).map contentHash

/-- The conflict of the first file that is not as its request expects. -/
def staleRequest (db : Database) (requests : List MutationRequest) : Option BatchWriteResult :=
  (requests.find? fun r => r.expectedEtag.any fun expected => expected != etag contentHash db.files r.path).map
    fun r => .conflict r.path (etag contentHash db.files r.path) db.revision

/-- The conflict of the first directory that does not hold the expected YAML files. -/
def staleCollection (db : Database) :
    List CollectionPrecondition → Except Error (Option BatchWriteResult)
  | [] => .ok none
  | check :: checks => do
    let names ← db.directoryNames check.path
    if sortTexts (names.filter fun name => endsWith name ".yaml") = sortTexts check.files then
      staleCollection db checks
    else pure (some (.conflict check.path none db.revision))

/-- The conflict of the first file that was read and is not as it was. -/
def staleRead (db : Database) : List ReadPrecondition → Except Error (Option BatchWriteResult)
  | [] => .ok none
  | check :: checks =>
    match db.readError check.path with
    | some e => .error e
    | none =>
      if check.expectedEtag = etag contentHash db.files check.path then staleRead db checks
      else .ok (some (.conflict check.path (etag contentHash db.files check.path) db.revision))

/-- The requests that leave a file different. -/
def changedRequests (db : Database) (requests : List MutationRequest) : List MutationRequest :=
  requests.filter fun r => r.content.map contentHash != etag contentHash db.files r.path

def MutationRequest.apply (files : Files) (r : MutationRequest) : Files :=
  match r.content with
  | some content => files.insert r.path content
  | none => files.erase r.path

/-- The next revision, with the requests carried out; a directory outlives its files. -/
def Database.publish (db : Database) (requests : List MutationRequest) : Database where
  files := requests.foldl MutationRequest.apply db.files
  revision := db.revision + 1
  folders := db.folders ++
    (requests.filter fun r => r.content.isNone).filterMap fun r => parentOf r.path

/-- `writeMany`. -/
def writeMany (requests : List MutationRequest) (checks : List ReadPrecondition)
    (collections : List CollectionPrecondition) (db : Database) :
    Except Error BatchWriteResult × Database :=
  let paths := checks.map ReadPrecondition.path ++ collections.map CollectionPrecondition.path ++
    requests.map MutationRequest.path
  match paths.find? fun path => !isDatabasePath path with
  | some path => (.error (.of s!"invalid database path: {path}"), db)
  | none =>
    if ¬ (requests.map MutationRequest.path).Nodup then
      (.error (.of "duplicate database path in transaction"), db)
    else
      match (requests.map MutationRequest.path).findSome? db.readError with
      | some e => (.error e, db)
      | none =>
        match staleRequest contentHash db requests with
        | some conflict => (.ok conflict, db)
        | none =>
          match staleCollection db collections with
          | .error e => (.error e, db)
          | .ok (some conflict) => (.ok conflict, db)
          | .ok none =>
            match staleRead contentHash db checks with
            | .error e => (.error e, db)
            | .ok (some conflict) => (.ok conflict, db)
            | .ok none =>
              let changed := changedRequests contentHash db requests
              if changed.isEmpty then (.ok (.unchanged db.revision), db)
              else if db.revision + 1 > maxSafeInteger then
                (.error (.of "database revision exhausted"), db)
              else (.ok (.written (db.revision + 1)), db.publish changed)

/-- `onWrite`'s event. -/
structure WriteEvent where
  path : String
  revision : Nat
  etag : String
  actor : String
  keys : List String

/-- The events of a transaction: one for each file that it changed. -/
def writeEvents (requests : List MutationRequest) (checks : List ReadPrecondition)
    (collections : List CollectionPrecondition) (db : Database) : List WriteEvent :=
  match (writeMany contentHash requests checks collections db).1 with
  | .ok (.written revision) => (changedRequests contentHash db requests).map fun r =>
    { path := r.path, revision, etag := (r.content.map contentHash).getD "", actor := r.actor, keys := r.keys }
  | _ => []

end

/-- The request for a path. -/
def requestFor (requests : List MutationRequest) (path : String) : Option MutationRequest :=
  requests.find? fun r => r.path == path

theorem requestFor_eq_some {requests : List MutationRequest} {path : String} {r : MutationRequest}
    (h : requestFor requests path = some r) : r ∈ requests ∧ r.path = path :=
  ⟨List.mem_of_find?_eq_some h, by simpa using List.find?_some h⟩

theorem requestFor_eq_none {requests : List MutationRequest} {path : String} :
    requestFor requests path = none ↔ ∀ r ∈ requests, r.path ≠ path := by
  simp [requestFor]

/-- Distinct paths: a request is found under its own. -/
theorem requestFor_of_mem {requests : List MutationRequest} {r : MutationRequest}
    (hn : (requests.map MutationRequest.path).Nodup) (h : r ∈ requests) :
    requestFor requests r.path = some r := by
  induction requests with
  | nil => cases h
  | cons q requests ih =>
    rw [List.map_cons, List.nodup_cons] at hn
    rw [requestFor, List.find?_cons]
    by_cases hq : q.path = r.path
    · rcases List.mem_cons.1 h with rfl | h
      · simp
      · exact (hn.1 (hq ▸ List.mem_map_of_mem h)).elim
    · rw [beq_false_of_ne hq]
      rcases List.mem_cons.1 h with rfl | h
      · exact (hq rfl).elim
      · exact ih hn.2 h

theorem lookup_apply_self (r : MutationRequest) (files : Files) :
    (r.apply files).lookup r.path = r.content := by
  rw [MutationRequest.apply]
  split
  · rename_i content h
    rw [h, AList.lookup_insert]
  · rename_i h
    rw [h, AList.lookup_erase]

theorem lookup_apply_ne {r : MutationRequest} {path : String} (files : Files) (h : path ≠ r.path) :
    (r.apply files).lookup path = files.lookup path := by
  rw [MutationRequest.apply]
  split
  · exact AList.lookup_insert_ne h
  · exact AList.lookup_erase_ne h

/-- After a transaction each file is as its request says, and the others are as they were. -/
theorem lookup_foldl_apply {requests : List MutationRequest} {files : Files} {path : String}
    (hn : (requests.map MutationRequest.path).Nodup) :
    (requests.foldl MutationRequest.apply files).lookup path =
      match requestFor requests path with
      | some r => r.content
      | none => files.lookup path := by
  induction requests generalizing files with
  | nil => rfl
  | cons q requests ih =>
    rw [List.map_cons, List.nodup_cons] at hn
    rw [List.foldl_cons, ih hn.2, requestFor, requestFor, List.find?_cons]
    by_cases hq : q.path = path
    · subst hq
      have hnone : requests.find? (fun r => r.path == q.path) = none := by
        refine requestFor_eq_none.2 fun r hr hrq => hn.1 ?_
        rw [← hrq]
        exact List.mem_map_of_mem hr
      rw [hnone, beq_self_eq_true]
      exact lookup_apply_self q files
    · rw [beq_false_of_ne hq]
      cases hr : requests.find? (fun r => r.path == path) with
      | some r => rfl
      | none => exact lookup_apply_ne files (Ne.symm hq)

/-- A transaction that was accepted: its paths are distinct and valid, nothing it expected had
changed, and every file is as it asked. -/
structure Carried (contentHash : String → String) (requests : List MutationRequest)
    (checks : List ReadPrecondition) (db db' : Database) : Prop where
  paths : ∀ r ∈ requests, isDatabasePath r.path = true
  distinct : (requests.map MutationRequest.path).Nodup
  expected : ∀ r ∈ requests, ∀ e, r.expectedEtag = some e → e = etag contentHash db.files r.path
  checks : ∀ check ∈ checks, check.expectedEtag = etag contentHash db.files check.path
  lookup : ∀ path, db'.files.lookup path =
    match requestFor requests path with
    | some r => r.content
    | none => db.files.lookup path

/-- Whether a transaction was accepted. -/
def BatchWriteResult.accepted : BatchWriteResult → Bool
  | .written _ | .unchanged _ => true
  | .conflict _ _ _ => false

variable {contentHash : String → String}

/-- Leaving out what would change nothing changes nothing. -/
theorem lookup_changedRequests (hash : Function.Injective contentHash) {db : Database}
    {requests : List MutationRequest} (hn : (requests.map MutationRequest.path).Nodup) (path : String) :
    ((changedRequests contentHash db requests).foldl MutationRequest.apply db.files).lookup path =
      match requestFor requests path with
      | some r => r.content
      | none => db.files.lookup path := by
  have hsub : ((changedRequests contentHash db requests).map MutationRequest.path).Nodup :=
    hn.sublist (List.filter_sublist.map _)
  rw [lookup_foldl_apply hsub]
  cases hr : requestFor requests path with
  | none =>
    have hnone : requestFor (changedRequests contentHash db requests) path = none :=
      requestFor_eq_none.2 fun r hmem => requestFor_eq_none.1 hr r (List.mem_filter.1 hmem).1
    rw [hnone]
  | some r =>
    obtain ⟨hmem, rfl⟩ := requestFor_eq_some hr
    by_cases hc : r.content.map contentHash = etag contentHash db.files r.path
    · have hnone : requestFor (changedRequests contentHash db requests) r.path = none := by
        refine requestFor_eq_none.2 fun q hq hqr => ?_
        obtain ⟨hq, hne⟩ := List.mem_filter.1 hq
        have heq := requestFor_of_mem hn hq
        rw [hqr, hr] at heq
        cases heq
        simp [hc] at hne
      rw [hnone]
      exact (Option.map_injective hash hc).symm
    · have hin : r ∈ changedRequests contentHash db requests :=
        List.mem_filter.2 ⟨hmem, by simpa using hc⟩
      rw [requestFor_of_mem hsub hin]

theorem staleCollection_eq_some {db : Database} {checks : List CollectionPrecondition}
    {r : BatchWriteResult} (h : staleCollection db checks = .ok (some r)) :
    ∃ check ∈ checks, r = .conflict check.path none db.revision := by
  induction checks with
  | nil => cases h
  | cons check checks ih =>
    rw [staleCollection] at h
    cases hnames : db.directoryNames check.path with
    | error e => rw [hnames] at h; cases h
    | ok names =>
      rw [hnames] at h
      change (if _ then _ else _) = _ at h
      split at h
      · obtain ⟨c, hc, rfl⟩ := ih h
        exact ⟨c, List.mem_cons_of_mem _ hc, rfl⟩
      · cases h
        exact ⟨check, List.mem_cons_self, rfl⟩

theorem staleRead_eq_some {db : Database} {checks : List ReadPrecondition} {r : BatchWriteResult}
    (h : staleRead contentHash db checks = .ok (some r)) : ∃ check ∈ checks,
      check.expectedEtag ≠ etag contentHash db.files check.path ∧
      r = .conflict check.path (etag contentHash db.files check.path) db.revision := by
  induction checks with
  | nil => cases h
  | cons check checks ih =>
    rw [staleRead] at h
    split at h
    · cases h
    split at h
    · obtain ⟨c, hc, hne, rfl⟩ := ih h
      exact ⟨c, List.mem_cons_of_mem _ hc, hne, rfl⟩
    · rename_i hne
      cases h
      exact ⟨check, List.mem_cons_self, hne, rfl⟩

/-- Every file that was read can be read, and is as it was. -/
theorem staleRead_eq_none {db : Database} {checks : List ReadPrecondition} :
    staleRead contentHash db checks = .ok none ↔ ∀ check ∈ checks,
      db.readError check.path = none ∧ check.expectedEtag = etag contentHash db.files check.path := by
  induction checks with
  | nil => simp [staleRead]
  | cons check checks ih =>
    rw [staleRead, List.forall_mem_cons]
    cases hread : db.readError check.path with
    | some e => simp
    | none =>
      by_cases heq : check.expectedEtag = etag contentHash db.files check.path
      · simp [heq, ih]
      · simp [heq]

/-- The refusals of a transaction leave everything as it was, and what it does otherwise is decided
by what it finds. -/
theorem writeMany_eq {requests : List MutationRequest} {checks : List ReadPrecondition}
    {collections : List CollectionPrecondition} {db db' : Database}
    {r : Except Error BatchWriteResult}
    (h : writeMany contentHash requests checks collections db = (r, db')) :
    db' = db ∧ (∀ result, r = .ok result → result.accepted = false) ∨
      (∀ path ∈ checks.map ReadPrecondition.path ++ collections.map CollectionPrecondition.path ++
        requests.map MutationRequest.path, isDatabasePath path = true) ∧
      (requests.map MutationRequest.path).Nodup ∧
      (requests.map MutationRequest.path).findSome? db.readError = none ∧
      staleRequest contentHash db requests = none ∧ staleCollection db collections = .ok none ∧
      staleRead contentHash db checks = .ok none ∧
      (changedRequests contentHash db requests = [] ∧ r = .ok (.unchanged db.revision) ∧ db' = db ∨
        changedRequests contentHash db requests ≠ [] ∧ r = .ok (.written (db.revision + 1)) ∧
          db' = db.publish (changedRequests contentHash db requests)) := by
  have hthrown {e : Error} (h : (.error e, db) = (r, db')) :
      db' = db ∧ ∀ result, r = .ok result → result.accepted = false := by
    cases h
    exact ⟨rfl, fun _ h => by cases h⟩
  have hconflict {path : String} {actual : Option String} {revision : Nat}
      (h : (.ok (.conflict path actual revision), db) = (r, db')) :
      db' = db ∧ ∀ result, r = .ok result → result.accepted = false := by
    cases h
    exact ⟨rfl, fun _ h => by cases h; rfl⟩
  simp only [writeMany] at h
  split at h
  · exact .inl (hthrown h)
  rename_i hpaths
  split at h
  · exact .inl (hthrown h)
  rename_i hdistinct
  split at h
  · exact .inl (hthrown h)
  rename_i hreadable
  split at h
  · rename_i conflict hstale
    obtain ⟨q, -, rfl⟩ := Option.map_eq_some_iff.1 hstale
    exact .inl (hconflict h)
  rename_i hexpected
  split at h
  · exact .inl (hthrown h)
  · rename_i conflict hstale
    obtain ⟨check, -, rfl⟩ := staleCollection_eq_some hstale
    exact .inl (hconflict h)
  rename_i hcollections
  split at h
  · exact .inl (hthrown h)
  · rename_i conflict hstale
    obtain ⟨check, -, -, rfl⟩ := staleRead_eq_some hstale
    exact .inl (hconflict h)
  rename_i hchecks
  have hvalid : ∀ path ∈ checks.map ReadPrecondition.path ++
      collections.map CollectionPrecondition.path ++ requests.map MutationRequest.path,
      isDatabasePath path = true := by
    intro path hpath
    simpa using List.find?_eq_none.1 hpaths path hpath
  have hn : (requests.map MutationRequest.path).Nodup := by simpa using hdistinct
  split at h
  · rename_i hempty
    cases h
    exact .inr ⟨hvalid, hn, hreadable, hexpected, hcollections, hchecks,
      .inl ⟨List.isEmpty_iff.1 hempty, rfl, rfl⟩⟩
  rename_i hchanged
  split at h
  · exact .inl (hthrown h)
  · cases h
    exact .inr ⟨hvalid, hn, hreadable, hexpected, hcollections, hchecks,
      .inr ⟨by simpa using hchanged, rfl, rfl⟩⟩

/-- A transaction publishes the requests that change something, or leaves everything as it was. -/
theorem writeMany_publishes {requests : List MutationRequest} {checks : List ReadPrecondition}
    {collections : List CollectionPrecondition} {db db' : Database}
    {r : Except Error BatchWriteResult}
    (h : writeMany contentHash requests checks collections db = (r, db')) :
    db' = db ∧ (∀ revision, r ≠ .ok (.written revision)) ∨
      r = .ok (.written (db.revision + 1)) ∧ staleRequest contentHash db requests = none ∧
        changedRequests contentHash db requests ≠ [] ∧
        db' = db.publish (changedRequests contentHash db requests) := by
  rcases writeMany_eq h with ⟨hdb, hrefused⟩ | ⟨-, -, -, hexpected, -, -, hresult⟩
  · refine .inl ⟨hdb, fun revision hr => ?_⟩
    have := hrefused _ hr
    simp [BatchWriteResult.accepted] at this
  · rcases hresult with ⟨-, rfl, hdb⟩ | ⟨hchanged, hr, hdb⟩
    · exact .inl ⟨hdb, by simp⟩
    · exact .inr ⟨hr, hexpected, hchanged, hdb⟩

/-- Where nothing was published there are no events. -/
theorem writeEvents_eq_nil {requests : List MutationRequest} {checks : List ReadPrecondition}
    {collections : List CollectionPrecondition} {db : Database}
    (h : (writeMany contentHash requests checks collections db).2 = db) :
    writeEvents contentHash requests checks collections db = [] := by
  cases hwrite : writeMany contentHash requests checks collections db with
  | mk r db' =>
    rw [hwrite] at h
    rw [writeEvents, hwrite]
    rcases writeMany_publishes hwrite with ⟨-, hnot⟩ | ⟨rfl, -, -, hdb⟩
    · split
      · rename_i revision hr
        exact (hnot revision hr).elim
      · rfl
    · have hrevision := congrArg Database.revision (h.symm.trans hdb)
      change db.revision = db.revision + 1 at hrevision
      omega

/-- What a transaction can do: be accepted, or leave everything as it was. -/
theorem writeMany_cases (hash : Function.Injective contentHash) {requests : List MutationRequest}
    {checks : List ReadPrecondition} {collections : List CollectionPrecondition} {db db' : Database}
    {r : Except Error BatchWriteResult}
    (h : writeMany contentHash requests checks collections db = (r, db')) :
    db' = db ∧ (∀ result, r = .ok result → result.accepted = false) ∨
      (r = .ok (.unchanged db.revision) ∧ db' = db ∨
        r = .ok (.written (db.revision + 1)) ∧ db'.revision = db.revision + 1) ∧
      Carried contentHash requests checks db db' := by
  rcases writeMany_eq h with hrefused | ⟨hpaths, hn, -, hexpected, -, hchecks, hresult⟩
  · exact .inl hrefused
  have hcarried : (∀ path, db'.files.lookup path =
      ((changedRequests contentHash db requests).foldl MutationRequest.apply db.files).lookup path) →
      Carried contentHash requests checks db db' := by
    intro hlookup
    refine ⟨fun q hq => ?_, hn, fun q hq e he => ?_, fun check hcheck => ?_, fun path => ?_⟩
    · exact hpaths _ (List.mem_append_right _ (List.mem_map_of_mem hq))
    · have := List.find?_eq_none.1 (Option.map_eq_none_iff.1 hexpected) q hq
      simpa [he] using this
    · exact (staleRead_eq_none.1 hchecks check hcheck).2
    · rw [hlookup, lookup_changedRequests hash hn]
  rcases hresult with ⟨hempty, hr, rfl⟩ | ⟨-, hr, rfl⟩
  · refine .inr ⟨.inl ⟨hr, rfl⟩, hcarried fun path => ?_⟩
    rw [hempty, List.foldl_nil]
  · exact .inr ⟨.inr ⟨hr, rfl⟩, hcarried fun path => rfl⟩

end ConfigRegistry.Store
