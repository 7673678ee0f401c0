import ConfigRegistry.Backup.WriteJournal
import ConfigRegistry.Js.Text

/-!
# The sync engine

`src/store/sync-engine.ts` and its wiring in `src/server.ts`: the database is mirrored into the
clone and committed there, with the entries of the journal in the message. Database writes append
to the journal before they return.
-/

namespace ConfigRegistry.Backup

open Js Json Async

/-- The text of a document that is one. -/
def textOf : Doc → Option String
  | .str text => some (String.ofList text)
  | _ => none

/-- The entry a line of the journal was made from. The code casts instead; only `append` writes
the file. -/
def JournalEntry.ofDoc : Doc → Option JournalEntry
  | .obj [(_, .str actor), (_, .str path), (_, .arr keys), (_, .str revision), (_, .str timestamp)] =>
    some ⟨String.ofList actor, String.ofList path, keys.filterMap textOf, String.ofList revision,
      String.ofList timestamp⟩
  | _ => none

@[simp] theorem JournalEntry.ofDoc_toDoc (e : JournalEntry) : ofDoc e.toDoc = some e := by
  have hkeys : (e.keys.map fun key => Doc.str key.toList).filterMap textOf = e.keys := by
    rw [List.filterMap_map]
    simp [Function.comp_def, textOf]
  show some (JournalEntry.mk _ _ _ _ _) = some e
  rw [hkeys]
  simp only [String.ofList_toList]

/-- The name of a namespace in the subject of a commit. -/
def namespaceName (file : String) : String :=
  String.ofList ((file.toList.drop 7).take (file.toList.length - 7 - 5))

/-- `xs.length > 0 ? a : b`. -/
def orElse (xs : List String) (a b : String) : String := if xs.isEmpty then b else a

theorem orElse_of_mem {x : String} {xs : List String} (h : x ∈ xs) (a b : String) :
    orElse xs a b = a := by
  rw [orElse, List.isEmpty_eq_false_iff.2 (List.ne_nil_of_mem h)]
  rfl

/-- The lines of the message of a commit. -/
def messageLines (files : List String) (entries : List JournalEntry) : List String :=
  let actors := distinctSorted (entries.map JournalEntry.actor)
  let keys := distinctSorted (entries.flatMap JournalEntry.keys)
  let namespaces := distinctSorted
    ((files.filter fun file => "config/".toList.isPrefixOf file.toList).map namespaceName)
  let subject := orElse namespaces ("sync " ++ ", ".intercalate namespaces)
    ("sync " ++ orElse files (", ".intercalate files) "database")
  [subject, "", orElse keys ("Keys: " ++ ", ".intercalate keys) "Keys: none",
    orElse actors ("Actors: " ++ ", ".intercalate actors) "Actors: unknown", ""] ++
    actors.map fun actor => "Actor: " ++ actor

def composeCommitMessage (files : List String) (entries : List JournalEntry) : String :=
  "\n".intercalate (messageLines files entries)

/-- A message names who made a change and the keys that changed. -/
def Names (message : String) (e : JournalEntry) : Prop :=
  ∃ lines, message = "\n".intercalate lines ∧ "Actor: " ++ e.actor ∈ lines ∧
    ∀ key ∈ e.keys, ∃ keys, ("Keys: " ++ ", ".intercalate keys) ∈ lines ∧ key ∈ keys

theorem names_composeCommitMessage {files : List String} {entries : List JournalEntry}
    {e : JournalEntry} (h : e ∈ entries) : Names (composeCommitMessage files entries) e := by
  refine ⟨messageLines files entries, rfl, ?_, fun key hkey => ?_⟩
  · have hactor : e.actor ∈ distinctSorted (entries.map JournalEntry.actor) :=
      mem_distinctSorted.2 (List.mem_map_of_mem h)
    exact List.mem_append_right _ (List.mem_map_of_mem hactor)
  · have hmem : key ∈ distinctSorted (entries.flatMap JournalEntry.keys) :=
      mem_distinctSorted.2 (List.mem_flatMap.2 ⟨e, h, hkey⟩)
    refine ⟨_, List.mem_append_left _ (.tail _ (.tail _ ?_)), hmem⟩
    rw [orElse_of_mem hmem]
    exact List.mem_cons_self

namespace SyncEngine

/-- `mirrorSnapshot`: files that are gone are removed, all others written. -/
def mirrorSnapshot (source : Files) : Prog lang (List String) := do
  op .mkdirClone
  let previous ← op .collect
  Prog.each previous fun file => if file ∈ source.keys then pure () else op (.removeFile file)
  Prog.each source.entries fun ⟨file, version⟩ => op (.writeFile file version)
  pure (distinctSorted (source.keys ++ previous))

/-- `performSync`. -/
def performSync : Prog lang SyncResult := do
  let handle ← WriteJournal.rotate
  let source ← op .snapshot
  let files ← mirrorSnapshot source
  let changed ← op .status
  if changed = false then
    WriteJournal.discard .clean handle
    pure { kind := .clean, files }
  else
    let entries ← WriteJournal.drain handle
    let commit ← op (.commit (composeCommitMessage files (entries.filterMap JournalEntry.ofDoc)))
    WriteJournal.discard .committed handle
    let (pushed, reason) ← op .push
    if pushed then pure { kind := .synced, files, commit := some commit }
    else pure { kind := .deferred, files, commit := some commit, reason }

/-- The sync of call `t` has ended with `r`. -/
def ended (t : Nat) (r : Except Error SyncResult) (s : State) : State :=
  { s with running := none, results := (t, r) :: s.results }

/-- `syncNow`, called as call `t`: while a sync runs, its result is awaited. -/
def syncNow (t : Nat) : Prog lang SyncResult := do
  match (← Prog.get (S := lang)).running with
  | some t' => op (.joined t')
  | none =>
    Prog.modify (S := lang) fun s => { s with running := some t }
    let r ← performSync.attempt
    Prog.modify (S := lang) (ended t r)
    .done r

end SyncEngine

/-- A database write: the transaction takes effect under the publication lock, and every event is
delivered to the journal before the lock is released. A failed delivery leaves the database in need
of a restart. -/
def write (changes : List Change) : Prog lang Unit := do
  if ¬ (changes.map Change.path).Nodup then .fail (.of "duplicate database path in transaction")
  else
    let entries ← op (.publish changes)
    if entries.isEmpty then pure ()
    else
      .ensure
        (.handle (do
          Prog.each entries WriteJournal.append
          op .complete) fun e => do
          Prog.modify (S := lang) fun s => { s with healthy := false }
          .fail e)
        (Prog.modify (S := lang) fun s => { s with publishing := false })

/-- What the service is asked for. `boot` recovers the journal before anything else is served;
`append` is the delivery of an event by itself, as a recovered transaction makes it. -/
inductive Request where
  | write (changes : List Change)
  | append (entry : JournalEntry)
  | sync
  | peek
  | boot

/-- The program of the request made as call `t`. -/
def serve (t : Nat) : Request → Prog lang Unit
  | .write changes => write changes
  | .append entry => WriteJournal.append entry
  | .sync => do let _ ← SyncEngine.syncNow t; pure ()
  | .peek => do let _ ← WriteJournal.peek; pure ()
  | .boot => do
    WriteJournal.recover
    Prog.modify (S := lang) fun s => { s with up := true }

end ConfigRegistry.Backup
