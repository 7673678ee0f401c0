import ConfigRegistry.Async.Drive
import ConfigRegistry.Js.Value
import ConfigRegistry.Json.Lines
import Mathlib.Data.List.AList

/-!
# The language of backups

What `src/store/write-journal.ts` and `src/store/sync-engine.ts` act on: the two files of the
attribution journal, the database, and the clone it is mirrored into. File and git operations are
operations of the language `lang`; database writes, other back-ups and kills may come between any
two of them.
-/

namespace ConfigRegistry.Backup

open Js Json Async

/-- Who changed a file, in which revision. -/
structure JournalEntry where
  actor : String
  path : String
  keys : List String
  revision : String
  timestamp : String
deriving DecidableEq

/-- `JSON.stringify(entry)`, as a document. -/
def JournalEntry.toDoc (e : JournalEntry) : Doc :=
  .obj [("actor".toList, .str e.actor.toList), ("path".toList, .str e.path.toList),
    ("keys".toList, .arr (e.keys.map fun key => .str key.toList)),
    ("revision".toList, .str e.revision.toList), ("timestamp".toList, .str e.timestamp.toList)]

/-- The line `append` adds for an entry. -/
abbrev JournalEntry.line (e : JournalEntry) : List Char := Json.line e.toDoc

/-- The text of a file, with the journal entry of the write that produced it; bootstrapped files
have none. The code keeps the text only. -/
structure FileVersion where
  content : String
  writtenBy : Option JournalEntry
deriving DecidableEq

/-- The files of a tree, by path. -/
abbrev Files : Type := AList fun _ : String => FileVersion

/-- The text at a path. -/
def contentAt (files : Files) (path : String) : Option String :=
  (files.lookup path).map FileVersion.content

/-- One file of a transaction: the text it gets, none to delete it. -/
structure Change where
  path : String
  content : Option String
  actor : Option String
  keys : List String
  timestamp : String

/-- The entry `onWrite` appends for a change. -/
def Change.entry (c : Change) (revision : Nat) : JournalEntry where
  actor := c.actor.getD "unknown"
  path := c.path
  keys := c.keys
  revision := toString revision
  timestamp := c.timestamp

def Change.apply (revision : Nat) (files : Files) (c : Change) : Files :=
  match c.content with
  | some content => files.insert c.path ⟨content, some (c.entry revision)⟩
  | none => files.erase c.path

inductive JournalFile where
  | pending
  | sending
deriving DecidableEq

/-- Why `sending.jsonl` is removed. The code does not keep it. -/
inductive Removal where
  /-- By a rotation that begins. -/
  | rotated
  /-- By a sync that found no difference. -/
  | clean
  /-- By a sync that committed. -/
  | committed
  /-- By a recovery that has merged the file back. -/
  | recovered
  /-- By a caller of `discard`. -/
  | called
deriving DecidableEq

/-- A commit of the clone: the tree it was made on and the one it made, with the database and its
revision as the sync found them. -/
structure Commit where
  message : String
  parent : Files
  tree : Files
  source : Files
  revision : Nat

/-- What a sync that found no difference discarded, with the two trees it had compared, and the
database and its revision as the sync found them. -/
structure Clearing where
  entries : List Doc
  head : Files
  tree : Files
  source : Files
  revision : Nat

inductive SyncKind where
  | clean
  | synced
  | deferred
deriving DecidableEq

structure SyncResult where
  kind : SyncKind
  files : List String
  commit : Option String := none
  reason : Option String := none
deriving DecidableEq

structure State where
  /-- `pending.jsonl` and `sending.jsonl`, none while absent. -/
  pending : Option (List Char) := none
  sending : Option (List Char) := none
  /-- The files and the revision of the database, whether a transaction is being published, and
  whether no publication has failed. -/
  files : Files := ∅
  revision : Nat := 0
  publishing : Bool := false
  healthy : Bool := true
  /-- The working tree of the clone outside `.git`, and the tree of its last commit. -/
  clone : Files := ∅
  head : Files := ∅
  commits : List Commit := []
  /-- `SyncEngine.running`: the call whose sync is in progress. -/
  running : Option Nat := none
  /-- How the promises of earlier syncs were settled. -/
  results : List (Nat × Except Error SyncResult) := []
  /-- The service has recovered its journal and accepts requests. -/
  up : Bool := true
  /-- Beside the code: every entry appended, what syncs that found no difference discarded, and the
  last snapshot with its revision. -/
  appended : List JournalEntry := []
  cleared : List Clearing := []
  source : Files := ∅
  taken : Nat := 0
  /-- Beside the code: the entries appended and not discarded, those rotated away and the others,
  each in order. -/
  sent : List JournalEntry := []
  kept : List JournalEntry := []

def State.file (s : State) : JournalFile → Option (List Char)
  | .pending => s.pending
  | .sending => s.sending

inductive Op where
  /-- `mkdir(this.root, …)`. -/
  | mkdir
  /-- `appendFile(this.pending, …)`. -/
  | appendFile (entry : JournalEntry)
  /-- `rename(this.pending, this.sending)`. -/
  | rename
  /-- `writeFile(this.sending, '')`. -/
  | createSending
  /-- `writeFile(this.pending, text)`. -/
  | rewritePending (text : List Char)
  | readFile (file : JournalFile)
  /-- `rm(file, { force: true })`. -/
  | remove (file : JournalFile) (why : Removal)
  /-- The part of `writeMany` up to the first write event. -/
  | publish (changes : List Change)
  /-- The end of a transaction, after its write events. -/
  | complete
  /-- `db.snapshot()`. -/
  | snapshot
  /-- `mkdir(destination, …)`. -/
  | mkdirClone
  /-- `collectFiles(destination)`. -/
  | collect
  | removeFile (path : String)
  | writeFile (path : String) (version : FileVersion)
  | status
  | commit (message : String)
  | push
  /-- The promise of the sync that call `t` started. -/
  | joined (t : Nat)

abbrev Op.Res : Op → Type
  | .readFile _ => List Char
  | .publish _ => List JournalEntry
  | .snapshot => Files
  | .collect => List String
  | .status => Bool
  | .commit _ => String
  | .push => Bool × Option String
  | .joined _ => SyncResult
  | _ => Unit

abbrev lang : Sig where
  State := State
  Err := Error
  Op := Op
  Res := Op.Res

/-- Await an operation. -/
abbrev op (o : Op) : Prog lang o.Res := Prog.op (S := lang) o

namespace State

variable (s : State)

def append (e : JournalEntry) : State :=
  { s with pending := some (s.pending.getD [] ++ e.line), appended := e :: s.appended
           kept := s.kept ++ [e] }

/-- `pending.jsonl` takes the place of `sending.jsonl`. -/
def rotatePending : State :=
  { s with pending := none, sending := s.pending, sent := s.sent ++ s.kept, kept := [] }

def createSending : State := { s with sending := some [] }

def rewritePending (text : List Char) : State :=
  { s with pending := some text, sent := [], kept := s.sent ++ s.kept }

/-- The entries a file holds. -/
def entriesOf (file : JournalFile) : List Doc := (parseLines ((s.file file).getD [])).getD []

def removeFile (file : JournalFile) (why : Removal) : State :=
  let s₁ := match file with
    | .pending => { s with pending := none }
    | .sending => { s with sending := none }
  match why with
  | .rotated | .recovered => s₁
  | .clean => { s₁ with
      sent := []
      cleared := ⟨s.entriesOf file, s.head, s.clone, s.source, s.taken⟩ :: s.cleared }
  | .committed | .called => { s₁ with sent := [] }

/-- The changes that leave a file different. -/
def changed (changes : List Change) : List Change :=
  changes.filter fun c => c.content != contentAt s.files c.path

/-- The transaction takes effect, and its lock stays held for the write events. -/
def publish (changes : List Change) : State :=
  { s with
    files := (s.changed changes).foldl (Change.apply (s.revision + 1)) s.files
    revision := s.revision + 1
    publishing := true }

/-- Whether the working tree differs from the last commit. -/
def dirty : Bool :=
  (s.clone.keys ++ s.head.keys).any fun path => contentAt s.clone path != contentAt s.head path

def commit (message : String) : State :=
  { s with head := s.clone, commits := ⟨message, s.head, s.clone, s.source, s.taken⟩ :: s.commits }

end State

/-- What an operation does when it does not fail. -/
def Op.answers : (o : Op) → State → o.Res → State → Prop
  | .appendFile e, s, _, s' => s' = s.append e
  | .rename, s, _, s' => s.pending.isSome ∧ s' = s.rotatePending
  | .createSending, s, _, s' => s' = s.createSending
  | .rewritePending text, s, _, s' => s' = s.rewritePending text
  | .readFile file, s, r, s' => s.file file = some r ∧ s' = s
  | .remove file why, s, _, s' => s' = s.removeFile file why
  | .publish changes, s, r, s' => s.publishing = false ∧ s.healthy = true ∧
      r = (s.changed changes).map (·.entry (s.revision + 1)) ∧
      s' = if (s.changed changes).isEmpty then s else s.publish changes
  | .snapshot, s, r, s' => s.publishing = false ∧ s.healthy = true ∧ r = s.files ∧
      s' = { s with source := s.files, taken := s.revision }
  | .collect, s, r, s' => r = s.clone.keys ∧ s' = s
  | .removeFile path, s, _, s' => s' = { s with clone := s.clone.erase path }
  | .writeFile path version, s, _, s' => s' = { s with clone := s.clone.insert path version }
  | .status, s, r, s' => r = s.dirty ∧ s' = s
  | .commit message, s, _, s' => s.dirty = true ∧ s' = s.commit message
  | .joined t, s, r, s' => (t, .ok r) ∈ s.results ∧ s' = s
  | _, s, _, s' => s' = s

/-- How an operation fails. A file is reported missing exactly when it is; a commit may fail after
it was made; a publication that fails may leave the database in need of a restart. -/
def Op.fails : Op → State → Error → State → Prop
  | .rename, s, e, s' => e.isMissing = s.pending.isNone ∧ s' = s
  | .readFile file, s, e, s' => e.isMissing = (s.file file).isNone ∧ s' = s
  | .publish _, s, _, s' => s.publishing = false ∧ (s' = s ∨ s' = { s with healthy := false })
  | .snapshot, s, _, s' => s.publishing = false ∧ s' = s
  | .commit message, s, _, s' => s' = s ∨ s.dirty = true ∧ s' = s.commit message
  | .joined t, s, e, s' => (t, .error e) ∈ s.results ∧ s' = s
  | _, s, _, s' => s' = s

/-- What a kill may leave of a file write: a part of what was to be written. -/
def Op.torn : Op → State → State → Prop
  | .appendFile e, s, s' =>
      ∃ part, part <+: e.line ∧ s' = { s with pending := some (s.pending.getD [] ++ part) }
  | .createSending, s, s' => s' = s.createSending
  | .rewritePending text, s, s' => ∃ part, part <+: text ∧ s' = { s with pending := some part }
  | _, _, _ => False

/-- A restarted process: nothing runs, and the journal is not recovered yet. -/
def State.restart (s : State) : State :=
  { s with running := none, publishing := false, healthy := true, up := false }

abbrev sem : Sem lang where
  step o s r s' := match r with
    | .ok a => o.answers s a s'
    | .error e => o.fails s e s'
  torn := Op.torn
  crash s s' := s' = s.restart

/-! ### Scheduled runs -/

/-- The answer an operation gives when it does not fail; none while it has to wait. -/
def Op.answer (s : State) : (o : Op) → Option (o.Res × State)
  | .mkdir => some ((), s)
  | .appendFile e => some ((), s.append e)
  | .rename => if s.pending.isSome then some ((), s.rotatePending) else none
  | .createSending => some ((), s.createSending)
  | .rewritePending text => some ((), s.rewritePending text)
  | .readFile file => (s.file file).map fun text => (text, s)
  | .remove file why => some ((), s.removeFile file why)
  | .publish changes =>
    if s.publishing = false ∧ s.healthy = true then
      some ((s.changed changes).map (·.entry (s.revision + 1)),
        if (s.changed changes).isEmpty then s else s.publish changes)
    else none
  | .complete => some ((), s)
  | .snapshot =>
    if s.publishing = false ∧ s.healthy = true then some (s.files, { s with source := s.files, taken := s.revision })
    else none
  | .mkdirClone => some ((), s)
  | .collect => some (s.clone.keys, s)
  | .removeFile path => some ((), { s with clone := s.clone.erase path })
  | .writeFile path version => some ((), { s with clone := s.clone.insert path version })
  | .status => some (s.dirty, s)
  | .commit message => if s.dirty = true then some ("sha", s.commit message) else none
  | .push => some ((true, none), s)
  | .joined _ => none

/-- An operation answers, or fails without an effect: a missing file as such, any other with an
I/O error. -/
def perform (works : Bool) (o : Op) (s : State) : Option (Except Error o.Res × State) :=
  match o with
  | .rename =>
    if s.pending.isNone then some (.error { message := "ENOENT", code := some .ENOENT }, s)
    else if works then some (.ok (), s.rotatePending)
    else some (.error { message := "input/output error", code := some .other }, s)
  | .readFile file =>
    match s.file file with
    | none => some (.error { message := "ENOENT", code := some .ENOENT }, s)
    | some text =>
      if works then some (.ok text, s) else some (.error { message := "input/output error", code := some .other }, s)
  | .joined _ => none
  | o =>
    if works then (o.answer s).map fun (a, s') => (.ok a, s')
    else if s.publishing then none
    else some (.error { message := "input/output error", code := some .other }, s)

theorem Op.answers_of_answer {s s' : State} {o : Op} {a : o.Res} (h : o.answer s = some (a, s')) :
    o.answers s a s' := by
  cases o with
  | rename =>
    simp only [Op.answer] at h
    split at h
    · rename_i hp
      cases h
      exact ⟨hp, rfl⟩
    · cases h
  | readFile file =>
    obtain ⟨text, ht, he⟩ := Option.map_eq_some_iff.1 h
    cases he
    exact ⟨ht, rfl⟩
  | publish changes =>
    simp only [Op.answer] at h
    split at h
    · rename_i hp
      cases h
      exact ⟨hp.1, hp.2, rfl, rfl⟩
    · cases h
  | snapshot =>
    simp only [Op.answer] at h
    split at h
    · rename_i hp
      cases h
      exact ⟨hp.1, hp.2, rfl, rfl⟩
    · cases h
  | commit message =>
    simp only [Op.answer] at h
    split at h
    · rename_i hd
      cases h
      exact ⟨hd, rfl⟩
    · cases h
  | joined t => cases h
  | collect => cases h; exact ⟨rfl, rfl⟩
  | status => cases h; exact ⟨rfl, rfl⟩
  | _ => cases h; rfl

theorem step_of_perform {works : Bool} {o : Op} {s s' : State} {r : Except Error o.Res}
    (h : perform works o s = some (r, s')) : sem.step o s r s' := by
  have hmissing : ({ message := "ENOENT", code := some .ENOENT } : Error).isMissing = true := rfl
  have hother : ({ message := "input/output error", code := some .other } : Error).isMissing = false := rfl
  cases o with
  | rename =>
    simp only [perform] at h
    split at h
    · rename_i hn
      cases h
      exact ⟨by rw [hn, hmissing], rfl⟩
    · rename_i hn
      have hs : s.pending.isSome = true := Option.isSome_iff_ne_none.2 (by simpa using hn)
      split at h <;> cases h
      · exact ⟨hs, rfl⟩
      · exact ⟨by rw [hother, Option.isNone_eq_false_iff.2 hs], rfl⟩
  | readFile file =>
    simp only [perform] at h
    split at h
    · rename_i hn
      cases h
      exact ⟨by rw [hn, hmissing]; rfl, rfl⟩
    · rename_i text hn
      split at h <;> cases h
      · exact ⟨hn, rfl⟩
      · exact ⟨by rw [hn, hother]; rfl, rfl⟩
  | joined t => cases h
  | _ =>
    simp only [perform] at h
    split at h
    · obtain ⟨⟨a, s₁⟩, ha, he⟩ := Option.map_eq_some_iff.1 h
      cases he
      exact Op.answers_of_answer ha
    · split at h
      · cases h
      · cases h
        simp_all [Op.fails]

end ConfigRegistry.Backup
