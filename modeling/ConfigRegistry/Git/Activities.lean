import ConfigRegistry.Git.Language

/-!
# What works on the clone

`src/store/sync-engine.ts`, `src/store/file-writer.ts`, `src/git/repository.ts` and
`src/git/syncer.ts`, with what `src/server.ts` sets going: syncs, the retry of unpushed commits, and
the pulls of the webhook and of the poll. `t` is the call an activity was started by.
-/

namespace ConfigRegistry.Git

open Js Async

/-- `Promise<PushResult>`. -/
structure PushResult where
  pushed : Bool
  reason : Option String := none

namespace FileWriter

variable (t : Nat)

/-- `write`. -/
def write (path content : String) : Prog lang Unit := do
  let unique ← op .unique
  let temporary := path ++ "." ++ unique ++ ".tmp"
  Prog.handle (do
    on t (.createTemporary temporary content)
    on t (.renameTemporary temporary path)) fun cause => do
      let _ ← (on t (.remove temporary)).attempt
      .fail cause

/-- `remove`. -/
def remove (path : String) : Prog lang Unit := on t (.remove path)

end FileWriter

namespace GitRepository

variable (t : Nat)

def headCommit : Prog lang String := on t .headCommit

def hasWorkingTreeChanges : Prog lang Bool := on t .status

def commitWorkingTree (message : String) : Prog lang (Option String) := do
  on t .add
  let staged ← on t .diffCached
  if staged = false then pure none
  else
    on t (.commit message)
    let sha ← headCommit t
    pure (some sha)

def rebaseAndPush (first : Error) : Prog lang PushResult := do
  match ← (op .fetch).attempt with
  | .error _ => pure { pushed := false, reason := some first.message }
  | .ok _ =>
    match ← (on t .rebase).attempt with
    | .error cause =>
      let _ ← (on t .abort).attempt
      pure { pushed := false, reason := some ("remote has diverged: " ++ cause.message) }
    | .ok _ =>
      Prog.handle (do
        on t .push
        pure { pushed := true }) fun cause =>
          pure { pushed := false, reason := some cause.message }

def push : Prog lang PushResult := do
  match ← op .remote with
  | none => pure { pushed := false, reason := some "no remote is configured" }
  | some _ =>
    Prog.handle (do
      on t .push
      pure { pushed := true }) fun cause => rebaseAndPush t cause

/-- The number of commits that `unpushedCommits` lists. -/
def unpushedCommits : Prog lang Nat := do
  match ← op .remote with
  | none => pure 0
  | some _ => Prog.handle (on t .unpushed) fun _ => pure 0

def pull : Prog lang String := do
  match ← op .remote with
  | none => headCommit t
  | some _ =>
    op .fetch
    on t .merge
    headCommit t

/-- The commit that `readSources` was answered from. -/
def readSources : Prog lang String := do
  let commit ← headCommit t
  op .readSources
  pure commit

end GitRepository

/-- `gitSyncPort(repository).commit`. -/
def commit (t : Nat) (message : String) : Prog lang String := do
  match ← GitRepository.commitWorkingTree t message with
  | some commit => pure commit
  | none => .fail (.of "Git reported changes but produced no commit")

namespace SyncEngine

variable (t : Nat)

/-- `mirrorSnapshot`. -/
def mirrorSnapshot (source : Files) : Prog lang (List String) := do
  on t .mkdir
  let previous ← on t .collectFiles
  Prog.each previous fun file =>
    if file ∈ source.keys then pure () else FileWriter.remove t file
  Prog.each source.entries fun ⟨file, content⟩ => FileWriter.write t file content
  pure (distinctSorted (source.keys ++ previous))

/-- `performSync`. -/
def performSync : Prog lang Backup.SyncResult := do
  op .rotate
  let source ← op .snapshot
  let files ← mirrorSnapshot t source
  let changed ← GitRepository.hasWorkingTreeChanges t
  if changed = false then
    op .discard
    pure { kind := .clean, files }
  else
    let entries ← op .drain
    let sha ← commit t (Backup.composeCommitMessage files entries)
    op .discard
    let pushed ← GitRepository.push t
    if pushed.pushed then pure { kind := .synced, files, commit := some sha }
    else pure { kind := .deferred, files, commit := some sha, reason := pushed.reason }

/-- `syncNow`: while a sync runs, its promise is handed out. The slot is cleared once the promise is
settled and whoever started the sync goes on. -/
def syncNow : Prog lang Backup.SyncResult := do
  match (← Prog.get (S := lang)).running with
  | some t' =>
    Prog.modify (S := lang) fun s => s.call t'
    op (.joined t')
  | none =>
    Prog.modify (S := lang) fun s => s.start t
    let r ← (performSync t).attempt
    Prog.modify (S := lang) fun s => s.settle t r
    Prog.ensure (op (.joined t)) (Prog.modify (S := lang) State.clear)

end SyncEngine

/-- `GitSyncer.retryUnpushed`. -/
def retryUnpushed (t : Nat) : Prog lang Unit := do
  let pending ← (GitRepository.unpushedCommits t).attempt
  if pending.toOption.getD 0 = 0 then pure ()
  else
    let _ ← GitRepository.push t
    pure ()

/-- `reloadFromRepository`. The break-glass record may be read at HEAD. -/
def reloadFromRepository (t : Nat) : Prog lang Unit := do
  let commit ← GitRepository.readSources t
  let served := (← Prog.get (S := lang)).served.map fun (revision, _) => toString revision
  if served = some commit then pure ()
  else
    let _ ← (GitRepository.headCommit t).attempt
    op .reload

/-- An activity of its own, from its start to its end. -/
def during (t : Nat) (p : Prog lang Unit) : Prog lang Unit := do
  Prog.modify (S := lang) fun s => s.enter t
  p.ensure (Prog.modify (S := lang) fun s => s.leave t)

/-- What sets something going: a save, one of the triggers of a sync, and the timers and the
listener of `src/server.ts`. -/
inductive Request where
  | write (files : Store.Tree)
  | sync
  | retry
  | webhook
  | poll
deriving DecidableEq

/-- The activities that do not go through the sync engine. -/
def Request.apart : Request → Bool
  | .retry | .webhook | .poll => true
  | _ => false

/-- The program of the request made as call `t`. -/
def serve (t : Nat) : Request → Prog lang Unit
  | .write files => op (.publish files)
  | .sync => do
    let _ ← SyncEngine.syncNow t
    pure ()
  | .retry => during t (retryUnpushed t)
  | .webhook => during t (do
    let _ ← GitRepository.pull t
    reloadFromRepository t)
  | .poll => during t (Prog.handle (do
    let _ ← (GitRepository.pull t).attempt
    reloadFromRepository t) fun _ => pure ())

/-- The service, where a request comes as `asks` allows. -/
def service (rules : Rules) (asks : State → Request → Prop) : System lang Request Unit where
  sem := sem rules
  body := serve
  mayArrive p c := asks p.state c

/-- A process that has just started: nothing is in progress. -/
structure Init (s : State) : Prop where
  running : s.running = none
  busy : s.busy = []
  served : ∀ revision files, s.served = some (revision, files) →
    revision ≤ s.db.revision ∧ files = s.db.at_ revision
  trace : s.trace = []
  made : s.made = []
  calls : s.calls = []
  settled : s.settled = []
  pulled : s.pulled = []
  pushed : s.pushed = []
  carries : ∀ c ∈ s.clone.head ++ s.clone.tracking ++ s.clone.fetched, c.carries = none

/-! ### Scheduled runs -/

/-- Which of its outcomes an operation has: it works, a fetch with the history it brings, or it
fails without an effect. -/
inductive Choice where
  | works
  | brings (history : List Commit)
  | fails

namespace State

variable (rules : Rules) (s : State)

/-- What a fast-forward makes of the working tree or of the index. -/
def forwarded (tree : Tree) : Tree :=
  Tree.tabulate (tree.keys ++ (Git.headTree s.clone.tracking).keys) fun path =>
    if s.headTree.lookup path = (Git.headTree s.clone.tracking).lookup path then tree.lookup path
    else (Git.headTree s.clone.tracking).lookup path

theorem lookup_forwarded (tree : Tree) (path : String) :
    (s.forwarded tree).lookup path =
      if s.headTree.lookup path = (Git.headTree s.clone.tracking).lookup path then tree.lookup path
      else (Git.headTree s.clone.tracking).lookup path := by
  rw [forwarded, Tree.lookup_tabulate]
  by_cases hmem : path ∈ tree.keys ++ (Git.headTree s.clone.tracking).keys
  · rw [if_pos hmem]
  · have ht : tree.lookup path = none :=
      AList.lookup_eq_none.2 fun hp => hmem (List.mem_append_left _ hp)
    have hn : (Git.headTree s.clone.tracking).lookup path = none :=
      AList.lookup_eq_none.2 fun hp => hmem (List.mem_append_right _ hp)
    simp [hmem, ht, hn]

/-- Nothing that a fast-forward touches has been changed locally, and what it checks out is stored
as it came. -/
def forwardable : Bool :=
  decide (s.clone.head <:+ s.clone.tracking) &&
    (s.headTree.keys ++ (Git.headTree s.clone.tracking).keys).all fun path =>
      let old := s.headTree.lookup path
      let new := (Git.headTree s.clone.tracking).lookup path
      old == new || ((s.clone.index.lookup path == old || s.clone.index.lookup path == new) &&
        (staged rules s.clone.tree s.clone.index).lookup path == s.clone.index.lookup path &&
        new.map (rules.store (s.forwarded s.clone.tree) path) == new)

theorem forwards_of_forwardable (h : s.forwardable rules = true) :
    Forwards rules s (s.forwarded s.clone.tree) (s.forwarded s.clone.index) := by
  obtain ⟨hsuffix, hall⟩ := Bool.and_eq_true_iff.1 h
  have hpath (path : String)
      (hne : s.headTree.lookup path ≠ (Git.headTree s.clone.tracking).lookup path) :
      ((s.clone.index.lookup path = s.headTree.lookup path ∨
        s.clone.index.lookup path = (Git.headTree s.clone.tracking).lookup path) ∧
      (staged rules s.clone.tree s.clone.index).lookup path = s.clone.index.lookup path) ∧
      ((Git.headTree s.clone.tracking).lookup path).map
        (rules.store (s.forwarded s.clone.tree) path) =
          (Git.headTree s.clone.tracking).lookup path := by
    have hmem : path ∈ s.headTree.keys ++ (Git.headTree s.clone.tracking).keys := by
      by_contra hmem
      have ho : s.headTree.lookup path = none :=
        AList.lookup_eq_none.2 fun hp => hmem (List.mem_append_left _ hp)
      have hn : (Git.headTree s.clone.tracking).lookup path = none :=
        AList.lookup_eq_none.2 fun hp => hmem (List.mem_append_right _ hp)
      exact hne (ho.trans hn.symm)
    have hp := List.all_eq_true.1 hall path hmem
    simpa [hne] using hp
  refine ⟨by simpa using hsuffix, fun path hne => (hpath path hne).1, fun path hne => ?_,
    fun path heq => ?_⟩
  · rw [lookup_forwarded, lookup_forwarded, if_neg hne, if_neg hne]
    exact ⟨rfl, (hpath path hne).2⟩
  · rw [lookup_forwarded, lookup_forwarded, if_pos heq, if_pos heq]
    exact ⟨rfl, rfl⟩

end State

/-- The answer of an operation on the clone, where it has one and no conflict comes into it. -/
def CloneOp.answer (rules : Rules) (s : State) : (o : CloneOp) → Option (o.Res × State)
  | .mkdir => some ((), s)
  | .collectFiles => some (s.clone.tree.collected, s.collect s.clone.tree.collected)
  | .remove path => some ((), s.setTree (s.clone.tree.erase path))
  | .createTemporary temporary content =>
    if temporary ∈ s.clone.tree then none
    else some ((), s.setTree (s.clone.tree.insert temporary (.file content false)))
  | .renameTemporary temporary path => (s.clone.tree.lookup temporary).map fun node =>
      ((), s.setTree ((s.clone.tree.erase temporary).insert path node))
  | .status => some (s.dirty rules, s)
  | .add => some ((), s.add rules)
  | .diffCached => some (s.clone.index.differs s.headTree, s)
  | .commit message =>
    if s.clone.index.differs s.headTree = true then some ((), s.commit message "sha") else none
  | .headCommit => (s.clone.head.head?.map Commit.sha).map fun sha => (sha, s)
  | .unpushed => some ((s.clone.head.filter fun c => c ∉ s.clone.tracking).length, s)
  | .push => some ((), s.push)
  | .rebase | .abort => none
  | .merge =>
    if s.clone.tracking <:+ s.clone.head then some ((), s)
    else if s.forwardable rules = true then
      some ((), s.forward (s.forwarded s.clone.tree) (s.forwarded s.clone.index))
    else none

/-- The answer of an operation that works. -/
def Op.answer (rules : Rules) (s : State) : (o : Op) → Option (o.Res × State)
  | .on t o => (o.answer rules s).map fun (a, s₁) => (a, s₁.log t o (s.dirty rules))
  | .drain => some ([], s)
  | .snapshot =>
    if readable s.db.current = true then some (filesOf s.db.current, s.takeSnapshot) else none
  | .unique => some ("1", s)
  | .remote => some (some "origin", s)
  | .reload => some ((), { s with served := some (s.db.revision, s.db.current) })
  | .publish files => some ((), { s with db := s.db.publish files })
  | .rotate | .discard | .readSources => some ((), s)
  | .fetch | .joined _ => none

def perform (rules : Rules) : Choice → (o : Op) → State → Option (Except Error o.Res × State)
  | .works, .joined t, s => (s.settled.find? fun e => e.sync == t).map fun e => (e.result, s)
  | .works, o, s => (o.answer rules s).map fun (a, s') => (.ok a, s')
  | .brings history, .fetch, s =>
    if ∀ c ∈ history, c.carries = none ∨ c ∈ s.pushed then
      some (.ok (), { s with clone := { s.clone with fetched := history, tracking := history } })
    else none
  | .brings _, _, _ => none
  | .fails, .on t o, s => some (.error (.of "input/output error"), s.log t o (s.dirty rules))
  | .fails, .unique, _ | .fails, .remote, _ | .fails, .joined _, _ => none
  | .fails, _, s => some (.error (.of "input/output error"), s)

theorem CloneOp.answers_of_answer {rules : Rules} {s s' : State} {o : CloneOp} {a : o.Res}
    (h : o.answer rules s = some (a, s')) : o.answers rules s a s' := by
  cases o with
  | createTemporary temporary content =>
    simp only [answer] at h
    split at h
    · cases h
    · rename_i hfresh
      cases h
      exact ⟨hfresh, rfl⟩
  | renameTemporary temporary path =>
    obtain ⟨node, hnode, he⟩ := Option.map_eq_some_iff.1 h
    cases he
    exact ⟨node, hnode, rfl⟩
  | commit message =>
    simp only [answer] at h
    split at h
    · rename_i hd
      cases h
      exact ⟨hd, _, rfl⟩
    · cases h
  | headCommit =>
    obtain ⟨sha, hsha, he⟩ := Option.map_eq_some_iff.1 h
    cases he
    exact ⟨hsha, rfl⟩
  | merge =>
    simp only [answer] at h
    split at h
    · rename_i hup
      cases h
      exact .inl ⟨hup, rfl⟩
    · split at h
      · rename_i hf
        cases h
        exact .inr ⟨_, _, s.forwards_of_forwardable rules hf, rfl⟩
      · cases h
  | rebase => cases h
  | abort => cases h
  | collectFiles => cases h; exact ⟨.refl _, rfl⟩
  | status => cases h; exact ⟨rfl, rfl⟩
  | diffCached => cases h; exact ⟨rfl, rfl⟩
  | unpushed => cases h; exact ⟨rfl, rfl⟩
  | _ => cases h; rfl

theorem Op.answers_of_answer {rules : Rules} {s s' : State} {o : Op} {a : o.Res}
    (h : o.answer rules s = some (a, s')) : o.answers rules s a s' := by
  cases o with
  | on t o =>
    obtain ⟨⟨a', s₁⟩, ha, he⟩ := Option.map_eq_some_iff.1 h
    cases he
    exact ⟨s₁, CloneOp.answers_of_answer ha, rfl⟩
  | snapshot =>
    simp only [answer] at h
    split at h
    · rename_i hr
      cases h
      exact ⟨hr, rfl, rfl⟩
    · cases h
  | fetch => cases h
  | joined t => cases h
  | _ => cases h; rfl

theorem CloneOp.fails_same (rules : Rules) (s : State) (o : CloneOp) (e : Error) :
    o.fails rules s e s := by
  cases o with
  | remove | createTemporary | renameTemporary | commit | rebase => exact .inl rfl
  | _ => rfl

theorem step_of_perform {rules : Rules} {c : Choice} {o : Op} {s s' : State}
    {r : Except Error o.Res} (h : perform rules c o s = some (r, s')) : (sem rules).step o s r s' := by
  cases c with
  | works =>
    cases o with
    | joined t =>
      obtain ⟨e, he, hr⟩ := Option.map_eq_some_iff.1 h
      have hmem := List.mem_of_find?_eq_some he
      have hsync : e.sync = t := by simpa using List.find?_some he
      obtain ⟨rfl, rfl⟩ := Prod.mk.inj hr
      cases hres : e.result with
      | ok a => exact ⟨⟨e, hmem, hsync, hres⟩, rfl⟩
      | error err => exact ⟨⟨e, hmem, hsync, hres⟩, rfl⟩
    | _ =>
      simp only [perform, Option.map_eq_some_iff] at h
      obtain ⟨⟨a, s₁⟩, ha, he⟩ := h
      cases he
      exact Op.answers_of_answer ha
  | brings history =>
    cases o with
    | fetch =>
      simp only [perform] at h
      split at h
      · rename_i hc
        cases h
        exact ⟨history, hc, rfl⟩
      · cases h
    | _ => cases h
  | fails =>
    cases o with
    | on t o =>
      cases h
      exact ⟨s, o.fails_same rules s _, rfl⟩
    | unique => cases h
    | remote => cases h
    | joined t => cases h
    | _ => cases h; rfl

/-- The service along a schedule. -/
def driver (rules : Rules) (asks : State → Request → Bool) : Driver lang Request Unit Choice where
  body := serve
  allowArrive p c := asks p.state c
  perform := perform rules

theorem driver_follows (rules : Rules) {asks : State → Request → Prop}
    {asks' : State → Request → Bool} (h : ∀ s c, asks' s c = true → asks s c) :
    (driver rules asks').Follows (service rules asks) where
  body := rfl
  allow _ _ _ := trivial
  allowArrive p c hc := h p.state c hc
  step _ _ _ _ _ h := step_of_perform h
  cut _ _ _ _ h := nomatch h
  crash _ _ h := nomatch h

/-- A clone without ignore rules and attributes. -/
def plainRules : Rules where
  excludes _ _ := false
  stores _ _ text := text

end ConfigRegistry.Git
