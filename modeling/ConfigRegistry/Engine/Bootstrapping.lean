import ConfigRegistry.Engine.Locks
import ConfigRegistry.Engine.Looking
import ConfigRegistry.Fs.Copies
import ConfigRegistry.Store.Views

/-!
# Bootstrapping a database

`bootstrapDb` of `src/store/bootstrap-db.ts`, `bootstrapFrom` and the first `snapshot('')` of
`src/store/data-layer.ts`: what the engine finds of a tree that was copied by plain recursion.
-/

namespace ConfigRegistry.Engine

open Js Async Fs Store

/-- `cp`, of what a clone holds: all but what is called `.git`. -/
def cloned (clone : List (String × Node)) : List (String × Node) := clone.filter fun entry => entry.1 != ".git"

/-- `bootstrapDb`: a directory that holds anything is left as it is. -/
def bootstrapDb (d : Disk) (clone : List (String × Node)) : Bool × Disk :=
  if d.names [] ≠ [] then (false, d) else (true, ⟨copiedEntries [] (cloned clone) ++ d.entries⟩)

section

variable (host : Host) (t : Nat)

/-- `bootstrapFrom`. -/
def bootstrapFrom (clone : List (String × Node)) : Prog lang Bool := do
  let s ← Prog.get (S := lang)
  let (bootstrapped, disk) := bootstrapDb s.disk clone
  Prog.modify (S := lang) fun s => { s with disk }
  recover host t
  pure bootstrapped

end

/-- An operation of a call that is alone, where none fails for reasons of its own. -/
abbrev alone : (o : Op) → State → Option (Except Error o.Res × State) := Op.stepWith fun _ => none

/-- A database that was bootstrapped from a tree is usable: `snapshot('')` then returns every regular file of
the tree, but for those below what the engine keeps to itself. -/
def Usable (host : Host) (t : Nat) (tree : FileTree) (s : State) : Prop :=
  ∃ s₁ s₂ revision files,
    (bootstrapFrom host t tree.entries).run alone s = some (.ok true, s₁) ∧
    (snapshot host t "").run alone s₁ = some (.ok (revision, files), s₂) ∧
    ∀ path text, (path, text) ∈ files ↔ ∃ segments, path = pathText segments ∧
      Reaches (fun name => !isPrivate name) tree.root segments (.file text)

/-- What is called `.journal` is a directory, in which what is called `transactions` is an empty one. -/
def JournalClear (entries : List (String × Node)) : Prop :=
  ∀ node, (".journal", node) ∈ entries → ∃ inner, node = .dir inner ∧
    ∀ listed, ("transactions", listed) ∈ inner → listed = .dir []

/-- The journal that a tree brings with it has no transactions that recovery would carry out. -/
def Unlisted (entries : List (String × Node)) : Prop :=
  ∀ inner listed, (".journal", .dir inner) ∈ entries → ("transactions", .dir listed) ∈ inner → listed = []

/-- No directory that `snapshot` comes to has a name that begins with a dot; what is called `.revision` is a
file with a number; and the journal has no transactions. -/
structure Bootable (tree : FileTree) : Prop where
  visible : ∀ segments entries, Reaches (fun name => !isPrivate name) tree.root segments (.dir entries) →
    ∀ name ∈ segments, isHidden name = false
  numbered : ∀ node, (".revision", node) ∈ tree.entries →
    ∃ text revision, node = .file text ∧ parseRevision text = .ok revision
  journal : JournalClear tree.entries

/-! ### Runs -/

variable {α β : Type} {faults : Faults} {s s' : State} {host : Host} {t : Nat}

theorem run_lift (r : Except Error α) (s : State) : (lift r).run (Op.stepWith faults) s = some (r, s) := rfl

/-- An operation that nothing strikes. -/
theorem run_op_unstruck {o : Op} (hmay : o.may s) (hfree : o.struck faults = none) :
    (Prog.op (S := lang) o).run (Op.stepWith faults) s = some (o.perform s) := by
  rw [Prog.run_op, Op.stepWith, if_pos hmay, hfree]

theorem struck_of_waits {o : Op} (h : o.waits = true) : o.struck faults = none := if_pos h

theorem struck_alone (o : Op) : o.struck (fun _ => none) = none := by
  rw [Op.struck, ite_self]

/-- An operation whose end is looked at. -/
theorem run_attempt_op {o : Op} (hmay : o.may s) {r : Except Error o.Res} (hperform : o.perform s = (r, s'))
    (g : Except Error o.Res → Prog lang α) :
    ((Prog.op (S := lang) o).attempt >>= g).run alone s = (g r).run alone s' := by
  apply Prog.run_attempt_bind
  rw [run_op_unstruck hmay (struck_alone o), hperform]

/-- A turn at a lock that no other call has. -/
theorem run_withLock {lock : Lock} {body : Prog lang α} (hqueue : s.queue lock = []) {r : Except Error α}
    (hbody : body.run (Op.stepWith faults) (s.enqueue lock t) = some (r, s')) :
    (withLock lock t body).run (Op.stepWith faults) s = some (r, s'.release lock) := by
  have hmay : (Op.enter lock t).may (s.enqueue lock t) := by
    simp [Op.may, State.enqueue, hqueue]
  have henter : ((Prog.op (S := lang) (.enter lock t)).bind fun _ =>
      body.ensure (Prog.modify (S := lang) (State.release · lock))).run (Op.stepWith faults) (s.enqueue lock t) =
        some (r, s'.release lock) :=
    (Prog.run_bind_ok (run_op_unstruck hmay (struck_of_waits rfl)) _).trans (Prog.run_ensure hbody (Prog.run_modify _))
  exact (Prog.run_bind_ok (Prog.run_modify _) _).trans henter

/-- The loop that collects what does not change the state. -/
theorem run_collect {γ : Type} {body : α → Prog lang β} {g : γ → α} {f : γ → Except Error β} {xs : List γ}
    (h : ∀ a ∈ xs, (body (g a)).run (Op.stepWith faults) s = some (f a, s)) :
    (Prog.collect (xs.map g) body).run (Op.stepWith faults) s = some (xs.mapM f, s) := by
  induction xs with
  | nil => rfl
  | cons a xs ih =>
    have hfirst := h a List.mem_cons_self
    have hothers := ih fun a ha => h a (List.mem_cons_of_mem _ ha)
    rw [List.map_cons, Prog.collect, List.mapM_cons]
    cases hf : f a with
    | error e =>
      rw [hf] at hfirst
      exact Prog.run_bind_error hfirst _
    | ok b =>
      rw [hf] at hfirst
      rw [Prog.run_bind_ok hfirst, Prog.run_bind, hothers]
      cases xs.mapM f <;> rfl

/-! ### What is read on the way -/

variable {segments : List String} {name : String}

theorem placeOf_pathText (hne : segments ≠ []) (h : ∀ name ∈ segments, ProperName name) :
    placeOf (pathText segments) = segments := by
  rw [placeOf, splitOn_pathText hne h, List.map_map]
  simp

/-- The names of a path are the names on the way to its place. -/
theorem joined_pathText (h : ∀ name ∈ segments, ProperName name) : joined (pathText segments) = segments := by
  by_cases hnil : segments = []
  · subst hnil
    decide
  · rw [joined, placeOf_pathText hnil h, List.filter_eq_self]
    intro name hname
    simpa using (h name hname).nonempty

/-- The check of a directory that one gets to. -/
theorem run_checkDirectory (hleads : s.disk.Leads segments) :
    (checkDirectory (pathText segments)).run alone s = some (enterDirectory (pathText segments), s) := by
  unfold checkDirectory enterDirectory
  by_cases hroot : pathText segments = ""
  · rw [if_pos hroot]
    simp [hroot]
  · rw [if_neg hroot, beq_false_of_ne hroot, Bool.false_or]
    have hnil : segments ≠ [] := fun hnil => hroot ((pathText_eq_empty hleads.1).2 hnil)
    unfold assertNoSymlinks databasePath
    split
    · rename_i hpath
      rw [placeOf_pathText hnil hleads.1]
      have hcandidates : ∀ candidate ∈ segments.inits.map base, s.disk.lstat candidate = .ok .dir := by
        intro candidate hcandidate
        obtain ⟨p, hp, rfl⟩ := List.mem_map.1 hcandidate
        rw [List.mem_inits] at hp
        have hway : s.disk.Leads p :=
          ⟨fun name hname => hleads.1 name (hp.subset hname), fun q hq => hleads.2 q (hq.trans hp)⟩
        rw [base_of_proper hway.1, hway.lstat]
      refine (Prog.run_bind_ok (run_lift (.ok segments) s) _).trans ?_
      generalize segments.inits.map base = candidates at hcandidates
      induction candidates with
      | nil => rfl
      | cons candidate candidates ih =>
        rw [List.forall_mem_cons] at hcandidates
        have hperform : (Op.lstat candidate).perform s = (.ok .dir, s) := by
          rw [Op.perform, hcandidates.1]
          rfl
        refine (Prog.run_bind_ok (a := ()) ?_ _).trans (ih hcandidates.2)
        exact run_attempt_op (o := .lstat _) trivial hperform _
    · rfl

/-- A file that is read, where one gets to its directory. -/
theorem run_readOptional (hleads : s.disk.Leads segments) (hname : ProperName name) {text : String}
    (hfile : s.disk.at_ (segments ++ [name]) = some (.file text)) :
    (readOptional (segments ++ [name])).run alone s = some (.ok (some text), s) := by
  have hperform : (Op.readFile (segments ++ [name])).perform s = (.ok text, s) := by
    rw [Op.perform, Disk.readFile, hleads.lstat_name hname.nonempty, hfile]
    rfl
  exact run_attempt_op (o := .readFile _) trivial hperform _

/-! ### The walk -/

/-- The lists of files that the entries of a directory give, one after the other. -/
theorem flatten_walkEntries (path : String) (entries : List (String × Node)) :
    (entries.mapM (snapshotWalker.walkEntry path)).map List.flatten = snapshotWalker.walkEntries path entries := by
  induction entries with
  | nil => rfl
  | cons entry entries ih =>
    rw [List.mapM_cons, Walker.walkEntries, ← ih]
    cases snapshotWalker.walkEntry path entry with
    | error e => rfl
    | ok files => cases entries.mapM (snapshotWalker.walkEntry path) <;> rfl

/-- What `visit` does with one entry of a directory. -/
def visitEntry (depth : Nat) (path : String) (entry : String × Kind) : Prog lang (List (String × String)) :=
  if isPrivate entry.1 then pure []
  else
    match entry.2 with
    | .link => Prog.fail (.of s!"symlink in database path: {Fs.child path entry.1}")
    | .dir => visit depth (Fs.child path entry.1)
    | .file => do
      match ← readOptional (joined (Fs.child path entry.1)) with
      | none => pure []
      | some content => pure [(Fs.child path entry.1, content)]

/-- `visit` is the walk of the tree that the disk is a copy of. -/
theorem run_visit {depth : Nat} {entries : List (String × Node)} (hproper : Proper (.dir entries))
    (hlists : s.disk.Lists segments entries) (hleads : s.disk.Leads segments)
    (hdepth : (copiedEntries segments entries).length < depth) :
    (visit depth (pathText segments)).run alone s = some (snapshotWalker.walk (pathText segments) (.dir entries), s) := by
  induction depth generalizing segments entries with
  | zero => omega
  | succ depth ih =>
    obtain ⟨hnodup, hnames⟩ := hproper [] entries (.here _)
    rw [visit, Walker.walk]
    cases henter : snapshotWalker.enter (pathText segments) with
    | error e =>
      have hcheck := run_checkDirectory hleads
      rw [show enterDirectory (pathText segments) = .error e from henter] at hcheck
      exact Prog.run_bind_error hcheck _
    | ok u =>
      have hcheck := run_checkDirectory hleads
      rw [show enterDirectory (pathText segments) = .ok u from henter] at hcheck
      refine (Prog.run_bind_ok hcheck _).trans ?_
      have hperform : (Op.readdir (joined (pathText segments))).perform s =
          (.ok (entries.map fun entry => (entry.1, entry.2.entry.kind)), s) := by
        rw [Op.perform, joined_pathText hleads.1, hlists.readdir hnodup hleads]
        rfl
      refine (run_attempt_op (o := .readdir _) trivial hperform _).trans ?_
      have hbody : ∀ entry ∈ entries, (visitEntry depth (pathText segments) (entry.1, entry.2.entry.kind)).run alone s =
          some (snapshotWalker.walkEntry (pathText segments) entry, s) := by
        rintro ⟨name, node⟩ hmem
        have hname := hnames _ hmem
        have hat := hlists.at_eq hnodup hmem
        have hpath := child_pathText hleads.1 name
        have hsegments : ∀ n ∈ segments ++ [name], ProperName n := by
          rw [List.forall_mem_append, List.forall_mem_singleton]
          exact ⟨hleads.1, hname⟩
        unfold visitEntry Walker.walkEntry
        cases hprivate : isPrivate name with
        | true => simp [snapshotWalker, hprivate]
        | false =>
          rw [if_neg (by simp), if_pos (by simp [snapshotWalker, hprivate]), hpath]
          cases node with
          | link target => rfl
          | file text =>
            show ((readOptional (joined (pathText (segments ++ [name])))).bind _).run alone s = _
            rw [joined_pathText hsegments]
            exact Prog.run_bind_ok (run_readOptional hleads hname hat) _
          | dir inner =>
            have hreach : Reaches (fun _ => true) (.dir entries) [name] (.dir inner) := .inside hmem rfl (.here _)
            apply ih (hproper.reached hreach) (hlists.inside hnodup hmem) (hleads.inside hname hat)
            have hless : (copied (segments ++ [name]) (.dir inner)).length ≤ (copiedEntries segments entries).length :=
              length_copied_le hmem
            rw [copied, List.length_cons] at hless
            omega
      have hcollect := run_collect hbody
      show ((Prog.collect _ (visitEntry depth (pathText segments))).bind _).run alone s = _
      rw [← flatten_walkEntries]
      cases hfiles : entries.mapM (snapshotWalker.walkEntry (pathText segments)) with
      | error e =>
        rw [hfiles] at hcollect
        exact Prog.run_bind_error hcollect _
      | ok files =>
        rw [hfiles] at hcollect
        exact Prog.run_bind_ok hcollect _

/-! ### What a new engine awaits -/

/-- A turn that was taken and given back. -/
theorem release_enqueue {lock : Lock} (h : s.queue lock = []) : (s.enqueue lock t).release lock = s := by
  unfold State.enqueue State.release
  have hqueue : (fun l => if l = lock then (if l = lock then s.queue l ++ [t] else s.queue l).tail
      else if l = lock then s.queue l ++ [t] else s.queue l) = s.queue := by
    funext l
    by_cases hl : l = lock
    · subst hl
      simp [h]
    · simp [hl]
  rw [hqueue]

/-- The state of an engine whose first recovery came to this. -/
def State.opened (s : State) (r : Except Error Unit) : State := { s with ready := .settled r }

theorem run_assertHealthy (h : s.recoveryRequired = false) :
    assertHealthy.run (Op.stepWith faults) s = some (.ok (), s) := by
  unfold assertHealthy
  rw [Prog.run_get_bind, if_neg (by simp [h])]
  rfl

/-- The first recovery, where it has nothing to finish. -/
theorem run_recover (hinit : Init s) {r : Except Error (List (String × Intent))} (hnone : ∀ found, r = .ok found → found = [])
    (hpending : ∀ s', s'.disk = s.disk → (pending host).run alone s' = some (r, s')) :
    (recover host t).run alone s = some (r.map fun _ => (), s.opened (r.map fun _ => ())) := by
  have hrecover : ∀ s', s'.disk = s.disk → (recoverPending host).run alone s' = some (r.map fun _ => (), s') := by
    intro s' hdisk
    cases r with
    | error e => exact Prog.run_bind_error (hpending s' hdisk) _
    | ok found =>
      obtain rfl := hnone found rfl
      exact Prog.run_bind_ok (hpending s' hdisk) _
  have hlocked : ∀ s₁ : State, s₁.disk = s.disk → s₁.queue .publication = [] →
      (withLock .publication t (recoverPending host)).run alone s₁ = some (r.map fun _ => (), s₁) := by
    intro s₁ hdisk hqueue
    have hrun := run_withLock (t := t) hqueue (hrecover (s₁.enqueue .publication t) hdisk)
    rwa [release_enqueue hqueue] at hrun
  have hbegin : (begin_ host t).run alone s = some (.ok (), s.opened (r.map fun _ => ())) := by
    unfold begin_
    rw [Prog.run_get_bind, hinit.ready]
    exact Prog.run_attempt_bind (hlocked { s with ready := .running t } rfl (hinit.queue .publication)) _
  have hmay : (Op.first).may (s.opened (r.map fun _ => ())) := ⟨_, rfl⟩
  refine (Prog.run_bind_ok hbegin _).trans ?_
  cases r with
  | error e => exact Prog.run_bind_error (run_op_unstruck hmay (struck_of_waits rfl)) _
  | ok found =>
    refine (Prog.run_bind_ok (run_op_unstruck hmay (struck_of_waits rfl)) _).trans ?_
    exact run_assertHealthy hinit.healthy

/-- `recover`, of an engine that is ready. -/
theorem run_recover_ready (hready : s.ready = .settled (.ok ())) (hhealthy : s.recoveryRequired = false) :
    (recover host t).run (Op.stepWith faults) s = some (.ok (), s) := by
  have hbegin : (begin_ host t).run (Op.stepWith faults) s = some (.ok (), s) := by
    unfold begin_
    rw [Prog.run_get_bind, hready]
    rfl
  have hfirst : (Prog.op (S := lang) .first).run (Op.stepWith faults) s = some (.ok (), s) := by
    have hmay : (Op.first).may s := ⟨_, hready⟩
    rw [run_op_unstruck hmay (struck_of_waits rfl), Op.perform, hready]
    rfl
  exact (Prog.run_bind_ok hbegin _).trans ((Prog.run_bind_ok hfirst _).trans (run_assertHealthy hhealthy))

/-- A read of an engine that is ready. -/
theorem run_published {body : Prog lang α} (hready : s.ready = .settled (.ok ())) (hqueue : s.queue .publication = [])
    (hhealthy : s.recoveryRequired = false) {r : Except Error α}
    (hbody : body.run (Op.stepWith faults) (s.enqueue .publication t) = some (r, s.enqueue .publication t)) :
    (published host t body).run (Op.stepWith faults) s = some (r, s) := by
  have hinner : (assertHealthy >>= fun _ => body).run (Op.stepWith faults) (s.enqueue .publication t) =
      some (r, s.enqueue .publication t) := by
    have hassert : assertHealthy.run (Op.stepWith faults) (s.enqueue .publication t) =
        some (.ok (), s.enqueue .publication t) := run_assertHealthy hhealthy
    exact (Prog.run_bind_ok hassert _).trans hbody
  have hlocked := run_withLock (t := t) hqueue hinner
  rw [release_enqueue hqueue] at hlocked
  exact (Prog.run_bind_ok (run_recover_ready hready hhealthy) _).trans hlocked

/-! ### What is at the top -/

variable {entries : List (String × Node)}

theorem lookup_cases (hnodup : (entries.map Prod.fst).Nodup) (name : String) :
    name ∉ entries.map Prod.fst ∨ ∃ node, (name, node) ∈ entries ∧ ∀ node', (name, node') ∈ entries → node' = node := by
  by_cases hmem : name ∈ entries.map Prod.fst
  · obtain ⟨⟨name', node⟩, hnode, rfl⟩ := List.mem_map.1 hmem
    refine .inr ⟨node, hnode, fun node' hnode' => ?_⟩
    exact (Prod.mk.inj (List.inj_on_of_nodup_map hnodup hnode' hnode rfl)).2
  · exact .inl hmem

theorem JournalClear.unlisted (h : JournalClear entries) : Unlisted entries := by
  intro inner listed hinner hlisted
  obtain ⟨inner', heq, hall⟩ := h _ hinner
  obtain rfl := Node.dir.inj heq
  exact Node.dir.inj (hall _ hlisted)

/-- The revision is read where what is called `.revision` is a file with a number, or nothing is. -/
theorem run_revisionUnlocked (hnodup : (entries.map Prod.fst).Nodup) (hlists : s.disk.Lists [] entries) :
    ∃ r, revisionUnlocked.run alone s = some (r, s) ∧ ((∃ revision, r = .ok revision) ↔
      ∀ node, (".revision", node) ∈ entries →
        ∃ text revision, node = .file text ∧ parseRevision text = .ok revision) := by
  have hname : ProperName ".revision" := ⟨by decide, by decide⟩
  have hlstat := s.disk.leads_root.lstat_name hname.nonempty
  have hread : ∀ r : Except Error String, s.disk.readFile [".revision"] = r →
      (Op.readFile [".revision"]).perform s = (r, s) := by
    rintro r rfl
    rfl
  rcases lookup_cases hnodup ".revision" with hnone | ⟨node, hmem, hone⟩
  · have hfile : s.disk.readFile [".revision"] = .error enoent := by
      rw [Disk.readFile, ← List.nil_append [".revision"], hlstat, hlists.at_eq_none hnone]
      rfl
    refine ⟨.ok 0, ?_, iff_of_true ⟨0, rfl⟩ fun node hmem => (hnone (List.mem_map.2 ⟨_, hmem, rfl⟩)).elim⟩
    refine (Prog.run_bind_ok (a := none) ?_ _).trans rfl
    exact run_attempt_op (o := .readFile _) trivial (hread _ hfile) _
  · have hat := hlists.at_eq hnodup hmem
    rw [hat] at hlstat
    have hiff : (∀ node, (".revision", node) ∈ entries →
        ∃ text revision, node = .file text ∧ parseRevision text = .ok revision) ↔
        ∃ text revision, node = .file text ∧ parseRevision text = .ok revision := by
      constructor
      · exact fun h => h node hmem
      · intro h node' hmem'
        rwa [hone node' hmem']
    rw [hiff]
    have herror : ∀ e : Error, e.isMissing = false → s.disk.readFile [".revision"] = .error e →
        revisionUnlocked.run alone s = some (.error e, s) := by
      intro e he hfile
      refine Prog.run_bind_error ?_ _
      refine (run_attempt_op (o := .readFile _) trivial (hread _ hfile) _).trans ?_
      show (if e.isMissing then _ else _ : Prog lang (Option String)).run alone s = _
      rw [he]
      rfl
    cases node with
    | file text =>
      have hfile : s.disk.readFile [".revision"] = .ok text := by
        rw [Disk.readFile, ← List.nil_append [".revision"], hlstat]
        rfl
      refine ⟨parseRevision text, ?_, ?_⟩
      · refine (Prog.run_bind_ok (a := some text) ?_ _).trans rfl
        exact run_attempt_op (o := .readFile _) trivial (hread _ hfile) _
      · simp
    | dir inner =>
      refine ⟨_, herror eisdir rfl ?_, iff_of_false (by simp) (by simp)⟩
      rw [Disk.readFile, ← List.nil_append [".revision"], hlstat]
      rfl
    | link target =>
      refine ⟨_, herror (systemError .other "ELOOP") rfl ?_, iff_of_false (by simp) (by simp)⟩
      rw [Disk.readFile, ← List.nil_append [".revision"], hlstat]
      rfl

/-- Where the journal that a tree brings with it lists nothing, there is nothing to finish; it is read where
what is called `.journal` is a directory, in which what is called `transactions` is one, or nothing is. -/
theorem run_pending (host : Host) (hproper : Proper (.dir entries)) (hlists : s.disk.Lists [] entries)
    (hunlisted : Unlisted entries) :
    ∃ r, (∀ s', s'.disk = s.disk → (pending host).run alone s' = some (r, s')) ∧
      (∀ found, r = .ok found → found = []) ∧ ((∃ found, r = .ok found) ↔ JournalClear entries) := by
  obtain ⟨hnodup, hnames⟩ := hproper [] entries (.here _)
  have hjournal : ProperName ".journal" := ⟨by decide, by decide⟩
  have htransactions : ProperName "transactions" := ⟨by decide, by decide⟩
  have hperform : ∀ r, s.disk.readdir directory = r → ∀ s' : State, s'.disk = s.disk →
      (Op.readdir directory).perform s' = (r, s') := by
    rintro r rfl s' hdisk
    rw [← hdisk]
    rfl
  -- the three ends of the listing: nothing is there, nothing can be listed, or it is empty
  have habsent : s.disk.readdir directory = .error enoent →
      ∀ s', s'.disk = s.disk → (pending host).run alone s' = some (.ok [], s') := fun h s' hdisk =>
    run_attempt_op (o := .readdir _) trivial (hperform _ h s' hdisk) _
  have hempty : s.disk.readdir directory = .ok [] →
      ∀ s', s'.disk = s.disk → (pending host).run alone s' = some (.ok [], s') := fun h s' hdisk =>
    run_attempt_op (o := .readdir _) trivial (hperform _ h s' hdisk) _
  have hfails : s.disk.readdir directory = .error enotdir →
      ∀ s', s'.disk = s.disk → (pending host).run alone s' = some (.error enotdir, s') := fun h s' hdisk =>
    run_attempt_op (o := .readdir _) trivial (hperform _ h s' hdisk) _
  have hroot := s.disk.leads_root
  have hslash : ¬(".journal" = "" ∧ ["transactions"] = ([] : Place)) := by simp
  have hlist : ∀ e : Error, s.disk.lstat directory = .error e → s.disk.readdir directory = .error e := by
    intro e h
    rw [Disk.readdir, h]
  rcases lookup_cases hnodup ".journal" with hnone | ⟨node, hmem, hone⟩
  · have hlstat : s.disk.lstat directory = .error enoent := by
      rw [Disk.lstat, directory, Disk.follow, if_neg hslash, hlists.at_eq_none hnone]
    exact ⟨_, habsent (hlist _ hlstat), by simp, iff_of_true ⟨[], rfl⟩ fun node hmem =>
      (hnone (List.mem_map.2 ⟨_, hmem, rfl⟩)).elim⟩
  · have hat := hlists.at_eq hnodup hmem
    have hiff : JournalClear entries ↔ ∃ inner, node = .dir inner ∧ ∀ listed, ("transactions", listed) ∈ inner → listed = .dir [] := by
      constructor
      · exact fun h => h node hmem
      · intro h node' hmem'
        rwa [hone node' hmem']
    rw [hiff]
    by_cases hdir : ∃ inner, node = .dir inner
    · obtain ⟨inner, rfl⟩ := hdir
      have hreach : Reaches (fun _ => true) (.dir entries) [".journal"] (.dir inner) := .inside hmem rfl (.here _)
      have hproper' := hproper.reached hreach
      have hnodup' := (hproper' [] inner (.here _)).1
      have hlists' := hlists.inside hnodup hmem
      have hleads := hroot.inside hjournal hat
      have hlstat := hleads.lstat_name htransactions.nonempty
      rcases lookup_cases hnodup' "transactions" with hnone | ⟨node', hmem', hone'⟩
      · rw [hlists'.at_eq_none hnone] at hlstat
        exact ⟨_, habsent (hlist _ hlstat), by simp, iff_of_true ⟨[], rfl⟩ ⟨inner, rfl, fun listed hlisted =>
          (hnone (List.mem_map.2 ⟨_, hlisted, rfl⟩)).elim⟩⟩
      · have hat' := hlists'.at_eq hnodup' hmem'
        by_cases hdir' : ∃ listed, node' = .dir listed
        · obtain ⟨listed, rfl⟩ := hdir'
          obtain rfl := hunlisted inner listed hmem hmem'
          have hlisting := (hlists'.inside hnodup' hmem').readdir List.nodup_nil (hleads.inside htransactions hat')
          exact ⟨_, hempty hlisting, by simp, iff_of_true ⟨[], rfl⟩ ⟨inner, rfl, hone'⟩⟩
        · rw [hat'] at hlstat
          have hlisting : s.disk.readdir directory = .error enotdir := by
            have hlstat' : s.disk.lstat directory = .ok node'.entry := hlstat
            rw [Disk.readdir, hlstat']
            cases node' with
            | dir listed => exact (hdir' ⟨listed, rfl⟩).elim
            | file text => rfl
            | link target => rfl
          refine ⟨_, hfails hlisting, by simp, iff_of_false (by simp) ?_⟩
          rintro ⟨inner', heq, hlisted⟩
          obtain rfl := Node.dir.inj heq
          exact hdir' ⟨[], hlisted node' hmem'⟩
    · have hlstat : s.disk.lstat directory = .error enotdir := by
        rw [Disk.lstat, directory, Disk.follow, if_neg hslash, hat]
        cases node with
        | dir inner => exact (hdir ⟨inner, rfl⟩).elim
        | file text => rfl
        | link target => rfl
      refine ⟨_, hfails (hlist _ hlstat), by simp, iff_of_false (by simp) ?_⟩
      rintro ⟨inner, rfl, -⟩
      exact hdir ⟨inner, rfl⟩

/-! ### The first snapshot -/

theorem bootstrapDb_of_empty {d : Disk} (hempty : d.entries = []) (clone : List (String × Node)) :
    bootstrapDb d clone = (true, ⟨copiedEntries [] (cloned clone)⟩) := by
  have hnames : d.names [] = [] := by
    rw [Disk.names, hempty]
    rfl
  rw [bootstrapDb, if_neg (by simp [hnames]), hempty, List.append_nil]

/-- `bootstrapFrom`: the copy, where there is one, and the first recovery. -/
theorem run_bootstrapFrom (hinit : Init s) {d : Disk} {bootstrapped : Bool}
    (hcopy : bootstrapDb s.disk entries = (bootstrapped, d)) {r : Except Error (List (String × Intent))}
    (hnone : ∀ found, r = .ok found → found = [])
    (hpending : ∀ s' : State, s'.disk = d → (pending host).run alone s' = some (r, s')) :
    (bootstrapFrom host t entries).run alone s =
      some (r.map fun _ => bootstrapped, { s with disk := d }.opened (r.map fun _ => ())) := by
  have hrecover := run_recover (t := t) (s := { s with disk := d }) ⟨hinit.queue, hinit.ready, hinit.healthy⟩ hnone
    hpending
  unfold bootstrapFrom
  rw [Prog.run_get_bind, hcopy]
  cases r with
  | error e => exact Prog.run_bind_error hrecover _
  | ok found => exact Prog.run_bind_ok hrecover _

/-- `snapshot('')`, of an engine that is ready: the walk of the tree, and the revision. -/
theorem run_snapshot (host : Host) (t : Nat) (hready : s.ready = .settled (.ok ())) (hqueue : s.queue .publication = [])
    (hhealthy : s.recoveryRequired = false) (hproper : Proper (.dir entries))
    (hdisk : s.disk = ⟨copiedEntries [] entries⟩) {r : Except Error Nat}
    (hrevision : revisionUnlocked.run alone (s.enqueue .publication t) = some (r, s.enqueue .publication t)) :
    (snapshot host t "").run alone s = some (do
      let files ← snapshotWalker.walk "" (.dir entries)
      let revision ← r
      pure (revision, files), s) := by
  have hlists : s.disk.Lists [] entries := by
    rw [hdisk]
    exact Disk.lists_root entries
  have hdepth : (copiedEntries [] entries).length < s.disk.entries.length + 2 := by
    rw [hdisk]
    exact Nat.lt_add_of_pos_right (by decide)
  have hvisit := run_visit (s := s.enqueue .publication t) hproper hlists (s.disk.leads_root) hdepth
  refine (Prog.run_bind_ok (run_lift (.ok ()) s) _).trans (run_published hready hqueue hhealthy ?_)
  rw [Prog.run_get_bind]
  rw [pathText_nil] at hvisit
  cases hwalk : snapshotWalker.walk "" (.dir entries) with
  | error e =>
    rw [hwalk] at hvisit
    exact Prog.run_bind_error hvisit _
  | ok files =>
    rw [hwalk] at hvisit
    refine (Prog.run_bind_ok hvisit _).trans ?_
    cases r with
    | error e => exact Prog.run_bind_error hrevision _
    | ok revision => exact Prog.run_bind_ok hrevision _

theorem mem_cloned {node : Node} (hname : name ≠ ".git") : (name, node) ∈ cloned entries ↔ (name, node) ∈ entries := by
  rw [cloned, List.mem_filter]
  simp [hname]

/-- What is not below `.git` is copied. -/
theorem reaches_cloned {node : Node} (hne : segments ≠ []) :
    Reaches (fun name => !isPrivate name) (.dir (cloned entries)) segments node ↔
      Reaches (fun name => !isPrivate name) (.dir entries) segments node := by
  rw [reaches_dir_iff, reaches_dir_iff]
  have hkept : ∀ entry : String × Node, (!isPrivate entry.1) = true →
      (entry ∈ cloned entries ↔ entry ∈ entries) := by
    rintro ⟨name, node⟩ hkeep
    apply mem_cloned
    rintro rfl
    simp [isPrivate] at hkeep
  constructor
  · rintro (⟨hnil, -⟩ | ⟨entry, hmem, hkeep, hrest⟩)
    · exact (hne hnil).elim
    · exact .inr ⟨entry, (hkept entry hkeep).1 hmem, hkeep, hrest⟩
  · rintro (⟨hnil, -⟩ | ⟨entry, hmem, hkeep, hrest⟩)
    · exact (hne hnil).elim
    · exact .inr ⟨entry, (hkept entry hkeep).2 hmem, hkeep, hrest⟩

theorem proper_cloned (hproper : Proper (.dir entries)) : Proper (.dir (cloned entries)) := by
  obtain ⟨hnodup, hnames⟩ := hproper [] entries (.here _)
  apply proper_dir
  · exact hnodup.sublist (List.filter_sublist.map _)
  · intro entry hentry
    have hmem := (List.mem_filter.1 hentry).1
    exact ⟨hnames entry hmem, hproper.reached (.inside hmem rfl (.here _) : Reaches (fun _ => true) _ [entry.1] _)⟩

/-- The walk of what was copied ends where no directory on the way has a name that begins with a dot, and gives
the files of the tree. -/
theorem walk_cloned (hproper : Proper (.dir entries))
    (hplain : ∀ segments target, ¬Reaches (fun _ => true) (.dir entries) segments (.link target)) :
    (∀ files, snapshotWalker.walk "" (.dir (cloned entries)) = .ok files →
      (∀ segments inner, Reaches (fun name => !isPrivate name) (.dir entries) segments (.dir inner) →
        ∀ name ∈ segments, isHidden name = false) ∧
      ∀ path text, (path, text) ∈ files ↔ ∃ segments, path = pathText segments ∧
        Reaches (fun name => !isPrivate name) (.dir entries) segments (.file text)) ∧
    ((∀ segments inner, Reaches (fun name => !isPrivate name) (.dir entries) segments (.dir inner) →
        ∀ name ∈ segments, isHidden name = false) →
      ∃ files, snapshotWalker.walk "" (.dir (cloned entries)) = .ok files) := by
  have hproper' := proper_cloned hproper
  have hroot : ∀ name ∈ ([] : List String), ProperName name := by simp
  obtain ⟨hreturns, hends⟩ := walk_spec snapshotWalker (.dir (cloned entries)) hproper' hroot
  have hlink : ∀ rest target, ¬Reaches snapshotWalker.keep (.dir (cloned entries)) rest (.link target) := by
    intro rest target hreach
    have hne : rest ≠ [] := by
      rintro rfl
      cases hreach
    exact hplain rest target (((reaches_cloned hne).1 hreach).mono fun _ _ => rfl)
  constructor
  · intro files h
    obtain ⟨hpass, hfiles⟩ := hreturns files h
    constructor
    · intro segments inner hreach
      by_cases hne : segments = []
      · simp [hne]
      · have hreach' := (reaches_cloned hne).2 hreach
        exact (enterDirectory_eq_ok (hproper'.names hreach')).1 (hpass.enter segments inner hreach')
    · intro path text
      rw [hfiles path text]
      constructor
      · rintro ⟨rest, leaf, hreach, rfl, hyields⟩
        cases leaf with
        | file text' =>
          obtain rfl : text' = text := hyields
          have hne : rest ≠ [] := by
            rintro rfl
            cases hreach
          exact ⟨rest, rfl, (reaches_cloned hne).1 hreach⟩
        | link target => exact (hlink rest target hreach).elim
        | dir inner => exact hyields.elim
      · rintro ⟨segments, rfl, hreach⟩
        have hne : segments ≠ [] := by
          rintro rfl
          cases hreach
        exact ⟨segments, .file text, (reaches_cloned hne).2 hreach, rfl, rfl⟩
  · intro hvisible
    apply hends
    constructor
    · intro rest inner hreach
      apply (enterDirectory_eq_ok (hproper'.names hreach)).2
      by_cases hne : rest = []
      · simp [hne]
      · exact hvisible rest inner ((reaches_cloned hne).1 hreach)
    · exact fun rest target hreach => (hlink rest target hreach).elim

/-- Which of the trees that bring no transactions with them a usable database is bootstrapped from. -/
theorem usable_of_unlisted {tree : FileTree}
    (hplain : ∀ segments target, ¬Reaches (fun _ => true) tree.root segments (.link target))
    (hunlisted : Unlisted tree.entries) (hinit : Init s) (hempty : s.disk.entries = []) :
    Usable host t tree s ↔ Bootable tree := by
  have hproper' := proper_cloned tree.proper
  have hlists := Disk.lists_root (cloned tree.entries)
  have hnodup := (hproper' [] _ (.here _)).1
  obtain ⟨found, hpending, hnone, hjournal⟩ := run_pending host
    (s := { s with disk := ⟨copiedEntries [] (cloned tree.entries)⟩ }) hproper' hlists
    fun inner listed hinner => hunlisted inner listed ((mem_cloned (by decide)).1 hinner)
  have hboot := run_bootstrapFrom (t := t) hinit (bootstrapDb_of_empty hempty tree.entries) hnone hpending
  obtain ⟨number, hrevision, hnumbered⟩ := run_revisionUnlocked
    (s := ({ s with disk := ⟨copiedEntries [] (cloned tree.entries)⟩ }.opened (.ok ())).enqueue .publication t)
    hnodup hlists
  have hsnapshot := run_snapshot host t
    (s := { s with disk := ⟨copiedEntries [] (cloned tree.entries)⟩ }.opened (.ok ()))
    rfl (hinit.queue .publication) hinit.healthy hproper' rfl hrevision
  obtain ⟨hreturns, hends⟩ := walk_cloned tree.proper hplain
  constructor
  · rintro ⟨s₁, s₂, revision, files, hrun, hfiles, -⟩
    rw [hboot] at hrun
    cases hfound : found with
    | error e =>
      rw [hfound] at hrun
      cases (Prod.mk.inj (Option.some.inj hrun)).1
    | ok transactions =>
      rw [hfound] at hrun
      obtain ⟨-, rfl⟩ := Prod.mk.inj (Option.some.inj hrun)
      have hok := (Prod.mk.inj (Option.some.inj (hsnapshot.symm.trans hfiles))).1
      obtain ⟨files', hwalk, hok⟩ := Schema.bind_eq_ok.1 hok
      obtain ⟨revision', hnumber, -⟩ := Schema.bind_eq_ok.1 hok
      constructor
      · exact (hreturns files' hwalk).1
      · intro node hnode
        exact hnumbered.1 ⟨revision', hnumber⟩ node ((mem_cloned (by decide)).2 hnode)
      · intro node hnode
        exact hjournal.1 ⟨transactions, hfound⟩ node ((mem_cloned (by decide)).2 hnode)
  · rintro ⟨hvisible, hnumber, hempties⟩
    obtain ⟨transactions, hfound⟩ := hjournal.2 fun node hnode => hempties node ((mem_cloned (by decide)).1 hnode)
    obtain ⟨revision, hrev⟩ := hnumbered.2 fun node hnode => hnumber node ((mem_cloned (by decide)).1 hnode)
    obtain ⟨files, hwalk⟩ := hends hvisible
    rw [hfound] at hboot
    rw [hwalk, hrev] at hsnapshot
    exact ⟨_, _, revision, files, hboot, hsnapshot, (hreturns files hwalk).2⟩

theorem emptyState_empty : emptyState.disk.entries = [] := rfl

/-- A clone that holds nothing but the order of its environments. -/
def plainTree : FileTree where
  entries := [("environments.yaml", .file "order: [dev, prod]\n")]
  proper := proper_single ⟨by decide, by decide⟩ (proper_file _)

theorem reaches_plainTree {keep : String → Bool} {node : Node} (h : Reaches keep plainTree.root segments node) :
    segments = [] ∨ node = .file "order: [dev, prod]\n" := by
  rcases reaches_dir_iff.1 h with ⟨hnil, -⟩ | ⟨entry, hmem, -, rest, -, hrest⟩
  · exact .inl hnil
  · rw [List.mem_singleton.1 hmem] at hrest
    cases hrest
    exact .inr rfl

theorem bootable_plainTree : Bootable plainTree := by
  constructor
  · intro segments entries hreach
    rcases reaches_plainTree hreach with rfl | heq
    · simp
    · cases heq
  · intro node hmem
    simp [plainTree] at hmem
  · intro node hmem
    simp [plainTree] at hmem

/-- The clone of a repository that was begun with `config-repo-template`. -/
def templateTree : FileTree where
  entries := [(".github", .dir [("workflows", .dir [("validate.yml", .file "name: validate\n")])]),
    ("environments.yaml", .file "order: [dev, prod]\n")]
  proper := by
    apply proper_dir (by decide)
    intro entry hentry
    rcases List.mem_pair.1 hentry with rfl | rfl
    · exact ⟨⟨by decide, by decide⟩, proper_single ⟨by decide, by decide⟩
        (proper_single ⟨by decide, by decide⟩ (proper_file _))⟩
    · exact ⟨⟨by decide, by decide⟩, proper_file _⟩

end ConfigRegistry.Engine
