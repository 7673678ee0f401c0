import ConfigRegistry.Git.Turns

/-!
# A sync in its turn

What a sync knows from its snapshot to the end of its push: the snapshot is one revision of the
database, the loops of the mirror end with that revision over what was found, the index and the
commit are what git takes of the mirror, and a push that succeeds has the commit in HEAD.
-/

namespace ConfigRegistry.Git

open Js Async

variable {rules : Rules} {terms : Terms}

/-- The running sync has the snapshot `source`, and what a pull changed it changed before. -/
structure Snapped (source : Files) (s : State) : Prop where
  of : s.mirror.Of s.db
  source : s.mirror.source = source
  taken : s.taken = some s.mirror.revision
  after : ∀ e ∈ s.pulled, e.revision ≤ s.mirror.revision

/-- It has listed the clone, and only the working tree has changed since. -/
structure Collected (source : Files) (previous : List String) (s : State) : Prop
    extends Snapped source s where
  previous : s.mirror.previous = previous
  tracked : s.clone.index = s.mirror.tracked

/-- Files that are gone are removed, but for those among `todo`. -/
structure Removing (m : Mirror) (todo : List String) (tree : Tree) : Prop where
  gone : ∀ path ∈ m.previous, m.source.lookup path = none → path ∉ todo → tree.lookup path = none
  others : ∀ path, ¬ (path ∈ m.previous ∧ m.source.lookup path = none) →
    tree.lookup path = m.found.lookup path

/-- Files that are gone are removed, and all others written, but for those among `todo`. -/
structure Writing (m : Mirror) (todo : List (Σ _ : String, String)) (tree : Tree) : Prop where
  written : ∀ path text, m.source.lookup path = some text → path ∉ todo.map Sigma.fst →
    tree.lookup path = some (.file text false)
  others : ∀ path, m.source.lookup path = none →
    tree.lookup path = if path ∈ m.previous then none else m.found.lookup path

theorem Removing.erase {m : Mirror} {file : String} {todo : List String} {tree : Tree}
    (h : Removing m (file :: todo) tree) (hfile : file ∈ m.previous)
    (hgone : m.source.lookup file = none) : Removing m todo (tree.erase file) where
  gone path hp hs ht := by
    by_cases heq : path = file
    · rw [heq, AList.lookup_erase]
    · rw [AList.lookup_erase_ne heq]
      exact h.gone path hp hs (by simp [heq, ht])
  others path hp := by
    have hne : path ≠ file := fun heq => hp (heq ▸ ⟨hfile, hgone⟩)
    rw [AList.lookup_erase_ne hne, h.others path hp]

theorem Removing.skip {m : Mirror} {file : String} {todo : List String} {tree : Tree}
    (h : Removing m (file :: todo) tree) (hkept : m.source.lookup file ≠ none) :
    Removing m todo tree where
  gone path hp hs ht := by
    have hne : path ≠ file := fun heq => hkept (heq ▸ hs)
    exact h.gone path hp hs (by simp [hne, ht])
  others := h.others

theorem Removing.writing {m : Mirror} {tree : Tree} (h : Removing m [] tree) :
    Writing m m.source.entries tree where
  written path text hs ht := by
    have hmem : path ∈ m.source := AList.lookup_isSome.1 (by rw [hs]; rfl)
    exact (ht hmem).elim
  others path hs := by
    split
    · rename_i hp
      exact h.gone path hp hs List.not_mem_nil
    · rename_i hp
      exact h.others path fun hh => hp hh.1

/-- A file is written through a temporary that was not there before. -/
theorem Writing.install {m : Mirror} {path text temporary : String}
    {todo : List (Σ _ : String, String)} {tree : Tree} (h : Writing m (⟨path, text⟩ :: todo) tree)
    (hpath : m.source.lookup path = some text) (hfresh : temporary ∉ tree) {node : Node}
    (hnode : (tree.insert temporary (.file text false)).lookup temporary = some node) :
    Writing m todo (((tree.insert temporary (.file text false)).erase temporary).insert path node) := by
  have hnone : tree.lookup temporary = none := AList.lookup_eq_none.2 hfresh
  have hnode : node = .file text false := by
    rw [AList.lookup_insert] at hnode
    exact (Option.some.inj hnode).symm
  -- Nothing else has changed, since the temporary had nothing under its name.
  have hother (q : String) (hq : q ≠ path) :
      (((tree.insert temporary (.file text false)).erase temporary).insert path node).lookup q =
        tree.lookup q := by
    rw [AList.lookup_insert_ne hq]
    by_cases heq : q = temporary
    · rw [heq, AList.lookup_erase, hnone]
    · rw [AList.lookup_erase_ne heq, AList.lookup_insert_ne heq]
  constructor
  · intro q text' hs ht
    by_cases hq : q = path
    · subst hq
      rw [hpath] at hs
      rw [AList.lookup_insert, hnode, Option.some.inj hs]
    · rw [hother q hq]
      exact h.written q text' hs (by simp [hq, ht])
  · intro q hs
    have hq : q ≠ path := fun heq => by rw [heq, hpath] at hs; cases hs
    rw [hother q hq, h.others q hs]

theorem Writing.same {m : Mirror} {tree : Tree} (h : Writing m [] tree) : tree.Same m.tree := by
  intro path
  rw [Mirror.lookup_tree]
  cases hs : m.source.lookup path with
  | some text => exact h.written path text hs List.not_mem_nil
  | none => exact h.others path hs

theorem steady_snapped (source : Files) : Steady (Snapped source) := fun _ _ _ hdb h =>
  ⟨h.of.mono hdb, h.source, h.taken, h.after⟩

theorem steady_collected (source : Files) (previous : List String) :
    Steady (Collected source previous) := fun s db calls hdb h =>
  ⟨steady_snapped source s db calls hdb h.toSnapped, h.previous, h.tracked⟩

theorem Steady.and {K K' : State → Prop} (h : Steady K) (h' : Steady K') :
    Steady fun s => K s ∧ K' s :=
  fun s db calls hdb hk => ⟨h s db calls hdb hk.1, h' s db calls hdb hk.2⟩

/-! ### The mirror -/

section

variable (t : Nat)

theorem remove_works (source : Files) (previous : List String) (file : String) (todo : List String)
    (hfile : file ∈ previous) (hgone : source.lookup file = none) :
    Works rules terms .sync t
      (fun s => Collected source previous s ∧ Removing s.mirror (file :: todo) s.clone.tree)
      (FileWriter.remove t file)
      (fun _ s => Collected source previous s ∧ Removing s.mirror todo s.clone.tree)
      fun _ => True := by
  refine works_plainly ((steady_collected source previous).and fun _ _ _ _ h => h)
    (fun _ => (steady_collected source previous).and fun _ _ _ _ h => h) rfl (fun _ h => nomatch h) ?_
  rintro s a s₁ ⟨hc, hr⟩ rfl
  refine ⟨⟨⟨hc.of, hc.source, hc.taken, hc.after⟩, hc.previous, hc.tracked⟩, ?_⟩
  exact hr.erase (by rw [hc.previous]; exact hfile) (by rw [hc.source]; exact hgone)

theorem removals_work (source : Files) (previous todo : List String)
    (htodo : ∀ file ∈ todo, file ∈ previous) :
    Works rules terms .sync t
      (fun s => Collected source previous s ∧ Removing s.mirror todo s.clone.tree)
      (Prog.each todo fun file =>
        if file ∈ source.keys then pure () else FileWriter.remove t file)
      (fun _ s => Collected source previous s ∧ Removing s.mirror [] s.clone.tree)
      fun _ => True := by
  induction todo with
  | nil => exact .pure _ fun _ h => h
  | cons file todo ih =>
    rw [Prog.each]
    refine .bind (R := fun _ s =>
      Collected source previous s ∧ Removing s.mirror todo s.clone.tree) ?_
      fun _ => ih fun f hf => htodo f (.tail _ hf)
    split
    · rename_i hmem
      refine .pure _ fun s ⟨hc, hr⟩ => ⟨hc, hr.skip ?_⟩
      rw [hc.source]
      exact fun hnone => (AList.lookup_eq_none.1 hnone) hmem
    · rename_i hmem
      exact remove_works t source previous file todo (htodo file (.head _))
        (AList.lookup_eq_none.2 hmem)

/-- `FileWriter.write` of one file of the snapshot. -/
theorem write_works (source : Files) (previous : List String) (path text : String)
    (todo : List (Σ _ : String, String)) (hpath : source.lookup path = some text) :
    Works rules terms .sync t
      (fun s => Collected source previous s ∧ Writing s.mirror (⟨path, text⟩ :: todo) s.clone.tree)
      (FileWriter.write t path text)
      (fun _ s => Collected source previous s ∧ Writing s.mirror todo s.clone.tree)
      fun _ => True := by
  have hsteady (todo : List (Σ _ : String, String)) : Steady fun s =>
      Collected source previous s ∧ Writing s.mirror todo s.clone.tree :=
    (steady_collected source previous).and fun _ _ _ _ h => h
  unfold FileWriter.write
  refine (works_idle (o := .unique) (hsteady _) (fun _ _ _ h => h) fun _ _ _ h => h.elim).bind
    fun unique => ?_
  generalize path ++ "." ++ unique ++ ".tmp" = temporary
  refine .handle (E := fun _ => True) ?_ fun e => ?_
  · -- Between the two operations the temporary is in the tree.
    have hcreate : Works rules terms .sync t (fun s => Collected source previous s ∧
          Writing s.mirror (⟨path, text⟩ :: todo) s.clone.tree)
        (on t (.createTemporary temporary text))
        (fun _ s => Collected source previous s ∧ ∃ tree, temporary ∉ tree ∧
          Writing s.mirror (⟨path, text⟩ :: todo) tree ∧
          s.clone.tree = tree.insert temporary (.file text false)) fun _ => True := by
      refine works_plainly (hsteady _) (fun _ => (steady_collected source previous).and
        fun _ _ _ _ h => h) rfl (fun _ h => nomatch h) ?_
      rintro s a s₁ ⟨hc, hw⟩ ⟨hfresh, rfl⟩
      exact ⟨⟨⟨hc.of, hc.source, hc.taken, hc.after⟩, hc.previous, hc.tracked⟩, s.clone.tree,
        hfresh, hw, rfl⟩
    refine hcreate.bind fun _ => works_plainly ((steady_collected source previous).and
        fun _ _ _ _ h => h) (fun _ => hsteady todo) rfl (fun _ h => nomatch h) ?_
    rintro s a s₁ ⟨hc, tree, hfresh, hw, htree⟩ ⟨node, hnode, rfl⟩
    refine ⟨⟨⟨hc.of, hc.source, hc.taken, hc.after⟩, hc.previous, hc.tracked⟩, ?_⟩
    show Writing s.mirror todo ((s.clone.tree.erase temporary).insert path node)
    rw [htree] at hnode ⊢
    exact hw.install (by rw [hc.source]; exact hpath) hfresh hnode
  · refine Works.attempt_bind (R := fun _ _ => True) (E := fun _ => True) ?_
      (fun _ => .fail _ fun _ _ => trivial) fun _ => .fail _ fun _ _ => trivial
    exact works_plainly steady_true (fun _ => steady_true) rfl (fun _ h => nomatch h)
      fun _ _ _ _ _ => trivial

theorem writes_work (source : Files) (previous : List String) (todo : List (Σ _ : String, String))
    (htodo : ∀ file ∈ todo, source.lookup file.1 = some file.2) :
    Works rules terms .sync t
      (fun s => Collected source previous s ∧ Writing s.mirror todo s.clone.tree)
      (Prog.each todo fun ⟨file, content⟩ => FileWriter.write t file content)
      (fun _ s => Collected source previous s ∧ Writing s.mirror [] s.clone.tree)
      fun _ => True := by
  induction todo with
  | nil => exact .pure _ fun _ h => h
  | cons file todo ih =>
    rw [Prog.each]
    exact (write_works t source previous file.1 file.2 todo (htodo file (.head _))).bind
      fun _ => ih fun f hf => htodo f (.tail _ hf)

/-- The mirror is made, and nothing has been staged since. -/
structure Mirrored (source : Files) (s : State) : Prop extends Snapped source s where
  tree : s.clone.tree.Same s.mirror.tree
  tracked : s.clone.index = s.mirror.tracked

theorem steady_mirrored (source : Files) : Steady (Mirrored source) := fun s db calls hdb h =>
  ⟨steady_snapped source s db calls hdb h.toSnapped, h.tree, h.tracked⟩

theorem mirrorSnapshot_works (source : Files) :
    Works rules terms .sync t (Snapped source) (SyncEngine.mirrorSnapshot t source)
      (fun _ => Mirrored source) fun _ => True := by
  unfold SyncEngine.mirrorSnapshot
  have hmkdir : Works rules terms .sync t (Snapped source) (on t .mkdir) (fun _ => Snapped source)
      fun _ => True :=
    works_plainly (steady_snapped source) (fun _ => steady_snapped source) rfl
      (fun _ h => nomatch h) fun s a s₁ h he => by
        obtain rfl := he
        exact ⟨h.of, h.source, h.taken, h.after⟩
  have hcollect : Works rules terms .sync t (Snapped source) (on t .collectFiles)
      (fun previous s => Collected source previous s ∧
        Removing s.mirror previous s.clone.tree) fun _ => True := by
    refine works_plainly (steady_snapped source)
      (fun previous => (steady_collected source previous).and fun _ _ _ _ h => h) rfl
      (fun _ h => nomatch h) ?_
    rintro s previous s₁ h ⟨-, rfl⟩
    refine ⟨⟨⟨⟨h.of.revision, h.of.source⟩, h.source, h.taken, h.after⟩, rfl, rfl⟩, ?_, ?_⟩
    · exact fun path hp _ ht => (ht hp).elim
    · exact fun path _ => rfl
  refine hmkdir.bind fun _ => hcollect.bind fun previous => ?_
  refine (removals_work t source previous previous fun _ h => h).bind fun _ => ?_
  have hwrites : Works rules terms .sync t
      (fun s => Collected source previous s ∧ Writing s.mirror source.entries s.clone.tree)
      (Prog.each source.entries fun ⟨file, content⟩ => FileWriter.write t file content)
      (fun _ s => Collected source previous s ∧ Writing s.mirror [] s.clone.tree) fun _ => True :=
    writes_work t source previous source.entries fun file hf => AList.mem_lookup_iff.2 hf
  refine .conseq (fun s ⟨hc, hr⟩ => ⟨hc, ?_⟩) (fun _ _ h => h) (fun _ h => h)
    (hwrites.bind fun _ => .pure _ fun s ⟨hc, hw⟩ =>
      ⟨hc.toSnapped, hw.same, hc.tracked⟩)
  have hw := hr.writing
  rwa [hc.source] at hw

/-! ### Staging and committing -/

/-- `git add -A` has taken the mirror. -/
structure Staged (rules : Rules) (source : Files) (s : State) : Prop extends Snapped source s where
  tree : s.clone.tree.Same s.mirror.tree
  index : s.clone.index.Same (s.mirror.recorded rules)

/-- HEAD has a commit that has or replays what git takes of the mirror. -/
structure Carried (rules : Rules) (s : State) : Prop where
  of : s.mirror.Of s.db
  taken : s.taken = some s.mirror.revision
  carries : ∃ c ∈ s.clone.head, ∃ tree, c.carries = some tree ∧ tree.Same (s.mirror.recorded rules)

variable (rules terms) in
/-- The clone has no uncommitted changes, where a run promises that. -/
def Tidy (s : State) : Prop := terms.tidy → s.dirty rules = false

theorem steady_staged (source : Files) : Steady (Staged rules source) := fun s db calls hdb h =>
  ⟨steady_snapped source s db calls hdb h.toSnapped, h.tree, h.index⟩

theorem steady_carried : Steady (Carried rules) := fun _ _ _ hdb h =>
  ⟨h.of.mono hdb, h.taken, h.carries⟩

theorem steady_tidy : Steady (Tidy rules terms) := fun _ _ _ _ h => h

theorem Mirrored.log {source : Files} {s : State} (h : Mirrored source s) (t : Nat) (o : CloneOp)
    (dirty : Bool) : Mirrored source (s.log t o dirty) :=
  ⟨⟨h.of, h.source, h.taken, h.after⟩, h.tree, h.tracked⟩

theorem Staged.log {source : Files} {s : State} (h : Staged rules source s) (t : Nat) (o : CloneOp)
    (dirty : Bool) : Staged rules source (s.log t o dirty) :=
  ⟨⟨h.of, h.source, h.taken, h.after⟩, h.tree, h.index⟩

theorem Carried.log {s : State} (h : Carried rules s) (t : Nat) (o : CloneOp) (dirty : Bool) :
    Carried rules (s.log t o dirty) :=
  ⟨h.of, h.taken, h.carries⟩

theorem Mirrored.add {source : Files} {s : State} (h : Mirrored source s) :
    Staged rules source (s.add rules) where
  of := h.of
  source := h.source
  taken := h.taken
  after := h.after
  tree := h.tree
  index path := staged_congr rules h.tree (fun q => congrArg (fun i : Tree => (i.lookup q).isSome)
    h.tracked) path

/-- A commit of what is staged leaves nothing to commit. -/
theorem Staged.commit {source : Files} {s : State} (h : Staged rules source s)
    (message sha : String) :
    Carried rules (s.commit message sha) ∧ (s.commit message sha).dirty rules = false := by
  refine ⟨⟨h.of, h.taken, _, .head _, s.clone.index, rfl, h.index⟩, ?_⟩
  have hindex : s.clone.index.differs s.clone.index = false := Tree.differs_eq_false.2 fun _ => rfl
  have hstaged : (staged rules s.clone.tree s.clone.index).differs s.clone.index = false := by
    refine Tree.differs_eq_false.2 fun path => ?_
    have hsome (q : String) : (s.clone.index.lookup q).isSome =
        ((staged rules s.mirror.tree s.mirror.tracked).lookup q).isSome :=
      congrArg Option.isSome (h.index q)
    rw [staged_congr rules h.tree hsome path, lookup_staged_staged]
    exact (h.index path).symm
  show (s.clone.index.differs s.clone.index ||
    (staged rules s.clone.tree s.clone.index).differs s.clone.index) = false
  rw [hindex, hstaged]
  rfl

theorem commitWorkingTree_works (source : Files) (message : String) :
    Works rules terms .sync t (Mirrored source) (GitRepository.commitWorkingTree t message)
      (fun r s => r.isSome = true → Carried rules s ∧ Tidy rules terms s) fun _ => True := by
  unfold GitRepository.commitWorkingTree
  have hadd : Works rules terms .sync t (Mirrored source) (on t .add)
      (fun _ => Staged rules source) fun _ => True :=
    works_plainly (steady_mirrored source) (fun _ => steady_staged source) rfl
      (fun _ h => nomatch h) fun s a s₁ h he => by
        obtain rfl := he
        exact h.add.log _ _ _
  have hdiff : Works rules terms .sync t (Staged rules source) (on t .diffCached)
      (fun _ => Staged rules source) fun _ => True :=
    works_plainly (steady_staged source) (fun _ => steady_staged source) rfl
      (fun _ h => nomatch h) fun s a s₁ h he => by
        obtain ⟨-, rfl⟩ := he
        exact h.log _ _ _
  have hcommit : Works rules terms .sync t (Staged rules source) (on t (.commit message))
      (fun _ s => Carried rules s ∧ Tidy rules terms s) fun _ => True := by
    refine works_on (steady_staged source) (fun _ => steady_carried.and steady_tidy) steady_true ?_
      (fun _ _ _ _ _ => trivial) (fun _ _ h => nomatch h) ?_
    · rintro s a s₁ h ⟨-, sha, rfl⟩
      obtain ⟨hc, hd⟩ := h.commit message sha
      exact ⟨hc.log _ _ _, fun _ => hd⟩
    · intro s h _ _ hdiffers
      refine ⟨h.of, h.index, hdiffers, ?_⟩
      exact h.after
  have hhead : Works rules terms .sync t (fun s => Carried rules s ∧ Tidy rules terms s)
      (GitRepository.headCommit t) (fun _ s => Carried rules s ∧ Tidy rules terms s)
      fun _ => True :=
    works_plainly (steady_carried.and steady_tidy) (fun _ => steady_carried.and steady_tidy) rfl
      (fun _ h => nomatch h) fun s a s₁ h he => by
        obtain ⟨-, rfl⟩ := he
        exact ⟨h.1.log _ _ _, h.2⟩
  refine hadd.bind fun _ => hdiff.bind fun differs => ?_
  split
  · exact .pure _ fun _ _ h => nomatch h
  · exact hcommit.bind fun _ => hhead.bind fun _ => .pure _ fun _ h _ => h

theorem commit_works (source : Files) (message : String) :
    Works rules terms .sync t (Mirrored source) (commit t message)
      (fun _ s => Carried rules s ∧ Tidy rules terms s) fun _ => True := by
  unfold commit
  refine (commitWorkingTree_works t source message).bind fun sha => ?_
  cases sha with
  | none => exact .fail _ fun _ _ => trivial
  | some sha => exact .pure _ fun _ h => h rfl

/-! ### Publishing -/

/-- What a push leaves alone, also where it rebases. -/
structure Lasting (A : State → Prop) : Prop where
  steady : Steady A
  log : ∀ s t o dirty, A s → A (s.log t o dirty)
  push : ∀ s, A s → A s.push
  fetch : ∀ s fetched tracking, A s →
    A { s with clone := { s.clone with fetched, tracking } }
  rebase : ∀ s tree head, Rebases s.clone.head s.clone.fetched head → A s →
    A { s with clone := { s.clone with tree, index := headTree head, head } }

theorem lasting_true : Lasting fun _ => True :=
  ⟨steady_true, fun _ _ _ _ _ => trivial, fun _ _ => trivial, fun _ _ _ _ => trivial,
    fun _ _ _ _ _ => trivial⟩

theorem replayed {here again : List Commit}
    (h : List.Forall₂ (fun c c' : Commit => c'.carries = c.carries) here again) {c : Commit}
    (hc : c ∈ here) : ∃ c' ∈ again, c'.carries = c.carries := by
  induction h with
  | nil => cases hc
  | @cons d d' here again hd _ ih =>
    obtain rfl | hc := List.mem_cons.1 hc
    · exact ⟨d', .head _, hd⟩
    · obtain ⟨c', hc', he⟩ := ih hc
      exact ⟨c', .tail _ hc', he⟩

/-- What a commit carries, the one that replays it carries. -/
theorem Rebases.carries {head onto head' : List Commit} (h : Rebases head onto head') {c : Commit}
    (hc : c ∈ head) : ∃ c' ∈ head', c'.carries = c.carries := by
  obtain ⟨here, base, above, again, rfl, rfl, rfl, hagain⟩ := h
  obtain hc | hc := List.mem_append.1 hc
  · obtain ⟨c', hc', he⟩ := replayed hagain hc
    exact ⟨c', List.mem_append_left _ hc', he⟩
  · exact ⟨c, List.mem_append_right _ (List.mem_append_right _ hc), rfl⟩

theorem lasting_carried : Lasting (Carried rules) where
  steady := steady_carried
  log _ t o dirty h := h.log t o dirty
  push _ h := ⟨h.of, h.taken, h.carries⟩
  fetch _ _ _ h := ⟨h.of, h.taken, h.carries⟩
  rebase s tree head hr h := by
    obtain ⟨c, hc, tree', hcarries, hsame⟩ := h.carries
    obtain ⟨c', hc', he⟩ := hr.carries hc
    exact ⟨h.of, h.taken, c', hc', tree', he.trans hcarries, hsame⟩

variable {A : State → Prop} {role : Role}

theorem fetch_works (hA : Lasting A) :
    Works rules terms role t (fun s => A s ∧ Tidy rules terms s) (op .fetch)
      (fun _ s => A s ∧ Tidy rules terms s) fun _ => True := by
  refine works_elsewhere (hA.steady.and steady_tidy) (fun _ => hA.steady.and steady_tidy)
    steady_true ?_ fun s e s' _ h => ⟨h, trivial⟩
  rintro s a s' hi hh ⟨ha, ht⟩ ⟨history, -, rfl⟩
  refine ⟨hi.quiet hh.holds ⟨rfl, rfl, rfl, rfl, rfl, rfl, rfl, rfl, rfl, .inl rfl⟩, ?_, ?_,
    hA.fetch s _ _ ha, ht⟩
  · exact ⟨.refl, fun _ _ => .rfl, fun _ _ => id⟩
  · cases role <;> exact hh

/-- The push itself. -/
theorem pushes (hA : Lasting A) (K : State → Prop) (hK : Steady K) (hKA : ∀ s, K s → A s)
    (hlog : ∀ s t o dirty, K s → K (s.log t o dirty)) :
    Works rules terms role t K (do on t .push; pure { pushed := true })
      (fun (r : PushResult) s => r.pushed = true → A s) K := by
  have hpush : Works rules terms role t K (on t .push) (fun _ => A) K :=
    works_on hK (fun _ => hA.steady) hK
      (fun s a s₁ h he => by
        obtain rfl := he
        exact hA.log _ _ _ _ (hA.push s (hKA s h)))
      (fun s e s₁ h he => by
        obtain rfl := he
        exact hlog _ _ _ _ h)
      (fun _ _ h => nomatch h) fun _ _ _ h => nomatch h
  exact hpush.bind fun _ => .pure _ fun _ h _ => h

theorem rebaseAndPush_works (hA : Lasting A) (first : Error) :
    Works rules terms role t (fun s => A s ∧ Tidy rules terms s)
      (GitRepository.rebaseAndPush t first) (fun r s => r.pushed = true → A s) fun _ => True := by
  unfold GitRepository.rebaseAndPush
  refine (fetch_works t hA).attempt_bind (fun _ => ?_) fun _ => .pure _ fun _ _ h => nomatch h
  have hrebase : Works rules terms role t (fun s => A s ∧ Tidy rules terms s) (on t .rebase)
      (fun _ => A) fun _ => True := by
    refine works_on (hA.steady.and steady_tidy) (fun _ => hA.steady) steady_true ?_
      (fun _ _ _ _ _ => trivial) (fun _ h _ => h.2) fun _ _ _ h => nomatch h
    rintro s a s₁ ⟨ha, -⟩ ⟨-, -, tree, head, hr, rfl, -⟩
    exact hA.log _ _ _ _ (hA.rebase s tree head hr ha)
  have habort : Works rules terms role t (fun _ => True) (on t .abort) (fun _ _ => True)
      fun _ => True :=
    works_plainly steady_true (fun _ => steady_true) rfl (fun _ h => nomatch h)
      fun _ _ _ _ _ => trivial
  refine hrebase.attempt_bind (fun _ => ?_) fun cause => ?_
  · exact (pushes t hA A hA.steady (fun _ h => h) hA.log).handle fun _ =>
      .pure _ fun _ _ h => nomatch h
  · exact habort.attempt_bind (fun _ => .pure _ fun _ _ h => nomatch h) fun _ =>
      .pure _ fun _ _ h => nomatch h

theorem push_works (hA : Lasting A) :
    Works rules terms role t (fun s => A s ∧ Tidy rules terms s) (GitRepository.push t)
      (fun r s => r.pushed = true → A s) fun _ => True := by
  unfold GitRepository.push
  refine (works_idle (o := .remote) (hA.steady.and steady_tidy) (fun _ _ _ h => h)
    fun _ _ _ h => h.elim).bind fun remote => ?_
  cases remote with
  | none => exact .pure _ fun _ _ h => nomatch h
  | some remote =>
    exact (pushes t hA _ (hA.steady.and steady_tidy) (fun _ h => h.1)
      fun s t o dirty h => ⟨hA.log s t o dirty h.1, h.2⟩).handle
      fun cause => rebaseAndPush_works t hA cause

/-! ### The whole sync -/

/-- A sync that says the database is in HEAD is right. -/
def Finished (rules : Rules) (t : Nat) (result : Except Error Backup.SyncResult) (s : State) :
    Prop :=
  (⟨t, result, s.clone.head, s.mirror⟩ : Settled).Fresh →
    s.mirror.Of s.db ∧ s.taken = some s.mirror.revision ∧ Carries rules s.mirror s.clone.head

theorem finished_deferred {result : Except Error Backup.SyncResult} {s : State}
    (h : ∀ r, result = .ok r → r.kind = .deferred) : Finished rules t result s := by
  rintro ⟨r, hr, hkind⟩
  rw [h r hr] at hkind
  obtain hk | hk := hkind <;> cases hk

theorem Carried.finished {s : State} (h : Carried rules s)
    (result : Except Error Backup.SyncResult) : Finished rules t result s :=
  fun _ => ⟨h.of, h.taken, .inr h.carries⟩

/-- A mirror in which git finds no change is HEAD. -/
theorem Mirrored.finished {source : Files} {s : State} (h : Mirrored source s)
    (hclean : s.dirty rules = false) (result : Except Error Backup.SyncResult) :
    Finished rules t result s := by
  refine fun _ => ⟨h.of, h.taken, .inl fun path => ?_⟩
  obtain ⟨hindex, hstaged⟩ := Bool.or_eq_false_iff.1 hclean
  have hi := Tree.differs_eq_false.1 hindex path
  have hs := Tree.differs_eq_false.1 hstaged path
  rw [staged_congr rules h.tree (fun q => by rw [h.tracked]) path] at hs
  exact hi.symm.trans hs.symm

theorem snapshot_works :
    Works rules terms .sync t (fun s => ∀ e ∈ s.settled, e.sync ≠ t) (op .snapshot)
      (fun source => Snapped source) fun _ => True := by
  refine works_elsewhere (fun _ _ _ _ h => h) (fun source => steady_snapped source) steady_true ?_
    fun s e s' _ h => ⟨h, trivial⟩
  rintro s source s' hi hh hfresh ⟨-, rfl, rfl⟩
  have hrun : s.running = some t := hh
  have hbase : Sound rules terms { s with taken := some s.db.revision } :=
    { hi with
      snapshot := fun c hc _ _ m hm => by
        obtain rfl := Option.some.inj hm
        exact hi.calls c hc
      answered := fun e he _ hr => by
        rw [hrun] at hr
        exact (hfresh e he (Option.some.inj hr).symm).elim }
  refine ⟨hbase.quiet (t := t) hh.holds ⟨rfl, rfl, rfl, rfl, rfl, rfl, rfl, rfl, rfl, .inl rfl⟩,
    ⟨.refl, fun _ _ => .rfl, fun _ _ => id⟩, hh, ⟨⟨Nat.le_refl _, rfl⟩, rfl, rfl, hi.pulled⟩⟩

theorem performSync_works :
    Works rules terms .sync t (fun s => ∀ e ∈ s.settled, e.sync ≠ t) (SyncEngine.performSync t)
      (fun r => Finished rules t (.ok r)) fun _ => True := by
  unfold SyncEngine.performSync
  refine (works_idle (o := .rotate) (fun _ _ _ _ h => h) (fun _ _ _ h => h)
    fun _ _ _ h => h).bind fun _ => (snapshot_works t).bind fun source => ?_
  refine (mirrorSnapshot_works t source).bind fun files => ?_
  have hstatus : Works rules terms .sync t (Mirrored source)
      (GitRepository.hasWorkingTreeChanges t)
      (fun changed s => Mirrored source s ∧ (changed = false → s.dirty rules = false))
      fun _ => True :=
    works_plainly (steady_mirrored source)
      (fun _ => (steady_mirrored source).and fun _ _ _ _ h => h) rfl (fun _ h => nomatch h)
      fun s a s₁ h he => by
        obtain ⟨rfl, rfl⟩ := he
        exact ⟨h.log _ _ _, fun hd => hd⟩
  have hidle {K : State → Prop} (hK : Steady K) : Works rules terms .sync t K (op .discard)
      (fun _ => K) fun _ => True :=
    works_idle hK (fun _ _ _ h => h) fun _ _ _ h => h
  refine hstatus.bind fun changed => ?_
  split
  · rename_i hsame
    refine (hidle ((steady_mirrored source).and fun _ _ _ _ h => h)).bind fun _ => .pure _ ?_
    exact fun s h => h.1.finished t (h.2 hsame) _
  · refine .conseq (fun s h => h.1) (fun _ _ h => h) (fun _ h => h)
      ((works_idle (o := .drain) (steady_mirrored source) (fun _ _ _ h => h)
        fun _ _ _ h => h).bind fun entries => ?_)
    refine (commit_works t source _).bind fun sha =>
      (hidle (steady_carried.and steady_tidy)).bind fun _ =>
        (push_works t lasting_carried).bind fun pushed => ?_
    split
    · rename_i hpushed
      exact .pure _ fun s h => (h hpushed).finished t _
    · refine .pure _ fun s _ => finished_deferred t fun r hr => ?_
      obtain rfl := Except.ok.inj hr
      rfl

end

end ConfigRegistry.Git
