import ConfigRegistry.Backup.Attribution

/-!
# Commit messages

A commit names who made the changes it contains, as long as nothing lands in the journal between
the rotation of a sync and its snapshot. Every file version carries the entry of the write that
produced it, so the statements follow a version from the database into the clone and its commits.
-/

namespace ConfigRegistry.Backup

open Js Json Async

/-- The write of an entry is part of the database at revision `r`. -/
def WrittenBy (e : JournalEntry) (r : Nat) : Prop := ∃ n, e.revision = toString n ∧ n ≤ r

/-- A commit that contains the write of the entry names it, or a sync that found the database with
that write no different from the last commit discarded it. -/
def Covered (s : State) (e : JournalEntry) : Prop :=
  (∃ c ∈ s.commits, WrittenBy e c.revision ∧ Names c.message e) ∨
    ∃ cl ∈ s.cleared, WrittenBy e cl.revision ∧ e.toDoc ∈ cl.entries

/-- A tree is the database it was mirrored from. -/
def Mirrors (tree source : Files) : Prop := ∀ path, tree.lookup path = source.lookup path

/-- Commits name who changed what. -/
structure Attributed (s : State) : Prop where
  /-- A version that first appears in a commit is named there. -/
  named : ∀ c ∈ s.commits, ∀ path v e, c.tree.lookup path = some v → v.writtenBy = some e →
    contentAt c.parent path ≠ some v.content → Names c.message e
  committed : ∀ c ∈ s.commits, Mirrors c.tree c.source
  /-- No entry leaves the journal before its write is committed under its name, or found to have
  changed nothing. -/
  entries : ∀ e ∈ s.appended, Covered s e ∨ ∃ file, e.toDoc ∈ s.entriesOf file
  cleared : ∀ cl ∈ s.cleared, Mirrors cl.tree cl.source ∧ SameContents cl.tree cl.head

/-- The condition: a snapshot is taken while `pending.jsonl` holds nothing, and a rotation removes
`sending.jsonl` only when all its entries are covered. -/
def nothingBetween : (o : Op) → State → Except Error o.Res → Prop
  | .remove _ .rotated, s, .ok _ => ∀ e : JournalEntry, e.toDoc ∈ s.entriesOf .sending → Covered s e
  | .snapshot, s, .ok _ => s.entriesOf .pending = []
  | _, _, _ => True

/-- Database writes, syncs and reads of the journal. -/
def writesAndSyncs : Request → Prop
  | .write _ | .sync | .peek => True
  | _ => False

/-- A service that has just started: an empty journal, and a database whose files were all there
before its first write. -/
structure Started (s : State) : Prop extends Unwritten s where
  commits : s.commits = []
  bootstrapped : ∀ path v, s.files.lookup path = some v → v.writtenBy = none

theorem JournalEntry.toDoc_injective {e e' : JournalEntry} (h : e.toDoc = e'.toDoc) : e = e' :=
  Option.some.inj (by rw [← ofDoc_toDoc e, h, ofDoc_toDoc])

theorem WrittenBy.mono {e : JournalEntry} {r r' : Nat} (h : WrittenBy e r) (hr : r ≤ r') :
    WrittenBy e r' :=
  let ⟨n, hn, hle⟩ := h
  ⟨n, hn, Nat.le_trans hle hr⟩

/-- Later writes are not part of an earlier revision. -/
theorem not_writtenBy {e : JournalEntry} {n r : Nat} (h : e.revision = toString n) (hr : r < n) :
    ¬ WrittenBy e r := by
  rintro ⟨m, hm, hle⟩
  have : n = m := natText_injective (h.symm.trans hm)
  omega

theorem Covered.mono {s s' : State} {e : JournalEntry} (h : Covered s e)
    (hc : s.commits ⊆ s'.commits) (hcl : s.cleared ⊆ s'.cleared) : Covered s' e :=
  h.imp (fun ⟨c, hmem, hn⟩ => ⟨c, hc hmem, hn⟩) fun ⟨cl, hmem, hn⟩ => ⟨cl, hcl hmem, hn⟩

/-- A sync has come through with the database at revision `r`. -/
def SyncedAt (s : State) (r : Nat) : Prop :=
  (∃ c ∈ s.commits, c.revision = r) ∨ ∃ cl ∈ s.cleared, cl.revision = r

theorem Covered.syncedAt {s : State} {e : JournalEntry} (h : Covered s e) :
    ∃ r, SyncedAt s r ∧ WrittenBy e r := by
  rcases h with ⟨c, hc, hw, -⟩ | ⟨cl, hcl, hw, -⟩
  · exact ⟨c.revision, .inl ⟨c, hc, rfl⟩, hw⟩
  · exact ⟨cl.revision, .inr ⟨cl, hcl, rfl⟩, hw⟩

/-- What the service keeps of commit messages. -/
structure Tracked (s : State) : Prop extends Attributed s where
  whole : Whole s
  /-- The journal holds appended entries only, of writes already made. -/
  fromAppended : ∀ file, ∀ d ∈ s.entriesOf file, ∃ e ∈ s.appended, d = e.toDoc
  known : ∀ e ∈ s.appended, WrittenBy e s.revision
  written : ∀ path v e, s.files.lookup path = some v → v.writtenBy = some e → WrittenBy e s.revision
  /-- Between publications every version in the database has its entry appended. -/
  delivered : s.publishing = false → s.healthy = true →
    ∀ path v e, s.files.lookup path = some v → v.writtenBy = some e → e ∈ s.appended
  /-- What a sync came through with is in the last commit until it is written again. -/
  synced : ∀ r, SyncedAt s r → r ≤ s.revision ∧
    ∀ path v e, s.files.lookup path = some v → v.writtenBy = some e → WrittenBy e r →
      contentAt s.head path = some v.content

/-- What no step undoes: revisions grow, and a version that appears is of a later one. -/
structure Later (s s' : State) : Prop where
  revision : s.revision ≤ s'.revision
  appended : s.appended ⊆ s'.appended
  files : ∀ path v e, s'.files.lookup path = some v → v.writtenBy = some e →
    s.files.lookup path = some v ∨ ∃ n, e.revision = toString n ∧ s.revision < n

theorem Later.refl (s : State) : Later s s :=
  ⟨Nat.le_refl _, List.Subset.refl _, fun _ _ _ h _ => .inl h⟩

theorem Later.trans {s s' s'' : State} (h : Later s s') (h' : Later s' s'') : Later s s'' where
  revision := Nat.le_trans h.revision h'.revision
  appended := List.Subset.trans h.appended h'.appended
  files path v e hv he := by
    rcases h'.files path v e hv he with hv | ⟨n, hn, hlt⟩
    · exact h.files path v e hv he
    · exact .inr ⟨n, hn, Nat.lt_of_le_of_lt h.revision hlt⟩

/-- A step that leaves the database alone and appends nothing. -/
theorem later_of_eq {s s' : State} (hr : s'.revision = s.revision) (ha : s'.appended = s.appended)
    (hf : s'.files = s.files) : Later s s' :=
  ⟨by rw [hr], by rw [ha]; exact List.Subset.refl _, fun _ _ _ h _ => .inl (by rw [hf] at h; exact h)⟩

/-- What a sync knows of the snapshot it has taken. -/
structure Took (source : Files) (s : State) : Prop where
  found : s.source = source
  /-- Every version in it is already committed, or its entry is in `sending.jsonl`. -/
  sent : ∀ path v e, source.lookup path = some v → v.writtenBy = some e →
    e.toDoc ∈ s.entriesOf .sending ∨ contentAt s.head path = some v.content
  /-- It holds every version in the database that is not of a later revision. -/
  holds : ∀ path v e, s.files.lookup path = some v → v.writtenBy = some e → WrittenBy e s.taken →
    source.lookup path = some v
  /-- Everything in `sending.jsonl` is part of it. -/
  earlier : ∀ e : JournalEntry, e.toDoc ∈ s.entriesOf .sending → WrittenBy e s.taken
  later : ∀ r, SyncedAt s r → r ≤ s.taken
  taken : s.taken ≤ s.revision

/-- What a sync knows at each stage. -/
def tracksAt : Stage → State → Prop
  | .removed, s => s.sending = none
  | .taken source, s => Took source s
  | .removing source todo, s => Took source s ∧ ∀ path ∈ s.clone.keys, path ∈ source.keys ∨ path ∈ todo
  | .writing source todo, s => Took source s ∧ (∀ path ∈ s.clone.keys, path ∈ source.keys) ∧
      (∀ x ∈ todo, source.lookup x.1 = some x.2) ∧
      ∀ path ∈ source.keys, path ∈ todo.map Sigma.fst ∨ s.clone.lookup path = source.lookup path
  | .mirrored source, s | .changed source, s => Took source s ∧ Mirrors s.clone source
  | .clean source, s => (Took source s ∧ Mirrors s.clone source) ∧ s.dirty = false
  | .read source text, s => (Took source s ∧ Mirrors s.clone source) ∧ s.sending.getD [] = text
  | .committed, s => ∀ e : JournalEntry, e.toDoc ∈ s.entriesOf .sending → Covered s e
  | _, _ => True

theorem Took.frame {source : Files} {s s' : State} (h : Took source s) (hf : SyncFrame s s')
    (hl : Later s s') : Took source s' := by
  have hentries : s'.entriesOf .sending = s.entriesOf .sending := entriesOf_congr hf.sending
  refine ⟨hf.source.trans h.found, fun path v e hv he => ?_, fun path v e hv he hw => ?_,
    fun e he => ?_, fun r hr => ?_, ?_⟩
  · rw [hentries, hf.head]
    exact h.sent path v e hv he
  · rw [hf.taken] at hw
    rcases hl.files path v e hv he with hv | ⟨n, hn, hlt⟩
    · exact h.holds path v e hv he hw
    · exact (not_writtenBy hn (Nat.lt_of_le_of_lt h.taken hlt) hw).elim
  · rw [hentries] at he
    rw [hf.taken]
    exact h.earlier e he
  · rw [hf.taken]
    rw [SyncedAt, hf.commits, hf.cleared] at hr
    exact h.later r hr
  · rw [hf.taken]
    exact Nat.le_trans h.taken hl.revision

theorem tracksAt_frame {σ : Stage} {s s' : State} (h : tracksAt σ s) (hf : SyncFrame s s')
    (hl : Later s s') : tracksAt σ s' := by
  cases σ with
  | removed => exact hf.sending.trans h
  | taken source => exact Took.frame h hf hl
  | removing source todo =>
    refine ⟨h.1.frame hf hl, ?_⟩
    rw [hf.clone]
    exact h.2
  | writing source todo =>
    refine ⟨h.1.frame hf hl, ?_⟩
    rw [hf.clone]
    exact h.2
  | mirrored source =>
    refine ⟨h.1.frame hf hl, ?_⟩
    rw [hf.clone]
    exact h.2
  | changed source =>
    refine ⟨h.1.frame hf hl, ?_⟩
    rw [hf.clone]
    exact h.2
  | clean source =>
    refine ⟨⟨h.1.1.frame hf hl, ?_⟩, ?_⟩
    · rw [hf.clone]
      exact h.1.2
    · rw [State.dirty, hf.clone, hf.head]
      exact h.2
  | read source text =>
    refine ⟨⟨h.1.1.frame hf hl, ?_⟩, ?_⟩
    · rw [hf.clone]
      exact h.1.2
    · rw [hf.sending]
      exact h.2
  | committed =>
    intro e he
    rw [entriesOf_congr (show s'.file .sending = s.file .sending from hf.sending)] at he
    exact (h e he).mono (by rw [hf.commits]; exact List.Subset.refl _)
      (by rw [hf.cleared]; exact List.Subset.refl _)
  | _ => trivial

/-! ### The steps of a sync -/

/-- A step that leaves the database, the commits and what was cleared alone, and loses no entry of
a file that is not covered. -/
theorem Tracked.journal {s s' : State} (h : Tracked s) (hw : Whole s')
    (hfrom : ∀ file, ∀ d ∈ s'.entriesOf file, ∃ file', d ∈ s.entriesOf file')
    (hkept : ∀ file (e : JournalEntry), e.toDoc ∈ s.entriesOf file →
      Covered s e ∨ ∃ file', e.toDoc ∈ s'.entriesOf file')
    (ha : s'.appended = s.appended) (hc : s'.commits = s.commits) (hcl : s'.cleared = s.cleared)
    (hf : WriteFrame s s') (hh : s'.head = s.head) : Tracked s' := by
  have hcovered : ∀ {e}, Covered s e → Covered s' e := fun hcov =>
    hcov.mono (by rw [hc]; exact List.Subset.refl _) (by rw [hcl]; exact List.Subset.refl _)
  refine ⟨⟨?_, ?_, fun e he => ?_, ?_⟩, hw, fun file d hd => ?_, ?_, ?_, ?_, fun r hr => ?_⟩
  · rw [hc]; exact h.named
  · rw [hc]; exact h.committed
  · rw [ha] at he
    rcases h.entries e he with hcov | ⟨file, hfile⟩
    · exact .inl (hcovered hcov)
    · exact (hkept file e hfile).imp_left hcovered
  · rw [hcl]; exact h.cleared
  · obtain ⟨file', hd'⟩ := hfrom file d hd
    rw [ha]
    exact h.fromAppended file' d hd'
  · rw [ha, hf.revision]; exact h.known
  · rw [hf.files, hf.revision]; exact h.written
  · rw [hf.publishing, hf.healthy, hf.files, ha]; exact h.delivered
  · rw [SyncedAt, hc, hcl] at hr
    rw [hf.files, hf.revision, hh]
    exact h.synced r hr

/-- A step that leaves all of it alone. -/
theorem Tracked.same {s s' : State} (h : Tracked s) (hp : s'.pending = s.pending)
    (hs : s'.sending = s.sending) (ha : s'.appended = s.appended) (hc : s'.commits = s.commits)
    (hcl : s'.cleared = s.cleared) (hf : WriteFrame s s') (hh : s'.head = s.head) : Tracked s' := by
  have hfile : ∀ file, s'.file file = s.file file := by
    intro file
    cases file with
    | pending => exact hp
    | sending => exact hs
  refine h.journal (fun file => by rw [hfile]; exact h.whole file) (fun file d hd => ⟨file, ?_⟩)
    (fun file e he => .inr ⟨file, ?_⟩) ha hc hcl hf hh
  · rw [← entriesOf_congr (hfile file)]
    exact hd
  · rw [entriesOf_congr (hfile file)]
    exact he

/-- `sending.jsonl` may go once its entries are covered. -/
theorem Tracked.removeSending {s s' : State} (h : Tracked s) (hp : s'.pending = s.pending)
    (hs : s'.sending = none) (hcov : ∀ e : JournalEntry, e.toDoc ∈ s.entriesOf .sending → Covered s e)
    (ha : s'.appended = s.appended) (hc : s'.commits = s.commits) (hcl : s'.cleared = s.cleared)
    (hf : WriteFrame s s') (hh : s'.head = s.head) : Tracked s' := by
  have hpending : s'.entriesOf .pending = s.entriesOf .pending := entriesOf_congr hp
  have hsending : s'.entriesOf .sending = [] := entriesOf_none hs
  refine h.journal (fun file => ?_) (fun file d hd => ⟨.pending, ?_⟩) (fun file e he => ?_) ha hc hcl
    hf hh
  · cases file with
    | pending => rw [show s'.file .pending = s.file .pending from hp]; exact h.whole .pending
    | sending => exact ⟨[], by rw [show s'.file .sending = none from hs]; rfl⟩
  · cases file with
    | pending => rw [← hpending]; exact hd
    | sending => rw [hsending] at hd; cases hd
  · cases file with
    | pending => exact .inr ⟨.pending, by rw [hpending]; exact he⟩
    | sending => exact .inl (hcov e he)

/-- A rotation, when `sending.jsonl` is absent: `pending.jsonl` takes its place, or nothing. -/
theorem Tracked.rotatePending {s : State} (h : Tracked s) (hn : s.sending = none) :
    Tracked s.rotatePending := by
  have hempty : s.entriesOf .sending = [] := entriesOf_none hn
  refine h.journal (fun file => ?_) (fun file d hd => ⟨.pending, ?_⟩) (fun file e he => .inr ?_)
    rfl rfl rfl ⟨rfl, rfl, rfl, rfl⟩ rfl
  · cases file with
    | pending => exact ⟨[], rfl⟩
    | sending => exact h.whole .pending
  · cases file with
    | pending => rw [entriesOf_none rfl] at hd; cases hd
    | sending => exact hd
  · cases file with
    | pending => exact ⟨.sending, he⟩
    | sending => rw [hempty] at he; cases he

theorem Tracked.createSending {s : State} (h : Tracked s) (hn : s.sending = none) :
    Tracked s.createSending := by
  have hempty : s.entriesOf .sending = [] := entriesOf_none hn
  have hcreated : s.createSending.entriesOf .sending = [] := @entriesOf_eq _ _ [] rfl
  refine h.journal (fun file => ?_) (fun file d hd => ⟨.pending, ?_⟩) (fun file e he => .inr ?_)
    rfl rfl rfl ⟨rfl, rfl, rfl, rfl⟩ rfl
  · cases file with
    | pending => exact h.whole .pending
    | sending => exact ⟨[], rfl⟩
  · cases file with
    | pending => exact hd
    | sending => rw [hcreated] at hd; cases hd
  · cases file with
    | pending => exact ⟨.pending, he⟩
    | sending => rw [hempty] at he; cases he

/-- What a snapshot finds when `pending.jsonl` holds nothing: what is not committed yet has its
entry in `sending.jsonl`. -/
theorem Tracked.took {s : State} (h : Tracked s) (hfree : s.publishing = false)
    (hhealthy : s.healthy = true) (hnothing : s.entriesOf .pending = []) :
    Took s.files { s with source := s.files, taken := s.revision } := by
  refine ⟨rfl, fun path v e hv he => ?_, fun _ _ _ hv _ _ => hv, fun e he => ?_,
    fun r hr => (h.synced r hr).1, Nat.le_refl _⟩
  · rcases h.entries e (h.delivered hfree hhealthy path v e hv he) with hcov | ⟨file, hfile⟩
    · obtain ⟨r, hr, hw⟩ := hcov.syncedAt
      exact .inr ((h.synced r hr).2 path v e hv he hw)
    · cases file with
      | pending => rw [hnothing] at hfile; cases hfile
      | sending => exact .inl hfile
  · obtain ⟨e', he', heq⟩ := h.fromAppended .sending _ he
    rw [JournalEntry.toDoc_injective heq]
    exact h.known e' he'

/-- The clone changes under a sync that has taken its snapshot. -/
theorem Took.clone {source : Files} {s : State} (h : Took source s) (clone : Files) :
    Took source { s with clone } :=
  ⟨h.found, h.sent, h.holds, h.earlier, h.later, h.taken⟩

theorem contentAt_of_lookup {files : Files} {path : String} {v : FileVersion}
    (h : files.lookup path = some v) : contentAt files path = some v.content := by
  rw [contentAt, h, Option.map_some]

/-- A commit of the mirrored snapshot names every version that is new in it. -/
theorem Tracked.commit {source : Files} {s : State} (h : Tracked s) (ht : Took source s)
    (hm : Mirrors s.clone source) {message : String}
    (hnames : ∀ e : JournalEntry, e.toDoc ∈ s.entriesOf .sending → Names message e) :
    Tracked (s.commit message) := by
  have hcovered : ∀ {e}, Covered s e → Covered (s.commit message) e := fun hcov =>
    hcov.mono (List.subset_cons_self _ _) (List.Subset.refl _)
  refine ⟨⟨fun c hc => ?_, fun c hc => ?_, fun e he => ?_, h.cleared⟩, h.whole, h.fromAppended,
    h.known, h.written, h.delivered, fun r hr => ?_⟩
  · obtain rfl | hc := List.mem_cons.1 hc
    · intro path v e hv he hnew
      dsimp only at hv hnew ⊢
      rw [hm path] at hv
      exact hnames e ((ht.sent path v e hv he).resolve_right hnew)
    · exact h.named c hc
  · obtain rfl | hc := List.mem_cons.1 hc
    · intro path
      rw [hm path, ht.found]
    · exact h.committed c hc
  · exact (h.entries e he).imp_left hcovered
  · have hr' : r ≤ s.taken := by
      rcases hr with ⟨c, hc, rfl⟩ | ⟨cl, hcl, rfl⟩
      · obtain rfl | hc := List.mem_cons.1 hc
        · exact Nat.le_refl _
        · exact ht.later _ (.inl ⟨c, hc, rfl⟩)
      · exact ht.later _ (.inr ⟨cl, hcl, rfl⟩)
    refine ⟨Nat.le_trans hr' ht.taken, fun path v e hv he hw => ?_⟩
    have hsource := ht.holds path v e hv he (hw.mono hr')
    rw [← hm path] at hsource
    exact contentAt_of_lookup hsource

/-- A sync that finds no difference covers what it discards. -/
theorem Tracked.discardClean {source : Files} {s : State} (h : Tracked s) (ht : Took source s)
    (hm : Mirrors s.clone source) (hd : s.dirty = false) :
    Tracked (s.removeFile .sending .clean) := by
  have hsame := sameContents_of_clean hd
  have hpending : (s.removeFile .sending .clean).entriesOf .pending = s.entriesOf .pending :=
    entriesOf_congr rfl
  have hsending : (s.removeFile .sending .clean).entriesOf .sending = [] := entriesOf_none rfl
  refine ⟨⟨h.named, h.committed, fun e he => ?_, fun cl hcl => ?_⟩, fun file => ?_,
    fun file d hd => ?_, h.known, h.written, h.delivered, fun r hr => ?_⟩
  · rcases h.entries e he with hcov | ⟨file, hfile⟩
    · exact .inl (hcov.mono (List.Subset.refl _) (List.subset_cons_self _ _))
    · cases file with
      | pending => exact .inr ⟨.pending, by rw [hpending]; exact hfile⟩
      | sending => exact .inl (.inr ⟨_, List.mem_cons_self, ht.earlier e hfile, hfile⟩)
  · obtain rfl | hcl := List.mem_cons.1 hcl
    · refine ⟨fun path => ?_, hsame⟩
      rw [hm path, ht.found]
    · exact h.cleared cl hcl
  · cases file with
    | pending => exact h.whole .pending
    | sending => exact ⟨[], rfl⟩
  · cases file with
    | pending => rw [hpending] at hd; exact h.fromAppended .pending d hd
    | sending => rw [hsending] at hd; cases hd
  · have hr' : r ≤ s.taken := by
      rcases hr with ⟨c, hc, rfl⟩ | ⟨cl, hcl, rfl⟩
      · exact ht.later _ (.inl ⟨c, hc, rfl⟩)
      · obtain rfl | hcl := List.mem_cons.1 hcl
        · exact Nat.le_refl _
        · exact ht.later _ (.inr ⟨cl, hcl, rfl⟩)
    refine ⟨Nat.le_trans hr' ht.taken, fun path v e hv he hw => ?_⟩
    have hsource := ht.holds path v e hv he (hw.mono hr')
    rw [← hm path] at hsource
    exact (hsame path).symm.trans (contentAt_of_lookup hsource)

theorem tracked_step {σ σ' : Stage} {o : Op} {a : o.Res} {s s' : State} (h : Tracked s)
    (hk : tracksAt σ s) (hn : Next σ o a σ') (hmay : nothingBetween o s (.ok a))
    (hs : o.answers s a s') : Tracked s' ∧ Later s s' ∧ tracksAt σ' s' := by
  cases hn with
  | mkdir => obtain rfl := hs; exact ⟨h, .refl s', trivial⟩
  | remove =>
    obtain rfl := hs
    exact ⟨h.removeSending rfl rfl hmay rfl rfl rfl ⟨rfl, rfl, rfl, rfl⟩ rfl,
      later_of_eq rfl rfl rfl, rfl⟩
  | rename =>
    obtain ⟨-, rfl⟩ := hs
    exact ⟨h.rotatePending hk, later_of_eq rfl rfl rfl, trivial⟩
  | create => obtain rfl := hs; exact ⟨h.createSending hk, later_of_eq rfl rfl rfl, trivial⟩
  | snapshot source =>
    obtain ⟨hfree, hhealthy, rfl, rfl⟩ := hs
    exact ⟨h.same rfl rfl rfl rfl rfl ⟨rfl, rfl, rfl, rfl⟩ rfl, later_of_eq rfl rfl rfl,
      h.took hfree hhealthy hmay⟩
  | mkdirClone source => obtain rfl := hs; exact ⟨h, .refl s', hk⟩
  | collect source previous =>
    obtain ⟨rfl, rfl⟩ := hs
    refine ⟨h, .refl s', hk, fun path hpath => ?_⟩
    by_cases hmem : path ∈ source.keys
    · exact .inl hmem
    · exact .inr (List.mem_filter.2 ⟨hpath, by simpa using hmem⟩)
  | removeFile source file todo =>
    obtain rfl := hs
    refine ⟨h.same rfl rfl rfl rfl rfl ⟨rfl, rfl, rfl, rfl⟩ rfl, later_of_eq rfl rfl rfl,
      hk.1.clone _, fun path hpath => ?_⟩
    obtain ⟨hne, hmem⟩ := AList.mem_erase.1 (AList.mem_keys.2 hpath)
    exact (hk.2 path (AList.mem_keys.1 hmem)).imp_right fun ht =>
      (List.mem_cons.1 ht).resolve_left hne
  | writeFile source file version todo =>
    obtain rfl := hs
    have hlookup := hk.2.2.1 _ List.mem_cons_self
    refine ⟨h.same rfl rfl rfl rfl rfl ⟨rfl, rfl, rfl, rfl⟩ rfl, later_of_eq rfl rfl rfl,
      hk.1.clone _, fun path hpath => ?_, fun x hx => hk.2.2.1 x (List.mem_cons_of_mem _ hx),
      fun path hpath => ?_⟩
    · rcases (AList.mem_insert _).1 (AList.mem_keys.2 hpath) with rfl | hmem
      · exact AList.mem_keys.1 (AList.lookup_isSome.1 (by rw [hlookup]; rfl))
      · exact hk.2.1 path (AList.mem_keys.1 hmem)
    · by_cases hpf : path = file
      · subst hpf
        exact .inr ((AList.lookup_insert _).trans hlookup.symm)
      · refine (hk.2.2.2 path hpath).imp (fun ht => (List.mem_cons.1 ht).resolve_left hpf) fun ht => ?_
        exact (AList.lookup_insert_ne hpf).trans ht
  | unchanged source => obtain ⟨hd, rfl⟩ := hs; exact ⟨h, .refl s', hk, hd.symm⟩
  | differs source => obtain ⟨-, rfl⟩ := hs; exact ⟨h, .refl s', hk⟩
  | discardClean source =>
    obtain rfl := hs
    exact ⟨h.discardClean hk.1.1 hk.1.2 hk.2, later_of_eq rfl rfl rfl, trivial⟩
  | read source text =>
    obtain ⟨ht, rfl⟩ := hs
    refine ⟨h, .refl s', hk, ?_⟩
    rw [show s'.sending = some text from ht, Option.getD_some]
  | commit source files sha hdocs =>
    obtain ⟨-, rfl⟩ := hs
    refine ⟨h.commit hk.1.1 hk.1.2 fun e he => settled_by_commit hk.2 hdocs he,
      later_of_eq rfl rfl rfl, fun e he => .inl ⟨⟨_, s.head, s.clone, s.source, s.taken⟩,
        List.mem_cons_self, ?_, ?_⟩⟩
    · rw [entriesOf_commit] at he
      exact hk.1.1.earlier e he
    · rw [entriesOf_commit] at he
      dsimp only
      exact settled_by_commit hk.2 hdocs he
  | discardCommitted =>
    obtain rfl := hs
    exact ⟨h.removeSending rfl rfl hk rfl rfl rfl ⟨rfl, rfl, rfl, rfl⟩ rfl,
      later_of_eq rfl rfl rfl, trivial⟩
  | push r => obtain rfl := hs; exact ⟨h, .refl s', trivial⟩

/-- Nothing that is gone from the database is left to remove, and everything in it is to be
written. -/
theorem removed_all {source : Files} {s : State} (h : tracksAt (.removing source []) s) :
    tracksAt (.writing source source.entries) s :=
  ⟨h.1, fun path hpath => (h.2 path hpath).resolve_right List.not_mem_nil,
    fun _ hx => AList.mem_lookup_iff.2 hx, fun _ hpath => .inl hpath⟩

theorem written_all {source : Files} {s : State} (h : tracksAt (.writing source []) s) :
    tracksAt (.mirrored source) s := by
  refine ⟨h.1, fun path => ?_⟩
  by_cases hmem : path ∈ source.keys
  · exact (h.2.2.2 path hmem).resolve_left List.not_mem_nil
  · have hs : source.lookup path = none := AList.lookup_eq_none.2 hmem
    have hc : s.clone.lookup path = none := AList.lookup_eq_none.2 fun hpath => hmem (h.2.1 path hpath)
    rw [hs, hc]

/-! ### Publications and deliveries -/

/-- A file of a transaction's result is an old one or the text of a change. -/
theorem lookup_apply {revision : Nat} {changes : List Change} {files : Files} {path : String}
    {v : FileVersion} (h : (changes.foldl (Change.apply revision) files).lookup path = some v) :
    files.lookup path = some v ∨ ∃ c ∈ changes, v.writtenBy = some (c.entry revision) := by
  induction changes generalizing files with
  | nil => exact .inl h
  | cons c changes ih =>
    rcases ih h with hc | ⟨c', hmem, hv⟩
    · rw [Change.apply] at hc
      split at hc
      · by_cases hp : path = c.path
        · subst hp
          rw [AList.lookup_insert] at hc
          cases hc
          exact .inr ⟨c, List.mem_cons_self, rfl⟩
        · rw [AList.lookup_insert_ne hp] at hc
          exact .inl hc
      · by_cases hp : path = c.path
        · subst hp
          rw [AList.lookup_erase] at hc
          cases hc
        · rw [AList.lookup_erase_ne hp] at hc
          exact .inl hc
    · exact .inr ⟨c', List.mem_cons_of_mem _ hmem, hv⟩

/-- What a writer knows of the entries it still has to append. -/
structure Wrote (todo : List JournalEntry) (s : State) : Prop where
  delivered : ∀ path v e, s.files.lookup path = some v → v.writtenBy = some e →
    e ∈ s.appended ∨ e ∈ todo
  known : ∀ e ∈ todo, WrittenBy e s.revision

theorem Wrote.frame {todo : List JournalEntry} {s s' : State} (h : Wrote todo s)
    (hf : WriteFrame s s') (hl : Later s s') : Wrote todo s' := by
  refine ⟨fun path v e hv he => ?_, fun e he => ?_⟩
  · rw [hf.files] at hv
    exact (h.delivered path v e hv he).imp_left fun ha => hl.appended ha
  · rw [hf.revision]
    exact h.known e he

theorem writtenBy_entry (c : Change) (revision : Nat) : WrittenBy (c.entry revision) revision :=
  ⟨revision, rfl, Nat.le_refl _⟩

theorem Tracked.publish {s : State} {changes : List Change} (h : Tracked s)
    (hfree : s.publishing = false) (hhealthy : s.healthy = true) :
    Tracked (s.publish changes) ∧ Later s (s.publish changes) ∧
      Wrote ((s.changed changes).map (·.entry (s.revision + 1))) (s.publish changes) := by
  have hfiles : ∀ path v e, (s.publish changes).files.lookup path = some v → v.writtenBy = some e →
      s.files.lookup path = some v ∨
        ∃ c ∈ s.changed changes, e = c.entry (s.revision + 1) := by
    intro path v e hv he
    refine (lookup_apply hv).imp_right fun ⟨c, hc, hcv⟩ => ⟨c, hc, ?_⟩
    exact Option.some.inj (he.symm.trans hcv)
  have hgrows : s.revision ≤ (s.publish changes).revision := Nat.le_succ _
  refine ⟨⟨⟨h.named, h.committed, h.entries, h.cleared⟩, h.whole, h.fromAppended,
    fun e he => (h.known e he).mono hgrows, fun path v e hv he => ?_, fun hf => (nomatch hf),
    fun r hr => ⟨Nat.le_trans (h.synced r hr).1 hgrows, fun path v e hv he hw => ?_⟩⟩,
    ⟨hgrows, List.Subset.refl _, fun path v e hv he => ?_⟩, ⟨fun path v e hv he => ?_, ?_⟩⟩
  · rcases hfiles path v e hv he with hv | ⟨c, -, rfl⟩
    · exact (h.written path v e hv he).mono hgrows
    · exact writtenBy_entry c _
  · rcases hfiles path v e hv he with hv | ⟨c, -, rfl⟩
    · exact (h.synced r hr).2 path v e hv he hw
    · exact (not_writtenBy rfl (Nat.lt_succ_of_le (h.synced r hr).1) hw).elim
  · refine (hfiles path v e hv he).imp_right ?_
    rintro ⟨c, -, rfl⟩
    exact ⟨s.revision + 1, rfl, Nat.lt_succ_self _⟩
  · rcases hfiles path v e hv he with hv | ⟨c, hc, rfl⟩
    · exact .inl (h.delivered hfree hhealthy path v e hv he)
    · exact .inr (List.mem_map_of_mem hc)
  · intro e he
    obtain ⟨c, -, rfl⟩ := List.mem_map.1 he
    exact writtenBy_entry c _

theorem Tracked.deliver {s : State} {e : JournalEntry} {todo : List JournalEntry} (h : Tracked s)
    (hw : Wrote (e :: todo) s) :
    Tracked (s.append e) ∧ Later s (s.append e) ∧ Wrote todo (s.append e) := by
  have hpending := entriesOf_append h.whole e
  have hsending : (s.append e).entriesOf .sending = s.entriesOf .sending := entriesOf_congr rfl
  refine ⟨⟨⟨h.named, h.committed, fun e' he' => ?_, h.cleared⟩, whole_append h.whole e,
    fun file d hd => ?_, fun e' he' => ?_, h.written,
    fun hf hh path v e' hv he' => List.mem_cons_of_mem _ (h.delivered hf hh path v e' hv he'), h.synced⟩,
    ⟨Nat.le_refl _, List.subset_cons_self _ _, fun _ _ _ hv _ => .inl hv⟩,
    ⟨fun path v e' hv he' => ?_, fun e' he' => hw.known e' (List.mem_cons_of_mem _ he')⟩⟩
  · obtain rfl | he' := List.mem_cons.1 he'
    · exact .inr ⟨.pending, by rw [hpending]; exact List.mem_append_right _ List.mem_cons_self⟩
    · rcases h.entries e' he' with hcov | ⟨file, hfile⟩
      · exact .inl (hcov.mono (List.Subset.refl _) (List.Subset.refl _))
      · cases file with
        | pending => exact .inr ⟨.pending, by rw [hpending]; exact List.mem_append_left _ hfile⟩
        | sending => exact .inr ⟨.sending, by rw [hsending]; exact hfile⟩
  · have hold : ∀ {file' : JournalFile}, d ∈ s.entriesOf file' →
        ∃ e' ∈ (s.append e).appended, d = e'.toDoc := fun hd =>
      let ⟨e', he', heq⟩ := h.fromAppended _ d hd
      ⟨e', List.mem_cons_of_mem _ he', heq⟩
    cases file with
    | sending => rw [hsending] at hd; exact hold hd
    | pending =>
      rw [hpending] at hd
      rcases List.mem_append.1 hd with hd | hd
      · exact hold hd
      · exact ⟨e, List.mem_cons_self, List.mem_singleton.1 hd⟩
  · obtain rfl | he' := List.mem_cons.1 he'
    · exact hw.known _ List.mem_cons_self
    · exact h.known e' he'
  · rcases hw.delivered path v e' hv he' with ha | ht
    · exact .inl (List.mem_cons_of_mem _ ha)
    · obtain rfl | ht := List.mem_cons.1 ht
      · exact .inl List.mem_cons_self
      · exact .inr ht

/-- The account of commit messages: writes and syncs, any step of which may fail. -/
def commitMessages : Account nothingBetween writesAndSyncs False where
  I := Tracked
  R := Later
  at_ := tracksAt
  wrote := Wrote
  R_refl := .refl
  R_trans := .trans
  at_frame h hf hl _ := tracksAt_frame h hf hl
  wrote_frame h hf hl _ := h.frame hf hl
  bookkeeping _ _ _ h := ⟨h.same rfl rfl rfl rfl rfl ⟨rfl, rfl, rfl, rfl⟩ rfl, later_of_eq rfl rfl rfl⟩
  started _ := trivial
  step h hk hn hmay hs := tracked_step h hk hn hmay hs
  removed_all := removed_all
  written_all := written_all
  absent h hn := ⟨h, by rw [hn]; rfl⟩
  commitFails _ h hk hdocs :=
    ⟨h.commit hk.1.1 hk.1.2 fun _ he => settled_by_commit hk.2 hdocs he, later_of_eq rfl rfl rfl⟩
  publish h hfree hhealthy _ := h.publish hfree hhealthy
  deliver h hw := h.deliver hw
  published h hw := by
    refine ⟨⟨⟨h.named, h.committed, h.entries, h.cleared⟩, h.whole, h.fromAppended, h.known, h.written,
      fun _ _ path v e hv he => ?_, h.synced⟩, later_of_eq rfl rfl rfl⟩
    exact (hw.delivered path v e hv he).resolve_right List.not_mem_nil
  failed _ h := ⟨⟨⟨h.named, h.committed, h.entries, h.cleared⟩, h.whole, h.fromAppended, h.known,
    h.written, fun _ hh => (nomatch hh), h.synced⟩, later_of_eq rfl rfl rfl⟩
  append h := h.elim
  merge h := h.elim
  restart h := h.elim

theorem started_tracked {s : State} (h : Started s) :
    Tracked s ∧ s.running = none ∧ s.publishing = false := by
  have hempty : ∀ file, s.file file = none := by
    intro file
    cases file with
    | pending => exact h.pending
    | sending => exact h.sending
  have hnever : ∀ {path v e}, s.files.lookup path = some v → ¬ v.writtenBy = some e := by
    intro path v e hv he
    rw [h.bootstrapped path v hv] at he
    cases he
  refine ⟨⟨⟨?_, ?_, fun e he => ?_, ?_⟩, fun file => ⟨[], ?_⟩, fun file d hd => ?_, fun e he => ?_,
    fun path v e hv he => (hnever hv he).elim, fun _ _ path v e hv he => (hnever hv he).elim, ?_⟩,
    h.running, h.publishing⟩
  · rw [h.commits]; exact fun _ hc => nomatch hc
  · rw [h.commits]; exact fun _ hc => nomatch hc
  · rw [h.appended] at he; cases he
  · rw [h.cleared]; exact fun _ hc => nomatch hc
  · rw [hempty]; rfl
  · rw [entriesOf_none (hempty file)] at hd; cases hd
  · rw [h.appended] at he; cases he
  · rintro r (⟨c, hc, -⟩ | ⟨cl, hcl, -⟩)
    · rw [h.commits] at hc; cases hc
    · rw [h.cleared] at hcl; cases hcl

/-! ### Runs -/

/-- `nothingBetween` where a rotation finds nothing to rotate over. -/
def nothingWaits (o : Op) (s : State) (_ : Except Error o.Res) : Bool :=
  match o with
  | .remove _ .rotated => (s.entriesOf .sending).isEmpty
  | .snapshot => (s.entriesOf .pending).isEmpty
  | _ => true

theorem nothingBetween_of_waits (o : Op) (s : State) (r : Except Error o.Res)
    (h : nothingWaits o s r = true) : nothingBetween o s r := by
  cases o with
  | remove file why =>
    cases why with
    | rotated =>
      cases r with
      | error e => trivial
      | ok a =>
        intro e he
        rw [List.isEmpty_iff.1 h] at he
        cases he
    | _ => trivial
  | snapshot =>
    cases r with
    | error e => trivial
    | ok a => exact List.isEmpty_iff.1 h
  | _ => trivial

def isWriteOrSync : Request → Bool
  | .write _ | .sync | .peek => true
  | _ => false

theorem writesAndSyncs_of_is (c : Request) (h : isWriteOrSync c = true) : writesAndSyncs c := by
  cases c with
  | append e => cases h
  | boot => cases h
  | _ => trivial

def grantOwner : Change := ⟨"services.yaml", some "owner: b\n", some "b", ["owner"], "t2"⟩

/-- Two writes, each synced before the next. -/
def syncedInTurn : Pool lang Request Unit :=
  (serviceDriver nothingWaits isWriteOrSync false).drive ⟨{}, []⟩
    (requestAlone 0 4 (.write [enableFlag]) ++ requestAlone 1 12 .sync ++
      requestAlone 2 4 (.write [grantOwner]) ++ requestAlone 3 13 .sync)

/-- A write that lands after a sync has rotated the journal and before it takes its snapshot. -/
def landsBetween : Pool lang Request Unit :=
  (serviceDriver (fun _ _ _ => true) isWriteOrSync false).drive ⟨{}, []⟩
    (requestAlone 0 4 (.write [enableFlag]) ++ requestAlone 1 3 .sync ++
      requestAlone 2 4 (.write [grantOwner]) ++ List.replicate 10 (.run 1 true))

/-- **A commit names who changed it** in the runs that meet the condition, whatever step of a write
or a sync fails: a version that first appears in a commit is named in its message, and no entry
leaves the journal before a commit that contains its write names it, or a sync finds that the write
has left no difference. -/
theorem commits_name_their_writers {p : Pool lang Request Unit}
    (h : Reach (service nothingBetween writesAndSyncs False) Started p) : Attributed p.state :=
  (commitMessages.holds (fun _ => started_tracked) h).toAttributed

theorem empty_started : Started {} where
  pending := rfl
  sending := rfl
  appended := rfl
  cleared := rfl
  running := rfl
  publishing := rfl
  commits := rfl
  bootstrapped _ _ h := nomatch h

theorem commits_name_their_writers_in_turn : Attributed syncedInTurn.state ∧
    syncedInTurn.state.appended.length = 2 ∧ syncedInTurn.state.commits.length = 2 :=
  ⟨commits_name_their_writers (Driver.drive_reach (serviceDriver_follows nothingBetween_of_waits
    writesAndSyncs_of_is nofun) empty_started _), by decide +kernel, by decide +kernel⟩

/-- A line of a text is a part of it. -/
theorem infix_of_mem {line : String} {lines : List String} (h : line ∈ lines) :
    line.toList <:+: ("\n".intercalate lines).toList := by
  induction lines with
  | nil => cases h
  | cons first lines ih =>
    cases lines with
    | nil =>
      have hline : "\n".intercalate [first] = line := by
        rw [String.intercalate_singleton, List.mem_singleton.1 h]
      exact (congrArg String.toList hline) ▸ List.infix_refl _
    | cons second lines =>
      rw [String.intercalate_cons_cons, String.toList_append, String.toList_append]
      obtain rfl | h := List.mem_cons.1 h
      · exact (List.prefix_append _ _).isInfix.trans (List.prefix_append _ _).isInfix
      · exact (ih h).trans (List.suffix_append _ _).isInfix

/-- The write is committed under the name of another. -/
theorem write_between_is_not_named :
    ¬ ∀ p, Reach (service (fun _ _ _ => True) writesAndSyncs False) Started p →
      Attributed p.state := by
  intro h
  have hattributed : Attributed landsBetween.state :=
    h _ (Driver.drive_reach (serviceDriver_follows (fun _ _ _ _ => trivial) writesAndSyncs_of_is
      nofun) empty_started _)
  have hlength : landsBetween.state.commits.length = 1 := by decide +kernel
  have hcommit : ∀ c ∈ landsBetween.state.commits,
      c.tree.lookup "services.yaml" = some ⟨"owner: b\n", some (grantOwner.entry 2)⟩ ∧
      contentAt c.parent "services.yaml" = none ∧
      ¬ "Actor: b".toList <:+: c.message.toList := by decide +kernel
  obtain ⟨c, hc⟩ := List.exists_mem_of_length_pos (hlength ▸ Nat.one_pos)
  obtain ⟨hv, hnew, hmessage⟩ := hcommit c hc
  obtain ⟨lines, hlines, hactor, -⟩ :=
    hattributed.named c hc _ _ _ hv rfl (by rw [hnew]; nofun)
  rw [hlines] at hmessage
  exact hmessage (infix_of_mem hactor)

end ConfigRegistry.Backup
