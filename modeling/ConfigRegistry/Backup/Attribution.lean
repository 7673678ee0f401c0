import ConfigRegistry.Backup.Coordination

/-!
# Attribution

Every entry that was appended to the journal is still in one of its files, or in the message of a
commit, or was discarded by a sync that found nothing to commit, as long as no rotation discards
entries that an earlier sync could not commit.
-/

namespace ConfigRegistry.Backup

open Js Json Async

/-- The trees hold the same texts at the same paths. -/
def SameContents (a b : Files) : Prop := ∀ path, contentAt a path = contentAt b path

/-- A commit names the entry, or a sync that found no difference discarded it. -/
def Settled (s : State) (e : JournalEntry) : Prop :=
  (∃ c ∈ s.commits, Names c.message e) ∨ ∃ cl ∈ s.cleared, e.toDoc ∈ cl.entries

/-- No appended entry is lost. -/
structure Accounted (s : State) : Prop where
  entries : ∀ e ∈ s.appended, Settled s e ∨ ∃ file, e.toDoc ∈ s.entriesOf file
  cleared : ∀ cl ∈ s.cleared, SameContents cl.tree cl.head

/-- The condition: a rotation removes `sending.jsonl` only when all its entries are settled. -/
def rotatesSettled : (o : Op) → State → Except Error o.Res → Prop
  | .remove _ .rotated, s, .ok _ => ∀ e : JournalEntry, e.toDoc ∈ s.entriesOf .sending → Settled s e
  | _, _, _ => True

/-- A service whose journal has not been written yet. -/
structure Unwritten (s : State) : Prop where
  pending : s.pending = none
  sending : s.sending = none
  appended : s.appended = []
  cleared : s.cleared = []
  running : s.running = none
  publishing : s.publishing = false

theorem sameContents_of_clean {s : State} (h : s.dirty = false) : SameContents s.clone s.head := by
  intro path
  by_cases hmem : path ∈ s.clone.keys ++ s.head.keys
  · have := List.any_eq_false.1 h path hmem
    simpa using this
  · rw [List.mem_append, not_or] at hmem
    have hc : s.clone.lookup path = none := AList.lookup_eq_none.2 hmem.1
    have hh : s.head.lookup path = none := AList.lookup_eq_none.2 hmem.2
    rw [contentAt, contentAt, hc, hh]

/-! ### What the files hold -/

/-- Both files are whole lines. -/
def Whole (s : State) : Prop := ∀ file, ∃ vs, (s.file file).getD [] = lines vs

theorem entriesOf_eq {s : State} {file : JournalFile} {vs : List Doc}
    (h : (s.file file).getD [] = lines vs) : s.entriesOf file = vs := by
  rw [State.entriesOf, h, parseLines_lines, Option.getD_some]

/-- The entries of a file are those of its text. -/
theorem Whole.text_eq {s : State} (h : Whole s) (file : JournalFile) :
    (s.file file).getD [] = lines (s.entriesOf file) := by
  obtain ⟨vs, hv⟩ := h file
  rw [hv, entriesOf_eq hv]

theorem entriesOf_congr {s s' : State} {file : JournalFile} (h : s'.file file = s.file file) :
    s'.entriesOf file = s.entriesOf file := by
  rw [State.entriesOf, State.entriesOf, h]

theorem entriesOf_commit (s : State) (message : String) (file : JournalFile) :
    (s.commit message).entriesOf file = s.entriesOf file := by
  refine entriesOf_congr ?_
  cases file <;> rfl

theorem entriesOf_none {s : State} {file : JournalFile} (h : s.file file = none) :
    s.entriesOf file = [] := entriesOf_eq (by rw [h]; rfl)

theorem entriesOf_append {s : State} (h : Whole s) (e : JournalEntry) :
    (s.append e).entriesOf .pending = s.entriesOf .pending ++ [e.toDoc] := by
  refine entriesOf_eq ?_
  show s.pending.getD [] ++ e.line = _
  rw [show s.pending.getD [] = _ from h.text_eq .pending, lines_append, lines_cons, lines_nil,
    List.append_nil]

theorem whole_append {s : State} (h : Whole s) (e : JournalEntry) : Whole (s.append e) := by
  intro file
  cases file with
  | pending =>
    refine ⟨s.entriesOf .pending ++ [e.toDoc], ?_⟩
    show s.pending.getD [] ++ e.line = _
    rw [show s.pending.getD [] = _ from h.text_eq .pending, lines_append, lines_cons, lines_nil,
      List.append_nil]
  | sending => exact h .sending

/-! ### The account -/

/-- What the service keeps of attribution. -/
structure Kept (s : State) : Prop extends Accounted s where
  whole : Whole s

theorem Settled.mono {s s' : State} {e : JournalEntry} (h : Settled s e)
    (hc : s.commits ⊆ s'.commits) (hcl : s.cleared ⊆ s'.cleared) : Settled s' e :=
  h.imp (fun ⟨c, hmem, hn⟩ => ⟨c, hc hmem, hn⟩) fun ⟨cl, hmem, hn⟩ => ⟨cl, hcl hmem, hn⟩

/-- A step that loses no entry of a file but those that are settled after it. -/
theorem Kept.step {s s' : State} (h : Kept s) (hw : Whole s')
    (happended : ∀ e ∈ s'.appended, e ∈ s.appended ∨ ∃ file, e.toDoc ∈ s'.entriesOf file)
    (hc : s.commits ⊆ s'.commits) (hcl : s.cleared ⊆ s'.cleared)
    (hfiles : ∀ file (e : JournalEntry), e.toDoc ∈ s.entriesOf file →
      Settled s' e ∨ ∃ file', e.toDoc ∈ s'.entriesOf file')
    (hcleared : ∀ cl ∈ s'.cleared, SameContents cl.tree cl.head) : Kept s' := by
  refine ⟨⟨fun e he => ?_, hcleared⟩, hw⟩
  rcases happended e he with he | hfile
  · rcases h.entries e he with hs | ⟨file, hfile⟩
    · exact .inl (hs.mono hc hcl)
    · exact hfiles file e hfile
  · exact .inr hfile

/-- A step that leaves the journal and what is settled alone. -/
theorem Kept.same {s s' : State} (h : Kept s) (hp : s'.pending = s.pending)
    (hs : s'.sending = s.sending) (ha : s'.appended = s.appended) (hc : s'.commits = s.commits)
    (hcl : s'.cleared = s.cleared) : Kept s' := by
  have hfile : ∀ file, s'.file file = s.file file := by
    intro file
    cases file with
    | pending => exact hp
    | sending => exact hs
  refine h.step (fun file => by rw [hfile]; exact h.whole file) (fun e he => .inl (ha ▸ he))
    (by rw [hc]; exact List.Subset.refl _) (by rw [hcl]; exact List.Subset.refl _)
    (fun file e he => .inr ⟨file, ?_⟩) (fun cl hmem => h.cleared cl (hcl ▸ hmem))
  rw [entriesOf_congr (hfile file)]
  exact he

theorem Kept.append {s : State} (h : Kept s) (e : JournalEntry) : Kept (s.append e) := by
  refine h.step (whole_append h.whole e) (fun e' he => ?_) (List.Subset.refl _) (List.Subset.refl _)
    (fun file e' he => ?_) h.cleared
  · obtain rfl | he := List.mem_cons.1 he
    · refine .inr ⟨.pending, ?_⟩
      rw [entriesOf_append h.whole]
      exact List.mem_append_right _ List.mem_cons_self
    · exact .inl he
  · cases file with
    | sending => exact .inr ⟨.sending, he⟩
    | pending =>
      refine .inr ⟨.pending, ?_⟩
      rw [entriesOf_append h.whole]
      exact List.mem_append_left _ he

/-- `sending.jsonl` may go when all its entries are settled afterwards. -/
theorem Kept.removeSending {s : State} (h : Kept s) (why : Removal)
    (hs : ∀ e : JournalEntry, e.toDoc ∈ s.entriesOf .sending →
      Settled (s.removeFile .sending why) e ∨
        e.toDoc ∈ (s.removeFile .sending why).entriesOf .pending)
    (hclean : why = .clean → SameContents s.clone s.head) : Kept (s.removeFile .sending why) := by
  have hp : (s.removeFile .sending why).file .pending = s.file .pending := by cases why <;> rfl
  have hn : (s.removeFile .sending why).file .sending = none := by cases why <;> rfl
  refine h.step (fun file => ?_) (fun e he => ?_) ?_ ?_ (fun file e he => ?_) ?_
  · cases file with
    | pending => rw [hp]; exact h.whole .pending
    | sending => exact ⟨[], by rw [hn]; rfl⟩
  · cases why <;> exact .inl he
  · cases why <;> exact List.Subset.refl _
  · cases why with
    | clean => exact List.subset_cons_self _ _
    | _ => exact List.Subset.refl _
  · cases file with
    | pending =>
      refine .inr ⟨.pending, ?_⟩
      rw [entriesOf_congr hp]
      exact he
    | sending => exact (hs e he).imp_right fun hm => ⟨.pending, hm⟩
  · intro cl hmem
    cases why with
    | clean =>
      obtain rfl | hmem := List.mem_cons.1 hmem
      · exact hclean rfl
      · exact h.cleared cl hmem
    | _ => exact h.cleared cl hmem

/-- What a sync knows: that nothing is in `sending.jsonl` before the rename, what it has read, and
after the commit that all of it is settled. -/
def knowsAt : Stage → State → Prop
  | .removed, s => s.sending = none
  | .clean _, s => s.dirty = false
  | .read _ text, s => s.sending.getD [] = text
  | .committed, s => ∀ e : JournalEntry, e.toDoc ∈ s.entriesOf .sending → Settled s e
  | _, _ => True

theorem knowsAt_frame {σ : Stage} {s s' : State} (h : knowsAt σ s) (hf : SyncFrame s s') :
    knowsAt σ s' := by
  cases σ with
  | removed => exact hf.sending.trans h
  | clean source =>
    have hd : s'.dirty = s.dirty := by rw [State.dirty, State.dirty, hf.clone, hf.head]
    exact hd.trans h
  | read source text =>
    show s'.sending.getD [] = text
    rw [hf.sending]
    exact h
  | committed =>
    intro e he
    rw [entriesOf_congr (show s'.file .sending = s.file .sending from hf.sending)] at he
    exact (h e he).mono (by rw [hf.commits]; exact List.Subset.refl _)
      (by rw [hf.cleared]; exact List.Subset.refl _)
  | _ => trivial

/-- The entries a sync has read are named by the message it composes. -/
theorem settled_by_commit {s : State} {text : List Char} {docs : List Doc} {files : List String}
    (htext : s.sending.getD [] = text) (hdocs : parseLines text = some docs) {e : JournalEntry}
    (he : e.toDoc ∈ s.entriesOf .sending) :
    Names (composeCommitMessage files (docs.filterMap JournalEntry.ofDoc)) e := by
  have hentries : s.entriesOf .sending = docs := by
    show (parseLines (s.sending.getD [])).getD [] = docs
    rw [htext, hdocs, Option.getD_some]
  rw [hentries] at he
  exact names_composeCommitMessage (List.mem_filterMap.2 ⟨_, he, JournalEntry.ofDoc_toDoc e⟩)

/-- A commit settles what was read and loses nothing. -/
theorem Kept.commit {s : State} (h : Kept s) (message : String) : Kept (s.commit message) :=
  h.step h.whole (fun _ he => .inl he) (List.subset_cons_self _ _) (List.Subset.refl _)
    (fun file _ he => .inr ⟨file, he⟩) h.cleared

theorem kept_step {σ σ' : Stage} {o : Op} {a : o.Res} {s s' : State} (h : Kept s)
    (hk : knowsAt σ s) (hn : Next σ o a σ') (hmay : rotatesSettled o s (.ok a))
    (hs : o.answers s a s') : Kept s' ∧ knowsAt σ' s' := by
  cases hn with
  | mkdir => obtain rfl := hs; exact ⟨h, trivial⟩
  | remove =>
    obtain rfl := hs
    exact ⟨h.removeSending .rotated (fun e he => .inl ((hmay e he).mono (List.Subset.refl _)
      (List.Subset.refl _))) nofun, rfl⟩
  | rename =>
    obtain ⟨-, rfl⟩ := hs
    have hempty : s.entriesOf .sending = [] := entriesOf_none hk
    refine ⟨h.step (fun file => ?_) (fun _ he => .inl he) (List.Subset.refl _) (List.Subset.refl _)
      (fun file e he => ?_) h.cleared, trivial⟩
    · cases file with
      | pending => exact ⟨[], rfl⟩
      | sending => exact h.whole .pending
    · cases file with
      | pending => exact .inr ⟨.sending, he⟩
      | sending =>
        rw [hempty] at he
        cases he
  | create =>
    obtain rfl := hs
    have hempty : s.entriesOf .sending = [] := entriesOf_none hk
    refine ⟨h.step (fun file => ?_) (fun _ he => .inl he) (List.Subset.refl _) (List.Subset.refl _)
      (fun file e he => ?_) h.cleared, trivial⟩
    · cases file with
      | pending => exact h.whole .pending
      | sending => exact ⟨[], rfl⟩
    · cases file with
      | pending => exact .inr ⟨.pending, he⟩
      | sending =>
        rw [hempty] at he
        cases he
  | snapshot source => obtain ⟨-, -, -, rfl⟩ := hs; exact ⟨h.same rfl rfl rfl rfl rfl, trivial⟩
  | mkdirClone source => obtain rfl := hs; exact ⟨h, trivial⟩
  | collect source previous => obtain ⟨-, rfl⟩ := hs; exact ⟨h, trivial⟩
  | removeFile source file todo => obtain rfl := hs; exact ⟨h.same rfl rfl rfl rfl rfl, trivial⟩
  | writeFile source file version todo =>
    obtain rfl := hs
    exact ⟨h.same rfl rfl rfl rfl rfl, trivial⟩
  | unchanged source => obtain ⟨hd, rfl⟩ := hs; exact ⟨h, hd.symm⟩
  | differs source => obtain ⟨-, rfl⟩ := hs; exact ⟨h, trivial⟩
  | discardClean source =>
    obtain rfl := hs
    refine ⟨h.removeSending .clean (fun e he => .inl (.inr ⟨_, List.mem_cons_self, he⟩)) fun _ => ?_,
      trivial⟩
    exact sameContents_of_clean hk
  | read source text =>
    obtain ⟨ht, rfl⟩ := hs
    refine ⟨h, ?_⟩
    show s'.sending.getD [] = text
    rw [show s'.sending = some text from ht, Option.getD_some]
  | commit source files sha hdocs =>
    obtain ⟨-, rfl⟩ := hs
    refine ⟨h.commit _, fun e he => .inl ⟨⟨_, s.head, s.clone, s.source, s.taken⟩, List.mem_cons_self, ?_⟩⟩
    rw [entriesOf_commit] at he
    dsimp only
    exact settled_by_commit hk hdocs he
  | discardCommitted =>
    obtain rfl := hs
    exact ⟨h.removeSending .committed (fun e he => .inl ((hk e he).mono (List.Subset.refl _)
      (List.Subset.refl _))) nofun, trivial⟩
  | push r => obtain rfl := hs; exact ⟨h, trivial⟩

/-- A recovery that merges the two files loses nothing, and may then remove the one it merged. -/
theorem Kept.merge {s : State} (h : Kept s) :
    let s₁ := s.rewritePending (s.sending.getD [] ++ s.pending.getD [])
    Kept s₁ ∧ Kept (s₁.removeFile .sending .recovered) := by
  intro s₁
  have hsending : s.sending.getD [] = lines (s.entriesOf .sending) := h.whole.text_eq .sending
  have hpending : s.pending.getD [] = lines (s.entriesOf .pending) := h.whole.text_eq .pending
  have htext : (s₁.file .pending).getD [] = lines (s.entriesOf .sending ++ s.entriesOf .pending) := by
    show s.sending.getD [] ++ s.pending.getD [] = _
    rw [lines_append, hsending, hpending]
  have hmerged := entriesOf_eq htext
  have hkept : Kept s₁ := by
    refine h.step (fun file => ?_) (fun _ he => .inl he) (List.Subset.refl _) (List.Subset.refl _)
      (fun file e he => .inr ⟨.pending, ?_⟩) h.cleared
    · cases file with
      | pending => exact ⟨_, htext⟩
      | sending => exact h.whole .sending
    · rw [hmerged]
      cases file with
      | pending => exact List.mem_append_right _ he
      | sending => exact List.mem_append_left _ he
  refine ⟨hkept, hkept.removeSending .recovered (fun e he => .inr ?_) nofun⟩
  rw [entriesOf_congr (show (s₁.removeFile .sending .recovered).file .pending = s₁.file .pending from rfl),
    hmerged]
  exact List.mem_append_left _ he

/-- The account of attribution: kills, failures and appends of any kind. -/
def attribution : Account rotatesSettled (fun _ => True) True where
  I := Kept
  R _ _ := True
  at_ := knowsAt
  wrote _ _ := True
  R_refl _ := trivial
  R_trans _ _ := trivial
  at_frame h hf _ _ := knowsAt_frame h hf
  wrote_frame _ _ _ _ := trivial
  bookkeeping _ _ _ h := ⟨h.same rfl rfl rfl rfl rfl, trivial⟩
  started _ := trivial
  step h hk hn hmay hs :=
    have hstep := kept_step h hk hn hmay hs
    ⟨hstep.1, trivial, hstep.2⟩
  removed_all _ := trivial
  written_all _ := trivial
  absent _ hn := by
    show Option.getD _ [] = []
    rw [hn]
    rfl
  commitFails _ h _ _ := ⟨h.commit _, trivial⟩
  publish h _ _ _ := ⟨h.same rfl rfl rfl rfl rfl, trivial, trivial⟩
  deliver h _ := ⟨h.append _, trivial, trivial⟩
  published h _ := ⟨h.same rfl rfl rfl rfl rfl, trivial⟩
  failed _ h := ⟨h.same rfl rfl rfl rfl rfl, trivial⟩
  append _ h := ⟨h.append _, trivial⟩
  merge _ h _ := ⟨h.merge.1, trivial, h.merge.2, trivial⟩
  restart _ h := h.same rfl rfl rfl rfl rfl

theorem unwritten_kept {s : State} (h : Unwritten s) :
    Kept s ∧ s.running = none ∧ s.publishing = false := by
  refine ⟨⟨⟨fun e he => ?_, fun cl hmem => ?_⟩, fun file => ⟨[], ?_⟩⟩, h.running, h.publishing⟩
  · rw [h.appended] at he
    cases he
  · rw [h.cleared] at hmem
    cases hmem
  · cases file with
    | pending => rw [show s.file .pending = none from h.pending]; rfl
    | sending => rw [show s.file .sending = none from h.sending]; rfl

/-- `rotatesSettled` where nothing is left to rotate over. -/
def rotatesEmpty (o : Op) (s : State) (_ : Except Error o.Res) : Bool :=
  match o with
  | .remove _ .rotated => (s.entriesOf .sending).isEmpty
  | _ => true

theorem rotatesSettled_of_empty (o : Op) (s : State) (r : Except Error o.Res)
    (h : rotatesEmpty o s r = true) : rotatesSettled o s r := by
  cases o with
  | remove file why =>
    cases why with
    | rotated =>
      cases r with
      | error e => trivial
      | ok a =>
        intro e he
        rw [List.isEmpty_iff.1 h] at he
        cases he
    | _ => trivial
  | _ => trivial

def enableFlag : Change := ⟨"flags.yaml", some "beta: true\n", some "a", ["beta"], "t1"⟩

/-- A write, its sync, an append, a kill and the recovery. -/
def syncedWrite : Pool lang Request Unit :=
  (serviceDriver rotatesEmpty (fun _ => true) true).drive ⟨{}, []⟩
    (requestAlone 0 4 (.write [enableFlag]) ++ requestAlone 1 12 .sync ++
      requestAlone 2 2 (.append secondEntry) ++ [.kill] ++ requestAlone 3 4 .boot)

/-- An append, a sync that fails to take its snapshot, and another one that has begun. -/
def failedThenSync : Pool lang Request Unit :=
  (serviceDriver (fun _ _ _ => true) (fun _ => true) true).drive ⟨{}, []⟩
    (requestAlone 0 2 (.append firstEntry) ++ requestAlone 1 3 .sync ++ [.run 1 false] ++
      requestAlone 2 2 .sync)

/-- **No attribution is lost** in the runs that meet the condition, whatever step of a sync fails
and wherever the process is restarted: an appended entry is still in the journal, or named by a
commit, or was discarded by a sync that found nothing to commit. -/
theorem no_attribution_lost {p : Pool lang Request Unit}
    (h : Reach (service rotatesSettled (fun _ => True) True) Unwritten p) : Accounted p.state :=
  (attribution.holds (fun _ => unwritten_kept) h).toAccounted

theorem no_attribution_lost_synced : Accounted syncedWrite.state ∧
    syncedWrite.state.appended.length = 2 ∧ syncedWrite.state.commits.length = 1 :=
  ⟨no_attribution_lost (Driver.drive_reach (serviceDriver_follows rotatesSettled_of_empty
    (fun _ _ => trivial) fun _ => trivial) ⟨rfl, rfl, rfl, rfl, rfl, rfl⟩ _),
    by decide +kernel, by decide +kernel⟩

/-- The next sync discards what a failed one had rotated away. -/
theorem failed_sync_loses_attribution :
    ¬ ∀ p, Reach (service (fun _ _ _ => True) (fun _ => True) True) Unwritten p →
      Accounted p.state := by
  intro h
  have haccounted : Accounted failedThenSync.state :=
    h _ (Driver.drive_reach (serviceDriver_follows (fun _ _ _ _ => trivial) (fun _ _ => trivial)
      fun _ => trivial) ⟨rfl, rfl, rfl, rfl, rfl, rfl⟩ _)
  have hmem : firstEntry ∈ failedThenSync.state.appended := by decide +kernel
  have hcommits : failedThenSync.state.commits.length = 0 := by decide +kernel
  have hcleared : failedThenSync.state.cleared.length = 0 := by decide +kernel
  have hpending : failedThenSync.state.file .pending = none := by decide +kernel
  have hsending : failedThenSync.state.file .sending = none := by decide +kernel
  rcases haccounted.entries _ hmem with (⟨c, hc, -⟩ | ⟨cl, hcl, -⟩) | ⟨file, hfile⟩
  · rw [List.length_eq_zero_iff.1 hcommits] at hc
    cases hc
  · rw [List.length_eq_zero_iff.1 hcleared] at hcl
    cases hcl
  · cases file with
    | pending => rw [entriesOf_none hpending] at hfile; cases hfile
    | sending => rw [entriesOf_none hsending] at hfile; cases hfile

end ConfigRegistry.Backup
