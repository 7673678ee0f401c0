import ConfigRegistry.Engine.Bootstrapping

/-!
# A bootstrap that was cut short

The boot of a process on a directory into which an earlier one was copying the clone when it was killed, and
the first synchronization after it: `mirrorSnapshot` of `src/store/sync-engine.ts` removes from the clone what
the database does not have.
-/

namespace ConfigRegistry.Engine

open Js Async Fs Store

section

variable (host : Host) (t : Nat) (starts : Disk → Bool) (clone : FileTree)

/-- A boot on this state comes to serve a database: the rest of `main` may refuse what it finds. -/
def Serves (s s₁ : State) : Prop :=
  ∃ bootstrapped, (bootstrapFrom host t clone.entries).run alone s = some (.ok bootstrapped, s₁) ∧
    starts s₁.disk = true

/-- The bootstrap is resumed: a boot comes to an end, and it refuses to start or serves the files of the clone.
A synchronization then removes no file from the clone that was never copied. -/
structure Resumes (s : State) : Prop where
  ends : ∃ r s₁, (bootstrapFrom host t clone.entries).run alone s = some (r, s₁)
  complete : ∀ s₁, Serves host t starts clone s s₁ → ∀ segments text, segments ≠ [] →
    (s₁.disk.at_ segments = some (.file text) ↔
      Reaches (fun _ => true) (.dir (cloned clone.entries)) segments (.file text))
  kept : ∀ s₁, Serves host t starts clone s s₁ → ∀ revision files s₂,
    (snapshot host t "").run alone s₁ = some (.ok (revision, files), s₂) →
    ∀ segments text, Reaches (fun name => !isPrivate name) clone.root segments (.file text) →
      pathText segments ∉ files.map Prod.fst → ∃ text', s₁.disk.at_ segments = some (.file text')

/-- What was left of the copy does no harm: nothing was copied yet, or every file was, or what is there cannot
be started on. -/
def Harmless (left : List (String × Node)) : Prop :=
  left = [] ∨
  (∀ segments text, Reaches (fun _ => true) (.dir (cloned clone.entries)) segments (.file text) →
    Reaches (fun _ => true) (.dir left) segments (.file text)) ∨
  ¬JournalClear left ∨ starts ⟨copiedEntries [] left⟩ = false

end

variable {host : Host} {t : Nat} {starts : Disk → Bool} {clone : FileTree} {left : List (String × Node)} {s : State}

/-- What is left of a journal without transactions has none. -/
theorem unlisted_of_cut (hcut : Cut (.dir (cloned clone.entries)) (.dir left)) (hunlisted : Unlisted clone.entries) :
    Unlisted left := by
  intro inner listed hinner hlisted
  have hreach : Reaches (fun _ => true) (.dir left) [".journal", "transactions"] (.dir listed) :=
    .inside hinner rfl (.inside hlisted rfl (.here _))
  obtain ⟨original, horiginal, hcut'⟩ := hcut.reaches hreach
  cases horiginal with
  | inside hjournal _ hrest =>
    cases hrest with
    | inside htransactions _ hrest =>
      have hlist : ∀ listed', original = .dir listed' → listed' = [] := by
        rintro listed' rfl
        cases hrest
        exact hunlisted _ _ ((mem_cloned (by decide)).1 hjournal) htransactions
      cases hcut' with
      | between done rest =>
        have := hlist _ rfl
        simp_all
      | during done name rest h =>
        have := hlist _ rfl
        simp at this

/-- A file that is left is one that was being copied. -/
theorem file_of_cut {entries : List (String × Node)} (hcut : Cut (.dir entries) (.dir left)) {segments : Place} {text : String}
    (hreach : Reaches (fun _ => true) (.dir left) segments (.file text)) :
    ∃ text', Reaches (fun _ => true) (.dir entries) segments (.file text') := by
  obtain ⟨original, horiginal, hcut'⟩ := hcut.reaches hreach
  cases hcut' with
  | file h => exact ⟨_, horiginal⟩

/-- A directory in which there is something is left as it is. -/
theorem bootstrapDb_of_copied (hproper : Proper (.dir left)) (hne : left ≠ []) (entries : List (String × Node)) :
    bootstrapDb ⟨copiedEntries [] left⟩ entries = (false, ⟨copiedEntries [] left⟩) := by
  have hnames := (Disk.lists_root left).names_eq (hproper [] left (.here _)).1
  rw [bootstrapDb, if_pos]
  rw [hnames]
  simpa using hne

/-- A boot whose database is a copy of a tree: it is refused where the journal of the tree cannot be read. -/
theorem boots (host : Host) (t : Nat) (starts : Disk → Bool) {entries : List (String × Node)} {bootstrapped : Bool}
    (hinit : Init s)
    (hcopy : bootstrapDb s.disk clone.entries = (bootstrapped, ⟨copiedEntries [] entries⟩))
    (hproper : Proper (.dir entries)) (hunlisted : Unlisted entries) :
    (∃ r s₁, (bootstrapFrom host t clone.entries).run alone s = some (r, s₁)) ∧
    (∀ s₁, Serves host t starts clone s s₁ → JournalClear entries ∧ s₁.disk = ⟨copiedEntries [] entries⟩) ∧
    (JournalClear entries → starts ⟨copiedEntries [] entries⟩ = true → ∃ s₁, Serves host t starts clone s s₁) := by
  obtain ⟨found, hpending, hnone, hclear⟩ := run_pending host (s := { s with disk := ⟨copiedEntries [] entries⟩ })
    hproper (Disk.lists_root entries) hunlisted
  have hboot := run_bootstrapFrom (t := t) hinit hcopy hnone hpending
  refine ⟨⟨_, _, hboot⟩, ?_, ?_⟩
  · rintro s₁ ⟨b, hrun, -⟩
    rw [hboot] at hrun
    obtain ⟨hok, rfl⟩ := Prod.mk.inj (Option.some.inj hrun)
    cases hfound : found with
    | error e =>
      rw [hfound] at hok
      cases hok
    | ok transactions => exact ⟨hclear.1 ⟨transactions, hfound⟩, rfl⟩
  · intro h hstarts
    obtain ⟨transactions, hfound⟩ := hclear.2 h
    rw [hfound] at hboot
    exact ⟨_, bootstrapped, hboot, hstarts⟩

/-- What the disk has of files, where a tree was copied to it. -/
theorem file_at_copied {entries : List (String × Node)} (hproper : Proper (.dir entries)) {segments : Place}
    (hne : segments ≠ []) {text : String} :
    Disk.at_ ⟨copiedEntries [] entries⟩ segments = some (.file text) ↔
      Reaches (fun _ => true) (.dir entries) segments (.file text) := by
  rw [Disk.at_copied hproper hne]
  constructor
  · rintro ⟨inner, hreach, hentry⟩
    cases inner with
    | file text' =>
      obtain rfl := Entry.file.inj hentry
      exact hreach
    | link target => cases hentry
    | dir inner => cases hentry
  · exact fun hreach => ⟨_, hreach, rfl⟩

/-- Where a boot serves the files of the clone, a synchronization removes none that was not copied. -/
theorem kept_of_complete {s₁ : State} (hcomplete : ∀ segments text, segments ≠ [] →
    (s₁.disk.at_ segments = some (.file text) ↔
      Reaches (fun _ => true) (.dir (cloned clone.entries)) segments (.file text))) {segments : Place} {text : String}
    (hreach : Reaches (fun name => !isPrivate name) clone.root segments (.file text)) :
    ∃ text', s₁.disk.at_ segments = some (.file text') := by
  have hne : segments ≠ [] := by
    rintro rfl
    cases hreach
  exact ⟨text, (hcomplete segments text hne).2 (((reaches_cloned hne).2 hreach).mono fun _ _ => rfl)⟩

/-- An engine that has just been constructed on a directory that a tree was copied to. -/
def rebooted (left : List (String × Node)) : State := { emptyState with disk := ⟨copiedEntries [] left⟩ }

theorem init_rebooted (left : List (String × Node)) : Init (rebooted left) := ⟨fun _ => rfl, rfl, rfl⟩

/-- A clone of two files. -/
def pairTree : FileTree where
  entries := [("environments.yaml", .file "order: [dev, prod]\n"), ("services.yaml", .file "web:\n  uid: 1001\n")]
  proper := by
    apply proper_dir (by decide)
    intro entry hentry
    rcases List.mem_pair.1 hentry with rfl | rfl
    · exact ⟨⟨by decide, by decide⟩, proper_file _⟩
    · exact ⟨⟨by decide, by decide⟩, proper_file _⟩

end ConfigRegistry.Engine
