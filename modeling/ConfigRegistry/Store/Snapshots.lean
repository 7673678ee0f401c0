import ConfigRegistry.Async.Drive
import ConfigRegistry.Async.Serial
import ConfigRegistry.Fs.Replacing
import ConfigRegistry.Json.Members

/-!
# The last-known-good snapshot

`src/store/snapshot.ts`: a save writes a temporary file and renames it over the snapshot. `main` of `src/server.ts`
saves after every reload, and nothing keeps two saves of one process apart.
-/

namespace ConfigRegistry.Store.Snapshots

open Js Json Fs Async

/-! ### The file -/

/-- `ConfigSources`: the text of every namespace at one commit. -/
structure Sources where
  commit : List Char
  sources : List (List Char × List Char)
  distinct : (sources.map Prod.fst).Nodup
deriving DecidableEq

/-- What is written: `{ commit, sources }`. -/
def Sources.document (c : Sources) : Doc :=
  .obj [("commit".toList, .str c.commit),
    ("sources".toList, .obj (c.sources.map fun s => (s.1, .str s.2)))]

def Sources.text (c : Sources) : List Char := render c.document

/-- `typeof source === 'string'`. -/
def isText : Doc → Bool
  | .str _ => true
  | _ => false

/-- The text, where there is one. -/
def textOf : Option Doc → List Char
  | some (.str s) => s
  | _ => []

/-- `Object.entries`, of a member that is an object. -/
def entriesOf : Option Doc → List (List Char × Doc)
  | some (.obj members) => own members
  | _ => []

def isSnapshotFile (value : Doc) : Bool :=
  (match value.member "commit" with
    | some (.str _) => true
    | _ => false) &&
  match value.member "sources" with
  | some (.obj members) => (own members).all fun m => isText m.2
  | _ => false

theorem nodup_entriesOf (d : Option Doc) : ((entriesOf d).map Prod.fst).Nodup := by
  unfold entriesOf
  split
  · exact nodup_own _
  · exact .nil

/-- `load`, of the text of the file. -/
def load (text : List Char) : Option Sources :=
  match Json.parse text with
  | none => none
  | some parsed =>
    if isSnapshotFile parsed then
      some
        { commit := textOf (parsed.member "commit")
          sources := (entriesOf (parsed.member "sources")).map fun m => (m.1, textOf (some m.2))
          distinct := by
            have h := nodup_entriesOf (parsed.member "sources")
            rwa [List.map_map] }
    else none

/-- What a save has written is what is loaded. -/
theorem load_text (c : Sources) : load c.text = some c := by
  obtain ⟨commit, sources, hdistinct⟩ := c
  have hkeys : ((sources.map fun s => (s.1, Doc.str s.2)).map Prod.fst).Nodup := by
    rwa [List.map_map]
  have hcommit : (Sources.document ⟨commit, sources, hdistinct⟩).member "commit" = some (.str commit) := rfl
  have hsources : (Sources.document ⟨commit, sources, hdistinct⟩).member "sources" =
      some (.obj (sources.map fun s => (s.1, .str s.2))) := rfl
  have hfile : isSnapshotFile (Sources.document ⟨commit, sources, hdistinct⟩) = true := by
    unfold isSnapshotFile
    rw [hcommit, hsources]
    dsimp only
    rw [own_of_nodup hkeys]
    simp [isText]
  unfold load Sources.text
  rw [parse_render]
  dsimp only
  rw [if_pos hfile]
  congr 1
  rw [Sources.mk.injEq, hcommit, hsources]
  refine ⟨rfl, ?_⟩
  unfold entriesOf
  dsimp only
  rw [own_of_nodup hkeys, List.map_map]
  exact List.map_id _

/-! ### The language -/

/-- The directory of the snapshot, and the process that is running. -/
structure State where
  files : Replaced := {}
  pid : Nat := 1

/-- The sources that the file holds, where `load` can use it. -/
def State.snapshot (s : State) : Option Sources := s.files.text.bind load

inductive Op where
  | openTemp (pid : Nat)
  | write (inode : Nat) (text : List Char)
  | rename (pid : Nat)
  | unlink (pid : Nat)

def Op.Res : Op → Type
  | .openTemp _ => Nat
  | .write _ _ | .rename _ | .unlink _ => Unit

def lang : Sig where
  State := State
  Err := Error
  Op := Op
  Res := Op.Res

instance : DecidableEq lang.Err := inferInstanceAs (DecidableEq Error)

def Op.perform : (o : Op) → State → Except Error o.Res × State
  | .openTemp pid, s => (.ok (s.files.openTemp pid).1, { s with files := (s.files.openTemp pid).2 })
  | .write inode text, s => (.ok (), { s with files := s.files.write inode text })
  | .rename pid, s => ((s.files.rename pid).1, { s with files := (s.files.rename pid).2 })
  | .unlink pid, s => ((s.files.unlink pid).1, { s with files := (s.files.unlink pid).2 })

/-- An operation that is cut short has done nothing, or everything; a text may have been written in part. -/
def Op.cut : Op → State → State → Prop
  | .write inode text, s, s' => ∃ n, s' = { s with files := s.files.write inode (text.take n) }
  | o, s, s' => s' = (o.perform s).2

/-- Another process may have another id. -/
def sem : Sem lang where
  step o s r s' := o.perform s = (r, s')
  torn := Op.cut
  crash s s' := s'.files = s.files

/-! ### The store -/

/-- `rename`, and where it fails `unlink`. -/
def publish (pid : Nat) : Prog lang Unit :=
  (Prog.op (S := lang) (.rename pid)).handle fun cause => do
    let _ ← (Prog.op (S := lang) (.unlink pid)).attempt
    Prog.fail cause

/-- `SnapshotStore.save`. -/
def save (sources : Sources) : Prog lang Unit := do
  let s ← Prog.get
  let inode ← Prog.op (S := lang) (.openTemp s.pid)
  Prog.op (S := lang) (.write inode sources.text)
  publish s.pid

/-- The saves of one directory. -/
def store : System lang Sources Unit where
  sem := sem
  body _ c := save c

/-- The store where a save begins only while no other is in progress. -/
def orderlyStore : System lang Sources Unit where
  sem := sem
  body _ c := save c
  mayArrive p _ := p.Quiet

/-- The directory when the service starts. -/
def Started (s : State) : Prop := s.files.Sound

/-- Once a save has succeeded the file holds the sources of a save, no save fails, and after the last one it holds
its sources. -/
structure Usable (threads : List (Thread lang Sources Unit)) (s : State) : Prop where
  held : (∃ th ∈ threads, th.prog = some (.done (.ok ()))) → ∃ th ∈ threads, s.snapshot = some th.request
  unfailed : ∀ th ∈ threads, ∀ e, th.prog ≠ some (.done (.error e))
  last : threads.all Thread.ended = true → ∀ c, threads.getLast? = some ⟨c, some (.done (.ok ()))⟩ →
    s.snapshot = some c

/-! ### One save after the other -/

/-- What follows the opening of the temporary file. -/
def opened (c : Sources) (pid : Nat) (r : Except Error Nat) : Prog lang Unit :=
  (Prog.done r : Prog lang Nat) >>= fun inode => Prog.op (S := lang) (.write inode c.text) >>= fun _ => publish pid

/-- What follows the writing of it. -/
def written (pid : Nat) (r : Except Error Unit) : Prog lang Unit :=
  (Prog.done r : Prog lang Unit) >>= fun _ => publish pid

/-- What follows the renaming of it. -/
def renamed (pid : Nat) (r : Except Error Unit) : Prog lang Unit :=
  (Prog.done r : Prog lang Unit).handle fun cause => do
    let _ ← (Prog.op (S := lang) (.unlink pid)).attempt
    Prog.fail cause

/-- Where a save stands, with what the directory holds there. -/
inductive Saving (c : Sources) : Prog lang Unit → State → Prop where
  | opening {s : State} (h : s.files.Sound) : Saving c (.await (Op.openTemp s.pid) (opened c s.pid)) s
  | writing {s : State} {inode : Nat} (h : s.files.Holds s.pid inode []) :
      Saving c (.await (Op.write inode c.text) (written s.pid)) s
  | moving {s : State} {inode : Nat} (h : s.files.Holds s.pid inode c.text) :
      Saving c (.await (Op.rename s.pid) (renamed s.pid)) s
  | saved {s : State} (h : s.files.Sound) (htext : s.files.text = some c.text) : Saving c (.done (.ok ())) s

theorem Saving.sound {c : Sources} {q : Prog lang Unit} {s : State} (h : Saving c q s) : s.files.Sound := by
  cases h with
  | opening h => exact h
  | writing h => exact h.toSound
  | moving h => exact h.toSound
  | saved h _ => exact h

theorem Saving.settle {c : Sources} {q : Prog lang Unit} {s : State} (h : Saving c q s) : q.settle s = (q, s) := by
  cases h with
  | opening h => rfl
  | writing h => rfl
  | moving h => rfl
  | saved h _ => rfl

/-- What the file holds is there until it is the text of the save. -/
theorem Saving.complete {c : Sources} {o : Op} {k : Except Error o.Res → Prog lang Unit} {s s' : State}
    {r : Except Error o.Res} (h : Saving c (.await o k) s) (hstep : sem.step o s r s') :
    Saving c (k r) s' ∧ (s'.files.text = s.files.text ∨ s'.files.text = some c.text) := by
  cases h with
  | opening h =>
    obtain ⟨rfl, rfl⟩ := Prod.mk.inj hstep
    obtain ⟨hholds, htext⟩ := h.openTemp s.pid
    exact ⟨.writing (s := { s with files := (s.files.openTemp s.pid).2 }) hholds, .inl htext⟩
  | writing h =>
    obtain ⟨rfl, rfl⟩ := Prod.mk.inj hstep
    obtain ⟨hholds, htext⟩ := h.write c.text
    exact ⟨.moving (s := { s with files := s.files.write _ c.text }) hholds, .inl htext⟩
  | moving h =>
    obtain ⟨rfl, rfl⟩ := Prod.mk.inj hstep
    obtain ⟨hok, hsound, htext⟩ := h.rename
    refine ⟨?_, .inr htext⟩
    rw [hok]
    exact .saved (s := { s with files := (s.files.rename s.pid).2 }) hsound htext

/-- A save that is cut short leaves the file as it was, or renamed. -/
theorem Saving.cut {c : Sources} {q : Prog lang Unit} {s s' : State} {o : Op} (h : Saving c q s)
    (ho : q.awaits = some o) (htorn : o.cut s s') :
    s'.files.Sound ∧ (s'.files.text = s.files.text ∨ s'.files.text = some c.text) := by
  cases h with
  | opening h =>
    obtain rfl := Option.some.inj ho
    obtain rfl : s' = _ := htorn
    obtain ⟨hholds, htext⟩ := h.openTemp s.pid
    exact ⟨hholds.toSound, .inl htext⟩
  | writing h =>
    obtain rfl := Option.some.inj ho
    obtain ⟨n, rfl⟩ := htorn
    obtain ⟨hholds, htext⟩ := h.write (c.text.take n)
    exact ⟨hholds.toSound, .inl htext⟩
  | moving h =>
    obtain rfl := Option.some.inj ho
    obtain rfl : s' = _ := htorn
    obtain ⟨-, hsound, htext⟩ := h.rename
    exact ⟨hsound, .inr htext⟩
  | saved h _ => cases ho

theorem snapshot_of_text {c : Sources} {s : State} (h : s.files.text = some c.text) : s.snapshot = some c := by
  unfold State.snapshot
  rw [h, Option.bind_some, load_text]

/-- The saves that have ended, and the one in progress. -/
structure Underway (ths : List (Thread lang Sources Unit)) (c : Sources) (q : Prog lang Unit) (s : State) : Prop where
  saving : Saving c q s
  unfailed : ∀ th ∈ ths, ∀ e, th.prog ≠ some (.done (.error e))
  held : (∃ th ∈ ths, th.prog = some (.done (.ok ()))) →
    (∃ th ∈ ths, s.snapshot = some th.request) ∨ s.snapshot = some c

section

variable {ths : List (Thread lang Sources Unit)} {c : Sources} {q : Prog lang Unit} {s s' : State}

theorem Underway.next (h : Underway ths c q s) {q' : Prog lang Unit} (hsaving : Saving c q' s')
    (htext : s'.files.text = s.files.text ∨ s'.files.text = some c.text) : Underway ths c q' s' where
  saving := hsaving
  unfailed := h.unfailed
  held := by
    intro hok
    rcases htext with hsame | hnew
    · have hsnapshot : s'.snapshot = s.snapshot := by
        unfold State.snapshot
        rw [hsame]
      rw [hsnapshot]
      exact h.held hok
    · exact .inr (snapshot_of_text hnew)

theorem Underway.done {r : Except Error Unit} (h : Underway ths c (.done r) s) :
    s.files.Sound ∧ Usable (ths ++ [⟨c, some (.done r)⟩]) s := by
  obtain ⟨hsaving, hunfailed, hheld⟩ := h
  cases hsaving with
  | saved hsound htext =>
    have hsnapshot := snapshot_of_text htext
    refine ⟨hsound, ⟨?_, ?_, ?_⟩⟩
    · intro _
      exact ⟨_, List.mem_concat_self, hsnapshot⟩
    · intro th hth e
      rcases List.mem_append.1 hth with hth | hth
      · exact hunfailed th hth e
      · obtain rfl := List.mem_singleton.1 hth
        intro hcontra
        cases hcontra
    · intro _ c' hlast
      rw [List.getLast?_concat] at hlast
      cases hlast
      exact hsnapshot

/-- A save that is killed leaves the sources of some save, or none have been saved. -/
theorem Underway.kill {s'' : State} (h : Underway ths c q s)
    (htorn : s' = s ∨ ∃ o, q.awaits = some o ∧ sem.torn o s s') (hcrash : sem.crash s' s'') :
    s''.files.Sound ∧ Usable (ths ++ [⟨c, none⟩]) s'' := by
  have hcut : s'.files.Sound ∧ (s'.files.text = s.files.text ∨ s'.files.text = some c.text) := by
    rcases htorn with rfl | ⟨o, ho, hcut⟩
    · exact ⟨h.saving.sound, .inl rfl⟩
    · exact h.saving.cut ho hcut
  have hfiles : s''.files = s'.files := hcrash
  rw [← hfiles] at hcut
  obtain ⟨hsound, htext⟩ := hcut
  refine ⟨hsound, ⟨?_, ?_, ?_⟩⟩
  · rintro ⟨th, hth, hok⟩
    have hbefore : ∃ th ∈ ths, th.prog = some (.done (.ok ())) := by
      rcases List.mem_append.1 hth with hth | hth
      · exact ⟨th, hth, hok⟩
      · obtain rfl := List.mem_singleton.1 hth
        cases hok
    have hnew : s''.snapshot = some c → ∃ th ∈ ths ++ [⟨c, none⟩], s''.snapshot = some th.request :=
      fun hc => ⟨_, List.mem_concat_self, hc⟩
    rcases htext with hsame | htext
    · have hsnapshot : s''.snapshot = s.snapshot := by
        unfold State.snapshot
        rw [hsame]
      rcases h.held hbefore with ⟨th, hth, hheld⟩ | hheld
      · exact ⟨th, List.mem_append_left _ hth, hsnapshot.trans hheld⟩
      · exact hnew (hsnapshot.trans hheld)
    · exact hnew (snapshot_of_text htext)
  · intro th hth e
    rcases List.mem_append.1 hth with hth | hth
    · exact h.unfailed th hth e
    · obtain rfl := List.mem_singleton.1 hth
      intro hcontra
      cases hcontra
  · intro _ c' hlast
    rw [List.getLast?_concat] at hlast
    cases hlast

end

/-- What saves keep that do not overlap. -/
def serial : Serial orderlyStore where
  rest ths s := s.files.Sound ∧ Usable ths s
  busy := Underway
  quiet _ _ h := h
  arrive ths c s h := by
    refine ⟨.opening h.1, h.2.unfailed, ?_⟩
    intro hok
    exact .inl (h.2.held hok)
  settle ths c q s h := by
    rw [h.saving.settle]
    exact h
  complete ths c o k s r s' h hstep := by
    obtain ⟨hsaving, htext⟩ := h.saving.complete hstep
    exact h.next hsaving htext
  done ths c r s h := h.done
  crash ths s s' h hcrash := by
    have hfiles : s'.files = s.files := hcrash
    have hsnapshot : s'.snapshot = s.snapshot := by
      unfold State.snapshot
      rw [hfiles]
    obtain ⟨hsound, hheld, hunfailed, hlast⟩ := h
    rw [← hfiles] at hsound
    refine ⟨hsound, ⟨?_, hunfailed, ?_⟩⟩
    · rwa [hsnapshot]
    · rwa [hsnapshot]
  kill ths c q s s' s'' h htorn hcrash := h.kill htorn hcrash

/-- While saves do not overlap, the snapshot is usable in every state of every run, kills included. -/
theorem snapshot_is_usable {p : Pool lang Sources Unit} (h : Reach orderlyStore Started p) :
    Usable p.threads p.state := by
  have hstands : serial.Stands p := @Serial.stands_of_reach _ _ _ _ serial _ Started (fun s hs => ⟨hs, by
    refine ⟨?_, by simp, by simp⟩
    rintro ⟨th, hth, -⟩
    cases hth⟩) h
  by_cases hquiet : p.Quiet
  · exact (hstands.rest hquiet).2
  · cases hstands with
    | resting hended _ => exact (hquiet hended).elim
    | running ths c q hthreads hended hbusy =>
      have hq : ∀ r, q ≠ .done r := by
        rintro r rfl
        apply hquiet
        unfold Pool.Quiet
        rw [hthreads, List.all_append, hended]
        rfl
      rw [hthreads]
      refine ⟨?_, ?_, ?_⟩
      · rintro ⟨th, hth, hok⟩
        have hbefore : ∃ th ∈ ths, th.prog = some (.done (.ok ())) := by
          rcases List.mem_append.1 hth with hth | hth
          · exact ⟨th, hth, hok⟩
          · obtain rfl := List.mem_singleton.1 hth
            exact (hq _ (Option.some.inj hok)).elim
        rcases hbusy.held hbefore with ⟨th, hth, hheld⟩ | hheld
        · exact ⟨th, List.mem_append_left _ hth, hheld⟩
        · exact ⟨_, List.mem_concat_self, hheld⟩
      · intro th hth e
        rcases List.mem_append.1 hth with hth | hth
        · exact hbusy.unfailed th hth e
        · obtain rfl := List.mem_singleton.1 hth
          intro hcontra
          exact hq _ (Option.some.inj hcontra)
      · intro hall
        rw [← hthreads] at hall
        exact (hquiet hall).elim

/-! ### Saves that overlap -/

/-- Operations as they complete, and a write that is cut short after some characters. -/
def storeDriver : Driver lang Sources Unit Nat where
  body _ c := save c
  perform _ o s := some (Op.perform o s)
  cut n o s :=
    match o with
    | .write inode text => some { s with files := s.files.write inode (text.take n) }
    | .openTemp pid => some (Op.perform (.openTemp pid) s).2
    | .rename pid => some (Op.perform (.rename pid) s).2
    | .unlink pid => some (Op.perform (.unlink pid) s).2
  crash s := some s

theorem storeDriver_follows : storeDriver.Follows store where
  body := rfl
  allow _ _ _ := trivial
  allowArrive _ _ _ := trivial
  step _ _ _ _ _ h := Option.some.inj h
  cut n o s s' h := by
    cases o with
    | write inode text => exact ⟨n, (Option.some.inj h).symm⟩
    | openTemp pid => exact (Option.some.inj h).symm
    | rename pid => exact (Option.some.inj h).symm
    | unlink pid => exact (Option.some.inj h).symm
  crash s s' h := by
    obtain rfl := Option.some.inj h
    rfl

def orderlyDriver : Driver lang Sources Unit Nat := { storeDriver with allowArrive := fun p _ => decide p.Quiet }

theorem orderlyDriver_follows : orderlyDriver.Follows orderlyStore where
  body := rfl
  allow _ _ _ := trivial
  allowArrive p _ h := (of_decide_eq_true h : p.Quiet)
  step _ _ _ _ _ h := Option.some.inj h
  cut n o s s' h := storeDriver_follows.cut n o s s' h
  crash s s' h := storeDriver_follows.crash s s' h

def firstSources : Sources := ⟨"1".toList, [("web/prod".toList, "port: 1".toList)], by decide⟩

def secondSources : Sources := ⟨"2".toList, [("web/prod".toList, "port: 2".toList)], by decide⟩

/-- One save, and a second that is killed while it writes. -/
def orderlySaves : Pool lang Sources Unit :=
  orderlyDriver.drive ⟨{}, []⟩ [.arrive firstSources, .run 0 0, .run 0 0, .run 0 0, .arrive secondSources, .run 1 0,
    .killIn 1 3]

theorem orderly_snapshot_is_usable : Usable orderlySaves.threads orderlySaves.state :=
  snapshot_is_usable (Driver.drive_reach orderlyDriver_follows (s := {}) Replaced.sound_empty _)

/-- Two saves open the same temporary file, and the first renames it. -/
def overlappingSaves : Pool lang Sources Unit :=
  storeDriver.drive ⟨{}, []⟩ [.arrive firstSources, .arrive secondSources, .run 0 0, .run 1 0, .run 0 0, .run 0 0,
    .run 1 0, .run 1 0, .run 1 0]

/-- The second save fails because the first one ran. -/
theorem overlapping_save_fails : ¬ ∀ p, Reach store Started p → Usable p.threads p.state := by
  intro h
  have hreach : Reach store Started overlappingSaves :=
    Driver.drive_reach storeDriver_follows (s := {}) Replaced.sound_empty _
  have hfailed : overlappingSaves.Answered 1 secondSources (.error enoent) := by decide +kernel
  exact (h _ hreach).unfailed _ (List.mem_of_getElem? hfailed) _ rfl

end ConfigRegistry.Store.Snapshots
