import ConfigRegistry.Async.Accord
import ConfigRegistry.Async.Drive
import ConfigRegistry.Client.Watching
import ConfigRegistry.Js.Text

/-!
# Refreshes and watches that run at once

A client may have several requests in progress, and each answer is applied and written to the cache file in steps. The
server gives the versions of its values in order, but an answer may arrive after one that was given later.
-/

namespace ConfigRegistry.Client

open Js Json Fs Async

/-! ### The server and the calls -/

/-- The answers a server gives, version by version. -/
structure Server where
  body : Nat → List Char
  answer : Nat → Served
  served : ∀ k, Served.ofAnswer 200 (body k) = .ok (some (answer k))
  distinct : ∀ j k, (answer j).commit = (answer k).commit → j = k

inductive Request where
  | refresh
  | watch (turns : Nat)
  | stop
deriving DecidableEq

section

variable (server : Server) (options : Options)

/-- What an operation may come to. A request that is sent while the server has one version is answered with that or a
later one, or with no answer that is applied, or fails; the operations on the cache file may fail as well. -/
def Op.answers : (o : Op) → State → Except Error o.Res → State → Prop
  | .fetch call _, s, r, s' => ∃ version, s.version ≤ version ∧
    (((∃ e, r = .error e) ∨ ∃ status body, status ≠ 200 ∧ r = .ok (status, body)) ∧ s' = { s with version := version } ∨
    ∃ k, s.sent call ≤ k ∧ k ≤ version ∧ r = .ok (200, server.body k) ∧
      s' = { s with version := version, holder := some call })
  | .readCache, s, _, s' => s' = s
  | .openTemp pid, s, r, s' =>
    r = .ok (s.files.openTemp pid).1 ∧ s' = { s with files := (s.files.openTemp pid).2 } ∨ (∃ e, r = .error e) ∧ s' = s
  | .write inode text, s, r, s' => r = .ok () ∧ s' = { s with files := s.files.write inode text } ∨
    (∃ e, r = .error e) ∧ ∃ n, s' = { s with files := s.files.write inode (text.take n) }
  | .rename pid, s, r, s' =>
    r = (s.files.rename pid).1 ∧ s' = { s with files := (s.files.rename pid).2 } ∨ (∃ e, r = .error e) ∧ s' = s
  | .unlink pid, s, r, s' =>
    r = (s.files.unlink pid).1 ∧ s' = { s with files := (s.files.unlink pid).2 } ∨ (∃ e, r = .error e) ∧ s' = s
  | .delay, s, r, s' => r = .ok () ∧ s' = s

/-- The process is not killed. -/
def sem : Sem lang where
  step := Op.answers server
  torn _ _ _ := False
  crash _ _ := False

/-- The commit of the client is not one of a later version. -/
def NotNewer (s : State) (k : Nat) : Prop := ∀ i, s.memory.commit = (server.answer i).commit → i ≤ k

/-- An answer arrives while no call has another that it has not done with, and is not older than the client. -/
def Op.orderly : (o : Op) → State → Except Error o.Res → Prop
  | .fetch _ _, s, r => ∀ k, r = .ok (200, server.body k) → s.holder = none ∧ NotNewer server s k
  | _, _, _ => True

def orderlySem : Sem lang := (sem server).restrict (Op.orderly server) (fun _ _ _ => True) fun _ => True

def serve (call : Nat) : Request → Prog lang Unit
  | .refresh => do
    let _ ← refresh options call
    pure ()
  | .watch turns => watch options call turns
  | .stop => stopWatching

def client : System lang Request Unit where
  sem := sem server
  body := serve options

/-- The client where answers arrive in order. -/
def orderlyClient : System lang Request Unit where
  sem := orderlySem server
  body := serve options

/-- A client that has loaded and has not applied an answer. -/
structure Started (m₀ : Memory) (s : State) : Prop where
  memory : s.memory = m₀
  files : s.files.Sound
  applied : s.applied = none
  holder : s.holder = none

/-- The memory is as it was loaded, or is that of one version. -/
def Consistent (m₀ : Memory) (s : State) : Prop :=
  s.applied = none ∧ s.memory = m₀ ∨
    ∃ k, s.applied = some (server.answer k) ∧ s.memory = m₀.apply (server.answer k)

/-- The cache file holds the answer that was applied last, unless the writing of it was reported to have failed. -/
def Saved (s : State) : Prop :=
  options.cachePath ≠ none → ∀ served, s.applied = some served → s.failed = false →
    s.files.text = some (served.cacheText options)

/-- The commit does not move back. -/
def Forward (s s' : State) : Prop :=
  ∀ i j, s.memory.commit = (server.answer i).commit → s'.memory.commit = (server.answer j).commit → i ≤ j

/-- No request or cache operation is in progress, nor about to begin: every call has ended or waits for its delay. -/
def Calm (p : Pool lang Request Unit) : Prop :=
  ∀ th ∈ p.threads, (∃ r, th.prog = some (.done r)) ∨ th.phase = .awaiting Op.delay

/-! ### What the calls keep -/

/-- The commit is the same, or one of a version that is not older. -/
def Advances (s s' : State) : Prop :=
  s'.memory.commit = s.memory.commit ∨ ∃ k, s'.memory.commit = (server.answer k).commit ∧ NotNewer server s k

structure Invariant (m₀ : Memory) (s : State) : Prop where
  files : s.files.Sound
  consistent : Consistent server m₀ s
  saved : s.holder = none → Saved options s

/-- Nothing of what a call with an answer works on is changed. -/
structure Undisturbed (s s' : State) : Prop where
  holder : s'.holder = s.holder
  files : s'.files = s.files
  memory : s'.memory = s.memory
  applied : s'.applied = s.applied
  failed : s'.failed = s.failed

structure Rely (t : Nat) (s s' : State) : Prop where
  held : s.holder = some t → Undisturbed s s'
  free : s.holder ≠ some t → s'.holder ≠ some t
  pid : s'.pid = s.pid
  advances : Advances server s s'

end

variable {server : Server} {options : Options} {m₀ : Memory}

theorem Undisturbed.refl (s : State) : Undisturbed s s := ⟨rfl, rfl, rfl, rfl, rfl⟩

theorem Undisturbed.trans {s s' s'' : State} (h : Undisturbed s s') (h' : Undisturbed s' s'') :
    Undisturbed s s'' :=
  ⟨h'.holder.trans h.holder, h'.files.trans h.files, h'.memory.trans h.memory, h'.applied.trans h.applied,
    h'.failed.trans h.failed⟩

theorem Advances.trans {s s' s'' : State} (h : Advances server s s') (h' : Advances server s' s'') :
    Advances server s s'' := by
  rcases h' with hsame' | ⟨k', hk', hnot'⟩
  · rcases h with hsame | ⟨k, hk, hnot⟩
    · exact .inl (hsame'.trans hsame)
    · exact .inr ⟨k, hsame'.trans hk, hnot⟩
  · refine .inr ⟨k', hk', ?_⟩
    intro i hi
    rcases h with hsame | ⟨k, hk, hnot⟩
    · exact hnot' i (hsame.trans hi)
    · have := hnot i hi
      have := hnot' k hk
      omega

theorem Advances.forward {s s' : State} (h : Advances server s s') : Forward server s s' := by
  intro i j hi hj
  rcases h with hsame | ⟨k, hk, hnot⟩
  · rw [hsame, hi] at hj
    exact (server.distinct i j hj).le
  · rw [hk] at hj
    obtain rfl := server.distinct k j hj
    exact hnot i hi

theorem Rely.refl (t : Nat) (s : State) : Rely server t s s :=
  ⟨fun _ => .refl s, fun h => h, rfl, .inl rfl⟩

theorem Rely.trans {t : Nat} {s s' s'' : State} (h : Rely server t s s') (h' : Rely server t s' s'') :
    Rely server t s s'' where
  held hs := (h.held hs).trans (h'.held ((h.held hs).holder.trans hs))
  free hs := h'.free (h.free hs)
  pid := h'.pid.trans h.pid
  advances := h.advances.trans h'.advances

/-- While a call waits for an answer or for its delay, it has none. -/
def Waiting (t : Nat) : Op → State → Prop
  | .fetch _ _, s | .delay, s => s.holder ≠ some t
  | _, _ => True

/-- What the calls of a client keep where answers arrive in order. -/
def accord (server : Server) (options : Options) (m₀ : Memory) : Accord lang where
  inv := Invariant server options m₀
  rely := Rely server
  fresh t s := s.holder ≠ some t
  waits := Waiting
  rely_refl := .refl
  rely_trans _ _ _ _ h h' := h.trans h'
  fresh_rely _ _ _ h hr := hr.free h
  waits_rely t o s s' h hr := by
    cases o with
    | fetch _ _ => exact hr.free h
    | delay => exact hr.free h
    | _ => trivial

/-! ### One call -/

section

variable {t : Nat}

/-- The call has no answer. -/
def Free (t : Nat) (s : State) : Prop := s.holder ≠ some t

theorem stable_free : (accord server options m₀).Stable t (Free t) := fun _ _ h hr _ => hr.free h

/-- The call has the answer of a version that is not older than the client. -/
structure Holding (server : Server) (options : Options) (t k : Nat) (s : State) : Prop where
  holder : s.holder = some t
  order : NotNewer server s k
  saved : Saved options s

theorem saved_congr {s s' : State} (hfiles : s'.files = s.files) (happlied : s'.applied = s.applied)
    (hfailed : s'.failed = s.failed) (h : Saved options s) : Saved options s' := by
  unfold Saved
  rw [hfiles, happlied, hfailed]
  exact h

theorem stable_holding (k : Nat) : (accord server options m₀).Stable t (Holding server options t k) := by
  intro s s' h hr _
  have hsame := hr.held h.holder
  refine ⟨hsame.holder.trans h.holder, ?_, saved_congr hsame.files hsame.applied hsame.failed h.saved⟩
  intro i hi
  rw [hsame.memory] at hi
  exact h.order i hi

/-- A step of a call that changes neither the memory nor the files. -/
theorem keeps_same {s s' : State} (hi : Invariant server options m₀ s) (hfiles : s'.files = s.files)
    (hmemory : s'.memory = s.memory) (happlied : s'.applied = s.applied) (hfailed : s'.failed = s.failed)
    (hpid : s'.pid = s.pid) (hholder : s'.holder = s.holder ∨ s.holder = none ∧ s'.holder = some t) :
    (accord server options m₀).Keeps t s s' where
  inv :=
    { files := by rw [hfiles]; exact hi.files
      consistent := by
        unfold Consistent
        rw [happlied, hmemory]
        exact hi.consistent
      saved := by
        intro hnone
        rcases hholder with hsame | ⟨-, hsome⟩
        · exact saved_congr hfiles happlied hfailed (hi.saved (hsame.symm.trans hnone))
        · rw [hsome] at hnone
          cases hnone }
  others u hu :=
    { held := by
        intro hs
        rcases hholder with hsame | ⟨hnone, -⟩
        · exact ⟨hsame, hfiles, hmemory, happlied, hfailed⟩
        · rw [hnone] at hs
          cases hs
      free := by
        intro hs
        rcases hholder with hsame | ⟨-, hsome⟩
        · rwa [hsame]
        · rw [hsome]
          intro hcontra
          exact hu (Option.some.inj hcontra).symm
      pid := hpid
      advances := .inl (by rw [hmemory]) }

/-- What is known once a request is answered. -/
def Fetched (server : Server) (options : Options) (t : Nat) : Except Error (Option Served) → State → Prop
  | .ok (some served), s => ∃ k, served = server.answer k ∧ Holding server options t k s
  | _, s => Free t s

theorem orderly_lasting : (orderlySem server).Lasting := ⟨fun _ _ _ h => h.2, fun _ _ h => h.2⟩

theorem fetch_runs (since : Option Doc) : (accord server options m₀).Runs (orderlySem server) t (Free t)
    (fetch t since) (Fetched server options t) := by
  have hrequest : (accord server options m₀).Runs (orderlySem server) t (Free t)
      (Prog.modify (S := lang) fun s => s.request t) fun _ => Free t :=
    .modify fun s hs hi => ⟨keeps_same hi rfl rfl rfl rfl rfl (.inl rfl), hs⟩
  have hstable : ∀ r, (accord server options m₀).Stable t (Fetched server options t r) := by
    intro r
    cases r with
    | error e => exact stable_free
    | ok served =>
      cases served with
      | none => exact stable_free
      | some served =>
        rintro s s' ⟨k, hserved, hholding⟩ hr hi
        exact ⟨k, hserved, stable_holding k s s' hholding hr hi⟩
  have hop : (accord server options m₀).Runs (orderlySem server) t (Free t)
      (Prog.op (S := lang) (.fetch t (since.filter truthy))) fun r s => Fetched server options t (received r) s := by
    refine .op orderly_lasting stable_free (fun r => hstable (received r)) (fun s hs _ => hs) ?_
    rintro s r s' hs hi ⟨hmay, version, hversion, ⟨hnone, rfl⟩ | ⟨k, hsent, hk, rfl, rfl⟩⟩
    · refine ⟨keeps_same hi rfl rfl rfl rfl rfl (.inl rfl), ?_⟩
      rcases hnone with ⟨e, rfl⟩ | ⟨status, body, hstatus, rfl⟩
      · exact hs
      · have hserved : Served.ofAnswer status body = .ok none := if_pos hstatus
        show Fetched server options t (Served.ofAnswer status body) _
        rw [hserved]
        exact hs
    · obtain ⟨hfree, hnot⟩ := hmay k rfl
      refine ⟨keeps_same hi rfl rfl rfl rfl rfl (.inr ⟨hfree, rfl⟩), ?_⟩
      show Fetched server options t (Served.ofAnswer 200 (server.body k)) _
      rw [server.served k]
      exact ⟨k, rfl, rfl, hnot, hi.saved hfree⟩
  refine .bind hrequest (fun _ => .bind hop (fun answer => .done fun s hs _ => hs) fun e s _ hs => hs) ?_
  intro e s _ hs
  exact hs

/-- The call applies an answer, which is in memory. -/
structure Writing (m₀ : Memory) (t k : Nat) (server : Server) (s : State) : Prop where
  holder : s.holder = some t
  memory : s.memory = m₀.apply (server.answer k)
  applied : s.applied = some (server.answer k)

/-- What is known while a call writes its answer, if anything is known of the files. -/
abbrev At (server : Server) (m₀ : Memory) (t k : Nat) (P : Replaced → Nat → Bool → Prop) (s : State) : Prop :=
  Writing m₀ t k server s ∧ P s.files s.pid s.failed

theorem stable_at (k : Nat) (P : Replaced → Nat → Bool → Prop) :
    (accord server options m₀).Stable t (At server m₀ t k P) := by
  rintro s s' ⟨⟨hholder, hmemory, happlied⟩, hP⟩ hr _
  have hsame := hr.held hholder
  refine ⟨⟨hsame.holder.trans hholder, hsame.memory.trans hmemory, hsame.applied.trans happlied⟩, ?_⟩
  rw [hsame.files, hr.pid, hsame.failed]
  exact hP

/-- A step of the call that applies an answer changes the files only. -/
theorem keeps_files {k : Nat} {s : State} (hi : Invariant server options m₀ s) (hs : Writing m₀ t k server s)
    {files : Replaced} (failed : Bool) (hfiles : files.Sound) :
    (accord server options m₀).Keeps t s { s with files := files, failed := failed } ∧
      Writing m₀ t k server { s with files := files, failed := failed } := by
  refine ⟨⟨⟨hfiles, hi.consistent, ?_⟩, ?_⟩, ⟨hs.holder, hs.memory, hs.applied⟩⟩
  · intro hnone
    have := hs.holder
    rw [hnone] at this
    cases this
  · intro u hu
    refine ⟨?_, fun h => h, rfl, .inl rfl⟩
    intro hcontra
    exact (hu (Option.some.inj (hcontra.symm.trans hs.holder))).elim

/-- The temporary file of the process holds a text, and no writing has failed. -/
def HoldsText (inode : Nat) (text : List Char) (files : Replaced) (pid : Nat) (failed : Bool) : Prop :=
  files.Holds pid inode text ∧ failed = false

/-- The cache file holds a text. -/
def HasText (text : List Char) (files : Replaced) (_ : Nat) (failed : Bool) : Prop :=
  files.text = some text ∧ failed = false

theorem unlink_runs {k pid : Nat} : (accord server options m₀).Runs (orderlySem server) t
    (At server m₀ t k fun _ _ _ => True) (Prog.op (S := lang) (.unlink pid)) fun _ => At server m₀ t k fun _ _ _ => True := by
  refine .op orderly_lasting (stable_at k _) (fun _ => stable_at k _) (fun _ _ _ => trivial) ?_
  rintro s r s' ⟨hs, -⟩ hi ⟨-, hstep⟩
  have hsound : (s.files.unlink pid).2.Sound := (hi.files.unlink pid).1
  rcases hstep with ⟨-, rfl⟩ | ⟨-, rfl⟩
  · obtain ⟨hkeeps, hwriting⟩ := keeps_files hi hs s.failed hsound
    exact ⟨hkeeps, hwriting, trivial⟩
  · obtain ⟨hkeeps, hwriting⟩ := keeps_files hi hs s'.failed hi.files
    exact ⟨hkeeps, hwriting, trivial⟩

theorem publish_runs {k pid inode : Nat} {text : List Char} :
    (accord server options m₀).Runs (orderlySem server) t
      (At server m₀ t k fun files pid' failed => HoldsText inode text files pid' failed ∧ pid' = pid) (publish pid)
      fun r => At server m₀ t k fun files pid' failed => r = .ok () → HasText text files pid' failed := by
  have hrename : (accord server options m₀).Runs (orderlySem server) t
      (At server m₀ t k fun files pid' failed => HoldsText inode text files pid' failed ∧ pid' = pid)
      (Prog.op (S := lang) (.rename pid))
      fun r => At server m₀ t k fun files pid' failed => r = .ok () → HasText text files pid' failed := by
    refine .op orderly_lasting (stable_at k _) (fun _ => stable_at k _) (fun _ _ _ => trivial) ?_
    rintro s r s' ⟨hs, ⟨hholds, hfailed⟩, rfl⟩ hi ⟨-, hstep⟩
    obtain ⟨hok, hsound, htext⟩ := hholds.rename
    rcases hstep with ⟨-, rfl⟩ | ⟨⟨e, rfl⟩, rfl⟩
    · obtain ⟨hkeeps, hwriting⟩ := keeps_files hi hs s.failed hsound
      exact ⟨hkeeps, hwriting, fun _ => ⟨htext, hfailed⟩⟩
    · obtain ⟨hkeeps, hwriting⟩ := keeps_files hi hs s'.failed hi.files
      exact ⟨hkeeps, hwriting, fun hcontra => by cases hcontra⟩
  refine .handle hrename (fun a s _ hs => hs) fun e => ?_
  have hunlink : (accord server options m₀).Runs (orderlySem server) t
      (At server m₀ t k fun files pid' failed => Except.error e = .ok () → HasText text files pid' failed)
      (Prog.op (S := lang) (.unlink pid)).attempt fun _ => At server m₀ t k fun _ _ _ => True :=
    .attempt (unlink_runs.conseq (fun s _ hs => ⟨hs.1, trivial⟩) fun _ _ _ hs => hs)
  refine .bind hunlink (fun r => .done fun s hs _ => ⟨hs.1, fun hcontra => by cases hcontra⟩) ?_
  intro e' s _ hs
  exact ⟨hs.1, fun hcontra => by cases hcontra⟩

/-- Where writing the cache file reports no error it holds the answer. -/
theorem writeCache_runs (k : Nat) : (accord server options m₀).Runs (orderlySem server) t
    (At server m₀ t k fun _ _ failed => failed = false) (writeCache options (server.answer k))
    fun r => At server m₀ t k fun files pid failed => r = .ok () → options.cachePath ≠ none →
      HasText ((server.answer k).cacheText options) files pid failed := by
  unfold writeCache
  split
  · rename_i hpath
    exact .pure fun s hs _ => ⟨hs.1, fun _ hcontra => (hcontra hpath).elim⟩
  · refine .get_bind fun s₀ => ?_
    have hopen : (accord server options m₀).Runs (orderlySem server) t
        (fun s => At server m₀ t k (fun _ _ failed => failed = false) s ∧ s = s₀)
        (Prog.op (S := lang) (.openTemp s₀.pid)) fun r => At server m₀ t k fun files pid failed =>
          ∀ inode, r = .ok inode → HoldsText inode [] files pid failed ∧ pid = s₀.pid := by
      have hwider : (accord server options m₀).Runs (orderlySem server) t
          (At server m₀ t k fun _ pid failed => failed = false ∧ pid = s₀.pid)
          (Prog.op (S := lang) (.openTemp s₀.pid)) fun r => At server m₀ t k fun files pid failed =>
            ∀ inode, r = .ok inode → HoldsText inode [] files pid failed ∧ pid = s₀.pid := by
        refine .op orderly_lasting (stable_at k _) (fun _ => stable_at k _) (fun _ _ _ => trivial) ?_
        rintro s r s' ⟨hs, hfailed, hpid⟩ hi ⟨-, hstep⟩
        obtain ⟨hholds, -⟩ := hi.files.openTemp s₀.pid
        rcases hstep with ⟨rfl, rfl⟩ | ⟨⟨e, rfl⟩, rfl⟩
        · obtain ⟨hkeeps, hwriting⟩ := keeps_files hi hs s.failed hholds.toSound
          refine ⟨hkeeps, hwriting, ?_⟩
          intro inode hinode
          obtain rfl := Except.ok.inj hinode
          refine ⟨⟨?_, hfailed⟩, hpid⟩
          show (s.files.openTemp s₀.pid).2.Holds s.pid _ []
          rw [hpid]
          exact hholds
        · obtain ⟨hkeeps, hwriting⟩ := keeps_files hi hs s'.failed hi.files
          exact ⟨hkeeps, hwriting, fun inode hcontra => by cases hcontra⟩
      refine hwider.conseq ?_ fun _ _ _ hs => hs
      rintro s _ ⟨⟨hs, hfailed⟩, rfl⟩
      exact ⟨hs, hfailed, rfl⟩
    refine .bind hopen (fun inode => ?_) fun e s _ hs => ⟨hs.1, fun hcontra => by cases hcontra⟩
    have hwrite : (accord server options m₀).Runs (orderlySem server) t
        (At server m₀ t k fun files pid failed => HoldsText inode [] files pid failed ∧ pid = s₀.pid)
        (Prog.op (S := lang) (.write inode ((server.answer k).cacheText options))) fun r =>
          At server m₀ t k fun files pid failed => r = .ok () →
            HoldsText inode ((server.answer k).cacheText options) files pid failed ∧ pid = s₀.pid := by
      refine .op orderly_lasting (stable_at k _) (fun _ => stable_at k _) (fun _ _ _ => trivial) ?_
      rintro s r s' ⟨hs, ⟨hholds, hfailed⟩, hpid⟩ hi ⟨-, hstep⟩
      rcases hstep with ⟨-, rfl⟩ | ⟨⟨e, rfl⟩, n, rfl⟩
      · have hwritten := (hholds.write ((server.answer k).cacheText options)).1
        obtain ⟨hkeeps, hwriting⟩ := keeps_files hi hs s.failed hwritten.toSound
        exact ⟨hkeeps, hwriting, fun _ => ⟨⟨hwritten, hfailed⟩, hpid⟩⟩
      · have hwritten := (hholds.write (((server.answer k).cacheText options).take n)).1
        obtain ⟨hkeeps, hwriting⟩ := keeps_files hi hs s.failed hwritten.toSound
        exact ⟨hkeeps, hwriting, fun hcontra => by cases hcontra⟩
    refine .bind (hwrite.conseq (fun s _ hs => ⟨hs.1, hs.2 inode rfl⟩) fun _ _ _ hs => hs) (fun _ => ?_)
      fun e s _ hs => ⟨hs.1, fun hcontra => by cases hcontra⟩
    refine publish_runs.conseq (fun s _ hs => ⟨hs.1, hs.2 rfl⟩) fun r s _ hs => ⟨hs.1, fun hr _ => hs.2 hr⟩

/-- The answer that a call applies is written, unless that was reported to have failed. -/
def Done (server : Server) (options : Options) (k : Nat) (files : Replaced) (_ : Nat) (failed : Bool) : Prop :=
  options.cachePath ≠ none → failed = false → files.text = some ((server.answer k).cacheText options)

theorem apply_memory {s : State} (h : Consistent server m₀ s) (served : Served) :
    s.memory.apply served = m₀.apply served := by
  rcases h with ⟨-, hmemory⟩ | ⟨k, -, hmemory⟩
  · rw [hmemory]
  · rw [hmemory]
    rfl

/-- The turn that applies an answer. -/
theorem applied_runs (k : Nat) : (accord server options m₀).Runs (orderlySem server) t (Holding server options t k)
    (Prog.modify (S := lang) fun s => s.apply (server.answer k))
    (Accord.Returned fun _ => At server m₀ t k fun _ _ failed => failed = false) := by
  refine .modify fun s hs hi => ?_
  have hmemory := apply_memory hi.consistent (server.answer k)
  refine ⟨⟨⟨hi.files, .inr ⟨k, rfl, hmemory⟩, ?_⟩, ?_⟩, ⟨hs.holder, hmemory, rfl⟩, rfl⟩
  · intro hnone
    exact absurd (hs.holder.symm.trans hnone) (by simp)
  · intro u hu
    refine ⟨?_, fun h => h, rfl, .inr ⟨k, rfl, hs.order⟩⟩
    intro hcontra
    exact (hu (Option.some.inj (hcontra.symm.trans hs.holder))).elim

/-- A call that has done with its answer leaves the rest as it is. -/
theorem release_keeps {s : State} {notified : Nat} (hi : Invariant server options m₀ s)
    (hsaved : s.holder = some t → Saved options s) :
    (accord server options m₀).Keeps t s { s.release t with notified := notified } ∧
      Free t { s.release t with notified := notified } := by
  by_cases hholder : s.holder = some t
  · have hrelease : s.release t = { s with holder := none } := if_pos hholder
    rw [hrelease]
    refine ⟨⟨⟨hi.files, hi.consistent, fun _ => hsaved hholder⟩, ?_⟩, by simp [Free]⟩
    intro u hu
    refine ⟨?_, by simp, rfl, .inl rfl⟩
    intro hcontra
    exact (hu (Option.some.inj (hcontra.symm.trans hholder))).elim
  · have hrelease : s.release t = s := if_neg hholder
    rw [hrelease]
    exact ⟨keeps_same hi rfl rfl rfl rfl rfl (.inl rfl), hholder⟩

/-- The turn in which a call has done with an answer that it applied. -/
theorem released_runs (k : Nat) (changed : Bool) : (accord server options m₀).Runs (orderlySem server) t
    (At server m₀ t k (Done server options k)) (Prog.modify (S := lang) fun s =>
      { s.release t with notified := if changed then s.notified + 1 else s.notified }) fun _ => Free t := by
  refine .modify fun s hs hi => release_keeps hi ?_
  intro _ hpath served hserved hfailed
  obtain rfl := Option.some.inj (hs.1.applied.symm.trans hserved)
  exact hs.2 hpath hfailed

theorem apply_runs (k : Nat) : (accord server options m₀).Runs (orderlySem server) t (Holding server options t k)
    (apply options t (server.answer k)) fun _ => Free t := by
  unfold apply
  refine .get_bind fun s₀ => ?_
  have happlied : (accord server options m₀).Runs (orderlySem server) t
      (fun s => Holding server options t k s ∧ s = s₀) (Prog.modify fun s => s.apply (server.answer k))
      (Accord.Returned fun _ => At server m₀ t k fun _ _ failed => failed = false) :=
    (applied_runs k).conseq (fun _ _ hs => hs.1) fun _ _ _ hs => hs
  have hwritten : (accord server options m₀).Runs (orderlySem server) t
      (At server m₀ t k fun _ _ failed => failed = false)
      ((writeCache options (server.answer k)).handle fun _ => Prog.modify (S := lang) fun s => { s with failed := true })
      (Accord.Returned fun _ => At server m₀ t k (Done server options k)) := by
    refine .handle (writeCache_runs k) ?_ fun e => .modify fun s hs hi => ?_
    · intro a s _ hs
      exact ⟨hs.1, fun hpath _ => (hs.2 rfl hpath).1⟩
    · obtain ⟨hkeeps, hwriting⟩ := keeps_files hi hs.1 true hi.files
      exact ⟨hkeeps, hwriting, fun _ hcontra => by cases hcontra⟩
  exact .bind_returns happlied fun _ => .bind_returns hwritten fun _ => released_runs k _

theorem refresh_runs : (accord server options m₀).Runs (orderlySem server) t (Free t) (refresh options t)
    fun _ => Free t := by
  unfold refresh
  have hfetch : (accord server options m₀).Runs (orderlySem server) t (Free t) (fetch t none).attempt
      (Accord.Returned (Fetched server options t)) := .attempt (fetch_runs none)
  refine .bind_returns hfetch fun r => ?_
  cases r with
  | error e => exact .pure fun s hs _ => hs
  | ok served =>
    cases served with
    | none => exact .pure fun s hs _ => hs
    | some served =>
      refine .get_bind fun s₀ => ?_
      intro x hx hi
      obtain ⟨⟨k, rfl, hholding⟩, hs₀⟩ := hx
      have hrun : (accord server options m₀).Runs (orderlySem server) t (Holding server options t k)
          (apply options t (server.answer k) >>= fun _ =>
            pure (!identical (server.answer k).commit (State.memory s₀).commit)) fun _ => Free t :=
        .bind (apply_runs k) (fun _ => .pure fun s hs _ => hs) fun e s _ hs => hs
      exact hrun x hholding hi

theorem watchTurn_runs : (accord server options m₀).Runs (orderlySem server) t (Free t) (watchTurn options t)
    fun _ => Free t := by
  unfold watchTurn
  have hdelay : (accord server options m₀).Runs (orderlySem server) t (Free t) (Prog.op (S := lang) .delay)
      fun _ => Free t := by
    refine .op orderly_lasting stable_free (fun _ => stable_free) (fun s hs _ => hs) ?_
    rintro s r s' hs hi ⟨-, -, rfl⟩
    exact ⟨.refl hi, hs⟩
  refine .handle (R := fun _ => Free t) (.get_bind fun s₀ => ?_) (fun _ _ _ hs => hs)
    fun e => .bind hdelay (fun _ => .pure fun s hs _ => hs) fun e s _ hs => hs
  refine .bind ((@fetch_runs server options m₀ t (State.memory s₀).commit).conseq (fun _ _ hs => hs.1) fun _ _ _ hs => hs) (fun served => ?_) fun e s _ hs => hs
  refine .get_bind fun s₁ => .ite (fun _ => ?_) fun _ => ?_
  · -- An answer that comes after the watch was stopped is not applied.
    refine .bind (.modify (Q := fun _ => Free t) fun s hs hi => ?_) (fun _ => .pure fun s hs _ => hs) fun e s _ hs => hs
    refine release_keeps  hi ?_
    intro hholder
    cases served with
    | none => exact (hs.1 hholder).elim
    | some served =>
      obtain ⟨k, -, hholding⟩ := hs.1
      exact hholding.saved
  · intro x hx hi
    obtain ⟨hx, -⟩ := hx
    cases served with
    | none => exact (Accord.Runs.pure (P := Free t) (Q := fun _ => Free t) fun s hs _ => hs) x hx hi
    | some served =>
      obtain ⟨k, rfl, hholding⟩ := hx
      have hrun : (accord server options m₀).Runs (orderlySem server) t (Holding server options t k)
          (apply options t (server.answer k) >>= fun _ => pure true) fun _ => Free t :=
        .bind (apply_runs k) (fun _ => .pure fun s hs _ => hs) fun e s _ hs => hs
      exact hrun x hholding hi

/-- By induction on the turns of the loop. -/
theorem watchLoop_runs (turns : Nat) : (accord server options m₀).Runs (orderlySem server) t (Free t)
    (watchLoop options t turns) fun _ => Free t := by
  induction turns with
  | zero => exact .pure fun s hs _ => hs
  | succ n ih =>
    unfold watchLoop
    refine .get_bind fun s₀ => .ite (fun _ => .pure fun s hs _ => hs.1) fun _ => ?_
    refine .bind (watchTurn_runs.conseq (fun _ _ hs => hs.1) fun _ _ _ hs => hs) (fun b => ?_) fun e s _ hs => hs
    refine .ite (fun _ => ih) fun _ => .pure fun s hs _ => hs

theorem serve_runs (c : Request) : (accord server options m₀).Runs (orderlySem server) t (Free t)
    (serve options t c) fun _ => Free t := by
  have hmodify : ∀ f : State → State, (∀ s, (f s).files = s.files ∧ (f s).memory = s.memory ∧
      (f s).applied = s.applied ∧ (f s).failed = s.failed ∧ (f s).pid = s.pid ∧ (f s).holder = s.holder) →
      (accord server options m₀).Runs (orderlySem server) t (Free t) (Prog.modify (S := lang) f) fun _ => Free t := by
    intro f hf
    refine .modify fun s hs hi => ?_
    obtain ⟨hfiles, hmemory, happlied, hfailed, hpid, hholder⟩ := hf s
    refine ⟨keeps_same hi hfiles hmemory happlied hfailed hpid (.inl hholder), ?_⟩
    show (f s).holder ≠ some t
    rw [hholder]
    exact hs
  cases c with
  | refresh => exact .bind refresh_runs (fun _ => .pure fun s hs _ => hs) fun e s _ hs => hs
  | stop => exact hmodify _ fun s => ⟨rfl, rfl, rfl, rfl, rfl, rfl⟩
  | watch turns =>
    refine .get_bind fun s₀ => .ite (fun _ => .pure fun s hs _ => hs.1) fun _ => ?_
    have hbegin := hmodify (fun s => { s with watchAbort := some t }) fun s => ⟨rfl, rfl, rfl, rfl, rfl, rfl⟩
    exact .bind (hbegin.conseq (fun _ _ hs => hs.1) fun _ _ _ hs => hs) (fun _ => watchLoop_runs turns) fun e s _ hs => hs

end

/-! ### Every run -/

/-- The values, flags and commit are those of one answer, the commit does not move back, and while no request or cache
operation is in progress the cache file holds that answer unless writing it was reported to have failed. -/
structure InOrder (server : Server) (options : Options) (m₀ : Memory) (sys : System lang Request Unit)
    (p : Pool lang Request Unit) : Prop where
  consistent : Consistent server m₀ p.state
  forward : ∀ p', Steps sys p p' → Forward server p.state p'.state
  saved : Calm p → Saved options p.state

section

variable (server options m₀)

theorem orderly_serves (p : Pool lang Request Unit) (c : Request) :
    (accord server options m₀).Runs (orderlyClient server options).sem p.threads.length
      (fun s => (accord server options m₀).fresh p.threads.length s ∧ s = p.state)
      ((orderlyClient server options).body p.threads.length c) fun _ => Free p.threads.length :=
  (serve_runs c).conseq (fun _ _ hs => hs.1) fun _ _ _ hs => hs

theorem started_invariant (s : State) (h : Started m₀ s) :
    (accord server options m₀).inv s ∧ ∀ t, (accord server options m₀).fresh t s := by
  refine ⟨⟨h.files, .inl ⟨h.applied, h.memory⟩, ?_⟩, ?_⟩
  · intro _ _ served hserved
    rw [h.applied] at hserved
    cases hserved
  · intro t hcontra
    rw [h.holder] at hcontra
    cases hcontra

/-- While answers arrive in order and one after the other, updates do not interleave badly. -/
theorem updates_are_in_order {p : Pool lang Request Unit}
    (h : Reach (orderlyClient server options) (Started m₀) p) :
    InOrder server options m₀ (orderlyClient server options) p := by
  have hgood := Accord.good_of_reach (A := accord server options m₀) (fun t _ _ => stable_free (t := t))
    (fun p c _ => orderly_serves server options m₀ p c) (started_invariant server options m₀)
    (Accord.survives_of_lasting orderly_lasting) h
  have hinv : Invariant server options m₀ p.state := hgood.inv
  refine ⟨hinv.consistent, ?_, ?_⟩
  · intro p' hs
    have hadvances : Advances server p.state p'.state := by
      induction hs with
      | refl => exact .inl rfl
      | tail hsteps hstep ih =>
        rename_i p₁ p₂
        have hreach : Reach (orderlyClient server options) (Started m₀) p₁ := by
          obtain ⟨s, hs, hrun⟩ := h
          exact ⟨s, hs, hrun.trans hsteps⟩
        have hrely : Rely server p₂.threads.length p₁.state p₂.state :=
          Accord.step_rely (A := accord server options m₀) orderly_lasting (fun t _ _ => stable_free (t := t))
            (fun p c _ => orderly_serves server options m₀ p c) (started_invariant server options m₀) hreach hstep
            (Nat.le_refl _)
        exact ih.trans hrely.advances
    exact hadvances.forward
  · intro hcalm
    apply hinv.saved
    cases hholder : p.state.holder with
    | none => rfl
    | some t =>
      have hfree : p.state.holder ≠ some t := by
        by_cases hlt : t < p.threads.length
        · have ht : p.threads[t]? = some p.threads[t] := List.getElem?_eq_getElem hlt
          rcases hcalm _ (List.getElem_mem hlt) with ⟨r, hr⟩ | hdelay
          · exact hgood.calls t _ (.done r) (ht.trans (congrArg some (congrArg (Thread.mk _) hr)))
          · have hparked := hgood.parked t _ ht
            rw [hdelay] at hparked
            exact hparked
        · exact hgood.unborn t (by omega)
      exact (hfree hholder).elim

end

/-! ### Two refreshes -/

def versionText (k : Nat) : List Char := (toString k).toList

def numbered (k : Nat) : Served := ⟨some (.str (versionText k)), .obj [], .obj []⟩

/-- A server whose commits are numbers. -/
def numberedServer : Server where
  body k := render (.obj [("commit".toList, .str (versionText k)), ("config".toList, .obj []), ("flags".toList, .obj [])])
  answer := numbered
  served k := by
    unfold Served.ofAnswer
    rw [if_neg (by simp), parse_render]
    rfl
  distinct j k h := by
    have htext : versionText j = versionText k := by simpa [numbered] using h
    exact natText_injective (String.toList_inj.1 htext)

/-- An answer of the chosen version, and cache operations that succeed. -/
def performClient (k : Nat) : (o : Op) → State → Option (Except Error o.Res × State)
  | .fetch call _, s =>
    if s.sent call ≤ k then
      some (.ok (200, numberedServer.body k), { s with version := max s.version k, holder := some call })
    else none
  | .readCache, s => some (.error enoent, s)
  | .openTemp pid, s => some (.ok (s.files.openTemp pid).1, { s with files := (s.files.openTemp pid).2 })
  | .write inode text, s => some (.ok (), { s with files := s.files.write inode text })
  | .rename pid, s => some ((s.files.rename pid).1, { s with files := (s.files.rename pid).2 })
  | .unlink pid, s => some ((s.files.unlink pid).1, { s with files := (s.files.unlink pid).2 })
  | .delay, s => some (.ok (), s)

theorem answers_of_performClient {k : Nat} {o : Op} {s s' : State} {r : Except Error o.Res}
    (h : performClient k o s = some (r, s')) : o.answers numberedServer s r s' := by
  cases o with
  | fetch call since =>
    have h' : (if s.sent call ≤ k then
        some (Except.ok (200, numberedServer.body k), { s with version := max s.version k, holder := some call })
      else none) = some (r, s') := h
    split at h'
    · rename_i hsent
      cases h'
      exact ⟨_, Nat.le_max_left _ _, .inr ⟨k, hsent, Nat.le_max_right _ _, rfl, rfl⟩⟩
    · cases h'
  | readCache =>
    cases h
    rfl
  | delay =>
    cases h
    exact ⟨rfl, rfl⟩
  | openTemp pid =>
    cases h
    exact .inl ⟨rfl, rfl⟩
  | write inode text =>
    cases h
    exact .inl ⟨rfl, rfl⟩
  | rename pid =>
    cases h
    exact .inl ⟨rfl, rfl⟩
  | unlink pid =>
    cases h
    exact .inl ⟨rfl, rfl⟩

/-- The version of the answer that was chosen. -/
theorem version_of_performClient {k k' call : Nat} {since : Option Doc} {s s' : State} {r : Except Error (Nat × List Char)}
    (h : performClient k (.fetch call since) s = some (r, s')) (hr : r = .ok (200, numberedServer.body k')) : k' = k := by
  have h' : (if s.sent call ≤ k then
      some (Except.ok (200, numberedServer.body k), { s with version := max s.version k, holder := some call })
    else none) = some (r, s') := h
  split at h'
  · cases h'
    have hbody : numberedServer.body k = numberedServer.body k' := by simpa using hr
    have hk := numberedServer.served k
    rw [hbody, numberedServer.served k'] at hk
    exact numberedServer.distinct k' k (by rw [Option.some.inj (Except.ok.inj hk)])
  · cases h'

def clientDriver (options : Options) : Driver lang Request Unit Nat where
  body := serve options
  perform := performClient

theorem clientDriver_follows (options : Options) : (clientDriver options).Follows (client numberedServer options) where
  body := rfl
  allow _ _ _ := trivial
  allowArrive _ _ _ := trivial
  step _ _ _ _ _ h := answers_of_performClient h
  cut _ _ _ _ h := by cases h
  crash _ _ h := by cases h

/-- No text, or the text of this version. -/
def inStep (k : Nat) (commit : Option Doc) : Bool :=
  match commit with
  | some (.str s) => s == versionText k
  | _ => true

def performInOrder (k : Nat) (o : Op) (s : State) : Option (Except Error o.Res × State) :=
  match o with
  | .fetch call since =>
    if s.holder.isNone && inStep k s.memory.commit then performClient k (.fetch call since) s else none
  | o => performClient k o s

def orderlyClientDriver (options : Options) : Driver lang Request Unit Nat where
  body := serve options
  perform := performInOrder

theorem notNewer_of_inStep {k : Nat} {s : State} (h : inStep k s.memory.commit = true) :
    NotNewer numberedServer s k := by
  intro i hi
  rw [hi] at h
  have htext : versionText i = versionText k := by simpa [inStep, numberedServer, numbered] using h
  exact (natText_injective (String.toList_inj.1 htext)).le

theorem orderlyClientDriver_follows (options : Options) :
    (orderlyClientDriver options).Follows (orderlyClient numberedServer options) where
  body := rfl
  allow _ _ _ := trivial
  allowArrive _ _ _ := trivial
  step k o s r s' h := by
    cases o with
    | fetch call since =>
      have h' : (if s.holder.isNone && inStep k s.memory.commit then performClient k (.fetch call since) s else none) =
          some (r, s') := h
      split at h'
      · rename_i hmay
        rw [Bool.and_eq_true] at hmay
        refine ⟨?_, answers_of_performClient h'⟩
        intro k' hr
        have hk : k' = k := version_of_performClient h' hr
        subst hk
        exact ⟨Option.isNone_iff_eq_none.1 hmay.1, notNewer_of_inStep hmay.2⟩
      · cases h'
    | readCache =>
      have h' : performClient k .readCache s = some (r, s') := h
      exact ⟨trivial, answers_of_performClient h'⟩
    | openTemp pid =>
      have h' : performClient k (.openTemp pid) s = some (r, s') := h
      exact ⟨trivial, answers_of_performClient h'⟩
    | write inode text =>
      have h' : performClient k (.write inode text) s = some (r, s') := h
      exact ⟨trivial, answers_of_performClient h'⟩
    | rename pid =>
      have h' : performClient k (.rename pid) s = some (r, s') := h
      exact ⟨trivial, answers_of_performClient h'⟩
    | unlink pid =>
      have h' : performClient k (.unlink pid) s = some (r, s') := h
      exact ⟨trivial, answers_of_performClient h'⟩
    | delay =>
      have h' : performClient k .delay s = some (r, s') := h
      exact ⟨trivial, answers_of_performClient h'⟩
  cut _ _ _ _ h := by cases h
  crash _ _ h := by cases h

def cachingOptions : Options := ⟨"web".toList, "prod".toList, some "/var/lib/web/config.json"⟩

/-- Two refreshes at once, answered one after the other. -/
def orderlyRefreshes : Pool lang Request Unit := (orderlyClientDriver cachingOptions).drive ⟨{}, []⟩
  [.arrive .refresh, .arrive .refresh, .run 1 1, .run 1 0, .run 1 0, .run 1 0, .run 0 1, .run 0 0]

theorem started_client : Started {} ({} : State) := ⟨rfl, Replaced.sound_empty, rfl, rfl⟩

theorem orderly_refreshes_are_in_order :
    InOrder numberedServer cachingOptions {} (orderlyClient numberedServer cachingOptions) orderlyRefreshes :=
  updates_are_in_order numberedServer cachingOptions {}
    (Driver.drive_reach (orderlyClientDriver_follows cachingOptions) started_client _)

/-- Two refreshes of a client without a cache file, the second answered with version 1. -/
def overtakenRefresh : Pool lang Request Unit := (clientDriver { cachingOptions with cachePath := none }).drive ⟨{}, []⟩
  [.arrive .refresh, .arrive .refresh, .run 1 1]

theorem commit_of_isText {commit : Option Doc} {text : List Char} (h : isText commit text = true) :
    commit = some (.str text) := by
  unfold isText at h
  split at h
  · rw [beq_iff_eq.1 h]
  · cases h

/-- The answer that the first refresh was given before arrives last, and the commit moves back. -/
theorem late_answer_moves_back : ¬ ∀ (server : Server) (options : Options) (m₀ : Memory) (p : Pool lang Request Unit),
    Reach (client server options) (Started m₀) p → InOrder server options m₀ (client server options) p := by
  intro h
  have hfollows := clientDriver_follows { cachingOptions with cachePath := none }
  have hreach : Reach (client numberedServer { cachingOptions with cachePath := none }) (Started {}) overtakenRefresh :=
    Driver.drive_reach hfollows started_client _
  have hlater := Driver.drive_steps hfollows overtakenRefresh [.run 0 0]
  have hnew : isText overtakenRefresh.state.memory.commit (versionText 1) = true := by decide +kernel
  have hold : isText ((clientDriver { cachingOptions with cachePath := none }).drive overtakenRefresh
      [.run 0 0]).state.memory.commit (versionText 0) = true := by decide +kernel
  have hforward := (h _ _ _ _ hreach).forward _ hlater 1 0 (commit_of_isText hnew) (commit_of_isText hold)
  omega

end ConfigRegistry.Client
