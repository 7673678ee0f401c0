import ConfigRegistry.Async.Drive
import ConfigRegistry.Engine.Decisions

/-!
# What every run keeps

Whatever calls arrive, however they are interleaved, whatever fails or is cut short and however often the process is
killed: only the call that has a lock changes what the lock guards, and what is answered is of one moment.
-/

namespace ConfigRegistry.Engine

open Js Async Fs Store

/-- A process that has just started, on a directory that is a tree. -/
structure Fresh (s : State) : Prop extends Init s where
  rooted : Rooted s.disk
  inward : Inward s.disk

variable {fails : Op → State → Prop} {kills : Prop} {moment : State → Prop} {host : Host} {t : Nat} {s : State}

theorem serving_of_fresh (h : Fresh s) : serving.inv s ∧ ∀ t, serving.fresh t s := by
  refine ⟨⟨fun lock => ?_, h.rooted, h.inward, fun path hpath => (hpath (h.queue _)).elim⟩, fun t => ⟨fun lock => ?_, ?_⟩⟩
  · rw [h.queue lock]
    exact List.nodup_nil
  · rw [h.queue lock]
    exact List.not_mem_nil
  · rw [h.ready]
    simp [Readiness.runner]

/-- What a call has established when it ends. -/
def Establishes (host : Host) (fails : Op → State → Prop) (moment : State → Prop) (t : Nat) (c : Call)
    (r : Except Error Answer) (_ : State) : Prop :=
  IfOk (fun a => Looking fails → Owed host moment t c a) r

/-- A kill leaves the disk, and what has been answered. -/
theorem serving_survives :
    serving.Survives ((engine host fails kills).through moment) (Establishes host fails moment) where
  inv := by
    rintro s s' hi ⟨-, rfl⟩
    refine ⟨fun lock => List.nodup_nil, hi.2.rooted, hi.2.inward, fun path hpath => (hpath rfl).elim⟩
  fresh := by
    rintro t s s' - ⟨-, rfl⟩
    exact ⟨fun lock => List.not_mem_nil, by simp [State.restart, Readiness.runner]⟩
  post _ _ _ _ _ h _ := h

theorem serving_serves (p : Pool lang Call Answer) (c : Call) :
    serving.Runs ((engine host fails kills).through moment).sem p.threads.length
      (fun s => serving.fresh p.threads.length s ∧ s = p.state)
      (((engine host fails kills).through moment).body p.threads.length c)
      (Establishes host fails moment p.threads.length c) :=
  (serve_serves c).conseq (fun _ _ hs => ⟨held_nil_iff.2 hs.1, trivial⟩) fun _ _ _ hr => hr.2

theorem reach_through {p : Pool lang Call Answer} (hfresh : Fresh s) (hrun : Steps (engine host fails kills) ⟨s, []⟩ p) :
    Reach ((engine host fails kills).through (Between (engine host fails kills) ⟨s, []⟩ p)) Fresh p :=
  ⟨s, hfresh, steps_through hrun .refl⟩

theorem owed_of_run {p : Pool lang Call Answer} (hfresh : Fresh s)
    (hrun : Steps (engine host fails kills) ⟨s, []⟩ p) {c : Call} {a : Answer} (ha : p.Answered t c (.ok a))
    (hlooking : Looking fails) : Owed host (Between (engine host fails kills) ⟨s, []⟩ p) t c a := by
  have hpost := Accord.holds_killed (fun _ _ _ => Accord.Stable.const _) (fun p c _ => serving_serves p c)
    (fun _ hs => serving_of_fresh hs) serving_survives (reach_through hfresh hrun)
  exact ifOk_ok.1 (hpost.2 t c (.ok a) ha) hlooking

/-- While a call has a lock, what the lock guards is changed by that call, or by a kill: the file at a path under the
lock of the path, and all of the database under the publication lock. -/
theorem locks_guard {p p' : Pool lang Call Answer} (hfresh : Fresh s)
    (hrun : Steps (engine host fails kills) ⟨s, []⟩ p) (hstep : Step (engine host fails kills) p p') {lock : Lock}
    (hhas : Has lock t p.state) :
    lock.part p'.state = lock.part p.state ∨ p'.threads = p.threads.map Thread.kill ∨
      ∀ u, u ≠ t → p'.threads[u]? = p.threads[u]? := by
  have hmoment : Between (engine host fails kills) ⟨s, []⟩ p' p'.state := ⟨p', hrun.tail hstep, .refl, rfl⟩
  have hreach : Reach ((engine host fails kills).through (Between (engine host fails kills) ⟨s, []⟩ p')) Fresh p :=
    ⟨s, hfresh, steps_through hrun (.single hstep)⟩
  rcases Accord.step_others (fun _ _ _ => Accord.Stable.const _) (fun p c _ => serving_serves p c)
    (fun _ hs => serving_of_fresh hs) serving_survives hreach (step_through hstep hmoment) with hkill | ⟨u, hrely, hothers⟩
  · exact .inr (.inl hkill)
  · by_cases htu : t = u
    · subst htu
      exact .inr (.inr hothers)
    · exact .inl ((hrely t htu).2 lock hhas)

/-- The engine on a directory with one document, whose operations do not fail. -/
abbrev faultless : System lang Call Answer := engine plainHost (fun o _ => (unstruck o).isSome = true) False

/-- A process that has just started, on a directory with one document. -/
def stocked : State where
  disk := ⟨[(["config"], .dir), (["config", "web.yaml"], .file "a: 1")]⟩
  queue _ := []
  ready := .absent
  recoveryRequired := false
  drawn := 0
  events := []
  taken := []
  visible := []

theorem at_stocked {place : Place} {entry : Entry} (h : stocked.disk.at_ place = some entry) :
    place = [] ∨ place = ["config"] ∨ place = ["config", "web.yaml"] := by
  by_cases hnil : place = []
  · exact .inl hnil
  · rw [Disk.at_of_ne hnil] at h
    obtain ⟨before, after, hsplit, -⟩ := List.lookup_eq_some_iff.1 h
    have hmem : (place, entry) ∈ stocked.disk.entries := by
      rw [hsplit]
      simp
    simp only [stocked, List.mem_cons, Prod.mk.injEq, List.not_mem_nil, or_false] at hmem
    rcases hmem with ⟨rfl, -⟩ | ⟨rfl, -⟩
    · exact .inr (.inl rfl)
    · exact .inr (.inr rfl)

theorem fresh_stocked : Fresh stocked where
  queue _ := rfl
  ready := rfl
  healthy := rfl
  rooted := by
    intro place text _ hfile
    rcases at_stocked hfile with rfl | rfl | rfl
    · cases hfile
    · cases hfile
    · refine ⟨by decide, fun p hp hne => ?_⟩
      rw [← List.mem_inits] at hp
      simp only [List.inits, List.map_cons, List.map_nil, List.mem_cons, List.not_mem_nil, or_false] at hp
      rcases hp with rfl | rfl | rfl
      · rfl
      · rfl
      · exact (hne rfl).elim
  inward := by
    intro name hname _
    obtain ⟨entry, hentry⟩ := Option.ne_none_iff_exists'.1 hname
    rcases at_stocked hentry with hnil | hconfig | hweb
    · cases hnil
    · obtain rfl : name = "config" := List.head_eq_of_cons_eq hconfig
      exact ⟨by decide, by decide⟩
    · cases hweb

/-- A change of the document, as it is. -/
def changing : Batch where
  requests := [{ path := "config/web.yaml", content := some "a: 2", expectedEtag := some (some "a: 1"), actor := "",
                 keys := [], validate := fun _ => .ok [] }]
  checks := []
  collections := []

def faultlessDriver : Driver lang Call Answer Unit where
  body := serve plainHost
  perform _ o s := o.stepWith unstruck s

theorem faultlessDriver_follows : faultlessDriver.Follows faultless where
  body := rfl
  allow _ _ _ := trivial
  allowArrive _ _ _ := trivial
  step _ _ _ _ _ h := step_of_stepWith h
  cut _ _ _ _ h := by cases h
  crash _ _ h := by cases h

/-- The payload of a transaction is renamed to the document. -/
theorem locks_guard_stocked : ∃ p p' : Pool lang Call Answer, Steps faultless ⟨stocked, []⟩ p ∧ Step faultless p p' ∧
    Has .publication 0 p.state ∧ p'.state.database ≠ p.state.database ∧
    (Lock.publication.part p'.state = Lock.publication.part p.state ∨ p'.threads = p.threads.map Thread.kill ∨
      ∀ u, u ≠ 0 → p'.threads[u]? = p.threads[u]?) := by
  have hrun := faultlessDriver.drive_steps faultlessDriver_follows ⟨stocked, []⟩
    (.arrive (.writeMany changing) :: List.replicate 32 (.run 0 ()))
  obtain ⟨k, hthread⟩ : ∃ k, (faultlessDriver.drive ⟨stocked, []⟩
      (.arrive (.writeMany changing) :: List.replicate 32 (.run 0 ()))).threads[0]? =
      some ⟨.writeMany changing, some (.await (.rename (transaction "0" ++ ["0.stage"]) ["config", "web.yaml"]) k)⟩ :=
    ⟨_, rfl⟩
  have hstep : Step faultless _ _ := .complete trivial hthread (step_of_stepWith rfl)
  refine ⟨_, _, hrun, hstep, rfl, ?_, locks_guard fresh_stocked hrun hstep rfl⟩
  intro hsame
  have htext : some (Entry.file "a: 2") = some (Entry.file "a: 1") :=
    congrArg (fun d : Disk => d.at_ ["config", "web.yaml"]) hsame
  revert htext
  decide

/-- What a read, an etag, a revision or a snapshot tells is what the database held at one moment of the run, at which
the call had the publication lock. -/
theorem reads_tell_one_moment {p : Pool lang Call Answer} (hfresh : Fresh s)
    (hrun : Steps (engine host fails kills) ⟨s, []⟩ p) (hlooking : Looking fails) {c : Call} {a : Answer}
    (hasks : c.Asks) (ha : p.Answered t c (.ok a)) :
    ∃ m, Between (engine host fails kills) ⟨s, []⟩ p m ∧ Has .publication t m ∧ Tells host m.disk c a := by
  obtain ⟨m, hseen, htells⟩ := (owed_of_run hfresh hrun ha hlooking).1 hasks
  exact ⟨m, hseen.moment, hseen.publishes, htells⟩

theorem answers_of_alone {c : Call} {s' : State} {r : Except Error Answer}
    (h : (serve plainHost 0 c).run (Op.stepWith unstruck) stocked = some (r, s')) :
    ∃ p, Steps faultless ⟨stocked, []⟩ p ∧ p.Answered 0 c r :=
  ⟨_, steps_of_alone h, rfl⟩

theorem looking_unstruck : Looking fun o _ => (unstruck o).isSome = true := fun _ _ _ h => (by cases h)

theorem reads_tell_one_moment_stocked : ∃ p : Pool lang Call Answer, ∃ m,
    p.Answered 0 (.read "config/web.yaml") (.ok (.text (some "a: 1"))) ∧ Between faultless ⟨stocked, []⟩ p m ∧
    Has .publication 0 m ∧ Tells plainHost m.disk (.read "config/web.yaml") (.text (some "a: 1")) := by
  obtain ⟨s', hs'⟩ : ∃ s', (serve plainHost 0 (.read "config/web.yaml")).run (Op.stepWith unstruck) stocked =
      some (.ok (.text (some "a: 1")), s') := ⟨_, rfl⟩
  obtain ⟨p, hrun, ha⟩ := answers_of_alone hs'
  have hasks : Call.Asks (.read "config/web.yaml") := trivial
  obtain ⟨m, hm⟩ := reads_tell_one_moment fresh_stocked hrun looking_unstruck hasks ha
  exact ⟨p, m, ha, hm⟩

end ConfigRegistry.Engine
