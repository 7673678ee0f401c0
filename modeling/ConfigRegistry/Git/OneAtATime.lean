import ConfigRegistry.Async.Triple
import ConfigRegistry.Git.Activities

/-!
# One activity at a time

The rules of the runs in which the activities on the clone follow one another: syncs share one
promise, and a retry or a pull comes when nothing else is in progress. `Sound` is what such a run
keeps; `Lets` is what an activity may rely on while it is suspended, which is that nothing but the
database and the list of calls changes.
-/

namespace ConfigRegistry.Git

open Js Async

/-- Between two steps of one activity comes a step of another. -/
def Interleaved (trace : List Nat) : Prop := ∃ t u, t ≠ u ∧ [t, u, t].Sublist trace

/-- The last step was one of `t`, unless it has made none. -/
def Latest (t : Nat) (trace : List Nat) : Prop := t ∈ trace → trace.head? = some t

theorem latest_cons (t : Nat) (trace : List Nat) : Latest t (t :: trace) := fun _ => rfl

theorem latest_of_notMem {t : Nat} {trace : List Nat} (h : t ∉ trace) : Latest t trace :=
  fun hmem => (h hmem).elim

/-- One more step of the activity that made the last one. -/
theorem not_interleaved_cons {t : Nat} {trace : List Nat} (h : ¬ Interleaved trace)
    (hlatest : Latest t trace) : ¬ Interleaved (t :: trace) := by
  rintro ⟨a, b, hab, hsub⟩
  cases hsub with
  | cons _ hsub => exact h ⟨a, b, hab, hsub⟩
  | cons_cons _ hsub =>
    have hmem : t ∈ trace := hsub.subset (by simp)
    obtain ⟨rest, rfl⟩ := List.head?_eq_some_iff.1 (hlatest hmem)
    cases hsub with
    | cons _ hsub => exact h ⟨t, b, hab, hsub.cons_cons t⟩
    | cons_cons _ _ => exact hab rfl

/-- What an activity goes through: the sync engine, or the repository itself. -/
inductive Role where
  | sync
  | apart

namespace State

variable (s : State)

/-- Who made the steps on the clone, newest first. -/
def activities : List Nat := s.trace.map Move.activity

/-- Call `t` is the sync in progress, or a retry or pull in progress. -/
def Has : Role → Nat → Prop
  | .sync, t => s.running = some t
  | .apart, t => t ∈ s.busy

/-- Call `t` has the clone. -/
def Holds (t : Nat) : Prop := s.running = some t ∨ t ∈ s.busy

/-- Call `t` has made a step on the clone, or settled a sync. -/
def Marked (t : Nat) : Prop := t ∈ s.activities ∨ ∃ e ∈ s.settled, e.sync = t

variable {s}

theorem Has.holds {role : Role} {t : Nat} (h : s.Has role t) : s.Holds t := by
  cases role with
  | sync => exact .inl h
  | apart => exact .inr h

end State

def Tree.Same (a b : Tree) : Prop := ∀ path, a.lookup path = b.lookup path

/-- The sync was answered by the promise of a sync that says the database is in HEAD. -/
def Settled.Fresh (e : Settled) : Prop := ∃ r, e.result = .ok r ∧ (r.kind = .synced ∨ r.kind = .clean)

/-- The mirror is of a revision the database has had. -/
structure Mirror.Of (m : Mirror) (db : Store.Versions) : Prop where
  revision : m.revision ≤ db.revision
  source : m.source = filesOf (db.at_ m.revision)

/-- HEAD has the tree that git takes of the mirror, or a commit of its history has or replays it. -/
def Carries (rules : Rules) (m : Mirror) (head : List Commit) : Prop :=
  (headTree head).Same (m.recorded rules) ∨
    ∃ c ∈ head, ∃ tree, c.carries = some tree ∧ tree.Same (m.recorded rules)

/-- A commit of a sync has all that git takes of the mirror it was made of, and nothing else. -/
structure Made.Sound (rules : Rules) (db : Store.Versions) (c : Made) : Prop where
  mirror : c.mirror.Of db
  complete : c.tree.Same (c.mirror.recorded rules)
  differs : c.tree.differs c.parent = true
  after : ∀ e ∈ c.after, e.revision ≤ c.mirror.revision

/-- Whether retries and pulls take part in a run, and whether they come to a clean clone only. -/
structure Terms where
  apart : Prop
  tidy : Prop

section

variable (rules : Rules) (terms : Terms)

/-- What runs of one activity at a time keep. -/
structure Sound (s : State) : Prop where
  one : (s.running.toList ++ s.busy).length ≤ 1
  apart : ¬ terms.apart → s.busy = []
  grouped : ¬ Interleaved s.activities
  latest : ∀ t, s.Holds t → Latest t s.activities
  moves : terms.tidy → ∀ m ∈ s.trace, m.rewrites = true → m.dirty = false
  made : ∀ c ∈ s.made, c.Sound rules s.db
  settled : ∀ e ∈ s.settled, e.Fresh → e.mirror.Of s.db ∧ Carries rules e.mirror e.head
  /-- The running sync's snapshot, and that of one that has settled, is not older than a call that
  was not late. -/
  calls : ∀ c ∈ s.calls, c.revision ≤ s.db.revision
  snapshot : ∀ c ∈ s.calls, s.running = some c.sync → c.late = false →
    ∀ m, s.taken = some m → c.revision ≤ m
  answered : ∀ e ∈ s.settled, e.Fresh → s.running = some e.sync → s.taken = some e.mirror.revision
  inTime : ∀ c ∈ s.calls, ∀ e ∈ s.settled, e.sync = c.sync → e.Fresh → c.late = false →
    c.revision ≤ e.mirror.revision
  served : ∀ revision files, s.served = some (revision, files) →
    revision ≤ s.db.revision ∧ files = s.db.at_ revision
  pulled : ∀ e ∈ s.pulled, e.revision ≤ s.db.revision

/-- What changes in `s` while an activity is suspended. -/
def Frame (s s' : State) : Prop := ∃ db calls, s' = { s with db, calls }

/-- What call `t` relies on. -/
structure Lets (t : Nat) (x y : World State Unit) : Prop where
  db : x.state.db.Extends y.state.db
  holds : y.state.Holds t ↔ x.state.Holds t
  frame : x.state.Holds t → Frame x.state y.state
  marked : ¬ x.state.Holds t → y.state.Marked t → x.state.Marked t

variable {rules terms}

theorem Frame.refl (s : State) : Frame s s := ⟨s.db, s.calls, rfl⟩

theorem Frame.trans {s s' s'' : State} (h : Frame s s') (h' : Frame s' s'') : Frame s s'' := by
  obtain ⟨db, calls, rfl⟩ := h
  obtain ⟨db', calls', rfl⟩ := h'
  exact ⟨db', calls', rfl⟩

theorem Lets.refl (t : Nat) (x : World State Unit) : Lets t x x :=
  ⟨.refl, .rfl, fun _ => .refl _, fun _ => id⟩

theorem Lets.trans {t : Nat} {x y z : World State Unit} (h : Lets t x y) (h' : Lets t y z) :
    Lets t x z where
  db := h.db.trans h'.db
  holds := h'.holds.trans h.holds
  frame hx := (h.frame hx).trans (h'.frame (h.holds.2 hx))
  marked hx hz := h.marked hx (h'.marked (fun hy => hx (h.holds.1 hy)) hz)

theorem Mirror.Of.mono {m : Mirror} {db db' : Store.Versions} (h : m.Of db) (hdb : db.Extends db') :
    m.Of db' where
  revision := Nat.le_trans h.revision hdb.revision
  source := by rw [h.source, hdb.at_ _ h.revision]

theorem Made.Sound.mono {c : Made} {db db' : Store.Versions} (h : c.Sound rules db)
    (hdb : db.Extends db') : c.Sound rules db' :=
  ⟨h.mirror.mono hdb, h.complete, h.differs, h.after⟩

/-- A run goes on being sound when the database goes on. -/
theorem Sound.db {s : State} (h : Sound rules terms s) {db : Store.Versions}
    (hdb : s.db.Extends db) : Sound rules terms { s with db } where
  one := h.one
  apart := h.apart
  grouped := h.grouped
  latest := h.latest
  moves := h.moves
  made c hc := (h.made c hc).mono hdb
  settled e he hfresh := ⟨(h.settled e he hfresh).1.mono hdb, (h.settled e he hfresh).2⟩
  calls c hc := Nat.le_trans (h.calls c hc) hdb.revision
  snapshot := h.snapshot
  answered := h.answered
  inTime := h.inTime
  served revision files hs := by
    obtain ⟨hle, rfl⟩ := h.served revision files hs
    exact ⟨Nat.le_trans hle hdb.revision, (hdb.at_ _ hle).symm⟩
  pulled e he := Nat.le_trans (h.pulled e he) hdb.revision

/-- Only one call holds the clone. -/
theorem Sound.holds_unique {s : State} (h : Sound rules terms s) {t u : Nat} (ht : s.Holds t)
    (hu : s.Holds u) : u = t := by
  have hone := h.one
  cases hr : s.running with
  | none =>
    simp only [State.Holds, hr, reduceCtorEq, false_or] at ht hu
    simp only [hr, Option.toList_none, List.nil_append] at hone
    match hb : s.busy with
    | [] => simp [hb] at ht
    | [v] =>
      simp only [hb, List.mem_singleton] at ht hu
      exact hu.trans ht.symm
    | _ :: _ :: _ => simp [hb] at hone
  | some v =>
    simp only [hr, Option.toList_some, List.cons_append, List.nil_append, List.length_cons] at hone
    have hb : s.busy = [] := List.eq_nil_of_length_eq_zero (by omega)
    simp only [State.Holds, hr, hb, List.not_mem_nil, or_false, Option.some.injEq] at ht hu
    exact hu.symm.trans ht

/-- A step of call `t` on the clone that records nothing else. -/
structure Quiet (tidy : Prop) (t : Nat) (s s' : State) : Prop where
  db : s'.db = s.db
  running : s'.running = s.running
  busy : s'.busy = s.busy
  served : s'.served = s.served
  taken : s'.taken = s.taken
  made : s'.made = s.made
  calls : s'.calls = s.calls
  settled : s'.settled = s.settled
  pulled : s'.pulled = s.pulled
  trace : s'.trace = s.trace ∨ ∃ rewrites dirty, s'.trace = ⟨t, rewrites, dirty⟩ :: s.trace ∧
    (tidy → rewrites = true → dirty = false)

theorem Sound.quiet {t : Nat} {s s' : State} (h : Sound rules terms s) (ht : s.Holds t)
    (hq : Quiet terms.tidy t s s') : Sound rules terms s' := by
  have hholds (u : Nat) : s'.Holds u ↔ s.Holds u := by
    rw [State.Holds, State.Holds, hq.running, hq.busy]
  have hgrouped : ¬ Interleaved s'.activities ∧ ∀ u, s'.Holds u → Latest u s'.activities := by
    obtain he | ⟨rewrites, dirty, he, -⟩ := hq.trace
    · rw [State.activities, he]
      exact ⟨h.grouped, fun u hu => h.latest u ((hholds u).1 hu)⟩
    · rw [State.activities, he, List.map_cons]
      refine ⟨not_interleaved_cons h.grouped (h.latest t ht), fun u hu => ?_⟩
      rw [h.holds_unique ht ((hholds u).1 hu)]
      exact latest_cons t _
  constructor
  case one => rw [hq.running, hq.busy]; exact h.one
  case apart => rw [hq.busy]; exact h.apart
  case grouped => exact hgrouped.1
  case latest => exact hgrouped.2
  case moves =>
    intro htidy m hm hrw
    obtain he | ⟨rewrites, dirty, he, hclean⟩ := hq.trace
    · exact h.moves htidy m (he ▸ hm) hrw
    · rw [he, List.mem_cons] at hm
      obtain rfl | hm := hm
      · exact hclean htidy hrw
      · exact h.moves htidy m hm hrw
  case made => rw [hq.made, hq.db]; exact h.made
  case settled => rw [hq.settled, hq.db]; exact h.settled
  case calls => rw [hq.calls, hq.db]; exact h.calls
  case snapshot => rw [hq.calls, hq.running, hq.taken]; exact h.snapshot
  case answered => rw [hq.settled, hq.running, hq.taken]; exact h.answered
  case inTime => rw [hq.calls, hq.settled]; exact h.inTime
  case served => rw [hq.served, hq.db]; exact h.served
  case pulled => rw [hq.pulled, hq.db]; exact h.pulled

/-- The activities on the clone take turns. -/
def taking (rules : Rules) (terms : Terms) : Discipline lang where
  Ghost := Unit
  inv x := Sound rules terms x.state
  rely := Lets
  move _ _ _ := True
  parked t φ x := φ = .ended → ¬ x.state.Holds t
  unborn t x := ¬ x.state.Holds t ∧ ¬ x.state.Marked t
  rely_refl := Lets.refl
  rely_trans _ _ _ _ := Lets.trans
  move_refl _ _ := trivial
  move_trans _ _ _ _ _ _ := trivial
  parked_rely _ _ _ _ hp h hφ hy := hp hφ (h.holds.1 hy)
  unborn_rely _ _ _ hx h := ⟨fun hy => hx.1 (h.holds.1 hy), fun hy => hx.2 (h.marked hx.1 hy)⟩

/-- What a call does to who holds the clone and to the marks. -/
structure Leaves (t : Nat) (s s' : State) : Prop where
  db : s.db.Extends s'.db
  holds : ∀ u, u ≠ t → (s'.Holds u ↔ s.Holds u)
  marked : ∀ u, u ≠ t → s'.Marked u → s.Marked u

/-- A step of the call that holds the clone, or of one that changes nothing but the database and the
list of calls. -/
theorem keeps_of {t : Nat} {x : World State Unit} {s' : State} (hi : Sound rules terms x.state)
    (hi' : Sound rules terms s') (h : Leaves t x.state s')
    (hframe : x.state.Holds t ∨ Frame x.state s' ∨ ∀ u, ¬ x.state.Holds u) :
    (taking rules terms).Keeps t x ⟨s', x.ghost⟩ where
  inv := hi'
  others u hu := by
    refine ⟨h.db, h.holds u hu, fun hx => ?_, fun _ => h.marked u hu⟩
    obtain ht | hf | hn := hframe
    · exact (hu (hi.holds_unique ht hx)).elim
    · exact hf
    · exact (hn u hx).elim

/-! ### The steps of the call that holds the clone -/

/-- An operation on the clone changes the clone, the mirror that is being made and the records of
what was done. -/
theorem clone_step {o : CloneOp} {s s' : State} {r : Except Error o.Res} {t : Nat}
    (h : (sem rules).step (.on t o) s r s') :
    ∃ clone mirror made pulled pushed,
      s' = ({ s with clone, mirror, made, pulled, pushed } : State).log t o (s.dirty rules) ∧
      (made = s.made ∨ (∃ message, o = .commit message) ∧
        s.clone.index.differs s.headTree = true ∧
        made = ⟨s.clone.index, s.headTree, s.mirror, s.pulled⟩ :: s.made) ∧
      ∀ e ∈ pulled, e ∈ s.pulled ∨ e.revision = s.db.revision := by
  have hkept : ∀ e ∈ s.pulled, e ∈ s.pulled ∨ e.revision = s.db.revision := fun _ he => .inl he
  cases r with
  | ok a =>
    obtain ⟨s₁, h, rfl⟩ := h
    cases o with
    | commit message =>
      obtain ⟨hd, sha, rfl⟩ := h
      exact ⟨_, _, _, _, _, rfl, .inr ⟨⟨message, rfl⟩, hd, rfl⟩, hkept⟩
    | merge =>
      obtain ⟨-, rfl⟩ | ⟨tree, index, -, rfl⟩ := h
      · exact ⟨_, _, _, _, _, rfl, .inl rfl, hkept⟩
      · refine ⟨_, _, _, _, _, rfl, .inl rfl, fun e he => ?_⟩
        obtain he | he := List.mem_append.1 he
        · obtain ⟨path, -, rfl⟩ := List.mem_map.1 he
          exact .inr rfl
        · exact .inl he
    | createTemporary temporary content =>
      obtain ⟨-, rfl⟩ := h
      exact ⟨_, _, _, _, _, rfl, .inl rfl, hkept⟩
    | renameTemporary temporary path =>
      obtain ⟨node, -, rfl⟩ := h
      exact ⟨_, _, _, _, _, rfl, .inl rfl, hkept⟩
    | rebase =>
      obtain ⟨-, -, tree, head, -, rfl, -⟩ := h
      exact ⟨_, _, _, _, _, rfl, .inl rfl, hkept⟩
    | abort =>
      obtain ⟨orig, tree, -, rfl, -⟩ := h
      exact ⟨_, _, _, _, _, rfl, .inl rfl, hkept⟩
    | collectFiles | status | diffCached | headCommit | unpushed =>
      obtain ⟨-, rfl⟩ := h
      exact ⟨_, _, _, _, _, rfl, .inl rfl, hkept⟩
    | mkdir | remove path | add | push =>
      obtain rfl := h
      exact ⟨_, _, _, _, _, rfl, .inl rfl, hkept⟩
  | error e =>
    obtain ⟨s₁, h, rfl⟩ := h
    cases o with
    | commit message =>
      obtain rfl | ⟨hd, sha, rfl⟩ := h
      · exact ⟨_, _, _, _, _, rfl, .inl rfl, hkept⟩
      · exact ⟨_, _, _, _, _, rfl, .inr ⟨⟨message, rfl⟩, hd, rfl⟩, hkept⟩
    | remove path =>
      obtain rfl | rfl := h <;> exact ⟨_, _, _, _, _, rfl, .inl rfl, hkept⟩
    | createTemporary temporary content =>
      obtain rfl | ⟨-, part, -, rfl⟩ := h <;> exact ⟨_, _, _, _, _, rfl, .inl rfl, hkept⟩
    | renameTemporary temporary path =>
      obtain rfl | ⟨node, -, rfl⟩ := h <;> exact ⟨_, _, _, _, _, rfl, .inl rfl, hkept⟩
    | rebase =>
      obtain rfl | ⟨-, -, tree, index, head, rfl⟩ := h <;> exact ⟨_, _, _, _, _, rfl, .inl rfl, hkept⟩
    | _ =>
      obtain rfl := h
      exact ⟨_, _, _, _, _, rfl, .inl rfl, hkept⟩

/-- A step on the clone: a commit needs its mirror complete, a rebase or merge its clone clean. -/
theorem Sound.on {t : Nat} {o : CloneOp} {s s' : State} {r : Except Error o.Res}
    (h : Sound rules terms s) (ht : s.Holds t)
    (hclean : o.rewrites = true → terms.tidy → s.dirty rules = false)
    (hmade : ∀ message, o = .commit message → s.clone.index.differs s.headTree = true →
      Made.Sound rules s.db ⟨s.clone.index, s.headTree, s.mirror, s.pulled⟩)
    (hs : (sem rules).step (.on t o) s r s') : Sound rules terms s' := by
  obtain ⟨clone, mirror, made, pulled, pushed, rfl, hm, hp⟩ := clone_step hs
  have hpulled : ∀ e ∈ pulled, e.revision ≤ s.db.revision := by
    intro e he
    obtain he | he := hp e he
    · exact h.pulled e he
    · exact Nat.le_of_eq he
  have hsound : ∀ c ∈ made, c.Sound rules s.db := by
    obtain rfl | ⟨⟨message, ho⟩, hd, rfl⟩ := hm
    · exact h.made
    · intro c hc
      obtain rfl | hc := List.mem_cons.1 hc
      · exact hmade message ho hd
      · exact h.made c hc
  have hbase : Sound rules terms { s with made, pulled } :=
    { h with made := hsound, pulled := hpulled }
  refine hbase.quiet (t := t) ht ⟨rfl, rfl, rfl, rfl, rfl, rfl, rfl, rfl, rfl, .inr ?_⟩
  exact ⟨o.rewrites, s.dirty rules, rfl, fun htidy hrw => hclean hrw htidy⟩

theorem leaves_on {t : Nat} {o : CloneOp} {s s' : State} {r : Except Error o.Res}
    (hs : (sem rules).step (.on t o) s r s') :
    s'.running = s.running ∧ s'.busy = s.busy ∧ Leaves t s s' := by
  obtain ⟨clone, mirror, made, pulled, pushed, rfl, -, -⟩ := clone_step hs
  refine ⟨rfl, rfl, .refl, fun _ _ => .rfl, fun u hu hm => ?_⟩
  obtain hm | hm := hm
  · refine .inl (List.mem_of_ne_of_mem ?_ hm)
    exact hu
  · exact .inr hm

end

end ConfigRegistry.Git
