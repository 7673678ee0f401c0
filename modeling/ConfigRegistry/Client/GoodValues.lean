import ConfigRegistry.Client.Watching

/-!
# What a client makes of bad answers

What `refresh` and a turn of `watch` do with an answer of any status and body, and `load` with a cache file of any
content, while no other call of the client is in progress.
-/

namespace ConfigRegistry.Client

open Js Json Async

/-! ### Good answers and good entries -/

/-- The commit is a text, the config an object, and the flags are one where there are any. -/
def WellShaped (d : Doc) : Prop :=
  (∃ commit, d.member "commit" = some (.str commit)) ∧ (∃ config, d.member "config" = some (.obj config)) ∧
    (d.member "flags" = none ∨ ∃ flags, d.member "flags" = some (.obj flags))

/-- A 200 that carries an answer. -/
def GoodAnswer (status : Nat) (body : List Char) : Prop :=
  status = 200 ∧ ∃ d, Json.parse body = some d ∧ WellShaped d

/-- The text of a cache file with an entry for this service and environment. -/
def GoodEntry (options : Options) (text : List Char) : Prop :=
  ∃ d, Json.parse text = some d ∧ WellShaped d ∧ d.member "service" = some (.str options.service) ∧
    d.member "environment" = some (.str options.environment)

/-- An operation on the cache file, other than reading it. -/
def Op.Writes : Op → Prop
  | .openTemp _ | .write _ _ | .rename _ | .unlink _ => True
  | _ => False

/-- The values, every flag and the commit are unchanged, and nothing is written to the cache file. -/
structure Kept (s t : State) (vs : List (Visit lang)) : Prop where
  current : t.memory.resolved = s.memory.resolved
  flags : ∀ name fallback, t.memory.flag name fallback = s.memory.flag name fallback
  commit : t.memory.commit = s.memory.commit
  unwritten : ∀ v ∈ vs, ¬ Op.Writes v.op

/-- The client has what the answer would give it already. -/
structure Idle (s : State) (served : Served) : Prop where
  current : overlay s.memory.defaults served.config = s.memory.resolved
  flags : ∀ name fallback, (s.memory.apply served).flag name fallback = s.memory.flag name fallback
  commit : served.commit = s.memory.commit

/-- The answer is no 200, or its body is no JSON or null, or the client keeps no cache file and has what the answer
would give it. -/
def Ignored (options : Options) (s : State) (status : Nat) (body : List Char) : Prop :=
  status ≠ 200 ∨ Json.parse body = none ∨ Json.parse body = some .null ∨
    options.cachePath = none ∧ ∃ served, Served.ofAnswer status body = .ok (some served) ∧ Idle s served

/-- The client adopted a good entry, or has the defaults and its flags and commit as before. -/
def LoadedRight (options : Options) (defaults : Fields) (s : State) (q : Except Error (List Char)) (t : State) : Prop :=
  (∃ text served, q = .ok text ∧ GoodEntry options text ∧ Served.ofCache options text = some served ∧
    t.memory = (s.memory.reset defaults).adopt defaults served) ∨
  t.memory = s.memory.reset defaults

/-- The entry that the cache file gives, if any, is good, or changes nothing. -/
def Trusted (options : Options) (defaults : Fields) (s : State) (q : Except Error (List Char)) : Prop :=
  ∀ text served, q = .ok text → Served.ofCache options text = some served → GoodEntry options text ∨
    (s.memory.reset defaults).adopt defaults served = s.memory.reset defaults

/-- An operation leaves the memory of the client alone, and nobody stops its watch. -/
def remote (o : Op) (s : State) (_ : Except Error o.Res) (s' : State) : Prop :=
  s'.memory = s.memory ∧ s'.aborted = s.aborted

/-- No other call does anything. -/
def alone (_ _ : State) : Prop := False

variable (options : Options) {s t : State} {vs : List (Visit lang)}

/-! ### Answers -/

/-- A turn that does not change the memory. -/
abbrev KeepsMemory (s s' : State) : Prop := s'.memory = s.memory

theorem publish_keeps (pid : Nat) : (publish pid).Within Op.Writes KeepsMemory :=
  .handle (.op trivial) fun cause => .bind (.attempt (.op trivial)) fun _ => .fail cause

theorem writeCache_keeps (served : Served) : (writeCache options served).Within Op.Writes KeepsMemory := by
  unfold writeCache
  split
  · exact .pure ()
  · refine .get_bind (fun s => (rfl : KeepsMemory s s)) fun s => ?_
    refine .bind (.op trivial) fun inode => .bind (.op trivial) fun _ => ?_
    exact publish_keeps s.pid

theorem saving_keeps (call : Nat) (served : Served) (changed : Bool) :
    (saving options call served changed).Within Op.Writes KeepsMemory := by
  refine .bind (.handle (writeCache_keeps options served) fun _ => .modify fun _ => rfl) fun _ => ?_
  exact .modify fun s => s.memory_release call

theorem waits_keeps {o : Op} {q : Except Error o.Res} {states : List State}
    (h : Waits (S := lang) remote alone o s q states t) : t.memory = s.memory ∧ t.aborted = s.aborted := by
  constructor
  · exact h.keeps (f := fun s : State => s.memory) (fun _ _ _ _ hs => hs.1) fun _ _ hs => hs.elim
  · exact h.keeps (f := fun s : State => s.aborted) (fun _ _ _ _ hs => hs.2) fun _ _ hs => hs.elim

/-- A client that keeps a cache file writes each answer it applies. -/
theorem apply_writes {call : Nat} {served : Served} {r : Except Error Unit}
    (h : Traces (S := lang) remote alone (apply options call served) s vs r t) :
    t.memory = s.memory.apply served ∧ ((∀ v ∈ vs, ¬ Op.Writes v.op) ↔ options.cachePath = none) := by
  unfold apply at h
  replace h := traces_modify_bind.1 (traces_get_bind.1 h)
  have hwithin := saving_keeps options call served (!identical served.commit s.memory.commit)
  have hmemory : t.memory = (s.apply served).memory :=
    Traces.keeps (f := fun s : State => s.memory) h hwithin (fun _ _ _ _ hs => hs.1) fun _ _ hs => hs.elim
  refine ⟨hmemory, ?_⟩
  have hall := h.ops hwithin
  have hnil : (∀ v ∈ vs, ¬ Op.Writes v.op) ↔ vs = [] := by
    constructor
    · intro hnone
      rw [List.eq_nil_iff_forall_not_mem]
      intro v hv
      exact hnone v hv (hall v hv)
    · rintro rfl
      simp
  rw [hnil]
  cases hpath : options.cachePath with
  | none =>
    refine iff_of_true ?_ rfl
    have hwrite : writeCache options served = pure () := by
      unfold writeCache
      rw [hpath]
    rw [hwrite] at h
    exact (traces_modify.1 h).1
  | some path =>
    refine iff_of_false ?_ (by simp)
    rintro rfl
    unfold writeCache at h
    rw [hpath] at h
    obtain ⟨q, states, s', rest, -, -, hcontra⟩ := traces_await.1 (traces_turn.1 h)
    cases hcontra

theorem ofAnswer_cases (status : Nat) (body : List Char) :
    (∃ served, Served.ofAnswer status body = .ok (some served) ∧ status = 200 ∧ Json.parse body ≠ none ∧
      Json.parse body ≠ some .null) ∨
    (Served.ofAnswer status body = .ok none ∧ status ≠ 200) ∨
    ((∃ e, Served.ofAnswer status body = .error e) ∧ (Json.parse body = none ∨ Json.parse body = some .null)) := by
  unfold Served.ofAnswer
  by_cases hstatus : status ≠ 200
  · rw [if_pos hstatus]
    exact .inr (.inl ⟨rfl, hstatus⟩)
  · rw [if_neg hstatus]
    have h200 : status = 200 := by omega
    cases hparse : Json.parse body with
    | none => exact .inr (.inr ⟨⟨_, rfl⟩, .inl rfl⟩)
    | some d =>
      cases d with
      | null => exact .inr (.inr ⟨⟨_, rfl⟩, .inr rfl⟩)
      | _ => exact .inl ⟨_, rfl, h200, by simp, by simp⟩

/-- An answer that is applied keeps the good values just where it is ignored. -/
theorem kept_applied_iff {call status : Nat} {body : List Char} {served : Served}
    (hserved : Served.ofAnswer status body = .ok (some served)) {s₁ : State} (hmemory : s₁.memory = s.memory)
    {v : Visit lang} (hv : ¬ Op.Writes v.op) {r : Except Error Unit}
    (h : Traces (S := lang) remote alone (apply options call served) s₁ vs r t) :
    Kept s t (v :: vs) ↔ Ignored options s status body := by
  obtain ⟨ht, hwrites⟩ := apply_writes options h
  rw [hmemory] at ht
  have hignored : Ignored options s status body ↔ options.cachePath = none ∧ Idle s served := by
    unfold Ignored
    rcases ofAnswer_cases status body with ⟨served', h', h200, hnone, hnull⟩ | ⟨h', -⟩ | ⟨⟨e, h'⟩, -⟩
    · rw [hserved] at h'
      obtain rfl := Option.some.inj (Except.ok.inj h')
      constructor
      · rintro (hcontra | hcontra | hcontra | ⟨hpath, served'', h'', hidle⟩)
        · exact (hcontra h200).elim
        · exact (hnone hcontra).elim
        · exact (hnull hcontra).elim
        · rw [hserved] at h''
          obtain rfl := Option.some.inj (Except.ok.inj h'')
          exact ⟨hpath, hidle⟩
      · rintro ⟨hpath, hidle⟩
        exact .inr (.inr (.inr ⟨hpath, _, hserved, hidle⟩))
    · rw [hserved] at h'
      cases h'
    · rw [hserved] at h'
      cases h'
  rw [hignored]
  constructor
  · rintro ⟨hcurrent, hflags, hcommit, hunwritten⟩
    rw [ht] at hcurrent hflags hcommit
    exact ⟨hwrites.1 (List.forall_mem_cons.1 hunwritten).2, hcurrent, hflags, hcommit⟩
  · rintro ⟨hpath, hcurrent, hflags, hcommit⟩
    constructor
    · rw [ht]
      exact hcurrent
    · rw [ht]
      exact hflags
    · rw [ht]
      exact hcommit
    · exact List.forall_mem_cons.2 ⟨hv, hwrites.2 hpath⟩

/-- An answer that is not applied is ignored, and keeps the good values. -/
theorem kept_refused_iff {status : Nat} {body : List Char} (hserved : ∀ served,
    Served.ofAnswer status body ≠ .ok (some served)) (ht : t.memory = s.memory)
    (hvs : ∀ v ∈ vs, ¬ Op.Writes v.op) : Kept s t vs ↔ Ignored options s status body := by
  refine iff_of_true ⟨by rw [ht], by simp [ht], by rw [ht], hvs⟩ ?_
  rcases ofAnswer_cases status body with ⟨served, h, -⟩ | ⟨-, hstatus⟩ | ⟨-, hnone | hnull⟩
  · exact (hserved served h).elim
  · exact .inl hstatus
  · exact .inr (.inl hnone)
  · exact .inr (.inr (.inl hnull))

/-- The answer to the request of a refresh or a turn. -/
def firstAnswer (vs : List (Visit lang)) : Option (Except Error (Nat × List Char)) := vs.head?.bind answerOf

theorem refresh_kept_iff {call status : Nat} {body : List Char} {b : Except Error Bool}
    (h : Traces (S := lang) remote alone (refresh options call) s vs b t)
    (hanswer : firstAnswer vs = some (.ok (status, body))) : Kept s t vs ↔ Ignored options s status body := by
  unfold refresh at h
  obtain ⟨served, vs₁, s₁, vs₂, hfetch, hrest, rfl⟩ := traces_attempt_bind.1 h
  obtain ⟨q, states, rfl, rfl, hwaits⟩ := fetch_visits hfetch
  obtain rfl := Option.some.inj hanswer
  have hmemory : s₁.memory = s.memory := (waits_keeps hwaits).1
  have hfirst : ∀ v ∈ [(⟨Op.fetch call (Option.filter truthy none), .ok (status, body), states⟩ : Visit lang)],
      ¬ Op.Writes v.op := by simp [Op.Writes]
  have hreceived : received (.ok (status, body)) = Served.ofAnswer status body := rfl
  rw [hreceived] at hrest
  cases hserved : Served.ofAnswer status body with
  | error e =>
    rw [hserved] at hrest
    obtain ⟨rfl, -, rfl⟩ := traces_pure.1 hrest
    exact kept_refused_iff options (by simp [hserved]) hmemory hfirst
  | ok served =>
    rw [hserved] at hrest
    cases served with
    | none =>
      obtain ⟨rfl, -, rfl⟩ := traces_pure.1 hrest
      exact kept_refused_iff options (by simp [hserved]) hmemory hfirst
    | some served =>
      rcases traces_bind.1 (traces_get_bind.1 hrest) with ⟨u, vs₃, s₂, vs₄, happly, hend, rfl⟩ | ⟨e, -, happly⟩
      · obtain ⟨rfl, -, rfl⟩ := traces_pure.1 hend
        rw [List.append_nil]
        exact kept_applied_iff options hserved hmemory (hfirst _ (List.mem_singleton_self _)) happly
      · exact kept_applied_iff options hserved hmemory (hfirst _ (List.mem_singleton_self _)) happly

theorem watchTurn_kept_iff {call status : Nat} {body : List Char} {b : Except Error Bool}
    (h : Traces (S := lang) remote alone (watchTurn options call) s vs b t)
    (hanswer : firstAnswer vs = some (.ok (status, body))) (hs : s.aborted.contains call = false) :
    Kept s t vs ↔ Ignored options s status body := by
  obtain ⟨q, states, s₁, rest, rfl, hwaits, hturned⟩ := turn_visits options h
  obtain rfl := Option.some.inj hanswer
  have hkeeps := waits_keeps hwaits
  have hmemory : s₁.memory = s.memory := hkeeps.1
  have haborted : s₁.aborted = s.aborted := hkeeps.2
  have hreceived : received (.ok (status, body)) = Served.ofAnswer status body := rfl
  rw [hreceived] at hturned
  have hfirst : ¬ Op.Writes (Op.fetch call (s.memory.commit.filter truthy)) := id
  cases hserved : Served.ofAnswer status body with
  | error e =>
    rw [hserved] at hturned
    cases hturned with
    | failed hdelay =>
      refine kept_refused_iff options (by simp [hserved]) ((waits_keeps hdelay).1.trans hmemory) ?_
      simp [Op.Writes]
  | ok served =>
    rw [hserved] at hturned
    cases hturned with
    | stopped hstopped =>
      rw [haborted, hs] at hstopped
      cases hstopped
    | unchanged =>
      refine kept_refused_iff options (by simp [hserved]) hmemory ?_
      simp [Op.Writes]
    | applied happly => exact kept_applied_iff options hserved hmemory hfirst happly

/-! ### The cache file -/

/-- What `readCache` returns for what came of reading the file. -/
def cachedOf (q : Except Error (List Char)) : Option Served :=
  match q with
  | .ok text => Served.ofCache options text
  | .error _ => none

theorem readCache_visits {r : Except Error (Option Served)}
    (h : Traces (S := lang) remote alone (readCache options) s vs r t) :
    vs = [] ∧ r = .ok none ∧ t = s ∨ ∃ q states, vs = [⟨Op.readCache, q, states⟩] ∧ r = .ok (cachedOf options q) ∧
      Waits (S := lang) remote alone Op.readCache s q states t := by
  unfold readCache at h
  split at h
  · exact .inl (traces_pure.1 h)
  · obtain ⟨q, vs₁, s₁, vs₂, hop, hrest, rfl⟩ := traces_attempt_bind.1 h
    obtain ⟨states, hwaits, rfl⟩ := traces_op.1 hop
    right
    cases q with
    | error e =>
      obtain ⟨rfl, rfl, rfl⟩ := traces_pure.1 hrest
      exact ⟨_, states, rfl, rfl, hwaits⟩
    | ok text =>
      obtain ⟨rfl, rfl, rfl⟩ := traces_pure.1 hrest
      exact ⟨_, states, rfl, rfl, hwaits⟩

/-- Where `load` ends: without a cached answer at the defaults. -/
theorem load_memory {defaults : Fields} {r : Except Error Unit}
    (h : Traces (S := lang) remote alone (load options defaults) s vs r t) :
    vs = [] ∧ t.memory = s.memory.reset defaults ∨ ∃ q states, vs = [⟨Op.readCache, q, states⟩] ∧
      t.memory = ((cachedOf options q).map ((s.memory.reset defaults).adopt defaults)).getD
        (s.memory.reset defaults) := by
  unfold load at h
  replace h := traces_modify_bind.1 h
  rcases traces_bind.1 h with ⟨cached, vs₁, s₁, vs₂, hread, hrest, rfl⟩ | ⟨e, -, hread⟩
  · rcases readCache_visits options hread with ⟨rfl, hcached, rfl⟩ | ⟨q, states, rfl, hcached, hwaits⟩
    · obtain rfl := Except.ok.inj hcached
      obtain ⟨rfl, -, rfl⟩ := traces_pure.1 hrest
      exact .inl ⟨rfl, rfl⟩
    · obtain rfl := Except.ok.inj hcached
      have hmemory := (waits_keeps hwaits).1
      right
      cases hcached : cachedOf options q with
      | none =>
        rw [hcached] at hrest
        obtain ⟨rfl, -, rfl⟩ := traces_pure.1 hrest
        exact ⟨q, states, rfl, by rw [hcached]; exact hmemory⟩
      | some served =>
        rw [hcached] at hrest
        obtain ⟨rfl, -, rfl⟩ := traces_modify.1 hrest
        refine ⟨q, states, rfl, ?_⟩
        rw [hcached]
        exact congrArg (fun m : Memory => m.adopt defaults served) hmemory
  · rcases readCache_visits options hread with ⟨-, hcontra, -⟩ | ⟨q, states, -, hcontra, -⟩
    · cases hcontra
    · cases hcontra

theorem load_right_iff {defaults : Fields} {q : Except Error (List Char)} {states : List State}
    {r : Except Error Unit} (h : Traces (S := lang) remote alone (load options defaults) s vs r t)
    (hvs : vs = [⟨Op.readCache, q, states⟩]) :
    LoadedRight options defaults s q t ↔ Trusted options defaults s q := by
  obtain ⟨q', states', heq, ht⟩ := (load_memory options h).resolve_left (by simp [hvs])
  rw [hvs] at heq
  cases heq
  unfold LoadedRight Trusted
  cases q with
  | error e =>
    refine iff_of_true (.inr ht) ?_
    intro text served hcontra
    cases hcontra
  | ok text =>
    have hof : cachedOf options (.ok text) = Served.ofCache options text := rfl
    rw [hof] at ht
    cases hcached : Served.ofCache options text with
    | none =>
      rw [hcached] at ht
      refine iff_of_true (.inr ht) ?_
      intro text' served htext hserved
      obtain rfl := Except.ok.inj htext
      rw [hcached] at hserved
      cases hserved
    | some served =>
      rw [hcached] at ht
      constructor
      · rintro (⟨text', served', htext, hgood, -⟩ | hsame) text'' served'' htext'' hserved''
        · obtain rfl := Except.ok.inj htext''
          obtain rfl := Except.ok.inj htext
          exact .inl hgood
        · obtain rfl := Except.ok.inj htext''
          rw [hcached] at hserved''
          obtain rfl := Option.some.inj hserved''
          exact .inr (ht.symm.trans hsame)
      · intro htrusted
        rcases htrusted text served rfl hcached with hgood | hsame
        · exact .inl ⟨text, served, rfl, hgood, hcached, ht⟩
        · exact .inr (ht.trans hsame)

def plainOptions : Options := ⟨"web".toList, "prod".toList, none⟩

/-- A client with the values of a commit. -/
def settled : State := { memory := { commit := some (.str "a".toList) } }

def emptyAnswer : Served := ⟨none, .obj [], .obj []⟩

/-- The request of a refresh that is answered with an empty object. -/
def emptied : Visit lang :=
  ⟨Op.fetch 0 none, (.ok (200, "{}".toList) : Except Error (Nat × List Char)), [settled.request 0, settled.request 0]⟩

theorem emptied_traced : ∃ t : State, t.memory = settled.memory.apply emptyAnswer ∧
    Traces (S := lang) remote alone (refresh plainOptions 0) settled [emptied] (.ok true) t := by
  have hfetch : Traces (S := lang) remote alone (fetch 0 none) settled [emptied] (.ok (some emptyAnswer))
      (settled.request 0) := traces_modify_bind.2 (.await (.here _) ⟨rfl, rfl⟩ (.here _) (.done _ _))
  have happly : Traces (S := lang) remote alone (apply plainOptions 0 emptyAnswer) (settled.request 0) [] (.ok ())
      { (settled.request 0).apply emptyAnswer with notified := 1 } :=
    traces_get_bind.2 (traces_modify_bind.2 (.turn (.done _ _)))
  refine ⟨{ (settled.request 0).apply emptyAnswer with notified := 1 }, rfl,
    traces_attempt_bind.2 ⟨_, _, _, [], hfetch, ?_, rfl⟩⟩
  exact traces_get_bind.2 (traces_bind.2 (.inl ⟨(), [], _, [], happly, .done _ _, rfl⟩))

theorem emptied_is_bad : ¬ GoodAnswer 200 "{}".toList := by
  rintro ⟨-, d, hparse, ⟨commit, hcommit⟩, -⟩
  have hempty : Json.parse "{}".toList = some (.obj []) := rfl
  rw [hempty] at hparse
  obtain rfl := Option.some.inj hparse
  cases hcommit

end ConfigRegistry.Client
