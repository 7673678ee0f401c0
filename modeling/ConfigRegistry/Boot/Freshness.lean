import ConfigRegistry.Boot.RepositoryState

/-!
# The served configuration and time

Reloads read the config tree and install it in separate steps, and nothing orders the
installations of two reloads. This file shows that the served revision only grows, and ends at the
latest one, when no reload reads the config tree while another is still on its way to install what
it read; and gives a run of two reloads in which the older one installs last.
-/

namespace ConfigRegistry.Boot

open Js Store Async

/-- A read of the config tree. -/
def Op.readsConfig : Op → Bool
  | .snapshot dir => dir == "config"
  | _ => false

/-- What a reload awaits between its read of the config tree and the replacement of the cache. -/
def Op.loading : Op → Bool
  | .decrypt path _ => startsWith path "config/"
  | .read path => path == "environments.yaml" || path == "flags.yaml"
  | .assign (.flagEnvironments _) | .assign (.cache _ _) | .environments => true
  | _ => false

/-- The condition: the config tree is read only while no other reload is on its way from its own
read to its installation. -/
def oneLoad (p : Pool lang Request Unit) (t : Nat) : Prop :=
  ∀ th o, p.threads[t]? = some th → th.awaits = some o → o.readsConfig = true →
    ∀ u th' o', u ≠ t → p.threads[u]? = some th' → th'.awaits = some o' → o'.loading = false

section

variable (rt : Runtime) (decrypt : String → String → Except Error String)

/-- The service in the runs that meet the condition. -/
def serviceOneLoad (breakGlassPath : Option String) : System lang Request Unit :=
  { service rt decrypt breakGlassPath with may := oneLoad }

/-- The served tree is one of the revisions of the database. -/
def Honest (s : Server) : Prop :=
  ∀ tree, s.cache.tree = some tree → tree.Resolves decrypt rt.parseYaml s.db

/-- The served revision does not go back from `s` to `s'`. -/
def NotBack (s s' : Server) : Prop :=
  ∀ r, s.cache.commit = some r → ∃ r', s'.cache.commit = some r' ∧ r ≤ r'

/-- Every request has been answered, and without an error. -/
def AllServed (p : Pool lang Request Unit) : Prop :=
  p.threads.isEmpty = false ∧ p.threads.all Thread.succeeded = true

instance (p : Pool lang Request Unit) : Decidable (AllServed p) := instDecidableAnd

/-- The latest revision is served. -/
def Fresh (s : Server) : Prop :=
  ∃ tree, s.cache.tree = some tree ∧ tree.commit = s.db.revision ∧
    tree.Resolves decrypt rt.parseYaml s.db

/-- Who is loading what: the reload between its read and its installation with the revision it
read, the latest writer whose own reload has not installed a tree since, and whether no reload has
installed one yet. -/
structure Loads where
  load : Option (Nat × Nat)
  owe : Option Nat
  untouched : Prop

theorem NotBack.refl (s : Server) : NotBack s s := fun r hr => ⟨r, hr, Nat.le_refl r⟩

theorem NotBack.trans {s s' s'' : Server} (h : NotBack s s') (h' : NotBack s' s'') :
    NotBack s s'' := by
  intro r hr
  obtain ⟨r', hr', hle⟩ := h r hr
  obtain ⟨r'', hr'', hle'⟩ := h' r' hr'
  exact ⟨r'', hr'', Nat.le_trans hle hle'⟩

/-- What all calls keep. -/
structure Paced (x : World Server Loads) : Prop where
  honest : Honest rt decrypt x.state
  /-- What is being loaded is not older than what is served, and the current revision unless
  someone else wrote since. -/
  load : ∀ t b, x.ghost.load = some (t, b) → b ≤ x.state.db.revision ∧
    (∀ r, x.state.cache.commit = some r → r ≤ b) ∧
    (b = x.state.db.revision ∨ ∃ u, x.ghost.owe = some u ∧ u ≠ t)
  /-- When nobody is loading and nobody owes a load, the current revision is served. -/
  idle : x.ghost.load = none → x.ghost.owe = none →
    x.state.cache.commit = some x.state.db.revision ∨ x.ghost.untouched

/-- What call `t` relies on. -/
structure Undisturbed (t : Nat) (x y : World Server Loads) : Prop where
  db : x.state.db.Extends y.state.db
  notBack : NotBack x.state y.state
  load : ∀ b, x.ghost.load = some (t, b) ↔ y.ghost.load = some (t, b)
  owe : y.ghost.owe = some t → x.ghost.owe = some t
  untouched : y.ghost.untouched → x.ghost.untouched

/-- Call `t` is not loading. -/
def NotLoading (t : Nat) (x : World Server Loads) : Prop := ∀ b, x.ghost.load ≠ some (t, b)

theorem Undisturbed.refl (t : Nat) (x : World Server Loads) : Undisturbed t x x :=
  ⟨.refl, .refl _, fun _ => .rfl, id, id⟩

theorem Undisturbed.trans {t : Nat} {x y z : World Server Loads} (h : Undisturbed t x y)
    (h' : Undisturbed t y z) : Undisturbed t x z where
  db := h.db.trans h'.db
  notBack := h.notBack.trans h'.notBack
  load b := (h.load b).trans (h'.load b)
  owe := h.owe ∘ h'.owe
  untouched := h.untouched ∘ h'.untouched

theorem NotLoading.undisturbed {t : Nat} {x y : World Server Loads} (h : NotLoading t x)
    (hxy : Undisturbed t x y) : NotLoading t y :=
  fun b hb => h b ((hxy.load b).2 hb)

/-- Reloads load one at a time. -/
def loadDiscipline : Discipline lang where
  Ghost := Loads
  inv := Paced rt decrypt
  rely := Undisturbed
  move _ _ _ := True
  parked t φ x := ∀ b, x.ghost.load = some (t, b) → ∃ o, φ = .awaiting o ∧ o.loading = true
  guard _ o x := o.readsConfig = true → x.ghost.load = none
  unborn t x := NotLoading t x ∧ x.ghost.owe ≠ some t
  rely_refl := .refl
  rely_trans _ _ _ _ := .trans
  move_refl _ _ := trivial
  move_trans _ _ _ _ _ _ := trivial
  parked_rely _ _ _ _ hp hr b hb := hp b ((hr.load b).2 hb)
  unborn_rely _ _ _ h hr := ⟨h.1.undisturbed hr, fun ho => h.2 (hr.owe ho)⟩

/-- The world after the operation of call `t` failed: a reload that was loading no longer is. -/
def Loads.giveUp (t : Nat) (g : Loads) : Loads :=
  { g with load := none, owe := g.owe <|> some t }

variable {rt decrypt} {t : Nat} {x : World Server Loads} {s' : Server}

/-- A step that changes neither the database, nor the cache, nor who is loading. -/
theorem keeps_same (hi : Paced rt decrypt x) (hdb : s'.db = x.state.db)
    (hcache : s'.cache = x.state.cache) : (loadDiscipline rt decrypt).Keeps t x ⟨s', x.ghost⟩ := by
  obtain ⟨⟨db, _, _, _, _, _, cache, _⟩, g⟩ := x
  obtain ⟨db', _, _, _, _, _, cache', _⟩ := s'
  cases hdb
  cases hcache
  refine ⟨⟨hi.honest, hi.load, hi.idle⟩, fun u _ => ⟨.refl, .refl _, fun _ => .rfl, id, id⟩⟩

/-- A reload that fails on its way gives up, and whoever wrote last still owes a load. -/
theorem keeps_giveUp (hi : Paced rt decrypt x) {b : Nat} (hl : x.ghost.load = some (t, b))
    (hdb : s'.db = x.state.db) (hcache : s'.cache = x.state.cache) :
    (loadDiscipline rt decrypt).Keeps t x ⟨s', x.ghost.giveUp t⟩ := by
  obtain ⟨⟨db, _, _, _, _, _, cache, _⟩, ⟨load, owe, untouched⟩⟩ := x
  obtain ⟨db', _, _, _, _, _, cache', _⟩ := s'
  cases hdb
  cases hcache
  refine ⟨⟨hi.honest, fun u b hb => (nomatch hb), fun _ ho => ?_⟩, fun u hu => ?_⟩
  · cases owe <;> cases ho
  · refine ⟨.refl, .refl _, fun c => ?_, fun ho => ?_, id⟩
    · simp only [Loads.giveUp]
      simp only at hl
      rw [hl]
      constructor
      · rintro ⟨⟩
        exact absurd rfl hu
      · rintro ⟨⟩
    · cases owe with
      | some v => exact ho
      | none =>
        cases ho
        exact absurd rfl hu

variable (rt decrypt t) in
/-- Before its read of the config tree a reload disturbs nobody. -/
theorem performs_before {o : Op} (hcache : ∀ tree flags, o ≠ .assign (.cache tree flags)) :
    KeptBy (loadDiscipline rt decrypt) (sem decrypt) t (NotLoading t) o where
  stable y z h hr _ := h.undisturbed hr
  parked y h _ b hb := (h b hb).elim
  after r y z h hr _ := by cases r <;> exact NotLoading.undisturbed h hr
  torn _ _ _ _ h := h.elim
  effect y r s' hy hi _ hs := by
    have hsame (hdb : s'.db = y.state.db) (hcache : s'.cache = y.state.cache) :
        ∃ g, True ∧ (loadDiscipline rt decrypt).Keeps t y ⟨s', g⟩ ∧
          (loadDiscipline rt decrypt).Outcome (fun _ => NotLoading t) (fun _ => NotLoading t) r ⟨s', g⟩ :=
      ⟨y.ghost, trivial, keeps_same hi hdb hcache, by cases r <;> exact hy⟩
    cases r with
    | error e =>
      obtain ⟨-, rfl⟩ := hs
      exact hsame rfl rfl
    | ok a =>
      cases o with
      | read path => obtain ⟨-, rfl⟩ := hs; exact hsame rfl rfl
      | snapshot dir => obtain ⟨-, rfl⟩ := hs; exact hsame rfl rfl
      | readBreakGlass path => obtain rfl := hs; exact hsame rfl rfl
      | decrypt path source => obtain ⟨-, rfl⟩ := hs; exact hsame rfl rfl
      | environments => obtain ⟨-, rfl⟩ := hs; exact hsame rfl rfl
      | save sources => obtain rfl := hs; exact hsame rfl rfl
      | assign assignment =>
        obtain rfl := hs
        cases assignment with
        | registry table readAt => exact hsame rfl rfl
        | schemas set => exact hsame rfl rfl
        | record found => exact hsame rfl rfl
        | flagEnvironments names => exact hsame rfl rfl
        | cache tree flags => exact (hcache tree flags rfl).elim
      | write files =>
        -- The writer owes a load until its own reload, or a later one, has installed a tree.
        obtain rfl := hs
        have hx : y.state.db.Extends (y.state.db.publish files) := Versions.extends_publish files
        refine ⟨{ y.ghost with owe := some t }, trivial, ⟨⟨?_, ?_, ?_⟩, ?_⟩, hy⟩
        · exact fun tree ht => (hi.honest tree ht).extends hx
        · intro u b hb
          obtain ⟨hle, hcommit, -⟩ := hi.load u b hb
          refine ⟨Nat.le_succ_of_le hle, hcommit, .inr ⟨t, rfl, ?_⟩⟩
          rintro rfl
          exact hy b hb
        · exact fun _ ho => nomatch ho
        · intro u hu
          exact ⟨hx, .refl _, fun _ => .rfl, fun ho => absurd (Option.some.inj ho).symm hu, id⟩

/-- Call `t` is loading what it read of the config tree. -/
structure Loading (t : Nat) (sources : ConfigSources) (x : World Server Loads) : Prop where
  load : x.ghost.load = some (t, sources.commit)
  known : sources.commit ≤ x.state.db.revision
  sources : sources = readSources sources.commit ((x.state.db.at_ sources.commit).under "config")

theorem Loading.undisturbed {sources : ConfigSources} {y : World Server Loads}
    (h : Loading t sources x) (hr : Undisturbed t x y) : Loading t sources y where
  load := (hr.load _).1 h.load
  known := Nat.le_trans h.known hr.db.revision
  sources := by
    rw [hr.db.at_ _ h.known]
    exact h.sources

/-- The read of the config tree begins a load of the current revision. -/
theorem performs_read :
    (loadDiscipline rt decrypt).Performs (sem decrypt) t (NotLoading t) (.snapshot "config")
      ((loadDiscipline rt decrypt).Outcome (fun a => Loading t (readSources a.2 a.1))
        fun _ => NotLoading t) where
  stable y z h hr _ := h.undisturbed hr
  parked y h _ b hb := (h b hb).elim
  after r y z h hr _ := by
    cases r with
    | ok a => exact Loading.undisturbed h hr
    | error e => exact NotLoading.undisturbed h hr
  torn _ _ _ _ h := h.elim
  effect y r s' hy hi hg hs := by
    cases r with
    | error e =>
      obtain ⟨-, rfl⟩ := hs
      exact ⟨y.ghost, trivial, keeps_same hi rfl rfl, hy⟩
    | ok a =>
      obtain ⟨rfl, rfl⟩ := hs
      have hnone : y.ghost.load = none := hg rfl
      refine ⟨{ y.ghost with load := some (t, y.state.db.revision) }, trivial, ⟨⟨hi.honest, ?_, ?_⟩, ?_⟩, ?_⟩
      · rintro u b ⟨⟩
        refine ⟨Nat.le_refl _, fun r hr => ?_, .inl rfl⟩
        obtain ⟨tree, ht, rfl⟩ := Option.map_eq_some_iff.1 hr
        exact (hi.honest tree ht).known
      · exact fun hn => nomatch hn
      · intro u hu
        refine ⟨.refl, .refl _, fun b => ?_, id, id⟩
        rw [hnone]
        constructor
        · rintro ⟨⟩
        · rintro ⟨⟩
          exact absurd rfl hu
      · exact ⟨rfl, Nat.le_refl _, rfl⟩

variable (rt decrypt t) in
/-- On the way to the installation a reload only reads. It gives up when that fails, and after an
answer in `B`, with which it cannot go on. -/
theorem performs_loading (sources : ConfigSources) {o : Op} (hload : o.loading = true)
    (hcache : ∀ tree flags, o ≠ .assign (.cache tree flags)) (B : o.Res → Prop) :
    (loadDiscipline rt decrypt).Performs (sem decrypt) t (Loading t sources) o
      ((loadDiscipline rt decrypt).Outcome (fun a x => (∃ s s', o.answers decrypt s a s') ∧
        (¬ B a → Loading t sources x) ∧ (B a → NotLoading t x)) fun _ => NotLoading t) where
  stable y z h hr _ := h.undisturbed hr
  parked y h _ b hb := ⟨o, rfl, hload⟩
  after r y z h hr _ := by
    cases r with
    | ok a => exact ⟨h.1, fun hb => (h.2.1 hb).undisturbed hr, fun hb => (h.2.2 hb).undisturbed hr⟩
    | error e => exact NotLoading.undisturbed h hr
  torn _ _ _ _ h := h.elim
  effect y r s' hy hi _ hs := by
    have hunchanged : s'.db = y.state.db ∧ s'.cache = y.state.cache := by
      cases r with
      | error e => obtain ⟨-, rfl⟩ := hs; exact ⟨rfl, rfl⟩
      | ok a =>
        cases o with
        | read path => obtain ⟨-, rfl⟩ := hs; exact ⟨rfl, rfl⟩
        | snapshot dir => obtain ⟨-, rfl⟩ := hs; exact ⟨rfl, rfl⟩
        | readBreakGlass path => obtain rfl := hs; exact ⟨rfl, rfl⟩
        | decrypt path source => obtain ⟨-, rfl⟩ := hs; exact ⟨rfl, rfl⟩
        | environments => obtain ⟨-, rfl⟩ := hs; exact ⟨rfl, rfl⟩
        | save sources => cases hload
        | write files => cases hload
        | assign assignment =>
          obtain rfl := hs
          cases assignment with
          | cache tree flags => exact (hcache tree flags rfl).elim
          | registry _ _ | schemas _ | record _ | flagEnvironments _ => exact ⟨rfl, rfl⟩
    have hgone : NotLoading t ⟨s', y.ghost.giveUp t⟩ := fun b hb => nomatch hb
    have hgiveUp := keeps_giveUp hi hy.load hunchanged.1 hunchanged.2
    cases r with
    | error e => exact ⟨_, trivial, hgiveUp, hgone⟩
    | ok a =>
      by_cases hb : B a
      · exact ⟨_, trivial, hgiveUp, ⟨_, _, hs⟩, fun hn => (hn hb).elim, fun _ => hgone⟩
      · have hkeep := keeps_same (t := t) hi hunchanged.1 hunchanged.2
        refine ⟨_, trivial, hkeep, ⟨_, _, hs⟩, fun _ => ?_, fun hb' => (hb hb').elim⟩
        refine ⟨hy.load, ?_, ?_⟩
        · rw [hunchanged.1]; exact hy.known
        · rw [hunchanged.1]; exact hy.sources

/-- The reload of call `t` has installed a tree read after `t`'s own write. -/
structure Paid (t : Nat) (x : World Server Loads) : Prop where
  notLoading : NotLoading t x
  owe : x.ghost.owe ≠ some t
  touched : ¬ x.ghost.untouched

theorem Paid.undisturbed {y : World Server Loads} (h : Paid t x) (hr : Undisturbed t x y) : Paid t y :=
  ⟨h.notLoading.undisturbed hr, fun ho => h.owe (hr.owe ho), fun hu => h.touched (hr.untouched hu)⟩

/-- The installation pays what was owed when the loaded revision is the current one. -/
theorem performs_install {sources : ConfigSources} {tree : ConfigTree}
    {flags : List (String × List (String × Bool))} (hcommit : tree.commit = sources.commit)
    (hvalues : List.Forall₂ (ResolvesTo decrypt rt.parseYaml) sources.sources tree.namespaces) :
    (loadDiscipline rt decrypt).Performs (sem decrypt) t (Loading t sources) (.assign (.cache tree flags))
      ((loadDiscipline rt decrypt).Outcome (fun _ => Paid t) fun _ => NotLoading t) where
  stable y z h hr _ := h.undisturbed hr
  parked y h _ b hb := ⟨_, rfl, rfl⟩
  after r y z h hr _ := by
    cases r with
    | ok a => exact Paid.undisturbed h hr
    | error e => exact NotLoading.undisturbed h hr
  torn _ _ _ _ h := h.elim
  effect y r s' hy hi _ hs := by
    cases r with
    | error e => cases hs.1
    | ok a =>
      obtain rfl := hs
      obtain ⟨-, hold, howner⟩ := hi.load t _ hy.load
      have hres : tree.Resolves decrypt rt.parseYaml y.state.db := by
        refine ⟨by rw [hcommit]; exact hy.known, ?_⟩
        rw [hcommit, ← hy.sources]
        exact hvalues
      have hback : NotBack y.state (Assignment.apply y.state (.cache tree flags)) :=
        fun r hr => ⟨tree.commit, rfl, by rw [hcommit]; exact hold r hr⟩
      have hother : ∀ u, u ≠ t → ∀ b, y.ghost.load = some (u, b) ↔ (none : Option (Nat × Nat)) = some (u, b) := by
        intro u hu b
        rw [hy.load]
        constructor
        · rintro ⟨⟩
          exact absurd rfl hu
        · rintro ⟨⟩
      by_cases hcur : sources.commit = y.state.db.revision
      · refine ⟨⟨none, none, False⟩, trivial, ⟨⟨?_, fun u b hb => (nomatch hb), fun _ _ => .inl ?_⟩, ?_⟩, ?_⟩
        · rintro tree' ⟨⟩
          exact hres
        · exact congrArg some (hcommit.trans hcur)
        · exact fun u hu => ⟨.refl, hback, hother u hu, fun ho => (nomatch ho), False.elim⟩
        · exact ⟨fun b hb => (nomatch hb), fun ho => (nomatch ho), id⟩
      · obtain ⟨v, hv, hvt⟩ := howner.resolve_left hcur
        refine ⟨⟨none, y.ghost.owe, False⟩, trivial, ⟨⟨?_, fun u b hb => (nomatch hb), fun _ ho => ?_⟩, ?_⟩, ?_⟩
        · rintro tree' ⟨⟩
          exact hres
        · rw [hv] at ho
          cases ho
        · exact fun u hu => ⟨.refl, hback, hother u hu, id, False.elim⟩
        · refine ⟨fun b hb => (nomatch hb), fun ho => ?_, id⟩
          rw [hv] at ho
          exact hvt (Option.some.inj ho)

/-- Once it has installed a tree, a reload has only the snapshot for the next boot to save. -/
theorem performs_save (sources : ConfigSources) :
    (loadDiscipline rt decrypt).Performs (sem decrypt) t (Paid t) (.save sources)
      ((loadDiscipline rt decrypt).Outcome (fun _ => Paid t) fun _ => NotLoading t) where
  stable y z h hr _ := h.undisturbed hr
  parked y h _ b hb := (h.notLoading b hb).elim
  after r y z h hr _ := by
    cases r with
    | ok a => exact Paid.undisturbed h hr
    | error e => exact NotLoading.undisturbed h hr
  torn _ _ _ _ h := h.elim
  effect y r s' hy hi _ hs := by
    cases r with
    | error e =>
      obtain ⟨-, rfl⟩ := hs
      exact ⟨y.ghost, trivial, keeps_same hi rfl rfl, hy.notLoading⟩
    | ok a =>
      obtain rfl := hs
      exact ⟨y.ghost, trivial, keeps_same hi rfl rfl, hy.notLoading, hy.owe, hy.touched⟩

theorem startsWith_append (pre rest : String) : startsWith (pre ++ rest) pre = true := by
  rw [startsWith, String.toList_append, List.isPrefixOf_iff_prefix]
  exact List.prefix_append _ _

theorem configPath_loading (ns source : String) : (Op.decrypt (configPath ns) source).loading = true := by
  rw [Op.loading, configPath, String.append_assoc]
  exact startsWith_append _ _

theorem kept_loading (sources : ConfigSources) {o : Op} (hload : o.loading = true)
    (hcache : ∀ tree flags, o ≠ .assign (.cache tree flags)) :
    (loadDiscipline rt decrypt).Performs (sem decrypt) t (Loading t sources) o
      ((loadDiscipline rt decrypt).Outcome (fun _ => Loading t sources) fun _ => NotLoading t) := by
  refine (performs_loading rt decrypt t sources hload hcache fun _ => False).conseq ?_ ?_
  · intro r y z h hr _
    cases r with
    | ok a => exact Loading.undisturbed h hr
    | error e => exact NotLoading.undisturbed h hr
  · intro r y h
    cases r with
    | ok a => exact h.2.1 id
    | error e => exact h

theorem decrypt_loading (sources : ConfigSources) (ns source : String) :
    (loadDiscipline rt decrypt).Performs (sem decrypt) t (Loading t sources)
      (.decrypt (configPath ns) source) ((loadDiscipline rt decrypt).Outcome
        (fun plaintext x => decrypt (configPath ns) source = .ok plaintext ∧
          ParsesTo rt (configPath ns) plaintext (Loading t sources x) (NotLoading t x))
        fun _ => NotLoading t) := by
  refine (performs_loading rt decrypt t sources (configPath_loading ns source) (fun _ _ h => nomatch h)
    fun plaintext => ∃ e, parseConfig rt.parseYaml (configPath ns) plaintext = .error e).conseq ?_ ?_
  · intro r y z h hr _
    cases r with
    | ok a => exact ⟨h.1, fun c hc => (h.2.ok c hc).undisturbed hr, fun e he => (h.2.failed e he).undisturbed hr⟩
    | error e => exact NotLoading.undisturbed h hr
  · intro r y h
    cases r with
    | error e => exact h
    | ok plaintext =>
      obtain ⟨⟨s, s', hd, -⟩, hgood, hbad⟩ := h
      refine ⟨hd, fun config hc => hgood ?_, fun e he => hbad ⟨e, he⟩⟩
      rintro ⟨e, he⟩
      rw [hc] at he
      cases he

theorem onCache_triple :
    (loadDiscipline rt decrypt).Triple (sem decrypt) t (NotLoading t) (onCache rt)
      ((loadDiscipline rt decrypt).Outcome (fun _ => Paid t) fun _ => NotLoading t) := by
  unfold onCache dbSources
  simp only [bind_assoc]
  refine performs_read.bind (fun found => ?_) fun _ _ _ h => h
  simp only [Prog.pure_bind']
  have hresolve := resolve_triple rt decrypt (loadDiscipline rt decrypt) (sem decrypt) t
    (Loading t (readSources found.2 found.1)) (NotLoading t) (decrypt_loading _)
    (readSources found.2 found.1)
  refine hresolve.bind (fun tree => ?_) fun _ _ _ h => h
  refine .assume fun ⟨hcommit, hvalues⟩ => ?_
  have hflags := flagsByEnvironment_triple rt (loadDiscipline rt decrypt) (sem decrypt) t
    (Loading t (readSources found.2 found.1)) (NotLoading t)
    (fun path hp => kept_loading _ (by
      simp only [List.mem_cons, List.not_mem_nil, or_false] at hp
      obtain rfl | rfl := hp <;> rfl) fun _ _ h => nomatch h)
    (fun names => kept_loading _ rfl fun _ _ h => nomatch h)
    (kept_loading _ rfl fun _ _ h => nomatch h)
  refine hflags.bind (fun flags => ?_) fun _ _ _ h => h
  refine (performs_install hcommit hvalues).bind (fun _ => ?_) fun _ _ _ h => h
  exact (performs_save _).triple

theorem reload_triple (breakGlassPath : Option String) :
    (loadDiscipline rt decrypt).Triple (sem decrypt) t (NotLoading t) (reload rt breakGlassPath)
      ((loadDiscipline rt decrypt).Outcome (fun _ => Paid t) fun _ => NotLoading t) := by
  have hkept (o : Op) (ho : ∀ tree flags, o ≠ .assign (.cache tree flags)) :=
    performs_before rt decrypt t ho
  unfold reload
  refine Discipline.Triple.bind (reloadRegistry_part (hkept _ fun _ _ h => nomatch h)
    fun _ _ => hkept _ fun _ _ h => nomatch h) (fun _ => ?_) fun _ _ _ h => h
  refine Discipline.Triple.bind (reloadSchemas_part (hkept _ fun _ _ h => nomatch h)
    fun _ => hkept _ fun _ _ h => nomatch h) (fun _ => ?_) fun _ _ _ h => h
  refine Discipline.Triple.bind (reloadBreakGlass_part (fun _ => hkept _ fun _ _ h => nomatch h)
    (fun _ _ => hkept _ fun _ _ h => nomatch h) (fun _ => hkept _ fun _ _ h => nomatch h)
    breakGlassPath) (fun _ => ?_) fun _ _ _ h => h
  exact onCache_triple

theorem serve_triple (breakGlassPath : Option String) (c : Request) :
    (loadDiscipline rt decrypt).Triple (sem decrypt) t (NotLoading t) (serve rt breakGlassPath c)
      ((loadDiscipline rt decrypt).Outcome (fun _ => Paid t) fun _ => NotLoading t) := by
  cases c with
  | reload => exact reload_triple breakGlassPath
  | save files =>
    have hwrite := performs_before rt decrypt t (o := .write files)
      fun _ _ h => nomatch h
    exact hwrite.bind (fun _ => reload_triple breakGlassPath) fun _ _ _ h => h

variable (rt decrypt) in
/-- Every request keeps the pace; one that is answered without an error has paid what it owed. -/
def loadContract (breakGlassPath : Option String) :
    Contract (loadDiscipline rt decrypt) (serviceOneLoad rt decrypt breakGlassPath) where
  post t _ r x := NotLoading t x ∧ (r = .ok () → Paid t x)
  born _ _ _ _ := True
  crashed _ _ := True
  post_rely h hr _ := ⟨h.1.undisturbed hr, fun he => (h.2 he).undisturbed hr⟩
  arrive {p c x} hp _ := by
    have hnot := (hp.unborn _ (Nat.le_refl _)).1
    refine ⟨x.ghost, trivial, .refl hp.inv, Contract.wp_of_triple (serve_triple breakGlassPath c)
      hnot hp.inv fun r y hi h => ⟨y.ghost, trivial, .refl hi, ?_⟩⟩
    cases r with
    | ok a =>
      have hpaid : Paid p.threads.length y := h
      exact ⟨fun b hb => (hpaid.notLoading b hb).elim, hpaid.notLoading, fun _ => hpaid⟩
    | error e =>
      have hnot : NotLoading p.threads.length y := h
      exact ⟨fun b hb => (hnot b hb).elim, hnot, fun he => nomatch he⟩
  allowed {p x t th o} hp hmay hth ho hread := by
    by_contra hne
    obtain ⟨⟨u, b⟩, hl⟩ := Option.ne_none_iff_exists'.1 hne
    have hlive : ∀ th', p.threads[u]? = some th' → ∃ o', th'.awaits = some o' ∧ o'.loading = true :=
      fun th' hu =>
        let ⟨o', hphase, hload⟩ := hp.parked u th' hu b hl
        ⟨o', Thread.awaits_of_phase hphase, hload⟩
    by_cases hut : u = t
    · subst hut
      obtain ⟨o', ho', hload⟩ := hlive th hth
      rw [ho] at ho'
      cases ho'
      cases o <;> first | cases hread | cases hload
    · by_cases hlt : u < p.threads.length
      · obtain ⟨o', ho', hload⟩ := hlive _ (List.getElem?_eq_getElem hlt)
        have := hmay th o hth ho hread u _ o' hut (List.getElem?_eq_getElem hlt) ho'
        rw [hload] at this
        cases this
      · exact (hp.unborn u (by omega)).1 b hl
  crash _ h := h.elim

theorem good_of_reach {breakGlassPath : Option String} {p : Pool lang Request Unit}
    (h : Reach (serviceOneLoad rt decrypt breakGlassPath) (Honest rt decrypt) p) :
    ∃ x, (loadContract rt decrypt breakGlassPath).Good p x := by
  obtain ⟨s, hs, hrun⟩ := h
  have hinit : Paced rt decrypt ⟨s, ⟨none, none, True⟩⟩ :=
    ⟨hs, fun _ _ hb => (nomatch hb), fun _ _ => .inr trivial⟩
  obtain ⟨x, hx, -⟩ := (Contract.Good.start (C := loadContract rt decrypt breakGlassPath) hinit
    fun t => ⟨fun _ hb => (nomatch hb), fun ho => (nomatch ho)⟩).steps hrun
  exact ⟨x, hx⟩

/-- When every request has been answered without an error, the latest revision is served. -/
theorem fresh_of_good {breakGlassPath : Option String} {p : Pool lang Request Unit}
    {x : World Server Loads} (hg : (loadContract rt decrypt breakGlassPath).Good p x)
    (hdone : AllServed p) : Fresh rt decrypt p.state := by
  have hpaid : ∀ t, t < p.threads.length → Paid t x := by
    intro t ht
    have hth : p.threads[t]? = some p.threads[t] := List.getElem?_eq_getElem ht
    obtain ⟨a, ha⟩ := Thread.prog_of_succeeded
      (List.all_eq_true.1 hdone.2 _ (List.getElem_mem ht))
    have hanswered : p.Answered t p.threads[t].request (.ok ()) := by
      rw [Pool.Answered, hth, ← ha]
    exact (hg.answered hanswered).2 rfl
  have hlength : 0 < p.threads.length := by
    obtain ⟨hne, -⟩ := hdone
    rw [List.isEmpty_eq_false_iff] at hne
    exact List.length_pos_of_ne_nil hne
  have hload : x.ghost.load = none := by
    by_contra hne
    obtain ⟨⟨u, b⟩, hl⟩ := Option.ne_none_iff_exists'.1 hne
    by_cases hu : u < p.threads.length
    · exact (hpaid u hu).notLoading b hl
    · exact (hg.unborn u (by omega)).1 b hl
  have howe : x.ghost.owe = none := by
    by_contra hne
    obtain ⟨u, ho⟩ := Option.ne_none_iff_exists'.1 hne
    by_cases hu : u < p.threads.length
    · exact (hpaid u hu).owe ho
    · exact (hg.unborn u (by omega)).2 ho
  obtain hcommit | huntouched := hg.inv.idle hload howe
  · rw [hg.state] at hcommit
    obtain ⟨tree, htree, hrev⟩ := Option.map_eq_some_iff.1 hcommit
    refine ⟨tree, htree, hrev, ?_⟩
    have := hg.inv.honest
    rw [hg.state] at this
    exact this tree htree
  · exact ((hpaid 0 hlength).touched huntouched).elim

end

/-- The service on a schedule, in the runs that meet the condition. -/
def serviceOneLoadDriver (rt : Runtime) (decrypt : String → String → Except Error String)
    (breakGlassPath : Option String) : Driver lang Request Unit Bool where
  body _ c := serve rt breakGlassPath c
  perform := perform decrypt
  allow p t :=
    match p.threads[t]?.bind Thread.awaits with
    | none => true
    | some o => !o.readsConfig || (List.range p.threads.length).all fun u =>
        u == t || match p.threads[u]?.bind Thread.awaits with
          | none => true
          | some o' => !o'.loading

theorem serviceOneLoadDriver_follows (rt : Runtime) (decrypt : String → String → Except Error String)
    (breakGlassPath : Option String) :
    (serviceOneLoadDriver rt decrypt breakGlassPath).Follows
      (serviceOneLoad rt decrypt breakGlassPath) where
  body := rfl
  step _ _ _ _ _ h := step_of_perform decrypt h
  cut _ _ _ _ h := nomatch h
  crash _ _ h := nomatch h
  allowArrive _ _ _ := trivial
  allow p t h := by
    intro th o hth ho hread u th' o' hut hu ho'
    have hlt := (List.getElem?_eq_some_iff.1 hu).1
    simp only [serviceOneLoadDriver, hth, Option.bind_some, ho, hread, Bool.not_true, Bool.false_or,
      List.all_eq_true, List.mem_range, Bool.or_eq_true, beq_iff_eq] at h
    have hthis := (h u hlt).resolve_left hut
    rw [hu, Option.bind_some, ho'] at hthis
    simpa using hthis

/-- **The served configuration never goes back in time** in the runs in which reloads load one at a
time, and once every request has been answered without an error, the latest revision is served. -/
theorem served_configuration_moves_forward (rt : Runtime)
    (decrypt : String → String → Except Error String) {breakGlassPath : Option String}
    {p : Pool lang Request Unit}
    (h : Reach (serviceOneLoad rt decrypt breakGlassPath) (Honest rt decrypt) p) :
    (∀ p', Step (serviceOneLoad rt decrypt breakGlassPath) p p' → NotBack p.state p'.state) ∧
      (AllServed p → Fresh rt decrypt p.state) := by
  obtain ⟨x, hx⟩ := good_of_reach h
  refine ⟨fun p' hstep => ?_, fresh_of_good hx⟩
  obtain ⟨x', hx', hrely⟩ := hx.step_rely hstep fun _ _ hc => hc
  have := (hrely _ (Nat.le_refl _)).notBack
  rwa [hx.state, hx'.state] at this

/-- A save and another reload, one after the other on their way from reading to installing. -/
theorem served_configuration_moves_forward_save :
    let p := (serviceOneLoadDriver sampleRuntime unencrypted none).drive ⟨freshServer, []⟩
      ([.arrive .reload, .arrive (.save afterRevocation)] ++ List.replicate 12 (.run 0 true) ++
        List.replicate 14 (.run 1 true))
    (AllServed p ∧ p.state.cache.commit = some 1) ∧
      (∀ p', Step (serviceOneLoad sampleRuntime unencrypted none) p p' → NotBack p.state p'.state) ∧
      (AllServed p → Fresh sampleRuntime unencrypted p.state) :=
  ⟨by decide +kernel, served_configuration_moves_forward sampleRuntime unencrypted
    (Driver.drive_reach (serviceOneLoadDriver_follows sampleRuntime unencrypted none)
      (fun _ h => nomatch h) _)⟩

/-- A reload reads the config tree; a save commits a revision and its own reload installs it; then
the first reload installs what it read. -/
def olderInstallsLast : Pool lang Request Unit :=
  (serviceDriver unencrypted sampleRuntime none).drive ⟨freshServer, []⟩
    ([.arrive .reload, .arrive (.save afterRevocation)] ++ List.replicate 5 (.run 0 true) ++
      List.replicate 12 (.run 1 true) ++ List.replicate 6 (.run 0 true))

/-- Every request has been answered and the values of the revision before the last are served. -/
theorem older_reload_installs_last :
    ¬ ∀ p, Reach (service sampleRuntime unencrypted none) (Honest sampleRuntime unencrypted) p →
      (∀ p', Step (service sampleRuntime unencrypted none) p p' → NotBack p.state p'.state) ∧
        (AllServed p → Fresh sampleRuntime unencrypted p.state) := by
  intro h
  have hreach : Reach (service sampleRuntime unencrypted none) (Honest sampleRuntime unencrypted)
      olderInstallsLast :=
    Driver.drive_reach (serviceDriver_follows unencrypted sampleRuntime none)
      (fun _ h => nomatch h) _
  have hserved : AllServed olderInstallsLast := by decide +kernel
  have hcommit : olderInstallsLast.state.cache.commit = some 0 := by decide +kernel
  have hrevision : olderInstallsLast.state.db.revision = 1 := by decide +kernel
  obtain ⟨tree, htree, hcurrent, -⟩ := (h _ hreach).2 hserved
  rw [ConfigCache.commit, htree, Option.map_some, Option.some.injEq] at hcommit
  omega

end ConfigRegistry.Boot
