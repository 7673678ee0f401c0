import ConfigRegistry.Api.Response
import ConfigRegistry.Boot.Freshness

/-!
# One revision in one response

A reload takes the config tree from a snapshot and reads the environments and the flags afterwards,
while the response is labelled with the revision of the snapshot. This file shows that a response is
of the revision it names in the runs in which these two files are not rewritten while a reload is on
its way from its snapshot to its installation.
-/

namespace ConfigRegistry.Boot

open Js Store Async Flags Schema Api

section

variable (rt : Runtime) (decrypt : String → String → Except Error String)

/-- The environments that the files declare. -/
def environmentsOf (files : Tree) : List String :=
  (EnvironmentOrder.fromYaml rt.parseYaml ((files.lookup "environments.yaml").getD "")).all

/-- The flags that a text of `flags.yaml` gives for the environments. -/
def flagsFrom (names : List String) : Option String → List (String × List (String × Bool))
  | none => []
  | some source =>
    if source = "" then []
    else
      match validateFile rt.parseYaml (fun environment => names.contains environment) source with
      | .error _ => []
      | .ok document => names.map fun environment => (environment, document.resolveFor environment)

/-- The flags of a revision. -/
def flagsAt (files : Tree) : List (String × List (String × Bool)) :=
  flagsFrom rt (environmentsOf rt files) (files.lookup "flags.yaml")

/-- The config of a namespace at revision `a`, none where no document defines it. -/
def configAt (db : Versions) (a : Nat) (ns : String) : Option RawConfig :=
  ((readSources a ((db.at_ a).under "config")).sources.lookup ns).bind fun source =>
    ((decrypt (configPath ns) source).toOption.bind fun plaintext =>
      (parseConfig rt.parseYaml (configPath ns) plaintext).toOption)

/-- The body says what revision `a` holds of the namespace. -/
structure OfRevision (db : Versions) (service environment : String) (body : Body) (a : Nat) : Prop where
  known : a ≤ db.revision
  commit : body.commit = some a
  config : (configAt rt decrypt db a (service ++ "/" ++ environment)).map configOnly =
    some body.config
  flags : body.flags = ((flagsAt rt (db.at_ a)).lookup environment).getD []

/-- The tree and the flags that are served are those of the revision of the tree. -/
def OneRevision (s : Server) : Prop :=
  ∀ tree, s.cache.tree = some tree → tree.Resolves decrypt rt.parseYaml s.db ∧
    s.cache.flagsByEnvironment = flagsAt rt (s.db.at_ tree.commit)

/-- A read of the namespace is answered with this body. -/
def Server.Serves (s : Server) (service environment : String) (body : Body) : Prop :=
  ∃ identity, (respond s.cache s.schemas identity service environment).2 = .ok body

variable {rt decrypt}

theorem lookup_of_resolves {sources : List (String × String)} {namespaces : List (String × RawConfig)}
    (h : List.Forall₂ (ResolvesTo decrypt rt.parseYaml) sources namespaces) (ns : String) :
    namespaces.lookup ns = (sources.lookup ns).bind fun source =>
      ((decrypt (configPath ns) source).toOption.bind fun plaintext =>
        (parseConfig rt.parseYaml (configPath ns) plaintext).toOption) := by
  induction h with
  | nil => rfl
  | @cons file entry sources namespaces hfile _ ih =>
    obtain ⟨ns', source⟩ := file
    obtain ⟨ns'', config⟩ := entry
    obtain ⟨rfl, plaintext, hd, hc⟩ := hfile
    rw [List.lookup_cons, List.lookup_cons]
    cases hns : ns == ns'
    · exact ih
    · obtain rfl : ns = ns' := beq_iff_eq.1 hns
      simp only [Option.bind_some, hd, Except.toOption, hc]

/-- What is read from one revision is of that revision. -/
theorem OneRevision.serves {s : Server} (h : OneRevision rt decrypt s) {service environment : String}
    {body : Body} (hbody : s.Serves service environment body) :
    ∃ a, OfRevision rt decrypt s.db service environment body a := by
  obtain ⟨identity, hbody⟩ := hbody
  obtain ⟨hcommit, hflags, stored, hstored, hconfig⟩ := body_of_respond hbody
  obtain ⟨tree, htree, hlookup⟩ := Option.bind_eq_some_iff.1 hstored
  obtain ⟨hres, hsame⟩ := h tree htree
  refine ⟨tree.commit, hres.known, ?_, ?_, ?_⟩
  · rw [hcommit, ConfigCache.commit, htree, Option.map_some]
  · rw [configAt, ← lookup_of_resolves hres.values, hlookup, Option.map_some, hconfig]
  · rw [hflags, ConfigCache.flagsFor, hsame]

/-- Two bodies of one revision say the same. -/
theorem OfRevision.same {db db' : Versions} {service environment : String} {body body' : Body}
    {a a' : Nat} (h : OfRevision rt decrypt db service environment body a)
    (h' : OfRevision rt decrypt db' service environment body' a') (hx : db.Extends db')
    (hcommit : body.commit = body'.commit) : body.config = body'.config ∧ body.flags = body'.flags := by
  rw [h.commit, h'.commit, Option.some.injEq] at hcommit
  subst hcommit
  have hconfig := h'.config
  have hflags := h'.flags
  rw [configAt, hx.at_ _ h.known, ← configAt] at hconfig
  rw [hx.at_ _ h.known] at hflags
  exact ⟨Option.some.inj (h.config.symm.trans hconfig), h.flags.trans hflags.symm⟩

/-! ### Loads that are left alone -/

/-- The texts that a reload reads after its snapshot. -/
def flagFiles (files : Tree) : Option String × Option String :=
  (files.lookup "environments.yaml", files.lookup "flags.yaml")

/-- The condition: a transaction that rewrites `environments.yaml` or `flags.yaml` takes effect only
while no reload is on its way from its snapshot to its installation. -/
def leftAlone (p : Pool lang Request Unit) (t : Nat) : Prop :=
  ∀ th files, p.threads[t]? = some th → th.awaits = some (.write files) →
    flagFiles files = flagFiles p.state.db.current ∨
      ∀ (u : Nat) th' o', p.threads[u]? = some th' → th'.awaits = some o' → o'.loading = false

variable (rt decrypt) in
/-- The service in the runs that meet the condition. -/
def serviceLeftAlone (breakGlassPath : Option String) : System lang Request Unit :=
  { service rt decrypt breakGlassPath with may := leftAlone }

/-- The environments that were last assigned are those of the database. -/
def Named (rt : Runtime) (s : Server) : Prop := s.flagEnvironments = environmentsOf rt s.db.current

/-- The revision that each reload on its way has taken its snapshot of. -/
abbrev Snapshots : Type := Nat → Option Nat

/-- What all calls keep. -/
structure Coherent (rt : Runtime) (decrypt : String → String → Except Error String)
    (x : World Server Snapshots) : Prop where
  served : OneRevision rt decrypt x.state
  loads : ∀ t b, x.ghost t = some b → b ≤ x.state.db.revision ∧
    flagFiles (x.state.db.at_ b) = flagFiles x.state.db.current

/-- What call `t` relies on. -/
structure LeftAlone (rt : Runtime) (t : Nat) (x y : World Server Snapshots) : Prop where
  db : x.state.db.Extends y.state.db
  load : y.ghost t = x.ghost t
  named : x.ghost t ≠ none → Named rt x.state → Named rt y.state

variable (rt decrypt) in
def revisionDiscipline : Discipline lang where
  Ghost := Snapshots
  inv := Coherent rt decrypt
  rely := LeftAlone rt
  move _ _ _ := True
  parked t φ x := x.ghost t ≠ none → ∃ o, φ = .awaiting o ∧ o.loading = true
  guard _ o x := ∀ files, o = .write files →
    flagFiles files = flagFiles x.state.db.current ∨ ∀ u, x.ghost u = none
  unborn t x := x.ghost t = none
  rely_refl _ _ := ⟨.refl, rfl, fun _ h => h⟩
  rely_trans _ _ _ _ h h' := ⟨h.db.trans h'.db, h'.load.trans h.load,
    fun hl hn => h'.named (h.load ▸ hl) (h.named hl hn)⟩
  move_refl _ _ := trivial
  move_trans _ _ _ _ _ _ := trivial
  parked_rely _ _ _ _ hp hr hl := hp (hr.load ▸ hl)
  unborn_rely _ _ _ h hr := hr.load.trans h

variable {t : Nat} {x y : World Server Snapshots} {s' : Server}

/-- Call `t` is not on its way. -/
def Away (t : Nat) (x : World Server Snapshots) : Prop := x.ghost t = none

/-- Call `t` has taken its snapshot of revision `b`. -/
def OnWay (t b : Nat) (x : World Server Snapshots) : Prop := x.ghost t = some b

theorem Away.leftAlone (h : Away t x) (hr : LeftAlone rt t x y) : Away t y := hr.load.trans h

theorem stable_away : (revisionDiscipline rt decrypt).Stable t (Away t) :=
  fun _ _ h hr _ => h.leftAlone hr

/-- A step that changes neither the database, nor the cache, nor the environments. -/
theorem coherent_same (hi : Coherent rt decrypt x) (hdb : s'.db = x.state.db)
    (hcache : s'.cache = x.state.cache) (hnames : s'.flagEnvironments = x.state.flagEnvironments) :
    (revisionDiscipline rt decrypt).Keeps t x ⟨s', x.ghost⟩ := by
  obtain ⟨⟨db, _, _, _, _, names, cache, _⟩, g⟩ := x
  obtain ⟨db', _, _, _, _, names', cache', _⟩ := s'
  cases hdb
  cases hcache
  cases hnames
  exact ⟨⟨hi.served, hi.loads⟩, fun u _ => ⟨.refl, rfl, fun _ h => h⟩⟩

/-- A reload may set out from the current revision, and may stop being on its way at any moment. -/
theorem coherent_update (hi : Coherent rt decrypt x) {next : Option Nat}
    (hnext : ∀ b, next = some b → b = x.state.db.revision) :
    (revisionDiscipline rt decrypt).Keeps t x ⟨x.state, Function.update x.ghost t next⟩ := by
  refine ⟨⟨hi.served, fun u b hb => ?_⟩, fun u hu => ⟨.refl, Function.update_of_ne hu _ _, fun _ h => h⟩⟩
  have hb : Function.update x.ghost t next u = some b := hb
  by_cases hut : u = t
  · rw [hut, Function.update_self] at hb
    obtain rfl := hnext b hb
    exact ⟨Nat.le_refl _, rfl⟩
  · rw [Function.update_of_ne hut] at hb
    exact hi.loads u b hb

theorem coherent_leave (hi : Coherent rt decrypt x) :
    (revisionDiscipline rt decrypt).Keeps t x ⟨x.state, Function.update x.ghost t none⟩ := by
  refine coherent_update hi fun b hb => ?_
  cases hb

/-- Operations that change nothing of what a response is put together from. -/
def Op.idle : Op → Bool
  | .write _ | .assign (.cache _ _) | .assign (.flagEnvironments _) => false
  | _ => true

theorem same_of_idle {o : Op} (ho : o.idle = true) {s : Server} {r : Except Error o.Res}
    (h : (sem decrypt).step o s r s') :
    s'.db = s.db ∧ s'.cache = s.cache ∧ s'.flagEnvironments = s.flagEnvironments := by
  cases r with
  | error e =>
    obtain ⟨-, rfl⟩ := h
    exact ⟨rfl, rfl, rfl⟩
  | ok a =>
    cases o with
    | read path => obtain ⟨-, rfl⟩ := h; exact ⟨rfl, rfl, rfl⟩
    | snapshot dir => obtain ⟨-, rfl⟩ := h; exact ⟨rfl, rfl, rfl⟩
    | readBreakGlass path => obtain rfl := h; exact ⟨rfl, rfl, rfl⟩
    | decrypt path source => obtain ⟨-, rfl⟩ := h; exact ⟨rfl, rfl, rfl⟩
    | environments => obtain ⟨-, rfl⟩ := h; exact ⟨rfl, rfl, rfl⟩
    | save sources => obtain rfl := h; exact ⟨rfl, rfl, rfl⟩
    | write files => cases ho
    | assign assignment =>
      obtain rfl := h
      cases assignment with
      | cache tree flags => cases ho
      | flagEnvironments names => cases ho
      | registry _ _ | schemas _ | record _ => exact ⟨rfl, rfl, rfl⟩

theorem environmentsOf_congr {files files' : Tree} (h : flagFiles files = flagFiles files') :
    environmentsOf rt files = environmentsOf rt files' := by
  rw [environmentsOf, environmentsOf, (Prod.mk.inj h).1]

theorem flagsAt_congr {files files' : Tree} (h : flagFiles files = flagFiles files') :
    flagsAt rt files = flagsAt rt files' := by
  rw [flagsAt, flagsAt, environmentsOf_congr h, (Prod.mk.inj h).2]

/-- While it is not on its way, a reload disturbs nobody. -/
theorem idle_away {o : Op} (ho : o.idle = true) :
    KeptBy (revisionDiscipline rt decrypt) (sem decrypt) t (Away t) o where
  stable := stable_away
  parked _ h _ hl := (hl h).elim
  after r := by cases r <;> exact stable_away
  torn _ _ _ _ h := h.elim
  effect y r s' hy hi _ hs := by
    obtain ⟨hdb, hcache, hnames⟩ := same_of_idle ho hs
    exact ⟨y.ghost, trivial, coherent_same hi hdb hcache hnames, by cases r <;> exact hy⟩

/-- A transaction that rewrites what the reloads on their way are still to read waits for them. -/
theorem write_away (files : Tree) :
    KeptBy (revisionDiscipline rt decrypt) (sem decrypt) t (Away t) (.write files) where
  stable := stable_away
  parked _ h _ hl := (hl h).elim
  after r := by cases r <;> exact stable_away
  torn _ _ _ _ h := h.elim
  effect y r s' hy hi hg hs := by
    cases r with
    | error e =>
      obtain ⟨-, rfl⟩ := hs
      exact ⟨y.ghost, trivial, coherent_same hi rfl rfl rfl, hy⟩
    | ok a =>
      obtain rfl := hs
      have hx : y.state.db.Extends (y.state.db.publish files) := Versions.extends_publish files
      have hcurrent : (y.state.db.publish files).current = files := Function.update_self _ _ _
      have hsame : ∀ u, y.ghost u ≠ none → flagFiles files = flagFiles y.state.db.current :=
        fun u hu => (hg files rfl).resolve_right fun hnone => hu (hnone u)
      refine ⟨y.ghost, trivial, ⟨⟨fun tree htree => ?_, fun u b hb => ?_⟩, fun u _ => ⟨hx, rfl, ?_⟩⟩, hy⟩
      · obtain ⟨hres, hflags⟩ := hi.served tree htree
        refine ⟨hres.extends hx, hflags.trans ?_⟩
        rw [hx.at_ _ hres.known]
      · obtain ⟨hle, hfiles⟩ := hi.loads u b hb
        have hbusy : y.ghost u ≠ none := by
          rw [show y.ghost u = some b from hb]
          exact Option.some_ne_none b
        refine ⟨Nat.le_succ_of_le hle, ?_⟩
        rw [hx.at_ _ hle, hcurrent, hfiles, hsame u hbusy]
      · intro hbusy hnamed
        unfold Named at hnamed ⊢
        rw [hcurrent, environmentsOf_congr (hsame u hbusy)]
        exact hnamed

/-- Call `t` has taken its snapshot of revision `b`, which holds `files`; if `N`, it has assigned the
environments of these. -/
structure Taken (rt : Runtime) (t b : Nat) (files : Tree) (N : Prop) (x : World Server Snapshots) :
    Prop where
  load : OnWay t b x
  known : b ≤ x.state.db.revision
  files : x.state.db.at_ b = files
  named : N → Named rt x.state

theorem stable_taken (b : Nat) (files : Tree) (N : Prop) :
    (revisionDiscipline rt decrypt).Stable t (Taken rt t b files N) := by
  intro x y h hr _
  refine ⟨hr.load.trans h.load, Nat.le_trans h.known hr.db.revision, ?_, fun hn => ?_⟩
  · rw [hr.db.at_ _ h.known, h.files]
  · refine hr.named ?_ (h.named hn)
    rw [show x.ghost t = some b from h.load]
    exact Option.some_ne_none b

/-- The files that a reload on its way still reads are those of its snapshot. -/
theorem Taken.flagFiles {b : Nat} {files : Tree} {N : Prop} (h : Taken rt t b files N x)
    (hi : Coherent rt decrypt x) : flagFiles x.state.db.current = flagFiles files := by
  rw [← h.files, (hi.loads t b h.load).2]

/-- The snapshot of the config tree. -/
theorem snapshot_taken : (revisionDiscipline rt decrypt).Performs (sem decrypt) t (Away t)
    (.snapshot "config") ((revisionDiscipline rt decrypt).Outcome
      (fun a x => ∃ files, Taken rt t a.2 files False x ∧ a.1 = files.under "config") fun _ => Away t) where
  stable := stable_away
  parked _ h _ hl := (hl h).elim
  after r := by
    cases r with
    | ok a => exact Discipline.Stable.exists fun files => (stable_taken a.2 files False).and (.const _)
    | error e => exact stable_away
  torn _ _ _ _ h := h.elim
  effect y r s' hy hi _ hs := by
    cases r with
    | error e =>
      obtain ⟨-, rfl⟩ := hs
      exact ⟨y.ghost, trivial, coherent_same hi rfl rfl rfl, hy⟩
    | ok a =>
      obtain ⟨rfl, rfl⟩ := hs
      refine ⟨_, trivial, coherent_update hi fun b hb => ?_,
        y.state.db.current, ⟨Function.update_self _ _ _, Nat.le_refl _, rfl, False.elim⟩, rfl⟩
      cases hb
      rfl

/-- On its way a reload reads. It leaves when that fails, and after an answer in `B`, with which it
cannot go on; of its answers `φ` is known. -/
theorem idle_taken {b : Nat} {files : Tree} {N : Prop} {o : Op} (ho : o.idle = true)
    (hload : o.loading = true) (B φ : o.Res → Prop)
    (hφ : ∀ y a s', Taken rt t b files N y → Coherent rt decrypt y → o.answers decrypt y.state a s' → φ a) :
    (revisionDiscipline rt decrypt).Performs (sem decrypt) t (Taken rt t b files N) o
      ((revisionDiscipline rt decrypt).Outcome (fun a x => φ a ∧
        (¬ B a → Taken rt t b files N x) ∧ (B a → Away t x)) fun _ => Away t) where
  stable := stable_taken b files N
  parked _ _ _ _ := ⟨o, rfl, hload⟩
  after r y z h hr hi := by
    cases r with
    | ok a => exact ⟨h.1, fun hb => stable_taken b files N y z (h.2.1 hb) hr hi,
        fun hb => (h.2.2 hb).leftAlone hr⟩
    | error e => exact Away.leftAlone h hr
  torn _ _ _ _ h := h.elim
  effect y r s' hy hi _ hs := by
    obtain ⟨hdb, hcache, hnames⟩ := same_of_idle ho hs
    have hsame := coherent_same (t := t) hi hdb hcache hnames
    have hleave := hsame.trans (coherent_leave hsame.inv)
    have hgone : Away t ⟨s', Function.update y.ghost t none⟩ := Function.update_self _ _ _
    cases r with
    | error e => exact ⟨_, trivial, hleave, hgone⟩
    | ok a =>
      have hknown := hφ y a s' hy hi hs
      by_cases hb : B a
      · exact ⟨_, trivial, hleave, hknown, fun hn => (hn hb).elim, fun _ => hgone⟩
      · refine ⟨_, trivial, hsame, hknown, fun _ => ⟨hy.load, ?_, ?_, fun hn => ?_⟩, fun hb' => (hb hb').elim⟩
        · rw [hdb]; exact hy.known
        · rw [hdb]; exact hy.files
        · have hnamed := hy.named hn
          unfold Named at hnamed ⊢
          rw [hdb, hnames]
          exact hnamed

/-- A reload on its way reads one of the two files as its snapshot has it. -/
theorem read_taken {b : Nat} {files : Tree} {N : Prop} {path : String}
    (hpath : path = "environments.yaml" ∨ path = "flags.yaml") :
    (revisionDiscipline rt decrypt).Performs (sem decrypt) t (Taken rt t b files N) (.read path)
      ((revisionDiscipline rt decrypt).Outcome (fun a x => Taken rt t b files N x ∧
        a.1 = files.lookup path) fun _ => Away t) := by
  have hload : (Op.read path).loading = true := by
    rcases hpath with rfl | rfl <;> rfl
  refine (idle_taken (o := .read path) rfl hload (fun _ => False) (fun a => a.1 = files.lookup path)
    ?_).conseq (fun r => ?_) fun r x h => ?_
  · rintro y a s' hy hi ⟨rfl, -⟩
    have hsame := hy.flagFiles hi
    rcases hpath with rfl | rfl
    · exact (Prod.mk.inj hsame).1
    · exact (Prod.mk.inj hsame).2
  · cases r with
    | ok a => exact (stable_taken b files N).and (.const _)
    | error e => exact stable_away
  · cases r with
    | ok a => exact ⟨h.2.1 id, h.1⟩
    | error e => exact h

theorem assignNames_taken {b : Nat} {files : Tree} :
    (revisionDiscipline rt decrypt).Performs (sem decrypt) t (Taken rt t b files False)
      (.assign (.flagEnvironments (environmentsOf rt files)))
      ((revisionDiscipline rt decrypt).Outcome (fun _ => Taken rt t b files True) fun _ => Away t) where
  stable := stable_taken b files False
  parked _ _ _ _ := ⟨_, rfl, rfl⟩
  after r := by
    cases r with
    | ok a => exact stable_taken b files True
    | error e => exact stable_away
  torn _ _ _ _ h := h.elim
  effect y r s' hy hi _ hs := by
    cases r with
    | error e => cases hs.1
    | ok a =>
      obtain rfl := hs
      have hnamed : Named rt (Assignment.apply y.state (.flagEnvironments (environmentsOf rt files))) :=
        (environmentsOf_congr (hy.flagFiles hi)).symm
      exact ⟨y.ghost, trivial, ⟨⟨hi.served, hi.loads⟩, fun u _ => ⟨.refl, rfl, fun _ _ => hnamed⟩⟩,
        hy.load, hy.known, hy.files, fun _ => hnamed⟩

/-- The names are those that were assigned last, by whichever reload: the same ones. -/
theorem names_taken {b : Nat} {files : Tree} :
    (revisionDiscipline rt decrypt).Performs (sem decrypt) t (Taken rt t b files True) .environments
      ((revisionDiscipline rt decrypt).Outcome (fun names x => Taken rt t b files True x ∧
        names = environmentsOf rt files) fun _ => Away t) := by
  refine (idle_taken (o := .environments) rfl rfl (fun _ => False)
    (fun names => names = environmentsOf rt files) ?_).conseq (fun r => ?_) fun r x h => ?_
  · rintro y a s' hy hi ⟨rfl, -⟩
    exact (hy.named trivial).trans (environmentsOf_congr (hy.flagFiles hi))
  · cases r with
    | ok a => exact (stable_taken b files True).and (.const _)
    | error e => exact stable_away
  · cases r with
    | ok a => exact ⟨h.2.1 id, h.1⟩
    | error e => exact h

theorem decrypt_taken {b : Nat} {files : Tree} (ns source : String) :
    (revisionDiscipline rt decrypt).Performs (sem decrypt) t (Taken rt t b files False)
      (.decrypt (configPath ns) source) ((revisionDiscipline rt decrypt).Outcome
        (fun plaintext x => decrypt (configPath ns) source = .ok plaintext ∧
          ParsesTo rt (configPath ns) plaintext (Taken rt t b files False x) (Away t x))
        fun _ => Away t) := by
  refine (idle_taken (o := .decrypt (configPath ns) source) rfl (configPath_loading ns source)
    (fun plaintext => ∃ e, parseConfig rt.parseYaml (configPath ns) plaintext = .error e)
    (fun plaintext => decrypt (configPath ns) source = .ok plaintext)
    fun y a s' _ _ h => h.1).conseq (fun r => ?_) fun r x h => ?_
  · cases r with
    | ok a =>
      intro y z h hr hi
      exact ⟨h.1, fun c hc => stable_taken b files False y z (h.2.ok c hc) hr hi,
        fun e he => (h.2.failed e he).leftAlone hr⟩
    | error e => exact stable_away
  · cases r with
    | error e => exact h
    | ok plaintext =>
      refine ⟨h.1, fun config hc => h.2.1 ?_, fun e he => h.2.2 ⟨e, he⟩⟩
      rintro ⟨e, he⟩
      rw [hc] at he
      cases he

/-- The installation of the tree of the snapshot, with the flags of its files. -/
theorem install_taken {b : Nat} {files : Tree} {N : Prop} {tree : ConfigTree}
    (hcommit : tree.commit = b) (hvalues : List.Forall₂ (ResolvesTo decrypt rt.parseYaml)
      (readSources b (files.under "config")).sources tree.namespaces) :
    (revisionDiscipline rt decrypt).Performs (sem decrypt) t (Taken rt t b files N)
      (.assign (.cache tree (flagsAt rt files)))
      ((revisionDiscipline rt decrypt).Outcome (fun _ => Away t) fun _ => Away t) where
  stable := stable_taken b files N
  parked _ _ _ _ := ⟨_, rfl, rfl⟩
  after r := by cases r <;> exact stable_away
  torn _ _ _ _ h := h.elim
  effect y r s' hy hi _ hs := by
    cases r with
    | error e => cases hs.1
    | ok a =>
      obtain rfl := hs
      subst hcommit
      have hfiles := hy.files
      have hcoherent : Coherent rt decrypt
          ⟨Assignment.apply y.state (.cache tree (flagsAt rt files)), y.ghost⟩ := by
        refine ⟨fun tree' htree => ?_, hi.loads⟩
        cases htree
        exact ⟨⟨hy.known, hfiles ▸ hvalues⟩, congrArg (flagsAt rt) hfiles.symm⟩
      have hleave := coherent_leave (t := t) hcoherent
      exact ⟨_, trivial, ⟨hleave.inv, fun u hu => ⟨.refl, (hleave.others u hu).load, fun _ h => h⟩⟩,
        Function.update_self _ _ _⟩

theorem flags_triple {b : Nat} {files : Tree} :
    (revisionDiscipline rt decrypt).Triple (sem decrypt) t (Taken rt t b files False)
      (flagsByEnvironment rt) ((revisionDiscipline rt decrypt).Outcome
        (fun flags x => Taken rt t b files True x ∧ flags = flagsAt rt files) fun _ => Away t) := by
  unfold flagsByEnvironment readEnvironmentOrder
  rw [Prog.bind_assoc']
  refine (read_taken (.inl rfl)).bind (fun found => ?_) fun _ _ _ h => h
  refine .assume fun hfound => ?_
  have hnames : (EnvironmentOrder.fromYaml rt.parseYaml (found.1.getD "")).all =
      environmentsOf rt files := by rw [hfound, environmentsOf]
  simp only [Prog.pure_bind']
  rw [hnames]
  refine assignNames_taken.bind (fun _ => ?_) fun _ _ _ h => h
  refine (read_taken (.inr rfl)).bind (fun found => ?_) fun _ _ _ h => h
  refine .assume fun hflags => ?_
  obtain ⟨source, readAt⟩ := found
  cases source with
  | none => exact .done fun x hx _ => ⟨hx, by rw [flagsAt, ← hflags]; rfl⟩
  | some source =>
    by_cases hempty : source = ""
    · simp only [hempty, if_true]
      exact .done fun x hx _ => ⟨hx, by rw [flagsAt, ← hflags, hempty]; rfl⟩
    · simp only [hempty, if_false]
      refine names_taken.bind (fun names => ?_) fun _ _ _ h => h
      refine .assume fun hnames => ?_
      subst hnames
      have hat : flagsAt rt files = flagsFrom rt (environmentsOf rt files) (some source) := by
        rw [flagsAt, ← hflags]
      simp only [flagsFrom, hempty, if_false] at hat
      cases hvalid : validateFile rt.parseYaml
          (fun environment => (environmentsOf rt files).contains environment) source with
      | error _ =>
        rw [hvalid] at hat
        exact .done fun x hx _ => ⟨hx, hat.symm⟩
      | ok document =>
        rw [hvalid] at hat
        exact .done fun x hx _ => ⟨hx, hat.symm⟩

/-- From its snapshot on, a reload installs what its snapshot holds. -/
theorem load_taken (b : Nat) (files : Tree) :
    (revisionDiscipline rt decrypt).Triple (sem decrypt) t (Taken rt t b files False)
      (do
        let tree ← resolve rt (readSources b (files.under "config"))
        let flags ← flagsByEnvironment rt
        op (.assign (.cache tree flags))
        op (.save (readSources b (files.under "config"))))
      ((revisionDiscipline rt decrypt).Outcome (fun _ => Away t) fun _ => Away t) := by
  have hresolve := resolve_triple rt decrypt (revisionDiscipline rt decrypt) (sem decrypt) t
    (Taken rt t b files False) (Away t) decrypt_taken (readSources b (files.under "config"))
  refine hresolve.bind (fun tree => ?_) fun _ _ _ h => h
  refine .assume fun ⟨hcommit, hvalues⟩ => ?_
  refine flags_triple.bind (fun flags => ?_) fun _ _ _ h => h
  refine .assume fun hflags => ?_
  subst hflags
  refine (install_taken hcommit hvalues).bind (fun _ => ?_) fun _ _ _ h => h
  exact (idle_away (o := .save (readSources b (files.under "config"))) rfl).triple

theorem onCache_away : Part (revisionDiscipline rt decrypt) (sem decrypt) t (Away t) (onCache rt) := by
  unfold onCache dbSources
  simp only [bind_assoc]
  refine snapshot_taken.bind (fun found => ?_) fun _ _ _ h => h
  simp only [Prog.pure_bind']
  rintro x ⟨files, htaken, hfiles⟩ hi
  rw [hfiles]
  exact load_taken found.2 files x htaken hi

theorem reload_away (breakGlassPath : Option String) :
    Part (revisionDiscipline rt decrypt) (sem decrypt) t (Away t) (reload rt breakGlassPath) := by
  unfold reload
  refine Discipline.Triple.bind (reloadRegistry_part (idle_away rfl) fun _ _ => idle_away rfl)
    (fun _ => ?_) fun _ _ _ h => h
  refine Discipline.Triple.bind (reloadSchemas_part (idle_away rfl) fun _ => idle_away rfl)
    (fun _ => ?_) fun _ _ _ h => h
  refine Discipline.Triple.bind (reloadBreakGlass_part (fun _ => idle_away rfl)
    (fun _ _ => idle_away rfl) (fun _ => idle_away rfl) breakGlassPath) (fun _ => ?_) fun _ _ _ h => h
  exact onCache_away

theorem serve_away (breakGlassPath : Option String) (c : Request) :
    Part (revisionDiscipline rt decrypt) (sem decrypt) t (Away t) (serve rt breakGlassPath c) := by
  cases c with
  | reload => exact reload_away breakGlassPath
  | save files => exact (write_away files).bind (fun _ => reload_away breakGlassPath) fun _ _ _ h => h

/-- A call that is on its way is one that loads. -/
theorem guarded_of_leftAlone {p : Pool lang Request Unit} {th : Thread lang Request Unit} {o : Op}
    (hp : (revisionDiscipline rt decrypt).Stands p x) (hmay : leftAlone p t) (hth : p.threads[t]? = some th)
    (ho : th.awaits = some o) : (revisionDiscipline rt decrypt).guard t o x := by
  rintro files rfl
  refine (hmay th files hth ho).imp (fun h => hp.state ▸ h) fun halone u => ?_
  by_contra hbusy
  by_cases hlt : u < p.threads.length
  · obtain ⟨o', hphase, hload⟩ := hp.parked u _ (List.getElem?_eq_getElem hlt) hbusy
    rw [halone u _ o' (List.getElem?_eq_getElem hlt) (Thread.awaits_of_phase hphase)] at hload
    cases hload
  · exact hbusy (hp.unborn u (by omega))

variable (rt decrypt) in
/-- Every request keeps what is served coherent. -/
def revisionContract (breakGlassPath : Option String) :
    Contract (revisionDiscipline rt decrypt) (serviceLeftAlone rt decrypt breakGlassPath) where
  post t _ _ x := Away t x
  born _ _ _ _ := True
  crashed _ _ := True
  post_rely h hr _ := hr.load.trans h
  arrive {p c x} hp _ := by
    refine ⟨x.ghost, trivial, .refl hp.inv, Contract.wp_of_triple (serve_away breakGlassPath c)
      (hp.unborn _ (Nat.le_refl _)) hp.inv fun r y hi h => ⟨y.ghost, trivial, .refl hi, ?_⟩⟩
    have haway : Away p.threads.length y := by cases r <;> exact h
    exact ⟨fun hl => (hl haway).elim, haway⟩
  allowed hp hmay hth ho := guarded_of_leftAlone hp hmay hth ho
  crash _ h := h.elim

end

/-- What every run keeps. -/
theorem coherent_of_reach {rt : Runtime} {decrypt : String → String → Except Error String}
    {breakGlassPath : Option String} {p : Pool lang Request Unit}
    (h : Reach (serviceLeftAlone rt decrypt breakGlassPath) (OneRevision rt decrypt) p) :
    ∃ x, (revisionContract rt decrypt breakGlassPath).Good p x := by
  obtain ⟨s, hs, hrun⟩ := h
  have hinit : Coherent rt decrypt ⟨s, fun _ => none⟩ := ⟨hs, fun _ _ hb => by cases hb⟩
  obtain ⟨x, hx, -⟩ := (Contract.Good.start (C := revisionContract rt decrypt breakGlassPath) hinit
    fun _ => rfl).steps hrun
  exact ⟨x, hx⟩

/-- The database only grows. -/
theorem extends_of_steps {rt : Runtime} {decrypt : String → String → Except Error String}
    {breakGlassPath : Option String} {p p' : Pool lang Request Unit} {x : World Server Snapshots}
    (hg : (revisionContract rt decrypt breakGlassPath).Good p x)
    (h : Steps (serviceLeftAlone rt decrypt breakGlassPath) p p') :
    p.state.db.Extends p'.state.db ∧ ∃ x', (revisionContract rt decrypt breakGlassPath).Good p' x' := by
  induction h with
  | refl => exact ⟨.refl, x, hg⟩
  | tail _ hs ih =>
    obtain ⟨hx, y, hy⟩ := ih
    obtain ⟨z, hz, hrely⟩ := hy.step_rely hs fun _ _ hc => hc
    have hdb := (hrely _ (Nat.le_refl _)).db
    rw [hy.state, hz.state] at hdb
    exact ⟨hx.trans hdb, z, hz⟩

/-- The service on a schedule, in the runs that meet the condition. -/
def serviceLeftAloneDriver (rt : Runtime) (decrypt : String → String → Except Error String)
    (breakGlassPath : Option String) : Driver lang Request Unit Bool where
  body _ c := serve rt breakGlassPath c
  perform := perform decrypt
  allow p t :=
    match p.threads[t]?.bind Thread.awaits with
    | some (.write files) => flagFiles files == flagFiles p.state.db.current ||
        (List.range p.threads.length).all fun u =>
          ((p.threads[u]?.bind Thread.awaits).all fun o' => !o'.loading)
    | _ => true

theorem serviceLeftAloneDriver_follows (rt : Runtime) (decrypt : String → String → Except Error String)
    (breakGlassPath : Option String) :
    (serviceLeftAloneDriver rt decrypt breakGlassPath).Follows
      (serviceLeftAlone rt decrypt breakGlassPath) where
  body := rfl
  step _ _ _ _ _ h := step_of_perform decrypt h
  cut _ _ _ _ h := nomatch h
  crash _ _ h := nomatch h
  allowArrive _ _ _ := trivial
  allow p t h := by
    intro th files hth ho
    simp only [serviceLeftAloneDriver, hth, Option.bind_some, ho, Bool.or_eq_true, beq_iff_eq,
      List.all_eq_true, List.mem_range] at h
    refine h.imp id fun halone u th' o' hu ho' => ?_
    have hthis := halone u (List.getElem?_eq_some_iff.1 hu).1
    rw [hu, Option.bind_some, ho', Option.all_some] at hthis
    simpa using hthis

/-- **A served response is one revision** in the runs in which the environments and the flags are not
rewritten while a reload is on its way; and two responses with the same commit for the same namespace
carry the same config and the same flags. -/
theorem responses_are_one_revision (rt : Runtime) (decrypt : String → String → Except Error String)
    {breakGlassPath : Option String} {p : Pool lang Request Unit}
    (h : Reach (serviceLeftAlone rt decrypt breakGlassPath) (OneRevision rt decrypt) p) :
    (∀ product environment body, p.state.Serves product environment body →
      ∃ a, OfRevision rt decrypt p.state.db product environment body a) ∧
    ∀ p' product environment body body', Steps (serviceLeftAlone rt decrypt breakGlassPath) p p' →
      p.state.Serves product environment body → p'.state.Serves product environment body' →
      body.commit = body'.commit → body.config = body'.config ∧ body.flags = body'.flags := by
  obtain ⟨x, hx⟩ := coherent_of_reach h
  have hserved : OneRevision rt decrypt p.state := hx.state ▸ hx.inv.served
  refine ⟨fun product environment body hbody => hserved.serves hbody, ?_⟩
  intro p' product environment body body' hsteps hbody hbody' hcommit
  obtain ⟨hext, x', hx'⟩ := extends_of_steps hx hsteps
  have hserved' : OneRevision rt decrypt p'.state := hx'.state ▸ hx'.inv.served
  obtain ⟨a, ha⟩ := hserved.serves hbody
  obtain ⟨a', ha'⟩ := hserved'.serves hbody'
  exact ha.same ha' hext hcommit

def checkoutOff : String := "version: 1\nflags:\n  NewCheckout: {prod: false}\n"

def checkoutOn : String := "version: 1\nflags:\n  NewCheckout: {prod: true}\n"

/-- The documents of the runs below, as the YAML package reads them. -/
def flagYaml (source : String) : Except Error Value :=
  if source = "order: [prod]\n" then .ok (.obj [("order", .arr [.str "prod"])])
  else if source = checkoutOff then
    .ok (.obj [("version", .num (.fin 1)),
      ("flags", .obj [("NewCheckout", .obj [("prod", .bool false)])])])
  else if source = checkoutOn then
    .ok (.obj [("version", .num (.fin 1)),
      ("flags", .obj [("NewCheckout", .obj [("prod", .bool true)])])])
  else sampleYaml source

def flagRuntime : Runtime := { sampleRuntime with parseYaml := flagYaml }

/-- The files with the flag off, or on. -/
def withFlags (flags : String) : Tree :=
  [("services.yaml", grantsPayments), ("environments.yaml", "order: [prod]\n"), ("flags.yaml", flags),
    ("config/payments/prod.yaml", "apiKey: first\n")]

def flagServer : Server := { freshServer with db := { at_ := fun _ => withFlags checkoutOff, revision := 0 } }

theorem flagServer_oneRevision : OneRevision flagRuntime unencrypted flagServer := fun _ h => by cases h

/-- The flag is switched on, and a reload serves it. -/
theorem responses_are_one_revision_switched :
    let p := (serviceLeftAloneDriver flagRuntime unencrypted none).drive ⟨flagServer, []⟩
      (.arrive (.save (withFlags checkoutOn)) :: List.replicate 13 (.run 0 true))
    (p.state.cache.commit = some 1 ∧ p.state.cache.flagsFor "prod" = [("NewCheckout", true)]) ∧
      (∀ product environment body, p.state.Serves product environment body →
        ∃ a, OfRevision flagRuntime unencrypted p.state.db product environment body a) ∧
      ∀ p' product environment body body', Steps (serviceLeftAlone flagRuntime unencrypted none) p p' →
        p.state.Serves product environment body → p'.state.Serves product environment body' →
        body.commit = body'.commit → body.config = body'.config ∧ body.flags = body'.flags :=
  ⟨by decide +kernel, responses_are_one_revision flagRuntime unencrypted
    (Driver.drive_reach (serviceLeftAloneDriver_follows flagRuntime unencrypted none)
      flagServer_oneRevision _)⟩

/-- A reload takes its snapshot, the flag is switched on, and the reload reads the flags. -/
def switchedBetween : Pool lang Request Unit :=
  (serviceDriver unencrypted flagRuntime none).drive ⟨flagServer, []⟩
    ([.arrive .reload, .arrive (.save (withFlags checkoutOn))] ++ List.replicate 5 (.run 0 true) ++
      [.run 1 true] ++ List.replicate 7 (.run 0 true))

/-- The response names the revision with the flag off and carries it switched on. -/
theorem response_mixes_revisions :
    ¬ ∀ p, Reach (service flagRuntime unencrypted none) (OneRevision flagRuntime unencrypted) p →
      (∀ product environment body, p.state.Serves product environment body →
        ∃ a, OfRevision flagRuntime unencrypted p.state.db product environment body a) ∧
      ∀ p' product environment body body', Steps (service flagRuntime unencrypted none) p p' →
        p.state.Serves product environment body → p'.state.Serves product environment body' →
        body.commit = body'.commit → body.config = body'.config ∧ body.flags = body'.flags := by
  intro h
  have hreach : Reach (service flagRuntime unencrypted none) (OneRevision flagRuntime unencrypted)
      switchedBetween :=
    Driver.drive_reach (serviceDriver_follows unencrypted flagRuntime none) flagServer_oneRevision _
  have hcommit : switchedBetween.state.cache.commit = some 0 := by decide +kernel
  have hflags : switchedBetween.state.cache.flagsFor "prod" = [("NewCheckout", true)] := by
    decide +kernel
  have hstored : (switchedBetween.state.cache.get "payments" "prod").isSome = true := by decide +kernel
  have hold : ((flagsAt flagRuntime (switchedBetween.state.db.at_ 0)).lookup "prod").getD [] =
      [("NewCheckout", false)] := by decide +kernel
  obtain ⟨stored, hget⟩ := Option.isSome_iff_exists.1 hstored
  obtain ⟨body, hbody⟩ := respond_of_get switchedBetween.state.schemas
    ⟨"payments", 1002, ["payments/prod"]⟩ hget
  obtain ⟨hbodyCommit, hbodyFlags, -⟩ := body_of_respond hbody
  obtain ⟨a, ha⟩ := (h _ hreach).1 "payments" "prod" body ⟨_, hbody⟩
  have hzero : some a = some 0 := by rw [← ha.commit, hbodyCommit, hcommit]
  obtain rfl : a = 0 := Option.some.inj hzero
  have hmixed := ha.flags
  rw [hbodyFlags, hflags, hold] at hmixed
  simp at hmixed

end ConfigRegistry.Boot
