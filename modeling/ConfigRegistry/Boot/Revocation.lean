import ConfigRegistry.Boot.RepositoryState

/-!
# Revocation and values

A reload reads the grant table first and the values last, so that no value is served under a table
older than itself. A commit between the two reads breaks that. This file says which runs keep the
table at least as new as the values, and gives one that does not.
-/

namespace ConfigRegistry.Boot

open Js Identity Schema Store Async

/-- `AccessGuard.authorize`, of a caller whose uid is known. -/
def authorizes (table : ServiceRegistry) (uid : Nat) (ns : String) : Bool :=
  match table.identify uid with
  | some service => table.mayRead service ns
  | none => false

section

variable (rt : Runtime) (decrypt : String → String → Except Error String)

/-- `services.yaml` of revision `a` declares the table. -/
def TableAt (db : Versions) (a : Nat) (table : ServiceRegistry) : Prop :=
  a ≤ db.revision ∧ ∃ source, (db.at_ a).lookup "services.yaml" = some source ∧
    ServiceRegistry.fromYaml rt.parseYaml source = .ok table

/-- The grant table in force is at least as new as the values served under it. Before the first
successful read it is the boot table. -/
structure GrantsKeepUp (s : Server) : Prop where
  boot : s.registryRead = none → s.registry = noServices
  table : ∀ a, s.registryRead = some a → TableAt rt s.db a s.registry
  values : ∀ tree, s.cache.tree = some tree → tree.Resolves decrypt rt.parseYaml s.db ∧
    ∀ a, s.registryRead = some a → tree.commit ≤ a

/-- A service that has started and not reloaded yet: the boot table, and the values it found. -/
structure Booted (s : Server) : Prop where
  registryRead : s.registryRead = none
  registry : s.registry = noServices
  values : ∀ tree, s.cache.tree = some tree → tree.Resolves decrypt rt.parseYaml s.db

/-- The condition: no reload puts an older table in the place of a newer one, and none reads the
config tree at a revision other than the one the table in force was read at. -/
def inOrder : (o : Op) → Server → Except Error o.Res → Bool
  | .assign (.registry _ readAt), s, _ => s.registryRead.all fun a => a ≤ readAt
  | .snapshot dir, s, .ok _ => dir != "config" || s.registryRead == some s.db.revision
  | _, _, _ => true

/-- The language in the runs that meet the condition. -/
abbrev semInOrder : Sem lang :=
  (sem decrypt).restrict (fun o s r => inOrder o s r = true) (fun _ _ _ => True) fun _ => True

/-- The service in the runs that meet the condition. -/
def serviceInOrder (breakGlassPath : Option String) : System lang Request Unit :=
  { service rt decrypt breakGlassPath with sem := semInOrder decrypt }

/-- The database only grows and the table in force only gets newer; while it is the boot table, the
values stay. -/
structure Advances (s s' : Server) : Prop where
  db : s.db.Extends s'.db
  registry : ∀ a, s.registryRead = some a → ∃ a', s'.registryRead = some a' ∧ a ≤ a'
  boot : s'.registryRead = none → s'.cache.tree = s.cache.tree

theorem Advances.refl (s : Server) : Advances s s :=
  ⟨.refl, fun a ha => ⟨a, ha, Nat.le_refl a⟩, fun _ => rfl⟩

theorem Advances.trans {s s' s'' : Server} (h : Advances s s') (h' : Advances s' s'') :
    Advances s s'' where
  db := h.db.trans h'.db
  registry a ha := by
    obtain ⟨a', ha', hle⟩ := h.registry a ha
    obtain ⟨a'', ha'', hle'⟩ := h'.registry a' ha'
    exact ⟨a'', ha'', Nat.le_trans hle hle'⟩
  boot hn := by
    have hn' : s'.registryRead = none := by
      by_contra hne
      obtain ⟨a, ha⟩ := Option.ne_none_iff_exists'.1 hne
      obtain ⟨a', ha', -⟩ := h'.registry a ha
      rw [hn] at ha'
      cases ha'
    rw [h'.boot hn, h.boot hn']

theorem TableAt.extends {db db' : Versions} {a : Nat} {table : ServiceRegistry}
    (h : TableAt rt db a table) (hx : db.Extends db') : TableAt rt db' a table := by
  obtain ⟨ha, source, hs, ht⟩ := h
  exact ⟨Nat.le_trans ha hx.revision, source, by rw [hx.at_ a ha]; exact hs, ht⟩

/-- What an assignment must be backed by. -/
def Backed (s : Server) : Op → Prop
  | .assign (.registry table readAt) => TableAt rt s.db readAt table ∧
    (s.registryRead = none → ∀ tree, s.cache.tree = some tree → tree.commit ≤ readAt)
  | .assign (.cache tree _) => tree.Resolves decrypt rt.parseYaml s.db ∧
    ∃ a, s.registryRead = some a ∧ tree.commit ≤ a
  | _ => True

variable {rt decrypt}

/-- One operation keeps the table at least as new as the values. -/
theorem step_keepsUp {o : Op} {s s' : Server} {r : Except Error o.Res}
    (h : (sem decrypt).step o s r s') (ho : inOrder o s r = true) (hb : Backed rt decrypt s o)
    (hc : GrantsKeepUp rt decrypt s) : GrantsKeepUp rt decrypt s' ∧ Advances s s' := by
  cases r with
  | error e =>
    obtain ⟨-, rfl⟩ := h
    exact ⟨hc, .refl s'⟩
  | ok a =>
    cases o with
    | read path => obtain ⟨-, rfl⟩ := h; exact ⟨hc, .refl s'⟩
    | snapshot dir => obtain ⟨-, rfl⟩ := h; exact ⟨hc, .refl s'⟩
    | readBreakGlass path => obtain rfl := h; exact ⟨hc, .refl s'⟩
    | decrypt path source => obtain ⟨-, rfl⟩ := h; exact ⟨hc, .refl s'⟩
    | environments => obtain ⟨-, rfl⟩ := h; exact ⟨hc, .refl s'⟩
    | save sources =>
      obtain rfl := h
      exact ⟨⟨hc.boot, hc.table, hc.values⟩, .refl, (Advances.refl s).registry, fun _ => rfl⟩
    | write files =>
      obtain rfl := h
      have hx : s.db.Extends (s.db.publish files) := Versions.extends_publish files
      refine ⟨⟨hc.boot, fun a ha => (hc.table a ha).extends rt hx, fun tree ht => ?_⟩, hx,
        (Advances.refl s).registry, fun _ => rfl⟩
      exact ⟨(hc.values tree ht).1.extends hx, (hc.values tree ht).2⟩
    | assign assignment =>
      obtain rfl := h
      cases assignment with
      | registry table readAt =>
        obtain ⟨htable, hboot⟩ := hb
        have hnewer : ∀ a, s.registryRead = some a → a ≤ readAt := by
          intro a ha
          simpa [inOrder, ha] using ho
        refine ⟨⟨fun hn => (Option.some_ne_none _ hn).elim, ?_, ?_⟩, .refl, ?_, ?_⟩
        · rintro a ⟨⟩
          exact htable
        · intro tree ht
          refine ⟨(hc.values tree ht).1, ?_⟩
          rintro a ⟨⟩
          cases hr : s.registryRead with
          | none => exact hboot hr tree ht
          | some a' => exact Nat.le_trans ((hc.values tree ht).2 a' hr) (hnewer a' hr)
        · exact fun a ha => ⟨readAt, rfl, hnewer a ha⟩
        · exact fun hn => (Option.some_ne_none _ hn).elim
      | schemas set =>
        exact ⟨⟨hc.boot, hc.table, hc.values⟩, .refl, (Advances.refl s).registry, fun _ => rfl⟩
      | record found =>
        exact ⟨⟨hc.boot, hc.table, hc.values⟩, .refl, (Advances.refl s).registry, fun _ => rfl⟩
      | flagEnvironments names =>
        exact ⟨⟨hc.boot, hc.table, hc.values⟩, .refl, (Advances.refl s).registry, fun _ => rfl⟩
      | cache tree flags =>
        obtain ⟨hres, a, ha, hle⟩ := hb
        refine ⟨⟨hc.boot, hc.table, ?_⟩, .refl, (Advances.refl s).registry, fun hn => ?_⟩
        · rintro tree' ⟨⟩
          refine ⟨hres, fun a' ha' => ?_⟩
          obtain rfl : a = a' := Option.some.inj (ha.symm.trans ha')
          exact hle
        · rw [show (Assignment.apply s (.cache tree flags)).registryRead = s.registryRead from rfl, ha] at hn
          cases hn

variable (rt decrypt)

/-- All calls keep `GrantsKeepUp`, and each may rely on `Advances`. -/
def grantDiscipline : Discipline lang where
  Ghost := Unit
  inv x := GrantsKeepUp rt decrypt x.state
  rely _ x y := Advances x.state y.state
  move _ _ _ := True
  parked _ _ _ := True
  unborn _ _ := True
  rely_refl _ x := .refl x.state
  rely_trans _ _ _ _ := Advances.trans
  move_refl _ _ := trivial
  move_trans _ _ _ _ _ _ := trivial
  parked_rely _ _ _ _ _ _ := trivial
  unborn_rely _ _ _ _ _ := trivial

/-- What other calls do not undo. -/
def Lasting (P : Server → Prop) : Prop := ∀ s s', P s → Advances s s' → P s'

/-- An operation whose assignment is backed performs what it answers. -/
theorem performs {o : Op} {P : Server → Prop} {Q : o.Res → Server → Prop} (t : Nat)
    (hP : Lasting P) (hQ : ∀ a, Lasting (Q a)) (hb : ∀ s, P s → Backed rt decrypt s o)
    (hq : ∀ s a s', P s → GrantsKeepUp rt decrypt s → inOrder o s (.ok a) = true →
      o.answers decrypt s a s' → Advances s s' → Q a s') :
    (grantDiscipline rt decrypt).Performs
      (semInOrder decrypt) t
      (fun x => P x.state) o
      ((grantDiscipline rt decrypt).Outcome (fun a x => Q a x.state) fun _ _ => True) where
  stable x y hx hr _ := hP _ _ hx hr
  parked _ _ _ := trivial
  after r x y hx hr _ := by
    cases r with
    | ok a => exact hQ a _ _ hx hr
    | error e => trivial
  effect x r s' hx hi _ hs := by
    obtain ⟨hin, hs⟩ := hs
    obtain ⟨hi', ha⟩ := step_keepsUp hs hin (hb _ hx) hi
    refine ⟨(), trivial, ⟨hi', fun _ _ => ha⟩, ?_⟩
    cases r with
    | ok a => exact hq _ a s' hx hi hin hs ha
    | error e => trivial
  torn _ _ _ _ h := h.2.elim

/-- Nothing is known. -/
abbrev anything : Server → Prop := fun _ => True

theorem lasting_anything : Lasting anything := fun _ _ _ _ => trivial

/-- The discipline's triples over assertions about the service. -/
abbrev Runs (t : Nat) {α : Type} (P : Server → Prop) (p : Prog lang α) (Q : α → Server → Prop) :
    Prop :=
  (grantDiscipline rt decrypt).Triple
    (semInOrder decrypt) t (fun x => P x.state) p
    ((grantDiscipline rt decrypt).Outcome (fun a x => Q a x.state) fun _ _ => True)

/-- What a read found is what the file was at the revision it was read at, and no values loaded
before the table are newer. -/
structure Found (path : String) (a : Option String × Nat) (s : Server) : Prop where
  known : a.2 ≤ s.db.revision
  text : (s.db.at_ a.2).lookup path = a.1
  boot : s.registryRead = none → ∀ tree, s.cache.tree = some tree → tree.commit ≤ a.2

theorem lasting_found (path : String) (a : Option String × Nat) : Lasting (Found path a) := by
  intro s s' h hadv
  refine ⟨Nat.le_trans h.known hadv.db.revision, by rw [hadv.db.at_ _ h.known]; exact h.text, ?_⟩
  intro hn tree ht
  rw [hadv.boot hn] at ht
  have hn' : s.registryRead = none := by
    by_contra hne
    obtain ⟨b, hb⟩ := Option.ne_none_iff_exists'.1 hne
    obtain ⟨b', hb', -⟩ := hadv.registry b hb
    rw [hn] at hb'
    cases hb'
  exact h.boot hn' tree ht

/-- An operation that assigns neither the table nor the values keeps whatever lasts. -/
theorem performs_other {o : Op} (t : Nat) (ho : ∀ s, Backed rt decrypt s o) {P : Server → Prop}
    (hP : Lasting P) {Q : o.Res → Prop} (hq : ∀ s a s', o.answers decrypt s a s' → Q a) :
    (grantDiscipline rt decrypt).Performs
      (semInOrder decrypt) t
      (fun x => P x.state) o
      ((grantDiscipline rt decrypt).Outcome (fun a x => P x.state ∧ Q a) fun _ _ => True) :=
  performs rt decrypt (Q := fun a s => P s ∧ Q a) t hP (fun _ s s' h hadv => ⟨hP s s' h.1 hadv, h.2⟩)
    (fun s _ => ho s) fun s a s' hp _ _ ha hadv => ⟨hP s s' hp hadv, hq s a s' ha⟩

theorem reloadRegistry_runs (t : Nat) :
    Runs rt decrypt t anything (reloadRegistry rt) fun _ => anything := by
  unfold reloadRegistry readFile
  refine Discipline.Triple.handle (R := (grantDiscipline rt decrypt).Outcome
    (fun _ _ => True) fun _ _ => True) ?_ (fun _ _ _ h => h) fun e => .done fun _ _ _ => trivial
  simp only [bind_assoc]
  have hread := performs rt decrypt (o := .read "services.yaml") (Q := Found "services.yaml") t
    lasting_anything (lasting_found _) (fun _ _ => trivial) (by
      rintro s a s' - hk - ⟨rfl, rfl⟩ -
      exact ⟨Nat.le_refl _, rfl, fun _ tree ht => (hk.values tree ht).1.known⟩)
  refine hread.bind (fun found => ?_) fun _ _ _ h => h
  obtain ⟨_ | source, readAt⟩ := found
  · exact .done fun _ _ _ => trivial
  · simp only [Prog.pure_bind']
    cases hparse : ServiceRegistry.fromYaml rt.parseYaml source with
    | error e => exact .done fun _ _ _ => trivial
    | ok table =>
      have hassign := performs rt decrypt (o := .assign (.registry table readAt))
        (Q := fun _ => anything) t (lasting_found "services.yaml" (some source, readAt))
        (fun _ => lasting_anything)
        (fun s hs => ⟨⟨hs.known, source, hs.text, hparse⟩, hs.boot⟩)
        (fun _ _ _ _ _ _ _ _ => trivial)
      exact hassign.triple

/-- An operation that assigns neither, of which nothing is asked. -/
theorem kept {o : Op} (t : Nat) (ho : ∀ s, Backed rt decrypt s o) :
    KeptBy (grantDiscipline rt decrypt) (semInOrder decrypt) t (fun _ => True) o := by
  have h := performs_other rt decrypt t ho lasting_anything (Q := fun _ => True) fun _ _ _ _ => trivial
  exact h.conseq (fun r _ _ _ _ _ => by cases r <;> trivial) fun r _ _ => by cases r <;> trivial

/-- The values a reload found: those of a revision no newer than the table in force. -/
def Loaded (sources : ConfigSources) (s : Server) : Prop :=
  sources.commit ≤ s.db.revision ∧
  sources = readSources sources.commit ((s.db.at_ sources.commit).under "config") ∧
  ∃ a, s.registryRead = some a ∧ sources.commit ≤ a

theorem lasting_loaded (sources : ConfigSources) : Lasting (Loaded sources) := by
  rintro s s' ⟨hle, hsrc, a, ha, hca⟩ hadv
  obtain ⟨a', ha', haa⟩ := hadv.registry a ha
  refine ⟨Nat.le_trans hle hadv.db.revision, ?_, a', ha', Nat.le_trans hca haa⟩
  rw [hadv.db.at_ _ hle]
  exact hsrc

theorem onCache_runs (t : Nat) : Runs rt decrypt t anything (onCache rt) fun _ => anything := by
  unfold onCache dbSources
  simp only [bind_assoc]
  have hread := performs rt decrypt (o := .snapshot "config")
    (Q := fun a => Loaded (readSources a.2 a.1)) t lasting_anything (fun a => lasting_loaded _)
    (fun _ _ => trivial) (by
      rintro s a s' - hk hin ⟨rfl, rfl⟩ -
      exact ⟨Nat.le_refl _, rfl, s'.db.revision, by simpa [inOrder] using hin, Nat.le_refl _⟩)
  refine hread.bind (fun found => ?_) fun _ _ _ h => h
  simp only [Prog.pure_bind']
  have hlasts := lasting_loaded (readSources found.2 found.1)
  have hkeep (o : Op) (ho : ∀ s, Backed rt decrypt s o) :=
    performs rt decrypt (Q := fun _ => Loaded (readSources found.2 found.1)) t hlasts
      (fun _ => hlasts) (fun s _ => ho s) fun s _ s' hl _ _ _ hadv => hlasts s s' hl hadv
  have hdecrypt (path source : String) := performs rt decrypt (o := .decrypt path source)
    (Q := fun plaintext s => decrypt path source = .ok plaintext ∧
      ParsesTo rt path plaintext (Loaded (readSources found.2 found.1) s) True) t hlasts
    (fun _ s s' h hadv => ⟨h.1, fun config hc => hlasts s s' (h.2.ok config hc) hadv, fun _ _ => trivial⟩)
    (fun _ _ => trivial)
    (fun s a s' hl _ _ ha hadv => ⟨ha.1, fun _ _ => hlasts s s' hl hadv, fun _ _ => trivial⟩)
  refine (resolve_triple rt decrypt (grantDiscipline rt decrypt) (semInOrder decrypt) t
    (fun x => Loaded (readSources found.2 found.1) x.state) (fun _ => True) (fun ns source => hdecrypt (configPath ns) source) _).bind
    (fun tree => ?_) fun _ _ _ h => h
  refine .assume fun ⟨hcommit, hvalues⟩ => ?_
  refine (flagsByEnvironment_triple rt (grantDiscipline rt decrypt) (semInOrder decrypt) t
    (fun x => Loaded (readSources found.2 found.1) x.state) (fun _ => True) (fun path _ => hkeep (.read path) fun _ => trivial)
    (fun names => hkeep (.assign (.flagEnvironments names)) fun _ => trivial)
    (hkeep .environments fun _ => trivial)).bind (fun flags => ?_) fun _ _ _ h => h
  have hassign := performs rt decrypt (o := .assign (.cache tree flags)) (Q := fun _ => anything) t
    hlasts (fun _ => lasting_anything) (by
      rintro s ⟨hle, hsrc, a, ha, hca⟩
      rw [← hcommit] at hle hsrc hca
      exact ⟨⟨hle, by rw [← hsrc]; exact hvalues⟩, a, ha, hca⟩) fun _ _ _ _ _ _ _ _ => trivial
  have hsave := kept rt decrypt (o := .save (readSources found.2 found.1)) t fun _ => trivial
  exact hassign.bind (fun _ => hsave.triple) fun _ _ _ _ => trivial

theorem reload_runs (breakGlassPath : Option String) (t : Nat) :
    Runs rt decrypt t anything (reload rt breakGlassPath) fun _ => anything := by
  have hkept (o : Op) (ho : ∀ s, Backed rt decrypt s o) := kept rt decrypt t ho
  unfold reload
  refine (reloadRegistry_runs rt decrypt t).bind (fun _ => ?_) fun _ _ _ h => h
  refine Discipline.Triple.bind (reloadSchemas_part (hkept _ fun _ => trivial)
    fun _ => hkept _ fun _ => trivial) (fun _ => ?_) fun _ _ _ _ => trivial
  refine Discipline.Triple.bind (reloadBreakGlass_part (fun _ => hkept _ fun _ => trivial)
    (fun _ _ => hkept _ fun _ => trivial) (fun _ => hkept _ fun _ => trivial)
    breakGlassPath) (fun _ => ?_) fun _ _ _ _ => trivial
  exact onCache_runs rt decrypt t

theorem serve_runs (breakGlassPath : Option String) (t : Nat) (c : Request) :
    Runs rt decrypt t anything (serve rt breakGlassPath c) fun _ => anything := by
  cases c with
  | reload => exact reload_runs rt decrypt breakGlassPath t
  | save files =>
    have hwrite := kept rt decrypt (o := .write files) t fun _ => trivial
    exact hwrite.bind (fun _ => reload_runs rt decrypt breakGlassPath t) fun _ _ _ _ => trivial

/-- Every request keeps the table at least as new as the values. -/
def grantContract (breakGlassPath : Option String) :
    Contract (grantDiscipline rt decrypt) (serviceInOrder rt decrypt breakGlassPath) where
  post _ _ _ _ := True
  born _ _ _ _ := True
  crashed _ _ := True
  post_rely _ _ _ := trivial
  arrive hp _ := ⟨(), trivial, .refl hp.inv, Contract.wp_of_triple
    (serve_runs rt decrypt breakGlassPath _ _) trivial hp.inv
    fun _ _ hi _ => ⟨(), trivial, .refl hi, trivial, trivial⟩⟩
  allowed _ _ _ _ := trivial
  crash _ h := h.2.elim

theorem reach_keepsUp {breakGlassPath : Option String} {p : Pool lang Request Unit}
    (h : Reach (serviceInOrder rt decrypt breakGlassPath) (Booted rt decrypt) p) :
    GrantsKeepUp rt decrypt p.state := by
  obtain ⟨s, hs, hrun⟩ := h
  have hnever : ∀ a, s.registryRead ≠ some a := fun a => by simp [hs.registryRead]
  have hinit : GrantsKeepUp rt decrypt s :=
    ⟨fun _ => hs.registry, fun a ha => (hnever a ha).elim,
      fun tree ht => ⟨hs.values tree ht, fun a ha => (hnever a ha).elim⟩⟩
  have hgood : (grantContract rt decrypt breakGlassPath).Good ⟨s, []⟩ ⟨s, ()⟩ :=
    .start hinit fun _ => trivial
  obtain ⟨x, hx, -⟩ := hgood.steps hrun
  have := hx.inv
  rw [← hx.state]
  exact this

theorem noServices_authorizes {uid : Nat} {ns : String} (h : authorizes noServices uid ns = true) :
    ns = "none/none" := by
  unfold authorizes at h
  split at h
  · rename_i service _
    unfold ServiceRegistry.mayRead at h
    split at h
    · rename_i known hk
      have hm := List.mem_of_find?_eq_some hk
      simp only [noServices, List.mem_singleton] at hm
      subst hm
      simp only [Bool.and_eq_true, List.contains_cons, List.contains_nil, Bool.or_false,
        beq_iff_eq] at h
      exact h.2
    · cases h
  · cases h

end

section

variable (decrypt : String → String → Except Error String) (rt : Runtime) (breakGlassPath : Option String)

/-- The service on a schedule, in the runs that meet the condition. -/
def serviceInOrderDriver : Driver lang Request Unit Bool where
  body _ c := serve rt breakGlassPath c
  perform c o s := (perform decrypt c o s).filter fun answer => inOrder o s answer.1

theorem serviceInOrderDriver_follows :
    (serviceInOrderDriver decrypt rt breakGlassPath).Follows
      (serviceInOrder rt decrypt breakGlassPath) where
  body := rfl
  allow _ _ _ := trivial
  allowArrive _ _ _ := trivial
  step c o s r s' h := by
    obtain ⟨h, hin⟩ := Option.filter_eq_some_iff.1 h
    exact ⟨hin, step_of_perform decrypt h⟩
  cut _ _ _ _ h := nomatch h
  crash _ _ h := nomatch h

end

theorem freshServer_booted (decrypt : String → String → Except Error String) :
    Booted sampleRuntime decrypt freshServer :=
  ⟨rfl, rfl, fun _ h => nomatch h⟩

/-- **Revocation never lags a value** in the runs that keep the order: the table in force was read
at the revision of the values or later, and whoever may read a namespace was granted it by
`services.yaml` at such a revision. -/
theorem revocation_keeps_up (rt : Runtime) (decrypt : String → String → Except Error String)
    {breakGlassPath : Option String} {p : Pool lang Request Unit}
    (h : Reach (serviceInOrder rt decrypt breakGlassPath) (Booted rt decrypt) p) :
    GrantsKeepUp rt decrypt p.state ∧
      ∀ uid ns tree, authorizes p.state.registry uid ns = true → ns ≠ "none/none" →
        p.state.cache.tree = some tree → ∃ a table, tree.commit ≤ a ∧
          TableAt rt p.state.db a table ∧ authorizes table uid ns = true := by
  have hkeep := reach_keepsUp rt decrypt h
  refine ⟨hkeep, fun uid ns tree hauth hns htree => ?_⟩
  cases hr : p.state.registryRead with
  | none =>
    rw [hkeep.boot hr] at hauth
    exact absurd (noServices_authorizes hauth) hns
  | some a => exact ⟨a, p.state.registry, (hkeep.values tree htree).2 a hr, hkeep.table a hr, hauth⟩

/-- A save that revokes a grant and rotates the secret, and its reload. -/
theorem revocation_keeps_up_save :
    let p := (serviceInOrderDriver unencrypted sampleRuntime none).drive ⟨freshServer, []⟩
      (.arrive (.save afterRevocation) :: List.replicate 12 (.run 0 true))
    p.state.cache.commit = some 1 ∧ GrantsKeepUp sampleRuntime unencrypted p.state ∧
      ∀ uid ns tree, authorizes p.state.registry uid ns = true → ns ≠ "none/none" →
        p.state.cache.tree = some tree → ∃ a table, tree.commit ≤ a ∧
          TableAt sampleRuntime p.state.db a table ∧ authorizes table uid ns = true :=
  ⟨by decide +kernel, revocation_keeps_up _ _ (Driver.drive_reach
    (serviceInOrderDriver_follows unencrypted sampleRuntime none)
    (freshServer_booted unencrypted) _)⟩

/-- A reload reads the grant table, a save revokes the grant and rotates the secret, and the reload
goes on to the values. -/
def revokedBetween : Pool lang Request Unit :=
  (serviceDriver unencrypted sampleRuntime none).drive ⟨freshServer, []⟩
    ([.arrive .reload, .arrive (.save afterRevocation), .run 0 true, .run 0 true, .run 1 true] ++
      List.replicate 8 (.run 0 true))

/-- The revoked uid is served the rotated secret: no table of `services.yaml` at the revision of
the values, or later, grants it. -/
theorem revoked_uid_is_served :
    ¬ ∀ p, Reach (service sampleRuntime unencrypted none) (Booted sampleRuntime unencrypted) p →
      GrantsKeepUp sampleRuntime unencrypted p.state ∧
        ∀ uid ns tree, authorizes p.state.registry uid ns = true → ns ≠ "none/none" →
          p.state.cache.tree = some tree → ∃ a table, tree.commit ≤ a ∧
            TableAt sampleRuntime p.state.db a table ∧ authorizes table uid ns = true := by
  intro h
  have hreach : Reach (service sampleRuntime unencrypted none)
      (Booted sampleRuntime unencrypted) revokedBetween :=
    Driver.drive_reach (serviceDriver_follows unencrypted sampleRuntime none)
      (freshServer_booted unencrypted) _
  have hauth : authorizes revokedBetween.state.registry 1002 "payments/prod" = true := by
    decide +kernel
  have hcommit : revokedBetween.state.cache.tree.map ConfigTree.commit = some 1 := by
    decide +kernel
  have hrevision : revokedBetween.state.db.revision = 1 := by decide +kernel
  obtain ⟨tree, htree, hone⟩ := Option.map_eq_some_iff.1 hcommit
  obtain ⟨a, table, hle, ⟨hknown, source, hsource, htable⟩, hgrant⟩ :=
    (h _ hreach).2 1002 "payments/prod" tree hauth (by decide) htree
  obtain rfl : a = 1 := by omega
  have hfile : (revokedBetween.state.db.at_ 1).lookup "services.yaml" = some grantsLedger := by
    decide +kernel
  obtain rfl : grantsLedger = source := Option.some.inj (hfile.symm.trans hsource)
  have hrefused : (ServiceRegistry.fromYaml sampleYaml grantsLedger).toOption.map
      (fun table => authorizes table 1002 "payments/prod") = some false := by decide +kernel
  rw [show ServiceRegistry.fromYaml sampleYaml grantsLedger = .ok table from htable] at hrefused
  rw [Except.toOption, Option.map_some, hgrant] at hrefused
  cases hrefused

end ConfigRegistry.Boot
