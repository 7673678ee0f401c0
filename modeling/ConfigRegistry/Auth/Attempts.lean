import ConfigRegistry.Async.Accord
import ConfigRegistry.Auth.BreakGlass

/-!
# Attempts to sign in

Attempts are suspended while iam is asked and while the password is hashed, so several may be on
their way with the same code. The step is compared with the last one spent and spent itself within
one turn, from which it follows here that steps are spent in order; and each attempt raises one alert
of its own outcome.
-/

namespace ConfigRegistry.Auth

open Js Async Boot

variable (crypto : Crypto)

/-- The password derives the key that was stored. -/
def RightPassword (password : String) (stored : Value) : Prop :=
  ∃ text hash, stored = .str text ∧ StoredHash.parse text = some hash ∧
    hash.derive crypto password = .ok (crypto.fromBase64 hash.hash)

/-- The attempt had the password of a record, and the code of the step it spent, which was the
current one or the one before. -/
structure Accepted.Genuine (a : Accepted) (record : BreakGlassRecord) : Prop where
  password : RightPassword crypto a.password record.passwordHash
  step : a.counter = totpCounter a.now ∨ a.counter = totpCounter a.now - 1
  code : ∃ secret, secretOf crypto record.totpSecret = .ok secret ∧
    generateTotp crypto secret a.counter 6 = .ok a.code

/-- Every field of the record can be read, and scrypt takes its parameters. -/
structure Parseable (record : BreakGlassRecord) : Prop where
  hash : ∃ text, record.passwordHash = .str text ∧
    ∀ stored, StoredHash.parse text = some stored → ∀ password, ∃ key, stored.derive crypto password = .ok key
  secret : ∃ secret, secretOf crypto record.totpSecret = .ok secret

/-- A clock reading at least one step after the epoch, and one whose step fits its eight bytes. -/
def Timely (now : Int) : Prop := stepSeconds ≤ now ∧ totpCounter now < 2 ^ 64

/-- What the process knows of call `t`. -/
structure About where
  alerts : List BreakGlassAlert
  reachable : List (Nat × Bool)
  accepted : List Accepted

def Process.about (s : Process) (t : Nat) : About where
  alerts := s.alerts.filter fun a => a.attempt == t
  reachable := s.reachable.filter fun r => r.1 == t
  accepted := s.accepted.filter fun a => a.attempt == t

/-- What has been spent. -/
structure Spends (s : Process) : Prop where
  ordered : s.accepted.Pairwise fun later earlier => earlier.counter < later.counter
  last : s.lastUsedCounter = s.accepted.head?.map Accepted.counter
  down : ∀ a ∈ s.accepted, (a.attempt, true) ∉ s.reachable
  genuine : ∀ a ∈ s.accepted, ∃ record, s.record = some record ∧ a.Genuine crypto record

/-- What becomes of an attempt: it was told `up` of iam, raised one alert, of the outcome of its
answer, and was accepted or not. -/
inductive Concluded (t : Nat) (password code : String) (now : Int) :
    Except Error Answer → About → Prop where
  | refused : Concluded t password code now (.ok (some (.error denied)))
      ⟨[⟨t, .refused_iam_up, now⟩], [(t, true)], []⟩
  | failed : Concluded t password code now (.ok (some (.error denied)))
      ⟨[⟨t, .failed, now⟩], [(t, false)], []⟩
  | succeeded (actor : BreakGlassActor) (a : Accepted) : a.attempt = t → a.password = password →
      a.code = code → a.now = now →
      Concluded t password code now (.ok (some (.ok actor)))
        ⟨[⟨t, .succeeded, now⟩], [(t, false)], [a]⟩

/-- What calls rely on: the record of the sign-in stays, and what concerns a call is its own. -/
def accord : Accord lang where
  inv := Spends crypto
  rely t s s' := s'.record = s.record ∧ s'.about t = s.about t
  fresh t s := s.about t = ⟨[], [], []⟩
  rely_refl _ _ := ⟨rfl, rfl⟩
  rely_trans _ _ _ _ h h' := ⟨h'.1.trans h.1, h'.2.trans h.2⟩
  fresh_rely _ _ _ h hr := hr.2.trans h

theorem sem_lasting : (sem crypto).Lasting := ⟨fun _ _ _ => id, fun _ _ => id⟩

variable {crypto} {t : Nat}

/-- The sign-in was given `record`, and `φ` is known of what concerns call `t`. -/
def Knows (t : Nat) (record : Option BreakGlassRecord) (about : About) (s : Process) : Prop :=
  s.record = record ∧ s.about t = about

theorem stable_knows (record : Option BreakGlassRecord) (about : About) :
    (accord crypto).Stable t (Knows t record about) :=
  fun _ _ h hr _ => ⟨hr.1.trans h.1, hr.2.trans h.2⟩

/-- The repository state is no business of the attempts. -/
theorem keeps_repository {s : Process} (h : Spends crypto s) (repository : RepositoryState) :
    (accord crypto).Keeps t s { s with repository } :=
  ⟨⟨h.ordered, h.last, h.down, h.genuine⟩, fun _ _ => ⟨rfl, rfl⟩⟩

/-- An alert concerns the attempt that raises it. -/
theorem about_alert {s : Process} (u : Nat) (outcome : Outcome) (now : Int) :
    ({ s with alerts := ⟨t, outcome, now⟩ :: s.alerts } : Process).about u =
      { s.about u with alerts :=
        if t = u then ⟨t, outcome, now⟩ :: (s.about u).alerts else (s.about u).alerts } := by
  simp only [Process.about, List.filter_cons, beq_iff_eq]

theorem about_reachable {s : Process} (u : Nat) (up : Bool) :
    ({ s with reachable := (t, up) :: s.reachable } : Process).about u =
      { s.about u with reachable :=
        if t = u then (t, up) :: (s.about u).reachable else (s.about u).reachable } := by
  simp only [Process.about, List.filter_cons, beq_iff_eq]

theorem about_accept {s : Process} (u : Nat) (password code : String) (now counter : Int) :
    (s.accept t password code now counter).about u = if t = u then
      { alerts := ⟨t, .succeeded, now⟩ :: (s.about u).alerts
        reachable := (s.about u).reachable
        accepted := ⟨t, password, code, now, counter, s.repository.record⟩ :: (s.about u).accepted }
      else s.about u := by
  simp only [Process.about, Process.accept, List.filter_cons, beq_iff_eq]
  split <;> rfl

theorem alert_runs {record : Option BreakGlassRecord} {about : About} (outcome : Outcome)
    (now : Int) :
    (accord crypto).Runs (sem crypto) t (Knows t record about) (alert t outcome now)
      fun r => fun s => r = .ok () ∧
        Knows t record { about with alerts := ⟨t, outcome, now⟩ :: about.alerts } s := by
  refine .modify fun s h hi => ⟨⟨⟨hi.ordered, hi.last, hi.down, hi.genuine⟩, fun u hu => ⟨rfl, ?_⟩⟩,
    rfl, h.1, ?_⟩
  · rw [about_alert, if_neg (Ne.symm hu)]
  · rw [about_alert, if_pos rfl, h.2]

/-- The answer of iam is noted. -/
theorem isIamReachable_runs {record : Option BreakGlassRecord} :
    (accord crypto).Runs (sem crypto) t (Knows t record ⟨[], [], []⟩) (op (.isIamReachable t))
      fun r s => ∃ up, r = .ok up ∧ Knows t record ⟨[], [(t, up)], []⟩ s := by
  refine .op (sem_lasting crypto) (stable_knows _ _) (fun r s s' h hr hi => ?_)
    (fun _ _ _ => trivial) fun s r s' h hi hs => ?_
  · obtain ⟨up, hup, hknows⟩ := h
    exact ⟨up, hup, stable_knows _ _ s s' hknows hr hi⟩
  · obtain ⟨up, rfl, rfl⟩ := hs
    refine ⟨⟨⟨hi.ordered, hi.last, fun a ha hmem => ?_, hi.genuine⟩, fun u hu => ⟨rfl, ?_⟩⟩,
      up, rfl, h.1, ?_⟩
    · rcases List.mem_cons.1 hmem with heq | hmem
      · -- An accepted attempt of `t` would concern `t`.
        have hmine : a ∈ (s.about t).accepted :=
          List.mem_filter.2 ⟨ha, by rw [(Prod.mk.inj heq).1]; exact beq_self_eq_true t⟩
        rw [h.2] at hmine
        cases hmine
      · exact hi.down a ha hmem
    · rw [about_reachable, if_neg (Ne.symm hu)]
    · rw [about_reachable, if_pos rfl, h.2]

/-- An operation that leaves the process alone. -/
theorem idle_runs (o : Op) {record : Option BreakGlassRecord} {about : About}
    {Q : Except Error o.Res → Prop}
    (h : ∀ s r s', o.answers crypto s r s' → s' = s ∧ Q r) :
    (accord crypto).Runs (sem crypto) t (Knows t record about) (op o)
      fun r s => Knows t record about s ∧ Q r := by
  refine .op (sem_lasting crypto) (stable_knows _ _)
    (fun r => Accord.Stable.and (stable_knows _ _) (.const _)) (fun _ _ _ => trivial)
    fun s r s' hk hi hs => ?_
  obtain ⟨rfl, hq⟩ := h s r s' hs
  exact ⟨.refl hi, hk, hq⟩

theorem scrypt_runs {record : Option BreakGlassRecord} {about : About} (password : String)
    (salt : Bytes) (keyLength : Nat) (n r p : Number) :
    (accord crypto).Runs (sem crypto) t (Knows t record about)
      (op (.scrypt password salt keyLength n r p))
      fun result s => Knows t record about s ∧
        result = crypto.scrypt password salt keyLength n r p :=
  idle_runs (.scrypt password salt keyLength n r p) (Q := fun result => result = crypto.scrypt password salt keyLength n r p)
    fun _ _ _ hs => ⟨hs.2, hs.1⟩

theorem verifyPassword_runs {record : Option BreakGlassRecord} {about : About} (password : String)
    (stored : Value) :
    (accord crypto).Runs (sem crypto) t (Knows t record about)
      (verifyPassword crypto password stored)
      fun r s => Knows t record about s ∧
        (r = .ok true → RightPassword crypto password stored) ∧
        ∀ e, r = .error e → ¬ ∃ text, stored = .str text ∧ ∀ hash, StoredHash.parse text = some hash →
          ∀ password, ∃ key, hash.derive crypto password = .ok key := by
  cases stored with
  | str text =>
    unfold verifyPassword
    cases hparse : StoredHash.parse text with
    | none =>
      dsimp only
      simp only [hparse]
      refine .pure fun s h _ => ⟨h, fun hr => ?_, fun e he => ?_⟩
      · cases hr
      · cases he
    | some hash =>
      simp only [hparse]
      refine (scrypt_runs _ _ _ _ _ _).bind (fun derived => ?_) fun e s _ h => ?_
      · refine .pure fun s h _ => ⟨h.1, fun hr => ⟨text, hash, rfl, hparse, ?_⟩, fun e he => ?_⟩
        · have hequal : derived = crypto.fromBase64 hash.hash := by simpa using hr
          rw [StoredHash.derive, ← h.2, hequal]
        · cases he
      · refine ⟨h.1, fun hr => ?_, fun e' _ => ?_⟩
        · cases hr
        · rintro ⟨text', htext, hok⟩
          cases htext
          obtain ⟨key, hkey⟩ := hok hash hparse password
          rw [StoredHash.derive, ← h.2] at hkey
          cases hkey
  | _ =>
    refine .done fun s h _ => ⟨h, fun hr => ?_, fun e _ => ?_⟩
    · cases hr
    · rintro ⟨text, htext, -⟩
      cases htext

theorem hashPassword_runs {record : Option BreakGlassRecord} {about : About} (password : String) :
    (accord crypto).Runs (sem crypto) t (Knows t record about) (hashPassword password)
      fun _ s => Knows t record about s := by
  have hsalt : (accord crypto).Runs (sem crypto) t (Knows t record about) (op (.randomBytes 16))
      fun _ s => Knows t record about s ∧ True :=
    idle_runs (.randomBytes 16) (Q := fun _ => True) fun _ _ _ hs => ⟨hs.2, trivial⟩
  refine hsalt.bind (fun salt => ?_) fun _ _ _ h => h.1
  refine Accord.Runs.conseq (fun _ _ h => h.1) (fun _ _ _ h => h) ?_
  refine (scrypt_runs _ _ _ _ _ _).bind (fun _ => ?_) fun _ _ _ h => h.1
  exact .pure fun _ h _ => h.1

variable (crypto) in
/-- At a timely clock reading every code is compared. -/
theorem verifyTotp_ok {code : String} {secret : Bytes} {now : Int} {last : Option Int}
    (h : Timely now) : ∃ found, verifyTotp crypto code secret now 6 last = .ok found := by
  have hcurrent : 1 ≤ totpCounter now := by
    have hnow := h.1
    unfold totpCounter stepSeconds at *
    omega
  rw [verifyTotp]
  split
  · exact ⟨none, rfl⟩
  · refine findCounter_ok fun c hc => ?_
    simp only [tolerance, List.mem_map, List.mem_range] at hc
    obtain ⟨back, hback, rfl⟩ := hc
    have hlt := h.2
    constructor <;> omega

/-- The step is spent: later than all before it, by an attempt that was told iam is down. -/
theorem keeps_accept {s : Process} {record : BreakGlassRecord} {password code : String}
    {now counter : Int} (hi : Spends crypto s) (h : Knows t (some record) ⟨[], [(t, false)], []⟩ s)
    (hspent : ∀ spent, s.lastUsedCounter = some spent → spent < counter)
    (hgenuine : (⟨t, password, code, now, counter, s.repository.record⟩ : Accepted).Genuine crypto
      record) :
    (accord crypto).Keeps t s (s.accept t password code now counter) := by
  refine ⟨⟨List.pairwise_cons.2 ⟨fun a ha => ?_, hi.ordered⟩, rfl, fun a ha => ?_, fun a ha => ?_⟩,
    fun u hu => ⟨rfl, ?_⟩⟩
  · -- The newest accepted attempt spent the last step, and the others earlier ones.
    have hlast := hi.last
    have hordered := hi.ordered
    cases haccepted : s.accepted with
    | nil =>
      rw [haccepted] at ha
      cases ha
    | cons b rest =>
      rw [haccepted] at ha hlast hordered
      have hb : b.counter < counter := hspent _ hlast
      rcases List.mem_cons.1 ha with rfl | ha
      · exact hb
      · exact Int.lt_trans ((List.pairwise_cons.1 hordered).1 a ha) hb
  · rcases List.mem_cons.1 ha with rfl | ha
    · intro hmem
      have hmine : (t, true) ∈ (s.about t).reachable :=
        List.mem_filter.2 ⟨hmem, beq_self_eq_true t⟩
      rw [h.2] at hmine
      simp at hmine
    · exact hi.down a ha
  · rcases List.mem_cons.1 ha with rfl | ha
    · exact ⟨record, h.1, hgenuine⟩
    · exact hi.genuine a ha
  · rw [about_accept, if_neg (Ne.symm hu)]

variable (crypto) in
/-- How an attempt ends, where the record it was given can be parsed and its clock reading is
timely. -/
def Attempted (t : Nat) (password code : String) (now : Int)
    (r : Except Error (Except Denied BreakGlassActor)) (s : Process) : Prop :=
  ∀ record, s.record = some record → Parseable crypto record → Timely now →
    ∃ result, r = .ok result ∧ Concluded t password code now (.ok (some result)) (s.about t)

theorem attempt_runs (password code : String) (now : Int) :
    (accord crypto).Runs (sem crypto) t (fun s => s.about t = ⟨[], [], []⟩)
      (attempt crypto t password code now) (Attempted crypto t password code now) := by
  refine .get_bind fun s₀ => ?_
  refine Accord.Runs.conseq (P := Knows t s₀.record ⟨[], [], []⟩)
    (fun s _ h => ⟨by rw [h.2], h.1⟩) (fun _ _ _ h => h) ?_
  refine isIamReachable_runs.bind (fun up => ?_) fun e s _ h => ?_
  swap
  · obtain ⟨_, h, -⟩ := h
    cases h
  cases up with
  | true =>
    refine Accord.Runs.conseq (P := Knows t s₀.record ⟨[], [(t, true)], []⟩) (fun s _ h => ?_)
      (fun _ _ _ h => h) ?_
    · obtain ⟨_, hup, hknows⟩ := h
      cases hup
      exact hknows
    · refine (alert_runs .refused_iam_up now).bind (fun _ => ?_) fun e s _ h => ?_
      · refine .pure fun s h _ record _ _ _ => ⟨_, rfl, ?_⟩
        rw [h.2.2]
        exact .refused
      · cases h.1
  | false =>
    refine Accord.Runs.conseq (P := Knows t s₀.record ⟨[], [(t, false)], []⟩) (fun s _ h => ?_)
      (fun _ _ _ h => h) ?_
    · obtain ⟨_, hup, hknows⟩ := h
      cases hup
      exact hknows
    · cases hrecord : s₀.record with
      | none =>
        have hnone {r : Except Error (Except Denied BreakGlassActor)} {about : About} (s : Process)
            (h : Knows t none about s) : Attempted crypto t password code now r s := by
          intro record hsome
          rw [h.1] at hsome
          cases hsome
        refine (hashPassword_runs password).bind (fun _ => ?_) fun e s _ h => hnone s h
        refine (alert_runs .failed now).bind (fun _ => ?_) fun e s _ h => hnone s h.2
        exact .pure fun s h _ => hnone s h.2
      | some record =>
        refine (verifyPassword_runs password record.passwordHash).bind (fun passwordOk => ?_)
          fun e s _ h => ?_
        · refine Accord.Runs.assume fun hpassword => ?_
          have hthrown {e : Error} (s : Process) (hk : Knows t (some record) ⟨[], [(t, false)], []⟩ s)
              (he : ∀ secret, secretOf crypto record.totpSecret = .ok secret → ¬ Timely now) :
              Attempted crypto t password code now (.error e) s := by
            intro record' hsome hparse htimely
            obtain rfl : record = record' := Option.some.inj (hk.1.symm.trans hsome)
            obtain ⟨secret, hsecret⟩ := hparse.secret
            exact (he secret hsecret htimely).elim
          cases hsecret : secretOf crypto record.totpSecret with
          | error e =>
            refine Accord.Runs.done fun s hk _ => hthrown s hk fun secret hok => ?_
            rw [hsecret] at hok
            cases hok
          | ok secret =>
            refine Accord.Runs.get_bind (g := fun s => _) fun s₁ => ?_
            dsimp only
            cases htotp : verifyTotp crypto code secret now 6 s₁.lastUsedCounter with
            | error e =>
              refine Accord.Runs.done fun s hk _ => hthrown s hk.1 fun _ _ htimely => ?_
              obtain ⟨found, hfound⟩ := verifyTotp_ok crypto htimely
              rw [hfound] at htotp
              cases htotp
            | ok totp =>
              have hfail : (accord crypto).Runs (sem crypto) t
                  (fun s => Knows t (some record) ⟨[], [(t, false)], []⟩ s ∧ s = s₁) (do
                    alert t .failed now
                    pure (.error denied))
                  (Attempted crypto t password code now) := by
                refine Accord.Runs.conseq (P := Knows t (some record) ⟨[], [(t, false)], []⟩)
                  (fun _ _ h => h.1) (fun _ _ _ h => h) ?_
                refine (alert_runs .failed now).bind (fun _ => ?_) fun e s _ h => ?_
                · refine .pure fun s h _ record _ _ _ => ⟨_, rfl, ?_⟩
                  rw [h.2.2]
                  exact .failed
                · cases h.1
              cases passwordOk with
              | false => cases totp <;> exact hfail
              | true =>
                cases totp with
                | none => exact hfail
                | some counter =>
                  obtain ⟨hstep, hspent, hcode⟩ := verifyTotp_some htotp
                  change (accord crypto).Runs (sem crypto) t _
                    (Prog.modify (S := lang) (fun s => s.accept t password code now counter) >>=
                      fun _ => pure (.ok ⟨record.actorEmail, s!"break-glass:{totpCounter now}"⟩ :
                        Except Denied BreakGlassActor)) _
                  refine Accord.Runs.bind (R := fun (r : Except Error Unit) (s : Process) =>
                    r = .ok () ∧ ∃ a : Accepted, a.attempt = t ∧ a.password = password ∧ a.code = code ∧ a.now = now ∧
                      s.about t = ⟨[⟨t, .succeeded, now⟩], [(t, false)], [a]⟩)
                    (.modify fun s h hi => ?_) (fun _ => ?_) fun e s _ h => ?_
                  · obtain ⟨hk, rfl⟩ := h
                    refine ⟨keeps_accept hi hk hspent ⟨hpassword.1 rfl, hstep, secret, hsecret, hcode⟩,
                      rfl, ⟨t, password, code, now, counter, s.repository.record⟩, rfl, rfl, rfl, rfl, ?_⟩
                    rw [about_accept, if_pos rfl, hk.2]
                  · refine .pure fun s h _ record' _ _ _ => ⟨_, rfl, ?_⟩
                    obtain ⟨-, a, hattempt, hpass, hcode', hnow, habout⟩ := h
                    rw [habout]
                    exact .succeeded _ a hattempt hpass hcode' hnow
                  · cases h.1
        · intro record' hsome hparse _
          obtain rfl : record = record' := Option.some.inj (h.1.1.symm.trans hsome)
          exact (h.2.2 e rfl hparse.hash).elim

/-! ### Reloads meanwhile -/

/-- A program that is no business of the attempts. -/
def Kept (crypto : Crypto) (t : Nat) (record : Option BreakGlassRecord) (about : About) {α : Type}
    (p : Prog lang α) : Prop :=
  (accord crypto).Runs (sem crypto) t (Knows t record about) p fun _ s => Knows t record about s

section

variable {record : Option BreakGlassRecord} {about : About} {α β : Type}

theorem Kept.bind {p : Prog lang α} {g : α → Prog lang β} (hp : Kept crypto t record about p)
    (hg : ∀ a, Kept crypto t record about (g a)) : Kept crypto t record about (p >>= g) :=
  Accord.Runs.bind hp hg fun _ _ _ h => h

theorem Kept.handle {p : Prog lang α} {h : Error → Prog lang α} (hp : Kept crypto t record about p)
    (hh : ∀ e, Kept crypto t record about (h e)) : Kept crypto t record about (p.handle h) :=
  Accord.Runs.handle hp (fun _ _ _ h => h) hh

theorem kept_done (r : Except Error α) : Kept crypto t record about (Prog.done (S := lang) r) :=
  Accord.Runs.done fun _ h _ => h

theorem kept_op (o : Op) (h : ∀ s r s', o.answers crypto s r s' → s' = s) :
    Kept crypto t record about (op o) :=
  Accord.Runs.conseq (fun _ _ h => h) (fun _ _ _ h => h.1)
    (idle_runs o (Q := fun _ => True) fun s r s' hs => ⟨h s r s' hs, trivial⟩)

theorem kept_setState (f : RepositoryState → RepositoryState) :
    Kept crypto t record about (setState f) :=
  .modify fun _ h hi => ⟨keeps_repository hi _, h⟩

theorem kept_reload (rt : Runtime) (options : RepositoryStateOptions) :
    Kept crypto t record about (reload rt options) := by
  unfold reload
  refine Kept.bind ?_ fun _ => Kept.bind ?_ fun _ => Kept.bind ?_ fun _ => ?_
  · refine Kept.handle ?_ fun _ => kept_done _
    exact Kept.bind (kept_op _ fun _ _ _ h => h) fun _ => Kept.bind (kept_done _) fun _ =>
      kept_setState _
  · refine Kept.handle ?_ fun _ => kept_done _
    exact Kept.bind (kept_op _ fun _ _ _ h => h) fun _ => Kept.bind (kept_done _) fun _ =>
      kept_setState _
  · unfold reloadBreakGlass
    cases options.breakGlassPath with
    | none => exact kept_done _
    | some path =>
      refine Kept.bind (p := (op (.readBreakGlass path)).attempt) ?_ fun found => ?_
      · exact Accord.Runs.attempt (kept_op _ fun _ _ _ h => h)
      · cases found with
        | error e => exact kept_setState _
        | ok source =>
          refine Kept.handle ?_ fun _ => kept_done _
          refine Kept.bind ?_ fun _ => Kept.bind (kept_done _) fun _ => kept_setState _
          unfold decryptRecord
          split
          · exact kept_op _ fun _ _ _ h => h
          · exact kept_done _
  · split
    · exact kept_op _ fun _ _ _ h => h
    · exact kept_done _

end

/-- How a request ends. -/
def Served (crypto : Crypto) (t : Nat) : Request → Except Error Answer → Process → Prop
  | .reload, _, _ => True
  | .attempt password code now, r, s => ∀ record, s.record = some record → Parseable crypto record →
      Timely now → Concluded t password code now r (s.about t)

theorem stable_served (t : Nat) (c : Request) (r : Except Error Answer) :
    (accord crypto).Stable t (Served crypto t c r) := by
  intro s s' h hr _
  cases c with
  | reload => trivial
  | attempt password code now =>
    intro record hrecord hparse htimely
    rw [hr.2]
    exact h record (hr.1 ▸ hrecord) hparse htimely

theorem serve_runs (rt : Runtime) (options : RepositoryStateOptions) (c : Request) :
    (accord crypto).Runs (sem crypto) t (fun s => s.about t = ⟨[], [], []⟩)
      (serve crypto rt options t c) (Served crypto t c) := by
  cases c with
  | reload =>
    intro x hx hi
    have hreload : Kept crypto t x.state.record ⟨[], [], []⟩ (reload rt options) :=
      kept_reload rt options
    exact Accord.Runs.bind hreload (fun _ => .pure fun _ _ _ => trivial)
      (fun _ _ _ _ => trivial) x ⟨rfl, hx⟩ hi
  | attempt password code now =>
    refine (attempt_runs password code now).bind (fun result => ?_) fun e s _ h => ?_
    · refine .pure fun s h _ record hrecord hparse htimely => ?_
      obtain ⟨result', hresult, hconcluded⟩ := h record hrecord hparse htimely
      cases hresult
      exact hconcluded
    · intro record hrecord hparse htimely
      obtain ⟨result, hresult, -⟩ := h record hrecord hparse htimely
      cases hresult

/-- What every run from a boot keeps. -/
theorem spends_of_reach {rt : Runtime} {options : RepositoryStateOptions}
    {p : Pool lang Request Answer} (h : Reach (service crypto rt options) Booted p) :
    Spends crypto p.state ∧ ∀ t c r, p.Answered t c r → Served crypto t c r p.state := by
  refine (accord crypto).holds (sem_lasting crypto) stable_served
    (fun p c _ => (serve_runs rt options c).conseq (fun _ _ h => h.1) fun _ _ _ h => h) ?_ h
  intro s hs
  refine ⟨⟨?_, ?_, ?_, ?_⟩, fun t => ?_⟩
  · rw [hs.accepted]
    exact .nil
  · rw [hs.accepted, hs.lastUsedCounter]
    rfl
  · simp [hs.accepted]
  · simp [hs.accepted]
  · simp [accord, Process.about, hs.alerts, hs.reachable, hs.accepted]

/-- Break-glass codes are one-time: the steps of the accepted attempts grow, nothing else spends a
step, an accepted attempt was not told that iam is up and had the right password and code, and every
attempt against a record that can be parsed raises the one alert of its outcome. -/
theorem codes_are_one_time {rt : Runtime} {options : RepositoryStateOptions}
    {p : Pool lang Request Answer} (h : Reach (service crypto rt options) Booted p) :
    (p.state.accepted.Pairwise fun later earlier => earlier.counter < later.counter) ∧
      p.state.lastUsedCounter = p.state.accepted.head?.map Accepted.counter ∧
      (∀ a ∈ p.state.accepted, (a.attempt, true) ∉ p.state.reachable ∧
        ∃ record, p.state.record = some record ∧ a.Genuine crypto record) ∧
      ∀ t password code now r record, p.Answered t (.attempt password code now) r →
        p.state.record = some record → Parseable crypto record → Timely now →
        Concluded t password code now r (p.state.about t) := by
  obtain ⟨hspends, hserved⟩ := spends_of_reach h
  refine ⟨hspends.ordered, hspends.last, fun a ha => ⟨hspends.down a ha, hspends.genuine a ha⟩, ?_⟩
  intro t password code now r record hanswered hrecord hparse htimely
  exact hserved t _ r hanswered record hrecord hparse htimely

/-- Two attempts with one code, both suspended at once, and a later one with the next code. -/
def threeAttempts : Pool lang Request Answer :=
  (serviceDriver sampleCrypto sampleRuntime ⟨none, false, false⟩).drive ⟨sampleProcess, []⟩
    [.arrive (.attempt "opensesame" "287082" 59), .arrive (.attempt "opensesame" "287082" 59),
      .run 0 (.reachable false), .run 1 (.reachable false), .run 1 .done, .run 0 .done,
      .arrive (.attempt "opensesame" "359152" 61), .run 2 (.reachable false), .run 2 .done]

/-- One of the two is accepted, and the later one. -/
theorem codes_are_one_time_twice :
    threeAttempts.state.accepted.map (fun a => (a.attempt, a.counter)) = [(2, 2), (1, 1)] ∧
      (threeAttempts.state.accepted.Pairwise fun later earlier => earlier.counter < later.counter) ∧
      threeAttempts.state.lastUsedCounter =
        threeAttempts.state.accepted.head?.map Accepted.counter ∧
      (∀ a ∈ threeAttempts.state.accepted, (a.attempt, true) ∉ threeAttempts.state.reachable ∧
        ∃ record, threeAttempts.state.record = some record ∧ a.Genuine sampleCrypto record) ∧
      ∀ t password code now r record, threeAttempts.Answered t (.attempt password code now) r →
        threeAttempts.state.record = some record → Parseable sampleCrypto record → Timely now →
        Concluded t password code now r (threeAttempts.state.about t) :=
  ⟨by decide +kernel, codes_are_one_time (Driver.drive_reach
    (serviceDriver_follows sampleCrypto sampleRuntime ⟨none, false, false⟩) sampleProcess_booted _)⟩

end ConfigRegistry.Auth
