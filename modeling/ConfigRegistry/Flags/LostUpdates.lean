import ConfigRegistry.Async.Accord
import ConfigRegistry.Flags.FlagWrites
import ConfigRegistry.Js.Codec

/-!
# Flags that stay set

A set writes the document it has read, with one value changed. This file shows that values stay as
they were set, and that a set changes nothing else, in the runs in which a set rewrites `flags.yaml`
only when that is still the text it has read; and gives a run of two sets one of which is lost.
-/

namespace ConfigRegistry.Flags

open Js Async Store

/-! ### One value of a document -/

/-- The value of a flag in an environment, as a document has it. -/
def flagIn (document : Record) (name environment : String) : Option Value :=
  (asRecord (document.lookup "flags")).bind fun flags =>
    (asRecord (flags.lookup name)).bind fun values => values.lookup environment

theorem lookup_assignKey_self {record : Record} {key : String} (value : Value)
    (h : key ≠ "__proto__") : (assignKey record key value).lookup key = some value := by
  rw [assignKey, if_neg fun hproto => h hproto.1, Record.lookup_set_self]

theorem lookup_assignKey_ne {record : Record} {key k : String} (value : Value) (h : k ≠ key) :
    (assignKey record key value).lookup k = record.lookup k := by
  rw [assignKey]
  split
  · rfl
  · exact Record.lookup_set_ne _ _ h

/-- A set changes its own value, and no other. -/
theorem flagIn_withFlag {document : Record} {name environment : String} (value : Bool)
    (hname : name ≠ "__proto__") (henvironment : environment ≠ "__proto__")
    (name' environment' : String) :
    flagIn (withFlag document name environment value) name' environment' =
      if name' = name ∧ environment' = environment then some (.bool value)
      else flagIn document name' environment' := by
  have hgetD (values : Option Value) (key : String) :
      ((asRecord values).getD []).lookup key = (asRecord values).bind fun r => r.lookup key := by
    cases asRecord values <;> rfl
  rw [flagIn, withFlag, Record.lookup_set_self, asRecord_obj, Option.bind_some]
  by_cases hn : name' = name
  · subst hn
    rw [lookup_assignKey_self _ hname, asRecord_obj, Option.bind_some]
    by_cases he : environment' = environment
    · subst he
      rw [lookup_assignKey_self _ henvironment, if_pos ⟨rfl, rfl⟩]
    · rw [lookup_assignKey_ne _ he, if_neg fun h => he h.2, hgetD, flagIn]
      cases hflags : asRecord (document.lookup "flags") <;> rfl
  · rw [lookup_assignKey_ne _ hn, if_neg fun h => hn h.1, flagIn]
    cases hflags : asRecord (document.lookup "flags") <;> rfl

section

variable (rt : Runtime)

/-- The value of a flag in an environment, as the text of `flags.yaml` has it. -/
def storedFlag (source : Option String) (name environment : String) : Option Value :=
  match source with
  | none => none
  | some text =>
    if text = "" then none
    else (rt.parseYaml text).toOption.bind fun parsed =>
      (asRecord (some parsed)).bind fun document => flagIn document name environment

variable {rt}

/-- The document that is changed has the values of the stored one. -/
theorem flagIn_documentOf (parsed : Value) (name environment : String) :
    flagIn (documentOf parsed) name environment =
      (asRecord (some parsed)).bind fun document => flagIn document name environment := by
  cases parsed with
  | obj fields =>
    rw [documentOf]
    split
    · rfl
    · rename_i hnone
      rw [Bool.not_eq_true, Option.isSome_eq_false_iff, Option.isNone_iff_eq_none] at hnone
      rw [asRecord_obj, Option.bind_some, flagIn, flagIn, hnone]
      rfl
  | _ => rfl

/-- What `stringify` and `parse` of the yaml package make of each other's results, and of no text. -/
structure RoundTrips (rt : Runtime) : Prop where
  parse : ∀ v, rt.parseYaml (rt.stringifyYaml v) = .ok v
  empty : ∀ v, rt.parseYaml "" = .ok v → v = .null

/-- The text that a set writes has its own value, and otherwise those of the text it read. -/
theorem storedFlag_nextContent (yaml : RoundTrips rt) {current : Option String}
    {name environment content : String} {value : Bool} (hname : name ≠ "__proto__")
    (henvironment : environment ≠ "__proto__")
    (h : nextContent rt current name environment value = .ok content) (name' environment' : String) :
    storedFlag rt (some content) name' environment' =
      if name' = name ∧ environment' = environment then some (.bool value)
      else storedFlag rt current name' environment' := by
  unfold nextContent at h
  cases hparsed : parseCurrent rt current with
  | error e =>
    rw [hparsed] at h
    cases h
  | ok parsed =>
    rw [hparsed] at h
    cases h
    have hnonempty : rt.stringifyYaml (.obj (withFlag (documentOf parsed) name environment value)) ≠ "" := by
      intro hempty
      have hnull := yaml.empty _ (hempty ▸ yaml.parse _)
      cases hnull
    rw [storedFlag, if_neg hnonempty, yaml.parse]
    rw [Except.toOption, Option.bind_some, asRecord_obj, Option.bind_some]
    rw [flagIn_withFlag value hname henvironment, flagIn_documentOf]
    congr 1
    unfold parseCurrent at hparsed
    unfold storedFlag
    cases current with
    | none =>
      cases hparsed
      rfl
    | some source =>
      dsimp only at hparsed ⊢
      split at hparsed
      · cases hparsed
        rw [if_pos ‹_›]
        rfl
      · rw [if_neg ‹_›, hparsed]
        rfl

/-! ### Sets -/

/-- The last set of a flag in an environment that took effect. -/
def State.latest (s : State) (name environment : String) : Option SetEffect :=
  s.effects.find? fun e => e.call.name == name && e.call.environment == environment

/-- The set stored its own value, and left all others. -/
structure SetEffect.Faithful (rt : Runtime) (e : SetEffect) : Prop where
  own : storedFlag rt e.after e.call.name e.call.environment = some (.bool e.call.value)
  others : ∀ name environment, ¬ (name = e.call.name ∧ environment = e.call.environment) →
    storedFlag rt e.after name environment = storedFlag rt e.before name environment

/-- Every flag has the value it was last set to, and each set changed nothing else. -/
structure Kept (rt : Runtime) (s : State) : Prop where
  latest : ∀ name environment e, s.latest name environment = some e →
    storedFlag rt s.flags name environment = some (.bool e.call.value)
  effects : ∀ e ∈ s.effects, e.Faithful rt

variable (rt) (contentHash : String → String)

/-- The write would put another text in place of the one that `flags.yaml` has. -/
structure State.Rewrites (s : State) (call : SetCall) (content : String) : Prop where
  other : s.flags ≠ some content
  valid : (s.validate rt content).isOk = true
  expected : ∀ etag, call.expectedEtag = some etag → s.flags.map contentHash = some etag

/-- The condition on steps: a set rewrites `flags.yaml` only when that is still the text it has
read. -/
def semInTurn : Sem lang :=
  { sem rt contentHash with
    step o s r s' := o.answers rt contentHash s r s' ∧
      ∀ t call base content, o = .write t call base content →
        s.Rewrites rt contentHash call content → s.flags = base }

/-- The condition on requests: no flag and no environment is called `__proto__`. -/
def Request.nameable : Request → Prop
  | .set call => call.name ≠ "__proto__" ∧ call.environment ≠ "__proto__"
  | _ => True

/-- The service in the runs that meet the condition. -/
def serviceInTurn : System lang Request (Option FlagWriteResult) :=
  { service rt contentHash with
    sem := semInTurn rt contentHash
    mayArrive := fun _ c => c.elsewhere ∧ c.nameable }

variable {rt contentHash}

/-- What a write does: nothing, or it stores the text. -/
theorem write_cases (hash : Function.Injective contentHash) {s s' : State} {t : Nat} {call : SetCall}
    {content : String} {r : Except Error FlagWriteResult}
    (h : (r, s') = s.write rt contentHash t call content) :
    s' = s ∧ (∀ result, r = .ok result → result.accepted = false) ∨
      (s.flags ≠ some content → s.Rewrites rt contentHash call content) ∧ s'.flags = some content ∧
        s'.effects = ⟨t, call, s.flags, some content⟩ :: s.effects := by
  unfold State.write at h
  split at h
  · cases h
    refine .inl ⟨rfl, fun result hr => ?_⟩
    cases hr
    rfl
  · rename_i document hvalid
    split at h
    · cases h
      refine .inl ⟨rfl, fun result hr => ?_⟩
      cases hr
    · rename_i result db hwrite
      cases h
      rcases writeMany_cases hash hwrite with ⟨hdb, hrefused⟩ | ⟨hok, hcarried⟩
      · have hnot := hrefused result rfl
        refine .inl ⟨?_, fun result' hr => ?_⟩
        · rw [hnot, hdb]
          rfl
        · cases hr
          cases result with
          | conflict path actual revision => rfl
          | written _ => cases hnot
          | unchanged _ => cases hnot
      · have hflags : db.files.lookup "flags.yaml" = some content := hcarried.lookup "flags.yaml"
        have haccepted : result.accepted = true := by
          rcases hok with ⟨hok, -⟩ | ⟨hok, -⟩ <;> cases hok <;> rfl
        refine .inr ⟨fun hother => ⟨hother, by rw [hvalid]; rfl, fun etag hetag => ?_⟩, hflags, ?_⟩
        · refine (hcarried.expected _ (List.mem_singleton.2 rfl) (some etag) ?_).symm
          rw [SetCall.request, hetag]
          rfl
        · dsimp only
          rw [haccepted, if_pos rfl, hflags]

/-- A text with the value of a set, and otherwise those that are stored, keeps all flags. -/
theorem Kept.store {s s' : State} {t : Nat} {call : SetCall} {content : String} (h : Kept rt s)
    (hflags : s'.flags = some content)
    (heffects : s'.effects = ⟨t, call, s.flags, some content⟩ :: s.effects)
    (hown : storedFlag rt (some content) call.name call.environment = some (.bool call.value))
    (hothers : ∀ name environment, ¬ (name = call.name ∧ environment = call.environment) →
      storedFlag rt (some content) name environment = storedFlag rt s.flags name environment) :
    Kept rt s' := by
  refine ⟨fun name environment e he => ?_, fun e he => ?_⟩
  · rw [State.latest, heffects, List.find?_cons] at he
    rw [hflags]
    split at he
    · rename_i hsame
      simp only [Bool.and_eq_true, beq_iff_eq] at hsame
      obtain ⟨rfl, rfl⟩ := hsame
      cases he
      exact hown
    · rename_i hother
      rw [hothers name environment ?_]
      · exact h.latest name environment e he
      · rintro ⟨rfl, rfl⟩
        simp at hother
  · rw [heffects] at he
    rcases List.mem_cons.1 he with rfl | he
    · exact ⟨hown, hothers⟩
    · exact h.effects e he

/-- What was set by call `t`. -/
def State.effectsOf (s : State) (t : Nat) : List SetEffect := s.effects.filter fun e => e.t == t

/-- Calls keep the flags, and what concerns a call is its own. -/
def accord (rt : Runtime) : Accord lang where
  inv := Kept rt
  rely t s s' := s'.effectsOf t = s.effectsOf t
  fresh t s := s.effectsOf t = []
  rely_refl _ _ := rfl
  rely_trans _ _ _ _ h h' := h'.trans h
  fresh_rely _ _ _ h hr := hr.trans h

theorem sem_lasting : (semInTurn rt contentHash).Lasting := ⟨fun _ _ _ h => h, fun _ _ h => h⟩

variable {t : Nat}

/-- A result that was accepted is that of the one effect of the call. -/
def Effected (t : Nat) (call : SetCall) (r : Except Error FlagWriteResult) (s : State) : Prop :=
  ∀ result, r = .ok result → result.accepted = true → ∃ e, s.effectsOf t = [e] ∧ e.call = call

theorem write_runs (yaml : RoundTrips rt) (hash : Function.Injective contentHash) {call : SetCall}
    {base : Option String} {content : String}
    (hname : call.name ≠ "__proto__" ∧ call.environment ≠ "__proto__")
    (hnext : nextContent rt base call.name call.environment call.value = .ok content) :
    (accord rt).Runs (semInTurn rt contentHash) t (fun s => s.effectsOf t = [])
      (Prog.op (S := lang) (.write t call base content)) (Effected t call) := by
  refine .op sem_lasting (fun _ _ h hr _ => hr.trans h) (fun r s s' h hr _ => ?_)
    (fun _ _ _ => trivial) fun s r s' hnone hi hs => ?_
  · intro result hok haccepted
    obtain ⟨e, he, hcall⟩ := h result hok haccepted
    exact ⟨e, hr.trans he, hcall⟩
  have hnext' := storedFlag_nextContent yaml hname.1 hname.2 hnext
  obtain ⟨hs, hturn⟩ := hs
  have hturn := hturn t call base content rfl
  have hstored (hrewrites : s.flags ≠ some content → s.Rewrites rt contentHash call content)
      (hflags : s'.flags = some content)
      (heffects : s'.effects = ⟨t, call, s.flags, some content⟩ :: s.effects) :
      (accord rt).Keeps t s s' ∧ s'.effectsOf t = [⟨t, call, s.flags, some content⟩] := by
    refine ⟨⟨hi.store hflags heffects ?_ fun name environment hother => ?_, fun u hu => ?_⟩, ?_⟩
    · rw [hnext', if_pos ⟨rfl, rfl⟩]
    · by_cases hsame : s.flags = some content
      · rw [hsame]
      · rw [hnext', if_neg hother, hturn (hrewrites hsame)]
    · change s'.effectsOf u = s.effectsOf u
      rw [State.effectsOf, heffects, List.filter_cons_of_neg (by simpa using Ne.symm hu)]
      rfl
    · have hbefore : s.effects.filter (fun e => e.t == t) = [] := hnone
      rw [State.effectsOf, heffects, List.filter_cons_of_pos (by simp), hbefore]
  have hwrite {r' : Except Error FlagWriteResult} (h : (r', s') = s.write rt contentHash t call content) :
      (accord rt).Keeps t s s' ∧ Effected t call r' s' := by
    rcases write_cases hash h with ⟨rfl, hrefused⟩ | ⟨hrewrites, hflags, heffects⟩
    · refine ⟨.refl hi, fun result hok haccepted => ?_⟩
      rw [hrefused result hok] at haccepted
      cases haccepted
    · obtain ⟨hkeep, heffect⟩ := hstored hrewrites hflags heffects
      exact ⟨hkeep, fun _ _ _ => ⟨_, heffect, rfl⟩⟩
  rcases hs with hs | ⟨herr, rfl | hs⟩
  · exact hwrite hs
  · refine ⟨.refl hi, fun result hok => ?_⟩
    rw [hok] at herr
    cases herr
  · refine ⟨(@hwrite (s.write rt contentHash t call content).1 (by rw [hs])).1, fun result hok => ?_⟩
    rw [hok] at herr
    cases herr

/-- A set that has not taken effect. -/
theorem stable_unset : (accord rt).Stable t fun s => s.effectsOf t = [] := fun _ _ h hr _ => hr.trans h

theorem read_runs : (accord rt).Runs (semInTurn rt contentHash) t (fun s => s.effectsOf t = [])
    (Prog.op (S := lang) .read) fun _ s => s.effectsOf t = [] := by
  refine .op sem_lasting stable_unset (fun _ => stable_unset) (fun _ _ _ => trivial) ?_
  intro s r s' hnone hi hs
  obtain rfl := hs.1.2
  exact ⟨.refl hi, hnone⟩

theorem set_runs (yaml : RoundTrips rt) (hash : Function.Injective contentHash) {call : SetCall}
    (hname : call.name ≠ "__proto__" ∧ call.environment ≠ "__proto__") :
    (accord rt).Runs (semInTurn rt contentHash) t (fun s => s.effectsOf t = []) (FlagWriteService.set rt t call)
      (Effected t call) := by
  have herror (e : Error) (s : State) : Effected t call (.error e) s := fun _ h => by cases h
  refine .bind read_runs (fun current => ?_) fun e s _ _ => herror e s
  refine .bind (R := fun r (s : State) => s.effectsOf t = [] ∧
    r = nextContent rt current call.name call.environment call.value) (.done fun s h _ => ⟨h, rfl⟩)
    (fun content => .assume fun hnext => .get_bind fun s => ?_) fun e s _ _ => herror e s
  cases s.validate rt content with
  | error errors =>
    refine .pure fun s' _ _ result hok haccepted => ?_
    cases hok
    cases haccepted
  | ok document => exact (write_runs yaml hash hname hnext.symm).conseq (fun _ _ h => h.1) fun _ _ _ h => h

/-- What holds when a call has ended: a set that was accepted has its one effect. -/
def Ended (t : Nat) (c : Request) (r : Except Error (Option FlagWriteResult)) (s : State) : Prop :=
  ∀ call result, c = .set call → r = .ok (some result) → result.accepted = true →
    ∃ e, s.effectsOf t = [e] ∧ e.call = call

theorem stable_ended (c : Request) (r : Except Error (Option FlagWriteResult)) :
    (accord rt).Stable t (Ended t c r) := by
  intro s s' h hr _ call result hc hok haccepted
  obtain ⟨e, he, hcall⟩ := h call result hc hok haccepted
  exact ⟨e, hr.trans he, hcall⟩

/-- What leaves the flags and the effects alone keeps them. -/
theorem keeps_of_flags {s s' : State} (h : Kept rt s) (hflags : s'.flags = s.flags)
    (heffects : s'.effects = s.effects) : (accord rt).Keeps t s s' := by
  refine ⟨⟨fun name environment e he => ?_, fun e he => ?_⟩, fun u _ => ?_⟩
  · rw [hflags]
    rw [State.latest, heffects] at he
    exact h.latest name environment e he
  · rw [heffects] at he
    exact h.effects e he
  · change s'.effectsOf u = s.effectsOf u
    rw [State.effectsOf, heffects]
    rfl

/-- A transaction on other paths leaves `flags.yaml`. -/
theorem flags_of_elsewhere (hash : Function.Injective contentHash) {requests : List MutationRequest}
    (h : ∀ r ∈ requests, r.path ≠ "flags.yaml") (db : Database) :
    (writeMany contentHash requests [] [] db).2.files.lookup "flags.yaml" =
      db.files.lookup "flags.yaml" := by
  cases hwrite : writeMany contentHash requests [] [] db with
  | mk r db' =>
  rcases writeMany_cases hash hwrite with ⟨hdb, -⟩ | ⟨-, hcarried⟩
  · rw [hdb]
  · rw [hcarried.lookup, requestFor_eq_none.2 h]

theorem serve_runs (yaml : RoundTrips rt) (hash : Function.Injective contentHash) {c : Request}
    (helsewhere : c.elsewhere) (hnameable : c.nameable) :
    (accord rt).Runs (semInTurn rt contentHash) t (fun s => s.effectsOf t = []) (serve rt t c)
      (Ended t c) := by
  cases c with
  | set call =>
    refine .bind (set_runs yaml hash hnameable) (fun result => .pure fun s h _ => ?_) fun e s _ _ => ?_
    · intro call' result' hc hok haccepted
      cases hc
      cases hok
      exact h result rfl haccepted
    · intro call' result' _ hok
      cases hok
  | setEnvironments names =>
    refine .bind (R := fun _ _ => True) (.modify fun s _ hi => ⟨keeps_of_flags hi rfl rfl, trivial⟩)
      (fun _ => .pure fun s _ _ => ?_) fun e s _ _ => ?_ <;> intro call' result' hc <;> cases hc
  | transaction requests =>
    refine .bind (R := fun _ _ => True) (.op sem_lasting stable_unset
      (fun _ _ _ _ _ _ => trivial) (fun _ _ _ => trivial) fun s r s' _ hi hs => ⟨?_, trivial⟩)
      (fun _ => .pure fun s _ _ => ?_) fun e s _ _ => ?_
    · rcases hs.1 with rfl | rfl
      · exact .refl hi
      · exact keeps_of_flags hi (flags_of_elsewhere hash helsewhere s.db) rfl
    · intro call' result' hc
      cases hc
    · intro call' result' hc
      cases hc

end

theorem kept_of_started {rt : Runtime} {s : State} (h : Started s) : Kept rt s := by
  have hnone : s.effects = [] := h
  refine ⟨fun name environment e he => ?_, fun e he => ?_⟩
  · rw [State.latest, hnone] at he
    cases he
  · rw [hnone] at he
    cases he

theorem effectsOf_of_started {s : State} (h : Started s) {t : Nat} : s.effectsOf t = [] := by
  rw [State.effectsOf, show s.effects = [] from h]
  rfl

/-- **Flag updates are not lost** in the runs in which a set rewrites `flags.yaml` only when that is
still the text it has read: every flag has the value it was last set to, no set changed another, and
every set that was accepted has taken effect. -/
theorem flag_updates_are_kept {rt : Runtime} (yaml : RoundTrips rt) {contentHash : String → String}
    (hash : Function.Injective contentHash) {p : Pool lang Request (Option FlagWriteResult)}
    (h : Reach (serviceInTurn rt contentHash) Started p) :
    Kept rt p.state ∧ ∀ t call result, p.Answered t (.set call) (.ok (some result)) →
      result.accepted = true → ∃ e, p.state.effectsOf t = [e] ∧ e.call = call := by
  have hserve (p' : Pool lang Request (Option FlagWriteResult)) (c : Request)
      (hc : (serviceInTurn rt contentHash).mayArrive p' c) :=
    (serve_runs (t := p'.threads.length) yaml hash hc.1 hc.2).conseq
      (fun s _ (hs : (accord rt).fresh p'.threads.length s ∧ s = p'.state) => hs.1) fun _ _ _ hs => hs
  obtain ⟨hkept, hended⟩ := Accord.holds (A := accord rt) sem_lasting (fun _ c r => stable_ended c r) hserve
    (fun s hs => ⟨kept_of_started hs, fun t => effectsOf_of_started hs⟩) h
  exact ⟨hkept, fun t call result hanswer => hended t _ _ hanswer call result rfl rfl⟩

/-- The operations succeed. -/
def perform (rt : Runtime) (contentHash : String → String) :
    (o : Op) → State → Option (Except Error o.Res × State)
  | .read, s => some (.ok s.flags, s)
  | .write t call _ content, s => some (s.write rt contentHash t call content)
  | .transaction requests, s =>
    some (.ok (), { s with db := (writeMany contentHash requests [] [] s.db).2 })

theorem answers_of_perform {rt : Runtime} {contentHash : String → String} {o : Op} {s s' : State}
    {r : Except Error o.Res} (h : perform rt contentHash o s = some (r, s')) :
    o.answers rt contentHash s r s' := by
  cases o with
  | read =>
    cases h
    refine ⟨fun source hsource => ?_, rfl⟩
    cases hsource
    rfl
  | write t call base content => exact .inl (Option.some.inj h).symm
  | transaction requests =>
    cases h
    exact .inr rfl

/-- The service on a schedule; in turn if a set finds the text that it has read. -/
def serviceDriver (rt : Runtime) (contentHash : String → String) (inTurn : Bool) :
    Driver lang Request (Option FlagWriteResult) Unit where
  body := serve rt
  allowArrive _ c :=
    match c with
    | .set call => call.name != "__proto__" && call.environment != "__proto__"
    | .setEnvironments _ => true
    | .transaction requests => requests.all fun r => r.path != "flags.yaml"
  perform _ o s :=
    match o with
    | .write t call base content =>
      if inTurn && s.flags != base then none
      else perform rt contentHash (.write t call base content) s
    | .read => perform rt contentHash .read s
    | .transaction requests => perform rt contentHash (.transaction requests) s

theorem elsewhere_of_allowArrive {rt : Runtime} {contentHash : String → String} {inTurn : Bool}
    {p : Pool lang Request (Option FlagWriteResult)} {c : Request}
    (h : (serviceDriver rt contentHash inTurn).allowArrive p c = true) : c.elsewhere ∧ c.nameable := by
  cases c with
  | set call =>
    simp only [serviceDriver, Bool.and_eq_true, bne_iff_ne] at h
    exact ⟨trivial, h⟩
  | setEnvironments names => exact ⟨trivial, trivial⟩
  | transaction requests =>
    simp only [serviceDriver, List.all_eq_true, bne_iff_ne] at h
    exact ⟨h, trivial⟩

theorem answers_of_driver {rt : Runtime} {contentHash : String → String} {inTurn : Bool} {c : Unit}
    {o : Op} {s s' : State} {r : Except Error o.Res}
    (h : (serviceDriver rt contentHash inTurn).perform c o s = some (r, s')) :
    o.answers rt contentHash s r s' ∧ (inTurn = true → ∀ t call base content,
      o = .write t call base content → s.flags = base) := by
  cases o with
  | write t call base content =>
    simp only [serviceDriver] at h
    split at h
    · cases h
    · rename_i hturn
      refine ⟨answers_of_perform h, fun hin t' call' base' content' ho => ?_⟩
      cases ho
      simpa [hin] using hturn
  | read | transaction _ =>
    refine ⟨answers_of_perform h, fun _ t' call' base' content' ho => ?_⟩
    cases ho

theorem serviceDriver_follows (rt : Runtime) (contentHash : String → String) :
    (serviceDriver rt contentHash false).Follows (service rt contentHash) where
  body := rfl
  allow _ _ _ := trivial
  allowArrive _ _ h := (elsewhere_of_allowArrive h).1
  step _ _ _ _ _ h := (answers_of_driver h).1
  cut _ _ _ _ h := by cases h
  crash _ _ h := by cases h

theorem serviceInTurnDriver_follows (rt : Runtime) (contentHash : String → String) :
    (serviceDriver rt contentHash true).Follows (serviceInTurn rt contentHash) where
  body := rfl
  allow _ _ _ := trivial
  allowArrive _ _ h := elsewhere_of_allowArrive h
  step _ _ _ _ _ h := ⟨(answers_of_driver h).1,
    fun t call base content ho _ => (answers_of_driver h).2 rfl t call base content ho⟩
  cut _ _ _ _ h := by cases h
  crash _ _ h := by cases h

def switchOn (name : String) : SetCall where
  name
  environment := "prod"
  value := true
  expectedEtag := none
  actor := "alice"

def freshState : State where
  db := { files := ∅, revision := 0 }
  environments := ["prod"]

theorem freshState_started : Started freshState := rfl

theorem jsonRuntime_roundTrips : RoundTrips jsonRuntime where
  parse := parse_stringify
  empty v h := by cases h

/-- Two flags are switched on, one after the other. -/
def inTurn : Pool lang Request (Option FlagWriteResult) :=
  (serviceDriver jsonRuntime id true).drive ⟨freshState, []⟩
    [.arrive (.set (switchOn "NewCheckout")), .run 0 (), .run 0 (),
      .arrive (.set (switchOn "Search")), .run 1 (), .run 1 ()]

/-- Both are on. -/
theorem flag_updates_are_kept_in_turn :
    ((storedFlag jsonRuntime inTurn.state.flags "NewCheckout" "prod").map Value.truthy = some true ∧
      (storedFlag jsonRuntime inTurn.state.flags "Search" "prod").map Value.truthy = some true) ∧
    Kept jsonRuntime inTurn.state ∧ ∀ t call result,
      inTurn.Answered t (.set call) (.ok (some result)) → result.accepted = true →
        ∃ e, inTurn.state.effectsOf t = [e] ∧ e.call = call := by
  refine ⟨⟨?_, ?_⟩, flag_updates_are_kept jsonRuntime_roundTrips Function.injective_id
    (Driver.drive_reach (serviceInTurnDriver_follows jsonRuntime id) freshState_started _)⟩
  · decide +kernel
  · decide +kernel

/-- Both sets read before either writes. -/
def overlapping : Pool lang Request (Option FlagWriteResult) :=
  (serviceDriver jsonRuntime id false).drive ⟨freshState, []⟩
    [.arrive (.set (switchOn "NewCheckout")), .arrive (.set (switchOn "Search")), .run 0 (), .run 1 (),
      .run 0 (), .run 1 ()]

/-- The first flag is lost. -/
theorem flag_update_is_lost :
    ¬ ∀ p, Reach (service jsonRuntime id) Started p →
      Kept jsonRuntime p.state ∧ ∀ t call result, p.Answered t (.set call) (.ok (some result)) →
        result.accepted = true → ∃ e, p.state.effectsOf t = [e] ∧ e.call = call := by
  intro h
  have hreach : Reach (service jsonRuntime id) Started overlapping :=
    Driver.drive_reach (serviceDriver_follows jsonRuntime id) freshState_started _
  have hlatest : (overlapping.state.latest "NewCheckout" "prod").map (fun e => e.call.value) =
      some true := by decide +kernel
  have hlost : storedFlag jsonRuntime overlapping.state.flags "NewCheckout" "prod" = none := by
    decide +kernel
  obtain ⟨e, he, -⟩ := Option.map_eq_some_iff.1 hlatest
  have hkept := (h _ hreach).1.latest "NewCheckout" "prod" e he
  rw [hlost] at hkept
  cases hkept

end ConfigRegistry.Flags
