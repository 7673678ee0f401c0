import ConfigRegistry.Async.Execution
import ConfigRegistry.Async.Ledger
import ConfigRegistry.Async.Results
import ConfigRegistry.Auth.SignIn
import ConfigRegistry.Schema.SchemaSet

/-!
# Where sessions come from

Whatever requests come, with whatever cookies and however they are interleaved, and whatever iam answers: a session
that the guard lets through was signed for a sign-in, and where a reply leads to is a path of this service, or iam
with what the cookie of the same reply keeps.
-/

namespace ConfigRegistry.Auth.SignIn

open Js Json Text Async

variable {rt : Runtime} {codec : SessionCodec} {oidc : Option OidcOptions} {options : OidcOptions} {insecure : Bool}
  {kills : Prop} {t : Nat} {q : Request} {s s' : Gate} {P : Gate → Prop} {α : Type}

/-! ### Claims -/

/-- The claims that a token has to make at a reading of the clock, and what they say. -/
structure Claimed (rt : Runtime) (options : OidcOptions) (now : Rat) (nonce : String) (claims : Doc)
    (who : IdTokenClaims) : Prop where
  iss : claims.member "iss" = some (.str options.issuer.toList)
  aud : .str options.clientId.toList ∈ audienceOf claims
  exp : ∃ exp, claims.member "exp" = some (.num exp) ∧
    numberLe (rt.inMilliseconds (rt.read exp)) (.fin now) = false
  nonce : claims.member "nonce" = some (.str nonce.toList)
  sub : claims.member "sub" = some (.str who.sub.toList) ∧ who.sub ≠ ""
  email : claims.member "email" = some (.str who.email.toList) ∧ who.email ≠ ""

theorem isText_iff {text : String} {value : Doc} : isText text value = true ↔ value = .str text.toList := by
  cases value <;> simp [isText]

theorem iss_of_check {claims : Doc} (h : checkIssuer options claims = .ok ()) :
    claims.member "iss" = some (.str options.issuer.toList) := by
  unfold checkIssuer at h
  split at h
  · rename_i hany
    obtain ⟨value, hvalue, htext⟩ := (Option.any_eq_true _ _).1 hany
    rw [hvalue, isText_iff.1 htext]
  · cases h

theorem aud_of_check {claims : Doc} (h : checkAudience options claims = .ok ()) :
    .str options.clientId.toList ∈ audienceOf claims := by
  unfold checkAudience at h
  split at h
  · rename_i hany
    obtain ⟨value, hmem, htext⟩ := List.any_eq_true.1 hany
    rwa [← isText_iff.1 htext]
  · cases h

theorem exp_of_check {now : Rat} {claims : Doc} (h : checkExpiry rt now claims = .ok ()) :
    ∃ exp, claims.member "exp" = some (.num exp) ∧
      numberLe (rt.inMilliseconds (rt.read exp)) (.fin now) = false := by
  unfold checkExpiry at h
  split at h
  · rename_i exp hexp
    split at h
    · cases h
    · rename_i hle
      exact ⟨exp, hexp, Bool.eq_false_iff.2 hle⟩
  · cases h

theorem nonce_of_check {claims : Doc} {nonce : String} (h : checkNonce claims (some (.str nonce.toList)) = .ok ()) :
    claims.member "nonce" = some (.str nonce.toList) := by
  unfold checkNonce at h
  cases hmember : claims.member "nonce" with
  | none =>
    rw [hmember] at h
    cases h
  | some value =>
    rw [hmember] at h
    cases value with
    | str actual =>
      dsimp only at h
      split at h
      · rename_i hequals
        rw [← String.toList_ofList (l := actual), equals_iff.1 hequals, String.ofList_toList]
      · cases h
    | _ => cases h

theorem text_of_required {detail text : String} {value : Option Doc} (h : requiredText detail value = .ok text) :
    value = some (.str text.toList) ∧ text ≠ "" := by
  unfold requiredText at h
  split at h
  · rename_i chars
    split at h
    · cases h
    · rename_i hne
      obtain rfl := Except.ok.inj h
      refine ⟨by rw [String.toList_ofList], fun hempty => hne ?_⟩
      simpa using congrArg String.toList hempty
  · cases h

theorem claimed_of_validate {now : Rat} {token nonce : String} {who : IdTokenClaims}
    (h : validate rt options now token (some (.str nonce.toList)) = .ok who) :
    ∃ claims, claimsOf rt token = .ok claims ∧ Claimed rt options now nonce claims who := by
  unfold validate at h
  obtain ⟨claims, hclaims, h⟩ := Schema.bind_eq_ok.1 h
  obtain ⟨_, hiss, h⟩ := Schema.bind_eq_ok.1 h
  obtain ⟨_, haud, h⟩ := Schema.bind_eq_ok.1 h
  obtain ⟨_, hexp, h⟩ := Schema.bind_eq_ok.1 h
  obtain ⟨_, hnonce, h⟩ := Schema.bind_eq_ok.1 h
  obtain ⟨sub, hsub, h⟩ := Schema.bind_eq_ok.1 h
  obtain ⟨email, hemail, h⟩ := Schema.bind_eq_ok.1 h
  obtain rfl := Except.ok.inj h
  exact ⟨claims, hclaims, iss_of_check hiss, aud_of_check haud, exp_of_check hexp, nonce_of_check hnonce,
    text_of_required hsub, text_of_required hemail⟩

/-! ### What a run has recorded -/

/-- Nothing is forgotten. -/
structure Grows (s s' : Gate) : Prop where
  exchanges : s.exchanges ⊆ s'.exchanges
  attempts : s.attempts ⊆ s'.attempts
  flows : s.flows ⊆ s'.flows
  sessions : s.sessions ⊆ s'.sessions
  passed : s.passed ⊆ s'.passed

theorem Grows.refl (s : Gate) : Grows s s :=
  ⟨List.Subset.refl _, List.Subset.refl _, List.Subset.refl _, List.Subset.refl _, List.Subset.refl _⟩

theorem Grows.trans {s'' : Gate} (h : Grows s s') (h' : Grows s' s'') : Grows s s'' :=
  ⟨List.Subset.trans h.exchanges h'.exchanges, List.Subset.trans h.attempts h'.attempts,
    List.Subset.trans h.flows h'.flows, List.Subset.trans h.sessions h'.sessions,
    List.Subset.trans h.passed h'.passed⟩

/-- What a flow is read back from. -/
def Minted.value (rt : Runtime) (m : Minted) : Doc := .obj (m.flow.members rt.toSessionRuntime)

/-- Call `t` has had a token for its code from iam that speaks of this sign-in. -/
def Vouched (rt : Runtime) (options : OidcOptions) (s : Gate) (t : Nat) (code : QueryValue) (m : Minted) (now : Rat)
    (who : IdTokenClaims) : Prop :=
  ∃ x ∈ s.exchanges, x.call = t ∧
    x.form = ⟨formText code, options.redirectUri, options.clientId, options.clientSecret, m.flow.verifier⟩ ∧
    ∃ token claims, idTokenOf x.response = .ok token ∧ claimsOf rt token = .ok claims ∧
      Claimed rt options now m.flow.nonce claims who

/-- What a session was signed for: a callback with the cookie and the state of a flow that was started here and has
not run out, and a token of iam for that flow; or an attempt of break-glass that was accepted. -/
inductive Earned (rt : Runtime) (codec : SessionCodec) (oidc : Option OidcOptions) (s : Gate) (i : Issued) : Prop where
  | iam {options : OidcOptions} {m : Minted} {code : QueryValue} (via : i.session.via = "iam")
      (configured : oidc = some options) (minted : m ∈ s.flows)
      (kept : i.request.cookies flowCookie = some (codec.signValue rt.toSessionRuntime (m.value rt)))
      (state : i.request.query "state" = some (.text m.flow.state)) (fresh : i.began < m.made + flowTtl)
      (code_ : i.request.query "code" = some code)
      (vouched : Vouched rt options s i.call code m i.made ⟨i.session.id, i.session.email⟩)
  | breakGlass {a : Attempt} (via : i.session.via = "break-glass") (accepted : a ∈ s.attempts)
      (call : a.call = i.call) (password : a.password = (i.request.body "password").getD "")
      (code : a.code = (i.request.body "code").getD "") (actor : a.actor = ⟨i.session.email, i.session.id⟩)

/-- What holds throughout a run. -/
structure Sound (rt : Runtime) (codec : SessionCodec) (oidc : Option OidcOptions) (s : Gate) : Prop where
  timely : Timely rt s.clock
  flows : ∀ m ∈ s.flows, m.flow.expiresAt = .fin (m.made + flowTtl) ∧ Timely rt m.made
  sessions : ∀ i ∈ s.sessions, i.session.expiresAt = .fin (i.made + sessionTtl) ∧ Timely rt i.made ∧
    Earned rt codec oidc s i
  passed : ∀ e ∈ s.passed, ∃ i ∈ s.sessions, i.session = e.session ∧ e.read < i.made + sessionTtl

theorem Vouched.more {code : QueryValue} {m : Minted} {now : Rat} {who : IdTokenClaims}
    (h : Vouched rt options s t code m now who) (hg : Grows s s') : Vouched rt options s' t code m now who := by
  obtain ⟨x, hx, hrest⟩ := h
  exact ⟨x, hg.exchanges hx, hrest⟩

theorem Earned.more {i : Issued} (h : Earned rt codec oidc s i) (hg : Grows s s') : Earned rt codec oidc s' i := by
  cases h with
  | iam via configured minted kept state fresh code_ vouched =>
    exact .iam via configured (hg.flows minted) kept state fresh code_ (vouched.more hg)
  | breakGlass via accepted call password code actor =>
    exact .breakGlass via (hg.attempts accepted) call password code actor

/-- What is recorded of the world beside the flows and the sessions. -/
theorem Sound.more (h : Sound rt codec oidc s) (hg : Grows s s') (htimely : Timely rt s'.clock)
    (hflows : s'.flows = s.flows) (hsessions : s'.sessions = s.sessions) (hpassed : s'.passed = s.passed) :
    Sound rt codec oidc s' where
  timely := htimely
  flows := by
    rw [hflows]
    exact h.flows
  sessions := by
    rw [hsessions]
    exact fun i hmem => ⟨(h.sessions i hmem).1, (h.sessions i hmem).2.1, (h.sessions i hmem).2.2.more hg⟩
  passed := by
    rw [hpassed, hsessions]
    exact h.passed

def ledger (rt : Runtime) (codec : SessionCodec) (oidc : Option OidcOptions) : Ledger lang where
  inv := Sound rt codec oidc
  grows := Grows
  refl := Grows.refl
  trans _ _ _ := Grows.trans

/-- What a request may rely on: none of its cookies is forged. -/
def Genuine (rt : Runtime) (codec : SessionCodec) (q : Request) (s : Gate) : Prop :=
  ∀ name cookie, q.cookies name = some cookie → Authentic rt codec s cookie

theorem lasts_minted {m : Minted} : (ledger rt codec oidc).Lasts fun s => m ∈ s.flows :=
  fun _ _ h hg => Grows.flows hg h

/-! ### Cookies -/

theorem signed_of_opened {cookie : String} {value : Doc} (h : Authentic rt codec s cookie)
    (hvalue : codec.verifyValue rt.toSessionRuntime cookie = some value) :
    value ∈ s.signed rt ∧ cookie = codec.signValue rt.toSessionRuntime value := by
  rw [SessionCodec.verifyValue] at hvalue
  obtain ⟨payload, hopened, hparsed⟩ := Option.bind_eq_some_iff.1 hvalue
  have hcookie := SessionCodec.opened_eq_some hopened
  obtain ⟨signed, hsigned, rfl⟩ := h payload hcookie
  rw [SessionCodec.parse_payloadOf] at hparsed
  obtain rfl := Option.some.inj hparsed
  exact ⟨hsigned, hcookie⟩

theorem parts_ne_empty (payload mac : String) : "" ≠ payload ++ "." ++ mac := by
  intro h
  have hdot := congrArg (fun text : String => '.' ∈ text.toList) h
  simp at hdot

/-- A cookie that a request does not have is not forged either. -/
theorem Genuine.authentic (h : Genuine rt codec q s) (name : String) :
    Authentic rt codec s ((q.cookies name).getD "") := by
  cases hcookie : q.cookies name with
  | some cookie => exact h name cookie hcookie
  | none => exact fun payload hpayload => (parts_ne_empty _ _ hpayload).elim

theorem isSession_of_mem (hs : Sound rt codec oidc s) {i : Issued} (hi : i ∈ s.sessions) :
    IsSession rt.toSessionRuntime i.session (.obj (i.session.members rt.toSessionRuntime)) := by
  obtain ⟨hexpiry, htimely, -⟩ := hs.sessions i hi
  refine SessionCodec.isSession_members fun n hn => ?_
  rw [hexpiry] at hn
  rw [← Number.fin.inj hn]
  exact htimely.2

theorem isFlow_of_mem (hs : Sound rt codec oidc s) {m : Minted} (hm : m ∈ s.flows) :
    IsFlow rt.toSessionRuntime m.flow (m.value rt) := by
  obtain ⟨hexpiry, htimely⟩ := hs.flows m hm
  refine ⟨fun n hn => ?_, _, rfl, List.Perm.refl _⟩
  rw [hexpiry] at hn
  rw [← Number.fin.inj hn]
  exact htimely.1

theorem mem_signed {value : Doc} (h : value ∈ s.signed rt) :
    (∃ i ∈ s.sessions, value = .obj (i.session.members rt.toSessionRuntime)) ∨ ∃ m ∈ s.flows, value = m.value rt := by
  rw [Gate.signed, List.mem_append, List.mem_map, List.mem_map] at h
  rcases h with ⟨i, hi, rfl⟩ | ⟨m, hm, rfl⟩
  · exact .inl ⟨i, hi, rfl⟩
  · exact .inr ⟨m, hm, rfl⟩

/-- A session that is read was signed here, and has not run out. -/
theorem issued_of_verify (hs : Sound rt codec oidc s) {cookie : String} (h : Authentic rt codec s cookie) {now : Rat}
    {session : Session} (hverify : codec.verify rt.toSessionRuntime now cookie = .ok (some session)) :
    ∃ i ∈ s.sessions, i.session = session ∧ now < i.made + sessionTtl := by
  cases hvalue : codec.verifyValue rt.toSessionRuntime cookie with
  | none =>
    rw [SessionCodec.verify, hvalue] at hverify
    cases hverify
  | some value =>
    obtain ⟨hsigned, hcookie⟩ := signed_of_opened h hvalue
    rcases mem_signed hsigned with ⟨i, hi, rfl⟩ | ⟨m, hm, rfl⟩
    · have hsession := isSession_of_mem hs hi
      rw [hcookie, SessionCodec.verify_session hsession] at hverify
      obtain ⟨rfl, -, n, hn, hlt⟩ := (sessionOf_session hsession now session).1 (Except.ok.inj hverify)
      rw [(hs.sessions i hi).1] at hn
      rw [← Number.fin.inj hn] at hlt
      exact ⟨i, hi, rfl, hlt⟩
    · rw [hcookie, SessionCodec.verify_flow (isFlow_of_mem hs hm)] at hverify
      cases hverify

/-- How the callback comes to exchange a code. -/
theorem flow_of_exchange {now : Rat} {cookie : Option String} {query : String → Option QueryValue} {code : QueryValue}
    {verifier nonce : Option Doc}
    (h : loginCallback rt.toSessionRuntime codec true now cookie query = .exchange code verifier nonce) :
    ∃ flow, codec.verifyValue rt.toSessionRuntime (cookie.getD "") = some flow ∧
      elapsed rt.toSessionRuntime now (flow.member "expiresAt") = false ∧ query "code" = some code ∧
      verifier = flow.member "verifier" ∧ nonce = flow.member "nonce" ∧
      ∃ state, query "state" = some state ∧ sameState state (flow.member "state") = true := by
  unfold loginCallback at h
  simp only [Bool.not_true, Bool.false_eq_true, if_false] at h
  cases hflow : codec.verifyValue rt.toSessionRuntime (cookie.getD "") with
  | none =>
    rw [hflow] at h
    cases h
  | some flow =>
    rw [hflow] at h
    dsimp only at h
    split at h
    · cases h
    · rename_i hlive
      rw [Bool.or_eq_true, not_or, Bool.not_eq_true, Bool.not_eq_true] at hlive
      cases hstate : query "state" with
      | none =>
        rw [hstate] at h
        cases h
      | some state =>
        rw [hstate] at h
        dsimp only at h
        split at h
        · cases h
        · rename_i hsame
          rw [Bool.or_eq_true, not_or, Bool.not_eq_true, Bool.not_eq_true, Bool.not_eq_false'] at hsame
          cases hcode : query "code" with
          | none =>
            rw [hcode] at h
            cases h
          | some code' =>
            rw [hcode] at h
            dsimp only at h
            split at h
            · cases h
            · obtain ⟨rfl, rfl, rfl⟩ := Callback.exchange.inj h
              exact ⟨flow, rfl, hlive.2, rfl, rfl, rfl, state, rfl, by simpa using hsame.2⟩

/-- The flow of a callback that exchanges a code was started here, and the callback has its state. -/
theorem minted_of_exchange (hs : Sound rt codec oidc s) (hq : Genuine rt codec q s) {code : QueryValue}
    {verifier nonce : Option Doc} (h : loginCallback rt.toSessionRuntime codec true s.clock (q.cookies flowCookie)
      q.query = .exchange code verifier nonce) :
    ∃ m ∈ s.flows, q.cookies flowCookie = some (codec.signValue rt.toSessionRuntime (m.value rt)) ∧
      q.query "state" = some (.text m.flow.state) ∧ s.clock < m.made + flowTtl ∧ q.query "code" = some code ∧
      verifier = some (.str m.flow.verifier.toList) ∧ nonce = some (.str m.flow.nonce.toList) := by
  obtain ⟨flow, hflow, hlive, hcode, rfl, rfl, state, hstate, hsame⟩ := flow_of_exchange h
  cases hcookie : q.cookies flowCookie with
  | none =>
    rw [hcookie, Option.getD_none, SessionCodec.verifyValue] at hflow
    obtain ⟨payload, hopened, -⟩ := Option.bind_eq_some_iff.1 hflow
    exact (parts_ne_empty _ _ (SessionCodec.opened_eq_some hopened)).elim
  | some cookie =>
    rw [hcookie, Option.getD_some] at hflow
    obtain ⟨hsigned, hvalue⟩ := signed_of_opened (hq _ _ hcookie) hflow
    rcases mem_signed hsigned with ⟨i, hi, rfl⟩ | ⟨m, hm, rfl⟩
    · have hnone : Doc.member (.obj (i.session.members rt.toSessionRuntime)) "state" = none :=
        ((isSession_of_mem hs hi).member _).trans (by rfl)
      rw [hnone] at hsame
      cases state <;> cases hsame
    · have hisFlow := isFlow_of_mem hs hm
      have hstate' : (m.value rt).member "state" = some (.str m.flow.state.toList) := (hisFlow.member _).trans (by rfl)
      have hverifier : (m.value rt).member "verifier" = some (.str m.flow.verifier.toList) :=
        (hisFlow.member _).trans (by rfl)
      have hnonce : (m.value rt).member "nonce" = some (.str m.flow.nonce.toList) := (hisFlow.member _).trans (by rfl)
      have hexpiry : (m.value rt).member "expiresAt" = some (numberDoc rt.toSessionRuntime m.flow.expiresAt) :=
        (hisFlow.member _).trans (by rfl)
      obtain ⟨hexpires, htimely⟩ := hs.flows m hm
      rw [hexpiry, hexpires, numberDoc, elapsed, rt.read_print _ htimely.1, numberLe_fin, decide_eq_false_iff_not,
        not_le] at hlive
      rw [hstate'] at hsame
      refine ⟨m, hm, by rw [hvalue], ?_, hlive, hcode, hverifier, hnonce⟩
      cases state with
      | text value =>
        rw [sameState, beq_iff_eq, String.toList_inj] at hsame
        rw [hstate, hsame]
      | list values => cases hsame

/-! ### What the programs do -/

theorem grows_records (o : Op) (r : Except Error o.Res) (s : Gate) :
    Grows s (o.records r s) ∧ (o.records r s).flows = s.flows ∧ (o.records r s).sessions = s.sessions ∧
      (o.records r s).passed = s.passed := by
  cases o with
  | fetchToken t endpoint form =>
    cases r with
    | error e => exact ⟨.refl s, rfl, rfl, rfl⟩
    | ok response =>
      exact ⟨⟨List.subset_cons_self _ _, List.Subset.refl _, List.Subset.refl _, List.Subset.refl _,
        List.Subset.refl _⟩, rfl, rfl, rfl⟩
  | attempt t password code =>
    cases r with
    | error e => exact ⟨.refl s, rfl, rfl, rfl⟩
    | ok result =>
      cases result with
      | error detail => exact ⟨.refl s, rfl, rfl, rfl⟩
      | ok actor =>
        exact ⟨⟨List.Subset.refl _, List.subset_cons_self _ _, List.Subset.refl _, List.Subset.refl _,
          List.Subset.refl _⟩, rfl, rfl, rfl⟩
  | isIamReachable => exact ⟨.refl s, rfl, rfl, rfl⟩
  | randomBytes size => exact ⟨.refl s, rfl, rfl, rfl⟩
  | fetchDiscovery url => exact ⟨.refl s, rfl, rfl, rfl⟩

theorem op_runs {o : Op} {R : Except Error o.Res → Gate → Prop} (hP : (ledger rt codec oidc).Lasts P)
    (hR : ∀ r, (ledger rt codec oidc).Lasts (R r)) (hrecords : ∀ r s now, R r { o.records r s with clock := now }) :
    (ledger rt codec oidc).accord.Runs (sem rt kills) t P (op o) fun r s => P s ∧ R r s := by
  refine Ledger.runs_op hP hR (fun s r s' _ hi hstep => ?_) fun s s' hi htorn => ?_
  · obtain ⟨now, htimely, rfl⟩ := hstep
    obtain ⟨hg, hflows, hsessions, hpassed⟩ := grows_records o r s
    have hgrows : Grows s { o.records r s with clock := now } :=
      ⟨hg.exchanges, hg.attempts, hg.flows, hg.sessions, hg.passed⟩
    exact ⟨hgrows, Sound.more hi hgrows htimely hflows hsessions hpassed, hrecords r s now⟩
  · obtain rfl : s' = s := htorn
    exact ⟨.refl s', hi⟩

theorem op_keeps {o : Op} (hP : (ledger rt codec oidc).Lasts P) :
    (ledger rt codec oidc).accord.Idle (sem rt kills) t P (op o) :=
  (op_runs (R := fun _ _ => True) hP (fun _ => .const True) fun _ _ _ => trivial).conseq (fun _ _ hs => hs)
    fun _ _ _ hr => hr.1

theorem discover_keeps (hP : (ledger rt codec oidc).Lasts P) :
    (ledger rt codec oidc).accord.Idle (sem rt kills) t P (discover rt options) := by
  refine .get_bind fun s => ?_
  refine .conseq (fun s' _ hs => hs.1) (fun _ _ _ hr => hr) ?_
  cases s.discovery with
  | some discovery => exact Accord.Idle.pure discovery
  | none =>
    apply Accord.Idle.bind (op_keeps hP)
    intro response
    refine .ite (fun _ => Accord.Idle.fail _) fun _ => ?_
    apply Accord.Idle.bind (Accord.Idle.done _)
    intro body
    split
    · rename_i authorization token _ _
      refine .ite (fun _ => ?_) fun _ => Accord.Idle.fail _
      refine Accord.Idle.bind (.modify fun s' hs hi => ?_) (fun _ => Accord.Idle.pure _)
      have hgrows : Grows s' { s' with discovery := some ⟨authorization, token⟩ } :=
        ⟨List.Subset.refl _, List.Subset.refl _, List.Subset.refl _, List.Subset.refl _, List.Subset.refl _⟩
      have htimely : Timely rt s'.clock := Sound.timely hi
      exact ⟨⟨Sound.more hi hgrows htimely rfl rfl rfl, fun _ _ => hgrows⟩, hP _ _ hs hgrows⟩
    · exact Accord.Idle.fail _

/-- What a code is exchanged for. -/
theorem exchange_runs {m : Minted} {code : QueryValue} :
    (ledger rt codec oidc).accord.Runs (sem rt kills) t (fun s => m ∈ s.flows)
      (exchange rt t options code (some (.str m.flow.verifier.toList)) (some (.str m.flow.nonce.toList)))
      (Accord.IfReturned fun who s => m ∈ s.flows ∧ Vouched rt options s t code m s.clock who) := by
  refine .bind (discover_keeps lasts_minted) (fun discovery => ?_) fun _ _ _ _ => trivial
  have hform : textOf rt (some (.str m.flow.verifier.toList)) = m.flow.verifier := String.ofList_toList
  rw [hform]
  refine .bind (op_runs (R := fun r s => ∀ response, r = .ok response → ⟨t, ⟨formText code, options.redirectUri,
    options.clientId, options.clientSecret, m.flow.verifier⟩, response⟩ ∈ s.exchanges) lasts_minted ?_ ?_)
    (fun response => ?_) fun _ _ _ _ => trivial
  · exact fun r s s' h hg response hr => Grows.exchanges hg (h response hr)
  · rintro r s now response rfl
    exact List.mem_cons_self
  · cases htoken : idTokenOf response with
    | error e => exact .done fun _ _ _ => trivial
    | ok token =>
      refine .get_bind fun s => ?_
      refine .done fun s' hs _ => ?_
      obtain ⟨⟨hmem, hexchange⟩, rfl⟩ := hs
      cases hwho : validate rt options s'.clock token (some (.str m.flow.nonce.toList)) with
      | error e => trivial
      | ok who =>
        obtain ⟨claims, hclaims, hclaimed⟩ := claimed_of_validate hwho
        exact ⟨hmem, _, hexchange response rfl, rfl, rfl, token, claims, htoken, hclaims, hclaimed⟩

theorem grows_sessions (i : Issued) (s : Gate) : Grows s { s with sessions := i :: s.sessions } :=
  ⟨List.Subset.refl _, List.Subset.refl _, List.Subset.refl _, List.subset_cons_self _ _, List.Subset.refl _⟩

theorem grows_flows (m : Minted) (s : Gate) : Grows s { s with flows := m :: s.flows } :=
  ⟨List.Subset.refl _, List.Subset.refl _, List.subset_cons_self _ _, List.Subset.refl _, List.Subset.refl _⟩

theorem grows_passed (e : Passed) (s : Gate) : Grows s { s with passed := e :: s.passed } :=
  ⟨List.Subset.refl _, List.Subset.refl _, List.Subset.refl _, List.Subset.refl _, List.subset_cons_self _ _⟩

theorem Sound.issued (h : Sound rt codec oidc s) {i : Issued} (hexpiry : i.session.expiresAt = .fin (i.made + sessionTtl))
    (htimely : Timely rt i.made) (hearned : Earned rt codec oidc s i) :
    Sound rt codec oidc { s with sessions := i :: s.sessions } where
  timely := h.timely
  flows := h.flows
  sessions := by
    rw [List.forall_mem_cons]
    refine ⟨⟨hexpiry, htimely, hearned.more (grows_sessions i s)⟩, fun j hj => ?_⟩
    obtain ⟨hexpiry', htimely', hearned'⟩ := h.sessions j hj
    exact ⟨hexpiry', htimely', hearned'.more (grows_sessions i s)⟩
  passed := by
    intro e he
    obtain ⟨j, hj, hrest⟩ := h.passed e he
    exact ⟨j, List.mem_cons_of_mem _ hj, hrest⟩

theorem Sound.minted (h : Sound rt codec oidc s) {m : Minted} (hexpiry : m.flow.expiresAt = .fin (m.made + flowTtl))
    (htimely : Timely rt m.made) : Sound rt codec oidc { s with flows := m :: s.flows } where
  timely := h.timely
  flows := by
    rw [List.forall_mem_cons]
    exact ⟨⟨hexpiry, htimely⟩, h.flows⟩
  sessions i hi := by
    obtain ⟨hexpiry', htimely', hearned⟩ := h.sessions i hi
    exact ⟨hexpiry', htimely', hearned.more (grows_flows m s)⟩
  passed := h.passed

theorem Sound.read (h : Sound rt codec oidc s) {e : Passed}
    (hissued : ∃ i ∈ s.sessions, i.session = e.session ∧ e.read < i.made + sessionTtl) :
    Sound rt codec oidc { s with passed := e :: s.passed } where
  timely := h.timely
  flows := h.flows
  sessions i hi := by
    obtain ⟨hexpiry, htimely, hearned⟩ := h.sessions i hi
    exact ⟨hexpiry, htimely, hearned.more (grows_passed e s)⟩
  passed := by
    rw [List.forall_mem_cons]
    exact ⟨hissued, h.passed⟩

theorem issue_runs {began : Rat} {email id via : String}
    (hearned : ∀ s, P s → Sound rt codec oidc s →
      Earned rt codec oidc s ⟨t, q, ⟨email, id, via, .fin (s.clock + sessionTtl)⟩, began, s.clock⟩) :
    (ledger rt codec oidc).accord.Runs (sem rt kills) t P (issue rt codec insecure t q began email id via)
      (Accord.IfReturned fun _ _ => True) := by
  refine .get_bind fun s => ?_
  refine .bind (R := fun _ _ => True) (.modify fun s' hs hi => ?_) (fun _ => .pure fun _ _ _ => trivial)
    fun _ _ _ _ => trivial
  obtain ⟨hP, rfl⟩ := hs
  exact ⟨⟨Sound.issued hi rfl (Sound.timely hi) (hearned s' hP hi), fun _ _ => grows_sessions _ s'⟩, trivial⟩

/-- A reply that shows a page of another route shows it to a session that was read, or at an open path. -/
def Granted (t : Nat) (q : Request) : Reply → Gate → Prop
  | .served session, s => session = none ∧ isOpen q.url = true ∨ ∃ e ∈ s.passed, e.call = t ∧ session = some e.session
  | .redirect _ _ _, _ | .page _ _, _ | .notFound, _ => True

theorem lasts_granted {reply : Reply} : (ledger rt codec oidc).Lasts (Granted t q reply) := by
  intro s s' h hg
  cases reply with
  | served session =>
    refine h.imp_right ?_
    rintro ⟨e, he, hrest⟩
    exact ⟨e, Grows.passed hg he, hrest⟩
  | redirect code location cookies => trivial
  | page code page => trivial
  | notFound => trivial

theorem lasts_true : (ledger rt codec oidc).Lasts fun _ => True := .const True

theorem signInFailed_runs {code : Nat} {detail : String} :
    (ledger rt codec oidc).accord.Runs (sem rt kills) t (fun _ => True) (signInFailed oidc code detail)
      (Accord.IfReturned (Granted t q)) :=
  .bind (op_keeps lasts_true) (fun _ => .pure fun _ _ _ => trivial) fun _ _ _ _ => trivial

theorem login_runs {session : Option Session} :
    (ledger rt codec oidc).accord.Runs (sem rt kills) t (fun _ => True) (login oidc q session)
      (Accord.IfReturned (Granted t q)) := by
  refine .ite (fun _ => .pure fun _ _ _ => trivial) fun _ => ?_
  refine .bind (op_keeps lasts_true) (fun _ => ?_) fun _ _ _ _ => trivial
  cases nextOfQuery (q.query "next") with
  | error e => exact .done fun _ _ _ => trivial
  | ok next => exact .ite (fun _ => .pure fun _ _ _ => trivial) fun _ => .pure fun _ _ _ => trivial

theorem authorizationUrl_keeps {flow : FlowState} (hP : (ledger rt codec oidc).Lasts P) :
    (ledger rt codec oidc).accord.Idle (sem rt kills) t P (authorizationUrl rt options flow) :=
  Accord.Idle.bind (discover_keeps hP) fun _ => .ite (fun _ => Accord.Idle.fail _) fun _ => Accord.Idle.pure _

theorem loginIam_runs :
    (ledger rt codec oidc).accord.Runs (sem rt kills) t (fun _ => True) (loginIam rt codec oidc insecure t q)
      (Accord.IfReturned (Granted t q)) := by
  unfold loginIam
  split
  · exact .pure fun _ _ _ => trivial
  · refine .bind (op_keeps lasts_true) (fun _ => ?_) fun _ _ _ _ => trivial
    refine .bind (op_keeps lasts_true) (fun _ => ?_) fun _ _ _ _ => trivial
    refine .bind (op_keeps lasts_true) (fun _ => ?_) fun _ _ _ _ => trivial
    refine .get_bind fun s => ?_
    refine .conseq (P := fun _ => Timely rt s.clock) ?_ (fun _ _ _ hr => hr) ?_
    · rintro s' hi ⟨-, rfl⟩
      exact Sound.timely hi
    · refine .bind (Accord.Idle.done _) (fun next => ?_) fun _ _ _ _ => trivial
      refine .bind (authorizationUrl_keeps (.const _)) (fun _ => ?_) fun _ _ _ _ => trivial
      refine .bind (R := fun _ _ => True) (.modify fun s' htimely hi => ?_) (fun _ => .pure fun _ _ _ => trivial)
        fun _ _ _ _ => trivial
      exact ⟨⟨Sound.minted hi rfl htimely, fun _ _ => grows_flows _ s'⟩, trivial⟩

theorem callback_runs :
    (ledger rt codec oidc).accord.Runs (sem rt kills) t (Genuine rt codec q) (callback rt codec oidc insecure t q)
      (Accord.IfReturned (Granted t q)) := by
  unfold callback
  split
  · exact .pure fun _ _ _ => trivial
  · rename_i options
    refine .get_bind fun s => ?_
    split
    · exact .pure fun _ _ _ => trivial
    · exact signInFailed_runs.conseq (fun _ _ _ => trivial) fun _ _ _ hr => hr
    · rename_i code verifier nonce hexchange
      intro x hx hi
      obtain ⟨hgenuine, rfl⟩ := hx
      obtain ⟨m, hm, hcookie, hstate, hlive, hcode, rfl, rfl⟩ := minted_of_exchange hi hgenuine hexchange
      refine Accord.Runs.bind (P := fun s : Gate => m ∈ s.flows) (R := fun r (s : Gate) => ∀ who, r = .ok (.ok who) →
        m ∈ s.flows ∧ Vouched rt options s t code m s.clock who) (.attempt (exchange_runs.conseq (fun _ _ hs => hs)
        fun r s _ hr who hwho => ?_)) (fun claims => ?_) (fun _ _ _ _ => trivial) x hm hi
      · obtain rfl := Except.ok.inj hwho
        exact hr
      cases claims with
      | error e => exact signInFailed_runs.conseq (fun _ _ _ => trivial) fun _ _ _ hr => hr
      | ok who =>
        refine .bind (issue_runs fun (s : Gate) hs _ => ?_) (fun cookie => ?_) fun _ _ _ _ => trivial
        · obtain ⟨hmem, hvouched⟩ := hs who rfl
          exact .iam rfl rfl hmem hcookie hstate hlive hcode hvouched
        · refine .bind (R := fun _ _ => True) (.done fun _ _ _ => trivial) (fun next => ?_) fun _ _ _ _ => trivial
          exact .pure fun _ _ _ => trivial

theorem breakGlass_runs :
    (ledger rt codec oidc).accord.Runs (sem rt kills) t (fun _ => True) (breakGlass rt codec oidc insecure t q)
      (Accord.IfReturned (Granted t q)) := by
  refine .get_bind fun s => ?_
  refine .conseq (P := fun _ => True) (fun _ _ _ => trivial) (fun _ _ _ hr => hr) ?_
  refine .bind (op_runs (o := .attempt t _ _) (R := fun r s => ∀ actor, r = .ok (.ok actor) →
    ⟨t, (q.body "password").getD "", (q.body "code").getD "", actor⟩ ∈ s.attempts) lasts_true ?_ ?_)
    (fun result => ?_) fun _ _ _ _ => trivial
  · exact fun r s s' h hg actor hr => Grows.attempts hg (h actor hr)
  · rintro r s now actor rfl
    exact List.mem_cons_self
  · cases result with
    | error detail => exact signInFailed_runs.conseq (fun _ _ _ => trivial) fun _ _ _ hr => hr
    | ok actor =>
      refine .bind (issue_runs fun s hs _ => ?_) (fun _ => .pure fun _ _ _ => trivial) fun _ _ _ _ => trivial
      exact .breakGlass rfl (hs.2 actor rfl) rfl rfl rfl rfl

/-- What the guard makes of the cookie of a request. -/
theorem identify_runs :
    (ledger rt codec oidc).accord.Runs (sem rt kills) t (Genuine rt codec q) (identify rt codec t q)
      (Accord.IfReturned fun session s => Genuine rt codec q s ∧
        ∀ x, session = some x → ∃ e ∈ s.passed, e.call = t ∧ e.session = x) := by
  refine .get_bind fun s => ?_
  refine .bind (R := fun r s' => (Genuine rt codec q s' ∧ s' = s) ∧
      codec.verify rt.toSessionRuntime s.clock ((q.cookies sessionCookie).getD "") = r)
    (.done fun s' hs _ => ⟨hs, rfl⟩) (fun session => ?_) fun _ _ _ _ => trivial
  cases session with
  | none => exact .pure fun s' hs _ => ⟨hs.1.1, fun x hx => (by cases hx)⟩
  | some session =>
    refine .bind (R := fun _ (s' : Gate) => Genuine rt codec q s' ∧ ∃ e ∈ s'.passed, e.call = t ∧ e.session = session)
      (.modify fun s' hs hi => ?_) (fun _ => .pure fun s' hs _ => ⟨hs.1, fun x hx => ?_⟩) fun _ _ _ _ => trivial
    · obtain ⟨⟨hgenuine, rfl⟩, hverify⟩ := hs
      have hissued := issued_of_verify hi (hgenuine.authentic sessionCookie) hverify
      exact ⟨⟨Sound.read hi hissued, fun _ _ => grows_passed _ s'⟩, hgenuine, _, List.mem_cons_self, rfl, rfl⟩
    · obtain rfl := Option.some.inj hx
      exact hs.2

theorem handler_runs {session : Option Session} (h : (session.isSome || isOpen q.url) = true) :
    (ledger rt codec oidc).accord.Runs (sem rt kills) t (fun s => Genuine rt codec q s ∧
        ∀ x, session = some x → ∃ e ∈ s.passed, e.call = t ∧ e.session = x)
      (handler rt codec oidc insecure t q session) (Accord.IfReturned (Granted t q)) := by
  unfold handler
  split
  · exact login_runs.conseq (fun _ _ _ => trivial) fun _ _ _ hr => hr
  · exact loginIam_runs.conseq (fun _ _ _ => trivial) fun _ _ _ hr => hr
  · exact callback_runs.conseq (fun _ _ hs => hs.1) fun _ _ _ hr => hr
  · exact breakGlass_runs.conseq (fun _ _ _ => trivial) fun _ _ _ hr => hr
  · exact .pure fun _ _ _ => trivial
  · refine .pure fun s hs _ => ?_
    cases session with
    | none => exact .inl ⟨rfl, h⟩
    | some x =>
      obtain ⟨e, he, hcall, rfl⟩ := hs.2 x rfl
      exact .inr ⟨e, he, hcall, rfl⟩

theorem serve_runs :
    (ledger rt codec oidc).accord.Runs (sem rt kills) t (Genuine rt codec q) (serve rt codec oidc insecure t q)
      (Accord.IfReturned (Granted t q)) := by
  refine .bind identify_runs (fun session => ?_) fun _ _ _ _ => trivial
  refine .ite (fun hopen => handler_runs hopen) fun _ => ?_
  refine .bind ((op_keeps lasts_true).conseq (fun _ _ _ => trivial) fun _ _ _ hr => hr)
    (fun _ => .pure fun _ _ _ => trivial) fun _ _ _ _ => trivial

/-! ### Where replies lead -/

/-- A character that a path or a query may have as it is. -/
def isUriChar (c : Char) : Bool := c.isAlphanum || "/?=&%-_.!~*'()".toList.contains c

/-- A path that no browser takes for another origin, nor for the end of a header. -/
def Local (path : String) : Prop :=
  ∃ rest, path.toList = '/' :: rest ∧ rest.head? ≠ some '/' ∧ rest.all isUriChar = true

theorem local_root : Local "/" := ⟨[], rfl, by simp, rfl⟩

theorem isUriChar_of_path {c : Char} (h : isPathChar c = true) : isUriChar c = true := by
  rw [isPathChar, Bool.or_eq_true] at h
  rw [isUriChar, Bool.or_eq_true]
  refine h.imp_right fun hmem => ?_
  rw [List.contains_iff_mem] at hmem ⊢
  have hsub : "/_?=&.%-".toList ⊆ "/?=&%-_.!~*'()".toList := by decide
  exact hsub hmem

theorem isUriChar_of_unreserved {c : Char} (h : isUnreserved c = true) : isUriChar c = true := by
  rw [isUnreserved, Bool.or_eq_true] at h
  rw [isUriChar, Bool.or_eq_true]
  refine h.imp_right fun hmem => ?_
  rw [List.contains_iff_mem] at hmem ⊢
  have hsub : "-_.!~*'()".toList ⊆ "/?=&%-_.!~*'()".toList := by decide
  exact hsub hmem

theorem isUriChar_upperHex (n : Nat) : isUriChar (upperHex n) = true := by
  rw [upperHex, List.getD_eq_getElem?_getD]
  cases hdigit : "0123456789ABCDEF".toList[n]? with
  | none => decide
  | some c =>
    have hall : "0123456789ABCDEF".toList.all isUriChar = true := by decide
    exact List.all_eq_true.1 hall c (List.mem_of_getElem? hdigit)

theorem local_safeNextPath (value : Option String) : Local (safeNextPath value) := by
  cases value with
  | none => exact local_root
  | some value =>
    rw [safeNextPath]
    split
    · rename_i rest hrest
      split
      · exact local_root
      · rename_i hsafe
        rw [not_or, Bool.not_eq_false] at hsafe
        refine ⟨rest, hrest, hsafe.1, List.all_eq_true.2 fun c hc => ?_⟩
        exact isUriChar_of_path (List.all_eq_true.1 hsafe.2 c hc)
    · exact local_root

theorem all_encodeURIComponent (text : String) : (encodeURIComponent text).toList.all isUriChar = true := by
  rw [encodeURIComponent, String.toList_ofList, List.all_eq_true]
  intro c hc
  obtain ⟨d, -, hd⟩ := List.mem_flatMap.1 hc
  split at hd
  · rename_i hunreserved
    rw [List.mem_singleton.1 hd]
    exact isUriChar_of_unreserved hunreserved
  · obtain ⟨byte, -, hbyte⟩ := List.mem_flatMap.1 hd
    simp only [percent, List.mem_cons, List.not_mem_nil, or_false] at hbyte
    rcases hbyte with rfl | rfl | rfl
    · decide
    · exact isUriChar_upperHex _
    · exact isUriChar_upperHex _

/-- A path of this service, with something in its query. -/
theorem local_append {path : String} {rest : List Char} (hpath : path.toList = '/' :: rest) (hne : rest ≠ [])
    (hhead : rest.head? ≠ some '/') (hall : rest.all isUriChar = true) (text : String) :
    Local (path ++ encodeURIComponent text) := by
  refine ⟨rest ++ (encodeURIComponent text).toList, by rw [String.toList_append, hpath, List.cons_append], ?_, ?_⟩
  · rwa [List.head?_append_of_ne_nil _ hne]
  · rw [List.all_append, hall, all_encodeURIComponent, Bool.and_self]

theorem local_iamStartLocation (next : Option String) : Local (iamStartLocation next) :=
  local_append rfl (by decide) (by decide) (by decide) _

theorem local_loginPageLocation (next : Option String) : Local (loginPageLocation next) :=
  local_append rfl (by decide) (by decide) (by decide) _

/-- The parameters with which iam is asked for what a flow keeps. -/
structure Asks (rt : Runtime) (params : List (String × String)) (flow : FlowState) : Prop where
  state : params.lookup "state" = some flow.state
  nonce : params.lookup "nonce" = some flow.nonce
  challenge : params.lookup "code_challenge" = some (challengeOf rt flow.verifier)
  method : params.lookup "code_challenge_method" = some "S256"

/-- A reply leads to a path of this service, or to iam with what its own cookie keeps; its cookies are for this service
alone. -/
def Modest (rt : Runtime) (codec : SessionCodec) (insecure : Bool) : Reply → Prop
  | .redirect _ (.path path) cookies => Local path ∧ ∀ cookie ∈ cookies, cookie.attributes = cookieOptions insecure
  | .redirect _ (.authorize _ params) cookies => ∃ flow : FlowState, Asks rt params flow ∧ Local flow.next ∧
    cookies = [.set flowCookie (codec.signValue rt.toSessionRuntime (.obj (flow.members rt.toSessionRuntime)))
      (cookieOptions insecure) (some 600)]
  | .page _ page => Local page.iamLoginUrl
  | .notFound | .served _ => True

theorem modest_signInFailed {code : Nat} {detail : String} :
    (signInFailed oidc code detail).Gives (Modest rt codec insecure) :=
  .bind_any fun _ => .pure (local_iamStartLocation _)

theorem modest_login {session : Option Session} : (login oidc q session).Gives (Modest rt codec insecure) := by
  unfold login
  split
  · exact .pure ⟨local_root, by simp⟩
  · refine .bind_any fun _ => .bind_any fun next => ?_
    split
    · exact .pure ⟨local_iamStartLocation _, by simp⟩
    · exact .pure (local_iamStartLocation _)

theorem asks_authorizationUrl {flow : FlowState} : (authorizationUrl rt options flow).Gives fun location =>
    ∃ endpoint params, location = .authorize endpoint params ∧ Asks rt params flow := by
  refine .bind_any fun discovery => ?_
  split
  · exact .fail _
  · exact .pure ⟨_, _, rfl, rfl, rfl, rfl, rfl⟩

theorem modest_loginIam : (loginIam rt codec oidc insecure t q).Gives (Modest rt codec insecure) := by
  unfold loginIam
  split
  · exact .pure trivial
  · refine .bind_any fun _ => .bind_any fun _ => .bind_any fun _ => .bind_any fun s => .bind_any fun next => ?_
    refine .bind asks_authorizationUrl fun location hlocation => .bind_any fun _ => .pure ?_
    obtain ⟨endpoint, params, rfl, hasks⟩ := hlocation
    exact ⟨_, hasks, local_safeNextPath next, rfl⟩

theorem attributes_issue {began : Rat} {email id via : String} :
    (issue rt codec insecure t q began email id via).Gives fun cookie => cookie.attributes = cookieOptions insecure :=
  .bind_any fun _ => .bind_any fun _ => .pure rfl

theorem modest_callback : (callback rt codec oidc insecure t q).Gives (Modest rt codec insecure) := by
  unfold callback
  split
  · exact .pure trivial
  · refine .bind_any fun s => ?_
    split
    · exact .pure trivial
    · exact modest_signInFailed
    · refine .bind_any fun claims => ?_
      cases claims with
      | error e => exact modest_signInFailed
      | ok who =>
        refine .bind attributes_issue fun cookie hcookie => .bind_any fun next => .pure ⟨local_safeNextPath _, ?_⟩
        rw [List.forall_mem_cons, List.forall_mem_singleton]
        exact ⟨rfl, hcookie⟩

theorem modest_breakGlass : (breakGlass rt codec oidc insecure t q).Gives (Modest rt codec insecure) := by
  refine .bind_any fun s => .bind_any fun result => ?_
  cases result with
  | error detail => exact modest_signInFailed
  | ok actor =>
    refine .bind attributes_issue fun cookie hcookie => .pure ⟨local_root, ?_⟩
    rw [List.forall_mem_singleton]
    exact hcookie

theorem modest_handler {session : Option Session} :
    (handler rt codec oidc insecure t q session).Gives (Modest rt codec insecure) := by
  unfold handler
  split
  · exact modest_login
  · exact modest_loginIam
  · exact modest_callback
  · exact modest_breakGlass
  · refine .pure ⟨⟨"login".toList, rfl, by decide, by decide⟩, ?_⟩
    rw [List.forall_mem_singleton]
    rfl
  · exact .pure trivial

theorem modest_serve : (serve rt codec oidc insecure t q).Gives (Modest rt codec insecure) := by
  refine .bind_any fun session => ?_
  split
  · exact modest_handler
  · refine .bind_any fun iamUp => .pure ⟨?_, by simp⟩
    split
    · exact local_iamStartLocation _
    · exact local_loginPageLocation _

/-! ### Every run -/

/-- A service that has just started, and has signed nothing with its key. -/
structure Started (rt : Runtime) (s : Gate) : Prop where
  timely : Timely rt s.clock
  flows : s.flows = []
  sessions : s.sessions = []
  passed : s.passed = []

theorem sound_of_started (h : Started rt s) : Sound rt codec oidc s where
  timely := h.timely
  flows m hm := by
    rw [h.flows] at hm
    cases hm
  sessions i hi := by
    rw [h.sessions] at hi
    cases hi
  passed e he := by
    rw [h.passed] at he
    cases he

theorem holds_of_run {p : Pool lang Request Reply} (hstart : Started rt s)
    (hrun : Steps (service rt codec oidc insecure kills) ⟨s, []⟩ p) :
    Sound rt codec oidc p.state ∧ ∀ t q reply, p.Answered t q (.ok reply) →
      Granted t q reply p.state ∧ Modest rt codec insecure reply := by
  have hlasts : ∀ t q reply, (ledger rt codec oidc).Lasts fun s => Granted t q reply s ∧ Modest rt codec insecure reply :=
    fun _ _ _ => lasts_granted.and (.const _)
  refine Ledger.holds (L := ledger rt codec oidc) hlasts (fun p q hq => ?_)
    (fun _ hs => sound_of_started hs) (fun s s' hi hc => ?_) (fun s s' hc => ?_) ⟨s, hstart, hrun⟩
  · refine (serve_runs.gives modest_serve).conseq ?_ fun r s _ hr => ?_
    · rintro s' - rfl
      exact hq
    · cases r with
      | ok reply => exact ⟨hr.1, ifOk_ok.1 hr.2⟩
      | error e => trivial
  · obtain ⟨-, rfl⟩ := hc
    have htimely : Timely rt s.clock := Sound.timely hi
    exact Sound.more hi ⟨List.Subset.refl _, List.Subset.refl _, List.Subset.refl _, List.Subset.refl _,
      List.Subset.refl _⟩ htimely rfl rfl rfl
  · obtain ⟨-, rfl⟩ := hc
    exact ⟨List.Subset.refl _, List.Subset.refl _, List.Subset.refl _, List.Subset.refl _, List.Subset.refl _⟩

theorem authentic_signValue {value : Doc} (h : value ∈ s.signed rt) (hsigned : Signed rt.toSessionRuntime value) :
    Authentic rt codec s (codec.signValue rt.toSessionRuntime value) := by
  intro payload hpayload
  obtain ⟨value', -, rfl⟩ := SessionCodec.unforged_signValue hsigned payload hpayload
  have hopened : codec.opened rt.toSessionRuntime (codec.signValue rt.toSessionRuntime value) =
      some (SessionCodec.payloadOf value') := by
    rw [hpayload]
    exact SessionCodec.opened_signValue
  rw [SessionCodec.opened_signValue] at hopened
  exact ⟨value, h, (Option.some.inj hopened).symm⟩

/-- A request with the cookie of a session, where nothing else happens. -/
theorem run_identify {step : (o : Op) → Gate → Option (Except Error o.Res × Gate)} {session : Session}
    (h : codec.verify rt.toSessionRuntime s.clock ((q.cookies sessionCookie).getD "") = .ok (some session)) :
    (identify rt codec t q).run step s =
      some (.ok (some session), { s with passed := ⟨t, session, s.clock⟩ :: s.passed }) := by
  change ((lift (codec.verify rt.toSessionRuntime s.clock ((q.cookies sessionCookie).getD "")) >>= _).run step s) = _
  rw [h]
  rfl

/-! ### Someone signs in by break-glass -/

/-- A runtime with the message of the session below authenticated. -/
def breakGlassRuntime : Runtime where
  toSessionRuntime := { oneCookieRuntime with
    hmacSha256 := fun secret payload =>
      if secret = "0123456789abcdef0123456789abcdef" ∧ payload =
          "eyJlbWFpbCI6Im9wc0BhbnVkZWVwLnBybyIsImlkIjoiYnJlYWstZ2xhc3M6MSIsInZpYSI6ImJyZWFrLWdsYXNzIiwiZXhwaXJlc0F0IjoyODgwMDAwMH0" then
        [32, 146, 210, 144, 64, 200, 143, 173, 45, 142, 3, 203, 247, 170, 171, 39, 117, 94, 229, 129, 229, 6, 92, 173,
          229, 103, 207, 9, 153, 243, 205, 217]
      else List.replicate 32 0
    hmacSha256_length := by
      intro secret payload
      split <;> rfl }
  sha256 _ := List.replicate 32 0
  inMilliseconds n := n
  asText _ := "undefined"
  isUrl _ := true

def breakGlassCodec : SessionCodec := ⟨"0123456789abcdef0123456789abcdef"⟩

/-- The session that the attempt is given. -/
def operator : Session := ⟨"ops@anudeep.pro", "break-glass:1", "break-glass", .fin (0 + sessionTtl)⟩

def entering : Request where
  route := .breakGlass
  url := "/login/break-glass"
  cookies _ := none
  query _ := none
  body _ := none

/-- A page, with the cookie of the session. -/
def returning : Request where
  route := .other
  url := "/"
  cookies name := if name = sessionCookie then some (breakGlassCodec.sign breakGlassRuntime.toSessionRuntime operator)
    else none
  query _ := none
  body _ := none

/-- The attempt is accepted. -/
def accepting : (o : Op) → Gate → Option (Except Error o.Res × Gate)
  | .attempt t password code, s =>
    some (.ok (.ok ⟨"ops@anudeep.pro", "break-glass:1"⟩),
      { s with attempts := ⟨t, password, code, ⟨"ops@anudeep.pro", "break-glass:1"⟩⟩ :: s.attempts, clock := 0 })
  | _, _ => none

abbrev incident : System lang Request Reply := service breakGlassRuntime breakGlassCodec none false False

theorem timely_zero : Timely breakGlassRuntime 0 := ⟨by decide +kernel, by decide +kernel⟩

theorem step_of_accepting {o : Op} {r : Except Error o.Res} (h : accepting o s = some (r, s')) :
    incident.sem.step o s r s' := by
  cases o with
  | attempt t password code =>
    obtain ⟨rfl, rfl⟩ := Prod.mk.inj (Option.some.inj h)
    exact ⟨0, timely_zero, rfl⟩
  | _ => cases h

/-- What the process has recorded after the sign-in. -/
def signedIn : Gate where
  clock := 0
  attempts := [⟨0, "", "", ⟨"ops@anudeep.pro", "break-glass:1"⟩⟩]
  sessions := [⟨0, entering, operator, 0, 0⟩]

def welcome : Reply := .redirect 303 (.path "/")
  [.set sessionCookie (breakGlassCodec.sign breakGlassRuntime.toSessionRuntime operator) (cookieOptions false) none]

theorem run_entering : (serve breakGlassRuntime breakGlassCodec none false 0 entering).run accepting { clock := 0 } =
    some (.ok welcome, signedIn) := rfl

theorem isSession_operator : IsSession breakGlassRuntime.toSessionRuntime operator
    (.obj (operator.members breakGlassRuntime.toSessionRuntime)) := by
  refine SessionCodec.isSession_members fun n hn => ?_
  rw [← Number.fin.inj hn]
  exact timely_zero.2

theorem run_returning : (serve breakGlassRuntime breakGlassCodec none false 1 returning).run accepting signedIn =
    some (.ok (.served (some operator)), { signedIn with passed := [⟨1, operator, 0⟩] }) := by
  have hverify : breakGlassCodec.verify breakGlassRuntime.toSessionRuntime signedIn.clock
      ((returning.cookies sessionCookie).getD "") = .ok (some operator) := by
    refine (SessionCodec.verify_session isSession_operator).trans (congrArg Except.ok ?_)
    exact (sessionOf_session isSession_operator 0 operator).2 ⟨rfl, by decide, _, rfl, by decide +kernel⟩
  exact (Prog.run_bind_ok (run_identify hverify) _).trans rfl

theorem started_zero : Started breakGlassRuntime { clock := 0 } := ⟨timely_zero, rfl, rfl, rfl⟩

/-- Someone has signed in, and has come back. -/
def visited : Pool lang Request Reply :=
  ⟨{ signedIn with passed := [⟨1, operator, 0⟩] },
    [⟨entering, some (.done (.ok welcome))⟩, ⟨returning, some (.done (.ok (.served (some operator))))⟩]⟩

theorem steps_visited : Steps incident ⟨{ clock := 0 }, []⟩ visited := by
  have hstep : ∀ o s r s', accepting o s = some (r, s') → incident.sem.step o s r s' :=
    fun _ _ _ _ h => step_of_accepting h
  have hnone : incident.mayArrive ⟨{ clock := 0 }, []⟩ entering := by
    intro name cookie hcookie
    cases hcookie
  have hsome : incident.mayArrive ⟨signedIn, [⟨entering, some (.done (.ok welcome))⟩]⟩ returning := by
    intro name cookie hcookie
    have hmem : .obj (operator.members breakGlassRuntime.toSessionRuntime) ∈ signedIn.signed breakGlassRuntime :=
      List.mem_cons_self
    change (if name = sessionCookie then _ else none) = some cookie at hcookie
    split at hcookie
    · rw [← Option.some.inj hcookie]
      exact authentic_signValue hmem (.session isSession_operator)
    · cases hcookie
  exact (steps_of_run_arrive (fun _ _ => trivial) hstep hnone run_entering).trans
    (steps_of_run_arrive (fun _ _ => trivial) hstep hsome run_returning)

/-- The page of a route that is not open is shown to a session only, and the session was signed here for a sign-in
and had not run out when it was read. -/
theorem sessions_come_from_sign_ins {p : Pool lang Request Reply} (hstart : Started rt s)
    (hrun : Steps (service rt codec oidc insecure kills) ⟨s, []⟩ p) {session : Option Session}
    (ha : p.Answered t q (.ok (.served session))) (hclosed : isOpen q.url = false) :
    ∃ e ∈ p.state.passed, e.call = t ∧ session = some e.session ∧
      ∃ i ∈ p.state.sessions, i.session = e.session ∧ e.read < i.made + sessionTtl ∧
        Earned rt codec oidc p.state i := by
  obtain ⟨hsound, hgranted⟩ := holds_of_run hstart hrun
  rcases (hgranted t q _ ha).1 with ⟨-, hopen⟩ | ⟨e, he, hcall, rfl⟩
  · rw [hclosed] at hopen
    cases hopen
  · obtain ⟨i, hi, hsession, hread⟩ := hsound.passed e he
    exact ⟨e, he, hcall, rfl, i, hi, hsession, hread, (hsound.sessions i hi).2.2⟩

theorem sessions_come_from_sign_ins_visited : visited.Answered 1 returning (.ok (.served (some operator))) ∧
    ∃ e ∈ visited.state.passed, e.call = 1 ∧ some operator = some e.session ∧
      ∃ i ∈ visited.state.sessions, i.session = e.session ∧ e.read < i.made + sessionTtl ∧
        Earned breakGlassRuntime breakGlassCodec none visited.state i := by
  have ha : visited.Answered 1 returning (.ok (.served (some operator))) := rfl
  exact ⟨ha, sessions_come_from_sign_ins started_zero steps_visited ha (by decide)⟩

/-- What is redirected to, or offered on the page of the way in, is a path of this service, whatever the request says;
or it is iam, asked for the state, the nonce and the challenge that the cookie of the same reply keeps. -/
theorem replies_lead_here {p : Pool lang Request Reply} (hstart : Started rt s)
    (hrun : Steps (service rt codec oidc insecure kills) ⟨s, []⟩ p) {reply : Reply}
    (ha : p.Answered t q (.ok reply)) : Modest rt codec insecure reply :=
  ((holds_of_run hstart hrun).2 t q reply ha).2

theorem replies_lead_here_visited : visited.Answered 0 entering (.ok welcome) ∧
    Modest breakGlassRuntime breakGlassCodec false welcome := by
  have ha : visited.Answered 0 entering (.ok welcome) := rfl
  exact ⟨ha, replies_lead_here started_zero steps_visited ha⟩

end ConfigRegistry.Auth.SignIn
