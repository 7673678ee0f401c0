import ConfigRegistry.Auth.Totp
import ConfigRegistry.Js.Codec
import ConfigRegistry.Json.Members
import ConfigRegistry.Text.Base64url

/-!
# Sessions

`SessionCodec` of `src/auth/session.ts`, and the callback of `src/routes/auth.ts` up to the exchange of the code. The
session and the state of a login that is in progress are signed with one key and in one format.
-/

namespace ConfigRegistry.Auth

open Js Json Text

/-- What the codec takes from `node:crypto`, `Buffer` and the numbers of JavaScript. -/
structure SessionRuntime where
  /-- `createHmac('sha256', secret).update(payload).digest()`. -/
  hmacSha256 : String → String → Bytes
  hmacSha256_length : ∀ secret payload, (hmacSha256 secret payload).length = 32
  /-- `Buffer.toString('utf8')` of bytes that are not UTF-8. -/
  invalidUtf8 : Bytes → String
  /-- The rationals that are numbers of JavaScript. -/
  isDouble : Rat → Bool
  /-- `Number.prototype.toString`, as JSON has it. -/
  print : Rat → Lexeme
  read : Lexeme → Number
  read_print : ∀ q, isDouble q = true → read (print q) = .fin q
  /-- `ToNumber` of a value that is not a number. -/
  toNumber : Doc → Number

/-- `a <= b`. -/
def numberLe (a b : Number) : Bool := a.lt b || (a == b && a != .nan)

structure Session where
  email : String
  id : String
  via : String
  expiresAt : Number

structure FlowState where
  state : String
  nonce : String
  verifier : String
  expiresAt : Number
  next : String

def minSecretLength : Nat := 32

def viaValues : List String := ["iam", "break-glass"]

structure SessionCodec where
  secret : String

/-- `new SessionCodec(secret)`. -/
def SessionCodec.create (secret : String) : Except Error SessionCodec :=
  if (secret.toList.flatMap codeUnits).length < minSecretLength then
    .error (.of ("the session secret must be at least " ++ toString minSecretLength ++ " characters"))
  else .ok ⟨secret⟩

/-- `Buffer.from(text, 'utf8')`. -/
def utf8 (text : String) : Bytes := text.toUTF8.data.toList

def equals (a b : String) : Bool := utf8 a == utf8 b

section

variable (rt : SessionRuntime)

/-- `Buffer.from(bytes).toString('utf8')`. -/
def utf8Text (bytes : Bytes) : String := (String.fromUTF8? ⟨bytes.toArray⟩).getD (rt.invalidUtf8 bytes)

/-- A number as `JSON.stringify` has it. -/
def numberDoc : Number → Doc
  | .fin q => .num (rt.print q)
  | _ => .null

def Session.members (s : Session) : List (List Char × Doc) :=
  [("email".toList, .str s.email.toList), ("id".toList, .str s.id.toList), ("via".toList, .str s.via.toList),
    ("expiresAt".toList, numberDoc rt s.expiresAt)]

def FlowState.members (f : FlowState) : List (List Char × Doc) :=
  [("state".toList, .str f.state.toList), ("nonce".toList, .str f.nonce.toList),
    ("verifier".toList, .str f.verifier.toList), ("expiresAt".toList, numberDoc rt f.expiresAt),
    ("next".toList, .str f.next.toList)]

namespace SessionCodec

variable (codec : SessionCodec)

def mac (payload : String) : String := encodeUrl (rt.hmacSha256 codec.secret payload)

/-- The payload of `signValue`. -/
def payloadOf (value : Doc) : String := encodeUrl (utf8 (String.ofList (render value)))

def signValue (value : Doc) : String := payloadOf value ++ "." ++ codec.mac rt (payloadOf value)

def sign (s : Session) : String := codec.signValue rt (.obj (s.members rt))

/-- The payload of a cookie with the right signature. -/
def opened (cookie : String) : Option String :=
  match cookie.toList.splitOn '.' with
  | [payload, signature] =>
    if payload = [] ∨ signature = [] then none
    else if equals (String.ofList signature) (codec.mac rt (String.ofList payload)) then some (String.ofList payload)
    else none
  | _ => none

def verifyValue (cookie : String) : Option Doc :=
  (codec.opened rt cookie).bind fun payload => parse (utf8Text rt (decodeUrl payload)).toList

/-- The checks that `verify` makes on what a cookie holds. -/
def sessionOf (now : Rat) (parsed : Doc) : Option Session :=
  match parsed.member "email", parsed.member "id", parsed.member "expiresAt", parsed.member "via" with
  | some (.str email), some (.str id), some (.num expiresAt), some (.str via) =>
    if !viaValues.contains (String.ofList via) then none
    else if numberLe (rt.read expiresAt) (.fin now) then none
    else some ⟨String.ofList email, String.ofList id, String.ofList via, rt.read expiresAt⟩
  | _, _, _, _ => none

/-- `verify` opens and parses a cookie as `verifyValue` does; fields of `null` are read outside its `try`. -/
def verify (now : Rat) (cookie : String) : Except Error (Option Session) :=
  match codec.verifyValue rt cookie with
  | none => .ok none
  | some .null => .error (.of "Cannot read properties of null (reading 'email')")
  | some parsed => .ok (sessionOf rt now parsed)

end SessionCodec

/-! ### The callback of a login -/

/-- A value of a query: a key that comes more than once has a list of them. -/
inductive QueryValue where
  | text (value : String)
  | list (values : List String)
deriving DecidableEq

def QueryValue.truthy : QueryValue → Bool
  | .text value => value != ""
  | .list _ => true

/-- How the callback goes on: as far as the exchange of the code. -/
inductive Callback where
  | notFound
  | signInFailed (detail : String)
  | exchange (code : QueryValue) (verifier nonce : Option Doc)

/-- `Boolean(value)`. -/
def truthy : Doc → Bool
  | .null => false
  | .bool b => b
  | .num n => rt.read n != .fin 0 && rt.read n != .nan
  | .str s => !s.isEmpty
  | .arr _ => true
  | .obj _ => true

/-- `value <= now`, where the value need not be a number. -/
def elapsed (now : Rat) : Option Doc → Bool
  | none => false
  | some (.num n) => numberLe (rt.read n) (.fin now)
  | some value => numberLe (rt.toNumber value) (.fin now)

/-- `query.state === flow.state`. -/
def sameState : QueryValue → Option Doc → Bool
  | .text value, some (.str state) => value.toList == state
  | _, _ => false

/-- `/login/callback`, with the cookie and the query it comes with. -/
def loginCallback (codec : SessionCodec) (oidc : Bool) (now : Rat) (cookie : Option String)
    (query : String → Option QueryValue) : Callback :=
  let expired := Callback.signInFailed "This sign-in link has expired. Start again."
  if !oidc then .notFound
  else match codec.verifyValue rt (cookie.getD "") with
    | none => expired
    | some flow =>
      if !truthy rt flow || elapsed rt now (flow.member "expiresAt") then expired
      else match query "state" with
        | none => expired
        | some state =>
          if !state.truthy || !sameState state (flow.member "state") then expired
          else match query "code" with
            | none => .signInFailed "iam did not return an authorization code."
            | some code =>
              if !code.truthy then .signInFailed "iam did not return an authorization code."
              else .exchange code (flow.member "verifier") (flow.member "nonce")

end

/-! ### What is signed is read back -/

section

variable {rt : SessionRuntime}

theorem utf8_injective {a b : String} (h : utf8 a = utf8 b) : a = b := by
  apply String.toByteArray_inj.1
  exact ByteArray.ext (Array.toList_inj.1 h)

theorem equals_iff {a b : String} : equals a b = true ↔ a = b := by
  unfold equals
  rw [beq_iff_eq]
  exact ⟨utf8_injective, congrArg utf8⟩

@[simp] theorem utf8Text_utf8 (text : String) : utf8Text rt (utf8 text) = text := by
  unfold utf8Text utf8
  rw [Array.toArray_toList]
  have hvalid : String.fromUTF8? text.toUTF8 = some text :=
    dif_pos (show text.toUTF8.IsValidUTF8 from text.isValidUTF8)
  rw [hvalid]
  rfl

theorem utf8_ne_nil {text : String} (h : text ≠ "") : utf8 text ≠ [] := by
  intro hnil
  exact h (utf8_injective (hnil.trans rfl))

/-- No letter of the alphabet is the one between the parts of a cookie. -/
theorem dot_not_mem_encodeUrl (bytes : Bytes) : '.' ∉ (encodeUrl bytes).toList := by
  intro h
  have hmem := mem_alphabet_of_encodeUrl h
  revert hmem
  decide

namespace SessionCodec

variable {codec : SessionCodec} {value : Doc} {cookie payload : String}

theorem mac_ne_empty : codec.mac rt payload ≠ "" := by
  apply encodeUrl_ne_empty
  intro hnil
  have hlength := rt.hmacSha256_length codec.secret payload
  rw [hnil] at hlength
  exact absurd hlength (by decide)

theorem payloadOf_ne_empty : payloadOf value ≠ "" := by
  apply encodeUrl_ne_empty
  apply utf8_ne_nil
  intro hempty
  exact render_ne_nil value (by simpa using congrArg String.toList hempty)

theorem opened_eq_some (h : codec.opened rt cookie = some payload) : cookie = payload ++ "." ++ codec.mac rt payload := by
  unfold opened at h
  split at h
  · rename_i chars signature hparts
    split at h
    · exact absurd h (by simp)
    · split at h
      · rename_i hequals
        obtain rfl := Option.some.inj h
        have hwhole : ['.'].intercalate (cookie.toList.splitOn '.') = cookie.toList := List.intercalate_splitOn '.'
        rw [hparts] at hwhole
        apply String.toList_inj.1
        rw [← hwhole, ← equals_iff.1 hequals]
        simp [List.intercalate]
      · exact absurd h (by simp)
  · exact absurd h (by simp)

theorem opened_signValue : codec.opened rt (codec.signValue rt value) = some (payloadOf value) := by
  have hparts : (codec.signValue rt value).toList.splitOn '.' =
      [(payloadOf value).toList, (codec.mac rt (payloadOf value)).toList] := by
    have hcookie : (codec.signValue rt value).toList =
        ['.'].intercalate [(payloadOf value).toList, (codec.mac rt (payloadOf value)).toList] := by
      unfold signValue
      simp [List.intercalate]
    rw [hcookie]
    apply List.splitOn_intercalate
    · intro part hpart
      rcases List.mem_cons.1 hpart with rfl | hpart
      · exact dot_not_mem_encodeUrl _
      · obtain rfl := List.mem_singleton.1 hpart
        exact dot_not_mem_encodeUrl _
    · exact List.cons_ne_nil _ _
  unfold opened
  rw [hparts]
  dsimp only
  rw [String.ofList_toList, String.ofList_toList, if_neg, if_pos (equals_iff.2 rfl)]
  rintro (hnil | hnil)
  · exact payloadOf_ne_empty (String.toList_inj.1 (hnil.trans rfl))
  · exact mac_ne_empty (String.toList_inj.1 (hnil.trans rfl))

theorem parse_payloadOf : parse (utf8Text rt (decodeUrl (payloadOf value))).toList = some value := by
  unfold payloadOf
  rw [decodeUrl_encodeUrl, utf8Text_utf8, String.toList_ofList, parse_render]

@[simp] theorem verifyValue_signValue : codec.verifyValue rt (codec.signValue rt value) = some value := by
  unfold verifyValue
  rw [opened_signValue, Option.bind_some, parse_payloadOf]

end SessionCodec

/-! ### Sessions and logins in progress -/

/-- The number is one that JavaScript has. -/
def SessionRuntime.Holds (rt : SessionRuntime) (n : Number) : Prop := ∀ q, n = .fin q → rt.isDouble q = true

/-- The value is the session: an object with its four fields, in some order. -/
def IsSession (rt : SessionRuntime) (s : Session) (value : Doc) : Prop :=
  rt.Holds s.expiresAt ∧ ∃ members, value = .obj members ∧ members.Perm (s.members rt)

def IsFlow (rt : SessionRuntime) (f : FlowState) (value : Doc) : Prop :=
  rt.Holds f.expiresAt ∧ ∃ members, value = .obj members ∧ members.Perm (f.members rt)

/-- What the routes have signed. -/
inductive Signed (rt : SessionRuntime) : Doc → Prop where
  | session {s : Session} {value : Doc} (h : IsSession rt s value) : Signed rt value
  | flow {f : FlowState} {value : Doc} (h : IsFlow rt f value) : Signed rt value

/-- The signature of a cookie is right only where the codec has made it. -/
def SessionCodec.Unforged (rt : SessionRuntime) (codec : SessionCodec) (cookie : String) : Prop :=
  ∀ payload, cookie = payload ++ "." ++ codec.mac rt payload →
    ∃ value, Signed rt value ∧ payload = SessionCodec.payloadOf value

theorem lookup_of_perm {members fields : List (List Char × Doc)} (hn : (fields.map Prod.fst).Nodup)
    (h : members.Perm fields) (key : List Char) : members.lookup key = fields.lookup key := by
  induction h with
  | nil => rfl
  | cons f _ ih =>
    rw [List.map_cons, List.nodup_cons] at hn
    rw [List.lookup_cons, List.lookup_cons, ih hn.2]
  | swap f g l =>
    obtain ⟨k, a⟩ := f
    obtain ⟨m, b⟩ := g
    rw [List.map_cons, List.map_cons, List.nodup_cons] at hn
    have hne : k ≠ m := fun heq => hn.1 (heq ▸ List.mem_cons_self)
    rw [List.lookup_cons, List.lookup_cons, List.lookup_cons, List.lookup_cons]
    by_cases hk : key = k
    · have hm : key ≠ m := fun hm => hne (hk.symm.trans hm)
      rw [beq_false_of_ne hm]
    · rw [beq_false_of_ne hk]
  | trans _ h ih ih' =>
    rw [← ih' hn]
    exact ih ((h.map Prod.fst).nodup_iff.2 hn)

theorem member_of_perm {members fields : List (List Char × Doc)} (hn : (fields.map Prod.fst).Nodup)
    (h : members.Perm fields) (key : String) : (Doc.obj members).member key = fields.lookup key.toList := by
  show (own members).lookup key.toList = _
  rw [own_of_nodup ((h.map Prod.fst).nodup_iff.2 hn), lookup_of_perm hn h]

theorem nodup_sessionMembers (s : Session) : ((s.members rt).map Prod.fst).Nodup := by
  show ["email".toList, "id".toList, "via".toList, "expiresAt".toList].Nodup
  decide +kernel

theorem nodup_flowMembers (f : FlowState) : ((f.members rt).map Prod.fst).Nodup := by
  show ["state".toList, "nonce".toList, "verifier".toList, "expiresAt".toList, "next".toList].Nodup
  decide +kernel

/-- The fields of a session, read from its value. -/
theorem IsSession.member {s : Session} {value : Doc} (h : IsSession rt s value) (key : String) :
    value.member key = (s.members rt).lookup key.toList := by
  obtain ⟨-, members, rfl, hperm⟩ := h
  exact member_of_perm (nodup_sessionMembers s) hperm key

theorem IsFlow.member {f : FlowState} {value : Doc} (h : IsFlow rt f value) (key : String) :
    value.member key = (f.members rt).lookup key.toList := by
  obtain ⟨-, members, rfl, hperm⟩ := h
  exact member_of_perm (nodup_flowMembers f) hperm key

theorem numberLe_fin (p q : Rat) : numberLe (.fin p) (.fin q) = decide (p ≤ q) := by
  unfold numberLe
  show (decide (p < q) || (Number.fin p == Number.fin q && Number.fin p != .nan)) = decide (p ≤ q)
  rw [Bool.eq_iff_iff]
  simp [le_iff_lt_or_eq]

/-- What `verify` makes of a session: itself, as long as its way in is known and its expiry is still to come. -/
theorem sessionOf_session {s : Session} {value : Doc} (h : IsSession rt s value) (now : Rat) (s' : Session) :
    SessionCodec.sessionOf rt now value = some s' ↔
      s' = s ∧ s.via ∈ viaValues ∧ ∃ q, s.expiresAt = .fin q ∧ now < q := by
  have hemail : value.member "email" = some (.str s.email.toList) := (h.member _).trans (by rfl)
  have hid : value.member "id" = some (.str s.id.toList) := (h.member _).trans (by rfl)
  have hvia : value.member "via" = some (.str s.via.toList) := (h.member _).trans (by rfl)
  have hexpiry : value.member "expiresAt" = some (numberDoc rt s.expiresAt) := (h.member _).trans (by rfl)
  have hkeep : ∀ q, s.expiresAt = .fin q → rt.read (rt.print q) = s.expiresAt := by
    intro q hq
    rw [rt.read_print q (h.1 q hq), hq]
  unfold SessionCodec.sessionOf
  rw [hemail, hid, hvia, hexpiry]
  cases hn : s.expiresAt with
  | fin q =>
    have hread := hkeep q hn
    rw [hn] at hread
    simp only [numberDoc, String.ofList_toList]
    rw [hread]
    simp only [numberLe_fin, Bool.not_eq_eq_eq_not, Bool.not_true, List.contains_eq_mem, decide_eq_false_iff_not,
      decide_eq_true_eq, Number.fin.injEq, exists_eq_left']
    split
    · rename_i hunknown
      simp [hunknown]
    · rename_i hknown
      split
      · rename_i hle
        simp [not_lt.2 hle]
      · rename_i hle
        have hself : (⟨s.email, s.id, s.via, .fin q⟩ : Session) = s := by
          rw [← hn]
        rw [hself, Option.some.injEq]
        constructor
        · rintro rfl
          exact ⟨rfl, not_not.1 hknown, not_le.1 hle⟩
        · rintro ⟨rfl, -, -⟩
          rfl
  | inf negative => simp [numberDoc]
  | nan => simp [numberDoc]

theorem sessionOf_flow {f : FlowState} {value : Doc} (h : IsFlow rt f value) (now : Rat) :
    SessionCodec.sessionOf rt now value = none := by
  have hemail : value.member "email" = none := (h.member _).trans (by rfl)
  unfold SessionCodec.sessionOf
  rw [hemail]

theorem IsSession.isMapping {s : Session} {value : Doc} (h : IsSession rt s value) : ∃ members, value = .obj members := by
  obtain ⟨-, members, rfl, -⟩ := h
  exact ⟨members, rfl⟩

theorem IsFlow.isMapping {f : FlowState} {value : Doc} (h : IsFlow rt f value) : ∃ members, value = .obj members := by
  obtain ⟨-, members, rfl, -⟩ := h
  exact ⟨members, rfl⟩

namespace SessionCodec

variable {codec : SessionCodec} {value : Doc} {cookie : String} {now : Rat}

theorem verify_of_obj {members : List (List Char × Doc)} (h : codec.verifyValue rt cookie = some (.obj members)) :
    codec.verify rt now cookie = .ok (sessionOf rt now (.obj members)) := by
  unfold verify
  rw [h]

theorem verify_session {s : Session} (h : IsSession rt s value) :
    codec.verify rt now (codec.signValue rt value) = .ok (sessionOf rt now value) := by
  obtain ⟨members, rfl⟩ := h.isMapping
  exact verify_of_obj verifyValue_signValue

theorem verify_flow {f : FlowState} (h : IsFlow rt f value) :
    codec.verify rt now (codec.signValue rt value) = .ok none := by
  rw [← sessionOf_flow h now]
  obtain ⟨members, rfl⟩ := h.isMapping
  exact verify_of_obj verifyValue_signValue

/-- A cookie that is opened was signed. -/
theorem Unforged.signed (h : codec.Unforged rt cookie) {payload : String} (hopened : codec.opened rt cookie = some payload) :
    ∃ value, Signed rt value ∧ cookie = codec.signValue rt value := by
  have hcookie := opened_eq_some hopened
  obtain ⟨value, hvalue, rfl⟩ := h payload hcookie
  exact ⟨value, hvalue, hcookie⟩

theorem verify_of_not_opened (h : codec.opened rt cookie = none) : codec.verify rt now cookie = .ok none := by
  unfold verify verifyValue
  rw [h]
  rfl

theorem verify_returns (h : codec.Unforged rt cookie) : ∃ r, codec.verify rt now cookie = .ok r := by
  cases hopened : codec.opened rt cookie with
  | none => exact ⟨none, verify_of_not_opened hopened⟩
  | some payload =>
    obtain ⟨value, hsigned, rfl⟩ := h.signed hopened
    cases hsigned with
    | session hs => exact ⟨_, verify_session hs⟩
    | flow hf => exact ⟨_, verify_flow hf⟩

theorem verify_iff (h : codec.Unforged rt cookie) (s : Session) : codec.verify rt now cookie = .ok (some s) ↔
    (∃ value, IsSession rt s value ∧ cookie = codec.signValue rt value) ∧ s.via ∈ viaValues ∧
      ∃ q, s.expiresAt = .fin q ∧ now < q := by
  constructor
  · intro hverify
    cases hopened : codec.opened rt cookie with
    | none =>
      rw [verify_of_not_opened hopened] at hverify
      exact absurd hverify (by simp)
    | some payload =>
      obtain ⟨value, hsigned, rfl⟩ := h.signed hopened
      cases hsigned with
      | session hs =>
        rw [verify_session hs] at hverify
        obtain ⟨rfl, hvia, hexpiry⟩ := (sessionOf_session hs now s).1 (Except.ok.inj hverify)
        exact ⟨⟨value, hs, rfl⟩, hvia, hexpiry⟩
      | flow hf =>
        rw [verify_flow hf] at hverify
        exact absurd hverify (by simp)
  · rintro ⟨⟨value, hs, rfl⟩, hvia, hexpiry⟩
    rw [verify_session hs, (sessionOf_session hs now s).2 ⟨rfl, hvia, hexpiry⟩]

/-- A cookie that was signed is not forged, as there is one way to take it apart. -/
theorem unforged_signValue (h : Signed rt value) : codec.Unforged rt (codec.signValue rt value) := by
  intro payload hcookie
  have hlist := congrArg String.toList hcookie
  unfold signValue at hlist
  rw [String.toList_append, String.toList_append, String.toList_append, String.toList_append, List.append_assoc,
    List.append_assoc] at hlist
  obtain ⟨hpayload, -, -⟩ := (List.append_cons_inj_of_notMem (dot_not_mem_encodeUrl _) (dot_not_mem_encodeUrl _)).1 hlist
  exact ⟨value, h, (String.toList_inj.1 hpayload).symm⟩

theorem isSession_members {s : Session} (h : rt.Holds s.expiresAt) : IsSession rt s (.obj (s.members rt)) :=
  ⟨h, _, rfl, List.Perm.refl _⟩

end SessionCodec

/-- A session has no state that a query could have. -/
theorem session_not_exchanged {codec : SessionCodec} {s : Session} {value : Doc} (h : IsSession rt s value) (oidc : Bool)
    (now : Rat) (query : String → Option QueryValue) (code : QueryValue) (verifier nonce : Option Doc) :
    loginCallback rt codec oidc now (some (codec.signValue rt value)) query ≠ .exchange code verifier nonce := by
  have hstate : value.member "state" = none := (h.member _).trans (by rfl)
  have hdiffers : ∀ state : QueryValue, sameState state none = false := by
    intro state
    cases state <;> rfl
  unfold loginCallback
  dsimp only
  split
  · exact Callback.noConfusion
  · rw [Option.getD_some, SessionCodec.verifyValue_signValue]
    dsimp only
    rw [hstate]
    split
    · exact Callback.noConfusion
    · cases query "state" with
      | none => exact Callback.noConfusion
      | some state =>
        dsimp only
        rw [hdiffers, Bool.not_false, Bool.or_true, if_pos rfl]
        exact Callback.noConfusion

/-- A session is read from a cookie just where the cookie was signed for it, its way in is known and its expiry is still
to come; `verify` never throws; the cookie of a login in progress is no session; and with the cookie of a session the
callback exchanges no code. -/
theorem cookies_are_not_confused (rt : SessionRuntime) (codec : SessionCodec) {cookie : String}
    (h : codec.Unforged rt cookie) (now : Rat) :
    (∀ s, codec.verify rt now cookie = .ok (some s) ↔
        (∃ value, IsSession rt s value ∧ cookie = codec.signValue rt value) ∧ s.via ∈ viaValues ∧
          ∃ q, s.expiresAt = .fin q ∧ now < q) ∧
      (∃ r, codec.verify rt now cookie = .ok r) ∧
      (∀ f value, IsFlow rt f value → codec.verify rt now (codec.signValue rt value) = .ok none) ∧
      ∀ s value, IsSession rt s value → ∀ oidc query code verifier nonce,
        loginCallback rt codec oidc now (some (codec.signValue rt value)) query ≠ .exchange code verifier nonce := by
  refine ⟨SessionCodec.verify_iff h, SessionCodec.verify_returns h, fun f value hf => SessionCodec.verify_flow hf, ?_⟩
  intro s value hs oidc query code verifier nonce
  exact session_not_exchanged hs oidc now query code verifier nonce

/-- A runtime with one message authenticated, and the safe integers as numbers. -/
def oneCookieRuntime : SessionRuntime where
  hmacSha256 secret payload :=
    if secret = "0123456789abcdef0123456789abcdef" ∧
        payload = "eyJlbWFpbCI6Im9wc0BhbnVkZWVwLnBybyIsImlkIjoidTEiLCJ2aWEiOiJpYW0iLCJleHBpcmVzQXQiOjIwMH0" then
      [241, 32, 123, 159, 67, 164, 61, 166, 158, 124, 153, 6, 229, 244, 138, 208, 102, 243, 127, 138, 65, 16, 103, 55, 31,
        80, 164, 30, 100, 145, 5, 189]
    else List.replicate 32 0
  hmacSha256_length := by
    intro secret payload
    split <;> rfl
  invalidUtf8 _ := "\uFFFD"
  isDouble q := q.den == 1 && q.num.natAbs ≤ maxSafeInteger
  print q := lexemeOfInt q.num
  read n := .fin (intOfChars n.chars)
  read_print := by
    intro q hq
    rw [Bool.and_eq_true, beq_iff_eq] at hq
    show Number.fin (intOfChars (intChars q.num) : Int) = .fin q
    rw [intOfChars_intChars, Rat.den_eq_one_iff q |>.1 hq.1]
  toNumber _ := .nan

theorem cookies_are_not_confused_iam :
    (⟨"0123456789abcdef0123456789abcdef"⟩ : SessionCodec).verify oneCookieRuntime 100
        ((⟨"0123456789abcdef0123456789abcdef"⟩ : SessionCodec).sign oneCookieRuntime
          ⟨"ops@anudeep.pro", "u1", "iam", .fin 200⟩) =
      .ok (some ⟨"ops@anudeep.pro", "u1", "iam", .fin 200⟩) := by
  have hholds : oneCookieRuntime.Holds (.fin 200) := by
    intro q hq
    obtain rfl := Number.fin.inj hq
    decide
  have hvalue : IsSession oneCookieRuntime ⟨"ops@anudeep.pro", "u1", "iam", .fin 200⟩ _ :=
    SessionCodec.isSession_members hholds
  exact ((cookies_are_not_confused oneCookieRuntime ⟨"0123456789abcdef0123456789abcdef"⟩
    (SessionCodec.unforged_signValue (.session hvalue)) 100).1 _).2
    ⟨⟨_, hvalue, rfl⟩, by decide, 200, rfl, by decide⟩

end

end ConfigRegistry.Auth
