import ConfigRegistry.Async.Pool
import ConfigRegistry.Auth.Session

/-!
# Signing in

`src/routes/auth.ts`, `src/auth/oidc.ts` and `src/routes/safe-next-path.ts`: the guard in front of every route, the
two ways in and the way out. What iam and an attempt of break-glass answer is up to the world, and so is the clock.
-/

namespace ConfigRegistry.Auth.SignIn

open Js Json Text Async

/-- What the routes take from JavaScript beside what the codec takes. -/
structure Runtime extends SessionRuntime where
  /-- `createHash('sha256').update(verifier).digest()`. -/
  sha256 : String → Bytes
  /-- `exp * 1000`. -/
  inMilliseconds : Number → Number
  /-- `String(value)` of a value that is not a text. -/
  asText : Option Doc → String
  /-- `new URL(value)` returns. -/
  isUrl : Doc → Bool

def sessionCookie : String := "config_session"

def flowCookie : String := "config_login"

def sessionTtl : Rat := 8 * 60 * 60 * 1000

def flowTtl : Rat := 10 * 60 * 1000

def scope : String := "openid email"

def verifierBytes : Nat := 32

/-! ### Where to go next -/

/-- `[A-Za-z0-9/_?=&.%-]`. -/
def isPathChar (c : Char) : Bool := c.isAlphanum || "/_?=&.%-".toList.contains c

/-- `safeNextPath`. -/
def safeNextPath : Option String → String
  | none => "/"
  | some value =>
    match value.toList with
    | '/' :: rest => if rest.head? = some '/' ∨ rest.all isPathChar = false then "/" else value
    | _ => "/"

/-- What `encodeURIComponent` leaves as it is. -/
def isUnreserved (c : Char) : Bool := c.isAlphanum || "-_.!~*'()".toList.contains c

def upperHex (n : Nat) : Char := "0123456789ABCDEF".toList.getD n '0'

def percent (byte : UInt8) : List Char := ['%', upperHex (byte.toNat / 16), upperHex (byte.toNat % 16)]

def encodeURIComponent (text : String) : String :=
  String.ofList (text.toList.flatMap fun c =>
    if isUnreserved c then [c] else (utf8 (String.singleton c)).flatMap percent)

def iamStartLocation (next : Option String) : String := "/login/iam?next=" ++ encodeURIComponent (safeNextPath next)

def loginPageLocation (next : Option String) : String := "/login?next=" ++ encodeURIComponent (safeNextPath next)

/-- A value of a query as `safeNextPath` takes it: it calls a method that a list does not have. -/
def nextOfQuery : Option QueryValue → Except Error (Option String)
  | none => .ok none
  | some (.text value) => .ok (some value)
  | some (.list _) => .error (.of "value.startsWith is not a function")

/-- `flow.next`, as `safeNextPath` takes it. -/
def nextOfFlow (rt : SessionRuntime) : Option Doc → Except Error (Option String)
  | none => .ok none
  | some (.str next) => .ok (some (String.ofList next))
  | some value => if truthy rt value then .error (.of "value.startsWith is not a function") else .ok none

/-! ### Tokens -/

structure OidcOptions where
  issuer : String
  clientId : String
  clientSecret : String
  redirectUri : String

structure IdTokenClaims where
  sub : String
  email : String
deriving DecidableEq

def isText (text : String) : Doc → Bool
  | .str s => s == text.toList
  | _ => false

/-- `Array.isArray(claims.aud) ? claims.aud : [claims.aud]`. -/
def audienceOf (claims : Doc) : List Doc :=
  match claims.member "aud" with
  | some (.arr items) => items
  | some value => [value]
  | none => []

section

variable (rt : Runtime) (options : OidcOptions)

def checkIssuer (claims : Doc) : Except Error Unit :=
  if (claims.member "iss").any (isText options.issuer) then .ok ()
  else .error (.of "the id_token came from another issuer")

def checkAudience (claims : Doc) : Except Error Unit :=
  if (audienceOf claims).any (isText options.clientId) then .ok ()
  else .error (.of "the id_token was issued for a different client")

def checkExpiry (now : Rat) (claims : Doc) : Except Error Unit :=
  match claims.member "exp" with
  | some (.num exp) =>
    if numberLe (rt.inMilliseconds (rt.read exp)) (.fin now) then .error (.of "the id_token has expired") else .ok ()
  | _ => .error (.of "the id_token has expired")

def checkNonce (claims : Doc) (nonce : Option Doc) : Except Error Unit :=
  match claims.member "nonce", nonce with
  | some (.str actual), some (.str nonce) =>
    if equals (String.ofList actual) (String.ofList nonce) then .ok ()
    else .error (.of "the id_token does not match this sign-in attempt")
  -- `Buffer.from` takes no other value.
  | some (.str _), _ => .error (.of "The first argument must be of type string")
  | _, _ => .error (.of "the id_token does not match this sign-in attempt")

/-- A claim that has to be a text, and not an empty one. -/
def requiredText (detail : String) : Option Doc → Except Error String
  | some (.str text) => if text = [] then .error (.of detail) else .ok (String.ofList text)
  | _ => .error (.of detail)

/-- `Buffer.from(payload, 'base64url').toString('utf8')`, parsed. -/
def claimsOf (idToken : String) : Except Error Doc :=
  match idToken.toList.splitOn '.' with
  | _ :: payload :: _ =>
    if payload = [] then .error (.of "the id_token is not a JWT")
    else match parse (utf8Text rt.toSessionRuntime (decodeUrl (String.ofList payload))).toList with
      | none => .error (.of "the id_token payload is not JSON")
      | some .null => .error (.of "Cannot read properties of null (reading 'iss')")
      | some claims => .ok claims
  | _ => .error (.of "the id_token is not a JWT")

/-- `validate`. -/
def validate (now : Rat) (idToken : String) (nonce : Option Doc) : Except Error IdTokenClaims := do
  let claims ← claimsOf rt idToken
  checkIssuer options claims
  checkAudience options claims
  checkExpiry rt now claims
  checkNonce claims nonce
  let sub ← requiredText "the id_token has no subject" (claims.member "sub")
  let email ← requiredText "the id_token has no email" (claims.member "email")
  pure ⟨sub, email⟩

end

/-! ### The process -/

inductive Route where
  | login
  | loginIam
  | loginCallback
  | breakGlass
  | logout
  | other
deriving DecidableEq

/-- A request, with the route that its method and path have been found to have. -/
structure Request where
  route : Route
  url : String
  cookies : String → Option String
  query : String → Option QueryValue
  body : String → Option String

structure CookieOptions where
  httpOnly : Bool
  sameSite : String
  secure : Bool
  path : String
deriving DecidableEq

/-- `cookieOptions`. -/
def cookieOptions (insecure : Bool) : CookieOptions := ⟨true, "lax", !insecure, "/"⟩

/-- A cookie that a reply sets or clears. -/
inductive Cookie where
  | set (name value : String) (options : CookieOptions) (maxAge : Option Nat)
  | clear (name : String) (options : CookieOptions)
deriving DecidableEq

def Cookie.attributes : Cookie → CookieOptions
  | .set _ _ options _ => options
  | .clear _ options => options

/-- A path of this service, or the authorization endpoint of iam with its parameters. -/
inductive Location where
  | path (path : String)
  | authorize (endpoint : Doc) (params : List (String × String))

/-- What `renderLogin` is given. -/
structure LoginPage where
  iamReachable : Bool
  iamConfigured : Bool
  iamLoginUrl : String
  error : Option String

inductive Reply where
  | redirect (code : Nat) (location : Location) (cookies : List Cookie)
  | page (code : Nat) (page : LoginPage)
  | notFound
  /-- The handler of another route, with what the guard has found. -/
  | served (session : Option Session)

/-- `Discovery`, whose fields are not known to be texts. -/
structure Discovery where
  authorization_endpoint : Doc
  token_endpoint : Doc

/-- What is posted to the token endpoint. -/
structure TokenForm where
  code : String
  redirect_uri : String
  client_id : String
  client_secret : String
  code_verifier : String

structure Response where
  ok : Bool
  status : Nat
  body : String

/-- An answer of the token endpoint. -/
structure Exchange where
  call : Nat
  form : TokenForm
  response : Response

/-- `BreakGlassActor`, for a record whose `actorEmail` is a text. -/
structure Actor where
  email : String
  id : String

/-- An attempt that was accepted. -/
structure Attempt where
  call : Nat
  password : String
  code : String
  actor : Actor

/-- A flow that was signed, with the clock when it was made. -/
structure Minted where
  call : Nat
  flow : FlowState
  made : Rat

/-- A session that was signed, with the request it was signed for, and the clock when the request was taken up and
when the session was made. -/
structure Issued where
  call : Nat
  request : Request
  session : Session
  began : Rat
  made : Rat

/-- A session that the guard has read. -/
structure Passed where
  call : Nat
  session : Session
  read : Rat

/-- The process, and beside the code what has happened. -/
structure Gate where
  discovery : Option Discovery := none
  clock : Rat
  exchanges : List Exchange := []
  attempts : List Attempt := []
  flows : List Minted := []
  sessions : List Issued := []
  passed : List Passed := []

inductive Op where
  | isIamReachable
  | randomBytes (size : Nat)
  | fetchDiscovery (url : String)
  | fetchToken (t : Nat) (endpoint : Doc) (form : TokenForm)
  /-- `auth.breakGlass.attempt(password, code)`. -/
  | attempt (t : Nat) (password code : String)

abbrev Op.Res : Op → Type
  | .isIamReachable => Bool
  | .randomBytes _ => Bytes
  | .fetchDiscovery _ | .fetchToken _ _ _ => Response
  -- Of a denial its `detail`.
  | .attempt _ _ _ => Except String Actor

/-- The signature of the programs of the routes. -/
abbrev lang : Sig := ⟨Gate, Error, Op, Op.Res⟩

abbrev op (o : Op) : Prog lang o.Res := Prog.op (S := lang) o

def lift {α : Type} (r : Except Error α) : Prog lang α := Prog.done (S := lang) r

/-- What an operation leaves beside the code. -/
def Op.records : (o : Op) → Except Error o.Res → Gate → Gate
  | .fetchToken t _ form, .ok response, s => { s with exchanges := ⟨t, form, response⟩ :: s.exchanges }
  | .attempt t password code, .ok (.ok actor), s => { s with attempts := ⟨t, password, code, actor⟩ :: s.attempts }
  | _, _, s => s

section

variable (rt : Runtime)

/-- A reading of the clock to which the times to live can be added. -/
def Timely (now : Rat) : Prop := rt.isDouble (now + flowTtl) = true ∧ rt.isDouble (now + sessionTtl) = true

def sem (kills : Prop) : Sem lang where
  step o s r s' := ∃ now, Timely rt now ∧ s' = { o.records r s with clock := now }
  torn _ s s' := s' = s
  crash s s' := kills ∧ s' = { s with discovery := none }

/-- The values that have been signed. -/
def Gate.signed (s : Gate) : List Doc :=
  (s.sessions.map fun i => .obj (i.session.members rt.toSessionRuntime)) ++
    s.flows.map fun m => .obj (m.flow.members rt.toSessionRuntime)

/-- A cookie has the right signature only where its payload has been signed. -/
def Authentic (codec : SessionCodec) (s : Gate) (cookie : String) : Prop :=
  ∀ payload, cookie = payload ++ "." ++ codec.mac rt.toSessionRuntime payload →
    ∃ value ∈ s.signed rt, payload = SessionCodec.payloadOf value

/-! ### The client of iam -/

/-- What a response holds, as JSON. -/
def Response.json (response : Response) : Except Error Doc :=
  match parse response.body.toList with
  | none => .error (.of "SyntaxError")
  | some .null => .error (.of "Cannot read properties of null")
  | some body => .ok body

/-- `discover`. -/
def discover (options : OidcOptions) : Prog lang Discovery := do
  let s ← Prog.get (S := lang)
  match s.discovery with
  | some discovery => pure discovery
  | none => do
    let issuer := if options.issuer.toList.getLast? = some '/' then options.issuer.toList.dropLast
      else options.issuer.toList
    let response ← op (.fetchDiscovery (String.ofList issuer ++ "/.well-known/openid-configuration"))
    if response.ok = false then
      Prog.fail (.of ("could not reach iam's discovery document (" ++ toString response.status ++ ")"))
    else do
      let body ← lift response.json
      match body.member "authorization_endpoint", body.member "token_endpoint" with
      | some authorization, some token =>
        if truthy rt.toSessionRuntime authorization && truthy rt.toSessionRuntime token then do
          Prog.modify (S := lang) fun s => { s with discovery := some ⟨authorization, token⟩ }
          pure ⟨authorization, token⟩
        else Prog.fail (.of "iam's discovery document is missing endpoints")
      | _, _ => Prog.fail (.of "iam's discovery document is missing endpoints")

/-- `pkceFor(verifier).challenge`. -/
def challengeOf (verifier : String) : String := encodeUrl (rt.sha256 verifier)

/-- `authorizationUrl`. -/
def authorizationUrl (options : OidcOptions) (flow : FlowState) : Prog lang Location := do
  let discovery ← discover rt options
  if rt.isUrl discovery.authorization_endpoint = false then Prog.fail (.of "Invalid URL")
  else pure (.authorize discovery.authorization_endpoint
    [("response_type", "code"), ("client_id", options.clientId), ("redirect_uri", options.redirectUri),
      ("scope", scope), ("state", flow.state), ("nonce", flow.nonce),
      ("code_challenge", challengeOf rt flow.verifier), ("code_challenge_method", "S256")])

/-- A value of a query as the form has it. -/
def formText : QueryValue → String
  | .text value => value
  | .list values => String.intercalate "," values

/-- A field of a flow as the form has it. -/
def textOf : Option Doc → String
  | some (.str text) => String.ofList text
  | value => rt.asText value

/-- The token that a response of the token endpoint has. -/
def idTokenOf (response : Response) : Except Error String :=
  if response.ok = false then
    .error (.of ("iam refused the authorization code (" ++ toString response.status ++ ")"))
  else match response.json with
    | .error e => .error e
    | .ok body => match body.member "id_token" with
      | some (.str token) => .ok (String.ofList token)
      | _ => .error (.of "iam returned no id_token")

/-- `exchange`. -/
def exchange (t : Nat) (options : OidcOptions) (code : QueryValue) (verifier nonce : Option Doc) :
    Prog lang IdTokenClaims := do
  let discovery ← discover rt options
  let response ← op (.fetchToken t discovery.token_endpoint ⟨formText code, options.redirectUri,
    options.clientId, options.clientSecret, textOf rt verifier⟩)
  let token ← lift (idTokenOf response)
  let s ← Prog.get (S := lang)
  lift (validate rt options s.clock token nonce)

/-! ### The routes -/

variable (codec : SessionCodec) (oidc : Option OidcOptions) (insecure : Bool)

/-- The session is signed. -/
def issue (t : Nat) (request : Request) (began : Rat) (email id via : String) : Prog lang Cookie := do
  let s ← Prog.get (S := lang)
  let session : Session := ⟨email, id, via, .fin (s.clock + sessionTtl)⟩
  Prog.modify (S := lang) fun s => { s with sessions := ⟨t, request, session, began, s.clock⟩ :: s.sessions }
  pure (.set sessionCookie (codec.sign rt.toSessionRuntime session) (cookieOptions insecure) none)

/-- The page with the way in, after something went wrong. -/
def signInFailed (code : Nat) (detail : String) : Prog lang Reply := do
  let iamUp ← op .isIamReachable
  pure (.page code ⟨iamUp, oidc.isSome, iamStartLocation (some "/"), some detail⟩)

/-- `/login`. -/
def login (q : Request) (session : Option Session) : Prog lang Reply :=
  if session.isSome then pure (.redirect 302 (.path "/") [])
  else do
    let iamUp ← op .isIamReachable
    let next ← lift (nextOfQuery (q.query "next"))
    if iamUp && oidc.isSome && !(q.query "error").any QueryValue.truthy then
      pure (.redirect 302 (.path (iamStartLocation next)) [])
    else pure (.page 200 ⟨iamUp, oidc.isSome, iamStartLocation next, none⟩)

/-- `/login/iam`. -/
def loginIam (t : Nat) (q : Request) : Prog lang Reply :=
  match oidc with
  | none => pure .notFound
  | some options => do
    let state ← op (.randomBytes 16)
    let nonce ← op (.randomBytes 16)
    let verifier ← op (.randomBytes verifierBytes)
    let s ← Prog.get (S := lang)
    let next ← lift (nextOfQuery (q.query "next"))
    let flow : FlowState := ⟨encodeUrl state, encodeUrl nonce, encodeUrl verifier, .fin (s.clock + flowTtl),
      safeNextPath next⟩
    let url ← authorizationUrl rt options flow
    Prog.modify (S := lang) fun s' => { s' with flows := ⟨t, flow, s.clock⟩ :: s'.flows }
    pure (.redirect 302 url [.set flowCookie
      (codec.signValue rt.toSessionRuntime (.obj (flow.members rt.toSessionRuntime))) (cookieOptions insecure)
      (some 600)])

/-- `/login/callback`. -/
def callback (t : Nat) (q : Request) : Prog lang Reply :=
  match oidc with
  | none => pure .notFound
  | some options => do
    let s ← Prog.get (S := lang)
    match loginCallback rt.toSessionRuntime codec true s.clock (q.cookies flowCookie) q.query with
    | .notFound => pure .notFound
    | .signInFailed detail => signInFailed oidc 400 detail
    | .exchange code verifier nonce => do
      match ← (exchange rt t options code verifier nonce).attempt with
      | .error _ => signInFailed oidc 400 "iam could not complete this sign-in."
      | .ok claims => do
        let cookie ← issue rt codec insecure t q s.clock claims.email claims.sub "iam"
        let flow := (codec.verifyValue rt.toSessionRuntime ((q.cookies flowCookie).getD "")).getD .null
        let next ← lift (nextOfFlow rt.toSessionRuntime (flow.member "next"))
        pure (.redirect 303 (.path (safeNextPath next)) [.clear flowCookie (cookieOptions insecure), cookie])

/-- `/login/break-glass`. -/
def breakGlass (t : Nat) (q : Request) : Prog lang Reply := do
  let s ← Prog.get (S := lang)
  let result ← op (.attempt t ((q.body "password").getD "") ((q.body "code").getD ""))
  match result with
  | .error detail => signInFailed oidc 401 detail
  | .ok actor => do
    let cookie ← issue rt codec insecure t q s.clock actor.email actor.id "break-glass"
    pure (.redirect 303 (.path "/") [cookie])

/-- `/logout`. -/
def logout : Prog lang Reply :=
  pure (.redirect 303 (.path "/login") [.clear sessionCookie (cookieOptions insecure)])

/-- The handler of a route. -/
def handler (t : Nat) (q : Request) (session : Option Session) : Prog lang Reply :=
  match q.route with
  | .login => login oidc q session
  | .loginIam => loginIam rt codec oidc insecure t q
  | .loginCallback => callback rt codec oidc insecure t q
  | .breakGlass => breakGlass rt codec oidc insecure t q
  | .logout => logout insecure
  | .other => pure (.served session)

/-! ### The guard -/

/-- The paths that need no session. -/
def openPaths : List String :=
  ["/login", "/login/iam", "/login/callback", "/login/break-glass", "/logout", "/healthz", "/assets/htmx.js",
    "/assets/ticks.js"]

/-- `open.has(request.url.split('?')[0] ?? '')`. -/
def isOpen (url : String) : Bool := openPaths.contains (String.ofList (url.toList.takeWhile (· != '?')))

/-- The session of a request. -/
def identify (t : Nat) (q : Request) : Prog lang (Option Session) := do
  let s ← Prog.get (S := lang)
  let session ← lift (codec.verify rt.toSessionRuntime s.clock ((q.cookies sessionCookie).getD ""))
  match session with
  | none => pure none
  | some session => do
    Prog.modify (S := lang) fun s => { s with passed := ⟨t, session, s.clock⟩ :: s.passed }
    pure (some session)

/-- `onRequest`, and what it is in front of. -/
def serve (t : Nat) (q : Request) : Prog lang Reply := do
  let session ← identify rt codec t q
  if session.isSome || isOpen q.url then handler rt codec oidc insecure t q session
  else do
    let next := if q.url.toList.head? = some '/' then q.url else "/"
    let iamUp ← op .isIamReachable
    pure (.redirect 302 (.path (if iamUp && oidc.isSome then iamStartLocation (some next)
      else loginPageLocation (some next))) [])

/-- The service. A request comes with whatever cookies, but signatures are not forged. -/
def service (kills : Prop) : System lang Request Reply where
  sem := sem rt kills
  body := serve rt codec oidc insecure
  mayArrive p q := ∀ name cookie, q.cookies name = some cookie → Authentic rt codec p.state cookie

end

end ConfigRegistry.Auth.SignIn
