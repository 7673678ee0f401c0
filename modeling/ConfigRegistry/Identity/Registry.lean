import ConfigRegistry.Js.Value
import Mathlib.Data.List.Nodup

/-!
# The grant table

`src/identity/registry.ts` and `src/namespace.ts`: which service a uid is, and which namespaces it
may read. The YAML parser is a parameter; the shape check that the source asks of zod is written
out as the list of issues it reports.
-/

namespace ConfigRegistry.Identity

open Js

/-- One of the characters `[a-z0-9]`. -/
def isSlugStart (c : Char) : Bool := c.isLower || c.isDigit

/-- `/^[a-z0-9][a-z0-9-]*$/`. -/
def isSlug : List Char → Bool
  | [] => false
  | c :: cs => isSlugStart c && cs.all fun c => isSlugStart c || c == '-'

/-- `NAMESPACE_PATTERN = /^[a-z0-9][a-z0-9-]*\/[a-z0-9][a-z0-9-]*$/`. -/
def isNamespace (value : String) : Bool :=
  match value.toList.splitOn '/' with
  | [service, environment] => isSlug service && isSlug environment
  | _ => false

/-- A service as `services.yaml` declares it. -/
structure ServiceIdentity where
  name : String
  uid : Nat
  namespaces : List String
deriving DecidableEq

/-- A table of services, each uid held by one of them. -/
structure ServiceRegistry where
  services : List ServiceIdentity
  version : Nat
  unique : (services.map ServiceIdentity.uid).Nodup
deriving DecidableEq

/-- One complaint of the shape check: where, and the text the source gives for it. `none` is
where the source leaves the wording to zod. -/
structure Issue where
  path : List String
  message : Option String
deriving DecidableEq

/-- `KNOWN_VERSIONS`. -/
def knownVersions : List Nat := [1]

/-- Check a field that must be there: its issues, or its value. -/
abbrev Checked (α : Type) : Type := Except (List Issue) α

def checkName (at_ : List String) : Option Value → Checked String
  | some (.str s) => if s = "" then .error [⟨at_, some "service must have a name"⟩] else .ok s
  | _ => .error [⟨at_, none⟩]

def checkUid (at_ : List String) : Option Value → Checked Nat
  | some (.num (.fin q)) =>
    if (Number.fin q).isSafeInteger then
      if q.num < 0 then .error [⟨at_, some "uid must be a non-negative integer"⟩] else .ok q.num.toNat
    else .error [⟨at_, none⟩]
  | _ => .error [⟨at_, none⟩]

def checkNamespace (at_ : List String) : Value → Checked String
  | .str s =>
    if isNamespace s then .ok s
    else .error [⟨at_, some "namespace must be \"<service>/<environment>\""⟩]
  | _ => .error [⟨at_, none⟩]

/-- Check each item of a list at its index; every issue is reported. -/
def checkItems {α : Type} (at_ : List String) (check : List String → Value → Checked α) :
    Nat → List Value → Checked (List α)
  | _, [] => .ok []
  | i, v :: vs =>
    match check (at_ ++ [toString i]) v, checkItems at_ check (i + 1) vs with
    | .ok a, .ok as => .ok (a :: as)
    | .ok _, .error es => .error es
    | .error e, .ok _ => .error e
    | .error e, .error es => .error (e ++ es)

def checkNamespaces (at_ : List String) : Option Value → Checked (List String)
  | some (.arr []) => .error [⟨at_, some "service must grant at least one namespace"⟩]
  | some (.arr items) => checkItems at_ checkNamespace 0 items
  | _ => .error [⟨at_, none⟩]

/-- The issues of a check. -/
def issues {α : Type} : Checked α → List Issue
  | .ok _ => []
  | .error es => es

/-- `ServiceSchema`. -/
def checkService (at_ : List String) (v : Value) : Checked ServiceIdentity :=
  if v.isMapping then
    match checkName (at_ ++ ["name"]) (v.field "name"), checkUid (at_ ++ ["uid"]) (v.field "uid"),
      checkNamespaces (at_ ++ ["namespaces"]) (v.field "namespaces") with
    | .ok name, .ok uid, .ok namespaces => .ok { name, uid, namespaces }
    | name, uid, namespaces => .error (issues name ++ issues uid ++ issues namespaces)
  else .error [⟨at_, none⟩]

def checkVersion : Option Value → Checked Nat
  | some (.num n) =>
    if n.isInteger then
      match n with
      | .fin q =>
        if q.num.toNat ∈ knownVersions then .ok q.num.toNat
        else .error [⟨["version"], some "version must be one of 1"⟩]
      | _ => .error [⟨["version"], none⟩]
    else .error [⟨["version"], none⟩]
  | _ => .error [⟨["version"], some "version is required"⟩]

def checkServices : Option Value → Checked (List ServiceIdentity)
  | some (.arr items) => checkItems ["services"] checkService 0 items
  | _ => .error [⟨["services"], none⟩]

/-- `FileSchema.safeParse`. -/
def checkFile (v : Value) : Checked (Nat × List ServiceIdentity) :=
  if v.isMapping then
    match checkVersion (v.field "version"), checkServices (v.field "services") with
    | .ok version, .ok services => .ok (version, services)
    | version, services => .error (issues version ++ issues services)
  else .error [⟨[], none⟩]

/-- Why `services.yaml` was refused. -/
inductive ServiceRegistryError where
  /-- The YAML parser threw. -/
  | unparsed (e : Error)
  /-- `services.yaml is invalid:` and every issue. -/
  | invalid (issues : List Issue)
  /-- Two services claim one uid. -/
  | clash (message : String)

/-- The first service that claims a uid an earlier one holds, with the holder. -/
def clashOf : List ServiceIdentity → List ServiceIdentity → Option (ServiceIdentity × ServiceIdentity)
  | _, [] => none
  | held, s :: rest =>
    match held.find? fun h => h.uid == s.uid with
    | some h => some (h, s)
    | none => clashOf (held ++ [s]) rest

theorem nodup_of_clashOf {held rest : List ServiceIdentity} (h : clashOf held rest = none)
    (hd : (held.map ServiceIdentity.uid).Nodup) :
    ((held ++ rest).map ServiceIdentity.uid).Nodup := by
  induction rest generalizing held with
  | nil => simpa using hd
  | cons s rest ih =>
    rw [clashOf] at h
    split at h
    · cases h
    · rename_i hf
      have hs : s.uid ∉ held.map ServiceIdentity.uid := by
        intro hm
        obtain ⟨a, ha, hau⟩ := List.mem_map.1 hm
        have := List.find?_eq_none.1 hf a ha
        simp [hau] at this
      have := ih h (by
        rw [List.map_append, List.nodup_append]
        refine ⟨hd, List.nodup_singleton _, ?_⟩
        intro a ha b hb
        obtain rfl : b = s.uid := by simpa using hb
        rintro rfl
        exact hs ha)
      simpa using this

/-- `ServiceRegistry.fromYaml`. -/
def ServiceRegistry.fromYaml (parseYaml : String → Except Error Value) (source : String) :
    Except ServiceRegistryError ServiceRegistry :=
  match parseYaml source with
  | .error e => .error (.unparsed e)
  | .ok v =>
    match checkFile v with
    | .error es => .error (.invalid es)
    | .ok (version, services) =>
      match h : clashOf [] services with
      | some (held, s) =>
        .error (.clash s!"services.yaml is invalid: uid {s.uid} is claimed by both '{held.name}' and '{s.name}'")
      | none => .ok { services, version, unique := nodup_of_clashOf h List.nodup_nil }

/-- The service holding this uid, or none. -/
def ServiceRegistry.identify (r : ServiceRegistry) (uid : Nat) : Option ServiceIdentity :=
  r.services.find? fun s => s.uid == uid

/-- Exact membership in the grant the table itself holds for the service's uid. -/
def ServiceRegistry.mayRead (r : ServiceRegistry) (service : ServiceIdentity) (ns : String) : Bool :=
  match r.identify service.uid with
  | some known => known.name == service.name && known.namespaces.contains ns
  | none => false

end ConfigRegistry.Identity
