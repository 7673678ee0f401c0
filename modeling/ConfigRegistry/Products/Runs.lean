import ConfigRegistry.Js.Codec
import ConfigRegistry.Products.Lifecycle

/-!
# Runs of operations

Operations follow each other on one database, each with its own caller, clock and encryptor. The
encryptor may answer otherwise each time it is called, as sops does.
-/

namespace ConfigRegistry.Products

open Js Schema Store

/-- One operation that the console asked for, with what differs from one to the next. -/
structure Call where
  operation : Operation
  actor : Actor
  now : String
  encrypt : String → String → Except Error String
  onCommitted : Except Error Unit := .ok ()

namespace Call

/-- The options the operation runs with. -/
def options (o : ProductWriteOptions) (c : Call) : ProductWriteOptions :=
  { o with encrypt := c.encrypt, now := c.now, onCommitted := c.onCommitted }

def perform (o : ProductWriteOptions) (c : Call) (db : Database) : Outcome × Database :=
  c.operation.perform (c.options o) c.actor db

end Call

/-- The database after some calls. -/
def afterCalls (o : ProductWriteOptions) (calls : List Call) (db : Database) : Database :=
  calls.foldl (fun db c => (c.perform o db).2) db

/-- What an operation plans on a database, where nothing stops it before. -/
def Operation.plan (op : Operation) (o : ProductWriteOptions) (actor : Actor) (db : Database) :
    Option Plan :=
  match ProductMutation.create o op.service actor db.files with
  | .error _ => none
  | .ok session => (op.action session).toOption

/-- The documents that an operation gives to the encryptor, with their environments. -/
def Operation.documents (op : Operation) (o : ProductWriteOptions) (actor : Actor) (db : Database) :
    List (String × Record) :=
  ((op.plan o actor db).map Plan.given).getD []

variable {o : ProductWriteOptions} {actor : Actor} {op : Operation} {db db' : Database}

theorem Performed.documents_eq {session : ProductMutation} {plan : Plan}
    (h : Performed op o actor db db' session plan) : op.documents o actor db = plan.given := by
  rw [Operation.documents, Operation.plan, h.created]
  dsimp only
  rw [h.planned]
  rfl

/-- A call leaves everything as it was, or has the effect of its operation. -/
theorem Call.perform_cases {c : Call} (db : Database) (hash : Function.Injective o.contentHash)
    (yaml : ∀ v, o.rt.parseYaml (o.rt.stringifyYaml v) = .ok v) :
    (c.perform o db).2 = db ∧ (∀ result, (c.perform o db).1 ≠ .ok result) ∨
      Effect c.operation (c.options o) c.actor db.files (c.perform o db).2.files
          (c.operation.documents (c.options o) c.actor db) ∧
        ((c.perform o db).2 = db ∨ (c.perform o db).2.revision = db.revision + 1) := by
  rcases Products.perform_cases (o := c.options o) hash
    (rfl : c.operation.perform (c.options o) c.actor db = (_, _)) with h | ⟨session, plan, h⟩
  · exact .inl h
  · rw [h.documents_eq]
    exact .inr ⟨h.effect yaml, h.advanced⟩

/-- What holds at first and is kept by every call holds after all of them. -/
theorem afterCalls_induction {P : Database → Prop} {calls : List Call}
    (hstep : ∀ c ∈ calls, ∀ db, P db → P (c.perform o db).2) (h : P db) : P (afterCalls o calls db) := by
  induction calls generalizing db with
  | nil => exact h
  | cons c calls ih =>
    exact ih (fun c' hc' => hstep c' (List.mem_cons_of_mem _ hc')) (hstep c List.mem_cons_self db h)

/-- Each call meets a condition on what it finds. -/
def EachCall (o : ProductWriteOptions) (P : Call → Database → Prop) : List Call → Database → Prop
  | [], _ => True
  | c :: calls, db => P c db ∧ EachCall o P calls (c.perform o db).2

theorem EachCall.induction {P : Call → Database → Prop} {I : Database → Prop} {calls : List Call}
    (hstep : ∀ c ∈ calls, ∀ db, P c db → I db → I (c.perform o db).2) {db : Database}
    (hcalls : EachCall o P calls db) (h : I db) : I (afterCalls o calls db) := by
  induction calls generalizing db with
  | nil => exact h
  | cons c calls ih =>
    obtain ⟨hc, hrest⟩ := hcalls
    exact ih (fun c' hc' => hstep c' (List.mem_cons_of_mem _ hc')) hrest
      (hstep c List.mem_cons_self db hc h)

/-! ### A registry without products -/

def environmentsText : String :=
  jsonRuntime.stringifyYaml (.obj [("order", .arr [.str "dev", .str "prod"])])

/-- A service whose sops has no `.sops.yaml`: it encrypts nothing. -/
def plainOptions : ProductWriteOptions where
  rt := jsonRuntime
  contentHash := id
  localeLe a b := decide (a ≤ b)
  decrypt _ source := .ok source
  encrypt _ text := .ok text
  now := "2026-01-01T00:00:00.000Z"

def emptyRegistry : Database where
  files := ((∅ : Files).insert "environments.yaml" environmentsText).insert "services.yaml"
    (jsonRuntime.stringifyYaml (.obj [("version", .num (.fin 1)), ("services", .arr [])]))
  revision := 0

theorem lookup_emptyRegistry {path : String} (hs : path ≠ "services.yaml") (he : path ≠ "environments.yaml") :
    emptyRegistry.files.lookup path = none := by
  rw [emptyRegistry, AList.lookup_insert_ne hs, AList.lookup_insert_ne he]
  exact AList.lookup_empty path

/-- A call by the operator, without encryption. -/
def plainCall (operation : Operation) : Call where
  operation
  actor := { email := "ops@example.com", id := "ops" }
  now := "2026-01-01T00:00:00.000Z"
  encrypt _ text := .ok text

/-- A schema with a whole number and a secret. -/
def webSchema : Value :=
  .obj [("version", .num (.fin 1)), ("keys", .obj [
    ("COUNT", .obj [("type", .str "int")]),
    ("TOKEN", .obj [("type", .str "string"), ("secret", .bool true)])])]

def createWeb : Call :=
  plainCall (.createProduct {
    service := "web"
    uid := .fin 1001
    environments := ["dev"]
    schema := jsonRuntime.stringifyYaml webSchema
    defaults := [("COUNT", .num (.fin 3))] })

def webServices : Value :=
  .obj [("version", .num (.fin 1)), ("services", .arr [
    .obj [("name", .str "web"), ("uid", .num (.fin 1001)), ("namespaces", .arr [.str "web/dev"])]])]

/-- The registry with the product. -/
def webRegistry : Database where
  files := ((((∅ : Files).insert "environments.yaml" environmentsText).insert "schema/web.yaml"
      (jsonRuntime.stringifyYaml webSchema)).insert "config/web/dev.yaml"
      (jsonRuntime.stringifyYaml (.obj [("COUNT", .num (.fin 3)), ("version", .num (.fin 1))]))).insert
    "services.yaml" (jsonRuntime.stringifyYaml webServices)
  revision := 1

theorem createWeb_eq : (createWeb.perform plainOptions emptyRegistry).2 = webRegistry := by
  have h : ((createWeb.perform plainOptions emptyRegistry).2.files.entries,
      (createWeb.perform plainOptions emptyRegistry).2.revision,
      (createWeb.perform plainOptions emptyRegistry).2.folders) =
      (webRegistry.files.entries, webRegistry.revision, webRegistry.folders) := by decide +kernel
  obtain ⟨hfiles, hrest⟩ := Prod.mk.inj h
  exact Database.ext_entries hfiles (Prod.mk.inj hrest).1 (Prod.mk.inj hrest).2

end ConfigRegistry.Products
