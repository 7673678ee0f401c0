import ConfigRegistry.Js.Record
import ConfigRegistry.Js.Runtime
import Mathlib.Data.List.Basic
import Mathlib.Data.List.Infix

/-!
# Redaction

The attributes of the row that `accept` of `src/logging/db-sink.ts` makes of a log line.
-/

namespace ConfigRegistry.Logging

open Js

/-- `SECRET_KEYS`. -/
def secretKeys : List String :=
  ["password", "token", "secret", "handle", "totp", "csrf", "authorization", "cookie", "age", "sops"]

/-- `PII_KEYS`. -/
def piiKeys : List String := ["email", "ip", "fingerprint", "phone", "address"]

/-- `RESERVED`. -/
def reserved : List String :=
  ["level", "time", "pid", "hostname", "event", "msg", "message", "trace_id", "span_id", "request_id", "request_sid",
    "user_email", "err", "logger", "access"]

/-- `lowered.includes(hint)`. -/
def includes (lowered hint : String) : Bool := decide (hint.toList <:+: lowered.toList)

section

-- `key.toLowerCase()` is any function of keys.
variable (toLowerCase : String → String)

/-- `sensitive`, in `redact`. -/
def sensitive (key : String) : Bool :=
  let lowered := toLowerCase key
  (secretKeys.any fun hint => includes lowered hint) ||
    piiKeys.any fun hint => lowered == hint || endsWith lowered ("_" ++ hint)

/-- The fields that are set on a new object: `__proto__` is none of its own. -/
def ownFields (fields : Record) : Record := fields.filter fun f => f.1 != "__proto__"

/-- `redact`. -/
def redact (attributes : Record) : Record :=
  ownFields (attributes.map fun f => (f.1, if sensitive toLowerCase f.1 then .str "__redacted__" else f.2))

/-- `accept`: the attributes of the row, and none for the line of an access, whose row has no attributes. -/
def attributesOf (line : Record) : Option Record :=
  if line.has "access" then none
  else some (redact toLowerCase (ownFields (line.filter fun f => !reserved.contains f.1)))

/-! ### What stands under a sensitive key -/

mutual

/-- A value without what stands under a sensitive key, at any depth. -/
def hide : Value → Value
  | .arr items => .arr (hideItems items)
  | .obj fields => .obj (hideFields fields)
  | v => v
termination_by structural v => v

def hideItems : List Value → List Value
  | [] => []
  | v :: items => hide v :: hideItems items
termination_by structural items => items

def hideFields : List (String × Value) → List (String × Value)
  | [] => []
  | f :: fields => hideField f :: hideFields fields
termination_by structural fields => fields

def hideField : String × Value → String × Value
  | (key, v) => (key, if sensitive toLowerCase key then .null else hide v)
termination_by structural f => f

end

mutual

/-- Something stands under a sensitive key, at some depth. -/
def holdsSensitive : Value → Bool
  | .arr items => holdsSensitiveItems items
  | .obj fields => holdsSensitiveFields fields
  | _ => false
termination_by structural v => v

def holdsSensitiveItems : List Value → Bool
  | [] => false
  | v :: items => holdsSensitive v || holdsSensitiveItems items
termination_by structural items => items

def holdsSensitiveFields : List (String × Value) → Bool
  | [] => false
  | f :: fields => holdsSensitiveField f || holdsSensitiveFields fields
termination_by structural fields => fields

def holdsSensitiveField : String × Value → Bool
  | (key, v) => sensitive toLowerCase key || holdsSensitive v
termination_by structural f => f

end

mutual

/-- Another value under every sensitive key. -/
def alter : Value → Value
  | .arr items => .arr (alterItems items)
  | .obj fields => .obj (alterFields fields)
  | v => v
termination_by structural v => v

def alterItems : List Value → List Value
  | [] => []
  | v :: items => alter v :: alterItems items
termination_by structural items => items

def alterFields : List (String × Value) → List (String × Value)
  | [] => []
  | f :: fields => alterField f :: alterFields fields
termination_by structural fields => fields

def alterField : String × Value → String × Value
  | (key, v) => (key, if sensitive toLowerCase key then .arr [v] else alter v)
termination_by structural f => f

end

mutual

theorem hide_alter : ∀ v : Value, hide toLowerCase (alter toLowerCase v) = hide toLowerCase v
  | .arr items => by rw [alter, hide, hide, hideItems_alter items]
  | .obj fields => by rw [alter, hide, hide, hideFields_alter fields]
  | .null | .bool _ | .num _ | .str _ => rfl
termination_by structural v => v

theorem hideItems_alter : ∀ items : List Value, hideItems toLowerCase (alterItems toLowerCase items) =
    hideItems toLowerCase items
  | [] => rfl
  | v :: items => by rw [alterItems, hideItems, hideItems, hide_alter v, hideItems_alter items]
termination_by structural items => items

theorem hideFields_alter : ∀ fields : List (String × Value), hideFields toLowerCase (alterFields toLowerCase fields) =
    hideFields toLowerCase fields
  | [] => rfl
  | f :: fields => by rw [alterFields, hideFields, hideFields, hideField_alter f, hideFields_alter fields]
termination_by structural fields => fields

theorem hideField_alter : ∀ f : String × Value, hideField toLowerCase (alterField toLowerCase f) = hideField toLowerCase f
  | (key, v) => by
    rw [alterField, hideField, hideField]
    cases sensitive toLowerCase key with
    | true => rfl
    | false => rw [if_neg Bool.false_ne_true, if_neg Bool.false_ne_true, if_neg Bool.false_ne_true, hide_alter v]
termination_by structural f => f

end

mutual

/-- Where nothing stands under a sensitive key, nothing is hidden. -/
theorem hide_of_not_holds : ∀ v : Value, holdsSensitive toLowerCase v = false → hide toLowerCase v = v
  | .arr items, h => by rw [hide, hideItems_of_not_holds items h]
  | .obj fields, h => by rw [hide, hideFields_of_not_holds fields h]
  | .null, _ | .bool _, _ | .num _, _ | .str _, _ => rfl
termination_by structural v => v

theorem hideItems_of_not_holds : ∀ items : List Value, holdsSensitiveItems toLowerCase items = false →
    hideItems toLowerCase items = items
  | [], _ => rfl
  | v :: items, h => by
    rw [holdsSensitiveItems, Bool.or_eq_false_iff] at h
    rw [hideItems, hide_of_not_holds v h.1, hideItems_of_not_holds items h.2]
termination_by structural items => items

theorem hideFields_of_not_holds : ∀ fields : List (String × Value), holdsSensitiveFields toLowerCase fields = false →
    hideFields toLowerCase fields = fields
  | [], _ => rfl
  | f :: fields, h => by
    rw [holdsSensitiveFields, Bool.or_eq_false_iff] at h
    rw [hideFields, hideField_of_not_holds f h.1, hideFields_of_not_holds fields h.2]
termination_by structural fields => fields

theorem hideField_of_not_holds : ∀ f : String × Value, holdsSensitiveField toLowerCase f = false →
    hideField toLowerCase f = f
  | (key, v), h => by
    rw [holdsSensitiveField, Bool.or_eq_false_iff] at h
    rw [hideField, h.1, if_neg Bool.false_ne_true, hide_of_not_holds v h.2]
termination_by structural f => f

end

mutual

/-- The keys stay. -/
theorem holdsSensitive_hide : ∀ v : Value, holdsSensitive toLowerCase (hide toLowerCase v) = holdsSensitive toLowerCase v
  | .arr items => by rw [hide, holdsSensitive, holdsSensitive, holdsSensitiveItems_hide items]
  | .obj fields => by rw [hide, holdsSensitive, holdsSensitive, holdsSensitiveFields_hide fields]
  | .null | .bool _ | .num _ | .str _ => rfl
termination_by structural v => v

theorem holdsSensitiveItems_hide : ∀ items : List Value,
    holdsSensitiveItems toLowerCase (hideItems toLowerCase items) = holdsSensitiveItems toLowerCase items
  | [] => rfl
  | v :: items => by
    rw [hideItems, holdsSensitiveItems, holdsSensitiveItems, holdsSensitive_hide v, holdsSensitiveItems_hide items]
termination_by structural items => items

theorem holdsSensitiveFields_hide : ∀ fields : List (String × Value),
    holdsSensitiveFields toLowerCase (hideFields toLowerCase fields) = holdsSensitiveFields toLowerCase fields
  | [] => rfl
  | f :: fields => by
    rw [hideFields, holdsSensitiveFields, holdsSensitiveFields, holdsSensitiveField_hide f,
      holdsSensitiveFields_hide fields]
termination_by structural fields => fields

theorem holdsSensitiveField_hide : ∀ f : String × Value,
    holdsSensitiveField toLowerCase (hideField toLowerCase f) = holdsSensitiveField toLowerCase f
  | (key, v) => by
    rw [hideField, holdsSensitiveField, holdsSensitiveField]
    cases hkey : sensitive toLowerCase key with
    | true => rfl
    | false => rw [if_neg Bool.false_ne_true, holdsSensitive_hide v]
termination_by structural f => f

end

mutual

/-- A value with something under a sensitive key is altered. -/
theorem alter_ne : ∀ v : Value, holdsSensitive toLowerCase v = true → alter toLowerCase v ≠ v
  | .arr items, h => fun heq => alterItems_ne items h (Value.arr.inj heq)
  | .obj fields, h => fun heq => alterFields_ne fields h (Value.obj.inj heq)
  | .null, h | .bool _, h | .num _, h | .str _, h => fun _ => Bool.false_ne_true h
termination_by structural v => v

theorem alterItems_ne : ∀ items : List Value, holdsSensitiveItems toLowerCase items = true →
    alterItems toLowerCase items ≠ items
  | [], h => fun _ => Bool.false_ne_true h
  | v :: items, h => fun heq => by
    obtain ⟨hhead, htail⟩ := List.cons_eq_cons.1 heq
    rw [holdsSensitiveItems, Bool.or_eq_true] at h
    rcases h with h | h
    · exact alter_ne v h hhead
    · exact alterItems_ne items h htail
termination_by structural items => items

theorem alterFields_ne : ∀ fields : List (String × Value), holdsSensitiveFields toLowerCase fields = true →
    alterFields toLowerCase fields ≠ fields
  | [], h => fun _ => Bool.false_ne_true h
  | f :: fields, h => fun heq => by
    obtain ⟨hhead, htail⟩ := List.cons_eq_cons.1 heq
    rw [holdsSensitiveFields, Bool.or_eq_true] at h
    rcases h with h | h
    · exact alterField_ne f h hhead
    · exact alterFields_ne fields h htail
termination_by structural fields => fields

theorem alterField_ne : ∀ f : String × Value, holdsSensitiveField toLowerCase f = true → alterField toLowerCase f ≠ f
  | (key, v), h => fun heq => by
    obtain ⟨-, hvalue⟩ := Prod.mk.inj heq
    rw [holdsSensitiveField, Bool.or_eq_true] at h
    cases hkey : sensitive toLowerCase key with
    | true =>
      rw [hkey, if_pos rfl] at hvalue
      have hsize := congrArg sizeOf hvalue
      simp at hsize
      omega
    | false =>
      rw [hkey, if_neg Bool.false_ne_true] at hvalue
      rw [hkey] at h
      exact alter_ne v (h.resolve_left Bool.false_ne_true) hvalue
termination_by structural f => f

end

variable {toLowerCase}

/-- What is hidden is all that a value can differ in, just where nothing stands under a sensitive key. -/
theorem told_by_hide_iff {v : Value} :
    (∀ w, hide toLowerCase w = hide toLowerCase v → w = v) ↔ holdsSensitive toLowerCase v = false := by
  constructor
  · intro h
    by_contra hholds
    exact alter_ne toLowerCase v (by simpa using hholds) (h _ (hide_alter toLowerCase v))
  · intro h w hw
    have hplain : holdsSensitive toLowerCase w = false := by
      rw [← holdsSensitive_hide, hw, holdsSensitive_hide, h]
    rw [← hide_of_not_holds toLowerCase w hplain, hw, hide_of_not_holds toLowerCase v h]

/-! ### The attributes -/

/-- The field is an attribute of the row, with its value. -/
def Shown (toLowerCase : String → String) (key : String) : Prop :=
  reserved.contains key = false ∧ key ≠ "__proto__" ∧ sensitive toLowerCase key = false

/-- What becomes of one field. -/
def shownField (toLowerCase : String → String) (f : String × Value) : Option (String × Value) :=
  if reserved.contains f.1 || f.1 == "__proto__" then none
  else some (f.1, if sensitive toLowerCase f.1 then .str "__redacted__" else f.2)

theorem attributesOf_eq (line : Record) : attributesOf toLowerCase line =
    if line.has "access" then none else some (line.filterMap (shownField toLowerCase)) := by
  have hfields : redact toLowerCase (ownFields (line.filter fun f => !reserved.contains f.1)) =
      line.filterMap (shownField toLowerCase) := by
    induction line with
    | nil => rfl
    | cons f line ih =>
      unfold redact ownFields at ih ⊢
      rw [List.filterMap_cons, List.filter_cons, shownField]
      cases hreserved : reserved.contains f.1 with
      | true => exact ih
      | false =>
        rw [Bool.not_false, if_pos rfl, List.filter_cons]
        cases hproto : f.1 == "__proto__" with
        | true =>
          rw [bne, hproto, Bool.not_true, if_neg Bool.false_ne_true]
          exact ih
        | false =>
          rw [bne, hproto, Bool.not_false, if_pos rfl, List.map_cons, List.filter_cons, bne, hproto, Bool.not_false,
            if_pos rfl, ih]
          rfl
  unfold attributesOf
  rw [hfields]

theorem shownField_shown {f : String × Value} (h : Shown toLowerCase f.1) : shownField toLowerCase f = some f := by
  obtain ⟨hreserved, hproto, hplain⟩ := h
  unfold shownField
  rw [hreserved, beq_false_of_ne hproto, hplain]
  rfl

/-- A field that is not shown becomes the same whatever its value. -/
theorem shownField_not_shown {key : String} (h : ¬ Shown toLowerCase key) (v w : Value) :
    shownField toLowerCase (key, v) = shownField toLowerCase (key, w) := by
  unfold shownField
  dsimp only
  cases hreserved : reserved.contains key with
  | true => rfl
  | false =>
    cases hproto : key == "__proto__" with
    | true => rfl
    | false =>
      cases hsensitive : sensitive toLowerCase key with
      | true => rfl
      | false => exact (h ⟨hreserved, by simpa using hproto, hsensitive⟩).elim

theorem has_hideFields (line : Record) (key : String) :
    Record.has (hideFields toLowerCase line) key = Record.has line key := by
  induction line with
  | nil => rfl
  | cons f line ih =>
    obtain ⟨name, v⟩ := f
    unfold Record.has at ih ⊢
    rw [hideFields, hideField, List.lookup_cons, List.lookup_cons]
    cases key == name with
    | true => rfl
    | false => exact ih

theorem attributes_of_hide {line line' : Record} (hline : hideFields toLowerCase line' = hideFields toLowerCase line)
    (h : ∀ f ∈ line, Shown toLowerCase f.1 → holdsSensitive toLowerCase f.2 = false) :
    line'.filterMap (shownField toLowerCase) = line.filterMap (shownField toLowerCase) := by
  induction line generalizing line' with
  | nil =>
    cases line' with
    | nil => rfl
    | cons f' line' => cases hline
  | cons f line ih =>
    cases line' with
    | nil => cases hline
    | cons f' line' =>
      obtain ⟨key, v⟩ := f
      obtain ⟨key', v'⟩ := f'
      obtain ⟨hhead, htail⟩ := List.cons_eq_cons.1 hline
      obtain ⟨hkey, hvalue⟩ := Prod.mk.inj hhead
      obtain rfl : key' = key := hkey
      obtain ⟨hf, hrest⟩ := List.forall_mem_cons.1 h
      have hsame : shownField toLowerCase (key', v') = shownField toLowerCase (key', v) := by
        by_cases hshown : Shown toLowerCase key'
        · rw [hshown.2.2, if_neg Bool.false_ne_true, if_neg Bool.false_ne_true] at hvalue
          rw [told_by_hide_iff.2 (hf hshown) v' hvalue]
        · exact shownField_not_shown hshown v' v
      rw [List.filterMap_cons, List.filterMap_cons, hsame, ih htail hrest]

theorem plain_of_attributes {line : Record}
    (h : (alterFields toLowerCase line).filterMap (shownField toLowerCase) = line.filterMap (shownField toLowerCase)) :
    ∀ f ∈ line, Shown toLowerCase f.1 → holdsSensitive toLowerCase f.2 = false := by
  induction line with
  | nil => simp
  | cons f line ih =>
    obtain ⟨key, v⟩ := f
    rw [alterFields, List.filterMap_cons, List.filterMap_cons] at h
    by_cases hshown : Shown toLowerCase key
    · have hfield : alterField toLowerCase (key, v) = (key, alter toLowerCase v) := by
        rw [alterField, hshown.2.2]
        rfl
      have hhead : shownField toLowerCase (key, v) = some (key, v) := shownField_shown hshown
      have hhead' : shownField toLowerCase (key, alter toLowerCase v) = some (key, alter toLowerCase v) :=
        shownField_shown hshown
      rw [hfield, hhead, hhead'] at h
      obtain ⟨hfirst, hrest⟩ := List.cons_eq_cons.1 h
      refine List.forall_mem_cons.2 ⟨fun _ => ?_, ih hrest⟩
      by_contra hholds
      exact alter_ne toLowerCase v (by simpa using hholds) (Prod.mk.inj hfirst).2
    · have hsame : shownField toLowerCase (alterField toLowerCase (key, v)) = shownField toLowerCase (key, v) :=
        shownField_not_shown hshown _ _
      rw [hsame] at h
      refine List.forall_mem_cons.2 ⟨fun hcontra => (hshown hcontra).elim, ih ?_⟩
      cases hf : shownField toLowerCase (key, v) with
      | none =>
        rw [hf] at h
        exact h
      | some g =>
        rw [hf] at h
        exact (List.cons_eq_cons.1 h).2

/-- Lines that differ in what stands under sensitive keys only make rows with the same attributes, just where nothing
stands under a sensitive key inside of a value that is shown. -/
theorem redaction_reaches_every_depth_iff (toLowerCase : String → String) (line : Record) :
    (∀ line' : Record, hide toLowerCase (.obj line') = hide toLowerCase (.obj line) →
      attributesOf toLowerCase line' = attributesOf toLowerCase line) ↔
    line.has "access" = true ∨ ∀ f ∈ line, Shown toLowerCase f.1 → holdsSensitive toLowerCase f.2 = false := by
  have haccess : ∀ line' : Record, hideFields toLowerCase line' = hideFields toLowerCase line →
      line'.has "access" = line.has "access" := by
    intro line' h
    have hkey := @has_hideFields toLowerCase line' "access"
    rw [h, has_hideFields] at hkey
    exact hkey.symm
  constructor
  · intro h
    cases hkey : line.has "access" with
    | true => exact .inl rfl
    | false =>
      right
      have halter := hideFields_alter toLowerCase line
      have hsame := h (alterFields toLowerCase line) (by rw [hide, hide, halter])
      rw [attributesOf_eq, attributesOf_eq, haccess _ halter, hkey] at hsame
      exact plain_of_attributes (Option.some.inj hsame)
  · intro h line' hline
    rw [hide, hide] at hline
    have hfields := Value.obj.inj hline
    rw [attributesOf_eq, attributesOf_eq, haccess _ hfields]
    rcases h with hkey | hplain
    · rw [hkey]
      rfl
    · rw [attributes_of_hide hfields hplain]

/-- A password in an object in the line. -/
def nestedLine (password : String) : Record :=
  [("event", .str "config.login"), ("request", .obj [("user", .str "ops"), ("password", .str password)])]

/-- The password is in the attributes. -/
theorem nested_password_is_shown : ¬ ∀ (toLowerCase : String → String) (line line' : Record),
    hide toLowerCase (.obj line') = hide toLowerCase (.obj line) →
    attributesOf toLowerCase line' = attributesOf toLowerCase line := by
  intro h
  have hpassword : sensitive id "password" = true := by decide +kernel
  have hhidden : hide id (.obj (nestedLine "green")) = hide id (.obj (nestedLine "blue")) := by
    simp only [nestedLine, hide, hideFields, hideField, hpassword, if_true]
  have hsame := h id (nestedLine "blue") (nestedLine "green") hhidden
  have hkeys : ∀ password, (nestedLine password).has "access" = false := by
    intro password
    rfl
  rw [attributesOf_eq, attributesOf_eq, hkeys, hkeys] at hsame
  have hreserved : reserved.contains "event" = true := by decide +kernel
  have hrequest : Shown id "request" := ⟨by decide +kernel, by decide, by decide +kernel⟩
  have hevent : ∀ v, shownField id ("event", v) = none := by
    intro v
    unfold shownField
    rw [hreserved]
    rfl
  have hfields : ∀ password, (nestedLine password).filterMap (shownField id) =
      [("request", .obj [("user", .str "ops"), ("password", .str password)])] := by
    intro password
    unfold nestedLine
    rw [List.filterMap_cons, hevent, List.filterMap_cons, shownField_shown hrequest]
    rfl
  rw [if_neg Bool.false_ne_true, if_neg Bool.false_ne_true, hfields, hfields] at hsame
  simp at hsame

end

end ConfigRegistry.Logging
