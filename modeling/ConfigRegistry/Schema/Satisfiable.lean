import ConfigRegistry.Schema.SchemaSet
import Mathlib.Data.Rat.Floor

/-!
# Keys that a value can be found for

What the reader of a schema lets through, and what the check of a value then asks of one.
-/

namespace ConfigRegistry.Schema

open Js

variable {rt : Runtime}

/-- There is a whole number within the bounds. A bound that is not a number bounds nothing. -/
def roomBetween : Option Number → Option Number → Bool
  | some (.inf false), _ => false
  | _, some (.inf true) => false
  | some (.fin min), some (.fin max) => ⌈min⌉ ≤ ⌊max⌋
  | _, _ => true

/-- A key that is not secret can be met: its bounds leave a whole number, or it lists a value that does not
look like ciphertext. -/
def KeyDefinition.meetable (d : KeyDefinition) : Bool :=
  match d.type with
  | .int => roomBetween d.min d.max
  | .enum => (d.values.getD []).any fun value => !sopsEncrypted value
  | _ => true

/-! ### Whole numbers -/

theorem below_int {n : Int} {q : Rat} : below (.fin n) (some (.fin q)) = false ↔ q ≤ n := by
  simp [below, Number.lt]

theorem above_int {n : Int} {q : Rat} : above (.fin n) (some (.fin q)) = false ↔ (n : Rat) ≤ q := by
  simp [above, Number.lt]

/-- Where no number is too small, or none too big, some whole number does. -/
theorem exists_whole_iff {min max : Option Number} :
    (∃ n : Int, below (.fin n) min = false ∧ above (.fin n) max = false) ↔ roomBetween min max = true := by
  have hfree : ∀ (bound : Option Number), (∀ q, bound ≠ some (.fin q)) → bound ≠ some (.inf false) →
      ∀ n : Int, below (.fin n) bound = false := by
    intro bound hfin hinf n
    match bound with
    | none => rfl
    | some .nan => rfl
    | some (.inf true) => rfl
    | some (.inf false) => exact (hinf rfl).elim
    | some (.fin q) => exact (hfin q rfl).elim
  have hfree' : ∀ (bound : Option Number), (∀ q, bound ≠ some (.fin q)) → bound ≠ some (.inf true) →
      ∀ n : Int, above (.fin n) bound = false := by
    intro bound hfin hinf n
    match bound with
    | none => rfl
    | some .nan => rfl
    | some (.inf false) => rfl
    | some (.inf true) => exact (hinf rfl).elim
    | some (.fin q) => exact (hfin q rfl).elim
  unfold roomBetween
  split
  · simp [below, Number.lt]
  · simp [above, Number.lt]
  · rename_i p q
    simp only [below_int, above_int, decide_eq_true_eq]
    constructor
    · rintro ⟨n, hp, hq⟩
      exact (Int.ceil_le.2 hp).trans (Int.le_floor.2 hq)
    · intro h
      exact ⟨⌈p⌉, Int.le_ceil p, Int.le_floor.1 h⟩
  · rename_i hmin hmax hboth
    refine iff_of_true ?_ rfl
    by_cases hp : ∃ p, min = some (.fin p)
    · obtain ⟨p, rfl⟩ := hp
      refine ⟨⌈p⌉, below_int.2 (Int.le_ceil p), hfree' max (fun q hq => hboth p q rfl hq) hmax _⟩
    · have hbelow := hfree min (fun q hq => hp ⟨q, hq⟩) hmin
      by_cases hq : ∃ q, max = some (.fin q)
      · obtain ⟨q, rfl⟩ := hq
        exact ⟨⌊q⌋, hbelow _, above_int.2 (Int.floor_le q)⟩
      · exact ⟨0, hbelow 0, hfree' max (fun q h => hq ⟨q, h⟩) hmax 0⟩

theorem isInteger_iff {n : Number} : n.isInteger = true ↔ ∃ z : Int, n = .fin z := by
  cases n with
  | fin q =>
    simp only [Number.isInteger, beq_iff_eq, Number.fin.injEq]
    constructor
    · intro h
      exact ⟨q.num, (Rat.den_eq_one_iff q).1 h |>.symm⟩
    · rintro ⟨z, rfl⟩
      exact Rat.den_intCast z
  | inf negative => simp [Number.isInteger]
  | nan => simp [Number.isInteger]

/-! ### The check of a value -/

variable {key : String} {d : KeyDefinition}

theorem checkValue_secret (h : d.secret = true) : checkValue rt key d (.str "ENC[AES256_GCM,") = none := by
  rw [checkValue, if_pos (by decide), if_pos h]

/-- Only ciphertext passes a check without being of the declared type. -/
theorem checkType_of_checkValue {value : Value} (hsecret : d.secret = false)
    (h : checkValue rt key d value = none) :
    checkType rt key d value = none ∧ ∀ s, value = .str s → sopsEncrypted s = false := by
  cases value with
  | str s =>
    rw [checkValue, hsecret] at h
    split at h
    · cases h
    · rename_i hplain
      refine ⟨h, fun s' hs' => ?_⟩
      obtain rfl := Value.str.inj hs'
      simpa using hplain
  | null => cases h
  | _ => exact ⟨h, nofun⟩

theorem checkType_int_iff (hd : d.type = .int) {value : Value} : checkType rt key d value = none ↔
    ∃ n : Int, value = .num (.fin n) ∧ below (.fin n) d.min = false ∧ above (.fin n) d.max = false := by
  unfold checkType
  rw [hd]
  cases value with
  | num n =>
    dsimp only
    by_cases hn : n.isInteger = true
    · obtain ⟨z, rfl⟩ := isInteger_iff.1 hn
      rw [if_neg (by simp [hn])]
      cases hbelow : below (.fin z) d.min <;> cases habove : above (.fin z) d.max <;> simp [hbelow, habove]
    · rw [if_pos (by simp [hn])]
      refine iff_of_false nofun ?_
      rintro ⟨z, heq, -⟩
      exact hn (isInteger_iff.2 ⟨z, Value.num.inj heq⟩)
  | _ => simp

theorem checkType_enum_iff (hd : d.type = .enum) {value : Value} : checkType rt key d value = none ↔
    ∃ s ∈ d.values.getD [], value = .str s := by
  unfold checkType
  rw [hd]
  cases value with
  | str s =>
    dsimp only
    by_cases hs : s ∈ d.values.getD []
    · simp [hs]
    · simp [hs]
  | _ => simp

/-- A value that is neither ciphertext nor null is checked against the type. -/
theorem checkValue_of_checkType {value : Value} (hnull : value ≠ .null)
    (hplain : ∀ s, value = .str s → sopsEncrypted s = false) (h : checkType rt key d value = none) :
    checkValue rt key d value = none := by
  cases value with
  | str s =>
    show (if sopsEncrypted s then _ else _) = none
    rw [if_neg (by simp [hplain s rfl])]
    exact h
  | null => exact (hnull rfl).elim
  | _ => exact h

/-- A text that every key of type URL takes. -/
def sampleUrl : String := "https://example.com/"

/-- Some value is accepted just where the key is secret, or can be met. -/
theorem accepts_iff (hurl : rt.urlProtocol sampleUrl = some "https:") :
    (∃ value, checkValue rt key d value = none) ↔ d.secret = true ∨ d.meetable = true := by
  cases hsecret : d.secret with
  | true => exact iff_of_true ⟨_, checkValue_secret hsecret⟩ (.inl rfl)
  | false =>
    simp only [Bool.false_eq_true, false_or]
    have htyped : ∀ value, value ≠ .null → (∀ s, value = .str s → sopsEncrypted s = false) →
        checkType rt key d value = none → ∃ value, checkValue rt key d value = none :=
      fun value hnull hplain h => ⟨value, checkValue_of_checkType hnull hplain h⟩
    cases hd : d.type with
    | int =>
      rw [KeyDefinition.meetable, hd]
      dsimp only
      rw [← exists_whole_iff]
      constructor
      · rintro ⟨value, h⟩
        obtain ⟨n, -, hn⟩ := (checkType_int_iff hd).1 (checkType_of_checkValue hsecret h).1
        exact ⟨n, hn⟩
      · rintro ⟨n, hn⟩
        exact htyped (.num (.fin n)) (by simp) (by simp) ((checkType_int_iff hd).2 ⟨n, rfl, hn⟩)
    | enum =>
      rw [KeyDefinition.meetable, hd]
      simp only [List.any_eq_true, Bool.not_eq_true']
      constructor
      · rintro ⟨value, h⟩
        obtain ⟨htype, hplain⟩ := checkType_of_checkValue hsecret h
        obtain ⟨s, hs, rfl⟩ := (checkType_enum_iff hd).1 htype
        exact ⟨s, hs, hplain s rfl⟩
      · rintro ⟨s, hs, hplain⟩
        refine htyped (.str s) (by simp) ?_ ((checkType_enum_iff hd).2 ⟨s, hs, rfl⟩)
        intro s' hs'
        obtain rfl := Value.str.inj hs'
        exact hplain
    | string =>
      refine iff_of_true (htyped (.str "") (by simp) ?_ ?_) (by rw [KeyDefinition.meetable, hd])
      · intro s hs
        obtain rfl := Value.str.inj hs
        decide
      · rw [checkType, hd]
    | bool =>
      refine iff_of_true (htyped (.bool true) (by simp) (by simp) ?_) (by rw [KeyDefinition.meetable, hd])
      rw [checkType, hd]
    | url =>
      refine iff_of_true (htyped (.str sampleUrl) (by simp) ?_ ?_) (by rw [KeyDefinition.meetable, hd])
      · intro s hs
        obtain rfl := Value.str.inj hs
        decide
      · rw [checkType, hd]
        simp [hurl, urlSchemes]
    | stringList =>
      refine iff_of_true (htyped (.arr []) (by simp) (by simp) ?_) (by rw [KeyDefinition.meetable, hd])
      rw [checkType, hd]
      rfl

/-! ### The set of all schemas -/

theorem declared_service {set : SchemaSet} {service : String}
    (hd : (set.definitionsFor service).lookup key = some d) :
    ∃ schema, set.services.lookup service = some schema ∧ schema.definitions.lookup key = some d := by
  unfold SchemaSet.definitionsFor at hd
  cases hs : set.services.lookup service with
  | none =>
    rw [hs] at hd
    cases hd
  | some schema =>
    rw [hs] at hd
    exact ⟨schema, rfl, hd⟩

/-- A document that holds one key is valid where its value passes. -/
theorem validate_one {set : SchemaSet} {service : String} (hmetadata : isMetadataKey key = false)
    (hd : (set.definitionsFor service).lookup key = some d) {value : Value} :
    set.validate service rt [(key, value)] = [] ↔ checkValue rt key d value = none := by
  obtain ⟨schema, hschema, hkey⟩ := declared_service hd
  rw [validate_eq_nil]
  constructor
  · rintro ⟨schema', hschema', hfits⟩
    rw [hschema] at hschema'
    obtain rfl := Option.some.inj hschema'
    obtain ⟨d', hd', hvalue⟩ := (checkEntry_eq_none hmetadata).1 (hfits _ (List.mem_singleton_self _))
    rw [hkey] at hd'
    obtain rfl := Option.some.inj hd'
    exact hvalue
  · intro hvalue
    refine ⟨schema, hschema, ?_⟩
    intro f hf
    rw [List.mem_singleton.1 hf]
    exact (checkEntry_eq_none hmetadata).2 ⟨d, hkey, hvalue⟩

/-- A declared key has a value that a document may hold just where it is metadata, secret, or meetable. -/
theorem key_is_satisfiable_iff (hurl : rt.urlProtocol sampleUrl = some "https:")
    {files : List (String × String)} {set : SchemaSet} (_ : SchemaSet.fromFiles rt files = .ok set)
    {service : String} (hd : (set.definitionsFor service).lookup key = some d) :
    (∃ value, set.validate service rt [(key, value)] = []) ↔
      isMetadataKey key = true ∨ d.secret = true ∨ d.meetable = true := by
  cases hmetadata : isMetadataKey key with
  | true =>
    obtain ⟨schema, hschema, -⟩ := declared_service hd
    refine iff_of_true ⟨.null, validate_eq_nil.2 ⟨schema, hschema, ?_⟩⟩ (.inl rfl)
    intro f hf
    rw [List.mem_singleton.1 hf]
    exact checkEntry_metadata hmetadata
  | false =>
    simp only [Bool.false_eq_true, false_or]
    rw [← accepts_iff hurl]
    exact exists_congr fun value => validate_one hmetadata hd

/-! ### A range without a whole number -/

/-- What `ratioSource` parses to. -/
def ratioDocument : Value :=
  .obj [("version", .num (.fin 1)),
    ("keys", .obj [("RATIO", .obj [("type", .str "int"), ("min", .num (.fin (1 / 5))),
      ("max", .num (.fin (4 / 5)))])])]

def ratioSource : String :=
  "version: 1\nkeys:\n  RATIO:\n    type: int\n    min: 0.2\n    max: 0.8\n"

/-- The runtime, as far as it matters to this file. -/
def ratioRuntime : Runtime where
  parseYaml _ := .ok ratioDocument
  stringifyYaml _ := ratioSource
  urlProtocol _ := some "https:"
  numberText _ := ""

def ratioKey : KeyDefinition := { type := .int, min := some (.fin (1 / 5)), max := some (.fin (4 / 5)), secret := false }

def ratioSet : SchemaSet := ⟨[("web", ⟨[("RATIO", ratioKey)], .fin 1, false⟩)]⟩

theorem ratioSet_accepted : SchemaSet.fromFiles ratioRuntime [("web", ratioSource)] = .ok ratioSet := by
  with_unfolding_all rfl

/-- A schema is accepted, and no value is for its key. -/
theorem accepted_key_without_value : ¬ ∀ (rt : Runtime) (files : List (String × String)) (set : SchemaSet)
    (service key : String) (d : KeyDefinition), rt.urlProtocol sampleUrl = some "https:" →
    SchemaSet.fromFiles rt files = .ok set → (set.definitionsFor service).lookup key = some d →
    ∃ value, set.validate service rt [(key, value)] = [] := by
  intro h
  obtain ⟨value, hvalue⟩ := h ratioRuntime _ _ "web" "RATIO" ratioKey rfl ratioSet_accepted rfl
  have hpasses := (validate_one (by decide) rfl).1 hvalue
  have hmeetable := (accepts_iff rfl).1 ⟨value, hpasses⟩
  revert hmeetable
  decide +kernel

/-- The range from 0.2 to 0.8. -/
theorem ratio_key_is_not_satisfiable :
    (∃ value, ratioSet.validate "web" ratioRuntime [("RATIO", value)] = []) ↔
      isMetadataKey "RATIO" = true ∨ ratioKey.secret = true ∨ ratioKey.meetable = true :=
  key_is_satisfiable_iff rfl ratioSet_accepted rfl

end ConfigRegistry.Schema
