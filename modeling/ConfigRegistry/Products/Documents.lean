import ConfigRegistry.Products.Commits

/-!
# One document

What an operation makes of a document: the values that it sets, and what is read back of the text that
it stores. Two values are the same here where `isDeepStrictEqual` says so.
-/

namespace ConfigRegistry.Products

open Js Schema Store

variable {o : ProductWriteOptions} {session : ProductMutation}

/-! ### The same values -/

/-- Two fields that may be absent hold the same. -/
def SameValue (a b : Option Value) : Prop := a = b ∨ sameField a b = true

theorem SameValue.refl (a : Option Value) : SameValue a a := .inl rfl

/-- Two configurations hold the same. -/
def SameConfig (config config' : Record) : Prop :=
  (Value.obj config).deepEqual (.obj config') = true

theorem sameValue_of_sameConfig {config config' : Record} (h : SameConfig config config') {key : String}
    (hkey : config'.has key = true → config.has key = true) :
    SameValue (config.lookup key) (config'.lookup key) := by
  rw [SameConfig, Value.deepEqual, Bool.and_eq_true] at h
  cases hlookup : config.lookup key with
  | some v =>
    obtain ⟨w, hw, hvw⟩ := lookup_of_deepEqualFields h.2 (Record.mem_of_lookup hlookup)
    rw [hw]
    exact .inr hvw
  | none =>
    cases hlookup' : config'.lookup key with
    | none => exact .refl none
    | some w =>
      have := hkey (by rw [Record.has, hlookup']; rfl)
      rw [Record.has, hlookup] at this
      cases this

theorem length_of_sameConfig {config config' : Record} (h : SameConfig config config') :
    config.length = config'.length := by
  rw [SameConfig, Value.deepEqual, Bool.and_eq_true] at h
  exact eq_of_beq h.1

/-- Whether a configuration is the same as another one depends on what the other holds of each key. -/
theorem deepEqualFields_congr {config other other' : Record} (h : ∀ key, other.lookup key = other'.lookup key) :
    Value.deepEqualFields config other = Value.deepEqualFields config other' := by
  induction config with
  | nil => rfl
  | cons f config ih =>
    obtain ⟨key, value⟩ := f
    rw [Value.deepEqualFields, Value.deepEqualFields, Value.deepEqualField, Value.deepEqualField, h key, ih]

/-! ### Setting values -/

theorem has_set (r : Record) (key k : String) (value : Value) :
    (r.set key value).has k = (r.has k || k == key) := by
  rw [Record.has, Record.has]
  by_cases h : k = key
  · subst h
    simp
  · rw [Record.lookup_set_ne r value h]
    simp [h]

theorem length_set (r : Record) (key : String) (value : Value) :
    (r.set key value).length = if r.has key then r.length else r.length + 1 := by
  induction r with
  | nil => rfl
  | cons f r ih =>
    obtain ⟨k, v⟩ := f
    rw [Record.set, Record.has, List.lookup_cons]
    by_cases h : k = key
    · subst h
      simp
    · rw [if_neg h, beq_false_of_ne (Ne.symm h), List.length_cons, List.length_cons, ih, Record.has]
      split <;> rfl

/-- A record grows exactly by the keys that it gets. -/
theorem length_foldl_set (r : Record) (changes : List (String × Value)) :
    r.length ≤ (changes.foldl (fun r f => r.set f.1 f.2) r).length ∧
      ((changes.foldl (fun r f => r.set f.1 f.2) r).length = r.length →
        ∀ key, (changes.foldl (fun r f => r.set f.1 f.2) r).has key = true → r.has key = true) := by
  induction changes generalizing r with
  | nil => exact ⟨Nat.le_refl _, fun _ _ h => h⟩
  | cons f changes ih =>
    rw [List.foldl_cons]
    obtain ⟨hle, hhas⟩ := ih (r.set f.1 f.2)
    rw [length_set] at hle hhas
    cases hf : r.has f.1 with
    | true =>
      rw [hf, if_pos rfl] at hle hhas
      refine ⟨hle, fun hlength key hkey => ?_⟩
      have := hhas hlength key hkey
      rw [has_set, Bool.or_eq_true, beq_iff_eq] at this
      rcases this with this | rfl
      · exact this
      · exact hf
    | false =>
      rw [hf, if_neg (by simp)] at hle
      exact ⟨by omega, fun hlength => by omega⟩

/-- The value that changes give a key: the last one. -/
def lastChange (changes : List (String × Value)) (key : String) : Option Value :=
  changes.reverse.lookup key

theorem lookup_foldl_set (r : Record) (changes : List (String × Value)) (key : String) :
    (changes.foldl (fun r f => r.set f.1 f.2) r).lookup key = (lastChange changes key).or (r.lookup key) := by
  induction changes generalizing r with
  | nil => rfl
  | cons f changes ih =>
    obtain ⟨k, v⟩ := f
    rw [List.foldl_cons, ih, lastChange, lastChange, List.reverse_cons, List.lookup_append]
    by_cases h : key = k
    · subst h
      rw [Record.lookup_set_self, Option.or_assoc, List.lookup_cons_self, Option.some_or]
    · rw [Record.lookup_set_ne r v h, Option.or_assoc, List.lookup_cons, beq_false_of_ne h, List.lookup_nil,
        Option.none_or]

/-- The values that are not `undefined`. -/
def definedChanges (changes : List (String × Option Value)) : List (String × Value) :=
  changes.filterMap fun c => c.2.map fun v => (c.1, v)

theorem override_eq_ok {next next' : Record} {changes : List (String × Option Value)}
    (h : ProductMutation.override next changes = .ok next') :
    next' = (definedChanges changes).foldl (fun r f => r.set f.1 f.2) next ∧
      (∀ c ∈ changes, isMetadataKey c.1 = false) ∧ ∀ c ∈ changes, c.2.isSome = true := by
  induction changes generalizing next with
  | nil =>
    obtain rfl := pure_eq_ok.1 h
    exact ⟨rfl, by simp, by simp⟩
  | cons c changes ih =>
    obtain ⟨key, value⟩ := c
    cases value with
    | none => cases h
    | some v =>
      simp only [ProductMutation.override] at h
      split at h
      · cases h
      · rename_i hmeta
        obtain ⟨hnext, hplain, hsome⟩ := ih h
        refine ⟨hnext, List.forall_mem_cons.2 ⟨by simpa using hmeta, hplain⟩,
          List.forall_mem_cons.2 ⟨rfl, hsome⟩⟩

/-- A configuration with changes made to it is one of configuration keys. -/
theorem override_plain {config next : Record} {changes : List (String × Option Value)}
    (hconfig : ∀ f ∈ config, isMetadataKey f.1 = false)
    (h : ProductMutation.override config changes = .ok next) : ∀ f ∈ next, isMetadataKey f.1 = false := by
  rintro ⟨key, value⟩ hmem
  rcases mem_override h hmem with hmem | ⟨-, hmeta⟩
  · exact hconfig _ hmem
  · exact hmeta

/-- Where an override leaves a configuration the same, it agrees with it on every key. -/
theorem sameValue_of_override {config next : Record} {changes : List (String × Option Value)}
    (h : ProductMutation.override config changes = .ok next) (hsame : SameConfig config next)
    (key : String) : SameValue (config.lookup key) (next.lookup key) := by
  obtain ⟨rfl, -, -⟩ := override_eq_ok h
  apply sameValue_of_sameConfig hsame
  exact (length_foldl_set config (definedChanges changes)).2 (length_of_sameConfig hsame).symm key

/-! ### The text of a document -/

theorem configOnly_plain (config : Record) : ∀ f ∈ configOnly config, isMetadataKey f.1 = false :=
  fun _ hf => (mem_configOnly.1 hf).2

theorem configOnly_of_plain {config : Record} (h : ∀ f ∈ config, isMetadataKey f.1 = false) :
    configOnly config = config := by
  apply List.filter_eq_self.2
  intro f hf
  rw [h f hf]
  rfl

theorem lookup_nextVersion_ne (current next : Record) {key : String} (h : isMetadataKey key = false) :
    (nextVersion current next).lookup key = next.lookup key := by
  apply Record.lookup_set_ne
  rintro rfl
  cases h

/-- What is read back of a document that was written. -/
theorem resolveOne_of_encode {environment : String} {value : Record} {set : SchemaSet} {source : String}
    (yaml : ∀ v, session.options.rt.parseYaml (session.options.rt.stringifyYaml v) = .ok v)
    (sops : ∀ ns text source, session.options.encrypt ns text = .ok source →
      session.options.decrypt (configPath ns) source = .ok text)
    (h : session.encode environment value set = .ok source) :
    ProductMutation.resolveOne session.options (namespaceText session.service environment) source =
      .ok (ProductMutation.ordered value) := by
  rw [ProductMutation.encode] at h
  obtain ⟨-, h⟩ := guard_eq_ok (by simp) h
  obtain ⟨source', hencrypt, h⟩ := bind_eq_ok.1 h
  obtain ⟨parsed, hparse, h⟩ := bind_eq_ok.1 h
  have hsource : source' = source := by
    cases parsed with
    | obj held =>
      dsimp only at h
      split at h
      · cases h
      · exact pure_eq_ok.1 h
    | _ => cases h
  subst hsource
  rw [ProductMutation.resolveOne, sops _ _ _ (lift_eq_ok.1 hencrypt)]
  change parseConfig _ _ _ = _
  rw [parseConfig, yaml]

/-- The version of a document that was written is one more than it was. -/
theorem versionOf_of_encode {environment : String} {current next : Record} {set : SchemaSet} {source : String}
    (h : session.encode environment (nextVersion current next) set = .ok source) :
    versionOf (ProductMutation.ordered (nextVersion current next)) = versionOf current + 1 := by
  rw [ProductMutation.encode] at h
  obtain ⟨hsafe, -⟩ := guard_eq_ok (by simp) h
  have hversion : (nextVersion current next).lookup "version" =
      some (.num (.ofNat (versionOf current + 1))) := Record.lookup_set_self _ _ _
  rw [hversion] at hsafe
  rw [versionOf, lookup_ordered, hversion]
  have hsafe : (Number.ofNat (versionOf current + 1)).isSafeInteger = true := by simpa using hsafe
  have hnonneg : (Number.ofNat (versionOf current + 1)).lt (.fin 0) = false := by
    rw [Number.ofNat, Number.lt, decide_eq_false_iff_not, not_lt]
    exact Nat.cast_nonneg _
  rw [Number.ofNat] at hsafe hnonneg ⊢
  dsimp only
  rw [hsafe, hnonneg, Rat.num_natCast]
  rfl

theorem configOnly_set {key : String} (h : isMetadataKey key = true) (r : Record) (value : Value) :
    configOnly (r.set key value) = configOnly r := by
  induction r with
  | nil => simp [Record.set, configOnly, h]
  | cons f r ih =>
    obtain ⟨k, v⟩ := f
    rw [Record.set]
    unfold configOnly at ih ⊢
    split
    · rename_i hk
      simp [hk, h]
    · rw [List.filter_cons, List.filter_cons, ih]

theorem configOnly_ordered (value : Record) : configOnly (ProductMutation.ordered value) =
    (sortTexts (configOnly value).keys).filterMap
      fun key => (value.lookup key).map fun held => (key, held) := by
  unfold ProductMutation.ordered
  have happend : ∀ r s : Record, configOnly (r ++ s) = configOnly r ++ configOnly s := fun r s =>
    List.filter_append ..
  have hmetadata : configOnly (value.filter fun f => isMetadataKey f.1) = [] := by
    apply List.filter_eq_nil_iff.2
    intro f hf
    rw [(List.mem_filter.1 hf).2]
    decide
  rw [happend, hmetadata, List.append_nil]
  apply configOnly_of_plain
  rintro ⟨key, v⟩ hmem
  obtain ⟨k, hk, heq⟩ := List.mem_filterMap.1 hmem
  obtain ⟨w, -, heq⟩ := Option.map_eq_some_iff.1 heq
  obtain ⟨rfl, -⟩ := Prod.mk.inj heq
  rw [mem_sortTexts, Record.mem_keys] at hk
  obtain ⟨w, hw⟩ := hk
  exact (mem_configOnly.1 hw).2

/-- The document that is read back holds what was written: a configuration is the same as the one or
the other. -/
theorem sameConfig_written {config current next : Record} (hplain : ∀ f ∈ next, isMetadataKey f.1 = false) :
    SameConfig config (configOnly (ProductMutation.ordered (nextVersion current next))) ↔
      SameConfig config next := by
  have hconfig : configOnly (nextVersion current next) = next := by
    rw [nextVersion, configOnly_set (by decide), configOnly_of_plain hplain]
  have hlength : (configOnly (ProductMutation.ordered (nextVersion current next))).length = next.length := by
    have hkeys : ∀ key ∈ sortTexts next.keys,
        (((nextVersion current next).lookup key).map fun held => (key, held)).isSome = true := by
      intro key hkey
      rw [mem_sortTexts, Record.mem_keys] at hkey
      obtain ⟨v, hv⟩ := hkey
      rw [Option.isSome_map, lookup_nextVersion_ne _ _ (hplain _ hv)]
      obtain ⟨w, hw⟩ := Record.lookup_isSome_of_mem hv
      rw [hw]
      rfl
    rw [configOnly_ordered, hconfig, List.filterMap_length_eq_length.2 hkeys, sortTexts,
      List.length_insertionSort, Record.keys, List.length_map]
  have hlookup : ∀ key, (configOnly (ProductMutation.ordered (nextVersion current next))).lookup key =
      next.lookup key := by
    intro key
    rw [lookup_configOnly, lookup_ordered]
    split
    · rename_i hmeta
      cases hv : next.lookup key with
      | none => rfl
      | some v =>
        rw [hplain _ (Record.mem_of_lookup hv)] at hmeta
        cases hmeta
    · rename_i hmeta
      exact lookup_nextVersion_ne _ _ (by simpa using hmeta)
  rw [SameConfig, SameConfig, Value.deepEqual, Value.deepEqual, hlength, deepEqualFields_congr hlookup]

end ConfigRegistry.Products
