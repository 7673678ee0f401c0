import ConfigRegistry.Js.Codec
import ConfigRegistry.Schema.Drafts
import ConfigRegistry.Schema.Satisfiable

/-!
# What the reader makes of a form

The builder decides on drafts and the reader on parsed YAML, each by rules of its own.
-/

namespace ConfigRegistry.Schema

open Js

variable {rt : Runtime} {drafts : List KeyDraft} {draft : KeyDraft}

namespace KeyDraft

/-- The default that is written: none for a secret, and null is none. -/
def written (draft : KeyDraft) : Option Value :=
  match draft.default with
  | none | some .null => none
  | some value => if draft.secret then none else some value

/-- The name of the type that is written. -/
def typeName (draft : KeyDraft) : String := if draft.declared.isEmpty then draft.type else "enum"

/-- What a draft says, as a definition. -/
def reads (draft : KeyDraft) : KeyDefinition where
  type := (KeyType.ofName draft.typeName).getD .string
  default := draft.written
  values := if draft.declared.isEmpty then none else some draft.declared
  min := match draft.min with
    | some (.num n) => some n
    | _ => none
  max := match draft.max with
    | some (.num n) => some n
    | _ => none
  secret := draft.secret
  description := if trim draft.description = "" then none else some (trim draft.description)

/-- The reader takes what is written of a draft: an enumeration has values, and a default that is written is a
text where there are values, does not look like ciphertext, and is an http or https URL where that is the type. -/
structure Readable (rt : Runtime) (draft : KeyDraft) : Prop where
  listed : draft.type = "enum" → draft.declared ≠ []
  text : draft.declared ≠ [] → ∀ value, draft.written = some value → ∃ s, value = .str s
  plain : ∀ s, draft.written = some (.str s) → sopsEncrypted s = false
  url : draft.type = "url" → ∀ s, draft.written = some (.str s) →
    ∃ protocol ∈ urlSchemes, rt.urlProtocol s = some protocol

/-- What a draft that passes its check says. -/
structure Checked (rt : Runtime) (draft : KeyDraft) : Prop where
  type : draft.type ∈ types
  plain : draft.secret = true → draft.declared = []
  listed : draft.declared ≠ [] → draft.type = "string" ∨ draft.type = "enum"
  bounded : draft.min.isSome = true ∨ draft.max.isSome = true → draft.type = "int"
  min : ∀ value, draft.min = some value → ∃ q, value = .num (.fin q)
  max : ∀ value, draft.max = some value → ∃ q, value = .num (.fin q)
  ordered : ∀ p q, draft.min = some (.num (.fin p)) → draft.max = some (.num (.fin q)) → ¬ q < p
  default : checkDefault rt draft (trim draft.name) = []

end KeyDraft

theorem finite_of_checkBound {name label : String} {bound : Option Value}
    (h : checkBound name label bound = []) : ∀ value, bound = some value → ∃ q, value = .num (.fin q) := by
  rintro value rfl
  cases value with
  | num n =>
    simp only [checkBound] at h
    cases n with
    | fin q => exact ⟨q, rfl⟩
    | inf negative => simp [Number.isInteger] at h
    | nan => simp [Number.isInteger] at h
  | _ => simp [checkBound] at h

theorem checked_of_checkKey {seen : List String} (h : checkKey rt draft seen = []) : draft.Checked rt := by
  unfold checkKey at h
  split at h
  · simp at h
  · rename_i htype
    simp only [List.append_eq_nil_iff] at h
    obtain ⟨⟨⟨⟨⟨⟨⟨⟨⟨-, -⟩, -⟩, hvalues⟩, hlisted⟩, hbounded⟩, hmin⟩, hmax⟩, hordered⟩, hdefault⟩ := h
    constructor
    · simpa using htype
    · intro hsecret
      by_contra hne
      simp [hsecret, hne] at hvalues
    · intro hne
      by_contra hnot
      push Not at hnot
      simp [hne, hnot.1, hnot.2] at hlisted
    · intro hsome
      by_contra hnot
      rcases hsome with hsome | hsome <;> simp [hsome, hnot] at hbounded
    · exact finite_of_checkBound hmin
    · exact finite_of_checkBound hmax
    · intro p q hp hq hlt
      rw [hp, hq] at hordered
      simp [finiteNumber, Number.lt, hlt] at hordered
    · exact hdefault

theorem checked_of_checkKeys {seen : List String} (h : checkKeys rt drafts seen = []) (hdraft : draft ∈ drafts) :
    draft.Checked rt := by
  induction drafts generalizing seen with
  | nil => cases hdraft
  | cons d drafts ih =>
    rw [checkKeys, List.append_eq_nil_iff] at h
    rcases List.mem_cons.1 hdraft with rfl | hdraft
    · exact checked_of_checkKey h.1
    · exact ih h.2 hdraft

/-! ### The mapping of a draft -/

theorem lookup_optionally_self (key : String) (v : Option Value) : (optionally key v).lookup key = v := by
  cases v with
  | none => rfl
  | some v => exact List.lookup_cons_self

theorem definition_eq (draft : KeyDraft) : draft.definition =
    [("type", .str draft.typeName)] ++
      optionally "values" (if draft.declared.isEmpty then none else some (.arr (draft.declared.map .str))) ++
      optionally "min" draft.min ++ optionally "max" draft.max ++
      optionally "secret" (if draft.secret then some (.bool true) else none) ++
      optionally "description"
        (if trim draft.description = "" then none else some (.str (trim draft.description))) ++
      optionally "default" draft.written := by
  unfold KeyDraft.definition KeyDraft.written KeyDraft.typeName
  cases draft.default with
  | none => rfl
  | some v => cases v <;> cases draft.secret <;> rfl

/-- The fields of the mapping, by name. -/
theorem field_definition (draft : KeyDraft) (name : String) :
    (Value.obj draft.definition).field name =
      if name = "type" then some (.str draft.typeName)
      else if name = "values" then
        if draft.declared.isEmpty then none else some (.arr (draft.declared.map .str))
      else if name = "min" then draft.min
      else if name = "max" then draft.max
      else if name = "secret" then if draft.secret then some (.bool true) else none
      else if name = "description" then
        if trim draft.description = "" then none else some (.str (trim draft.description))
      else if name = "default" then draft.written
      else none := by
  have hskip : ∀ {key : String} {v : Option Value}, name ≠ key → (optionally key v).lookup name = none :=
    fun hne => lookup_optionally hne _
  simp only [Value.field, definition_eq, List.lookup_append]
  by_cases htype : name = "type"
  · subst htype
    simp
  have hfirst : List.lookup name [("type", Value.str draft.typeName)] = none := by
    rw [List.lookup_cons, beq_false_of_ne htype, List.lookup_nil]
  rw [hfirst, if_neg htype, Option.none_or]
  by_cases hvalues : name = "values"
  · subst hvalues
    simp [lookup_optionally_self, hskip]
  rw [hskip hvalues, if_neg hvalues, Option.none_or]
  by_cases hmin : name = "min"
  · subst hmin
    simp [lookup_optionally_self, hskip]
  rw [hskip hmin, if_neg hmin, Option.none_or]
  by_cases hmax : name = "max"
  · subst hmax
    simp [lookup_optionally_self, hskip]
  rw [hskip hmax, if_neg hmax, Option.none_or]
  by_cases hsecret : name = "secret"
  · subst hsecret
    simp [lookup_optionally_self, hskip]
  rw [hskip hsecret, if_neg hsecret, Option.none_or]
  by_cases hdescription : name = "description"
  · subst hdescription
    simp [lookup_optionally_self, hskip]
  rw [hskip hdescription, if_neg hdescription, Option.none_or]
  by_cases hdefault : name = "default"
  · subst hdefault
    rw [lookup_optionally_self, if_pos rfl]
  · rw [hskip hdefault, if_neg hdefault]

/-! ### The definition that is read -/

theorem text_strings (texts : List String) : (texts.map Value.str).map rt.text = texts := by
  rw [List.map_map]
  exact List.map_id texts

attribute [ext] KeyDefinition

theorem definitionOf_draft (type : KeyType) (draft : KeyDraft) :
    definitionOf rt type (.obj draft.definition) = { draft.reads with type, default := none } := by
  have hmin : (Value.obj draft.definition).field "min" = draft.min := by rw [field_definition]; rfl
  have hmax : (Value.obj draft.definition).field "max" = draft.max := by rw [field_definition]; rfl
  have hvalues : (definitionOf rt type (.obj draft.definition)).values = draft.reads.values := by
    simp only [definitionOf, field_definition]
    unfold KeyDraft.reads
    cases hempty : draft.declared.isEmpty with
    | true => rfl
    | false => exact congrArg some (text_strings draft.declared)
  have hsecret : (definitionOf rt type (.obj draft.definition)).secret = draft.reads.secret := by
    simp only [definitionOf, field_definition]
    unfold KeyDraft.reads
    cases draft.secret <;> rfl
  have hdescription : (definitionOf rt type (.obj draft.definition)).description = draft.reads.description := by
    simp only [definitionOf, field_definition]
    unfold KeyDraft.reads
    by_cases h : trim draft.description = "" <;> simp [h]
  apply KeyDefinition.ext
  · rfl
  · rfl
  · exact hvalues
  · simp only [definitionOf, hmin]
    rfl
  · simp only [definitionOf, hmax]
    rfl
  · exact hsecret
  · exact hdescription

theorem KeyDraft.Checked.ofName (h : draft.Checked rt) : KeyType.ofName draft.typeName = some draft.reads.type := by
  have hsome : (KeyType.ofName draft.typeName).isSome = true := by
    unfold KeyDraft.typeName
    split
    · have := h.type
      simp only [types, List.mem_cons, List.not_mem_nil, or_false] at this
      rcases this with h | h | h | h | h | h <;> rw [h] <;> rfl
    · rfl
  obtain ⟨type, htype⟩ := Option.isSome_iff_exists.1 hsome
  unfold KeyDraft.reads
  rw [htype]
  rfl

/-- A default that is written is not null, and is the one the draft has. -/
theorem KeyDraft.default_of_written {value : Value} (h : draft.written = some value) :
    draft.default = some value ∧ value ≠ .null ∧ draft.secret = false := by
  unfold KeyDraft.written at h
  split at h
  · cases h
  · cases h
  · rename_i value' hnull hdefault
    split at h
    · cases h
    · rename_i hsecret
      obtain rfl := Option.some.inj h
      refine ⟨hdefault, ?_, by simpa using hsecret⟩
      rintro rfl
      exact hnull rfl

theorem checkDefault_some {name : String} {value : Value} (hdefault : draft.default = some value)
    (hnull : value ≠ .null) (h : checkDefault rt draft name = []) :
    (draft.declared ≠ [] → rt.text value ∈ draft.declared) ∧
      (draft.declared = [] → isOfType draft.type value = true ∧
        ∀ n, value = .num n → numberBelow n draft.min = false ∧ numberAbove n draft.max = false) := by
  unfold checkDefault at h
  rw [hdefault] at h
  split at h
  · rename_i heq
    cases heq
  · rename_i heq
    exact (hnull (Option.some.inj heq)).elim
  · rename_i value' hnull' heq
    obtain rfl := Option.some.inj heq
    constructor
    · intro hne
      by_contra hnot
      simp [hne, hnot] at h
    · intro hempty
      simp only [hempty, List.isEmpty_nil, Bool.not_true, Bool.false_eq_true, if_false] at h
      split at h
      · simp at h
      · rename_i htype
        refine ⟨by simpa using htype, ?_⟩
        rintro n rfl
        rw [List.append_eq_nil_iff] at h
        obtain ⟨hbelow, habove⟩ := h
        constructor
        · by_contra hnot
          simp [hnot] at hbelow
        · by_contra hnot
          simp [hnot] at habove

theorem KeyDraft.type_of_listed (h : draft.declared ≠ []) : draft.reads.type = .enum := by
  have hempty : draft.declared.isEmpty = false := by simpa using h
  unfold KeyDraft.reads KeyDraft.typeName
  rw [hempty]
  rfl

theorem KeyDraft.type_of_unlisted (h : draft.declared = []) :
    draft.reads.type = (KeyType.ofName draft.type).getD .string := by
  unfold KeyDraft.reads KeyDraft.typeName
  rw [h]
  rfl

/-- A default of the declared type passes where the reader can take it. -/
theorem KeyDraft.Checked.passes (h : draft.Checked rt) {key : String} (hr : draft.Readable rt) {value : Value}
    (hvalue : draft.written = some value) :
    checkValue rt key { draft.reads with default := none } value = none := by
  obtain ⟨hdefault, hnull, hsecret⟩ := KeyDraft.default_of_written hvalue
  obtain ⟨hlisted, hunlisted⟩ := checkDefault_some hdefault hnull h.default
  apply checkValue_of_checkType hnull
  · rintro s rfl
    exact hr.plain s hvalue
  by_cases hempty : draft.declared = []
  · obtain ⟨htype, hbounds⟩ := hunlisted hempty
    have hreads : ({ draft.reads with default := none } : KeyDefinition).type =
        (KeyType.ofName draft.type).getD .string := KeyDraft.type_of_unlisted hempty
    have hknown := h.type
    simp only [types, List.mem_cons, List.not_mem_nil, or_false] at hknown
    unfold checkType
    rw [hreads]
    rcases hknown with hknown | hknown | hknown | hknown | hknown | hknown <;> rw [hknown] at htype ⊢
    · cases value <;> simp_all [isOfType, KeyType.ofName]
    · cases value with
      | num n =>
        obtain ⟨hbelow, habove⟩ := hbounds n rfl
        have hinteger : n.isInteger = true := by simpa [isOfType] using htype
        have hmin : below n draft.reads.min = false := by
          unfold KeyDraft.reads
          dsimp only
          split
          · rename_i bound hbound
            rw [hbound] at hbelow
            exact hbelow
          · rfl
        have hmax : above n draft.reads.max = false := by
          unfold KeyDraft.reads
          dsimp only
          split
          · rename_i bound hbound
            rw [hbound] at habove
            exact habove
          · rfl
        simp [KeyType.ofName, hinteger, hmin, hmax]
      | null => exact (hnull rfl).elim
      | _ => simp [isOfType] at htype
    · cases value <;> simp_all [isOfType, KeyType.ofName]
    · exact (hr.listed hknown hempty).elim
    · cases value with
      | str s =>
        obtain ⟨protocol, hmem, hprotocol⟩ := hr.url hknown s hvalue
        simp [KeyType.ofName, hprotocol, hmem]
      | null => exact (hnull rfl).elim
      | _ => simp [isOfType] at htype
    · cases value with
      | arr items =>
        unfold isOfType at htype
        rw [Bool.and_eq_true] at htype
        exact if_pos htype.2
      | null => exact (hnull rfl).elim
      | _ => simp [isOfType] at htype
  · obtain ⟨s, rfl⟩ := hr.text hempty value hvalue
    refine (checkType_enum_iff (KeyDraft.type_of_listed hempty)).2 ⟨s, ?_, rfl⟩
    have hmem := hlisted hempty
    have hvalues : draft.reads.values = some draft.declared := by
      have hfalse : draft.declared.isEmpty = false := by simpa using hempty
      unfold KeyDraft.reads
      rw [hfalse]
      rfl
    show s ∈ draft.reads.values.getD []
    rw [hvalues]
    exact hmem

/-- The written default passes the check of a value just where the reader can take it. -/
theorem KeyDraft.Checked.default_iff (h : draft.Checked rt) {key : String}
    (hlisted : draft.type = "enum" → draft.declared ≠ []) :
    (∀ value, draft.written = some value → checkValue rt key { draft.reads with default := none } value = none) ↔
      draft.Readable rt := by
  constructor
  · intro hpasses
    have htyped : ∀ value, draft.written = some value →
        checkType rt key { draft.reads with default := none } value = none ∧
          ∀ s, value = .str s → sopsEncrypted s = false :=
      fun value hvalue => checkType_of_checkValue (KeyDraft.default_of_written hvalue).2.2 (hpasses value hvalue)
    constructor
    · exact hlisted
    · intro hne value hvalue
      obtain ⟨s, -, hs⟩ := (checkType_enum_iff (KeyDraft.type_of_listed hne)).1 (htyped value hvalue).1
      exact ⟨s, hs⟩
    · intro s hs
      exact (htyped _ hs).2 s rfl
    · intro hurl s hs
      have hempty : draft.declared = [] := by
        by_contra hne
        rcases h.listed hne with heq | heq <;> rw [hurl] at heq <;> revert heq <;> decide
      have htype := (htyped _ hs).1
      have hreads : ({ draft.reads with default := none } : KeyDefinition).type = .url := by
        show draft.reads.type = .url
        rw [KeyDraft.type_of_unlisted hempty, hurl]
        rfl
      unfold checkType at htype
      rw [hreads] at htype
      dsimp only at htype
      split at htype
      · cases htype
      · rename_i protocol hprotocol
        split at htype
        · rename_i hmem
          exact ⟨protocol, by simpa using hmem, hprotocol⟩
        · cases htype
  · intro hr value hvalue
    exact h.passes hr hvalue

/-! ### One key -/

theorem withDefault_eq_ok {key place : String} {raw : Value} {definition d : KeyDefinition} :
    parseKey.withDefault rt key raw place definition = .ok d ↔
      (∀ value, raw.field "default" = some value → checkValue rt key definition value = none) ∧
        d = (raw.field "default").elim definition fun value => { definition with default := some value } := by
  unfold parseKey.withDefault
  cases raw.field "default" with
  | none => simp [eq_comm]
  | some value =>
    dsimp only
    cases hcheck : checkValue rt key definition value with
    | none => simp [hcheck, eq_comm]
    | some problem => simp [hcheck]

/-- What the reader asks of a key. -/
theorem parseKey_eq_ok {service key : String} {raw : Value} {d : KeyDefinition} :
    parseKey rt service key raw = .ok d ↔ raw.isMapping = true ∧ ∃ name type,
      raw.field "type" = some (.str name) ∧ KeyType.ofName name = some type ∧
      ¬ (type = .enum ∧ (definitionOf rt type raw).values.getD [] = []) ∧
      (∀ min max, (definitionOf rt type raw).min = some min → (definitionOf rt type raw).max = some max →
        max.lt min = false) ∧
      ∃ place, parseKey.withDefault rt key raw place (definitionOf rt type raw) = .ok d := by
  unfold parseKey
  cases hmap : raw.isMapping with
  | false => simp
  | true =>
    simp only [Bool.not_true, Bool.false_eq_true, if_false, true_and]
    cases hfield : raw.field "type" with
    | none => simp
    | some v =>
      cases v with
      | str name =>
        dsimp only
        cases hname : KeyType.ofName name with
        | none => simp [hname]
        | some type =>
          simp only [Option.some.injEq, Value.str.injEq, exists_and_left, existsAndEq, hname, true_and]
          by_cases henum : type = .enum ∧ (definitionOf rt type raw).values.getD [] = []
          · rw [if_pos henum]
            refine iff_of_false nofun ?_
            rintro ⟨hnot, -⟩
            exact hnot henum
          · rw [if_neg henum]
            generalize hdefinition : definitionOf rt type raw = definition at henum ⊢
            have hplace : ∀ place, parseKey.withDefault rt key raw place definition = .ok d ↔
                ∃ place, parseKey.withDefault rt key raw place definition = .ok d := by
              intro place
              simp only [withDefault_eq_ok, exists_const]
            cases hmin : definition.min with
            | none => simpa [henum, hmin] using hplace _
            | some min =>
              cases hmax : definition.max with
              | none => simpa [henum, hmin, hmax] using hplace _
              | some max =>
                dsimp only
                cases hlt : max.lt min with
                | true => simp [hlt]
                | false =>
                  rw [if_neg (by simp), hplace]
                  simp [henum, hlt]
      | _ => simp

theorem number_of_reads_min {n : Number} (h : draft.reads.min = some n) : draft.min = some (.num n) := by
  unfold KeyDraft.reads at h
  dsimp only at h
  split at h
  · rename_i bound hbound
    rw [hbound, Option.some.inj h]
  · cases h

theorem number_of_reads_max {n : Number} (h : draft.reads.max = some n) : draft.max = some (.num n) := by
  unfold KeyDraft.reads at h
  dsimp only at h
  split at h
  · rename_i bound hbound
    rw [hbound, Option.some.inj h]
  · cases h

/-- A draft that passed its check is read as what it says, or not at all. -/
theorem parseKey_draft (h : draft.Checked rt) (service key : String) (d : KeyDefinition) :
    parseKey rt service key (.obj draft.definition) = .ok d ↔ draft.Readable rt ∧ d = draft.reads := by
  have hfield : (Value.obj draft.definition).field "type" = some (.str draft.typeName) := by
    rw [field_definition]
    rfl
  have hdefault : (Value.obj draft.definition).field "default" = draft.written := by
    rw [field_definition]
    rfl
  have hreads : d = (draft.written.elim { draft.reads with default := none } fun value =>
      { draft.reads with default := some value }) ↔ d = draft.reads := by
    have hsame : (draft.written.elim { draft.reads with default := none } fun value =>
        { draft.reads with default := some value }) = draft.reads := by
      have hwritten : draft.reads.default = draft.written := rfl
      cases hcase : draft.written with
      | none => apply KeyDefinition.ext <;> first | rfl | exact (hwritten.trans hcase).symm
      | some value => apply KeyDefinition.ext <;> first | rfl | exact (hwritten.trans hcase).symm
    rw [hsame]
  simp only [parseKey_eq_ok, withDefault_eq_ok, exists_const, hfield, hdefault, definitionOf_draft]
  constructor
  · rintro ⟨-, name, type, hname, htype, hlisted, -, hcheck, hd⟩
    obtain rfl := Value.str.inj (Option.some.inj hname)
    rw [h.ofName] at htype
    obtain rfl := Option.some.inj htype
    refine ⟨((@KeyDraft.Checked.default_iff _ _ h key) ?_).1 hcheck, hreads.1 hd⟩
    intro henum hempty
    apply hlisted
    refine ⟨?_, ?_⟩
    · rw [KeyDraft.type_of_unlisted hempty, henum]
      rfl
    · unfold KeyDraft.reads
      rw [hempty]
      rfl
  · rintro ⟨hr, hd⟩
    refine ⟨rfl, _, _, rfl, h.ofName, ?_, ?_, (h.default_iff hr.listed).2 hr, hreads.2 hd⟩
    · rintro ⟨henum, hvalues⟩
      have hne : draft.declared ≠ [] := by
        intro hempty
        rw [KeyDraft.type_of_unlisted hempty] at henum
        have hknown := h.type
        simp only [types, List.mem_cons, List.not_mem_nil, or_false] at hknown
        rcases hknown with hknown | hknown | hknown | hknown | hknown | hknown <;> rw [hknown] at henum
        case inr.inr.inr.inl => exact hr.listed hknown hempty
        all_goals cases henum
      have hfalse : draft.declared.isEmpty = false := by simpa using hne
      apply hne
      unfold KeyDraft.reads at hvalues
      rw [hfalse] at hvalues
      exact hvalues
    · intro min max hmin hmax
      have hp := number_of_reads_min hmin
      have hq := number_of_reads_max hmax
      obtain ⟨p, hp'⟩ := h.min _ hp
      obtain ⟨q, hq'⟩ := h.max _ hq
      obtain rfl := Value.num.inj hp'
      obtain rfl := Value.num.inj hq'
      simpa [Number.lt] using h.ordered p q hp hq

/-! ### All drafts -/

theorem set_new {r : Record} {key : String} (h : key ∉ r.keys) (value : Value) :
    r.set key value = r ++ [(key, value)] := by
  induction r with
  | nil => rfl
  | cons f r ih =>
    obtain ⟨k, v⟩ := f
    simp only [Record.keys, List.map_cons, List.mem_cons, not_or] at h
    rw [Record.set, if_neg (Ne.symm h.1), ih h.2]
    rfl

/-- Names that are all new come one after the other. -/
theorem foldl_set_new {keys : Record} (hn : (drafts.map fun draft => trim draft.name).Nodup)
    (hnew : ∀ draft ∈ drafts, trim draft.name ∉ keys.keys) :
    drafts.foldl (fun keys draft => keys.set (trim draft.name) (.obj draft.definition)) keys =
      keys ++ drafts.map fun draft => (trim draft.name, .obj draft.definition) := by
  induction drafts generalizing keys with
  | nil => simp
  | cons draft drafts ih =>
    rw [List.map_cons, List.nodup_cons] at hn
    rw [List.forall_mem_cons] at hnew
    rw [List.foldl_cons, set_new hnew.1, ih hn.2]
    · simp
    · intro d hd hmem
      simp only [Record.keys, List.map_append, List.mem_append, List.map_cons, List.map_nil,
        List.mem_singleton] at hmem
      rcases hmem with hmem | heq
      · exact hnew.2 d hd hmem
      · exact hn.1 (heq ▸ List.mem_map_of_mem hd)

theorem checkKeys_of_buildSchema {built : String} (h : buildSchema rt drafts = .ok built) :
    checkKeys rt drafts [] = [] := by
  rw [buildSchema] at h
  split at h
  · rename_i hproblems
    exact List.isEmpty_iff.1 hproblems
  · cases h

theorem draftedKeys_eq {built : String} (h : buildSchema rt drafts = .ok built) :
    draftedKeys drafts = drafts.map fun draft => (trim draft.name, .obj draft.definition) := by
  have hn := (nodup_of_checkKeys (checkKeys_of_buildSchema h)).1
  exact foldl_set_new hn (by simp [Record.keys])

theorem parseKeys_drafts {service : String} (hchecked : ∀ draft ∈ drafts, draft.Checked rt)
    {definitions : List (String × KeyDefinition)} :
    parseKeys rt service (drafts.map fun draft => (trim draft.name, .obj draft.definition)) = .ok definitions ↔
      (∀ draft ∈ drafts, draft.Readable rt) ∧ definitions = drafts.map fun draft => (trim draft.name, draft.reads) := by
  induction drafts generalizing definitions with
  | nil => simp [parseKeys, eq_comm]
  | cons draft drafts ih =>
    rw [List.forall_mem_cons] at hchecked
    rw [List.map_cons, parseKeys_cons, List.forall_mem_cons]
    constructor
    · rintro ⟨d, ds, hd, hds, rfl⟩
      obtain ⟨hr, rfl⟩ := (parseKey_draft hchecked.1 _ _ _).1 hd
      obtain ⟨hrest, rfl⟩ := (ih hchecked.2).1 hds
      exact ⟨⟨hr, hrest⟩, rfl⟩
    · rintro ⟨⟨hr, hrest⟩, rfl⟩
      exact ⟨_, _, (parseKey_draft hchecked.1 _ _ _).2 ⟨hr, rfl⟩, (ih hchecked.2).2 ⟨hrest, rfl⟩, rfl⟩

/-- What is read of a schema that was built: the drafts, where each can be read, and nothing otherwise. -/
theorem fromFiles_built (yaml : ∀ v, rt.parseYaml (rt.stringifyYaml v) = .ok v) {built : String}
    (h : buildSchema rt drafts = .ok built) (service : String) (set : SchemaSet) :
    SchemaSet.fromFiles rt [(service, built)] = .ok set ↔ (∀ draft ∈ drafts, draft.Readable rt) ∧
      set = ⟨[(service, ⟨drafts.map fun draft => (trim draft.name, draft.reads), .fin 1, false⟩)]⟩ := by
  have hchecked : ∀ draft ∈ drafts, draft.Checked rt :=
    fun draft hdraft => checked_of_checkKeys (checkKeys_of_buildSchema h) hdraft
  have hparsed : rt.parseYaml built =
      .ok (.obj [("version", .num (.fin 1)), ("keys", .obj (draftedKeys drafts))]) := by
    rw [buildSchema_eq_ok h, yaml]
  have hshape : HasKeys (.obj [("version", .num (.fin 1)), ("keys", .obj (draftedKeys drafts))]) :=
    ⟨⟨_, rfl⟩, .inr ⟨_, rfl⟩⟩
  have hversion : parseSchemaVersion rt service
      (.obj [("version", .num (.fin 1)), ("keys", .obj (draftedKeys drafts))]) = .ok (.fin 1) := rfl
  have hkeys : Value.record ((Value.obj [("version", .num (.fin 1)), ("keys", .obj (draftedKeys drafts))]).field
      "keys") = drafts.map fun draft => (trim draft.name, .obj draft.definition) := draftedKeys_eq h
  rw [fromFiles_cons]
  constructor
  · rintro ⟨schema, others, hs, ho, rfl⟩
    cases ho
    obtain ⟨parsed, hp, hd, hv, hr⟩ := ofSource_eq_ok.1 hs
    rw [hparsed] at hp
    obtain rfl := Except.ok.inj hp
    obtain ⟨-, hd⟩ := parseSchema_eq_ok.1 hd
    rw [hkeys] at hd
    obtain ⟨hreadable, hd⟩ := (parseKeys_drafts hchecked).1 hd
    rw [hversion] at hv
    obtain ⟨definitions, version, retiring⟩ := schema
    obtain rfl : definitions = _ := hd
    obtain rfl := Except.ok.inj hv
    obtain rfl := Except.ok.inj hr
    exact ⟨hreadable, rfl⟩
  · rintro ⟨hreadable, rfl⟩
    refine ⟨_, _, ofSource_eq_ok.2 ⟨_, hparsed, parseSchema_eq_ok.2 ⟨hshape, ?_⟩, hversion, rfl⟩, rfl, rfl⟩
    rw [hkeys]
    exact (parseKeys_drafts hchecked).2 ⟨hreadable, rfl⟩

/-- The schema file is accepted, its definitions are the drafts, and its defaults the ones that are not null of
those that are not secret. -/
structure ReadBack (rt : Runtime) (drafts : List KeyDraft) (service : String) (set : SchemaSet) : Prop where
  definitions : set.definitionsFor service = drafts.map fun draft => (trim draft.name, draft.reads)
  defaults : set.defaultsFor service =
    drafts.filterMap fun draft => draft.written.map fun value => (trim draft.name, value)

/-- The reader takes what the builder wrote, for what the drafts say, just where it can take each of them. -/
theorem builder_and_reader_agree_iff (yaml : ∀ v, rt.parseYaml (rt.stringifyYaml v) = .ok v) {built : String}
    (h : buildSchema rt drafts = .ok built) (service : String) :
    (∃ set, SchemaSet.fromFiles rt [(service, built)] = .ok set ∧ ReadBack rt drafts service set) ↔
      ∀ draft ∈ drafts, draft.Readable rt := by
  constructor
  · rintro ⟨set, hset, -⟩
    exact ((fromFiles_built yaml h service set).1 hset).1
  · intro hreadable
    refine ⟨_, (fromFiles_built yaml h service _).2 ⟨hreadable, rfl⟩, ?_⟩
    have hdefinitions : SchemaSet.definitionsFor
        ⟨[(service, ⟨drafts.map fun draft => (trim draft.name, draft.reads), .fin 1, false⟩)]⟩ service =
        drafts.map fun draft => (trim draft.name, draft.reads) := by
      rw [SchemaSet.definitionsFor, List.lookup_cons_self]
      rfl
    refine ⟨hdefinitions, ?_⟩
    rw [SchemaSet.defaultsFor, hdefinitions, List.filterMap_map]
    rfl

/-! ### An enumeration without values -/

def modeDraft : KeyDraft where
  name := "MODE"
  type := "enum"
  secret := false
  values := []
  description := ""
  default := none

theorem buildSchema_of_checkKeys (h : checkKeys rt drafts [] = []) : ∃ built, buildSchema rt drafts = .ok built := by
  unfold buildSchema
  rw [h]
  exact ⟨_, rfl⟩

/-- The builder writes a schema that the reader refuses. -/
theorem built_schema_is_refused :
    ¬ ∀ (rt : Runtime) (drafts : List KeyDraft) (built : String),
      (∀ v, rt.parseYaml (rt.stringifyYaml v) = .ok v) → buildSchema rt drafts = .ok built →
      ∀ service, ∃ set, SchemaSet.fromFiles rt [(service, built)] = .ok set ∧ ReadBack rt drafts service set := by
  intro h
  have hchecks : checkKeys jsonRuntime [modeDraft] [] = [] := by decide +kernel
  obtain ⟨built, hbuilt⟩ := buildSchema_of_checkKeys hchecks
  obtain ⟨set, hset, -⟩ := h jsonRuntime [modeDraft] built parse_stringify hbuilt "web"
  have hreadable := ((fromFiles_built parse_stringify hbuilt "web" set).1 hset).1 modeDraft (by simp)
  exact hreadable.listed rfl rfl

/-- A whole number with bounds and a default, and a secret. -/
def portDrafts : List KeyDraft :=
  [{ name := " PORT ", type := "int", secret := false, values := [], description := "where it listens "
     min := some (.num (.fin 1)), max := some (.num (.fin 65535)), default := some (.num (.fin 8080)) },
   { name := "TOKEN", type := "string", secret := true, values := ["  "], description := "", default := none }]

theorem builder_and_reader_agree_on_port : ∃ built, buildSchema jsonRuntime portDrafts = .ok built ∧
    ((∃ set, SchemaSet.fromFiles jsonRuntime [("web", built)] = .ok set ∧ ReadBack jsonRuntime portDrafts "web" set) ↔
      ∀ draft ∈ portDrafts, draft.Readable jsonRuntime) := by
  have hchecks : checkKeys jsonRuntime portDrafts [] = [] := by decide +kernel
  obtain ⟨built, hbuilt⟩ := buildSchema_of_checkKeys hchecks
  exact ⟨built, hbuilt, builder_and_reader_agree_iff parse_stringify hbuilt "web"⟩

end ConfigRegistry.Schema
