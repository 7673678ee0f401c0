import ConfigRegistry.Products.Overtaking
import ConfigRegistry.Products.ValueWrites
import ConfigRegistry.Schema.GlobalSchema
import Mathlib.Data.List.DropRight

/-!
# The form of a product

`keyFieldModel` of `src/views/live-pages.ts` and the `key-field` partial print the values of an environment
into a form, and the `POST /p/:service/:environment` route of `src/routes/live-ui.ts` reads them back.
-/

namespace ConfigRegistry.Console

open Js Schema Store Products

/-! ### The page -/

/-- `LiveKeyRow`: what the fields of a key are made of. -/
structure LiveKeyRow where
  key : String
  definition : KeyDefinition
  value : Option Value

/-- The rows of `productPage`, of a page that nothing was submitted to before. -/
def rows (schema : ProductSchema) (values : Record) : List LiveKeyRow :=
  schema.definitions.map fun f => ⟨f.1, f.2, if f.2.secret then none else values.lookup f.1⟩

inductive Control where
  | secret | bool | enum | input
deriving DecidableEq

/-- What `keyFieldModel` gives the partial to print a field from. -/
structure KeyField where
  name : String
  control : Control
  formatted : String
  checked : Bool
  valueDefined : Bool
  enumValues : List String
  selectedValue : Option Value

section

variable (rt : Runtime)

/-- `String(Array.isArray(value) ? value.join(', ') : (value ?? ''))`. -/
def formatted : Option Value → String
  | none | some .null => ""
  | some (.arr items) => ", ".intercalate (rt.texts items)
  | some value => rt.text value

def keyFieldModel (row : LiveKeyRow) : KeyField :=
  let value := if row.definition.secret then some (.str "") else row.value
  { name := "key." ++ row.key
    control := if row.definition.secret then .secret
      else if row.definition.type = .bool then .bool
      else if row.definition.type = .enum then .enum
      else .input
    formatted := formatted rt value
    checked := match value with
      | some (.bool b) => b
      | _ => false
    valueDefined := value.isSome
    enumValues := row.definition.values.getD []
    selectedValue := value }

/-- What a browser submits of a field as it was rendered: a box that is not ticked is not submitted, and of the
options it is the selected one, which is the empty one unless one is marked. -/
def KeyField.submitted (field : KeyField) : List String :=
  match field.control with
  | .secret => [""]
  | .bool => (if field.valueDefined then ["false"] else []) ++ if field.checked then ["true"] else []
  | .enum =>
    match field.selectedValue with
    | some (.str s) => [if field.enumValues.contains s then s else ""]
    | _ => [""]
  | .input => [field.formatted]

/-- What the operator submits of a row: what it was rendered with, or what it was edited to. -/
def submittedRow (edited : String → Option (List String)) (row : LiveKeyRow) : List String :=
  (edited row.key).getD (keyFieldModel rt row).submitted

/-- The fields of the submitted page that are for keys, each with its values. -/
def submittedBody (edited : String → Option (List String)) (page : List LiveKeyRow) : List (String × List String) :=
  (page.filter fun row => !(submittedRow rt edited row).isEmpty).map fun row =>
    ((keyFieldModel rt row).name, submittedRow rt edited row)

end

/-! ### The route -/

/-- `text`. -/
def text (values : List String) : String := values.getLastD ""

/-- `raw.split(',').map((value) => value.trim()).filter(Boolean)`. -/
def splitItems (raw : String) : List String :=
  ((raw.toList.splitOn ',').map fun piece => trim (String.ofList piece)).filter fun item => item != ""

/-- `Number(raw)` is not part of the repository. -/
structure Numbers where
  numberOf : String → Number

section

variable (numbers : Numbers)

/-- The value that a text is read to, by the definition of its key. -/
def valueOf (definition : Option KeyDefinition) (raw : String) : Value :=
  match definition.map KeyDefinition.type with
  | some .int => if trim raw = "" then .str raw else .num (numbers.numberOf raw)
  | some .bool => .bool (raw == "true")
  | some .stringList => .arr ((splitItems raw).map Value.str)
  | _ => .str raw

/-- What the route makes of one field: nothing of one that is not for a key, and nothing of a secret that was left
blank. -/
def changeOf (definitions : List (String × KeyDefinition)) (field : String × List String) :
    Option (String × Option Value) :=
  if startsWith field.1 "key." then
    let key := String.ofList (field.1.toList.drop 4)
    let definition := definitions.lookup key
    let raw := text field.2
    if definition.any KeyDefinition.secret && raw == "" then none
    else some (key, some (valueOf numbers definition raw))
  else none

def changesOf (definitions : List (String × KeyDefinition)) (body : List (String × List String)) :
    List (String × Option Value) := body.filterMap (changeOf numbers definitions)

/-- The write that the route asks for when a page is saved. -/
def saveRequest (rt : Runtime) (service environment etag : String) (schema : ProductSchema) (stored : Record)
    (edited : String → Option (List String)) : WriteRequest where
  service
  environment
  changes := changesOf numbers schema.definitions (submittedBody rt edited (rows schema stored))
  expectedEtag := some (some etag)

end

/-! ### A list and its text -/

theorem trim_ofList (cs : List Char) : (trim (String.ofList cs)).toList = (cs.dropWhile isSpace).rdropWhile isSpace := by
  unfold trim
  rw [String.toList_ofList, String.toList_ofList]
  rfl

/-- White space is taken off once. -/
theorem trim_trim (text : String) : trim (trim text) = trim text := by
  apply String.toList_inj.1
  have htext : trim text = trim (String.ofList text.toList) := by rw [String.ofList_toList]
  have hagain : trim (trim text) = trim (String.ofList (trim text).toList) := by rw [String.ofList_toList]
  rw [hagain, trim_ofList, htext, trim_ofList]
  generalize hhead : text.toList.dropWhile isSpace = cs
  have hstart : (cs.rdropWhile isSpace).dropWhile isSpace = cs.rdropWhile isSpace := by
    rw [List.dropWhile_eq_self_iff]
    intro hlength
    have hprefix := List.rdropWhile_prefix isSpace cs
    have hcs : 0 < cs.length := Nat.lt_of_lt_of_le hlength hprefix.length_le
    have hsame : (cs.rdropWhile isSpace)[0] = cs[0] := hprefix.getElem hlength
    show ¬ isSpace (cs.rdropWhile isSpace)[0] = true
    rw [hsame]
    have hidem : cs.dropWhile isSpace = cs := by
      rw [← hhead]
      exact List.dropWhile_idempotent _ _
    exact List.dropWhile_eq_self_iff.1 hidem hcs
  rw [hstart]
  exact List.rdropWhile_idempotent _ _

/-- An item that a list keeps when it is printed and read back: it has no comma, and no white space around it. -/
structure PlainItem (item : String) : Prop where
  nonempty : item ≠ ""
  unsplit : ',' ∉ item.toList
  trimmed : trim item = item

theorem plainItem_of_splitItems {raw item : String} (h : item ∈ splitItems raw) : PlainItem item := by
  unfold splitItems at h
  obtain ⟨hmem, hne⟩ := List.mem_filter.1 h
  obtain ⟨piece, hpiece, rfl⟩ := List.mem_map.1 hmem
  refine ⟨by simpa using hne, ?_, trim_trim _⟩
  rw [trim_ofList]
  intro hcomma
  have hsub : ',' ∈ piece := (List.dropWhile_suffix _).subset ((List.rdropWhile_prefix _ _).subset hcomma)
  exact not_mem_of_splitOn hpiece hsub

theorem trim_space (cs : List Char) : trim (String.ofList (' ' :: cs)) = trim (String.ofList cs) := by
  apply String.toList_inj.1
  rw [trim_ofList, trim_ofList, List.dropWhile_cons_of_pos (by decide)]

/-- By induction on the items: each is the text up to the next comma, with the space after the last one. -/
theorem splitItems_joined (items : List String) (item : String) (lead : List Char) (hlead : lead = [] ∨ lead = [' '])
    (h : ∀ i ∈ item :: items, PlainItem i) :
    splitItems (String.ofList (lead ++ (", ".intercalate (item :: items)).toList)) = item :: items := by
  have hitem := h item List.mem_cons_self
  have htrim : trim (String.ofList (lead ++ item.toList)) = item := by
    rcases hlead with rfl | rfl
    · rw [List.nil_append, String.ofList_toList]
      exact hitem.trimmed
    · rw [List.singleton_append, trim_space, String.ofList_toList]
      exact hitem.trimmed
  have hcomma : ',' ∉ lead ++ item.toList := by
    rw [List.mem_append, not_or]
    refine ⟨?_, hitem.unsplit⟩
    rcases hlead with rfl | rfl <;> decide
  induction items generalizing item lead with
  | nil =>
    unfold splitItems
    rw [String.toList_ofList, String.intercalate_singleton, List.splitOn_eq_singleton hcomma, List.map_singleton, htrim]
    simp [hitem.nonempty]
  | cons next items ih =>
    have hnext := h next (List.mem_cons_of_mem _ List.mem_cons_self)
    have hrest : ∀ i ∈ next :: items, PlainItem i := fun i hi => h i (List.mem_cons_of_mem _ hi)
    have htail := ih next [' '] (.inr rfl) hrest hnext (by
      rw [List.singleton_append, trim_space, String.ofList_toList]
      exact hnext.trimmed) (by
      rw [List.singleton_append, List.mem_cons, not_or]
      exact ⟨by decide, hnext.unsplit⟩)
    have htext : lead ++ (", ".intercalate (item :: next :: items)).toList =
        (lead ++ item.toList) ++ ',' :: ([' '] ++ (", ".intercalate (next :: items)).toList) := by
      rw [String.intercalate_cons_of_ne_nil (by simp), String.toList_append, String.toList_append]
      simp
    unfold splitItems at htail ⊢
    rw [String.toList_ofList] at htail ⊢
    rw [htext, List.splitOn_append_cons_self_of_not_mem hcomma, List.map_cons, htrim, List.filter_cons,
      if_pos (by simpa using hitem.nonempty), htail]

/-- A list comes back as it was just where each of its items is plain. -/
theorem splitItems_intercalate {items : List String} :
    splitItems (", ".intercalate items) = items ↔ ∀ item ∈ items, PlainItem item := by
  constructor
  · intro h item hitem
    rw [← h] at hitem
    exact plainItem_of_splitItems hitem
  · intro h
    cases items with
    | nil => decide +kernel
    | cons item items =>
      have := splitItems_joined items item [] (.inl rfl) h
      rwa [List.nil_append, String.ofList_toList] at this

/-! ### What a row posts -/

section

variable (numbers : Numbers) (rt : Runtime)

/-- The value that the route reads for a row, where it reads one. -/
def postedValue (edited : String → Option (List String)) (row : LiveKeyRow) : Option Value :=
  let submitted := submittedRow rt edited row
  if submitted.isEmpty then none
  else if row.definition.secret && text submitted == "" then none
  else some (valueOf numbers (some row.definition) (text submitted))

/-- The values that a page posts, by key. -/
def posts (edited : String → Option (List String)) (page : List LiveKeyRow) : List (String × Value) :=
  page.filterMap fun row => (postedValue numbers rt edited row).map fun v => (row.key, v)

/-- The value that the row posts is refused. -/
def Rejected (edited : String → Option (List String)) (row : LiveKeyRow) : Prop :=
  ∃ v, postedValue numbers rt edited row = some v ∧
    (isMetadataKey row.key = true ∨ checkValue rt row.key row.definition v ≠ none)

/-- The row, unedited, posts nothing, or the value that is stored. -/
def Faithful (row : LiveKeyRow) : Prop :=
  ∀ v, postedValue numbers rt (fun _ => none) row = some v →
    isMetadataKey row.key = false ∧ SameValue (some v) row.value

end

/-- The rows that give back what they show: a secret, a switch that is not set, and a value that is set and, where it
is a list, has plain items only. -/
def GivesBack (row : LiveKeyRow) : Prop :=
  row.definition.secret = true ∨ row.definition.type = .bool ∧ row.value = none ∨
    isMetadataKey row.key = false ∧ ∃ v, row.value = some v ∧
      ∀ items, v = .arr items → ∀ item, Value.str item ∈ items → PlainItem item

/-- The texts of whole numbers are read back, and are not blank. -/
def ReadsBack (numbers : Numbers) (rt : Runtime) : Prop :=
  ∀ n, n.isInteger = true → numbers.numberOf (rt.numberText n) = n ∧ trim (rt.numberText n) ≠ ""

section

variable {numbers : Numbers} {rt : Runtime} {row : LiveKeyRow}

theorem texts_strings (items : List String) : rt.texts (items.map Value.str) = items := by
  induction items with
  | nil => rfl
  | cons item items ih =>
    rw [List.map_cons, Runtime.texts, ih, Runtime.text]
    exact fun h => by cases h

theorem deepEqualItems_strings {items items' : List String}
    (h : Value.deepEqualItems (items.map Value.str) (items'.map Value.str) = true) : items = items' := by
  induction items generalizing items' with
  | nil =>
    cases items' with
    | nil => rfl
    | cons item' items' => simp [Value.deepEqualItems] at h
  | cons item items ih =>
    cases items' with
    | nil => simp [Value.deepEqualItems] at h
    | cons item' items' =>
      rw [List.map_cons, List.map_cons, Value.deepEqualItems, Bool.and_eq_true, Value.deepEqual] at h
      rw [eq_of_beq h.1, ih h.2]

theorem strings_of_all {p : Value → Bool} (hp : ∀ v, p v = true → ∃ s, v = .str s) {items : List Value}
    (h : items.all p = true) : ∃ texts : List String, items = texts.map Value.str := by
  induction items with
  | nil => exact ⟨[], rfl⟩
  | cons item items ih =>
    rw [List.all_cons, Bool.and_eq_true] at h
    obtain ⟨texts, rfl⟩ := ih h.2
    obtain ⟨s, rfl⟩ := hp item h.1
    exact ⟨s :: texts, rfl⟩

/-- The values that a key that is not secret accepts, by its type. -/
inductive Accepted (definition : KeyDefinition) : Value → Prop where
  | string (htype : definition.type = .string) (s : String) : Accepted definition (.str s)
  | url (htype : definition.type = .url) (s : String) : Accepted definition (.str s)
  | enum (htype : definition.type = .enum) (s : String) (hs : (definition.values.getD []).contains s = true) :
    Accepted definition (.str s)
  | bool (htype : definition.type = .bool) (b : Bool) : Accepted definition (.bool b)
  | int (htype : definition.type = .int) (n : Number) (hn : n.isInteger = true) : Accepted definition (.num n)
  | list (htype : definition.type = .stringList) (items : List String) :
    Accepted definition (.arr (items.map Value.str))

theorem accepted_of_checkType {key : String} {definition : KeyDefinition} {v : Value}
    (h : checkType rt key definition v = none) : Accepted definition v := by
  unfold checkType at h
  split at h
  · rename_i htype
    split at h
    · exact .string htype _
    · cases h
  · rename_i htype
    split at h
    · exact .bool htype _
    · cases h
  · rename_i htype
    split at h
    · split at h
      · cases h
      · rename_i hn
        exact .int htype _ (by simpa using hn)
    · cases h
  · rename_i htype
    dsimp only at h
    split at h
    · split at h
      · exact .enum htype _ ‹_›
      · cases h
    · cases h
  · rename_i htype
    split at h
    · exact .url htype _
    · cases h
  · rename_i htype
    split at h
    · split at h
      · rename_i hall
        obtain ⟨texts, rfl⟩ := strings_of_all (fun v hv => by
          cases v with
          | str s => exact ⟨s, rfl⟩
          | _ => cases hv) hall
        exact .list htype texts
      · cases h
    · cases h

theorem accepted_of_checkValue {key : String} {definition : KeyDefinition} {v : Value}
    (hplain : definition.secret = false) (h : checkValue rt key definition v = none) : Accepted definition v := by
  unfold checkValue at h
  split at h
  · split at h
    · rw [hplain, if_neg Bool.false_ne_true] at h
      cases h
    · exact accepted_of_checkType h
  · cases h
  · exact accepted_of_checkType h

theorem postedValue_secret (h : row.definition.secret = true) : postedValue numbers rt (fun _ => none) row = none := by
  have hsubmitted : submittedRow rt (fun _ => none) row = [""] := by
    show (keyFieldModel rt row).submitted = [""]
    unfold keyFieldModel KeyField.submitted
    simp [h]
  unfold postedValue
  rw [hsubmitted, h]
  rfl

theorem postedValue_unset (h : row.definition.secret = false) (htype : row.definition.type = .bool)
    (hvalue : row.value = none) : postedValue numbers rt (fun _ => none) row = none := by
  have hsubmitted : submittedRow rt (fun _ => none) row = [] := by
    show (keyFieldModel rt row).submitted = []
    unfold keyFieldModel KeyField.submitted
    simp [h, htype, hvalue]
  unfold postedValue
  rw [hsubmitted]
  rfl

theorem postedValue_of_submitted {s : String} {rest : List String} (h : row.definition.secret = false)
    (hsubmitted : (keyFieldModel rt row).submitted = rest ++ [s]) :
    postedValue numbers rt (fun _ => none) row = some (valueOf numbers (some row.definition) s) := by
  have hrow : submittedRow rt (fun _ => none) row = rest ++ [s] := hsubmitted
  unfold postedValue
  rw [hrow, h]
  simp [text, List.getLastD_eq_getLast?]

/-- What an unedited row posts of a value that it accepts. -/
theorem postedValue_accepted {v : Value} (hplain : row.definition.secret = false) (hvalue : row.value = some v)
    (hv : Accepted row.definition v) (hreads : ReadsBack numbers rt) :
    (∀ items, v ≠ .arr items) ∧ postedValue numbers rt (fun _ => none) row = some v ∨
      ∃ items : List String, v = .arr (items.map Value.str) ∧
        postedValue numbers rt (fun _ => none) row =
          some (.arr ((splitItems (", ".intercalate items)).map Value.str)) := by
  cases hv with
  | string htype s =>
    have hsubmitted : (keyFieldModel rt row).submitted = [] ++ [s] := by
      simp [keyFieldModel, KeyField.submitted, hplain, htype, hvalue, formatted, Runtime.text]
    rw [postedValue_of_submitted hplain hsubmitted]
    exact .inl ⟨by simp, by simp [valueOf, htype]⟩
  | url htype s =>
    have hsubmitted : (keyFieldModel rt row).submitted = [] ++ [s] := by
      simp [keyFieldModel, KeyField.submitted, hplain, htype, hvalue, formatted, Runtime.text]
    rw [postedValue_of_submitted hplain hsubmitted]
    exact .inl ⟨by simp, by simp [valueOf, htype]⟩
  | enum htype s hs =>
    have hsubmitted : (keyFieldModel rt row).submitted = [] ++ [s] := by
      unfold keyFieldModel KeyField.submitted
      simp only [hplain, htype, hvalue]
      simpa using fun hnot => (hnot (by simpa using hs)).elim
    rw [postedValue_of_submitted hplain hsubmitted]
    exact .inl ⟨by simp, by simp [valueOf, htype]⟩
  | bool htype b =>
    have hsubmitted : (keyFieldModel rt row).submitted = (if b then ["false"] else []) ++ [if b then "true" else "false"] := by
      cases b <;> simp [keyFieldModel, KeyField.submitted, hplain, htype, hvalue]
    rw [postedValue_of_submitted hplain hsubmitted]
    refine .inl ⟨by simp, ?_⟩
    cases b <;> simp [valueOf, htype]
  | int htype n hn =>
    obtain ⟨hnumber, hblank⟩ := hreads n hn
    have hsubmitted : (keyFieldModel rt row).submitted = [] ++ [rt.numberText n] := by
      simp [keyFieldModel, KeyField.submitted, hplain, htype, hvalue, formatted, Runtime.text]
    rw [postedValue_of_submitted hplain hsubmitted]
    exact .inl ⟨by simp, by simp [valueOf, htype, hblank, hnumber]⟩
  | list htype items =>
    have hsubmitted : (keyFieldModel rt row).submitted = [] ++ [", ".intercalate items] := by
      simp [keyFieldModel, KeyField.submitted, hplain, htype, hvalue, formatted, texts_strings]
    rw [postedValue_of_submitted hplain hsubmitted]
    exact .inr ⟨items, rfl, by simp [valueOf, htype]⟩

theorem submitted_eq_nil {field : KeyField} (h : field.submitted = []) :
    field.control = .bool ∧ field.valueDefined = false := by
  unfold KeyField.submitted at h
  split at h
  · cases h
  · rename_i hcontrol
    refine ⟨hcontrol, ?_⟩
    cases hdefined : field.valueDefined with
    | false => rfl
    | true => simp [hdefined] at h
  · split at h <;> cases h
  · cases h

/-- A row that is not a secret posts something, unless it is a switch that is not set. -/
theorem postedValue_exists (hplain : row.definition.secret = false)
    (hset : ¬ (row.definition.type = .bool ∧ row.value = none)) :
    ∃ v, postedValue numbers rt (fun _ => none) row = some v := by
  rcases List.eq_nil_or_concat (keyFieldModel rt row).submitted with hnil | ⟨rest, s, hs⟩
  · obtain ⟨hcontrol, hdefined⟩ := submitted_eq_nil hnil
    refine (hset ?_).elim
    unfold keyFieldModel at hcontrol hdefined
    rw [hplain] at hcontrol hdefined
    dsimp only at hcontrol hdefined
    rw [if_neg Bool.false_ne_true] at hcontrol hdefined
    refine ⟨?_, Option.isNone_iff_eq_none.1 (by simpa using hdefined)⟩
    split at hcontrol
    · assumption
    · split at hcontrol <;> cases hcontrol
  · rw [List.concat_eq_append] at hs
    exact ⟨_, postedValue_of_submitted hplain hs⟩

/-- Which rows, unedited, do not change what is stored. -/
theorem faithful_iff (hreads : ReadsBack numbers rt)
    (hvalid : ∀ v, row.value = some v → isMetadataKey row.key = false → checkValue rt row.key row.definition v = none) :
    Faithful numbers rt row ↔ GivesBack row := by
  cases hsecret : row.definition.secret with
  | true =>
    refine iff_of_true (fun v hv => ?_) (.inl hsecret)
    rw [postedValue_secret hsecret] at hv
    cases hv
  | false =>
    by_cases hunset : row.definition.type = .bool ∧ row.value = none
    · refine iff_of_true (fun v hv => ?_) (.inr (.inl hunset))
      rw [postedValue_unset hsecret hunset.1 hunset.2] at hv
      cases hv
    · obtain ⟨w, hw⟩ := @postedValue_exists numbers rt row hsecret hunset
      constructor
      · intro h
        obtain ⟨hkey, hsame⟩ := h w hw
        refine .inr (.inr ⟨hkey, ?_⟩)
        cases hvalue : row.value with
        | none =>
          rw [hvalue] at hsame
          rcases hsame with hsame | hsame <;> cases hsame
        | some v =>
          refine ⟨v, rfl, ?_⟩
          rcases postedValue_accepted hsecret hvalue (accepted_of_checkValue hsecret (hvalid v hvalue hkey)) hreads with
            ⟨hno, -⟩ | ⟨items, rfl, hposted⟩
          · exact fun items hitems => (hno items hitems).elim
          · rw [hw, Option.some_inj] at hposted
            subst hposted
            rw [hvalue] at hsame
            have hback : splitItems (", ".intercalate items) = items := by
              rcases hsame with hsame | hsame
              · have harr := Value.arr.inj (Option.some.inj hsame)
                exact List.map_injective_iff.2 (fun _ _ h => Value.str.inj h) harr
              · rw [sameField, Value.deepEqual] at hsame
                exact deepEqualItems_strings hsame
            intro items' harr item hitem
            rw [← Value.arr.inj harr] at hitem
            obtain ⟨s, hs, heq⟩ := List.mem_map.1 hitem
            rw [← Value.str.inj heq]
            exact splitItems_intercalate.1 hback s hs
      · rintro (hcontra | hcontra | ⟨hkey, v, hvalue, hitems⟩)
        · rw [hsecret] at hcontra
          cases hcontra
        · exact (hunset hcontra).elim
        · intro w' hw'
          refine ⟨hkey, ?_⟩
          rcases postedValue_accepted hsecret hvalue (accepted_of_checkValue hsecret (hvalid v hvalue hkey)) hreads with
            ⟨-, hposted⟩ | ⟨items, rfl, hposted⟩
          · rw [hw'] at hposted
            rw [hposted, hvalue]
            exact .refl _
          · have hback : splitItems (", ".intercalate items) = items := splitItems_intercalate.2 fun item hitem =>
              hitems _ rfl item (List.mem_map_of_mem hitem)
            rw [hw', hback] at hposted
            rw [hposted, hvalue]
            exact .refl _

/-! ### What a page posts -/

variable {edited : String → Option (List String)} {definitions : List (String × KeyDefinition)} {page : List LiveKeyRow}

/-- The route finds the key of a row again. -/
theorem changeOf_row (h : definitions.lookup row.key = some row.definition)
    (hsubmitted : (submittedRow rt edited row).isEmpty = false) :
    changeOf numbers definitions ((keyFieldModel rt row).name, submittedRow rt edited row) =
      (postedValue numbers rt edited row).map fun v => (row.key, some v) := by
  have hname : (keyFieldModel rt row).name = "key." ++ row.key := rfl
  have hkey : String.ofList (("key." ++ row.key).toList.drop 4) = row.key := by
    rw [String.toList_append]
    exact String.ofList_toList
  unfold changeOf postedValue
  dsimp only
  rw [hname, if_pos (startsWith_iff.2 ⟨row.key, rfl⟩), hkey, h, Option.any_some, hsubmitted, if_neg Bool.false_ne_true]
  split <;> rfl

theorem changesOf_body (h : ∀ row ∈ page, definitions.lookup row.key = some row.definition) :
    changesOf numbers definitions (submittedBody rt edited page) =
      (posts numbers rt edited page).map fun f => (f.1, some f.2) := by
  induction page with
  | nil => rfl
  | cons row page ih =>
    have ih := ih fun row hrow => h row (List.mem_cons_of_mem _ hrow)
    unfold submittedBody changesOf posts at ih ⊢
    cases hsubmitted : (submittedRow rt edited row).isEmpty with
    | true =>
      have hposted : postedValue numbers rt edited row = none := by
        unfold postedValue
        dsimp only
        rw [hsubmitted, if_pos rfl]
      rw [List.filter_cons, if_neg (by simp [hsubmitted]), List.filterMap_cons, hposted]
      exact ih
    | false =>
      have hchange := @changeOf_row numbers _ _ _ _ (h row List.mem_cons_self) hsubmitted
      rw [List.filter_cons, if_pos (by simp [hsubmitted]), List.map_cons, List.filterMap_cons, hchange,
        List.filterMap_cons]
      cases hposted : postedValue numbers rt edited row with
      | none => exact ih
      | some v => exact List.cons_eq_cons.2 ⟨rfl, ih⟩

theorem mem_posts {key : String} {v : Value} : (key, v) ∈ posts numbers rt edited page ↔
    ∃ row ∈ page, row.key = key ∧ postedValue numbers rt edited row = some v := by
  unfold posts
  rw [List.mem_filterMap]
  constructor
  · rintro ⟨row, hrow, hposted⟩
    obtain ⟨w, hw, heq⟩ := Option.map_eq_some_iff.1 hposted
    cases heq
    exact ⟨row, hrow, rfl, hw⟩
  · rintro ⟨row, hrow, rfl, hposted⟩
    exact ⟨row, hrow, by rw [hposted]; rfl⟩

theorem posts_keys : ((posts numbers rt edited page).map Prod.fst).Sublist (page.map LiveKeyRow.key) := by
  induction page with
  | nil => exact .slnil
  | cons row page ih =>
    unfold posts at ih ⊢
    rw [List.filterMap_cons, List.map_cons]
    cases postedValue numbers rt edited row with
    | none => exact ih.cons _
    | some v => exact ih.cons_cons _

variable {schema : ProductSchema} {stored : Record}

theorem rows_keys : (rows schema stored).map LiveKeyRow.key = schema.definitions.map Prod.fst := by
  unfold rows
  rw [List.map_map]
  rfl

/-- The rows are for the keys of the product, with what is stored of those that are not secret. -/
theorem mem_rows (hn : (schema.definitions.map Prod.fst).Nodup) (h : row ∈ rows schema stored) :
    schema.definitions.lookup row.key = some row.definition ∧
      row.value = if row.definition.secret then none else stored.lookup row.key := by
  obtain ⟨f, hf, rfl⟩ := List.mem_map.1 h
  exact ⟨(lookup_iff_mem hn).2 hf, rfl⟩

end

end ConfigRegistry.Console
