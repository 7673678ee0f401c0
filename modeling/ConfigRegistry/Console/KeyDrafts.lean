import ConfigRegistry.Console.ProductForm
import Mathlib.Logic.Function.Basic
import Std.Data.String.ToNat

/-!
# The rows that keys are drafted in

`src/routes/product-form.ts`, the `key-draft` partial, and what a browser without scripts posts of it. A page that
refuses a draft, or is asked for another row, is rendered from what was posted.
-/

namespace ConfigRegistry.Console

open Js Schema

/-! ### Reading a posted form -/

/-- A posted row: the texts of the fields that were posted of it. -/
abbrev DraftRow : Type := String → Option String

def DraftRow.empty : DraftRow := fun _ => none

def DraftRow.set (row : DraftRow) (field : String × String) : DraftRow := Function.update row field.1 (some field.2)

/-- `row.field ?? ''`. -/
def DraftRow.text (row : DraftRow) (field : String) : String := (row field).getD ""

/-- `\w`. -/
def isWordChar (c : Char) : Bool := c.isAlphanum || c == '_'

/-- `/^key\.(\d+)\.(\w+)$/`. -/
def keyField (field : String) : Option (String × String) :=
  match field.toList with
  | 'k' :: 'e' :: 'y' :: '.' :: rest =>
    match rest.dropWhile Char.isDigit with
    | '.' :: word =>
      if (rest.takeWhile Char.isDigit).isEmpty || word.isEmpty || !word.all isWordChar then none
      else some (String.ofList (rest.takeWhile Char.isDigit), String.ofList word)
    | _ => none
  | _ => none

/-- The field of a row of a map, whose keys keep the order they came in. -/
def putField (index : Number) (field : String × String) : List (Number × DraftRow) → List (Number × DraftRow)
  | [] => [(index, DraftRow.empty.set field)]
  | (i, row) :: rows => if i = index then (i, row.set field) :: rows else (i, row) :: putField index field rows

section

variable (numbers : Numbers)

def collectField (rows : List (Number × DraftRow)) (entry : String × List String) : List (Number × DraftRow) :=
  match keyField entry.1 with
  | some (index, field) => putField (numbers.numberOf index) (field, entry.2.headD "undefined") rows
  | none => rows

/-- `allKeyBodies`. -/
def allKeyBodies (body : List (String × List String)) : List DraftRow :=
  ((body.foldl (collectField numbers) []).mergeSort fun a b => !b.1.lt a.1).map Prod.snd

/-- `keyBodies`. -/
def keyBodies (body : List (String × List String)) : List DraftRow :=
  (allKeyBodies numbers body).filter fun row => trim (row.text "name") != ""

/-- `parseDefault`. -/
def parseDefault (type raw : String) : Value :=
  if type = "int" then
    match numbers.numberOf raw with
    | .fin q => .num (.fin q)
    | _ => .str raw
  else if type = "bool" then if raw = "true" then .bool true else if raw = "false" then .bool false else .str raw
  else if type = "string[]" then .arr ((raw.toList.splitOn ',').map fun piece => .str (trim (String.ofList piece)))
  else .str raw

/-- `Number(row.min)`, where there is one. -/
def boundOf (text : String) : Option Value := if text = "" then none else some (.num (numbers.numberOf text))

/-- What a row is taken for. -/
def draftOf (row : DraftRow) : KeyDraft :=
  let type := (row "type").getD "string"
  let raw := trim (row.text "default")
  if type = "bool" then
    { name := trim (row.text "name"), type, secret := false, values := [], description := row.text "description"
      default := some (if row "defaultBool" = some "true" then .bool true else .null) }
  else
    { name := trim (row.text "name"), type, secret := row "secret" = some "1"
      values := splitItems (row.text "values"), description := row.text "description"
      min := boundOf numbers (row.text "min"), max := boundOf numbers (row.text "max")
      default := some (if raw = "" then .null else parseDefault numbers type raw) }

/-- `keyDrafts`. -/
def keyDrafts (body : List (String × List String)) : List KeyDraft := (keyBodies numbers body).map (draftOf numbers)

end

/-! ### The page -/

/-- `KEY_DRAFT_TYPES`. -/
def keyDraftTypes : List String := ["string", "int", "bool", "url", "string[]"]

structure KeyDraftModel where
  index : Nat
  name : String
  type : String
  secret : Bool
  values : String
  min : String
  max : String
  default : String
  defaultBool : String
  description : String

def modelOf (index : Nat) (row : DraftRow) : KeyDraftModel where
  index
  name := row.text "name"
  type := row.text "type"
  secret := row.text "secret" != ""
  values := row.text "values"
  min := row.text "min"
  max := row.text "max"
  default := row.text "default"
  defaultBool := row.text "defaultBool"
  description := row.text "description"

/-- `keyDraftModels`, of which the page shows at least one. -/
def keyDraftModels (rows : List DraftRow) : List KeyDraftModel :=
  (if rows.isEmpty then [DraftRow.empty] else rows).mapIdx modelOf

/-! ### The browser -/

/-- What the inputs of a row hold. -/
structure DraftInputs where
  name : String
  type : String
  secret : Bool
  values : String
  min : String
  max : String
  default : String
  defaultBool : Bool
  description : String
deriving DecidableEq

/-- An input of one line has no line breaks. -/
def oneLine (text : String) : String := String.ofList (text.toList.filter fun c => c != '\n' && c != '\r')

/-- An input of numbers holds a number or nothing. -/
def numberInput (isNumber : String → Bool) (text : String) : String := if isNumber text then text else ""

section

variable (isNumber : String → Bool)

/-- The inputs of a row as it is rendered. An option that is not marked is selected where it is the first. -/
def KeyDraftModel.inputs (m : KeyDraftModel) : DraftInputs where
  name := oneLine m.name
  type := if keyDraftTypes.contains m.type then m.type else "string"
  secret := m.secret
  values := oneLine m.values
  min := numberInput isNumber m.min
  max := numberInput isNumber m.max
  default := oneLine m.default
  defaultBool := m.defaultBool == "true"
  description := oneLine m.description

/-- What an operator can have made of the inputs. -/
structure DraftInputs.Possible (r : DraftInputs) : Prop where
  name : oneLine r.name = r.name
  type : r.type ∈ keyDraftTypes
  values : oneLine r.values = r.values
  min : numberInput isNumber r.min = r.min
  max : numberInput isNumber r.max = r.max
  default : oneLine r.default = r.default
  description : oneLine r.description = r.description

end

/-- The fields of a row that are posted: a box that is not ticked is not. -/
def DraftInputs.fields (r : DraftInputs) : List (String × String) :=
  [("name", r.name), ("type", r.type)] ++ (if r.secret then [("secret", "1")] else []) ++
    [("values", r.values), ("min", r.min), ("max", r.max), ("default", r.default)] ++
    (if r.defaultBool then [("defaultBool", "true")] else []) ++ [("description", r.description)]

/-- The names of the fields that a row can have. -/
def fieldNames : List String :=
  ["name", "type", "secret", "values", "min", "max", "default", "defaultBool", "description"]

def fieldName (index : Nat) (field : String) : String := "key." ++ toString index ++ "." ++ field

/-- The fields of the rows from an index on. -/
def posted (index : Nat) : List DraftInputs → List (String × List String)
  | [] => []
  | r :: rows => (r.fields.map fun f => (fieldName index f.1, [f.2])) ++ posted (index + 1) rows

/-- What is posted of these rows among the other fields of the form. -/
def Posts (body : List (String × List String)) (rows : List DraftInputs) : Prop :=
  body.filter (fun entry => (keyField entry.1).isSome) = posted 0 rows

/-- The row that a posted row is read to. -/
def DraftInputs.row (r : DraftInputs) : DraftRow := r.fields.foldl DraftRow.set DraftRow.empty

/-- A row that was added and not filled in. -/
def blankInputs : DraftInputs := ⟨"", "string", false, "", "", "", "", false, ""⟩

variable {numbers : Numbers} {isNumber : String → Bool} {r : DraftInputs} {rows : List DraftInputs}
  {body body' : List (String × List String)}

/-! ### What is read of what was posted -/

theorem isDigit_of_mem_toString {n : Nat} {c : Char} (h : c ∈ (toString n).toList) : c.isDigit = true := by
  have hdigits : c ∈ Nat.toDigits 10 n := by simpa using h
  exact Nat.isDigit_of_mem_toDigits (by decide) (by decide) hdigits

theorem keyField_fieldName (index : Nat) {field : String} (hne : field ≠ "")
    (hword : field.toList.all isWordChar = true) : keyField (fieldName index field) = some (toString index, field) := by
  have hlist : (fieldName index field).toList =
      'k' :: 'e' :: 'y' :: '.' :: ((toString index).toList ++ '.' :: field.toList) := by
    simp [fieldName]
  have hdigits : ∀ c ∈ (toString index).toList, c.isDigit = true := fun c => isDigit_of_mem_toString
  have htake : ((toString index).toList ++ '.' :: field.toList).takeWhile Char.isDigit = (toString index).toList := by
    rw [List.takeWhile_append_of_pos hdigits, List.takeWhile_cons_of_neg (by decide), List.append_nil]
  have hdrop : ((toString index).toList ++ '.' :: field.toList).dropWhile Char.isDigit = '.' :: field.toList := by
    rw [List.dropWhile_append_of_pos hdigits, List.dropWhile_cons_of_neg (by decide)]
  have hsome : (toString index).toList.isEmpty = false := by
    rw [List.isEmpty_eq_false_iff]
    simp
  have hfield : field.toList.isEmpty = false := by
    rw [List.isEmpty_eq_false_iff]
    exact fun hnil => hne (String.toList_injective hnil)
  unfold keyField
  rw [hlist]
  simp only [hdrop, htake, hsome, hfield, hword, String.ofList_toList]
  rfl

/-- The name of a field of the page is a word. -/
theorem words_of_fields {f : String × String} (h : f ∈ r.fields) :
    f.1 ≠ "" ∧ f.1.toList.all isWordChar = true := by
  have hnames : f.1 ∈ fieldNames := by
    have hmap : r.fields.map Prod.fst ⊆ fieldNames := by
      unfold DraftInputs.fields fieldNames
      cases r.secret <;> cases r.defaultBool <;> simp
    exact hmap (List.mem_map_of_mem h)
  have hall : ∀ name ∈ fieldNames, name ≠ "" ∧ name.toList.all isWordChar = true := by decide
  exact hall _ hnames

theorem putField_new {index : Number} {field : String × String} {before : List (Number × DraftRow)}
    (h : index ∉ before.map Prod.fst) :
    putField index field before = before ++ [(index, DraftRow.empty.set field)] := by
  induction before with
  | nil => rfl
  | cons e before ih =>
    obtain ⟨i, row⟩ := e
    rw [List.map_cons, List.mem_cons, not_or] at h
    rw [putField, if_neg (Ne.symm h.1), ih h.2, List.cons_append]

theorem putField_last {index : Number} {field : String × String} {before : List (Number × DraftRow)} {row : DraftRow}
    (h : index ∉ before.map Prod.fst) :
    putField index field (before ++ [(index, row)]) = before ++ [(index, row.set field)] := by
  induction before with
  | nil => exact if_pos rfl
  | cons e before ih =>
    obtain ⟨i, row'⟩ := e
    rw [List.map_cons, List.mem_cons, not_or] at h
    rw [List.cons_append, putField, if_neg (Ne.symm h.1), ih h.2, List.cons_append]

/-- The index of a row is printed and read. -/
def Indexed (numbers : Numbers) : Prop := ∀ n ≤ maxSafeInteger, numbers.numberOf (toString n) = .fin n

theorem collectField_fieldName (hindexed : Indexed numbers) {index : Nat} (hindex : index ≤ maxSafeInteger)
    {field : String × String} (hword : field.1 ≠ "" ∧ field.1.toList.all isWordChar = true)
    (before : List (Number × DraftRow)) :
    collectField numbers before (fieldName index field.1, [field.2]) = putField (.fin index) field before := by
  rw [collectField, keyField_fieldName index hword.1 hword.2]
  simp only [hindexed index hindex, List.headD_cons]

theorem collect_fields (hindexed : Indexed numbers) {index : Nat} (hindex : index ≤ maxSafeInteger)
    {before : List (Number × DraftRow)} (hnew : Number.fin index ∉ before.map Prod.fst)
    {fields : List (String × String)} (hwords : ∀ f ∈ fields, f.1 ≠ "" ∧ f.1.toList.all isWordChar = true)
    (row : DraftRow) :
    (fields.map fun f => (fieldName index f.1, [f.2])).foldl (collectField numbers) (before ++ [(.fin index, row)]) =
      before ++ [(.fin index, fields.foldl DraftRow.set row)] := by
  induction fields generalizing row with
  | nil => rfl
  | cons f fields ih =>
    have hword := hwords f (List.mem_cons_self ..)
    rw [List.map_cons, List.foldl_cons, collectField_fieldName hindexed hindex hword, putField_last hnew,
      ih fun g hg => hwords g (List.mem_cons_of_mem _ hg), List.foldl_cons]

/-- The rows as they are collected, from an index on. -/
def indexedRows (index : Nat) : List DraftInputs → List (Number × DraftRow)
  | [] => []
  | r :: rows => (.fin index, r.row) :: indexedRows (index + 1) rows

theorem collect_posted (hindexed : Indexed numbers) (rows : List DraftInputs) {index : Nat}
    (hindex : index + rows.length ≤ maxSafeInteger) {before : List (Number × DraftRow)}
    (hbefore : ∀ e ∈ before, ∃ i : Nat, i < index ∧ e.1 = .fin i) :
    (posted index rows).foldl (collectField numbers) before = before ++ indexedRows index rows := by
  induction rows generalizing index before with
  | nil => simp [posted, indexedRows]
  | cons r rows ih =>
    rw [List.length_cons] at hindex
    have hnew : Number.fin index ∉ before.map Prod.fst := by
      intro hmem
      obtain ⟨e, he, heq⟩ := List.mem_map.1 hmem
      obtain ⟨i, hi, hfin⟩ := hbefore e he
      rw [hfin, Number.fin.injEq, Nat.cast_inj] at heq
      omega
    have hrow : (r.fields.map fun f => (fieldName index f.1, [f.2])).foldl (collectField numbers) before =
        before ++ [(.fin index, r.row)] := by
      have hcons : r.fields = ("name", r.name) :: r.fields.tail := rfl
      have hmem : ("name", r.name) ∈ r.fields := List.mem_cons_self ..
      rw [DraftInputs.row, hcons, List.map_cons, List.foldl_cons, List.foldl_cons,
        collectField_fieldName hindexed (by omega) (words_of_fields hmem), putField_new hnew]
      exact collect_fields hindexed (by omega) hnew (fun f hf => words_of_fields (List.mem_of_mem_tail hf)) _
    rw [posted, List.foldl_append, hrow, ih (by omega) ?_, indexedRows, List.append_assoc, List.singleton_append]
    intro e he
    rcases List.mem_append.1 he with he | he
    · obtain ⟨i, hi, hfin⟩ := hbefore e he
      exact ⟨i, by omega, hfin⟩
    · rw [List.mem_singleton.1 he]
      exact ⟨index, by omega, rfl⟩

/-- Fields of the form that are no key's do not matter. -/
theorem collect_filter (before : List (Number × DraftRow)) (body : List (String × List String)) :
    body.foldl (collectField numbers) before =
      (body.filter fun entry => (keyField entry.1).isSome).foldl (collectField numbers) before := by
  induction body generalizing before with
  | nil => rfl
  | cons entry body ih =>
    rw [List.foldl_cons, List.filter_cons]
    split
    · rw [List.foldl_cons, ih]
    · rename_i hnone
      rw [Option.not_isSome_iff_eq_none] at hnone
      rw [ih, collectField, hnone]

theorem indexedRows_above (rows : List DraftInputs) {index : Nat} {e : Number × DraftRow}
    (he : e ∈ indexedRows index rows) : ∃ i : Nat, index ≤ i ∧ e.1 = .fin i := by
  induction rows generalizing index with
  | nil => cases he
  | cons r rows ih =>
    rcases List.mem_cons.1 he with rfl | he
    · exact ⟨index, Nat.le_refl _, rfl⟩
    · obtain ⟨i, hi, hfin⟩ := ih he
      exact ⟨i, by omega, hfin⟩

theorem indexedRows_sorted (rows : List DraftInputs) (index : Nat) :
    (indexedRows index rows).Pairwise fun a b => (!b.1.lt a.1) = true := by
  induction rows generalizing index with
  | nil => exact List.Pairwise.nil
  | cons r rows ih =>
    refine List.Pairwise.cons (fun e he => ?_) (ih _)
    obtain ⟨i, hi, hfin⟩ := indexedRows_above rows he
    have hnot : ¬ (i : Rat) < index := by
      rw [Nat.cast_lt]
      omega
    rw [hfin]
    simp [Number.lt, hnot]

theorem map_indexedRows (rows : List DraftInputs) (index : Nat) :
    (indexedRows index rows).map Prod.snd = rows.map DraftInputs.row := by
  induction rows generalizing index with
  | nil => rfl
  | cons r rows ih => rw [indexedRows, List.map_cons, List.map_cons, ih]

theorem keyField_of_mem_posted {index : Nat} {entry : String × List String} (h : entry ∈ posted index rows) :
    (keyField entry.1).isSome = true := by
  induction rows generalizing index with
  | nil => cases h
  | cons r rows ih =>
    rcases List.mem_append.1 h with h | h
    · obtain ⟨f, hf, rfl⟩ := List.mem_map.1 h
      obtain ⟨hne, hword⟩ := words_of_fields hf
      rw [keyField_fieldName index hne hword]
      rfl
    · exact ih h

/-- A form with other fields before its rows. -/
theorem posts_append {others : List (String × List String)} (hothers : ∀ entry ∈ others, keyField entry.1 = none)
    (rows : List DraftInputs) : Posts (others ++ posted 0 rows) rows := by
  have hnone : others.filter (fun entry => (keyField entry.1).isSome) = [] := by
    rw [List.filter_eq_nil_iff]
    intro entry hentry
    simp [hothers entry hentry]
  rw [Posts, List.filter_append, hnone, List.nil_append]
  exact List.filter_eq_self.2 fun entry hentry => keyField_of_mem_posted hentry

/-- The rows of a page that was posted are read as they were, whatever else the form has. -/
theorem allKeyBodies_of_posts (hindexed : Indexed numbers) (hcount : rows.length ≤ maxSafeInteger)
    (hposts : Posts body rows) : allKeyBodies numbers body = rows.map DraftInputs.row := by
  have hcollect : body.foldl (collectField numbers) [] = indexedRows 0 rows := by
    rw [collect_filter, hposts, collect_posted hindexed rows (by omega) (by simp), List.nil_append]
  rw [allKeyBodies, hcollect, List.mergeSort_of_pairwise (indexedRows_sorted rows 0), map_indexedRows]

/-! ### The page that comes back -/

theorem row_apply (r : DraftInputs) :
    r.row "name" = some r.name ∧ r.row "type" = some r.type ∧ r.row "values" = some r.values ∧
      r.row "min" = some r.min ∧ r.row "max" = some r.max ∧ r.row "default" = some r.default ∧
      r.row "description" = some r.description ∧ r.row "secret" = (if r.secret then some "1" else none) ∧
      r.row "defaultBool" = if r.defaultBool then some "true" else none := by
  unfold DraftInputs.row DraftInputs.fields
  cases r.secret <;> cases r.defaultBool <;> simp [DraftRow.set, DraftRow.empty]

theorem oneLine_oneLine (text : String) : oneLine (oneLine text) = oneLine text := by
  simp [oneLine]

theorem numberInput_numberInput (text : String) :
    numberInput isNumber (numberInput isNumber text) = numberInput isNumber text := by
  unfold numberInput
  by_cases h : isNumber text = true <;> simp [h]

/-- What a page shows is always something that an operator can have made of it. -/
theorem inputs_possible (m : KeyDraftModel) : (m.inputs isNumber).Possible isNumber where
  name := oneLine_oneLine _
  type := by
    simp only [KeyDraftModel.inputs]
    split
    · rename_i h
      exact List.contains_iff_mem.1 h
    · exact List.mem_cons_self ..
  values := oneLine_oneLine _
  min := numberInput_numberInput _
  max := numberInput_numberInput _
  default := oneLine_oneLine _
  description := oneLine_oneLine _

/-- A row that comes back holds what was typed into it. -/
theorem inputs_of_row (h : r.Possible isNumber) (index : Nat) : (modelOf index r.row).inputs isNumber = r := by
  obtain ⟨hname, htype, hvalues, hmin, hmax, hdefault, hdescription, hsecret, hbool⟩ := row_apply r
  have hcontains : keyDraftTypes.contains r.type = true := List.contains_iff_mem.2 h.type
  simp only [KeyDraftModel.inputs, modelOf, DraftRow.text, hname, htype, hvalues, hmin, hmax, hdefault, hdescription,
    hsecret, hbool, Option.getD_some, h.name, h.values, h.min, h.max, h.default, h.description, hcontains, if_true]
  have hticked : ((if r.secret then some "1" else none).getD "" != "") = r.secret := by cases r.secret <;> rfl
  have hset : ((if r.defaultBool then some "true" else none).getD "" == "true") = r.defaultBool := by
    cases r.defaultBool <;> rfl
  rw [hticked, hset]

theorem inputs_of_empty (index : Nat) : (modelOf index DraftRow.empty).inputs isNumber = blankInputs := by
  have hnumber : numberInput isNumber "" = "" := by simp [numberInput]
  simp only [KeyDraftModel.inputs, modelOf, DraftRow.text, DraftRow.empty, Option.getD_none, hnumber]
  rfl

/-- The inputs of the page that is rendered from rows that were read. -/
def pageInputs (isNumber : String → Bool) (rows : List DraftRow) : List DraftInputs :=
  (keyDraftModels rows).map (KeyDraftModel.inputs isNumber)

theorem pageInputs_of_ne_nil {rows : List DraftRow} (h : rows ≠ []) :
    pageInputs isNumber rows = rows.map fun row => (modelOf 0 row).inputs isNumber := by
  have hempty : rows.isEmpty = false := List.isEmpty_eq_false_iff.2 h
  rw [pageInputs, keyDraftModels, hempty]
  exact List.ext_getElem (by simp) fun i hi hi' => by simp [KeyDraftModel.inputs, modelOf]

theorem pageInputs_eq (hpossible : ∀ r ∈ rows, r.Possible isNumber) (added : Nat) :
    ∃ n, n ≤ added + 1 ∧ pageInputs isNumber (rows.map DraftInputs.row ++ List.replicate added DraftRow.empty) =
      rows ++ List.replicate n blankInputs := by
  have hrows : (rows.map DraftInputs.row).map (fun row => (modelOf 0 row).inputs isNumber) = rows := by
    rw [List.map_map]
    exact (List.map_congr_left fun r hr => inputs_of_row (hpossible r hr) 0).trans (List.map_id rows)
  by_cases hnone : rows.map DraftInputs.row ++ List.replicate added DraftRow.empty = []
  · obtain ⟨hnil, hadded⟩ := List.append_eq_nil_iff.1 hnone
    rw [hnone, List.map_eq_nil_iff.1 hnil]
    refine ⟨1, by omega, ?_⟩
    show [(modelOf 0 DraftRow.empty).inputs isNumber] = _
    rw [inputs_of_empty]
    rfl
  · refine ⟨added, by omega, ?_⟩
    rw [pageInputs_of_ne_nil hnone, List.map_append, hrows, List.map_replicate, inputs_of_empty]

theorem keyDrafts_of_posts (hindexed : Indexed numbers) {n : Nat} (hcount : rows.length + n ≤ maxSafeInteger)
    (hposts : Posts body (rows ++ List.replicate n blankInputs)) :
    keyDrafts numbers body =
      ((rows.map DraftInputs.row).filter fun row => trim (row.text "name") != "").map (draftOf numbers) := by
  have hblank : trim (blankInputs.row.text "name") = "" := by decide
  rw [keyDrafts, keyBodies, allKeyBodies_of_posts hindexed (by simpa using hcount) hposts, List.map_append,
    List.filter_append, List.map_replicate, List.filter_replicate]
  simp [hblank]

/-- A page that comes back, with rows added or not, shows every row as it was typed, and posted again it drafts what it
drafted before. -/
theorem page_keeps_drafts (hindexed : Indexed numbers) (hpossible : ∀ r ∈ rows, r.Possible isNumber)
    (hposts : Posts body rows) (added : Nat) (hcount : rows.length + added < maxSafeInteger) :
    let page := pageInputs isNumber (allKeyBodies numbers body ++ List.replicate added DraftRow.empty)
    (∃ n, page = rows ++ List.replicate n blankInputs) ∧
      ∀ body', Posts body' page → keyDrafts numbers body' = keyDrafts numbers body := by
  intro page
  have hbodies : allKeyBodies numbers body = rows.map DraftInputs.row :=
    allKeyBodies_of_posts hindexed (by omega) hposts
  obtain ⟨n, hn, hpage⟩ := pageInputs_eq hpossible added
  have hshown : page = rows ++ List.replicate n blankInputs := by
    show pageInputs isNumber (allKeyBodies numbers body ++ List.replicate added DraftRow.empty) = _
    rw [hbodies, hpage]
  refine ⟨⟨n, hshown⟩, fun body' hposts' => ?_⟩
  rw [hshown] at hposts'
  have hbody : Posts body (rows ++ List.replicate 0 blankInputs) := by
    rwa [List.replicate_zero, List.append_nil]
  rw [keyDrafts_of_posts hindexed (by omega) hposts', keyDrafts_of_posts hindexed (by omega) hbody]

/-- Numbers that are written in digits. -/
def naturals : Numbers where
  numberOf raw := (raw.toNat?).elim .nan fun n => .fin n

theorem indexed_naturals : Indexed naturals := fun n _ => by
  show ((toString n).toNat?).elim Number.nan _ = _
  rw [Nat.toString_eq_repr, Nat.toNat?_repr]
  rfl

/-- A number with a bound, and a text. -/
def typedRows : List DraftInputs :=
  [⟨"SESSION_TTL", "int", false, "", "60", "", "900", false, "seconds"⟩,
    ⟨"", "url", false, "", "", "", "", false, ""⟩]

def allDigits (text : String) : Bool := text.toList.all Char.isDigit

theorem typedRows_possible : ∀ r ∈ typedRows, r.Possible allDigits := by
  rw [typedRows, List.forall_mem_cons, List.forall_mem_cons]
  refine ⟨?_, ?_, by simp⟩ <;> constructor <;> decide

/-- Another row is asked for. -/
theorem page_keeps_drafts_typed : ∃ n,
    pageInputs allDigits (allKeyBodies naturals ([("etag", ["7"])] ++ posted 0 typedRows) ++ [DraftRow.empty]) =
      typedRows ++ List.replicate n blankInputs :=
  (page_keeps_drafts indexed_naturals typedRows_possible (posts_append (by decide) typedRows) 1 (by decide)).1

end ConfigRegistry.Console
