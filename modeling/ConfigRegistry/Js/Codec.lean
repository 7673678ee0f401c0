import ConfigRegistry.Js.Runtime
import ConfigRegistry.Json.Text
import Mathlib.Data.List.TakeWhile

/-!
# Values as JSON texts

JSON is YAML. A runtime that prints values as JSON and reads them back reads back all of them; a
number that JSON has no text for is a mapping under the key U+0000, and keys that begin with that
character get another one.
-/

namespace ConfigRegistry.Js

open Json

/-! ### Whole numbers -/

theorem isDigit_of_mem {n : Nat} {c : Char} (h : c ∈ Nat.toDigits 10 n) : Json.isDigit c = true := by
  have := Nat.isDigit_of_mem_toDigits (by decide) (by decide) h
  simpa [Json.isDigit, Char.isDigit, Char.le_def] using this

/-- Only zero begins with the digit zero. -/
theorem head_toDigits {n : Nat} (h : 0 < n) : (Nat.toDigits 10 n).head? ≠ some '0' := by
  induction n using Nat.strongRecOn with
  | ind n ih =>
    by_cases hn : n < 10
    · rw [Nat.toDigits_of_lt_base hn]
      have hdigits : ∀ n < 10, 0 < n → Nat.digitChar n ≠ '0' := by decide
      simpa using hdigits n hn h
    · rw [Nat.toDigits_of_base_le (by decide) (by omega)]
      have := ih (n / 10) (by omega) (by omega)
      rw [List.head?_append_of_ne_nil _ Nat.toDigits_ne_nil]
      exact this

theorem isUnsigned_toDigits (n : Nat) : isUnsigned (Nat.toDigits 10 n) = true := by
  cases hcs : Nat.toDigits 10 n with
  | nil => exact (Nat.toDigits_ne_nil hcs).elim
  | cons c cs =>
    have hall : ∀ d ∈ c :: cs, Json.isDigit d = true := fun d hd => isDigit_of_mem (n := n) (hcs ▸ hd)
    have hdrop : cs.dropWhile Json.isDigit = [] :=
      List.dropWhile_eq_nil_iff.2 fun d hd => hall d (List.mem_cons_of_mem _ hd)
    by_cases hc : c = '0'
    · have hn : n = 0 := by
        by_contra hne
        exact head_toDigits (Nat.pos_of_ne_zero hne) (by rw [hcs, hc]; rfl)
      rw [hn, Nat.toDigits_zero] at hcs
      obtain ⟨rfl, rfl⟩ := List.cons.inj hcs
      rfl
    · rw [isUnsigned, hdrop, hall c List.mem_cons_self]
      · rfl
      · exact hc

theorem isNumberChar_of_mem {n : Nat} {c : Char} (h : c ∈ Nat.toDigits 10 n) : isNumberChar c = true := by
  simp [isNumberChar, isDigit_of_mem h]

theorem isNumber_of_isUnsigned {cs : List Char} (h : isUnsigned cs = true) : isNumber cs = true := by
  rw [isNumber]
  · exact h
  · rintro _ rfl
    cases h

/-- The text of a whole number. -/
def intChars : Int → List Char
  | .ofNat n => Nat.toDigits 10 n
  | .negSucc n => '-' :: Nat.toDigits 10 (n + 1)

def lexemeOfInt (z : Int) : Lexeme where
  chars := intChars z
  number := by
    cases z with
    | ofNat n => exact isNumber_of_isUnsigned (isUnsigned_toDigits n)
    | negSucc n => exact isUnsigned_toDigits (n + 1)
  closed := by
    rw [List.all_eq_true]
    intro c hc
    cases z with
    | ofNat n => exact isNumberChar_of_mem hc
    | negSucc n =>
      rcases List.mem_cons.1 hc with rfl | hc
      · rfl
      · exact isNumberChar_of_mem hc

/-- The whole number a text is of. -/
def intOfChars : List Char → Int
  | '-' :: cs => -(Nat.ofDigitChars 10 cs 0)
  | cs => Nat.ofDigitChars 10 cs 0

theorem intOfChars_intChars (z : Int) : intOfChars (intChars z) = z := by
  cases z with
  | ofNat n =>
    have hdash : ∀ cs, Nat.toDigits 10 n ≠ '-' :: cs := by
      intro cs hcs
      have := isDigit_of_mem (n := n) (c := '-') (hcs ▸ List.mem_cons_self)
      cases this
    rw [intChars, intOfChars]
    · rw [Nat.ofDigitChars_ten_toDigits]
      rfl
    · exact hdash
  | negSucc n =>
    rw [intChars, intOfChars, Nat.ofDigitChars_ten_toDigits]
    rfl

/-! ### Values -/

def nul : Char := Char.ofNat 0

/-- A key, told from the one that numbers stand under. -/
def keyText (key : String) : List Char :=
  match key.toList with
  | c :: cs => if c = nul then nul :: c :: cs else c :: cs
  | [] => []

def keyOfText : List Char → String
  | c :: d :: cs => if c = nul then String.ofList (d :: cs) else String.ofList (c :: d :: cs)
  | cs => String.ofList cs

def numberDoc : Number → Doc
  | .fin q =>
    if q.den = 1 then .num (lexemeOfInt q.num)
    else .obj [([nul], .arr [.num (lexemeOfInt q.num), .num (lexemeOfInt q.den)])]
  | .inf negative => .obj [([nul], .bool negative)]
  | .nan => .obj [([nul], .null)]

/-- The number that stands under U+0000. -/
def numberOfDoc : Doc → Number
  | .arr [.num p, .num q] => .fin (mkRat (intOfChars p.chars) (intOfChars q.chars).toNat)
  | .bool negative => .inf negative
  | _ => .nan

mutual

def docOf : Value → Doc
  | .null => .null
  | .bool b => .bool b
  | .num n => numberDoc n
  | .str s => .str s.toList
  | .arr items => .arr (docsOf items)
  | .obj fields => .obj (membersOf fields)

def docsOf : List Value → List Doc
  | [] => []
  | v :: vs => docOf v :: docsOf vs

def membersOf : List (String × Value) → List (List Char × Doc)
  | [] => []
  | (key, v) :: fields => (keyText key, docOf v) :: membersOf fields

end

mutual

def valueOf : Doc → Value
  | .null => .null
  | .bool b => .bool b
  | .num n => .num (.fin (intOfChars n.chars))
  | .str s => .str (String.ofList s)
  | .arr items => .arr (valuesOf items)
  | .obj members =>
    match members with
    | [([c], tag)] => if c = nul then .num (numberOfDoc tag) else .obj (fieldsOf members)
    | _ => .obj (fieldsOf members)

def valuesOf : List Doc → List Value
  | [] => []
  | v :: vs => valueOf v :: valuesOf vs

def fieldsOf : List (List Char × Doc) → List (String × Value)
  | [] => []
  | (key, v) :: members => (keyOfText key, valueOf v) :: fieldsOf members

end

theorem keyOfText_keyText (key : String) : keyOfText (keyText key) = key := by
  apply String.toList_inj.1
  rw [keyText]
  cases hkey : key.toList with
  | nil => simp [keyOfText]
  | cons c cs =>
    dsimp only
    by_cases hc : c = nul
    · rw [if_pos hc, keyOfText, if_pos rfl, String.toList_ofList]
    · rw [if_neg hc]
      cases cs with
      | nil => simp [keyOfText]
      | cons d cs => rw [keyOfText, if_neg hc, String.toList_ofList]

theorem keyText_ne (key : String) : keyText key ≠ [nul] := by
  rw [keyText]
  cases key.toList with
  | nil => exact nofun
  | cons c cs =>
    dsimp only
    split
    · simp
    · rename_i hc
      intro h
      exact hc (List.cons.inj h).1

theorem valueOf_numberDoc (n : Number) : valueOf (numberDoc n) = .num n := by
  cases n with
  | fin q =>
    rw [numberDoc]
    split
    · rename_i hden
      rw [valueOf]
      simp only [lexemeOfInt, intOfChars_intChars]
      have : (q.num : Rat) = q := (Rat.den_eq_one_iff q).1 hden
      rw [this]
    · rw [valueOf]
      simp only [if_true, numberOfDoc, lexemeOfInt, intOfChars_intChars, Int.toNat_natCast,
        Rat.mkRat_self]
  | inf negative => simp [numberDoc, valueOf, numberOfDoc]
  | nan => simp [numberDoc, valueOf, numberOfDoc]

mutual

theorem valueOf_docOf (v : Value) : valueOf (docOf v) = v := by
  cases v with
  | null => rfl
  | bool b => rfl
  | num n => exact valueOf_numberDoc n
  | str s =>
    rw [docOf, valueOf, String.ofList_toList]
  | arr items => rw [docOf, valueOf, valuesOf_docsOf items]
  | obj fields =>
    have hfields := fieldsOf_membersOf fields
    rw [docOf, valueOf.eq_def]
    dsimp only
    split
    · rename_i c tag hmembers
      have hc : c ≠ nul := by
        cases fields with
        | nil => cases hmembers
        | cons f fields =>
          rintro rfl
          exact keyText_ne f.1 (Prod.mk.inj (List.cons.inj hmembers).1).1
      rw [if_neg hc, hfields]
    · rw [hfields]
termination_by structural v

theorem valuesOf_docsOf (vs : List Value) : valuesOf (docsOf vs) = vs := by
  cases vs with
  | nil => rfl
  | cons v vs => rw [docsOf, valuesOf, valueOf_docOf v, valuesOf_docsOf vs]
termination_by structural vs

theorem fieldsOf_membersOf (fields : List (String × Value)) : fieldsOf (membersOf fields) = fields := by
  cases fields with
  | nil => rfl
  | cons f fields =>
    obtain ⟨key, v⟩ := f
    rw [membersOf, fieldsOf, keyOfText_keyText, valueOf_docOf v, fieldsOf_membersOf fields]
termination_by structural fields

end

/-! ### A runtime -/

/-- JSON in place of YAML; the service's other needs are met by what is simplest. -/
def jsonRuntime : Runtime where
  parseYaml source :=
    match parse source.toList with
    | some doc => .ok (valueOf doc)
    | none => .error (.of "invalid document")
  stringifyYaml v := String.ofList (render (docOf v))
  urlProtocol _ := none
  numberText n :=
    match n with
    | .fin q => String.ofList (intChars q.num)
    | _ => "NaN"

theorem parse_stringify (v : Value) : jsonRuntime.parseYaml (jsonRuntime.stringifyYaml v) = .ok v := by
  simp only [jsonRuntime, String.toList_ofList, parse_render, valueOf_docOf]

end ConfigRegistry.Js
