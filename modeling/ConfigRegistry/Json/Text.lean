import Mathlib.Data.List.Basic
import Mathlib.Data.Nat.Digits.Defs

/-!
# JSON texts

`JSON.stringify` and `JSON.parse` on documents. A number is kept as its lexeme, so that a text is
accepted exactly when `JSON.parse` accepts it and nothing is said about floating point; a string is
a sequence of Unicode scalar values, and an escaped surrogate without its pair reads as U+FFFD.
Parsing what was printed gives back the document (`parse_render`).
-/

namespace ConfigRegistry.Json

/-- `[0-9]`. -/
def isDigit (c : Char) : Bool := '0' ≤ c && c ≤ '9'

/-- What follows the digits before the point: `(\.[0-9]+)?([eE][+-]?[0-9]+)?`. -/
def isExponent : List Char → Bool
  | [] => true
  | c :: cs => (c == 'e' || c == 'E') &&
    match cs with
    | '+' :: ds | '-' :: ds => !ds.isEmpty && ds.all isDigit
    | ds => !ds.isEmpty && ds.all isDigit

def isFraction : List Char → Bool
  | '.' :: cs => !(cs.takeWhile isDigit).isEmpty && isExponent (cs.dropWhile isDigit)
  | cs => isExponent cs

/-- An unsigned number: no leading zero. -/
def isUnsigned : List Char → Bool
  | '0' :: cs => isFraction cs
  | c :: cs => isDigit c && isFraction (cs.dropWhile isDigit)
  | [] => false

/-- `-?(0|[1-9][0-9]*)(\.[0-9]+)?([eE][+-]?[0-9]+)?`. -/
def isNumber : List Char → Bool
  | '-' :: cs => isUnsigned cs
  | cs => isUnsigned cs

/-- The characters numbers are made of. -/
def isNumberChar (c : Char) : Bool :=
  isDigit c || c == '-' || c == '+' || c == '.' || c == 'e' || c == 'E'

/-- The text of a number. -/
structure Lexeme where
  chars : List Char
  number : isNumber chars = true
  closed : chars.all isNumberChar = true
deriving DecidableEq

/-- A document. The members of an object are in the order of the text. -/
inductive Doc where
  | null
  | bool (b : Bool)
  | num (n : Lexeme)
  | str (s : List Char)
  | arr (items : List Doc)
  | obj (members : List (List Char × Doc))

/-! ### Printing -/

def hexDigit (n : Nat) : Char :=
  if n < 10 then Char.ofNat ('0'.toNat + n) else Char.ofNat ('a'.toNat + (n - 10))

/-- The escape of one character of a string. -/
def escapeChar (c : Char) : List Char :=
  if c = '"' then ['\\', '"']
  else if c = '\\' then ['\\', '\\']
  else if c.toNat = 8 then ['\\', 'b']
  else if c.toNat = 9 then ['\\', 't']
  else if c.toNat = 10 then ['\\', 'n']
  else if c.toNat = 12 then ['\\', 'f']
  else if c.toNat = 13 then ['\\', 'r']
  else if c.toNat < 32 then ['\\', 'u', '0', '0', hexDigit (c.toNat / 16), hexDigit (c.toNat % 16)]
  else [c]

def renderString (s : List Char) : List Char := '"' :: (s.flatMap escapeChar ++ ['"'])

mutual

/-- `JSON.stringify`. -/
def render : Doc → List Char
  | .null => ['n', 'u', 'l', 'l']
  | .bool true => ['t', 'r', 'u', 'e']
  | .bool false => ['f', 'a', 'l', 's', 'e']
  | .num n => n.chars
  | .str s => renderString s
  | .arr [] => ['[', ']']
  | .arr (v :: vs) => '[' :: (render v ++ renderItems vs)
  | .obj [] => ['{', '}']
  | .obj ((k, v) :: ms) => '{' :: (renderString k ++ ':' :: (render v ++ renderMembers ms))

/-- The rest of an array after one of its items. -/
def renderItems : List Doc → List Char
  | [] => [']']
  | v :: vs => ',' :: (render v ++ renderItems vs)

/-- The rest of an object after one of its members. -/
def renderMembers : List (List Char × Doc) → List Char
  | [] => ['}']
  | (k, v) :: ms => ',' :: (renderString k ++ ':' :: (render v ++ renderMembers ms))

end

/-! ### Parsing -/

def isWhitespace (c : Char) : Bool := c == ' ' || c == '\t' || c == '\n' || c == '\r'

def skip (cs : List Char) : List Char := cs.dropWhile isWhitespace

/-- The value of a hexadecimal digit. -/
def hexValue (c : Char) : Option Nat :=
  if isDigit c then some (c.toNat - '0'.toNat)
  else if 'a' ≤ c && c ≤ 'f' then some (c.toNat - 'a'.toNat + 10)
  else if 'A' ≤ c && c ≤ 'F' then some (c.toNat - 'A'.toNat + 10)
  else none

def hexValue4 (a b c d : Char) : Option Nat := do
  let a ← hexValue a
  let b ← hexValue b
  let c ← hexValue c
  let d ← hexValue d
  pure (4096 * a + 256 * b + 16 * c + d)

/-- The code of a one-letter escape. -/
def shortEscape : Char → Option Nat
  | '"' => some 34
  | '\\' => some 92
  | '/' => some 47
  | 'b' => some 8
  | 'f' => some 12
  | 'n' => some 10
  | 'r' => some 13
  | 't' => some 9
  | _ => none

/-- The body of a string up to its closing quote, as codes: scalar values, and the code units that
`\u` escapes name. -/
def stringCodes : List Char → Option (List Nat × List Char)
  | [] => none
  | '"' :: cs => some ([], cs)
  | '\\' :: e :: cs =>
    if e = 'u' then
      match cs with
      | a :: b :: c :: d :: cs =>
        match hexValue4 a b c d with
        | some n => (stringCodes cs).map fun (ns, rest) => (n :: ns, rest)
        | none => none
      | _ => none
    else
      match shortEscape e with
      | some n => (stringCodes cs).map fun (ns, rest) => (n :: ns, rest)
      | none => none
  | c :: cs =>
    if c.toNat < 32 || c == '\\' then none
    else (stringCodes cs).map fun (ns, rest) => (c.toNat :: ns, rest)

def isHighSurrogate (n : Nat) : Bool := 0xD800 ≤ n && n < 0xDC00

def isLowSurrogate (n : Nat) : Bool := 0xDC00 ≤ n && n < 0xE000

/-- The scalar values of a sequence of codes, surrogate pairs joined. -/
def joinCodes : List Nat → List Char
  | [] => []
  | [n] => [if isHighSurrogate n || isLowSurrogate n then '\uFFFD' else Char.ofNat n]
  | h :: l :: ns =>
    if isHighSurrogate h && isLowSurrogate l then
      Char.ofNat (0x10000 + (h - 0xD800) * 0x400 + (l - 0xDC00)) :: joinCodes ns
    else if isHighSurrogate h || isLowSurrogate h then '\uFFFD' :: joinCodes (l :: ns)
    else Char.ofNat h :: joinCodes (l :: ns)

/-- A string after its opening quote. -/
def parseString (cs : List Char) : Option (List Char × List Char) :=
  (stringCodes cs).map fun (ns, rest) => (joinCodes ns, rest)

/-- `null`, `true`, `false` or a number. -/
def parseScalar (cs : List Char) : Option (Doc × List Char) :=
  match cs with
  | 'n' :: 'u' :: 'l' :: 'l' :: rest => some (.null, rest)
  | 't' :: 'r' :: 'u' :: 'e' :: rest => some (.bool true, rest)
  | 'f' :: 'a' :: 'l' :: 's' :: 'e' :: rest => some (.bool false, rest)
  | cs =>
    let chars := cs.takeWhile isNumberChar
    if h : isNumber chars = true then
      some (.num ⟨chars, h, List.all_takeWhile⟩, cs.dropWhile isNumberChar)
    else none

mutual

/-- A value at the head of a text; what follows it is left. -/
def parseValue : Nat → List Char → Option (Doc × List Char)
  | 0, _ => none
  | n + 1, cs =>
    match skip cs with
    | '"' :: cs => (parseString cs).map fun (s, rest) => (.str s, rest)
    | '[' :: cs =>
      match skip cs with
      | ']' :: rest => some (.arr [], rest)
      | _ => (parseItems n cs).map fun (vs, rest) => (.arr vs, rest)
    | '{' :: cs =>
      match skip cs with
      | '}' :: rest => some (.obj [], rest)
      | _ => (parseMembers n cs).map fun (ms, rest) => (.obj ms, rest)
    | cs => parseScalar cs

/-- The items of an array that is not empty, up to its bracket. -/
def parseItems : Nat → List Char → Option (List Doc × List Char)
  | 0, _ => none
  | n + 1, cs =>
    match parseValue n cs with
    | none => none
    | some (v, rest) =>
      match skip rest with
      | ']' :: rest => some ([v], rest)
      | ',' :: rest => (parseItems n rest).map fun (vs, rest) => (v :: vs, rest)
      | _ => none

/-- The members of an object that is not empty, up to its brace. -/
def parseMembers : Nat → List Char → Option (List (List Char × Doc) × List Char)
  | 0, _ => none
  | n + 1, cs =>
    match skip cs with
    | '"' :: cs =>
      match parseString cs with
      | none => none
      | some (k, rest) =>
        match skip rest with
        | ':' :: rest =>
          match parseValue n rest with
          | none => none
          | some (v, rest) =>
            match skip rest with
            | '}' :: rest => some ([(k, v)], rest)
            | ',' :: rest => (parseMembers n rest).map fun (ms, rest) => ((k, v) :: ms, rest)
            | _ => none
        | _ => none
    | _ => none

end

/-- `JSON.parse`; none where it throws. -/
def parse (cs : List Char) : Option Doc :=
  match parseValue (2 * cs.length + 1) cs with
  | some (v, rest) => if (skip rest).isEmpty then some v else none
  | none => none

/-! ### What was printed parses back -/

theorem skip_cons {c : Char} (cs : List Char) (h : isWhitespace c = false) : skip (c :: cs) = c :: cs := by
  rw [skip, List.dropWhile_cons, h]
  rfl

theorem hexValue_hexDigit : ∀ n < 16, hexValue (hexDigit n) = some n := by decide

theorem stringCodes_short {e : Char} {n : Nat} (he : e ≠ 'u') (h : shortEscape e = some n)
    (rest : List Char) :
    stringCodes ('\\' :: e :: rest) = (stringCodes rest).map fun (ns, r) => (n :: ns, r) := by
  rw [stringCodes.eq_def]
  simp only [he, if_false, h]

theorem stringCodes_plain {c : Char} (hq : c ≠ '"') (hb : c ≠ '\\') (hc : ¬ c.toNat < 32)
    (rest : List Char) :
    stringCodes (c :: rest) = (stringCodes rest).map fun (ns, r) => (c.toNat :: ns, r) := by
  rw [stringCodes]
  · simp [hc, hb]
  · exact fun h => hq h
  · exact fun e cs h _ => hb h

theorem stringCodes_escapeChar (c : Char) (rest : List Char) :
    stringCodes (escapeChar c ++ rest) = (stringCodes rest).map fun (ns, r) => (c.toNat :: ns, r) := by
  unfold escapeChar
  split
  case isTrue h => subst h; exact stringCodes_short (by decide) rfl rest
  split
  case isTrue h => subst h; exact stringCodes_short (by decide) rfl rest
  split
  case isTrue h => rw [h]; exact stringCodes_short (by decide) rfl rest
  split
  case isTrue h => rw [h]; exact stringCodes_short (by decide) rfl rest
  split
  case isTrue h => rw [h]; exact stringCodes_short (by decide) rfl rest
  split
  case isTrue h => rw [h]; exact stringCodes_short (by decide) rfl rest
  split
  case isTrue h => rw [h]; exact stringCodes_short (by decide) rfl rest
  split
  case isTrue h =>
    have hhigh := hexValue_hexDigit (c.toNat / 16) (by omega)
    have hlow := hexValue_hexDigit (c.toNat % 16) (by omega)
    have hcode : hexValue4 '0' '0' (hexDigit (c.toNat / 16)) (hexDigit (c.toNat % 16)) = some c.toNat := by
      simp only [hexValue4, hhigh, hlow, show hexValue '0' = some 0 from rfl, Option.bind_eq_bind,
        Option.bind_some, Option.pure_def, Option.some.injEq]
      omega
    simp only [List.cons_append, List.nil_append, stringCodes, if_true, hcode]
  case isFalse hq hb _ _ _ _ _ hc => exact stringCodes_plain hq hb hc rest

theorem stringCodes_escaped (s rest : List Char) :
    stringCodes (s.flatMap escapeChar ++ '"' :: rest) = some (s.map Char.toNat, rest) := by
  induction s with
  | nil => rw [List.flatMap_nil, List.nil_append, stringCodes, List.map_nil]
  | cons c s ih =>
    rw [List.flatMap_cons, List.append_assoc, stringCodes_escapeChar, ih]
    rfl

theorem not_surrogate (c : Char) : isHighSurrogate c.toNat = false ∧ isLowSurrogate c.toNat = false := by
  have hv := c.valid
  simp only [UInt32.isValidChar, Nat.isValidChar] at hv
  simp only [isHighSurrogate, isLowSurrogate, Char.toNat, Bool.and_eq_false_iff, decide_eq_false_iff_not]
  omega

theorem joinCodes_toNat (s : List Char) : joinCodes (s.map Char.toNat) = s := by
  induction s with
  | nil => rfl
  | cons c s ih =>
    obtain ⟨hh, hl⟩ := not_surrogate c
    cases s with
    | nil => simp [joinCodes, hh, hl]
    | cons d s =>
      simp only [List.map_cons] at ih
      simp [joinCodes, hh, hl, ih]

/-- A printed string reads back. -/
theorem parseString_render (s rest : List Char) :
    parseString (s.flatMap escapeChar ++ '"' :: rest) = some (s, rest) := by
  rw [parseString, stringCodes_escaped]
  exact congrArg some (congrArg (·, rest) (joinCodes_toNat s))

/-- What follows a value does not go on a number. -/
def Stops (rest : List Char) : Prop := ∀ c ∈ rest.head?, isNumberChar c = false

theorem takeWhile_append_stops {chars rest : List Char} (h : chars.all isNumberChar = true)
    (hr : Stops rest) : (chars ++ rest).takeWhile isNumberChar = chars ∧
      (chars ++ rest).dropWhile isNumberChar = rest := by
  have hall : ∀ c ∈ chars, isNumberChar c = true := List.all_eq_true.1 h
  rw [List.takeWhile_append_of_pos hall, List.dropWhile_append_of_pos hall]
  cases rest with
  | nil => simp
  | cons c rest =>
    have hc : isNumberChar c = false := hr c (by simp)
    simp [hc]

theorem isNumberChar_cases {c : Char} (h : isNumberChar c = true) :
    isWhitespace c = false ∧ c ≠ '"' ∧ c ≠ '[' ∧ c ≠ '{' ∧ c ≠ 'n' ∧ c ≠ 't' ∧ c ≠ 'f' := by
  refine ⟨?_, ?_, ?_, ?_, ?_, ?_, ?_⟩
  case refine_1 =>
    cases hw : isWhitespace c with
    | false => rfl
    | true =>
      simp only [isWhitespace, Bool.or_eq_true, beq_iff_eq] at hw
      rcases hw with ((rfl | rfl) | rfl) | rfl <;> revert h <;> decide
  all_goals rintro rfl; revert h; decide

theorem Lexeme.chars_eq (n : Lexeme) : ∃ c cs, n.chars = c :: cs ∧ isNumberChar c = true := by
  obtain ⟨chars, hn, hc⟩ := n
  cases chars with
  | nil => cases hn
  | cons c cs =>
    rw [List.all_cons, Bool.and_eq_true] at hc
    exact ⟨c, cs, rfl, hc.1⟩

/-- A number reads back where it stops. -/
theorem parseScalar_lexeme (n : Lexeme) {rest : List Char} (hr : Stops rest) :
    parseScalar (n.chars ++ rest) = some (.num n, rest) := by
  obtain ⟨c, cs, hcs, hc⟩ := n.chars_eq
  obtain ⟨-, -, -, -, hn, ht, hf⟩ := isNumberChar_cases hc
  obtain ⟨htake, hdrop⟩ := takeWhile_append_stops n.closed hr
  rw [hcs] at htake hdrop ⊢
  unfold parseScalar
  split
  case h_1 h => exact absurd (List.cons.inj h).1 hn
  case h_2 h => exact absurd (List.cons.inj h).1 ht
  case h_3 h => exact absurd (List.cons.inj h).1 hf
  case h_4 =>
    have hnum : isNumber (((c :: cs) ++ rest).takeWhile isNumberChar) = true := by
      rw [htake, ← hcs]
      exact n.number
    simp only [hnum, dif_pos, hdrop]
    congr 3
    obtain ⟨chars, h1, h2⟩ := n
    simp only [Lexeme.mk.injEq]
    exact htake.trans hcs.symm

/-- A value that begins with none of the opening characters is a scalar. -/
theorem parseValue_scalar {c : Char} (cs : List Char) (n : Nat) (hw : isWhitespace c = false)
    (hq : c ≠ '"') (ha : c ≠ '[') (ho : c ≠ '{') :
    parseValue (n + 1) (c :: cs) = parseScalar (c :: cs) := by
  rw [parseValue, skip_cons cs hw]
  split
  case h_1 h => cases h; exact absurd rfl hq
  case h_2 h => cases h; exact absurd rfl ha
  case h_3 h => cases h; exact absurd rfl ho
  case h_4 => rfl

mutual

/-- How deep the parser goes on a printed document. -/
def need : Doc → Nat
  | .arr items => 1 + needItems items
  | .obj members => 1 + needMembers members
  | _ => 1

def needItems : List Doc → Nat
  | [] => 0
  | v :: vs => 1 + need v + needItems vs

def needMembers : List (List Char × Doc) → Nat
  | [] => 0
  | (_, v) :: ms => 1 + need v + needMembers ms

end

/-- The text of a document begins with a character that is neither white space nor a closing one. -/
theorem render_cons (v : Doc) : ∃ c cs, render v = c :: cs ∧ isWhitespace c = false ∧ c ≠ ']' := by
  cases v with
  | null => exact ⟨_, _, rfl, by decide⟩
  | bool b => cases b <;> exact ⟨_, _, rfl, by decide⟩
  | str s => exact ⟨_, _, rfl, by decide⟩
  | arr items => cases items <;> exact ⟨_, _, rfl, by decide⟩
  | obj members => cases members <;> exact ⟨_, _, rfl, by decide⟩
  | num n =>
    obtain ⟨c, cs, hcs, hc⟩ := n.chars_eq
    refine ⟨c, cs, hcs, (isNumberChar_cases hc).1, ?_⟩
    rintro rfl
    revert hc
    decide

theorem stops_cons {c : Char} (cs : List Char) (h : isNumberChar c = false) : Stops (c :: cs) := by
  intro d hd
  cases hd
  exact h

theorem stops_renderItems (vs : List Doc) (rest : List Char) : Stops (renderItems vs ++ rest) := by
  cases vs <;> exact stops_cons _ (by decide)

theorem stops_renderMembers (ms : List (List Char × Doc)) (rest : List Char) :
    Stops (renderMembers ms ++ rest) := by
  cases ms <;> exact stops_cons _ (by decide)

/-- With fuel `n`, what was printed reads back whatever follows it. -/
structure ReadsBack (n : Nat) : Prop where
  value : ∀ v rest, need v ≤ n → Stops rest → parseValue n (render v ++ rest) = some (v, rest)
  items : ∀ v vs rest, needItems (v :: vs) ≤ n →
    parseItems n (render v ++ (renderItems vs ++ rest)) = some (v :: vs, rest)
  members : ∀ k v ms rest, needMembers ((k, v) :: ms) ≤ n →
    parseMembers n (renderString k ++ ':' :: (render v ++ (renderMembers ms ++ rest))) =
      some ((k, v) :: ms, rest)

variable {n : Nat}

theorem ReadsBack.value_succ (h : ReadsBack n) (v : Doc) (rest : List Char) (hn : need v ≤ n + 1)
    (hr : Stops rest) : parseValue (n + 1) (render v ++ rest) = some (v, rest) := by
  match v with
  | .null => exact parseValue_scalar _ n (by decide) (by decide) (by decide) (by decide)
  | .bool true => exact parseValue_scalar _ n (by decide) (by decide) (by decide) (by decide)
  | .bool false => exact parseValue_scalar _ n (by decide) (by decide) (by decide) (by decide)
  | .num l =>
    obtain ⟨c, cs, hcs, hc⟩ := l.chars_eq
    obtain ⟨hw, hq, ha, ho, -⟩ := isNumberChar_cases hc
    have h := parseScalar_lexeme l hr
    rw [render]
    rw [hcs] at h ⊢
    rw [List.cons_append, parseValue_scalar _ n hw hq ha ho]
    exact h
  | .str s =>
    rw [render, renderString, List.cons_append, List.append_assoc, List.singleton_append, parseValue,
      skip_cons _ (by decide)]
    simp only [parseString_render, Option.map_some]
  | .arr [] =>
    rw [render, List.cons_append, parseValue, skip_cons _ (by decide)]
    simp only [List.cons_append, List.nil_append, skip_cons (c := ']') rest (by decide)]
  | .arr (v :: vs) =>
    obtain ⟨c, cs, hcs, hw, hne⟩ := render_cons v
    have hitems := h.items v vs rest (by simp only [need] at hn; omega)
    rw [render, List.cons_append, parseValue, skip_cons _ (by decide), List.append_assoc]
    rw [hcs, List.cons_append] at hitems ⊢
    simp only [skip_cons _ hw]
    split
    case h_1 heq => exact absurd (List.cons.inj heq).1 hne
    case h_2 => rw [hitems, Option.map_some]
  | .obj [] =>
    rw [render, List.cons_append, parseValue, skip_cons _ (by decide)]
    simp only [List.cons_append, List.nil_append, skip_cons (c := '}') rest (by decide)]
  | .obj ((k, v) :: ms) =>
    have hmembers := h.members k v ms rest (by simp only [need] at hn; omega)
    rw [render, List.cons_append, parseValue, skip_cons _ (by decide), List.append_assoc,
      List.cons_append, List.append_assoc]
    rw [renderString, List.cons_append] at hmembers ⊢
    simp only [skip_cons (c := '"') _ (by decide)]
    split
    case h_1 heq => exact absurd (List.cons.inj heq).1 (by decide)
    case h_2 => rw [hmembers, Option.map_some]

theorem ReadsBack.items_succ (h : ReadsBack n) (v : Doc) (vs : List Doc) (rest : List Char)
    (hn : needItems (v :: vs) ≤ n + 1) :
    parseItems (n + 1) (render v ++ (renderItems vs ++ rest)) = some (v :: vs, rest) := by
  simp only [needItems] at hn
  rw [parseItems, h.value v _ (by omega) (stops_renderItems vs rest)]
  cases vs with
  | nil => simp only [renderItems, List.cons_append, List.nil_append, skip_cons (c := ']') rest (by decide)]
  | cons w vs =>
    have hitems := h.items w vs rest (by omega)
    simp only [renderItems, List.cons_append, List.append_assoc, skip_cons (c := ',') _ (by decide),
      hitems, Option.map_some]

theorem ReadsBack.members_succ (h : ReadsBack n) (k : List Char) (v : Doc)
    (ms : List (List Char × Doc)) (rest : List Char) (hn : needMembers ((k, v) :: ms) ≤ n + 1) :
    parseMembers (n + 1) (renderString k ++ ':' :: (render v ++ (renderMembers ms ++ rest))) =
      some ((k, v) :: ms, rest) := by
  simp only [needMembers] at hn
  have hvalue := h.value v (renderMembers ms ++ rest) (by omega) (stops_renderMembers ms rest)
  rw [renderString, List.cons_append, List.append_assoc, List.singleton_append, parseMembers,
    skip_cons _ (by decide)]
  simp only [parseString_render, skip_cons (c := ':') _ (by decide), hvalue]
  cases ms with
  | nil => simp only [renderMembers, List.cons_append, List.nil_append, skip_cons (c := '}') rest (by decide)]
  | cons m ms =>
    obtain ⟨l, w⟩ := m
    have hmembers := h.members l w ms rest (by omega)
    simp only [renderMembers, List.cons_append, List.append_assoc, skip_cons (c := ',') _ (by decide),
      hmembers, Option.map_some]

theorem readsBack : ∀ n, ReadsBack n
  | 0 => {
      value := fun v _ hn _ => by cases v <;> simp only [need] at hn <;> omega
      items := fun v vs _ hn => by simp only [needItems] at hn; omega
      members := fun k v ms _ hn => by simp only [needMembers] at hn; omega }
  | n + 1 =>
    ⟨(readsBack n).value_succ, (readsBack n).items_succ, (readsBack n).members_succ⟩

mutual

theorem need_le (v : Doc) : need v ≤ 2 * (render v).length := by
  match v with
  | .null => simp [need, render]
  | .bool true => simp [need, render]
  | .bool false => simp [need, render]
  | .num l =>
    obtain ⟨c, cs, hcs, -⟩ := l.chars_eq
    simp only [need, render, hcs, List.length_cons]
    omega
  | .str s => simp only [need, render, renderString, List.length_cons]; omega
  | .arr [] => simp [need, needItems, render]
  | .arr (v :: vs) =>
    have h := need_le v
    have h' := needItems_le vs
    simp only [need, needItems, render, List.length_cons, List.length_append]
    omega
  | .obj [] => simp [need, needMembers, render]
  | .obj ((k, v) :: ms) =>
    have h := need_le v
    have h' := needMembers_le ms
    simp only [need, needMembers, render, List.length_cons, List.length_append]
    omega

theorem needItems_le (vs : List Doc) : needItems vs ≤ 2 * (renderItems vs).length := by
  match vs with
  | [] => simp [needItems]
  | v :: vs =>
    have h := need_le v
    have h' := needItems_le vs
    simp only [needItems, renderItems, List.length_cons, List.length_append]
    omega

theorem needMembers_le (ms : List (List Char × Doc)) :
    needMembers ms ≤ 2 * (renderMembers ms).length := by
  match ms with
  | [] => simp [needMembers]
  | (k, v) :: ms =>
    have h := need_le v
    have h' := needMembers_le ms
    simp only [needMembers, renderMembers, List.length_cons, List.length_append]
    omega

end

/-- **Round trip.** `JSON.parse` gives back what `JSON.stringify` printed. -/
theorem parse_render (v : Doc) : parse (render v) = some v := by
  have h := (readsBack (2 * (render v).length + 1)).value v [] (by have := need_le v; omega)
    (fun c hc => by cases hc)
  rw [List.append_nil] at h
  rw [parse, h]
  rfl

/-- No line is broken inside a printed document. -/
theorem newline_not_mem_escapeChar (c : Char) : '\n' ∉ escapeChar c := by
  have hhex : ∀ n < 16, hexDigit n ≠ '\n' := by decide
  unfold escapeChar
  split
  · decide
  split
  · decide
  split
  · decide
  split
  · decide
  split
  · decide
  split
  · decide
  split
  · decide
  split
  case isTrue h =>
    have h1 := hhex (c.toNat / 16) (by omega)
    have h2 := hhex (c.toNat % 16) (by omega)
    simp only [List.mem_cons, List.not_mem_nil, or_false, not_or]
    exact ⟨by decide, by decide, by decide, by decide, h1.symm, h2.symm⟩
  case isFalse h =>
    rw [List.mem_singleton]
    rintro rfl
    exact h (by decide)

theorem newline_not_mem_renderString (s : List Char) : '\n' ∉ renderString s := by
  simp only [renderString, List.mem_cons, List.mem_append, List.mem_flatMap, List.not_mem_nil,
    or_false, not_or, not_exists, not_and]
  exact ⟨by decide, fun c _ => newline_not_mem_escapeChar c, by decide⟩

mutual

theorem newline_not_mem_render (v : Doc) : '\n' ∉ render v := by
  match v with
  | .null | .bool true | .bool false | .arr [] | .obj [] => simp only [render]; decide
  | .num l =>
    intro h
    have := List.all_eq_true.1 l.closed _ h
    revert this
    decide
  | .str s => exact newline_not_mem_renderString s
  | .arr (v :: vs) =>
    have h := newline_not_mem_render v
    have h' := newline_not_mem_renderItems vs
    simp [render, h, h']
  | .obj ((k, v) :: ms) =>
    have hk := newline_not_mem_renderString k
    have h := newline_not_mem_render v
    have h' := newline_not_mem_renderMembers ms
    simp [render, hk, h, h']

theorem newline_not_mem_renderItems (vs : List Doc) : '\n' ∉ renderItems vs := by
  match vs with
  | [] => simp only [renderItems]; decide
  | v :: vs =>
    have h := newline_not_mem_render v
    have h' := newline_not_mem_renderItems vs
    simp [renderItems, h, h']

theorem newline_not_mem_renderMembers (ms : List (List Char × Doc)) : '\n' ∉ renderMembers ms := by
  match ms with
  | [] => simp only [renderMembers]; decide
  | (k, v) :: ms =>
    have hk := newline_not_mem_renderString k
    have h := newline_not_mem_render v
    have h' := newline_not_mem_renderMembers ms
    simp [renderMembers, hk, h, h']

end

theorem render_ne_nil (v : Doc) : render v ≠ [] := by
  obtain ⟨c, cs, hcs, -⟩ := render_cons v
  rw [hcs]
  exact List.cons_ne_nil c cs

end ConfigRegistry.Json
