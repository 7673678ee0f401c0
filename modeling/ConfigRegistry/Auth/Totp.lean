import ConfigRegistry.Js.Text
import ConfigRegistry.Js.Value
import Mathlib.Algebra.Ring.Int.Defs
import Mathlib.Algebra.Ring.Nat

/-!
# One-time passwords

`src/auth/totp.ts`, `src/auth/base32.ts` and the password hash of `src/auth/break-glass.ts`. HMAC,
scrypt and the decodings of Node are the fields of a `Crypto`.
-/

namespace ConfigRegistry.Auth

open Js

abbrev Bytes : Type := List UInt8

/-- What the code takes from `node:crypto`, `Buffer` and the strings of JavaScript. -/
structure Crypto where
  /-- `scrypt(password, salt, keyLength, { N, r, p })`; an error for parameters it refuses. -/
  scrypt : String → Bytes → Nat → Number → Number → Number → Except Error Bytes
  /-- `createHmac('sha1', secret).update(message).digest()`. -/
  hmacSha1 : Bytes → Bytes → Bytes
  /-- `Buffer.from(text, 'base64')`. -/
  fromBase64 : String → Bytes
  /-- `Number(text)`. -/
  number : String → Number
  /-- `text.toUpperCase()`. -/
  toUpperCase : String → String
  /-- `/\s/`. -/
  isSpace : Char → Bool

/-! ### Base32 -/

def alphabet : List Char := "ABCDEFGHIJKLMNOPQRSTUVWXYZ234567".toList

/-- The loop of `decodeBase32`: what has been read are `bits` bits of `value`. -/
def decodeChars : List Char → Nat → Nat → Except Error Bytes
  | [], _, _ => .ok []
  | char :: rest, bits, value =>
    match alphabet.idxOf? char with
    | none => .error (.of s!"invalid base32 character: {char}")
    | some index =>
      let value := (value <<< 5 ||| index) % 2 ^ 32
      let bits := bits + 5
      if 8 ≤ bits then do
        let bytes ← decodeChars rest (bits - 8) value
        pure ((value >>> (bits - 8)).toUInt8 :: bytes)
      else decodeChars rest bits value

variable (crypto : Crypto)

/-- `decodeBase32`. -/
def decodeBase32 (input : String) : Except Error Bytes :=
  let clean := ((crypto.toUpperCase input).toList.reverse.dropWhile fun c => c == '=').reverse
  decodeChars (clean.filter fun c => !crypto.isSpace c) 0 0

/-! ### Time steps and codes -/

def stepSeconds : Int := 30

def tolerance : Nat := 1

/-- `totpCounter`. -/
def totpCounter (unixSeconds : Int) : Int := unixSeconds / stepSeconds

/-- `writeBigUInt64BE`; an error outside its range. -/
def bigUInt64BE (n : Int) : Except Error Bytes :=
  if 0 ≤ n ∧ n < 2 ^ 64 then
    .ok ((List.range 8).reverse.map fun i => (n.toNat >>> (8 * i)).toUInt8)
  else .error (.of "The value of \"value\" is out of range.")

/-- The dynamic truncation of a digest. -/
def truncate (digest : Bytes) : Nat :=
  let byte (i : Nat) : Nat := (digest.getD i 0).toNat
  let offset := byte (digest.length - 1) &&& 0x0f
  (byte offset &&& 0x7f) <<< 24 ||| byte (offset + 1) <<< 16 ||| byte (offset + 2) <<< 8 |||
    byte (offset + 3)

/-- `text.padStart(length, '0')`. -/
def padStart (text : String) (length : Nat) : String :=
  String.ofList (List.replicate (length - text.length) '0') ++ text

/-- `generateTotp`. -/
def generateTotp (secret : Bytes) (counter : Int) (digits : Nat) : Except Error String := do
  let message ← bigUInt64BE counter
  pure (padStart (toString (truncate (crypto.hmacSha1 secret message) % 10 ^ digits)) digits)

/-- `code.length`. -/
def unitLength (code : String) : Nat := (code.toList.flatMap codeUnits).length

/-- The steps that `verifyTotp` goes through, newest first. -/
def findCounter (code : String) (secret : Bytes) (digits : Nat) (lastUsedCounter : Option Int) :
    List Int → Except Error (Option Int)
  | [] => .ok none
  | counter :: rest =>
    if lastUsedCounter.any fun last => counter ≤ last then
      findCounter code secret digits lastUsedCounter rest
    else do
      let expected ← generateTotp crypto secret counter digits
      if code = expected then pure (some counter)
      else findCounter code secret digits lastUsedCounter rest

/-- `verifyTotp`: the step whose code it is, when that has not been spent. -/
def verifyTotp (code : String) (secret : Bytes) (now : Int) (digits : Nat)
    (lastUsedCounter : Option Int) : Except Error (Option Int) :=
  if unitLength code ≠ digits then .ok none
  else
    findCounter crypto code secret digits lastUsedCounter
      ((List.range (tolerance + 1)).map fun (back : Nat) => totpCounter now - back)

variable {crypto} {code : String} {secret : Bytes} {digits : Nat} {last : Option Int}

/-- The counter that is found is one of those gone through, is not spent, and has the code. -/
theorem findCounter_some {counters : List Int} {counter : Int}
    (h : findCounter crypto code secret digits last counters = .ok (some counter)) :
    counter ∈ counters ∧ (∀ spent, last = some spent → spent < counter) ∧
      generateTotp crypto secret counter digits = .ok code := by
  induction counters with
  | nil => cases h
  | cons c rest ih =>
    rw [findCounter] at h
    split at h
    · obtain ⟨hmem, hspent, hcode⟩ := ih h
      exact ⟨List.mem_cons_of_mem _ hmem, hspent, hcode⟩
    · rename_i hfresh
      cases hgen : generateTotp crypto secret c digits with
      | error e =>
        rw [hgen] at h
        cases h
      | ok expected =>
        rw [hgen] at h
        dsimp only [bind, Except.bind] at h
        split at h
        · rename_i hcode
          cases h
          refine ⟨List.mem_cons_self, fun spent hspent => ?_, by rw [hgen, hcode]⟩
          rw [hspent] at hfresh
          simp only [Option.any_some, decide_eq_true_eq] at hfresh
          omega
        · obtain ⟨hmem, hspent, hcode⟩ := ih h
          exact ⟨List.mem_cons_of_mem _ hmem, hspent, hcode⟩

/-- Codes of steps that a counter can have are compared without an error. -/
theorem findCounter_ok {counters : List Int} (h : ∀ c ∈ counters, 0 ≤ c ∧ c < 2 ^ 64) :
    ∃ found, findCounter crypto code secret digits last counters = .ok found := by
  induction counters with
  | nil => exact ⟨none, rfl⟩
  | cons c rest ih =>
    have hrest := ih fun c hc => h c (List.mem_cons_of_mem _ hc)
    rw [findCounter]
    split
    · exact hrest
    · rw [generateTotp, bigUInt64BE, if_pos (h c List.mem_cons_self)]
      dsimp only [bind, Except.bind, pure, Except.pure]
      split
      · exact ⟨_, rfl⟩
      · exact hrest

/-- An accepted code is that of the current or of the previous step, and the step is not spent. -/
theorem verifyTotp_some {now counter : Int}
    (h : verifyTotp crypto code secret now digits last = .ok (some counter)) :
    (counter = totpCounter now ∨ counter = totpCounter now - 1) ∧
      (∀ spent, last = some spent → spent < counter) ∧
      generateTotp crypto secret counter digits = .ok code := by
  rw [verifyTotp] at h
  split at h
  · cases h
  · obtain ⟨hmem, hspent, hcode⟩ := findCounter_some h
    simp only [tolerance, List.mem_map, List.mem_range] at hmem
    obtain ⟨back, hback, rfl⟩ := hmem
    exact ⟨by omega, hspent, hcode⟩

end ConfigRegistry.Auth
