import Mathlib.Data.List.Basic

/-!
# Base64 without padding

Bytes as letters of six bits, in the alphabet for URLs, and the bytes that a text is read as.
-/

namespace ConfigRegistry.Text

/-- The bytes, three at a time, as four numbers of six bits. -/
def sextets : List UInt8 → List Nat
  | [] => []
  | [a] => [a.toNat / 4, a.toNat % 4 * 16]
  | [a, b] => [a.toNat / 4, a.toNat % 4 * 16 + b.toNat / 16, b.toNat % 16 * 4]
  | a :: b :: c :: bytes =>
    a.toNat / 4 :: (a.toNat % 4 * 16 + b.toNat / 16) :: (b.toNat % 16 * 4 + c.toNat / 64) :: c.toNat % 64 ::
      sextets bytes

/-- What numbers of six bits are read as; bits that do not fill a byte are left out. -/
def octets : List Nat → List UInt8
  | w :: x :: y :: z :: values =>
    UInt8.ofNat (w * 4 + x / 16) :: UInt8.ofNat (x % 16 * 16 + y / 4) :: UInt8.ofNat (y % 4 * 64 + z) :: octets values
  | [w, x, y] => [UInt8.ofNat (w * 4 + x / 16), UInt8.ofNat (x % 16 * 16 + y / 4)]
  | [w, x] => [UInt8.ofNat (w * 4 + x / 16)]
  | [_] => []
  | [] => []

def urlAlphabet : List Char := "ABCDEFGHIJKLMNOPQRSTUVWXYZabcdefghijklmnopqrstuvwxyz0123456789-_".toList

def urlDigit (value : Nat) : Char := urlAlphabet.getD value 'A'

/-- What a letter stands for; the two letters of the other alphabet are accepted. -/
def urlValue (c : Char) : Option Nat :=
  if c = '+' then some 62 else if c = '/' then some 63 else urlAlphabet.findIdx? (· == c)

/-- `Buffer.from(bytes).toString('base64url')`. -/
def encodeUrl (bytes : List UInt8) : String := String.ofList ((sextets bytes).map urlDigit)

/-- `Buffer.from(text, 'base64url')`: letters of no alphabet are passed over. -/
def decodeUrl (text : String) : List UInt8 := octets (text.toList.filterMap urlValue)

theorem sextets_lt (bytes : List UInt8) : ∀ value ∈ sextets bytes, value < 64 := by
  induction bytes using sextets.induct with
  | case1 => exact fun value h => absurd h List.not_mem_nil
  | case2 a =>
    have ha := a.toNat_lt
    simp only [sextets, List.forall_mem_cons, List.not_mem_nil, false_imp_iff, implies_true, and_true]
    omega
  | case3 a b =>
    have ha := a.toNat_lt
    have hb := b.toNat_lt
    simp only [sextets, List.forall_mem_cons, List.not_mem_nil, false_imp_iff, implies_true, and_true]
    omega
  | case4 a b c bytes ih =>
    have ha := a.toNat_lt
    have hb := b.toNat_lt
    have hc := c.toNat_lt
    simp only [sextets, List.forall_mem_cons]
    refine ⟨?_, ?_, ?_, ?_, ih⟩ <;> omega

theorem octets_sextets (bytes : List UInt8) : octets (sextets bytes) = bytes := by
  have hbyte : ∀ (a : UInt8) {n : Nat}, n = a.toNat → UInt8.ofNat n = a := by
    rintro a _ rfl
    exact UInt8.ofNat_toNat
  induction bytes using sextets.induct with
  | case1 => rfl
  | case2 a =>
    rw [sextets, octets, hbyte a]
    omega
  | case3 a b =>
    have hb := b.toNat_lt
    rw [sextets, octets, hbyte a, hbyte b]
    · omega
    · omega
  | case4 a b c bytes ih =>
    have hb := b.toNat_lt
    have hc := c.toNat_lt
    rw [sextets, octets, hbyte a, hbyte b, hbyte c, ih]
    · omega
    · omega
    · omega

theorem urlValue_urlDigit : ∀ value < 64, urlValue (urlDigit value) = some value := by decide +kernel

theorem filterMap_urlValue {values : List Nat} (h : ∀ value ∈ values, value < 64) :
    (values.map urlDigit).filterMap urlValue = values := by
  induction values with
  | nil => rfl
  | cons value values ih =>
    rw [List.forall_mem_cons] at h
    rw [List.map_cons, List.filterMap_cons_some (urlValue_urlDigit value h.1), ih h.2]

@[simp] theorem decodeUrl_encodeUrl (bytes : List UInt8) : decodeUrl (encodeUrl bytes) = bytes := by
  unfold decodeUrl encodeUrl
  rw [String.toList_ofList, filterMap_urlValue (sextets_lt bytes), octets_sextets]

theorem urlDigit_mem : ∀ value < 64, urlAlphabet.contains (urlDigit value) = true := by decide +kernel

/-- What is encoded has letters of the alphabet only. -/
theorem mem_alphabet_of_encodeUrl {bytes : List UInt8} {c : Char} (h : c ∈ (encodeUrl bytes).toList) :
    urlAlphabet.contains c = true := by
  unfold encodeUrl at h
  rw [String.toList_ofList] at h
  obtain ⟨value, hvalue, rfl⟩ := List.mem_map.1 h
  exact urlDigit_mem value (sextets_lt bytes value hvalue)

theorem encodeUrl_ne_empty {bytes : List UInt8} (h : bytes ≠ []) : encodeUrl bytes ≠ "" := by
  intro hempty
  have hdecoded := decodeUrl_encodeUrl bytes
  rw [hempty] at hdecoded
  exact h hdecoded.symm

end ConfigRegistry.Text
