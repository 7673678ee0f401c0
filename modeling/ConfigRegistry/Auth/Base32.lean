import ConfigRegistry.Auth.Totp
import ConfigRegistry.Bits.Words
import ConfigRegistry.Schema.Builder
import Mathlib.Data.List.DropRight

/-!
# Base32

`encodeBase32` of `src/auth/base32.ts`, and what `decodeBase32` makes of its printings. Both loops keep an accumulator
of 32 bits that is never masked.
-/

namespace ConfigRegistry.Auth

open Js Bits
open Schema (isSpace isSpace_of_printed)

/-- `ALPHABET[index]`. -/
def letterOf (index : Nat) : Char := alphabet[index]?.getD ' '

/-- `while (bits >= 5)`: the letters of the high bits, and how many bits are left. -/
def drain (value : Nat) : Nat → List Char × Nat
  | bits + 5 =>
    let (out, left) := drain value bits
    (letterOf (value >>> bits &&& 31) :: out, left)
  | bits => ([], bits)

/-- The loop of `encodeBase32`, in words that keep what `word` keeps of a number. -/
def encodeBytes (word : Nat → Nat) : Bytes → Nat → Nat → List Char
  | [], bits, value => if 0 < bits then [letterOf (word (value <<< (5 - bits)) &&& 31)] else []
  | byte :: rest, bits, value =>
    let value := word (value <<< 8 ||| byte.toNat)
    let (out, left) := drain value (bits + 8)
    out ++ encodeBytes word rest left value

/-- A number as the 32 bits of a word. -/
def int32 (value : Nat) : Nat := value % 2 ^ 32

/-- `encodeBase32`. -/
def encodeBase32 (bytes : Bytes) : String := String.ofList (encodeBytes int32 bytes 0 0)

/-- The loop of `decodeBase32`, with an accumulator that no bit is ever lost of. -/
def wideDecodeChars : List Char → Nat → Nat → Except Error Bytes
  | [], _, _ => .ok []
  | char :: rest, bits, value =>
    match alphabet.idxOf? char with
    | none => .error (.of s!"invalid base32 character: {char}")
    | some index =>
      let value := value <<< 5 ||| index
      let bits := bits + 5
      if 8 ≤ bits then do
        let bytes ← wideDecodeChars rest (bits - 8) value
        pure ((value >>> (bits - 8)).toUInt8 :: bytes)
      else wideDecodeChars rest bits value

/-! ### Letters -/

theorem alphabet_letterOf {index : Nat} (h : index < 32) : alphabet.idxOf? (letterOf index) = some index := by
  have hall : ∀ i ∈ List.range 32, alphabet.idxOf? (letterOf i) = some i := by decide +kernel
  exact hall index (List.mem_range.2 h)

theorem letterOf_mem {index : Nat} (h : index < 32) : letterOf index ∈ alphabet := by
  have hall : ∀ i ∈ List.range 32, letterOf i ∈ alphabet := by decide +kernel
  exact hall index (List.mem_range.2 h)

theorem index_lt {char : Char} {index : Nat} (h : alphabet.idxOf? char = some index) : index < 2 ^ 5 := by
  obtain ⟨hlt, -⟩ := List.idxOf?_eq_some_iff.1 h
  exact hlt

/-! ### What the words keep -/

/-- Words of this kind keep the low bits of a number. -/
def Keeps (word : Nat → Nat) : Prop := ∀ w ≤ 32, ∀ n, low w (word n) = low w n

theorem keeps_int32 : Keeps int32 := fun _ hw n => low_mod hw n

theorem keeps_id : Keeps id := fun _ _ _ => rfl

theorem low_toUInt8 (n : Nat) : low 8 n.toUInt8.toNat = low 8 n := by
  rw [Nat.toUInt8_eq, UInt8.toNat_ofNat']
  exact low_mod (by omega) n

/-- The byte that is put out has the bits above those that are left. -/
theorem toUInt8_congr {m n k : Nat} (h : low (8 + k) m = low (8 + k) n) :
    (m >>> k).toUInt8 = (n >>> k).toUInt8 ∧ low k m = low k n := by
  rw [low_add, low_add] at h
  obtain ⟨hbyte, hrest⟩ := List.append_inj h (by simp)
  refine ⟨?_, hrest⟩
  apply UInt8.toNat_inj.1
  exact eq_of_low (w := 8) (UInt8.toNat_lt _) (UInt8.toNat_lt _) (by rw [low_toUInt8, low_toUInt8, hbyte])

theorem and_31_congr {m n k : Nat} (h : low (5 + k) m = low (5 + k) n) :
    (m >>> k &&& 31 = n >>> k &&& 31) ∧ low k m = low k n := by
  rw [low_add, low_add] at h
  obtain ⟨hdigit, hrest⟩ := List.append_inj h (by simp)
  refine ⟨?_, hrest⟩
  have hmask : ∀ x : Nat, x &&& 31 = x % 2 ^ 5 := fun x => Nat.and_two_pow_sub_one_eq_mod x 5
  rw [hmask, hmask]
  exact eq_of_low (Nat.mod_lt _ (by omega)) (Nat.mod_lt _ (by omega)) (by
    rw [low_mod (Nat.le_refl 5), low_mod (Nat.le_refl 5), hdigit])

/-- The bits that are still needed are the low ones, in every step. -/
theorem decodeChars_eq_wide (chars : List Char) {bits value wide : Nat} (hbits : bits < 8)
    (h : low bits value = low bits wide) : decodeChars chars bits value = wideDecodeChars chars bits wide := by
  induction chars generalizing bits value wide with
  | nil => rfl
  | cons char chars ih =>
    unfold decodeChars wideDecodeChars
    cases hindex : alphabet.idxOf? char with
    | none => rfl
    | some index =>
      have hnext : low (bits + 5) ((value <<< 5 ||| index) % 2 ^ 32) = low (bits + 5) (wide <<< 5 ||| index) := by
        rw [low_mod (by omega), low_push _ _ _ (index_lt hindex), low_push _ _ _ (index_lt hindex), h]
      dsimp only
      split
      · have hsplit : bits + 5 = 8 + (bits + 5 - 8) := by omega
        have hnext' := hnext
        rw [hsplit] at hnext'
        obtain ⟨hbyte, hrest⟩ := toUInt8_congr hnext'
        rw [hbyte, ih (by omega) hrest]
      · exact ih (by omega) hnext

theorem drain_add (value bits : Nat) : drain value (bits + 5) =
    (letterOf (value >>> bits &&& 31) :: (drain value bits).1, (drain value bits).2) := rfl

theorem drain_of_lt {value bits : Nat} (h : bits < 5) : drain value bits = ([], bits) := by
  rw [drain]
  intro n hn
  omega

/-- What holds of fewer than five bits, and of five more where it holds of some, holds of any number of bits. -/
theorem bits_induction {P : Nat → Prop} (few : ∀ bits < 5, P bits) (more : ∀ bits, P bits → P (bits + 5)) (bits : Nat) :
    P bits := by
  induction bits using Nat.strongRecOn with
  | ind bits ih =>
    by_cases h : bits < 5
    · exact few bits h
    · obtain ⟨rest, rfl⟩ : ∃ rest, bits = rest + 5 := ⟨bits - 5, by omega⟩
      exact more rest (ih rest (by omega))

theorem drain_congr {value wide : Nat} (bits : Nat) (h : low bits value = low bits wide) :
    drain value bits = drain wide bits := by
  induction bits using bits_induction with
  | few bits hbits => rw [drain_of_lt hbits, drain_of_lt hbits]
  | more bits ih =>
    rw [Nat.add_comm] at h
    obtain ⟨hdigit, hrest⟩ := and_31_congr h
    rw [drain_add, drain_add, ih hrest, hdigit]

/-- The letters have the bits, and fewer than five are left. -/
theorem drain_bits (value bits : Nat) : ∃ indices : List Nat, (drain value bits).1 = indices.map letterOf ∧
    (∀ i ∈ indices, i < 32) ∧ (drain value bits).2 < 5 ∧
    low bits value = (indices.flatMap fun i => low 5 i) ++ low (drain value bits).2 value := by
  induction bits using bits_induction with
  | few bits hbits =>
    rw [drain_of_lt hbits]
    exact ⟨[], rfl, by simp, hbits, rfl⟩
  | more bits ih =>
    obtain ⟨indices, hletters, hlt, hleft, hbits⟩ := ih
    have hmask : value >>> bits &&& 31 = (value >>> bits) % 2 ^ 5 := Nat.and_two_pow_sub_one_eq_mod _ 5
    rw [drain_add]
    refine ⟨(value >>> bits &&& 31) :: indices, ?_, ?_, hleft, ?_⟩
    · rw [hletters, List.map_cons]
    · rw [hmask]
      exact List.forall_mem_cons.2 ⟨Nat.mod_lt _ (by omega), hlt⟩
    · rw [Nat.add_comm, low_add, hbits, List.flatMap_cons, hmask, low_mod (Nat.le_refl 5), List.append_assoc]

theorem low_push_byte {word : Nat → Nat} (hword : Keeps word) {bits : Nat} (hbits : bits < 5) (value : Nat) (byte : UInt8) :
    low (bits + 8) (word (value <<< 8 ||| byte.toNat)) = low bits value ++ low 8 byte.toNat := by
  rw [hword _ (by omega), low_push _ _ _ byte.toNat_lt]

/-- The letters that are printed depend on the bits that are left only. -/
theorem encodeBytes_congr {word word' : Nat → Nat} (hword : Keeps word) (hword' : Keeps word') (bytes : Bytes)
    {bits value wide : Nat} (hbits : bits < 5) (h : low bits value = low bits wide) :
    encodeBytes word bytes bits value = encodeBytes word' bytes bits wide := by
  induction bytes generalizing bits value wide with
  | nil =>
    unfold encodeBytes
    split
    · have hlast : ∀ n, low 5 (n <<< (5 - bits)) = low bits n ++ low (5 - bits) 0 := by
        intro n
        have hpush := low_push bits (5 - bits) n (d := 0) (Nat.two_pow_pos _)
        have hwidth : bits + (5 - bits) = 5 := by omega
        rwa [hwidth, Nat.or_zero] at hpush
      have hsame : low (5 + 0) (word (value <<< (5 - bits))) = low (5 + 0) (word' (wide <<< (5 - bits))) := by
        rw [Nat.add_zero, hword _ (by omega), hword' _ (by omega), hlast, hlast, h]
      have hdigit := (and_31_congr hsame).1
      rw [Nat.shiftRight_zero, Nat.shiftRight_zero] at hdigit
      rw [hdigit]
    · rfl
  | cons byte bytes ih =>
    have hnext : low (bits + 8) (word (value <<< 8 ||| byte.toNat)) =
        low (bits + 8) (word' (wide <<< 8 ||| byte.toNat)) := by
      rw [low_push_byte hword hbits, low_push_byte hword' hbits, h]
    obtain ⟨indices, -, -, hleft, hvalue⟩ := drain_bits (word (value <<< 8 ||| byte.toNat)) (bits + 8)
    obtain ⟨indices', -, -, -, hwide⟩ := drain_bits (word' (wide <<< 8 ||| byte.toNat)) (bits + 8)
    have hdrain := drain_congr (bits + 8) hnext
    rw [hnext, hwide, ← hdrain] at hvalue
    unfold encodeBytes
    dsimp only
    rw [← hdrain]
    have hrest := (List.append_inj' hvalue (by simp)).2
    rw [ih hleft hrest.symm]

/-! ### Bits to letters and back -/

/-- The bits of bytes. -/
def byteBits (bytes : Bytes) : List Bool := bytes.flatMap fun byte => low 8 byte.toNat

/-- The letters have the bits that were left and those of the bytes, filled up with fewer than five zeros. -/
theorem encodeBytes_bits {word : Nat → Nat} (hword : Keeps word) (bytes : Bytes) {bits value : Nat} (hbits : bits < 5) :
    ∃ (indices : List Nat) (fill : Nat), encodeBytes word bytes bits value = indices.map letterOf ∧
      (∀ i ∈ indices, i < 32) ∧ fill < 5 ∧
      low bits value ++ byteBits bytes ++ List.replicate fill false = indices.flatMap fun i => low 5 i := by
  induction bytes generalizing bits value with
  | nil =>
    unfold encodeBytes
    split
    · rename_i hpos
      have hmask : ∀ x : Nat, x &&& 31 = x % 2 ^ 5 := fun x => Nat.and_two_pow_sub_one_eq_mod x 5
      refine ⟨[word (value <<< (5 - bits)) &&& 31], 5 - bits, rfl, ?_, by omega, ?_⟩
      · rw [hmask]
        exact List.forall_mem_singleton.2 (Nat.mod_lt _ (by omega))
      · have hpush := low_push bits (5 - bits) value (d := 0) (Nat.two_pow_pos _)
        have hwidth : bits + (5 - bits) = 5 := by omega
        rw [hwidth, Nat.or_zero] at hpush
        rw [List.flatMap_singleton, hmask, low_mod (Nat.le_refl 5), hword _ (by omega), hpush, low_zero]
        simp [byteBits]
    · have hnone : bits = 0 := by omega
      subst hnone
      exact ⟨[], 0, rfl, by simp, by omega, rfl⟩
  | cons byte bytes ih =>
    obtain ⟨indices, hletters, hlt, hleft, hdrained⟩ := drain_bits (word (value <<< 8 ||| byte.toNat)) (bits + 8)
    obtain ⟨rest, fill, hrest, hrestlt, hfill, hbitsrest⟩ := @ih _ (word (value <<< 8 ||| byte.toNat)) hleft
    refine ⟨indices ++ rest, fill, ?_, ?_, hfill, ?_⟩
    · unfold encodeBytes
      dsimp only
      rw [hrest, hletters, List.map_append]
    · exact List.forall_mem_append.2 ⟨hlt, hrestlt⟩
    · have hbyte : byteBits (byte :: bytes) = low 8 byte.toNat ++ byteBits bytes := rfl
      rw [low_push_byte hword hbits] at hdrained
      rw [List.flatMap_append, ← hbitsrest, hbyte, ← List.append_assoc (low bits value), hdrained]
      simp only [List.append_assoc]

/-- The bytes have the bits of the letters, but for fewer than eight. -/
theorem decodeChars_bits (indices : List Nat) (hlt : ∀ i ∈ indices, i < 32) {bits value : Nat} (hbits : bits < 8) :
    ∃ (bytes : Bytes) (rest : List Bool), decodeChars (indices.map letterOf) bits value = .ok bytes ∧
      rest.length < 8 ∧ low bits value ++ (indices.flatMap fun i => low 5 i) = byteBits bytes ++ rest := by
  induction indices generalizing bits value with
  | nil => exact ⟨[], low bits value, rfl, by simpa using hbits, by simp [byteBits]⟩
  | cons index indices ih =>
    obtain ⟨hindex, hlt⟩ := List.forall_mem_cons.1 hlt
    have hnext : low (bits + 5) ((value <<< 5 ||| index) % 2 ^ 32) = low bits value ++ low 5 index := by
      rw [low_mod (by omega), low_push _ _ _ hindex]
    rw [List.map_cons, List.flatMap_cons, ← List.append_assoc, ← hnext]
    unfold decodeChars
    rw [alphabet_letterOf hindex]
    dsimp only
    split
    · obtain ⟨bytes, rest, hbytes, hrest, hsame⟩ :=
        @ih hlt (bits + 5 - 8) ((value <<< 5 ||| index) % 2 ^ 32) (by omega)
      refine ⟨_, rest, by rw [hbytes]; rfl, hrest, ?_⟩
      have hsplit : bits + 5 = 8 + (bits + 5 - 8) := by omega
      have hcut := low_add 8 (bits + 5 - 8) ((value <<< 5 ||| index) % 2 ^ 32)
      rw [← hsplit] at hcut
      show _ = low 8 (((value <<< 5 ||| index) % 2 ^ 32) >>> (bits + 5 - 8)).toUInt8.toNat ++ byteBits bytes ++ rest
      rw [hcut, low_toUInt8, List.append_assoc, List.append_assoc, hsame]
    · exact ih hlt (by omega)

/-- What is printed of bytes is read back. -/
theorem decodeChars_encodeBytes (bytes : Bytes) : decodeChars (encodeBytes int32 bytes 0 0) 0 0 = .ok bytes := by
  obtain ⟨indices, fill, hletters, hlt, hfill, hprinted⟩ := @encodeBytes_bits _ keeps_int32 bytes 0 0 (by omega)
  obtain ⟨back, rest, hback, hrest, hread⟩ := @decodeChars_bits indices hlt 0 0 (by omega)
  rw [hletters, hback]
  have hsame : byteBits bytes ++ List.replicate fill false = byteBits back ++ rest := by
    rw [← hread, ← hprinted]
    rfl
  have hlength : bytes.length = back.length := by
    have := congrArg List.length hsame
    unfold byteBits at this
    rw [List.length_append, List.length_append, length_flatMap_low, length_flatMap_low, List.length_replicate] at this
    omega
  exact congrArg Except.ok (eq_of_flatMap_low (fun _ _ h => UInt8.toNat_inj.1 h) UInt8.toNat_lt hlength hsame).symm

theorem mem_alphabet_of_decodeChars {chars : List Char} {bits value : Nat} {bytes : Bytes}
    (h : decodeChars chars bits value = .ok bytes) : ∀ c ∈ chars, c ∈ alphabet := by
  induction chars generalizing bits value bytes with
  | nil => simp
  | cons char chars ih =>
    unfold decodeChars at h
    cases hindex : alphabet.idxOf? char with
    | none =>
      rw [hindex] at h
      cases h
    | some index =>
      have hmem : char ∈ alphabet := by
        by_contra hnot
        rw [List.idxOf?_eq_none_iff.2 hnot] at hindex
        cases hindex
      rw [hindex] at h
      dsimp only at h
      split at h
      · cases hrest : decodeChars chars (bits + 5 - 8) ((value <<< 5 ||| index) % 2 ^ 32) with
        | error e =>
          rw [hrest] at h
          cases h
        | ok rest => exact List.forall_mem_cons.2 ⟨hmem, ih hrest⟩
      · exact List.forall_mem_cons.2 ⟨hmem, ih h⟩

/-! ### Printings -/

/-- The strings of JavaScript, as far as Base32 is printed in them. -/
structure Prints (crypto : Crypto) : Prop where
  upper : ∀ text : String, (∀ c ∈ text.toList, c.toNat < 128 ∨ isSpace c = true) →
    (crypto.toUpperCase text).toList = text.toList.map Char.toUpper
  space : ∀ c, crypto.isSpace c = isSpace c

/-- The bytes in Base32: in either case, with white space anywhere and any padding at the end. -/
def Printing (bytes : Bytes) (text : String) : Prop :=
  ∃ n, (text.toList.filter fun c => !isSpace c).map Char.toUpper =
    (encodeBase32 bytes).toList ++ List.replicate n '='

/-- Nothing stands after the padding, and nothing in it. -/
def PaddedAtEnd (text : String) : Prop := ∀ before after, text.toList = before ++ '=' :: after → ∀ c ∈ after, c = '='

theorem toUpper_cases (c : Char) :
    (97 ≤ c.toNat ∧ c.toNat ≤ 122 ∧ c.toUpper.toNat = c.toNat - 32) ∨ c.toUpper = c := by
  unfold Char.toUpper
  split
  · rename_i h
    have hlow : 97 ≤ c.val.toNat := UInt32.le_iff_toNat_le.1 h.1
    have hhigh : c.val.toNat ≤ 122 := UInt32.le_iff_toNat_le.1 h.2
    have hdown : ('A'.val - 'a'.val).toNat = 2 ^ 32 - 32 := by decide
    refine .inl ⟨hlow, hhigh, ?_⟩
    show (c.val + ('A'.val - 'a'.val)).toNat = c.val.toNat - 32
    rw [UInt32.toNat_add, hdown]
    omega
  · exact .inr rfl

theorem isSpace_toUpper (c : Char) : isSpace c.toUpper = isSpace c := by
  rcases toUpper_cases c with ⟨hlow, hhigh, hupper⟩ | hsame
  · rw [isSpace_of_printed (by omega) (by omega), isSpace_of_printed (by omega) (by omega)]
  · rw [hsame]

theorem toUpper_eq_padding {c : Char} : c.toUpper = '=' ↔ c = '=' := by
  rcases toUpper_cases c with ⟨hlow, hhigh, hupper⟩ | hsame
  · have hpadding : '='.toNat = 61 := rfl
    constructor
    · intro h
      rw [h] at hupper
      omega
    · rintro rfl
      omega
  · rw [hsame]

theorem padding_not_mem_alphabet : '=' ∉ alphabet := by decide +kernel

theorem encodeBase32_plain (bytes : Bytes) : ∀ c ∈ (encodeBase32 bytes).toList, c ∈ alphabet := by
  unfold encodeBase32
  rw [String.toList_ofList]
  exact mem_alphabet_of_decodeChars (decodeChars_encodeBytes bytes)

theorem upper_of_printing {crypto : Crypto} (h : Prints crypto) {bytes : Bytes} {text : String}
    (hprinting : Printing bytes text) : (crypto.toUpperCase text).toList = text.toList.map Char.toUpper := by
  obtain ⟨n, hn⟩ := hprinting
  apply h.upper
  intro c hc
  cases hspace : isSpace c with
  | true => exact .inr rfl
  | false =>
    left
    have hmem : c.toUpper ∈ (encodeBase32 bytes).toList ++ List.replicate n '=' := by
      rw [← hn]
      exact List.mem_map_of_mem (List.mem_filter.2 ⟨hc, by simp [hspace]⟩)
    have hplain : c.toUpper.toNat < 128 := by
      have hall : ('=' :: alphabet).all (fun d => decide (d.toNat < 128)) = true := by decide +kernel
      refine of_decide_eq_true (List.all_eq_true.1 hall _ ?_)
      rcases List.mem_append.1 hmem with hletter | hpadding
      · exact List.mem_cons_of_mem _ (encodeBase32_plain bytes _ hletter)
      · rw [List.eq_of_mem_replicate hpadding]
        exact List.mem_cons_self
    rcases toUpper_cases c with ⟨-, hhigh, -⟩ | hsame
    · omega
    · rwa [hsame] at hplain

/-- A letter is only at the end of a list where taking it off there takes all of it off. -/
theorem only_at_end_iff {α : Type} [DecidableEq α] {a : α} {l : List α} :
    (∀ before after, l = before ++ a :: after → ∀ c ∈ after, c = a) ↔ a ∉ l.rdropWhile (· == a) := by
  have hparts : l.rdropWhile (· == a) ++ l.rtakeWhile (· == a) = l := List.rdropWhile_append_rtakeWhile
  have htail : ∀ c ∈ l.rtakeWhile (· == a), c = a := by
    intro c hc
    have := List.mem_rtakeWhile_imp hc
    exact eq_of_beq this
  have hlast : ∀ hne : l.rdropWhile (· == a) ≠ [], (l.rdropWhile (· == a)).getLast hne ≠ a := by
    intro hne heq
    exact List.rdropWhile_last_not _ _ hne (beq_iff_eq.2 heq)
  generalize l.rdropWhile (· == a) = kept at hparts hlast ⊢
  generalize l.rtakeWhile (· == a) = taken at hparts htail
  subst hparts
  constructor
  · intro h hmem
    obtain ⟨before, after, rfl⟩ := List.append_of_mem hmem
    have hafter := h before (after ++ taken) (by simp)
    apply hlast (by simp)
    cases after with
    | nil => simp
    | cons d after =>
      rw [List.getLast_append_of_ne_nil _ (List.cons_ne_nil _ _), List.getLast_cons (List.cons_ne_nil _ _)]
      exact hafter _ (List.mem_append_left _ (List.getLast_mem _))
  · intro h before after hsplit c hc
    rcases List.append_eq_append_iff.1 hsplit with ⟨middle, hbefore, hrest⟩ | ⟨middle, hhead, hrest⟩
    · apply htail
      rw [hrest]
      exact List.mem_append_right _ (List.mem_cons_of_mem _ hc)
    · cases middle with
      | nil =>
        apply htail
        rw [List.nil_append] at hrest
        rw [← hrest]
        exact List.mem_cons_of_mem _ hc
      | cons d middle =>
        obtain ⟨rfl, -⟩ := List.cons_eq_cons.1 hrest
        refine (h ?_).elim
        rw [hhead]
        simp

theorem eq_of_padded {α : Type} [DecidableEq α] {a : α} {xs ys : List α} {m n : Nat} (hx : a ∉ xs) (hy : a ∉ ys)
    (h : xs ++ List.replicate m a = ys ++ List.replicate n a) : xs = ys := by
  have hkeep : ∀ {zs : List α} (k : Nat), a ∉ zs → (zs ++ List.replicate k a).filter (fun c => !(c == a)) = zs := by
    intro zs k hz
    rw [List.filter_append, List.filter_replicate, if_neg (by simp), List.append_nil, List.filter_eq_self]
    intro c hc
    have hne : c ≠ a := by
      rintro rfl
      exact hz hc
    simpa using hne
  rw [← hkeep m hx, h, hkeep n hy]

/-- What `decodeBase32` reads of a printing. -/
theorem decodeBase32_printing {crypto : Crypto} (h : Prints crypto) {bytes : Bytes} {text : String}
    (hprinting : Printing bytes text) : decodeBase32 crypto text =
      decodeChars (((text.toList.rdropWhile (· == '=')).filter fun c => !isSpace c).map Char.toUpper) 0 0 := by
  have hspace : crypto.isSpace = isSpace := funext h.space
  have hstrip : (text.toList.map Char.toUpper).rdropWhile (· == '=') =
      (text.toList.rdropWhile (· == '=')).map Char.toUpper := by
    unfold List.rdropWhile
    rw [← List.map_reverse, List.dropWhile_map, List.map_reverse]
    congr 3
    funext c
    show (c.toUpper == '=') = (c == '=')
    rw [Bool.eq_iff_iff, beq_iff_eq, beq_iff_eq, toUpper_eq_padding]
  unfold decodeBase32
  rw [upper_of_printing h hprinting, hspace]
  show decodeChars (((text.toList.map Char.toUpper).rdropWhile (· == '=')).filter fun c => !isSpace c) 0 0 = _
  rw [hstrip, List.filter_map]
  congr 3
  funext c
  show (!isSpace c.toUpper) = !isSpace c
  rw [isSpace_toUpper]

theorem printing_read_iff {crypto : Crypto} (h : Prints crypto) {bytes : Bytes} {text : String}
    (hprinting : Printing bytes text) : decodeBase32 crypto text = .ok bytes ↔ PaddedAtEnd text := by
  unfold PaddedAtEnd
  rw [only_at_end_iff, decodeBase32_printing h hprinting]
  constructor
  · intro hread hmem
    apply padding_not_mem_alphabet
    apply mem_alphabet_of_decodeChars hread
    exact List.mem_map.2 ⟨'=', List.mem_filter.2 ⟨hmem, by decide⟩, by decide⟩
  · intro hnone
    obtain ⟨n, hn⟩ := hprinting
    have hparts : text.toList.rdropWhile (· == '=') ++ text.toList.rtakeWhile (· == '=') = text.toList :=
      List.rdropWhile_append_rtakeWhile
    have htail : text.toList.rtakeWhile (· == '=') =
        List.replicate (text.toList.rtakeWhile (· == '=')).length '=' :=
      List.eq_replicate_iff.2 ⟨rfl, fun c hc => by
        have := List.mem_rtakeWhile_imp hc
        exact eq_of_beq this⟩
    rw [← hparts, htail, List.filter_append, List.filter_replicate, if_pos (by decide), List.map_append,
      List.map_replicate] at hn
    have hupper : Char.toUpper '=' = '=' := by decide
    rw [hupper] at hn
    have hcode := eq_of_padded (fun hmem => ?_) (fun hmem => ?_) hn
    · rw [hcode, encodeBase32, String.toList_ofList]
      exact decodeChars_encodeBytes bytes
    · obtain ⟨c, hc, heq⟩ := List.mem_map.1 hmem
      rw [toUpper_eq_padding.1 heq] at hc
      exact hnone (List.mem_of_mem_filter hc)
    · exact padding_not_mem_alphabet (encodeBase32_plain bytes _ hmem)

/-- A printing is read back exactly where its padding is at its end; the bits that the accumulators lose are not
needed any more. -/
theorem base32_is_read_back {crypto : Crypto} (h : Prints crypto) :
    (∀ (bytes : Bytes) (text : String), Printing bytes text →
      (decodeBase32 crypto text = .ok bytes ↔ PaddedAtEnd text)) ∧
    (∀ bytes : Bytes, encodeBytes int32 bytes 0 0 = encodeBytes id bytes 0 0) ∧
    ∀ chars : List Char, decodeChars chars 0 0 = wideDecodeChars chars 0 0 :=
  ⟨fun _ _ hprinting => printing_read_iff h hprinting,
    fun bytes => encodeBytes_congr keeps_int32 keeps_id bytes (by omega) rfl,
    fun chars => decodeChars_eq_wide chars (by omega) rfl⟩

/-- Strings of ASCII letters. -/
def asciiCrypto : Crypto where
  scrypt _ _ _ _ _ _ := .error (.of "not in the sample")
  hmacSha1 _ _ := []
  fromBase64 _ := []
  number _ := .nan
  toUpperCase text := String.ofList (text.toList.map Char.toUpper)
  isSpace := isSpace

theorem prints_asciiCrypto : Prints asciiCrypto := ⟨fun _ _ => String.toList_ofList, fun _ => rfl⟩

theorem base32_is_read_back_ascii : decodeBase32 asciiCrypto "mf rg g===" = .ok [97, 98, 99] := by
  refine ((base32_is_read_back prints_asciiCrypto).1 [97, 98, 99] "mf rg g===" ⟨3, by decide +kernel⟩).2 ?_
  rw [PaddedAtEnd, only_at_end_iff]
  decide +kernel

/-- A line break after the padding, and the text is refused. -/
theorem line_break_after_padding : ¬ ∀ crypto : Crypto, Prints crypto → ∀ (bytes : Bytes) (text : String),
    Printing bytes text → decodeBase32 crypto text = .ok bytes := by
  intro h
  have hread := h asciiCrypto prints_asciiCrypto [97] "ME======\n" ⟨6, by decide +kernel⟩
  have hrefused : (decodeBase32 asciiCrypto "ME======\n").toOption = none := by decide +kernel
  rw [hread] at hrefused
  cases hrefused

end ConfigRegistry.Auth
