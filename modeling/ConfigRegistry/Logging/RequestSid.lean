import ConfigRegistry.Json.Text
import ConfigRegistry.Text.Digits
import Mathlib.Data.Char
import Mathlib.Data.List.Chain
import Mathlib.Data.String.Basic

/-!
# The names of requests

`src/logging/request-sid.ts`: a name starts with the millisecond and a counter, so that names sort as they were
minted. The clock of the machine and the random bytes are the caller's.
-/

namespace ConfigRegistry.Logging.RequestSid

open Text Json

/-- `lastMs` and `counter`. -/
structure Sid where
  lastMs : Nat := 0
  counter : Nat := 0
  deriving Repr, DecidableEq

/-- What one name takes from outside: `Date.now()`, `randomBytes(16)` and `randomBytes(2).readUInt16BE(0)`. -/
structure Draw where
  now : Nat
  bytes : Vector UInt8 16
  fresh : UInt16
  deriving Repr, DecidableEq

def Draw.counter (d : Draw) : Nat := d.fresh.toNat &&& 0x7ff

def Sid.tick (s : Sid) (d : Draw) : Sid :=
  if d.now = s.lastMs then
    if s.counter + 1 > 0xfff then ⟨s.lastMs + 1, d.counter⟩ else ⟨s.lastMs, s.counter + 1⟩
  else ⟨max d.now s.lastMs, d.counter⟩

/-- The bytes that follow the counter. -/
def Draw.rest (d : Draw) : List Nat :=
  (d.bytes[8].toNat &&& 0x3f ||| 0x80) :: (d.bytes.toList.drop 9).map UInt8.toNat

def bytesOf (s : Sid) (d : Draw) : List Nat :=
  [s.lastMs / 2 ^ 40 &&& 0xff, s.lastMs / 2 ^ 32 &&& 0xff, s.lastMs / 2 ^ 24 &&& 0xff, s.lastMs / 2 ^ 16 &&& 0xff,
    s.lastMs / 2 ^ 8 &&& 0xff, s.lastMs &&& 0xff, 0x70 ||| (s.counter >>> 8 &&& 0x0f), s.counter &&& 0xff] ++ d.rest

/-- `bytes.toString('hex')`. -/
def hex (bytes : List Nat) : List Char := bytes.flatMap fun b => [hexDigit (b / 16), hexDigit (b % 16)]

/-- The hyphens of an identifier. -/
def grouped (h : List Char) : List Char :=
  h.take 8 ++ '-' :: ((h.drop 8).take 4 ++ '-' ::
    ((h.drop 12).take 4 ++ '-' :: ((h.drop 16).take 4 ++ '-' :: h.drop 20)))

/-- `uuidv7`, with the state after the call. -/
def uuidv7 (s : Sid) (d : Draw) : Sid × String :=
  (s.tick d, String.ofList (grouped (hex (bytesOf (s.tick d) d))))

def mintRequestSid (s : Sid) (d : Draw) : Sid × String :=
  ((uuidv7 s d).1, "sid_" ++ (uuidv7 s d).2)

/-- The names of a run of requests. -/
def mintAll (s : Sid) : List Draw → List String
  | [] => []
  | d :: ds => (mintRequestSid s d).2 :: mintAll (mintRequestSid s d).1 ds

/-! ### The text of a name -/

theorem hexDigit_lt (i j : Nat) (hij : i < j) (hj : j < 16) : hexDigit i < hexDigit j := by
  have hall : ∀ j < 16, ∀ i < j, hexDigit i < hexDigit j := by decide
  exact hall j hj i hij

theorem hex_cons (b : Nat) (bytes : List Nat) :
    hex (b :: bytes) = hexDigit (b / 16) :: hexDigit (b % 16) :: hex bytes := rfl

theorem length_hex (bytes : List Nat) : (hex bytes).length = 2 * bytes.length := by
  induction bytes with
  | nil => rfl
  | cons b bytes ih =>
    rw [hex_cons, List.length_cons, List.length_cons, ih, List.length_cons]
    omega

theorem length_hex_bytesOf (s : Sid) (d : Draw) : (hex (bytesOf s d)).length = 32 := by
  simp [length_hex, bytesOf, Draw.rest]

/-- The four bits of the version stand above the counter's. -/
theorem version_byte {counter : Nat} (h : counter < 2 ^ 12) :
    0x70 ||| (counter >>> 8 &&& 0x0f) = 0x70 + counter / 256 := by
  have hhigh : counter >>> 8 &&& 0x0f = counter / 256 := by
    rw [Nat.shiftRight_eq_div_pow, show 0x0f = 2 ^ 4 - 1 from rfl, Nat.and_two_pow_sub_one_eq_mod]
    omega
  have hlow : counter / 256 < 2 ^ 4 := by omega
  rw [hhigh]
  exact (Nat.two_pow_add_eq_or_of_lt hlow 7).symm

/-- The millisecond comes first, and the counter behind the version. -/
theorem hex_bytesOf {s : Sid} (hcounter : s.counter < 2 ^ 12) (d : Draw) :
    hex (bytesOf s d) =
      digits 16 hexDigit 12 s.lastMs ++ '7' :: (digits 16 hexDigit 3 s.counter ++ hex d.rest) := by
  have hbyte : ∀ n, n &&& 0xff = n % 256 := fun n => Nat.and_two_pow_sub_one_eq_mod n 8
  have hseven : hexDigit ((0x70 + s.counter / 256) / 16) = '7' := by
    rw [show (0x70 + s.counter / 256) / 16 = 7 by omega]
    rfl
  have hlow : ∀ n, n % 256 % 16 = n % 16 := fun n => by omega
  have hhigh : ∀ n, n % 256 / 16 = n / 16 % 16 := fun n => by omega
  simp only [bytesOf, version_byte hcounter, hbyte, List.cons_append, List.nil_append, hex_cons, hseven, hlow, hhigh,
    digits, Nat.div_div_eq_div_mul]
  norm_num
  rw [show (112 + s.counter / 256) % 16 = s.counter / 256 % 16 by omega]

theorem grouped_lt_iff {h h' : List Char} (hlength : h.length = 32) (hlength' : h'.length = 32) :
    grouped h < grouped h' ↔ h < h' := by
  have hsplit : ∀ k : List Char, k =
      k.take 8 ++ ((k.drop 8).take 4 ++ ((k.drop 12).take 4 ++ ((k.drop 16).take 4 ++ k.drop 20))) := by
    intro k
    have hdrop : ∀ i j, k.drop (i + j) = (k.drop i).drop j := fun i j => by rw [List.drop_drop]
    rw [hdrop 16 4, List.take_append_drop, hdrop 12 4, List.take_append_drop, hdrop 8 4, List.take_append_drop,
      List.take_append_drop]
  have htake : ∀ i j, ((h.drop i).take j).length = ((h'.drop i).take j).length := by
    intro i j
    rw [List.length_take, List.length_take, List.length_drop, List.length_drop, hlength, hlength']
  have hfirst : (h.take 8).length = (h'.take 8).length := htake 0 8
  conv_rhs => rw [hsplit h, hsplit h']
  simp only [grouped, append_lt_append_iff hfirst, append_lt_append_iff (htake _ _), List.cons_lt_cons_iff, lt_irrefl,
    false_or, true_and]

/-! ### The order of names -/

/-- The state a clock leaves behind that has not run out of its forty-eight bits. -/
structure Sid.Fits (s : Sid) : Prop where
  lastMs : s.lastMs < 2 ^ 48
  counter : s.counter < 2 ^ 12

theorem Draw.counter_lt (d : Draw) : d.counter < 2 ^ 11 :=
  Nat.and_lt_two_pow _ (by decide)

theorem Sid.tick_fits {s : Sid} (hs : s.Fits) {d : Draw} (hd : d.now + 1 < 2 ^ 48) : (s.tick d).Fits := by
  have hfresh := d.counter_lt
  have hms := hs.lastMs
  have hcounter := hs.counter
  rw [Sid.tick]
  split_ifs with hnow hfull
  · exact ⟨by simp only; omega, by simp only; omega⟩
  · exact ⟨hms, by simp only; omega⟩
  · exact ⟨by simp only; omega, by simp only; omega⟩

/-- A name is ordered by its millisecond, its counter and its random bytes. -/
theorem uuidv7_lt_iff {s t : Sid} {d e : Draw} (hs : (s.tick d).Fits) (ht : (t.tick e).Fits) :
    (mintRequestSid s d).2 < (mintRequestSid t e).2 ↔
      (s.tick d).lastMs < (t.tick e).lastMs ∨ (s.tick d).lastMs = (t.tick e).lastMs ∧
        ((s.tick d).counter < (t.tick e).counter ∨
          (s.tick d).counter = (t.tick e).counter ∧ hex d.rest < hex e.rest) := by
  have hwide : (2 : Nat) ^ 48 = 16 ^ 12 := by norm_num
  have hnarrow : (2 : Nat) ^ 12 = 16 ^ 3 := by norm_num
  have hsame : ∀ a b : String, "sid_" ++ a < "sid_" ++ b ↔ a.toList < b.toList := by
    intro a b
    rw [String.lt_iff_toList_lt, String.toList_append, String.toList_append, append_lt_append_iff rfl]
    simp
  rw [mintRequestSid, mintRequestSid, hsame, uuidv7, uuidv7, String.toList_ofList, String.toList_ofList,
    grouped_lt_iff (length_hex_bytesOf _ _) (length_hex_bytesOf _ _), hex_bytesOf hs.counter, hex_bytesOf ht.counter,
    append_lt_append_iff (by simp), List.cons_lt_cons_iff, append_lt_append_iff (by simp),
    digits_lt_iff hexDigit_lt (hwide ▸ hs.lastMs) (hwide ▸ ht.lastMs),
    digits_inj hexDigit_lt (hwide ▸ hs.lastMs) (hwide ▸ ht.lastMs),
    digits_lt_iff hexDigit_lt (hnarrow ▸ hs.counter) (hnarrow ▸ ht.counter),
    digits_inj hexDigit_lt (hnarrow ▸ hs.counter) (hnarrow ▸ ht.counter)]
  simp

/-- The clock has not gone back behind the last name, or the fresh counter and bytes stand above its own. -/
def Ascends (s : Sid) (d e : Draw) : Prop :=
  s.lastMs ≤ e.now ∨ s.counter < e.counter ∨ s.counter = e.counter ∧ hex d.rest < hex e.rest

/-- It is so from every name of a run to the next. -/
def AllAscend (s : Sid) (d : Draw) : List Draw → Prop
  | [] => True
  | e :: es => Ascends s d e ∧ AllAscend (s.tick e) e es

instance (s : Sid) (d e : Draw) : Decidable (Ascends s d e) :=
  inferInstanceAs (Decidable (_ ∨ _ ∨ _ ∧ _))

instance AllAscend.decide : (s : Sid) → (d : Draw) → (ds : List Draw) → Decidable (AllAscend s d ds)
  | _, _, [] => .isTrue trivial
  | s, _, e :: es => @instDecidableAnd _ _ _ (AllAscend.decide (s.tick e) e es)

/-- A full counter moves the millisecond on, so only a clock that is behind can break the order. -/
theorem next_lt_iff {s t : Sid} {d e : Draw} (ht : t = s.tick d) (hfits : t.Fits) (he : e.now + 1 < 2 ^ 48) :
    (mintRequestSid s d).2 < (mintRequestSid t e).2 ↔ Ascends t d e := by
  subst ht
  rw [uuidv7_lt_iff hfits (Sid.tick_fits hfits he), Ascends]
  generalize s.tick d = t
  rw [Sid.tick]
  split_ifs with hnow hfull
  · simp only [Nat.lt_succ_self, true_or, true_iff]
    exact .inl hnow.ge
  · simp [hnow]
  · rcases Nat.lt_or_gt_of_ne hnow with hback | hforward
    · simp only [Nat.max_eq_right (Nat.le_of_lt hback), lt_irrefl, false_or, true_and, Nat.not_le.2 hback]
    · simp only [Nat.max_eq_left (Nat.le_of_lt hforward), hforward, true_or, true_iff]
      exact .inl (Nat.le_of_lt hforward)

theorem isChain_iff {s : Sid} {d : Draw} (ds : List Draw) (hfits : (s.tick d).Fits)
    (hclock : ∀ e ∈ ds, e.now + 1 < 2 ^ 48) :
    (mintAll s (d :: ds)).IsChain (· < ·) ↔ AllAscend (s.tick d) d ds := by
  induction ds generalizing s d with
  | nil => simp [mintAll, AllAscend]
  | cons e es ih =>
    have he : e.now + 1 < 2 ^ 48 := hclock e (List.mem_cons_self ..)
    have hes : ∀ e' ∈ es, e'.now + 1 < 2 ^ 48 := fun e' h => hclock e' (List.mem_cons_of_mem _ h)
    have hstep : (mintRequestSid s d).1 = s.tick d := rfl
    rw [AllAscend, ← ih (Sid.tick_fits hfits he) hes, ← next_lt_iff rfl hfits he]
    simp only [mintAll, List.isChain_cons_cons, hstep]

theorem fresh_fits : Sid.Fits {} := ⟨by decide, by decide⟩

/-- The names of a run sort as they were minted exactly where every next one does. -/
theorem sids_ascend_iff (d : Draw) (ds : List Draw) (hclock : ∀ e ∈ d :: ds, e.now + 1 < 2 ^ 48) :
    (mintAll {} (d :: ds)).Pairwise (· < ·) ↔ AllAscend (Sid.tick {} d) d ds := by
  rw [← List.isChain_iff_pairwise]
  exact isChain_iff ds (Sid.tick_fits fresh_fits (hclock d (List.mem_cons_self ..)))
    fun e he => hclock e (List.mem_cons_of_mem _ he)

/-- A clock that went back by a millisecond, and a counter that starts lower. -/
theorem sids_ascend_iff_back :
    ¬ (mintAll {} [⟨5, Vector.replicate 16 0, 7⟩, ⟨5, Vector.replicate 16 0, 0⟩,
      ⟨4, Vector.replicate 16 0, 3⟩]).Pairwise (· < ·) := by
  rw [sids_ascend_iff _ _ (by decide)]
  decide

/-! ### A steady clock -/

/-- The moments still to come lie ahead, and the counter has room for those of this millisecond. -/
structure Room (s : Sid) (moments : List Nat) : Prop where
  ahead : ∀ now ∈ moments, s.lastMs ≤ now
  counter : s.counter + moments.count s.lastMs ≤ 0xfff
  steady : moments.Pairwise (· ≤ ·)
  rate : ∀ ms, moments.count ms ≤ 2049

theorem Room.tick {s : Sid} {e : Draw} {moments : List Nat} (h : Room s (e.now :: moments)) :
    Room (s.tick e) moments := by
  have hfresh := e.counter_lt
  have hcounter := h.counter
  have hahead := h.ahead e.now (List.mem_cons_self ..)
  have hsteady := List.pairwise_cons.1 h.steady
  have hrate : ∀ ms, moments.count ms ≤ 2049 := fun ms => by
    have := h.rate ms
    rw [List.count_cons] at this
    omega
  have hnext : ∀ {t : Sid}, t.lastMs = e.now → t.counter + moments.count e.now ≤ 0xfff → Room t moments :=
    fun hms hroom => ⟨fun now hnow => hms.symm ▸ hsteady.1 now hnow, hms.symm ▸ hroom, hsteady.2, hrate⟩
  rw [List.count_cons] at hcounter
  rw [Sid.tick]
  split_ifs with hnow hfull
  · simp only [hnow, beq_self_eq_true, if_true] at hcounter
    omega
  · simp only [hnow, beq_self_eq_true, if_true] at hcounter
    exact hnext hnow.symm (by simp only [hnow]; omega)
  · have hthis := h.rate e.now
    rw [List.count_cons_self] at hthis
    exact hnext (Nat.max_eq_left hahead) (by simp only; omega)

theorem Room.allAscend {s : Sid} {d : Draw} {ds : List Draw} (h : Room s (ds.map (·.now))) : AllAscend s d ds := by
  induction ds generalizing s d with
  | nil => trivial
  | cons e es ih => exact ⟨.inl (h.ahead e.now (List.mem_cons_self ..)), ih h.tick⟩

/-- With a clock that never goes back, and at most 2049 names in a millisecond, all names sort as they were minted. -/
theorem sids_ascend_of_steady (ds : List Draw) (hclock : ∀ e ∈ ds, e.now + 1 < 2 ^ 48)
    (hsteady : (ds.map (·.now)).Pairwise (· ≤ ·)) (hrate : ∀ ms, (ds.map (·.now)).count ms ≤ 2049) :
    (mintAll {} ds).Pairwise (· < ·) := by
  cases ds with
  | nil => exact List.Pairwise.nil
  | cons d ds =>
    have hroom : Room {} ((d :: ds).map (·.now)) := by
      refine ⟨fun now _ => Nat.zero_le now, ?_, hsteady, hrate⟩
      have := hrate 0
      simp only
      omega
    rw [← List.isChain_iff_pairwise, isChain_iff ds (Sid.tick_fits fresh_fits (hclock d (List.mem_cons_self ..)))
      fun e he => hclock e (List.mem_cons_of_mem _ he)]
    exact hroom.tick.allAscend

theorem sids_ascend_of_steady_busy :
    (mintAll {} [⟨5, Vector.replicate 16 9, 7⟩, ⟨5, Vector.replicate 16 0, 0⟩,
      ⟨6, Vector.replicate 16 0, 3⟩]).Pairwise (· < ·) :=
  sids_ascend_of_steady _ (by decide) (by decide)
    fun _ => Nat.le_trans List.count_le_length (by decide)

end ConfigRegistry.Logging.RequestSid
