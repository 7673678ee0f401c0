import ConfigRegistry.Js.Runtime
import ConfigRegistry.Js.Text

/-!
# Records

Plain objects: their own enumerable keys, in order, with the values they hold. Each key occurs once
in what the YAML package returns; nothing here depends on it.
-/

namespace ConfigRegistry.Js

/-- `Record<string, unknown>`. -/
abbrev Record : Type := List (String × Value)

namespace Record

variable (r : Record)

/-- `Object.keys(r)`. -/
def keys : List String := r.map Prod.fst

/-- `Object.hasOwn(r, key)`. -/
def has (key : String) : Bool := (r.lookup key).isSome

/-- `r[key] = value`: a key that is there keeps its place. -/
def set : Record → String → Value → Record
  | [], key, value => [(key, value)]
  | (k, v) :: rest, key, value =>
    if k = key then (k, value) :: rest else (k, v) :: set rest key value

/-- `Object.assign(r, other)`. -/
def assign (other : Record) : Record := other.foldl (fun r f => r.set f.1 f.2) r

/-- `delete r[key]`. -/
def delete (key : String) : Record := r.filter fun f => f.1 != key

/-- `delete r[key]` for each of the keys. -/
def deleteAll (keys : List String) : Record := r.filter fun f => !keys.contains f.1

end Record

/-- `value.key = v`; the code writes to mappings only. -/
def Value.set (value : Value) (key : String) (v : Value) : Value :=
  match value with
  | .obj fields => .obj (Record.set fields key v)
  | _ => value

/-- `delete value.key`. -/
def Value.delete (value : Value) (key : String) : Value :=
  match value with
  | .obj fields => .obj (Record.delete fields key)
  | _ => value

/-- `(value ?? {}) as Record<string, unknown>`. -/
def Value.record : Option Value → Record
  | some (.obj fields) => fields
  | _ => []

namespace Value

mutual

/-- `isDeepStrictEqual`: the order of keys does not matter. -/
def deepEqual : Value → Value → Bool
  | .null, .null => true
  | .bool a, .bool b => a == b
  | .num m, .num n => m == n
  | .str s, .str t => s == t
  | .arr xs, .arr ys => deepEqualItems xs ys
  | .obj fs, .obj gs => fs.length == gs.length && deepEqualFields fs gs
  | _, _ => false
termination_by structural v => v

def deepEqualItems : List Value → List Value → Bool
  | [], [] => true
  | x :: xs, y :: ys => deepEqual x y && deepEqualItems xs ys
  | _, _ => false
termination_by structural xs => xs

/-- Each field of the first is in the second. -/
def deepEqualFields : List (String × Value) → List (String × Value) → Bool
  | [], _ => true
  | f :: fs, gs => deepEqualField f gs && deepEqualFields fs gs
termination_by structural fs => fs

def deepEqualField : (String × Value) → List (String × Value) → Bool
  | (k, v), gs =>
    match gs.lookup k with
    | some w => deepEqual v w
    | none => false
termination_by structural f => f

end

end Value

/-- `isDeepStrictEqual` of two fields that may be absent. -/
def sameField : Option Value → Option Value → Bool
  | some v, some w => v.deepEqual w
  | none, none => true
  | _, _ => false

namespace Record

variable {r : Record} {key k : String} {value v : Value}

theorem has_eq_true : r.has key = true ↔ ∃ v, r.lookup key = some v := Option.isSome_iff_exists

theorem mem_keys : key ∈ r.keys ↔ ∃ v, (key, v) ∈ r := by
  simp [keys]

theorem mem_of_lookup {r : Record} (h : r.lookup key = some v) : (key, v) ∈ r := by
  induction r with
  | nil => cases h
  | cons f r ih =>
    obtain ⟨k, w⟩ := f
    rw [List.lookup_cons] at h
    split at h
    · rename_i heq
      obtain rfl := eq_of_beq heq
      cases h
      exact List.mem_cons_self
    · exact List.mem_cons_of_mem _ (ih h)

theorem lookup_isSome_of_mem {r : Record} (h : (key, v) ∈ r) : ∃ w, r.lookup key = some w := by
  induction r with
  | nil => cases h
  | cons f r ih =>
    obtain ⟨k, w⟩ := f
    rw [List.lookup_cons]
    split
    · exact ⟨w, rfl⟩
    · rename_i hne
      rcases List.mem_cons.1 h with heq | h
      · obtain ⟨rfl, rfl⟩ := Prod.mk.inj heq
        simp at hne
      · exact ih h

@[simp] theorem lookup_set_self (r : Record) (key : String) (value : Value) :
    (r.set key value).lookup key = some value := by
  induction r with
  | nil => simp [set]
  | cons f r ih =>
    obtain ⟨k, v⟩ := f
    rw [set]
    split
    · rename_i h
      simp [h]
    · rename_i h
      rw [List.lookup_cons, beq_false_of_ne (Ne.symm h), ih]

theorem lookup_set_ne (r : Record) (value : Value) (h : k ≠ key) :
    (r.set key value).lookup k = r.lookup k := by
  induction r with
  | nil => simp [set, h]
  | cons f r ih =>
    obtain ⟨k', v⟩ := f
    rw [set]
    split
    · rename_i hk
      rw [List.lookup_cons, List.lookup_cons, hk, beq_false_of_ne h]
    · rw [List.lookup_cons, List.lookup_cons, ih]

theorem mem_set {r : Record} (h : (k, v) ∈ r.set key value) : (k, v) ∈ r ∨ k = key ∧ v = value := by
  induction r with
  | nil => exact .inr (by simpa [set] using h)
  | cons f r ih =>
    obtain ⟨k', w⟩ := f
    rw [set] at h
    split at h
    · rename_i hk
      rcases List.mem_cons.1 h with heq | h
      · obtain ⟨rfl, rfl⟩ := Prod.mk.inj heq
        exact .inr ⟨hk, rfl⟩
      · exact .inl (List.mem_cons_of_mem _ h)
    · rcases List.mem_cons.1 h with heq | h
      · exact .inl (heq ▸ List.mem_cons_self)
      · exact (ih h).imp_left (List.mem_cons_of_mem _)

theorem lookup_filter {r : Record} (p : String → Bool) :
    (r.filter fun f => p f.1).lookup key = if p key then r.lookup key else none := by
  induction r with
  | nil => simp
  | cons f r ih =>
    obtain ⟨k, v⟩ := f
    by_cases hk : key = k
    · subst hk
      by_cases hp : p key
      · simp [hp]
      · rw [List.filter_cons_of_neg (by simpa using hp), ih]
        simp [hp]
    · have hb : (key == k) = false := by simpa using hk
      by_cases hp : p k
      · rw [List.filter_cons_of_pos (by simpa using hp), List.lookup_cons, hb, List.lookup_cons, hb, ih]
      · rw [List.filter_cons_of_neg (by simpa using hp), List.lookup_cons, hb, ih]

theorem lookup_delete (r : Record) (key k : String) :
    (r.delete key).lookup k = if k = key then none else r.lookup k := by
  rw [delete, lookup_filter fun k => k != key]
  by_cases h : k = key <;> simp [h]

end Record

end ConfigRegistry.Js
