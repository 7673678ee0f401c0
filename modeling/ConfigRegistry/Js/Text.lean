import Mathlib.Data.List.Sort

/-!
# Texts in order

`[...new Set(values)].sort()`: the distinct values, in the order of their UTF-16 code units.
-/

namespace ConfigRegistry.Js

/-- A number is read back from its text. -/
theorem natText_injective {m n : Nat} (h : toString m = toString n) : m = n := by
  have hlist : Nat.toDigits 10 m = Nat.toDigits 10 n := by
    rw [← Nat.toList_repr, ← Nat.toList_repr]
    exact congrArg String.toList h
  rw [← Nat.ofDigitChars_ten_toDigits (n := m), hlist, Nat.ofDigitChars_ten_toDigits]

/-- No part of a text that is taken apart at a character has it. -/
theorem not_mem_of_splitOn {sep : Char} {cs piece : List Char} (h : piece ∈ cs.splitOn sep) : sep ∉ piece := by
  induction cs generalizing piece with
  | nil =>
    rw [List.splitOn_nil, List.mem_singleton] at h
    rw [h]
    exact List.not_mem_nil
  | cons c cs ih =>
    rw [List.splitOn, List.splitOnP_cons_eq_if_modifyHead] at h
    split at h
    · rcases List.mem_cons.1 h with rfl | h
      · exact List.not_mem_nil
      · exact ih h
    · rename_i hc
      cases hpieces : List.splitOnP (fun x => x == sep) cs with
      | nil => exact (List.splitOnP_ne_nil _ _ hpieces).elim
      | cons first rest =>
        rw [hpieces, List.modifyHead_cons] at h
        have hin : ∀ piece ∈ first :: rest, sep ∉ piece := fun piece hpiece => ih (by
          rw [List.splitOn, hpieces]
          exact hpiece)
        rcases List.mem_cons.1 h with rfl | h
        · intro hmem
          rcases List.mem_cons.1 hmem with rfl | hmem
          · exact hc (beq_self_eq_true _)
          · exact hin first List.mem_cons_self hmem
        · exact hin piece (List.mem_cons_of_mem _ h)

/-- The code units of a character. -/
def codeUnits (c : Char) : List Nat :=
  if c.toNat < 0x10000 then [c.toNat]
  else [0xD800 + (c.toNat - 0x10000) / 0x400, 0xDC00 + (c.toNat - 0x10000) % 0x400]

/-- Whether one sequence of code units comes before another, or is the same. -/
def unitsLe : List Nat → List Nat → Bool
  | [], _ => true
  | _ :: _, [] => false
  | m :: ms, n :: ns => m < n || (m == n && unitsLe ms ns)

/-- The order of `Array.prototype.sort` on strings. -/
def textLe (a b : String) : Bool :=
  unitsLe (a.toList.flatMap codeUnits) (b.toList.flatMap codeUnits)

/-- `values.sort()`. -/
def sortTexts (values : List String) : List String := values.insertionSort fun a b => textLe a b

/-- `[...new Set(values)].sort()`. -/
def distinctSorted (values : List String) : List String := sortTexts values.eraseDups

/-- A character is read back from its code units, whatever follows. -/
theorem codeUnits_append_inj {c d : Char} {ms ns : List Nat}
    (h : codeUnits c ++ ms = codeUnits d ++ ns) : c = d ∧ ms = ns := by
  have hscalar : ∀ e : Char, e.toNat < 1114112 ∧ (e.toNat < 55296 ∨ 57343 < e.toNat) := by
    intro e
    rcases e.valid with he | he
    · exact ⟨Nat.lt_trans he (by decide), .inl he⟩
    · exact ⟨he.2, .inr he.1⟩
  have hc := hscalar c
  have hd := hscalar d
  unfold codeUnits at h
  split at h
  · split at h
    · obtain ⟨h, hrest⟩ := List.cons.inj h
      exact ⟨Char.toNat_inj.1 h, hrest⟩
    · obtain ⟨h, -⟩ := List.cons.inj h
      omega
  · split at h
    · obtain ⟨h, -⟩ := List.cons.inj h
      omega
    · obtain ⟨hhigh, h⟩ := List.cons.inj h
      obtain ⟨hlow, hrest⟩ := List.cons.inj h
      refine ⟨Char.toNat_inj.1 ?_, hrest⟩
      omega

theorem codeUnits_ne_nil (c : Char) : codeUnits c ≠ [] := by
  unfold codeUnits
  split <;> simp

theorem flatMap_codeUnits_inj {cs ds : List Char} (h : cs.flatMap codeUnits = ds.flatMap codeUnits) :
    cs = ds := by
  induction cs generalizing ds with
  | nil =>
    cases ds with
    | nil => rfl
    | cons d ds =>
      rw [List.flatMap_nil, List.flatMap_cons] at h
      exact (codeUnits_ne_nil d (List.append_eq_nil_iff.1 h.symm).1).elim
  | cons c cs ih =>
    cases ds with
    | nil =>
      rw [List.flatMap_nil, List.flatMap_cons] at h
      exact (codeUnits_ne_nil c (List.append_eq_nil_iff.1 h).1).elim
    | cons d ds =>
      rw [List.flatMap_cons, List.flatMap_cons] at h
      obtain ⟨rfl, hrest⟩ := codeUnits_append_inj h
      rw [ih hrest]

theorem unitsLe_total (ms ns : List Nat) : unitsLe ms ns = true ∨ unitsLe ns ms = true := by
  induction ms generalizing ns with
  | nil => exact .inl rfl
  | cons m ms ih =>
    cases ns with
    | nil => exact .inr rfl
    | cons n ns =>
      simp only [unitsLe, Bool.or_eq_true, Bool.and_eq_true, decide_eq_true_eq, beq_iff_eq]
      have := ih ns
      by_cases h : m = n
      · subst h
        simpa using this
      · omega

theorem unitsLe_trans {ks ms ns : List Nat} (h : unitsLe ks ms = true) (h' : unitsLe ms ns = true) :
    unitsLe ks ns = true := by
  induction ks generalizing ms ns with
  | nil => rfl
  | cons k ks ih =>
    cases ms with
    | nil => cases h
    | cons m ms =>
      cases ns with
      | nil => cases h'
      | cons n ns =>
        simp only [unitsLe, Bool.or_eq_true, Bool.and_eq_true, decide_eq_true_eq, beq_iff_eq] at h h' ⊢
        rcases h with h | ⟨rfl, h⟩
        · rcases h' with h' | ⟨rfl, -⟩
          · exact .inl (by omega)
          · exact .inl h
        · exact h'.imp_right fun h' => ⟨h'.1, ih h h'.2⟩

theorem unitsLe_antisymm {ms ns : List Nat} (h : unitsLe ms ns = true) (h' : unitsLe ns ms = true) :
    ms = ns := by
  induction ms generalizing ns with
  | nil =>
    cases ns with
    | nil => rfl
    | cons n ns => cases h'
  | cons m ms ih =>
    cases ns with
    | nil => cases h
    | cons n ns =>
      simp only [unitsLe, Bool.or_eq_true, Bool.and_eq_true, decide_eq_true_eq, beq_iff_eq] at h h'
      rcases h with h | ⟨rfl, h⟩
      · omega
      · rw [ih h (h'.resolve_left (Nat.lt_irrefl _)).2]

instance : Std.Total fun a b : String => textLe a b = true := ⟨fun _ _ => unitsLe_total _ _⟩

instance : IsTrans String fun a b => textLe a b = true := ⟨fun _ _ _ => unitsLe_trans⟩

instance : Std.Antisymm fun a b : String => textLe a b = true :=
  ⟨fun _ _ h h' => String.toList_inj.1 (flatMap_codeUnits_inj (unitsLe_antisymm h h'))⟩

/-- Some text comes after all others. -/
theorem exists_last {values : List String} (h : values ≠ []) :
    ∃ last ∈ values, ∀ value ∈ values, textLe value last = true := by
  induction values with
  | nil => exact (h rfl).elim
  | cons value values ih =>
    by_cases hnil : values = []
    · subst hnil
      refine ⟨value, List.mem_cons_self, ?_⟩
      intro value' hvalue'
      rw [List.mem_singleton.1 hvalue']
      exact (unitsLe_total _ _).elim id id
    · obtain ⟨last, hlast, hall⟩ := ih hnil
      rcases unitsLe_total (value.toList.flatMap codeUnits) (last.toList.flatMap codeUnits) with hle | hle
      · exact ⟨last, List.mem_cons_of_mem _ hlast, List.forall_mem_cons.2 ⟨hle, hall⟩⟩
      · refine ⟨value, List.mem_cons_self, List.forall_mem_cons.2 ⟨?_, ?_⟩⟩
        · exact (unitsLe_total _ _).elim id id
        · exact fun value' hvalue' => unitsLe_trans (hall value' hvalue') hle

/-- Sorting forgets the order, and nothing else. -/
theorem sortTexts_eq_iff {values values' : List String} :
    sortTexts values = sortTexts values' ↔ values.Perm values' := by
  have hperm : ∀ values : List String, (sortTexts values).Perm values :=
    List.perm_insertionSort fun a b => textLe a b = true
  constructor
  · intro h
    exact (hperm values).symm.trans (h ▸ hperm values')
  · intro h
    apply List.Perm.eq_of_pairwise' (r := fun a b : String => textLe a b = true)
    · exact List.pairwise_insertionSort _ _
    · exact List.pairwise_insertionSort _ _
    · exact (hperm values).trans (h.trans (hperm values').symm)

/-- `[...new Set(values)]` holds each value once. -/
theorem nodup_eraseDups (values : List String) : values.eraseDups.Nodup := by
  induction hn : values.length using Nat.strongRecOn generalizing values with
  | ind n ih =>
    cases values with
    | nil => exact List.nodup_nil
    | cons value values =>
      rw [List.eraseDups_cons, List.nodup_cons, List.mem_eraseDups]
      have hlength := List.length_filter_le (fun b => !b == value) values
      rw [List.length_cons] at hn
      exact ⟨by simp, ih _ (by omega) _ rfl⟩

@[simp] theorem mem_sortTexts {value : String} {values : List String} :
    value ∈ sortTexts values ↔ value ∈ values := List.mem_insertionSort _

@[simp] theorem mem_distinctSorted {value : String} {values : List String} :
    value ∈ distinctSorted values ↔ value ∈ values := by
  rw [distinctSorted, mem_sortTexts, List.mem_eraseDups]

end ConfigRegistry.Js
