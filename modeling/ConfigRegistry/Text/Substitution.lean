import Mathlib.Data.List.Basic

/-!
# Substituting letters

Texts in which letters are replaced by codes, one letter after the other, and which are read back. The letters are of
any type.
-/

namespace ConfigRegistry.Text

variable {α : Type} [DecidableEq α]

/-- Every occurrence of a letter is replaced. -/
def replaceAll (letter : α) (code text : List α) : List α := text.flatMap fun c => if c = letter then code else [c]

/-- The letters of the table are replaced, one pass for each. -/
def replaceEach (table : List (α × List α)) (text : List α) : List α :=
  table.foldl (fun text e => replaceAll e.1 e.2 text) text

/-- What a letter becomes where all are replaced at once. -/
def codeOf (table : List (α × List α)) (c : α) : List α := (table.lookup c).getD [c]

/-- No pass touches what an earlier one has written. -/
def Settled (table : List (α × List α)) : Prop := table.Pairwise fun e f => f.1 ∉ e.2

instance (table : List (α × List α)) : Decidable (Settled table) :=
  inferInstanceAs (Decidable (table.Pairwise fun e f => f.1 ∉ e.2))

/-- Every code, read where it begins. -/
def readFrom (table : List (α × List α)) : Nat → List α → List α
  | _, [] => []
  | n + 1, _ :: cs => readFrom table n cs
  | 0, c :: cs =>
    match table.find? fun e => e.2.isPrefixOf (c :: cs) with
    | some e => e.1 :: readFrom table (e.2.length - 1) cs
    | none => c :: readFrom table 0 cs

/-- The codes of a text are read once, from left to right. -/
def readBack (table : List (α × List α)) (text : List α) : List α := readFrom table 0 text

/-- The codes begin with the mark and have no other; the mark has a code too, and no code begins another. -/
structure Marked (table : List (α × List α)) (mark : α) : Prop where
  marked : ∀ e ∈ table, ∃ rest, e.2 = mark :: rest ∧ mark ∉ rest
  replaced : ∃ e ∈ table, e.1 = mark
  prefixFree : ∀ e ∈ table, ∀ f ∈ table, e.2 <+: f.2 → e = f

variable {table : List (α × List α)} {mark : α}

theorem codeOf_cons (e : α × List α) (c : α) : codeOf (e :: table) c = if c = e.1 then e.2 else codeOf table c := by
  unfold codeOf
  rw [List.lookup_cons]
  by_cases h : c = e.1
  · rw [if_pos h, h, beq_self_eq_true]
    rfl
  · rw [if_neg h, beq_false_of_ne h]

theorem codeOf_of_not_mem {c : α} (h : ∀ e ∈ table, e.1 ≠ c) : codeOf table c = [c] := by
  induction table with
  | nil => rfl
  | cons e table ih =>
    rw [codeOf_cons, if_neg (h e List.mem_cons_self).symm]
    exact ih fun f hf => h f (List.mem_cons_of_mem _ hf)

/-- A letter is left, or has a code of the table. -/
theorem codeOf_cases (table : List (α × List α)) (c : α) :
    (∀ e ∈ table, e.1 ≠ c) ∧ codeOf table c = [c] ∨ ∃ e ∈ table, e.1 = c ∧ codeOf table c = e.2 := by
  induction table with
  | nil => exact .inl ⟨by simp, rfl⟩
  | cons e table ih =>
    rw [codeOf_cons]
    by_cases h : c = e.1
    · exact .inr ⟨e, List.mem_cons_self, h.symm, if_pos h⟩
    · rw [if_neg h]
      rcases ih with ⟨hnone, hcode⟩ | ⟨f, hf, hkey, hcode⟩
      · exact .inl ⟨List.forall_mem_cons.2 ⟨Ne.symm h, hnone⟩, hcode⟩
      · exact .inr ⟨f, List.mem_cons_of_mem _ hf, hkey, hcode⟩

theorem flatMap_codeOf_of_not_mem {text : List α} (h : ∀ e ∈ table, e.1 ∉ text) : text.flatMap (codeOf table) = text := by
  induction text with
  | nil => rfl
  | cons c text ih =>
    rw [List.flatMap_cons, codeOf_of_not_mem fun e he heq => h e he (heq ▸ List.mem_cons_self),
      ih fun e he hmem => h e he (List.mem_cons_of_mem _ hmem)]
    rfl

/-- Where no pass touches what an earlier one has written, the passes replace every letter at once. -/
theorem replaceEach_eq (h : Settled table) (text : List α) : replaceEach table text = text.flatMap (codeOf table) := by
  induction table generalizing text with
  | nil =>
    show text = text.flatMap fun c => [c]
    exact (List.flatMap_singleton' text).symm
  | cons e table ih =>
    obtain ⟨hlater, h⟩ := List.pairwise_cons.1 h
    show replaceEach table (replaceAll e.1 e.2 text) = _
    rw [ih h, replaceAll, List.flatMap_assoc]
    congr 1
    funext c
    rw [codeOf_cons]
    split
    · exact flatMap_codeOf_of_not_mem hlater
    · simp

theorem readFrom_drop (n : Nat) (text : List α) : readFrom table n text = readFrom table 0 (text.drop n) := by
  induction n generalizing text with
  | zero => rfl
  | succ n ih =>
    cases text with
    | nil => rfl
    | cons c text => exact ih text

/-- At the beginning of a code, it is the only one that can be read. -/
theorem Marked.find_code (h : Marked table mark) {e : α × List α} (he : e ∈ table) (text : List α) :
    table.find? (fun f => f.2.isPrefixOf (e.2 ++ text)) = some e := by
  have honly : ∀ f ∈ table, f.2.isPrefixOf (e.2 ++ text) = true → f = e := by
    intro f hf hprefix
    rw [List.isPrefixOf_iff_prefix] at hprefix
    rcases List.prefix_or_prefix_of_prefix hprefix (List.prefix_append e.2 text) with hfe | hef
    · exact h.prefixFree f hf e he hfe
    · exact (h.prefixFree e he f hf hef).symm
  cases hfind : table.find? fun f => f.2.isPrefixOf (e.2 ++ text) with
  | none =>
    have := List.find?_eq_none.1 hfind e he
    simp at this
  | some f =>
    have hprefix := List.find?_some hfind
    rw [honly f (List.mem_of_find?_eq_some hfind) hprefix]

/-- Where there is no mark, no code begins. -/
theorem Marked.find_letter (h : Marked table mark) {c : α} (hc : c ≠ mark) (text : List α) :
    table.find? (fun f => f.2.isPrefixOf (c :: text)) = none := by
  apply List.find?_eq_none.2
  intro f hf hprefix
  obtain ⟨rest, hcode, -⟩ := h.marked f hf
  rw [hcode, List.isPrefixOf_iff_prefix, List.cons_prefix_cons] at hprefix
  exact hc hprefix.1.symm

/-- By induction on the text: a code is read as its letter, and a letter that has none is left. -/
theorem Marked.readBack_codes (h : Marked table mark) (text : List α) :
    readBack table (text.flatMap (codeOf table)) = text := by
  induction text with
  | nil => rfl
  | cons c text ih =>
    rw [List.flatMap_cons]
    unfold readBack at ih ⊢
    rcases codeOf_cases table c with ⟨hnone, hcode⟩ | ⟨e, he, hkey, hcode⟩
    · have hmark : c ≠ mark := by
        rintro rfl
        obtain ⟨e, he, hkey⟩ := h.replaced
        exact hnone e he hkey
      rw [hcode, List.singleton_append, readFrom, h.find_letter hmark]
      exact congrArg (c :: ·) ih
    · obtain ⟨rest, hrest, -⟩ := h.marked e he
      have hfind := h.find_code he (text.flatMap (codeOf table))
      rw [hcode]
      rw [hrest, List.cons_append] at hfind ⊢
      rw [readFrom, hfind]
      dsimp only
      rw [readFrom_drop, hrest, List.length_cons, Nat.add_sub_cancel, List.drop_left, ih, hkey]

/-- Every mark begins a code. -/
theorem Marked.begins (h : Marked table mark) {text before after : List α}
    (htext : text.flatMap (codeOf table) = before ++ mark :: after) : ∃ e ∈ table, e.2 <+: mark :: after := by
  induction text generalizing before with
  | nil => simp at htext
  | cons c text ih =>
    rw [List.flatMap_cons] at htext
    -- The mark stands in what the first letter became, or further on.
    rcases List.append_eq_append_iff.1 htext with ⟨middle, rfl, hlater⟩ | ⟨middle, hcode, hafter⟩
    · exact ih hlater
    · cases middle with
      | nil => exact @ih [] (by simpa using hafter.symm)
      | cons d middle =>
        obtain ⟨rfl, rfl⟩ := List.cons_eq_cons.1 hafter
        rcases codeOf_cases table c with ⟨hnone, hsame⟩ | ⟨e, he, -, hsame⟩
        · rw [hsame] at hcode
          obtain ⟨e, he, hkey⟩ := h.replaced
          have hmem : mark ∈ [c] := by
            rw [hcode]
            simp
          exact (hnone e he (hkey.trans (List.mem_singleton.1 hmem))).elim
        · obtain ⟨rest, hrest, hplain⟩ := h.marked e he
          rw [hsame, hrest] at hcode
          cases before with
          | nil =>
            obtain ⟨-, rfl⟩ := List.cons_eq_cons.1 hcode
            exact ⟨e, he, by rw [hrest]; exact List.prefix_append _ _⟩
          | cons b before =>
            obtain ⟨-, rfl⟩ := List.cons_eq_cons.1 hcode
            exact (hplain (by simp)).elim

/-- Only the letters that are left, and those of the codes, are in the text. -/
theorem mem_codes {text : List α} {d : α} (h : d ∈ text.flatMap (codeOf table)) :
    d ∈ text ∧ (∀ e ∈ table, e.1 ≠ d) ∨ ∃ e ∈ table, d ∈ e.2 := by
  obtain ⟨c, hc, hd⟩ := List.mem_flatMap.1 h
  rcases codeOf_cases table c with ⟨hnone, hcode⟩ | ⟨e, he, -, hcode⟩
  · rw [hcode, List.mem_singleton] at hd
    subst hd
    exact .inl ⟨hc, hnone⟩
  · rw [hcode] at hd
    exact .inr ⟨e, he, hd⟩

end ConfigRegistry.Text
