import Mathlib.Data.List.Infix
import Mathlib.Data.List.Basic

/-!
# Redacting texts

A word is cut out of a text from left to right, and a notice is put in its places. Where the notice has no letter of
the word, the word does not stand in the outcome.
-/

namespace ConfigRegistry.Text

variable {α : Type} {word notice text a b : List α}

/-! ### What can stand where -/

/-- A word that stands across two texts begins with a letter of the first. -/
theorem infix_of_infix_append (hword : word ≠ []) (hnone : ∀ c ∈ word, c ∉ a) (h : word <:+: a ++ b) :
    word <:+: b := by
  induction a with
  | nil => exact h
  | cons x a ih =>
    rcases List.infix_cons_iff.1 h with hprefix | hinfix
    · cases word with
      | nil => exact absurd rfl hword
      | cons y word =>
        obtain ⟨rfl, -⟩ := List.cons_prefix_cons.1 hprefix
        exact absurd (List.mem_cons_self ..) (hnone y (List.mem_cons_self ..))
    · exact ih (fun c hc hmem => hnone c hc (List.mem_cons_of_mem _ hmem)) hinfix

theorem prefix_of_prefix_append {x : α} (hx : x ∉ word) (h : word <+: a ++ x :: b) : word <+: a := by
  induction a generalizing word with
  | nil =>
    cases word with
    | nil => exact List.nil_prefix
    | cons y word =>
      obtain ⟨rfl, -⟩ := List.cons_prefix_cons.1 h
      exact absurd (List.mem_cons_self ..) hx
  | cons z a ih =>
    cases word with
    | nil => exact List.nil_prefix
    | cons y word =>
      rw [List.cons_append] at h
      obtain ⟨rfl, hrest⟩ := List.cons_prefix_cons.1 h
      exact List.cons_prefix_cons.2 ⟨rfl, ih (fun hmem => hx (List.mem_cons_of_mem _ hmem)) hrest⟩

/-- A word does not stand across a letter that it does not have. -/
theorem infix_or_infix_of_append {x : α} (hx : x ∉ word) (h : word <:+: a ++ x :: b) :
    word <:+: a ∨ word <:+: b := by
  induction a with
  | nil =>
    rcases List.infix_cons_iff.1 h with hprefix | hinfix
    · exact .inl (prefix_of_prefix_append (a := []) hx hprefix).isInfix
    · exact .inr hinfix
  | cons y a ih =>
    rcases List.infix_cons_iff.1 h with hprefix | hinfix
    · exact .inl (prefix_of_prefix_append (a := y :: a) hx hprefix).isInfix
    · exact (ih hinfix).imp_left List.infix_cons

/-! ### What is left -/

variable [DecidableEq α]

/-- The pieces of a text between the places of a word, after the letters of a place that are still to be skipped. -/
def splitFrom (word : List α) : Nat → List α → List (List α)
  | _, [] => [[]]
  | n + 1, _ :: text => splitFrom word n text
  | 0, c :: text =>
    if word.isPrefixOf (c :: text) then [] :: splitFrom word (word.length - 1) text
    else (splitFrom word 0 text).modifyHead (c :: ·)

/-- What a text becomes, after the letters that are still to be skipped. -/
def redactFrom (word notice : List α) (n : Nat) (text : List α) : List α :=
  notice.intercalate (splitFrom word n text)

/-- The word is replaced by the notice wherever it stands. -/
def redacted (word notice text : List α) : List α := redactFrom word notice 0 text

theorem splitFrom_ne_nil (n : Nat) (text : List α) : splitFrom word n text ≠ [] := by
  induction text generalizing n with
  | nil => simp [splitFrom]
  | cons c text ih =>
    cases n with
    | succ n => exact ih n
    | zero =>
      rw [splitFrom]
      split
      · simp
      · obtain ⟨piece, pieces, hpieces⟩ := List.exists_cons_of_ne_nil (ih 0)
        simp [hpieces]

theorem redactFrom_cons (c : α) (text : List α) :
    redactFrom word notice 0 (c :: text) =
      if word.isPrefixOf (c :: text) then notice ++ redactFrom word notice (word.length - 1) text
      else c :: redactFrom word notice 0 text := by
  rw [redactFrom, splitFrom]
  split
  · rw [List.intercalate_cons_of_ne_nil (splitFrom_ne_nil _ _), List.nil_append, redactFrom]
  · have hne : splitFrom word 0 text ≠ [] := splitFrom_ne_nil 0 text
    obtain ⟨piece, pieces, hpieces⟩ := List.exists_cons_of_ne_nil hne
    rw [redactFrom, hpieces, List.modifyHead_cons, List.intercalate_cons_cons_left]

/-- Before the first notice stands what stood there in the text. -/
theorem prefix_of_prefix_redactFrom {p : List α} (hnone : ∀ c ∈ p, c ∉ notice) (hnotice : notice ≠ [])
    (h : p <+: redactFrom word notice 0 text) : p <+: text := by
  induction text generalizing p with
  | nil => exact h
  | cons c text ih =>
    cases p with
    | nil => exact List.nil_prefix
    | cons x p =>
      rw [redactFrom_cons] at h
      split at h
      · obtain ⟨y, notice, rfl⟩ := List.exists_cons_of_ne_nil hnotice
        obtain ⟨rfl, -⟩ := List.cons_prefix_cons.1 h
        exact absurd (List.mem_cons_self ..) (hnone x (List.mem_cons_self ..))
      · obtain ⟨rfl, hrest⟩ := List.cons_prefix_cons.1 h
        exact List.cons_prefix_cons.2 ⟨rfl, ih (fun d hd => hnone d (List.mem_cons_of_mem _ hd)) hrest⟩

theorem not_infix_redactFrom (hword : word ≠ []) (hnone : ∀ c ∈ word, c ∉ notice) (hnotice : notice ≠ [])
    (n : Nat) (text : List α) : ¬ word <:+: redactFrom word notice n text := by
  induction text generalizing n with
  | nil =>
    intro h
    exact hword (List.infix_nil.1 h)
  | cons c text ih =>
    cases n with
    | succ n => exact ih n
    | zero =>
      intro h
      rw [redactFrom_cons] at h
      split at h
      · exact ih _ (infix_of_infix_append hword hnone h)
      · rename_i hfree
        rcases List.infix_cons_iff.1 h with hprefix | hinfix
        · obtain ⟨x, word, rfl⟩ := List.exists_cons_of_ne_nil hword
          obtain ⟨rfl, hrest⟩ := List.cons_prefix_cons.1 hprefix
          have hstood := prefix_of_prefix_redactFrom (fun d hd => hnone d (List.mem_cons_of_mem _ hd)) hnotice hrest
          exact hfree (List.isPrefixOf_iff_prefix.2 (List.cons_prefix_cons.2 ⟨rfl, hstood⟩))
        · exact ih 0 hinfix

/-- A word that shares no letter with the notice is nowhere in what is redacted. -/
theorem not_infix_redacted (hword : word ≠ []) (hnone : ∀ c ∈ word, c ∉ notice) (hnotice : notice ≠ [])
    (text : List α) : ¬ word <:+: redacted word notice text := not_infix_redactFrom hword hnone hnotice 0 text

end ConfigRegistry.Text
