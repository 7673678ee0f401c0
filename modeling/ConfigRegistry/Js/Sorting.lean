import Mathlib.Data.List.Sort

/-!
# Sorting that depends on the order

A stable sort leaves what it cannot tell apart in the order it was in. It sorts every arrangement of some
values to the same list exactly when it tells all of them apart.
-/

namespace ConfigRegistry.Js

variable {α : Type} {r : α → α → Prop}

/-- A pair is in a list without repetitions in one order. -/
theorem not_sublist_swap {a b : α} {l : List α} (hn : l.Nodup) (hab : [a, b].Sublist l) :
    ¬ [b, a].Sublist l := by
  induction l with
  | nil => cases hab
  | cons c l ih =>
    intro hba
    rw [List.nodup_cons] at hn
    cases hab with
    | cons _ hab =>
      cases hba with
      | cons _ hba => exact ih hn.2 hab hba
      | cons_cons _ hba => exact hn.1 (hab.subset (by simp))
    | cons_cons _ hab =>
      cases hba with
      | cons _ hba => exact hn.1 (hba.subset (by simp))
      | cons_cons _ hba => exact hn.1 (hab.subset (by simp))

theorem sublist_pair_or_swap {a b : α} {l : List α} (ha : a ∈ l) (hb : b ∈ l) (hne : a ≠ b) :
    [a, b].Sublist l ∨ [b, a].Sublist l := by
  induction l with
  | nil => cases ha
  | cons c l ih =>
    rcases List.mem_cons.1 ha with rfl | hal
    · have hb := (List.mem_cons.1 hb).resolve_left (Ne.symm hne)
      exact .inl (List.cons_sublist_cons.2 (List.singleton_sublist.2 hb))
    · rcases List.mem_cons.1 hb with rfl | hbl
      · exact .inr (List.cons_sublist_cons.2 (List.singleton_sublist.2 hal))
      · exact (ih hal hbl).imp (List.Sublist.cons _) (List.Sublist.cons _)

/-- The order of the values does not matter to the sort just when no two of them are tied. -/
theorem insertionSort_perm_iff [DecidableRel r] [Std.Total r] [IsTrans α r] {l : List α} (hn : l.Nodup) :
    (∀ l' : List α, l'.Perm l → l'.insertionSort r = l.insertionSort r) ↔
      ∀ a ∈ l, ∀ b ∈ l, r a b → r b a → a = b := by
  constructor
  · intro h a ha b hb hab hba
    by_contra hne
    -- The reversed list has the pair the other way round, and so has what becomes of it.
    have hpair : ∀ {a b : α}, r a b → r b a → [a, b].Sublist l → False := by
      intro a b hab hba hsub
      have hsorted := List.pair_sublist_insertionSort (r := r) hab hsub
      have hreversed := List.pair_sublist_insertionSort (r := r) hba hsub.reverse
      rw [h _ l.reverse_perm] at hreversed
      exact not_sublist_swap ((List.perm_insertionSort r l).nodup_iff.2 hn) hsorted hreversed
    rcases sublist_pair_or_swap ha hb hne with hsub | hsub
    · exact hpair hab hba hsub
    · exact hpair hba hab hsub
  · intro h l' hperm
    apply List.Perm.eq_of_pairwise _ (List.pairwise_insertionSort r l') (List.pairwise_insertionSort r l)
    · exact (List.perm_insertionSort r l').trans (hperm.trans (List.perm_insertionSort r l).symm)
    · intro a b ha hb hab hba
      rw [List.mem_insertionSort] at ha hb
      exact h a (hperm.subset ha) b hb hab hba

end ConfigRegistry.Js
