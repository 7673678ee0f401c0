import ConfigRegistry.Products.Commits
import Mathlib.Logic.Relation

/-!
# Promotion does not go backwards

The order of the environments is a list out of a file, and the environment after one is found by where the
list has it first.
-/

namespace ConfigRegistry.Products

open Js Store Relation

variable {order : EnvironmentOrder}

/-- `promote` accepts a promotion of values from one environment into another. -/
def Promotable (order : EnvironmentOrder) (source target : String) : Prop :=
  ∃ (session : ProductMutation) (r : PromoteRequest) (plan : Plan), session.order = order ∧
    promote r session = .ok plan ∧ r.source = source ∧ r.target = target

/-- The order lists the first environment before the second. -/
def Precedes (order : EnvironmentOrder) (first second : String) : Prop := [first, second].Sublist order.all

/-- No environment comes after itself, no promotions lead to an environment that precedes the one they began
at, and no environment comes after two. -/
structure Forward (order : EnvironmentOrder) : Prop where
  acyclic : ∀ environment, ¬ TransGen (fun a b => order.next a = some b) environment environment
  promotions : ∀ source target, TransGen (Promotable order) source target → ¬ Precedes order target source
  unique : ∀ environment ∈ order.all, ∀ a b, order.next a = some environment → order.next b = some environment → a = b

theorem next_of_promotable {source target : String} (h : Promotable order source target) :
    order.next source = some target := by
  obtain ⟨session, r, plan, rfl, hplan, rfl, rfl⟩ := h
  exact (promote_cases hplan).1

theorem next_eq_some {a b : String} :
    order.next a = some b ↔ a ∈ order.all ∧ order.all[order.all.idxOf a + 1]? = some b := by
  unfold EnvironmentOrder.next EnvironmentOrder.all
  split
  · rename_i hmem
    exact ⟨fun h => ⟨hmem, h⟩, fun h => h.2⟩
  · rename_i hmem
    exact ⟨nofun, fun h => (hmem h.1).elim⟩

/-! ### Distinct names -/

theorem idxOf_next (hn : order.all.Nodup) {a b : String} (h : order.next a = some b) :
    order.all.idxOf b = order.all.idxOf a + 1 := by
  obtain ⟨-, hb⟩ := next_eq_some.1 h
  obtain ⟨hlt, rfl⟩ := List.getElem?_eq_some_iff.1 hb
  exact hn.idxOf_getElem _ hlt

/-- Along the order the places grow. -/
theorem idxOf_lt_of_transGen (hn : order.all.Nodup) {a b : String}
    (h : TransGen (fun a b => order.next a = some b) a b) : order.all.idxOf a < order.all.idxOf b := by
  induction h with
  | single h =>
    have := idxOf_next hn h
    omega
  | tail _ h ih =>
    have := idxOf_next hn h
    omega

theorem idxOf_lt_of_precedes (hn : order.all.Nodup) {a b : String} (h : Precedes order a b) :
    order.all.idxOf a < order.all.idxOf b := by
  unfold Precedes at h
  generalize order.all = l at h hn ⊢
  induction l with
  | nil => cases h
  | cons c l ih =>
    rw [List.nodup_cons] at hn
    cases h with
    | cons _ h =>
      have ha : a ≠ c := by
        rintro rfl
        exact hn.1 (h.subset (by simp))
      have hb : b ≠ c := by
        rintro rfl
        exact hn.1 (h.subset (by simp))
      have := ih h hn.2
      rw [List.idxOf_cons_ne _ ha.symm, List.idxOf_cons_ne _ hb.symm]
      omega
    | cons_cons _ h =>
      have hb : b ≠ a := by
        rintro rfl
        exact hn.1 (h.subset (by simp))
      rw [List.idxOf_cons_self, List.idxOf_cons_ne _ hb.symm]
      omega

theorem forward_of_nodup (hn : order.all.Nodup) : Forward order where
  acyclic environment h := by
    have := idxOf_lt_of_transGen hn h
    omega
  promotions source target h hprecedes := by
    have hsteps : TransGen (fun a b => order.next a = some b) source target :=
      TransGen.mono (fun _ _ => next_of_promotable) source target h
    have hforth := idxOf_lt_of_transGen hn hsteps
    have hback := idxOf_lt_of_precedes hn hprecedes
    omega
  unique environment _ a b ha hb := by
    have hindexes := (idxOf_next hn ha).symm.trans (idxOf_next hn hb)
    have hmem := (next_eq_some.1 ha).1
    exact (List.idxOf_inj hmem).1 (by omega)

/-! ### A name that is listed twice -/

/-- Up to where a name is listed again, each environment is found where it is. -/
theorem next_of_first {l : List String} {m : Nat} (hm : m + 1 < l.length) (hfirst : ∀ k < m, l[k]? ≠ l[m]?) :
    (⟨l⟩ : EnvironmentOrder).next l[m] = some l[m + 1] := by
  have hle : l.idxOf l[m] < m + 1 := by
    apply (List.mem_take_iff_idxOf_lt (List.getElem_mem _)).1
    rw [List.mem_take_iff_getElem]
    exact ⟨m, by omega, rfl⟩
  have hindex : l.idxOf l[m] = m := by
    by_contra hne
    have hsame : l[l.idxOf l[m]]? = l[m]? := by
      rw [List.getElem?_eq_getElem (by omega), List.getElem?_eq_getElem (by omega), List.getElem_idxOf]
    exact hfirst _ (by omega) hsame
  refine next_eq_some.2 ⟨List.getElem_mem _, ?_⟩
  show l[l.idxOf l[m] + 1]? = _
  rw [hindex]
  exact List.getElem?_eq_getElem hm

theorem transGen_of_first {l : List String} {i j : Nat}
    (hfirst : ∀ m < j, ∀ k < m, l[k]? ≠ l[m]?) (k : Nat) (hk : i + k + 1 ≤ j) {a b : String} (ha : l[i]? = some a)
    (hb : l[i + k + 1]? = some b) : TransGen (fun a b => (⟨l⟩ : EnvironmentOrder).next a = some b) a b := by
  induction k generalizing b with
  | zero =>
    obtain ⟨hi, rfl⟩ := List.getElem?_eq_some_iff.1 ha
    obtain ⟨hi', rfl⟩ := List.getElem?_eq_some_iff.1 hb
    exact .single (next_of_first (by omega) (hfirst i (by omega)))
  | succ k ih =>
    obtain ⟨hlast, rfl⟩ := List.getElem?_eq_some_iff.1 hb
    have hmiddle : l[i + k + 1]? = some l[i + k + 1] := List.getElem?_eq_getElem (by omega)
    exact .tail (ih (by omega) hmiddle) (next_of_first (by omega) (hfirst _ (by omega)))

theorem cycle_of_repeated (h : ¬ order.all.Nodup) :
    ∃ environment, TransGen (fun a b => order.next a = some b) environment environment := by
  obtain ⟨l⟩ := order
  change ¬ l.Nodup at h
  rw [List.nodup_iff_getElem?_ne_getElem?] at h
  push Not at h
  obtain ⟨i, j, hij, hj, hsame⟩ := h
  -- The first place at which a name is listed again.
  have hex : ∃ j, j < l.length ∧ ∃ i < j, l[i]? = l[j]? := ⟨j, hj, i, hij, hsame⟩
  obtain ⟨hj, i, hij, hsame⟩ := Nat.find_spec hex
  have hfirst : ∀ m < Nat.find hex, ∀ k < m, l[k]? ≠ l[m]? := by
    intro m hm k hk heq
    exact Nat.find_min hex hm ⟨by omega, k, hk, heq⟩
  refine ⟨l[i], ?_⟩
  refine transGen_of_first hfirst (Nat.find hex - i - 1) (by omega) (List.getElem?_eq_getElem (by omega)) ?_
  have hend : i + (Nat.find hex - i - 1) + 1 = Nat.find hex := by omega
  rw [hend, ← hsame]
  exact List.getElem?_eq_getElem (by omega)

/-- Promotion does not go backwards just where the file lists no environment twice. -/
theorem promotion_is_forward_iff (parseYaml : String → Except Error Value) (source : String) :
    Forward (EnvironmentOrder.fromYaml parseYaml source) ↔
      (EnvironmentOrder.fromYaml parseYaml source).all.Nodup := by
  constructor
  · intro h
    by_contra hrepeated
    obtain ⟨environment, hcycle⟩ := cycle_of_repeated hrepeated
    exact h.acyclic environment hcycle
  · exact forward_of_nodup

/-- The order is listed as a circle: production is promoted into development. -/
def circularOrder (_ : String) : Except Error Value :=
  .ok (.obj [("order", .arr [.str "dev", .str "prod", .str "dev"])])

theorem circular_order_goes_backwards :
    ¬ ∀ (parseYaml : String → Except Error Value) (source : String),
      Forward (EnvironmentOrder.fromYaml parseYaml source) := by
  intro h
  have hforward := h circularOrder "order: [dev, prod, dev]"
  apply hforward.acyclic "dev"
  apply TransGen.tail (b := "prod")
  · exact .single (by decide +kernel)
  · decide +kernel

end ConfigRegistry.Products
