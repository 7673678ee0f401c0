import ConfigRegistry.Identity.Registry
import Mathlib.Data.List.Forall2

/-!
# What it takes for a grant table to be accepted

`ServiceRegistry.fromYaml` accepts a file when each item of `services` is a service and no two of
them claim one uid.
-/

namespace ConfigRegistry.Identity

open Js

/-- The item declares this service. -/
def Declares (v : Value) (service : ServiceIdentity) : Prop := checkService [] v = .ok service

/-! ### Where a value stands matters to its issues only -/

theorem checkItems_eq_ok {α : Type} {check : List String → Value → Checked α}
    (hcheck : ∀ p q v a, check p v = .ok a → check q v = .ok a) {at_ : List String} {i : Nat}
    {vs : List Value} {as : List α} :
    checkItems at_ check i vs = .ok as ↔ List.Forall₂ (fun v a => check [] v = .ok a) vs as := by
  induction vs generalizing i as with
  | nil =>
    rw [checkItems, List.forall₂_nil_left_iff]
    exact ⟨fun h => (Except.ok.inj h).symm, fun h => h ▸ rfl⟩
  | cons v vs ih =>
    rw [checkItems]
    constructor
    · intro h
      split at h
      · rename_i a rest ha hrest
        cases h
        exact .cons (hcheck _ _ v a ha) (ih.1 hrest)
      all_goals cases h
    · intro h
      cases h with
      | cons ha hrest =>
        rw [hcheck [] (at_ ++ [toString i]) v _ ha, ih.2 hrest]

theorem checkName_path {p q : List String} {v : Option Value} {name : String}
    (h : checkName p v = .ok name) : checkName q v = .ok name := by
  cases v with
  | none => cases h
  | some v =>
    cases v with
    | str s =>
      rw [checkName] at h ⊢
      split at h
      · cases h
      · rename_i hs
        rw [if_neg hs]
        exact h
    | _ => cases h

theorem checkUid_eq_ok {p : List String} {v : Option Value} {uid : Nat} :
    checkUid p v = .ok uid ↔ ∃ q : Rat, v = some (.num (.fin q)) ∧
      (Number.fin q).isSafeInteger = true ∧ 0 ≤ q.num ∧ uid = q.num.toNat := by
  constructor
  · intro h
    unfold checkUid at h
    split at h
    · rename_i q
      split at h
      · rename_i hsafe
        split at h
        · cases h
        · rename_i hneg
          cases h
          exact ⟨q, rfl, hsafe, by omega, rfl⟩
      · cases h
    · cases h
  · rintro ⟨q, rfl, hsafe, hneg, rfl⟩
    rw [checkUid, if_pos hsafe, if_neg (by omega)]

theorem checkNamespace_eq_ok {p : List String} {v : Value} {ns : String} :
    checkNamespace p v = .ok ns ↔ v = .str ns ∧ isNamespace ns = true := by
  constructor
  · intro h
    cases v with
    | str s =>
      rw [checkNamespace] at h
      split at h
      · rename_i hs
        cases h
        exact ⟨rfl, hs⟩
      · cases h
    | _ => cases h
  · rintro ⟨rfl, hs⟩
    rw [checkNamespace, if_pos hs]

theorem checkNamespaces_eq_ok {p : List String} {v : Option Value} {namespaces : List String} :
    checkNamespaces p v = .ok namespaces ↔ v = some (.arr (namespaces.map Value.str)) ∧
      namespaces ≠ [] ∧ ∀ ns ∈ namespaces, isNamespace ns = true := by
  have hitems : ∀ vs, List.Forall₂ (fun v ns => checkNamespace [] v = .ok ns) vs namespaces ↔
      vs = namespaces.map Value.str ∧ ∀ ns ∈ namespaces, isNamespace ns = true := by
    intro vs
    induction namespaces generalizing vs with
    | nil => simp
    | cons ns namespaces ih =>
      rw [List.forall₂_cons_right_iff]
      constructor
      · rintro ⟨v, rest, hv, hrest, rfl⟩
        obtain ⟨rfl, hns⟩ := checkNamespace_eq_ok.1 hv
        obtain ⟨rfl, hall⟩ := (ih rest).1 hrest
        exact ⟨rfl, List.forall_mem_cons.2 ⟨hns, hall⟩⟩
      · rintro ⟨rfl, hall⟩
        obtain ⟨hns, hall⟩ := List.forall_mem_cons.1 hall
        exact ⟨_, _, checkNamespace_eq_ok.2 ⟨rfl, hns⟩, (ih _).2 ⟨rfl, hall⟩, rfl⟩
  have hpath : ∀ p q v ns, checkNamespace p v = .ok ns → checkNamespace q v = .ok ns :=
    fun p q v ns h => checkNamespace_eq_ok.2 (checkNamespace_eq_ok.1 h)
  constructor
  · intro h
    unfold checkNamespaces at h
    split at h
    · cases h
    · rename_i items hne
      obtain ⟨rfl, hall⟩ := (hitems items).1 ((checkItems_eq_ok hpath).1 h)
      refine ⟨rfl, ?_, hall⟩
      rintro rfl
      exact hne rfl
    · cases h
  · rintro ⟨rfl, hne, hall⟩
    cases namespaces with
    | nil => exact (hne rfl).elim
    | cons ns namespaces => exact (checkItems_eq_ok hpath).2 ((hitems _).2 ⟨rfl, hall⟩)

/-- An item is a service when each of its fields is what it should be. -/
theorem checkService_eq_ok {p : List String} {v : Value} {service : ServiceIdentity} :
    checkService p v = .ok service ↔ v.isMapping = true ∧
      checkName [] (v.field "name") = .ok service.name ∧
      checkUid [] (v.field "uid") = .ok service.uid ∧
      checkNamespaces [] (v.field "namespaces") = .ok service.namespaces := by
  rw [checkService]
  constructor
  · intro h
    split at h
    · rename_i hmapping
      split at h
      · rename_i name uid namespaces hname huid hnamespaces
        cases h
        exact ⟨hmapping, checkName_path hname, checkUid_eq_ok.2 (checkUid_eq_ok.1 huid),
          checkNamespaces_eq_ok.2 (checkNamespaces_eq_ok.1 hnamespaces)⟩
      · cases h
    · cases h
  · rintro ⟨hmapping, hname, huid, hnamespaces⟩
    rw [if_pos hmapping, checkName_path hname, checkUid_eq_ok.2 (checkUid_eq_ok.1 huid),
      checkNamespaces_eq_ok.2 (checkNamespaces_eq_ok.1 hnamespaces)]

theorem checkService_path (p q : List String) (v : Value) (service : ServiceIdentity)
    (h : checkService p v = .ok service) : checkService q v = .ok service :=
  checkService_eq_ok.2 (checkService_eq_ok.1 h)

/-! ### The whole file -/

theorem clashOf_of_nodup {held rest : List ServiceIdentity}
    (h : ((held ++ rest).map ServiceIdentity.uid).Nodup) : clashOf held rest = none := by
  induction rest generalizing held with
  | nil => rfl
  | cons s rest ih =>
    have hs : held.find? (fun h => h.uid == s.uid) = none := by
      rw [List.find?_eq_none]
      intro a ha hau
      rw [List.map_append, List.nodup_append] at h
      exact h.2.2 a.uid (List.mem_map_of_mem ha) s.uid (by simp) (by simpa using hau)
    rw [clashOf, hs]
    exact ih (by simpa using h)

/-- The file declares these services. -/
structure Lists (v : Value) (services : List ServiceIdentity) : Prop where
  mapping : v.isMapping = true
  version : ∃ version, checkVersion (v.field "version") = .ok version
  items : ∃ items, v.field "services" = some (.arr items) ∧ List.Forall₂ Declares items services
  unique : (services.map ServiceIdentity.uid).Nodup

theorem checkServices_eq_ok {v : Option Value} {services : List ServiceIdentity} :
    checkServices v = .ok services ↔
      ∃ items, v = some (.arr items) ∧ List.Forall₂ Declares items services := by
  constructor
  · intro h
    unfold checkServices at h
    split at h
    · exact ⟨_, rfl, (checkItems_eq_ok checkService_path).1 h⟩
    · cases h
  · rintro ⟨items, rfl, h⟩
    exact (checkItems_eq_ok checkService_path).2 h

theorem fromYaml_ok_iff {parseYaml : String → Except Error Value} {source : String}
    {services : List ServiceIdentity} :
    (∃ registry, ServiceRegistry.fromYaml parseYaml source = .ok registry ∧
      registry.services = services) ↔ ∃ v, parseYaml source = .ok v ∧ Lists v services := by
  constructor
  · rintro ⟨registry, h, rfl⟩
    unfold ServiceRegistry.fromYaml at h
    split at h
    · cases h
    rename_i v hv
    split at h
    · cases h
    rename_i version services hfile
    split at h
    · cases h
    rename_i hclash
    cases h
    refine ⟨v, hv, ?_⟩
    rw [checkFile] at hfile
    split at hfile
    · rename_i hmapping
      split at hfile
      · rename_i version' services' hversion hservices
        cases hfile
        exact ⟨hmapping, ⟨_, hversion⟩, checkServices_eq_ok.1 hservices,
          nodup_of_clashOf hclash List.nodup_nil⟩
      · cases hfile
    · cases hfile
  · rintro ⟨v, hv, hmapping, ⟨version, hversion⟩, hitems, hunique⟩
    have hfile : checkFile v = .ok (version, services) := by
      rw [checkFile, if_pos hmapping, hversion, checkServices_eq_ok.2 hitems]
    have hclash : clashOf [] services = none := clashOf_of_nodup hunique
    refine ⟨⟨services, version, hunique⟩, ?_, rfl⟩
    simp only [ServiceRegistry.fromYaml, hv, hfile]
    split
    · rename_i h
      rw [hclash] at h
      cases h
    · rfl

end ConfigRegistry.Identity
