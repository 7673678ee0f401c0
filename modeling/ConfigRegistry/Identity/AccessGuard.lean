import ConfigRegistry.Identity.Registry

/-!
# The access guard

`src/identity/access-guard.ts`: the one place where it is decided who may read a namespace. It fails
closed, its denials are all the same to the caller, and the first denial of a kind alerts.
-/

namespace ConfigRegistry.Identity

open Js

inductive DenialReason where
  | credentials_unreadable
  | unknown_uid
  | namespace_not_granted
deriving DecidableEq

def DenialReason.text : DenialReason → String
  | credentials_unreadable => "credentials_unreadable"
  | unknown_uid => "unknown_uid"
  | namespace_not_granted => "namespace_not_granted"

/-- `AccessAuditEntry`. The outcome is a denial where there is a reason for one. -/
structure AccessAuditEntry where
  uid : Option Nat
  service : Option String
  onNamespace : String
  reason : Option DenialReason
deriving DecidableEq

/-- `Denied`. -/
structure Denied where
  status : Nat
  code : String
  title : String
  detail : String
deriving DecidableEq

/-- `DENIED`. -/
def denied : Denied := ⟨403, "forbidden", "Forbidden", "Access denied."⟩

/-- The kinds of denials that have been alerted, and what the guard has told, newest first. -/
structure AccessGuard where
  alerted : List String := []
  audited : List AccessAuditEntry := []
  alerts : List AccessAuditEntry := []

/-- `${entry.uid ?? 'none'}:${entry.namespace}:${entry.reason}`. -/
def AccessAuditEntry.key (entry : AccessAuditEntry) : String :=
  let uid := (entry.uid.map toString).getD "none"
  let reason := (entry.reason.map DenialReason.text).getD "null"
  s!"{uid}:{entry.onNamespace}:{reason}"

namespace AccessGuard

variable (guard : AccessGuard)

/-- `audit`. -/
def audit (entry : AccessAuditEntry) : AccessGuard := { guard with audited := entry :: guard.audited }

/-- `deny`. -/
def deny (entry : AccessAuditEntry) : Except Denied ServiceIdentity × AccessGuard :=
  let guard := guard.audit entry
  if entry.key ∈ guard.alerted then (.error denied, guard)
  else
    (.error denied,
      { guard with alerted := entry.key :: guard.alerted, alerts := entry :: guard.alerts })

/-- `authorize`, of a caller whose credentials are these, by the table in force. -/
def authorize (registry : ServiceRegistry) (credentials : Except Error Nat) (ns : String) :
    Except Denied ServiceIdentity × AccessGuard :=
  match credentials with
  | .error _ => guard.deny ⟨none, none, ns, some .credentials_unreadable⟩
  | .ok uid =>
    match registry.identify uid with
    | none => guard.deny ⟨some uid, none, ns, some .unknown_uid⟩
    | some service =>
      if registry.mayRead service ns then
        (.ok service, guard.audit ⟨some uid, some service.name, ns, none⟩)
      else guard.deny ⟨some uid, some service.name, ns, some .namespace_not_granted⟩

end AccessGuard

/-- The table grants the uid exactly this namespace. -/
def ServiceRegistry.Grants (registry : ServiceRegistry) (uid : Nat) (ns : String) : Prop :=
  ∃ service ∈ registry.services, service.uid = uid ∧ ns ∈ service.namespaces

theorem ServiceRegistry.mem_of_identify {registry : ServiceRegistry} {uid : Nat}
    {service : ServiceIdentity} (h : registry.identify uid = some service) :
    service ∈ registry.services ∧ service.uid = uid :=
  ⟨List.mem_of_find?_eq_some h, by simpa using List.find?_some h⟩

namespace AccessGuard

variable {guard : AccessGuard} {registry : ServiceRegistry} {ns : String}

theorem deny_error {entry : AccessAuditEntry} : (guard.deny entry).1 = .error denied := by
  unfold deny
  dsimp only
  split <;> rfl

/-- Only a caller that is granted the namespace is let in. -/
theorem grants_of_authorize {uid : Nat} {service : ServiceIdentity} {credentials : Except Error Nat}
    (hc : ∀ u, credentials = .ok u → u = uid)
    (h : (guard.authorize registry credentials ns).1 = .ok service) : registry.Grants uid ns := by
  cases credentials with
  | error e =>
    rw [authorize, deny_error] at h
    cases h
  | ok u =>
    obtain rfl := hc u rfl
    rw [authorize] at h
    cases hid : registry.identify u with
    | none =>
      simp only [hid, deny_error] at h
      cases h
    | some found =>
      simp only [hid] at h
      split at h
      · rename_i hmay
        obtain ⟨hmem, huid⟩ := ServiceRegistry.mem_of_identify hid
        rw [ServiceRegistry.mayRead, huid, hid] at hmay
        simp only [beq_self_eq_true, Bool.true_and, List.contains_iff_mem] at hmay
        exact ⟨found, hmem, huid, hmay⟩
      · rw [deny_error] at h
        cases h

/-- Every refusal is the same. -/
theorem authorize_error {credentials : Except Error Nat} {problem : Denied}
    (h : (guard.authorize registry credentials ns).1 = .error problem) : problem = denied := by
  have hdeny : ∀ entry, (guard.deny entry).1 = .error problem → problem = denied := by
    intro entry hentry
    rw [deny_error] at hentry
    cases hentry
    rfl
  unfold authorize at h
  split at h
  · exact hdeny _ h
  · split at h
    · exact hdeny _ h
    · split at h
      · cases h
      · exact hdeny _ h

variable (guard) in
/-- Who is not granted the namespace is refused. -/
theorem authorize_of_not_grants {uid : Nat} {credentials : Except Error Nat}
    (hc : ∀ u, credentials = .ok u → u = uid) (h : ¬ registry.Grants uid ns) :
    (guard.authorize registry credentials ns).1 = .error denied := by
  cases hauth : (guard.authorize registry credentials ns).1 with
  | error problem => rw [authorize_error hauth]
  | ok service => exact (h (grants_of_authorize hc hauth)).elim

/-- Each kind of denial alerts once. -/
structure AlertsOnce (guard : AccessGuard) : Prop where
  kinds : guard.alerts.map AccessAuditEntry.key = guard.alerted
  once : guard.alerted.Nodup

theorem AlertsOnce.deny (h : guard.AlertsOnce) (entry : AccessAuditEntry) :
    (guard.deny entry).2.AlertsOnce := by
  unfold AccessGuard.deny
  dsimp only
  split
  · exact ⟨h.kinds, h.once⟩
  · rename_i hnew
    refine ⟨?_, List.nodup_cons.2 ⟨hnew, h.once⟩⟩
    simp only [List.map_cons, AccessGuard.audit, h.kinds]

theorem AlertsOnce.authorize (h : guard.AlertsOnce) (credentials : Except Error Nat) :
    (guard.authorize registry credentials ns).2.AlertsOnce := by
  unfold AccessGuard.authorize
  split
  · exact h.deny _
  · split
    · exact h.deny _
    · split
      · exact ⟨h.kinds, h.once⟩
      · exact h.deny _

end AccessGuard

end ConfigRegistry.Identity
