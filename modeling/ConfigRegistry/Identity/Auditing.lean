import ConfigRegistry.Identity.AccessGuard
import ConfigRegistry.Js.Text
import Mathlib.Data.List.Induction

/-!
# What the access guard tells

The audit log and the alerts of a guard over the calls it gets, while the grant table is replaced between them.
-/

namespace ConfigRegistry.Identity

open Js

inductive Turn where
  | replaces (registry : ServiceRegistry)
  | authorizes (credentials : Except Error Nat) (ns : String)

/-- The table in force, and the guard. -/
structure Guarded where
  registry : ServiceRegistry
  guard : AccessGuard := {}

namespace Guarded

def turn (s : Guarded) : Turn → Guarded
  | .replaces registry => { s with registry }
  | .authorizes credentials ns => { s with guard := (s.guard.authorize s.registry credentials ns).2 }

def run (s : Guarded) (turns : List Turn) : Guarded := turns.foldl turn s

end Guarded

/-- The calls among the turns. -/
def calls (turns : List Turn) : Nat := turns.countP fun | .authorizes _ _ => true | .replaces _ => false

/-- What a denial is alerted for: the caller, the namespace and the reason. -/
def AccessAuditEntry.fact (entry : AccessAuditEntry) : Option (Option Nat × String × DenialReason) :=
  entry.reason.map fun reason => (entry.uid, entry.onNamespace, reason)

/-! ### The keys of the alerts -/

/-- Lists are taken apart at the first of a letter in one way. -/
theorem append_cons_inj_of_first {α : Type} {a : α} {xs ys ss ts : List α} (hx : a ∉ xs) (hy : a ∉ ys)
    (h : xs ++ a :: ss = ys ++ a :: ts) : xs = ys ∧ ss = ts := by
  induction xs generalizing ys with
  | nil =>
    cases ys with
    | nil => exact ⟨rfl, (List.cons_eq_cons.1 h).2⟩
    | cons y ys =>
      obtain ⟨rfl, -⟩ := List.cons_eq_cons.1 h
      exact (hy List.mem_cons_self).elim
  | cons x xs ih =>
    cases ys with
    | nil =>
      obtain ⟨rfl, -⟩ := List.cons_eq_cons.1 h
      exact (hx List.mem_cons_self).elim
    | cons y ys =>
      obtain ⟨rfl, htail⟩ := List.cons_eq_cons.1 h
      obtain ⟨rfl, hrest⟩ := ih (List.not_mem_of_not_mem_cons hx) (List.not_mem_of_not_mem_cons hy) htail
      exact ⟨rfl, hrest⟩

def uidText (uid : Option Nat) : String := (uid.map toString).getD "none"

theorem uidText_digits (n : Nat) : (uidText (some n)).toList = Nat.toDigits 10 n := by
  show (toString n).toList = _
  simp

theorem uidText_inj {a b : Option Nat} (h : uidText a = uidText b) : a = b := by
  have hnone : ∀ n, uidText none ≠ uidText (some n) := by
    intro n h
    have hmem : 'o' ∈ Nat.toDigits 10 n := by
      rw [← uidText_digits, ← h]
      decide
    have := Nat.isDigit_of_mem_toDigits (by decide) (by decide) hmem
    simp at this
  cases a with
  | none =>
    cases b with
    | none => rfl
    | some n => exact (hnone n h).elim
  | some m =>
    cases b with
    | none => exact (hnone m h.symm).elim
    | some n => rw [natText_injective h]

theorem colon_not_mem_uidText (uid : Option Nat) : ':' ∉ (uidText uid).toList := by
  cases uid with
  | none => decide
  | some n =>
    rw [uidText_digits]
    intro hmem
    have := Nat.isDigit_of_mem_toDigits (by decide) (by decide) hmem
    simp at this

theorem colon_not_mem_reason (reason : DenialReason) : ':' ∉ reason.text.toList := by
  cases reason <;> decide

theorem reason_text_inj {a b : DenialReason} (h : a.text = b.text) : a = b := by
  revert h
  cases a <;> cases b <;> decide

/-- The key is the caller up to the first colon, the reason from the last one, and the namespace between them. -/
theorem key_toList {entry : AccessAuditEntry} {reason : DenialReason} (h : entry.reason = some reason) :
    entry.key.toList =
      (uidText entry.uid).toList ++ ':' :: (entry.onNamespace.toList ++ ':' :: reason.text.toList) := by
  unfold AccessAuditEntry.key
  rw [h]
  simp only [Option.map_some, Option.getD_some, String.toList_append, List.append_assoc]
  rfl

/-- Denials with one key are for one fact. -/
theorem key_inj {entry other : AccessAuditEntry} (he : entry.reason.isSome = true) (ho : other.reason.isSome = true) :
    entry.key = other.key ↔ entry.fact = other.fact := by
  obtain ⟨reason, hreason⟩ := Option.isSome_iff_exists.1 he
  obtain ⟨reason', hreason'⟩ := Option.isSome_iff_exists.1 ho
  have hfact : entry.fact = some (entry.uid, entry.onNamespace, reason) := by
    unfold AccessAuditEntry.fact
    rw [hreason]
    rfl
  have hfact' : other.fact = some (other.uid, other.onNamespace, reason') := by
    unfold AccessAuditEntry.fact
    rw [hreason']
    rfl
  rw [hfact, hfact', Option.some_inj]
  constructor
  · intro h
    have hlist := congrArg String.toList h
    rw [key_toList hreason, key_toList hreason'] at hlist
    obtain ⟨huid, hrest⟩ :=
      append_cons_inj_of_first (colon_not_mem_uidText _) (colon_not_mem_uidText _) hlist
    -- The last colon is the first one from the other end.
    have hback := congrArg List.reverse hrest
    rw [List.reverse_append, List.reverse_append, List.reverse_cons, List.reverse_cons, List.append_assoc,
      List.append_assoc, List.singleton_append, List.singleton_append] at hback
    obtain ⟨htext, hns⟩ := append_cons_inj_of_first (by simpa using colon_not_mem_reason _)
      (by simpa using colon_not_mem_reason _) hback
    rw [uidText_inj (String.toList_inj.1 huid), String.toList_inj.1 (List.reverse_injective hns),
      reason_text_inj (String.toList_inj.1 (List.reverse_injective htext))]
  · intro h
    obtain ⟨huid, hrest⟩ := Prod.mk.inj h
    obtain ⟨hns, hsame⟩ := Prod.mk.inj hrest
    apply String.toList_inj.1
    rw [key_toList hreason, key_toList hreason', huid, hns, hsame]

/-! ### One call -/

theorem grants_of_identify {registry : ServiceRegistry} {uid : Nat} {service : ServiceIdentity} {ns : String}
    (h : registry.identify uid = some service) : registry.Grants uid ns ↔ ns ∈ service.namespaces := by
  obtain ⟨hmem, huid⟩ := ServiceRegistry.mem_of_identify h
  constructor
  · rintro ⟨other, hother, hsame, hns⟩
    have heq : other = service := List.inj_on_of_nodup_map registry.unique hother hmem (hsame.trans huid.symm)
    rw [← heq]
    exact hns
  · exact fun hns => ⟨service, hmem, huid, hns⟩

theorem not_grants_of_identify {registry : ServiceRegistry} {uid : Nat} {ns : String}
    (h : registry.identify uid = none) : ¬ registry.Grants uid ns := by
  rintro ⟨service, hmem, huid, -⟩
  have := List.find?_eq_none.1 h service hmem
  simp [huid] at this

theorem mayRead_of_identify {registry : ServiceRegistry} {uid : Nat} {service : ServiceIdentity} {ns : String}
    (h : registry.identify uid = some service) : registry.mayRead service ns = true ↔ ns ∈ service.namespaces := by
  obtain ⟨-, huid⟩ := ServiceRegistry.mem_of_identify h
  unfold ServiceRegistry.mayRead
  rw [huid, h]
  simp

/-- The caller's credentials are those of a uid that the table grants the namespace. -/
def Entitled (registry : ServiceRegistry) (credentials : Except Error Nat) (ns : String) : Prop :=
  ∃ uid, credentials = .ok uid ∧ registry.Grants uid ns

namespace AccessGuard

/-- A call is let in and audited, or denied. -/
theorem authorize_cases (guard : AccessGuard) (registry : ServiceRegistry) (credentials : Except Error Nat)
    (ns : String) : ∃ entry : AccessAuditEntry, entry.uid = credentials.toOption ∧ entry.onNamespace = ns ∧
      (Entitled registry credentials ns ∧ entry.reason = none ∧
          (∃ service, guard.authorize registry credentials ns = (.ok service, guard.audit entry)) ∨
        ¬ Entitled registry credentials ns ∧ entry.reason.isSome = true ∧
          guard.authorize registry credentials ns = guard.deny entry) := by
  unfold authorize
  cases credentials with
  | error e =>
    refine ⟨⟨none, none, ns, some .credentials_unreadable⟩, rfl, rfl, .inr ⟨?_, rfl, rfl⟩⟩
    rintro ⟨uid, hcontra, -⟩
    cases hcontra
  | ok uid =>
    have hentitled : Entitled registry (.ok uid) ns ↔ registry.Grants uid ns := by
      constructor
      · rintro ⟨u, hu, hgrants⟩
        cases hu
        exact hgrants
      · exact fun hgrants => ⟨uid, rfl, hgrants⟩
    rw [hentitled]
    dsimp only
    cases hid : registry.identify uid with
    | none => exact ⟨⟨some uid, none, ns, some .unknown_uid⟩, rfl, rfl, .inr ⟨not_grants_of_identify hid, rfl, rfl⟩⟩
    | some service =>
      rw [grants_of_identify hid, ← mayRead_of_identify hid]
      dsimp only
      split
      · rename_i hmay
        exact ⟨⟨some uid, some service.name, ns, none⟩, rfl, rfl, .inl ⟨hmay, rfl, service, rfl⟩⟩
      · rename_i hmay
        exact ⟨⟨some uid, some service.name, ns, some .namespace_not_granted⟩, rfl, rfl, .inr ⟨hmay, rfl, rfl⟩⟩

/-- The keys that have been alerted are those of the denials in the audit log. -/
def Remembers (guard : AccessGuard) : Prop :=
  ∀ key, key ∈ guard.alerted ↔ ∃ e ∈ guard.audited, e.reason.isSome = true ∧ e.key = key

/-- A denial is alerted where there has been none for its fact. -/
theorem Remembers.deny {guard : AccessGuard} (h : guard.Remembers) {entry : AccessAuditEntry}
    (hreason : entry.reason.isSome = true) : (guard.deny entry).2.Remembers ∧
      (guard.deny entry).2.audited = entry :: guard.audited ∧
      ((∀ e ∈ guard.audited, e.fact ≠ entry.fact) ∧ (guard.deny entry).2.alerts = entry :: guard.alerts ∨
        (∃ e ∈ guard.audited, e.fact = entry.fact) ∧ (guard.deny entry).2.alerts = guard.alerts) := by
  have hsome : entry.fact.isSome = true := by
    unfold AccessAuditEntry.fact
    rw [Option.isSome_map]
    exact hreason
  have hknown : entry.key ∈ guard.alerted ↔ ∃ e ∈ guard.audited, e.fact = entry.fact := by
    rw [h]
    constructor
    · rintro ⟨e, he, hdenied, hkey⟩
      exact ⟨e, he, (key_inj hdenied hreason).1 hkey⟩
    · rintro ⟨e, he, hfact⟩
      have hdenied : e.reason.isSome = true := by
        rw [← hfact] at hsome
        unfold AccessAuditEntry.fact at hsome
        rwa [Option.isSome_map] at hsome
      exact ⟨e, he, hdenied, (key_inj hdenied hreason).2 hfact⟩
  unfold AccessGuard.deny
  dsimp only
  split
  · rename_i halerted
    have halerted : entry.key ∈ guard.alerted := halerted
    refine ⟨fun key => ?_, rfl, .inr ⟨hknown.1 halerted, rfl⟩⟩
    show key ∈ guard.alerted ↔ ∃ e ∈ entry :: guard.audited, e.reason.isSome = true ∧ e.key = key
    rw [List.exists_mem_cons_iff, ← h]
    constructor
    · exact .inr
    · rintro (⟨-, rfl⟩ | hkey)
      · exact halerted
      · exact hkey
  · rename_i hnew
    have hnew : entry.key ∉ guard.alerted := hnew
    rw [hknown] at hnew
    push Not at hnew
    refine ⟨fun key => ?_, rfl, .inl ⟨hnew, rfl⟩⟩
    show key ∈ entry.key :: guard.alerted ↔ ∃ e ∈ entry :: guard.audited, e.reason.isSome = true ∧ e.key = key
    rw [List.exists_mem_cons_iff, ← h, List.mem_cons]
    constructor
    · rintro (rfl | hkey)
      · exact .inl ⟨hreason, rfl⟩
      · exact .inr hkey
    · rintro (⟨-, rfl⟩ | hkey)
      · exact .inl rfl
      · exact .inr hkey

end AccessGuard

/-! ### Every call -/

/-- What a call is told, and what the guard tells of it: one entry in the audit log, and an alert where the entry is a
denial for a fact that none was for before. -/
structure Answered (s : Guarded) (credentials : Except Error Nat) (ns : String)
    (call : Except Denied ServiceIdentity × AccessGuard) : Prop where
  answer : (Entitled s.registry credentials ns ∧ ∃ service, call.1 = .ok service) ∨
    ¬ Entitled s.registry credentials ns ∧ call.1 = .error denied
  entry : ∃ entry : AccessAuditEntry, call.2.audited = entry :: s.guard.audited ∧
    entry.uid = credentials.toOption ∧ entry.onNamespace = ns ∧
    (entry.reason.isSome = true ↔ ¬ Entitled s.registry credentials ns) ∧
    ((entry.reason.isSome = true ∧ ∀ e ∈ s.guard.audited, e.fact ≠ entry.fact) ∧
        call.2.alerts = entry :: s.guard.alerts ∨
      ¬ (entry.reason.isSome = true ∧ ∀ e ∈ s.guard.audited, e.fact ≠ entry.fact) ∧
        call.2.alerts = s.guard.alerts)

theorem answered_of_remembers {s : Guarded} (h : s.guard.Remembers) (credentials : Except Error Nat) (ns : String) :
    Answered s credentials ns (s.guard.authorize s.registry credentials ns) ∧
      (s.guard.authorize s.registry credentials ns).2.Remembers := by
  obtain ⟨entry, huid, hns, ⟨hentitled, hreason, service, hcall⟩ | ⟨hentitled, hreason, hcall⟩⟩ :=
    s.guard.authorize_cases s.registry credentials ns
  · rw [hcall]
    refine ⟨⟨.inl ⟨hentitled, service, rfl⟩, entry, rfl, huid, hns, ?_, .inr ⟨?_, rfl⟩⟩, fun key => ?_⟩
    · simp [hreason, hentitled]
    · simp [hreason]
    · show key ∈ s.guard.alerted ↔ ∃ e ∈ entry :: s.guard.audited, e.reason.isSome = true ∧ e.key = key
      rw [List.exists_mem_cons_iff, ← h]
      simp [hreason]
  · obtain ⟨hremembers, haudited, halerts⟩ := h.deny hreason
    rw [hcall]
    refine ⟨⟨.inr ⟨hentitled, AccessGuard.deny_error⟩, entry, haudited, huid, hns, ?_, ?_⟩, hremembers⟩
    · simp [hreason, hentitled]
    · rcases halerts with ⟨hnew, halerts⟩ | ⟨⟨e, he, hfact⟩, halerts⟩
      · exact .inl ⟨⟨hreason, hnew⟩, halerts⟩
      · exact .inr ⟨fun hnew => hnew.2 e he hfact, halerts⟩

theorem remembers_run (registry : ServiceRegistry) (turns : List Turn) :
    (Guarded.run ⟨registry, {}⟩ turns).guard.Remembers ∧
      (Guarded.run ⟨registry, {}⟩ turns).guard.audited.length = calls turns := by
  induction turns using List.reverseRecOn with
  | nil => exact ⟨fun key => by simp [Guarded.run], rfl⟩
  | append_singleton turns turn ih =>
    obtain ⟨hremembers, hlength⟩ := ih
    unfold Guarded.run calls at *
    rw [List.foldl_append, List.foldl_cons, List.foldl_nil, List.countP_append]
    cases turn with
    | replaces registry' => exact ⟨hremembers, hlength⟩
    | authorizes credentials ns =>
      obtain ⟨hanswered, hnext⟩ := answered_of_remembers hremembers credentials ns
      obtain ⟨entry, haudited, -⟩ := hanswered.entry
      refine ⟨hnext, ?_⟩
      show ((AccessGuard.authorize _ _ credentials ns).2.audited).length = _
      rw [haudited, List.length_cons, hlength]
      rfl

/-- After any turns, every call is in the audit log once, and the next one is answered as it should be. -/
theorem guard_audits_all_and_alerts_once (registry : ServiceRegistry) (turns : List Turn)
    (credentials : Except Error Nat) (ns : String) :
    (Guarded.run ⟨registry, {}⟩ turns).guard.audited.length = calls turns ∧
      Answered (Guarded.run ⟨registry, {}⟩ turns) credentials ns
        ((Guarded.run ⟨registry, {}⟩ turns).guard.authorize (Guarded.run ⟨registry, {}⟩ turns).registry
          credentials ns) := by
  obtain ⟨hremembers, hlength⟩ := remembers_run registry turns
  exact ⟨hlength, (answered_of_remembers hremembers credentials ns).1⟩

end ConfigRegistry.Identity
