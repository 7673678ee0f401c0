import ConfigRegistry.Auth.Attempts

/-!
# Rotating the break-glass record

The sign-in is given the record of the repository state once, when the service boots; a reload
refreshes the state and not the sign-in. So an attempt is judged by the record that is held as long
as the record has the credentials of the boot, and by another one afterwards.
-/

namespace ConfigRegistry.Auth

open Js Async Boot

variable (crypto : Crypto)

/-- Two records that the same password and the same codes open. -/
def SameCredentials (held given : BreakGlassRecord) : Prop :=
  held.passwordHash = given.passwordHash ∧ held.totpSecret = given.totpSecret

/-- When the attempt was accepted, the repository state held a record, with the credentials that the
sign-in was given. -/
def Accepted.Current (a : Accepted) (given : Option BreakGlassRecord) : Prop :=
  ∃ held record, a.held = some held ∧ given = some record ∧ SameCredentials held record

/-- The attempt had the credentials of the record that the repository state held. -/
def Accepted.HeldThen (a : Accepted) : Prop := ∃ held, a.held = some held ∧ a.Genuine crypto held

variable {crypto}

/-- What opens a record opens every one with its credentials. -/
theorem Accepted.Genuine.of_same {a : Accepted} {held record : BreakGlassRecord}
    (h : a.Genuine crypto record) (hsame : SameCredentials held record) : a.Genuine crypto held where
  password := hsame.1 ▸ h.password
  step := h.step
  code := hsame.2 ▸ h.code

/-- **Rotating the record takes effect** for the attempts accepted while the record that is held has
the credentials of the boot. -/
theorem held_record_decides {rt : Runtime} {options : RepositoryStateOptions}
    {p : Pool lang Request Answer} (h : Reach (service crypto rt options) Booted p) :
    ∀ a ∈ p.state.accepted, a.Current p.state.record → a.HeldThen crypto := by
  intro a ha hcurrent
  obtain ⟨held, given, hheld, hgiven, hsame⟩ := hcurrent
  obtain ⟨record, hrecord, hgenuine⟩ := (spends_of_reach h).1.genuine a ha
  rw [hgiven] at hrecord
  cases hrecord
  exact ⟨held, hheld, hgenuine.of_same hsame⟩

/-- A reload during which the record is there, and an attempt. -/
def recordKept : Pool lang Request Answer :=
  (serviceDriver sampleCrypto sampleRuntime ⟨none, false, false⟩).drive ⟨sampleProcess, []⟩
    [.arrive .reload, .run 0 (.text ""), .run 0 .done,
      .arrive (.attempt "opensesame" "287082" 59), .run 1 (.reachable false), .run 1 .done]

theorem held_record_decides_kept :
    recordKept.state.accepted.map Accepted.attempt = [1] ∧
      ∀ a ∈ recordKept.state.accepted, a.HeldThen sampleCrypto := by
  have haccepted : recordKept.state.accepted =
      [⟨1, "opensesame", "287082", 59, 1, some sampleRecord⟩] := rfl
  have hrecord : recordKept.state.record = some sampleRecord := rfl
  refine ⟨by rw [haccepted]; rfl, fun a ha => ?_⟩
  refine held_record_decides (Driver.drive_reach
    (serviceDriver_follows sampleCrypto sampleRuntime ⟨none, false, false⟩) sampleProcess_booted _)
    a ha ?_
  rw [haccepted] at ha
  obtain rfl := List.mem_singleton.1 ha
  exact ⟨sampleRecord, sampleRecord, rfl, hrecord, rfl, rfl⟩

/-- The record is deleted, and a reload notices. -/
def recordDeleted : Pool lang Request Answer :=
  (serviceDriver sampleCrypto sampleRuntime ⟨some "break-glass.yaml", false, false⟩).drive
    ⟨sampleProcess, []⟩
    [.arrive .reload, .run 0 (.text ""), .run 0 .done,
      .run 0 (.fails ⟨"no such file", some .ENOENT⟩),
      .arrive (.attempt "opensesame" "287082" 59), .run 1 (.reachable false), .run 1 .done]

/-- The deleted record still opens the service. -/
theorem deleted_record_is_accepted :
    ¬ ∀ p, Reach (service sampleCrypto sampleRuntime ⟨some "break-glass.yaml", false, false⟩) Booted p →
      ∀ a ∈ p.state.accepted, a.HeldThen sampleCrypto := by
  intro h
  have hreach : Reach (service sampleCrypto sampleRuntime ⟨some "break-glass.yaml", false, false⟩)
      Booted recordDeleted :=
    Driver.drive_reach
      (serviceDriver_follows sampleCrypto sampleRuntime ⟨some "break-glass.yaml", false, false⟩)
      sampleProcess_booted _
  have haccepted : recordDeleted.state.accepted =
      [⟨1, "opensesame", "287082", 59, 1, none⟩] := rfl
  obtain ⟨held, hheld, -⟩ := h _ hreach _ (haccepted ▸ List.mem_singleton_self _)
  cases hheld

end ConfigRegistry.Auth
