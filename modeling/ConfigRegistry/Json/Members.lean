import ConfigRegistry.Json.Text

/-!
# The members of objects

A text may repeat a key of an object. `JSON.parse` keeps the last value, in the first place.
-/

namespace ConfigRegistry.Json

section

variable {α : Type}

/-- The members an object has of those that its text gives. -/
def own : List (List Char × α) → List (List Char × α)
  | [] => []
  | (key, value) :: members =>
    (key, ((own members).lookup key).getD value) :: (own members).filter fun m => m.1 != key

theorem nodup_own (members : List (List Char × α)) : ((own members).map Prod.fst).Nodup := by
  induction members with
  | nil => exact .nil
  | cons m members ih =>
    obtain ⟨key, value⟩ := m
    rw [own, List.map_cons, List.nodup_cons]
    constructor
    · intro h
      obtain ⟨m, hm, hkey⟩ := List.mem_map.1 h
      have hne := (List.mem_filter.1 hm).2
      simp [hkey] at hne
    · exact ih.sublist (List.Sublist.map _ List.filter_sublist)

theorem own_of_nodup {members : List (List Char × α)} (h : (members.map Prod.fst).Nodup) :
    own members = members := by
  induction members with
  | nil => rfl
  | cons m members ih =>
    obtain ⟨key, value⟩ := m
    rw [List.map_cons, List.nodup_cons] at h
    have hne : ∀ m ∈ members, m.1 ≠ key := by
      rintro m hm rfl
      exact h.1 (List.mem_map.2 ⟨m, hm, rfl⟩)
    have hnone : members.lookup key = none := by
      rw [List.lookup_eq_none_iff]
      intro m hm
      simpa using (hne m hm).symm
    have hall : members.filter (fun m => m.1 != key) = members := by
      rw [List.filter_eq_self]
      intro m hm
      simpa using hne m hm
    rw [own, ih h.2, hnone, hall]
    rfl

end

/-- `(value as { key?: unknown }).key`; none where JavaScript reads `undefined`. -/
def Doc.member (d : Doc) (key : String) : Option Doc :=
  match d with
  | .obj members => (own members).lookup key.toList
  | _ => none

mutual

/-- The document without the repeated keys. -/
def plain : Doc → Doc
  | .arr items => .arr (plainItems items)
  | .obj members => .obj (own (plainMembers members))
  | .null => .null
  | .bool b => .bool b
  | .num n => .num n
  | .str s => .str s

def plainItems : List Doc → List Doc
  | [] => []
  | v :: vs => plain v :: plainItems vs

def plainMembers : List (List Char × Doc) → List (List Char × Doc)
  | [] => []
  | (key, v) :: members => (key, plain v) :: plainMembers members

end

/-- `JSON.stringify`, of a value that has been parsed. -/
def stringify (d : Doc) : List Char := render (plain d)

end ConfigRegistry.Json
