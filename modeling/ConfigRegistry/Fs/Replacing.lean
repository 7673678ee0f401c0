import ConfigRegistry.Fs.Disks

/-!
# Replacing a file

`writeFile` of a temporary file and `rename` over the file it replaces. A name stands for an inode, and a file that
is open stays the inode it was when it was opened, whatever becomes of its name.
-/

namespace ConfigRegistry.Fs

open Js

/-- A file, the temporary files that processes replace it by, and the texts of their inodes. -/
structure Replaced where
  texts : List (List Char) := []
  temps : List (Nat × Nat) := []
  target : Option Nat := none

namespace Replaced

variable (r : Replaced)

/-- The inode of the temporary file of a process. -/
def temp (pid : Nat) : Option Nat := r.temps.lookup pid

/-- The text of the file. -/
def text : Option (List Char) := r.target.bind fun i => r.texts[i]?

/-- `open(temp, 'w')`: a file that is there keeps its inode and loses its text. -/
def openTemp (pid : Nat) : Nat × Replaced :=
  match r.temp pid with
  | some i => (i, { r with texts := r.texts.set i [] })
  | none => (r.texts.length, { r with texts := r.texts ++ [[]], temps := (pid, r.texts.length) :: r.temps })

/-- Writes over what an open file begins with. -/
def write (inode : Nat) (text : List Char) : Replaced :=
  { r with texts := r.texts.modify inode fun old => text ++ old.drop text.length }

/-- `rename(temp, path)`. -/
def rename (pid : Nat) : Except Error Unit × Replaced :=
  match r.temp pid with
  | some i => (.ok (), { r with temps := r.temps.filter fun e => e.1 != pid, target := some i })
  | none => (.error enoent, r)

/-- `unlink(temp)`. -/
def unlink (pid : Nat) : Except Error Unit × Replaced :=
  match r.temp pid with
  | some _ => (.ok (), { r with temps := r.temps.filter fun e => e.1 != pid })
  | none => (.error enoent, r)

/-- Every name stands for an inode, and no temporary file is the file itself. -/
structure Sound : Prop where
  temps : ∀ pid i, r.temp pid = some i → i < r.texts.length
  target : ∀ i, r.target = some i → i < r.texts.length
  apart : ∀ pid i, r.temp pid = some i → r.target ≠ some i
  distinct : ∀ pid pid' i, r.temp pid = some i → r.temp pid' = some i → pid = pid'

/-- The temporary file of a process is open, with this text. -/
structure Holds (pid inode : Nat) (text : List Char) : Prop extends r.Sound where
  temp : r.temp pid = some inode
  text : r.texts[inode]? = some text

variable {r} {pid inode : Nat}

theorem sound_empty : Sound {} where
  temps := by
    intro pid i h
    cases h
  target := by
    intro i h
    cases h
  apart := by
    intro pid i h
    cases h
  distinct := by
    intro pid pid' i h
    cases h

theorem temp_filter (temps : List (Nat × Nat)) (pid pid' : Nat) :
    (temps.filter fun e => e.1 != pid).lookup pid' = if pid' = pid then none else temps.lookup pid' := by
  rw [Disk.lookup_filter temps fun p => p != pid]
  by_cases h : pid' = pid <;> simp [h]

theorem getElem?_lt {i : Nat} (h : i < r.texts.length) : ∃ text, r.texts[i]? = some text :=
  ⟨_, List.getElem?_eq_getElem h⟩

/-- Opening the temporary file leaves the file as it is. -/
theorem Sound.openTemp (h : r.Sound) (pid : Nat) :
    (r.openTemp pid).2.Holds pid (r.openTemp pid).1 [] ∧ (r.openTemp pid).2.text = r.text := by
  unfold Replaced.openTemp
  cases htemp : r.temp pid with
  | some i =>
    have hlt := h.temps pid i htemp
    refine ⟨⟨⟨?_, ?_, h.apart, h.distinct⟩, htemp, ?_⟩, ?_⟩
    · intro pid' i' h'
      rw [List.length_set]
      exact h.temps pid' i' h'
    · intro i' h'
      rw [List.length_set]
      exact h.target i' h'
    · show (r.texts.set i [])[i]? = some []
      rw [List.getElem?_set_self hlt]
    · unfold Replaced.text
      cases htarget : r.target with
      | none => rfl
      | some j =>
        have hne : i ≠ j := by
          rintro rfl
          exact h.apart pid i htemp htarget
        show (r.texts.set i [])[j]? = r.texts[j]?
        rw [List.getElem?_set_ne hne]
  | none =>
    have hlookup : ∀ pid', List.lookup pid' ((pid, r.texts.length) :: r.temps) =
        if pid' = pid then some r.texts.length else r.temp pid' := by
      intro pid'
      rw [List.lookup_cons]
      by_cases hpid : pid' = pid
      · simp [hpid]
      · rw [if_neg hpid, beq_false_of_ne hpid]
        rfl
    have hcases : ∀ pid' i, List.lookup pid' ((pid, r.texts.length) :: r.temps) = some i →
        pid' = pid ∧ i = r.texts.length ∨ pid' ≠ pid ∧ r.temp pid' = some i ∧ i < r.texts.length := by
      intro pid' i h'
      rw [hlookup] at h'
      split at h'
      · rename_i hpid
        exact .inl ⟨hpid, (Option.some.inj h').symm⟩
      · rename_i hpid
        exact .inr ⟨hpid, h', h.temps pid' i h'⟩
    refine ⟨⟨⟨?_, ?_, ?_, ?_⟩, ?_, ?_⟩, ?_⟩
    · intro pid' i h'
      rw [List.length_append, List.length_singleton]
      rcases hcases pid' i h' with ⟨-, rfl⟩ | ⟨-, -, hlt⟩
      · omega
      · omega
    · intro i h'
      rw [List.length_append, List.length_singleton]
      have := h.target i h'
      omega
    · intro pid' i h' htarget
      rcases hcases pid' i h' with ⟨-, rfl⟩ | ⟨-, hold, -⟩
      · exact absurd (h.target _ htarget) (by omega)
      · exact h.apart pid' i hold htarget
    · intro pid' pid'' i h' h''
      rcases hcases pid' i h' with ⟨rfl, rfl⟩ | ⟨-, hold, hlt⟩
      · rcases hcases pid'' _ h'' with ⟨rfl, -⟩ | ⟨-, -, hlt⟩
        · rfl
        · omega
      · rcases hcases pid'' i h'' with ⟨-, rfl⟩ | ⟨-, hold', -⟩
        · omega
        · exact h.distinct pid' pid'' i hold hold'
    · show List.lookup pid ((pid, r.texts.length) :: r.temps) = _
      rw [hlookup, if_pos rfl]
    · exact List.getElem?_concat_length
    · unfold Replaced.text
      cases htarget : r.target with
      | none => rfl
      | some j =>
        show (r.texts ++ [[]])[j]? = r.texts[j]?
        rw [List.getElem?_append_left (h.target j htarget)]

/-- Writing the temporary file leaves the file as it is. -/
theorem Holds.write (h : r.Holds pid inode []) (text : List Char) :
    (r.write inode text).Holds pid inode text ∧ (r.write inode text).text = r.text := by
  have hlt := h.temps pid inode h.temp
  refine ⟨⟨⟨?_, ?_, h.apart, h.distinct⟩, h.temp, ?_⟩, ?_⟩
  · intro pid' i h'
    show i < (r.texts.modify inode _).length
    rw [List.length_modify]
    exact h.toSound.temps pid' i h'
  · intro i h'
    show i < (r.texts.modify inode _).length
    rw [List.length_modify]
    exact h.target i h'
  · show (r.texts.modify inode _)[inode]? = some text
    rw [List.getElem?_modify_eq, h.text]
    simp
  · unfold Replaced.text
    show (r.target.bind fun i => (r.texts.modify inode _)[i]?) = _
    cases htarget : r.target with
    | none => rfl
    | some j =>
      have hne : inode ≠ j := by
        rintro rfl
        exact h.apart pid _ h.temp htarget
      show (r.texts.modify inode _)[j]? = r.texts[j]?
      rw [List.getElem?_modify_ne _ _ hne]

/-- Renaming the temporary file gives the file its text. -/
theorem Holds.rename {text : List Char} (h : r.Holds pid inode text) :
    (r.rename pid).1 = .ok () ∧ (r.rename pid).2.Sound ∧ (r.rename pid).2.text = some text := by
  unfold Replaced.rename
  rw [h.temp]
  refine ⟨rfl, ⟨?_, ?_, ?_, ?_⟩, h.text⟩
  · intro pid' i h'
    have hold : r.temp pid' = some i := by
      change List.lookup pid' (r.temps.filter fun e => e.1 != pid) = some i at h'
      rw [temp_filter] at h'
      split at h'
      · cases h'
      · exact h'
    exact h.toSound.temps pid' i hold
  · intro i h'
    obtain rfl := Option.some.inj h'
    exact h.toSound.temps pid _ h.temp
  · intro pid' i h' htarget
    obtain rfl := Option.some.inj htarget
    change List.lookup pid' (r.temps.filter fun e => e.1 != pid) = some inode at h'
    rw [temp_filter] at h'
    split at h'
    · cases h'
    · rename_i hne
      exact hne (h.distinct pid' pid inode h' h.temp)
  · intro pid' pid'' i h' h''
    change List.lookup pid' (r.temps.filter fun e => e.1 != pid) = some i at h'
    change List.lookup pid'' (r.temps.filter fun e => e.1 != pid) = some i at h''
    rw [temp_filter] at h' h''
    split at h'
    · cases h'
    · split at h''
      · cases h''
      · exact h.distinct pid' pid'' i h' h''

/-- Removing a temporary file leaves the file as it is. -/
theorem Sound.unlink (h : r.Sound) (pid : Nat) : (r.unlink pid).2.Sound ∧ (r.unlink pid).2.text = r.text := by
  unfold Replaced.unlink
  split
  · have hold : ∀ pid' i, List.lookup pid' (r.temps.filter fun e => e.1 != pid) = some i → r.temp pid' = some i := by
      intro pid' i h'
      rw [temp_filter] at h'
      split at h'
      · cases h'
      · exact h'
    refine ⟨⟨?_, h.target, ?_, ?_⟩, rfl⟩
    · intro pid' i h'
      exact h.temps pid' i (hold pid' i h')
    · intro pid' i h'
      exact h.apart pid' i (hold pid' i h')
    · intro pid' pid'' i h' h''
      exact h.distinct pid' pid'' i (hold pid' i h') (hold pid'' i h'')
  · exact ⟨h, rfl⟩

end Replaced

end ConfigRegistry.Fs
