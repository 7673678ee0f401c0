import Mathlib.Logic.Function.Basic

/-!
# The database as its readers see it

Every read, snapshot and publication of the engine runs under one lock, so a reader sees the
database at one revision. `Versions` is that view: what the files were at each revision, and which
revision is current.
-/

namespace ConfigRegistry.Store

/-- The files of a database, by path. -/
abbrev Tree : Type := List (String × String)

/-- The files under a directory, or all of them. -/
def Tree.under (files : Tree) (dir : String) : Tree :=
  if dir = "" then files else files.filter fun (path, _) => (dir ++ "/").toList.isPrefixOf path.toList

/-- The history of a database up to its current revision. -/
structure Versions where
  at_ : Nat → Tree
  revision : Nat

namespace Versions

variable (db : Versions)

/-- The files now. -/
def current : Tree := db.at_ db.revision

/-- The next revision holds `files`. -/
def publish (files : Tree) : Versions where
  at_ := Function.update db.at_ (db.revision + 1) files
  revision := db.revision + 1

/-- `later` continues the history of `db`. -/
structure Extends (later : Versions) : Prop where
  revision : db.revision ≤ later.revision
  at_ : ∀ r ≤ db.revision, later.at_ r = db.at_ r

variable {db} {db' db'' : Versions}

theorem Extends.refl : db.Extends db := ⟨Nat.le_refl _, fun _ _ => rfl⟩

theorem Extends.trans (h : db.Extends db') (h' : db'.Extends db'') : db.Extends db'' where
  revision := Nat.le_trans h.revision h'.revision
  at_ r hr := (h'.at_ r (Nat.le_trans hr h.revision)).trans (h.at_ r hr)

theorem extends_publish (files : Tree) : db.Extends (db.publish files) where
  revision := Nat.le_succ _
  at_ _ hr := Function.update_of_ne (Nat.ne_of_lt (Nat.lt_succ_of_le hr)) _ _

end Versions

end ConfigRegistry.Store
