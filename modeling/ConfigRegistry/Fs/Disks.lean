import ConfigRegistry.Js.Value
import Mathlib.Data.List.Infix

/-!
# Disks

A directory as the operations of `node:fs` find it and leave it, and what they leave of it where they fail
or are cut short. What a symbolic link leads to is not part of a disk, and no operation goes through one.
-/

namespace ConfigRegistry.Fs

open Js

/-- The names on the way to a place. A last name that is empty is a slash at the end. -/
abbrev Place : Type := List String

inductive Entry where
  | file (text : String)
  | dir
  | link
deriving DecidableEq

/-- What `Dirent` tells of an entry. -/
inductive Kind where
  | file | dir | link
deriving DecidableEq

def Entry.kind : Entry → Kind
  | .file _ => .file
  | .dir => .dir
  | .link => .link

/-- What is below a directory. -/
structure Disk where
  entries : List (Place × Entry)

def systemError (code : Code) (name : String) : Error := { message := name, code := some code }

def enoent : Error := systemError .ENOENT "ENOENT"

def enotdir : Error := systemError .ENOTDIR "ENOTDIR"

def eisdir : Error := systemError .EISDIR "EISDIR"

def eexist : Error := systemError .EEXIST "EEXIST"

/-- A place without the slash at its end. -/
def base (place : Place) : Place := if place.getLast? = some "" then place.dropLast else place

/-- `dirname`. -/
def dirname (place : Place) : Place := (base place).dropLast

namespace Disk

variable (d : Disk)

/-- What is at a place. -/
def at_ (place : Place) : Option Entry := if place = [] then some .dir else d.entries.lookup place

/-- The disk with an entry at a place. -/
def put (place : Place) (entry : Entry) : Disk := ⟨(place, entry) :: d.entries.filter fun e => e.1 != place⟩

/-- The disk without the entries at some places. -/
def keep (kept : Place → Bool) : Disk := ⟨d.entries.filter fun e => kept e.1⟩

/-- What one gets to from a directory. -/
def follow (dir : Place) : Place → Except Error Entry
  | [] => .ok .dir
  | name :: rest =>
    if name = "" ∧ rest = [] then .ok .dir
    else match d.at_ (dir ++ [name]) with
      | none => .error enoent
      | some entry =>
        if rest = [] then .ok entry
        else match entry with
          | .dir => follow (dir ++ [name]) rest
          | _ => .error enotdir

/-- `lstat`. -/
def lstat (place : Place) : Except Error Entry := d.follow [] place

/-- `readFile`. -/
def readFile (place : Place) : Except Error String :=
  match d.lstat place with
  | .ok (.file text) => .ok text
  | .ok .dir => .error eisdir
  | .ok .link => .error (systemError .other "ELOOP")
  | .error e => .error e

/-- The names in a directory. -/
def names (place : Place) : List String :=
  (d.entries.filterMap fun e =>
    if e.1.dropLast = place then e.1.getLast? else none).eraseDups

/-- `readdir`, with the types of the entries. -/
def readdir (place : Place) : Except Error (List (String × Kind)) :=
  match d.lstat place with
  | .ok .dir => .ok ((d.names (base place)).filterMap fun name =>
      (d.at_ (base place ++ [name])).map fun entry => (name, entry.kind))
  | .ok _ => .error enotdir
  | .error e => .error e

/-- The directories on the way to a place, and the place itself, from the outside in. -/
def steps (place : Place) : List Place := (base place).inits.tail

/-- The directories that `mkdir` creates. -/
def missing (place : Place) : List Place := (steps place).filter fun p => (d.at_ p).isNone

def mkdirs (places : List Place) : Disk := places.foldl (fun d p => d.put p .dir) d

/-- `mkdir`, with what is missing on the way; it tells the first directory that it has created. -/
def mkdir (place : Place) : Except Error (Option Place) × Disk :=
  match (steps place).find? fun p => d.at_ p != none && d.at_ p != some .dir with
  | some p => (.error (if p = base place then eexist else enotdir), d)
  | none => (.ok (d.missing place).head?, d.mkdirs (d.missing place))

/-- Open, write, flush and close a file that is not there yet. -/
def create (place : Place) (text : String) : Except Error Unit × Disk :=
  match d.lstat place.dropLast with
  | .error e => (.error e, d)
  | .ok .dir => if (d.at_ place).isSome then (.error eexist, d) else (.ok (), d.put place (.file text))
  | .ok _ => (.error enotdir, d)

/-- `rename`, of a file. -/
def rename (source target : Place) : Except Error Unit × Disk :=
  match d.lstat source with
  | .error e => (.error e, d)
  | .ok entry =>
    match d.lstat (dirname target) with
    | .error e => (.error e, d)
    | .ok .dir =>
      if base target ≠ target then (.error enotdir, d)
      else if d.at_ target = some .dir then (.error eisdir, d)
      else (.ok (), (d.keep fun p => p != source).put target entry)
    | .ok _ => (.error enotdir, d)

/-- `rm`, forced. -/
def rm (place : Place) : Except Error Unit × Disk :=
  match d.lstat place with
  | .error e => (if e.isMissing then .ok () else .error e, d)
  | .ok .dir => (.error (systemError .other "ERR_FS_EISDIR"), d)
  | .ok _ => (.ok (), d.keep fun p => p != place)

/-- `rm`, forced and recursive. -/
def rmAll (place : Place) : Except Error Unit × Disk :=
  match d.lstat place with
  | .error e => (if e.isMissing then .ok () else .error e, d)
  | .ok _ => (.ok (), d.keep fun p => !place.isPrefixOf p)

/-- `open` and `sync` of a directory. -/
def sync (place : Place) : Except Error Unit := (d.lstat place).map fun _ => ()

/-! ### What is at a place -/

theorem lookup_filter {α β : Type} [BEq α] [LawfulBEq α] (entries : List (α × β)) (kept : α → Bool) (key : α) :
    (entries.filter fun e => kept e.1).lookup key = if kept key then entries.lookup key else none := by
  induction entries with
  | nil => simp
  | cons entry entries ih =>
    obtain ⟨k, b⟩ := entry
    rw [List.filter_cons]
    by_cases hk : key = k
    · subst hk
      cases hkept : kept key with
      | true => simp
      | false => simpa [hkept] using ih
    · have hne : (key == k) = false := beq_false_of_ne hk
      rw [List.lookup_cons, hne, ← ih]
      cases hkept : kept k with
      | true => simp [List.lookup_cons, hne]
      | false => simp

variable {d} {d' : Disk} {place place' : Place}

theorem at_root : d.at_ [] = some .dir := rfl

theorem at_of_ne (h : place ≠ []) : d.at_ place = d.entries.lookup place := if_neg h

theorem at_put {entry : Entry} (h : place ≠ []) :
    (d.put place entry).at_ place' = if place' = place then some entry else d.at_ place' := by
  by_cases hroot : place' = []
  · subst hroot
    rw [if_neg fun heq => h heq.symm]
    rfl
  · rw [at_of_ne hroot, at_of_ne hroot, put]
    split
    · rename_i heq
      rw [heq, List.lookup_cons_self]
    · rename_i hne
      rw [List.lookup_cons, beq_false_of_ne hne]
      have hkept : (place' != place) = true := bne_iff_ne.2 hne
      exact (lookup_filter d.entries (fun p => p != place) place').trans (if_pos hkept)

theorem at_keep {kept : Place → Bool} (h : place ≠ []) :
    (d.keep kept).at_ place = if kept place then d.at_ place else none := by
  rw [at_of_ne h, at_of_ne h]
  exact lookup_filter d.entries kept place

theorem at_mkdirs {places : List Place} (h : [] ∉ places) :
    (d.mkdirs places).at_ place = if place ∈ places then some .dir else d.at_ place := by
  induction places generalizing d with
  | nil => simp [mkdirs]
  | cons p places ih =>
    rw [List.mem_cons, not_or] at h
    show ((d.put p .dir).mkdirs places).at_ place = _
    rw [ih h.2, at_put (Ne.symm h.1)]
    by_cases hp : place = p
    · subst hp
      simp
    · simp [hp]

/-! ### What is elsewhere -/

/-- What is below a directory of another name than this. -/
def elsewhere (d : Disk) (name : String) : List (Place × Entry) := d.entries.filter fun e => e.1.head? != some name

variable {name : String}

theorem at_elsewhere (h : place.head? ≠ some name) (hne : place ≠ []) :
    d.at_ place = (d.elsewhere name).lookup place := by
  rw [at_of_ne hne]
  have hkept : (place.head? != some name) = true := bne_iff_ne.2 h
  exact ((lookup_filter d.entries (fun p : Place => p.head? != some name) place).trans (if_pos hkept)).symm

theorem at_congr (helse : d.elsewhere name = d'.elsewhere name) (h : place.head? ≠ some name) :
    d.at_ place = d'.at_ place := by
  by_cases hne : place = []
  · subst hne
    rfl
  · rw [at_elsewhere h hne, at_elsewhere h hne, helse]

theorem elsewhere_put {entry : Entry} (h : place.head? = some name) :
    (d.put place entry).elsewhere name = d.elsewhere name := by
  rw [elsewhere, put, List.filter_cons_of_neg (by simpa using h), List.filter_filter]
  apply List.filter_congr
  intro e _
  by_cases he : e.1 = place
  · simp [he, h]
  · simp [he]

theorem elsewhere_keep {kept : Place → Bool} (h : ∀ p, kept p = false → p.head? = some name) :
    (d.keep kept).elsewhere name = d.elsewhere name := by
  rw [elsewhere, keep, List.filter_filter]
  apply List.filter_congr
  intro e _
  cases hkept : kept e.1 with
  | true => simp
  | false => simp [h _ hkept]

theorem elsewhere_mkdirs {places : List Place} (h : ∀ p ∈ places, p.head? = some name) :
    (d.mkdirs places).elsewhere name = d.elsewhere name := by
  induction places generalizing d with
  | nil => rfl
  | cons p places ih =>
    rw [List.forall_mem_cons] at h
    show ((d.put p .dir).mkdirs places).elsewhere name = _
    rw [ih h.2, elsewhere_put h.1]

theorem follow_congr (helse : d.elsewhere name = d'.elsewhere name) {dir rest : Place}
    (h : (dir ++ rest).head? ≠ some name) : d.follow dir rest = d'.follow dir rest := by
  induction rest generalizing dir with
  | nil => rfl
  | cons first rest ih =>
    have hhere : (dir ++ [first]).head? ≠ some name := by
      cases dir with
      | nil => exact h
      | cons x dir => exact h
    have hrest : ((dir ++ [first]) ++ rest).head? ≠ some name := by
      rwa [List.append_assoc]
    rw [follow, follow, at_congr helse hhere, ih hrest]

/-- What is looked at elsewhere is as it was. -/
theorem lstat_congr (helse : d.elsewhere name = d'.elsewhere name) (h : place.head? ≠ some name) :
    d.lstat place = d'.lstat place := follow_congr helse h

theorem readFile_congr (helse : d.elsewhere name = d'.elsewhere name) (h : place.head? ≠ some name) :
    d.readFile place = d'.readFile place := by
  rw [readFile, readFile, lstat_congr helse h]

theorem names_congr (helse : d.elsewhere name = d'.elsewhere name) (h : place.head? ≠ some name)
    (hne : place ≠ []) : d.names place = d'.names place := by
  have hnames : ∀ d : Disk, d.names place = ((d.elsewhere name).filterMap fun e =>
      if e.1.dropLast = place then e.1.getLast? else none).eraseDups := by
    intro d
    rw [names, elsewhere, List.filterMap_filter]
    congr 1
    apply List.filterMap_congr
    intro e _
    split
    · rename_i hplace
      have hhead : e.1.head? ≠ some name := by
        rw [← hplace] at h hne
        cases hcase : e.1 with
        | nil => simp
        | cons x rest =>
          rw [hcase] at h hne
          cases rest with
          | nil => exact (hne rfl).elim
          | cons y rest => exact h
      simp [hhead]
    · simp
  rw [hnames, hnames, helse]

theorem head_base (h : place.head? ≠ some name) : (base place).head? ≠ some name := by
  rw [base]
  split
  · cases place with
    | nil => exact h
    | cons x rest =>
      cases rest with
      | nil => simp
      | cons y rest => exact h
  · exact h

theorem readdir_congr (helse : d.elsewhere name = d'.elsewhere name) (h : place.head? ≠ some name)
    (hne : base place ≠ []) : d.readdir place = d'.readdir place := by
  have hbase := head_base h
  have hentries : (d.names (base place)).filterMap (fun n => (d.at_ (base place ++ [n])).map fun entry => (n, entry.kind)) =
      (d'.names (base place)).filterMap fun n => (d'.at_ (base place ++ [n])).map fun entry => (n, entry.kind) := by
    rw [names_congr helse hbase hne]
    apply List.filterMap_congr
    intro n _
    rw [at_congr helse]
    cases hcase : base place with
    | nil => exact (hne hcase).elim
    | cons x rest =>
      rw [hcase] at hbase
      exact hbase
  rw [readdir, readdir, lstat_congr helse h, hentries]

end Disk

end ConfigRegistry.Fs
