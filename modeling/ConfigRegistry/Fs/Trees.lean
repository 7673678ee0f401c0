import Mathlib.Data.List.Basic
import Mathlib.Data.List.Nodup

/-!
# Trees of files

Directories as a program meets them: names, each of a file, a symbolic link or another directory. What a
walk through a tree returns, and when it stops.
-/

namespace ConfigRegistry.Fs

/-- What a name in a directory stands for. -/
inductive Node where
  | file (text : String)
  | link (target : String)
  | dir (entries : List (String × Node))

/-- A name that a directory can hold. -/
structure ProperName (name : String) : Prop where
  nonempty : name ≠ ""
  segment : '/' ∉ name.toList

/-- The path of a name in a directory. -/
def child (path name : String) : String := if path = "" then name else path ++ "/" ++ name

/-- The path that goes through these names. -/
def pathText (segments : List String) : String := "/".intercalate segments

@[simp] theorem pathText_nil : pathText [] = "" := rfl

theorem toList_pathText (segments : List String) :
    (pathText segments).toList = ['/'].intercalate (segments.map String.toList) := by
  rw [pathText, String.toList_intercalate]
  rfl

/-- The names are read back from their path. -/
theorem splitOn_pathText {segments : List String} (hne : segments ≠ [])
    (h : ∀ name ∈ segments, ProperName name) :
    (pathText segments).toList.splitOn '/' = segments.map String.toList := by
  rw [toList_pathText]
  apply List.splitOn_intercalate
  · intro part hpart
    obtain ⟨name, hname, rfl⟩ := List.mem_map.1 hpart
    exact (h name hname).segment
  · simpa using hne

theorem pathText_eq_empty {segments : List String} (h : ∀ name ∈ segments, ProperName name) :
    pathText segments = "" ↔ segments = [] := by
  constructor
  · intro hempty
    by_contra hne
    have hparts := splitOn_pathText hne h
    rw [hempty] at hparts
    have hlist : "".toList.splitOn '/' = [[]] := by decide
    rw [hlist] at hparts
    cases segments with
    | nil => exact hne rfl
    | cons name rest =>
      obtain ⟨hname, -⟩ := List.cons.inj hparts
      exact (h name List.mem_cons_self).nonempty (String.toList_inj.1 hname.symm)
  · rintro rfl
    rfl

theorem pathText_injective {segments segments' : List String} (h : ∀ name ∈ segments, ProperName name)
    (h' : ∀ name ∈ segments', ProperName name) (heq : pathText segments = pathText segments') :
    segments = segments' := by
  by_cases hne : segments = []
  · subst hne
    exact ((pathText_eq_empty h').1 heq.symm).symm
  · have hne' : segments' ≠ [] := by
      rintro rfl
      exact hne ((pathText_eq_empty h).1 heq)
    have hparts := splitOn_pathText hne h
    rw [heq, splitOn_pathText hne' h'] at hparts
    exact (List.map_injective_iff.2 (fun _ _ => String.toList_inj.1) hparts).symm

theorem child_pathText {segments : List String} (h : ∀ name ∈ segments, ProperName name) (name : String) :
    child (pathText segments) name = pathText (segments ++ [name]) := by
  rw [child]
  split
  · rename_i hempty
    rw [(pathText_eq_empty h).1 hempty]
    simp [pathText]
  · rename_i hne
    have hsegments : segments ≠ [] := fun hnil => hne ((pathText_eq_empty h).2 hnil)
    rw [pathText, pathText, String.intercalate_append_of_ne_nil hsegments (by simp), String.intercalate_singleton]

/-! ### What is where -/

/-- Through names that are kept, one gets from a node to another one. -/
inductive Reaches (keep : String → Bool) : Node → List String → Node → Prop
  | here (node : Node) : Reaches keep node [] node
  | inside {entries : List (String × Node)} {name : String} {inner node : Node} {segments : List String}
      (hmem : (name, inner) ∈ entries) (hkeep : keep name = true) (h : Reaches keep inner segments node) :
      Reaches keep (.dir entries) (name :: segments) node

variable {keep : String → Bool}

theorem Reaches.trans {a b c : Node} {segments segments' : List String} (h : Reaches keep a segments b)
    (h' : Reaches keep b segments' c) : Reaches keep a (segments ++ segments') c := by
  induction h with
  | here => exact h'
  | inside hmem hkeep _ ih => exact .inside hmem hkeep (ih h')

theorem Reaches.kept {a b : Node} {segments : List String} (h : Reaches keep a segments b) :
    ∀ name ∈ segments, keep name = true := by
  induction h with
  | here => simp
  | inside _ hkeep _ ih => exact List.forall_mem_cons.2 ⟨hkeep, ih⟩

/-- What is reached through kept names is reached through any. -/
theorem Reaches.mono {keep' : String → Bool} {a b : Node} {segments : List String} (h : Reaches keep a segments b)
    (hkeep : ∀ name ∈ segments, keep' name = true) : Reaches keep' a segments b := by
  induction h with
  | here => exact .here _
  | inside hmem _ _ ih =>
    rw [List.forall_mem_cons] at hkeep
    exact .inside hmem hkeep.1 (ih hkeep.2)

/-- Every directory holds proper names, each once. -/
def Proper (node : Node) : Prop :=
  ∀ segments entries, Reaches (fun _ => true) node segments (.dir entries) →
    (entries.map Prod.fst).Nodup ∧ ∀ entry ∈ entries, ProperName entry.1

theorem Proper.reached {a b : Node} {segments : List String} (h : Proper a) (hreach : Reaches keep a segments b) :
    Proper b := fun segments' entries hinner =>
  h (segments ++ segments') entries ((hreach.mono fun _ _ => rfl).trans hinner)

theorem Proper.names {a b : Node} {segments : List String} (h : Proper a) (hreach : Reaches keep a segments b) :
    ∀ name ∈ segments, ProperName name := by
  induction hreach with
  | here => simp
  | inside hmem hkeep hinner ih =>
    refine List.forall_mem_cons.2 ⟨(h [] _ (.here _)).2 _ hmem, ih ?_⟩
    exact h.reached (.inside hmem hkeep (.here _))

/-- A path leads to one node. -/
theorem Reaches.unique {a b b' : Node} {segments : List String} (hproper : Proper a)
    (h : Reaches keep a segments b) (h' : Reaches keep a segments b') : b = b' := by
  induction h with
  | here =>
    cases h'
    rfl
  | inside hmem hkeep hinner ih =>
    cases h' with
    | inside hmem' _ hinner' =>
      have hnames := (hproper [] _ (.here _)).1
      obtain rfl := Prod.mk.inj (List.inj_on_of_nodup_map hnames hmem hmem' rfl) |>.2
      exact ih (hproper.reached (.inside hmem hkeep (.here _))) hinner'

/-! ### Walks -/

/-- What a program that goes through a tree looks at: the names that it does not pass over, the check that
it makes before it reads a directory, and what it reads of a symbolic link. -/
structure Walker (ε : Type) where
  keep : String → Bool
  enter : String → Except ε Unit
  linked : String → String → Except ε String

variable {ε : Type} (v : Walker ε)

mutual

/-- The files of a tree, each with its path. -/
def Walker.walk (path : String) : Node → Except ε (List (String × String))
  | .file text => .ok [(path, text)]
  | .link target => do
    let text ← v.linked path target
    pure [(path, text)]
  | .dir entries => do
    v.enter path
    Walker.walkEntries path entries
termination_by structural node => node

def Walker.walkEntries (path : String) : List (String × Node) → Except ε (List (String × String))
  | [] => .ok []
  | entry :: rest => do
    let files ← Walker.walkEntry path entry
    let others ← Walker.walkEntries path rest
    pure (files ++ others)
termination_by structural entries => entries

def Walker.walkEntry (path : String) : String × Node → Except ε (List (String × String))
  | (name, node) => if v.keep name then Walker.walk (child path name) node else .ok []
termination_by structural entry => entry

end

/-- What is read of a node that is no directory. -/
def Walker.Yields (path : String) (text : String) : Node → Prop
  | .file text' => text' = text
  | .link target => v.linked path target = .ok text
  | .dir _ => False

/-- What holds of files and links, and of a directory where it holds of all that is in it, holds. -/
theorem Node.induction {P : Node → Prop} (file : ∀ text, P (.file text)) (link : ∀ target, P (.link target))
    (dir : ∀ entries, (∀ entry ∈ entries, P entry.2) → P (.dir entries)) (node : Node) : P node := by
  generalize hsize : sizeOf node = size
  induction size using Nat.strongRecOn generalizing node with
  | _ size ih =>
    cases node with
    | file text => exact file text
    | link target => exact link target
    | dir entries =>
      apply dir
      intro entry hentry
      have hlt := List.sizeOf_lt_of_mem hentry
      obtain ⟨name, inner⟩ := entry
      simp only [Prod.mk.sizeOf_spec, Node.dir.sizeOf_spec] at hlt hsize
      exact ih (sizeOf inner) (by omega) inner rfl

theorem reaches_dir_iff {entries : List (String × Node)} {segments : List String} {node : Node} :
    Reaches keep (.dir entries) segments node ↔ segments = [] ∧ node = .dir entries ∨
      ∃ entry ∈ entries, keep entry.1 = true ∧ ∃ rest, segments = entry.1 :: rest ∧
        Reaches keep entry.2 rest node := by
  constructor
  · intro h
    cases h with
    | here => exact .inl ⟨rfl, rfl⟩
    | inside hmem hkeep h => exact .inr ⟨_, hmem, hkeep, _, rfl, h⟩
  · rintro (⟨rfl, rfl⟩ | ⟨⟨name, inner⟩, hmem, hkeep, rest, rfl, h⟩)
    · exact .here _
    · exact .inside hmem hkeep h

/-- Nothing stops a walk: every directory that it comes to can be entered, and every link read. -/
structure Passable (segments : List String) (node : Node) : Prop where
  enter : ∀ rest entries, Reaches v.keep node rest (.dir entries) →
    v.enter (pathText (segments ++ rest)) = .ok ()
  linked : ∀ rest target, Reaches v.keep node rest (.link target) →
    ∃ text, v.linked (pathText (segments ++ rest)) target = .ok text

/-- What a walk returns: the files that it comes to. -/
def Returns (segments : List String) (node : Node) (files : List (String × String)) : Prop :=
  ∀ path text, (path, text) ∈ files ↔ ∃ rest leaf, Reaches v.keep node rest leaf ∧
    path = pathText (segments ++ rest) ∧ v.Yields path text leaf

/-- A walk that is stopped by nothing returns the files that it comes to. -/
structure Walked (segments : List String) (node : Node) : Prop where
  returns : ∀ files, v.walk (pathText segments) node = .ok files →
    Passable v segments node ∧ Returns v segments node files
  ends : Passable v segments node → ∃ files, v.walk (pathText segments) node = .ok files

theorem passable_dir_iff {segments : List String} {entries : List (String × Node)} :
    Passable v segments (.dir entries) ↔ v.enter (pathText segments) = .ok () ∧
      ∀ entry ∈ entries, v.keep entry.1 = true → Passable v (segments ++ [entry.1]) entry.2 := by
  constructor
  · intro h
    have henter := h.enter [] entries (.here _)
    rw [List.append_nil] at henter
    refine ⟨henter, fun entry hmem hkeep => ⟨fun rest inner hreach => ?_, fun rest target hreach => ?_⟩⟩
    · rw [List.append_assoc]
      exact h.enter (entry.1 :: rest) inner (.inside hmem hkeep hreach)
    · rw [List.append_assoc]
      exact h.linked (entry.1 :: rest) target (.inside hmem hkeep hreach)
  · rintro ⟨henter, hall⟩
    constructor
    · intro rest inner hreach
      rcases reaches_dir_iff.1 hreach with ⟨rfl, -⟩ | ⟨entry, hmem, hkeep, rest, rfl, hinner⟩
      · rw [List.append_nil, henter]
      · have := (hall entry hmem hkeep).enter rest inner hinner
        rwa [List.append_assoc] at this
    · intro rest target hreach
      rcases reaches_dir_iff.1 hreach with ⟨-, hnode⟩ | ⟨entry, hmem, hkeep, rest, rfl, hinner⟩
      · cases hnode
      · have := (hall entry hmem hkeep).linked rest target hinner
        rwa [List.append_assoc] at this

theorem walkEntries_spec {segments : List String} (hnames : ∀ name ∈ segments, ProperName name)
    {entries : List (String × Node)}
    (ih : ∀ entry ∈ entries, v.keep entry.1 = true → Walked v (segments ++ [entry.1]) entry.2) :
    (∀ files, v.walkEntries (pathText segments) entries = .ok files →
      (∀ entry ∈ entries, v.keep entry.1 = true → Passable v (segments ++ [entry.1]) entry.2) ∧
      ∀ path text, (path, text) ∈ files ↔ ∃ entry ∈ entries, v.keep entry.1 = true ∧
        ∃ rest leaf, Reaches v.keep entry.2 rest leaf ∧ path = pathText (segments ++ [entry.1] ++ rest) ∧
          v.Yields path text leaf) ∧
    ((∀ entry ∈ entries, v.keep entry.1 = true → Passable v (segments ++ [entry.1]) entry.2) →
      ∃ files, v.walkEntries (pathText segments) entries = .ok files) := by
  induction entries with
  | nil =>
    constructor
    · intro files h
      obtain rfl : [] = files := Except.ok.inj h
      simp
    · exact fun _ => ⟨[], rfl⟩
  | cons entry entries ihe =>
    obtain ⟨name, node⟩ := entry
    obtain ⟨hreturns, hends⟩ := ihe fun entry hentry => ih entry (List.mem_cons_of_mem _ hentry)
    have hfirst := ih _ List.mem_cons_self
    simp only at hfirst
    rw [Walker.walkEntries, Walker.walkEntry, child_pathText hnames]
    cases hothers : v.walkEntries (pathText segments) entries with
    | error e =>
      constructor
      · intro files h
        split at h
        · cases hwalk : v.walk (pathText (segments ++ [name])) node with
          | error e =>
            rw [hwalk] at h
            cases h
          | ok first =>
            rw [hwalk] at h
            cases h
        · cases h
      · intro hpass
        obtain ⟨others, hends⟩ := hends fun entry hentry => hpass entry (List.mem_cons_of_mem _ hentry)
        rw [hothers] at hends
        cases hends
    | ok others =>
      obtain ⟨hpasses, hmems⟩ := hreturns others hothers
      by_cases hkeep : v.keep name = true
      · rw [if_pos hkeep]
        have hwalked := hfirst hkeep
        constructor
        · intro files h
          cases hwalk : v.walk (pathText (segments ++ [name])) node with
          | error e =>
            rw [hwalk] at h
            cases h
          | ok first =>
            rw [hwalk] at h
            obtain rfl : first ++ others = files := Except.ok.inj h
            obtain ⟨hpass, hmem⟩ := hwalked.returns first hwalk
            refine ⟨List.forall_mem_cons.2 ⟨fun _ => hpass, hpasses⟩, fun path text => ?_⟩
            rw [List.mem_append, hmem path text, hmems path text]
            constructor
            · rintro (hfound | ⟨entry, hentry, hfound⟩)
              · exact ⟨(name, node), List.mem_cons_self, hkeep, hfound⟩
              · exact ⟨entry, List.mem_cons_of_mem _ hentry, hfound⟩
            · rintro ⟨entry, hentry, hkeep', hfound⟩
              rcases List.mem_cons.1 hentry with rfl | hentry
              · exact .inl hfound
              · exact .inr ⟨entry, hentry, hkeep', hfound⟩
        · intro hpass
          obtain ⟨first, hwalk⟩ := hwalked.ends (hpass _ List.mem_cons_self hkeep)
          exact ⟨first ++ others, by rw [hwalk]; rfl⟩
      · rw [if_neg hkeep]
        constructor
        · intro files h
          obtain rfl : others = files := Except.ok.inj h
          refine ⟨List.forall_mem_cons.2 ⟨fun hkeep' => (hkeep hkeep').elim, hpasses⟩, fun path text => ?_⟩
          rw [hmems path text]
          constructor
          · rintro ⟨entry, hmem, hfound⟩
            exact ⟨entry, List.mem_cons_of_mem _ hmem, hfound⟩
          · rintro ⟨entry, hmem, hkeep', hfound⟩
            rcases List.mem_cons.1 hmem with rfl | hmem
            · exact (hkeep hkeep').elim
            · exact ⟨entry, hmem, hkeep', hfound⟩
        · exact fun _ => ⟨others, rfl⟩

/-- **Walks.** A walk ends where nothing stops it, and returns the files that it comes to. -/
theorem walk_spec (node : Node) {segments : List String} (hproper : Proper node)
    (hnames : ∀ name ∈ segments, ProperName name) : Walked v segments node := by
  induction node using Node.induction generalizing segments with
  | file text =>
    constructor
    · intro files h
      obtain rfl : [(pathText segments, text)] = files := Except.ok.inj h
      refine ⟨⟨?_, ?_⟩, ?_⟩
      · intro rest entries hreach
        cases hreach
      · intro rest target hreach
        cases hreach
      · intro path text'
        rw [List.mem_singleton, Prod.mk.injEq]
        constructor
        · rintro ⟨rfl, rfl⟩
          exact ⟨[], _, .here _, by rw [List.append_nil], rfl⟩
        · rintro ⟨rest, leaf, hreach, rfl, hyields⟩
          cases hreach
          exact ⟨by rw [List.append_nil], Eq.symm hyields⟩
    · exact fun _ => ⟨_, rfl⟩
  | link target =>
    rw [← List.append_nil segments] at *
    constructor
    · intro files h
      rw [Walker.walk] at h
      cases hlinked : v.linked (pathText (segments ++ [])) target with
      | error e =>
        rw [hlinked] at h
        cases h
      | ok text =>
        rw [hlinked] at h
        obtain rfl : [(pathText (segments ++ []), text)] = files := Except.ok.inj h
        rw [List.append_nil] at hlinked ⊢
        refine ⟨⟨?_, ?_⟩, ?_⟩
        · intro rest entries hreach
          cases hreach
        · intro rest target' hreach
          cases hreach
          exact ⟨text, by rw [List.append_nil]; exact hlinked⟩
        · intro path text'
          rw [List.mem_singleton, Prod.mk.injEq]
          constructor
          · rintro ⟨rfl, rfl⟩
            exact ⟨[], _, .here _, by rw [List.append_nil], hlinked⟩
          · rintro ⟨rest, leaf, hreach, rfl, hyields⟩
            cases hreach
            rw [List.append_nil] at hyields ⊢
            exact ⟨rfl, Except.ok.inj (Eq.symm (hlinked.symm.trans hyields))⟩
    · intro hpass
      obtain ⟨text, hlinked⟩ := hpass.linked [] target (.here _)
      rw [List.append_nil] at hlinked
      refine ⟨[(pathText (segments ++ []), text)], ?_⟩
      rw [Walker.walk, hlinked]
      rfl
  | dir entries ih =>
    have hin : ∀ entry ∈ entries, v.keep entry.1 = true → Walked v (segments ++ [entry.1]) entry.2 := by
      intro entry hentry hkeep
      apply ih entry hentry (hproper.reached (.inside hentry hkeep (.here _)))
      intro name hname
      rcases List.mem_append.1 hname with hname | hname
      · exact hnames name hname
      · rw [List.mem_singleton.1 hname]
        exact (hproper [] entries (.here _)).2 entry hentry
    obtain ⟨hreturns, hends⟩ := walkEntries_spec v hnames hin
    constructor
    · intro files h
      rw [Walker.walk] at h
      cases henter : v.enter (pathText segments) with
      | error e =>
        rw [henter] at h
        cases h
      | ok u =>
        rw [henter] at h
        obtain ⟨hpasses, hmems⟩ := hreturns files h
        refine ⟨(passable_dir_iff v).2 ⟨henter, hpasses⟩, fun path text => ?_⟩
        rw [hmems path text]
        constructor
        · rintro ⟨entry, hmem, hkeep, rest, leaf, hreach, rfl, hyields⟩
          exact ⟨entry.1 :: rest, leaf, .inside hmem hkeep hreach, by rw [List.append_assoc]; rfl, hyields⟩
        · rintro ⟨rest, leaf, hreach, rfl, hyields⟩
          rcases reaches_dir_iff.1 hreach with ⟨-, rfl⟩ | ⟨entry, hmem, hkeep, rest, rfl, hinner⟩
          · cases hyields
          · exact ⟨entry, hmem, hkeep, rest, leaf, hinner, by rw [List.append_assoc]; rfl, hyields⟩
    · intro hpass
      obtain ⟨henter, hall⟩ := (passable_dir_iff v).1 hpass
      rw [Walker.walk, henter]
      exact hends hall

end ConfigRegistry.Fs
