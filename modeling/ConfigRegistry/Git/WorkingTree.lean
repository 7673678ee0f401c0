import ConfigRegistry.Store.Versions
import Mathlib.Data.List.AList

/-!
# Trees of the clone

What a working tree, an index and a commit hold, what git takes from a working tree, and what the
mirror of a database makes of it. Ignore rules, line endings and filters are parameters: they are
files of the clone that git reads.
-/

namespace ConfigRegistry.Git

/-- What is at a path: a file, a symbolic link, or the top of another repository. -/
inductive Node where
  | file (text : String) (executable : Bool)
  | link (target : String)
  | repository (head : String)
deriving DecidableEq

/-- The text of a file. -/
def Node.text : Node → Option String
  | .file text _ => some text
  | _ => none

/-- A tree outside `.git`, by path; directories are where something is below them. -/
abbrev Tree : Type := AList fun _ : String => Node

instance : DecidableEq Tree := fun a b => decidable_of_iff (a.entries = b.entries) AList.ext_iff.symm

/-- The files of a database as a snapshot reports them. -/
abbrev Files : Type := AList fun _ : String => String

/-- A `Map` of the files of a database. -/
def filesOf (tree : Store.Tree) : Files := (tree.map fun (path, text) => ⟨path, text⟩).toAList

theorem lookup_filesOf (tree : Store.Tree) (path : String) :
    (filesOf tree).lookup path = tree.lookup path := by
  rw [filesOf, AList.lookup_to_alist]
  induction tree with
  | nil => rfl
  | cons file tree ih =>
    obtain ⟨path', text⟩ := file
    by_cases h : path = path'
    · subst h
      rw [List.map_cons, List.dlookup_cons_eq, List.lookup_cons_self]
    · rw [List.map_cons, List.dlookup_cons_ne _ _ (by exact h), ih, List.lookup_cons,
        beq_false_of_ne h]

namespace Tree

/-- The tree with what `f` gives at each of `paths`. -/
def tabulate (paths : List String) (f : String → Option Node) : Tree :=
  paths.foldr
    (fun path tree => match f path with
      | some node => tree.insert path node
      | none => tree) ∅

theorem lookup_tabulate (paths : List String) (f : String → Option Node) (path : String) :
    (tabulate paths f).lookup path = if path ∈ paths then f path else none := by
  induction paths with
  | nil => simp [tabulate]
  | cons path' paths ih =>
    have hstep : tabulate (path' :: paths) f = match f path' with
        | some node => (tabulate paths f).insert path' node
        | none => tabulate paths f := rfl
    rw [hstep]
    by_cases h : path = path'
    · subst h
      cases hf : f path with
      | none => simp [ih, hf]
      | some node => simp
    · cases hf : f path' with
      | none => simp [ih, h]
      | some node => simp [ih, h, AList.lookup_insert_ne h]

/-- Whether two trees differ at some path. -/
def differs (a b : Tree) : Bool := (a.keys ++ b.keys).any fun path => a.lookup path != b.lookup path

theorem differs_eq_false {a b : Tree} :
    a.differs b = false ↔ ∀ path, a.lookup path = b.lookup path := by
  constructor
  · intro h path
    by_cases hmem : path ∈ a.keys ++ b.keys
    · simpa using (List.any_eq_false.1 h) path hmem
    · have ha : path ∉ a := fun hp => hmem (List.mem_append_left _ hp)
      have hb : path ∉ b := fun hp => hmem (List.mem_append_right _ hp)
      rw [AList.lookup_eq_none.2 ha, AList.lookup_eq_none.2 hb]
  · intro h
    refine List.any_eq_false.2 fun path _ => ?_
    simp [h path]

/-- The tree holds the files of a database and nothing else, whatever their modes. -/
def Exact (tree : Tree) (files : Files) : Prop :=
  ∀ path, (tree.lookup path).map Node.text = (files.lookup path).map some

instance (tree : Tree) (files : Files) : Decidable (tree.Exact files) :=
  decidable_of_iff (∀ path ∈ tree.keys ++ files.keys,
      (tree.lookup path).map Node.text = (files.lookup path).map some) <| by
    refine ⟨fun h path => ?_, fun h path _ => h path⟩
    by_cases hmem : path ∈ tree.keys ++ files.keys
    · exact h path hmem
    · have ht : tree.lookup path = none :=
        AList.lookup_eq_none.2 fun hp => hmem (List.mem_append_left _ hp)
      have hf : files.lookup path = none :=
        AList.lookup_eq_none.2 fun hp => hmem (List.mem_append_right _ hp)
      rw [ht, hf]
      rfl

/-- No file is executable. -/
def Plain (tree : Tree) : Prop := ∀ path text, tree.lookup path ≠ some (.file text true)

/-- A file of an exact tree is one of the database. -/
theorem Exact.file {tree : Tree} {files : Files} (h : tree.Exact files) {path : String}
    {node : Node} (hn : tree.lookup path = some node) :
    ∃ text executable, node = .file text executable ∧ files.lookup path = some text := by
  have hp := h path
  rw [hn] at hp
  cases hf : files.lookup path with
  | none => simp [hf] at hp
  | some text =>
    cases node with
    | file text' executable =>
      simp only [hf, Option.map_some, Node.text, Option.some.injEq] at hp
      exact ⟨text', executable, rfl, congrArg some hp.symm⟩
    | link target => simp [hf, Node.text] at hp
    | repository head => simp [hf, Node.text] at hp

/-- Two exact trees without executable files are the same. -/
theorem Exact.unique {a b : Tree} {files : Files} (ha : a.Exact files) (hb : b.Exact files)
    (hpa : a.Plain) (hpb : b.Plain) (path : String) : a.lookup path = b.lookup path := by
  have hplain {tree : Tree} (h : tree.Exact files) (hp : tree.Plain) :
      tree.lookup path = (files.lookup path).map fun text => .file text false := by
    cases hn : tree.lookup path with
    | none =>
      have hnone := h path
      rw [hn] at hnone
      cases hf : files.lookup path with
      | none => rfl
      | some text => simp [hf] at hnone
    | some node =>
      obtain ⟨text, executable, rfl, hf⟩ := h.file hn
      cases executable with
      | false => rw [hf]; rfl
      | true => exact (hp path text hn).elim
  rw [hplain ha hpa, hplain hb hpb]

end Tree

/-- The names along a path. -/
def segments (path : String) : List (List Char) := path.toList.splitOn '/'

/-- The entries `collectFiles` passes over, with everything below them. -/
def skipped (path : String) : Bool :=
  (segments path).any fun name =>
    name == ".git".toList || name == ".journal".toList || name == ".revision".toList

def Node.isRepository : Node → Bool
  | .repository _ => true
  | _ => false

/-- What `collectFiles` finds where it can read every directory. A repository is a directory to
it. -/
def Tree.collected (tree : Tree) : List String :=
  tree.keys.filter fun path => !skipped path && !((tree.lookup path).any Node.isRepository)

/-- The path is inside another repository. -/
def Tree.nested (tree : Tree) (path : String) : Bool :=
  tree.keys.any fun top =>
    (tree.lookup top).any Node.isRepository && (top ++ "/").toList.isPrefixOf path.toList

theorem nested_congr {a b : Tree} (h : ∀ path, a.lookup path = b.lookup path) (path : String) :
    a.nested path = b.nested path := by
  have hkeys : ∀ top, top ∈ a.keys ↔ top ∈ b.keys := fun top => by
    rw [← AList.mem_keys, ← AList.mem_keys, ← AList.lookup_isSome, ← AList.lookup_isSome, h]
  rw [Bool.eq_iff_iff]
  simp only [Tree.nested, List.any_eq_true, hkeys, h]

/-- The files of the clone that tell git what to leave out and how to store the rest. -/
structure Rules where
  /-- `.gitignore`, `.git/info/exclude` and the user's excludes: the paths left out when they are
  not tracked. -/
  excludes : (String → Option Node) → String → Bool
  /-- The text that is stored of a file: line endings and filters of `.gitattributes`. -/
  stores : (String → Option Node) → String → String → String

section

variable (rules : Rules)

/-- What is stored of what is at a path. -/
def Rules.store (tree : Tree) (path : String) : Node → Node
  | .file text executable => .file (rules.stores (fun q => tree.lookup q) path text) executable
  | node => node

/-- `git add -A` takes the path from a working tree. -/
def records (tree index : Tree) (path : String) : Bool :=
  !tree.nested path && !(segments path).contains ".git".toList &&
    ((index.lookup path).isSome || !rules.excludes (fun q => tree.lookup q) path)

/-- The index after `git add -A`. -/
def staged (tree index : Tree) : Tree :=
  Tree.tabulate tree.keys fun path =>
    if records rules tree index path then
      (tree.lookup path).map (rules.store tree path)
    else none

theorem lookup_staged (tree index : Tree) (path : String) :
    (staged rules tree index).lookup path =
      if records rules tree index path then
        (tree.lookup path).map (rules.store tree path)
      else none := by
  rw [staged, Tree.lookup_tabulate]
  by_cases hmem : path ∈ tree.keys
  · rw [if_pos hmem]
  · have hnone : tree.lookup path = none := AList.lookup_eq_none.2 hmem
    simp [hmem, hnone]

/-- What git takes depends on what is where, and on what is tracked. -/
theorem staged_congr {tree tree' index index' : Tree}
    (ht : ∀ path, tree.lookup path = tree'.lookup path)
    (hi : ∀ path, (index.lookup path).isSome = (index'.lookup path).isSome) (path : String) :
    (staged rules tree index).lookup path = (staged rules tree' index').lookup path := by
  have hfun : (fun q => tree.lookup q) = fun q => tree'.lookup q := funext ht
  have hstore : rules.store tree path = rules.store tree' path := by
    funext node
    cases node <;> simp only [Rules.store, hfun]
  rw [lookup_staged, lookup_staged, records, records, hfun, hstore, nested_congr ht, hi, ht]

/-- Staging what is staged changes nothing. -/
theorem lookup_staged_staged (tree index : Tree) (path : String) :
    (staged rules tree (staged rules tree index)).lookup path =
      (staged rules tree index).lookup path := by
  cases htree : tree.lookup path with
  | none => simp [lookup_staged, htree]
  | some node =>
    have hrecords : records rules tree (staged rules tree index) path =
        records rules tree index path := by
      simp only [records, lookup_staged, htree, Option.map_some]
      grind
    rw [lookup_staged, lookup_staged, hrecords]

/-- Whether `git status --porcelain` reports something. -/
def changes (tree index head : Tree) : Bool :=
  index.differs head || (staged rules tree index).differs index

end

/-- The mirror a sync makes: the files of a revision of the database, over the working tree and the
index it finds, of which it could list `previous`. -/
structure Mirror where
  source : Files
  revision : Nat
  found : Tree
  tracked : Tree
  previous : List String

namespace Mirror

variable (m : Mirror)

/-- The working tree once the files that are gone are removed and all others written. -/
def tree : Tree :=
  Tree.tabulate (m.source.keys ++ m.found.keys) fun path =>
    match m.source.lookup path with
    | some text => some (.file text false)
    | none => if path ∈ m.previous then none else m.found.lookup path

theorem lookup_tree (path : String) :
    m.tree.lookup path = match m.source.lookup path with
      | some text => some (.file text false)
      | none => if path ∈ m.previous then none else m.found.lookup path := by
  rw [tree, Tree.lookup_tabulate]
  by_cases hmem : path ∈ m.source.keys ++ m.found.keys
  · rw [if_pos hmem]
  · have hs : m.source.lookup path = none :=
      AList.lookup_eq_none.2 fun hp => hmem (List.mem_append_left _ hp)
    have hf : m.found.lookup path = none :=
      AList.lookup_eq_none.2 fun hp => hmem (List.mem_append_right _ hp)
    simp [hmem, hs, hf]

/-- What git takes of the mirror. -/
def recorded (rules : Rules) : Tree := staged rules m.tree m.tracked

/-- Git takes what the mirror has at a path as the database has it: a file of the database is
recorded and stored as it is, and of everything else that git would record, `previous` lists all. -/
def KeptAt (rules : Rules) (path : String) : Prop :=
  match m.source.lookup path with
  | some text => records rules m.tree m.tracked path = true ∧
      rules.stores (fun q => m.tree.lookup q) path text = text
  | none => path ∈ m.previous ∨ m.found.lookup path = none ∨
      records rules m.tree m.tracked path = false

/-- Git takes the mirror as the database is. -/
def Kept (rules : Rules) : Prop := ∀ path, m.KeptAt rules path

theorem keptAt_iff (rules : Rules) (path : String) :
    m.KeptAt rules path ↔
      ((m.recorded rules).lookup path).map Node.text = (m.source.lookup path).map some := by
  rw [KeptAt, recorded, lookup_staged, lookup_tree]
  cases hs : m.source.lookup path with
  | some text => cases hr : records rules m.tree m.tracked path <;> simp [Rules.store, Node.text]
  | none =>
    by_cases hp : path ∈ m.previous <;> cases hf : m.found.lookup path <;>
      cases hr : records rules m.tree m.tracked path <;> simp [hp]

theorem kept_iff (rules : Rules) : m.Kept rules ↔ (m.recorded rules).Exact m.source :=
  forall_congr' fun path => m.keptAt_iff rules path

instance (rules : Rules) : Decidable (m.Kept rules) := decidable_of_iff _ (m.kept_iff rules).symm

/-- The mirror has no executable files among those of the database, and git stores modes. -/
theorem Kept.plain {m : Mirror} {rules : Rules} (h : m.Kept rules) : (m.recorded rules).Plain := by
  intro path text hlookup
  obtain ⟨text', executable, hnode, hs⟩ := ((m.kept_iff rules).1 h).file hlookup
  rw [recorded, lookup_staged, lookup_tree, hs] at hlookup
  split at hlookup
  · simp [Rules.store] at hlookup
  · cases hlookup

end Mirror

end ConfigRegistry.Git
