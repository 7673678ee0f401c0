import ConfigRegistry.Cli.Findings
import ConfigRegistry.Fs.Trees
import ConfigRegistry.Store.Transactions

/-!
# Two readers of the namespaces

`readSources` of `src/store/db-repository-view.ts`, which the cache is loaded through, and `readSources` of
`src/git/repository.ts`, on one tree of files: the tree that is below the root of the database, and the tree
of a commit.
-/

namespace ConfigRegistry.Store

open Js Fs Identity Products Schema

/-- The names that `snapshot` passes over. -/
def isPrivate (name : String) : Bool := name == ".journal" || name == ".revision" || name == ".git"

/-- A name that no path of the database goes through. -/
def isHidden (name : String) : Bool := name.toList.head? == some '.'

/-- The check of a path that `databasePath` makes; the root is not checked. -/
def enterDirectory (path : String) : Except Error Unit :=
  if path == "" || isDatabasePath path then .ok () else .error (.of s!"invalid database path: {path}")

/-- `visit`, of `snapshot`. -/
def snapshotWalker : Walker Error where
  keep name := !isPrivate name
  enter := enterDirectory
  linked path _ := .error (.of s!"symlink in database path: {path}")

/-- What is at a path, each part of which is looked at: `assertNoSymlinks`, and whether there is anything. -/
def locate (path : String) : List String → Node → Except Error (Option Node)
  | _, .link _ => .error (.of s!"symlink in database path: {path}")
  | [], node => .ok (some node)
  | _ :: _, .file _ => .error { message := "ENOTDIR", code := some .ENOTDIR }
  | name :: rest, .dir entries =>
    match entries.lookup name with
    | none => .ok none
    | some inner => locate path rest inner

/-- `snapshot`: the files below a directory. -/
def snapshot (root : Node) (segments : List String) : Except Error (List (String × String)) := do
  let path := pathText segments
  enterDirectory path
  match ← locate path segments root with
  | none => pure []
  | some (.dir entries) => snapshotWalker.walk path (.dir entries)
  | some _ => .error { message := "ENOTDIR", code := some .ENOTDIR }

/-- `DBRepositoryView.readSources`, at a revision of the database. -/
def DBRepositoryView.readSources (revision : Nat) (root : Node) : Except Error ConfigSources := do
  let files ← snapshot root ["config"]
  pure (Store.readSources revision files)

/-- The blobs of a commit of a tree: a symbolic link is the text that it leads to, and nothing that is called
`.git` can be in one. -/
def commitWalker : Walker Error where
  keep name := name != ".git"
  enter _ := .ok ()
  linked _ target := .ok target

/-- `GitRepository.readSources`, at a commit of the tree. -/
def GitRepository.readSources (root : Node) : Except Error (List (String × String)) := do
  let files ← commitWalker.walk "" root
  Cli.readSources (Cli.listYamlFiles files "config")

/-- The files below a directory. -/
structure FileTree where
  entries : List (String × Node)
  proper : Proper (.dir entries)

def FileTree.root (tree : FileTree) : Node := .dir tree.entries

/-- The two readers read the same: either both refuse the tree, or each gives every namespace the text that
the other gives it. What the cache is loaded with can be named by a grant. -/
structure ReadAlike (revision : Nat) (tree : FileTree) : Prop where
  alike :
    (∃ e e', DBRepositoryView.readSources revision tree.root = .error e ∧
      GitRepository.readSources tree.root = .error e') ∨
    ∃ view sources, DBRepositoryView.readSources revision tree.root = .ok view ∧
      GitRepository.readSources tree.root = .ok sources ∧
      ∀ ns, view.sources.lookup ns = sources.lookup ns
  granted : ∀ view, DBRepositoryView.readSources revision tree.root = .ok view →
    ∀ ns source, (ns, source) ∈ view.sources → isNamespace ns = true

/-- What is called `config` is a directory, below which there are no symbolic links, and no directories whose
names begin with a dot. -/
structure Walkable (tree : FileTree) : Prop where
  directory : ∀ node, ("config", node) ∈ tree.entries → ∃ entries, node = .dir entries
  visible : ∀ segments entries, Reaches snapshotWalker.keep tree.root ("config" :: segments) (.dir entries) →
    ∀ name ∈ segments, isHidden name = false
  plain : ∀ segments target, ¬Reaches snapshotWalker.keep tree.root ("config" :: segments) (.link target)

/-- What is no directory. -/
def IsLeaf : Node → Prop
  | .dir _ => False
  | _ => True

/-- Every file below `config` whose name ends with `.yaml` is the document of a namespace. -/
def Nameable (tree : FileTree) : Prop :=
  ∀ segments leaf, Reaches commitWalker.keep tree.root ("config" :: segments) leaf → IsLeaf leaf →
    endsWith (pathText ("config" :: segments)) ".yaml" = true →
    isNamespace (sliceBetween (pathText ("config" :: segments)) "config/" ".yaml") = true

/-! ### Paths and names -/

theorem isDatabasePath_pathText {segments : List String} (hne : segments ≠ [])
    (h : ∀ name ∈ segments, ProperName name) :
    isDatabasePath (pathText segments) = true ↔ ∀ name ∈ segments, isHidden name = false := by
  have hpath : pathText segments ≠ "" := fun hempty => hne ((pathText_eq_empty h).1 hempty)
  have hparts := splitOn_pathText hne h
  have hfull : ∀ part ∈ (segments.map String.toList).dropLast, (!part.isEmpty) = true := by
    intro part hpart
    obtain ⟨name, hname, rfl⟩ := List.mem_map.1 (List.dropLast_subset _ hpart)
    have := (h name hname).nonempty
    rw [ne_eq, ← String.toList_inj] at this
    simpa using this
  simp only [isDatabasePath, hparts, Bool.and_eq_true, bne_iff_ne, List.all_eq_true]
  constructor
  · rintro ⟨-, hall⟩ name hname
    have := hall _ (List.mem_map_of_mem hname)
    simpa [isHidden] using this
  · intro hvisible
    refine ⟨⟨hpath, hfull⟩, fun part hpart => ?_⟩
    obtain ⟨name, hname, rfl⟩ := List.mem_map.1 hpart
    have := hvisible name hname
    simpa [isHidden] using this

/-- A directory can be entered where no name on the way to it begins with a dot. -/
theorem enterDirectory_eq_ok {segments : List String} (h : ∀ name ∈ segments, ProperName name) :
    enterDirectory (pathText segments) = .ok () ↔ ∀ name ∈ segments, isHidden name = false := by
  rw [enterDirectory]
  by_cases hnil : segments = []
  · subst hnil
    simp
  · have hpath : pathText segments ≠ "" := fun hempty => hnil ((pathText_eq_empty h).1 hempty)
    rw [beq_false_of_ne hpath, Bool.false_or, ← isDatabasePath_pathText hnil h]
    split
    · rename_i hdb
      simp [hdb]
    · rename_i hdb
      simp [hdb]

/-- A path that leads through a directory of the root goes through its name first. -/
theorem startsWith_pathText {dir : String} {segments : List String} (hdir : ProperName dir)
    (h : ∀ name ∈ segments, ProperName name) :
    startsWith (pathText segments) (dir ++ "/") = true ↔ ∃ rest, rest ≠ [] ∧ segments = dir :: rest := by
  rw [startsWith_iff]
  constructor
  · rintro ⟨text, htext⟩
    have hne : segments ≠ [] := by
      rintro rfl
      have := congrArg String.toList htext
      simp at this
    have hparts := splitOn_pathText hne h
    rw [htext, String.append_assoc, String.toList_append, String.toList_append] at hparts
    have hsplit : (dir.toList ++ ("/".toList ++ text.toList)).splitOn '/' =
        dir.toList :: text.toList.splitOn '/' := by
      exact List.splitOn_append_cons_self_of_not_mem hdir.segment text.toList
    rw [hsplit] at hparts
    cases segments with
    | nil => exact (hne rfl).elim
    | cons name rest =>
      obtain ⟨hname, hrest⟩ := List.cons.inj hparts
      refine ⟨rest, ?_, by rw [String.toList_inj.1 hname]⟩
      rintro rfl
      exact List.splitOn_ne_nil _ _ hrest
  · rintro ⟨rest, hne, rfl⟩
    refine ⟨pathText rest, ?_⟩
    rw [pathText, String.intercalate_cons_of_ne_nil hne]
    rfl

/-! ### What the database gives -/

variable {tree : FileTree} {revision : Nat}

theorem FileTree.lookup_eq_some {name : String} {node : Node} :
    tree.entries.lookup name = some node ↔ (name, node) ∈ tree.entries := by
  constructor
  · exact mem_of_lookup
  · intro hmem
    obtain ⟨node', hlookup⟩ := lookup_of_mem hmem
    have hnames := (tree.proper [] _ (.here _)).1
    have := List.inj_on_of_nodup_map hnames hmem (mem_of_lookup hlookup) rfl
    rw [hlookup, (Prod.mk.inj this).2]

/-- What is below `config` is what is in the node of that name. -/
theorem FileTree.reaches_config {keep : String → Bool} {segments : List String} {node : Node}
    (hkeep : keep "config" = true) : Reaches keep tree.root ("config" :: segments) node ↔
      ∃ inner, ("config", inner) ∈ tree.entries ∧ Reaches keep inner segments node := by
  constructor
  · intro h
    cases h with
    | inside hmem _ h => exact ⟨_, hmem, h⟩
  · rintro ⟨inner, hmem, h⟩
    exact .inside hmem hkeep h

theorem FileTree.names {keep : String → Bool} {segments : List String} {node : Node}
    (h : Reaches keep tree.root segments node) : ∀ name ∈ segments, ProperName name :=
  tree.proper.names h

theorem properName_config : ProperName "config" := ⟨by decide, by decide⟩

theorem not_isHidden_config : isHidden "config" = false := by decide

/-- The walk of a directory that is called `config` comes to its end where the tree is walkable. -/
theorem passable_config_iff {entries : List (String × Node)} (hmem : ("config", .dir entries) ∈ tree.entries) :
    Passable snapshotWalker ["config"] (.dir entries) ↔ Walkable tree := by
  have hreach : ∀ {segments node}, Reaches snapshotWalker.keep (.dir entries) segments node →
      Reaches snapshotWalker.keep tree.root ("config" :: segments) node := fun h => .inside hmem (by decide) h
  have hinner : ∀ {segments node}, Reaches snapshotWalker.keep tree.root ("config" :: segments) node →
      Reaches snapshotWalker.keep (.dir entries) segments node := by
    intro segments node h
    obtain ⟨inner, hmem', h⟩ := (tree.reaches_config (by decide)).1 h
    rw [← FileTree.lookup_eq_some] at hmem hmem'
    obtain rfl := Option.some.inj (hmem.symm.trans hmem')
    exact h
  constructor
  · intro hpass
    constructor
    · intro node hnode
      rw [← FileTree.lookup_eq_some] at hmem hnode
      exact ⟨entries, (Option.some.inj (hmem.symm.trans hnode)).symm⟩
    · intro segments dir hdir name hname
      have henter := hpass.enter segments dir (hinner hdir)
      rw [List.singleton_append] at henter
      exact (enterDirectory_eq_ok (tree.names hdir)).1 henter name (List.mem_cons_of_mem _ hname)
    · intro segments target hlink
      obtain ⟨text, htext⟩ := hpass.linked segments target (hinner hlink)
      cases htext
  · intro hwalkable
    constructor
    · intro rest dir hdir
      show enterDirectory (pathText ("config" :: rest)) = .ok ()
      apply (enterDirectory_eq_ok (tree.names (hreach hdir))).2
      rw [List.forall_mem_cons]
      exact ⟨not_isHidden_config, hwalkable.visible rest dir (hreach hdir)⟩
    · intro rest target hlink
      exact (hwalkable.plain rest target (hreach hlink)).elim

/-- `snapshot` ends where the tree is walkable, and gives the files below `config`. -/
theorem snapshot_config (tree : FileTree) :
    (∀ files, snapshot tree.root ["config"] = .ok files → Walkable tree ∧ ∀ path source,
      (path, source) ∈ files ↔ ∃ segments, path = pathText ("config" :: segments) ∧
        Reaches snapshotWalker.keep tree.root ("config" :: segments) (.file source)) ∧
    (Walkable tree → ∃ files, snapshot tree.root ["config"] = .ok files) := by
  have henter : enterDirectory (pathText ["config"]) = .ok () := by decide
  cases hlookup : tree.entries.lookup "config" with
  | none =>
    have habsent : ∀ node, ("config", node) ∉ tree.entries := by
      intro node hmem
      rw [FileTree.lookup_eq_some.2 hmem] at hlookup
      cases hlookup
    have hnothing : ∀ segments node, ¬Reaches snapshotWalker.keep tree.root ("config" :: segments) node := by
      intro segments node h
      obtain ⟨inner, hmem, -⟩ := (tree.reaches_config (by decide)).1 h
      exact habsent inner hmem
    have hsnapshot : snapshot tree.root ["config"] = .ok [] := by
      rw [snapshot, henter, FileTree.root, locate, hlookup]
      rfl
    rw [hsnapshot]
    constructor
    · intro files h
      obtain rfl : [] = files := Except.ok.inj h
      refine ⟨⟨fun node hmem => (habsent node hmem).elim, fun segments dir h => (hnothing segments _ h).elim,
        fun segments target => hnothing segments _⟩, fun path source => ?_⟩
      constructor
      · intro hmem
        cases hmem
      · rintro ⟨segments, -, h⟩
        exact (hnothing segments _ h).elim
    · exact fun _ => ⟨[], rfl⟩
  | some node =>
    have hmem := FileTree.lookup_eq_some.1 hlookup
    have hnode : (∀ entries, node ≠ .dir entries) → ¬Walkable tree := by
      intro hdir hwalkable
      obtain ⟨entries, hentries⟩ := hwalkable.directory _ hmem
      exact hdir entries hentries
    cases node with
    | file text =>
      have hsnapshot : snapshot tree.root ["config"] =
          .error { message := "ENOTDIR", code := some .ENOTDIR } := by
        rw [snapshot, henter, FileTree.root, locate, hlookup]
        rfl
      rw [hsnapshot]
      constructor
      · intro files h
        cases h
      · intro hwalkable
        exact (hnode (by simp) hwalkable).elim
    | link target =>
      have hsnapshot : snapshot tree.root ["config"] =
          .error (.of ("symlink in database path: " ++ pathText ["config"])) := by
        rw [snapshot, henter, FileTree.root, locate, hlookup]
        rfl
      rw [hsnapshot]
      constructor
      · intro files h
        cases h
      · intro hwalkable
        exact (hnode (by simp) hwalkable).elim
    | dir entries =>
      have hreach : Reaches snapshotWalker.keep tree.root ["config"] (.dir entries) :=
        .inside hmem (by decide) (.here _)
      have hwalked := walk_spec snapshotWalker (.dir entries) (tree.proper.reached hreach) (tree.names hreach)
      have hsnapshot : snapshot tree.root ["config"] =
          snapshotWalker.walk (pathText ["config"]) (.dir entries) := by
        rw [snapshot, henter, FileTree.root, locate, hlookup]
        rfl
      rw [hsnapshot]
      constructor
      · intro files h
        obtain ⟨hpass, hmems⟩ := hwalked.returns files h
        refine ⟨(passable_config_iff hmem).1 hpass, fun path source => ?_⟩
        rw [hmems path source]
        constructor
        · rintro ⟨rest, leaf, hleaf, rfl, hyields⟩
          cases leaf with
          | file text =>
            obtain rfl : text = source := hyields
            exact ⟨rest, rfl, .inside hmem (by decide) hleaf⟩
          | link target => cases hyields
          | dir inner => cases hyields
        · rintro ⟨segments, rfl, hfile⟩
          obtain ⟨inner, hmem', hfile⟩ := (tree.reaches_config (by decide)).1 hfile
          rw [← FileTree.lookup_eq_some] at hmem hmem'
          obtain rfl := Option.some.inj (hmem.symm.trans hmem')
          exact ⟨segments, _, hfile, rfl, rfl⟩
      · intro hwalkable
        exact hwalked.ends ((passable_config_iff hmem).2 hwalkable)

/-! ### What the commit gives -/

/-- The walk of a commit always ends. -/
theorem commit_walk (tree : FileTree) : ∃ files, commitWalker.walk "" tree.root = .ok files ∧
    Returns commitWalker [] tree.root files := by
  have hwalked := @walk_spec _ commitWalker tree.root [] tree.proper (by simp)
  obtain ⟨files, hfiles⟩ := hwalked.ends ⟨fun _ _ _ => rfl, fun _ target _ => ⟨target, rfl⟩⟩
  exact ⟨files, hfiles, (hwalked.returns files hfiles).2⟩

/-- The text of a blob. -/
def blobText : Node → Option String
  | .file text => some text
  | .link target => some target
  | .dir _ => none

theorem isLeaf_of_blobText {leaf : Node} {text : String} (h : blobText leaf = some text) : IsLeaf leaf := by
  cases leaf with
  | file text => trivial
  | link target => trivial
  | dir entries => cases h

theorem commit_yields {path text : String} {leaf : Node} :
    commitWalker.Yields path text leaf ↔ blobText leaf = some text := by
  cases leaf with
  | file text' => simp [Walker.Yields, blobText]
  | link target => simp [Walker.Yields, blobText, commitWalker]
  | dir entries => simp [Walker.Yields, blobText]

/-- The files of a commit that `readSources` takes for documents. -/
theorem mem_listYamlFiles_commit {files : List (String × String)} (h : Returns commitWalker [] tree.root files)
    {path text : String} : (path, text) ∈ Cli.listYamlFiles files "config" ↔ ∃ segments leaf,
      Reaches commitWalker.keep tree.root ("config" :: segments) leaf ∧
        path = pathText ("config" :: segments) ∧ endsWith path ".yaml" = true ∧ blobText leaf = some text := by
  rw [Cli.listYamlFiles, List.mem_filter, h path text, Bool.and_eq_true]
  constructor
  · rintro ⟨⟨rest, leaf, hreach, rfl, hyields⟩, hstart, hend⟩
    rw [List.nil_append] at hstart hend ⊢
    obtain ⟨segments, -, rfl⟩ := (startsWith_pathText properName_config (tree.names hreach)).1 hstart
    exact ⟨segments, leaf, hreach, rfl, hend, commit_yields.1 hyields⟩
  · rintro ⟨segments, leaf, hreach, rfl, hend, htext⟩
    refine ⟨⟨_, leaf, hreach, rfl, commit_yields.2 htext⟩, ?_, hend⟩
    apply (startsWith_pathText properName_config (tree.names hreach)).2
    refine ⟨segments, ?_, rfl⟩
    rintro rfl
    revert hend
    decide

/-- `readSources` of the repository ends where every file is the document of a namespace, and gives what the
files are the documents of. -/
theorem git_readSources (tree : FileTree) :
    (∀ sources, GitRepository.readSources tree.root = .ok sources → Nameable tree ∧ ∀ ns text,
      (ns, text) ∈ sources ↔ ∃ segments leaf, Reaches commitWalker.keep tree.root ("config" :: segments) leaf ∧
        endsWith (pathText ("config" :: segments)) ".yaml" = true ∧ blobText leaf = some text ∧
        ns = sliceBetween (pathText ("config" :: segments)) "config/" ".yaml") ∧
    (Nameable tree → ∃ sources, GitRepository.readSources tree.root = .ok sources) := by
  obtain ⟨files, hfiles, hreturns⟩ := commit_walk tree
  have hread : GitRepository.readSources tree.root = Cli.readSources (Cli.listYamlFiles files "config") := by
    rw [GitRepository.readSources, hfiles]
    rfl
  have hnameable : Nameable tree ↔ ∀ f ∈ Cli.listYamlFiles files "config",
      isNamespace (sliceBetween f.1 "config/" ".yaml") = true := by
    constructor
    · intro h f hf
      obtain ⟨segments, leaf, hreach, hpath, hend, htext⟩ := (mem_listYamlFiles_commit hreturns).1 hf
      rw [hpath] at hend ⊢
      exact h segments leaf hreach (isLeaf_of_blobText htext) hend
    · intro h segments leaf hreach hleaf hend
      have htext : ∃ text, blobText leaf = some text := by
        cases leaf with
        | file text => exact ⟨text, rfl⟩
        | link target => exact ⟨target, rfl⟩
        | dir entries => exact hleaf.elim
      obtain ⟨text, htext⟩ := htext
      exact h (pathText ("config" :: segments), text)
        ((mem_listYamlFiles_commit hreturns).2 ⟨segments, leaf, hreach, rfl, hend, htext⟩)
  rw [hread, hnameable]
  constructor
  · intro sources h
    obtain ⟨hall, rfl⟩ := Cli.readSources_eq_ok.1 h
    refine ⟨hall, fun ns text => ?_⟩
    rw [List.mem_map]
    constructor
    · rintro ⟨f, hf, heq⟩
      obtain ⟨rfl, rfl⟩ := Prod.mk.inj heq
      obtain ⟨segments, leaf, hreach, hpath, hend, htext⟩ := (mem_listYamlFiles_commit hreturns).1 hf
      exact ⟨segments, leaf, hreach, hpath ▸ hend, htext, by rw [hpath]⟩
    · rintro ⟨segments, leaf, hreach, hend, htext, rfl⟩
      exact ⟨(pathText ("config" :: segments), text),
        (mem_listYamlFiles_commit hreturns).2 ⟨segments, leaf, hreach, rfl, hend, htext⟩, rfl⟩
  · intro hall
    exact ⟨_, Cli.readSources_eq_ok.2 ⟨hall, rfl⟩⟩

/-! ### The two together -/

theorem namespaceOf_eq_some {path ns : String} : namespaceOf path = some ns ↔
    endsWith path ".yaml" = true ∧ ns = sliceBetween path "config/" ".yaml" ∧
      (ns.toList.splitOn '/').length = 2 := by
  unfold namespaceOf
  constructor
  · intro h
    split at h
    · rename_i hend
      simp only at h
      split at h
      · rename_i htwo
        obtain rfl := Option.some.inj h
        exact ⟨hend, rfl, htwo⟩
      · cases h
    · cases h
  · rintro ⟨hend, rfl, htwo⟩
    rw [if_pos hend]
    simp only
    rw [if_pos htwo]

theorem mem_readSources {files : List (String × String)} {ns source : String} :
    (ns, source) ∈ (readSources revision files).sources ↔
      ∃ path, (path, source) ∈ files ∧ namespaceOf path = some ns := by
  rw [readSources, List.mem_filterMap]
  constructor
  · rintro ⟨⟨path, text⟩, hmem, h⟩
    obtain ⟨ns', hns, heq⟩ := Option.map_eq_some_iff.1 h
    obtain ⟨rfl, rfl⟩ := Prod.mk.inj heq
    exact ⟨path, hmem, hns⟩
  · rintro ⟨path, hmem, hns⟩
    refine ⟨(path, source), hmem, ?_⟩
    simp only [hns, Option.map_some]

/-- `readSources` of the view ends where the tree is walkable, and gives what has two segments. -/
theorem view_readSources (tree : FileTree) (revision : Nat) :
    (∀ view, DBRepositoryView.readSources revision tree.root = .ok view → Walkable tree ∧ ∀ ns text,
      (ns, text) ∈ view.sources ↔ ∃ segments,
        Reaches snapshotWalker.keep tree.root ("config" :: segments) (.file text) ∧
        namespaceOf (pathText ("config" :: segments)) = some ns) ∧
    (Walkable tree → ∃ view, DBRepositoryView.readSources revision tree.root = .ok view) := by
  obtain ⟨hreturns, hends⟩ := snapshot_config tree
  constructor
  · intro view h
    obtain ⟨files, hfiles, h⟩ := bind_eq_ok.1 h
    obtain rfl : readSources revision files = view := Except.ok.inj h
    obtain ⟨hwalkable, hmems⟩ := hreturns files hfiles
    refine ⟨hwalkable, fun ns text => ?_⟩
    rw [mem_readSources]
    constructor
    · rintro ⟨path, hmem, hns⟩
      obtain ⟨segments, rfl, hreach⟩ := (hmems path text).1 hmem
      exact ⟨segments, hreach, hns⟩
    · rintro ⟨segments, hreach, hns⟩
      exact ⟨_, (hmems _ text).2 ⟨segments, rfl, hreach⟩, hns⟩
  · intro hwalkable
    obtain ⟨files, hfiles⟩ := hends hwalkable
    exact ⟨_, bind_eq_ok.2 ⟨files, hfiles, rfl⟩⟩

/-- A name that is passed over begins with a dot. -/
theorem isHidden_of_isPrivate {name : String} (h : isPrivate name = true) : isHidden name = true := by
  simp only [isPrivate, Bool.or_eq_true, beq_iff_eq] at h
  rcases h with (rfl | rfl) | rfl
  · decide
  · decide
  · decide

theorem head_ne_dot {cs : List Char} (h : isSlug cs = true) (rest : List Char) :
    (cs ++ rest).head? ≠ some '.' := by
  cases cs with
  | nil => cases h
  | cons c cs =>
    rw [isSlug, Bool.and_eq_true] at h
    rw [List.cons_append, List.head?_cons]
    intro hdot
    obtain rfl := Option.some.inj hdot
    exact absurd h.1 (by decide)

/-- The document of a namespace is at no hidden place. -/
theorem visible_of_isNamespace {segments : List String} (h : ∀ name ∈ segments, ProperName name)
    (hend : endsWith (pathText ("config" :: segments)) ".yaml" = true)
    (hns : isNamespace (sliceBetween (pathText ("config" :: segments)) "config/" ".yaml") = true) :
    ∀ name ∈ segments, isHidden name = false := by
  have hnames : ∀ name ∈ "config" :: segments, ProperName name := List.forall_mem_cons.2 ⟨properName_config, h⟩
  have hne : segments ≠ [] := by
    rintro rfl
    revert hend
    decide
  have hstart := (startsWith_pathText properName_config hnames).2 ⟨segments, hne, rfl⟩
  have hpath : pathText ("config" :: segments) = "config" ++ "/" ++
      sliceBetween (pathText ("config" :: segments)) "config/" ".yaml" ++ ".yaml" :=
    eq_sliceBetween "config" hstart hend (by decide)
  have hparts := splitOn_pathText (List.cons_ne_nil _ _) hnames
  unfold isNamespace at hns
  split at hns
  · rename_i service environment hsplit
    rw [Bool.and_eq_true] at hns
    have hjoin : ['/'].intercalate [service, environment] =
        (sliceBetween (pathText ("config" :: segments)) "config/" ".yaml").toList := by
      rw [← hsplit, List.intercalate_splitOn]
    have hlist : (pathText ("config" :: segments)).toList =
        "config".toList ++ '/' :: (service ++ '/' :: (environment ++ ".yaml".toList)) := by
      rw [hpath, String.toList_append, String.toList_append, String.toList_append, ← hjoin]
      simp
    have hservice : '/' ∉ service := by
      have := Cli.segment_of_isSlug hns.1
      rwa [Segment, String.toList_ofList] at this
    have henvironment : '/' ∉ environment ++ ".yaml".toList := by
      have := Cli.segment_of_isSlug hns.2
      rw [Segment, String.toList_ofList] at this
      simp [this]
    rw [hlist, List.splitOn_append_cons_self_of_not_mem properName_config.segment,
      List.splitOn_append_cons_self_of_not_mem hservice, List.splitOn_eq_singleton henvironment, List.map_cons] at hparts
    obtain ⟨-, hparts⟩ := List.cons.inj hparts
    intro name hname
    have hmem : name.toList ∈ segments.map String.toList := List.mem_map_of_mem hname
    rw [← hparts] at hmem
    rw [isHidden, beq_eq_false_iff_ne]
    rcases List.mem_cons.1 hmem with heq | hmem
    · rw [heq]
      simpa using head_ne_dot hns.1 []
    · rw [List.mem_singleton.1 hmem]
      exact head_ne_dot hns.2 _
  · cases hns

/-- Lists that hold each name with one text, and hold the same, look up the same. -/
theorem lookup_eq_of_mem_iff {α : Type} {entries entries' : List (String × α)}
    (hmem : ∀ key a, (key, a) ∈ entries ↔ (key, a) ∈ entries')
    (hone : ∀ key a b, (key, a) ∈ entries → (key, b) ∈ entries → a = b) (key : String) :
    entries.lookup key = entries'.lookup key := by
  cases h : entries.lookup key with
  | none =>
    cases h' : entries'.lookup key with
    | none => rfl
    | some a =>
      obtain ⟨b, hb⟩ := lookup_of_mem ((hmem key a).2 (mem_of_lookup h'))
      rw [h] at hb
      cases hb
  | some a =>
    obtain ⟨b, hb⟩ := lookup_of_mem ((hmem key a).1 (mem_of_lookup h))
    rw [hb, hone key a b (mem_of_lookup h) ((hmem key b).2 (mem_of_lookup hb))]

/-- Where nothing stops either reader, both give every namespace the same text. -/
theorem same_sources (hwalkable : Walkable tree) (hnameable : Nameable tree) {ns text : String} :
    (∃ segments, Reaches snapshotWalker.keep tree.root ("config" :: segments) (.file text) ∧
      namespaceOf (pathText ("config" :: segments)) = some ns) ↔
    ∃ segments leaf, Reaches commitWalker.keep tree.root ("config" :: segments) leaf ∧
      endsWith (pathText ("config" :: segments)) ".yaml" = true ∧ blobText leaf = some text ∧
      ns = sliceBetween (pathText ("config" :: segments)) "config/" ".yaml" := by
  constructor
  · rintro ⟨segments, hreach, hns⟩
    obtain ⟨hend, rfl, -⟩ := namespaceOf_eq_some.1 hns
    refine ⟨segments, .file text, hreach.mono fun name hname => ?_, hend, rfl, rfl⟩
    have hkept := hreach.kept name hname
    simp only [snapshotWalker, isPrivate, Bool.not_eq_true', Bool.or_eq_false_iff, beq_eq_false_iff_ne] at hkept
    simpa [commitWalker] using hkept.2
  · rintro ⟨segments, leaf, hreach, hend, htext, rfl⟩
    have hns := hnameable segments leaf hreach (isLeaf_of_blobText htext) hend
    have hnames : ∀ name ∈ segments, ProperName name := fun name hname =>
      tree.names hreach name (List.mem_cons_of_mem _ hname)
    have hvisible := visible_of_isNamespace hnames hend hns
    have hkept : Reaches snapshotWalker.keep tree.root ("config" :: segments) leaf := by
      apply hreach.mono
      intro name hname
      show (!isPrivate name) = true
      rw [Bool.not_eq_true', ← Bool.not_eq_true]
      intro hprivate
      have hhidden := isHidden_of_isPrivate hprivate
      rcases List.mem_cons.1 hname with rfl | hname
      · rw [not_isHidden_config] at hhidden
        cases hhidden
      · rw [hvisible name hname] at hhidden
        cases hhidden
    have htwo : ((sliceBetween (pathText ("config" :: segments)) "config/" ".yaml").toList.splitOn '/').length = 2 := by
      unfold isNamespace at hns
      split at hns
      · rename_i hsplit
        rw [hsplit]
        rfl
      · cases hns
    cases leaf with
    | file text' =>
      obtain rfl := Option.some.inj htext
      exact ⟨segments, hkept, namespaceOf_eq_some.2 ⟨hend, rfl, htwo⟩⟩
    | link target => exact (hwalkable.plain segments target hkept).elim
    | dir entries => cases htext

/-- A namespace is the document of one path. -/
theorem one_text {ns text text' : String} {segments segments' : List String}
    (h : Reaches snapshotWalker.keep tree.root ("config" :: segments) (.file text))
    (h' : Reaches snapshotWalker.keep tree.root ("config" :: segments') (.file text'))
    (hns : namespaceOf (pathText ("config" :: segments)) = some ns)
    (hns' : namespaceOf (pathText ("config" :: segments')) = some ns) : text = text' := by
  have hpath : ∀ {segments text}, Reaches snapshotWalker.keep tree.root ("config" :: segments) (.file text) →
      namespaceOf (pathText ("config" :: segments)) = some ns →
      pathText ("config" :: segments) = "config" ++ "/" ++ ns ++ ".yaml" := by
    intro segments text hreach hns
    obtain ⟨hend, rfl, -⟩ := namespaceOf_eq_some.1 hns
    apply eq_sliceBetween "config" ?_ hend (by decide)
    apply (startsWith_pathText properName_config (tree.names hreach)).2
    refine ⟨segments, ?_, rfl⟩
    rintro rfl
    revert hend
    decide
  have heq := pathText_injective (tree.names h) (tree.names h') ((hpath h hns).trans (hpath h' hns').symm)
  rw [← heq] at h'
  exact Node.file.inj (h.unique tree.proper h')

theorem proper_file (text : String) : Proper (.file text) := by
  intro segments entries h
  cases h

theorem proper_dir {entries : List (String × Node)} (hnodup : (entries.map Prod.fst).Nodup)
    (hentries : ∀ entry ∈ entries, ProperName entry.1 ∧ Proper entry.2) : Proper (.dir entries) := by
  intro segments dir h
  rcases reaches_dir_iff.1 h with ⟨-, heq⟩ | ⟨entry, hmem, -, rest, -, hinner⟩
  · obtain rfl := Node.dir.inj heq
    exact ⟨hnodup, fun entry hentry => (hentries entry hentry).1⟩
  · exact (hentries entry hmem).2 rest dir hinner

/-- A directory that holds one name. -/
theorem proper_single {name : String} {node : Node} (hname : ProperName name) (hnode : Proper node) :
    Proper (.dir [(name, node)]) := by
  apply proper_dir
  · exact List.nodup_singleton name
  intro entry hentry
  rw [List.mem_singleton.1 hentry]
  exact ⟨hname, hnode⟩

/-- The document of a product whose name begins with a capital letter. -/
def capitalTree : FileTree where
  entries := [("config", .dir [("Web", .dir [("dev.yaml", .file "PORT: 8080\n")])])]
  proper := proper_single properName_config (proper_single ⟨by decide, by decide⟩
    (proper_single ⟨by decide, by decide⟩ (proper_file _)))

end ConfigRegistry.Store
