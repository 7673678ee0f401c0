import ConfigRegistry.Js.Runtime
import ConfigRegistry.Store.Versions

/-!
# From committed text to the served tree

`src/store/db-repository-view.ts`, `src/store/loader.ts` and `src/store/cache.ts`: which files of a
snapshot are namespaces, how their text becomes a tree of values, and what the cache that every
read is answered from holds.
-/

namespace ConfigRegistry.Store

open Js

/-- A namespace's document: its keys and values. -/
abbrev RawConfig : Type := List (String × Value)

/-- `ConfigSources`: the text of every namespace at one revision. -/
structure ConfigSources where
  commit : Nat
  sources : List (String × String)

/-- `ConfigTree`. -/
structure ConfigTree where
  commit : Nat
  namespaces : List (String × RawConfig)

/-- The namespace a path of the database holds the document of. -/
def namespaceOf (path : String) : Option String :=
  if endsWith path ".yaml" then
    let ns := sliceBetween path "config/" ".yaml"
    if (ns.toList.splitOn '/').length = 2 then some ns else none
  else none

/-- `DBRepositoryView.readSources`, of a snapshot of the `config` directory. -/
def readSources (revision : Nat) (files : Tree) : ConfigSources where
  commit := revision
  sources := files.filterMap fun (path, source) => (namespaceOf path).map fun ns => (ns, source)

/-- The path a namespace's document is decrypted under. -/
def configPath (ns : String) : String := "config/" ++ ns ++ ".yaml"

/-- `parseConfig`. An empty file is a namespace that overrides nothing. -/
def parseConfig (parseYaml : String → Except Error Value) (path source : String) :
    Except Error RawConfig :=
  match parseYaml source with
  | .error _ => .error (.of (path ++ " is not valid YAML"))
  | .ok .null => .ok []
  | .ok (.obj fields) => .ok fields
  | .ok _ => .error (.of (path ++ " must be a mapping of config keys to values"))

/-- A namespace's text, decrypted by the function `decrypt` and parsed, gives its values. -/
def ResolvesTo (decrypt : String → String → Except Error String)
    (parseYaml : String → Except Error Value) (file : String × String) (entry : String × RawConfig) :
    Prop :=
  file.1 = entry.1 ∧ ∃ plaintext, decrypt (configPath file.1) file.2 = .ok plaintext ∧
    parseConfig parseYaml (configPath file.1) plaintext = .ok entry.2

/-- The tree holds the values of the revision it names. -/
structure ConfigTree.Resolves (decrypt : String → String → Except Error String)
    (parseYaml : String → Except Error Value) (db : Versions) (tree : ConfigTree) : Prop where
  known : tree.commit ≤ db.revision
  values : List.Forall₂ (ResolvesTo decrypt parseYaml)
    (readSources tree.commit ((db.at_ tree.commit).under "config")).sources tree.namespaces

theorem ConfigTree.Resolves.extends {decrypt : String → String → Except Error String}
    {parseYaml : String → Except Error Value} {db db' : Versions} {tree : ConfigTree}
    (h : tree.Resolves decrypt parseYaml db) (hx : db.Extends db') :
    tree.Resolves decrypt parseYaml db' where
  known := Nat.le_trans h.known hx.revision
  values := by
    rw [hx.at_ _ h.known]
    exact h.values

/-- `ConfigCache`: what every read is answered from. -/
structure ConfigCache where
  tree : Option ConfigTree := none
  flagsByEnvironment : List (String × List (String × Bool)) := []
  synced : Option String := none

namespace ConfigCache

variable (cache : ConfigCache)

/-- The config a service sees, or none when no file defines that namespace. -/
def get (service environment : String) : Option RawConfig :=
  cache.tree.bind fun tree => tree.namespaces.lookup (service ++ "/" ++ environment)

def commit : Option Nat := cache.tree.map ConfigTree.commit

def flagsFor (environment : String) : List (String × Bool) :=
  (cache.flagsByEnvironment.lookup environment).getD []

/-- `reload`: replaces the tree wholesale, never a merge. -/
def reload (tree : ConfigTree) (flagsByEnvironment : List (String × List (String × Bool))) :
    ConfigCache :=
  { cache with tree := some tree, flagsByEnvironment }

end ConfigCache

end ConfigRegistry.Store
