import ConfigRegistry.Backup.Language
import ConfigRegistry.Products.Paths
import ConfigRegistry.Schema.GlobalSchema

/-!
# The sync preview

`src/views/sync-gist.ts`: what the preview of a sync makes of the journal, which is one gist a file, sorted by what
seems to have become of the products.
-/

namespace ConfigRegistry.Console

open Js Schema Backup Products

/-- `new Set(values)`. -/
def setOf (values : List String) : List String := values.eraseDups

/-- `set.add(value)`. -/
def addTo (set : List String) (value : String) : List String := if value ∈ set then set else set ++ [value]

/-- What `grouped` holds of a file. -/
structure Held where
  keys : List String := []
  actors : List String := []
  writes : Nat := 0
  lastAt : String

structure SyncGist where
  path : String
  label : String
  keys : List String
  actors : List String
  writes : Nat
  lastAt : String

/-- `titled`: a letter is put in upper case where no letter or digit comes before it. -/
def titledFrom : Bool → List Char → List Char
  | _, [] => []
  | apart, c :: cs => (if apart && c.isAlpha then c.toUpper else c) :: titledFrom (!c.isAlphanum) cs

def titled (value : String) : String := String.ofList (titledFrom true value.toList)

/-- `/^dir\/([^/]+)\.yaml$/`. -/
def yamlIn (dir path : String) : Option String :=
  if startsWith path (dir ++ "/") && endsWith path ".yaml" then
    let name := sliceBetween path (dir ++ "/") ".yaml"
    if name = "" ∨ '/' ∈ name.toList then none else some name
  else none

/-- `/^config\/([^/]+)\//`. -/
def configProduct (path : String) : Option String :=
  if startsWith path "config/" then
    let rest := path.toList.drop 7
    let name := rest.takeWhile (· != '/')
    if name = [] ∨ rest.dropWhile (· != '/') = [] then none else some (String.ofList name)
  else none

def placeLabel (path : String) : String :=
  match (configProduct path).bind fun name => (yamlIn ("config/" ++ name) path).map fun environment =>
      titled name ++ " · " ++ titled environment with
  | some label => label
  | none =>
    match yamlIn "schema" path with
    | some name => titled name ++ " schema"
    | none =>
      match yamlIn "archived" path with
      | some name => "Archived " ++ titled name
      | none =>
        if path = "flags.yaml" then "Features"
        else if path = "services.yaml" then "Registry"
        else if path = "environments.yaml" then "Environments"
        else path

def productOfPath (path : String) : Option String :=
  (configProduct path).or ((yamlIn "schema" path).or (yamlIn "archived" path))

/-- `keysOf`. -/
def keysOf (entry : JournalEntry) : List String := entry.keys.filter fun key => !isMetadataKey key

/-- What an entry adds to what is held of its file. -/
def Held.add (held : Held) (entry : JournalEntry) : Held where
  keys := (keysOf entry).foldl addTo held.keys
  actors := addTo held.actors entry.actor
  writes := held.writes + 1
  lastAt := if entry.timestamp != "" && !textLe entry.timestamp held.lastAt then entry.timestamp else held.lastAt

/-- One round of the loop of `gistFromJournal`: a file comes where it came first. -/
def group : List (String × Held) → JournalEntry → List (String × Held)
  | [], entry => [(entry.path, Held.add { lastAt := entry.timestamp } entry)]
  | (path, held) :: grouped, entry =>
    if path = entry.path then (path, held.add entry) :: grouped else (path, held) :: group grouped entry

structure SyncRows where
  retiring : List String
  added : List String
  archived : List String
  configsOf : List (String × List SyncGist)
  gists : List SyncGist

section

variable (localeLe : String → String → Bool)

/-- `values.sort((left, right) => left.localeCompare(right))`, where `localeLe a b` is `a.localeCompare(b) <= 0`. -/
def sorted (values : List String) : List String := values.insertionSort fun a b => localeLe a b

def gistFromJournal (entries : List JournalEntry) : List SyncGist :=
  (entries.foldl group []).map fun (path, held) =>
    { path, label := placeLabel path, keys := sorted localeLe held.keys, actors := sorted localeLe held.actors,
      writes := held.writes, lastAt := held.lastAt }

/-- The products that count as retiring: those that are, and those whose schema had a write of `retiring`. -/
def retiringProducts (all : List SyncGist) (retiring : List String) : List String :=
  setOf (retiring ++ all.filterMap fun gist => if "retiring" ∈ gist.keys then yamlIn "schema" gist.path else none)

def syncRowsFromJournal (entries : List JournalEntry) (retiring : List String) : SyncRows :=
  let all := gistFromJournal localeLe entries
  let retiringSet := retiringProducts all retiring
  let archived := sorted localeLe (setOf (all.filterMap fun gist => yamlIn "archived" gist.path))
  let registered := ((all.find? fun gist => gist.path = "services.yaml").map SyncGist.keys).getD []
  let added := sorted localeLe
    ((setOf registered).filter fun name => !retiringSet.contains name && !archived.contains name)
  let skip := retiringSet.filter (fun name => !archived.contains name) ++ added ++ archived
  { retiring := sorted localeLe retiringSet
    added
    archived
    configsOf := added.map fun name => (name, all.filter fun gist => startsWith gist.path ("config/" ++ name ++ "/"))
    gists := all.filter fun gist =>
      if gist.path = "services.yaml" then false
      else match productOfPath gist.path with
        | none => true
        | some product => !skip.contains product }

end

/-! ### What a gist stands for -/

variable {localeLe : String → String → Bool} {entries : List JournalEntry}

theorem mem_addTo {set : List String} {value key : String} : key ∈ addTo set value ↔ key ∈ set ∨ key = value := by
  unfold addTo
  split
  · constructor
    · exact .inl
    · rintro (h | rfl)
      · exact h
      · assumption
  · rw [List.mem_append, List.mem_singleton]

theorem mem_foldl_addTo {values set : List String} {key : String} :
    key ∈ values.foldl addTo set ↔ key ∈ set ∨ key ∈ values := by
  induction values generalizing set with
  | nil => simp
  | cons value values ih => rw [List.foldl_cons, ih, mem_addTo, List.mem_cons, or_assoc]

@[simp] theorem mem_sorted {values : List String} {value : String} : value ∈ sorted localeLe values ↔ value ∈ values :=
  List.mem_insertionSort _

@[simp] theorem mem_setOf {values : List String} {value : String} : value ∈ setOf values ↔ value ∈ values :=
  List.mem_eraseDups

theorem lookup_group (grouped : List (String × Held)) (entry : JournalEntry) (path : String) :
    (group grouped entry).lookup path =
      if path = entry.path then some (((grouped.lookup path).getD { lastAt := entry.timestamp }).add entry)
      else grouped.lookup path := by
  induction grouped with
  | nil =>
    show [(entry.path, _)].lookup path = _
    split
    · rename_i heq
      rw [heq, List.lookup_cons_self]
      rfl
    · rename_i hne
      rw [List.lookup_cons, beq_false_of_ne hne]
  | cons f grouped ih =>
    obtain ⟨p, held⟩ := f
    show (if p = entry.path then (p, held.add entry) :: grouped else (p, held) :: group grouped entry).lookup path = _
    by_cases hpath : path = p
    · subst hpath
      split
      · rw [List.lookup_cons_self, List.lookup_cons_self]
        rfl
      · rw [List.lookup_cons_self, List.lookup_cons_self]
    · split
      · rename_i hp
        subst hp
        rw [List.lookup_cons, beq_false_of_ne hpath, if_neg hpath, List.lookup_cons, beq_false_of_ne hpath]
      · rw [List.lookup_cons, beq_false_of_ne hpath, List.lookup_cons, beq_false_of_ne hpath]
        exact ih

theorem mem_map_group {grouped : List (String × Held)} {entry : JournalEntry} {path : String}
    (h : path ∈ (group grouped entry).map Prod.fst) : path ∈ grouped.map Prod.fst ∨ path = entry.path := by
  induction grouped with
  | nil => exact .inr (List.mem_singleton.1 h)
  | cons f grouped ih =>
    obtain ⟨p, held⟩ := f
    unfold group at h
    split at h
    · exact .inl h
    · rcases List.mem_cons.1 h with rfl | h
      · exact .inl List.mem_cons_self
      · exact (ih h).imp_left (List.mem_cons_of_mem _)

theorem nodup_group {grouped : List (String × Held)} (hn : (grouped.map Prod.fst).Nodup) (entry : JournalEntry) :
    ((group grouped entry).map Prod.fst).Nodup := by
  induction grouped with
  | nil => exact List.nodup_singleton _
  | cons f grouped ih =>
    obtain ⟨p, held⟩ := f
    unfold group
    split
    · exact hn
    · rename_i hne
      rw [List.map_cons, List.nodup_cons] at hn ⊢
      refine ⟨fun hmem => ?_, ih hn.2⟩
      rcases mem_map_group hmem with hmem | heq
      · exact hn.1 hmem
      · exact hne heq

/-- What has been made of some entries: each file once, with the keys that its entries name. -/
structure Collected (entries : List JournalEntry) (grouped : List (String × Held)) : Prop where
  nodup : (grouped.map Prod.fst).Nodup
  paths : ∀ path, (grouped.lookup path).isSome ↔ ∃ entry ∈ entries, entry.path = path
  keys : ∀ path held, grouped.lookup path = some held →
    ∀ key, key ∈ held.keys ↔ ∃ entry ∈ entries, entry.path = path ∧ key ∈ keysOf entry

theorem Collected.group {grouped : List (String × Held)} (h : Collected entries grouped) (entry : JournalEntry) :
    Collected (entries ++ [entry]) (group grouped entry) := by
  constructor
  · exact nodup_group h.nodup entry
  · intro path
    rw [lookup_group]
    split
    · rename_i heq
      exact iff_of_true rfl ⟨entry, by simp, heq.symm⟩
    · rename_i hne
      rw [h.paths]
      constructor
      · rintro ⟨e, he, hpath⟩
        exact ⟨e, List.mem_append_left _ he, hpath⟩
      · rintro ⟨e, he, hpath⟩
        rcases List.mem_append.1 he with he | he
        · exact ⟨e, he, hpath⟩
        · obtain rfl := List.mem_singleton.1 he
          exact (hne hpath.symm).elim
  · intro path held hlookup key
    rw [lookup_group] at hlookup
    split at hlookup
    · rename_i heq
      obtain rfl := Option.some.inj hlookup
      have hbefore : key ∈ ((grouped.lookup path).getD { lastAt := entry.timestamp }).keys ↔
          ∃ e ∈ entries, e.path = path ∧ key ∈ keysOf e := by
        cases hold : grouped.lookup path with
        | none =>
          have hno := (h.paths path).not.1 (by rw [hold]; exact Bool.false_ne_true)
          refine iff_of_false (List.not_mem_nil) ?_
          rintro ⟨e, he, hpath, -⟩
          exact hno ⟨e, he, hpath⟩
        | some held => exact h.keys path held hold key
      show key ∈ (keysOf entry).foldl addTo _ ↔ _
      rw [mem_foldl_addTo, hbefore]
      constructor
      · rintro (⟨e, he, hpath, hkey⟩ | hkey)
        · exact ⟨e, List.mem_append_left _ he, hpath, hkey⟩
        · exact ⟨entry, by simp, heq.symm, hkey⟩
      · rintro ⟨e, he, hpath, hkey⟩
        rcases List.mem_append.1 he with he | he
        · exact .inl ⟨e, he, hpath, hkey⟩
        · obtain rfl := List.mem_singleton.1 he
          exact .inr hkey
    · rename_i hne
      rw [h.keys path held hlookup]
      constructor
      · rintro ⟨e, he, hpath, hkey⟩
        exact ⟨e, List.mem_append_left _ he, hpath, hkey⟩
      · rintro ⟨e, he, hpath, hkey⟩
        rcases List.mem_append.1 he with he | he
        · exact ⟨e, he, hpath, hkey⟩
        · obtain rfl := List.mem_singleton.1 he
          exact (hne hpath.symm).elim

theorem collected_foldl {done : List JournalEntry} {grouped : List (String × Held)} (h : Collected done grouped)
    (entries : List JournalEntry) : Collected (done ++ entries) (entries.foldl Console.group grouped) := by
  induction entries generalizing done grouped with
  | nil =>
    rw [List.append_nil]
    exact h
  | cons entry entries ih =>
    rw [List.append_cons]
    exact ih (h.group entry)

theorem collected (entries : List JournalEntry) : Collected entries (entries.foldl group []) := by
  apply @collected_foldl [] []
  constructor
  · exact List.nodup_nil
  · intro path
    exact iff_of_false Bool.false_ne_true (by simp)
  · intro path held hlookup
    cases hlookup

theorem nodup_gists : ((gistFromJournal localeLe entries).map SyncGist.path).Nodup := by
  have hpaths : (gistFromJournal localeLe entries).map SyncGist.path = (entries.foldl group []).map Prod.fst := by
    unfold gistFromJournal
    rw [List.map_map]
    exact List.map_congr_left fun _ _ => rfl
  rw [hpaths]
  exact (collected entries).nodup

theorem exists_gist {path : String} :
    (∃ gist ∈ gistFromJournal localeLe entries, gist.path = path) ↔ ∃ entry ∈ entries, entry.path = path := by
  rw [← (collected entries).paths]
  constructor
  · rintro ⟨gist, hgist, rfl⟩
    obtain ⟨⟨path, held⟩, hmem, rfl⟩ := List.mem_map.1 hgist
    obtain ⟨held', hlookup⟩ := lookup_of_mem hmem
    exact Option.isSome_iff_exists.2 ⟨held', hlookup⟩
  · intro h
    obtain ⟨held, hlookup⟩ := Option.isSome_iff_exists.1 h
    exact ⟨_, List.mem_map_of_mem (mem_of_lookup hlookup), rfl⟩

theorem mem_gist_keys {gist : SyncGist} (h : gist ∈ gistFromJournal localeLe entries) {key : String} :
    key ∈ gist.keys ↔ ∃ entry ∈ entries, entry.path = gist.path ∧ key ∈ keysOf entry := by
  obtain ⟨⟨path, held⟩, hmem, rfl⟩ := List.mem_map.1 h
  have hcollected := collected entries
  rw [← hcollected.keys path held ((lookup_iff_mem hcollected.nodup).2 hmem)]
  exact mem_sorted

/-! ### What the rows are made of -/

theorem configProduct_eq_some {path name : String} : configProduct path = some name ↔
    Segment name ∧ name ≠ "" ∧ startsWith path ("config/" ++ name ++ "/") = true := by
  have hseven : ∀ rest : List Char, ("config/".toList ++ rest).drop 7 = rest := fun rest => by
    rw [List.drop_left' (by decide)]
  constructor
  · intro h
    unfold configProduct at h
    split at h
    · rename_i hstart
      obtain ⟨rest, rfl⟩ := startsWith_iff.1 hstart
      dsimp only at h
      rw [String.toList_append, hseven] at h
      split at h
      · exact absurd h (by simp)
      · rename_i hparts
        rw [not_or] at hparts
        obtain rfl := Option.some.inj h
        refine ⟨?_, ?_, ?_⟩
        · intro hslash
          rw [String.toList_ofList] at hslash
          exact absurd (List.mem_takeWhile_imp hslash) (by simp)
        · intro hempty
          exact hparts.1 (by simpa using congrArg String.toList hempty)
        · obtain ⟨c, after, hafter⟩ := List.exists_cons_of_ne_nil hparts.2
          have hc : c = '/' := by
            have hhead := List.head?_dropWhile_not (fun d => d != '/') rest.toList
            rw [hafter] at hhead
            simpa using hhead
          refine startsWith_iff.2 ⟨String.ofList after, String.toList_inj.1 ?_⟩
          have hsplit := List.takeWhile_append_dropWhile (p := fun d => d != '/') (l := rest.toList)
          rw [hafter, hc] at hsplit
          conv_lhs => rw [String.toList_append, ← hsplit]
          simp
    · exact absurd h (by simp)
  · rintro ⟨hsegment, hne, hstart⟩
    obtain ⟨rest, rfl⟩ := startsWith_iff.1 hstart
    have hlist : ("config/" ++ name ++ "/" ++ rest).toList = "config/".toList ++ (name.toList ++ '/' :: rest.toList) := by
      simp
    have hall : ∀ c ∈ name.toList, (c != '/') = true := by
      intro c hc
      rw [bne_iff_ne]
      rintro rfl
      exact hsegment hc
    have htake : (name.toList ++ '/' :: rest.toList).takeWhile (· != '/') = name.toList := by
      rw [List.takeWhile_append_of_pos hall]
      simp
    have hdrop : (name.toList ++ '/' :: rest.toList).dropWhile (· != '/') = '/' :: rest.toList := by
      rw [List.dropWhile_append_of_pos hall]
      simp
    have hconfig : startsWith ("config/" ++ name ++ "/" ++ rest) "config/" = true :=
      startsWith_iff.2 ⟨name ++ ("/" ++ rest), by simp only [String.append_assoc]⟩
    unfold configProduct
    rw [if_pos hconfig]
    dsimp only
    rw [hlist, hseven, htake, hdrop, String.ofList_toList, if_neg]
    rintro (hnil | hnil)
    · exact hne (String.toList_inj.1 (hnil.trans rfl))
    · exact absurd hnil (by simp)

/-- Every path that is shown, as a gist or with an added product, as often as it is. -/
def SyncRows.paths (rows : SyncRows) : List String :=
  rows.gists.map SyncGist.path ++ rows.configsOf.flatMap fun f => f.2.map SyncGist.path

def SyncRows.Shows (rows : SyncRows) (path : String) : Prop := path ∈ rows.paths

instance : (rows : SyncRows) → (path : String) → Decidable (rows.Shows path) :=
  fun rows path => inferInstanceAs (Decidable (path ∈ rows.paths))

/-- A path belongs to a product that is listed. -/
def SyncRows.Lists (rows : SyncRows) (path : String) : Prop :=
  ∃ product, productOfPath path = some product ∧
    (product ∈ rows.added ∨ product ∈ rows.archived ∨ product ∈ rows.retiring)

theorem SyncRows.shows_of_mem_gists {rows : SyncRows} {gist : SyncGist} (h : gist ∈ rows.gists) :
    rows.Shows gist.path := List.mem_append_left _ (List.mem_map_of_mem h)

theorem SyncRows.shows_of_mem_configsOf {rows : SyncRows} {f : String × List SyncGist} {gist : SyncGist}
    (hf : f ∈ rows.configsOf) (h : gist ∈ f.2) : rows.Shows gist.path :=
  List.mem_append_right _ (List.mem_flatMap.2 ⟨f, hf, List.mem_map_of_mem h⟩)

section

variable {retiring : List String}

theorem mem_retiring {name : String} : name ∈ (syncRowsFromJournal localeLe entries retiring).retiring ↔
    name ∈ retiring ∨ ∃ entry ∈ entries, yamlIn "schema" entry.path = some name ∧ "retiring" ∈ entry.keys := by
  show name ∈ sorted localeLe (retiringProducts (gistFromJournal localeLe entries) retiring) ↔ _
  unfold retiringProducts
  rw [mem_sorted, mem_setOf, List.mem_append, List.mem_filterMap]
  apply or_congr_right
  have hkey : ∀ entry : JournalEntry, "retiring" ∈ keysOf entry ↔ "retiring" ∈ entry.keys := by
    intro entry
    unfold keysOf
    rw [List.mem_filter]
    exact and_iff_left rfl
  constructor
  · rintro ⟨gist, hgist, hname⟩
    split at hname
    · rename_i hretiring
      obtain ⟨entry, hentry, hpath, hkeys⟩ := (mem_gist_keys hgist).1 hretiring
      exact ⟨entry, hentry, hpath ▸ hname, (hkey entry).1 hkeys⟩
    · exact absurd hname (by simp)
  · rintro ⟨entry, hentry, hname, hkeys⟩
    obtain ⟨gist, hgist, hpath⟩ := (@exists_gist localeLe entries entry.path).2 ⟨entry, hentry, rfl⟩
    refine ⟨gist, hgist, ?_⟩
    rw [if_pos ((mem_gist_keys hgist).2 ⟨entry, hentry, hpath.symm, (hkey entry).2 hkeys⟩), hpath]
    exact hname

theorem mem_archived {name : String} : name ∈ (syncRowsFromJournal localeLe entries retiring).archived ↔
    ∃ entry ∈ entries, yamlIn "archived" entry.path = some name := by
  show name ∈ sorted localeLe (setOf ((gistFromJournal localeLe entries).filterMap _)) ↔ _
  rw [mem_sorted, mem_setOf, List.mem_filterMap]
  constructor
  · rintro ⟨gist, hgist, hname⟩
    obtain ⟨entry, hentry, hpath⟩ := exists_gist.1 ⟨gist, hgist, rfl⟩
    exact ⟨entry, hentry, hpath ▸ hname⟩
  · rintro ⟨entry, hentry, hname⟩
    obtain ⟨gist, hgist, hpath⟩ := (@exists_gist localeLe entries entry.path).2 ⟨entry, hentry, rfl⟩
    exact ⟨gist, hgist, hpath ▸ hname⟩

theorem nodup_added : (syncRowsFromJournal localeLe entries retiring).added.Nodup := by
  apply (List.perm_insertionSort _ _).nodup_iff.2
  exact (nodup_eraseDups _).filter _

/-- A gist stays unless it is of the registry, or of a product that is listed. -/
theorem mem_gists {gist : SyncGist} : gist ∈ (syncRowsFromJournal localeLe entries retiring).gists ↔
    gist ∈ gistFromJournal localeLe entries ∧ gist.path ≠ "services.yaml" ∧
      ¬ (syncRowsFromJournal localeLe entries retiring).Lists gist.path := by
  show gist ∈ (gistFromJournal localeLe entries).filter _ ↔ _
  rw [List.mem_filter]
  apply and_congr_right
  intro _
  by_cases hservices : gist.path = "services.yaml"
  · rw [if_pos hservices]
    exact iff_of_false Bool.false_ne_true fun h => h.1 hservices
  · rw [if_neg hservices]
    unfold SyncRows.Lists
    cases hproduct : productOfPath gist.path with
    | none => simp [hservices]
    | some product =>
      simp only [syncRowsFromJournal, Option.some.injEq, exists_eq_left', mem_sorted, ne_eq, hservices,
        not_false_eq_true, true_and, List.contains_eq_mem, decide_eq_false_iff_not, List.mem_append,
        List.mem_filter, Bool.not_eq_eq_eq_not, Bool.not_true]
      tauto

/-- With an added product comes every file of its configuration. -/
theorem mem_configsOf {f : String × List SyncGist} :
    f ∈ (syncRowsFromJournal localeLe entries retiring).configsOf ↔
      f.1 ∈ (syncRowsFromJournal localeLe entries retiring).added ∧
        f.2 = (gistFromJournal localeLe entries).filter fun gist => startsWith gist.path ("config/" ++ f.1 ++ "/") := by
  show f ∈ (syncRowsFromJournal localeLe entries retiring).added.map _ ↔ _
  rw [List.mem_map]
  constructor
  · rintro ⟨name, hname, rfl⟩
    exact ⟨hname, rfl⟩
  · rintro ⟨hname, hgists⟩
    exact ⟨f.1, hname, Prod.ext rfl hgists.symm⟩

theorem mem_gists_of_configsOf {f : String × List SyncGist} {gist : SyncGist}
    (hf : f ∈ (syncRowsFromJournal localeLe entries retiring).configsOf) (hgist : gist ∈ f.2) :
    gist ∈ gistFromJournal localeLe entries ∧ startsWith gist.path ("config/" ++ f.1 ++ "/") = true := by
  rw [(mem_configsOf.1 hf).2, List.mem_filter] at hgist
  exact hgist

/-- A file that is journaled is shown unless it is the registry, or belongs to a product that is listed. -/
theorem shows_or_lists {entry : JournalEntry} (h : entry ∈ entries) (hservices : entry.path ≠ "services.yaml") :
    (syncRowsFromJournal localeLe entries retiring).Shows entry.path ∨
      (syncRowsFromJournal localeLe entries retiring).Lists entry.path := by
  obtain ⟨gist, hgist, hpath⟩ := (@exists_gist localeLe entries entry.path).2 ⟨entry, h, rfl⟩
  by_cases hlists : (syncRowsFromJournal localeLe entries retiring).Lists entry.path
  · exact .inr hlists
  · rw [← hpath] at hservices hlists ⊢
    exact .inl (SyncRows.shows_of_mem_gists (mem_gists.2 ⟨hgist, hservices, hlists⟩))

theorem productOfPath_of_config {path product : String} (h : configProduct path = some product) :
    productOfPath path = some product := by
  unfold productOfPath
  rw [h]
  rfl

/-- A change of the configuration is shown unless its product is listed as retiring or archived. -/
theorem shows_config {entry : JournalEntry} {product : String} (h : entry ∈ entries)
    (hproduct : configProduct entry.path = some product)
    (hretiring : product ∉ (syncRowsFromJournal localeLe entries retiring).retiring)
    (harchived : product ∉ (syncRowsFromJournal localeLe entries retiring).archived) :
    (syncRowsFromJournal localeLe entries retiring).Shows entry.path := by
  have hservices : entry.path ≠ "services.yaml" := by
    intro heq
    rw [heq] at hproduct
    exact absurd ((show configProduct "services.yaml" = none by decide).symm.trans hproduct) (by simp)
  rcases shows_or_lists h hservices with hshows | ⟨product', hproduct', hlisted⟩
  · exact hshows
  · rw [productOfPath_of_config hproduct] at hproduct'
    obtain rfl := Option.some.inj hproduct'
    have hadded := hlisted.resolve_right (not_or.2 ⟨harchived, hretiring⟩)
    obtain ⟨gist, hgist, hpath⟩ := (@exists_gist localeLe entries entry.path).2 ⟨entry, h, rfl⟩
    obtain ⟨-, -, hstart⟩ := configProduct_eq_some.1 hproduct
    rw [← hpath] at hstart ⊢
    exact SyncRows.shows_of_mem_configsOf (mem_configsOf.2 ⟨hadded, rfl⟩ :
      (product, (gistFromJournal localeLe entries).filter fun gist =>
        startsWith gist.path ("config/" ++ product ++ "/")) ∈ _) (List.mem_filter.2 ⟨hgist, hstart⟩)

theorem nodup_paths (h : ∀ name ∈ (syncRowsFromJournal localeLe entries retiring).added, Segment name ∧ name ≠ "") :
    (syncRowsFromJournal localeLe entries retiring).paths.Nodup := by
  have hconfig : ∀ f ∈ (syncRowsFromJournal localeLe entries retiring).configsOf, ∀ gist ∈ f.2,
      configProduct gist.path = some f.1 := by
    intro f hf gist hgist
    obtain ⟨hsegment, hne⟩ := h f.1 (mem_configsOf.1 hf).1
    exact configProduct_eq_some.2 ⟨hsegment, hne, (mem_gists_of_configsOf hf hgist).2⟩
  unfold SyncRows.paths
  rw [List.nodup_append']
  refine ⟨?_, ?_, ?_⟩
  · exact nodup_gists.sublist (List.filter_sublist.map _)
  · rw [List.nodup_flatMap]
    constructor
    · intro f hf
      rw [(mem_configsOf.1 hf).2]
      exact nodup_gists.sublist (List.filter_sublist.map _)
    · have hnames : ((syncRowsFromJournal localeLe entries retiring).configsOf.map Prod.fst).Nodup := by
        have hfst : (syncRowsFromJournal localeLe entries retiring).configsOf.map Prod.fst =
            (syncRowsFromJournal localeLe entries retiring).added := by
          show List.map Prod.fst (List.map _ (syncRowsFromJournal localeLe entries retiring).added) = _
          rw [List.map_map]
          exact List.map_id _
        rw [hfst]
        exact nodup_added
      rw [List.Nodup, List.pairwise_map] at hnames
      refine hnames.imp_of_mem fun {f g} hf hg hne => ?_
      intro path hpath hpath'
      obtain ⟨gist, hgist, rfl⟩ := List.mem_map.1 hpath
      obtain ⟨gist', hgist', heq⟩ := List.mem_map.1 hpath'
      have hproduct := hconfig g hg gist' hgist'
      rw [heq, hconfig f hf gist hgist] at hproduct
      exact hne (Option.some.inj hproduct)
  · intro path hpath hpath'
    obtain ⟨gist, hgist, rfl⟩ := List.mem_map.1 hpath
    obtain ⟨f, hf, hmem⟩ := List.mem_flatMap.1 hpath'
    obtain ⟨gist', hgist', heq⟩ := List.mem_map.1 hmem
    have hproduct := hconfig f hf gist' hgist'
    rw [heq] at hproduct
    exact (mem_gists.1 hgist).2.2 ⟨f.1, productOfPath_of_config hproduct, .inl (mem_configsOf.1 hf).1⟩

end

/-- What the preview of a sync does not hide: each journaled file but the registry is shown, or belongs to a product
that is listed; a product is listed as retiring where it is retiring now or its schema had a write of `retiring`, and
as archived where an archive of it was written; a change of the configuration of any other product is shown; and no
path is shown twice. -/
theorem preview_shows_what_is_active (localeLe : String → String → Bool) (entries : List JournalEntry)
    (retiring : List String) :
    (∀ entry ∈ entries, entry.path ≠ "services.yaml" →
        (syncRowsFromJournal localeLe entries retiring).Shows entry.path ∨
          (syncRowsFromJournal localeLe entries retiring).Lists entry.path) ∧
      (∀ name, name ∈ (syncRowsFromJournal localeLe entries retiring).retiring ↔
        name ∈ retiring ∨ ∃ entry ∈ entries, yamlIn "schema" entry.path = some name ∧ "retiring" ∈ entry.keys) ∧
      (∀ name, name ∈ (syncRowsFromJournal localeLe entries retiring).archived ↔
        ∃ entry ∈ entries, yamlIn "archived" entry.path = some name) ∧
      (∀ entry ∈ entries, ∀ product, configProduct entry.path = some product → product ∉ retiring →
        (∀ other ∈ entries, yamlIn "schema" other.path = some product → "retiring" ∉ other.keys) →
        (∀ other ∈ entries, yamlIn "archived" other.path ≠ some product) →
        (syncRowsFromJournal localeLe entries retiring).Shows entry.path) ∧
      ((∀ name ∈ (syncRowsFromJournal localeLe entries retiring).added, Segment name ∧ name ≠ "") →
        (syncRowsFromJournal localeLe entries retiring).paths.Nodup) := by
  refine ⟨fun entry h hservices => shows_or_lists h hservices, fun name => mem_retiring, fun name => mem_archived,
    ?_, nodup_paths⟩
  intro entry h product hproduct hnow hretiring harchived
  apply shows_config h hproduct
  · intro hmem
    rcases mem_retiring.1 hmem with hmem | ⟨other, hother, hname, hkeys⟩
    · exact hnow hmem
    · exact hretiring other hother hname hkeys
  · intro hmem
    obtain ⟨other, hother, hname⟩ := mem_archived.1 hmem
    exact harchived other hother hname

/-- A write to a file, as the journal holds it. -/
def written (path key : String) : JournalEntry := ⟨"ops@anudeep.pro", path, [key], "1", "2026-09-11T00:00:00.000Z"⟩

/-- The registry itself is not shown; nor is the configuration of a product whose retirement was cancelled; and the
file of one added product is also one of another whose name has a slash. -/
theorem preview_hides_registry_and_cancelled :
    (¬ ∀ (localeLe : String → String → Bool) (entries : List JournalEntry) (retiring : List String),
        ∀ entry ∈ entries, (syncRowsFromJournal localeLe entries retiring).Shows entry.path ∨
          (syncRowsFromJournal localeLe entries retiring).Lists entry.path) ∧
      (¬ ∀ (localeLe : String → String → Bool) (entries : List JournalEntry) (retiring : List String),
        ∀ entry ∈ entries, ∀ product, configProduct entry.path = some product → product ∉ retiring →
          (∀ other ∈ entries, yamlIn "archived" other.path ≠ some product) →
          (syncRowsFromJournal localeLe entries retiring).Shows entry.path) ∧
      ¬ ∀ (localeLe : String → String → Bool) (entries : List JournalEntry) (retiring : List String),
        (syncRowsFromJournal localeLe entries retiring).paths.Nodup := by
  refine ⟨?_, ?_, ?_⟩
  · intro h
    rcases h (fun a b => decide (a ≤ b)) [written "services.yaml" "iam"] [] _ List.mem_cons_self with
      hshows | ⟨product, hproduct, -⟩
    · revert hshows
      decide +kernel
    · exact absurd ((show productOfPath "services.yaml" = none by decide).symm.trans hproduct) (by simp)
  · intro h
    have hcancelled := h (fun a b => decide (a ≤ b))
      [written "config/iam/prod.yaml" "SESSION_TTL", written "schema/iam.yaml" "retiring",
        written "schema/iam.yaml" "retiring"] [] _ List.mem_cons_self "iam" (by decide +kernel) (by decide)
      (by decide +kernel)
    revert hcancelled
    decide +kernel
  · intro h
    have hslash := h (fun a b => decide (a ≤ b)) [written "services.yaml" "a", written "services.yaml" "a/b",
      written "config/a/b/dev.yaml" "COUNT"] []
    revert hslash
    decide +kernel

end ConfigRegistry.Console
