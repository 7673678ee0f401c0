import ConfigRegistry.Products.Runs

/-!
# An operation and the database it commits to

An operation decides on the snapshot it has taken, and commits to what the database has become since.
What a commit compares, and what an operation that was not refused therefore knows of the database.
-/

namespace ConfigRegistry.Products

open Js Schema Store

variable {o : ProductWriteOptions} {actor : Actor} {session : ProductMutation}

/-- A search that reads a property finds what `find?` does. -/
theorem find?_of_find {p : Value → Bool} {services : List Value} {found : Option Value}
    (h : ProductMutation.find p services = .ok found) : services.find? p = found := by
  fun_induction ProductMutation.find p services with
  | case1 => exact pure_eq_ok.1 h
  | case2 => cases h
  | case3 entry rest hne hp =>
    rw [List.find?_cons_of_pos hp]
    exact pure_eq_ok.1 h
  | case4 entry rest hne hp ih =>
    rw [List.find?_cons_of_neg hp]
    exact ih h

/-! ### Directories -/

theorem childName_eq_some {dir path name : String} : childName dir path = some name ↔
    Segment name ∧ (path = dir ++ "/" ++ name ∨ isBelow (dir ++ "/" ++ name) path = true) := by
  unfold childName isBelow
  constructor
  · intro h
    split at h
    · rename_i hbelow
      obtain ⟨rest, rfl⟩ := startsWith_iff.1 hbelow
      have hdrop : (dir ++ "/" ++ rest).toList.drop (dir.toList.length + 1) = rest.toList := by
        have hlist : (dir ++ "/" ++ rest).toList = (dir.toList ++ ['/']) ++ rest.toList := by simp
        rw [hlist]
        exact List.drop_left' (by simp)
      rw [hdrop] at h
      cases h
      refine ⟨?_, ?_⟩
      · unfold Segment
        rw [String.toList_ofList]
        intro hmem
        simpa using List.mem_takeWhile_imp hmem
      · have hsplit := List.takeWhile_append_dropWhile (p := fun c => c != '/') (l := rest.toList)
        generalize rest.toList.takeWhile (· != '/') = first at hsplit ⊢
        cases hrest : rest.toList.dropWhile (· != '/') with
        | nil =>
          rw [hrest, List.append_nil] at hsplit
          rw [hsplit, String.ofList_toList]
          exact .inl rfl
        | cons c cs =>
          have hc : c = '/' := by
            have := List.head?_dropWhile_not (fun c => c != '/') rest.toList
            rw [hrest] at this
            simpa using this
          refine .inr (startsWith_iff.2 ⟨String.ofList cs, String.toList_inj.1 ?_⟩)
          rw [hrest, hc] at hsplit
          simp [← hsplit]
    · cases h
  · rintro ⟨hname, h⟩
    have hall : ∀ c ∈ name.toList, (c != '/') = true := by
      intro c hc
      rw [bne_iff_ne]
      rintro rfl
      exact hname hc
    have htake : ∀ rest : List Char, (name.toList ++ '/' :: rest).takeWhile (· != '/') = name.toList := by
      intro rest
      rw [List.takeWhile_append_of_pos hall]
      simp
    have hdrop : ∀ rest : List Char,
        (dir.toList ++ '/' :: rest).drop (dir.toList.length + 1) = rest := by
      intro rest
      rw [show dir.toList ++ '/' :: rest = (dir.toList ++ ['/']) ++ rest by simp]
      exact List.drop_left' (by simp)
    rcases h with rfl | h
    · rw [if_pos (startsWith_iff.2 ⟨name, rfl⟩)]
      have hlist : (dir ++ "/" ++ name).toList = dir.toList ++ '/' :: name.toList := by simp
      rw [hlist, hdrop, List.takeWhile_eq_self_iff.2 hall, String.ofList_toList]
    · obtain ⟨rest, rfl⟩ := startsWith_iff.1 h
      rw [if_pos (startsWith_iff.2 ⟨name ++ "/" ++ rest, by simp [String.append_assoc]⟩)]
      have hlist : (dir ++ "/" ++ name ++ "/" ++ rest).toList =
          dir.toList ++ '/' :: (name.toList ++ '/' :: rest.toList) := by simp
      rw [hlist, hdrop, htake, String.ofList_toList]

/-- What `readdir` lists: the files and the directories that are directly in the directory. -/
theorem mem_directoryNames {db : Database} {dir name : String} {names : List String}
    (h : db.directoryNames dir = .ok names) : name ∈ names ↔
      Segment name ∧ ((db.files.lookup (dir ++ "/" ++ name)).isSome = true ∨
        db.isDirectory (dir ++ "/" ++ name) = true) := by
  have hkeys : ∀ path, path ∈ db.files.keys ↔ (db.files.lookup path).isSome = true := fun path =>
    AList.lookup_isSome.symm
  rw [Database.directoryNames] at h
  split at h
  · cases h
  · cases h
    rw [List.mem_eraseDups, List.mem_filterMap]
    simp only [List.mem_append, childName_eq_some, Database.isDirectory, Bool.or_eq_true,
      List.any_eq_true, beq_iff_eq]
    constructor
    · rintro ⟨path, hpath | hpath, hname, rfl | hbelow⟩
      · exact ⟨hname, .inl ((hkeys _).1 hpath)⟩
      · exact ⟨hname, .inr (.inl ⟨path, hpath, hbelow⟩)⟩
      · exact ⟨hname, .inr (.inr ⟨_, hpath, .inl rfl⟩)⟩
      · exact ⟨hname, .inr (.inr ⟨path, hpath, .inr hbelow⟩)⟩
    · rintro ⟨hname, hfile | ⟨path, hpath, hbelow⟩ | ⟨path, hpath, rfl | hbelow⟩⟩
      · exact ⟨_, .inl ((hkeys _).2 hfile), hname, .inl rfl⟩
      · exact ⟨path, .inl hpath, hname, .inr hbelow⟩
      · exact ⟨_, .inr hpath, hname, .inl rfl⟩
      · exact ⟨path, .inr hpath, hname, .inr hbelow⟩

theorem nodup_directoryNames {db : Database} {dir : String} {names : List String}
    (h : db.directoryNames dir = .ok names) : names.Nodup := by
  rw [Database.directoryNames] at h
  split at h
  · cases h
  · cases h
    exact nodup_eraseDups _

/-- The YAML files of a directory are as they were listed: those that are named are directly in it,
and no directory has such a name. -/
theorem staleCollection_one {db : Database} {check : CollectionPrecondition}
    (hn : check.files.Nodup) (hyaml : ∀ name ∈ check.files, endsWith name ".yaml" = true) :
    staleCollection db [check] = .ok none ↔ (∃ names, db.directoryNames check.path = .ok names) ∧
      ∀ name, endsWith name ".yaml" = true → (name ∈ check.files ↔ Segment name ∧
        ((db.files.lookup (check.path ++ "/" ++ name)).isSome = true ∨
          db.isDirectory (check.path ++ "/" ++ name) = true)) := by
  rw [staleCollection]
  cases hnames : db.directoryNames check.path with
  | error e =>
    constructor
    · intro h
      cases h
    · rintro ⟨⟨names, h⟩, -⟩
      cases h
  | ok names =>
    have hmem := fun name => @mem_directoryNames db _ name _ hnames
    change (if sortTexts (names.filter fun name => endsWith name ".yaml") = sortTexts check.files then
      staleCollection db [] else _) = _ ↔ _
    have hsorted : sortTexts (names.filter fun name => endsWith name ".yaml") = sortTexts check.files ↔
        ∀ name, endsWith name ".yaml" = true → (name ∈ check.files ↔ name ∈ names) := by
      rw [sortTexts_eq_iff, List.perm_ext_iff_of_nodup ((nodup_directoryNames hnames).filter _) hn]
      simp only [List.mem_filter]
      constructor
      · intro h name hends
        rw [← h name]
        simp [hends]
      · intro h name
        constructor
        · rintro ⟨hin, hends⟩
          exact (h name hends).2 hin
        · intro hin
          exact ⟨(h name (hyaml name hin)).1 hin, hyaml name hin⟩
    split
    · rename_i heq
      have hsame := hsorted.1 heq
      refine iff_of_true rfl ⟨⟨names, rfl⟩, fun name hends => ?_⟩
      rw [hsame name hends, hmem]
    · rename_i hne
      refine iff_of_false (by simp [pure, Except.pure]) ?_
      rintro ⟨-, h⟩
      apply hne
      rw [hsorted]
      intro name hends
      rw [hmem, h name hends]

/-- A directory that can be listed is as it was, or is in conflict. -/
theorem staleCollection_conflict {db : Database} {check : CollectionPrecondition}
    (hn : check.files.Nodup) (hyaml : ∀ name ∈ check.files, endsWith name ".yaml" = true) :
    (∃ conflict, staleCollection db [check] = .ok (some conflict)) ↔
      (∃ names, db.directoryNames check.path = .ok names) ∧
      ¬ ∀ name, endsWith name ".yaml" = true → (name ∈ check.files ↔ Segment name ∧
        ((db.files.lookup (check.path ++ "/" ++ name)).isSome = true ∨
          db.isDirectory (check.path ++ "/" ++ name) = true)) := by
  have hone := @staleCollection_one db _ hn hyaml
  cases hnames : db.directoryNames check.path with
  | error e =>
    refine iff_of_false ?_ (by simp)
    rintro ⟨conflict, h⟩
    rw [staleCollection, hnames] at h
    cases h
  | ok names =>
    have hfound : ∃ found, staleCollection db [check] = .ok found := by
      rw [staleCollection, hnames]
      change ∃ found, (if sortTexts (names.filter fun name => endsWith name ".yaml") =
        sortTexts check.files then staleCollection db [] else pure _) = .ok found
      split
      · exact ⟨_, rfl⟩
      · exact ⟨_, rfl⟩
    obtain ⟨found, hfound⟩ := hfound
    rw [hnames, hfound] at hone
    rw [hfound]
    cases found with
    | none => exact iff_of_false (by simp) fun h => h.2 (hone.1 rfl).2
    | some conflict =>
      refine iff_of_true ⟨conflict, rfl⟩ ⟨⟨names, rfl⟩, fun hsame => ?_⟩
      cases hone.2 ⟨⟨names, rfl⟩, hsame⟩

/-! ### What a session asks to be written -/

/-- The files below `config/<service>/` that the commit compares the directory with. -/
def ProductMutation.listed (session : ProductMutation) : List String :=
  session.environments.map fun (path, _) => sliceBetween path (configPrefix session.service) ""

/-- The paths that the commit compares with the snapshot. -/
def ProductMutation.compared (session : ProductMutation) (plan : Plan) : List String :=
  ([schemaPath session.service, "services.yaml", "environments.yaml"] ++ plan.reads).eraseDups

theorem mem_compared {plan : Plan} {path : String} : path ∈ session.compared plan ↔
    path = schemaPath session.service ∨ path = "services.yaml" ∨ path = "environments.yaml" ∨
      path ∈ plan.reads := by
  simp [ProductMutation.compared]

theorem mem_listed {name : String} : name ∈ session.listed ↔ endsWith name ".yaml" = true ∧
    (session.files.lookup (configPrefix session.service ++ name)).isSome = true := by
  have hslice : ∀ rest, sliceBetween (configPrefix session.service ++ rest) (configPrefix session.service) "" =
      rest := by
    intro rest
    have := sliceBetween_append (configPrefix session.service) rest ""
    rwa [String.append_empty] at this
  rw [ProductMutation.listed, List.mem_map]
  constructor
  · rintro ⟨f, hf, rfl⟩
    obtain ⟨hpath, hlookup⟩ := mem_environments hf
    rw [documentPath_eq, String.append_assoc] at hpath
    dsimp only
    rw [hpath, hslice]
    refine ⟨endsWith_iff.2 ⟨_, rfl⟩, ?_⟩
    rw [← hpath, hlookup]
    rfl
  · rintro ⟨hends, hsome⟩
    obtain ⟨source, hsource⟩ := Option.isSome_iff_exists.1 hsome
    refine ⟨(configPrefix session.service ++ name, source), ?_, hslice name⟩
    refine List.mem_filter.2 ⟨mem_listing.2 hsource, ?_⟩
    obtain ⟨rest, rfl⟩ := endsWith_iff.1 hends
    simp only [Bool.and_eq_true]
    exact ⟨startsWith_iff.2 ⟨_, rfl⟩, endsWith_iff.2 ⟨_, String.append_assoc.symm⟩⟩

theorem nodup_environments : (session.environments.map Prod.fst).Nodup := by
  have hall : ((listing session.files).map Prod.fst).Nodup := by
    have := session.files.nodupKeys
    rw [List.NodupKeys, List.keys] at this
    rw [listing, List.map_map]
    exact this
  exact hall.sublist (List.filter_sublist.map _)

theorem nodup_listed : session.listed.Nodup := by
  have hlisted : session.listed = (session.environments.map Prod.fst).map
      fun path => sliceBetween path (configPrefix session.service) "" := by
    rw [ProductMutation.listed, List.map_map]
    rfl
  rw [hlisted]
  refine List.Nodup.map_on (fun path hpath path' hpath' heq => ?_) nodup_environments
  obtain ⟨f, hf, rfl⟩ := List.mem_map.1 hpath
  obtain ⟨f', hf', rfl⟩ := List.mem_map.1 hpath'
  have hrest : ∀ f ∈ session.environments,
      f.1 = configPrefix session.service ++ sliceBetween f.1 (configPrefix session.service) "" := by
    intro f hf
    have hpath := (mem_environments hf).1
    rw [documentPath_eq, String.append_assoc] at hpath
    have hslice := sliceBetween_append (configPrefix session.service)
      (session.environmentOf f.1 ++ ".yaml") ""
    rw [String.append_empty, ← hpath] at hslice
    rw [hslice]
    exact hpath
  rw [hrest f hf, hrest f' hf', heq]

/-- A commit reports a conflict where its transaction did, and no other failure. -/
theorem commit_of_writeMany {plan : Plan} {db db' : Database} {result : Except Error BatchWriteResult}
    (h : writeMany session.options.contentHash plan.writes
      ((session.compared plan).map fun path => { path, expectedEtag := session.etag path })
      [{ path := "config/" ++ session.service, files := session.listed }] db = (result, db')) :
    (session.commit plan db).2 = db' ∧
      ((∃ failure, (session.commit plan db).1 = .ok (.error failure)) ↔
        ∃ path actual revision, result = .ok (.conflict path actual revision)) ∧
      ∀ failure, (session.commit plan db).1 = .ok (.error failure) → failure.code = .conflict := by
  simp only [ProductMutation.commit]
  generalize hwrite : writeMany _ _ _ _ _ = written
  obtain rfl : written = (result, db') := hwrite.symm.trans h
  dsimp only
  cases result with
  | error e => simp
  | ok result =>
    cases result with
    | conflict path actual revision =>
      refine ⟨rfl, iff_of_true ⟨_, rfl⟩ ⟨path, actual, revision, rfl⟩, fun failure hfailure => ?_⟩
      cases hfailure
      rfl
    | written revision => simp
    | unchanged revision => simp

/-- A request that expects its file to be as the session has read it. -/
def Expected (session : ProductMutation) (w : MutationRequest) : Prop :=
  w.expectedEtag = some (session.etag w.path)

theorem expected_put (path : String) (content : Option String) (keys : List String) :
    Expected session (session.put path content keys) := rfl

/-- The version that a document gets when it is written. -/
def nextVersion (current next : Record) : Record :=
  next.set "version" (.num (.ofNat (bumpedVersion current)))

/-- What `values` does with a document: it stays, being as it should be, or it is written. -/
theorem values_cases {environment : String} {changes : List (String × Option Value)}
    {expectedEtag : Option (Option String)} {plan : Plan}
    (h : session.values environment changes expectedEtag = .ok plan) :
    session.order.all.contains environment = true ∧
      expectedEtag.any (fun expected => expected != session.etag (documentPath session.service environment)) =
        false ∧
      ∃ current next, session.document environment = .ok current ∧
        ProductMutation.override (configOnly current) changes = .ok next ∧
        ((session.files.lookup (documentPath session.service environment)).isSome = true ∧
            (Value.obj (configOnly current)).deepEqual (.obj next) = true ∧
            plan = { reads := [documentPath session.service environment] } ∨
          ((session.files.lookup (documentPath session.service environment)).isSome &&
              (Value.obj (configOnly current)).deepEqual (.obj next)) = false ∧
            ∃ source keys, session.encode environment (nextVersion current next) session.schemas = .ok source ∧
              plan = { writes := [session.put (documentPath session.service environment) (some source) keys]
                       reads := [documentPath session.service environment]
                       given := [(environment, nextVersion current next)] }) := by
  simp only [ProductMutation.values] at h
  obtain ⟨horder, h⟩ := guard_eq_ok (by simp) h
  obtain ⟨hexpected, h⟩ := guard_eq_ok (by simp) h
  obtain ⟨current, hcurrent, h⟩ := bind_eq_ok.1 h
  obtain ⟨next, hnext, h⟩ := bind_eq_ok.1 h
  obtain ⟨-, h⟩ := guard_eq_ok (by simp) h
  refine ⟨by simpa using horder, hexpected, current, next, hcurrent, hnext, ?_⟩
  split at h
  · rename_i hsame
    cases h
    rw [Bool.and_eq_true] at hsame
    exact .inl ⟨hsame.1, hsame.2, rfl⟩
  · rename_i hother
    obtain ⟨source, hsource, h⟩ := bind_eq_ok.1 h
    cases h
    exact .inr ⟨by simpa using hother, source, _, hsource, rfl⟩

theorem expected_of_values {environment : String} {changes : List (String × Option Value)}
    {expectedEtag : Option (Option String)} {plan : Plan}
    (h : session.values environment changes expectedEtag = .ok plan) :
    ∀ w ∈ plan.writes, Expected session w := by
  obtain ⟨-, -, current, next, -, -, ⟨-, -, rfl⟩ | ⟨-, source, keys, -, rfl⟩⟩ := values_cases h
  · simp
  · simp [expected_put]

theorem expected_of_newDocuments {r : CreateRequest} {schemas : SchemaSet} {environments : List String}
    {documents : List MutationRequest} (h : newDocuments session r schemas environments = .ok documents) :
    ∀ w ∈ documents, Expected session w := by
  induction environments generalizing documents with
  | nil =>
    cases h
    simp
  | cons env environments ih =>
    obtain ⟨source, -, h⟩ := bind_eq_ok.1 h
    obtain ⟨rest, hrest, h⟩ := bind_eq_ok.1 h
    cases h
    exact List.forall_mem_cons.2 ⟨expected_put _ _ _, ih hrest⟩

/-- A pass over environment files, each of which is edited: it stays where that changes nothing, and is
written with its next version where it does. -/
inductive Passed (session : ProductMutation) (candidate : SchemaSet) (edit : String → Record → Record)
    (keys : List String) : List (String × String) → Plan → Prop
  | nil : Passed session candidate edit keys [] {}
  | kept {f : String × String} {envs : List (String × String)} {others : Plan} {current : Record}
      (hcurrent : session.document (session.environmentOf f.1) = .ok current)
      (hvalid : candidate.validate session.service session.options.rt
        (edit (session.environmentOf f.1) (configOnly current)) = [])
      (hsame : edit (session.environmentOf f.1) (configOnly current) = configOnly current ∨
        (Value.obj (configOnly current)).deepEqual
          (.obj (edit (session.environmentOf f.1) (configOnly current))) = true)
      (hothers : Passed session candidate edit keys envs others) :
      Passed session candidate edit keys (f :: envs)
        { writes := others.writes
          reads := documentPath session.service (session.environmentOf f.1) :: others.reads
          given := others.given }
  | wrote {f : String × String} {envs : List (String × String)} {others : Plan} {current : Record}
      {source : String}
      (hcurrent : session.document (session.environmentOf f.1) = .ok current)
      (hvalid : candidate.validate session.service session.options.rt
        (edit (session.environmentOf f.1) (configOnly current)) = [])
      (hother : (Value.obj (configOnly current)).deepEqual
        (.obj (edit (session.environmentOf f.1) (configOnly current))) = false)
      (hsource : session.encode (session.environmentOf f.1)
        (nextVersion current (edit (session.environmentOf f.1) (configOnly current))) candidate = .ok source)
      (hothers : Passed session candidate edit keys envs others) :
      Passed session candidate edit keys (f :: envs)
        { writes := session.put (documentPath session.service (session.environmentOf f.1)) (some source) keys ::
            others.writes
          reads := documentPath session.service (session.environmentOf f.1) :: others.reads
          given := (session.environmentOf f.1,
            nextVersion current (edit (session.environmentOf f.1) (configOnly current))) :: others.given }

/-- How `addKeys` edits the documents: one environment gets the defaults. -/
def addedTo (environment : String) (defaults : Record) (env : String) (config : Record) : Record :=
  if env == environment then Record.assign config defaults else config

theorem addDefaults_passed {r : AddKeysRequest} {candidate : SchemaSet} {names : List String}
    {defaults : Record} {envs : List (String × String)} {plan : Plan} (hservice : session.service = r.service)
    (h : addDefaults session r candidate names defaults envs = .ok plan) :
    Passed session candidate (addedTo r.environment defaults) names envs plan := by
  induction envs generalizing plan with
  | nil =>
    obtain rfl := pure_eq_ok.1 h
    exact .nil
  | cons f envs ih =>
    simp only [addDefaults] at h
    obtain ⟨current, hcurrent, h⟩ := bind_eq_ok.1 h
    generalize hnext : (if (session.environmentOf f.1 == r.environment) = true then
      (configOnly current).assign defaults else configOnly current) = next at h
    obtain ⟨-, h⟩ := guard_eq_ok (by simp) h
    obtain ⟨hvalid, h⟩ := guard_eq_ok (by simp) h
    have hedit : addedTo r.environment defaults (session.environmentOf f.1) (configOnly current) = next :=
      hnext
    have hvalid : candidate.validate session.service session.options.rt
        (addedTo r.environment defaults (session.environmentOf f.1) (configOnly current)) = [] := by
      rw [hedit, hservice]
      simpa using hvalid
    split at h
    · rename_i htarget
      simp only [Bool.and_eq_true, Bool.not_eq_true'] at htarget
      obtain ⟨source, hsource, h⟩ := bind_eq_ok.1 h
      obtain ⟨wrote, hwrote, h⟩ := bind_eq_ok.1 h
      obtain ⟨others, hothers, h⟩ := bind_eq_ok.1 h
      obtain rfl := pure_eq_ok.1 hwrote
      obtain rfl := pure_eq_ok.1 h
      have hpath : documentPath r.service r.environment =
          documentPath session.service (session.environmentOf f.1) := by
        rw [hservice, eq_of_beq htarget.1]
      change Passed session candidate (addedTo r.environment defaults) names (f :: envs)
        { writes := session.put (documentPath r.service r.environment) (some source) names :: others.writes
          reads := documentPath r.service (session.environmentOf f.1) :: others.reads
          given := (session.environmentOf f.1, nextVersion current next) :: others.given }
      rw [hpath, ← hservice, ← hedit]
      refine .wrote hcurrent hvalid ?_ ?_ (ih hothers)
      · rw [hedit]
        exact htarget.2
      · rw [hedit]
        exact hsource
    · rename_i htarget
      obtain ⟨wrote, hwrote, h⟩ := bind_eq_ok.1 h
      obtain ⟨others, hothers, h⟩ := bind_eq_ok.1 h
      obtain rfl := pure_eq_ok.1 hwrote
      obtain rfl := pure_eq_ok.1 h
      change Passed session candidate (addedTo r.environment defaults) names (f :: envs)
        { writes := others.writes
          reads := documentPath r.service (session.environmentOf f.1) :: others.reads
          given := others.given }
      rw [← hservice]
      refine .kept hcurrent hvalid ?_ (ih hothers)
      rw [hedit]
      cases heq : session.environmentOf f.1 == r.environment with
      | true =>
        rw [heq] at htarget
        exact .inr (by simpa using htarget)
      | false =>
        rw [heq] at hnext
        exact .inl hnext.symm

theorem deleteFrom_passed {candidate : SchemaSet} {keys : List String} {envs : List (String × String)}
    {plan : Plan} (henvs : ∀ f ∈ envs, f.1 = documentPath session.service (session.environmentOf f.1))
    (h : deleteFrom session session.service candidate keys envs = .ok plan) :
    Passed session candidate (fun _ config => config.deleteAll keys) keys envs plan := by
  induction envs generalizing plan with
  | nil =>
    obtain rfl := pure_eq_ok.1 h
    exact .nil
  | cons f envs ih =>
    simp only [deleteFrom] at h
    obtain ⟨current, hcurrent, h⟩ := bind_eq_ok.1 h
    obtain ⟨hvalid, h⟩ := guard_eq_ok (by simp) h
    have hpaths : ∀ f ∈ envs, f.1 = documentPath session.service (session.environmentOf f.1) :=
      fun f' hf' => henvs f' (List.mem_cons_of_mem _ hf')
    have hvalid : candidate.validate session.service session.options.rt
        ((configOnly current).deleteAll keys) = [] := by simpa using hvalid
    split at h
    · rename_i hother
      obtain ⟨source, hsource, h⟩ := bind_eq_ok.1 h
      obtain ⟨wrote, hwrote, h⟩ := bind_eq_ok.1 h
      obtain ⟨others, hothers, h⟩ := bind_eq_ok.1 h
      obtain rfl := pure_eq_ok.1 hwrote
      obtain rfl := pure_eq_ok.1 h
      change Passed session candidate (fun _ config => config.deleteAll keys) keys (f :: envs)
        { writes := session.put f.1 (some source) keys :: others.writes
          reads := documentPath session.service (session.environmentOf f.1) :: others.reads
          given := (session.environmentOf f.1, nextVersion current ((configOnly current).deleteAll keys)) ::
            others.given }
      rw [henvs f List.mem_cons_self, environmentOf_documentPath]
      exact .wrote hcurrent hvalid (by simpa using hother) hsource (ih hpaths hothers)
    · rename_i hsame
      obtain ⟨wrote, hwrote, h⟩ := bind_eq_ok.1 h
      obtain ⟨others, hothers, h⟩ := bind_eq_ok.1 h
      obtain rfl := pure_eq_ok.1 hwrote
      obtain rfl := pure_eq_ok.1 h
      exact .kept hcurrent hvalid (.inr (by simpa using hsame)) (ih hpaths hothers)

section

variable {candidate : SchemaSet} {edit : String → Record → Record} {keys : List String}
  {envs : List (String × String)} {plan : Plan}

theorem Passed.expected (h : Passed session candidate edit keys envs plan) :
    ∀ w ∈ plan.writes, Expected session w := by
  induction h with
  | nil => simp
  | kept _ _ _ _ ih => exact ih
  | wrote _ _ _ _ _ ih => exact List.forall_mem_cons.2 ⟨expected_put _ _ _, ih⟩

theorem Passed.reads (h : Passed session candidate edit keys envs plan) :
    ∀ path ∈ plan.reads, ∃ environment, identifier environment = true ∧
      path = documentPath session.service environment := by
  induction h with
  | nil => simp
  | kept hcurrent _ _ _ ih | wrote hcurrent _ _ _ _ ih =>
    exact List.forall_mem_cons.2 ⟨⟨_, (document_eq_ok hcurrent).1, rfl⟩, ih⟩

theorem Passed.writes (h : Passed session candidate edit keys envs plan) :
    ∀ w ∈ plan.writes, ∃ environment, identifier environment = true ∧
      w.path = documentPath session.service environment := by
  induction h with
  | nil => simp
  | kept _ _ _ _ ih => exact ih
  | wrote hcurrent _ _ _ _ ih =>
    exact List.forall_mem_cons.2 ⟨⟨_, (document_eq_ok hcurrent).1, rfl⟩, ih⟩

theorem Passed.sublist (h : Passed session candidate edit keys envs plan) :
    (plan.writes.map MutationRequest.path).Sublist
      (envs.map fun f => documentPath session.service (session.environmentOf f.1)) := by
  induction h with
  | nil => exact List.Sublist.refl _
  | kept _ _ _ _ ih => exact ih.cons _
  | wrote _ _ _ _ _ ih => exact ih.cons_cons _

/-- Every file of the pass has been read. -/
theorem Passed.read (h : Passed session candidate edit keys envs plan) {f : String × String}
    (hf : f ∈ envs) : documentPath session.service (session.environmentOf f.1) ∈ plan.reads := by
  induction h with
  | nil => cases hf
  | kept _ _ _ _ ih | wrote _ _ _ _ _ ih =>
    rcases List.mem_cons.1 hf with rfl | hf
    · exact List.mem_cons_self
    · exact List.mem_cons_of_mem _ (ih hf)

end

/-- What `addKeys` plans: a pass that gives the defaults, and the schema with the keys. -/
theorem addKeys_passed {r : AddKeysRequest} {plan : Plan} (hservice : session.service = r.service)
    (h : addKeys r session = .ok plan) :
    session.order.all.head? = some r.environment ∧
      (session.files.lookup (documentPath r.service r.environment)).isSome = true ∧
      ∃ built added document candidate swept,
        buildSchema session.options.rt r.keys = .ok built ∧
        (session.options.rt.parseYaml built).map (fun v => Value.record (v.field "keys")) = .ok added ∧
        session.productSchema = .ok document ∧
        (∀ name ∈ added.keys, (Value.record (document.field "keys")).has name = false) ∧
        SchemaSet.fromFiles session.options.rt [(r.service, session.options.rt.stringifyYaml
          (document.set "keys" (.obj ((Value.record (document.field "keys")).assign added))))] = .ok candidate ∧
        Passed session candidate (addedTo r.environment (draftedDefaults r.keys)) added.keys
          session.environments swept ∧
        plan = { writes := swept.writes ++ [session.put (schemaPath r.service)
                   (some (session.options.rt.stringifyYaml (document.set "keys"
                     (.obj ((Value.record (document.field "keys")).assign added))))) added.keys]
                 reads := swept.reads
                 given := swept.given } := by
  obtain ⟨identity, -, h⟩ := bind_eq_ok.1 h
  obtain ⟨hlower, h⟩ := guard_eq_ok (by simp) h
  obtain ⟨-, h⟩ := guard_eq_ok (by simp) h
  split at h
  · cases h
  rename_i built hbuilt
  obtain ⟨parsed, hparsed, h⟩ := bind_eq_ok.1 h
  obtain ⟨document, hdocument, h⟩ := bind_eq_ok.1 h
  obtain ⟨hclashes, h⟩ := guard_eq_ok (by simp) h
  obtain ⟨candidate, hcandidate, h⟩ := bind_eq_ok.1 h
  obtain ⟨hexists, h⟩ := guard_eq_ok (by simp) h
  obtain ⟨swept, hswept, h⟩ := bind_eq_ok.1 h
  obtain rfl := pure_eq_ok.1 h
  have hfile : (session.files.lookup (documentPath r.service r.environment)).isSome = true := by
    rw [← Option.not_isNone, hexists]
    rfl
  refine ⟨by simpa using hlower, hfile, built,
    Value.record (parsed.field "keys"), document, candidate, swept, hbuilt, ?_, hdocument, ?_,
    lift_eq_ok.1 hcandidate, addDefaults_passed hservice hswept, ?_⟩
  · rw [lift_eq_ok.1 hparsed]
    rfl
  · simpa using hclashes
  · rw [Plan.append, List.append_nil, List.append_nil]

/-- What `deleteKeys` plans: a pass that removes the keys, and the schema without them. -/
theorem deleteKeys_passed {selected : List String} {expectedBase : Option String} {plan : Plan}
    (h : deleteKeys session.service selected expectedBase session = .ok plan) :
    reviewedOther session session.service expectedBase = false ∧
      ∃ identity keys document candidate swept,
        session.requireProduct = .ok identity ∧ session.select selected = .ok keys ∧
        session.productSchema = .ok document ∧
        SchemaSet.fromFiles session.options.rt [(session.service, session.options.rt.stringifyYaml
          (document.set "keys" (.obj ((Value.record (document.field "keys")).deleteAll keys))))] =
            .ok candidate ∧
        Passed session candidate (fun _ config => config.deleteAll keys) keys session.environments swept ∧
        plan = { writes := swept.writes ++ [session.put (schemaPath session.service)
                   (some (session.options.rt.stringifyYaml (document.set "keys"
                     (.obj ((Value.record (document.field "keys")).deleteAll keys))))) keys]
                 reads := swept.reads
                 given := swept.given } := by
  obtain ⟨hbase, h⟩ := guard_eq_ok (by simp) h
  obtain ⟨identity, hidentity, h⟩ := bind_eq_ok.1 h
  obtain ⟨keys, hkeys, h⟩ := bind_eq_ok.1 h
  obtain ⟨document, hdocument, h⟩ := bind_eq_ok.1 h
  obtain ⟨candidate, hcandidate, h⟩ := bind_eq_ok.1 h
  obtain ⟨swept, hswept, h⟩ := bind_eq_ok.1 h
  obtain rfl := pure_eq_ok.1 h
  refine ⟨hbase, identity, keys, document, candidate, swept, hidentity, hkeys, hdocument,
    lift_eq_ok.1 hcandidate, deleteFrom_passed (fun f hf => (mem_environments hf).1) hswept, ?_⟩
  rw [Plan.append, List.append_nil, List.append_nil]

/-- What `promote` plans: values of one environment for the next. -/
theorem promote_cases {r : PromoteRequest} {plan : Plan} (h : promote r session = .ok plan) :
    session.order.next r.source = some r.target ∧ ∃ keys source changes values,
      session.select r.keys = .ok keys ∧
      (∀ key ∈ keys, session.schemas.isSecret r.service key = false) ∧
      session.document r.source = .ok source ∧ promoted r source keys = .ok changes ∧
      session.values r.target changes none = .ok values ∧
      plan = { writes := values.writes
               reads := documentPath r.service r.source :: values.reads
               given := values.given } := by
  obtain ⟨identity, -, h⟩ := bind_eq_ok.1 h
  obtain ⟨hnext, h⟩ := guard_eq_ok (by simp) h
  obtain ⟨keys, hkeys, h⟩ := bind_eq_ok.1 h
  split at h
  · cases h
  rename_i hplain
  obtain ⟨source, hsource, h⟩ := bind_eq_ok.1 h
  obtain ⟨changes, hchanges, h⟩ := bind_eq_ok.1 h
  obtain ⟨values, hvalues, h⟩ := bind_eq_ok.1 h
  obtain rfl := pure_eq_ok.1 h
  refine ⟨by simpa using hnext, keys, source, changes, values, hkeys, ?_, hsource, hchanges, hvalues, rfl⟩
  intro key hkey
  simpa using List.find?_eq_none.1 hplain key hkey

/-- Whatever an operation writes, it expects to be as it has read it. -/
theorem Operation.expected {op : Operation} {plan : Plan} (hservice : session.service = op.service)
    (h : op.action session = .ok plan) : ∀ w ∈ plan.writes, Expected session w := by
  cases op with
  | createProduct r =>
    obtain ⟨-, h⟩ := guard_eq_ok (by simp) h
    obtain ⟨-, h⟩ := guard_eq_ok (by simp) h
    obtain ⟨services, -, h⟩ := bind_eq_ok.1 h
    obtain ⟨named, -, h⟩ := bind_eq_ok.1 h
    obtain ⟨-, h⟩ := guard_eq_ok (by simp) h
    obtain ⟨holder, -, h⟩ := bind_eq_ok.1 h
    cases holder with
    | some holder => cases h
    | none =>
      obtain ⟨-, h⟩ := guard_eq_ok (by simp) h
      obtain ⟨-, h⟩ := guard_eq_ok (by simp) h
      obtain ⟨schemas, -, h⟩ := bind_eq_ok.1 h
      obtain ⟨-, h⟩ := guard_eq_ok (by simp) h
      obtain ⟨-, h⟩ := guard_eq_ok (by simp) h
      obtain ⟨documents, hdocuments, h⟩ := bind_eq_ok.1 h
      obtain rfl := pure_eq_ok.1 h
      intro w hw
      rcases List.mem_cons.1 hw with rfl | hw
      · exact expected_put _ _ _
      rcases List.mem_append.1 hw with hw | hw
      · exact expected_of_newDocuments hdocuments w hw
      · rw [List.mem_singleton.1 hw]
        exact expected_put _ _ _
  | writeValues r =>
    obtain ⟨identity, -, h⟩ := bind_eq_ok.1 h
    exact expected_of_values h
  | setRetiring service retiring force =>
    obtain ⟨identity, -, h⟩ := bind_eq_ok.1 h
    obtain ⟨-, h⟩ := guard_eq_ok (by simp) h
    obtain ⟨document, -, h⟩ := bind_eq_ok.1 h
    obtain rfl := pure_eq_ok.1 h
    simp [expected_put]
  | promote r =>
    obtain ⟨-, keys, source, changes, values, -, -, -, -, hvalues, rfl⟩ := promote_cases h
    exact fun w hw => expected_of_values hvalues w hw
  | addKeys r =>
    obtain ⟨-, -, built, added, document, candidate, swept, -, -, -, -, -, hpassed, rfl⟩ :=
      addKeys_passed hservice h
    intro w hw
    rcases List.mem_append.1 hw with hw | hw
    · exact hpassed.expected w hw
    · rw [List.mem_singleton.1 hw]
      exact expected_put _ _ _
  | deleteKeys service selected expectedBase =>
    change session.service = service at hservice
    subst hservice
    obtain ⟨-, identity, keys, document, candidate, swept, -, -, -, -, hpassed, rfl⟩ := deleteKeys_passed h
    intro w hw
    rcases List.mem_append.1 hw with hw | hw
    · exact hpassed.expected w hw
    · rw [List.mem_singleton.1 hw]
      exact expected_put _ _ _
  | archiveProduct service expectedBase force =>
    obtain ⟨identity, services, -, -, -, hmem⟩ := archiveProduct_eq_ok h
    intro w hw
    rcases (hmem w).1 hw with rfl | rfl | ⟨f, -, rfl⟩ | rfl
    all_goals exact expected_put _ _ _

/-! ### From a snapshot to a commit -/

/-- The code of the failure that an operation reports. -/
def failureCode : Outcome → Option ErrorCode
  | .ok _ => none
  | .error failure => some failure.code

theorem exists_ok_of_failureCode {out : Outcome} (h : failureCode out = none) :
    ∃ result, out = .ok result := by
  cases out with
  | ok result => exact ⟨result, rfl⟩
  | error failure => cases h

/-- `run`, of an operation that has read `files` and commits to `db`. -/
def runFrom (o : ProductWriteOptions) (service : String) (actor : Actor)
    (action : ProductMutation → Attempt Plan) (files : Files) (db : Database) : Outcome × Database :=
  if !identifier service then (.error { code := .invalid, detail := "invalid product name" }, db)
  else
    match ProductMutation.create o service actor files with
    | .error e => (.error (failureOf service e), db)
    | .ok session =>
      match action session with
      | .error e => (.error (failureOf service e), db)
      | .ok plan =>
        match session.commit plan db with
        | (.error e, db') => (.error (failureOf service e), db')
        | (.ok (.error failure), db') => (.error failure, db')
        | (.ok (.ok result), db') =>
          match o.onCommitted with
          | .ok () => (.ok result, db')
          | .error e => (.error (failureOf service (.error e)), db')

/-- The operation, on a snapshot that the database may have left behind. -/
def Operation.performFrom (op : Operation) (o : ProductWriteOptions) (actor : Actor) (files : Files)
    (db : Database) : Outcome × Database := runFrom o op.service actor op.action files db

/-- The write events of a commit. -/
def ProductMutation.events (session : ProductMutation) (plan : Plan) (db : Database) : List WriteEvent :=
  writeEvents session.options.contentHash plan.writes
    ((session.compared plan).map fun path => { path, expectedEtag := session.etag path })
    [{ path := "config/" ++ session.service, files := session.listed }] db

/-- The write events of an operation. -/
def Operation.eventsFrom (op : Operation) (o : ProductWriteOptions) (actor : Actor) (files : Files)
    (db : Database) : List WriteEvent :=
  if !identifier op.service then []
  else
    match ProductMutation.create o op.service actor files with
    | .error _ => []
    | .ok session =>
      match op.action session with
      | .error _ => []
      | .ok plan => session.events plan db

theorem Operation.perform_eq (op : Operation) (db : Database) :
    op.perform o actor db = op.performFrom o actor db.files db := rfl

/-- The operation was carried out on the database that it found: its plan, what its commit has
compared, and the database afterwards. -/
structure Committed (op : Operation) (o : ProductWriteOptions) (actor : Actor) (files : Files)
    (db db' : Database) (session : ProductMutation) (plan : Plan) : Prop where
  product : identifier op.service = true
  opened : Opened o op.service actor files session
  planned : op.action session = .ok plan
  distinct : (plan.writes.map MutationRequest.path).Nodup
  replaced : ∀ w ∈ plan.writes, files.lookup w.path = db.files.lookup w.path
  read : ∀ path, path = schemaPath op.service ∨ path = "services.yaml" ∨ path = "environments.yaml" ∨
    path ∈ plan.reads → files.lookup path = db.files.lookup path
  listed : ∀ name, endsWith name ".yaml" = true →
    ((files.lookup (configPrefix op.service ++ name)).isSome = true ↔ Segment name ∧
      ((db.files.lookup (configPrefix op.service ++ name)).isSome = true ∨
        db.isDirectory (configPrefix op.service ++ name) = true))
  lookup : ∀ path, db'.files.lookup path =
    match requestFor plan.writes path with
    | some r => r.content
    | none => db.files.lookup path
  published : changedRequests o.contentHash db plan.writes = [] ∧ db' = db ∨
    changedRequests o.contentHash db plan.writes ≠ [] ∧
      db' = db.publish (changedRequests o.contentHash db plan.writes)

section

variable {op : Operation} {files : Files} {db db' : Database} {plan : Plan}

theorem Committed.written (h : Committed op o actor files db db' session plan) {w : MutationRequest}
    (hw : w ∈ plan.writes) : db'.files.lookup w.path = w.content := by
  rw [h.lookup, requestFor_of_mem h.distinct hw]

theorem Committed.untouched (h : Committed op o actor files db db' session plan) {path : String}
    (hpath : ∀ w ∈ plan.writes, w.path ≠ path) : db'.files.lookup path = db.files.lookup path := by
  rw [h.lookup, requestFor_eq_none.2 hpath]

/-- The documents of the product are those of the snapshot: none has come or gone. -/
theorem Committed.documents (h : Committed op o actor files db db' session plan) {environment : String}
    (henv : Segment environment) :
    (files.lookup (documentPath op.service environment)).isSome = true ∨
      files.lookup (documentPath op.service environment) = none ∧
        db.files.lookup (documentPath op.service environment) = none := by
  have hname := h.listed (environment ++ ".yaml") (endsWith_iff.2 ⟨environment, rfl⟩)
  have hsegment : Segment (environment ++ ".yaml") := by
    unfold Segment
    rw [String.toList_append, List.mem_append, not_or]
    exact ⟨henv, by decide⟩
  rw [← String.append_assoc, ← documentPath_eq] at hname
  cases hfile : files.lookup (documentPath op.service environment) with
  | some source => exact .inl rfl
  | none =>
    refine .inr ⟨rfl, ?_⟩
    cases hdb : db.files.lookup (documentPath op.service environment) with
    | none => rfl
    | some source =>
      rw [hfile, hdb] at hname
      cases hname.2 ⟨hsegment, .inl rfl⟩

/-- Every document that there was is directly in its directory. -/
theorem Committed.segment (h : Committed op o actor files db db' session plan) {environment source : String}
    (hfile : files.lookup (documentPath op.service environment) = some source) : Segment environment := by
  have hname := h.listed (environment ++ ".yaml") (endsWith_iff.2 ⟨environment, rfl⟩)
  rw [← String.append_assoc, ← documentPath_eq, hfile] at hname
  have hsegment := (hname.1 rfl).1
  unfold Segment at hsegment ⊢
  rw [String.toList_append, List.mem_append, not_or] at hsegment
  exact hsegment.1

end

theorem lookup_eq_of_etag (hash : Function.Injective o.contentHash) {files files' : Files} {path : String}
    (h : Store.etag o.contentHash files path = Store.etag o.contentHash files' path) :
    files.lookup path = files'.lookup path := Option.map_injective hash h

/-- An operation leaves everything as it was, or is carried out; a failure that it reports then is one
of what follows its commit. -/
theorem performFrom_cases {op : Operation} {files : Files} {db db' : Database} {out : Outcome}
    (hash : Function.Injective o.contentHash) (h : op.performFrom o actor files db = (out, db')) :
    db' = db ∧ (∀ result, out ≠ .ok result) ∨ (∃ session plan, Committed op o actor files db db' session plan) ∧
      ((∃ result, out = .ok result) ∨
        (∃ e, o.onCommitted = .error e ∧ out = .error (failureOf op.service (.error e)))) := by
  simp only [Operation.performFrom, runFrom] at h
  split at h
  · cases h
    exact .inl ⟨rfl, by simp⟩
  rename_i hproduct
  split at h
  · cases h
    exact .inl ⟨rfl, by simp⟩
  rename_i session hsession
  split at h
  · cases h
    exact .inl ⟨rfl, by simp⟩
  rename_i plan hplan
  simp only [ProductMutation.commit] at h
  generalize hwrite : writeMany _ _ _ _ _ = written at h
  obtain ⟨result, db₁⟩ := written
  have hopened := create_eq_ok hsession
  obtain ⟨hoptions, hservice, -, hfiles, -, -, -⟩ := id hopened
  rw [hoptions] at hwrite
  have hetag : ∀ path, session.etag path = Store.etag o.contentHash files path := by
    intro path
    rw [ProductMutation.etag, hoptions, hfiles]
  rcases writeMany_eq hwrite with ⟨rfl, hrefused⟩ | ⟨-, hn, -, hexpected, hcollection, hchecks, hresult⟩
  · refine .inl ?_
    cases result with
    | error e =>
      cases h
      exact ⟨rfl, by simp⟩
    | ok result =>
      cases result with
      | conflict path actual revision =>
        cases h
        exact ⟨rfl, by simp⟩
      | written n => cases hrefused _ rfl
      | unchanged n => cases hrefused _ rfl
  have hcommitted : Committed op o actor files db db₁ session plan := by
    refine ⟨by simpa using hproduct, hopened, hplan, hn, fun w hw => ?_, fun path hpath => ?_,
      fun name hname => ?_, fun path => ?_, ?_⟩
    · have hstale := List.find?_eq_none.1 (Option.map_eq_none_iff.1 hexpected) w hw
      rw [op.expected hservice hplan w hw] at hstale
      rw [hetag] at hstale
      exact lookup_eq_of_etag hash (by simpa using hstale)
    · have hmem : path ∈ session.compared plan := mem_compared.2 (by rwa [hservice])
      have hcheck := (staleRead_eq_none.1 hchecks _ (List.mem_map_of_mem hmem)).2
      dsimp only at hcheck
      rw [hetag] at hcheck
      exact lookup_eq_of_etag hash hcheck
    · have hone := (@staleCollection_one db
        ⟨"config/" ++ session.service, session.listed⟩ nodup_listed
        fun name hname => (mem_listed.1 hname).1).1 hcollection
      have hlisted := hone.2 name hname
      rw [mem_listed, hservice, hfiles] at hlisted
      rw [and_iff_right hname] at hlisted
      exact hlisted
    · rcases hresult with ⟨hnone, -, rfl⟩ | ⟨-, -, rfl⟩
      · have := @lookup_changedRequests _ hash db₁ _ hn path
        rw [hnone] at this
        exact this
      · exact lookup_changedRequests hash hn path
    · rcases hresult with ⟨hnone, -, hdb⟩ | ⟨hsome, -, hdb⟩
      · exact .inl ⟨hnone, hdb⟩
      · exact .inr ⟨hsome, hdb⟩
  have hanswer : ∃ n, result = .ok (.written n) ∨ result = .ok (.unchanged n) := by
    rcases hresult with ⟨-, hresult, -⟩ | ⟨-, hresult, -⟩
    · exact ⟨_, .inr hresult⟩
    · exact ⟨_, .inl hresult⟩
  refine .inr ?_
  obtain ⟨n, rfl | rfl⟩ := hanswer
  all_goals
    dsimp only at h
    split at h
    · cases h
      exact ⟨⟨session, plan, hcommitted⟩, .inl ⟨_, rfl⟩⟩
    · rename_i e he
      cases h
      exact ⟨⟨session, plan, hcommitted⟩, .inr ⟨e, he, rfl⟩⟩

/-- The same, of what the operation returns. -/
theorem Operation.performFrom_cases (op : Operation) (actor : Actor) (hash : Function.Injective o.contentHash)
    (files : Files) (db : Database) :
    (op.performFrom o actor files db).2 = db ∧ (∀ result, (op.performFrom o actor files db).1 ≠ .ok result) ∨
      (∃ session plan, Committed op o actor files db (op.performFrom o actor files db).2 session plan) ∧
        ((∃ result, (op.performFrom o actor files db).1 = .ok result) ∨
          ∃ e, o.onCommitted = .error e ∧
            (op.performFrom o actor files db).1 = .error (failureOf op.service (.error e))) := by
  cases h : op.performFrom o actor files db with
  | mk out db' => exact Products.performFrom_cases hash h

/-- An operation whose plan is made ends with the commit of the plan, and reports its conflict. -/
theorem performFrom_of_plan {op : Operation} {files : Files} {db : Database} {plan : Plan}
    (hproduct : identifier op.service = true)
    (hsession : ProductMutation.create o op.service actor files = .ok session)
    (hplan : op.action session = .ok plan) :
    (op.performFrom o actor files db).2 = (session.commit plan db).2 ∧
      ∀ failure, (session.commit plan db).1 = .ok (.error failure) →
        (op.performFrom o actor files db).1 = .error failure := by
  unfold Operation.performFrom runFrom
  rw [if_neg (by simp [hproduct]), hsession]
  dsimp only
  rw [hplan]
  dsimp only
  cases session.commit plan db with
  | mk answer db' =>
    cases answer with
    | error e => exact ⟨rfl, fun failure h => by cases h⟩
    | ok outcome =>
      cases outcome with
      | error failure =>
        refine ⟨rfl, fun failure' h => ?_⟩
        cases h
        rfl
      | ok result =>
        dsimp only
        split
        · exact ⟨rfl, fun failure h => by cases h⟩
        · exact ⟨rfl, fun failure h => by cases h⟩

/-- Where an operation left everything as it was there are no events. -/
theorem Operation.eventsFrom_eq_nil {op : Operation} {files : Files} {db : Database}
    (h : (op.performFrom o actor files db).2 = db) : op.eventsFrom o actor files db = [] := by
  unfold Operation.eventsFrom
  split
  · rfl
  rename_i hproduct
  split
  · rfl
  rename_i session hsession
  split
  · rfl
  rename_i plan hplan
  obtain ⟨hcommit, -⟩ := @performFrom_of_plan _ _ _ _ _ db _ (by simpa using hproduct) hsession hplan
  apply writeEvents_eq_nil
  obtain ⟨hdb, -⟩ := @commit_of_writeMany session plan db _ _ Prod.mk.eta.symm
  rw [← hdb, ← hcommit]
  exact h

end ConfigRegistry.Products
