import ConfigRegistry.Engine.Isolation

/-!
# What is read is of one moment

However the calls of the engine are interleaved, and whatever fails or is killed meanwhile, a read tells what the
database held at one moment at which the call had its turn to publish.
-/

namespace ConfigRegistry.Engine

open Js Async Fs Store

/-- The etag of the file at a path. -/
def etagAt (host : Host) (d : Disk) (path : String) : Option String := (textAt d path).map host.contentHash

/-- The revision that a database tells; one that was never written to tells none. -/
def revisionOf (d : Disk) : Except Error Nat :=
  match d.readFile [".revision"] with
  | .ok text => parseRevision text
  | .error e => if e.isMissing then .ok 0 else .error e

variable {fails : Op → State → Prop} {kills : Prop} {moment : State → Prop} {host : Host} {t : Nat}
  {locks : List Lock} {running : Bool} {s s' : State} {α β : Type} {φ ψ : State → Prop}

theorem Seen.plain {m : State} (h : Seen moment t φ m) : Seen moment t (fun _ => True) m :=
  ⟨h.moment, h.sound, h.publishes, trivial⟩

theorem observe_revisionUnlocked (d : Disk) : observe unstruck d revisionUnlocked = revisionOf d := by
  rw [revisionUnlocked, observe_bind _ _ _ (reads_readOptional (by decide)), observe_readOptional, revisionOf]
  cases d.readFile [".revision"] with
  | ok text =>
    show observe unstruck d (lift (parseRevision text)) = parseRevision text
    rfl
  | error e =>
    dsimp only
    split
    · rfl
    · rfl

/-! ### Reads -/

theorem readUnlocked_serves {m : State} (hseen : Seen moment t φ m) (hφ : Guarded locks φ) (path : String) :
    serving.Runs ((sem fails kills).through moment) t
      (Knows t (.publication :: locks) false fun s => φ s ∧ Since m s) (readUnlocked path)
      fun r s => Knows t (.publication :: locks) false (fun s => φ s ∧ Since m s) s ∧
        IfOk (fun content => Looking fails → content = textAt m.disk path) r := by
  refine (reads_serve (d := m.disk) (reads_readUnlocked path) (hφ.more.and (guarded_since m))
    fun s hs => hs.2.elsewhere).conseq (fun _ _ hs => hs) fun r s _ hr => ⟨hr.1, fun content hok hlooking => ?_⟩
  have hobserve := hr.2 hlooking
  rw [hok] at hobserve
  exact (textAt_of_observe hseen.sound.rooted hobserve.symm).symm

theorem revisionUnlocked_serves {m : State} (hφ : Guarded locks φ) :
    serving.Runs ((sem fails kills).through moment) t
      (Knows t (.publication :: locks) false fun s => φ s ∧ Since m s) revisionUnlocked
      fun r s => Knows t (.publication :: locks) false (fun s => φ s ∧ Since m s) s ∧
        IfOk (fun n => Looking fails → revisionOf m.disk = .ok n) r := by
  refine (reads_serve (d := m.disk) reads_revisionUnlocked (hφ.more.and (guarded_since m))
    fun s hs => hs.2.elsewhere).conseq (fun _ _ hs => hs) fun r s _ hr => ⟨hr.1, fun n hok hlooking => ?_⟩
  have hobserve := hr.2 hlooking
  rw [hok, observe_revisionUnlocked] at hobserve
  exact hobserve.symm

theorem read_serves (hpaths : OfPaths locks) (hφ : Guarded locks φ) (path : String) :
    serving.Runs ((sem fails kills).through moment) t (Knows t locks false φ) (read host t path)
      fun r s => Knows t locks false φ s ∧ IfOk (fun content => ∃ m, Seen moment t φ m ∧
        (Looking fails → content = textAt m.disk path)) r := by
  unfold read
  cases databasePath path with
  | error e => exact .done fun s hs _ => ⟨hs, ifOk_error⟩
  | ok place =>
    refine published_serves hpaths hφ fun m hseen => ?_
    exact (readUnlocked_serves hseen hφ path).conseq (fun _ _ hs => hs) fun r s _ hr =>
      ⟨⟨hr.1.1, hr.1.2.1⟩, hr.2⟩

theorem etag_serves (hpaths : OfPaths locks) (hφ : Guarded locks φ) (path : String) :
    serving.Runs ((sem fails kills).through moment) t (Knows t locks false φ) (etag host t path)
      fun r s => Knows t locks false φ s ∧ IfOk (fun actual => ∃ m, Seen moment t φ m ∧
        (Looking fails → actual = etagAt host m.disk path)) r := by
  refine .bind (read_serves hpaths hφ path) (fun content => ?_) fun e s _ hs => ⟨hs.1, ifOk_error⟩
  refine .pure fun s hs _ => ⟨hs.1, ifOk_ok.2 ?_⟩
  obtain ⟨m, hseen, hcontent⟩ := ifOk_ok.1 hs.2
  exact ⟨m, hseen, fun hlooking => by rw [hcontent hlooking, etagAt]⟩

theorem revision_serves (hpaths : OfPaths locks) (hφ : Guarded locks φ) :
    serving.Runs ((sem fails kills).through moment) t (Knows t locks false φ) (revision host t)
      fun r s => Knows t locks false φ s ∧ IfOk (fun n => ∃ m, Seen moment t φ m ∧
        (Looking fails → revisionOf m.disk = .ok n)) r := by
  refine published_serves hpaths hφ fun m hseen => ?_
  exact (revisionUnlocked_serves hφ).conseq (fun _ _ hs => hs) fun r s _ hr => ⟨⟨hr.1.1, hr.1.2.1⟩, hr.2⟩

/-! ### Snapshots -/

/-- What `visit` does with the entries of a directory. -/
def visitEntries (depth : Nat) (path : String) (entries : List (String × Kind)) : Prog lang (List (String × String)) := do
  let found ← Prog.collect entries (visitEntry depth path)
  pure found.flatten

/-- What `visit` does once it has listed a directory. -/
def visitListed (depth : Nat) (path : String) : Except Error (List (String × Kind)) → Prog lang (List (String × String))
  | .error e => if e.isMissing then pure [] else Prog.fail e
  | .ok entries => visitEntries depth path entries

theorem visit_succ (depth : Nat) (path : String) :
    visit (depth + 1) path = checkDirectory path >>= fun _ =>
      (Prog.op (S := lang) (.readdir (joined path))).attempt >>= visitListed depth path := by
  rw [visit]
  congr 1
  funext _
  congr 1
  funext r
  cases r <;> rfl

theorem visitEntry_private {depth : Nat} {path : String} {entry : String × Kind} (h : isPrivate entry.1 = true) :
    visitEntry depth path entry = pure [] := if_pos h

/-- The entries that are private are passed over. -/
theorem visitEntries_filter (depth : Nat) (path : String) (entries : List (String × Kind)) :
    visitEntries depth path entries = visitEntries depth path (entries.filter fun entry => !isPrivate entry.1) := by
  have hcollect : ∀ k : List (String × String) → Prog lang (List (String × String)),
      (Prog.collect entries (visitEntry depth path) >>= fun found => k found.flatten) =
        Prog.collect (entries.filter fun entry => !isPrivate entry.1) (visitEntry depth path) >>= fun found =>
          k found.flatten := by
    induction entries with
    | nil => exact fun k => rfl
    | cons entry entries ih =>
      intro k
      cases hprivate : isPrivate entry.1 with
      | true =>
        rw [List.filter_cons_of_neg (by simp [hprivate]), ← ih k, Prog.collect, visitEntry_private hprivate]
        simp only [pure_bind, bind_assoc, List.flatten_cons, List.nil_append]
      | false =>
        rw [List.filter_cons_of_pos (by simp [hprivate]), Prog.collect, Prog.collect]
        simp only [pure_bind, bind_assoc, List.flatten_cons]
        congr 1
        funext b
        exact ih fun found => k (b ++ found)
  exact hcollect fun found => pure found

theorem joined_child {path : String} (hpath : path ≠ "") (name : String) :
    joined (Fs.child path name) = joined path ++ joined name := by
  have hchild : (Fs.child path name).toList = path.toList ++ '/' :: name.toList := by
    rw [Fs.child, if_neg hpath, String.toList_append, String.toList_append]
    simp
  rw [joined, joined, joined, placeOf, placeOf, placeOf, hchild, List.splitOn_append_cons_self, List.map_append,
    List.filter_append]

theorem Inside.ne {path : String} (h : Inside path) : path ≠ "" := by
  rintro rfl
  exact h.1 (by decide)

theorem Inside.child {path : String} (h : Inside path) (name : String) : Inside (Fs.child path name) := by
  unfold Inside
  rw [joined_child h.ne]
  obtain ⟨hne, hhead⟩ := h
  cases hjoined : joined path with
  | nil => exact (hne hjoined).elim
  | cons x rest =>
    rw [hjoined] at hhead
    exact ⟨by simp, hhead⟩

theorem base_joined {path : String} : base (joined path) = joined path := by
  rw [base, if_neg]
  intro hlast
  have hmem := List.mem_filter.1 (List.mem_of_getLast? hlast)
  simp at hmem

theorem reads_checkDirectory (path : String) : Reads (checkDirectory path) := by
  unfold checkDirectory
  split
  · trivial
  · exact reads_assertNoSymlinks path

theorem reads_visitEntry {depth : Nat} {path : String} {entry : String × Kind}
    (hinside : isPrivate entry.1 = false → Inside (Fs.child path entry.1))
    (ih : ∀ path, Inside path → Reads (visit depth path)) : Reads (visitEntry depth path entry) := by
  obtain ⟨name, kind⟩ := entry
  unfold visitEntry
  split
  · trivial
  · rename_i hprivate
    have hchild := hinside (Bool.eq_false_iff.2 hprivate)
    cases kind with
    | link => trivial
    | dir => exact ih _ hchild
    | file =>
      apply Prog.Within.bind (reads_readOptional hchild.2)
      intro content
      cases content <;> trivial

theorem reads_visitEntries {depth : Nat} {path : String} {entries : List (String × Kind)}
    (hinside : ∀ entry ∈ entries, isPrivate entry.1 = false → Inside (Fs.child path entry.1))
    (ih : ∀ path, Inside path → Reads (visit depth path)) : Reads (visitEntries depth path entries) :=
  .bind (.collect fun entry hentry => reads_visitEntry (hinside entry hentry) ih) fun _ => trivial

/-- A visit of a directory that is not the root reads what is not of the journal. -/
theorem reads_visit (depth : Nat) {path : String} (h : Inside path) : Reads (visit depth path) := by
  induction depth generalizing path with
  | zero => trivial
  | succ depth ih =>
    rw [visit_succ]
    apply Prog.Within.bind (reads_checkDirectory path)
    intro _
    apply Prog.Within.bind
    · apply Prog.Within.attempt
      exact .op ⟨h.2, by rw [base_joined]; exact h.1⟩
    · intro r
      cases r with
      | error e =>
        show Reads (if e.isMissing then _ else _)
        split <;> trivial
      | ok entries => exact reads_visitEntries (fun entry _ _ => h.child entry.1) fun path hpath => ih hpath

theorem filter_eraseDups (p : String → Bool) (names : List String) :
    names.eraseDups.filter p = (names.filter p).eraseDups := by
  induction hn : names.length using Nat.strongRecOn generalizing names with
  | ind n ih =>
    cases names with
    | nil => rfl
    | cons name names =>
      have hlength : (names.filter fun b => !b == name).length < n := by
        rw [← hn, List.length_cons]
        exact Nat.lt_succ_of_le (List.length_filter_le _ _)
      rw [List.eraseDups_cons]
      by_cases hp : p name = true
      · rw [List.filter_cons_of_pos hp, List.filter_cons_of_pos hp, List.eraseDups_cons, ih _ hlength _ rfl,
          List.filter_filter, List.filter_filter]
        congr 3
        funext b
        exact Bool.and_comm _ _
      · rw [List.filter_cons_of_neg hp, List.filter_cons_of_neg hp, ih _ hlength _ rfl, List.filter_filter]
        congr 1
        apply List.filter_congr
        intro b _
        by_cases hb : b = name
        · subst hb
          simp [hp]
        · simp [hb]

/-- The listing of the root tells the same of the database, whatever the journal holds. -/
theorem readdir_root {d d' : Disk} (h : d'.elsewhere ".journal" = d.elsewhere ".journal") :
    ∃ entries entries', d.readdir [] = .ok entries ∧ d'.readdir [] = .ok entries' ∧
      entries'.filter (fun entry => !isPrivate entry.1) = entries.filter fun entry => !isPrivate entry.1 := by
  have hfiltered : ∀ d : Disk, (d.names []).filter (fun name => !isPrivate name) =
      ((Disk.mk (d.elsewhere ".journal")).names []).filter fun name => !isPrivate name := by
    intro d
    rw [Disk.names, Disk.names, filter_eraseDups, filter_eraseDups]
    congr 1
    rw [Disk.elsewhere, List.filterMap_filter, List.filter_filterMap, List.filter_filterMap]
    apply List.filterMap_congr
    intro e _
    by_cases hhead : e.1.head? = some ".journal"
    · rw [hhead]
      cases hplace : e.1 with
      | nil => simp
      | cons x rest =>
        rw [hplace] at hhead
        obtain rfl : x = ".journal" := Option.some.inj hhead
        cases rest with
        | nil =>
          have hprivate : isPrivate ".journal" = true := by decide
          simp [hprivate]
        | cons y rest => simp
    · simp [hhead]
  have hentries : ∀ d : Disk, ((d.names []).filterMap fun name =>
      (d.at_ [name]).map fun entry => (name, entry.kind)).filter (fun entry => !isPrivate entry.1) =
      ((d.names []).filter fun name => !isPrivate name).filterMap fun name =>
        (d.at_ [name]).map fun entry => (name, entry.kind) := by
    intro d
    rw [List.filter_filterMap, List.filterMap_filter]
    apply List.filterMap_congr
    intro name _
    cases d.at_ [name] with
    | none => simp
    | some entry => cases hprivate : isPrivate name <;> simp [hprivate]
  refine ⟨_, _, rfl, rfl, ?_⟩
  have hbase : base ([] : Place) = [] := rfl
  rw [hbase]
  simp only [List.nil_append]
  rw [hentries, hentries, hfiltered d', hfiltered d, h]
  apply List.filterMap_congr
  intro name hname
  have hprivate := (List.mem_filter.1 hname).2
  rw [Disk.at_congr h]
  rintro hhead
  obtain rfl : name = ".journal" := Option.some.inj hhead
  revert hprivate
  decide

/-- What is listed in the root leads into the database. -/
theorem inside_of_listed {d : Disk} (hinward : Inward d) {entries : List (String × Kind)}
    (hentries : d.readdir [] = .ok entries) : ∀ entry ∈ entries, isPrivate entry.1 = false →
      Inside (Fs.child "" entry.1) := by
  intro entry hlisted hprivate
  obtain rfl : entries = _ := (Except.ok.inj hentries).symm
  rw [List.mem_filterMap] at hlisted
  obtain ⟨name, -, hname⟩ := hlisted
  have hbase : base ([] : Place) ++ [name] = [name] := rfl
  rw [hbase] at hname
  cases hat : d.at_ [name] with
  | none =>
    rw [hat] at hname
    cases hname
  | some found =>
    rw [hat] at hname
    obtain rfl : name = entry.1 := congrArg Prod.fst (Option.some.inj hname)
    rw [Fs.child, if_pos rfl]
    exact hinward entry.1 (by rw [hat]; simp) hprivate

theorem visit_serves {m : State} (hseen : Seen moment t φ m) (hφ : Guarded locks φ) (depth : Nat) {path : String}
    (hpath : path = "" ∨ Inside path) :
    serving.Runs ((sem fails kills).through moment) t
      (Knows t (.publication :: locks) false fun s => φ s ∧ Since m s) (visit depth path)
      fun r s => Knows t (.publication :: locks) false (fun s => φ s ∧ Since m s) s ∧
        IfOk (fun files => Looking fails → observe unstruck m.disk (visit depth path) = .ok files) r := by
  have hguarded : Guarded (.publication :: locks) fun s => φ s ∧ Since m s := hφ.more.and (guarded_since m)
  have hfound : ∀ {p : Prog lang (List (String × String))}, Reads p →
      observe unstruck m.disk p = observe unstruck m.disk (visit depth path) →
      serving.Runs ((sem fails kills).through moment) t
        (Knows t (.publication :: locks) false fun s => φ s ∧ Since m s) p
        fun r s => Knows t (.publication :: locks) false (fun s => φ s ∧ Since m s) s ∧
          IfOk (fun files => Looking fails → observe unstruck m.disk (visit depth path) = .ok files) r := by
    intro p hp hsame
    refine (reads_serve (d := m.disk) hp hguarded fun s hs => hs.2.elsewhere).conseq (fun _ _ hs => hs)
      fun r s _ hr => ⟨hr.1, fun files hok hlooking => ?_⟩
    rw [← hsame, ← hr.2 hlooking, hok]
  rcases hpath with rfl | hinside
  · cases depth with
    | zero => exact .done fun s hs _ => ⟨hs, ifOk_error⟩
    | succ depth =>
      have hroot : joined "" = [] := by decide
      have hvisit : visit (depth + 1) "" = (Prog.op (S := lang) (.readdir [])).attempt >>= visitListed depth "" := by
        rw [visit_succ, hroot]
        rfl
      obtain ⟨entries, -, hentries, -, -⟩ := readdir_root (d := m.disk) rfl
      have hobserve : observe unstruck m.disk (visit (depth + 1) "") =
          observe unstruck m.disk (visitEntries depth "" (entries.filter fun entry => !isPrivate entry.1)) := by
        rw [hvisit, ← visitEntries_filter]
        show observe unstruck m.disk (visitListed depth "" (answer unstruck m.disk (.readdir []))) = _
        rw [answer, struck_alone]
        show observe unstruck m.disk (visitListed depth "" (m.disk.readdir [])) = _
        rw [hentries]
        rfl
      have hreads : Reads (visitEntries depth "" (entries.filter fun entry => !isPrivate entry.1)) := by
        apply reads_visitEntries _ fun path hpath => reads_visit depth hpath
        exact fun entry hentry => inside_of_listed hseen.sound.inward hentries entry (List.mem_filter.1 hentry).1
      have hlist : serving.Runs ((sem fails kills).through moment) t
          (Knows t (.publication :: locks) false fun s => φ s ∧ Since m s)
          (Prog.op (S := lang) (.readdir [])).attempt
          (Accord.Returned fun r s => Knows t (.publication :: locks) false (fun s => φ s ∧ Since m s) s ∧
            ((Looking fails → ∃ entries', r = .ok entries') ∧ IfOk (fun entries' =>
              entries'.filter (fun entry => !isPrivate entry.1) = entries.filter fun entry => !isPrivate entry.1) r)) := by
        apply Accord.Runs.attempt
        refine (look_serves (o := .readdir []) trivial hguarded (R := fun r => ∃ entries', r = .ok entries' ∧
          entries'.filter (fun entry => !isPrivate entry.1) = entries.filter fun entry => !isPrivate entry.1)
          fun s hs => ?_).conseq (fun _ _ hs => hs) fun r s _ hr => ⟨hr.1, fun hlooking => ?_, fun entries' hok => ?_⟩
        · obtain ⟨found, found', hfound, hfound', hfilter⟩ := readdir_root hs.2.elsewhere
          rw [hentries] at hfound
          obtain rfl := Except.ok.inj hfound
          exact ⟨found', hfound', hfilter⟩
        · obtain ⟨entries', hok, -⟩ := hr.2.1 hlooking
          exact ⟨entries', hok⟩
        · obtain ⟨entries'', hok', hfilter⟩ := hr.2.2 entries' hok
          obtain rfl := Except.ok.inj hok'
          exact hfilter
      rw [hvisit]
      apply Accord.Runs.bind_returns hlist
      intro r
      apply Accord.Runs.assume
      rintro ⟨hlooks, hfilter⟩
      cases r with
      | error e =>
        have hnot : ¬Looking fails := fun hlooking => by
          obtain ⟨entries', hok⟩ := hlooks hlooking
          cases hok
        show serving.Runs _ _ _ (if e.isMissing then _ else _) _
        split
        · exact .pure fun s hs _ => ⟨hs, fun _ _ hlooking => (hnot hlooking).elim⟩
        · exact .done fun s hs _ => ⟨hs, ifOk_error⟩
      | ok entries' =>
        have hsame : List.filter (fun entry => !isPrivate entry.1) entries' =
            entries.filter fun entry => !isPrivate entry.1 := hfilter entries' rfl
        have hlisted : visitListed depth "" (.ok entries') =
            visitEntries depth "" (entries.filter fun entry => !isPrivate entry.1) :=
          (visitEntries_filter depth "" entries').trans (congrArg (visitEntries depth "") hsame)
        have hrun := hfound hreads hobserve.symm
        rw [← hlisted, hvisit] at hrun
        exact hrun
  · exact hfound (reads_visit depth hinside) rfl

theorem inside_of_database {path : String} (h : isDatabasePath path = true) : Inside path := by
  obtain ⟨first, hhead, hne, hfirst⟩ := head_placeOf h
  obtain ⟨rest, hplace⟩ := List.head?_eq_some_iff.1 hhead
  unfold Inside
  rw [joined, hplace, List.filter_cons_of_pos (by simpa using hne)]
  refine ⟨by simp, fun heq => ?_⟩
  obtain rfl : first = ".journal" := Option.some.inj heq
  revert hfirst
  decide

theorem snapshot_serves (hpaths : OfPaths locks) (hφ : Guarded locks φ) (pre : String) :
    serving.Runs ((sem fails kills).through moment) t (Knows t locks false φ) (snapshot host t pre)
      fun r s => Knows t locks false φ s ∧ IfOk (fun a => ∃ m, Seen moment t φ m ∧ (Looking fails →
        revisionOf m.disk = .ok a.1 ∧ ∃ depth, observe unstruck m.disk (visit depth pre) = .ok a.2)) r := by
  have hread : (pre = "" ∨ Inside pre) → serving.Runs ((sem fails kills).through moment) t (Knows t locks false φ)
      (published host t do
        let s ← Prog.get (S := lang)
        let files ← visit (s.disk.entries.length + 2) pre
        let revision ← revisionUnlocked
        pure (revision, files))
      fun r s => Knows t locks false φ s ∧ IfOk (fun a => ∃ m, Seen moment t φ m ∧ (Looking fails →
        revisionOf m.disk = .ok a.1 ∧ ∃ depth, observe unstruck m.disk (visit depth pre) = .ok a.2)) r := by
    intro hpre
    refine published_serves hpaths hφ fun m hseen => ?_
    refine .get_bind fun s₀ => ?_
    refine .bind ((visit_serves hseen hφ _ hpre).conseq (fun _ _ hs => hs.1) fun _ _ _ hs => hs) (fun files => ?_)
      fun e s _ hs => ⟨⟨hs.1.1, hs.1.2.1⟩, ifOk_error⟩
    apply Accord.Runs.assume
    intro hfiles
    refine .bind (revisionUnlocked_serves hφ) (fun n => ?_) fun e s _ hs => ⟨⟨hs.1.1, hs.1.2.1⟩, ifOk_error⟩
    refine .pure fun s hs _ => ⟨⟨hs.1.1, hs.1.2.1⟩, ifOk_ok.2 fun hlooking => ?_⟩
    exact ⟨ifOk_ok.1 hs.2 hlooking, _, ifOk_ok.1 hfiles hlooking⟩
  unfold snapshot
  by_cases hpre : pre = ""
  · rw [if_pos hpre]
    exact hread (.inl hpre)
  · rw [if_neg hpre, databasePath]
    split
    · rename_i hdatabase
      exact hread (.inr (inside_of_database hdatabase))
    · exact .done fun s hs _ => ⟨hs, ifOk_error⟩

end ConfigRegistry.Engine
