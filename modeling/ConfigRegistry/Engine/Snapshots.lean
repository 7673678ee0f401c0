import ConfigRegistry.Engine.Serving

/-!
# Snapshots are whole

A walk through the database that comes to an end has found every file of it, and nothing else.
-/

namespace ConfigRegistry.Engine

open Js Async Fs Store

variable {d : Disk} {depth : Nat} {path : String} {files : List (String × String)} {α β : Type}

theorem observe_readOptional_bind (place : Place) (g : Option String → Prog lang β) :
    observe unstruck d (readOptional place >>= g) =
      match d.readFile place with
      | .ok text => observe unstruck d (g (some text))
      | .error e => if e.isMissing then observe unstruck d (g none) else .error e := by
  show observe unstruck d ((match answer unstruck d (.readFile place) with
    | .ok text => (pure (some text) : Prog lang (Option String))
    | .error e => if e.isMissing then pure none else Prog.fail e) >>= g) = _
  have hanswer : answer unstruck d (.readFile place) = d.readFile place := rfl
  rw [hanswer]
  cases d.readFile place with
  | ok text => rfl
  | error e =>
    dsimp only
    split <;> rfl

/-- A loop that collects results has found each of them. -/
theorem observe_collect {body : α → Prog lang β} {xs : List α} {bs : List β} (hbody : ∀ a ∈ xs, Reads (body a))
    (h : observe unstruck d (Prog.collect xs body) = .ok bs) :
    List.Forall₂ (fun a b => observe unstruck d (body a) = .ok b) xs bs := by
  induction xs generalizing bs with
  | nil =>
    obtain rfl := Except.ok.inj h
    exact .nil
  | cons a xs ih =>
    rw [List.forall_mem_cons] at hbody
    rw [Prog.collect, observe_bind _ _ _ hbody.1] at h
    cases hfirst : observe unstruck d (body a) with
    | error e =>
      rw [hfirst] at h
      cases h
    | ok b =>
      rw [hfirst] at h
      replace h : observe unstruck d (Prog.collect xs body >>= fun bs => (pure (b :: bs) : Prog lang (List β))) =
          .ok bs := h
      rw [observe_bind _ _ _ (.collect hbody.2)] at h
      cases hrest : observe unstruck d (Prog.collect xs body) with
      | error e =>
        rw [hrest] at h
        cases h
      | ok rest =>
        rw [hrest] at h
        obtain rfl : b :: rest = bs := Except.ok.inj h
        exact .cons hfirst (ih hbody.2 hrest)

/-- Where a walk may go: the root of a disk that is as it should be, or what is inside. -/
def Walked (d : Disk) (path : String) : Prop := path = "" ∧ Inward d ∨ Inside path

theorem Walked.inside (h : Walked d path) {entries : List (String × Kind)}
    (hentries : d.readdir (joined path) = .ok entries) :
    ∀ entry ∈ entries, isPrivate entry.1 = false → Inside (Fs.child path entry.1) := by
  rcases h with ⟨rfl, hinward⟩ | hinside
  · have hroot : joined "" = [] := by decide
    rw [hroot] at hentries
    exact inside_of_listed hinward hentries
  · exact fun entry _ _ => hinside.child entry.1

/-- What a walk has found in a directory. -/
inductive Found (d : Disk) (depth : Nat) (path : String) : List (String × String) → Prop where
  | absent {e : Error} : d.readdir (joined path) = .error e → Found d depth path []
  | listed {entries : List (String × Kind)} {founds : List (List (String × String))} :
      d.readdir (joined path) = .ok entries →
      List.Forall₂ (fun entry found => observe unstruck d (visitEntry depth path entry) = .ok found) entries founds →
      Found d depth path founds.flatten

theorem found_of_observe (hwalked : Walked d path) (h : observe unstruck d (visit (depth + 1) path) = .ok files) :
    Found d depth path files := by
  rw [visit_succ, observe_bind _ _ _ (reads_checkDirectory path)] at h
  cases hcheck : observe unstruck d (checkDirectory path) with
  | error e =>
    rw [hcheck] at h
    cases h
  | ok u =>
    rw [hcheck] at h
    replace h : observe unstruck d (visitListed depth path (d.readdir (joined path))) = .ok files := h
    cases hentries : d.readdir (joined path) with
    | error e =>
      rw [hentries] at h
      change observe unstruck d (if e.isMissing then _ else _) = _ at h
      split at h
      · obtain rfl : [] = files := Except.ok.inj h
        exact .absent hentries
      · cases h
    | ok entries =>
      rw [hentries] at h
      have hbodies : ∀ entry ∈ entries, Reads (visitEntry depth path entry) := fun entry hentry =>
        reads_visitEntry (hwalked.inside hentries entry hentry) fun _ hpath => reads_visit depth hpath
      replace h : observe unstruck d (Prog.collect entries (visitEntry depth path) >>= fun found =>
          (pure found.flatten : Prog lang (List (String × String)))) = .ok files := h
      rw [observe_bind _ _ _ (.collect hbodies)] at h
      cases hfounds : observe unstruck d (Prog.collect entries (visitEntry depth path)) with
      | error e =>
        rw [hfounds] at h
        cases h
      | ok founds =>
        rw [hfounds] at h
        obtain rfl : founds.flatten = files := Except.ok.inj h
        exact .listed hentries (observe_collect hbodies hfounds)

/-- What is found of an entry: nothing, what is found below it, or its text. -/
theorem visitEntry_cases {name : String} {kind : Kind} {found : List (String × String)}
    (h : observe unstruck d (visitEntry depth path (name, kind)) = .ok found) :
    isPrivate name = true ∧ found = [] ∨
    kind = .dir ∧ observe unstruck d (visit depth (Fs.child path name)) = .ok found ∨
    kind = .file ∧ (found = [] ∧ (∃ e, d.readFile (joined (Fs.child path name)) = .error e) ∨
      ∃ text, d.readFile (joined (Fs.child path name)) = .ok text ∧ found = [(Fs.child path name, text)]) := by
  unfold visitEntry at h
  split at h
  · rename_i hprivate
    exact .inl ⟨hprivate, (Except.ok.inj h).symm⟩
  · cases kind with
    | link => cases h
    | dir => exact .inr (.inl ⟨rfl, h⟩)
    | file =>
      refine .inr (.inr ⟨rfl, ?_⟩)
      have hread := (observe_readOptional_bind (d := d) (joined (Fs.child path name)) _).symm.trans h
      cases htext : d.readFile (joined (Fs.child path name)) with
      | ok text =>
        rw [htext] at hread
        exact .inr ⟨text, rfl, (Except.ok.inj hread).symm⟩
      | error e =>
        rw [htext] at hread
        change (if e.isMissing then Except.ok [] else Except.error e) = Except.ok found at hread
        split at hread
        · exact .inl ⟨(Except.ok.inj hread).symm, e, rfl⟩
        · cases hread

/-- What is found are files, with their texts. -/
theorem text_of_found (hwalked : Walked d path) (h : observe unstruck d (visit depth path) = .ok files)
    {found : String × String} (hfound : found ∈ files) : d.readFile (joined found.1) = .ok found.2 := by
  induction depth generalizing path files with
  | zero => cases h
  | succ depth ih =>
    cases found_of_observe hwalked h with
    | absent => cases hfound
    | @listed entries founds hentries hall =>
      obtain ⟨part, hpart, hmem⟩ := List.mem_flatten.1 hfound
      obtain ⟨⟨name, kind⟩, hentry, hone⟩ := mem_right_of_forall₂ hall hpart
      have hinside := hwalked.inside hentries _ hentry
      rcases visitEntry_cases hone with ⟨-, rfl⟩ | ⟨rfl, hbelow⟩ | ⟨rfl, ⟨rfl, -⟩ | ⟨text, htext, rfl⟩⟩
      · cases hmem
      · by_cases hprivate : isPrivate name = true
        · rw [visitEntry_private hprivate] at hone
          obtain rfl : [] = part := Except.ok.inj hone
          cases hmem
        · exact ih (.inr (hinside (Bool.eq_false_iff.2 hprivate))) hbelow hmem
      · cases hmem
      · rw [List.mem_singleton.1 hmem]
        exact htext

theorem private_of_hidden {name : String} (h : isHidden name = false) : isPrivate name = false := by
  by_contra hprivate
  rw [Bool.not_eq_false, isPrivate, Bool.or_eq_true, Bool.or_eq_true, beq_iff_eq, beq_iff_eq, beq_iff_eq] at hprivate
  rcases hprivate with (rfl | rfl) | rfl
  · revert h
    decide
  · revert h
    decide
  · revert h
    decide

/-- The names on the way to a file of the database. -/
structure Plain (segments : List String) : Prop where
  proper : ∀ name ∈ segments, ProperName name
  shown : ∀ name ∈ segments, isHidden name = false

theorem mem_names {place : Place} {name : String} {entry : Entry} (h : d.at_ (place ++ [name]) = some entry) :
    name ∈ d.names place := by
  rw [Disk.at_of_ne (by simp)] at h
  have hmem := List.lookup_eq_some_iff.1 h
  obtain ⟨before, after, hsplit, -⟩ := hmem
  rw [Disk.names, List.mem_eraseDups, List.mem_filterMap]
  refine ⟨(place ++ [name], entry), by rw [hsplit]; simp, ?_⟩
  simp

/-- Every file below a directory is found. -/
theorem found_of_text (hrooted : Rooted d) (hinward : Inward d) {pre rest : List String} (hplain : Plain (pre ++ rest))
    (hrest : rest ≠ []) {text : String} (hfile : d.at_ (pre ++ rest) = some (.file text))
    (h : observe unstruck d (visit depth (pathText pre)) = .ok files) : (pathText (pre ++ rest), text) ∈ files := by
  have hshown : ¬Hidden (pre ++ rest) := by
    rintro ⟨name, hhead, hname⟩
    have hmem : name ∈ pre ++ rest := List.mem_of_mem_head? hhead
    rw [hplain.shown name hmem] at hname
    cases hname
  obtain ⟨-, hdirs⟩ := hrooted _ _ hshown hfile
  induction depth generalizing pre rest files with
  | zero => cases h
  | succ depth ih =>
    have hpre : ∀ name ∈ pre, ProperName name := fun name hname => hplain.proper name (List.mem_append_left _ hname)
    have hjoined : joined (pathText pre) = pre := joined_pathText hpre
    have hleads : d.Leads pre := by
      refine ⟨hpre, fun p hp => hdirs p (hp.trans (List.prefix_append _ _)) fun heq => ?_⟩
      have hlength := hp.length_le
      rw [heq, List.length_append] at hlength
      exact hrest (List.length_eq_zero_iff.1 (by omega))
    have hwalked : Walked d (pathText pre) := by
      cases pre with
      | nil => exact .inl ⟨rfl, hinward⟩
      | cons first pre =>
        refine .inr ?_
        unfold Inside
        rw [hjoined]
        refine ⟨by simp, fun heq => ?_⟩
        obtain rfl : first = ".journal" := Option.some.inj heq
        have hdot := hplain.shown ".journal" (by simp)
        revert hdot
        decide
    cases rest with
    | nil => exact (hrest rfl).elim
    | cons name rest =>
      have hname := hplain.proper name (by simp)
      have hprivate := private_of_hidden (hplain.shown name (by simp))
      have hchild : Fs.child (pathText pre) name = pathText (pre ++ [name]) := child_pathText hpre name
      have hsame : pre ++ name :: rest = (pre ++ [name]) ++ rest := by simp
      obtain ⟨entry, hentry⟩ : ∃ entry, d.at_ (pre ++ [name]) = some entry := by
        by_cases hlast : rest = []
        · subst hlast
          exact ⟨_, hfile⟩
        · refine ⟨.dir, hdirs _ (by rw [hsame]; exact List.prefix_append _ _) fun heq => ?_⟩
          rw [hsame] at heq
          exact hlast (by simpa using heq)
      have hlisting : ∃ entries, d.readdir pre = .ok entries ∧ (name, entry.kind) ∈ entries := by
        refine ⟨_, by rw [Disk.readdir, hleads.lstat], ?_⟩
        rw [base_of_proper hpre, List.mem_filterMap]
        exact ⟨name, mem_names hentry, by rw [hentry]; rfl⟩
      obtain ⟨entries, hentries, hmem⟩ := hlisting
      cases found_of_observe hwalked h with
      | absent hmissing =>
        rw [hjoined, hentries] at hmissing
        cases hmissing
      | @listed entries' founds hentries' hall =>
        rw [hjoined, hentries] at hentries'
        obtain rfl := Except.ok.inj hentries'
        obtain ⟨part, hpart, hone⟩ := mem_right_of_forall₂ hall.flip hmem
        rw [List.mem_flatten]
        refine ⟨part, hpart, ?_⟩
        by_cases hlast : rest = []
        · subst hlast
          obtain rfl : entry = .file text := by
            rw [hfile] at hentry
            exact (Option.some.inj hentry).symm
          have hsegments : ∀ n ∈ pre ++ [name], ProperName n := hplain.proper
          have hread : d.readFile (joined (Fs.child (pathText pre) name)) = .ok text := by
            rw [hchild, joined_pathText hsegments, Disk.readFile, hleads.lstat_name hname.nonempty, hfile]
            rfl
          rcases visitEntry_cases hone with ⟨hyes, -⟩ | ⟨hdir, -⟩ | ⟨-, ⟨-, e, hmissing⟩ | ⟨text', htext, rfl⟩⟩
          · rw [hprivate] at hyes
            cases hyes
          · cases hdir
          · rw [hread] at hmissing
            cases hmissing
          · rw [hread] at htext
            rw [← Except.ok.inj htext, hchild, List.mem_singleton]
        · obtain rfl : entry = .dir := by
            have hdir := hdirs (pre ++ [name]) (by rw [hsame]; exact List.prefix_append _ _) fun heq => by
              rw [hsame] at heq
              exact hlast (by simpa using heq)
            rw [hentry] at hdir
            exact Option.some.inj hdir
          rcases visitEntry_cases hone with ⟨hyes, -⟩ | ⟨-, hbelow⟩ | ⟨hkind, -⟩
          · rw [hprivate] at hyes
            cases hyes
          · rw [hchild] at hbelow
            rw [hsame] at hplain hfile hshown hdirs ⊢
            exact ih hplain hlast hfile hbelow hshown hdirs
          · cases hkind

/-- What a snapshot of the whole database is. -/
theorem mem_snapshot_iff (hrooted : Rooted d) (hinward : Inward d) (h : observe unstruck d (visit depth "") = .ok files)
    {segments : List String} (hplain : Plain segments) (hne : segments ≠ []) {text : String} :
    (pathText segments, text) ∈ files ↔ d.at_ segments = some (.file text) := by
  constructor
  · intro hmem
    have hread := text_of_found (.inl ⟨rfl, hinward⟩) h hmem
    rw [joined_pathText hplain.proper] at hread
    have hlstat : d.lstat segments = .ok (.file text) := by
      rw [Disk.readFile] at hread
      split at hread
      · rename_i heq
        rw [heq, Except.ok.inj hread]
      · cases hread
      · cases hread
      · cases hread
    apply at_of_lstat hlstat
    intro hlast
    exact (hplain.proper "" (List.mem_of_getLast? hlast)).nonempty rfl
  · intro hfile
    have hwhole : Plain ([] ++ segments) := hplain
    exact found_of_text hrooted hinward hwhole hne hfile h

end ConfigRegistry.Engine
