import ConfigRegistry.Engine.Locks
import ConfigRegistry.Engine.Looking

/-!
# What the locks guard

The publication lock guards what the database holds, the lock of a path the file there. An operation that is
confined to some paths leaves the files of all others, whether it succeeds, fails or is cut short.
-/

namespace ConfigRegistry.Engine

open Js Async Fs Store

/-- No path of the database leads there. -/
def Hidden (place : Place) : Prop := ∃ name, place.head? = some name ∧ isHidden name = true

/-- The text of the file that a path of the database names. -/
def textAt (d : Disk) (path : String) : Option String :=
  if isDatabasePath path then
    match d.at_ (placeOf path) with
    | some (.file text) => some text
    | _ => none
  else none

/-- Every file of the database is in directories. -/
def Rooted (d : Disk) : Prop :=
  ∀ place text, ¬Hidden place → d.at_ place = some (.file text) →
    (∀ name ∈ place, name ≠ "") ∧ ∀ p, p <+: place → p ≠ place → d.at_ p = some .dir

/-- The path leads into the database, if anywhere. -/
def Inside (path : String) : Prop := joined path ≠ [] ∧ (joined path).head? ≠ some ".journal"

/-- What a snapshot looks at in the root leads into the database. -/
def Inward (d : Disk) : Prop := ∀ name, d.at_ [name] ≠ none → isPrivate name = false → Inside name

/-- A place of the journal, or one for the revision. -/
def Reserved (place : Place) : Prop := place.head? = some ".journal" ∨ ∃ rest, place = [".revision" ++ rest]

variable {d d' : Disk} {place : Place} {path : String} {mine : String → Prop}

theorem hidden_of_head {name : String} (h : place.head? = some name) (hname : isHidden name = true) : Hidden place :=
  ⟨name, h, hname⟩

theorem hidden_journal (h : place.head? = some ".journal") : Hidden place := hidden_of_head h (by decide)

theorem Reserved.hidden (h : Reserved place) : Hidden place := by
  rcases h with h | ⟨rest, rfl⟩
  · exact hidden_journal h
  · refine ⟨_, rfl, ?_⟩
    simp [isHidden]

theorem not_hidden_placeOf (h : isDatabasePath path = true) : ¬Hidden (placeOf path) := by
  rintro ⟨name, hhead, hname⟩
  obtain ⟨name', hhead', -, hname'⟩ := head_placeOf h
  rw [hhead'] at hhead
  obtain rfl := Option.some.inj hhead
  rw [hname'] at hname
  cases hname

/-- The way to what is not hidden is not. -/
theorem not_hidden_of_way {p : Place} (h : ¬Hidden place) (hp : p <+: place) : ¬Hidden p := by
  rintro ⟨name, hhead, hname⟩
  obtain ⟨rest, rfl⟩ := hp
  cases p with
  | nil => cases hhead
  | cons x p => exact h ⟨name, hhead, hname⟩

theorem placeOf_injective {path' : String} (h : placeOf path = placeOf path') : path = path' := by
  have hparts : path.toList.splitOn '/' = path'.toList.splitOn '/' :=
    List.map_injective_iff.2 (fun a b hab => by simpa using congrArg String.toList hab) h
  have hjoin : List.intercalate ['/'] (path.toList.splitOn '/') = List.intercalate ['/'] (path'.toList.splitOn '/') := by
    rw [hparts]
  rw [List.intercalate_splitOn, List.intercalate_splitOn] at hjoin
  exact String.toList_inj.1 hjoin

/-- The names of a path but for the last are not empty. -/
theorem names_placeOf (h : isDatabasePath path = true) : ∀ name ∈ (placeOf path).dropLast, name ≠ "" := by
  rw [isDatabasePath, Bool.and_eq_true, Bool.and_eq_true] at h
  obtain ⟨⟨-, hfull⟩, -⟩ := h
  rw [List.all_eq_true] at hfull
  intro name hname
  rw [placeOf, ← List.map_dropLast] at hname
  obtain ⟨part, hpart, rfl⟩ := List.mem_map.1 hname
  have hne := hfull part hpart
  rintro hempty
  have : part = [] := by simpa using congrArg String.toList hempty
  rw [this] at hne
  cases hne

theorem slash_not_mem {name : String} (h : name ∈ placeOf path) : '/' ∉ name.toList := by
  obtain ⟨part, hpart, rfl⟩ := List.mem_map.1 h
  rw [String.toList_ofList]
  exact not_mem_of_splitOn hpart

/-- The names on the way to a path of the database lead into it. -/
theorem inside_of_way {name : String} (h : isDatabasePath path = true) (hname : [name] <+: placeOf path) :
    Inside name := by
  obtain ⟨rest, hrest⟩ := hname
  obtain ⟨first, hhead, hne, hfirst⟩ := head_placeOf h
  rw [← hrest] at hhead
  obtain rfl : name = first := Option.some.inj hhead
  have hslash : '/' ∉ name.toList := slash_not_mem (by rw [← hrest]; simp)
  have hplace : placeOf name = [name] := by
    rw [placeOf, List.splitOn_eq_singleton hslash]
    simp
  have hjoined : joined name = [name] := by
    rw [joined, hplace, List.filter_cons_of_pos (by simpa using hne), List.filter_nil]
  unfold Inside
  rw [hjoined]
  refine ⟨by simp, fun heq => ?_⟩
  obtain rfl := Option.some.inj heq
  revert hfirst
  decide

/-- So do the names for the revision. -/
theorem inside_revision (rest : String) : Inside (".revision" ++ rest) := by
  have hlist : (".revision" ++ rest).toList = ".revision".toList ++ rest.toList := String.toList_append
  cases hsplit : rest.toList.splitOn '/' with
  | nil => exact (List.splitOn_ne_nil _ _ hsplit).elim
  | cons first others =>
    have hparts : (".revision" ++ rest).toList.splitOn '/' = (".revision".toList ++ first) :: others := by
      have hplain : ∀ front : List Char, '/' ∉ front →
          (front ++ rest.toList).splitOn '/' = (front ++ first) :: others := by
        intro front hfront
        induction front with
        | nil => exact hsplit
        | cons c front ih =>
          rw [List.mem_cons, not_or] at hfront
          rw [List.cons_append, List.splitOn_cons_eq_if_modifyHead, if_neg (by simpa using Ne.symm hfront.1),
            ih hfront.2]
          rfl
      rw [hlist]
      exact hplain _ (by decide)
    have hplace : placeOf (".revision" ++ rest) = (".revision" ++ String.ofList first) :: others.map String.ofList := by
      rw [placeOf, hparts, List.map_cons]
      congr 1
      apply String.toList_inj.1
      simp
    have hne : (".revision" ++ String.ofList first != "") = true := by
      rw [bne_iff_ne]
      intro hempty
      have := congrArg String.toList hempty
      simp at this
    unfold Inside
    rw [joined, hplace, List.filter_cons_of_pos (p := (· != "")) hne]
    refine ⟨by simp, fun heq => ?_⟩
    have hname := congrArg String.toList (Option.some.inj heq)
    simp at hname

/-! ### What one gets to -/

theorem dirs_of_follow {dir rest : Place} {entry : Entry} (h : d.follow dir rest = .ok entry) {p : Place}
    (hp : p <+: rest) (hne : p ≠ []) (hrest : p ≠ rest) : d.at_ (dir ++ p) = some .dir := by
  induction rest generalizing dir p with
  | nil => exact (hrest (List.prefix_nil.1 hp)).elim
  | cons name rest ih =>
    cases p with
    | nil => exact (hne rfl).elim
    | cons x p =>
      obtain ⟨rfl, hway⟩ := List.cons_prefix_cons.1 hp
      have hp' : p ≠ rest := fun heq => hrest (by rw [heq])
      have hrestne : rest ≠ [] := by
        rintro rfl
        exact hp' (List.prefix_nil.1 hway)
      have hslash : ¬(x = "" ∧ rest = []) := fun hs => hrestne hs.2
      rw [Disk.follow, if_neg hslash] at h
      cases hat : d.at_ (dir ++ [x]) with
      | none =>
        rw [hat] at h
        cases h
      | some found =>
        rw [hat] at h
        simp only [if_neg hrestne] at h
        cases found with
        | file text => cases h
        | link => cases h
        | dir =>
          cases p with
          | nil => exact hat
          | cons y p =>
            have hbelow := ih h hway (by simp) hp'
            rwa [List.append_assoc] at hbelow

/-- A place that one gets to is there, and what is on the way are directories. -/
theorem dirs_of_lstat {entry : Entry} (h : d.lstat place = .ok entry) {p : Place} (hp : p <+: place)
    (hrest : p ≠ place) : d.at_ p = some .dir := by
  by_cases hne : p = []
  · subst hne
    rfl
  · exact dirs_of_follow h hp hne hrest

theorem at_of_follow {dir rest : Place} {entry : Entry} (h : d.follow dir rest = .ok entry) (hne : rest ≠ [])
    (hnames : rest.getLast? ≠ some "") : d.at_ (dir ++ rest) = some entry := by
  induction rest generalizing dir with
  | nil => exact (hne rfl).elim
  | cons name rest ih =>
    have hslash : ¬(name = "" ∧ rest = []) := by
      rintro ⟨rfl, rfl⟩
      exact hnames rfl
    rw [Disk.follow, if_neg hslash] at h
    cases hat : d.at_ (dir ++ [name]) with
    | none =>
      rw [hat] at h
      cases h
    | some found =>
      rw [hat] at h
      cases rest with
      | nil =>
        simp only [if_true] at h
        rw [hat, Except.ok.inj h]
      | cons next rest =>
        simp only [List.cons_ne_nil, if_false] at h
        cases found with
        | file text => cases h
        | link => cases h
        | dir =>
          have hbelow := ih h (by simp) (by simpa using hnames)
          rwa [List.append_assoc] at hbelow

/-- What a slash at the end leads to is a directory. -/
theorem dir_of_slash {dir rest : Place} {entry : Entry} (h : d.follow dir rest = .ok entry)
    (hlast : rest.getLast? = some "") : entry = .dir := by
  induction rest generalizing dir with
  | nil => cases hlast
  | cons name rest ih =>
    rw [Disk.follow] at h
    split at h
    · exact (Except.ok.inj h).symm
    · rename_i hslash
      have hrest : rest ≠ [] := by
        rintro rfl
        exact hslash ⟨Option.some.inj hlast, rfl⟩
      split at h
      · cases h
      · simp only [if_neg hrest] at h
        split at h
        · refine ih h ?_
          cases rest with
          | nil => exact (hrest rfl).elim
          | cons next rest => simpa using hlast
        · cases h

theorem at_of_lstat {entry : Entry} (h : d.lstat place = .ok entry) (hlast : place.getLast? ≠ some "") :
    d.at_ place = some entry := by
  by_cases hne : place = []
  · subst hne
    cases h
    rfl
  · exact at_of_follow h hne hlast

theorem follow_of_dirs {dir rest : Place} (hnames : ∀ name ∈ rest, name ≠ "")
    (hdirs : ∀ p, p ≠ [] → p <+: rest → p ≠ rest → d.at_ (dir ++ p) = some .dir) (hne : rest ≠ []) :
    d.follow dir rest = (d.at_ (dir ++ rest)).elim (.error enoent) .ok := by
  induction rest generalizing dir with
  | nil => exact (hne rfl).elim
  | cons name rest ih =>
    rw [List.forall_mem_cons] at hnames
    rw [Disk.follow, if_neg fun hs : name = "" ∧ rest = [] => hnames.1 hs.1]
    cases rest with
    | nil => cases d.at_ (dir ++ [name]) <;> rfl
    | cons next rest =>
      have hhere := hdirs [name] (by simp) (by simp) (by simp)
      rw [hhere]
      simp only [List.cons_ne_nil, if_false]
      have hbelow : ∀ p, p ≠ [] → p <+: next :: rest → p ≠ next :: rest → d.at_ (dir ++ [name] ++ p) = some .dir := by
        intro p _ hp hrest
        rw [List.append_assoc]
        exact hdirs (name :: p) (by simp) (by simpa using hp) (by simpa using hrest)
      rw [ih hnames.2 hbelow (by simp), List.append_assoc]
      rfl

/-! ### What stays -/

theorem Rooted.congr (h : Rooted d) (hsame : d'.elsewhere ".journal" = d.elsewhere ".journal") : Rooted d' := by
  have hat : ∀ p, ¬Hidden p → d'.at_ p = d.at_ p := by
    intro p hp
    exact Disk.at_congr hsame fun hhead => hp (hidden_journal hhead)
  intro place text hplace hfile
  rw [hat place hplace] at hfile
  obtain ⟨hnames, hdirs⟩ := h place text hplace hfile
  refine ⟨hnames, fun p hp hne => ?_⟩
  rw [hat p (not_hidden_of_way hplace hp)]
  exact hdirs p hp hne

theorem Inward.congr (h : Inward d) (hsame : d'.elsewhere ".journal" = d.elsewhere ".journal") : Inward d' := by
  intro name hname hprivate
  apply h name _ hprivate
  rwa [← Disk.at_congr hsame]
  intro hhead
  obtain rfl : name = ".journal" := Option.some.inj hhead
  revert hprivate
  decide

theorem textAt_congr (hsame : d'.elsewhere ".journal" = d.elsewhere ".journal") : textAt d' path = textAt d path := by
  unfold textAt
  split
  · rename_i hpath
    rw [Disk.at_congr hsame (public_placeOf hpath)]
  · rfl

/-- The place of a path that is one's own. -/
def Named (mine : String → Prop) (place : Place) : Prop :=
  ∃ path, mine path ∧ isDatabasePath path = true ∧ place = placeOf path

/-- The files of other paths are left, and what was in directories is. -/
structure Confined (mine : String → Prop) (d d' : Disk) : Prop where
  rooted : Rooted d → Rooted d'
  inward : Inward d → Inward d'
  others : ∀ path, ¬mine path → textAt d' path = textAt d path

theorem Confined.refl (mine : String → Prop) (d : Disk) : Confined mine d d := ⟨id, id, fun _ _ => rfl⟩

theorem Confined.trans {d'' : Disk} (h : Confined mine d d') (h' : Confined mine d' d'') : Confined mine d d'' :=
  ⟨fun hd => h'.rooted (h.rooted hd), fun hd => h'.inward (h.inward hd), fun path hpath => (h'.others path hpath).trans (h.others path hpath)⟩

theorem textAt_of_at (h : isDatabasePath path = true → d'.at_ (placeOf path) = d.at_ (placeOf path)) :
    textAt d' path = textAt d path := by
  unfold textAt
  split
  · rename_i hpath
    rw [h hpath]
  · rfl

theorem confined_mkdirs {places : List Place} (hroot : [] ∉ places) (habsent : ∀ p ∈ places, d.at_ p = none)
    (hinside : ∀ name, [name] ∈ places → isPrivate name = false → Inside name) :
    Confined mine d (d.mkdirs places) := by
  refine ⟨?_, ?_, ?_⟩
  · intro h place text hplace hfile
    rw [Disk.at_mkdirs hroot] at hfile
    split at hfile
    · cases hfile
    · obtain ⟨hnames, hdirs⟩ := h place text hplace hfile
      refine ⟨hnames, fun p hp hne => ?_⟩
      rw [Disk.at_mkdirs hroot, hdirs p hp hne, ite_self]
  · intro h name hname hprivate
    rw [Disk.at_mkdirs hroot] at hname
    split at hname
    · rename_i hmem
      exact hinside name hmem hprivate
    · exact h name hname hprivate
  · intro path _
    unfold textAt
    split
    · rw [Disk.at_mkdirs hroot]
      by_cases hmem : placeOf path ∈ places
      · rw [if_pos hmem, habsent _ hmem]
      · rw [if_neg hmem]
    · rfl

theorem confined_keep {kept : Place → Bool}
    (h : ∀ p, kept p = false → Hidden p ∨ d.at_ p ≠ some .dir ∧ Named mine p) : Confined mine d (d.keep kept) := by
  have hat : ∀ p, p ≠ [] → kept p = true → (d.keep kept).at_ p = d.at_ p := by
    intro p hne hkept
    rw [Disk.at_keep hne, if_pos hkept]
  refine ⟨?_, ?_, ?_⟩
  · intro hrooted place text hplace hfile
    have hne : place ≠ [] := by
      rintro rfl
      cases hfile
    rw [Disk.at_keep hne] at hfile
    split at hfile
    · obtain ⟨hnames, hdirs⟩ := hrooted place text hplace hfile
      refine ⟨hnames, fun p hp hrest => ?_⟩
      have hdir := hdirs p hp hrest
      by_cases hroot : p = []
      · subst hroot
        rfl
      · rw [hat p hroot, hdir]
        by_contra hkept
        rcases h p (Bool.eq_false_iff.2 hkept) with hhidden | ⟨hnot, -⟩
        · exact not_hidden_of_way hplace hp hhidden
        · exact hnot hdir
    · cases hfile
  · intro hinward name hname hprivate
    rw [Disk.at_keep (by simp)] at hname
    split at hname
    · exact hinward name hname hprivate
    · exact (hname rfl).elim
  · intro path hpath
    apply textAt_of_at
    intro hdatabase
    have hne : placeOf path ≠ [] := by
      intro hnil
      obtain ⟨name, hhead, -, -⟩ := head_placeOf hdatabase
      rw [hnil] at hhead
      cases hhead
    apply hat _ hne
    by_contra hkept
    rcases h _ (Bool.eq_false_iff.2 hkept) with hhidden | ⟨-, path', hmine, -, heq⟩
    · exact not_hidden_placeOf hdatabase hhidden
    · exact hpath (placeOf_injective heq ▸ hmine)

theorem confined_put_reserved {entry : Entry} (hreserved : Reserved place) : Confined mine d (d.put place entry) := by
  have h := hreserved.hidden
  have hne : place ≠ [] := by
    rintro rfl
    obtain ⟨name, hhead, -⟩ := h
    cases hhead
  have hat : ∀ p, ¬Hidden p → (d.put place entry).at_ p = d.at_ p := by
    intro p hp
    rw [Disk.at_put hne, if_neg]
    rintro rfl
    exact hp h
  refine ⟨?_, ?_, ?_⟩
  · intro hrooted q text hq hfile
    rw [hat q hq] at hfile
    obtain ⟨hnames, hdirs⟩ := hrooted q text hq hfile
    refine ⟨hnames, fun p hp hrest => ?_⟩
    rw [hat p (not_hidden_of_way hq hp)]
    exact hdirs p hp hrest
  · intro hinward name hname hprivate
    rw [Disk.at_put hne] at hname
    split at hname
    · rename_i heq
      subst heq
      rcases hreserved with hhead | ⟨rest, hrest⟩
      · obtain rfl : name = ".journal" := Option.some.inj hhead
        have hjournal : isPrivate ".journal" = true := by decide
        rw [hjournal] at hprivate
        cases hprivate
      · obtain rfl : name = ".revision" ++ rest := by simpa using hrest
        exact inside_revision rest
    · exact hinward name hname hprivate
  · exact fun path _ => textAt_of_at fun hpath => hat _ (not_hidden_placeOf hpath)

theorem confined_put_named {entry : Entry} (h : Named mine place) (hnames : ∀ name ∈ place, name ≠ "")
    (hover : d.at_ place ≠ some .dir) (hdirs : ∀ p, p <+: place → p ≠ place → d.at_ p = some .dir) :
    Confined mine d (d.put place entry) := by
  obtain ⟨path, hmine, hpath, rfl⟩ := h
  have hne : placeOf path ≠ [] := by
    intro hnil
    rw [hnil] at hover
    exact hover rfl
  refine ⟨?_, ?_, ?_⟩
  · intro hrooted q text hq hfile
    rw [Disk.at_put hne] at hfile
    split at hfile
    · rename_i heq
      subst heq
      refine ⟨hnames, fun p hp hrest => ?_⟩
      rw [Disk.at_put hne, if_neg hrest]
      exact hdirs p hp hrest
    · obtain ⟨hnames', hdirs'⟩ := hrooted q text hq hfile
      refine ⟨hnames', fun p hp hrest => ?_⟩
      have hdir := hdirs' p hp hrest
      rw [Disk.at_put hne, if_neg, hdir]
      rintro rfl
      exact hover hdir
  · intro hinward name hname hprivate
    rw [Disk.at_put hne] at hname
    split at hname
    · rename_i heq
      exact inside_of_way hpath (by rw [← heq])
    · exact hinward name hname hprivate
  · intro path' hpath'
    apply textAt_of_at
    intro _
    rw [Disk.at_put hne, if_neg]
    intro heq
    exact hpath' (placeOf_injective heq ▸ hmine)

theorem confined_rename {source target : Place} (hsource : Reserved source)
    (htarget : Reserved target ∨ Named mine target) :
    Confined mine d (d.rename source target).2 := by
  unfold Disk.rename
  split
  · exact .refl _ _
  · split
    · exact .refl _ _
    · rename_i entry _ hdirname
      split
      · exact .refl _ _
      · rename_i hbase
        have hbase : base target = target := not_not.1 hbase
        split
        · exact .refl _ _
        · rename_i hover
          have hkeep : Confined mine d (d.keep fun p => p != source) := by
            apply confined_keep
            intro p hp
            rw [bne_eq_false_iff_eq] at hp
            exact .inl (hp ▸ hsource.hidden)
          refine hkeep.trans ?_
          rcases htarget with hhidden | hnamed
          · exact confined_put_reserved hhidden
          · obtain ⟨path, hmine, hpath, rfl⟩ := hnamed
            have hlast : (placeOf path).getLast? ≠ some "" := by
              intro hlast
              have hlength := congrArg List.length hbase
              rw [base, if_pos hlast, List.length_dropLast] at hlength
              cases hplace : placeOf path with
              | nil =>
                rw [hplace] at hlast
                cases hlast
              | cons x rest =>
                rw [hplace] at hlength
                simp at hlength
            have hkept : ∀ p, p <+: placeOf path → p ≠ [] →
                (d.keep fun p => p != source).at_ p = d.at_ p := by
              intro p hp hne
              rw [Disk.at_keep hne, if_pos]
              rw [bne_iff_ne]
              rintro rfl
              exact not_hidden_of_way (not_hidden_placeOf hpath) hp hsource.hidden
            have hnames : ∀ name ∈ placeOf path, name ≠ "" := by
              intro name hname
              rcases List.eq_nil_or_concat (placeOf path) with hnil | ⟨front, last, hconcat⟩
              · rw [hnil] at hname
                cases hname
              · have hfront := names_placeOf hpath
                rw [hconcat, List.concat_eq_append] at hfront hname hlast
                rw [List.dropLast_concat] at hfront
                rcases List.mem_append.1 hname with hmem | hmem
                · exact hfront name hmem
                · rw [List.mem_singleton.1 hmem]
                  simpa using hlast
            apply confined_put_named ⟨path, hmine, hpath, rfl⟩ hnames
            · by_cases hnil : placeOf path = []
              · rw [hnil] at hover
                exact (hover rfl).elim
              · rw [hkept _ List.prefix_rfl hnil]
                exact hover
            · intro p hp hrest
              by_cases hnil : p = []
              · subst hnil
                rfl
              · rw [hkept p hp hnil]
                rw [dirname, hbase] at hdirname
                by_cases hdrop : p = (placeOf path).dropLast
                · rw [hdrop]
                  apply at_of_lstat hdirname
                  intro hempty
                  exact names_placeOf hpath "" (List.mem_of_getLast? hempty) rfl
                · apply dirs_of_lstat hdirname _ hdrop
                  rcases List.eq_nil_or_concat (placeOf path) with hempty | ⟨front, last, hconcat⟩
                  · rw [hempty] at hp
                    exact (hnil (List.prefix_nil.1 hp)).elim
                  · rw [hconcat, List.concat_eq_append] at hp hrest ⊢
                    rw [List.dropLast_concat]
                    rcases List.prefix_concat_iff.1 hp with rfl | hp
                    · exact (hrest rfl).elim
                    · exact hp
    · exact .refl _ _

/-- The operation changes no file of a path that is not one's own. -/
def Op.Careful (mine : String → Prop) : Op → Prop
  | .enter _ _ | .first => False
  | .mkdir place => ∀ name, [name] ∈ Disk.steps place → isPrivate name = false → Inside name
  | .create place _ => Reserved place
  | .rmAll place => Hidden place
  | .rename source target => Reserved source ∧ (Reserved target ∨ Named mine target)
  | .rm place => Hidden place ∨ Named mine place
  | _ => True

theorem disk_rename (s : State) (source target : Place) :
    (s.rename source target).2.disk = (s.disk.rename source target).2 := by
  unfold State.rename
  split
  · rename_i heq _ _
    rw [heq]
  · rename_i heq _
    rw [heq]

theorem confined_missing (hinside : ∀ name, [name] ∈ Disk.steps place → isPrivate name = false → Inside name) (n : Nat) :
    Confined mine d (d.mkdirs ((d.missing place).take n)) := by
  refine confined_mkdirs ?_ ?_ fun name hname => ?_
  · intro hmem
    have hroot := List.mem_filter.1 (List.mem_of_mem_take hmem)
    cases hroot.2
  · intro p hp
    have hp := List.mem_filter.1 (List.mem_of_mem_take hp)
    exact Option.isNone_iff_eq_none.1 hp.2
  · exact hinside name (List.mem_filter.1 (List.mem_of_mem_take hname)).1

theorem confined_create {text : String} (h : Reserved place) : Confined mine d (d.create place text).2 := by
  unfold Disk.create
  split
  · exact .refl _ _
  · split
    · exact .refl _ _
    · exact confined_put_reserved h
  · exact .refl _ _

theorem confined_rm (h : Hidden place ∨ Named mine place) : Confined mine d (d.rm place).2 := by
  unfold Disk.rm
  split
  · exact .refl _ _
  · exact .refl _ _
  · rename_i entry hentry hlstat
    show Confined mine d (d.keep fun p => p != place)
    apply confined_keep
    intro p hp
    rw [bne_eq_false_iff_eq] at hp
    subst hp
    refine h.imp id fun hnamed => ⟨fun hdir => ?_, hnamed⟩
    have hlast : p.getLast? ≠ some "" := fun hlast => hentry (dir_of_slash hlstat hlast)
    rw [at_of_lstat hlstat hlast] at hdir
    exact hentry (Option.some.inj hdir)

theorem confined_rmAll {kept : Place → Bool} (h : Hidden place) :
    Confined mine d (d.keep fun p => !place.isPrefixOf p || kept p) := by
  apply confined_keep
  intro p hp
  rw [Bool.or_eq_false_iff, Bool.not_eq_false', List.isPrefixOf_iff_prefix] at hp
  obtain ⟨name, hhead, hname⟩ := h
  obtain ⟨⟨rest, rfl⟩, -⟩ := hp
  cases place with
  | nil => cases hhead
  | cons x place => exact .inl ⟨name, hhead, hname⟩

/-- Whether it fails or is cut short. -/
theorem confined_of_leaves {o : Op} {s s' : State} (ho : o.Careful mine) (h : o.leaves s s') :
    Confined mine s.disk s'.disk := by
  cases o with
  | enter lock t => exact ho.elim
  | first => exact ho.elim
  | mkdir place =>
    obtain ⟨n, rfl⟩ := h
    exact confined_missing ho n
  | create place text =>
    rcases h with rfl | ⟨text, -, rfl⟩
    · exact .refl _ _
    · exact confined_create ho
  | rename source target =>
    rcases h with rfl | rfl
    · exact .refl _ _
    · rw [disk_rename]
      exact confined_rename ho.1 ho.2
  | rm place =>
    rcases h with rfl | rfl
    · exact .refl _ _
    · exact confined_rm ho
  | rmAll place =>
    obtain ⟨kept, rfl⟩ := h
    exact confined_rmAll ho
  | emit event =>
    rcases h with rfl | rfl
    · exact .refl _ _
    · exact .refl _ _
  | _ =>
    obtain rfl : s' = s := h
    exact .refl _ _

theorem confined_of_perform {o : Op} (ho : o.Careful mine) (s : State) : Confined mine s.disk (o.perform s).2.disk := by
  cases o with
  | enter lock t => exact ho.elim
  | first => exact ho.elim
  | mkdir place =>
    show Confined mine s.disk (s.disk.mkdir place).2
    unfold Disk.mkdir
    split
    · exact .refl _ _
    · have hall : Confined mine s.disk (s.disk.mkdirs ((s.disk.missing place).take (s.disk.missing place).length)) :=
        confined_missing ho _
      rwa [List.take_length] at hall
  | create place text => exact confined_create ho
  | rename source target =>
    show Confined mine s.disk (s.rename source target).2.disk
    rw [disk_rename]
    exact confined_rename ho.1 ho.2
  | rm place => exact confined_rm ho
  | rmAll place =>
    show Confined mine s.disk (s.disk.rmAll place).2
    unfold Disk.rmAll
    split
    · exact .refl _ _
    · have hall : Confined mine s.disk (s.disk.keep fun p => !place.isPrefixOf p || false) := confined_rmAll ho
      simpa only [Bool.or_false] using hall
  | _ => exact .refl _ _

/-! ### What is read of a file -/

theorem observe_readOptional (d : Disk) (place : Place) :
    observe (fun _ => none) d (readOptional place) =
      match d.readFile place with
      | .ok text => .ok (some text)
      | .error e => if e.isMissing then .ok none else .error e := by
  show observe _ d (match answer (fun _ => none) d (.readFile place) with
    | .ok text => (pure (some text) : Prog lang (Option String))
    | .error e => if e.isMissing then pure none else Prog.fail e) = _
  have hanswer : answer (fun _ => none) d (.readFile place) = d.readFile place := rfl
  rw [hanswer]
  cases d.readFile place with
  | ok text => rfl
  | error e =>
    dsimp only
    split <;> rfl

/-- What is read at a path, where nothing fails for reasons of its own, is the text of the file there. -/
theorem textAt_of_observe (hrooted : Rooted d) {content : Option String}
    (h : observe (fun _ => none) d (readUnlocked path) = .ok content) : textAt d path = content := by
  by_cases hpath : isDatabasePath path = true
  · rw [readUnlocked, observe_bind _ _ _ (reads_assertNoSymlinks path)] at h
    cases hlinks : observe (fun _ => none) d (assertNoSymlinks path) with
    | error e =>
      rw [hlinks] at h
      cases h
    | ok u =>
      rw [hlinks] at h
      replace h : observe (fun _ => none) d (readOptional (placeOf path)) = .ok content := h
      rw [observe_readOptional] at h
      unfold textAt
      rw [if_pos hpath]
      cases hread : d.readFile (placeOf path) with
      | ok text =>
        rw [hread] at h
        obtain rfl := Except.ok.inj h
        have hlstat : d.lstat (placeOf path) = .ok (.file text) := by
          rw [Disk.readFile] at hread
          split at hread
          · rename_i heq
            rw [heq, Except.ok.inj hread]
          · cases hread
          · cases hread
          · cases hread
        have hlast : (placeOf path).getLast? ≠ some "" := by
          intro hlast
          cases dir_of_slash hlstat hlast
        rw [at_of_lstat hlstat hlast]
      | error e =>
        rw [hread] at h
        split
        · rename_i text hfile
          -- A file that is there can be read.
          obtain ⟨hnames, hdirs⟩ := hrooted _ _ (not_hidden_placeOf hpath) hfile
          have hne : placeOf path ≠ [] := by
            intro hnil
            rw [hnil] at hfile
            cases hfile
          have hfollow : d.lstat (placeOf path) = (d.at_ (placeOf path)).elim (.error enoent) .ok :=
            follow_of_dirs hnames (fun p _ hp hrest => hdirs p hp hrest) hne
          rw [Disk.readFile, hfollow, hfile] at hread
          cases hread
        · change (if e.isMissing then Except.ok none else Except.error e) = Except.ok content at h
          split at h
          · exact Except.ok.inj h
          · cases h
  · unfold readUnlocked assertNoSymlinks databasePath at h
    rw [if_neg hpath] at h
    cases h

end ConfigRegistry.Engine
