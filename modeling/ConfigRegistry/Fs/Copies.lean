import ConfigRegistry.Fs.Disks
import ConfigRegistry.Fs.Trees

/-!
# Copies of trees

A tree that is written to a disk, node by node, and what the operations find of it there.
-/

namespace ConfigRegistry.Fs

open Js

/-- What a directory holds for a node. -/
def Node.entry : Node → Entry
  | .file text => .file text
  | .link _ => .link
  | .dir _ => .dir

mutual

/-- The entries of a node that is copied to a place. -/
def copied (place : Place) : Node → List (Place × Entry)
  | .file text => [(place, .file text)]
  | .link _ => [(place, .link)]
  | .dir entries => (place, .dir) :: copiedEntries place entries
termination_by structural node => node

/-- The entries of what is in a directory that is copied to a place. -/
def copiedEntries (place : Place) : List (String × Node) → List (Place × Entry)
  | [] => []
  | entry :: rest => copiedEntry place entry ++ copiedEntries place rest
termination_by structural entries => entries

def copiedEntry (place : Place) : String × Node → List (Place × Entry)
  | (name, node) => copied (place ++ [name]) node
termination_by structural entry => entry

end

/-- What a disk has below a place is what a directory of these entries is copied to. -/
def Disk.Lists (d : Disk) (place : Place) (entries : List (String × Node)) : Prop :=
  d.entries.filter (fun e => place.isPrefixOf e.1 && e.1 != place) = copiedEntries place entries

/-- One gets to a place through directories. -/
def Disk.Leads (d : Disk) (place : Place) : Prop :=
  (∀ name ∈ place, ProperName name) ∧ ∀ p, p <+: place → d.at_ p = some .dir

variable {d : Disk} {place : Place} {entries : List (String × Node)} {name : String} {node : Node}

/-! ### Where the entries are -/

theorem mem_copiedEntries {e : Place × Entry} :
    e ∈ copiedEntries place entries ↔ ∃ entry ∈ entries, e ∈ copied (place ++ [entry.1]) entry.2 := by
  induction entries with
  | nil => simp [copiedEntries]
  | cons entry entries ih =>
    obtain ⟨name, node⟩ := entry
    simp [copiedEntries, copiedEntry, ih]

theorem length_copied_le (hmem : (name, node) ∈ entries) :
    (copied (place ++ [name]) node).length ≤ (copiedEntries place entries).length := by
  induction entries with
  | nil => cases hmem
  | cons entry entries ih =>
    rw [copiedEntries, List.length_append]
    rcases List.mem_cons.1 hmem with rfl | hmem
    · rw [copiedEntry]
      omega
    · have := ih hmem
      omega

theorem way_of_mem_copied {e : Place × Entry} (he : e ∈ copied place node) : place <+: e.1 := by
  induction node using Node.induction generalizing place with
  | file text =>
    rw [copied, List.mem_singleton] at he
    simp [he]
  | link target =>
    rw [copied, List.mem_singleton] at he
    simp [he]
  | dir entries ih =>
    rw [copied, List.mem_cons, mem_copiedEntries] at he
    rcases he with rfl | ⟨entry, hentry, he⟩
    · exact List.prefix_rfl
    · exact (List.prefix_append place [entry.1]).trans (ih entry hentry he)

/-- What is copied from two entries of a directory is at different places. -/
theorem name_of_way {e : Place × Entry} (he : e ∈ copied (place ++ [name]) node) {name' : String}
    (hway : place ++ [name'] <+: e.1) : name' = name := by
  have hlonger := List.prefix_of_prefix_length_le hway (way_of_mem_copied he) (by simp)
  have heq := hlonger.eq_of_length (by simp)
  simpa using heq

/-- The entries that are below one name are those that its node is copied to. -/
theorem filter_copiedEntries {kept : Place × Entry → Bool} (hnodup : (entries.map Prod.fst).Nodup)
    (hmem : (name, node) ∈ entries) (hkept : ∀ e, kept e = true → place ++ [name] <+: e.1) :
    (copiedEntries place entries).filter kept = (copied (place ++ [name]) node).filter kept := by
  induction entries with
  | nil => cases hmem
  | cons entry entries ih =>
    obtain ⟨other, inner⟩ := entry
    rw [List.map_cons, List.nodup_cons] at hnodup
    have hnone : ∀ {name' : String} {node' : Node}, name' ≠ name →
        (copied (place ++ [name']) node').filter kept = [] := by
      intro name' node' hne
      rw [List.filter_eq_nil_iff]
      intro e he hk
      exact hne (name_of_way he (hkept e hk)).symm
    rw [copiedEntries, copiedEntry, List.filter_append]
    rcases List.mem_cons.1 hmem with heq | hmem
    · obtain ⟨rfl, rfl⟩ := Prod.mk.inj heq
      have hrest : (copiedEntries place entries).filter kept = [] := by
        rw [List.filter_eq_nil_iff]
        intro e he hk
        obtain ⟨⟨name', node'⟩, hentry, he⟩ := mem_copiedEntries.1 he
        obtain rfl := name_of_way he (hkept e hk)
        exact hnodup.1 (List.mem_map.2 ⟨_, hentry, rfl⟩)
      rw [hrest, List.append_nil]
    · have hne : other ≠ name := by
        rintro rfl
        exact hnodup.1 (List.mem_map.2 ⟨_, hmem, rfl⟩)
      rw [hnone hne, List.nil_append, ih hnodup.2 hmem]

/-! ### What the operations find -/

theorem Disk.lists_root (entries : List (String × Node)) : Disk.Lists ⟨copiedEntries [] entries⟩ [] entries := by
  refine List.filter_eq_self.2 fun e he => ?_
  obtain ⟨entry, -, he⟩ := mem_copiedEntries.1 he
  have hne : e.1 ≠ [] := by
    intro hnil
    have hway := way_of_mem_copied he
    rw [hnil] at hway
    simp at hway
  simp [hne]

/-- What is below one name of a directory is what its node is copied to. -/
theorem Disk.Lists.filter_eq (h : d.Lists place entries) (hnodup : (entries.map Prod.fst).Nodup)
    (hmem : (name, node) ∈ entries) :
    d.entries.filter (fun e => (place ++ [name]).isPrefixOf e.1) = copied (place ++ [name]) node := by
  have hinner : ∀ e : Place × Entry, (place ++ [name]).isPrefixOf e.1 = true →
      (place.isPrefixOf e.1 && e.1 != place) = true := by
    intro e he
    rw [List.isPrefixOf_iff_prefix] at he
    have hlength := he.length_le
    rw [List.length_append, List.length_singleton] at hlength
    rw [Bool.and_eq_true, List.isPrefixOf_iff_prefix, bne_iff_ne]
    refine ⟨(List.prefix_append _ _).trans he, fun heq => ?_⟩
    rw [heq] at hlength
    omega
  have hall : (copied (place ++ [name]) node).filter (fun e => (place ++ [name]).isPrefixOf e.1) =
      copied (place ++ [name]) node := by
    rw [List.filter_eq_self]
    exact fun e he => List.isPrefixOf_iff_prefix.2 (way_of_mem_copied he)
  rw [← hall, ← filter_copiedEntries hnodup hmem fun e he => List.isPrefixOf_iff_prefix.1 he, ← h,
    List.filter_filter]
  apply List.filter_congr
  intro e _
  cases he : (place ++ [name]).isPrefixOf e.1 with
  | false => rfl
  | true => rw [hinner e he, Bool.and_self]

theorem lookup_copied (place : Place) (node : Node) : (copied place node).lookup place = some node.entry := by
  cases node <;> simp [copied, Node.entry]

theorem Disk.Lists.at_eq (h : d.Lists place entries) (hnodup : (entries.map Prod.fst).Nodup)
    (hmem : (name, node) ∈ entries) : d.at_ (place ++ [name]) = some node.entry := by
  have hlookup := lookup_filter d.entries (fun p => (place ++ [name]).isPrefixOf p) (place ++ [name])
  have hself : (place ++ [name]).isPrefixOf (place ++ [name]) = true :=
    List.isPrefixOf_iff_prefix.2 List.prefix_rfl
  rw [if_pos hself, h.filter_eq hnodup hmem, lookup_copied] at hlookup
  rw [at_of_ne (by simp), ← hlookup]

/-- What is not in a directory is not on the disk. -/
theorem Disk.Lists.at_eq_none (h : d.Lists place entries) (hmem : name ∉ entries.map Prod.fst) :
    d.at_ (place ++ [name]) = none := by
  rw [at_of_ne (by simp), List.lookup_eq_none_iff]
  rintro ⟨p, entry⟩ he
  rw [bne_iff_ne]
  rintro rfl
  have hbelow : (place ++ [name], entry) ∈ copiedEntries place entries := by
    rw [← h, List.mem_filter]
    simp [he]
  obtain ⟨found, hfound, hcopied⟩ := mem_copiedEntries.1 hbelow
  obtain rfl := name_of_way hcopied List.prefix_rfl
  exact hmem (List.mem_map_of_mem hfound)

theorem Disk.Lists.inside {inner : List (String × Node)} (h : d.Lists place entries)
    (hnodup : (entries.map Prod.fst).Nodup) (hmem : (name, .dir inner) ∈ entries) :
    d.Lists (place ++ [name]) inner := by
  have hcopied := congrArg (List.filter fun e => e.1 != place ++ [name]) (h.filter_eq hnodup hmem)
  rw [List.filter_filter, copied, List.filter_cons_of_neg (by simp)] at hcopied
  rw [Disk.Lists, List.filter_congr fun e _ => Bool.and_comm _ _, hcopied, List.filter_eq_self]
  intro e he
  obtain ⟨entry, -, he⟩ := mem_copiedEntries.1 he
  have hlength := (way_of_mem_copied he).length_le
  rw [bne_iff_ne]
  intro heq
  simp [heq] at hlength

/-- The name of an entry that is directly in a directory. -/
def nameIn (place : Place) (e : Place × Entry) : Option String :=
  if e.1.dropLast = place then e.1.getLast? else none

theorem nameIn_eq_some {e : Place × Entry} : nameIn place e = some name ↔ e.1 = place ++ [name] := by
  rw [nameIn]
  constructor
  · intro h
    split at h
    · rename_i hdrop
      rw [← hdrop, List.dropLast_append_getLast? _ h]
    · cases h
  · intro h
    simp [h]

theorem filterMap_copied : (copied (place ++ [name]) node).filterMap (nameIn place) = [name] := by
  have hbelow : ∀ inner, (copiedEntries (place ++ [name]) inner).filterMap (nameIn place) = [] := by
    intro inner
    rw [List.filterMap_eq_nil_iff]
    intro e he
    obtain ⟨entry, -, he⟩ := mem_copiedEntries.1 he
    have hlength := (way_of_mem_copied he).length_le
    cases hname : nameIn place e with
    | none => rfl
    | some other =>
      rw [nameIn_eq_some.1 hname] at hlength
      simp at hlength
  cases node with
  | file text => simp [copied, nameIn]
  | link target => simp [copied, nameIn]
  | dir inner =>
    rw [copied, List.filterMap_cons_some (nameIn_eq_some.2 rfl), hbelow]

theorem filterMap_copiedEntries : (copiedEntries place entries).filterMap (nameIn place) = entries.map Prod.fst := by
  induction entries with
  | nil => rfl
  | cons entry entries ih =>
    rw [copiedEntries, copiedEntry, List.filterMap_append, filterMap_copied, ih]
    rfl

theorem eraseDups_of_nodup {names : List String} (h : names.Nodup) : names.eraseDups = names := by
  induction names with
  | nil => rfl
  | cons name names ih =>
    rw [List.nodup_cons] at h
    have hothers : names.filter (fun other => !other == name) = names := by
      rw [List.filter_eq_self]
      intro other hother
      have hne : other ≠ name := by
        rintro rfl
        exact h.1 hother
      simp [hne]
    rw [List.eraseDups_cons, hothers, ih h.2]

theorem Disk.Lists.names_eq (h : d.Lists place entries) (hnodup : (entries.map Prod.fst).Nodup) :
    d.names place = entries.map Prod.fst := by
  have hnames : d.entries.filterMap (nameIn place) = entries.map Prod.fst := by
    rw [← filterMap_copiedEntries, ← h, List.filterMap_filter]
    apply List.filterMap_congr
    intro e _
    split
    · rfl
    · rename_i hout
      cases hname : nameIn place e with
      | none => rfl
      | some name =>
        rw [nameIn_eq_some.1 hname] at hout
        simp at hout
  show (d.entries.filterMap (nameIn place)).eraseDups = _
  rw [hnames]
  exact eraseDups_of_nodup hnodup

/-- The names of a directory, with what each of them stands for. -/
theorem Disk.Lists.kinds (h : d.Lists place entries) (hnodup : (entries.map Prod.fst).Nodup) :
    ((d.names place).filterMap fun name => (d.at_ (place ++ [name])).map fun entry => (name, entry.kind)) =
      entries.map fun entry => (entry.1, entry.2.entry.kind) := by
  rw [h.names_eq hnodup, List.filterMap_map, ← List.filterMap_eq_map]
  apply List.filterMap_congr
  rintro ⟨name, node⟩ hmem
  simp [h.at_eq hnodup hmem]

/-! ### The way to a place -/

theorem Disk.leads_root (d : Disk) : d.Leads [] := by
  refine ⟨fun name hname => ?_, fun p hp => ?_⟩
  · cases hname
  · rw [List.prefix_nil.1 hp, at_root]

theorem Disk.Leads.inside (h : d.Leads place) (hname : ProperName name) (hdir : d.at_ (place ++ [name]) = some .dir) :
    d.Leads (place ++ [name]) := by
  constructor
  · rw [List.forall_mem_append, List.forall_mem_singleton]
    exact ⟨h.1, hname⟩
  · intro p hp
    rcases List.prefix_concat_iff.1 hp with rfl | hp
    · exact hdir
    · exact h.2 p hp

theorem base_of_proper (h : ∀ name ∈ place, ProperName name) : base place = place := by
  rw [base, if_neg]
  intro hlast
  exact (h "" (List.mem_of_getLast? hlast)).nonempty rfl

theorem Disk.follow_name {dir : Place} (hnames : ∀ name ∈ place, ProperName name)
    (hdirs : ∀ p, p ≠ [] → p <+: place → d.at_ (dir ++ p) = some .dir) (hname : name ≠ "") :
    d.follow dir (place ++ [name]) = (d.at_ (dir ++ place ++ [name])).elim (.error enoent) .ok := by
  induction place generalizing dir with
  | nil =>
    have hslash : ¬(name = "" ∧ ([] : Place) = []) := fun h => hname h.1
    rw [List.nil_append, List.append_nil, follow, if_neg hslash]
    cases d.at_ (dir ++ [name]) <;> rfl
  | cons first rest ih =>
    rw [List.forall_mem_cons] at hnames
    have hslash : ¬(first = "" ∧ rest ++ [name] = []) := fun h => hnames.1.nonempty h.1
    have hhere := hdirs [first] (by simp) (by simp)
    rw [List.cons_append, follow, if_neg hslash, hhere]
    have hbelow : ∀ p, p ≠ [] → p <+: rest → d.at_ (dir ++ [first] ++ p) = some .dir := by
      intro p _ hp
      have hfirst := hdirs (first :: p) (by simp) (by simpa using hp)
      rwa [List.append_assoc]
    have hrest := ih hnames.2 hbelow
    simp only [List.append_eq_nil_iff, List.cons_ne_self, and_false, if_false]
    rw [hrest]
    simp

/-- What is looked at, where one gets to its directory. -/
theorem Disk.Leads.lstat_name (h : d.Leads place) (hname : name ≠ "") :
    d.lstat (place ++ [name]) = (d.at_ (place ++ [name])).elim (.error enoent) .ok :=
  follow_name h.1 (fun p _ hp => h.2 p hp) hname

theorem Disk.Leads.lstat (h : d.Leads place) : d.lstat place = .ok .dir := by
  induction place using List.reverseRecOn with
  | nil => rfl
  | append_singleton place name ih =>
    have hplace : d.Leads place :=
      ⟨fun n hn => h.1 n (List.mem_append_left _ hn), fun p hp => h.2 p (hp.trans (List.prefix_append _ _))⟩
    rw [hplace.lstat_name (h.1 name (by simp)).nonempty, h.2 _ List.prefix_rfl]
    rfl

/-- The listing of a directory that one gets to. -/
theorem Disk.Lists.readdir (h : d.Lists place entries) (hnodup : (entries.map Prod.fst).Nodup)
    (hleads : d.Leads place) : d.readdir place = .ok (entries.map fun entry => (entry.1, entry.2.entry.kind)) := by
  rw [Disk.readdir, hleads.lstat]
  dsimp only
  rw [base_of_proper hleads.1, h.kinds hnodup]

/-- What a place below a node holds is what the node has there. -/
theorem lookup_copied_iff {rest : Place} {entry : Entry} (hproper : Proper node) :
    (copied place node).lookup (place ++ rest) = some entry ↔
      ∃ inner, Reaches (fun _ => true) node rest inner ∧ inner.entry = entry := by
  have hleaf : ∀ name rest, (place ++ name :: rest == place) = false := by simp
  induction node using Node.induction generalizing place rest with
  | file text =>
    constructor
    · intro h
      cases rest with
      | nil => exact ⟨.file text, .here _, by simpa [copied, Node.entry] using h⟩
      | cons name rest => simp [copied, List.lookup_cons, hleaf] at h
    · rintro ⟨inner, hreach, rfl⟩
      cases hreach
      simp [copied, Node.entry]
  | link target =>
    constructor
    · intro h
      cases rest with
      | nil => exact ⟨.link target, .here _, by simpa [copied, Node.entry] using h⟩
      | cons name rest => simp [copied, List.lookup_cons, hleaf] at h
    · rintro ⟨inner, hreach, rfl⟩
      cases hreach
      simp [copied, Node.entry]
  | dir entries ih =>
    cases rest with
    | nil =>
      rw [List.append_nil, lookup_copied]
      constructor
      · intro h
        exact ⟨.dir entries, .here _, Option.some.inj h⟩
      · rintro ⟨inner, hreach, rfl⟩
        cases hreach
        rfl
    | cons name rest =>
      have hbelow : (place ++ [name]).isPrefixOf (place ++ name :: rest) = true := by
        rw [List.isPrefixOf_iff_prefix]
        exact ⟨rest, by simp⟩
      obtain ⟨hnodup, -⟩ := hproper [] entries (.here _)
      have hlookup : ∀ l : List (Place × Entry), l.lookup (place ++ name :: rest) =
          (l.filter fun e => (place ++ [name]).isPrefixOf e.1).lookup (place ++ name :: rest) := by
        intro l
        rw [Disk.lookup_filter l (fun p => (place ++ [name]).isPrefixOf p), if_pos hbelow]
      have hstep : ∀ inner, (name, inner) ∈ entries →
          ((copiedEntries place entries).lookup (place ++ name :: rest) = some entry ↔
            ∃ node, Reaches (fun _ => true) inner rest node ∧ node.entry = entry) := by
        intro inner hmem
        have hreach : Reaches (fun _ => true) (.dir entries) [name] inner := .inside hmem rfl (.here _)
        have hinner : (copied (place ++ [name]) inner).lookup (place ++ [name] ++ rest) = some entry ↔
            ∃ node, Reaches (fun _ => true) inner rest node ∧ node.entry = entry :=
          ih _ hmem (hproper.reached hreach) (by simp)
        rw [List.append_assoc, List.singleton_append] at hinner
        rw [hlookup, filter_copiedEntries hnodup hmem fun e he => List.isPrefixOf_iff_prefix.1 he, ← hlookup]
        exact hinner
      rw [copied, List.lookup_cons, hleaf]
      constructor
      · intro h
        obtain ⟨before, after, hentries, -⟩ := List.lookup_eq_some_iff.1 h
        have hfound : (place ++ name :: rest, entry) ∈ copiedEntries place entries := by
          rw [hentries]
          exact List.mem_append_right _ List.mem_cons_self
        obtain ⟨⟨name', inner⟩, hmem, hcopied⟩ := mem_copiedEntries.1 hfound
        have hway : place ++ [name'] <+: place ++ name :: rest := way_of_mem_copied hcopied
        obtain rfl : name' = name := by simpa using hway
        obtain ⟨node, hreach, hentry⟩ := (hstep inner hmem).1 h
        exact ⟨node, .inside hmem rfl hreach, hentry⟩
      · rintro ⟨inner, hreach, rfl⟩
        cases hreach with
        | inside hmem _ hreach => exact (hstep _ hmem).2 ⟨inner, hreach, rfl⟩

/-- What a disk that a tree was copied to has at a place. -/
theorem Disk.at_copied {place : Place} {entry : Entry} (hproper : Proper (.dir entries)) (hne : place ≠ []) :
    Disk.at_ ⟨copiedEntries [] entries⟩ place = some entry ↔
      ∃ inner, Reaches (fun _ => true) (.dir entries) place inner ∧ inner.entry = entry := by
  have hlookup : (copied [] (.dir entries)).lookup ([] ++ place) = some entry ↔
      ∃ inner, Reaches (fun _ => true) (.dir entries) place inner ∧ inner.entry = entry := lookup_copied_iff hproper
  rw [List.nil_append, copied, List.lookup_cons, beq_false_of_ne hne] at hlookup
  rw [at_of_ne hne]
  exact hlookup

/-! ### Copies that are cut short -/

/-- What is left of a node where its copy is cut short. -/
inductive Cut : Node → Node → Prop
  | file {text torn : String} (h : torn.toList <+: text.toList) : Cut (.file text) (.file torn)
  | link (target : String) : Cut (.link target) (.link target)
  | between (done rest : List (String × Node)) : Cut (.dir (done ++ rest)) (.dir done)
  | during {node left : Node} (done : List (String × Node)) (name : String) (rest : List (String × Node))
      (h : Cut node left) : Cut (.dir (done ++ (name, node) :: rest)) (.dir (done ++ [(name, left)]))

theorem Cut.refl (node : Node) : Cut node node := by
  cases node with
  | file text => exact .file List.prefix_rfl
  | link target => exact .link target
  | dir entries =>
    have h := Cut.between entries []
    rwa [List.append_nil] at h

/-- What one gets to in what is left is what is left of what was there. -/
theorem Cut.reaches {keep : String → Bool} {left inner : Node} {segments : List String} (h : Cut node left)
    (hreach : Reaches keep left segments inner) : ∃ original, Reaches keep node segments original ∧ Cut original inner := by
  induction hreach generalizing node with
  | here => exact ⟨node, .here _, h⟩
  | inside hmem hkeep hreach ih =>
    cases h with
    | between done rest => exact ⟨_, .inside (List.mem_append_left _ hmem) hkeep hreach, .refl _⟩
    | during done name rest h =>
      rcases List.mem_append.1 hmem with hmem | hmem
      · exact ⟨_, .inside (List.mem_append_left _ hmem) hkeep hreach, .refl _⟩
      · obtain ⟨rfl, rfl⟩ := Prod.mk.inj (List.mem_singleton.1 hmem)
        obtain ⟨original, hreach', hcut⟩ := ih h
        exact ⟨original, .inside (List.mem_append_right _ List.mem_cons_self) hkeep hreach', hcut⟩

theorem Cut.names_begin {left : List (String × Node)} (h : Cut (.dir entries) (.dir left)) :
    left.map Prod.fst <+: entries.map Prod.fst := by
  cases h with
  | between done rest => simp
  | during done name rest h => simp

/-- What is left of a tree is a tree. -/
theorem Cut.proper {left : Node} (h : Cut node left) (hproper : Proper node) : Proper left := by
  intro segments inner hreach
  obtain ⟨original, horiginal, hcut⟩ := h.reaches hreach
  have hdir : ∃ entries, original = .dir entries := by
    cases hcut with
    | between done rest => exact ⟨_, rfl⟩
    | during done name rest h => exact ⟨_, rfl⟩
  obtain ⟨entries, rfl⟩ := hdir
  obtain ⟨hnodup, hnames⟩ := hproper segments entries horiginal
  have hway := hcut.names_begin
  refine ⟨hnodup.sublist hway.sublist, fun entry hentry => ?_⟩
  obtain ⟨found, hfound, heq⟩ := List.mem_map.1 (hway.subset (List.mem_map_of_mem hentry))
  rw [← heq]
  exact hnames found hfound

end ConfigRegistry.Fs
