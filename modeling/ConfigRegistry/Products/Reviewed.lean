import ConfigRegistry.Js.Sorting
import ConfigRegistry.Products.Overtaking

/-!
# What a destructive operation was reviewed against

The digest of the reviewed files is taken on an early snapshot, and the commit compares what the operation
has read. Between the two nobody else can have touched the rest. The digest lists the files in the order of
`localeCompare`, which does not tell all paths apart.
-/

namespace ConfigRegistry.Products

open Js Json Schema Store

variable {o : ProductWriteOptions} {actor : Actor} {session : ProductMutation}

/-! ### The digest -/

/-- The files that an operation on the product is reviewed against. -/
def Reviewed (service path : String) : Prop :=
  path = schemaPath service ∨ path = "services.yaml" ∨ path = "environments.yaml" ∨
    startsWith path (configPrefix service) = true

/-- Two databases agree on what is reviewed. -/
def SameReviewed (service : String) (files files' : Files) : Prop :=
  ∀ path, Reviewed service path → files.lookup path = files'.lookup path

/-- No two reviewed files have paths that are equal to `localeCompare`. -/
def Untied (localeLe : String → String → Bool) (service : String) (files : Files) : Prop :=
  ∀ path path', Reviewed service path → Reviewed service path' → (files.lookup path).isSome = true →
    (files.lookup path').isSome = true → localeLe path path' = true → localeLe path' path = true → path = path'

/-- A consistent order, as `localeCompare` is: any two texts compare, and comparisons chain. -/
structure Collates (le : String → String → Bool) : Prop where
  total : ∀ a b, le a b = true ∨ le b a = true
  trans : ∀ a b c, le a b = true → le b c = true → le a c = true

/-- The reviewed files, as they are listed. -/
def reviewed (files : Files) (service : String) : List (String × String) :=
  (listing files).filter fun (path, _) =>
    path == schemaPath service || path == "services.yaml" || path == "environments.yaml" ||
      startsWith path (configPrefix service)

theorem mem_reviewed {files : Files} {service path source : String} :
    (path, source) ∈ reviewed files service ↔ Reviewed service path ∧ files.lookup path = some source := by
  rw [reviewed, List.mem_filter, mem_listing, and_comm]
  simp only [Bool.or_eq_true, beq_iff_eq, Reviewed, or_assoc]

theorem nodup_reviewed (files : Files) (service : String) : (reviewed files service).Nodup := by
  have hkeys : ((listing files).map Prod.fst).Nodup := by
    have := files.nodupKeys
    rw [List.NodupKeys, List.keys] at this
    rw [listing, List.map_map]
    exact this
  exact (List.Nodup.of_map _ hkeys).filter _

theorem render_injective : Function.Injective render := by
  intro v w h
  have := parse_render v
  rw [h, parse_render w] at this
  exact (Option.some.inj this).symm

/-- Two digests are equal when the sorted files are. -/
theorem productBase_eq_iff (hash : Function.Injective o.contentHash) {files files' : Files} {service : String} :
    productBase o files service = productBase o files' service ↔
      ((reviewed files service).insertionSort fun a b => o.localeLe a.1 b.1) =
        (reviewed files' service).insertionSort fun a b => o.localeLe a.1 b.1 := by
  constructor
  · intro h
    have hrender := String.ofList_injective (hash h)
    have hdocs := Doc.arr.inj (render_injective hrender)
    apply List.map_injective_iff.2 ?_ hdocs
    rintro ⟨path, source⟩ ⟨path', source'⟩ heq
    simp only [Doc.arr.injEq, List.cons.injEq, Doc.str.injEq, and_true, String.toList_inj] at heq
    rw [heq.1, heq.2]
  · intro h
    unfold productBase
    unfold reviewed at h
    simp only [h]

/-- The files are listed in another order just when the same ones are listed. -/
theorem reviewed_perm_iff {files files' : Files} {service : String} :
    (reviewed files service).Perm (reviewed files' service) ↔ SameReviewed service files files' := by
  rw [List.perm_ext_iff_of_nodup (nodup_reviewed _ _) (nodup_reviewed _ _)]
  constructor
  · intro h path hpath
    apply Option.ext
    intro source
    have := h (path, source)
    rw [mem_reviewed, mem_reviewed, and_iff_right hpath, and_iff_right hpath] at this
    exact this
  · rintro h ⟨path, source⟩
    rw [mem_reviewed, mem_reviewed]
    apply and_congr_right
    intro hpath
    rw [h path hpath]

theorem untied_iff {files : Files} {service : String} : Untied o.localeLe service files ↔
    ∀ a ∈ reviewed files service, ∀ b ∈ reviewed files service,
      o.localeLe a.1 b.1 = true → o.localeLe b.1 a.1 = true → a = b := by
  constructor
  · rintro h ⟨path, source⟩ ha ⟨path', source'⟩ hb hle hle'
    obtain ⟨hpath, hlookup⟩ := mem_reviewed.1 ha
    obtain ⟨hpath', hlookup'⟩ := mem_reviewed.1 hb
    obtain rfl := h path path' hpath hpath' (by rw [hlookup]; rfl) (by rw [hlookup']; rfl) hle hle'
    rw [hlookup] at hlookup'
    rw [Option.some.inj hlookup']
  · intro h path path' hpath hpath' hsome hsome' hle hle'
    obtain ⟨source, hsource⟩ := Option.isSome_iff_exists.1 hsome
    obtain ⟨source', hsource'⟩ := Option.isSome_iff_exists.1 hsome'
    exact congrArg Prod.fst
      (h (path, source) (mem_reviewed.2 ⟨hpath, hsource⟩) (path', source') (mem_reviewed.2 ⟨hpath', hsource'⟩)
        hle hle')

/-- Files that are listed in a given order. -/
theorem exists_files_of_perm {files : Files} {service : String} {listed : List (String × String)}
    (h : listed.Perm (reviewed files service)) : ∃ files', reviewed files' service = listed := by
  have hlisting : ∀ entries : List (String × String), (entries.map Prod.fst).Nodup → ∃ files' : Files,
      listing files' = entries := by
    intro entries hn
    refine ⟨⟨entries.map fun f => ⟨f.1, f.2⟩, ?_⟩, ?_⟩
    · rw [List.NodupKeys, List.keys, List.map_map]
      exact hn
    · rw [listing, List.map_map]
      exact List.map_id _
  have hkeys : (listed.map Prod.fst).Nodup := by
    apply (h.map Prod.fst).nodup_iff.2
    have hall : ((listing files).map Prod.fst).Nodup := by
      have := files.nodupKeys
      rw [List.NodupKeys, List.keys] at this
      rw [listing, List.map_map]
      exact this
    exact hall.sublist (List.filter_sublist.map _)
  obtain ⟨files', hfiles'⟩ := hlisting listed hkeys
  refine ⟨files', ?_⟩
  rw [reviewed, hfiles']
  apply List.filter_eq_self.2
  intro f hf
  exact (List.mem_filter.1 (h.subset hf)).2

/-- The digest stands for the reviewed files exactly when no two of their paths tie. -/
theorem productBase_faithful_iff (hash : Function.Injective o.contentHash) (collates : Collates o.localeLe)
    (files : Files) (service : String) :
    (∀ files', productBase o files' service = productBase o files service ↔ SameReviewed service files' files) ↔
      Untied o.localeLe service files := by
  have htotal : Std.Total fun a b : String × String => o.localeLe a.1 b.1 = true :=
    ⟨fun a b => collates.total a.1 b.1⟩
  have htrans : IsTrans (String × String) fun a b => o.localeLe a.1 b.1 = true :=
    ⟨fun a b c => collates.trans a.1 b.1 c.1⟩
  rw [untied_iff, ← insertionSort_perm_iff (nodup_reviewed files service)]
  constructor
  · intro h listed hperm
    obtain ⟨files', rfl⟩ := exists_files_of_perm hperm
    exact (productBase_eq_iff hash).1 ((h files').2 (reviewed_perm_iff.1 hperm))
  · intro h files'
    rw [productBase_eq_iff hash, ← reviewed_perm_iff]
    constructor
    · intro hsorted
      have hsorts := List.perm_insertionSort fun a b : String × String => o.localeLe a.1 b.1 = true
      exact (hsorts _).symm.trans (hsorted ▸ hsorts _)
    · exact h _

/-! ### Between the snapshot and the commit -/

/-- A path below the directory of a product that is none of its documents: no operation writes it. -/
def Loose (service path : String) : Prop :=
  startsWith path (configPrefix service) = true ∧
    ∀ environment, Segment environment → path ≠ documentPath service environment

theorem exists_of_forall₂ {α β : Type} {R : α → β → Prop} {l : List α} {l' : List β} (h : List.Forall₂ R l l')
    {a : α} (ha : a ∈ l) : ∃ b, R a b := by
  induction h with
  | nil => cases ha
  | cons hr _ ih =>
    rcases List.mem_cons.1 ha with rfl | ha
    · exact ⟨_, hr⟩
    · exact ih ha

/-- An operation writes the registry, and the schema, the archive and the documents of its product. -/
theorem Committed.writes_known {op : Operation} {files : Files} {db db' : Database} {plan : Plan}
    (h : Committed op o actor files db db' session plan) : ∀ w ∈ plan.writes,
      w.path = schemaPath op.service ∨ w.path = "services.yaml" ∨ w.path = archivedPath op.service ∨
        ∃ environment, Segment environment ∧ w.path = documentPath op.service environment := by
  intro w hw
  have hservice := h.opened.service_eq
  by_cases hop : op.writesValues = true
  · rcases (op.regular hservice hop h.planned).writes w hw with hpath | ⟨environment, hid, hpath⟩
    · exact .inl hpath
    · exact .inr (.inr (.inr ⟨environment, segment_of_identifier hid, hpath⟩))
  · cases op with
    | writeValues r => exact (hop rfl).elim
    | promote r => exact (hop rfl).elim
    | addKeys r => exact (hop rfl).elim
    | deleteKeys service selected expectedBase => exact (hop rfl).elim
    | setRetiring service retiring force =>
      obtain ⟨identity, -, hplan⟩ := bind_eq_ok.1 h.planned
      obtain ⟨-, hplan⟩ := guard_eq_ok (by simp) hplan
      obtain ⟨document, -, hplan⟩ := bind_eq_ok.1 hplan
      obtain rfl := pure_eq_ok.1 hplan
      obtain rfl := List.mem_singleton.1 hw
      exact .inl rfl
    | createProduct r =>
      obtain ⟨schema, services, hcreates⟩ := createProduct_eq_ok hservice h.planned
      obtain ⟨documents, hdocuments, hplan⟩ := hcreates.documents
      rw [hplan] at hw
      rcases List.mem_cons.1 hw with rfl | hw
      · exact .inl rfl
      rcases List.mem_append.1 hw with hw | hw
      · rw [hcreates.given_eq] at hdocuments
        obtain ⟨g, hrewrite⟩ := exists_of_forall₂ hdocuments hw
        refine .inr (.inr (.inr ⟨g.1, segment_of_identifier hrewrite.environment, ?_⟩))
        rw [hrewrite.path, hservice]
      · rw [List.mem_singleton.1 hw]
        exact .inr (.inl rfl)
    | archiveProduct service expectedBase force =>
      obtain ⟨identity, services, -, -, -, hmem⟩ := archiveProduct_eq_ok h.planned
      rcases (hmem w).1 hw with rfl | rfl | ⟨f, hf, rfl⟩ | rfl
      · exact .inr (.inl rfl)
      · exact .inr (.inr (.inl rfl))
      · obtain ⟨hpath, hlookup⟩ := mem_environments hf
        rw [hservice] at hpath
        rw [h.opened.files_eq, hpath] at hlookup
        exact .inr (.inr (.inr ⟨_, h.segment hlookup, hpath⟩))
      · exact .inl rfl

/-- A loose path is left as it is by everybody. -/
theorem Committed.loose {op : Operation} {files : Files} {db db' : Database} {plan : Plan}
    (h : Committed op o actor files db db' session plan) {service path : String} (hservice : Segment service)
    (hloose : Loose service path) : db'.files.lookup path = db.files.lookup path := by
  obtain ⟨hbelow, hdocument⟩ := hloose
  obtain ⟨rest, rfl⟩ := startsWith_iff.1 hbelow
  have hown : Segment op.service := segment_of_identifier h.product
  have hprefix : configPrefix service ++ rest = "config/" ++ (service ++ "/" ++ rest) := by
    simp only [configPrefix, String.append_assoc]
  apply h.untouched
  intro w hw hpath
  rcases h.writes_known w hw with heq | heq | heq | ⟨environment, hsegment, heq⟩
  · rw [heq, hprefix, schemaPath_append] at hpath
    exact append_ne 1 (by decide) (by decide) (by decide) _ _ hpath
  · rw [heq, hprefix, ← String.append_empty (s := "services.yaml")] at hpath
    exact append_ne 1 (by decide) (by decide) (by decide) _ _ hpath
  · rw [heq, hprefix, archivedPath_append] at hpath
    exact append_ne 1 (by decide) (by decide) (by decide) _ _ hpath
  · rw [heq, documentPath_eq] at hpath
    have hsplit : op.service ++ "/" ++ (environment ++ ".yaml") = service ++ "/" ++ rest := by
      apply String.toList_inj.1
      have := congrArg String.toList hpath
      simpa [configPrefix] using this
    obtain ⟨rfl, rfl⟩ := segment_inj hown hservice hsplit
    apply hdocument environment hsegment
    rw [documentPath_eq, String.append_assoc]

/-- Whoever is under way has seen every loose path of its product as it still is. -/
def Intact (b : Board) : Prop :=
  ∀ p ∈ b.pending, ∀ path, Segment p.1.operation.service → Loose p.1.operation.service path →
    p.2.lookup path = b.db.files.lookup path

theorem Board.loose {b : Board} {t : Turn} (hash : Function.Injective o.contentHash) {service path : String}
    (hservice : Segment service) (hloose : Loose service path) :
    (b.after o t).db.files.lookup path = b.db.files.lookup path := by
  rcases b.after_cases (o := o) t with h | ⟨c, files, -, h⟩
  · rw [h]
  · rw [h]
    have hcases : (c.performFrom o files b.db).2 = b.db ∧ _ ∨ (∃ session plan, Committed c.operation (c.options o)
        c.actor files b.db (c.performFrom o files b.db).2 session plan) ∧ _ :=
      c.operation.performFrom_cases (o := c.options o) c.actor hash files b.db
    rcases hcases with ⟨hsame, -⟩ | ⟨⟨session, plan, hcommitted⟩, -⟩
    · rw [hsame]
    · exact hcommitted.loose hservice hloose

theorem Intact.after {b : Board} (hash : Function.Injective o.contentHash) (t : Turn) (h : Intact b) :
    Intact (b.after o t) := by
  rintro ⟨c, files⟩ hmem path hservice hloose
  rw [b.loose hash hservice hloose]
  rcases Board.mem_pending_after hmem with hmem | ⟨-, rfl⟩
  · exact h _ hmem path hservice hloose
  · rfl

/-! ### Reviewed operations -/

/-- The digest that a destructive operation was told, if it was told one. -/
def Operation.expectedBase : Operation → Option String
  | .deleteKeys _ _ expectedBase => expectedBase
  | .archiveProduct _ expectedBase _ => expectedBase
  | .createProduct _ | .writeValues _ | .setRetiring _ _ _ | .promote _ | .addKeys _ => none

/-- A destructive operation that goes on has found what it was told. -/
theorem Committed.reviewed {op : Operation} {files : Files} {db db' : Database} {plan : Plan} {base : String}
    (h : Committed op o actor files db db' session plan) (hbase : op.expectedBase = some base) :
    productBase o files op.service = base := by
  obtain ⟨rfl, hservice, -, hfiles, -, -, -⟩ := id h.opened
  have hfound : reviewedOther session op.service (some base) = false → productBase session.options files op.service = base := by
    intro hreviewed
    rw [reviewedOther, hfiles, Option.any_some, bne_eq_false_iff_eq] at hreviewed
    exact hreviewed.symm
  cases op with
  | deleteKeys service selected expectedBase =>
    cases hbase
    exact hfound (guard_eq_ok (by simp) h.planned).1
  | archiveProduct service expectedBase force =>
    cases hbase
    exact hfound (guard_eq_ok (by simp) h.planned).1
  | createProduct r => cases hbase
  | writeValues r => cases hbase
  | setRetiring service retiring force => cases hbase
  | promote r => cases hbase
  | addKeys r => cases hbase

/-- Such an operation reads or replaces every document of its product. -/
theorem Committed.document_same {op : Operation} {files : Files} {db db' : Database} {plan : Plan}
    {base environment : String} (h : Committed op o actor files db db' session plan)
    (hbase : op.expectedBase = some base) (hsegment : Segment environment) :
    files.lookup (documentPath op.service environment) = db.files.lookup (documentPath op.service environment) := by
  rcases h.documents hsegment with hsome | ⟨hnone, hdb⟩
  · obtain ⟨source, hsource⟩ := Option.isSome_iff_exists.1 hsome
    have hservice := h.opened.service_eq
    have hmem : (documentPath session.service environment, source) ∈ session.environments := by
      apply mem_environments_of_lookup
      rw [h.opened.files_eq, hservice]
      exact hsource
    cases op with
    | deleteKeys service selected expectedBase =>
      change session.service = service at hservice
      subst hservice
      obtain ⟨-, identity, keys, document, candidate, swept, -, -, -, -, hpassed, hplan⟩ :=
        deleteKeys_passed h.planned
      have hread := hpassed.read hmem
      rw [environmentOf_documentPath] at hread
      apply h.read _ (.inr (.inr (.inr _)))
      rw [hplan]
      exact hread
    | archiveProduct service expectedBase force =>
      change session.service = service at hservice
      subst hservice
      obtain ⟨identity, services, -, -, -, hwrites⟩ := archiveProduct_eq_ok h.planned
      exact h.replaced _ ((hwrites _).2 (.inr (.inr (.inl ⟨_, hmem, rfl⟩))))
    | createProduct r => cases hbase
    | writeValues r => cases hbase
    | setRetiring service retiring force => cases hbase
    | promote r => cases hbase
    | addKeys r => cases hbase
  · rw [hnone, hdb]

/-- Everything that was reviewed is as it was, when such an operation commits. -/
theorem Committed.sameReviewed {op : Operation} {files : Files} {db db' : Database} {plan : Plan} {base : String}
    (h : Committed op o actor files db db' session plan) (hbase : op.expectedBase = some base)
    (hloose : ∀ path, Loose op.service path → files.lookup path = db.files.lookup path) :
    SameReviewed op.service files db.files := by
  rintro path (rfl | rfl | rfl | hbelow)
  · exact h.read _ (.inl rfl)
  · exact h.read _ (.inr (.inl rfl))
  · exact h.read _ (.inr (.inr (.inl rfl)))
  · by_cases hdocument : ∃ environment, Segment environment ∧ path = documentPath op.service environment
    · obtain ⟨environment, hsegment, rfl⟩ := hdocument
      exact h.document_same hbase hsegment
    · apply hloose path ⟨hbelow, fun environment hsegment heq => hdocument ⟨environment, hsegment, heq⟩⟩

/-- However operations interleave, a destructive one that returns ok acts on what was reviewed, where no two
of the reviewed paths are equal to `localeCompare`; and the digest stands for the reviewed files, in
whatever order they are listed, exactly then. -/
theorem reviewed_base_holds (hash : Function.Injective o.contentHash) (collates : Collates o.localeLe) :
    (∀ turns db (n : Nat) (c : Call) files base result, (({ db } : Board).run o turns).pending[n]? = some (c, files) →
      c.operation.expectedBase = some base →
      (c.performFrom o files (({ db } : Board).run o turns).db).1 = .ok result →
      Untied o.localeLe c.operation.service (({ db } : Board).run o turns).db.files →
      productBase o (({ db } : Board).run o turns).db.files c.operation.service = base) ∧
    ∀ files service, (∀ files', productBase o files' service = productBase o files service ↔
      SameReviewed service files' files) ↔ Untied o.localeLe service files := by
  constructor
  · intro turns db n c files base result hn hbase hok huntied
    have hintact : Intact (({ db } : Board).run o turns) := by
      apply run_induction (P := Intact) (fun b t _ h => h.after hash t)
      intro p hp
      cases hp
    have hcases : _ ∧ (∀ result, (c.performFrom o files (({ db } : Board).run o turns).db).1 ≠ .ok result) ∨
        (∃ session plan, Committed c.operation (c.options o) c.actor files (({ db } : Board).run o turns).db
          (c.performFrom o files (({ db } : Board).run o turns).db).2 session plan) ∧ _ :=
      c.operation.performFrom_cases (o := c.options o) c.actor hash files (({ db } : Board).run o turns).db
    rcases hcases with ⟨-, hrefused⟩ | ⟨⟨session, plan, hcommitted⟩, -⟩
    · exact (hrefused result hok).elim
    have hsegment : Segment c.operation.service := segment_of_identifier hcommitted.product
    have hsame := hcommitted.sameReviewed hbase fun path hloose =>
      hintact _ (List.mem_of_getElem? hn) path hsegment hloose
    have hfound : productBase o files c.operation.service = base := hcommitted.reviewed hbase
    rw [← hfound]
    exact (((productBase_faithful_iff hash collates _ _).2 huntied files).2 hsame).symm
  · exact productBase_faithful_iff hash collates

/-! ### Files that tie -/

/-- The acute accent that follows the letter it is on. -/
def accent : Char := Char.ofNat 0x301

/-- The letter with the accent on it. -/
def accented : Char := Char.ofNat 0xE9

/-- An accented letter is the same letter, however it is written. -/
def composed : List Char → List Char
  | [] => []
  | [c] => [c]
  | c :: d :: rest => if c = 'e' ∧ d = accent then accented :: composed rest else c :: composed (d :: rest)

/-- The order of `localeCompare`, as far as it matters to a few paths. -/
def canonicalOptions : ProductWriteOptions :=
  { plainOptions with
    localeLe a b := decide (String.ofList (composed a.toList) ≤ String.ofList (composed b.toList)) }

/-- Two notes whose names are written differently, and read the same. -/
def notePath (name : List Char) : String := "config/web/caf" ++ String.ofList name ++ ".md"

def notes : Files :=
  ((∅ : Files).insert (notePath [accented]) "one").insert (notePath ['e', accent]) "two"

/-- The same notes, listed the other way round. -/
def swappedNotes : Files :=
  ((∅ : Files).insert (notePath ['e', accent]) "two").insert (notePath [accented]) "one"

theorem swappedNotes_agree : SameReviewed "web" swappedNotes notes := by
  intro path _
  have hne : notePath [accented] ≠ notePath ['e', accent] := by decide +kernel
  unfold swappedNotes notes
  by_cases h : path = notePath [accented]
  · subst h
    rw [AList.lookup_insert, AList.lookup_insert_ne hne, AList.lookup_insert]
  · rw [AList.lookup_insert_ne h]
    by_cases h' : path = notePath ['e', accent]
    · subst h'
      rw [AList.lookup_insert, AList.lookup_insert]
    · rw [AList.lookup_insert_ne h', AList.lookup_insert_ne h', AList.lookup_insert_ne h]

/-- The databases agree, and have different digests. -/
theorem productBase_depends_on_listing :
    ¬ ∀ files files' service, productBase canonicalOptions files' service =
      productBase canonicalOptions files service ↔ SameReviewed service files' files := by
  intro h
  have hdigest := (h notes swappedNotes "web").2 swappedNotes_agree
  exact absurd hdigest (by decide +kernel)

/-- Texts that are ordered by a key compare as their keys do. -/
theorem collates_of_key (key : String → String) : Collates fun a b => decide (key a ≤ key b) := by
  constructor
  · intro a b
    simp only [decide_eq_true_eq]
    exact String.le_total (key a) (key b)
  · intro a b c hab hbc
    simp only [decide_eq_true_eq] at hab hbc ⊢
    exact String.le_trans hab hbc

theorem collates_canonical : Collates canonicalOptions.localeLe :=
  collates_of_key fun a => String.ofList (composed a.toList)

theorem collates_plain : Collates plainOptions.localeLe := collates_of_key id

/-- An order that tells all texts apart: the digests of two registries are the same when they agree. -/
theorem reviewed_base_holds_plain :
    productBase plainOptions emptyRegistry.files "web" = productBase plainOptions webRegistry.files "web" ↔
      SameReviewed "web" emptyRegistry.files webRegistry.files := by
  have huntied : Untied plainOptions.localeLe "web" webRegistry.files := by
    intro path path' _ _ _ _ hle hle'
    exact String.le_antisymm (of_decide_eq_true hle) (of_decide_eq_true hle')
  have hiff := (reviewed_base_holds (o := plainOptions) Function.injective_id collates_plain).2
    webRegistry.files "web"
  exact hiff.2 huntied emptyRegistry.files

end ConfigRegistry.Products
