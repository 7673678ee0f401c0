import ConfigRegistry.Products.Operations

/-!
# The paths of a product

Which file a path is, read back from the path.
-/

namespace ConfigRegistry.Products

open Js Schema Store

/-- A name that is one segment of a path. -/
def Segment (name : String) : Prop := '/' ∉ name.toList

theorem startsWith_iff {value pre : String} :
    startsWith value pre = true ↔ ∃ rest, value = pre ++ rest := by
  rw [startsWith, List.isPrefixOf_iff_prefix]
  constructor
  · rintro ⟨rest, h⟩
    exact ⟨String.ofList rest, String.toList_inj.1 (by rw [String.toList_append, String.toList_ofList, h])⟩
  · rintro ⟨rest, rfl⟩
    exact ⟨rest.toList, String.toList_append.symm⟩

theorem endsWith_iff {value post : String} :
    endsWith value post = true ↔ ∃ rest, value = rest ++ post := by
  rw [endsWith, List.isSuffixOf_iff_suffix]
  constructor
  · rintro ⟨rest, h⟩
    exact ⟨String.ofList rest, String.toList_inj.1 (by rw [String.toList_append, String.toList_ofList, h])⟩
  · rintro ⟨rest, rfl⟩
    exact ⟨rest.toList, String.toList_append.symm⟩

@[simp] theorem sliceBetween_append (pre x post : String) :
    sliceBetween (pre ++ x ++ post) pre post = x := by
  apply String.toList_inj.1
  rw [sliceBetween, String.toList_ofList]
  simp [List.append_assoc]

/-- A prefix that ends with a character the suffix does not hold does not overlap it. -/
theorem split_between {l pre post : List Char} {c : Char} (hpre : pre ++ [c] <+: l) (hpost : post <:+ l)
    (hc : c ∉ post) : ∃ x, l = pre ++ [c] ++ x ++ post := by
  obtain ⟨t, rfl⟩ := hpre
  obtain ⟨r, h⟩ := hpost
  rcases List.append_eq_append_iff.1 h with ⟨as, has, hpost⟩ | ⟨bs, -, ht⟩
  · rcases List.eq_nil_or_concat as with rfl | ⟨as, d, rfl⟩
    · exact ⟨[], by rw [hpost, List.nil_append, List.append_nil]⟩
    · rw [List.concat_eq_append, ← List.append_assoc] at has
      obtain rfl : c = d := (List.append_inj' has rfl).2 ▸ rfl |> List.singleton_inj.1
      exact (hc (by rw [hpost]; simp)).elim
  · exact ⟨bs, by rw [ht, ← List.append_assoc]⟩

/-- What lies between a directory and a suffix. -/
theorem eq_sliceBetween (pre : String) {value post : String} (hpre : startsWith value (pre ++ "/") = true)
    (hpost : endsWith value post = true) (hc : '/' ∉ post.toList) :
    value = pre ++ "/" ++ sliceBetween value (pre ++ "/") post ++ post := by
  have hp : pre.toList ++ ['/'] <+: value.toList := by
    obtain ⟨rest, rfl⟩ := startsWith_iff.1 hpre
    exact ⟨rest.toList, by simp⟩
  have hs : post.toList <:+ value.toList := by
    obtain ⟨rest, rfl⟩ := endsWith_iff.1 hpost
    exact ⟨rest.toList, by simp⟩
  obtain ⟨x, hx⟩ := split_between hp hs hc
  have hvalue : value = pre ++ "/" ++ String.ofList x ++ post :=
    String.toList_inj.1 (by rw [hx]; simp)
  conv_rhs => rw [hvalue, sliceBetween_append]
  exact hvalue

/-- The first segment of a path ends at its first slash. -/
theorem segment_inj {a b x y : String} (ha : Segment a) (hb : Segment b)
    (h : a ++ "/" ++ x = b ++ "/" ++ y) : a = b ∧ x = y := by
  have hlist : a.toList ++ '/' :: x.toList = b.toList ++ '/' :: y.toList := by
    simpa using congrArg String.toList h
  have htake : ∀ {s : String} (t : List Char), Segment s →
      (s.toList ++ '/' :: t).takeWhile (· != '/') = s.toList := by
    intro s t hs
    have hall : ∀ c ∈ s.toList, (c != '/') = true := by
      intro c hc
      rw [bne_iff_ne]
      rintro rfl
      exact hs hc
    rw [List.takeWhile_append_of_pos hall]
    simp
  have hab : a.toList = b.toList := by
    rw [← htake x.toList ha, hlist, htake y.toList hb]
  refine ⟨String.toList_inj.1 hab, String.toList_inj.1 ?_⟩
  rw [hab] at hlist
  exact (List.cons.inj (List.append_cancel_left hlist)).2

theorem segment_of_identifier {name : String} (h : identifier name = true) : Segment name := by
  intro hmem
  rw [identifier] at h
  split at h
  · rename_i hnil
    rw [hnil] at hmem
    cases hmem
  · rename_i c cs hcons
    rw [hcons] at hmem
    simp only [Bool.and_eq_true, List.all_eq_true] at h
    rcases List.mem_cons.1 hmem with rfl | hmem
    · exact absurd h.1 (by decide)
    · exact absurd (h.2 _ hmem) (by decide)

theorem identifier_ne_empty {name : String} (h : identifier name = true) : name ≠ "" := by
  rintro rfl
  cases h

theorem identifier_ne_proto {name : String} (h : identifier name = true) : name ≠ "__proto__" := by
  rintro rfl
  cases h

/-! ### Schemas -/

theorem schemaPath_inj {a b : String} (h : schemaPath a = schemaPath b) : a = b := by
  have := congrArg (fun path => sliceBetween path "schema/" ".yaml") h
  simpa only [schemaPath, sliceBetween_append] using this

theorem archivedPath_inj {a b : String} (h : archivedPath a = archivedPath b) : a = b := by
  have := congrArg (fun path => sliceBetween path "archived/" ".yaml") h
  simpa only [archivedPath, sliceBetween_append] using this

/-- A schema's file name that names a product. -/
structure ProductName (name : String) : Prop where
  segment : Segment name
  nonempty : name ≠ ""
  own : name ≠ "__proto__"

theorem productName_of_identifier {name : String} (h : identifier name = true) : ProductName name :=
  ⟨segment_of_identifier h, identifier_ne_empty h, identifier_ne_proto h⟩

theorem schemaName_eq_some {path name : String} :
    schemaName path = some name ↔ path = schemaPath name ∧ ProductName name := by
  constructor
  · intro h
    rw [schemaName] at h
    split at h
    · rename_i hends
      simp only [Bool.and_eq_true] at hends
      dsimp only at h
      split at h
      · cases h
      · rename_i hname
        simp only [not_or] at hname
        cases h
        exact ⟨eq_sliceBetween "schema" hends.1 hends.2 (by decide),
          hname.2.1, hname.1, hname.2.2⟩
    · cases h
  · rintro ⟨rfl, hname⟩
    have hstart : startsWith (schemaPath name) "schema/" = true :=
      startsWith_iff.2 ⟨name ++ ".yaml", String.append_assoc⟩
    have hend : endsWith (schemaPath name) ".yaml" = true := endsWith_iff.2 ⟨"schema/" ++ name, rfl⟩
    rw [schemaName, hstart, hend, schemaPath, sliceBetween_append]
    simp [hname.nonempty, hname.own, show '/' ∉ name.toList from hname.segment]

/-! ### Documents -/

theorem documentPath_eq (service environment : String) :
    documentPath service environment = configPrefix service ++ environment ++ ".yaml" := by
  simp only [documentPath, configPath, namespaceText, configPrefix, String.append_assoc]

theorem documentPath_inj {a b x y : String} (ha : Segment a) (hb : Segment b)
    (h : documentPath a x = documentPath b y) : a = b ∧ x = y := by
  have := congrArg (fun path => sliceBetween path "config/" ".yaml") h
  simp only [documentPath, configPath, sliceBetween_append, namespaceText] at this
  exact segment_inj ha hb this

theorem isDocument_iff {service path : String} :
    (startsWith path (configPrefix service) && endsWith path ".yaml") = true ↔
      path = documentPath service (sliceBetween path (configPrefix service) ".yaml") := by
  rw [documentPath_eq, Bool.and_eq_true]
  constructor
  · rintro ⟨hstart, hend⟩
    have hpre : configPrefix service = "config/" ++ service ++ "/" := rfl
    rw [hpre] at hstart ⊢
    exact eq_sliceBetween _ hstart hend (by decide)
  · intro h
    rw [h]
    exact ⟨startsWith_iff.2 ⟨_, String.append_assoc⟩, endsWith_iff.2 ⟨_, rfl⟩⟩

/-! ### Different kinds of files -/

/-- Texts that begin differently differ. -/
theorem append_ne {a b : String} (n : Nat) (ha : n ≤ a.toList.length) (hb : n ≤ b.toList.length)
    (hne : a.toList.take n ≠ b.toList.take n) (x y : String) : a ++ x ≠ b ++ y := by
  intro h
  have := congrArg (fun text => text.toList.take n) h
  rw [String.toList_append, String.toList_append, List.take_append_of_le_length ha,
    List.take_append_of_le_length hb] at this
  exact hne this

theorem documentPath_append (service environment : String) : documentPath service environment =
    "config/" ++ (namespaceText service environment ++ ".yaml") := String.append_assoc

theorem schemaPath_append (service : String) : schemaPath service = "schema/" ++ (service ++ ".yaml") :=
  String.append_assoc

theorem archivedPath_append (service : String) :
    archivedPath service = "archived/" ++ (service ++ ".yaml") := String.append_assoc

theorem schemaPath_ne_documentPath (a s e : String) : schemaPath a ≠ documentPath s e := by
  rw [schemaPath_append, documentPath_append]
  exact append_ne 1 (by decide) (by decide) (by decide) _ _

theorem archivedPath_ne_documentPath (a s e : String) : archivedPath a ≠ documentPath s e := by
  rw [archivedPath_append, documentPath_append]
  exact append_ne 1 (by decide) (by decide) (by decide) _ _

theorem archivedPath_ne_schemaPath (a s : String) : archivedPath a ≠ schemaPath s := by
  rw [archivedPath_append, schemaPath_append]
  exact append_ne 1 (by decide) (by decide) (by decide) _ _

theorem services_ne_documentPath (s e : String) : "services.yaml" ≠ documentPath s e := by
  rw [documentPath_append, ← String.append_empty (s := "services.yaml")]
  exact append_ne 1 (by decide) (by decide) (by decide) _ _

theorem services_ne_schemaPath (s : String) : "services.yaml" ≠ schemaPath s := by
  rw [schemaPath_append, ← String.append_empty (s := "services.yaml")]
  exact append_ne 2 (by decide) (by decide) (by decide) _ _

theorem services_ne_archivedPath (s : String) : "services.yaml" ≠ archivedPath s := by
  rw [archivedPath_append, ← String.append_empty (s := "services.yaml")]
  exact append_ne 1 (by decide) (by decide) (by decide) _ _

theorem schemaPath_ne_environments (s : String) : schemaPath s ≠ "environments.yaml" := by
  rw [schemaPath_append, ← String.append_empty (s := "environments.yaml")]
  exact append_ne 1 (by decide) (by decide) (by decide) _ _

theorem documentPath_ne_environments (s e : String) : documentPath s e ≠ "environments.yaml" := by
  rw [documentPath_append, ← String.append_empty (s := "environments.yaml")]
  exact append_ne 1 (by decide) (by decide) (by decide) _ _

theorem archivedPath_ne_environments (s : String) : archivedPath s ≠ "environments.yaml" := by
  rw [archivedPath_append, ← String.append_empty (s := "environments.yaml")]
  exact append_ne 1 (by decide) (by decide) (by decide) _ _

end ConfigRegistry.Products
