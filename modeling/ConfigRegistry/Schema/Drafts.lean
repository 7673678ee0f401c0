import ConfigRegistry.Schema.Builder

/-!
# What a form declares

Drafts that pass their checks have distinct names, none of them a name of the file format, and the
mapping of a key is secret where its draft is.
-/

namespace ConfigRegistry.Schema

open Js

variable {rt : Runtime} {drafts : List KeyDraft}

theorem name_of_checkKeys {seen : List String}
    (h : checkKeys rt drafts seen = []) {draft : KeyDraft} (hdraft : draft ∈ drafts) :
    isMetadataKey (trim draft.name) = false := by
  induction drafts generalizing seen with
  | nil => cases hdraft
  | cons d drafts ih =>
    rw [checkKeys, List.append_eq_nil_iff] at h
    rcases List.mem_cons.1 hdraft with rfl | hdraft
    · cases hmeta : isMetadataKey (trim draft.name) with
      | false => rfl
      | true =>
        have hcheck := h.1
        simp only [checkKey, hmeta] at hcheck
        split at hcheck <;> simp at hcheck
    · exact ih h.2 hdraft

theorem mem_keys_drafted {keys : Record} {key : String}
    (h : key ∈ (drafts.foldl (fun keys draft => keys.set (trim draft.name) (.obj draft.definition))
      keys).keys) : key ∈ keys.keys ∨ ∃ draft ∈ drafts, key = trim draft.name := by
  induction drafts generalizing keys with
  | nil => exact .inl h
  | cons draft drafts ih =>
    rcases ih h with hkey | ⟨d, hd, rfl⟩
    · obtain ⟨v, hv⟩ := Record.mem_keys.1 hkey
      rcases Record.mem_set hv with hv | ⟨rfl, -⟩
      · exact .inl (Record.mem_keys.2 ⟨v, hv⟩)
      · exact .inr ⟨draft, List.mem_cons_self, rfl⟩
    · exact .inr ⟨d, List.mem_cons_of_mem _ hd, rfl⟩

theorem buildSchema_eq_ok {built : String}
    (h : buildSchema rt drafts = .ok built) :
    built = rt.stringifyYaml (.obj [("version", .num (.fin 1)), ("keys", .obj (draftedKeys drafts))]) := by
  rw [buildSchema] at h
  split at h
  · cases h; rfl
  · cases h

/-- No draft that passes its checks is named like metadata. -/
theorem draftedKeys_not_metadata {built : String}
    (h : buildSchema rt drafts = .ok built) {key : String} (hkey : key ∈ (draftedKeys drafts).keys) :
    isMetadataKey key = false := by
  rw [buildSchema] at h
  split at h
  · rename_i hproblems
    rcases mem_keys_drafted hkey with hnil | ⟨draft, hdraft, rfl⟩
    · cases hnil
    · exact name_of_checkKeys (List.isEmpty_iff.1 hproblems) hdraft
  · cases h

/-- Each mapping is the one of a draft. -/
theorem mem_draftedKeys {key : String} {raw : Value} (h : (key, raw) ∈ draftedKeys drafts) :
    ∃ draft ∈ drafts, key = trim draft.name ∧ raw = .obj draft.definition := by
  have hfold : ∀ (drafts : List KeyDraft) (keys : Record), (key, raw) ∈ drafts.foldl (fun keys draft =>
      keys.set (trim draft.name) (.obj draft.definition)) keys →
      (key, raw) ∈ keys ∨ ∃ draft ∈ drafts, key = trim draft.name ∧ raw = .obj draft.definition := by
    intro drafts
    induction drafts with
    | nil => exact fun _ h => .inl h
    | cons draft drafts ih =>
      intro keys h
      rcases ih _ h with h | ⟨d, hd, heq⟩
      · rcases Record.mem_set h with h | heq
        · exact .inl h
        · exact .inr ⟨draft, List.mem_cons_self, heq⟩
      · exact .inr ⟨d, List.mem_cons_of_mem _ hd, heq⟩
  exact (hfold drafts [] h).resolve_left nofun

/-- Every draft has its mapping. -/
theorem draftedKeys_has {draft : KeyDraft} (hdraft : draft ∈ drafts) :
    (draftedKeys drafts).has (trim draft.name) = true := by
  have hfold : ∀ (drafts : List KeyDraft) (keys : Record) (key : String),
      keys.has key = true ∨ (∃ d ∈ drafts, key = trim d.name) →
      (drafts.foldl (fun keys draft => keys.set (trim draft.name) (.obj draft.definition)) keys).has key =
        true := by
    intro drafts
    induction drafts with
    | nil => exact fun _ _ h => h.resolve_right nofun
    | cons d drafts ih =>
      intro keys key h
      refine ih _ key ?_
      by_cases hkey : key = trim d.name
      · subst hkey
        exact .inl (Record.has_eq_true.2 ⟨_, Record.lookup_set_self _ _ _⟩)
      · rcases h with h | ⟨d', hd', heq⟩
        · obtain ⟨v, hv⟩ := Record.has_eq_true.1 h
          exact .inl (Record.has_eq_true.2 ⟨v, (Record.lookup_set_ne _ _ hkey).trans hv⟩)
        · rcases List.mem_cons.1 hd' with rfl | hd'
          · exact (hkey heq).elim
          · exact .inr ⟨d', hd', heq⟩
  exact hfold drafts [] _ (.inr ⟨draft, hdraft, rfl⟩)

/-- The names of drafts that pass their checks are distinct, and none was seen before. -/
theorem nodup_of_checkKeys {seen : List String} (h : checkKeys rt drafts seen = []) :
    (drafts.map fun draft => trim draft.name).Nodup ∧ ∀ draft ∈ drafts, trim draft.name ∉ seen := by
  induction drafts generalizing seen with
  | nil => exact ⟨List.nodup_nil, nofun⟩
  | cons draft drafts ih =>
    rw [checkKeys, List.append_eq_nil_iff] at h
    obtain ⟨hnodup, hseen⟩ := ih h.2
    have hfirst : trim draft.name ∉ seen := by
      intro hmem
      have hcheck := h.1
      simp only [checkKey, List.contains_iff_mem.2 hmem] at hcheck
      split at hcheck <;> simp at hcheck
    refine ⟨?_, fun d hd => ?_⟩
    · rw [List.map_cons, List.nodup_cons]
      refine ⟨fun hmem => ?_, hnodup⟩
      obtain ⟨d, hd, heq⟩ := List.mem_map.1 hmem
      exact hseen d hd (by rw [heq]; simp)
    · rcases List.mem_cons.1 hd with rfl | hd
      · exact hfirst
      · exact fun hmem => hseen d hd (List.mem_append_left _ hmem)

theorem draft_unique {built : String} (h : buildSchema rt drafts = .ok built) {d d' : KeyDraft}
    (hd : d ∈ drafts) (hd' : d' ∈ drafts) (hname : trim d.name = trim d'.name) : d = d' := by
  rw [buildSchema] at h
  split at h
  · rename_i hproblems
    exact List.inj_on_of_nodup_map (nodup_of_checkKeys (List.isEmpty_iff.1 hproblems)).1 hd hd' hname
  · cases h

theorem lookup_optionally {key name : String} (h : name ≠ key) (v : Option Value) :
    (optionally key v).lookup name = none := by
  cases v with
  | none => rfl
  | some v => rw [optionally, List.lookup_cons, beq_false_of_ne h, List.lookup_nil]

/-- The mapping of a draft that is not secret is not. -/
theorem secret_definition {draft : KeyDraft} (h : draft.secret = false) :
    (Value.obj draft.definition).field "secret" = none := by
  have hflag : List.lookup "secret" (optionally "secret"
      (if draft.secret then some (.bool true) else none)) = none := by
    rw [h]
    rfl
  rw [h] at hflag
  simp only [Value.field, KeyDraft.definition, List.lookup_append, h, hflag]
  rw [lookup_optionally (by decide), lookup_optionally (by decide), lookup_optionally (by decide),
    lookup_optionally (by decide)]
  cases draft.default with
  | none => rfl
  | some v => cases v <;> rfl

/-- A mapping that does not speak of secrecy declares a key that is not secret. -/
theorem secret_of_parseKey {service key : String} {raw : Value} {d : KeyDefinition}
    (h : parseKey rt service key raw = .ok d) (hnone : raw.field "secret" = none) : d.secret = false := by
  have hdefinition : ∀ type, (definitionOf rt type raw).secret = false := by
    intro type
    simp only [definitionOf, hnone]
  have hdefault : ∀ place definition, definition.secret = false →
      parseKey.withDefault rt key raw place definition = .ok d → d.secret = false := by
    intro place definition hsecret h
    rw [parseKey.withDefault] at h
    split at h
    · cases h
      exact hsecret
    · split at h
      · cases h
      · cases h
        exact hsecret
  simp only [parseKey] at h
  split at h
  · cases h
  split at h
  · cases h
  split at h
  · cases h
  split at h
  · split at h
    · cases h
    · exact hdefault _ _ (hdefinition _) h
  · exact hdefault _ _ (hdefinition _) h

end ConfigRegistry.Schema
