import ConfigRegistry.Js.Value
import ConfigRegistry.Text.Substitution

/-!
# Escaping

`escapeHtml` of `src/views/html.ts`: five replacements, one after the other.
-/

namespace ConfigRegistry.Html

open Js Text

/-- `text.replaceAll(letter, entity)`. -/
def replaced (letter : Char) (entity text : String) : String :=
  String.ofList (replaceAll letter entity.toList text.toList)

/-- `escapeHtml`: nothing is shown for what is absent, and what is not a text is shown as JSON. -/
def escapeHtml (stringify : Value → String) (value : Option Value) : String :=
  match value with
  | none | some .null => ""
  | some value =>
    let text := match value with
      | .str s => s
      | value => stringify value
    replaced '\'' "&#39;" (replaced '"' "&quot;" (replaced '>' "&gt;" (replaced '<' "&lt;" (replaced '&' "&amp;" text))))

/-- The five entities, in the order in which they are written. -/
def entities : List (Char × List Char) :=
  [('&', "&amp;".toList), ('<', "&lt;".toList), ('>', "&gt;".toList), ('"', "&quot;".toList), ('\'', "&#39;".toList)]

/-- What a browser makes of a text with these entities. -/
def decodeEntities (text : String) : String := String.ofList (readBack entities text.toList)

/-- The characters that end a text or an attribute. -/
def special : List Char := ['<', '>', '"', '\'']

theorem special_subset : special ⊆ entities.map Prod.fst := by
  intro c hc
  have hkeys : special.all (fun c => (entities.map Prod.fst).contains c) = true := by decide +kernel
  simpa using List.all_eq_true.1 hkeys c hc

theorem codes_plain : ∀ e ∈ entities, ∀ c ∈ e.2, c ∉ special := by
  intro e he c hc
  have hplain : entities.all (fun e => e.2.all fun c => !special.contains c) = true := by decide +kernel
  simpa using List.all_eq_true.1 (List.all_eq_true.1 hplain e he) c hc

theorem settled_entities : Settled entities := by decide +kernel

theorem marked_entities : Marked entities '&' where
  marked := by
    have h : ∀ e ∈ entities, e.2 = '&' :: e.2.tail ∧ '&' ∉ e.2.tail := by decide +kernel
    exact fun e he => ⟨e.2.tail, h e he⟩
  replaced := ⟨('&', "&amp;".toList), by decide +kernel, rfl⟩
  prefixFree := by decide +kernel

/-- The replacements are what each letter becomes. -/
theorem escapeHtml_text (stringify : Value → String) (text : String) :
    (escapeHtml stringify (some (.str text))).toList = text.toList.flatMap (codeOf entities) := by
  rw [← replaceEach_eq settled_entities]
  unfold escapeHtml replaceEach entities
  dsimp only [List.foldl_cons, List.foldl_nil]
  unfold replaced
  simp only [String.toList_ofList]

/-- An escaped text has none of the characters that end it, its ampersands begin entities, it is read back, and it is
escaped part by part. -/
theorem escaping_is_safe_and_lossless (stringify : Value → String) :
    (∀ text : String,
      (∀ c ∈ (escapeHtml stringify (some (.str text))).toList, c ∉ special) ∧
      (∀ before after, (escapeHtml stringify (some (.str text))).toList = before ++ '&' :: after →
        ∃ e ∈ entities, e.2 <+: '&' :: after) ∧
      decodeEntities (escapeHtml stringify (some (.str text))) = text) ∧
    (Function.Injective fun text : String => escapeHtml stringify (some (.str text))) ∧
    ∀ s t : String, escapeHtml stringify (some (.str (s ++ t))) =
      escapeHtml stringify (some (.str s)) ++ escapeHtml stringify (some (.str t)) := by
  have hback : ∀ text : String, decodeEntities (escapeHtml stringify (some (.str text))) = text := by
    intro text
    unfold decodeEntities
    rw [escapeHtml_text, marked_entities.readBack_codes, String.ofList_toList]
  refine ⟨fun text => ⟨fun c hc => ?_, fun before after htext => ?_, hback text⟩, fun s t h => ?_, fun s t => ?_⟩
  · rw [escapeHtml_text] at hc
    rcases mem_codes hc with ⟨-, hnone⟩ | ⟨e, he, hmem⟩
    · intro hmem
      obtain ⟨e, he, hkey⟩ := List.mem_map.1 (special_subset hmem)
      exact hnone e he hkey
    · exact codes_plain e he c hmem
  · rw [escapeHtml_text] at htext
    exact marked_entities.begins htext
  · rw [← hback s, ← hback t]
    exact congrArg decodeEntities h
  · apply String.toList_inj.1
    rw [String.toList_append, escapeHtml_text, escapeHtml_text, escapeHtml_text, String.toList_append,
      List.flatMap_append]

end ConfigRegistry.Html
