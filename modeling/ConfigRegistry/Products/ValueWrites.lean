import ConfigRegistry.Products.Documents
import ConfigRegistry.Products.Validity

/-!
# What writing values does

`writeValues` and `promote` give some keys of one document new values. The document is decrypted, merged,
put in order and encrypted again, and everything else stays as it is.
-/

namespace ConfigRegistry.Products

open Js Schema Store

variable {o : ProductWriteOptions} {actor : Actor} {session : ProductMutation}

/-- One document has the values that it had, but for those that changed; the other files are the same. -/
structure Overrides (o : ProductWriteOptions) (service environment : String)
    (changes : String → Option Value) (files files' : Files) : Prop where
  document : ∃ before after, Resolved o files service environment before ∧
    Resolved o files' service environment after ∧ ∀ key, isMetadataKey key = false →
      SameValue (after.lookup key) ((changes key).or (before.lookup key))
  others : ∀ path, path ≠ documentPath service environment → files'.lookup path = files.lookup path

/-- A document that a session has read is the one that its commit finds. -/
theorem Committed.resolved {op : Operation} {files : Files} {db db' : Database} {plan : Plan}
    {environment : String} {current : Record} (h : Committed op o actor files db db' session plan)
    (hread : documentPath op.service environment ∈ plan.reads)
    (hcurrent : session.document environment = .ok current) :
    Resolved o db.files op.service environment current := by
  obtain ⟨rfl, hservice, -, rfl, -, -, -⟩ := h.opened
  have hresolved := (document_eq_ok hcurrent).2
  have hsame := h.read _ (.inr (.inr (.inr hread)))
  unfold Resolved at hresolved ⊢
  rw [hservice, hsame] at hresolved
  exact hresolved

/-- What `values` planned is done. -/
theorem Committed.overrides {op : Operation} {files : Files} {db db' : Database} {plan values : Plan}
    {environment : String} {changes : List (String × Option Value)} {expectedEtag : Option (Option String)}
    (yaml : ∀ v, o.rt.parseYaml (o.rt.stringifyYaml v) = .ok v)
    (sops : ∀ ns text source, o.encrypt ns text = .ok source → o.decrypt (configPath ns) source = .ok text)
    (h : Committed op o actor files db db' session plan)
    (hvalues : session.values environment changes expectedEtag = .ok values)
    (hwrites : plan.writes = values.writes) (hreads : ∀ path ∈ values.reads, path ∈ plan.reads) :
    Overrides o op.service environment (lastChange (definedChanges changes)) db.files db'.files := by
  have hopen := h.opened
  obtain ⟨rfl, hservice, -, hfiles, -, -, -⟩ := id hopen
  obtain ⟨-, -, current, next, hcurrent, hnext, hcases⟩ := values_cases hvalues
  rw [hservice] at hcases
  have hlookup : ∀ key, isMetadataKey key = false →
      next.lookup key = (lastChange (definedChanges changes) key).or (current.lookup key) := by
    intro key hkey
    obtain ⟨rfl, -, -⟩ := override_eq_ok hnext
    rw [lookup_foldl_set, lookup_configOnly, hkey]
    rfl
  have hbefore : documentPath op.service environment ∈ values.reads →
      Resolved session.options db.files op.service environment current := fun hread =>
    h.resolved (hreads _ hread) hcurrent
  rcases hcases with ⟨-, hsame, rfl⟩ | ⟨-, source, keys, hsource, rfl⟩
  · have hfiles' : ∀ path, db'.files.lookup path = db.files.lookup path := fun path =>
      h.untouched (by simp [hwrites])
    refine ⟨⟨current, current, hbefore List.mem_cons_self, ?_, fun key hkey => ?_⟩, fun path _ => hfiles' path⟩
    · have hresolved := hbefore List.mem_cons_self
      unfold Resolved at hresolved ⊢
      rw [hfiles']
      exact hresolved
    · rw [← hlookup key hkey]
      have := sameValue_of_override hnext hsame key
      rw [lookup_configOnly, hkey] at this
      exact this
  · have hwritten : db'.files.lookup (documentPath op.service environment) = some source :=
      h.written (by rw [hwrites]; exact List.mem_cons_self)
    refine ⟨⟨current, ProductMutation.ordered (nextVersion current next), hbefore List.mem_cons_self,
      .inr ⟨source, hwritten, ?_⟩, fun key hkey => ?_⟩,
      fun path hpath => h.untouched fun w hw hwpath => ?_⟩
    · have := resolveOne_of_encode yaml sops hsource
      rw [hservice] at this
      exact this
    · rw [lookup_ordered, lookup_nextVersion_ne _ _ hkey, hlookup key hkey]
      exact .refl _
    · rw [hwrites, List.mem_singleton] at hw
      subst hw
      exact hpath hwpath.symm

/-- The environment that is promoted into comes right after the one that is promoted. -/
def Successor (order : EnvironmentOrder) (source target : String) : Prop :=
  ∃ before after, order.all = before ++ source :: target :: after

theorem successor_of_next {order : EnvironmentOrder} {source target : String}
    (h : order.next source = some target) : Successor order source target := by
  unfold EnvironmentOrder.next at h
  split at h
  · rename_i hmem
    obtain ⟨hlt, htarget⟩ := List.getElem?_eq_some_iff.1 h
    have hindex : order.order.idxOf source < order.order.length := by omega
    refine ⟨order.order.take (order.order.idxOf source),
      order.order.drop (order.order.idxOf source + 1 + 1), ?_⟩
    have hsource : order.order[order.order.idxOf source] = source := List.getElem_idxOf hindex
    calc order.all
        = order.order.take (order.order.idxOf source) ++ order.order.drop (order.order.idxOf source) :=
          (List.take_append_drop _ _).symm
      _ = _ := by rw [List.drop_eq_getElem_cons hindex, List.drop_eq_getElem_cons hlt, hsource, htarget]
  · cases h

theorem lastChange_promoted {request : PromoteRequest} {source : Record} {keys : List String}
    {changes : List (String × Option Value)} (h : promoted request source keys = .ok changes) (key : String) :
    lastChange (definedChanges changes) key = (if key ∈ keys then source.lookup key else none) ∧
      (key ∈ keys → source.has key = true) := by
  induction keys generalizing changes with
  | nil =>
    obtain rfl := pure_eq_ok.1 h
    exact ⟨rfl, by simp⟩
  | cons k keys ih =>
    rw [promoted] at h
    split at h
    · cases h
    · rename_i value hvalue
      obtain ⟨rest, hrest, h⟩ := bind_eq_ok.1 h
      obtain rfl := pure_eq_ok.1 h
      obtain ⟨hlast, hhas⟩ := ih hrest
      have hcons : definedChanges ((k, some value) :: rest) = (k, value) :: definedChanges rest := rfl
      rw [hcons, lastChange, List.reverse_cons, List.lookup_append]
      change (lastChange (definedChanges rest) key).or _ = _ ∧ _
      rw [hlast]
      by_cases hk : key = k
      · subst hk
        rw [List.lookup_cons_self, if_pos List.mem_cons_self, hvalue]
        refine ⟨?_, fun _ => by rw [Record.has, hvalue]; rfl⟩
        split <;> rfl
      · rw [List.lookup_cons, beq_false_of_ne hk, List.lookup_nil, Option.or_none]
        simp only [List.mem_cons, hk, false_or]
        exact ⟨trivial, hhas⟩

/-- What promoting does: the environment is the next one, the keys are set in the one before and none of
them is secret, and just they get its values. -/
structure Promotes (o : ProductWriteOptions) (r : PromoteRequest) (files files' : Files) : Prop where
  next : Successor (EnvironmentOrder.fromYaml o.rt.parseYaml ((files.lookup "environments.yaml").getD ""))
    r.source r.target
  plain : ∃ schema, Declares o.rt files r.service schema ∧ ∀ key ∈ r.keys, schema.isSecret key = false
  values : ∃ source, Resolved o files r.service r.source source ∧
    (∀ key ∈ r.keys, source.has key = true) ∧
    Overrides o r.service r.target (fun key => if key ∈ r.keys then source.lookup key else none) files files'

/-- A session reads the declarations that its commit finds. -/
theorem Committed.declares {op : Operation} {files : Files} {db db' : Database} {plan : Plan}
    {schema : ProductSchema} (h : Committed op o actor files db db' session plan)
    (hs : session.schemas.services.lookup session.service = some schema) :
    Declares o.rt db.files op.service schema := by
  rw [h.opened.service_eq] at hs
  exact (h.opened.declares.1 hs).of_lookup (h.read _ (.inl rfl))

theorem Committed.promotes {r : PromoteRequest} {files : Files} {db db' : Database} {plan : Plan}
    (yaml : ∀ v, o.rt.parseYaml (o.rt.stringifyYaml v) = .ok v)
    (sops : ∀ ns text source, o.encrypt ns text = .ok source → o.decrypt (configPath ns) source = .ok text)
    (h : Committed (.promote r) o actor files db db' session plan) : Promotes o r db.files db'.files := by
  obtain ⟨hnext, keys, source, changes, values, hkeys, hplain, hsource, hchanges, hvalues, hplan⟩ :=
    promote_cases h.planned
  obtain ⟨identity, hproduct, -⟩ := bind_eq_ok.1 h.planned
  obtain ⟨-, schema, -, -, -, hs⟩ := requireProduct_eq_ok hproduct
  have hselected : ∀ key, key ∈ keys ↔ key ∈ r.keys := by
    intro key
    rw [(select_eq_ok hkeys).1, List.mem_eraseDups]
  have hservice : session.service = r.service := h.opened.service_eq
  have hread : documentPath r.service r.source ∈ plan.reads := by
    rw [hplan]
    exact List.mem_cons_self
  have hoverrides := h.overrides yaml sops hvalues (by rw [hplan]) fun path hpath => by
    rw [hplan]
    exact List.mem_cons_of_mem _ hpath
  have hlast : lastChange (definedChanges changes) =
      fun key => if key ∈ r.keys then source.lookup key else none := by
    funext key
    rw [(lastChange_promoted hchanges key).1]
    simp only [hselected]
  rw [hlast] at hoverrides
  refine ⟨?_, ⟨schema, h.declares hs, fun key hkey => ?_⟩, ⟨source, h.resolved hread hsource, ?_, hoverrides⟩⟩
  · have horder := h.opened.order
    rw [h.read "environments.yaml" (.inr (.inr (.inl rfl)))] at horder
    rw [← horder]
    exact successor_of_next hnext
  · have := hplain key ((hselected key).2 hkey)
    rwa [← hservice, isSecret_eq hs] at this
  · intro key hkey
    exact (lastChange_promoted hchanges key).2 ((hselected key).2 hkey)

/-- Values that were written are the values of the document. -/
theorem overrides_of_writeValues (hash : Function.Injective o.contentHash)
    (yaml : ∀ v, o.rt.parseYaml (o.rt.stringifyYaml v) = .ok v)
    (sops : ∀ ns text source, o.encrypt ns text = .ok source → o.decrypt (configPath ns) source = .ok text)
    {files : Files} {db : Database} {r : WriteRequest} {result : ProductWriteResult}
    (h : ((Operation.writeValues r).performFrom o actor files db).1 = .ok result) :
    Overrides o r.service r.environment (lastChange (definedChanges r.changes)) db.files
        ((Operation.writeValues r).performFrom o actor files db).2.files ∧
      ∀ c ∈ r.changes, c.2.isSome = true := by
  rcases (Operation.writeValues r).performFrom_cases actor hash files db with
    ⟨-, hrefused⟩ | ⟨⟨session, plan, hcommitted⟩, -⟩
  · exact (hrefused result h).elim
  · obtain ⟨identity, -, hvalues⟩ := bind_eq_ok.1 hcommitted.planned
    obtain ⟨-, -, current, next, -, hnext, -⟩ := values_cases hvalues
    exact ⟨hcommitted.overrides yaml sops hvalues rfl fun _ h => h, (override_eq_ok hnext).2.2⟩

/-- One key of the product gets a new value. -/
def countWrite : WriteRequest where
  service := "web"
  environment := "dev"
  changes := [("COUNT", some (.num (.fin 4)))]

end ConfigRegistry.Products
