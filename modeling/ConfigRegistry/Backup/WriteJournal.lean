import ConfigRegistry.Async.Triple
import ConfigRegistry.Backup.Language

/-!
# The write journal

`src/store/write-journal.ts`: who changed what, one line an entry, appended to `pending.jsonl` and
moved to `sending.jsonl` by the sync that commits it. The calls here run one after another, and a
kill may come at any point inside them.
-/

namespace ConfigRegistry.Backup

open Js Json Async

/-- `JournalHandle`. -/
structure JournalHandle where
  path : JournalFile

/-- `missingFile`: what a read answers, or nothing for an absent file. -/
def readOptional (file : JournalFile) : Prog lang (List Char) :=
  .handle (op (.readFile file)) fun e => if e.isMissing then pure [] else .fail e

/-- `parseJsonl`. -/
def parseJsonl (source : List Char) : Prog lang (List Doc) :=
  match parseLines source with
  | some entries => pure entries
  | none => .fail (.of "Unexpected token in JSON")

namespace WriteJournal

def append (entry : JournalEntry) : Prog lang Unit := do
  op .mkdir
  op (.appendFile entry)

def rotate : Prog lang JournalHandle := do
  op .mkdir
  op (.remove .sending .rotated)
  .handle (op .rename) fun e => if e.isMissing then op .createSending else .fail e
  pure ⟨.sending⟩

def drain (handle : JournalHandle) : Prog lang (List Doc) := do
  let source ← readOptional handle.path
  parseJsonl source

def peek : Prog lang (List Doc) := do
  let sending ← readOptional .sending
  let pending ← readOptional .pending
  parseJsonl (sending ++ pending)

def discard (why : Removal) (handle : JournalHandle) : Prog lang Unit :=
  op (.remove handle.path why)

def recover : Prog lang Unit := do
  let orphaned ← readOptional .sending
  if orphaned.isEmpty then pure ()
  else
    let pending ← readOptional .pending
    op (.rewritePending (orphaned ++ pending))
    op (.remove .sending .recovered)

end WriteJournal

/-- A call of the journal; `drain` and `discard` are given the handle that `rotate` returns. -/
inductive JournalCall where
  | append (entry : JournalEntry)
  | rotate
  | drain
  | peek
  | discard
  | recover

/-- The program of a call, with the entries it answers. -/
def JournalCall.run : JournalCall → Prog lang (List Doc)
  | .append entry => do WriteJournal.append entry; pure []
  | .rotate => do let _ ← WriteJournal.rotate; pure []
  | .drain => WriteJournal.drain ⟨.sending⟩
  | .peek => WriteJournal.peek
  | .discard => do WriteJournal.discard .called ⟨.sending⟩; pure []
  | .recover => do WriteJournal.recover; pure []

/-- The file system works: an operation fails only for a missing file. -/
def works : (o : Op) → State → Except Error o.Res → Prop
  | _, _, .ok _ => True
  | .rename, s, .error _ => s.pending = none
  | .readFile file, s, .error _ => s.file file = none
  | _, _, .error _ => False

/-- A rotation begins only when `sending.jsonl` holds no entry that was not discarded. -/
def rotatesNothing : Op → State → Prop
  | .remove _ .rotated, s => s.sent = []
  | _, _ => True

/-- What a kill leaves of `pending.jsonl`: of an append nothing or the whole line, of a recovery's
rewrite whole lines that hold every entry which only this file held. -/
def wholeLines : Op → State → State → Prop
  | .appendFile e, s, s' => s' = s ∨ s' = { s with pending := some (s.pending.getD [] ++ e.line) }
  | .rewritePending _, s, s' =>
      ∃ vs, s'.pending = some (lines vs) ∧ (s.kept.map JournalEntry.toDoc).Sublist vs
  | _, _, _ => True

/-- The journal: calls one after another, killed and restarted at any point. -/
def journal : System lang JournalCall (List Doc) where
  sem := sem.restrict works (fun _ _ _ => True) fun _ => True
  body _ c := c.run
  mayArrive p _ := p.Quiet

/-- The journal in the runs that meet the two conditions. -/
def journalWhole : System lang JournalCall (List Doc) where
  sem := sem.restrict (fun o s r => works o s r ∧ rotatesNothing o s) wholeLines fun _ => True
  body _ c := c.run
  mayArrive p _ := p.Quiet

/-- A journal before its first call. -/
def Fresh (s : State) : Prop :=
  s.pending = none ∧ s.sending = none ∧ s.sent = [] ∧ s.kept = []

/-- The entries appended and not discarded, in order. -/
def State.due (s : State) : List JournalEntry := s.sent ++ s.kept

/-- What `drain` and `peek` read parses, and `peek` reads every entry that is due, in order. -/
structure Readable (s : State) : Prop where
  drain : ∃ vs, parseLines (s.sending.getD []) = some vs
  peek : ∃ vs, parseLines (s.sending.getD [] ++ s.pending.getD []) = some vs ∧
    (s.due.map JournalEntry.toDoc).Sublist vs

/-- A file of whole lines that hold the given entries, in order. -/
def Holds (text : Option (List Char)) (entries : List JournalEntry) : Prop :=
  ∃ vs, text.getD [] = lines vs ∧ (entries.map JournalEntry.toDoc).Sublist vs

/-- Both files hold what is due in them. -/
structure Intact (s : State) : Prop where
  sending : Holds s.sending s.sent
  pending : Holds s.pending s.kept

theorem holds_nil {text : Option (List Char)} (h : text.getD [] = []) : Holds text [] :=
  ⟨[], by rw [h, lines_nil], .slnil⟩

theorem Holds.forget {text : Option (List Char)} {entries : List JournalEntry}
    (h : Holds text entries) : Holds text [] := by
  obtain ⟨vs, hv, -⟩ := h
  exact ⟨vs, hv, List.nil_sublist vs⟩

theorem Holds.append {text text' : Option (List Char)} {entries entries' : List JournalEntry}
    (h : Holds text entries) (h' : Holds text' entries') :
    Holds (some (text.getD [] ++ text'.getD [])) (entries ++ entries') := by
  obtain ⟨vs, hv, hs⟩ := h
  obtain ⟨ws, hw, hs'⟩ := h'
  refine ⟨vs ++ ws, ?_, ?_⟩
  · rw [Option.getD_some, hv, hw, lines_append]
  · rw [List.map_append]
    exact hs.append hs'

theorem holds_line (e : JournalEntry) : Holds (some e.line) [e] := by
  refine ⟨[e.toDoc], ?_, List.Sublist.refl _⟩
  rw [Option.getD_some, lines_cons, lines_nil, List.append_nil]

/-- A file that holds nothing but is empty has nothing due in it. -/
theorem Holds.eq_nil {text : Option (List Char)} {entries : List JournalEntry}
    (h : Holds text entries) (hn : text.getD [] = []) : entries = [] := by
  obtain ⟨_ | ⟨v, vs⟩, hv, hs⟩ := h
  · exact List.map_eq_nil_iff.1 (List.sublist_nil.1 hs)
  · rw [hn, lines_cons, line] at hv
    simp at hv

theorem Intact.readable {s : State} (h : Intact s) : Readable s := by
  obtain ⟨vs, hv, -⟩ := h.sending
  obtain ⟨ws, hw, hs⟩ := h.sending.append h.pending
  rw [Option.getD_some] at hw
  exact ⟨⟨vs, by rw [hv, parseLines_lines]⟩, ws, by rw [hw, parseLines_lines], hs⟩

/-! ### One call at a time

The ghost state is the call in progress, if any. Nothing changes for it while it is suspended. -/

/-- The calls keep the files intact, each alone. -/
def journalDiscipline : Discipline lang where
  Ghost := Option Nat
  inv x := Intact x.state
  rely t x y := (x.ghost = some t → y = x) ∧ (y.ghost = some t → x.ghost = some t)
  move t g g' := g = g' ∨ g = some t ∧ g' = none
  parked t φ x := x.ghost = some t ↔ φ ≠ .ended
  unborn t x := x.ghost ≠ some t
  rely_refl _ _ := ⟨fun _ => rfl, id⟩
  rely_trans t x y z h h' := by
    refine ⟨fun hx => ?_, fun hz => h.2 (h'.2 hz)⟩
    obtain rfl := h.1 hx
    exact h'.1 hx
  move_refl _ _ := .inl rfl
  move_trans t g g' g'' h h' := by
    obtain rfl | ⟨hg, hg'⟩ := h
    · exact h'
    · obtain rfl | ⟨hg'', -⟩ := h'
      · exact .inr ⟨hg, hg'⟩
      · rw [hg'] at hg''
        cases hg''
  parked_rely t o x y hp h :=
    ⟨fun hy => hp.1 (h.2 hy), fun hφ => by rw [h.1 (hp.2 hφ)]; exact hp.2 hφ⟩
  unborn_rely t x y hx h hy := hx (h.2 hy)

/-- Call `t` is in progress and `P` holds. -/
def alone (t : Nat) (P : State → Prop) (x : journalDiscipline.W) : Prop :=
  x.ghost = some t ∧ P x.state

theorem stable_alone (t : Nat) (P : State → Prop) : journalDiscipline.Stable t (alone t P) := by
  intro x y hx hr _
  rw [hr.1 hx.1]
  exact hx

/-- A call alone runs from `P`, fails never and ends with `Q`. -/
abbrev Succeeds (t : Nat) {α : Type} (P : State → Prop) (p : Prog lang α) (Q : α → State → Prop) :
    Prop :=
  journalDiscipline.Triple journalWhole.sem t (alone t P) p
    (journalDiscipline.Outcome (fun a => alone t (Q a)) fun _ _ => False)

theorem Succeeds.bind {t : Nat} {α β : Type} {P : State → Prop} {p : Prog lang α}
    {Q : α → State → Prop} {g : α → Prog lang β} {R : β → State → Prop} (h : Succeeds t P p Q)
    (hg : ∀ a, Succeeds t (Q a) (g a) R) : Succeeds t P (p >>= g) R :=
  Discipline.Triple.bind h hg fun _ _ _ h => h

theorem succeeds_pure {t : Nat} {α : Type} {P : State → Prop} {Q : α → State → Prop} (a : α)
    (h : ∀ s, P s → Q a s) : Succeeds t P (pure a) Q :=
  .done fun _ hx _ => ⟨hx.1, h _ hx.2⟩

/-- An operation that keeps the files intact, also where a kill cuts it short. -/
theorem performs_alone {o : Op} {t : Nat} {P : State → Prop}
    {Q : Except Error o.Res → State → Prop}
    (hstep : ∀ s r s', P s → Intact s → journalWhole.sem.step o s r s' → Intact s' ∧ Q r s')
    (htorn : ∀ s s', P s → Intact s → journalWhole.sem.torn o s s' → Intact s') :
    journalDiscipline.Performs journalWhole.sem t (alone t P) o fun r => alone t (Q r) where
  stable := stable_alone t P
  parked x hx _ := by simp [journalDiscipline, hx.1]
  after r := stable_alone t (Q r)
  effect x r s' hx hi _ hs := by
    obtain ⟨hi', hq⟩ := hstep _ r s' hx.2 hi hs
    exact ⟨x.ghost, .inl rfl, ⟨hi', fun u hu => others_alone hx.1 hu⟩, hx.1, hq⟩
  torn x s' hx hi hs := ⟨x.ghost, .inl rfl, htorn _ s' hx.2 hi hs, fun u hu => others_alone hx.1 hu⟩
where
  others_alone {x : journalDiscipline.W} {s' : State} {u t : Nat} (hx : x.ghost = some t)
      (hu : u ≠ t) : journalDiscipline.rely u x ⟨s', x.ghost⟩ := by
    have hne : x.ghost ≠ some u := by
      rw [hx]
      exact fun h => hu (Option.some.inj h).symm
    exact ⟨fun h => (hne h).elim, fun h => (hne h).elim⟩

/-- An operation that always succeeds. -/
theorem succeeds_op {o : Op} {t : Nat} {P : State → Prop} {Q : o.Res → State → Prop}
    (hok : ∀ s a s', P s → Intact s → journalWhole.sem.step o s (.ok a) s' → Intact s' ∧ Q a s')
    (herr : ∀ s e, P s → ¬ works o s (.error e))
    (htorn : ∀ s s', P s → Intact s → journalWhole.sem.torn o s s' → Intact s') :
    Succeeds t P (op o) Q := by
  refine .conseq (fun _ _ h => h) (fun r x _ hr => ?_) (performs_alone (t := t) (P := P)
    (Q := fun r s => match r with | .ok a => Q a s | .error _ => False) (fun s r s' hp hi hs => ?_) htorn).triple
  · cases r with
    | ok a => exact hr
    | error e => exact hr.2
  · cases r with
    | ok a => exact hok s a s' hp hi hs
    | error e => exact (herr s e hp hs.1.1).elim

/-- What a file holds, absent or not. -/
theorem readOptional_succeeds {t : Nat} {P : State → Prop} (file : JournalFile) :
    Succeeds t P (readOptional file) fun text s => P s ∧ text = (s.file file).getD [] := by
  have hread := performs_alone (o := .readFile file) (t := t) (P := P) (Q := fun r s => P s ∧ match r with
    | .ok text => text = (s.file file).getD []
    | .error e => e.isMissing = true ∧ s.file file = none) ?_ ?_
  · refine Discipline.Triple.handle hread.triple (fun a x _ h => ⟨h.1, h.2⟩) fun e => ?_
    rintro x ⟨hx, hp, hm, hn⟩ hi
    rw [if_pos hm]
    exact ⟨.refl hi, hx, hp, by rw [hn]; rfl⟩
  · rintro s (e | text) s' hp hi ⟨⟨hw, -⟩, hs⟩
    · obtain ⟨hm, rfl⟩ := hs
      have hn : s'.file file = none := hw
      exact ⟨hi, hp, by rw [hm, hn]; rfl, hn⟩
    · obtain ⟨ht, rfl⟩ := hs
      exact ⟨hi, hp, by rw [ht]; rfl⟩
  · rintro s s' - - ⟨-, ⟨⟩⟩

theorem mkdir_succeeds {t : Nat} {P : State → Prop} : Succeeds t P (op .mkdir) fun _ => P :=
  succeeds_op (fun _ _ _ hp hi h => by obtain rfl := h.2; exact ⟨hi, hp⟩) (fun _ _ _ h => h)
    fun _ _ _ _ h => h.2.elim

/-- Nothing is asked of the state. -/
abbrev any : State → Prop := fun _ => True

theorem append_succeeds {t : Nat} (entry : JournalEntry) :
    Succeeds t any (WriteJournal.append entry) fun _ => any := by
  unfold WriteJournal.append
  refine mkdir_succeeds.bind fun _ => succeeds_op ?_ (fun _ _ _ h => h) ?_
  · rintro s - s' - hi ⟨-, rfl⟩
    have hline := hi.pending.append (holds_line entry)
    exact ⟨⟨hi.sending, hline⟩, trivial⟩
  · rintro s s' - hi ⟨rfl | rfl, -⟩
    · exact hi
    · obtain ⟨vs, hv, hs⟩ := hi.pending.append (holds_line entry)
      refine ⟨hi.sending, vs, hv, ?_⟩
      rw [List.map_append] at hs
      exact (List.sublist_append_left _ _).trans hs

/-- While `sending.jsonl` is absent nothing is due in it. -/
theorem Intact.sent_eq_nil {s : State} (h : Intact s) (hn : s.sending = none) : s.sent = [] :=
  h.sending.eq_nil (by rw [hn]; rfl)

theorem intact_createSending {s : State} (h : Intact s) (hn : s.sending = none) :
    Intact s.createSending := by
  refine ⟨?_, h.pending⟩
  show Holds (some []) s.sent
  rw [h.sent_eq_nil hn]
  exact holds_nil rfl

theorem removeRotated_succeeds {t : Nat} :
    Succeeds t any (op (.remove .sending .rotated)) fun _ s => s.sending = none := by
  refine succeeds_op ?_ (fun _ _ _ h => h) fun _ _ _ _ h => h.2.elim
  rintro s - s' - hi ⟨⟨-, hsent⟩, rfl⟩
  have hsent : s.sent = [] := hsent
  refine ⟨⟨?_, hi.pending⟩, rfl⟩
  show Holds none s.sent
  rw [hsent]
  exact holds_nil rfl

/-- The step that fills `sending.jsonl`, with the entries of `pending.jsonl` or with none. -/
theorem rename_succeeds {t : Nat} : Succeeds t (fun s => s.sending = none)
    (Prog.handle (op .rename) fun e => if e.isMissing then op .createSending else .fail e)
    fun _ => any := by
  have hrename := performs_alone (o := .rename) (t := t) (P := fun s => s.sending = none)
    (Q := fun r s => match r with
      | .ok _ => True
      | .error e => e.isMissing = true ∧ s.sending = none) ?_ ?_
  · refine Discipline.Triple.handle hrename.triple (fun _ _ _ h => h) fun e => ?_
    rintro x ⟨hx, hm, hn⟩ hi
    rw [if_pos hm]
    refine succeeds_op (P := fun s => s.sending = none) ?_ ?_ ?_ x ⟨hx, hn⟩ hi
    · rintro s - s' hn hi ⟨-, rfl⟩
      exact ⟨intact_createSending hi hn, trivial⟩
    · exact fun _ _ _ h => h
    · rintro s s' hn hi ⟨-, rfl⟩
      exact intact_createSending hi hn
  · rintro s (e | a) s' hn hi ⟨⟨hw, -⟩, hs⟩
    · obtain ⟨hm, rfl⟩ := hs
      have hp : s'.pending = none := hw
      exact ⟨hi, by rw [hm, hp]; rfl, hn⟩
    · obtain ⟨-, rfl⟩ := hs
      refine ⟨⟨?_, holds_nil rfl⟩, trivial⟩
      show Holds s.pending (s.sent ++ s.kept)
      rw [hi.sent_eq_nil hn, List.nil_append]
      exact hi.pending
  · rintro s s' - - ⟨-, ⟨⟩⟩

theorem rotate_succeeds {t : Nat} : Succeeds t any WriteJournal.rotate fun _ => any := by
  unfold WriteJournal.rotate
  exact mkdir_succeeds.bind fun _ => removeRotated_succeeds.bind fun _ => rename_succeeds.bind
    fun _ => succeeds_pure _ fun _ h => h

theorem parseJsonl_succeeds {t : Nat} {P : State → Prop} {source : List Char}
    (h : ∀ s, P s → Intact s → ∃ vs, source = lines vs) :
    Succeeds t P (parseJsonl source) fun _ => any := by
  intro x hx hi
  obtain ⟨vs, rfl⟩ := h _ hx.2 hi
  unfold parseJsonl
  rw [parseLines_lines]
  exact ⟨.refl hi, hx.1, trivial⟩

theorem drain_succeeds {t : Nat} :
    Succeeds t any (WriteJournal.drain ⟨.sending⟩) fun _ => any := by
  unfold WriteJournal.drain
  refine (readOptional_succeeds .sending).bind fun source => parseJsonl_succeeds ?_
  rintro s ⟨-, rfl⟩ hi
  obtain ⟨vs, hv, -⟩ := hi.sending
  exact ⟨vs, hv⟩

theorem peek_succeeds {t : Nat} : Succeeds t any WriteJournal.peek fun _ => any := by
  unfold WriteJournal.peek
  refine (readOptional_succeeds .sending).bind fun sending =>
    (readOptional_succeeds .pending).bind fun pending => parseJsonl_succeeds ?_
  rintro s ⟨⟨-, rfl⟩, rfl⟩ hi
  obtain ⟨vs, hv, -⟩ := hi.sending.append hi.pending
  exact ⟨vs, hv⟩

theorem discard_succeeds {t : Nat} :
    Succeeds t any (WriteJournal.discard .called ⟨.sending⟩) fun _ => any := by
  refine succeeds_op ?_ (fun _ _ _ h => h) fun _ _ _ _ h => h.2.elim
  rintro s - s' - hi ⟨-, rfl⟩
  exact ⟨⟨holds_nil rfl, hi.pending⟩, trivial⟩

/-- The merge that a recovery makes of the two files, as it read them. -/
theorem rewritePending_succeeds {t : Nat} (orphaned pending : List Char) :
    Succeeds t (fun s => (any s ∧ orphaned = s.sending.getD []) ∧ pending = s.pending.getD [])
      (op (.rewritePending (orphaned ++ pending))) fun _ s => s.sent = [] := by
  refine succeeds_op ?_ (fun _ _ _ h => h) ?_
  · rintro s - s' ⟨⟨-, rfl⟩, rfl⟩ hi ⟨-, rfl⟩
    exact ⟨⟨hi.sending.forget, hi.sending.append hi.pending⟩, rfl⟩
  · rintro s s' - hi ⟨⟨vs, hv, hs⟩, part, -, rfl⟩
    exact ⟨hi.sending, vs, by rw [hv]; rfl, hs⟩

theorem removeRecovered_succeeds {t : Nat} :
    Succeeds t (fun s => s.sent = []) (op (.remove .sending .recovered)) fun _ => any := by
  refine succeeds_op ?_ (fun _ _ _ h => h) fun _ _ _ _ h => h.2.elim
  rintro s - s' hsent hi ⟨-, rfl⟩
  refine ⟨⟨?_, hi.pending⟩, trivial⟩
  show Holds none s.sent
  rw [hsent]
  exact holds_nil rfl

theorem recover_succeeds {t : Nat} : Succeeds t any WriteJournal.recover fun _ => any := by
  unfold WriteJournal.recover
  refine (readOptional_succeeds .sending).bind fun orphaned => ?_
  split
  · exact succeeds_pure _ fun _ _ => trivial
  · exact (readOptional_succeeds .pending).bind fun pending =>
      (rewritePending_succeeds orphaned pending).bind fun _ => removeRecovered_succeeds

theorem run_succeeds {t : Nat} (c : JournalCall) : Succeeds t any c.run fun _ => any := by
  cases c with
  | append entry => exact (append_succeeds entry).bind fun _ => succeeds_pure _ fun _ h => h
  | rotate => exact rotate_succeeds.bind fun _ => succeeds_pure _ fun _ h => h
  | drain => exact drain_succeeds
  | peek => exact peek_succeeds
  | discard => exact discard_succeeds.bind fun _ => succeeds_pure _ fun _ h => h
  | recover => exact recover_succeeds.bind fun _ => succeeds_pure _ fun _ h => h

/-- Every call of the journal succeeds. -/
def journalContract : Contract journalDiscipline journalWhole where
  post _ _ r _ := ∃ entries, r = .ok entries
  born t _ g g' := g = none ∧ g' = some t
  crashed _ g := g = none
  post_rely h _ _ := h
  arrive {p c x} hp hquiet := by
    have hidle : x.ghost = none := by
      by_contra hne
      obtain ⟨u, hu⟩ := Option.ne_none_iff_exists'.1 hne
      by_cases hlt : u < p.threads.length
      · have ht := List.getElem?_eq_getElem hlt
        exact (hp.parked u _ ht).1 hu (hquiet.phase ht)
      · exact hp.unborn u (by omega) hu
    refine ⟨some p.threads.length, ⟨hidle, rfl⟩, ⟨hp.inv, fun u hu => ?_⟩,
      Contract.wp_of_triple (run_succeeds c) ⟨rfl, trivial⟩ hp.inv fun r y hi hr => ?_⟩
    · exact ⟨fun h => (by rw [hidle] at h; cases h), fun h => (hu (Option.some.inj h).symm).elim⟩
    · cases r with
      | error e => exact hr.elim
      | ok entries =>
        have hbusy : y.ghost = some p.threads.length := hr.1
        refine ⟨none, .inr ⟨hbusy, rfl⟩, ⟨hi, fun u hu => ⟨fun h => ?_, fun h => (nomatch h)⟩⟩, ?_,
          entries, rfl⟩
        · rw [hbusy] at h
          exact (hu (Option.some.inj h).symm).elim
        · exact ⟨fun h => (nomatch h), fun h => (h rfl).elim⟩
  allowed _ _ _ _ := trivial
  crash {x s'} hi hc := by
    obtain ⟨-, rfl⟩ := hc
    exact ⟨none, rfl, ⟨hi.sending, hi.pending⟩, fun t => ⟨fun h => (nomatch h), fun h => (h rfl).elim⟩,
      fun t _ h => (nomatch h), fun t c r h => h⟩

theorem fresh_intact {s : State} (h : Fresh s) : Intact s := by
  obtain ⟨hp, hs, hsent, hkept⟩ := h
  refine ⟨?_, ?_⟩
  · rw [hsent]
    exact holds_nil (by rw [hs]; rfl)
  · rw [hkept]
    exact holds_nil (by rw [hp]; rfl)

/-- The last call of the pool was a recovery, and it returned. -/
def RecoveredLast (p : Pool lang JournalCall (List Doc)) : Prop :=
  ∃ entries, p.threads.getLast? = some ⟨.recover, some (.done (.ok entries))⟩

section

theorem works_of_perform {o : Op} {s s' : State} {r : Except Error o.Res}
    (h : perform true o s = some (r, s')) : works o s r := by
  cases r with
  | ok a => trivial
  | error e =>
    cases o with
    | rename =>
      simp only [perform] at h
      split at h
      · rename_i hn
        exact Option.isNone_iff_eq_none.1 hn
      · cases h
    | readFile file =>
      simp only [perform] at h
      split at h
      · assumption
      · cases h
    | joined t => cases h
    | _ =>
      simp only [perform, if_true] at h
      obtain ⟨a, -, ha⟩ := Option.map_eq_some_iff.1 h
      cases ha

/-- What a kill leaves of a write of which `n` characters were written. -/
def cutAt (n : Nat) (o : Op) (s : State) : Option State :=
  match o with
  | .appendFile e => some { s with pending := some (s.pending.getD [] ++ e.line.take n) }
  | _ => none

/-- The journal on a schedule. -/
def journalDriver : Driver lang JournalCall (List Doc) Nat where
  body _ c := c.run
  allowArrive p _ := decide p.Quiet
  perform _ := perform true
  cut := cutAt
  crash s := some s.restart

theorem journalDriver_follows : journalDriver.Follows journal where
  body := rfl
  allow _ _ _ := trivial
  allowArrive p _ h := of_decide_eq_true (p := p.Quiet) h
  step _ _ _ _ _ h := ⟨works_of_perform h, step_of_perform h⟩
  cut n o s s' h := by
    refine ⟨trivial, ?_⟩
    cases o with
    | appendFile e =>
      cases h
      exact ⟨e.line.take n, List.take_prefix n _, rfl⟩
    | _ => cases h
  crash s s' h := by
    cases h
    exact ⟨trivial, rfl⟩

/-- `rotatesNothing`, decided. -/
def mayRotate : Op → State → Bool
  | .remove _ .rotated, s => s.sent.isEmpty
  | _, _ => true

theorem rotatesNothing_of_mayRotate {o : Op} {s : State} (h : mayRotate o s = true) :
    rotatesNothing o s := by
  cases o with
  | remove file why =>
    cases why with
    | rotated => exact List.isEmpty_iff.1 h
    | _ => trivial
  | _ => trivial

/-- The journal on a schedule, in the runs that meet the two conditions. -/
def journalWholeDriver : Driver lang JournalCall (List Doc) Nat where
  body _ c := c.run
  allowArrive p _ := decide p.Quiet
  perform _ o s := if mayRotate o s then perform true o s else none
  crash s := some s.restart

theorem journalWholeDriver_follows : journalWholeDriver.Follows journalWhole where
  body := rfl
  allow _ _ _ := trivial
  allowArrive p _ h := of_decide_eq_true (p := p.Quiet) h
  step _ o s r s' h := by
    simp only [journalWholeDriver] at h
    split at h
    · rename_i hmay
      exact ⟨⟨works_of_perform h, rotatesNothing_of_mayRotate hmay⟩, step_of_perform h⟩
    · cases h
  cut _ _ _ _ h := nomatch h
  crash s s' h := by
    cases h
    exact ⟨trivial, rfl⟩

end

def JournalCall.recovers : JournalCall → Bool
  | .recover => true
  | _ => false

def firstEntry : JournalEntry := ⟨"a", "flags.yaml", ["k"], "1", "t1"⟩

def secondEntry : JournalEntry := ⟨"b", "flags.yaml", ["k"], "2", "t2"⟩

/-- A call that runs to its end, when it takes `n` operations. -/
def callAlone (t n : Nat) (c : JournalCall) : List (Event JournalCall Nat) :=
  .arrive c :: List.replicate n (.run t 0)

/-- An append returns, the next one is killed when it has written one character, and the restarted
process recovers. -/
def tornAppend : Pool lang JournalCall (List Doc) :=
  journalDriver.drive ⟨{}, []⟩
    (callAlone 0 2 (.append firstEntry) ++ callAlone 1 1 (.append secondEntry) ++ [.killIn 1 1] ++
      callAlone 2 1 .recover)

/-- An append, a rotation, another append, a kill, a recovery. -/
def recoveredRotation : Pool lang JournalCall (List Doc) :=
  journalWholeDriver.drive ⟨{}, []⟩
    (callAlone 0 2 (.append firstEntry) ++ callAlone 1 3 .rotate ++
      callAlone 2 2 (.append secondEntry) ++ [.kill] ++ callAlone 3 4 .recover)

/-- **Journal crash safety** in the runs that meet the two conditions: whatever was killed where,
what `drain` and `peek` read parses, `peek` reads every entry that was appended and not discarded,
in order, and every call that has ended succeeded. -/
theorem journal_survives {p : Pool lang JournalCall (List Doc)} (h : Reach journalWhole Fresh p) :
    Readable p.state ∧ ∀ t c r, p.Answered t c r → ∃ entries, r = .ok entries := by
  obtain ⟨s, hs, hrun⟩ := h
  have hgood : journalContract.Good ⟨s, []⟩ ⟨s, none⟩ :=
    .start (fresh_intact hs) fun t h => nomatch h
  obtain ⟨x, hx, -⟩ := hgood.steps hrun
  have hi : Intact x.state := hx.inv
  rw [hx.state] at hi
  exact ⟨hi.readable, fun t c r ht => hx.answered ht⟩

theorem journal_survives_rotation : Readable recoveredRotation.state ∧
    recoveredRotation.state.due = [firstEntry, secondEntry] :=
  ⟨(journal_survives (Driver.drive_reach journalWholeDriver_follows ⟨rfl, rfl, rfl, rfl⟩ _)).1,
    by decide +kernel⟩

/-- An append that a kill cut short makes the journal unreadable after the recovery. -/
theorem torn_append_is_unreadable :
    ¬ ∀ p, Reach journal Fresh p → RecoveredLast p → Readable p.state := by
  intro h
  have hreach : Reach journal Fresh tornAppend :=
    Driver.drive_reach journalDriver_follows ⟨rfl, rfl, rfl, rfl⟩ _
  have hlast : tornAppend.threads.getLast?.map (fun th => (th.request.recovers, th.succeeded)) =
      some (true, true) := by decide +kernel
  have hrecovered : RecoveredLast tornAppend := by
    obtain ⟨⟨c, q⟩, hth, hc⟩ := Option.map_eq_some_iff.1 hlast
    obtain ⟨hrecover, hdone⟩ := Prod.mk.inj hc
    obtain ⟨entries, rfl⟩ := Thread.prog_of_succeeded hdone
    cases c with
    | recover => exact ⟨entries, hth⟩
    | _ => cases hrecover
  obtain ⟨vs, hvs, -⟩ := (h _ hreach hrecovered).peek
  have hnone : parseLines (tornAppend.state.sending.getD [] ++ tornAppend.state.pending.getD []) =
      none := by decide +kernel
  rw [hnone] at hvs
  cases hvs

end ConfigRegistry.Backup
