import ConfigRegistry.Async.Traces
import ConfigRegistry.Schema.Builder
import ConfigRegistry.Text.Redacting

/-!
# Decrypting a document

`SopsDecryptor` of `src/store/sops.ts`. The `sops` program and the temporary directory are the world's; a program that
fails may print anything.
-/

namespace ConfigRegistry.Store.Sops

open Js Async Schema Text

/-- What a process ends with: the code is null where a signal ended it. -/
structure Finished where
  stdout : String
  stderr : String
  code : Option Nat
deriving DecidableEq

structure DecryptCommand where
  args : List String
  env : List (String × String)
deriving DecidableEq

inductive Op where
  | mkdtemp (start : String)
  | writeFile (file text : String)
  | run (command : DecryptCommand)
  | rm (dir : String)
deriving DecidableEq

abbrev Op.Res : Op → Type
  | .mkdtemp _ => String
  | .writeFile _ _ | .rm _ => Unit
  | .run _ => Finished

abbrev lang : Sig := ⟨Unit, Error, Op, Op.Res⟩

abbrev op (o : Op) : Prog lang o.Res := Prog.op (S := lang) o

/-- `buildDecryptCommand`. -/
def buildDecryptCommand (searchPath : Option String) (ageKey documentPath : String) : DecryptCommand where
  args := ["--decrypt", "--input-type", "yaml", "--output-type", "yaml", documentPath]
  env := [("PATH", searchPath.getD "/usr/local/bin:/usr/bin:/bin"), ("SOPS_AGE_KEY", ageKey)]

/-- `isEncrypted`. -/
def isEncrypted (rt : Runtime) (source : String) : Bool :=
  match rt.parseYaml source with
  | .ok parsed => (parsed.field "sops").isSome
  | .error _ => false

def keyNotice : String := "[redacted age key]"

/-- `redactAgeKey`. -/
def redactAgeKey (text ageKey : String) : String :=
  if ageKey = "" then text else String.ofList (redacted ageKey.toList keyNotice.toList text.toList)

/-- `code ?? -1`, as it is printed. -/
def codeText : Option Nat → String
  | some code => toString code
  | none => "-1"

/-- What sops says of a failure, or else how it ended. -/
def diagnosis (ageKey : String) (finished : Finished) : String :=
  let said := redactAgeKey (trim finished.stderr) ageKey
  if said = "" then "sops exited " ++ codeText finished.code else said

section

variable (rt : Runtime) (searchPath : Option String) (ageKey tempRoot path source : String)

/-- `withCiphertextFile`. -/
def withCiphertextFile {α : Type} (fn : String → Prog lang α) : Prog lang α := do
  let dir ← op (.mkdtemp (tempRoot ++ "/config-sops-"))
  Prog.ensure (do
    op (.writeFile (dir ++ "/document.yaml") source)
    fn (dir ++ "/document.yaml")) (op (.rm dir))

/-- `decrypt`. -/
def decrypt : Prog lang String :=
  if isEncrypted rt source = false then pure source
  else if ageKey = "" then Prog.fail (S := lang) (.of ("cannot decrypt " ++ path ++ ": no age key is configured"))
  else do
    let finished ← withCiphertextFile tempRoot source fun file =>
      op (.run (buildDecryptCommand searchPath ageKey file))
    if finished.code = some 0 then pure finished.stdout
    else Prog.fail (S := lang) (.of ("could not decrypt " ++ path ++ ": " ++ diagnosis ageKey finished))

end

/-! ### The key in a message -/

/-- The text has the key in it. -/
def Holds (text key : String) : Prop := key.toList <:+: text.toList

instance (text key : String) : Decidable (Holds text key) := inferInstanceAs (Decidable (_ <:+: _))

/-- A private key as `age-keygen` prints it. -/
structure AgeKey (key : String) : Prop where
  begins : "AGE-SECRET-KEY-1".toList <+: key.toList
  letters : ∀ c ∈ key.toList, c.isUpper = true ∨ c.isDigit = true ∨ c = '-'

variable {rt : Runtime} {searchPath : Option String} {ageKey tempRoot path source : String}

theorem AgeKey.ne_nil (h : AgeKey ageKey) : ageKey.toList ≠ [] := by
  intro hnil
  have := h.begins
  rw [hnil] at this
  exact absurd (List.prefix_nil.1 this) (by decide)

theorem AgeKey.ne_empty (h : AgeKey ageKey) : ageKey ≠ "" := fun hempty => h.ne_nil (by rw [hempty]; rfl)

/-- A text in small letters, blanks and brackets has no letter of a key. -/
theorem AgeKey.apart (h : AgeKey ageKey) {text : List Char}
    (htext : text.all (fun c => !c.isUpper && !c.isDigit && c != '-') = true) : ∀ c ∈ ageKey.toList, c ∉ text := by
  intro c hc hmem
  have hletter := h.letters c hc
  have := List.all_eq_true.1 htext c hmem
  simp only [Bool.and_eq_true, Bool.not_eq_true', bne_iff_ne] at this
  simp_all

theorem AgeKey.not_holds_redacted (h : AgeKey ageKey) (text : String) :
    ¬ Holds (redactAgeKey text ageKey) ageKey := by
  rw [Holds, redactAgeKey, if_neg h.ne_empty, String.toList_ofList]
  exact not_infix_redacted h.ne_nil (h.apart (by decide)) (by decide) _

theorem AgeKey.not_holds_codeText (h : AgeKey ageKey) (code : Option Nat) :
    ¬ Holds ("sops exited " ++ codeText code) ageKey := by
  intro hholds
  have hA : 'A' ∈ ageKey.toList := h.begins.subset (by decide)
  have hmem := hholds.subset hA
  rw [String.toList_append, List.mem_append] at hmem
  rcases hmem with hmem | hmem
  · exact absurd hmem (by decide)
  · cases code with
    | none => exact absurd hmem (by decide)
    | some n =>
      have hdigits : 'A' ∈ Nat.toDigits 10 n := by simpa [codeText] using hmem
      exact absurd (Nat.isDigit_of_mem_toDigits (by decide) (by decide) hdigits) (by decide)

theorem AgeKey.not_holds_diagnosis (h : AgeKey ageKey) (finished : Finished) :
    ¬ Holds (diagnosis ageKey finished) ageKey := by
  rw [diagnosis]
  split
  · exact h.not_holds_codeText _
  · exact h.not_holds_redacted _

theorem AgeKey.not_holds_failure (h : AgeKey ageKey) (hpath : ¬ Holds path ageKey) {said : String}
    (hsaid : ¬ Holds said ageKey) : ¬ Holds ("could not decrypt " ++ path ++ ": " ++ said) ageKey := by
  intro hholds
  rw [Holds, String.append_assoc, String.append_assoc, String.toList_append] at hholds
  have hrest := infix_of_infix_append h.ne_nil (h.apart (by decide)) hholds
  rw [String.toList_append, String.toList_append] at hrest
  have hcolons : ∀ c ∈ ageKey.toList, c ∉ [':'] := h.apart (by decide)
  have hcolon : ':' ∉ ageKey.toList := fun hmem => hcolons _ hmem (List.mem_singleton_self _)
  rcases infix_or_infix_of_append hcolon hrest with hinfix | hinfix
  · exact hpath hinfix
  · exact hsaid (infix_of_infix_append (a := [' ']) h.ne_nil (h.apart (by decide)) hinfix)

/-! ### What a call leaves behind -/

/-- The directory that an operation has made. -/
def made : Visit lang → Option String
  | ⟨.mkdtemp _, .ok dir, _⟩ => some dir
  | _ => none

/-- How a process ended. -/
def ended : Visit lang → Option Finished
  | ⟨.run _, .ok finished, _⟩ => some finished
  | _ => none

def threw (v : Visit lang) : Option Error :=
  match v.result with
  | .ok _ => none
  | .error e => some e

/-- No message of its own has the key; nothing but the ciphertext is written; a directory that was made is removed
last; and a text that is not the document itself is what a process that succeeded has printed. -/
structure Discreet (ageKey source : String) (vs : List (Visit lang)) (r : Except Error String) : Prop where
  messages : ∀ e, r = .error e → (∃ v ∈ vs, threw v = some e) ∨ ¬ Holds e.message ageKey
  written : ∀ v ∈ vs, ∀ file text, v.op = .writeFile file text → text = source
  removed : ∀ v ∈ vs, ∀ dir, made v = some dir → ∃ last, vs.getLast? = some last ∧ last.op = .rm dir
  given : ∀ text, r = .ok text → text = source ∨
    ∃ v ∈ vs, ∃ finished, ended v = some finished ∧ finished.code = some 0 ∧ text = finished.stdout

variable {step : (o : Op) → Unit → Except Error o.Res → Unit → Prop} {others : Unit → Unit → Prop} {s t : Unit}
  {vs : List (Visit lang)} {α : Type}

/-- What was done with the ciphertext of a call, after its directory was made and before that is removed. -/
theorem traces_withCiphertextFile {fn : String → Prog lang α} {r : Except Error α}
    (h : Traces (S := lang) step others (withCiphertextFile tempRoot source fn) s vs r t) :
    (∃ v e, vs = [v] ∧ threw v = some e ∧ r = .error e ∧ made v = none ∧ ∃ start, v.op = .mkdtemp start) ∨
      ∃ first dir body last q s' t', vs = first :: (body ++ [last]) ∧ made first = some dir ∧
        (∃ start, first.op = .mkdtemp start) ∧ last.op = .rm dir ∧
        Traces (S := lang) step others (do
          op (.writeFile (dir ++ "/document.yaml") source)
          fn (dir ++ "/document.yaml")) s' body q t' ∧ ((∃ e, threw last = some e ∧ r = .error e) ∨ r = q) := by
  rcases traces_bind.1 h with ⟨dir, vs₁, s', vs₂, hmake, hrest, rfl⟩ | ⟨e, rfl, hmake⟩
  · obtain ⟨states, -, rfl⟩ := traces_op.1 hmake
    obtain ⟨q, body, t', vs₃, hbody, hremove, rfl⟩ := traces_attempt_bind.1 hrest
    rcases traces_bind.1 hremove with ⟨u, vs₄, t'', vs₅, hrm, hdone, rfl⟩ | ⟨e, rfl, hrm⟩
    · obtain ⟨states', -, rfl⟩ := traces_op.1 hrm
      obtain ⟨rfl, rfl, rfl⟩ := traces_done.1 hdone
      rw [List.append_nil]
      exact .inr ⟨_, dir, body, _, _, s', t', rfl, rfl, ⟨_, rfl⟩, rfl, hbody, .inr rfl⟩
    · obtain ⟨states', -, rfl⟩ := traces_op.1 hrm
      exact .inr ⟨_, dir, body, _, _, s', t', rfl, rfl, ⟨_, rfl⟩, rfl, hbody, .inl ⟨e, rfl, rfl⟩⟩
  · obtain ⟨states, -, rfl⟩ := traces_op.1 hmake
    exact .inl ⟨_, e, rfl, rfl, rfl, rfl, _, rfl⟩

theorem traces_command {file : String} {command : DecryptCommand} {q : Except Error Finished}
    (h : Traces (S := lang) step others (do op (.writeFile file source); op (.run command)) s vs q t) :
    (∀ v ∈ vs, made v = none ∧ ∀ file text, v.op = .writeFile file text → text = source) ∧
      (∀ e, q = .error e → ∃ v ∈ vs, threw v = some e) ∧
        ∀ finished, q = .ok finished → ∃ v ∈ vs, ended v = some finished := by
  rcases traces_bind.1 h with ⟨u, vs₁, s', vs₂, hwrite, hrun, rfl⟩ | ⟨e, rfl, hwrite⟩
  · obtain ⟨states, -, rfl⟩ := traces_op.1 hwrite
    obtain ⟨states', -, rfl⟩ := traces_op.1 hrun
    refine ⟨?_, ?_, ?_⟩
    · simp [made]
    · rintro e rfl
      exact ⟨_, List.mem_append_right _ (List.mem_singleton_self _), rfl⟩
    · rintro finished rfl
      exact ⟨_, List.mem_append_right _ (List.mem_singleton_self _), rfl⟩
  · obtain ⟨states, -, rfl⟩ := traces_op.1 hwrite
    refine ⟨?_, ?_, ?_⟩
    · simp [made]
    · rintro e' he
      cases he
      exact ⟨_, List.mem_singleton_self _, rfl⟩
    · intro finished hfinished
      cases hfinished

/-- The part that has the ciphertext on the disk. -/
theorem traces_decryption {command : String → DecryptCommand} {q : Except Error Finished}
    (h : Traces (S := lang) step others (withCiphertextFile tempRoot source fun file => op (.run (command file)))
      s vs q t) :
    (∀ e, q = .error e → ∃ v ∈ vs, threw v = some e) ∧
      (∀ v ∈ vs, ∀ file text, v.op = .writeFile file text → text = source) ∧
      (∀ v ∈ vs, ∀ dir, made v = some dir → ∃ last, vs.getLast? = some last ∧ last.op = .rm dir) ∧
      ∀ finished, q = .ok finished → ∃ v ∈ vs, ended v = some finished := by
  rcases traces_withCiphertextFile h with ⟨v, e, rfl, hthrew, rfl, hmade, start, hop⟩ |
    ⟨first, dir, body, last, q', s', t', rfl, hmade, ⟨start, hfirst⟩, hlast, hbody, hend⟩
  · refine ⟨fun e' he => ?_, ?_, ?_, fun finished hfinished => ?_⟩
    · cases he
      exact ⟨v, List.mem_singleton_self v, hthrew⟩
    · simp [hop]
    · simp [hmade]
    · cases hfinished
  · obtain ⟨hquiet, hthrew, hended⟩ := traces_command hbody
    have hmem : ∀ v ∈ body, v ∈ first :: (body ++ [last]) := fun v hv =>
      List.mem_cons_of_mem _ (List.mem_append_left _ hv)
    have hlast_mem : last ∈ first :: (body ++ [last]) := by simp
    have hlast_made : made last = none := by
      obtain ⟨o, result, states⟩ := last
      obtain rfl := hlast
      rfl
    refine ⟨fun e he => ?_, ?_, ?_, fun finished hfinished => ?_⟩
    · rcases hend with ⟨e', hthrew', rfl⟩ | rfl
      · cases he
        exact ⟨last, hlast_mem, hthrew'⟩
      · obtain ⟨v, hv, hv'⟩ := hthrew e he
        exact ⟨v, hmem v hv, hv'⟩
    · intro v hv file text hop
      rcases List.mem_cons.1 hv with rfl | hv
      · rw [hfirst] at hop
        cases hop
      · rcases List.mem_append.1 hv with hv | hv
        · exact (hquiet v hv).2 file text hop
        · rw [List.mem_singleton.1 hv, hlast] at hop
          cases hop
    · intro v hv dir' hdir
      refine ⟨last, by rw [List.getLast?_cons, List.getLast?_concat]; rfl, ?_⟩
      rcases List.mem_cons.1 hv with rfl | hv
      · rw [hlast, Option.some.inj (hmade.symm.trans hdir)]
      · rcases List.mem_append.1 hv with hv | hv
        · rw [(hquiet v hv).1] at hdir
          cases hdir
        · rw [List.mem_singleton.1 hv, hlast_made] at hdir
          cases hdir
    · rcases hend with ⟨e', -, rfl⟩ | rfl
      · cases hfinished
      · obtain ⟨v, hv, hv'⟩ := hended finished hfinished
        exact ⟨v, hmem v hv, hv'⟩

/-- Whatever the operations answer, and however other calls run beside it. -/
theorem decrypt_discreet (hkey : AgeKey ageKey) (hpath : ¬ Holds path ageKey) {r : Except Error String}
    (h : Traces (S := lang) step others (decrypt rt searchPath ageKey tempRoot path source) s vs r t) :
    Discreet ageKey source vs r := by
  rw [decrypt] at h
  split at h
  · obtain ⟨rfl, rfl, rfl⟩ := traces_pure.1 h
    exact ⟨fun e he => (by cases he), by simp, by simp, fun text htext => .inl (Except.ok.inj htext).symm⟩
  rw [if_neg hkey.ne_empty] at h
  rcases traces_bind.1 h with ⟨finished, vs₁, s', vs₂, hfile, hrest, rfl⟩ | ⟨e, rfl, hfile⟩
  · obtain ⟨-, hwritten, hremoved, hended⟩ := traces_decryption hfile
    split at hrest
    · rename_i hcode
      obtain ⟨rfl, rfl, rfl⟩ := traces_pure.1 hrest
      rw [List.append_nil]
      refine ⟨fun e he => (by cases he), hwritten, hremoved, fun text htext => .inr ?_⟩
      obtain ⟨v, hv, hfinished⟩ := hended finished rfl
      exact ⟨v, hv, finished, hfinished, hcode, (Except.ok.inj htext).symm⟩
    · obtain ⟨rfl, rfl, rfl⟩ := traces_done.1 hrest
      rw [List.append_nil]
      refine ⟨fun e he => .inr ?_, hwritten, hremoved, fun text htext => by cases htext⟩
      cases he
      exact hkey.not_holds_failure hpath (hkey.not_holds_diagnosis finished)
  · obtain ⟨hthrew, hwritten, hremoved, -⟩ := traces_decryption hfile
    refine ⟨fun e' he => .inl ?_, hwritten, hremoved, fun text htext => by cases htext⟩
    cases he
    exact hthrew e rfl

/-- A runtime that reads the document below. -/
def sealedRuntime : Runtime where
  parseYaml _ := .ok (.obj [("sops", .null)])
  stringifyYaml _ := ""
  urlProtocol _ := none
  numberText _ := ""

/-- A process that prints the key it was given. -/
def chatty : Finished := ⟨"", "no identity matched AGE-SECRET-KEY-1QZ", some 128⟩

theorem ageKey_sample : AgeKey "AGE-SECRET-KEY-1QZ" where
  begins := by decide
  letters := by
    have hall : ("AGE-SECRET-KEY-1QZ".toList.all fun c => c.isUpper || c.isDigit || c == '-') = true := by decide
    intro c hc
    have hletter := List.all_eq_true.1 hall c hc
    simpa [or_assoc] using hletter

/-- It is run on a document at `a.yaml`. -/
def chattyVisits : List (Visit lang) :=
  [⟨.mkdtemp ("/tmp" ++ "/config-sops-"), .ok "/tmp/d", [(), ()]⟩,
    ⟨.writeFile ("/tmp/d" ++ "/document.yaml") "sops: null", .ok (), [(), ()]⟩,
    ⟨.run (buildDecryptCommand none "AGE-SECRET-KEY-1QZ" ("/tmp/d" ++ "/document.yaml")), .ok chatty, [(), ()]⟩,
    ⟨.rm "/tmp/d", .ok (), [(), ()]⟩]

theorem traces_chatty : Traces (S := lang) (fun _ _ _ _ => True) (fun _ _ => True)
    (decrypt sealedRuntime none "AGE-SECRET-KEY-1QZ" "/tmp" "a.yaml" "sops: null") () chattyVisits
    (.error (.of "could not decrypt a.yaml: no identity matched [redacted age key]")) () := by
  have hsaid : diagnosis "AGE-SECRET-KEY-1QZ" chatty = "no identity matched [redacted age key]" := by decide
  rw [decrypt, if_neg (by decide), if_neg (by decide)]
  refine .await (.here _) trivial (.here _) ?_
  refine .await (.here _) trivial (.here _) ?_
  refine .await (.here _) trivial (.here _) ?_
  refine .await (.here _) trivial (.here _) ?_
  show Traces (S := lang) _ _ (Prog.done (.error (Error.of ("could not decrypt " ++ "a.yaml" ++ ": " ++
    diagnosis "AGE-SECRET-KEY-1QZ" chatty)))) () [] _ ()
  rw [hsaid]
  exact .done _ _

theorem decrypt_discreet_chatty : Discreet "AGE-SECRET-KEY-1QZ" "sops: null" chattyVisits
    (.error (.of "could not decrypt a.yaml: no identity matched [redacted age key]")) :=
  decrypt_discreet ageKey_sample (by decide) traces_chatty

end ConfigRegistry.Store.Sops
