/-
FragmentAssembly/Proofs/Command/JsonOutput.lean

What is written with the flag for a JSON string.  It is one line, the literal of the document that
is written without the flag (`Program.json_output_decodes`).

A literal is a body between two quotes, and a body is put together from characters that stand for
themselves and from escapes (`Text.JsonString.IsBody`), so a quote or a backslash stands in it only
as part of an escape, and no control character stands in it at all.  What is written for one
character is one piece of a body (`Text.JsonString.IsBody.escape_append`), and reads back.
-/
import FragmentAssembly.Proofs.Command.Build
import FragmentAssembly.Proofs.Command.JsonFlag

namespace FragmentAssembly

/-! ### Literals -/

namespace Text.JsonString

/-- The digits of a number in an escape. -/
def hexDigits : List Char := "0123456789abcdefABCDEF".toList

/-- What may stand between the quotes of a literal. -/
inductive IsBody : List Char → Prop where
  | nil : IsBody []
  /-- A character that stands for itself. -/
  | plain {c : Char} {rest : List Char} (hquote : c ≠ '"') (hbackslash : c ≠ '\\')
      (hcontrol : 0x20 ≤ c.toNat) (h : IsBody rest) : IsBody (c :: rest)
  /-- An escape by a letter or a sign. -/
  | letter {c : Char} {rest : List Char} (hc : c ∈ ['"', '\\', '/', 'b', 'f', 'n', 'r', 't'])
      (h : IsBody rest) : IsBody ('\\' :: c :: rest)
  /-- An escape by a number. -/
  | number {digits rest : List Char} (hlength : digits.length = 4)
      (hdigits : ∀ digit ∈ digits, digit ∈ hexDigits) (h : IsBody rest) :
      IsBody ('\\' :: 'u' :: (digits ++ rest))

/-- A JSON string literal. -/
def IsLiteral (text : String) : Prop :=
  ∃ body, text.toList = '"' :: (body ++ ['"']) ∧ IsBody body

theorem hexDigit_mem : ∀ n < 16, hexDigit n ∈ hexDigits := by decide

namespace IsBody

variable {body : List Char}

/-- What is written for a character is one piece of a body. -/
theorem escape_append (h : IsBody body) (c : Char) : IsBody (escape c ++ body) := by
  unfold escape
  split
  · exact .letter (by decide) h
  · exact .letter (by decide) h
  · exact .letter (by decide) h
  · exact .letter (by decide) h
  · exact .letter (by decide) h
  · exact .letter (by decide) h
  · exact .letter (by decide) h
  · rename_i hquote hbackslash _ _ _ _ _
    split
    · rename_i hcontrol
      refine @number ['0', '0', hexDigit (c.toNat / 16), hexDigit (c.toNat % 16)] body rfl ?_ h
      have hhigh := hexDigit_mem (c.toNat / 16) (by omega)
      have hlow := hexDigit_mem (c.toNat % 16) (by omega)
      have hzero : '0' ∈ hexDigits := by decide
      simp [hhigh, hlow, hzero]
    · rename_i hcontrol
      exact .plain hquote hbackslash (Nat.not_lt.1 hcontrol) h

theorem flatMap_escape (cs : List Char) : IsBody (cs.flatMap escape) := by
  induction cs with
  | nil => exact .nil
  | cons c cs ih =>
    rw [List.flatMap_cons]
    exact ih.escape_append c

/-- No control character stands in a body. -/
theorem le_toNat (h : IsBody body) : ∀ c ∈ body, 0x20 ≤ c.toNat := by
  induction h with
  | nil => simp
  | plain _ _ hcontrol _ ih => exact List.forall_mem_cons.2 ⟨hcontrol, ih⟩
  | letter hc _ ih =>
    have hletters : ∀ c ∈ ['"', '\\', '/', 'b', 'f', 'n', 'r', 't'], 0x20 ≤ c.toNat := by simp
    exact List.forall_mem_cons.2 ⟨by decide, List.forall_mem_cons.2 ⟨hletters _ hc, ih⟩⟩
  | number _ hdigits _ ih =>
    have hall : hexDigits.all (0x20 ≤ ·.toNat) = true := by decide
    have hhex : ∀ c ∈ hexDigits, 0x20 ≤ c.toNat := fun c hc =>
      of_decide_eq_true (List.all_eq_true.1 hall c hc)
    refine List.forall_mem_cons.2 ⟨by decide, List.forall_mem_cons.2 ⟨by decide, ?_⟩⟩
    exact List.forall_mem_append.2 ⟨fun c hc => hhex c (hdigits c hc), ih⟩

end IsBody

theorem isLiteral_encode (text : String) : IsLiteral (encode text) :=
  ⟨text.toList.flatMap escape, by simp [encode], .flatMap_escape _⟩

/-- A literal is on one line. -/
theorem IsLiteral.le_toNat {text : String} (h : IsLiteral text) :
    ∀ c ∈ text.toList, 0x20 ≤ c.toNat := by
  obtain ⟨body, htext, hbody⟩ := h
  rw [htext]
  exact List.forall_mem_cons.2 ⟨by decide,
    List.forall_mem_append.2 ⟨hbody.le_toNat, List.forall_mem_singleton.2 (by decide)⟩⟩

theorem encode_injective : Function.Injective encode := by
  intro text other h
  have hdecode := congrArg decode? h
  rw [decode?_encode, decode?_encode] at hdecode
  exact Option.some.inj hdecode

end Text.JsonString

/-! ### The same build with the flag -/

variable {t : FileTree}

/-- With the flag a build gives the literal of the document. -/
theorem Build.outcome_run_withJson {a : BuildArguments} (hjson : a.json = false) :
    (run t { a with json := true }).outcome =
      (run t a).outcome.map Text.JsonString.encode := by
  have hoperation : operation t { a with json := true } = operation t a := rfl
  rw [run, run, hoperation, Logged.outcome_bind, Logged.outcome_bind]
  rcases (operation t a).outcome with e | op
  · rfl
  · show Except.ok (render true op.document) = Except.ok (Text.JsonString.encode (render a.json _))
    rw [hjson]
    rfl

namespace Program

open Text.JsonString (encode decode? IsLiteral)

/-- A line asks for a build without the flag, or is refused. -/
def AsksPlainBuild (line : List String) : Prop :=
  match Command.ofLine line with
  | .ok ⟨_, some a⟩ => a.json = false
  | .ok ⟨_, none⟩ => False
  | .error (.refused _) => True
  | .error _ => False

variable {line flagged : List String}

theorem exitCode_of_refused (t : FileTree) (setting : Option String) {r : ArgumentError}
    (hline : Command.ofLine line = .error (.refused r)) : (run t line setting).exitCode = 2 := by
  rw [run, hline]
  rfl

/-- **JSON output decodes to the plain output.**  A build with the flag for a JSON string ends as
the build without it does, and where that writes a document, it writes the literal of the document
on one line; reading the literal gives the document back, and no other text has this literal. -/
theorem json_output_decodes (hadded : Command.AddsJson line flagged)
    (hplain : AsksPlainBuild line) (t : FileTree) (setting : Option String) :
    (run t flagged setting).exitCode = (run t line setting).exitCode ∧
      ((run t line setting).exitCode = 0 → ∃ document,
        (run t line setting).stdout = document ++ "\n" ∧
          (run t flagged setting).stdout = encode document ++ "\n" ∧
          IsLiteral (encode document) ∧ (∀ c ∈ (encode document).toList, 0x20 ≤ c.toNat) ∧
          decode? (encode document) = some document ∧
          ∀ other, encode other = encode document → other = document) := by
  obtain ⟨haccepted, hrefused⟩ := Command.ofLine_of_addsJson hadded
  unfold AsksPlainBuild at hplain
  split at hplain
  · rename_i isVerbose a hline
    have hflagged := haccepted isVerbose a hline hplain
    have hrun := Build.outcome_run_withJson (t := t) hplain
    rcases hbuilt : (Build.run t a).outcome with e | document
    · rw [hbuilt] at hrun
      obtain ⟨hcode, -⟩ := run_build_of_error setting hline hbuilt
      obtain ⟨hcode', -⟩ := run_build_of_error setting hflagged hrun
      refine ⟨hcode'.trans hcode.symm, fun hzero => ?_⟩
      cases hcode.symm.trans hzero
    · rw [hbuilt] at hrun
      obtain ⟨hcode, hout⟩ := run_build_of_ok setting hline hbuilt
      obtain ⟨hcode', hout'⟩ := run_build_of_ok setting hflagged hrun
      have hliteral := Text.JsonString.isLiteral_encode document
      exact ⟨hcode'.trans hcode.symm, fun _ => ⟨document, hout, hout', hliteral,
        hliteral.le_toNat, Text.JsonString.decode?_encode document,
        fun other h => Text.JsonString.encode_injective h⟩⟩
  · exact hplain.elim
  · rename_i r hline
    obtain ⟨r', hflagged⟩ := hrefused r hline
    have hcode := exitCode_of_refused t setting hline
    refine ⟨(exitCode_of_refused t setting hflagged).trans hcode.symm, fun hzero => ?_⟩
    cases hcode.symm.trans hzero
  · exact hplain.elim

theorem json_output_decodes_shelf :
    let line := ["build", "-f", "d", "-f", "d//a.gql", "-f", "z.gql", "op"]
    let flagged := ["build", "-f", "d", "--json", "-f", "d//a.gql", "-f", "z.gql", "op"]
    (run shelf line none).stdout = "{ ...A }\nfragment A on T { y }\n" ∧
      (run shelf flagged none).exitCode = 0 ∧
      (run shelf flagged none).stdout = "\"{ ...A }\\nfragment A on T { y }\"\n" := by
  intro line flagged
  have hline : Command.ofLine line = .ok ⟨false, some shelved⟩ := rfl
  have hplain : AsksPlainBuild line := by
    rw [AsksPlainBuild, hline]
    rfl
  have hbefore : Command.TakesOption ["-f", "d"] := by
    intro s hread
    cases hread
    exact ⟨by simp, rfl⟩
  have hadded : Command.AddsJson line flagged :=
    @Command.AddsJson.intro [] _ (by simp) hbefore ["-f", "d//a.gql", "-f", "z.gql", "op"]
  obtain ⟨hzero, hout⟩ := run_build_of_ok none hline run_shelf
  obtain ⟨hcode, hdecodes⟩ := json_output_decodes hadded hplain shelf none
  obtain ⟨document, hdocument, hliteral, -⟩ := hdecodes hzero
  obtain rfl := (String.append_left_inj _).1 (hdocument.symm.trans hout)
  exact ⟨hout, hcode.trans hzero, hliteral.trans (by decide)⟩

end Program

end FragmentAssembly
