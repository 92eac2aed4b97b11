/-
FragmentAssembly/Proofs/Operation/ReadBack.lean

Operations that can be read back.  In a plain operation (`OperationDraft.Plain`) every part shows
where it ends: a name ends at the first character that no name has, the variables at the first
closing parenthesis, one of them at the next comma, and the body begins with a brace, which neither
a name nor a list of variables does.  Each function of the reader is met by one lemma, which gives
it the text of its part and whatever may follow; together they read the whole definition
(`OperationDraft.read?_definition`).
-/
import FragmentAssembly.Operation.Reading
import FragmentAssembly.Proofs.Operation.Settings
import FragmentAssembly.Proofs.Text.Runs

namespace FragmentAssembly

open Text

/-! ### Where a part ends -/

section Ends

variable {p : Char → Bool} {run rest : List Char} {c : Char}

theorem takeWhile_of_end (hrun : ∀ c ∈ run, p c = true) (hc : p c = false) :
    (run ++ c :: rest).takeWhile p = run :=
  takeWhile_run_append hrun hc

theorem dropWhile_of_end (hrun : ∀ c ∈ run, p c = true) (hc : p c = false) :
    (run ++ c :: rest).dropWhile p = c :: rest :=
  dropWhile_run_append hrun hc

theorem bne_of_notMem (h : c ∉ run) : ∀ d ∈ run, (d != c) = true := by
  intro d hd
  rw [bne_iff_ne]
  rintro rfl
  exact h hd

end Ends

/-- A character that no name has stands in no run of name characters. -/
theorem notMem_of_isNameChar {run : List Char} {c : Char} (h : ∀ c ∈ run, isNameChar c = true)
    (hc : isNameChar c = false) : c ∉ run := by
  intro hmem
  rw [h c hmem] at hc
  cases hc

/-! ### Lists with something between -/

section Between

variable {pieces : List (List Char)} {sep : List Char} {c : Char}

/-- Pieces with a comma and a space between them are spaced pieces with a comma between them. -/
theorem cons_intercalate (c d : Char) (hne : pieces ≠ []) :
    d :: [c, d].intercalate pieces = [c].intercalate (pieces.map (d :: ·)) := by
  induction pieces with
  | nil => exact absurd rfl hne
  | cons piece rest ih =>
    cases rest with
    | nil => simp
    | cons next rest =>
      rw [List.map_cons, List.map_cons, List.intercalate_cons_cons, List.intercalate_cons_cons,
        ← List.map_cons, ← ih (List.cons_ne_nil _ _)]
      simp

theorem notMem_intercalate (hsep : c ∉ sep) (h : ∀ piece ∈ pieces, c ∉ piece) :
    c ∉ sep.intercalate pieces := by
  induction pieces with
  | nil => simp
  | cons piece rest ih =>
    obtain ⟨hpiece, hrest⟩ := List.forall_mem_cons.1 h
    cases rest with
    | nil => simpa using hpiece
    | cons next rest =>
      rw [List.intercalate_cons_cons]
      simp only [List.mem_append, not_or]
      exact ⟨⟨hpiece, hsep⟩, ih hrest⟩

end Between

/-! ### Variables -/

namespace Variable

variable {v : Variable} {vs : List Variable}

/-- A variable whose name is made of name characters, and whose type ends where the variable
does. -/
structure Plain (v : Variable) : Prop where
  name : ∀ c ∈ v.name.toList, isNameChar c = true
  comma : ',' ∉ v.typeName.toList
  parenthesis : ')' ∉ v.typeName.toList

theorem toList_text (v : Variable) :
    v.text.toList = '$' :: (v.name.toList ++ ':' :: ' ' :: v.typeName.toList) := by
  simp [text]

theorem Plain.notMem_text (h : v.Plain) : ',' ∉ v.text.toList ∧ ')' ∉ v.text.toList := by
  have hcomma := notMem_of_isNameChar h.name (c := ',') (by decide)
  have hparenthesis := notMem_of_isNameChar h.name (c := ')') (by decide)
  simp [toList_text, hcomma, hparenthesis, h.comma, h.parenthesis]

theorem Plain.read?_text (h : v.Plain) : read? (' ' :: v.text.toList) = some v := by
  have hname := bne_of_notMem (notMem_of_isNameChar h.name (c := ':') (by decide))
  have hcolon : (':' != ':') = false := bne_self_eq_false ':'
  rw [toList_text]
  simp only [read?, takeWhile_of_end hname hcolon, dropWhile_of_end hname hcolon,
    String.ofList_toList]

theorem mapM_read?_text (h : ∀ v ∈ vs, v.Plain) :
    (vs.map fun v => ' ' :: v.text.toList).mapM read? = some vs := by
  induction vs with
  | nil => rfl
  | cons v vs ih =>
    obtain ⟨hv, hvs⟩ := List.forall_mem_cons.1 h
    rw [List.map_cons, List.mapM_cons, hv.read?_text, ih hvs]
    rfl

theorem toList_texts (vs : List Variable) :
    (", ".intercalate (vs.map text)).toList =
      [',', ' '].intercalate (vs.map fun v => v.text.toList) := by
  rw [String.toList_intercalate, List.map_map]
  rfl

/-- The pieces between the commas are the variables. -/
theorem readAll?_texts (hne : vs ≠ []) (h : ∀ v ∈ vs, v.Plain) :
    readAll? (", ".intercalate (vs.map text)).toList = some vs := by
  have hpieces : ∀ piece ∈ (vs.map fun v => ' ' :: v.text.toList), ',' ∉ piece := by
    intro piece hpiece
    obtain ⟨v, hv, rfl⟩ := List.mem_map.1 hpiece
    simpa using (h v hv).notMem_text.1
  rw [readAll?, toList_texts, cons_intercalate _ _ (by simpa using hne), List.map_map]
  show ((([','].intercalate (vs.map fun v => ' ' :: v.text.toList)).splitOn ',').mapM read?) = _
  rw [List.splitOn_intercalate ',' hpieces (by simpa using hne), mapM_read?_text h]

theorem parenthesis_notMem_texts (h : ∀ v ∈ vs, v.Plain) :
    ')' ∉ (", ".intercalate (vs.map text)).toList := by
  rw [toList_texts]
  refine notMem_intercalate (by decide) fun piece hpiece => ?_
  obtain ⟨v, hv, rfl⟩ := List.mem_map.1 hpiece
  exact (h v hv).notMem_text.2

end Variable

/-! ### Operations -/

namespace OperationDraft

variable {d : OperationDraft} {body : String} {vs : List Variable} {name : String}

/-- An operation whose parts show where they end. -/
structure Plain (d : OperationDraft) : Prop where
  name : ∀ name, d.name = some name → name ≠ "" ∧ ∀ c ∈ name.toList, isNameChar c = true
  declared : ∀ v ∈ d.declared, v.Plain
  body : d.body.toList.head? = some '{'

theorem readRest?_parameters (hvs : ∀ v ∈ vs, v.Plain) (hbody : body.toList.head? = some '{') :
    readRest? ((parameters vs).toList ++ body.toList) = some (vs, body) := by
  cases vs with
  | nil =>
    obtain ⟨rest, hrest⟩ := List.head?_eq_some_iff.1 hbody
    simp only [parameters, List.isEmpty_nil, if_true, String.toList_empty, List.nil_append]
    rw [readRest?]
    · rw [String.ofList_toList]
    · intro cs heq
      rw [hrest] at heq
      cases heq
  | cons v vs =>
    have hend := bne_of_notMem (Variable.parenthesis_notMem_texts hvs)
    have htext : (parameters (v :: vs)).toList ++ body.toList =
        '(' :: ((", ".intercalate ((v :: vs).map Variable.text)).toList ++
          ')' :: ' ' :: body.toList) := by
      simp only [parameters, List.isEmpty_cons]
      simp
    rw [htext, readRest?, takeWhile_of_end hend (bne_self_eq_false ')'),
      dropWhile_of_end hend (bne_self_eq_false ')')]
    simp only [Variable.readAll?_texts (List.cons_ne_nil v vs) hvs, Option.map_some,
      String.ofList_toList]

theorem isPrefixOf?_append (word rest : List Char) : word.isPrefixOf? (word ++ rest) = some rest := by
  induction word with
  | nil => cases rest <;> rfl
  | cons c word ih => simp [List.isPrefixOf?, ih]

/-- A body is no operation with a header. -/
theorem read?_of_body (kind : OperationKind) (hbody : body.toList.head? = some '{') :
    read? kind body = some ⟨body, none, []⟩ := by
  obtain ⟨rest, hrest⟩ := List.head?_eq_some_iff.1 hbody
  rw [read?, hrest]
  cases kind <;> rfl

theorem read?_of_word {kind : OperationKind} {text : String} {rest : List Char}
    (htext : text.toList = (kind.word ++ " ").toList ++ rest) :
    read? kind text = readNamed? rest := by
  rw [read?, htext, isPrefixOf?_append]

theorem readNamed?_of_name {rest : List Char} (hname : ∀ c ∈ name.toList, isNameChar c = true)
    (hne : name ≠ "") (hrest : readRest? rest = some (vs, body)) :
    readNamed? (name.toList ++ ' ' :: rest) = some ⟨body, some name, vs⟩ := by
  rw [readNamed?, takeWhile_of_end hname (by decide), dropWhile_of_end hname (by decide)]
  split
  · rename_i hempty
    exact absurd (String.toList_eq_nil_iff.1 hempty) hne
  · rename_i _ heq _
    cases heq
    simp only [hrest, Option.map_some, String.ofList_toList]
  · rename_i hnot
    exact absurd rfl (hnot rest)

theorem readNamed?_of_parenthesis {rest : List Char}
    (hrest : readRest? ('(' :: rest) = some (vs, body)) :
    readNamed? ('(' :: rest) = some ⟨body, none, vs⟩ := by
  have hstop : isNameChar '(' = false := by decide
  rw [readNamed?, List.takeWhile_cons_of_neg (by simp [hstop]),
    List.dropWhile_cons_of_neg (by simp [hstop])]
  simp only [hrest, Option.map_some]

theorem Plain.givenName?_eq (h : d.Plain) : d.givenName? = d.name := by
  rw [givenName?]
  rcases hname : d.name with - | name
  · rfl
  · exact Option.filter_some_pos (by simpa using (h.name name hname).1)

/-- What was written for a plain operation is read as it was. -/
theorem read?_definition (kind : OperationKind) (h : d.Plain) :
    read? kind ((OperationInput.draft d).definition kind) = some d := by
  have hrest := readRest?_parameters h.declared h.body
  rw [OperationInput.definition, header, h.givenName?_eq]
  obtain ⟨body, - | name, vs⟩ := d
  · rcases vs with - | ⟨v, vs⟩
    · -- no header
      exact read?_of_body kind h.body
    · have htext : (opening kind none (v :: vs) ++ parameters (v :: vs) ++ body).toList =
          (kind.word ++ " ").toList ++ ((parameters (v :: vs)).toList ++ body.toList) := by
        simp [opening]
      obtain ⟨rest, hparenthesis⟩ :
          ∃ rest, (parameters (v :: vs)).toList ++ body.toList = '(' :: rest := by
        simp [parameters]
      rw [hparenthesis] at hrest
      rw [read?_of_word htext, hparenthesis, readNamed?_of_parenthesis hrest]
  · obtain ⟨hne, hchars⟩ := h.name name rfl
    have htext : (opening kind (some name) vs ++ parameters vs ++ body).toList =
        (kind.word ++ " ").toList ++
          (name.toList ++ ' ' :: ((parameters vs).toList ++ body.toList)) := by
      simp [opening]
    rw [read?_of_word htext, readNamed?_of_name hchars hne hrest]

end OperationDraft

namespace Registry

open OperationDraft

/-- The definition of a plain operation determines it: reading it gives back the name, the
variables in their order and the body, so no other plain operation of the kind has the same
definition. -/
theorem definition_determines_draft (kind : OperationKind) {d : OperationDraft} (hd : d.Plain) :
    (∀ (r : Registry) op, (r.assemble kind (.draft d)).outcome = .ok op →
        op.name = d.name ∧ read? kind op.definition = some d) ∧
      ∀ other : OperationDraft, other.Plain →
        (OperationInput.draft other).definition kind = (OperationInput.draft d).definition kind →
          other = d := by
  constructor
  · intro r op hop
    obtain ⟨fs, -, rfl⟩ := exists_of_assemble hop
    exact ⟨hd.givenName?_eq, read?_definition kind hd⟩
  · intro other hother hsame
    have hread := read?_definition kind hother
    rw [hsame, read?_definition kind hd] at hread
    exact (Option.some.inj hread).symm

/-- A name that is the word of the kind, and types with signs of a header in them. -/
def wordy : OperationDraft :=
  ⟨"{ a(b: $c) }", some "query", [⟨"c", "[ID!]! = [\"$d: (\"]"⟩, ⟨"query", " { }"⟩]⟩

theorem plain_wordy : wordy.Plain where
  name := by
    intro name hname
    obtain rfl : "query" = name := Option.some.inj hname
    exact ⟨by decide, List.all_eq_true.1 (by decide)⟩
  declared := by
    intro v hv
    simp only [wordy, List.mem_cons, List.not_mem_nil, or_false] at hv
    rcases hv with rfl | rfl
    · exact ⟨List.all_eq_true.1 (by decide), by decide, by decide⟩
    · exact ⟨List.all_eq_true.1 (by decide), by decide, by decide⟩
  body := by decide

theorem definition_determines_draft_wordy :
    let anonymous := { wordy with name := none }
    wordy.Plain ∧ anonymous.Plain ∧ ∃ op, (empty.assemble .query (.draft wordy)).outcome = .ok op ∧
      op.definition = "query query ($c: [ID!]! = [\"$d: (\"], $query:  { }) { a(b: $c) }" ∧
      op.name = some "query" ∧ read? .query op.definition = some wordy ∧
      (OperationInput.draft anonymous).definition .query ≠ op.definition := by
  intro anonymous
  have hplain : anonymous.Plain := ⟨nofun, plain_wordy.declared, plain_wordy.body⟩
  obtain ⟨hread, hsame⟩ := definition_determines_draft .query plain_wordy
  have hspreads : Spread.ofText ((OperationInput.draft wordy).definition .query) = [] := by
    rw [Spread.ofText_eq_all]
    decide
  obtain ⟨op, hop, hdefinition, -⟩ := exists_assemble_of_nil empty .query (.draft wordy) hspreads
  obtain ⟨hname, hback⟩ := hread empty op hop
  refine ⟨plain_wordy, hplain, op, hop, hdefinition.trans (by decide), hname, hback, fun heq => ?_⟩
  exact absurd (hsame anonymous hplain (heq.trans hdefinition)) (by decide)

end Registry

end FragmentAssembly
