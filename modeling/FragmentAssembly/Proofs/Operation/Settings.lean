/-
FragmentAssembly/Proofs/Operation/Settings.lean

What a sequence of settings makes of an operation.  However the settings are mixed, the name is
the one given last (`OperationDraft.finalName?`), and the variables come from the list given last
and from what was declared after it (`OperationDraft.declarations`).

Declaring changes a list in place, so what a run of declarations leaves is told by two things that
each declaration changes in a plain way: the names (`Variable.names_ofList`) and what is found
under a name (`Variable.find?_ofList`).  A list that holds every name once is made up of these two,
and so the result is the last declaration of each name, in the order in which the names first
occur (`Variable.ofList_eq_latest`).
-/
import FragmentAssembly.Proofs.Operation.SelfContained
import Mathlib.Data.List.Basic
import Mathlib.Data.List.Induction

namespace FragmentAssembly

namespace Variable

variable {ws : List Variable}

/-- The last declaration of each name, in the order in which the names first occur. -/
def latest (vs : List Variable) : List Variable :=
  (vs.map Variable.name).eraseDups.filterMap fun name => vs.reverse.find? (·.name = name)

/-! ### One more declaration -/

theorem ofList_concat (vs : List Variable) (v : Variable) :
    ofList (vs ++ [v]) = declare (ofList vs) v := by
  rw [ofList, List.foldl_append]
  rfl

theorem find?_declare (ws : List Variable) (v : Variable) (name : String) :
    (declare ws v).find? (·.name = name) =
      if v.name = name then some v else ws.find? (·.name = name) := by
  induction ws with
  | nil => by_cases h : v.name = name <;> simp [declare, h]
  | cons w ws ih =>
    rw [declare]
    split
    · -- the old declaration stood under the same name, so it was not looked for either
      rename_i hsame
      simp only [List.find?_cons, hsame]
      split <;> simp_all
    · rename_i hother
      simp only [List.find?_cons, ih]
      split <;> split <;> simp_all

/-! ### A run of declarations -/

/-- Each name stands where it was declared first. -/
theorem names_ofList (vs : List Variable) :
    (ofList vs).map Variable.name = (vs.map Variable.name).eraseDups := by
  induction vs using List.reverseRecOn with
  | nil => rfl
  | append_singleton vs v ih =>
    have hmem : v.name ∈ (ofList vs).map Variable.name ↔ v.name ∈ vs.map Variable.name := by
      rw [ih, List.mem_eraseDups]
    rw [ofList_concat, List.map_append, List.map_singleton, List.eraseDups_append, ← ih]
    by_cases hv : v.name ∈ vs.map Variable.name
    · rw [names_declare_of_mem (hmem.2 hv), List.removeAll,
        List.filter_cons_of_neg (by simpa using hv), List.filter_nil, List.eraseDups_nil,
        List.append_nil]
    · rw [declare_of_notMem fun h => hv (hmem.1 h), List.removeAll,
        List.filter_cons_of_pos (by simpa using hv), List.map_append]
      rfl

/-- Under each name stands its last declaration. -/
theorem find?_ofList (vs : List Variable) (name : String) :
    (ofList vs).find? (·.name = name) = vs.reverse.find? (·.name = name) := by
  induction vs using List.reverseRecOn with
  | nil => rfl
  | append_singleton vs v ih =>
    rw [ofList_concat, find?_declare, ih, List.reverse_concat, List.find?_cons]
    split <;> simp_all

/-- A list that holds every name once is what is found under its names. -/
theorem filterMap_find?_names (h : (ws.map Variable.name).Nodup) :
    ((ws.map Variable.name).filterMap fun name => ws.find? (·.name = name)) = ws := by
  induction ws with
  | nil => rfl
  | cons w ws ih =>
    rw [List.map_cons, List.nodup_cons] at h
    -- under the other names the first one is passed over
    have hrest : ∀ name ∈ ws.map Variable.name,
        (w :: ws).find? (·.name = name) = ws.find? (·.name = name) := by
      intro name hname
      refine List.find?_cons_of_neg ?_
      simpa using fun heq : w.name = name => h.1 (heq ▸ hname)
    rw [List.map_cons, List.filterMap_cons, List.find?_cons_of_pos (by simp),
      List.filterMap_congr hrest, ih h.2]

/-- Declaring leaves the last declaration of each name, in the order in which the names first
occur. -/
theorem ofList_eq_latest (vs : List Variable) : ofList vs = latest vs := by
  rw [← filterMap_find?_names (nodup_names_ofList vs), names_ofList, latest]
  exact List.filterMap_congr fun name _ => find?_ofList vs name

end Variable

namespace OperationDraft

/-! ### What the settings say -/

namespace Setting

/-- The name that a setting gives. -/
def name? : Setting → Option String
  | name text => some text
  | _ => none

/-- The declaration that a setting adds. -/
def declaration? : Setting → Option Variable
  | oneMore v => some v
  | _ => none

/-- The list with which a setting begins anew. -/
def list? : Setting → Option (List Variable)
  | allAnew vs => some vs
  | _ => none

end Setting

/-- The name given last, unless it is empty. -/
def finalName? (settings : List Setting) : Option String :=
  (settings.filterMap Setting.name?).getLast?.filter (!·.isEmpty)

/-- The list given last, if there is one, and then what was declared after it. -/
def declarations (settings : List Setting) : List Variable :=
  (settings.filterMap Setting.list?).getLast?.getD [] ++
    (settings.reverse.takeWhile (·.list?.isNone)).reverse.filterMap Setting.declaration?

theorem declarations_concat (settings : List Setting) (s : Setting) :
    declarations (settings ++ [s]) =
      match s with
      | .name _ => declarations settings
      | .oneMore v => declarations settings ++ [v]
      | .allAnew vs => vs := by
  cases s <;> simp [declarations, Setting.list?, Setting.declaration?, List.filterMap_append]

/-! ### What they make -/

theorem ofSettings_concat (body : String) (settings : List Setting) (s : Setting) :
    ofSettings body (settings ++ [s]) = (ofSettings body settings).set s := by
  rw [ofSettings, List.foldl_append]
  rfl

theorem ofSettings_eq (body : String) (settings : List Setting) :
    ofSettings body settings =
      ⟨body, (settings.filterMap Setting.name?).getLast?,
        Variable.ofList (declarations settings)⟩ := by
  induction settings using List.reverseRecOn with
  | nil => rfl
  | append_singleton settings s ih =>
    rw [ofSettings_concat, ih, declarations_concat]
    cases s with
    | name text => simp [set, withName, Setting.name?]
    | oneMore v => simp [set, withVariable, Setting.name?, Variable.ofList_concat]
    | allAnew vs => simp [set, withVariables, Setting.name?]

theorem givenName?_ofSettings (body : String) (settings : List Setting) :
    (ofSettings body settings).givenName? = finalName? settings := by
  rw [ofSettings_eq]
  rfl

theorem declared_ofSettings (body : String) (settings : List Setting) :
    (ofSettings body settings).declared = Variable.latest (declarations settings) := by
  rw [ofSettings_eq, Variable.ofList_eq_latest]

/-- The four forms of a header. -/
def written (kind : OperationKind) : Option String → List Variable → String
  | none, [] => ""
  | some name, [] => kind.word ++ " " ++ name ++ " "
  | none, v :: vs => kind.word ++ " " ++ bracketed (v :: vs)
  | some name, v :: vs => kind.word ++ " " ++ name ++ " " ++ bracketed (v :: vs)
where
  /-- The declarations between parentheses, with commas between them. -/
  bracketed (vs : List Variable) : String :=
    "(" ++ ", ".intercalate (vs.map fun v => "$" ++ v.name ++ ": " ++ v.typeName) ++ ") "

theorem header_eq_written (kind : OperationKind) (d : OperationDraft) :
    d.header kind = written kind d.givenName? d.declared := by
  rw [header]
  rcases d.givenName? with - | name <;> rcases d.declared with - | ⟨v, vs⟩
  · rfl
  · rfl
  · exact String.append_empty
  · rfl

theorem definition_ofSettings (kind : OperationKind) (body : String) (settings : List Setting) :
    (OperationInput.draft (ofSettings body settings)).definition kind =
      written kind (finalName? settings) (Variable.latest (declarations settings)) ++ body := by
  rw [OperationInput.definition, header_eq_written, givenName?_ofSettings, declared_ofSettings,
    ofSettings_eq]

end OperationDraft

namespace Registry

open OperationDraft

/-- What is assembled hangs on the name and the definition of the input, and the kind is only
written down. -/
theorem outcome_assemble_congr (r : Registry) {kind other : OperationKind}
    {input same : OperationInput} (hname : input.name? = same.name?)
    (hdefinition : input.definition kind = same.definition other) :
    (r.assemble kind input).outcome =
      (r.assemble other same).outcome.map fun op => { op with kind } := by
  rw [outcome_assemble, outcome_assemble, hname, hdefinition]
  rcases (r.resolve (Spread.ofText (same.definition other))).outcome with e | fs <;> rfl

/-- Whatever settings are made in whatever order, the operation has the name that was given last,
if it is not empty, and its definition is a header for that name and for the last declaration of
each variable, in the order in which the variables first occur, with the body behind it.  With
neither a name nor variables the body stands alone, for every kind, as if it had been given as a
text. -/
theorem assemble_ofSettings (r : Registry) (body : String) (settings : List Setting) :
    (∀ kind op, (r.assemble kind (.draft (ofSettings body settings))).outcome = .ok op →
        op.definition =
            written kind (finalName? settings) (Variable.latest (declarations settings)) ++ body ∧
          op.name = finalName? settings ∧ op.kind = kind) ∧
      (finalName? settings = none → Variable.latest (declarations settings) = [] →
        ∀ kind other, (r.assemble kind (.draft (ofSettings body settings))).outcome =
          (r.assemble other (.text body)).outcome.map fun op => { op with kind }) := by
  constructor
  · intro kind op hop
    obtain ⟨fs, -, rfl⟩ := exists_of_assemble hop
    exact ⟨definition_ofSettings kind body settings, givenName?_ofSettings body settings, rfl⟩
  · intro hname hdeclared kind other
    refine outcome_assemble_congr r ((givenName?_ofSettings body settings).trans hname) ?_
    rw [definition_ofSettings, hname, hdeclared, written, String.empty_append]
    rfl

/-- A name and two lists of variables, the second of which is gone on with. -/
def mixed : List Setting :=
  [.oneMore ⟨"a", "Int"⟩, .name "P", .allAnew [⟨"b", "X"⟩, ⟨"c", "Y"⟩, ⟨"b", "Z"⟩],
    .oneMore ⟨"c", "W = 1"⟩, .name "Q", .oneMore ⟨"d", "V"⟩]

theorem assemble_ofSettings_mixed :
    let bare := mixed ++ [.allAnew [], .name ""]
    (∃ op, (empty.assemble .mutation (.draft (ofSettings "{ a }" mixed))).outcome = .ok op ∧
        op.definition = "mutation Q ($b: Z, $c: W = 1, $d: V) { a }" ∧ op.name = some "Q") ∧
      finalName? bare = none ∧ Variable.latest (declarations bare) = [] ∧
      ∃ op, (empty.assemble .query (.text "{ a }")).outcome = .ok op ∧
        (empty.assemble .mutation (.draft (ofSettings "{ a }" bare))).outcome =
          .ok { op with kind := .mutation } := by
  intro bare
  obtain ⟨hmade, -⟩ := assemble_ofSettings empty "{ a }" mixed
  obtain ⟨-, hbare⟩ := assemble_ofSettings empty "{ a }" bare
  have hname : finalName? bare = none := by decide
  have hdeclared : Variable.latest (declarations bare) = [] := by decide
  obtain ⟨op, hop, -⟩ := exists_assemble_of_nil empty .mutation
    (.draft (ofSettings "{ a }" mixed)) (by rw [Spread.ofText_eq_all]; decide)
  obtain ⟨hdefinition, hlast, -⟩ := hmade .mutation op hop
  obtain ⟨text, htext, -⟩ := exists_assemble_of_nil empty .query (.text "{ a }")
    (by rw [Spread.ofText_eq_all]; decide)
  have hsame := hbare hname hdeclared .mutation .query
  rw [htext] at hsame
  exact ⟨⟨op, hop, hdefinition.trans (by decide), hlast.trans (by decide)⟩, hname, hdeclared, text,
    htext, hsame⟩

end Registry

end FragmentAssembly
