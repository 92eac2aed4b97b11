/-
FragmentAssembly/Proofs/Operation/SelfContained.lean

Assembled documents need nothing from outside and hold nothing that they do not need.  Three
things come together here: a document reads, piece by piece, as its operation and its
fragments (`ofText_document`, since every piece stands on lines of its own); a registered
fragment keeps the spreads that stand in its text; and the fragments of a document are closed
under what they ask for (`Registry.Covers`).
-/
import FragmentAssembly.Operation.Assembly
import FragmentAssembly.Proofs.Resolution.Coverage
import FragmentAssembly.Proofs.Spread.Seam

namespace FragmentAssembly

/-- The spreads of a document are those of its operation and then those of its fragments, if
these keep their own. -/
theorem ofText_document {fs : List Fragment} (htracked : ∀ f ∈ fs, f.Tracked)
    (definition : String) :
    Spread.ofText (document definition fs) =
      Spread.ofText definition ++ fs.flatMap Fragment.spreads := by
  have hown : fs.flatMap (fun f => Spread.ofText f.definition) = fs.flatMap Fragment.spreads := by
    rw [List.flatMap_def, List.flatMap_def]
    exact congrArg List.flatten (List.map_congr_left fun f hf => (htracked f hf).symm)
  calc
    Spread.ofText (document definition fs)
    _ = Spread.ofText (definition ++
          String.join ((fs.map Fragment.definition).map fun line => "\n" ++ line)) := by
        rw [List.map_map]
        rfl
    _ = Spread.ofText definition ++ (fs.map Fragment.definition).flatMap Spread.ofText :=
        Spread.ofText_append_lines definition _
    _ = Spread.ofText definition ++ fs.flatMap Fragment.spreads := by
        rw [List.flatMap_map, hown]

namespace Registry

variable {r : Registry} {kind : OperationKind} {input : OperationInput} {op : Operation}

/-- What an assembled operation is made of. -/
theorem exists_of_assemble (h : (r.assemble kind input).outcome = .ok op) :
    ∃ fs, (r.resolve (Spread.ofText (input.definition kind))).outcome = .ok fs ∧
      op = ⟨kind, input.name?, input.definition kind, Spread.ofText (input.definition kind),
        document (input.definition kind) fs⟩ := by
  rw [outcome_assemble] at h
  rcases hresolve : (r.resolve (Spread.ofText (input.definition kind))).outcome with e | fs
  · rw [hresolve] at h
    cases h
  · rw [hresolve] at h
    cases h
    exact ⟨fs, rfl, rfl⟩

/-- An operation whose spreads can be resolved is assembled with what they are resolved to. -/
theorem exists_assemble {fs : List Fragment}
    (h : (r.resolve (Spread.ofText (input.definition kind))).outcome = .ok fs) :
    ∃ op, (r.assemble kind input).outcome = .ok op ∧ op.definition = input.definition kind ∧
      op.document = document (input.definition kind) fs := by
  rw [outcome_assemble, h]
  exact ⟨_, rfl, rfl, rfl⟩

/-- An operation that spreads nothing is assembled in every registry. -/
theorem exists_assemble_of_nil (r : Registry) (kind : OperationKind) (input : OperationInput)
    (h : Spread.ofText (input.definition kind) = []) :
    ∃ op, (r.assemble kind input).outcome = .ok op ∧ op.definition = input.definition kind ∧
      op.document = document (input.definition kind) [] := by
  refine exists_assemble ?_
  rw [h, outcome_resolve, gather_nil]

/-- An assembled document is its operation followed by the resolved fragments, each on a new
line.  Read as a whole it spreads what the operation and the fragments spread, and the names
that it spreads are just those that its fragments define, each once. -/
theorem document_self_contained (hr : r.Reachable)
    (h : (r.assemble kind input).outcome = .ok op) :
    ∃ fs, (r.resolve op.spreads).outcome = .ok fs ∧
      op.document = op.definition ++ String.join (fs.map fun f => "\n" ++ f.definition) ∧
      Spread.ofText op.document = op.spreads ++ fs.flatMap Fragment.spreads ∧
      (∀ name, name ∈ Spread.ofText op.document ↔ name ∈ fs.map Fragment.name) ∧
      (fs.map Fragment.name).Nodup := by
  obtain ⟨fs, hfs, rfl⟩ := exists_of_assemble h
  have hcovers := covers_of_ok hfs
  have hspreads := ofText_document
    (fun f hf => hr.tracked f.name f (hcovers.registered f hf)) (input.definition kind)
  refine ⟨fs, hfs, rfl, hspreads, fun name => ?_, hcovers.nodup⟩
  rw [hcovers.mem_names_iff_asked, hspreads, List.mem_append, List.mem_flatMap]
  rfl

theorem document_self_contained_tangled :
    tangled.Reachable ∧
      ∃ op, (tangled.assemble .query (.text "{ ...A }")).outcome = .ok op ∧
        ∃ fs, (tangled.resolve op.spreads).outcome = .ok fs ∧
          Spread.ofText op.document = op.spreads ++ fs.flatMap Fragment.spreads ∧
          ∀ name, name ∈ Spread.ofText op.document ↔ name ∈ fs.map Fragment.name := by
  have hspreads : Spread.ofText "{ ...A }" = ["A"] := by
    rw [Spread.ofText_eq_all]
    decide
  obtain ⟨op, hop⟩ : ∃ op, (tangled.assemble .query (.text "{ ...A }")).outcome = .ok op := by
    rw [outcome_assemble, OperationInput.definition, hspreads, outcome_resolve_tangled_A]
    exact ⟨_, rfl⟩
  obtain ⟨fs, hfs, -, htext, hnames, -⟩ := document_self_contained reachable_tangled hop
  exact ⟨reachable_tangled, op, hop, fs, hfs, htext, hnames⟩

end Registry

end FragmentAssembly
