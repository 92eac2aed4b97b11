/-
FragmentAssembly/Operation/Variable.lean

Variable declarations of an operation, in the order in which their names were first
declared.  Declaring a name again keeps its place and changes its type
(`names_declare_of_mem`); a new name goes to the end (`declare_of_notMem`).  So a list
made by declaring holds every name once (`nodup_names_ofList`).
-/

namespace FragmentAssembly

/-- The declaration of a variable: its name, without the `$`, and its type, which may end
with a default value. -/
structure Variable where
  name : String
  typeName : String
deriving DecidableEq, Repr

namespace Variable

/-- The declaration as it stands in a header. -/
def text (v : Variable) : String :=
  "$" ++ v.name ++ ": " ++ v.typeName

/-- Declares a variable: in the place of its name if it has one, else at the end. -/
def declare : List Variable → Variable → List Variable
  | [], v => [v]
  | w :: ws, v => if w.name = v.name then v :: ws else w :: declare ws v

/-- Declares the variables one after another. -/
def ofList (vs : List Variable) : List Variable :=
  vs.foldl declare []

/-! ### The names of a list -/

theorem declare_of_notMem {ws : List Variable} {v : Variable}
    (h : v.name ∉ ws.map Variable.name) : declare ws v = ws ++ [v] := by
  induction ws with
  | nil => rfl
  | cons w ws ih =>
    simp only [List.map_cons, List.mem_cons, not_or] at h
    rw [declare, if_neg fun heq => h.1 heq.symm, ih h.2, List.cons_append]

theorem names_declare_of_mem {ws : List Variable} {v : Variable}
    (h : v.name ∈ ws.map Variable.name) :
    (declare ws v).map Variable.name = ws.map Variable.name := by
  induction ws with
  | nil => simp at h
  | cons w ws ih =>
    rw [declare]
    split
    · rename_i heq
      simp [heq]
    · rename_i hne
      simp only [List.map_cons, List.mem_cons] at h
      rw [List.map_cons, List.map_cons, ih (h.resolve_left fun heq => hne heq.symm)]

theorem nodup_names_declare {ws : List Variable} (h : (ws.map Variable.name).Nodup)
    (v : Variable) : ((declare ws v).map Variable.name).Nodup := by
  by_cases hv : v.name ∈ ws.map Variable.name
  · rw [names_declare_of_mem hv]
    exact h
  · rw [declare_of_notMem hv, List.map_append, List.nodup_append]
    refine ⟨h, by simp, ?_⟩
    intro a ha b hb heq
    simp only [List.map_cons, List.map_nil, List.mem_singleton] at hb
    rw [heq, hb] at ha
    exact hv ha

/-- A list made by declaring holds every name once. -/
theorem nodup_names_ofList (vs : List Variable) : ((ofList vs).map Variable.name).Nodup := by
  suffices ∀ ws : List Variable, (ws.map Variable.name).Nodup →
      ((vs.foldl declare ws).map Variable.name).Nodup from this [] (by simp)
  induction vs with
  | nil => exact fun _ h => h
  | cons v vs ih => exact fun ws h => ih _ (nodup_names_declare h v)

end Variable

end FragmentAssembly
