/-
FragmentAssembly/Proofs/Spread/Template.lean

Fragments that are written into a template.  A definition is often put together from pieces of
text, with the spread of a fragment between one piece and the next.  The search should then find
the spreads of the pieces and, in between, the fragments that were written there.

What stands before a spread is of no importance, since three dots can follow any text.  What stands
after it may go on with the name: it is read as far as it goes (`ofText_filled`).  So the fragments
are found as they were written if no piece after one begins with a name character.  No less will do
(`ofText_filled_eq_iff`), not even by a coincidence between several pieces.  This is seen by weighing
names: a name weighs its length less two, and then every run adds as much as its length less two,
because the word of an inline fragment, which is left out, would weigh nothing.  A name that goes
on makes the whole heavier.
-/
import FragmentAssembly.Fragment
import FragmentAssembly.Proofs.Spread.Readable

namespace FragmentAssembly.Spread

open Text

/-! ### One spread and what follows it -/

/-- What can be the name of a spread: name characters, at least one of them. -/
def IsRun (name : String) : Prop :=
  name ≠ "" ∧ ∀ c ∈ name.toList, isNameChar c = true

instance (name : String) : Decidable (IsRun name) :=
  decidable_of_iff (name ≠ "" ∧ name.toList.all isNameChar = true) (by rw [List.all_eq_true, IsRun])

/-- What three dots and a run spread: the run, or nothing if it is the word of an inline
fragment. -/
def spreadsOf (name : String) : List String :=
  if name = "on" then [] else [name]

/-- The name characters that a text begins with. -/
def goesOn (after : String) : String :=
  String.ofList (after.toList.takeWhile isNameChar)

theorem endsName_iff_goesOn {after : String} : EndsName after ↔ goesOn after = "" := by
  rw [endsName_iff, goesOn, ← String.toList_inj, String.toList_ofList]
  rfl

/-- Three dots and a name spread the name as far as the text goes on with it. -/
theorem ofText_dots_append {name : String} (h : IsRun name) (after : String) :
    ofText ("..." ++ name ++ after) = spreadsOf (name ++ goesOn after) ++ ofText after := by
  have htext : ("..." ++ name ++ after).toList = dotChars ++ (name.toList ++ after.toList) := by
    simp [String.toList_append, dotChars]
  have hne : name.toList ≠ [] := fun heq => h.1 (String.toList_inj.1 heq)
  have hrun : name.toList ++ after.toList.takeWhile isNameChar = (name ++ goesOn after).toList := by
    rw [String.toList_append, goesOn, String.toList_ofList]
  rw [ofText_eq_all, ofText_eq_all, htext, all_dots_append hne h.2, List.map_append, hrun,
    Option.filter_some, spreadsOf]
  congr 1
  have hword : (name ++ goesOn after).toList = inlineWord ↔ name ++ goesOn after = "on" :=
    ⟨fun h => String.toList_inj.1 h, fun h => by rw [h]; rfl⟩
  by_cases heq : name ++ goesOn after = "on"
  · simp [heq, inlineWord]
  · rw [if_neg heq, if_pos (bne_iff_ne.2 (mt hword.1 heq)), Option.toList_some,
      List.map_singleton, String.ofList_toList]

/-! ### Templates -/

/-- A template into which fragments are written: the text before the first one, and each fragment
with the text that follows it. -/
def filled (first : String) (rest : List (Fragment × String)) : String :=
  first ++ String.join (rest.map fun p => p.1.display ++ p.2)

theorem filled_cons (first : String) (f : Fragment) (after : String)
    (rest : List (Fragment × String)) :
    filled first ((f, after) :: rest) = filled (first ++ ("..." ++ f.name ++ after)) rest := by
  simp [filled, Fragment.display, String.append_assoc]

/-- Whatever is written into a template is found piece by piece. -/
theorem ofText_filled (first : String) {rest : List (Fragment × String)}
    (h : ∀ p ∈ rest, IsRun p.1.name) :
    ofText (filled first rest) =
      ofText first ++ rest.flatMap fun p => spreadsOf (p.1.name ++ goesOn p.2) ++ ofText p.2 := by
  induction rest generalizing first with
  | nil => simp [filled]
  | cons p rest ih =>
    obtain ⟨f, after⟩ := p
    have hrun : IsRun f.name := h (f, after) List.mem_cons_self
    have hseam : Seam ("..." ++ f.name ++ after).toList := by
      rw [String.append_assoc, String.toList_append]
      exact seam_dots _
    rw [filled_cons, ih _ fun p hp => h p (List.mem_cons_of_mem _ hp),
      ofText_append_of_seam hseam, ofText_dots_append hrun, List.flatMap_cons, List.append_assoc]

/-! ### Weighing names -/

/-- The weight of some names: of each its length less two. -/
def weight : List String → Int
  | [] => 0
  | name :: names => name.length - 2 + weight names

theorem weight_append (a b : List String) : weight (a ++ b) = weight a + weight b := by
  induction a with
  | nil => simp [weight]
  | cons name a ih =>
    rw [List.cons_append, weight, ih, weight]
    omega

/-- The word that spreads nothing would weigh nothing. -/
theorem weight_spreadsOf (name : String) : weight (spreadsOf name) = name.length - 2 := by
  unfold spreadsOf
  split
  · rename_i h
    rw [h]
    rfl
  · simp [weight]

/-- How many characters go on with the names of the fragments. -/
def surplus : List (Fragment × String) → Nat
  | [] => 0
  | p :: rest => (goesOn p.2).length + surplus rest

theorem surplus_eq_zero_iff {rest : List (Fragment × String)} :
    surplus rest = 0 ↔ ∀ p ∈ rest, goesOn p.2 = "" := by
  induction rest with
  | nil => simp [surplus]
  | cons p rest ih => simp [surplus, ih]

theorem weight_flatMap (rest : List (Fragment × String)) :
    weight (rest.flatMap fun p => spreadsOf (p.1.name ++ goesOn p.2) ++ ofText p.2) =
      weight (rest.flatMap fun p => spreadsOf p.1.name ++ ofText p.2) + surplus rest := by
  induction rest with
  | nil => rfl
  | cons p rest ih =>
    simp only [List.flatMap_cons, weight_append, weight_spreadsOf, ih, String.length_append,
      surplus]
    omega

/-! ### Templates whose fragments are found -/

/-- The fragments are found as they were written just when no name character follows one. -/
theorem ofText_filled_eq_iff (first : String) {rest : List (Fragment × String)}
    (h : ∀ p ∈ rest, IsRun p.1.name) :
    ofText (filled first rest) =
        ofText first ++ rest.flatMap (fun p => spreadsOf p.1.name ++ ofText p.2) ↔
      ∀ p ∈ rest, EndsName p.2 := by
  rw [ofText_filled first h, List.append_cancel_left_eq]
  simp only [endsName_iff_goesOn]
  constructor
  · intro heq
    have hweight := weight_flatMap rest
    rw [heq] at hweight
    exact surplus_eq_zero_iff.1 (by omega)
  · intro hends
    rw [List.flatMap_def, List.flatMap_def]
    congr 1
    refine List.map_congr_left fun p hp => ?_
    rw [hends p hp, String.append_empty]

/-- A run after three dots is found between the spreads of what stands before it and of what stands
after it, whatever stands before it, just when no name character follows it.  In the same way the
spreads of a template are those of its pieces with the fragments that are written between them, one
after another, just when no piece goes on with the name of the fragment before it. -/
theorem ofText_interpolates_exactly (before : String) :
    (∀ name after : String, IsRun name →
        (ofText (before ++ "..." ++ name ++ after) =
            ofText before ++ (if name = "on" then [] else [name]) ++ ofText after ↔
          EndsName after)) ∧
      ∀ rest : List (Fragment × String), (∀ p ∈ rest, IsRun p.1.name) →
        (ofText (filled before rest) =
            ofText before ++ rest.flatMap (fun p => spreadsOf p.1.name ++ ofText p.2) ↔
          ∀ p ∈ rest, EndsName p.2) := by
  refine ⟨fun name after hname => ?_, fun rest h => ofText_filled_eq_iff before h⟩
  have hrun : ∀ p ∈ [((⟨name, "", []⟩ : Fragment), after)], IsRun p.1.name := by
    simpa using hname
  have hone := ofText_filled_eq_iff before hrun
  have htext : filled before [(⟨name, "", []⟩, after)] = before ++ "..." ++ name ++ after := by
    simp [filled, Fragment.display, String.append_assoc]
  simpa [htext, spreadsOf] using hone

/-- Two fragments, the second one under the word of an inline fragment, with dots around them. -/
def dotted : List (Fragment × String) :=
  [(.define "A1" "fragment A1 on T { a }", ".."), (.define "on" "fragment on on T { a }", "....B")]

theorem ofText_interpolates_exactly_dotted :
    IsRun "on" ∧ EndsName "...B" ∧ ¬ EndsName "line" ∧ (∀ p ∈ dotted, IsRun p.1.name) ∧
      ofText ("....A.." ++ "..." ++ "on" ++ "...B") = ofText "....A.." ++ [] ++ ofText "...B" ∧
      ofText ("....A.." ++ "..." ++ "on" ++ "line") ≠ ofText "....A.." ++ [] ++ ofText "line" ∧
      ofText (filled "....A.." dotted) =
        ofText "....A.." ++ dotted.flatMap fun p => spreadsOf p.1.name ++ ofText p.2 := by
  obtain ⟨hone, hmany⟩ := ofText_interpolates_exactly "....A.."
  have hrun : IsRun "on" := by decide
  have hends : EndsName "...B" := (endsName_iff _).2 (by decide)
  have hline : ¬ EndsName "line" := mt (endsName_iff _).1 (by decide)
  have hnames : ∀ p ∈ dotted, IsRun p.1.name :=
    List.forall_mem_cons.2 ⟨by decide, List.forall_mem_singleton.2 (by decide)⟩
  have hpieces : ∀ p ∈ dotted, EndsName p.2 := by
    simp only [endsName_iff]
    exact List.forall_mem_cons.2 ⟨by decide, List.forall_mem_singleton.2 (by decide)⟩
  exact ⟨hrun, hends, hline, hnames, (hone "on" "...B" hrun).2 hends,
    mt (hone "on" "line" hrun).1 hline, (hmany dotted hnames).2 hpieces⟩

end FragmentAssembly.Spread
