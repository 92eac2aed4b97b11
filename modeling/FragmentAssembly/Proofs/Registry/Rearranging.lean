/-
FragmentAssembly/Proofs/Registry/Rearranging.lean

The order in which fragments are added matters only for derived names.  Every other input
(`FragmentInput.Named`) amounts to the same in every registry: a fragment, or a refusal
(`FragmentInput.Named.add_eq_settle`).  The registry only takes it in (`Registry.settle`),
and under different names this can be done in any order (`settle_comm`).

So a list of such inputs may be rearranged, as long as no two of them make fragments of one
name: each input answers what it would answer alone, and the registry is the same at the end
(`performAll_add_perm`).  It does not matter either whether a fragment is added before those
that it spreads, as spreads are looked up only when an operation is assembled.
-/
import FragmentAssembly.Proofs.Operation.Locality
import FragmentAssembly.Proofs.Registry.Refusals
import Mathlib.Data.List.Pairwise

namespace FragmentAssembly

/-- An input that does not get its name from its type: a text, a draft that leads with its own
header, or a draft that is given a name. -/
inductive FragmentInput.Named : FragmentInput → Prop
  | text (definition : String) : Named (.text definition)
  | headed {d : FragmentDraft} (h : Header.leads d.definition = true) : Named (.draft d)
  | given {d : FragmentDraft} {given : String} (h : d.name = some given) : Named (.draft d)

namespace Registry

variable {r s : Registry} {input : FragmentInput} {inputs : List FragmentInput}

/-! ### Taking in what an input amounts to -/

/-- Registers the fragment of an outcome; without one nothing changes. -/
def settle (r : Registry) :
    Except FragmentError Fragment → Logged FragmentError Fragment × Registry
  | .error e => (.ofExcept (.error e), r)
  | .ok f => (⟨r.registerEvents f, .ok f⟩, r.register f)

@[simp] theorem outcome_settle (r : Registry) (outcome : Except FragmentError Fragment) :
    (r.settle outcome).1.outcome = outcome := by
  cases outcome <;> rfl

/-- Fragments under different names can be registered in any order. -/
theorem register_comm {f g : Fragment} (h : f.name ≠ g.name) :
    (r.register f).register g = (r.register g).register f := by
  refine Registry.ext (fragments_ext fun name => ?_) rfl
  simp only [lookup?_register]
  by_cases hf : f.name = name
  · rw [if_pos hf, if_neg fun hg => h (hf.trans hg.symm), if_pos hf]
  · rw [if_neg hf, if_neg hf]

/-- Two outcomes that are not fragments of one name. -/
def Apart (a b : Except FragmentError Fragment) : Prop :=
  ∀ f g, a = .ok f → b = .ok g → f.name ≠ g.name

theorem Apart.symm {a b : Except FragmentError Fragment} (h : Apart a b) : Apart b a :=
  fun f g hf hg heq => h g f hg hf heq.symm

variable {a b : Except FragmentError Fragment}

theorem settle_comm (h : Apart a b) (r : Registry) :
    ((r.settle a).2.settle b).2 = ((r.settle b).2.settle a).2 := by
  rcases a with e | f
  · rfl
  · rcases b with e | g
    · rfl
    · exact register_comm (h f g rfl rfl)

/-- What was taken in before makes no difference to the answer and to the log. -/
theorem fst_settle_settle (h : Apart a b) (r : Registry) :
    ((r.settle a).2.settle b).1 = (r.settle b).1 := by
  rcases a with e | f
  · rfl
  · rcases b with e | g
    · rfl
    · have hcontains : (r.register f).contains g.name = r.contains g.name := by
        rw [contains_eq_isSome, contains_eq_isSome, lookup?_register, if_neg (h f g rfl rfl)]
      show Logged.mk ((r.register f).registerEvents g) _ = Logged.mk (r.registerEvents g) _
      rw [registerEvents, registerEvents, hcontains]

/-! ### What an input amounts to -/

theorem exists_addText_eq_settle (definition : String) :
    ∃ outcome, ∀ r : Registry, r.addText definition = r.settle outcome := by
  rcases h : Header.name? definition with - | declared
  · refine ⟨.error (.nameless definition), fun r => ?_⟩
    rw [addText, h]
    rfl
  · refine ⟨.ok (.define declared definition), fun r => ?_⟩
    rw [addText_of_declared h]
    rfl

theorem exists_addHeaded_eq_settle (d : FragmentDraft) :
    ∃ outcome, ∀ r : Registry, r.addHeaded d = r.settle outcome := by
  obtain ⟨definition, name, typeName⟩ := d
  rcases h : Header.name? definition with - | declared
  · refine ⟨.error (.nameless definition), fun r => ?_⟩
    simp only [addHeaded, h]
    rfl
  · rcases name with - | given
    · refine ⟨.ok (.define declared definition), fun r => ?_⟩
      simp only [addHeaded, h]
      rfl
    · by_cases heq : given = declared
      · refine ⟨.ok (.define declared definition), fun r => ?_⟩
        simp only [addHeaded, h, if_pos heq]
        rfl
      · refine ⟨.error (.conflictingName given declared), fun r => ?_⟩
        simp only [addHeaded, h, if_neg heq]
        rfl

/-- A given name is taken as it is, so no registry is searched for a free one. -/
theorem exists_addBare_eq_settle {d : FragmentDraft} {given : String} (h : d.name = some given) :
    ∃ outcome, ∀ r : Registry, r.addBare d = r.settle outcome := by
  obtain ⟨definition, name, typeName⟩ := d
  cases h
  rcases typeName with - | typeName
  · exact ⟨.error (.typeless given), fun r => rfl⟩
  · exact ⟨.ok (.define given (headed given typeName definition)), fun r => rfl⟩

theorem exists_add_eq_settle (h : input.Named) :
    ∃ outcome, ∀ r : Registry, r.add input = r.settle outcome := by
  cases h with
  | text definition => exact exists_addText_eq_settle definition
  | @headed d hleads =>
    obtain ⟨outcome, hadd⟩ := exists_addHeaded_eq_settle d
    exact ⟨outcome, fun r => (add_of_leads hleads).trans (hadd r)⟩
  | @given d given hname =>
    cases hleads : Header.leads d.definition with
    | true =>
      obtain ⟨outcome, hadd⟩ := exists_addHeaded_eq_settle d
      exact ⟨outcome, fun r => (add_of_leads hleads).trans (hadd r)⟩
    | false =>
      obtain ⟨outcome, hadd⟩ := exists_addBare_eq_settle hname
      exact ⟨outcome, fun r => (add_of_not_leads hleads).trans (hadd r)⟩

/-- Adding an input that does not derive its name is taking in what the input amounts to, which
any registry can tell. -/
theorem add_eq_settle (h : input.Named) (r s : Registry) :
    s.add input = s.settle (r.add input).1.outcome := by
  obtain ⟨outcome, hadd⟩ := exists_add_eq_settle h
  rw [hadd s, hadd r, outcome_settle]

/-! ### Lists of inputs -/

theorem snd_performAll_add (r : Registry) (inputs : List FragmentInput) :
    (r.performAll (inputs.map .add)).2 = inputs.foldl (fun s input => (s.add input).2) r := by
  induction inputs generalizing r with
  | nil => rfl
  | cons input inputs ih =>
    rw [List.map_cons, performAll_cons, List.foldl_cons]
    exact ih (r.add input).2

/-- Every input answers what it would answer alone.  The run is followed from any registry in
which the inputs that are left still do so. -/
theorem fst_performAll_add (hnamed : ∀ input ∈ inputs, input.Named)
    (hapart : inputs.Pairwise fun a b => Apart (r.add a).1.outcome (r.add b).1.outcome)
    (hsame : ∀ input ∈ inputs, (s.add input).1 = (r.add input).1) :
    (s.performAll (inputs.map .add)).1 = inputs.map fun input => (r.perform (.add input)).1 := by
  induction inputs generalizing s with
  | nil => rfl
  | cons first inputs ih =>
    obtain ⟨hfirst, hrest⟩ := List.pairwise_cons.1 hapart
    have hnext : ∀ input ∈ inputs, ((s.add first).2.add input).1 = (r.add input).1 := by
      intro input hinput
      have hleft := add_eq_settle (hnamed first List.mem_cons_self) r s
      have hright := add_eq_settle (hnamed input (List.mem_cons_of_mem _ hinput)) r
      rw [hright, hleft, fst_settle_settle (hfirst input hinput), ← hright]
      exact hsame input (List.mem_cons_of_mem _ hinput)
    have htail := ih (fun input hinput => hnamed input (List.mem_cons_of_mem _ hinput)) hrest hnext
    rw [List.map_cons, List.map_cons, performAll_cons, perform_add, perform_add, htail,
      hsame first List.mem_cons_self]

/-- Inputs that do not derive their names, and no two of which make fragments of one name, may be
added in any order: each answers and logs what it would alone, the registry at the end is the
same, numbers included, and so is every operation that is assembled from it. -/
theorem performAll_add_perm {inputs' : List FragmentInput} (r : Registry)
    (hnamed : ∀ input ∈ inputs, input.Named)
    (hapart : inputs.Pairwise fun a b => ∀ f g, (r.add a).1.outcome = .ok f →
      (r.add b).1.outcome = .ok g → f.name ≠ g.name)
    (hperm : inputs'.Perm inputs) :
    (r.performAll (inputs'.map .add)).1 = inputs'.map (fun input => (r.perform (.add input)).1) ∧
      (r.performAll (inputs'.map .add)).2 = (r.performAll (inputs.map .add)).2 ∧
      ∀ kind operation, (r.performAll (inputs'.map .add)).2.assemble kind operation =
        (r.performAll (inputs.map .add)).2.assemble kind operation := by
  have hnamed' : ∀ input ∈ inputs', input.Named :=
    fun input hinput => hnamed input (hperm.mem_iff.1 hinput)
  have hapart' : inputs'.Pairwise fun a b => Apart (r.add a).1.outcome (r.add b).1.outcome :=
    (hperm.pairwise_iff Apart.symm).2 hapart
  have hregistry : (r.performAll (inputs'.map .add)).2 = (r.performAll (inputs.map .add)).2 := by
    have : Std.Symm fun a b : FragmentInput => Apart (r.add a).1.outcome (r.add b).1.outcome :=
      ⟨fun _ _ h => h.symm⟩
    rw [snd_performAll_add, snd_performAll_add]
    apply hperm.foldl_eq'
    intro first hfirst second hsecond s
    by_cases heq : first = second
    · rw [heq]
    · have hdifferent := hapart'.forall hfirst hsecond heq
      have hleft := add_eq_settle (hnamed' first hfirst) r
      have hright := add_eq_settle (hnamed' second hsecond) r
      rw [hright (s.add first).2, hleft s, hleft (s.add second).2, hright s]
      exact settle_comm hdifferent s
  refine ⟨fst_performAll_add hnamed' hapart' fun _ _ => rfl, hregistry, fun kind operation => ?_⟩
  rw [hregistry]

/-- Four inputs for the tangled registry: a fragment that stands before the one that it spreads,
a text that is refused, a fragment with a given name, and the one that was missing. -/
def scattered : List FragmentInput :=
  [.draft ⟨"fragment E on T { ...F }", some "E", none⟩, .text "{ f }",
    .draft ⟨"{ f }", some "F", some "T"⟩, .text "fragment D on T { d }"]

theorem leads_scattered : Header.leads "fragment E on T { ...F }" = true := by
  rw [Header.leads_eq]
  decide

theorem named_scattered : ∀ input ∈ scattered, input.Named := by
  intro input hinput
  simp only [scattered, List.mem_cons, List.not_mem_nil, or_false] at hinput
  rcases hinput with rfl | rfl | rfl | rfl
  · exact .headed leads_scattered
  · exact .text _
  · exact .given rfl
  · exact .text _

theorem outcomes_scattered (r : Registry) :
    scattered.map (fun input => (r.add input).1.outcome) =
      [.ok (.define "E" "fragment E on T { ...F }"), .error (.nameless "{ f }"),
        .ok (.define "F" (headed "F" "T" "{ f }")), .ok (.define "D" "fragment D on T { d }")] := by
  have hE : Header.name? "fragment E on T { ...F }" = some "E" := by
    rw [Header.name?_eq_first?]
    decide
  have hnone : Header.name? "{ f }" = none := by
    rw [Header.name?_eq_first?]
    decide
  have hD : Header.name? "fragment D on T { d }" = some "D" := by
    rw [Header.name?_eq_first?]
    decide
  have hbare : Header.leads "{ f }" = false := Header.leads_of_first? (by decide)
  simp [scattered, add, addText, addHeaded, addBare, nameFor?, leads_scattered, hbare, hE, hnone,
    hD]

theorem apart_scattered (r : Registry) :
    scattered.Pairwise fun a b => Apart (r.add a).1.outcome (r.add b).1.outcome := by
  have hpairs : (scattered.map fun input => (r.add input).1.outcome).Pairwise Apart := by
    rw [outcomes_scattered]
    simp [Apart, Fragment.define]
  exact List.pairwise_map.1 hpairs

theorem performAll_add_perm_scattered :
    (∀ input ∈ scattered, input.Named) ∧ scattered.reverse.Perm scattered ∧
      (tangled.performAll (scattered.reverse.map .add)).1 =
        scattered.reverse.map (fun input => (tangled.perform (.add input)).1) ∧
      (tangled.performAll (scattered.reverse.map .add)).2 =
        (tangled.performAll (scattered.map .add)).2 ∧
      (tangled.performAll (scattered.reverse.map .add)).2.assemble .query (.text "{ ...C ...E }") =
        (tangled.performAll (scattered.map .add)).2.assemble .query (.text "{ ...C ...E }") := by
  have hperm : scattered.reverse.Perm scattered := List.reverse_perm scattered
  obtain ⟨hreplies, hregistry, hassemble⟩ :=
    performAll_add_perm tangled named_scattered (apart_scattered tangled) hperm
  exact ⟨named_scattered, hperm, hreplies, hregistry, hassemble .query (.text "{ ...C ...E }")⟩

end Registry

end FragmentAssembly
