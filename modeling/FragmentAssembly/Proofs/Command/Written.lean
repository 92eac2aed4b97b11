/-
FragmentAssembly/Proofs/Command/Written.lean

Command lines that are written for given arguments.  A line is put together from parts, in any
order: the values of the options, the flag for a JSON string, and the operation file
(`Command.Written`).  A value may be joined to its option, or stand behind it if it does not begin
with a dash.  What the parts are is what the arguments say (`Command.Says`): the values of an
option that may be repeated in their order, the others at most once.

Reading is settled between two parts (`Reading.Between`): the slot that is still open holds a value
that its slot takes.  So reading a part, however it is written, comes to the same as taking it
(`Reading.Between.spelled`), and a whole line reads back as the arguments it was written for
(`Command.ofLine_of_written`).
-/
import FragmentAssembly.Command.Line
import Mathlib.Data.List.Basic
import Mathlib.Tactic.Common

namespace FragmentAssembly.Command

/-! ### What is written -/

/-- The long name of the option that fills a slot.  The operation file has none. -/
def Slot.option? : Slot → Option String
  | extensions => some "fragment-exts"
  | fragmentPaths => some "fragments"
  | kind => some "kind"
  | name => some "name"
  | declaration => some "var"
  | operationFile => none

/-- One part of a line: a value for a slot, or the flag for a JSON string. -/
inductive Part where
  | value (slot : Slot) (text : String)
  | json
deriving DecidableEq, Repr

/-- The value for a slot, if a part has one. -/
def Part.text? (slot : Slot) : Part → Option String
  | value slot' text => if slot' = slot then some text else none
  | json => none

/-- The values for a slot, in their order. -/
def texts (slot : Slot) (parts : List Part) : List String :=
  parts.filterMap (Part.text? slot)

/-- A text that does not begin with a dash. -/
def Plain (text : String) : Prop :=
  text.toList.head? ≠ some '-'

instance (text : String) : Decidable (Plain text) :=
  inferInstanceAs (Decidable (_ ≠ _))

/-- The ways to write a part. -/
inductive Spelled : Part → List String → Prop where
  | json : Spelled .json ["--json"]
  | joined {slot : Slot} {option : String} (text : String) (h : slot.option? = some option) :
      Spelled (.value slot text) ["--" ++ option ++ "=" ++ text]
  | apart {slot : Slot} {option text : String} (h : slot.option? = some option)
      (plain : Plain text) : Spelled (.value slot text) ["--" ++ option, text]
  | short {text : String} (plain : Plain text) :
      Spelled (.value .fragmentPaths text) ["-f", text]
  | word {text : String} (plain : Plain text) : Spelled (.value .operationFile text) [text]

/-- The arguments that parts are written as.  The operation file may also be the last of them,
after two dashes. -/
inductive Written : List Part → List String → Prop where
  | nil : Written [] []
  | cons {part : Part} {parts : List Part} {here rest : List String} (spelled : Spelled part here)
      (written : Written parts rest) : Written (part :: parts) (here ++ rest)
  | afterDashes (text : String) : Written [.value .operationFile text] ["--", text]

/-- The parts say what the arguments are. -/
structure Says (parts : List Part) (a : BuildArguments) : Prop where
  /-- Extensions may be given one by one or in groups, joined by commas. -/
  extensions : ∃ groups : List (List String),
    texts .extensions parts = groups.map ",".intercalate ∧
      (∀ group ∈ groups, group ≠ [] ∧ ∀ extension ∈ group, ',' ∉ extension.toList) ∧
      a.extensions = if groups = [] then ["graphql", "gql"] else groups.flatten
  fragmentPaths : texts .fragmentPaths parts = a.fragmentPaths
  fragmentPath_ne : ∀ path ∈ a.fragmentPaths, path ≠ ""
  json : parts.count .json = if a.json then 1 else 0
  kind : texts .kind parts = [a.kind.word] ∨ texts .kind parts = [] ∧ a.kind = .query
  name : texts .name parts = a.name.toList
  declared : (texts .declaration parts).map Variable.ofArgument = a.declared.map .ok
  operationFile : texts .operationFile parts = [a.operationFile]
  operationFile_ne : a.operationFile ≠ ""

/-! ### The forms of what is written -/

theorem Token.ofArgument_plain {text : String} (h : Plain text) :
    Token.ofArgument text = .word text := by
  unfold Plain at h
  unfold Token.ofArgument
  split
  · rename_i heq
    simp [heq] at h
  · rename_i heq
    simp [heq] at h
  · rename_i heq
    simp [heq] at h
  · rfl

/-- What two dashes stand in front of is split at its first equals sign. -/
theorem Token.ofArgument_dashes {rest : String} (h : rest.toList ≠ []) :
    Token.ofArgument ("--" ++ rest) =
      match Text.splitFirst? '=' rest with
      | some (name, value) => .long name (some value)
      | none => .long rest none := by
  have htext : ("--" ++ rest).toList = '-' :: '-' :: rest.toList := by
    simp [String.toList_append]
  obtain ⟨c, cs, hrest⟩ := List.exists_cons_of_ne_nil h
  have hback : String.ofList (c :: cs) = rest := by rw [← hrest, String.ofList_toList]
  rw [Token.ofArgument, htext, hrest]
  show (match Text.splitFirst? '=' (String.ofList (c :: cs)) with
    | some (name, value) => Token.long name (some value)
    | none => Token.long (String.ofList (c :: cs)) none) = _
  rw [hback]

theorem Token.ofArgument_long {name : String} (hne : name ≠ "") (h : '=' ∉ name.toList) :
    Token.ofArgument ("--" ++ name) = .long name none := by
  have hnil : name.toList ≠ [] := fun hnil => hne (String.toList_eq_nil_iff.1 hnil)
  rw [Token.ofArgument_dashes hnil, Text.splitFirst?_of_notMem h]

theorem Token.ofArgument_joined {name : String} (h : '=' ∉ name.toList) (value : String) :
    Token.ofArgument ("--" ++ name ++ "=" ++ value) = .long name (some value) := by
  have hnil : (name ++ String.singleton '=' ++ value).toList ≠ [] := by
    simp [String.toList_append]
  have hsplit := Token.ofArgument_dashes hnil
  rw [Text.splitFirst?_append h] at hsplit
  rw [← String.append_assoc, ← String.append_assoc] at hsplit
  exact hsplit

/-- The long name of a slot leads back to it. -/
theorem BuildOption.ofName?_of_option? {slot : Slot} {option : String}
    (h : slot.option? = some option) : BuildOption.ofName? option = some (.valued slot) := by
  cases slot <;> cases h <;> rfl

theorem Slot.option?_eq_some {slot : Slot} {option : String} (h : slot.option? = some option) :
    option ≠ "" ∧ '=' ∉ option.toList := by
  cases slot <;> cases h <;> decide

/-! ### Taking parts -/

namespace Given

variable {g g' : Given}

/-- Takes one part.  There is only one operation file. -/
def take (g : Given) : Part → Except ArgumentError Given
  | .json => if g.json then .error .conflict else .ok { g with json := true }
  | .value .operationFile text =>
    if g.operationFile.isSome then .error .unknownArgument else g.put .operationFile text
  | .value slot text => g.put slot text

theorem take_of_option? {slot : Slot} {option : String} (h : slot.option? = some option)
    (text : String) : g.take (.value slot text) = g.put slot text := by
  cases slot <;> first | rfl | cases h

/-- No option gives the operation file. -/
theorem operationFile_of_put {slot : Slot} {option text : String}
    (h : slot.option? = some option) (hput : g.put slot text = .ok g') :
    g'.operationFile = g.operationFile := by
  cases slot with
  | extensions =>
    cases hput
    rfl
  | fragmentPaths | kind | name | declaration =>
    simp only [put] at hput
    grind
  | operationFile => cases h

end Given

/-! ### Single steps -/

namespace Reading

variable {s t : Reading} {g g' : Given} {ended : Bool}

theorem step_of_not_ended (h : s.optionsEnded = false) (argument : String) :
    s.step argument =
      match Token.ofArgument argument with
      | .endOfOptions => .ok { s with optionsEnded := true }
      | .long name value => s.long name value
      | .short letters => s.short letters
      | .word text => s.word text := by
  rw [step, h]
  rfl

theorem step_json (h : s.optionsEnded = false) : s.step "--json" = s.setJson := by
  rw [step_of_not_ended h, show Token.ofArgument "--json" = .long "json" none by decide]
  rfl

theorem word_of_not_waiting (h : ∀ slot, s.opened ≠ some ⟨slot, none⟩) (text : String) :
    s.word text = s.positional text := by
  unfold word
  split
  · exact absurd ‹_› (h _)
  · rfl

theorem finish_of_settle (h : s.settle = .ok t) :
    s.finish =
      match t.given.arguments with
      | .error e => .error (.refused e)
      | .ok arguments => .ok arguments := by
  rw [finish, h]
  rfl

theorem settle_endOptions :
    { s with optionsEnded := true }.settle =
      s.settle.map fun s => { s with optionsEnded := true } := by
  obtain ⟨given, opened, fileRead, optionsEnded⟩ := s
  rcases opened with - | ⟨slot, - | text⟩
  · rfl
  · rfl
  · simp only [settle]
    cases given.put slot text <;> rfl

/-! ### Reading a part -/

/-- The state between two parts: what is open can be settled, and what was given is then settled
too. -/
structure Between (ended : Bool) (s : Reading) (g : Given) : Prop where
  settle : s.settle = .ok { s with given := g, opened := none }
  fileRead : s.fileRead = g.operationFile.isSome
  optionsEnded : s.optionsEnded = ended

theorem between_start : Between false {} {} :=
  ⟨rfl, rfl, rfl⟩

/-- A state in which everything is settled. -/
theorem between_of_settled (hopened : s.opened = none)
    (hfile : s.fileRead = s.given.operationFile.isSome) (hended : s.optionsEnded = ended) :
    Between ended s s.given := by
  obtain ⟨given, opened, fileRead, optionsEnded⟩ := s
  cases hopened
  exact ⟨rfl, hfile, hended⟩

/-- A state in which a value is held that its slot takes. -/
theorem between_of_held {slot : Slot} {text : String} (hopened : s.opened = some ⟨slot, some text⟩)
    (hput : s.given.put slot text = .ok g') (hfile : s.fileRead = g'.operationFile.isSome)
    (hended : s.optionsEnded = ended) : Between ended s g' := by
  refine ⟨?_, hfile, hended⟩
  simp only [Reading.settle, hopened, hput]

namespace Between

/-- No option waits for its value. -/
theorem not_waiting (hs : Between ended s g) (slot : Slot) : s.opened ≠ some ⟨slot, none⟩ := by
  intro hopened
  have hsettle := hs.settle
  rw [Reading.settle, hopened] at hsettle
  cases hsettle

theorem setJson_eq (hs : Between ended s g) :
    s.setJson =
      if g.json then .error (.refused .conflict)
      else .ok { s with given := { g with json := true }, opened := none } := by
  rw [setJson, hs.settle]
  rfl

theorem open_eq (hs : Between ended s g) (slot : Slot) :
    s.open slot = .ok { s with given := g, opened := some ⟨slot, none⟩ } := by
  rw [«open», hs.settle]
  rfl

theorem putJoined_eq (hs : Between ended s g) (slot : Slot) (text : String) :
    s.putJoined slot text = { s with given := g, opened := some ⟨slot, some text⟩ }.settle := by
  rw [putJoined, hs.settle]
  rfl

theorem positional_eq (hs : Between ended s g) (text : String) :
    s.positional text =
      if g.operationFile.isSome then .error (.refused .unknownArgument)
      else .ok { s with
        given := g, opened := some ⟨.operationFile, some text⟩, fileRead := true } := by
  rw [positional, hs.settle, hs.fileRead]
  rfl

/-- The flag for a JSON string. -/
theorem json (hs : Between false s g) (htake : g.take .json = .ok g') :
    ∃ s', ["--json"].foldlM step s = .ok s' ∧ Between false s' g' := by
  rw [Given.take] at htake
  split at htake
  · cases htake
  · rename_i hjson
    cases htake
    refine ⟨{ s with given := { g with json := true }, opened := none }, ?_,
      between_of_settled rfl hs.fileRead hs.optionsEnded⟩
    rw [List.foldlM_cons, step_json hs.optionsEnded, hs.setJson_eq, if_neg hjson]
    rfl

/-- A value that is joined to its option. -/
theorem joined (hs : Between false s g) {slot : Slot} {option text : String}
    (h : slot.option? = some option) (hput : g.put slot text = .ok g') :
    ∃ s', ["--" ++ option ++ "=" ++ text].foldlM step s = .ok s' ∧ Between false s' g' := by
  have hstep : s.step ("--" ++ option ++ "=" ++ text) = s.putJoined slot text := by
    rw [step_of_not_ended hs.optionsEnded, Token.ofArgument_joined (Slot.option?_eq_some h).2]
    simp only [long, BuildOption.ofName?_of_option? h]
  have hfile : s.fileRead = g'.operationFile.isSome := by
    rw [Given.operationFile_of_put h hput, hs.fileRead]
  have hheld : Between false { s with given := g, opened := some ⟨slot, some text⟩ } g' :=
    between_of_held rfl hput hfile hs.optionsEnded
  refine ⟨{ s with given := g', opened := none }, ?_,
    between_of_settled rfl hfile hs.optionsEnded⟩
  rw [List.foldlM_cons, hstep, hs.putJoined_eq, hheld.settle]
  rfl

/-- A value that stands behind what opens its slot. -/
theorem apart (hs : Between false s g) {slot : Slot} {option opener text : String}
    (h : slot.option? = some option) (hopens : s.step opener = s.open slot) (plain : Plain text)
    (hput : g.put slot text = .ok g') :
    ∃ s', [opener, text].foldlM step s = .ok s' ∧ Between false s' g' := by
  have hfile : s.fileRead = g'.operationFile.isSome := by
    rw [Given.operationFile_of_put h hput, hs.fileRead]
  have hword : step { s with given := g, opened := some ⟨slot, none⟩ } text =
      .ok { s with given := g, opened := some ⟨slot, some text⟩ } := by
    rw [step, hs.optionsEnded, Token.ofArgument_plain plain]
    rfl
  refine ⟨{ s with given := g, opened := some ⟨slot, some text⟩ }, ?_,
    between_of_held rfl hput hfile hs.optionsEnded⟩
  rw [List.foldlM_cons, hopens, hs.open_eq]
  show step _ text >>= _ = _
  rw [hword]
  rfl

/-- The operation file. -/
theorem operationFile (hs : Between ended s g) {text : String}
    (htake : g.take (.value .operationFile text) = .ok g') :
    ∃ s', s.positional text = .ok s' ∧ Between ended s' g' := by
  rw [Given.take] at htake
  split at htake
  · cases htake
  · rename_i hnone
    have hfile : g'.operationFile.isSome = true := by
      rw [Given.put] at htake
      split at htake
      · cases htake
      · cases htake
        rfl
    refine ⟨{ s with given := g, opened := some ⟨.operationFile, some text⟩, fileRead := true }, ?_,
      between_of_held rfl htake hfile.symm hs.optionsEnded⟩
    rw [hs.positional_eq, if_neg hnone]

/-- Reading a part, however it is written, is taking it. -/
theorem spelled (hs : Between false s g) {part : Part} {arguments : List String}
    (h : Spelled part arguments) (htake : g.take part = .ok g') :
    ∃ s', arguments.foldlM step s = .ok s' ∧ Between false s' g' := by
  cases h with
  | json => exact hs.json htake
  | joined text h =>
    rw [Given.take_of_option? h] at htake
    exact hs.joined h htake
  | @apart slot option text h plain =>
    obtain ⟨hne, hequals⟩ := Slot.option?_eq_some h
    have hopens : s.step ("--" ++ option) = s.open slot := by
      rw [step_of_not_ended hs.optionsEnded, Token.ofArgument_long hne hequals]
      simp only [long, BuildOption.ofName?_of_option? h]
    rw [Given.take_of_option? h] at htake
    exact hs.apart h hopens plain htake
  | short plain =>
    have hopens : s.step "-f" = s.open .fragmentPaths := by
      rw [step_of_not_ended hs.optionsEnded, show Token.ofArgument "-f" = .short ['f'] by decide]
      rfl
    exact hs.apart rfl hopens plain htake
  | @word text plain =>
    obtain ⟨s', hread, hs'⟩ := hs.operationFile htake
    refine ⟨s', ?_, hs'⟩
    rw [List.foldlM_cons, step_of_not_ended hs.optionsEnded, Token.ofArgument_plain plain]
    show s.word text >>= _ = _
    rw [word_of_not_waiting hs.not_waiting, hread]
    rfl

/-- After two dashes what was given is the same. -/
theorem endOptions (hs : Between false s g) : Between true { s with optionsEnded := true } g := by
  refine ⟨?_, hs.fileRead, rfl⟩
  rw [settle_endOptions, hs.settle]
  rfl

/-! ### Reading a line -/

/-- Reading a written line is taking its parts. -/
theorem written (hs : Between false s g) {parts : List Part} {arguments : List String}
    (h : Written parts arguments) (htake : parts.foldlM Given.take g = .ok g') :
    ∃ s' ended, arguments.foldlM step s = .ok s' ∧ Between ended s' g' := by
  induction h generalizing s g with
  | nil =>
    cases htake
    exact ⟨s, false, rfl, hs⟩
  | @cons part parts here rest spelled _ ih =>
    rw [List.foldlM_cons] at htake
    rcases hpart : g.take part with e | g₁
    · rw [hpart] at htake
      cases htake
    · rw [hpart] at htake
      obtain ⟨s₁, hread, hs₁⟩ := hs.spelled spelled hpart
      obtain ⟨s', ended, hrest, hs'⟩ := ih hs₁ htake
      refine ⟨s', ended, ?_, hs'⟩
      rw [List.foldlM_append, hread]
      exact hrest
  | afterDashes text =>
    simp only [List.foldlM_cons, List.foldlM_nil, bind_pure] at htake
    obtain ⟨s', hread, hs'⟩ := hs.endOptions.operationFile htake
    have hdashes : s.step "--" = .ok { s with optionsEnded := true } := by
      rw [step_of_not_ended hs.optionsEnded, show Token.ofArgument "--" = .endOfOptions by decide]
    refine ⟨s', true, ?_, hs'⟩
    rw [List.foldlM_cons, hdashes]
    show Reading.positional _ text >>= _ = _
    rw [hread]
    rfl

end Between

end Reading

/-! ### What written parts come to -/

section Texts

variable {slot slot' : Slot} {text : String} {parts : List Part}

@[simp] theorem texts_nil : texts slot [] = [] := rfl

@[simp] theorem texts_value :
    texts slot (.value slot' text :: parts) =
      if slot' = slot then text :: texts slot parts else texts slot parts := by
  by_cases h : slot' = slot <;> simp [texts, Part.text?, h]

end Texts

theorem eq_of_toList_eq {α : Type} {o o' : Option α} (h : o.toList = o'.toList) : o = o' := by
  simpa using congrArg List.head? h

/-- An option that lists what another one does and something more: the other one lists nothing. -/
theorem of_toList_eq_append_cons {α : Type} {o o' : Option α} {a : α} {as : List α}
    (h : o'.toList = o.toList ++ a :: as) : o = none ∧ o' = some a ∧ as = [] := by
  cases o <;> cases o' <;> simp_all

namespace Given

variable {g g' : Given} {parts : List Part}

/-- What parts add to what was given before them. -/
structure Adds (g : Given) (parts : List Part) (g' : Given) : Prop where
  extensions : g'.extensions =
    g.extensions ++ (texts .extensions parts).flatMap (Text.splitOn ',')
  fragmentPaths : g'.fragmentPaths = g.fragmentPaths ++ texts .fragmentPaths parts
  fragmentPath_ne : "" ∉ texts .fragmentPaths parts
  json : g'.json.toNat = g.json.toNat + parts.count .json
  kind : (g'.kind.map OperationKind.word).toList =
    (g.kind.map OperationKind.word).toList ++ texts .kind parts
  name : g'.name.toList = g.name.toList ++ texts .name parts
  declared : ∃ declared, g'.declared = g.declared ++ declared ∧
    (texts .declaration parts).map Variable.ofArgument = declared.map .ok
  operationFile : g'.operationFile.toList = g.operationFile.toList ++ texts .operationFile parts
  operationFile_ne : "" ∉ texts .operationFile parts

/-- No parts add nothing. -/
theorem Adds.eq_of_nil (h : Adds g [] g') : g' = g := by
  have hextensions : g'.extensions = g.extensions := by simpa using h.extensions
  have hpaths : g'.fragmentPaths = g.fragmentPaths := by simpa using h.fragmentPaths
  have hjson : g'.json = g.json := by
    have hcount : g'.json.toNat = g.json.toNat := h.json
    cases hg : g.json <;> cases hg' : g'.json <;> simp [hg, hg'] at hcount ⊢
  have hkind : g'.kind = g.kind := by
    have hword : g'.kind.map OperationKind.word = g.kind.map OperationKind.word :=
      eq_of_toList_eq (by simpa using h.kind)
    have hback := congrArg (·.bind OperationKind.ofWord?) hword
    simpa [Option.bind_map, Function.comp_def] using hback
  have hname : g'.name = g.name := eq_of_toList_eq (by simpa using h.name)
  have hdeclared : g'.declared = g.declared := by
    obtain ⟨declared, happend, hread⟩ := h.declared
    obtain rfl : declared = [] := by simpa using hread
    simpa using happend
  have hfile : g'.operationFile = g.operationFile :=
    eq_of_toList_eq (by simpa using h.operationFile)
  cases g
  cases g'
  simp only [mk.injEq]
  exact ⟨hextensions, hpaths, hjson, hkind, hname, hdeclared, hfile⟩

/-- The first of the parts is taken: a slot of several values takes any that reads, and one of a
single value held none before, since it holds one value in the end. -/
theorem Adds.take {part : Part} (h : Adds g (part :: parts) g') :
    ∃ g₁, g.take part = .ok g₁ ∧ Adds g₁ parts g' := by
  cases part with
  | json =>
    have hcount : g'.json.toNat = g.json.toNat + (parts.count .json + 1) := by
      rw [h.json, List.count_cons_self]
    have hnot : g.json = false := by
      have hle := Bool.toNat_le g'.json
      exact Bool.toNat_eq_zero.1 (by omega)
    refine ⟨{ g with json := true }, ?_, { h with json := ?_ }⟩
    · rw [Given.take, hnot]
      rfl
    · rw [hcount, hnot, Bool.toNat_false, Bool.toNat_true]
      omega
  | value slot text =>
    cases slot with
    | extensions =>
      refine ⟨{ g with extensions := g.extensions ++ Text.splitOn ',' text }, rfl,
        { h with extensions := ?_ }⟩
      rw [h.extensions, texts_value, if_pos rfl, List.flatMap_cons, List.append_assoc]
    | fragmentPaths =>
      have hne : text ≠ "" ∧ "" ∉ texts .fragmentPaths parts := by
        simpa [eq_comm] using h.fragmentPath_ne
      refine ⟨{ g with fragmentPaths := g.fragmentPaths ++ [text] }, ?_,
        { h with fragmentPaths := ?_, fragmentPath_ne := hne.2 }⟩
      · rw [take_of_option? rfl, put, if_neg (by simpa using hne.1)]
      · rw [h.fragmentPaths, texts_value, if_pos rfl, List.append_assoc]
        rfl
    | kind =>
      obtain ⟨hnone, hsome, hrest⟩ := of_toList_eq_append_cons h.kind
      obtain ⟨kind, hkind, hword⟩ := Option.map_eq_some_iff.1 hsome
      have hread : OperationKind.ofWord? text = some kind := by
        rw [← hword, OperationKind.ofWord?_word]
      refine ⟨{ g with kind := some kind }, ?_, { h with kind := ?_ }⟩
      · rw [take_of_option? rfl, put, Option.map_eq_none_iff.1 hnone, hread]
        rfl
      · rw [hkind, show texts .kind parts = [] from hrest]
        rfl
    | name =>
      obtain ⟨hnone, hsome, hrest⟩ := of_toList_eq_append_cons h.name
      refine ⟨{ g with name := some text }, ?_, { h with name := ?_ }⟩
      · rw [take_of_option? rfl, put, hnone]
        rfl
      · rw [hsome, show texts .name parts = [] from hrest]
        rfl
    | declaration =>
      obtain ⟨declared, happend, hread⟩ := h.declared
      -- the first variable that is declared is the one that this value reads as
      obtain ⟨v, vs, rfl, hfirst, hrest⟩ := List.map_eq_cons_iff.1 hread.symm
      refine ⟨{ g with declared := g.declared ++ [v] }, ?_,
        { h with declared := ⟨vs, ?_, hrest.symm⟩ }⟩
      · rw [take_of_option? rfl, put, ← hfirst]
      · rw [happend, List.append_assoc]
        rfl
    | operationFile =>
      have hne : text ≠ "" ∧ "" ∉ texts .operationFile parts := by
        simpa [eq_comm] using h.operationFile_ne
      obtain ⟨hnone, hsome, hrest⟩ := of_toList_eq_append_cons h.operationFile
      refine ⟨{ g with operationFile := some text }, ?_,
        { h with operationFile := ?_, operationFile_ne := hne.2 }⟩
      · rw [Given.take, hnone, Option.isSome_none, if_neg Bool.false_ne_true, put,
          if_neg (by simpa using hne.1)]
      · rw [hsome, show texts .operationFile parts = [] from hrest]
        rfl

/-- Parts are taken one after another. -/
theorem Adds.foldlM_take (h : Adds g parts g') : parts.foldlM Given.take g = .ok g' := by
  induction parts generalizing g with
  | nil => rw [h.eq_of_nil]; rfl
  | cons part parts ih =>
    obtain ⟨g₁, htake, hrest⟩ := h.take
    rw [List.foldlM_cons, htake]
    exact ih hrest

end Given

/-! ### Reading back -/

section ReadBack

variable {parts : List Part} {a : BuildArguments}

/-- Extensions that were joined in groups come apart again. -/
theorem flatMap_splitOn_intercalate {groups : List (List String)}
    (h : ∀ group ∈ groups, group ≠ [] ∧ ∀ extension ∈ group, ',' ∉ extension.toList) :
    (groups.map ",".intercalate).flatMap (Text.splitOn ',') = groups.flatten := by
  induction groups with
  | nil => rfl
  | cons group groups ih =>
    obtain ⟨⟨hne, hcomma⟩, hrest⟩ := List.forall_mem_cons.1 h
    rw [List.map_cons, List.flatMap_cons, ih hrest, List.flatten_cons]
    exact congrArg (· ++ groups.flatten) (Text.splitOn_intercalate hne hcomma)

/-- What the parts add to nothing is what the arguments are made of. -/
theorem Says.exists_adds (h : Says parts a) :
    ∃ g, Given.Adds {} parts g ∧ g.arguments = .ok a := by
  obtain ⟨groups, htexts, hgroups, hextensions⟩ := h.extensions
  refine ⟨{
    extensions := groups.flatten
    fragmentPaths := a.fragmentPaths
    json := a.json
    kind := if texts .kind parts = [] then none else some a.kind
    name := a.name
    declared := a.declared
    operationFile := some a.operationFile }, ?_, ?_⟩
  · constructor
    case extensions => rw [htexts, flatMap_splitOn_intercalate hgroups, List.nil_append]
    case fragmentPaths => exact h.fragmentPaths.symm
    case fragmentPath_ne =>
      rw [h.fragmentPaths]
      exact fun hmem => h.fragmentPath_ne "" hmem rfl
    case json =>
      rw [h.json]
      cases a.json <;> rfl
    case kind =>
      rcases h.kind with hkind | ⟨hkind, -⟩ <;> simp [hkind]
    case name => exact h.name.symm
    case declared => exact ⟨a.declared, rfl, h.declared⟩
    case operationFile => exact h.operationFile.symm
    case operationFile_ne =>
      rw [h.operationFile]
      simpa using h.operationFile_ne.symm
  · -- no group is empty, so the defaults stand for no groups
    have hempty : groups.flatten.isEmpty = true ↔ groups = [] := by
      cases groups with
      | nil => simp
      | cons group groups => simp [(hgroups group (by simp)).1]
    have hkind : (if texts .kind parts = [] then none else some a.kind).getD .query = a.kind := by
      rcases h.kind with hkind | ⟨hkind, hquery⟩
      · simp [hkind]
      · simp [hkind, hquery]
    simp only [Given.arguments, hempty, hkind, defaultExtensions, ← hextensions]

/-- A line that is written for arguments reads back as them. -/
theorem readBuild_of_written {arguments : List String} (hwritten : Written parts arguments)
    (hmeans : Says parts a) : readBuild arguments = .ok a := by
  obtain ⟨g, hadds, harguments⟩ := hmeans.exists_adds
  obtain ⟨s', ended, hread, hs'⟩ := Reading.between_start.written hwritten hadds.foldlM_take
  rw [readBuild, hread]
  show s'.finish = _
  rw [Reading.finish_of_settle hs'.settle, harguments]

/-- **Round trip of the command line.**  However a line is written for the arguments of `build`,
it reads back as exactly them, and as verbose if it begins with `-v`. -/
theorem ofLine_of_written {arguments : List String} (isVerbose : Bool)
    (hwritten : Written parts arguments) (hmeans : Says parts a) :
    ofLine ((if isVerbose then ["-v"] else []) ++ "build" :: arguments) =
      .ok ⟨isVerbose, some a⟩ := by
  have hbuild : ∀ isVerbose, readFrom isVerbose ("build" :: arguments) =
      .ok ⟨isVerbose, some a⟩ := by
    intro isVerbose
    show readBuild arguments >>= _ = _
    rw [readBuild_of_written hwritten hmeans]
    rfl
  cases isVerbose with
  | false => exact hbuild false
  | true => exact hbuild true

/-- Arguments whose values look like options, hold equals signs, or begin with a dash. -/
def dashed : BuildArguments where
  extensions := ["gql", "a=b", "--json"]
  fragmentPaths := ["build", "-f", "=x"]
  json := true
  kind := .mutation
  name := some "--name=N"
  declared := [⟨"id", "=ID!"⟩, ⟨"n", "Int = 10"⟩]
  operationFile := "-op"

/-- The parts of a line for them, the extensions in two groups. -/
def dashedParts : List Part :=
  [.value .declaration "$id==ID!", .value .extensions "gql,a=b", .value .fragmentPaths "build",
    .json, .value .fragmentPaths "-f", .value .name "--name=N", .value .kind "mutation",
    .value .extensions "--json", .value .fragmentPaths "=x", .value .declaration "n = Int = 10",
    .value .operationFile "-op"]

theorem written_dashed :
    Written dashedParts
      ["--var", "$id==ID!", "--fragment-exts=gql,a=b", "-f", "build", "--json", "--fragments=-f",
        "--name=--name=N", "--kind", "mutation", "--fragment-exts=--json", "--fragments", "=x",
        "--var=n = Int = 10", "--", "-op"] := by
  have hend := Written.afterDashes "-op"
  have hvars := Written.cons (@Spelled.apart .fragmentPaths _ "=x" rfl (by decide))
    (.cons (@Spelled.joined .declaration _ "n = Int = 10" rfl) hend)
  have hname := Written.cons (@Spelled.joined .name _ "--name=N" rfl)
    (.cons (@Spelled.apart .kind _ "mutation" rfl (by decide))
      (.cons (@Spelled.joined .extensions _ "--json" rfl) hvars))
  have hpaths := Written.cons (@Spelled.short "build" (by decide))
    (.cons .json (.cons (@Spelled.joined .fragmentPaths _ "-f" rfl) hname))
  exact .cons (@Spelled.apart .declaration _ "$id==ID!" rfl (by decide))
    (.cons (@Spelled.joined .extensions _ "gql,a=b" rfl) hpaths)

theorem says_dashed : Says dashedParts dashed where
  extensions := ⟨[["gql", "a=b"], ["--json"]], rfl, by decide, rfl⟩
  fragmentPaths := rfl
  fragmentPath_ne := by decide
  json := rfl
  kind := .inl rfl
  name := rfl
  declared := rfl
  operationFile := rfl
  operationFile_ne := by decide

theorem ofLine_of_written_dashed :
    ofLine ["-v", "build", "--var", "$id==ID!", "--fragment-exts=gql,a=b", "-f", "build", "--json",
        "--fragments=-f", "--name=--name=N", "--kind", "mutation", "--fragment-exts=--json",
        "--fragments", "=x", "--var=n = Int = 10", "--", "-op"] =
      .ok ⟨true, some dashed⟩ :=
  ofLine_of_written true written_dashed says_dashed

end ReadBack

end FragmentAssembly.Command
