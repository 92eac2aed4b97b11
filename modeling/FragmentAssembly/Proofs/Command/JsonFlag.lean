/-
FragmentAssembly/Proofs/Command/JsonFlag.lean

The flag for a JSON string, added to a line.  It may be added wherever an option may begin
(`Command.AddsJson`), and the line with it is read beside the line without it.  Adding it settles
the slot that is open, which the other reading does later; but for that and for the flag both are
in the same state (`Reading.Alongside`), and every argument keeps them so, or refuses both.

The two part in one case (`Reading.Lost`): the flag was there already, or the open slot holds a
value that it does not take.  Then the line with the flag is refused at once, and the other one
says more than it should or is refused in the end.  So adding the flag to a line without it changes
the flag and nothing else (`Command.ofLine_of_addsJson`).
-/
import FragmentAssembly.Proofs.Command.Written

namespace FragmentAssembly.Command

/-! ### Giving the flag -/

/-- What was given, with the flag for a JSON string. -/
def Given.withJson (g : Given) : Given :=
  { g with json := true }

theorem Given.put_withJson (g : Given) (slot : Slot) (text : String) :
    g.withJson.put slot text = (g.put slot text).map Given.withJson := by
  cases slot with
  | extensions => rfl
  | fragmentPaths | operationFile =>
    simp only [put]
    split <;> rfl
  | kind =>
    obtain ⟨-, -, -, kind, -, -, -⟩ := g
    cases kind with
    | some _ => rfl
    | none =>
      simp only [put, withJson, Option.isSome_none, Bool.false_eq_true, if_false]
      cases OperationKind.ofWord? text <;> rfl
  | name =>
    obtain ⟨-, -, -, -, name, -, -⟩ := g
    cases name <;> rfl
  | declaration =>
    simp only [put]
    cases Variable.ofArgument text <;> rfl

/-- No slot changes the flag. -/
theorem Given.json_of_put {g g' : Given} {slot : Slot} {text : String}
    (h : g.put slot text = .ok g') : g'.json = g.json := by
  cases slot with
  | extensions =>
    cases h
    rfl
  | fragmentPaths | kind | name | declaration | operationFile =>
    simp only [put] at h
    grind

theorem Given.json_of_arguments {g : Given} {a : BuildArguments} (h : g.arguments = .ok a) :
    a.json = g.json := by
  unfold arguments at h
  split at h
  · cases h
  · cases h
    rfl

theorem Given.arguments_withJson (g : Given) :
    g.withJson.arguments = g.arguments.map fun a => { a with json := true } := by
  obtain ⟨-, -, -, -, -, -, operationFile⟩ := g
  cases operationFile <;> rfl

/-- What is read of a line with the flag, beside what is read without it. -/
structure Flagged (x x' : Except Interruption BuildArguments) : Prop where
  accepted : ∀ a, x = .ok a → a.json = false → x' = .ok { a with json := true }
  refused : ∀ r, x = .error (.refused r) → ∃ r', x' = .error (.refused r')

theorem Flagged.same (e : Interruption) : Flagged (.error e) (.error e) where
  accepted _ h := by cases h
  refused r h := ⟨r, h⟩

theorem Flagged.ofRefused (x : Except Interruption BuildArguments) (r : ArgumentError)
    (hx : ∀ a, x = .ok a → a.json = true) : Flagged x (.error (.refused r)) where
  accepted a h hjson := by cases hjson.symm.trans (hx a h)
  refused _ _ := ⟨r, rfl⟩

theorem Flagged.withJson (a : BuildArguments) :
    Flagged (.ok a) (.ok { a with json := true }) where
  accepted _ h _ := by
    cases h
    rfl
  refused _ h := by cases h

namespace Reading

variable {s s' t : Reading}

/-- The state with the flag for a JSON string. -/
def withJson (s : Reading) : Reading :=
  { s with given := s.given.withJson }

theorem settle_withJson (s : Reading) : s.withJson.settle = s.settle.map withJson := by
  obtain ⟨given, opened, fileRead, optionsEnded⟩ := s
  rcases opened with - | ⟨slot, - | text⟩
  · rfl
  · rfl
  · simp only [settle, withJson, Given.put_withJson]
    cases given.put slot text <;> rfl

/-- What settling changes, and what stays as it was. -/
structure Settled (s t : Reading) : Prop where
  opened : t.opened = none
  fileRead : t.fileRead = s.fileRead
  optionsEnded : t.optionsEnded = s.optionsEnded
  json : t.given.json = s.given.json
  not_waiting : ∀ slot, s.opened ≠ some ⟨slot, none⟩

theorem settled_of_eq_ok (h : s.settle = .ok t) : Settled s t := by
  obtain ⟨given, opened, fileRead, optionsEnded⟩ := s
  rcases opened with - | ⟨slot, - | text⟩
  · cases h
    exact ⟨rfl, rfl, rfl, rfl, by simp⟩
  · cases h
  · simp only [settle] at h
    split at h
    · cases h
    · rename_i hput
      cases h
      exact ⟨rfl, rfl, rfl, Given.json_of_put hput, by simp⟩

theorem exists_refused_of_settle {e : Interruption} (h : s.settle = .error e) :
    ∃ r, e = .refused r := by
  unfold settle at h
  split at h
  · cases h
  · cases h
    exact ⟨_, rfl⟩
  · split at h
    · cases h
      exact ⟨_, rfl⟩
    · cases h

/-! ### Reading with the flag beside reading without it -/

/-- The second state is the first one with the flag, and may be settled already. -/
inductive Alongside : Reading → Reading → Prop where
  | flagged (s : Reading) : Alongside s s.withJson
  | settled {s t : Reading} (h : s.settle = .ok t) : Alongside s t.withJson

/-- A state from which no arguments without the flag are read any more. -/
def Lost (s : Reading) : Prop :=
  s.given.json = true ∨
    (∀ slot, s.opened ≠ some ⟨slot, none⟩) ∧ ∃ r, s.settle = .error (.refused r)

/-- How two readings go on beside each other, the second one with the flag. -/
inductive Beside : Except Interruption Reading → Except Interruption Reading → Prop where
  | read {s s' : Reading} (h : Alongside s s') : Beside (.ok s) (.ok s')
  | same (e : Interruption) : Beside (.error e) (.error e)
  | refused (e : Interruption) (r : ArgumentError) : Beside (.error e) (.error (.refused r))
  | lost {s : Reading} (h : Lost s) (r : ArgumentError) : Beside (.ok s) (.error (.refused r))

theorem beside_settle (s : Reading) : Beside s.settle s.withJson.settle := by
  rw [settle_withJson]
  rcases s.settle with e | t
  · exact .same e
  · exact .read (.flagged t)

namespace Alongside

theorem settle_eq (h : Alongside s s') : s'.settle = s.settle.map withJson := by
  cases h with
  | flagged => exact settle_withJson s
  | @settled t h =>
    have hopened := (settled_of_eq_ok h).opened
    rw [settle_withJson, h, settle, hopened]

theorem fileRead_eq (h : Alongside s s') : s'.fileRead = s.fileRead := by
  cases h with
  | flagged => rfl
  | settled h => exact (settled_of_eq_ok h).fileRead

theorem optionsEnded_eq (h : Alongside s s') : s'.optionsEnded = s.optionsEnded := by
  cases h with
  | flagged => rfl
  | settled h => exact (settled_of_eq_ok h).optionsEnded

theorem not_waiting (h : Alongside s s') (hnone : ∀ slot, s.opened ≠ some ⟨slot, none⟩)
    (slot : Slot) : s'.opened ≠ some ⟨slot, none⟩ := by
  cases h with
  | flagged => exact hnone slot
  | @settled t h =>
    have hopened : t.withJson.opened = none := (settled_of_eq_ok h).opened
    simp [hopened]

/-- What begins with settling goes on from the same state in both. -/
theorem bind_settle (h : Alongside s s') {next : Reading → Except Interruption Reading}
    (hnext : ∀ t, Beside (next t) (next t.withJson)) :
    Beside (s.settle >>= next) (s'.settle >>= next) := by
  rw [h.settle_eq]
  rcases s.settle with e | t
  · exact .same e
  · exact hnext t

theorem «open» (h : Alongside s s') (slot : Slot) : Beside (s.open slot) (s'.open slot) :=
  h.bind_settle fun _ => .read (.flagged _)

theorem putJoined (h : Alongside s s') (slot : Slot) (text : String) :
    Beside (s.putJoined slot text) (s'.putJoined slot text) :=
  h.bind_settle fun _ => beside_settle _

theorem askHelp (h : Alongside s s') : Beside s.askHelp s'.askHelp :=
  h.bind_settle fun _ => .same _

/-- The flag itself is refused where it was added. -/
theorem setJson (h : Alongside s s') : Beside s.setJson s'.setJson := by
  refine h.bind_settle fun t => ?_
  cases hjson : t.given.json with
  | true => exact .same _
  | false => exact .lost (.inl rfl) .conflict

theorem positional (h : Alongside s s') (text : String) :
    Beside (s.positional text) (s'.positional text) := by
  rw [Reading.positional, Reading.positional, h.fileRead_eq]
  cases s.fileRead with
  | true => exact .same _
  | false => exact h.bind_settle fun t => .read (.flagged _)

theorem word (h : Alongside s s') (text : String) : Beside (s.word text) (s'.word text) := by
  by_cases hwaits : ∃ slot, s.opened = some ⟨slot, none⟩
  · -- the word is a value; what waits for one is not settled
    obtain ⟨slot, hslot⟩ := hwaits
    cases h with
    | flagged =>
      have hslot' : s.withJson.opened = some ⟨slot, none⟩ := hslot
      simp only [Reading.word, hslot, hslot']
      exact .read (.flagged _)
    | settled h => exact absurd hslot ((settled_of_eq_ok h).not_waiting slot)
  · have hnone : ∀ slot, s.opened ≠ some ⟨slot, none⟩ := fun slot hslot => hwaits ⟨slot, hslot⟩
    rw [word_of_not_waiting hnone, word_of_not_waiting (h.not_waiting hnone)]
    exact h.positional text

theorem long (h : Alongside s s') (name : String) (value : Option String) :
    Beside (s.long name value) (s'.long name value) := by
  unfold Reading.long
  split
  · exact .same _
  · exact h.open _
  · exact h.putJoined _ _
  · exact h.setJson
  · exact h.askHelp
  · exact .same _

theorem short (h : Alongside s s') (letters : List Char) :
    Beside (s.short letters) (s'.short letters) := by
  unfold Reading.short
  split
  · exact h.open _
  · exact h.putJoined _ _
  · exact h.putJoined _ _
  · exact h.askHelp
  · exact .same _

theorem endOptions (h : Alongside s s') :
    Alongside { s with optionsEnded := true } { s' with optionsEnded := true } := by
  cases h with
  | flagged => exact .flagged { s with optionsEnded := true }
  | @settled t h =>
    refine .settled (t := { t with optionsEnded := true }) ?_
    rw [settle_endOptions, h]
    rfl

/-- Every argument keeps two readings beside each other. -/
theorem step (h : Alongside s s') (argument : String) :
    Beside (s.step argument) (s'.step argument) := by
  rw [Reading.step, Reading.step, h.optionsEnded_eq]
  cases s.optionsEnded with
  | true => exact h.positional argument
  | false =>
    rw [if_neg Bool.false_ne_true, if_neg Bool.false_ne_true]
    cases Token.ofArgument argument with
    | endOfOptions => exact .read h.endOptions
    | long name value => exact h.long name value
    | short letters => exact h.short letters
    | word text => exact h.word text

end Alongside

/-! ### States that are lost -/

/-- What a step does that settles first. -/
def Settles (s s' : Reading) : Prop :=
  ∃ t, s.settle = .ok t ∧ (t.given.json = true → s'.given.json = true)

theorem exists_of_bind_settle {next : Reading → Except Interruption Reading}
    (h : s.settle >>= next = .ok s') : ∃ t, s.settle = .ok t ∧ next t = .ok s' := by
  rcases hs : s.settle with e | t
  · rw [hs] at h
    cases h
  · rw [hs] at h
    exact ⟨t, rfl, h⟩

theorem settles_open {slot : Slot} (h : s.open slot = .ok s') : Settles s s' := by
  obtain ⟨t, ht, hnext⟩ := exists_of_bind_settle h
  cases hnext
  exact ⟨t, ht, id⟩

theorem settles_putJoined {slot : Slot} {text : String} (h : s.putJoined slot text = .ok s') :
    Settles s s' := by
  obtain ⟨t, ht, hnext⟩ := exists_of_bind_settle h
  exact ⟨t, ht, fun hjson => (settled_of_eq_ok hnext).json.trans hjson⟩

theorem settles_setJson (h : s.setJson = .ok s') : Settles s s' := by
  obtain ⟨t, ht, hnext⟩ := exists_of_bind_settle h
  split at hnext
  · cases hnext
  · cases hnext
    exact ⟨t, ht, fun _ => rfl⟩

theorem not_askHelp : s.askHelp ≠ .ok s' := by
  intro h
  obtain ⟨t, -, hnext⟩ := exists_of_bind_settle h
  cases hnext

theorem settles_positional {text : String} (h : s.positional text = .ok s') : Settles s s' := by
  unfold positional at h
  split at h
  · cases h
  · obtain ⟨t, ht, hnext⟩ := exists_of_bind_settle h
    cases hnext
    exact ⟨t, ht, id⟩

theorem settles_long {name : String} {value : Option String} (h : s.long name value = .ok s') :
    Settles s s' := by
  unfold long at h
  split at h
  · cases h
  · exact settles_open h
  · exact settles_putJoined h
  · exact settles_setJson h
  · exact absurd h not_askHelp
  · cases h

theorem settles_short {letters : List Char} (h : s.short letters = .ok s') : Settles s s' := by
  unfold short at h
  split at h
  · exact settles_open h
  · exact settles_putJoined h
  · exact settles_putJoined h
  · exact absurd h not_askHelp
  · cases h

/-- A step ends the options, or gives a value to the option that waits for it, or settles first. -/
theorem of_step_eq_ok {argument : String} (h : s.step argument = .ok s') :
    s' = { s with optionsEnded := true } ∨
      (∃ slot text, s.opened = some ⟨slot, none⟩ ∧ s' = { s with opened := some ⟨slot, text⟩ }) ∨
      Settles s s' := by
  unfold step at h
  split at h
  · exact .inr (.inr (settles_positional h))
  · split at h
    · cases h
      exact .inl rfl
    · exact .inr (.inr (settles_long h))
    · exact .inr (.inr (settles_short h))
    · unfold word at h
      split at h
      · cases h
        exact .inr (.inl ⟨_, _, ‹_›, rfl⟩)
      · exact .inr (.inr (settles_positional h))

theorem Lost.step (hs : Lost s) {argument : String} (h : s.step argument = .ok s') : Lost s' := by
  rcases of_step_eq_ok h with rfl | ⟨slot, text, hslot, rfl⟩ | ⟨t, ht, hkeeps⟩
  · rcases hs with hjson | ⟨hnone, r, hr⟩
    · exact .inl hjson
    · refine .inr ⟨hnone, r, ?_⟩
      rw [settle_endOptions, hr]
      rfl
  · rcases hs with hjson | ⟨hnone, -⟩
    · exact .inl hjson
    · exact absurd hslot (hnone slot)
  · rcases hs with hjson | ⟨-, r, hr⟩
    · exact .inl (hkeeps ((settled_of_eq_ok ht).json.trans hjson))
    · cases hr.symm.trans ht

/-- No arguments without the flag come from a lost state. -/
theorem Lost.finish (hs : Lost s) {a : BuildArguments} (h : s.finish = .ok a) : a.json = true := by
  rcases ht : s.settle with e | t
  · rw [Reading.finish, ht] at h
    cases h
  · rw [finish_of_settle ht] at h
    rcases hs with hjson | ⟨-, r, hr⟩
    · split at h
      · cases h
      · rename_i harguments
        cases h
        rw [Given.json_of_arguments harguments, (settled_of_eq_ok ht).json, hjson]
    · cases hr.symm.trans ht

/-! ### All arguments -/

namespace Beside

variable {x x' : Except Interruption Reading}

theorem step (h : Beside x x') (argument : String) :
    Beside (x >>= (Reading.step · argument)) (x' >>= (Reading.step · argument)) := by
  cases h with
  | read h => exact h.step argument
  | same e => exact .same e
  | refused e r => exact .refused e r
  | @lost s h r =>
    -- the line with the flag is refused already, the other one goes on or ends
    show Beside (s.step argument) (.error (.refused r))
    rcases hstep : s.step argument with e | s₁
    · exact .refused e r
    · exact .lost (h.step hstep) r

theorem foldlM (h : Beside x x') (arguments : List String) :
    Beside (x >>= (arguments.foldlM Reading.step ·))
      (x' >>= (arguments.foldlM Reading.step ·)) := by
  induction arguments generalizing x x' with
  | nil => simpa using h
  | cons argument arguments ih =>
    have hrest := ih (h.step argument)
    simp only [bind_assoc] at hrest
    simpa only [List.foldlM_cons] using hrest

/-- What is read in the end. -/
theorem finish (h : Beside x x') : Flagged (x >>= Reading.finish) (x' >>= Reading.finish) := by
  cases h with
  | @read s s' h =>
    show Flagged s.finish s'.finish
    have hsettle := h.settle_eq
    rcases ht : s.settle with e | t
    · rw [ht] at hsettle
      rw [Reading.finish, Reading.finish, ht, hsettle]
      exact .same e
    · rw [ht] at hsettle
      have harguments : t.withJson.given.arguments = _ := Given.arguments_withJson t.given
      rw [finish_of_settle ht, finish_of_settle hsettle, harguments]
      rcases t.given.arguments with e | a
      · exact .same _
      · exact .withJson a
  | same e => exact .same e
  | refused e r => exact .ofRefused _ r fun a h => by cases h
  | lost h r => exact .ofRefused _ r fun a ha => h.finish ha

end Beside

/-- Where the flag is added, unless it is lost there. -/
theorem beside_setJson (hnone : ∀ slot, s.opened ≠ some ⟨slot, none⟩) :
    Beside (.ok s) s.setJson := by
  rcases ht : s.settle with e | t
  · obtain ⟨r, rfl⟩ := exists_refused_of_settle ht
    rw [setJson, ht]
    exact .lost (.inr ⟨hnone, r, ht⟩) r
  · rw [setJson, ht]
    show Beside _ (if t.given.json then _ else _)
    cases hjson : t.given.json with
    | true =>
      have hs : s.given.json = true := (settled_of_eq_ok ht).json.symm.trans hjson
      exact .lost (.inl hs) .conflict
    | false => exact .read (.settled ht)

end Reading

/-! ### Lines -/

/-- Where an option may begin: no option waits for its value, and options have not ended. -/
def TakesOption (arguments : List String) : Prop :=
  ∀ s, arguments.foldlM Reading.step {} = .ok s →
    (∀ slot, s.opened ≠ some ⟨slot, none⟩) ∧ s.optionsEnded = false

theorem readBuild_addJson {before : List String} (hbefore : TakesOption before)
    (after : List String) :
    Flagged (readBuild (before ++ after)) (readBuild (before ++ "--json" :: after)) := by
  rw [readBuild, readBuild, List.foldlM_append, List.foldlM_append]
  rcases hread : before.foldlM Reading.step {} with e | s
  · exact .same e
  · obtain ⟨hnone, hended⟩ := hbefore s hread
    have hrest := ((Reading.beside_setJson hnone).foldlM after).finish
    rw [← Reading.step_json hended] at hrest
    exact hrest

/-- The flag for a JSON string, added to a line of `build` where an option may begin. -/
inductive AddsJson : List String → List String → Prop where
  | intro {flags before : List String} (hflags : ∀ flag ∈ flags, flag ≠ "build" ∧ flag ≠ "help")
      (hbefore : TakesOption before) (after : List String) :
      AddsJson (flags ++ "build" :: (before ++ after))
        (flags ++ "build" :: (before ++ "--json" :: after))

/-- The text of a word is the argument itself. -/
theorem Token.eq_of_ofArgument {argument text : String}
    (h : Token.ofArgument argument = .word text) : text = argument := by
  unfold Token.ofArgument at h
  split at h
  · cases h
  · split at h <;> cases h
  · cases h
  · cases h
    rfl

/-- Before the subcommand nothing is read of what comes after it. -/
theorem readFrom_build {flags : List String}
    (hflags : ∀ flag ∈ flags, flag ≠ "build" ∧ flag ≠ "help") (isVerbose : Bool) :
    (∃ e, ∀ arguments, readFrom isVerbose (flags ++ "build" :: arguments) = .error e) ∨
      ∃ isVerbose', ∀ arguments, readFrom isVerbose (flags ++ "build" :: arguments) =
        (readBuild arguments).map fun a => ⟨isVerbose', some a⟩ := by
  induction flags generalizing isVerbose with
  | nil =>
    refine .inr ⟨isVerbose, fun arguments => ?_⟩
    show readBuild arguments >>= _ = _
    cases readBuild arguments <;> rfl
  | cons flag flags ih =>
    obtain ⟨⟨hbuild, hhelp⟩, hrest⟩ := List.forall_mem_cons.1 hflags
    simp only [List.cons_append, readFrom]
    cases htoken : Token.ofArgument flag with
    | endOfOptions =>
      cases flags with
      | nil => exact .inl ⟨_, fun _ => rfl⟩
      | cons f flags =>
        have hf := (List.forall_mem_cons.1 hrest).1
        refine .inl ⟨.refused .invalidSubcommand, fun arguments => ?_⟩
        show (if f = "build" ∨ f = "help" then _ else _) = _
        rw [if_neg (not_or.2 hf)]
    | long name value =>
      dsimp only
      split
      · exact .inl ⟨_, fun _ => rfl⟩
      · exact .inl ⟨_, fun _ => rfl⟩
      · rename_i flag _
        rcases flag.set isVerbose with e | isVerbose'
        · exact .inl ⟨e, fun _ => rfl⟩
        · exact ih hrest isVerbose'
    | short letters =>
      dsimp only
      rcases setLetters isVerbose letters with e | isVerbose'
      · exact .inl ⟨e, fun _ => rfl⟩
      · exact ih hrest isVerbose'
    | word text =>
      obtain rfl := Token.eq_of_ofArgument htoken
      refine .inl ⟨.refused .invalidSubcommand, fun arguments => ?_⟩
      split
      all_goals simp_all

/-- **The flag for a JSON string, added.**  A line of `build` without the flag asks for the same
with it, and a line that is refused is refused with it. -/
theorem ofLine_of_addsJson {line flagged : List String} (h : AddsJson line flagged) :
    (∀ isVerbose a, ofLine line = .ok ⟨isVerbose, some a⟩ → a.json = false →
      ofLine flagged = .ok ⟨isVerbose, some { a with json := true }⟩) ∧
      ∀ r, ofLine line = .error (.refused r) → ∃ r', ofLine flagged = .error (.refused r') := by
  obtain @⟨flags, before, hflags, hbefore, after⟩ := h
  rcases readFrom_build hflags false with ⟨e, he⟩ | ⟨isVerbose', hread⟩
  · rw [ofLine, ofLine, he, he]
    exact ⟨nofun, fun r h => ⟨r, h⟩⟩
  · rw [ofLine, ofLine, hread, hread]
    obtain ⟨haccepted, hrefused⟩ := readBuild_addJson hbefore after
    rcases hplain : readBuild (before ++ after) with e | a
    · refine ⟨nofun, fun r h => ?_⟩
      cases h
      obtain ⟨r', hr'⟩ := hrefused r hplain
      rw [hr']
      exact ⟨r', rfl⟩
    · refine ⟨fun isVerbose b h hjson => ?_, nofun⟩
      cases h
      rw [haccepted a hplain hjson]
      rfl

end FragmentAssembly.Command
