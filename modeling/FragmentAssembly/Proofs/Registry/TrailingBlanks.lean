/-
FragmentAssembly/Proofs/Registry/TrailingBlanks.lean

Blanks at the end of a file.  A file is registered without them, so its text and the definition may
differ, and they differ in one thing that matters: the blank that ends the name of a header may be
among them.  If the first header is such a header, none is left (`first?_eq_none_iff`), since behind
its keyword there are only blanks and name characters, and a header that stood there would need a
blank behind a name.  Otherwise the first header is still there and still the first.  So a file is
either refused or registered under the name that its whole text declares
(`load_agrees_with_text`); no other header is ever taken in place of the one that was cut.

Spreads are not touched: no dot and no name character is a blank (`ofText_trimEnd`).
-/
import FragmentAssembly.Proofs.Command.Loading
import FragmentAssembly.Proofs.Header.Appending
import FragmentAssembly.Proofs.Spread.Seam
import FragmentAssembly.Proofs.Text.Trimming

namespace FragmentAssembly

open Text

namespace Header

variable {kept trailing name : List Char} {pos : Nat}

/-- The name of the header at a position ends in front of another position. -/
def NameEndsAt (cs : List Char) (pos stop : Nat) : Prop :=
  ∃ blanks name after, ReadsAs (cs.drop pos) blanks name after ∧
    stop = pos + (keyword ++ (blanks ++ name)).length

/-! ### Where a name ends -/

/-- What stands up to the end of a name, and behind it. -/
theorem StandsAt.exists_append (h : StandsAt kept pos name) :
    ∃ before blanks after, before.length = pos ∧
      kept = before ++ (keyword ++ (blanks ++ name)) ++ after ∧
        ReadsAs (kept.drop pos) blanks name after := by
  have hle := h.le_length
  obtain ⟨blanks, after, h⟩ := h
  refine ⟨kept.take pos, blanks, after, List.length_take_of_le hle, ?_, h⟩
  have heq := h.eq_append
  rw [← List.append_assoc blanks, ← List.append_assoc keyword] at heq
  rw [List.append_assoc, ← heq, List.take_append_drop]

/-- A name does not reach into blanks that stand at the end, and where it ends before them, so does
the header with the blank behind its name. -/
theorem nameEndsAt_or_standsAt (h : StandsAt (kept ++ trailing) pos name)
    (htrailing : AllBlank trailing) :
    NameEndsAt (kept ++ trailing) pos kept.length ∨ StandsAt kept pos name := by
  obtain ⟨before, blanks, after, rfl, heq, hreads⟩ := h.exists_append
  rcases List.append_eq_append_iff.1 heq with ⟨extra, hname, htail⟩ | ⟨extra, hkept, hafter⟩
  · left
    rcases List.eq_nil_or_concat extra with rfl | ⟨inner, b, rfl⟩
    · refine ⟨blanks, name, after, hreads, ?_⟩
      rw [← List.length_append, hname, List.append_nil]
    · -- the last character would be a blank, but it is the last one of the name
      have hlast : name.getLast? = some b := by
        obtain ⟨c, run, rfl, -⟩ := hreads.exists_start
        have := congrArg List.getLast? hname
        simpa [List.getLast?_append] using this
      have hblank : isBlank b = true := htrailing b (by rw [htail]; simp)
      rw [isBlank_of_isNameChar (hreads.isNameChar (List.mem_of_getLast? hlast))] at hblank
      cases hblank
  · rcases extra with - | ⟨b, rest⟩
    · left
      refine ⟨blanks, name, after, hreads, ?_⟩
      rw [hkept, List.append_nil, List.length_append]
    · right
      rw [hafter] at hreads
      refine ⟨blanks, b :: rest, ?_⟩
      rw [hkept, List.append_assoc, List.drop_left]
      have hwhole :=
        readsAs hreads.blanks hreads.starts (fun c => hreads.isNameChar) hreads.ends rest
      simpa only [List.append_assoc] using hwhole

/-- When blanks are taken away at the end, no header is left just if the name of the first one
ended in front of them. -/
theorem FirstAt.first?_eq_none_iff (h : FirstAt (kept ++ trailing) pos name)
    (htrailing : AllBlank trailing) :
    first? kept = none ↔ NameEndsAt (kept ++ trailing) pos kept.length := by
  constructor
  · intro hnone
    exact (nameEndsAt_or_standsAt h.stands htrailing).resolve_right
      (Header.first?_eq_none_iff.1 hnone pos name)
  · rintro ⟨blanks, run, after, hreads, hstop⟩
    refine Option.eq_none_iff_forall_ne_some.2 fun other hother => ?_
    obtain ⟨earlier, hearlier⟩ := first?_eq_some_iff.1 hother
    -- the header that is left is the first one of the whole text
    obtain rfl : earlier = pos := Nat.le_antisymm
      ((hearlier.append trailing).le h.stands) (h.le (hearlier.append trailing).stands)
    have hle : earlier ≤ kept.length := hearlier.stands.le_length
    have hkept : kept.drop earlier = keyword ++ (blanks ++ run) := by
      have heq := hreads.eq_append
      rw [List.drop_append_of_le_length hle, ← List.append_assoc blanks,
        ← List.append_assoc keyword] at heq
      exact List.append_inj_left heq (by rw [List.length_drop, hstop, Nat.add_sub_cancel_left])
    have hstands : StandsAt (kept.drop earlier) 0 other := hearlier.stands
    rw [hkept] at hstands
    refine hstands.not_pairwise ?_
    rw [List.drop_left]
    exact hreads.pairwise

end Header

/-! ### Spreads -/

/-- The spreads of a text are not touched when its end is trimmed. -/
theorem Spread.ofText_trimEnd (text : String) : ofText (trimEnd text) = ofText text := by
  obtain ⟨after, hafter, heq⟩ := exists_trimEnd_eq_append text
  have hdot : ∀ c ∈ after, c ≠ '.' := by
    rintro c hc rfl
    exact absurd (hafter _ hc) (by decide)
  have hseam : Seam after := by
    intro c rest hcons
    have hc : c ∈ after := by
      rw [hcons]
      exact List.mem_cons_self
    refine ⟨Bool.eq_false_iff.2 fun hname => ?_, fun h => absurd h (hdot c hc)⟩
    have hblank := hafter c hc
    rw [isBlank_of_isNameChar hname] at hblank
    cases hblank
  have hall : all after = [] := by
    have hpassed := all_append_of_no_dot after [] hdot
    rwa [List.append_nil] at hpassed
  rw [ofText_eq_all, ofText_eq_all, heq, all_append_of_seam hseam, hall, List.append_nil]

/-! ### Loading and adding -/

namespace Registry

variable {r : Registry} {path content : String} {files : FileTree}

theorem outcome_load_eq_ok_iff {f : Fragment} (hread : files.read path = .ok content) :
    (r.load files path).1.outcome = .ok f ↔
      Header.name? (trimEnd content) = some f.name ∧ f = .define f.name (trimEnd content) := by
  constructor
  · intro h
    obtain ⟨content', hread', hadd⟩ := addText_of_load h
    obtain rfl := Except.ok.inj (hread.symm.trans hread')
    exact outcome_addText_eq_ok_iff.1 hadd
  · rintro ⟨hname, hf⟩
    have hfragment := FileTree.fragment?_eq_some_iff.2 ⟨content, f.name, hread, hname, hf⟩
    exact (load_of_fragment? hfragment).1

/-- A file that can be read is refused just when no header is left without its trailing blanks. -/
theorem exists_load_eq_error_iff (hread : files.read path = .ok content) :
    (∃ e, (r.load files path).1.outcome = .error e) ↔
      Header.first? (trimEnd content).toList = none := by
  rw [← Option.map_eq_none_iff (f := String.ofList), ← Header.name?_eq_first?]
  constructor
  · rintro ⟨e, he⟩
    refine Option.eq_none_iff_forall_ne_some.2 fun name hname => ?_
    have hok := (outcome_load_eq_ok_iff (r := r) (f := .define name (trimEnd content)) hread).2
      ⟨hname, rfl⟩
    rw [he] at hok
    cases hok
  · intro hnone
    rcases houtcome : (r.load files path).1.outcome with e | f
    · exact ⟨e, rfl⟩
    · obtain ⟨hname, -⟩ := (outcome_load_eq_ok_iff hread).1 houtcome
      rw [hnone] at hname
      cases hname

/-- Loading a file agrees with adding its text.  What is loaded is the text without its trailing
blanks, under the name and with the spreads that the whole text gives; and a text that can be added
is refused as a file just when the name of its first header ends where the trailing blanks begin.
Without its trailing blanks a text never has another first header, or other spreads. -/
theorem load_agrees_with_text (r : Registry) (hread : files.read path = .ok content) :
    (∀ f, (r.load files path).1.outcome = .ok f →
        f.definition = trimEnd content ∧
          ∃ g, (r.add (.text content)).1.outcome = .ok g ∧ g.name = f.name ∧
            g.spreads = f.spreads) ∧
      (∀ g, (r.add (.text content)).1.outcome = .ok g →
        ((∃ e, (r.load files path).1.outcome = .error e) ↔
          ∃ pos, Header.FirstAt content.toList pos g.name.toList ∧
            Header.NameEndsAt content.toList pos (trimEnd content).toList.length)) ∧
      (∀ pos name, Header.FirstAt (trimEnd content).toList pos name →
        Header.FirstAt content.toList pos name) ∧
      Spread.ofText (trimEnd content) = Spread.ofText content := by
  obtain ⟨after, hafter, hcontent⟩ := exists_trimEnd_eq_append content
  have hlonger : ∀ pos name, Header.FirstAt (trimEnd content).toList pos name →
      Header.FirstAt content.toList pos name := by
    intro pos name hfirst
    rw [hcontent]
    exact hfirst.append after
  refine ⟨fun f hf => ?_, fun g hg => ?_, hlonger, Spread.ofText_trimEnd content⟩
  · obtain ⟨hname, hdefine⟩ := (outcome_load_eq_ok_iff hread).1 hf
    obtain ⟨pos, hpos⟩ := Header.name?_eq_some_iff.1 hname
    have hwhole : Header.name? content = some f.name :=
      Header.name?_eq_some_iff.2 ⟨pos, hlonger pos _ hpos⟩
    have hspreads : Spread.ofText content = f.spreads :=
      (Spread.ofText_trimEnd content).symm.trans (congrArg Fragment.spreads hdefine).symm
    exact ⟨congrArg Fragment.definition hdefine, .define f.name content,
      outcome_addText_eq_ok_iff.2 ⟨hwhole, rfl⟩, rfl, hspreads⟩
  · obtain ⟨hname, -⟩ := outcome_addText_eq_ok_iff.1 hg
    obtain ⟨pos, hpos⟩ := Header.name?_eq_some_iff.1 hname
    rw [exists_load_eq_error_iff hread]
    have hiff : Header.first? (trimEnd content).toList = none ↔
        Header.NameEndsAt content.toList pos (trimEnd content).toList.length := by
      have hsplit := hpos
      rw [hcontent] at hsplit ⊢
      exact hsplit.first?_eq_none_iff hafter
    rw [hiff]
    constructor
    · exact fun hends => ⟨pos, hpos, hends⟩
    · rintro ⟨other, hother, hends⟩
      obtain rfl := Nat.le_antisymm (hother.le hpos.stands) (hpos.le hother.stands)
      exact hends

/-- A file with a content. -/
def holding (content : String) : FileTree :=
  ⟨[(["w"], .directory), (["w", "n.gql"], .file content.toUTF8)], ["w"]⟩

theorem read_holding (content : String) : (holding content).read "n.gql" = .ok content := by
  have hroot : (holding content).isDirectory ["w"] = true := rfl
  have hnode : (holding content).node? ["w", "n.gql"] = some (.file content.toUTF8) := rfl
  have hplace : (holding content).place true "n.gql" = .ok ["w", "n.gql"] := by
    show (holding content).descend true FileTree.linkLimit ["w"] ["n.gql"] = _
    simp [FileTree.descend, hroot, hnode]
  exact FileTree.read_of_target (FileTree.target_eq_ok_iff.2 ⟨hplace, hnode⟩)

/-- A text whose name ends where its trailing blanks begin. -/
def nameAtEnd : String := "fragment A\n"

/-- A definition with blanks behind it, one of which is not ASCII. -/
def blanksAtEnd : String := "fragment A on T { ...B }\u3000\n"

theorem load_agrees_with_text_holding :
    ((holding nameAtEnd).read "n.gql" = .ok nameAtEnd ∧
      (empty.add (.text nameAtEnd)).1.outcome = .ok (.define "A" nameAtEnd) ∧
      ∃ e, (empty.load (holding nameAtEnd) "n.gql").1.outcome = .error e) ∧
    (holding blanksAtEnd).read "n.gql" = .ok blanksAtEnd ∧
      (empty.load (holding blanksAtEnd) "n.gql").1.outcome =
        .ok (.define "A" "fragment A on T { ...B }") ∧
      ∃ g, (empty.add (.text blanksAtEnd)).1.outcome = .ok g ∧ g.name = "A" ∧
        g.spreads = Spread.ofText "fragment A on T { ...B }" := by
  have hraw : (empty.add (.text nameAtEnd)).1.outcome = .ok (.define "A" nameAtEnd) := by
    refine outcome_addText_eq_ok_iff.2 ⟨?_, rfl⟩
    rw [Header.name?_eq_first?]
    decide
  have hrefused : ∃ e, (empty.load (holding nameAtEnd) "n.gql").1.outcome = .error e := by
    obtain ⟨-, hiff, -⟩ := load_agrees_with_text empty (read_holding nameAtEnd)
    have hreads : Header.ReadsAs nameAtEnd.toList [' '] ['A'] ['\n'] :=
      ⟨rfl, List.forall_mem_singleton.2 rfl, rfl, rfl, rfl⟩
    exact (hiff _ hraw).2 ⟨0, ⟨⟨_, _, hreads⟩, fun earlier h => absurd h (Nat.not_lt_zero earlier)⟩,
      _, _, _, hreads, by decide⟩
  have htrim : trimEnd blanksAtEnd = "fragment A on T { ...B }" := by decide
  have hloaded : (empty.load (holding blanksAtEnd) "n.gql").1.outcome =
      .ok (.define "A" "fragment A on T { ...B }") := by
    refine (outcome_load_eq_ok_iff (read_holding blanksAtEnd)).2 ⟨?_, by rw [htrim]; rfl⟩
    rw [htrim, Header.name?_eq_first?]
    decide
  obtain ⟨hagrees, -⟩ := load_agrees_with_text empty (read_holding blanksAtEnd)
  exact ⟨⟨read_holding _, hraw, hrefused⟩, read_holding _, hloaded, (hagrees _ hloaded).2⟩

end Registry

end FragmentAssembly
