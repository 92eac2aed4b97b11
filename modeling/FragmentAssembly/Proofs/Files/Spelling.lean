/-
FragmentAssembly/Proofs/Files/Spelling.lean

Spellings of one path.  Paths with the same components need not lead to the same: `d/a/` leads
nowhere if `d/a` is a file, and one spelling may be too long where another is not.  But if both
lead anywhere, they lead to the same place (`target_eq_of_same`), so two spellings of a file that
can both be opened are read alike (`read_eq_of_same`).

A way to a place is written down as a relation (`Descends`), one case for each kind of piece.  A
piece that makes no component does not move: leaving it out of the way leaves the place
(`Descends.thin`), also in the middle of following a link.
-/
import FragmentAssembly.Files.Tree

namespace FragmentAssembly

namespace Path

/-! ### Pieces that move -/

/-- Whether a piece of a path leads anywhere but to where it stands. -/
def moves (piece : String) : Bool :=
  piece != "" && piece != "."

/-- The piece that a component is written with, if it moves. -/
def Component.piece? : Component → Option String
  | root | here => none
  | up => some ".."
  | name text => some text

theorem moves_eq_true_iff {piece : String} : moves piece = true ↔ piece ≠ "" ∧ piece ≠ "." := by
  simp [moves]

theorem moves_eq_false_iff {piece : String} : moves piece = false ↔ piece = "" ∨ piece = "." := by
  rw [moves, Bool.and_eq_false_iff, bne_eq_false_iff_eq, bne_eq_false_iff_eq]

theorem Component.bind_piece?_ofPiece? (piece : String) :
    (ofPiece? piece).bind piece? = if moves piece then some piece else none := by
  unfold ofPiece?
  split
  · rfl
  · rfl
  · rfl
  · rename_i hempty hdot _
    rw [if_pos (moves_eq_true_iff.2 ⟨hempty, hdot⟩)]
    rfl

theorem filterMap_piece?_filterMap_ofPiece? (pieces : List String) :
    (pieces.filterMap Component.ofPiece?).filterMap Component.piece? = pieces.filter moves := by
  rw [List.filterMap_filterMap, funext Component.bind_piece?_ofPiece?]
  exact congrFun List.filterMap_eq_filter pieces

/-- The components of a path tell which of its pieces move. -/
theorem filterMap_piece?_components (path : String) :
    (components path).filterMap Component.piece? = (pieces path).filter moves := by
  unfold components
  split
  · rename_i hpieces
    rw [hpieces]
    rfl
  · rename_i first rest hpieces
    rw [hpieces, ← filterMap_piece?_filterMap_ofPiece?]
    split
    · split
      · rename_i hrest
        rw [List.isEmpty_iff.1 hrest]
        rfl
      · rfl
    · rfl
    · rw [List.filterMap_cons]
      rcases Component.ofPiece? first with - | component <;> rfl

theorem pieces_cons_slash {path : String} {rest : List Char} (h : path.toList = '/' :: rest) :
    pieces path = "" :: (rest.splitOn '/').map String.ofList := by
  rw [pieces, Text.splitOn, h, List.splitOn, List.splitOnP_cons_eq_if_modifyHead]
  rfl

theorem exists_pieces_cons {path : String} {c : Char} {rest : List Char}
    (h : path.toList = c :: rest) (hc : c ≠ '/') :
    ∃ first more, pieces path = String.ofList (c :: first) :: more := by
  rw [pieces, Text.splitOn, h, List.splitOn, List.splitOnP_cons_eq_if_modifyHead,
    if_neg (by simpa using hc)]
  obtain ⟨first, more, hsplit⟩ := List.exists_cons_of_ne_nil (List.splitOnP_ne_nil (· == '/') rest)
  rw [hsplit]
  exact ⟨first, more.map String.ofList, rfl⟩

theorem Component.exists_of_moves {piece : String} (h : moves piece = true) :
    ∃ component, ofPiece? piece = some component ∧ component ≠ .root := by
  have hbind := bind_piece?_ofPiece? piece
  rw [if_pos h, Option.bind_eq_some_iff] at hbind
  obtain ⟨component, hpiece, hwritten⟩ := hbind
  refine ⟨component, hpiece, ?_⟩
  rintro rfl
  cases hwritten

/-- The components of a path tell whether it begins with a slash. -/
theorem head?_components_eq_root_iff (path : String) :
    (components path).head? = some .root ↔ path.toList.head? = some '/' := by
  rcases htext : path.toList with - | ⟨c, rest⟩
  · obtain rfl : path = "" := String.toList_inj.1 htext
    decide
  · by_cases hc : c = '/'
    · subst hc
      rw [components, pieces_cons_slash htext]
      simp
    · -- the first piece begins with the first character, so it is not the empty one
      obtain ⟨first, more, hpieces⟩ := exists_pieces_cons htext hc
      rw [components, hpieces]
      dsimp only
      split
      · rename_i hempty
        simp at hempty
      · simp [hc]
      · rename_i hempty hdot
        obtain ⟨component, hpiece, hroot⟩ :=
          Component.exists_of_moves (moves_eq_true_iff.2 ⟨hempty, hdot⟩)
        rw [hpiece]
        simp [hroot, hc]

end Path

namespace FileTree

/-! ### Ways -/

/-- That pieces lead from a place to another one, links at their end followed too, where so many
links may be followed. -/
inductive Descends (t : FileTree) : Nat → Place → List String → Place → Prop
  /-- Nothing is left to take. -/
  | done (links : Nat) (here : Place) : Descends t links here [] here
  /-- The piece does not move. -/
  | stay {links : Nat} {here place : Place} {piece : String} {rest : List String}
      (hdir : t.isDirectory here = true) (hstay : Path.moves piece = false)
      (h : Descends t links here rest place) : Descends t links here (piece :: rest) place
  | up {links : Nat} {here place : Place} {rest : List String}
      (hdir : t.isDirectory here = true)
      (h : Descends t links here.dropLast rest place) : Descends t links here (".." :: rest) place
  /-- The last piece may name something that is not there. -/
  | new {links : Nat} {here : Place} {piece : String}
      (hdir : t.isDirectory here = true) (hmoves : Path.moves piece = true) (hup : piece ≠ "..")
      (hnode : t.node? (here ++ [piece]) = none) (hlength : ¬nameLimit < piece.utf8ByteSize) :
      Descends t links here [piece] (here ++ [piece])
  | link {links : Nat} {here place : Place} {piece target : String} {rest : List String}
      (hdir : t.isDirectory here = true) (hmoves : Path.moves piece = true) (hup : piece ≠ "..")
      (hnode : t.node? (here ++ [piece]) = some (.link target)) (htarget : target.isEmpty = false)
      (h : Descends t links (if target.toList.head? = some '/' then [] else here)
        (Path.pieces target ++ rest) place) : Descends t (links + 1) here (piece :: rest) place
  | enter {links : Nat} {here place : Place} {piece : String} {node : Node} {rest : List String}
      (hdir : t.isDirectory here = true) (hmoves : Path.moves piece = true) (hup : piece ≠ "..")
      (hnode : t.node? (here ++ [piece]) = some node) (hlink : ∀ target, node ≠ .link target)
      (h : Descends t links (here ++ [piece]) rest place) :
      Descends t links here (piece :: rest) place

variable {t : FileTree} {links : Nat} {here place : Place} {pieces thinner : List String}

/-- What was found without following a link at the end is found as well when one is followed, unless
it is a link. -/
theorem descends_of_descend {follow : Bool} (h : t.descend follow links here pieces = .ok place)
    (hend : follow = false → ∀ target, t.node? place ≠ some (.link target)) :
    t.Descends links here pieces place := by
  fun_induction descend t follow links here pieces with
  | case1 links here =>
    cases h
    exact .done links _
  | case2 => cases h
  | case3 links here piece rest hdir hstay ih =>
    exact .stay (by simpa using hdir) (Path.moves_eq_false_iff.2 hstay) (ih h)
  | case4 links here rest hdir _ ih => exact .up (by simpa using hdir) (ih h)
  | case5 => cases h
  | case6 links here piece rest hdir hstay hup hnode hlength hrest =>
    cases h
    obtain rfl := List.isEmpty_iff.1 hrest
    exact .new (by simpa using hdir) (by simpa [Path.moves] using hstay) hup hnode hlength
  | case7 => cases h
  | case8 links here piece rest hdir hstay hup target hnode hstop =>
    cases h
    rw [Bool.and_eq_true, Bool.not_eq_true'] at hstop
    exact absurd hnode (hend hstop.2 target)
  | case9 => cases h
  | case10 => cases h
  | case11 here piece rest hdir hstay hup target hnode hstop htarget links start ih =>
    exact .link (by simpa using hdir) (by simpa [Path.moves] using hstay) hup hnode
      (by simpa using htarget) (ih h)
  | case12 links here piece rest hdir hstay hup node hlink hnode ih =>
    exact .enter (by simpa using hdir) (by simpa [Path.moves] using hstay) hup hnode hlink (ih h)

theorem descend_of_descends (h : t.Descends links here pieces place) :
    t.descend true links here pieces = .ok place := by
  induction h with
  | done links here => rw [descend]
  | stay hdir hstay h ih =>
    rw [descend, if_neg (by simpa using hdir), if_pos (Path.moves_eq_false_iff.1 hstay), ih]
  | up hdir h ih =>
    rw [descend, if_neg (by simpa using hdir), if_neg (by decide), if_pos rfl, ih]
  | new hdir hmoves hup hnode hlength =>
    rw [descend, if_neg (by simpa using hdir), if_neg (by simpa [Path.moves] using hmoves),
      if_neg hup, hnode]
    simp only
    rw [if_neg hlength]
    rfl
  | link hdir hmoves hup hnode htarget h ih =>
    rw [descend, if_neg (by simpa using hdir), if_neg (by simpa [Path.moves] using hmoves),
      if_neg hup, hnode]
    simp [htarget, ih]
  | @enter _ _ _ _ node _ hdir hmoves hup hnode hlink h ih =>
    rw [descend, if_neg (by simpa using hdir), if_neg (by simpa [Path.moves] using hmoves),
      if_neg hup, hnode]
    cases node with
    | link target => exact absurd rfl (hlink target)
    | directory | file _ => exact ih

theorem descends_iff :
    t.Descends links here pieces place ↔ t.descend true links here pieces = .ok place :=
  ⟨descend_of_descends, fun h => descends_of_descend h fun hfollow => by cases hfollow⟩

/-! ### Leaving pieces out -/

/-- That a way is another one without some of the pieces that do not move. -/
inductive Thins : List String → List String → Prop
  | nil : Thins [] []
  | keep (piece : String) {pieces thinner : List String} (h : Thins pieces thinner) :
      Thins (piece :: pieces) (piece :: thinner)
  | drop {piece : String} {pieces thinner : List String} (hstay : Path.moves piece = false)
      (h : Thins pieces thinner) : Thins (piece :: pieces) thinner

theorem thins_filter (pieces : List String) : Thins pieces (pieces.filter Path.moves) := by
  induction pieces with
  | nil => exact .nil
  | cons piece pieces ih =>
    rw [List.filter_cons]
    split
    · exact .keep piece ih
    · rename_i hstay
      exact .drop (Bool.not_eq_true _ ▸ hstay) ih

theorem Thins.append_left (h : Thins pieces thinner) (before : List String) :
    Thins (before ++ pieces) (before ++ thinner) := by
  induction before with
  | nil => exact h
  | cons piece before ih => exact .keep piece ih

/-- A way without some of the pieces that do not move leads to the same place. -/
theorem Descends.thin (h : t.Descends links here pieces place) (hthins : Thins pieces thinner) :
    t.Descends links here thinner place := by
  induction h generalizing thinner with
  | done links here =>
    cases hthins
    exact .done links here
  | stay hdir hstay h ih =>
    cases hthins with
    | keep _ hrest => exact .stay hdir hstay (ih hrest)
    | drop _ hrest => exact ih hrest
  | up hdir h ih =>
    cases hthins with
    | keep _ hrest => exact .up hdir (ih hrest)
    | drop hstay _ => cases hstay
  | new hdir hmoves hup hnode hlength =>
    cases hthins with
    | keep _ hrest =>
      cases hrest
      exact .new hdir hmoves hup hnode hlength
    | drop hstay _ => cases hmoves.symm.trans hstay
  | link hdir hmoves hup hnode htarget h ih =>
    -- the target comes in front of what is left, and stays as it is
    cases hthins with
    | keep _ hrest => exact .link hdir hmoves hup hnode htarget (ih (hrest.append_left _))
    | drop hstay _ => cases hmoves.symm.trans hstay
  | enter hdir hmoves hup hnode hlink h ih =>
    cases hthins with
    | keep _ hrest => exact .enter hdir hmoves hup hnode hlink (ih hrest)
    | drop hstay _ => cases hmoves.symm.trans hstay

/-! ### Spellings -/

variable {p q : String}

theorem target_eq_ok_iff {node : Node} :
    t.target p = .ok (place, node) ↔ t.place true p = .ok place ∧ t.node? place = some node := by
  rw [target]
  rcases t.place true p with e | there
  · simp [bind, Except.bind]
  · simp only [bind, Except.bind]
    constructor
    · intro h
      split at h
      · cases h
      · rename_i hnode
        cases h
        exact ⟨rfl, hnode⟩
    · rintro ⟨heq, hnode⟩
      cases heq
      rw [hnode]

theorem isFile_of_target {content : ByteArray} (h : t.target p = .ok (place, .file content)) :
    t.isFile p = true := by
  rw [isFile, h]

/-- A file that holds the bytes of a text is read as that text. -/
theorem read_of_target {text : String} (h : t.target p = .ok (place, .file text.toUTF8)) :
    t.read p = .ok text := by
  have htext : String.fromUTF8? text.toUTF8 = some text := by
    rw [String.toUTF8_eq_toByteArray, String.fromUTF8?, dif_pos text.isValidUTF8]
    rfl
  rw [read, readBytes, h]
  simp only [bind, Except.bind, htext]

theorem exists_target_of_isFile (h : t.isFile p = true) : ∃ x, t.target p = .ok x := by
  unfold isFile at h
  split at h
  · exact ⟨_, ‹_›⟩
  · cases h

theorem origin_eq_of_same (h : Path.Same p q) : t.origin p = t.origin q := by
  rw [origin, origin]
  simp only [← Path.head?_components_eq_root_iff]
  rw [show Path.components p = Path.components q from h]

/-- What a path that leads to a place says about the pieces that move. -/
theorem descends_of_place (h : t.place true p = .ok place) :
    t.Descends linkLimit (t.origin p) ((Path.components p).filterMap Path.Component.piece?)
      place := by
  unfold FileTree.place at h
  split at h
  · cases h
  · split at h
    · cases h
    · split at h
      · cases h
      · rw [Path.filterMap_piece?_components]
        exact (descends_iff.2 h).thin (thins_filter _)

/-- Two spellings of a path that lead to a place lead to the same. -/
theorem place_eq_of_same {other : Place} (h : Path.Same p q) (hp : t.place true p = .ok place)
    (hq : t.place true q = .ok other) : place = other := by
  have hway := descends_of_place hq
  rw [← show Path.components p = Path.components q from h, ← origin_eq_of_same h,
    descends_iff] at hway
  exact Except.ok.inj ((descends_iff.1 (descends_of_place hp)).symm.trans hway)

/-- Two spellings of a path under which something stands lead to the same. -/
theorem target_eq_of_same {x y : Place × Node} (h : Path.Same p q) (hp : t.target p = .ok x)
    (hq : t.target q = .ok y) : x = y := by
  obtain ⟨hplace, hnode⟩ := target_eq_ok_iff.1 hp
  obtain ⟨hother, hnode'⟩ := target_eq_ok_iff.1 hq
  have heq := place_eq_of_same h hplace hother
  rw [heq, hnode'] at hnode
  exact Prod.ext heq (Option.some.inj hnode.symm)

/-- Two spellings of a file are read alike. -/
theorem read_eq_of_same (h : Path.Same p q) (hp : t.isFile p = true) (hq : t.isFile q = true) :
    t.read p = t.read q := by
  obtain ⟨x, hx⟩ := exists_target_of_isFile hp
  obtain ⟨y, hy⟩ := exists_target_of_isFile hq
  obtain rfl := target_eq_of_same h hx hy
  rw [read, read, readBytes, readBytes, hx, hy]

end FileTree

end FragmentAssembly
