import Chessh.Verif.Fen

/-!
# The scanner of `init_game`

What the checks of `init_game` let through, field by field. The board field is read by a
cursor, `walk`; `Front` holds the fields up to the rights to castle, and `initGame_front` says
that behind them only the en passant square and the clocks are left to read.
-/

namespace Chessh

open Rules (Side Kind Man Square Wing Placement manOf kindOf numeral sideLetter rightLetter)

/-! ## The board field -/

/-- The row and the column the first loop has reached behind some of the board field, unless it
has refused it. -/
def walk : List Char → Int × Int → Option (Int × Int)
  | [], s => some s
  | ch :: rest, s =>
    if ch = '/' then if s.2 = 8 then walk rest (s.1 + 1, 0) else none
    else if (manOf ch).isSome then walk rest (s.1, s.2 + 1)
    else if ch.isDigit ∧ (digitValue ch = 0 ∨ s.2 + digitValue ch ≤ 8) then
      walk rest (s.1, s.2 + digitValue ch)
    else none

/-- The men on the board behind some of the board field. -/
def menAfter : List Char → Placement → Int × Int → Placement
  | [], board, _ => board
  | ch :: rest, board, s =>
    if ch = '/' then menAfter rest board (s.1 + 1, 0)
    else
      match manOf ch with
      | some man => menAfter rest (Function.update board s (some man)) (s.1, s.2 + 1)
      | none =>
        menAfter rest
          (fun t => if t.1 = s.1 ∧ s.2 ≤ t.2 ∧ t.2 < s.2 + digitValue ch then none else board t)
          (s.1, s.2 + digitValue ch)

/-- Walking over two parts is walking over the first, then the second. -/
theorem walk_append (first second : List Char) (s : Int × Int) :
    walk (first ++ second) s = (walk first s).bind (walk second) := by
  induction first generalizing s with
  | nil => rfl
  | cons ch rest ih =>
    rw [List.cons_append, walk, walk]
    split
    · split
      · exact ih _
      · rfl
    split
    · exact ih _
    split
    · exact ih _
    · rfl

/-- The letters `init_game` knows are those of the men. -/
theorem letterType_manOf (ch : Char) :
    letterType ch.toLower = (manOf ch).map fun man => typeOf man.kind := by
  unfold manOf
  generalize ch.toLower = low
  rw [Option.map_map]
  have same : letterType low = (kindOf low).map typeOf := by
    unfold letterType kindOf
    split <;> simp_all [typeOf]
  rw [same]
  rfl

/-- A letter is lower case for Black. -/
theorem isLower_of_manOf {ch : Char} {man : Man} (letter : manOf ch = some man) :
    ch.isLower = man.letter.isLower := by
  obtain ⟨kind, -, rfl⟩ := Option.map_eq_some_iff.mp letter
  refine Bool.eq_iff_iff.mpr ((?_ : _ ↔ _).trans (Man.letter_isLower _).symm)
  dsimp only
  split <;> simp_all

/-- A letter loads the man it stands for. -/
theorem loadPiece_letter (g : Game) (r c : Int) {ch : Char} {man : Man}
    (letter : manOf ch = some man) (t : PieceType) :
    loadPiece g r c ch t = loadPiece g r c man.letter t := by
  have lower := isLower_of_manOf letter
  unfold loadPiece loadedMoves
  simp only [lower]

/-- A run of free squares ends where it fits. -/
theorem clearRun_cursor (run : Nat) (g : Game) (r c : Int) :
    (clearRun run g r c).2 = if run = 0 ∨ c + run ≤ 8 then some (c + run) else none := by
  induction run generalizing g c with
  | zero => simp [clearRun]
  | succ run ih =>
    rw [clearRun]
    by_cases past : 8 ≤ c
    · rw [if_pos past, if_neg (by omega)]
    · have next : c + 1 + (run : Int) = c + ((run + 1 : Nat) : Int) := by
        push_cast
        ring
      rw [if_neg past, ih, next]
      refine if_congr ?_ rfl rfl
      omega

/-- A run of free squares holds no men. -/
theorem clearRun_men {run : Nat} {g : Game} {r c : Int} (fits : run = 0 ∨ c + run ≤ 8) {x y : Int}
    (on : OnBoard x y) :
    ((clearRun run g r c).1.get x y).man =
      if x = r ∧ c ≤ y ∧ y < c + run then none else (g.get x y).man := by
  induction run generalizing g c with
  | zero => rw [if_neg (by omega), clearRun]
  | succ run ih =>
    have room : c + 1 + (run : Int) ≤ 8 := by omega
    push_cast
    rw [clearRun, if_neg (by omega), ih (Or.inr room), Game.get_setType]
    by_cases here : x = r ∧ y = c
    · rw [if_neg (by omega), if_pos ⟨on, here⟩, if_pos (by omega)]
      exact man_empty rfl
    · rw [if_neg (c := OnBoard x y ∧ x = r ∧ y = c) fun h => here h.2]
      refine if_congr ?_ rfl rfl
      omega

/-- A loaded man stands on its square. -/
theorem loadPiece_man (g : Game) (r c : Int) {ch : Char} {man : Man} (letter : manOf ch = some man)
    {x y : Int} (on : OnBoard x y) :
    ((loadPiece g r c ch (typeOf man.kind)).get x y).man =
      if x = r ∧ y = c then some man else (g.get x y).man := by
  rw [loadPiece_letter g r c letter, loadPiece, Game.get_set]
  by_cases here : x = r ∧ y = c
  · rw [if_pos ⟨on, here⟩, if_pos here]
    refine man_eq_some.mpr ⟨rfl, ?_⟩
    have lower := man.letter_isLower
    cases side : man.side <;> simp_all [playerOf]
  · rw [if_neg fun h => here h.2, if_neg here]

/-- The game behind the board field. -/
def boardAfter (placement : List Char) (g : Game) (s : Int × Int) : Game :=
  (loadBoard (placement ++ [' ']) g s.1 s.2).1

/-- The first loop reads the board field up to the blank behind it. -/
theorem loadBoard_walk {placement : List Char} (blank : ' ' ∉ placement) (rest : List Char)
    (g : Game) (s : Int × Int) :
    loadBoard (placement ++ ' ' :: rest) g s.1 s.2 =
      (boardAfter placement g s, (walk placement s).map fun t => (' ' :: rest, t.1, t.2)) := by
  unfold boardAfter
  induction placement generalizing g s with
  | nil => rfl
  | cons ch placement ih =>
    have blank' : ' ' ∉ placement := fun mem => blank (List.mem_cons_of_mem _ mem)
    have other : ch ≠ ' ' := fun same => blank (by rw [same]; exact List.mem_cons_self)
    rw [List.cons_append, List.cons_append, loadBoard, loadBoard, walk, if_neg other, if_neg other]
    by_cases stroke : ch = '/'
    · rw [if_pos stroke, if_pos stroke, if_pos stroke]
      by_cases full : s.2 = 8
      · rw [if_neg (not_not.mpr full), if_neg (not_not.mpr full), if_pos full]
        exact ih blank' g (s.1 + 1, 0)
      · rw [if_pos full, if_pos full, if_neg full]
        rfl
    rw [if_neg stroke, if_neg stroke, if_neg stroke, letterType_manOf]
    cases letter : manOf ch with
    | some man => exact ih blank' (loadPiece g s.1 s.2 ch (typeOf man.kind)) (s.1, s.2 + 1)
    | none =>
      simp only [Option.map_none, Option.isSome_none, Bool.false_eq_true, ↓reduceIte]
      by_cases digit : ch.isDigit = true
      · rw [if_pos digit, if_pos digit]
        have cursor := clearRun_cursor (digitValue ch) g s.1 s.2
        generalize clearRun (digitValue ch) g s.1 s.2 = cleared at cursor
        obtain ⟨after, stop⟩ := cleared
        by_cases fits : digitValue ch = 0 ∨ s.2 + digitValue ch ≤ 8
        · rw [if_pos fits] at cursor
          obtain rfl : stop = some (s.2 + digitValue ch) := cursor
          rw [if_pos ⟨digit, fits⟩]
          exact ih blank' after (s.1, s.2 + digitValue ch)
        · rw [if_neg fits] at cursor
          obtain rfl : stop = none := cursor
          rw [if_neg fun h => fits h.2]
          rfl
      · rw [if_neg digit, if_neg digit, if_neg fun h => digit h.1]
        rfl

/-- A text without a blank is refused. -/
theorem loadBoard_unended {text : List Char} (blank : ' ' ∉ text) (g : Game) (r c : Int) :
    (loadBoard text g r c).2 = none := by
  induction text generalizing g r c with
  | nil => rfl
  | cons ch text ih =>
    have blank' : ' ' ∉ text := fun mem => blank (List.mem_cons_of_mem _ mem)
    have other : ch ≠ ' ' := fun same => blank (by rw [same]; exact List.mem_cons_self)
    rw [loadBoard, if_neg other]
    split
    · split
      · rfl
      · exact ih blank' _ _ _
    split
    · exact ih blank' _ _ _
    · split
      · split
        · rfl
        · exact ih blank' _ _ _
      · rfl

/-- The men on the board behind the board field are those the field puts over the men before. -/
theorem boardAfter_over {placement : List Char} (blank : ' ' ∉ placement) {g : Game}
    {s t : Int × Int} (walked : walk placement s = some t) {board : Placement}
    (men : ∀ x y, OnBoard x y → (g.get x y).man = board (x, y)) {x y : Int} (on : OnBoard x y) :
    ((boardAfter placement g s).get x y).man = menAfter placement board s (x, y) := by
  unfold boardAfter
  induction placement generalizing g s board with
  | nil => exact men x y on
  | cons ch placement ih =>
    have blank' : ' ' ∉ placement := fun mem => blank (List.mem_cons_of_mem _ mem)
    have other : ch ≠ ' ' := fun same => blank (by rw [same]; exact List.mem_cons_self)
    rw [walk] at walked
    rw [List.cons_append, loadBoard, menAfter, if_neg other]
    by_cases stroke : ch = '/'
    · rw [if_pos stroke] at walked ⊢
      rw [if_pos stroke]
      by_cases full : s.2 = 8
      · rw [if_pos full] at walked
        rw [if_neg (not_not.mpr full)]
        exact ih (s := (s.1 + 1, 0)) blank' walked men
      · rw [if_neg full] at walked
        cases walked
    rw [if_neg stroke] at walked ⊢
    rw [if_neg stroke, letterType_manOf]
    cases letter : manOf ch with
    | some man =>
      rw [letter] at walked
      refine ih (s := (s.1, s.2 + 1)) blank' walked fun u v on' => ?_
      rw [loadPiece_man g s.1 s.2 letter on', Function.update_apply]
      refine if_congr ?_ rfl (men u v on')
      rw [Prod.ext_iff]
    | none =>
      rw [letter] at walked
      simp only [Option.isSome_none, Bool.false_eq_true, ↓reduceIte] at walked
      by_cases digit : ch.isDigit = true ∧ (digitValue ch = 0 ∨ s.2 + digitValue ch ≤ 8)
      · rw [if_pos digit] at walked
        have cursor := clearRun_cursor (digitValue ch) g s.1 s.2
        have cleared := fun u v on' => @clearRun_men (digitValue ch) g s.1 s.2 digit.2 u v on'
        rw [if_pos digit.2] at cursor
        simp only [Option.map_none, digit.1, ↓reduceIte]
        generalize clearRun (digitValue ch) g s.1 s.2 = result at cursor cleared
        obtain ⟨after, stop⟩ := result
        obtain rfl : stop = some (s.2 + digitValue ch) := cursor
        refine ih (s := (s.1, s.2 + digitValue ch)) blank' walked fun u v on' => ?_
        rw [cleared u v on', men u v on']
      · rw [if_neg digit] at walked
        cases walked

/-- The men on the board behind the board field are those the field describes. -/
theorem boardAfter_men {placement : List Char} (blank : ' ' ∉ placement) {g : Game}
    {s t : Int × Int} (walked : walk placement s = some t) {x y : Int} (on : OnBoard x y) :
    ((boardAfter placement g s).get x y).man = menAfter placement g.placement s (x, y) :=
  boardAfter_over blank walked (fun _ _ _ => rfl) on

/-! ## Side and rights -/

/-- The fields up to the rights to castle, as far as `init_game` tells texts apart. -/
structure Front where
  /-- The board. -/
  placement : List Char
  /-- The side to move. -/
  side : Side
  /-- The letters of the castling field. -/
  rights : List (Side × Wing)
  /-- A hyphen behind the letters. -/
  dash : Bool

/-- The castling field. -/
def Front.castling (f : Front) : List Char :=
  f.rights.map rightLetter ++ if f.dash then ['-'] else []

/-- The text of the fields, up to the blank behind them. -/
def Front.text (f : Front) (rest : List Char) : List Char :=
  f.placement ++ ' ' :: sideLetter f.side :: ' ' :: (f.castling ++ ' ' :: rest)

/-- What the checks up to the rights to castle let through, where the board field leads to the
square. -/
structure Front.Reads (g : Game) (f : Front) (s : Int × Int) : Prop where
  /-- The board field ends with the first blank. -/
  blank : ' ' ∉ f.placement
  /-- The first loop accepts it. -/
  walked : walk f.placement (0, 0) = some s
  /-- It has reached the last row. -/
  row : 7 ≤ s.1
  /-- It has reached the last column of it. -/
  column : 7 ≤ s.2
  /-- The rook of every right is in its corner. -/
  rooks : ∀ right ∈ f.rights, menAfter f.placement g.placement (0, 0)
    (right.1.homeRow, right.2.corner) = some ⟨right.1, .rook⟩

/-- The game behind the rights to castle. -/
def Front.loaded (f : Front) (g : Game) : Game :=
  grant f.rights
    { boardAfter f.placement g (0, 0) with duration := if f.side = .white then 0 else 1 }

/-- The text of rights, with or without a hyphen, is read. -/
theorem loadRights_castling {f : Front} {g : Game} (rest : List Char)
    (rooks : ∀ right ∈ f.rights,
      (g.get right.1.homeRow right.2.corner).man = some ⟨right.1, .rook⟩) :
    loadRights (f.castling ++ ' ' :: rest) g = (grant f.rights g, some rest) := by
  rw [Front.castling, List.append_assoc, loadRights_letters _ rooks]
  cases f.dash <;> rfl

/-- Granting a right leaves the men alone. -/
theorem granted_man (g : Game) (r c x y : Int) :
    ((g.set r c { g.get r c with moves := 0 }).get x y).man = (g.get x y).man := by
  rw [Game.get_set]
  split
  · rename_i here
    rw [here.2.1, here.2.2]
    rfl
  · rfl

/-- A right is granted when the rook is there. -/
theorem rookCastle_some {g after : Game} {right : Side × Wing}
    (granted : rookCastle g right.1.homeRow right.2.corner (playerOf right.1) = some after) :
    (g.get right.1.homeRow right.2.corner).man = some ⟨right.1, .rook⟩ ∧
      after = g.set right.1.homeRow right.2.corner
        { g.get right.1.homeRow right.2.corner with moves := 0 } := by
  unfold rookCastle at granted
  split at granted
  · cases granted
  · rename_i there
    push Not at there
    exact ⟨man_eq_some.mpr there, (Option.some.inj granted).symm⟩

/-- What the loop over the rights lets through. -/
theorem loadRights_some {text rest : List Char} {g after : Game}
    (read : loadRights text g = (after, some rest)) :
    ∃ (rights : List (Side × Wing)) (dash : Bool),
      text = rights.map rightLetter ++ ((if dash then ['-'] else []) ++ ' ' :: rest) ∧
      ∀ right ∈ rights, (g.get right.1.homeRow right.2.corner).man = some ⟨right.1, .rook⟩ := by
  induction text generalizing g with
  | nil => cases read
  | cons ch text ih =>
    -- the letter of a right is followed by the text of other rights
    have letter : ∀ right : Side × Wing, ch = rightLetter right →
        (rookCastle g right.1.homeRow right.2.corner (playerOf right.1)).elim (g, none)
          (loadRights text) = (after, some rest) →
        ∃ (rights : List (Side × Wing)) (dash : Bool), ch :: text =
            rights.map rightLetter ++ ((if dash then ['-'] else []) ++ ' ' :: rest) ∧
          ∀ right ∈ rights,
            (g.get right.1.homeRow right.2.corner).man = some ⟨right.1, .rook⟩ := by
      intro right named read
      cases granted : rookCastle g right.1.homeRow right.2.corner (playerOf right.1) with
      | none =>
        rw [granted] at read
        cases read
      | some next =>
        rw [granted] at read
        obtain ⟨there, rfl⟩ := rookCastle_some granted
        obtain ⟨rights, dash, shape, rooks⟩ := ih read
        refine ⟨right :: rights, dash, by rw [named, shape]; rfl, fun other mem => ?_⟩
        rcases List.mem_cons.mp mem with rfl | mem
        · exact there
        · exact (granted_man _ _ _ _ _).symm.trans (rooks other mem)
    unfold loadRights at read
    dsimp only at read
    split at read
    · exact letter (.white, .kingside) rfl read
    · exact letter (.white, .queenside) rfl read
    · exact letter (.black, .kingside) rfl read
    · exact letter (.black, .queenside) rfl read
    · split at read
      · cases read
        exact ⟨[], true, rfl, by simp⟩
      · cases read
    · cases read
      exact ⟨[], false, rfl, by simp⟩
    · cases read

/-- The board field and the side to move are read. -/
theorem initGame_side {placement : List Char} {g : Game} {s : Int × Int} (blank : ' ' ∉ placement)
    (walked : walk placement (0, 0) = some s) (row : 7 ≤ s.1) (column : 7 ≤ s.2) (side : Side)
    (rest : List Char) :
    initGame g (placement ++ ' ' :: sideLetter side :: rest) =
      loadRest { boardAfter placement g (0, 0) with duration := if side = .white then 0 else 1 }
        s.1 rest := by
  have board := loadBoard_walk blank (sideLetter side :: rest) g (0, 0)
  rw [walked] at board
  have reached : ¬ (s.1 < 7 ∨ s.2 < 7) := by omega
  unfold initGame
  rw [board]
  simp only [Option.map_some, reached, ↓reduceIte]
  cases side <;> rfl

/-- The rooks of the rights stand on the loaded board, so that every right is granted. -/
theorem Front.Reads.granted {f : Front} {g : Game} {s : Int × Int} (reads : f.Reads g s)
    (rest : List Char) :
    loadRights (f.castling ++ ' ' :: rest)
        { boardAfter f.placement g (0, 0) with duration := if f.side = .white then 0 else 1 } =
      (f.loaded g, some rest) := by
  refine loadRights_castling rest fun right mem => ?_
  show ((boardAfter f.placement g (0, 0)).get right.1.homeRow right.2.corner).man = _
  rw [boardAfter_men reads.blank reads.walked (corner_onBoard _ _)]
  exact reads.rooks right mem

/-- Behind the rights to castle the en passant square and the clocks are left to read. -/
theorem initGame_front {f : Front} {g : Game} {s : Int × Int} (reads : f.Reads g s)
    (rest : List Char) : initGame g (f.text rest) = loadPassing (f.loaded g) s.1 rest := by
  rw [Front.text, initGame_side reads.blank reads.walked reads.row reads.column, loadRest,
    reads.granted rest]

/-- The board field is left at a blank. -/
theorem loadBoard_blank {text rest : List Char} {g after : Game} {r c : Int}
    (board : loadBoard text g 0 0 = (after, some (rest, r, c))) :
    ∃ placement tail, text = placement ++ ' ' :: tail ∧ ' ' ∉ placement ∧ rest = ' ' :: tail ∧
      after = boardAfter placement g (0, 0) ∧ walk placement (0, 0) = some (r, c) := by
  have ended : ' ' ∈ text := by
    by_contra unended
    have stopped := loadBoard_unended unended g 0 0
    rw [board] at stopped
    cases stopped
  obtain ⟨placement, tail, rfl, blank⟩ := List.eq_append_cons_of_mem ended
  rw [loadBoard_walk blank tail g (0, 0)] at board
  obtain ⟨s, walked, here⟩ := Option.map_eq_some_iff.mp (congrArg Prod.snd board)
  cases here
  exact ⟨placement, tail, rfl, blank, rfl, (congrArg Prod.fst board).symm, walked⟩

/-- A text that no fields make up stops at the rights to castle, if it gets so far. -/
theorem unread_stops {g after : Game} {text rest castling : List Char} {r c : Int} {side : Side}
    (unread : ∀ (f : Front) s rest, text = f.text rest → ¬ f.Reads g s)
    (board : loadBoard text g 0 0 = (after, some (rest, r, c))) (reached : ¬ (r < 7 ∨ c < 7))
    (shape : rest = ' ' :: sideLetter side :: ' ' :: castling) :
    (loadRights castling { after with duration := if side = .white then 0 else 1 }).2 = none := by
  obtain ⟨placement, tail, rfl, blank, rfl, rfl, walked⟩ := loadBoard_blank board
  obtain rfl : tail = sideLetter side :: ' ' :: castling := List.tail_eq_of_cons_eq shape
  by_contra read
  obtain ⟨left, read⟩ := Option.ne_none_iff_exists'.mp read
  obtain ⟨rights, dash, letters, rooks⟩ := loadRights_some (Prod.ext rfl read)
  have whole : placement ++ ' ' :: sideLetter side :: ' ' :: castling =
      (⟨placement, side, rights, dash⟩ : Front).text left := by
    rw [letters, Front.text, Front.castling, List.append_assoc]
  refine unread _ (r, c) left whole
    ⟨blank, walked, by dsimp only; omega, by dsimp only; omega, fun right mem => ?_⟩
  have men := boardAfter_men (g := g) blank walked (corner_onBoard right.1 right.2)
  rw [← men]
  exact rooks right mem

/-- A text that does not get past the rights to castle is refused. -/
theorem initGame_refused {g : Game} {text : List Char}
    (unread : ∀ (f : Front) s rest, text = f.text rest → ¬ f.Reads g s) :
    ∃ after, initGame g text = some (-1, after) := by
  cases board : loadBoard text g 0 0 with
  | mk after stop =>
    unfold initGame
    rw [board]
    cases stop with
    | none => exact ⟨after, rfl⟩
    | some stop =>
      obtain ⟨rest, r, c⟩ := stop
      simp only
      by_cases short : r < 7 ∨ c < 7
      · exact ⟨after, if_pos short⟩
      rw [if_neg short]
      have refused : ∀ (side : Side) (more : List Char), rest = ' ' :: sideLetter side :: more →
          ∃ final, loadRest { after with duration := if side = .white then 0 else 1 } r more =
            some (-1, final) := by
        intro side more shape
        unfold loadRest
        split
        · rename_i castling
          have stops := unread_stops unread board short shape
          split
          · exact ⟨_, rfl⟩
          · rename_i read
            rw [read] at stops
            cases stops
        · exact ⟨_, rfl⟩
      split
      · exact refused .white _ rfl
      · exact refused .black _ rfl
      · exact ⟨after, rfl⟩

end Chessh
