import Chessh.Rules.Mirror
import Chessh.Verif.Mirror
import Chessh.Verif.Tally

/-!
# Perft from both sides

The text of a position and that of the position seen from the other side, with the sides exchanged,
are counted alike: `runPerft_turned`. The two games that `init_game` makes of them are no mirror
images, since the clock of the one is a move ahead; what they stand for is.
-/

namespace Chessh

open Rules (Ply Position Fen Contest)

section Contests

variable {c c' : Contest}

/-- Before a hundred moves without a capture a contest is over when no move is left. -/
theorem over_iff_stuck (early : c.quiet < 100) : c.outcome.Over ↔ c.pos.Stuck := by
  rw [Contest.over_iff]
  constructor
  · rintro (late | ⟨-, stuck⟩)
    · omega
    · exact stuck
  · exact fun stuck => Or.inr ⟨early, stuck⟩

/-- The clock is reset or goes on. -/
theorem play_quiet_le (c : Contest) (m : Ply) : (c.play m).quiet ≤ c.quiet + 1 := by
  unfold Contest.play
  dsimp only
  split <;> omega

/-- Where no clock runs out, there are as many sequences from either side. -/
theorem countLine_turned (turned : c'.pos = c.pos.mirror) {d : Nat} (short : c.quiet + d ≤ 150)
    (short' : c'.quiet + d ≤ 150) : countLine c' d = countLine c d := by
  have written : ∀ {c : Contest}, c.quiet + d ≤ 150 →
      {moves | moves.length = d ∧ c.Lasts moves} =
        {moves | moves.length = d ∧ c.pos.Written moves} := by
    intro c short
    ext moves
    exact and_congr_right fun length => Contest.lasts_iff (length ▸ short)
  rw [countLine, countLine, written short, written short', turned, Position.ncard_written_mirror]

end Contests

/-! ## The division -/

/-- A line from the other side. -/
def mirrorPrinted : Printed → Printed
  | .move fileI rankI fileF rankF diff => .move fileI (9 - rankI) fileF (9 - rankF) diff
  | .newline => .newline
  | .count n => .count n
  | .error text => .error text

/-- The line of a move. -/
theorem printMove_turned (m : Move) (diff : UInt64) :
    printMove (mirrorMove m) diff = mirrorPrinted (printMove m diff) := by
  have rank : ∀ r : Int, 8 - (7 - r) = 9 - (8 - r) := fun r => by ring
  rw [printMove, printMove, mirrorPrinted, mirrorMove]
  dsimp only
  rw [rank, rank]

section Divisions

variable {c c' : Contest} {level : Nat}

/-- The line of a move at the root. -/
theorem divisionLine_turned (turned : c'.pos = c.pos.mirror) (deep : 2 ≤ level)
    (early : c.quiet + level ≤ 100) (early' : c'.quiet + level ≤ 100) (m : Move) :
    divisionLine c' level (mirrorMove m) = (divisionLine c level m).map mirrorPrinted := by
  have clock := play_quiet_le c m.ply
  have clock' := play_quiet_le c' (mirrorMove m).ply
  have next : (c'.play (mirrorMove m).ply).pos = (c.play m.ply).pos.mirror := by
    show c'.pos.play m.ply.mirror = (c.pos.play m.ply).mirror
    rw [turned, Position.play_mirror]
  have total := Printed.count.inj
    (countLine_turned next (d := level - 2) (by omega) (by omega))
  have shown : ((c'.pos.Legal (mirrorMove m).ply ∧ c'.pos.Spells (mirrorMove m).ply) ∧
      ¬ (c'.play (mirrorMove m).ply).outcome.Over ∧ UInt64.ofNat
        {moves | moves.length = level - 2 ∧ (c'.play (mirrorMove m).ply).Lasts moves}.ncard ≠ 0) ↔
      (c.pos.Legal m.ply ∧ c.pos.Spells m.ply) ∧ ¬ (c.play m.ply).outcome.Over ∧ UInt64.ofNat
        {moves | moves.length = level - 2 ∧ (c.play m.ply).Lasts moves}.ncard ≠ 0 := by
    rw [total, over_iff_stuck (by omega), over_iff_stuck (by omega),
      next, Position.stuck_mirror, turned]
    exact and_congr (and_congr (@Position.legal_mirror c.pos m.ply)
      (@Position.spells_mirror c.pos m.ply)) Iff.rfl
  unfold divisionLine
  dsimp only
  by_cases here : (c.pos.Legal m.ply ∧ c.pos.Spells m.ply) ∧ ¬ (c.play m.ply).outcome.Over ∧
      UInt64.ofNat {moves | moves.length = level - 2 ∧ (c.play m.ply).Lasts moves}.ncard ≠ 0
  · rw [if_pos (shown.mpr here), if_pos here, total, printMove_turned]
    rfl
  · rw [if_neg (mt shown.mp here), if_neg here]
    rfl

/-- The loops go over the same moves from either side. -/
theorem allMoves_turned : ((allMoves .empty).map mirrorMove).Perm (allMoves .empty) := by
  have squares_ : (squares.map Rules.mirrorSquare).Perm squares := by decide +kernel
  have loops : (allMoves .empty).map mirrorMove = (squares.map Rules.mirrorSquare).flatMap fun s =>
      (squares.map Rules.mirrorSquare).map fun t => ⟨s.1, s.2, t.1, t.2, .empty⟩ := by
    rw [allMoves, List.map_flatMap, List.flatMap_map]
    refine List.flatMap_congr fun s _ => ?_
    rw [List.map_map, List.map_map]
    rfl
  rw [loops]
  exact (squares_.flatMap_right _).trans (List.Perm.flatMap_left _ fun s _ => squares_.map _)

/-- The division from the other side has the lines from the other side, in another order. -/
theorem divisionLines_turned (turned : c'.pos = c.pos.mirror) (early : c.quiet + level ≤ 100)
    (early' : c'.quiet + level ≤ 100) :
    (divisionLines c' level).Perm ((divisionLines c level).map mirrorPrinted) := by
  unfold divisionLines
  by_cases shallow : level < 2
  · rw [if_pos shallow, if_pos shallow, List.map_nil]
  have each : ∀ m, ((PieceType.empty :: promotions).map (mirrorMove m).named).filterMap
      (divisionLine c' level) =
        (((PieceType.empty :: promotions).map m.named).filterMap (divisionLine c level)).map
          mirrorPrinted := by
    intro m
    rw [List.filterMap_map, List.filterMap_map, List.map_filterMap]
    refine List.filterMap_congr fun t _ => ?_
    exact divisionLine_turned turned (by omega) early early' (m.named t)
  rw [if_neg shallow, if_neg shallow, List.map_flatMap]
  refine (allMoves_turned.flatMap_right _).symm.trans ?_
  rw [List.flatMap_map]
  exact .of_eq (List.flatMap_congr fun m _ => each m)

end Divisions

/-! ## Texts -/

/-- The clock of a contest is at most one move ahead. -/
theorem setupContest_quiet (f : Fen) : (setupContest f).quiet ≤ halfMoves f + 1 := by
  unfold setupContest halfMoves
  dsimp only
  cases f.side
  · exact Nat.le_succ _
  · exact le_rfl

/-- Nothing can be taken in passing, by the text and by what `init_game` makes of it: there is no en
passant field, and if the number of the move is 1 or missing, no pawn that `init_game` could take
for one that has just made a double step. -/
structure NoPassing (f : Fen) : Prop where
  /-- There is no field. -/
  field : f.passing = none
  /-- There is no such pawn. -/
  pawns : (∀ half full, f.clocks = some (half, full) → Rules.numeral full = 1) → ∀ c,
    f.board (f.side.other.doubleRow, c) ≠ some ⟨f.side.other, .pawn⟩

/-- What the text says is what the loaded game goes by. -/
theorem NoPassing.right {f : Fen} (nothing : NoPassing f) : PassingRight f := by
  intro c
  have absent : f.position.passing = none := congrArg (Option.map _) nothing.field
  rw [absent]
  exact iff_of_false nofun fun both => nothing.pawns both.2.2 c both.1

/-- So it is from the other side. -/
theorem NoPassing.mirror {f : Fen} (nothing : NoPassing f) (valid : f.Valid) :
    NoPassing f.mirror where
  field := congrArg (Option.map _) nothing.field
  pawns := by
    intro first c pawn
    have square : Rules.mirrorSquare (f.side.other.other.doubleRow, c) =
        (f.side.other.doubleRow, c) := by
      cases f.side <;> rfl
    rw [Fen.mirror_board valid.eight, Rules.mirrorBoard_man, Rules.Side.other_other] at pawn
    refine nothing.pawns first c ?_
    rw [← square]
    exact pawn

/-- The text from the other side is that of a position a game can reach. -/
theorem Startable.mirror {f : Fen} (startable : Startable f) (right : PassingRight f.mirror) :
    Startable f.mirror where
  valid := startable.valid.mirror
  wellFormed := Fen.mirror_position startable.valid.eight ▸ startable.wellFormed.mirror
  right := right
  fits := startable.fits

/-- Both texts are loaded, and no counter of either game leaves the range of an `int`. -/
theorem loaded_inRange_turned {f : Fen} (startable : Startable f) (startable' : Startable f.mirror)
    {level : Nat} (room : Leaves f level) (memory memory' : Game) :
    ∃ start start', initGame (newGame memory) f.text = some (0, start) ∧
      initGame (newGame memory') f.mirror.text = some (0, start') ∧ InRange start level ∧
      InRange start' level := by
  have room' : Leaves f.mirror level := ⟨room.turns, room.clock⟩
  obtain ⟨start, loaded, inRange⟩ := @start_inRange (some f) (by rintro g ⟨⟩; exact startable)
    level (by rintro g ⟨⟩; exact room) memory
  obtain ⟨start', loaded', inRange'⟩ :=
    @start_inRange (some f.mirror) (by rintro g ⟨⟩; exact startable')
      level (by rintro g ⟨⟩; exact room') memory'
  exact ⟨start, start', loaded, loaded', inRange, inRange'⟩

/-- Take the text of a position that a game can reach and in which nothing can be taken in passing,
and the text from the other side, with numbers that leave room for as many calls as there are
levels. No counter leaves the range of an `int`. As long as the clock cannot run out before the last
length, `run_perft` prints the same numbers for both; and if it stays below a hundred moves, the
lines of the division for the one are those for the other, seen from the other side, and the numbers
behind them are the same. -/
theorem runPerft_turned {f : Fen} (valid : f.Valid) (wf : f.position.WellFormed)
    (nothing : NoPassing f) {level : Nat} (room : Leaves f level)
    (positive : 1 ≤ level) (depth : Nat)
    {fuel : Nat} (enough : 3 * level + 1 ≤ fuel) (memory memory' : Game)
    (buff buff' : Nat → TokenBuff) :
    (∃ start start', initGame (newGame memory) f.text = some (0, start) ∧
      initGame (newGame memory') f.mirror.text = some (0, start') ∧ InRange start level ∧
      InRange start' level) ∧
    (halfMoves f + level ≤ 150 → ∃ perft perft',
      runPerft (depth + 1) fuel memory buff (perftArgs level (some f) none false) = .ok (0, perft) ∧
      runPerft (depth + 1) fuel memory' buff' (perftArgs level (some f.mirror) none false) =
        .ok (0, perft') ∧ perft'.output = perft.output) ∧
    (halfMoves f + level < 100 → ∃ perft perft' division division' total,
      runPerft (depth + 1) fuel memory buff (perftArgs level (some f) none true) = .ok (0, perft) ∧
      runPerft (depth + 1) fuel memory' buff' (perftArgs level (some f.mirror) none true) =
        .ok (0, perft') ∧ perft.output = division ++ [.newline, total] ∧
      perft'.output = division' ++ [.newline, total] ∧
      division'.Perm (division.map mirrorPrinted)) := by
  have startable : Startable f := ⟨valid, wf, nothing.right, room.fits⟩
  have startable' : Startable f.mirror := startable.mirror (nothing.mirror valid).right
  have starts : ∀ g ∈ some f, Startable g := by
    rintro g ⟨⟩
    exact startable
  have starts' : ∀ g ∈ some f.mirror, Startable g := by
    rintro g ⟨⟩
    exact startable'
  have reads : movesOf none = some [] := rfl
  have survives : ∀ f : Fen, (contestOf (some f)).Survives [] := fun _ => trivial
  have turned : (setupContest f.mirror).pos = (setupContest f).pos.mirror :=
    Fen.mirror_position valid.eight
  have clock := setupContest_quiet f
  have clock' : (setupContest f.mirror).quiet ≤ halfMoves f + 1 := setupContest_quiet f.mirror
  have same : ∀ d, halfMoves f + 1 + d ≤ 150 →
      countLine (setupContest f.mirror) d = countLine (setupContest f) d :=
    fun d short => countLine_turned turned (by omega) (by omega)
  refine ⟨loaded_inRange_turned startable startable' room memory memory', ?_, ?_⟩
  · intro short
    obtain ⟨perft, runs, prints⟩ :=
      runPerft_totals starts reads (survives f) positive depth enough memory buff
    obtain ⟨perft', runs', prints'⟩ :=
      runPerft_totals starts' reads (survives f.mirror) positive depth enough memory' buff'
    refine ⟨perft, perft', runs, runs', ?_⟩
    rw [prints, prints']
    exact List.map_congr_left fun d below => same d (by rw [List.mem_range] at below; omega)
  · intro early
    obtain ⟨perft, runs, prints⟩ :=
      runPerft_division starts reads (survives f) positive depth enough memory buff
    obtain ⟨perft', runs', prints'⟩ :=
      runPerft_division starts' reads (survives f.mirror) positive depth enough memory' buff'
    refine ⟨perft, perft', divisionLines (setupContest f) level,
      divisionLines (setupContest f.mirror) level,
      countLine (setupContest f) (level - 1), runs, runs', prints, ?_, ?_⟩
    · rw [prints']
      exact congrArg (_ ++ [Printed.newline, ·]) (same (level - 1) (by omega))
    · exact divisionLines_turned turned (by omega) (by omega)

/-- The starting position, and the one in which Black moves first. -/
theorem runPerft_turned_start : ∃ perft perft' division division' total,
    runPerft 1 7 blank noTokens (perftArgs 2 (some startFen) none true) = .ok (0, perft) ∧
      runPerft 1 7 blank noTokens (perftArgs 2 (some startFen.mirror) none true) = .ok (0, perft') ∧
      perft.output = division ++ [.newline, total] ∧
        perft'.output = division' ++ [.newline, total] ∧
      division'.Perm (division.map mirrorPrinted) := by
  have nothing : NoPassing startFen := by
    refine ⟨rfl, fun _ c pawn => ?_⟩
    have board : startFen.board = Rules.initialBoard := congrArg Position.board startFen_position
    have row : Rules.initialBoard (3, c) = none := by simp [Rules.initialBoard]
    rw [board] at pawn
    cases row.symm.trans pawn
  exact (runPerft_turned startFen_valid (startFen_position ▸ Rules.initial_wellFormed) nothing
    (show Leaves startFen 2 from ⟨by decide, by decide⟩) (by decide) 0
    (show 3 * 2 + 1 ≤ 7 by decide) blank blank noTokens noTokens).2.2 (by decide)

end Chessh
