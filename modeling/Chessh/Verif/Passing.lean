import Chessh.Verif.Countdown

/-!
# The en passant field

`pawn_is_illegal` allows an en passant capture when the last move of the pawn is the turn of the
game. `init_game` writes zero for every pawn, and the en passant field, which names the square
behind the pawn, on some square of the last row. `initGame_passing_iff` says when the captures
allowed are those the field names.
-/

namespace Chessh

open Rules (Side Kind Man Square Wing Placement Fen IsFen ClocksValid numeral clocksText files
  rankSquares)

/-! ## Captures -/

/-- `pawn_is_illegal` lets the move pass and takes the pawn beside it. -/
def TakesInPassing (g : Game) (m : Move) : Prop :=
  (pawnIsIllegal g m).code = 0 ∧ (pawnIsIllegal g m).captured = some (m.rI, m.cF)

/-- A pawn of the side to move steps diagonally onto a free square. -/
structure Diagonal (f : Fen) (m : Move) : Prop where
  /-- The pawn stands there. -/
  mine : f.board (m.rI, m.cI) = some ⟨f.side, .pawn⟩
  /-- It advances by one row. -/
  forward : m.rF = m.rI + f.side.forward
  /-- It goes to the next column. -/
  beside : (m.cF - m.cI).natAbs = 1
  /-- The square is on the board. -/
  target : OnBoard m.rF m.cF
  /-- It is free. -/
  free : f.board (m.rF, m.cF) = none

/-- The move leads behind an enemy pawn that may have made a double step. -/
structure Behind (f : Fen) (m : Move) : Prop where
  /-- The enemy pawn stands beside the moving one. -/
  pawn : f.board (m.rI, m.cF) = some ⟨f.side.other, .pawn⟩
  /-- The moving pawn comes from the row a double step leads to. -/
  row : m.rI = f.side.other.doubleRow

/-- The rank behind a pawn of the opponent that has made a double step. -/
def passingRank : Side → Char
  | .white => '6'
  | .black => '3'

/-- The en passant field names the target of the move. -/
def Named (f : Fen) (m : Move) : Prop :=
  ∃ file, files[m.cF.toNat]? = some file ∧ f.passing = some (file, passingRank f.side)

/-- White is to move on the first move, or there are no clocks. -/
def FirstTurn (f : Fen) : Prop :=
  f.side = .white ∧ ∀ half full, f.clocks = some (half, full) → numeral full = 1

/-! ## Loaded pieces -/

/-- Pieces are known, and those on the middle rows have the counters of a piece that has just been
loaded. -/
structure Fresh (g : Game) : Prop where
  /-- A square without a man is empty. -/
  known : ∀ r c, (g.get r c).man = none → (g.get r c).type = .empty
  /-- In the middle pieces have not moved since turn zero, and pawns once before. -/
  still : ∀ r c, (r = 3 ∨ r = 4) → (g.get r c).type ≠ .empty →
    (g.get r c).lastMove = 0 ∧ ((g.get r c).type = .pawn → (g.get r c).moves = 1)

section Fresh

variable {g : Game}

/-- A piece whose square does not change its kind stays fresh. -/
theorem Fresh.same {after : Game} (fresh : Fresh g)
    (man : ∀ r c, (after.get r c).man = (g.get r c).man)
    (type : ∀ r c, (after.get r c).type = (g.get r c).type)
    (middle : ∀ r c, (r = 3 ∨ r = 4) → after.get r c = g.get r c) : Fresh after := by
  refine ⟨fun r c none => ?_, fun r c row full => ?_⟩
  · rw [type]
    exact fresh.known r c ((man r c).symm.trans none)
  · rw [middle r c row] at full ⊢
    exact fresh.still r c row full

/-- A piece letter loads a fresh piece. -/
theorem Fresh.piece (fresh : Fresh g) (r c : Int) (ch : Char) {t : PieceType}
    (letter : letterType ch.toLower = some t) : Fresh (loadPiece g r c ch t) := by
  rw [letterType_manOf] at letter
  obtain ⟨man, named, rfl⟩ := Option.map_eq_some_iff.mp letter
  refine ⟨fun x y none => ?_, fun x y row full => ?_⟩
  · by_cases on : OnBoard x y
    · rw [loadPiece_man g r c named on] at none
      split at none
      · cases none
      · rename_i other
        rw [loadPiece, Game.get_set_ne _ _ other]
        exact fresh.known x y none
    · rw [Game.get, dif_neg on]
      rfl
  · unfold loadPiece at full ⊢
    rw [Game.get_set] at full ⊢
    split
    · rename_i here
      have rows : r ≠ 1 ∧ r ≠ 6 := by omega
      refine ⟨rfl, fun pawn => ?_⟩
      have pawn : typeOf man.kind = .pawn := pawn
      rw [pawn]
      simp [loadedMoves, rows.1, rows.2]
    · rename_i other
      rw [if_neg other] at full
      exact fresh.still x y row full

/-- A free square is fresh. -/
theorem Fresh.clear (fresh : Fresh g) (r c : Int) : Fresh (g.setType r c .empty) := by
  refine ⟨fun x y none => ?_, fun x y row full => ?_⟩
  · rw [Game.get_setType] at none ⊢
    split
    · rfl
    · rename_i other
      rw [if_neg other] at none
      exact fresh.known x y none
  · rw [Game.get_setType] at full ⊢
    split
    · rename_i here
      rw [if_pos here] at full
      exact absurd rfl full
    · rename_i other
      rw [if_neg other] at full
      exact fresh.still x y row full

/-- A new game is fresh. -/
theorem newGame_fresh (memory : Game) : Fresh (newGame memory) := by
  have officers : ∀ i j : Fin 8, newType i j ≠ .empty →
      (i.val < 2 ∨ 6 ≤ i.val) ∧ ((newType i j).kind).isSome := by decide
  refine ⟨fun r c unmanned => ?_, fun r c row full => ?_⟩
  · by_contra full
    obtain ⟨i, j, rfl, rfl⟩ := (onBoard_of_type_ne_empty full).exists_fin
    rw [newGame_get] at full unmanned
    obtain ⟨rows, kind⟩ := officers i j full
    obtain ⟨kind, named⟩ := Option.isSome_iff_exists.mp kind
    simp only [Piece.man, named, Option.bind_some] at unmanned
    rcases rows with first | last
    · simp [first, Player.side] at unmanned
    · simp [last, show ¬ i.val < 2 by omega, Player.side] at unmanned
  · obtain ⟨i, j, rfl, rfl⟩ := (onBoard_of_type_ne_empty full).exists_fin
    rw [newGame_get] at full
    have rows := (officers i j full).1
    omega

/-- Behind the board field pieces are fresh. -/
theorem boardAfter_fresh (placement : List Char) (fresh : Fresh g) (s : Int × Int) :
    Fresh (boardAfter placement g s) := by
  unfold boardAfter
  exact loadBoard_keeps (P := Fresh) (fun _ r c ch _ letter fresh => fresh.piece r c ch letter)
    (fun _ r c fresh => fresh.clear r c) _ _ _ fresh

/-- Granting rights keeps pieces fresh. -/
theorem Fresh.granted (fresh : Fresh g) (rights : List (Side × Wing)) : Fresh (grant rights g) := by
  refine fresh.same (grant_man rights g) (fun r c => ?_) fun r c row => ?_
  · rw [get_grant]
    split <;> rfl
  · rw [get_grant, if_neg]
    rintro ⟨right, -, home, -⟩
    have rows : right.1.homeRow = 7 ∨ right.1.homeRow = 0 := by
      cases right.1
      · exact Or.inl rfl
      · exact Or.inr rfl
    omega

/-- Setting the clocks keeps pieces fresh, when the en passant square is not in the middle. -/
theorem Fresh.clocked (fresh : Fresh g) {x : Int × Int} (outside : x.1 ≠ 3 ∧ x.1 ≠ 4)
    (clocks : Option (List Char × List Char)) : Fresh (clocked g x clocks).2 := by
  have kept : ∀ (h : Game) duration rest r c,
      ((setClock h x.1 x.2 duration rest).2.get r c).type = (h.get r c).type ∧
        ((r = 3 ∨ r = 4) → (setClock h x.1 x.2 duration rest).2.get r c = h.get r c) := by
    intro h duration rest r c
    rw [setClock_get]
    split
    · rename_i here
      rw [here.2.1, here.2.2]
      exact ⟨rfl, fun row => by omega⟩
    · exact ⟨rfl, fun _ => rfl⟩
  refine fresh.same (clocked_man g x clocks) (fun r c => ?_) fun r c row => ?_
  · cases clocks with
    | none => exact (kept _ _ _ r c).1
    | some numbers => exact (kept _ _ _ r c).1
  · cases clocks with
    | none => exact (kept _ _ _ r c).2 row
    | some numbers => exact (kept _ _ _ r c).2 row

end Fresh

/-! ## Loaded positions -/

section Loaded

variable {memory loaded : Game} {f : Fen}

/-- The field of a position names no square in the middle. -/
theorem passed_outside (valid : f.Valid) {x : Int × Int}
    (named : passSquare 7 f.passingText = some x) : x.1 ≠ 3 ∧ x.1 ≠ 4 := by
  rcases passSquare_cases named with hyphen | ⟨file, rank, c, text, -, rfl⟩
  · rw [hyphen] at named
    cases named
    decide
  · have ranks : rank = '3' ∨ rank = '6' := by
      unfold Fen.passingText at text
      split at text
      · cases text
      · rename_i square
        cases text
        exact (valid.passing file rank square).2
    have last : (if rank = '2' then (3 : Int) else if rank = '5' then 4 else 7) = 7 := by
      rcases ranks with rfl | rfl <;> rfl
    rw [last]
    norm_num

/-- The pieces of a loaded position are fresh. -/
theorem loaded_fresh (valid : f.Valid)
    (accepted : initGame (newGame memory) f.text = some (0, loaded)) : Fresh loaded := by
  obtain ⟨x, reads⟩ := valid_reads valid (newGame memory)
  rw [← scanOf_text] at accepted
  have fits := reads.accepts_iff.mp ⟨loaded, accepted⟩
  rw [initGame_fits reads fits] at accepted
  obtain rfl :
    (clocked ((scanOf f).front.loaded (newGame memory)) x (scanOf f).clocks).2 = loaded :=
    congrArg Prod.snd (Option.some.inj accepted)
  have board := boardAfter_fresh (scanOf f).front.placement (newGame_fresh memory) (0, 0)
  have timed : Fresh { boardAfter (scanOf f).front.placement (newGame memory) (0, 0) with
      duration := if f.side = .white then 0 else 1 } := ⟨board.known, board.still⟩
  exact (timed.granted f.rights).clocked (passed_outside valid reads.passing) f.clocks

/-- The turns of a loaded position. -/
theorem loaded_duration (valid : f.Valid)
    (accepted : initGame (newGame memory) f.text = some (0, loaded)) :
    loaded.duration = 0 ↔ FirstTurn f := by
  obtain ⟨x, reads⟩ := valid_reads valid (newGame memory)
  rw [← scanOf_text] at accepted
  have fits := reads.accepts_iff.mp ⟨loaded, accepted⟩
  cases clocks : f.clocks with
  | some numbers =>
    obtain ⟨half, full⟩ := numbers
    have counted : 1 ≤ numeral full := (valid.clocks half full clocks).2.2
    have duration : loaded.duration = 2 * ((numeral full : Int) - 1) + sideTurn f.side :=
      (loaded_clocks reads clocks accepted).1
    rw [duration]
    unfold FirstTurn
    rw [clocks]
    constructor
    · intro first
      cases side : f.side with
      | black =>
        rw [side, sideTurn] at first
        omega
      | white =>
        rw [side, sideTurn] at first
        refine ⟨rfl, fun half' full' same => ?_⟩
        obtain rfl : full = full' := congrArg Prod.snd (Option.some.inj same)
        omega
    · rintro ⟨white, one⟩
      rw [white, sideTurn, one half full rfl]
      rfl
  | none =>
    rw [initGame_fits reads fits] at accepted
    have after :
      (clocked ((scanOf f).front.loaded (newGame memory)) x (scanOf f).clocks).2 = loaded :=
      congrArg Prod.snd (Option.some.inj accepted)
    rw [show (scanOf f).clocks = none from clocks] at after
    have duration : loaded.duration = ((scanOf f).front.loaded (newGame memory)).duration + 0 := by
      rw [← after]
      rfl
    rw [duration, add_zero, Front.loaded, grant_duration]
    unfold FirstTurn
    rw [clocks]
    show (if f.side = .white then (0 : Int) else 1) = 0 ↔ _
    cases f.side with
    | white => exact iff_of_true rfl ⟨rfl, fun half full same => by cases same⟩
    | black => exact iff_of_false (by decide) fun first => by cases first.1

/-- Men stand on the board. -/
theorem board_onBoard (valid : f.Valid) {r c : Int} {man : Man}
    (there : f.board (r, c) = some man) :
    OnBoard r c := by
  unfold Fen.board at there
  split at there
  · cases there
  rename_i low
  simp only [not_or, not_lt] at low
  obtain ⟨squares, described, listed⟩ :=
    Option.bind_eq_some_iff.mp (Option.join_eq_some_iff.mp there)
  obtain ⟨rank, row, described⟩ := Option.bind_eq_some_iff.mp described
  obtain ⟨few, rfl⟩ := List.getElem?_eq_some_iff.mp row
  obtain ⟨squares', described', eight⟩ := valid.rank _ (List.getElem_mem few)
  rw [described] at described'
  obtain rfl := Option.some.inj described'
  obtain ⟨inside, -⟩ := List.getElem?_eq_some_iff.mp listed
  rw [valid.eight] at few
  exact ⟨by omega, by omega⟩

/-- A free square of a loaded position is empty. -/
theorem loaded_free (valid : f.Valid)
    (accepted : initGame (newGame memory) f.text = some (0, loaded)) {r c : Int} (on : OnBoard r c)
    (free : f.board (r, c) = none) : (loaded.get r c).type = .empty :=
  (loaded_fresh valid accepted).known r c ((loaded_board valid accepted on).trans free)

/-- The opponent's pawns of a position are those of the loaded game. -/
theorem loaded_foePawn (valid : f.Valid)
    (accepted : initGame (newGame memory) f.text = some (0, loaded)) {r c : Int}
    (on : OnBoard r c) :
    f.board (r, c) = some ⟨f.side.other, .pawn⟩ ↔
      (loaded.get r c).type = .pawn ∧ (loaded.get r c).player ≠ playerOf f.side := by
  rw [← loaded_board valid accepted on]
  constructor
  · intro there
    obtain ⟨type, owner⟩ := man_eq_some.mp there
    refine ⟨type, ?_⟩
    rw [owner]
    cases f.side <;> decide
  · rintro ⟨type, owner⟩
    cases there : (loaded.get r c).man with
    | none =>
      rw [(loaded_fresh valid accepted).known _ _ there] at type
      cases type
    | some man =>
      obtain ⟨side, kind⟩ := man
      obtain ⟨type', owner'⟩ := man_eq_some.mp there
      rw [type] at type'
      rw [owner'] at owner
      have kinds : kind = .pawn := typeOf_inj.mp type'.symm
      have sides : side ≠ f.side := fun same => owner (by rw [same])
      rw [kinds]
      cases side <;> cases other : f.side <;> first | rfl | exact absurd other.symm sides

/-- The row from which a side captures in passing is the one the opponent's double steps reach. -/
theorem passingRow_iff (side : Side) (r : Int) :
    ((playerOf side = .white ∧ r = 3) ∨ (playerOf side = .black ∧ r = 4)) ↔
      r = side.other.doubleRow := by
  cases side <;> simp [playerOf, Side.doubleRow, Side.other, Side.pawnRow, Side.forward]

/-- A pawn's step to a free square of a neighbouring column comes to the test for the capture in
passing. -/
theorem pawnIsIllegal_passing {g : Game} {m : Move} {player : Player}
    (owner : (g.get m.rI m.cI).player = player) (beside : (m.cF - m.cI).natAbs = 1)
    (forward : m.rI + direction player = m.rF) (free : (g.get m.rF m.cF).type = .empty) :
    pawnIsIllegal g m =
      if (g.get m.rI m.cF).type = .pawn ∧ (g.get m.rI m.cF).player ≠ player ∧
          (g.get m.rI m.cF).moves = 1 ∧
          ((player = .white ∧ m.rI = 3) ∨ (player = .black ∧ m.rI = 4)) ∧
          (g.get m.rI m.cF).lastMove = g.duration then
        promotePawn g m (some (m.rI, m.cF))
      else .plain g illegalMove := by
  have columns : m.cF ≠ m.cI := by
    intro same
    rw [same, sub_self] at beside
    cases beside
  unfold pawnIsIllegal
  dsimp only
  rw [owner, if_neg columns, if_pos beside, if_neg (not_not.mpr forward), if_neg (not_not.mpr free)]

/-- A loaded game allows an en passant capture at turn zero only, whatever the field says. -/
theorem takes_iff (valid : f.Valid)
    (accepted : initGame (newGame memory) f.text = some (0, loaded)) {m : Move}
    (step : Diagonal f m) : TakesInPassing loaded m ↔ Behind f m ∧ FirstTurn f := by
  have fresh := loaded_fresh valid accepted
  have source := board_onBoard valid step.mine
  have owner := (man_eq_some.mp ((loaded_board valid accepted source).trans step.mine)).2
  have forward : m.rI + direction (playerOf f.side) = m.rF := by
    rw [direction_playerOf]
    exact step.forward.symm
  have pawn := loaded_foePawn valid accepted (show OnBoard m.rI m.cF from ⟨source.1, step.target.2⟩)
  have rows := passingRow_iff f.side m.rI
  rw [← loaded_duration valid accepted]
  unfold TakesInPassing
  rw [pawnIsIllegal_passing owner step.beside forward
    (loaded_free valid accepted step.target step.free)]
  constructor
  · intro takes
    by_cases allowed : (loaded.get m.rI m.cF).type = .pawn ∧
        (loaded.get m.rI m.cF).player ≠ playerOf f.side ∧ (loaded.get m.rI m.cF).moves = 1 ∧
        ((playerOf f.side = .white ∧ m.rI = 3) ∨ (playerOf f.side = .black ∧ m.rI = 4)) ∧
        (loaded.get m.rI m.cF).lastMove = loaded.duration
    · obtain ⟨type, owner, -, row, time⟩ := allowed
      have still := fresh.still m.rI m.cF (by omega) (by rw [type]; decide)
      exact ⟨⟨pawn.mpr ⟨type, owner⟩, rows.mp row⟩, by rw [← time, still.1]⟩
    · rw [if_neg allowed] at takes
      cases takes.1
  · rintro ⟨⟨there, row⟩, first⟩
    obtain ⟨type, owner⟩ := pawn.mp there
    have row' := rows.mpr row
    have still := fresh.still m.rI m.cF (by omega) (by rw [type]; decide)
    rw [if_pos ⟨type, owner, still.2 type, row', by rw [still.1, first]⟩]
    have middle : m.rF ≠ 0 ∧ m.rF ≠ 7 := by
      have := direction_eq (playerOf f.side)
      omega
    unfold promotePawn
    simp [middle.1, middle.2]

end Loaded

/-- The en passant captures of a loaded position are those its field names exactly when, for
every pawn that could make one, the field names it on the first turn and not later. -/
theorem initGame_passing_iff (memory : Game) {f : Fen} (valid : f.Valid) {loaded : Game}
    (accepted : initGame (newGame memory) f.text = some (0, loaded)) :
    (∀ m, Diagonal f m → (TakesInPassing loaded m ↔ Behind f m ∧ Named f m)) ↔
      ∀ m, Diagonal f m → Behind f m → (Named f m ↔ FirstTurn f) := by
  constructor
  · intro right m step behind
    have takes := (takes_iff valid accepted step).symm.trans (right m step)
    constructor
    · exact fun named => (takes.mpr ⟨behind, named⟩).2
    · exact fun first => (takes.mp ⟨behind, first⟩).2
  · intro exact_when m step
    rw [takes_iff valid accepted step]
    exact and_congr_right fun behind => (exact_when m step behind).symm

/-- Black's pawn has just made a double step beside a pawn of White, before the given move. -/
def passingFen (full : Char) : Fen :=
  ⟨[['4', 'k', '3'], ['8'], ['8'], ['3', 'P', 'p', '3'], ['8'], ['8'], ['8'], ['4', 'K', '3']],
    .white, [], some ('e', '6'), some (['0'], [full])⟩

/-- The text of the position is valid, for a move number of one digit. -/
theorem passingFen_valid {full : Char} (digit : full.isDigit = true)
    (counted : 1 ≤ numeral [full]) :
    (passingFen full).Valid where
  eight := rfl
  rank := by
    have lengths : ∀ rank ∈ (passingFen '1').ranks,
      (rankSquares rank).map List.length = some 8 := by
      decide +kernel
    intro rank mem
    exact Option.map_eq_some_iff.mp (lengths rank mem)
  rights := by
    intro right mem
    cases mem
  passing := by
    intro file rank same
    cases same
    decide
  clocks := by
    intro half full' same
    cases same
    exact ⟨⟨List.cons_ne_nil _ _, List.forall_mem_singleton.mpr (by decide)⟩,
      ⟨List.cons_ne_nil _ _, List.forall_mem_singleton.mpr digit⟩, counted⟩

/-- The text of the position is accepted. -/
theorem passingFen_accepted {full : Char} (digit : full.isDigit = true)
    (counted : 1 ≤ numeral [full]) (small : numeral [full] ≤ 9) :
    ∃ loaded, initGame (newGame blank) (passingFen full).text = some (0, loaded) := by
  obtain ⟨x, reads⟩ := valid_reads (passingFen_valid digit counted) (newGame blank)
  rw [← scanOf_text]
  refine reads.accepts_iff.mpr fun half full' same => ?_
  cases same
  refine ⟨by decide, ?_⟩
  have wide : 16 ≤ intMax := by decide
  omega

/-- White's pawn steps behind that of Black. -/
theorem passingFen_step (full : Char) :
    Diagonal (passingFen full) ⟨3, 3, 2, 4, .empty⟩ ∧
      Behind (passingFen full) ⟨3, 3, 2, 4, .empty⟩ := by
  have board : (passingFen full).board = (passingFen '1').board := rfl
  have men : (passingFen '1').board (3, 3) = some ⟨.white, .pawn⟩ ∧
      (passingFen '1').board (3, 4) = some ⟨.black, .pawn⟩ ∧
      (passingFen '1').board (2, 4) = none := by
    decide +kernel
  rw [← board] at men
  exact ⟨⟨men.1, by rfl, by rfl, by decide, men.2.2⟩, ⟨men.2.1, by rfl⟩⟩

/-- On the first move the capture the field names is allowed. -/
theorem initGame_passing_first :
    ∃ loaded, initGame (newGame blank) (passingFen '1').text = some (0, loaded) ∧
      TakesInPassing loaded ⟨3, 3, 2, 4, .empty⟩ := by
  obtain ⟨loaded, accepted⟩ :=
    @passingFen_accepted '1' (by decide) (by decide) (by decide)
  have alone : ∀ s ∈ squares, (passingFen '1').board s = some ⟨.white, .pawn⟩ → s = (3, 3) := by
    decide +kernel
  have valid := @passingFen_valid '1' (by decide) (by decide)
  obtain ⟨step, behind⟩ := passingFen_step '1'
  have first : FirstTurn (passingFen '1') := by
    refine ⟨rfl, fun half full same => ?_⟩
    cases same
    decide
  refine ⟨loaded, accepted, ((initGame_passing_iff blank valid accepted).mpr ?_ _ step).mpr
    ⟨behind, 'e', rfl, rfl⟩⟩
  intro m other there
  have source := alone _ ((mem_squares _).mpr (board_onBoard valid other.mine)) other.mine
  have row : m.rI = 3 := congrArg Prod.fst source
  have column : m.cI = 3 := congrArg Prod.snd source
  have beside := other.beside
  have foe := there.pawn
  have columns : m.cF = 2 ∨ m.cF = 4 := by omega
  rcases columns with left | right
  · rw [row, left] at foe
    exact absurd foe (by decide +kernel)
  · refine iff_of_true ⟨'e', ?_, rfl⟩ first
    rw [right]
    rfl

/-- On the second move it is refused. -/
theorem initGame_passing_second :
    ∃ loaded, initGame (newGame blank) (passingFen '2').text = some (0, loaded) ∧
      (passingFen '2').Valid ∧ Diagonal (passingFen '2') ⟨3, 3, 2, 4, .empty⟩ ∧
      Behind (passingFen '2') ⟨3, 3, 2, 4, .empty⟩ ∧
      Named (passingFen '2') ⟨3, 3, 2, 4, .empty⟩ ∧
      ¬ TakesInPassing loaded ⟨3, 3, 2, 4, .empty⟩ := by
  obtain ⟨loaded, accepted⟩ :=
    @passingFen_accepted '2' (by decide) (by decide) (by decide)
  have valid := @passingFen_valid '2' (by decide) (by decide)
  obtain ⟨step, behind⟩ := passingFen_step '2'
  refine ⟨loaded, accepted, valid, step, behind, ⟨'e', rfl, rfl⟩, fun takes => ?_⟩
  have second := ((takes_iff valid accepted step).mp takes).2.2 ['0'] ['2'] rfl
  exact absurd second (by decide)

end Chessh
