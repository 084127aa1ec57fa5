import Chessh.Client.BoardAccess
import Chessh.Verif.Counters

/-!
# Where `make_move` looks

Every element of the board that a call touches lies on the board, with one exception: the
castling search to the right runs over the last column when it meets no piece.
`Run.accesses_iff` says when that happens.
-/

namespace Chessh

/-- All of the elements lie on the board. -/
def AllOn (list : List (Int × Int)) : Prop := ∀ s ∈ list, OnBoard s.1 s.2

/-- There is nothing to look at. -/
@[simp] theorem allOn_nil : AllOn [] := List.forall_mem_nil _

/-- One more element. -/
@[simp] theorem allOn_cons {s : Int × Int} {list : List (Int × Int)} :
    AllOn (s :: list) ↔ OnBoard s.1 s.2 ∧ AllOn list :=
  List.forall_mem_cons

/-- Two lists of elements. -/
@[simp] theorem allOn_append {first second : List (Int × Int)} :
    AllOn (first ++ second) ↔ AllOn first ∧ AllOn second :=
  List.forall_mem_append

/-! ## The rules of the pieces -/

section Pieces

variable {g : Game} {m : Move}

/-- A loop over a path stays on it. -/
theorem pathAccesses_allOn {path : List (Int × Int)} (on : AllOn path) :
    AllOn (pathAccesses g path) := by
  induction path with
  | nil => exact allOn_nil
  | cons s rest ih =>
    rw [allOn_cons] at on
    rw [pathAccesses, allOn_cons]
    refine ⟨on.1, ?_⟩
    split
    · exact allOn_nil
    · exact ih on.2

/-- A straight move looks between its squares. -/
theorem rookAccesses_allOn (onS : OnBoard m.rI m.cI) (onT : OnBoard m.rF m.cF) :
    AllOn (rookAccesses g m) := by
  have column : AllOn ((between (min m.rI m.rF) (max m.rI m.rF)).map fun i => (i, m.cI)) := by
    intro s mem
    obtain ⟨i, inside, rfl⟩ := List.mem_map.mp mem
    have bounds := mem_between.mp inside
    have := onS.1
    have := onT.1
    exact ⟨by dsimp only; omega, onS.2⟩
  have row : AllOn ((between (min m.cI m.cF) (max m.cI m.cF)).map fun i => (m.rI, i)) := by
    intro s mem
    obtain ⟨i, inside, rfl⟩ := List.mem_map.mp mem
    have bounds := mem_between.mp inside
    have := onS.2
    have := onT.2
    exact ⟨onS.1, by dsimp only; omega⟩
  unfold rookAccesses
  dsimp only
  split
  · exact allOn_nil
  · rw [allOn_append]
    refine ⟨pathAccesses_allOn column, ?_⟩
    split
    · exact allOn_nil
    · exact pathAccesses_allOn row

/-- A diagonal walk that ends on the board stays there. -/
theorem bishopScanAccesses_allOn {rF cF cr cc : Int} (onT : OnBoard rF cF)
    (stepR : cr = 1 ∨ cr = -1) (stepC : cc = 1 ∨ cc = -1) {turns left : Nat} {r c : Int}
    (on : OnBoard r c) (endR : rF = r + left * cr) (endC : cF = c + left * cc) :
    AllOn (bishopScanAccesses g rF cr cc turns r c) := by
  induction turns generalizing r c left with
  | zero => exact allOn_nil
  | succ turns ih =>
    rw [bishopScanAccesses]
    split
    · exact allOn_nil
    rename_i away
    rw [allOn_cons]
    refine ⟨on, ?_⟩
    split
    · exact allOn_nil
    cases left with
    | zero => exact absurd (by simpa using endR.symm) away
    | succ left =>
      have endR' : rF = r + cr + left * cr := by
        rw [endR]
        push_cast
        ring
      have endC' : cF = c + cc + left * cc := by
        rw [endC]
        push_cast
        ring
      have rows := on.1
      have columns := on.2
      have rows' := onT.1
      have columns' := onT.2
      refine ih ⟨?_, ?_⟩ endR' endC'
      · rcases stepR with rfl | rfl <;> omega
      · rcases stepC with rfl | rfl <;> omega

/-- A diagonal move looks between its squares. -/
theorem bishopAccesses_allOn (onS : OnBoard m.rI m.cI) (onT : OnBoard m.rF m.cF) :
    AllOn (bishopAccesses g m) := by
  unfold bishopAccesses
  dsimp only
  split
  · exact allOn_nil
  rename_i slope
  push Not at slope
  cases far : (m.rF - m.rI).natAbs with
  | zero => exact allOn_nil
  | succ left =>
    have rows := onS.1
    have columns := onS.2
    have rows' := onT.1
    have columns' := onT.2
    have stepR : (if m.rF - m.rI < 0 then (-1 : Int) else 1) = 1 ∨
        (if m.rF - m.rI < 0 then (-1 : Int) else 1) = -1 := by
      split
      · exact Or.inr rfl
      · exact Or.inl rfl
    have stepC : (if m.cF - m.cI < 0 then (-1 : Int) else 1) = 1 ∨
        (if m.cF - m.cI < 0 then (-1 : Int) else 1) = -1 := by
      split
      · exact Or.inr rfl
      · exact Or.inl rfl
    refine @bishopScanAccesses_allOn g m.rF m.cF _ _ onT stepR stepC (left + 1) left _ _
      ⟨?_, ?_⟩ ?_ ?_
    · split <;> omega
    · split <;> omega
    · split <;> omega
    · split <;> omega

/-- So does a move of a queen. -/
theorem queenAccesses_allOn (onS : OnBoard m.rI m.cI) (onT : OnBoard m.rF m.cF) :
    AllOn (queenAccesses g m) := by
  unfold queenAccesses
  dsimp only
  split
  · exact rookAccesses_allOn onS onT
  split
  · exact bishopAccesses_allOn onS onT
  · exact allOn_nil

/-- A pawn that is not on an outer row looks at its own squares. -/
theorem pawnAccesses_allOn (onS : OnBoard m.rI m.cI) (onT : OnBoard m.rF m.cF)
    (inside : m.rI ≠ 0 ∧ m.rI ≠ 7) : AllOn (pawnAccesses g m) := by
  have rows := onS.1
  have step := direction_eq (g.get m.rI m.cI).player
  have next : OnBoard (m.rI + direction (g.get m.rI m.cI).player) m.cI := ⟨by omega, onS.2⟩
  have beside : OnBoard m.rI m.cF := ⟨onS.1, onT.2⟩
  unfold pawnAccesses
  dsimp only
  rw [allOn_cons]
  refine ⟨onS, ?_⟩
  split
  · rw [allOn_cons]
    refine ⟨next, ?_⟩
    split
    · exact allOn_nil
    split
    · exact allOn_cons.mpr ⟨onS, allOn_nil⟩
    split
    · rename_i two
      rw [two]
      exact allOn_cons.mpr ⟨⟨onT.1, onS.2⟩, allOn_cons.mpr ⟨onS, allOn_nil⟩⟩
    · exact allOn_nil
  split
  · split
    · exact allOn_nil
    rw [allOn_cons]
    refine ⟨onT, ?_⟩
    split
    · exact allOn_cons.mpr ⟨onS, allOn_nil⟩
    · exact allOn_cons.mpr ⟨beside, allOn_cons.mpr ⟨onS, allOn_nil⟩⟩
  · exact allOn_nil

/-! ## The castling search -/

/-- The search to the left ends at the first column. -/
theorem castleScanAccesses_left {r : Int} (row : 0 ≤ r ∧ r < 8) {turns : Nat} {c : Int}
    (column : c < 8) : AllOn (castleScanAccesses g r (-1) turns c) := by
  induction turns generalizing c with
  | zero => exact allOn_nil
  | succ turns ih =>
    rw [castleScanAccesses]
    split
    · rename_i inside
      rw [allOn_cons]
      refine ⟨⟨row, inside.1, column⟩, ?_⟩
      split
      · exact ih (by omega)
      · exact allOn_nil
    · exact allOn_nil

/-- The search to the right stays on the board when it meets a piece there. -/
theorem castleScanAccesses_right {r : Int} (row : 0 ≤ r ∧ r < 8) {turns : Nat} {c : Int}
    (column : 0 ≤ c ∧ c ≤ 8) (enough : 9 ≤ c + turns) :
    AllOn (castleScanAccesses g r 1 turns c) ↔
      ¬ ∀ x, c ≤ x → x < 8 → (g.get r x).type = .empty := by
  induction turns generalizing c with
  | zero => omega
  | succ turns ih =>
    rw [castleScanAccesses, if_pos column, allOn_cons]
    by_cases last : c = 8
    · refine iff_of_false (fun on => ?_) (not_not.mpr fun x low high => ?_)
      · have := on.1.2
        dsimp only at this
        omega
      · omega
    have on : OnBoard r c := ⟨row, by omega⟩
    rw [and_iff_right on]
    by_cases free : (g.get r c).type = .empty
    · rw [if_pos free, ih (by omega) (by push_cast at enough; omega)]
      refine not_congr ⟨fun all x low high => ?_, fun all x low high => all x (by omega) high⟩
      by_cases here : x = c
      · rw [here]
        exact free
      · exact all x (by omega) high
    · rw [if_neg free]
      refine iff_of_true allOn_nil fun all => free (all c le_rfl (by omega))

end Pieces

/-! ## Attack tests -/

/-- No pawn that may be asked to move stands on an outer row. -/
def FoesInside (g : Game) (player : Player) : Prop :=
  ∀ r c, (g.get r c).type = .pawn → (g.get r c).player ≠ player → r ≠ 0 ∧ r ≠ 7

section Attack

variable (attacked : Game → Int → Int → Player → Option (Bool × Game))
  (accesses : Game → Int → Int → Player → List (Int × Int)) {g : Game}

/-- Inside an attack test the castling search meets the target, and no other test starts. -/
theorem kingAccesses_onto (cornered : RooksCornered g) {i j r c : Int} (onS : OnBoard i j)
    (onT : OnBoard r c) (target : (g.get r c).type ≠ .empty)
    (free : ¬ ((g.get r c).type = .rook ∧ (g.get r c).moves = 0)) :
    AllOn (kingAccesses attacked accesses g ⟨i, j, r, c, .queen⟩) := by
  unfold kingAccesses
  dsimp only
  split
  · exact allOn_nil
  rw [allOn_cons]
  refine ⟨onS, ?_⟩
  split
  · exact allOn_nil
  rename_i castling
  push Not at castling
  obtain ⟨-, row, two⟩ := castling
  have blocked := castleScan_blocked cornered onS onT row two target free
  dsimp only at blocked
  have columns := onS.2
  have columns' := onT.2
  rw [allOn_append]
  constructor
  · split
    · exact castleScanAccesses_left onS.1 (by omega)
    · rw [castleScanAccesses_right onS.1 (by omega) (by push_cast; omega)]
      intro all
      apply target
      obtain rfl : r = i := by omega
      exact all c (by omega) columns'.2
  · generalize castleScan g i (if c - j < 0 then -1 else 1) 9
      (j + if c - j < 0 then -1 else 1) = stop at blocked ⊢
    by_cases past : stop < 0 ∨ 8 ≤ stop
    · rw [if_pos past]
      exact allOn_nil
    rw [if_neg past, allOn_cons]
    refine ⟨⟨onS.1, by dsimp only; omega⟩, ?_⟩
    rw [if_pos]
    · exact allOn_nil
    rcases blocked with low | high | rook | moved
    · omega
    · omega
    · exact Or.inl rook
    · exact Or.inr moved

/-- One question of an attack scan. -/
theorem isIllegalAccesses_onto (cornered : RooksCornered g) {i j r c : Int} {player : Player}
    (foes : FoesInside g player) (onS : OnBoard i j) (onT : OnBoard r c)
    (other : (g.get i j).player ≠ player) (target : (g.get r c).type ≠ .empty)
    (free : ¬ ((g.get r c).type = .rook ∧ (g.get r c).moves = 0)) :
    AllOn (isIllegalAccessesWith attacked accesses g ⟨i, j, r, c, .queen⟩
      (otherPlayer player)) := by
  unfold isIllegalAccessesWith
  dsimp only
  split
  · exact allOn_nil
  rw [allOn_cons]
  refine ⟨onS, ?_⟩
  split
  · exact allOn_nil
  rw [allOn_cons]
  refine ⟨onT, ?_⟩
  split
  · exact allOn_nil
  split
  · exact rookAccesses_allOn onS onT
  · exact bishopAccesses_allOn onS onT
  · exact queenAccesses_allOn onS onT
  · exact kingAccesses_onto attacked accesses cornered onS onT target free
  · rename_i pawn
    exact pawnAccesses_allOn onS onT (foes i j pawn other)
  · exact allOn_nil
  · exact allOn_nil
  · exact allOn_nil

/-- The scan over any list of squares. -/
theorem attackScanAccesses_allOn (cornered : RooksCornered g) {r c : Int} {player : Player}
    (foes : FoesInside g player) (onT : OnBoard r c) (target : (g.get r c).type ≠ .empty)
    (mine : (g.get r c).player = player)
    (free : ¬ ((g.get r c).type = .rook ∧ (g.get r c).moves = 0)) :
    ∀ list : List (Int × Int), AllOn list →
      AllOn (attackScanAccesses (isIllegalWith attacked) (isIllegalAccessesWith attacked accesses)
        r c player list g) := by
  intro list
  induction list with
  | nil => exact fun _ => allOn_nil
  | cons s rest ih =>
    intro on
    obtain ⟨i, j⟩ := s
    obtain ⟨onS, onRest⟩ := allOn_cons.mp on
    have tail := ih onRest
    rw [attackScanAccesses, allOn_cons]
    refine ⟨onS, ?_⟩
    split
    · exact tail
    rename_i asked
    push Not at asked
    rw [allOn_append]
    refine ⟨isIllegalAccesses_onto attacked accesses cornered foes onS onT asked.2 target free, ?_⟩
    by_cases foe : (g.get i j).player = otherPlayer player
    · obtain ⟨v, answer, code, board⟩ :=
        isIllegalWith_onto attacked cornered onS onT asked.1 foe target mine fun _ _ _ _ => free
      rw [answer]
      dsimp only
      split
      · exact allOn_nil
      · rename_i negative
        have missed : strikes g i j r c ≠ true := fun hit => negative (code.mpr hit)
        rw [board, if_neg missed]
        exact tail
    · have refused : isIllegalWith attacked g ⟨i, j, r, c, .queen⟩ (otherPlayer player) =
          some (.plain g illegalMove) := by
        unfold isIllegalWith
        simp [foe]
      rw [refused]
      exact tail

end Attack

/-- An attack test on a square that is empty or the player's. -/
theorem pieceIsAttackedAccesses_allOn (depth : Nat) {g : Game} (cornered : RooksCornered g)
    {r c : Int} {player : Player} (foes : FoesInside g player) (onT : OnBoard r c)
    (owned : (g.get r c).type = .empty ∨ (g.get r c).player = player)
    (free : ¬ ((g.get r c).type = .rook ∧ (g.get r c).moves = 0)) :
    AllOn (pieceIsAttackedAccesses (depth + 1) g r c player) := by
  have planted := plantPawn_target onT owned
  have free' : ¬ (((plantPawn g r c player).get r c).type = .rook ∧
      ((plantPawn g r c player).get r c).moves = 0) := by
    intro castles
    rw [plantPawn_rook onT castles.1] at castles
    exact free castles
  have foes' : FoesInside (plantPawn g r c player) player := by
    intro x y pawn other
    by_cases here : x = r ∧ y = c
    · obtain ⟨rfl, rfl⟩ := here
      exact absurd planted.2 other
    · rw [get_plantPawn_ne here] at pawn other
      exact foes x y pawn other
  rw [pieceIsAttackedAccesses, allOn_cons, allOn_append, allOn_cons]
  refine ⟨onT, ?_, onT, allOn_nil⟩
  exact attackScanAccesses_allOn _ _ (plantPawn_cornered cornered onT) foes' onT planted.1 planted.2
    free' squares fun s mem => (mem_squares s).mp mem

/-- An attack test that finds nothing claims the square at most. -/
theorem probe_missed {g after : Game} {r c : Int} {player : Player}
    (missed : probe g r c player = (false, after)) :
    ¬ Struck g r c player ∧ after = claim g r c player := by
  unfold probe at missed
  cases found : firstAttacker g r c player with
  | none =>
    rw [found] at missed
    cases missed
    exact ⟨not_struck_iff.mpr found, rfl⟩
  | some s =>
    rw [found] at missed
    cases missed

/-- A chain of attack tests stays on the board when its first test does, and the others do on the
board that is left when the first one finds nothing. -/
theorem anyAttackedAccesses_cons {attacked : Game → Int → Int → Player → Option (Bool × Game)}
    {accesses : Game → Int → Int → Player → List (Int × Int)} {kr kc r c : Int}
    {rest : List (Int × Int)} {g : Game} (onK : OnBoard kr kc)
    (first : AllOn (accesses g r c (g.get kr kc).player))
    (others : ∀ after, attacked g r c (g.get kr kc).player = some (false, after) →
      AllOn (anyAttackedAccesses attacked accesses kr kc rest after)) :
    AllOn (anyAttackedAccesses attacked accesses kr kc ((r, c) :: rest) g) := by
  rw [anyAttackedAccesses, allOn_cons, allOn_append]
  refine ⟨onK, first, ?_⟩
  cases answer : attacked g r c (g.get kr kc).player with
  | none => exact allOn_nil
  | some result =>
    obtain ⟨hit, after⟩ := result
    cases hit with
    | true => exact allOn_nil
    | false => exact others after answer

/-! ## One move -/

/-- No pawn stands on an outer row. -/
def PawnsInside (g : Game) : Prop := ∀ r c, (g.get r c).type = .pawn → r ≠ 0 ∧ r ≠ 7

/-- The player asks for castling to the right, and no piece stands there. -/
structure Overruns (g : Game) (m : Move) : Prop where
  /-- The move is one of the player. -/
  mine : Mine g m (getPlayer g)
  /-- It is a king that moves. -/
  king : (g.get m.rI m.cI).type = .king
  /-- It has not moved. -/
  unmoved : (g.get m.rI m.cI).moves = 0
  /-- It stays in its row. -/
  row : m.rF = m.rI
  /-- It moves two columns to the right. -/
  two : m.cF = m.cI + 2
  /-- Nothing stands to its right. -/
  clear : ∀ c, m.cI < c → c < 8 → (g.get m.rI c).type = .empty

section Move

variable {g : Game} {m : Move}

/-- Pawns of any player stay inside. -/
theorem PawnsInside.foes (inside : PawnsInside g) (player : Player) : FoesInside g player :=
  fun r c pawn _ => inside r c pawn

/-- A claim moves no pawn. -/
theorem PawnsInside.claim (inside : PawnsInside g) (r c : Int) (player : Player) :
    PawnsInside (claim g r c player) := by
  intro x y pawn
  rw [claim_type] at pawn
  exact inside x y pawn

/-- The attack tests of castling stay on the board. -/
theorem anyAttackedAccesses_allOn {cc stop : Int} {player : Player} (sound : Sound g)
    (inside : PawnsInside g) (known : player = .white ∨ player = .black) (mine : Mine g m player)
    (kind : (g.get m.rI m.cI).type = .king) (castling : Castling g m cc stop) (depth : Nat) :
    AllOn (anyAttackedAccesses (pieceIsAttacked (depth + 1)) (pieceIsAttackedAccesses (depth + 1))
      m.rI m.cI [(m.rI, m.cI), (m.rI, m.cI + cc), (m.rI, m.cI + cc * 2)] g) := by
  have bounds := mine.onT
  rw [castling.row, castling.two] at bounds
  have onMid : OnBoard m.rI (m.cI + cc) :=
    ⟨mine.onS.1, by
      have := mine.onS.2
      have := bounds.2
      rcases castling.step with rfl | rfl <;> omega⟩
  have passing := castling.passing_empty sound.home mine.onS mine.onT
  have full : (g.get m.rI m.cI).type ≠ .empty := mine.full
  have owner := mine.owner
  have still : ¬ ((g.get m.rI m.cI).type = .rook ∧ (g.get m.rI m.cI).moves = 0) := by simp [kind]
  apply anyAttackedAccesses_cons mine.onS
  · rw [owner]
    exact pieceIsAttackedAccesses_allOn depth sound.cornered (inside.foes _) mine.onS
      (Or.inr owner) still
  intro after answer
  rw [owner, pieceIsAttacked_eq depth sound.cornered mine.onS (Or.inr owner) still] at answer
  obtain ⟨safe, rfl⟩ := probe_missed (Option.some.inj answer)
  rw [claim_occupied player full]
  have free : ¬ ((g.get m.rI (m.cI + cc)).type = .rook ∧ (g.get m.rI (m.cI + cc)).moves = 0) := by
    simp [passing]
  apply anyAttackedAccesses_cons mine.onS
  · rw [owner]
    exact pieceIsAttackedAccesses_allOn depth sound.cornered (inside.foes _) onMid
      (Or.inl passing) free
  intro after answer
  rw [owner, pieceIsAttacked_eq depth sound.cornered onMid (Or.inl passing) free] at answer
  obtain ⟨-, rfl⟩ := probe_missed (Option.some.inj answer)
  have arriving := castling.arriving_empty sound.home known mine safe
  rw [castling.row, castling.two, ← claim_type g m.rI (m.cI + cc) player] at arriving
  apply anyAttackedAccesses_cons mine.onS
  · rw [claim_full full, owner]
    exact pieceIsAttackedAccesses_allOn depth (sound.claim _ _ _).cornered
      ((inside.claim _ _ _).foes _) bounds (Or.inl arriving) (by simp [arriving])
  intro after _
  exact allOn_nil

/-- What follows the castling search stays on the board. -/
theorem castlingAccesses_allOn {cc stop : Int} (sound : Sound g) (inside : PawnsInside g)
    (mine : Mine g m (getPlayer g)) (kind : (g.get m.rI m.cI).type = .king)
    (shape : (g.get m.rI m.cI).moves = 0 ∧ m.rF - m.rI = 0 ∧ (m.cF - m.cI).natAbs = 2)
    (direction : cc = if m.cF - m.cI < 0 then -1 else 1)
    (found : stop = castleScan g m.rI cc 9 (m.cI + cc)) (depth : Nat) :
    AllOn (if stop < 0 ∨ 8 ≤ stop then []
      else (m.rI, stop) ::
        if (g.get m.rI stop).type ≠ .rook ∨ (g.get m.rI stop).moves ≠ 0 then []
        else anyAttackedAccesses (pieceIsAttacked (depth + 1)) (pieceIsAttackedAccesses (depth + 1))
          m.rI m.cI [(m.rI, m.cI), (m.rI, m.cI + cc), (m.rI, m.cI + cc * 2)] g) := by
  by_cases past : stop < 0 ∨ 8 ≤ stop
  · rw [if_pos past]
    exact allOn_nil
  rw [if_neg past, allOn_cons]
  refine ⟨⟨mine.onS.1, by dsimp only; omega⟩, ?_⟩
  by_cases other : (g.get m.rI stop).type ≠ .rook ∨ (g.get m.rI stop).moves ≠ 0
  · rw [if_pos other]
    exact allOn_nil
  rw [if_neg other]
  push Not at other
  have castling : Castling g m cc stop := (castling_iff mine.onS).mpr
    ⟨shape, direction, found, by omega, other.1, other.2⟩
  exact anyAttackedAccesses_allOn sound inside (getPlayer_known g) mine kind castling depth

/-- The castling search stays on the board, unless it overruns. -/
theorem castleScanAccesses_allOn (mine : Mine g m (getPlayer g))
    (kind : (g.get m.rI m.cI).type = .king)
    (shape : (g.get m.rI m.cI).moves = 0 ∧ m.rF - m.rI = 0 ∧ (m.cF - m.cI).natAbs = 2) :
    AllOn (castleScanAccesses g m.rI (if m.cF - m.cI < 0 then -1 else 1) 9
      (m.cI + if m.cF - m.cI < 0 then -1 else 1)) ↔ ¬ Overruns g m := by
  have columns := mine.onS.2
  have columns' := mine.onT.2
  by_cases left : m.cF - m.cI < 0
  · rw [if_pos left]
    refine iff_of_true (castleScanAccesses_left mine.onS.1 (by omega)) fun overruns => ?_
    have := overruns.two
    omega
  · rw [if_neg left, castleScanAccesses_right mine.onS.1 (by omega) (by push_cast; omega)]
    refine not_congr ⟨fun clear => ?_, fun overruns x low high => overruns.clear x (by omega) high⟩
    exact ⟨mine, kind, shape.1, by omega, by omega, fun x low high => clear x (by omega) high⟩

/-- The rule of the king stays on the board, unless its search overruns. -/
theorem kingAccesses_allOn (sound : Sound g) (inside : PawnsInside g)
    (mine : Mine g m (getPlayer g)) (kind : (g.get m.rI m.cI).type = .king) (depth : Nat) :
    AllOn (kingAccesses (pieceIsAttacked (depth + 1)) (pieceIsAttackedAccesses (depth + 1)) g m) ↔
      ¬ Overruns g m := by
  unfold kingAccesses
  dsimp only
  by_cases near : (m.rF - m.rI).natAbs ≤ 1 ∧ (m.cF - m.cI).natAbs ≤ 1
  · rw [if_pos near]
    refine iff_of_true allOn_nil fun overruns => ?_
    have := overruns.two
    omega
  rw [if_neg near, allOn_cons, and_iff_right mine.onS]
  by_cases shape : (g.get m.rI m.cI).moves ≠ 0 ∨ m.rF - m.rI ≠ 0 ∨ (m.cF - m.cI).natAbs ≠ 2
  · rw [if_pos shape]
    refine iff_of_true allOn_nil fun overruns => ?_
    rcases shape with moved | row | two
    · exact moved overruns.unmoved
    · exact row (by rw [overruns.row, sub_self])
    · have := overruns.two
      omega
  rw [if_neg shape]
  push Not at shape
  rw [allOn_append,
    and_iff_left (castlingAccesses_allOn sound inside mine kind shape rfl rfl depth)]
  exact castleScanAccesses_allOn mine kind shape

/-- The legality check stays on the board, unless the castling search overruns. -/
theorem isIllegalAccesses_allOn (sound : Sound g) (inside : PawnsInside g) (depth : Nat) :
    AllOn (isIllegalAccesses (depth + 1) g m (getPlayer g)) ↔ ¬ Overruns g m := by
  unfold isIllegalAccesses isIllegalAccessesWith
  dsimp only
  by_cases off : ¬ OnBoard m.rI m.cI ∨ ¬ OnBoard m.rF m.cF
  · rw [if_pos off]
    exact iff_of_true allOn_nil fun overruns => off.elim (· overruns.mine.onS) (· overruns.mine.onT)
  rw [if_neg off]
  push Not at off
  rw [allOn_cons, and_iff_right off.1]
  by_cases foreign : (g.get m.rI m.cI).type = .empty ∨ (g.get m.rI m.cI).player ≠ getPlayer g
  · rw [if_pos foreign]
    exact iff_of_true allOn_nil fun overruns =>
      foreign.elim overruns.mine.full (· overruns.mine.owner)
  rw [if_neg foreign]
  push Not at foreign
  rw [allOn_cons, and_iff_right off.2]
  by_cases own : (g.get m.rF m.cF).type ≠ .empty ∧
      (g.get m.rF m.cF).player = (g.get m.rI m.cI).player
  · rw [if_pos own]
    refine iff_of_true allOn_nil fun overruns => ?_
    rw [foreign.2] at own
    exact overruns.mine.free.elim own.1 (· own.2)
  rw [if_neg own]
  have free : (g.get m.rF m.cF).type = .empty ∨ (g.get m.rF m.cF).player ≠ getPlayer g := by
    by_contra taken
    push Not at taken
    exact own ⟨taken.1, taken.2.trans foreign.2.symm⟩
  have mine : Mine g m (getPlayer g) := ⟨off.1, off.2, foreign.1, foreign.2, free⟩
  have officer : ∀ {list}, (g.get m.rI m.cI).type ≠ .king → AllOn list →
      (AllOn list ↔ ¬ Overruns g m) :=
    fun other on => iff_of_true on fun overruns => other overruns.king
  cases kind : (g.get m.rI m.cI).type with
  | rook => exact officer (by simp [kind]) (rookAccesses_allOn off.1 off.2)
  | bishop => exact officer (by simp [kind]) (bishopAccesses_allOn off.1 off.2)
  | queen => exact officer (by simp [kind]) (queenAccesses_allOn off.1 off.2)
  | pawn => exact officer (by simp [kind]) (pawnAccesses_allOn off.1 off.2 (inside _ _ kind))
  | king => exact kingAccesses_allOn sound inside mine kind depth
  | knight | empty | other raw => exact officer (by simp [kind]) allOn_nil

/-- A raw move touches its own squares. -/
theorem moveUncheckedAccesses_allOn {captured : Option (Int × Int)} (onS : OnBoard m.rI m.cI)
    (onT : OnBoard m.rF m.cF) (casualty : ∀ s, captured = some s → OnBoard s.1 s.2) :
    AllOn (moveUncheckedAccesses m captured) := by
  unfold moveUncheckedAccesses
  rw [allOn_cons, allOn_append]
  refine ⟨onT, fun s mem => casualty s (Option.mem_toList.mp mem), ?_⟩
  exact allOn_cons.mpr ⟨onS, allOn_cons.mpr ⟨onT, allOn_cons.mpr ⟨onS, allOn_nil⟩⟩⟩

/-- An accepted move touches its own squares, those of the rook and that of the pawn it takes. -/
theorem Judged.accesses_allOn {player : Player} {v : Verdict} (judged : Judged g m player v)
    (ok : 0 ≤ v.code) : AllOn (v.applyAccesses m) := by
  have mine := judged.mine ok
  have taken : ∀ captured s, pawnGoes g m = some captured → captured = some s →
    OnBoard s.1 s.2 := by
    intro captured s goes same
    rw [same] at goes
    rw [(pawnGoes_captured goes).1]
    exact ⟨mine.onS.1, mine.onT.2⟩
  unfold Verdict.applyAccesses
  rw [allOn_append]
  cases judged with
  | refused | unpromoted | stopped => simp [Verdict.plain, illegalMove, missingPromotion] at ok
  | officer | pawn _ _ goes | promoted _ _ goes =>
    refine ⟨moveUncheckedAccesses_allOn mine.onS mine.onT fun s same => ?_, ?_⟩
    · first
      | exact taken _ s goes same
      | cases same
    · rw [if_neg (by simp [Verdict.plain, noCastle])]
      exact allOn_nil
  | @castled cc stop _ _ castling =>
    refine ⟨moveUncheckedAccesses_allOn mine.onS mine.onT fun s same => (by cases same), ?_⟩
    split
    · obtain ⟨low, high, -⟩ := castling.beyond
      have columns := mine.onS.2
      have bounds := mine.onT.2
      have two := castling.two
      refine moveUncheckedAccesses_allOn ⟨mine.onS.1, low, high⟩ ⟨mine.onS.1, ?_⟩ fun s same =>
        (by cases same)
      rcases castling.step with rfl | rfl <;> dsimp only <;> omega
    · exact allOn_nil

/-- A move that is played leaves pawns inside. -/
theorem PawnsInside.landed {v : Verdict} (inside : PawnsInside g)
    (judged : Judged g m (getPlayer g) v)
    (ok : 0 ≤ v.code) {after : Game} (landed : Landed g m v.captured v.rook after) :
    PawnsInside after := by
  intro r c pawn
  rcases landed.square r c with ⟨rfl, rfl⟩ | ⟨a, columns, rfl⟩ | emptied | kept
  · rw [landed.target] at pawn
    obtain ⟨kind, early, goes⟩ := judged.pawn_arrival ok pawn
    have source := inside m.rI m.cI kind
    exact pawnGoes_inside (judged.mine ok) source early (pawnGoes_iff.mpr goes)
  · obtain ⟨cc, castling, -⟩ := judged.castling ok columns
    rw [landed.rookTarget a c columns] at pawn
    exact PieceType.noConfusion (castling.rook.symm.trans pawn)
  · rw [emptied] at pawn
    exact PieceType.noConfusion pawn
  · rw [kept] at pawn
    exact inside r c pawn

/-- The search for a king looks at the board. -/
theorem findKingAccesses_allOn (g : Game) (player : Player) {list : List (Int × Int)}
    (on : AllOn list) : AllOn (findKingAccesses g player list) := by
  induction list with
  | nil => exact allOn_nil
  | cons s rest ih =>
    rw [allOn_cons] at on
    rw [findKingAccesses, allOn_cons]
    refine ⟨on.1, ?_⟩
    split
    · exact allOn_nil
    · exact ih on.2

/-- The squares of the nested loops are on the board. -/
theorem squares_allOn : AllOn squares := fun s mem => (mem_squares s).mp mem

/-- A test for check stays on the board. -/
theorem isInCheckAccesses_allOn (sound : Sound g) (inside : PawnsInside g) (player : Player)
    (depth : Nat) : AllOn (isInCheckAccesses (depth + 1) g player) := by
  unfold isInCheckAccesses
  rw [allOn_append]
  refine ⟨findKingAccesses_allOn g player squares_allOn, ?_⟩
  cases found : findKing g player with
  | none => exact allOn_nil
  | some s =>
    obtain ⟨r, c⟩ := s
    obtain ⟨on, king, owner⟩ := findKing_some found
    exact pieceIsAttackedAccesses_allOn depth sound.cornered (inside.foes player) on (Or.inr owner)
      (by simp [king])

/-- A move without the end of the game stays on the board, unless the castling search overruns. -/
theorem makeMoveNoCheckmateAccesses_allOn (sound : Sound g) (inside : PawnsInside g) (depth : Nat) :
    AllOn (makeMoveNoCheckmateAccesses (depth + 1) g m) ↔ ¬ Overruns g m := by
  unfold makeMoveNoCheckmateAccesses
  rw [allOn_append, isIllegalAccesses_allOn sound inside]
  apply and_iff_left
  obtain ⟨v, asked, judged⟩ := isIllegal_judged sound.home m (getPlayer_known g)
  rw [asked]
  dsimp only
  split
  · exact allOn_nil
  rename_i negative
  have ok : 0 ≤ v.code := by omega
  have landed := judged.landed sound.home ok
  rw [allOn_append]
  exact ⟨judged.accesses_allOn ok, isInCheckAccesses_allOn (sound.landed landed)
    (inside.landed judged ok landed) _ depth⟩

end Move

/-! ## The search for a move -/

/-- A search that ends with its first success comes to the element. -/
def Comes {α : Type} (success : α → Prop) (list : List α) (a : α) : Prop :=
  ∃ before behind, list = before ++ a :: behind ∧ ∀ b ∈ before, ¬ success b

/-- A search comes to its first element, and to the others when that is no success. -/
theorem comes_cons {α : Type} {success : α → Prop} {x a : α} {rest : List α} :
    Comes success (x :: rest) a ↔ a = x ∨ (¬ success x ∧ Comes success rest a) := by
  constructor
  · rintro ⟨before, behind, split, failed⟩
    cases before with
    | nil => exact Or.inl (List.head_eq_of_cons_eq split).symm
    | cons first before =>
      obtain rfl : x = first := List.head_eq_of_cons_eq split
      exact Or.inr ⟨failed x List.mem_cons_self, before, behind, List.tail_eq_of_cons_eq split,
        fun b mem => failed b (List.mem_cons_of_mem _ mem)⟩
  · rintro (rfl | ⟨failed, before, behind, rfl, others⟩)
    · exact ⟨[], rest, rfl, List.forall_mem_nil _⟩
    · exact ⟨x :: before, behind, rfl, List.forall_mem_cons.mpr ⟨failed, others⟩⟩

/-- Nothing is searched. -/
theorem not_comes_nil {α : Type} {success : α → Prop} {a : α} : ¬ Comes success [] a := by
  rintro ⟨before, behind, split, -⟩
  exact absurd split.symm (List.append_ne_nil_of_right_ne_nil _ (List.cons_ne_nil _ _))

/-- The search of `can_make_move` comes to the move. -/
structure Searched (g : Game) (m : Move) : Prop where
  /-- No piece before can move. -/
  piece : Comes (fun s : Int × Int => ∃ t ∈ squares, Plays g ⟨s.1, s.2, t.1, t.2, .queen⟩) squares
    (m.rI, m.cI)
  /-- The piece cannot go to a square before. -/
  target : Comes (fun t : Int × Int => Plays g ⟨m.rI, m.cI, t.1, t.2, .queen⟩) squares (m.rF, m.cF)
  /-- Every trial promotes to a queen. -/
  queen : m.promotion = .queen

section Search

variable {g : Game}

/-- The trials of a piece stay on the board, unless one the search comes to overruns. -/
theorem pieceCanMoveAccesses_allOn (sound : Sound g) (inside : PawnsInside g) (i j : Int)
    (depth : Nat) (list : List (Int × Int)) :
    AllOn (pieceCanMoveAccesses (depth + 1) g i j list) ↔
      ∀ t, Comes (fun t : Int × Int => Plays g ⟨i, j, t.1, t.2, .queen⟩) list t →
        ¬ Overruns g ⟨i, j, t.1, t.2, .queen⟩ := by
  classical
  induction list with
  | nil => exact iff_of_true allOn_nil fun t comes => absurd comes not_comes_nil
  | cons s rest ih =>
    obtain ⟨r, c⟩ := s
    have trial := trial_eq sound ⟨i, j, r, c, .queen⟩ depth
    rw [pieceCanMoveAccesses, allOn_append, makeMoveNoCheckmateAccesses_allOn sound inside]
    simp only [comes_cons]
    cases asked : makeMoveNoCheckmate (depth + 1) g ⟨i, j, r, c, .queen⟩ with
    | none =>
      rw [asked] at trial
      cases trial
    | some result =>
      rw [asked, Option.map_some, Option.some_inj, decide_eq_decide] at trial
      dsimp only
      by_cases plays : Plays g ⟨i, j, r, c, .queen⟩
      · rw [if_pos (trial.mpr plays), and_iff_left allOn_nil]
        constructor
        · rintro safe t (rfl | ⟨failed, -⟩)
          · exact safe
          · exact absurd plays failed
        · exact fun safe => safe (r, c) (Or.inl rfl)
      · rw [if_neg (mt trial.mp plays), ih]
        constructor
        · rintro ⟨safe, others⟩ t (rfl | ⟨-, comes⟩)
          · exact safe
          · exact others t comes
        · exact fun safe => ⟨safe (r, c) (Or.inl rfl),
            fun t comes => safe t (Or.inr ⟨plays, comes⟩)⟩

/-- The search over any list of squares stays on the board, unless a trial it comes to overruns. -/
theorem canMakeMoveAccesses_allOn (sound : Sound g) (inside : PawnsInside g) (depth : Nat)
    {list : List (Int × Int)} (on : AllOn list) :
    AllOn (canMakeMoveAccesses (depth + 1) g (getPlayer g) list) ↔
      ∀ s, Comes (fun s : Int × Int => ∃ t ∈ squares, Plays g ⟨s.1, s.2, t.1, t.2, .queen⟩) list s →
        ∀ t, Comes (fun t : Int × Int => Plays g ⟨s.1, s.2, t.1, t.2, .queen⟩) squares t →
          ¬ Overruns g ⟨s.1, s.2, t.1, t.2, .queen⟩ := by
  classical
  induction list with
  | nil => exact iff_of_true allOn_nil fun s comes => absurd comes not_comes_nil
  | cons s rest ih =>
    obtain ⟨i, j⟩ := s
    rw [allOn_cons] at on
    rw [canMakeMoveAccesses, allOn_cons, and_iff_right on.1]
    simp only [comes_cons]
    by_cases skip : (g.get i j).type = .empty ∨ (g.get i j).player ≠ getPlayer g
    · have foreign : ∀ t : Int × Int, ¬ Mine g ⟨i, j, t.1, t.2, .queen⟩ (getPlayer g) :=
        fun t mine => skip.elim mine.full (· mine.owner)
      have stuck : ¬ ∃ t ∈ squares, Plays g ⟨i, j, t.1, t.2, .queen⟩ := by
        rintro ⟨t, -, plays⟩
        exact foreign t (plays.mine sound)
      rw [if_pos skip, ih on.2]
      constructor
      · rintro safe s (rfl | ⟨-, comes⟩) t trial
        · exact fun overruns => foreign t overruns.mine
        · exact safe s comes t trial
      · exact fun safe s comes => safe s (Or.inr ⟨stuck, comes⟩)
    · rw [if_neg skip, allOn_append, pieceCanMoveAccesses_allOn sound inside, pieceCanMove_eq sound]
      dsimp only
      by_cases can : ∃ t ∈ squares, Plays g ⟨i, j, t.1, t.2, .queen⟩
      · rw [if_pos (decide_eq_true can), and_iff_left allOn_nil]
        constructor
        · rintro safe s (rfl | ⟨stuck, -⟩)
          · exact safe
          · exact absurd can stuck
        · exact fun safe => safe (i, j) (Or.inl rfl)
      · rw [if_neg (by simpa using can), ih on.2]
        constructor
        · rintro ⟨safe, others⟩ s (rfl | ⟨-, comes⟩)
          · exact safe
          · exact others s comes
        · exact fun safe => ⟨safe (i, j) (Or.inl rfl), fun s comes => safe s (Or.inr ⟨can, comes⟩)⟩

/-- The search for a move stays on the board, unless a trial it comes to overruns. -/
theorem search_allOn (sound : Sound g) (inside : PawnsInside g) (depth : Nat) :
    AllOn (canMakeMoveAccesses (depth + 1) g (getPlayer g) squares) ↔
      ∀ m, Searched g m → ¬ Overruns g m := by
  rw [canMakeMoveAccesses_allOn sound inside depth squares_allOn]
  constructor
  · intro safe m searched
    obtain ⟨rI, cI, rF, cF, promotion⟩ := m
    obtain ⟨piece, target, rfl⟩ := searched
    exact safe (rI, cI) piece (rF, cF) target
  · exact fun safe s piece t target => safe _ ⟨piece, target, rfl⟩

end Search

/-! ## Calls -/

/-- The move is played, and the clock leaves it to the search to find out whether the game is
over. -/
structure LeadsToSearch (g : Game) (m : Move) (after : Game) : Prop where
  /-- The board after the move. -/
  played : ∀ depth, makeMoveNoCheckmate (depth + 1) g m = some (0, after)
  /-- No draw can be claimed. -/
  clock : after.duration - after.lastBigMove < 100

/-- A call stays on the board, unless the castling search overruns for the move or for a trial of
the opponent. -/
theorem makeMoveAccesses_allOn {g : Game} {m : Move} (sound : Sound g) (inside : PawnsInside g)
    (depth : Nat) :
    AllOn (makeMoveAccesses (depth + 1) g m) ↔
      ¬ Overruns g m ∧ ∀ after, LeadsToSearch g m after →
        ∀ trial, Searched after trial → ¬ Overruns after trial := by
  obtain ⟨code, after, asked, tried⟩ := makeMoveNoCheckmate_tried sound m
  have only : ∀ {after'}, LeadsToSearch g m after' → code = 0 ∧ after' = after := by
    intro after' leads
    have same := (asked 0).symm.trans (leads.played 0)
    simp only [Option.some.injEq, Prod.mk.injEq] at same
    exact ⟨same.1, same.2.symm⟩
  unfold makeMoveAccesses
  rw [allOn_append, makeMoveNoCheckmateAccesses_allOn sound inside, asked]
  refine and_congr_right fun _ => ?_
  dsimp only
  by_cases rejected : code = illegalMove ∨ code = missingPromotion
  · rw [if_pos rejected]
    refine iff_of_true allOn_nil fun after' leads => ?_
    obtain ⟨rfl, -⟩ := only leads
    exact absurd rejected (by decide)
  rw [if_neg rejected]
  obtain rfl : code = 0 := tried.code.resolve_right rejected
  by_cases clock : after.duration - after.lastBigMove < 100
  · rw [if_neg (by omega), if_neg (by omega)]
    obtain ⟨v, judged, ok, -, landed, -⟩ := tried.landed sound.home le_rfl
    have sound' := sound.landed landed
    have inside' := inside.landed judged ok landed
    obtain ⟨can, search, -⟩ := canMakeMove_eq sound' (otherPlayer (getPlayer g))
    rw [allOn_append, search, and_iff_left, ← getPlayer_succ landed.duration,
      search_allOn sound' inside']
    swap
    · cases can with
      | true => exact allOn_nil
      | false => exact isInCheckAccesses_allOn sound' inside' _ depth
    constructor
    · intro safe after' leads
      obtain ⟨-, rfl⟩ := only leads
      exact safe
    · exact fun safe => safe _ ⟨asked, clock⟩
  · refine iff_of_true ?_ fun after' leads => ?_
    · split
      · exact allOn_nil
      · rw [if_pos (by omega)]
        exact allOn_nil
    · obtain ⟨-, rfl⟩ := only leads
      exact absurd leads.clock clock

/-- In every game from `new_game`, a call stays on the board exactly when neither the move nor a
trial the opponent's search comes to is a castling to the right without a piece there. -/
theorem Run.accesses_iff {memory g : Game} {calls : List (Move × Int)}
    (run : Run (newGame memory) calls g) (m : Move) (depth : Nat) :
    AllOn (makeMoveAccesses (depth + 1) g m) ↔
      ¬ Overruns g m ∧ ∀ after, LeadsToSearch g m after →
        ∀ trial, Searched after trial → ¬ Overruns after trial :=
  makeMoveAccesses_allOn (run.sound (newGame_sound memory))
    (fun _ _ pawn => run.pawn_rows pawn) depth

/-- The first move of a game and the search for a reply. -/
theorem accesses_opening : AllOn (makeMoveAccesses 1 (newGame blank) ⟨6, 4, 4, 4, .empty⟩) := by
  refine (Run.accesses_iff .start _ 0).mpr ⟨fun overruns => ?_,
    fun after leads trial _ overruns => ?_⟩
  · exact absurd overruns.king (by decide +kernel)
  -- both kings still stand beside a bishop
  have boxed : ∀ i j : Fin 8,
      (makeMoveNoCheckmate 1 (newGame blank) ⟨6, 4, 4, 4, .empty⟩).any (fun result =>
        (result.2.get i j).type = .king ∧ (result.2.get i (j + 1)).type = .empty) = false := by
    decide +kernel
  obtain ⟨i, j, row, column⟩ := overruns.mine.onS.exists_fin
  have two := overruns.two
  have inside := overruns.mine.onT.2
  have free := overruns.clear (trial.cI + 1) (by omega) (by omega)
  have := boxed i j
  rw [leads.played 0, Option.any_some, decide_eq_false_iff_not, ← row, ← column] at this
  exact this ⟨overruns.king, free⟩

/-- White's knight, rook and bishop leave the squares beside the king. -/
def emptyCorner : List Move :=
  [⟨7, 6, 5, 5, .empty⟩, ⟨1, 0, 2, 0, .empty⟩, ⟨6, 7, 4, 7, .empty⟩, ⟨2, 0, 3, 0, .empty⟩,
    ⟨7, 7, 5, 7, .empty⟩, ⟨3, 0, 4, 0, .empty⟩, ⟨6, 6, 5, 6, .empty⟩, ⟨1, 1, 2, 1, .empty⟩,
    ⟨7, 5, 6, 6, .empty⟩, ⟨2, 1, 3, 1, .empty⟩]

/-- The search for the rook ends behind the last column. -/
theorem castling_overruns : ∃ calls g, Run (newGame blank) calls g ∧ (∀ call ∈ calls, call.2 = 0) ∧
    ¬ ∀ s ∈ makeMoveAccesses 1 g ⟨7, 4, 7, 6, .empty⟩, OnBoard s.1 s.2 := by
  have facts : (∀ call ∈ [] ++ (replay (newGame blank) emptyCorner).1, call.2 = 0) ∧
      (7, 8) ∈ makeMoveAccesses 1 (replay (newGame blank) emptyCorner).2 ⟨7, 4, 7, 6, .empty⟩ := by
    decide +kernel
  refine ⟨_, _, Run.start.replayed (newGame_sound blank) emptyCorner, facts.1, fun on => ?_⟩
  exact absurd (on (7, 8) facts.2) (by decide)

end Chessh
