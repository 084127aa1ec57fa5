import Chessh.Verif.Pieces

/-!
# Attack tests without their recursion

`piece_is_attacked` asks `is_illegal` about moves onto one square, and the king rule of
`is_illegal` may call `piece_is_attacked` again. As long as unmoved rooks stand in the
corners the inner call is never reached, so one activation suffices: the answer is the
first piece in reading order that strikes the square, and the writes the test leaves
behind are the owner of an empty square and the promotion of the pawn that was found.
-/

namespace Chessh

/-- Whether the piece on one square strikes another, occupied by its opponent. -/
def strikes (g : Game) (i j r c : Int) : Bool :=
  match (g.get i j).type with
  | .rook => decide (0 ≤ rookIsIllegal g ⟨i, j, r, c, .queen⟩)
  | .knight => decide (0 ≤ knightIsIllegal ⟨i, j, r, c, .queen⟩)
  | .bishop => decide (0 ≤ bishopIsIllegal g ⟨i, j, r, c, .queen⟩)
  | .queen => decide (0 ≤ queenIsIllegal g ⟨i, j, r, c, .queen⟩)
  | .king => decide ((r - i).natAbs ≤ 1 ∧ (c - j).natAbs ≤ 1)
  | .pawn => decide ((c - j).natAbs = 1 ∧ i + direction (g.get i j).player = r)
  | .empty | .other _ => false

/-- An opponent of the player stands on the square and strikes the target. -/
def attacksFrom (g : Game) (r c : Int) (player : Player) (s : Int × Int) : Bool :=
  (g.get s.1 s.2).type ≠ .empty && (g.get s.1 s.2).player = otherPlayer player &&
    strikes g s.1 s.2 r c

/-- The first attacker in reading order. -/
def firstAttacker (g : Game) (r c : Int) (player : Player) : Option (Int × Int) :=
  squares.find? (attacksFrom g r c player)

/-- Some opponent of the player strikes the square. -/
def Struck (g : Game) (r c : Int) (player : Player) : Prop :=
  ∃ i j, OnBoard i j ∧ attacksFrom g r c player (i, j) = true

/-- The write of a pawn that strikes a square of its last row: it becomes a queen. -/
def promoteAttacker (g : Game) (i j r : Int) : Game :=
  if (g.get i j).type = .pawn ∧
      (((g.get i j).player = .white ∧ r = 0) ∨ ((g.get i j).player = .black ∧ r = 7)) then
    g.setType i j .queen
  else g

/-- The write an attack test leaves on an empty square: its owner. -/
def claim (g : Game) (r c : Int) (player : Player) : Game :=
  if (g.get r c).type = .empty then g.set r c { g.get r c with player := player } else g

/-- The outcome of an attack test: the answer and the board it leaves. -/
def probe (g : Game) (r c : Int) (player : Player) : Bool × Game :=
  match firstAttacker g r c player with
  | none => (false, claim g r c player)
  | some (i, j) => (true, promoteAttacker (claim g r c player) i j r)

/-- Unmoved rooks stand on a corner column. -/
def RooksCornered (g : Game) : Prop :=
  ∀ r c, (g.get r c).type = .rook → (g.get r c).moves = 0 → c = 0 ∨ c = 7

/-- Castling does not lead onto the square: no unmoved king stands two columns beside an unmoved
rook there. -/
def Unaided (g : Game) (r c : Int) : Prop :=
  ∀ j, (g.get r j).type = .king → (g.get r j).moves = 0 → (c - j).natAbs = 2 →
    ¬ ((g.get r c).type = .rook ∧ (g.get r c).moves = 0)

/-- No player is their own opponent. -/
theorem otherPlayer_ne (p : Player) : otherPlayer p ≠ p := by
  unfold otherPlayer
  split
  · rename_i white
    rw [white]
    decide
  · rename_i other
    exact Ne.symm other

/-- The nested loops visit exactly the squares of the board. -/
theorem mem_squares (s : Int × Int) : s ∈ squares ↔ OnBoard s.1 s.2 := by
  obtain ⟨r, c⟩ := s
  simp only [squares, List.mem_flatMap, List.mem_map, Prod.mk.injEq, List.mem_cons,
    List.not_mem_nil, or_false]
  constructor
  · rintro ⟨a, ha, b, hb, rfl, rfl⟩
    exact ⟨by omega, by omega⟩
  · intro on
    have on := on
    exact ⟨r, by have := on.1; omega, c, by have := on.2; omega, rfl, rfl⟩

/-- The nested loops come to the squares row by row. -/
theorem squares_sorted : squares.Pairwise fun s t => s.1 < t.1 ∨ s.1 = t.1 ∧ s.2 < t.2 := by decide

/-- An occupied square is on the board. -/
theorem onBoard_of_type_ne_empty {g : Game} {r c : Int} (full : (g.get r c).type ≠ .empty) :
    OnBoard r c := by
  by_contra off
  rw [Game.get_off off] at full
  exact full rfl

/-- The answer of a test is whether the square is struck. -/
theorem probe_fst {g : Game} {r c : Int} {player : Player} :
    (probe g r c player).1 = true ↔ Struck g r c player := by
  unfold probe
  cases found : firstAttacker g r c player with
  | none =>
    refine ⟨fun contra => Bool.noConfusion contra, ?_⟩
    rintro ⟨i, j, on, hit⟩
    exact absurd hit (List.find?_eq_none.mp found (i, j) ((mem_squares (i, j)).mpr on))
  | some s =>
    exact ⟨fun _ => ⟨s.1, s.2, (mem_squares s).mp (List.mem_of_find?_eq_some found),
      List.find?_some found⟩, fun _ => rfl⟩

/-- A strike depends on the striking piece and on which squares between are empty. -/
theorem strikes_congr {g h : Game} {i j r c : Int} (away : i ≠ r ∨ j ≠ c)
    (type : (g.get i j).type = (h.get i j).type) (player : (g.get i j).player = (h.get i j).player)
    (path : ∀ x y, ¬ (x = r ∧ y = c) → ((g.get x y).type = .empty ↔ (h.get x y).type = .empty)) :
    strikes g i j r c = strikes h i j r c := by
  have rook : 0 ≤ rookIsIllegal g ⟨i, j, r, c, .queen⟩ ↔
      0 ≤ rookIsIllegal h ⟨i, j, r, c, .queen⟩ := by
    rw [rookIsIllegal_nonneg, rookIsIllegal_nonneg]
    have rows : ∀ x, min i r < x → x < max i r → ((g.get x j).type = .empty ↔
        (h.get x j).type = .empty) := fun x low high => path x j (by omega)
    have cols : ∀ x, min j c < x → x < max j c → ((g.get i x).type = .empty ↔
        (h.get i x).type = .empty) := fun x low high => path i x (by omega)
    exact and_congr_right fun _ => and_congr
      (forall_congr' fun x => forall_congr' fun low => forall_congr' fun high => rows x low high)
      (forall_congr' fun x => forall_congr' fun low => forall_congr' fun high => cols x low high)
  have bishop : 0 ≤ bishopIsIllegal g ⟨i, j, r, c, .queen⟩ ↔
      0 ≤ bishopIsIllegal h ⟨i, j, r, c, .queen⟩ := by
    rw [bishopIsIllegal_nonneg _ _ away, bishopIsIllegal_nonneg _ _ away]
    refine and_congr_right fun slope => forall_congr' fun k => forall_congr' fun low =>
      forall_congr' fun high => path _ _ ?_
    dsimp only at high slope ⊢
    split <;> omega
  have queen : 0 ≤ queenIsIllegal g ⟨i, j, r, c, .queen⟩ ↔
      0 ≤ queenIsIllegal h ⟨i, j, r, c, .queen⟩ := by
    rw [queenIsIllegal_nonneg _ _ away, queenIsIllegal_nonneg _ _ away, rook, bishop]
  unfold strikes
  rw [← type, ← player]
  simp only [rook, bishop, queen]

/-- The castling search toward an occupied square two columns away never ends on an
unmoved rook, unless that square holds it. -/
theorem castleScan_blocked {g : Game} (cornered : RooksCornered g) {i j r c : Int}
    (onS : OnBoard i j) (onT : OnBoard r c) (row : r - i = 0) (two : (c - j).natAbs = 2)
    (target : (g.get r c).type ≠ .empty)
    (free : ¬ ((g.get r c).type = .rook ∧ (g.get r c).moves = 0)) :
    let cc : Int := if c - j < 0 then -1 else 1
    let stop := castleScan g i cc 9 (j + cc)
    stop < 0 ∨ 8 ≤ stop ∨ (g.get i stop).type ≠ .rook ∨ (g.get i stop).moves ≠ 0 := by
  intro cc stop
  obtain rfl : r = i := by omega
  have direction : cc = 1 ∧ c = j + 2 ∨ cc = -1 ∧ c = j - 2 := by
    dsimp only [cc]
    split <;> omega
  obtain ⟨k, -, stopped, passed, -⟩ := castleScan_stops g r cc 9 (j + cc)
  by_contra open_
  push Not at open_
  obtain ⟨low, high, rook, unmoved⟩ := open_
  have corner := cornered r stop rook unmoved
  have bounds := onS.2
  have bounds' := onT.2
  -- the occupied target stops the search at the first or the second square
  have short : k ≤ 1 := by
    by_contra long
    have empty := passed 1 (by omega)
    have there : j + cc + (1 : Nat) * cc = c := by
      rcases direction with ⟨h, h'⟩ | ⟨h, h'⟩ <;> rw [h] <;> push_cast <;> omega
    rw [there] at empty
    exact target empty
  have stopped : stop = j + cc + k * cc := stopped
  obtain rfl | rfl : k = 0 ∨ k = 1 := by omega
  · rcases direction with ⟨h, h'⟩ | ⟨h, h'⟩ <;> rw [h] at stopped <;> push_cast at stopped <;> omega
  · have there : stop = c := by
      rcases direction with ⟨h, h'⟩ | ⟨h, h'⟩ <;>
        rw [h] at stopped <;> push_cast at stopped <;> omega
    rw [there] at rook unmoved
    exact free ⟨rook, unmoved⟩

/-- Inside an attack test the king rule never starts another one: it accepts exactly the
adjacent squares. -/
theorem kingIsIllegal_onto (attacked : Game → Int → Int → Player → Option (Bool × Game))
    {g : Game} (cornered : RooksCornered g) {i j r c : Int} (onS : OnBoard i j) (onT : OnBoard r c)
    (king : (g.get i j).type = .king) (target : (g.get r c).type ≠ .empty)
    (unaided : Unaided g r c) :
    kingIsIllegal attacked g ⟨i, j, r, c, .queen⟩ =
      some (.plain g (if (r - i).natAbs ≤ 1 ∧ (c - j).natAbs ≤ 1 then 0 else illegalMove)) := by
  unfold kingIsIllegal
  dsimp only
  split
  · rfl
  split
  · rfl
  rename_i far castling
  push Not at castling
  have row : r = i := by omega
  have free := unaided j (by rw [row]; exact king) (by rw [row]; exact castling.1) castling.2.2
  have blocked := castleScan_blocked cornered onS onT castling.2.1 castling.2.2 target free
  dsimp only at blocked
  by_cases off : castleScan g i (if c - j < 0 then -1 else 1) 9
        (j + if c - j < 0 then -1 else 1) < 0 ∨
      8 ≤ castleScan g i (if c - j < 0 then -1 else 1) 9 (j + if c - j < 0 then -1 else 1)
  · rw [if_pos off]
  · rw [if_neg off]
    push Not at off
    rcases blocked with low | high | rook | moved
    · omega
    · omega
    · rw [if_pos rook]
    · rw [if_pos moved]
      exact ite_self _

/-- Onto an occupied square a pawn goes where it strikes. -/
theorem pawnIsIllegal_onto {g : Game} {i j r c : Int} (type : (g.get i j).type = .pawn)
    (target : (g.get r c).type ≠ .empty) :
    (0 ≤ (pawnIsIllegal g ⟨i, j, r, c, .queen⟩).code ↔ strikes g i j r c = true) ∧
      (pawnIsIllegal g ⟨i, j, r, c, .queen⟩).game =
        if strikes g i j r c then promoteAttacker g i j r else g := by
  simp only [pawnIsIllegal, strikes, type, target, ne_eq, not_false_eq_true, ↓reduceIte]
  generalize direction (g.get i j).player = direction
  by_cases straight : c = j
  · subst straight
    -- the target itself stands in the way of a step
    have refused : (if (g.get (i + direction) c).type ≠ .empty then Verdict.plain g illegalMove
        else if i + direction = r then promotePawn g ⟨i, c, r, c, .queen⟩ none
        else if i + direction * 2 = r ∧ (g.get (i + direction * 2) c).type = .empty ∧
          (g.get i c).moves = 0 then promotePawn g ⟨i, c, r, c, .queen⟩ none
        else .plain g illegalMove) = .plain g illegalMove := by
      split
      · rfl
      · rename_i clear
        have short : ¬ i + direction = r := fun h => clear (by rw [h]; exact target)
        have long : ¬ (i + direction * 2 = r ∧ (g.get (i + direction * 2) c).type = .empty ∧
            (g.get i c).moves = 0) := fun h => target (by rw [← h.1]; exact h.2.1)
        rw [if_neg short, if_neg long]
    simp only [ne_eq] at refused
    simp only [↓reduceIte, refused]
    simp [Verdict.plain, illegalMove]
  · simp only [straight, ↓reduceIte]
    by_cases beside : (c - j).natAbs = 1
    · by_cases forward : i + direction = r
      · simp [beside, forward, promotePawn, promoteAttacker, type, PieceType.isPromotion]
        split <;> simp
      · simp [beside, forward, Verdict.plain, illegalMove]
    · simp [beside, Verdict.plain, illegalMove]

/-- One question of an attack scan. -/
theorem isIllegalWith_onto (attacked : Game → Int → Int → Player → Option (Bool × Game))
    {g : Game} (cornered : RooksCornered g) {i j r c : Int} {player : Player}
    (onS : OnBoard i j) (onT : OnBoard r c) (full : (g.get i j).type ≠ .empty)
    (foe : (g.get i j).player = otherPlayer player)
    (target : (g.get r c).type ≠ .empty) (mine : (g.get r c).player = player)
    (unaided : Unaided g r c) :
    ∃ v, isIllegalWith attacked g ⟨i, j, r, c, .queen⟩ (otherPlayer player) = some v ∧
      (0 ≤ v.code ↔ strikes g i j r c = true) ∧
      v.game = if strikes g i j r c then promoteAttacker g i j r else g := by
  have plainCase : ∀ code, (0 ≤ code ↔ strikes g i j r c = true) → (g.get i j).type ≠ .pawn →
      (0 ≤ (Verdict.plain g code).code ↔ strikes g i j r c = true) ∧
      (Verdict.plain g code).game = if strikes g i j r c then promoteAttacker g i j r else g := by
    intro code same officer
    refine ⟨same, ?_⟩
    simp [Verdict.plain, promoteAttacker, officer]
  have legal : ¬ ((g.get r c).type ≠ .empty ∧ (g.get r c).player = (g.get i j).player) := by
    rw [mine, foe]
    exact fun h => otherPlayer_ne player h.2.symm
  unfold isIllegalWith
  simp only [onS, onT, not_true_eq_false, or_self, ↓reduceIte, full, foe, ne_eq]
  rw [foe] at legal
  rw [if_neg legal]
  cases type : (g.get i j).type with
  | empty => exact absurd type full
  | rook => exact ⟨_, rfl, plainCase _ (by simp [strikes, type]) (by simp [type])⟩
  | knight => exact ⟨_, rfl, plainCase _ (by simp [strikes, type]) (by simp [type])⟩
  | bishop => exact ⟨_, rfl, plainCase _ (by simp [strikes, type]) (by simp [type])⟩
  | queen => exact ⟨_, rfl, plainCase _ (by simp [strikes, type]) (by simp [type])⟩
  | other raw => exact ⟨_, rfl, plainCase _ (by simp [strikes, type, illegalMove]) (by simp [type])⟩
  | king =>
    refine ⟨_, kingIsIllegal_onto attacked cornered onS onT type target unaided,
      plainCase _ ?_ (by simp [type])⟩
    simp only [strikes, type, decide_eq_true_eq]
    split
    · rename_i near
      simp [near]
    · rename_i far
      simp [far, illegalMove]
  | pawn => exact ⟨_, rfl, pawnIsIllegal_onto type target⟩

/-- The scan over any list of squares finds the first attacker among them. -/
theorem attackScan_eq (attacked : Game → Int → Int → Player → Option (Bool × Game))
    {g : Game} (cornered : RooksCornered g) {r c : Int} {player : Player} (onT : OnBoard r c)
    (target : (g.get r c).type ≠ .empty) (mine : (g.get r c).player = player)
    (unaided : Unaided g r c) :
    ∀ list : List (Int × Int), (∀ s ∈ list, OnBoard s.1 s.2) →
      attackScan (isIllegalWith attacked) r c player list g =
        some (match list.find? (attacksFrom g r c player) with
          | none => (false, g)
          | some (i, j) => (true, promoteAttacker g i j r)) := by
  intro list
  induction list with
  | nil => intro _; rfl
  | cons s rest ih =>
    intro on
    obtain ⟨i, j⟩ := s
    have onS : OnBoard i j := on (i, j) List.mem_cons_self
    have tail := ih fun s mem => on s (List.mem_cons_of_mem _ mem)
    rw [attackScan, List.find?_cons]
    by_cases skip : (g.get i j).type = .empty ∨ (g.get i j).player = player
    · have silent : attacksFrom g r c player (i, j) = false := by
        rcases skip with empty | own
        · simp [attacksFrom, empty]
        · simp [attacksFrom, own, Ne.symm (otherPlayer_ne player)]
      rw [if_pos skip, silent, tail]
    · rw [if_neg skip]
      push Not at skip
      by_cases foe : (g.get i j).player = otherPlayer player
      · obtain ⟨v, asked, code, board⟩ :=
          isIllegalWith_onto attacked cornered onS onT skip.1 foe target mine unaided
        rw [asked, Option.bind_some]
        cases hit : strikes g i j r c with
        | true =>
          have found : attacksFrom g r c player (i, j) = true := by
            simp [attacksFrom, skip.1, foe, hit]
          rw [if_pos (code.mpr hit), found]
          simp [board, hit]
        | false =>
          have missed : attacksFrom g r c player (i, j) = false := by
            simp [attacksFrom, hit]
          have negative : ¬ 0 ≤ v.code := by rw [code, hit]; exact Bool.false_ne_true
          have kept : v.game = g := by rw [board, hit]; rfl
          rw [if_neg negative, missed, kept, tail]
      · have missed : attacksFrom g r c player (i, j) = false := by
          simp [attacksFrom, foe]
        have refused : isIllegalWith attacked g ⟨i, j, r, c, .queen⟩ (otherPlayer player) =
            some (.plain g illegalMove) := by
          unfold isIllegalWith
          simp [onS, onT, foe]
        rw [refused, missed, Option.bind_some, ← tail]
        rfl

/-! ## The planted pawn -/

/-- What stands on a square once a pawn may have been planted on another. -/
theorem get_plantPawn_ne {g : Game} {r c : Int} {player : Player} {x y : Int}
    (ne : ¬ (x = r ∧ y = c)) : (plantPawn g r c player).get x y = g.get x y := by
  unfold plantPawn
  split
  · exact Game.get_set_ne _ _ ne
  · rfl

/-- A planted pawn hides no attacker and adds none. -/
theorem attacksFrom_plantPawn {g : Game} {r c : Int} {player : Player} (onT : OnBoard r c)
    (owned : (g.get r c).type = .empty ∨ (g.get r c).player = player) (s : Int × Int) :
    attacksFrom (plantPawn g r c player) r c player s = attacksFrom g r c player s := by
  obtain ⟨i, j⟩ := s
  by_cases here : i = r ∧ j = c
  · obtain ⟨rfl, rfl⟩ := here
    have silent : attacksFrom g i j player (i, j) = false := by
      rcases owned with empty | own
      · simp [attacksFrom, empty]
      · simp [attacksFrom, own, Ne.symm (otherPlayer_ne player)]
    rw [silent]
    unfold plantPawn
    split
    · simp [attacksFrom, Game.get_set_self _ _ onT, Ne.symm (otherPlayer_ne player)]
    · exact silent
  · have away : i ≠ r ∨ j ≠ c := by
      rw [← not_and_or]
      exact here
    have same := strikes_congr (g := plantPawn g r c player) (h := g) away
      (by rw [get_plantPawn_ne here]) (by rw [get_plantPawn_ne here])
      (fun x y ne => by rw [get_plantPawn_ne ne])
    simp only [attacksFrom, get_plantPawn_ne here, same]

/-- Putting the old type back turns the planted pawn into a change of owner. -/
theorem setType_plantPawn (g : Game) (r c : Int) (player : Player) :
    (plantPawn g r c player).setType r c (g.get r c).type = claim g r c player := by
  unfold plantPawn claim
  split
  · apply Game.ext_get
    · intro x y on
      by_cases here : x = r ∧ y = c
      · obtain ⟨rfl, rfl⟩ := here
        simp [Game.setType, Game.get_set_self _ _ on]
      · simp [Game.setType, Game.get_set_ne _ _ here]
    · rfl
    · rfl
  · exact Game.set_get g r c

/-- Writes to two different squares commute. -/
theorem setType_comm (g : Game) {i j r c : Int} (s t : PieceType) (ne : ¬ (i = r ∧ j = c)) :
    (g.setType i j s).setType r c t = (g.setType r c t).setType i j s := by
  apply Game.ext_get
  · intro x y on
    simp only [Game.get_setType]
    by_cases first : x = i ∧ y = j
    · obtain ⟨rfl, rfl⟩ := first
      simp [ne]
    · by_cases second : x = r ∧ y = c
      · obtain ⟨rfl, rfl⟩ := second
        have swap : ¬ (x = i ∧ y = j) := first
        simp [swap]
      · simp [first, second]
  · rfl
  · rfl

/-- With the pawn planted the square holds a piece of the player. -/
theorem plantPawn_target {g : Game} {r c : Int} {player : Player} (onT : OnBoard r c)
    (owned : (g.get r c).type = .empty ∨ (g.get r c).player = player) :
    ((plantPawn g r c player).get r c).type ≠ .empty ∧
      ((plantPawn g r c player).get r c).player = player := by
  unfold plantPawn
  split
  · rw [Game.get_set_self _ _ onT]
    simp
  · rename_i full
    exact ⟨full, owned.resolve_left full⟩

/-- A rook on the square is no planted pawn. -/
theorem plantPawn_rook {g : Game} {r c : Int} {player : Player} (onT : OnBoard r c)
    (rook : ((plantPawn g r c player).get r c).type = .rook) : plantPawn g r c player = g := by
  unfold plantPawn at rook ⊢
  split
  · rename_i empty
    rw [if_pos empty, Game.get_set_self _ _ onT] at rook
    cases rook
  · rfl

/-- A planted pawn moves no rook. -/
theorem plantPawn_cornered {g : Game} (cornered : RooksCornered g) {r c : Int} {player : Player}
    (onT : OnBoard r c) : RooksCornered (plantPawn g r c player) := by
  intro x y rook unmoved
  by_cases here : x = r ∧ y = c
  · obtain ⟨rfl, rfl⟩ := here
    have same := plantPawn_rook onT rook
    rw [same] at rook unmoved
    exact cornered x y rook unmoved
  · rw [get_plantPawn_ne here] at rook unmoved
    exact cornered x y rook unmoved

/-- A planted pawn helps no king to castle. -/
theorem plantPawn_unaided {g : Game} {r c : Int} {player : Player} (onT : OnBoard r c)
    (unaided : Unaided g r c) : Unaided (plantPawn g r c player) r c := by
  intro j king unmoved two castles
  have same := plantPawn_rook onT castles.1
  rw [same] at king unmoved castles
  exact unaided j king unmoved two castles

/-- The outcome of one attack test, for a square that is empty or the player's. -/
theorem pieceIsAttacked_unaided (depth : Nat) {g : Game} (cornered : RooksCornered g) {r c : Int}
    {player : Player} (onT : OnBoard r c)
    (owned : (g.get r c).type = .empty ∨ (g.get r c).player = player) (unaided : Unaided g r c) :
    pieceIsAttacked (depth + 1) g r c player = some (probe g r c player) := by
  have planted := plantPawn_target onT owned
  have scan := attackScan_eq (pieceIsAttacked depth) (plantPawn_cornered cornered onT) onT planted.1
    planted.2 (plantPawn_unaided onT unaided) squares (fun s mem => (mem_squares s).mp mem)
  have sameFind : squares.find? (attacksFrom (plantPawn g r c player) r c player) =
      firstAttacker g r c player := by
    unfold firstAttacker
    congr 1
    funext s
    exact attacksFrom_plantPawn onT owned s
  rw [sameFind] at scan
  rw [pieceIsAttacked, pieceIsAttackedWith, scan, Option.map_some]
  unfold probe
  cases found : firstAttacker g r c player with
  | none => simp only [setType_plantPawn]
  | some s =>
    obtain ⟨i, j⟩ := s
    have hit : attacksFrom g r c player (i, j) = true := List.find?_some found
    have away : ¬ (i = r ∧ j = c) := by
      rintro ⟨rfl, rfl⟩
      simp only [attacksFrom, ne_eq, Bool.and_eq_true, decide_eq_true_eq] at hit
      rcases owned with empty | own
      · exact hit.1.1 empty
      · exact otherPlayer_ne player (hit.1.2.symm.trans own)
    have same : (claim g r c player).get i j = g.get i j := by
      unfold claim
      split
      · exact Game.get_set_ne _ _ away
      · rfl
    simp only [Option.some.injEq, Prod.mk.injEq, true_and]
    unfold promoteAttacker
    rw [get_plantPawn_ne away, same]
    split
    · rw [setType_comm _ _ _ away, setType_plantPawn]
    · rw [setType_plantPawn]

/-- The same where no unmoved rook stands on the square. -/
theorem pieceIsAttacked_eq (depth : Nat) {g : Game} (cornered : RooksCornered g) {r c : Int}
    {player : Player} (onT : OnBoard r c)
    (owned : (g.get r c).type = .empty ∨ (g.get r c).player = player)
    (free : ¬ ((g.get r c).type = .rook ∧ (g.get r c).moves = 0)) :
    pieceIsAttacked (depth + 1) g r c player = some (probe g r c player) :=
  pieceIsAttacked_unaided depth cornered onT owned fun _ _ _ _ => free

end Chessh
