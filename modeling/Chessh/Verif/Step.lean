import Chessh.Verif.Landing

/-!
# What a call of `make_move` can do

`Tried` and `Made` list the outcomes of `make_move_no_checkmate` and `make_move` on a
sound board. Every invariant of a run is a case analysis over these lists; none of them
looks inside the engine again.
-/

namespace Chessh

/-! ## Soundness is kept -/

/-- A square after an accepted move: the piece that arrived, the castling rook, a square
that was emptied, or a square that kept what it had. -/
theorem Landed.square {g : Game} {m : Move} {captured rook : Option (Int × Int)} {after : Game}
    (landed : Landed g m captured rook after) (r c : Int) :
    (r = m.rF ∧ c = m.cF) ∨ (∃ a, rook = some (a, c) ∧ r = m.rI) ∨
      after.get r c = { g.get r c with type := .empty } ∨ after.get r c = g.get r c := by
  by_cases target : r = m.rF ∧ c = m.cF
  · exact Or.inl target
  by_cases source : r = m.rI ∧ c = m.cI
  · obtain ⟨rfl, rfl⟩ := source
    exact Or.inr (Or.inr (Or.inl landed.source))
  by_cases casualty : captured = some (r, c)
  · exact Or.inr (Or.inr (Or.inl (landed.taken r c casualty)))
  by_cases castle : ∃ a, rook = some (a, c) ∧ r = m.rI
  · exact Or.inr (Or.inl castle)
  by_cases corner : ∃ b, rook = some (c, b) ∧ r = m.rI
  · obtain ⟨b, columns, rfl⟩ := corner
    exact Or.inr (Or.inr (Or.inl (landed.rookSource c b columns)))
  refine Or.inr (Or.inr (Or.inr (landed.frame r c target source casualty ?_)))
  rintro a b columns rfl
  exact ⟨fun same => corner ⟨b, by rw [same]; exact columns, rfl⟩,
    fun same => castle ⟨a, by rw [same]; exact columns, rfl⟩⟩

/-- Whatever arrives has moved: an unmoved piece has stayed where it was. -/
theorem Landed.unmoved {g : Game} {m : Move} {captured rook : Option (Int × Int)} {after : Game}
    (sound : Sound g) (landed : Landed g m captured rook after) {r c : Int}
    (full : (after.get r c).type ≠ .empty) (unmoved : (after.get r c).moves = 0) :
    after.get r c = g.get r c := by
  rcases landed.square r c with ⟨rfl, rfl⟩ | ⟨a, columns, rfl⟩ | emptied | kept
  · rw [landed.target] at unmoved
    have := sound.nonneg m.rI m.cI
    dsimp only at unmoved
    omega
  · rw [landed.rookTarget a c columns] at unmoved
    have := sound.nonneg m.rI a
    dsimp only at unmoved
    omega
  · rw [emptied] at full
    exact absurd rfl full
  · exact kept

/-- An accepted move keeps the board sound. -/
theorem Sound.landed {g : Game} {m : Move} {captured rook : Option (Int × Int)} {after : Game}
    (sound : Sound g) (landed : Landed g m captured rook after) : Sound after := by
  have nonneg : ∀ r c, 0 ≤ (after.get r c).moves := by
    intro r c
    rcases landed.square r c with ⟨rfl, rfl⟩ | ⟨a, columns, rfl⟩ | emptied | kept
    · rw [landed.target]
      have := sound.nonneg m.rI m.cI
      exact Int.add_nonneg this (by decide)
    · rw [landed.rookTarget a c columns]
      have := sound.nonneg m.rI a
      exact Int.add_nonneg this (by decide)
    · rw [emptied]
      exact sound.nonneg r c
    · rw [kept]
      exact sound.nonneg r c
  refine ⟨nonneg, fun r c rook unmoved => ?_, fun r c pawn unmoved => ?_⟩
  · have same := landed.unmoved sound (by rw [rook]; decide) unmoved
    rw [same] at rook unmoved ⊢
    exact sound.rook r c rook unmoved
  · have same := landed.unmoved sound (by rw [pawn]; decide) unmoved
    rw [same] at pawn unmoved ⊢
    exact sound.pawn r c pawn unmoved

/-- A claim keeps the board sound. -/
theorem Sound.claim {g : Game} (sound : Sound g) (r c : Int) (player : Player) :
    Sound (claim g r c player) := by
  refine ⟨fun x y => ?_, fun x y rook unmoved => ?_, fun x y pawn unmoved => ?_⟩
  · rw [claim_moves]
    exact sound.nonneg x y
  · rw [claim_type] at rook
    rw [claim_moves] at unmoved
    rw [claim_full (by rw [rook]; decide)]
    exact sound.rook x y rook unmoved
  · rw [claim_type] at pawn
    rw [claim_moves] at unmoved
    rw [claim_full (by rw [pawn]; decide)]
    exact sound.pawn x y pawn unmoved

/-- Writing a type keeps the board sound, unless it makes an unmoved rook or pawn. -/
theorem Sound.setType {g : Game} (sound : Sound g) {r c : Int} {t : PieceType}
    (fresh : t = .rook ∨ t = .pawn → (g.get r c).moves ≠ 0) : Sound (g.setType r c t) := by
  have moves : ∀ x y, ((g.setType r c t).get x y).moves = (g.get x y).moves := by
    intro x y
    rw [Game.get_setType]
    split
    · rename_i here
      rw [here.2.1, here.2.2]
    · rfl
  have old : ∀ x y, ((g.setType r c t).get x y).type = .rook ∨
      ((g.setType r c t).get x y).type = .pawn → ((g.setType r c t).get x y).moves = 0 →
      (g.setType r c t).get x y = g.get x y := by
    intro x y kind unmoved
    rw [moves] at unmoved
    rw [Game.get_setType] at kind ⊢
    split
    · rename_i here
      rw [if_pos here] at kind
      rw [here.2.1, here.2.2] at unmoved
      exact absurd unmoved (fresh kind)
    · rfl
  refine ⟨fun x y => ?_, fun x y rook unmoved => ?_, fun x y pawn unmoved => ?_⟩
  · rw [moves]
    exact sound.nonneg x y
  · have same := old x y (Or.inl rook) unmoved
    rw [same] at rook unmoved ⊢
    exact sound.rook x y rook unmoved
  · have same := old x y (Or.inr pawn) unmoved
    rw [same] at pawn unmoved ⊢
    exact sound.pawn x y pawn unmoved

/-- Promoting an attacker keeps the board sound. -/
theorem Sound.promoteAttacker {g : Game} (sound : Sound g) (i j r : Int) :
    Sound (promoteAttacker g i j r) := by
  unfold Chessh.promoteAttacker
  split
  · exact sound.setType (by simp)
  · exact sound

/-- A pawn move that passes its geometry goes one or two rows forward. -/
theorem pawnGoes_rows {g : Game} {m : Move} {captured : Option (Int × Int)}
    (goes : pawnGoes g m = some captured) :
    m.rF = m.rI + direction (g.get m.rI m.cI).player ∨
      m.rF = m.rI + direction (g.get m.rI m.cI).player * 2 := by
  cases pawnGoes_iff.mp goes with
  | step _ row _ | takes _ row _ | passing _ row => exact Or.inl row
  | double _ row => exact Or.inr row

/-- A pawn that reaches its last row has moved. -/
theorem Sound.promoting_moved {g : Game} (sound : Sound g) {m : Move}
    {captured : Option (Int × Int)} (kind : (g.get m.rI m.cI).type = .pawn)
    (goes : pawnGoes g m = some captured) (last : LastRow g m) : (g.get m.rI m.cI).moves ≠ 0 := by
  intro unmoved
  have start := sound.pawn m.rI m.cI kind unmoved
  have rows := pawnGoes_rows goes
  rcases last with ⟨owner, last⟩ | ⟨owner, last⟩
  · have home := start.1 owner
    simp only [owner, direction, ↓reduceIte] at rows
    omega
  · have home := start.2 owner
    simp only [owner, direction, reduceCtorEq, ↓reduceIte] at rows
    omega

/-- The writes of a stopped castling keep the board sound. -/
theorem Sound.stopped {g after : Game} {r c cc : Int} {player : Player} (sound : Sound g)
    (stopped : Stopped g r c cc player after) : Sound after := by
  cases stopped with
  | first hit => exact sound.promoteAttacker _ _ _
  | second safe hit => exact (sound.claim _ _ _).promoteAttacker _ _ _
  | third safe passing hit => exact ((sound.claim _ _ _).claim _ _ _).promoteAttacker _ _ _

/-- Whatever the legality check wrote, the board is sound. -/
theorem Judged.sound {g : Game} {m : Move} {player : Player} {v : Verdict} (sound : Sound g)
    (judged : Judged g m player v) : Sound v.game := by
  cases judged with
  | refused | officer | pawn | unpromoted => exact sound
  | promoted mine kind goes last named =>
    exact sound.setType fun _ => sound.promoting_moved kind goes last
  | castled mine kind castling empty safe passing arriving =>
    exact (sound.claim _ _ _).claim _ _ _
  | stopped mine kind castling stop => exact sound.stopped stop

/-! ## Check -/

/-- The outcome of `is_in_check`. -/
def checkProbe (g : Game) (player : Player) : Bool × Game :=
  match findKing g player with
  | none => (true, g)
  | some (r, c) => probe g r c player

/-- The player is in check, or has no king. -/
def Checked (g : Game) (player : Player) : Prop := (checkProbe g player).1 = true

/-- The king that was found is the player's king. -/
theorem findKing_some {g : Game} {player : Player} {r c : Int}
    (found : findKing g player = some (r, c)) :
    OnBoard r c ∧ (g.get r c).type = .king ∧ (g.get r c).player = player := by
  have king := List.find?_some found
  have on := (mem_squares (r, c)).mp (List.mem_of_find?_eq_some found)
  simp only [decide_eq_true_eq] at king
  exact ⟨on, king⟩

/-- `is_in_check` needs one activation of the attack test. -/
theorem isInCheck_eq {g : Game} (cornered : RooksCornered g) (player : Player) (depth : Nat) :
    isInCheck (depth + 1) g player = some (checkProbe g player) := by
  unfold isInCheck checkProbe
  cases found : findKing g player with
  | none => rfl
  | some s =>
    obtain ⟨r, c⟩ := s
    obtain ⟨on, king, owner⟩ := findKing_some found
    exact pieceIsAttacked_eq depth cornered on (Or.inr owner) (by simp [king])

/-- A check that is not there leaves the board as it is. -/
theorem checkProbe_safe {g : Game} {player : Player} (safe : ¬ Checked g player) :
    checkProbe g player = (false, g) := by
  unfold Checked at safe
  unfold checkProbe at safe ⊢
  cases found : findKing g player with
  | none => simp [found] at safe
  | some s =>
    obtain ⟨r, c⟩ := s
    obtain ⟨-, king, -⟩ := findKing_some found
    simp only [found] at safe ⊢
    unfold probe at safe ⊢
    cases attacker : firstAttacker g r c player with
    | none => simp only [claim_occupied player (by rw [king]; decide)]
    | some t => simp [attacker] at safe

/-- Whatever the check test wrote, the board is sound. -/
theorem Sound.checkProbe {g : Game} (sound : Sound g) (player : Player) :
    Sound (checkProbe g player).2 := by
  unfold Chessh.checkProbe
  cases findKing g player with
  | none => exact sound
  | some s =>
    unfold probe
    dsimp only
    cases firstAttacker g s.1 s.2 player with
    | none => exact sound.claim _ _ _
    | some t => exact (sound.claim _ _ _).promoteAttacker _ _ _

/-! ## Moves without the end of the game -/

/-- The player to move is White or Black. -/
theorem getPlayer_known (g : Game) : getPlayer g = .white ∨ getPlayer g = .black := by
  unfold getPlayer
  split
  · exact Or.inl rfl
  · exact Or.inr rfl

/-- Every outcome of `make_move_no_checkmate`. -/
inductive Tried (g : Game) (m : Move) : Int → Game → Prop
  /-- The legality check refuses; what it wrote stays. -/
  | refused {v} (judged : Judged g m (getPlayer g) v) (negative : v.code < 0) :
      Tried g m v.code v.game
  /-- The move leaves its own king in check; the backup holds what the legality check wrote. -/
  | exposed {v} (judged : Judged g m (getPlayer g) v) (ok : 0 ≤ v.code)
      (check : Checked (v.apply m) (getPlayer g)) : Tried g m illegalMove v.game
  /-- The move is played. -/
  | played {v} (judged : Judged g m (getPlayer g) v) (ok : 0 ≤ v.code)
      (safe : ¬ Checked (v.apply m) (getPlayer g)) : Tried g m 0 (v.apply m)

/-- The second move of an accepted move is that of a castling rook. -/
theorem Judged.castling {g : Game} {m : Move} {player : Player} {v : Verdict}
    (judged : Judged g m player v) (ok : 0 ≤ v.code) {a b : Int} (rook : v.rook = some (a, b)) :
    ∃ cc, Castling g m cc a ∧ b = m.cI + cc ∧ (g.get m.rF m.cF).type = .empty ∧
      v.captured = none := by
  cases judged with
  | refused | unpromoted | stopped => simp [Verdict.plain, illegalMove, missingPromotion] at ok
  | officer | pawn | promoted => simp [Verdict.rook, Verdict.plain, noCastle] at rook
  | castled mine kind castling empty safe passing arriving =>
    have placed : (m.rI : Int) ≠ -1 := by
      have := mine.onS.1
      omega
    simp only [Verdict.rook, placed, ↓reduceIte, Option.some.injEq, Prod.mk.injEq] at rook
    obtain ⟨rfl, rfl⟩ := rook
    exact ⟨_, castling, rfl, empty, rfl⟩

/-- After an accepted move the unmoved rooks stand in the corner columns, unless the rook that
arrives counts its moves up to zero. -/
theorem Judged.cornered {g : Game} {m : Move} {player : Player} {v : Verdict} (home : RooksHome g)
    (judged : Judged g m player v) (ok : 0 ≤ v.code)
    (counted : arrivalType g m = .rook → (g.get m.rI m.cI).moves ≠ -1) :
    RooksCornered (v.apply m) := by
  have landed := judged.landed home ok
  intro r c rook unmoved
  rcases landed.square r c with ⟨rfl, rfl⟩ | ⟨a, columns, rfl⟩ | emptied | kept
  · rw [landed.target] at rook unmoved
    have := counted rook
    dsimp only at unmoved
    omega
  · rw [landed.rookTarget a c columns] at unmoved
    obtain ⟨cc, castling, -⟩ := judged.castling ok columns
    have := castling.still
    dsimp only at unmoved
    omega
  · rw [emptied] at rook
    exact PieceType.noConfusion rook
  · rw [kept] at rook unmoved
    exact home.cornered r c rook unmoved

/-- `make_move_no_checkmate` ends in a listed outcome wherever the unmoved rooks are at home, unless
a rook arrives that counts its moves up to zero. -/
theorem RooksHome.tried {g : Game} (home : RooksHome g) (m : Move)
    (counted : arrivalType g m = .rook → (g.get m.rI m.cI).moves ≠ -1) :
    ∃ code after, (∀ depth, makeMoveNoCheckmate (depth + 1) g m = some (code, after)) ∧
      Tried g m code after := by
  obtain ⟨v, asked, judged⟩ := isIllegal_judged home m (getPlayer_known g)
  unfold makeMoveNoCheckmate
  simp only [asked, Option.bind_some]
  by_cases negative : v.code < 0
  · simp only [negative, ↓reduceIte]
    exact ⟨_, _, fun _ => rfl, .refused judged negative⟩
  have ok : 0 ≤ v.code := by omega
  simp only [negative, ↓reduceIte, isInCheck_eq (judged.cornered home ok counted), Option.map_some]
  by_cases check : Checked (v.apply m) (getPlayer g)
  · refine ⟨_, _, fun _ => ?_, .exposed judged ok check⟩
    rw [if_pos (show (checkProbe _ _).1 = true from check)]
  · refine ⟨_, _, fun _ => ?_, .played judged ok check⟩
    rw [checkProbe_safe check, judged.code_eq_zero ok]
    rfl

/-- On a sound board `make_move_no_checkmate` ends in a listed outcome. -/
theorem makeMoveNoCheckmate_tried {g : Game} (sound : Sound g) (m : Move) :
    ∃ code after, (∀ depth, makeMoveNoCheckmate (depth + 1) g m = some (code, after)) ∧
      Tried g m code after :=
  sound.home.tried m fun _ => by have := sound.nonneg m.rI m.cI; omega

/-- A refusal returns one of two codes. -/
theorem Judged.code_negative {g : Game} {m : Move} {player : Player} {v : Verdict}
    (judged : Judged g m player v) (negative : v.code < 0) :
    v.code = illegalMove ∨ v.code = missingPromotion := by
  cases judged with
  | refused | stopped => exact Or.inl rfl
  | unpromoted => exact Or.inr rfl
  | officer | pawn | promoted | castled => exact absurd negative (lt_irrefl 0)

/-- The codes of `make_move_no_checkmate`. -/
theorem Tried.code {g : Game} {m : Move} {code : Int} {after : Game}
    (tried : Tried g m code after) :
    code = 0 ∨ code = illegalMove ∨ code = missingPromotion := by
  cases tried with
  | refused judged negative => exact Or.inr (judged.code_negative negative)
  | exposed => exact Or.inr (Or.inl rfl)
  | played => exact Or.inl rfl

/-- Whatever it returns, `make_move_no_checkmate` leaves a sound board. -/
theorem Tried.sound {g : Game} {m : Move} {code : Int} {after : Game} (sound : Sound g)
    (tried : Tried g m code after) : Sound after := by
  cases tried with
  | refused judged negative => exact judged.sound sound
  | exposed judged ok check => exact judged.sound sound
  | played judged ok safe => exact sound.landed (judged.landed sound.home ok)

/-- `make_move_no_checkmate` accepts the move. -/
def Plays (g : Game) (m : Move) : Prop :=
  ∃ after, ∀ depth, makeMoveNoCheckmate (depth + 1) g m = some (0, after)

/-- The player has a move, promotions being to queens. -/
def CanMove (g : Game) (player : Player) : Prop :=
  ∃ i j, OnBoard i j ∧ (g.get i j).type ≠ .empty ∧ (g.get i j).player = player ∧
    ∃ r c, OnBoard r c ∧ Plays g ⟨i, j, r, c, .queen⟩

/-- A search whose every trial returns finds a success exactly when there is one. -/
theorem anyM_some {α : Type} {trial : α → Option Bool} {holds : α → Prop} [DecidablePred holds] :
    ∀ list : List α, (∀ a ∈ list, trial a = some (decide (holds a))) →
      list.anyM trial = some (decide (∃ a ∈ list, holds a)) := by
  intro list
  induction list with
  | nil => intro _; simp
  | cons a rest ih =>
    intro total
    have tail := ih fun b mem => total b (List.mem_cons_of_mem _ mem)
    rw [List.anyM_cons, total a List.mem_cons_self, tail]
    by_cases here : holds a <;> simp [here]

open Classical in
/-- A trial finds out whether the move is playable. -/
theorem trial_eq {g : Game} (sound : Sound g) (m : Move) (depth : Nat) :
    (makeMoveNoCheckmate (depth + 1) g m).map (fun result => decide (0 ≤ result.1)) =
      some (decide (Plays g m)) := by
  obtain ⟨code, after, asked, tried⟩ := makeMoveNoCheckmate_tried sound m
  rw [asked, Option.map_some, Option.some_inj, decide_eq_decide]
  constructor
  · intro ok
    have ok : 0 ≤ code := ok
    obtain rfl : code = 0 := by
      rcases tried.code with zero | rfl | rfl
      · exact zero
      · exact absurd ok (by decide)
      · exact absurd ok (by decide)
    exact ⟨after, asked⟩
  · rintro ⟨after', plays⟩
    have same := (asked 0).symm.trans (plays 0)
    simp only [Option.some.injEq, Prod.mk.injEq] at same
    rw [same.1]

open Classical in
/-- `piece_can_move` decides whether the piece has a move. -/
theorem pieceCanMove_eq {g : Game} (sound : Sound g) (i j : Int) (depth : Nat) :
    pieceCanMove (depth + 1) g i j =
      some (decide (∃ s ∈ squares, Plays g ⟨i, j, s.1, s.2, .queen⟩)) :=
  anyM_some squares fun _ _ => trial_eq sound _ depth

/-- `can_make_move` decides whether the player has a move. -/
theorem canMakeMove_eq {g : Game} (sound : Sound g) (player : Player) :
    ∃ can : Bool, (∀ depth, canMakeMove (depth + 1) g player = some can) ∧
      (can = true ↔ CanMove g player) := by
  classical
  refine ⟨decide (∃ s ∈ squares, (g.get s.1 s.2).type ≠ .empty ∧ (g.get s.1 s.2).player = player ∧
    ∃ t ∈ squares, Plays g ⟨s.1, s.2, t.1, t.2, .queen⟩), fun depth => ?_, ?_⟩
  · refine anyM_some squares fun s _ => ?_
    dsimp only
    split
    · rename_i skip
      rw [Option.some_inj, eq_comm, decide_eq_false_iff_not]
      rintro ⟨full, owner, -⟩
      exact skip.elim full (· owner)
    · rename_i own
      push Not at own
      rw [pieceCanMove_eq sound, Option.some_inj, decide_eq_decide]
      simp only [own, ne_eq, not_false_eq_true, true_and]
  · rw [decide_eq_true_iff]
    constructor
    · rintro ⟨s, mem, full, owner, t, mem', plays⟩
      exact ⟨s.1, s.2, (mem_squares s).mp mem, full, owner, t.1, t.2,
        (mem_squares t).mp mem', plays⟩
    · rintro ⟨i, j, on, full, owner, r, c, on', plays⟩
      exact ⟨(i, j), (mem_squares (i, j)).mpr on, full, owner, (r, c),
        (mem_squares (r, c)).mpr on', plays⟩

/-! ## Calls -/

/-- Every outcome of `make_move`. -/
inductive Made (g : Game) (m : Move) : Int → Game → Prop
  /-- The move is not played. -/
  | refused {code after} (tried : Tried g m code after)
      (rejected : code = illegalMove ∨ code = missingPromotion) : Made g m code after
  /-- The move is played and the clock forces a draw. -/
  | expired {after} (tried : Tried g m 0 after) (clock : 150 ≤ after.duration - after.lastBigMove) :
      Made g m forcedDraw after
  /-- The move is played and the clock allows a draw offer. -/
  | offered {after} (tried : Tried g m 0 after) (clock : 100 ≤ after.duration - after.lastBigMove)
      (early : after.duration - after.lastBigMove < 150) : Made g m drawOffer after
  /-- The move is played and the opponent can move. -/
  | continued {after} (tried : Tried g m 0 after)
      (clock : after.duration - after.lastBigMove < 100)
      (can : CanMove after (otherPlayer (getPlayer g))) : Made g m 0 after
  /-- The move is played and mates; the check test may promote the pawn that mates. -/
  | mated {after} (tried : Tried g m 0 after) (clock : after.duration - after.lastBigMove < 100)
      (stuck : ¬ CanMove after (otherPlayer (getPlayer g)))
      (check : Checked after (otherPlayer (getPlayer g))) :
      Made g m (if getPlayer g = .white then whiteWin else blackWin)
        (checkProbe after (otherPlayer (getPlayer g))).2
  /-- The move is played and stalemates. -/
  | stalemated {after} (tried : Tried g m 0 after)
      (clock : after.duration - after.lastBigMove < 100)
      (stuck : ¬ CanMove after (otherPlayer (getPlayer g)))
      (safe : ¬ Checked after (otherPlayer (getPlayer g))) : Made g m forcedDraw after

/-- On a sound board `make_move` returns, and its result is a listed outcome. -/
theorem makeMove_made {g : Game} (sound : Sound g) (m : Move) :
    ∃ code after, (∀ depth, makeMove (depth + 1) g m = some (code, after)) ∧
      Made g m code after := by
  obtain ⟨code, after, asked, tried⟩ := makeMoveNoCheckmate_tried sound m
  have soundAfter := tried.sound sound
  obtain ⟨can, search, decides⟩ := canMakeMove_eq soundAfter (otherPlayer (getPlayer g))
  unfold makeMove
  simp only [asked, Option.bind_some]
  by_cases rejected : code = illegalMove ∨ code = missingPromotion
  · simp only [rejected, ↓reduceIte]
    exact ⟨_, _, fun _ => rfl, .refused tried rejected⟩
  obtain rfl : code = 0 := tried.code.resolve_right rejected
  simp only [rejected, ↓reduceIte]
  by_cases expired : 150 ≤ after.duration - after.lastBigMove
  · simp only [expired, ↓reduceIte]
    exact ⟨_, _, fun _ => rfl, .expired tried expired⟩
  simp only [expired, ↓reduceIte]
  by_cases offered : 100 ≤ after.duration - after.lastBigMove
  · simp only [offered, ↓reduceIte]
    exact ⟨_, _, fun _ => rfl, .offered tried offered (by omega)⟩
  simp only [offered, ↓reduceIte, search, Option.bind_some, isInCheck_eq soundAfter.cornered,
    Option.map_some]
  cases can with
  | true =>
    simp only [↓reduceIte]
    exact ⟨_, _, fun _ => rfl, .continued tried (by omega) (decides.mp rfl)⟩
  | false =>
    have stuck : ¬ CanMove after (otherPlayer (getPlayer g)) :=
      fun h => Bool.noConfusion (decides.mpr h)
    simp only [Bool.false_eq_true, ↓reduceIte]
    by_cases check : Checked after (otherPlayer (getPlayer g))
    · refine ⟨_, _, fun _ => ?_, .mated tried (by omega) stuck check⟩
      rw [if_pos (show (checkProbe _ _).1 = true from check)]
    · refine ⟨_, _, fun _ => ?_, .stalemated tried (by omega) stuck check⟩
      rw [checkProbe_safe check]
      rfl

/-- On a sound board every call returns. -/
theorem Sound.returns {g : Game} (sound : Sound g) (m : Move) :
    ∃ code after, Returns g m code after ∧ Made g m code after := by
  obtain ⟨code, after, asked, made⟩ := makeMove_made sound m
  exact ⟨code, after, .of_asked asked, made⟩

/-- What a call returns is a listed outcome. -/
theorem Returns.made {g : Game} {m : Move} {code : Int} {after : Game} (sound : Sound g)
    (returns : Returns g m code after) : Made g m code after := by
  obtain ⟨code', after', returns', made⟩ := sound.returns m
  obtain ⟨rfl, rfl⟩ := returns.unique returns'
  exact made

/-- Whatever a call returns, it leaves a sound board. -/
theorem Made.sound {g : Game} {m : Move} {code : Int} {after : Game} (sound : Sound g)
    (made : Made g m code after) : Sound after := by
  cases made with
  | refused tried | expired tried | offered tried | continued tried | stalemated tried =>
    exact tried.sound sound
  | mated tried clock stuck check => exact (tried.sound sound).checkProbe _

/-- Along every run the board stays sound. -/
theorem Run.sound {start g : Game} {calls : List (Move × Int)} (sound : Sound start)
    (run : Run start calls g) : Sound g := by
  induction run with
  | start => exact sound
  | step run returns ih => exact (returns.made ih).sound ih

/-! ## New games -/

/-- What `new_game` puts on a square of the board. -/
theorem newGame_get (memory : Game) (i j : Fin 8) :
    (newGame memory).get i j =
      { type := newType i j
        player := if i.val < 2 then .black else if 6 ≤ i.val then .white
          else (memory.board i j).player
        moves := 0
        lastMove := (memory.board i j).lastMove } :=
  Game.get_coe _ _ _

/-- A new game is sound, whatever the memory held. -/
theorem newGame_sound (memory : Game) : Sound (newGame memory) := by
  have rooks : ∀ i j : Fin 8, newType i j = .rook →
      (j.val = 0 ∨ j.val = 7) ∧ (i.val = 0 ∨ i.val = 7) := by decide
  have pawns : ∀ i j : Fin 8, newType i j = .pawn → i.val = 1 ∨ i.val = 6 := by decide
  refine ⟨fun r c => ?_, fun r c rook _ => ?_, fun r c pawn _ => ?_⟩
  · by_cases on : OnBoard r c
    · obtain ⟨i, j, rfl, rfl⟩ := on.exists_fin
      rw [newGame_get]
    · rw [Game.get_off on, offBoard]
  · obtain ⟨i, j, rfl, rfl⟩ :=
      (onBoard_of_type_ne_empty (g := newGame memory) (by rw [rook]; decide)).exists_fin
    rw [newGame_get] at rook ⊢
    obtain ⟨col, row⟩ := rooks i j rook
    refine ⟨by omega, ?_⟩
    rcases row with row | row <;> simp [row]
  · obtain ⟨i, j, rfl, rfl⟩ :=
      (onBoard_of_type_ne_empty (g := newGame memory) (by rw [pawn]; decide)).exists_fin
    rw [newGame_get] at pawn ⊢
    rcases pawns i j pawn with row | row <;> simp [row]

/-! ## Replaying -/

/-- Memory that holds nothing but empty squares of White. -/
def blank : Game := ⟨fun _ _ => offBoard, 0, 0⟩

/-- One call, executed. -/
def play (g : Game) (m : Move) : Int × Game := (makeMove 1 g m).getD (ioError, g)

/-- A sequence of calls, executed. -/
def replay : Game → List Move → List (Move × Int) × Game
  | g, [] => ([], g)
  | g, m :: rest =>
    let (code, after) := play g m
    let (calls, final) := replay after rest
    ((m, code) :: calls, final)

/-- On a sound board the executed call is the call. -/
theorem Sound.played {g : Game} (sound : Sound g) (m : Move) :
    Returns g m (play g m).1 (play g m).2 := by
  obtain ⟨code, after, asked, -⟩ := makeMove_made sound m
  unfold play
  rw [asked 0]
  exact .of_asked asked

/-- The executed call, at every bound on the nesting of attack tests. -/
theorem Sound.asked {g : Game} (sound : Sound g) (m : Move) (depth : Nat) :
    makeMove (depth + 1) g m = some ((play g m).1, (play g m).2) := by
  obtain ⟨code, after, asked, -⟩ := makeMove_made sound m
  rw [play, asked 0, asked depth]
  rfl

/-- What an executed call leaves is sound. -/
theorem Sound.play {g : Game} (sound : Sound g) (m : Move) : Sound (play g m).2 :=
  ((sound.played m).made sound).sound sound

/-- The executed calls are a run. -/
theorem Run.replayed {start g : Game} {calls : List (Move × Int)} (sound : Sound start)
    (run : Run start calls g) (moves : List Move) :
    Run start (calls ++ (replay g moves).1) (replay g moves).2 := by
  induction moves generalizing g calls with
  | nil => simpa [replay] using run
  | cons m rest ih =>
    have next := ih (run.step ((run.sound sound).played m))
    simpa [replay] using next

/-- White opens the diagonal to the king. -/
def opening : List Move :=
  [⟨6, 5, 5, 5, .empty⟩, ⟨1, 4, 3, 4, .empty⟩, ⟨6, 6, 4, 6, .empty⟩]

/-- Black's queen mates on that diagonal. -/
def matingMove : Move := ⟨0, 3, 4, 7, .empty⟩

/-- Nothing is refused in the opening, and the mate behind it is reported. -/
theorem opening_codes :
    (∀ call ∈ (replay (newGame blank) opening).1, call.2 = 0) ∧
      getPlayer (replay (newGame blank) opening).2 = .black ∧
      ((replay (newGame blank) opening).2.get 0 3).type = .queen ∧
      (play (replay (newGame blank) opening).2 matingMove).1 = blackWin := by
  decide +kernel

end Chessh
