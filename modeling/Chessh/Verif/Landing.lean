import Chessh.Verif.Verdict

/-!
# The board after an accepted move

An accepted verdict is carried out by one raw move, or by two when the king castles.
`Landed` says what these moves leave on every square, and `Judged.landed` shows that the
raw moves of every accepting outcome land in this sense: the claims and the promotion
written during the legality check are overwritten or taken up by them.
-/

namespace Chessh

/-- A big move takes no time. -/
theorem duration_marked (g : Game) (p : Prop) [Decidable p] :
    (if p then g.markBig else g).duration = g.duration := by
  split <;> rfl

/-- A raw move between two different squares, read square by square. -/
theorem get_moveUnchecked (g : Game) {m : Move} {captured : Option (Int × Int)} (clock : Bool)
    (onS : OnBoard m.rI m.cI) (onT : OnBoard m.rF m.cF) (away : ¬ (m.rI = m.rF ∧ m.cI = m.cF))
    (other : captured ≠ some (m.rI, m.cI)) (r c : Int) :
    (moveUnchecked g m captured clock).get r c =
      if r = m.rI ∧ c = m.cI then { g.get r c with type := .empty }
      else if r = m.rF ∧ c = m.cF then
        { g.get m.rI m.cI with
          moves := (g.get m.rI m.cI).moves + 1
          lastMove := if clock then g.duration + 1 else g.duration }
      else if captured = some (r, c) then { g.get r c with type := .empty }
      else g.get r c := by
  have ticked : ∀ x y, (if clock then g.tick else g).get x y = g.get x y := by
    intro x y
    split <;> rfl
  have marked : ∀ x y, ∀ h : Game, ∀ p : Prop, [Decidable p] →
      (if p then h.markBig else h).get x y = h.get x y := by
    intro x y h p _
    split <;> rfl
  unfold moveUnchecked
  dsimp only
  rw [Game.get_setType, Game.get_set, Game.get_set]
  simp only [Game.get_clear, marked, ticked, Game.duration_clear, duration_marked, if_neg other]
  by_cases source : r = m.rI ∧ c = m.cI
  · obtain ⟨rfl, rfl⟩ := source
    simp only [onS, away, and_self, and_false, ↓reduceIte]
  · have notSource : ¬ (OnBoard r c ∧ r = m.rI ∧ c = m.cI) := fun h => source h.2
    rw [if_neg notSource, if_neg source]
    by_cases target : r = m.rF ∧ c = m.cF
    · obtain ⟨rfl, rfl⟩ := target
      simp only [onT, and_self, ↓reduceIte]
      cases clock <;> rfl
    · rw [if_neg fun h => target h.2, if_neg target]

/-- A raw move advances the clock when it is told to. -/
theorem duration_moveUnchecked (g : Game) (m : Move) (captured : Option (Int × Int))
    (clock : Bool) : (moveUnchecked g m captured clock).duration =
      if clock then g.duration + 1 else g.duration := by
  unfold moveUnchecked
  dsimp only
  rw [Game.duration_setType, Game.duration_set, Game.duration_clear, duration_marked]
  cases clock <;> rfl

/-- A raw move onto an occupied square, or with an extra casualty, is a big move. -/
theorem lastBigMove_moveUnchecked (g : Game) (m : Move) (captured : Option (Int × Int))
    (clock : Bool) : (moveUnchecked g m captured clock).lastBigMove =
      if (g.get m.rF m.cF).type ≠ .empty ∨ captured ≠ none then
        if clock then g.duration + 1 else g.duration
      else g.lastBigMove := by
  unfold moveUnchecked
  have ticked : (if clock then g.tick else g).get m.rF m.cF = g.get m.rF m.cF := by
    split <;> rfl
  dsimp only
  rw [Game.lastBigMove_setType, Game.lastBigMove_set, Game.lastBigMove_clear, ticked]
  split <;> cases clock <;> rfl

/-! ## Landing -/

/-- The type that arrives: the promotion of a pawn on its last row. -/
def arrivalType (g : Game) (m : Move) : PieceType :=
  if (g.get m.rI m.cI).type = .pawn ∧ LastRow g m then m.promotion else (g.get m.rI m.cI).type

/-- The column the rook of a castling leaves and the one it reaches. -/
def Verdict.rook (v : Verdict) : Option (Int × Int) :=
  if v.castle.rI = -1 then none else some (v.castle.cI, v.castle.cF)

/-- What an accepted move leaves behind, square by square. -/
structure Landed (g : Game) (m : Move) (captured rook : Option (Int × Int)) (after : Game) :
    Prop where
  /-- One more turn has been played. -/
  duration : after.duration = g.duration + 1
  /-- A capture is a big move. -/
  big : after.lastBigMove =
    if (g.get m.rF m.cF).type ≠ .empty ∨ captured ≠ none then g.duration + 1 else g.lastBigMove
  /-- The piece arrives. -/
  target : after.get m.rF m.cF =
    ⟨arrivalType g m, (g.get m.rI m.cI).player, (g.get m.rI m.cI).moves + 1, g.duration + 1⟩
  /-- It has left. -/
  source : after.get m.rI m.cI = { g.get m.rI m.cI with type := .empty }
  /-- The pawn taken in passing is gone. -/
  taken : ∀ r c, captured = some (r, c) → after.get r c = { g.get r c with type := .empty }
  /-- The castling rook arrives. -/
  rookTarget : ∀ a b, rook = some (a, b) → after.get m.rI b =
    { g.get m.rI a with moves := (g.get m.rI a).moves + 1, lastMove := g.duration + 1 }
  /-- It has left its corner. -/
  rookSource : ∀ a b, rook = some (a, b) → after.get m.rI a =
    { g.get m.rI a with type := .empty }
  /-- Every other square is unchanged. -/
  frame : ∀ r c, ¬ (r = m.rF ∧ c = m.cF) → ¬ (r = m.rI ∧ c = m.cI) → captured ≠ some (r, c) →
    (∀ a b, rook = some (a, b) → r = m.rI → c ≠ a ∧ c ≠ b) → after.get r c = g.get r c

/-- The square of a pawn taken in passing lies beside the pawn that takes it, which moves
diagonally to an empty square. -/
theorem pawnGoes_captured {g : Game} {m : Move} {s : Int × Int}
    (goes : pawnGoes g m = some (some s)) :
    s = (m.rI, m.cF) ∧ m.cF ≠ m.cI ∧ m.rF ≠ m.rI ∧ (g.get m.rF m.cF).type = .empty ∧
      (g.get m.rI m.cF).type = .pawn ∧ (g.get m.rI m.cF).player ≠ (g.get m.rI m.cI).player := by
  have step := direction_eq (g.get m.rI m.cI).player
  cases pawnGoes_iff.mp goes with
  | passing beside row clear pawn foe once rank now =>
    exact ⟨rfl, by omega, by omega, clear, pawn, foe⟩

/-- One raw move lands, when no castling follows. -/
theorem landed_moveUnchecked {g : Game} {m : Move} {player : Player}
    {captured : Option (Int × Int)} (mine : Mine g m player)
    (other : captured ≠ some (m.rI, m.cI)) (beside : captured ≠ some (m.rF, m.cF))
    (same : arrivalType g m = (g.get m.rI m.cI).type) :
    Landed g m captured none (moveUnchecked g m captured true) := by
  have away : ¬ (m.rI = m.rF ∧ m.cI = m.cF) := by
    have := mine.away
    tauto
  have square := get_moveUnchecked g true mine.onS mine.onT away other
  refine ⟨duration_moveUnchecked _ _ _ _, lastBigMove_moveUnchecked _ _ _ _, ?_, ?_, ?_, ?_, ?_, ?_⟩
  · rw [square, if_neg fun h => away ⟨h.1.symm, h.2.symm⟩, if_pos ⟨rfl, rfl⟩, same]
    rfl
  · rw [square, if_pos ⟨rfl, rfl⟩]
  · intro r c here
    have notSource : ¬ (r = m.rI ∧ c = m.cI) := by
      rintro ⟨rfl, rfl⟩
      exact other here
    have notTarget : ¬ (r = m.rF ∧ c = m.cF) := by
      rintro ⟨rfl, rfl⟩
      exact beside here
    rw [square, if_neg notSource, if_neg notTarget, if_pos here]
  · intro a b none
    cases none
  · intro a b none
    cases none
  · intro r c target source casualty _
    rw [square, if_neg source, if_neg target, if_neg casualty]

/-- The raw move of a promotion lands as well: the type was written on the initial square. -/
theorem landed_promotion {g : Game} {m : Move} {player : Player}
    {captured : Option (Int × Int)} (mine : Mine g m player)
    (other : captured ≠ some (m.rI, m.cI)) (beside : captured ≠ some (m.rF, m.cF))
    (promotes : arrivalType g m = m.promotion) :
    Landed g m captured none (moveUnchecked (g.setType m.rI m.cI m.promotion) m captured true) := by
  have away : ¬ (m.rI = m.rF ∧ m.cI = m.cF) := by
    have := mine.away
    tauto
  have away' : ¬ (m.rF = m.rI ∧ m.cF = m.cI) := fun h => away ⟨h.1.symm, h.2.symm⟩
  have square :=
    get_moveUnchecked (g.setType m.rI m.cI m.promotion) true mine.onS mine.onT away other
  have source : (g.setType m.rI m.cI m.promotion).get m.rI m.cI =
      { g.get m.rI m.cI with type := m.promotion } := Game.get_set_self _ _ mine.onS
  have elsewhere : ∀ r c, ¬ (r = m.rI ∧ c = m.cI) →
      (g.setType m.rI m.cI m.promotion).get r c = g.get r c := fun r c ne => Game.get_set_ne _ _ ne
  refine ⟨duration_moveUnchecked _ _ _ _, ?_, ?_, ?_, ?_, ?_, ?_, ?_⟩
  · rw [lastBigMove_moveUnchecked, elsewhere _ _ away']
    rfl
  · rw [square, if_neg away', if_pos ⟨rfl, rfl⟩, source, promotes]
    rfl
  · rw [square, if_pos ⟨rfl, rfl⟩, source]
  · intro r c here
    have notSource : ¬ (r = m.rI ∧ c = m.cI) := by
      rintro ⟨rfl, rfl⟩
      exact other here
    have notTarget : ¬ (r = m.rF ∧ c = m.cF) := by
      rintro ⟨rfl, rfl⟩
      exact beside here
    rw [square, if_neg notSource, if_neg notTarget, if_pos here, elsewhere _ _ notSource]
  · intro a b none
    cases none
  · intro a b none
    cases none
  · intro r c notTarget notSource casualty _
    rw [square, if_neg notSource, if_neg notTarget, if_neg casualty, elsewhere _ _ notSource]

/-- The four squares of a castling are different and on the board. -/
theorem Castling.squares_differ {g : Game} {m : Move} {cc stop : Int} {player : Player}
    (mine : Mine g m player) (castling : Castling g m cc stop)
    (passing : (g.get m.rI (m.cI + cc)).type = .empty) (empty : (g.get m.rF m.cF).type = .empty) :
    stop ≠ m.cI ∧ stop ≠ m.cI + cc ∧ stop ≠ m.cF ∧ m.cI + cc ≠ m.cI ∧ m.cI + cc ≠ m.cF ∧
      m.cF ≠ m.cI ∧ OnBoard m.rI stop ∧ OnBoard m.rI (m.cI + cc) := by
  have rook := castling.rook
  obtain ⟨low, high, ahead⟩ := castling.beyond
  have two := castling.two
  have bounds := mine.onS
  have bounds' := mine.onT.2
  have step := castling.step
  refine ⟨?_, ?_, ?_, by omega, by omega, by omega, ⟨bounds.1, by omega⟩, ⟨bounds.1, ?_⟩⟩
  · rintro rfl
    simp at ahead
  · rintro rfl
    rw [rook] at passing
    exact PieceType.noConfusion passing
  · rintro rfl
    rw [castling.row, rook] at empty
    exact PieceType.noConfusion empty
  · have := bounds.2
    rcases step with rfl | rfl <;> omega

/-- The raw moves of a king and a rook between four squares of a row, read square by square. -/
theorem get_moveUnchecked_castle (g : Game) {m : Move} {stop mid : Int} (onS : OnBoard m.rI m.cI)
    (onT : OnBoard m.rF m.cF) (onStop : OnBoard m.rI stop) (onMid : OnBoard m.rI mid)
    (stopKing : stop ≠ m.cI) (stopMid : stop ≠ mid) (stopTarget : stop ≠ m.cF)
    (targetKing : m.cF ≠ m.cI) (r c : Int) :
    (moveUnchecked (moveUnchecked g m none true) ⟨m.rI, stop, m.rI, mid, .empty⟩ none
      false).get r c =
      if r = m.rI ∧ c = stop then { g.get m.rI stop with type := .empty }
      else if r = m.rI ∧ c = mid then
        { g.get m.rI stop with
          moves := (g.get m.rI stop).moves + 1
          lastMove := g.duration + 1 }
      else if r = m.rI ∧ c = m.cI then { g.get m.rI m.cI with type := .empty }
      else if r = m.rF ∧ c = m.cF then
        { g.get m.rI m.cI with
          moves := (g.get m.rI m.cI).moves + 1
          lastMove := g.duration + 1 }
      else g.get r c := by
  have uncaptured : ∀ x y : Int, none ≠ some (x, y) := fun x y => (Option.some_ne_none (x, y)).symm
  have first := get_moveUnchecked g true onS onT (fun h => targetKing h.2.symm) (uncaptured _ _)
  have second := get_moveUnchecked (moveUnchecked g m none true)
    (m := ⟨m.rI, stop, m.rI, mid, .empty⟩) false onStop onMid (fun h => stopMid h.2)
    (uncaptured _ _)
  have rook : (moveUnchecked g m none true).get m.rI stop = g.get m.rI stop := by
    rw [first, if_neg fun h => stopKing h.2, if_neg fun h => stopTarget h.2,
      if_neg (uncaptured _ _)]
  rw [second]
  by_cases left : r = m.rI ∧ c = stop
  · obtain ⟨rfl, rfl⟩ := left
    rw [if_pos ⟨rfl, rfl⟩, if_pos ⟨rfl, rfl⟩, rook]
  rw [if_neg left, if_neg left]
  by_cases arrived : r = m.rI ∧ c = mid
  · rw [if_pos arrived, if_pos arrived, rook, duration_moveUnchecked]
    rfl
  rw [if_neg arrived, if_neg arrived, if_neg (uncaptured _ _), first]
  by_cases source : r = m.rI ∧ c = m.cI
  · obtain ⟨rfl, rfl⟩ := source
    rw [if_pos ⟨rfl, rfl⟩, if_pos ⟨rfl, rfl⟩]
  · rw [if_neg source, if_neg source, if_neg (uncaptured _ _)]
    rfl

/-- The two raw moves of castling land; the claimed squares are the ones they fill. -/
theorem landed_castling {g : Game} {m : Move} {cc stop : Int} {player : Player}
    (mine : Mine g m player) (kind : (g.get m.rI m.cI).type = .king)
    (castling : Castling g m cc stop)
    (passing : (g.get m.rI (m.cI + cc)).type = .empty) (empty : (g.get m.rF m.cF).type = .empty) :
    Landed g m none (some (stop, m.cI + cc))
      (moveUnchecked (moveUnchecked
        (claim (claim g m.rI (m.cI + cc) player) m.rI (m.cI + cc * 2) player) m none true)
        ⟨m.rI, stop, m.rI, m.cI + cc, .empty⟩ none false) := by
  obtain ⟨stopKing, stopMid, stopTarget, midKing, midTarget, targetKing, onStop, onMid⟩ :=
    castling.squares_differ mine passing empty
  have row := castling.row
  have two := castling.two
  generalize hg : claim (claim g m.rI (m.cI + cc) player) m.rI (m.cI + cc * 2) player = claimed
  have types : ∀ x y, (claimed.get x y).type = (g.get x y).type := by
    intro x y
    rw [← hg, claim_type, claim_type]
  have full : ∀ x y, (g.get x y).type ≠ .empty → claimed.get x y = g.get x y := by
    intro x y occupied
    rw [← hg, claim_full (by rwa [claim_type]), claim_full occupied]
  have elsewhere : ∀ x y, ¬ (x = m.rI ∧ y = m.cI + cc) → ¬ (x = m.rI ∧ y = m.cI + cc * 2) →
      claimed.get x y = g.get x y := by
    intro x y notMid notTarget
    rw [← hg, get_claim, if_neg (by tauto), get_claim, if_neg (by tauto)]
  have time : claimed.duration = g.duration := by rw [← hg]; simp
  have bigTime : claimed.lastBigMove = g.lastBigMove := by rw [← hg]; simp
  have king := full m.rI m.cI mine.full
  have rook := full m.rI stop (by rw [castling.rook]; decide)
  have square := get_moveUnchecked_castle claimed mine.onS mine.onT onStop onMid stopKing stopMid
    stopTarget targetKing
  rw [king, rook, time] at square
  have arrives : arrivalType g m = (g.get m.rI m.cI).type := by
    unfold arrivalType
    rw [if_neg]
    rw [kind]
    exact fun h => PieceType.noConfusion h.1
  have midEmpty : ((moveUnchecked claimed m none true).get m.rI (m.cI + cc)).type = .empty := by
    rw [get_moveUnchecked claimed true mine.onS mine.onT (fun h => targetKing h.2.symm) (by simp),
      if_neg fun h => midKing h.2, if_neg fun h => midTarget h.2, if_neg (by simp), types]
    exact passing
  refine ⟨?_, ?_, ?_, ?_, ?_, ?_, ?_, ?_⟩
  · rw [duration_moveUnchecked, duration_moveUnchecked, time]
    simp
  · rw [lastBigMove_moveUnchecked, if_neg (by simp [midEmpty]), lastBigMove_moveUnchecked, types,
      bigTime, if_neg (by simp [empty]), if_neg (by simp [empty])]
  · rw [square, if_neg fun h => stopTarget h.2.symm, if_neg fun h => midTarget h.2.symm,
      if_neg fun h => targetKing h.2, if_pos ⟨rfl, rfl⟩, arrives]
  · rw [square, if_neg fun h => stopKing h.2.symm, if_neg fun h => midKing h.2.symm,
      if_pos ⟨rfl, rfl⟩]
  · intro r c none
    cases none
  · intro a b columns
    cases columns
    rw [square, if_neg fun h => stopMid h.2.symm, if_pos ⟨rfl, rfl⟩]
  · intro a b columns
    cases columns
    rw [square, if_pos ⟨rfl, rfl⟩]
  · intro r c notTarget notSource _ notRook
    have far := notRook stop (m.cI + cc) rfl
    rw [square, if_neg fun h => (far h.1).1 h.2, if_neg fun h => (far h.1).2 h.2, if_neg notSource,
      if_neg notTarget, elsewhere _ _ (fun h => (far h.1).2 h.2)
        (fun h => notTarget ⟨h.1.trans row.symm, h.2.trans two.symm⟩)]

/-- An accepted move is a move of the player's own piece. -/
theorem Judged.mine {g : Game} {m : Move} {player : Player} {v : Verdict}
    (judged : Judged g m player v) (ok : 0 ≤ v.code) : Mine g m player := by
  cases judged with
  | refused | unpromoted | stopped => simp [Verdict.plain, illegalMove, missingPromotion] at ok
  | officer mine | pawn mine | promoted mine | castled mine => exact mine

/-- An accepting outcome returns zero. -/
theorem Judged.code_eq_zero {g : Game} {m : Move} {player : Player} {v : Verdict}
    (judged : Judged g m player v) (ok : 0 ≤ v.code) : v.code = 0 := by
  cases judged with
  | refused | unpromoted | stopped => simp [Verdict.plain, illegalMove, missingPromotion] at ok
  | officer | pawn | promoted | castled => rfl

/-- The raw moves of an accepting outcome land. -/
theorem Judged.landed {g : Game} {m : Move} {player : Player} {v : Verdict} (home : RooksHome g)
    (judged : Judged g m player v) (ok : 0 ≤ v.code) :
    Landed g m v.captured v.rook (v.apply m) := by
  have pawnSquares : ∀ captured, pawnGoes g m = some captured →
      captured ≠ some (m.rI, m.cI) ∧ captured ≠ some (m.rF, m.cF) := by
    intro captured goes
    constructor <;> rintro rfl
    · obtain ⟨same, straight, -⟩ := pawnGoes_captured goes
      exact straight (Prod.mk.inj same).2.symm
    · obtain ⟨same, -, forward, -⟩ := pawnGoes_captured goes
      exact forward (Prod.mk.inj same).1
  cases judged with
  | refused | unpromoted | stopped => simp [Verdict.plain, illegalMove, missingPromotion] at ok
  | officer mine kind hit =>
    apply landed_moveUnchecked mine (by simp [Verdict.plain]) (by simp [Verdict.plain])
    exact if_neg fun h => kind h.1
  | pawn mine kind goes early =>
    obtain ⟨other, beside⟩ := pawnSquares _ goes
    exact landed_moveUnchecked mine other beside (if_neg fun h => early h.2)
  | promoted mine kind goes last named =>
    obtain ⟨other, beside⟩ := pawnSquares _ goes
    exact landed_promotion mine other beside (if_pos ⟨kind, last⟩)
  | castled mine kind castling empty safe passing arriving =>
    have placed : (m.rI : Int) ≠ -1 := by
      have := mine.onS.1
      omega
    have middle := castling.passing_empty home mine.onS mine.onT
    simp only [Verdict.rook, Verdict.apply, ne_eq, placed, not_false_eq_true, ↓reduceIte]
    exact landed_castling mine kind castling middle empty

end Chessh
