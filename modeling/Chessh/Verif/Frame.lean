import Chessh.Client.Fen
import Chessh.Verif.Length

/-!
# The effect of an accepted move

`make_move_no_checkmate` on arbitrary boards. The attack tests it makes on the way plant pawns,
claim squares and promote attackers; `Effect` says which fields an accepted move leaves changed, and
`makeMoveNoCheckmate_effect` that these are all, on every board whose unmoved pieces are those of a
new game. The exception is a rook whose counter of moves comes back to zero: it wakes up the
castling test of a king that has not moved, and that test scribbles.
-/

namespace Chessh

/-! ## Deeper nesting -/

section Nesting

variable {attacked attacked' : Game → Int → Int → Player → Option (Bool × Game)}

/-- The second attack test answers whatever the first one answers. -/
def Deeper (attacked attacked' : Game → Int → Int → Player → Option (Bool × Game)) : Prop :=
  ∀ g r c player result, attacked g r c player = some result → attacked' g r c player = some result

/-- The tests of castling. -/
theorem anyAttacked_deeper (deeper : Deeper attacked attacked') {kr kc : Int}
    {list : List (Int × Int)} {g : Game} {result : Bool × Game}
    (answer : anyAttacked attacked kr kc list g = some result) :
    anyAttacked attacked' kr kc list g = some result := by
  induction list generalizing g with
  | nil => exact answer
  | cons s rest ih =>
    rw [anyAttacked] at answer ⊢
    obtain ⟨test, asked, answer⟩ := Option.bind_eq_some_iff.mp answer
    rw [deeper _ _ _ _ _ asked, Option.bind_some]
    dsimp only at answer ⊢
    split
    · rename_i hit
      rw [if_pos hit] at answer
      exact answer
    · rename_i safe
      rw [if_neg safe] at answer
      exact ih answer

/-- The king rule. -/
theorem kingIsIllegal_deeper (deeper : Deeper attacked attacked') {g : Game}
    {m : Move} {v : Verdict}
    (answer : kingIsIllegal attacked g m = some v) : kingIsIllegal attacked' g m = some v := by
  unfold kingIsIllegal at answer ⊢
  dsimp only at answer ⊢
  generalize (if m.cF - m.cI < 0 then (-1 : Int) else 1) = cc at answer ⊢
  split_ifs at answer ⊢
  all_goals try exact answer
  obtain ⟨tests, asked, answer⟩ := Option.bind_eq_some_iff.mp answer
  rw [anyAttacked_deeper deeper asked]
  exact answer

/-- The legality check. -/
theorem isIllegalWith_deeper (deeper : Deeper attacked attacked') {g : Game} {m : Move}
    {player : Player} {v : Verdict} (answer : isIllegalWith attacked g m player = some v) :
    isIllegalWith attacked' g m player = some v := by
  unfold isIllegalWith at answer ⊢
  dsimp only at answer ⊢
  split_ifs at answer ⊢
  all_goals try exact answer
  split at answer
  all_goals first | exact answer | exact kingIsIllegal_deeper deeper answer

/-- The scan over the attackers. -/
theorem attackScan_deeper (deeper : Deeper attacked attacked') {r c : Int} {player : Player}
    {list : List (Int × Int)} {g : Game} {result : Bool × Game}
    (answer : attackScan (isIllegalWith attacked) r c player list g = some result) :
    attackScan (isIllegalWith attacked') r c player list g = some result := by
  induction list generalizing g with
  | nil => exact answer
  | cons s rest ih =>
    rw [attackScan] at answer ⊢
    split
    · rename_i skip
      rw [if_pos skip] at answer
      exact ih answer
    · rename_i foe
      rw [if_neg foe] at answer
      obtain ⟨v, asked, answer⟩ := Option.bind_eq_some_iff.mp answer
      rw [isIllegalWith_deeper deeper asked, Option.bind_some]
      split
      · rename_i hit
        rw [if_pos hit] at answer
        exact answer
      · rename_i missed
        rw [if_neg missed] at answer
        exact ih answer

/-- One more open activation changes no answer. -/
theorem pieceIsAttacked_succ (depth : Nat) :
    Deeper (pieceIsAttacked depth) (pieceIsAttacked (depth + 1)) := by
  induction depth with
  | zero =>
    intro g r c player result answer
    cases answer
  | succ depth ih =>
    intro g r c player result answer
    rw [pieceIsAttacked, pieceIsAttackedWith, Option.map_eq_some_iff] at answer ⊢
    obtain ⟨scanned, scan, answer⟩ := answer
    exact ⟨scanned, attackScan_deeper ih scan, answer⟩

/-- `make_move_no_checkmate` returns the same under every larger bound on the nesting. -/
theorem makeMoveNoCheckmate_deeper {g after : Game} {m : Move} {code : Int} {depth : Nat}
    (returns : makeMoveNoCheckmate depth g m = some (code, after)) (extra : Nat) :
    makeMoveNoCheckmate (depth + extra) g m = some (code, after) := by
  induction extra with
  | zero => exact returns
  | succ extra ih =>
    have deeper := pieceIsAttacked_succ (depth + extra)
    unfold makeMoveNoCheckmate at ih ⊢
    obtain ⟨v, asked, answer⟩ := Option.bind_eq_some_iff.mp ih
    rw [show isIllegal (depth + (extra + 1)) g m (getPlayer g) = some v from
      isIllegalWith_deeper deeper asked, Option.bind_some]
    split
    · rename_i negative
      rw [if_pos negative] at answer
      exact answer
    · rename_i ok
      rw [if_neg ok, Option.map_eq_some_iff] at answer
      obtain ⟨checked, test, answer⟩ := answer
      rw [Option.map_eq_some_iff]
      refine ⟨checked, ?_, answer⟩
      unfold isInCheck at test ⊢
      split
      · rename_i missing
        rw [missing] at test
        exact test
      · rename_i r c found
        rw [found] at test
        exact deeper _ _ _ _ _ test

end Nesting

/-! ## The effect -/

/-- No pawn stands on an outer row, and every piece that has not moved is the one `new_game` puts
on its square. -/
structure Original (g : Game) : Prop where
  /-- Pawns stand on the inner rows. -/
  inside : ∀ r c, (g.get r c).type = .pawn → r ≠ 0 ∧ r ≠ 7
  /-- What has not moved has been there from the start. -/
  unmoved : ∀ r c, (g.get r c).type ≠ .empty → (g.get r c).moves = 0 →
    (g.get r c).type = ((newGame blank).get r c).type ∧
      (g.get r c).player = ((newGame blank).get r c).player

/-- A pawn goes diagonally to an empty square: it takes in passing. -/
def EnPassant (g : Game) (m : Move) : Prop :=
  (g.get m.rI m.cI).type = .pawn ∧ m.cF ≠ m.cI ∧ (g.get m.rF m.cF).type = .empty

/-- A king goes two columns: it castles. -/
def Castles (g : Game) (m : Move) : Prop :=
  (g.get m.rI m.cI).type = .king ∧ (m.cF - m.cI).natAbs = 2

instance (g : Game) (m : Move) : Decidable (EnPassant g m) :=
  inferInstanceAs (Decidable (_ ∧ _ ∧ _))

instance (g : Game) (m : Move) : Decidable (Castles g m) := inferInstanceAs (Decidable (_ ∧ _))

/-- The column of the corner the king castles towards. -/
def cornerColumn (m : Move) : Int := if m.cI < m.cF then 7 else 0

/-- The column beside the king that has castled, on the inner side. -/
def innerColumn (m : Move) : Int := if m.cI < m.cF then m.cF - 1 else m.cF + 1

/-- What an accepted move does, square by square. -/
structure Effect (g : Game) (m : Move) (after : Game) : Prop where
  /-- One more turn has been played. -/
  duration : after.duration = g.duration + 1
  /-- The destination holds the mover, or what it is promoted to. -/
  target : after.get m.rF m.cF =
    ⟨if (g.get m.rI m.cI).type = .pawn ∧ LastRow g m then m.promotion else (g.get m.rI m.cI).type,
      (g.get m.rI m.cI).player, (g.get m.rI m.cI).moves + 1, after.duration⟩
  /-- The source is empty. -/
  source : (after.get m.rI m.cI).type = .empty
  /-- A pawn taken in passing is gone. -/
  passed : EnPassant g m → (after.get m.rI m.cF).type = .empty
  /-- The rook of a castling stands beside the king. -/
  inner : Castles g m → (g.get m.rI (cornerColumn m)).type = .rook ∧
    after.get m.rI (innerColumn m) =
      { g.get m.rI (cornerColumn m) with
        moves := (g.get m.rI (cornerColumn m)).moves + 1
        lastMove := after.duration }
  /-- Its corner is empty. -/
  corner : Castles g m → (after.get m.rI (cornerColumn m)).type = .empty
  /-- The big-move clock moves only when a piece disappears. -/
  big : after.lastBigMove ≠ g.lastBigMove → (men after).card < (men g).card
  /-- Every other square keeps all its fields. -/
  frame : ∀ r c, ¬ (r = m.rF ∧ c = m.cF) → ¬ (r = m.rI ∧ c = m.cI) →
    (EnPassant g m → ¬ (r = m.rI ∧ c = m.cF)) →
    (Castles g m → ¬ (r = m.rI ∧ (c = cornerColumn m ∨ c = innerColumn m))) →
    after.get r c = g.get r c

/-- The unmoved rooks of such a board are at home. -/
theorem Original.home {g : Game} (original : Original g) : RooksHome g := by
  intro r c rook unmoved
  obtain ⟨type, owner⟩ := original.unmoved r c (by rw [rook]; decide) unmoved
  rw [rook] at type
  have start := (newGame_sound blank).rook r c type.symm
  rw [owner]
  apply start
  obtain ⟨i, j, rfl, rfl⟩ := (onBoard_of_type_ne_empty (g := g) (by rw [rook]; decide)).exists_fin
  rw [newGame_get]

/-- The casualty of an accepted move is the pawn taken in passing. -/
theorem Judged.captured_eq {g : Game} {m : Move} {player : Player} {v : Verdict}
    (judged : Judged g m player v) (ok : 0 ≤ v.code) :
    v.captured = if EnPassant g m then some (m.rI, m.cF) else none := by
  have pawnCase : ∀ captured, (g.get m.rI m.cI).type = .pawn → pawnGoes g m = some captured →
      captured = if EnPassant g m then some (m.rI, m.cF) else none := by
    intro captured kind goes
    cases pawnGoes_iff.mp goes with
    | step straight | double straight => rw [if_neg fun h => h.2.1 straight]
    | takes beside row full => rw [if_neg fun h => full h.2.2]
    | passing beside row clear => rw [if_pos ⟨kind, by omega, clear⟩]
  cases judged with
  | refused | unpromoted | stopped => simp [Verdict.plain, illegalMove, missingPromotion] at ok
  | officer mine kind hit => exact (if_neg fun h => kind h.1).symm
  | pawn mine kind goes early => exact pawnCase _ kind goes
  | promoted mine kind goes last named => exact pawnCase _ kind goes
  | castled mine kind castling empty =>
    exact (if_neg fun h => PieceType.noConfusion (kind.symm.trans h.1)).symm

/-- Only a king castles. -/
theorem Castling.castles {g : Game} {m : Move} {cc stop : Int} (castling : Castling g m cc stop)
    (home : RooksHome g) (onS : OnBoard m.rI m.cI) :
    (m.cF - m.cI).natAbs = 2 ∧ stop = cornerColumn m ∧ m.cI + cc = innerColumn m := by
  have corner := (home _ _ castling.rook castling.still).1
  have ahead := castling.beyond.2.2
  have two := castling.two
  have column := onS.2
  unfold cornerColumn innerColumn
  rcases castling.step with rfl | rfl
  · rw [if_pos (by omega), if_pos (by omega)]
    omega
  · rw [if_neg (by omega), if_neg (by omega)]
    omega

/-- The second move of an accepted move is the rook's part of a castling. -/
theorem Judged.rook_eq {g : Game} {m : Move} {player : Player} {v : Verdict} (home : RooksHome g)
    (judged : Judged g m player v) (ok : 0 ≤ v.code) :
    v.rook = if Castles g m then some (cornerColumn m, innerColumn m) else none := by
  cases judged with
  | refused | unpromoted | stopped => simp [Verdict.plain, illegalMove, missingPromotion] at ok
  | officer mine kind hit =>
    rw [if_neg]
    · rfl
    rintro ⟨king, two⟩
    simp only [strikes, king, decide_eq_true_eq] at hit
    omega
  | pawn mine kind | promoted mine kind =>
    rw [if_neg fun h => PieceType.noConfusion (kind.symm.trans h.1)]
    rfl
  | castled mine kind castling empty =>
    obtain ⟨two, corner, inner⟩ := castling.castles home mine.onS
    have placed : m.rI ≠ -1 := by
      have := mine.onS.1
      omega
    rw [if_pos ⟨kind, two⟩, ← corner, ← inner]
    exact if_neg placed

/-- What a landed move does, square by square. -/
theorem Judged.effect {g : Game} {m : Move} {player : Player} {v : Verdict} (home : RooksHome g)
    (judged : Judged g m player v) (ok : 0 ≤ v.code) : Effect g m (v.apply m) := by
  have landed := judged.landed home ok
  have captured := judged.captured_eq ok
  have rook := judged.rook_eq home ok
  have count := judged.count home ok
  have onto : Castles g m → v.rook = some (cornerColumn m, innerColumn m) :=
    fun castles => rook.trans (if_pos castles)
  refine ⟨landed.duration, ?_, ?_, ?_, ?_, ?_, ?_, ?_⟩
  · rw [landed.target, landed.duration]
    rfl
  · rw [landed.source]
  · intro passing
    rw [landed.taken m.rI m.cF (captured.trans (if_pos passing))]
  · intro castles
    obtain ⟨cc, castling, -⟩ := judged.castling ok (onto castles)
    refine ⟨castling.rook, ?_⟩
    rw [landed.rookTarget _ _ (onto castles), landed.duration]
  · intro castles
    rw [landed.rookSource _ _ (onto castles)]
  · intro moved
    have disappears : (g.get m.rF m.cF).type ≠ .empty ∨ v.captured ≠ none := by
      by_contra kept
      rw [landed.big, if_neg kept] at moved
      exact moved rfl
    rw [if_pos disappears] at count
    omega
  · intro r c target source passing castling
    apply landed.frame r c target source
    · rw [captured]
      split
      · rename_i taken
        intro here
        simp only [Option.some.injEq, Prod.mk.injEq] at here
        exact passing taken ⟨here.1.symm, here.2.symm⟩
      · exact (Option.some_ne_none (r, c)).symm
    · intro a b columns row
      rw [rook] at columns
      split at columns
      · rename_i castles
        simp only [Option.some.injEq, Prod.mk.injEq] at columns
        have apart := castling castles
        rw [columns.1, columns.2] at apart
        exact ⟨fun h => apart ⟨row, Or.inl h⟩, fun h => apart ⟨row, Or.inr h⟩⟩
      · cases columns

/-- An accepted move has exactly the listed effects, the attack tests included, on every board whose
unmoved pieces are those of a new game, unless the piece that arrives is a rook that has moved minus
one times; and the counters that it adds to stay `int`s if they are not at their limit. -/
theorem makeMoveNoCheckmate_effect {g after : Game} {m : Move} {depth : Nat} (original : Original g)
    (counted : arrivalType g m = .rook → (g.get m.rI m.cI).moves ≠ -1)
    (turns : g.duration < intMax) (moves : (g.get m.rI m.cI).moves < intMax)
    (returns : makeMoveNoCheckmate depth g m = some (0, after)) :
    Effect g m after ∧ after.duration ≤ intMax ∧ (after.get m.rF m.cF).moves ≤ intMax := by
  obtain ⟨code, after', asked, tried⟩ := original.home.tried m counted
  have same := (makeMoveNoCheckmate_deeper returns 1).symm.trans (asked depth)
  simp only [Option.some.injEq, Prod.mk.injEq] at same
  obtain ⟨v, judged, ok, applied, -⟩ := tried.landed original.home (by omega)
  rw [same.2, applied]
  have effect := judged.effect original.home ok
  refine ⟨effect, ?_, ?_⟩
  · rw [effect.duration]
    omega
  · rw [effect.target]
    exact moves

/-- A board with the given pieces and nothing else. -/
def placed (pieces : List ((Fin 8 × Fin 8) × Piece)) (duration : Int) : Game :=
  ⟨fun r c => (pieces.lookup (r, c)).getD offBoard, duration, 0⟩

/-- The conditions on unmoved pieces, checked square by square. -/
theorem Original.of_squares {g : Game}
    (inside : ∀ i j : Fin 8, (g.board i j).type = .pawn → i ≠ 0 ∧ i ≠ 7)
    (unmoved : ∀ i j : Fin 8, (g.board i j).type ≠ .empty → (g.board i j).moves = 0 →
      (g.board i j).type = ((newGame blank).board i j).type ∧
        (g.board i j).player = ((newGame blank).board i j).player) : Original g := by
  refine ⟨fun r c pawn => ?_, fun r c full still => ?_⟩
  · obtain ⟨i, j, rfl, rfl⟩ :=
      (onBoard_of_type_ne_empty (g := g) (by rw [pawn]; decide)).exists_fin
    rw [Game.get_coe] at pawn
    have rows := inside i j pawn
    omega
  · obtain ⟨i, j, rfl, rfl⟩ := (onBoard_of_type_ne_empty full).exists_fin
    rw [Game.get_coe] at full still
    rw [Game.get_coe, Game.get_coe]
    exact unmoved i j full still

/-- White may castle on the king's side. -/
def castlingBoard : Game :=
  placed [((7, 4), ⟨.king, .white, 0, 0⟩), ((7, 7), ⟨.rook, .white, 0, 0⟩),
    ((0, 4), ⟨.king, .black, 0, 0⟩)] 0

/-- White castles. -/
theorem effect_castling :
    ∃ after, makeMoveNoCheckmate 1 castlingBoard ⟨7, 4, 7, 6, .empty⟩ = some (0, after) ∧
      Effect castlingBoard ⟨7, 4, 7, 6, .empty⟩ after ∧ after.duration ≤ intMax ∧
      (after.get 7 6).moves ≤ intMax := by
  have played :
    (makeMoveNoCheckmate 1 castlingBoard ⟨7, 4, 7, 6, .empty⟩).map Prod.fst = some 0 := by
    decide +kernel
  obtain ⟨⟨code, after⟩, returns, rfl⟩ := Option.map_eq_some_iff.mp played
  exact ⟨after, returns, makeMoveNoCheckmate_effect (.of_squares (by decide) (by decide))
    (by decide) (by decide) (by decide) returns⟩

/-- A king that has not moved, the other king two columns from it, a pawn that attacks the first one
and a rook that counts its moves from minus one. -/
def sleepingBoard : Game :=
  placed [((7, 4), ⟨.king, .white, 0, 0⟩), ((7, 6), ⟨.king, .black, 1, 0⟩),
    ((5, 5), ⟨.rook, .black, -1, 0⟩), ((6, 3), ⟨.pawn, .black, 1, 0⟩)] 1

/-- The rook steps between the kings. The castling test it wakes up crowns the pawn, which the move
does not touch. -/
theorem sleeping_rook_crowns :
    ¬ ∀ (g after : Game) (m : Move) (depth : Nat), Original g →
      (∀ extra, makeMoveNoCheckmate (depth + extra) g m = some (0, after)) → Effect g m after := by
  intro always
  have played : ((makeMoveNoCheckmate 2 sleepingBoard ⟨5, 5, 7, 5, .empty⟩).map
      fun result => (result.1, (result.2.get 6 3).type)) = some (0, .queen) := by decide +kernel
  obtain ⟨⟨code, after⟩, returns, outcome⟩ := Option.map_eq_some_iff.mp played
  simp only [Prod.mk.injEq] at outcome
  obtain ⟨rfl, crowned⟩ := outcome
  have effect := always _ after ⟨5, 5, 7, 5, .empty⟩ 2 (.of_squares (by decide) (by decide))
    (makeMoveNoCheckmate_deeper returns)
  have kept := effect.frame 6 3 (by decide) (by decide) (by decide) (by decide)
  rw [kept] at crowned
  exact absurd crowned (by decide)

end Chessh
