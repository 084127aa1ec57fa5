import Chessh.Verif.Step

/-!
# The effect of a call

A call writes in two ways. A played move lands. Everything else the engine writes, while
it judges a move or tests for check, is a scribble: the owner of an empty square, or the
type of a moved pawn one step from its last row. `Made.effect` splits every call along
this line.
-/

namespace Chessh

/-- The writes of legality checks and attack tests. -/
structure Scribbled (g after : Game) : Prop where
  /-- No turn is played. -/
  duration : after.duration = g.duration
  /-- The big-move clock stays. -/
  big : after.lastBigMove = g.lastBigMove
  /-- A square keeps everything, or is empty and changes owner, or holds a moved pawn that
  becomes a piece. -/
  square : ∀ r c, after.get r c = g.get r c ∨
    ((g.get r c).type = .empty ∧ ∃ owner, after.get r c = { g.get r c with player := owner }) ∨
    ((g.get r c).type = .pawn ∧ (g.get r c).moves ≠ 0 ∧
      ∃ t : PieceType, t.isPromotion = true ∧ after.get r c = { g.get r c with type := t })

/-- Writing nothing is a scribble. -/
theorem Scribbled.refl (g : Game) : Scribbled g g := ⟨rfl, rfl, fun _ _ => Or.inl rfl⟩

/-- Scribbles compose: a piece is not promoted twice. -/
theorem Scribbled.trans {g h k : Game} (first : Scribbled g h) (second : Scribbled h k) :
    Scribbled g k := by
  refine ⟨second.duration.trans first.duration, second.big.trans first.big, fun r c => ?_⟩
  rcases first.square r c with kept | ⟨empty, owner, owned⟩ | ⟨pawn, moved, t, named, made⟩
  · rw [← kept]
    exact second.square r c
  · have stillEmpty : (h.get r c).type = .empty := by rw [owned]; exact empty
    rcases second.square r c with kept' | ⟨-, owner', owned'⟩ | ⟨pawn', -⟩
    · exact Or.inr (Or.inl ⟨empty, owner, kept'.trans owned⟩)
    · exact Or.inr (Or.inl ⟨empty, owner', by rw [owned', owned]⟩)
    · rw [stillEmpty] at pawn'
      exact PieceType.noConfusion pawn'
  · have promoted : (h.get r c).type = t := by rw [made]
    rcases second.square r c with kept' | ⟨empty', -⟩ | ⟨pawn', -⟩
    · exact Or.inr (Or.inr ⟨pawn, moved, t, named, kept'.trans made⟩)
    · rw [promoted] at empty'
      rw [empty'] at named
      exact Bool.noConfusion named
    · rw [promoted] at pawn'
      rw [pawn'] at named
      exact Bool.noConfusion named

/-- A scribble leaves move counters alone. -/
theorem Scribbled.moves {g after : Game} (scribbled : Scribbled g after) (r c : Int) :
    (after.get r c).moves = (g.get r c).moves := by
  rcases scribbled.square r c with kept | ⟨-, owner, owned⟩ | ⟨-, -, t, -, made⟩
  · rw [kept]
  · rw [owned]
  · rw [made]

/-- A scribble leaves the times of last moves alone. -/
theorem Scribbled.lastMove {g after : Game} (scribbled : Scribbled g after) (r c : Int) :
    (after.get r c).lastMove = (g.get r c).lastMove := by
  rcases scribbled.square r c with kept | ⟨-, owner, owned⟩ | ⟨-, -, t, -, made⟩
  · rw [kept]
  · rw [owned]
  · rw [made]

/-- A scribble neither fills nor empties a square. -/
theorem Scribbled.empty_iff {g after : Game} (scribbled : Scribbled g after) (r c : Int) :
    (after.get r c).type = .empty ↔ (g.get r c).type = .empty := by
  rcases scribbled.square r c with kept | ⟨-, owner, owned⟩ | ⟨pawn, -, t, named, made⟩
  · rw [kept]
  · rw [owned]
  · rw [made, pawn]
    refine ⟨fun h => ?_, fun h => PieceType.noConfusion h⟩
    dsimp only at h
    rw [h] at named
    exact Bool.noConfusion named

/-- An unmoved piece is not scribbled over. -/
theorem Scribbled.unmoved {g after : Game} (scribbled : Scribbled g after) {r c : Int}
    (full : (after.get r c).type ≠ .empty) (unmoved : (after.get r c).moves = 0) :
    after.get r c = g.get r c := by
  rcases scribbled.square r c with kept | ⟨empty, -⟩ | ⟨-, moved, -⟩
  · exact kept
  · exact absurd ((scribbled.empty_iff r c).mpr empty) full
  · rw [scribbled.moves] at unmoved
    exact absurd unmoved moved

/-- A pawn that is there afterwards was there before. -/
theorem Scribbled.pawn {g after : Game} (scribbled : Scribbled g after) {r c : Int}
    (pawn : (after.get r c).type = .pawn) : after.get r c = g.get r c := by
  rcases scribbled.square r c with kept | ⟨empty, -⟩ | ⟨-, -, t, named, made⟩
  · exact kept
  · rw [(scribbled.empty_iff r c).mpr empty] at pawn
    exact PieceType.noConfusion pawn
  · rw [made] at pawn
    dsimp only at pawn
    rw [pawn] at named
    exact Bool.noConfusion named

/-- A claim is a scribble. -/
theorem claim_scribbled (g : Game) (r c : Int) (player : Player) :
    Scribbled g (claim g r c player) := by
  refine ⟨claim_duration _ _ _ _, claim_lastBigMove _ _ _ _, fun x y => ?_⟩
  rw [get_claim]
  split
  · rename_i here
    obtain ⟨-, rfl, rfl, empty⟩ := here
    exact Or.inr (Or.inl ⟨empty, player, rfl⟩)
  · exact Or.inl rfl

/-- Promoting a moved pawn is a scribble. -/
theorem setType_scribbled {g : Game} {r c : Int} {t : PieceType} (pawn : (g.get r c).type = .pawn)
    (moved : (g.get r c).moves ≠ 0) (named : t.isPromotion = true) :
    Scribbled g (g.setType r c t) := by
  refine ⟨rfl, rfl, fun x y => ?_⟩
  rw [Game.get_setType]
  split
  · rename_i here
    obtain ⟨-, rfl, rfl⟩ := here
    exact Or.inr (Or.inr ⟨pawn, moved, t, named, rfl⟩)
  · exact Or.inl rfl

/-- A pawn that attacks its last row has moved. -/
theorem Sound.attacker_moved {g : Game} (sound : Sound g) {i j r c : Int} {player : Player}
    (hit : attacksFrom g r c player (i, j) = true) (pawn : (g.get i j).type = .pawn)
    (last : ((g.get i j).player = .white ∧ r = 0) ∨ ((g.get i j).player = .black ∧ r = 7)) :
    (g.get i j).moves ≠ 0 := by
  intro unmoved
  have start := sound.pawn i j pawn unmoved
  simp only [attacksFrom, strikes, pawn, Bool.and_eq_true, decide_eq_true_eq] at hit
  have forward := hit.2.2
  rcases last with ⟨owner, last⟩ | ⟨owner, last⟩
  · have home := start.1 owner
    simp only [owner, direction, ↓reduceIte] at forward
    omega
  · have home := start.2 owner
    simp only [owner, direction, reduceCtorEq, ↓reduceIte] at forward
    omega

/-- Promoting an attacker is a scribble. -/
theorem promoteAttacker_scribbled {g : Game} (sound : Sound g) {i j r c : Int} {player : Player}
    (hit : attacksFrom g r c player (i, j) = true) : Scribbled g (promoteAttacker g i j r) := by
  unfold promoteAttacker
  split
  · rename_i here
    exact setType_scribbled here.1 (sound.attacker_moved hit here.1 here.2) rfl
  · exact Scribbled.refl g

/-- An attack test only scribbles. -/
theorem probe_scribbled {g : Game} (sound : Sound g) (r c : Int) (player : Player) :
    Scribbled g (probe g r c player).2 := by
  unfold probe
  cases found : firstAttacker g r c player with
  | none => exact claim_scribbled g r c player
  | some s =>
    have hit := List.find?_some ((firstAttacker_claim g r c player r c player).trans found)
    exact (claim_scribbled g r c player).trans
      (promoteAttacker_scribbled (sound.claim r c player) hit)

/-- A test for check only scribbles. -/
theorem checkProbe_scribbled {g : Game} (sound : Sound g) (player : Player) :
    Scribbled g (checkProbe g player).2 := by
  unfold checkProbe
  cases findKing g player with
  | none => exact Scribbled.refl g
  | some s => exact probe_scribbled sound s.1 s.2 player

/-- A stopped castling only scribbles. -/
theorem Stopped.scribbled {g after : Game} {r c cc : Int} {player : Player} (sound : Sound g)
    (stopped : Stopped g r c cc player after) : Scribbled g after := by
  cases stopped with
  | first hit => exact promoteAttacker_scribbled sound (List.find?_some hit)
  | second safe hit =>
    rw [← firstAttacker_claim g r (c + cc) player] at hit
    exact (claim_scribbled _ _ _ _).trans
      (promoteAttacker_scribbled (sound.claim _ _ _) (List.find?_some hit))
  | third safe passing hit =>
    rw [← firstAttacker_claim g r (c + cc) player,
      ← firstAttacker_claim _ r (c + cc * 2) player] at hit
    exact ((claim_scribbled _ _ _ _).trans (claim_scribbled _ _ _ _)).trans
      (promoteAttacker_scribbled ((sound.claim _ _ _).claim _ _ _) (List.find?_some hit))

/-- A legality check only scribbles. -/
theorem Judged.scribbled {g : Game} {m : Move} {player : Player} {v : Verdict} (sound : Sound g)
    (judged : Judged g m player v) : Scribbled g v.game := by
  cases judged with
  | refused | officer | pawn | unpromoted => exact Scribbled.refl g
  | promoted mine kind goes last named =>
    exact setType_scribbled kind (sound.promoting_moved kind goes last) named
  | castled mine kind castling empty safe passing arriving =>
    exact (claim_scribbled _ _ _ _).trans (claim_scribbled _ _ _ _)
  | stopped mine kind castling stop => exact stop.scribbled sound

/-- A refused move only scribbles. -/
theorem Tried.scribbled {g : Game} {m : Move} {code : Int} {after : Game} (sound : Sound g)
    (tried : Tried g m code after) (rejected : code ≠ 0) : Scribbled g after := by
  cases tried with
  | refused judged negative => exact judged.scribbled sound
  | exposed judged ok check => exact judged.scribbled sound
  | played => exact absurd rfl rejected

/-- A played move was judged legal, lands, and leaves its own king safe. -/
theorem Tried.landed {g : Game} {m : Move} {code : Int} {after : Game} (home : RooksHome g)
    (tried : Tried g m code after) (ok : 0 ≤ code) :
    ∃ v, Judged g m (getPlayer g) v ∧ 0 ≤ v.code ∧ after = v.apply m ∧
      Landed g m v.captured v.rook after ∧ ¬ Checked after (getPlayer g) := by
  cases tried with
  | refused judged negative => omega
  | exposed => exact absurd ok (by decide)
  | played judged fits safe => exact ⟨_, judged, fits, rfl, judged.landed home fits, safe⟩

/-- A move that is played was judged legal and leaves its own king safe. -/
theorem Plays.judged {g : Game} {m : Move} (sound : Sound g) (plays : Plays g m) :
    ∃ v, Judged g m (getPlayer g) v ∧ 0 ≤ v.code ∧ ¬ Checked (v.apply m) (getPlayer g) := by
  obtain ⟨code, after, asked, tried⟩ := makeMoveNoCheckmate_tried sound m
  obtain ⟨after', returns⟩ := plays
  have same := (asked 0).symm.trans (returns 0)
  simp only [Option.some.injEq, Prod.mk.injEq] at same
  obtain ⟨v, judged, ok, applied, -, safe⟩ := tried.landed sound.home (le_of_eq same.1.symm)
  exact ⟨v, judged, ok, by rwa [applied] at safe⟩

/-- A move that is played is one of the player's own. -/
theorem Plays.mine {g : Game} {m : Move} (sound : Sound g) (plays : Plays g m) :
    Mine g m (getPlayer g) := by
  obtain ⟨v, judged, ok, -⟩ := plays.judged sound
  exact judged.mine ok

/-- A call either scribbles and refuses, or lands a move and then scribbles; the scribble is
that of a check test after a mate. -/
theorem Made.effect {g : Game} {m : Move} {code : Int} {after : Game} (sound : Sound g)
    (made : Made g m code after) :
    (¬ Accepted code ∧ Scribbled g after) ∨
    (Accepted code ∧ ∃ v landing, Judged g m (getPlayer g) v ∧ 0 ≤ v.code ∧
      landing = v.apply m ∧ Landed g m v.captured v.rook landing ∧
      ¬ Checked landing (getPlayer g) ∧ Scribbled landing after) := by
  have lands : ∀ {landing}, Tried g m 0 landing → Scribbled landing after → Accepted code →
      Accepted code ∧ ∃ v landing, Judged g m (getPlayer g) v ∧ 0 ≤ v.code ∧
        landing = v.apply m ∧ Landed g m v.captured v.rook landing ∧
        ¬ Checked landing (getPlayer g) ∧ Scribbled landing after := by
    intro landing tried scribbled accepted
    obtain ⟨v, judged, ok, applied, landed, safe⟩ := tried.landed sound.home le_rfl
    exact ⟨accepted, v, landing, judged, ok, applied, landed, safe, scribbled⟩
  cases made with
  | refused tried rejected =>
    refine Or.inl ⟨fun accepted => rejected.elim accepted.1 accepted.2, tried.scribbled sound ?_⟩
    rcases rejected with rfl | rfl <;> decide
  | expired tried clock => exact Or.inr (lands tried (Scribbled.refl _) (by decide))
  | offered tried clock early => exact Or.inr (lands tried (Scribbled.refl _) (by decide))
  | continued tried clock can => exact Or.inr (lands tried (Scribbled.refl _) (by decide))
  | stalemated tried clock stuck safe => exact Or.inr (lands tried (Scribbled.refl _) (by decide))
  | mated tried clock stuck check =>
    refine Or.inr (lands tried (checkProbe_scribbled (tried.sound sound) _) ?_)
    split <;> decide

/-- After one more turn the other player moves. -/
theorem getPlayer_succ {g after : Game} (turn : after.duration = g.duration + 1) :
    getPlayer after = otherPlayer (getPlayer g) := by
  unfold getPlayer otherPlayer
  rw [turn]
  by_cases even : g.duration % 2 = 0
  · rw [if_pos even, if_neg (by omega)]
    rfl
  · rw [if_neg even, if_pos (by omega)]
    rfl

/-- A code that reports no end and no refusal belongs to a played move. -/
theorem accepted_of_nonneg {code : Int} (nonneg : 0 ≤ code) : Accepted code := by
  constructor <;> rintro rfl <;> exact absurd nonneg (by decide)

end Chessh
