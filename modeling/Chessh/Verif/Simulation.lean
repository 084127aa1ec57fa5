import Chessh.Verif.Effect
import Chessh.Verif.Tracks

/-!
# The engine plays chess

One accepted move takes a game that tracks a position to a game that tracks the position
after the move, and a move is accepted exactly when it is legal. The one thing the engine
does that the rules do not know is harmless: the check test after a mate may crown the pawn
that mates.
-/

namespace Chessh

open Rules (Side Kind Man Square Wing Ply Position Reaches Attacked InCheck Inside)

/-- An unmoved piece was not touched. -/
theorem Landed.untouched {g : Game} {m : Move} {captured rook : Option (Int × Int)} {after : Game}
    (sound : Sound g) (landed : Landed g m captured rook after) {r c : Int}
    (full : (after.get r c).type ≠ .empty) (unmoved : (after.get r c).moves = 0) :
    ¬ m.ply.Touches (r, c) := by
  rintro (source | target)
  · obtain ⟨rfl, rfl⟩ := Prod.mk.inj source
    rw [landed.source] at full
    exact full rfl
  · obtain ⟨rfl, rfl⟩ := Prod.mk.inj target
    rw [landed.target] at unmoved
    have := sound.nonneg m.rI m.cI
    dsimp only at unmoved
    omega

/-- A man that has not moved stood there before the move. -/
theorem Unmoved.before {g : Game} {m : Move} {captured rook : Option (Int × Int)} {after : Game}
    {side : Side} {kind : Kind} {r c : Int} (unmoved : Unmoved after side kind r c)
    (sound : Sound g) (landed : Landed g m captured rook after) :
    Unmoved g side kind r c ∧ ¬ m.ply.Touches (r, c) := by
  have full : (after.get r c).type ≠ .empty := by
    rw [(man_eq_some.mp unmoved.1).1]
    exact typeOf_ne_empty kind
  have same := landed.unmoved sound full unmoved.2
  constructor
  · unfold Unmoved at unmoved
    rwa [same] at unmoved
  · exact landed.untouched sound full unmoved.2

section Landed

variable {g after : Game} {pos : Position} {m : Move}

/-- The extra effects the rules name, in the engine's terms. -/
abbrev rookColumns (pos : Position) (m : Move) : Option (Int × Int) :=
  (pos.castles m.ply).map fun wing => (wing.corner, m.cI + wing.step)

/-- The man that arrives. -/
theorem Tracks.arrival (tracks : Tracks g pos) (pseudo : pos.Pseudo m.ply) {moves lastMove : Int} :
    (⟨arrivalType g m, (g.get m.rI m.cI).player, moves, lastMove⟩ : Piece).man =
      pos.arrives m.ply := by
  obtain ⟨kind, own⟩ := pseudo.own
  have man := (tracks.get _ _).symm.trans own
  obtain ⟨type, owner⟩ := man_eq_some.mp man
  unfold arrivalType Position.arrives
  by_cases promoted : pos.board m.ply.source = some ⟨pos.turn, .pawn⟩ ∧
      m.ply.target.1 = pos.turn.lastRow
  · rw [if_pos promoted]
    rw [own] at promoted
    obtain ⟨pawn, last⟩ := promoted
    cases pawn
    rw [if_pos ⟨type, (lastRow_iff owner).mpr last⟩, owner, Piece.man,
      (side_eq_some.mpr rfl : (playerOf pos.turn).side = some pos.turn)]
    show m.promotion.kind.bind (fun kind => some (Man.mk pos.turn kind)) =
      m.promotion.kind.map (Man.mk pos.turn)
    cases m.promotion.kind <;> rfl
  · rw [if_neg promoted, if_neg, own]
    · exact man
    · rintro ⟨pawn, last⟩
      refine promoted ⟨?_, (lastRow_iff owner).mp last⟩
      rw [type] at pawn
      rw [own, typeOf_inj (b := .pawn) |>.mp pawn]

/-- The placement after a move that lands. -/
theorem Tracks.placement (tracks : Tracks g pos) (pseudo : pos.Pseudo m.ply)
    (landed : Landed g m (pos.casualty m.ply) (rookColumns pos m) after) :
    after.placement = pos.boardAfter m.ply := by
  funext s
  obtain ⟨r, c⟩ := s
  show (after.get r c).man = _
  unfold Position.boardAfter
  split
  · rename_i target
    obtain ⟨rfl, rfl⟩ := Prod.mk.inj target
    rw [landed.target]
    exact tracks.arrival pseudo
  rename_i target
  have target : ¬ (r = m.rF ∧ c = m.cF) := fun h => target (Prod.ext h.1 h.2)
  split
  · rename_i gone
    rcases gone with source | casualty
    · obtain ⟨rfl, rfl⟩ := Prod.mk.inj source
      rw [landed.source]
      exact man_empty rfl
    · rw [landed.taken r c casualty]
      exact man_empty rfl
  rename_i stays
  push Not at stays
  have source : ¬ (r = m.rI ∧ c = m.cI) := fun h => stays.1 (Prod.ext h.1 h.2)
  cases castles : pos.castles m.ply with
  | none =>
    rw [tracks.get, landed.frame r c target source stays.2]
    intro a b rook
    rw [rookColumns, castles] at rook
    cases rook
  | some wing =>
    have rook : rookColumns pos m = some (wing.corner, m.cI + wing.step) := by
      rw [rookColumns, castles]
      rfl
    dsimp only
    split
    · rename_i middle
      obtain ⟨rfl, rfl⟩ := Prod.mk.inj middle
      rw [tracks.get]
      show (after.get m.rI (m.cI + wing.step)).man = (g.get m.rI wing.corner).man
      rw [landed.rookTarget _ _ rook]
      rfl
    rename_i middle
    split
    · rename_i corner
      obtain ⟨rfl, rfl⟩ := Prod.mk.inj corner
      show (after.get m.rI wing.corner).man = none
      rw [landed.rookSource _ _ rook]
      exact man_empty rfl
    · rename_i corner
      rw [tracks.get, landed.frame r c target source stays.2]
      intro a b columns
      rw [rook] at columns
      cases columns
      rintro rfl
      exact ⟨fun h => corner (Prod.ext rfl h), fun h => middle (Prod.ext rfl h)⟩

/-- A square after a move that lands, in the terms of the rules. -/
theorem Tracks.square (tracks : Tracks g pos) (pseudo : pos.Pseudo m.ply)
    (landed : Landed g m (pos.casualty m.ply) (rookColumns pos m) after) (r c : Int) :
    (r = m.rF ∧ c = m.cF) ∨
      (∃ wing, pos.castles m.ply = some wing ∧ r = pos.turn.homeRow ∧ c = 4 + wing.step ∧
        (after.get r c).man = some ⟨pos.turn, .rook⟩) ∨
      (after.get r c).type = .empty ∨ after.get r c = g.get r c := by
  rcases landed.square r c with target | ⟨a, columns, rfl⟩ | emptied | kept
  · exact Or.inl target
  · obtain ⟨wing, castles, same⟩ := Option.map_eq_some_iff.mp columns
    obtain ⟨rfl, rfl⟩ := Prod.mk.inj same
    obtain ⟨-, -, rook, source, -⟩ := pseudo.castles castles
    obtain ⟨row, column⟩ : m.rI = pos.turn.homeRow ∧ m.cI = 4 := Prod.mk.inj source
    refine Or.inr (Or.inl ⟨wing, castles, row, by rw [column], ?_⟩)
    rw [landed.rookTarget _ _ columns, row]
    exact (tracks.get _ _).symm.trans rook
  · exact Or.inr (Or.inr (Or.inl (by rw [emptied])))
  · exact Or.inr (Or.inr (Or.inr kept))

/-- Every piece still has a kind and an owner. -/
theorem Tracks.landed_known (tracks : Tracks g pos) (pseudo : pos.Pseudo m.ply)
    (landed : Landed g m (pos.casualty m.ply) (rookColumns pos m) after) : Known after := by
  intro r c none
  rcases tracks.square pseudo landed r c with ⟨rfl, rfl⟩ | ⟨wing, -, -, -, rook⟩ | empty | kept
  · obtain ⟨kind, arrives, -⟩ := pseudo.arrives
    rw [landed.target, tracks.arrival pseudo, arrives] at none
    cases none
  · rw [rook] at none
    cases none
  · exact empty
  · rw [kept] at none ⊢
    exact tracks.known r c none

/-- A pawn after a move that lands is one that stayed, or one that has just gone there. -/
theorem Tracks.landed_pawn (tracks : Tracks g pos) (pseudo : pos.Pseudo m.ply)
    (landed : Landed g m (pos.casualty m.ply) (rookColumns pos m) after) {r c : Int} {side : Side}
    (pawn : (after.get r c).man = some ⟨side, .pawn⟩) :
    after.get r c = g.get r c ∨
      ((r = m.rF ∧ c = m.cF) ∧ side = pos.turn ∧ pos.board m.ply.source = some ⟨pos.turn, .pawn⟩ ∧
        (after.get r c).moves = (g.get m.rI m.cI).moves + 1 ∧
        (after.get r c).lastMove = g.duration + 1) := by
  rcases tracks.square pseudo landed r c with ⟨rfl, rfl⟩ | ⟨wing, -, -, -, rook⟩ | empty | kept
  · have arrives := landed.target
    rw [arrives, tracks.arrival pseudo] at pawn
    obtain ⟨own, source, -⟩ := pseudo.arrives_pawn pawn
    rw [arrives]
    exact Or.inr ⟨⟨rfl, rfl⟩, own, source, rfl, rfl⟩
  · rw [rook] at pawn
    cases pawn
  · rw [man_empty empty] at pawn
    cases pawn
  · exact Or.inl kept

/-- The rights after a move are the unmoved kings and rooks. -/
theorem Tracks.landed_rights (tracks : Tracks g pos) (pseudo : pos.Pseudo m.ply)
    (landed : Landed g m (pos.casualty m.ply) (rookColumns pos m) after) (side : Side)
    (wing : Wing) :
    (pos.play m.ply).rights side wing ↔
      Unmoved after side .king side.homeRow 4 ∧
        Unmoved after side .rook side.homeRow wing.corner := by
  have kept : ∀ {kind c}, kind ≠ Kind.pawn → Unmoved g side kind side.homeRow c →
      pos.rights side wing → ¬ m.ply.Touches (side.homeRow, 4) →
      ¬ m.ply.Touches (side.homeRow, c) → (c = 4 ∨ c = wing.corner) →
      Unmoved after side kind side.homeRow c := by
    intro kind c officer unmoved right king untouched column
    have stays := pseudo.untouched tracks.wf right king untouched rfl officer
      ((tracks.get _ _).trans unmoved.1)
    rw [← tracks.placement pseudo landed] at stays
    have stays : (after.get side.homeRow c).man = some ⟨side, kind⟩ := stays
    refine ⟨stays, ?_⟩
    rcases tracks.square pseudo landed side.homeRow c with
      target | ⟨wing', castles, -, middle, -⟩ | empty | same
    · exact absurd (Or.inr (Prod.ext target.1.symm target.2.symm)) untouched
    · exfalso
      rcases column with rfl | rfl <;> revert middle <;> cases wing' <;> try cases wing
      all_goals decide
    · rw [man_empty empty] at stays
      cases stays
    · rw [same]
      exact unmoved.2
  constructor
  · rintro ⟨right, king, corner⟩
    obtain ⟨unmovedKing, unmovedRook⟩ := (tracks.rights _ _).mp right
    exact ⟨kept (by decide) unmovedKing right king king (Or.inl rfl),
      kept (by decide) unmovedRook right king corner (Or.inr rfl)⟩
  · rintro ⟨king, rook⟩
    obtain ⟨unmovedKing, untouchedKing⟩ := king.before tracks.sound landed
    obtain ⟨unmovedRook, untouchedRook⟩ := rook.before tracks.sound landed
    exact ⟨(tracks.rights _ _).mpr ⟨unmovedKing, unmovedRook⟩, untouchedKing, untouchedRook⟩

/-- The pawns on their start row after a move are the unmoved ones. -/
theorem Tracks.landed_start (tracks : Tracks g pos) (legal : pos.Legal m.ply)
    (landed : Landed g m (pos.casualty m.ply) (rookColumns pos m) after) {side : Side} {r c : Int}
    (pawn : (after.get r c).man = some ⟨side, .pawn⟩) :
    (after.get r c).moves = 0 ↔ r = side.pawnRow := by
  have pseudo := legal.2.2.1
  rcases tracks.landed_pawn pseudo landed pawn with kept | ⟨⟨rfl, rfl⟩, rfl, source, moves, -⟩
  · rw [kept] at pawn ⊢
    exact tracks.start side r c pawn
  · -- a pawn that has just moved has left its start row
    have nonneg := tracks.sound.nonneg m.rI m.cI
    have rows := pseudo.pawn_row source
    have outer := tracks.wf.pawns _ _ source
    have low := legal.1.1
    apply iff_of_false
    · omega
    · intro row
      have row : m.ply.target.1 = pos.turn.pawnRow := row
      rw [row] at rows
      revert rows outer
      cases pos.turn <;>
        simp only [Side.forward, Side.pawnRow, Side.doubleRow] <;> omega

/-- The first move of a pawn lies in the past after a move. -/
theorem Tracks.landed_past (tracks : Tracks g pos) (pseudo : pos.Pseudo m.ply)
    (landed : Landed g m (pos.casualty m.ply) (rookColumns pos m) after) {r c : Int}
    (pawn : (after.get r c).type = .pawn) (once : (after.get r c).moves = 1) :
    (after.get r c).lastMove ≤ after.duration := by
  obtain ⟨side, kind, man⟩ :=
    (tracks.landed_known pseudo landed).man (r := r) (c := c) (by rw [pawn]; decide)
  obtain rfl : kind = .pawn :=
    ((typeOf_inj (a := .pawn)).mp (pawn.symm.trans (man_eq_some.mp man).1)).symm
  have turn := landed.duration
  rcases tracks.landed_pawn pseudo landed man with kept | ⟨-, -, -, -, now⟩
  · rw [kept] at pawn once ⊢
    have := tracks.past r c pawn once
    omega
  · omega

/-- A pawn that makes a double step has moved once, on this turn. -/
theorem Tracks.double_stepped (tracks : Tracks g pos) (pseudo : pos.Pseudo m.ply)
    (landed : Landed g m (pos.casualty m.ply) (rookColumns pos m) after)
    (source : pos.board m.ply.source = some ⟨pos.turn, .pawn⟩)
    (two : (m.ply.target.1 - m.ply.source.1).natAbs = 2) :
    (after.get pos.turn.doubleRow m.cF).man = some ⟨pos.turn, .pawn⟩ ∧
      (after.get pos.turn.doubleRow m.cF).moves = 1 ∧
      (after.get pos.turn.doubleRow m.cF).lastMove = after.duration := by
  have step : pos.turn.forward = -1 ∨ pos.turn.forward = 1 := by cases pos.turn <;> decide
  obtain one | ⟨start, row, -, -⟩ := pseudo.pawn_row source
  · omega
  have unmoved := (tracks.start _ _ _ ((tracks.get _ _).symm.trans source)).mpr start
  have here : after.get pos.turn.doubleRow m.cF =
      ⟨arrivalType g m, (g.get m.rI m.cI).player, (g.get m.rI m.cI).moves + 1,
        g.duration + 1⟩ := by
    rw [← row]
    exact landed.target
  rw [here]
  constructor
  · rw [tracks.arrival pseudo, Position.arrives, if_neg, source]
    rintro ⟨-, last⟩
    rw [row] at last
    revert last
    cases pos.turn <;> decide
  · dsimp only
    exact ⟨by rw [unmoved]; rfl, landed.duration.symm⟩

/-- The column of en passant after a move is that of the pawn that moved once, on this turn. -/
theorem Tracks.landed_passing (tracks : Tracks g pos) (pseudo : pos.Pseudo m.ply)
    (landed : Landed g m (pos.casualty m.ply) (rookColumns pos m) after) (c : Int) :
    (pos.play m.ply).passing = some c ↔
      (after.get pos.turn.doubleRow c).man = some ⟨pos.turn, .pawn⟩ ∧
        (after.get pos.turn.doubleRow c).moves = 1 ∧
        (after.get pos.turn.doubleRow c).lastMove = after.duration := by
  show (if _ then some m.ply.target.2 else none) = some c ↔ _
  constructor
  · intro passing
    split at passing
    · rename_i double
      cases passing
      exact tracks.double_stepped pseudo landed double.1 double.2
    · cases passing
  · rintro ⟨pawn, once, now⟩
    have turn := landed.duration
    rcases tracks.landed_pawn pseudo landed pawn with kept | ⟨⟨row, rfl⟩, -, source, moves, -⟩
    · -- a pawn that stayed moved on an earlier turn
      rw [kept] at pawn once now
      have := tracks.past _ _ (man_eq_some.mp pawn).1 once
      omega
    · have unmoved : (g.get m.rI m.cI).moves = 0 := by omega
      have start := (tracks.start _ _ _ ((tracks.get _ _).symm.trans source)).mp unmoved
      have two : (m.ply.target.1 - m.ply.source.1).natAbs = 2 := by
        show (m.rF - m.rI).natAbs = 2
        rw [← row, start]
        cases pos.turn <;> decide
      exact if_pos ⟨source, two⟩

/-- A legal move takes a game that tracks a position to one that tracks the next position. -/
theorem Tracks.landed (tracks : Tracks g pos) (legal : pos.Legal m.ply)
    (landed : Landed g m (pos.casualty m.ply) (rookColumns pos m) after) :
    Tracks after (pos.play m.ply) where
  sound := tracks.sound.landed landed
  known := tracks.landed_known legal.2.2.1 landed
  wf := tracks.wf.play legal
  board := (tracks.placement legal.2.2.1 landed).symm
  turn := by
    rw [getPlayer_succ landed.duration, tracks.turn, otherPlayer_playerOf]
    rfl
  rights := tracks.landed_rights legal.2.2.1 landed
  home _ _ _ _ _ king rook := tracks.home _ _ _ _ _ (king.before tracks.sound landed).1
    (rook.before tracks.sound landed).1
  start _ _ _ pawn := tracks.landed_start legal landed pawn
  past _ _ pawn once := tracks.landed_past legal.2.2.1 landed pawn once
  passing c := by
    have other : (pos.play m.ply).turn.other = pos.turn := Side.other_other _
    rw [other]
    exact tracks.landed_passing legal.2.2.1 landed c

end Landed

end Chessh
