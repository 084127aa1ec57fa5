import Chessh.Verif.Simulation

/-!
# Whole games refine the rules

What one call does to a game that tracks a position, and from it what a run of accepted
calls does from the first move on: the calls accept the legal moves, the verdict is the one
the rules give as long as the clock does not speak first, and every king is safe from
capture.
-/

namespace Chessh

open Rules (Side Kind Man Square Wing Ply Position Reaches Attacked InCheck Inside)

section Call

variable {g after : Game} {pos : Position} {m : Move} {code : Int}

/-- Each side of a tracked position has one king. -/
theorem Tracks.king (tracks : Tracks g pos) (side : Side) :
    ∃ s, ∀ t, g.placement t = some ⟨side, .king⟩ ↔ t = s := by
  obtain ⟨s, there⟩ := tracks.wf.king side
  rw [← tracks.board]
  exact ⟨s, fun t => ⟨fun h => tracks.wf.lone _ _ _ h there, fun h => h ▸ there⟩⟩

/-- The check test decides check. -/
theorem Tracks.checked (tracks : Tracks g pos) (side : Side) :
    Checked g (playerOf side) ↔ InCheck pos.board side := by
  obtain ⟨s, king⟩ := tracks.king side
  rw [tracks.board]
  exact tracks.known.checked king

/-- After the raw moves the check test decides whether the own king is attacked. -/
theorem Tracks.exposed (tracks : Tracks g pos) (pseudo : pos.Pseudo m.ply)
    (landed : Landed g m (pos.casualty m.ply) (rookColumns pos m) after) :
    Checked after (getPlayer g) ↔ InCheck (pos.boardAfter m.ply) pos.turn := by
  have board := tracks.placement pseudo landed
  obtain ⟨s, king⟩ := pseudo.kings tracks.wf pos.turn
  rw [← board] at king ⊢
  rw [tracks.turn]
  exact (tracks.landed_known pseudo landed).checked king

/-- `make_move_no_checkmate` plays the legal moves and refuses the others. -/
theorem Tracks.tried (tracks : Tracks g pos) (tried : Tried g m code after) :
    (code = 0 ∧ pos.Legal m.ply ∧ Tracks after (pos.play m.ply)) ∨
      (code ≠ 0 ∧ ¬ pos.Legal m.ply ∧ Scribbled g after) := by
  cases tried with
  | refused judged negative =>
    refine Or.inr ⟨by omega, fun legal => ?_, judged.scribbled tracks.sound⟩
    have := tracks.judged legal.1 legal.2.1 legal.2.2.1 judged
    omega
  | exposed judged ok check =>
    obtain ⟨pseudo, captured, rook⟩ := tracks.pseudo judged ok
    have landed := judged.landed tracks.sound.home ok
    rw [captured, rook] at landed
    refine Or.inr ⟨by decide, fun legal => legal.2.2.2 ?_, judged.scribbled tracks.sound⟩
    exact (tracks.exposed pseudo landed).mp check
  | played judged ok safe =>
    obtain ⟨pseudo, captured, rook⟩ := tracks.pseudo judged ok
    have landed := judged.landed tracks.sound.home ok
    rw [captured, rook] at landed
    have mine := judged.mine ok
    have legal : pos.Legal m.ply :=
      ⟨mine.onS, mine.onT, pseudo, mt (tracks.exposed pseudo landed).mpr safe⟩
    exact Or.inl ⟨rfl, legal, tracks.landed legal landed⟩

/-- `make_move_no_checkmate` accepts a move exactly when it is legal. -/
theorem Tracks.plays (tracks : Tracks g pos) : Plays g m ↔ pos.Legal m.ply := by
  obtain ⟨code, after, asked, tried⟩ := makeMoveNoCheckmate_tried tracks.sound m
  constructor
  · rintro ⟨after', plays⟩
    have same := (asked 0).symm.trans (plays 0)
    simp only [Option.some.injEq, Prod.mk.injEq] at same
    rcases tracks.tried tried with ⟨-, legal, -⟩ | ⟨refused, -⟩
    · exact legal
    · exact absurd same.1 refused
  · intro legal
    rcases tracks.tried tried with ⟨rfl, -⟩ | ⟨-, illegal, -⟩
    · exact ⟨after, asked⟩
    · exact absurd legal illegal

/-- The search for a move finds one exactly when there is a legal one: promoting to a queen
is as good as any promotion. -/
theorem Tracks.canMove (tracks : Tracks g pos) :
    CanMove g (getPlayer g) ↔ ∃ ply, pos.Legal ply := by
  constructor
  · rintro ⟨i, j, -, -, -, r, c, -, plays⟩
    exact ⟨_, tracks.plays.mp plays⟩
  · rintro ⟨⟨⟨i, j⟩, ⟨r, c⟩, named⟩, legal⟩
    have queen : pos.Legal (Move.ply ⟨i, j, r, c, .queen⟩) :=
      legal.renamed fun _ => ⟨.queen, rfl, Or.inl rfl⟩
    obtain ⟨kind, own⟩ := legal.2.2.1.own
    obtain ⟨type, owner⟩ := man_eq_some.mp ((tracks.get _ _).symm.trans own)
    refine ⟨i, j, legal.1, ?_, owner.trans tracks.turn.symm, r, c, legal.2.1,
      tracks.plays.mpr queen⟩
    rw [type]
    exact typeOf_ne_empty kind

/-! ## After a mate -/

/-- The crowned pawn. -/
theorem get_crowned {i j : Int} (on : OnBoard i j) :
    (g.setType i j .queen).get i j = { g.get i j with type := .queen } :=
  Game.get_set_self _ _ on

/-- Nothing else is crowned. -/
theorem get_uncrowned {i j r c : Int} (elsewhere : ¬ (r = i ∧ c = j)) :
    (g.setType i j .queen).get r c = g.get r c :=
  Game.get_set_ne _ _ elsewhere

section Crown

variable {i j : Int} (pawn : (g.get i j).man = some ⟨pos.turn.other, .pawn⟩)
include pawn

/-- The crowned pawn is a queen of the opponent. -/
theorem crowned_man : ((g.setType i j .queen).get i j).man = some ⟨pos.turn.other, .queen⟩ := by
  obtain ⟨type, owner⟩ := man_eq_some.mp pawn
  have on : OnBoard i j := onBoard_of_type_ne_empty (by rw [type]; decide)
  rw [get_crowned on]
  exact man_eq_some.mpr ⟨rfl, owner⟩

/-- A man that is not a queen is the man that was there. -/
theorem crowned_kept {side : Side} {kind : Kind} {r c : Int} (notQueen : kind ≠ .queen)
    (man : ((g.setType i j .queen).get r c).man = some ⟨side, kind⟩) :
    (g.setType i j .queen).get r c = g.get r c := by
  apply get_uncrowned
  rintro ⟨rfl, rfl⟩
  rw [crowned_man pawn] at man
  exact notQueen (congrArg Man.kind (Option.some.inj man)).symm

/-- A man that was not a pawn is still there. -/
theorem kept_crowned {side : Side} {kind : Kind} {r c : Int} (notPawn : kind ≠ .pawn)
    (man : (g.get r c).man = some ⟨side, kind⟩) :
    (g.setType i j .queen).get r c = g.get r c := by
  apply get_uncrowned
  rintro ⟨rfl, rfl⟩
  rw [pawn] at man
  exact notPawn (congrArg Man.kind (Option.some.inj man)).symm

/-- Kings and rooks that have not moved stay as they are. -/
theorem unmoved_crowned {side : Side} {kind : Kind} {r c : Int} (notPawn : kind ≠ .pawn)
    (notQueen : kind ≠ .queen) :
    Unmoved (g.setType i j .queen) side kind r c ↔ Unmoved g side kind r c := by
  unfold Unmoved
  constructor
  · rintro ⟨man, still⟩
    have kept := crowned_kept pawn notQueen man
    rw [kept] at man still
    exact ⟨man, still⟩
  · rintro ⟨man, still⟩
    rw [kept_crowned pawn notPawn man]
    exact ⟨man, still⟩

end Crown

/-- Crowning an enemy pawn crowns it on the tracked position. -/
theorem Tracks.crown (tracks : Tracks g pos) {i j : Int}
    (pawn : (g.get i j).man = some ⟨pos.turn.other, .pawn⟩) (far : i ≠ pos.turn.other.doubleRow) :
    Tracks (g.setType i j .queen) (pos.crown (i, j)) where
  sound := tracks.sound.setType (by simp)
  known r c nobody := by
    by_cases target : r = i ∧ c = j
    · obtain ⟨rfl, rfl⟩ := target
      rw [crowned_man pawn] at nobody
      cases nobody
    · rw [get_uncrowned target] at nobody ⊢
      exact tracks.known r c nobody
  wf := tracks.wf.crown ((tracks.get i j).trans pawn) far
  board := by
    funext s
    obtain ⟨r, c⟩ := s
    show (if (r, c) = (i, j) then some ⟨pos.turn.other, .queen⟩ else pos.board (r, c)) =
      ((g.setType i j .queen).get r c).man
    by_cases target : r = i ∧ c = j
    · obtain ⟨rfl, rfl⟩ := target
      rw [if_pos rfl, crowned_man pawn]
    · rw [if_neg fun h => target (Prod.mk.inj h), get_uncrowned target, tracks.get]
  turn := tracks.turn
  rights side wing := by
    rw [unmoved_crowned pawn (by decide) (by decide), unmoved_crowned pawn (by decide) (by decide)]
    exact tracks.rights side wing
  home side r c x y king rook := by
    rw [unmoved_crowned pawn (by decide) (by decide)] at king rook
    exact tracks.home side r c x y king rook
  start side r c man := by
    have kept := crowned_kept pawn (by decide) man
    rw [kept] at man ⊢
    exact tracks.start side r c man
  past r c type once := by
    have target : ¬ (r = i ∧ c = j) := by
      rintro ⟨rfl, rfl⟩
      have queen := (man_eq_some.mp (crowned_man pawn)).1
      rw [type] at queen
      cases queen
    rw [get_uncrowned target] at type once ⊢
    exact tracks.past r c type once
  passing c := by
    have kept : (g.setType i j .queen).get pos.turn.other.doubleRow c =
        g.get pos.turn.other.doubleRow c := get_uncrowned fun h => far h.1.symm
    have other : (pos.crown (i, j)).turn.other = pos.turn.other := rfl
    show pos.passing = some c ↔
      ((g.setType i j .queen).get pos.turn.other.doubleRow c).man = _ ∧ _
    rw [other, kept]
    exact tracks.passing c

/-- The game stands for the position, or for the same position with the pawn crowned that
has just mated. -/
def Follows (g : Game) (pos : Position) : Prop :=
  Tracks g pos ∨
    (pos.Mated ∧ ∃ s, pos.board s = some ⟨pos.turn.other, .pawn⟩ ∧ Tracks g (pos.crown s))

/-- The check test may crown the pawn that gives check, and does nothing else. -/
theorem Tracks.checkProbe (tracks : Tracks g pos) :
    Tracks (checkProbe g (getPlayer g)).2 pos ∨
      ∃ s, pos.board s = some ⟨pos.turn.other, .pawn⟩ ∧
        Tracks (Chessh.checkProbe g (getPlayer g)).2 (pos.crown s) := by
  obtain ⟨s, king⟩ := tracks.king pos.turn
  obtain ⟨type, -⟩ := man_eq_some.mp ((king s).mpr rfl)
  have occupied : (g.get s.1 s.2).type ≠ .empty := by
    rw [type]
    decide
  unfold Chessh.checkProbe
  rw [tracks.turn, findKing_eq king]
  dsimp only
  unfold probe
  rw [claim_occupied _ occupied]
  cases found : firstAttacker g s.1 s.2 (playerOf pos.turn) with
  | none => exact Or.inl tracks
  | some t =>
    dsimp only
    unfold promoteAttacker
    split
    swap
    · exact Or.inl tracks
    rename_i crowned
    obtain ⟨pawn, last⟩ := crowned
    have hit := List.find?_some found
    simp only [attacksFrom, strikes, pawn, Bool.and_eq_true, decide_eq_true_eq,
      otherPlayer_playerOf] at hit
    obtain ⟨⟨-, owner⟩, -, forward⟩ := hit
    have man : (g.get t.1 t.2).man = some ⟨pos.turn.other, .pawn⟩ :=
      man_eq_some.mpr ⟨pawn, owner⟩
    refine Or.inr ⟨t, (tracks.get _ _).trans man, tracks.crown man ?_⟩
    -- the pawn stands one step before the row of the king
    rw [owner] at last forward
    rw [direction_playerOf] at forward
    intro row
    revert last forward row
    cases pos.turn <;>
      simp only [playerOf, Side.other, Side.forward, Side.doubleRow, Side.pawnRow, reduceCtorEq,
        true_and, false_and, or_false, false_or] <;> omega

/-! ## Calls -/

/-- How long nothing was captured. -/
def clock (g : Game) : Int := g.duration - g.lastBigMove

/-- What the code of a call that was played tells about the game after it, and about the
position that stands for it. The clock speaks first. -/
inductive Reports (player : Player) (after : Game) (next : Position) (code : Int) : Prop
  /-- The clock has run out. -/
  | expired (late : 150 ≤ clock after) (result : code = forcedDraw)
  /-- The clock allows the offer of a draw. -/
  | offered (late : 100 ≤ clock after) (early : clock after < 150) (result : code = drawOffer)
  /-- The opponent has a move. -/
  | continued (early : clock after < 100) (reply : ¬ next.Stuck) (result : code = 0)
  /-- The opponent is mated. -/
  | mated (early : clock after < 100) (mated : next.Mated)
      (result : code = if player = .white then whiteWin else blackWin)
  /-- The opponent is stalemated. -/
  | stalemated (early : clock after < 100) (stuck : next.Stuck)
      (safe : ¬ InCheck next.board next.turn) (result : code = forcedDraw)

/-- A win is reported for a mate. -/
theorem win_ne_draw (player : Player) {code : Int} (draw : code = drawOffer ∨ code = forcedDraw) :
    code ≠ if player = .white then whiteWin else blackWin := by
  rintro rfl
  revert draw
  split <;> decide

/-- An offer of a draw comes between the two marks of the clock. -/
theorem Reports.offer {player : Player} {next : Position}
    (reports : Reports player after next code) (offer : code = drawOffer) : 100 ≤ clock after := by
  cases reports with
  | offered late => exact late
  | expired _ result | continued _ _ result | stalemated _ _ _ result =>
    rw [offer] at result
    exact absurd result (by decide)
  | mated _ _ result => exact absurd result (win_ne_draw player (Or.inl offer))

/-- A forced draw comes after the second mark of the clock, or with a stalemate. -/
theorem Reports.forced {player : Player} {next : Position}
    (reports : Reports player after next code) (draw : code = forcedDraw) :
    150 ≤ clock after ∨ (next.Stuck ∧ ¬ InCheck next.board next.turn) := by
  cases reports with
  | expired late => exact Or.inl late
  | stalemated _ stuck safe => exact Or.inr ⟨stuck, safe⟩
  | offered _ _ result | continued _ _ result =>
    rw [draw] at result
    exact absurd result (by decide)
  | mated _ _ result => exact absurd result (win_ne_draw player (Or.inr draw))

/-- The code depends on the clock and the position only. -/
theorem Reports.unique {player : Player} {after' : Game} {next : Position} {code' : Int}
    (first : Reports player after next code) (second : Reports player after' next code')
    (time : clock after = clock after') : code = code' := by
  cases first with
  | expired late result =>
    cases second with
    | expired _ result' => exact result.trans result'.symm
    | offered | continued | mated | stalemated => omega
  | offered late early result =>
    cases second with
    | offered _ _ result' => exact result.trans result'.symm
    | expired | continued | mated | stalemated => omega
  | continued early reply result =>
    cases second with
    | continued _ _ result' => exact result.trans result'.symm
    | mated _ mated => exact absurd mated.2 reply
    | stalemated _ stuck => exact absurd stuck reply
    | expired | offered => omega
  | mated early mated result =>
    cases second with
    | mated _ _ result' => exact result.trans result'.symm
    | continued _ reply => exact absurd mated.2 reply
    | stalemated _ _ safe => exact absurd mated.1 safe
    | expired | offered => omega
  | stalemated early stuck safe result =>
    cases second with
    | stalemated _ _ _ result' => exact result.trans result'.symm
    | continued _ reply => exact absurd stuck reply
    | mated _ mated => exact absurd mated.1 safe
    | expired | offered => omega

/-- A move that `make_move_no_checkmate` plays is legal, and it is the opponent's turn. -/
theorem Tracks.advances (tracks : Tracks g pos) (tried : Tried g m 0 after) :
    pos.Legal m.ply ∧ Tracks after (pos.play m.ply) ∧
      getPlayer after = otherPlayer (getPlayer g) := by
  rcases tracks.tried tried with ⟨-, legal, next⟩ | ⟨refused, -⟩
  · refine ⟨legal, next, ?_⟩
    rw [next.turn, tracks.turn, otherPlayer_playerOf]
    rfl
  · exact absurd rfl refused

/-- The search for a move fails when there is no legal one. -/
theorem Tracks.stuck (tracks : Tracks g pos) : ¬ CanMove g (getPlayer g) ↔ pos.Stuck := by
  rw [tracks.canMove]
  exact not_exists

/-- The check test decides whether the side to move is in check. -/
theorem Tracks.threatened (tracks : Tracks g pos) :
    Checked g (getPlayer g) ↔ InCheck pos.board pos.turn := by
  rw [tracks.turn]
  exact tracks.checked _

/-- The check test after a mate keeps the clock, and the game follows the position. -/
theorem Tracks.probed (tracks : Tracks g pos) (mated : pos.Mated) :
    Follows (Chessh.checkProbe g (getPlayer g)).2 pos ∧
      clock (Chessh.checkProbe g (getPlayer g)).2 = clock g := by
  have scribbled := checkProbe_scribbled tracks.sound (getPlayer g)
  constructor
  · exact tracks.checkProbe.imp id fun crowned => ⟨mated, crowned⟩
  · unfold clock
    rw [scribbled.duration, scribbled.big]

/-- A call on a game that tracks a position accepts the legal moves, and its code says how
the position after the move stands, unless the clock speaks first. -/
theorem Tracks.made (tracks : Tracks g pos) (made : Made g m code after) :
    (¬ Accepted code ∧ ¬ pos.Legal m.ply) ∨
      (Accepted code ∧ pos.Legal m.ply ∧ Follows after (pos.play m.ply) ∧
        (0 ≤ code → Tracks after (pos.play m.ply)) ∧
        Reports (getPlayer g) after (pos.play m.ply) code) := by
  cases made with
  | refused tried rejected =>
    left
    constructor
    · exact fun accepted => rejected.elim accepted.1 accepted.2
    · rcases tracks.tried tried with ⟨rfl, -⟩ | ⟨-, illegal, -⟩
      · exact absurd rejected (by decide)
      · exact illegal
  | expired tried expired =>
    obtain ⟨legal, next, -⟩ := tracks.advances tried
    exact Or.inr ⟨by decide, legal, Or.inl next, fun _ => next, .expired expired rfl⟩
  | offered tried late early =>
    obtain ⟨legal, next, -⟩ := tracks.advances tried
    exact Or.inr ⟨by decide, legal, Or.inl next, fun _ => next, .offered late early rfl⟩
  | continued tried early can =>
    obtain ⟨legal, next, player⟩ := tracks.advances tried
    rw [← player] at can
    have reply : ¬ (pos.play m.ply).Stuck := fun none => next.stuck.mpr none can
    exact Or.inr ⟨by decide, legal, Or.inl next, fun _ => next, .continued early reply rfl⟩
  | mated tried early none check =>
    obtain ⟨legal, next, player⟩ := tracks.advances tried
    rw [← player] at none check ⊢
    have mated : (pos.play m.ply).Mated := ⟨next.threatened.mp check, next.stuck.mp none⟩
    obtain ⟨follows, time⟩ := next.probed mated
    have ends : ¬ 0 ≤ if getPlayer g = .white then whiteWin else blackWin := by
      split <;> decide
    refine Or.inr ⟨by split <;> decide, legal, follows, fun ok => absurd ok ends, ?_⟩
    exact .mated (by rw [time]; exact early) mated rfl
  | stalemated tried early none safe =>
    obtain ⟨legal, next, player⟩ := tracks.advances tried
    rw [← player] at none safe
    exact Or.inr ⟨by decide, legal, Or.inl next, fun _ => next,
      .stalemated early (next.stuck.mp none) (mt next.threatened.mpr safe) rfl⟩

/-- A game that follows a position is sound. -/
theorem Follows.sound (follows : Follows g pos) : Sound g := by
  rcases follows with tracks | ⟨-, s, -, tracks⟩
  · exact tracks.sound
  · exact tracks.sound

/-- On a game that follows a position the legal moves are accepted. After a mate there are
none, crowned pawn or not. -/
theorem Follows.made (follows : Follows g pos) (made : Made g m code after) :
    (¬ Accepted code ∧ ¬ pos.Legal m.ply) ∨ (Tracks g pos ∧ Accepted code ∧ pos.Legal m.ply) := by
  rcases follows with tracks | ⟨mated, s, pawn, tracks⟩
  · rcases tracks.made made with refused | ⟨accepted, legal, -⟩
    · exact Or.inl refused
    · exact Or.inr ⟨tracks, accepted, legal⟩
  · rcases tracks.made made with ⟨refused, -⟩ | ⟨-, legal, -⟩
    · exact Or.inl ⟨refused, mated.2 _⟩
    · exact absurd (legal.uncrown pawn) (mated.2 _)

end Call

end Chessh
