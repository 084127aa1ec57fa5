import Chessh.Verif.Chess
import Chessh.Verif.Counters

/-!
# Attack tests as queries

What `piece_is_attacked` and `is_in_check` answer along a run of accepted calls, and what they leave
behind. The answer is that of the rules. The board is not always as it was: the test writes an owner
to an empty square, and it crowns a pawn that it finds attacking a square of its last row.
-/

namespace Chessh

open Rules (Side Kind Man Square Placement Reaches Attacked InCheck)

/-! ## The answers -/

/-- Every run of accepted calls stands for a position. -/
theorem Run.tracks {memory g : Game} {calls : List (Move × Int)}
    (run : Run (newGame memory) calls g)
    (accepted : ∀ call ∈ calls, Accepted call.2) : ∃ pos, Tracks g pos := by
  rcases (run.follows accepted).1 with tracks | ⟨-, s, -, tracks⟩
  · exact ⟨_, tracks⟩
  · exact ⟨_, tracks⟩

/-- In a run from a new game castling leads onto no square of the board. -/
theorem Run.unaided {memory g : Game} {calls : List (Move × Int)}
    (run : Run (newGame memory) calls g) (r c : Int) : Unaided g r c := by
  intro j king unmoved two castles
  have original := run.unmoved (by rw [king]; decide) unmoved
  rw [original] at king
  have middle := (newGame_king king).1
  have corner := (run.sound (newGame_sound memory)).cornered r c castles.1 castles.2
  omega

/-- The attack test is exact: along every run of accepted calls it says that a square which is empty
or the player's is attacked exactly when a man of the other side attacks it. -/
theorem Run.attacks_exact {memory g : Game} {calls : List (Move × Int)}
    (run : Run (newGame memory) calls g) (accepted : ∀ call ∈ calls, Accepted call.2) (side : Side)
    {r c : Int} (on : OnBoard r c)
    (own : (g.get r c).type = .empty ∨ (g.get r c).player = playerOf side) :
    ∃ hit after, (∀ depth, pieceIsAttacked (depth + 1) g r c (playerOf side) = some (hit, after)) ∧
      (hit = true ↔ Attacked g.placement side.other (r, c)) := by
  obtain ⟨pos, tracks⟩ := run.tracks accepted
  have asked := fun depth =>
    pieceIsAttacked_unaided depth tracks.sound.cornered on own (run.unaided r c)
  exact ⟨_, _, asked, probe_fst.trans (tracks.known.struck own)⟩

/-- In a new game White attacks the square before its pawns, which is empty. -/
theorem attacks_exact_new :
    ∃ after,
      (∀ depth, pieceIsAttacked (depth + 1) (newGame blank) 5 5 .black = some (true, after)) ∧
      Attacked (newGame blank).placement .white (5, 5) := by
  obtain ⟨hit, after, asked, exact⟩ := @Run.attacks_exact blank _ _ .start (by simp) .black 5 5
    (by decide) (Or.inl (by decide))
  have answer : (pieceIsAttacked 1 (newGame blank) 5 5 .black).map Prod.fst = some true := by
    decide +kernel
  have first := asked 0
  rw [show playerOf .black = .black from rfl] at first
  rw [first] at answer
  obtain rfl : hit = true := Option.some.inj answer
  exact ⟨after, asked, exact.mp rfl⟩

/-! ## What the tests leave behind -/

/-- The first square comes before the second in reading order. -/
def Before (s t : Square) : Prop := s.1 < t.1 ∨ s.1 = t.1 ∧ s.2 < t.2

/-- The first man in reading order of those of the side that attack the square is a pawn, and the
square lies on its last row. -/
def PawnFirst (p : Placement) (side : Side) (t : Square) : Prop :=
  t.1 = side.lastRow ∧ ∃ s, p s = some ⟨side, .pawn⟩ ∧ Reaches p ⟨side, .pawn⟩ s t ∧
    ∀ s' kind, p s' = some ⟨side, kind⟩ → Reaches p ⟨side, kind⟩ s' t → ¬ Before s' s

/-- The king of the side is checked by such a pawn. -/
def PawnChecks (p : Placement) (side : Side) : Prop :=
  ∃ s, p s = some ⟨side, .king⟩ ∧ PawnFirst p side.other s

/-- A search through the squares finds the first that will do. -/
theorem find?_squares {wanted : Square → Bool} {s : Square} :
    squares.find? wanted = some s ↔
      s ∈ squares ∧ wanted s = true ∧ ∀ t ∈ squares, wanted t = true → ¬ Before t s := by
  have first : ∀ {s}, squares.find? wanted = some s → ∀ t ∈ squares, wanted t = true →
      t = s ∨ Before s t := by
    intro s found t mem hit
    obtain ⟨-, as, bs, split, missed⟩ := List.find?_eq_some_iff_append.mp found
    have sorted := squares_sorted
    rw [split] at mem sorted
    rcases List.mem_append.mp mem with early | late
    · have silent := missed t early
      rw [hit] at silent
      cases silent
    · rcases List.mem_cons.mp late with same | later
      · exact Or.inl same
      · exact Or.inr ((List.pairwise_cons.mp (List.pairwise_append.mp sorted).2.1).1 t later)
  constructor
  · intro found
    refine ⟨List.mem_of_find?_eq_some found, List.find?_some found, fun t mem hit earlier => ?_⟩
    unfold Before at earlier
    rcases first found t mem hit with rfl | later
    · omega
    · unfold Before at later
      omega
  · rintro ⟨mem, hit, least⟩
    cases found : squares.find? wanted with
    | none => exact absurd hit (List.find?_eq_none.mp found s mem)
    | some t =>
      rcases first found s mem hit with rfl | later
      · rfl
      · exact absurd later (least t (List.mem_of_find?_eq_some found) (List.find?_some found))

section Probe

variable {g : Game} {side : Side} {r c : Int}

/-- The scan comes to a pawn first. -/
theorem Known.pawn_first (known : Known g)
    (own : (g.get r c).type = .empty ∨ (g.get r c).player = playerOf side) :
    (r = side.other.lastRow ∧
      ∃ s, firstAttacker g r c (playerOf side) = some s ∧ (g.get s.1 s.2).type = .pawn) ↔
      PawnFirst g.placement side.other (r, c) := by
  unfold PawnFirst firstAttacker
  refine and_congr_right fun _ => exists_congr fun s => ?_
  have on : ∀ {t kind}, g.placement t = some ⟨side.other, kind⟩ → t ∈ squares := by
    intro t kind there
    refine (mem_squares t).mpr (onBoard_of_type_ne_empty (g := g) fun empty => ?_)
    rw [show g.placement t = (g.get t.1 t.2).man from rfl, man_empty empty] at there
    cases there
  rw [find?_squares]
  simp only [known.attacksFrom_iff own]
  constructor
  · rintro ⟨⟨-, ⟨kind, there, reaches⟩, least⟩, pawn⟩
    obtain rfl : kind = .pawn := by
      have type := (man_eq_some.mp there).1
      rw [pawn] at type
      exact ((typeOf_inj (a := .pawn)).mp type).symm
    exact ⟨there, reaches, fun t kind there' reaches' =>
      least t (on there') ⟨kind, there', reaches'⟩⟩
  · rintro ⟨there, reaches, least⟩
    refine ⟨⟨on there, ⟨_, there, reaches⟩, ?_⟩, (man_eq_some.mp there).1⟩
    rintro t - ⟨kind, there', reaches'⟩
    exact least t kind there' reaches'

/-- Nothing is written to the square exactly when it names the player as its owner. -/
theorem claim_kept (on : OnBoard r c)
    (own : (g.get r c).type = .empty ∨ (g.get r c).player = playerOf side) :
    claim g r c (playerOf side) = g ↔ (g.get r c).player = playerOf side := by
  constructor
  · intro kept
    by_cases empty : (g.get r c).type = .empty
    · have owner := get_claim g r c (playerOf side) r c
      rw [kept, if_pos ⟨on, rfl, rfl, empty⟩] at owner
      rw [owner]
    · exact own.resolve_left empty
  · intro owner
    unfold claim
    split
    · have same : ({ g.get r c with player := playerOf side } : Piece) = g.get r c := by
        rw [← owner]
      rw [same]
      exact Game.set_get g r c
    · rfl

/-- An attack test leaves the board as it was exactly when it has no owner to write and does not
stop at a pawn that attacks its last row. -/
theorem Known.probe_kept (known : Known g) (on : OnBoard r c)
    (own : (g.get r c).type = .empty ∨ (g.get r c).player = playerOf side) :
    (probe g r c (playerOf side)).2 = g ↔
      (g.get r c).player = playerOf side ∧ ¬ PawnFirst g.placement side.other (r, c) := by
  rw [← known.pawn_first own]
  unfold probe
  have claimed := claim_kept on own
  cases found : firstAttacker g r c (playerOf side) with
  | none => simp [claimed]
  | some s =>
    obtain ⟨i, j⟩ := s
    have hit := List.find?_some found
    simp only [attacksFrom, Bool.and_eq_true, decide_eq_true_eq, otherPlayer_playerOf] at hit
    obtain ⟨⟨full, owner⟩, -⟩ := hit
    have last : (((g.get i j).player = .white ∧ r = 0) ∨ ((g.get i j).player = .black ∧ r = 7)) ↔
        r = side.other.lastRow := by
      rw [owner]
      cases side <;> simp [playerOf, Side.other, Side.lastRow, Side.homeRow]
    have same : (claim g r c (playerOf side)).get i j = g.get i j := claim_full full
    dsimp only
    unfold promoteAttacker
    simp only [same, last]
    by_cases crowned : (g.get i j).type = .pawn ∧ r = side.other.lastRow
    · rw [if_pos crowned]
      refine iff_of_false (fun kept => ?_) fun clean => clean.2 ⟨crowned.2, (i, j), rfl, crowned.1⟩
      have queen := congrArg (fun h : Game => (h.get i j).type) kept
      rw [Game.get_setType, if_pos ⟨onBoard_of_type_ne_empty full, rfl, rfl⟩, crowned.1] at queen
      cases queen
    · rw [if_neg crowned, claimed]
      refine ⟨fun owner => ⟨owner, ?_⟩, And.left⟩
      rintro ⟨row, t, first, pawn⟩
      obtain rfl := Option.some.inj first
      exact crowned ⟨pawn, row⟩

end Probe

/-- A test for check leaves the board as it was exactly when the king is not checked by a pawn that
attacks its last row and comes first. -/
theorem Tracks.checkProbe_kept {g : Game} {pos : Rules.Position} (tracks : Tracks g pos)
    (side : Side) :
    (Chessh.checkProbe g (playerOf side)).2 = g ↔ ¬ PawnChecks g.placement side := by
  obtain ⟨s, king⟩ := tracks.king side
  obtain ⟨type, owner⟩ := man_eq_some.mp ((king s).mpr rfl)
  have on : OnBoard s.1 s.2 := onBoard_of_type_ne_empty (g := g) (by rw [type]; decide)
  have first : PawnChecks g.placement side ↔ PawnFirst g.placement side.other s := by
    constructor
    · rintro ⟨t, there, pawn⟩
      rwa [(king t).mp there] at pawn
    · intro pawn
      exact ⟨s, (king s).mpr rfl, pawn⟩
  unfold Chessh.checkProbe
  rw [findKing_eq king, first]
  have kept := tracks.known.probe_kept on (Or.inr owner)
  rw [and_iff_right owner] at kept
  exact kept

/-- A win is reported after a test for check on the game the move has led to. -/
theorem Returns.win {g after : Game} {m : Move} {code : Int} (returns : Returns g m code after)
    (sound : Sound g) (win : code = whiteWin ∨ code = blackWin) :
    ∃ landing, (∀ depth, makeMoveNoCheckmate (depth + 1) g m = some (0, landing)) ∧
      Tried g m 0 landing ∧ after = (checkProbe landing (otherPlayer (getPlayer g))).2 := by
  obtain ⟨code', landing, asked, tried⟩ := makeMoveNoCheckmate_tried sound m
  have soundAfter := tried.sound sound
  obtain ⟨can, search, -⟩ := canMakeMove_eq soundAfter (otherPlayer (getPlayer g))
  obtain ⟨depth, returned⟩ := returns
  have returned := returned 1
  have neither : ∀ other : Int, other ≠ whiteWin → other ≠ blackWin → code ≠ other := by
    rintro other white black rfl
    exact win.elim white black
  rw [makeMove, asked, Option.bind_some] at returned
  dsimp only at returned
  split at returned
  · rename_i rejected
    cases returned
    rcases rejected with rfl | rfl <;> exact absurd rfl (neither _ (by decide) (by decide))
  rename_i played
  obtain rfl : code' = 0 := tried.code.resolve_right played
  refine ⟨landing, asked, tried, ?_⟩
  split at returned
  · cases returned
    exact absurd rfl (neither forcedDraw (by decide) (by decide))
  split at returned
  · cases returned
    exact absurd rfl (neither drawOffer (by decide) (by decide))
  rw [search, Option.bind_some, isInCheck_eq soundAfter.cornered, Option.map_some] at returned
  split at returned
  · cases returned
    exact absurd rfl (neither 0 (by decide) (by decide))
  split at returned
  · cases returned
    rfl
  · cases returned
    exact absurd rfl (neither forcedDraw (by decide) (by decide))

/-- Along every run of accepted calls an attack test leaves the game as it was if and only if the
square already names the player as its owner and the first attacker is no pawn that has the square
on its last row; a test for check does if and only if the king is not checked by such a pawn; and a
call that reports a mate leaves the game its move has led to if and only if the mated king is
not. -/
theorem Run.queries_kept_iff {memory g : Game} {calls : List (Move × Int)}
    (run : Run (newGame memory) calls g) (accepted : ∀ call ∈ calls, Accepted call.2) :
    (∀ side r c, OnBoard r c → ((g.get r c).type = .empty ∨ (g.get r c).player = playerOf side) →
      ∃ hit after,
        (∀ depth, pieceIsAttacked (depth + 1) g r c (playerOf side) = some (hit, after)) ∧
        (after = g ↔ (g.get r c).player = playerOf side ∧
          ¬ PawnFirst g.placement side.other (r, c))) ∧
    (∀ side, ∃ check after,
      (∀ depth, isInCheck (depth + 1) g (playerOf side) = some (check, after)) ∧
      (after = g ↔ ¬ PawnChecks g.placement side)) ∧
    (∀ m code after, Returns g m code after → code = whiteWin ∨ code = blackWin →
      ∃ landing side, (∀ depth, makeMoveNoCheckmate (depth + 1) g m = some (0, landing)) ∧
        getPlayer landing = playerOf side ∧
          (after = landing ↔ ¬ PawnChecks landing.placement side)) := by
  obtain ⟨pos, tracks⟩ := run.tracks accepted
  refine ⟨fun side r c on own => ?_, fun side => ?_, fun m code after returns win => ?_⟩
  · have asked := fun depth =>
      pieceIsAttacked_unaided depth tracks.sound.cornered on own (run.unaided r c)
    exact ⟨_, _, asked, tracks.known.probe_kept on own⟩
  · exact ⟨_, _, isInCheck_eq tracks.sound.cornered _, tracks.checkProbe_kept side⟩
  · obtain ⟨landing, asked, tried, rfl⟩ := returns.win tracks.sound win
    obtain ⟨-, next, turn⟩ := tracks.advances tried
    rw [← turn, next.turn]
    exact ⟨landing, _, asked, next.turn, next.checkProbe_kept _⟩

/-- In a new game a test for check leaves the game as it was, and so does an attack test for Black
on a square before Black's pawns. -/
theorem queries_kept_iff_new :
    (∃ check after, (∀ depth, isInCheck (depth + 1) (newGame blank) .white = some (check, after)) ∧
      (after = newGame blank ↔ ¬ PawnChecks (newGame blank).placement .white)) ∧
    ∃ hit after,
      (∀ depth, pieceIsAttacked (depth + 1) (newGame blank) 2 4 .black = some (hit, after)) ∧
      ¬ after = newGame blank := by
  obtain ⟨attacks, checks, -⟩ := @Run.queries_kept_iff blank _ _ .start (by simp)
  obtain ⟨hit, after, asked, kept⟩ := attacks .black 2 4 (by decide) (Or.inl (by decide))
  refine ⟨checks .white, hit, after, asked, fun same => ?_⟩
  exact absurd (kept.mp same).1 (by decide)

/-- A black pawn goes to f2 and gives check. -/
def pawnCheck : List Move :=
  [⟨7, 6, 5, 7, .empty⟩, ⟨1, 4, 3, 4, .empty⟩, ⟨7, 7, 7, 6, .empty⟩, ⟨3, 4, 4, 4, .empty⟩,
    ⟨7, 6, 7, 7, .empty⟩, ⟨4, 4, 5, 4, .empty⟩, ⟨7, 7, 7, 6, .empty⟩, ⟨5, 4, 6, 5, .empty⟩]

/-- A test for check that finds a pawn has crowned it where a queen stands afterwards. -/
theorem Sound.crowned {g : Game} (sound : Sound g) {player : Player} {r c : Int}
    (check : (Chessh.checkProbe g player).1 = true) (pawn : (g.get r c).type = .pawn)
    (queen : ((Chessh.checkProbe g player).2.get r c).type = .queen) :
    ∃ after, (∀ depth, isInCheck (depth + 1) g player = some (true, after)) ∧
      (after.get r c).type = .queen ∧ after ≠ g := by
  refine ⟨_, fun depth => ?_, queen, fun same => ?_⟩
  · rw [isInCheck_eq sound.cornered, ← check]
  · rw [same, pawn] at queen
    cases queen

/-- The test whether White is in check turns the pawn into a queen. -/
theorem pawn_crowned :
    ∃ calls g after, Run (newGame blank) calls g ∧ (∀ call ∈ calls, Accepted call.2) ∧
      (∀ depth, isInCheck (depth + 1) g .white = some (true, after)) ∧
      (g.get 6 5).type = .pawn ∧ (after.get 6 5).type = .queen ∧ after ≠ g := by
  have run := Run.start.replayed (newGame_sound blank) pawnCheck
  have facts : (∀ call ∈ [] ++ (replay (newGame blank) pawnCheck).1, Accepted call.2) ∧
      ((replay (newGame blank) pawnCheck).2.get 6 5).type = .pawn ∧
      ((checkProbe (replay (newGame blank) pawnCheck).2 .white).2.get 6 5).type = .queen ∧
      (checkProbe (replay (newGame blank) pawnCheck).2 .white).1 = true := by decide +kernel
  obtain ⟨accepted, pawn, queen, check⟩ := facts
  obtain ⟨after, asked, crowned, changed⟩ :=
    (run.sound (newGame_sound blank)).crowned check pawn queen
  exact ⟨_, _, after, run, accepted, asked, pawn, crowned, changed⟩

end Chessh
