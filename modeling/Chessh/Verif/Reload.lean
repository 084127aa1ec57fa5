import Chessh.Verif.Clock
import Chessh.Verif.Fen
import Chessh.Verif.Length

/-!
# A game and its reloaded text

The counters `init_game` makes up are not those of the game, yet they stand for the same
position unless a pawn may be taken in passing. From then on both games accept the legal
moves of the same positions, so nothing a player does tells them apart.
-/

namespace Chessh

open Rules (Side Kind Man Square Wing Ply Position Placement InCheck Inside)

section Reloaded

variable {g loaded : Game}

/-- A reloaded square holds the same man. -/
theorem Reloaded.man (reloaded : ∀ r c, OnBoard r c → Reloaded g loaded r c) (r c : Int) :
    (loaded.get r c).man = (g.get r c).man := by
  by_cases on : OnBoard r c
  · have here := reloaded r c on
    unfold Reloaded at here
    split at here
    · rename_i free
      rw [man_empty here]
      exact free.symm
    · rename_i man there
      rw [here]
      exact Eq.trans (man_eq_some.mpr ⟨rfl, rfl⟩) there.symm
  · rw [Game.get_off on, Game.get_off on]

/-- The counters of a reloaded man. -/
theorem Reloaded.piece (reloaded : ∀ r c, OnBoard r c → Reloaded g loaded r c) {r c : Int}
    {man : Man} (there : (loaded.get r c).man = some man) :
    loaded.get r c = ⟨typeOf man.kind, playerOf man.side,
      if ∃ right ∈ rightsOf g, r = right.1.homeRow ∧ c = right.2.corner then 0
      else loadedMoves r man.letter (typeOf man.kind), 0⟩ := by
  have on : OnBoard r c := by
    by_contra off
    rw [Game.get_off off, man_empty rfl] at there
    cases there
  rw [Reloaded.man reloaded] at there
  have here := reloaded r c on
  unfold Reloaded at here
  rw [show g.placement (r, c) = some man from there] at here
  exact here

/-- A reloaded king has not moved. -/
theorem Reloaded.king (reloaded : ∀ r c, OnBoard r c → Reloaded g loaded r c) {r c : Int}
    {side : Side} : Unmoved loaded side .king r c ↔ (g.get r c).man = some ⟨side, .king⟩ := by
  rw [← Reloaded.man reloaded]
  refine ⟨And.left, fun there => ⟨there, ?_⟩⟩
  rw [Reloaded.piece reloaded there]
  dsimp only [typeOf, loadedMoves]
  exact ite_self 0

/-- A reloaded rook has not moved when it stands in the corner of a right. -/
theorem Reloaded.rook (reloaded : ∀ r c, OnBoard r c → Reloaded g loaded r c) {r c : Int}
    {side : Side} : Unmoved loaded side .rook r c ↔
      ∃ wing, (side, wing) ∈ rightsOf g ∧ r = side.homeRow ∧ c = wing.corner := by
  constructor
  · rintro ⟨there, unmoved⟩
    rw [Reloaded.piece reloaded there] at unmoved
    dsimp only [typeOf, loadedMoves] at unmoved
    split at unmoved
    · rename_i corner
      obtain ⟨⟨side', wing⟩, mem, rfl, rfl⟩ := corner
      have rook := (mem_rightsOf.mp mem).2.1
      rw [Reloaded.man reloaded, rook] at there
      cases there
      exact ⟨wing, mem, rfl, rfl⟩
    · cases unmoved
  · rintro ⟨wing, mem, rfl, rfl⟩
    have there := (Reloaded.man reloaded _ _).trans (mem_rightsOf.mp mem).2.1
    refine ⟨there, ?_⟩
    rw [Reloaded.piece reloaded there]
    exact if_pos ⟨_, mem, rfl, rfl⟩

/-- A reloaded pawn has not moved when it stands on its start row. -/
theorem Reloaded.pawn (reloaded : ∀ r c, OnBoard r c → Reloaded g loaded r c) {r c : Int}
    {side : Side} (there : (loaded.get r c).man = some ⟨side, .pawn⟩) :
    (loaded.get r c).moves = 0 ↔ r = side.pawnRow := by
  have corner : ¬ ∃ right ∈ rightsOf g, r = right.1.homeRow ∧ c = right.2.corner := by
    rintro ⟨right, mem, rfl, rfl⟩
    rw [Reloaded.man reloaded, (mem_rightsOf.mp mem).2.1] at there
    cases there
  rw [Reloaded.piece reloaded there]
  simp only [corner, ↓reduceIte, typeOf, loadedMoves]
  cases side with
  | white =>
    rw [if_neg (by decide)]
    by_cases home : r = 6 <;> simp [home, Side.pawnRow]
  | black =>
    rw [if_pos (by decide)]
    by_cases home : r = 1 <;> simp [home, Side.pawnRow]

/-- A game reloaded where no pawn may be taken in passing tracks the same position. -/
theorem Tracks.reloaded {pos : Position} (tracks : Tracks g pos) (sound : Sound loaded)
    (reloaded : ∀ r c, OnBoard r c → Reloaded g loaded r c) (time : loaded.duration = g.duration)
    (started : 0 ≤ g.duration)
    (fresh : g.duration = 0 → ∀ c, pos.board (pos.turn.other.doubleRow, c) = none)
    (quiet : pos.passing = none) : Tracks loaded pos := by
  have man := Reloaded.man reloaded
  have known : Known loaded := by
    intro r c nobody
    by_cases on : OnBoard r c
    · have here := reloaded r c on
      unfold Reloaded at here
      rw [show g.placement (r, c) = none from (man r c).symm.trans nobody] at here
      exact here
    · rw [Game.get_off on, offBoard]
  refine ⟨sound, known, tracks.wf, ?_, ?_, ?_, ?_, ?_, ?_, ?_⟩
  · rw [tracks.board]
    funext s
    obtain ⟨r, c⟩ := s
    exact (man r c).symm
  · rw [← tracks.turn, getPlayer, time]
    rfl
  · intro side wing
    rw [tracks.rights, Reloaded.king reloaded, Reloaded.rook reloaded]
    constructor
    · intro unmoved
      exact ⟨unmoved.1.1, wing, mem_rightsOf.mpr unmoved, rfl, rfl⟩
    · rintro ⟨-, wing', mem, -, same⟩
      have here : wing = wing' := by
        revert same
        cases wing <;> cases wing' <;> decide
      rw [here]
      exact mem_rightsOf.mp mem
  · intro side r c x y king rook
    obtain ⟨wing, mem, -, -⟩ := (Reloaded.rook reloaded).mp rook
    have here := (tracks.get r c).trans ((Reloaded.king reloaded).mp king)
    have home := (tracks.get _ _).trans (mem_rightsOf.mp mem).1.1
    exact Prod.mk.inj (tracks.wf.lone side _ _ here home)
  · intro side r c there
    exact Reloaded.pawn reloaded there
  · intro r c pawn _
    obtain ⟨side, kind, there⟩ := known.man (r := r) (c := c) (by rw [pawn]; decide)
    rw [Reloaded.piece reloaded there, time]
    exact started
  · intro c
    apply iff_of_false (by simp [quiet])
    rintro ⟨there, -, now⟩
    rw [Reloaded.piece reloaded there, time] at now
    have free := fresh now.symm c
    rw [tracks.get, ← man, there] at free
    cases free

end Reloaded

/-- A run whose last call is no double step leaves nothing to take in passing. -/
theorem Run.last_quiet {memory g : Game} {calls : List (Move × Int)}
    (run : Run (newGame memory) calls g) (accepted : ∀ call ∈ calls, Accepted call.2)
    (single : ∀ before m code, calls = before ++ [(m, code)] →
      ¬ ((Rules.initial.plays (plies before)).PawnMove m.ply ∧ (m.rF - m.rI).natAbs = 2)) :
    (Rules.initial.plays (plies calls)).passing = none ∧
      (g.duration = 0 → Rules.initial.plays (plies calls) = Rules.initial) := by
  obtain ⟨turns, -⟩ := run.last_capture accepted
  rcases List.eq_nil_or_concat calls with rfl | ⟨before, ⟨m, code⟩, rfl⟩
  · exact ⟨rfl, fun _ => rfl⟩
  rw [List.concat_eq_append] at single turns ⊢
  have moves : plies (before ++ [(m, code)]) = plies before ++ [m.ply] := plies_append _ _
  constructor
  · rw [moves, Position.plays_append]
    exact Position.quiet_play (single before m code rfl)
  · intro start
    rw [moves, List.length_append, start] at turns
    simp only [List.length_singleton] at turns
    omega

/-- Games that stand for one position accept the same moves and hold the same men. -/
theorem Tracks.agree {g h : Game} {pos : Position} (tracks : Tracks g pos)
    (tracks' : Tracks h pos) :
    (∀ m, ∃ code final code' final', Returns g m code final ∧ Returns h m code' final' ∧
      (Accepted code ↔ Accepted code')) ∧
    ∀ r c, ((g.get r c).type = .empty ↔ (h.get r c).type = .empty) ∧
      ((g.get r c).type ≠ .empty → (g.get r c).type = (h.get r c).type ∧
        (g.get r c).player = (h.get r c).player) := by
  refine ⟨fun m => ?_, fun r c => ?_⟩
  · obtain ⟨code, final, returns, made⟩ := tracks.sound.returns m
    obtain ⟨code', final', returns', made'⟩ := tracks'.sound.returns m
    refine ⟨code, final, code', final', returns, returns', ?_⟩
    rcases tracks.made made with ⟨refused, illegal⟩ | ⟨played, legal, -⟩ <;>
      rcases tracks'.made made' with ⟨refused', illegal'⟩ | ⟨played', legal', -⟩
    · exact iff_of_false refused refused'
    · exact absurd legal' illegal
    · exact absurd legal illegal'
    · exact iff_of_true played played'
  · have men : (g.get r c).man = (h.get r c).man := (tracks.get r c).symm.trans (tracks'.get r c)
    constructor
    · rw [← tracks.free, ← tracks'.free]
    · intro full
      obtain ⟨side, kind, there⟩ := tracks.known.man full
      obtain ⟨type, owner⟩ := man_eq_some.mp there
      rw [men] at there
      obtain ⟨type', owner'⟩ := man_eq_some.mp there
      exact ⟨type.trans type'.symm, owner.trans owner'.symm⟩

/-- Loading the standard text of a game preserves play. A run of calls that report no end
leads to a game, the last of the calls no double step of a pawn. Then `init_game` accepts its
text on a new board, and after any common sequence of moves on which both games go on, both
accept the same moves and hold the same men. -/
theorem Run.reload {memory fresh g : Game} {calls : List (Move × Int)}
    (run : Run (newGame memory) calls g) (nonneg : ∀ call ∈ calls, 0 ≤ call.2)
    (single : ∀ before m code, calls = before ++ [(m, code)] →
      ¬ ((Rules.initial.plays (plies before)).PawnMove m.ply ∧ (m.rF - m.rI).natAbs = 2)) :
    ∃ loaded, initGame (newGame fresh) (fen g) = some (0, loaded) ∧
      ∀ more more' after after', Run g more after → Run loaded more' after' →
        more.map Prod.fst = more'.map Prod.fst →
        (∀ call ∈ more, 0 ≤ call.2) → (∀ call ∈ more', 0 ≤ call.2) →
        (∀ m, ∃ code final code' final', Returns after m code final ∧
          Returns after' m code' final' ∧ (Accepted code ↔ Accepted code')) ∧
        ∀ r c, ((after.get r c).type = .empty ↔ (after'.get r c).type = .empty) ∧
          ((after.get r c).type ≠ .empty → (after.get r c).type = (after'.get r c).type ∧
            (after.get r c).player = (after'.get r c).player) := by
  have accepted : ∀ call ∈ calls, Accepted call.2 :=
    fun call mem => accepted_of_nonneg (nonneg call mem)
  have tracks := (run.follows accepted).2 nonneg
  obtain ⟨turns, -⟩ := run.last_capture accepted
  obtain ⟨side, turn⟩ := exists_playerOf g
  -- the game is short, so its clocks can be read
  have clocked := run.clocked fun call mem => not_ended_of_nonneg (nonneg call mem)
  have short := clocked.bound
  have past := clocked.big
  have wide : 4800 ≤ intMax := by decide
  obtain ⟨loaded, read, time, reloaded⟩ := initGame_fen fresh turn (by rw [turns]; omega)
    (by omega) (by omega)
  have sound := initGame_sound (newGame_sound fresh) read
  -- the last call, if there is one, decides what may be taken in passing
  have last := run.last_quiet accepted single
  have free : g.duration = 0 → ∀ c, (Rules.initial.plays (plies calls)).board
      ((Rules.initial.plays (plies calls)).turn.other.doubleRow, c) = none := by
    intro start c
    rw [last.2 start]
    rfl
  have tracks' := tracks.reloaded sound reloaded time (by rw [turns]; omega) free last.1
  refine ⟨loaded, read, fun more more' after after' run run' same nonneg nonneg' => ?_⟩
  have next := (tracks.follows run fun call mem => accepted_of_nonneg (nonneg call mem)).2 nonneg
  have next' :=
    (tracks'.follows run' fun call mem => accepted_of_nonneg (nonneg' call mem)).2 nonneg'
  have plies_same : plies more = plies more' := by
    have both := congrArg (List.map Move.ply) same
    simpa [plies, Function.comp_def] using both
  rw [← plies_same] at next'
  exact next.agree next'

/-- After a knight has come out, the reloaded game accepts the reply as well. -/
theorem reload_opening :
    ∃ loaded, initGame (newGame blank) (fen (replay (newGame blank) [⟨7, 6, 5, 5, .empty⟩]).2) =
        some (0, loaded) ∧
      ∃ code final, Returns loaded ⟨0, 1, 2, 2, .empty⟩ code final ∧ Accepted code := by
  have run := Run.start.replayed (newGame_sound blank) [⟨7, 6, 5, 5, .empty⟩]
  have knight : [] ++ (replay (newGame blank) [⟨7, 6, 5, 5, .empty⟩]).1 =
      [(⟨7, 6, 5, 5, .empty⟩, 0)] := by decide +kernel
  have single : ∀ before m code, [] ++ (replay (newGame blank) [⟨7, 6, 5, 5, .empty⟩]).1 =
      before ++ [(m, code)] →
      ¬ ((Rules.initial.plays (plies before)).PawnMove m.ply ∧ (m.rF - m.rI).natAbs = 2) := by
    intro before m code calls
    have calls : [] ++ [(⟨7, 6, 5, 5, .empty⟩, 0)] = before ++ [(m, code)] :=
      knight.symm.trans calls
    obtain ⟨rfl, same⟩ := List.append_inj' calls rfl
    cases same
    decide
  obtain ⟨loaded, read, reloads⟩ := Run.reload run (by decide +kernel) single
  obtain ⟨code, final, code', final', returns, returns', both⟩ :=
    (reloads [] [] _ _ Run.start Run.start rfl (by simp) (by simp)).1 ⟨0, 1, 2, 2, .empty⟩
  have played := (run.sound (newGame_sound blank)).played ⟨0, 1, 2, 2, .empty⟩
  have reply : Accepted (play (replay (newGame blank) [⟨7, 6, 5, 5, .empty⟩]).2
      ⟨0, 1, 2, 2, .empty⟩).1 := by decide +kernel
  rw [(played.unique returns).1] at reply
  exact ⟨loaded, read, code', final', returns', both.mp reply⟩

end Chessh
