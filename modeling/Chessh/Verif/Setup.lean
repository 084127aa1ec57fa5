import Chessh.Verif.Contest
import Chessh.Verif.Passing
import Chessh.Verif.Room

/-!
# Play from a loaded position

`init_game` makes up the counters of the pieces. `loaded_tracks_iff` says when the loaded game
stands for the position of its text all the same: always, but for the en passant field. Every run
from it is then umpired by the contest from that position, on a clock that for Black is one move
ahead, as long as the counters fit an `int`.
-/

namespace Chessh

open Rules (Side Kind Man Wing Ply Placement Position Fen Contest Answer manOf numeral ranksText)

/-! ## Counters -/

/-- A piece on the square, if there is one, has the counters of a piece letter. -/
def CountedAt (g : Game) (r c : Int) : Prop :=
  (g.get r c).type ≠ .empty → ∃ man : Man,
    g.get r c = ⟨typeOf man.kind, playerOf man.side, loadedMoves r man.letter (typeOf man.kind), 0⟩

/-- So have all pieces before the square in reading order. -/
def CountedTo (g : Game) (s : Int × Int) : Prop :=
  ∀ x y, x < s.1 ∨ (x = s.1 ∧ y < s.2) → CountedAt g x y

section CountedAt

variable {g : Game} {r c : Int}

/-- A letter loads the man it stands for. -/
theorem loadPiece_get {ch : Char} {man : Man} (letter : manOf ch = some man) (on : OnBoard r c) :
    (loadPiece g r c ch (typeOf man.kind)).get r c =
      ⟨typeOf man.kind, playerOf man.side, loadedMoves r man.letter (typeOf man.kind), 0⟩ := by
  have owner : (if man.letter.isLower then Player.black else .white) = playerOf man.side := by
    have lower := man.letter_isLower
    cases side : man.side <;> simp_all [playerOf]
  rw [loadPiece_letter g r c letter, loadPiece, Game.get_set_self _ _ on, owner]

/-- What is left of a run of free squares lies outside of it. -/
theorem clearRun_kept {run : Nat} (fits : run = 0 ∨ c + run ≤ 8) {x y : Int}
    (full : ((clearRun run g r c).1.get x y).type ≠ .empty) :
    (clearRun run g r c).1.get x y = g.get x y ∧ ¬ (x = r ∧ c ≤ y ∧ y < c + run) := by
  induction run generalizing g c with
  | zero => exact ⟨rfl, by omega⟩
  | succ run ih =>
    have room : c + 1 + (run : Int) ≤ 8 := by omega
    have step : clearRun (run + 1) g r c = clearRun run (g.setType r c .empty) r (c + 1) := by
      rw [clearRun, if_neg (by omega)]
    rw [step] at full ⊢
    obtain ⟨kept, outside⟩ := ih (Or.inr room) full
    rw [kept] at full ⊢
    rw [Game.get_setType] at full ⊢
    by_cases here : OnBoard x y ∧ x = r ∧ y = c
    · rw [if_pos here] at full
      exact absurd rfl full
    · rw [if_neg here] at full ⊢
      refine ⟨rfl, fun inside => ?_⟩
      have on := onBoard_of_type_ne_empty full
      push_cast at inside
      have there : y ≠ c := fun same => here ⟨on, inside.1, same⟩
      exact outside ⟨inside.1, by omega, by omega⟩

/-- The board field leaves counters of piece letters on all squares it goes over. -/
theorem boardAfter_counted {placement : List Char} (blank : ' ' ∉ placement) {s t : Int × Int}
    (walked : walk placement s = some t) (counted : CountedTo g s) :
    CountedTo (boardAfter placement g s) t := by
  unfold boardAfter
  induction placement generalizing g s with
  | nil =>
    cases walked
    exact counted
  | cons ch placement ih =>
    have blank' : ' ' ∉ placement := fun mem => blank (List.mem_cons_of_mem _ mem)
    have other : ch ≠ ' ' := fun same => blank (by rw [same]; exact List.mem_cons_self)
    rw [walk] at walked
    rw [List.cons_append, loadBoard, if_neg other]
    by_cases stroke : ch = '/'
    · rw [if_pos stroke] at walked ⊢
      by_cases full : s.2 = 8
      · rw [if_pos full] at walked
        rw [if_neg (not_not.mpr full)]
        refine ih (s := (s.1 + 1, 0)) blank' walked fun x y before there => ?_
        have on := onBoard_of_type_ne_empty there
        exact counted x y (by have := on.2; omega) there
      · rw [if_neg full] at walked
        cases walked
    rw [if_neg stroke] at walked ⊢
    rw [letterType_manOf]
    cases letter : manOf ch with
    | some man =>
      rw [letter] at walked
      refine ih (s := (s.1, s.2 + 1)) blank' walked fun x y before there => ?_
      have on := onBoard_of_type_ne_empty there
      by_cases here : x = s.1 ∧ y = s.2
      · rw [here.1, here.2] at on ⊢
        exact ⟨man, loadPiece_get letter on⟩
      · have same : (loadPiece g s.1 s.2 ch (typeOf man.kind)).get x y = g.get x y :=
          Game.get_set_ne _ _ here
        rw [same] at there ⊢
        exact counted x y (by dsimp only at before; omega) there
    | none =>
      rw [letter] at walked
      simp only [Option.isSome_none, Bool.false_eq_true, ↓reduceIte] at walked
      by_cases digit : ch.isDigit = true ∧ (digitValue ch = 0 ∨ s.2 + digitValue ch ≤ 8)
      · rw [if_pos digit] at walked
        have cursor := clearRun_cursor (digitValue ch) g s.1 s.2
        have cleared := fun x y => @clearRun_kept g s.1 s.2 (digitValue ch) digit.2 x y
        rw [if_pos digit.2] at cursor
        simp only [Option.map_none, digit.1, ↓reduceIte]
        generalize clearRun (digitValue ch) g s.1 s.2 = result at cursor cleared
        obtain ⟨after, stop⟩ := result
        obtain rfl : stop = some (s.2 + digitValue ch) := cursor
        refine ih (s := (s.1, s.2 + digitValue ch)) blank' walked fun x y before there => ?_
        obtain ⟨kept, outside⟩ := cleared x y there
        have kept : after.get x y = g.get x y := kept
        rw [kept] at there ⊢
        exact counted x y (by dsimp only at before; omega) there
      · rw [if_neg digit] at walked
        cases walked

end CountedAt

/-! ## Loaded games -/

section Loaded

variable {memory loaded : Game} {f : Fen}

/-- What `init_game` has done to a game whose text it accepts. -/
theorem loaded_eq (valid : f.Valid)
    (accepted : initGame (newGame memory) f.text = some (0, loaded)) :
    ∃ x, passSquare 7 f.passingText = some x ∧
      loaded = (clocked ((scanOf f).front.loaded (newGame memory)) x f.clocks).2 := by
  obtain ⟨x, reads⟩ := valid_reads valid (newGame memory)
  rw [← scanOf_text] at accepted
  have fits := reads.accepts_iff.mp ⟨loaded, accepted⟩
  rw [initGame_fits reads fits] at accepted
  exact ⟨x, reads.passing, (congrArg Prod.snd (Option.some.inj accepted)).symm⟩

/-- The field of a position names a square of the last row, or none of the board. -/
theorem passed_last (valid : f.Valid) {x : Int × Int}
    (named : passSquare 7 f.passingText = some x) :
    x.1 = -1 ∨ x.1 = 7 := by
  rcases passSquare_cases named with hyphen | ⟨file, rank, c, text, -, rfl⟩
  · rw [hyphen] at named
    cases named
    exact Or.inl rfl
  · have ranks : rank = '3' ∨ rank = '6' := by
      unfold Fen.passingText at text
      split at text
      · cases text
      · rename_i square
        cases text
        exact (valid.passing file rank square).2
    refine Or.inr ?_
    rcases ranks with rfl | rfl <;> rfl

/-- Setting the clocks changes no counter of moves, and the last move on one square at most. -/
theorem clocked_counters (g : Game) (x : Int × Int) (clocks : Option (List Char × List Char))
    (r c : Int) : ((clocked g x clocks).2.get r c).moves = (g.get r c).moves ∧
      (r ≠ x.1 → ((clocked g x clocks).2.get r c).lastMove = (g.get r c).lastMove) := by
  have kept : ∀ (h : Game) duration rest,
      ((setClock h x.1 x.2 duration rest).2.get r c).moves = (h.get r c).moves ∧
        (r ≠ x.1 → ((setClock h x.1 x.2 duration rest).2.get r c).lastMove =
          (h.get r c).lastMove) := by
    intro h duration rest
    rw [setClock_get]
    split
    · rename_i here
      rw [here.2.1, here.2.2]
      exact ⟨rfl, fun other => absurd rfl other⟩
    · exact ⟨rfl, fun _ => rfl⟩
  cases clocks with
  | none => exact kept _ _ _
  | some numbers => exact kept _ _ _

/-- The counters of a man that has been loaded. -/
theorem loaded_counters (valid : f.Valid)
    (accepted : initGame (newGame memory) f.text = some (0, loaded)) {r c : Int} {man : Man}
    (there : f.board (r, c) = some man) :
    (loaded.get r c).moves =
        (if ∃ right ∈ f.rights, r = right.1.homeRow ∧ c = right.2.corner then 0
        else loadedMoves r man.letter (typeOf man.kind)) ∧
      (r ≠ 7 → (loaded.get r c).lastMove = 0) := by
  have on := board_onBoard valid there
  obtain ⟨x, named, rfl⟩ := loaded_eq valid accepted
  have last := passed_last valid named
  obtain ⟨moves, lastMove⟩ :=
    clocked_counters ((scanOf f).front.loaded (newGame memory)) x f.clocks r c
  have blank := blank_ranksText valid.rank
  have counted := boardAfter_counted blank (valid_walked valid) (g := newGame memory)
    fun x y before full => absurd (onBoard_of_type_ne_empty full) (by
      intro on
      have := on.1
      have := on.2
      dsimp only at before
      omega)
  have men : ((boardAfter (ranksText f.ranks) (newGame memory) (0, 0)).get r c).man = some man := by
    rw [boardAfter_men blank (valid_walked valid) on,
      menAfter_board valid.eight valid.rank _ on, there]
  have type := (man_eq_some.mp men).1
  obtain ⟨man', piece⟩ := counted r c (by have := on.1; have := on.2; dsimp only; omega)
    (by rw [type]; exact typeOf_ne_empty _)
  obtain rfl : man' = man := by
    rw [piece] at men
    have same := man_eq_some.mp men
    obtain ⟨side, kind⟩ := man
    obtain ⟨side', kind'⟩ := man'
    obtain rfl : kind' = kind := typeOf_inj.mp same.1
    obtain rfl : side' = side := playerOf_inj.mp same.2
    rfl
  have granted := get_grant f.rights { boardAfter (ranksText f.ranks) (newGame memory) (0, 0) with
    duration := if f.side = .white then 0 else 1 } r c
  have here : ((scanOf f).front.loaded (newGame memory)).get r c =
      if ∃ right ∈ f.rights, r = right.1.homeRow ∧ c = right.2.corner then
        { (boardAfter (ranksText f.ranks) (newGame memory) (0, 0)).get r c with moves := 0 }
      else (boardAfter (ranksText f.ranks) (newGame memory) (0, 0)).get r c := granted
  rw [piece] at here
  rw [moves, here]
  constructor
  · split <;> rfl
  · intro low
    rw [lastMove (by have := on.1; omega), here]
    split <;> rfl

/-- The half-move clock of a text. -/
def halfMoves (f : Fen) : Nat := f.clocks.elim 0 fun numbers => numeral numbers.1

/-- The number of the move. -/
def fullMoves (f : Fen) : Nat := f.clocks.elim 1 fun numbers => numeral numbers.2

/-- The clocks of a loaded game. -/
theorem loaded_clock (valid : f.Valid)
    (accepted : initGame (newGame memory) f.text = some (0, loaded)) :
    0 ≤ loaded.duration ∧ getPlayer loaded = playerOf f.side ∧
      clock loaded = halfMoves f + sideTurn f.side ∧
      loaded.duration = 2 * ((fullMoves f : Int) - 1) + sideTurn f.side := by
  obtain ⟨x, reads⟩ := valid_reads valid (newGame memory)
  have side : ∀ n : Int, loaded.duration = 2 * n + sideTurn f.side →
      getPlayer loaded = playerOf f.side := by
    intro n duration
    rw [getPlayer, duration]
    cases f.side with
    | white => rw [sideTurn, if_pos (by omega)]; rfl
    | black => rw [sideTurn, if_neg (by omega)]; rfl
  have positive : 0 ≤ sideTurn f.side := by
    cases f.side <;> decide
  unfold halfMoves fullMoves
  cases clocks : f.clocks with
  | some numbers =>
    obtain ⟨half, full⟩ := numbers
    have counted : 1 ≤ numeral full := (valid.clocks half full clocks).2.2
    rw [← scanOf_text] at accepted
    obtain ⟨duration, quiet⟩ := loaded_clocks reads clocks accepted
    refine ⟨?_, side _ duration, quiet, duration⟩
    rw [duration]
    show 0 ≤ _ + sideTurn f.side
    omega
  | none =>
    obtain ⟨y, -, rfl⟩ := loaded_eq valid accepted
    have turn : ((scanOf f).front.loaded (newGame memory)).duration = sideTurn f.side := by
      rw [Front.loaded, grant_duration]
      show (if f.side = .white then (0 : Int) else 1) = _
      cases f.side <;> rfl
    rw [clocks] at side ⊢
    have duration : (clocked ((scanOf f).front.loaded (newGame memory)) y none).2.duration =
        sideTurn f.side := (add_zero _).trans turn
    refine ⟨duration.ge.trans' positive, side 0 (by rw [duration]; ring), ?_, ?_⟩
    · rw [clock, duration]
      show sideTurn f.side - (0 + 0) = 0 + _
      ring
    · rw [duration]
      show _ = 2 * ((1 : Nat) - 1 : Int) + _
      ring

/-- The men of a loaded game. -/
theorem loaded_placement (valid : f.Valid)
    (accepted : initGame (newGame memory) f.text = some (0, loaded)) :
    loaded.placement = f.board := by
  funext s
  obtain ⟨r, c⟩ := s
  show (loaded.get r c).man = _
  by_cases on : OnBoard r c
  · exact loaded_board valid accepted on
  · rw [Game.get_off on, man_empty rfl]
    cases there : f.board (r, c) with
    | none => rfl
    | some man => exact absurd (board_onBoard valid there) on

/-- A rook in the corner of a right has not moved. -/
theorem loaded_rook (valid : f.Valid)
    (accepted : initGame (newGame memory) f.text = some (0, loaded)) {side : Side} {r c : Int} :
    Unmoved loaded side .rook r c ↔
      ∃ wing, (side, wing) ∈ f.rights ∧ r = side.homeRow ∧ c = wing.corner := by
  have men : (loaded.get r c).man = f.board (r, c) :=
    congrFun (loaded_placement valid accepted) (r, c)
  rw [Unmoved, men]
  constructor
  · rintro ⟨there, unmoved⟩
    rw [(loaded_counters valid accepted there).1] at unmoved
    split at unmoved
    · rename_i corner
      obtain ⟨⟨side', wing⟩, mem, rfl, rfl⟩ := corner
      have rook := (valid.rights _ mem).2
      dsimp only at there rook
      rw [rook] at there
      cases there
      exact ⟨wing, mem, rfl, rfl⟩
    · cases unmoved
  · rintro ⟨wing, mem, rfl, rfl⟩
    have there := (valid.rights _ mem).2
    refine ⟨there, ?_⟩
    rw [(loaded_counters valid accepted there).1]
    exact if_pos ⟨_, mem, rfl, rfl⟩

/-- A king has not moved. -/
theorem loaded_king (valid : f.Valid)
    (accepted : initGame (newGame memory) f.text = some (0, loaded)) {side : Side} {r c : Int} :
    Unmoved loaded side .king r c ↔ f.board (r, c) = some ⟨side, .king⟩ := by
  have men : (loaded.get r c).man = f.board (r, c) :=
    congrFun (loaded_placement valid accepted) (r, c)
  rw [Unmoved, men]
  refine ⟨And.left, fun there => ⟨there, ?_⟩⟩
  rw [(loaded_counters valid accepted there).1]
  exact ite_self 0

/-- The counters of a pawn: it has not moved when it stands on its start row, and otherwise once. -/
theorem loaded_pawn (valid : f.Valid)
    (accepted : initGame (newGame memory) f.text = some (0, loaded)) {side : Side} {r c : Int}
    (there : f.board (r, c) = some ⟨side, .pawn⟩) :
    (loaded.get r c).moves = if r = side.pawnRow then 0 else 1 := by
  have corner : ¬ ∃ right ∈ f.rights, r = right.1.homeRow ∧ c = right.2.corner := by
    rintro ⟨right, mem, rfl, rfl⟩
    rw [(valid.rights right mem).2] at there
    cases there
  rw [(loaded_counters valid accepted there).1, if_neg corner]
  cases side with
  | white => rw [show (Man.letter ⟨.white, .pawn⟩) = 'P' from rfl]; rfl
  | black => rw [show (Man.letter ⟨.black, .pawn⟩) = 'p' from rfl]; rfl

/-- The en passant field says what the loaded game goes by, which is not the field: on White's first
move every pawn of Black on the row of its double step can be taken in passing, and later on none.
So the field must name that pawn on White's first move, where there can be no other one, and be
absent on any other move, whatever has been played. -/
def PassingRight (f : Fen) : Prop :=
  ∀ c, f.position.passing = some c ↔
    f.board (f.side.other.doubleRow, c) = some ⟨f.side.other, .pawn⟩ ∧ FirstTurn f

/-- The game that `init_game` makes of a text stands for the position of the text, if the position
is one a game can reach, exactly when the en passant field is right. -/
theorem loaded_tracks_iff (valid : f.Valid) (wf : f.position.WellFormed)
    (accepted : initGame (newGame memory) f.text = some (0, loaded)) :
    Tracks loaded f.position ↔ PassingRight f := by
  obtain ⟨started, turn, -⟩ := loaded_clock valid accepted
  have placement := loaded_placement valid accepted
  have men : ∀ r c, (loaded.get r c).man = f.board (r, c) := fun r c => congrFun placement (r, c)
  -- the pawns that can have made a double step
  have passing : ∀ c, ((loaded.get f.side.other.doubleRow c).man = some ⟨f.side.other, .pawn⟩ ∧
      (loaded.get f.side.other.doubleRow c).moves = 1 ∧
      (loaded.get f.side.other.doubleRow c).lastMove = loaded.duration) ↔
      f.board (f.side.other.doubleRow, c) = some ⟨f.side.other, .pawn⟩ ∧ FirstTurn f := by
    intro c
    rw [men]
    refine and_congr_right fun there => ?_
    have rows : f.side.other.doubleRow ≠ f.side.other.pawnRow ∧ f.side.other.doubleRow ≠ 7 := by
      cases f.side <;> decide
    rw [loaded_pawn valid accepted there, if_neg rows.1,
      (loaded_counters valid accepted there).2 rows.2, ← loaded_duration valid accepted]
    exact (and_iff_right rfl).trans eq_comm
  constructor
  · exact fun tracks c => (tracks.passing c).trans (passing c)
  intro right
  have known : Known loaded := (loaded_fresh valid accepted).known
  refine ⟨initGame_sound (newGame_sound memory) accepted, known, wf, placement.symm,
    turn, ?_, ?_, ?_,
    ?_, fun c => (right c).trans (passing c).symm⟩
  · intro side wing
    rw [loaded_king valid accepted, loaded_rook valid accepted]
    constructor
    · exact fun mem => ⟨(valid.rights _ mem).1, wing, mem, rfl, rfl⟩
    · rintro ⟨-, wing', mem, -, same⟩
      obtain rfl : wing = wing' := by
        revert same
        cases wing <;> cases wing' <;> decide
      exact mem
  · intro side r c x y king rook
    obtain ⟨wing, mem, -, -⟩ := (loaded_rook valid accepted).mp rook
    have home := wf.lone side _ _ ((loaded_king valid accepted).mp king) (valid.rights _ mem).1
    exact Prod.mk.inj home
  · intro side r c there
    rw [men] at there
    rw [loaded_pawn valid accepted there]
    split <;> simp_all
  · intro r c pawn _
    obtain ⟨side, kind, there⟩ := known.man (r := r) (c := c) (by rw [pawn]; decide)
    have type := (man_eq_some.mp there).1
    rw [pawn] at type
    obtain rfl : kind = .pawn := (typeOf_inj (a := .pawn)).mp type |>.symm
    rw [men] at there
    rw [(loaded_counters valid accepted there).2 (wf.pawns _ _ there).2]
    exact started

/-- The contest that a loaded game stands for. With Black to move its clock is one move ahead. -/
def setupContest (f : Fen) : Contest :=
  ⟨f.position, (f.clocks.elim 0 fun numbers => numeral numbers.1) + (sideTurn f.side).toNat⟩

/-- A loaded game stands for its contest. -/
theorem loaded_stands (valid : f.Valid) (wf : f.position.WellFormed) (right : PassingRight f)
    (accepted : initGame (newGame memory) f.text = some (0, loaded)) :
    Stands loaded (setupContest f) := by
  refine ⟨(loaded_tracks_iff valid wf accepted).mpr right, ?_⟩
  rw [(loaded_clock valid accepted).2.2.1, setupContest]
  have turn : ((sideTurn f.side).toNat : Int) = sideTurn f.side := by
    cases f.side <;> rfl
  push_cast
  rw [turn]
  unfold halfMoves
  cases f.clocks <;> rfl

/-- `init_game` returns 0 for the text of a position whose numbers fit. -/
theorem loaded_accepts (memory : Game) (valid : f.Valid) (fits : Fits f.clocks) :
    ∃ loaded, initGame (newGame memory) f.text = some (0, loaded) := by
  obtain ⟨x, reads⟩ := valid_reads valid (newGame memory)
  rw [← scanOf_text]
  exact reads.accepts_iff.mpr fits

/-- The numbers of the text leave room in an `int` for so many calls. -/
structure Leaves (f : Fen) (calls : Nat) : Prop where
  /-- Every move of both players is two turns. -/
  turns : 2 * fullMoves f + calls ≤ intMax
  /-- With Black to move the clock is one move ahead. -/
  clock : halfMoves f + 1 + calls ≤ intMax

/-- They fit all the more. -/
theorem Leaves.fits {n : Nat} (leaves : Leaves f n) : Fits f.clocks := by
  obtain ⟨turns, clock⟩ := leaves
  intro half full same
  unfold fullMoves halfMoves at *
  rw [same] at turns clock
  simp only [Option.elim_some] at turns clock
  omega

/-- A loaded game has the room its text leaves. -/
theorem loaded_room (valid : f.Valid)
    (accepted : initGame (newGame memory) f.text = some (0, loaded)) {n : Nat}
    (leaves : Leaves f n) : Room n loaded := by
  obtain ⟨-, -, quiet, turns⟩ := loaded_clock valid accepted
  obtain ⟨x, reads⟩ := valid_reads valid (newGame memory)
  rw [← scanOf_text] at accepted
  have few := loaded_moves reads accepted
  obtain ⟨long, late⟩ := leaves
  have side : sideTurn f.side ≤ 1 := by
    cases f.side <;> decide
  unfold clock at quiet
  refine ⟨by omega, by omega, fun r c => ?_⟩
  have := few r c
  omega

end Loaded

/-- Let the text describe a position that a game can reach, with numbers that fit and an en passant
field that is right. Then `init_game` accepts it. Along every run of calls from the loaded game for
which the numbers leave room, and for one more, no counter leaves the range of an `int`; the codes
report no end exactly when the contest from the position survives the moves; and the next call,
whatever its move, then returns what an umpire says to it. -/
theorem initGame_umpired (memory : Game) {f : Fen} (valid : f.Valid) (wf : f.position.WellFormed)
    (right : PassingRight f) (fits : Fits f.clocks) :
    ∃ loaded, initGame (newGame memory) f.text = some (0, loaded) ∧
      ∀ calls g, Run loaded calls g → Leaves f (1 + calls.length) → Room 1 g ∧
        ((∀ call ∈ calls, 0 ≤ call.2) ↔ (setupContest f).Survives (plies calls)) ∧
        ((setupContest f).Survives (plies calls) → ∀ m : Move, ∃ after, Returns g m
          (answerCode (((setupContest f).plays (plies calls)).answer m.ply)) after) := by
  obtain ⟨loaded, accepted⟩ := loaded_accepts memory valid fits
  have stands := loaded_stands valid wf right accepted
  refine ⟨loaded, accepted, fun calls g run leaves => ?_⟩
  have survives := stands.survives_iff run
  have room := (loaded_room valid accepted leaves).run stands.tracks.sound run
  refine ⟨room, survives, fun going m => ?_⟩
  have here := (stands.run run (survives.mpr going)).2
  obtain ⟨code, after, returns, -⟩ := here.tracks.sound.returns m
  rw [← (here.made returns).1]
  exact ⟨after, returns⟩

/-! ## The starting position -/

/-- The starting position on the first move. -/
def startFen : Fen where
  ranks :=
    [['r', 'n', 'b', 'q', 'k', 'b', 'n', 'r'], List.replicate 8 'p', ['8'], ['8'], ['8'], ['8'],
    List.replicate 8 'P', ['R', 'N', 'B', 'Q', 'K', 'B', 'N', 'R']]
  side := .white
  rights := [(.white, .kingside), (.white, .queenside), (.black, .kingside), (.black, .queenside)]
  passing := none
  clocks := some (['0'], ['1'])

/-- Its text is that of a position. -/
theorem startFen_valid : startFen.Valid where
  eight := rfl
  rank := by
    have lengths : ∀ rank ∈ startFen.ranks, (Rules.rankSquares rank).map List.length = some 8 := by
      decide +kernel
    exact fun rank mem => Option.map_eq_some_iff.mp (lengths rank mem)
  rights := by decide +kernel
  passing := nofun
  clocks := by
    intro half full same
    cases same
    exact ⟨⟨List.cons_ne_nil _ _, List.forall_mem_singleton.mpr rfl⟩,
      ⟨List.cons_ne_nil _ _, List.forall_mem_singleton.mpr rfl⟩, by decide⟩

/-- The position is the one games start from. -/
theorem startFen_position : startFen.position = Rules.initial := by
  have board : startFen.board = Rules.initialBoard := by
    have table : ∀ i j : Fin 8, startFen.board (i, j) = Rules.initialBoard (i, j) := by
      decide +kernel
    funext s
    obtain ⟨r, c⟩ := s
    by_cases on : OnBoard r c
    · obtain ⟨i, j, rfl, rfl⟩ := on.exists_fin
      exact table i j
    · have off : ∀ {man : Option Man}, (∀ found, man = some found → OnBoard r c) → man = none :=
        fun inside => Option.eq_none_iff_forall_ne_some.mpr fun found same => on (inside found same)
      have free : Rules.initialBoard (r, c) = none :=
        off fun man => Rules.initial_wellFormed.inside (r, c) man
      rw [off fun _ => board_onBoard startFen_valid, free]
  have rights : (fun side wing => (side, wing) ∈ startFen.rights) = fun _ _ => True := by
    funext side wing
    cases side <;> cases wing <;> simp [startFen]
  unfold Fen.position
  rw [board, rights]
  rfl

/-- Nothing can be taken in passing. -/
theorem startFen_right : PassingRight startFen := by
  intro c
  have board : startFen.board = Rules.initialBoard := congrArg Position.board startFen_position
  have row : Rules.initialBoard (3, c) = none := by simp [Rules.initialBoard]
  rw [board]
  refine iff_of_false nofun fun both => ?_
  have pawn : Rules.initialBoard (3, c) = some ⟨.black, .pawn⟩ := both.1
  rw [row] at pawn
  cases pawn

/-- Its numbers leave room for a thousand calls. -/
theorem startFen_leaves : Leaves startFen 1000 := ⟨by decide, by decide⟩

/-- The text of the starting position is loaded, and play from it is umpired. -/
theorem initGame_umpired_start :
    ∃ loaded, initGame (newGame blank) startFen.text = some (0, loaded) ∧
    Room 1 loaded ∧ ∀ m : Move, ∃ after,
      Returns loaded m (answerCode ((setupContest startFen).answer m.ply)) after := by
  obtain ⟨loaded, accepted, umpired⟩ := initGame_umpired blank startFen_valid
    (startFen_position ▸ Rules.initial_wellFormed) startFen_right startFen_leaves.fits
  obtain ⟨room, -, judged⟩ := umpired [] loaded .start ⟨by decide, by decide⟩
  exact ⟨loaded, accepted, room, judged trivial⟩

end Chessh
