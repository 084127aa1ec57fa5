import Chessh.Verif.Counters

/-!
# The length of a game

A capture empties one square for good and is the only thing that winds the clock back. A
board of thirty-two pieces and a clock of one hundred and fifty turns therefore bound the
number of turns, and with it every counter of the game.
-/

namespace Chessh

/-- The occupied squares. -/
def men (g : Game) : Finset (Int × Int) :=
  squares.toFinset.filter fun s => (g.get s.1 s.2).type ≠ .empty

/-- Only squares of the board are occupied. -/
@[simp] theorem mem_men {g : Game} {s : Int × Int} :
    s ∈ men g ↔ (g.get s.1 s.2).type ≠ .empty := by
  unfold men
  rw [Finset.mem_filter, List.mem_toFinset, mem_squares]
  exact ⟨And.right, fun full => ⟨onBoard_of_type_ne_empty full, full⟩⟩

/-- What arrives is a piece. -/
theorem Judged.arrival_full {g : Game} {m : Move} {player : Player} {v : Verdict}
    (judged : Judged g m player v) (ok : 0 ≤ v.code) : arrivalType g m ≠ .empty := by
  unfold arrivalType
  cases judged with
  | refused | unpromoted | stopped => simp [Verdict.plain, illegalMove, missingPromotion] at ok
  | officer mine kind hit =>
    rw [if_neg fun h => kind h.1]
    exact mine.full
  | pawn mine kind goes early =>
    rw [if_neg fun h => early h.2]
    exact mine.full
  | promoted mine kind goes last named =>
    rw [if_pos ⟨kind, last⟩]
    intro empty
    rw [empty] at named
    exact Bool.noConfusion named
  | castled mine kind castling empty safe passing arriving =>
    rw [if_neg fun h => PieceType.noConfusion (kind.symm.trans h.1)]
    exact mine.full

/-- A square after a single raw move is occupied when the piece arrived there, or when it
was occupied and neither left nor taken. -/
theorem Landed.full_iff {g : Game} {m : Move} {captured : Option (Int × Int)} {after : Game}
    (landed : Landed g m captured none after) (arrives : arrivalType g m ≠ .empty)
    (away : ¬ (m.rI = m.rF ∧ m.cI = m.cF)) (r c : Int) :
    (after.get r c).type ≠ .empty ↔
      (r = m.rF ∧ c = m.cF) ∨
        (¬ (r = m.rI ∧ c = m.cI) ∧ captured ≠ some (r, c) ∧ (g.get r c).type ≠ .empty) := by
  by_cases target : r = m.rF ∧ c = m.cF
  · obtain ⟨rfl, rfl⟩ := target
    rw [landed.target]
    simp [arrives]
  by_cases source : r = m.rI ∧ c = m.cI
  · obtain ⟨rfl, rfl⟩ := source
    rw [landed.source]
    simp [away]
  by_cases casualty : captured = some (r, c)
  · rw [landed.taken r c casualty]
    simp [casualty, target]
  · rw [landed.frame r c target source casualty fun a b none => by cases none]
    simp [target, source, casualty]

/-- A piece that lands on a square takes what stands there. -/
theorem Landed.count_plain {g : Game} {m : Move} {after : Game}
    (landed : Landed g m none none after)
    (arrives : arrivalType g m ≠ .empty) (away : ¬ (m.rI = m.rF ∧ m.cI = m.cF))
    (left : (m.rI, m.cI) ∈ men g) :
    (men after).card + (if (g.get m.rF m.cF).type ≠ .empty then 1 else 0) = (men g).card := by
  have full := landed.full_iff arrives away
  have board : men after = insert (m.rF, m.cF) ((men g).erase (m.rI, m.cI)) := by
    ext ⟨r, c⟩
    simp [full r c]
  rw [board]
  by_cases taken : (g.get m.rF m.cF).type = .empty
  · rw [Finset.card_insert_of_notMem (by simp [taken]), Finset.card_erase_add_one left]
    simp [taken]
  · have there : (m.rF, m.cF) ∈ (men g).erase (m.rI, m.cI) := by
      rw [Finset.mem_erase, mem_men, ne_eq, Prod.mk.injEq]
      exact ⟨fun h => away ⟨h.1.symm, h.2.symm⟩, taken⟩
    rw [Finset.insert_eq_of_mem there]
    simpa [taken] using Finset.card_erase_add_one left

/-- A pawn that takes in passing takes a pawn from another square. -/
theorem Landed.count_passing {g : Game} {m : Move} {after : Game}
    (landed : Landed g m (some (m.rI, m.cF)) none after) (arrives : arrivalType g m ≠ .empty)
    (away : ¬ (m.rI = m.rF ∧ m.cI = m.cF)) (left : (m.rI, m.cI) ∈ men g) (beside : m.cF ≠ m.cI)
    (clear : (g.get m.rF m.cF).type = .empty) (pawn : (g.get m.rI m.cF).type = .pawn) :
    (men after).card + 1 = (men g).card := by
  have full := landed.full_iff arrives away
  have board : men after =
      insert (m.rF, m.cF) (((men g).erase (m.rI, m.cI)).erase (m.rI, m.cF)) := by
    ext ⟨r, c⟩
    rw [mem_men, full r c]
    simp only [ne_eq, Option.some.injEq, Prod.mk.injEq, Finset.mem_insert, Finset.mem_erase,
      mem_men]
    tauto
  have there : (m.rI, m.cF) ∈ (men g).erase (m.rI, m.cI) := by
    rw [Finset.mem_erase, mem_men, ne_eq, Prod.mk.injEq]
    exact ⟨fun h => beside h.2, by rw [pawn]; decide⟩
  rw [board, Finset.card_insert_of_notMem (by simp [clear])]
  have first := Finset.card_erase_add_one there
  have second := Finset.card_erase_add_one left
  omega

/-- A castling takes nothing. -/
theorem Landed.count_castled {g : Game} {m : Move} {after : Game} {player : Player} {cc a : Int}
    (landed : Landed g m none (some (a, m.cI + cc)) after) (arrives : arrivalType g m ≠ .empty)
    (mine : Mine g m player) (castling : Castling g m cc a)
    (passing : (g.get m.rI (m.cI + cc)).type = .empty) (empty : (g.get m.rF m.cF).type = .empty) :
    (men after).card = (men g).card := by
  obtain ⟨stopKing, stopMid, stopTarget, midKing, midTarget, targetKing, -, -⟩ :=
    castling.squares_differ mine passing empty
  have row := castling.row
  have left : (m.rI, m.cI) ∈ men g := mem_men.mpr mine.full
  have board : men after = insert (m.rI, m.cI + cc)
      ((insert (m.rF, m.cF) ((men g).erase (m.rI, m.cI))).erase (m.rI, a)) := by
    ext ⟨r, c⟩
    simp only [mem_men, ne_eq, Finset.mem_insert, Finset.mem_erase, Prod.mk.injEq]
    by_cases target : r = m.rF ∧ c = m.cF
    · obtain ⟨rfl, rfl⟩ := target
      rw [landed.target]
      simp [arrives, Ne.symm stopTarget]
    by_cases source : r = m.rI ∧ c = m.cI
    · obtain ⟨rfl, rfl⟩ := source
      rw [landed.source]
      simp [Ne.symm targetKing, Ne.symm midKing]
    by_cases corner : r = m.rI ∧ c = a
    · obtain ⟨rfl, rfl⟩ := corner
      rw [landed.rookSource _ _ rfl]
      simp [stopMid]
    by_cases middle : r = m.rI ∧ c = m.cI + cc
    · obtain ⟨rfl, rfl⟩ := middle
      rw [landed.rookTarget _ _ rfl]
      simp [castling.rook]
    · rw [landed.frame r c target source (by simp) ?_]
      · simp [target, source, corner, middle]
      · rintro _ _ ⟨⟩ here
        exact ⟨fun h => corner ⟨here, h⟩, fun h => middle ⟨here, h⟩⟩
  have corner : (m.rI, a) ∈ insert (m.rF, m.cF) ((men g).erase (m.rI, m.cI)) := by
    rw [Finset.mem_insert, Finset.mem_erase, mem_men, castling.rook]
    simp [stopKing]
  rw [board, Finset.card_insert_of_notMem (by simp [passing, midTarget]),
    Finset.card_erase_add_one corner, Finset.card_insert_of_notMem (by simp [empty]),
    Finset.card_erase_add_one left]

/-- Only a pawn taken in passing is an extra casualty. -/
theorem Judged.casualty {g : Game} {m : Move} {player : Player} {v : Verdict}
    (judged : Judged g m player v) {s : Int × Int} (captured : v.captured = some s) :
    s = (m.rI, m.cF) ∧ m.cF ≠ m.cI ∧ (g.get m.rF m.cF).type = .empty ∧
      (g.get m.rI m.cF).type = .pawn := by
  have taken : pawnGoes g m = some (some s) := by
    cases judged with
    | refused | officer | stopped | castled => simp [Verdict.plain] at captured
    | pawn mine kind goes | promoted mine kind goes | unpromoted mine kind goes =>
      rw [goes]
      exact congrArg some captured
  obtain ⟨same, beside, -, clear, pawn, -⟩ := pawnGoes_captured taken
  exact ⟨same, beside, clear, pawn⟩

/-- An accepted move takes at most one piece off the board, and one that does is a big
move. -/
theorem Judged.count {g : Game} {m : Move} {player : Player} {v : Verdict} (home : RooksHome g)
    (judged : Judged g m player v) (ok : 0 ≤ v.code) :
    (men (v.apply m)).card +
        (if (g.get m.rF m.cF).type ≠ .empty ∨ v.captured ≠ none then 1 else 0) =
      (men g).card := by
  have mine := judged.mine ok
  have landed := judged.landed home ok
  have arrives := judged.arrival_full ok
  have away : ¬ (m.rI = m.rF ∧ m.cI = m.cF) := by
    have := mine.away
    tauto
  have left : (m.rI, m.cI) ∈ men g := mem_men.mpr mine.full
  cases rook : v.rook with
  | none =>
    rw [rook] at landed
    cases captured : v.captured with
    | none =>
      rw [captured] at landed
      simpa using landed.count_plain arrives away left
    | some s =>
      obtain ⟨rfl, beside, clear, pawn⟩ := judged.casualty captured
      rw [captured] at landed
      simpa using landed.count_passing arrives away left beside clear pawn
  | some columns =>
    obtain ⟨a, b⟩ := columns
    obtain ⟨cc, castling, rfl, empty, captured⟩ := judged.castling ok rook
    rw [rook, captured] at landed
    have passing := castling.passing_empty home mine.onS mine.onT
    simpa [empty, captured] using landed.count_castled arrives mine castling passing empty

/-- A scribble keeps the occupied squares. -/
theorem Scribbled.men {g after : Game} (scribbled : Scribbled g after) : men after = men g := by
  ext s
  simp [scribbled.empty_iff]

/-- What a call does to the clock, the number of pieces and the counters of the pieces. -/
theorem Made.count {g : Game} {m : Move} {code : Int} {after : Game} (sound : Sound g)
    (made : Made g m code after) :
    (¬ Accepted code ∧ after.duration = g.duration ∧ (men after).card = (men g).card ∧
      after.lastBigMove = g.lastBigMove) ∨
    (Accepted code ∧ after.duration = g.duration + 1 ∧ (men after).Nonempty ∧
      (((men after).card + 1 = (men g).card ∧ after.lastBigMove = g.duration + 1) ∨
        ((men after).card = (men g).card ∧ after.lastBigMove = g.lastBigMove))) := by
  rcases made.effect sound with
    ⟨refused, scribbled⟩ | ⟨accepted, v, landing, judged, ok, rfl, landed, -, scribbled⟩
  · exact Or.inl ⟨refused, scribbled.duration, by rw [scribbled.men], scribbled.big⟩
  have count := judged.count sound.home ok
  have big := landed.big
  have there : (m.rF, m.cF) ∈ men (v.apply m) := by
    rw [mem_men, landed.target]
    exact judged.arrival_full ok
  refine Or.inr ⟨accepted, scribbled.duration.trans landed.duration, ?_, ?_⟩
  · rw [scribbled.men]
    exact ⟨_, there⟩
  · rw [scribbled.men, scribbled.big]
    by_cases taken : (g.get m.rF m.cF).type ≠ .empty ∨ v.captured ≠ none
    · rw [if_pos taken] at count big
      exact Or.inl ⟨count, big⟩
    · rw [if_neg taken] at count big
      exact Or.inr ⟨count, big⟩

/-- No piece moves more than once in a turn. -/
theorem Made.moves_le {g : Game} {m : Move} {code : Int} {after : Game} {k : Int} (sound : Sound g)
    (made : Made g m code after) (few : ∀ r c, (g.get r c).moves ≤ g.duration + k) (r c : Int) :
    (after.get r c).moves ≤ after.duration + k := by
  rcases made.effect sound with
    ⟨-, scribbled⟩ | ⟨-, v, landing, judged, ok, -, landed, -, scribbled⟩
  · rw [scribbled.moves, scribbled.duration]
    exact few r c
  rw [scribbled.moves, scribbled.duration, landed.duration]
  rcases landed.square r c with ⟨rfl, rfl⟩ | ⟨a, columns, rfl⟩ | emptied | kept
  · rw [landed.target]
    have := few m.rI m.cI
    dsimp only
    omega
  · rw [landed.rookTarget a c columns]
    have := few m.rI a
    dsimp only
    omega
  · rw [emptied]
    have := few r c
    dsimp only
    omega
  · rw [kept]
    have := few r c
    omega

/-- The game is over. -/
def Ended (code : Int) : Prop := code = whiteWin ∨ code = blackWin ∨ code = forcedDraw

instance (code : Int) : Decidable (Ended code) := inferInstanceAs (Decidable (_ ∨ _))

/-- A code that is not negative reports no end. -/
theorem not_ended_of_nonneg {code : Int} (nonneg : 0 ≤ code) : ¬ Ended code := by
  unfold Ended whiteWin blackWin forcedDraw
  omega

/-- An accepted move that does not end the game leaves time on the clock. -/
theorem Made.clock {g : Game} {m : Move} {code : Int} {after : Game}
    (made : Made g m code after) (accepted : Accepted code) (running : ¬ Ended code) :
    after.duration - after.lastBigMove < 150 := by
  cases made with
  | refused tried rejected => exact absurd rejected (not_or.mpr accepted)
  | expired | stalemated => exact absurd (by decide) running
  | offered tried clock early => exact early
  | continued tried clock can => omega
  | mated =>
    refine absurd ?_ running
    split <;> decide

/-- The number of calls that were accepted. -/
def accepted (calls : List (Move × Int)) : Nat := calls.countP fun call => Accepted call.2

/-- One more call. -/
theorem accepted_step (calls : List (Move × Int)) (m : Move) (code : Int) :
    accepted (calls ++ [(m, code)]) = accepted calls + if Accepted code then 1 else 0 := by
  simp [accepted, List.countP_append, List.countP_singleton]

/-- The counters of a game that has not ended, after some accepted calls. -/
structure Clocked (turns : Nat) (g : Game) : Prop where
  /-- Every accepted call is a turn. -/
  duration : g.duration = turns
  /-- The last big move lies in the past. -/
  big : 0 ≤ g.lastBigMove ∧ g.lastBigMove ≤ g.duration
  /-- The game is not drawn by the clock. -/
  running : g.duration - g.lastBigMove < 150
  /-- Every piece taken winds the clock back by less than a full turn of it. -/
  budget : g.lastBigMove + 150 * (men g).card ≤ 150 * 32
  /-- Some piece is left. -/
  left : 1 ≤ (men g).card
  /-- No piece moves more than once in a turn. -/
  moves : ∀ r c, (g.get r c).moves ≤ g.duration

/-- The clock of a game that has not ended stays below a bound. -/
theorem Clocked.bound {turns : Nat} {g : Game} (clocked : Clocked turns g) :
    g.duration < 4800 := by
  have := clocked.running
  have := clocked.budget
  have := clocked.left
  omega

/-- A new game has thirty-two pieces. -/
theorem newGame_men (memory : Game) : (men (newGame memory)).card = 32 := by
  have same : men (newGame memory) = men (newGame blank) := by
    ext ⟨r, c⟩
    rw [mem_men, mem_men]
    by_cases on : OnBoard r c
    · obtain ⟨i, j, rfl, rfl⟩ := on.exists_fin
      rw [newGame_get, newGame_get]
    · rw [Game.get_off on, Game.get_off on]
  rw [same]
  decide +kernel

/-- A new game starts its clock. -/
theorem newGame_clocked (memory : Game) : Clocked 0 (newGame memory) := by
  have count := newGame_men memory
  have duration : (newGame memory).duration = 0 := rfl
  have big : (newGame memory).lastBigMove = 0 := rfl
  refine ⟨rfl, ⟨le_rfl, le_rfl⟩, by omega, by omega, by omega, ?_⟩
  intro r c
  by_cases on : OnBoard r c
  · obtain ⟨i, j, rfl, rfl⟩ := on.exists_fin
    rw [newGame_get]
    exact le_rfl
  · rw [Game.get_off on]
    exact le_rfl

/-- A call that does not end the game keeps its counters in bounds. -/
theorem Clocked.step {turns : Nat} {g : Game} {m : Move} {code : Int} {after : Game}
    (sound : Sound g) (clocked : Clocked turns g) (made : Made g m code after)
    (running : ¬ Ended code) : Clocked (turns + if Accepted code then 1 else 0) after := by
  obtain ⟨duration, big, clock, budget, left, moves⟩ := clocked
  have moves' := made.moves_le (k := 0) sound (by simpa only [add_zero] using moves)
  simp only [add_zero] at moves'
  rcases made.count sound with
    ⟨refused, time, count, kept⟩ | ⟨played, time, nonempty, changed⟩
  · rw [if_neg refused]
    exact ⟨by omega, by omega, by omega, by omega, by omega, moves'⟩
  · have early := made.clock played running
    have left' := nonempty.card_pos
    rw [if_pos played]
    refine ⟨by push_cast; omega, ?_, early, ?_, left', moves'⟩ <;>
      rcases changed with ⟨count, marked⟩ | ⟨count, kept⟩ <;> omega

/-- Along a run that has not ended the counters stay in bounds. -/
theorem Run.clocked {memory g : Game} {calls : List (Move × Int)}
    (run : Run (newGame memory) calls g) (running : ∀ call ∈ calls, ¬ Ended call.2) :
    Clocked (accepted calls) g := by
  induction run with
  | start => exact newGame_clocked memory
  | step run returns ih =>
    have sound := run.sound (newGame_sound memory)
    rw [accepted_step]
    exact (ih fun call mem => running call (List.mem_append_left _ mem)).step sound
      (returns.made sound) (running _ (List.mem_append_right _ List.mem_cons_self))

/-- A game that has not ended is short, its counters count, and every further call takes
off the board at most the one piece whose capture it records. -/
theorem Run.counters_bounded {memory g : Game} {calls : List (Move × Int)}
    (run : Run (newGame memory) calls g) (running : ∀ call ∈ calls, ¬ Ended call.2) :
    accepted calls < 4800 ∧ g.duration = accepted calls ∧
      0 ≤ g.lastBigMove ∧ g.lastBigMove ≤ g.duration ∧ g.duration < 4800 ∧
      (∀ r c, (g.get r c).moves ≤ g.duration) ∧
      ∀ m code after, Returns g m code after →
        (men after).card ≤ (men g).card ∧
        ((men after).card < (men g).card ↔
          Accepted code ∧ after.lastBigMove = after.duration) ∧
        ((men after).card < (men g).card → (men after).card + 1 = (men g).card) := by
  have clocked := run.clocked running
  have sound := run.sound (newGame_sound memory)
  have bound := clocked.bound
  have duration := clocked.duration
  refine ⟨by omega, duration, clocked.big.1, clocked.big.2, bound, clocked.moves, ?_⟩
  intro m code after returns
  have past := clocked.big.2
  rcases (returns.made sound).count sound with
    ⟨refused, -, count, -⟩ | ⟨played, time, -, ⟨count, marked⟩ | ⟨count, kept⟩⟩
  · exact ⟨by omega, ⟨by omega, fun h => absurd h.1 refused⟩, by omega⟩
  · exact ⟨by omega, ⟨fun _ => ⟨played, by omega⟩, by omega⟩, fun _ => count⟩
  · exact ⟨by omega, ⟨by omega, fun h => by omega⟩, by omega⟩

/-- The bounds after a pawn took a pawn. -/
theorem counters_bounded_capture :
    let moves : List Move :=
      [⟨6, 4, 4, 4, .empty⟩, ⟨1, 3, 3, 3, .empty⟩, ⟨4, 4, 3, 3, .empty⟩, ⟨6, 0, 5, 0, .empty⟩]
    (replay (newGame blank) moves).1.map Prod.snd = [0, 0, 0, illegalMove] ∧
      (replay (newGame blank) moves).2.lastBigMove = 3 ∧
      (replay (newGame blank) moves).2.duration < 4800 := by
  intro moves
  have bounds := Run.counters_bounded (Run.start.replayed (newGame_sound blank) moves)
    (by decide +kernel)
  exact ⟨by decide +kernel, by decide +kernel, bounds.2.2.2.2.1⟩

end Chessh
