import Chessh.Rules.Game

/-!
# Contests

A game as an umpire follows it: the position, and how many moves have been made since a man was
taken. After a hundred of them a draw is offered and after a hundred and fifty the game is drawn;
before that, a side that has no move has lost when it is in check and has drawn when it is not.
-/

namespace Rules

/-- How a contest stands after a move. -/
inductive Outcome
  | goesOn
  /-- It goes on, and a draw is offered. -/
  | offer
  | draw
  | win (side : Side)
  deriving DecidableEq, Repr

/-- The contest is over. -/
def Outcome.Over (outcome : Outcome) : Prop := outcome ≠ .goesOn ∧ outcome ≠ .offer

/-- A position, and the number of moves since the last capture. -/
structure Contest where
  /-- The position. -/
  pos : Position
  /-- The moves since a man was taken. -/
  quiet : Nat

/-- What an umpire says to a move. -/
inductive Answer
  | illegal
  /-- The move is one of a pawn that reaches its last row and does not say what it becomes. Whether
  its king would be safe is not asked before it does. -/
  | unnamed
  | played (outcome : Outcome)
  deriving DecidableEq, Repr

/-- The move takes a pawn to its last row by the rules of its steps, and does not say what it
becomes. Whether it would leave its king in check is left open: of a pinned pawn such a move is
legal with no name. -/
def Position.Unnamed (pos : Position) (m : Ply) : Prop :=
  Inside m.source ∧ Inside m.target ∧ pos.PawnMove m ∧ m.target.1 = pos.turn.lastRow ∧
    ¬ pos.Promotion m ∧ pos.Pseudo { m with promotion := some .queen }

/-- The move says what a pawn becomes only where a pawn reaches its last row. -/
def Position.Spells (pos : Position) (m : Ply) : Prop :=
  m.promotion ≠ none → pos.PawnMove m ∧ m.target.1 = pos.turn.lastRow

/-- Every move is legal, and says no more than it must. -/
def Position.Written : Position → List Ply → Prop
  | _, [] => True
  | pos, m :: rest => pos.Legal m ∧ pos.Spells m ∧ (pos.play m).Written rest

namespace Contest

/-- The contest from the starting position. -/
def start : Contest := ⟨initial, 0⟩

/-- The contest after a move. -/
def play (c : Contest) (m : Ply) : Contest :=
  ⟨c.pos.play m, if c.pos.Captures m then 0 else c.quiet + 1⟩

/-- The contest after a sequence of moves. -/
def plays (c : Contest) (moves : List Ply) : Contest := moves.foldl play c

open Classical in
/-- How the contest stands. -/
noncomputable def outcome (c : Contest) : Outcome :=
  if 150 ≤ c.quiet then .draw
  else if 100 ≤ c.quiet then .offer
  else if ¬ c.pos.Stuck then .goesOn
  else if InCheck c.pos.board c.pos.turn then .win c.pos.turn.other
  else .draw

open Classical in
/-- What the umpire says to a move. -/
noncomputable def answer (c : Contest) (m : Ply) : Answer :=
  if c.pos.Legal m then .played (c.play m).outcome
  else if c.pos.Unnamed m then .unnamed
  else .illegal

open Classical in
/-- The contest after a move has been named: an illegal one is not made. -/
noncomputable def hear (c : Contest) (m : Ply) : Contest := if c.pos.Legal m then c.play m else c

/-- The contest after a sequence of moves has been named. -/
noncomputable def hears (c : Contest) (moves : List Ply) : Contest := moves.foldl hear c

/-- Every move is legal, and the contest goes on after each. -/
def Survives : Contest → List Ply → Prop
  | _, [] => True
  | c, m :: rest => c.pos.Legal m ∧ ¬ (c.play m).outcome.Over ∧ (c.play m).Survives rest

/-- Every move is legal and says no more than it must, and the contest goes on after each but the
last. -/
def Lasts : Contest → List Ply → Prop
  | _, [] => True
  | c, m :: rest => c.pos.Legal m ∧ c.pos.Spells m ∧
      (rest = [] ∨ (¬ (c.play m).outcome.Over ∧ (c.play m).Lasts rest))

/-! ## Sequences -/

variable {c : Contest}

/-- Sequences of moves are made one after the other. -/
theorem plays_append (c : Contest) (first second : List Ply) :
    c.plays (first ++ second) = (c.plays first).plays second :=
  List.foldl_append

/-- One more move is named. -/
theorem hears_concat (c : Contest) (moves : List Ply) (m : Ply) :
    c.hears (moves ++ [m]) = (c.hears moves).hear m := by
  rw [hears, List.foldl_append]
  rfl

/-- A sequence survives when its first part does and the rest does from there. -/
theorem survives_append {first second : List Ply} :
    c.Survives (first ++ second) ↔ c.Survives first ∧ (c.plays first).Survives second := by
  induction first generalizing c with
  | nil => simp [Survives, plays]
  | cons m rest ih =>
    rw [List.cons_append, Survives, Survives, ih, and_assoc, and_assoc]
    rfl

/-- One more move survives when it is legal and does not end the contest. -/
theorem survives_concat {moves : List Ply} {m : Ply} :
    c.Survives (moves ++ [m]) ↔ c.Survives moves ∧
      (c.plays moves).pos.Legal m ∧ ¬ ((c.plays moves).play m).outcome.Over := by
  rw [survives_append]
  simp [Survives]

/-- The moves of a contest are those of a game. -/
theorem Survives.lawful {moves : List Ply} (survives : c.Survives moves) : c.pos.Lawful moves := by
  induction moves generalizing c with
  | nil => exact trivial
  | cons m rest ih => exact ⟨survives.1, ih survives.2.2⟩

/-- A contest that is over before the clock runs out has no move left. -/
theorem stuck_of_over (early : c.quiet < 100) (over_ : c.outcome.Over) : c.pos.Stuck := by
  by_contra moves
  refine over_.1 ?_
  unfold outcome
  rw [if_neg (by omega), if_neg (by omega), if_pos moves]

/-- A contest is over when the clock has run out, or before a hundred moves when no move is left. -/
theorem over_iff : c.outcome.Over ↔ 150 ≤ c.quiet ∨ (c.quiet < 100 ∧ c.pos.Stuck) := by
  constructor
  · intro over_
    by_cases late : 150 ≤ c.quiet
    · exact Or.inl late
    by_cases offered : 100 ≤ c.quiet
    · refine absurd ?_ over_.2
      unfold outcome
      rw [if_neg late, if_pos offered]
    · exact Or.inr ⟨by omega, stuck_of_over (by omega) over_⟩
  · unfold outcome
    rintro (late | ⟨early, stuck⟩)
    · rw [if_pos late]
      exact ⟨nofun, nofun⟩
    · rw [if_neg (by omega), if_neg (by omega), if_neg (not_not.mpr stuck)]
      split <;> exact ⟨nofun, nofun⟩

/-- As long as the clock cannot run out before the last move, the sequences of a contest are those
of its position: where a contest is over no move is left. -/
theorem lasts_iff {moves : List Ply} (short : c.quiet + moves.length ≤ 150) :
    c.Lasts moves ↔ c.pos.Written moves := by
  induction moves generalizing c with
  | nil => exact Iff.rfl
  | cons m rest ih =>
    rw [List.length_cons] at short
    have clock : (c.play m).quiet ≤ c.quiet + 1 := by
      unfold play
      dsimp only
      split <;> omega
    rw [Lasts, Position.Written, ih (by omega)]
    refine and_congr_right fun _ => and_congr_right fun _ => ?_
    cases rest with
    | nil => exact iff_of_true (Or.inl rfl) trivial
    | cons next rest =>
      constructor
      · exact fun goes => (goes.resolve_left (List.cons_ne_nil _ _)).2
      · intro written
        refine Or.inr ⟨fun over_ => ?_, written⟩
        rcases over_iff.mp over_ with late | ⟨-, stuck⟩
        · rw [List.length_cons] at short
          omega
        · exact stuck next written.1

end Contest
end Rules
