import Chessh.Client.Fen
import Chessh.Client.Scratch

/-!
# Counting positions

`perft.c`. The games lie in memory, and the start of a game comes as text. An access to a text or to
the token buffer is checked; the indices used on `results` are noted, whether they are in the array
or not.
-/

namespace Chessh

/-- What ends a call before it returns. -/
inductive Stop
  /-- An access outside of an array or of a text. -/
  | outside
  /-- A bound on turns or on the nesting of attack tests. -/
  | exhausted
  /-- An `int` that overflows. -/
  | overflow
  /-- `exit(EXIT_FAILURE)`. -/
  | exited
  deriving DecidableEq, Repr

/-- The result of a call, or why there is none. -/
def orStop {α : Type} (stop : Stop) : Option α → Except Stop α
  | some a => .ok a
  | none => .error stop

/-! ## `run_sequence` -/

/-- `sequence[i]`. The terminating NUL is the last character that is there. -/
def charAt (sequence : List Char) (i : Nat) : Except Stop Char :=
  if i ≤ sequence.length then .ok (sequence.getD i nul) else .error .outside

/-- `char buff[10]`. -/
abbrev TokenBuff := Vector Char 10

/-- `buff[j] = ch`. -/
def TokenBuff.store (buff : TokenBuff) (j : Nat) (ch : Char) : Except Stop TokenBuff :=
  if inside : j < 10 then .ok (buff.set j ch inside) else .error .outside

/-- The text that starts the buffer, which must end there. -/
def TokenBuff.text (buff : TokenBuff) : Except Stop (List Char) :=
  if nul ∈ buff.toList then .ok (cString buff.toList) else .error .outside

/-- The inner loop, for at most the given number of turns: the final `j` and the buffer. -/
def copyToken (sequence : List Char) (i : Nat) : Nat → Nat → TokenBuff →
    Except Stop (Nat × TokenBuff)
  | 0, _, _ => .error .exhausted
  | turns + 1, j, buff => do
    let ch ← charAt sequence (i + j)
    if ch ≠ ' ' ∧ ch ≠ nul ∧ j < 10 - 1 then
      let buff ← buff.store j ch
      copyToken sequence i turns (j + 1) buff
    else .ok (j, buff)

/-- The outer loop, for at most the given number of turns. `memory` is what the buffer holds before
it is filled. -/
def runSequenceLoop (depth : Nat) (memory : Nat → TokenBuff) (sequence : List Char) :
    Nat → Nat → Game → Except Stop (Int × Game)
  | 0, _, _ => .error .exhausted
  | turns + 1, i, g => do
    let ch ← charAt sequence i
    if ch = nul then .ok (0, g)
    else
      let (j, buff) ← copyToken sequence i 10 0 (memory i)
      let buff ← buff.store j nul
      let text ← buff.text
      match parseMove text with
      | none => .ok (1, g)
      | some m => do
        let (code, g) ← orStop .exhausted (makeMove depth g m)
        if code < 0 then .ok (1, g)
        else
          let ch ← charAt sequence (i + j)
          if ch = nul then .ok (0, g) else runSequenceLoop depth memory sequence turns (i + j + 1) g

/-- `run_sequence`. -/
def runSequence (depth : Nat) (memory : Nat → TokenBuff) (g : Game) (sequence : List Char) :
    Except Stop (Int × Game) :=
  runSequenceLoop depth memory sequence (sequence.length + 1) 0 g

/-! ## `calculate_perft` and `add_node` -/

/-- What is written to standard output, and the two texts on standard error. -/
inductive Printed
  /-- The line of `print_move`. -/
  | move (fileI : Char) (rankI : Int) (fileF : Char) (rankF : Int) (diff : UInt64)
  /-- `putchar('\n')`. -/
  | newline
  /-- A count on a line. -/
  | count (n : UInt64)
  /-- A text on standard error. -/
  | error (text : String)
  deriving DecidableEq, Repr

/-- The counters, and what perft has done so far. -/
structure Perft where
  /-- The memory from `results` on. -/
  results : Int → UInt64
  /-- The indices used on `results`. -/
  used : List Int
  /-- What has been printed. -/
  output : List Printed

namespace Perft

/-- The counters are zeroed. -/
def zero : Perft := ⟨fun _ => 0, [], []⟩

/-- `results[i]` is read: its value is that of `results`. -/
def touch (perft : Perft) (i : Int) : Perft := { perft with used := perft.used ++ [i] }

/-- `++results[i]`. -/
def bump (perft : Perft) (i : Int) : Perft :=
  { perft with
    results := Function.update perft.results i (perft.results i + 1)
    used := perft.used ++ [i] }

/-- Something is printed. -/
def print (perft : Perft) (printed : Printed) : Perft :=
  { perft with output := perft.output ++ [printed] }

end Perft

/-- `print_move`. -/
def printMove (m : Move) (diff : UInt64) : Printed :=
  .move (toChar (m.cI + ofChar 'a')) (8 - m.rI) (toChar (m.cF + ofChar 'a')) (8 - m.rF) diff

/-- `struct game backup; memcpy(&backup, game, sizeof backup)`, what is done with the copy, and the
return that gives up the frame. -/
def onBackup {α : Type} (p : Nat) (games : Games) (f : Nat → Games → Except Stop (α × Games)) :
    Except Stop (α × Games) := do
  let g ← orStop .outside games[p]?
  let (result, games) ← f games.length (games ++ [g])
  .ok (result, games.dropLast)

/-- `make_move(game, &move)`. -/
def makeMoveAt (depth p : Nat) (m : Move) (games : Games) : Except Stop (Int × Games) := do
  let g ← orStop .outside games[p]?
  let (code, g) ← orStop .exhausted (makeMove depth g m)
  .ok (code, games.set p g)

/-- The promotions that are tried in turn. -/
def promotions : List PieceType := [.rook, .knight, .bishop, .queen]

mutual

/-- `calculate_perft`. `parent` has the four coordinates `r_pi`, `c_pi`, `r_pf` and `c_pf`. -/
def calculatePerft (depth : Nat) (autotest : Bool) (maxDepth : Int) :
    Nat → Nat → Int → Move → Perft → Games → Except Stop (Perft × Games)
  | 0, _, _, _, _, _ => .error .exhausted
  | fuel + 1, p, currDepth, parent, perft, games =>
    if currDepth ≥ maxDepth then .ok (perft, games)
    else do
      let divides := autotest ∧ currDepth = 1
      let oldDepth := if divides then perft.results (maxDepth - 1) else 0
      let perft := if divides then perft.touch (maxDepth - 1) else perft
      let perft := perft.bump currDepth
      let (perft, games) ← (allMoves .empty).foldlM (fun (state : Perft × Games) m =>
        addNode depth autotest maxDepth fuel p currDepth m state.1 state.2) (perft, games)
      if divides then
        let diff := perft.results (maxDepth - 1) - oldDepth
        let perft := perft.touch (maxDepth - 1)
        if diff = 0 then .ok (perft, games)
        else .ok (perft.print (printMove parent diff), games)
      else .ok (perft, games)

/-- `add_node`. -/
def addNode (depth : Nat) (autotest : Bool) (maxDepth : Int) :
    Nat → Nat → Int → Move → Perft → Games → Except Stop (Perft × Games)
  | 0, _, _, _, _, _ => .error .exhausted
  | fuel + 1, p, currDepth, m, perft, games =>
    onBackup p games fun backup games => do
      let (code, games) ← makeMoveAt depth backup m games
      if code = illegalMove then .ok (perft, games)
      else if code = blackWin ∨ code = whiteWin ∨ code = forcedDraw then
        .ok (perft.bump (currDepth + 1), games)
      else if code = missingPromotion then
        if m.promotion ≠ .empty then .error .exited
        else
          promotions.foldlM (fun (state : Perft × Games) t =>
            addNode depth autotest maxDepth fuel backup currDepth { m with promotion := t }
              state.1 state.2) (perft, games)
      else calculatePerft depth autotest maxDepth fuel backup (currDepth + 1) m perft games

end

/-! ## `run_perft` -/

/-- The arguments of `run_perft`. -/
structure PerftArgs where
  level : Int
  startPos : Option (List Char)
  startSequence : Option (List Char)
  autotest : Bool

/-- The game `run_perft` starts from, or the code with which it returns before it has counted, and
what it prints then. -/
def startGame (depth : Nat) (memory : Game) (buff : Nat → TokenBuff) (args : PerftArgs) :
    Except Stop (Except (Int × List Printed) Game) := do
  let (code, g) ← match args.startPos with
    | some startPos => orStop .overflow (initGame (newGame memory) startPos)
    | none => .ok (0, newGame memory)
  if code ≠ 0 then .ok (.error (1, [.error "Failed to initialize game\n"]))
  else
    match args.startSequence with
    | some startSequence => do
      let (code, g) ← runSequence depth buff g startSequence
      if code ≠ 0 then .ok (.error (code, [])) else .ok (.ok g)
    | none => .ok (.ok g)

/-- The counts that are printed at the end. -/
def printResults (args : PerftArgs) (perft : Perft) : Perft :=
  if !args.autotest then
    (List.range args.level.toNat).foldl
      (fun (perft : Perft) (i : Nat) => (perft.touch i).print (.count (perft.results i))) perft
  else
    let perft := perft.print .newline
    (perft.touch (args.level - 1)).print (.count (perft.results (args.level - 1)))

/-- `run_perft`, with memory for the game and for the token buffer: what it returns and the counters
it leaves. Every allocation succeeds. -/
def runPerft (depth fuel : Nat) (memory : Game) (buff : Nat → TokenBuff) (args : PerftArgs) :
    Except Stop (Int × Perft) := do
  match ← startGame depth memory buff args with
  | .error (code, printed) => .ok (code, { Perft.zero with output := printed })
  | .ok g =>
    let (perft, _) ← calculatePerft depth args.autotest args.level fuel 0 0 ⟨0, 0, 0, 0, .empty⟩
      Perft.zero [g]
    .ok (0, printResults args perft)

end Chessh
