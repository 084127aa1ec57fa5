import Chessh.Client.Api

/-!
# Scratch copies

`make_move_dryrun` and `move_is_valid` run a function that writes to its game on a copy in their
own frame. Here the games lie in memory and the functions take pointers to them, as in the source.
Each function returns what its namesake on values returns, and the games it was given are as they
were.
-/

namespace Chessh

/-- The games in memory; a `struct game *` is the index of one of them. -/
abbrev Games := List Game

section Memory

variable {α β : Type}

/-- A call that writes to the game it is given. -/
def through (f : Game → Option (α × Game)) (p : Nat) (games : Games) : Option (α × Games) :=
  games[p]?.bind fun g => (f g).map fun (result, after) => (result, games.set p after)

/-- `struct game scratch; memcpy(&scratch, game, sizeof scratch)`, a call that is given the copy,
and the return that gives up the frame. -/
def onScratch (f : Nat → Games → Option (α × Games)) (p : Nat) (games : Games) :
    Option (α × Games) :=
  games[p]?.bind fun g =>
    (f games.length (games ++ [g])).map fun (result, after) => (result, after.dropLast)

/-- A loop that returns at its first success. -/
def searchAt (trial : β → Games → Option (Bool × Games)) : List β → Games → Option (Bool × Games)
  | [], games => some (false, games)
  | b :: rest, games =>
    (trial b games).bind fun (found, games) =>
      if found then some (true, games) else searchAt trial rest games

variable {games : Games} {p : Nat} {g : Game}

/-- A call on a scratch copy writes nothing that is left when it returns. -/
theorem onScratch_through (here : games[p]? = some g) (f : Game → Option (α × Game)) :
    onScratch (through f) p games = (f g).map fun result => (result.1, games) := by
  have copy : (games ++ [g])[games.length]? = some g := by simp
  rw [onScratch, here, Option.bind_some, through, copy, Option.bind_some, Option.map_map]
  congr 1
  funext result
  have dropped : ((games ++ [g]).set games.length result.2).dropLast = games := by
    rw [List.set_append_right _ _ le_rfl, Nat.sub_self, List.set_cons_zero, List.dropLast_concat]
  exact congrArg (Prod.mk result.1) dropped

/-- A search whose trials leave the games alone leaves them alone. -/
theorem searchAt_eq {trial : β → Games → Option (Bool × Games)} {answer : β → Option Bool}
    (kept : ∀ b, trial b games = (answer b).map fun found => (found, games)) (list : List β) :
    searchAt trial list games = (list.anyM answer).map fun found => (found, games) := by
  induction list with
  | nil => rfl
  | cons b rest ih =>
    rw [searchAt, kept, List.anyM_cons]
    cases answer b with
    | none => rfl
    | some found =>
      cases found with
      | true => rfl
      | false => exact ih

end Memory

/-! ## The callers of `make_move_no_checkmate` -/

/-- `make_move_dryrun`. -/
def makeMoveDryrunAt (depth : Nat) (m : Move) : Nat → Games → Option (Int × Games) :=
  onScratch (through fun g => makeMoveNoCheckmate depth g m)

/-- `piece_can_move`. -/
def pieceCanMoveAt (depth : Nat) (p : Nat) (row col : Int) : Games → Option (Bool × Games) :=
  searchAt (fun s games =>
    (makeMoveDryrunAt depth ⟨row, col, s.1, s.2, .queen⟩ p games).map fun (code, games) =>
      (decide (0 ≤ code), games)) squares

/-- `can_make_move`. -/
def canMakeMoveAt (depth : Nat) (p : Nat) (player : Player) : Games → Option (Bool × Games) :=
  searchAt (fun s games => games[p]?.bind fun g =>
    if (g.get s.1 s.2).type = .empty ∨ (g.get s.1 s.2).player ≠ player then some (false, games)
    else pieceCanMoveAt depth p s.1 s.2 games) squares

/-! ## The callers of `make_move` -/

/-- `move_is_valid`. -/
def moveIsValidAt (depth : Nat) (m : Move) (p : Nat) (games : Games) : Option (Bool × Games) :=
  (onScratch (through fun g => makeMove depth g m) p games).map fun (code, games) =>
    (decide (code ≠ illegalMove), games)

/-- The loop body of `count_valid_moves`. -/
def collectMovesAt (depth : Nat) (p : Nat) (buffSize : Nat) :
    List Move → List Move → Games → Option (List Move × Games)
  | [], found, games => some (found, games)
  | m :: rest, found, games =>
    (moveIsValidAt depth m p games).bind fun (valid, games) =>
      if valid then
        if buffSize ≤ found.length * 2 then some (found, games)
        else collectMovesAt depth p buffSize rest (found ++ [m]) games
      else collectMovesAt depth p buffSize rest found games

/-- `count_valid_moves`. -/
def countValidMovesAt (depth : Nat) (p : Nat) (promotion : PieceType) (buffSize : Nat) :
    Games → Option (List Move × Games) :=
  collectMovesAt depth p buffSize (allMoves promotion) []

section Unchanged

variable {games : Games} {p : Nat} {g : Game} (here : games[p]? = some g) (depth : Nat)
include here

/-- `piece_can_move` leaves the games alone. -/
theorem pieceCanMoveAt_eq (row col : Int) :
    pieceCanMoveAt depth p row col games =
      (pieceCanMove depth g row col).map fun found => (found, games) := by
  refine searchAt_eq (fun s => ?_) squares
  rw [makeMoveDryrunAt, onScratch_through here, Option.map_map, Option.map_map]
  rfl

/-- `can_make_move` leaves the games alone. -/
theorem canMakeMoveAt_eq (player : Player) :
    canMakeMoveAt depth p player games =
      (canMakeMove depth g player).map fun found => (found, games) := by
  refine searchAt_eq (fun s => ?_) squares
  rw [here, Option.bind_some]
  dsimp only
  split
  · rfl
  · exact pieceCanMoveAt_eq here depth _ _

/-- `move_is_valid` leaves the games alone. -/
theorem moveIsValidAt_eq (m : Move) :
    moveIsValidAt depth m p games = (moveIsValid depth g m).map fun valid => (valid, games) := by
  rw [moveIsValidAt, moveIsValid, onScratch_through here, Option.map_map, Option.map_map]
  rfl

/-- `count_valid_moves` leaves the games alone. -/
theorem countValidMovesAt_eq (promotion : PieceType) (buffSize : Nat) :
    countValidMovesAt depth p promotion buffSize games =
      (countValidMoves depth g promotion buffSize).map fun list => (list, games) := by
  have loop : ∀ rest found, collectMovesAt depth p buffSize rest found games =
      (collectMoves depth g buffSize rest found).map fun list => (list, games) := by
    intro rest
    induction rest with
    | nil => intro found; rfl
    | cons m rest ih =>
      intro found
      rw [collectMovesAt, collectMoves, moveIsValidAt_eq here]
      cases moveIsValid depth g m with
      | none => rfl
      | some valid =>
        simp only [Option.map_some, Option.bind_some]
        split
        · split
          · rfl
          · exact ih _
        · exact ih _
  exact loop (allMoves promotion) []

end Unchanged

end Chessh
