import Chessh.Client.Fen

/-!
# What `init_game` reads, writes and returns

The accesses of `init_game` to the board and to the text, in order, beside each function of
`Fen.lean`, and the code it returns. A number that does not fit an `int` overflows in
`parse_int`, and the call goes on with whatever it is then: `Overflow` is that number. The
accesses end with the call or with a character that is not there.
-/

namespace Chessh

/-- An access to memory. -/
inductive Access
  /-- An element of the board. -/
  | square (r c : Int)
  /-- A character of the text, by the number of characters from there to the terminating NUL. -/
  | char (left : Int)
  deriving DecidableEq, Repr

/-- The access stays inside its array. -/
def Access.Fine : Access → Prop
  | square r c => OnBoard r c
  | char left => 0 ≤ left

instance (a : Access) : Decidable a.Fine := by
  cases a
  · exact inferInstanceAs (Decidable (OnBoard _ _))
  · exact inferInstanceAs (Decidable (0 ≤ _))

/-- What `parse_int` returns for the digits at the head of a text. Where a sum overflows, C leaves
open what that is. -/
structure Overflow where
  /-- The number. -/
  number : List Char → Int
  /-- It is an `int`. -/
  range : ∀ s, -(intMax : Int) - 1 ≤ number s ∧ number s ≤ intMax
  /-- Where no sum overflows it is the one of the loop. -/
  exact : ∀ s n rest, digitLoop 0 s = some (n, rest) → number s = n

/-- `parse_int`, overflows included: the number and the text behind it, or minus one. -/
def Overflow.parseInt (o : Overflow) (s : List Char) : Int × List Char :=
  if s.head?.any Char.isDigit then (o.number s, s.dropWhile Char.isDigit) else (-1, s)

/-! ## Accesses -/

/-- The loop for a digit. -/
def clearRunAccesses : Nat → Int → Int → List Access
  | 0, _, _ => []
  | run + 1, r, c => if 8 ≤ c then [] else .square r c :: clearRunAccesses run r (c + 1)

/-- The first loop of `init_game`. -/
def loadBoardAccesses : List Char → Game → Int → Int → List Access
  | [], _, _, _ => [.char 0]
  | ch :: rest, g, r, c =>
    .char (rest.length + 1) ::
      if ch = ' ' then []
      else if ch = '/' then
        if c ≠ 8 then [] else loadBoardAccesses rest g (r + 1) 0
      else
        match letterType ch.toLower with
        | some t => .square r c :: loadBoardAccesses rest (loadPiece g r c ch t) r (c + 1)
        | none =>
          if ch.isDigit then
            clearRunAccesses (digitValue ch) r c ++
              match clearRun (digitValue ch) g r c with
              | (_, none) => []
              | (g, some c) => loadBoardAccesses rest g r c
          else []

/-- The loop over the castling rights, one letter at a time. -/
def loadRightsAccesses : List Char → Game → List Access
  | [], _ => [.char 0]
  | ch :: rest, g =>
    let castle (r c : Int) (p : Player) : List Access :=
      .square r c :: (rookCastle g r c p).elim [] (loadRightsAccesses rest)
    .char (rest.length + 1) ::
      match ch with
      | 'K' => castle 7 7 .white
      | 'Q' => castle 7 0 .white
      | 'k' => castle 0 7 .black
      | 'q' => castle 0 0 .black
      | '-' => [.char rest.length]
      | _ => []

/-- The loop of `parse_int`. -/
def digitLoopAccesses : List Char → List Access
  | [] => [.char 0]
  | ch :: rest => .char (rest.length + 1) :: if ch.isDigit then digitLoopAccesses rest else []

/-- `parse_int`. -/
def parseIntAccesses (s : List Char) : List Access :=
  .char s.length :: if s.head?.any Char.isDigit then digitLoopAccesses s else []

/-- What follows the label `got_clock`. -/
def setClockAccesses (r c : Int) (rest : List Char) : List Access :=
  [.square r c, .char rest.length]

/-- The full-move number. -/
def loadFullAccesses (o : Overflow) (r c : Int) (state : List Char) : List Access :=
  .char state.length ::
    match state with
    | ' ' :: rest =>
      parseIntAccesses rest ++
        if (o.parseInt rest).1 - 1 < 0 then [] else setClockAccesses r c (o.parseInt rest).2
    | _ => []

/-- The two clocks. -/
def loadClockAccesses (o : Overflow) (r c : Int) (state : List Char) : List Access :=
  .char state.length ::
    match state with
    | [] => setClockAccesses r c []
    | ' ' :: rest =>
      parseIntAccesses rest ++
        if (o.parseInt rest).1 = -1 then [] else loadFullAccesses o r c (o.parseInt rest).2
    | _ => []

/-- The en passant square. The character behind a column letter may be the NUL, and then the
next one is read as well. -/
def loadPassingAccesses (o : Overflow) (r : Int) (state : List Char) : List Access :=
  .char state.length ::
    match state with
    | [] => []
    | '-' :: rest => loadClockAccesses o (-1) (-1) rest
    | ch :: rest =>
      match passingColumn ch with
      | none => []
      | some c =>
        .char rest.length ::
          match rest with
          | [] => [.char (-1)]
          | rank :: rest =>
            loadClockAccesses o (if rank = '2' then 3 else if rank = '5' then 4 else r) c rest

/-- What follows the side to move. -/
def loadRestAccesses (o : Overflow) (g : Game) (r : Int) (state : List Char) : List Access :=
  .char state.length ::
    match state with
    | ' ' :: rest =>
      loadRightsAccesses rest g ++
        match loadRights rest g with
        | (_, none) => []
        | (_, some rest) => loadPassingAccesses o r rest
    | _ => []

/-- `init_game`. -/
def initGameAccesses (o : Overflow) (g : Game) (state : List Char) : List Access :=
  loadBoardAccesses state g 0 0 ++
    match loadBoard state g 0 0 with
    | (_, none) => []
    | (g, some (rest, r, c)) =>
      if r < 7 ∨ c < 7 then []
      else
        .char rest.length :: .char ((rest.length : Int) - 1) ::
          match rest with
          | ' ' :: 'w' :: rest => loadRestAccesses o { g with duration := 0 } r rest
          | ' ' :: 'b' :: rest => loadRestAccesses o { g with duration := 1 } r rest
          | _ => []

/-! ## Codes -/

/-- What is returned behind the half-move clock. -/
def loadFullCode (o : Overflow) : List Char → Int
  | ' ' :: rest =>
    if (o.parseInt rest).1 - 1 < 0 then -1 else if (o.parseInt rest).2 = [] then 0 else -1
  | _ => -1

/-- What is returned behind the en passant square. -/
def loadClockCode (o : Overflow) : List Char → Int
  | [] => 0
  | ' ' :: rest =>
    if (o.parseInt rest).1 = -1 then -1 else loadFullCode o (o.parseInt rest).2
  | _ => -1

/-- What is returned behind the rights to castle; `none` where the text is read behind its end. -/
def loadPassingCode (o : Overflow) : List Char → Option Int
  | [] => some (-1)
  | '-' :: rest => some (loadClockCode o rest)
  | ch :: rest =>
    match passingColumn ch, rest with
    | none, _ => some (-1)
    | some _, [] => none
    | some _, _ :: rest => some (loadClockCode o rest)

/-- What is returned behind the side to move. -/
def loadRestCode (o : Overflow) (g : Game) : List Char → Option Int
  | ' ' :: rest => (loadRights rest g).2.elim (some (-1)) (loadPassingCode o)
  | _ => some (-1)

/-- What `init_game` returns, whatever an overflow gives. -/
def initGameCode (o : Overflow) (g : Game) (state : List Char) : Option Int :=
  match loadBoard state g 0 0 with
  | (_, none) => some (-1)
  | (g, some (rest, r, c)) =>
    if r < 7 ∨ c < 7 then some (-1)
    else
      match rest with
      | ' ' :: 'w' :: rest => loadRestCode o { g with duration := 0 } rest
      | ' ' :: 'b' :: rest => loadRestCode o { g with duration := 1 } rest
      | _ => some (-1)

end Chessh
