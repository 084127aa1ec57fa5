import Chessh.Rules.Fen
import Chessh.Verif.Loading
import Chessh.Verif.Tracks

/-!
# Reading the text of a game

The standard text of a game and what `init_game` makes of it. Each part of the text is read
back with any text behind it: the rows of the board, the rights to castle, the two clocks.
`initGame_fen` puts them together: the men and the number of turns are those of the game, the
counters are made up.
-/

namespace Chessh

open Rules (Side Kind Man Square Wing Ply Position Placement InCheck Inside rightLetter rightsText
  sideLetter)

/-! ## The text -/

instance (g : Game) (side : Side) (kind : Kind) (r c : Int) : Decidable (Unmoved g side kind r c) :=
  inferInstanceAs (Decidable (_ ∧ _))

/-- The rights to castle: king and rook are unmoved and at home. -/
def rightsOf (g : Game) : List (Side × Wing) :=
  [(.white, .kingside), (.white, .queenside), (.black, .kingside), (.black, .queenside)].filter
    fun right => decide (Unmoved g right.1 .king right.1.homeRow 4 ∧
      Unmoved g right.1 .rook right.1.homeRow right.2.corner)

/-- The standard text of a game, with no en passant square. -/
def fen (g : Game) : List Char :=
  g.placement.text ++ [' ', if getPlayer g = .white then 'w' else 'b', ' '] ++
    rightsText (rightsOf g) ++ [' ', '-', ' '] ++
    Nat.toDigits 10 (g.duration - g.lastBigMove).toNat ++ ' ' ::
    Nat.toDigits 10 (g.duration / 2 + 1).toNat

/-! ## The board -/

/-- The square holds what the placement says, with the counters `init_game` makes up. -/
def Filled (board : Placement) (g : Game) (r c : Int) : Prop :=
  match board (r, c) with
  | none => (g.get r c).type = .empty
  | some man =>
    g.get r c = ⟨typeOf man.kind, playerOf man.side, loadedMoves r man.letter (typeOf man.kind), 0⟩

/-- The squares before a square in reading order are filled. -/
def FilledTo (board : Placement) (g : Game) (r c : Int) : Prop :=
  ∀ x y, OnBoard x y → x < r ∨ (x = r ∧ y < c) → Filled board g x y

section Board

variable {board : Placement} {g : Game} {r c : Int}

/-- The letter of a man is read as its kind. -/
theorem letterType_letter (man : Man) : letterType man.letter.toLower = some (typeOf man.kind) := by
  rw [man.letter_toLower]
  cases man.kind <;> rfl

/-- What a square is filled with depends on the square. -/
theorem Filled.congr {g' : Game} (filled : Filled board g r c) (same : g'.get r c = g.get r c) :
    Filled board g' r c := by
  unfold Filled at filled ⊢
  rw [same]
  exact filled

/-- A piece letter fills the next square. -/
theorem FilledTo.piece (filled : FilledTo board g r c) {man : Man}
    (there : board (r, c) = some man) :
    FilledTo board (loadPiece g r c man.letter (typeOf man.kind)) r (c + 1) := by
  have owner : (if man.letter.isLower then Player.black else .white) = playerOf man.side := by
    have lower := man.letter_isLower
    cases side : man.side <;> simp_all [playerOf]
  intro x y on before
  by_cases here : x = r ∧ y = c
  · obtain ⟨rfl, rfl⟩ := here
    unfold Filled
    rw [there]
    show (loadPiece g x y man.letter (typeOf man.kind)).get x y = _
    rw [loadPiece, owner, Game.get_set_self _ _ on]
  · refine (filled x y on ?_).congr (Game.get_set_ne _ _ here)
    omega

/-- A digit fills a run of free squares. -/
theorem FilledTo.run {free : Nat} (filled : FilledTo board g r c)
    (clear : ∀ y, c ≤ y → y < c + free → board (r, y) = none) (fits : c + free ≤ 8) :
    ∃ after, clearRun free g r c = (after, some (c + free)) ∧ FilledTo board after r (c + free) ∧
      after.duration = g.duration := by
  induction free generalizing g c with
  | zero => exact ⟨g, by simp [clearRun], by simpa using filled, rfl⟩
  | succ free ih =>
    push_cast at clear fits
    have next : FilledTo board (g.setType r c .empty) r (c + 1) := by
      intro x y on before
      by_cases here : x = r ∧ y = c
      · obtain ⟨rfl, rfl⟩ := here
        unfold Filled
        rw [clear y le_rfl (by omega)]
        show ((g.setType x y .empty).get x y).type = .empty
        rw [Game.get_setType, if_pos ⟨on, rfl, rfl⟩]
      · refine (filled x y on ?_).congr (Game.get_set_ne _ _ here)
        omega
    obtain ⟨after, ran, filled', time⟩ :=
      ih next (fun y low high => clear y (by omega) (by omega)) (by omega)
    refine ⟨after, ?_, ?_, time⟩
    · rw [clearRun, if_neg (by omega), ran]
      push_cast
      ring_nf
    · push_cast
      rwa [show c + ((free : Int) + 1) = c + 1 + free by ring]

unseal digitValue in
/-- A digit is read as its value. -/
theorem digitValue_digitChar {n : Nat} (few : n ≤ 8) : digitValue (Nat.digitChar n) = n := by
  interval_cases n <;> rfl

/-- A run of free squares is read back. -/
theorem loadBoard_gap {free : Nat} (filled : FilledTo board g r c)
    (clear : ∀ y, c ≤ y → y < c + free → board (r, y) = none) (fits : c + free ≤ 8)
    (low : 0 ≤ c) (rest : List Char) :
    ∃ after, loadBoard (Rules.gap free ++ rest) g r c = loadBoard rest after r (c + free) ∧
      FilledTo board after r (c + free) ∧ after.duration = g.duration := by
  by_cases absent : free = 0
  · subst absent
    exact ⟨g, by simp [Rules.gap], by simpa using filled, rfl⟩
  obtain ⟨after, ran, filled', time⟩ := filled.run clear fits
  refine ⟨after, ?_, filled', time⟩
  have few : free ≤ 8 := by omega
  have digit : Nat.digitChar free ≠ ' ' ∧ Nat.digitChar free ≠ '/' ∧
      letterType (Nat.digitChar free).toLower = none ∧ (Nat.digitChar free).isDigit = true := by
    interval_cases free <;> decide
  rw [Rules.gap, if_neg absent, List.singleton_append, loadBoard, if_neg digit.1, if_neg digit.2.1]
  simp only [digit.2.2.1, digit.2.2.2, ↓reduceIte, digitValue_digitChar few, ran]

/-- The rest of a row is read back. -/
theorem loadBoard_row {left free : Nat} (columns : c + free + left = 8) (low : 0 ≤ c)
    (filled : FilledTo board g r c) (clear : ∀ y, c ≤ y → y < c + free → board (r, y) = none)
    (rest : List Char) :
    ∃ after, loadBoard (board.rowText r left (c + free) free ++ rest) g r c =
        loadBoard rest after r 8 ∧
      FilledTo board after r 8 ∧ after.duration = g.duration := by
  induction left generalizing g c free with
  | zero =>
    obtain ⟨after, read, filled', time⟩ := loadBoard_gap filled clear (by omega) low rest
    rw [show c + (free : Int) = 8 by omega] at read filled'
    exact ⟨after, read, filled', time⟩
  | succ left ih =>
    push_cast at columns
    rw [Placement.rowText]
    split
    · rename_i there
      have columns' : c + ((free + 1 : Nat) : Int) + left = 8 := by
        push_cast
        omega
      have more := ih columns' low filled ?_
      · push_cast at more
        rwa [show c + ((free : Int) + 1) = c + free + 1 by ring] at more
      · intro y behind ahead
        push_cast at ahead
        by_cases last : y = c + free
        · rw [last]
          exact there
        · exact clear y behind (by omega)
    · rename_i man there
      obtain ⟨after, read, filled', time⟩ := loadBoard_gap filled clear (by omega) low
        (man.letter :: (board.rowText r left (c + free + 1) 0 ++ rest))
      have columns' : (c + free + 1) + ((0 : Nat) : Int) + left = 8 := by
        push_cast
        omega
      obtain ⟨final, read', filled'', time'⟩ :=
        ih columns' (by omega) (filled'.piece there) fun y low high => by omega
      refine ⟨final, ?_, filled'', time'.trans time⟩
      rw [List.append_assoc, List.cons_append, read, loadBoard, if_neg man.letter_ne.1,
        if_neg man.letter_ne.2, letterType_letter]
      simpa using read'

/-- A row on which nothing is left to read is filled up to the next one. -/
theorem FilledTo.nextRow (filled : FilledTo board g r 8) : FilledTo board g (r + 1) 0 := by
  intro x y on before
  apply filled x y on
  have := on.2
  omega

/-- The rows of a board are read back. -/
theorem loadBoard_rows (more : Nat) (filled : FilledTo board g r 0) (rest : List Char) :
    ∃ after, loadBoard (board.rowsText more r ++ ' ' :: rest) g r 0 =
        (after, some (' ' :: rest, r + more, 8)) ∧
      FilledTo board after (r + more) 8 ∧ after.duration = g.duration := by
  have columns : (0 : Int) + ((0 : Nat) : Int) + ((8 : Nat) : Int) = 8 := by norm_num
  induction more generalizing g r with
  | zero =>
    obtain ⟨after, read, filled', time⟩ := loadBoard_row columns le_rfl filled
      (fun y low high => by omega) (' ' :: rest)
    refine ⟨after, ?_, by simpa using filled', time⟩
    simp only [Nat.cast_zero, add_zero] at read
    rw [Placement.rowsText, read, loadBoard, if_pos rfl]
    simp
  | succ more ih =>
    obtain ⟨mid, read, filled', time⟩ := loadBoard_row columns le_rfl filled
      (fun y low high => by omega) ('/' :: (board.rowsText more (r + 1) ++ ' ' :: rest))
    obtain ⟨after, read', filled'', time'⟩ := ih filled'.nextRow
    refine ⟨after, ?_, ?_, time'.trans time⟩
    · simp only [Nat.cast_zero, add_zero] at read
      rw [Placement.rowsText, List.append_assoc, List.cons_append, read, loadBoard,
        if_neg (by decide), if_pos rfl, if_neg (by simp), read']
      push_cast
      ring_nf
    · push_cast
      rwa [show r + ((more : Int) + 1) = r + 1 + more by ring]

end Board

/-! ## Rights and clocks -/

/-- The assignments for the letters of the rights. -/
def grant (rights : List (Side × Wing)) (g : Game) : Game :=
  rights.foldl (fun g right => g.set right.1.homeRow right.2.corner
    { g.get right.1.homeRow right.2.corner with moves := 0 }) g

/-- The corner of a right is on the board. -/
theorem corner_onBoard (side : Side) (wing : Wing) : OnBoard side.homeRow wing.corner := by
  cases side <;> cases wing <;> decide

/-- Granting rights unmoves the pieces in their corners. -/
theorem get_grant (rights : List (Side × Wing)) (g : Game) (r c : Int) :
    (grant rights g).get r c =
      if ∃ right ∈ rights, r = right.1.homeRow ∧ c = right.2.corner then
        { g.get r c with moves := 0 }
      else g.get r c := by
  induction rights generalizing g with
  | nil => simp [grant]
  | cons right rights ih =>
    have step : grant (right :: rights) g = grant rights (g.set right.1.homeRow right.2.corner
      { g.get right.1.homeRow right.2.corner with moves := 0 }) := rfl
    rw [step, ih]
    by_cases here : r = right.1.homeRow ∧ c = right.2.corner
    · have listed : ∃ right' ∈ right :: rights, r = right'.1.homeRow ∧ c = right'.2.corner :=
        ⟨right, List.mem_cons_self, here⟩
      rw [if_pos listed]
      obtain ⟨rfl, rfl⟩ := here
      rw [Game.get_set_self _ _ (corner_onBoard _ _)]
      split <;> rfl
    · rw [Game.get_set_ne _ _ here]
      refine if_congr ?_ rfl rfl
      simp only [List.mem_cons, exists_eq_or_imp]
      exact (or_iff_right here).symm

/-- Granting rights is no turn. -/
theorem grant_duration (rights : List (Side × Wing)) (g : Game) :
    (grant rights g).duration = g.duration := by
  induction rights generalizing g with
  | nil => rfl
  | cons right rights ih => exact ih _

/-- A letter of a right grants it when the rook is there. -/
theorem loadRights_letter {g : Game} (right : Side × Wing) (rest : List Char)
    (rook : (g.get right.1.homeRow right.2.corner).man = some ⟨right.1, .rook⟩) :
    loadRights (rightLetter right :: rest) g = loadRights rest (g.set right.1.homeRow right.2.corner
      { g.get right.1.homeRow right.2.corner with moves := 0 }) := by
  obtain ⟨type, owner⟩ := man_eq_some.mp rook
  have granted : rookCastle g right.1.homeRow right.2.corner (playerOf right.1) =
      some (g.set right.1.homeRow right.2.corner
        { g.get right.1.homeRow right.2.corner with moves := 0 }) := by
    rw [rookCastle, if_neg]
    rw [type, owner]
    exact fun h => h.elim (absurd rfl) (absurd rfl)
  have letter : loadRights (rightLetter right :: rest) g =
      (rookCastle g right.1.homeRow right.2.corner (playerOf right.1)).elim (g, none)
        (loadRights rest) := by
    obtain ⟨side, wing⟩ := right
    cases side <;> cases wing <;> rfl
  rw [letter, granted]
  rfl

/-- The letters of rights are granted one after the other. -/
theorem loadRights_letters {rights : List (Side × Wing)} {g : Game} (rest : List Char)
    (rooks : ∀ right ∈ rights,
      (g.get right.1.homeRow right.2.corner).man = some ⟨right.1, .rook⟩) :
    loadRights (rights.map rightLetter ++ rest) g = loadRights rest (grant rights g) := by
  induction rights generalizing g with
  | nil => rfl
  | cons right rights ih =>
    rw [List.map_cons, List.cons_append, loadRights_letter right _ (rooks right List.mem_cons_self)]
    refine ih fun other mem => ?_
    have there := rooks other (List.mem_cons_of_mem _ mem)
    rw [Game.get_set]
    split
    · rename_i here
      rw [← here.2.1, ← here.2.2]
      exact there
    · exact there

/-- The text of the rights is read back. -/
theorem loadRights_text {rights : List (Side × Wing)} {g : Game} (rest : List Char)
    (rooks : ∀ right ∈ rights,
      (g.get right.1.homeRow right.2.corner).man = some ⟨right.1, .rook⟩) :
    loadRights (rightsText rights ++ ' ' :: rest) g = (grant rights g, some rest) := by
  unfold rightsText
  split
  · rename_i absent
    rw [absent]
    rfl
  · rw [loadRights_letters _ rooks]
    rfl

unseal digitValue in
/-- A digit is read behind the digits before it. -/
theorem ofDigitChars_digit (ret : Nat) (ch : Char) (digits : List Char) :
    Nat.ofDigitChars 10 (ch :: digits) ret =
      Nat.ofDigitChars 10 digits (ret * 10 + digitValue ch) := by
  rw [Nat.ofDigitChars_cons, Nat.mul_comm]
  rfl

/-- Further digits make a number no smaller. -/
theorem le_ofDigitChars (digits : List Char) (ret : Nat) :
    ret ≤ Nat.ofDigitChars 10 digits ret := by
  rw [Nat.ofDigitChars_eq_ofDigitChars_zero]
  have grows : ret ≤ 10 ^ digits.length * ret := Nat.le_mul_of_pos_left ret (by positivity)
  omega

/-- The digits are read up to their end, unless the number gets too large on the way. -/
theorem digitLoop_digits {digits rest : List Char} (all : ∀ ch ∈ digits, ch.isDigit = true)
    (ends : rest.head?.all (!·.isDigit)) {ret : Nat} (fits : ret ≤ intMax) :
    digitLoop ret (digits ++ rest) =
      if intMax < Nat.ofDigitChars 10 digits ret then none
      else some (Nat.ofDigitChars 10 digits ret, rest) := by
  induction digits generalizing ret with
  | nil =>
    rw [List.nil_append, Nat.ofDigitChars_nil, if_neg (by omega)]
    cases rest with
    | nil => rfl
    | cons ch rest =>
      have other : ch.isDigit = false := by simpa using ends
      rw [digitLoop, if_neg (by simp [other])]
  | cons ch digits ih =>
    rw [List.cons_append, digitLoop, if_pos (all ch List.mem_cons_self), ofDigitChars_digit]
    have grows := le_ofDigitChars digits (ret * 10 + digitValue ch)
    by_cases large : intMax < ret * 10 + digitValue ch
    · rw [if_pos large, if_pos (by omega)]
    · rw [if_neg large]
      exact ih (fun d mem => all d (List.mem_cons_of_mem _ mem)) (by omega)

/-- A number starts with a digit. -/
theorem head_digits {digits : List Char} (rest : List Char)
    (all : ∀ ch ∈ digits, ch.isDigit = true) (some_digit : digits ≠ []) :
    (digits ++ rest).head?.any Char.isDigit = true := by
  cases digits with
  | nil => exact absurd rfl some_digit
  | cons ch digits => exact all ch List.mem_cons_self

/-- A number is read when it fits an `int`. -/
theorem parseInt_digits {digits rest : List Char} (all : ∀ ch ∈ digits, ch.isDigit = true)
    (some_digit : digits ≠ []) (ends : rest.head?.all (!·.isDigit)) :
    parseInt (digits ++ rest) =
      if intMax < Rules.numeral digits then none
      else some ((Rules.numeral digits : Int), rest) := by
  rw [parseInt, if_pos (head_digits rest all some_digit), digitLoop_digits all ends (Nat.zero_le _),
    ← Rules.numeral]
  split <;> rfl

/-- The two clocks are read when they fit an `int`. -/
theorem loadClock_digits (g : Game) (r c : Int) {half full : List Char}
    (allHalf : ∀ ch ∈ half, ch.isDigit = true) (someHalf : half ≠ [])
    (allFull : ∀ ch ∈ full, ch.isDigit = true) (someFull : full ≠ []) :
    loadClock g r c (' ' :: (half ++ ' ' :: full)) =
      if intMax < Rules.numeral half ∨ intMax < 2 * (Rules.numeral full - 1) then none
      else if Rules.numeral full = 0 then
        some (-1, { g with lastBigMove := (Rules.numeral half : Int) * -1 })
      else some (setClock { g with lastBigMove := (Rules.numeral half : Int) * -1 } r c
        (((Rules.numeral full : Int) - 1) * 2) []) := by
  have wide : 2 ≤ intMax := by decide
  have halfRead := @parseInt_digits half (' ' :: full) allHalf someHalf (by rfl)
  have fullRead := @parseInt_digits full [] allFull someFull (by rfl)
  rw [List.append_nil] at fullRead
  rw [loadClock, halfRead]
  by_cases largeHalf : intMax < Rules.numeral half
  · rw [if_pos largeHalf, if_pos (Or.inl largeHalf)]
    rfl
  rw [if_neg largeHalf, Option.bind_some, if_neg (by simp only; omega), loadFull, fullRead]
  by_cases largeFull : intMax < Rules.numeral full
  · rw [if_pos largeFull, if_pos (Or.inr (by omega))]
    rfl
  rw [if_neg largeFull, Option.bind_some]
  by_cases none_played : Rules.numeral full = 0
  · rw [if_pos (by simp only; omega), if_neg (by omega), if_pos none_played]
  rw [if_neg (by simp only; omega), if_neg none_played]
  by_cases largeTime : intMax < 2 * (Rules.numeral full - 1)
  · rw [if_pos (by simp only; omega), if_pos (Or.inr largeTime)]
  · rw [if_neg (by simp only; omega), if_neg (by omega)]

/-- The digits of a number stand for it. -/
theorem numeral_toDigits (n : Nat) : Rules.numeral (Nat.toDigits 10 n) = n :=
  Nat.ofDigitChars_ten_toDigits

/-- The digits of a number are digits. -/
theorem isDigit_toDigits (n : Nat) : ∀ ch ∈ Nat.toDigits 10 n, ch.isDigit = true :=
  fun _ mem => Nat.isDigit_of_mem_toDigits (by decide) (by decide) mem

/-- The two clocks are read back. -/
theorem loadClock_text (g : Game) {half full : Nat} (fitsHalf : half ≤ intMax)
    (fitsFull : 2 * full ≤ intMax) :
    loadClock g (-1) (-1) (' ' :: (Nat.toDigits 10 half ++ ' ' :: Nat.toDigits 10 (full + 1))) =
      some (0, { g with duration := g.duration + full * 2, lastBigMove := -half + full * 2 }) := by
  have off : ¬ OnBoard (-1) (-1) := by decide
  rw [loadClock_digits g (-1) (-1) (isDigit_toDigits half) Nat.toDigits_ne_nil
    (isDigit_toDigits (full + 1)) Nat.toDigits_ne_nil, numeral_toDigits, numeral_toDigits,
    if_neg (by omega), if_neg (by omega)]
  refine congrArg some (Prod.ext rfl (Game.ext_get ?_ ?_ ?_))
  · intro r c on
    rw [setClock_get, if_neg]
    · rfl
    · intro here
      rw [here.2.1, here.2.2] at on
      exact off on
  · simp [setClock]
  · simp [setClock]

/-! ## The whole text -/

/-- What a filled square holds. -/
theorem Filled.man {board : Placement} {g : Game} {r c : Int} (filled : Filled board g r c) :
    (g.get r c).man = board (r, c) := by
  unfold Filled at filled
  split at filled
  · rename_i free
    rw [free]
    exact man_empty filled
  · rename_i man there
    rw [there, filled]
    exact man_eq_some.mpr ⟨rfl, rfl⟩

/-- A right stands in the text exactly when king and rook are unmoved and at home. -/
theorem mem_rightsOf {g : Game} {side : Side} {wing : Wing} :
    (side, wing) ∈ rightsOf g ↔
      Unmoved g side .king side.homeRow 4 ∧ Unmoved g side .rook side.homeRow wing.corner := by
  unfold rightsOf
  rw [List.mem_filter, decide_eq_true_eq]
  apply and_iff_right
  cases side <;> cases wing <;> decide

/-- The square of a game loaded from the text of another: the same man, with counters that
say that kings, the rooks of the rights and the pawns on their start row have not moved. -/
def Reloaded (g loaded : Game) (r c : Int) : Prop :=
  match g.placement (r, c) with
  | none => (loaded.get r c).type = .empty
  | some man =>
    loaded.get r c = ⟨typeOf man.kind, playerOf man.side,
      if ∃ right ∈ rightsOf g, r = right.1.homeRow ∧ c = right.2.corner then 0
      else loadedMoves r man.letter (typeOf man.kind), 0⟩

/-- The text of its five fields is read field by field. -/
theorem initGame_fields (memory : Game) (board : Placement) (side : Side)
    (rights : List (Side × Wing)) {half full : Nat} (fitsHalf : half ≤ intMax)
    (fitsFull : 2 * full ≤ intMax) (rooks : ∀ right ∈ rights,
      board (right.1.homeRow, right.2.corner) = some ⟨right.1, .rook⟩) :
    ∃ after loaded, FilledTo board after 7 8 ∧
      initGame (newGame memory) (board.text ++ ' ' :: sideLetter side :: ' ' ::
        (rightsText rights ++
        ' ' :: '-' :: ' ' :: (Nat.toDigits 10 half ++ ' ' :: Nat.toDigits 10 (full + 1)))) =
        some (0, loaded) ∧
      loaded.duration = (if side = .white then 0 else 1) + full * 2 ∧
      ∀ r c, loaded.get r c = (grant rights after).get r c := by
  have start : FilledTo board (newGame memory) 0 0 := by
    intro x y on before
    have := on.1
    have := on.2
    omega
  obtain ⟨after, read, filled, -⟩ := loadBoard_rows 7 start (sideLetter side :: ' ' ::
    (rightsText rights ++ ' ' :: '-' :: ' ' :: (Nat.toDigits 10 half ++
      ' ' :: Nat.toDigits 10 (full + 1))))
  have filled : FilledTo board after 7 8 := by simpa using filled
  have corners : ∀ right ∈ rights,
      (after.get right.1.homeRow right.2.corner).man = some ⟨right.1, .rook⟩ := by
    intro right mem
    have on := corner_onBoard right.1 right.2
    refine (filled _ _ on ?_).man.trans (rooks right mem)
    have := on.1
    have := on.2
    omega
  have rows : ¬ ((0 : Int) + ((7 : Nat) : Int) < 7 ∨ (8 : Int) < 7) := by norm_num
  refine ⟨{ after with duration := if side = .white then 0 else 1 },
    { grant rights { after with duration := if side = .white then 0 else 1 } with
      duration := (if side = .white then 0 else 1) + full * 2
      lastBigMove := -half + full * 2 }, filled, ?_, rfl, fun _ _ => rfl⟩
  have load : ∀ r, loadPassing
      (grant rights { after with duration := if side = .white then 0 else 1 }) r
      ('-' :: ' ' :: (Nat.toDigits 10 half ++ ' ' :: Nat.toDigits 10 (full + 1))) =
      some (0, { grant rights { after with duration := if side = .white then 0 else 1 } with
        duration := (if side = .white then 0 else 1) + full * 2
        lastBigMove := -half + full * 2 }) := by
    intro r
    rw [loadPassing, loadClock_text _ fitsHalf fitsFull, grant_duration]
  rw [Placement.text]
  unfold initGame
  rw [read]
  simp only [rows, ↓reduceIte]
  cases side with
  | white =>
    have granted := loadRights_text (g := { after with duration := 0 }) ('-' :: ' ' ::
      (Nat.toDigits 10 half ++ ' ' :: Nat.toDigits 10 (full + 1))) corners
    simp only [sideLetter, loadRest, granted]
    exact load _
  | black =>
    have granted := loadRights_text (g := { after with duration := 1 }) ('-' :: ' ' ::
      (Nat.toDigits 10 half ++ ' ' :: Nat.toDigits 10 (full + 1))) corners
    simp only [sideLetter, loadRest, granted]
    exact load _

/-- `init_game` accepts the text of a game and reads its men and its number of turns. -/
theorem initGame_fen {g : Game} (memory : Game) {side : Side} (turn : getPlayer g = playerOf side)
    (duration : 0 ≤ g.duration) (fits : g.duration ≤ intMax)
    (quiet : g.duration - g.lastBigMove ≤ intMax) :
    ∃ loaded, initGame (newGame memory) (fen g) = some (0, loaded) ∧
      loaded.duration = g.duration ∧ ∀ r c, OnBoard r c → Reloaded g loaded r c := by
  have rooks : ∀ right ∈ rightsOf g,
      g.placement (right.1.homeRow, right.2.corner) = some ⟨right.1, .rook⟩ :=
    fun right mem => (mem_rightsOf.mp mem).2.1
  obtain ⟨after, loaded, filled, read, time, squares⟩ := initGame_fields memory g.placement side
    (rightsOf g) (show (g.duration - g.lastBigMove).toNat ≤ intMax by omega)
    (show 2 * (g.duration / 2).toNat ≤ intMax by omega) rooks
  refine ⟨loaded, ?_, ?_, fun r c on => ?_⟩
  · rw [← read, fen]
    have player : (if getPlayer g = .white then 'w' else 'b') = sideLetter side := by
      rw [turn]
      cases side <;> rfl
    have turns : (g.duration / 2 + 1).toNat = (g.duration / 2).toNat + 1 := by omega
    simp [player, turns]
  · rw [time]
    unfold getPlayer at turn
    cases side with
    | white =>
      have even : g.duration % 2 = 0 := by
        by_contra odd
        rw [if_neg odd] at turn
        exact Player.noConfusion turn
      simp only [↓reduceIte]
      omega
    | black =>
      have odd : g.duration % 2 ≠ 0 := by
        intro even
        rw [if_pos even] at turn
        exact Player.noConfusion turn
      simp only [reduceCtorEq, ↓reduceIte]
      omega
  · have here : Filled g.placement after r c := by
      apply filled r c on
      have := on.1
      have := on.2
      omega
    have granted := (squares r c).trans (get_grant (rightsOf g) after r c)
    unfold Reloaded
    unfold Filled at here
    split
    · rename_i free
      rw [free] at here
      apply Eq.trans (congrArg Piece.type granted)
      split <;> exact here
    · rename_i man there
      rw [there] at here
      apply granted.trans
      rw [here]
      split <;> rfl

end Chessh
