import Chessh.Verif.Text

/-!
# Which texts are moves

`parse_move` checks the length and the fifth character of its text and no more: the other four are
only counted from `a` and `1`. The texts that make a move of the board are those in coordinate
notation, and on them `move_to_string` is the inverse of `parse_move` but for the case of the
letters.
-/

namespace Chessh

/-- A file letter, in either case. -/
def IsFile (ch : Char) : Prop := ('a' ≤ ch ∧ ch ≤ 'h') ∨ ('A' ≤ ch ∧ ch ≤ 'H')

/-- The digit of a rank. -/
def IsRank (ch : Char) : Prop := '1' ≤ ch ∧ ch ≤ '8'

/-- The letter of a promotion, in either case. -/
def IsPromotionLetter (ch : Char) : Prop :=
  ch.toLower = 'n' ∨ ch.toLower = 'q' ∨ ch.toLower = 'r' ∨ ch.toLower = 'b'

/-- The text starts with a move in coordinate notation: two squares, and then the end of the text or
a promotion. -/
def Coordinates (s : List Char) : Prop :=
  ∃ a b c d rest, s = a :: b :: c :: d :: rest ∧ (IsFile a ∧ IsRank b) ∧ (IsFile c ∧ IsRank d) ∧
    (rest = [] ∨ ∃ p more, rest = p :: more ∧ IsPromotionLetter p)

/-! ## Characters as numbers -/

/-- The order of characters is that of their values. -/
theorem char_le_iff {a b : Char} : a ≤ b ↔ a.toNat ≤ b.toNat := Iff.rfl

/-- What `tolower` does to a value. -/
theorem toNat_toLower (ch : Char) :
    ch.toLower.toNat = if 65 ≤ ch.toNat ∧ ch.toNat ≤ 90 then ch.toNat + 32 else ch.toNat := by
  have upper : (ch.val ≥ 'A'.val ∧ ch.val ≤ 'Z'.val) ↔ (65 ≤ ch.toNat ∧ ch.toNat ≤ 90) := Iff.rfl
  unfold Char.toLower
  split
  · rename_i letter
    have bounds := upper.mp letter
    rw [if_pos bounds]
    change (ch.val + ('a'.val - 'A'.val)).toNat = ch.val.toNat + 32
    have low : ch.val.toNat ≤ 90 := bounds.2
    rw [UInt32.toNat_add]
    change (ch.val.toNat + 32) % 4294967296 = _
    omega
  · rename_i other
    rw [if_neg (mt upper.mpr other)]

/-- A byte is a character again. -/
theorem toChar_ofChar {ch : Char} (small : ch.toNat < 256) : toChar (ofChar ch) = ch := by
  unfold toChar ofChar
  have value : ((ch.toNat : Int) % 256).toNat = ch.toNat := by omega
  rw [value, Char.ofNat_toNat]

/-- The file letters are the characters that count as a column. -/
theorem isFile_iff {ch : Char} :
    IsFile ch ↔ 0 ≤ ofChar ch.toLower - ofChar 'a' ∧ ofChar ch.toLower - ofChar 'a' < 8 := by
  unfold IsFile ofChar
  rw [toNat_toLower]
  simp only [char_le_iff, show 'a'.toNat = 97 from rfl, show 'h'.toNat = 104 from rfl,
    show 'A'.toNat = 65 from rfl, show 'H'.toNat = 72 from rfl]
  split <;> omega

/-- The digits from one to eight are the characters that count as a row. -/
theorem isRank_iff {ch : Char} :
    IsRank ch ↔ 0 ≤ 8 - (ofChar ch - ofChar '0') ∧ 8 - (ofChar ch - ofChar '0') < 8 := by
  unfold IsRank ofChar
  simp only [char_le_iff, show '1'.toNat = 49 from rfl, show '8'.toNat = 56 from rfl,
    show '0'.toNat = 48 from rfl]
  omega

/-- A file letter in lower case is printed for its column. -/
theorem IsFile.printed {ch : Char} (file : IsFile ch) :
    toChar (ofChar ch.toLower - ofChar 'a' + ofChar 'a') = ch.toLower ∧ ch.toLower ≠ nul := by
  obtain ⟨low, high⟩ := isFile_iff.mp file
  unfold ofChar at low high
  rw [show 'a'.toNat = 97 from rfl] at low high
  constructor
  · rw [sub_add_cancel, toChar_ofChar (by omega)]
  · intro zero
    rw [zero, show nul.toNat = 0 from rfl] at low
    omega

/-- The digit of a rank is printed for its row. It has no case. -/
theorem IsRank.printed {ch : Char} (rank : IsRank ch) :
    toChar (8 - (8 - (ofChar ch - ofChar '0')) + ofChar '0') = ch.toLower ∧ ch.toLower ≠ nul := by
  obtain ⟨low, high⟩ := isRank_iff.mp rank
  unfold ofChar at low high
  rw [show '0'.toNat = 48 from rfl] at low high
  have value : ch.toLower.toNat = ch.toNat := by
    rw [toNat_toLower, if_neg (by omega)]
  have same : ch.toLower = ch := Char.toNat_inj.mp value
  rw [same]
  constructor
  · rw [sub_sub_cancel, sub_add_cancel, toChar_ofChar (by omega)]
  · intro zero
    rw [zero, show nul.toNat = 0 from rfl] at low high
    omega

/-! ## The texts -/

/-- The promotion a text names after its two squares. -/
def namedPromotion (rest : List Char) : Option PieceType :=
  match rest.head?.map Char.toLower with
  | some 'n' => some .knight
  | some 'q' => some .queen
  | some 'r' => some .rook
  | some 'b' => some .bishop
  | none => some .empty
  | some _ => none

/-- `parse_move` counts four characters and looks at a fifth. -/
theorem parseMove_cons (a b c d : Char) (rest : List Char) :
    parseMove (a :: b :: c :: d :: rest) = (namedPromotion rest).map fun promotion =>
      { rI := 8 - (ofChar b - ofChar '0'), cI := ofChar a.toLower - ofChar 'a'
        rF := 8 - (ofChar d - ofChar '0'), cF := ofChar c.toLower - ofChar 'a'
        promotion := promotion } := by
  rw [parseMove]
  unfold namedPromotion
  dsimp only
  generalize rest.head?.map Char.toLower = fifth
  split
  case h_6 => simp only [Option.map_none]
  all_goals rfl

/-- Which rests name a promotion, and how it is printed. -/
theorem namedPromotion_some {rest : List Char} {t : PieceType}
    (named : namedPromotion rest = some t) :
    (rest = [] ∧ t = .empty) ∨ ∃ p more, rest = p :: more ∧ IsPromotionLetter p ∧
      t.isPromotion = true ∧ pieceToChar t = p.toLower := by
  unfold namedPromotion at named
  cases rest with
  | nil =>
    cases named
    exact Or.inl ⟨rfl, rfl⟩
  | cons p more =>
    right
    refine ⟨p, more, rfl, ?_⟩
    rw [List.head?_cons, Option.map_some] at named
    unfold IsPromotionLetter
    split at named
    all_goals cases named
    all_goals rename_i fifth
    case h_5 => cases fifth
    all_goals rw [Option.some.inj fifth]
    all_goals decide

/-- Every rest of a move text names a promotion. -/
theorem namedPromotion_isSome {rest : List Char}
    (ends : rest = [] ∨ ∃ p more, rest = p :: more ∧ IsPromotionLetter p) :
    ∃ t, namedPromotion rest = some t := by
  rcases ends with rfl | ⟨p, more, rfl, letter⟩
  · exact ⟨_, rfl⟩
  · unfold namedPromotion
    rw [List.head?_cons, Option.map_some]
    rcases letter with letter | letter | letter | letter <;> rw [letter] <;> exact ⟨_, rfl⟩

/-- The texts that make a move of the board. -/
theorem parseMove_onBoard {s : List Char} {m : Move} (parsed : parseMove s = some m)
    (onS : OnBoard m.rI m.cI) (onT : OnBoard m.rF m.cF) :
    Sendable m ∧ ∃ a b c d rest, s = a :: b :: c :: d :: rest ∧ (IsFile a ∧ IsRank b) ∧
      (IsFile c ∧ IsRank d) ∧ namedPromotion rest = some m.promotion ∧
      moveToString m = cString ([a.toLower, b.toLower, c.toLower, d.toLower] ++
        if m.promotion = .empty then [nul] else [pieceToChar m.promotion, nul]) := by
  match s, parsed with
  | a :: b :: c :: d :: rest, parsed =>
    rw [parseMove_cons] at parsed
    obtain ⟨t, named, rfl⟩ := Option.map_eq_some_iff.mp parsed
    dsimp only at onS onT ⊢
    have a' := isFile_iff.mpr onS.2
    have b' := isRank_iff.mpr onS.1
    have c' := isFile_iff.mpr onT.2
    have d' := isRank_iff.mpr onT.1
    have promotion : t = .empty ∨ t.isPromotion = true := by
      rcases namedPromotion_some named with ⟨-, rfl⟩ | ⟨-, -, -, -, promotes, -⟩
      · exact Or.inl rfl
      · exact Or.inr promotes
    refine ⟨⟨onS, onT, promotion⟩, a, b, c, d, rest, rfl, ⟨a', b'⟩, ⟨c', d'⟩, named, ?_⟩
    unfold moveToString
    dsimp only
    rw [a'.printed.1, b'.printed.1, c'.printed.1, d'.printed.1]

/-- `parse_move` makes a move of the board exactly of the texts that start with one in coordinate
notation. `move_to_string` prints it as the first five characters of the text in lower case, which
fit its buffer and are read back; and every move of the board with a promotion a pawn can have is
read back from what is printed. -/
theorem parseMove_exact :
    (∀ s, (∃ m, parseMove s = some m ∧ OnBoard m.rI m.cI ∧ OnBoard m.rF m.cF) ↔ Coordinates s) ∧
    (∀ s m, parseMove s = some m → OnBoard m.rI m.cI → OnBoard m.rF m.cF →
      moveToString m = (s.take 5).map Char.toLower ∧ (moveToString m ++ [nul]).length ≤ 6 ∧
        parseMove (moveToString m) = some m) ∧
    ∀ m, Sendable m → parseMove (moveToString m) = some m := by
  refine ⟨fun s => ⟨?_, ?_⟩, fun s m parsed onS onT => ?_,
    fun m sendable => sendable.parseMove_text⟩
  · rintro ⟨m, parsed, onS, onT⟩
    obtain ⟨-, a, b, c, d, rest, split, first, second, named, -⟩ := parseMove_onBoard parsed onS onT
    refine ⟨a, b, c, d, rest, split, first, second, ?_⟩
    rcases namedPromotion_some named with ⟨none, -⟩ | ⟨p, more, some, letter, -⟩
    · exact Or.inl none
    · exact Or.inr ⟨p, more, some, letter⟩
  · rintro ⟨a, b, c, d, rest, rfl, ⟨a', b'⟩, ⟨c', d'⟩, ends⟩
    obtain ⟨t, named⟩ := namedPromotion_isSome ends
    rw [parseMove_cons, named]
    exact ⟨_, rfl, ⟨isRank_iff.mp b', isFile_iff.mp a'⟩, isRank_iff.mp d', isFile_iff.mp c'⟩
  · obtain ⟨sendable, a, b, c, d, rest, rfl, ⟨a', b'⟩, ⟨c', d'⟩, named, text⟩ :=
      parseMove_onBoard parsed onS onT
    refine ⟨?_, sendable.message.2.1, sendable.parseMove_text⟩
    rw [text, cString]
    simp only [List.cons_append, List.nil_append]
    rw [List.takeWhile_cons_of_pos (by simpa using a'.printed.2),
      List.takeWhile_cons_of_pos (by simpa using b'.printed.2),
      List.takeWhile_cons_of_pos (by simpa using c'.printed.2),
      List.takeWhile_cons_of_pos (by simpa using d'.printed.2)]
    rcases namedPromotion_some named with ⟨rfl, none⟩ | ⟨p, more, rfl, -, promotes, letter⟩
    · rw [none, if_pos rfl, List.takeWhile_cons_of_neg (by simp)]
      rfl
    · have unnamed : m.promotion ≠ .empty := by
        intro empty
        rw [empty] at promotes
        cases promotes
      have printed := pieceToChar_ne_nul promotes
      rw [if_neg unnamed, List.takeWhile_cons_of_pos (by simpa using printed),
        List.takeWhile_cons_of_neg (by simp), letter]
      rfl

/-- Upper case is folded, and what follows a promotion is not looked at. -/
example : parseMove ['A', '7', 'B', '8', 'Q', '!', '?'] = some ⟨1, 0, 0, 1, .queen⟩ ∧
    moveToString ⟨1, 0, 0, 1, .queen⟩ = ['a', '7', 'b', '8', 'q'] := by decide

end Chessh
