import Chessh.Verif.Census

/-!
# The list of valid moves

`count_valid_moves` writes every valid move of the player to move, in order and in full:
`Run.valid_moves_fit`. Whether a move is valid is asked with a promotion that nobody set, and a pawn
that would have to name one is listed before anyone looks at its king. `Run.valid_moves_exact_iff`
says when the list is that of the moves `make_move` accepts.
-/

namespace Chessh

/-! ## The order of the moves -/

/-- The lexicographic order of the four coordinates. -/
def Precedes (a b : Move) : Prop :=
  a.rI < b.rI ∨ a.rI = b.rI ∧ (a.cI < b.cI ∨ a.cI = b.cI ∧
    (a.rF < b.rF ∨ a.rF = b.rF ∧ a.cF < b.cF))

/-- The four nested loops come to the moves in order. -/
theorem allMoves_precedes (promotion : PieceType) : (allMoves promotion).Pairwise Precedes := by
  rw [allMoves, List.pairwise_flatMap]
  constructor
  · intro s _
    rw [List.pairwise_map]
    exact squares_sorted.imp fun before => Or.inr ⟨rfl, Or.inr ⟨rfl, before⟩⟩
  · refine squares_sorted.imp fun before m mem m' mem' => ?_
    obtain ⟨t, -, rfl⟩ := List.mem_map.mp mem
    obtain ⟨t', -, rfl⟩ := List.mem_map.mp mem'
    exact before.imp id fun same => ⟨same.1, Or.inl same.2⟩

/-- A move that precedes another is another. -/
theorem Precedes.ne {a b : Move} (before : Precedes a b) : a ≠ b := by
  rintro rfl
  unfold Precedes at before
  omega

/-- They come to the moves between squares of the board. -/
theorem mem_allMoves {m : Move} {promotion : PieceType} :
    m ∈ allMoves promotion ↔ OnBoard m.rI m.cI ∧ OnBoard m.rF m.cF ∧ m.promotion = promotion := by
  simp only [allMoves, List.mem_flatMap, List.mem_map, mem_squares]
  constructor
  · rintro ⟨s, on, t, on', rfl⟩
    exact ⟨on, on', rfl⟩
  · rintro ⟨on, on', rfl⟩
    exact ⟨(m.rI, m.cI), on, (m.rF, m.cF), on', rfl⟩

/-! ## The list -/

/-- The moves whose executed call does not answer `ILLEGAL_MOVE`. -/
def validMoves (g : Game) (promotion : PieceType) : List Move :=
  (allMoves promotion).filter fun m => (play g m).1 ≠ illegalMove

section List

variable {g : Game} {promotion : PieceType}

/-- The list of the valid moves is in order. -/
theorem validMoves_precedes : (validMoves g promotion).Pairwise Precedes :=
  (allMoves_precedes promotion).filter _

/-- It holds the valid moves with the given promotion. -/
theorem mem_validMoves (sound : Sound g) {m : Move} :
    m ∈ validMoves g promotion ↔ m.promotion = promotion ∧ Valid g m := by
  rw [validMoves, List.mem_filter, mem_allMoves, decide_eq_true_iff, ← valid_iff sound]
  constructor
  · rintro ⟨⟨-, -, named⟩, valid⟩
    exact ⟨named, valid⟩
  · rintro ⟨named, valid⟩
    have mine := (valid.passes sound).1
    exact ⟨⟨mine.onS, mine.onT, named⟩, valid⟩

/-- It is no longer than the set of valid pairs is large. -/
theorem validMoves_length (sound : Sound g) :
    (validMoves g promotion).length ≤ (validPairs g).card := by
  have distinct : (validMoves g promotion).Nodup := validMoves_precedes.imp Precedes.ne
  rw [← List.toFinset_card_of_nodup distinct]
  refine Finset.card_le_card_of_injOn (fun m => ((m.rI, m.cI), (m.rF, m.cF))) ?_ ?_
  · intro m mem
    obtain ⟨-, valid⟩ := (mem_validMoves sound).mp (List.mem_toFinset.mp mem)
    exact (mem_validPairs sound).mpr ⟨m.promotion, valid⟩
  · intro m mem m' mem' same
    obtain ⟨named, -⟩ := (mem_validMoves sound).mp (List.mem_toFinset.mp mem)
    obtain ⟨named', -⟩ := (mem_validMoves sound).mp (List.mem_toFinset.mp mem')
    simp only [Prod.mk.injEq] at same
    obtain ⟨a, b, c, d, e⟩ := m
    obtain ⟨a', b', c', d', e'⟩ := m'
    simp_all

/-- A loop that has room for every valid move collects them all. -/
theorem collectMoves_eq (sound : Sound g) {buffSize : Nat} (depth : Nat) (rest found : List Move)
    (room : (found.length + (rest.filter fun m => (play g m).1 ≠ illegalMove).length) * 2 ≤
      buffSize) :
    collectMoves (depth + 1) g buffSize rest found =
      some (found ++ rest.filter fun m => (play g m).1 ≠ illegalMove) := by
  induction rest generalizing found with
  | nil => simp [collectMoves]
  | cons m rest ih =>
    have asked : moveIsValid (depth + 1) g m = some (decide ((play g m).1 ≠ illegalMove)) := by
      obtain ⟨code, after, asked, -⟩ := makeMove_made sound m
      have executed : play g m = (code, after) := by rw [play, asked 0]; rfl
      rw [moveIsValid, asked, executed]
      rfl
    rw [collectMoves, asked, Option.bind_some]
    by_cases valid : (play g m).1 = illegalMove
    · rw [List.filter_cons_of_neg (by simp [valid])] at room ⊢
      simpa [valid] using ih found room
    · rw [List.filter_cons_of_pos (by simp [valid])] at room ⊢
      rw [List.length_cons] at room
      have more := ih (found ++ [m]) (by rw [List.length_append, List.length_singleton]; omega)
      have free : ¬ buffSize ≤ found.length * 2 := by omega
      simpa [valid, free] using more

end List

section Run

variable {memory g : Game} {calls : List (Move × Int)} (run : Run (newGame memory) calls g)
include run

/-- After every run the buffer of `get_move` has room for every valid move. -/
theorem Run.countValidMoves_eq (promotion : PieceType) (depth : Nat) :
    countValidMoves (depth + 1) g promotion moveBuffSize = some (validMoves g promotion) := by
  have sound := run.sound (newGame_sound memory)
  have few := run.validPairs_few
  have length := @validMoves_length g promotion sound
  refine (collectMoves_eq sound depth (allMoves promotion) [] ?_).trans ?_
  · rw [List.length_nil, Nat.zero_add]
    change (validMoves g promotion).length * 2 ≤ moveBuffSize
    unfold moveBuffSize
    omega
  · rw [List.nil_append]
    rfl

/-- After every run there are fewer than 512 pairs of squares between which some move is valid,
whatever its promotion. The list that `count_valid_moves` makes for `get_move` holds every valid
move once; every entry is written inside the buffer, and the count fits sixteen bits. -/
theorem Run.valid_moves_fit :
    (validPairs g).card < 512 ∧ ∀ promotion, ∃ list,
      (∀ depth, countValidMoves (depth + 1) g promotion moveBuffSize = some list) ∧
      (∀ m, m ∈ list ↔ m.promotion = promotion ∧ Valid g m) ∧ list.Nodup ∧ list.length < 512 ∧
      (∀ k < list.length, 2 * k + 1 < moveBuffSize) ∧
      (UInt16.ofNat list.length).toNat = list.length := by
  have sound := run.sound (newGame_sound memory)
  have few := run.validPairs_few
  refine ⟨few, fun promotion => ⟨validMoves g promotion, run.countValidMoves_eq promotion,
    fun m => mem_validMoves sound, validMoves_precedes.imp Precedes.ne, ?_⟩⟩
  have length := @validMoves_length g promotion sound
  refine ⟨by omega, fun k lt => ?_, ?_⟩
  · unfold moveBuffSize
    omega
  · rw [UInt16.toNat_ofNat']
    omega

end Run

/-- A new game, for whatever the promotion holds. -/
theorem valid_moves_fit_new :
    (validPairs (newGame blank)).card < 512 ∧ ∀ promotion, ∃ list,
      (∀ depth, countValidMoves (depth + 1) (newGame blank) promotion moveBuffSize = some list) ∧
      (∀ m, m ∈ list ↔ m.promotion = promotion ∧ Valid (newGame blank) m) ∧ list.Nodup ∧
      list.length < 512 ∧ (∀ k < list.length, 2 * k + 1 < moveBuffSize) ∧
      (UInt16.ofNat list.length).toNat = list.length :=
  (@Run.start (newGame blank)).valid_moves_fit

/-! ## Promotions nobody set -/

section Promotion

variable {g after : Game} {m : Move} {player : Player} {v : Verdict} {captured : Option (Int × Int)}

/-- A pawn may go to its last row, as far as the rules of its steps are concerned. -/
structure Promotes (g : Game) (m : Move) (captured : Option (Int × Int)) : Prop where
  /-- The move is one of the player to move. -/
  mine : Mine g m (getPlayer g)
  /-- It is a pawn that moves. -/
  pawn : (g.get m.rI m.cI).type = .pawn
  /-- Pawns go this way. -/
  goes : pawnGoes g m = some captured
  /-- It ends on the last row. -/
  last : LastRow g m

/-- Whom a pawn is promoted to does not matter to its steps. -/
theorem Promotes.named (promotes : Promotes g m captured) (t : PieceType) :
    Promotes g (m.named t) captured :=
  ⟨promotes.mine.named t, promotes.pawn, promotes.goes, promotes.last⟩

/-- The board after a promotion. -/
def promoted (g : Game) (m : Move) (captured : Option (Int × Int)) : Game :=
  moveUnchecked (g.setType m.rI m.cI m.promotion) m captured true

/-- What `is_illegal` answers about such a move. -/
theorem Promotes.verdict (promotes : Promotes g m captured) (judged : Judged g m (getPlayer g) v) :
    v = if m.promotion.isPromotion then ⟨0, g.setType m.rI m.cI m.promotion, captured, noCastle⟩
      else ⟨missingPromotion, g, captured, noCastle⟩ := by
  have pawn := promotes.pawn
  cases judged with
  | refused fails => exact absurd ⟨promotes.mine, Or.inr (Or.inl ⟨pawn, _, promotes.goes⟩)⟩ fails
  | officer mine officer => exact absurd pawn officer
  | pawn mine kind goes early => exact absurd promotes.last early
  | promoted mine kind goes last named =>
    obtain rfl := Option.some.inj (goes.symm.trans promotes.goes)
    rw [if_pos named]
  | unpromoted mine kind goes last unnamed =>
    obtain rfl := Option.some.inj (goes.symm.trans promotes.goes)
    rw [unnamed, if_neg Bool.false_ne_true]
  | castled mine king | stopped mine king => exact PieceType.noConfusion (pawn.symm.trans king)

/-- A promotion that is named is played unless it leaves the king in check. -/
theorem Promotes.plays_iff (sound : Sound g) (promotes : Promotes g m captured)
    (named : m.promotion.isPromotion = true) :
    Plays g m ↔ ¬ Checked (promoted g m captured) (getPlayer g) := by
  have verdict : ∀ {v}, Judged g m (getPlayer g) v →
      v = ⟨0, g.setType m.rI m.cI m.promotion, captured, noCastle⟩ :=
    fun judged => (promotes.verdict judged).trans (if_pos named)
  constructor
  · intro plays
    obtain ⟨v, judged, -, safe⟩ := plays.judged sound
    rw [verdict judged] at safe
    exact safe
  · intro safe
    obtain ⟨code, after, asked, tried⟩ := makeMoveNoCheckmate_tried sound m
    cases tried with
    | refused judged negative =>
      rw [verdict judged] at negative
      exact absurd negative (lt_irrefl 0)
    | exposed judged ok check =>
      rw [verdict judged] at check
      exact absurd check safe
    | played => exact ⟨_, asked⟩

/-- A valid move is one that is played, or a promotion that names no piece. -/
theorem valid_iff_plays (sound : Sound g) :
    Valid g m ↔ Plays g m ∨
      (m.promotion.isPromotion = false ∧ ∃ captured, Promotes g m captured) := by
  obtain ⟨code, landing, tries, tried⟩ := makeMoveNoCheckmate_tried sound m
  obtain ⟨code', after, returns, -⟩ := sound.returns m
  have accepts := returns.accepted_iff sound
  rcases tried.code with rfl | rejected
  · have accepted := accepts.mpr ⟨landing, tries⟩
    exact iff_of_true ⟨code', after, returns, accepted.1⟩ (Or.inl ⟨landing, tries⟩)
  have refuses : Returns g m code landing :=
    .of_asked fun depth => makeMove_refused (tries depth) rejected
  have rests : ¬ Plays g m := by
    intro plays
    have accepted := (refuses.accepted_iff sound).mpr plays
    exact rejected.elim accepted.1 accepted.2
  rw [or_iff_right rests]
  constructor
  · rintro ⟨other, left, answers, fits⟩
    obtain ⟨rfl, rfl⟩ := refuses.unique answers
    cases tried with
    | refused judged negative =>
      cases judged with
      | refused | stopped => exact absurd rfl fits
      | unpromoted mine kind goes last unnamed => exact ⟨unnamed, _, mine, kind, goes, last⟩
      | officer | pawn | promoted | castled => exact absurd negative (lt_irrefl 0)
    | exposed => exact absurd rfl fits
    | played => exact absurd rejected (by decide)
  · rintro ⟨unnamed, captured, promotes⟩
    have missing : code = missingPromotion := by
      have verdict : ∀ {v}, Judged g m (getPlayer g) v → v.code = missingPromotion := by
        intro v judged
        rw [promotes.verdict judged, unnamed]
        rfl
      cases tried with
      | refused judged negative => exact verdict judged
      | exposed judged ok | played judged ok =>
        rw [verdict judged] at ok
        exact absurd ok (by decide)
    exact ⟨code, landing, refuses, by rw [missing]; decide⟩

/-- `MISSING_PROMOTION` is for pawns on the last row, and changes nothing. -/
theorem Returns.missing (sound : Sound g) (returns : Returns g m missingPromotion after) :
    after = g ∧ m.promotion.isPromotion = false ∧ ∃ captured, Promotes g m captured := by
  obtain ⟨code, landing, tries, tried⟩ := makeMoveNoCheckmate_tried sound m
  have rests : ¬ Plays g m := fun plays => ((returns.accepted_iff sound).mpr plays).2 rfl
  have rejected : code = illegalMove ∨ code = missingPromotion := by
    apply tried.code.resolve_left
    rintro rfl
    exact rests ⟨landing, tries⟩
  have refuses : Returns g m code landing :=
    .of_asked fun depth => makeMove_refused (tries depth) rejected
  obtain ⟨missing, rfl⟩ := returns.unique refuses
  cases tried with
  | refused judged negative =>
    cases judged with
    | refused | stopped =>
      exact absurd (show missingPromotion = illegalMove from missing) (by decide)
    | unpromoted mine kind goes last unnamed => exact ⟨rfl, unnamed, _, mine, kind, goes, last⟩
    | officer | pawn | promoted | castled => exact absurd negative (lt_irrefl 0)
  | exposed | played => exact absurd missing (by decide)

/-- A pawn that may go to its last row is asked for a promotion. -/
theorem Promotes.missing (sound : Sound g) (promotes : Promotes g m captured)
    (unnamed : m.promotion.isPromotion = false) : Returns g m missingPromotion g := by
  obtain ⟨code, landing, tries, tried⟩ := makeMoveNoCheckmate_tried sound m
  have verdict : ∀ {v}, Judged g m (getPlayer g) v →
    v = ⟨missingPromotion, g, captured, noCastle⟩ := by
    intro v judged
    rw [promotes.verdict judged, unnamed]
    rfl
  cases tried with
  | refused judged negative =>
    have same := verdict judged
    subst same
    exact .of_asked fun depth => makeMove_refused (tries depth) (Or.inr rfl)
  | exposed judged ok | played judged ok =>
    rw [verdict judged] at ok
    exact absurd (show 0 ≤ missingPromotion from ok) (by decide)

/-- A pawn that is played to its last row was promoted. -/
theorem Plays.promotes (sound : Sound g) (plays : Plays g m)
    (pawn : (g.get m.rI m.cI).type = .pawn) (last : LastRow g m) :
    m.promotion.isPromotion = true ∧ ∃ captured, Promotes g m captured := by
  obtain ⟨v, judged, ok, -⟩ := plays.judged sound
  cases judged with
  | refused | stopped => exact absurd (show 0 ≤ illegalMove from ok) (by decide)
  | unpromoted => exact absurd (show 0 ≤ missingPromotion from ok) (by decide)
  | officer mine officer => exact absurd pawn officer
  | pawn mine kind goes early => exact absurd last early
  | promoted mine kind goes last named => exact ⟨named, _, mine, kind, goes, last⟩
  | castled mine king => exact PieceType.noConfusion (pawn.symm.trans king)

end Promotion

/-- The list is that of the moves `make_move` accepts with some promotion, in order. -/
structure Exact (g : Game) (list : List Move) : Prop where
  /-- The list is in lexicographic order, and so without duplicates. -/
  ordered : list.Pairwise Precedes
  /-- It holds the pairs of squares between which some move is accepted. -/
  listed : ∀ rI cI rF cF,
    (∃ m ∈ list, m.rI = rI ∧ m.cI = cI ∧ m.rF = rF ∧ m.cF = cF) ↔
      ∃ promotion code after, Returns g ⟨rI, cI, rF, cF, promotion⟩ code after ∧ Accepted code

/-- A pawn of the player to move could go to its last row but for the check it would leave its own
king in. -/
def PromotionPinned (g : Game) : Prop :=
  ∃ m captured, Promotes g m captured ∧
    Checked (promoted g (m.named .queen) captured) (getPlayer g)

section Exactness

variable {g : Game} {promotion : PieceType}

/-- Some promotion is accepted exactly when some promotion is played. -/
theorem accepted_pair_iff (sound : Sound g) {rI cI rF cF : Int} :
    (∃ promotion code after, Returns g ⟨rI, cI, rF, cF, promotion⟩ code after ∧ Accepted code) ↔
      ∃ promotion, Plays g ⟨rI, cI, rF, cF, promotion⟩ := by
  constructor
  · rintro ⟨promotion, code, after, returns, accepted⟩
    exact ⟨promotion, (returns.accepted_iff sound).mp accepted⟩
  · rintro ⟨promotion, plays⟩
    obtain ⟨code, after, returns, -⟩ := sound.returns ⟨rI, cI, rF, cF, promotion⟩
    exact ⟨promotion, code, after, returns, (returns.accepted_iff sound).mpr plays⟩

/-- A pair of squares is listed when its move is valid. -/
theorem listed_iff (sound : Sound g) {rI cI rF cF : Int} :
    (∃ m ∈ validMoves g promotion, m.rI = rI ∧ m.cI = cI ∧ m.rF = rF ∧ m.cF = cF) ↔
      Valid g ⟨rI, cI, rF, cF, promotion⟩ := by
  constructor
  · rintro ⟨m, mem, rfl, rfl, rfl, rfl⟩
    obtain ⟨rfl, valid⟩ := (mem_validMoves sound).mp mem
    exact valid
  · intro valid
    exact ⟨_, (mem_validMoves sound).mpr ⟨rfl, valid⟩, rfl, rfl, rfl, rfl⟩

/-- The list of the valid moves is exact when the promotion names a piece, or when no pawn is kept
from its last row by a check. -/
theorem validMoves_exact_iff (sound : Sound g) :
    Exact g (validMoves g promotion) ↔ promotion.isPromotion = true ∨ ¬ PromotionPinned g := by
  constructor
  · intro exact
    by_contra neither
    rw [not_or, not_not, Bool.not_eq_true] at neither
    obtain ⟨unnamed, m, captured, promotes, check⟩ := neither
    have valid : Valid g (m.named promotion) :=
      (valid_iff_plays sound).mpr (Or.inr ⟨unnamed, captured, promotes.named promotion⟩)
    obtain ⟨t, plays⟩ := (accepted_pair_iff sound).mp
      ((exact.listed m.rI m.cI m.rF m.cF).mp ((listed_iff sound).mpr valid))
    have crowned : Plays g (m.named .queen) := plays.named sound .queen fun _ _ => rfl
    exact ((promotes.named .queen).plays_iff sound rfl).mp crowned check
  · intro fits
    refine ⟨validMoves_precedes, fun rI cI rF cF => ?_⟩
    rw [listed_iff sound, accepted_pair_iff sound, valid_iff_plays sound]
    constructor
    · rintro (plays | ⟨unnamed, captured, promotes⟩)
      · exact ⟨promotion, plays⟩
      · have free : ¬ PromotionPinned g :=
          fits.resolve_left fun named => Bool.noConfusion (unnamed.symm.trans named)
        refine ⟨.queen, ((promotes.named .queen).plays_iff sound rfl).mpr fun check => free ?_⟩
        exact ⟨_, captured, promotes, check⟩
    · rintro ⟨t, plays⟩
      by_cases needed : ∃ captured, Promotes g ⟨rI, cI, rF, cF, promotion⟩ captured
      · cases named : promotion.isPromotion with
        | true => exact Or.inl (plays.named sound promotion fun _ _ => named)
        | false => exact Or.inr ⟨rfl, needed⟩
      · refine Or.inl (plays.named sound promotion fun pawn last => absurd ?_ needed)
        obtain ⟨v, judged, ok, -⟩ := plays.judged sound
        obtain ⟨mine, ⟨officer, -⟩ | ⟨-, captured, goes⟩ | ⟨king, -⟩⟩ := judged.passes ok
        · exact absurd pawn officer
        · exact ⟨captured, mine.named promotion, pawn, goes, last⟩
        · exact PieceType.noConfusion (pawn.symm.trans king)

end Exactness

/-- After every run, `count_valid_moves` lists exactly the moves that `make_move` accepts with some
promotion if the promotion it does not set happens to name a piece, or if no pawn that could go to
its last row would leave its own king in check; and not otherwise. It leaves the games alone. -/
theorem Run.valid_moves_exact_iff {memory g : Game} {calls : List (Move × Int)}
    (run : Run (newGame memory) calls g) {games : Games} {p : Nat} (here : games[p]? = some g)
    (promotion : PieceType) :
    ∃ list, (∀ depth, countValidMovesAt (depth + 1) p promotion moveBuffSize games =
        some (list, games)) ∧
      (Exact g list ↔ promotion.isPromotion = true ∨ ¬ PromotionPinned g) := by
  refine ⟨validMoves g promotion, fun depth => ?_,
    validMoves_exact_iff (run.sound (newGame_sound memory))⟩
  rw [countValidMovesAt_eq here, run.countValidMoves_eq]
  rfl

/-- A new game, with a promotion that happens to be nought. -/
theorem valid_moves_exact_iff_new :
    ∃ list, (∀ depth, countValidMovesAt (depth + 1) 0 .rook moveBuffSize [newGame blank] =
        some (list, [newGame blank])) ∧
      (Exact (newGame blank) list ↔
        PieceType.rook.isPromotion = true ∨ ¬ PromotionPinned (newGame blank)) :=
  (@Run.start (newGame blank)).valid_moves_exact_iff rfl .rook

/-- A pawn takes its way to b7, and a queen gives check. -/
def checkedPromotion : List Move :=
  [⟨6, 4, 4, 4, .empty⟩, ⟨1, 3, 3, 3, .empty⟩, ⟨4, 4, 3, 3, .empty⟩, ⟨1, 2, 2, 2, .empty⟩,
    ⟨3, 3, 2, 2, .empty⟩, ⟨0, 3, 3, 0, .empty⟩, ⟨2, 2, 1, 1, .empty⟩, ⟨3, 0, 3, 4, .empty⟩]

/-- What the calls return, and what capturing the rook on a8 returns without a promotion and with
one. -/
theorem checkedPromotion_codes :
    ((replay (newGame blank) checkedPromotion).1.map Prod.snd,
      (play (replay (newGame blank) checkedPromotion).2 ⟨1, 1, 0, 0, .empty⟩).1,
      (makeMoveNoCheckmate 1 (replay (newGame blank) checkedPromotion).2 ⟨1, 1, 0, 0, .queen⟩).map
        Prod.fst) =
      ([0, 0, 0, 0, 0, 0, 0, 0], missingPromotion, some illegalMove) := by
  decide +kernel

/-- White is in check and may not take the rook on a8, but the capture is listed: its promotion is
missing before anyone looks at the king. -/
theorem illegal_promotion_listed :
    ¬ ∀ (memory g : Game) (calls : List (Move × Int)) (promotion : PieceType) (list : List Move),
      Run (newGame memory) calls g → (∀ call ∈ calls, Accepted call.2 ∧ ¬ Ended call.2) →
      (∀ depth, countValidMoves (depth + 1) g promotion moveBuffSize = some list) →
        Exact g list := by
  intro always
  have codes := checkedPromotion_codes
  have sound := newGame_sound blank
  have run := (@Run.start (newGame blank)).replayed sound checkedPromotion
  rw [List.nil_append] at run
  generalize replay (newGame blank) checkedPromotion = final at codes run
  simp only [Prod.mk.injEq] at codes
  obtain ⟨played, listed, refused⟩ := codes
  have soundFinal := run.sound sound
  have zero : ∀ call ∈ final.1, call.2 = 0 := by
    intro call mem
    have code : call.2 ∈ final.1.map Prod.snd := List.mem_map_of_mem mem
    rw [played] at code
    simpa using code
  have exact := always blank final.2 final.1 .empty _ run
    (fun call mem => by rw [zero call mem]; decide) (run.countValidMoves_eq .empty)
  have pair := (exact.listed 1 1 0 0).mp
    ((listed_iff soundFinal).mpr ((valid_iff soundFinal).mpr (by rw [listed]; decide)))
  obtain ⟨t, plays⟩ := (accepted_pair_iff soundFinal).mp pair
  obtain ⟨after, crowned⟩ := plays.named soundFinal .queen fun _ _ => rfl
  rw [show makeMoveNoCheckmate 1 final.2 ⟨1, 1, 0, 0, .queen⟩ = some (0, after) from crowned 0,
    Option.map_some] at refused
  exact absurd (Option.some.inj refused) (show (0 : Int) ≠ illegalMove by decide)

end Chessh
