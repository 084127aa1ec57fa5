import Chessh.Verif.Mobility

/-!
# How many moves there can be

A side has at most sixteen pieces, whatever is captured, promoted or refused, and no piece reaches
more than twenty-seven squares of the board. The valid moves therefore never fill the buffer of
`get_move`.
-/

namespace Chessh

/-! ## The pieces of one side -/

/-- The squares on which a player's pieces stand. -/
def menOf (g : Game) (player : Player) : Finset (Int × Int) :=
  (men g).filter fun s => (g.get s.1 s.2).player = player

/-- A square with a piece of the player. -/
@[simp] theorem mem_menOf {g : Game} {player : Player} {s : Int × Int} :
    s ∈ menOf g player ↔ (g.get s.1 s.2).type ≠ .empty ∧ (g.get s.1 s.2).player = player := by
  rw [menOf, Finset.mem_filter, mem_men]

/-- Where the piece on a square after an accepted move came from. -/
def Move.origin (m : Move) (rook : Option (Int × Int)) (s : Int × Int) : Int × Int :=
  if s = (m.rF, m.cF) then (m.rI, m.cI)
  else
    match rook with
    | some (a, b) => if s = (m.rI, b) then (m.rI, a) else s
    | none => s

section Landing

variable {g after : Game} {m : Move} {captured rook : Option (Int × Int)} {player : Player}

/-- A piece has the owner it had where it came from. -/
theorem Landed.origin_mem (landed : Landed g m captured rook after)
    (full : (g.get m.rI m.cI).type ≠ .empty) {s : Int × Int} (there : s ∈ menOf after player)
    (castles : ∀ a b, rook = some (a, b) → (g.get m.rI a).type ≠ .empty) :
    m.origin rook s ∈ menOf g player := by
  obtain ⟨r, c⟩ := s
  rw [mem_menOf] at there ⊢
  dsimp only at there
  unfold Move.origin
  by_cases target : (r, c) = (m.rF, m.cF)
  · rw [if_pos target]
    obtain ⟨rfl, rfl⟩ := Prod.mk.inj target
    rw [landed.target] at there
    exact ⟨full, there.2⟩
  rw [if_neg target]
  have kept : (∀ a, rook ≠ some (a, c) ∨ r ≠ m.rI) →
      (g.get r c).type ≠ .empty ∧ (g.get r c).player = player := by
    intro apart
    rcases landed.square r c with ⟨rfl, rfl⟩ | ⟨a, columns, row⟩ | emptied | same
    · exact absurd rfl target
    · exact absurd row ((apart a).resolve_left (not_not.mpr columns))
    · rw [emptied] at there
      exact absurd rfl there.1
    · rwa [same] at there
  cases rook with
  | none => exact kept fun a => Or.inl (Option.some_ne_none _).symm
  | some columns =>
    obtain ⟨a, b⟩ := columns
    dsimp only
    by_cases arrived : (r, c) = (m.rI, b)
    · rw [if_pos arrived]
      obtain ⟨rfl, rfl⟩ := Prod.mk.inj arrived
      rw [landed.rookTarget a c rfl] at there
      exact ⟨castles a c rfl, there.2⟩
    · rw [if_neg arrived]
      refine kept fun x => ?_
      by_cases row : r = m.rI
      · left
        intro same
        simp only [Option.some.injEq, Prod.mk.injEq] at same
        exact arrived (Prod.ext row same.2.symm)
      · exact Or.inr row

/-- No two pieces came from one square. -/
theorem Landed.origin_inj (landed : Landed g m captured rook after)
    (apart : ∀ a b, rook = some (a, b) → a ≠ m.cI) :
    Set.InjOn (m.origin rook) (menOf after player) := by
  have left : ∀ s ∈ menOf after player, s ≠ (m.rI, m.cI) := by
    rintro s there rfl
    rw [mem_menOf, landed.source] at there
    exact there.1 rfl
  cases rook with
  | none =>
    intro s there t there' same
    have gone := left s there
    have gone' := left t there'
    unfold Move.origin at same
    split_ifs at same with first second second
    · rw [first, second]
    · exact absurd same.symm gone'
    · exact absurd same gone
    · exact same
  | some columns =>
    obtain ⟨a, b⟩ := columns
    have corner : ∀ s ∈ menOf after player, s ≠ (m.rI, a) := by
      rintro s there rfl
      rw [mem_menOf, landed.rookSource a b rfl] at there
      exact there.1 rfl
    have far : (m.rI, m.cI) ≠ (m.rI, a) := fun same => apart a b rfl (Prod.mk.inj same).2.symm
    intro s there t there' same
    have gone := left s there
    have gone' := left t there'
    have vacated := corner s there
    have vacated' := corner t there'
    unfold Move.origin at same
    dsimp only at same
    split_ifs at same with first second third fourth fifth sixth
    all_goals simp_all

/-- An accepted move adds no piece to either side. -/
theorem Landed.menOf_le (landed : Landed g m captured rook after)
    (full : (g.get m.rI m.cI).type ≠ .empty)
    (castles : ∀ a b, rook = some (a, b) → a ≠ m.cI ∧ (g.get m.rI a).type ≠ .empty) :
    (menOf after player).card ≤ (menOf g player).card :=
  Finset.card_le_card_of_injOn (m.origin rook)
    (fun _ there => landed.origin_mem full there fun a b columns => (castles a b columns).2)
    (landed.origin_inj fun a b columns => (castles a b columns).1)

/-- A scribble keeps the pieces of both sides. -/
theorem Scribbled.menOf (scribbled : Scribbled g after) : menOf after player = menOf g player := by
  ext s
  rw [mem_menOf, mem_menOf]
  rcases scribbled.square s.1 s.2 with same | ⟨empty, owner, owned⟩ | ⟨pawn, -, t, named, made⟩
  · rw [same]
  · rw [owned]
    simp [empty]
  · rw [made, pawn]
    refine and_congr_left fun _ => iff_of_true ?_ (by decide)
    rintro rfl
    exact Bool.noConfusion named

/-- A call adds no piece to either side. -/
theorem Made.menOf_le {code : Int} (sound : Sound g) (made : Made g m code after) :
    (Chessh.menOf after player).card ≤ (Chessh.menOf g player).card := by
  rcases made.effect sound with ⟨-, scribbled⟩ | ⟨-, v, landing, judged, ok, -,
    landed, -, scribbled⟩
  · rw [scribbled.menOf]
  · rw [scribbled.menOf]
    refine landed.menOf_le (judged.mine ok).full fun a b columns => ?_
    obtain ⟨cc, castling, -⟩ := judged.castling ok columns
    have ahead := castling.beyond.2.2
    refine ⟨?_, by rw [castling.rook]; decide⟩
    rintro rfl
    simp at ahead

end Landing

/-- A new game has sixteen pieces a side. -/
theorem newGame_menOf (memory : Game) {player : Player}
    (known : player = .white ∨ player = .black) :
    (menOf (newGame memory) player).card = 16 := by
  have same : menOf (newGame memory) player = menOf (newGame blank) player := by
    ext ⟨r, c⟩
    rw [mem_menOf, mem_menOf]
    by_cases on : OnBoard r c
    · obtain ⟨i, j, rfl, rfl⟩ := on.exists_fin
      have rows : newType i j ≠ .empty → i.val < 2 ∨ 6 ≤ i.val := by revert i j; decide
      rw [newGame_get, newGame_get]
      refine and_congr_right fun full => ?_
      dsimp only at full ⊢
      rcases rows full with low | high
      · rw [if_pos low, if_pos low]
      · rw [if_pos high, if_pos high]
    · rw [Game.get_off on, Game.get_off on]
  rw [same]
  rcases known with rfl | rfl <;> decide +kernel

/-- Along every run a side has at most sixteen pieces. -/
theorem Run.menOf_le {memory g : Game} {calls : List (Move × Int)}
    (run : Run (newGame memory) calls g) {player : Player}
    (known : player = .white ∨ player = .black) : (menOf g player).card ≤ 16 := by
  induction run with
  | start => exact (newGame_menOf memory known).le
  | step run returns ih =>
    have sound := run.sound (newGame_sound memory)
    exact ((returns.made sound).menOf_le sound).trans ih

/-! ## The reach of a piece -/

/-- The squares a kind of piece could go to on an empty board, and more: a knight jumps, and every
other piece stays on a row, a column or a diagonal. -/
def withinReach (kind : PieceType) (s t : Int × Int) : Bool :=
  if kind = .knight then
    decide ((t.1 - s.1).natAbs = 1 ∧ (t.2 - s.2).natAbs = 2 ∨
      (t.1 - s.1).natAbs = 2 ∧ (t.2 - s.2).natAbs = 1)
  else
    decide ((t.1 = s.1 ∨ t.2 = s.2 ∨ (t.1 - s.1).natAbs = (t.2 - s.2).natAbs) ∧ t ≠ s)

/-- Two squares apart on one line. -/
theorem withinReach_line {kind : PieceType} (slides : kind ≠ .knight) {s t : Int × Int} :
    withinReach kind s t = true ↔
      (t.1 = s.1 ∨ t.2 = s.2 ∨ (t.1 - s.1).natAbs = (t.2 - s.2).natAbs) ∧ t ≠ s := by
  rw [withinReach, if_neg slides, decide_eq_true_iff]

/-- A move that passes its checks stays within reach. -/
theorem Passes.withinReach {g : Game} {m : Move} {player : Player} (passes : Passes g m player) :
    withinReach (g.get m.rI m.cI).type (m.rI, m.cI) (m.rF, m.cF) = true := by
  obtain ⟨mine, ways⟩ := passes
  have away : m.rI ≠ m.rF ∨ m.cI ≠ m.cF := mine.away
  have apart : (m.rF, m.cF) ≠ (m.rI, m.cI) := by
    intro same
    have := Prod.mk.inj same
    omega
  rcases ways with ⟨officer, hit⟩ | ⟨pawn, captured, goes⟩ | ⟨king, cc, stop, castling⟩
  · unfold strikes at hit
    cases kind : (g.get m.rI m.cI).type with
    | knight =>
      simp only [kind, decide_eq_true_eq, knightIsIllegal_nonneg] at hit
      exact decide_eq_true hit
    | rook =>
      simp only [kind, decide_eq_true_eq, rookIsIllegal_nonneg] at hit
      exact (withinReach_line (by decide)).mpr ⟨by dsimp only; omega, apart⟩
    | bishop =>
      simp only [kind, decide_eq_true_eq,
        bishopIsIllegal_nonneg g ⟨m.rI, m.cI, m.rF, m.cF, .queen⟩ away] at hit
      exact (withinReach_line (by decide)).mpr ⟨Or.inr (Or.inr hit.1), apart⟩
    | queen =>
      simp only [kind, decide_eq_true_eq,
        queenIsIllegal_nonneg g ⟨m.rI, m.cI, m.rF, m.cF, .queen⟩ away, rookIsIllegal_nonneg,
        bishopIsIllegal_nonneg g ⟨m.rI, m.cI, m.rF, m.cF, .queen⟩ away] at hit
      exact (withinReach_line (by decide)).mpr ⟨by dsimp only; omega, apart⟩
    | king =>
      simp only [kind, decide_eq_true_eq] at hit
      exact (withinReach_line (by decide)).mpr ⟨by dsimp only; omega, apart⟩
    | pawn => exact absurd kind officer
    | empty | other => simp [kind] at hit
  · rw [pawn, withinReach_line (by decide)]
    have step := direction_eq (g.get m.rI m.cI).player
    refine ⟨?_, apart⟩
    cases pawnGoes_iff.mp goes with
    | step straight | double straight => exact Or.inr (Or.inl straight)
    | takes beside row | passing beside row => exact Or.inr (Or.inr (by dsimp only; omega))
  · rw [king, withinReach_line (by decide)]
    exact ⟨Or.inl castling.row, apart⟩

/-- A piece has at most twenty-seven squares within reach. -/
theorem withinReach_card (kind : PieceType) {s : Int × Int} (on : s ∈ squares) :
    (squares.toFinset.filter fun t => withinReach kind s t = true).card ≤ 27 := by
  have knights : ∀ s ∈ squares,
      (squares.toFinset.filter fun t => withinReach .knight s t = true).card ≤ 27 := by
    decide +kernel
  have lines : ∀ s ∈ squares,
      (squares.toFinset.filter fun t => withinReach .queen s t = true).card ≤ 27 := by
    decide +kernel
  by_cases jumps : kind = .knight
  · rw [jumps]
    exact knights s on
  · have same : ∀ t, withinReach kind s t = withinReach .queen s t := by
      intro t
      rw [withinReach, withinReach, if_neg jumps, if_neg (by decide)]
    simp only [same]
    exact lines s on

/-! ## The number of valid moves -/

/-- `move_is_valid` returns true. -/
def Valid (g : Game) (m : Move) : Prop := ∃ code after, Returns g m code after ∧ code ≠ illegalMove

section Valid

variable {g after : Game} {m : Move} {code : Int}

/-- A call that does not answer `ILLEGAL_MOVE` passed the checks. -/
theorem Made.passes (made : Made g m code after) (valid : code ≠ illegalMove) :
    Passes g m (getPlayer g) := by
  have played : ∀ {code landing}, Tried g m code landing → code ≠ illegalMove →
      Passes g m (getPlayer g) := by
    intro code landing tried valid
    cases tried with
    | refused judged negative =>
      cases judged with
      | refused | stopped => exact absurd rfl valid
      | unpromoted mine kind goes => exact ⟨mine, Or.inr (Or.inl ⟨kind, _, goes⟩)⟩
      | officer | pawn | promoted | castled => exact absurd negative (lt_irrefl 0)
    | exposed => exact absurd rfl valid
    | played judged ok => exact judged.passes ok
  cases made with
  | refused tried => exact played tried valid
  | expired tried | offered tried | continued tried | mated tried | stalemated tried =>
    exact played tried (by decide)

/-- A valid move passes the checks, whatever its promotion. -/
theorem Valid.passes (sound : Sound g) (valid : Valid g m) : Passes g m (getPlayer g) := by
  obtain ⟨code, after, returns, fits⟩ := valid
  exact (returns.made sound).passes fits

/-- The executed call decides whether a move is valid. -/
theorem valid_iff (sound : Sound g) : Valid g m ↔ (play g m).1 ≠ illegalMove := by
  constructor
  · rintro ⟨code, after, returns, fits⟩
    rw [(sound.played m).unique returns |>.1]
    exact fits
  · exact fun fits => ⟨_, _, sound.played m, fits⟩

/-- The squares of the board as a set, which nothing is gained by evaluating. -/
@[irreducible] def boardSquares : Finset (Int × Int) := squares.toFinset

/-- The squares of the board. -/
theorem mem_boardSquares {s : Int × Int} : s ∈ boardSquares ↔ OnBoard s.1 s.2 := by
  unfold boardSquares
  exact List.mem_toFinset.trans (mem_squares s)

open Classical in
/-- The pairs of squares between which some move is valid. -/
noncomputable def validPairs (g : Game) : Finset ((Int × Int) × (Int × Int)) :=
  (boardSquares ×ˢ boardSquares).filter fun pair =>
    ∃ promotion, Valid g ⟨pair.1.1, pair.1.2, pair.2.1, pair.2.2, promotion⟩

/-- A pair of squares with a valid move. -/
theorem mem_validPairs (sound : Sound g) {pair : (Int × Int) × (Int × Int)} :
    pair ∈ validPairs g ↔
      ∃ promotion, Valid g ⟨pair.1.1, pair.1.2, pair.2.1, pair.2.2, promotion⟩ := by
  classical
  simp only [validPairs, Finset.mem_filter, Finset.mem_product, mem_boardSquares]
  apply and_iff_right_of_imp
  rintro ⟨promotion, valid⟩
  have mine := (valid.passes sound).1
  exact ⟨mine.onS, mine.onT⟩

/-- Every piece of the player accounts for at most twenty-seven of them. -/
theorem validPairs_card (sound : Sound g) :
    (validPairs g).card ≤ 27 * (menOf g (getPlayer g)).card := by
  have owned : ∀ pair ∈ validPairs g, pair.1 ∈ menOf g (getPlayer g) := by
    intro pair there
    obtain ⟨promotion, valid⟩ := (mem_validPairs sound).mp there
    have mine := (valid.passes sound).1
    exact mem_menOf.mpr ⟨mine.full, mine.owner⟩
  refine Finset.card_le_mul_card_image_of_maps_to owned 27 fun s there => ?_
  have on : s ∈ squares := (mem_squares s).mpr (onBoard_of_type_ne_empty (mem_menOf.mp there).1)
  refine le_trans (Finset.card_le_card_of_injOn Prod.snd ?_ ?_)
    (withinReach_card (g.get s.1 s.2).type on)
  · intro pair mem
    rw [Finset.mem_coe, Finset.mem_filter] at mem
    obtain ⟨mem, rfl⟩ := mem
    obtain ⟨promotion, valid⟩ := (mem_validPairs sound).mp mem
    have passes := valid.passes sound
    rw [Finset.mem_coe, Finset.mem_filter, List.mem_toFinset, mem_squares]
    exact ⟨passes.1.onT, passes.withinReach⟩
  · intro pair mem pair' mem' same
    rw [Finset.mem_coe, Finset.mem_filter] at mem mem'
    exact Prod.ext (mem.2.trans mem'.2.symm) same

end Valid

/-- Along every run there are fewer than 512 of them. -/
theorem Run.validPairs_few {memory g : Game} {calls : List (Move × Int)}
    (run : Run (newGame memory) calls g) : (validPairs g).card < 512 := by
  have bound := validPairs_card (run.sound (newGame_sound memory))
  have few := run.menOf_le (getPlayer_known g)
  omega

end Chessh
