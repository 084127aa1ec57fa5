import Chessh.Rules.Game
import Chessh.Verif.Step

/-!
# The board as the rules see it

`placement` forgets counters, clocks and the owners of empty squares. On a board whose
pieces all have an owner and a kind, the engine's tests for an attacked square and for
check decide the notions of the rules.
-/

namespace Chessh

open Rules (Side Kind Man Square Placement Slides Reaches Attacked InCheck Inside)

/-- The kind of a piece. -/
def PieceType.kind : PieceType → Option Kind
  | .rook => some .rook
  | .knight => some .knight
  | .bishop => some .bishop
  | .queen => some .queen
  | .king => some .king
  | .pawn => some .pawn
  | .empty | .other _ => none

/-- The type of a kind. -/
def typeOf : Kind → PieceType
  | .rook => .rook
  | .knight => .knight
  | .bishop => .bishop
  | .queen => .queen
  | .king => .king
  | .pawn => .pawn

/-- The side of a player. -/
def Player.side : Player → Option Side
  | .white => some .white
  | .black => some .black
  | .other _ => none

/-- The player of a side. -/
def playerOf : Side → Player
  | .white => .white
  | .black => .black

/-- The man a square holds. -/
def Piece.man (p : Piece) : Option Man :=
  p.type.kind.bind fun kind => p.player.side.map fun side => ⟨side, kind⟩

/-- The board without its counters. -/
def Game.placement (g : Game) : Placement := fun s => (g.get s.1 s.2).man

/-- The move as a player names it. -/
def Move.ply (m : Move) : Rules.Ply := ⟨(m.rI, m.cI), (m.rF, m.cF), m.promotion.kind⟩

/-- Every piece has a kind and an owner. -/
def Known (g : Game) : Prop := ∀ r c, (g.get r c).man = none → (g.get r c).type = .empty

/-- A kind is that of one type. -/
theorem kind_eq_some {t : PieceType} {kind : Kind} : t.kind = some kind ↔ t = typeOf kind := by
  cases t <;> cases kind <;> simp [PieceType.kind, typeOf]

/-- A side is that of one player. -/
theorem side_eq_some {p : Player} {side : Side} : p.side = some side ↔ p = playerOf side := by
  cases p <;> cases side <;> simp [Player.side, playerOf]

/-- A man is the type and the owner of its piece. -/
theorem man_eq_some {p : Piece} {side : Side} {kind : Kind} :
    p.man = some ⟨side, kind⟩ ↔ p.type = typeOf kind ∧ p.player = playerOf side := by
  unfold Piece.man
  constructor
  · intro there
    obtain ⟨kind', found, there⟩ := Option.bind_eq_some_iff.mp there
    obtain ⟨side', owner, same⟩ := Option.map_eq_some_iff.mp there
    cases same
    exact ⟨kind_eq_some.mp found, side_eq_some.mp owner⟩
  · rintro ⟨type, owner⟩
    rw [kind_eq_some.mpr type, side_eq_some.mpr owner]
    rfl

/-- An empty square holds no man. -/
theorem man_empty {p : Piece} (empty : p.type = .empty) : p.man = none := by
  simp [Piece.man, empty, PieceType.kind]

/-- Different kinds have different types. -/
@[simp] theorem typeOf_inj {a b : Kind} : typeOf a = typeOf b ↔ a = b := by
  cases a <;> cases b <;> simp [typeOf]

/-- Different sides have different players. -/
@[simp] theorem playerOf_inj {a b : Side} : playerOf a = playerOf b ↔ a = b := by
  cases a <;> cases b <;> simp [playerOf]

/-- A kind is the type of a piece. -/
@[simp] theorem typeOf_ne_empty (kind : Kind) : typeOf kind ≠ .empty := by
  cases kind <;> simp [typeOf]

/-- The opponent's player. -/
@[simp] theorem otherPlayer_playerOf (side : Side) :
    otherPlayer (playerOf side) = playerOf side.other := by
  cases side <;> rfl

/-- Pawns advance as the rules say. -/
@[simp] theorem direction_playerOf (side : Side) : direction (playerOf side) = side.forward := by
  cases side <;> rfl

/-- The player to move plays one of the sides. -/
theorem exists_playerOf (g : Game) : ∃ side, getPlayer g = playerOf side := by
  rcases getPlayer_known g with white | black
  · exact ⟨.white, white⟩
  · exact ⟨.black, black⟩

section Known

variable {g : Game}

/-- A square is free when it is empty. -/
theorem Known.free (known : Known g) (r c : Int) :
    g.placement (r, c) = none ↔ (g.get r c).type = .empty :=
  ⟨known r c, man_empty⟩

/-- A piece is a man. -/
theorem Known.man (known : Known g) {r c : Int} (full : (g.get r c).type ≠ .empty) :
    ∃ side kind, (g.get r c).man = some ⟨side, kind⟩ := by
  cases there : (g.get r c).man with
  | none => exact absurd (known r c there) full
  | some man => exact ⟨man.side, man.kind, rfl⟩

/-- What the straight rule allows is sliding along a row or a column. -/
theorem Known.slides_of_rook (known : Known g) {i j r c : Int} {promotion : PieceType}
    (away : i ≠ r ∨ j ≠ c) (allowed : 0 ≤ rookIsIllegal g ⟨i, j, r, c, promotion⟩) :
    Slides g.placement Rules.straight (i, j) (r, c) := by
  obtain ⟨line, rows, cols⟩ := (rookIsIllegal_nonneg ..).mp allowed
  dsimp only at line rows cols
  have along : ∀ d ∈ Rules.straight, ∀ n : Nat, 0 < n → (r, c) = (i + n * d.1, j + n * d.2) →
      (∀ k : Nat, 0 < k → k < n → (g.get (i + k * d.1) (j + k * d.2)).type = .empty) →
      Slides g.placement Rules.straight (i, j) (r, c) :=
    fun d mem n pos target path =>
      ⟨d, mem, n, pos, target, fun k low high => (known.free _ _).mpr (path k low high)⟩
  by_cases row : i = r
  · subst row
    rcases lt_or_ge j c with right | left
    · apply along (0, 1) (by decide) (c - j).toNat (by omega) (by ext <;> dsimp only <;> omega)
      intro k low high
      have := cols (j + k) (by omega) (by omega)
      simpa using this
    · apply along (0, -1) (by decide) (j - c).toNat (by omega) (by ext <;> dsimp only <;> omega)
      intro k low high
      have := cols (j - k) (by omega) (by omega)
      simpa [sub_eq_add_neg] using this
  · obtain rfl : j = c := line.resolve_left row
    rcases lt_or_ge i r with down | up
    · apply along (1, 0) (by decide) (r - i).toNat (by omega) (by ext <;> dsimp only <;> omega)
      intro k low high
      have := rows (i + k) (by omega) (by omega)
      simpa using this
    · apply along (-1, 0) (by decide) (i - r).toNat (by omega) (by ext <;> dsimp only <;> omega)
      intro k low high
      have := rows (i - k) (by omega) (by omega)
      simpa [sub_eq_add_neg] using this

/-- The straight rule allows sliding along a row or a column. -/
theorem Known.rook_of_slides (known : Known g) {i j r c : Int} {promotion : PieceType}
    (slides : Slides g.placement Rules.straight (i, j) (r, c)) :
    0 ≤ rookIsIllegal g ⟨i, j, r, c, promotion⟩ := by
  obtain ⟨d, mem, n, pos, target, path⟩ := slides
  have free : ∀ k : Nat, 0 < k → k < n → (g.get (i + k * d.1) (j + k * d.2)).type = .empty :=
    fun k low high => (known.free _ _).mp (path k low high)
  simp only [Rules.straight, List.mem_cons, List.not_mem_nil, or_false, Prod.mk.injEq] at mem target
  refine (rookIsIllegal_nonneg ..).mpr ⟨?_, fun x low high => ?_, fun x low high => ?_⟩ <;>
    dsimp only at *
  · rcases mem with rfl | rfl | rfl | rfl <;> dsimp only at target <;> omega
  · rcases mem with rfl | rfl | rfl | rfl <;> dsimp only at target free
    · have := free (x - i).toNat (by omega) (by omega)
      rw [show i + ((x - i).toNat : Int) * 1 = x by omega] at this
      simpa using this
    · have := free (i - x).toNat (by omega) (by omega)
      rw [show i + ((i - x).toNat : Int) * -1 = x by omega] at this
      simpa using this
    · omega
    · omega
  · rcases mem with rfl | rfl | rfl | rfl <;> dsimp only at target free
    · omega
    · omega
    · have := free (x - j).toNat (by omega) (by omega)
      rw [show j + ((x - j).toNat : Int) * 1 = x by omega] at this
      simpa using this
    · have := free (j - x).toNat (by omega) (by omega)
      rw [show j + ((j - x).toNat : Int) * -1 = x by omega] at this
      simpa using this

/-- The straight rule decides sliding along rows and columns. -/
theorem Known.rook (known : Known g) {i j r c : Int} {promotion : PieceType}
    (away : i ≠ r ∨ j ≠ c) :
    0 ≤ rookIsIllegal g ⟨i, j, r, c, promotion⟩ ↔
      Slides g.placement Rules.straight (i, j) (r, c) :=
  ⟨known.slides_of_rook away, known.rook_of_slides⟩

/-- The diagonal rule decides sliding along diagonals. -/
theorem Known.bishop (known : Known g) {i j r c : Int} {promotion : PieceType}
    (away : i ≠ r ∨ j ≠ c) :
    0 ≤ bishopIsIllegal g ⟨i, j, r, c, promotion⟩ ↔
      Slides g.placement Rules.diagonal (i, j) (r, c) := by
  rw [bishopIsIllegal_nonneg _ _ away]
  dsimp only
  constructor
  · rintro ⟨slope, path⟩
    refine ⟨(if r - i < 0 then -1 else 1, if c - j < 0 then -1 else 1), ?_, (r - i).natAbs,
      by omega, ?_, fun k low high => ?_⟩
    · split <;> split <;> decide
    · ext <;> dsimp only <;> split <;> omega
    · exact (known.free _ _).mpr (path k (by omega) (by omega))
  · rintro ⟨d, mem, n, pos, target, path⟩
    simp only [Rules.diagonal, List.mem_cons, List.not_mem_nil, or_false,
      Prod.mk.injEq] at mem target
    have sign : (if r - i < 0 then (-1 : Int) else 1) = d.1 ∧
        (if c - j < 0 then (-1 : Int) else 1) = d.2 := by
      rcases mem with rfl | rfl | rfl | rfl <;> dsimp only at target ⊢ <;> constructor <;>
        split <;> omega
    have length : (r - i).natAbs = n ∧ (c - j).natAbs = n := by
      rcases mem with rfl | rfl | rfl | rfl <;> dsimp only at target <;> omega
    refine ⟨by omega, fun k low high => ?_⟩
    rw [sign.1, sign.2]
    have := (known.free _ _).mp (path k.toNat (by omega) (by omega))
    rwa [Int.toNat_of_nonneg low.le] at this

/-- The rules of the pieces decide what the pieces reach. -/
theorem Known.strikes (known : Known g) {i j r c : Int} {side : Side} {kind : Kind}
    (away : i ≠ r ∨ j ≠ c) (there : (g.get i j).man = some ⟨side, kind⟩) :
    strikes g i j r c = true ↔ Reaches g.placement ⟨side, kind⟩ (i, j) (r, c) := by
  obtain ⟨type, owner⟩ := man_eq_some.mp there
  unfold Chessh.strikes Reaches
  cases kind <;> simp only [type, typeOf, decide_eq_true_eq]
  · constructor
    · intro near
      refine ⟨fun same => ?_, near⟩
      obtain ⟨rfl, rfl⟩ := Prod.mk.inj same
      omega
    · exact And.right
  · rw [queenIsIllegal_nonneg _ _ away, known.rook away, known.bishop away, Slides.append_iff]
  · exact known.rook away
  · exact known.bishop away
  · exact knightIsIllegal_nonneg _
  · rw [owner, direction_playerOf]
    constructor
    · rintro ⟨beside, forward⟩
      exact ⟨forward.symm, beside⟩
    · rintro ⟨forward, beside⟩
      exact ⟨beside, forward.symm⟩

/-- The scan stops at a man of the opponent that attacks the square. -/
theorem Known.attacksFrom_iff (known : Known g) {r c : Int} {side : Side}
    (own : (g.get r c).type = .empty ∨ (g.get r c).player = playerOf side) (s : Square) :
    attacksFrom g r c (playerOf side) s = true ↔ ∃ kind, g.placement s = some ⟨side.other, kind⟩ ∧
      Reaches g.placement ⟨side.other, kind⟩ s (r, c) := by
  obtain ⟨i, j⟩ := s
  have away : (g.get i j).type ≠ .empty → (g.get i j).player = playerOf side.other →
      i ≠ r ∨ j ≠ c := by
    intro full owner
    by_contra here
    push Not at here
    obtain ⟨rfl, rfl⟩ := here
    rcases own with empty | own
    · exact full empty
    · rw [own, playerOf_inj] at owner
      exact Side.ne_other _ owner
  unfold attacksFrom
  simp only [Bool.and_eq_true, decide_eq_true_eq, otherPlayer_playerOf]
  constructor
  · rintro ⟨⟨full, owner⟩, hit⟩
    obtain ⟨side', kind, man⟩ := known.man full
    obtain rfl : side' = side.other := playerOf_inj.mp ((man_eq_some.mp man).2.symm.trans owner)
    exact ⟨kind, man, (known.strikes (away full owner) man).mp hit⟩
  · rintro ⟨kind, man, reaches⟩
    have man : (g.get i j).man = some ⟨side.other, kind⟩ := man
    obtain ⟨type, owner⟩ := man_eq_some.mp man
    have full : (g.get i j).type ≠ .empty := by
      rw [type]
      exact typeOf_ne_empty kind
    exact ⟨⟨full, owner⟩, (known.strikes (away full owner) man).mpr reaches⟩

/-- The attack test decides whether a square is attacked. -/
theorem Known.struck (known : Known g) {r c : Int} {side : Side}
    (own : (g.get r c).type = .empty ∨ (g.get r c).player = playerOf side) :
    Struck g r c (playerOf side) ↔ Attacked g.placement side.other (r, c) := by
  constructor
  · rintro ⟨i, j, -, hit⟩
    exact ⟨(i, j), (known.attacksFrom_iff own (i, j)).mp hit⟩
  · rintro ⟨⟨i, j⟩, attacker⟩
    have hit := (known.attacksFrom_iff own (i, j)).mpr attacker
    have full : (g.get i j).type ≠ .empty := by
      intro empty
      simp [attacksFrom, empty] at hit
    exact ⟨i, j, onBoard_of_type_ne_empty full, hit⟩

/-- The search finds the only king of a side. -/
theorem findKing_eq {side : Side} {s : Square}
    (king : ∀ t, g.placement t = some ⟨side, .king⟩ ↔ t = s) :
    findKing g (playerOf side) = some s := by
  cases found : findKing g (playerOf side) with
  | none =>
    obtain ⟨type, owner⟩ := man_eq_some.mp ((king s).mpr rfl)
    have full : (g.get s.1 s.2).type ≠ .empty := by
      rw [type]
      decide
    have missed :=
      List.find?_eq_none.mp found s ((mem_squares s).mpr (onBoard_of_type_ne_empty full))
    simp only [decide_eq_true_eq] at missed
    exact absurd ⟨type, owner⟩ missed
  | some t =>
    obtain ⟨-, type, owner⟩ := findKing_some found
    rw [Option.some_inj]
    exact (king t).mp (man_eq_some.mpr ⟨type, owner⟩)

/-- The check test decides whether the only king of a side is attacked. -/
theorem Known.checked (known : Known g) {side : Side} {s : Square}
    (king : ∀ t, g.placement t = some ⟨side, .king⟩ ↔ t = s) :
    Checked g (playerOf side) ↔ InCheck g.placement side := by
  obtain ⟨-, owner⟩ := man_eq_some.mp ((king s).mpr rfl)
  unfold Checked checkProbe
  rw [findKing_eq king]
  dsimp only
  rw [probe_fst, known.struck (Or.inr owner)]
  constructor
  · intro attacked
    exact ⟨s, (king s).mpr rfl, attacked⟩
  · rintro ⟨t, there, attacked⟩
    obtain rfl := (king t).mp there
    exact attacked

end Known

end Chessh
