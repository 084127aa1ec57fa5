import Chessh.Verif.Census
import Chessh.Verif.Memory

/-!
# Material

Where the pieces of a side come from. A call of `make_move`, also one that is refused, leaves each
piece what it was, or makes a pawn a queen, a rook, a bishop or a knight; and no two pieces come
from one. A side therefore has no more officers than it began with but for those it has paid for
with pawns: `Run.material`.
-/

namespace Chessh

/-! ## Descent -/

/-- A piece of the first kind may become one of the second. -/
def Becomes (old now : PieceType) : Prop := now = old ∨ old = .pawn ∧ now.isPromotion = true

/-- No officer becomes anything else. -/
theorem Becomes.trans {a b c : PieceType} (first : Becomes a b) (second : Becomes b c) :
    Becomes a c := by
  rcases first with rfl | ⟨pawn, named⟩
  · exact second
  · rcases second with rfl | ⟨rfl, -⟩
    · exact Or.inr ⟨pawn, named⟩
    · cases named

/-- The pieces of a player come from pieces of an earlier game, no two of them from one. -/
structure Descends (player : Player) (old g : Game) (origin : Int × Int → Int × Int) : Prop where
  maps : ∀ s ∈ menOf g player, origin s ∈ menOf old player
  apart : Set.InjOn origin (menOf g player)
  becomes : ∀ s ∈ menOf g player,
    Becomes (old.get (origin s).1 (origin s).2).type (g.get s.1 s.2).type

section Descent

variable {player : Player} {g after old : Game} {m : Move} {captured rook : Option (Int × Int)}
  {origin origin' : Int × Int → Int × Int}

/-- Descent goes back and back. -/
theorem Descends.trans (first : Descends player old g origin)
    (second : Descends player g after origin') :
    Descends player old after (origin ∘ origin') where
  maps s there := first.maps _ (second.maps s there)
  apart := first.apart.comp second.apart second.maps
  becomes s there := (first.becomes _ (second.maps s there)).trans (second.becomes s there)

/-- A scribble moves no piece. -/
theorem Scribbled.descends (scribbled : Scribbled g after) : Descends player g after id where
  maps s there := by
    rw [← scribbled.menOf]
    exact there
  apart := Function.injective_id.injOn
  becomes s there := by
    rcases scribbled.square s.1 s.2 with same | ⟨empty, owner, owned⟩ | ⟨pawn, -, t, named, made⟩
    · exact Or.inl (by rw [id, same])
    · rw [mem_menOf, owned] at there
      exact absurd empty there.1
    · exact Or.inr ⟨pawn, by rw [made]; exact named⟩

/-- What arrives has moved there, or become something better. -/
theorem Judged.becomes {v : Verdict} (judged : Judged g m player v) (ok : 0 ≤ v.code) :
    Becomes (g.get m.rI m.cI).type (arrivalType g m) := by
  unfold arrivalType
  split
  · rename_i promotes
    cases judged with
    | refused | unpromoted | stopped => simp [Verdict.plain, illegalMove, missingPromotion] at ok
    | officer mine kind hit => exact absurd promotes.1 kind
    | pawn mine kind goes early => exact absurd promotes.2 early
    | promoted mine kind goes last named => exact Or.inr ⟨kind, named⟩
    | castled mine kind castling empty safe passing arriving =>
      exact absurd (kind.symm.trans promotes.1) (by decide)
  · exact Or.inl rfl

/-- A piece that has not just arrived at the end of the move is what it was. -/
theorem Landed.origin_type (landed : Landed g m captured rook after) {s : Int × Int}
    (there : (after.get s.1 s.2).type ≠ .empty) (elsewhere : s ≠ (m.rF, m.cF)) :
    (after.get s.1 s.2).type = (g.get (m.origin rook s).1 (m.origin rook s).2).type := by
  obtain ⟨r, c⟩ := s
  dsimp only at there ⊢
  unfold Move.origin
  rw [if_neg elsewhere]
  have kept : (∀ a, rook ≠ some (a, c) ∨ r ≠ m.rI) → (after.get r c).type = (g.get r c).type := by
    intro apart
    rcases landed.square r c with ⟨rfl, rfl⟩ | ⟨a, columns, row⟩ | emptied | same
    · exact absurd rfl elsewhere
    · exact absurd row ((apart a).resolve_left (not_not.mpr columns))
    · rw [emptied] at there
      exact absurd rfl there
    · rw [same]
  cases rook with
  | none => exact kept fun a => Or.inl (Option.some_ne_none _).symm
  | some columns =>
    obtain ⟨a, b⟩ := columns
    dsimp only
    by_cases arrived : (r, c) = (m.rI, b)
    · rw [if_pos arrived]
      obtain ⟨rfl, rfl⟩ := Prod.mk.inj arrived
      rw [landed.rookTarget a c rfl]
    · rw [if_neg arrived]
      refine kept fun x => ?_
      by_cases row : r = m.rI
      · left
        intro same
        simp only [Option.some.injEq, Prod.mk.injEq] at same
        exact arrived (Prod.ext row same.2.symm)
      · exact Or.inr row

/-- The pieces after a call come from those before it. -/
theorem Made.descends {code : Int} (sound : Sound g) (made : Made g m code after) :
    ∃ origin, Descends player g after origin := by
  rcases made.effect sound with ⟨-, scribbled⟩ | ⟨-, v, landing, judged, ok, -,
    landed, -, scribbled⟩
  · exact ⟨id, scribbled.descends⟩
  · have castles : ∀ a b, v.rook = some (a, b) → a ≠ m.cI ∧ (g.get m.rI a).type ≠ .empty := by
      intro a b columns
      obtain ⟨cc, castling, -⟩ := judged.castling ok columns
      have ahead := castling.beyond.2.2
      refine ⟨?_, by rw [castling.rook]; decide⟩
      rintro rfl
      simp at ahead
    have lands : Descends player g landing (m.origin v.rook) := by
      refine ⟨fun s there => ?_, landed.origin_inj fun a b columns => (castles a b columns).1,
        fun s there => ?_⟩
      · exact landed.origin_mem (judged.mine ok).full there fun a b columns =>
          (castles a b columns).2
      · by_cases target : s = (m.rF, m.cF)
        · have origin : m.origin v.rook (m.rF, m.cF) = (m.rI, m.cI) := if_pos rfl
          rw [target, origin, landed.target]
          exact judged.becomes ok
        · exact Or.inl (landed.origin_type (mem_menOf.mp there).1 target)
    exact ⟨_, lands.trans scribbled.descends⟩

/-- The pieces at the end of a run come from those at its start. -/
theorem Run.descends {calls : List (Move × Int)} (sound : Sound old) (run : Run old calls g)
    (player : Player) :
    ∃ origin, Descends player old g origin := by
  induction run with
  | start =>
    exact ⟨id, fun s there => there, Function.injective_id.injOn, fun s there => Or.inl rfl⟩
  | step run returns ih =>
    have here := run.sound sound
    obtain ⟨origin, descends⟩ := ih
    obtain ⟨origin', next⟩ := (returns.made here).descends here
    exact ⟨_, descends.trans next⟩

end Descent

/-! ## Counting -/

/-- How many pieces of a kind a player has. -/
def countOf (g : Game) (player : Player) (kind : PieceType) : Nat :=
  ((menOf g player).filter fun s => (g.get s.1 s.2).type = kind).card

/-- What a pawn may become. -/
def officers : Finset PieceType := {.queen, .rook, .bishop, .knight}

theorem mem_officers {kind : PieceType} : kind ∈ officers ↔ kind.isPromotion = true := by
  cases kind <;> simp [officers, PieceType.isPromotion]

theorem pawn_not_officer : PieceType.pawn ∉ officers := by decide

section Counting

variable {player : Player} {old g : Game} {origin : Int × Int → Int × Int}

/-- The pieces that were pawns. -/
def risen (old g : Game) (player : Player) (origin : Int × Int → Int × Int) : Finset (Int × Int) :=
  (menOf g player).filter fun s => (old.get (origin s).1 (origin s).2).type = .pawn

/-- No more pieces were pawns than there were pawns. -/
theorem Descends.risen_le (descends : Descends player old g origin) :
    (risen old g player origin).card ≤ countOf old player .pawn := by
  refine Finset.card_le_card_of_injOn origin (fun s there => ?_) fun s there t there' same => ?_
  · obtain ⟨mine, pawn⟩ := Finset.mem_filter.mp there
    exact Finset.mem_filter.mpr ⟨descends.maps s mine, pawn⟩
  · exact descends.apart (Finset.mem_filter.mp there).1 (Finset.mem_filter.mp there').1 same

/-- What was a pawn is one still, or an officer. -/
theorem Descends.risen_type (descends : Descends player old g origin) {s : Int × Int}
    (there : s ∈ risen old g player origin) : (g.get s.1 s.2).type ∈ insert .pawn officers := by
  obtain ⟨mine, pawn⟩ := Finset.mem_filter.mp there
  rw [Finset.mem_insert, mem_officers]
  rcases descends.becomes s mine with same | ⟨-, named⟩
  · exact Or.inl (same.trans pawn)
  · exact Or.inr named

/-- The pieces of a kind that were no pawns were of this kind before. -/
theorem Descends.kept_le (descends : Descends player old g origin) (kind : PieceType) :
    ((menOf g player).filter fun s => (g.get s.1 s.2).type = kind
        ∧ ¬(old.get (origin s).1 (origin s).2).type = .pawn).card ≤ countOf old player kind := by
  refine Finset.card_le_card_of_injOn origin (fun s there => ?_) fun s there t there' same => ?_
  · obtain ⟨mine, sort, other⟩ := Finset.mem_filter.mp there
    refine Finset.mem_filter.mpr ⟨descends.maps s mine, ?_⟩
    rcases descends.becomes s mine with same | ⟨pawn, -⟩
    · exact same.symm.trans sort
    · exact absurd pawn other
  · exact descends.apart (Finset.mem_filter.mp there).1 (Finset.mem_filter.mp there').1 same

/-- The pieces of a kind: those there were, and the pawns that became one. -/
theorem Descends.countOf_le (descends : Descends player old g origin) (kind : PieceType) :
    countOf g player kind ≤ countOf old player kind
      + ((risen old g player origin).filter fun s => (g.get s.1 s.2).type = kind).card := by
  have parts := Finset.card_filter_add_card_filter_not
    (s := (menOf g player).filter fun s => (g.get s.1 s.2).type = kind)
    (fun s => (old.get (origin s).1 (origin s).2).type = .pawn)
  rw [Finset.filter_filter, Finset.filter_filter] at parts
  have kept := descends.kept_le kind
  have rose : ((menOf g player).filter fun s => (g.get s.1 s.2).type = kind
      ∧ (old.get (origin s).1 (origin s).2).type = .pawn)
      = (risen old g player origin).filter fun s => (g.get s.1 s.2).type = kind := by
    rw [risen, Finset.filter_filter]
    simp only [and_comm]
  rw [rose] at parts
  rw [countOf, ← parts, Nat.add_comm]
  exact Nat.add_le_add_right kept _

/-- Every pawn was a pawn. -/
theorem Descends.pawns (descends : Descends player old g origin) :
    countOf g player .pawn
      = ((risen old g player origin).filter fun s => (g.get s.1 s.2).type = .pawn).card := by
  unfold countOf
  congr 1
  ext s
  simp only [risen, Finset.mem_filter]
  constructor
  · rintro ⟨mine, pawn⟩
    refine ⟨⟨mine, ?_⟩, pawn⟩
    rcases descends.becomes s mine with same | ⟨was, -⟩
    · exact same.symm.trans pawn
    · exact was
  · rintro ⟨⟨mine, -⟩, pawn⟩
    exact ⟨mine, pawn⟩

/-- A king was a king. -/
theorem Descends.kings (descends : Descends player old g origin) :
    countOf g player .king ≤ countOf old player .king := by
  refine Finset.card_le_card_of_injOn origin (fun s there => ?_) fun s there t there' same => ?_
  · obtain ⟨mine, king⟩ := Finset.mem_filter.mp there
    refine Finset.mem_filter.mpr ⟨descends.maps s mine, ?_⟩
    rcases descends.becomes s mine with same | ⟨-, named⟩
    · exact same.symm.trans king
    · rw [king] at named
      cases named
  · exact descends.apart (Finset.mem_filter.mp there).1 (Finset.mem_filter.mp there').1 same

/-- Every officer too many has cost a pawn. -/
theorem Descends.pays (descends : Descends player old g origin) :
    countOf g player .pawn + ∑ kind ∈ officers, (countOf g player kind - countOf old player kind)
      ≤ countOf old player .pawn := by
  calc countOf g player .pawn + ∑ kind ∈ officers, (countOf g player kind - countOf old player kind)
      ≤ ((risen old g player origin).filter fun s => (g.get s.1 s.2).type = .pawn).card
        + ∑ kind ∈ officers,
            ((risen old g player origin).filter fun s => (g.get s.1 s.2).type = kind).card := by
        rw [descends.pawns]
        refine Nat.add_le_add_left (Finset.sum_le_sum fun kind _ => ?_) _
        exact Nat.sub_le_iff_le_add'.mpr (descends.countOf_le kind)
    _ = ∑ kind ∈ insert .pawn officers,
          ((risen old g player origin).filter fun s => (g.get s.1 s.2).type = kind).card :=
        by rw [Finset.sum_insert pawn_not_officer]
    _ = (risen old g player origin).card :=
        (Finset.card_eq_sum_card_fiberwise fun s there => descends.risen_type there).symm
    _ ≤ countOf old player .pawn := descends.risen_le

end Counting

/-- Games that look alike have the same pieces. -/
theorem Image.countOf {shift : Int} {g h : Game} (image : Image false shift g h) {player : Player}
    {kind : PieceType} : countOf h player kind = Chessh.countOf g player kind := by
  unfold Chessh.countOf
  congr 1
  ext ⟨r, c⟩
  have square : Counterpart false shift (g.get r c) (h.get r c) := image.square r c
  simp only [Finset.mem_filter, mem_menOf]
  rw [square.type]
  refine and_congr_left fun _ => and_congr_right fun full => ?_
  have owner : (h.get r c).player = (g.get r c).player := square.owner full
  rw [owner]

/-- What a side begins with. -/
theorem newGame_counts (memory : Game) {player : Player}
    (known : player = .white ∨ player = .black) :
    countOf (newGame memory) player .pawn = 8 ∧ countOf (newGame memory) player .queen = 1 ∧
    countOf (newGame memory) player .rook = 2 ∧ countOf (newGame memory) player .bishop = 2 ∧
    countOf (newGame memory) player .knight = 2 ∧ countOf (newGame memory) player .king = 1 := by
  simp only [(newGame_image blank memory).countOf]
  rcases known with rfl | rfl <;> decide +kernel

/-- Along every run, refused calls and all, every queen a side has beyond its first, and every rook,
bishop and knight beyond its second, has cost it one of eight pawns, and there is no second king.
From any point on, every officer a side gains costs it one of the pawns it then has. -/
theorem Run.material {memory g later : Game} {calls more : List (Move × Int)}
    (run : Run (newGame memory) calls g) (onward : Run g more later) {player : Player}
    (known : player = .white ∨ player = .black) :
    (countOf g player .pawn + (countOf g player .queen - 1) + (countOf g player .rook - 2)
        + (countOf g player .bishop - 2) + (countOf g player .knight - 2) ≤ 8 ∧
      countOf g player .king ≤ 1) ∧
    (countOf later player .pawn
        + ∑ kind ∈ officers, (countOf later player kind - countOf g player kind)
        ≤ countOf g player .pawn ∧
      countOf later player .king ≤ countOf g player .king) := by
  have sound := newGame_sound memory
  obtain ⟨origin, descends⟩ := run.descends sound player
  obtain ⟨origin', next⟩ := onward.descends (run.sound sound) player
  obtain ⟨pawns, queens, rooks, bishops, knights, kings⟩ := newGame_counts memory known
  refine ⟨⟨?_, ?_⟩, next.pays, next.kings⟩
  · have pays := descends.pays
    have apart : PieceType.queen ∉ ({.rook, .bishop, .knight} : Finset PieceType)
        ∧ PieceType.rook ∉ ({.bishop, .knight} : Finset PieceType)
        ∧ PieceType.bishop ∉ ({.knight} : Finset PieceType) := by decide
    rw [officers, Finset.sum_insert apart.1, Finset.sum_insert apart.2.1,
      Finset.sum_insert apart.2.2,
      Finset.sum_singleton, pawns, queens, rooks, bishops, knights] at pays
    omega
  · have few := descends.kings
    rwa [kings] at few

/-- White's rook pawn walks to the seventh row and takes a pawn there, and Black's comes down. -/
def pawnWalk : List Move :=
  [⟨6, 0, 4, 0, .empty⟩, ⟨1, 7, 2, 7, .empty⟩, ⟨4, 0, 3, 0, .empty⟩, ⟨2, 7, 3, 7, .empty⟩,
    ⟨3, 0, 2, 0, .empty⟩, ⟨3, 7, 4, 7, .empty⟩, ⟨2, 0, 1, 1, .empty⟩, ⟨4, 7, 5, 7, .empty⟩]

/-- White takes a rook and promotes, and Black takes a pawn. -/
def pawnCrowned : List Move := [⟨1, 1, 0, 0, .queen⟩, ⟨5, 7, 6, 6, .empty⟩]

/-- The pieces of White before and after that. -/
theorem pawnCrowned_counts :
    let g := (replay (newGame blank) pawnWalk).2
    let later := (replay g pawnCrowned).2
    countOf g .white .pawn = 8 ∧ countOf g .white .queen = 1 ∧
      countOf later .white .pawn = 6 ∧ countOf later .white .queen = 2 := by
  decide +kernel

/-- The second queen and the pawn that is taken cost White two pawns. -/
theorem material_crowned :
    let g := (replay (newGame blank) pawnWalk).2
    let later := (replay g pawnCrowned).2
    (countOf later .white .pawn = 6 ∧ countOf later .white .queen = 2) ∧
    (countOf later .white .pawn
        + ∑ kind ∈ officers, (countOf later .white kind - countOf g .white kind)
        ≤ countOf g .white .pawn ∧
      countOf later .white .king ≤ countOf g .white .king) := by
  have run := Run.start.replayed (newGame_sound blank) pawnWalk
  have onward := Run.start.replayed (run.sound (newGame_sound blank)) pawnCrowned
  exact ⟨pawnCrowned_counts.2.2, (Run.material run onward (Or.inl rfl)).2⟩

end Chessh
