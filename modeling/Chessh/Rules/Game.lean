import Chessh.Rules.Position

/-!
# Games, and two changes a position hardly notices

The starting position and the positions that sequences of moves lead to. Two variations are
compared with the game as played: naming another promotion never changes whether a move is
legal, and turning an enemy pawn into a queen never makes a move legal.
-/

namespace Rules

/-! ## The starting position -/

/-- The officers of a home row by column. -/
def officer (c : Int) : Option Kind :=
  if c = 0 ∨ c = 7 then some .rook
  else if c = 1 ∨ c = 6 then some .knight
  else if c = 2 ∨ c = 5 then some .bishop
  else if c = 3 then some .queen
  else if c = 4 then some .king
  else none

/-- The placement games start from. -/
def initialBoard : Placement := fun s =>
  if s.1 = 0 then (officer s.2).map (Man.mk .black)
  else if s.1 = 1 ∧ 0 ≤ s.2 ∧ s.2 < 8 then some ⟨.black, .pawn⟩
  else if s.1 = 6 ∧ 0 ≤ s.2 ∧ s.2 < 8 then some ⟨.white, .pawn⟩
  else if s.1 = 7 then (officer s.2).map (Man.mk .white)
  else none

/-- The position games start from. -/
def initial : Position where
  board := initialBoard
  turn := .white
  rights _ _ := True
  passing := none

/-- The position after a sequence of moves. -/
def Position.plays (pos : Position) (moves : List Ply) : Position := moves.foldl Position.play pos

/-- Sequences of moves are made one after the other. -/
theorem Position.plays_append (pos : Position) (first second : List Ply) :
    pos.plays (first ++ second) = (pos.plays first).plays second :=
  List.foldl_append

/-- Each move of the sequence is legal where it is made. -/
def Position.Lawful (pos : Position) : List Ply → Prop
  | [] => True
  | m :: rest => pos.Legal m ∧ (pos.play m).Lawful rest

/-- A sequence is lawful when its first part is and the rest is lawful from there. -/
theorem Position.lawful_append {pos : Position} {first second : List Ply} :
    pos.Lawful (first ++ second) ↔ pos.Lawful first ∧ (pos.plays first).Lawful second := by
  induction first generalizing pos with
  | nil => simp [Lawful, plays]
  | cons m rest ih =>
    rw [List.cons_append, Lawful, Lawful, ih, and_assoc]
    rfl

/-- No move of the sequence takes a man. -/
def Position.Quiet (pos : Position) : List Ply → Prop
  | [] => True
  | m :: rest => ¬ pos.Captures m ∧ (pos.play m).Quiet rest

/-- The side to move has no legal move. -/
def Position.Stuck (pos : Position) : Prop := ∀ m, ¬ pos.Legal m

/-- The side to move is checkmated. -/
def Position.Mated (pos : Position) : Prop := InCheck pos.board pos.turn ∧ pos.Stuck

/-- The column of an officer. -/
theorem officer_some {c : Int} {kind : Kind} (there : officer c = some kind) :
    (0 ≤ c ∧ c < 8) ∧ kind ≠ .pawn ∧ (kind = .king → c = 4) ∧ (kind = .queen → c = 3) ∧
      (kind = .rook → c = 0 ∨ c = 7) ∧ (kind = .bishop → c = 2 ∨ c = 5) := by
  unfold officer at there
  split at there
  · cases there
    simp
    omega
  split at there
  · cases there
    simp
    omega
  split at there
  · cases there
    simp
    omega
  split at there
  · cases there
    simp
    omega
  split at there
  · cases there
    simp
    omega
  · cases there

/-- A man of the starting position is an officer on its home row or a pawn on its start
row. -/
theorem initialBoard_some {s : Square} {man : Man} (there : initialBoard s = some man) :
    (0 ≤ s.2 ∧ s.2 < 8) ∧ ((s.1 = man.side.homeRow ∧ officer s.2 = some man.kind) ∨
      (s.1 = man.side.pawnRow ∧ man.kind = .pawn)) := by
  unfold initialBoard at there
  split at there
  · rename_i row
    obtain ⟨kind, found, rfl⟩ := Option.map_eq_some_iff.mp there
    exact ⟨(officer_some found).1, Or.inl ⟨row, found⟩⟩
  split at there
  · rename_i row
    cases there
    exact ⟨row.2, Or.inr ⟨row.1, rfl⟩⟩
  split at there
  · rename_i row
    cases there
    exact ⟨row.2, Or.inr ⟨row.1, rfl⟩⟩
  split at there
  · rename_i row
    obtain ⟨kind, found, rfl⟩ := Option.map_eq_some_iff.mp there
    exact ⟨(officer_some found).1, Or.inl ⟨row, found⟩⟩
  · cases there

/-- In the starting position White attacks nothing on Black's home row next to the king. -/
theorem initial_safe : ¬ Attacked initialBoard .white (0, 4) := by
  rintro ⟨⟨r, c⟩, kind, there, reaches⟩
  obtain ⟨columns, home | ⟨row, pawn⟩⟩ := initialBoard_some there
  · obtain ⟨row, found⟩ := home
    obtain ⟨-, notPawn, king, queen, rook, bishop⟩ := officer_some found
    dsimp only [Side.homeRow] at row found columns
    subst row
    unfold Reaches at reaches
    cases kind <;> dsimp only [straight, diagonal] at reaches
    · omega
    · obtain ⟨d, mem, n, -, target, -⟩ := reaches
      have := queen rfl
      simp only [List.cons_append, List.nil_append, List.mem_cons, List.not_mem_nil,
        or_false, Prod.mk.injEq] at mem target
      rcases mem with rfl | rfl | rfl | rfl | rfl | rfl | rfl | rfl <;> dsimp only at * <;> omega
    · obtain ⟨d, mem, n, -, target, -⟩ := reaches
      have := rook rfl
      simp only [List.mem_cons, List.not_mem_nil, or_false, Prod.mk.injEq] at mem target
      rcases mem with rfl | rfl | rfl | rfl <;> dsimp only at * <;> omega
    · obtain ⟨d, mem, n, -, target, -⟩ := reaches
      have := bishop rfl
      simp only [List.mem_cons, List.not_mem_nil, or_false, Prod.mk.injEq] at mem target
      rcases mem with rfl | rfl | rfl | rfl <;> dsimp only at * <;> omega
    · omega
    · exact notPawn rfl
  · dsimp only at pawn
    subst pawn
    obtain ⟨forward, -⟩ : (0 : Int) = r + -1 ∧ _ := reaches
    dsimp only [Side.pawnRow] at row
    omega

/-- The starting position is well formed. -/
theorem initial_wellFormed : initial.WellFormed := by
  have king : ∀ side s, initialBoard s = some ⟨side, .king⟩ ↔ s = (side.homeRow, 4) := by
    intro side s
    constructor
    · intro there
      obtain ⟨-, ⟨row, found⟩ | ⟨-, pawn⟩⟩ := initialBoard_some there
      · exact Prod.ext row ((officer_some found).2.2.1 rfl)
      · cases pawn
    · rintro rfl
      cases side <;> decide
  refine ⟨?_, ?_, ?_, ?_, ?_, ?_, ?_⟩
  · intro s man there
    obtain ⟨columns, ⟨row, -⟩ | ⟨row, -⟩⟩ := initialBoard_some there <;>
      refine ⟨?_, columns⟩ <;> rw [row] <;> cases man.side <;> decide
  · exact fun side => ⟨_, (king side _).mpr rfl⟩
  · intro side s t first second
    exact ((king side s).mp first).trans ((king side t).mp second).symm
  · rintro ⟨s, there, attacked⟩
    rw [(king _ s).mp there] at attacked
    exact initial_safe attacked
  · intro side wing _
    cases side <;> cases wing <;> decide
  · intro c passing
    cases passing
  · intro s side there
    obtain ⟨-, ⟨-, found⟩ | ⟨row, -⟩⟩ := initialBoard_some there
    · exact absurd rfl (officer_some found).2.1
    · rw [row]
      cases side <;> decide

/-- Legal moves lead to well-formed positions. -/
theorem Position.WellFormed.plays {pos : Position} (wf : pos.WellFormed) :
    ∀ moves : List Ply, pos.Lawful moves → (pos.plays moves).WellFormed := by
  intro moves
  induction moves generalizing pos with
  | nil => exact fun _ => wf
  | cons m rest ih => exact fun lawful => ih (wf.play lawful.1) lawful.2

/-! ## The last move of a kind -/

section LastTurn

variable (kind : Position → Ply → Prop) [∀ pos m, Decidable (kind pos m)]

/-- The position after a sequence of moves, how many they are, and the number of the last one
of the given kind, zero for none. -/
def Position.tally (pos : Position) (moves : List Ply) : Position × Nat × Nat :=
  moves.foldl (fun (pos, turn, last) m =>
    (pos.play m, turn + 1, if kind pos m then turn + 1 else last)) (pos, 0, 0)

/-- The number of the last move of the given kind, zero for none. -/
def Position.lastTurn (pos : Position) (moves : List Ply) : Nat := (pos.tally kind moves).2.2

/-- The tally keeps the position and the number of moves. -/
theorem Position.tally_eq (pos : Position) (moves : List Ply) :
    pos.tally kind moves = (pos.plays moves, moves.length, pos.lastTurn kind moves) := by
  induction moves using List.reverseRecOn with
  | nil => rfl
  | append_singleton rest m ih =>
    have last : pos.lastTurn kind (rest ++ [m]) = (pos.tally kind (rest ++ [m])).2.2 := rfl
    rw [last]
    simp only [tally, List.foldl_append, List.foldl_cons, List.foldl_nil] at ih ⊢
    rw [ih, plays_append, List.length_append]
    rfl

/-- One more move counts when it is of the kind. -/
theorem Position.lastTurn_append (pos : Position) (moves : List Ply) (m : Ply) :
    pos.lastTurn kind (moves ++ [m]) =
      if kind (pos.plays moves) m then moves.length + 1 else pos.lastTurn kind moves := by
  have before := pos.tally_eq kind moves
  show (pos.tally kind (moves ++ [m])).2.2 = _
  simp only [tally, List.foldl_append, List.foldl_cons, List.foldl_nil] at before ⊢
  rw [before]

/-- The last move of the kind is one of the moves. -/
theorem Position.lastTurn_le (pos : Position) (moves : List Ply) :
    pos.lastTurn kind moves ≤ moves.length := by
  induction moves using List.reverseRecOn with
  | nil => exact le_rfl
  | append_singleton rest m ih =>
    rw [lastTurn_append, List.length_append]
    split <;> simp only [List.length_cons, List.length_nil] <;> omega

/-- The last move of one of two kinds is the later of the last of either. -/
theorem Position.lastTurn_or (other : Position → Ply → Prop) [∀ pos m, Decidable (other pos m)]
    (pos : Position) (moves : List Ply) :
    pos.lastTurn (fun pos m => kind pos m ∨ other pos m) moves =
      max (pos.lastTurn kind moves) (pos.lastTurn other moves) := by
  induction moves using List.reverseRecOn with
  | nil => rfl
  | append_singleton rest m ih =>
    have first := pos.lastTurn_le kind rest
    have second := pos.lastTurn_le other rest
    rw [lastTurn_append, lastTurn_append, lastTurn_append, ih]
    by_cases a : kind (pos.plays rest) m <;> by_cases b : other (pos.plays rest) m <;>
      simp only [a, b, or_self, or_true, true_or, ↓reduceIte] <;> omega

end LastTurn

/-! ## Another promotion -/

namespace Position

variable {pos : Position}

/-- The moves of the men are the same under another promotion. -/
theorem Pseudo.renamed {s t : Square} {named other : Option Kind}
    (pseudo : pos.Pseudo ⟨s, t, named⟩)
    (valid : pos.Promotion ⟨s, t, other⟩) : pos.Pseudo ⟨s, t, other⟩ := by
  cases pseudo with
  | officer own notPawn reaches free => exact .officer own notPawn reaches free
  | single own ahead clear => exact .single own ahead clear valid
  | double own start ahead jumped clear => exact .double own start ahead jumped clear
  | takes own reaches foe => exact .takes own reaches foe valid
  | enPassant own reaches row passing clear => exact .enPassant own reaches row passing clear
  | castle wing right king rook source target path safe =>
    exact .castle wing right king rook source target path safe

/-- Whether a move is legal does not depend on which promotion it names. -/
theorem Legal.renamed {s t : Square} {named other : Option Kind} (legal : pos.Legal ⟨s, t, named⟩)
    (valid : pos.Promotion ⟨s, t, other⟩) : pos.Legal ⟨s, t, other⟩ := by
  obtain ⟨insideS, insideT, pseudo, safe⟩ := legal
  have pseudo' := pseudo.renamed valid
  refine ⟨insideS, insideT, pseudo', fun check => safe ?_⟩
  obtain ⟨kind, arrives, isKing⟩ := pseudo.arrives
  obtain ⟨kind', arrives', isKing'⟩ := pseudo'.arrives
  have target : pos.boardAfter ⟨s, t, named⟩ t = some ⟨pos.turn, kind⟩ := by
    rw [boardAfter, if_pos rfl, arrives]
  have target' : pos.boardAfter ⟨s, t, other⟩ t = some ⟨pos.turn, kind'⟩ := by
    rw [boardAfter, if_pos rfl, arrives']
  have elsewhere : ∀ x, x ≠ t → pos.boardAfter ⟨s, t, other⟩ x =
    pos.boardAfter ⟨s, t, named⟩ x := by
    intro x ne
    unfold boardAfter
    rw [if_neg ne, if_neg ne]
    rfl
  apply check.mono
  · intro x
    by_cases here : x = t
    · rw [here, target, target']
      simp
    · rw [elsewhere x here]
  · intro x king
    by_cases here : x = t
    · rw [here, target'] at king
      cases king
      rw [here, target, isKing.mpr (isKing'.mp rfl)]
    · rw [← elsewhere x here]
      exact king
  · intro x kind'' foe
    by_cases here : x = t
    · rw [here, target'] at foe
      exact absurd (congrArg Man.side (Option.some.inj foe)) (Side.ne_other _)
    · rw [← elsewhere x here]
      exact Or.inl foe

/-! ## A stronger enemy -/

/-- The position in which the opponent has a queen on the square. -/
def crown (pos : Position) (s : Square) : Position :=
  { pos with board := fun t => if t = s then some ⟨pos.turn.other, .queen⟩ else pos.board t }

section Crown

variable {s : Square}

/-- Crowning an enemy pawn changes no other square. -/
theorem crown_board (pawn : pos.board s = some ⟨pos.turn.other, .pawn⟩) (t : Square) :
    (pos.crown s).board t = pos.board t ∨
      (pos.board t = some ⟨pos.turn.other, .pawn⟩ ∧
        (pos.crown s).board t = some ⟨pos.turn.other, .queen⟩) := by
  by_cases here : t = s
  · subst here
    exact Or.inr ⟨pawn, if_pos rfl⟩
  · exact Or.inl (if_neg here)

/-- Crowning an enemy pawn keeps the own men. -/
theorem crown_own (pawn : pos.board s = some ⟨pos.turn.other, .pawn⟩) {t : Square} {kind : Kind} :
    (pos.crown s).board t = some ⟨pos.turn, kind⟩ ↔ pos.board t = some ⟨pos.turn, kind⟩ := by
  rcases crown_board pawn t with same | ⟨before, after⟩
  · rw [same]
  · rw [before, after]
    simp

/-- Crowning an enemy pawn keeps the free squares. -/
theorem crown_free (pawn : pos.board s = some ⟨pos.turn.other, .pawn⟩) :
    SameFree (pos.crown s).board pos.board := by
  intro t
  rcases crown_board pawn t with same | ⟨before, after⟩
  · rw [same]
  · rw [before, after]
    simp

/-- A crowned pawn attacks no less. -/
theorem crown_attacked (pawn : pos.board s = some ⟨pos.turn.other, .pawn⟩) {t : Square}
    (attacked : Attacked pos.board pos.turn.other t) :
    Attacked (pos.crown s).board pos.turn.other t := by
  refine attacked.mono (fun x => (crown_free pawn x).symm) fun x kind there => ?_
  rcases crown_board pawn x with same | ⟨before, after⟩
  · exact Or.inl (same.trans there)
  · rw [before] at there
    have kind : Kind.pawn = kind := congrArg Man.kind (Option.some.inj there)
    exact Or.inr ⟨kind.symm, after⟩

/-- The men have no moves against the queen that they do not have against the pawn. -/
theorem Pseudo.uncrown (pawn : pos.board s = some ⟨pos.turn.other, .pawn⟩) {m : Ply}
    (pseudo : (pos.crown s).Pseudo m) : pos.Pseudo m := by
  have reach : ∀ {man : Man} {a b : Square}, Reaches (pos.crown s).board man a b →
      Reaches pos.board man a b := (Reaches.congr (crown_free pawn)).mp
  cases pseudo with
  | officer own notPawn reaches free =>
    refine .officer ((crown_own pawn).mp own) notPawn (reach reaches) ?_
    rintro ⟨kind, there⟩
    exact free ⟨kind, (crown_own pawn).mpr there⟩
  | single own ahead clear promotion =>
    exact .single ((crown_own pawn).mp own) ahead ((crown_free pawn _).mp clear) promotion
  | double own start ahead jumped clear =>
    exact .double ((crown_own pawn).mp own) start ahead ((crown_free pawn _).mp jumped)
      ((crown_free pawn _).mp clear)
  | takes own reaches foe promotion =>
    refine .takes ((crown_own pawn).mp own) (reach reaches) ?_ promotion
    obtain ⟨kind, foe⟩ := foe
    rcases crown_board pawn m.target with same | ⟨before, -⟩
    · exact ⟨kind, same.symm.trans foe⟩
    · exact ⟨.pawn, before⟩
  | enPassant own reaches row passing clear =>
    exact .enPassant ((crown_own pawn).mp own) (reach reaches) row passing
      ((crown_free pawn _).mp clear)
  | castle wing right king rook source target path safe =>
    exact .castle wing right ((crown_own pawn).mp king) ((crown_own pawn).mp rook) source target
      (fun c first second => (crown_free pawn _).mp (path c first second))
      (fun k low high attacked => safe k low high (crown_attacked pawn attacked))

/-- After the same move the two positions still differ by a crowned pawn, or not at all. -/
theorem crown_boardAfter (pawn : pos.board s = some ⟨pos.turn.other, .pawn⟩) (m : Ply)
    (own : pos.Own m.source) (rook : ∀ wing, pos.castles m = some wing →
      pos.board (m.source.1, wing.corner) = some ⟨pos.turn, .rook⟩) (t : Square) :
    (pos.crown s).boardAfter m t = pos.boardAfter m t ∨
      (pos.boardAfter m t = some ⟨pos.turn.other, .pawn⟩ ∧
        (pos.crown s).boardAfter m t = some ⟨pos.turn.other, .queen⟩) := by
  have source : (pos.crown s).board m.source = pos.board m.source := by
    obtain ⟨kind, own⟩ := own
    rw [own, crown_own pawn, own]
  have arrives : (pos.crown s).arrives m = pos.arrives m := by
    unfold Position.arrives
    rw [source]
    rfl
  have casualty : (pos.crown s).casualty m = pos.casualty m := by
    unfold Position.casualty
    rw [source]
    simp only [crown_free pawn m.target]
    rfl
  have castles : (pos.crown s).castles m = pos.castles m := by
    unfold Position.castles
    rw [source]
    rfl
  unfold boardAfter
  rw [arrives, casualty, castles]
  split
  · exact Or.inl rfl
  split
  · exact Or.inl rfl
  cases found : pos.castles m with
  | none => exact crown_board pawn t
  | some wing =>
    dsimp only
    split
    · left
      rw [rook wing found, crown_own pawn, rook wing found]
    split
    · exact Or.inl rfl
    · exact crown_board pawn t

/-- Nothing is legal against the queen that is not legal against the pawn. -/
theorem Legal.uncrown (pawn : pos.board s = some ⟨pos.turn.other, .pawn⟩) {m : Ply}
    (legal : (pos.crown s).Legal m) : pos.Legal m := by
  obtain ⟨insideS, insideT, crowned, safe⟩ := legal
  have pseudo := crowned.uncrown pawn
  have after := crown_boardAfter pawn m pseudo.own fun wing castles => by
    obtain ⟨-, -, rook, source, -⟩ := pseudo.castles castles
    rw [source]
    exact rook
  refine ⟨insideS, insideT, pseudo, fun check => safe (check.mono ?_ ?_ ?_)⟩
  · intro x
    rcases after x with same | ⟨before, queen⟩
    · rw [same]
    · rw [before, queen]
      simp
  · intro x king
    rcases after x with same | ⟨before, -⟩
    · exact same.trans king
    · rw [before] at king
      exact absurd (congrArg Man.side (Option.some.inj king)) (Side.other_ne _)
  · intro x kind foe
    rcases after x with same | ⟨before, queen⟩
    · exact Or.inl (same.trans foe)
    · rw [before] at foe
      have kind : Kind.pawn = kind := congrArg Man.kind (Option.some.inj foe)
      exact Or.inr ⟨kind.symm, queen⟩

/-- Crowning an enemy pawn beyond its double step keeps the position well formed. -/
theorem WellFormed.crown (wf : pos.WellFormed) (pawn : pos.board s = some ⟨pos.turn.other, .pawn⟩)
    (far : s.1 ≠ pos.turn.other.doubleRow) : (pos.crown s).WellFormed := by
  have officer : ∀ {side kind t}, kind ≠ .queen → (pos.crown s).board t = some ⟨side, kind⟩ →
      pos.board t = some ⟨side, kind⟩ := by
    intro side kind t notQueen there
    rcases crown_board pawn t with same | ⟨-, after⟩
    · exact same.symm.trans there
    · rw [after] at there
      exact absurd (congrArg Man.kind (Option.some.inj there)).symm notQueen
  have stays : ∀ {side kind t}, kind ≠ .pawn → pos.board t = some ⟨side, kind⟩ →
      (pos.crown s).board t = some ⟨side, kind⟩ := by
    intro side kind t notPawn there
    rcases crown_board pawn t with same | ⟨before, -⟩
    · exact same.trans there
    · rw [before] at there
      exact absurd (congrArg Man.kind (Option.some.inj there)).symm notPawn
  refine ⟨?_, ?_, ?_, ?_, ?_, ?_, ?_⟩
  · intro t man there
    rcases crown_board pawn t with same | ⟨before, -⟩
    · exact wf.inside t man (same.symm.trans there)
    · exact wf.inside t _ before
  · intro side
    obtain ⟨t, king⟩ := wf.king side
    exact ⟨t, stays (by decide) king⟩
  · intro side t u first second
    exact wf.lone side t u (officer (by decide) first) (officer (by decide) second)
  · intro check
    refine wf.safe (check.mono (crown_free pawn) (fun t king => officer (by decide) king) ?_)
    intro t kind there
    left
    have there : (pos.crown s).board t = some ⟨pos.turn.other.other, kind⟩ := there
    show pos.board t = some ⟨pos.turn.other.other, kind⟩
    rw [Side.other_other] at there ⊢
    exact (crown_own pawn).mp there
  · intro side wing right
    obtain ⟨king, rook⟩ := wf.rights side wing right
    exact ⟨stays (by decide) king, stays (by decide) rook⟩
  · intro c passing
    refine (if_neg fun here => ?_).trans (wf.passing c passing)
    exact far (congrArg Prod.fst here).symm
  · intro t side there
    exact wf.pawns t side (officer (by decide) there)

end Crown

end Position
end Rules
