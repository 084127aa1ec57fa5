import Chessh.Client.Scratch
import Chessh.Verif.Frame
import Chessh.Verif.Image

/-!
# Whether a player can move

`can_make_move` tries every square of the board and promotes every pawn to a queen. It misses
nothing: which piece a pawn is promoted to does not matter to the safety of its own king.
-/

namespace Chessh

/-! ## Disguises -/

/-- The boards differ at most in what the officers of the player are. -/
def Disguised (player : Player) (g h : Game) : Prop :=
  ∀ r c, h.get r c = g.get r c ∨
    ((g.get r c).player = player ∧ (h.get r c).player = player ∧
      (g.get r c).type.isPromotion = true ∧ (h.get r c).type.isPromotion = true)

section Disguise

variable {player : Player} {g h : Game}

/-- A disguise empties no square and fills none. -/
theorem Disguised.empty_iff (disguised : Disguised player g h) (r c : Int) :
    (h.get r c).type = .empty ↔ (g.get r c).type = .empty := by
  rcases disguised r c with same | ⟨-, -, officer, officer'⟩
  · rw [same]
  · constructor <;> intro empty
    · rw [empty] at officer'
      exact Bool.noConfusion officer'
    · rw [empty] at officer
      exact Bool.noConfusion officer

/-- The player's king is never disguised. -/
theorem Disguised.king_iff (disguised : Disguised player g h) (r c : Int) :
    ((h.get r c).type = .king ∧ (h.get r c).player = player) ↔
      ((g.get r c).type = .king ∧ (g.get r c).player = player) := by
  rcases disguised r c with same | ⟨-, -, officer, officer'⟩
  · rw [same]
  · constructor <;> rintro ⟨king, -⟩
    · rw [king] at officer'
      exact Bool.noConfusion officer'
    · rw [king] at officer
      exact Bool.noConfusion officer

/-- The opponent attacks the same squares of the player. -/
theorem Disguised.attacksFrom (disguised : Disguised player g h) {r c : Int}
    (mine : (g.get r c).player = player) (s : Int × Int) :
    attacksFrom h r c player s = attacksFrom g r c player s := by
  have silent : ∀ k : Game, (k.get s.1 s.2).player = player →
      Chessh.attacksFrom k r c player s = false := by
    intro k own
    simp [Chessh.attacksFrom, own, Ne.symm (otherPlayer_ne player)]
  rcases disguised s.1 s.2 with same | ⟨own, own', -, -⟩
  · by_cases here : s.1 = r ∧ s.2 = c
    · rw [silent h (by rw [same, here.1, here.2, mine]), silent g (by rw [here.1, here.2, mine])]
    · have struck : strikes h s.1 s.2 r c = strikes g s.1 s.2 r c :=
        strikes_congr (by omega) (by rw [same]) (by rw [same]) fun x y _ => disguised.empty_iff x y
      simp only [Chessh.attacksFrom, same, struck]
  · rw [silent h own', silent g own]

/-- A disguise neither gives nor hides a check to the player. -/
theorem Disguised.checked (disguised : Disguised player g h) :
    Checked h player ↔ Checked g player := by
  have kings : findKing h player = findKing g player := by
    unfold findKing
    congr 1
    funext s
    exact decide_eq_decide.mpr (disguised.king_iff s.1 s.2)
  unfold Checked checkProbe
  rw [kings]
  cases found : findKing g player with
  | none => rfl
  | some s =>
    obtain ⟨-, -, mine⟩ := findKing_some found
    dsimp only
    rw [probe_fst, probe_fst]
    simp only [Struck, disguised.attacksFrom mine]

end Disguise

/-! ## Other promotions -/

/-- The same move with another promotion. -/
def Move.named (m : Move) (t : PieceType) : Move := { m with promotion := t }

section Named

variable {g after after' : Game} {m : Move} {player : Player} {v v' : Verdict} {t : PieceType}

/-- The first checks do not look at the promotion. -/
theorem Mine.named (mine : Mine g m player) (t : PieceType) : Mine g (m.named t) player :=
  ⟨mine.onS, mine.onT, mine.full, mine.owner, mine.free⟩

/-- Castling does not look at the promotion. -/
theorem Castling.named {cc stop : Int} (castling : Castling g m cc stop) (t : PieceType) :
    Castling g (m.named t) cc stop :=
  ⟨castling.step, castling.row, castling.two, castling.unmoved, castling.beyond, castling.path,
    castling.rook, castling.still⟩

/-- An accepting verdict is one about a move that passes. -/
theorem Judged.passes (judged : Judged g m player v) (ok : 0 ≤ v.code) : Passes g m player := by
  cases judged with
  | refused | unpromoted | stopped => simp [Verdict.plain, illegalMove, missingPromotion] at ok
  | officer mine kind hit => exact ⟨mine, Or.inl ⟨kind, hit⟩⟩
  | pawn mine kind goes | promoted mine kind goes => exact ⟨mine, Or.inr (Or.inl ⟨kind, _, goes⟩)⟩
  | castled mine kind castling => exact ⟨mine, Or.inr (Or.inr ⟨kind, _, _, castling⟩)⟩

/-- The geometry does not look at the promotion. -/
theorem Passes.named (passes : Passes g m player) (t : PieceType) :
    Passes g (m.named t) player := by
  obtain ⟨mine, officer | pawn | ⟨king, cc, stop, castling⟩⟩ := passes
  · exact ⟨mine.named t, Or.inl officer⟩
  · exact ⟨mine.named t, Or.inr (Or.inl pawn)⟩
  · exact ⟨mine.named t, Or.inr (Or.inr ⟨king, cc, stop, castling.named t⟩)⟩

/-- A castling that has been accepted is not stopped. -/
theorem Judged.not_stopped (judged : Judged g m player v) (ok : 0 ≤ v.code) {cc stop : Int}
    {stopped : Game} (castling : Castling g m cc stop) (kind : (g.get m.rI m.cI).type = .king) :
    ¬ Stopped g m.rI m.cI cc player stopped := by
  intro attacked
  have step := castling.step
  have two := castling.two
  cases judged with
  | refused | unpromoted | stopped => simp [Verdict.plain, illegalMove, missingPromotion] at ok
  | officer mine _ hit =>
    simp only [strikes, kind, decide_eq_true_eq] at hit
    omega
  | pawn mine pawn | promoted mine pawn => exact PieceType.noConfusion (pawn.symm.trans kind)
  | @castled cc' stop' mine _ castling' empty safe passing arriving =>
    have two' := castling'.two
    obtain rfl : cc = cc' := by omega
    rcases attacked.struck with hit | hit | hit
    · exact safe hit
    · exact passing hit
    · exact arriving hit

/-- A move that is accepted with one promotion is judged legal with every other that it needs. -/
theorem Judged.named_ok (judged : Judged g m player v) (ok : 0 ≤ v.code)
    (named : (g.get m.rI m.cI).type = .pawn → LastRow g m → t.isPromotion = true)
    (judged' : Judged g (m.named t) player v') : 0 ≤ v'.code := by
  cases judged' with
  | refused fails => exact absurd ((judged.passes ok).named t) fails
  | unpromoted mine kind goes last unnamed =>
    rw [show (m.named t).promotion = t from rfl, named kind last] at unnamed
    exact Bool.noConfusion unnamed
  | stopped mine kind castling stop =>
    exact absurd stop (judged.not_stopped ok (castling.named m.promotion) kind)
  | officer | pawn | promoted | castled => exact le_rfl

/-- Away from its final square a move leaves the same behind with every promotion. -/
theorem Landed.named {captured rook : Option (Int × Int)} (landed : Landed g m captured rook after)
    (landed' : Landed g (m.named t) captured rook after') {r c : Int}
    (elsewhere : ¬ (r = m.rF ∧ c = m.cF)) : after'.get r c = after.get r c := by
  by_cases source : r = m.rI ∧ c = m.cI
  · obtain ⟨rfl, rfl⟩ := source
    rw [landed.source]
    exact landed'.source
  by_cases casualty : captured = some (r, c)
  · rw [landed.taken r c casualty, landed'.taken r c casualty]
  by_cases castle : ∃ a, rook = some (a, c) ∧ r = m.rI
  · obtain ⟨a, columns, rfl⟩ := castle
    rw [landed.rookTarget a c columns]
    exact landed'.rookTarget a c columns
  by_cases corner : ∃ b, rook = some (c, b) ∧ r = m.rI
  · obtain ⟨b, columns, rfl⟩ := corner
    rw [landed.rookSource c b columns]
    exact landed'.rookSource c b columns
  have apart : ∀ a b, rook = some (a, b) → r = m.rI → c ≠ a ∧ c ≠ b := by
    rintro a b columns rfl
    exact ⟨fun same => corner ⟨b, by rw [same]; exact columns, rfl⟩,
      fun same => castle ⟨a, by rw [same]; exact columns, rfl⟩⟩
  rw [landed.frame r c elsewhere source casualty apart]
  exact landed'.frame r c elsewhere source casualty apart

/-- A pawn that is accepted on its last row names a promotion. -/
theorem Judged.names (judged : Judged g m player v) (ok : 0 ≤ v.code)
    (kind : (g.get m.rI m.cI).type = .pawn) (last : LastRow g m) :
    m.promotion.isPromotion = true := by
  cases judged with
  | refused | unpromoted | stopped => simp [Verdict.plain, illegalMove, missingPromotion] at ok
  | officer mine officer => exact absurd kind officer
  | pawn mine _ goes early => exact absurd last early
  | promoted mine _ goes _ named => exact named
  | castled mine king => exact PieceType.noConfusion (kind.symm.trans king)

/-- The boards two promotions of one move leave are disguises of each other. -/
theorem Judged.disguised (home : RooksHome g) (judged : Judged g m player v) (ok : 0 ≤ v.code)
    (judged' : Judged g (m.named t) player v') (ok' : 0 ≤ v'.code) :
    Disguised player (v.apply m) (v'.apply (m.named t)) := by
  have landed := judged.landed home ok
  have landed' := judged'.landed home ok'
  rw [judged'.captured_eq ok', judged'.rook_eq home ok'] at landed'
  rw [judged.captured_eq ok, judged.rook_eq home ok] at landed
  intro r c
  by_cases target : r = m.rF ∧ c = m.cF
  swap
  · exact Or.inl (landed.named landed' target)
  obtain ⟨rfl, rfl⟩ := target
  have arrived := landed.target
  have arrived' : (v'.apply (m.named t)).get m.rF m.cF = _ := landed'.target
  by_cases promotes : (g.get m.rI m.cI).type = .pawn ∧ LastRow g m
  · have owner := (judged.mine ok).owner
    have type : arrivalType g m = m.promotion := if_pos promotes
    have type' : arrivalType g (m.named t) = t := if_pos promotes
    rw [arrived, arrived', type, type']
    exact Or.inr ⟨owner, owner, judged.names ok promotes.1 promotes.2,
      judged'.names ok' promotes.1 promotes.2⟩
  · have type : arrivalType g m = (g.get m.rI m.cI).type := if_neg promotes
    have type' : arrivalType g (m.named t) = (g.get m.rI m.cI).type := if_neg promotes
    rw [arrived, arrived', type, type']
    exact Or.inl rfl

/-- A move that is played with one promotion is played with every other that it needs. -/
theorem Plays.named (sound : Sound g) (plays : Plays g m) (t : PieceType)
    (named : (g.get m.rI m.cI).type = .pawn → LastRow g m → t.isPromotion = true) :
    Plays g (m.named t) := by
  obtain ⟨v, judged, ok, safe⟩ := plays.judged sound
  obtain ⟨code, after, asked, tried⟩ := makeMoveNoCheckmate_tried sound (m.named t)
  cases tried with
  | refused judged' negative =>
    have := judged.named_ok ok named judged'
    omega
  | exposed judged' ok' check =>
    exact absurd ((judged.disguised sound.home ok judged' ok').checked.mp check) safe
  | played judged' ok' safe' => exact ⟨_, asked⟩

/-! ## Accepted calls -/

/-- A move that is refused is refused by the call. -/
theorem makeMove_refused {depth : Nat} {code : Int}
    (refused : makeMoveNoCheckmate depth g m = some (code, after))
    (rejected : code = illegalMove ∨ code = missingPromotion) :
    makeMove depth g m = some (code, after) := by
  unfold makeMove
  rw [refused, Option.bind_some]
  exact if_pos rejected

/-- A move that is played is accepted by the call. -/
theorem makeMove_accepted {depth : Nat} {code : Int}
    (played : makeMoveNoCheckmate depth g m = some (0, after))
    (returns : makeMove depth g m = some (code, after')) : Accepted code := by
  unfold makeMove at returns
  have fits : ¬ ((0 : Int) = illegalMove ∨ (0 : Int) = missingPromotion) := by decide
  rw [played, Option.bind_some] at returns
  dsimp only at returns
  rw [if_neg fits] at returns
  split at returns
  · cases returns
    decide
  split at returns
  · cases returns
    decide
  obtain ⟨can, -, returns⟩ := Option.bind_eq_some_iff.mp returns
  split at returns
  · cases returns
    decide
  obtain ⟨result, -, returns⟩ := Option.map_eq_some_iff.mp returns
  split at returns
  · split at returns <;> cases returns <;> decide
  · cases returns
    decide

/-- A call is accepted exactly when its move is played. -/
theorem Returns.accepted_iff {code : Int} (sound : Sound g) (returns : Returns g m code after) :
    Accepted code ↔ Plays g m := by
  obtain ⟨code', landing, tries, tried⟩ := makeMoveNoCheckmate_tried sound m
  obtain ⟨depth, asked⟩ := returns
  have asked := asked 1
  rcases tried.code with rfl | rejected
  · exact iff_of_true (makeMove_accepted (tries depth) asked) ⟨landing, tries⟩
  · have refused := (makeMove_refused (tries depth) rejected).symm.trans asked
    simp only [Option.some.injEq, Prod.mk.injEq] at refused
    rw [← refused.1]
    refine iff_of_false (fun accepted => rejected.elim accepted.1 accepted.2) ?_
    rintro ⟨played, plays⟩
    have same := (tries 0).symm.trans (plays 0)
    simp only [Option.some.injEq, Prod.mk.injEq] at same
    rw [same.1] at rejected
    exact absurd rejected (by decide)

/-- Some call is accepted exactly when some move is played. -/
theorem accepted_iff_plays (sound : Sound g) :
    (∃ m code after, Returns g m code after ∧ Accepted code) ↔ ∃ m, Plays g m := by
  constructor
  · rintro ⟨m, code, after, returns, accepted⟩
    exact ⟨m, (returns.accepted_iff sound).mp accepted⟩
  · rintro ⟨m, plays⟩
    obtain ⟨code, after, returns, -⟩ := sound.returns m
    exact ⟨m, code, after, returns, (returns.accepted_iff sound).mpr plays⟩

/-- Trying promotions to queens on the squares of the board misses no move. -/
theorem canMove_iff (sound : Sound g) : CanMove g (getPlayer g) ↔ ∃ m, Plays g m := by
  constructor
  · rintro ⟨i, j, -, -, -, r, c, -, plays⟩
    exact ⟨_, plays⟩
  · rintro ⟨m, plays⟩
    have mine := plays.mine sound
    exact ⟨m.rI, m.cI, mine.onS, mine.full, mine.owner, m.rF, m.cF, mine.onT,
      plays.named sound .queen fun _ _ => rfl⟩

end Named

/-- After every run of calls `can_make_move` returns true for the player to move exactly when
`make_move` accepts some move, whatever its coordinates and its promotion. The games in memory are
as they were. -/
theorem Run.can_make_move_iff {memory g : Game} {calls : List (Move × Int)}
    (run : Run (newGame memory) calls g) {games : Games} {p : Nat} (here : games[p]? = some g) :
    ∃ can, (∀ depth, canMakeMoveAt (depth + 1) p (getPlayer g) games = some (can, games)) ∧
      (can = true ↔ ∃ m code after, Returns g m code after ∧ Accepted code) := by
  have sound := run.sound (newGame_sound memory)
  obtain ⟨can, asked, decides⟩ := canMakeMove_eq sound (getPlayer g)
  refine ⟨can, fun depth => ?_, ?_⟩
  · rw [canMakeMoveAt_eq here, asked]
    rfl
  · rw [decides, canMove_iff sound, accepted_iff_plays sound]

/-- A new game, second of two in memory. -/
theorem can_make_move_iff_new :
    ∃ can, (∀ depth, canMakeMoveAt (depth + 1) 1 .white [blank, newGame blank] =
        some (can, [blank, newGame blank])) ∧
      (can = true ↔ ∃ m code after, Returns (newGame blank) m code after ∧ Accepted code) :=
  (@Run.start (newGame blank)).can_make_move_iff rfl

end Chessh
