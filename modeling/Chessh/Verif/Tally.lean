import Chessh.Verif.Division
import Chessh.Verif.Enumeration
import Chessh.Verif.Setup

/-!
# What `run_perft` prints

`run_perft` from its arguments to its output. The text of the moves is played by `run_sequence` as
an umpire would have it played, and what is printed is then a matter of the contest reached: how
many sequences there are of each length, or how many begin with each move.
-/

namespace Chessh

open Rules (Kind Ply Position Fen Contest)

/-! ## The start sequence -/

/-- The moves that are written. -/
def readPlies : List (List Char) → Option (List Ply)
  | [] => some []
  | text :: rest => (parseMove text).bind fun m => (readPlies rest).map (m.ply :: ·)

/-- A sequence of texts ends well or badly: well when it can be read and the contest survives it. -/
inductive Leads (c : Contest) (texts : List (List Char)) : Int → Game → Prop
  | through {moves : List Ply} {after : Game} (reads : readPlies texts = some moves)
      (survives : c.Survives moves) (stands : Stands after (c.plays moves)) : Leads c texts 0 after
  | broken {after : Game} (fails : ∀ moves, readPlies texts = some moves → ¬ c.Survives moves) :
      Leads c texts 1 after

/-- The texts are played one by one, each in the contest that the ones before it have led to. -/
theorem Stands.texts (texts : List (List Char)) (depth : Nat) :
    ∀ {g : Game} {c : Contest}, Stands g c →
    ∃ code after, playTexts (depth + 1) g texts = some (code, after) ∧
      Leads c texts code after := by
  induction texts with
  | nil => exact fun {g c} stands => ⟨0, g, rfl, .through rfl trivial stands⟩
  | cons text rest ih =>
    intro g c stands
    rw [playTexts, tryMove]
    cases parses : parseMove text with
    | none =>
      refine ⟨1, g, rfl, .broken fun moves reads => ?_⟩
      rw [readPlies, parses] at reads
      cases reads
    | some m =>
      obtain ⟨code, after, asked, -⟩ := makeMove_made stands.tracks.sound m
      have returns : Returns g m code after := .of_asked asked
      have reading : readPlies (text :: rest) = (readPlies rest).map (m.ply :: ·) := by
        rw [readPlies, parses]
        rfl
      dsimp only
      rw [asked, Option.bind_some]
      dsimp only
      by_cases ended : code < 0
      · rw [if_pos ended]
        refine ⟨1, after, rfl, .broken fun moves reads => ?_⟩
        rw [reading] at reads
        obtain ⟨others, -, rfl⟩ := Option.map_eq_some_iff.mp reads
        intro survives
        exact absurd ((stands.nonneg_iff returns).mpr ⟨survives.1, survives.2.1⟩) (not_le.mpr ended)
      · rw [if_neg ended]
        have goes := (stands.nonneg_iff returns).mp (not_lt.mp ended)
        have next := (stands.made returns).2 (not_lt.mp ended)
        obtain ⟨last, final, played, leads⟩ := ih next
        refine ⟨last, final, played, ?_⟩
        cases leads with
        | @through moves _ reads survives stands =>
          have whole : c.Survives (m.ply :: moves) := ⟨goes.1, goes.2, survives⟩
          refine .through ?_ whole stands
          rw [reading, reads]
          rfl
        | broken fails =>
          refine .broken fun moves reads survives => ?_
          rw [reading] at reads
          obtain ⟨others, read, rfl⟩ := Option.map_eq_some_iff.mp reads
          exact fails others read survives.2.2

/-! ## The start -/

/-- The contest that `run_perft` is to start from. -/
def contestOf (position : Option Fen) : Contest := position.elim .start setupContest

/-- The moves that are to be made first. -/
def movesOf (sequence : Option (List Char)) : Option (List Ply) :=
  sequence.elim (some []) fun s => readPlies (tokens s)

/-- The text is that of a position a game can reach, with an en passant field that says what the
loaded game goes by, and with numbers that fit. Every text with a field is left out but for one on
White's first move. -/
structure Startable (f : Fen) : Prop where
  valid : f.Valid
  wellFormed : f.position.WellFormed
  right : PassingRight f
  fits : Fits f.clocks

section Start

variable {position : Option Fen}

/-- The arguments. -/
def perftArgs (level : Int) (position : Option Fen) (sequence : Option (List Char))
    (autotest : Bool) :
    PerftArgs := ⟨level, position.map Fen.text, sequence, autotest⟩

/-- The game that stands for the contest to start from is set up. -/
theorem startPos_stands (memory : Game) (startable : ∀ f ∈ position, Startable f) :
    ∃ start, ((position.map Fen.text).elim (.ok (0, newGame memory)) fun startPos =>
        orStop .overflow (initGame (newGame memory) startPos)) = (.ok (0, start) : Except Stop _) ∧
      Stands start (contestOf position) := by
  cases position with
  | none => exact ⟨newGame memory, rfl, newGame_stands memory⟩
  | some f =>
    have good := startable f rfl
    obtain ⟨loaded, accepted⟩ := loaded_accepts memory good.valid good.fits
    refine ⟨loaded, ?_, loaded_stands good.valid good.wellFormed good.right accepted⟩
    rw [Option.map_some, Option.elim_some, accepted]
    rfl

/-- The game that is set up has the room its text leaves. -/
theorem start_inRange (startable : ∀ f ∈ position, Startable f) {n : Nat}
    (room : ∀ f ∈ position, Leaves f n) (memory : Game) :
    ∃ start, (position.elim (some (0, newGame memory)) fun f => initGame (newGame memory) f.text) =
      some (0, start) ∧ InRange start n := by
  cases position with
  | none => exact ⟨newGame memory, rfl, newGame_inRange memory n⟩
  | some f =>
    have good := startable f rfl
    obtain ⟨loaded, accepted⟩ := loaded_accepts memory good.valid good.fits
    have sound := initGame_sound (newGame_sound memory) accepted
    exact ⟨loaded, accepted, (loaded_room good.valid accepted (room f rfl)).inRange sound⟩

/-- `run_perft` starts from the contest that the moves lead to, or prints nothing and returns 1. -/
theorem startGame_plays (startable : ∀ f ∈ position, Startable f) (sequence : Option (List Char))
    (level : Int) (depth : Nat) (memory : Game) (buff : Nat → TokenBuff) (autotest : Bool) :
    (∃ moves g, movesOf sequence = some moves ∧ (contestOf position).Survives moves ∧
      startGame (depth + 1) memory buff (perftArgs level position sequence autotest) = .ok (.ok g) ∧
      Stands g ((contestOf position).plays moves)) ∨
    ((∀ moves, movesOf sequence = some moves → ¬ (contestOf position).Survives moves) ∧
      startGame (depth + 1) memory buff (perftArgs level position sequence autotest) =
        .ok (.error (1, []))) := by
  obtain ⟨start, setUp, stands⟩ := startPos_stands memory startable
  rw [startGame_eq, perftArgs, setUp, Except.bind]
  dsimp only
  rw [if_neg (not_not.mpr rfl)]
  cases sequence with
  | none => exact Or.inl ⟨[], start, rfl, trivial, rfl, stands⟩
  | some s =>
    obtain ⟨code, after, played, leads⟩ := Stands.texts (tokens s) depth stands
    rw [Option.elim_some, runSequence_eq, played]
    cases leads with
    | through reads survives stands => exact Or.inl ⟨_, after, reads, survives, rfl, stands⟩
    | broken fails => exact Or.inr ⟨fails, rfl⟩

end Start

/-! ## The output -/

/-- A move at the root with the number of sequences that begin with it: what `run_perft` prints in
autotest mode. Nothing is printed when the move ends the game. -/
noncomputable def divisionLine (c : Contest) (level : Nat) (m : Move) : Option Printed :=
  open Classical in
  let total := UInt64.ofNat {moves | moves.length = level - 2 ∧ (c.play m.ply).Lasts moves}.ncard
  if (c.pos.Legal m.ply ∧ c.pos.Spells m.ply) ∧ ¬ (c.play m.ply).outcome.Over ∧ total ≠ 0 then
    some (printMove m total)
  else none

/-- The lines for all moves at the root. -/
noncomputable def divisionLines (c : Contest) (level : Nat) : List Printed :=
  if level < 2 then []
  else (allMoves .empty).flatMap fun m =>
    ((PieceType.empty :: promotions).map m.named).filterMap (divisionLine c level)

/-- Without autotest nothing is printed on the way. -/
theorem lines_silent {maxDepth : Int} :
    ∀ (n : Nat) {currDepth : Int} (m : Move) (here : Option Game),
    lines false maxDepth n currDepth m here = [] := by
  intro n
  induction n with
  | zero =>
    intro currDepth m here
    cases here <;> rw [lines]
  | succ n ih =>
    intro currDepth m here
    cases here with
    | none => rw [lines]
    | some g =>
      rw [lines]
      simp [ih]

/-- The counts that are printed at the end without autotest. -/
theorem printResults_counts {args : PerftArgs} (plain : args.autotest = false) (perft : Perft) :
    (printResults args perft).output = perft.output ++
      (List.range args.level.toNat).map fun d => .count (perft.results d) := by
  have loop : ∀ (list : List Nat) (done : Perft), done.results = perft.results →
      (list.foldl (fun (perft : Perft) (i : Nat) =>
        (perft.touch i).print (.count (perft.results i))) done).output =
          done.output ++ list.map fun d : Nat => .count (perft.results d) := by
    intro list
    induction list with
    | nil => exact fun done _ => (List.append_nil _).symm
    | cons d rest ih =>
      intro done same
      have next := ih ((done.touch d).print (.count (done.results d))) same
      rw [List.foldl_cons, next, ← same, List.map_cons, List.append_cons]
      rfl
  unfold printResults
  rw [plain]
  exact loop _ perft rfl

section Output

variable {g : Game} {c : Contest}

/-- The number of words is that of the sequences that last. -/
theorem Stands.length_words (stands : Stands g c) (d : Nat) :
    (Walk.words followers d (some g)).length =
      {moves | moves.length = d ∧ c.Lasts moves}.ncard := by
  rw [Chessh.length_words stands.tracks.sound, stands.ncard_playable]

/-- What is printed below an edge of the root is the line of its move. -/
theorem Stands.edge_lines (stands : Stands g c) {m : Move}
    (spelled : c.pos.Legal m.ply → c.pos.Spells m.ply)
    (n : Nat) :
    ((follow g m).toList.flatMap fun edge =>
      lines true ((n + 2 : Nat) : Int) (n + 1) (0 + 1) edge.1 edge.2) =
        (divisionLine c (n + 2) m).toList := by
  have returns := stands.tracks.sound.played m
  have accepted := stands.accepted_iff returns
  have nonneg := stands.nonneg_iff returns
  unfold divisionLine
  dsimp only
  by_cases legal : c.pos.Legal m.ply
  · rw [follow_accepted (accepted.mpr legal), Option.toList_some, List.flatMap_singleton]
    by_cases ends : (play g m).1 < 0
    · have over_ : ¬ ¬ (c.play m.ply).outcome.Over :=
        fun goes => absurd (nonneg.mpr ⟨legal, goes⟩) (not_le.mpr ends)
      rw [if_pos ends, if_neg fun shown => over_ shown.2.1, lines]
      rfl
    · have goes := (nonneg.mp (not_lt.mp ends)).2
      have next := (stands.made returns).2 (not_lt.mp ends)
      have last : ((n + 2 : Nat) : Int) - 1 = 0 + 1 + (n : Nat) := by omega
      have deep : ((followers (play g m).2).flatMap fun edge =>
          lines true ((n + 2 : Nat) : Int) n (0 + 1 + 1) edge.1 edge.2) = [] := by
        refine List.flatMap_eq_nil_iff.mpr fun edge _ => ?_
        exact lines_deep n edge.1 edge.2 (by omega)
      rw [if_neg ends, lines, deep, List.nil_append, last, count_indices (Nat.lt_succ_self n),
        next.length_words]
      dsimp only
      have same : n + 2 - 2 = n := by omega
      rw [same]
      by_cases zero : UInt64.ofNat {moves | moves.length = n ∧ (c.play m.ply).Lasts moves}.ncard = 0
      · rw [if_neg fun shown => shown.2 zero, if_neg fun shown => shown.2.2 zero]
        rfl
      · rw [if_pos ⟨⟨rfl, rfl⟩, zero⟩, if_pos ⟨⟨legal, spelled legal⟩, goes, zero⟩]
        rfl
  · have refused : follow g m = none := if_neg (mt accepted.mp legal)
    rw [refused, if_neg fun shown => legal shown.1.1]
    rfl

/-- Between two squares the lines are those of the moves perft spells. -/
theorem Stands.pair_lines (stands : Stands g c) {m : Move}
    (listed : m ∈ allMoves .empty) (n : Nat) :
    (((choices g m).filterMap (follow g)).flatMap fun edge =>
      lines true ((n + 2 : Nat) : Int) (n + 1) (0 + 1) edge.1 edge.2) =
        ((PieceType.empty :: promotions).map m.named).filterMap (divisionLine c (n + 2)) := by
  have unnamed : m.named .empty = m := by
    have empty := (mem_allMoves.mp listed).2.2
    obtain ⟨_, _, _, _, promotion⟩ := m
    cases empty
    rfl
  have none_ : ∀ {m : Move}, (c.pos.Legal m.ply → ¬ c.pos.Spells m.ply) →
      divisionLine c (n + 2) m = none :=
    fun misspelled => if_neg fun shown => misspelled shown.1.1 shown.1.2
  rw [List.map_cons, unnamed, List.filterMap_eq_flatMap_toList, List.flatMap_assoc]
  unfold choices
  by_cases promoting : Promoting g m
  · have missing : divisionLine c (n + 2) m = none := by
      refine if_neg fun shown => ?_
      obtain ⟨pawn, last⟩ := (stands.promoting_iff shown.1.1).mp promoting
      have named := (promotion_iff last).mp (shown.1.1.2.2.1.promotion pawn)
      rw [(mem_allMoves.mp listed).2.2] at named
      exact Bool.noConfusion named
    rw [if_pos promoting, List.filterMap_cons_none missing, List.filterMap_eq_flatMap_toList]
    refine List.flatMap_congr fun m' chosen => ?_
    obtain ⟨t, -, rfl⟩ := List.mem_map.mp chosen
    refine stands.edge_lines (fun legal => ?_) n
    exact fun _ => (stands.promoting_iff legal).mp promoting
  · have others : (promotions.map m.named).filterMap (divisionLine c (n + 2)) = [] := by
      refine List.filterMap_eq_nil_iff.mpr fun m' chosen => ?_
      obtain ⟨t, known, rfl⟩ := List.mem_map.mp chosen
      refine none_ fun legal spells => promoting ?_
      refine (stands.promoting_iff legal).mpr (spells ?_)
      obtain ⟨kind, piece, -⟩ := isPromotion_iff.mp (mem_promotions.mp known)
      exact fun nothing => Option.some_ne_none kind (piece.symm.trans nothing)
    rw [if_neg promoting, List.flatMap_singleton, List.filterMap_cons, others]
    have edge := stands.edge_lines (m := m) (fun legal => ?_) n
    · rw [edge]
      cases divisionLine c (n + 2) m <;> rfl
    · exact fun named => absurd (congrArg PieceType.kind (mem_allMoves.mp listed).2.2) named

/-- The lines printed from the root. -/
theorem Stands.lines_eq (stands : Stands g c) (level : Nat) (parent : Move) :
    lines true level level 0 parent (some g) = divisionLines c level := by
  unfold divisionLines
  have root : ∀ {printed : Printed} {diff : UInt64},
    (if (true = true ∧ (0 : Int) = 1) ∧ diff ≠ 0 then
      [printed] else []) = [] := fun {_ _} => if_neg fun shown => absurd shown.1.2 (by decide)
  rcases level with _ | _ | n
  · rw [if_pos (by decide), lines]
  · rw [if_pos (by decide), lines, root, List.append_nil]
    refine List.flatMap_eq_nil_iff.mpr fun edge _ => ?_
    cases edge.2 <;> rw [lines]
  · rw [if_neg (by omega), lines, root, List.append_nil, followers, List.flatMap_assoc]
    exact List.flatMap_congr fun m listed => stands.pair_lines listed n

/-- The counters of a walk from the root. -/
theorem Stands.counts_eq (stands : Stands g c) {level : Nat} {printed : List Printed}
    {perft : Perft} (did : Perft.zero.Did level (indices level 0 (some g)) printed perft) {d : Nat}
    (above : d < level) :
    perft.results d = UInt64.ofNat {moves | moves.length = d ∧ c.Lasts moves}.ncard := by
  have counted := count_indices above 0 (some g)
  rw [zero_add] at counted
  rw [did.results, counted, stands.length_words]
  exact UInt64.zero_add _

end Output

/-- The line for the sequences of a length. -/
noncomputable def countLine (c : Contest) (d : Nat) : Printed :=
  .count (UInt64.ofNat {moves | moves.length = d ∧ c.Lasts moves}.ncard)

section Runs

variable {position : Option Fen} {sequence : Option (List Char)} {moves : List Ply}
  {level fuel : Nat}

/-- `run_perft` walks through the tree below a game that stands for the contest. -/
theorem runPerft_walks (startable : ∀ f ∈ position, Startable f)
    (reads : movesOf sequence = some moves)
    (survives : (contestOf position).Survives moves) (positive : 1 ≤ level) (depth : Nat)
    (enough : 3 * level + 1 ≤ fuel) (memory : Game) (buff : Nat → TokenBuff) (autotest : Bool) :
    ∃ g perft, Stands g ((contestOf position).plays moves) ∧
      runPerft (depth + 1) fuel memory buff (perftArgs level position sequence autotest) =
        .ok (0, printResults (perftArgs level position sequence autotest) perft) ∧
      Perft.zero.Did level (indices level 0 (some g))
        (lines autotest level level 0 ⟨0, 0, 0, 0, .empty⟩ (some g)) perft := by
  rcases startGame_plays startable sequence level depth memory buff autotest with
    ⟨moves', g, reads', -, ready, stands⟩ | ⟨fails, -⟩
  · obtain rfl : moves' = moves := Option.some.inj (reads'.symm.trans reads)
    obtain ⟨-, perft, runs, did⟩ := runPerft_did (Int.ofNat_le.mpr positive) ready enough
    exact ⟨g, perft, stands, runs, did⟩
  · exact absurd survives (fails moves reads)

/-- Without autotest it prints a number for each length below the level. -/
theorem runPerft_totals (startable : ∀ f ∈ position, Startable f)
    (reads : movesOf sequence = some moves)
    (survives : (contestOf position).Survives moves) (positive : 1 ≤ level) (depth : Nat)
    (enough : 3 * level + 1 ≤ fuel) (memory : Game) (buff : Nat → TokenBuff) :
    ∃ perft, runPerft (depth + 1) fuel memory buff (perftArgs level position sequence false) =
        .ok (0, perft) ∧
      perft.output = (List.range level).map (countLine ((contestOf position).plays moves)) := by
  obtain ⟨g, perft, stands, runs, did⟩ :=
    runPerft_walks startable reads survives positive depth enough memory buff false
  refine ⟨_, runs, ?_⟩
  rw [printResults_counts rfl, did.output, lines_silent]
  refine List.map_congr_left fun d below => ?_
  exact congrArg Printed.count (stands.counts_eq did (List.mem_range.mp below))

/-- In autotest mode it prints the lines of the division, and the number for the last length. -/
theorem runPerft_division (startable : ∀ f ∈ position, Startable f)
    (reads : movesOf sequence = some moves) (survives : (contestOf position).Survives moves)
    (positive : 1 ≤ level) (depth : Nat) (enough : 3 * level + 1 ≤ fuel) (memory : Game)
    (buff : Nat → TokenBuff) :
    ∃ perft, runPerft (depth + 1) fuel memory buff (perftArgs level position sequence true) =
        .ok (0, perft) ∧
      perft.output = divisionLines ((contestOf position).plays moves) level ++
        [.newline, countLine ((contestOf position).plays moves) (level - 1)] := by
  obtain ⟨g, perft, stands, runs, did⟩ :=
    runPerft_walks startable reads survives positive depth enough memory buff true
  have index : (level : Int) - 1 = ((level - 1 : Nat) : Int) := by omega
  refine ⟨_, runs, ?_⟩
  rw [printResults_output rfl, did.output, stands.lines_eq, perftArgs, index,
    stands.counts_eq did (by omega)]
  rfl

end Runs

end Chessh
