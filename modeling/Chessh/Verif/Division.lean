import Chessh.Verif.Perft
import Chessh.Verif.Sequence

/-!
# What perft uses and prints

A move that ends the game is counted where it is made, in the slot of the next level, without the
test that stops a call of `calculate_perft`, and without the line that such a call prints. So
`run_perft` goes past the end of its array when a sequence of `level` moves ends the game, and at
level 2 the lines do not add up when a move of the root does.
-/

namespace Chessh

open Walk

/-! ## From the arguments to the walk -/

/-- The game perft starts from: the position, or the initial one, and behind it the sequence. -/
theorem startGame_eq (depth : Nat) (memory : Game) (buff : Nat → TokenBuff) (args : PerftArgs) :
    startGame depth memory buff args =
      (args.startPos.elim (.ok (0, newGame memory)) fun startPos =>
        orStop .overflow (initGame (newGame memory) startPos)).bind fun result =>
          if result.1 ≠ 0 then .ok (.error (1, [.error "Failed to initialize game\n"]))
          else args.startSequence.elim (.ok (.ok result.2)) fun sequence =>
            (runSequence depth buff result.2 sequence).bind fun result =>
              if result.1 ≠ 0 then .ok (.error (result.1, [])) else .ok (.ok result.2) := by
  obtain ⟨level, startPos, startSequence, autotest⟩ := args
  cases startPos <;> cases startSequence <;> rfl

/-- A step that succeeds leads to a step that succeeds. -/
theorem bind_ok {ε α β : Type} {first : Except ε α} {rest : α → Except ε β} {b : β}
    (done : first.bind rest = .ok b) : ∃ a, first = .ok a ∧ rest a = .ok b := by
  cases first with
  | error stop => cases done
  | ok a => exact ⟨a, rfl, done⟩

/-- A test that is not to fail does not. -/
theorem test_ok {ε α β : Type} {code : Int} {failed : β} {rest : Except ε (Except β α)} {a : α}
    (done : (if code ≠ 0 then .ok (.error failed) else rest) = .ok (.ok a)) :
    code = 0 ∧ rest = .ok (.ok a) := by
  split at done
  · cases done
  · rename_i zero
    exact ⟨not_not.mp zero, done⟩

/-- A game that `run_perft` counts from is one of a run. -/
theorem startGame_run {depth : Nat} {memory g : Game} {buff : Nat → TokenBuff} {args : PerftArgs}
    (ready : startGame (depth + 1) memory buff args = .ok (.ok g)) :
    ∃ start calls, Started start ∧ Run start calls g := by
  rw [startGame_eq] at ready
  obtain ⟨⟨code, start⟩, placed, followed⟩ := bind_ok ready
  obtain ⟨zero, followed⟩ := test_ok followed
  dsimp only at zero followed
  subst zero
  have started : Started start := by
    cases position : args.startPos with
    | none =>
      rw [position] at placed
      cases placed
      exact .new memory
    | some startPos =>
      rw [position, Option.elim_some] at placed
      cases loads : initGame (newGame memory) startPos with
      | none =>
        rw [loads] at placed
        cases placed
      | some result =>
        rw [loads] at placed
        cases placed
        exact .loaded memory loads
  cases sequence : args.startSequence with
  | none =>
    rw [sequence] at followed
    cases followed
    exact ⟨_, [], started, .start⟩
  | some startSequence =>
    rw [sequence, Option.elim_some] at followed
    obtain ⟨⟨code, after⟩, runs, followed⟩ := bind_ok followed
    obtain ⟨-, followed⟩ := test_ok followed
    cases followed
    obtain ⟨code', calls, after', plays, run, -⟩ :=
      Run.texts started.sound .start depth (tokens startSequence)
    rw [runSequence_eq, plays] at runs
    cases runs
    exact ⟨start, calls, started, run⟩

/-- `run_perft` walks from the game it starts from, and prints the totals. -/
theorem runPerft_did {depth fuel : Nat} {memory g : Game} {buff : Nat → TokenBuff}
    {args : PerftArgs}
    (positive : 1 ≤ args.level) (ready : startGame (depth + 1) memory buff args = .ok (.ok g))
    (enough : 3 * args.level.toNat + 1 ≤ fuel) :
    Sound g ∧
      ∃ perft, runPerft (depth + 1) fuel memory buff args = .ok (0, printResults args perft) ∧
      Perft.zero.Did args.level (indices args.level.toNat 0 (some g))
        (lines args.autotest args.level args.level.toNat 0 ⟨0, 0, 0, 0, .empty⟩
        (some g)) perft := by
  obtain ⟨start, calls, started, run⟩ := startGame_run ready
  have sound := run.sound started.sound
  have bound : 0 + (args.level.toNat : Int) = args.level := by omega
  obtain ⟨perft, walked, did⟩ := @calculatePerft_walks depth _ _ args.level.toNat fuel 0 0
    ⟨0, 0, 0, 0, .empty⟩ .zero [g] g enough bound rfl sound
  refine ⟨sound, perft, ?_, did⟩
  unfold runPerft
  rw [ready]
  simp only [bind, Except.bind]
  rw [walked]

/-! ## The array -/

/-- The totals are read from inside the array. -/
theorem printResults_used {args : PerftArgs} (positive : 1 ≤ args.level) (perft : Perft) :
    (∀ i ∈ perft.used, i ∈ (printResults args perft).used) ∧
      ∀ i ∈ (printResults args perft).used, i ∈ perft.used ∨ (0 ≤ i ∧ i < args.level) := by
  have loop : ∀ (list : List Nat) (perft : Perft),
      (list.foldl (fun (perft : Perft) (i : Nat) =>
        (perft.touch i).print (.count (perft.results i))) perft).used =
          perft.used ++ list.map fun i : Nat => (i : Int) := by
    intro list
    induction list with
    | nil => exact fun perft => (List.append_nil _).symm
    | cons i rest ih =>
      intro perft
      rw [List.foldl_cons, ih, List.map_cons, ← List.singleton_append, ← List.append_assoc]
      rfl
  unfold printResults
  split
  · rw [loop]
    constructor
    · exact fun i member => List.mem_append_left _ member
    · intro i member
      rcases List.mem_append.mp member with before | now
      · exact Or.inl before
      · obtain ⟨k, inside, rfl⟩ := List.mem_map.mp now
        have bound := List.mem_range.mp inside
        exact Or.inr ⟨by omega, by omega⟩
  · constructor
    · exact fun i member => List.mem_append_left _ member
    · intro i member
      rcases List.mem_append.mp member with before | now
      · exact Or.inl before
      · rw [List.mem_singleton.mp now]
        exact Or.inr ⟨by omega, by omega⟩

/-- The indices that are counted up go from the start to the bound, and to the bound when a sequence
of that length ends the game. -/
theorem mem_indices {g : Game} (sound : Sound g) {n : Nat} :
    (∀ i ∈ indices n 0 (some g), 0 ≤ i ∧ i ≤ n) ∧
      ((n : Int) ∈ indices n 0 (some g) ↔ ∃ ms, ms.length = n ∧ Ending g ms) := by
  have index : ∀ k : Nat, (0 : Int) + k = k := fun k => zero_add _
  unfold indices
  simp only [index]
  constructor
  · intro i member
    obtain ⟨k, visited, rfl⟩ := List.mem_map.mp member
    have bound := visits_le visited
    exact ⟨by omega, by omega⟩
  · rw [List.mem_map_of_injective Nat.cast_injective, bound_mem_visits]
    exact exists_congr fun ms => and_congr_right fun _ => finishes_iff sound ms

/-- Perft stays inside of its array exactly when no sequence of `level` moves ends the game. -/
theorem used_inside_iff {g : Game} (sound : Sound g) {args : PerftArgs} (positive : 1 ≤ args.level)
    {perft : Perft} {printed : List Printed}
    (did : Perft.zero.Did args.level (indices args.level.toNat 0 (some g)) printed perft) :
    (∀ i ∈ (printResults args perft).used, 0 ≤ i ∧ i < args.level) ↔
      ¬ ∃ ms, (ms.length : Int) = args.level ∧ Ending g ms := by
  obtain ⟨kept, others⟩ := printResults_used positive perft
  obtain ⟨inside, last⟩ := mem_indices sound (n := args.level.toNat)
  have level : (args.level.toNat : Int) = args.level := by omega
  have counted : ∀ i, i ≠ args.level - 1 → (i ∈ perft.used ↔
    i ∈ indices args.level.toNat 0 (some g)) := by
    intro i other
    rw [did.used i other]
    exact or_iff_right List.not_mem_nil
  have ends : (∃ ms, (ms.length : Int) = args.level ∧ Ending g ms) ↔ args.level ∈ perft.used := by
    rw [level] at last
    rw [counted args.level (by omega), last]
    exact exists_congr fun ms => and_congr_left fun _ => by omega
  rw [ends]
  constructor
  · intro all member
    have bounds := all args.level (kept _ member)
    omega
  · intro absent i member
    rcases others i member with used | bounds
    · by_cases top : i = args.level - 1
      · omega
      · have bounds := inside i ((counted i top).mp used)
        have below : i ≠ args.level := by
          rintro rfl
          exact absent used
        omega
    · exact bounds

/-- `run_perft` uses only indices of its array exactly when no sequence of `level` moves, from the
game it counts from, ends the game with its last call. -/
theorem runPerft_inside_iff {depth fuel : Nat} {memory g : Game} {buff : Nat → TokenBuff}
    {args : PerftArgs} (positive : 1 ≤ args.level)
    (ready : startGame (depth + 1) memory buff args = .ok (.ok g))
    (enough : 3 * args.level.toNat + 1 ≤ fuel) :
    ∃ perft, runPerft (depth + 1) fuel memory buff args = .ok (0, perft) ∧
      ((∀ i ∈ perft.used, 0 ≤ i ∧ i < args.level) ↔
        ¬ ∃ ms, (ms.length : Int) = args.level ∧ Ending g ms) := by
  obtain ⟨sound, perft, runs, did⟩ := runPerft_did positive ready enough
  exact ⟨_, runs, used_inside_iff sound positive did⟩

/-- The buffer holds nothing but NULs. -/
def noTokens : Nat → TokenBuff := fun _ => Vector.replicate 10 nul

/-- From a new game, perft at level 1 stays inside when no single move ends the game. -/
theorem runPerft_inside_iff_new : ∃ perft,
    runPerft 1 4 blank noTokens ⟨1, none, none, false⟩ = .ok (0, perft) ∧
      ((∀ i ∈ perft.used, 0 ≤ i ∧ i < 1) ↔
        ¬ ∃ ms, (ms.length : Int) = 1 ∧ Ending (newGame blank) ms) :=
  runPerft_inside_iff le_rfl rfl le_rfl

/-- The start sequence `f2f3 e7e5 g2g4`. -/
def foolsText : List Char :=
  ['f', '2', 'f', '3', ' ', 'e', '7', 'e', '5', ' ', 'g', '2', 'g', '4']

/-- A start sequence that is played from the initial position. -/
theorem startGame_played {depth : Nat} {memory g : Game} {buff : Nat → TokenBuff}
    {sequence : List Char}
    (played : runSequence depth buff (newGame memory) sequence = .ok (0, g)) (level : Int)
    (autotest : Bool) :
    startGame depth memory buff ⟨level, none, some sequence, autotest⟩ = .ok (.ok g) := by
  rw [startGame_eq, Option.elim_none, Except.bind]
  dsimp only [Option.elim_some]
  rw [if_neg (not_not.mpr rfl), played]
  rfl

/-- A mate by a piece that is not a pawn is a sequence that ends the game. -/
theorem Returns.ending {g after : Game} {m : Move} (returns : Returns g m blackWin after)
    (onS : OnBoard m.rI m.cI) (onT : OnBoard m.rF m.cF) (unnamed : m.promotion = .empty)
    (officer : (g.get m.rI m.cI).type ≠ .pawn) : Ending g [m] := by
  have stays : ¬ Promoting g m := fun promoting => officer promoting.1
  refine ⟨⟨onS, onT, ?_⟩, _, _, returns, by decide, Or.inl ⟨rfl, by decide⟩⟩
  rw [if_neg stays]
  exact unnamed

/-- Behind the start sequence Black mates. -/
theorem fools_ready (level : Int) (autotest : Bool) :
    ∃ g, startGame 1 blank noTokens ⟨level, none, some foolsText, autotest⟩ = .ok (.ok g) ∧
      Ending g [matingMove] := by
  obtain ⟨zero, -, queen, mates⟩ := opening_codes
  have sound := newGame_sound blank
  have sendable : ∀ m ∈ opening, Sendable m := by
    intro m member
    have board : OnBoard m.rI m.cI ∧ OnBoard m.rF m.cF ∧ m.promotion = .empty := by
      revert m
      decide
    exact ⟨board.1, board.2.1, Or.inl board.2.2⟩
  have played : runSequence 1 noTokens (newGame blank) foolsText =
      .ok (0, (replay (newGame blank) opening).2) := by
    have printed : foolsText = List.intercalate [' '] (opening.map moveToString) ++ [] := by decide
    rw [printed, runSequence_printed 1 _ _ (by decide) sendable (Or.inl rfl),
      playAll_replay sound fun call mem => (zero call mem).ge]
    rfl
  have returns := ((Run.start.replayed sound opening).sound sound).played matingMove
  rw [mates] at returns
  exact ⟨_, startGame_played played level autotest,
    returns.ending (by decide) (by decide) rfl (ne_of_eq_of_ne queen (by decide))⟩

/-- With level 1 and the start sequence of the fool's mate, perft counts up the second element of an
array of one. -/
theorem results_overrun : ¬ ∀ args : PerftArgs, 1 ≤ args.level → ∀ code perft,
    runPerft 1 4 blank noTokens args = .ok (code, perft) →
      ∀ i ∈ perft.used, 0 ≤ i ∧ i < args.level := by
  intro claimed
  obtain ⟨g, ready, mate⟩ := fools_ready 1 false
  obtain ⟨sound, perft, runs, did⟩ := runPerft_did le_rfl ready le_rfl
  have inside := claimed _ le_rfl _ _ runs
  exact (used_inside_iff sound le_rfl did).mp inside ⟨[matingMove], rfl, mate⟩

/-! ## The lines -/

/-- The count on a line for a move. -/
def Printed.lineCount : Printed → Option UInt64
  | .move _ _ _ _ diff => some diff
  | .newline | .count _ | .error _ => none

/-- The counts on the lines for moves. -/
def lineCounts (output : List Printed) : List Nat :=
  (output.filterMap Printed.lineCount).map UInt64.toNat

/-- The sequences that begin with a move of the root, and are as long as those that the total
counts. -/
def rootCount (level : Nat) (edge : Move × Option Game) : Nat :=
  (words followers (level - 2) edge.2).length

/-- Only the calls one below the root print lines. -/
theorem lines_deep {autotest : Bool} {maxDepth : Int} : ∀ (n : Nat) {currDepth : Int} (m : Move)
    (here : Option Game), 1 < currDepth → lines autotest maxDepth n currDepth m here = [] := by
  intro n
  induction n with
  | zero =>
    intro currDepth m here deep
    cases here <;> rw [lines]
  | succ n ih =>
    intro currDepth m here deep
    cases here with
    | none => rw [lines]
    | some g =>
      rw [lines, List.flatMap_eq_nil_iff.mpr fun edge _ => ih edge.1 edge.2 (by omega),
        List.nil_append]
      exact if_neg fun shown => absurd shown.1.2 (by omega)

/-- The line for a move of the root: there is one if the game goes on, unless its count is zero. -/
theorem lines_root (n : Nat) (edge : Move × Option Game) :
    (lineCounts (lines true ((n + 2 : Nat) : Int) (n + 1) (0 + 1) edge.1 edge.2)).sum =
      if edge.2 = none then 0 else rootCount (n + 2) edge % 2 ^ 64 := by
  obtain ⟨m, here⟩ := edge
  cases here with
  | none =>
    rw [if_pos rfl, lines]
    rfl
  | some g =>
    have last : ((n + 2 : Nat) : Int) - 1 = 0 + 1 + (n : Nat) := by omega
    have counted : (indices (n + 1) (0 + 1) (some g)).count (((n + 2 : Nat) : Int) - 1) =
        rootCount (n + 2) (m, some g) := by
      rw [last, count_indices (Nat.lt_succ_self n)]
      rfl
    have silent : ((followers g).flatMap fun edge =>
        lines true ((n + 2 : Nat) : Int) n (0 + 1 + 1) edge.1 edge.2) = [] :=
      List.flatMap_eq_nil_iff.mpr fun edge _ => lines_deep n edge.1 edge.2 (by decide)
    have value : (UInt64.ofNat (rootCount (n + 2) (m, some g))).toNat =
        rootCount (n + 2) (m, some g) % 2 ^ 64 := UInt64.toNat_ofNat'
    rw [if_neg (Option.some_ne_none g), lines, silent, List.nil_append, counted, ← value]
    dsimp only
    by_cases zero : UInt64.ofNat (rootCount (n + 2) (m, some g)) = 0
    · rw [if_neg fun shown => shown.2 zero, zero]
      rfl
    · rw [if_pos ⟨⟨rfl, by decide⟩, zero⟩]
      rfl

/-- Lines one after another. -/
theorem lineCounts_append (first second : List Printed) :
    lineCounts (first ++ second) = lineCounts first ++ lineCounts second := by
  unfold lineCounts
  rw [List.filterMap_append, List.map_append]

/-- What the lines add up to: the counts of the root moves that do not end the game. -/
theorem lines_sum (n : Nat) (parent : Move) (g : Game) :
    (lineCounts (lines true ((n + 2 : Nat) : Int) (n + 2) 0 parent (some g))).sum =
      ((followers g).map fun edge =>
        if edge.2 = none then 0 else rootCount (n + 2) edge % 2 ^ 64).sum := by
  have whole : ∀ list : List (Move × Option Game),
      (lineCounts (list.flatMap fun edge =>
        lines true ((n + 2 : Nat) : Int) (n + 1) (0 + 1) edge.1 edge.2)).sum =
        (list.map fun edge =>
          if edge.2 = none then 0 else rootCount (n + 2) edge % 2 ^ 64).sum := by
    intro list
    induction list with
    | nil => rfl
    | cons edge rest ih =>
      rw [List.flatMap_cons, lineCounts_append, List.sum_append, List.map_cons, List.sum_cons, ih,
        lines_root]
  rw [lines]
  dsimp only
  rw [if_neg fun shown => absurd shown.1.2 (by decide), List.append_nil, whole]

/-- The total that is printed: the counts of all root moves. -/
theorem total_eq {g : Game} {n : Nat} {printed : List Printed} {perft : Perft}
    (did : Perft.zero.Did ((n + 2 : Nat) : Int) (indices (n + 2) 0 (some g)) printed perft) :
    (perft.results (((n + 2 : Nat) : Int) - 1)).toNat =
      ((followers g).map (rootCount (n + 2))).sum % 2 ^ 64 := by
  have last : ((n + 2 : Nat) : Int) - 1 = 0 + (n + 1 : Nat) := by omega
  have counted : (words followers (n + 1) (some g)).length =
    ((followers g).map (rootCount (n + 2))).sum :=
    length_words_succ n g
  rw [last, did.results, count_indices (Nat.lt_succ_self (n + 1)), counted]
  change (0 + UInt64.ofNat _).toNat = _
  rw [UInt64.zero_add]
  exact UInt64.toNat_ofNat'

/-- A root move that ends the game counts at level 2 only. -/
theorem rootCount_end (n : Nat) (m : Move) :
    rootCount (n + 2) (m, none) = if n = 0 then 1 else 0 := by
  cases n <;> rfl

/-- There are not so many root moves that counting those that end the game could wrap around. -/
theorem followers_length (g : Game) : (followers g).length ≤ 16384 := by
  have squares : (allMoves .empty).length = 4096 := by
    simp only [allMoves, List.length_flatMap, List.length_map, List.map_const', List.sum_replicate]
    rfl
  have four : ∀ m ∈ allMoves .empty, ((choices g m).filterMap (follow g)).length ≤ 4 := by
    intro m _
    refine (List.length_filterMap_le _ _).trans ?_
    unfold choices
    split
    · rw [List.length_map]
      decide
    · exact Nat.succ_le_succ (Nat.zero_le 3)
  unfold followers
  rw [List.length_flatMap]
  have bound := List.sum_le_card_nsmul ((allMoves .empty).map fun m =>
    ((choices g m).filterMap (follow g)).length) 4 (by
      intro k member
      obtain ⟨m, listed, rfl⟩ := List.mem_map.mp member
      exact four m listed)
  rw [List.length_map, squares] at bound
  exact bound

/-- Some counts, reduced, and the others make up the whole. -/
theorem sum_split {ι : Type} (count : ι → Nat) (dropped : ι → Prop) [DecidablePred dropped]
    (list : List ι) :
    ((list.map fun e => if dropped e then 0 else count e % 2 ^ 64).sum +
      (list.map fun e => if dropped e then count e else 0).sum) % 2 ^ 64 =
        (list.map count).sum % 2 ^ 64 := by
  induction list with
  | nil => rfl
  | cons e rest ih =>
    simp only [List.map_cons, List.sum_cons]
    split <;> omega

/-- What the lines miss: the moves that end the game, at level 2. -/
theorem missed_eq_zero {g : Game} (sound : Sound g) (n : Nat) :
    ((followers g).map fun edge => if edge.2 = none then rootCount (n + 2) edge else 0).sum = 0 ↔
      (n = 0 → ¬ ∃ m, Ending g [m]) := by
  have edges : ∀ m, Ending g [m] ↔ (m, none) ∈ followers g := by
    intro m
    rw [← finishes_iff sound, Finishes]
    constructor
    · rintro ⟨target, edge, finishes⟩
      cases target with
      | none => exact edge
      | some after => exact False.elim finishes
    · exact fun edge => ⟨none, edge, by simp only [Finishes]⟩
  rw [List.sum_eq_zero_iff]
  constructor
  · intro none first ending
    subst first
    obtain ⟨m, ending⟩ := ending
    have counted := none _ (List.mem_map.mpr ⟨_, (edges m).mp ending, rfl⟩)
    exact absurd counted Nat.one_ne_zero
  · intro absent k member
    obtain ⟨⟨m, target⟩, edge, rfl⟩ := List.mem_map.mp member
    cases target with
    | some after => exact if_neg (Option.some_ne_none after)
    | none =>
      have later : n ≠ 0 := fun first => absent first ⟨m, (edges m).mpr edge⟩
      rw [if_pos rfl, rootCount_end, if_neg later]

/-- The lines add up to the total exactly when no root move is missed, and, for their sum as it
stands, when it does not wrap around. -/
theorem lines_total_iff {g : Game} (sound : Sound g) {n : Nat} {kept total : Nat}
    (lines : kept = ((followers g).map fun edge =>
      if edge.2 = none then 0 else rootCount (n + 2) edge % 2 ^ 64).sum)
    (printed : total = ((followers g).map (rootCount (n + 2))).sum % 2 ^ 64) :
    (kept % 2 ^ 64 = total ↔ (n = 0 → ¬ ∃ m, Ending g [m])) ∧
      (kept = total ↔ (n = 0 → ¬ ∃ m, Ending g [m]) ∧
        ((followers g).map fun edge => rootCount (n + 2) edge % 2 ^ 64).sum < 2 ^ 64) := by
  have whole := sum_split (rootCount (n + 2)) (fun edge => edge.2 = none) (followers g)
  have few :
    ((followers g).map fun edge => if edge.2 = none then rootCount (n + 2) edge else 0).sum ≤
      16384 := by
    refine (List.sum_le_card_nsmul _ 1 fun k member => ?_).trans ?_
    · obtain ⟨⟨m, target⟩, -, rfl⟩ := List.mem_map.mp member
      cases target with
      | some after => exact (if_neg (Option.some_ne_none after)).trans_le (Nat.zero_le 1)
      | none =>
        rw [if_pos rfl, rootCount_end]
        split <;> decide
    · rw [List.length_map, smul_eq_mul, mul_one]
      exact followers_length g
  have all :
    ((followers g).map fun edge => if edge.2 = none then rootCount (n + 2) edge else 0).sum = 0 →
      ((followers g).map fun edge => rootCount (n + 2) edge % 2 ^ 64).sum = kept := by
    intro nothing
    rw [lines]
    congr 1
    refine List.map_congr_left fun edge member => ?_
    split
    · rename_i ends
      have zero := List.sum_eq_zero_iff.mp nothing _ (List.mem_map.mpr ⟨edge, member, rfl⟩)
      rw [if_pos ends] at zero
      rw [zero, Nat.zero_mod]
    · rfl
  rw [← missed_eq_zero sound n]
  rw [← lines, ← printed] at whole
  generalize ((followers g).map fun edge =>
    if edge.2 = none then rootCount (n + 2) edge else 0).sum =
    missed at *
  constructor
  · omega
  · constructor
    · intro same
      have nothing : missed = 0 := by omega
      refine ⟨nothing, ?_⟩
      rw [all nothing]
      omega
    · rintro ⟨nothing, small⟩
      rw [all nothing] at small
      omega

/-- In autotest mode the total follows an empty line. -/
theorem printResults_output {args : PerftArgs} (divided : args.autotest = true) (perft : Perft) :
    (printResults args perft).output =
      perft.output ++ [.newline, .count (perft.results (args.level - 1))] := by
  unfold printResults
  rw [divided, List.append_cons]
  rfl

/-- What `run_perft` prints in autotest mode. -/
theorem runPerft_lines {depth fuel : Nat} {memory g : Game} {buff : Nat → TokenBuff}
    {args : PerftArgs} (several : 2 ≤ args.level) (divided : args.autotest = true)
    (ready : startGame (depth + 1) memory buff args = .ok (.ok g))
    (enough : 3 * args.level.toNat + 1 ≤ fuel) :
    Sound g ∧ ∃ perft total n, runPerft (depth + 1) fuel memory buff args = .ok (0, perft) ∧
      perft.output.getLast? = some (.count total) ∧ args.level = ((n + 2 : Nat) : Int) ∧
      (lineCounts perft.output).sum = ((followers g).map fun edge =>
        if edge.2 = none then 0 else rootCount (n + 2) edge % 2 ^ 64).sum ∧
      total.toNat = ((followers g).map (rootCount (n + 2))).sum % 2 ^ 64 := by
  obtain ⟨sound, perft, runs, did⟩ := runPerft_did (by omega) ready enough
  obtain ⟨level, startPos, startSequence, autotest⟩ := args
  dsimp only at several divided did runs ⊢
  subst divided
  obtain ⟨n, rfl⟩ : ∃ n : Nat, level = ((n + 2 : Nat) : Int) := ⟨(level - 2).toNat, by omega⟩
  rw [Int.toNat_natCast] at did
  refine ⟨sound, _, perft.results (((n + 2 : Nat) : Int) - 1), n, runs,
    List.getLast?_concat, rfl, ?_,
    total_eq did⟩
  have silent : ∀ total, lineCounts [.newline, .count total] = [] := fun _ => rfl
  rw [printResults_output rfl, lineCounts_append, silent, List.append_nil, did.output]
  exact lines_sum n _ g

/-- In autotest mode the counts on the lines add up to the total exactly when no move of the root is
missed: at level 2 no such move may end the game. That is modulo `2 ^ 64`, as the program counts;
the sum as it stands equals the total when, besides, it does not wrap around. -/
theorem runPerft_division_iff {depth fuel : Nat} {memory g : Game} {buff : Nat → TokenBuff}
    {args : PerftArgs} (several : 2 ≤ args.level) (divided : args.autotest = true)
    (ready : startGame (depth + 1) memory buff args = .ok (.ok g))
    (enough : 3 * args.level.toNat + 1 ≤ fuel) :
    ∃ perft total, runPerft (depth + 1) fuel memory buff args = .ok (0, perft) ∧
      perft.output.getLast? = some (.count total) ∧
      ((lineCounts perft.output).sum % 2 ^ 64 = total.toNat ↔
        (args.level = 2 → ¬ ∃ m, Ending g [m])) ∧
      ((lineCounts perft.output).sum = total.toNat ↔ (args.level = 2 → ¬ ∃ m, Ending g [m]) ∧
        ((followers g).map fun edge => rootCount args.level.toNat edge % 2 ^ 64).sum < 2 ^ 64) := by
  obtain ⟨sound, perft, total, n, runs, last, level, kept, printed⟩ :=
    runPerft_lines several divided ready enough
  have first : n = 0 ↔ args.level = 2 := by omega
  have same : args.level.toNat = n + 2 := by omega
  refine ⟨perft, total, runs, last, ?_⟩
  rw [same, ← first]
  exact lines_total_iff sound kept printed

/-- From a new game, the lines add up at level 2 when no move ends the game. -/
theorem runPerft_division_iff_new : ∃ perft total,
    runPerft 1 7 blank noTokens ⟨2, none, none, true⟩ = .ok (0, perft) ∧
      perft.output.getLast? = some (.count total) ∧
      ((lineCounts perft.output).sum % 2 ^ 64 = total.toNat ↔
        ((2 : Int) = 2 → ¬ ∃ m, Ending (newGame blank) [m])) ∧
      ((lineCounts perft.output).sum = total.toNat ↔
        ((2 : Int) = 2 → ¬ ∃ m, Ending (newGame blank) [m]) ∧
          ((followers (newGame blank)).map fun edge => rootCount 2 edge % 2 ^ 64).sum < 2 ^ 64) :=
  runPerft_division_iff le_rfl rfl rfl le_rfl

/-- With level 2 and the start sequence of the fool's mate, the mate is in the total and has no
line. -/
theorem mate_without_line : ¬ ∀ args : PerftArgs, 2 ≤ args.level → args.autotest = true →
    ∀ perft total, runPerft 1 7 blank noTokens args = .ok (0, perft) →
      perft.output.getLast? = some (.count total) →
        (lineCounts perft.output).sum % 2 ^ 64 = total.toNat := by
  intro claimed
  obtain ⟨g, ready, mate⟩ := fools_ready 2 true
  obtain ⟨sound, perft, total, n, runs, last, level, kept, printed⟩ :=
    runPerft_lines le_rfl rfl ready le_rfl
  have adds := claimed _ le_rfl rfl perft total runs last
  have first : n = 0 := by
    dsimp only at level
    omega
  exact (lines_total_iff sound kept printed).1.mp adds first ⟨matingMove, mate⟩

end Chessh
