import Chessh.Client.Perft
import Chessh.Verif.Listing
import Chessh.Verif.Loading
import Chessh.Verif.Walk

/-!
# Perft counts sequences of moves

`calculate_perft` walks through the tree of the moves that can be played. The tree is that of
`Walk`: a call that is accepted leads on or to the end of the game, and a promotion is one move for
each piece. The counters are then the numbers of its words.
-/

namespace Chessh

open Walk

/-! ## The tree -/

/-- The codes that end the game. -/
theorem Made.ends_iff {g after : Game} {m : Move} {code : Int} (made : Made g m code after) :
    (code = blackWin ∨ code = whiteWin ∨ code = forcedDraw) ↔ Accepted code ∧ code < 0 := by
  cases made with
  | refused tried rejected => rcases rejected with rfl | rfl <;> decide
  | expired | offered | continued | stalemated => decide
  | mated => split <;> decide

/-- A pawn goes to its last row. -/
def Promoting (g : Game) (m : Move) : Prop := (g.get m.rI m.cI).type = .pawn ∧ LastRow g m

instance (g : Game) (m : Move) : Decidable (Promoting g m) := inferInstanceAs (Decidable (_ ∧ _))

/-- The moves between two squares: one for each promotion when a pawn goes to its last row. -/
def choices (g : Game) (m : Move) : List Move :=
  if Promoting g m then promotions.map m.named else [m]

/-- Where a call leads that is accepted: on, or to the end of the game. -/
def follow (g : Game) (m : Move) : Option (Move × Option Game) :=
  if Accepted (play g m).1 then
    some (m, if (play g m).1 < 0 then none else some (play g m).2)
  else none

/-- All moves that can be played, in the order in which perft tries them. -/
def followers (g : Game) : List (Move × Option Game) :=
  (allMoves .empty).flatMap fun m => (choices g m).filterMap (follow g)

/-- The move is between squares of the board, and names a promotion exactly when a pawn goes to its
last row. -/
def Spelled (g : Game) (m : Move) : Prop :=
  OnBoard m.rI m.cI ∧ OnBoard m.rF m.cF ∧
    if Promoting g m then m.promotion.isPromotion = true else m.promotion = .empty

/-- Every call of the sequence is accepted, and only the last may end the game. -/
def Playable : Game → List Move → Prop
  | _, [] => True
  | g, m :: rest => Spelled g m ∧ ∃ code after, Returns g m code after ∧ Accepted code ∧
      (rest = [] ∨ (0 ≤ code ∧ Playable after rest))

/-- Every call of the sequence is accepted, and the last and no other ends the game. -/
def Ending : Game → List Move → Prop
  | _, [] => False
  | g, m :: rest => Spelled g m ∧ ∃ code after, Returns g m code after ∧ Accepted code ∧
      ((rest = [] ∧ code < 0) ∨ (0 ≤ code ∧ Ending after rest))

section Tree

variable {g : Game}

/-- Whom a pawn is promoted to does not matter. -/
@[simp] theorem promoting_named {m : Move} {t : PieceType} :
    Promoting g (m.named t) ↔ Promoting g m := Iff.rfl

/-- The promotions of a pawn. -/
theorem mem_promotions {t : PieceType} : t ∈ promotions ↔ t.isPromotion = true := by
  cases t <;> simp [promotions, PieceType.isPromotion]

/-- The moves of the tree are those that fit. -/
theorem mem_choices {m : Move} : (∃ m' ∈ allMoves .empty, m ∈ choices g m') ↔ Spelled g m := by
  unfold choices Spelled
  constructor
  · rintro ⟨m', listed, chosen⟩
    obtain ⟨onS, onT, empty⟩ := mem_allMoves.mp listed
    split at chosen
    · rename_i promoting
      obtain ⟨t, known, rfl⟩ := List.mem_map.mp chosen
      refine ⟨onS, onT, ?_⟩
      rw [if_pos (promoting_named.mpr promoting)]
      exact mem_promotions.mp known
    · rename_i stays
      rw [List.mem_singleton.mp chosen, if_neg stays]
      exact ⟨onS, onT, empty⟩
  · rintro ⟨onS, onT, named⟩
    refine ⟨m.named .empty, mem_allMoves.mpr ⟨onS, onT, rfl⟩, ?_⟩
    by_cases promoting : Promoting g m
    · rw [if_pos promoting] at named
      rw [if_pos (promoting_named.mpr promoting)]
      exact List.mem_map.mpr ⟨m.promotion, mem_promotions.mpr named, rfl⟩
    · rw [if_neg promoting] at named
      rw [if_neg (mt promoting_named.mp promoting), List.mem_singleton]
      obtain ⟨_, _, _, _, promotion⟩ := m
      cases named
      rfl

/-- An edge of the tree keeps its label. -/
theorem follow_label {m : Move} {edge : Move × Option Game} (follows : follow g m = some edge) :
    edge.1 = m := by
  unfold follow at follows
  split at follows
  · cases follows
    rfl
  · cases follows

/-- The edges of the tree. -/
theorem mem_followers (sound : Sound g) {m : Move} {target : Option Game} :
    (m, target) ∈ followers g ↔ Spelled g m ∧ ∃ code after, Returns g m code after ∧ Accepted code ∧
      target = if code < 0 then none else some after := by
  unfold followers
  rw [List.mem_flatMap]
  constructor
  · rintro ⟨m', listed, edge⟩
    obtain ⟨m'', chosen, follows⟩ := List.mem_filterMap.mp edge
    obtain rfl : m = m'' := follow_label follows
    refine ⟨mem_choices.mp ⟨m', listed, chosen⟩, _, _, sound.played m, ?_⟩
    unfold follow at follows
    split at follows
    · rename_i accepted
      cases follows
      exact ⟨accepted, rfl⟩
    · cases follows
  · rintro ⟨spelled, code, after, returns, accepted, rfl⟩
    obtain ⟨m', listed, chosen⟩ := mem_choices.mpr spelled
    refine ⟨m', listed, List.mem_filterMap.mpr ⟨m, chosen, ?_⟩⟩
    obtain ⟨rfl, rfl⟩ := returns.unique (sound.played m)
    exact if_pos accepted

/-- The moves between two squares are between these squares, and differ. -/
theorem choices_apart (g : Game) (m : Move) :
    (choices g m).Nodup ∧ ∀ m' ∈ choices g m, m'.named .empty = m.named .empty := by
  unfold choices
  split
  · constructor
    · refine List.Nodup.map (fun t t' same => congrArg Move.promotion same) (by decide)
    · intro m' chosen
      obtain ⟨t, -, rfl⟩ := List.mem_map.mp chosen
      rfl
  · refine ⟨List.nodup_singleton m, fun m' chosen => ?_⟩
    rw [List.mem_singleton.mp chosen]

/-- The labels of the edges are the moves that are accepted. -/
theorem map_follow (g : Game) (list : List Move) :
    (list.filterMap (follow g)).map Prod.fst = list.filter fun m => Accepted (play g m).1 := by
  induction list with
  | nil => rfl
  | cons m rest ih =>
    by_cases accepted : Accepted (play g m).1
    · have follows : follow g m = some (m, _) := if_pos accepted
      rw [List.filterMap_cons_some follows, List.map_cons, ih,
        List.filter_cons_of_pos (by simpa using accepted)]
    · have refused : follow g m = none := if_neg accepted
      rw [List.filterMap_cons_none refused, ih, List.filter_cons_of_neg (by simpa using accepted)]

/-- No two edges of a node have the same move. -/
theorem followers_labels (g : Game) : ((followers g).map Prod.fst).Nodup := by
  unfold followers
  rw [List.map_flatMap]
  simp only [map_follow]
  rw [List.nodup_flatMap]
  constructor
  · exact fun m _ => (choices_apart g m).1.filter _
  · refine (allMoves_precedes .empty).imp_of_mem fun listed listed' before => ?_
    rw [Function.onFun, List.disjoint_left]
    intro m first second
    have same := ((choices_apart g _).2 m (List.mem_filter.mp first).1).symm.trans
      ((choices_apart g _).2 m (List.mem_filter.mp second).1)
    have unnamed : ∀ {m : Move}, m ∈ allMoves .empty → m.named .empty = m := by
      intro m listed
      have empty := (mem_allMoves.mp listed).2.2
      obtain ⟨_, _, _, _, promotion⟩ := m
      cases empty
      rfl
    rw [unnamed listed, unnamed listed'] at same
    exact before.ne same

/-- An edge leads to the end that the call has reported, or to the game it has left. -/
theorem exists_follower (sound : Sound g) {m : Move} {target : Option Game → Prop} :
    (∃ t, (m, t) ∈ followers g ∧ target t) ↔ Spelled g m ∧ ∃ code after, Returns g m code after ∧
      Accepted code ∧ ((code < 0 ∧ target none) ∨ (0 ≤ code ∧ target (some after))) := by
  constructor
  · rintro ⟨t, edge, reached⟩
    obtain ⟨spelled, code, after, returns, accepted, rfl⟩ := (mem_followers sound).mp edge
    refine ⟨spelled, code, after, returns, accepted, ?_⟩
    split at reached
    · rename_i ends
      exact Or.inl ⟨ends, reached⟩
    · rename_i goes
      exact Or.inr ⟨not_lt.mp goes, reached⟩
  · rintro ⟨spelled, code, after, returns, accepted, reached⟩
    refine ⟨_, (mem_followers sound).mpr ⟨spelled, code, after, returns, accepted, rfl⟩, ?_⟩
    rcases reached with ⟨ends, reached⟩ | ⟨goes, reached⟩
    · rwa [if_pos ends]
    · rwa [if_neg (not_lt.mpr goes)]

/-- The words of the tree are the sequences that can be played. -/
theorem reads_iff (sound : Sound g) (ms : List Move) :
    Reads followers (some g) ms ↔ Playable g ms := by
  induction ms generalizing g with
  | nil => simp only [Reads, Playable]
  | cons m rest ih =>
    rw [Reads, Playable, exists_follower sound]
    refine and_congr_right fun _ => exists_congr fun code => exists_congr fun after =>
      and_congr_right fun returns => and_congr_right fun _ => ?_
    rw [ih ((returns.made sound).sound sound)]
    cases rest with
    | nil =>
      simp only [Reads, Playable, and_true, true_or, iff_true]
      exact lt_or_ge code 0
    | cons m' rest => simp only [Reads, and_false, false_or, reduceCtorEq]

/-- The words that lead to an end are the sequences that end the game. -/
theorem finishes_iff (sound : Sound g) (ms : List Move) :
    Finishes followers (some g) ms ↔ Ending g ms := by
  induction ms generalizing g with
  | nil => simp only [Finishes, Ending]
  | cons m rest ih =>
    rw [Finishes, Ending, exists_follower sound]
    refine and_congr_right fun _ => exists_congr fun code => exists_congr fun after =>
      and_congr_right fun returns => and_congr_right fun _ => ?_
    rw [ih ((returns.made sound).sound sound)]
    cases rest with
    | nil => simp only [Finishes, Ending, and_true, true_and]
    | cons m' rest => simp only [Finishes, and_false, false_and, reduceCtorEq]

end Tree

/-! ## What a call does -/

/-- The indices that are counted up from a node or an end, when the walk stops `n` further on. -/
def indices (n : Nat) (currDepth : Int) (here : Option Game) : List Int :=
  (visits followers n here).map fun k : Nat => currDepth + k

/-- What is printed below a node or an end that the move has led to. -/
def lines (autotest : Bool) (maxDepth : Int) : Nat → Int → Move → Option Game → List Printed
  | _, _, _, none => []
  | 0, _, _, some _ => []
  | n + 1, currDepth, m, some g =>
    ((followers g).flatMap fun edge => lines autotest maxDepth n (currDepth + 1) edge.1 edge.2) ++
      let diff := UInt64.ofNat ((indices (n + 1) currDepth (some g)).count (maxDepth - 1))
      if (autotest = true ∧ currDepth = 1) ∧ diff ≠ 0 then [printMove m diff] else []

/-- What was done on the counters: the indices counted up, and the lines printed. An index is used
when it is counted up; the last of the array may be read as well. -/
structure Perft.Did (maxDepth : Int) (before : Perft) (counted : List Int) (printed : List Printed)
    (after : Perft) : Prop where
  results : ∀ i, after.results i = before.results i + UInt64.ofNat (counted.count i)
  used : ∀ i, i ≠ maxDepth - 1 → (i ∈ after.used ↔ i ∈ before.used ∨ i ∈ counted)
  output : after.output = before.output ++ printed

namespace Perft.Did

variable {maxDepth : Int} {before middle after : Perft} {counted counted' : List Int}
  {printed printed' : List Printed}

/-- Nothing was done. -/
theorem refl (perft : Perft) : Did maxDepth perft [] [] perft :=
  ⟨fun i => (UInt64.add_zero _).symm, fun i _ => by simp, (List.append_nil _).symm⟩

/-- One thing after another. -/
theorem trans (first : Did maxDepth before counted printed middle)
    (second : Did maxDepth middle counted' printed' after) :
    Did maxDepth before (counted ++ counted') (printed ++ printed') after := by
  refine ⟨fun i => ?_, fun i other => ?_, ?_⟩
  · rw [second.results, first.results, List.count_append, UInt64.ofNat_add, UInt64.add_assoc]
  · rw [second.used i other, first.used i other, List.mem_append, or_assoc]
  · rw [second.output, first.output, List.append_assoc]

/-- An index was counted up. -/
theorem bump (perft : Perft) (i : Int) : Did maxDepth perft [i] [] (perft.bump i) := by
  refine ⟨fun j => ?_, fun j _ => ?_, (List.append_nil _).symm⟩
  · change Function.update perft.results i (perft.results i + 1) j = _
    by_cases same : j = i
    · subst same
      rw [Function.update_self, List.count_singleton_self]
      rfl
    · rw [Function.update_of_ne same, List.count_eq_zero_of_not_mem (by simpa using same)]
      exact (UInt64.add_zero _).symm
  · change j ∈ perft.used ++ [i] ↔ _
    rw [List.mem_append]

/-- The last counter was read. -/
theorem touch (perft : Perft) : Did maxDepth perft [] [] (perft.touch (maxDepth - 1)) := by
  refine ⟨fun i => (UInt64.add_zero _).symm, fun i other => ?_, (List.append_nil _).symm⟩
  change i ∈ perft.used ++ [maxDepth - 1] ↔ _
  simp [other]

/-- A line was printed. -/
theorem print (perft : Perft) (line : Printed) : Did maxDepth perft [] [line] (perft.print line) :=
  ⟨fun i => (UInt64.add_zero _).symm, fun i _ => by simp [Perft.print], rfl⟩

/-- A loop does what its turns do. -/
theorem foldlM {β : Type} {games : Games} (call : β → Perft → Games → Except Stop (Perft × Games))
    {counts : β → List Int} {prints : β → List Printed} : ∀ {list : List β},
    (∀ b ∈ list, ∀ before, ∃ after, call b before games = .ok (after, games) ∧
      Did maxDepth before (counts b) (prints b) after) → ∀ before,
    ∃ after, list.foldlM (fun (state : Perft × Games) b => call b state.1 state.2) (before, games) =
        .ok (after, games) ∧
      Did maxDepth before (list.flatMap counts) (list.flatMap prints) after := by
  intro list
  induction list with
  | nil => exact fun _ before => ⟨before, rfl, refl before⟩
  | cons b rest ih =>
    intro turns before
    obtain ⟨middle, runs, did⟩ := turns b List.mem_cons_self before
    obtain ⟨after, others, rested⟩ :=
      ih (fun b member => turns b (List.mem_cons_of_mem _ member)) middle
    refine ⟨after, ?_, did.trans rested⟩
    rw [List.foldlM_cons, runs]
    exact others

end Perft.Did

/-- A call of `add_node` runs on a copy. -/
theorem addNode_eq {depth fuel p : Nat} {autotest : Bool} {maxDepth currDepth code : Int} {m : Move}
    {perft : Perft} {games : Games} {g after : Game} (here : games[p]? = some g)
    (asked : makeMove depth g m = some (code, after)) :
    addNode depth autotest maxDepth (fuel + 1) p currDepth m perft games =
      ((if code = illegalMove then .ok (perft, games ++ [after])
        else if code = blackWin ∨ code = whiteWin ∨ code = forcedDraw then
          .ok (perft.bump (currDepth + 1), games ++ [after])
        else if code = missingPromotion then
          if m.promotion ≠ .empty then .error .exited
          else
            promotions.foldlM (fun (state : Perft × Games) t =>
              addNode depth autotest maxDepth fuel games.length currDepth { m with promotion := t }
                state.1 state.2) (perft, games ++ [after])
        else calculatePerft depth autotest maxDepth fuel games.length (currDepth + 1) m perft
          (games ++ [after])) : Except Stop (Perft × Games)).map
            fun result => (result.1, result.2.dropLast) := by
  have copy : (games ++ [g])[games.length]? = some g := by simp
  have made : makeMoveAt depth games.length m (games ++ [g]) = .ok (code, games ++ [after]) := by
    unfold makeMoveAt
    rw [copy, orStop]
    simp only [bind, Except.bind]
    rw [asked, orStop]
    dsimp only
    rw [List.set_append_right _ _ le_rfl, Nat.sub_self, List.set_cons_zero]
  rw [addNode, onBackup, here, orStop]
  simp only [bind, Except.bind]
  rw [made]
  dsimp only
  split
  all_goals rename_i outcome
  all_goals rw [outcome, Except.map]

section Walked

variable {depth : Nat} {autotest : Bool} {maxDepth : Int}

/-- What follows an edge is visited one further on. -/
theorem indices_succ (n : Nat) (currDepth : Int) (g : Game) :
    indices (n + 1) currDepth (some g) =
      currDepth :: (followers g).flatMap fun edge => indices n (currDepth + 1) edge.2 := by
  unfold indices
  rw [visits, List.map_cons, Nat.cast_zero, add_zero, List.map_flatMap]
  congr 2
  funext edge
  rw [List.map_map]
  congr 1
  funext k
  change currDepth + ((k + 1 : Nat) : Int) = currDepth + 1 + k
  omega

/-- What a call of `calculate_perft` is to do. -/
def Walks (depth : Nat) (autotest : Bool) (maxDepth : Int) (n : Nat) : Prop :=
  ∀ (fuel p : Nat) (currDepth : Int) (parent : Move) (before : Perft) (games : Games) (g : Game),
    3 * n + 1 ≤ fuel → currDepth + n = maxDepth → games[p]? = some g → Sound g →
    ∃ after, calculatePerft (depth + 1) autotest maxDepth fuel p currDepth parent before games =
        .ok (after, games) ∧
      before.Did maxDepth (indices n currDepth (some g))
        (lines autotest maxDepth n currDepth parent (some g)) after

/-- The edge of an accepted call. -/
theorem follow_accepted {g : Game} {m : Move} (accepted : Accepted (play g m).1) :
    follow g m = some (m, if (play g m).1 < 0 then none else some (play g m).2) := if_pos accepted

/-- A call of `add_node` for a move that is not asked for a promotion goes along its edge. -/
theorem addNode_did {n fuel p : Nat} {currDepth : Int} {m : Move} {games : Games} {g : Game}
    (walks : Walks depth autotest maxDepth n) (enough : 3 * n + 1 ≤ fuel)
    (bound : currDepth + 1 + n = maxDepth) (here : games[p]? = some g) (sound : Sound g)
    (settled : (play g m).1 ≠ missingPromotion) (before : Perft) :
    ∃ after, addNode (depth + 1) autotest maxDepth (fuel + 1) p currDepth m before games =
        .ok (after, games) ∧
      before.Did maxDepth ((follow g m).toList.flatMap fun edge => indices n (currDepth + 1) edge.2)
        ((follow g m).toList.flatMap fun edge =>
          lines autotest maxDepth n (currDepth + 1) edge.1 edge.2) after := by
  have ends := ((sound.played m).made sound).ends_iff
  rw [addNode_eq here (sound.asked m depth)]
  by_cases illegal : (play g m).1 = illegalMove
  · have refused : follow g m = none := if_neg fun accepted => accepted.1 illegal
    rw [if_pos illegal, refused]
    refine ⟨before, ?_, .refl before⟩
    rw [Except.map, List.dropLast_concat]
  have accepted : Accepted (play g m).1 := ⟨illegal, settled⟩
  rw [if_neg illegal, follow_accepted accepted, Option.toList_some, List.flatMap_singleton,
    List.flatMap_singleton]
  by_cases ended : (play g m).1 < 0
  · rw [if_pos (ends.mpr ⟨accepted, ended⟩), if_pos ended]
    have index : indices n (currDepth + 1) none = [currDepth + 1] := by
      unfold indices
      rw [visits, List.map_singleton, Nat.cast_zero, add_zero]
    have silent : lines autotest maxDepth n (currDepth + 1) m none = [] := by rw [lines]
    rw [index, silent]
    refine ⟨_, ?_, .bump before (currDepth + 1)⟩
    rw [Except.map, List.dropLast_concat]
  · rw [if_neg (mt ends.mp fun ending => ended ending.2), if_neg settled, if_neg ended]
    have copy : (games ++ [(play g m).2])[games.length]? = some (play g m).2 := by simp
    obtain ⟨after, runs, did⟩ := walks fuel games.length (currDepth + 1) m before
      (games ++ [(play g m).2]) (play g m).2 enough bound copy (sound.play m)
    refine ⟨after, ?_, did⟩
    rw [runs, Except.map, List.dropLast_concat]

/-- A pawn that may not go to its last row may not go there whatever it is promoted to. -/
theorem follow_refused {g : Game} (sound : Sound g) {m : Move} (promoting : Promoting g m)
    (unnamed : m.promotion.isPromotion = false) (settled : (play g m).1 ≠ missingPromotion) :
    (play g m).1 = illegalMove ∧ ∀ t, follow g (m.named t) = none := by
  have returns := sound.played m
  constructor
  · by_contra legal
    have plays := (returns.accepted_iff sound).mp ⟨legal, settled⟩
    exact Bool.noConfusion (unnamed.symm.trans (plays.promotes sound promoting.1 promoting.2).1)
  · intro t
    refine if_neg fun accepted => settled ?_
    have plays := ((sound.played (m.named t)).accepted_iff sound).mp accepted
    obtain ⟨-, captured, promotes⟩ := plays.promotes sound promoting.1 promoting.2
    have unpromoted : Promotes g m captured :=
      ⟨promotes.mine.named m.promotion, promotes.pawn, promotes.goes, promotes.last⟩
    exact (returns.unique (unpromoted.missing sound unnamed)).1

/-- A call of `add_node` that is asked for a promotion tries all four on its copy, which is as it
was. -/
theorem addNode_promotions {n fuel p : Nat} {currDepth : Int} {m : Move} {games : Games} {g : Game}
    (walks : Walks depth autotest maxDepth n) (enough : 3 * n + 1 ≤ fuel)
    (bound : currDepth + 1 + n = maxDepth) (here : games[p]? = some g) (sound : Sound g)
    (empty : m.promotion = .empty) (missing : (play g m).1 = missingPromotion) (before : Perft) :
    ∃ after, addNode (depth + 1) autotest maxDepth (fuel + 2) p currDepth m before games =
        .ok (after, games) ∧
      before.Did maxDepth
        (promotions.flatMap fun t =>
          (follow g (m.named t)).toList.flatMap fun edge => indices n (currDepth + 1) edge.2)
        (promotions.flatMap fun t => (follow g (m.named t)).toList.flatMap fun edge =>
          lines autotest maxDepth n (currDepth + 1) edge.1 edge.2) after := by
  have returns := sound.played m
  have asked := sound.asked m depth
  rw [missing] at returns asked
  rw [(returns.missing sound).1] at asked
  rw [addNode_eq here asked, if_neg (by decide), if_neg (by decide), if_pos rfl,
    if_neg (not_not.mpr empty)]
  have copy : (games ++ [g])[games.length]? = some g := by simp
  have turns : ∀ t ∈ promotions, ∀ before, ∃ after,
      addNode (depth + 1) autotest maxDepth (fuel + 1) games.length currDepth (m.named t) before
        (games ++ [g]) = .ok (after, games ++ [g]) ∧
      before.Did maxDepth
        ((follow g (m.named t)).toList.flatMap fun edge => indices n (currDepth + 1) edge.2)
        ((follow g (m.named t)).toList.flatMap fun edge =>
          lines autotest maxDepth n (currDepth + 1) edge.1 edge.2) after := by
    intro t known before
    refine addNode_did walks enough bound copy sound (fun again => ?_) before
    have returns := sound.played (m.named t)
    rw [again] at returns
    exact Bool.noConfusion ((mem_promotions.mp known).symm.trans (returns.missing sound).2.1)
  obtain ⟨after, runs, did⟩ := Perft.Did.foldlM
    (fun t => addNode (depth + 1) autotest maxDepth (fuel + 1) games.length currDepth (m.named t))
    turns before
  refine ⟨after, ?_, did⟩
  unfold Move.named at runs
  rw [runs, Except.map, List.dropLast_concat]

/-- A call of `add_node` for two squares goes along the edges between them. -/
theorem addNode_pair {n fuel p : Nat} {currDepth : Int} {m : Move} {games : Games} {g : Game}
    (walks : Walks depth autotest maxDepth n) (enough : 3 * n + 1 ≤ fuel)
    (bound : currDepth + 1 + n = maxDepth) (here : games[p]? = some g) (sound : Sound g)
    (listed : m ∈ allMoves .empty) (before : Perft) :
    ∃ after, addNode (depth + 1) autotest maxDepth (fuel + 2) p currDepth m before games =
        .ok (after, games) ∧
      before.Did maxDepth
        (((choices g m).filterMap (follow g)).flatMap fun edge => indices n (currDepth + 1) edge.2)
        (((choices g m).filterMap (follow g)).flatMap fun edge =>
          lines autotest maxDepth n (currDepth + 1) edge.1 edge.2) after := by
  have empty := (mem_allMoves.mp listed).2.2
  rw [List.filterMap_eq_flatMap_toList]
  unfold choices
  by_cases promoting : Promoting g m
  · rw [if_pos promoting, List.flatMap_map, List.flatMap_assoc, List.flatMap_assoc]
    by_cases missing : (play g m).1 = missingPromotion
    · exact addNode_promotions walks enough bound here sound empty missing before
    · obtain ⟨illegal, refused⟩ :=
        follow_refused sound promoting (by rw [empty]; rfl) missing
      rw [addNode_eq here (sound.asked m depth), if_pos illegal]
      simp only [refused, Option.toList_none, List.flatMap_nil]
      refine ⟨before, ?_, .refl before⟩
      rw [Except.map, List.dropLast_concat]
  · rw [if_neg promoting, List.flatMap_singleton]
    refine addNode_did walks (by omega) bound here sound (fun missing => promoting ?_) before
    have returns := sound.played m
    rw [missing] at returns
    obtain ⟨-, -, captured, promotes⟩ := returns.missing sound
    exact ⟨promotes.pawn, promotes.last⟩

/-- Every call of `calculate_perft` walks through the tree below its game. -/
theorem calculatePerft_walks (n : Nat) : Walks depth autotest maxDepth n := by
  induction n with
  | zero =>
    intro fuel p currDepth parent before games g enough bound here sound
    obtain ⟨fuel, rfl⟩ : ∃ k, fuel = k + 1 := ⟨fuel - 1, by omega⟩
    rw [calculatePerft, if_pos (by omega)]
    have silent : lines autotest maxDepth 0 currDepth parent (some g) = [] := by rw [lines]
    rw [silent]
    exact ⟨before, rfl, .refl before⟩
  | succ n ih =>
    intro fuel p currDepth parent before games g enough bound here sound
    obtain ⟨fuel, rfl⟩ : ∃ k, fuel = k + 2 + 1 := ⟨fuel - 3, by omega⟩
    have turns : ∀ m ∈ allMoves .empty, ∀ before, ∃ after,
        addNode (depth + 1) autotest maxDepth (fuel + 2) p currDepth m before games =
          .ok (after, games) ∧ before.Did maxDepth _ _ after :=
      fun m listed before =>
        addNode_pair ih (by omega) (by push_cast at bound; omega) here sound listed before
    have loop := Perft.Did.foldlM
      (addNode (depth + 1) autotest maxDepth (fuel + 2) p currDepth) turns
    rw [← List.flatMap_assoc, ← List.flatMap_assoc] at loop
    change ∀ before, ∃ after, _ ∧ Perft.Did maxDepth before
      ((followers g).flatMap _) ((followers g).flatMap _) after at loop
    rw [calculatePerft, if_neg (by push_cast at bound; omega), indices_succ, lines]
    dsimp only
    have bumped : ∀ perft : Perft, perft.Did maxDepth [currDepth] [] (perft.bump currDepth) :=
      fun perft => .bump perft currDepth
    by_cases divides : autotest = true ∧ currDepth = 1
    · obtain ⟨after, runs, did⟩ := loop ((before.touch (maxDepth - 1)).bump currDepth)
      have whole := ((Perft.Did.touch before).trans (bumped _)).trans did
      simp only [if_pos divides, bind, Except.bind]
      rw [runs]
      dsimp only
      have diff : after.results (maxDepth - 1) - before.results (maxDepth - 1) =
          UInt64.ofNat ((indices (n + 1) currDepth (some g)).count (maxDepth - 1)) := by
        rw [whole.results, UInt64.add_comm, UInt64.add_sub_cancel, indices_succ]
        rfl
      rw [diff]
      generalize UInt64.ofNat ((indices (n + 1) currDepth (some g)).count (maxDepth - 1)) = total
      by_cases zero : total = 0
      · rw [if_pos zero, if_neg fun shown => shown.2 zero]
        have closed := whole.trans (.touch after)
        rw [List.append_nil] at closed
        exact ⟨_, rfl, closed⟩
      · rw [if_neg zero, if_pos ⟨divides, zero⟩]
        have closed := (whole.trans (.touch after)).trans (.print _ (printMove parent total))
        rw [List.append_nil, List.append_nil, List.append_nil] at closed
        exact ⟨_, rfl, closed⟩
    · obtain ⟨after, runs, did⟩ := loop (before.bump currDepth)
      have whole := (bumped before).trans did
      simp only [if_neg divides, if_neg fun shown => divides (And.left shown),
        List.append_nil, bind,
        Except.bind]
      rw [runs]
      dsimp only
      exact ⟨after, rfl, whole⟩

end Walked

/-- How often the counters above the bound are counted up: once for each word of that length. -/
theorem count_indices {n d : Nat} (above : d < n) (currDepth : Int) (here : Option Game) :
    (indices n currDepth here).count (currDepth + d) = (words followers d here).length := by
  have injective : Function.Injective fun k : Nat => currDepth + k := by
    intro k l same
    dsimp only at same
    omega
  unfold indices
  rw [List.count_map_of_injective _ (fun k : Nat => currDepth + k) injective,
    count_visits, if_pos above]

/-- The words of a length are the sequences that can be played. -/
theorem length_words {g : Game} (sound : Sound g) (d : Nat) :
    (words followers d (some g)).length = {ms | ms.length = d ∧ Playable g ms}.ncard := by
  have same : {ms | ms.length = d ∧ Playable g ms} =
    {ms | ms.length = d ∧ Reads followers (some g) ms} := by
    ext ms
    exact and_congr_right fun _ => (reads_iff sound ms).symm
  rw [same, ncard_reads followers_labels]

/-- On zeroed counters, `calculate_perft` counts the sequences of each length below its bound, in
which every call is accepted and only the last may end the game: modulo `2 ^ 64`, as its counters
do. It returns, with the games as they were. -/
theorem calculatePerft_exact {start g : Game} {calls : List (Move × Int)} (started : Started start)
    (run : Run start calls g) {level : Nat} (depth : Nat) (autotest : Bool) {fuel : Nat}
    (enough : 3 * level + 1 ≤ fuel) (parent : Move) {games : Games} {p : Nat}
    (here : games[p]? = some g) :
    ∃ after, calculatePerft (depth + 1) autotest level fuel p 0 parent .zero games =
        .ok (after, games) ∧
      ∀ d < level, after.results d = UInt64.ofNat {ms | ms.length = d ∧ Playable g ms}.ncard := by
  have sound := run.sound started.sound
  obtain ⟨after, runs, did⟩ := calculatePerft_walks level fuel p 0 parent .zero games g enough
    (zero_add _) here sound
  refine ⟨after, runs, fun d above => ?_⟩
  have counted := count_indices above 0 (some g)
  rw [zero_add] at counted
  rw [did.results, counted, length_words sound]
  exact UInt64.zero_add _

/-- Two levels from a new game. -/
theorem calculatePerft_exact_new : ∃ after, calculatePerft 1 false ((2 : Nat) : Int) 7 0 0
    ⟨0, 0, 0, 0, .empty⟩ .zero [newGame blank] = .ok (after, [newGame blank]) ∧
      ∀ d : Nat, d < 2 → after.results d =
        UInt64.ofNat {ms | ms.length = d ∧ Playable (newGame blank) ms}.ncard :=
  calculatePerft_exact (.new blank) .start 0 false (show 3 * 2 + 1 ≤ 7 by decide) _ rfl

end Chessh
