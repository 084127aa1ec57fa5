import Chessh.Verif.Overflow

/-!
# The accesses of `init_game`

Most checks of `init_game` come before the access they guard. Three do not: a row is filled
before its length is checked, the character behind a column letter may be the end of the text,
and the square of an absent en passant field is written to. `initGame_safe_iff` says that there
are no others, whatever a number is that overflows.
-/

namespace Chessh

open Rules (Side Kind Man Square Wing Placement ClocksValid manOf numeral sideLetter clocksText)

/-! ## The board field -/

/-- No letter of the text and no digit stands for a square outside the board, as far as the
board field is read from the square. -/
def Contained (text : List Char) (s : Int × Int) : Prop :=
  ∀ before ch behind t, text = before ++ ch :: behind → walk before s = some t →
    ((manOf ch).isSome = true → t.1 < 8 ∧ t.2 < 8) ∧
      (ch.isDigit = true → digitValue ch ≠ 0 → t.2 < 8 → t.1 < 8)

/-- What the first character and the rest of a text stand for. -/
theorem contained_cons {ch : Char} {rest : List Char} {s : Int × Int} :
    Contained (ch :: rest) s ↔
      (((manOf ch).isSome = true → s.1 < 8 ∧ s.2 < 8) ∧
        (ch.isDigit = true → digitValue ch ≠ 0 → s.2 < 8 → s.1 < 8)) ∧
      ∀ t, walk [ch] s = some t → Contained rest t := by
  constructor
  · intro contained
    refine ⟨contained [] ch rest s rfl rfl, fun t step before ch' behind u split walked => ?_⟩
    apply contained (ch :: before) ch' behind u (by rw [split]; rfl)
    rw [← List.singleton_append, walk_append, step]
    exact walked
  · rintro ⟨here, further⟩ before ch' behind t split walked
    cases before with
    | nil =>
      cases split
      cases walked
      exact here
    | cons first before =>
      obtain rfl : ch = first := List.head_eq_of_cons_eq split
      rw [← List.singleton_append, walk_append] at walked
      obtain ⟨u, step, walked⟩ := Option.bind_eq_some_iff.mp walked
      exact further u step before ch' behind t (List.tail_eq_of_cons_eq split) walked

/-- The squares of a digit are on the board when the first one is. -/
theorem clearRun_fine {run : Nat} {r c : Int} (row : 0 ≤ r) (column : 0 ≤ c) :
    (∀ a ∈ clearRunAccesses run r c, a.Fine) ↔ (run ≠ 0 → c < 8 → r < 8) := by
  induction run generalizing c with
  | zero => simp [clearRunAccesses]
  | succ run ih =>
    rw [clearRunAccesses]
    by_cases past : 8 ≤ c
    · rw [if_pos past]
      exact iff_of_true (fun a mem => by cases mem) fun _ inside => by omega
    · rw [if_neg past, List.forall_mem_cons, ih (by omega)]
      show OnBoard r c ∧ _ ↔ _
      constructor
      · exact fun fine _ _ => fine.1.1.2
      · intro low
        have row' := low (by omega) (by omega)
        exact ⟨⟨⟨row, by omega⟩, column, by omega⟩, fun _ _ => row'⟩

/-- The board field ends at a blank. -/
theorem contained_blank {rest : List Char} {s : Int × Int} : Contained (' ' :: rest) s := by
  rw [contained_cons, walk, if_neg (by decide), if_neg (by decide),
    if_neg fun h => absurd h.1 (by decide)]
  exact ⟨⟨fun letter => absurd letter (by decide), fun digit => absurd digit (by decide)⟩,
    fun t walked => by cases walked⟩

/-- A stroke behind a full row starts the next one, and otherwise the board field ends. -/
theorem contained_stroke {rest : List Char} {s : Int × Int} :
    Contained ('/' :: rest) s ↔ (s.2 = 8 → Contained rest (s.1 + 1, 0)) := by
  rw [contained_cons, walk, if_pos rfl, and_iff_right ⟨fun letter => absurd letter (by decide),
    fun digit => absurd digit (by decide)⟩]
  by_cases full : s.2 = 8
  · rw [if_pos full]
    simp only [walk, Option.some.injEq, forall_eq', full, forall_const]
  · rw [if_neg full]
    exact iff_of_true (fun t walked => by cases walked) fun full' => absurd full' full

/-- A letter fills a square. -/
theorem contained_letter {ch : Char} {rest : List Char} {s : Int × Int} {m : Man}
    (letter : manOf ch = some m) (stroke : ch ≠ '/') :
    Contained (ch :: rest) s ↔ (s.1 < 8 ∧ s.2 < 8) ∧ Contained rest (s.1, s.2 + 1) := by
  have man : (manOf ch).isSome = true := by rw [letter]; rfl
  rw [contained_cons, walk, if_neg stroke, if_pos man]
  simp only [walk, Option.some.injEq, forall_eq']
  refine and_congr_left fun _ => ⟨fun fine => fine.1 man,
    fun low => ⟨fun _ => low, fun _ _ _ => low.1⟩⟩

/-- A digit clears squares, and ends the board field when there are too many. -/
theorem contained_digit {ch : Char} {rest : List Char} {s : Int × Int} (letter : manOf ch = none)
    (digit : ch.isDigit = true) (stroke : ch ≠ '/') :
    Contained (ch :: rest) s ↔ (digitValue ch ≠ 0 → s.2 < 8 → s.1 < 8) ∧
      (digitValue ch = 0 ∨ s.2 + digitValue ch ≤ 8 →
        Contained rest (s.1, s.2 + digitValue ch)) := by
  have noMan : ¬ (manOf ch).isSome = true := by rw [letter]; exact Bool.false_ne_true
  rw [contained_cons, walk, if_neg stroke, if_neg noMan]
  refine and_congr ⟨fun fine => fine.2 digit, fun low =>
    ⟨fun man => absurd man noMan, fun _ => low⟩⟩ ?_
  by_cases fits : digitValue ch = 0 ∨ s.2 + digitValue ch ≤ 8
  · rw [if_pos ⟨digit, fits⟩]
    simp only [walk, Option.some.injEq, forall_eq', fits, forall_const]
  · rw [if_neg fun h => fits h.2]
    exact iff_of_true (fun t walked => by cases walked) fun fits' => absurd fits' fits

/-- Any other character ends the board field. -/
theorem contained_other {ch : Char} {rest : List Char} {s : Int × Int} (letter : manOf ch = none)
    (digit : ¬ ch.isDigit = true) (stroke : ch ≠ '/') : Contained (ch :: rest) s := by
  have noMan : ¬ (manOf ch).isSome = true := by rw [letter]; exact Bool.false_ne_true
  rw [contained_cons, walk, if_neg stroke, if_neg noMan, if_neg fun h => digit h.1]
  exact ⟨⟨fun man => absurd man noMan, fun digit' => absurd digit' digit⟩,
    fun t walked => by cases walked⟩

/-- The accesses of the board field are fine when the text is contained. -/
theorem loadBoard_fine {text : List Char} {g : Game} {s : Int × Int} (row : 0 ≤ s.1)
    (column : 0 ≤ s.2) :
    (∀ a ∈ loadBoardAccesses text g s.1 s.2, a.Fine) ↔ Contained text s := by
  induction text generalizing g s with
  | nil =>
    refine iff_of_true (fun a mem => ?_) fun before ch behind t split => ?_
    · rw [List.mem_singleton.mp mem]
      exact le_rfl
    · exact absurd split.symm (List.append_ne_nil_of_right_ne_nil _ (List.cons_ne_nil _ _))
  | cons ch rest ih =>
    have seen : (Access.char (rest.length + 1)).Fine := by
      show (0 : Int) ≤ rest.length + 1
      omega
    rw [loadBoardAccesses, List.forall_mem_cons, and_iff_right seen]
    by_cases blank : ch = ' '
    · subst blank
      rw [if_pos rfl]
      exact iff_of_true (List.forall_mem_nil _) contained_blank
    rw [if_neg blank]
    by_cases stroke : ch = '/'
    · subst stroke
      rw [if_pos rfl, contained_stroke]
      by_cases full : s.2 = 8
      · have next := @ih g (s.1 + 1, 0) (by dsimp only; omega) le_rfl
        rw [if_neg (not_not.mpr full), next]
        exact ⟨fun contained _ => contained, fun contained => contained full⟩
      · rw [if_pos full]
        exact iff_of_true (List.forall_mem_nil _) fun full' => absurd full' full
    rw [if_neg stroke, letterType_manOf]
    cases letter : manOf ch with
    | some man =>
      have here : (Access.square s.1 s.2).Fine ↔ s.1 < 8 ∧ s.2 < 8 :=
        ⟨fun on => ⟨on.1.2, on.2.2⟩, fun low => ⟨⟨row, low.1⟩, column, low.2⟩⟩
      have next := @ih (loadPiece g s.1 s.2 ch (typeOf man.kind)) (s.1, s.2 + 1) row
        (by dsimp only; omega)
      rw [contained_letter letter stroke, Option.map_some, ← here, ← next]
      exact List.forall_mem_cons
    | none =>
      dsimp only [Option.map_none]
      by_cases digit : ch.isDigit = true
      swap
      · rw [if_neg digit]
        exact iff_of_true (List.forall_mem_nil _) (contained_other letter digit stroke)
      have cursor := clearRun_cursor (digitValue ch) g s.1 s.2
      rw [if_pos digit, contained_digit letter digit stroke, List.forall_mem_append,
        clearRun_fine row column]
      generalize clearRun (digitValue ch) g s.1 s.2 = cleared at cursor
      obtain ⟨after, stop⟩ := cleared
      refine and_congr_right fun _ => ?_
      by_cases fits : digitValue ch = 0 ∨ s.2 + digitValue ch ≤ 8
      · rw [if_pos fits] at cursor
        obtain rfl : stop = some (s.2 + digitValue ch) := cursor
        have next := @ih after (s.1, s.2 + digitValue ch) row (by dsimp only; omega)
        dsimp only
        rw [next]
        exact ⟨fun contained _ => contained, fun contained => contained fits⟩
      · rw [if_neg fits] at cursor
        obtain rfl : stop = none := cursor
        exact iff_of_true (List.forall_mem_nil _) fun fits' => absurd fits' fits

/-- The board field of a contained text ends on the board. -/
theorem Contained.low {text placement : List Char} {s t : Int × Int} (contained : Contained text s)
    {rest : List Char} (split : text = placement ++ rest) (walked : walk placement s = some t)
    (start : s.1 < 8 ∨ s.2 = 0) : t.1 < 8 ∨ t.2 = 0 := by
  induction placement generalizing text s with
  | nil =>
    cases walked
    exact start
  | cons ch placement ih =>
    rw [split, List.cons_append, contained_cons] at contained
    obtain ⟨here, further⟩ := contained
    rw [← List.singleton_append, walk_append] at walked
    obtain ⟨u, step, walked⟩ := Option.bind_eq_some_iff.mp walked
    apply ih (further u step) rfl walked
    -- a stroke leads to the first column, anything else stays on the row it has written to
    rw [walk] at step
    split at step
    · split at step
      · cases step
        exact Or.inr rfl
      · cases step
    split at step
    · rename_i letter
      cases step
      exact Or.inl (here.1 letter).1
    split at step
    · rename_i digit
      cases step
      by_cases zero : digitValue ch = 0
      · simpa [zero] using start
      · exact Or.inl (here.2 digit.1 zero (by omega))
    · cases step

/-! ## The other fields -/

/-- A character of the text may be read. -/
theorem char_fine (s : List Char) : (Access.char s.length).Fine :=
  Int.natCast_nonneg _

/-- So may the one behind it, if it is not the last. -/
theorem blank_fine (tail : List Char) : (Access.char (((' ' :: tail).length : Int) - 1)).Fine := by
  show (0 : Int) ≤ _
  rw [List.length_cons]
  push_cast
  omega

/-- The digits of a number are read up to the end of the text at most. -/
theorem digitLoop_fine (s : List Char) : ∀ a ∈ digitLoopAccesses s, a.Fine := by
  induction s with
  | nil =>
    rw [digitLoopAccesses, List.forall_mem_singleton]
    exact char_fine []
  | cons ch rest ih =>
    rw [digitLoopAccesses, List.forall_mem_cons]
    refine ⟨char_fine (ch :: rest), ?_⟩
    split
    · exact ih
    · exact List.forall_mem_nil _

/-- So is a number. -/
theorem parseInt_fine (s : List Char) : ∀ a ∈ parseIntAccesses s, a.Fine := by
  rw [parseIntAccesses, List.forall_mem_cons]
  refine ⟨char_fine s, ?_⟩
  split
  · exact digitLoop_fine s
  · exact List.forall_mem_nil _

/-- The rights to castle stay in the corners and in the text. -/
theorem loadRights_fine (text : List Char) (g : Game) :
    ∀ a ∈ loadRightsAccesses text g, a.Fine := by
  induction text generalizing g with
  | nil =>
    rw [loadRightsAccesses, List.forall_mem_singleton]
    exact char_fine []
  | cons ch rest ih =>
    have castle : ∀ (r c : Int) (p : Player), OnBoard r c → ∀ a ∈ Access.square r c ::
        (rookCastle g r c p).elim [] (loadRightsAccesses rest), a.Fine := by
      intro r c p on
      rw [List.forall_mem_cons]
      refine ⟨on, ?_⟩
      cases rookCastle g r c p with
      | none => exact List.forall_mem_nil _
      | some next => exact ih next
    unfold loadRightsAccesses
    rw [List.forall_mem_cons]
    refine ⟨char_fine (ch :: rest), ?_⟩
    split
    · exact castle 7 7 .white (by decide)
    · exact castle 7 0 .white (by decide)
    · exact castle 0 7 .black (by decide)
    · exact castle 0 0 .black (by decide)
    · rw [List.forall_mem_singleton]
      exact char_fine rest
    · exact List.forall_mem_nil _

/-- The label `got_clock` writes to the en passant square. -/
theorem setClock_fine {r c : Int} {rest : List Char} :
    (∀ a ∈ setClockAccesses r c rest, a.Fine) ↔ OnBoard r c := by
  rw [setClockAccesses, List.forall_mem_cons, List.forall_mem_singleton]
  exact and_iff_left (char_fine rest)

/-- Behind the half-move clock the en passant square is written to past the move number. -/
theorem loadFull_fine {o : Overflow} {r c : Int} {text : List Char} :
    (∀ a ∈ loadFullAccesses o r c text, a.Fine) ↔ (o.CountedBy text → OnBoard r c) := by
  unfold loadFullAccesses
  rw [List.forall_mem_cons, and_iff_right (char_fine text)]
  split
  · rename_i rest
    rw [List.forall_mem_append, and_iff_right (parseInt_fine rest)]
    split
    · rename_i uncounted
      refine iff_of_true (List.forall_mem_nil _) fun past => ?_
      obtain ⟨_, same, counted⟩ := past
      cases same
      exact absurd uncounted counted
    · rename_i counted
      rw [setClock_fine]
      exact ⟨fun on _ => on, fun on => on ⟨rest, rfl, counted⟩⟩
  · rename_i other
    refine iff_of_true (List.forall_mem_nil _) fun past => ?_
    obtain ⟨rest, shape, -⟩ := past
    exact absurd shape (other rest)

/-- The en passant square is written to past the clocks. -/
theorem loadClock_fine {o : Overflow} {r c : Int} {text : List Char} :
    (∀ a ∈ loadClockAccesses o r c text, a.Fine) ↔ (o.TimedBy text → OnBoard r c) := by
  unfold loadClockAccesses
  rw [List.forall_mem_cons, and_iff_right (char_fine text)]
  split
  · rw [setClock_fine]
    exact ⟨fun on _ => on, fun on => on (Or.inl rfl)⟩
  · rename_i rest
    rw [List.forall_mem_append, and_iff_right (parseInt_fine rest)]
    split
    · rename_i absent
      refine iff_of_true (List.forall_mem_nil _) fun past => ?_
      rcases past with empty | ⟨_, same, present, -⟩
      · cases empty
      · cases same
        exact absurd absent present
    · rename_i present
      rw [loadFull_fine]
      constructor
      · rintro on (empty | ⟨_, same, -, counted⟩)
        · cases empty
        · cases same
          exact on counted
      · exact fun on counted => on (Or.inr ⟨rest, rfl, present, counted⟩)
  · rename_i some_text other
    refine iff_of_true (List.forall_mem_nil _) fun past => ?_
    rcases past with rfl | ⟨rest, shape, -⟩
    · exact absurd rfl some_text
    · exact absurd shape (other rest)

/-- Where the en passant field leads to an access that is not there. -/
def Safe (rest : List Char) : Prop :=
  (∀ file, rest = [file] → passingColumn file = none) ∧ ∀ more, rest = '-' :: more → ¬ Timed more

/-- A column of the en passant field is on the board. -/
theorem passingColumn_bounds {file : Char} {c : Int} (column : passingColumn file = some c) :
    0 ≤ c ∧ c < 8 := by
  unfold passingColumn at column
  split at column <;> first | cases column; decide | cases column

/-- Behind anything but a hyphen a column and a rank are read. -/
theorem loadPassingAccesses_cons {ch : Char} (hyphen : ch ≠ '-') (o : Overflow) (r : Int)
    (rest : List Char) :
    loadPassingAccesses o r (ch :: rest) = .char (ch :: rest).length ::
      match passingColumn ch with
      | none => []
      | some c =>
        .char rest.length ::
          match rest with
          | [] => [.char (-1)]
          | rank :: rest =>
            loadClockAccesses o (if rank = '2' then 3 else if rank = '5' then 4 else r) c rest := by
  unfold loadPassingAccesses
  split
  · rename_i empty
    cases empty
  · rename_i same
    exact absurd (List.head_eq_of_cons_eq same) hyphen
  · rename_i same
    cases same
    rfl

/-- Behind a hyphen a square off the board is written to, when there is no reason to stop. -/
theorem loadPassing_hyphen {r : Int} {rest : List Char} :
    (∀ o, ∀ a ∈ loadPassingAccesses o r ('-' :: rest), a.Fine) ↔ Safe ('-' :: rest) := by
  have off : ¬ OnBoard (-1) (-1) := by decide
  have field : ∀ o, (∀ a ∈ loadPassingAccesses o r ('-' :: rest), a.Fine) ↔ ¬ o.TimedBy rest := by
    intro o
    rw [loadPassingAccesses, List.forall_mem_cons, and_iff_right (char_fine _), loadClock_fine]
    exact ⟨fun on past => off (on past), fun other past => absurd past other⟩
  rw [forall_congr' field, ← not_exists, ← timed_iff]
  constructor
  · refine fun untimed => ⟨fun file shape => ?_, fun more shape => ?_⟩
    · cases shape
      rfl
    · cases shape
      exact untimed
  · exact fun safe => safe.2 rest rfl

/-- The square behind a pawn is on the board. -/
theorem passing_onBoard {r c : Int} (row : 0 ≤ r ∧ r < 8) {ch : Char}
    (column : passingColumn ch = some c) (rank : Char) :
    OnBoard (if rank = '2' then 3 else if rank = '5' then 4 else r) c := by
  refine ⟨?_, passingColumn_bounds column⟩
  split
  · decide
  split
  · decide
  · exact row

/-- What is left of the text is read inside it, and the board is written to on the board, whatever
an overflow gives. -/
theorem loadPassing_fine {r : Int} (row : 0 ≤ r ∧ r < 8) {rest : List Char} :
    (∀ o, ∀ a ∈ loadPassingAccesses o r rest, a.Fine) ↔ Safe rest := by
  cases rest with
  | nil =>
    refine iff_of_true (fun o => ?_)
      ⟨fun file shape => (by cases shape), fun more shape => (by cases shape)⟩
    exact List.forall_mem_singleton.mpr (char_fine [])
  | cons ch rest =>
    by_cases hyphen : ch = '-'
    · subst hyphen
      exact loadPassing_hyphen
    have dashless : ∀ more, ch :: rest ≠ '-' :: more :=
      fun more shape => hyphen (List.head_eq_of_cons_eq shape)
    simp only [loadPassingAccesses_cons hyphen]
    cases column : passingColumn ch with
    | none =>
      refine iff_of_true (fun o => List.forall_mem_singleton.mpr (char_fine _))
        ⟨fun file shape => ?_, fun more shape => absurd shape (dashless more)⟩
      cases shape
      exact column
    | some c =>
      cases rest with
      | nil =>
        refine iff_of_false (fun fine => ?_) fun safe => ?_
        · exact absurd (fine .saturated (.char (-1)) (by simp)) (by decide)
        · rw [safe.1 ch rfl] at column
          cases column
      | cons rank rest =>
        refine iff_of_true (fun o => ?_)
          ⟨fun file shape => (by cases shape), fun more shape => absurd shape (dashless more)⟩
        rw [List.forall_mem_cons, List.forall_mem_cons]
        exact ⟨char_fine _, char_fine _, loadClock_fine.mpr fun _ => passing_onBoard row column _⟩

/-! ## The whole text -/

section Whole

variable {o : Overflow} {g : Game} {text : List Char}

/-- Behind the side to move and a blank come the rights to castle. -/
theorem loadRest_fine {r : Int} {castling rest : List Char} {after : Game}
    (granted : loadRights castling g = (after, some rest)) :
    (∀ a ∈ loadRestAccesses o g r (' ' :: castling), a.Fine) ↔
      ∀ a ∈ loadPassingAccesses o r rest, a.Fine := by
  unfold loadRestAccesses
  rw [List.forall_mem_cons, and_iff_right (char_fine _)]
  simp only
  rw [List.forall_mem_append, and_iff_right (loadRights_fine castling g), granted]

/-- Where the rights to castle are refused, nothing else is accessed. -/
theorem loadRest_stopped {r : Int} {more : List Char}
    (stops : ∀ castling, more = ' ' :: castling → (loadRights castling g).2 = none) :
    ∀ a ∈ loadRestAccesses o g r more, a.Fine := by
  unfold loadRestAccesses
  rw [List.forall_mem_cons]
  refine ⟨char_fine more, ?_⟩
  split
  · rename_i castling
    have stopped := stops castling rfl
    rw [List.forall_mem_append]
    refine ⟨loadRights_fine castling g, ?_⟩
    split
    · exact List.forall_mem_nil _
    · rename_i read
      rw [read] at stopped
      cases stopped
  · exact List.forall_mem_nil _

/-- Where the fields up to the rights to castle are read, the en passant field comes next. -/
theorem accesses_front {f : Front} {s : Int × Int} (reads : f.Reads g s) (rest : List Char) :
    (∀ a ∈ initGameAccesses o g (f.text rest), a.Fine) ↔
      (∀ a ∈ loadBoardAccesses (f.text rest) g 0 0, a.Fine) ∧
        ∀ a ∈ loadPassingAccesses o s.1 rest, a.Fine := by
  have board : loadBoard (f.text rest) g 0 0 = (boardAfter f.placement g (0, 0),
      some (' ' :: sideLetter f.side :: ' ' :: (f.castling ++ ' ' :: rest), s.1, s.2)) := by
    have walked := loadBoard_walk reads.blank
      (sideLetter f.side :: ' ' :: (f.castling ++ ' ' :: rest)) g (0, 0)
    rw [reads.walked] at walked
    exact walked
  have reached : ¬ (s.1 < 7 ∨ s.2 < 7) := by
    have := reads.row
    have := reads.column
    omega
  have behind := loadRest_fine (o := o) (r := s.1) (reads.granted rest)
  unfold initGameAccesses
  rw [List.forall_mem_append, board]
  simp only [reached, ↓reduceIte]
  rw [List.forall_mem_cons, and_iff_right (char_fine _), List.forall_mem_cons,
    and_iff_right (blank_fine _)]
  refine and_congr_right fun _ => ?_
  rw [← behind]
  cases f.side <;> rfl

/-- Where they are not, nothing else is accessed outside. -/
theorem accesses_unread (unread : ∀ (f : Front) s rest, text = f.text rest → ¬ f.Reads g s) :
    (∀ a ∈ initGameAccesses o g text, a.Fine) ↔ ∀ a ∈ loadBoardAccesses text g 0 0, a.Fine := by
  unfold initGameAccesses
  rw [List.forall_mem_append]
  apply and_iff_left
  cases board : loadBoard text g 0 0 with
  | mk after stop =>
    cases stop with
    | none => exact List.forall_mem_nil _
    | some stop =>
      obtain ⟨rest, r, c⟩ := stop
      simp only
      by_cases short : r < 7 ∨ c < 7
      · rw [if_pos short]
        exact List.forall_mem_nil _
      rw [if_neg short]
      obtain ⟨placement, tail, -, -, rfl, -, -⟩ := loadBoard_blank board
      have stops : ∀ (side : Side) (more : List Char),
        ' ' :: tail = ' ' :: sideLetter side :: more →
          ∀ a ∈ loadRestAccesses o { after with duration := if side = .white then 0 else 1 } r more,
            a.Fine := by
        intro side more shape
        exact loadRest_stopped fun castling blank =>
          unread_stops unread board short (by rw [shape, blank])
      rw [List.forall_mem_cons, List.forall_mem_cons]
      refine ⟨char_fine _, blank_fine tail, ?_⟩
      split
      · rename_i same
        exact stops .white _ same
      · rename_i same
        exact stops .black _ same
      · exact List.forall_mem_nil _

end Whole

/-- Every access of `init_game` stays inside its array, whatever an overflow gives, exactly when no
row gets too long where there is no next one, and, if the text is read so far, the en passant field
is neither cut short nor absent. -/
theorem initGame_safe_iff (g : Game) (text : List Char) :
    (∀ o, ∀ a ∈ initGameAccesses o g text, a.Fine) ↔
      Contained text (0, 0) ∧
        ∀ (f : Front) s rest, f.text rest = text → f.Reads g s → Safe rest := by
  have board := @loadBoard_fine text g (0, 0) le_rfl le_rfl
  -- the row of the en passant square is one of the board
  have row : Contained text (0, 0) → ∀ (f : Front) s rest, f.text rest = text → f.Reads g s →
      0 ≤ s.1 ∧ s.1 < 8 := by
    intro contained f s rest same reads
    have low := contained.low same.symm reads.walked (Or.inl (by decide))
    have := reads.row
    have := reads.column
    omega
  constructor
  · intro fine
    have contained : Contained text (0, 0) :=
      board.mp fun a mem => fine .saturated a (List.mem_append_left _ mem)
    refine ⟨contained, fun f s rest same reads => ?_⟩
    have inside := row contained f s rest same reads
    subst same
    exact (loadPassing_fine inside).mp fun o => ((accesses_front reads rest).mp (fine o)).2
  · rintro ⟨contained, safe⟩ o
    by_cases read : ∃ (f : Front) (s : Int × Int) (rest : List Char),
      f.text rest = text ∧ f.Reads g s
    · obtain ⟨f, s, rest, same, reads⟩ := read
      have inside := row contained f s rest same reads
      have behind := safe f s rest same reads
      subst same
      exact (accesses_front reads rest).mpr
        ⟨board.mpr contained, (loadPassing_fine inside).mpr behind o⟩
    · exact (accesses_unread fun f s rest same reads => read ⟨f, s, rest, same.symm, reads⟩).mpr
        (board.mpr contained)

unseal digitValue in
/-- The position without an en passant square writes outside the board, and a text that ends with
a column letter is read behind its end. -/
theorem initGame_outside :
    (¬ ∀ a ∈ initGameAccesses .saturated (newGame blank)
      ['8', '/', '8', '/', '8', '/', '8', '/', '8', '/', '8', '/', '8', '/', '8', ' ', 'w', ' ',
        '-', ' ', '-'], a.Fine) ∧
    ¬ ∀ a ∈ initGameAccesses .saturated (newGame blank)
      ['8', '/', '8', '/', '8', '/', '8', '/', '8', '/', '8', '/', '8', '/', '8', ' ', 'w', ' ',
        '-', ' ', 'e'], a.Fine := by
  decide +kernel

end Chessh
