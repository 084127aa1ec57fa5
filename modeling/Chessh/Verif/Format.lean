import Chessh.Verif.Overflow

/-!
# What is accepted against what is a position

A valid text is read by the scanner without any of the liberties it takes, and a text that is
read without them is valid: `isFen_iff`. `initGame_accepts_iff` compares the texts that `init_game`
accepts, and those that it may accept when a number overflows, with the valid ones.
-/

namespace Chessh

open Rules (Side Kind Man Square Wing Placement Fen IsFen ClocksValid numeral sideLetter rightLetter
  rightsText clocksText rankSquares ranksText files)

/-! ## A valid text is read -/

/-- The fields of a position as `init_game` tells them apart. -/
def scanOf (f : Fen) : Scan :=
  ⟨⟨ranksText f.ranks, f.side, f.rights, f.rights.isEmpty⟩, f.passingText, f.clocks⟩

/-- The column letters are those of the board. -/
theorem passingColumn_files {file : Char} : file ∈ files ↔ ∃ c, passingColumn file = some c := by
  constructor
  · intro mem
    simp only [files, List.mem_cons, List.not_mem_nil, or_false] at mem
    rcases mem with rfl | rfl | rfl | rfl | rfl | rfl | rfl | rfl <;> exact ⟨_, rfl⟩
  · rintro ⟨c, column⟩
    unfold passingColumn at column
    split at column <;> first | decide | cases column

/-- The text of the rights is that of the letters and the hyphen. -/
theorem castling_text (rights : List (Side × Wing)) :
    rights.map rightLetter ++ (if rights.isEmpty then ['-'] else []) = rightsText rights := by
  cases rights with
  | nil => rfl
  | cons right rights =>
    rw [rightsText, if_neg (List.cons_ne_nil _ _), List.isEmpty_cons, if_neg (by decide),
      List.append_nil]

section Valid

variable {f : Fen}

/-- The fields of a position make up its text. -/
theorem scanOf_text : (scanOf f).text = f.text := by
  rw [Scan.text, Front.text, Front.castling, Fen.text]
  exact congrArg (fun castling => ranksText f.ranks ++ ' ' :: sideLetter f.side :: ' ' ::
    (castling ++ ' ' :: (f.passingText ++ clocksText f.clocks))) (castling_text f.rights)

/-- The rows of a position hold no blank. -/
theorem blank_ranksText {ranks : List (List Char)}
    (all : ∀ rank ∈ ranks, ∃ squares, rankSquares rank = some squares ∧ squares.length = 8) :
    ' ' ∉ ranksText ranks := by
  induction ranks with
  | nil => exact List.not_mem_nil
  | cons rank ranks ih =>
    obtain ⟨squares, described, -⟩ := all rank List.mem_cons_self
    have here : ' ' ∉ rank := fun mem => (rankSquares_chars described ' ' mem).1 rfl
    have behind := ih fun other mem => all other (List.mem_cons_of_mem _ mem)
    cases ranks with
    | nil => exact here
    | cons next ranks =>
      intro mem
      rcases List.mem_append.mp mem with mem | mem
      · exact here mem
      · rcases List.mem_cons.mp mem with stroke | mem
        · cases stroke
        · exact behind mem

/-- The rows of a position fill the board. -/
theorem valid_walked (valid : f.Valid) : walk (ranksText f.ranks) (0, 0) = some (7, 8) := by
  obtain ⟨first, ranks, parts⟩ := List.exists_cons_of_length_eq_add_one valid.eight
  have all := valid.rank
  have eight := valid.eight
  rw [parts] at all eight
  rw [parts, walk_ranks all]
  rw [List.length_cons] at eight
  have seven : ranks.length = 7 := by omega
  rw [seven]
  rfl

/-- The en passant field of a position is read. -/
theorem valid_passed (valid : f.Valid) : ∃ x, passSquare 7 f.passingText = some x := by
  unfold Fen.passingText
  split
  · exact ⟨_, rfl⟩
  · rename_i file rank named
    obtain ⟨c, column⟩ := passingColumn_files.mp (valid.passing file rank named).1
    unfold passSquare
    split
    · exact ⟨_, rfl⟩
    · rename_i same
      cases same
      rw [column]
      exact ⟨_, rfl⟩
    · rename_i pair
      exact absurd rfl (pair file rank)

/-- A valid text is read. -/
theorem valid_reads (valid : f.Valid) (g : Game) : ∃ x, (scanOf f).Reads g (7, 8) x := by
  obtain ⟨x, passed⟩ := valid_passed valid
  refine ⟨x, ⟨blank_ranksText valid.rank, valid_walked valid, le_rfl, by decide, ?_⟩, passed,
    valid.clocks⟩
  intro right mem
  exact (menAfter_board valid.eight valid.rank _ (corner_onBoard _ _)).trans
    (valid.rights right mem).2

/-- The square of a king is on the board. -/
theorem home_onBoard (side : Side) : OnBoard side.homeRow 4 := by
  cases side <;> decide

/-- A valid text takes no liberty. -/
theorem valid_strict (valid : f.Valid) (g : Game) : (scanOf f).Strict g (7, 8) where
  ended := rfl
  kings := fun right mem =>
    (menAfter_board valid.eight valid.rank _ (home_onBoard right.1)).trans
      (valid.rights right mem).1
  hyphen := List.isEmpty_iff
  rank := by
    intro file rank same
    unfold scanOf Fen.passingText at same
    simp only at same
    split at same
    · cases same
    · rename_i named
      cases same
      exact (valid.passing file rank named).2

end Valid

/-! ## A text that is read without liberties is valid -/

section Strict

variable {g : Game} {q : Scan} {s x : Int × Int}

/-- The en passant field of a text, as that of a position. -/
theorem passing_text {passing : List Char} {r : Int} (named : passSquare r passing = some x) :
    ∃ square : Option (Char × Char),
      (∀ ranks side rights clocks,
        (⟨ranks, side, rights, square, clocks⟩ : Fen).passingText = passing) ∧
      ∀ file rank, square = some (file, rank) → passing = [file, rank] ∧ file ∈ files := by
  rcases passSquare_cases named with rfl | ⟨file, rank, c, rfl, column, -⟩
  · refine ⟨none, fun _ _ _ _ => rfl, fun file rank absent => ?_⟩
    cases absent
  · refine ⟨some (file, rank), fun _ _ _ _ => rfl, fun file' rank' same => ?_⟩
    cases same
    exact ⟨rfl, passingColumn_files.mpr ⟨c, column⟩⟩

/-- A text that is read without liberties is a position. -/
theorem Scan.Strict.isFen (strict : q.Strict g s) (reads : q.Reads g s x) : IsFen q.text := by
  have walked := reads.front.walked
  rw [strict.ended] at walked
  obtain ⟨first, ranks, board, row, ⟨squares, described, length⟩, all⟩ := walk_split walked
  obtain ⟨square, passing, named⟩ := passing_text reads.passing
  have full : ∀ rank ∈ first :: ranks, ∃ squares, rankSquares rank = some squares ∧
      squares.length = 8 := by
    intro rank mem
    rcases List.mem_cons.mp mem with rfl | mem
    · exact ⟨squares, described, by omega⟩
    · exact all rank mem
  have eight : (first :: ranks).length = 8 := by
    rw [List.length_cons]
    omega
  have hyphen : q.front.dash = q.front.rights.isEmpty :=
    Bool.eq_iff_iff.mpr (strict.hyphen.trans List.isEmpty_iff.symm)
  -- the men of the position are those of the scan, whatever its other fields
  let f : Fen := ⟨first :: ranks, q.front.side, q.front.rights, square, q.clocks⟩
  have men : ∀ t : Square, OnBoard t.1 t.2 →
      menAfter q.front.placement g.placement (0, 0) t = f.board t := by
    intro t on
    rw [board]
    exact @menAfter_board f eight full g.placement t on
  refine ⟨f, ⟨eight, full, fun right mem => ?_, fun file rank same => ?_, reads.clocks⟩, ?_⟩
  · exact ⟨(men _ (home_onBoard _)).symm.trans (strict.kings right mem),
      (men _ (corner_onBoard _ _)).symm.trans (reads.front.rooks right mem)⟩
  · obtain ⟨text, column⟩ := named file rank same
    exact ⟨column, strict.rank file rank text⟩
  · have castling : q.front.castling = rightsText q.front.rights := by
      rw [Front.castling, hyphen]
      exact castling_text _
    rw [Scan.text, Front.text, Fen.text, castling, board]
    exact congrArg (fun passing => ranksText (first :: ranks) ++ ' ' :: sideLetter q.front.side ::
      ' ' :: (rightsText q.front.rights ++ ' ' :: (passing ++ clocksText q.clocks)))
      (passing _ _ _ _)

end Strict

/-- The valid texts are those that are read without liberties. -/
theorem isFen_iff {g : Game} {text : List Char} :
    IsFen text ↔ ∃ q s x, Scan.text q = text ∧ q.Reads g s x ∧ q.Strict g s := by
  constructor
  · rintro ⟨f, valid, rfl⟩
    obtain ⟨x, reads⟩ := valid_reads valid g
    exact ⟨scanOf f, (7, 8), x, scanOf_text, reads, valid_strict valid g⟩
  · rintro ⟨q, s, x, rfl, reads, strict⟩
    exact strict.isFen reads

/-! ## The accepted texts -/

section Accepted

variable {g loaded : Game} {q : Scan} {s x : Int × Int}

/-- The clocks change no men. -/
theorem clocked_man (g : Game) (x : Int × Int) (clocks : Option (List Char × List Char))
    (r c : Int) :
    ((clocked g x clocks).2.get r c).man = (g.get r c).man := by
  have kept : ∀ (h : Game) duration rest,
      ((setClock h x.1 x.2 duration rest).2.get r c).man = (h.get r c).man := by
    intro h duration rest
    rw [setClock_get]
    split
    · rename_i here
      rw [here.2.1, here.2.2]
      rfl
    · rfl
  cases clocks with
  | none => exact kept _ _ _
  | some numbers => exact kept _ _ _

/-- The rights change no men. -/
theorem grant_man (rights : List (Side × Wing)) (g : Game) (r c : Int) :
    ((grant rights g).get r c).man = (g.get r c).man := by
  rw [get_grant]
  split <;> rfl

/-- The men of a loaded game are those of the board field. -/
theorem loaded_man (reads : q.Reads g s x)
    (accepted : initGame g q.text = some (0, loaded)) {r c : Int} (on : OnBoard r c) :
    (loaded.get r c).man = menAfter q.front.placement g.placement (0, 0) (r, c) := by
  have fits : Fits q.clocks := by
    by_contra large
    rw [initGame_overflow reads large] at accepted
    cases accepted
  rw [initGame_fits reads fits] at accepted
  obtain rfl : (clocked (q.front.loaded g) x q.clocks).2 = loaded :=
    congrArg Prod.snd (Option.some.inj accepted)
  rw [clocked_man, Front.loaded, grant_man]
  exact boardAfter_men reads.front.blank reads.front.walked on

/-- The men of a loaded position are its own, whatever the memory held. -/
theorem loaded_board {f : Fen} (valid : f.Valid) (accepted : initGame g f.text = some (0, loaded))
    {r c : Int} (on : OnBoard r c) : (loaded.get r c).man = f.board (r, c) := by
  obtain ⟨x, reads⟩ := valid_reads valid g
  rw [← scanOf_text] at accepted
  exact (loaded_man reads accepted on).trans (menAfter_board valid.eight valid.rank _ on)

/-- A text that is read is a position when it takes no liberty. -/
theorem Scan.Reads.isFen_iff (reads : q.Reads g s x) : IsFen q.text ↔ q.Strict g s := by
  constructor
  · intro isFen
    obtain ⟨q', s', x', same, reads', strict⟩ := (Chessh.isFen_iff (g := g)).mp isFen
    obtain ⟨rfl, rfl, -⟩ := reads'.unique reads same
    exact strict
  · exact fun strict => strict.isFen reads

/-- A text that is read is accepted when its numbers fit. -/
theorem Scan.Reads.accepts_iff (reads : q.Reads g s x) :
    (∃ loaded, initGame g q.text = some (0, loaded)) ↔ Fits q.clocks := by
  constructor
  · intro accepted
    obtain ⟨q', s', x', same, reads', fits⟩ := Chessh.accepts_iff.mp accepted
    obtain ⟨rfl, -, -⟩ := reads'.unique reads same
    exact fits
  · exact fun fits => Chessh.accepts_iff.mpr ⟨q, s, x, rfl, reads, fits⟩

end Accepted

/-- `init_game` accepts every position, and no other text whatever an overflow gives, exactly for
the texts that are not cut short and, if they are read, take none of the liberties and hold numbers
that fit; the men of an accepted position are on all of the board. -/
theorem initGame_accepts_iff (g : Game) (text : List Char) :
    (((IsFen text → ∃ loaded, initGame g text = some (0, loaded)) ∧
      (MayAccept g text → IsFen text)) ↔
        ¬ CutShort g text ∧
          ∀ q s x, Scan.text q = text → q.Reads g s x → q.Strict g s ∧ Fits q.clocks) ∧
      ∀ loaded (f : Fen), initGame g text = some (0, loaded) → f.Valid → f.text = text →
        ∀ r c, OnBoard r c → (loaded.get r c).man = f.board (r, c) := by
  refine ⟨⟨?_, ?_⟩, ?_⟩
  · rintro ⟨accepts, only⟩
    constructor
    · intro cut
      obtain ⟨loaded, accepted⟩ := accepts (only (mayAccept_iff.mpr (Or.inr cut)))
      have code := initGame_code .saturated accepted
      rw [cut.code] at code
      cases code
    · rintro q s x rfl reads
      have isFen := only (mayAccept_iff.mpr (Or.inl ⟨q, s, x, rfl, reads⟩))
      exact ⟨reads.isFen_iff.mp isFen, reads.accepts_iff.mp (accepts isFen)⟩
  · rintro ⟨whole, all⟩
    constructor
    · intro isFen
      obtain ⟨q, s, x, rfl, reads, -⟩ := (isFen_iff (g := g)).mp isFen
      exact reads.accepts_iff.mpr (all q s x rfl reads).2
    · intro may
      rcases mayAccept_iff.mp may with ⟨q, s, x, rfl, reads⟩ | cut
      · exact reads.isFen_iff.mpr (all q s x rfl reads).1
      · exact absurd cut whole
  · intro loaded f accepted valid same r c on
    rw [← same] at accepted
    exact loaded_board valid accepted on

/-- A board without the last square. -/
def shortScan : Scan :=
  ⟨⟨['8', '/', '8', '/', '8', '/', '8', '/', '8', '/', '8', '/', '8', '/', '7'], .white, [], true⟩,
    ['e', '3'], none⟩

unseal digitValue in
/-- The scanner reads a board without the last square. -/
theorem shortScan_reads : shortScan.Reads (newGame blank) (7, 7) (7, 4) := by
  refine ⟨⟨by decide, by decide +kernel, by decide, by decide, ?_⟩, rfl, ?_⟩
  · intro right mem
    cases mem
  · intro half full absent
    cases absent

/-- A board without the last square is accepted, and is no position. -/
theorem initGame_short :
    (∃ loaded, initGame (newGame blank)
      ['8', '/', '8', '/', '8', '/', '8', '/', '8', '/', '8', '/', '8', '/', '7', ' ', 'w', ' ',
        '-', ' ', 'e', '3'] = some (0, loaded)) ∧
    ¬ IsFen
      ['8', '/', '8', '/', '8', '/', '8', '/', '8', '/', '8', '/', '8', '/', '7', ' ', 'w', ' ',
        '-', ' ', 'e', '3'] := by
  have fits : Fits shortScan.clocks := by
    intro half full absent
    cases absent
  refine ⟨shortScan_reads.accepts_iff.mpr fits, fun isFen => ?_⟩
  have isFen : IsFen shortScan.text := isFen
  cases (shortScan_reads.isFen_iff.mp isFen).ended

end Chessh
