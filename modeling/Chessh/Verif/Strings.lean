import Mathlib.Data.List.GetD
import Chessh.Frontends.Api

/-!
# What becomes of a string that arrives in pieces

`read_string` stores every piece at the start of its buffer and takes the end of the stream for
progress. `readString_right_iff` says for which deliveries the string is read all the same, and
`readString_returns_iff` for which streams the function returns at all.
-/

namespace Chessh.Frontends

/-- The chunk that the next read takes from. -/
def firstChunk : List Arrival → List UInt8
  | [] => []
  | .chunk bytes :: _ => bytes.val
  | .failure _ :: rest => firstChunk rest

variable {stream rest : List Arrival} {dst dst' : Buffer} {len : UInt8} {fuel : Nat} {result : Int}

/-! ## The buffer and the count -/

/-- Bytes are stored up to their number. -/
theorem stored_of_le {bytes : List UInt8} {i : Fin 256} (outside : bytes.length ≤ i) :
    stored dst bytes i = dst i := List.getD_eq_default _ _ outside

/-- A byte that is stored. -/
theorem stored_of_lt {bytes : List UInt8} {i : Fin 256} (inside : i < bytes.length) :
    stored dst bytes i = bytes[i] := List.getD_eq_getElem _ _ inside

/-- The count goes down without wrapping. -/
theorem count_sub {k : Nat} (le : k ≤ len.toNat) : (len - UInt8.ofNat k).toNat = len.toNat - k := by
  have small := len.toNat_lt
  rw [UInt8.toNat_sub_of_le _ _ (UInt8.le_iff_toNat_le.mpr ?_), UInt8.toNat_ofNat']
  · rw [Nat.mod_eq_of_lt (by omega)]
  · rw [UInt8.toNat_ofNat', Nat.mod_eq_of_lt (by omega)]
    exact le

/-- Calm streams stay calm. -/
theorem Calm.tail {arrival : Arrival} (calm : Calm (arrival :: stream)) : Calm stream :=
  fun errno member => calm errno (List.mem_cons_of_mem arrival member)

/-! ## One read -/

section Reads

variable {n : Nat} {bytes : { bytes : List UInt8 // bytes ≠ [] }}

/-- A chunk that is not longer than what is asked for. -/
theorem read_whole (whole : bytes.val.length ≤ n) :
    read n (.chunk bytes :: rest) = (.got bytes.val, rest) := by
  have nothing : ¬ bytes.val.drop n ≠ [] := by
    rw [not_not, List.drop_eq_nil_iff]
    exact whole
  exact dif_neg nothing

/-- What is left of a longer chunk. -/
theorem drop_ne_nil (part : n < bytes.val.length) : bytes.val.drop n ≠ [] := by
  rw [ne_eq, List.drop_eq_nil_iff]
  omega

/-- A chunk that is longer than what is asked for. -/
theorem read_part (part : n < bytes.val.length) :
    read n (.chunk bytes :: rest) =
      (.got (bytes.val.take n), .chunk ⟨bytes.val.drop n, drop_ne_nil part⟩ :: rest) :=
  dif_pos (drop_ne_nil part)

end Reads

/-! ## One turn of the loop -/

section Turns

variable {bytes : { bytes : List UInt8 // bytes ≠ [] }}

/-- The end of the stream changes nothing. -/
theorem readLoop_eof (wanted : 0 < len) :
    readLoop (fuel + 1) dst len [] = readLoop fuel dst len [] := by
  have same : len - UInt8.ofNat 0 = len := by simp
  conv_lhs => unfold readLoop
  rw [if_pos wanted]
  dsimp only [read]
  rw [List.length_nil, same]
  rfl

/-- An interruption changes nothing. -/
theorem readLoop_interrupted {errno : Errno} (wanted : 0 < len)
    (calm : errno = .eintr ∨ errno = .eagain) :
    readLoop (fuel + 1) dst len (.failure errno :: rest) = readLoop fuel dst len rest := by
  have again : ¬ (errno ≠ .eintr ∧ errno ≠ .eagain) := by tauto
  conv_lhs => unfold readLoop
  rw [if_pos wanted]
  exact if_neg again

/-- A chunk that is not longer than what is wanted. -/
theorem readLoop_whole (wanted : 0 < len) (whole : bytes.val.length ≤ len.toNat) :
    readLoop (fuel + 1) dst len (.chunk bytes :: rest) =
      readLoop fuel (stored dst bytes.val) (len - UInt8.ofNat bytes.val.length) rest := by
  conv_lhs => unfold readLoop
  rw [if_pos wanted, read_whole whole]

/-- A chunk that is longer than what is wanted. -/
theorem readLoop_part (wanted : 0 < len) (part : len.toNat < bytes.val.length) :
    readLoop (fuel + 1) dst len (.chunk bytes :: rest) =
      readLoop fuel (stored dst (bytes.val.take len.toNat)) 0
        (.chunk ⟨bytes.val.drop len.toNat, drop_ne_nil part⟩ :: rest) := by
  have none : len - UInt8.ofNat (bytes.val.take len.toNat).length = 0 := by
    rw [List.length_take_of_le (by omega), UInt8.ofNat_toNat, UInt8.sub_self]
  conv_lhs => unfold readLoop
  rw [if_pos wanted, read_part part]
  dsimp only
  rw [none]

end Turns

/-! ## The whole loop -/

/-- What remains wanted is wanted. -/
theorem wanted_iff : 0 < len ↔ 0 < len.toNat := UInt8.lt_iff_toNat_lt

/-- Where enough bytes follow the loop ends, and has taken what was wanted. -/
theorem readLoop_returns (calm : Calm stream) (enough : len.toNat ≤ (bytesOf stream).length) :
    ∃ fuel dst' rest, readLoop fuel dst len stream = some (0, dst', rest) ∧
      bytesOf rest = (bytesOf stream).drop len.toNat := by
  induction stream generalizing dst len with
  | nil =>
    have none : len = 0 := by
      rw [bytesOf, List.length_nil] at enough
      exact UInt8.toNat_inj.mp (Nat.le_zero.mp enough)
    subst none
    exact ⟨1, dst, [], rfl, rfl⟩
  | cons arrival rest ih =>
    by_cases wanted : 0 < len
    · cases arrival with
      | failure errno =>
        obtain ⟨fuel, dst', last, returns, left⟩ := @ih dst len calm.tail enough
        refine ⟨fuel + 1, dst', last, ?_, left⟩
        rw [readLoop_interrupted wanted (calm errno List.mem_cons_self), returns]
      | chunk bytes =>
        rw [bytesOf, List.length_append] at enough
        rcases Nat.lt_or_ge len.toNat bytes.val.length with part | whole
        · refine ⟨2, _, _, readLoop_part wanted part, ?_⟩
          rw [bytesOf, bytesOf, List.drop_append_of_le_length (by omega)]
        · have less := count_sub whole
          obtain ⟨fuel, dst', last, returns, left⟩ := @ih (stored dst bytes.val)
            (len - UInt8.ofNat bytes.val.length) calm.tail (by rw [less]; omega)
          refine ⟨fuel + 1, dst', last, ?_, ?_⟩
          · rw [readLoop_whole wanted whole, returns]
          · rw [left, less, bytesOf, List.drop_append]
            rw [List.drop_eq_nil_of_le whole, List.nil_append]
    · have none : len = 0 := by
        rw [wanted_iff] at wanted
        exact UInt8.toNat_inj.mp (by simpa using wanted)
      subst none
      exact ⟨1, dst, _, rfl, rfl⟩

/-- Where too few bytes follow the loop never ends. -/
theorem readLoop_stuck (calm : Calm stream) (short : (bytesOf stream).length < len.toNat) :
    readLoop fuel dst len stream = none := by
  induction fuel generalizing dst len stream with
  | zero => rfl
  | succ fuel ih =>
    have wanted : 0 < len := wanted_iff.mpr (by omega)
    cases stream with
    | nil =>
      rw [readLoop_eof wanted]
      exact ih calm short
    | cons arrival rest =>
      cases arrival with
      | failure errno =>
        rw [readLoop_interrupted wanted (calm errno List.mem_cons_self)]
        exact ih calm.tail short
      | chunk bytes =>
        rw [bytesOf, List.length_append] at short
        have whole : bytes.val.length ≤ len.toNat := by omega
        rw [readLoop_whole wanted whole]
        exact ih calm.tail (by rw [count_sub whole]; omega)

/-- The loop stores nothing beyond what is wanted. -/
theorem readLoop_keeps
    (returns : readLoop fuel dst len stream = some (result, dst', rest)) {i : Fin 256}
    (beyond : len.toNat ≤ i) : dst' i = dst i := by
  induction fuel generalizing dst len stream with
  | zero => cases returns
  | succ fuel ih =>
    by_cases wanted : 0 < len
    · cases stream with
      | nil =>
        rw [readLoop_eof wanted] at returns
        exact ih returns beyond
      | cons arrival others =>
        cases arrival with
        | failure errno =>
          by_cases interrupted : errno = .eintr ∨ errno = .eagain
          · rw [readLoop_interrupted wanted interrupted] at returns
            exact ih returns beyond
          · rw [readLoop, if_pos wanted, read] at returns
            dsimp only at returns
            rw [if_pos (not_or.mp interrupted)] at returns
            cases returns
            rfl
        | chunk bytes =>
          rcases Nat.lt_or_ge len.toNat bytes.val.length with part | whole
          · rw [readLoop_part wanted part] at returns
            rw [ih returns (Nat.zero_le i)]
            exact stored_of_le (by rw [List.length_take_of_le (by omega)]; exact beyond)
          · rw [readLoop_whole wanted whole] at returns
            rw [ih returns (by rw [count_sub whole]; omega)]
            exact stored_of_le (by omega)
    · have none : len = 0 := by
        rw [wanted_iff] at wanted
        exact UInt8.toNat_inj.mp (by simpa using wanted)
      subst none
      cases returns
      rfl

/-- A first chunk that is too short leaves the last byte of the string as it was. -/
theorem readLoop_last (calm : Calm stream) (short : (firstChunk stream).length < len.toNat)
    (returns : readLoop fuel dst len stream = some (result, dst', rest)) {i : Fin 256}
    (last : len.toNat = i + 1) : dst' i = dst i := by
  have wanted : 0 < len := wanted_iff.mpr (by omega)
  induction fuel generalizing dst stream with
  | zero => cases returns
  | succ fuel ih =>
    cases stream with
    | nil =>
      rw [readLoop_eof wanted] at returns
      exact ih calm short returns
    | cons arrival others =>
      cases arrival with
      | failure errno =>
        rw [readLoop_interrupted wanted (calm errno List.mem_cons_self)] at returns
        exact ih calm.tail short returns
      | chunk bytes =>
        rw [firstChunk] at short
        have some := List.length_pos_iff.mpr bytes.property
        rw [readLoop_whole wanted short.le] at returns
        rw [readLoop_keeps returns (by rw [count_sub short.le]; omega)]
        exact stored_of_le (by omega)

/-- A first chunk that is long enough is the string. -/
theorem readLoop_first (calm : Calm stream) (long : len.toNat ≤ (firstChunk stream).length) :
    ∃ fuel rest, readLoop fuel dst len stream =
        some (0, stored dst ((firstChunk stream).take len.toNat), rest) ∧
      bytesOf rest = (bytesOf stream).drop len.toNat := by
  by_cases wanted : 0 < len
  · have positive := wanted_iff.mp wanted
    induction stream with
    | nil =>
      rw [firstChunk, List.length_nil] at long
      omega
    | cons arrival rest ih =>
      cases arrival with
      | failure errno =>
        obtain ⟨fuel, last, returns, left⟩ := ih calm.tail long
        refine ⟨fuel + 1, last, ?_, left⟩
        rw [readLoop_interrupted wanted (calm errno List.mem_cons_self), returns]
        rfl
      | chunk bytes =>
        rw [firstChunk] at long ⊢
        rcases Nat.lt_or_ge len.toNat bytes.val.length with part | whole
        · refine ⟨2, _, readLoop_part wanted part, ?_⟩
          rw [bytesOf, bytesOf, List.drop_append_of_le_length (by omega)]
        · have none : len - UInt8.ofNat bytes.val.length = 0 := by
            rw [Nat.le_antisymm whole long, UInt8.ofNat_toNat, UInt8.sub_self]
          refine ⟨2, rest, ?_, ?_⟩
          · rw [readLoop_whole wanted whole, none, List.take_of_length_le whole]
            rfl
          · rw [bytesOf, List.drop_append, List.drop_eq_nil_of_le whole, List.nil_append,
              Nat.le_antisymm whole long, Nat.sub_self, List.drop_zero]
  · have none : len = 0 := by
      rw [wanted_iff] at wanted
      exact UInt8.toNat_inj.mp (by simpa using wanted)
    subst none
    exact ⟨1, stream, rfl, rfl⟩

/-! ## The whole function -/

/-- The length byte is read from the chunk it comes with. -/
theorem read_length {bytes : { bytes : List UInt8 // bytes ≠ [] }} {string : List UInt8}
    (delivered : bytesOf (.chunk bytes :: rest) = len :: string)
    (calm : Calm (.chunk bytes :: rest)) :
    ∃ left, read 1 (.chunk bytes :: rest) = (.got [len], left) ∧ bytesOf left = string ∧
      Calm left := by
  obtain ⟨all, nonempty⟩ := bytes
  obtain ⟨byte, tail, rfl⟩ := List.exists_cons_of_ne_nil nonempty
  obtain rfl : byte = len := (List.cons.inj delivered).1
  have following : tail ++ bytesOf rest = string := (List.cons.inj delivered).2
  cases tail with
  | nil => exact ⟨rest, read_whole le_rfl, following, calm.tail⟩
  | cons second others =>
    have part : 1 < (byte :: second :: others).length := Nat.lt_add_of_pos_left (Nat.succ_pos _)
    refine ⟨_, read_part part, following, fun errno member => ?_⟩
    rcases List.mem_cons.mp member with first | later
    · cases first
    · exact calm.tail errno later

/-- The first chunk is what arrives first. -/
theorem firstChunk_prefix (stream : List Arrival) : firstChunk stream <+: bytesOf stream := by
  induction stream with
  | nil => exact List.prefix_rfl
  | cons arrival rest ih =>
    cases arrival with
    | chunk bytes => exact List.prefix_append _ _
    | failure errno => exact ih

/-- The function returns 0 with the string in the buffer and nothing taken from what follows it. -/
def Right (stream : List Arrival) (content more : List UInt8) (dst : Buffer) : Prop :=
  ∃ fuel dst' rest, readString fuel dst stream = some (0, dst', rest) ∧ bytesOf rest = more ∧
    (∀ i : Fin 256, i.val < content.length → content[i.val]? = some (dst' i)) ∧
    ∀ i : Fin 256, i.val = content.length → dst' i = 0

/-- The length byte is there at the first read, and what is read next is the whole string. -/
def InOnePiece (stream : List Arrival) (len : UInt8) : Prop :=
  (∃ bytes rest, stream = .chunk bytes :: rest) ∧
    len.toNat ≤ (firstChunk (read 1 stream).2).length

/-- What comes in one piece is read right. -/
theorem InOnePiece.right {content more : List UInt8} (whole : InOnePiece stream len)
    (calm : Calm stream) (length : content.length = len.toNat)
    (delivered : bytesOf stream = len :: content ++ more) (dst : Buffer) :
    Right stream content more dst := by
  obtain ⟨⟨bytes, others, rfl⟩, long⟩ := whole
  obtain ⟨left, reads, bytesLeft, calmLeft⟩ := read_length delivered calm
  rw [reads] at long
  have same : (firstChunk left).take len.toNat = content := by
    obtain ⟨behind, split⟩ := firstChunk_prefix left
    rw [← List.take_append_of_le_length long, split, bytesLeft]
    exact List.take_left' length
  obtain ⟨fuel, rest, returns, taken⟩ :=
    @readLoop_first left (Function.update dst len.toFin 0) len calmLeft long
  rw [same] at returns
  refine ⟨fuel, stored (Function.update dst len.toFin 0) content, rest, ?_, ?_, fun i inside => ?_,
    fun i last => ?_⟩
  · unfold readString
    rw [reads]
    exact returns
  · rw [taken, bytesLeft, ← length]
    exact List.drop_left
  · rw [stored_of_lt inside]
    exact List.getElem?_eq_getElem inside
  · have here : i = len.toFin := Fin.ext (last.trans length)
    rw [stored_of_le last.ge, here, Function.update_self]

/-- A string is read right, whatever the buffer held, exactly when it comes in one piece. -/
theorem readString_right_iff {content more : List UInt8} (calm : Calm stream)
    (length : content.length = len.toNat) (delivered : bytesOf stream = len :: content ++ more) :
    (∀ dst, Right stream content more dst) ↔ InOnePiece stream len := by
  refine ⟨fun right => ?_, fun whole => whole.right calm length delivered⟩
  cases stream with
  | nil => cases delivered
  | cons arrival others =>
    cases arrival with
    | failure errno =>
      obtain ⟨fuel, dst', rest, returns, -⟩ := right fun _ => 0
      cases returns
    | chunk bytes =>
      refine ⟨⟨bytes, others, rfl⟩, ?_⟩
      obtain ⟨left, reads, bytesLeft, calmLeft⟩ := read_length delivered calm
      rw [reads]
      by_contra short
      rw [not_le] at short
      dsimp only at short
      -- the last byte of the string is not stored, and the buffer held another one
      have small := len.toNat_lt
      let i : Fin 256 := ⟨len.toNat - 1, by omega⟩
      have inside : i.val < content.length := by dsimp only [i]; omega
      obtain ⟨fuel, dst', rest, returns, -, read, -⟩ := right fun _ => content[i.val] + 1
      unfold readString at returns
      rw [reads] at returns
      have kept := readLoop_last calmLeft short returns (i := i) (by dsimp only [i]; omega)
      have byte := read i inside
      have other : i ≠ len.toFin := by
        intro same
        have values := congrArg Fin.val same
        change len.toNat - 1 = len.toNat at values
        omega
      rw [kept, Function.update_of_ne other, List.getElem?_eq_getElem inside] at byte
      have wrong := Option.some.inj byte
      exact absurd wrong.symm (by simp)

/-- A chunk of a test. -/
def piece (byte : UInt8) (others : List UInt8) : Arrival :=
  .chunk ⟨byte :: others, List.cons_ne_nil byte others⟩

/-- The string ab in one piece after an interruption. -/
theorem readString_right_iff_ab :
    (∀ dst, Right [piece 2 [], .failure .eintr, piece 97 [98]] [97, 98] [] dst) ↔
      InOnePiece [piece 2 [], .failure .eintr, piece 97 [98]] 2 := by
  refine readString_right_iff (fun errno member => ?_) rfl rfl
  simp [piece] at member
  exact Or.inl member

/-- The string ab in two pieces leaves b and whatever the buffer held. -/
theorem split_string_lost :
    ¬ ∀ (stream : List Arrival) (len : UInt8) (content more : List UInt8) (dst : Buffer),
      Calm stream →
      content.length = len.toNat → bytesOf stream = len :: content ++ more →
      Right stream content more dst := by
  intro always
  have calm : Calm [piece 2 [], piece 97 [], piece 98 []] := by
    intro errno member
    simp [piece] at member
  obtain ⟨fuel, dst', rest, returns, -, read, -⟩ :=
    always [piece 2 [], piece 97 [], piece 98 []] 2 [97, 98] [] (fun _ => 0) calm rfl rfl
  have byte := read 1 (by decide)
  cases fuel with
  | zero => cases returns
  | succ fuel =>
    cases fuel with
    | zero => cases returns
    | succ fuel =>
      cases fuel with
      | zero => cases returns
      | succ fuel =>
        cases returns
        exact absurd byte (by decide)

/-! ## Streams that end -/

/-- Fewer bytes arrive than the length byte and the string it announces. -/
def Short (stream : List Arrival) : Prop :=
  ∀ len string, bytesOf stream = len :: string → string.length < len.toNat

/-- The function returns, and with −1 if too few bytes arrive, exactly when the length byte is not
read from a stream that is too short. -/
theorem readString_returns_iff (calm : Calm stream) (dst : Buffer) :
    (∃ fuel result dst' rest, readString fuel dst stream = some (result, dst', rest) ∧
      (Short stream → result = -1)) ↔
      ¬ ((∃ bytes rest, stream = .chunk bytes :: rest) ∧ Short stream) := by
  cases stream with
  | nil =>
    refine iff_of_true ⟨0, -1, dst, [], rfl, fun _ => rfl⟩ ?_
    rintro ⟨⟨bytes, rest, same⟩, -⟩
    cases same
  | cons arrival others =>
    cases arrival with
    | failure errno =>
      refine iff_of_true ⟨0, -1, dst, others, rfl, fun _ => rfl⟩ ?_
      rintro ⟨⟨bytes, rest, same⟩, -⟩
      cases same
    | chunk bytes =>
      obtain ⟨len, string, delivered⟩ : ∃ len string,
          bytesOf (.chunk bytes :: others) = len :: string := by
        obtain ⟨len, tail, starts⟩ := List.exists_cons_of_ne_nil bytes.property
        refine ⟨len, tail ++ bytesOf others, ?_⟩
        rw [bytesOf, starts]
        rfl
      obtain ⟨left, reads, bytesLeft, calmLeft⟩ := read_length delivered calm
      have runs : ∀ fuel, readString fuel dst (.chunk bytes :: others) =
          readLoop fuel (Function.update dst len.toFin 0) len left := by
        intro fuel
        unfold readString
        rw [reads]
      constructor
      · rintro ⟨fuel, result, dst', rest, returns, -⟩ ⟨-, short⟩
        have few := short len string delivered
        rw [runs, readLoop_stuck calmLeft (by rw [bytesLeft]; exact few)] at returns
        cases returns
      · intro either
        have enough : ¬ Short (.chunk bytes :: others) := fun short =>
          either ⟨⟨bytes, others, rfl⟩, short⟩
        have many : len.toNat ≤ (bytesOf left).length := by
          by_contra few
          refine enough fun len' string' delivered' => ?_
          rw [delivered] at delivered'
          cases delivered'
          rw [bytesLeft] at few
          omega
        obtain ⟨fuel, dst', rest, returns, -⟩ := @readLoop_returns left _ len calmLeft many
        exact ⟨fuel, 0, dst', rest, (runs fuel).trans returns, fun short => absurd short enough⟩

/-- The string ab in two pieces after an interruption. -/
theorem readString_returns_iff_pieces : ∃ fuel result dst' rest,
    readString fuel (fun _ => 0) [piece 2 [], .failure .eintr, piece 97 [], piece 98 []] =
        some (result, dst', rest) ∧
      (Short [piece 2 [], .failure .eintr, piece 97 [], piece 98 []] → result = -1) := by
  refine (readString_returns_iff (fun errno member => ?_) _).mpr fun stuck => ?_
  · simp [piece] at member
    exact Or.inl member
  · exact absurd (stuck.2 2 [97, 98] rfl) (by decide)

/-- A client that hangs up after the length byte is waited for forever. -/
theorem hung_up_forever :
    ¬ ∀ (stream : List Arrival) (dst : Buffer), Calm stream →
      ∃ fuel result dst' rest, readString fuel dst stream = some (result, dst', rest) ∧
        (Short stream → result = -1) := by
  intro always
  have calm : Calm [piece 1 []] := by
    intro errno member
    simp [piece] at member
  obtain ⟨fuel, result, dst', rest, returns, -⟩ := always [piece 1 []] (fun _ => 0) calm
  have stuck : readLoop fuel (Function.update (fun _ => 0) 1 0) 1 [] = none :=
    readLoop_stuck (fun _ member => absurd member List.not_mem_nil) (by decide)
  exact Option.some_ne_none _ (returns.symm.trans stuck)

end Chessh.Frontends
