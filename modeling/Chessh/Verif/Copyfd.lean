import Chessh.Shared.Copyfd

/-!
# What `recvfds` returns

The length of a control message counts its header, and `recvfds` divides all of it by the size of a
descriptor: it returns four more than the descriptors it has received. It also compares that length
with the length of the payload.
-/

namespace Chessh.Shared

/-- A `size_t` that fits. -/
theorem sizeT_eq {n : Nat} (small : n < 2 ^ 64) : sizeT n = n := Nat.mod_eq_of_lt small

/-- Four more is another number, also once it has become an `int`. -/
theorem toInt_add_four (n : Nat) : toInt (n + 4) ≠ n := by
  intro same
  have wrapped : Int.bmod ((n + 4 : Nat) : Int) (2 ^ 32) % ((2 ^ 32 : Nat) : Int) =
      ((n + 4 : Nat) : Int) % ((2 ^ 32 : Nat) : Int) := Int.bmod_emod
  unfold toInt at same
  rw [same] at wrapped
  omega

/-- The length of a control message with some descriptors. -/
theorem cmsgLen_descriptors {n : Nat} (count : n < 2 ^ 31) :
    cmsgLen (n * sizeofInt) = 16 + n * 4 := by
  have header : cmsgAlign sizeofCmsghdr = 16 := rfl
  rw [cmsgLen, header, sizeofInt, sizeT_eq (by omega)]

/-- The buffer has room for the header and the descriptors. -/
theorem cmsgLen_le_buffer {m n : Nat} (room : m ≤ n) (count : n < 2 ^ 31) :
    cmsgLen (m * sizeofInt) ≤ cmsgAlign (cmsgSpace (n * sizeofInt)) := by
  have header : cmsgAlign sizeofCmsghdr = 16 := rfl
  rw [cmsgLen_descriptors (by omega), cmsgSpace, header, sizeofInt]
  have inner : cmsgAlign (n * 4) = (n * 4 + 7) / 8 * 8 := by rw [cmsgAlign, sizeT_eq (by omega)]
  rw [inner, sizeT_eq (by omega), cmsgAlign, sizeT_eq (by omega)]
  omega

section Exchange

variable (install : Int → Int) (stale : Nat → Int) (iobuf : UInt8) {fds memory : List Int}
  (data : List UInt8)

/-- What is left of the array when not all of it is sent: what the control buffer held. -/
def copied (fds memory : List Int) : List Int :=
  (List.range memory.length).map fun i => (fds.map install).getD i (stale i)

/-- One call of `sendfds` and one of `recvfds`, with the same length of payload. -/
theorem recvfds_eq (room : fds.length ≤ memory.length) (count : memory.length < 2 ^ 31) :
    recvfds install stale memory (some data.length) (sendfds iobuf fds (some data)) =
      if 16 + fds.length * 4 < cmsgLen data.length then ⟨-1, memory, data, some data.length⟩
      else ⟨toInt (fds.length + 4), copied install stale fds memory, data, some data.length⟩ := by
  have few : fds.length < 2 ^ 31 := by omega
  have delivered : recvmsg install (sendfds iobuf fds (some data)) data.length
      (cmsgAlign (cmsgSpace (memory.length * sizeofInt))) =
        some (data, ⟨cmsgLen (fds.length * sizeofInt), solSocket, scmRights, fds.map install⟩) := by
    have fits : (sendfds iobuf fds (some data)).control.cmsgLen ≤
          (sendfds iobuf fds (some data)).controlLen ∧
        (sendfds iobuf fds (some data)).control.cmsgLen ≤
          cmsgAlign (cmsgSpace (memory.length * sizeofInt)) :=
      ⟨cmsgLen_le_buffer le_rfl few, cmsgLen_le_buffer room count⟩
    rw [recvmsg, if_pos fits]
    change some (data.take data.length, _) = _
    rw [List.take_length]
    rfl
  have counted : (16 + fds.length * 4) / sizeofInt = fds.length + 4 := by
    unfold sizeofInt
    omega
  unfold recvfds
  rw [Option.getD_some]
  dsimp only
  rw [delivered]
  dsimp only
  rw [cmsgLen_descriptors few, counted]
  simp only [ne_eq, not_true_eq_false, or_false]
  rfl

/-- What the header promises of such an exchange: the array starts with the descriptors and is else
as it was, and their number is returned. -/
structure RoundTrip (fds memory : List Int) (data : List UInt8) (received : Received) : Prop where
  number : received.result = fds.length
  array : received.fds = fds.map install ++ memory.drop fds.length
  payload : received.data = data
  size : received.receivedData = some data.length

/-- The number of descriptors is never returned. With a payload longer than the descriptors,
`recvfds` fails and leaves the array; else it returns four more than it has received, and the whole
array is written, behind the descriptors with what the control buffer held. The payload arrives in
both cases. -/
theorem recvfds_never (room : fds.length ≤ memory.length) (count : memory.length < 2 ^ 31) :
    ¬ RoundTrip install fds memory data
        (recvfds install stale memory (some data.length) (sendfds iobuf fds (some data))) ∧
      (data.length < 2 ^ 63 →
        recvfds install stale memory (some data.length) (sendfds iobuf fds (some data)) =
          if fds.length * 4 < data.length then ⟨-1, memory, data, some data.length⟩
          else ⟨toInt (fds.length + 4), copied install stale fds memory, data,
            some data.length⟩) := by
  have exchange := recvfds_eq install stale iobuf data room count
  constructor
  · intro trip
    have result := trip.number
    rw [exchange] at result
    split at result
    · have failed : (-1 : Int) = fds.length := result
      omega
    · dsimp only at result
      exact toInt_add_four fds.length result
  · intro small
    have header : cmsgAlign sizeofCmsghdr = 16 := rfl
    have payload : cmsgLen data.length = 16 + data.length := by
      rw [cmsgLen, header, sizeT_eq (by omega)]
    rw [exchange, payload]
    simp only [Nat.add_lt_add_iff_left]

end Exchange

/-- What a client is sent when its game starts: two descriptors and an identifier. -/
theorem recvfds_never_start :
    ¬ RoundTrip id [3, 4] [0, 0] [1, 0, 0, 0]
        (recvfds id (fun _ => 0) [0, 0] (some 4) (sendfds 0 [3, 4] (some [1, 0, 0, 0]))) ∧
      (4 < 2 ^ 63 →
        recvfds id (fun _ => 0) [0, 0] (some 4) (sendfds 0 [3, 4] (some [1, 0, 0, 0])) =
          if 2 * 4 < 4 then ⟨-1, [0, 0], [1, 0, 0, 0], some 4⟩
          else ⟨toInt 6, copied id (fun _ => 0) [3, 4] [0, 0], [1, 0, 0, 0], some 4⟩) :=
  recvfds_never id (fun _ => 0) 0 [1, 0, 0, 0] (by decide) (by decide)

/-- Two descriptors are counted as six. Of two that are awaited one may be sent, and then it is
counted as five and the second element of the array is written. -/
theorem two_counted_six :
    (recvfds id (fun _ => 0) [0, 0] (some 4) (sendfds 0 [3, 4] (some [1, 0, 0, 0]))).result = 6 ∧
      ¬ RoundTrip id [3, 4] [0, 0] [1, 0, 0, 0]
        (recvfds id (fun _ => 0) [0, 0] (some 4) (sendfds 0 [3, 4] (some [1, 0, 0, 0]))) ∧
      recvfds id (fun _ => 9) [0, 0] (some 4) (sendfds 0 [3] (some [1, 0, 0, 0])) =
        ⟨5, [3, 9], [1, 0, 0, 0], some 4⟩ := by
  have six : (recvfds id (fun _ => 0) [0, 0] (some 4)
      (sendfds 0 [3, 4] (some [1, 0, 0, 0]))).result = 6 := by decide
  refine ⟨six, fun trip => ?_, by decide⟩
  rw [trip.number] at six
  exact absurd six (by decide)

end Chessh.Shared
