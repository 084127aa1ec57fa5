import Mathlib.Tactic

/-!
# Strings from a socket

`read_string` of `frontends/api.c`. What arrives on a socket is a list of chunks and of failures of
`read`, and when the list is at its end so is the stream: `read` returns 0 from then on. A read
takes what it asks for from the chunk that is next and leaves the rest of the chunk. The loop of
`read_string` runs on fuel; `none` is a run that needs more.
-/

namespace Chessh.Frontends

/-- `errno` after a failed `read`. -/
inductive Errno
  | eintr
  | eagain
  | other (code : Nat)
  deriving DecidableEq, Repr

/-- What `read` meets next. -/
inductive Arrival
  /-- Bytes that have come together. -/
  | chunk (bytes : { bytes : List UInt8 // bytes ≠ [] })
  /-- A failure. -/
  | failure (errno : Errno)
  deriving DecidableEq

/-- What `read` returns: the bytes it stores, none of them at the end of the stream, or −1. -/
inductive ThisRead
  | got (bytes : List UInt8)
  | failed (errno : Errno)
  deriving DecidableEq

/-- `read(fd, dst, n)` for positive `n`, and what is left of the stream. -/
def read (n : Nat) : List Arrival → ThisRead × List Arrival
  | [] => (.got [], [])
  | .failure errno :: rest => (.failed errno, rest)
  | .chunk bytes :: rest =>
    if left : bytes.val.drop n ≠ [] then
      (.got (bytes.val.take n), .chunk ⟨bytes.val.drop n, left⟩ :: rest)
    else (.got bytes.val, rest)

/-- `char user[256]`. -/
abbrev Buffer := Fin 256 → UInt8

/-- What `read` leaves in the buffer: it stores from the start. -/
def stored (dst : Buffer) (bytes : List UInt8) : Buffer := fun i => bytes.getD i (dst i)

/-- The loop of `read_string`. -/
def readLoop : Nat → Buffer → UInt8 → List Arrival → Option (Int × Buffer × List Arrival)
  | 0, _, _, _ => none
  | fuel + 1, dst, len, stream =>
    if len > 0 then
      match read len.toNat stream with
      | (.failed errno, rest) =>
        if errno ≠ .eintr ∧ errno ≠ .eagain then some (-1, dst, rest)
        else readLoop fuel dst len rest
      | (.got bytes, rest) => readLoop fuel (stored dst bytes) (len - UInt8.ofNat bytes.length) rest
    else some (0, dst, stream)

/-- `read_string`. -/
def readString (fuel : Nat) (dst : Buffer) (stream : List Arrival) :
    Option (Int × Buffer × List Arrival) :=
  match read 1 stream with
  | (.got (len :: _), rest) => readLoop fuel (Function.update dst len.toFin 0) len rest
  | (.got [], rest) | (.failed _, rest) => some (-1, dst, rest)

/-- The bytes that arrive. -/
def bytesOf : List Arrival → List UInt8
  | [] => []
  | .chunk bytes :: rest => bytes.val ++ bytesOf rest
  | .failure _ :: rest => bytesOf rest

/-- No failure but EINTR and EAGAIN. -/
def Calm (stream : List Arrival) : Prop :=
  ∀ errno, .failure errno ∈ stream → errno = .eintr ∨ errno = .eagain

end Chessh.Frontends
