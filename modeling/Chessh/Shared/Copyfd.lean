import Mathlib.Tactic

/-!
# Descriptors over a socket

`copyfd.c` on 64-bit Linux, where a control message starts with a header of 16 bytes. A descriptor
is an `int`. The kernel delivers a message as it was sent, with descriptors of the receiver in place
of those of the sender.
-/

namespace Chessh.Shared

/-- A `size_t`. -/
def sizeT (n : Nat) : Nat := n % 2 ^ 64

/-- The conversion of a `size_t` to an `int`. -/
def toInt (n : Nat) : Int := Int.bmod n (2 ^ 32)

/-- `CMSG_ALIGN`. -/
def cmsgAlign (len : Nat) : Nat := sizeT (len + 7) / 8 * 8

/-- `sizeof(struct cmsghdr)`. -/
def sizeofCmsghdr : Nat := 16

/-- `CMSG_SPACE`. -/
def cmsgSpace (len : Nat) : Nat := sizeT (cmsgAlign len + cmsgAlign sizeofCmsghdr)

/-- `CMSG_LEN`. -/
def cmsgLen (len : Nat) : Nat := sizeT (cmsgAlign sizeofCmsghdr + len)

/-- `sizeof(int)`. -/
def sizeofInt : Nat := 4

/-- `SOL_SOCKET`. -/
def solSocket : Nat := 1

/-- `SCM_RIGHTS`. -/
def scmRights : Nat := 1

/-- `struct cmsghdr`, with the descriptors behind it. -/
structure Cmsg where
  cmsgLen : Nat
  cmsgLevel : Nat
  cmsgType : Nat
  /-- What `CMSG_DATA` points to. -/
  data : List Int
  deriving DecidableEq, Repr

/-- What `sendmsg` is given. -/
structure Message where
  /-- The bytes of the one `struct iovec`. -/
  payload : List UInt8
  control : Cmsg
  /-- `msg_controllen`. -/
  controlLen : Nat
  deriving DecidableEq, Repr

/-- The message of `sendfds`; `data` may be `NULL`, and then `iobuf` is sent. -/
def sendfds (iobuf : UInt8) (fds : List Int) (data : Option (List UInt8)) : Message where
  payload := data.getD [iobuf]
  control :=
    { cmsgLen := cmsgLen (fds.length * sizeofInt)
      cmsgLevel := solSocket
      cmsgType := scmRights
      data := fds }
  controlLen := cmsgAlign (cmsgSpace (fds.length * sizeofInt))

/-- `recvmsg` with room for `len` bytes and `controlLen` bytes of control data. What the kernel does
with control data for which there is no room is left out: the call then counts as failed. -/
def recvmsg (install : Int → Int) (sent : Message) (len controlLen : Nat) :
    Option (List UInt8 × Cmsg) :=
  if sent.control.cmsgLen ≤ sent.controlLen ∧ sent.control.cmsgLen ≤ controlLen then
    some (sent.payload.take len, { sent.control with data := sent.control.data.map install })
  else none

/-- What a call of `recvfds` leaves. -/
structure Received where
  result : Int
  /-- The array `fds`. -/
  fds : List Int
  /-- The bytes stored. -/
  data : List UInt8
  /-- `*received_data`, if it is set. -/
  receivedData : Option Nat
  deriving DecidableEq, Repr

/-- `recvfds`, where `fdcount` is the length of the array. `len` is none for `data == NULL`; `stale`
is what the buffer for the control data holds behind the header. -/
def recvfds (install : Int → Int) (stale : Nat → Int) (fds : List Int) (len : Option Nat)
    (sent : Message) : Received :=
  let fdcount := fds.length
  let len := len.getD 1
  match recvmsg install sent len (cmsgAlign (cmsgSpace (fdcount * sizeofInt))) with
  | none => ⟨-1, fds, [], none⟩
  | some (payload, cmsg) =>
    let nr := payload.length
    if cmsg.cmsgLen < cmsgLen len ∨ cmsg.cmsgLevel ≠ solSocket ∨ cmsg.cmsgType ≠ scmRights then
      ⟨-1, fds, payload, some nr⟩
    else
      let copied := (List.range fdcount).map fun i => cmsg.data.getD i (stale i)
      ⟨toInt (cmsg.cmsgLen / sizeofInt), copied, payload, some nr⟩

end Chessh.Shared
