import Chessh.Shared.Copyfd

/-!
# Waiting for an opponent

The start of `run_client`, in `runner.c`: the loop in which a client is sent its pipes and its
number. An attempt is one call of `recvfds`, which is given the array as the attempts before have
left it. A client that no attempt has settled still waits.
-/

namespace Chessh

open Shared

/-- `EINTR`. -/
def eintr : Nat := 4

/-- `EAGAIN`. -/
def eagain : Nat := 11

/-- The bytes of an `int`, the lowest first. -/
def bytesOfInt (i : Int) : List UInt8 :=
  let n := (i % 2 ^ 32).toNat
  [UInt8.ofNat n, UInt8.ofNat (n / 2 ^ 8), UInt8.ofNat (n / 2 ^ 16), UInt8.ofNat (n / 2 ^ 24)]

/-- The `int` that bytes make. -/
def intOfBytes (bytes : List UInt8) : Int := toInt (Nat.ofDigits (2 ^ 8) (bytes.map UInt8.toNat))

/-- A call of `recvfds`. -/
structure Attempt where
  /-- What it makes of the array. -/
  recvfds : List Int → Received
  /-- `errno` after it. -/
  errno : Nat

/-- How the loop ends. -/
inductive Start
  /-- `return 1`. -/
  | failed
  | started (fds : List Int) (pid : Int)
  deriving DecidableEq, Repr

/-- The loop of `run_client` up to its `break`. `pidlen` is set where `recvfds` has not failed. -/
def awaitStart (fds : List Int) : List Attempt → Option Start
  | [] => none
  | attempt :: rest =>
    let received := attempt.recvfds fds
    let pidlen := received.receivedData.getD 0
    if received.result < 2 ∨ pidlen < sizeofInt then
      if attempt.errno = eintr ∨ attempt.errno = eagain then awaitStart received.fds rest
      else some .failed
    else some (.started received.fds (intOfBytes received.data))

/-- The attempt that gets what `sendfds` has sent. -/
def Attempt.gets (install : Int → Int) (stale : Nat → Int) (sent : Message)
    (errno : Nat) : Attempt :=
  ⟨fun fds => Shared.recvfds install stale fds (some sizeofInt) sent, errno⟩

/-- The call is interrupted. -/
structure Attempt.Interrupted (attempt : Attempt) : Prop where
  failed : ∀ fds, (attempt.recvfds fds).result < 2
  array : ∀ fds, (attempt.recvfds fds).fds.length = fds.length
  errno : attempt.errno = eintr ∨ attempt.errno = eagain

/-- The bytes of an `int` make it. -/
theorem intOfBytes_bytesOfInt {i : Int} (low : -2 ^ 31 ≤ i) (high : i < 2 ^ 31) :
    intOfBytes (bytesOfInt i) = i := by
  have digits : Nat.ofDigits (2 ^ 8) ((bytesOfInt i).map UInt8.toNat) = (i % 2 ^ 32).toNat := by
    simp only [bytesOfInt, List.map_cons, List.map_nil, Nat.ofDigits_cons, Nat.ofDigits_nil,
      UInt8.toNat_ofNat']
    omega
  unfold intOfBytes toInt
  rw [digits, Int.toNat_of_nonneg (Int.emod_nonneg _ (by norm_num)), Int.bmod_def]
  split <;> omega

/-- Interrupted calls are made again. -/
theorem awaitStart_interrupted {interrupted : List Attempt}
    (again : ∀ attempt ∈ interrupted, attempt.Interrupted) (rest : List Attempt) (fds : List Int) :
    ∃ fds', fds'.length = fds.length ∧
      awaitStart fds (interrupted ++ rest) = awaitStart fds' rest := by
  induction interrupted generalizing fds with
  | nil => exact ⟨fds, rfl, rfl⟩
  | cons attempt more ih =>
    obtain ⟨first, later⟩ := List.forall_mem_cons.mp again
    obtain ⟨fds', size, same⟩ := ih later (attempt.recvfds fds).fds
    refine ⟨fds', size.trans (first.array fds), ?_⟩
    rw [List.cons_append, awaitStart, if_pos (Or.inl (first.failed fds)), if_pos first.errno, same]

end Chessh
