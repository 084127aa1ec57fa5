import Mathlib.Tactic

/-!
# What both programs start with

The client and the daemon read their options alike, in `main.c`, and name the socket at which they
meet alike, in `main.c` and `sock.c`. A text is what stands before its terminator.
-/

namespace Chessh.Shared

/-- Why `parse_args` exits, behind what it prints. -/
inductive Quit
  /-- `-h`. -/
  | help
  /-- `-l`. -/
  | legal
  /-- An option it does not know. -/
  | unknown
  /-- A required argument is missing. -/
  | missing
  deriving DecidableEq, Repr

/-- The status it exits with. -/
def Quit.status : Quit → Int
  | help | legal => 0
  | unknown | missing => 1

/-- `sizeof sock_path`. -/
def sizeofSockPath : Nat := 4096

/-- `sizeof addr.sun_path`. -/
def sizeofSunPath : Nat := 108

/-- `"/matchmaker"`. -/
def matchmaker : List UInt8 := [47, 109, 97, 116, 99, 104, 109, 97, 107, 101, 114]

/-- `sock_path`, which `snprintf` cuts off where the array ends. -/
def sockPath (dir : List UInt8) : List UInt8 := (dir ++ matchmaker).take (sizeofSockPath - 1)

/-- `addr.sun_path`: `strncpy` fills up with zeros, and the last byte is a terminator. -/
def sunPath (path : List UInt8) : List UInt8 :=
  (path ++ List.replicate sizeofSunPath 0).take (sizeofSunPath - 1) ++ [0]

end Chessh.Shared
