import Mathlib.Tactic

/-!
# Options of a command line

What `getopt` of the C library finds, call after call, until it returns −1. The words of a command
line are scanned from left to right. A word that is no option is passed over, as the GNU library
does by moving it to the end. What is found of settings that are written out one by one are these
settings, whatever bytes their arguments are made of: `scan_words`.
-/

namespace Getopt

/-- The dash before options. -/
def dash : UInt8 := 45

/-- The colon in an option string, behind an option that takes an argument. -/
def colon : UInt8 := 58

/-- The semicolon, which is no option. -/
def semicolon : UInt8 := 59

/-- What an option takes. -/
inductive Takes
  | nothing
  | argument
  deriving DecidableEq, Repr

/-- What the option string says of a character. -/
def lookup (optstring : List UInt8) (c : UInt8) : Option Takes :=
  if c = colon ∨ c = semicolon then none
  else
    match optstring.dropWhile (· ≠ c) with
    | [] => none
    | [_] => some .nothing
    | _ :: next :: _ => if next = colon then some .argument else some .nothing

/-- What a call returns. -/
inductive Found
  /-- An option, and `optarg` behind it. -/
  | option (c : UInt8) (optarg : Option (List UInt8))
  /-- The question mark: no such option, or its argument is missing. -/
  | unknown
  deriving DecidableEq, Repr

/-- The options of a word, and the last of them if it takes the next word. -/
def cluster (optstring : List UInt8) : List UInt8 → List Found × Option UInt8
  | [] => ([], none)
  | c :: rest =>
    match lookup optstring c with
    | some .argument => if rest = [] then ([], some c) else ([.option c (some rest)], none)
    | some .nothing => (.option c none :: (cluster optstring rest).1, (cluster optstring rest).2)
    | none => (.unknown :: (cluster optstring rest).1, (cluster optstring rest).2)

/-- The words behind an option that takes the next word, or behind no such option. -/
def scan (optstring : List UInt8) : Option UInt8 → List (List UInt8) → List Found
  | some c, word :: rest => .option c (some word) :: scan optstring none rest
  | some _, [] => [.unknown]
  | none, [] => []
  | none, word :: rest =>
    if word = [dash, dash] then []
    else if word.head? = some dash ∧ word.tail ≠ [] then
      (cluster optstring word.tail).1 ++ scan optstring (cluster optstring word.tail).2 rest
    else scan optstring none rest

/-! ## Settings -/

/-- An option as it is meant. -/
inductive Setting
  | flag (c : UInt8)
  | value (c : UInt8) (optarg : List UInt8)

namespace Setting

/-- The words for it. -/
def words : Setting → List (List UInt8)
  | flag c => [[dash, c]]
  | value c optarg => [[dash, c], optarg]

/-- What is found of it. -/
def found : Setting → Found
  | flag c => .option c none
  | value c optarg => .option c (some optarg)

/-- The option string has the option, which is not a dash itself. -/
def Fits (optstring : List UInt8) : Setting → Prop
  | flag c => lookup optstring c = some .nothing ∧ c ≠ dash
  | value c _ => lookup optstring c = some .argument ∧ c ≠ dash

instance (optstring : List UInt8) : (s : Setting) → Decidable (s.Fits optstring)
  | flag c => inferInstanceAs (Decidable (lookup optstring c = some .nothing ∧ c ≠ dash))
  | value c _ => inferInstanceAs (Decidable (lookup optstring c = some .argument ∧ c ≠ dash))

end Setting

section Words

variable {optstring : List UInt8} {c : UInt8}

/-- A word of one option. -/
theorem scan_single (differs : c ≠ dash) (rest : List (List UInt8)) :
    scan optstring none ([dash, c] :: rest) =
      (cluster optstring [c]).1 ++ scan optstring (cluster optstring [c]).2 rest := by
  have word : [dash, c] ≠ [dash, dash] := by simpa using differs
  rw [scan, if_neg word, if_pos ⟨rfl, List.cons_ne_nil _ _⟩]
  rfl

/-- One setting is found, whatever comes behind it. -/
theorem Setting.Fits.scan {s : Setting} (fits : s.Fits optstring) (rest : List (List UInt8)) :
    Getopt.scan optstring none (s.words ++ rest) = s.found :: Getopt.scan optstring none rest := by
  cases s with
  | flag c =>
    obtain ⟨known, differs⟩ := fits
    have alone : cluster optstring [c] = ([.option c none], none) := by
      rw [cluster, known]
      rfl
    rw [Setting.words, List.singleton_append, scan_single differs, alone]
    rfl
  | value c optarg =>
    obtain ⟨known, differs⟩ := fits
    have awaits : cluster optstring [c] = ([], some c) := by
      rw [cluster, known]
      rfl
    rw [Setting.words, List.cons_append, scan_single differs, awaits]
    rfl

/-- What is found of settings are the settings. -/
theorem scan_words {settings : List Setting} (fits : ∀ s ∈ settings, s.Fits optstring) :
    scan optstring none (settings.flatMap Setting.words) = settings.map Setting.found := by
  induction settings with
  | nil => rfl
  | cons s rest ih =>
    obtain ⟨first, others⟩ := List.forall_mem_cons.mp fits
    rw [List.flatMap_cons, first.scan, ih others, List.map_cons]

end Words

end Getopt
