import Mathlib.Data.List.Basic

namespace Lucario

/-! C strings and open text files are lists of characters, a `Char` for each C `char`; a file is what
remains to be read. -/

/-- `isspace` in the C locale. -/
def isspace (c : Char) : Bool :=
  c = ' ' || c = '\t' || c = '\n' || c = '\x0b' || c = '\x0c' || c = '\r'

def isDigit (c : Char) : Bool := '0' ≤ c && c ≤ '9'

def digitsValue (digits : List Char) : Int :=
  digits.foldl (fun (n : Int) c => 10 * n + (c.toNat - '0'.toNat : Nat)) 0

/-- The `%s` conversion: a run of non-blank characters after blanks. -/
def scanToken (file : List Char) : Option (List Char) × List Char :=
  match (file.dropWhile isspace).span (fun c => ! isspace c) with
  | ([], rest) => (none, rest)
  | (token, rest) => (some token, rest)

def scanDigits (sign : Int) (file : List Char) : Option Int × List Char :=
  match file.span isDigit with
  | ([], rest) => (none, rest)
  | (digits, rest) => (some (sign * digitsValue digits), rest)

/-- The `%d` conversion: an optionally signed run of digits after blanks. C leaves open what becomes
of a number beyond `int`; here it stays as it is. -/
def scanInt (file : List Char) : Option Int × List Char :=
  match file.dropWhile isspace with
  | '-' :: rest => scanDigits (-1) rest
  | '+' :: rest => scanDigits 1 rest
  | rest => scanDigits 1 rest

/-- `fscanf(file, "%*s %d", &target)`. -/
def scanLabelledInt (file : List Char) : Option Int × List Char :=
  match scanToken file with
  | (none, rest) => (none, rest)
  | (some _, rest) => scanInt rest

/-- `fscanf(file, "%*s %s", target)`. -/
def scanLabelledToken (file : List Char) : Option (List Char) × List Char :=
  match scanToken file with
  | (none, rest) => (none, rest)
  | (some _, rest) => scanToken rest

/-- `fgets` with a buffer of `room + 1` characters: a line up to and including its newline, or
the first `room` characters of a longer one. -/
def fgets : Nat → List Char → List Char × List Char
  | 0, file => ([], file)
  | _ + 1, [] => ([], [])
  | room + 1, c :: file =>
    if c = '\n' then ([c], file)
    else
      let (line, rest) := fgets room file
      (c :: line, rest)

/-- The text in front of the first `//`. -/
def cutComment : List Char → List Char
  | [] => []
  | '/' :: '/' :: _ => []
  | c :: line => c :: cutComment line

/-- What C string functions see of a buffer: everything up to its first null. -/
def cString (buffer : List Char) : List Char := buffer.takeWhile (fun c => c ≠ '\x00')

/-- `strncpy` of at most 255 characters, closed with a null. -/
def strncpy255 (source : List Char) : List Char := source.take 255

/-- `%d`. -/
def showInt (n : Int) : List Char :=
  if n < 0 then '-' :: Nat.toDigits 10 n.natAbs else Nat.toDigits 10 n.natAbs

/-- `%02d`. -/
def showInt2 (n : Int) : List Char :=
  let digits := showInt n
  if digits.length < 2 then '0' :: digits else digits

/-- `snprintf` into a buffer of 256 characters. -/
def snprintf256 (text : List Char) : List Char := text.take 255

end Lucario
