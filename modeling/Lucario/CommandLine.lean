import Lucario.Stdio
import Lucario.Word

namespace Lucario

/-! A `char` array is the list of all its characters, and a pointer into it a position. -/

def charAt (array : List Char) (p : Nat) : Char := array.getD p '\x00'

/-- The C string at a position. -/
def stringAt (array : List Char) (p : Nat) : List Char := cString (array.drop p)

/-- The loop of `trimWhitespace` over the blanks in front; the first argument bounds the rounds
by the length of the array. -/
def skipBlanks : Nat → List Char → Nat → Nat
  | 0, _, source => source
  | rounds + 1, string, source =>
    if charAt string source ≠ '\x00' ∧ isspace (charAt string source) then
      skipBlanks rounds string (source + 1)
    else source

/-- The loop of `trimWhitespace` that moves the words to the front of the string it reads. -/
def moveWords : Nat → Bool → Nat → Nat → List Char → Nat × List Char
  | 0, _, _, destiny, string => (destiny, string)
  | rounds + 1, inWord, source, destiny, string =>
    if charAt string source = '\x00' then (destiny, string)
    else if isspace (charAt string source) then
      if inWord then moveWords rounds false (source + 1) (destiny + 1) (string.set destiny ' ')
      else moveWords rounds false (source + 1) destiny string
    else
      moveWords rounds true (source + 1) (destiny + 1) (string.set destiny (charAt string source))

def trimWhitespace (string : List Char) : List Char :=
  let source := skipBlanks string.length string 0
  let (destiny, string) := moveWords string.length false source 0 string
  let destiny :=
    if 0 < destiny ∧ isspace (charAt string (destiny - 1)) then destiny - 1 else destiny
  string.set destiny '\x00'

/-- An array that `strtok` cuts up, and the position it has kept. -/
structure Tokenizer where
  array : List Char
  position : Nat

/-- The separators `" \t"`. -/
def isSeparator (c : Char) : Bool := c = ' ' || c = '\t'

/-- `strtok`: the next token, closed with a null in the place of the separator behind it. -/
def strtok (t : Tokenizer) : Option Nat × Tokenizer :=
  let token := t.position + ((stringAt t.array t.position).takeWhile isSeparator).length
  if charAt t.array token = '\x00' then (none, ⟨t.array, token⟩)
  else
    let stop := token + ((stringAt t.array token).takeWhile (fun c => ! isSeparator c)).length
    if charAt t.array stop = '\x00' then (some token, ⟨t.array, stop⟩)
    else (some token, ⟨t.array.set stop '\x00', stop + 1⟩)

/-- `CommandStatus_t`. -/
inductive CommandStatus where
  | success | empty | unknown | missingArgs | loadError | runtimeError | tooManyArgs
  deriving DecidableEq, Repr

/-- What `parseInput` writes: the line, the command as a string, and the arguments as positions
in the line. -/
structure CommandLine where
  input : List Char
  command : List Char
  args : Nat → Option Nat
  argCount : Nat

/-- The token loop of `parseInput`, with room for so many more arguments. -/
def parseArguments : Nat → Option Nat → Tokenizer → (Nat → Option Nat) → Nat →
    Tokenizer × (Nat → Option Nat) × Nat
  | room + 1, some token, t, args, argCount =>
    let (next, t) := strtok t
    parseArguments room next t (Function.update args argCount (some token)) (argCount + 1)
  | _, _, t, args, argCount => (t, args, argCount)

def parseInput (input : List Char) (args : Nat → Option Nat) : CommandStatus × CommandLine :=
  let newline := ((cString input).takeWhile (fun c => c ≠ '\n')).length
  let input := trimWhitespace (input.set newline '\x00')
  if (cString input).length = 0 then (.empty, ⟨input, [], args, 0⟩)
  else
    match strtok ⟨input, 0⟩ with
    | (none, t) => (.empty, ⟨t.array, [], args, 0⟩)
    | (some token, t) =>
      let command := (stringAt t.array token).take 19
      let (next, t) := strtok t
      let (t, args, argCount) := parseArguments (maxProcesses * 2) next t args 0
      (.success, ⟨t.array, command, args, argCount⟩)

end Lucario
