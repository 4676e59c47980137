import Mathlib.Data.Int.Notation
import Mathlib.Data.Nat.Notation

/-! `shell_execute_command` of `shell.c`. The command line is a string in a buffer with room
for one more character; the passes over it are functions of its characters. Behind a pointer
that walks over the line, only the part from the pointer on is worked on, so that part is the
argument. `char` is a signed type. -/
namespace EmbeddedTemplate.Shell

def tab : UInt8 := 9
def lineFeed : UInt8 := 10
def carriageReturn : UInt8 := 13
def space : UInt8 := 32
def quotation : UInt8 := 34
def apostrophe : UInt8 := 39

/-- `SHELL_ALT_SPACE` -/
def altSpace : UInt8 := 7

/-- `SHELL_MAX_ARGS` -/
def maxArgs : ℕ := 10

/-- `struct shell_command` without its help texts. The handler is called with `argc` and
`argv`. -/
structure Command where
  cmd : List UInt8
  handler : ℕ → List (List UInt8) → ℤ

/-- What a call returns, and the handler call it has made. -/
structure Result where
  ret : Int8
  called : Option (List UInt8 × ℕ × List (List UInt8))

def executeCommandInCommands (cmds : List Command) (argc : ℕ) (argv : List (List UInt8)) : Result :=
  match cmds.find? fun c => c.cmd == argv.headD [] with
  | some c => ⟨Int8.ofInt (c.handler argc argv), some (c.cmd, argc, argv)⟩
  | none => ⟨-128, none⟩

/-- `strcat(cmd, "\n")` unless the line ends with one. -/
def terminate (cmd : List UInt8) : List UInt8 :=
  if cmd.getLast? ≠ some lineFeed then cmd ++ [lineFeed] else cmd

def blank (c : UInt8) : UInt8 :=
  if c = carriageReturn ∨ c = lineFeed ∨ c = tab then space else c

/-- The second pass from position `i` on: spaces inside quotes become `SHELL_ALT_SPACE`. With
the line, it gives `inside_quotes` at its end. -/
def markLoop : List UInt8 → Bool → UInt8 → List UInt8 × Bool
  | [], insideQuotes, _ => ([], insideQuotes)
  | c :: cs, insideQuotes, quoteChar =>
    if c = apostrophe ∨ c = quotation then
      let (insideQuotes, quoteChar) :=
        if !insideQuotes then (true, c)
        else if c = quoteChar then (false, 0)
        else (insideQuotes, quoteChar)
      let r := markLoop cs insideQuotes quoteChar
      (c :: r.1, r.2)
    else
      let r := markLoop cs insideQuotes quoteChar
      ((if c = space ∧ insideQuotes then altSpace else c) :: r.1, r.2)

/-- The third pass from the pointer that is handed to `strchr` on: behind the space that is
found, `memmove` takes out one space after the other. A round takes a character off, so
the length of the line is enough for all of them. -/
def collapseLoop : ℕ → List UInt8 → List UInt8
  | 0, s => s
  | n + 1, s =>
    match s.dropWhile (· != space) with
    | [] => s
    | p :: temp => s.takeWhile (· != space) ++ p :: collapseLoop n (temp.dropWhile (· == space))

def collapse (s : List UInt8) : List UInt8 := collapseLoop s.length s

/-- Skip over the initial space, and add a final one if there is none. -/
def trim (s : List UInt8) : List UInt8 :=
  let p := if s.head? = some space then s.tail else s
  if p.getLast? ≠ some space then p ++ [space] else p

/-- The fourth pass from `p` on, with `slots` elements of `argv` left; `none` is too many
arguments. -/
def splitLoop : ℕ → List UInt8 → Option (List (List UInt8))
  | slots, p =>
    match p.dropWhile (· != space) with
    | [] => some []
    | _ :: rest =>
      match slots with
      | 0 => none
      | slots + 1 => (splitLoop slots rest).map (p.takeWhile (· != space) :: ·)

def putBack (c : UInt8) : UInt8 := if c = altSpace then space else c

def removeQuotes (p : List UInt8) : List UInt8 :=
  if (p.head? = some apostrophe ∨ p.head? = some quotation) ∧ p.head? = p.getLast? then
    p.tail.dropLast
  else p

/-- What `shell_execute_command` comes to in front of the dispatch. -/
inductive Outcome where
  | returned (c : Int8)
  | dispatched (argv : List (List UInt8))
deriving DecidableEq

def parse (cmd : List UInt8) (rc : ℤ) : Outcome :=
  if cmd.length = 0 then .returned (Int8.ofInt rc)
  else
    let (cmd, insideQuotes) := markLoop ((terminate cmd).map blank) false 0
    if insideQuotes then .returned (-126)
    else
      let cmd := collapse cmd
      if cmd = [space] then .returned (Int8.ofInt rc)
      else
        match splitLoop maxArgs (trim cmd) with
        | none => .returned (-124)
        | some argv => .dispatched (argv.map fun p => removeQuotes (p.map putBack))

/-- `shell_execute_command`, with `shell_commands`. -/
def executeCommand (shellCommands : List Command) (cmd : List UInt8) (rc : ℤ) : Result :=
  match parse cmd rc with
  | .returned c => ⟨c, none⟩
  | .dispatched argv => executeCommandInCommands shellCommands argv.length argv

end EmbeddedTemplate.Shell
