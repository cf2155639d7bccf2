import Jmpxx.Assembly
import Jmpxx.Labels
import Jmpxx.Lines
import Mathlib.Data.List.Infix

namespace Jmpxx.Codegen

open Assembly

structure Normalized where
  text : Text := []
  instructions : ℕ := 0
  spilled : Bool := false
  found : Bool := false

def isSpace (c : Char) : Bool := c = ' ' || c = '\t'

def trim (s : Text) : Text := (s.dropWhile isSpace).rdropWhile isSpace

/-- Stack traffic, as the two architectures write it. -/
def touchesStack (arch : Arch) (t : Text) : Bool :=
  match arch with
  | .x86_64 => "(%rsp)".toList <:+: t || "(%rbp)".toList <:+: t || "push".toList <+: t ||
      "pop".toList <+: t
  | .aarch64 => "[sp".toList <:+: t || "[x29".toList <:+: t || "stp".toList <+: t ||
      "ldp".toList <+: t

/-- What the loop keeps of a line: all before the first `#`, which starts a comment on x86. -/
def shown (line : Text) : Text :=
  if '#' ∈ trim line then trim ((trim line).takeWhile (· ≠ '#')) else trim line

/-- The loop's turn on a line of the function. -/
def Normalized.add (arch : Arch) (n : Normalized) (line : Text) : Normalized :=
  if shown line = [] then n
  else if (shown line).head? = some '.' ∧ (shown line).getLast? ≠ some ':' then n
  else if (shown line).getLast? = some ':' then { n with text := n.text ++ shown line ++ ['\n'] }
  else
    { n with
      text := n.text ++ shown line ++ ['\n']
      instructions := n.instructions + 1
      spilled := n.spilled || touchesStack arch (shown line) }

def endsFunction (line : Text) : Bool :=
  ".size".toList <+: trim line || ".cfi_endproc".toList <+: trim line

/-- The loop over the lines, before the function's first line and `inside` it. -/
def Normalized.scan (arch : Arch) (start : Text) : Bool → Normalized → List Text → Normalized
  | _, n, [] => n
  | false, n, line :: rest =>
    if trim line = start then scan arch start true { n with found := true } rest
    else scan arch start false n rest
  | true, n, line :: rest =>
    if endsFunction line then n else scan arch start true (n.add arch line) rest

def normalize (asmText symbol : Text) (arch : Arch) : Normalized :=
  Normalized.scan arch (symbol ++ [':']) false {} (Lines.lines '\n' asmText)

/-- The lines of a function. -/
def sliced (asmText symbol : Text) : List Text :=
  (((Lines.lines '\n' asmText).dropWhile (trim · ≠ symbol ++ [':'])).tail).takeWhile
    (!endsFunction ·)

/-- The lines of a function, each with the mode in which those before it leave the assembler. -/
def placed (arch : Arch) : Mode → List Text → List (Mode × Text)
  | _, [] => []
  | m, line :: rest => (m, line) :: placed arch (after arch m line) rest

/-- The text so far, after these lines of the function. -/
def textOf (arch : Arch) (lines : List Text) : List Text :=
  Lines.lines '\n' (lines.foldl (Normalized.add arch) {}).text

/-- Normalizing does right by two functions: told apart by their texts are all whose instructions
differ, at every line the text so far has the instructions so far, what is left of a line has each
instruction of the line where it was, and the count takes in all of them. -/
structure Sound (arch : Arch) (asmText a b : Text) : Prop where
  same : (normalize asmText a arch).text = (normalize asmText b arch).text →
    Assembly.instructions arch .fresh (sliced asmText a) =
      Assembly.instructions arch .fresh (sliced asmText b)
  text : ∀ f ∈ [a, b], ∀ n,
    Assembly.instructions arch .fresh (textOf arch ((sliced asmText f).take n)) =
      Assembly.instructions arch .fresh ((sliced asmText f).take n)
  kept : ∀ f ∈ [a, b], ∀ p ∈ placed arch .fresh (sliced asmText f), ∀ j,
    instruction (((textOf arch [p.2]).flatMap (lineStatements arch p.1)).getD j []) =
      instruction ((lineStatements arch p.1 p.2).getD j [])
  counted : ∀ f ∈ [a, b], ∀ p ∈ placed arch .fresh (sliced asmText f), ∀ n : Normalized,
    n.instructions + (lineInstrs arch p.1 p.2).length ≤ (n.add arch p.2).instructions

def upToHash (line : Text) : Text := trim ((trim line).takeWhile (· ≠ '#'))

def keeps (line : Text) : Bool :=
  upToHash line ≠ [] && ((upToHash line).head? ≠ some '.' || (upToHash line).getLast? = some ':')

def counts (line : Text) : Bool := keeps line && (upToHash line).getLast? ≠ some ':'

/-- A line of the kind the normalizer is written for, where it stands. -/
structure LineOk (arch : Arch) (m : Mode) (line : Text) : Prop where
  /-- It has one instruction at most. -/
  one : (lineInstrs arch m line).length ≤ 1
  /-- With an instruction, there is something before its first hash, which does not start like a
  directive nor end like a label. -/
  code : lineInstrs arch m line ≠ [] →
    upToHash line ≠ [] ∧ (upToHash line).head? ≠ some '.' ∧ (upToHash line).getLast? ≠ some ':'
  /-- No statement that has more than blanks and comments behind the first hash has an
  instruction, nor has what is before the hash of the one it is in. -/
  hash : keeps line →
    (reached (lineStatements arch m (upToHash line)) (lineStatements arch m line)).filterMap
      instruction = []

/-- The instructions of a line that are in the text. -/
def seen (arch : Arch) (m : Mode) (line : Text) : List Instr :=
  if keeps line then lineInstrs arch m (upToHash line) else []

/-- Two functions that return different numbers, as they are compiled for AArch64. -/
def numbers : Text :=
  "f:\n\tmov\tw0, #1\n\tret\n\t.size\tf, .-f\n".toList ++
    "g:\n\tmov\tw0, #2\n\tret\n\t.size\tg, .-g\n".toList

end Jmpxx.Codegen
