import Jmpxx.Lists
import Mathlib.Data.List.DropRight

namespace Assembly

open Lists

inductive Arch
  | x86_64
  | aarch64
  deriving DecidableEq

def isBlank (c : Char) : Bool := c = ' ' || c = '\t' || c = '\r'

def letters (s : List Char) : List Char := s.filter (!isBlank ·)

/-- How far a statement has come; `dot` is set in a directive. A word with a colon is a label,
after which the statement starts again. -/
inductive Place
  | start
  | word (dot : Bool)
  | gap (dot : Bool)
  | operands (dot : Bool)
  deriving DecidableEq

def Place.next : Place → Char → Place
  | .start, c => if isBlank c then .start else .word (c = '.')
  | .word dot, c => if c = ':' then .start else if isBlank c then .gap dot else .word dot
  | .gap dot, c => if c = ':' then .start else if isBlank c then .gap dot else .operands dot
  | .operands dot, _ => .operands dot

def Place.isDirective : Place → Bool
  | .start => false
  | .word dot => dot
  | .gap dot => dot
  | .operands dot => dot

/-- What a character is read as: a string is in double quotes, a constant is one character behind
an apostrophe, with or without another one behind it. -/
inductive Lex
  | plain
  | string
  | escaped
  | constant
  | constantEscaped
  | constantEnd
  | opening
  | comment
  | star
  | lineComment
  deriving DecidableEq

/-- The statement is `resumed` while it goes on from the line before, with nothing of it read on
this line. -/
structure Mode where
  place : Place
  lex : Lex
  resumed : Bool
  deriving DecidableEq

def apostrophe : Char := Char.ofNat 39

/-- A comment starts here that goes on to the end of the line. At the start of a statement x86 has
a slash for it too, and AArch64 a hash. -/
def startsComment (arch : Arch) (p : Place) (c : Char) (ahead : Option Char) : Bool :=
  match arch with
  | .x86_64 => c = '#' || (c = '/' && ahead ≠ some '*' && p = .start)
  | .aarch64 => (c = '/' && ahead = some '/') || (c = '#' && p = .start)

/-- In a string or a constant a blank says something: its number is left behind a newline. -/
def quoted (c : Char) : List Char := if isBlank c then '\n' :: Nat.toDigits 10 c.toNat else [c]

namespace Mode

def fresh : Mode := ⟨.start, .plain, false⟩

def outside (m : Mode) : Bool := m.lex = .plain || m.lex = .constantEnd

/-- The rest of a statement from the line before is left behind a newline, which no line has in
it: it is no label and no directive. -/
def keep (m : Mode) (c : Char) : List Char := if m.resumed then ['\n', c] else [c]

/-- What is left of a character outside of strings and comments, and the mode behind it. -/
def readOutside (arch : Arch) (m : Mode) (c : Char) (ahead : Option Char) : List Char × Mode :=
  if startsComment arch m.place c ahead then ([], { m with lex := .lineComment })
  else if c = '/' ∧ ahead = some '*' then ([], { m with lex := .opening })
  else if isBlank c then ([c], ⟨m.place.next c, .plain, m.resumed⟩)
  else if c = '"' then (m.keep c, ⟨m.place.next c, .string, false⟩)
  else if c = apostrophe ∧ m.lex = .plain then (m.keep c, ⟨m.place.next c, .constant, false⟩)
  else (m.keep c, ⟨m.place.next c, .plain, false⟩)

/-- A comment is left as a blank. -/
def read (arch : Arch) (m : Mode) (c : Char) (ahead : Option Char) : List Char × Mode :=
  match m.lex with
  | .plain => m.readOutside arch c ahead
  | .constantEnd => m.readOutside arch c ahead
  | .string =>
    (quoted c, { m with lex := if c = '"' then .plain else if c = '\\' then .escaped else .string })
  | .escaped => (quoted c, { m with lex := .string })
  | .constant => (quoted c, { m with lex := if c = '\\' then .constantEscaped else .constantEnd })
  | .constantEscaped => (quoted c, { m with lex := .constantEnd })
  | .opening => ([], { m with lex := .comment })
  | .comment => ([], { m with lex := if c = '*' then .star else .comment })
  | .star =>
    if c = '/' then ([' '], ⟨m.place.next ' ', .plain, m.resumed⟩)
    else ([], { m with lex := if c = '*' then .star else .comment })
  | .lineComment => ([], m)

def newline (m : Mode) : Mode :=
  match m.lex with
  | .string => m
  | .escaped => { m with lex := .string }
  -- the constant is the newline
  | .constant => ⟨m.place.next ' ', .plain, true⟩
  | .constantEscaped => ⟨m.place.next ' ', .plain, true⟩
  | .opening => ⟨m.place.next ' ', .comment, m.place ≠ .start⟩
  | .comment => ⟨m.place.next ' ', .comment, m.place ≠ .start⟩
  | .star => ⟨m.place.next ' ', .comment, m.place ≠ .start⟩
  | .plain => fresh
  | .constantEnd => fresh
  | .lineComment => fresh

/-- The line goes on with a directive; only a directive has a string over several lines. -/
def inDirective (m : Mode) : Bool := m.place.isDirective || m.lex = .string

end Mode

def prepend (u : List Char) : List (List Char) → List (List Char)
  | [] => [u]
  | p :: ps => (u ++ p) :: ps

/-- A text in statements, a semicolon between any two, without comments. -/
def statements (arch : Arch) : Mode → List Char → List (List Char)
  | _, [] => [[]]
  | m, c :: rest =>
    if m.outside ∧ c = ';' then [] :: statements arch .fresh rest
    else prepend (m.read arch c rest.head?).1 (statements arch (m.read arch c rest.head?).2 rest)

def finish (arch : Arch) : Mode → List Char → Mode
  | m, [] => m
  | m, c :: rest =>
    if m.outside ∧ c = ';' then finish arch .fresh rest
    else finish arch (m.read arch c rest.head?).2 rest

def lineStatements (arch : Arch) (m : Mode) (line : List Char) : List (List Char) :=
  if m.inDirective then [] :: (statements arch m (line.dropWhile isBlank)).tail
  else statements arch m (line.dropWhile isBlank)

/-- The mode in which a line leaves the next one. -/
def after (arch : Arch) (m : Mode) (line : List Char) : Mode :=
  (finish arch m (line.dropWhile isBlank)).newline

def isSymbol (c : Char) : Bool :=
  c.isAlphanum || c = '_' || c = '.' || c = '$' || 128 ≤ c.toNat

def afterName : List Char → Option (List Char)
  | [] => none
  | c :: s =>
    if c = '"' then if '"' ∈ s then some (s.dropWhile (· ≠ '"')).tail else none
    else if isSymbol c then some (s.dropWhile isSymbol)
    else none

def afterMark (mark : Char) (s : List Char) : Option (List Char) :=
  match afterName s with
  | none => none
  | some t => if (t.dropWhile isBlank).head? = some mark then some (t.dropWhile isBlank).tail else none

theorem afterName_suffix {s t : List Char} (h : afterName s = some t) : ∃ u ≠ [], s = u ++ t := by
  unfold afterName at h
  split at h
  next => cases h
  next c s =>
    split_ifs at h with hq hmem hsym
    · obtain rfl := Option.some.inj h
      obtain ⟨u, hu⟩ := (List.tail_suffix _).trans (List.dropWhile_suffix (l := s) (· ≠ '"'))
      exact ⟨c :: u, List.cons_ne_nil _ _, by rw [List.cons_append, hu]⟩
    · obtain rfl := Option.some.inj h
      obtain ⟨u, hu⟩ := List.dropWhile_suffix (l := s) isSymbol
      exact ⟨c :: u, List.cons_ne_nil _ _, by rw [List.cons_append, hu]⟩

theorem afterMark_suffix {mark : Char} {s t : List Char} (h : afterMark mark s = some t) :
    ∃ u ≠ [], s = u ++ t := by
  unfold afterMark at h
  split at h
  next => cases h
  next r hr =>
    split_ifs at h
    obtain rfl := Option.some.inj h
    obtain ⟨u, hu, rfl⟩ := afterName_suffix hr
    obtain ⟨v, hv⟩ := (List.tail_suffix _).trans (List.dropWhile_suffix (l := r) isBlank)
    refine ⟨u ++ v, by simp [hu], ?_⟩
    rw [List.append_assoc, hv]

theorem length_afterMark_lt {s t : List Char}
    (h : afterMark ':' (s.dropWhile isBlank) = some t) : t.length < s.length := by
  obtain ⟨u, hu, heq⟩ := afterMark_suffix h
  have hle := (List.dropWhile_suffix (l := s) isBlank).length_le
  have hpos := List.length_pos_iff.mpr hu
  rw [heq, List.length_append] at hle
  omega

def unlabelled (s : List Char) : List Char :=
  match _h : afterMark ':' (s.dropWhile isBlank) with
  | some t => unlabelled t
  | none => s.dropWhile isBlank
termination_by s.length
decreasing_by exact length_afterMark_lt _h

/-- An instruction and the labels on it; the blanks in its operands say nothing. -/
structure Instr where
  labels : List Char
  mnemonic : List Char
  operands : List Char
  deriving DecidableEq

/-- The instruction of a statement: a directive has none, nor has an assignment to a symbol or a
label alone. -/
def instruction (s : List Char) : Option Instr :=
  if unlabelled s = [] ∨ (unlabelled s).head? = some '.' ∨ (afterMark '=' (unlabelled s)).isSome then
    none
  else some
    { labels := letters (s.take (s.length - (unlabelled s).length))
      mnemonic := (unlabelled s).takeWhile (!isBlank ·)
      operands := letters ((unlabelled s).dropWhile (!isBlank ·)) }

def lineInstrs (arch : Arch) (m : Mode) (line : List Char) : List Instr :=
  (lineStatements arch m line).filterMap instruction

def instructions (arch : Arch) : Mode → List (List Char) → List Instr
  | _, [] => []
  | m, line :: rest => lineInstrs arch m line ++ instructions arch (after arch m line) rest

example : lineInstrs .x86_64 .fresh " .L3: mov $1, %eax; ret # done".toList =
    [⟨".L3:".toList, "mov".toList, "$1,%eax".toList⟩, ⟨[], "ret".toList, []⟩] := by decide +kernel

example : instructions .aarch64 .fresh ["mov w0, #1 // one".toList, "/* ret".toList,
    "*/ ret".toList] = [⟨[], "mov".toList, "w0,#1".toList⟩, ⟨[], "ret".toList, []⟩] := by
  decide +kernel

/-- Neither begins a comment with what is before it. -/
def Apart (s : List Char) : Prop := s.head? ≠ some '/' ∧ s.head? ≠ some '*'

/-- The statements of which more than blanks is in `all` but not in `kept`, the first of them also
as it is kept. -/
def reached (kept all : List (List Char)) : List (List Char) :=
  if letters (kept.getLastD []) = letters (all.getD (kept.length - 1) []) then all.drop kept.length
  else kept.getLastD [] :: all.drop (kept.length - 1)

end Assembly
