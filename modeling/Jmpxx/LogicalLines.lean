import Jmpxx.Preprocessor
import Mathlib.Data.List.DropRight

namespace Preprocessor

/-- The pieces between the characters of `sep`; there is none behind one at the end. -/
def linesBy (sep : Char → Bool) : Text → List Text
  | [] => []
  | c :: rest =>
    if sep c then [] :: linesBy sep rest
    else (c :: (linesBy sep rest).headD []) :: (linesBy sep rest).tail

def unlines (ls : List Text) : Text := ls.flatMap (· ++ ['\n'])

def dropReturn (l : Text) : Text := if l.getLast? = some '\r' then l.dropLast else l

def physical (text : Text) : List Text := (linesBy (· = '\n') text).map dropReturn

/-- A line that goes on behind a backslash. Blanks may follow that. -/
def continued (l : Text) : Bool := (l.rdropWhile isSpace).getLast? = some '\\'

def beforeSplice (l : Text) : Text := if continued l then (l.rdropWhile isSpace).dropLast else l

def apostrophe : Char := Char.ofNat 39

/-- What a line is in the middle of. -/
inductive Lex
  | code
  | word
  | number
  | separator
  | slash
  | lineComment
  | comment
  | commentStar
  | literal (quote : Char)
  | escape (quote : Char)
  | suffix
  | header (close : Char)
  | delimiter (d : Text)
  | raw (d : Text)
  deriving DecidableEq

def namesHeader (line : Text) : Bool :=
  let hash := line.dropWhile isSpace
  let word := hash.tail.dropWhile isSpace
  hash.head? = some '#' && word.takeWhile isIdent = "include".toList &&
      (word.dropWhile isIdent).all isSpace ||
    "__has_include(".toList <:+ line.filter (!isSpace ·)

def rawPrefixes : List Text :=
  ["R".toList, "LR".toList, "uR".toList, "UR".toList, "u8R".toList]

def codeNext (line : Text) (c : Char) : Lex :=
  match closer c, namesHeader line with
  | some close, true => .header close
  | _, _ =>
    if c = '"' ∨ c = apostrophe then .literal c
    else if c = '/' then .slash
    else if c.isDigit then .number
    else if isIdent c then .word
    else .code

def literalNext (quote c : Char) : Lex :=
  if c = quote then .suffix else if c = '\\' then .escape quote else .literal quote

/-- Behind `line` comes `c`. -/
def Lex.next (line : Text) (c : Char) : Lex → Lex
  | .code => codeNext line c
  | .word =>
    if isIdent c then .word
    else if c = '"' ∧ rawPrefixes.any (· = line.rtakeWhile isIdent) then .delimiter []
    else codeNext line c
  | .number =>
    if isIdent c ∨ c = '.' then .number
    else if c = apostrophe then .separator
    else codeNext line c
  -- the apostrophe was between digits, or it begins a character constant
  | .separator => if isIdent c then .number else literalNext apostrophe c
  | .slash =>
    if c = '/' then .lineComment else if c = '*' then .comment else codeNext line c
  | .lineComment => .lineComment
  | .comment => if c = '*' then .commentStar else .comment
  | .commentStar => if c = '/' then .code else if c = '*' then .commentStar else .comment
  | .literal quote => literalNext quote c
  | .escape quote => .literal quote
  -- a suffix does not begin with a digit, and makes no raw string of the next literal
  | .suffix =>
    if isIdent c ∧ (c.isDigit → line.getLast?.any isIdent) then .suffix else codeNext line c
  | .header close => if c = close then .code else .header close
  | .delimiter d => if c = '(' then .raw d else .delimiter (d ++ [c])
  | .raw d => if c = '"' ∧ (')' :: d) <:+ line then .suffix else .raw d

/-- What the line is then: a comment is a blank. -/
def Lex.emit (line : Text) (c : Char) : Lex → Text
  | .lineComment | .comment | .commentStar => line
  | .slash => if c = '/' ∨ c = '*' then line.dropLast ++ [' '] else line ++ [c]
  | _ => line ++ [c]

def Lex.isRaw : Lex → Bool
  | .delimiter _ | .raw _ => true
  | _ => false

/-- What goes over the end of a line. -/
def Lex.newline (line : Text) : Lex → Option (Lex × Text)
  | .comment | .commentStar => some (.comment, line)
  | .raw d => some (.raw d, line ++ ['\n'])
  | _ => none

/-- A logical line so far and the lines it is made of, behind those that are over. -/
structure Reading where
  lex : Lex := .code
  line : Text := []
  group : List Text := []
  groups : List (List Text × Text) := []
  deriving DecidableEq

namespace Reading

def scan (r : Reading) (c : Char) : Reading :=
  { r with lex := r.lex.next r.line c, line := r.lex.emit r.line c }

def newline (r : Reading) : Reading :=
  match r.lex.newline r.line with
  | some (lex, line) => { r with lex := lex, line := line }
  | none => { groups := r.groups ++ [(r.group, r.line)] }

/-- The end of the line `l`. In a raw string a backslash does not continue it. -/
def endLine (l : Text) (r : Reading) : Reading :=
  if continued l && !r.lex.isRaw then r
  else ((l.drop (beforeSplice l).length).foldl scan r).newline

def read (r : Reading) (l : Text) : Reading :=
  ((beforeSplice l).foldl scan { r with group := r.group ++ [l] }).endLine l

def ended (r : Reading) : List (List Text × Text) :=
  if r.group = [] then r.groups else r.groups ++ [(r.group, r.line)]

end Reading

/-- The logical lines, each with the lines it is made of. -/
def grouped (ls : List Text) : List (List Text × Text) := (ls.foldl Reading.read {}).ended

def logical (ls : List Text) : List Text := (grouped ls).map Prod.snd

def Complete (ls : List Text) : Prop := (ls.foldl Reading.read {}).group = []

instance (ls : List Text) : Decidable (Complete ls) :=
  inferInstanceAs (Decidable (_ = _))

def Whole (p : List Text × Text) : Prop := p.1.foldl Reading.read {} = { groups := [p] }

instance (p : List Text × Text) : Decidable (Whole p) := inferInstanceAs (Decidable (_ = _))

example : grouped (physical "a /* b\n*/ c // d\n#if e\\\n f\n".toList) =
    [(["a /* b".toList, "*/ c // d".toList], "a   c  ".toList),
      (["#if e\\".toList, " f".toList], "#if e f".toList)] := by decide +kernel

theorem mem_linesBy {sep : Char → Bool} {text l : Text} (hl : l ∈ linesBy sep text) {c : Char}
    (hc : c ∈ l) : c ∈ text ∧ sep c = false := by
  induction text generalizing l with
  | nil => exact absurd hl List.not_mem_nil
  | cons x rest ih =>
    rw [linesBy] at hl
    split at hl
    · rcases List.mem_cons.mp hl with rfl | hl
      · exact absurd hc List.not_mem_nil
      · exact ⟨List.mem_cons_of_mem x (ih hl hc).1, (ih hl hc).2⟩
    · next hx =>
      rcases List.mem_cons.mp hl with rfl | hl
      · rcases List.mem_cons.mp hc with rfl | hc
        · exact ⟨List.mem_cons_self, by simpa using hx⟩
        · rcases hrest : linesBy sep rest with _ | ⟨l, ls⟩ <;> rw [hrest] at hc
          · exact absurd hc List.not_mem_nil
          · have hmem : l ∈ linesBy sep rest := hrest ▸ List.mem_cons_self
            exact ⟨List.mem_cons_of_mem x (ih hmem hc).1, (ih hmem hc).2⟩
      · have hmem := List.mem_of_mem_tail hl
        exact ⟨List.mem_cons_of_mem x (ih hmem hc).1, (ih hmem hc).2⟩

theorem linesBy_congr {sep sep' : Char → Bool} {text : Text}
    (h : ∀ c ∈ text, sep c = sep' c) : linesBy sep text = linesBy sep' text := by
  induction text with
  | nil => rfl
  | cons c rest ih =>
    rw [linesBy, linesBy, h c List.mem_cons_self, ih fun c hc => h c (List.mem_cons_of_mem _ hc)]

theorem linesBy_append {l : Text} (hl : ∀ c ∈ l, c ≠ '\n') (text : Text) :
    linesBy (· = '\n') (l ++ '\n' :: text) = l :: linesBy (· = '\n') text := by
  induction l with
  | nil => rfl
  | cons c l ih =>
    have hc : ¬(decide (c = '\n') = true) := by simpa using hl c List.mem_cons_self
    rw [List.cons_append, linesBy, if_neg hc, ih fun c hc => hl c (List.mem_cons_of_mem _ hc)]
    rfl

def OneLine (l : Text) : Prop := ∀ c ∈ l, c ≠ '\n' ∧ c ≠ '\r'

-- through the list: all characters there are would be tried one by one otherwise
instance (l : Text) : Decidable (OneLine l) :=
  decidable_of_iff (l.all fun c => c ≠ '\n' && c ≠ '\r') (by simp [OneLine])

theorem OneLine.append {a b : Text} (ha : OneLine a) (hb : OneLine b) : OneLine (a ++ b) :=
  fun c hc => (List.mem_append.mp hc).elim (ha c) (hb c)

theorem oneLine_of_isIdent {g : Text} (hg : ∀ c ∈ g, isIdent c) : OneLine g := by
  intro c hc
  have hident := hg c hc
  constructor <;> rintro rfl <;> exact absurd hident (by decide)

theorem dropReturn_of_oneLine {l : Text} (h : OneLine l) : dropReturn l = l :=
  if_neg fun hlast => (h _ (List.mem_of_getLast? hlast)).2 rfl

theorem physical_unlines {ls : List Text} (h : ∀ l ∈ ls, OneLine l) :
    physical (unlines ls) = ls := by
  induction ls with
  | nil => rfl
  | cons l ls ih =>
    have hl := h l List.mem_cons_self
    have hcons : unlines (l :: ls) = l ++ '\n' :: unlines ls := by simp [unlines]
    rw [hcons, physical, linesBy_append fun c hc => (hl c hc).1, List.map_cons,
      dropReturn_of_oneLine hl]
    exact congrArg _ (ih fun l' hl' => h l' (List.mem_cons_of_mem _ hl'))

namespace Reading

/-- With other logical lines before. -/
def after (before : List (List Text × Text)) (r : Reading) : Reading :=
  { r with groups := before ++ r.groups }

variable {before : List (List Text × Text)} {r : Reading}

/-- Characters are read without regard to the lines before. -/
theorem foldl_scan (cs : Text) (r : Reading) (group : List Text)
    (groups : List (List Text × Text)) :
    cs.foldl scan { r with group := group, groups := groups } =
      { cs.foldl scan r with group := group, groups := groups } := by
  induction cs generalizing r with
  | nil => rfl
  | cons c cs ih => exact ih (r.scan c)

theorem foldl_scan_eq (cs : Text) (r : Reading) :
    cs.foldl scan r = { r with lex := (cs.foldl scan r).lex, line := (cs.foldl scan r).line } :=
  foldl_scan cs r r.group r.groups

theorem foldl_scan_after (cs : Text) (r : Reading) :
    cs.foldl scan (r.after before) = (cs.foldl scan r).after before := by
  rw [after, after, foldl_scan_eq cs r]
  exact foldl_scan cs r r.group (before ++ r.groups)

theorem newline_after (r : Reading) : (r.after before).newline = r.newline.after before := by
  have hsame : (r.after before).lex.newline (r.after before).line = r.lex.newline r.line := rfl
  rw [newline, newline, hsame]
  cases r.lex.newline r.line with
  | some p => rfl
  | none => simp [after]

theorem read_after (r : Reading) (l : Text) :
    (r.after before).read l = (r.read l).after before := by
  have hbegin : { r.after before with group := (r.after before).group ++ [l] } =
      after before { r with group := r.group ++ [l] } := rfl
  rw [read, read, hbegin, foldl_scan_after, endLine, endLine, foldl_scan_after, newline_after]
  exact (apply_ite (after before) _ _ _).symm

theorem foldl_read_after (ls : List Text) (r : Reading) :
    ls.foldl read (r.after before) = (ls.foldl read r).after before := by
  induction ls generalizing r with
  | nil => rfl
  | cons l ls ih =>
    rw [List.foldl_cons, read_after]
    exact ih (r.read l)

/-- The logical line goes on, or it is over. -/
theorem read_cases (r : Reading) (l : Text) :
    (∃ lex line, r.read l = { r with lex := lex, line := line, group := r.group ++ [l] }) ∨
      ∃ line, r.read l = { groups := r.groups ++ [(r.group ++ [l], line)] } := by
  rw [read, endLine]
  split
  · exact .inl ⟨_, _, foldl_scan_eq _ _⟩
  · rw [foldl_scan_eq (beforeSplice l), foldl_scan_eq, newline]
    dsimp only
    split
    · exact .inl ⟨_, _, rfl⟩
    · exact .inr ⟨_, rfl⟩

structure Of (ls : List Text) (r : Reading) : Prop where
  whole : ∀ p ∈ r.groups, Whole p
  rest : r.group.foldl read {} = { r with groups := [] }
  lines : ls = r.groups.flatMap Prod.fst ++ r.group

theorem Of.read {ls : List Text} (h : Of ls r) (l : Text) : Of (ls ++ [l]) (r.read l) := by
  have hafter : r.read l = (Reading.read { r with groups := [] } l).after r.groups := by
    rw [← read_after]
    exact congrArg (Reading.read · l) (by rw [after, List.append_nil])
  have hrest : (r.group ++ [l]).foldl Reading.read {} = Reading.read { r with groups := [] } l := by
    rw [List.foldl_append, h.rest]
    rfl
  rcases read_cases { r with groups := [] } l with ⟨lex, line, hread⟩ | ⟨line, hread⟩ <;>
    rw [hread] at hafter hrest <;> rw [hafter]
  · refine ⟨?_, hrest, ?_⟩
    · simpa [after] using h.whole
    · simp [after, h.lines]
  · refine ⟨?_, rfl, ?_⟩
    · intro p hp
      rcases List.mem_append.mp hp with hp | hp
      · exact h.whole p hp
      · rw [List.mem_singleton.mp hp]
        exact hrest
    · simp [after, h.lines]

theorem foldl_read_of (ls : List Text) : Of ls (ls.foldl read {}) := by
  induction ls using List.reverseRecOn with
  | nil => exact ⟨fun p hp => absurd hp List.not_mem_nil, rfl, rfl⟩
  | append_singleton ls l ih =>
    rw [List.foldl_append]
    exact ih.read l

end Reading

theorem foldl_read_whole {gs : List (List Text × Text)} (h : ∀ p ∈ gs, Whole p) :
    (gs.flatMap Prod.fst).foldl Reading.read {} = { groups := gs } := by
  induction gs with
  | nil => rfl
  | cons p gs ih =>
    rw [List.flatMap_cons, List.foldl_append, h p List.mem_cons_self]
    show (gs.flatMap Prod.fst).foldl Reading.read (Reading.after [p] {}) = _
    rw [Reading.foldl_read_after, ih fun q hq => h q (List.mem_cons_of_mem p hq)]
    rfl

/-- Logical lines that are read by themselves are what is read of their lines. -/
theorem grouped_flatMap {gs : List (List Text × Text)} (h : ∀ p ∈ gs, Whole p) :
    grouped (gs.flatMap Prod.fst) = gs := by
  rw [grouped, foldl_read_whole h]
  rfl

/-- Lines whose last logical line is over are those of their logical lines, and each of these is
read by itself. -/
theorem Complete.grouped {ls : List Text} (h : Complete ls) :
    (∀ p ∈ grouped ls, Whole p) ∧ ls = (grouped ls).flatMap Prod.fst := by
  have hof := Reading.foldl_read_of ls
  have hended : Preprocessor.grouped ls = (ls.foldl Reading.read {}).groups := if_pos h
  have hgroup : (ls.foldl Reading.read {}).group = [] := h
  rw [hended]
  refine ⟨hof.whole, ?_⟩
  have hlines := hof.lines
  rwa [hgroup, List.append_nil] at hlines

theorem foldl_scan_lineComment {r : Reading} (h : r.lex = .lineComment) (cs : Text) :
    cs.foldl Reading.scan r = r := by
  induction cs with
  | nil => rfl
  | cons c cs ih =>
    have hscan : r.scan c = r := by
      rw [Reading.scan, h]
      show { r with lex := .lineComment } = r
      rw [← h]
    rw [List.foldl_cons, hscan, ih]

/-- Not inside of anything, or only of a word. -/
def Lex.Plain (lex : Lex) : Prop := lex = .code ∨ lex = .word ∨ lex = .number

theorem codeNext_plain {c : Char} (hc : isIdent c) (line : Text) : (codeNext line c).Plain := by
  have hne : c ≠ '<' ∧ c ≠ '"' ∧ c ≠ apostrophe ∧ c ≠ '/' := by
    refine ⟨?_, ?_, ?_, ?_⟩ <;> rintro rfl <;> exact absurd hc (by decide)
  rw [codeNext, closer, if_neg hne.1, if_neg hne.2.1]
  simp only [hne, or_self, if_false, hc, if_true]
  split
  · exact .inr (.inr rfl)
  · exact .inr (.inl rfl)

theorem foldl_scan_ident {cs : Text} (hcs : ∀ c ∈ cs, isIdent c) {r : Reading} (h : r.lex.Plain) :
    ∃ lex : Lex, lex.Plain ∧ cs.foldl Reading.scan r = { r with lex := lex, line := r.line ++ cs } := by
  induction cs generalizing r with
  | nil => exact ⟨r.lex, h, by simp⟩
  | cons c cs ih =>
    have hc := hcs c List.mem_cons_self
    have hnext : (r.lex.next r.line c).Plain := by
      rcases h with h | h | h <;> rw [h, Lex.next]
      · exact codeNext_plain hc r.line
      · rw [if_pos hc]
        exact .inr (.inl rfl)
      · rw [if_pos (.inl hc)]
        exact .inr (.inr rfl)
    have hemit : r.lex.emit r.line c = r.line ++ [c] := by
      rcases h with h | h | h <;> rw [h] <;> rfl
    obtain ⟨lex, hlex, hscan⟩ := @ih (fun c hc => hcs c (List.mem_cons_of_mem _ hc)) (r.scan c) hnext
    refine ⟨lex, hlex, ?_⟩
    rw [List.foldl_cons, hscan, Reading.scan, hemit]
    simp

theorem continued_append {front g : Text} (hne : g ≠ []) (hg : ∀ c ∈ g, isIdent c) :
    continued (front ++ g) = false := by
  obtain ⟨g, c, rfl⟩ := (List.eq_nil_or_concat g).resolve_left hne
  have hc := hg c (by simp)
  have hspace : isSpace c = false := by
    by_contra h
    simp only [Bool.not_eq_false, isSpace, List.mem_cons, List.not_mem_nil, or_false,
      decide_eq_true_eq] at h
    rcases h with rfl | rfl | rfl | rfl | rfl | rfl <;> exact absurd hc (by decide)
  have hslash : c ≠ '\\' := by rintro rfl; exact absurd hc (by decide)
  rw [continued, List.concat_eq_append, ← List.append_assoc,
    List.rdropWhile_concat_neg _ _ _ (by simp [hspace]), List.getLast?_concat]
  simp [hslash]

theorem read_of_not_continued {l : Text} (h : continued l = false) (r : Reading) :
    r.read l = (l.foldl Reading.scan { r with group := r.group ++ [l] }).newline := by
  have hbefore : beforeSplice l = l := if_neg (by simp [h])
  rw [Reading.read, Reading.endLine, hbefore, h, List.drop_length]
  rfl

theorem whole_comment {front line : Text}
    (hfront : front.foldl Reading.scan {} = { lex := .lineComment, line := line }) {s : Text}
    (h : continued (front ++ s) = false) : Whole ([front ++ s], line) := by
  show Reading.read {} (front ++ s) = _
  rw [read_of_not_continued h, List.foldl_append, Reading.foldl_scan front {}, hfront,
    foldl_scan_lineComment rfl]
  rfl

theorem whole_ident {front : Text} (hfront : front.foldl Reading.scan {} = { line := front })
    {g : Text} (hne : g ≠ []) (hg : ∀ c ∈ g, isIdent c) : Whole ([front ++ g], front ++ g) := by
  show Reading.read {} (front ++ g) = _
  rw [read_of_not_continued (continued_append hne hg), List.foldl_append,
    Reading.foldl_scan front {}, hfront]
  obtain ⟨lex, hlex, hscan⟩ := foldl_scan_ident hg
    (r := { line := front, group := [front ++ g] }) (.inl rfl)
  show Reading.newline (List.foldl Reading.scan { line := front, group := [front ++ g] } g) = _
  rw [hscan, Reading.newline]
  rcases hlex with rfl | rfl | rfl <;> rfl

end Preprocessor
