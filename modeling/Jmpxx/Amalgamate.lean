import Jmpxx.Lists
import Jmpxx.LogicalLines
import Mathlib.Data.Set.Card
import Mathlib.Logic.Relation

namespace Jmpxx.Amalgamate

open Lists Preprocessor

/-- What `\s` matches. -/
def isMatchedSpace (c : Char) : Bool :=
  9 ≤ c.toNat && c.toNat ≤ 13 || 28 ≤ c.toNat && c.toNat ≤ 32 ||
    0x2000 ≤ c.toNat && c.toNat ≤ 0x200a ||
    c.toNat ∈ [0x85, 0xa0, 0x1680, 0x2028, 0x2029, 0x202f, 0x205f, 0x3000]

def inName (c : Char) : Bool := c ≠ '"' && c ≠ '>'

/-- `INCLUDE`: an include with nothing else on its line; what it names is the group. -/
def includeMatch (line : Text) : Option Text :=
  let hash := line.dropWhile isMatchedSpace
  let word := hash.tail.dropWhile isMatchedSpace
  let quote := (word.drop 7).dropWhile isMatchedSpace
  let name := quote.tail.takeWhile inName
  let close := quote.tail.dropWhile inName
  if hash.head? = some '#' ∧ "include".toList <+: word ∧
      (quote.head? = some '<' ∨ quote.head? = some '"') ∧ name ≠ [] ∧ close ≠ [] ∧
      close.tail.all isMatchedSpace then
    some name
  else none

/-- `startswith('jmpxx/')`. -/
def isLocal (name : Text) : Bool := "jmpxx/".toList <+: name

/-- What `read_text` makes of the ends of lines. -/
def universal : Text → Text
  | [] => []
  | '\r' :: '\n' :: rest => '\n' :: universal rest
  | '\r' :: rest => '\n' :: universal rest
  | c :: rest => c :: universal rest

/-- What `splitlines` splits at. -/
def isBreak (c : Char) : Bool :=
  10 ≤ c.toNat && c.toNat ≤ 13 || 28 ≤ c.toNat && c.toNat ≤ 30 ||
    c.toNat ∈ [0x85, 0x2028, 0x2029]

def splitlines (text : Text) : List Text := linesBy isBreak text

variable {File : Type*}

/-- The include directory: the header a name resolves to, its path under the directory, and its
text. -/
structure Directory (File : Type*) where
  resolve : Text → File
  rel : File → Text
  text : File → Text

def Directory.localInclude (d : Directory File) (line : Text) : Option File :=
  (includeMatch line).elim none fun name => if isLocal name then some (d.resolve name) else none

/-- What the walk goes over: lines, of which some are replaced by a header. -/
structure Tree (File : Type*) where
  resolve : Text → File
  target : Text → Option File
  provenance : File → Text
  lines : File → List Text

def Directory.tree (d : Directory File) : Tree File where
  resolve := d.resolve
  target := d.localInclude
  provenance f := "// from ".toList ++ d.rel f
  lines f := splitlines (universal (d.text f))

structure Walk (File : Type*) where
  visited : List File := []
  out : List Text := []

section Walk

variable [DecidableEq File]

namespace Tree

/-- The turn of `inline`'s loop on a line. -/
def visit (t : Tree File) (inline : File → Walk File → Option (Walk File)) (w : Walk File)
    (line : Text) : Option (Walk File) :=
  (t.target line).elim (some { w with out := w.out ++ [line] }) fun target =>
    if target ∈ w.visited then some w
    else inline target { w with visited := target :: w.visited }

/-- The walk over a header, with others inside it to a given depth. -/
def inline (t : Tree File) : ℕ → File → Walk File → Option (Walk File)
  | 0, _, _ => none
  | k + 1, f, w =>
    (t.lines f).foldlM (visit t (inline t k)) { w with out := w.out ++ [t.provenance f] }

def visitRoot (t : Tree File) (k : ℕ) (w : Walk File) (root : Text) : Option (Walk File) :=
  if t.resolve root ∈ w.visited then some w
  else t.inline k (t.resolve root) { w with visited := t.resolve root :: w.visited }

theorem visit_of_none {t : Tree File} {line : Text} (h : t.target line = none)
    (inline : File → Walk File → Option (Walk File)) (w : Walk File) :
    t.visit inline w line = some { w with out := w.out ++ [line] } := by
  rw [visit, h]
  rfl

theorem visit_of_some {t : Tree File} {line : Text} {target : File}
    (h : t.target line = some target) (inline : File → Walk File → Option (Walk File))
    (w : Walk File) : t.visit inline w line =
      if target ∈ w.visited then some w
      else inline target { w with visited := target :: w.visited } := by
  rw [visit, h]
  rfl

theorem foldlM_visit_of_none {t : Tree File} {ls : List Text} (h : ∀ l ∈ ls, t.target l = none)
    (inline : File → Walk File → Option (Walk File)) (w : Walk File) :
    ls.foldlM (t.visit inline) w = some { w with out := w.out ++ ls } := by
  induction ls generalizing w with
  | nil => rw [List.append_nil]; rfl
  | cons l ls ih =>
    rw [List.foldlM_cons, visit_of_none (h l List.mem_cons_self)]
    show ls.foldlM (t.visit inline) { w with out := w.out ++ [l] } = _
    rw [ih fun l' hl => h l' (List.mem_cons_of_mem l hl), List.append_assoc]
    rfl

end Tree

def banner (guard title : Text) : List Text :=
  ["// SPDX-License-Identifier: MIT".toList,
    "// ".toList ++ title,
    "//".toList,
    "// This file is generated from the modular headers under include/jmpxx by".toList,
    "// packaging/amalgamate.py. Do not edit it by hand; edit the modular headers".toList,
    "// and regenerate. Continuous integration regenerates and diffs it, so a stale".toList,
    "// single header fails the build.".toList,
    "#ifndef ".toList ++ guard,
    "#define ".toList ++ guard,
    []]

def footer (guard : Text) : List Text := [[], "#endif  // ".toList ++ guard, []]

def amalgamate (d : Directory File) (k : ℕ) (roots : List Text) (guard title : Text) :
    Option Text :=
  (roots.foldlM (d.tree.visitRoot k) {}).map fun w =>
    unlines (banner guard title ++ w.out ++ footer guard)

end Walk

namespace Directory

/-- The headers the preprocessor finds in the include directory, by their logical lines. -/
def files (d : Directory File) : Files File where
  find name := if isLocal name then some (d.resolve name) else none
  lines f := logical (physical (d.text f))

/-- The walk as the preprocessor reads it. -/
def logicalTree (d : Directory File) : Tree File where
  resolve := d.resolve
  target := d.files.target
  provenance _ := [' ']
  lines := d.files.lines

def Includes (d : Directory File) (g f : File) : Prop :=
  ∃ l ∈ d.files.lines f, d.files.target l = some g

def Acyclic (d : Directory File) : Prop := ∀ f, ¬Relation.TransGen d.Includes f f

/-- Headers in guards of their own, none of which is that of the single header. -/
structure Guarded (d : Directory File) (guard : File → Text) (own : Text) : Prop where
  wrapped : ∀ f, Wrapped (Set.range guard) (guard f) (d.files.lines f)
  unique : Function.Injective guard
  own_name : own ≠ [] ∧ ∀ c ∈ own, isIdent c
  own_unused : ∀ f, ∀ l ∈ d.files.lines f, (directive l).macroName ≠ some own

def OnOwnLines (d : Directory File) : Prop :=
  ∀ f, ∀ p ∈ grouped (physical (d.text f)), ∀ name ∈ (directive p.2).included, isLocal name →
    ∃ line ∈ p.1, p.1 = [line] ∧ name ∈ includeMatch line

end Directory

def includeLine (root : Text) : Text := "#include \"".toList ++ root ++ ['"']

theorem isIdent_of_isSpace {c : Char} (h : isSpace c) : isIdent c = false := by
  simp only [isSpace, List.mem_cons, List.not_mem_nil, or_false, decide_eq_true_eq] at h
  rcases h with rfl | rfl | rfl | rfl | rfl | rfl <;> decide

/-- The usual two lines open a guard. -/
theorem opening_of_name {g : Text} (hne : g ≠ []) (hident : ∀ c ∈ g, isIdent c) {front : List Text}
    (hfront : ∀ l ∈ front, directive l = .blank) :
    Opening g (front ++ ["#ifndef ".toList ++ g, "#define ".toList ++ g]) := by
  have hdrop : g.dropWhile isSpace = g := by
    obtain ⟨c, rest, rfl⟩ := List.exists_cons_of_ne_nil hne
    refine List.dropWhile_cons_of_neg fun hspace => ?_
    have hc := hident c List.mem_cons_self
    rw [isIdent_of_isSpace hspace] at hc
    cases hc
  have htake : g.takeWhile isIdent = g := List.takeWhile_eq_self_iff.mpr hident
  have hrest : g.dropWhile isIdent = [] := List.dropWhile_eq_nil_iff.mpr hident
  have hifndef : directive ("#ifndef ".toList ++ g) = .ifndef g := by
    show directiveOf "ifndef".toList (g.dropWhile isSpace) = _
    rw [hdrop]
    show Directive.ifndef (g.takeWhile isIdent) = _
    rw [htake]
  have hdefine : directive ("#define ".toList ++ g) = .define g := by
    show directiveOf "define".toList (g.dropWhile isSpace) = _
    rw [hdrop, directiveOf, hrest]
    show Directive.define (g.takeWhile isIdent) = _
    rw [htake]
  exact ⟨front, _, [], _, rfl, by rwa [List.append_nil], hifndef, hdefine⟩

namespace Directory

variable {d : Directory File}

theorem Guarded.guard_ne_own {guard : File → Text} {own : Text} (h : d.Guarded guard own)
    (f : File) : guard f ≠ own := by
  obtain ⟨opening, body, closing, hls, hopening, -⟩ := h.wrapped f
  obtain ⟨front, ifndef, between, define, rfl, -, hifndef, -⟩ := hopening
  have hunused := h.own_unused f ifndef (by rw [hls]; simp)
  rw [hifndef] at hunused
  exact fun heq => hunused (congrArg some heq)

noncomputable def level (d : Directory File) (f : File) : ℕ :=
  {g | Relation.TransGen d.Includes g f}.ncard

theorem level_lt [Finite File] (h : d.Acyclic) {g f : File} (hg : d.Includes g f) :
    d.level g < d.level f := by
  refine Set.ncard_lt_ncard ⟨fun e he => Relation.TransGen.tail he hg, fun hsub => ?_⟩
    (Set.toFinite _)
  exact h g (hsub (Relation.TransGen.single hg))

theorem level_le [Finite File] (f : File) : d.level f ≤ Nat.card File :=
  Set.ncard_le_card _

end Directory

section Order

variable [DecidableEq File]

namespace Directory

/-- `arrive free (n, trace) line`: the line stands in a header reached at a place that is `free`, with
`n` conditionals of the header open before it, the first of which is its guard. -/
def arrive (d : Directory File) (reach : Bool → File → List (File × Bool) → List (File × Bool))
    (free : Bool) (p : ℕ × List (File × Bool)) (line : Text) : ℕ × List (File × Bool) :=
  ((directive line).depth p.1, (d.files.target line).elim p.2 fun f =>
    if f ∈ p.2.map Prod.fst then p.2 ++ [(f, free && p.1 == 1)]
    else reach (free && p.1 == 1) f (p.2 ++ [(f, free && p.1 == 1)]))

def reach (d : Directory File) : ℕ → Bool → File → List (File × Bool) → List (File × Bool)
  | 0, _, _, trace => trace
  | k + 1, free, f, trace => ((d.files.lines f).foldl (arrive d (reach d k) free) (0, trace)).2

def reachRoot (d : Directory File) (k : ℕ) (trace : List (File × Bool)) (root : Text) :
    List (File × Bool) :=
  if d.resolve root ∈ trace.map Prod.fst then trace ++ [(d.resolve root, true)]
  else d.reach k true (d.resolve root) (trace ++ [(d.resolve root, true)])

def reached (d : Directory File) (k : ℕ) (roots : List Text) : List (File × Bool) :=
  roots.foldl (d.reachRoot k) []

end Directory

/-- What is reached again was first reached at a free place. -/
def FirstFree (trace : List (File × Bool)) : Prop :=
  ∀ i (h : i < trace.length), List.lookup (trace.get ⟨i, h⟩).1 (trace.take i) ≠ some false

end Order

end Jmpxx.Amalgamate
