import Mathlib.Data.List.Infix
import Mathlib.Data.List.TakeWhile
import Mathlib.Data.Set.Defs

namespace Preprocessor

abbrev Text := List Char

def isSpace (c : Char) : Bool := c ∈ [' ', '\t', '\n', '\r', '\x0b', '\x0c']

def isIdent (c : Char) : Bool := c.isAlphanum || c = '_'

inductive Directive
  | blank
  | text
  | ifdef (name : Text)
  | ifndef (name : Text)
  | cond (condition : Text)
  | elif (condition : Text)
  | otherwise
  | endif
  | define (name : Text)
  | undef (name : Text)
  | include_ (target : Text)
  deriving DecidableEq

/-- The character that ends a header name, by the one it begins with. -/
def closer (c : Char) : Option Char :=
  if c = '<' then some '>' else if c = '"' then some '"' else none

/-- What an `#include` names; an include spelt by a macro is passed on. -/
def includeDirective (s : Text) : Directive :=
  match s.head?.bind closer with
  | none => .text
  | some close =>
    if s.tail.takeWhile (· ≠ close) ≠ [] ∧ close ∈ s.tail then
      .include_ (s.tail.takeWhile (· ≠ close))
    else .text

/-- A directive by its name. A macro with a body is passed on with the other lines. -/
def directiveOf (word rest : Text) : Directive :=
  if word = "include".toList then includeDirective rest
  else if word = "ifdef".toList then .ifdef (rest.takeWhile isIdent)
  else if word = "ifndef".toList then .ifndef (rest.takeWhile isIdent)
  else if word = "if".toList then .cond rest
  else if word ∈ ["elif".toList, "elifdef".toList, "elifndef".toList] then .elif (word ++ rest)
  else if word = "else".toList then .otherwise
  else if word = "endif".toList then .endif
  else if word = "undef".toList then .undef (rest.takeWhile isIdent)
  else if word = "define".toList ∧ (rest.dropWhile isIdent).all isSpace then
    .define (rest.takeWhile isIdent)
  else .text

/-- A logical line as a directive: its name, and what follows that. -/
def directive (line : Text) : Directive :=
  if (line.dropWhile isSpace).head? = some '#' then
    directiveOf (((line.dropWhile isSpace).tail.dropWhile isSpace).takeWhile isIdent)
      ((((line.dropWhile isSpace).tail.dropWhile isSpace).dropWhile isIdent).dropWhile isSpace)
  else if line.all isSpace then .blank else .text

example : directive "  # include <a/b.hpp>  ".toList = .include_ "a/b.hpp".toList := by decide

/-- A conditional that is open: whether a branch of it was taken, and whether it is taken now. -/
structure Frame where
  taken : Bool
  now : Bool
  deriving DecidableEq

/-- The macros without a body, the lines passed on, the open conditionals from the inside out. -/
structure State where
  defined : List Text := []
  out : List Text := []
  frames : List Frame := []
  deriving DecidableEq

/-- What the headers do not say themselves: the value of a condition, and the macros that come from
elsewhere. Both may hang on the lines passed on so far. -/
structure Outside where
  holds : List Text → Text → Bool
  defines : List Text → Text → Bool

def State.active (s : State) : Bool := s.frames.all (·.now)

def State.emit (s : State) (line : Text) : State :=
  if s.active then { s with out := s.out ++ [line] } else s

def State.push (s : State) (v : Bool) : State :=
  { s with frames := (if s.active then ⟨v, v⟩ else ⟨true, false⟩) :: s.frames }

def Frame.elif (v : Bool) (f : Frame) : Frame := if f.taken then ⟨true, false⟩ else ⟨v, v⟩

def Frame.otherwise (f : Frame) : Frame := ⟨true, !f.taken⟩

def Outside.isDefined (o : Outside) (s : State) (name : Text) : Bool :=
  name ∈ s.defined || o.defines s.out name

def plain (o : Outside) (s : State) (line : Text) : State :=
  match directive line with
  | .blank => s
  | .text => s.emit line
  | .ifdef name => s.push (o.isDefined s name)
  | .ifndef name => s.push (!o.isDefined s name)
  | .cond condition => s.push (o.holds s.out condition)
  | .elif condition =>
    { s with frames := s.frames.modifyHead (Frame.elif (o.holds s.out condition)) }
  | .otherwise => { s with frames := s.frames.modifyHead Frame.otherwise }
  | .endif => { s with frames := s.frames.tail }
  | .define name => if s.active then { s with defined := name :: s.defined } else s
  | .undef name =>
    if s.active then
      { s with defined := s.defined.filter (· ≠ name), out := s.out ++ [line] }
    else s
  | .include_ _ => s.emit line

def Directive.included : Directive → Option Text
  | .include_ name => some name
  | _ => none

theorem Directive.mem_included {d : Directive} {name : Text} :
    name ∈ d.included ↔ d = .include_ name := by
  cases d <;> simp [included, eq_comm]

structure Files (File : Type*) where
  find : Text → Option File
  lines : File → List Text

variable {File : Type*}

def Files.target (fs : Files File) (line : Text) : Option File :=
  match directive line with
  | .include_ name => fs.find name
  | _ => none

def step (fs : Files File) (o : Outside) (enter : File → State → Option State) (s : State)
    (line : Text) : Option State :=
  if s.active then (fs.target line).elim (some (plain o s line)) (enter · s)
  else some (plain o s line)

def enter (fs : Files File) (o : Outside) : ℕ → File → State → Option State
  | 0, _, _ => none
  | k + 1, f, s => (fs.lines f).foldlM (step fs o (enter fs o k)) s

def preprocess (fs : Files File) (o : Outside) (k : ℕ) (lines : List Text) : Option State :=
  lines.foldlM (step fs o (enter fs o k)) {}

def Directive.opens : Directive → Bool
  | .ifdef _ | .ifndef _ | .cond _ => true
  | _ => false

/-- It belongs to a conditional that is open. -/
def Directive.within : Directive → Bool
  | .elif _ | .otherwise | .endif => true
  | _ => false

def Directive.depth (d : Directive) (n : ℕ) : ℕ :=
  if d.opens then n + 1 else if d = .endif then n - 1 else n

/-- Lines with `n` conditionals open before them, which they close, and no other. -/
def Closed : ℕ → List Text → Prop
  | n, [] => n = 0
  | n, line :: rest =>
    ((directive line).within → 0 < n) ∧ Closed ((directive line).depth n) rest

instance decidableClosed : ∀ n ls, Decidable (Closed n ls)
  | n, [] => inferInstanceAs (Decidable (n = 0))
  | n, line :: rest =>
    have := decidableClosed ((directive line).depth n) rest
    inferInstanceAs (Decidable (_ ∧ _))

theorem Directive.depth_add {d : Directive} {m : ℕ} (h : d.within → 0 < m) (n : ℕ) :
    d.depth (m + n) = d.depth m + n := by
  unfold Directive.depth
  split
  · omega
  · split
    · next hd =>
      have hpos := h (hd ▸ rfl)
      omega
    · rfl

theorem Closed.add {m n : ℕ} {a b : List Text} (ha : Closed m a) (hb : Closed n b) :
    Closed (m + n) (a ++ b) := by
  induction a generalizing m with
  | nil =>
    obtain rfl : m = 0 := ha
    rwa [Nat.zero_add]
  | cons line a ih =>
    refine ⟨fun h => Nat.add_pos_left (ha.1 h) n, ?_⟩
    rw [Directive.depth_add ha.1]
    exact ih ha.2

theorem Closed.blank_cons {n : ℕ} {line : Text} {ls : List Text} (h : Closed n ls)
    (hline : directive line = .blank) : Closed n (line :: ls) := by
  rw [Closed, hline]
  exact ⟨nofun, h⟩

theorem closed_of_blank {ls : List Text} (h : ∀ l ∈ ls, directive l = .blank) : Closed 0 ls := by
  induction ls with
  | nil => rfl
  | cons line rest ih =>
    exact (ih fun l hl => h l (List.mem_cons_of_mem _ hl)).blank_cons (h line List.mem_cons_self)

/-- The macro a line tests, defines or undefines. -/
def Directive.macroName : Directive → Option Text
  | .ifdef name | .ifndef name | .define name | .undef name => some name
  | _ => none

/-- The conditionals around stay as they are. -/
theorem plain_frames {o : Outside} {s : State} {line : Text} {inner base : List Frame}
    (hs : s.frames = inner ++ base) (h : (directive line).within → 0 < inner.length) :
    ∃ inner', (plain o s line).frames = inner' ++ base ∧
      inner'.length = (directive line).depth inner.length := by
  have hhead : ∀ g : Frame → Frame, 0 < inner.length →
      (inner ++ base).modifyHead g = inner.modifyHead g ++ base := by
    intro g hpos
    cases inner with
    | nil => exact absurd hpos (Nat.lt_irrefl 0)
    | cons f inner => rfl
  unfold plain
  rcases hd : directive line <;> rw [hd] at h <;> dsimp only
  case ifdef | ifndef | cond =>
    exact ⟨_ :: inner, by rw [State.push, hs]; rfl, rfl⟩
  case elif | otherwise =>
    exact ⟨_, by rw [hs, hhead _ (h rfl)], List.length_modifyHead⟩
  case endif =>
    exact ⟨inner.tail, by rw [hs, List.tail_append_of_ne_nil (List.length_pos_iff.mp (h rfl))],
      List.length_tail⟩
  case blank => exact ⟨inner, hs, rfl⟩
  case text | include_ =>
    exact ⟨inner, by rw [State.emit]; split <;> exact hs, rfl⟩
  case define | undef =>
    exact ⟨inner, by split <;> exact hs, rfl⟩

/-- A line that is skipped passes nothing on and defines nothing. -/
theorem plain_inactive {o : Outside} {s : State} (hs : s.active = false) (line : Text) :
    plain o s line = { s with frames := (plain o s line).frames } := by
  unfold plain
  cases directive line <;> simp [State.push, State.emit, hs]

theorem step_inactive (fs : Files File) (o : Outside) (e : File → State → Option State) {s : State}
    (hs : s.active = false) (line : Text) : step fs o e s line = some (plain o s line) := by
  rw [step, hs]
  rfl

theorem active_eq {s : State} {inner base : List Frame} (hs : s.frames = inner ++ base) :
    s.active = (inner.all (·.now) && base.all (·.now)) := by
  rw [State.active, hs, List.all_append]

theorem step_of_target {fs : Files File} {l : Text} {g : File} (h : fs.target l = some g) (o : Outside)
    (e : File → State → Option State) {s : State} (hs : s.active) : step fs o e s l = e g s := by
  rw [step, if_pos hs, h]
  rfl

theorem directive_of_target {fs : Files File} {l : Text} {g : File} (h : fs.target l = some g) :
    ∃ name, directive l = .include_ name := by
  unfold Files.target at h
  split at h
  · next name hd => exact ⟨name, hd⟩
  · cases h

theorem step_skipped {fs : Files File} {l : Text} {g : File} (h : fs.target l = some g) (o : Outside)
    (e : File → State → Option State) {s : State} (hs : s.active = false) :
    step fs o e s l = some s := by
  obtain ⟨name, hd⟩ := directive_of_target h
  rw [step_inactive fs o e hs, plain, hd]
  show some (s.emit l) = _
  rw [State.emit, if_neg (by simp [hs])]

/-- Where nothing is active, lines come and go up to where their conditionals are closed. -/
theorem skip (fs : Files File) (o : Outside) (e : File → State → Option State) {ls : List Text}
    {s : State} {inner base : List Frame} (hs : s.frames = inner ++ base)
    (hbase : base.all (·.now) = false) (h : Closed inner.length ls) :
    ls.foldlM (step fs o e) s = some { s with frames := base } := by
  induction ls generalizing s inner with
  | nil =>
    obtain rfl := List.length_eq_zero_iff.mp h
    rw [List.nil_append] at hs
    rw [← hs]
    rfl
  | cons line rest ih =>
    have hoff : s.active = false := by rw [active_eq hs, hbase, Bool.and_false]
    obtain ⟨inner', hframes, hlen⟩ := @plain_frames o s line inner base hs h.1
    rw [List.foldlM_cons, step_inactive fs o e hoff line]
    show rest.foldlM _ (plain o s line) = _
    rw [ih hframes (hlen ▸ h.2), plain_inactive hoff line]

theorem foldlM_step_of_no_target {fs : Files File} {ls : List Text}
    (h : ∀ l ∈ ls, fs.target l = none) (o : Outside) (e : File → State → Option State) (s : State) :
    ls.foldlM (step fs o e) s = some (ls.foldl (plain o) s) := by
  induction ls generalizing s with
  | nil => rfl
  | cons line rest ih =>
    have hstep : step fs o e s line = some (plain o s line) := by
      rw [step, h line List.mem_cons_self]
      split <;> rfl
    rw [List.foldlM_cons, hstep, List.foldl_cons]
    exact ih (fun l hl => h l (List.mem_cons_of_mem _ hl)) (plain o s line)

theorem foldl_plain_of_blank {ls : List Text} (h : ∀ l ∈ ls, directive l = .blank) (o : Outside)
    (s : State) : ls.foldl (plain o) s = s := by
  induction ls with
  | nil => rfl
  | cons line rest ih =>
    rw [List.foldl_cons, plain, h line List.mem_cons_self]
    exact ih fun l hl => h l (List.mem_cons_of_mem _ hl)

theorem plain_defined {o : Outside} {line g : Text} (hdef : directive line ≠ .define g)
    (hundef : directive line ≠ .undef g) (s : State) :
    g ∈ (plain o s line).defined ↔ g ∈ s.defined := by
  unfold plain
  rcases hd : directive line <;> rw [hd] at hdef hundef
  case define name =>
    have hne : g ≠ name := fun h => hdef (h ▸ rfl)
    dsimp only
    split
    · simp [hne]
    · rfl
  case undef name =>
    have hne : g ≠ name := fun h => hundef (h ▸ rfl)
    dsimp only
    split
    · simp [hne]
    · rfl
  case text | include_ =>
    dsimp only
    rw [State.emit]
    split <;> rfl
  all_goals rfl

def State.under (own : Text) (s : State) : State :=
  { defined := s.defined ++ [own], out := s.out, frames := s.frames ++ [⟨true, true⟩] }

@[simp] theorem active_under (own : Text) (s : State) : (s.under own).active = s.active := by
  simp [State.active, State.under]

theorem push_under (own : Text) (s : State) (v : Bool) :
    (s.under own).push v = (s.push v).under own := by
  rw [State.push, active_under]
  rfl

theorem emit_under (own : Text) (s : State) (line : Text) :
    (s.under own).emit line = (s.emit line).under own := by
  rw [State.emit, State.emit, active_under]
  split <;> rfl

theorem isDefined_under {own name : Text} (h : name ≠ own) (o : Outside) (s : State) :
    o.isDefined (s.under own) name = o.isDefined s name := by
  simp [Outside.isDefined, State.under, h]

/-- A line that neither names the guard nor closes it does the same inside. -/
theorem plain_under {o : Outside} {own line : Text} {s : State}
    (hname : (directive line).macroName ≠ some own)
    (hframes : (directive line).within → s.frames ≠ []) :
    plain o (s.under own) line = (plain o s line).under own := by
  have hhead : ∀ g : Frame → Frame, s.frames ≠ [] →
      (s.frames ++ [Frame.mk true true]).modifyHead g = s.frames.modifyHead g ++ [⟨true, true⟩] := by
    intro g hne
    obtain ⟨f, fs, hf⟩ := List.exists_cons_of_ne_nil hne
    rw [hf]
    rfl
  unfold plain
  rcases hd : directive line with _ | _ | name | name | c | c | _ | _ | name | name | n <;>
    rw [hd] at hname hframes <;> dsimp only
  case ifdef | ifndef =>
    have hne : name ≠ own := fun h => hname (congrArg some h)
    rw [isDefined_under hne, push_under]
  case cond => exact push_under own s _
  case text | include_ => exact emit_under own s line
  case elif | otherwise =>
    rw [State.under, hhead _ (hframes rfl)]
    rfl
  case endif =>
    rw [State.under, List.tail_append_of_ne_nil (hframes rfl)]
    rfl
  case define =>
    rw [active_under]
    split <;> rfl
  case undef =>
    have hne : own ≠ name := fun h => hname (h ▸ rfl)
    rw [active_under]
    split
    · simp [State.under, hne]
    · rfl

def Opening (g : Text) (ls : List Text) : Prop :=
  ∃ front ifndef between define, ls = front ++ ifndef :: (between ++ [define]) ∧
    (∀ l ∈ front ++ between, directive l = .blank) ∧ directive ifndef = .ifndef g ∧
    directive define = .define g

def Closing (ls : List Text) : Prop :=
  ∃ endif back, ls = endif :: back ∧ directive endif = .endif ∧ ∀ l ∈ back, directive l = .blank

/-- Lines wholly wrapped in the guard `g`, with nothing inside that defines or undefines a guard. -/
def Wrapped (guards : Set Text) (g : Text) (ls : List Text) : Prop :=
  ∃ opening body closing, ls = opening ++ (body ++ closing) ∧ Opening g opening ∧
    Closing closing ∧ Closed 0 body ∧
    ∀ l ∈ body, ∀ m ∈ guards, directive l ≠ .define m ∧ directive l ≠ .undef m

theorem target_eq_none {fs : Files File} {l : Text} (h : ∀ name, directive l ≠ .include_ name) :
    fs.target l = none := by
  unfold Files.target
  split
  · next name hd => exact absurd hd (h name)
  · rfl

theorem target_of_blank {fs : Files File} {l : Text} (h : directive l = .blank) :
    fs.target l = none :=
  target_eq_none fun name hname => by rw [h] at hname; cases hname

/-- The lines of an opening: blank ones, the test and the definition. -/
theorem Opening.directive_mem {g : Text} {ls : List Text} (h : Opening g ls) {l : Text}
    (hl : l ∈ ls) : directive l = .blank ∨ directive l = .ifndef g ∨ directive l = .define g := by
  obtain ⟨front, ifndef, between, define, rfl, hblank, hifndef, hdefine⟩ := h
  rcases List.mem_append.mp hl with hl | hl
  · exact .inl (hblank l (List.mem_append_left _ hl))
  · rcases List.mem_cons.mp hl with rfl | hl
    · exact .inr (.inl hifndef)
    · rcases List.mem_append.mp hl with hl | hl
      · exact .inl (hblank l (List.mem_append_right _ hl))
      · rw [List.mem_singleton.mp hl]
        exact .inr (.inr hdefine)

theorem Opening.no_target {fs : Files File} {g : Text} {ls : List Text} (h : Opening g ls) :
    ∀ l ∈ ls, fs.target l = none := by
  intro l hl
  refine target_eq_none fun name => ?_
  rcases h.directive_mem hl with hd | hd | hd <;> rw [hd] <;> exact nofun

theorem Closing.no_target {fs : Files File} {ls : List Text} (h : Closing ls) :
    ∀ l ∈ ls, fs.target l = none := by
  obtain ⟨endif, back, rfl, hendif, hback⟩ := h
  intro l hl
  rcases List.mem_cons.mp hl with rfl | hl
  · exact target_eq_none fun name hname => by rw [hendif] at hname; cases hname
  · exact target_of_blank (hback l hl)

theorem Opening.foldl_plain {o : Outside} {g : Text} {ls : List Text} (h : Opening g ls)
    (s : State) : ls.foldl (plain o) s =
      if (s.push !o.isDefined s g).active then
        { s.push !o.isDefined s g with defined := g :: s.defined }
      else s.push !o.isDefined s g := by
  obtain ⟨front, ifndef, between, define, rfl, hblank, hifndef, hdefine⟩ := h
  have hfront : ∀ l ∈ front, directive l = .blank := fun l hl =>
    hblank l (List.mem_append_left _ hl)
  have hbetween : ∀ l ∈ between, directive l = .blank := fun l hl =>
    hblank l (List.mem_append_right _ hl)
  have htest : plain o s ifndef = s.push !o.isDefined s g := by rw [plain, hifndef]
  rw [List.foldl_append, foldl_plain_of_blank hfront, List.foldl_cons, htest, List.foldl_append,
    foldl_plain_of_blank hbetween, List.foldl_cons, List.foldl_nil, plain, hdefine]
  rfl

theorem Closing.foldl_plain {o : Outside} {ls : List Text} (h : Closing ls) (s : State) :
    ls.foldl (plain o) s = { s with frames := s.frames.tail } := by
  obtain ⟨endif, back, rfl, hendif, hback⟩ := h
  rw [List.foldl_cons, foldl_plain_of_blank hback, plain, hendif]

theorem Opening.foldl_depth {g : Text} {ls : List Text} (h : Opening g ls) (n : ℕ) :
    ls.foldl (fun n l => (directive l).depth n) n = n + 1 := by
  obtain ⟨front, ifndef, between, define, rfl, hblank, hifndef, hdefine⟩ := h
  have hskip : ∀ (ls : List Text) (n : ℕ), (∀ l ∈ ls, directive l = .blank) →
      ls.foldl (fun n l => (directive l).depth n) n = n := by
    intro ls
    induction ls with
    | nil => exact fun _ _ => rfl
    | cons l ls ih =>
      intro n h
      rw [List.foldl_cons, h l List.mem_cons_self]
      exact ih n fun l' hl => h l' (List.mem_cons_of_mem l hl)
  rw [List.foldl_append, hskip front n fun l hl => hblank l (List.mem_append_left _ hl),
    List.foldl_cons, hifndef, List.foldl_append,
    hskip between _ fun l hl => hblank l (List.mem_append_right _ hl), List.foldl_cons, hdefine]
  rfl

theorem Opening.countP_define {g : Text} {ls : List Text} (h : Opening g ls) (m : Text) :
    ls.countP (directive · = .define m) = if g = m then 1 else 0 := by
  obtain ⟨front, ifndef, between, define, rfl, hblank, hifndef, hdefine⟩ := h
  have hnone : ∀ ls : List Text, (∀ l ∈ ls, directive l = .blank) →
      ls.countP (directive · = .define m) = 0 := fun ls hls =>
    List.countP_eq_zero.mpr fun l hl => by simp [hls l hl]
  rw [List.countP_append, hnone front fun l hl => hblank l (List.mem_append_left _ hl),
    List.countP_cons, List.countP_append,
    hnone between fun l hl => hblank l (List.mem_append_right _ hl)]
  simp [hifndef, hdefine]

theorem Closing.countP_define {ls : List Text} (h : Closing ls) (m : Text) :
    ls.countP (directive · = .define m) = 0 := by
  obtain ⟨endif, back, rfl, hendif, hback⟩ := h
  refine List.countP_eq_zero.mpr fun l hl => ?_
  rcases List.mem_cons.mp hl with rfl | hl
  · simp [hendif]
  · simp [hback l hl]

/-- Wrapped lines close what they open. -/
theorem Wrapped.closed_of {g : Text} {opening body closing : List Text} (ho : Opening g opening)
    (hc : Closing closing) (hbody : Closed 0 body) : Closed 0 (opening ++ (body ++ closing)) := by
  obtain ⟨front, ifndef, between, define, rfl, hblank, hifndef, hdefine⟩ := ho
  obtain ⟨endif, back, rfl, hendif, hback⟩ := hc
  have hclosing : Closed 1 (endif :: back) := by
    rw [Closed, hendif]
    exact ⟨fun _ => Nat.one_pos, closed_of_blank hback⟩
  have hdef : Closed 1 (define :: (body ++ endif :: back)) := by
    rw [Closed, hdefine]
    exact ⟨nofun, hbody.add hclosing⟩
  have hbetween : Closed 1 (between ++ define :: (body ++ endif :: back)) :=
    (closed_of_blank fun l hl => hblank l (List.mem_append_right _ hl)).add hdef
  have htest : Closed 0 (ifndef :: (between ++ define :: (body ++ endif :: back))) := by
    rw [Closed, hifndef]
    exact ⟨nofun, hbetween⟩
  rw [List.append_assoc, List.cons_append, List.append_assoc]
  exact (closed_of_blank fun l hl => hblank l (List.mem_append_left _ hl)).add htest

/-- A file whose guard is defined has nothing more to say. -/
theorem enter_again {fs : Files File} {o : Outside} {g : Text} {f : File} {guards : Set Text}
    (hw : Wrapped guards g (fs.lines f)) {s : State} (hg : g ∈ s.defined) (hs : s.active) (k : ℕ) :
    enter fs o (k + 1) f s = some s := by
  obtain ⟨opening, body, closing, hls, hopening, hclosing, hclosed, -⟩ := hw
  have hpush : s.push (!o.isDefined s g) = { s with frames := ⟨false, false⟩ :: s.frames } := by
    rw [State.push, if_pos hs]
    simp [Outside.isDefined, hg]
  rw [enter, hls, List.foldlM_append, foldlM_step_of_no_target hopening.no_target,
    hopening.foldl_plain, hpush, if_neg (by simp [State.active])]
  show List.foldlM _ _ _ = _
  rw [List.foldlM_append, @skip _ fs o _ body _ [] (⟨false, false⟩ :: s.frames) rfl rfl hclosed]
  show List.foldlM _ _ _ = _
  rw [foldlM_step_of_no_target hclosing.no_target, hclosing.foldl_plain]
  rfl

/-- The state inside the guard `g`. -/
def State.inside (g : Text) (s : State) : State :=
  { defined := g :: s.defined, out := s.out, frames := ⟨true, true⟩ :: s.frames }

theorem Opening.foldl_plain_first {o : Outside} {g : Text} {ls : List Text} (h : Opening g ls)
    {s : State} (hg : o.isDefined s g = false) (hs : s.active) :
    ls.foldl (plain o) s = s.inside g := by
  have hpush : s.push (!o.isDefined s g) = { s with frames := ⟨true, true⟩ :: s.frames } := by
    rw [State.push, if_pos hs, hg]
    rfl
  have hactive : State.active { s with frames := ⟨true, true⟩ :: s.frames } := hs
  rw [h.foldl_plain, hpush, if_pos hactive]
  rfl

/-- A file whose guard is not defined: what is inside it, with the guard defined. -/
theorem enter_first {fs : Files File} {o : Outside} {g : Text} {f : File}
    {opening body closing : List Text} (hls : fs.lines f = opening ++ (body ++ closing))
    (hopening : Opening g opening) (hclosing : Closing closing) {s s' : State}
    (hg : o.isDefined s g = false) (hs : s.active) {k : ℕ}
    (hbody : body.foldlM (step fs o (enter fs o k)) (s.inside g) = some s') :
    enter fs o (k + 1) f s = some { s' with frames := s'.frames.tail } := by
  rw [enter, hls, List.foldlM_append, foldlM_step_of_no_target hopening.no_target,
    hopening.foldl_plain_first hg hs]
  show List.foldlM _ _ _ = _
  rw [List.foldlM_append, hbody]
  show List.foldlM _ _ _ = _
  rw [foldlM_step_of_no_target hclosing.no_target, hclosing.foldl_plain]

theorem foldl_plain_wrapped {o : Outside} {g : Text} {opening closing : List Text}
    (hopening : Opening g opening) (hclosing : Closing closing) (body : List Text) {s : State}
    (hg : o.isDefined s g = false) (hs : s.active) :
    (opening ++ (body ++ closing)).foldl (plain o) s =
      { body.foldl (plain o) (s.inside g) with
        frames := (body.foldl (plain o) (s.inside g)).frames.tail } := by
  rw [List.foldl_append, hopening.foldl_plain_first hg hs, List.foldl_append, hclosing.foldl_plain]

/-- Two guards around a state, in either order. -/
theorem inside_under (g own : Text) (s : State) :
    (s.under own).inside g = (s.inside g).under own := rfl

end Preprocessor
