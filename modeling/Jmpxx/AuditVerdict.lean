import Jmpxx.AuditElf
import Jmpxx.AuditFrames
import Mathlib.Data.Char
import Mathlib.Data.List.Find
import Mathlib.Data.List.Lex

namespace Jmpxx.Audit

open Cursor

/-- The offset in the low 31 bits of a word, sign-extended. -/
def prel31 (word0 : ℕ) : ℤ :=
  let delta := word0 &&& 0x7FFFFFFF
  if delta &&& 0x40000000 ≠ 0 then (delta : ℤ) - 0x80000000 else delta

def readIndexEntry : Read (ℕ × ℕ) := do
  let word0 ← unsigned 4
  let word1 ← unsigned 4
  pure (word0, word1)

/-- `parse_arm_exidx`: a dictionary in the order it is filled. -/
def parseArmExidx (elf : Elf) : Except Error (List (ℤ × Bool)) :=
  match elf.sections ".ARM.exidx" with
  | none => .ok []
  | some sec =>
    if sec.data = [] then .ok []
    else (entryOffsets sec.data.length 8).mapM fun off => do
      let words ← readAt sec.data off readIndexEntry
      let here := sec.addr + off
      pure (here + prel31 words.1, decide (words.2 ≠ 1))

inductive TableFormat where
  | armExidx
  | dwarfEhFrame
  deriving DecidableEq, Repr

def tableFormat (exidx : List (ℤ × Bool)) (frames : List FrameInfo) : TableFormat :=
  if exidx ≠ [] ∧ frames = [] then .armExidx else .dwarfEhFrame

/-- What a record says of how its function unwinds. -/
inductive Detail where
  | index (unwindable : Bool)
  | frame (hasFrame lsda : Bool) (table : Option Lsda)
  deriving DecidableEq, Repr

structure FunctionRecord where
  symbol : List Char
  demangled : List Char
  address : ℕ
  detail : Detail
  hasCleanups : Bool
  deriving DecidableEq, Repr

def isCold (name : List Char) : Bool := decide (".cold".toList <:+: name)

def describe (elf : Elf) (frames : List FrameInfo) (exidx : List (ℤ × Bool))
    (pretty : List Char → Option (List Char)) (fmt : TableFormat) (sym : Symbol) :
    Except Error FunctionRecord :=
  let record := FunctionRecord.mk sym.name ((pretty sym.name).getD sym.name) sym.value
  match fmt with
  | .armExidx =>
    let unwindable := (exidx.reverse.lookup (sym.value : ℤ)).getD false
    pure (record (.index unwindable) unwindable)
  | .dwarfEhFrame =>
    -- of several frames at an address the dictionary keeps the last
    match frames.reverse.find? fun f => f.pcBegin = sym.value with
    | none => pure (record (.frame false false none) false)
    | some frame =>
      if frame.lsda = 0 then pure (record (.frame true false none) false)
      else do
        let (lsda, _) ← parseLsda elf frame.lsda frame.pcBegin
        pure (record (.frame true true (some lsda)) (decide (lsda.cleanupSites ≠ 0)))

structure Check where
  required : List Char
  matched : ℕ
  withCleanups : ℕ
  ok : Bool
  carrying : List (List Char)
  without : List (List Char)

/-- `sorted`, by code points. -/
def sorted (names : List (List Char)) : List (List Char) :=
  names.mergeSort fun a b => decide (a ≤ b)

def FunctionRecord.Matches (want : List Char) (f : FunctionRecord) : Prop :=
  want <:+: f.symbol ∨ want <:+: f.demangled

instance (want : List Char) (f : FunctionRecord) : Decidable (f.Matches want) := by
  unfold FunctionRecord.Matches
  infer_instance

def check (functions : List FunctionRecord) (want : List Char) : Check :=
  let found := functions.filter fun f => decide (f.Matches want)
  let withCleanups := found.filter (·.hasCleanups)
  { required := want
    matched := found.length
    withCleanups := withCleanups.length
    ok := !withCleanups.isEmpty
    carrying := sorted (withCleanups.map (·.demangled))
    without := sorted ((found.filter fun f => !f.hasCleanups).map (·.demangled)) }

structure Report where
  binary : String
  format : TableFormat
  frames : ℕ
  functionsWithCleanups : ℕ
  cleanupFunctions : List (List Char)
  checks : List Check
  verdict : String

/-- What `audit` returns, of the functions it has looked at. -/
def report (path : String) (fmt : TableFormat) (frames : List FrameInfo)
    (functions : List FunctionRecord) (required : List (List Char)) : Report :=
  let checks := required.map (check functions)
  { binary := path
    format := fmt
    frames := frames.length
    functionsWithCleanups := functions.countP (·.hasCleanups)
    cleanupFunctions := sorted ((functions.filter (·.hasCleanups)).map (·.demangled))
    checks := checks
    verdict := if checks.all (·.ok) then "pass" else "fail" }

/-- `audit`, of a file's bytes. `demangle` makes the dictionary that the external filter's answer
comes down to. -/
def audit (demangle : List (List Char) → List Char → Option (List Char)) (path : String)
    (raw : List UInt8) (required : List (List Char)) : Except Error Report := do
  let elf ← Elf.init path raw
  let frames ← parseEhFrame elf.toElf
  let exidx ← parseArmExidx elf.toElf
  let fmt := tableFormat exidx frames
  let pretty := demangle (elf.symbols.map (·.name))
  let functions ← (elf.symbols.filter fun s => !isCold s.name).mapM
    (describe elf.toElf frames exidx pretty fmt)
  pure (report path fmt frames functions required)

/-- The exit status of `main`; what is raised and not caught ends it with 1. -/
def exitStatus (rep : Except Error Report) : ℕ :=
  match rep with
  | .ok rep => if rep.verdict = "pass" then 0 else 1
  | .error _ => 1

/-- The call sites have a cleanup among them: a landing pad without an action. -/
def Table.CleansUp {size : ℕ} (t : Table size) : Prop :=
  ∃ s ∈ t.sites, s.pad.value ≠ 0 ∧ s.action.value = 0

/-- The frame entries of a file and the exception tables its frames may lead to. -/
structure Unwinding {is64 : Bool} (f : File is64) where
  part : Part is64
  named : f.part ".eh_frame" = some part
  entries : Entries (wordSize is64) [] 0
  stop : List UInt8
  stops : IsStop stop
  held : part.data = entries.bytes ++ stop
  tables : List (ℕ × Table (wordSize is64))
  laid : ∀ e ∈ tables, ∃ g, f.part ".gcc_except_table" = some g ∧
    ∃ before after, g.data = before ++ e.2.bytes ++ after ∧ e.1 = g.addr + before.length

namespace Unwinding

variable {is64 : Bool} {f : File is64} (u : Unwinding f) (loaded : ℕ → ℕ)

/-- Each frame is one the audit can follow, to a table that is there. -/
structure Sound : Prop where
  plain : ∀ p ∈ u.entries.placed, p.Plain u.part.addr loaded
  tables : ∀ p ∈ u.entries.placed, ∀ a ∈ p.table u.part.addr loaded, ∃ t, (a, t) ∈ u.tables

def frame (address : ℕ) : Option (Placed (wordSize is64)) :=
  u.entries.placed.reverse.find? fun p => p.start u.part.addr loaded = address

/-- The function's frame has a table, and a call site in it a cleanup. -/
def Cleans (s : Symbol) : Prop :=
  ∃ p ∈ u.frame loaded s.value, ∃ a ∈ p.table u.part.addr loaded,
    ∃ t, (a, t) ∈ u.tables ∧ t.CleansUp

end Unwinding

/-- No function has a frame entry: there is no frame section, or it has none in it. -/
def Frameless {is64 : Bool} (f : File is64) : Prop :=
  ∀ p, f.part ".eh_frame" = some p → ∃ (e : Entries (wordSize is64) [] 0) (stop : List UInt8),
    IsStop stop ∧ p.data = e.bytes ++ stop ∧ e.placed = []

/-- An entry of the index: the function it is of, and how that unwinds. The top bit of its first
word is no part of the offset to the function. -/
structure IndexEntry where
  function : ℕ
  top : Bool
  word1 : ℕ
  short : word1 < 256 ^ 4

namespace IndexEntry

variable (here : ℕ) (e : IndexEntry)

def offset : ℤ := e.function - here

def bytes : List UInt8 :=
  littleEndian 4 ((e.offset here % 2 ^ 31).toNat + if e.top then 2 ^ 31 else 0) ++
    littleEndian 4 e.word1

def Near : Prop := -2 ^ 30 ≤ e.offset here ∧ e.offset here < 2 ^ 30

end IndexEntry

def indexBytes : ℕ → List IndexEntry → List UInt8
  | _, [] => []
  | here, e :: entries => e.bytes here ++ indexBytes (here + 8) entries

/-- The index of a file, and whatever less than an entry there is behind it. -/
structure Index {is64 : Bool} (f : File is64) where
  part : Part is64
  named : f.part ".ARM.exidx" = some part
  entries : List IndexEntry
  rest : List UInt8
  held : part.data = indexBytes part.addr entries ++ rest
  less : rest.length < 8
  near : ∀ (i : ℕ) (e : IndexEntry), entries[i]? = some e → e.Near (part.addr + i * 8)

/-- The function's entry, of several the last, is not the marker that it cannot unwind. -/
def Index.Unwinds {is64 : Bool} {f : File is64} (x : Index f) (s : Symbol) : Prop :=
  ∃ e ∈ x.entries.reverse.find? fun e => e.function = s.value, e.word1 ≠ 1

def Names (pretty : List Char → Option (List Char)) (want : List Char) (s : Symbol) : Prop :=
  want <:+: s.name ∨ want <:+: (pretty s.name).getD s.name

section Checks

variable {functions : List FunctionRecord} {symbols : List Symbol}
variable {pretty : List Char → Option (List Char)} {clean : Symbol → Prop}

/-- The record is that of the symbol, and says whether its function cleans up. -/
structure Describes (pretty : List Char → Option (List Char)) (clean : Symbol → Prop) (s : Symbol)
    (r : FunctionRecord) : Prop where
  symbol : r.symbol = s.name
  demangled : r.demangled = (pretty s.name).getD s.name
  clean : r.hasCleanups = true ↔ clean s

theorem check_ok_iff (want : List Char) :
    (check functions want).ok = true ↔ ∃ r ∈ functions, r.Matches want ∧ r.hasCleanups = true := by
  simp only [check, Bool.not_eq_true', List.isEmpty_eq_false_iff_exists_mem, List.mem_filter,
    decide_eq_true_eq, and_assoc]

/-- Every name that is asked for is found exactly when each is that of a function that cleans up. -/
theorem checks_ok_iff (h : List.Forall₂ (Describes pretty clean) symbols functions)
    (required : List (List Char)) :
    (required.map (check functions)).all (·.ok) = true ↔
      ∀ want ∈ required, ∃ s ∈ symbols, Names pretty want s ∧ clean s := by
  rw [List.all_map, List.all_eq_true]
  refine forall₂_congr fun want _ => ?_
  rw [Function.comp_apply, check_ok_iff]
  induction h with
  | nil => simp
  | @cons s r symbols functions hs _ ih =>
    simp only [List.exists_mem_cons_iff, ih]
    refine or_congr ?_ Iff.rfl
    rw [FunctionRecord.Matches, Names, hs.symbol, hs.demangled, hs.clean]

end Checks

section Index

variable {data : List UInt8} {offset : ℕ} {r : Reader}

/-- Any four bytes are read as some word. -/
theorem reads_word_of_length {xs : List UInt8} (h : xs.length = 4) :
    ∃ v, Reads (unsigned 4) r xs v := by
  have hread := @reads_fixed r xs false (by rw [h]; decide)
  rw [h] at hread
  exact ⟨_, hread.andPure Int.toNat⟩

theorem readIndexEntry_ok (h : offset + 8 ≤ data.length) :
    ∃ words, readAt data offset readIndexEntry = .ok words := by
  have hlen : (slice data offset 8).length = 8 := by
    rw [slice, List.length_take, List.length_drop]
    omega
  have hsplit := List.take_append_drop 4 (slice data offset 8)
  have hholds : Holds data offset
      ((slice data offset 8).take 4 ++ (slice data offset 8).drop 4) := by
    rw [hsplit]
    exact List.take_prefix _ _
  obtain ⟨v, hv⟩ := @reads_word_of_length ⟨data, 0, offset⟩ ((slice data offset 8).take 4)
    (by rw [List.length_take, hlen]; rfl)
  obtain ⟨w, hw⟩ := @reads_word_of_length
    ((Cursor.mk data 0 offset).skip ((slice data offset 8).take 4).length)
    ((slice data offset 8).drop 4) (by rw [List.length_drop, hlen])
  exact ⟨(v, w), readAt_of_holds hholds (hv.bind (hw.andPure fun w => (v, w)))⟩

/-- The index is decoded whatever its section holds: no entry reaches past the end. -/
theorem parseArmExidx_ok (elf : Elf) : ∃ exidx, parseArmExidx elf = .ok exidx := by
  unfold parseArmExidx
  cases elf.sections ".ARM.exidx" with
  | none => exact ⟨[], rfl⟩
  | some sec =>
    show ∃ exidx, (if sec.data = [] then _ else _) = _
    split_ifs with hempty
    · exact ⟨[], rfl⟩
    · obtain ⟨exidx, hexidx, -⟩ := Fallible.exists_mapM_eq_ok (R := fun _ _ => True)
        (f := fun off => do
          let words ← readAt sec.data off readIndexEntry
          let here := sec.addr + off
          pure ((here : ℤ) + prel31 words.1, decide (words.2 ≠ 1)))
        (l := entryOffsets sec.data.length 8) fun off hoff => by
          have hinside : off + 8 ≤ sec.data.length := by
            obtain ⟨i, hi, rfl⟩ := List.mem_map.mp hoff
            have hcount := List.mem_range.mp hi
            omega
          obtain ⟨words, hwords⟩ := readIndexEntry_ok hinside
          exact ⟨_, Fallible.bind_eq_ok.mpr ⟨words, hwords, rfl⟩, trivial⟩
      exact ⟨exidx, hexidx⟩

theorem prel31_of_offset {d : ℤ} (hlow : -2 ^ 30 ≤ d) (hhigh : d < 2 ^ 30) (top : Bool) :
    prel31 ((d % 2 ^ 31).toNat + if top then 2 ^ 31 else 0) = d := by
  have hword : ((d % 2 ^ 31).toNat + if top then 2 ^ 31 else 0) &&& 0x7FFFFFFF =
      (d % 2 ^ 31).toNat := by
    rw [show 0x7FFFFFFF = 2 ^ 31 - 1 by rfl, Nat.and_two_pow_sub_one_eq_mod]
    split_ifs <;> omega
  have hsign : (d % 2 ^ 31).toNat &&& 0x40000000 ≠ 0 ↔ d < 0 := by
    rw [show 0x40000000 = 2 ^ 30 by rfl, Nat.and_two_pow, Nat.testBit_eq_decide_div_mod_eq]
    by_cases hneg : d < 0
    · have hone : (d % 2 ^ 31).toNat / 2 ^ 30 % 2 = 1 := by omega
      rw [hone]
      simp [hneg]
    · have hzero : (d % 2 ^ 31).toNat / 2 ^ 30 % 2 = 0 := by omega
      rw [hzero]
      simp [hneg]
  unfold prel31
  rw [hword]
  show (if _ then _ else _) = d
  split_ifs with h
  · have hneg := hsign.mp h
    show ((d % 2 ^ 31).toNat : ℤ) - 0x80000000 = d
    omega
  · have hpos := mt hsign.mpr h
    show ((d % 2 ^ 31).toNat : ℤ) = d
    omega

theorem IndexEntry.reads {here : ℕ} {e : IndexEntry} :
    Reads readIndexEntry r (e.bytes here)
      ((e.offset here % 2 ^ 31).toNat + if e.top then 2 ^ 31 else 0, e.word1) := by
  unfold readIndexEntry IndexEntry.bytes
  refine (reads_unsigned (by decide) ?_).bind ?_
  · have hlow : (e.offset here % 2 ^ 31).toNat < 2 ^ 31 := by omega
    split_ifs <;> omega
  · exact (reads_unsigned (by decide) e.short).andPure fun word1 => (_, word1)

theorem length_indexBytes (here : ℕ) (entries : List IndexEntry) :
    (indexBytes here entries).length = entries.length * 8 := by
  induction entries generalizing here with
  | nil => rfl
  | cons e entries ih =>
    rw [indexBytes, List.length_append, ih, IndexEntry.bytes, List.length_append,
      length_littleEndian, length_littleEndian, List.length_cons]
    omega

theorem holds_index {here : ℕ} {entries : List IndexEntry} {i : ℕ} {e : IndexEntry}
    (h : entries[i]? = some e) (rest : List UInt8) :
    Holds (indexBytes here entries ++ rest) (i * 8) (e.bytes (here + i * 8)) := by
  induction entries generalizing here i with
  | nil => simp at h
  | cons e' entries ih =>
    have hlen : (e'.bytes here).length = 8 := by
      rw [IndexEntry.bytes, List.length_append, length_littleEndian, length_littleEndian]
    cases i with
    | zero =>
      obtain rfl : e' = e := by simpa using h
      rw [indexBytes, List.append_assoc]
      exact List.prefix_append _ _
    | succ i =>
      have hrest : Holds (indexBytes (here + 8) entries ++ rest) (i * 8)
          (e.bytes (here + 8 + i * 8)) := ih (by simpa using h)
      unfold Holds at hrest ⊢
      rw [indexBytes, List.append_assoc, show (i + 1) * 8 = (e'.bytes here).length + i * 8 by omega,
        ← List.drop_drop, List.drop_left, show here + ((e'.bytes here).length + i * 8) =
          here + 8 + i * 8 by omega]
      exact hrest

/-- The index is decoded as the functions of its entries, and whether each can unwind. -/
theorem parseArmExidx_index {is64 : Bool} {f : File is64} (x : Index f) :
    parseArmExidx f.binary.toElf =
      .ok (x.entries.map fun e => ((e.function : ℤ), decide (e.word1 ≠ 1))) := by
  have hsec : f.binary.sections ".ARM.exidx" = some x.part.toSection :=
    congrArg (Option.map Part.toSection) x.named
  have hcount : x.part.data.length / 8 = x.entries.length := by
    have hless := x.less
    rw [x.held, List.length_append, length_indexBytes]
    omega
  unfold parseArmExidx
  rw [hsec]
  show (if x.part.data = [] then _ else (entryOffsets x.part.data.length 8).mapM _) = _
  split_ifs with hempty
  · have hnone : x.entries = [] := by
      rw [hempty] at hcount
      exact List.length_eq_zero_iff.mp hcount.symm
    rw [hnone]
    rfl
  · rw [entryOffsets, hcount, List.mapM_map, ← List.length_map fun e : IndexEntry =>
      ((e.function : ℤ), decide (e.word1 ≠ 1))]
    refine Fallible.mapM_range_eq_ok fun i decoded hi => ?_
    rw [List.getElem?_map, Option.map_eq_some_iff] at hi
    obtain ⟨e, he, rfl⟩ := hi
    have hnear := x.near i e he
    have hholds : Holds x.part.data (i * 8) (e.bytes (x.part.addr + i * 8)) :=
      x.held ▸ holds_index he x.rest
    refine Fallible.bind_eq_ok.mpr ⟨_, readAt_of_holds hholds IndexEntry.reads, ?_⟩
    refine congrArg Except.ok (Prod.ext ?_ rfl)
    show ((x.part.addr + i * 8 : ℕ) : ℤ) + prel31 _ = e.function
    rw [prel31_of_offset hnear.1 hnear.2, IndexEntry.offset]
    omega

theorem lookup_index (entries : List IndexEntry) (address : ℕ) :
    (entries.map fun e => ((e.function : ℤ), decide (e.word1 ≠ 1))).lookup (address : ℤ) =
      (entries.find? fun e => e.function = address).map fun e => decide (e.word1 ≠ 1) := by
  induction entries with
  | nil => rfl
  | cons e entries ih =>
    rw [List.map_cons, List.lookup_cons, List.find?_cons, ih]
    by_cases h : e.function = address
    · rw [h, beq_self_eq_true, decide_eq_true rfl]
      rfl
    · rw [beq_false_of_ne (by exact_mod_cast Ne.symm h), decide_eq_false h]

theorem Index.describe_index {is64 : Bool} {f : File is64} (x : Index f)
    (pretty : List Char → Option (List Char)) (s : Symbol) :
    ∃ r, describe f.binary.toElf []
      (x.entries.map fun e => ((e.function : ℤ), decide (e.word1 ≠ 1))) pretty
      (tableFormat (x.entries.map fun e => ((e.function : ℤ), decide (e.word1 ≠ 1))) []) s = .ok r ∧
        Describes pretty x.Unwinds s r := by
  unfold describe tableFormat
  by_cases hempty : x.entries = []
  · -- an index without entries leaves the format at frames, of which there are none
    rw [if_neg (by simp [hempty])]
    refine ⟨_, rfl, rfl, rfl, ?_⟩
    simp [Index.Unwinds, hempty]
  · rw [if_pos (by simp [hempty])]
    refine ⟨_, rfl, rfl, rfl, ?_⟩
    rw [← List.map_reverse, lookup_index, Index.Unwinds]
    cases x.entries.reverse.find? fun e => e.function = s.value with
    | none => simp
    | some e => simp

end Index

section Frames

variable {is64 : Bool} {f : File is64} {u : Unwinding f} {loaded : ℕ → ℕ}

theorem Table.cleansUp_iff {size : ℕ} {t : Table size} {here funcStart : ℕ} :
    (t.counted here funcStart).cleanupSites ≠ 0 ↔ t.CleansUp := by
  rw [Table.counted, Table.CleansUp]
  simp only [ne_eq, List.countP_eq_zero, decide_eq_true_eq, not_forall, not_not, exists_prop]

/-- A table of the file is decoded where it is. -/
theorem Unwinding.parseLsda_table {a : ℕ} {t : Table (wordSize is64)} (h : (a, t) ∈ u.tables)
    (funcStart : ℕ) :
    ∃ r, parseLsda f.binary.toElf a funcStart = .ok (t.counted a funcStart, r) := by
  obtain ⟨g, hg, before, after, hdata, ha⟩ := u.laid _ h
  change g.data = before ++ t.bytes ++ after at hdata
  obtain rfl : a = g.addr + before.length := ha
  have hsec : f.binary.sections ".gcc_except_table" = some g.toSection :=
    congrArg (Option.map Part.toSection) hg
  have hpos : 0 < t.bytes.length := by
    simp only [Table.bytes, List.length_append, List.length_singleton]
    omega
  have hheld := g.toSection.held
  have hinside : g.addr ≤ g.addr + before.length ∧
      g.addr + before.length < g.addr + g.size := by
    change g.data.length ≤ g.size at hheld
    rw [hdata, List.length_append, List.length_append] at hheld
    omega
  have hat : (Cursor.mk g.data g.addr before.length).At t.bytes := by
    refine ⟨after, ?_⟩
    rw [unread, hdata, List.append_assoc, List.drop_left]
  have hread := t.reads f.binary.ptrSize_mem funcStart hat
  refine ⟨some ((Cursor.mk g.data g.addr before.length).skip t.bytes.length), ?_⟩
  unfold parseLsda
  rw [hsec]
  show (if g.addr ≤ _ ∧ _ < g.addr + g.size then _ else _) = _
  rw [if_pos hinside, show g.toSection.addr = g.addr from rfl, Nat.add_sub_cancel_left]
  exact Fallible.bind_eq_ok.mpr ⟨_, hread, rfl⟩

/-- Looking an address up among the frames is looking for the last entry that starts there. -/
theorem Unwinding.find_frame (hs : u.Sound loaded) (address : ℕ) :
    (u.entries.placed.map (Placed.decoded u.part.addr)).reverse.find?
        (fun i => i.pcBegin = address) =
      (u.frame loaded address).map (Placed.decoded u.part.addr) := by
  have hstart : ∀ p ∈ u.entries.placed.reverse,
      (Placed.decoded u.part.addr p).pcBegin = p.start u.part.addr loaded := fun p hp =>
    (Placed.right_iff_plain.mpr (hs.plain p (List.mem_reverse.mp hp))).pcBegin
  rw [Unwinding.frame, ← List.map_reverse, List.find?_map]
  refine congrArg _ (List.find?_congr fun p hp => ?_)
  rw [Function.comp_apply, hstart p hp]

theorem Unwinding.describe_frame (hs : u.Sound loaded) (exidx : List (ℤ × Bool))
    (pretty : List Char → Option (List Char)) (s : Symbol) :
    ∃ r, describe f.binary.toElf (u.entries.placed.map (Placed.decoded u.part.addr)) exidx pretty
      .dwarfEhFrame s = .ok r ∧ Describes pretty (u.Cleans loaded) s r := by
  have hfind := u.find_frame hs s.value
  unfold describe
  simp only [hfind]
  cases hframe : u.frame loaded s.value with
  | none =>
    refine ⟨_, rfl, rfl, rfl, ?_⟩
    simp [Unwinding.Cleans, hframe]
  | some p =>
    have hmem : p ∈ u.entries.placed := List.mem_reverse.mp (List.mem_of_find?_eq_some hframe)
    have hright := Placed.right_iff_plain.mpr (hs.plain p hmem)
    simp only [Option.map_some]
    cases htable : p.table u.part.addr loaded with
    | none =>
      rw [if_pos (hright.lsda_zero.mpr htable)]
      refine ⟨_, rfl, rfl, rfl, ?_⟩
      simp [Unwinding.Cleans, hframe, htable]
    | some a =>
      have hlsda := hright.lsda a htable
      rw [if_neg (by rw [hright.lsda_zero, htable]; exact Option.some_ne_none a), hlsda]
      obtain ⟨t, ht⟩ := hs.tables p hmem a htable
      obtain ⟨r, hr⟩ := u.parseLsda_table ht (p.decoded u.part.addr).pcBegin
      refine ⟨_, Fallible.bind_eq_ok.mpr ⟨_, hr, rfl⟩, rfl, rfl, ?_⟩
      rw [decide_eq_true_iff, Table.cleansUp_iff]
      constructor
      · intro hclean
        exact ⟨p, hframe, a, htable, t, ht, hclean⟩
      · rintro ⟨p', hp', a', ha', t', ht', hclean⟩
        obtain rfl : p = p' := Option.some.inj (hframe.symm.trans hp')
        obtain rfl : a = a' := Option.some.inj (htable.symm.trans ha')
        -- what is decoded at an address is one thing, whichever table is said to be there
        obtain ⟨r', hr'⟩ := u.parseLsda_table ht' (p.decoded u.part.addr).pcBegin
        have hsame := congrArg Prod.fst (Except.ok.inj (hr.symm.trans hr'))
        have hclean' := (@Table.cleansUp_iff _ t' a (p.decoded u.part.addr).pcBegin).mpr hclean
        rw [← show t.counted a _ = t'.counted a _ from hsame] at hclean'
        exact Table.cleansUp_iff.mp hclean'

end Frames

section Verdict

variable {is64 : Bool} {f : File is64} {raw : List UInt8}
variable {demangle : List (List Char) → List Char → Option (List Char)}

/-- The names the demangled ones are looked up by. -/
def File.pretty (f : File is64) (demangle : List (List Char) → List Char → Option (List Char)) :
    List Char → Option (List Char) :=
  demangle (f.symbols.map (·.name))

def File.audited (f : File is64) : List Symbol := f.symbols.filter fun s => !isCold s.name

/-- What the audit reports, once the tables are decoded and each function's record is right. -/
theorem audit_of_described (h : Written f raw) {frames : List FrameInfo}
    {exidx : List (ℤ × Bool)} (hframes : parseEhFrame f.binary.toElf = .ok frames)
    (hexidx : parseArmExidx f.binary.toElf = .ok exidx) {clean : Symbol → Prop}
    (hdescribe : ∀ s ∈ f.audited, ∃ r, describe f.binary.toElf frames exidx (f.pretty demangle)
      (tableFormat exidx frames) s = .ok r ∧
        Describes (f.pretty demangle) clean s r)
    (path : String) (required : List (List Char)) :
    exitStatus (audit demangle path raw required) = 0 ↔
      ∀ want ∈ required, ∃ s ∈ f.audited, Names (f.pretty demangle) want s ∧ clean s := by
  obtain ⟨functions, hfunctions, hright⟩ := Fallible.exists_mapM_eq_ok hdescribe
  have haudit : audit demangle path raw required =
      .ok (report path (tableFormat exidx frames) frames functions required) := by
    refine Fallible.bind_eq_ok.mpr ⟨_, init_written h path, ?_⟩
    refine Fallible.bind_eq_ok.mpr ⟨_, hframes, ?_⟩
    refine Fallible.bind_eq_ok.mpr ⟨_, hexidx, ?_⟩
    exact Fallible.bind_eq_ok.mpr ⟨_, hfunctions, rfl⟩
  rw [haudit, ← checks_ok_iff hright]
  by_cases hall : (required.map (check functions)).all (·.ok) = true
  · simp [exitStatus, report, hall]
  · simp [exitStatus, report, hall]

/-- The audit of a binary with frame entries passes exactly when each name that is asked for is that
of a function whose frame leads to a table with a cleanup in it: from the bytes of the file, through
its sections, symbols, frame entries and tables, to the exit status. -/
theorem audit_passes_iff (h : Written f raw) (u : Unwinding f) {loaded : ℕ → ℕ}
    (hsound : u.Sound loaded) (hframes : u.entries.placed ≠ []) (path : String)
    (required : List (List Char)) :
    exitStatus (audit demangle path raw required) = 0 ↔
      ∀ want ∈ required, ∃ s ∈ f.audited,
        Names (f.pretty demangle) want s ∧ u.Cleans loaded s := by
  have hsec : f.binary.sections ".eh_frame" = some u.part.toSection :=
    congrArg (Option.map Part.toSection) u.named
  have hparse := @parseEhFrame_entries f.binary.toElf _ u.entries _ hsec u.stops u.held
  obtain ⟨exidx, hexidx⟩ := parseArmExidx_ok f.binary.toElf
  refine audit_of_described h hparse hexidx (fun s _ => ?_) path required
  rw [tableFormat, if_neg fun hnone => hframes (List.map_eq_nil_iff.mp hnone.2)]
  exact u.describe_frame hsound exidx (f.pretty demangle) s

/-- The audit of a binary with an index and no frame entries passes exactly when each name that is
asked for is that of a function whose entry is not the marker. -/
theorem audit_index_passes_iff (h : Written f raw) (x : Index f)
    (hframes : Frameless f) (path : String)
    (required : List (List Char)) :
    exitStatus (audit demangle path raw required) = 0 ↔
      ∀ want ∈ required, ∃ s ∈ f.audited, Names (f.pretty demangle) want s ∧ x.Unwinds s := by
  have hparse : parseEhFrame f.binary.toElf = .ok [] := by
    cases hpart : f.part ".eh_frame" with
    | none =>
      have hsec : f.binary.sections ".eh_frame" = none := congrArg (Option.map Part.toSection) hpart
      rw [parseEhFrame, hsec]
    | some p =>
      obtain ⟨e, stop, hstop, hdata, hplaced⟩ := hframes p hpart
      have hsec : f.binary.sections ".eh_frame" = some p.toSection :=
        congrArg (Option.map Part.toSection) hpart
      have hnone : e.placed.map (Placed.decoded p.addr) = [] := by rw [hplaced]; rfl
      exact (@parseEhFrame_entries f.binary.toElf _ e _ hsec hstop hdata).trans
        (congrArg Except.ok hnone)
  exact audit_of_described h hparse (parseArmExidx_index x)
    (fun s _ => x.describe_index (f.pretty demangle) s) path required

end Verdict

def unmangled (names : List (List Char)) (name : List Char) : Option (List Char) :=
  names.find? (· = name)

def Small.unwinding : Index Small.file where
  part := Small.index
  named := by rfl
  entries := [⟨0x800, false, 1, by decide⟩, ⟨0x900, false, 0x80B0B0B0, by decide⟩]
  rest := []
  held := by decide
  less := by decide
  near := by
    intro i e h
    have hall : ∀ x ∈ ([⟨0x800, false, 1, by decide⟩, ⟨0x900, false, 0x80B0B0B0, by decide⟩] :
        List IndexEntry).zipIdx, -2 ^ 30 ≤ x.1.offset (0x1000 + x.2 * 8) ∧
          x.1.offset (0x1000 + x.2 * 8) < 2 ^ 30 := by decide
    exact hall (e, i) (List.mem_zipIdx_iff_getElem?.mpr h)

theorem audit_index_passes_small :
    exitStatus (audit unmangled "small" Small.raw ["run".toList]) = 0 := by
  refine (audit_index_passes_iff Small.written Small.unwinding (fun p hp => ?_) "small"
    ["run".toList]).mpr fun want hwant => ?_
  · have hnone : Small.file.part ".eh_frame" = none := by rfl
    rw [hnone] at hp
    cases hp
  · obtain rfl := List.mem_singleton.mp hwant
    exact ⟨⟨"run".toList, 0x900, 32⟩, by decide, .inl (by decide),
      ⟨0x900, false, 0x80B0B0B0, by decide⟩, rfl, by decide⟩

namespace Large

def names : Part true where
  name := ascii ".shstrtab"
  legible := Small.names.legible
  nameAt := 1
  stype := 3
  flags := 0
  addr := 0
  offset := 64
  size := 55
  data := [0] ++ ascii ".shstrtab" ++ [0] ++ ascii ".eh_frame" ++ [0] ++
    ascii ".gcc_except_table" ++ [0] ++ ascii ".symtab" ++ [0] ++ ascii ".strtab" ++ [0]
  full := by decide
  short := Small.names.short
  fits := by decide

def frames : Part true where
  name := ascii ".eh_frame"
  legible := by decide
  nameAt := 11
  stype := 1
  flags := 2
  addr := 0x1000
  offset := 119
  size := 48
  data := (oneFunction farPointer).bytes ++ word 0
  full := by decide
  short := by decide
  fits := by decide

def tables : Part true where
  name := ascii ".gcc_except_table"
  legible := by decide
  nameAt := 21
  stype := 1
  flags := 2
  addr := 0x3000
  offset := 167
  size := 41
  data := twoSites.bytes
  full := by decide
  short := by decide
  fits := by decide

def serveSymbol : Entry true where
  name := ascii "serve"
  legible := by decide
  nameAt := 1
  info := 0x12
  other := 0
  shndx := 1
  value := 0x400
  size := 16
  short := Small.runSymbol.short
  fits := by decide

def symtab : Part true where
  name := ascii ".symtab"
  legible := Small.symtab.legible
  nameAt := 39
  stype := 2
  flags := 0
  addr := 0
  offset := 208
  size := 24
  data := serveSymbol.bytes
  full := by decide
  short := by decide
  fits := by decide

def strtab : Part true where
  name := ascii ".strtab"
  legible := Small.strtab.legible
  nameAt := 47
  stype := 3
  flags := 0
  addr := 0
  offset := 232
  size := 7
  data := [0] ++ ascii "serve" ++ [0]
  full := by decide
  short := by decide
  fits := by decide

def file : File true where
  cls := 2
  sized := rfl
  machine := 62
  headersAt := 239
  headerSize := 64
  parts := [names, frames, tables, symtab, strtab]
  strings := 0
  symtab := [serveSymbol]
  dynsym := []
  short := by decide
  fits := by decide

def raw : List UInt8 :=
  [0x7F, 0x45, 0x4C, 0x46, 2] ++ Small.zeros 13 ++ littleEndian 2 62 ++ Small.zeros 20 ++
    littleEndian 8 239 ++ Small.zeros 10 ++ littleEndian 2 64 ++ littleEndian 2 5 ++
    littleEndian 2 0 ++ (file.parts.flatMap (·.data)) ++
    file.parts.flatMap fun p => p.bytes ++ Small.zeros 24

theorem written : Written file raw where
  ident := by decide
  machine := by decide
  table := by decide
  shape := by decide
  headers := headers_of_zipIdx (by decide +kernel)
  contents := by decide
  names := ⟨names, rfl, by decide, by decide⟩
  symtab := by
    have htab : file.part ".symtab" = some symtab := by rfl
    have hstrtab : file.part ".strtab" = some strtab := by rfl
    rw [htab, hstrtab]
    exact ⟨⟨[], by decide, by decide⟩, by decide⟩
  dynsym := by
    intro h
    exact absurd h (by decide)

def unwinding : Unwinding file where
  part := frames
  named := by rfl
  entries := oneFunction farPointer
  stop := word 0
  stops := .inr ⟨[], (List.append_nil _).symm⟩
  held := rfl
  tables := [(0x3000, twoSites)]
  laid := by
    intro e he
    obtain rfl := List.mem_singleton.mp he
    exact ⟨tables, by rfl, [], [], (List.append_nil _).symm, rfl⟩

theorem sound : unwinding.Sound id where
  plain := by
    intro p hp
    obtain rfl := List.mem_singleton.mp hp
    refine ⟨fun _ => rfl, fun q hq h => ?_, fun _ _ _ _ => rfl⟩
    obtain rfl := Option.some.inj hq
    exact absurd h (by decide)
  tables := by
    intro p hp a ha
    obtain rfl := List.mem_singleton.mp hp
    exact ⟨twoSites, List.mem_singleton.mpr (congrArg (·, twoSites) (Option.some.inj ha).symm)⟩

end Large

theorem audit_passes_large :
    exitStatus (audit unmangled "large" Large.raw ["serve".toList]) = 0 ∧
      exitStatus (audit unmangled "large" Large.raw ["server".toList]) ≠ 0 := by
  have hiff := fun required => @audit_passes_iff _ _ _ unmangled Large.written
    Large.unwinding _ Large.sound (List.cons_ne_nil _ _) "large" required
  constructor
  · refine (hiff _).mpr fun want hwant => ?_
    obtain rfl := List.mem_singleton.mp hwant
    refine ⟨⟨"serve".toList, 0x400, 16⟩, by decide, .inl (by decide), _, rfl, 0x3000, rfl,
      twoSites, List.mem_singleton.mpr rfl, ?_⟩
    exact ⟨_, List.mem_cons_self, by decide, by decide⟩
  · intro h
    obtain ⟨s, hs, hnames, -⟩ := (hiff _).mp h _ (List.mem_singleton.mpr rfl)
    obtain rfl := List.mem_singleton.mp (show s ∈ [⟨"serve".toList, 0x400, 16⟩] from hs)
    exact absurd hnames (by unfold Names; decide)

end Jmpxx.Audit
