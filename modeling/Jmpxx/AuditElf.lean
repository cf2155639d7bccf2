import Jmpxx.AuditTable
import Jmpxx.Fallible
import Mathlib.Data.List.ReduceOption

namespace Jmpxx.Audit

open Cursor

variable {α : Type}

structure Symbol where
  name : List Char
  value : ℕ
  size : ℕ
  deriving DecidableEq, Repr

/-- A file as the audit keeps it. -/
structure Binary extends Elf where
  symbols : List Symbol

/-- An unsigned number of `struct.unpack_from`. -/
def unsigned (size : ℕ) : Read ℕ := do
  let v ← fixed size false
  pure v.toNat

def readAt (data : List UInt8) (offset : ℕ) (m : Read α) : Except Error α :=
  (m ⟨data, 0, offset⟩).map Prod.fst

def item (xs : List α) (i : ℕ) : Except Error α :=
  match xs[i]? with
  | some x => .ok x
  | none => .error .index

structure SectionHeader where
  name : ℕ
  stype : ℕ
  addr : ℕ
  offset : ℕ
  size : ℕ
  deriving DecidableEq, Repr

/-- `<IIQQQQ` or `<IIIIII`. -/
def readSectionHeader (is64 : Bool) : Read SectionHeader := do
  let word := if is64 then 8 else 4
  let name ← unsigned 4
  let stype ← unsigned 4
  let _flags ← unsigned word
  let addr ← unsigned word
  let offset ← unsigned word
  let size ← unsigned word
  pure ⟨name, stype, addr, offset, size⟩

/-- How large the section headers are, how many, and which of them is that of the names. -/
structure Shape where
  shentsize : ℕ
  shnum : ℕ
  shstrndx : ℕ

def readShape : Read Shape := do
  let shentsize ← unsigned 2
  let shnum ← unsigned 2
  let shstrndx ← unsigned 2
  pure ⟨shentsize, shnum, shstrndx⟩

def slice (data : List UInt8) (offset size : ℕ) : List UInt8 := (data.drop offset).take size

/-- The text at an index of a string table, up to its zero byte. -/
def textAt (table : List UInt8) (idx : ℕ) : Except Error (List Char) := readAt table idx cstring

/-- A section with what the file holds of it; of one of type `NOBITS` it holds nothing. -/
def SectionHeader.section (raw : List UInt8) (h : SectionHeader) : Section where
  addr := h.addr
  size := h.size
  data := if h.stype = 8 then [] else slice raw h.offset h.size
  held := by
    split_ifs
    · exact Nat.zero_le _
    · exact List.length_take_le _ _

/-- A dictionary filled in order: the last of a name stays. -/
def lastNamed (entries : List (List Char × Section)) (name : String) : Option Section :=
  entries.reverse.lookup name.toList

structure SymbolFields where
  name : ℕ
  info : ℕ
  value : ℕ
  size : ℕ

/-- `<IBBHQQ` or `<IIIBBH`. -/
def readSymbol (is64 : Bool) : Read SymbolFields :=
  if is64 then do
    let name ← unsigned 4
    let info ← unsigned 1
    let _other ← unsigned 1
    let _shndx ← unsigned 2
    let value ← unsigned 8
    let size ← unsigned 8
    pure ⟨name, info, value, size⟩
  else do
    let name ← unsigned 4
    let value ← unsigned 4
    let size ← unsigned 4
    let info ← unsigned 1
    let _other ← unsigned 1
    let _shndx ← unsigned 2
    pure ⟨name, info, value, size⟩

def symbolSize (is64 : Bool) : ℕ := if is64 then 24 else 16

/-- `range(0, length - entry + 1, entry)`: where the whole entries start. -/
def entryOffsets (length entry : ℕ) : List ℕ := (List.range (length / entry)).map (· * entry)

def readTableSymbols (is64 : Bool) (data names : List UInt8) : Except Error (List Symbol) := do
  let found ← (entryOffsets data.length (symbolSize is64)).mapM fun off => do
    let s ← readAt data off (readSymbol is64)
    if s.info &&& 0xF ≠ 2 ∨ s.value = 0 then pure none
    else do
      let name ← textAt names s.name
      pure (some (Symbol.mk name s.value s.size))
  pure found.reduceOption

def readSymbols (is64 : Bool) (sections : String → Option Section) :
    List (String × String) → Except Error (List Symbol)
  | [] => pure []
  | (tab, strtab) :: rest =>
    match sections tab, sections strtab with
    | some data, some names => do
      let symbols ← readTableSymbols is64 data.data names.data
      if symbols = [] then readSymbols is64 sections rest else pure symbols
    | _, _ => readSymbols is64 sections rest

def symbolTables : List (String × String) := [(".symtab", ".strtab"), (".dynsym", ".dynstr")]

def headersOffset (is64 : Bool) (raw : List UInt8) : Except Error ℕ :=
  if is64 then readAt raw 0x28 (unsigned 8) else readAt raw 0x20 (unsigned 4)

def readSections (is64 : Bool) (raw : List UInt8) :
    Except Error (List (List Char × Section)) := do
  let shoff ← headersOffset is64 raw
  let shape ← readAt raw (if is64 then 0x3A else 0x2E) readShape
  let headers ← (List.range shape.shnum).mapM fun i =>
    readAt raw (shoff + i * shape.shentsize) (readSectionHeader is64)
  let strings ← item headers shape.shstrndx
  let shstr := slice raw strings.offset strings.size
  headers.mapM fun h => do
    let name ← textAt shstr h.name
    pure (name, h.section raw)

def Elf.init (path : String) (raw : List UInt8) : Except Error Binary :=
  if raw.take 4 ≠ [0x7F, 0x45, 0x4C, 0x46] then
    throw (.value (path ++ " is not an ELF file"))
  else do
    let cls ← item raw 4
    let is64 := cls == 2
    let _machine ← readAt raw 18 (unsigned 2)
    let entries ← readSections is64 raw
    let symbols ← readSymbols is64 (lastNamed entries) symbolTables
    pure ⟨⟨is64, lastNamed entries⟩, symbols⟩

def Holds (data : List UInt8) (offset : ℕ) (xs : List UInt8) : Prop := xs <+: data.drop offset

instance (data : List UInt8) (offset : ℕ) (xs : List UInt8) : Decidable (Holds data offset xs) := by
  unfold Holds
  infer_instance

def littleEndian (size n : ℕ) : List UInt8 := (Radix.digits 256 size n).map UInt8.ofNat

def wordSize (is64 : Bool) : ℕ := if is64 then 8 else 4

/-- A section as it is written: its header, and what it holds unless it is of a type that is given no
bytes. -/
structure Part (is64 : Bool) where
  name : List UInt8
  legible : 0 ∉ name
  nameAt : ℕ
  stype : ℕ
  flags : ℕ
  addr : ℕ
  offset : ℕ
  size : ℕ
  data : List UInt8
  full : data.length = if stype = 8 then 0 else size
  short : nameAt < 256 ^ 4 ∧ stype < 256 ^ 4
  fits : ∀ n ∈ [flags, addr, offset, size], n < 256 ^ wordSize is64

namespace Part

variable {is64 : Bool} (p : Part is64)

def bytes : List UInt8 :=
  littleEndian 4 p.nameAt ++ (littleEndian 4 p.stype ++ (littleEndian (wordSize is64) p.flags ++
    (littleEndian (wordSize is64) p.addr ++ (littleEndian (wordSize is64) p.offset ++
      littleEndian (wordSize is64) p.size))))

def header : SectionHeader := ⟨p.nameAt, p.stype, p.addr, p.offset, p.size⟩

def toSection : Section where
  addr := p.addr
  size := p.size
  data := p.data
  held := by
    rw [p.full]
    split_ifs
    · exact Nat.zero_le _
    · exact Nat.le_refl _

end Part

/-- A symbol as it is written. -/
structure Entry (is64 : Bool) where
  name : List UInt8
  legible : 0 ∉ name
  nameAt : ℕ
  info : UInt8
  other : UInt8
  shndx : ℕ
  value : ℕ
  size : ℕ
  short : nameAt < 256 ^ 4 ∧ shndx < 256 ^ 2
  fits : value < 256 ^ wordSize is64 ∧ size < 256 ^ wordSize is64

namespace Entry

variable {is64 : Bool} (e : Entry is64)

def bytes : List UInt8 :=
  if is64 then
    littleEndian 4 e.nameAt ++ ([e.info] ++ ([e.other] ++ (littleEndian 2 e.shndx ++
      (littleEndian 8 e.value ++ littleEndian 8 e.size))))
  else
    littleEndian 4 e.nameAt ++ (littleEndian 4 e.value ++ (littleEndian 4 e.size ++ ([e.info] ++
      ([e.other] ++ littleEndian 2 e.shndx))))

/-- A function with a nonzero value. -/
def IsFunction : Prop := e.info.toNat &&& 0xF = 2 ∧ e.value ≠ 0

instance : Decidable e.IsFunction := by
  unfold IsFunction
  infer_instance

def symbol : Symbol := ⟨decodeAscii e.name, e.value, e.size⟩

end Entry

def functions {is64 : Bool} (entries : List (Entry is64)) : List Symbol :=
  (entries.filter fun e => decide e.IsFunction).map Entry.symbol

structure File (is64 : Bool) where
  cls : UInt8
  sized : (cls == 2) = is64
  machine : ℕ
  headersAt : ℕ
  headerSize : ℕ
  parts : List (Part is64)
  strings : ℕ
  symtab : List (Entry is64)
  dynsym : List (Entry is64)
  short : ∀ n ∈ [machine, headerSize, parts.length, strings], n < 256 ^ 2
  fits : headersAt < 256 ^ wordSize is64

namespace File

variable {is64 : Bool} (f : File is64)

def part (name : String) : Option (Part is64) :=
  f.parts.reverse.find? fun p => decodeAscii p.name = name.toList

def sections (name : String) : Option Section := (f.part name).map Part.toSection

def symbols : List Symbol :=
  if functions f.symtab = [] then functions f.dynsym else functions f.symtab

def binary : Binary := ⟨⟨is64, f.sections⟩, f.symbols⟩

end File

/-- A table and its strings hold the symbols, and nothing more than part of a symbol; without either
of the two there are none. -/
def Tabulates {is64 : Bool} (tab strtab : Option (Part is64)) (entries : List (Entry is64)) : Prop :=
  match tab, strtab with
  | some t, some s =>
    (∃ rest, t.data = entries.flatMap Entry.bytes ++ rest ∧ rest.length < symbolSize is64) ∧
      ∀ e ∈ entries, e.IsFunction → Holds s.data e.nameAt (e.name ++ [0])
  | _, _ => entries = []

/-- The bytes are a file's: each piece stands where the one that leads to it says, in whatever order
and with whatever else between them. -/
structure Written {is64 : Bool} (f : File is64) (raw : List UInt8) : Prop where
  ident : Holds raw 0 [0x7F, 0x45, 0x4C, 0x46, f.cls]
  machine : Holds raw 18 (littleEndian 2 f.machine)
  table : Holds raw (if is64 then 0x28 else 0x20) (littleEndian (wordSize is64) f.headersAt)
  shape : Holds raw (if is64 then 0x3A else 0x2E)
    (littleEndian 2 f.headerSize ++ (littleEndian 2 f.parts.length ++ littleEndian 2 f.strings))
  headers : ∀ i p, f.parts[i]? = some p → Holds raw (f.headersAt + i * f.headerSize) p.bytes
  contents : ∀ p ∈ f.parts, Holds raw p.offset p.data
  names : ∃ s, f.parts[f.strings]? = some s ∧ s.stype ≠ 8 ∧
    ∀ p ∈ f.parts, Holds s.data p.nameAt (p.name ++ [0])
  symtab : Tabulates (f.part ".symtab") (f.part ".strtab") f.symtab
  dynsym : functions f.symtab = [] → Tabulates (f.part ".dynsym") (f.part ".dynstr") f.dynsym

section Reading

variable {data xs : List UInt8} {offset size n : ℕ} {r : Reader}

theorem readAt_of_holds {m : Read α} {a : α} (h : Holds data offset xs)
    (hm : Reads m ⟨data, 0, offset⟩ xs a) : readAt data offset m = .ok a := by
  have hat : (Cursor.mk data 0 offset).At xs := h
  rw [readAt, hm hat]
  rfl

theorem length_littleEndian (size n : ℕ) : (littleEndian size n).length = size := by
  rw [littleEndian, List.length_map, Radix.length_digits]

theorem reads_unsigned (hsize : size ∈ [1, 2, 4, 8]) (h : n < 256 ^ size) :
    Reads (unsigned size) r (littleEndian size n) n := by
  have hback : (littleEndian size n).map UInt8.toNat = Radix.digits 256 size n := by
    rw [littleEndian, List.map_map]
    refine (List.map_congr_left fun d hd => ?_).trans (List.map_id _)
    exact toNat_byte (Radix.lt_of_mem_digits (by decide) hd)
  have hvalue := Radix.ofDigits_digits_of_lt (b := 256) (n := size) (v := n) (by decide)
    (Int.natCast_nonneg n) (by exact_mod_cast h)
  have hread := @reads_fixed r (littleEndian size n) false (by rwa [length_littleEndian])
  rw [length_littleEndian, hback] at hread
  have hunsigned := hread.andPure Int.toNat
  simp only [Bool.false_eq_true, if_false, hvalue, Int.toNat_natCast] at hunsigned
  exact hunsigned

theorem reads_unsigned_byte (b : UInt8) : Reads (unsigned 1) r [b] b.toNat := by
  have hread := (@reads_fixed r [b] false (by simp)).andPure Int.toNat
  have hvalue : ((Nat.ofDigits 256 ([b].map UInt8.toNat) : ℕ) : ℤ).toNat = b.toNat := by simp
  simp only [Bool.false_eq_true, if_false, hvalue] at hread
  exact hread

theorem wordSize_mem (is64 : Bool) : wordSize is64 ∈ [1, 2, 4, 8] := by
  cases is64 <;> decide

variable {is64 : Bool}

theorem reads_sectionHeader (p : Part is64) :
    Reads (readSectionHeader is64) r p.bytes p.header := by
  have hword := wordSize_mem is64
  unfold readSectionHeader Part.bytes
  refine (reads_unsigned (by decide) p.short.1).bind ?_
  refine (reads_unsigned (by decide) p.short.2).bind ?_
  refine (reads_unsigned hword (p.fits p.flags (by simp))).bind ?_
  refine (reads_unsigned hword (p.fits p.addr (by simp))).bind ?_
  refine (reads_unsigned hword (p.fits p.offset (by simp))).bind ?_
  exact (reads_unsigned hword (p.fits p.size (by simp))).andPure _

theorem reads_symbol (e : Entry is64) :
    Reads (readSymbol is64) r e.bytes ⟨e.nameAt, e.info.toNat, e.value, e.size⟩ := by
  cases is64 with
  | true =>
    refine (reads_unsigned (by decide) e.short.1).bind ?_
    refine (reads_unsigned_byte e.info).bind ?_
    refine (reads_unsigned_byte e.other).bind ?_
    refine (reads_unsigned (by decide) e.short.2).bind ?_
    refine (reads_unsigned (by decide) e.fits.1).bind ?_
    exact (reads_unsigned (by decide) e.fits.2).andPure _
  | false =>
    refine (reads_unsigned (by decide) e.short.1).bind ?_
    refine (reads_unsigned (by decide) e.fits.1).bind ?_
    refine (reads_unsigned (by decide) e.fits.2).bind ?_
    refine (reads_unsigned_byte e.info).bind ?_
    refine (reads_unsigned_byte e.other).bind ?_
    exact (reads_unsigned (by decide) e.short.2).andPure _

theorem File.reads_shape (f : File is64) :
    Reads readShape r
      (littleEndian 2 f.headerSize ++ (littleEndian 2 f.parts.length ++ littleEndian 2 f.strings))
      ⟨f.headerSize, f.parts.length, f.strings⟩ := by
  unfold readShape
  refine (reads_unsigned (by decide) (f.short f.headerSize (by simp))).bind ?_
  refine (reads_unsigned (by decide) (f.short f.parts.length (by simp))).bind ?_
  exact (reads_unsigned (by decide) (f.short f.strings (by simp))).andPure fun strings =>
    Shape.mk f.headerSize f.parts.length strings

theorem textAt_of_holds {name : List UInt8} (hlegible : 0 ∉ name)
    (h : Holds data offset (name ++ [0])) : textAt data offset = .ok (decodeAscii name) :=
  readAt_of_holds h (reads_cstring hlegible)

theorem slice_of_holds (h : Holds data offset xs) : slice data offset xs.length = xs := by
  obtain ⟨rest, hrest⟩ := h
  rw [slice, ← hrest, List.take_left]

theorem item_of_getElem? {xs : List α} {i : ℕ} {x : α} (h : xs[i]? = some x) :
    item xs i = .ok x := by
  rw [item, h]

end Reading

section Sections

variable {is64 : Bool} {raw : List UInt8} {f : File is64}

theorem Part.section_header {p : Part is64} (h : Holds raw p.offset p.data) :
    p.header.section raw = p.toSection := by
  have hfull := p.full
  unfold SectionHeader.section Part.toSection Part.header
  congr 1
  show (if p.stype = 8 then [] else slice raw p.offset p.size) = p.data
  split_ifs at hfull ⊢ with hbits
  · exact (List.length_eq_zero_iff.mp hfull).symm
  · rw [← hfull]
    exact slice_of_holds h

/-- Looking a name up among what was read is looking it up among what was written. -/
theorem lookup_map (parts : List (Part is64)) (name : List Char) :
    (parts.map fun p => (decodeAscii p.name, p.toSection)).lookup name =
      (parts.find? fun p => decodeAscii p.name = name).map Part.toSection := by
  induction parts with
  | nil => rfl
  | cons p parts ih =>
    rw [List.map_cons, List.lookup_cons, List.find?_cons, ih]
    by_cases h : decodeAscii p.name = name
    · rw [h, beq_self_eq_true, decide_eq_true rfl]
      rfl
    · rw [beq_false_of_ne (Ne.symm h), decide_eq_false h]

theorem lastNamed_parts (f : File is64) :
    lastNamed (f.parts.map fun p => (decodeAscii p.name, p.toSection)) = f.sections := by
  funext name
  rw [lastNamed, ← List.map_reverse, lookup_map]
  rfl

theorem Written.headers_read (h : Written f raw) :
    ((List.range f.parts.length).mapM fun i =>
      readAt raw (f.headersAt + i * f.headerSize) (readSectionHeader is64)) =
      .ok (f.parts.map Part.header) := by
  rw [← List.length_map Part.header]
  refine Fallible.mapM_range_eq_ok fun i header hi => ?_
  rw [List.getElem?_map, Option.map_eq_some_iff] at hi
  obtain ⟨p, hp, rfl⟩ := hi
  exact readAt_of_holds (h.headers i p hp) (reads_sectionHeader p)

/-- The section names are read from their table, and with each what the file holds of its section. -/
theorem Written.entries_read (h : Written f raw) {s : Part is64} (hs : s.stype ≠ 8)
    (hmem : s ∈ f.parts) (hnames : ∀ p ∈ f.parts, Holds s.data p.nameAt (p.name ++ [0])) :
    ((f.parts.map Part.header).mapM fun header => do
      let name ← textAt (slice raw s.header.offset s.header.size) header.name
      pure (name, header.section raw)) =
      .ok (f.parts.map fun p => (decodeAscii p.name, p.toSection)) := by
  have hstrings : slice raw s.header.offset s.header.size = s.data := by
    have hfull := s.full
    rw [if_neg hs] at hfull
    show slice raw s.offset s.size = s.data
    rw [← hfull]
    exact slice_of_holds (h.contents s hmem)
  rw [List.mapM_map]
  refine Fallible.mapM_eq_ok_map fun p hp => ?_
  show (textAt _ p.nameAt >>= _) = _
  rw [hstrings, textAt_of_holds p.legible (hnames p hp), p.section_header (h.contents p hp)]
  rfl

end Sections

section Symbols

variable {is64 : Bool}

theorem Entry.length_bytes (e : Entry is64) : e.bytes.length = symbolSize is64 := by
  cases is64 <;> simp [Entry.bytes, length_littleEndian, symbolSize]

theorem length_flatMap_entries (entries : List (Entry is64)) :
    (entries.flatMap Entry.bytes).length = entries.length * symbolSize is64 := by
  induction entries with
  | nil => simp
  | cons e entries ih =>
    rw [List.flatMap_cons, List.length_append, ih, e.length_bytes, List.length_cons]
    ring

/-- Each symbol stands where its number says. -/
theorem holds_entry {entries : List (Entry is64)} {i : ℕ} {e : Entry is64}
    (h : entries[i]? = some e) (rest : List UInt8) :
    Holds (entries.flatMap Entry.bytes ++ rest) (i * symbolSize is64) e.bytes := by
  induction entries generalizing i with
  | nil => simp at h
  | cons e' entries ih =>
    cases i with
    | zero =>
      obtain rfl : e' = e := by simpa using h
      rw [List.flatMap_cons, List.append_assoc, Nat.zero_mul]
      exact List.prefix_append _ _
    | succ i =>
      have hrest := ih (i := i) (by simpa using h)
      unfold Holds at hrest ⊢
      rwa [List.flatMap_cons, List.append_assoc, Nat.succ_mul, Nat.add_comm, ← List.drop_drop,
        ← e'.length_bytes, List.drop_left, e'.length_bytes]

theorem reduceOption_functions (entries : List (Entry is64)) :
    (entries.map fun e => if e.IsFunction then some e.symbol else none).reduceOption =
      functions entries := by
  induction entries with
  | nil => rfl
  | cons e entries ih =>
    unfold functions at ih ⊢
    rw [List.map_cons]
    by_cases h : e.IsFunction
    · rw [if_pos h, List.reduceOption_cons_of_some, ih, List.filter_cons_of_pos (by simp [h]),
        List.map_cons]
    · rw [if_neg h, List.reduceOption_cons_of_none, ih, List.filter_cons_of_neg (by simp [h])]

theorem readTableSymbols_of_tabulates {t s : Part is64} {entries : List (Entry is64)}
    (h : Tabulates (some t) (some s) entries) :
    readTableSymbols is64 t.data s.data =
      .ok (functions entries) := by
  obtain ⟨⟨rest, hdata, hrest⟩, hnames⟩ := h
  have hpos : 0 < symbolSize is64 := by cases is64 <;> decide
  have hcount : t.data.length / symbolSize is64 = entries.length := by
    rw [hdata, List.length_append, length_flatMap_entries, Nat.mul_comm, Nat.mul_add_div hpos,
      Nat.div_eq_of_lt hrest, Nat.add_zero]
  have hread : ((entryOffsets t.data.length (symbolSize is64)).mapM fun off => do
      let x ← readAt t.data off (readSymbol is64)
      if x.info &&& 0xF ≠ 2 ∨ x.value = 0 then pure none
      else do
        let name ← textAt s.data x.name
        pure (some (Symbol.mk name x.value x.size))) =
      .ok (entries.map fun e => if e.IsFunction then some e.symbol else none) := by
    rw [entryOffsets, hcount, List.mapM_map, ← List.length_map (fun e : Entry is64 =>
      if e.IsFunction then some e.symbol else none)]
    refine Fallible.mapM_range_eq_ok fun i found hi => ?_
    rw [List.getElem?_map, Option.map_eq_some_iff] at hi
    obtain ⟨e, he, rfl⟩ := hi
    have hholds : Holds t.data (i * symbolSize is64) e.bytes := hdata ▸ holds_entry he rest
    have hsymbol := readAt_of_holds hholds (reads_symbol e)
    show (readAt t.data (i * symbolSize is64) (readSymbol is64) >>= _) = _
    rw [hsymbol]
    show (if e.info.toNat &&& 0xF ≠ 2 ∨ e.value = 0 then _ else _) = _
    by_cases hf : e.IsFunction
    · have hname := textAt_of_holds e.legible (hnames e (List.mem_of_getElem? he) hf)
      rw [if_neg (by simpa [Entry.IsFunction, not_or] using hf), if_pos hf, hname]
      rfl
    · rw [if_pos (by
        rw [Entry.IsFunction, not_and_or, not_not] at hf
        exact hf), if_neg hf]
      rfl
  rw [readTableSymbols, hread]
  exact congrArg Except.ok (reduceOption_functions entries)

/-- The function symbols, whether a table that has none of them is passed over or missing. -/
theorem readSymbols_of_tabulates {f : File is64}
    (hsymtab : Tabulates (f.part ".symtab") (f.part ".strtab") f.symtab)
    (hdynsym : functions f.symtab = [] →
      Tabulates (f.part ".dynsym") (f.part ".dynstr") f.dynsym) :
    readSymbols is64 f.sections symbolTables = .ok f.symbols := by
  have hpair (tab strtab : String) (rest : List (String × String)) {entries : List (Entry is64)}
      (h : Tabulates (f.part tab) (f.part strtab) entries) :
      readSymbols is64 f.sections ((tab, strtab) :: rest) =
        if functions entries = [] then
          readSymbols is64 f.sections rest
        else .ok (functions entries) := by
    have hcons : readSymbols is64 f.sections ((tab, strtab) :: rest) =
        match (f.part tab).map Part.toSection, (f.part strtab).map Part.toSection with
        | some data, some names => do
          let symbols ← readTableSymbols is64 data.data names.data
          if symbols = [] then readSymbols is64 f.sections rest else pure symbols
        | _, _ => readSymbols is64 f.sections rest := rfl
    rw [hcons]
    cases htab : f.part tab with
    | none =>
      rw [htab] at h
      obtain rfl : entries = [] := h
      rfl
    | some t =>
      cases hstrtab : f.part strtab with
      | none =>
        rw [htab, hstrtab] at h
        obtain rfl : entries = [] := h
        rfl
      | some s =>
        rw [htab, hstrtab] at h
        have hread := readTableSymbols_of_tabulates h
        show (readTableSymbols is64 t.data s.data >>= _) = _
        rw [hread]
        rfl
  rw [symbolTables, hpair _ _ _ hsymtab, File.symbols]
  split_ifs with hempty
  · rw [hpair _ _ _ (hdynsym hempty)]
    split_ifs with hempty'
    · rw [hempty']
      rfl
    · rfl
  · rfl

end Symbols

section Whole

variable {is64 : Bool} {f : File is64} {raw : List UInt8}

theorem Written.sections_read (h : Written f raw) :
    readSections is64 raw = .ok (f.parts.map fun p => (decodeAscii p.name, p.toSection)) := by
  obtain ⟨s, hs, hbits, hnames⟩ := h.names
  have htable : headersOffset is64 raw = .ok f.headersAt := by
    have hread := readAt_of_holds h.table (reads_unsigned (wordSize_mem is64) f.fits)
    cases is64 <;> exact hread
  have hshape := readAt_of_holds h.shape f.reads_shape
  have hitem : item (f.parts.map Part.header) f.strings = .ok s.header :=
    item_of_getElem? (by rw [List.getElem?_map, hs]; rfl)
  have hentries := h.entries_read hbits (List.mem_of_getElem? hs) hnames
  refine Fallible.bind_eq_ok.mpr ⟨_, htable, ?_⟩
  refine Fallible.bind_eq_ok.mpr ⟨_, hshape, ?_⟩
  refine Fallible.bind_eq_ok.mpr ⟨_, h.headers_read, ?_⟩
  exact Fallible.bind_eq_ok.mpr ⟨_, hitem, hentries⟩

/-- A file is read as what it is written from, wherever its pieces stand. -/
theorem init_written (h : Written f raw) (path : String) : Elf.init path raw = .ok f.binary := by
  obtain ⟨rest, hrest⟩ := h.ident
  rw [List.drop_zero] at hrest
  have hmagic : raw.take 4 = [0x7F, 0x45, 0x4C, 0x46] := by
    rw [← hrest]
    rfl
  have hcls : item raw 4 = .ok f.cls := by
    rw [← hrest]
    rfl
  have hmachine := readAt_of_holds h.machine
    (reads_unsigned (by decide) (f.short f.machine (by simp)))
  have hsymbols := readSymbols_of_tabulates h.symtab h.dynsym
  unfold Elf.init
  rw [if_neg (not_not.mpr hmagic)]
  refine Fallible.bind_eq_ok.mpr ⟨_, hcls, ?_⟩
  refine Fallible.bind_eq_ok.mpr ⟨_, hmachine, ?_⟩
  rw [f.sized]
  refine Fallible.bind_eq_ok.mpr ⟨_, h.sections_read, ?_⟩
  rw [lastNamed_parts]
  exact Fallible.bind_eq_ok.mpr ⟨_, hsymbols, rfl⟩

end Whole

def ascii (s : String) : List UInt8 := s.toList.map fun c => UInt8.ofNat c.toNat

/-- The section headers, put side by side, each stand where their number says. -/
theorem headers_of_zipIdx {is64 : Bool} {f : File is64} {raw : List UInt8}
    (h : ∀ x ∈ f.parts.zipIdx, Holds raw (f.headersAt + x.2 * f.headerSize) x.1.bytes) (i : ℕ)
    (p : Part is64) (hp : f.parts[i]? = some p) :
    Holds raw (f.headersAt + i * f.headerSize) p.bytes :=
  h (p, i) (List.mem_zipIdx_iff_getElem?.mpr hp)

namespace Small

def names : Part false where
  name := ascii ".shstrtab"
  legible := by decide
  nameAt := 1
  stype := 3
  flags := 0
  addr := 0
  offset := 52
  size := 38
  data := [0] ++ ascii ".shstrtab" ++ [0] ++ ascii ".ARM.exidx" ++ [0] ++ ascii ".symtab" ++ [0] ++
    ascii ".strtab" ++ [0]
  full := by decide
  short := by decide
  fits := by decide

def index : Part false where
  name := ascii ".ARM.exidx"
  legible := by decide
  nameAt := 11
  stype := 0x70000001
  flags := 2
  addr := 0x1000
  offset := 90
  size := 16
  data := [0x00, 0xF8, 0xFF, 0x7F, 1, 0, 0, 0, 0xF8, 0xF8, 0xFF, 0x7F, 0xB0, 0xB0, 0xB0, 0x80]
  full := by decide
  short := by decide
  fits := by decide

def undefinedSymbol : Entry false where
  name := []
  legible := List.not_mem_nil
  nameAt := 0
  info := 0
  other := 0
  shndx := 0
  value := 0
  size := 0
  short := by decide
  fits := by decide

def runSymbol : Entry false where
  name := ascii "run"
  legible := by decide
  nameAt := 1
  info := 0x12
  other := 0
  shndx := 1
  value := 0x900
  size := 32
  short := by decide
  fits := by decide

def symtab : Part false where
  name := ascii ".symtab"
  legible := by decide
  nameAt := 22
  stype := 2
  flags := 0
  addr := 0
  offset := 106
  size := 32
  data := undefinedSymbol.bytes ++ runSymbol.bytes
  full := by decide
  short := by decide
  fits := by decide

def strtab : Part false where
  name := ascii ".strtab"
  legible := by decide
  nameAt := 30
  stype := 3
  flags := 0
  addr := 0
  offset := 138
  size := 5
  data := [0] ++ ascii "run" ++ [0]
  full := by decide
  short := by decide
  fits := by decide

def file : File false where
  cls := 1
  sized := rfl
  machine := 40
  headersAt := 143
  headerSize := 40
  parts := [names, index, symtab, strtab]
  strings := 0
  symtab := [undefinedSymbol, runSymbol]
  dynsym := []
  short := by decide
  fits := by decide

def zeros (n : ℕ) : List UInt8 := List.replicate n 0

def raw : List UInt8 :=
  [0x7F, 0x45, 0x4C, 0x46, 1] ++ zeros 13 ++ littleEndian 2 40 ++ zeros 12 ++
    littleEndian 4 143 ++ zeros 10 ++ littleEndian 2 40 ++ littleEndian 2 4 ++ littleEndian 2 0 ++
    (file.parts.flatMap (·.data)) ++ file.parts.flatMap fun p => p.bytes ++ zeros 16

theorem written : Written file raw where
  ident := by decide
  machine := by decide
  table := by decide
  shape := by decide
  headers := headers_of_zipIdx (by decide)
  contents := by decide
  names := ⟨names, rfl, by decide, by decide⟩
  symtab := by
    have htab : file.part ".symtab" = some symtab := by rfl
    have hstrtab : file.part ".strtab" = some strtab := by rfl
    rw [htab, hstrtab]
    exact ⟨⟨[], by decide, by decide⟩, by decide⟩
  dynsym := by
    intro h
    exact absurd h (by decide)

end Small

theorem init_written_small :
    Elf.init "small" Small.raw = .ok Small.file.binary ∧
      Small.file.binary.symbols = [⟨"run".toList, 0x900, 32⟩] :=
  ⟨init_written Small.written "small", by decide⟩

end Jmpxx.Audit
