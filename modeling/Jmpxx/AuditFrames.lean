import Jmpxx.AuditTable
import Mathlib.Data.List.Forall2

namespace Jmpxx.Audit

open Cursor

structure FrameInfo where
  pcBegin : ℕ
  pcRange : ℕ
  lsda : ℕ
  deriving DecidableEq, Repr

/-- What the record loop collects: the frames, and by offset the encodings of the common entries. -/
structure Frames where
  frames : List FrameInfo
  cies : List (ℤ × ℕ × ℕ)

/-- `for ch in aug[1:]`, over the encodings found so far. -/
def augmentation (ptrSize : ℕ) : List Char → ℕ × ℕ → Read (ℕ × ℕ)
  | [], enc => pure enc
  | ch :: aug, enc =>
    if ch = 'R' then do
      let fdeEnc ← u8
      augmentation ptrSize aug (fdeEnc, enc.2)
    else if ch = 'L' then do
      let lsdaEnc ← u8
      augmentation ptrSize aug (enc.1, lsdaEnc)
    else if ch = 'P' then do
      let personalityEnc ← u8
      let _ ← encoded personalityEnc ptrSize 0
      augmentation ptrSize aug enc
    else if ch = 'S' then augmentation ptrSize aug enc
    else pure enc

def readCie (ptrSize : ℕ) : Read (ℕ × ℕ) := do
  let version ← u8
  let aug ← cstring
  let _ ← uleb
  let _ ← sleb
  let _ ← if version ≥ 3 then uleb else u8
  if aug.head? = some 'z' then do
    let augLen ← uleb
    let r ← get
    let augEnd := r.pos + augLen
    let enc ← augmentation ptrSize aug.tail (0x00, peOmit)
    seek augEnd
    pure enc
  else pure (0x00, peOmit)

def readTable (ptrSize lsdaEnc pcBegin : ℕ) : Read ℕ :=
  if lsdaEnc ≠ peOmit then do
    let augLen ← uleb
    let r ← get
    let augEnd := r.pos + augLen
    let lsda ← if augLen ≠ 0 then encoded lsdaEnc ptrSize pcBegin else pure 0
    seek augEnd
    pure lsda
  else pure 0

def readFde (ptrSize fdeEnc lsdaEnc : ℕ) : Read FrameInfo := do
  let pcBegin ← encoded fdeEnc ptrSize 0
  let pcRange ← encoded (fdeEnc &&& 0x0F) ptrSize 0
  let lsda ← readTable ptrSize lsdaEnc pcBegin
  pure ⟨pcBegin, pcRange, lsda⟩

def record (ptrSize : ℕ) (s : Frames) : Read (Option Frames) := do
  let r ← get
  let recordStart := r.pos
  let length ← fixed 4 false
  if length = 0 then pure none
  else if length = 0xFFFFFFFF then
    throw (.value "64-bit .eh_frame records are not supported")
  else do
    let r ← get
    let stop := r.pos + length.toNat
    let cieFieldPos := r.pos
    let cieId ← fixed 4 false
    if cieId = 0 then do
      let enc ← readCie ptrSize
      seek stop
      pure (some { s with cies := (recordStart, enc) :: s.cies })
    else do
      let cieOffset := cieFieldPos - cieId
      let enc := (s.cies.lookup cieOffset).getD (0x00, peOmit)
      let frame ← readFde ptrSize enc.1 enc.2
      seek stop
      pure (some { s with frames := s.frames ++ [frame] })

def parseEhFrame (elf : Elf) : Except Error (List FrameInfo) :=
  match elf.sections ".eh_frame" with
  | none => .ok []
  | some sec =>
    if sec.data = [] then .ok []
    else do
      let (s, _) ← loop .endless (fun r => !eof r) (record elf.ptrSize) (sec.data.length + 1)
        ⟨[], []⟩ ⟨sec.data, sec.addr, 0⟩
      pure s.frames

abbrev Pointer (size : ℕ) := (e : Encoding) × Number e.format size

/-- What a letter of an augmentation brings with it. -/
inductive Letter (size : ℕ) where
  | start (e : Encoding)
  | table (e : Option Encoding)
  | personality (p : Option (Pointer size))
  | signal

namespace Letter

variable {size : ℕ}

def char : Letter size → Char
  | start _ => 'R'
  | table _ => 'L'
  | personality _ => 'P'
  | signal => 'S'

def bytes : Letter size → List UInt8
  | start e => [e.byte]
  | table e => [e.elim omitted (·.byte)]
  | personality p => p.elim [omitted] fun p => p.1.byte :: p.2.bytes
  | signal => []

def apply (enc : Encoding × Option Encoding) : Letter size → Encoding × Option Encoding
  | start e => (e, enc.2)
  | table e => (enc.1, e)
  | personality _ | signal => enc

end Letter

/-- The augmentation `z`, its letters and their data. -/
structure Augmentation (size : ℕ) where
  letters : List (Letter size)
  length : Number .uleb128 size
  measured : length.value = (letters.flatMap Letter.bytes).length

/-- The return-address register, one byte in version 1 and a number in version 3. -/
inductive Version (size : ℕ) where
  | one (register : UInt8)
  | three (register : Number .uleb128 size)

/-- A common information entry; `rest` are its instructions and padding. -/
structure Cie (size : ℕ) where
  version : Version size
  augmentation : Option (Augmentation size)
  codeAlign : Number .uleb128 size
  dataAlign : Number .sleb128 size
  rest : List UInt8

def word (n : ℕ) : List UInt8 := (Radix.digits 256 4 n).map UInt8.ofNat

/-- A record: its length, what it refers to, and its fields. -/
def recordBytes (id : ℕ) (fields : List UInt8) : List UInt8 :=
  word (4 + fields.length) ++ (word id ++ fields)

namespace Cie

variable {size : ℕ} (c : Cie size)

def augText : List UInt8 :=
  c.augmentation.elim [] fun a => 122 :: a.letters.map fun l => UInt8.ofNat l.char.toNat

def encodings : Encoding × Option Encoding :=
  c.augmentation.elim (⟨.absptr, .absolute, false⟩, none) fun a =>
    a.letters.foldl Letter.apply (⟨.absptr, .absolute, false⟩, none)

def startEncoding : Encoding := c.encodings.1

def tableEncoding : Option Encoding := c.encodings.2

def versionByte : UInt8 :=
  match c.version with
  | .one _ => 1
  | .three _ => 3

def registerBytes : List UInt8 :=
  match c.version with
  | .one register => [register]
  | .three register => register.bytes

def augData : List UInt8 :=
  c.augmentation.elim [] fun a => a.length.bytes ++ a.letters.flatMap Letter.bytes

def fields : List UInt8 :=
  [c.versionByte] ++ ((c.augText ++ [0]) ++ (c.codeAlign.bytes ++ (c.dataAlign.bytes ++
    (c.registerBytes ++ (c.augData ++ c.rest)))))

def bytes : List UInt8 := recordBytes 0 c.fields

end Cie

/-- A frame entry's augmentation data, under a common entry that encodes table pointers as `e` says:
a pointer or none, and whatever else there is. -/
structure FdeData (size : ℕ) (e : Option Encoding) where
  pointer : Option (Pointer size)
  encoded : ∀ p ∈ pointer, e = some p.1
  more : List UInt8
  bare : e.isSome → pointer = none → more = []
  length : Number .uleb128 size
  measured : length.value = (pointer.elim [] (·.2.bytes) ++ more).length

/-- A frame description entry under a common entry; `rest` are its instructions and padding. -/
structure Fde {size : ℕ} (c : Cie size) where
  start : Number c.startEncoding.format size
  length : Number c.startEncoding.format size
  short : 0 ≤ length.value ∧ length.value < 2 ^ (8 * size)
  data : Option (FdeData size c.tableEncoding)
  augmented : data.isSome = c.augmentation.isSome
  rest : List UInt8

variable {size : ℕ}

def FdeData.bytes {e : Option Encoding} (d : FdeData size e) : List UInt8 :=
  d.length.bytes ++ (d.pointer.elim [] (·.2.bytes) ++ d.more)

def Fde.fields {c : Cie size} (f : Fde c) : List UInt8 :=
  f.start.bytes ++ (f.length.bytes ++ (f.data.elim [] (·.bytes) ++ f.rest))

/-- The entries from an offset on, behind the common entries at the offsets given. A frame entry
names its common entry by how far back it is. -/
inductive Entries (size : ℕ) : List (ℕ × Cie size) → ℕ → Type
  | done {cies o} : Entries size cies o
  | cie {cies o} (c : Cie size) (short : 4 + c.fields.length < 2 ^ 32 - 1)
    (rest : Entries size ((o, c) :: cies) (o + c.bytes.length)) : Entries size cies o
  | fde {cies o} (back : ℕ) {c : Cie size} (refers : cies.lookup back = some c) (earlier : back < o)
    (f : Fde c) (short : 4 + f.fields.length < 2 ^ 32 - 1) (near : o + 4 - back < 2 ^ 32)
    (rest : Entries size cies (o + (recordBytes (o + 4 - back) f.fields).length)) :
    Entries size cies o

def Entries.bytes {cies : List (ℕ × Cie size)} {o : ℕ} : Entries size cies o → List UInt8
  | .done => []
  | .cie c _ rest => c.bytes ++ rest.bytes
  | .fde back _ _ f _ _ rest => recordBytes (o + 4 - back) f.fields ++ rest.bytes

/-- A frame entry, its common entry, and where in the section it is. -/
structure Placed (size : ℕ) where
  offset : ℕ
  cie : Cie size
  fde : Fde cie

def Entries.placed {cies : List (ℕ × Cie size)} {o : ℕ} :
    Entries size cies o → List (Placed size)
  | .done => []
  | .cie _ _ rest => rest.placed
  | .fde _ _ _ f _ _ rest => ⟨o, _, f⟩ :: rest.placed

def Encoding.follow (e : Encoding) (loaded : ℕ → ℕ) (a : ℕ) : ℕ :=
  if e.indirect then loaded a else a

namespace Placed

variable (addr : ℕ) (loaded : ℕ → ℕ) (p : Placed size)

def here : ℕ := addr + p.offset + 8

def startPointer : ℕ := p.cie.startEncoding.resolve size (p.here addr) 0 p.fde.start.value

def start : ℕ := p.cie.startEncoding.follow loaded (p.startPointer addr)

def pointer : Option (Pointer size) := p.fde.data.bind (·.pointer)

def pointerHere : ℕ :=
  p.here addr + p.fde.start.bytes.length + p.fde.length.bytes.length +
    p.fde.data.elim 0 (·.length.bytes.length)

def tablePointer (q : Pointer size) : ℕ :=
  q.1.resolve size (p.pointerHere addr) (p.start addr loaded) q.2.value

/-- The address of the exception table, if there is one: an omitted pointer stands for none, and so
does a null pointer, which is stored as zero in any encoding. -/
def table : Option ℕ :=
  p.pointer.bind fun q =>
    if q.2.value = 0 then none
    else
      let a := q.1.follow loaded (p.tablePointer addr loaded q)
      if a = 0 then none else some a

structure Right (info : FrameInfo) : Prop where
  pcBegin : info.pcBegin = p.start addr loaded
  pcRange : info.pcRange = p.fde.length.value
  lsda : ∀ a ∈ p.table addr loaded, info.lsda = a
  lsda_zero : info.lsda = 0 ↔ p.table addr loaded = none

/-- A null pointer is in an encoding that adds nothing to it, and no indirect pointer is in use,
unless what it points at is its own address. -/
structure Plain : Prop where
  start : p.cie.startEncoding.indirect → loaded (p.startPointer addr) = p.startPointer addr
  null : ∀ q ∈ p.pointer, q.2.value = 0 →
    q.1.base (p.pointerHere addr) (p.start addr loaded) % 2 ^ (8 * size) = 0
  table : ∀ q ∈ p.pointer, q.2.value ≠ 0 → q.1.indirect →
    loaded (p.tablePointer addr loaded q) = p.tablePointer addr loaded q

end Placed

section Reading

variable {r : Reader}

theorem length_word (n : ℕ) : (word n).length = 4 := by
  rw [word, List.length_map, Radix.length_digits]

theorem reads_word {n : ℕ} (h : n < 2 ^ 32) : Reads (fixed 4 false) r (word n) n := by
  have hfits : Format.udata4.Fits 0 0 n := ⟨by omega, by exact_mod_cast h⟩
  exact (Number.mk n 0 hfits : Number .udata4 0).reads_fixed rfl (by decide)

theorem length_recordBytes (id : ℕ) (fields : List UInt8) :
    (recordBytes id fields).length = 8 + fields.length := by
  rw [recordBytes, List.length_append, List.length_append, length_word, length_word]
  omega

def encodingBytes (enc : Encoding × Option Encoding) : ℕ × ℕ :=
  (enc.1.byte.toNat, enc.2.elim peOmit (·.byte.toNat))

theorem toNat_elim_byte (e : Option Encoding) :
    (e.elim omitted (·.byte)).toNat = e.elim peOmit (·.byte.toNat) := by
  cases e <;> rfl

theorem reads_augmentation (hsize : size ∈ [4, 8]) (letters : List (Letter size))
    (enc : Encoding × Option Encoding) :
    Reads (augmentation size (letters.map Letter.char) (encodingBytes enc)) r
      (letters.flatMap Letter.bytes) (encodingBytes (letters.foldl Letter.apply enc)) := by
  induction letters generalizing r enc with
  | nil => exact Reads.pure _
  | cons l letters ih =>
    rw [List.map_cons, List.flatMap_cons, List.foldl_cons]
    cases l with
    | start e => exact (reads_u8 e.byte).bind (ih (e, enc.2))
    | table e =>
      refine (reads_u8 (e.elim omitted (·.byte))).bind ?_
      rw [toNat_elim_byte]
      exact ih (enc.1, e)
    | personality p =>
      cases p with
      | none => exact (reads_u8 omitted).bind ((reads_encoded_omit 0).bind (ih enc))
      | some p =>
        show Reads _ _ ([p.1.byte] ++ p.2.bytes ++ letters.flatMap Letter.bytes) _
        rw [List.append_assoc]
        exact (reads_u8 p.1.byte).bind ((reads_encoded p.1 p.2 hsize 0).bind (ih enc))
    | signal => exact ih enc

theorem decodeAscii_augText (c : Cie size) :
    decodeAscii c.augText =
      c.augmentation.elim [] fun a => 'z' :: a.letters.map Letter.char := by
  unfold Cie.augText
  cases c.augmentation with
  | none => rfl
  | some a =>
    rw [Option.elim_some, Option.elim_some, decodeAscii, List.map_cons, List.map_map]
    refine congrArg₂ _ rfl (List.map_congr_left fun l _ => ?_)
    cases l <;> rfl

theorem zero_not_mem_augText (c : Cie size) : 0 ∉ c.augText := by
  unfold Cie.augText
  cases c.augmentation with
  | none => exact List.not_mem_nil
  | some a =>
    rw [Option.elim_some, List.mem_cons, List.mem_map, not_or]
    refine ⟨by decide, fun h => ?_⟩
    obtain ⟨l, -, hl⟩ := h
    cases l <;> simp [Letter.char] at hl

theorem reads_register (c : Cie size) {β : Type} {k : ℕ → Read β} {ys : List UInt8} {b : β}
    (hk : ∀ register, Reads (k register) (r.skip c.registerBytes.length) ys b) :
    Reads (do
      let register ← if c.versionByte.toNat ≥ 3 then uleb else u8
      k register) r (c.registerBytes ++ ys) b := by
  unfold Cie.registerBytes at hk ⊢
  unfold Cie.versionByte
  cases hversion : c.version with
  | one register =>
    rw [hversion] at hk
    exact (reads_u8 register).bind (hk _)
  | three register =>
    rw [hversion] at hk
    exact register.reads_uleb.bind (hk _)

/-- A common entry is read as its encodings, up to its instructions. -/
theorem reads_cie (hsize : size ∈ [4, 8]) (c : Cie size) :
    Reads (readCie size) r ([c.versionByte] ++ ((c.augText ++ [0]) ++ (c.codeAlign.bytes ++
      (c.dataAlign.bytes ++ (c.registerBytes ++ c.augData))))) (encodingBytes c.encodings) := by
  unfold readCie
  refine (reads_u8 c.versionByte).bind ?_
  refine (reads_cstring (zero_not_mem_augText c)).bind ?_
  refine c.codeAlign.reads_uleb.bind (c.dataAlign.reads_sleb.bind (reads_register c fun _ => ?_))
  rw [decodeAscii_augText]
  unfold Cie.augData Cie.encodings
  cases c.augmentation with
  | none => exact Reads.pure _
  | some a =>
    refine a.length.reads_uleb.bind (Reads.get ?_)
    rw [Option.elim_some, ← List.append_nil (a.letters.flatMap Letter.bytes)]
    refine (reads_augmentation hsize a.letters (⟨.absptr, .absolute, false⟩, none)).bind ?_
    refine (show Reads (seek _) _ [] _ from Reads.seek ?_).bind (Reads.pure _)
    rw [a.measured, Int.toNat_natCast]
    rfl

def Fde.decoded {c : Cie size} (f : Fde c) (here : ℕ) : FrameInfo :=
  let pcBegin := c.startEncoding.resolve size here 0 f.start.value
  ⟨pcBegin, f.length.value.toNat, f.data.elim 0 fun d => d.pointer.elim 0 fun p =>
    p.1.resolve size (here + f.start.bytes.length + f.length.bytes.length + d.length.bytes.length)
      pcBegin p.2.value⟩

theorem byte_and_format (e : Encoding) :
    e.byte.toNat &&& 0x0F = (Encoding.mk e.format .absolute false).byte.toNat := by
  obtain ⟨f, a, i⟩ := e
  cases f <;> cases a <;> cases i <;> rfl

theorem Number.length_bytes_pos {f : Format} (hsize : size ∈ [4, 8]) (x : Number f size) :
    0 < x.bytes.length := by
  have hpos : 0 < size := Nat.pos_of_ne_zero fun h => absurd (h ▸ hsize) (by decide)
  cases f <;> simp [Number.bytes, Format.width, Radix.length_digits, hpos]

/-- The pointer is read from the augmentation data, or nothing is; what is left is sought past. -/
theorem reads_table (hsize : size ∈ [4, 8]) {e : Option Encoding} (d : FdeData size e)
    (pcBegin : ℕ) :
    ∃ xs ys, d.bytes = xs ++ ys ∧
      Reads (readTable size (e.elim peOmit (·.byte.toNat)) pcBegin) r xs
        (d.pointer.elim 0 fun p =>
          p.1.resolve size (r.addr + d.length.bytes.length) pcBegin p.2.value) := by
  cases e with
  | none =>
    -- without an encoding the length of the data is not even read
    refine ⟨[], d.bytes, rfl, ?_⟩
    cases hp : d.pointer with
    | none => exact Reads.pure 0
    | some p => cases d.encoded p hp
  | some e =>
    refine ⟨d.bytes, [], (List.append_nil _).symm, ?_⟩
    unfold readTable FdeData.bytes
    rw [Option.elim_some, if_pos e.byte_ne_omit]
    refine d.length.reads_uleb.bind (Reads.get ?_)
    rw [d.measured, Int.toNat_natCast]
    cases hp : d.pointer with
    | none =>
      rw [d.bare rfl hp]
      exact (Reads.pure 0).bind ((show Reads (seek _) _ [] _ from Reads.seek rfl).bind (Reads.pure 0))
    | some p =>
      obtain rfl : e = p.1 := Option.some.inj (d.encoded p hp)
      have hpos : 0 < (p.2.bytes ++ d.more).length :=
        Nat.lt_of_lt_of_le (p.2.length_bytes_pos hsize) (by simp)
      rw [Option.elim_some, if_pos (Nat.ne_of_gt hpos)]
      refine (reads_encoded p.1 p.2 hsize pcBegin).bind ?_
      rw [addr_skip]
      refine (show Reads (seek _) _ d.more _ from Reads.seek ?_).andPure _
      simp only [pos_skip, List.length_append]
      omega

/-- A frame entry is read up to its instructions, or up to augmentation data that is not looked at. -/
theorem reads_fde (hsize : size ∈ [4, 8]) {c : Cie size} (f : Fde c) :
    ∃ xs ys, f.fields = xs ++ ys ∧
      Reads (readFde size (encodingBytes c.encodings).1 (encodingBytes c.encodings).2) r xs
        (f.decoded r.addr) := by
  let here := ((r.skip f.start.bytes.length).skip f.length.bytes.length).addr
  let pcBegin := c.startEncoding.resolve size r.addr 0 f.start.value
  have htable : ∃ xs ys, f.data.elim [] (·.bytes) ++ f.rest = xs ++ ys ∧
      Reads (readTable size (encodingBytes c.encodings).2 pcBegin)
        ((r.skip f.start.bytes.length).skip f.length.bytes.length) xs
        (f.data.elim 0 fun d => d.pointer.elim 0 fun p =>
          p.1.resolve size (here + d.length.bytes.length) pcBegin p.2.value) := by
    cases hdata : f.data with
    | none =>
      -- then its common entry has no augmentation either, and no encoding of such pointers
      have hnone : c.augmentation = none := by
        simpa [hdata] using f.augmented
      refine ⟨[], f.rest, rfl, ?_⟩
      rw [Cie.encodings, hnone]
      exact Reads.pure 0
    | some d =>
      obtain ⟨xs, ys, hsplit, hread⟩ := reads_table hsize d pcBegin
      exact ⟨xs, ys ++ f.rest, by rw [Option.elim_some, hsplit, List.append_assoc], hread⟩
  obtain ⟨xs, ys, hsplit, hread⟩ := htable
  refine ⟨f.start.bytes ++ (f.length.bytes ++ xs), ys, ?_, ?_⟩
  · rw [Fde.fields, hsplit, List.append_assoc, List.append_assoc]
  · unfold readFde
    refine (reads_encoded c.startEncoding f.start hsize 0).bind ?_
    rw [encodingBytes, byte_and_format]
    refine (reads_encoded ⟨_, .absolute, false⟩ f.length hsize 0).bind ?_
    rw [resolve_absolute _ _ _ _ f.short]
    have hanswer := hread.andPure fun lsda => FrameInfo.mk pcBegin f.length.value.toNat lsda
    simp only [here, addr_skip] at hanswer
    exact hanswer

def held (cies : List (ℕ × Cie size)) : List (ℤ × ℕ × ℕ) :=
  cies.map fun p => ((p.1 : ℤ), encodingBytes p.2.encodings)

theorem lookup_held (cies : List (ℕ × Cie size)) (back : ℕ) :
    (held cies).lookup (back : ℤ) =
      (cies.lookup back).map fun c => encodingBytes c.encodings := by
  induction cies with
  | nil => rfl
  | cons p cies ih =>
    obtain ⟨o, c⟩ := p
    have hstep : (held ((o, c) :: cies)).lookup (back : ℤ) =
        bif (back : ℤ) == o then some (encodingBytes c.encodings) else
          (held cies).lookup (back : ℤ) := rfl
    rw [hstep, ih]
    by_cases h : back = o
    · subst h
      simp
    · rw [beq_false_of_ne (by exact_mod_cast h), List.lookup_cons, beq_false_of_ne h]
      rfl

section Records

variable {fields : List UInt8} {s : Frames}

theorem reads_record_stop : Reads (record size s) r (word 0) none := by
  unfold record
  refine Reads.get ?_
  rw [← List.append_nil (word 0)]
  exact (reads_word (by decide)).bind (Reads.pure none)

/-- A record is read from its length and what it refers to; past its fields the reader is sought. -/
theorem reads_record {id : ℕ} (hshort : 4 + fields.length < 2 ^ 32 - 1) (hid : id < 2 ^ 32)
    {s' : Frames}
    (hfields : Reads (if (id : ℤ) = 0 then do
        let enc ← readCie size
        seek (r.pos + 4 + (4 + fields.length))
        pure (some { s with cies := ((r.pos : ℕ), enc) :: s.cies })
      else do
        let enc := (s.cies.lookup ((r.pos + 4 : ℕ) - (id : ℤ))).getD (0x00, peOmit)
        let frame ← readFde size enc.1 enc.2
        seek (r.pos + 4 + (4 + fields.length))
        pure (some { s with frames := s.frames ++ [frame] }) : Read (Option Frames))
      (r.skip 8) fields (some s')) :
    Reads (record size s) r (recordBytes id fields) (some s') := by
  unfold record recordBytes
  refine Reads.get ((reads_word (by omega)).bind ?_)
  rw [if_neg (by omega), if_neg (by omega)]
  refine Reads.get ((reads_word hid).bind ?_)
  rw [skip_skip, length_word, pos_skip, Int.toNat_natCast]
  exact hfields

theorem reads_record_cie (hsize : size ∈ [4, 8]) (c : Cie size)
    (hshort : 4 + c.fields.length < 2 ^ 32 - 1) :
    Reads (record size s) r c.bytes
      (some { s with cies := ((r.pos : ℕ), encodingBytes c.encodings) :: s.cies }) := by
  have hfields : c.fields = ([c.versionByte] ++ ((c.augText ++ [0]) ++ (c.codeAlign.bytes ++
      (c.dataAlign.bytes ++ (c.registerBytes ++ c.augData))))) ++ c.rest := by
    simp only [Cie.fields, List.append_assoc]
  refine reads_record hshort (by decide) ?_
  rw [if_pos Nat.cast_zero]
  have hlen := congrArg List.length hfields
  rw [List.length_append] at hlen
  rw [hlen, hfields]
  refine (reads_cie hsize c).bind ?_
  refine (show Reads (seek _) _ c.rest _ from Reads.seek ?_).andPure _
  simp only [pos_skip]
  omega

theorem reads_record_fde (hsize : size ∈ [4, 8]) {c : Cie size} (f : Fde c) {back : ℕ}
    (hshort : 4 + f.fields.length < 2 ^ 32 - 1) (hnear : r.pos + 4 - back < 2 ^ 32)
    (hback : back < r.pos)
    (hlookup : s.cies.lookup (back : ℤ) = some (encodingBytes c.encodings)) :
    Reads (record size s) r (recordBytes (r.pos + 4 - back) f.fields)
      (some { s with frames := s.frames ++ [f.decoded (r.addr + 8)] }) := by
  obtain ⟨xs, ys, hsplit, hread⟩ := reads_fde (r := r.skip 8) hsize f
  refine reads_record hshort hnear ?_
  rw [if_neg (by omega), show ((r.pos + 4 : ℕ) - ((r.pos + 4 - back : ℕ) : ℤ)) = back by omega,
    hlookup, hsplit, List.length_append]
  refine hread.bind ?_
  refine (show Reads (seek _) _ ys _ from Reads.seek ?_).andPure _
  simp only [pos_skip]
  omega

end Records

theorem Cie.length_bytes (c : Cie size) : c.bytes.length = 8 + c.fields.length :=
  length_recordBytes 0 c.fields

def Placed.decoded (addr : ℕ) (p : Placed size) : FrameInfo :=
  p.fde.decoded (addr + p.offset + 8)

/-- What a section holds behind its entries: nothing, or a zero word and anything. -/
def IsStop (stop : List UInt8) : Prop := stop = [] ∨ ∃ more, stop = word 0 ++ more

theorem not_eof (h : 0 < r.unread.length) : (!eof r) = true := by
  have hlen : r.data.length - r.pos = r.unread.length := List.length_drop.symm
  simp only [eof, Bool.not_eq_true', decide_eq_false_iff_not]
  omega

/-- A turn that reads a record leaves the reader behind it. -/
theorem loop_record {bytes rest : List UInt8} {s s' : Frames} {turns : ℕ}
    (hunread : r.unread = bytes ++ rest) (hbytes : 0 < bytes.length)
    (hread : Reads (record size s) r bytes (some s')) :
    loop .endless (fun r => !eof r) (record size) (turns + 1) s r =
        loop .endless (fun r => !eof r) (record size) turns s' (r.skip bytes.length) ∧
      (r.skip bytes.length).unread = rest := by
  have hmore : (!eof r) = true := not_eof (by
    rw [hunread, List.length_append]
    omega)
  refine ⟨loop_of_turn hmore (hread ⟨rest, hunread.symm⟩), ?_⟩
  rw [unread_skip, hunread, List.drop_left]

/-- The loop collects the frames of the entries, whatever was collected before. -/
theorem loop_entries (hsize : size ∈ [4, 8]) {cies : List (ℕ × Cie size)} {o : ℕ}
    (e : Entries size cies o) {stop : List UInt8} (hstop : IsStop stop) {turns : ℕ}
    (hpos : r.pos = o) (hunread : r.unread = e.bytes ++ stop) (hturns : e.bytes.length < turns)
    (frames : List FrameInfo) :
    ∃ s r', loop .endless (fun r => !eof r) (record size) turns ⟨frames, held cies⟩ r =
      .ok (s, r') ∧ s.frames = frames ++ e.placed.map (Placed.decoded r.base) := by
  obtain ⟨turns, rfl⟩ := Nat.exists_eq_succ_of_ne_zero (Nat.ne_of_gt (Nat.zero_lt_of_lt hturns))
  -- the reader is where the next entry starts, and what is held are the common ones before it
  induction e generalizing r frames turns with
  | done =>
    rcases hstop with rfl | ⟨more, rfl⟩
    · refine ⟨⟨frames, held _⟩, r, loop_of_done ?_, (List.append_nil _).symm⟩
      have hlen : r.data.length - r.pos = 0 := by
        rw [← List.length_drop]
        exact congrArg List.length hunread
      simp only [eof, Bool.not_eq_false', decide_eq_true_eq]
      omega
    · have hat : r.At (word 0) := ⟨more, hunread.symm⟩
      have hmore : (!eof r) = true := not_eof (by
        rw [hunread]
        simp [Entries.bytes, length_word])
      exact ⟨_, _, loop_of_break hmore (reads_record_stop hat), (List.append_nil _).symm⟩
  | @cie cies o c short rest ih =>
    subst hpos
    have hlen := c.length_bytes
    simp only [Entries.bytes, List.append_assoc, List.length_append] at hunread hturns
    obtain ⟨turns, rfl⟩ := Nat.exists_eq_succ_of_ne_zero (show turns ≠ 0 by omega)
    obtain ⟨hturn, hrest⟩ := loop_record hunread (by omega)
      (reads_record_cie (s := ⟨frames, held cies⟩) hsize c short)
    obtain ⟨s, r', hrun, hframes⟩ := ih rfl hrest frames turns (by omega)
    exact ⟨s, r', hturn.trans hrun, hframes⟩
  | @fde cies o back c refers earlier f short near rest ih =>
    subst hpos
    have hlen := length_recordBytes (r.pos + 4 - back) f.fields
    simp only [Entries.bytes, List.append_assoc, List.length_append] at hunread hturns
    obtain ⟨turns, rfl⟩ := Nat.exists_eq_succ_of_ne_zero (show turns ≠ 0 by omega)
    have hlookup := (lookup_held cies back).trans (congrArg _ refers)
    obtain ⟨hturn, hrest⟩ := loop_record hunread (by omega)
      (reads_record_fde (s := ⟨frames, held cies⟩) hsize f short near earlier hlookup)
    obtain ⟨s, r', hrun, hframes⟩ := ih rfl hrest (frames ++ [f.decoded (r.addr + 8)]) turns
      (by omega)
    refine ⟨s, r', hturn.trans hrun, hframes.trans ?_⟩
    rw [List.append_assoc]
    rfl

/-- What the decoder makes of a section of entries. -/
theorem parseEhFrame_entries {elf : Elf} {sec : Section} (e : Entries elf.ptrSize [] 0)
    {stop : List UInt8} (hsec : elf.sections ".eh_frame" = some sec) (hstop : IsStop stop)
    (hdata : sec.data = e.bytes ++ stop) :
    parseEhFrame elf = .ok (e.placed.map (Placed.decoded sec.addr)) := by
  have hturns : e.bytes.length < sec.data.length + 1 := by
    rw [hdata, List.length_append]
    omega
  obtain ⟨s, r', hrun, hframes⟩ :=
    loop_entries (r := ⟨sec.data, sec.addr, 0⟩) elf.ptrSize_mem e hstop rfl hdata hturns []
  unfold parseEhFrame
  rw [hsec]
  show (if sec.data = [] then _ else _) = _
  split_ifs with hempty
  · rw [hempty] at hrun
    obtain ⟨rfl, -⟩ := Prod.mk.inj (Except.ok.inj (hrun.symm.trans (loop_of_done rfl)))
    exact congrArg Except.ok hframes
  · rw [show held ([] : List (ℕ × Cie elf.ptrSize)) = [] from rfl] at hrun
    show (loop .endless (fun r => !eof r) (record elf.ptrSize) (sec.data.length + 1) ⟨[], []⟩
      ⟨sec.data, sec.addr, 0⟩ >>= _) = _
    rw [hrun]
    exact congrArg Except.ok hframes

end Reading

section Meaning

variable {addr : ℕ} {loaded : ℕ → ℕ} {p : Placed size}

theorem Encoding.follow_eq_self_iff {e : Encoding} {a : ℕ} :
    e.follow loaded a = a ↔ (e.indirect → loaded a = a) := by
  unfold Encoding.follow
  cases e.indirect <;> simp

theorem Encoding.resolve_zero_eq_zero (e : Encoding) (size here funcStart : ℕ) :
    e.resolve size here funcStart 0 = 0 ↔ e.base here funcStart % 2 ^ (8 * size) = 0 := by
  have hcast : ((0 : ℤ) + e.base here funcStart) % 2 ^ (8 * size) =
      (e.base here funcStart % 2 ^ (8 * size) : ℕ) := by
    push_cast
    rw [Int.zero_add]
  rw [Encoding.resolve, hcast, Int.toNat_natCast]

theorem Placed.decoded_lsda (hstart : p.start addr loaded = p.startPointer addr) :
    (p.decoded addr).lsda = p.pointer.elim 0 (p.tablePointer addr loaded) := by
  unfold Placed.pointer Placed.tablePointer Placed.pointerHere
  rw [hstart]
  show p.fde.data.elim 0 _ = _
  cases p.fde.data with
  | none => rfl
  | some d => rfl

/-- The table is reported as meant just when its pointer is plain. -/
theorem Placed.table_iff {q : Pointer size} (hq : p.pointer = some q) {lsda : ℕ}
    (hlsda : lsda = p.tablePointer addr loaded q) :
    ((∀ a ∈ p.table addr loaded, lsda = a) ∧ (lsda = 0 ↔ p.table addr loaded = none)) ↔
      (q.2.value = 0 → q.1.base (p.pointerHere addr) (p.start addr loaded) % 2 ^ (8 * size) = 0) ∧
      (q.2.value ≠ 0 → q.1.indirect →
        loaded (p.tablePointer addr loaded q) = p.tablePointer addr loaded q) := by
  unfold Placed.table
  rw [hq, Option.bind_some]
  by_cases hzero : q.2.value = 0
  · have hnull := q.1.resolve_zero_eq_zero size (p.pointerHere addr) (p.start addr loaded)
    rw [← hzero] at hnull
    rw [if_pos hzero, ← hnull, hlsda]
    simp [hzero, Placed.tablePointer]
  · rw [if_neg hzero, ← Encoding.follow_eq_self_iff, ← hlsda]
    by_cases hnone : q.1.follow loaded lsda = 0
    · simp [hzero, hnone]
      omega
    · simp [hzero, hnone]
      omega

theorem Placed.right_iff_plain : p.Right addr loaded (p.decoded addr) ↔ p.Plain addr loaded := by
  have hstart : (p.decoded addr).pcBegin = p.start addr loaded ↔
      (p.cie.startEncoding.indirect → loaded (p.startPointer addr) = p.startPointer addr) := by
    rw [← Encoding.follow_eq_self_iff]
    exact eq_comm
  have hlength : ((p.decoded addr).pcRange : ℤ) = p.fde.length.value :=
    Int.toNat_of_nonneg p.fde.short.1
  cases hpointer : p.pointer with
  | none =>
    have hnone : p.table addr loaded = none := by rw [Placed.table, hpointer]; rfl
    have hlsda (h : p.start addr loaded = p.startPointer addr) : (p.decoded addr).lsda = 0 := by
      rw [Placed.decoded_lsda h, hpointer]
      rfl
    constructor
    · intro h
      exact ⟨hstart.mp h.pcBegin, by simp [hpointer], by simp [hpointer]⟩
    · intro h
      have hbegin := hstart.mpr h.start
      exact ⟨hbegin, hlength, by simp [hnone], by simp [hnone, hlsda hbegin.symm]⟩
  | some q =>
    have hlsda (h : p.start addr loaded = p.startPointer addr) :
        (p.decoded addr).lsda = p.tablePointer addr loaded q := by
      rw [Placed.decoded_lsda h, hpointer]
      rfl
    constructor
    · intro h
      have hplain := (Placed.table_iff hpointer (hlsda h.pcBegin.symm)).mp ⟨h.lsda, h.lsda_zero⟩
      refine ⟨hstart.mp h.pcBegin, ?_, ?_⟩
      · rintro _ hq
        obtain rfl := Option.some.inj (hpointer.symm.trans hq)
        exact hplain.1
      · rintro _ hq
        obtain rfl := Option.some.inj (hpointer.symm.trans hq)
        exact hplain.2
    · intro h
      have hbegin := hstart.mpr h.start
      have hright := (Placed.table_iff hpointer (hlsda hbegin.symm)).mpr
        ⟨h.null q hpointer, h.table q hpointer⟩
      exact ⟨hbegin, hlength, hright.1, hright.2⟩

end Meaning

/-- What is reported of a section's frame entries, one after the other, is as meant just when no
null pointer and no indirect one leads the decoder astray. -/
theorem parse_eh_frame_right_iff {elf : Elf} {sec : Section} (e : Entries elf.ptrSize [] 0)
    {stop : List UInt8} (hsec : elf.sections ".eh_frame" = some sec) (hstop : IsStop stop)
    (hdata : sec.data = e.bytes ++ stop) (loaded : ℕ → ℕ) :
    (∃ infos, parseEhFrame elf = .ok infos ∧
      List.Forall₂ (Placed.Right sec.addr loaded) e.placed infos) ↔
      ∀ p ∈ e.placed, p.Plain sec.addr loaded := by
  rw [parseEhFrame_entries e hsec hstop hdata]
  simp only [Except.ok.injEq, exists_eq_left', List.forall₂_map_right_iff, List.forall₂_same,
    Placed.right_iff_plain]

/-- A common entry whose start and table pointers are relative to where they are, in four bytes. -/
def relativeCie : Cie 8 where
  version := .one 16
  augmentation := some
    { letters := [.table (some ⟨.sdata4, .pcrel, false⟩), .start ⟨.sdata4, .pcrel, false⟩]
      length := ⟨2, 0, by decide⟩
      measured := by decide }
  codeAlign := ⟨1, 0, by decide⟩
  dataAlign := ⟨-8, 0, by decide⟩
  rest := [0]

/-- A frame entry under it, of a function of 16 bytes. -/
def relativeFde (table : Number .sdata4 8) : Fde relativeCie where
  start := ⟨-0xC1C, 0, by decide⟩
  length := ⟨16, 0, by decide⟩
  short := by decide
  data := some
    { pointer := some ⟨⟨.sdata4, .pcrel, false⟩, table⟩
      encoded := fun _ h => Option.some.inj h ▸ rfl
      more := []
      bare := fun _ h => absurd h (Option.some_ne_none _)
      length := ⟨4, 0, by decide⟩
      measured := rfl }
  augmented := rfl
  rest := [0, 0, 0]

def oneFunction (table : Number .sdata4 8) : Entries 8 [] 0 :=
  .cie relativeCie (by decide) (.fde 0 (c := relativeCie) rfl (by decide) (relativeFde table)
    (show 4 + 16 < 2 ^ 32 - 1 by decide) (by decide) .done)

def oneFunctionSection (table : Number .sdata4 8) : Section :=
  ⟨0x1000, 48, (oneFunction table).bytes ++ word 0, Nat.le_refl 48⟩

def oneFunctionElf (table : Number .sdata4 8) : Elf where
  is64 := true
  sections _ := some (oneFunctionSection table)

theorem fits_null : Format.sdata4.Fits 8 0 0 := by decide

def nullPointer : Number .sdata4 8 := ⟨0, 0, fits_null⟩

def farPointer : Number .sdata4 8 := ⟨0x1FDB, 0, by decide⟩

/-- A table is reported where it is. -/
theorem parse_eh_frame_oneFunction :
    ∃ infos, parseEhFrame (oneFunctionElf farPointer) = .ok infos ∧
      List.Forall₂ (Placed.Right 0x1000 id) (oneFunction farPointer).placed infos := by
  refine (@parse_eh_frame_right_iff (oneFunctionElf farPointer) (oneFunctionSection farPointer)
    (oneFunction farPointer) (word 0) rfl (.inr ⟨[], (List.append_nil _).symm⟩) rfl id).mpr ?_
  intro p hp
  obtain rfl := List.mem_singleton.mp hp
  refine ⟨fun _ => rfl, fun q hq h => ?_, fun _ _ _ _ => rfl⟩
  obtain rfl := Option.some.inj hq
  exact absurd h (by decide)

/-- A null pointer is reported as the address it stands at. -/
theorem parse_eh_frame_nullPointer :
    parseEhFrame (oneFunctionElf nullPointer) = .ok [⟨0x400, 16, 0x1025⟩] ∧
      (oneFunction nullPointer).placed.map (Placed.table 0x1000 id) = [none] ∧
      ¬ ∃ infos, parseEhFrame (oneFunctionElf nullPointer) = .ok infos ∧
        List.Forall₂ (Placed.Right 0x1000 id) (oneFunction nullPointer).placed infos := by
  have hinfo : (oneFunction nullPointer).placed.map (Placed.decoded 0x1000) =
      [⟨0x400, 16, 0x1025⟩] := by decide
  have hrun : parseEhFrame (oneFunctionElf nullPointer) = .ok [⟨0x400, 16, 0x1025⟩] :=
    (@parseEhFrame_entries (oneFunctionElf nullPointer) (oneFunctionSection nullPointer)
      (oneFunction nullPointer) (word 0) rfl (.inr ⟨[], (List.append_nil _).symm⟩) rfl).trans
      (congrArg Except.ok hinfo)
  have htable : (oneFunction nullPointer).placed.map (Placed.table 0x1000 id) = [none] := by decide
  refine ⟨hrun, htable, ?_⟩
  rintro ⟨infos, hinfos, hright⟩
  obtain rfl := Except.ok.inj (hrun.symm.trans hinfos)
  cases hright with
  | cons h _ => exact absurd (h.lsda_zero.mpr (List.head_eq_of_cons_eq htable)) (by decide)

end Jmpxx.Audit
