import Jmpxx.Cursor
import Jmpxx.Radix
import Mathlib.Data.Nat.Bitwise

namespace Jmpxx.Audit

open Cursor

/-- What a reading raises; `endless` stands for a loop that goes on, which none does. -/
inductive Error where
  | index
  | struct
  | key (size : ℕ)
  | value (message : String)
  | endless
  deriving DecidableEq, Repr

abbrev Reader := Cursor UInt8

abbrev Read (α : Type) := Scan UInt8 Error α

def peOmit : ℕ := 0xFF
def peUleb128 : ℕ := 0x01
def peUdata2 : ℕ := 0x02
def peUdata4 : ℕ := 0x03
def peUdata8 : ℕ := 0x04
def peSleb128 : ℕ := 0x09
def peSdata2 : ℕ := 0x0A
def peSdata4 : ℕ := 0x0B
def peSdata8 : ℕ := 0x0C

def eof (r : Reader) : Bool := r.pos ≥ r.data.length

def u8 : Read ℕ := do
  let v ← next .index
  pure v.toNat

/-- `struct.unpack_from`, little-endian, of a number of so many bytes. -/
def fixed (size : ℕ) (signed : Bool) : Read ℤ :=
  if size ∈ [1, 2, 4, 8] then do
    let bytes ← take .struct size
    let v : ℕ := Nat.ofDigits 256 (bytes.map UInt8.toNat)
    pure (if signed then (v : ℤ).bmod (2 ^ (8 * size)) else v)
  else throw (.key size)

/-- The loop of `uleb`. A turn reads a byte, and the one behind the last byte finds none. -/
def ulebLoop : ℕ → ℕ → ℕ → Read ℕ
  | 0, _, _ => throw .endless
  | turns + 1, result, shift => do
    let byte ← u8
    let result := result ||| (byte &&& 0x7F) <<< shift
    if byte &&& 0x80 = 0 then pure result else ulebLoop turns result (shift + 7)

def uleb : Read ℕ := do
  let r ← get
  ulebLoop (r.unread.length + 1) 0 0

def slebLoop : ℕ → ℕ → ℕ → Read ℤ
  | 0, _, _ => throw .endless
  | turns + 1, result, shift => do
    let byte ← u8
    let result := result ||| (byte &&& 0x7F) <<< shift
    let shift := shift + 7
    if byte &&& 0x80 = 0 then
      pure (if byte &&& 0x40 = 0 then (result : ℤ) else result - 2 ^ shift)
    else slebLoop turns result shift

def sleb : Read ℤ := do
  let r ← get
  slebLoop (r.unread.length + 1) 0 0

/-- `bytes.decode("ascii", "replace")`. -/
def decodeAscii (bytes : List UInt8) : List Char :=
  bytes.map fun b => if b.toNat < 128 then Char.ofNat b.toNat else Char.ofNat 0xFFFD

def cstring : Read (List Char) := do
  let r ← get
  match r.unread.idxOf? 0 with
  | none => throw (.value "subsection not found")
  | some n => do
    seek (r.pos + n + 1)
    pure (decodeAscii (r.unread.take n))

def hex (n : ℕ) : String :=
  let digits := Nat.toDigits 16 n
  String.ofList (if digits.length < 2 then '0' :: digits else digits)

def number (encoding ptrSize : ℕ) : Read ℤ :=
  let fmt := encoding &&& 0x0F
  if fmt = 0x00 then fixed ptrSize false
  else if fmt = peUleb128 then do
    let v ← uleb
    pure v
  else if fmt = peSleb128 then sleb
  else if fmt ∈ [peUdata2, peUdata4, peUdata8] then fixed (1 <<< (fmt - 1)) false
  else if fmt ∈ [peSdata2, peSdata4, peSdata8] then fixed (1 <<< (fmt - peSdata2 + 1)) true
  else throw (.value ("unsupported pointer encoding 0x" ++ hex encoding))

def encoded (encoding ptrSize : ℕ) (funcStart : ℕ) : Read ℕ :=
  if encoding = peOmit then pure 0
  else do
    let r ← get
    let here := r.addr
    let value ← number encoding ptrSize
    let app := encoding &&& 0x70
    -- the mask keeps the low bits, which is the remainder also of a negative number
    if app = 0x10 then pure ((value + here) % 2 ^ (8 * ptrSize)).toNat
    else if app = 0x40 then pure ((value + funcStart) % 2 ^ (8 * ptrSize)).toNat
    else if app ∈ [0x00, 0x30] then pure (value % 2 ^ (8 * ptrSize)).toNat
    else throw (.value ("unsupported pointer application 0x" ++ hex encoding))

inductive Format where
  | absptr
  | uleb128
  | udata2
  | udata4
  | udata8
  | sleb128
  | sdata2
  | sdata4
  | sdata8
  deriving DecidableEq, Repr

namespace Format

def code : Format → ℕ
  | absptr => 0x00
  | uleb128 => 0x01
  | udata2 => 0x02
  | udata4 => 0x03
  | udata8 => 0x04
  | sleb128 => 0x09
  | sdata2 => 0x0A
  | sdata4 => 0x0B
  | sdata8 => 0x0C

def signed : Format → Bool
  | sleb128 | sdata2 | sdata4 | sdata8 => true
  | _ => false

def width (size : ℕ) : Format → Option ℕ
  | absptr => some size
  | udata2 | sdata2 => some 2
  | udata4 | sdata4 => some 4
  | udata8 | sdata8 => some 8
  | uleb128 | sleb128 => none

def bits (f : Format) (size more : ℕ) : ℕ := (f.width size).elim (7 * (more + 1)) (8 * ·)

def Fits (f : Format) (size more : ℕ) (v : ℤ) : Prop :=
  if f.signed then -2 ^ (f.bits size more - 1) ≤ v ∧ v < 2 ^ (f.bits size more - 1)
  else 0 ≤ v ∧ v < 2 ^ f.bits size more

instance (f : Format) (size more : ℕ) (v : ℤ) : Decidable (f.Fits size more v) := by
  unfold Fits
  infer_instance

end Format

/-- A number as it is laid out in a format, for pointers of `size` bytes. Where the format leaves the
length open, any length does that the number fits: `more` is the least, or says how far it is
padded. -/
structure Number (f : Format) (size : ℕ) where
  value : ℤ
  more : ℕ
  fits : f.Fits size more value

variable {f : Format} {size : ℕ}

def Number.bytes (x : Number f size) : List UInt8 :=
  ((f.width size).elim (Radix.flagged 128 x.more x.value) (Radix.digits 256 · x.value)).map
    UInt8.ofNat

/-- How a number stands for an address. -/
inductive Application where
  | absolute
  | pcrel
  | datarel
  | funcrel
  deriving DecidableEq, Repr

def Application.code : Application → ℕ
  | absolute => 0x00
  | pcrel => 0x10
  | datarel => 0x30
  | funcrel => 0x40

structure Encoding where
  format : Format
  application : Application
  indirect : Bool
  deriving DecidableEq, Repr

namespace Encoding

def byte (e : Encoding) : UInt8 :=
  UInt8.ofNat (e.format.code + e.application.code + if e.indirect then 0x80 else 0)

def base (e : Encoding) (here funcStart : ℕ) : ℕ :=
  match e.application with
  | .pcrel => here
  | .funcrel => funcStart
  | .absolute | .datarel => 0

/-- The address a number leads to, in as many bits as a pointer has. -/
def resolve (e : Encoding) (size here funcStart : ℕ) (v : ℤ) : ℕ :=
  ((v + e.base here funcStart) % 2 ^ (8 * size)).toNat

end Encoding

section Numbers

variable {r : Reader} {shift turns : ℕ}

theorem length_le_of_at {xs : List UInt8} (h : r.At xs) : xs.length ≤ r.unread.length := h.length_le

theorem reads_u8 (b : UInt8) : Reads u8 r [b] b.toNat :=
  Reads.andPure UInt8.toNat (Reads.next Error.index b)

theorem reads_fixed {xs : List UInt8} (signed : Bool) (h : xs.length ∈ [1, 2, 4, 8]) :
    Reads (fixed xs.length signed) r xs
      (let v : ℕ := Nat.ofDigits 256 (xs.map UInt8.toNat)
      if signed then (v : ℤ).bmod (2 ^ (8 * xs.length)) else v) := by
  unfold fixed
  rw [if_pos h]
  exact (Reads.take Error.struct rfl).andPure _

theorem and_low_of_lt {d : ℕ} (h : d < 128) : d &&& 0x7F = d ∧ d &&& 0x80 = 0 := by
  revert d
  decide

theorem and_low_of_flagged {d : ℕ} (h : d < 128) :
    (d + 128) &&& 0x7F = d ∧ (d + 128) &&& 0x80 ≠ 0 := by
  revert d
  decide

theorem and_sign {d : ℕ} (h : d < 128) : d &&& 0x40 = 0 ↔ d < 64 := by
  revert d
  decide

theorem or_payload {result d : ℕ} (h : result < 2 ^ shift) :
    result ||| d <<< shift = result + 2 ^ shift * d := by
  rw [Nat.or_comm, ← Nat.shiftLeft_add_eq_or_of_lt h, Nat.shiftLeft_eq, Nat.add_comm, Nat.mul_comm]

theorem payload_lt {result d : ℕ} (h : result < 2 ^ shift) (hd : d < 128) :
    result + 2 ^ shift * d < 2 ^ (shift + 7) := by
  have hmul : 2 ^ shift * (d + 1) ≤ 2 ^ shift * 128 := Nat.mul_le_mul_left _ hd
  rw [Nat.pow_add]
  rw [Nat.mul_add] at hmul
  omega

theorem toNat_byte {d : ℕ} (h : d < 256) : (UInt8.ofNat d).toNat = d :=
  UInt8.toNat_ofNat_of_lt h

theorem reads_ulebLoop {more v result : ℕ} (hturns : more < turns) (hresult : result < 2 ^ shift)
    (hv : v < 128 ^ (more + 1)) :
    Reads (ulebLoop turns result shift) r ((Radix.flagged 128 more v).map UInt8.ofNat)
      (result + 2 ^ shift * v) := by
  obtain ⟨turns, rfl⟩ := Nat.exists_eq_succ_of_ne_zero (Nat.ne_of_gt (Nat.zero_lt_of_lt hturns))
  have hlow : ((v : ℤ) % (128 : ℕ)).toNat = v % 128 := by omega
  have hd := Nat.mod_lt v (show 128 > 0 by decide)
  induction more generalizing v result shift turns r with
  | zero =>
    have hvd : v % 128 = v := Nat.mod_eq_of_lt (by simpa using hv)
    unfold ulebLoop Radix.flagged
    rw [hlow, hvd]
    rw [hvd] at hd
    rw [List.map_singleton]
    refine (List.append_nil [UInt8.ofNat v]) ▸ (reads_u8 (UInt8.ofNat v)).bind ?_
    rw [toNat_byte (by omega), (and_low_of_lt hd).1, if_pos (and_low_of_lt hd).2, or_payload hresult]
    exact Reads.pure _
  | succ more ih =>
    unfold ulebLoop Radix.flagged
    rw [hlow, List.map_cons]
    refine (reads_u8 (UInt8.ofNat (v % 128 + 128))).bind ?_
    rw [toNat_byte (by omega), (and_low_of_flagged hd).1, if_neg (and_low_of_flagged hd).2,
      or_payload hresult]
    have hdiv : (v : ℤ) / (128 : ℕ) = ((v / 128 : ℕ) : ℤ) := by omega
    have hrest : result + 2 ^ shift * v =
        result + 2 ^ shift * (v % 128) + 2 ^ (shift + 7) * (v / 128) := by
      conv_lhs => rw [← Nat.mod_add_div v 128]
      ring
    rw [hdiv, hrest]
    obtain ⟨turns, rfl⟩ := Nat.exists_eq_succ_of_ne_zero (show turns ≠ 0 by omega)
    refine ih (payload_lt hresult hd) ?_ turns (by omega) (by omega) (Nat.mod_lt _ (by decide))
    rw [Nat.div_lt_iff_lt_mul (by decide)]
    exact hv

/-- The signed loop, whose last turn takes off what a raised sign bit stands for. -/
theorem reads_slebLoop {more result : ℕ} {v : ℤ} (hturns : more < turns)
    (hresult : result < 2 ^ shift) (hlow : -(64 * 128 ^ more) ≤ v) (hhigh : v < 64 * 128 ^ more) :
    Reads (slebLoop turns result shift) r ((Radix.flagged 128 more v).map UInt8.ofNat)
      (result + 2 ^ shift * v) := by
  obtain ⟨turns, rfl⟩ := Nat.exists_eq_succ_of_ne_zero (Nat.ne_of_gt (Nat.zero_lt_of_lt hturns))
  have hd := Radix.toNat_emod_lt (b := 128) (by decide) v
  have hcoe : ((v % 128).toNat : ℤ) = v % 128 := Int.toNat_of_nonneg (by omega)
  induction more generalizing v result shift turns r with
  | zero =>
    unfold slebLoop Radix.flagged
    rw [List.map_singleton]
    refine (List.append_nil [UInt8.ofNat (v % (128 : ℕ)).toNat]) ▸ (reads_u8 _).bind ?_
    rw [toNat_byte (by omega), (and_low_of_lt hd).1, if_pos (and_low_of_lt hd).2,
      or_payload hresult]
    have hanswer : (if (v % (128 : ℕ)).toNat &&& 0x40 = 0 then
        ((result + 2 ^ shift * (v % (128 : ℕ)).toNat : ℕ) : ℤ)
        else ((result + 2 ^ shift * (v % (128 : ℕ)).toNat : ℕ) : ℤ) - 2 ^ (shift + 7)) =
        result + 2 ^ shift * v := by
      push_cast
      rw [hcoe, pow_add]
      split_ifs with hsign
      · have hlow := (and_sign hd).mp hsign
        rw [Int.emod_eq_of_lt (by omega) (by omega)]
      · have hraised := mt (and_sign hd).mpr hsign
        rw [show v % 128 = v + 128 by omega]
        ring
    rw [← hanswer]
    exact Reads.pure _
  | succ more ih =>
    unfold slebLoop Radix.flagged
    rw [List.map_cons]
    refine (reads_u8 _).bind ?_
    rw [toNat_byte (by omega), (and_low_of_flagged hd).1, if_neg (and_low_of_flagged hd).2,
      or_payload hresult]
    have hrest : (result : ℤ) + 2 ^ shift * v =
        (result + 2 ^ shift * (v % (128 : ℕ)).toNat : ℕ) + 2 ^ (shift + 7) * (v / (128 : ℕ)) := by
      conv_lhs => rw [← Int.emod_add_mul_ediv v 128]
      push_cast
      rw [hcoe]
      ring
    rw [hrest]
    obtain ⟨turns, rfl⟩ := Nat.exists_eq_succ_of_ne_zero (show turns ≠ 0 by omega)
    rw [pow_succ] at hlow hhigh
    exact ih (payload_lt hresult hd) (by omega) (by omega) turns (by omega)
      (Radix.toNat_emod_lt (by decide) _) (Int.toNat_of_nonneg (by omega))

end Numbers

section Layouts

variable {r : Reader}

theorem Number.reads_uleb (x : Number .uleb128 size) : Reads uleb r x.bytes x.value.toNat := by
  intro h
  obtain ⟨v, hv⟩ := Int.eq_ofNat_of_zero_le x.fits.1
  have hlt : (v : ℤ) < 2 ^ (7 * (x.more + 1)) := hv ▸ x.fits.2
  have hlt' : v < 128 ^ (x.more + 1) := by
    rw [pow_mul] at hlt
    exact_mod_cast hlt
  have hturns : x.more < r.unread.length + 1 := by
    have hlen := length_le_of_at h
    simp [Number.bytes, Format.width] at hlen
    omega
  have hloop := @reads_ulebLoop r 0 _ _ _ 0 hturns Nat.one_pos hlt'
  rw [Nat.zero_add, pow_zero, Nat.one_mul, ← hv] at hloop
  rw [hv, Int.toNat_natCast]
  exact Reads.get hloop h

theorem Number.reads_sleb (x : Number .sleb128 size) : Reads sleb r x.bytes x.value := by
  intro h
  have hpow : (2 : ℤ) ^ (7 * (x.more + 1) - 1) = 64 * 128 ^ x.more := by
    rw [show 7 * (x.more + 1) - 1 = 6 + 7 * x.more by omega, pow_add, pow_mul]
    norm_num
  have hlow : -(64 * 128 ^ x.more) ≤ x.value := hpow ▸ x.fits.1
  have hhigh : x.value < 64 * 128 ^ x.more := hpow ▸ x.fits.2
  have hturns : x.more < r.unread.length + 1 := by
    have hlen := length_le_of_at h
    simp [Number.bytes, Format.width] at hlen
    omega
  have hloop := @reads_slebLoop r 0 _ _ 0 _ hturns Nat.one_pos hlow hhigh
  rw [pow_zero, Int.one_mul, Nat.cast_zero, Int.zero_add] at hloop
  exact Reads.get hloop h

theorem Number.reads_fixed (x : Number f size) {n : ℕ} (hwidth : f.width size = some n)
    (hn : n ∈ [1, 2, 4, 8]) : Reads (fixed n f.signed) r x.bytes x.value := by
  have hbytes : x.bytes = (Radix.digits 256 n x.value).map UInt8.ofNat := by
    rw [Number.bytes, hwidth]
    rfl
  have hlen : x.bytes.length = n := by rw [hbytes, List.length_map, Radix.length_digits]
  have hback : x.bytes.map UInt8.toNat = Radix.digits 256 n x.value := by
    rw [hbytes, List.map_map]
    refine (List.map_congr_left fun d hd => ?_).trans (List.map_id _)
    exact toNat_byte (Radix.lt_of_mem_digits (by decide) hd)
  have hread := @Audit.reads_fixed r x.bytes f.signed (by rwa [hlen])
  rw [hlen, hback] at hread
  have hfits := x.fits
  unfold Format.Fits Format.bits at hfits
  rw [hwidth, Option.elim_some] at hfits
  have hpow : (256 ^ n : ℕ) = 2 ^ (8 * n) := by rw [pow_mul]; norm_num
  cases hsigned : f.signed with
  | true =>
    rw [hsigned, if_pos rfl] at hfits
    have hhalf : (2 ^ (8 * n) : ℤ) = 2 * 2 ^ (8 * n - 1) := by
      rw [← pow_succ', Nat.sub_add_cancel]
      rcases List.mem_cons.mp hn with rfl | hn
      · decide
      · have : n ≠ 0 := by rintro rfl; exact absurd hn (by decide)
        omega
    have hvalue := Radix.bmod_ofDigits_digits (b := 256) (n := n) (v := x.value) (by decide)
      (by rw [hpow]; push_cast; omega) (by rw [hpow]; push_cast; omega)
    rw [hpow] at hvalue
    rw [hsigned] at hread
    rw [← hvalue]
    exact hread
  | false =>
    rw [hsigned, if_neg Bool.false_ne_true] at hfits
    have hvalue := Radix.ofDigits_digits_of_lt (b := 256) (n := n) (by decide) hfits.1
      (by rw [hpow]; exact_mod_cast hfits.2)
    rw [hsigned] at hread
    rw [← hvalue]
    exact hread

/-- Whatever the format, the number is read back. -/
theorem Number.reads (x : Number f size) (hsize : size ∈ [4, 8]) {encoding : ℕ}
    (hfmt : encoding &&& 0x0F = f.code) : Reads (number encoding size) r x.bytes x.value := by
  unfold number
  rw [hfmt]
  cases f with
  | absptr => exact x.reads_fixed rfl (List.subset_def.mp (by decide : [4, 8] ⊆ [1, 2, 4, 8]) hsize)
  | uleb128 =>
    have hread := (x.reads_uleb (r := r)).andPure (fun v : ℕ => (v : ℤ))
    rw [Int.toNat_of_nonneg x.fits.1] at hread
    exact hread
  | sleb128 => exact x.reads_sleb
  | udata2 | udata4 | udata8 | sdata2 | sdata4 | sdata8 => exact x.reads_fixed rfl (by decide)

theorem Encoding.byte_ne_omit (e : Encoding) : e.byte.toNat ≠ peOmit := by
  obtain ⟨f, a, i⟩ := e
  cases f <;> cases a <;> cases i <;> decide

theorem Encoding.byte_format (e : Encoding) : e.byte.toNat &&& 0x0F = e.format.code := by
  obtain ⟨f, a, i⟩ := e
  cases f <;> cases a <;> cases i <;> rfl

theorem Encoding.byte_application (e : Encoding) :
    e.byte.toNat &&& 0x70 = e.application.code := by
  obtain ⟨f, a, i⟩ := e
  cases f <;> cases a <;> cases i <;> rfl

/-- A pointer is read as the address its number leads to. -/
theorem reads_encoded (e : Encoding) (x : Number e.format size) (hsize : size ∈ [4, 8])
    (funcStart : ℕ) : Reads (encoded e.byte.toNat size funcStart) r x.bytes
      (e.resolve size r.addr funcStart x.value) := by
  unfold encoded
  rw [if_neg e.byte_ne_omit]
  refine Reads.get ?_
  rw [← List.append_nil x.bytes]
  refine (x.reads hsize e.byte_format).bind ?_
  rw [e.byte_application]
  unfold Encoding.resolve Encoding.base
  cases e.application with
  | absolute =>
    rw [Nat.cast_zero, Int.add_zero]
    exact Reads.pure _
  | pcrel => exact Reads.pure _
  | datarel =>
    rw [Nat.cast_zero, Int.add_zero]
    exact Reads.pure _
  | funcrel => exact Reads.pure _

theorem reads_encoded_omit (funcStart : ℕ) : Reads (encoded peOmit size funcStart) r [] 0 :=
  Reads.pure 0

theorem reads_cstring {text : List UInt8} (h : 0 ∉ text) :
    Reads cstring r (text ++ [0]) (decodeAscii text) := by
  rintro ⟨rest, hrest⟩
  have hfind : r.unread.idxOf? 0 = some text.length := by
    have hnone : text.findIdx? (· == 0) = none :=
      List.findIdx?_eq_none_iff.mpr fun b hb => beq_false_of_ne fun heq => h (heq ▸ hb)
    rw [← hrest, List.append_assoc, List.idxOf?, List.findIdx?_append, hnone, List.cons_append,
      List.findIdx?_cons]
    simp
  have hrun : cstring r = (do
      seek (r.pos + text.length + 1)
      pure (decodeAscii (r.unread.take text.length)) : Read (List Char)) r := by
    show (match r.unread.idxOf? 0 with
      | none => throw (.value "subsection not found")
      | some n => do
        seek (r.pos + n + 1)
        pure (decodeAscii (r.unread.take n)) : Read (List Char)) r = _
    rw [hfind]
  rw [hrun, ← hrest, List.append_assoc, List.take_left, List.length_append]
  rfl

end Layouts

end Jmpxx.Audit
