import Jmpxx.Manifest
import Mathlib.Order.Basic
import Mathlib.Order.Nat

namespace Jmpxx.Manifest

open Throwing

variable {w : Width} (buf : Buffer w)

namespace Buffer

def byte (i : ℕ) : UInt8 := buf.bytes[i]?.getD 0

def word (i : ℕ) : UInt32 :=
  (buf.byte i).toUInt32 ||| ((buf.byte (i + 1)).toUInt32 <<< 8) |||
    ((buf.byte (i + 2)).toUInt32 <<< 16) ||| ((buf.byte (i + 3)).toUInt32 <<< 24)

def slice (i n : ℕ) : List UInt8 := (buf.bytes.drop i).take n

end Buffer

/-- The part of an entry after its name: the declared length, the length of the reference, and
where the digest, the reference and the image stand. -/
structure Head where
  length : ℕ
  refLen : ℕ
  digest : ℕ
  ref : ℕ
  image : ℕ

namespace Buffer

def bodyAt (pos : ℕ) : Option ℕ :=
  if pos + 1 ≤ buf.size ∧ pos + 1 + (buf.byte pos).toNat ≤ buf.size then
    some (pos + 1 + (buf.byte pos).toNat)
  else none

def headOf (pos : ℕ) : Head :=
  ⟨(buf.word pos).toNat, (buf.byte (pos + 36)).toNat, pos + 4, pos + 37,
    pos + 37 + (buf.byte (pos + 36)).toNat⟩

/-- The head of the body at `pos`, if it and its reference fit. -/
def headAt (pos : ℕ) : Option Head :=
  if pos + 37 ≤ buf.size ∧ pos + 37 + (buf.headOf pos).refLen ≤ buf.size then
    some (buf.headOf pos)
  else none

def find (want : List UInt8) : ℕ → ℕ → Option ℕ
  | 0, _ => none
  | n + 1, pos => do
    let body ← buf.bodyAt pos
    let h ← buf.headAt body
    if w.wrap (h.image + h.length) ≤ buf.size then
      if buf.slice (pos + 1) (body - (pos + 1)) = want then some body
      else find want n (w.wrap (h.image + h.length))
    else none

def entry (want : List UInt8) : Option ℕ :=
  if 6 ≤ buf.size then buf.find want (buf.byte 5).toNat 6 else none

end Buffer

variable {buf}

theorem Buffer.size_le : buf.size + 2 ^ 31 ≤ 2 ^ w.bits := by
  have h := buf.size_lt
  unfold Buffer.size
  cases w <;> simp only [Width.bits] at h ⊢ <;> omega

/-- Sums that stay near the buffer do not wrap. -/
theorem wrap_eq {n : ℕ} (h : n < buf.size + 2 ^ 31) : w.wrap n = n := by
  have := buf.size_le
  exact Nat.mod_eq_of_lt (by omega)

theorem has_eq {r : Reader} {n : ℕ} (hr : r.pos ≤ buf.size) (hn : n < 2 ^ 31) :
    r.has buf n = decide (r.pos + n ≤ buf.size) := by
  rw [Reader.has, @wrap_eq w buf _ (by omega)]

theorem skip_eq {r : Reader} {n : ℕ} (h : r.pos + n ≤ buf.size) : r.skip w n = ⟨r.pos + n⟩ := by
  have := @wrap_eq w buf (r.pos + n) (by omega)
  rw [Reader.skip, this]

theorem getElem?_byte {i : ℕ} (h : i < buf.size) : buf.bytes[i]? = some (buf.byte i) := by
  unfold Buffer.size at h
  simp [Buffer.byte, h]

theorem byteAt_input {offset i : ℕ} (h : offset + i < buf.size) :
    byteAt buf (.input offset) i = pure (buf.byte (offset + i)) := by
  funext s
  simp only [byteAt, require, getElem?_byte h]
  rfl

theorem u8_eq {r : Reader} (h : r.pos + 1 ≤ buf.size) :
    r.u8 buf = pure (buf.byte r.pos, ⟨r.pos + 1⟩) := by
  rw [Reader.u8, byteAt_input (by omega), pure_bind, Nat.zero_add, @wrap_eq w buf _ (by omega)]

theorem u32_eq {r : Reader} (h : r.pos + 4 ≤ buf.size) :
    r.u32 buf = pure (buf.word r.pos, ⟨r.pos + 4⟩) := by
  have hwrap : ∀ i ≤ 4, w.wrap (r.pos + i) = r.pos + i := fun i hi =>
    @wrap_eq w buf _ (by omega)
  rw [Reader.u32, hwrap 1 (by decide), hwrap 2 (by decide), hwrap 3 (by decide),
    hwrap 4 (by decide), byteAt_input (by omega), byteAt_input (by omega),
    byteAt_input (by omega), byteAt_input (by omega)]
  simp only [pure_bind, Nat.zero_add]
  rfl

theorem length_slice {i n : ℕ} (h : i + n ≤ buf.size) : (buf.slice i n).length = n := by
  unfold Buffer.size at h
  simp only [Buffer.slice, List.length_take, List.length_drop]
  omega

theorem allBelow_pure {σ : Type} {test : ℕ → Comp σ Bool} {p : ℕ → Bool} {n : ℕ}
    (h : ∀ i < n, test i = pure (p i)) : allBelow test n = pure ((List.range n).all p) := by
  induction n with
  | zero => rfl
  | succ n ih =>
    have ih' := ih fun i hi => h i (by omega)
    rw [allBelow, ih', pure_bind, h n (by omega), List.range_succ, List.all_append]
    cases (List.range n).all p <;> simp

def Pointer.Shows (buf : Buffer w) (p : Pointer) (bytes : List UInt8) : Prop :=
  ∀ i b, bytes[i]? = some b → byteAt buf p i = pure b

theorem shows_literal (bytes : List UInt8) : (Pointer.literal bytes).Shows buf bytes := by
  intro i b h
  funext s
  simp only [byteAt, require, h]
  rfl

theorem shows_slice {i n : ℕ} (h : i + n ≤ buf.size) :
    (Pointer.input i).Shows buf (buf.slice i n) := by
  intro k b hk
  have hkn : k < n := by
    have := (List.getElem?_eq_some_iff.mp hk).1
    rw [length_slice h] at this
    exact this
  have hbyte := @getElem?_byte w buf (i + k) (by omega)
  rw [Buffer.slice, List.getElem?_take_of_lt hkn, List.getElem?_drop, hbyte] at hk
  rw [byteAt_input (by omega), Option.some.inj hk]

theorem sameBytes_shows {p q : Pointer} {l l' : List UInt8} {n : ℕ} (hp : p.Shows buf l)
    (hq : q.Shows buf l') (hl : l.length = n) (hl' : l'.length = n) :
    sameBytes buf p q n = pure (decide (l = l')) := by
  have htest : ∀ k < n, (do
      let a ← byteAt buf p k
      let b ← byteAt buf q k
      pure (a == b) : Run Bool) = pure (l[k]? == l'[k]?) := by
    intro k hk
    have hlk : l[k]? = some l[k] := List.getElem?_eq_getElem (by omega)
    have hlk' : l'[k]? = some l'[k] := List.getElem?_eq_getElem (by omega)
    rw [hp k _ hlk, hq k _ hlk', hlk, hlk']
    rfl
  rw [sameBytes, allBelow_pure htest]
  congr 1
  rw [Bool.eq_iff_iff, List.all_eq_true, decide_eq_true_eq]
  simp only [List.mem_range, beq_iff_eq]
  constructor
  · intro h
    apply List.ext_getElem?
    intro k
    by_cases hk : k < n
    · exact h k hk
    · rw [List.getElem?_eq_none (by omega), List.getElem?_eq_none (by omega)]
  · intro h k _
    rw [h]

theorem byte_lt (i : ℕ) : (buf.byte i).toNat < 2 ^ 31 :=
  (buf.byte i).toNat_lt.trans (by decide)

theorem findFrom_shows {p : Pointer} {want : List UInt8} (hp : p.Shows buf want) (n : ℕ) {pos : ℕ}
    (hpos : pos ≤ buf.size) :
    findFrom buf p want.length n ⟨pos⟩ = pure (buf.find want n pos) := by
  induction n generalizing pos with
  | zero => rfl
  | succ n ih =>
    rw [findFrom, Buffer.find, Buffer.bodyAt, has_eq hpos (by decide)]
    by_cases h1 : pos + 1 ≤ buf.size
    · rw [u8_eq h1]
      simp only [h1, decide_true, Bool.not_true, Bool.false_eq_true, if_false, pure_bind, true_and]
      rw [has_eq h1 (byte_lt pos)]
      by_cases h2 : pos + 1 + (buf.byte pos).toNat ≤ buf.size
      · simp only [h2, decide_true, Bool.not_true, Bool.false_eq_true, if_false, if_true]
        rw [skip_eq h2, has_eq h2 (by decide)]
        have hname : (buf.byte pos).toNat = pos + 1 + (buf.byte pos).toNat - (pos + 1) := by omega
        generalize pos + 1 + (buf.byte pos).toNat = body at h2 hname ⊢
        simp only [Option.bind_eq_bind, Option.bind_some, Buffer.headAt, Buffer.headOf, digestBytes]
        by_cases h3 : body + 37 ≤ buf.size
        · rw [u32_eq (by simp only; omega)]
          simp only [pure_bind, h3, decide_true, Bool.not_true, Bool.false_eq_true, if_false, true_and]
          rw [@skip_eq w buf ⟨body + 4⟩ 32 (by simp only; omega), u8_eq (by simp only; omega), pure_bind]
          simp only
          rw [has_eq (by simp only; omega) (byte_lt _)]
          by_cases h4 : body + 37 + (buf.byte (body + 36)).toNat ≤ buf.size
          · simp only [h4, decide_true, Bool.not_true, Bool.false_eq_true, if_false, if_true,
              Option.bind_some]
            rw [skip_eq h4]
            simp only [Reader.has, Reader.skip, Bool.not_eq_true', decide_eq_false_iff_not]
            generalize body + 37 + (buf.byte (body + 36)).toNat = image
            generalize (buf.word body).toNat = length
            by_cases h5 : w.wrap (image + length) ≤ buf.size
            · simp only [h5, not_true_eq_false, if_false, if_true, Reader.pointer]
              rw [ih h5]
              have hslice := @length_slice w buf (pos + 1) (body - (pos + 1)) (by omega)
              by_cases hlen : (buf.byte pos).toNat = want.length
              · have hbody : body - (pos + 1) = want.length := by omega
                rw [if_pos hlen, sameBytes_shows (shows_slice (n := want.length) (by omega)) hp
                  (length_slice (by omega)) rfl, pure_bind, hbody]
                by_cases hsame : buf.slice (pos + 1) want.length = want
                · simp [hsame]
                · simp [hsame]
              · rw [if_neg hlen, if_neg]
                intro hsame
                rw [hsame] at hslice
                omega
            · simp [h5]
          · simp [h4]
        · simp [h3]
      · simp [h2]
    · simp [h1]

theorem findEntry_shows {p : Pointer} {want : List UInt8} (hp : p.Shows buf want) :
    findEntry buf p want.length = pure (buf.entry want) := by
  rw [findEntry, Buffer.entry, has_eq (Nat.zero_le _) (by decide)]
  by_cases h : 6 ≤ buf.size
  · have h4 : (⟨0⟩ : Reader).skip w 4 = ⟨4⟩ := @skip_eq w buf ⟨0⟩ 4 (by simp only; omega)
    simp only [Nat.zero_add, h, decide_true, Bool.not_true, Bool.false_eq_true, if_false, if_true,
      h4]
    rw [u8_eq (by simp only; omega), pure_bind, u8_eq (by simp only; omega), pure_bind]
    exact findFrom_shows hp _ h
  · simp [h]

theorem findEntry_eq {a len : ℕ} (ha : a + len ≤ buf.size) :
    findEntry buf (.input a) len = pure (buf.entry (buf.slice a len)) := by
  have hfind := findEntry_shows (shows_slice ha)
  rwa [length_slice ha] at hfind

theorem bodyAt_le {pos body : ℕ} (h : buf.bodyAt pos = some body) : body ≤ buf.size := by
  unfold Buffer.bodyAt at h
  split_ifs at h with hfit
  have := Option.some.inj h
  omega

theorem find_le {want : List UInt8} {n pos body : ℕ} (h : buf.find want n pos = some body) :
    body ≤ buf.size := by
  induction n generalizing pos with
  | zero => simp [Buffer.find] at h
  | succ n ih =>
    rw [Buffer.find, Option.bind_eq_bind, Option.bind_eq_some_iff] at h
    obtain ⟨first, hfirst, h⟩ := h
    rw [Option.bind_eq_bind, Option.bind_eq_some_iff] at h
    obtain ⟨_, _, h⟩ := h
    split_ifs at h with hfit hname
    · exact Option.some.inj h ▸ bodyAt_le hfirst
    · exact ih h

theorem entry_le {want : List UInt8} {body : ℕ} (h : buf.entry want = some body) :
    body ≤ buf.size := by
  unfold Buffer.entry at h
  split_ifs at h
  exact find_le h

theorem readBytes_eq {i n : ℕ} (h : i + n ≤ buf.size) :
    readBytes buf (.input i) n = pure (buf.slice i n) := by
  funext s
  simp only [readBytes, require, if_pos h]
  rfl

end Jmpxx.Manifest
