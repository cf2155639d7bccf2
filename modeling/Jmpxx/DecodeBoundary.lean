import Jmpxx.ErrorCode
import Jmpxx.ManifestLayout
import Jmpxx.Propagation

namespace Jmpxx.Boundary

open Propagation (Result)

/-- The decoder's own failures. -/
inductive DecodeError where
  | truncatedHeader
  | badDomain
  | payloadOverruns
  deriving DecidableEq, Repr

def DecodeError.code : DecodeError → Int32
  | truncatedHeader => 1
  | badDomain => 2
  | payloadOverruns => 3

abbrev decodeDomain : Int32 := 0x0DEC

abbrev maxPayload : ℕ := 32

abbrev header : ℕ := 6

structure WireError where
  domain : Int32
  code : Int32
  payload : Vector UInt8 maxPayload
  payloadLen : ℕ
  deriving DecidableEq

def word (b0 b1 b2 b3 : UInt8) : UInt32 :=
  b0.toUInt32 ||| (b1.toUInt32 <<< 8) ||| (b2.toUInt32 <<< 16) ||| (b3.toUInt32 <<< 24)

def DecodeError.error (d : DecodeError) : Error := ⟨d.code, decodeDomain⟩

theorem DecodeError.error_injective : Function.Injective DecodeError.error := by
  intro d d' h
  have hcode := congrArg Error.code h
  cases d <;> cases d' <;> first | rfl | exact absurd hcode (by decide)

/-- `return fail(error(d, decode_domain))`. -/
def refuse (d : DecodeError) : Result WireError Error :=
  Result.ofFailure .move (Propagation.fail d.error)

/-- The loop that fills the payload; `none` is an access outside of one of the two arrays. -/
def copyPayload (data : List UInt8) (payload : Vector UInt8 maxPayload) :
    ℕ → Option (Vector UInt8 maxPayload)
  | 0 => some payload
  | n + 1 => do
    let copied ← copyPayload data payload n
    let b ← data[header + n]?
    if h : n < maxPayload then some (copied.set n b) else none

/-- `decode(data, size)`; a read outside of `data` is `none`. -/
def decode (data : List UInt8) (size : ℕ) : Option (Result WireError Error) := do
  if size < header then some (refuse .truncatedHeader)
  else
    let domain ← data[0]?
    if 16 < domain.toNat then some (refuse .badDomain)
    else
      let b1 ← data[1]?
      let b2 ← data[2]?
      let b3 ← data[3]?
      let b4 ← data[4]?
      let declared ← data[5]?
      let available := size - header
      if available < declared.toNat ∨ maxPayload < declared.toNat then
        some (refuse .payloadOverruns)
      else
        let payload ← copyPayload data (Vector.replicate maxPayload 0) declared.toNat
        some (.value ⟨Int32.ofNat domain.toNat, (word b1 b2 b3 b4).toInt32, payload,
          declared.toNat⟩)

/-- An error that a sender may write. -/
structure Sent where
  domain : UInt8
  code : Int32
  payload : List UInt8
  domain_le : domain.toNat ≤ 16
  payload_le : payload.length ≤ maxPayload

namespace Sent

def bytes (s : Sent) : List UInt8 :=
  [s.domain, s.code.toUInt32.toUInt8, (s.code.toUInt32 >>> 8).toUInt8,
    (s.code.toUInt32 >>> 16).toUInt8, (s.code.toUInt32 >>> 24).toUInt8,
    UInt8.ofNat s.payload.length] ++ s.payload

def wire (s : Sent) : WireError where
  domain := Int32.ofNat s.domain.toNat
  code := s.code
  payload := Vector.ofFn fun i => s.payload.getD i 0
  payloadLen := s.payload.length

end Sent

/-- The first thing that is wrong with a buffer. -/
def DecodeError.Of (data : List UInt8) : DecodeError → Prop
  | truncatedHeader => data.length < header
  | badDomain => ∃ domain rest, data = domain :: rest ∧ header ≤ data.length ∧ 16 < domain.toNat
  | payloadOverruns => ∃ domain b1 b2 b3 b4 declared rest,
    data = [domain, b1, b2, b3, b4, declared] ++ rest ∧ domain.toNat ≤ 16 ∧
      (rest.length < declared.toNat ∨ maxPayload < declared.toNat)

section Words

theorem toNat_word (b0 b1 b2 b3 : UInt8) : (word b0 b1 b2 b3).toNat =
    b0.toNat + 256 * (b1.toNat + 256 * (b2.toNat + 256 * b3.toNat)) :=
  (Manifest.little_four b0 b1 b2 b3).symm

/-- A word is read back from its bytes. -/
theorem word_bytes (n : UInt32) :
    word n.toUInt8 (n >>> 8).toUInt8 (n >>> 16).toUInt8 (n >>> 24).toUInt8 = n := by
  apply UInt32.toNat_inj.mp
  exact (Manifest.little_four ..).symm.trans (Manifest.little_length_word n)

theorem bytes_word (b0 b1 b2 b3 : UInt8) :
    (word b0 b1 b2 b3).toUInt8 = b0 ∧ (word b0 b1 b2 b3 >>> 8).toUInt8 = b1 ∧
      (word b0 b1 b2 b3 >>> 16).toUInt8 = b2 ∧ (word b0 b1 b2 b3 >>> 24).toUInt8 = b3 := by
  have h0 := b0.toNat_lt
  have h1 := b1.toNat_lt
  have h2 := b2.toNat_lt
  have h3 := b3.toNat_lt
  have hword := toNat_word b0 b1 b2 b3
  refine ⟨?_, ?_, ?_, ?_⟩
  all_goals
    apply UInt8.toNat_inj.mp
    simp only [UInt32.toNat_toUInt8, UInt32.toNat_shiftRight, UInt32.reduceToNat, Nat.reduceMod,
      Nat.shiftRight_eq_div_pow, hword]
    omega

end Words

variable {data rest : List UInt8} {domain b1 b2 b3 b4 declared : UInt8}

/-- Within both arrays the loop copies what follows the header. -/
theorem copyPayload_eq {head : List UInt8} (hhead : head.length = header) {n : ℕ}
    (hrest : n ≤ rest.length) (hn : n ≤ maxPayload) :
    copyPayload (head ++ rest) (Vector.replicate maxPayload 0) n =
      some (Vector.ofFn fun i => (rest.take n).getD i 0) := by
  induction n with
  | zero =>
    apply congrArg some
    apply Vector.ext
    intro i hi
    simp
  | succ n ih =>
    have hbyte : (head ++ rest)[header + n]? = some rest[n] := by
      rw [List.getElem?_append_right (by omega), hhead, Nat.add_sub_cancel_left]
      exact List.getElem?_eq_getElem hrest
    rw [copyPayload, ih (by omega) (by omega), hbyte]
    simp only [Option.bind_eq_bind, Option.bind_some, dif_pos (show n < maxPayload from hn)]
    apply congrArg some
    apply Vector.ext
    intro i hi
    rw [Vector.getElem_set, Vector.getElem_ofFn, Vector.getElem_ofFn]
    by_cases hin : n = i
    · subst hin
      simp [List.getD, hrest]
    · rw [if_neg hin]
      by_cases hlt : i < n
      · simp [List.getD, hlt, Nat.lt_succ_of_lt hlt]
      · simp [List.getD, hlt, show ¬ i < n + 1 by omega]

/-- What becomes of a buffer that holds a header. -/
theorem decode_header (hdata : data = [domain, b1, b2, b3, b4, declared] ++ rest) :
    decode data data.length =
      if 16 < domain.toNat then some (refuse .badDomain)
      else if rest.length < declared.toNat ∨ maxPayload < declared.toNat then
        some (refuse .payloadOverruns)
      else some (.value ⟨Int32.ofNat domain.toNat, (word b1 b2 b3 b4).toInt32,
        Vector.ofFn fun i => (rest.take declared.toNat).getD i 0, declared.toNat⟩) := by
  have hlength : data.length = header + rest.length := by rw [hdata, List.length_append]; rfl
  rw [decode, if_neg (by omega)]
  have havailable : data.length - header = rest.length := by omega
  simp only [havailable, Option.bind_eq_bind]
  subst hdata
  show (if 16 < domain.toNat then _ else _) = _
  split_ifs with hdomain hover
  · rfl
  · exact if_pos hover
  · show (if _ then _ else _) = _
    rw [if_neg hover, copyPayload_eq rfl (by omega) (by omega)]
    rfl

theorem exists_header (h : header ≤ data.length) : ∃ domain b1 b2 b3 b4 declared rest,
    data = [domain, b1, b2, b3, b4, declared] ++ rest := by
  obtain ⟨d, c1, c2, c3, c4, n, rest, rfl⟩ : ∃ d c1 c2 c3 c4 n rest,
      data = d :: c1 :: c2 :: c3 :: c4 :: n :: rest := by
    match data, h with
    | d :: c1 :: c2 :: c3 :: c4 :: n :: rest, _ => exact ⟨d, c1, c2, c3, c4, n, rest, rfl⟩
  exact ⟨d, c1, c2, c3, c4, n, rest, rfl⟩

theorem decode_truncated (h : data.length < header) :
    decode data data.length = some (refuse .truncatedHeader) := if_pos h

/-- A domain of the accepted range is not changed by its conversions. -/
theorem toInt_ofNat {n : ℕ} (hn : n ≤ 16) : (Int32.ofNat n).toInt = n :=
  Int32.toInt_ofNat_of_lt (by omega)

namespace Sent

theorem toNat_length {s : Sent} : (UInt8.ofNat s.payload.length).toNat = s.payload.length :=
  UInt8.toNat_ofNat_of_lt (Nat.lt_of_le_of_lt s.payload_le (by decide))

/-- Nothing of what is sent is lost. -/
theorem wire_injective : Function.Injective wire := by
  intro s t h
  have hdomain := congrArg WireError.domain h
  have hcode : s.code = t.code := congrArg WireError.code h
  have hlength : s.payload.length = t.payload.length := congrArg WireError.payloadLen h
  have hs := s.domain_le
  have ht := t.domain_le
  have hpayload : s.payload = t.payload := by
    apply List.ext_getElem hlength
    intro i hi hi'
    have hbound : i < maxPayload := Nat.lt_of_lt_of_le hi s.payload_le
    have hbyte := congrArg (fun w => w.payload[i]) h
    simpa [wire, List.getD, hi, hi'] using hbyte
  have hdomain' : s.domain.toNat = t.domain.toNat := by
    have hint := congrArg Int32.toInt hdomain
    rw [wire, wire, toInt_ofNat hs, toInt_ofNat ht] at hint
    exact_mod_cast hint
  cases s
  cases t
  obtain rfl := UInt8.toNat_inj.mp hdomain'
  obtain rfl := hcode
  obtain rfl := hpayload
  rfl

/-- What a sender wrote is received, whatever follows it in the buffer. -/
theorem decode_bytes (s : Sent) (tail : List UInt8) :
    decode (s.bytes ++ tail) (s.bytes ++ tail).length = some (.value s.wire) := by
  have hlen := @toNat_length s
  have hdomain := s.domain_le
  have hpayload := s.payload_le
  have hdata : s.bytes ++ tail = [s.domain, s.code.toUInt32.toUInt8,
      (s.code.toUInt32 >>> 8).toUInt8, (s.code.toUInt32 >>> 16).toUInt8,
      (s.code.toUInt32 >>> 24).toUInt8, UInt8.ofNat s.payload.length] ++ (s.payload ++ tail) := by
    rw [bytes, List.append_assoc]
  rw [decode_header hdata, hlen, if_neg (by omega), if_neg (by rw [List.length_append]; omega),
    List.take_left, word_bytes]
  rfl

end Sent

/-- A header that nothing is wrong with and the payload behind it are what a sender writes. -/
theorem sent_of_header (hdata : data = [domain, b1, b2, b3, b4, declared] ++ rest)
    (hdomain : domain.toNat ≤ 16)
    (hover : ¬ rest.length < declared.toNat ∧ ¬ maxPayload < declared.toNat) :
    ∃ s : Sent, s.bytes <+: data := by
  have htake : (rest.take declared.toNat).length = declared.toNat := by
    rw [List.length_take]
    omega
  let s : Sent := ⟨domain, (word b1 b2 b3 b4).toInt32, rest.take declared.toNat, by omega, by omega⟩
  have hbytes : s.bytes = [domain, b1, b2, b3, b4, declared] ++ rest.take declared.toNat := by
    obtain ⟨h0, h1, h2, h3⟩ := bytes_word b1 b2 b3 b4
    show [domain, (word b1 b2 b3 b4).toUInt8, _, _, _, _] ++ _ = _
    rw [htake, UInt8.ofNat_toNat]
    show [domain, (word b1 b2 b3 b4).toUInt8, (word b1 b2 b3 b4 >>> 8).toUInt8,
      (word b1 b2 b3 b4 >>> 16).toUInt8, (word b1 b2 b3 b4 >>> 24).toUInt8, declared] ++ _ = _
    rw [h0, h1, h2, h3]
  refine ⟨s, rest.drop declared.toNat, ?_⟩
  rw [hbytes, List.append_assoc, List.take_append_drop, hdata]

/-- A buffer is refused for what is wrong with it first. -/
theorem decode_of {d : DecodeError} (h : d.Of data) :
    decode data data.length = some (refuse d) := by
  cases d with
  | truncatedHeader => exact decode_truncated h
  | badDomain =>
    obtain ⟨domain, rest, hdata, hlength, hdomain⟩ := h
    obtain ⟨domain', b1, b2, b3, b4, declared, rest', hheader⟩ := exists_header hlength
    obtain rfl : domain' = domain := by
      rw [hdata] at hheader
      exact (List.cons.inj hheader).1.symm
    rw [decode_header hheader, if_pos hdomain]
  | payloadOverruns =>
    obtain ⟨domain, b1, b2, b3, b4, declared, rest, hdata, hdomain, hover⟩ := h
    rw [decode_header hdata, if_neg (by omega), if_pos hover]

/-- Each buffer starts with what some sender wrote, or something is wrong with it. -/
theorem sent_or_wrong (data : List UInt8) :
    (∃ s : Sent, s.bytes <+: data) ∨ ∃ d : DecodeError, d.Of data := by
  by_cases hlength : data.length < header
  · exact .inr ⟨.truncatedHeader, hlength⟩
  · obtain ⟨domain, b1, b2, b3, b4, declared, rest, hdata⟩ := exists_header (not_lt.mp hlength)
    by_cases hdomain : 16 < domain.toNat
    · exact .inr ⟨.badDomain, domain, _, hdata, not_lt.mp hlength, hdomain⟩
    · by_cases hover : rest.length < declared.toNat ∨ maxPayload < declared.toNat
      · exact .inr ⟨.payloadOverruns, domain, b1, b2, b3, b4, declared, rest, hdata,
          not_lt.mp hdomain, hover⟩
      · exact .inl (sent_of_header hdata (not_lt.mp hdomain) (not_or.mp hover))

theorem decode_sent {s : Sent} (h : s.bytes <+: data) :
    decode data data.length = some (.value s.wire) := by
  obtain ⟨tail, rfl⟩ := h
  exact s.decode_bytes tail

/-- A buffer of any length is received, without a read outside of it, as the one error it starts
with on the wire, and one that starts with none is refused for what is wrong with it first. -/
theorem decode_exact (data : List UInt8) :
    decode data data.length ≠ none ∧
      (∀ w, decode data data.length = some (.value w) ↔
        ∃ s : Sent, s.bytes <+: data ∧ s.wire = w ∧ ∀ t : Sent, t.bytes <+: data → t = s) ∧
      ∀ e, decode data data.length = some (.error e) ↔
        ∃ d : DecodeError, d.Of data ∧ d.error = e ∧ ∀ d' : DecodeError, d'.Of data → d' = d := by
  have hsent : ∀ s t : Sent, s.bytes <+: data → t.bytes <+: data → t = s := by
    intro s t hs ht
    apply Sent.wire_injective
    have h := (decode_sent ht).symm.trans (decode_sent hs)
    exact Result.value.inj (Option.some.inj h)
  have hwrong : ∀ d d' : DecodeError, d.Of data → d'.Of data → d' = d := by
    intro d d' hd hd'
    have h := (decode_of hd').symm.trans (decode_of hd)
    exact DecodeError.error_injective (Result.error.inj (Option.some.inj h))
  rcases sent_or_wrong data with ⟨s, hs⟩ | ⟨d, hd⟩
  · rw [decode_sent hs]
    refine ⟨by simp, fun w => ⟨fun h => ?_, ?_⟩, fun e => ⟨fun h => (by cases h), ?_⟩⟩
    · exact ⟨s, hs, Result.value.inj (Option.some.inj h), fun t ht => hsent s t hs ht⟩
    · rintro ⟨t, ht, rfl, -⟩
      rw [hsent t s ht hs]
    · rintro ⟨d, hd, -, -⟩
      have h := (decode_of hd).symm.trans (decode_sent hs)
      cases Option.some.inj h
  · rw [decode_of hd]
    refine ⟨by simp, fun w => ⟨fun h => (by cases h), ?_⟩, fun e => ⟨fun h => ?_, ?_⟩⟩
    · rintro ⟨s, hs, -, -⟩
      have h := (decode_of hd).symm.trans (decode_sent hs)
      cases Option.some.inj h
    · exact ⟨d, hd, Result.error.inj (Option.some.inj h), fun d' hd' => hwrong d d' hd hd'⟩
    · rintro ⟨d', hd', rfl, -⟩
      rw [hwrong d' d hd' hd]
      rfl

end Jmpxx.Boundary
