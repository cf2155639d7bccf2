import Jmpxx.AuditReader

namespace Jmpxx.Audit

open Cursor

/-- A section; what the file holds of it is no longer than the section says it is. -/
structure Section where
  addr : ℕ
  size : ℕ
  data : List UInt8
  held : data.length ≤ size

structure Elf where
  is64 : Bool
  sections : String → Option Section

def Elf.ptrSize (elf : Elf) : ℕ := if elf.is64 then 8 else 4

structure Sites where
  sites : ℕ
  withPad : ℕ
  cleanups : ℕ
  deriving DecidableEq, Repr

structure Lsda where
  callSites : ℕ
  withLandingPad : ℕ
  cleanupSites : ℕ
  decoded : Bool
  lpStart : Option ℕ
  deriving DecidableEq, Repr

def Sites.tally (n : Sites) (pad action : ℕ) : Sites :=
  let n := { n with sites := n.sites + 1 }
  if pad ≠ 0 then
    let n := { n with withPad := n.withPad + 1 }
    if action = 0 then { n with cleanups := n.cleanups + 1 } else n
  else n

def site (csEnc ptrSize : ℕ) (n : Sites) : Read (Option Sites) := do
  let _ ← encoded csEnc ptrSize 0
  let _ ← encoded csEnc ptrSize 0
  let pad ← encoded csEnc ptrSize 0
  let action ← uleb
  pure (some (n.tally pad action))

def readLsda (ptrSize funcStart : ℕ) : Read Lsda := do
  let lpEnc ← u8
  let lpStart ← if lpEnc ≠ peOmit then encoded lpEnc ptrSize funcStart else pure funcStart
  let ttypeEnc ← u8
  let _ ← if ttypeEnc ≠ peOmit then uleb else pure 0
  let csEnc ← u8
  let csLen ← uleb
  let r ← get
  let csEnd := r.pos + csLen
  let n ← loop .endless (fun r => r.pos < csEnd) (site csEnc ptrSize) (r.unread.length + 1) ⟨0, 0, 0⟩
  pure ⟨n.sites, n.withPad, n.cleanups, true, some lpStart⟩

/-- `parse_lsda`; the cursor is what its reader is left at. -/
def parseLsda (elf : Elf) (lsdaAddr funcStart : ℕ) : Except Error (Lsda × Option Reader) :=
  match elf.sections ".gcc_except_table" with
  | none => .ok (⟨0, 0, 0, false, none⟩, none)
  | some sec =>
    if sec.addr ≤ lsdaAddr ∧ lsdaAddr < sec.addr + sec.size then do
      let (lsda, r) ← readLsda elf.ptrSize funcStart ⟨sec.data, sec.addr, lsdaAddr - sec.addr⟩
      pure (lsda, some r)
    else .ok (⟨0, 0, 0, false, none⟩, none)

/-- A record of the call-site table, of addresses that fit a pointer. -/
structure Site (f : Format) (size : ℕ) where
  start : Number f size
  length : Number f size
  pad : Number f size
  action : Number .uleb128 size
  addresses : ∀ x ∈ [start, length, pad], 0 ≤ x.value ∧ x.value < 2 ^ (8 * size)

/-- The offset of the type table, in front of it the encoding of that table. -/
structure TypeTable (size : ℕ) where
  encoding : UInt8
  present : encoding.toNat ≠ peOmit
  offset : Number .uleb128 size

variable {f : Format} {size : ℕ}

def Site.bytes (s : Site f size) : List UInt8 :=
  s.start.bytes ++ (s.length.bytes ++ (s.pad.bytes ++ s.action.bytes))

/-- A table, with or without a landing-pad base and a type table. -/
structure Table (size : ℕ) where
  base : Option ((e : Encoding) × Number e.format size)
  types : Option (TypeTable size)
  format : Format
  sites : List (Site format size)
  length : Number .uleb128 size
  measured : length.value = (sites.flatMap Site.bytes).length

def omitted : UInt8 := 0xFF

namespace Table

variable (t : Table size)

def baseBytes : List UInt8 := t.base.elim [omitted] fun b => b.1.byte :: b.2.bytes

def typesBytes : List UInt8 := t.types.elim [omitted] fun o => o.encoding :: o.offset.bytes

def bytes : List UInt8 :=
  t.baseBytes ++ (t.typesBytes ++ ([(Encoding.mk t.format .absolute false).byte] ++
    (t.length.bytes ++ t.sites.flatMap Site.bytes)))

/-- The landing-pad base: what its pointer leads to, or the start of the function. -/
def lpStart (here funcStart : ℕ) : ℕ :=
  t.base.elim funcStart fun b => b.1.resolve size (here + 1) funcStart b.2.value

/-- The records, those with a landing pad, and those of them without an action. -/
def counted (here funcStart : ℕ) : Lsda :=
  ⟨t.sites.length, t.sites.countP (·.pad.value ≠ 0),
    t.sites.countP fun s => s.pad.value ≠ 0 ∧ s.action.value = 0, true,
    some (t.lpStart here funcStart)⟩

end Table

section Counting

variable {r : Reader}

theorem Number.bytes_ne_nil (x : Number .uleb128 size) : x.bytes ≠ [] := by
  intro h
  have hlen := congrArg List.length h
  simp [Number.bytes, Format.width] at hlen

theorem resolve_absolute (f : Format) (size here funcStart : ℕ) {v : ℤ}
    (h : 0 ≤ v ∧ v < 2 ^ (8 * size)) :
    (Encoding.mk f .absolute false).resolve size here funcStart v = v.toNat := by
  show ((v + (0 : ℕ)) % 2 ^ (8 * size)).toNat = _
  rw [Nat.cast_zero, Int.add_zero, Int.emod_eq_of_lt h.1 h.2]

def Sites.add (n : Sites) (s : Site f size) : Sites :=
  n.tally s.pad.value.toNat s.action.value.toNat

theorem reads_site (hsize : size ∈ [4, 8]) (s : Site f size) (n : Sites) :
    Reads (site (Encoding.mk f .absolute false).byte.toNat size n) r s.bytes (some (n.add s)) := by
  have hpad : ∀ here, (Encoding.mk f .absolute false).resolve size here 0 s.pad.value =
      s.pad.value.toNat := fun here =>
    resolve_absolute f size here 0 (s.addresses s.pad (by simp))
  unfold site Site.bytes Sites.add
  refine (reads_encoded ⟨f, .absolute, false⟩ s.start hsize 0).bind ?_
  refine (reads_encoded ⟨f, .absolute, false⟩ s.length hsize 0).bind ?_
  refine (reads_encoded ⟨f, .absolute, false⟩ s.pad hsize 0).bind ?_
  rw [hpad]
  exact s.action.reads_uleb.andPure fun action => some (n.tally s.pad.value.toNat action)

/-- The loop reads the records and no more. -/
theorem reads_sites (hsize : size ∈ [4, 8]) (sites : List (Site f size)) {csEnd turns : ℕ}
    (hend : csEnd = r.pos + (sites.flatMap Site.bytes).length) (hturns : sites.length < turns)
    (n : Sites) :
    Reads (loop .endless (fun r => r.pos < csEnd)
      (site (Encoding.mk f .absolute false).byte.toNat size) turns n) r
      (sites.flatMap Site.bytes) (sites.foldl Sites.add n) := by
  obtain ⟨turns, rfl⟩ := Nat.exists_eq_succ_of_ne_zero (Nat.ne_of_gt (Nat.zero_lt_of_lt hturns))
  induction sites generalizing r n turns with
  | nil =>
    refine Reads.loop_done (decide_eq_false ?_)
    rw [hend]
    exact Nat.lt_irrefl _
  | cons s sites ih =>
    have hlen : 0 < s.bytes.length := by
      have haction := List.length_pos_iff.mpr s.action.bytes_ne_nil
      simp only [Site.bytes, List.length_append]
      omega
    rw [List.flatMap_cons, List.length_append] at hend
    rw [List.length_cons] at hturns
    obtain ⟨turns, rfl⟩ := Nat.exists_eq_succ_of_ne_zero (show turns ≠ 0 by omega)
    refine Reads.loop_turn (decide_eq_true (by omega)) (reads_site hsize s n) ?_
    exact ih (by rw [hend, pos_skip, Nat.add_assoc]) (n.add s) turns (by omega)

theorem foldl_add (sites : List (Site f size)) (n : Sites) :
    sites.foldl Sites.add n =
      ⟨n.sites + sites.length, n.withPad + sites.countP (·.pad.value ≠ 0),
        n.cleanups + sites.countP fun s => s.pad.value ≠ 0 ∧ s.action.value = 0⟩ := by
  induction sites generalizing n with
  | nil => rfl
  | cons s sites ih =>
    have hpad : 0 ≤ s.pad.value := (s.addresses s.pad (by simp)).1
    have haction : 0 ≤ s.action.value := s.action.fits.1
    rw [List.foldl_cons, ih, List.length_cons, List.countP_cons, List.countP_cons, Sites.add,
      Sites.tally]
    by_cases hp : s.pad.value = 0
    · simp [hp]
      omega
    · have hp' : s.pad.value.toNat ≠ 0 := by omega
      by_cases ha : s.action.value = 0
      · simp [hp, hp', ha]
        omega
      · have ha' : s.action.value.toNat ≠ 0 := by omega
        simp [hp, hp', ha, ha']
        omega

variable {t : Table size} {ys : List UInt8} {β : Type} {b : β}

theorem reads_base (hsize : size ∈ [4, 8]) {funcStart : ℕ} {k : ℕ → Read β}
    (hk : Reads (k (t.lpStart r.addr funcStart)) (r.skip t.baseBytes.length) ys b) :
    Reads (do
      let lpEnc ← u8
      let lpStart ← if lpEnc ≠ peOmit then encoded lpEnc size funcStart else pure funcStart
      k lpStart) r (t.baseBytes ++ ys) b := by
  unfold Table.baseBytes Table.lpStart at hk
  unfold Table.baseBytes
  cases hbase : t.base with
  | none =>
    rw [hbase] at hk
    exact (reads_u8 omitted).bind ((Reads.pure funcStart).bind hk)
  | some p =>
    rw [hbase] at hk
    show Reads _ _ ([p.1.byte] ++ (p.2.bytes ++ ys)) _
    refine (reads_u8 p.1.byte).bind ?_
    rw [if_pos p.1.byte_ne_omit]
    refine (reads_encoded p.1 p.2 hsize funcStart).bind ?_
    rw [skip_skip, Nat.add_comm]
    exact hk

theorem reads_types {k : ℕ → Read β}
    (hk : ∀ offset, Reads (k offset) (r.skip t.typesBytes.length) ys b) :
    Reads (do
      let ttypeEnc ← u8
      let offset ← if ttypeEnc ≠ peOmit then uleb else pure 0
      k offset) r (t.typesBytes ++ ys) b := by
  unfold Table.typesBytes at hk ⊢
  cases htypes : t.types with
  | none =>
    rw [htypes] at hk
    exact (reads_u8 omitted).bind ((Reads.pure 0).bind (hk 0))
  | some o =>
    rw [htypes] at hk
    show Reads _ _ ([o.encoding] ++ (o.offset.bytes ++ ys)) _
    refine (reads_u8 o.encoding).bind ?_
    rw [if_pos o.present]
    refine o.offset.reads_uleb.bind ?_
    rw [skip_skip, Nat.add_comm]
    exact hk _

theorem length_le_flatMap_bytes (sites : List (Site f size)) :
    sites.length ≤ (sites.flatMap Site.bytes).length := by
  induction sites with
  | nil => exact Nat.le_refl 0
  | cons s sites ih =>
    have haction := List.length_pos_iff.mpr s.action.bytes_ne_nil
    simp only [List.flatMap_cons, List.length_append, List.length_cons, Site.bytes]
    omega

/-- A table's call sites, from where they start to where they end. -/
theorem Table.reads_sites (hsize : size ∈ [4, 8]) (t : Table size) :
    Reads (loop .endless (fun c => c.pos < r.pos + t.length.value.toNat)
      (site (Encoding.mk t.format .absolute false).byte.toNat size) (r.unread.length + 1)
      ⟨0, 0, 0⟩) r (t.sites.flatMap Site.bytes)
      ⟨t.sites.length, t.sites.countP (·.pad.value ≠ 0),
        t.sites.countP fun s => s.pad.value ≠ 0 ∧ s.action.value = 0⟩ := by
  intro hat
  have hturns : t.sites.length < r.unread.length + 1 :=
    Nat.lt_succ_of_le ((length_le_flatMap_bytes t.sites).trans (length_le_of_at hat))
  have hend : r.pos + t.length.value.toNat = r.pos + (t.sites.flatMap Site.bytes).length := by
    rw [t.measured, Int.toNat_natCast]
  have hloop := Audit.reads_sites hsize t.sites hend hturns ⟨0, 0, 0⟩ hat
  rw [foldl_add, Nat.zero_add, Nat.zero_add, Nat.zero_add] at hloop
  exact hloop

/-- A table is read to its end, and counted. -/
theorem Table.reads (hsize : size ∈ [4, 8]) (t : Table size) (funcStart : ℕ) :
    Reads (readLsda size funcStart) r t.bytes (t.counted r.addr funcStart) := by
  unfold readLsda Table.bytes
  refine reads_base hsize (reads_types fun _ => ?_)
  refine (reads_u8 _).bind (t.length.reads_uleb.bind (Reads.get ?_))
  exact (t.reads_sites hsize).andPure fun n =>
    Lsda.mk n.sites n.withPad n.cleanups true (some (t.lpStart r.addr funcStart))

end Counting

theorem Elf.ptrSize_mem (elf : Elf) : elf.ptrSize ∈ [4, 8] := by
  unfold Elf.ptrSize
  split_ifs <;> decide

/-- A table anywhere in its section is read just to its end, and its records, those with a landing
pad and those of them without an action are counted; and a number, laid out in as many LEB128 bytes
as there may be, is read back. -/
theorem parse_lsda_counts {elf : Elf} {sec : Section} (t : Table elf.ptrSize)
    {before after : List UInt8} (hsec : elf.sections ".gcc_except_table" = some sec)
    (hdata : sec.data = before ++ t.bytes ++ after) (funcStart : ℕ) :
    parseLsda elf (sec.addr + before.length) funcStart =
        .ok (t.counted (sec.addr + before.length) funcStart,
          some ⟨sec.data, sec.addr, before.length + t.bytes.length⟩) ∧
      (∀ (x : Number .uleb128 elf.ptrSize) (r : Reader), r.At x.bytes →
        uleb r = .ok (x.value.toNat, r.skip x.bytes.length)) ∧
      ∀ (x : Number .sleb128 elf.ptrSize) (r : Reader), r.At x.bytes →
        sleb r = .ok (x.value, r.skip x.bytes.length) := by
  refine ⟨?_, fun x r => x.reads_uleb, fun x r => x.reads_sleb⟩
  have hpos : 0 < t.bytes.length := by
    simp only [Table.bytes, List.length_append, List.length_singleton]
    omega
  have hinside : sec.addr ≤ sec.addr + before.length ∧
      sec.addr + before.length < sec.addr + sec.size := by
    have hheld := sec.held
    rw [hdata, List.length_append, List.length_append] at hheld
    omega
  have hat : (Cursor.mk sec.data sec.addr before.length).At t.bytes := by
    refine ⟨after, ?_⟩
    rw [unread, hdata, List.append_assoc, List.drop_left]
  have hread := t.reads elf.ptrSize_mem funcStart hat
  unfold parseLsda
  rw [hsec]
  show (if _ then _ else _) = _
  rw [if_pos hinside, Nat.add_sub_cancel_left, hread]
  rfl

/-- Two call sites in signed words of four bytes: a cleanup, and one without a landing pad. The
length in front of them is padded by a byte. -/
def twoSites : Table 8 where
  base := some ⟨⟨.udata8, .pcrel, false⟩, ⟨0x100, 0, by decide⟩⟩
  types := some ⟨0x9B, by decide, ⟨60, 0, by decide⟩⟩
  format := .sdata4
  sites := [
    ⟨⟨0, 0, by decide⟩, ⟨16, 0, by decide⟩, ⟨64, 0, by decide⟩, ⟨0, 0, by decide⟩, by decide⟩,
    ⟨⟨16, 0, by decide⟩, ⟨8, 0, by decide⟩, ⟨0, 0, by decide⟩, ⟨300, 1, by decide⟩, by decide⟩]
  length := ⟨27, 1, by decide⟩
  measured := by decide

def twoSitesElf : Elf where
  is64 := true
  sections _ := some ⟨0x1000, 50, 7 :: twoSites.bytes ++ [9], by decide⟩

theorem parse_lsda_counts_twoSites :
    parseLsda twoSitesElf 0x1001 0x400 = .ok (⟨2, 1, 1, true, some 0x1102⟩,
      some ⟨7 :: twoSites.bytes ++ [9], 0x1000, 1 + twoSites.bytes.length⟩) :=
  (@parse_lsda_counts twoSitesElf _ twoSites [7] [9] rfl rfl 0x400).1

end Jmpxx.Audit
