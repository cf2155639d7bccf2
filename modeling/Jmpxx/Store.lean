import Mathlib.Data.Vector.Basic
import Mathlib.Tactic.Common

namespace Jmpxx.Diagnostic

/-- Hops one failure records. -/
abbrev maxChain : ℕ := 16

/-- Failures one thread holds whose landing has not released them. -/
abbrev maxInflight : ℕ := 16

/-- One failure's out-of-band context. `L` is `std::source_location`; the slots of `hops`
at and above `hopCount` hold whatever the slot's previous tenant left there. -/
structure Record (L : Type*) where
  id : UInt32
  origin : L
  hops : Vector L maxChain
  hopCount : ℕ
  hopsTruncated : Bool
  hopCount_le : hopCount ≤ maxChain

/-- What a reader of a record sees: `inspect` exposes `hopCount` hops and nothing above. -/
structure Context (L : Type*) where
  origin : L
  hops : List L
  hopsTruncated : Bool
  deriving DecidableEq, Repr

def Record.context {L : Type*} (r : Record L) : Context L :=
  ⟨r.origin, r.hops.toList.take r.hopCount, r.hopsTruncated⟩

/-- The per-thread arena. The bounds the code keeps are fields: the depth never passes the
capacity, and the next handle is never 0, which is reserved to mean "no record". -/
structure Store (L : Type*) where
  records : Vector (Record L) maxInflight
  depth : ℕ
  nextId : UInt32
  depth_le : depth ≤ maxInflight
  nextId_ne : nextId ≠ 0

namespace Store
variable {L : Type*}

def initial [Inhabited L] : Store L where
  records := Vector.replicate maxInflight ⟨0, default, Vector.replicate maxChain default, 0, false,
    by decide⟩
  depth := 0
  nextId := 1
  depth_le := by decide
  nextId_ne := by decide

/-- `next_id_++`, stepping over the reserved 0 when the counter wraps. -/
def bump (id : UInt32) : UInt32 := if id + 1 = 0 then 1 else id + 1

theorem bump_ne_zero (id : UInt32) : bump id ≠ 0 := by
  unfold bump
  split_ifs with h
  · decide
  · exact h

/-- `store::open`: the handle is issued before the capacity check. The record written
reuses the slot's old `hops` array, of which it exposes nothing. -/
def openRecord (s : Store L) (origin : L) : UInt32 × Store L :=
  if h : maxInflight ≤ s.depth then
    (s.nextId, { s with nextId := bump s.nextId, nextId_ne := bump_ne_zero _ })
  else
    (s.nextId,
      { records := s.records.set s.depth
          ⟨s.nextId, origin, s.records[(⟨s.depth, by omega⟩ : Fin maxInflight)].hops, 0, false, by decide⟩ (by omega)
        depth := s.depth + 1
        nextId := bump s.nextId
        depth_le := by omega
        nextId_ne := bump_ne_zero _ })

def scan (records : Vector (Record L) maxInflight) (id : UInt32) :
    (n : ℕ) → n ≤ maxInflight → Option (Fin maxInflight)
  | 0, _ => none
  | n + 1, h =>
    if records[(⟨n, h⟩ : Fin maxInflight)].id = id then some ⟨n, h⟩ else scan records id n (by omega)

def find (s : Store L) (id : UInt32) : Option (Fin maxInflight) :=
  if id = 0 then none else scan s.records id s.depth s.depth_le

def lookup (s : Store L) (id : UInt32) : Option (Context L) :=
  (s.find id).map fun i => s.records[i].context

/-- A record with one more hop, or marked truncated when the chain is at its bound. -/
def pushHop (r : Record L) (loc : L) : Record L :=
  if h : maxChain ≤ r.hopCount then { r with hopsTruncated := true }
  else { r with hops := r.hops.set r.hopCount loc (by omega)
                hopCount := r.hopCount + 1
                hopCount_le := by omega }

def addHop (s : Store L) (id : UInt32) (loc : L) : Store L :=
  match s.find id with
  | none => s
  | some i => { s with records := s.records.set i (pushHop s.records[i] loc) }

def mark (s : Store L) : ℤ := s.depth

/-- `store::truncate`: a snapshot at or above the current depth, or negative, is a no-op. -/
def truncate (s : Store L) (m : ℤ) : Store L :=
  if h : 0 ≤ m ∧ m < s.depth then
    { s with depth := m.toNat, depth_le := by have := s.depth_le; omega }
  else s

@[simp] theorem openRecord_fst (s : Store L) (o : L) : (s.openRecord o).1 = s.nextId := by
  unfold openRecord
  split_ifs <;> rfl

@[simp] theorem openRecord_nextId (s : Store L) (o : L) :
    (s.openRecord o).2.nextId = bump s.nextId := by
  unfold openRecord
  split_ifs <;> rfl

@[simp] theorem addHop_depth (s : Store L) (id : UInt32) (loc : L) :
    (s.addHop id loc).depth = s.depth := by
  unfold addHop
  split <;> rfl

@[simp] theorem addHop_nextId (s : Store L) (id : UInt32) (loc : L) :
    (s.addHop id loc).nextId = s.nextId := by
  unfold addHop
  split <;> rfl

@[simp] theorem truncate_nextId (s : Store L) (m : ℤ) : (s.truncate m).nextId = s.nextId := by
  unfold truncate
  split_ifs <;> rfl

@[simp] theorem truncate_records (s : Store L) (m : ℤ) : (s.truncate m).records = s.records := by
  unfold truncate
  split_ifs <;> rfl

theorem truncate_depth (s : Store L) (m : ℕ) : (s.truncate m).depth = min m s.depth := by
  unfold truncate
  split_ifs with h
  · simp only [Int.toNat_natCast]
    omega
  · omega

theorem openRecord_full (s : Store L) (o : L) (h : maxInflight ≤ s.depth) :
    (s.openRecord o).2.depth = s.depth ∧ (s.openRecord o).2.records = s.records := by
  simp [openRecord, h]

theorem openRecord_depth (s : Store L) (o : L) (h : s.depth < maxInflight) :
    (s.openRecord o).2.depth = s.depth + 1 := by
  simp [openRecord, Nat.not_le.mpr h]

theorem openRecord_records (s : Store L) (o : L) (h : s.depth < maxInflight)
    (i : ℕ) (hi : i < maxInflight) :
    (s.openRecord o).2.records[i] =
      if i = s.depth then ⟨s.nextId, o, s.records[s.depth].hops, 0, false, by decide⟩
      else s.records[i] := by
  have hd : ¬ maxInflight ≤ s.depth := Nat.not_le.mpr h
  simp only [openRecord, dif_neg hd, Vector.getElem_set, @eq_comm _ i]
  rfl

/-- The scan finds a slot only below its bound, carrying the id, with no newer match. -/
theorem scan_eq_some {records : Vector (Record L) maxInflight} {id : UInt32} {n : ℕ}
    {h : n ≤ maxInflight} {i : Fin maxInflight} :
    scan records id n h = some i ↔
      i.val < n ∧ records[i].id = id ∧
        ∀ j (hj : j < n), i.val < j → records[(⟨j, by omega⟩ : Fin maxInflight)].id ≠ id := by
  induction n with
  | zero => simp [scan]
  | succ n ih =>
    unfold scan
    split_ifs with hid
    · constructor
      · intro hi
        obtain rfl := Option.some.inj hi
        exact ⟨Nat.lt_succ_self n, hid, fun j hj hlt => absurd hlt (by simp only; omega)⟩
      · rintro ⟨hlt, -, hnew⟩
        have hin : ¬ i.val < n := fun hin => hnew n (Nat.lt_succ_self n) hin hid
        exact congrArg some (Fin.ext (by simp only; omega))
    -- slot `n` holds another id, so what is newest below it is newest
    · rw [ih]
      constructor
      · rintro ⟨hlt, he, hnew⟩
        refine ⟨by omega, he, fun j hj hij => ?_⟩
        by_cases hjn : j = n
        · subst hjn
          exact hid
        · exact hnew j (by omega) hij
      · rintro ⟨hlt, he, hnew⟩
        have hin : i.val ≠ n := by
          rintro rfl
          exact hid he
        exact ⟨by omega, he, fun j hj hij => hnew j (by omega) hij⟩

theorem scan_eq_none {records : Vector (Record L) maxInflight} {id : UInt32} {n : ℕ}
    {h : n ≤ maxInflight} :
    scan records id n h = none ↔ ∀ j (hj : j < n), records[(⟨j, by omega⟩ : Fin maxInflight)].id ≠ id := by
  induction n with
  | zero => simp [scan]
  | succ n ih =>
    unfold scan
    split_ifs with hid
    · simp only [false_iff, not_forall, not_not]
      exact ⟨n, Nat.lt_succ_self n, hid⟩
    · rw [ih]
      constructor
      · intro hnew j hj
        by_cases hjn : j = n
        · subst hjn
          exact hid
        · exact hnew j (by omega)
      · exact fun hnew j hj => hnew j (by omega)

theorem find_eq_some {s : Store L} {id : UInt32} {i : Fin maxInflight} :
    s.find id = some i ↔
      id ≠ 0 ∧ i.val < s.depth ∧ s.records[i].id = id ∧
        ∀ j (hj : j < s.depth), i.val < j →
          s.records[(⟨j, hj.trans_le s.depth_le⟩ : Fin maxInflight)].id ≠ id := by
  unfold find
  split_ifs with h
  · simp [h]
  · simp only [ne_eq, h, not_false_eq_true, true_and]
    exact scan_eq_some

theorem find_eq_none {s : Store L} {id : UInt32} :
    s.find id = none ↔
      id = 0 ∨ ∀ j (hj : j < s.depth),
        s.records[(⟨j, hj.trans_le s.depth_le⟩ : Fin maxInflight)].id ≠ id := by
  unfold find
  split_ifs with h
  · simp [h]
  · simp only [h, false_or]
    exact scan_eq_none

theorem addHop_of_find_none {s : Store L} {id : UInt32} (h : s.find id = none) (loc : L) :
    s.addHop id loc = s := by
  simp [addHop, h]

theorem addHop_records {s : Store L} {id : UInt32} {i : Fin maxInflight}
    (h : s.find id = some i) (loc : L) (j : ℕ) (hj : j < maxInflight) :
    (s.addHop id loc).records[j] =
      if j = i then pushHop s.records[i] loc else s.records[j] := by
  simp only [addHop, h, Vector.getElem_set, @eq_comm _ j]

@[simp] theorem pushHop_id (r : Record L) (loc : L) : (pushHop r loc).id = r.id := by
  unfold pushHop
  split_ifs <;> rfl

@[simp] theorem pushHop_origin (r : Record L) (loc : L) : (pushHop r loc).origin = r.origin := by
  unfold pushHop
  split_ifs <;> rfl

@[simp] theorem addHop_id (s : Store L) (id : UInt32) (loc : L) (j : ℕ) (hj : j < maxInflight) :
    (s.addHop id loc).records[j].id = s.records[j].id := by
  cases h : s.find id with
  | none => rw [addHop_of_find_none h]
  | some i =>
    rw [addHop_records h]
    split_ifs with hji
    · subst hji
      simp
    · rfl

/-- The live records, oldest first: what the arena means, with the stale slots left out. -/
def slots (s : Store L) : List (Record L) := s.records.toList.take s.depth

@[simp] theorem length_slots (s : Store L) : s.slots.length = s.depth := by
  simp [slots, s.depth_le]

theorem slots_getElem? (s : Store L) (i : ℕ) :
    s.slots[i]? = if h : i < s.depth then
      some s.records[(⟨i, h.trans_le s.depth_le⟩ : Fin maxInflight)] else none := by
  unfold slots
  split_ifs with h
  · rw [List.getElem?_take_of_lt h]
    simp [h.trans_le s.depth_le]
  · exact List.getElem?_eq_none (by simp; omega)

theorem slots_open_full (s : Store L) (o : L) (h : maxInflight ≤ s.depth) :
    (s.openRecord o).2.slots = s.slots := by
  simp [slots, openRecord_full s o h]

def newRecord (s : Store L) (o : L) (h : s.depth < maxInflight) : Record L :=
  ⟨s.nextId, o, s.records[s.depth].hops, 0, false, by decide⟩

theorem slots_open (s : Store L) (o : L) (h : s.depth < maxInflight) :
    (s.openRecord o).2.slots = s.slots ++ [s.newRecord o h] := by
  apply List.ext_getElem?
  intro i
  rw [slots_getElem?, List.getElem?_append, slots_getElem?]
  simp only [openRecord_depth s o h, length_slots]
  rcases lt_trichotomy i s.depth with hi | rfl | hi
  · simp [hi, hi.trans (Nat.lt_succ_self _), openRecord_records s o h, hi.ne]
  · simp [openRecord_records s o h, newRecord]
  · rw [dif_neg (by omega), if_neg (by omega), List.getElem?_eq_none (by simp; omega)]

theorem slots_truncate (s : Store L) (m : ℕ) : (s.truncate m).slots = s.slots.take m := by
  simp [slots, truncate_depth, List.take_take]

/-- The handle resolves to the newest live record that carries it. -/
theorem find_slots {s : Store L} {id : UInt32} {i : Fin maxInflight} :
    s.find id = some i ↔
      id ≠ 0 ∧ (∃ r, s.slots[i.val]? = some r ∧ r.id = id) ∧
        ∀ j r, i.val < j → s.slots[j]? = some r → r.id ≠ id := by
  rw [find_eq_some]
  refine and_congr_right fun _ => ?_
  simp only [slots_getElem?]
  constructor
  · rintro ⟨hi, he, hnew⟩
    refine ⟨⟨_, dif_pos hi, he⟩, fun j r hij hr => ?_⟩
    split_ifs at hr with hj
    exact Option.some.inj hr ▸ hnew j hj hij
  · rintro ⟨⟨r, hr, he⟩, hnew⟩
    split_ifs at hr with hi
    refine ⟨hi, (Option.some.inj hr) ▸ he, fun j hj hij => ?_⟩
    exact hnew j _ hij (by rw [dif_pos hj])

theorem find_none_slots {s : Store L} {id : UInt32} :
    s.find id = none ↔ id = 0 ∨ ∀ r ∈ s.slots, r.id ≠ id := by
  rw [find_eq_none]
  refine or_congr_right ?_
  simp only [List.mem_iff_getElem?, slots_getElem?]
  constructor
  · rintro h r ⟨j, hr⟩
    split_ifs at hr with hj
    exact Option.some.inj hr ▸ h j hj
  · intro h j hj
    exact h _ ⟨j, by rw [dif_pos hj]⟩

theorem slots_addHop {s : Store L} {id : UInt32} {i : Fin maxInflight} (h : s.find id = some i)
    (loc : L) : (s.addHop id loc).slots = s.slots.modify i (pushHop · loc) := by
  apply List.ext_getElem?
  intro j
  simp only [slots_getElem?, List.getElem?_modify, addHop_depth]
  split_ifs with hj hij hij
  · subst hij
    simp [addHop_records h]
  · simp [addHop_records h, Ne.symm hij]
  all_goals rfl

theorem lookup_of_find {s : Store L} {id : UInt32} {i : Fin maxInflight} {r : Record L}
    (h : s.find id = some i) (hr : s.slots[i.val]? = some r) : s.lookup id = some r.context := by
  rw [slots_getElem?] at hr
  split_ifs at hr with hi
  simp only [lookup, h, Option.map_some, ← Option.some.inj hr]

end Store

end Jmpxx.Diagnostic
