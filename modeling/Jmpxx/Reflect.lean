import Jmpxx.Lists
import Jmpxx.Spelling
import Mathlib.Algebra.Order.Ring.Int
import Mathlib.Data.List.DropRight

namespace Jmpxx.Reflect

/-- A fixed underlying type: `bool`, or an integer of so many bits. -/
inductive Underlying where
  | bool
  | signed (bits : ℕ)
  | unsigned (bits : ℕ)
  deriving DecidableEq, Repr

/-- The conversion of an integer to the underlying type. -/
def Underlying.ofInt : Underlying → ℤ → ℤ
  | .bool, x => if x = 0 then 0 else 1
  | .signed bits, x => x.bmod (2 ^ bits)
  | .unsigned bits, x => x % 2 ^ bits

theorem Underlying.ofInt_ofInt (u : Underlying) (x : ℤ) : u.ofInt (u.ofInt x) = u.ofInt x := by
  cases u with
  | bool =>
    simp only [ofInt]
    split_ifs <;> simp_all
  | signed bits => exact Int.bmod_bmod
  | unsigned bits => exact Int.emod_emod_of_dvd _ (Int.dvd_refl _)

/-- A value of the enumeration: any its underlying type represents. -/
structure Value (u : Underlying) where
  val : ℤ
  represented : u.ofInt val = val
  deriving DecidableEq

variable {u : Underlying} {compiler : Compiler}

/-- `static_cast<E>(x)`. -/
def Value.ofInt (u : Underlying) (x : ℤ) : Value u := ⟨u.ofInt x, u.ofInt_ofInt x⟩

/-- `static_cast<int>(v)`. -/
def Value.toInt (v : Value u) : ℤ := v.val.bmod (2 ^ 32)

structure Enumerator (u : Underlying) where
  name : Text
  value : Value u
  deriving DecidableEq

structure Enumeration (u : Underlying) where
  enumerators : List (Enumerator u)
  identifiers : ∀ x ∈ enumerators, IsIdentifier x.name
  distinct : (enumerators.map (·.name)).Nodup

/-- `enum_range`, with bounds and a span that are all of type `int`. -/
structure EnumRange where
  min : ℤ
  max : ℤ
  min_ge : -2 ^ 31 ≤ min
  min_lt : min < 2 ^ 31
  max_lt : max < 2 ^ 31
  span_nonneg : 0 ≤ max - min + 1
  span_lt : max - min + 1 < 2 ^ 31

structure FailureInfo where
  value : ℤ
  name : Text
  deriving DecidableEq, Repr

def unknownError : Text := "unknown error".toList

def EnumRange.span (r : EnumRange) : ℤ := r.max - r.min + 1

def EnumRange.positions (r : EnumRange) : List ℤ :=
  (List.range r.span.toNat).map fun i : ℕ => r.min + i

namespace Fallback

variable (spelling : Value u → Text) (r : EnumRange)

def accepts (p : ℤ) : Bool := isEnumerator (spelling (.ofInt u p))

def countEnumerators : ℕ := (r.positions.map fun p => if accepts spelling p then 1 else 0).sum

def scanName (v : Value u) : Text :=
  match r.positions.find? fun p => v.toInt = p && accepts spelling p with
  | some p => spelling (.ofInt u p)
  | none => []

def scanValue (name : Text) : Option (Value u) :=
  (r.positions.find? fun p => accepts spelling p && spelling (.ofInt u p) = name).map (.ofInt u)

def buildFailures : List FailureInfo :=
  r.positions.filterMap fun p =>
    if accepts spelling p then some ⟨p, spelling (.ofInt u p)⟩ else none

def enumeratorCStr (p : ℤ) : Option Text :=
  if accepts spelling p then some (spelling (.ofInt u p)) else none

def nameTable : List (Option Text) := r.positions.map (enumeratorCStr spelling)

/-- `message(value)`; `none` is the overflow of `lo + range_span`. -/
def message (value : ℤ) : Option Text :=
  let lo := r.min
  if lo ≤ value then
    if lo + r.span < 2 ^ 31 then
      if value < lo + r.span then
        match (nameTable spelling r)[(value - lo).toNat]? with
        | some (some s) => some s
        | _ => some unknownError
      else some unknownError
    else none
  else some unknownError

end Fallback

namespace Reflection

variable (e : Enumeration u)

def enumName (v : Value u) : Text :=
  match e.enumerators.find? fun x => v = x.value with
  | some x => x.name
  | none => []

def enumCast (name : Text) : Option (Value u) :=
  (e.enumerators.find? fun x => name = x.name).map (·.value)

def enumCount : ℕ := e.enumerators.length

def place (out : List FailureInfo) (fi : FailureInfo) : List FailureInfo :=
  out.rdropWhile (fun o => fi.value < o.value) ++ fi :: out.rtakeWhile (fun o => fi.value < o.value)

def info (x : Enumerator u) : FailureInfo := ⟨x.value.toInt, x.name⟩

def buildFailures : List FailureInfo :=
  e.enumerators.foldl (fun out x => place out (info x)) []

def message (value : ℤ) : Text :=
  e.enumerators.foldl (fun out x => if value = x.value.toInt then x.name else out) unknownError

end Reflection

/-- How the compiler prints the values of an enumeration: an enumerator's value as a
qualified name, any other as a cast or a number. -/
structure Printer (compiler : Compiler) (e : Enumeration u) where
  frame : Frame compiler
  scope : Text
  isScope : IsScope scope
  text : Value u → Text
  named : ∀ v, (∃ x ∈ e.enumerators, x.value = v) →
    ∃ x ∈ e.enumerators, x.value = v ∧ text v = scope ++ x.name
  unnamed : ∀ v, (∀ x ∈ e.enumerators, x.value ≠ v) → CastOrNumber (text v)

def Printer.spelling {e : Enumeration u} (p : Printer compiler e) (v : Value u) : Text :=
  enumeratorSpelling compiler (p.frame.signature (p.text v))

/-- The two paths agree on everything they derive. -/
structure Agree (e : Enumeration u) (r : EnumRange) (spelling : Value u → Text) : Prop where
  name : ∀ v, Fallback.scanName spelling r v = Reflection.enumName e v
  cast : ∀ s, Fallback.scanValue spelling r s = Reflection.enumCast e s
  count : Fallback.countEnumerators spelling r = Reflection.enumCount e
  failures : Fallback.buildFailures spelling r = Reflection.buildFailures e
  message : ∀ i, -2 ^ 31 ≤ i → i < 2 ^ 31 →
    Fallback.message spelling r i = some (Reflection.message e i)

/-- What the fallback needs of an enumeration, its range and its printed names. -/
structure Covered {e : Enumeration u} (p : Printer compiler e) (r : EnumRange) : Prop where
  ascii : ∀ x ∈ e.enumerators, ∀ c ∈ x.name, c.toNat < 128
  sliced : ∀ x ∈ e.enumerators, unqualified compiler (p.scope ++ x.name) = x.name
  rejected : ∀ i ∈ r.positions, (∀ x ∈ e.enumerators, x.value ≠ .ofInt u i) →
    isEnumerator (unqualified compiler (p.text (.ofInt u i))) = false
  unshared : (e.enumerators.map (·.value)).Nodup
  unwrapped : ∀ i ∈ r.positions, ∀ x ∈ e.enumerators, x.value = .ofInt u i → x.value.val = i
  untruncated : ∀ v : Value u, ∀ x ∈ e.enumerators, v.toInt = x.value.val → v = x.value
  bounded : r.max < 2 ^ 31 - 1

def InRange (e : Enumeration u) (r : EnumRange) : Prop :=
  ∀ x ∈ e.enumerators, r.min ≤ x.value.val ∧ x.value.val ≤ r.max

structure Seen (e : Enumeration u) (r : EnumRange) (spelling : Value u → Text) : Prop where
  at_enumerator : ∀ x ∈ e.enumerators, isEnumerator (spelling x.value) = true ∧
    spelling x.value = x.name
  elsewhere : ∀ i ∈ r.positions, Fallback.accepts spelling i = true →
    ∃ x ∈ e.enumerators, x.value = .ofInt u i ∧ x.value.val = i

theorem EnumRange.mem_positions {r : EnumRange} {i : ℤ} :
    i ∈ r.positions ↔ r.min ≤ i ∧ i ≤ r.max := by
  simp only [positions, span, List.mem_map, List.mem_range]
  constructor
  · rintro ⟨n, hn, rfl⟩
    omega
  · intro h
    exact ⟨(i - r.min).toNat, by omega, by omega⟩

theorem EnumRange.positions_sorted (r : EnumRange) : r.positions.Pairwise (· < ·) := by
  rw [positions, List.pairwise_map]
  refine List.pairwise_lt_range.imp fun h => ?_
  omega

theorem Value.ofInt_val (v : Value u) : Value.ofInt u v.val = v := by
  cases v with
  | mk val h => simp only [ofInt, h]

variable {e : Enumeration u} {r : EnumRange} {spelling : Value u → Text}

theorem toInt_eq {v : Value u} (h : r.min ≤ v.val ∧ v.val ≤ r.max) : v.toInt = v.val := by
  have := r.min_ge
  have := r.max_lt
  exact Int.bmod_eq_of_le (by omega) (by omega)

theorem InRange.mem_positions (hr : InRange e r) {x : Enumerator u} (hx : x ∈ e.enumerators) :
    x.value.val ∈ r.positions := EnumRange.mem_positions.mpr (hr x hx)

theorem Enumeration.eq_of_name {x y : Enumerator u} (hx : x ∈ e.enumerators)
    (hy : y ∈ e.enumerators) (h : x.name = y.name) : x = y :=
  List.inj_on_of_nodup_map e.distinct hx hy h

theorem Enumeration.name_ne_nil {x : Enumerator u} (hx : x ∈ e.enumerators) : x.name ≠ [] := by
  obtain ⟨⟨f, hf, -⟩, -⟩ := e.identifiers x hx
  rintro h
  simp [h] at hf

/-- At an enumerator's value the scan accepts, and spells its name. -/
theorem Seen.accepts (h : Seen e r spelling) {x : Enumerator u} (hx : x ∈ e.enumerators) :
    Fallback.accepts spelling x.value.val = true := by
  rw [Fallback.accepts, Value.ofInt_val]
  exact (h.at_enumerator x hx).1

theorem Seen.spells (h : Seen e r spelling) {x : Enumerator u} (hx : x ∈ e.enumerators) :
    spelling (.ofInt u x.value.val) = x.name := by
  rw [Value.ofInt_val]
  exact (h.at_enumerator x hx).2

theorem Seen.eq_of_value (h : Seen e r spelling) {x y : Enumerator u} (hx : x ∈ e.enumerators)
    (hy : y ∈ e.enumerators) (hv : x.value = y.value) : x = y := by
  apply Enumeration.eq_of_name hx hy
  rw [← (h.at_enumerator x hx).2, hv, (h.at_enumerator y hy).2]

theorem Seen.scanName (h : Seen e r spelling) (hr : InRange e r)
    (hcut : ∀ v : Value u, ∀ x ∈ e.enumerators, v.toInt = x.value.val → v = x.value)
    (v : Value u) : Fallback.scanName spelling r v = Reflection.enumName e v := by
  by_cases hv : ∃ x ∈ e.enumerators, v = x.value
  · obtain ⟨x, hx, rfl⟩ := hv
    -- the scan stops at the enumerator's own position, the reflection loop at the enumerator
    have hscan : r.positions.find? (fun p => x.value.toInt = p && Fallback.accepts spelling p) =
        some x.value.val := by
      apply Lists.find?_eq_some_of_unique (hr.mem_positions hx)
      · simp [toInt_eq (hr x hx), h.accepts hx]
      · intro p _ hp
        simp only [Bool.and_eq_true, decide_eq_true_eq] at hp
        rw [← hp.1, toInt_eq (hr x hx)]
    have henum : e.enumerators.find? (fun y => x.value = y.value) = some x := by
      apply Lists.find?_eq_some_of_unique hx
      · simp
      · intro y hy hp
        exact (h.eq_of_value hx hy (by simpa using hp)).symm
    simp only [Fallback.scanName, hscan, Reflection.enumName, henum, h.spells hx]
  · have hscan : r.positions.find? (fun p => v.toInt = p && Fallback.accepts spelling p) =
        none := by
      refine List.find?_eq_none.mpr fun p hp hacc => hv ?_
      simp only [Bool.and_eq_true, decide_eq_true_eq] at hacc
      -- a position the scan accepts is an enumerator's, and `v` would be it
      obtain ⟨x, hx, -, hval⟩ := h.elsewhere p hp hacc.2
      exact ⟨x, hx, hcut v x hx (by rw [hacc.1, hval])⟩
    have henum : e.enumerators.find? (fun y => v = y.value) = none := by
      refine List.find?_eq_none.mpr fun x hx hacc => hv ⟨x, hx, by simpa using hacc⟩
    simp only [Fallback.scanName, hscan, Reflection.enumName, henum]

theorem Seen.scanValue (h : Seen e r spelling) (hr : InRange e r) (s : Text) :
    Fallback.scanValue spelling r s = Reflection.enumCast e s := by
  by_cases hs : ∃ x ∈ e.enumerators, s = x.name
  · obtain ⟨x, hx, rfl⟩ := hs
    have hscan : r.positions.find? (fun p => Fallback.accepts spelling p &&
        spelling (.ofInt u p) = x.name) = some x.value.val := by
      apply Lists.find?_eq_some_of_unique (hr.mem_positions hx)
      · simp [h.accepts hx, h.spells hx]
      · intro p hp hacc
        simp only [Bool.and_eq_true, decide_eq_true_eq] at hacc
        obtain ⟨y, hy, -, rfl⟩ := h.elsewhere p hp hacc.1
        rw [h.spells hy] at hacc
        rw [Enumeration.eq_of_name hy hx hacc.2]
    have henum : e.enumerators.find? (fun y => x.name = y.name) = some x := by
      apply Lists.find?_eq_some_of_unique hx
      · simp
      · intro y hy hp
        exact (Enumeration.eq_of_name hx hy (by simpa using hp)).symm
    simp only [Fallback.scanValue, hscan, Reflection.enumCast, henum, Option.map_some,
      Value.ofInt_val]
  · have hscan : r.positions.find? (fun p => Fallback.accepts spelling p &&
        spelling (.ofInt u p) = s) = none := by
      refine List.find?_eq_none.mpr fun p hp hacc => hs ?_
      simp only [Bool.and_eq_true, decide_eq_true_eq] at hacc
      obtain ⟨x, hx, -, rfl⟩ := h.elsewhere p hp hacc.1
      exact ⟨x, hx, by rw [← hacc.2, h.spells hx]⟩
    have henum : e.enumerators.find? (fun y => s = y.name) = none := by
      refine List.find?_eq_none.mpr fun x hx hacc => hs ⟨x, hx, by simpa using hacc⟩
    simp only [Fallback.scanValue, hscan, Reflection.enumCast, henum, Option.map_none]

theorem mem_fallbackFailures {fi : FailureInfo} :
    fi ∈ Fallback.buildFailures spelling r ↔ fi.value ∈ r.positions ∧
      Fallback.accepts spelling fi.value = true ∧ spelling (.ofInt u fi.value) = fi.name := by
  simp only [Fallback.buildFailures, List.mem_filterMap, Option.ite_none_right_eq_some,
    Option.some.injEq]
  constructor
  · rintro ⟨p, hp, hacc, rfl⟩
    exact ⟨hp, hacc, rfl⟩
  · rintro ⟨hp, hacc, hname⟩
    exact ⟨fi.value, hp, hacc, by rw [hname]⟩

theorem fallbackFailures_sorted :
    (Fallback.buildFailures spelling r).Pairwise fun a b => a.value < b.value := by
  refine List.pairwise_filterMap.mpr (r.positions_sorted.imp fun hlt a ha b hb => ?_)
  simp only [Option.ite_none_right_eq_some, Option.some.injEq] at ha hb
  rw [← ha.2, ← hb.2]
  exact hlt

theorem countEnumerators_eq :
    Fallback.countEnumerators spelling r = (Fallback.buildFailures spelling r).length := by
  rw [Fallback.countEnumerators, Fallback.buildFailures]
  induction r.positions with
  | nil => rfl
  | cons p l ih =>
    rw [List.map_cons, List.sum_cons, ih, List.filterMap_cons]
    split_ifs <;> simp [Nat.add_comm]

open Reflection in
theorem place_concat (out : List FailureInfo) (o fi : FailureInfo) :
    place (out ++ [o]) fi = if fi.value < o.value then place out fi ++ [o] else out ++ [o, fi] := by
  simp only [place, List.rdropWhile_concat, List.rtakeWhile_concat, decide_eq_true_eq]
  split_ifs <;> simp

theorem place_perm (out : List FailureInfo) (fi : FailureInfo) :
    (Reflection.place out fi).Perm (fi :: out) := by
  rw [Reflection.place]
  refine List.perm_middle.trans (List.Perm.cons _ ?_)
  rw [List.rdropWhile_append_rtakeWhile]

theorem place_sorted (fi : FailureInfo) {out : List FailureInfo}
    (h : out.Pairwise fun a b => a.value ≤ b.value) :
    (Reflection.place out fi).Pairwise fun a b => a.value ≤ b.value := by
  induction out using List.reverseRecOn with
  | nil => simp [Reflection.place]
  | append_singleton out o ih =>
    rw [List.pairwise_append] at h
    obtain ⟨hout, -, hle⟩ := h
    rw [place_concat]
    split_ifs with hlt
    · refine List.pairwise_append.mpr ⟨ih hout, List.pairwise_singleton _ _, ?_⟩
      intro a ha b hb
      rw [List.mem_singleton.mp hb]
      rcases List.mem_cons.mp ((place_perm out fi).mem_iff.mp ha) with rfl | ha
      · exact hlt.le
      · exact hle a ha o (List.mem_singleton_self o)
    · have hto : ∀ a ∈ out, a.value ≤ fi.value := fun a ha =>
        (hle a ha o (List.mem_singleton_self o)).trans (not_lt.mp hlt)
      refine List.pairwise_append.mpr ⟨hout, by simpa using not_lt.mp hlt, ?_⟩
      intro a ha b hb
      rcases List.mem_cons.mp hb with rfl | hb
      · exact hle a ha b (List.mem_singleton_self b)
      · rw [List.mem_singleton.mp hb]
        exact hto a ha

/-- The insertion loop sorts what it is given. -/
theorem foldl_place (l : List (Enumerator u)) {out : List FailureInfo}
    (h : out.Pairwise fun a b => a.value ≤ b.value) :
    let sorted := l.foldl (fun out x => Reflection.place out (Reflection.info x)) out
    (sorted.Pairwise fun a b => a.value ≤ b.value) ∧
      sorted.Perm (out ++ l.map Reflection.info) := by
  induction l generalizing out with
  | nil => simpa using h
  | cons x l ih =>
    obtain ⟨hsorted, hperm⟩ := ih (place_sorted (Reflection.info x) h)
    refine ⟨hsorted, hperm.trans ?_⟩
    rw [List.map_cons]
    exact ((place_perm out _).append_right _).trans List.perm_middle.symm

theorem reflectionFailures_perm :
    (Reflection.buildFailures e).Perm (e.enumerators.map Reflection.info) := by
  exact (foldl_place e.enumerators List.Pairwise.nil).2

theorem Seen.failures (h : Seen e r spelling) (hr : InRange e r) :
    Fallback.buildFailures spelling r = Reflection.buildFailures e := by
  have hnodup : (e.enumerators.map Reflection.info).Nodup := by
    refine List.Nodup.map_on (fun x hx y hy he => ?_) (List.Nodup.of_map _ e.distinct)
    exact Enumeration.eq_of_name hx hy (congrArg FailureInfo.name he)
  have hmem : ∀ fi, fi ∈ Fallback.buildFailures spelling r ↔
      fi ∈ e.enumerators.map Reflection.info := by
    intro fi
    rw [mem_fallbackFailures, List.mem_map]
    constructor
    · rintro ⟨hp, hacc, hname⟩
      obtain ⟨x, hx, -, hv⟩ := h.elsewhere _ hp hacc
      rw [← hv, h.spells hx] at hname
      exact ⟨x, hx, by rw [Reflection.info, toInt_eq (hr x hx), hv, hname]⟩
    · rintro ⟨x, hx, rfl⟩
      simp only [Reflection.info, toInt_eq (hr x hx)]
      exact ⟨hr.mem_positions hx, h.accepts hx, h.spells hx⟩
  -- same members without repetition; both are sorted by value, so they are one list
  have hperm : (Fallback.buildFailures spelling r).Perm (Reflection.buildFailures e) := by
    refine List.Perm.trans ?_ reflectionFailures_perm.symm
    refine (List.perm_ext_iff_of_nodup ?_ hnodup).mpr hmem
    exact fallbackFailures_sorted.imp fun hlt he => hlt.ne (congrArg FailureInfo.value he)
  refine hperm.eq_of_pairwise ?_ (fallbackFailures_sorted.imp fun hlt => hlt.le)
    (foldl_place e.enumerators List.Pairwise.nil).1
  intro a b ha hb hab hba
  -- two entries of one value are the one at that position
  obtain ⟨-, -, hna⟩ := mem_fallbackFailures.mp ha
  obtain ⟨-, -, hnb⟩ := mem_fallbackFailures.mp (hperm.mem_iff.mpr hb)
  have hv : a.value = b.value := le_antisymm hab hba
  cases a
  cases b
  simp only at hv hna hnb
  rw [← hna, ← hnb, hv]

theorem Seen.count (h : Seen e r spelling) (hr : InRange e r) :
    Fallback.countEnumerators spelling r = Reflection.enumCount e := by
  rw [countEnumerators_eq, h.failures hr, reflectionFailures_perm.length_eq, List.length_map]
  rfl

theorem nameTable_getElem? {i : ℤ} (hi : i ∈ r.positions) :
    (Fallback.nameTable spelling r)[(i - r.min).toNat]? =
      some (Fallback.enumeratorCStr spelling i) := by
  obtain ⟨hlo, hhi⟩ := EnumRange.mem_positions.mp hi
  have hlt : (i - r.min).toNat < r.span.toNat := by
    rw [EnumRange.span]
    omega
  have hback : r.min + max (i - r.min) 0 = i := by omega
  simp [Fallback.nameTable, EnumRange.positions, hlt, hback]

/-- Where the end of the range does not overflow, a message is the table's entry. -/
theorem fallbackMessage_eq (hb : r.max < 2 ^ 31 - 1) (i : ℤ) :
    Fallback.message spelling r i =
      if i ∈ r.positions ∧ Fallback.accepts spelling i = true then some (spelling (.ofInt u i))
      else some unknownError := by
  have hend : r.min + r.span = r.max + 1 := by
    rw [EnumRange.span]
    omega
  simp only [Fallback.message, hend]
  by_cases hi : i ∈ r.positions
  · obtain ⟨hlo, hhi⟩ := EnumRange.mem_positions.mp hi
    rw [if_pos hlo, if_pos (by omega), if_pos (by omega), nameTable_getElem? hi,
      Fallback.enumeratorCStr]
    split_ifs with hacc <;> simp_all
  · have hout : ¬ (r.min ≤ i ∧ i < r.max + 1) := fun h =>
      hi (EnumRange.mem_positions.mpr ⟨h.1, by omega⟩)
    simp only [hi, false_and, if_false]
    split_ifs with hlo h₁ h₂
    · exact absurd ⟨hlo, h₂⟩ hout
    · rfl
    · omega
    · rfl

theorem foldl_message (l : List (Enumerator u)) (i : ℤ) (name init : Text)
    (h : ∀ x ∈ l, i = x.value.toInt → x.name = name) :
    l.foldl (fun out x => if i = x.value.toInt then x.name else out) init =
      if ∃ x ∈ l, i = x.value.toInt then name else init := by
  induction l generalizing init with
  | nil => simp
  | cons x l ih =>
    rw [List.foldl_cons, ih _ fun y hy => h y (List.mem_cons_of_mem _ hy)]
    by_cases hx : i = x.value.toInt
    · simp [← hx, h x List.mem_cons_self hx]
    · simp [hx]

/-- Both messages answer by the enumerator of the value, if there is one. -/
theorem Seen.message (h : Seen e r spelling) (hr : InRange e r) (hb : r.max < 2 ^ 31 - 1) (i : ℤ) :
    Fallback.message spelling r i = some (Reflection.message e i) := by
  rw [fallbackMessage_eq hb]
  by_cases hi : ∃ x ∈ e.enumerators, i = x.value.val
  · obtain ⟨x, hx, rfl⟩ := hi
    have huniq : ∀ y ∈ e.enumerators, x.value.val = y.value.toInt → y.name = x.name := by
      intro y hy hv
      rw [toInt_eq (hr y hy)] at hv
      rw [← h.spells hy, ← hv, h.spells hx]
    rw [if_pos ⟨hr.mem_positions hx, h.accepts hx⟩, h.spells hx, Reflection.message,
      foldl_message _ _ _ _ huniq, if_pos ⟨x, hx, (toInt_eq (hr x hx)).symm⟩]
  · have hnone : ∀ x ∈ e.enumerators, i ≠ x.value.toInt := fun x hx he =>
      hi ⟨x, hx, by rw [he, toInt_eq (hr x hx)]⟩
    rw [if_neg, Reflection.message, foldl_message _ _ [] _ fun x hx he => absurd he (hnone x hx),
      if_neg]
    · rintro ⟨x, hx, he⟩
      exact hnone x hx he
    · rintro ⟨hp, hacc⟩
      obtain ⟨x, hx, -, hv⟩ := h.elsewhere i hp hacc
      exact hi ⟨x, hx, hv.symm⟩

/-- Agreement on the failures shows the scan every enumerator and nothing else. -/
theorem Agree.seen (h : Agree e r spelling) (hr : InRange e r) : Seen e r spelling := by
  have hmem : ∀ fi, fi ∈ Fallback.buildFailures spelling r ↔
      fi ∈ e.enumerators.map Reflection.info := by
    intro fi
    rw [h.failures]
    exact reflectionFailures_perm.mem_iff
  constructor
  · intro x hx
    have := mem_fallbackFailures.mp ((hmem (Reflection.info x)).mpr (List.mem_map_of_mem hx))
    simp only [Reflection.info, toInt_eq (hr x hx), Fallback.accepts, Value.ofInt_val] at this
    exact this.2
  · intro i hi hacc
    obtain ⟨x, hx, he⟩ := List.mem_map.mp
      ((hmem ⟨i, spelling (.ofInt u i)⟩).mp (mem_fallbackFailures.mpr ⟨hi, hacc, rfl⟩))
    have hv : x.value.val = i := by
      rw [← toInt_eq (hr x hx)]
      exact congrArg FailureInfo.value he
    exact ⟨x, hx, by rw [← hv, Value.ofInt_val], hv⟩

theorem Agree.untruncated (h : Agree e r spelling) (hr : InRange e r) (v : Value u)
    {x : Enumerator u} (hx : x ∈ e.enumerators) (hv : v.toInt = x.value.val) : v = x.value := by
  have hs := h.seen hr
  have hscan : r.positions.find? (fun p => v.toInt = p && Fallback.accepts spelling p) =
      some x.value.val := by
    apply Lists.find?_eq_some_of_unique (hr.mem_positions hx)
    · simp [hv, hs.accepts hx]
    · intro p _ hp
      simp only [Bool.and_eq_true, decide_eq_true_eq] at hp
      rw [← hp.1, hv]
  have hname := h.name v
  simp only [Fallback.scanName, hscan, hs.spells hx, Reflection.enumName] at hname
  cases hf : e.enumerators.find? (fun y => v = y.value) with
  | none =>
    rw [hf] at hname
    exact absurd hname (Enumeration.name_ne_nil hx)
  | some y =>
    rw [hf] at hname
    rw [Enumeration.eq_of_name hx (List.mem_of_find?_eq_some hf) hname]
    simpa using List.find?_some hf

theorem Agree.bounded (h : Agree e r spelling) : r.max < 2 ^ 31 - 1 := by
  by_contra hb
  have := r.max_lt
  have hend : r.min + r.span = r.max + 1 := by
    rw [EnumRange.span]
    omega
  have hmsg := h.message r.min r.min_ge r.min_lt
  simp only [Fallback.message, hend, le_refl, if_true] at hmsg
  rw [if_neg (by omega)] at hmsg
  cases hmsg

/-- The two paths agree exactly where the scan sees the enumeration, no value truncates to
an enumerator's, and the end of the range is representable. -/
theorem agree_iff_seen (hr : InRange e r) :
    Agree e r spelling ↔ Seen e r spelling ∧
      (∀ v : Value u, ∀ x ∈ e.enumerators, v.toInt = x.value.val → v = x.value) ∧
      r.max < 2 ^ 31 - 1 := by
  constructor
  · intro h
    exact ⟨h.seen hr, fun v x hx hv => h.untruncated hr v hx hv, h.bounded⟩
  · rintro ⟨hs, hcut, hb⟩
    exact ⟨hs.scanName hr hcut, hs.scanValue hr, hs.count hr, hs.failures hr,
      fun i _ _ => hs.message hr hb i⟩

variable {p : Printer compiler e}

theorem Printer.spelling_eq (v : Value u) : p.spelling v = unqualified compiler (p.text v) :=
  spelling_signature p.frame (p.text v)

theorem Covered.seen (h : Covered p r) : Seen e r p.spelling := by
  constructor
  · intro x hx
    obtain ⟨y, hy, hv, htext⟩ := p.named x.value ⟨x, hx, rfl⟩
    have hxy : y = x := List.inj_on_of_nodup_map h.unshared hy hx hv
    have hname : p.spelling x.value = x.name := by
      rw [Printer.spelling_eq, htext, hxy, h.sliced x hx]
    refine ⟨?_, hname⟩
    rw [hname]
    exact (isEnumerator_iff (e.identifiers x hx)).mpr (h.ascii x hx)
  · intro i hi hacc
    by_contra hno
    have hnot : ∀ x ∈ e.enumerators, x.value ≠ .ofInt u i := fun x hx hv =>
      hno ⟨x, hx, hv, h.unwrapped i hi x hx hv⟩
    have hrej := h.rejected i hi hnot
    rw [← Printer.spelling_eq] at hrej
    simp [Fallback.accepts, hrej] at hacc

theorem Seen.covered (h : Seen e r p.spelling)
    (hcut : ∀ v : Value u, ∀ x ∈ e.enumerators, v.toInt = x.value.val → v = x.value)
    (hb : r.max < 2 ^ 31 - 1) : Covered p r where
  ascii x hx := by
    obtain ⟨hacc, hname⟩ := h.at_enumerator x hx
    rw [hname] at hacc
    exact (isEnumerator_iff (e.identifiers x hx)).mp hacc
  sliced x hx := by
    obtain ⟨y, hy, hv, htext⟩ := p.named x.value ⟨x, hx, rfl⟩
    have hname := (h.at_enumerator x hx).2
    rwa [Printer.spelling_eq, htext, h.eq_of_value hy hx hv] at hname
  rejected i hi hno := by
    by_contra hacc
    rw [Bool.not_eq_false, ← Printer.spelling_eq] at hacc
    obtain ⟨x, hx, hv, -⟩ := h.elsewhere i hi hacc
    exact hno x hx hv
  unshared := List.Nodup.map_on (fun _ hx _ hy hv => h.eq_of_value hx hy hv)
    (List.Nodup.of_map _ e.distinct)
  unwrapped i hi x hx hv := by
    have hacc : Fallback.accepts p.spelling i = true := by
      rw [Fallback.accepts, ← hv]
      exact (h.at_enumerator x hx).1
    obtain ⟨y, hy, hvy, hval⟩ := h.elsewhere i hi hacc
    rw [h.eq_of_value hx hy (hv.trans hvy.symm), hval]
  untruncated := hcut
  bounded := hb

/-- For an enumeration within the scanned range, the fallback and reflection derive the same
metadata exactly when the enumeration is covered. -/
theorem paths_agree_iff (hr : InRange e r) : Agree e r p.spelling ↔ Covered p r := by
  rw [agree_iff_seen hr]
  constructor
  · rintro ⟨hs, hcut, hb⟩
    exact hs.covered hcut hb
  · intro h
    exact ⟨h.seen, h.untruncated, h.bounded⟩

/-- Where no printed text ends early, what the compiler prints asks nothing more than ASCII
names. -/
theorem covered_iff_of_clean (hs : Clean compiler p.scope) (ht : ∀ v, Clean compiler (p.text v)) :
    Covered p r ↔ (∀ x ∈ e.enumerators, ∀ c ∈ x.name, c.toNat < 128) ∧
      (e.enumerators.map (·.value)).Nodup ∧
      (∀ i ∈ r.positions, ∀ x ∈ e.enumerators, x.value = .ofInt u i → x.value.val = i) ∧
      (∀ v : Value u, ∀ x ∈ e.enumerators, v.toInt = x.value.val → v = x.value) ∧
      r.max < 2 ^ 31 - 1 := by
  constructor
  · intro h
    exact ⟨h.ascii, h.unshared, h.unwrapped, h.untruncated, h.bounded⟩
  · rintro ⟨hascii, hshared, hwrap, hcut, hb⟩
    refine ⟨hascii, fun x hx => ?_, fun i _ hno => ?_, hshared, hwrap, hcut, hb⟩
    · exact unqualified_qualified p.isScope hs (e.identifiers x hx)
    · exact not_isEnumerator_castOrNumber (p.unnamed _ hno) (ht _)

/-- `enum_range` as it stands for an enumeration that does not specialize it. -/
def EnumRange.default : EnumRange :=
  ⟨-128, 127, by decide, by decide, by decide, by decide, by decide⟩

def numeral : ℤ → Text
  | .ofNat n => Nat.toDigits 10 n
  | .negSucc n => '-' :: Nat.toDigits 10 (n + 1)

theorem isDigit_toDigits {n : ℕ} {c : Char} (hc : c ∈ Nat.toDigits 10 n) : isDigit c = true := by
  have h := Nat.isDigit_of_mem_toDigits (by decide) (by decide) hc
  simpa [Char.isDigit, isDigit, Char.le_def] using h

theorem isNumeral_numeral (v : ℤ) : IsNumeral (numeral v) := by
  cases v with
  | ofNat n =>
    obtain ⟨d, digits, hcons⟩ := List.exists_cons_of_ne_nil (Nat.toDigits_ne_nil (n := n) (b := 10))
    have hall : ∀ c ∈ d :: digits, isDigit c = true := fun c hc => isDigit_toDigits (hcons ▸ hc)
    show IsNumeral (Nat.toDigits 10 n)
    rw [hcons]
    exact ⟨⟨d, rfl, .inr (hall d List.mem_cons_self)⟩, fun c hc => .inr (.inr (hall c hc))⟩
  | negSucc n =>
    refine ⟨⟨'-', rfl, .inl rfl⟩, fun c hc => ?_⟩
    rcases List.mem_cons.mp hc with rfl | hc
    · exact .inl rfl
    · exact .inr (.inr (isDigit_toDigits hc))

/-- `enum class state : int { ok = 0, done = 0 };` -/
def aliased : Enumeration (.signed 32) where
  enumerators := [⟨"ok".toList, .ofInt _ 0⟩, ⟨"done".toList, .ofInt _ 0⟩]
  identifiers := by decide
  distinct := by decide

def aliasedPrinter : Printer .gnu aliased where
  frame := ⟨"[with auto ".toList, "]".toList, by decide, ']', rfl, by decide⟩
  scope := "state::".toList
  isScope := .inr ⟨"state".toList, by decide⟩
  text v := if v = .ofInt _ 0 then "state::ok".toList
    else '(' :: "state".toList ++ ')' :: numeral v.val
  named v h := by
    have hzero : v = .ofInt _ 0 := by
      obtain ⟨x, hx, rfl⟩ := h
      revert x
      decide
    rw [hzero]
    decide
  unnamed v h := by
    rw [if_neg fun hv => h _ List.mem_cons_self hv.symm]
    exact .cast _ (isNumeral_numeral _)

theorem paths_agree_iff_aliased :
    Agree aliased .default aliasedPrinter.spelling ↔ Covered aliasedPrinter .default :=
  paths_agree_iff (by unfold InRange; decide)

/-- Two enumerators of one value: the scan counts the value once. -/
theorem aliased_disagree : ¬ Agree aliased .default aliasedPrinter.spelling := by
  intro h
  have hcount : Fallback.countEnumerators aliasedPrinter.spelling .default = 1 := by
    decide +kernel
  rw [h.count] at hcount
  revert hcount
  decide

end Jmpxx.Reflect
