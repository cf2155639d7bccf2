import Jmpxx.Lines
import Jmpxx.StoreCheck

namespace Jmpxx.StoreCheck

open Lines

def valueOf (s : Bytes) : Bytes := (s.dropWhile (· ≠ equalsSign)).tail

def isSum (s : Bytes) : Bool := sumKey.isPrefixOf s

def isRef (s : Bytes) : Bool := refKey.isPrefixOf s

/-- Neither of the two keys that mean something. -/
def isPlain (s : Bytes) : Bool := !isSum s && !isRef s

def valueSum (line : Bytes) : ℕ := ((valueOf line).map UInt8.toNat).sum

def IsNumber (s : Bytes) : Prop := s ≠ [] ∧ ∀ c ∈ s, isDigit c

/-- A version 1 record, whole and with its checksum. -/
structure Conforms (r : Bytes) : Prop where
  header : (lines newline r).head? = some (magic ++ [version])
  fields : ∀ l ∈ (lines newline r).tail, equalsSign ∈ l
  sum : ∃ number, (lines newline r).tail.filter isSum = [sumKey ++ number] ∧ IsNumber number ∧
    decimalValue number = (((lines newline r).tail.filter isPlain).map valueSum).sum
  whole : r.length ≤ bufSize - 1
  unbroken : ∀ before after, r = before ++ 0 :: after → after = []

/-- `check_record` has no fault to find with the record itself. -/
def Accepts (r : Bytes) : Prop := ∃ ref, checkContent r = .ok ref

def body (r : Bytes) : Bytes := cStr ((r.take (bufSize - 1)).drop 6)

/-- The line `s` begins with passes the loop. -/
def LineOk (s : Bytes) : Prop :=
  equalsSign ∈ line newline s ∧
    (isRef s → 0 < (valueOf (line newline s)).length ∧ (valueOf (line newline s)).length < maxName)

instance (s : Bytes) : Decidable (LineOk s) := inferInstanceAs (Decidable (_ ∧ _))

def addStart (st : Fields) (s : Bytes) : Fields :=
  st.add s (valueOf (line newline s)) (valueOf s)

theorem strchr_append {k : Bytes} {c : UInt8} (h : c ∉ k) (t : Bytes) :
    strchr (k ++ c :: t) c = some k.length := by
  induction k with
  | nil => simp [strchr, List.findIdx?_cons]
  | cons d k ih =>
    rw [List.mem_cons, not_or] at h
    have ih' := ih h.2
    unfold strchr at ih' ⊢
    rw [List.cons_append, List.findIdx?_cons, ih', List.length_cons]
    simp [Ne.symm h.1]

theorem strchr_of_not_mem {s : Bytes} {c : UInt8} (h : c ∉ s) : strchr s c = none := by
  rw [strchr, List.findIdx?_eq_none_iff]
  intro d hd
  simp only [beq_eq_false_iff_ne]
  exact fun heq => h (heq ▸ hd)

theorem valueOf_append {k : Bytes} (h : equalsSign ∉ k) (t : Bytes) :
    valueOf (k ++ equalsSign :: t) = t := by
  have hk : ∀ c ∈ k, decide (c ≠ equalsSign) = true := fun c hc =>
    decide_eq_true fun heq => h (heq ▸ hc)
  rw [valueOf, List.dropWhile_append_of_pos hk]
  simp

/-- A line with an equals sign: its key, its value, and what is behind the line. -/
theorem split_of_mem_line {s : Bytes} (h : equalsSign ∈ line newline s) :
    ∃ k v rest, s = k ++ equalsSign :: (v ++ rest) ∧ line newline s = k ++ equalsSign :: v ∧
      equalsSign ∉ k ∧ newline ∉ k ++ equalsSign :: v ∧
      (rest = [] ∧ after newline s = [] ∨ rest = newline :: after newline s) := by
  obtain ⟨k, v, hline, hk⟩ := List.eq_append_cons_of_mem h
  have hsep : newline ∉ k ++ equalsSign :: v := hline ▸ sep_not_mem_line newline s
  rcases eq_line_or newline s with hs | hs
  · refine ⟨k, v, [], ?_, hline, hk, hsep, .inl ⟨rfl, after_of_not_mem hs.1⟩⟩
    rw [List.append_nil, ← hline, hs.2]
  · refine ⟨k, v, newline :: after newline s, ?_, hline, hk, hsep, .inr rfl⟩
    rw [← List.cons_append, ← List.append_assoc, ← hline]
    exact hs

theorem not_isSum_of_isRef {s : Bytes} (h : isRef s) : ¬ isSum s := fun hsum => by
  have hle := List.prefix_of_prefix_length_le (List.isPrefixOf_iff_prefix.mp hsum)
    (List.isPrefixOf_iff_prefix.mp h) (by decide)
  exact absurd (hle.eq_of_length (by decide)) (by decide)

theorem fieldsFrom_nil (st : Fields) : fieldsFrom [] st = .ok st := by
  rw [fieldsFrom, dif_pos rfl]

/-- One turn of the loop at a line that has an equals sign. -/
theorem fieldsFrom_of_mem {s : Bytes} (h : equalsSign ∈ line newline s) (st : Fields) :
    fieldsFrom s st =
      if isRef s → 0 < (valueOf (line newline s)).length ∧ (valueOf (line newline s)).length < maxName
      then fieldsFrom (after newline s) (addStart st s) else .error .fieldMalformed := by
  obtain ⟨k, v, rest, hs, hline, hk, hsep, hrest⟩ := split_of_mem_line h
  have heq : strchr s equalsSign = some k.length := by
    rw [hs]
    exact strchr_append hk (v ++ rest)
  have hvalue : valueOf s = v ++ rest := by
    rw [hs]
    exact valueOf_append hk (v ++ rest)
  have hvalueLine : valueOf (line newline s) = v := by
    rw [hline]
    exact valueOf_append hk v
  have hdrop : s.drop (k.length + 1) = v ++ rest := by
    rw [hs, List.drop_length_add_append]
    rfl
  have hne : s ≠ [] := by
    rw [hs]
    exact List.append_ne_nil_of_right_ne_nil k (List.cons_ne_nil _ _)
  have htest : (¬ isSum s ∧ isRef s ∧ (v.length = 0 ∨ v.length ≥ maxName)) ↔
      ¬ (isRef s → 0 < v.length ∧ v.length < maxName) := by
    rw [Classical.not_imp]
    constructor
    · intro hbad
      exact ⟨hbad.2.1, by omega⟩
    · intro hbad
      exact ⟨not_isSum_of_isRef hbad.1, hbad.1, by omega⟩
  -- the loop makes the one test in two shapes, by whether a newline ends the line
  have hpick : ∀ good bad : Except Fault Fields,
      (if ¬ isSum s ∧ isRef s ∧ (v.length = 0 ∨ v.length ≥ maxName) then bad else good) =
        if isRef s → 0 < v.length ∧ v.length < maxName then good else bad := fun good bad => by
    rw [if_congr htest rfl rfl, ite_not]
  rw [hvalueLine, fieldsFrom, dif_neg hne]
  simp only [heq]
  rcases hrest with ⟨rfl, hafter⟩ | rfl
  · have heol : strchr s newline = none := strchr_of_not_mem (by rwa [hs, List.append_nil])
    have hlen : s.length - (k.length + 1) = v.length := by
      rw [← List.length_drop, hdrop, List.append_nil]
    have hadd : st.add s (((v ++ []).take v.length)) (v ++ []) = addStart st s := by
      rw [addStart, hvalue, hvalueLine, List.append_nil, List.take_length]
    simp only [heol, Option.getD_some, Option.getD_none, hdrop, hlen]
    rw [if_neg (by simp), hadd, if_pos trivial, hafter, fieldsFrom_nil]
    exact hpick _ _
  · have heol : strchr s newline = some (k ++ equalsSign :: v).length := by
      rw [hs, ← List.cons_append, ← List.append_assoc]
      exact strchr_append hsep _
    have hlen : (k ++ equalsSign :: v).length - (k.length + 1) = v.length := by
      rw [List.length_append, List.length_cons]
      omega
    have hlt : ¬ (k ++ equalsSign :: v).length < k.length := by
      rw [List.length_append]
      omega
    have hadd : st.add s ((v ++ newline :: after newline s).take v.length)
        (v ++ newline :: after newline s) = addStart st s := by
      rw [addStart, hvalue, hvalueLine, List.take_left]
    have hnext : s.drop ((k ++ equalsSign :: v).length + 1) = after newline s := by
      conv_lhs => rw [hs, ← List.cons_append, ← List.append_assoc, List.drop_length_add_append]
      rfl
    simp only [heol, Option.getD_some, hdrop, hlen, hnext, hadd]
    have hfirst : ¬ (some k.length = none ∨ some (k ++ equalsSign :: v).length ≠ none ∧
        (k ++ equalsSign :: v).length < k.length) := fun hbad =>
      hbad.elim (Option.some_ne_none _) fun hbad => hlt hbad.2
    rw [if_neg hfirst, if_neg (Option.some_ne_none _)]
    exact hpick _ _

/-- One turn of the loop at a line that has none. -/
theorem fieldsFrom_of_not_mem {s : Bytes} (hne : s ≠ []) (h : equalsSign ∉ line newline s)
    (st : Fields) : fieldsFrom s st = .error .fieldMalformed := by
  have htest : strchr s equalsSign = none ∨
      (strchr s newline ≠ none ∧ (strchr s newline).getD 0 < (strchr s equalsSign).getD 0) := by
    by_cases hmem : equalsSign ∈ s
    -- an equals sign on a later line stands behind this line's newline
    · right
      rcases eq_line_or newline s with hs | hs
      · rw [hs.2] at h
        exact absurd hmem h
      · obtain ⟨k, t, hk, hkmem⟩ := List.eq_append_cons_of_mem
          (show equalsSign ∈ after newline s by
            rw [hs, List.mem_append, List.mem_cons] at hmem
            exact (hmem.resolve_left h).resolve_left (by decide))
        have hfirst : equalsSign ∉ line newline s ++ newline :: k := by
          rw [List.mem_append, List.mem_cons, not_or, not_or]
          exact ⟨h, by decide, hkmem⟩
        have heq : strchr s equalsSign = some (line newline s ++ newline :: k).length := by
          conv_lhs => rw [hs, hk, ← List.cons_append, ← List.append_assoc]
          exact strchr_append hfirst t
        have heol : strchr s newline = some (line newline s).length := by
          conv_lhs => rw [hs]
          exact strchr_append (sep_not_mem_line newline s) _
        rw [heq, heol]
        refine ⟨by simp, ?_⟩
        rw [Option.getD_some, Option.getD_some, List.length_append, List.length_cons]
        omega
    · exact .inl (strchr_of_not_mem hmem)
  rw [fieldsFrom, dif_neg hne]
  exact if_pos htest

/-- The loop over the lines. -/
theorem fieldsFrom_eq (s : Bytes) (st : Fields) :
    fieldsFrom s st =
      if ∀ s' ∈ starts newline s, LineOk s' then .ok ((starts newline s).foldl addStart st)
      else .error .fieldMalformed := by
  induction s using starts.induct newline generalizing st with
  | case1 => rw [fieldsFrom_nil, starts_nil, if_pos (fun _ h => absurd h List.not_mem_nil)]; rfl
  | case2 s hne ih =>
    rw [starts_of_ne_nil hne]
    simp only [List.forall_mem_cons, List.foldl_cons]
    by_cases hmem : equalsSign ∈ line newline s
    · by_cases hgood : isRef s → 0 < (valueOf (line newline s)).length ∧
          (valueOf (line newline s)).length < maxName
      · rw [fieldsFrom_of_mem hmem, if_pos hgood, ih]
        have hline : LineOk s := ⟨hmem, hgood⟩
        simp only [hline, true_and]
      · have hline : ¬ LineOk s := fun h => hgood h.2
        rw [fieldsFrom_of_mem hmem, if_neg hgood, if_neg fun h => hline h.1]
    · have hline : ¬ LineOk s := fun h => hmem h.1
      rw [fieldsFrom_of_not_mem hne hmem, if_neg fun h => hline h.1]

theorem addStart_of_isSum {s : Bytes} (h : isSum s) (st : Fields) :
    addStart st s = { st with declared := strtol (valueOf s) } := if_pos h

theorem addStart_of_isRef {s : Bytes} (h : isRef s) (st : Fields) :
    addStart st s = { st with ref := some (valueOf (line newline s)) } :=
  (if_neg (not_isSum_of_isRef h)).trans (if_pos h)

theorem addStart_of_isPlain {s : Bytes} (h : isPlain s) (st : Fields) :
    addStart st s = { st with sum := (st.sum + valueSum (line newline s)) % 2 ^ 32 } := by
  rw [isPlain, Bool.and_eq_true, Bool.not_eq_true', Bool.not_eq_true'] at h
  exact (if_neg (Bool.eq_false_iff.mp h.1)).trans (if_neg (Bool.eq_false_iff.mp h.2))

/-- A line is a sum line, a reference or a plain one. -/
theorem line_cases (s : Bytes) : isSum s ∨ isRef s ∨ isPlain s := by
  unfold isPlain
  cases isSum s <;> cases isRef s <;> simp

theorem foldl_declared (l : List Bytes) (st : Fields) :
    (l.foldl addStart st).declared =
      ((l.filter isSum).getLast?).elim st.declared fun s => strtol (valueOf s) := by
  induction l using List.reverseRecOn with
  | nil => rfl
  | append_singleton l s ih =>
    rw [List.foldl_concat, List.filter_append, List.filter_singleton]
    rcases line_cases s with h | h | h
    · rw [addStart_of_isSum h, h]
      simp
    · have hsum := not_isSum_of_isRef h
      rw [addStart_of_isRef h]
      simp [hsum, ih]
    · have hsum : isSum s = false := by simp_all [isPlain]
      rw [addStart_of_isPlain h]
      simp [hsum, ih]

theorem foldl_sum (l : List Bytes) (st : Fields) (h : st.sum < 2 ^ 32) :
    (l.foldl addStart st).sum =
      (st.sum + ((l.filter isPlain).map fun s => valueSum (line newline s)).sum) % 2 ^ 32 := by
  induction l using List.reverseRecOn with
  | nil => exact (Nat.mod_eq_of_lt h).symm
  | append_singleton l s ih =>
    rw [List.foldl_concat, List.filter_append, List.filter_singleton]
    rcases line_cases s with h | h | h
    · have hplain : isPlain s = false := by simp [isPlain, h]
      rw [addStart_of_isSum h]
      simp [hplain, ih]
    · have hplain : isPlain s = false := by simp [isPlain, h]
      rw [addStart_of_isRef h]
      simp [hplain, ih]
    · rw [addStart_of_isPlain h, h]
      simp [ih, Nat.add_assoc]

def total (s : Bytes) : ℕ :=
  (((starts newline s).filter isPlain).map fun s => valueSum (line newline s)).sum

theorem valueSum_le (l : Bytes) : valueSum l ≤ 255 * l.length := by
  have hsum : ∀ t : Bytes, (t.map UInt8.toNat).sum ≤ 255 * t.length := by
    intro t
    induction t with
    | nil => exact Nat.le_refl _
    | cons c t ih =>
      have hc := c.toNat_lt
      rw [List.map_cons, List.sum_cons, List.length_cons]
      omega
  have hle : (valueOf l).length ≤ l.length := by
    have hdrop := (List.dropWhile_suffix (l := l) (· ≠ equalsSign)).length_le
    rw [valueOf, List.length_tail]
    omega
  exact (hsum _).trans (Nat.mul_le_mul_left 255 hle)

theorem total_le (s : Bytes) : total s ≤ 255 * s.length := by
  induction s using starts.induct newline with
  | case1 => rw [total, starts_nil]; exact Nat.le_refl _
  | case2 s hne ih =>
    have hline := valueSum_le (line newline s)
    have hlen : (line newline s).length + (after newline s).length ≤ s.length := by
      rcases eq_line_or newline s with hs | hs
      · rw [after_of_not_mem hs.1, hs.2]
        exact Nat.le_refl _
      · conv_rhs => rw [hs, List.length_append, List.length_cons]
        omega
    unfold total at ih ⊢
    rw [starts_of_ne_nil hne, List.filter_cons]
    split_ifs
    · rw [List.map_cons, List.sum_cons]
      omega
    · omega

/-- What is read of a record passes every test made on it: the magic and the version, an equals sign
on every line, the length of every reference, and the number after the last `sum=`. -/
structure Passes (r : Bytes) : Prop where
  long : 12 ≤ r.length
  header : magic ++ [version] <+: r
  lines : ∀ s ∈ starts newline (body r), LineOk s
  sum : ∃ s, ((starts newline (body r)).filter isSum).getLast? = some s ∧
    strtol (valueOf s) = total (body r)

theorem strtol_le (s : Bytes) : strtol s ≤ 2 ^ 31 - 1 := by
  unfold strtol
  dsimp only
  split_ifs <;> omega

theorem length_body_le (r : Bytes) : (body r).length ≤ bufSize := by
  have hcut := (List.takeWhile_prefix (l := (r.take (bufSize - 1)).drop 6) (· ≠ 0)).length_le
  have hdrop := ((r.take (bufSize - 1)).drop_suffix 6).length_le
  have htake := List.length_take_le (bufSize - 1) r
  unfold body cStr
  omega

/-- The number after the last `sum=` is compared as it is. -/
theorem declared_iff (declared : ℤ) (h : declared ≤ 2 ^ 31 - 1) (r : Bytes) :
    (¬ declared < 0 ∧ ¬ (declared % 2 ^ 32).toNat ≠ total (body r) % 2 ^ 32) ↔
      declared = total (body r) := by
  have htotal := total_le (body r)
  have hlen : (body r).length ≤ 192 := length_body_le r
  omega

theorem header_iff {r : Bytes} (h : 12 ≤ r.length) :
    (magic.isPrefixOf (r.take (bufSize - 1)) ∧ (r.take (bufSize - 1))[4]? = some version) ↔
      magic ++ [version] <+: r := by
  have hmagic : magic.isPrefixOf (r.take (bufSize - 1)) ↔ magic <+: r := by
    rw [List.isPrefixOf_iff_prefix, List.prefix_take_iff]
    exact ⟨And.left, fun hp => ⟨hp, by decide⟩⟩
  rw [hmagic, List.getElem?_take_of_lt (by decide)]
  constructor
  · intro hboth
    obtain ⟨t, ht⟩ := hboth.1
    have hversion := hboth.2
    rw [← ht] at hversion
    cases t with
    | nil => cases hversion
    | cons c t =>
      rw [List.getElem?_append_right (by decide)] at hversion
      rw [← ht, ← Option.some.inj hversion]
      exact ⟨t, by rw [List.append_assoc]; rfl⟩
  · intro hp
    obtain ⟨t, rfl⟩ := hp
    exact ⟨⟨version :: t, by rw [List.append_assoc]; rfl⟩, rfl⟩

/-- The numbers the checker compares. -/
theorem declared_eq_iff (r : Bytes) :
    let st := (starts newline (body r)).foldl addStart ⟨0, none, -1⟩
    (¬ st.declared < 0 ∧ ¬ (st.declared % 2 ^ 32).toNat ≠ st.sum) ↔
      ∃ s, ((starts newline (body r)).filter isSum).getLast? = some s ∧
        strtol (valueOf s) = total (body r) := by
  intro st
  have hsum : st.sum = total (body r) % 2 ^ 32 := by
    rw [foldl_sum _ _ (by decide), Nat.zero_add]
    rfl
  rw [hsum, foldl_declared]
  cases ((starts newline (body r)).filter isSum).getLast? with
  | none => simp
  | some s =>
    rw [Option.elim_some, declared_iff _ (strtol_le _)]
    simp

theorem accepts_iff (r : Bytes) : Accepts r ↔ Passes r := by
  have hlen : (r.take (bufSize - 1)).length < 12 ↔ r.length < 12 := by
    show (r.take 191).length < 12 ↔ _
    rw [List.length_take]
    omega
  have hreject : ∀ f, checkContent r = .error f → ¬ Accepts r := by
    intro f hf haccept
    obtain ⟨ref, href⟩ := haccept
    rw [hf] at href
    cases href
  by_cases hshort : r.length < 12
  · refine iff_of_false (hreject .recordUnreadable (if_pos (hlen.mpr hshort))) fun h => ?_
    exact absurd h.long (Nat.not_le.mpr hshort)
  have hlong := Nat.not_lt.mp hshort
  by_cases hmagic : magic.isPrefixOf (r.take (bufSize - 1))
  swap
  · refine iff_of_false (hreject .headerBad ?_) fun h => hmagic ((header_iff hlong).mpr h.header).1
    exact (if_neg (mt hlen.mp hshort)).trans (if_pos hmagic)
  by_cases hversion : (r.take (bufSize - 1))[4]? = some version
  swap
  · refine iff_of_false (hreject .versionUnsupported ?_) fun h =>
      hversion ((header_iff hlong).mpr h.header).2
    exact (if_neg (mt hlen.mp hshort)).trans
      ((if_neg (not_not.mpr hmagic)).trans (if_pos hversion))
  have hcontent : checkContent r = (fieldsFrom (body r) ⟨0, none, -1⟩).bind fun st =>
      if st.declared < 0 then .error .fieldMalformed
      else if (st.declared % 2 ^ 32).toNat ≠ st.sum then .error .checksumMismatch
      else .ok st.ref :=
    (if_neg (mt hlen.mp hshort)).trans
      ((if_neg (not_not.mpr hmagic)).trans (if_neg (not_not.mpr hversion)))
  rw [fieldsFrom_eq] at hcontent
  by_cases hlines : ∀ s ∈ starts newline (body r), LineOk s
  swap
  · rw [if_neg hlines] at hcontent
    exact iff_of_false (hreject _ hcontent) fun h => hlines h.lines
  rw [if_pos hlines] at hcontent
  have hheader := (header_iff hlong).mp ⟨hmagic, hversion⟩
  have hcompare := declared_eq_iff r
  dsimp only at hcompare
  constructor
  · intro haccept
    refine ⟨hlong, hheader, hlines, hcompare.mp ?_⟩
    by_contra hbad
    obtain ⟨ref, href⟩ := haccept
    rw [hcontent, Except.bind] at href
    split_ifs at href with hneg hdiffer
    exact hbad ⟨hneg, hdiffer⟩
  · intro hpasses
    obtain ⟨hpos, hagree⟩ := hcompare.mpr hpasses.sum
    exact ⟨_, hcontent.trans ((if_neg hpos).trans (if_neg hagree))⟩

/-- No longer than what is read, its header line ended where the first field is looked for, no zero
byte but a last one that ends a field, and a single sum line, with a number and nothing else. -/
structure Clean (r : Bytes) : Prop where
  whole : r.length ≤ bufSize - 1
  ended : r[5]? = some newline
  unbroken : ∀ before after, r = before ++ 0 :: after →
    after = [] ∧ before.getLast? ≠ some newline
  number : ∃ number, (lines newline (r.drop 6)).filter isSum = [sumKey ++ number] ∧ IsNumber number

def ZeroTail (t : Bytes) : Prop := t = [] ∨ t = [0]

theorem isPrefix_append_zeroTail {key s t : Bytes} (hkey : 0 ∉ key) (ht : ZeroTail t) :
    key.isPrefixOf (s ++ t) = key.isPrefixOf s := by
  rcases ht with rfl | rfl
  · rw [List.append_nil]
  · rw [Bool.eq_iff_iff, List.isPrefixOf_iff_prefix, List.isPrefixOf_iff_prefix,
      List.prefix_concat_iff]
    refine ⟨fun h => h.resolve_left ?_, .inr⟩
    rintro rfl
    exact hkey (List.mem_append_right s List.mem_cons_self)

theorem isSum_append_zeroTail (s : Bytes) {t : Bytes} (ht : ZeroTail t) : isSum (s ++ t) = isSum s :=
  isPrefix_append_zeroTail (by decide) ht

theorem isPlain_append_zeroTail (s : Bytes) {t : Bytes} (ht : ZeroTail t) :
    isPlain (s ++ t) = isPlain s := by
  rw [isPlain, isPlain, isSum_append_zeroTail s ht,
    show isRef (s ++ t) = isRef s from isPrefix_append_zeroTail (by decide) ht]

theorem isSum_line (s : Bytes) : isSum (line newline s) = isSum s := by
  rw [Bool.eq_iff_iff, isSum, isSum, List.isPrefixOf_iff_prefix, List.isPrefixOf_iff_prefix]
  exact prefix_line_iff (by decide)

theorem isPlain_line (s : Bytes) : isPlain (line newline s) = isPlain s := by
  have href : isRef (line newline s) = isRef s := by
    rw [Bool.eq_iff_iff, isRef, isRef, List.isPrefixOf_iff_prefix, List.isPrefixOf_iff_prefix]
    exact prefix_line_iff (by decide)
  rw [isPlain, isPlain, isSum_line, href]

/-- The line a text begins with, with the zero byte behind it or without. -/
theorem line_append_zeroTail (s : Bytes) {t : Bytes} (ht : ZeroTail t) :
    line newline (s ++ t) = line newline s ∨
      newline ∉ s ∧ line newline s = s ∧ line newline (s ++ t) = s ++ t := by
  have hsep : newline ∉ t := by
    rcases ht with rfl | rfl <;> decide
  rcases eq_line_or newline s with hs | hs
  · refine .inr ⟨hs.1, hs.2, line_of_not_mem fun h => ?_⟩
    exact (List.mem_append.mp h).elim hs.1 hsep
  · left
    conv_lhs => rw [hs, List.append_assoc, List.cons_append,
      line_append_sep (sep_not_mem_line newline s)]

theorem valueSum_append_zeroTail {s t : Bytes} (ht : ZeroTail t) (h : equalsSign ∈ line newline s) :
    equalsSign ∈ line newline (s ++ t) ∧
      valueSum (line newline (s ++ t)) = valueSum (line newline s) := by
  rcases line_append_zeroTail s ht with hline | ⟨-, hline, hmore⟩
  · rw [hline]
    exact ⟨h, rfl⟩
  · rw [hline] at h
    obtain ⟨k, v, rfl, hk⟩ := List.eq_append_cons_of_mem h
    rw [hline, hmore, List.append_assoc, List.cons_append, valueSum, valueSum, valueOf_append hk,
      valueOf_append hk]
    refine ⟨List.mem_append_right k List.mem_cons_self, ?_⟩
    rcases ht with rfl | rfl
    · rw [List.append_nil]
    · rw [List.map_append, List.sum_append]
      rfl

/-- What is read is the whole record but for its header line and a last zero byte. -/
theorem starts_of_clean {r : Bytes} (h : Clean r) :
    ∃ t, ZeroTail t ∧ starts newline (r.drop 6) = (starts newline (body r)).map (· ++ t) := by
  have hbody : body r = (r.drop 6).takeWhile (· ≠ 0) := by
    rw [body, List.take_of_length_le h.whole]
    rfl
  by_cases hzero : 0 ∈ r.drop 6
  · obtain ⟨b, u, hsplit, hb⟩ := List.eq_append_cons_of_mem hzero
    have hcut : body r = b := by
      have hall : ∀ c ∈ b, decide (c ≠ 0) = true := fun c hc =>
        decide_eq_true fun heq => hb (heq ▸ hc)
      rw [hbody, hsplit, List.takeWhile_append_of_pos hall]
      simp
    have hr : r = (r.take 6 ++ b) ++ 0 :: u := by
      rw [List.append_assoc, ← hsplit, List.take_append_drop]
    obtain ⟨rfl, hlast⟩ := h.unbroken _ _ hr
    have hne : b ≠ [] := by
      rintro rfl
      apply hlast
      rw [List.append_nil, List.getLast?_take]
      simp [h.ended]
    have hlast' : b.getLast? ≠ some newline := by
      rwa [List.getLast?_append_of_ne_nil _ hne] at hlast
    refine ⟨[0], .inr rfl, ?_⟩
    rw [hcut, hsplit]
    exact starts_append hne hlast' (by decide)
  · have hcut : body r = r.drop 6 := by
      rw [hbody, List.takeWhile_eq_self_iff]
      exact fun c hc => decide_eq_true fun heq => hzero (heq ▸ hc)
    refine ⟨[], .inl rfl, ?_⟩
    rw [hcut]
    simp

theorem strtol_number {number rest : Bytes} (h : IsNumber number)
    (hrest : ∀ c ∈ rest.head?, isDigit c = false) :
    strtol (number ++ rest) = min (2 ^ 31 - 1) (decimalValue number : ℤ) := by
  obtain ⟨hne, hdigits⟩ := h
  obtain ⟨d, ds, rfl⟩ := List.exists_cons_of_ne_nil hne
  have hd : isDigit d := hdigits d List.mem_cons_self
  have hnot : ∀ c : UInt8, isDigit c = false → d ≠ c := by
    rintro c hc rfl
    rw [hc] at hd
    cases hd
  have hspace : isSpace d = false := by
    have hd' : 48 ≤ d := by
      rw [isDigit, Bool.and_eq_true, decide_eq_true_iff, decide_eq_true_iff] at hd
      exact hd.1
    have hgt : ¬ d ≤ 13 := fun hle => absurd (UInt8.le_trans hd' hle) (by decide)
    simp [isSpace, hgt, hnot 32 (by decide)]
  have htake : (d :: ds ++ rest).takeWhile isDigit = d :: ds := by
    rw [List.takeWhile_append_of_pos hdigits]
    cases rest with
    | nil => simp
    | cons c rest => simp [hrest c rfl]
  have hplus : ¬ (some d = some 43 ∨ some d = some 45) := fun h =>
    h.elim (fun h => hnot 43 (by decide) (Option.some.inj h))
      fun h => hnot 45 (by decide) (Option.some.inj h)
  rw [strtol, List.cons_append, List.dropWhile_cons_of_neg (by simp [hspace]), List.head?_cons,
    if_neg hplus, if_neg fun h => hplus (.inr h), ← List.cons_append, htake]

theorem lines_of_ended {r : Bytes} (hheader : magic ++ [version] <+: r)
    (hended : r[5]? = some newline) :
    lines newline r = (magic ++ [version]) :: lines newline (r.drop 6) := by
  obtain ⟨x, rfl⟩ := hheader
  cases x with
  | nil => cases hended
  | cons c x =>
    rw [List.getElem?_append_right (by decide)] at hended
    rw [Option.some.inj hended]
    exact lines_append_sep (by decide) x

theorem clean_of_conforms {r : Bytes} (hlong : 12 ≤ r.length) (h : Conforms r) : Clean r := by
  have hne : r ≠ [] := by
    rintro rfl
    exact absurd hlong (by decide)
  have hline : line newline r = magic ++ [version] := by
    have hhead := h.header
    rw [lines_of_ne_nil hne] at hhead
    exact Option.some.inj hhead
  have hsplit : r = magic ++ [version] ++ newline :: after newline r := by
    rcases eq_line_or newline r with hr | hr
    · rw [← hr.2, hline] at hlong
      exact absurd hlong (by decide)
    · rwa [hline] at hr
  have hended : r[5]? = some newline := by
    rw [hsplit]
    rfl
  have htail : (lines newline r).tail = lines newline (r.drop 6) := by
    rw [lines_of_ended ⟨_, hsplit.symm⟩ hended, List.tail_cons]
  refine ⟨h.whole, hended, fun before after hr => ?_, ?_⟩
  · obtain rfl := h.unbroken before after hr
    refine ⟨rfl, fun hlast => ?_⟩
    obtain ⟨b, rfl⟩ := List.getLast?_eq_some_iff.mp hlast
    rw [List.append_assoc] at hr
    -- a zero byte alone behind a newline is a line, and no field
    have hlast' : [0] ∈ starts newline [0] := by
      rw [starts_of_not_mem (by decide) (by decide)]
      exact List.mem_cons_self
    have hmem : [0] ∈ lines newline r := by
      obtain ⟨front, hfront⟩ := starts_append_sep newline b [0]
      rw [hr, lines]
      exact List.mem_map.mpr ⟨[0], hfront ▸ List.mem_append_right front hlast', by decide⟩
    rw [lines_of_ended ⟨_, hsplit.symm⟩ hended, ← htail] at hmem
    have hfield := h.fields [0] ((List.mem_cons.mp hmem).resolve_left (by decide))
    exact absurd hfield (by decide)
  · obtain ⟨number, hnumber, hdigits, -⟩ := h.sum
    rw [htail] at hnumber
    exact ⟨number, hnumber, hdigits⟩

/-- The single sum line of a clean record, in what is read of it. -/
theorem sum_start_of_clean {number t s : Bytes} (ht : ZeroTail t) (hnumber : IsNumber number)
    (hline : line newline (s ++ t) = sumKey ++ number) :
    ∃ rest, valueOf s = number ++ rest ∧ ∀ c ∈ rest.head?, isDigit c = false := by
  have hzero : (0 : UInt8) ∉ sumKey ++ number := by
    rw [List.mem_append, not_or]
    exact ⟨by decide, fun h => absurd (hnumber.2 0 h) (by decide)⟩
  have hfound : ∀ rest, s = sumKey ++ number ++ rest → valueOf s = number ++ rest := by
    rintro rest rfl
    rw [List.append_assoc]
    exact valueOf_append (k := [115, 117, 109]) (by decide) (number ++ rest)
  rcases line_append_zeroTail s ht with hsame | ⟨-, -, hmore⟩
  · rw [hsame] at hline
    rcases eq_line_or newline s with hs | hs
    · refine ⟨[], hfound [] ?_, fun c hc => by cases hc⟩
      rw [List.append_nil, ← hline, hs.2]
    · refine ⟨newline :: after newline s, hfound _ ?_, fun c hc => ?_⟩
      · rwa [hline] at hs
      · rw [← Option.some.inj hc]
        rfl
  · rw [hmore] at hline
    rcases ht with rfl | rfl
    · refine ⟨[], hfound [] ?_, fun c hc => by cases hc⟩
      rw [List.append_nil, ← hline, List.append_nil]
    · exact absurd (hline ▸ List.mem_append_right s List.mem_cons_self) hzero

theorem conforms_of_clean {r : Bytes} (hp : Passes r) (h : Clean r) : Conforms r := by
  obtain ⟨t, ht, hstarts⟩ := starts_of_clean h
  have hlines : lines newline (r.drop 6) =
      (starts newline (body r)).map fun s => line newline (s ++ t) := by
    rw [lines, hstarts, List.map_map]
    rfl
  have hwhole := lines_of_ended hp.header h.ended
  -- a test of a line's start picks the same lines in the record and in what is read of it
  have hfilter : ∀ p : Bytes → Bool, (∀ s, p (line newline s) = p s) → (∀ s, p (s ++ t) = p s) →
      (lines newline (r.drop 6)).filter p =
        ((starts newline (body r)).filter p).map fun s => line newline (s ++ t) := by
    intro p hline happend
    rw [hlines, List.filter_map]
    congr 1
    apply List.filter_congr
    intro s _
    rw [Function.comp_apply, hline, happend]
  have hplain : ((lines newline (r.drop 6)).filter isPlain).map valueSum =
      ((starts newline (body r)).filter isPlain).map fun s => valueSum (line newline s) := by
    rw [hfilter isPlain isPlain_line fun s => isPlain_append_zeroTail s ht, List.map_map]
    apply List.map_congr_left
    intro s hs
    exact (valueSum_append_zeroTail ht (hp.lines s (List.mem_of_mem_filter hs)).1).2
  obtain ⟨number, hsumLine, hnumber⟩ := h.number
  refine ⟨?_, fun l hl => ?_, ⟨number, ?_, hnumber, ?_⟩, h.whole, fun before after hr =>
    (h.unbroken before after hr).1⟩
  · rw [hwhole]
    rfl
  · rw [hwhole, List.tail_cons, hlines, List.mem_map] at hl
    obtain ⟨s, hs, rfl⟩ := hl
    exact (valueSum_append_zeroTail ht (hp.lines s hs).1).1
  · rw [hwhole]
    exact hsumLine
  · rw [hfilter isSum isSum_line fun s => isSum_append_zeroTail s ht] at hsumLine
    obtain ⟨s, hs, hline⟩ := List.map_eq_singleton_iff.mp hsumLine
    obtain ⟨s', hlast, hagree⟩ := hp.sum
    rw [hs, List.getLast?_singleton] at hlast
    obtain rfl := Option.some.inj hlast
    obtain ⟨rest, hvalue, hrest⟩ := sum_start_of_clean ht hnumber hline
    rw [hvalue, strtol_number hnumber hrest] at hagree
    have htotal := total_le (body r)
    have hlen : (body r).length ≤ 192 := length_body_le r
    rw [hwhole, List.tail_cons, hplain]
    show decimalValue number = total (body r)
    omega

/-- The checker accepts only well formed records exactly on those that either fail a test made on
what is read of them or are clean. -/
theorem accepts_conforming_iff (r : Bytes) :
    (Accepts r → Conforms r) ↔ (Passes r → Clean r) := by
  rw [accepts_iff]
  constructor
  · exact fun h hp => clean_of_conforms hp.long (h hp)
  · exact fun h hp => conforms_of_clean hp (h hp)

/-- `"RCRD1\nsum=\nk=\n"`: an empty sum, and a field without a value. -/
def emptySum : Bytes := [82, 67, 82, 68, 49, 10, 115, 117, 109, 61, 10, 107, 61, 10]

theorem empty_sum_accepted : ¬ (Accepts emptySum → Conforms emptySum) := by
  intro h
  have haccept : Accepts emptySum := ⟨none, by decide +kernel⟩
  obtain ⟨number, hline, hnumber, -⟩ := (h haccept).sum
  have hempty : (lines newline emptySum).tail.filter isSum = [sumKey] := by decide +kernel
  rw [hempty, List.singleton_inj] at hline
  exact hnumber.1 (List.append_cancel_left ((List.append_nil sumKey).trans hline)).symm

end Jmpxx.StoreCheck
