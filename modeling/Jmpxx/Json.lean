import Mathlib.Data.Rat.Defs
import Mathlib.Algebra.Order.Field.Rat

namespace Json

abbrev Text := List Char

/-- A JSON value; an object keeps its members in the order of the text, repeated keys too. -/
inductive Value where
  | null
  | bool (b : Bool)
  | num (q : ℚ)
  | str (s : Text)
  | arr (elements : List Value)
  | obj (members : List (Text × Value))

def isWs (c : Char) : Bool := c = ' ' || c = '\t' || c = '\n' || c = '\r'

def skipWs (t : Text) : Text := t.dropWhile isWs

def expect (c : Char) : Text → Option Text
  | [] => none
  | d :: rest => if d = c then some rest else none

def hexValue (c : Char) : Option ℕ :=
  if '0' ≤ c ∧ c ≤ '9' then some (c.toNat - 48)
  else if 'a' ≤ c ∧ c ≤ 'f' then some (c.toNat - 87)
  else if 'A' ≤ c ∧ c ≤ 'F' then some (c.toNat - 55)
  else none

def readUnit (t : Text) : Option (ℕ × Text) := do
  let digits ← (t.take 4).mapM hexValue
  if digits.length = 4 then some (digits.foldl (fun n d => 16 * n + d) 0, t.drop 4) else none

/-- What follows `\u`: one code unit, or a surrogate pair. -/
def readUnicode (t : Text) : Option (Char × Text) := do
  let high ← readUnit t
  if 0xD800 ≤ high.1 ∧ high.1 < 0xDC00 then do
    let t ← expect '\\' high.2
    let t ← expect 'u' t
    let low ← readUnit t
    if 0xDC00 ≤ low.1 ∧ low.1 < 0xE000 then
      some (Char.ofNat (0x10000 + (high.1 - 0xD800) * 0x400 + (low.1 - 0xDC00)), low.2)
    else none
  else if 0xDC00 ≤ high.1 ∧ high.1 < 0xE000 then none
  else some (Char.ofNat high.1, high.2)

def simpleEscape (e : Char) : Option Char :=
  if e = '\"' ∨ e = '\\' ∨ e = '/' then some e
  else if e = 'b' then some (Char.ofNat 8)
  else if e = 'f' then some (Char.ofNat 12)
  else if e = 'n' then some '\n'
  else if e = 'r' then some '\r'
  else if e = 't' then some '\t'
  else none

def readEscape : Text → Option (Char × Text)
  | [] => none
  | e :: rest => if e = 'u' then readUnicode rest else (simpleEscape e).map fun c => (c, rest)

def readChars : ℕ → Text → Option (Text × Text)
  | 0, _ => none
  | _, [] => none
  | n + 1, c :: rest =>
    if c = '\"' then some ([], rest)
    else if c = '\\' then do
      let escaped ← readEscape rest
      (readChars n escaped.2).map fun r => (escaped.1 :: r.1, r.2)
    else if c.toNat < 32 then none
    else (readChars n rest).map fun r => (c :: r.1, r.2)

def readString (t : Text) : Option (Text × Text) := do
  let t ← expect '\"' t
  readChars (t.length + 1) t

def digitsValue (digits : Text) : ℕ := Nat.ofDigitChars 10 digits 0

def readDigits (t : Text) : Option (Text × Text) :=
  if t.takeWhile Char.isDigit = [] then none
  else some (t.takeWhile Char.isDigit, t.dropWhile Char.isDigit)

def readInt (t : Text) : Option (ℕ × Text) := do
  let digits ← readDigits t
  if digits.1.head? = some '0' ∧ digits.1.length ≠ 1 then none
  else some (digitsValue digits.1, digits.2)

def readFraction (t : Text) : Option (ℚ × Text) :=
  if t.head? = some '.' then do
    let digits ← readDigits t.tail
    some ((digitsValue digits.1 : ℚ) / 10 ^ digits.1.length, digits.2)
  else some (0, t)

def readExponent (t : Text) : Option (ℤ × Text) :=
  if t.head? = some 'e' ∨ t.head? = some 'E' then
    if t.tail.head? = some '-' then do
      let digits ← readDigits t.tail.tail
      some (-(digitsValue digits.1 : ℤ), digits.2)
    else do
      let digits ← readDigits (if t.tail.head? = some '+' then t.tail.tail else t.tail)
      some ((digitsValue digits.1 : ℤ), digits.2)
  else some (0, t)

def readMagnitude (t : Text) : Option (ℚ × Text) := do
  let int ← readInt t
  let fraction ← readFraction int.2
  let exponent ← readExponent fraction.2
  some (((int.1 : ℚ) + fraction.1) * 10 ^ exponent.1, exponent.2)

def readNumber (t : Text) : Option (Value × Text) :=
  if t.head? = some '-' then (readMagnitude t.tail).map fun r => (.num (-r.1), r.2)
  else (readMagnitude t).map fun r => (.num r.1, r.2)

mutual

/-- A value; the fuel bounds how deep it nests and how long its members go on. -/
def readValue : ℕ → Text → Option (Value × Text)
  | 0, _ => none
  | n + 1, t =>
    let t := skipWs t
    if t.head? = some '\"' then (readString t).map fun r => (.str r.1, r.2)
    else if t.head? = some '{' then
      if (skipWs t.tail).head? = some '}' then some (.obj [], (skipWs t.tail).tail)
      else (readMembers n t.tail).map fun r => (.obj r.1, r.2)
    else if t.head? = some '[' then
      if (skipWs t.tail).head? = some ']' then some (.arr [], (skipWs t.tail).tail)
      else (readElements n t.tail).map fun r => (.arr r.1, r.2)
    else if ['t', 'r', 'u', 'e'].isPrefixOf t then some (.bool true, t.drop 4)
    else if ['f', 'a', 'l', 's', 'e'].isPrefixOf t then some (.bool false, t.drop 5)
    else if ['n', 'u', 'l', 'l'].isPrefixOf t then some (.null, t.drop 4)
    else readNumber t

def readMembers : ℕ → Text → Option (List (Text × Value) × Text)
  | 0, _ => none
  | n + 1, t => do
    let key ← readString (skipWs t)
    let t ← expect ':' (skipWs key.2)
    let value ← readValue n t
    let t := skipWs value.2
    if t.head? = some '}' then some ([(key.1, value.1)], t.tail)
    else do
      let t ← expect ',' t
      (readMembers n t).map fun r => ((key.1, value.1) :: r.1, r.2)

def readElements : ℕ → Text → Option (List Value × Text)
  | 0, _ => none
  | n + 1, t => do
    let value ← readValue n t
    let t := skipWs value.2
    if t.head? = some ']' then some ([value.1], t.tail)
    else do
      let t ← expect ',' t
      (readElements n t).map fun r => (value.1 :: r.1, r.2)

end

def decode (t : Text) : Option Value := do
  let value ← readValue (t.length + 1) t
  if skipWs value.2 = [] then some value.1 else none

section Rules

variable {n : ℕ} {c : Char} {t rest : Text} {key : Text} {v : Value}

theorem skipWs_cons (h : isWs c = false) (t : Text) : skipWs (c :: t) = c :: t := by
  rw [skipWs, List.dropWhile_cons_of_neg (by simp [h])]

@[simp] theorem expect_cons (c : Char) (t : Text) : expect c (c :: t) = some t := if_pos rfl

theorem readString_cons (t : Text) : readString ('\"' :: t) = readChars (t.length + 1) t := by
  rw [readString, expect_cons]
  rfl

theorem readChars_nil (n : ℕ) : readChars n [] = none := by cases n <;> rfl

theorem readChars_quote (n : ℕ) (rest : Text) :
    readChars (n + 1) ('\"' :: rest) = some ([], rest) := if_pos rfl

theorem readChars_plain (h : c ≠ '\"') (h' : c ≠ '\\') (hc : 32 ≤ c.toNat) (n : ℕ) (rest : Text) :
    readChars (n + 1) (c :: rest) = (readChars n rest).map fun r => (c :: r.1, r.2) := by
  rw [readChars, if_neg h, if_neg h', if_neg (Nat.not_lt.mpr hc)]

theorem readChars_control (h : c.toNat < 32) (n : ℕ) (rest : Text) :
    readChars n (c :: rest) = none := by
  cases n with
  | zero => rfl
  | succ n =>
    have hquote : c ≠ '\"' := by
      rintro rfl
      exact absurd h (by decide)
    have hslash : c ≠ '\\' := by
      rintro rfl
      exact absurd h (by decide)
    rw [readChars, if_neg hquote, if_neg hslash, if_pos h]

theorem readChars_escape {e : Char} (h : e ≠ 'u') (hc : simpleEscape e = some c) (n : ℕ)
    (rest : Text) : readChars (n + 1) ('\\' :: e :: rest) =
      (readChars n rest).map fun r => (c :: r.1, r.2) := by
  rw [readChars, if_neg (by decide), if_pos rfl, readEscape, if_neg h, hc]
  rfl

theorem readValue_string (n : ℕ) (t : Text) :
    readValue (n + 1) ('\"' :: t) = (readString ('\"' :: t)).map fun r => (.str r.1, r.2) := by
  rw [readValue, skipWs_cons (by decide)]
  rfl

theorem readValue_members (n : ℕ) (t : Text) :
    readValue (n + 1) ('{' :: '\"' :: t) =
      (readMembers n ('\"' :: t)).map fun r => (.obj r.1, r.2) := by
  rw [readValue, skipWs_cons (by decide)]
  simp only [List.tail_cons, skipWs_cons (show isWs '\"' = false by decide)]
  rfl

theorem readValue_no_members (n : ℕ) (t : Text) :
    readValue (n + 1) ('{' :: '}' :: t) = some (.obj [], t) := by
  rw [readValue, skipWs_cons (by decide)]
  simp only [List.tail_cons, skipWs_cons (show isWs '}' = false by decide)]
  rfl

theorem readValue_elements (n : ℕ) (t : Text) :
    readValue (n + 1) ('[' :: '\"' :: t) =
      (readElements n ('\"' :: t)).map fun r => (.arr r.1, r.2) := by
  rw [readValue, skipWs_cons (by decide)]
  simp only [List.tail_cons, skipWs_cons (show isWs '\"' = false by decide)]
  rfl

theorem readValue_no_elements (n : ℕ) (t : Text) :
    readValue (n + 1) ('[' :: ']' :: t) = some (.arr [], t) := by
  rw [readValue, skipWs_cons (by decide)]
  simp only [List.tail_cons, skipWs_cons (show isWs ']' = false by decide)]
  rfl

theorem readValue_true (n : ℕ) (t : Text) :
    readValue (n + 1) ('t' :: 'r' :: 'u' :: 'e' :: t) = some (.bool true, t) := by
  rw [readValue, skipWs_cons (by decide)]
  rfl

theorem readValue_false (n : ℕ) (t : Text) :
    readValue (n + 1) ('f' :: 'a' :: 'l' :: 's' :: 'e' :: t) = some (.bool false, t) := by
  rw [readValue, skipWs_cons (by decide)]
  rfl

theorem readMembers_of_no_key (h : readString ('\"' :: t) = none) (n : ℕ) :
    readMembers n ('\"' :: t) = none := by
  cases n with
  | zero => rfl
  | succ n =>
    rw [readMembers, skipWs_cons (by decide), h]
    rfl

theorem readMembers_of_key (h : readString ('\"' :: t) = some (key, ':' :: rest)) (n : ℕ) :
    readMembers (n + 1) ('\"' :: t) = (do
      let value ← readValue n rest
      let t := skipWs value.2
      if t.head? = some '}' then some ([(key, value.1)], t.tail)
      else do
        let t ← expect ',' t
        (readMembers n t).map fun r => ((key, value.1) :: r.1, r.2)) := by
  rw [readMembers, skipWs_cons (by decide), h]
  simp only [Option.bind_eq_bind, Option.bind_some, skipWs_cons (show isWs ':' = false by decide),
    expect_cons]

theorem readMembers_last (h : readString ('\"' :: t) = some (key, ':' :: rest))
    {rest' : Text} (hv : readValue n rest = some (v, '}' :: rest')) :
    readMembers (n + 1) ('\"' :: t) = some ([(key, v)], rest') := by
  rw [readMembers_of_key h, hv]
  simp only [Option.bind_eq_bind, Option.bind_some, skipWs_cons (show isWs '}' = false by decide)]
  rfl

theorem readMembers_more (h : readString ('\"' :: t) = some (key, ':' :: rest))
    {rest' : Text} (hv : readValue n rest = some (v, ',' :: rest')) :
    readMembers (n + 1) ('\"' :: t) =
      (readMembers n rest').map fun r => ((key, v) :: r.1, r.2) := by
  rw [readMembers_of_key h, hv]
  simp only [Option.bind_eq_bind, Option.bind_some, skipWs_cons (show isWs ',' = false by decide)]
  rfl

theorem readMembers_of_no_value (h : readString ('\"' :: t) = some (key, ':' :: rest))
    (hv : ∀ n, readValue n rest = none) (n : ℕ) : readMembers n ('\"' :: t) = none := by
  cases n with
  | zero => rfl
  | succ n =>
    rw [readMembers_of_key h, hv]
    rfl

theorem readElements_last (h : readValue n t = some (v, ']' :: rest)) :
    readElements (n + 1) t = some ([v], rest) := by
  rw [readElements, h]
  simp only [Option.bind_eq_bind, Option.bind_some, skipWs_cons (show isWs ']' = false by decide)]
  rfl

theorem readElements_more (h : readValue n t = some (v, ',' :: rest)) :
    readElements (n + 1) t = (readElements n rest).map fun r => (v :: r.1, r.2) := by
  rw [readElements, h]
  simp only [Option.bind_eq_bind, Option.bind_some, skipWs_cons (show isWs ',' = false by decide)]
  rfl

theorem readElements_of_stuck (h : readValue n t = none) : readElements (n + 1) t = none := by
  rw [readElements, h]
  rfl

theorem readElements_of_no_value (h : ∀ n, readValue n t = none) (n : ℕ) :
    readElements n t = none := by
  cases n with
  | zero => rfl
  | succ n => exact readElements_of_stuck (h n)

/-- More fuel does not change what is read. -/
theorem read_succ (n : ℕ) :
    (∀ t r, readValue n t = some r → readValue (n + 1) t = some r) ∧
    (∀ t r, readMembers n t = some r → readMembers (n + 1) t = some r) ∧
    ∀ t r, readElements n t = some r → readElements (n + 1) t = some r := by
  induction n with
  | zero => refine ⟨?_, ?_, ?_⟩ <;> intro t r h <;> cases h
  | succ n ih =>
    obtain ⟨ihv, ihm, ihe⟩ := ih
    refine ⟨fun t r h => ?_, fun t r h => ?_, fun t r h => ?_⟩
    · rw [readValue] at h ⊢
      split_ifs at h ⊢
      -- only an object or an array reads on with the fuel that is left
      all_goals first
        | exact h
        | · obtain ⟨r', hr', rfl⟩ := Option.map_eq_some_iff.mp h
            first
              | rw [ihm _ _ hr', Option.map_some]
              | rw [ihe _ _ hr', Option.map_some]
    · rw [readMembers] at h ⊢
      simp only [Option.bind_eq_bind, Option.bind_eq_some_iff] at h ⊢
      obtain ⟨key, hkey, t', ht', value, hvalue, h⟩ := h
      refine ⟨key, hkey, t', ht', value, ihv _ _ hvalue, ?_⟩
      split_ifs at h ⊢
      · exact h
      · obtain ⟨t'', ht'', h⟩ := Option.bind_eq_some_iff.mp h
        obtain ⟨r', hr', rfl⟩ := Option.map_eq_some_iff.mp h
        exact Option.bind_eq_some_iff.mpr ⟨t'', ht'', by rw [ihm _ _ hr', Option.map_some]⟩
    · rw [readElements] at h ⊢
      simp only [Option.bind_eq_bind, Option.bind_eq_some_iff] at h ⊢
      obtain ⟨value, hvalue, h⟩ := h
      refine ⟨value, ihv _ _ hvalue, ?_⟩
      split_ifs at h ⊢
      · exact h
      · obtain ⟨t'', ht'', h⟩ := Option.bind_eq_some_iff.mp h
        obtain ⟨r', hr', rfl⟩ := Option.map_eq_some_iff.mp h
        exact Option.bind_eq_some_iff.mpr ⟨t'', ht'', by rw [ihe _ _ hr', Option.map_some]⟩

theorem readValue_le {m : ℕ} (hle : n ≤ m) {r : Value × Text} (h : readValue n t = some r) :
    readValue m t = some r := by
  induction hle with
  | refl => exact h
  | step _ ih => exact (read_succ _).1 _ _ ih

/-- What one amount of fuel reads, any other reads or falls short of. -/
theorem readValue_eq_or_none {m : ℕ} {r : Value × Text} (h : readValue m t = some r) (n : ℕ) :
    readValue n t = none ∨ readValue n t = some r := by
  cases hn : readValue n t with
  | none => exact .inl rfl
  | some r' =>
    have hmax := readValue_le (Nat.le_max_left m n) h
    rw [readValue_le (Nat.le_max_right m n) hn] at hmax
    exact .inr hmax

end Rules

section Numbers

def EndsNumber (t : Text) : Prop :=
  ∀ c ∈ t.head?, c.isDigit = false ∧ c ≠ '.' ∧ c ≠ 'e' ∧ c ≠ 'E'

variable {rest : Text}

theorem toDigits_cons (m : ℕ) :
    ∃ d digits, Nat.toDigits 10 m = d :: digits ∧ d.isDigit ∧ ∀ c ∈ digits, c.isDigit := by
  have hdigits : ∀ c ∈ Nat.toDigits 10 m, c.isDigit := fun c hc =>
    Nat.isDigit_of_mem_toDigits (by decide) (by decide) hc
  cases h : Nat.toDigits 10 m with
  | nil =>
    rw [Nat.toDigits_eq_if (by decide)] at h
    split_ifs at h
    exact absurd h (List.append_ne_nil_of_right_ne_nil _ (List.cons_ne_nil _ _))
  | cons d digits =>
    rw [h, List.forall_mem_cons] at hdigits
    exact ⟨d, digits, rfl, hdigits⟩

/-- Only zero begins with a zero. -/
theorem toDigits_of_zero (m : ℕ) (h : (Nat.toDigits 10 m).head? = some '0') :
    Nat.toDigits 10 m = ['0'] := by
  induction m using Nat.strong_induction_on with
  | _ m ih =>
    by_cases hm : m < 10
    · rw [Nat.toDigits_of_lt_base hm] at h ⊢
      rw [Option.some.inj h]
    · rw [Nat.toDigits_of_base_le (by decide) (Nat.not_lt.mp hm)] at h
      obtain ⟨d, digits, hcons, -⟩ := toDigits_cons (m / 10)
      have hzero : Nat.toDigits 10 (m / 10) = ['0'] := by
        apply ih (m / 10) (Nat.div_lt_self (by omega) (by decide))
        rw [hcons] at h ⊢
        exact h
      have hvalue : m / 10 = 0 := by
        rw [← Nat.ofDigitChars_ten_toDigits (n := m / 10), hzero]
        rfl
      omega

theorem readInt_toDigits (m : ℕ) (h : EndsNumber rest) :
    readInt (Nat.toDigits 10 m ++ rest) = some (m, rest) := by
  obtain ⟨d, digits, hcons, hd, hall⟩ := toDigits_cons m
  have hdigits : ∀ c ∈ Nat.toDigits 10 m, c.isDigit := by
    rw [hcons]
    exact List.forall_mem_cons.mpr ⟨hd, hall⟩
  have hne : Nat.toDigits 10 m ≠ [] := by
    rw [hcons]
    exact List.cons_ne_nil d digits
  have hrest : rest.takeWhile Char.isDigit = [] ∧ rest.dropWhile Char.isDigit = rest := by
    cases rest with
    | nil => exact ⟨rfl, rfl⟩
    | cons c rest => simp [(h c rfl).1]
  have hread : readDigits (Nat.toDigits 10 m ++ rest) = some (Nat.toDigits 10 m, rest) := by
    rw [readDigits, List.takeWhile_append_of_pos hdigits, List.dropWhile_append_of_pos hdigits,
      hrest.1, hrest.2, List.append_nil, if_neg hne]
  rw [readInt, hread]
  show (if (Nat.toDigits 10 m).head? = some '0' ∧ (Nat.toDigits 10 m).length ≠ 1 then none
    else some (digitsValue (Nat.toDigits 10 m), rest)) = _
  rw [if_neg, digitsValue, Nat.ofDigitChars_ten_toDigits]
  intro hlead
  exact hlead.2 (by rw [toDigits_of_zero m hlead.1]; rfl)

theorem readMagnitude_toDigits (m : ℕ) (h : EndsNumber rest) :
    readMagnitude (Nat.toDigits 10 m ++ rest) = some ((m : ℚ), rest) := by
  have hfraction : readFraction rest = some (0, rest) :=
    if_neg fun hdot => (h '.' hdot).2.1 rfl
  have hexponent : readExponent rest = some (0, rest) :=
    if_neg fun he => he.elim (fun he => (h 'e' he).2.2.1 rfl) fun he => (h 'E' he).2.2.2 rfl
  rw [readMagnitude, readInt_toDigits m h]
  show (readFraction rest >>= _) = _
  rw [hfraction]
  show (readExponent rest >>= _) = _
  rw [hexponent]
  show some (((m : ℚ) + 0) * 10 ^ (0 : ℤ), rest) = _
  rw [add_zero, zpow_zero, mul_one]

/-- An integer as `std::to_string` and every JSON writer prints it. -/
def intText (i : ℤ) : Text :=
  if i < 0 then '-' :: Nat.toDigits 10 i.natAbs else Nat.toDigits 10 i.natAbs

theorem readNumber_intText (i : ℤ) (h : EndsNumber rest) :
    readNumber (intText i ++ rest) = some (.num i, rest) := by
  unfold intText
  split_ifs with hi
  · rw [List.cons_append, readNumber, List.head?_cons, if_pos rfl, List.tail_cons,
      readMagnitude_toDigits _ h]
    have hvalue : -((i.natAbs : ℕ) : ℚ) = (i : ℚ) := by
      rw [← Int.cast_natCast, ← Int.cast_neg, Int.ofNat_natAbs_of_nonpos hi.le, neg_neg]
    rw [Option.map_some, hvalue]
  · have hhead : (Nat.toDigits 10 i.natAbs ++ rest).head? ≠ some '-' := by
      obtain ⟨d, digits, hcons, hd, -⟩ := toDigits_cons i.natAbs
      rw [hcons]
      intro hminus
      rw [Option.some.inj hminus] at hd
      exact absurd hd (by decide)
    rw [readNumber, if_neg hhead, readMagnitude_toDigits _ h]
    have hvalue : ((i.natAbs : ℕ) : ℚ) = (i : ℚ) := by
      rw [← Int.cast_natCast, Int.natAbs_of_nonneg (Int.not_lt.mp hi)]
    rw [Option.map_some, hvalue]

theorem intText_cons (i : ℤ) : ∃ c t, intText i = c :: t ∧ (c = '-' ∨ c.isDigit) := by
  unfold intText
  split_ifs
  · exact ⟨'-', _, rfl, .inl rfl⟩
  · obtain ⟨d, digits, hcons, hd, -⟩ := toDigits_cons i.natAbs
    exact ⟨d, digits, hcons, .inr hd⟩

theorem readValue_intText (i : ℤ) (h : EndsNumber rest) (n : ℕ) :
    readValue (n + 1) (intText i ++ rest) = some (.num i, rest) := by
  obtain ⟨c, t, hcons, hc⟩ := intText_cons i
  have hne : ∀ d : Char, d ≠ '-' → d.isDigit = false → c ≠ d := by
    intro d hminus hdigit heq
    rw [heq] at hc
    rcases hc with hc | hc
    · exact hminus hc
    · rw [hdigit] at hc
      cases hc
  have hws : isWs c = false := by
    simp [isWs, hne ' ' (by decide) (by decide), hne '\t' (by decide) (by decide),
      hne '\n' (by decide) (by decide), hne '\r' (by decide) (by decide)]
  have hnumber := readNumber_intText i h
  rw [hcons, List.cons_append] at hnumber ⊢
  rw [readValue, skipWs_cons hws]
  simp only [List.head?_cons, Option.some_inj, hne '\"' (by decide) (by decide),
    hne '{' (by decide) (by decide), hne '[' (by decide) (by decide), if_false,
    List.isPrefixOf_cons_cons, beq_eq_false_iff_ne.mpr (hne 't' (by decide) (by decide)).symm,
    beq_eq_false_iff_ne.mpr (hne 'f' (by decide) (by decide)).symm,
    beq_eq_false_iff_ne.mpr (hne 'n' (by decide) (by decide)).symm, Bool.false_and,
    Bool.false_eq_true]
  exact hnumber

end Numbers

example : (decode "[1, -2.5e1, \"a\\u0041\\ud83d\\ude00\"]".toList).isSome = true := by
  decide +kernel

end Json
