import Jmpxx.ReflectTruth
import Jmpxx.SpellingScopes

namespace Jmpxx.Reflect

/-- The result of an operation on `int`; `none` is an overflow. -/
def int (x : ℤ) : Option ℤ := if -2 ^ 31 ≤ x ∧ x < 2 ^ 31 then some x else none

variable {u : Underlying} {compiler : Compiler}

namespace Checked

variable (spelling : Value u → Text) (r : EnumRange)

def rangeSpan : Option ℤ := do
  let difference ← int (r.max - r.min)
  int (difference + 1)

/-- `range_lo<E>() + I`, at each step of a scan. -/
def positions : Option (List ℤ) := do
  let span ← rangeSpan r
  (List.range span.toNat).mapM fun i : ℕ => int (r.min + i)

def nameTable : Option (List (Option Text)) := do
  let ps ← positions r
  pure (ps.map (Fallback.enumeratorCStr spelling))

/-- `message(value)`; an index outside the table is `none` as well. -/
def message (value : ℤ) : Option Text := do
  let lo := r.min
  if lo ≤ value then do
    let span ← rangeSpan r
    let stop ← int (lo + span)
    if value < stop then do
      let table ← nameTable spelling r
      let index ← int (value - lo)
      let s ← table[index.toNat]?
      pure (s.getD unknownError)
    else pure unknownError
  else pure unknownError

end Checked

variable {e : Enumeration u} {r : EnumRange} {spelling : Value u → Text}

theorem int_eq {x : ℤ} (h : -2 ^ 31 ≤ x ∧ x < 2 ^ 31) : int x = some x := if_pos h

theorem rangeSpan_eq (r : EnumRange) : Checked.rangeSpan r = some r.span := by
  have hnonneg := r.span_nonneg
  have hlt := r.span_lt
  rw [Checked.rangeSpan, int_eq (by omega)]
  exact int_eq (by omega)

theorem mapM_int {l : List ℕ} {f : ℕ → ℤ} (h : ∀ i ∈ l, -2 ^ 31 ≤ f i ∧ f i < 2 ^ 31) :
    l.mapM (fun i => int (f i)) = some (l.map f) := by
  induction l with
  | nil => rfl
  | cons i l ih =>
    rw [List.mapM_cons, int_eq (h i List.mem_cons_self),
      ih fun j hj => h j (List.mem_cons_of_mem i hj)]
    rfl

theorem positions_eq (r : EnumRange) : Checked.positions r = some r.positions := by
  rw [Checked.positions, rangeSpan_eq]
  refine mapM_int fun i hi => ?_
  have hi := List.mem_range.mp hi
  have hge := r.min_ge
  have hlt := r.max_lt
  have hspan : r.span = r.max - r.min + 1 := rfl
  omega

theorem nameTable_eq :
    Checked.nameTable spelling r = some (Fallback.nameTable spelling r) := by
  rw [Checked.nameTable, positions_eq]
  rfl

/-- The only operation that can overflow is the one at the end of the range. -/
theorem message_eq {v : ℤ} (hv : v < 2 ^ 31) :
    Checked.message spelling r v = Fallback.message spelling r v := by
  have hge := r.min_ge
  have hnonneg := r.span_nonneg
  have hlt := r.span_lt
  have hspan : r.span = r.max - r.min + 1 := rfl
  unfold Checked.message Fallback.message
  simp only [rangeSpan_eq, nameTable_eq, Option.bind_eq_bind, Option.bind_some]
  by_cases hlo : r.min ≤ v
  · by_cases hend : r.min + r.span < 2 ^ 31
    · rw [if_pos hlo, if_pos hlo, if_pos hend, int_eq ⟨by omega, hend⟩, Option.bind_some]
      by_cases hin : v < r.min + r.span
      · rw [if_pos hin, if_pos hin, int_eq ⟨by omega, by omega⟩, Option.bind_some,
          nameTable_getElem? (EnumRange.mem_positions.mpr ⟨hlo, by omega⟩), Option.bind_some]
        cases Fallback.enumeratorCStr spelling v <;> rfl
      · rw [if_neg hin, if_neg hin]
        rfl
    · rw [if_pos hlo, if_pos hlo, if_neg hend, int, if_neg fun h => hend h.2]
      rfl
  · rw [if_neg hlo, if_neg hlo]
    rfl

/-- Nothing overflows, whatever the argument, and a value of the range is answered by the name of an
enumerator of that value, if there is one, and any other as unknown. -/
structure Answers (e : Enumeration u) (r : EnumRange) (spelling : Value u → Text) : Prop where
  rangeSpan : Checked.rangeSpan r ≠ none
  scans : Checked.positions r ≠ none
  named : ∀ v, r.min ≤ v → v ≤ r.max → ∀ x ∈ e.enumerators, x.value.val = v →
    ∃ y ∈ e.enumerators, y.value.val = v ∧ Checked.message spelling r v = some y.name
  unknown : ∀ v, -2 ^ 31 ≤ v → v < 2 ^ 31 →
    (r.min ≤ v → v ≤ r.max → ∀ x ∈ e.enumerators, x.value.val ≠ v) →
    Checked.message spelling r v = some unknownError

/-- What that takes: the range ends before the greatest `int`; at each value of the range that the
enumeration declares, the compiler prints what shows the ASCII name of an enumerator of that value;
and at any other, what shows no ASCII name. -/
structure Legible {e : Enumeration u} (p : Printer compiler e) (r : EnumRange) : Prop where
  bounded : r.max < 2 ^ 31 - 1
  shown : ∀ x ∈ e.enumerators, r.min ≤ x.value.val → x.value.val ≤ r.max →
    ∃ y ∈ e.enumerators, y.value = x.value ∧ (∀ c ∈ y.name, c.toNat < 128) ∧
      Shows compiler (p.text x.value) y.name
  hidden : ∀ v, r.min ≤ v → v ≤ r.max → (∀ x ∈ e.enumerators, x.value.val ≠ v) →
    ∀ n, IsIdentifier n → (∀ c ∈ n, c.toNat < 128) → ¬ Shows compiler (p.text (.ofInt u v)) n

theorem IsIdentifier.ne_unknownError {n : Text} (hn : IsIdentifier n) : n ≠ unknownError := by
  rintro rfl
  revert hn
  decide

variable {p : Printer compiler e}

/-- The message is a name just when that is accepted. -/
theorem message_eq_some_iff (hb : r.max < 2 ^ 31 - 1) {v : ℤ} (hlo : r.min ≤ v) (hhi : v ≤ r.max)
    {n : Text} (hn : n ≠ unknownError) :
    Checked.message spelling r v = some n ↔
      Fallback.accepts spelling v = true ∧ spelling (.ofInt u v) = n := by
  rw [message_eq (by omega), fallbackMessage_eq hb]
  by_cases hacc : Fallback.accepts spelling v = true
  · simp [EnumRange.mem_positions, hlo, hhi, hacc]
  · simp [hacc, Ne.symm hn]

theorem message_eq_unknown_iff (hb : r.max < 2 ^ 31 - 1) {v : ℤ} (hv : v < 2 ^ 31) :
    Checked.message p.spelling r v = some unknownError ↔
      (r.min ≤ v → v ≤ r.max → Fallback.accepts p.spelling v = false) := by
  rw [message_eq hv, fallbackMessage_eq hb]
  by_cases hacc : Fallback.accepts p.spelling v = true
  · have hname := (Printer.accepts_iff.mp ⟨hacc, rfl⟩).1.ne_unknownError
    by_cases hin : v ∈ r.positions
    · simp [hacc, hin, hname, EnumRange.mem_positions.mp hin]
    · rw [if_neg fun h => hin h.1]
      exact iff_of_true rfl fun hlo hhi => absurd (EnumRange.mem_positions.mpr ⟨hlo, hhi⟩) hin
  · simp [hacc]

/-- At the end of the `int`s the end of the range overflows. -/
theorem Answers.bounded (h : Answers e r spelling) : r.max < 2 ^ 31 - 1 := by
  by_contra hb
  have hlt := r.max_lt
  have hnone : Checked.message spelling r r.min = none := by
    have hspan : r.span = r.max - r.min + 1 := rfl
    rw [message_eq r.min_lt, Fallback.message]
    simp only [le_refl, if_true]
    exact if_neg (by omega)
  by_cases hx : ∃ x ∈ e.enumerators, x.value.val = r.min
  · obtain ⟨x, hx, hv⟩ := hx
    have hspan := r.span_lt
    have hmin := r.min_lt
    obtain ⟨y, -, -, hname⟩ := h.named r.min le_rfl (by omega) x hx hv
    rw [hnone] at hname
    cases hname
  · have hunknown := h.unknown r.min r.min_ge r.min_lt fun _ _ x hx' hv => hx ⟨x, hx', hv⟩
    rw [hnone] at hunknown
    cases hunknown

theorem Answers.legible (h : Answers e r p.spelling) : Legible p r where
  bounded := h.bounded
  shown x hx hlo hhi := by
    obtain ⟨y, hy, hv, hname⟩ := h.named _ hlo hhi x hx rfl
    have hne := (e.identifiers y hy).ne_unknownError
    have hacc := (message_eq_some_iff h.bounded hlo hhi hne).mp hname
    obtain ⟨-, hascii, hshows⟩ := Printer.accepts_iff.mp hacc
    rw [Value.ofInt_val] at hshows
    exact ⟨y, hy, Value.eq_of_val hv, hascii, hshows⟩
  hidden v hlo hhi hno n hn hascii hshows := by
    have hge := r.min_ge
    have hlt := r.max_lt
    have hunknown := h.unknown v (by omega) (by omega) fun _ _ => hno
    have hrejected := (message_eq_unknown_iff h.bounded (by omega)).mp hunknown hlo hhi
    rw [(Printer.accepts_iff.mpr ⟨hn, hascii, hshows⟩).1] at hrejected
    cases hrejected

theorem Legible.answers (h : Legible p r) : Answers e r p.spelling where
  rangeSpan := by simp [rangeSpan_eq]
  scans := by simp [positions_eq]
  named v hlo hhi x hx hv := by
    subst hv
    obtain ⟨y, hy, hyx, hascii, hshows⟩ := h.shown x hx hlo hhi
    have hident := e.identifiers y hy
    refine ⟨y, hy, by rw [hyx], ?_⟩
    apply (message_eq_some_iff h.bounded hlo hhi hident.ne_unknownError).mpr
    apply Printer.accepts_iff.mpr
    rw [Value.ofInt_val]
    exact ⟨hident, hascii, hshows⟩
  unknown v _ hlt hno := by
    rw [message_eq_unknown_iff h.bounded hlt]
    intro hlo hhi
    by_contra hacc
    obtain ⟨hn, hascii, hshows⟩ := Printer.accepts_iff.mp ⟨by simpa using hacc, rfl⟩
    exact h.hidden v hlo hhi (hno hlo hhi) _ hn hascii hshows

/-- The messages are right, and nothing overflows, just where what the compiler prints is legible and
the range ends before the greatest `int`. -/
theorem answers_iff_legible (p : Printer compiler e) (r : EnumRange) :
    Answers e r p.spelling ↔ Legible p r := by
  constructor
  · intro h
    exact h.legible
  · intro h
    exact h.answers

/-- `enum class status : int { last = 2147483647 };` -/
def last : Enumeration (.signed 32) where
  enumerators := [⟨"last".toList, .ofInt _ 2147483647⟩]
  identifiers := by decide
  distinct := by decide

def lastRange : EnumRange :=
  ⟨2147483647, 2147483647, by decide, by decide, by decide, by decide, by decide⟩

theorem isScope_status : IsScope "status::".toList := .inr ⟨"status".toList, by decide⟩

def lastPrinter : Printer .gnu last where
  frame := gccFrame
  scope := "status::".toList
  isScope := isScope_status
  text v := if v = .ofInt _ 2147483647 then "status::last".toList
    else '(' :: "status".toList ++ ')' :: numeral v.val
  named v h := by
    obtain ⟨x, hx, rfl⟩ := h
    refine ⟨x, hx, rfl, ?_⟩
    rw [List.mem_singleton.mp hx]
    decide
  unnamed v h := by
    rw [if_neg fun hv => h _ (List.mem_singleton_self _) hv.symm]
    exact .cast _ (isNumeral_numeral _)

/-- The end of the range is one past the greatest `int`. -/
theorem last_overflows :
    Checked.message lastPrinter.spelling lastRange 2147483647 = none ∧
      ¬ Answers last lastRange lastPrinter.spelling := by
  have hnone : Checked.message lastPrinter.spelling lastRange 2147483647 = none := by
    rw [message_eq (by decide)]
    rfl
  refine ⟨hnone, fun h => ?_⟩
  obtain ⟨y, -, -, hname⟩ := h.named 2147483647 (by decide) (by decide) _
    (List.mem_singleton_self _) (by decide)
  rw [hnone] at hname
  cases hname

end Jmpxx.Reflect
