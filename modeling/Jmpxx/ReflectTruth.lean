import Jmpxx.Reflect
import Jmpxx.SpellingScopes
import Mathlib.Data.Finset.Card
import Mathlib.Data.List.Pairwise

namespace Jmpxx.Reflect

variable {u : Underlying} {compiler : Compiler}

/-- The numeric values the enumeration declares in the range. -/
def declared (e : Enumeration u) (r : EnumRange) : Finset ℤ :=
  (e.enumerators.map (·.value.val)).toFinset.filter fun i => r.min ≤ i ∧ i ≤ r.max

structure Truthful (e : Enumeration u) (r : EnumRange) (spelling : Value u → Text) : Prop where
  failures : ∀ fi ∈ Fallback.buildFailures spelling r,
    ∃ x ∈ e.enumerators, x.value.val = fi.value ∧ x.name = fi.name
  names : ((Fallback.buildFailures spelling r).map (·.name)).Nodup
  ascending : (Fallback.buildFailures spelling r).Pairwise fun a b => a.value < b.value
  count : Fallback.countEnumerators spelling r = (declared e r).card
  name : ∀ v, Fallback.scanName spelling r v = [] ∨
    ∃ x ∈ e.enumerators, x.name = Fallback.scanName spelling r v ∧ x.value = v
  cast : ∀ s v, Fallback.scanValue spelling r s = some v →
    ∃ x ∈ e.enumerators, x.name = s ∧ x.value = v

/-- What that takes: at a declared value the compiler prints what slices to the ASCII name of an
enumerator of that value; at any other scanned position, what slices to no identifier; and no
value but the enumerator's own truncates to a declared one. -/
structure Honest {e : Enumeration u} (p : Printer compiler e) (r : EnumRange) : Prop where
  spelled : ∀ x ∈ e.enumerators, x.value.val ∈ r.positions →
    ∃ y ∈ e.enumerators, y.value = x.value ∧ (∀ c ∈ y.name, c.toNat < 128) ∧
      unqualified compiler (p.text x.value) = y.name
  rejected : ∀ i ∈ r.positions, (∀ x ∈ e.enumerators, x.value.val ≠ i) →
    isEnumerator (unqualified compiler (p.text (.ofInt u i))) = false
  untruncated : ∀ v : Value u, ∀ x ∈ e.enumerators, x.value.val ∈ r.positions →
    v.toInt = x.value.val → v = x.value

variable {e : Enumeration u} {r : EnumRange} {spelling : Value u → Text}

theorem mem_declared {i : ℤ} :
    i ∈ declared e r ↔ (∃ x ∈ e.enumerators, x.value.val = i) ∧ i ∈ r.positions := by
  rw [declared, Finset.mem_filter, List.mem_toFinset, List.mem_map, EnumRange.mem_positions]

theorem Value.eq_of_val {v v' : Value u} (h : v.val = v'.val) : v = v' := by
  rw [← v.ofInt_val, h, v'.ofInt_val]

def reported (spelling : Value u → Text) (r : EnumRange) : Finset ℤ :=
  ((Fallback.buildFailures spelling r).map (·.value)).toFinset

theorem mem_reported {i : ℤ} :
    i ∈ reported spelling r ↔ i ∈ r.positions ∧ Fallback.accepts spelling i = true := by
  rw [reported, List.mem_toFinset, List.mem_map]
  constructor
  · rintro ⟨fi, hfi, hi⟩
    obtain ⟨hp, hacc, _⟩ := mem_fallbackFailures.mp hfi
    rw [← hi]
    exact ⟨hp, hacc⟩
  · rintro ⟨hp, hacc⟩
    exact ⟨⟨i, spelling (.ofInt u i)⟩, mem_fallbackFailures.mpr ⟨hp, hacc, rfl⟩, rfl⟩

theorem card_reported : (reported spelling r).card = Fallback.countEnumerators spelling r := by
  have hnodup : ((Fallback.buildFailures spelling r).map (·.value)).Nodup := by
    rw [List.Nodup, List.pairwise_map]
    exact fallbackFailures_sorted.imp fun hlt => hlt.ne
  rw [reported, List.toFinset_card_of_nodup hnodup, List.length_map, countEnumerators_eq]

/-- The scan accepts exactly the declared values, and spells each by a name declared for it. -/
structure Faithful (e : Enumeration u) (r : EnumRange) (spelling : Value u → Text) : Prop where
  reported : reported spelling r = declared e r
  spells : ∀ i ∈ declared e r,
    ∃ x ∈ e.enumerators, x.value.val = i ∧ spelling (.ofInt u i) = x.name
  untruncated : ∀ v : Value u, v.toInt ∈ declared e r → v.val = v.toInt

theorem Faithful.spelled (h : Faithful e r spelling) {i : ℤ} (hi : i ∈ r.positions)
    (hacc : Fallback.accepts spelling i = true) :
    ∃ x ∈ e.enumerators, x.value.val = i ∧ spelling (.ofInt u i) = x.name := by
  apply h.spells
  rw [← h.reported]
  exact mem_reported.mpr ⟨hi, hacc⟩

theorem Faithful.truthful (h : Faithful e r spelling) : Truthful e r spelling where
  failures fi hfi := by
    obtain ⟨hp, hacc, hname⟩ := mem_fallbackFailures.mp hfi
    obtain ⟨x, hx, hval, hspelled⟩ := h.spelled hp hacc
    exact ⟨x, hx, hval, by rw [← hspelled, hname]⟩
  names := by
    rw [List.Nodup, List.pairwise_map]
    refine fallbackFailures_sorted.imp_of_mem fun {a b} ha hb hlt heq => ?_
    obtain ⟨hpa, hacca, hna⟩ := mem_fallbackFailures.mp ha
    obtain ⟨hpb, haccb, hnb⟩ := mem_fallbackFailures.mp hb
    obtain ⟨x, hx, hvx, hsx⟩ := h.spelled hpa hacca
    obtain ⟨y, hy, hvy, hsy⟩ := h.spelled hpb haccb
    have hxy : x = y := by
      apply Enumeration.eq_of_name hx hy
      rw [← hsx, hna, heq, ← hnb, hsy]
    rw [← hvx, ← hvy, hxy] at hlt
    exact lt_irrefl _ hlt
  ascending := fallbackFailures_sorted
  count := by rw [← card_reported, h.reported]
  name v := by
    unfold Fallback.scanName
    match hfind : r.positions.find? fun p => v.toInt = p && Fallback.accepts spelling p with
    | none => exact .inl rfl
    | some i =>
      have hi := List.mem_of_find?_eq_some hfind
      have hfound := List.find?_some hfind
      simp only [Bool.and_eq_true, decide_eq_true_eq] at hfound
      obtain ⟨x, hx, hval, hspelled⟩ := h.spelled hi hfound.2
      refine .inr ⟨x, hx, hspelled.symm, Value.eq_of_val ?_⟩
      rw [hval, ← hfound.1]
      refine (h.untruncated v ?_).symm
      rw [hfound.1]
      exact mem_declared.mpr ⟨⟨x, hx, hval⟩, hi⟩
  cast s v hs := by
    obtain ⟨i, hfind, hv⟩ := Option.map_eq_some_iff.mp hs
    have hfound := List.find?_some hfind
    simp only [Bool.and_eq_true, decide_eq_true_eq] at hfound
    obtain ⟨x, hx, hval, hspelled⟩ := h.spelled (List.mem_of_find?_eq_some hfind) hfound.1
    refine ⟨x, hx, by rw [← hspelled, hfound.2], ?_⟩
    rw [← hv, ← hval, Value.ofInt_val]

theorem Truthful.faithful (h : Truthful e r spelling) : Faithful e r spelling := by
  have hsub : reported spelling r ⊆ declared e r := by
    intro i hi
    obtain ⟨hp, hacc⟩ := mem_reported.mp hi
    obtain ⟨x, hx, hval, _⟩ :=
      h.failures ⟨i, spelling (.ofInt u i)⟩ (mem_fallbackFailures.mpr ⟨hp, hacc, rfl⟩)
    exact mem_declared.mpr ⟨⟨x, hx, hval⟩, hp⟩
  -- as many are reported as declared, so none is left out
  have hall : reported spelling r = declared e r :=
    Finset.eq_of_subset_of_card_le hsub (by rw [card_reported, h.count])
  have hspells : ∀ i ∈ declared e r,
      ∃ x ∈ e.enumerators, x.value.val = i ∧ spelling (.ofInt u i) = x.name := by
    intro i hi
    rw [← hall] at hi
    obtain ⟨hp, hacc⟩ := mem_reported.mp hi
    obtain ⟨x, hx, hval, hname⟩ :=
      h.failures ⟨i, spelling (.ofInt u i)⟩ (mem_fallbackFailures.mpr ⟨hp, hacc, rfl⟩)
    exact ⟨x, hx, hval, hname.symm⟩
  refine ⟨hall, hspells, fun v hv => ?_⟩
  obtain ⟨x, hx, hval, hspelled⟩ := hspells _ hv
  obtain ⟨hp, hacc⟩ := mem_reported.mp (hall ▸ hv)
  have hscan : r.positions.find? (fun p => v.toInt = p && Fallback.accepts spelling p) =
      some v.toInt := by
    apply Lists.find?_eq_some_of_unique hp
    · simp [hacc]
    · intro p _ hfound
      simp only [Bool.and_eq_true, decide_eq_true_eq] at hfound
      exact hfound.1.symm
  have hname : Fallback.scanName spelling r v = x.name := by
    simp only [Fallback.scanName, hscan, hspelled]
  rcases h.name v with hnil | ⟨y, hy, hyname, hyv⟩
  · exact absurd (hname.symm.trans hnil) (Enumeration.name_ne_nil hx)
  · have hyx : y = x := Enumeration.eq_of_name hy hx (hyname.trans hname)
    have hvx : v = x.value := by rw [← hyv, hyx]
    calc v.val = x.value.val := by rw [hvx]
      _ = v.toInt := hval

variable {p : Printer compiler e}

theorem Honest.faithful (h : Honest p r) : Faithful e r p.spelling := by
  have hspells : ∀ i ∈ declared e r, ∃ x ∈ e.enumerators, x.value.val = i ∧
      (∀ c ∈ x.name, c.toNat < 128) ∧ p.spelling (.ofInt u i) = x.name := by
    intro i hi
    obtain ⟨⟨x, hx, hval⟩, hp⟩ := mem_declared.mp hi
    obtain ⟨y, hy, hyx, hascii, hname⟩ := h.spelled x hx (hval ▸ hp)
    refine ⟨y, hy, by rw [hyx, hval], hascii, ?_⟩
    rw [← hval, Value.ofInt_val, Printer.spelling_eq, hname]
  refine ⟨?_, ?_, ?_⟩
  · ext i
    rw [mem_reported]
    constructor
    · rintro ⟨hp, hacc⟩
      by_contra hno
      have hnot : ∀ x ∈ e.enumerators, x.value.val ≠ i := fun x hx hval =>
        hno (mem_declared.mpr ⟨⟨x, hx, hval⟩, hp⟩)
      have hrejected := h.rejected i hp hnot
      rw [← Printer.spelling_eq] at hrejected
      rw [Fallback.accepts, hrejected] at hacc
      cases hacc
    · intro hi
      obtain ⟨x, hx, hval, hascii, hname⟩ := hspells i hi
      refine ⟨(mem_declared.mp hi).2, ?_⟩
      rw [Fallback.accepts, hname]
      exact (isEnumerator_iff (e.identifiers x hx)).mpr hascii
  · intro i hi
    obtain ⟨x, hx, hval, _, hname⟩ := hspells i hi
    exact ⟨x, hx, hval, hname⟩
  · intro v hv
    obtain ⟨⟨x, hx, hval⟩, hp⟩ := mem_declared.mp hv
    rw [← hval, h.untruncated v x hx (hval ▸ hp) hval.symm]

theorem Faithful.honest (h : Faithful e r p.spelling) : Honest p r where
  spelled x hx hp := by
    have hx' : x.value.val ∈ declared e r := mem_declared.mpr ⟨⟨x, hx, rfl⟩, hp⟩
    obtain ⟨y, hy, hval, hname⟩ := h.spells _ hx'
    rw [Value.ofInt_val] at hname
    refine ⟨y, hy, Value.eq_of_val hval, ?_, ?_⟩
    · have hacc := (mem_reported.mp (h.reported ▸ hx')).2
      rw [Fallback.accepts, Value.ofInt_val, hname] at hacc
      exact (isEnumerator_iff (e.identifiers y hy)).mp hacc
    · rw [← Printer.spelling_eq, hname]
  rejected i hp hno := by
    by_contra hacc
    rw [Bool.not_eq_false, ← Printer.spelling_eq] at hacc
    obtain ⟨x, hx, hval, _⟩ := h.spelled hp hacc
    exact hno x hx hval
  untruncated v x hx hp hv := by
    apply Value.eq_of_val
    rw [← hv]
    exact h.untruncated v (hv ▸ mem_declared.mpr ⟨⟨x, hx, rfl⟩, hp⟩)

/-- The fallback reports nothing false exactly where the compiler's spellings are honest. -/
theorem truthful_iff_honest (p : Printer compiler e) (r : EnumRange) :
    Truthful e r p.spelling ↔ Honest p r := by
  constructor
  · intro h
    exact h.faithful.honest
  · intro h
    exact h.faithful.truthful

theorem Printer.printed (p : Printer compiler e) (v : Value u) : Printed (p.text v) := by
  by_cases h : ∃ x ∈ e.enumerators, x.value = v
  · obtain ⟨x, hx, -, htext⟩ := p.named v h
    rw [htext]
    exact .named p.isScope (e.identifiers x hx)
  · exact .unnamed (p.unnamed v fun x hx hv => h ⟨x, hx, hv⟩)

/-- A position is accepted, with a name, just when the compiler prints there what shows it. -/
theorem Printer.accepts_iff {v : ℤ} {n : Text} :
    Fallback.accepts p.spelling v = true ∧ p.spelling (.ofInt u v) = n ↔
      IsIdentifier n ∧ (∀ c ∈ n, c.toNat < 128) ∧ Shows compiler (p.text (.ofInt u v)) n := by
  rw [Fallback.accepts, Printer.spelling_eq]
  exact accepted_iff (p.printed _)

/-- Honest spellings, in terms of what is printed: at a declared value the name of an enumerator of
it shows; no position that only converts to an enumerator's value shows a name; and no cast or
number holds one in front of a stop. -/
theorem honest_iff_shows (p : Printer compiler e) (r : EnumRange) :
    Honest p r ↔
      (∀ x ∈ e.enumerators, x.value.val ∈ r.positions →
        ∃ y ∈ e.enumerators, y.value = x.value ∧ (∀ c ∈ y.name, c.toNat < 128) ∧
          Shows compiler (p.text x.value) y.name) ∧
      (∀ i ∈ r.positions, ∀ x ∈ e.enumerators, x.value = .ofInt u i → x.value.val ≠ i →
        ∀ n, IsIdentifier n → (∀ c ∈ n, c.toNat < 128) → ¬ Shows compiler (p.text x.value) n) ∧
      (∀ i ∈ r.positions, (∀ x ∈ e.enumerators, x.value ≠ .ofInt u i) →
        ∀ n, IsIdentifier n → (∀ c ∈ n, c.toNat < 128) →
          ¬ StopsAt compiler (p.text (.ofInt u i)) n) ∧
      ∀ v : Value u, ∀ x ∈ e.enumerators, x.value.val ∈ r.positions →
        v.toInt = x.value.val → v = x.value := by
  constructor
  · intro h
    refine ⟨fun x hx hp => ?_, fun i hi x hx hv hne => ?_, fun i hi hno n hn hascii hstops => ?_,
      h.untruncated⟩
    · obtain ⟨y, hy, hyx, hascii, hname⟩ := h.spelled x hx hp
      exact ⟨y, hy, hyx, hascii, (sliced_iff (p.printed _) (e.identifiers y hy) hascii).mp hname⟩
    · rw [hv]
      refine (rejected_iff_shows (p.printed _)).mp (h.rejected i hi fun y hy hval => hne ?_)
      have hyx : y.value = x.value := by rw [hv, ← hval, Value.ofInt_val]
      rw [← hyx, hval]
    · have hrejected := h.rejected i hi fun x hx hval => hno x hx (by rw [← hval, Value.ofInt_val])
      refine (rejected_iff_shows (p.printed _)).mp hrejected n hn hascii ?_
      exact (shows_unnamed_iff (p.unnamed _ hno) hn hascii).mpr hstops
  · rintro ⟨hspelled, hwrapped, hcast, hcut⟩
    refine ⟨fun x hx hp => ?_, fun i hi hno => ?_, hcut⟩
    · obtain ⟨y, hy, hyx, hascii, hshows⟩ := hspelled x hx hp
      exact ⟨y, hy, hyx, hascii, (sliced_iff (p.printed _) (e.identifiers y hy) hascii).mpr hshows⟩
    · refine (rejected_iff_shows (p.printed _)).mpr fun n hn hascii hshows => ?_
      by_cases hx : ∃ x ∈ e.enumerators, x.value = .ofInt u i
      · obtain ⟨x, hx, hv⟩ := hx
        exact hwrapped i hi x hx hv (hno x hx) n hn hascii (hv ▸ hshows)
      · have hunnamed : ∀ x ∈ e.enumerators, x.value ≠ .ofInt u i := fun x hx' hv =>
          hx ⟨x, hx', hv⟩
        exact hcast i hi hunnamed n hn hascii
          ((shows_unnamed_iff (p.unnamed _ hunnamed) hn hascii).mp hshows)

/-- `enum class status : uint8_t { overloaded = 200 };` -/
def wide : Enumeration (.unsigned 8) where
  enumerators := [⟨"overloaded".toList, .ofInt _ 200⟩]
  identifiers := by decide
  distinct := by decide

theorem isNumeral_repr (n : ℕ) : IsNumeral (Nat.repr n).toList := by
  rw [Nat.toList_repr]
  exact isNumeral_numeral (.ofNat n)

def wideText (v : Value (.unsigned 8)) : Text :=
  if v.val = 200 then "status::overloaded".toList
  else '(' :: "status".toList ++ ')' :: (Nat.repr v.val.toNat).toList

theorem wideText_named (v : Value (.unsigned 8)) (h : ∃ x ∈ wide.enumerators, x.value = v) :
    ∃ x ∈ wide.enumerators, x.value = v ∧ wideText v = "status::".toList ++ x.name := by
  obtain ⟨x, hx, hv⟩ := h
  refine ⟨x, hx, hv, ?_⟩
  rw [List.mem_singleton.mp hx] at hv ⊢
  rw [← hv]
  decide

theorem wideText_unnamed (v : Value (.unsigned 8)) (h : ∀ x ∈ wide.enumerators, x.value ≠ v) :
    CastOrNumber (wideText v) := by
  have hne : v.val ≠ 200 := fun hval =>
    h _ (List.mem_singleton_self _) (Value.eq_of_val hval.symm)
  rw [wideText, if_neg hne]
  exact @CastOrNumber.cast "status".toList _ (isNumeral_repr _)

def widePrinter : Printer .gnu wide where
  frame := aliasedPrinter.frame
  scope := "status::".toList
  isScope := .inr ⟨"status".toList, by decide⟩
  text := wideText
  named := wideText_named
  unnamed := wideText_unnamed

/-- The scan converts -56 to 200, and reports the enumerator there under -56. -/
theorem wide_not_truthful : ¬ Truthful wide .default widePrinter.spelling := by
  intro h
  have hreported : (⟨-56, "overloaded".toList⟩ : FailureInfo) ∈
      Fallback.buildFailures widePrinter.spelling .default := by
    rw [mem_fallbackFailures]
    decide +kernel
  obtain ⟨x, hx, hval, _⟩ := h.failures _ hreported
  rw [List.mem_singleton.mp hx] at hval
  revert hval
  decide

end Jmpxx.Reflect
