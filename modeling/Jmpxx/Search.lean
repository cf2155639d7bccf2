import Mathlib.Data.List.Infix
import Mathlib.Data.List.DropRight

namespace Search

variable {α : Type*} [DecidableEq α]

def find (pat : List α) : List α → Option ℕ
  | [] => if pat.isEmpty then some 0 else none
  | c :: s => if pat.isPrefixOf (c :: s) then some 0 else (find pat s).map (· + 1)

def rfind (pat : List α) : List α → Option ℕ
  | [] => if pat.isEmpty then some 0 else none
  | c :: s =>
    match rfind pat s with
    | some i => some (i + 1)
    | none => if pat.isPrefixOf (c :: s) then some 0 else none

def afterLast (pat s : List α) : List α :=
  match rfind pat s with
  | some i => s.drop (i + pat.length)
  | none => s

theorem length_le_of_find {pat s : List α} {i : ℕ} (h : find pat s = some i) :
    pat.length ≤ s.length := by
  induction s generalizing i with
  | nil =>
    cases pat with
    | nil => exact le_rfl
    | cons => simp [find] at h
  | cons c s ih =>
    simp only [find] at h
    split_ifs at h with hp
    · exact (List.isPrefixOf_iff_prefix.mp hp).length_le
    · obtain ⟨j, hj, -⟩ := Option.map_eq_some_iff.mp h
      exact (ih hj).trans (Nat.le_succ _)

theorem find_append {pat s : List α} {i : ℕ} (t : List α) (h : find pat s = some i) :
    find pat (s ++ t) = some i := by
  induction s generalizing i with
  | nil =>
    cases pat with
    | nil => cases t <;> simpa [find] using h
    | cons => simp [find] at h
  | cons c s ih =>
    simp only [find, List.cons_append] at h ⊢
    split_ifs at h with hp
    · rw [if_pos, h]
      rw [List.isPrefixOf_iff_prefix] at hp ⊢
      exact hp.trans (List.prefix_append (c :: s) t)
    · obtain ⟨j, hj, rfl⟩ := Option.map_eq_some_iff.mp h
      rw [if_neg, ih hj]
      · rfl
      · intro hp'
        refine hp (List.isPrefixOf_iff_prefix.mpr ?_)
        refine List.prefix_of_prefix_length_le (List.isPrefixOf_iff_prefix.mp hp')
          (List.prefix_append (c :: s) t) ?_
        exact (length_le_of_find hj).trans (Nat.le_succ _)

/-- The occurrence found is one, and there is none before it. -/
theorem prefix_drop_of_find {pat s : List α} {i : ℕ} (h : find pat s = some i) :
    pat <+: s.drop i ∧ ∀ j < i, ¬ pat <+: s.drop j := by
  induction s generalizing i with
  | nil =>
    cases pat with
    | nil =>
      rw [← Option.some.inj h]
      exact ⟨List.nil_prefix, fun j hj => absurd hj (Nat.not_lt_zero j)⟩
    | cons => simp [find] at h
  | cons c s ih =>
    simp only [find] at h
    split_ifs at h with hp
    · rw [← Option.some.inj h]
      exact ⟨List.isPrefixOf_iff_prefix.mp hp, fun j hj => absurd hj (Nat.not_lt_zero j)⟩
    · obtain ⟨k, hk, rfl⟩ := Option.map_eq_some_iff.mp h
      obtain ⟨hfound, hfirst⟩ := ih hk
      refine ⟨hfound, fun j hj => ?_⟩
      cases j with
      | zero => exact fun hprefix => hp (List.isPrefixOf_iff_prefix.mpr hprefix)
      | succ j => exact hfirst j (by omega)

/-- What is found lies between what comes before and what comes after. -/
theorem split_of_find {pat s : List α} {i : ℕ} (h : find pat s = some i) :
    s = s.take i ++ pat ++ s.drop (i + pat.length) := by
  obtain ⟨rest, hrest⟩ := (prefix_drop_of_find h).1
  have hdrop : s.drop (i + pat.length) = rest := by
    rw [← List.drop_drop, ← hrest, List.drop_left]
  rw [hdrop, List.append_assoc, hrest, List.take_append_drop]

/-- Before the first occurrence there is none. -/
theorem not_infix_take_of_find {pat s : List α} {i : ℕ} (h : find pat s = some i)
    (hpat : pat ≠ []) : ¬ pat <:+: s.take i := by
  intro hinfix
  obtain ⟨before, after, heq⟩ := hinfix
  have hlen : before.length + pat.length ≤ i := by
    have hle : (before ++ pat ++ after).length ≤ i := heq ▸ List.length_take_le i s
    simp only [List.length_append] at hle
    omega
  have hpos := List.length_pos_iff.mpr hpat
  apply (prefix_drop_of_find h).2 before.length (by omega)
  refine ⟨after ++ s.drop i, ?_⟩
  have hs : s = before ++ (pat ++ (after ++ s.drop i)) := by
    calc
      s = s.take i ++ s.drop i := (List.take_append_drop i s).symm
      _ = before ++ (pat ++ (after ++ s.drop i)) := by rw [← heq]; simp only [List.append_assoc]
  conv_rhs => rw [hs, List.drop_left]

theorem rfind_append {pat t : List α} {i : ℕ} (s : List α) (h : rfind pat t = some i) :
    rfind pat (s ++ t) = some (s.length + i) := by
  induction s with
  | nil => simpa using h
  | cons c s ih =>
    simp only [List.cons_append, rfind, ih, List.length_cons]
    congr 1
    omega

theorem rfind_eq_none {pat s : List α} {c : α} (hc : c ∈ pat) (hs : c ∉ s) :
    rfind pat s = none := by
  induction s with
  | nil => simp [rfind, List.ne_nil_of_mem hc]
  | cons d s ih =>
    rw [rfind, ih (fun h => hs (List.mem_cons_of_mem d h))]
    refine if_neg fun hp => hs ?_
    exact (List.isPrefixOf_iff_prefix.mp hp).subset hc

/-- Text without the pattern's last element holds no second occurrence. -/
theorem rfind_pattern {p t : List α} {c : α} (hc : c ∉ t) :
    rfind (p ++ [c]) (p ++ [c] ++ t) = some 0 := by
  have hlater : ∀ q s : List α, q ++ s = p ++ [c] ++ t → q ≠ [] → rfind (p ++ [c]) s = none := by
    intro q s
    induction s generalizing q with
    | nil => intros; simp [rfind]
    | cons d s ih =>
      intro hs hq
      rw [rfind, ih (q ++ [d]) (by simpa using hs) (by simp)]
      refine if_neg fun hp => hc ?_
      obtain ⟨r, hr⟩ := List.isPrefixOf_iff_prefix.mp hp
      rw [← hr] at hs
      -- the later occurrence ends past the first, so inside `t`
      have hend := congrArg (fun l => l[q.length + p.length]?) hs
      have hlen : 0 < q.length := List.length_pos_iff.mpr hq
      simp only [List.append_assoc, List.singleton_append] at hend
      rw [List.getElem?_append_right (by omega), List.getElem?_append_right (by omega),
        List.getElem?_append_right (by omega)] at hend
      simp only [Nat.add_sub_cancel_left, Nat.sub_self, List.getElem?_cons_zero] at hend
      obtain ⟨m, hm⟩ : ∃ m, q.length + p.length - p.length = m + 1 := ⟨q.length - 1, by omega⟩
      rw [hm, List.getElem?_cons_succ] at hend
      exact List.mem_of_getElem? hend.symm
  cases hp : p ++ [c] with
  | nil => simp at hp
  | cons d s =>
    rw [List.cons_append, rfind, ← hp, hlater [d] (s ++ t) (by rw [hp]; rfl) (by simp), if_pos]
    exact List.isPrefixOf_iff_prefix.mpr ⟨t, by rw [hp]; rfl⟩

/-- After a last occurrence comes what follows it. -/
theorem afterLast_append {p t : List α} {c : α} (s : List α) (hc : c ∉ t) :
    afterLast (p ++ [c]) (s ++ (p ++ [c] ++ t)) = t := by
  rw [afterLast, rfind_append s (rfind_pattern hc)]
  simp

theorem afterLast_of_not_mem {pat s : List α} {c : α} (hc : c ∈ pat) (hs : c ∉ s) :
    afterLast pat s = s := by
  rw [afterLast, rfind_eq_none hc hs]

theorem rfind_concat {c d : α} (h : c ≠ d) (s : List α) : rfind [c] (s ++ [d]) = rfind [c] s := by
  induction s with
  | nil => simp [rfind, h]
  | cons e s ih => simp [rfind, ih]

/-- What comes before an occurrence does not matter. -/
theorem afterLast_cons (s : List α) (c : α) (t : List α) :
    afterLast [c] (s ++ c :: t) = afterLast [c] t := by
  cases h : rfind [c] t with
  | none =>
    have hc : rfind [c] (c :: t) = some 0 := by simp [rfind, h]
    simp [afterLast, h, rfind_append s hc]
  | some i =>
    have hc : rfind [c] (c :: t) = some (i + 1) := by simp [rfind, h]
    simp only [afterLast, h, rfind_append s hc, List.length_singleton]
    rw [show s.length + (i + 1) + 1 = s.length + (i + 1 + 1) by omega, List.drop_length_add_append,
      List.drop_succ_cons]

theorem prefix_drop_of_rfind {pat s : List α} {i : ℕ} (h : rfind pat s = some i) :
    pat <+: s.drop i := by
  induction s generalizing i with
  | nil =>
    cases pat with
    | nil => exact List.nil_prefix
    | cons => simp [rfind] at h
  | cons c s ih =>
    simp only [rfind] at h
    cases hr : rfind pat s with
    | some j =>
      rw [hr] at h
      rw [← Option.some.inj h]
      exact ih hr
    | none =>
      rw [hr] at h
      simp only at h
      split_ifs at h with hp
      rw [← Option.some.inj h]
      exact List.isPrefixOf_iff_prefix.mp hp

/-- A tail without the pattern's last element survives the cut. -/
theorem suffix_afterLast {p t : List α} {c : α} (s : List α) (hc : c ∉ t) :
    t <:+ afterLast (p ++ [c]) (s ++ t) := by
  cases h : rfind (p ++ [c]) (s ++ t) with
  | none => exact ⟨s, by simp [afterLast, h]⟩
  | some i =>
    obtain ⟨r, hr⟩ := prefix_drop_of_rfind h
    have hend := congrArg (fun l => l[p.length]?) hr
    simp only [List.append_assoc, List.singleton_append, List.getElem?_drop] at hend
    rw [List.getElem?_append_right le_rfl, Nat.sub_self, List.getElem?_cons_zero] at hend
    have hlt : i + p.length < s.length := by
      by_contra hge
      rw [List.getElem?_append_right (by omega)] at hend
      exact hc (List.mem_of_getElem? hend.symm)
    rw [afterLast, h, List.length_append, List.length_singleton]
    simp only
    rw [List.drop_append_of_le_length (by omega)]
    exact List.suffix_append _ _

/-- The cut falls behind an occurrence, or nothing is cut off. -/
theorem split_afterLast (pat s : List α) :
    ∃ t, s = t ++ afterLast pat s ∧ (t = [] ∨ pat <:+ t) := by
  unfold afterLast
  cases h : rfind pat s with
  | none => exact ⟨[], rfl, .inl rfl⟩
  | some i =>
    refine ⟨s.take (i + pat.length), (List.take_append_drop _ s).symm, .inr ⟨s.take i, ?_⟩⟩
    rw [List.take_add, ← List.prefix_iff_eq_take.mp (prefix_drop_of_rfind h)]

end Search
