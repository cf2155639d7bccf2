import Mathlib.Data.List.Forall2
import Mathlib.Data.List.Nodup
import Mathlib.Data.List.TakeWhile
import Mathlib.Tactic.Common

namespace Lists

variable {α β : Type*}

/-- Filtering by a property that holds of exactly the first `n` entries takes those. -/
theorem filter_eq_take (l : List α) (p : α → Bool) (n : ℕ)
    (h : ∀ (i : ℕ) x, l[i]? = some x → (p x ↔ i < n)) : l.filter p = l.take n := by
  induction l generalizing n with
  | nil => simp
  | cons x l ih =>
    have hx := h 0 x rfl
    cases n with
    | zero =>
      refine List.filter_eq_nil_iff.mpr fun y hy => ?_
      obtain ⟨i, hi⟩ := List.mem_iff_getElem?.mp hy
      simpa using h i y hi
    | succ n =>
      rw [List.filter_cons_of_pos (hx.mpr (Nat.succ_pos n)), List.take_succ_cons,
        ih n fun i y hy => by simpa using h (i + 1) y hy]

theorem forall₂_iff_getElem? {R : α → β → Prop} {l : List α} {l' : List β} :
    List.Forall₂ R l l' ↔ l.length = l'.length ∧
      ∀ (i : ℕ) a b, l[i]? = some a → l'[i]? = some b → R a b := by
  rw [List.forall₂_iff_get]
  refine and_congr_right fun _ => ⟨fun h i a b ha hb => ?_, fun h i hi hi' => ?_⟩
  · obtain ⟨hi, rfl⟩ := List.getElem?_eq_some_iff.mp ha
    obtain ⟨hi', rfl⟩ := List.getElem?_eq_some_iff.mp hb
    exact h i hi hi'
  · exact h i _ _ (List.getElem?_eq_getElem hi) (List.getElem?_eq_getElem hi')

/-- An entry of a list with `x` at the end is one of the list, or `x`. -/
theorem getElem?_concat_eq_some {l : List α} {x y : α} {i : ℕ} :
    (l ++ [x])[i]? = some y ↔ l[i]? = some y ∨ i = l.length ∧ x = y := by
  rw [List.getElem?_append]
  split_ifs with hi
  · simp [Nat.ne_of_lt hi]
  · have hnone : l[i]? = none := List.getElem?_eq_none (by omega)
    rw [List.getElem?_singleton, hnone]
    by_cases he : i = l.length
    · simp [he]
    · have : i - l.length ≠ 0 := by omega
      simp [he, this]

theorem eq_of_nodup_map {l : List α} {key : α → β} (hn : (l.map key).Nodup)
    {i j : ℕ} {x y : α} (hx : l[i]? = some x) (hy : l[j]? = some y) (he : key x = key y) :
    i = j := by
  have hi : i < (l.map key).length := by simpa using (List.getElem?_eq_some_iff.mp hx).1
  have hj : j < (l.map key).length := by simpa using (List.getElem?_eq_some_iff.mp hy).1
  have hkey : (l.map key)[i] = (l.map key)[j] := by
    simp only [List.getElem_map, (List.getElem?_eq_some_iff.mp hx).2,
      (List.getElem?_eq_some_iff.mp hy).2, he]
  exact (List.Nodup.getElem_inj_iff hn).mp hkey

/-- In a list with distinct keys, changing the entry at an index is changing the entry
with its key. -/
theorem modify_eq_map [DecidableEq β] (l : List α) (key : α → β) (g : α → α)
    (hn : (l.map key).Nodup) (i : ℕ) (x : α) (hx : l[i]? = some x) :
    l.modify i g = l.map fun y => if key y = key x then g y else y := by
  apply List.ext_getElem?
  intro j
  rw [List.getElem?_modify, List.getElem?_map]
  cases hj : l[j]? with
  | none => rfl
  | some y =>
    have hiff : i = j ↔ key y = key x := by
      constructor
      · rintro rfl
        rw [Option.some.inj (hj.symm.trans hx)]
      · exact fun he => eq_of_nodup_map hn hx hj he.symm
    by_cases h : i = j
    · simp [h, hiff.mp h]
    · simp [h, mt hiff.mpr h]

theorem forall₂_modify {R : α → β → Prop} {l : List α} {l' : List β}
    (h : List.Forall₂ R l l') (i : ℕ) {g : α → α} {g' : β → β}
    (hg : ∀ a b, R a b → R (g a) (g' b)) : List.Forall₂ R (l.modify i g) (l'.modify i g') := by
  rw [forall₂_iff_getElem?] at h ⊢
  refine ⟨by simpa using h.1, fun j a b ha hb => ?_⟩
  rw [List.getElem?_modify, Option.map_eq_map, Option.map_eq_some_iff] at ha hb
  obtain ⟨a, ha, rfl⟩ := ha
  obtain ⟨b, hb, rfl⟩ := hb
  have hab := h.2 j a b ha hb
  split_ifs
  · exact hg a b hab
  · exact hab

theorem find?_eq_some_of_unique {p : α → Bool} {l : List α} {a : α} (ha : a ∈ l)
    (hp : p a = true) (huniq : ∀ b ∈ l, p b = true → b = a) : l.find? p = some a := by
  cases h : l.find? p with
  | none => exact absurd hp (List.find?_eq_none.mp h a ha)
  | some b => rw [huniq b (List.mem_of_find?_eq_some h) (List.find?_some h)]

/-- Two splits of a list at its first entry without a property split it at the same entry. -/
theorem eq_of_first {P : α → Prop} {before before' after after' : List α} {x x' : α}
    (h : before ++ x :: after = before' ++ x' :: after') (hbefore : ∀ y ∈ before, P y)
    (hbefore' : ∀ y ∈ before', P y) (hx : ¬ P x) (hx' : ¬ P x') : x = x' := by
  induction before generalizing before' with
  | nil =>
    cases before' with
    | nil => exact (List.cons.inj h).1
    | cons y before' =>
      rw [(List.cons.inj h).1] at hx
      exact absurd (hbefore' y List.mem_cons_self) hx
  | cons y before ih =>
    cases before' with
    | nil =>
      rw [← (List.cons.inj h).1] at hx'
      exact absurd (hbefore y List.mem_cons_self) hx'
    | cons y' before' =>
      exact ih (List.cons.inj h).2 (List.forall_mem_cons.mp hbefore).2
        (List.forall_mem_cons.mp hbefore').2

theorem head?_dropWhile_not (p : α → Bool) (s : List α) :
    ∀ c ∈ (s.dropWhile p).head?, p c = false := by
  intro c hc
  have hnot := List.head?_dropWhile_not p s
  rw [hc] at hnot
  simpa using hnot

end Lists
