import Mathlib.Data.List.Forall2
import Mathlib.Tactic.Common

namespace Fallible

universe u v

variable {α β : Type u} {ε : Type v}

theorem bind_eq_ok {m : Except ε α} {k : α → Except ε β} {b : β} :
    (m >>= k) = .ok b ↔ ∃ a, m = .ok a ∧ k a = .ok b := by
  cases m with
  | error e =>
    refine ⟨fun h => ?_, fun h => ?_⟩
    · cases h
    · obtain ⟨a, ha, -⟩ := h
      cases ha
  | ok a => exact ⟨fun h => ⟨a, rfl, h⟩, fun ⟨a', ha', h⟩ => Except.ok.inj ha' ▸ h⟩

variable {ι : Type*} {f : ι → Except ε β}

/-- A traversal succeeds just when each of its turns does. -/
theorem mapM_eq_ok_iff {l : List ι} {l' : List β} :
    l.mapM f = .ok l' ↔ List.Forall₂ (fun a b => f a = .ok b) l l' := by
  induction l generalizing l' with
  | nil =>
    rw [List.mapM_nil, List.forall₂_nil_left_iff]
    exact ⟨fun h => (Except.ok.inj h).symm, fun h => congrArg Except.ok h.symm⟩
  | cons a l ih =>
    rw [List.mapM_cons, bind_eq_ok, List.forall₂_cons_left_iff]
    refine exists_congr fun b => ?_
    rw [bind_eq_ok]
    constructor
    · rintro ⟨hb, bs, hbs, h⟩
      exact ⟨bs, hb, ih.mp hbs, (Except.ok.inj h).symm⟩
    · rintro ⟨bs, hb, hbs, rfl⟩
      exact ⟨hb, bs, ih.mpr hbs, rfl⟩

theorem mapM_eq_ok_map {l : List ι} {g : ι → β} (h : ∀ a ∈ l, f a = .ok (g a)) :
    l.mapM f = .ok (l.map g) :=
  mapM_eq_ok_iff.mpr (List.forall₂_map_right_iff.mpr (List.forall₂_same.mpr h))

theorem exists_mapM_eq_ok {l : List ι} {R : ι → β → Prop}
    (h : ∀ a ∈ l, ∃ b, f a = .ok b ∧ R a b) : ∃ l', l.mapM f = .ok l' ∧ List.Forall₂ R l l' := by
  induction l with
  | nil => exact ⟨[], rfl, .nil⟩
  | cons a l ih =>
    obtain ⟨b, hb, hR⟩ := h a (by simp)
    obtain ⟨bs, hbs, hRs⟩ := ih fun a' ha' => h a' (by simp [ha'])
    refine ⟨b :: bs, ?_, .cons hR hRs⟩
    exact mapM_eq_ok_iff.mpr (.cons hb (mapM_eq_ok_iff.mp hbs))

/-- A traversal of indices that answers each with an entry of a list yields that list. -/
theorem mapM_range_eq_ok {l : List β} {f : ℕ → Except ε β}
    (h : ∀ i b, l[i]? = some b → f i = .ok b) : (List.range l.length).mapM f = .ok l := by
  refine mapM_eq_ok_iff.mpr (List.forall₂_iff_get.mpr ⟨List.length_range, fun i hi hi' => ?_⟩)
  refine h _ _ ?_
  simp only [List.get_eq_getElem, List.getElem_range]
  exact List.getElem?_eq_getElem hi'

end Fallible
