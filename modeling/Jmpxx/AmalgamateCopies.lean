import Jmpxx.Amalgamate
import Mathlib.Data.Multiset.AddSub
import Mathlib.Algebra.Order.BigOperators.Group.List
import Mathlib.Algebra.Order.Group.Nat

namespace Jmpxx.Amalgamate

open Preprocessor

variable {File : Type*} {t : Tree File}

def Tree.copied (t : Tree File) (f : File) : List Text :=
  t.provenance f :: (t.lines f).filter (t.target · |>.isNone)

/-- The walk came from `w` to `w'` over these lines, and over all of the headers visited on the way.
No header is visited twice. -/
def Copies (t : Tree File) (ls : Multiset Text) (w w' : Walk File) : Prop :=
  ∃ more : List File, w'.visited = more ++ w.visited ∧
    (w'.out : Multiset Text) = w.out + ls + (more.flatMap t.copied : List Text) ∧
    (w.visited.Nodup → w'.visited.Nodup)

theorem Copies.refl (w : Walk File) : Copies t 0 w w :=
  ⟨[], rfl, by simp, id⟩

theorem Copies.trans {a b : Multiset Text} {w₁ w₂ w₃ : Walk File} (h : Copies t a w₁ w₂)
    (h' : Copies t b w₂ w₃) : Copies t (a + b) w₁ w₃ := by
  obtain ⟨more, hvisited, hout, hnodup⟩ := h
  obtain ⟨more', hvisited', hout', hnodup'⟩ := h'
  refine ⟨more' ++ more, ?_, ?_, fun hn => hnodup' (hnodup hn)⟩
  · rw [hvisited', hvisited, List.append_assoc]
  · rw [hout', hout, List.flatMap_append, ← Multiset.coe_add]
    ac_rfl

/-- A header that is reached for the first time, by the walk over it. -/
theorem Copies.enter {f : File} {w w' : Walk File}
    (h : Copies t (t.copied f) { w with visited := f :: w.visited } w') (hnew : f ∉ w.visited) :
    Copies t 0 w w' := by
  obtain ⟨more, hvisited, hout, hnodup⟩ := h
  refine ⟨more ++ [f], ?_, ?_, fun hn => hnodup (List.nodup_cons.mpr ⟨hnew, hn⟩)⟩
  · rw [hvisited, List.append_assoc]
    rfl
  · rw [hout, List.flatMap_append, ← Multiset.coe_add, List.flatMap_singleton, add_zero]
    ac_rfl

section Walk

variable [DecidableEq File]

theorem copies_visit {inl : File → Walk File → Option (Walk File)}
    (hinl : ∀ f w w', inl f w = some w' → Copies t (t.copied f) w w') {l : Text} {w w' : Walk File}
    (h : t.visit inl w l = some w') :
    Copies t ([l].filter (t.target · |>.isNone)) w w' := by
  rw [Tree.visit] at h
  rcases hl : t.target l with _ | g
  · rw [hl] at h
    obtain rfl := Option.some.inj h
    have hone : [l].filter (t.target · |>.isNone) = [l] := by simp [hl]
    rw [hone]
    exact ⟨[], rfl, by rw [← Multiset.coe_add]; simp, id⟩
  · rw [hl] at h
    have hnil : [l].filter (t.target · |>.isNone) = [] := by simp [hl]
    rw [hnil]
    dsimp only [Option.elim] at h
    split at h
    · obtain rfl := Option.some.inj h
      exact .refl w
    · next hnew => exact (hinl _ _ _ h).enter hnew

theorem copies_foldlM {inl : File → Walk File → Option (Walk File)}
    (hinl : ∀ f w w', inl f w = some w' → Copies t (t.copied f) w w') {ls : List Text}
    {w w' : Walk File} (h : ls.foldlM (t.visit inl) w = some w') :
    Copies t (ls.filter (t.target · |>.isNone)) w w' := by
  induction ls generalizing w with
  | nil =>
    obtain rfl := Option.some.inj h
    exact .refl w
  | cons l ls ih =>
    rw [List.foldlM_cons] at h
    obtain ⟨w₁, hvisit, hrest⟩ := Option.bind_eq_some_iff.mp h
    have hcopies := (copies_visit hinl hvisit).trans (ih hrest)
    rwa [Multiset.coe_add, ← List.filter_append] at hcopies

theorem copies_inline {k : ℕ} {f : File} {w w' : Walk File} (h : t.inline k f w = some w') :
    Copies t (t.copied f) w w' := by
  induction k generalizing f w w' with
  | zero => cases h
  | succ k ih =>
    obtain ⟨more, hvisited, hout, hnodup⟩ := copies_foldlM (fun _ _ _ => ih) h
    refine ⟨more, hvisited, ?_, hnodup⟩
    have hcopied : (t.copied f : Multiset Text) =
        ([t.provenance f] : List Text) +
          ((t.lines f).filter (t.target · |>.isNone) : List Text) :=
      rfl
    rw [hout, hcopied, ← add_assoc, Multiset.coe_add w.out]

theorem copies_roots {k : ℕ} {roots : List Text} {w w' : Walk File}
    (h : roots.foldlM (t.visitRoot k) w = some w') : Copies t 0 w w' := by
  induction roots generalizing w with
  | nil =>
    obtain rfl := Option.some.inj h
    exact .refl w
  | cons r roots ih =>
    rw [List.foldlM_cons] at h
    obtain ⟨w₁, hvisit, hrest⟩ := Option.bind_eq_some_iff.mp h
    have hroot : Copies t 0 w w₁ := by
      rw [Tree.visitRoot] at hvisit
      split at hvisit
      · obtain rfl := Option.some.inj hvisit
        exact .refl w
      · next hnew => exact (copies_inline hvisit).enter hnew
    exact hroot.trans (ih hrest)

/-- The walk copies the lines of the headers that it reaches, each once. -/
theorem perm_of_walk {k : ℕ} {roots : List Text} {w : Walk File}
    (h : roots.foldlM (t.visitRoot k) {} = some w) :
    ∃ order : List File, order.Nodup ∧ w.out.Perm (order.flatMap t.copied) := by
  obtain ⟨order, hvisited, hout, hnodup⟩ := copies_roots h
  rw [List.append_nil] at hvisited
  refine ⟨order, hvisited ▸ hnodup List.nodup_nil, ?_⟩
  rw [← Multiset.coe_eq_coe, hout]
  simp

end Walk

variable {d : Directory File} {guard : File → Text} {own : Text}

theorem countP_copied [DecidableEq File] (hG : d.Guarded guard own) (f g : File) :
    (d.logicalTree.copied g).countP (directive · = .define (guard f)) ≤ if g = f then 1 else 0 := by
  obtain ⟨opening, body, closing, hls, hopening, hclosing, -, hbody⟩ := hG.wrapped g
  have hnone : body.countP (directive · = .define (guard f)) = 0 :=
    List.countP_eq_zero.mpr fun l hl => by simpa using (hbody l hl (guard f) ⟨f, rfl⟩).1
  have hall : (d.files.lines g).countP (directive · = .define (guard f)) = if g = f then 1 else 0 := by
    rw [hls, List.countP_append, List.countP_append, hopening.countP_define, hnone,
      hclosing.countP_define]
    simp only [hG.unique.eq_iff, add_zero]
  rw [← hall, Tree.copied, List.countP_cons_of_neg (by simpa using nofun)]
  exact List.filter_sublist.countP_le

theorem countP_flatMap_copied [DecidableEq File] (hG : d.Guarded guard own) (f : File)
    {order : List File} (h : order.Nodup) :
    (order.flatMap d.logicalTree.copied).countP (directive · = .define (guard f)) ≤
      if f ∈ order then 1 else 0 := by
  induction order with
  | nil => exact Nat.zero_le _
  | cons g order ih =>
    obtain ⟨hg, hrest⟩ := List.nodup_cons.mp h
    have hnow := countP_copied hG f g
    have hlater := ih hrest
    rw [List.flatMap_cons, List.countP_append]
    by_cases hgf : g = f
    · subst hgf
      rw [if_neg hg] at hlater
      rw [if_pos rfl] at hnow
      rw [if_pos List.mem_cons_self]
      omega
    · have hmem : f ∈ g :: order ↔ f ∈ order := by simp [Ne.symm hgf]
      rw [if_neg hgf] at hnow
      simp only [hmem]
      omega

/-- A guard is defined by the lines of its own header only. -/
theorem countP_walk [DecidableEq File] (hG : d.Guarded guard own) {k : ℕ} {roots : List Text}
    {w : Walk File} (h : roots.foldlM (d.logicalTree.visitRoot k) {} = some w) (f : File) :
    w.out.countP (directive · = .define (guard f)) ≤ 1 := by
  obtain ⟨order, hnodup, hperm⟩ := perm_of_walk h
  rw [hperm.countP_eq]
  refine (countP_flatMap_copied hG f hnodup).trans ?_
  split <;> omega

end Jmpxx.Amalgamate
