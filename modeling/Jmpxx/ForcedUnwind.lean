import Mathlib.Data.List.Chain
import Mathlib.Order.Basic

namespace ForcedUnwind

variable {A C J : Type*} [Preorder A]

/-- A frame of a stack that grows downward, from its stack pointer at its call up to its canonical
frame address; `report` is what the unwinder gives as the address of the frame, each time. -/
structure Frame (A C : Type*) [Preorder A] where
  sp : A
  cfa : A
  cleanups : List C
  report : ℕ → A
  le_report : ∀ i, sp ≤ report i
  report_le : ∀ i, report i ≤ cfa

def Contiguous (frames : List (Frame A C)) : Prop := frames.IsChain fun f g => f.cfa = g.sp

variable (stop : A → Bool → Option J)

/-- One frame: the stop function is asked before each cleanup, and once more after the last. -/
def visit (f : Frame A C) : ℕ → List C → List C × Option J
  | i, [] => ([], stop (f.report i) false)
  | i, c :: cs =>
    match stop (f.report i) false with
    | some j => ([], some j)
    | none => (c :: (visit f (i + 1) cs).1, (visit f (i + 1) cs).2)

/-- The cleanups that run, innermost first, and where control goes; at the end of the stack the
stop function is asked once more, with any address. -/
def walk (last : A) : List (Frame A C) → List C × Option J
  | [] => ([], stop last true)
  | f :: frames =>
    match (visit stop f 0 f.cleanups).2 with
    | some j => ((visit stop f 0 f.cleanups).1, some j)
    | none => ((visit stop f 0 f.cleanups).1 ++ (walk last frames).1, (walk last frames).2)

variable {stop} {f : Frame A C} {last : A} {j : J}

theorem Frame.sp_le_cfa (f : Frame A C) : f.sp ≤ f.cfa := (f.le_report 0).trans (f.report_le 0)

theorem visit_passes (h : ∀ i, stop (f.report i) false = none) (i : ℕ) (cs : List C) :
    visit stop f i cs = (cs, none) := by
  induction cs generalizing i with
  | nil => rw [visit, h]
  | cons c cs ih =>
    rw [visit, h]
    simp only [ih]

theorem visit_stops {i : ℕ} (h : stop (f.report i) false = some j) (cs : List C) :
    visit stop f i cs = ([], some j) := by
  cases cs with
  | nil => rw [visit, h]
  | cons c cs => rw [visit, h]

/-- A frame that is left early has run its first cleanups, one that is not has run them all. -/
theorem visit_cases (i : ℕ) (cs : List C) :
    (∃ l j k, l <+: cs ∧ stop (f.report k) false = some j ∧ visit stop f i cs = (l, some j)) ∨
      visit stop f i cs = (cs, none) := by
  induction cs generalizing i with
  | nil =>
    cases h : stop (f.report i) false with
    | none => exact .inr (by rw [visit, h])
    | some j => exact .inl ⟨[], j, i, List.nil_prefix, h, visit_stops h []⟩
  | cons c cs ih =>
    cases h : stop (f.report i) false with
    | some j => exact .inl ⟨[], j, i, List.nil_prefix, h, visit_stops h _⟩
    | none =>
      have hvisit : visit stop f i (c :: cs) =
          (c :: (visit stop f (i + 1) cs).1, (visit stop f (i + 1) cs).2) := by rw [visit, h]
      rw [hvisit]
      rcases ih (i + 1) with ⟨l, j, k, hl, hk, heq⟩ | heq
      · refine .inl ⟨c :: l, j, k, (List.prefix_cons_inj c).mpr hl, hk, ?_⟩
        rw [heq]
      · exact .inr (by rw [heq])

theorem walk_cons_of_visit {l : List C} (h : visit stop f 0 f.cleanups = (l, some j))
    (frames : List (Frame A C)) : walk stop last (f :: frames) = (l, some j) := by
  simp only [walk, h]

theorem walk_cons_of_passed {l : List C} (h : visit stop f 0 f.cleanups = (l, none))
    (frames : List (Frame A C)) :
    walk stop last (f :: frames) = (l ++ (walk stop last frames).1, (walk stop last frames).2) := by
  simp only [walk, h]

theorem walk_passes (inner : List (Frame A C))
    (h : ∀ f ∈ inner, ∀ i, stop (f.report i) false = none) (frames : List (Frame A C)) :
    walk stop last (inner ++ frames) =
      (inner.flatMap Frame.cleanups ++ (walk stop last frames).1, (walk stop last frames).2) := by
  induction inner with
  | nil => rfl
  | cons f inner ih =>
    have hf := h f List.mem_cons_self
    rw [List.cons_append, walk_cons_of_passed (visit_passes hf 0 _),
      ih fun g hg => h g (List.mem_cons_of_mem f hg)]
    simp only [List.flatMap_cons, List.append_assoc]

/-- What a frame calls lies below it. -/
theorem Contiguous.cfa_le {inner frames : List (Frame A C)}
    (h : Contiguous (inner ++ f :: frames)) : ∀ g ∈ inner, g.cfa ≤ f.sp := by
  induction inner with
  | nil => exact fun _ hg => absurd hg List.not_mem_nil
  | cons g inner ih =>
    have htail : Contiguous (inner ++ f :: frames) := List.IsChain.tail h
    have hbelow : g.cfa ≤ f.sp := by
      cases inner with
      | nil => exact (List.isChain_cons_cons.mp h).1.le
      | cons g' inner =>
        have hadjacent : g.cfa = g'.sp := (List.isChain_cons_cons.mp h).1
        calc
          g.cfa = g'.sp := hadjacent
          _ ≤ g'.cfa := g'.sp_le_cfa
          _ ≤ f.sp := ih htail g' List.mem_cons_self
    intro g' hg'
    rcases List.mem_cons.mp hg' with rfl | hg'
    · exact hbelow
    · exact ih htail g' hg'

/-- A stop function that leaves at the first address above a mark inside a frame leaves at that
frame or before its caller's first cleanup: every frame below is done with, none above begun. -/
theorem walk_above {mark : A} (hstop : ∀ a e, stop a e = some j ↔ mark < a ∨ e = true)
    (honly : ∀ a e j', stop a e = some j' → j' = j) {inner outer : List (Frame A C)}
    (h : Contiguous (inner ++ f :: outer)) (hle : f.sp ≤ mark) (hlt : mark < f.cfa) :
    ∃ l, l <+: f.cleanups ∧
      walk stop last (inner ++ f :: outer) = (inner.flatMap Frame.cleanups ++ l, some j) := by
  have hpass : ∀ g ∈ inner, ∀ i, stop (g.report i) false = none := by
    intro g hg i
    have hbelow : g.report i ≤ mark := (g.report_le i).trans ((h.cfa_le g hg).trans hle)
    apply Option.eq_none_iff_forall_ne_some.mpr
    intro j' hj'
    rw [honly _ _ _ hj', hstop] at hj'
    rcases hj' with hmark | hend
    · exact hmark.not_ge hbelow
    · cases hend
  rw [walk_passes inner hpass]
  rcases @visit_cases A C J _ stop f 0 f.cleanups with ⟨l, j', k, hl, hk, heq⟩ | heq
  · refine ⟨l, hl, ?_⟩
    rw [honly _ _ _ hk] at heq
    rw [walk_cons_of_visit heq]
  · -- the frame reported itself below the mark each time
    have houter : walk stop last outer = ([], some j) := by
      cases outer with
      | nil =>
        have hend : stop last true = some j := (hstop _ _).mpr (.inr rfl)
        rw [walk, hend]
      | cons g outer =>
        have hadjacent : f.cfa = g.sp :=
          (List.isChain_cons_cons.mp (List.IsChain.right_of_append h)).1
        have habove : mark < g.report 0 := (hadjacent ▸ hlt).trans_le (g.le_report 0)
        exact walk_cons_of_visit (visit_stops ((hstop _ _).mpr (.inl habove)) _) outer
    refine ⟨f.cleanups, List.prefix_rfl, ?_⟩
    rw [walk_cons_of_passed heq, houter, List.append_nil]

end ForcedUnwind
