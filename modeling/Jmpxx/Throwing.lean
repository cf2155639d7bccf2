import Mathlib.Data.Nat.Notation
import Mathlib.Tactic.Common

namespace Throwing

inductive Outcome (α : Type*) where
  | ok (a : α)
  | thrown
  | fault
  deriving DecidableEq, Repr

def Comp (σ α : Type*) := σ → Outcome α × σ

universe u v

variable {σ : Type u} {α β : Type v}

def Comp.bind (m : Comp σ α) (f : α → Comp σ β) : Comp σ β := fun s =>
  match m s with
  | (.ok a, s') => f a s'
  | (.thrown, s') => (.thrown, s')
  | (.fault, s') => (.fault, s')

instance : Monad (Comp σ) where
  pure a := fun s => (.ok a, s)
  bind := Comp.bind

theorem Comp.bind_ok (m : Comp σ α) : Comp.bind m (fun a => fun s => (.ok a, s)) = m := by
  funext s
  unfold Comp.bind
  rcases m s with ⟨_ | _ | _, s'⟩ <;> rfl

theorem Comp.bind_bind {γ : Type v} (m : Comp σ α) (f : α → Comp σ β) (g : β → Comp σ γ) :
    Comp.bind (Comp.bind m f) g = Comp.bind m fun a => Comp.bind (f a) g := by
  funext s
  unfold Comp.bind
  rcases m s with ⟨_ | _ | _, s'⟩ <;> rfl

instance : LawfulMonad (Comp σ) :=
  LawfulMonad.mk' _ (fun m => Comp.bind_ok m) (fun _ _ => rfl) fun m f g => Comp.bind_bind m f g

def modify (f : σ → σ) : Comp σ Unit := fun s => (.ok (), f s)

/-- The part of the state `f` finds; without one the computation is at fault. -/
def require (f : σ → Option α) : Comp σ α := fun s =>
  match f s with
  | some a => (.ok a, s)
  | none => (.fault, s)

def onlyIf (c : Prop) [Decidable c] (m : Comp σ Unit) : Comp σ Unit := if c then m else pure ()

def raise : Comp σ α := fun s => (.thrown, s)

def wrong : Comp σ α := fun s => (.fault, s)

/-- `for (i = 0; i < n; ++i) body(i)`. -/
def forBelow (body : ℕ → Comp σ PUnit) : ℕ → Comp σ PUnit
  | 0 => pure ⟨⟩
  | n + 1 => do
    forBelow body n
    body n

/-- Whether `test` answers true at each `i < n`, asked in order until it does not. -/
def allBelow {σ : Type u} (test : ℕ → Comp σ Bool) : ℕ → Comp σ Bool
  | 0 => pure true
  | n + 1 => do
    let b ← allBelow test n
    if b then test n else pure false

/-- `c` runs on the way out of `m`, whichever way that is. -/
def cleanup (m : Comp σ α) (c : Comp σ Unit) : Comp σ α := fun s =>
  match m s with
  | (.ok a, s') =>
    match c s' with
    | (.ok _, s'') => (.ok a, s'')
    | (.thrown, s'') => (.thrown, s'')
    | (.fault, s'') => (.fault, s'')
  | (.thrown, s') =>
    match c s' with
    | (.ok _, s'') => (.thrown, s'')
    -- a second exception while the first unwinds
    | (_, s'') => (.fault, s'')
  | (.fault, s') => (.fault, s')

/-- `f` is applied to the state where `m` throws. -/
def onThrow (m : Comp σ α) (f : σ → σ) : Comp σ α := fun s =>
  match m s with
  | (.ok a, s') => (.ok a, s')
  | (.thrown, s') => (.thrown, f s')
  | (.fault, s') => (.fault, s')

/-- From `P`, `m` is never at fault, returns only with `Q` and throws only with `R`. -/
def Triple (P : σ → Prop) (m : Comp σ α) (Q : α → σ → Prop) (R : σ → Prop) : Prop :=
  ∀ s, P s →
    match m s with
    | (.ok a, s') => Q a s'
    | (.thrown, s') => R s'
    | (.fault, _) => False

/-- From `P`, `m` returns only with `Q` and throws only with `R`; it may be at fault. -/
def Partial (P : σ → Prop) (m : Comp σ α) (Q : α → σ → Prop) (R : σ → Prop) : Prop :=
  ∀ s, P s →
    match m s with
    | (.ok a, s') => Q a s'
    | (.thrown, s') => R s'
    | (.fault, _) => True

/-- What the two have in common: `m` is at fault only if `F`. -/
def Judged (F : Prop) (P : σ → Prop) (m : Comp σ α) (Q : α → σ → Prop) (R : σ → Prop) : Prop :=
  ∀ s, P s →
    match m s with
    | (.ok a, s') => Q a s'
    | (.thrown, s') => R s'
    | (.fault, _) => F

variable {F : Prop} {P P' R R' : σ → Prop} {Q Q' : α → σ → Prop} {m : Comp σ α}

section Judged

theorem Judged.pure (a : α) (h : ∀ s, P s → Q a s) : Judged F P (Pure.pure a) Q R := h

theorem Judged.conseq (h : Judged F P m Q R) (hP : ∀ s, P' s → P s) (hQ : ∀ a s, Q a s → Q' a s)
    (hR : ∀ s, R s → R' s) : Judged F P' m Q' R' := by
  intro s hs
  have hm := h s (hP s hs)
  revert hm
  split
  · exact hQ _ _
  · exact hR _
  · exact id

theorem Judged.bind {S : β → σ → Prop} {f : α → Comp σ β} (h : Judged F P m Q R)
    (hf : ∀ a, Judged F (Q a) (f a) S R) : Judged F P (m >>= f) S R := by
  intro s hs
  have hm := h s hs
  show match Comp.bind m f s with
    | (.ok b, s') => S b s'
    | (.thrown, s') => R s'
    | (.fault, _) => F
  unfold Comp.bind
  match hr : m s with
  | (.ok a, s') =>
    rw [hr] at hm
    exact hf a s' hm
  | (.thrown, s') =>
    rw [hr] at hm
    exact hm
  | (.fault, s') =>
    rw [hr] at hm
    exact hm

/-- A fact about the state before may be used as a hypothesis. -/
theorem Judged.and_pre {p : Prop} (h : p → Judged F P m Q R) :
    Judged F (fun s => p ∧ P s) m Q R := fun s hs => h hs.1 s hs.2

theorem Judged.onlyIf {c : Prop} [Decidable c] {m : Comp σ Unit} {Q : Unit → σ → Prop}
    (h : c → Judged F P m Q R) (hP : ¬ c → ∀ s, P s → Q () s) :
    Judged F P (Throwing.onlyIf c m) Q R := by
  unfold Throwing.onlyIf
  split_ifs with hc
  · exact h hc
  · exact Judged.pure () (hP hc)

theorem Judged.cleanup {c : Comp σ Unit} (h : Judged F P m Q R)
    (hok : ∀ a, Judged F (Q a) c (fun _ => Q' a) fun _ => False)
    (hthrown : Judged F R c (fun _ => R') fun _ => False) :
    Judged F P (Throwing.cleanup m c) Q' R' := by
  intro s hs
  have hm := h s hs
  unfold Throwing.cleanup
  match hr : m s with
  | (.ok a, s') =>
    rw [hr] at hm
    have hc := hok a s' hm
    match hr' : c s' with
    | (.ok _, s'') => simpa [hr'] using hc
    | (.thrown, s'') => simp [hr'] at hc
    | (.fault, s'') => simpa [hr'] using hc
  | (.thrown, s') =>
    rw [hr] at hm
    have hc := hthrown s' hm
    match hr' : c s' with
    | (.ok _, s'') => simpa [hr'] using hc
    | (.thrown, s'') => simp [hr'] at hc
    | (.fault, s'') => simpa [hr'] using hc
  | (.fault, s') =>
    rw [hr] at hm
    exact hm

theorem Judged.onThrow {f : σ → σ} (h : Judged F P m Q R) (hf : ∀ s, R s → R' (f s)) :
    Judged F P (Throwing.onThrow m f) Q R' := by
  intro s hs
  have hm := h s hs
  unfold Throwing.onThrow
  match hr : m s with
  | (.ok a, s') => simpa [hr] using hm
  | (.thrown, s') =>
    rw [hr] at hm
    exact hf s' hm
  | (.fault, s') => simpa [hr] using hm

end Judged

theorem Triple.pure (a : α) (h : ∀ s, P s → Q a s) : Triple P (Pure.pure a) Q R := h

theorem Triple.conseq (h : Triple P m Q R) (hP : ∀ s, P' s → P s) (hQ : ∀ a s, Q a s → Q' a s)
    (hR : ∀ s, R s → R' s) : Triple P' m Q' R' := Judged.conseq h hP hQ hR

theorem Triple.bind {S : β → σ → Prop} {f : α → Comp σ β} (h : Triple P m Q R)
    (hf : ∀ a, Triple (Q a) (f a) S R) : Triple P (m >>= f) S R := Judged.bind h hf

theorem Triple.exists_pre {ι : Sort*} {A : ι → σ → Prop} (h : ∀ i, Triple (A i) m Q R) :
    Triple (fun s => ∃ i, A i s) m Q R := by
  rintro s ⟨i, hi⟩
  exact h i s hi

theorem Triple.and_pre {p : Prop} (h : p → Triple P m Q R) : Triple (fun s => p ∧ P s) m Q R :=
  Judged.and_pre h

theorem Triple.modify {f : σ → σ} (h : ∀ s, P s → P' (f s)) :
    Triple P (modify f) (fun _ => P') R := h

theorem Triple.require {f : σ → Option α} {a : α} (h : ∀ s, P s → f s = some a) :
    Triple P (require f) (fun b s => b = a ∧ P s) R := by
  intro s hs
  simp only [Throwing.require, h s hs, true_and]
  exact hs

/-- What is read of the state is what is there. -/
theorem Triple.observe (f : σ → α) :
    Triple P (Throwing.require fun s => some (f s)) (fun a s => a = f s ∧ P s) R :=
  fun _ hs => ⟨rfl, hs⟩

theorem Triple.onlyIf {c : Prop} [Decidable c] {m : Comp σ Unit} {Q : Unit → σ → Prop}
    (h : c → Triple P m Q R) (hP : ¬ c → ∀ s, P s → Q () s) : Triple P (onlyIf c m) Q R :=
  Judged.onlyIf h hP

theorem Triple.raise (h : ∀ s, P s → R s) : Triple P (raise : Comp σ α) Q R := h

/-- A check whose failure leaves. -/
theorem Triple.guard {α : Type} {Q : α → σ → Prop} {c : Prop} [Decidable c]
    {leave : Comp σ Unit} {k : Unit → Comp σ α}
    (hleave : c → Triple P leave (fun _ _ => False) R) (hk : ¬ c → Triple P (k ()) Q R) :
    Triple P (Throwing.onlyIf c leave >>= k) Q R := by
  unfold Throwing.onlyIf
  split_ifs with hc
  · exact Triple.bind (hleave hc) fun _ _ h => h.elim
  · exact hk hc

theorem Triple.forBelow {f : ℕ → Comp σ PUnit} {n : ℕ} {I : ℕ → σ → Prop}
    (h : ∀ i < n, Triple (I i) (f i) (fun _ => I (i + 1)) R) :
    Triple (I 0) (forBelow f n) (fun _ => I n) R := by
  induction n with
  | zero => exact Triple.pure _ fun _ h => h
  | succ n ih => exact Triple.bind (ih fun i hi => h i (by omega)) fun _ => h n (by omega)

theorem Triple.cleanup {c : Comp σ Unit} (h : Triple P m Q R)
    (hok : ∀ a, Triple (Q a) c (fun _ => Q' a) fun _ => False)
    (hthrown : Triple R c (fun _ => R') fun _ => False) : Triple P (cleanup m c) Q' R' :=
  Judged.cleanup h hok hthrown

theorem Triple.onThrow {f : σ → σ} (h : Triple P m Q R) (hf : ∀ s, R s → R' (f s)) :
    Triple P (onThrow m f) Q R' := Judged.onThrow h hf

theorem Partial.pure (a : α) (h : ∀ s, P s → Q a s) : Partial P (Pure.pure a) Q R := h

theorem Partial.conseq (h : Partial P m Q R) (hP : ∀ s, P' s → P s) (hQ : ∀ a s, Q a s → Q' a s)
    (hR : ∀ s, R s → R' s) : Partial P' m Q' R' := Judged.conseq h hP hQ hR

theorem Partial.bind {S : β → σ → Prop} {f : α → Comp σ β} (h : Partial P m Q R)
    (hf : ∀ a, Partial (Q a) (f a) S R) : Partial P (m >>= f) S R := Judged.bind h hf

theorem Partial.and_pre {p : Prop} (h : p → Partial P m Q R) : Partial (fun s => p ∧ P s) m Q R :=
  Judged.and_pre h

theorem Partial.modify {f : σ → σ} (h : ∀ s, P s → P' (f s)) :
    Partial P (Throwing.modify f) (fun _ => P') R := h

theorem Partial.require {f : σ → Option α} (h : ∀ s a, P s → f s = some a → Q a s) :
    Partial P (Throwing.require f) Q R := by
  intro s hs
  unfold Throwing.require
  match hf : f s with
  | some a => exact h s a hs hf
  | none => trivial

theorem Partial.onlyIf {c : Prop} [Decidable c] {m : Comp σ Unit} {Q : Unit → σ → Prop}
    (h : c → Partial P m Q R) (hP : ¬ c → ∀ s, P s → Q () s) :
    Partial P (Throwing.onlyIf c m) Q R := Judged.onlyIf h hP

theorem Partial.onThrow {f : σ → σ} (h : Partial P m Q R) (hf : ∀ s, R s → R' (f s)) :
    Partial P (Throwing.onThrow m f) Q R' := Judged.onThrow h hf

theorem Partial.cleanup {c : Comp σ Unit} (h : Partial P m Q R)
    (hok : ∀ a, Partial (Q a) c (fun _ => Q' a) fun _ => False)
    (hthrown : Partial R c (fun _ => R') fun _ => False) :
    Partial P (Throwing.cleanup m c) Q' R' := Judged.cleanup h hok hthrown

end Throwing
