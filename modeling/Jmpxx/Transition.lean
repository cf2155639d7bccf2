import Mathlib.Data.List.Induction
import Mathlib.Logic.Function.Iterate
import Mathlib.Tactic.Common

namespace Transition

variable {σ ω : Type*}

def run (step : σ → ω → σ) (s : σ) (ops : List ω) : σ := ops.foldl step s

variable (step : σ → ω → σ)

@[simp] theorem run_nil (s : σ) : run step s [] = s := rfl

@[simp] theorem run_cons (s : σ) (op : ω) (ops : List ω) :
    run step s (op :: ops) = run step (step s op) ops := rfl

theorem run_append (s : σ) (ops ops' : List ω) :
    run step s (ops ++ ops') = run step (run step s ops) ops' := List.foldl_append

@[simp] theorem run_concat (s : σ) (ops : List ω) (op : ω) :
    run step s (ops ++ [op]) = step (run step s ops) op := by
  rw [run_append]
  rfl

/-- What one step preserves, every run preserves. -/
theorem run_invariant (I : σ → Prop) (hstep : ∀ s op, I s → I (step s op))
    (s : σ) (hs : I s) (ops : List ω) : I (run step s ops) := by
  induction ops generalizing s with
  | nil => exact hs
  | cons op ops ih => exact ih (step s op) (hstep s op hs)

/-- Every step of the run is taken from a state in which `G` allows it. -/
def Along (G : σ → ω → Prop) : σ → List ω → Prop
  | _, [] => True
  | s, op :: ops => G s op ∧ Along G (step s op) ops

variable {step}
variable {G : σ → ω → Prop}

@[simp] theorem along_nil (s : σ) : Along step G s [] := trivial

@[simp] theorem along_cons (s : σ) (op : ω) (ops : List ω) :
    Along step G s (op :: ops) ↔ G s op ∧ Along step G (step s op) ops := Iff.rfl

theorem along_append (s : σ) (ops ops' : List ω) :
    Along step G s (ops ++ ops') ↔
      Along step G s ops ∧ Along step G (run step s ops) ops' := by
  induction ops generalizing s with
  | nil => simp
  | cons op ops ih => simp [ih, and_assoc]

theorem along_concat (s : σ) (ops : List ω) (op : ω) :
    Along step G s (ops ++ [op]) ↔ Along step G s ops ∧ G (run step s ops) op := by
  simp [along_append]

theorem along_of_isPrefix {s : σ} {ops ops' : List ω} (hp : ops <+: ops')
    (h : Along step G s ops') : Along step G s ops := by
  obtain ⟨post, rfl⟩ := hp
  exact ((along_append s ops post).mp h).1

/-- A side condition along a run holds at each of its steps, and conversely. -/
theorem along_iff_forall (s : σ) (ops : List ω) :
    Along step G s ops ↔ ∀ pre op, pre ++ [op] <+: ops → G (run step s pre) op := by
  constructor
  · intro h pre op hp
    exact ((along_concat s pre op).mp (along_of_isPrefix hp h)).2
  · intro h
    induction ops using List.reverseRecOn with
    | nil => trivial
    | append_singleton ops op ih =>
      refine (along_concat s ops op).mpr ⟨ih fun pre o hp => ?_, h ops op List.prefix_rfl⟩
      exact h pre o (hp.trans (List.prefix_append ops [op]))

/-- An invariant that needs a side condition at each step. -/
theorem run_invariant_along (I : σ → Prop) (hstep : ∀ s op, I s → G s op → I (step s op))
    (s : σ) (hs : I s) (ops : List ω) (h : Along step G s ops) : I (run step s ops) := by
  induction ops generalizing s with
  | nil => exact hs
  | cons op ops ih => exact ih (step s op) (hstep s op hs h.1) h.2

section

variable {next : σ → σ} {s : σ}

/-- What one step preserves where `G` allows it holds at every iterate if `G` does. -/
theorem iterate_invariant_along (I G : σ → Prop) (hstep : ∀ s, I s → G s → I (next s))
    (hs : I s) (hG : ∀ n, G (next^[n] s)) (n : ℕ) : I (next^[n] s) := by
  induction n with
  | zero => exact hs
  | succ n ih =>
    rw [Function.iterate_succ_apply']
    exact hstep _ ih (hG n)

theorem iterate_invariant (I : σ → Prop) (hstep : ∀ s, I s → I (next s)) (hs : I s) (n : ℕ) :
    I (next^[n] s) :=
  iterate_invariant_along I (fun _ => True) (fun s h _ => hstep s h) hs (fun _ => trivial) n

end

end Transition
