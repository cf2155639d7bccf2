import Jmpxx.UnwindLanding
import Jmpxx.Transition

namespace Jmpxx.Unwind

open Propagation (Result)
open Transition (run run_invariant)

variable {V P : Type} {b : Backend} {th : Thread V P} {K : List (Frame V P)}

/-- Code with no exception of its own and no `catch (...)`. -/
def Code.Plain : Code V P → Prop
  | .ret _ => True
  | .call callee rest => callee.Plain ∧ ∀ v, (rest v).Plain
  | .own dtor rest => dtor.Plain ∧ rest.Plain
  | .scope _ body rest => body.Plain ∧ ∀ r, (rest r).Plain
  | .eject _ _ => True
  | .throw => False
  | .tryCatch all body _ rest => all = false ∧ body.Plain ∧ ∀ v, (rest v).Plain
  | .rethrow => False

structure Program (V P : Type) where
  code : Code V P
  plain : code.Plain

def Outcome.Plain : Outcome V → Prop
  | .ret _ => True
  | .unwind x => x.isEscape = true

def Frame.Plain : Frame V P → Prop
  | .cont rest => ∀ v, (rest v).Plain
  | .own _ dtor => dtor.Plain
  | .scope _ rest => ∀ r, (rest r).Plain
  | .handler all _ rest => all = false ∧ ∀ v, (rest v).Plain
  | .handling _ _ => False
  | .cleanup after => after.Plain

def Control.Plain : Control V P → Prop
  | .run c => c.Plain
  | .done o => o.Plain
  | .dead _ => True

/-- Nothing but escapes unwinds on the thread, and no handler catches one. -/
structure Thread.Plain (th : Thread V P) : Prop where
  control : th.control.Plain
  stack : ∀ f ∈ th.stack, f.Plain

theorem Thread.Plain.of_cons {f : Frame V P} (h : th.Plain) (hs : th.stack = f :: K) :
    f.Plain ∧ ∀ g ∈ K, g.Plain := by
  have hstack := h.stack
  rw [hs] at hstack
  exact List.forall_mem_cons.mp hstack

theorem plain_exec {c : Code V P} (h : th.Plain) (hc : th.control = .run c) :
    (th.exec b c).Plain := by
  have hplain : c.Plain := by
    have := h.control
    rwa [hc] at this
  cases c with
  | ret v => exact ⟨trivial, h.stack⟩
  | call callee rest => exact ⟨hplain.1, List.forall_mem_cons.mpr ⟨hplain.2, h.stack⟩⟩
  | own dtor rest => exact ⟨hplain.2, List.forall_mem_cons.mpr ⟨hplain.1, h.stack⟩⟩
  | scope tag body rest => exact ⟨hplain.1, List.forall_mem_cons.mpr ⟨hplain.2, h.stack⟩⟩
  | throw => exact hplain.elim
  | rethrow => exact hplain.elim
  | tryCatch all body handler rest =>
    exact ⟨hplain.2.1, List.forall_mem_cons.mpr ⟨⟨hplain.1, hplain.2.2⟩, h.stack⟩⟩
  | eject tag err =>
    show (th.eject tag err).Plain
    unfold Thread.eject
    split
    · exact ⟨trivial, h.stack⟩
    · split_ifs
      · exact ⟨trivial, h.stack⟩
      · exact ⟨trivial, h.stack⟩
      · exact ⟨rfl, h.stack⟩

theorem plain_resume {o : Outcome V} (h : th.Plain) (hc : th.control = .done o) :
    (th.resume b o).Plain := by
  have hplain : o.Plain := by
    have := h.control
    rwa [hc] at this
  unfold Thread.resume
  split
  next hs =>
    cases o with
    | ret v => exact h
    | unwind x => exact ⟨trivial, h.stack⟩
  next rest K hs =>
    obtain ⟨hf, hK⟩ := h.of_cons hs
    cases o with
    | ret v => exact ⟨hf v, hK⟩
    | unwind x => exact ⟨h.control, hK⟩
  next id dtor K hs =>
    obtain ⟨hf, hK⟩ := h.of_cons hs
    exact ⟨hf, List.forall_mem_cons.mpr ⟨hplain, hK⟩⟩
  next after K hs =>
    obtain ⟨hf, hK⟩ := h.of_cons hs
    split
    · exact ⟨hf, hK⟩
    · exact ⟨h.control, hK⟩
    · exact ⟨trivial, h.stack⟩
  next all handler rest K hs =>
    obtain ⟨hf, hK⟩ := h.of_cons hs
    cases o with
    | ret v => exact ⟨hf.2 v, hK⟩
    | unwind x =>
      -- a typed catch lets the escape pass
      have hpass : catches all x = false := by
        have hx : x.isEscape = true := hplain
        simp [catches, hf.1, hx]
      simp only [hpass, Bool.false_eq_true, if_false]
      exact ⟨h.control, hK⟩
  next x rest K hs => exact (h.of_cons hs).1.elim
  next car rest K hs =>
    obtain ⟨hf, hK⟩ := h.of_cons hs
    unfold Thread.exit
    cases o with
    | ret v =>
      simp only
      split_ifs
      · exact ⟨trivial, h.stack⟩
      · exact ⟨hf _, hK⟩
    | unwind x =>
      simp only
      split_ifs
      · split
        · exact ⟨hf _, hK⟩
        · exact ⟨trivial, h.stack⟩
      · exact ⟨hplain, hK⟩

theorem plain_step (h : th.Plain) : (step b th).Plain := by
  unfold step
  split
  next c hc => exact plain_exec h hc
  next o hc => exact plain_resume h hc
  next d hc => exact h

theorem Thread.Plain.not_handles (h : th.Plain) : ¬ th.Handles := by
  rintro (hc | ⟨x, rest, K, hs⟩)
  · have hplain := h.control
    rw [hc] at hplain
    exact hplain
  · exact (h.of_cons hs).1

/-- What holds of every live thread of a plain program. -/
structure Regular (th : Thread V P) : Prop where
  live : th.isDead = false
  plain : th.Plain
  flight : Flight th.arm
  straight : Straight th.arm
  distinct : Distinct th

theorem Regular.givesUp (h : Regular th) : th.givesUp = false := by
  unfold Thread.givesUp
  split
  next o x rest K hc hs => exact (h.plain.of_cons hs).1.elim
  next => rfl

theorem Regular.strays (h : Regular th) : th.strays = false := by
  unfold Thread.strays
  split
  next id target car rest K hc hs =>
    have hdirect : Direct th.items := h.straight.direct
    rw [items_done_cons hc hs] at hdirect
    have hcar : some car = some target := hdirect.1
    cases hcar
    simp
  next => rfl

theorem Regular.cooperative (h : Regular th) : Cooperative b th :=
  fun _ => ⟨h.givesUp, h.strays⟩

theorem Regular.step (h : Regular th) :
    Regular (Unwind.step b th) ∨ ∃ d, (Unwind.step b th).control = .dead d ∧ Dies b th d := by
  rcases allowed_step h.live h.cooperative with ⟨hlive, hm⟩ | hdead
  · have hnone : th.Handles = False := eq_false h.plain.not_handles
    rw [hnone] at hm
    exact .inl ⟨hlive, plain_step h.plain, h.flight.move hm, h.straight.move h.flight hm,
      h.distinct.objects (objects_step b th)⟩
  · exact .inr hdead

theorem Regular.run (h : Regular th) (n : ℕ) :
    ((Unwind.step b)^[n] th).isDead = true ∨ Regular ((Unwind.step b)^[n] th) := by
  apply Transition.iterate_invariant (fun th' => th'.isDead = true ∨ Regular th') _ (.inr h)
  intro th' h'
  rcases h' with hdead | hreg
  · left
    rwa [step_of_isDead b hdead]
  · rcases hreg.step with hreg' | ⟨d, hd, -⟩
    · exact .inr hreg'
    · exact .inl (isDead_of_dead hd)

end Jmpxx.Unwind
