import Jmpxx.ForcedUnwind
import Jmpxx.Unwind

namespace Jmpxx.Unwind

open Propagation (Result)
open ForcedUnwind (Contiguous walk)

/-- What a frame has the unwind do: destroy an object, or the guard of the scope of `car`. -/
inductive Cleanup where
  | object (id : ℕ)
  | scopePop (car : ℕ)
  deriving DecidableEq, Repr

abbrev Activation := ForcedUnwind.Frame ℕ Cleanup

/-- `stop_function`: the carrier whose jump buffer it resumes, or none for `_URC_NO_REASON`. -/
def stopFunction (car cfa : ℕ) (endOfStack : Bool) : Option ℕ :=
  if car < cfa ∨ endOfStack = true then some car else none

variable {V P : Type}

/-- What the jump buffer of `car` holds: its `escape_scope`, and the frames below. -/
def jumpBuffer (car : ℕ) : List (Frame V P) → Option ((Result V P → Code V P) × List (Frame V P))
  | .scope c rest :: K => if c = car then some (rest, K) else jumpBuffer car K
  | _ :: K => jumpBuffer car K
  | [] => none

namespace Thread

def cleanup (th : Thread V P) : Cleanup → Thread V P
  | .object id => { th with log := th.log ++ [.destroyed id] }
  | .scopePop car => { th with active := (th.carriers car).prev }

/-- `drive_unwind` for the escape `x` to `car`; none when it fails fast for want of a landing. -/
def driveUnwind (th : Thread V P) (r : Bool) (x : Thrown) (car last : ℕ)
    (frames : List Activation) : Option (Thread V P) := do
  let resumed ← (walk (stopFunction car) last frames).2
  let buf ← jumpBuffer resumed th.stack
  let swept := (walk (stopFunction car) last frames).1.foldl cleanup th
  pure (swept.exit (.forced r) (.unwind x) resumed buf.1 buf.2)

/-- `eject` to the landing, over the frames there are. -/
def escape (th : Thread V P) (r : Bool) (tag : ℕ) (err : P) (last : ℕ)
    (frames : List Activation) : Option (Thread V P) :=
  match (th.eject tag err).control with
  | .done (.unwind (.escape id car)) =>
    (th.eject tag err).driveUnwind r (.escape id car) car last frames
  | _ => some (th.eject tag err)

end Thread

/-- A stack with the carrier somewhere in the frame of its `escape_scope`, the frames that one
called, innermost first, and those it was called from. -/
structure CallStack (car : ℕ) where
  called : List Activation
  landing : Activation
  callers : List Activation
  contiguous : Contiguous (called ++ landing :: callers)
  sp_le : landing.sp ≤ car
  lt_cfa : car < landing.cfa
  guard : landing.cleanups = [.scopePop car]

def CallStack.frames {car : ℕ} (s : CallStack car) : List Activation :=
  s.called ++ s.landing :: s.callers

/-- The cleanups of the frames the landing frame called, innermost first. -/
def CallStack.swept {car : ℕ} (s : CallStack car) : List Cleanup :=
  s.called.flatMap ForcedUnwind.Frame.cleanups

def Cleanup.event : Cleanup → Option Event
  | .object id => some (.destroyed id)
  | .scopePop _ => none

theorem stopFunction_eq_some {car cfa : ℕ} {endOfStack : Bool} {j : ℕ} :
    stopFunction car cfa endOfStack = some j ↔ (car < cfa ∨ endOfStack = true) ∧ j = car := by
  unfold stopFunction
  split_ifs with h
  · exact ⟨fun heq => ⟨h, (Option.some.inj heq).symm⟩, fun heq => congrArg some heq.2.symm⟩
  · exact ⟨fun heq => (by cases heq), fun heq => absurd heq.1 h⟩

/-- The walk sweeps what the landing frame called and at most its guard, and stops there. -/
theorem CallStack.walk_eq {car : ℕ} (s : CallStack car) (last : ℕ) :
    ∃ popped, (popped = [] ∨ popped = [.scopePop car]) ∧
      walk (stopFunction car) last s.frames = (s.swept ++ popped, some car) := by
  have hstop : ∀ a e, stopFunction car a e = some car ↔ car < a ∨ e = true := by
    intro a e
    rw [stopFunction_eq_some]
    exact and_iff_left rfl
  have honly : ∀ a e j, stopFunction car a e = some j → j = car :=
    fun a e j h => (stopFunction_eq_some.mp h).2
  obtain ⟨popped, hpopped, hwalk⟩ :=
    @ForcedUnwind.walk_above ℕ Cleanup ℕ _ (stopFunction car) s.landing last car car hstop honly
      s.called s.callers s.contiguous s.sp_le s.lt_cfa
  refine ⟨popped, ?_, hwalk⟩
  rw [s.guard] at hpopped
  rcases List.prefix_cons_iff.mp hpopped with hnil | ⟨rest, hcons, hrest⟩
  · exact .inl hnil
  · rw [List.prefix_nil.mp hrest] at hcons
    exact .inr hcons

namespace Thread

variable {th : Thread V P}

/-- Cleanups destroy objects and pop scopes, and leave the rest of the thread alone. -/
theorem foldl_cleanup (cs : List Cleanup) (th : Thread V P) :
    ∃ active, cs.foldl cleanup th =
      { th with active, log := th.log ++ cs.filterMap Cleanup.event } := by
  induction cs generalizing th with
  | nil => exact ⟨th.active, by rw [List.filterMap_nil, List.append_nil]; rfl⟩
  | cons c cs ih =>
    obtain ⟨active, heq⟩ := ih (th.cleanup c)
    refine ⟨active, ?_⟩
    rw [List.foldl_cons, heq]
    cases c with
    | object id =>
      simp only [cleanup, List.filterMap_cons, Cleanup.event, List.append_assoc]
      rfl
    | scopePop car => rfl

theorem eject_eq {car tag : ℕ} (hactive : th.active = some car)
    (htag : (th.carriers car).tag = tag) (hidle : th.inFlight = false) (err : P) :
    th.eject tag err =
      { th with
        carriers := Function.update th.carriers car
          { th.carriers car with error := some err, ejected := true }
        inFlight := true
        control := .done (.unwind (.escape th.next car))
        next := th.next + 1 } := by
  unfold eject
  rw [hactive]
  simp only [htag, hidle, ne_eq, not_true_eq_false, if_false, Bool.false_eq_true]

end Thread

section Landing

variable {th : Thread V P} {car tag : ℕ} {rest : Result V P → Code V P} {K : List (Frame V P)}
variable {r : Bool}

/-- The thread back in the scope of `car`, with `events` behind it. -/
def Thread.landed (th : Thread V P) (car : ℕ) (rest : Result V P → Code V P) (K : List (Frame V P))
    (err : P) (events : List Event) : Thread V P :=
  { th with
    control := .run (rest (.error err))
    stack := K
    active := (th.carriers car).prev
    inFlight := false
    log := th.log ++ events }

/-- The landing reads the payload and pops the scope, whatever scope is active by then. -/
theorem exit_swept (hactive : th.active = some car) (htag : (th.carriers car).tag = tag)
    (hidle : th.inFlight = false) (err : P) (cs : List Cleanup) (id : ℕ) :
    (cs.foldl Thread.cleanup (th.eject tag err)).exit (.forced r) (.unwind (.escape id car)) car rest
        K = (th.eject tag err).landed car rest K err (cs.filterMap Cleanup.event) := by
  obtain ⟨active, hswept⟩ := Thread.foldl_cleanup cs (th.eject tag err)
  rw [hswept, Thread.eject_eq hactive htag hidle err]
  simp [Thread.exit, lands, Thread.leave, Thread.landed]

theorem CallStack.escape_eq (hactive : th.active = some car) (htag : (th.carriers car).tag = tag)
    (hidle : th.inFlight = false) (hscope : jumpBuffer car th.stack = some (rest, K)) (err : P)
    (s : CallStack car) (last : ℕ) :
    th.escape r tag err last s.frames =
      some ((th.eject tag err).landed car rest K err (s.swept.filterMap Cleanup.event)) := by
  obtain ⟨popped, hpopped, hwalk⟩ := s.walk_eq last
  have hevents : (s.swept ++ popped).filterMap Cleanup.event = s.swept.filterMap Cleanup.event := by
    rw [List.filterMap_append]
    rcases hpopped with rfl | rfl <;> exact List.append_nil _
  have heject := Thread.eject_eq hactive htag hidle err
  have hescape : th.escape r tag err last s.frames =
      (th.eject tag err).driveUnwind r (.escape th.next car) car last s.frames := by
    unfold Thread.escape
    rw [heject]
  have hstack : jumpBuffer car (th.eject tag err).stack = some (rest, K) := by
    rw [heject]
    exact hscope
  rw [hescape, Thread.driveUnwind, hwalk]
  simp only [Option.bind_eq_bind, Option.bind_some, hstack, Option.pure_def,
    exit_swept hactive htag hidle, hevents]

/-- Wherever in its frame the carrier lies and whichever address each frame is reported by, an
escape destroys what the landing frame called, nothing beyond, and returns from its scope. -/
theorem forced_unwind_lands (hactive : th.active = some car) (htag : (th.carriers car).tag = tag)
    (hidle : th.inFlight = false) (hscope : jumpBuffer car th.stack = some (rest, K)) (err : P)
    (s : CallStack car) (last : ℕ) :
    (∃ popped, (popped = [] ∨ popped = [.scopePop car]) ∧
      walk (stopFunction car) last s.frames = (s.swept ++ popped, some car)) ∧
    ∃ th', th.escape r tag err last s.frames = some th' ∧
      th'.control = .run (rest (.error err)) ∧ th'.stack = K ∧
      th'.active = (th.carriers car).prev ∧ th'.inFlight = false ∧
      th'.log = th.log ++ s.swept.filterMap Cleanup.event := by
  refine ⟨s.walk_eq last, _, s.escape_eq hactive htag hidle hscope err last, rfl, rfl, ?_, rfl, ?_⟩
  · rw [Thread.landed, Thread.eject_eq hactive htag hidle err]
    simp
  · rw [Thread.landed, Thread.eject_eq hactive htag hidle err]

def frameAt (sp size : ℕ) (cleanups : List Cleanup) : Activation where
  sp := sp
  cfa := sp + size
  cleanups := cleanups
  report _ := sp
  le_report _ := le_refl sp
  report_le _ := Nat.le_add_right sp size

theorem contiguous_frameAt : Contiguous ([frameAt 60 20 [.object 1],
    frameAt 80 16 [.object 3, .object 2]] ++ frameAt 96 16 [.scopePop 100] ::
      [frameAt 112 20 [.object 0]]) := by
  simp [Contiguous, frameAt]

/-- A carrier in the middle of its frame, which is reported below it. -/
def twoCalled : CallStack 100 where
  called := [frameAt 60 20 [.object 1], frameAt 80 16 [.object 3, .object 2]]
  landing := frameAt 96 16 [.scopePop 100]
  callers := [frameAt 112 20 [.object 0]]
  contiguous := contiguous_frameAt
  sp_le := Nat.le_add_right 96 4
  lt_cfa := Nat.lt_add_of_pos_right (Nat.succ_pos 11)
  guard := rfl

def inScope : Thread ℕ ℕ :=
  Thread.enter { Thread.initial (.ret 0) with next := 100 } 7 (.ret 0) fun _ => .ret 1

theorem forced_unwind_lands_two :
    (∃ popped, (popped = [] ∨ popped = [.scopePop 100]) ∧
      walk (stopFunction 100) 0 twoCalled.frames = (twoCalled.swept ++ popped, some 100)) ∧
    ∃ th', inScope.escape true 7 42 0 twoCalled.frames = some th' ∧
      th'.control = .run (.ret 1) ∧ th'.stack = [] ∧
      th'.active = (inScope.carriers 100).prev ∧ th'.inFlight = false ∧
      th'.log = inScope.log ++ twoCalled.swept.filterMap Cleanup.event :=
  @forced_unwind_lands ℕ ℕ inScope 100 7 (fun _ => .ret 1) [] true rfl rfl rfl rfl 42 twoCalled 0

example : walk (stopFunction 100) 0 twoCalled.frames =
    ([.object 1, .object 3, .object 2, .scopePop 100], some 100) := by decide

end Landing

section Refinement

def Frame.plain (car : ℕ) : Frame V P → Prop
  | .cont _ => True
  | .own _ dtor => ∃ v, dtor = .ret v
  | .scope c _ => c ≠ car
  | .handler all _ _ => all = false
  | _ => False

/-- What unwinding through the frame cleans up. -/
def Frame.sweeps : Frame V P → List Cleanup
  | .own id _ => [.object id]
  | .scope c _ => [.scopePop c]
  | _ => []

variable {car id : ℕ} {rest : Result V P → Code V P} {K : List (Frame V P)} {r : Bool}

/-- The thread as the escape to `car` reaches the frames `K`. -/
def Thread.unwinding (th : Thread V P) (id car : ℕ) (K : List (Frame V P)) : Thread V P :=
  { th with control := .done (.unwind (.escape id car)), stack := K }

theorem iterate_plain {f : Frame V P} (hf : f.plain car) (th : Thread V P) :
    ∃ n, (step (.forced r))^[n] (th.unwinding id car (f :: K)) =
      (f.sweeps.foldl Thread.cleanup th).unwinding id car K := by
  cases f with
  | cont rest => exact ⟨1, rfl⟩
  | own obj dtor =>
    obtain ⟨v, rfl⟩ := hf
    exact ⟨3, rfl⟩
  | scope c rest =>
    refine ⟨1, ?_⟩
    have hlands : lands (.forced r) (.escape id car) c = false := decide_eq_false fun h => hf h.symm
    have hstep : (step (.forced r))^[1] (th.unwinding id car (.scope c rest :: K)) =
        (th.unwinding id car (.scope c rest :: K)).exit (.forced r) (.unwind (.escape id car)) c
          rest K := rfl
    rw [hstep, Thread.exit]
    simp only [hlands, Bool.false_eq_true, if_false]
    rfl
  | handler all handler rest =>
    refine ⟨1, ?_⟩
    have hall : all = false := hf
    rw [hall]
    rfl
  | handling x rest => exact hf.elim
  | cleanup after => exact hf.elim

theorem iterate_inner (inner : List (Frame V P)) (h : ∀ f ∈ inner, f.plain car) (th : Thread V P) :
    ∃ n, (step (.forced r))^[n] (th.unwinding id car (inner ++ K)) =
      ((inner.flatMap Frame.sweeps).foldl Thread.cleanup th).unwinding id car K := by
  induction inner generalizing th with
  | nil => exact ⟨0, rfl⟩
  | cons f inner ih =>
    obtain ⟨n, hn⟩ := @iterate_plain V P car id (inner ++ K) r f (h f List.mem_cons_self) th
    obtain ⟨m, hm⟩ := ih (fun g hg => h g (List.mem_cons_of_mem f hg))
      (f.sweeps.foldl Thread.cleanup th)
    refine ⟨m + n, ?_⟩
    rw [List.cons_append, Function.iterate_add_apply, hn, hm, List.flatMap_cons, List.foldl_append]

theorem jumpBuffer_inner (inner : List (Frame V P)) (h : ∀ f ∈ inner, f.plain car) :
    jumpBuffer car (inner ++ .scope car rest :: K) = some (rest, K) := by
  induction inner with
  | nil => exact if_pos rfl
  | cons f inner ih =>
    have hf := h f List.mem_cons_self
    have hrest := ih fun g hg => h g (List.mem_cons_of_mem f hg)
    cases f with
    | scope c rest => exact (if_neg hf).trans hrest
    | _ => exact hrest

/-- By addresses the escape ends where the machine's own unwinding ends. -/
theorem escape_refines {th : Thread V P} {tag : ℕ} (hactive : th.active = some car)
    (htag : (th.carriers car).tag = tag) (hidle : th.inFlight = false) {inner : List (Frame V P)}
    (hstack : th.stack = inner ++ .scope car rest :: K) (hplain : ∀ f ∈ inner, f.plain car)
    (err : P) (s : CallStack car) (hswept : s.swept = inner.flatMap Frame.sweeps) (last : ℕ) :
    ∃ n, th.escape r tag err last s.frames = some ((step (.forced r))^[n] (th.eject tag err)) := by
  have hscope : jumpBuffer car th.stack = some (rest, K) := by
    rw [hstack]
    exact jumpBuffer_inner inner hplain
  have heject := Thread.eject_eq hactive htag hidle err
  have hstart : th.eject tag err =
      (th.eject tag err).unwinding th.next car (inner ++ .scope car rest :: K) := by
    rw [heject, ← hstack]
    rfl
  obtain ⟨n, hn⟩ := @iterate_inner V P car th.next (.scope car rest :: K) r inner hplain
    (th.eject tag err)
  have hland : (step (.forced r))^[1] (((inner.flatMap Frame.sweeps).foldl Thread.cleanup
      (th.eject tag err)).unwinding th.next car (.scope car rest :: K)) =
        (th.eject tag err).landed car rest K err (s.swept.filterMap Cleanup.event) := by
    obtain ⟨active, hfold⟩ := Thread.foldl_cleanup (inner.flatMap Frame.sweeps) (th.eject tag err)
    rw [hfold, hswept, heject]
    simp [step, Thread.resume, Thread.unwinding, Thread.exit, lands, Thread.leave, Thread.landed]
  refine ⟨1 + n, ?_⟩
  rw [s.escape_eq hactive htag hidle hscope err last, hstart, Function.iterate_add_apply, hn, hland,
    ← hstart]

end Refinement

end Jmpxx.Unwind
