import Jmpxx.ManifestDescent
import Jmpxx.Transition

namespace Jmpxx.Manifest

open Throwing
open Transition (run run_invariant)

variable {w : Width}

inductive TeeResult where
  | success
  | badParameters
  | notSupported
  | shortBuffer
  deriving DecidableEq, Repr

def paramTypes (t0 t1 t2 t3 : UInt32) : UInt32 := t0 ||| (t1 <<< 4) ||| (t2 <<< 8) ||| (t3 <<< 12)

def paramNone : UInt32 := 0

def paramValueOutput : UInt32 := 2

def paramMemrefInput : UInt32 := 5

def paramMemrefOutput : UInt32 := 6

def cmdVerify : UInt32 := 0

def cmdLayout : UInt32 := 1

/-- What the normal world passes: the command, the parameter types, the input memory reference,
the size of the output one, and what the kit will answer. -/
structure Invocation (w : Width) where
  cmd : UInt32
  types : UInt32
  input : Option (Buffer w)
  capacity : ℕ
  kit : Kit

/-- What it finds afterwards: the value parameter and the output bytes, if they were written. -/
structure Report where
  status : TeeResult
  value : Option (UInt32 × UInt32)
  output : Option (List UInt8)
  deriving DecidableEq, Repr

/-- `sizeof(error)`, `sizeof(result<int, error>)` and `alignof(error)`. -/
def layoutValue : UInt32 := (8 : UInt32) ||| ((12 : UInt32) <<< 8) ||| ((4 : UInt32) <<< 16)

def version : UInt32 := 105

/-- The bytes of `g_fault_name` before the first zero among its first `max_name`. -/
def reportedName (s : Instance) : List UInt8 :=
  (s.faultName.toList.take maxName).takeWhile (· ≠ 0)

def reply (capacity : ℕ) (verdict : Except (Fault × ℕ) ℕ) (s : Instance) : Report :=
  let value := match verdict with
    | .ok _ => (0, UInt32.ofNat s.entriesVerified)
    | .error (f, depth) => (f.code, UInt32.ofNat depth)
  let n := (reportedName s).length
  if capacity < n + 2 then ⟨.shortBuffer, some value, none⟩
  else ⟨.success, some value, some (reportedName s ++ [0, UInt8.ofInt s.pathLen])⟩

def invoke (fuel : ℕ) (i : Invocation w) : Run Report :=
  if i.cmd = cmdLayout then
    if i.types ≠ paramTypes paramValueOutput paramNone paramNone paramNone then
      pure ⟨.badParameters, none, none⟩
    else pure ⟨.success, some (layoutValue, version), none⟩
  else if i.cmd ≠ cmdVerify then pure ⟨.notSupported, none, none⟩
  else if i.types ≠ paramTypes paramMemrefInput paramValueOutput paramMemrefOutput paramNone then
    pure ⟨.badParameters, none, none⟩
  else
    match i.input with
    | none => pure ⟨.badParameters, none, none⟩
    | some buf =>
      if buf.size = 0 then pure ⟨.badParameters, none, none⟩
      else do
        -- the kit numbers the allocations of each invocation
        modify fun s => { s with attempts := 0 }
        let verdict ← verifyManifest i.kit buf fuel
        require fun s => some (reply i.capacity verdict s)

def created : Instance where
  faultName := Vector.replicate _ 0
  entriesVerified := 0
  deepest := 0
  path := Vector.replicate _ ⟨.literal [], 0⟩
  pathLen := 0
  payload := none
  attempts := 0
  allocated := 0
  freed := []

def next (fuel : ℕ) (s : Option Instance) (i : Invocation w) : Option Instance :=
  s.bind fun s =>
    match invoke fuel i s with
    | (.ok _, s') => some s'
    | (.thrown, _) => none
    | (.fault, _) => none

def instanceAfter (fuel : ℕ) (history : List (Invocation w)) : Option Instance :=
  run (next fuel) (some created) history

/-- What an invocation reports after a sequence of others. -/
def reportAfter (fuel : ℕ) (history : List (Invocation w)) (i : Invocation w) : Option Report :=
  (instanceAfter fuel history).bind fun s =>
    match invoke fuel i s with
    | (.ok r, _) => some r
    | (.thrown, _) => none
    | (.fault, _) => none

theorem rested_created : Rested created := ⟨rfl, List.Perm.refl _⟩

theorem takeWhile_take {l rest : List UInt8} {k : ℕ} (hl : l.length ≤ k) :
    ((l ++ 0 :: rest).take k).takeWhile (· ≠ 0) = l.takeWhile (· ≠ 0) := by
  induction l generalizing k with
  | nil => cases k <;> rfl
  | cons b l ih =>
    have hpos : 0 < k := (Nat.succ_pos _).trans_le hl
    obtain ⟨k, rfl⟩ := Nat.exists_eq_succ_of_ne_zero hpos.ne'
    have ih' := @ih k (Nat.le_of_succ_le_succ hl)
    simp only [List.cons_append, List.take_succ_cons, List.takeWhile_cons, ih']

theorem Written.reportedName {l : List UInt8} {s : Instance} (h : Written (l ++ [0]) s)
    (hl : l.length ≤ maxName) : reportedName s = l.takeWhile (· ≠ 0) := by
  unfold Written at h
  have hsplit := List.take_append_drop (l ++ [0]).length s.faultName.toList
  rw [h, List.append_assoc, List.singleton_append] at hsplit
  rw [Manifest.reportedName, ← hsplit]
  exact takeWhile_take hl

def deserved (capacity : ℕ) (verdict : Except Refusal ℕ) : Report :=
  let value := match verdict with
    | .ok n => (0, UInt32.ofNat n)
    | .error r => (r.fault.code, UInt32.ofNat r.depth)
  let name := (notedName verdict).takeWhile (· ≠ 0)
  if capacity < name.length + 2 then ⟨.shortBuffer, some value, none⟩
  else ⟨.success, some value, some (name ++ [0, 0])⟩

theorem reply_eq {verdict : Except Refusal ℕ} {s : Instance} (capacity : ℕ) (hs : Rested s)
    (hname : Written (notedName verdict ++ [0]) s)
    (hverified : ∀ n, verdict = .ok n → s.entriesVerified = n) :
    reply capacity (landed verdict) s = deserved capacity verdict := by
  have hlen : (notedName verdict).length ≤ maxName := by
    cases verdict with
    | ok n => exact Nat.zero_le _
    | error r => exact List.length_take_le ..
  unfold reply deserved
  rw [hname.reportedName hlen, hs.pathLen]
  cases verdict with
  | ok n =>
    rw [← hverified n rfl]
    rfl
  | error r => rfl

def answer (fuel : ℕ) (i : Invocation w) : Report :=
  if i.cmd = cmdLayout then
    if i.types ≠ paramTypes paramValueOutput paramNone paramNone paramNone then
      ⟨.badParameters, none, none⟩
    else ⟨.success, some (layoutValue, version), none⟩
  else if i.cmd ≠ cmdVerify then ⟨.notSupported, none, none⟩
  else if i.types ≠ paramTypes paramMemrefInput paramValueOutput paramMemrefOutput paramNone then
    ⟨.badParameters, none, none⟩
  else
    match i.input with
    | none => ⟨.badParameters, none, none⟩
    | some buf =>
      if buf.size = 0 then ⟨.badParameters, none, none⟩
      else deserved i.capacity (judgeManifest i.kit buf fuel)

theorem invoke_rested {fuel : ℕ} (hfuel : enough ≤ fuel) (i : Invocation w) {s : Instance}
    (hs : Rested s) : ∃ s', invoke fuel i s = (.ok (answer fuel i), s') ∧ Rested s' := by
  unfold invoke answer
  split_ifs
  · exact ⟨s, rfl, hs⟩
  · exact ⟨s, rfl, hs⟩
  · exact ⟨s, rfl, hs⟩
  · exact ⟨s, rfl, hs⟩
  match i.input with
  | none => exact ⟨s, rfl, hs⟩
  | some buf =>
    simp only
    split_ifs
    · exact ⟨s, rfl, hs⟩
    obtain ⟨s', hrun, hs', hname, hverified⟩ :=
      @verifyManifest_eq w buf i.kit { s with attempts := 0 } fuel hfuel ⟨hs.pathLen, hs.freed⟩ rfl
    refine ⟨s', ?_, hs'⟩
    show Comp.bind (verifyManifest i.kit buf fuel) _ { s with attempts := 0 } = _
    rw [Comp.bind, hrun, ← reply_eq i.capacity hs' hname hverified]
    rfl

theorem instanceAfter_rested {fuel : ℕ} (hfuel : enough ≤ fuel) (history : List (Invocation w)) :
    ∃ s, instanceAfter fuel history = some s ∧ Rested s := by
  refine run_invariant (next fuel) (fun so => ∃ s, so = some s ∧ Rested s) ?_ _
    ⟨created, rfl, rested_created⟩ history
  intro so i hso
  obtain ⟨s, rfl, hs⟩ := hso
  obtain ⟨s', hrun, hs'⟩ := invoke_rested hfuel i hs
  refine ⟨s', ?_, hs'⟩
  simp only [next, Option.bind_some, hrun]

theorem reportAfter_eq {fuel : ℕ} (hfuel : enough ≤ fuel) (history : List (Invocation w))
    (i : Invocation w) : reportAfter fuel history i = some (answer fuel i) := by
  obtain ⟨s, hafter, hs⟩ := instanceAfter_rested hfuel history
  obtain ⟨s', hrun, _⟩ := invoke_rested hfuel i hs
  simp only [reportAfter, hafter, Option.bind_some, hrun]

theorem Rested.count_freed {s : Instance} (h : Rested s) (op : ℕ) :
    s.freed.count op = if op < s.allocated then 1 else 0 := by
  rw [h.freed.count_eq, List.count_range]

/-- Between invocations the path is empty and every operation allocated has been freed exactly
once (and no other ever), and what an invocation is answered does not depend on those before. -/
theorem invocations_independent (w : Width) (more : ℕ) (history : List (Invocation w)) :
    (∃ s, instanceAfter (enough + more) history = some s ∧ s.pathLen = 0 ∧
      ∀ op, s.freed.count op = if op < s.allocated then 1 else 0) ∧
    ∀ i, (reportAfter (enough + more) history i).isSome ∧
      ∀ history', reportAfter (enough + more) history i = reportAfter (enough + more) history' i := by
  have hfuel : enough ≤ enough + more := Nat.le_add_right _ _
  refine ⟨?_, fun i => ⟨?_, fun history' => ?_⟩⟩
  · obtain ⟨s, hafter, hs⟩ := instanceAfter_rested hfuel history
    exact ⟨s, hafter, hs.pathLen, hs.count_freed⟩
  · rw [reportAfter_eq hfuel]
    rfl
  · rw [reportAfter_eq hfuel, reportAfter_eq hfuel]

/-- After any invocations the verifier neither reads outside the buffer, nor leaves the slots of
the path or the bytes of the name, nor descends further than there is fuel for. -/
theorem verifyManifest_safe (w : Width) (more : ℕ) (history : List (Invocation w)) :
    ∃ s, instanceAfter (enough + more) history = some s ∧
      ∀ (kit : Kit) (buf : Buffer w),
        (verifyManifest kit buf (enough + more) { s with attempts := 0 }).1 ≠ .fault := by
  have hfuel : enough ≤ enough + more := Nat.le_add_right _ _
  obtain ⟨s, hafter, hs⟩ := instanceAfter_rested hfuel history
  refine ⟨s, hafter, fun kit buf => ?_⟩
  obtain ⟨s', hrun, _⟩ :=
    @verifyManifest_eq w buf kit { s with attempts := 0 } _ hfuel ⟨hs.pathLen, hs.freed⟩ rfl
  rw [hrun]
  exact fun h => by cases h

end Jmpxx.Manifest
