import Jmpxx.UnwindArm

namespace Jmpxx.Unwind

open Propagation (Result)

variable {V P : Type}

def Thrown.item : Thrown → Option Item
  | .escape id car => some (.escape id car)
  | .exception _ => none

def Outcome.item : Outcome V → Option Item
  | .ret _ => none
  | .unwind x => x.item

def Frame.item : Frame V P → Option Item
  | .scope car _ => some (.scope car)
  | .handling x _ => x.item
  | .cleanup after => after.item
  | _ => none

def items : List (Frame V P) → List Item
  | [] => []
  | f :: K => f.item.toList ++ items K

def Thread.items (th : Thread V P) : List Item :=
  match th.control with
  | .done o => o.item.toList ++ Unwind.items th.stack
  | _ => Unwind.items th.stack

def Thread.arm (th : Thread V P) : Arm P :=
  ⟨th.items, th.active, th.carriers, th.inFlight, th.next⟩

/-- A handler is about to give up the escape it handles. -/
def Thread.givesUp (th : Thread V P) : Bool :=
  match th.control, th.stack with
  | .done o, .handling x _ :: K => consumes x o K
  | _, _ => false

/-- An escape arrives at a scope other than the one it is aimed at. -/
def Thread.strays (th : Thread V P) : Bool :=
  match th.control, th.stack with
  | .done (.unwind (.escape _ target)), .scope car _ :: _ => target ≠ car
  | _, _ => false

/-- On WebAssembly the arm relies on the program: handlers rethrow what they catch, and not
inside a scope of their own. -/
def Cooperative (b : Backend) (th : Thread V P) : Prop :=
  b = .wasm → th.givesUp = false ∧ th.strays = false

theorem cooperative_forced (r : Bool) (th : Thread V P) : Cooperative (.forced r) th := by
  intro h
  cases h

def Thread.Handles (th : Thread V P) : Prop :=
  th.control = .run .rethrow ∨ ∃ x rest K, th.stack = .handling x rest :: K

def Thread.Arrived (th : Thread V P) (id car : ℕ) : Prop :=
  th.control = .done (.unwind (.escape id car)) ∧ ∃ rest K, th.stack = .scope car rest :: K

variable {b : Backend} {K : List (Frame V P)} {th th' : Thread V P} {o : Outcome V}

theorem isDead_iff : th.isDead = true ↔ ∃ d, th.control = .dead d := by
  unfold Thread.isDead
  split
  next d hd => simp [hd]
  next hd => simpa using hd

theorem isDead_of_dead {d : Death} (hd : th.control = .dead d) : th.isDead = true :=
  isDead_iff.mpr ⟨d, hd⟩

theorem cooperative_of_isDead (h : th.isDead = true) : Cooperative b th := by
  obtain ⟨d, hd⟩ := isDead_iff.mp h
  intro _
  simp [Thread.givesUp, Thread.strays, hd]

theorem items_append (K K' : List (Frame V P)) : items (K ++ K') = items K ++ items K' := by
  induction K with
  | nil => rfl
  | cons f K ih =>
    show f.item.toList ++ items (K ++ K') = f.item.toList ++ items K ++ items K'
    rw [ih, List.append_assoc]

theorem items_run {c : Code V P} (hc : th.control = .run c) : th.items = items th.stack := by
  simp only [Thread.items, hc]

theorem items_done (hc : th.control = .done o) :
    th.items = o.item.toList ++ items th.stack := by
  simp only [Thread.items, hc]

theorem mem_items_of_carries {f : Frame V P} {x : Thrown} {i : Item} (hx : x.item = some i)
    (h : f.carries x = true) : f.item = some i := by
  cases f with
  | handling y rest =>
    have hyx : y = x := by simpa [Frame.carries] using h
    rw [← hx, ← hyx]
    rfl
  | cleanup after =>
    cases after with
    | ret v => simp [Frame.carries] at h
    | unwind y =>
      have hyx : y = x := by simpa [Frame.carries] using h
      rw [← hx, ← hyx]
      rfl
  | cont rest => simp [Frame.carries] at h
  | own id dtor => simp [Frame.carries] at h
  | scope car rest => simp [Frame.carries] at h
  | handler all h' rest => simp [Frame.carries] at h

theorem mem_items_of_any {x : Thrown} {i : Item} (hx : x.item = some i)
    (h : K.any (·.carries x) = true) : i ∈ items K := by
  induction K with
  | nil => simp at h
  | cons f K ih =>
    rw [List.any_cons, Bool.or_eq_true] at h
    apply List.mem_append.mpr
    rcases h with hf | hK
    · left
      rw [mem_items_of_carries hx hf]
      exact List.mem_singleton_self i
    · exact .inr (ih hK)

theorem mem_items_of_handled {x : Thrown} {i : Item} (hx : x.item = some i)
    (h : handled K = some x) : i ∈ items K := by
  induction K with
  | nil => simp [handled] at h
  | cons f K ih =>
    apply List.mem_append.mpr
    cases f with
    | handling y rest =>
      have hyx : y = x := by simpa [handled] using h
      left
      show i ∈ y.item.toList
      rw [hyx, hx]
      exact List.mem_singleton_self i
    | cont rest => exact .inr (ih h)
    | own id dtor => exact .inr (ih h)
    | scope car rest => exact .inr (ih h)
    | handler all h' rest => exact .inr (ih h)
    | cleanup after => exact .inr (ih h)

/-- How code on the path of an escape ends the program: it ejects in turn, it rethrows with
nothing handled or where the runtime does not re-raise an escape, an exception leaves a cleanup of
the unwind, or a handler gives a forced unwind up. -/
inductive CutShort (b : Backend) (th : Thread V P) : Death → Prop where
  | typeMismatch {tag : ℕ} {err : P} {car : ℕ} (hc : th.control = .run (.eject tag err))
      (ha : th.active = some car) (ht : (th.carriers car).tag ≠ tag) : CutShort b th .typeMismatch
  | alreadyUnwinding {tag : ℕ} {err : P} {car : ℕ} (hc : th.control = .run (.eject tag err))
      (ha : th.active = some car) (ht : (th.carriers car).tag = tag) (hf : th.inFlight = true) :
      CutShort b th .alreadyUnwinding
  | unhandled (hc : th.control = .run .rethrow) (hh : handled th.stack = none) :
      CutShort b th .terminate
  | notReraised {id car : ℕ} (hb : b.reraises = false) (hc : th.control = .run .rethrow)
      (hh : handled th.stack = some (.escape id car)) : CutShort b th .terminate
  | cleanup {x y : Thrown} {K : List (Frame V P)} (hc : th.control = .done (.unwind x))
      (hs : th.stack = .cleanup (.unwind y) :: K) : CutShort b th .terminate
  | givenUp (hb : b.isForced = true) (hg : th.givesUp = true) : CutShort b th .swallowed

/-- The ways a step can end the thread. -/
inductive Dies (b : Backend) (th : Thread V P) : Death → Prop where
  | cutShort {d : Death} (h : CutShort b th d) : Dies b th d
  | noScope {tag : ℕ} {err : P} (hc : th.control = .run (.eject tag err))
      (ha : th.active = none) : Dies b th .noScope
  | uncaught {x : Thrown} (hc : th.control = .done (.unwind x)) (hs : th.stack = []) :
      Dies b th .terminate
  | returned {v : V} {car : ℕ} {rest : Result V P → Code V P} {K : List (Frame V P)}
      (hc : th.control = .done (.ret v)) (hs : th.stack = .scope car rest :: K)
      (he : (th.carriers car).ejected = true) : Dies b th .swallowed
  | unwritten {id car : ℕ} {rest : Result V P → Code V P} {K : List (Frame V P)}
      (hc : th.control = .done (.unwind (.escape id car))) (hs : th.stack = .scope car rest :: K)
      (he : (th.carriers car).error = none) : Dies b th .undefined

/-- The thread goes on with a move of its arm, or it stops where `Dies` says. -/
def Allowed (b : Backend) (th th' : Thread V P) : Prop :=
  (th'.isDead = false ∧ Move th.Handles th.Arrived th.arm th'.arm) ∨
    ∃ d, th'.control = .dead d ∧ Dies b th d

theorem Allowed.of_move {a : Arm P} (hlive : th'.isDead = false)
    (hm : Move th.Handles th.Arrived th.arm a) (ha : th'.arm = a) : Allowed b th th' := by
  rw [← ha] at hm
  exact .inl ⟨hlive, hm⟩

/-- A step that changes nothing of the arm but the next number. -/
theorem Allowed.quiet (hlive : th'.isDead = false) (hi : th'.items = th.items)
    (ha : th'.active = th.active) (hc : th'.carriers = th.carriers)
    (hf : th'.inFlight = th.inFlight) (hn : th.next ≤ th'.next) : Allowed b th th' := by
  apply Allowed.of_move hlive (.quiet th'.next hn)
  simp only [Thread.arm, hi, ha, hc, hf]

theorem Allowed.dead {d : Death} (h : Dies b th d) : Allowed b th (th.die d) :=
  .inr ⟨d, rfl, h⟩

theorem Allowed.cut {d : Death} (h : CutShort b th d) : Allowed b th (th.die d) :=
  .dead (.cutShort h)

theorem allowed_eject {tag : ℕ} {err : P} (hc : th.control = .run (.eject tag err)) :
    Allowed b th (th.eject tag err) := by
  have hi := items_run hc
  unfold Thread.eject
  split
  next ha => exact .dead (.noScope hc ha)
  next car ha =>
    split_ifs with htag hflag
    · exact .cut (.typeMismatch hc ha htag)
    · exact .cut (.alreadyUnwinding hc ha (not_not.mp htag) hflag)
    · have hdown : th.arm.inFlight = false := Bool.eq_false_iff.mpr hflag
      apply Allowed.of_move rfl (.eject car err ha hdown)
      simp only [Thread.arm, hi]
      rfl

theorem allowed_exec {c : Code V P} (hc : th.control = .run c) :
    Allowed b th (th.exec b c) := by
  have hi := items_run hc
  cases c with
  | ret v => exact .quiet rfl hi.symm rfl rfl rfl le_rfl
  | call callee rest => exact .quiet rfl hi.symm rfl rfl rfl le_rfl
  | own dtor rest => exact .quiet rfl hi.symm rfl rfl rfl (Nat.le_succ _)
  | throw => exact .quiet rfl hi.symm rfl rfl rfl (Nat.le_succ _)
  | tryCatch all body handler rest => exact .quiet rfl hi.symm rfl rfl rfl le_rfl
  | eject tag err => exact allowed_eject hc
  | scope tag body rest =>
    apply Allowed.of_move rfl (.enter tag)
    simp only [Thread.arm, hi]
    rfl
  | rethrow =>
    simp only [Thread.exec]
    cases hh : handled th.stack with
    | none => exact .cut (.unhandled hc hh)
    | some x =>
      cases x with
      | exception id => exact .quiet rfl hi.symm rfl rfl rfl le_rfl
      | escape id car =>
        simp only [Thread.rethrow]
        split_ifs with hends
        · exact .cut (.notReraised (by simpa [Thrown.isEscape] using hends) hc hh)
        · have hx : Item.escape id car ∈ items th.stack := mem_items_of_handled rfl hh
          rw [← hi] at hx
          apply Allowed.of_move rfl (.again id car (.inl hc) hx)
          simp only [Thread.arm, hi]
          rfl

theorem items_done_cons {f : Frame V P} (hc : th.control = .done o) (hs : th.stack = f :: K) :
    th.items = o.item.toList ++ (f.item.toList ++ items K) := by
  rw [items_done hc, hs]
  rfl

theorem live_pop (hc : th.control = .done o) : { th with stack := K }.isDead = false := by
  simp only [Thread.isDead, hc]

/-- The frame on top goes and the outcome travels on. -/
theorem allowed_pop {f : Frame V P} (hc : th.control = .done o) (hs : th.stack = f :: K)
    (hf : f.item = none) : Allowed b th { th with stack := K } := by
  refine .quiet (live_pop hc) ?_ rfl rfl rfl le_rfl
  rw [items_done_cons hc hs, hf]
  simp only [Thread.items, hc]
  rfl

/-- A handler that keeps its escape lets go of a second hold on it. -/
theorem allowed_handling {x : Thrown} {rest : V → Code V P} (hc : th.control = .done o)
    (hs : th.stack = .handling x rest :: K) (hkeep : consumes x o K = false)
    (hlive : th'.isDead = false) (hi : th'.items = o.item.toList ++ items K)
    (ha : th'.active = th.active) (hcar : th'.carriers = th.carriers)
    (hf : th'.inFlight = th.inFlight) (hn : th'.next = th.next) : Allowed b th th' := by
  have hitems := items_done_cons hc hs
  cases x with
  | exception id => exact .quiet hlive (hi.trans hitems.symm) ha hcar hf hn.ge
  | escape id car =>
    have hx : Item.escape id car ∈ o.item.toList ++ items K := by
      apply List.mem_append.mpr
      -- either the outcome is the escape itself, or a frame below holds it
      by_cases hbelow : K.any (·.carries (.escape id car)) = true
      · exact .inr (mem_items_of_any rfl hbelow)
      · cases o with
        | ret v => simp [consumes, Thrown.isEscape, hbelow] at hkeep
        | unwind y =>
          have hy : y = .escape id car := by
            simpa [consumes, Thrown.isEscape, hbelow] using hkeep
          rw [hy]
          exact .inl (List.mem_singleton_self _)
    apply Allowed.of_move hlive (.release _ _ id car (.inr ⟨_, _, _, hs⟩) hitems hx)
    simp only [Thread.arm, hi, ha, hcar, hf, hn]
    rfl

/-- What a thread's arm is once control has left a scope. -/
theorem arm_leave {car : ℕ} {control : Control V P} {flag : Bool} {l : List Item}
    (hi : (th.leave car K control flag).items = l) :
    (th.leave car K control flag).arm =
      { th.arm with items := l, active := (th.carriers car).prev, inFlight := flag } := by
  simp only [Thread.arm, hi]
  rfl

theorem lands_self (b : Backend) (id car : ℕ) : lands b (.escape id car) car = true := by
  cases b <;> simp [lands]

theorem allowed_exit {car : ℕ} {rest : Result V P → Code V P} (hc : th.control = .done o)
    (hs : th.stack = .scope car rest :: K) (hstray : b = .wasm → th.strays = false) :
    Allowed b th (th.exit b o car rest K) := by
  have hitems := items_done_cons hc hs
  cases o with
  | ret v =>
    simp only [Thread.exit]
    split_ifs with hej
    · exact .dead (.returned hc hs hej)
    · exact .of_move rfl (.leave car _ hitems) (arm_leave rfl)
  | unwind x =>
    cases x with
    | exception id =>
      have hpass : lands b (.exception id) car = false := by cases b <;> rfl
      simp only [Thread.exit, hpass, Bool.false_eq_true, if_false]
      exact .of_move rfl (.leave car _ hitems) (arm_leave rfl)
    | escape id target =>
      by_cases htarget : target = car
      · subst htarget
        simp only [Thread.exit, lands_self, if_true]
        split
        · exact .of_move rfl (.land id target _ ⟨hc, _, _, hs⟩ hitems) (arm_leave rfl)
        next herr => exact .dead (.unwritten hc hs herr)
      · -- only the landing of the forced unwind lets it pass
        have hpass : lands b (.escape id target) car = false := by
          cases b with
          | forced r => simp [lands, htarget]
          | wasm =>
            have := hstray rfl
            simp [Thread.strays, hc, hs, htarget] at this
        simp only [Thread.exit, hpass, Bool.false_eq_true, if_false]
        exact .of_move rfl (.pass id target car _ hitems htarget) (arm_leave rfl)

theorem consumes_eq_false {x : Thrown} {rest : V → Code V P} (hc : th.control = .done o)
    (hs : th.stack = .handling x rest :: K) (hcoop : Cooperative b th)
    (h : ¬(consumes x o K && b.isForced) = true) : consumes x o K = false := by
  cases b with
  | forced r => simpa [Backend.isForced] using h
  | wasm =>
    have := (hcoop rfl).1
    simpa [Thread.givesUp, hc, hs] using this

theorem allowed_resume (hc : th.control = .done o) (hcoop : Cooperative b th) :
    Allowed b th (th.resume b o) := by
  have hitems := fun f K hs => (items_done_cons (f := f) (K := K) hc hs).symm
  unfold Thread.resume
  split
  next hs =>
    cases o with
    | ret v => exact .quiet (live_pop hc) rfl rfl rfl rfl le_rfl
    | unwind x => exact .dead (.uncaught hc hs)
  next rest K hs =>
    cases o with
    | ret v => exact .quiet rfl (hitems _ _ hs) rfl rfl rfl le_rfl
    | unwind x => exact allowed_pop hc hs rfl
  next id dtor K hs => exact .quiet rfl (hitems _ _ hs) rfl rfl rfl le_rfl
  next after K hs =>
    split
    · exact .quiet rfl (hitems _ _ hs) rfl rfl rfl le_rfl
    · exact allowed_pop hc hs rfl
    · exact .cut (.cleanup hc hs)
  next all handler rest K hs =>
    cases o with
    | ret v => exact .quiet rfl (hitems _ _ hs) rfl rfl rfl le_rfl
    | unwind x =>
      simp only
      split_ifs
      · -- the escape goes from the outcome to the handler that caught it
        exact .quiet rfl (hitems _ _ hs) rfl rfl rfl le_rfl
      · exact allowed_pop hc hs rfl
  next x rest K hs =>
    split_ifs with hlost
    · have hboth : consumes x o K = true ∧ b.isForced = true := by simpa using hlost
      refine .cut (.givenUp hboth.2 ?_)
      simpa only [Thread.givesUp, hc, hs] using hboth.1
    · have hkeep := consumes_eq_false hc hs hcoop hlost
      cases o with
      | ret v => exact allowed_handling hc hs hkeep rfl rfl rfl rfl rfl rfl
      | unwind y =>
        show Allowed b th { th with stack := K }
        have hi : { th with stack := K }.items = _ := items_done hc
        exact allowed_handling hc hs hkeep (live_pop hc) hi rfl rfl rfl rfl
  next car rest K hs => exact allowed_exit hc hs fun hb => (hcoop hb).2

/-- As long as the thread is cooperative its steps are moves of the arm. -/
theorem allowed_step (hlive : th.isDead = false) (hcoop : Cooperative b th) :
    Allowed b th (step b th) := by
  unfold step
  split
  next c hc => exact allowed_exec hc
  next o hc => exact allowed_resume hc hcoop
  next d hc => simp [Thread.isDead, hc] at hlive

end Jmpxx.Unwind
