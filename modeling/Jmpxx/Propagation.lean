import Mathlib.Data.List.Basic
import Mathlib.Tactic.Common

namespace Jmpxx.Propagation

/-- A result: its union holds the alternative `has_` names. -/
inductive Result (T E : Type) where
  | value (v : T)
  | error (e : E)

structure Failure (E : Type) where
  error : E

def fail {E : Type} (e : E) : Failure E := ⟨e⟩

/-- `E(E2&&)`: the error's own move constructor, or a conversion from another error type. -/
inductive Conversion : Type → Type → Type 1 where
  | move {E : Type} : Conversion E E
  | into {E2 E : Type} (f : E2 → E) : Conversion E2 E

def Conversion.apply {E2 E : Type} : Conversion E2 E → E2 → E
  | .move, e => e
  | .into f, e => f e

namespace Result

variable {T E E2 : Type}

def hasValue : Result T E → Bool
  | value _ => true
  | error _ => false

/-- `assume_value`; without a value it is the caller's fault. -/
def assumeValue : Result T E → Option T
  | value v => some v
  | error _ => none

def assumeError : Result T E → Option E
  | value _ => none
  | error e => some e

/-- `result(failure<E2>&& f)`. -/
def ofFailure (c : Conversion E2 E) (f : Failure E2) : Result T E := error (c.apply f.error)

end Result

/-- The automatic objects of a body: the program's own, and for each propagation site the
result a macro holds on to, in the block or in `JMPXX_TRYX`'s expression, and the variable it
binds. -/
inductive Auto (O S : Type) where
  | own (x : O)
  | temp (site : S)
  | operand (site : S)
  | name (site : S)
  deriving DecidableEq

inductive Event (A X : Type) where
  | step (a : A)
  | constructed (x : X)
  | destroyed (x : X)

/-- How a statement ends: control goes on, the function returns, or a precondition failed. -/
inductive Flow (R α : Type) where
  | next (a : α)
  | returned (r : R)
  | fault

/-- The calling thread: what has happened so far, and its diagnostic store. -/
structure World (A O S D : Type) where
  log : List (Event A (Auto O S))
  diagnostics : D

variable {A O S D : Type}

def Exec (A O S D R α : Type) := World A O S D → Flow R α × World A O S D

variable {R R' α β : Type}

instance : Monad (Exec A O S D R) where
  pure a := fun w => (.next a, w)
  bind m f := fun w =>
    match m w with
    | (.next a, w') => f a w'
    | (.returned r, w') => (.returned r, w')
    | (.fault, w') => (.fault, w')

namespace Exec

def emit (ev : Event A (Auto O S)) : Exec A O S D R Unit := fun w =>
  (.next (), { w with log := w.log ++ [ev] })

def require : Option α → Exec A O S D R α
  | some a => pure a
  | none => fun w => (.fault, w)

def ret (r : R) : Exec A O S D R α := fun w => (.returned r, w)

/-- An automatic object that lives while `m` runs, however `m` ends. -/
def scope (x : Auto O S) (m : Exec A O S D R α) : Exec A O S D R α := fun w =>
  let (flow, w') := m { w with log := w.log ++ [.constructed x] }
  (flow, { w' with log := w'.log ++ [.destroyed x] })

def call (m : Exec A O S D R' Unit) : Exec A O S D R R' := fun w =>
  match m w with
  | (.returned r, w') => (.next r, w')
  -- control does not flow off the end of a function that returns a result
  | (.next _, w') => (.fault, w')
  | (.fault, w') => (.fault, w')

end Exec

/-- The overloads of `note_propagation`, and whether the build records hops at all. -/
structure Hook (S D : Type) where
  enabled : Bool
  note : (E : Type) → E → S → D → D

variable (hook : Hook S D)

def hop {E : Type} (e : E) (site : S) : Exec A O S D R Unit := fun w =>
  (.next (), if hook.enabled then { w with diagnostics := hook.note E e site w.diagnostics } else w)

variable {T U E E2 : Type}

open Exec

/-- `return (HOP(tmp.assume_error()) fail(move(tmp).assume_error()))`. -/
def returnFailure (site : S) (c : Conversion E2 E) (tmp : Result U E2) :
    Exec A O S D (Result T E) α := do
  let e ← require tmp.assumeError
  hop hook e site
  let moved ← require tmp.assumeError
  ret (Result.ofFailure c (fail moved))

/-- `JMPXX_TRYV(expr)`: the result lives in the macro's own block. -/
def tryV (site : S) (c : Conversion E2 E) (expr : Exec A O S D (Result T E) (Result U E2)) :
    Exec A O S D (Result T E) Unit := do
  let tmp ← expr
  scope (.temp site) (if !tmp.hasValue then returnFailure hook site c tmp else pure ())

/-- `JMPXX_TRY(name, expr)` and what follows it in the block: the result and the variable
both live to the end of that block. -/
def tryName (site : S) (c : Conversion E2 E) (expr : Exec A O S D (Result T E) (Result U E2))
    (rest : U → Exec A O S D (Result T E) Unit) : Exec A O S D (Result T E) Unit := do
  let tmp ← expr
  scope (.temp site)
    (if !tmp.hasValue then returnFailure hook site c tmp
    else do
      let v ← require tmp.assumeValue
      scope (.name site) (rest v))

/-- `auto name = JMPXX_TRYX(expr)` and what follows it in the block. The prvalue that the
statement expression yields is the variable itself, so it is there before the result goes. -/
def tryX (site : S) (c : Conversion E2 E) (expr : Exec A O S D (Result T E) (Result U E2))
    (rest : U → Exec A O S D (Result T E) Unit) : Exec A O S D (Result T E) Unit := do
  let tmp ← expr
  if !tmp.hasValue then scope (.operand site) (returnFailure hook site c tmp)
  else do
    emit (.constructed (.operand site))
    let v ← require tmp.assumeValue
    scope (.name site) (do
      emit (.destroyed (.operand site))
      rest v)

/-- The body of a function that returns a `result<T, E>`, with the bodies of its callees. -/
inductive Body (A O S : Type) : Type → Type → Type 1 where
  | ret {T E : Type} (v : T) : Body A O S T E
  | fail {T E E2 : Type} (c : Conversion E2 E) (e : E2) : Body A O S T E
  | step {T E : Type} (a : A) (rest : Body A O S T E) : Body A O S T E
  | own {T E : Type} (x : O) (rest : Body A O S T E) : Body A O S T E
  | tryV {T E U E2 : Type} (site : S) (c : Conversion E2 E) (callee : Body A O S U E2)
      (rest : Body A O S T E) : Body A O S T E
  | tryName {T E U E2 : Type} (site : S) (c : Conversion E2 E) (callee : Body A O S U E2)
      (rest : U → Body A O S T E) : Body A O S T E
  | tryX {T E U E2 : Type} (site : S) (c : Conversion E2 E) (callee : Body A O S U E2)
      (rest : U → Body A O S T E) : Body A O S T E

def Body.exec : {T E : Type} → Body A O S T E → Exec A O S D (Result T E) Unit
  | _, _, .ret v => Exec.ret (.value v)
  | _, _, .fail c e => Exec.ret (.ofFailure c (Propagation.fail e))
  | _, _, .step a rest => do
    emit (.step a)
    rest.exec
  | _, _, .own x rest => scope (.own x) rest.exec
  | _, _, .tryV site c callee rest => do
    Propagation.tryV hook site c (call callee.exec)
    rest.exec
  | _, _, .tryName site c callee rest =>
    Propagation.tryName hook site c (call callee.exec) fun v => (rest v).exec
  | _, _, .tryX site c callee rest =>
    Propagation.tryX hook site c (call callee.exec) fun v => (rest v).exec

/-- The exception monad with its visible events. -/
structure Traced (A O E α : Type) where
  log : List (Event A O)
  outcome : Except E α

namespace Traced

instance : Monad (Traced A O E) where
  pure a := ⟨[], .ok a⟩
  bind m f :=
    match m with
    | ⟨l, .ok a⟩ => ⟨l ++ (f a).log, (f a).outcome⟩
    | ⟨l, .error e⟩ => ⟨l, .error e⟩

def emit (ev : Event A O) : Traced A O E Unit := ⟨[ev], .ok ()⟩

def throw (e : E) : Traced A O E α := ⟨[], .error e⟩

def convert : {E2 E : Type} → Conversion E2 E → Traced A O E2 α → Traced A O E α
  | _, _, .move, m => m
  | _, _, .into f, m => ⟨m.log, m.outcome.mapError f⟩

def bracket (x : O) (m : Traced A O E α) : Traced A O E α :=
  ⟨.constructed x :: (m.log ++ [.destroyed x]), m.outcome⟩

end Traced

/-- The hand-written meaning of a body: steps in order, the first failure ends it. -/
def Body.reference : {T E : Type} → Body A O S T E → Traced A O E T
  | _, _, .ret v => pure v
  | _, _, .fail c e => Traced.throw (c.apply e)
  | _, _, .step a rest => do
    Traced.emit (.step a)
    rest.reference
  | _, _, .own x rest => Traced.bracket x rest.reference
  | _, _, .tryV _ c callee rest => do
    let _ ← Traced.convert c callee.reference
    rest.reference
  | _, _, .tryName _ c callee rest => do
    let v ← Traced.convert c callee.reference
    (rest v).reference
  | _, _, .tryX _ c callee rest => do
    let v ← Traced.convert c callee.reference
    (rest v).reference

/-- Each object constructed is destroyed once, the last constructed first. -/
inductive Nested {X : Type} : List (Event A X) → Prop
  | nil : Nested []
  | step (a : A) {l : List (Event A X)} (h : Nested l) : Nested (.step a :: l)
  | object (x : X) {inner outer : List (Event A X)} (hi : Nested inner) (ho : Nested outer) :
    Nested (.constructed x :: (inner ++ .destroyed x :: outer))

def Auto.isOperand : Auto O S → Bool
  | .operand _ => true
  | _ => false

/-- The same, but for the results `JMPXX_TRYX` holds: one goes as soon as the variable is there,
or at once when it is a failure. -/
inductive Tidy : List (Event A (Auto O S)) → Prop
  | nil : Tidy []
  | step (a : A) {l : List (Event A (Auto O S))} (h : Tidy l) : Tidy (.step a :: l)
  | object (x : Auto O S) (hx : x.isOperand = false)
      {inner outer : List (Event A (Auto O S))} (hi : Tidy inner) (ho : Tidy outer) :
    Tidy (.constructed x :: (inner ++ .destroyed x :: outer))
  | bound (site : S) {inner outer : List (Event A (Auto O S))} (hi : Tidy inner)
      (ho : Tidy outer) :
    Tidy (.constructed (.operand site) :: .constructed (.name site) ::
      .destroyed (.operand site) :: (inner ++ .destroyed (.name site) :: outer))
  | refused (site : S) {outer : List (Event A (Auto O S))} (ho : Tidy outer) :
    Tidy (.constructed (.operand site) :: .destroyed (.operand site) :: outer)

/-- An event of a result that `JMPXX_TRYX` holds. -/
def Event.ofOperand : Event A (Auto O S) → Bool
  | .constructed x => x.isOperand
  | .destroyed x => x.isOperand
  | .step _ => false

/-- What the program itself can see of an event. -/
def visible : Event A (Auto O S) → Option (Event A O)
  | .step a => some (.step a)
  | .constructed (.own x) => some (.constructed x)
  | .destroyed (.own x) => some (.destroyed x)
  | _ => none

def resultOf : Except E T → Result T E
  | .ok v => .value v
  | .error e => .error e

theorem Nested.append {X : Type} {l l' : List (Event A X)} (h : Nested l) (h' : Nested l') :
    Nested (l ++ l') := by
  induction h with
  | nil => exact h'
  | step a _ ih => exact .step a ih
  | object x hi _ _ ih =>
    rw [List.cons_append, List.append_assoc, List.cons_append]
    exact .object x hi ih

theorem Nested.bracket {X : Type} (x : X) {l : List (Event A X)} (h : Nested l) :
    Nested (.constructed x :: (l ++ [.destroyed x])) := .object x h .nil

/-- A log read with a stack of the objects alive; none where another than the last goes. -/
def replay {X : Type} [DecidableEq X] : List X → List (Event A X) → Option (List X)
  | live, [] => some live
  | live, .step _ :: l => replay live l
  | live, .constructed x :: l => replay (x :: live) l
  | [], .destroyed _ :: _ => none
  | y :: live, .destroyed x :: l => if x = y then replay live l else none

theorem Nested.replay_append {X : Type} [DecidableEq X] {l : List (Event A X)} (h : Nested l)
    (live : List X) (l' : List (Event A X)) : replay live (l ++ l') = replay live l' := by
  induction h generalizing live l' with
  | nil => rfl
  | step a _ ih => exact ih live l'
  | @object x inner outer _ _ ihi iho =>
    calc replay live (.constructed x :: (inner ++ .destroyed x :: outer) ++ l')
        = replay (x :: live) (inner ++ (.destroyed x :: outer ++ l')) := by
          rw [← List.append_assoc]
          rfl
      _ = replay (x :: live) (.destroyed x :: outer ++ l') := ihi _ _
      _ = replay live (outer ++ l') := if_pos rfl
      _ = replay live l' := iho _ _

theorem Tidy.append {l l' : List (Event A (Auto O S))} (h : Tidy l) (h' : Tidy l') :
    Tidy (l ++ l') := by
  induction h with
  | nil => exact h'
  | step a _ ih => exact .step a ih
  | object x hx hi _ _ ih =>
    rw [List.cons_append, List.append_assoc, List.cons_append]
    exact .object x hx hi ih
  | bound site hi _ _ ih =>
    simp only [List.cons_append, List.append_assoc]
    exact .bound site hi ih
  | refused site _ ih => exact .refused site ih

theorem Tidy.bracket {x : Auto O S} (hx : x.isOperand = false)
    {l : List (Event A (Auto O S))} (h : Tidy l) :
    Tidy (.constructed x :: (l ++ [.destroyed x])) := .object x hx h .nil

/-- Without the results `JMPXX_TRYX` holds everything is destroyed in reverse order. -/
theorem Tidy.nested {l : List (Event A (Auto O S))} (h : Tidy l) :
    Nested (l.filter (!·.ofOperand)) := by
  induction h with
  | nil => exact .nil
  | step a _ ih => exact .step a ih
  | object x hx _ _ ihi iho =>
    simp only [List.filter_cons, List.filter_append, Event.ofOperand, hx]
    exact .object x ihi iho
  | bound site _ _ ihi iho =>
    simp only [List.filter_cons, List.filter_append, Event.ofOperand, Auto.isOperand]
    exact .object (.name site) ihi iho
  | refused site _ ih => exact ih

theorem Exec.bind_next {m : Exec A O S D R α} {f : α → Exec A O S D R β} {a : α}
    {w w' : World A O S D} (h : m w = (.next a, w')) : (m >>= f) w = f a w' := by
  simp only [bind, h]

theorem Exec.bind_returned {m : Exec A O S D R α} {f : α → Exec A O S D R β} {r : R}
    {w w' : World A O S D} (h : m w = (.returned r, w')) : (m >>= f) w = (.returned r, w') := by
  simp only [bind, h]

/-- `m` runs to `flow`, adds `l` to the log, and without hops leaves the store alone. -/
def Runs (m : Exec A O S D R α) (w : World A O S D) (flow : Flow R α)
    (l : List (Event A (Auto O S))) : Prop :=
  ∃ d, m w = (flow, ⟨w.log ++ l, d⟩) ∧ (hook.enabled = false → d = w.diagnostics)

variable {hook} {m : Exec A O S D R α} {w : World A O S D} {l l' : List (Event A (Auto O S))}

theorem Runs.pure (a : α) : Runs hook (Pure.pure a : Exec A O S D R α) w (.next a) [] :=
  ⟨w.diagnostics, by rw [List.append_nil]; rfl, fun _ => rfl⟩

theorem Runs.ret (r : R) : Runs hook (Exec.ret r : Exec A O S D R α) w (.returned r) [] :=
  ⟨w.diagnostics, by rw [List.append_nil]; rfl, fun _ => rfl⟩

theorem Runs.emit (ev : Event A (Auto O S)) :
    Runs hook (Exec.emit ev : Exec A O S D R Unit) w (.next ()) [ev] :=
  ⟨w.diagnostics, rfl, fun _ => rfl⟩

theorem Runs.bind {f : α → Exec A O S D R β} {a : α} {flow : Flow R β}
    (h : Runs hook m w (.next a) l) (hf : ∀ w', Runs hook (f a) w' flow l') :
    Runs hook (m >>= f) w flow (l ++ l') := by
  obtain ⟨d, hm, hd⟩ := h
  obtain ⟨d', hf', hd'⟩ := hf ⟨w.log ++ l, d⟩
  refine ⟨d', ?_, fun hoff => (hd' hoff).trans (hd hoff)⟩
  rw [Exec.bind_next hm, ← List.append_assoc]
  exact hf'

theorem Runs.bind_returned {f : α → Exec A O S D R β} {r : R}
    (h : Runs hook m w (.returned r) l) : Runs hook (m >>= f) w (.returned r) l := by
  obtain ⟨d, hm, hd⟩ := h
  exact ⟨d, Exec.bind_returned hm, hd⟩

theorem Runs.scope (x : Auto O S) {flow : Flow R α} (h : ∀ w', Runs hook m w' flow l) :
    Runs hook (Exec.scope x m) w flow (.constructed x :: (l ++ [.destroyed x])) := by
  obtain ⟨d, hm, hd⟩ := h { w with log := w.log ++ [.constructed x] }
  refine ⟨d, ?_, hd⟩
  simp only [Exec.scope, hm]
  simp

theorem Runs.call {m : Exec A O S D R' Unit} {r : R'} (h : Runs hook m w (.returned r) l) :
    Runs hook (Exec.call m : Exec A O S D R R') w (.next r) l := by
  obtain ⟨d, hm, hd⟩ := h
  exact ⟨d, by simp only [Exec.call, hm], hd⟩

theorem Runs.hop (e : E) (site : S) :
    Runs hook (Propagation.hop hook e site : Exec A O S D R Unit) w (.next ()) [] := by
  cases hon : hook.enabled with
  | false =>
    refine ⟨w.diagnostics, ?_, fun _ => rfl⟩
    simp [Propagation.hop, hon]
  | true =>
    refine ⟨hook.note E e site w.diagnostics, ?_, fun hoff => by simp [hon] at hoff⟩
    simp [Propagation.hop, hon]

/-- On a failure the return is reached, whatever the hop records. -/
theorem Runs.returnFailure (site : S) (c : Conversion E2 E) (e : E2) :
    Runs hook (Propagation.returnFailure hook site c (.error e : Result U E2) :
      Exec A O S D (Result T E) α) w (.returned (.error (c.apply e))) [] := by
  show Runs hook _ w _ ([] ++ ([] ++ ([] ++ [])))
  apply Runs.bind (Runs.pure e)
  intro _
  apply Runs.bind (Runs.hop e site)
  intro _
  apply Runs.bind (Runs.pure e)
  intro _
  exact Runs.ret _

section Macros

variable {site : S} {c : Conversion E2 E} {expr : Exec A O S D (Result T E) (Result U E2)} {e : E2}
  {v : U}

/-- The log of a result held from its call to the end of its block. -/
def held (site : S) (l l' : List (Event A (Auto O S))) : List (Event A (Auto O S)) :=
  l ++ .constructed (.temp site) :: (l' ++ [.destroyed (.temp site)])

/-- Every macro holds the result it calls for until its block ends. -/
theorem Runs.holding {r : Result U E2} {f : Result U E2 → Exec A O S D R β} {flow : Flow R β}
    {expr : Exec A O S D R (Result U E2)} (h : Runs hook expr w (.next r) l)
    (hf : ∀ w', Runs hook (f r) w' flow l') :
    Runs hook (expr >>= fun tmp => Exec.scope (.temp site) (f tmp)) w flow (held site l l') := by
  apply Runs.bind h
  intro _
  exact Runs.scope _ hf

theorem Runs.tryV_error (h : Runs hook expr w (.next (.error e)) l) :
    Runs hook (Propagation.tryV hook site c expr) w (.returned (.error (c.apply e)))
      (held site l []) := by
  apply Runs.holding h
  intro _
  exact Runs.returnFailure site c e

theorem Runs.tryV_value (h : Runs hook expr w (.next (.value v)) l) :
    Runs hook (Propagation.tryV hook site c expr) w (.next ()) (held site l []) := by
  apply Runs.holding h
  intro _
  exact Runs.pure ()

variable {rest : U → Exec A O S D (Result T E) Unit}

theorem Runs.tryX_error (h : Runs hook expr w (.next (.error e)) l) :
    Runs hook (Propagation.tryX hook site c expr rest) w (.returned (.error (c.apply e)))
      (l ++ [.constructed (.operand site), .destroyed (.operand site)]) := by
  apply Runs.bind h
  intro _
  simp only [Result.hasValue, Bool.not_false, if_true]
  apply Runs.scope (.operand site) (l := [])
  intro _
  exact Runs.returnFailure site c e

theorem Runs.tryX_value {flow : Flow (Result T E) Unit}
    (h : Runs hook expr w (.next (.value v)) l) (hr : ∀ w', Runs hook (rest v) w' flow l') :
    Runs hook (Propagation.tryX hook site c expr rest) w flow
      (l ++ .constructed (.operand site) :: .constructed (.name site) ::
        .destroyed (.operand site) :: (l' ++ [.destroyed (.name site)])) := by
  apply Runs.bind h
  intro _
  apply Runs.bind (Runs.emit (.constructed (.operand site)))
  intro _
  apply Runs.bind (Runs.pure v)
  intro _
  rw [← List.cons_append]
  apply Runs.scope (.name site)
  intro _
  exact Runs.bind (Runs.emit (.destroyed (.operand site))) hr

theorem Runs.tryName_error (h : Runs hook expr w (.next (.error e)) l) :
    Runs hook (Propagation.tryName hook site c expr rest) w (.returned (.error (c.apply e)))
      (held site l []) := by
  apply Runs.holding h
  intro _
  exact Runs.returnFailure site c e

theorem Runs.tryName_value {flow : Flow (Result T E) Unit}
    (h : Runs hook expr w (.next (.value v)) l) (hr : ∀ w', Runs hook (rest v) w' flow l') :
    Runs hook (Propagation.tryName hook site c expr rest) w flow
      (held site l (.constructed (.name site) :: (l' ++ [.destroyed (.name site)]))) := by
  apply Runs.holding h
  intro _
  exact Runs.bind (Runs.pure v) fun _ => Runs.scope _ hr

end Macros

theorem Tidy.held {site : S} (h : Tidy l) (h' : Tidy l') : Tidy (held site l l') :=
  h.append (h'.bracket rfl)

theorem visible_held (site : S) : (held site l l').filterMap visible =
    l.filterMap visible ++ l'.filterMap visible := by
  simp [held, visible, List.filterMap_cons]

theorem visible_name (site : S) :
    (Event.constructed (.name site) :: (l ++ [.destroyed (.name site)])).filterMap visible =
      l.filterMap visible := by
  simp [visible, List.filterMap_cons]

theorem bind_convert_error (c : Conversion E2 E) {m : Traced A O E2 α} {e : E2}
    (h : m.outcome = .error e) (f : α → Traced A O E β) :
    (Traced.convert c m >>= f) = ⟨m.log, .error (c.apply e)⟩ := by
  cases m
  cases h
  cases c <;> rfl

theorem bind_convert_ok (c : Conversion E2 E) {m : Traced A O E2 α} {v : α}
    (h : m.outcome = .ok v) (f : α → Traced A O E β) :
    (Traced.convert c m >>= f) = ⟨m.log ++ (f v).log, (f v).outcome⟩ := by
  cases m
  cases h
  cases c <;> rfl

structure Meets (D : Type) (b : Body A O S T E) (l : List (Event A (Auto O S))) : Prop where
  runs : ∀ (hook : Hook S D) w, Runs hook (b.exec hook) w (.returned (resultOf b.reference.outcome)) l
  tidy : Tidy l
  visible : l.filterMap visible = b.reference.log

theorem Meets.call {b : Body A O S T E} (h : Meets D b l) {o : Except E T}
    (ho : b.reference.outcome = o) (hook : Hook S D) (w : World A O S D) :
    Runs hook (call (b.exec hook) : Exec A O S D R (Result T E)) w (.next (resultOf o)) l :=
  ho ▸ Runs.call (h.runs hook w)

/-- A propagated failure: the callee's events, and the result the macro held. -/
theorem Meets.of_error {b : Body A O S T E} {callee : Body A O S U E2} (hc : Meets D callee l)
    {c : Conversion E2 E} {e : E2} {site : S}
    (href : b.reference = ⟨callee.reference.log, .error (c.apply e)⟩)
    (hrun : ∀ (hook : Hook S D) w,
      Runs hook (b.exec hook) w (.returned (.error (c.apply e))) (held site l [])) :
    Meets D b (held site l []) := by
  refine ⟨fun hook w => ?_, hc.tidy.held .nil, ?_⟩
  · rw [href]
    exact hrun hook w
  · rw [visible_held, hc.visible, href]
    exact List.append_nil _

theorem Meets.tryV {callee : Body A O S U E2} {rest : Body A O S T E} (hc : Meets D callee l)
    (hr : Meets D rest l') (site : S) (c : Conversion E2 E) :
    ∃ l, Meets D (.tryV site c callee rest) l := by
  cases ho : callee.reference.outcome with
  | error e =>
    have href : (Body.tryV site c callee rest).reference = _ := bind_convert_error c ho _
    exact ⟨_, hc.of_error href fun hook w => Runs.bind_returned (Runs.tryV_error (hc.call ho hook w))⟩
  | ok v =>
    have href : (Body.tryV site c callee rest).reference = _ := bind_convert_ok c ho _
    refine ⟨held site l [] ++ l', fun hook w => ?_, (hc.tidy.held .nil).append hr.tidy, ?_⟩
    · rw [href]
      exact Runs.bind (Runs.tryV_value (hc.call ho hook w)) fun w' => hr.runs hook w'
    · rw [List.filterMap_append, visible_held, hc.visible, hr.visible, href]
      simp

theorem Meets.tryName {callee : Body A O S U E2} {rest : U → Body A O S T E}
    (hc : Meets D callee l) (hr : ∀ v, ∃ l, Meets D (rest v) l) (site : S)
    (c : Conversion E2 E) : ∃ l, Meets D (.tryName site c callee rest) l := by
  cases ho : callee.reference.outcome with
  | error e =>
    have href : (Body.tryName site c callee rest).reference = _ := bind_convert_error c ho _
    exact ⟨_, hc.of_error href fun hook w => Runs.tryName_error (hc.call ho hook w)⟩
  | ok v =>
    have href : (Body.tryName site c callee rest).reference = _ := bind_convert_ok c ho _
    obtain ⟨l', hl'⟩ := hr v
    refine ⟨held site l (.constructed (.name site) :: (l' ++ [.destroyed (.name site)])),
      fun hook w => ?_, hc.tidy.held (hl'.tidy.bracket rfl), ?_⟩
    · rw [href]
      exact Runs.tryName_value (hc.call ho hook w) fun w' => hl'.runs hook w'
    · rw [visible_held, visible_name, hc.visible, hl'.visible, href]

theorem Meets.tryX {callee : Body A O S U E2} {rest : U → Body A O S T E}
    (hc : Meets D callee l) (hr : ∀ v, ∃ l, Meets D (rest v) l) (site : S)
    (c : Conversion E2 E) : ∃ l, Meets D (.tryX site c callee rest) l := by
  cases ho : callee.reference.outcome with
  | error e =>
    have href : (Body.tryX site c callee rest).reference = _ := bind_convert_error c ho _
    refine ⟨l ++ [.constructed (.operand site), .destroyed (.operand site)], fun hook w => ?_,
      hc.tidy.append (.refused site .nil), ?_⟩
    · rw [href]
      exact Runs.tryX_error (hc.call ho hook w)
    · rw [List.filterMap_append, hc.visible, href]
      exact List.append_nil _
  | ok v =>
    have href : (Body.tryX site c callee rest).reference = _ := bind_convert_ok c ho _
    obtain ⟨l', hl'⟩ := hr v
    refine ⟨l ++ .constructed (.operand site) :: .constructed (.name site) ::
      .destroyed (.operand site) :: (l' ++ [.destroyed (.name site)]), fun hook w => ?_,
      hc.tidy.append (.bound site hl'.tidy .nil), ?_⟩
    · rw [href]
      exact Runs.tryX_value (hc.call ho hook w) fun w' => hl'.runs hook w'
    · rw [List.filterMap_append, hc.visible, href, ← hl'.visible]
      simp [Propagation.visible, List.filterMap_cons]

/-- Every body does what its reference says, by induction on the tree of calls. -/
theorem exists_meets (b : Body A O S T E) : ∃ l, Meets D b l := by
  induction b with
  | ret v => exact ⟨[], fun _ _ => Runs.ret _, .nil, rfl⟩
  | fail c e => exact ⟨[], fun _ _ => Runs.ret _, .nil, rfl⟩
  | step a rest ih =>
    obtain ⟨l, hl⟩ := ih
    refine ⟨.step a :: l, fun hook w => ?_, hl.tidy.step a, ?_⟩
    · exact Runs.bind (Runs.emit _) fun w' => hl.runs hook w'
    · simp only [List.filterMap_cons, Propagation.visible, hl.visible]
      rfl
  | own x rest ih =>
    obtain ⟨l, hl⟩ := ih
    refine ⟨_, fun hook w => Runs.scope (.own x) fun w' => hl.runs hook w',
      hl.tidy.bracket rfl, ?_⟩
    simp [Propagation.visible, hl.visible, Body.reference, Traced.bracket]
  | tryV site c callee rest ihc ih =>
    obtain ⟨l, hl⟩ := ihc
    obtain ⟨l', hl'⟩ := ih
    exact hl.tryV hl' site c
  | tryName site c callee rest ihc ih =>
    obtain ⟨l, hl⟩ := ihc
    exact hl.tryName ih site c
  | tryX site c callee rest ihc ih =>
    obtain ⟨l, hl⟩ := ihc
    exact hl.tryX ih site c

/-- A call of any function is the hand-written one: it returns what the exception monad
returns, shows the program the same events in the same order, and destroys everything it
constructs once, in reverse order but for the results `JMPXX_TRYX` holds; hops change neither, and
are all that reaches the store. -/
theorem call_eq_reference (b : Body A O S T E) :
    ∃ l : List (Event A (Auto O S)), l.filterMap visible = b.reference.log ∧
      Tidy l ∧ Nested (l.filter (!·.ofOperand)) ∧ ∀ (hook : Hook S D) (d : D), ∃ d',
        (call (b.exec hook) : Exec A O S D R (Result T E)) ⟨[], d⟩ =
          (.next (resultOf b.reference.outcome), ⟨l, d'⟩) ∧
        (hook.enabled = false → d' = d) := by
  obtain ⟨l, hl⟩ := @exists_meets A O S D T E b
  exact ⟨l, hl.visible, hl.tidy, hl.tidy.nested, fun hook d => hl.call rfl hook ⟨[], d⟩⟩

/-- `int f() { auto v = JMPXX_TRYX(g()); return v; }` around a `g` that succeeds. -/
def binding : Body Unit Unit Unit ℕ ℕ := .tryX () .move (.ret 1) .ret

/-- The result goes before the variable that was constructed after it. -/
theorem binding_not_nested :
    ∃ l : List (Event Unit (Auto Unit Unit)), ¬ Nested l ∧
      ∀ (hook : Hook Unit Unit), (call (binding.exec hook) :
        Exec Unit Unit Unit Unit Unit (Result ℕ ℕ)) ⟨[], ()⟩ = (.next (.value 1), ⟨l, ()⟩) := by
  refine ⟨[.constructed (.operand ()), .constructed (.name ()), .destroyed (.operand ()),
    .destroyed (.name ())], ?_, fun _ => rfl⟩
  intro h
  have hreplay := h.replay_append [] []
  simp [replay] at hreplay

end Jmpxx.Propagation
