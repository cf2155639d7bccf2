import Jmpxx.Propagation
import Mathlib.Logic.Function.Iterate

namespace Jmpxx.Unwind

open Propagation (Result)
open Function (update)

/-- The forced unwind of the library-driven ABIs, or the throw of WebAssembly. A handler's
`throw;` goes on with a forced unwind where the runtime re-raises it, as libstdc++ does; libc++abi
terminates there. -/
inductive Backend where
  | forced (reraises : Bool)
  | wasm
  deriving DecidableEq, Repr

def Backend.isForced : Backend → Bool
  | .forced _ => true
  | .wasm => false

/-- `throw;` can go on with an escape. -/
def Backend.reraises : Backend → Bool
  | .forced r => r
  | .wasm => true

/-- Programs over values `V` and error payloads `P`; a tag stands for an error type. An object
carries the code of its destructor, and a catch is a `catch (...)` or a typed one. -/
inductive Code (V P : Type) where
  | ret (v : V)
  | call (callee : Code V P) (rest : V → Code V P)
  | own (dtor rest : Code V P)
  | scope (tag : ℕ) (body : Code V P) (rest : Result V P → Code V P)
  | eject (tag : ℕ) (err : P)
  | throw
  | tryCatch (all : Bool) (body handler : Code V P) (rest : V → Code V P)
  | rethrow

/-- What unwinds: the escape with this number, aimed at a carrier, or an exception. -/
inductive Thrown where
  | escape (id car : ℕ)
  | exception (id : ℕ)
  deriving DecidableEq, Repr

inductive Outcome (V : Type) where
  | ret (v : V)
  | unwind (x : Thrown)

inductive Frame (V P : Type) where
  | cont (rest : V → Code V P)
  | own (id : ℕ) (dtor : Code V P)
  | scope (car : ℕ) (rest : Result V P → Code V P)
  | handler (all : Bool) (handler : Code V P) (rest : V → Code V P)
  | handling (x : Thrown) (rest : V → Code V P)
  | cleanup (after : Outcome V)

/-- The defined terminations, the language's own `std::terminate`, and a landing that reads a
payload nobody wrote. -/
inductive Death where
  | noScope
  | typeMismatch
  | alreadyUnwinding
  | swallowed
  | terminate
  | undefined
  deriving DecidableEq, Repr

inductive Control (V P : Type) where
  | run (c : Code V P)
  | done (o : Outcome V)
  | dead (d : Death)

/-- `detail::carrier`, with the addresses of carriers as numbers. -/
structure Carrier (P : Type) where
  prev : Option ℕ
  tag : ℕ
  ejected : Bool
  error : Option P

inductive Event where
  | constructed (id : ℕ)
  | destroyed (id : ℕ)
  deriving DecidableEq, Repr

/-- A thread; `active` and `inFlight` are its `active()` and `escape_in_flight()`. -/
structure Thread (V P : Type) where
  control : Control V P
  stack : List (Frame V P)
  active : Option ℕ
  carriers : ℕ → Carrier P
  inFlight : Bool
  next : ℕ
  log : List Event

variable {V P : Type}

def Frame.carries (f : Frame V P) (x : Thrown) : Bool :=
  match f with
  | .handling y _ => y = x
  | .cleanup (.unwind y) => y = x
  | _ => false

def handled : List (Frame V P) → Option Thrown
  | [] => none
  | .handling x _ :: _ => some x
  | _ :: K => handled K

def Thrown.isEscape : Thrown → Bool
  | .escape _ _ => true
  | .exception _ => false

/-- A handler that ends with `o` gives up the escape it handles: it does not rethrow it and
nothing below still holds it. -/
def consumes (x : Thrown) (o : Outcome V) (K : List (Frame V P)) : Bool :=
  x.isEscape && (match o with | .ret _ => true | .unwind y => y ≠ x) && !K.any (·.carries x)

def catches (all : Bool) (x : Thrown) : Bool := all || !x.isEscape

/-- The landing stops the forced unwind aimed at it; on WebAssembly it catches any signal. -/
def lands (b : Backend) (x : Thrown) (car : ℕ) : Bool :=
  match b, x with
  | .forced _, .escape _ target => target = car
  | .wasm, .escape _ _ => true
  | _, .exception _ => false

namespace Thread

variable (th : Thread V P)

def initial (c : Code V P) : Thread V P :=
  ⟨.run c, [], none, fun _ => ⟨none, 0, false, none⟩, false, 0, []⟩

def die (d : Death) : Thread V P := { th with control := .dead d }

/-- `eject`: the three preconditions in order, then the payload, the flags and the unwind. -/
def eject (tag : ℕ) (err : P) : Thread V P :=
  match th.active with
  | none => th.die .noScope
  | some car =>
    if (th.carriers car).tag ≠ tag then th.die .typeMismatch
    else if th.inFlight then th.die .alreadyUnwinding
    else
      { th with
        carriers := update th.carriers car
          { th.carriers car with error := some err, ejected := true }
        inFlight := true
        control := .done (.unwind (.escape th.next car))
        next := th.next + 1 }

/-- `escape_scope` up to the call of its body. -/
def enter (tag : ℕ) (body : Code V P) (rest : Result V P → Code V P) : Thread V P :=
  { th with
    control := .run body
    stack := .scope th.next rest :: th.stack
    active := some th.next
    carriers := update th.carriers th.next ⟨th.active, tag, false, none⟩
    next := th.next + 1 }

/-- `throw;` under a handler of `x`. -/
def rethrow (b : Backend) (x : Thrown) : Thread V P :=
  if x.isEscape && !b.reraises then th.die .terminate
  else { th with control := .done (.unwind x) }

def exec (b : Backend) : Code V P → Thread V P
  | .ret v => { th with control := .done (.ret v) }
  | .call callee rest => { th with control := .run callee, stack := .cont rest :: th.stack }
  | .own dtor rest =>
    { th with
      control := .run rest
      stack := .own th.next dtor :: th.stack
      next := th.next + 1
      log := th.log ++ [.constructed th.next] }
  | .scope tag body rest => th.enter tag body rest
  | .eject tag err => th.eject tag err
  | .throw => { th with control := .done (.unwind (.exception th.next)), next := th.next + 1 }
  | .tryCatch all body handler rest =>
    { th with control := .run body, stack := .handler all handler rest :: th.stack }
  | .rethrow =>
    match handled th.stack with
    | some x => th.rethrow b x
    | none => th.die .terminate

def leave (car : ℕ) (K : List (Frame V P)) (control : Control V P) (inFlight : Bool) :
    Thread V P :=
  { th with control, stack := K, active := (th.carriers car).prev, inFlight }

/-- `escape_scope` after its body: the swallow check on a return, the landing on an escape. -/
def exit (b : Backend) (o : Outcome V) (car : ℕ) (rest : Result V P → Code V P)
    (K : List (Frame V P)) : Thread V P :=
  match o with
  | .ret v =>
    if (th.carriers car).ejected then th.die .swallowed
    else th.leave car K (.run (rest (.value v))) th.inFlight
  | .unwind x =>
    if lands b x car then
      match (th.carriers car).error with
      | some err => th.leave car K (.run (rest (.error err))) false
      | none => th.die .undefined
    else th.leave car K (.done o) th.inFlight

def resume (b : Backend) (o : Outcome V) : Thread V P :=
  match th.stack with
  | [] =>
    match o with
    | .ret _ => th
    | .unwind _ => th.die .terminate
  | .cont rest :: K =>
    match o with
    | .ret v => { th with control := .run (rest v), stack := K }
    | .unwind _ => { th with stack := K }
  | .own id dtor :: K =>
    { th with
      control := .run dtor
      stack := .cleanup o :: K
      log := th.log ++ [.destroyed id] }
  | .cleanup after :: K =>
    match o, after with
    | .ret _, _ => { th with control := .done after, stack := K }
    | .unwind _, .ret _ => { th with stack := K }
    -- an exception leaves a destructor while another unwinds
    | .unwind _, .unwind _ => th.die .terminate
  | .handler all handler rest :: K =>
    match o with
    | .ret v => { th with control := .run (rest v), stack := K }
    | .unwind x =>
      if catches all x then { th with control := .run handler, stack := .handling x rest :: K }
      else { th with stack := K }
  | .handling x rest :: K =>
    -- the last handler to give up a forced unwind runs `escape_cleanup`
    if consumes x o K && b.isForced then th.die .swallowed
    else
      match o with
      | .ret v => { th with control := .run (rest v), stack := K }
      | .unwind _ => { th with stack := K }
  | .scope car rest :: K => th.exit b o car rest K

end Thread

def step (b : Backend) (th : Thread V P) : Thread V P :=
  match th.control with
  | .run c => th.exec b c
  | .done o => th.resume b o
  | .dead _ => th

def Thread.isDead (th : Thread V P) : Bool :=
  match th.control with
  | .dead _ => true
  | _ => false

theorem step_of_isDead (b : Backend) {th : Thread V P} (h : th.isDead = true) : step b th = th := by
  unfold Thread.isDead at h
  unfold step
  split at h
  next hc => rw [hc]
  next => simp at h

theorem isDead_die (th : Thread V P) (d : Death) : (th.die d).isDead = true := rfl

end Jmpxx.Unwind
