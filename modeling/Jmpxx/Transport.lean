import Jmpxx.Throwing
import Mathlib.Data.Nat.Notation
import Mathlib.Logic.Function.Basic

namespace Jmpxx.Transport

open Throwing

/-- What an object is: one of the two alternatives, or a `failure` on its way to one. -/
inductive Kind where
  | value
  | error
  | failure
  deriving DecidableEq, Repr

/-- A result object: a variable of the program, or the temporary of an assignment. -/
inductive Loc where
  | named (r : ℕ)
  | temp
  deriving DecidableEq, Repr

/-- Storage an object can occupy: the union of a result, the parameter of
`operator=(failure<E2> f)`, the local `incoming` of `assign_from`. -/
inductive Place where
  | alt (l : Loc)
  | param
  | incoming
  deriving DecidableEq, Repr

/-- A reference to the object of a given serial number, which once lived in `place`. -/
structure Ref where
  place : Place
  serial : ℕ
  deriving DecidableEq, Repr

/-- An object apart from its content. A view refers to the object it stands for. -/
structure Tag where
  kind : Kind
  serial : ℕ
  view : Option Ref
  deriving DecidableEq, Repr

/-- An object within its lifetime. -/
structure Obj (C : Type) extends Tag where
  content : C

structure World (C : Type) where
  mem : Place → Option (Obj C)
  has : Loc → Option Bool
  constructed : ℕ
  destroyed : List ℕ
  tick : ℕ

/-- What the two types do: which of their constructors and assignments throw, numbered in the
order they run, what a throwing assignment and a move leave behind, what a constructor makes
of its arguments; and which special members of `result` are defaulted. -/
structure Env (C : Type) where
  throws : ℕ → Bool
  torn : ℕ → C
  moved : C → C
  make : List C → C
  trivCopyCtor : Bool
  trivMoveCtor : Bool
  trivCopyAssign : Bool
  trivMoveAssign : Bool

variable {C : Type}

namespace World

def initial : World C := ⟨fun _ => none, fun _ => none, 0, [], 0⟩

def find (w : World C) (p : Place) (k : Kind) : Option (Obj C) :=
  (w.mem p).filter fun o => o.kind = k

def follow (w : World C) (ref : Ref) : Option (Obj C) :=
  (w.mem ref.place).filter fun o => o.serial = ref.serial

def setContent (w : World C) (p : Place) (c : C) : World C :=
  { w with mem := Function.update w.mem p ((w.mem p).map fun o => { o with content := c }) }

def setHas (w : World C) (l : Loc) (b : Option Bool) : World C :=
  { w with has := Function.update w.has l b }

def begin (w : World C) (p : Place) (k : Kind) (c : C) (view : Option Ref) : World C :=
  { w with
    mem := Function.update w.mem p (some ⟨⟨k, w.constructed, view⟩, c⟩)
    constructed := w.constructed + 1 }

def finish (w : World C) (p : Place) (o : Obj C) : World C :=
  { w with mem := Function.update w.mem p none, destroyed := o.serial :: w.destroyed }

end World

variable (env : Env C)

def mayThrow : Comp (World C) Unit := fun w =>
  (if env.throws w.tick then .thrown else .ok (), { w with tick := w.tick + 1 })

/-- Placement new, or a local: the storage must be free. -/
def construct (p : Place) (k : Kind) (c : C) (view : Option Ref) : Comp (World C) Unit := do
  require fun w => if (w.mem p).isNone then some () else none
  modify fun w => w.begin p k c view

def destroyAt (p : Place) (k : Kind) : Comp (World C) Unit := do
  let o ← require fun w => w.find p k
  modify fun w => w.finish p o

def read (p : Place) (k : Kind) : Comp (World C) (Obj C) := require fun w => w.find p k

/-- An argument as the callee sees it. -/
inductive Source (C : Type) where
  | own (c : C)
  | object (ref : Ref) (moved : Bool)

def Source.read : Source C → Comp (World C) C
  | .own c => pure c
  | .object ref moved => do
    let o ← require fun w => w.follow ref
    onlyIf moved (modify fun w => w.setContent ref.place (env.moved o.content))
    pure o.content

def readAll : List (Source C) → Comp (World C) (List C)
  | [] => pure []
  | a :: as => do
    let c ← a.read env
    let cs ← readAll as
    pure (c :: cs)

def constructFrom (p : Place) (k : Kind) (args : List (Source C)) : Comp (World C) Unit := do
  let cs ← readAll env args
  mayThrow env
  construct p k (env.make cs) none

inductive Mode where
  | copy
  | move
  | bitwise
  deriving DecidableEq, Repr

def constructAlt (mode : Mode) (p : Place) (k : Kind) (q : Place) : Comp (World C) Unit := do
  let o ← read q k
  onlyIf (mode = .copy) (mayThrow env)
  construct p k o.content none
  onlyIf (mode = .move) (modify fun w => w.setContent q (env.moved o.content))

/-- The alternative's own assignment; a throw leaves the target with any content. -/
def assignAlt (mode : Mode) (p : Place) (k : Kind) (q : Place) : Comp (World C) Unit := do
  let o ← read q k
  let _ ← read p k
  onThrow (mayThrow env) fun w => w.setContent p (env.torn w.tick)
  modify fun w => w.setContent p o.content
  onlyIf (mode = .move) (modify fun w => w.setContent q (env.moved o.content))

def getHas (l : Loc) : Comp (World C) Bool := require fun w => w.has l

def setHas (l : Loc) (b : Bool) : Comp (World C) Unit := modify fun w => w.setHas l (some b)

def kindOf (b : Bool) : Kind := if b then .value else .error

/-- A constructor of `result` that throws leaves no result. -/
def constructing (l : Loc) (m : Comp (World C) Unit) : Comp (World C) Unit :=
  onThrow m fun w => w.setHas l none

def destroy (l : Loc) : Comp (World C) Unit := do
  let b ← getHas l
  if b then destroyAt (.alt l) .value else destroyAt (.alt l) .error

def destructor (l : Loc) : Comp (World C) Unit := do
  destroy l
  modify fun w => w.setHas l none

def assignFrom (mode : Mode) (l o : Loc) : Comp (World C) Unit := do
  let b ← getHas l
  let bo ← getHas o
  if b && bo then assignAlt env mode (.alt l) .value (.alt o)
  else if !b && !bo then assignAlt env mode (.alt l) .error (.alt o)
  else if b then do
    constructAlt env mode .incoming .error (.alt o)
    cleanup
      (do
        destroyAt (.alt l) .value
        constructAlt env .move (.alt l) .error .incoming
        setHas l false)
      (destroyAt .incoming .error)
  else do
    constructAlt env mode .incoming .value (.alt o)
    cleanup
      (do
        destroyAt (.alt l) .error
        constructAlt env .move (.alt l) .value .incoming
        setHas l true)
      (destroyAt .incoming .value)

def assignFromCopy (l o : Loc) : Comp (World C) Unit := assignFrom env .copy l o

def assignFromMove (l o : Loc) : Comp (World C) Unit := assignFrom env .move l o

/-- A copy or move constructor: `has_` is copied first, then one alternative. -/
def constructLike (mode : Mode) (l o : Loc) : Comp (World C) Unit :=
  constructing l do
    let b ← getHas o
    setHas l b
    if b then constructAlt env mode (.alt l) .value (.alt o)
    else constructAlt env mode (.alt l) .error (.alt o)

def copyConstructor (l o : Loc) : Comp (World C) Unit :=
  constructLike env (if env.trivCopyCtor then .bitwise else .copy) l o

def moveConstructor (l o : Loc) : Comp (World C) Unit :=
  constructLike env (if env.trivMoveCtor then .bitwise else .move) l o

/-- A defaulted assignment copies the union's bytes: where the two are not the same object,
the old alternative ends and a new one begins, without a destructor or a constructor call. -/
def assignBitwise (l o : Loc) : Comp (World C) Unit := do
  let b ← getHas l
  let bo ← getHas o
  if l ≠ o then
    let other ← read (.alt o) (kindOf bo)
    destroyAt (.alt l) (kindOf b)
    construct (.alt l) (kindOf bo) other.content none
    setHas l bo

def copyAssign (l o : Loc) : Comp (World C) Unit :=
  if env.trivCopyAssign then assignBitwise l o else assignFromCopy env l o

def moveAssign (l o : Loc) : Comp (World C) Unit :=
  if env.trivMoveAssign then assignBitwise l o else assignFromMove env l o

/-- `result(U&& v)` and `result(in_place, a...)`. -/
def valueConstructor (l : Loc) (args : List (Source C)) : Comp (World C) Unit :=
  constructing l do
    constructFrom env (.alt l) .value args
    setHas l true

/-- The constructors from a `failure` whose error reads `error`. -/
def failureConstructor (l : Loc) (error : Source C) : Comp (World C) Unit :=
  constructing l do
    constructFrom env (.alt l) .error [error]
    setHas l false

/-- `operator=(U&& v)`. -/
def assignValue (l : Loc) (v : Source C) : Comp (World C) Unit := do
  valueConstructor env .temp [v]
  cleanup (moveAssign env l .temp) (destructor .temp)

/-- The error a `failure` object holds, through the reference if it is a view. -/
def errorOf (f : Obj C) : Source C :=
  match f.view with
  | some ref => .object ref false
  | none => .object ⟨.param, f.serial⟩ true

/-- `operator=(failure<E2> f)`, with the parameter's own construction from the argument. -/
def assignFailure (l : Loc) (content : C) (view : Option Ref) : Comp (World C) Unit := do
  mayThrow env
  construct .param .failure content view
  cleanup
    (do
      let f ← read .param .failure
      failureConstructor env .temp (errorOf f)
      cleanup (moveAssign env l .temp) (destructor .temp))
    (destroyAt .param .failure)

/-- An argument in the program: content of its own, or one that refers to the alternative of
a result. -/
inductive Arg (C : Type) where
  | own (c : C)
  | into (r : ℕ) (moved : Bool)

inductive Op (C : Type) where
  | value (r : ℕ) (v : Arg C)
  | inPlace (r : ℕ) (args : List (Arg C))
  | failure (r : ℕ) (error : Arg C)
  | copy (r o : ℕ)
  | move (r o : ℕ)
  | copyAssign (r o : ℕ)
  | moveAssign (r o : ℕ)
  | assignValue (r : ℕ) (v : Arg C)
  | assignFailure (r : ℕ) (content : C) (view : Option ℕ)
  | destroy (r : ℕ)

namespace World

def isLive (w : World C) (r : ℕ) : Bool := (w.has (.named r)).isSome

def altRef (w : World C) (r : ℕ) : Ref :=
  ⟨.alt (.named r), ((w.mem (.alt (.named r))).map (·.serial)).getD 0⟩

def source (w : World C) : Arg C → Source C
  | .own c => .own c
  | .into r moved => .object (w.altRef r) moved

def refersToLive (w : World C) : Arg C → Bool
  | .own _ => true
  | .into r _ => w.isLive r

/-- The results an operation constructs do not exist yet; those it uses do. -/
def admits (w : World C) : Op C → Bool
  | .value r v => !w.isLive r && w.refersToLive v
  | .inPlace r args => !w.isLive r && args.all w.refersToLive
  | .failure r error => !w.isLive r && w.refersToLive error
  | .copy r o | .move r o => !w.isLive r && w.isLive o
  | .copyAssign r o | .moveAssign r o => w.isLive r && w.isLive o
  | .assignValue r v => w.isLive r && w.refersToLive v
  | .assignFailure r _ view => w.isLive r && view.all w.isLive
  | .destroy r => w.isLive r

end World

def Op.comp (w : World C) : Op C → Comp (World C) Unit
  | .value r v => valueConstructor env (.named r) [w.source v]
  | .inPlace r args => valueConstructor env (.named r) (args.map w.source)
  | .failure r error => failureConstructor env (.named r) (w.source error)
  | .copy r o => copyConstructor env (.named r) (.named o)
  | .move r o => moveConstructor env (.named r) (.named o)
  | .copyAssign r o => Transport.copyAssign env (.named r) (.named o)
  | .moveAssign r o => Transport.moveAssign env (.named r) (.named o)
  | .assignValue r v => Transport.assignValue env (.named r) (w.source v)
  | .assignFailure r content view =>
    Transport.assignFailure env (.named r) content (view.map w.altRef)
  | .destroy r => destructor (.named r)

/-- One operation, its exception caught by the program; `none` once something has gone wrong
that C++ does not define. An operation the program cannot name there is passed over. -/
def step (s : Option (World C)) (op : Op C) : Option (World C) :=
  s.bind fun w =>
    if w.admits op then
      match op.comp env w w with
      | (.fault, _) => none
      | (_, w') => some w'
    else some w

end Jmpxx.Transport
