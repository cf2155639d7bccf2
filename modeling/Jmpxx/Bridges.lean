import Jmpxx.Propagation

namespace Jmpxx.Bridges

open Propagation (Result Conversion World Event Auto Hook Nested visible)

inductive Style (ι : Type) where
  | results (t : ι)
  | expects (t : ι)
  | optional
  | throwing

/-- What is thrown: an `error_exception<E>`, or an exception of another component. -/
inductive Thrown {ι : Type} (ε : ι → Type) (X : Type) where
  | carrier (t : ι) (e : ε t)
  | foreign (x : X)

/-- `catch (const error_exception<E>& je)`, which yields `je.error()`. -/
def Thrown.as {ι : Type} [DecidableEq ι] {ε : ι → Type} {X : Type} (t : ι) :
    Thrown ε X → Option (ε t)
  | carrier u e => if h : u = t then some (h ▸ e) else none
  | foreign _ => none

inductive Expected (T E : Type) where
  | value (v : T)
  | unexpected (e : E)

namespace Expected

variable {T E : Type}

def hasValue : Expected T E → Bool
  | value _ => true
  | unexpected _ => false

def deref : Expected T E → Option T
  | value v => some v
  | unexpected _ => none

def error : Expected T E → Option E
  | value _ => none
  | unexpected e => some e

end Expected

section Styles

variable {ι : Type} (ε : ι → Type) (X : Type)

abbrev Style.Failure : Style ι → Type
  | results t => ε t
  | expects t => ε t
  | optional => Unit
  | throwing => Thrown ε X

abbrev Style.Returned : Style ι → Type → Type
  | results t, T => Result T (ε t)
  | expects t, T => Expected T (ε t)
  | optional, T => Option T
  | throwing, T => T

inductive Fn (A O S : Type) : Style ι → Type → Type 1 where
  | ret {s : Style ι} {T : Type} (v : T) : Fn A O S s T
  | step {s : Style ι} {T : Type} (a : A) (rest : Fn A O S s T) : Fn A O S s T
  | own {s : Style ι} {T : Type} (x : O) (rest : Fn A O S s T) : Fn A O S s T
  | fail {t : ι} {T : Type} (e : ε t) : Fn A O S (.results t) T
  | tryName {t u : ι} {T U : Type} (site : S) (c : Conversion (ε u) (ε t))
      (callee : Fn A O S (.results u) U) (rest : U → Fn A O S (.results t) T) :
      Fn A O S (.results t) T
  | unexpected {t : ι} {T : Type} (e : ε t) : Fn A O S (.expects t) T
  | whenExpected {t : ι} {T U : Type} (callee : Fn A O S (.expects t) U)
      (rest : U → Fn A O S (.expects t) T) : Fn A O S (.expects t) T
  | nullopt {T : Type} : Fn A O S .optional T
  | throw {T : Type} (x : Thrown ε X) : Fn A O S .throwing T
  | call {T U : Type} (callee : Fn A O S .throwing U) (rest : U → Fn A O S .throwing T) :
      Fn A O S .throwing T
  | handle {T : Type} (callee : Fn A O S .throwing T)
      (handler : Thrown ε X → Fn A O S .throwing T) : Fn A O S .throwing T
  | valueOrThrow {t : ι} {T : Type} (callee : Fn A O S (.results t) T) : Fn A O S .throwing T
  | catchIntoResult {t : ι} {T : Type} (callee : Fn A O S .throwing T)
      (makeError : Fn A O S .throwing (ε t)) : Fn A O S (.results t) T
  | toExpected {t : ι} {T : Type} (callee : Fn A O S (.results t) T) : Fn A O S (.expects t) T
  | fromExpected {t : ι} {T : Type} (callee : Fn A O S (.expects t) T) : Fn A O S (.results t) T
  | fromOptional {t : ι} {T : Type} (callee : Fn A O S .optional T) (onEmpty : ε t) :
      Fn A O S (.results t) T

end Styles

inductive Exit (R Th : Type) where
  | returned (r : R)
  | thrown (x : Th)
  | terminated
  | fault

/-- How a statement ends: control goes on, or the function ends there. -/
inductive Flow (R Th α : Type) where
  | next (a : α)
  | exit (e : Exit R Th)

variable {A O S D R R' Th α β : Type}

/-- Whether the automatic objects around a statement are destroyed when it ends. -/
def Flow.unwinds : Flow R Th α → Bool
  | .exit .terminated | .exit .fault => false
  | _ => true

/-- An exception that would leave a `noexcept` function ends the process. -/
def Flow.contained : Flow R Th α → Flow R Th α
  | .exit (.thrown _) => .exit .terminated
  | flow => flow

/-- Statements of a function that returns an `R`. -/
def Exec (A O S D R Th α : Type) := World A O S D → Flow R Th α × World A O S D

instance : Monad (Exec A O S D R Th) where
  pure a := fun w => (.next a, w)
  bind m f := fun w =>
    match m w with
    | (.next a, w') => f a w'
    | (.exit e, w') => (.exit e, w')

namespace Exec

def emit (ev : Event A (Auto O S)) : Exec A O S D R Th Unit := fun w =>
  (.next (), { w with log := w.log ++ [ev] })

def require : Option α → Exec A O S D R Th α
  | some a => pure a
  | none => fun w => (.exit .fault, w)

def ret (r : R) : Exec A O S D R Th α := fun w => (.exit (.returned r), w)

def raise (x : Th) : Exec A O S D R Th α := fun w => (.exit (.thrown x), w)

/-- An automatic object that lives while `m` runs, unless the process ends there. -/
def scope (x : Auto O S) (m : Exec A O S D R Th α) : Exec A O S D R Th α := fun w =>
  let (flow, w') := m { w with log := w.log ++ [.constructed x] }
  (flow, if flow.unwinds then { w' with log := w'.log ++ [.destroyed x] } else w')

def landed : Exit R' Th → Flow R Th R'
  | .returned r => .next r
  | .thrown x => .exit (.thrown x)
  | .terminated => .exit .terminated
  | .fault => .exit .fault

def call (m : Exec A O S D R' Th Unit) : Exec A O S D R Th R' := fun w =>
  match m w with
  | (.exit e, w') => (landed e, w')
  -- control does not flow off the end of a function that returns something
  | (.next _, w') => (.exit .fault, w')

/-- `try { m } catch`. -/
def tryCatch (m : Exec A O S D R Th α) (handler : Th → Exec A O S D R Th α) :
    Exec A O S D R Th α := fun w =>
  match m w with
  | (.exit (.thrown x), w') => handler x w'
  | (flow, w') => (flow, w')

def noexcept (m : Exec A O S D R Th α) : Exec A O S D R Th α := fun w =>
  let (flow, w') := m w
  (flow.contained, w')

end Exec

open Exec

variable {ι : Type} {ε : ι → Type} {X : Type} {s : Style ι} {T U E E' : Type} {t u : ι}

def hop (hook : Hook S D) (e : E) (site : S) : Exec A O S D R Th Unit := fun w =>
  (.next (), if hook.enabled then { w with diagnostics := hook.note E e site w.diagnostics } else w)

/-- `JMPXX_TRY(name, expr)` and what follows it in the block. -/
def tryName (hook : Hook S D) (site : S) (c : Conversion E' E)
    (expr : Exec A O S D (Result T E) Th (Result U E'))
    (rest : U → Exec A O S D (Result T E) Th Unit) : Exec A O S D (Result T E) Th Unit := do
  let tmp ← expr
  scope (.temp site)
    (if !tmp.hasValue then do
      let e ← require tmp.assumeError
      hop hook e site
      let moved ← require tmp.assumeError
      ret (Result.ofFailure c (Propagation.fail moved))
    else do
      let v ← require tmp.assumeValue
      scope (.name site) (rest v))

/-- `if (!r) return std::unexpected(r.error());` and what follows it. -/
def whenExpected (expr : Exec A O S D (Expected T E) Th (Expected U E))
    (rest : U → Exec A O S D (Expected T E) Th Unit) : Exec A O S D (Expected T E) Th Unit := do
  let r ← expr
  if !r.hasValue then do
    let e ← require r.error
    ret (.unexpected e)
  else do
    let v ← require r.deref
    rest v

def valueOrThrow (t : ι) (r : Result T (ε t)) : Exec A O S D T (Thrown ε X) Unit :=
  if r.hasValue then do
    let v ← require r.assumeValue
    ret v
  else do
    let e ← require r.assumeError
    raise (.carrier t e)

/-- The handlers of `catch_into_result`. -/
def caught [DecidableEq ι] (t : ι) (makeError : Exec A O S D (Result T (ε t)) (Thrown ε X) (ε t))
    (x : Thrown ε X) : Exec A O S D (Result T (ε t)) (Thrown ε X) Unit :=
  match x.as t with
  | some e => ret (Result.ofFailure .move (Propagation.fail e))
  | none => do
    let e ← makeError
    ret (Result.ofFailure .move (Propagation.fail e))

def catchIntoResult [DecidableEq ι] (t : ι) (f : Exec A O S D (Result T (ε t)) (Thrown ε X) T)
    (makeError : Exec A O S D (Result T (ε t)) (Thrown ε X) (ε t)) :
    Exec A O S D (Result T (ε t)) (Thrown ε X) Unit :=
  noexcept (tryCatch
    (do
      let v ← f
      ret (.value v))
    (caught t makeError))

def toExpected (r : Result T E) : Exec A O S D (Expected T E) Th Unit :=
  if r.hasValue then do
    let v ← require r.assumeValue
    ret (.value v)
  else do
    let e ← require r.assumeError
    ret (.unexpected e)

def fromExpected (r : Expected T E) : Exec A O S D (Result T E) Th Unit :=
  if r.hasValue then do
    let v ← require r.deref
    ret (.value v)
  else do
    let e ← require r.error
    ret (Result.ofFailure .move (Propagation.fail e))

/-- `from_optional<E>(o, on_empty)`. -/
def fromOptional (o : Option T) (onEmpty : E) : Exec A O S D (Result T E) Th Unit :=
  if o.isSome then do
    let v ← require o
    ret (.value v)
  else ret (Result.ofFailure .move (Propagation.fail onEmpty))

def returning : (s : Style ι) → T → s.Returned ε T
  | .results _, v => Result.value v
  | .expects _, v => Expected.value v
  | .optional, v => some v
  | .throwing, v => v

def Fn.exec [DecidableEq ι] (hook : Hook S D) : {s : Style ι} → {T : Type} → Fn ε X A O S s T →
    Exec A O S D (s.Returned ε T) (Thrown ε X) Unit
  | s, _, .ret v => Exec.ret (returning s v)
  | _, _, .step a rest => do
    emit (.step a)
    rest.exec hook
  | _, _, .own x rest => scope (.own x) (rest.exec hook)
  | .results _, _, .fail e => Exec.ret (Result.ofFailure .move (Propagation.fail e))
  | .results _, _, .tryName site c callee rest =>
    Bridges.tryName hook site c (Exec.call (callee.exec hook)) fun v => (rest v).exec hook
  | .expects _, _, .unexpected e => Exec.ret (Expected.unexpected e)
  | .expects _, _, .whenExpected callee rest =>
    Bridges.whenExpected (Exec.call (callee.exec hook)) fun v => (rest v).exec hook
  | .optional, T, .nullopt => Exec.ret (none : Option T)
  | .throwing, _, .throw x => raise x
  | .throwing, _, .call callee rest => do
    let v ← Exec.call (callee.exec hook)
    (rest v).exec hook
  | .throwing, _, .handle callee handler =>
    tryCatch
      (do
        let v ← Exec.call (callee.exec hook)
        Exec.ret v)
      fun x => (handler x).exec hook
  | .throwing, _, .valueOrThrow callee => do
    let r ← Exec.call (callee.exec hook)
    Bridges.valueOrThrow _ r
  | .results t, _, .catchIntoResult callee makeError =>
    Bridges.catchIntoResult t (Exec.call (callee.exec hook)) (Exec.call (makeError.exec hook))
  | .expects _, _, .toExpected callee => do
    let r ← Exec.call (callee.exec hook)
    Bridges.toExpected r
  | .results _, _, .fromExpected callee => do
    let r ← Exec.call (callee.exec hook)
    Bridges.fromExpected r
  | .results _, _, .fromOptional callee onEmpty => do
    let o ← Exec.call (callee.exec hook)
    Bridges.fromOptional o onEmpty

inductive Outcome (E T : Type) where
  | ok (v : T)
  | failed (e : E)
  | terminated

/-- A computation that may fail, with its visible events. -/
structure Seen (A O E T : Type) where
  log : List (Event A O)
  outcome : Outcome E T

namespace Seen

instance : Monad (Seen A O E) where
  pure v := ⟨[], .ok v⟩
  bind m f :=
    match m with
    | ⟨l, .ok v⟩ => ⟨l ++ (f v).log, (f v).outcome⟩
    | ⟨l, .failed e⟩ => ⟨l, .failed e⟩
    | ⟨l, .terminated⟩ => ⟨l, .terminated⟩

def emit (ev : Event A O) : Seen A O E Unit := ⟨[ev], .ok ()⟩

def fail (e : E) : Seen A O E T := ⟨[], .failed e⟩

def recover (m : Seen A O E T) (h : E → Seen A O E' T) : Seen A O E' T :=
  match m with
  | ⟨l, .ok v⟩ => ⟨l, .ok v⟩
  | ⟨l, .failed e⟩ => ⟨l ++ (h e).log, (h e).outcome⟩
  | ⟨l, .terminated⟩ => ⟨l, .terminated⟩

def convert (f : E → E') (m : Seen A O E T) : Seen A O E' T := m.recover fun e => fail (f e)

/-- The end of the process leaves objects as they are. -/
def bracket (x : O) (m : Seen A O E T) : Seen A O E T :=
  match m with
  | ⟨l, .terminated⟩ => ⟨.constructed x :: l, .terminated⟩
  | ⟨l, o⟩ => ⟨.constructed x :: (l ++ [.destroyed x]), o⟩

/-- The error that is to be made of an exception; none may come of making it. -/
def made (m : Seen A O E E') : Seen A O E' T :=
  match m with
  | ⟨l, .ok e⟩ => ⟨l, .failed e⟩
  | ⟨l, _⟩ => ⟨l, .terminated⟩

/-- An exception at a boundary: the error it carries, or the one made of it. -/
def caught [DecidableEq ι] (t : ι) (other : Seen A O (ε t) T) (x : Thrown ε X) : Seen A O (ε t) T :=
  match x.as t with
  | some e => fail e
  | none => other

end Seen

/-- The hand-written meaning of a function: steps in order, the first failure ends it, and a
bridge passes it on in the way of the caller. -/
def Fn.reference [DecidableEq ι] : {s : Style ι} → {T : Type} → Fn ε X A O S s T →
    Seen A O (s.Failure ε X) T
  | _, _, .ret v => pure v
  | _, _, .step a rest => do
    Seen.emit (.step a)
    rest.reference
  | _, _, .own x rest => Seen.bracket x rest.reference
  | .results t, _, .fail e => Seen.fail (E := ε t) e
  | .results t, _, .tryName _ c callee rest => do
    let v ← (Seen.convert c.apply callee.reference : Seen A O (ε t) _)
    (rest v).reference
  | .expects t, _, .unexpected e => Seen.fail (E := ε t) e
  | .expects _, _, .whenExpected callee rest => do
    let v ← callee.reference
    (rest v).reference
  | .optional, _, .nullopt => Seen.fail ()
  | .throwing, _, .throw x => Seen.fail x
  | .throwing, _, .call callee rest => do
    let v ← callee.reference
    (rest v).reference
  | .throwing, _, .handle callee handler =>
    Seen.recover callee.reference fun x => (handler x).reference
  | .throwing, _, .valueOrThrow callee => Seen.convert (.carrier _) callee.reference
  | .results t, _, .catchIntoResult callee makeError =>
    Seen.recover callee.reference (Seen.caught t (Seen.made makeError.reference))
  | .expects _, _, .toExpected callee => callee.reference
  | .results _, _, .fromExpected callee => callee.reference
  | .results t, _, .fromOptional callee onEmpty =>
    (Seen.convert (fun _ => onEmpty) callee.reference : Seen A O (ε t) _)

end Jmpxx.Bridges
