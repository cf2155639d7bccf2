import Jmpxx.Bridges
import Jmpxx.DecodeBoundary
import Jmpxx.Policies
import Jmpxx.ReflectMessage
import Jmpxx.TransportVariants
import Mathlib.Data.Fin.VecNotation
import Mathlib.Logic.Equiv.Defs

namespace Jmpxx.Adversarial

open Throwing Diagnostic Reflect
open Interop (CategoryTable)
open Policies (ErasedError Program)
open Propagation (Result)

/-- What a `result<int, error>` stores. -/
inductive Payload where
  | int (v : Int32)
  | error (e : Error)
  deriving DecidableEq, Repr

/-- `int` and `error`: nothing throws, a move is a copy, and their result is trivial. -/
def plainTypes : Transport.Env Payload where
  throws _ := false
  torn _ := .int 0
  moved c := c
  make cs := cs.headD (.int 0)
  trivCopyCtor := true
  trivMoveCtor := true
  trivCopyAssign := true
  trivMoveAssign := true

/-- `enum class fuzz_status { ok = 0, denied = 3, timeout = 7 };` -/
def fuzzStatus : Enumeration (.signed 32) where
  enumerators :=
    [⟨"ok".toList, .ofInt _ 0⟩, ⟨"denied".toList, .ofInt _ 3⟩, ⟨"timeout".toList, .ofInt _ 7⟩]
  identifiers := by decide
  distinct := by decide

section Spelling

def typeMarker : Text := ['T', ' ', '=', ' ']

def typeSpelling (compiler : Compiler) (p : Text) : Text :=
  match compiler with
  | .msvc =>
    let last := (Search.rfind closing p).getD p.length
    let start := past (Search.rfind opening (p.take (last + 1))) 1
    Search.afterLast separator (stripKeyword ((p.drop start).take (last - start)))
  | .gnu =>
    let m := Search.find typeMarker p
    Search.afterLast separator ((p.drop (past m 4)).takeWhile (!isStop ·))

/-- What a compiler prints on either side of a type. -/
structure TypeFrame (compiler : Compiler) where
  before : Text
  after : Text
  bracketed : match compiler with
    | .gnu => Search.find typeMarker (before ++ typeMarker) = some before.length ∧
      ∃ c ∈ after.head?, isStop c
    | .msvc => '(' ∉ after

def TypeFrame.signature {compiler : Compiler} (f : TypeFrame compiler) (text : Text) : Text :=
  match compiler with
  | .gnu => f.before ++ typeMarker ++ (text ++ f.after)
  | .msvc => f.before ++ opening ++ (text ++ (closing ++ f.after))

def typeText : Compiler → Text
  | .gnu => "adversarial::fuzz_status".toList
  | .msvc => "enum adversarial::fuzz_status".toList

end Spelling

/-- Where the metadata of `fuzz_status` comes from: static reflection, or what a compiler prints. -/
inductive Metadata where
  | reflection
  | fallback (compiler : Compiler) (printer : Printer compiler fuzzStatus)
    (scope_eq : printer.scope = "adversarial::fuzz_status::".toList) (type : TypeFrame compiler)

def Metadata.typeName : Metadata → Text
  | reflection => "fuzz_status".toList
  | fallback compiler _ _ type => typeSpelling compiler (type.signature (typeText compiler))

/-- `reflected_domain<fuzz_status>::message`; `none` is an overflow. -/
def Metadata.message : Metadata → ℤ → Option Text
  | reflection, v => some (Reflection.message fuzzStatus v)
  | fallback _ printer _ _, v => Checked.message printer.spelling .default v

/-- The switches the driver is compiled with. -/
structure Build where
  diagnostics : Bool
  expected : Bool
  injectDefect : Bool
  metadata : Metadata

/-- The descriptors the driver's erased errors point at. -/
inductive Domain where
  | generic
  | component
  | fuzzStatus
  deriving DecidableEq, Repr

def Domain.name (b : Build) : Domain → Text
  | generic => "jmpxx.generic".toList
  | component => "adversarial.component".toList
  | fuzzStatus => b.metadata.typeName

def Domain.message (b : Build) : Domain → Int32 → Option Text
  | generic, _ => some "unspecified error".toList
  | component, v => some (if v = 5 then "five".toList else "component error".toList)
  | fuzzStatus, v => b.metadata.message v.toInt

/-- What the language leaves to the compiler, at each place of the source: the order in which the
four bytes of an integer are taken, and which of two arguments is evaluated first. -/
structure Order where
  bytes : ℕ → Equiv.Perm (Fin 4)
  secondFirst : ℕ → Bool

/-- Where the driver creates failures and notes hops. -/
structure Sites (L : Type) where
  leaf : L
  inA : L
  inB : L
  inChain : L
  rich : L
  note : L
  overflow : L

/-- The driver's process: what is left of the input, the results in scope, the thread's store, the
table of categories, and what the process was ended for. -/
structure Process (L : Type) where
  input : List UInt8
  results : Transport.World Payload
  store : Store L
  table : CategoryTable
  rejected : Option String

def Process.initial {L : Type} [Inhabited L] : Process L := ⟨[], .initial, .initial, .initial, none⟩

/-- A part of the driver; it throws nothing, and leaves only with the process. -/
abbrev Drive (L : Type) := Comp (Process L)

variable {L : Type} {α : Type}

def reject (reason : String) : Drive L α := do
  modify fun s => { s with rejected := some reason }
  raise

section Bytes

def take : Drive L UInt8 := do
  let input ← require fun s => some s.input
  match input with
  | [] => pure 0
  | b :: rest => do
    modify fun s => { s with input := rest }
    pure b

/-- `bytes::take_int`, where the byte `i` is the `order i`-th one taken. -/
def takeInt (order : Equiv.Perm (Fin 4)) : Drive L Int32 := do
  let b0 ← take
  let b1 ← take
  let b2 ← take
  let b3 ← take
  let byte i := ![b0, b1, b2, b3] (order i)
  pure (Boundary.word (byte 0) (byte 1) (byte 2) (byte 3)).toInt32

def magic (data : List UInt8) : Bool := [74, 77, 80, 88].isPrefixOf data

def takeError (order : Order) (place : ℕ) : Drive L Error :=
  if order.secondFirst place then do
    let domain ← take
    let code ← takeInt (order.bytes place)
    pure ⟨code, Int32.ofNat (domain.toNat % 17)⟩
  else do
    let code ← takeInt (order.bytes place)
    let domain ← take
    pure ⟨code, Int32.ofNat (domain.toNat % 17)⟩

end Bytes

section Results

def perform (op : Transport.Op Payload) : Drive L Unit := do
  let results ← require fun s =>
    if s.results.admits op then Transport.step plainTypes (some s.results) op else none
  modify fun s => { s with results }

def hasValue (r : ℕ) : Drive L Bool := require fun s => s.results.has (.named r)

def value (r : ℕ) : Drive L Int32 := require fun s =>
  match s.results.find (.alt (.named r)) .value with
  | some ⟨_, .int v⟩ => some v
  | _ => none

def error (r : ℕ) : Drive L Error := require fun s =>
  match s.results.find (.alt (.named r)) .error with
  | some ⟨_, .error e⟩ => some e
  | _ => none

structure ModelResult where
  hasValue : Bool
  value : Int32
  err : Error
  deriving DecidableEq, Repr

def compare (r : ℕ) (m : ModelResult) : Drive L Unit := do
  let has ← hasValue r
  onlyIf (has ≠ m.hasValue) (reject "transport oracle state diverged")
  if m.hasValue then do
    let v ← value r
    onlyIf (v ≠ m.value) (reject "transport oracle value diverged")
  else do
    let e ← error r
    onlyIf (e ≠ m.err) (reject "transport oracle error diverged")

def valueOr (r : ℕ) (alt : Int32) : Drive L Int32 := do
  let has ← hasValue r
  if has then value r else pure alt

def errorOr (r : ℕ) (alt : Error) : Drive L Error := do
  let has ← hasValue r
  if has then pure alt else error r

def transform (l r : ℕ) (f : Int32 → Int32) : Drive L Unit := do
  let has ← hasValue r
  if has then do
    let v ← value r
    perform (.value l (.own (.int (f v))))
  else do
    let e ← error r
    perform (.failure l (.own (.error e)))

def orElse (l r : ℕ) (f : Error → Int32) : Drive L Unit := do
  let has ← hasValue r
  if has then perform (.inPlace l [.into r false])
  else do
    let e ← error r
    perform (.value l (.own (.int (f e))))

def wrappedAdd (a b : Int32) : Int32 := (a.toUInt32 + b.toUInt32).toInt32

abbrev r : ℕ := 0

abbrev declared : ℕ := 1

def turn (order : Order) (m : ModelResult) : Drive L ModelResult := do
  let b ← take
  match b.toNat % 10 with
  | 0 => do
    let v ← takeInt (order.bytes 0)
    perform (.assignValue r (.own (.int v)))
    pure ⟨true, v, ⟨0, 0⟩⟩
  | 1 => do
    let e ← takeError order 1
    perform (.assignFailure r (.error e) none)
    pure ⟨false, 0, e⟩
  | 2 => do
    perform (.copy declared r)
    compare declared m
    perform (.copyAssign r declared)
    perform (.destroy declared)
    pure m
  | 3 => do
    perform (.move declared r)
    compare declared m
    perform (.copyAssign r declared)
    perform (.destroy declared)
    pure m
  | 4 => do
    let v ← takeInt (order.bytes 4)
    perform (.value declared (.own (.int v)))
    perform (.copyAssign r declared)
    let other ← value declared
    perform (.destroy declared)
    pure ⟨true, other, ⟨0, 0⟩⟩
  | 5 => do
    let e ← takeError order 5
    perform (.failure declared (.own (.error e)))
    perform (.copyAssign r declared)
    perform (.destroy declared)
    pure ⟨false, 0, e⟩
  | 6 => do
    let fallback ← takeInt (order.bytes 6)
    let got ← valueOr r fallback
    let want := if m.hasValue then m.value else fallback
    onlyIf (got ≠ want) (reject "value_or diverged from oracle")
    pure m
  | 7 => do
    let fallback ← takeError order 7
    let got ← errorOr r fallback
    let want := if m.hasValue then fallback else m.err
    onlyIf (got ≠ want) (reject "error_or diverged from oracle")
    pure m
  | 8 => do
    transform declared r fun v => wrappedAdd v 1
    compare declared
      (if m.hasValue then ⟨true, wrappedAdd m.value 1, ⟨0, 0⟩⟩ else ⟨false, 0, m.err⟩)
    perform (.destroy declared)
    pure m
  | _ => do
    orElse declared r fun e => wrappedAdd e.code e.domain
    compare declared
      (if m.hasValue then m else ⟨true, wrappedAdd m.err.code m.err.domain, ⟨0, 0⟩⟩)
    perform (.destroy declared)
    pure m

def turns (order : Order) : ℕ → ModelResult → Drive L Unit
  | 0, _ => pure ()
  | n + 1, m => do
    let m ← turn order m
    compare r m
    turns order n m

def exerciseTransport (order : Order) : Drive L Unit := do
  perform (.value r (.own (.int 0)))
  turns order 128 ⟨true, 0, ⟨0, 0⟩⟩
  perform (.destroy r)

end Results

section Diagnostics

variable (sites : Sites L)

def diagLeaf (x : Int32) : Program L 0 Int32 :=
  if x < 0 then .create 11 4 sites.leaf (.fail 0) else .ret x

def diagA (x : Int32) : Program L 0 Int32 :=
  .tryName (diagLeaf sites x) sites.inA fun v => .ret (v + 1)

def diagB (x : Int32) : Program L 0 Int32 :=
  .tryName (diagA sites x) sites.inB fun v => .ret (v + 1)

def diagChain (x : Int32) : Program L 0 Int32 :=
  .tryName (diagB sites x) sites.inChain fun v => .ret (v + 1)

def richError (code domain : Int32) (loc : L) : Drive L RichError := do
  let opened ← require fun s => some (s.store.openRecord loc)
  modify fun s => { s with store := opened.2 }
  pure ⟨code, domain, opened.1⟩

def inspected (e : RichError) : Drive L (Option (Context L)) :=
  require fun s => some (inspect s.store e)

/-- The checks of `exercise_diagnostics`, under the landing it opens. -/
def diagnose : Drive L Unit := do
  let bad ← require fun s =>
    some ((diagChain sites (-1)).run (Policies.richOn L) Fin.elim0 s.store)
  modify fun s => { s with store := bad.state }
  onlyIf bad.result.hasValue (reject "diagnostic chain unexpectedly succeeded")
  let e ← require fun _ => bad.result.assumeError
  let c ← inspected e
  onlyIf (c.all fun c => c.hops.length ≠ 3) (reject "diagnostic chain did not capture each hop")
  let e ← richError 77 9 sites.rich
  let b ← take
  forBelow (fun _ => modify fun s => { s with store := notePropagation s.store e sites.note })
    (Diagnostic.maxChain + b.toNat % 8 + 1)
  let full ← inspected e
  onlyIf (full.all fun c => !c.hopsTruncated || c.hops.length ≠ Diagnostic.maxChain)
    (reject "diagnostic hop truncation failed")
  forBelow
    (fun i => do
      let _ ← richError (Int32.ofNat i) 3 sites.overflow)
    (maxInflight + 4)

def exerciseDiagnostics (b : Build) : Drive L Unit :=
  onlyIf b.diagnostics do
    let mark ← require fun s => some s.store.mark
    diagnose sites
    modify fun s => { s with store := s.store.truncate mark }

end Diagnostics

section Erased

def inDomain (e : ErasedError Domain) (d : Domain) : Bool := e.domain = d

def asErased (st : Value (.signed 32)) : ErasedError Domain :=
  ⟨Int32.ofInt st.toInt, .fuzzStatus⟩

def exerciseErasedAndReflect (b : Build) (order : Order) : Drive L Unit := do
  let custom : ErasedError Domain := ⟨5, .component⟩
  onlyIf (!inDomain custom .component || inDomain custom .generic)
    (reject "erased domain identity failed")
  let text ← require fun _ => custom.domain.message b custom.value
  onlyIf (custom.domain.name b ≠ "adversarial.component".toList ∨ text ≠ "five".toList)
    (reject "erased domain dispatch failed")
  let first ← takeInt (order.bytes 10)
  let second ← takeInt (order.bytes 11)
  let folded : ErasedError Domain :=
    if order.secondFirst 10 then ⟨Policies.foldGenericError second first, .generic⟩
    else ⟨Policies.foldGenericError first second, .generic⟩
  onlyIf (!inDomain folded .generic) (reject "generic erased fold left the generic domain")
  let b' ← take
  let st : Value (.signed 32) := if b' &&& 1 ≠ 0 then .ofInt _ 7 else .ofInt _ 3
  let reflected := asErased st
  onlyIf (reflected.domain.name b ≠ "fuzz_status".toList)
    (reject "reflection-derived domain name changed")
  onlyIf (st = .ofInt _ 7) do
    let text ← require fun _ => reflected.domain.message b reflected.value
    onlyIf (text ≠ "timeout".toList) (reject "reflection-derived enumerator message changed")

end Erased

section Interop

def called {R : Type} (m : Bridges.Exec Empty Empty Empty Unit R Empty Unit) : Drive L R :=
  require fun _ =>
    match (m ⟨[], ()⟩).1 with
    | .exit (.returned v) => some v
    | _ => none

def viaExpected (x : Result Int32 Error) : Drive L (Result Int32 Error) := do
  let e ← called (Bridges.toExpected x)
  called (Bridges.fromExpected e)

def toErrorCode (e : Error) : Drive L Interop.ErrorCode := do
  let converted ← require fun s => some (s.table.toErrorCode e)
  modify fun s => { s with table := converted.2 }
  pure converted.1

/-- What becomes of a record that the boundary accepted. -/
def exerciseAccepted (b : Build) (w : Boundary.WireError) : Drive L Unit := do
  let e : Error := ⟨w.code, w.domain⟩
  let ec ← toErrorCode e
  let known ← require fun s => some (s.table.isJmpxx ec)
  let back ← require fun s => some (s.table.fromErrorCode ec)
  onlyIf (!known ∨ back ≠ e) (reject "std::error_code round-trip diverged")
  onlyIf b.expected do
    let rv ← viaExpected (.value w.code)
    let v ← require fun _ => rv.assumeValue
    onlyIf (v ≠ w.code) (reject "std::expected value round-trip diverged")
    let re ← viaExpected (Result.ofFailure .move (Propagation.fail e))
    let e' ← require fun _ => re.assumeError
    onlyIf (e' ≠ e) (reject "std::expected error round-trip diverged")

def exerciseDecoded (b : Build) : Result Boundary.WireError Error → Drive L Unit
  | .value w => exerciseAccepted b w
  | .error e => do
    let ec ← toErrorCode e
    let _ ← require fun s => some (s.table.fromErrorCode ec)

def takeOptional (order : Order) : Drive L (Option Int32) := do
  let b ← take
  if b &&& 1 ≠ 0 then do
    let number ← takeInt (order.bytes 12)
    pure (some number)
  else pure none

def exerciseOptional (maybe : Option Int32) : Drive L Unit := do
  let adapted ← called (Bridges.fromOptional maybe (⟨71, 0⟩ : Error))
  match maybe with
  | some expected =>
    onlyIf (adapted.assumeValue ≠ some expected) (reject "optional adapter value diverged")
  | none =>
    onlyIf (adapted.assumeError.all (·.code ≠ 71)) (reject "optional adapter failure diverged")

def exerciseInterop (b : Build) (order : Order) (data : List UInt8) : Drive L Unit := do
  let decoded ← require fun _ => Boundary.decode data data.length
  exerciseDecoded b decoded
  let maybe ← takeOptional order
  exerciseOptional maybe

end Interop

variable (b : Build) (order : Order) (sites : Sites L)

def exercise (data : List UInt8) : Drive L Unit := do
  modify fun s => { s with input := data }
  onlyIf (b.injectDefect && magic data) (reject "injected fuzz defect reached")
  exerciseTransport order
  exerciseDiagnostics sites b
  exerciseErasedAndReflect b order
  exerciseInterop b order data

/-- What a fuzz engine does with the driver: one input after another in one process. -/
def fuzz : List (List UInt8) → Drive L Unit
  | [] => pure ()
  | data :: inputs => do
    exercise b order sites data
    fuzz inputs

end Jmpxx.Adversarial
