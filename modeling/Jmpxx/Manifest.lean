import Jmpxx.Throwing
import Mathlib.Data.Vector.Basic

namespace Jmpxx.Manifest

open Throwing

inductive Fault where
  | manifestTruncated
  | headerBad
  | versionUnsupported
  | entryMalformed
  | implausibleLength
  | digestMismatch
  | referenceMissing
  | referenceCycle
  | nestingTooDeep
  | digestUnavailable
  deriving DecidableEq, Repr

def Fault.code : Fault → UInt32
  | manifestTruncated => 1
  | headerBad => 2
  | versionUnsupported => 3
  | entryMalformed => 4
  | implausibleLength => 5
  | digestMismatch => 6
  | referenceMissing => 7
  | referenceCycle => 8
  | nestingTooDeep => 9
  | digestUnavailable => 10

abbrev maxDepth : ℕ := 6

abbrev maxName : ℕ := 24

abbrev maxImageBytes : ℕ := 1048576

abbrev digestBytes : ℕ := 32

inductive Width where
  | bits32
  | bits64
  deriving DecidableEq, Repr

def Width.bits : Width → ℕ
  | bits32 => 32
  | bits64 => 64

/-- Arithmetic on `size_t`. -/
def Width.wrap (w : Width) (n : ℕ) : ℕ := n % 2 ^ w.bits

/-- What the normal world handed in; no object has more bytes than half the address space. -/
structure Buffer (w : Width) where
  bytes : List UInt8
  size_lt : bytes.length < 2 ^ (w.bits - 1)

variable {w : Width}

def Buffer.size (buf : Buffer w) : ℕ := buf.bytes.length

/-- A `const uint8_t*`: into the buffer, or at a literal of the program. -/
inductive Pointer where
  | input (offset : ℕ)
  | literal (bytes : List UInt8)
  deriving DecidableEq, Repr

structure PathEntry where
  name : Pointer
  len : ℕ
  deriving DecidableEq, Repr

/-- The globals of the trusted application, the error the active landing's carrier holds, and
what the kit has seen: how often this invocation asked for an operation, how many operations
were ever allocated, and which were freed. -/
structure Instance where
  faultName : Vector UInt8 (maxName + 1)
  entriesVerified : ℕ
  deepest : ℕ
  path : Vector PathEntry (maxDepth + 1)
  pathLen : ℤ
  payload : Option (Fault × ℕ)
  attempts : ℕ
  allocated : ℕ
  freed : List ℕ

/-- The kit: whether each allocation of an operation succeeds, and the digest. -/
structure Kit where
  allocates : ℕ → Bool
  sha256 : List UInt8 → Vector UInt8 digestBytes

abbrev Run := Comp Instance

/-- `p[i]`; outside what `p` points into it is undefined. -/
def byteAt (buf : Buffer w) : Pointer → ℕ → Run UInt8
  | .input offset, i => require fun _ => buf.bytes[offset + i]?
  | .literal bytes, i => require fun _ => bytes[i]?

/-- `reader`, over a buffer that its functions are given beside it. -/
structure Reader where
  pos : ℕ
  deriving DecidableEq, Repr

namespace Reader

def has (buf : Buffer w) (r : Reader) (n : ℕ) : Bool := w.wrap (r.pos + n) ≤ buf.size

def seek (p : ℕ) : Reader := ⟨p⟩

def u8 (buf : Buffer w) (r : Reader) : Run (UInt8 × Reader) := do
  let b ← byteAt buf (.input 0) r.pos
  pure (b, ⟨w.wrap (r.pos + 1)⟩)

def u32 (buf : Buffer w) (r : Reader) : Run (UInt32 × Reader) := do
  let b0 ← byteAt buf (.input 0) r.pos
  let b1 ← byteAt buf (.input 0) (w.wrap (r.pos + 1))
  let b2 ← byteAt buf (.input 0) (w.wrap (r.pos + 2))
  let b3 ← byteAt buf (.input 0) (w.wrap (r.pos + 3))
  let v := b0.toUInt32 ||| (b1.toUInt32 <<< 8) ||| (b2.toUInt32 <<< 16) ||| (b3.toUInt32 <<< 24)
  pure (v, ⟨w.wrap (r.pos + 4)⟩)

def pointer (r : Reader) : Pointer := .input r.pos

def skip (w : Width) (r : Reader) (n : ℕ) : Reader := ⟨w.wrap (r.pos + n)⟩

end Reader

def setName (i : ℕ) (b : UInt8) : Run Unit := fun s =>
  if h : i < maxName + 1 then (.ok (), { s with faultName := s.faultName.set i b }) else (.fault, s)

def noteName (buf : Buffer w) (name : Pointer) (len : ℕ) : Run Unit := do
  let n := if len < maxName then len else maxName
  forBelow
    (fun i => do
      let b ← byteAt buf name i
      setName i b)
    n
  setName n 0

/-- `fail`: the error goes into the carrier, and the escape begins. -/
def fail {α : Type} (buf : Buffer w) (f : Fault) (name : Pointer) (len depth : ℕ) : Run α := do
  noteName buf name len
  modify fun s => { s with payload := some (f, depth) }
  raise

def noOperation : Pointer := .literal [100, 105, 103, 101, 115, 116]

/-- `digest(depth)`; the handle of the operation. -/
def digestConstructor (kit : Kit) (buf : Buffer w) (depth : ℕ) : Run ℕ := fun s =>
  let asked := { s with attempts := s.attempts + 1 }
  if kit.allocates s.attempts then
    (.ok s.allocated, { asked with allocated := s.allocated + 1 })
  else fail buf .digestUnavailable noOperation 6 depth asked

def digestDestructor (op : ℕ) : Run Unit := modify fun s => { s with freed := op :: s.freed }

def sameBytes (buf : Buffer w) (p q : Pointer) (n : ℕ) : Run Bool :=
  allBelow
    (fun i => do
      let a ← byteAt buf p i
      let b ← byteAt buf q i
      pure (a == b))
    n

def sameName (buf : Buffer w) (a : PathEntry) (name : Pointer) (len : ℕ) : Run Bool :=
  if a.len ≠ len then pure false else sameBytes buf a.name name len

/-- `g_path[i]`. -/
def pathSlot (i : ℕ) : Run PathEntry := require fun s => s.path[i]?

/-- `g_path[g_path_len++] = e`. -/
def pushPath (e : PathEntry) : Run Unit := fun s =>
  if h : s.pathLen.toNat < maxDepth + 1 ∧ 0 ≤ s.pathLen then
    (.ok (), { s with path := s.path.set s.pathLen.toNat e, pathLen := s.pathLen + 1 })
  else (.fault, s)

/-- `visiting(name, len, depth)`. -/
def visitingConstructor (buf : Buffer w) (name : Pointer) (len depth : ℕ) : Run Unit := do
  let pathLen ← require fun s => some s.pathLen
  forBelow
    (fun i => do
      let e ← pathSlot i
      let same ← sameName buf e name len
      onlyIf same (fail buf .referenceCycle name len depth))
    pathLen.toNat
  onlyIf (pathLen > maxDepth) (fail buf .nestingTooDeep name len depth)
  pushPath ⟨name, len⟩

def visitingDestructor : Run Unit := modify fun s => { s with pathLen := s.pathLen - 1 }

/-- The turns of `find_entry`'s loop: the offset of the body, if the name is found. -/
def findFrom (buf : Buffer w) (want : Pointer) (wantLen : ℕ) : ℕ → Reader → Run (Option ℕ)
  | 0, _ => pure none
  | n + 1, r => do
    if !r.has buf 1 then pure none else do
    let (nameLen, r) ← r.u8 buf
    if !r.has buf nameLen.toNat then pure none else do
    let name := r.pointer
    let r := r.skip w nameLen.toNat
    let body := r.pos
    if !r.has buf (4 + digestBytes + 1) then pure none else do
    let (length, r) ← r.u32 buf
    let r := r.skip w digestBytes
    let (refLen, r) ← r.u8 buf
    if !r.has buf refLen.toNat then pure none else do
    let r := r.skip w refLen.toNat
    if !r.has buf length.toNat then pure none else do
    let r := r.skip w length.toNat
    if nameLen.toNat = wantLen then do
      let found ← sameBytes buf name want wantLen
      if found then pure (some body) else findFrom buf want wantLen n r
    else findFrom buf want wantLen n r

def findEntry (buf : Buffer w) (want : Pointer) (wantLen : ℕ) : Run (Option ℕ) := do
  let r : Reader := ⟨0⟩
  if !r.has buf 6 then pure none else do
  let r := r.skip w 4
  let (_, r) ← r.u8 buf
  let (count, r) ← r.u8 buf
  findFrom buf want wantLen count.toNat r

/-- The bytes `hash.update(p, n)` feeds to the digest. -/
def readBytes (buf : Buffer w) : Pointer → ℕ → Run (List UInt8)
  | .input offset, n => require fun _ =>
    if offset + n ≤ buf.size then some ((buf.bytes.drop offset).take n) else none
  | .literal bytes, n => require fun _ => if n ≤ bytes.length then some (bytes.take n) else none

/-- `verify_entry`, with fuel for its recursion: running out of it is going wrong. -/
def verifyEntry (kit : Kit) (buf : Buffer w) : ℕ → Pointer → ℕ → ℕ → ℕ → Run Unit
  | 0, _, _, _, _ => wrong
  | fuel + 1, name, nameLen, body, depth => do
    modify fun s => { s with deepest := max depth s.deepest }
    visitingConstructor buf name nameLen depth
    cleanup
      (do
        let hash ← digestConstructor kit buf depth
        cleanup
          (do
            let r := Reader.seek body
            onlyIf (!r.has buf (4 + digestBytes + 1))
              (fail buf .manifestTruncated name nameLen depth)
            let (length, r) ← r.u32 buf
            let expected := r.pointer
            let r := r.skip w digestBytes
            let (refLen, r) ← r.u8 buf
            onlyIf (!r.has buf refLen.toNat) (fail buf .manifestTruncated name nameLen depth)
            let ref := r.pointer
            let r := r.skip w refLen.toNat
            onlyIf (length.toNat = 0 ∨ length.toNat > maxImageBytes)
              (fail buf .implausibleLength name nameLen depth)
            onlyIf (refLen ≠ 0) (do
              let target ← findEntry buf ref refLen.toNat
              match target with
              | none => fail buf .referenceMissing ref refLen.toNat depth
              | some offset => verifyEntry kit buf fuel ref refLen.toNat offset (depth + 1))
            onlyIf (!r.has buf length.toNat) (fail buf .manifestTruncated name nameLen depth)
            let image ← readBytes buf r.pointer length.toNat
            let actual := kit.sha256 image
            forBelow
              (fun i => do
                let e ← byteAt buf expected i
                onlyIf (actual[i]? ≠ some e) (fail buf .digestMismatch name nameLen depth))
              digestBytes
            modify fun s => { s with entriesVerified := s.entriesVerified + 1 })
          (digestDestructor hash))
      visitingDestructor

def root : Pointer := .literal [114, 111, 111, 116]

def magic : List UInt8 := [77, 70, 83, 84]

/-- The body of `verify_manifest`'s landing. -/
def verifyRoot (kit : Kit) (buf : Buffer w) (fuel : ℕ) : Run ℕ := do
  let r : Reader := ⟨0⟩
  onlyIf (!r.has buf 6) (fail buf .manifestTruncated root 4 0)
  let good ← sameBytes buf r.pointer (.literal magic) 4
  let r := r.skip w 4
  onlyIf (!good) (fail buf .headerBad root 4 0)
  let (version, r) ← r.u8 buf
  onlyIf (version ≠ 1) (fail buf .versionUnsupported root 4 0)
  let (count, r) ← r.u8 buf
  onlyIf (count = 0) (fail buf .entryMalformed root 4 0)
  onlyIf (!r.has buf 1) (fail buf .manifestTruncated root 4 0)
  let (firstLen, r) ← r.u8 buf
  onlyIf (firstLen = 0 ∨ !r.has buf firstLen.toNat) (fail buf .entryMalformed root 4 0)
  let first := r.pointer
  let r := r.skip w firstLen.toNat
  verifyEntry kit buf fuel first firstLen.toNat r.pos 0
  require fun s => some s.entriesVerified

/-- `escape_scope`: an escape below it is the error its carrier then holds. -/
def escapeScope {α : Type} (body : Run α) : Run (Except (Fault × ℕ) α) := fun s =>
  match body { s with payload := none } with
  | (.ok a, s') => (.ok (.ok a), s')
  | (.thrown, s') =>
    match s'.payload with
    | some e => (.ok (.error e), s')
    | none => (.fault, s')
  | (.fault, s') => (.fault, s')

/-- Enough for a path that fills every slot, and the call that finds it full. -/
abbrev enough : ℕ := maxDepth + 2

def verifyManifest (kit : Kit) (buf : Buffer w) (fuel : ℕ) : Run (Except (Fault × ℕ) ℕ) := do
  setName 0 0
  modify fun s => { s with entriesVerified := 0, deepest := 0 }
  escapeScope (verifyRoot kit buf fuel)

end Jmpxx.Manifest
