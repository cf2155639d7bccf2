import Jmpxx.Throwing
import Mathlib.Algebra.Order.Ring.Int

namespace Jmpxx.StoreCheck

open Throwing

abbrev Bytes := List UInt8

inductive Fault where
  | mountFailed
  | recordUnreadable
  | headerBad
  | versionUnsupported
  | fieldMalformed
  | checksumMismatch
  | referenceMissing
  | referenceCycle
  | nestingTooDeep
  deriving DecidableEq, Repr

def Fault.code : Fault → ℤ
  | mountFailed => 1
  | recordUnreadable => 2
  | headerBad => 3
  | versionUnsupported => 4
  | fieldMalformed => 5
  | checksumMismatch => 6
  | referenceMissing => 7
  | referenceCycle => 8
  | nestingTooDeep => 9

abbrev maxName : ℕ := 32

abbrev maxPath : ℕ := 8

abbrev bufSize : ℕ := 192

abbrev pathSize : ℕ := 64

abbrev newline : UInt8 := 10

abbrev equalsSign : UInt8 := 61

def magic : Bytes := [82, 67, 82, 68]

def version : UInt8 := 49

def sumKey : Bytes := [115, 117, 109, 61]

def refKey : Bytes := [114, 101, 102, 61]

def recordsDir : Bytes := [47, 114, 101, 99, 111, 114, 100, 115, 47]

section Library

def cStr (s : Bytes) : Bytes := s.takeWhile (· ≠ 0)

/-- `strchr`, as an offset into the string. -/
def strchr (s : Bytes) (c : UInt8) : Option ℕ := s.findIdx? (· == c)

def isSpace (c : UInt8) : Bool := c = 32 || (9 ≤ c && c ≤ 13)

def isDigit (c : UInt8) : Bool := 48 ≤ c && c ≤ 57

def decimalValue (digits : Bytes) : ℕ := digits.foldl (fun n c => 10 * n + (c.toNat - 48)) 0

/-- `strtol(s, nullptr, 10)`; a `long` of the board has 32 bits. -/
def strtol (s : Bytes) : ℤ :=
  let s := s.dropWhile isSpace
  let digits := (if s.head? = some 43 ∨ s.head? = some 45 then s.tail else s).takeWhile isDigit
  if s.head? = some 45 then max (-2 ^ 31) (-decimalValue digits)
  else min (2 ^ 31 - 1) (decimalValue digits)

def recordPath (name : Bytes) : Bytes := (recordsDir ++ name).take (pathSize - 1)

end Library

section Content

/-- The variables of `check_record`'s loop. -/
structure Fields where
  sum : ℕ
  ref : Option Bytes
  declared : ℤ
  deriving DecidableEq, Repr

/-- A line with this value, and this text from the value on. -/
def Fields.add (st : Fields) (line value fromValue : Bytes) : Fields :=
  if sumKey.isPrefixOf line then { st with declared := strtol fromValue }
  else if refKey.isPrefixOf line then { st with ref := some value }
  else { st with sum := (st.sum + (value.map UInt8.toNat).sum) % 2 ^ 32 }

/-- The turns of the loop from `line` on. -/
def fieldsFrom (line : Bytes) (st : Fields) : Except Fault Fields :=
  if _hline : line = [] then .ok st
  else
    let eol := strchr line newline
    let eq := strchr line equalsSign
    if eq = none ∨ (eol ≠ none ∧ eol.getD 0 < eq.getD 0) then .error .fieldMalformed
    else
      let fromValue := line.drop (eq.getD 0 + 1)
      let vlen := eol.getD line.length - (eq.getD 0 + 1)
      if ¬ sumKey.isPrefixOf line ∧ refKey.isPrefixOf line ∧ (vlen = 0 ∨ vlen ≥ maxName) then
        .error .fieldMalformed
      else if eol = none then .ok (st.add line (fromValue.take vlen) fromValue)
      else fieldsFrom (line.drop (eol.getD 0 + 1)) (st.add line (fromValue.take vlen) fromValue)
termination_by line.length
decreasing_by
  have hpos := List.length_pos_iff.mpr _hline
  rw [List.length_drop]
  omega

/-- What `check_record` makes of the bytes of a record: the record it refers to. -/
def checkContent (stored : Bytes) : Except Fault (Option Bytes) := do
  let buf := stored.take (bufSize - 1)
  if buf.length < 12 then .error .recordUnreadable
  else if ¬ magic.isPrefixOf buf then .error .headerBad
  else if buf[4]? ≠ some version then .error .versionUnsupported
  else
    let st ← fieldsFrom (cStr (buf.drop 6)) ⟨0, none, -1⟩
    if st.declared < 0 then .error .fieldMalformed
    else if (st.declared % 2 ^ 32).toNat ≠ st.sum then .error .checksumMismatch
    else .ok st.ref

end Content

/-- What is in the flash: whether it mounts, the files that open, what reading one returns, and the
paths that exist. -/
structure Image where
  mounts : Bool
  opens : Bytes → Bool
  content : Bytes → Option Bytes
  stat : Bytes → Bool

/-- The globals of the firmware, what littlefs was last told, the files it opened and the ones it
closed, and the error the carrier of the active landing holds. -/
structure Board where
  path : List Bytes
  recordsChecked : ℕ
  deepest : ℕ
  faultRecord : Bytes
  mounted : Bool
  opened : ℕ
  closed : List ℕ
  payload : Option (Fault × ℕ)
  deriving DecidableEq

def Board.fresh : Board := ⟨[], 0, 0, [], false, 0, [], none⟩

abbrev Run := Comp Board

section Walk

variable {α : Type}

def noteRecord (name : Bytes) : Run Unit :=
  modify fun s => { s with faultRecord := name.take (maxName - 1) }

def failWith (f : Fault) (record : Bytes) (depth : ℕ) : Run α := do
  noteRecord record
  modify fun s => { s with payload := some (f, depth) }
  raise

/-- A call of littlefs that needs a mounted filesystem. -/
def requireMounted : Run Unit := require fun s => if s.mounted then some () else none

/-- `open_file(path, record, depth)`; the file's number. -/
def openFileConstructor (image : Image) (path record : Bytes) (depth : ℕ) : Run ℕ := do
  requireMounted
  onlyIf (!image.opens path) (failWith .recordUnreadable record depth)
  let file ← require fun s => some s.opened
  modify fun s => { s with opened := s.opened + 1 }
  pure file

def openFileDestructor (file : ℕ) : Run Unit := do
  requireMounted
  modify fun s => { s with closed := file :: s.closed }

/-- `visiting(name, depth)`. -/
def visitingConstructor (name : Bytes) (depth : ℕ) : Run Unit := do
  let path ← require fun s => some s.path
  onlyIf (path.contains name) (failWith .referenceCycle name depth)
  onlyIf (path.length ≥ maxPath) (failWith .nestingTooDeep name depth)
  modify fun s => { s with path := s.path ++ [name] }

def visitingDestructor : Run Unit := do
  let path ← require fun s => if s.path = [] then none else some s.path
  modify fun s => { s with path := path.dropLast }

/-- The contents checked, or the fault they are left by. -/
def checked (name : Bytes) (depth : ℕ) : Except Fault (Option Bytes) → Run (Option Bytes)
  | .error f => failWith f name depth
  | .ok ref => pure ref

def readRecord (image : Image) (path name : Bytes) (depth : ℕ) : Run (Option Bytes) := do
  requireMounted
  checked name depth ((image.content path).elim (.error .recordUnreadable) checkContent)

/-- `check_record`, with fuel for its recursion: running out of it is going wrong. -/
def checkRecord (image : Image) : ℕ → Bytes → ℕ → Run Unit
  | 0, _, _ => wrong
  | fuel + 1, name, depth => do
    modify fun s => { s with deepest := max depth s.deepest }
    visitingConstructor name depth
    cleanup
      (do
        let file ← openFileConstructor image (recordPath name) name depth
        cleanup
          (do
            let ref ← readRecord image (recordPath name) name depth
            modify fun s => { s with recordsChecked := s.recordsChecked + 1 }
            ref.elim (pure ()) fun ref => do
              requireMounted
              onlyIf (!image.stat (recordPath ref)) (failWith .referenceMissing ref depth)
              checkRecord image fuel ref (depth + 1))
          (openFileDestructor file))
      visitingDestructor

/-- `escape_scope`: an escape below it is the error its carrier then holds. -/
def escapeScope (body : Run α) : Run (Except (Fault × ℕ) α) := fun s =>
  match body { s with payload := none } with
  | (.ok a, s') => (.ok (.ok a), s')
  | (.thrown, s') =>
    match s'.payload with
    | some e => (.ok (.error e), s')
    | none => (.fault, s')
  | (.fault, s') => (.fault, s')

/-- Enough for a path that fills every slot, and the call that finds it full. -/
abbrev enough : ℕ := maxPath + 1

/-- The body of `check_image`'s landing. -/
def checkMounted (image : Image) (entry : Bytes) : Run ℕ := do
  onlyIf (!image.mounts) (failWith .mountFailed entry 0)
  modify fun s => { s with mounted := true }
  modify fun s => { s with recordsChecked := 0 }
  modify fun s => { s with deepest := 0 }
  checkRecord image enough entry 0
  modify fun s => { s with mounted := false }
  require fun s => some s.recordsChecked

def checkImage (image : Image) (entry : Bytes) : Run (Except (Fault × ℕ) ℕ) :=
  escapeScope (checkMounted image entry)

end Walk

end Jmpxx.StoreCheck
