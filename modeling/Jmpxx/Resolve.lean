import Jmpxx.Search
import Jmpxx.Throwing
import Mathlib.Data.Finset.Basic

namespace Jmpxx.Resolve

open Throwing

/-- A `std::string`. -/
abbrev Text := List UInt8

inductive Kind where
  | missing
  | cycle
  | tooDeep
  | malformed
  deriving DecidableEq, Repr

def Kind.code : Kind → ℤ
  | missing => 1
  | cycle => 2
  | tooDeep => 3
  | malformed => 4

abbrev maxDepth : ℕ := 64

def opening : Text := [36, 123]

def closing : Text := [125]

/-- The members of a `resolver` that change, and the error the carrier of its landing holds. -/
structure Resolver where
  resolving : Finset Text
  errorKey : Text
  payload : Option (Kind × ℕ)
  deriving DecidableEq

/-- `explicit resolver(values)`. -/
def Resolver.fresh : Resolver := ⟨∅, [], none⟩

abbrev Run := Comp Resolver

/-- `text.find(pat, pos)`. -/
def findFrom (pat text : Text) (pos : ℕ) : Option ℕ :=
  (Search.find pat (text.drop pos)).map (pos + ·)

def substr (text : Text) (pos n : ℕ) : Text := (text.drop pos).take n

variable {α : Type}

def ejectWith (k : Kind) (key : Text) (depth : ℕ) : Run α := do
  modify fun s => { s with errorKey := key }
  modify fun s => { s with payload := some (k, depth) }
  raise

theorem le_of_findFrom {pat text : Text} {pos i : ℕ} (h : findFrom pat text pos = some i) :
    pos ≤ i := by
  obtain ⟨k, _, rfl⟩ := Option.map_eq_some_iff.mp h
  exact Nat.le_add_right pos k

/-- The turns of `interpolate`'s loop from position `i`, with `out` so far. -/
def interpolateFrom (resolve : Text → Run Text) (text : Text) (depth i : ℕ) (out : Text) :
    Run Text :=
  if _hi : i < text.length then
    match _hopen : findFrom opening text i with
    | none => pure (out ++ text.drop i)
    | some first =>
      let out := out ++ substr text i (first - i)
      match _hclose : findFrom closing text (first + 2) with
      | none => ejectWith .malformed text depth
      | some close => do
        let ref := substr text (first + 2) (close - (first + 2))
        let value ← resolve ref
        interpolateFrom resolve text depth (close + 1) (out ++ value)
  else pure out
termination_by text.length - i
decreasing_by
  have hfirst := le_of_findFrom _hopen
  have hlast := le_of_findFrom _hclose
  omega

def interpolate (resolve : Text → Run Text) (text : Text) (depth : ℕ) : Run Text :=
  interpolateFrom resolve text depth 0 []

/-- `resolve`; the keys on the way are marked while the value of `key` is put together. -/
def resolve (values : Text → Option Text) (key : Text) (depth : ℕ) : Run Text :=
  if _hdepth : depth > maxDepth then ejectWith .tooDeep key depth
  else do
    let resolving ← require fun s => some s.resolving
    onlyIf (key ∈ resolving) (ejectWith .cycle key depth)
    modify fun s => { s with resolving := insert key s.resolving }
    cleanup
      (match values key with
        | none => ejectWith .missing key depth
        | some raw => interpolate (fun ref => resolve values ref (depth + 1)) raw depth)
      (modify fun s => { s with resolving := s.resolving.erase key })
termination_by maxDepth + 1 - depth

/-- `escape_scope`: an escape below it is the error its carrier then holds. -/
def escapeScope (body : Run α) : Run (Except (Kind × ℕ) α) := fun s =>
  match body { s with payload := none } with
  | (.ok a, s') => (.ok (.ok a), s')
  | (.thrown, s') =>
    match s'.payload with
    | some e => (.ok (.error e), s')
    | none => (.fault, s')
  | (.fault, s') => (.fault, s')

def resolveKey (values : Text → Option Text) (key : Text) : Run (Except (Kind × ℕ) Text) :=
  escapeScope (resolve values key 0)

/-- The resolver after these calls, the latest first, unless one of them did not end. -/
def resolverAfter (values : Text → Option Text) : List Text → Option Resolver
  | [] => some .fresh
  | key :: earlier => do
    let s ← resolverAfter values earlier
    match resolveKey values key s with
    | (.ok _, s') => some s'
    | _ => none

end Jmpxx.Resolve
