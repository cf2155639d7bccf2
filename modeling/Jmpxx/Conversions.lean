import Mathlib.Tactic.Common
import Mathlib.Data.Nat.Notation

namespace Jmpxx.Conversions

/-- Types with their cv-reference qualifiers removed. -/
inductive Ty where
  | void
  | bool
  | inPlace
  | failure (err : Ty)
  | result (value err : Ty)
  | other (n : ℕ)
  deriving DecidableEq, Repr

inductive Category where
  | lvalue
  | constLvalue
  | rvalue
  deriving DecidableEq, Repr

/-- An argument expression: its type and its value category. -/
structure Arg where
  ty : Ty
  category : Category
  deriving DecidableEq, Repr

inductive Val where
  | unit
  | bool (b : Bool)
  | inPlace
  | failure (err : Val)
  | success (v : Val)
  | failed (e : Val)
  | other (n : ℕ)
  deriving DecidableEq, Repr

namespace Val

def isFailed : Val → Bool
  | failed _ => true
  | _ => false

def HasType : Val → Ty → Prop
  | unit, .void => True
  | bool _, .bool => True
  | inPlace, .inPlace => True
  | failure e, .failure E => e.HasType E
  | success v, .result T _ => v.HasType T
  | failed e, .result _ E => e.HasType E
  | other _, .other _ => True
  | _, _ => False

theorem eq_inPlace_of_hasType {v : Val} (h : v.HasType .inPlace) : v = inPlace := by
  cases v <;> first | rfl | exact h.elim

theorem eq_unit_of_hasType {v : Val} (h : v.HasType .void) : v = unit := by
  cases v <;> first | rfl | exact h.elim

theorem exists_hasType (ty : Ty) : ∃ v : Val, v.HasType ty := by
  induction ty with
  | void => exact ⟨unit, trivial⟩
  | bool => exact ⟨bool true, trivial⟩
  | inPlace => exact ⟨inPlace, trivial⟩
  | failure err ih =>
    obtain ⟨e, he⟩ := ih
    exact ⟨failure e, he⟩
  | result value err _ ih =>
    obtain ⟨e, he⟩ := ih
    exact ⟨failed e, he⟩
  | other n => exact ⟨other n, trivial⟩

end Val

/-- What a program's types answer to the traits `result` asks about. -/
structure Traits where
  constructible : Ty → Arg → Bool
  construct : Ty → Arg → Val → Val
  defaultConstructible : Ty → Bool
  defaultValue : Ty → Val
  copyConstructible : Ty → Bool
  moveConstructible : Ty → Bool
  copyAssignable : Ty → Bool
  moveAssignable : Ty → Bool

variable (tr : Traits)

/-- `std::is_constructible_v<V, U>`. A result constructs a bool through its own explicit
`operator bool`, which direct initialization may use. -/
def constructible (V : Ty) (U : Arg) : Bool :=
  match V, U.ty with
  | .bool, .result _ _ => true
  | _, _ => tr.constructible V U

def construct (V : Ty) (U : Arg) (u : Val) : Val :=
  match V, U.ty with
  | .bool, .result _ _ => .bool (!u.isFailed)
  | _, _ => if U.ty = V then u else tr.construct V U u

def isFailure : Ty → Bool
  | .failure _ => true
  | _ => false

/-- The constructors of `result` that take one argument. -/
inductive Ctor where
  | value
  | inPlace
  | failureConst (err : Ty)
  | failureMove (err : Ty)
  | copy
  | move
  deriving DecidableEq, Repr

/-- The constructor template whose `requires` clause is under the value constructor. -/
def valueViable (T E : Ty) (U : Arg) : Bool :=
  T ≠ .void && constructible tr T U && U.ty ≠ .result T E && U.ty ≠ .inPlace && !isFailure U.ty

/-- The constructor of `result<T, E>` that `U` selects: no two of the kinds below take one
argument type, and between two of a kind an rvalue prefers the rvalue overload. -/
def select (T E : Ty) (U : Arg) : Option Ctor :=
  match U.ty with
  | .failure E2 =>
    if U.category = .rvalue ∧ constructible tr E ⟨E2, .rvalue⟩ then some (.failureMove E2)
    else if constructible tr E ⟨E2, .constLvalue⟩ then some (.failureConst E2)
    else none
  | .inPlace => if tr.defaultConstructible T then some .inPlace else none
  | ty =>
    if ty = .result T E then
      if U.category = .rvalue ∧ tr.moveConstructible ty then some .move
      else if tr.copyConstructible ty then some .copy
      else none
    else if valueViable tr T E U then some .value
    else none

def errorOf : Val → Val
  | .failure e => e
  | v => v

def Ctor.apply (T E : Ty) (U : Arg) (u : Val) : Ctor → Val
  | .value => .success (construct tr T U u)
  | .inPlace => .success (if T = .inPlace then .inPlace else tr.defaultValue T)
  | .failureConst E2 => .failed (construct tr E ⟨E2, .constLvalue⟩ (errorOf u))
  | .failureMove E2 => .failed (construct tr E ⟨E2, .rvalue⟩ (errorOf u))
  | .copy => u
  | .move => u

/-- `result<T, E>(u)`; `none` does not compile. -/
def convert (T E : Ty) (U : Arg) (u : Val) : Option Val :=
  (select tr T E U).map (Ctor.apply tr T E U u)

/-- `r = u` for a `result<T, E>` named `r`: a failure and a bare value are each built into a
temporary that is move-assigned. -/
def assign (T E : Ty) (U : Arg) (u : Val) : Option Val :=
  match U.ty with
  | .failure E2 =>
    if tr.moveAssignable (.result T E) then
      -- where `operator=(failure<E2>)` is not viable the failure converts to the operand
      if constructible tr E ⟨E2, .rvalue⟩ then convert tr T E ⟨.failure E2, .rvalue⟩ u
      else convert tr T E U u
    else none
  | ty =>
    if ty = .result T E then
      if U.category = .rvalue ∧ tr.moveAssignable ty ∨ tr.copyAssignable ty then some u else none
    else if T ≠ .void && constructible tr T U && tr.moveAssignable (.result T E) then
      some (.success (construct tr T U u))
    else none

/-- `transform(g)` on a result: the call `g(val_)` has type and category `R`, and its value
initializes a result of that type. -/
def transform (E : Ty) (R : Arg) (g : Val → Val) : Val → Option Val
  | .success v => if R.ty = .void then some (.success .unit) else convert tr R.ty E R (g v)
  | .failed e => convert tr R.ty E ⟨.failure E, .rvalue⟩ (.failure e)
  | _ => none

def KeepsFailure (T E U E2 : Ty) (c : Category) : Prop :=
  ∀ e w, e.HasType E2 →
    convert tr T E ⟨.result U E2, c⟩ (.failed e) = some w ∨
      assign tr T E ⟨.result U E2, c⟩ (.failed e) = some w →
    w.isFailed = true

/-- A success transformed is a success that holds exactly what the callable returned. -/
def KeepsReturned (E : Ty) (R : Arg) : Prop :=
  ∀ g v w, (g v).HasType R.ty → transform tr E R g (.success v) = some w → w = .success (g v)

/-- An argument of type `failure<X>` selects a constructor of the error. -/
def TakenForFailure (E : Ty) (R : Arg) : Prop :=
  ∃ X, R.ty = .failure X ∧
    (R.category = .rvalue ∧ constructible tr E ⟨X, .rvalue⟩ = true ∨
      constructible tr E ⟨X, .constLvalue⟩ = true)

variable {tr}

/-- A result of another instantiation has the value constructor only. -/
theorem select_result {T E U E2 : Ty} {c : Category} (hne : Ty.result U E2 ≠ .result T E) :
    select tr T E ⟨.result U E2, c⟩ =
      if T ≠ .void && constructible tr T ⟨.result U E2, c⟩ then some .value else none := by
  simp [select, valueViable, isFailure, hne]

theorem convert_result {T E U E2 : Ty} {c : Category} (hne : Ty.result U E2 ≠ .result T E)
    (hT : T ≠ .void) (hc : constructible tr T ⟨.result U E2, c⟩ = true) (u : Val) :
    convert tr T E ⟨.result U E2, c⟩ u = some (.success (construct tr T ⟨.result U E2, c⟩ u)) := by
  simp [convert, select_result hne, hT, hc, Ctor.apply]

theorem convert_eq_none {T E U E2 : Ty} {c : Category} (hne : Ty.result U E2 ≠ .result T E)
    (h : T = .void ∨ constructible tr T ⟨.result U E2, c⟩ = false) (u : Val) :
    convert tr T E ⟨.result U E2, c⟩ u = none := by
  have : (T ≠ .void && constructible tr T ⟨.result U E2, c⟩) = false := by
    rcases h with h | h <;> simp [h]
  simp only [convert, select_result hne, this, Bool.false_eq_true, if_false, Option.map_none]

theorem assign_eq_none {T E U E2 : Ty} {c : Category} (hne : Ty.result U E2 ≠ .result T E)
    (h : T = .void ∨ constructible tr T ⟨.result U E2, c⟩ = false) (u : Val) :
    assign tr T E ⟨.result U E2, c⟩ u = none := by
  have : (T ≠ .void && constructible tr T ⟨.result U E2, c⟩) = false := by
    rcases h with h | h <;> simp [h]
  simp only [assign, if_neg hne, this, Bool.false_and, Bool.false_eq_true, if_false]

theorem keepsFailure_iff {T E U E2 : Ty} {c : Category} (hne : Ty.result U E2 ≠ .result T E) :
    KeepsFailure tr T E U E2 c ↔
      T = .void ∨ constructible tr T ⟨.result U E2, c⟩ = false := by
  constructor
  · intro h
    by_contra hn
    simp only [not_or, Bool.not_eq_false] at hn
    obtain ⟨e, he⟩ := Val.exists_hasType E2
    have := h e _ he (.inl (convert_result hne hn.1 hn.2 (.failed e)))
    simp [Val.isFailed] at this
  · intro h e w _ hw
    simp [convert_eq_none hne h, assign_eq_none hne h] at hw

theorem construct_self (R : Arg) (v : Val) : construct tr R.ty R v = v := by
  obtain ⟨ty, c⟩ := R
  cases ty <;> simp [construct]

theorem ne_result_self (T E : Ty) : T ≠ .result T E := fun h => by
  have := congrArg sizeOf h
  simp only [Ty.result.sizeOf_spec] at this
  omega

/-- The value of a type other than `failure` initializes a result of that type by the value
constructor, and an `in_place_t` by the one for the tag. -/
theorem convert_self {E : Ty} {R : Arg} {v w : Val} (hf : isFailure R.ty = false)
    (hv : v.HasType R.ty) (h : convert tr R.ty E R v = some w) : w = .success v := by
  have hsel : ∀ c, select tr R.ty E R = some c → c = .value ∨ c = .inPlace ∧ R.ty = .inPlace := by
    intro c hc
    unfold select at hc
    split at hc
    next X hX => simp [hX, isFailure] at hf
    next hX => exact .inr ⟨by split_ifs at hc; exact (Option.some.inj hc).symm, hX⟩
    next => 
      rw [if_neg (ne_result_self _ _)] at hc
      split_ifs at hc
      exact .inl (Option.some.inj hc).symm
  obtain ⟨c, hc, rfl⟩ := Option.map_eq_some_iff.mp h
  rcases hsel c hc with rfl | ⟨rfl, hR⟩
  · simp [Ctor.apply, construct_self]
  · rw [hR] at hv
    simp [Ctor.apply, hR, Val.eq_inPlace_of_hasType hv]

theorem convert_failure {T E X : Ty} {c : Category} {u w : Val}
    (h : convert tr T E ⟨.failure X, c⟩ u = some w) : w.isFailed = true := by
  obtain ⟨k, hk, rfl⟩ := Option.map_eq_some_iff.mp h
  simp only [select] at hk
  split_ifs at hk <;> rw [← Option.some.inj hk] <;> rfl

theorem convert_failure_isSome {T E X : Ty} {c : Category} (u : Val) :
    (convert tr T E ⟨.failure X, c⟩ u).isSome = true ↔ TakenForFailure tr E ⟨.failure X, c⟩ := by
  simp only [convert, Option.isSome_map, select, TakenForFailure, Ty.failure.injEq]
  split_ifs with h₁ h₂ <;> simp_all

theorem keepsReturned_iff {E : Ty} {R : Arg} :
    KeepsReturned tr E R ↔ ¬ TakenForFailure tr E R := by
  constructor
  · intro h hf
    obtain ⟨v, hv⟩ := Val.exists_hasType R.ty
    obtain ⟨X, hX, -⟩ := id hf
    obtain ⟨ty, c⟩ := R
    subst hX
    obtain ⟨w, hw⟩ := Option.isSome_iff_exists.mp ((convert_failure_isSome v).mpr hf)
    have hs := h (fun _ => v) v w hv (by simpa [transform] using hw)
    simpa [hs, Val.isFailed] using convert_failure hw
  · intro hf g v w hv hw
    simp only [transform] at hw
    split_ifs at hw with hvoid
    · rw [hvoid] at hv
      rw [Val.eq_unit_of_hasType hv, ← Option.some.inj hw]
    · cases hR : isFailure R.ty with
      | false => exact convert_self hR hv hw
      | true =>
        obtain ⟨ty, c⟩ := R
        cases ty with
        | failure X =>
          exact absurd ((convert_failure_isSome (g v)).mp (Option.isSome_of_eq_some hw)) hf
        | _ => cases hR

/-- A result of another instantiation is accepted only through its `operator bool` or through
a value the target's type makes of it, so a failure is kept just where it is not accepted at
all. And `transform` keeps what its callable returns unless that is a failure the error can
be made from. -/
theorem keeps_outcome_iff {T E U E2 : Ty} (c : Category) (F : Ty) (R : Arg)
    (hne : Ty.result U E2 ≠ .result T E) :
    (KeepsFailure tr T E U E2 c ↔ T = .void ∨ constructible tr T ⟨.result U E2, c⟩ = false) ∧
    (KeepsReturned tr F R ↔ ¬ TakenForFailure tr F R) :=
  ⟨keepsFailure_iff hne, keepsReturned_iff⟩

def plain : Traits where
  constructible V U := V = U.ty
  construct _ _ u := u
  defaultConstructible _ := true
  defaultValue _ := .other 0
  copyConstructible _ := true
  moveConstructible _ := true
  copyAssignable _ := true
  moveAssignable _ := true

theorem keeps_outcome_bool_from_int :
    let int := Ty.other 0
    let error := Ty.other 1
    (KeepsFailure plain .bool error int error .rvalue ↔
      Ty.bool = .void ∨ constructible plain .bool ⟨.result int error, .rvalue⟩ = false) ∧
    (KeepsReturned plain error ⟨int, .rvalue⟩ ↔ ¬ TakenForFailure plain error ⟨int, .rvalue⟩) :=
  keeps_outcome_iff .rvalue (.other 1) ⟨.other 0, .rvalue⟩ (by decide)

/-- A failed `result<int, error>` makes a `result<bool, error>` that succeeds with `false`, by
construction and by assignment, and a callable that returns a `failure<error>` turns a
success into a failure. -/
theorem outcome_changed_by_bool_and_failure :
    let int := Ty.other 0
    let error := Ty.other 1
    let source := ⟨.result int error, .rvalue⟩
    convert plain .bool error source (.failed (.other 7)) = some (.success (.bool false)) ∧
    assign plain .bool error source (.failed (.other 7)) = some (.success (.bool false)) ∧
    transform plain error ⟨.failure error, .rvalue⟩ (fun _ => .failure (.other 7))
      (.success (.other 1)) = some (.failed (.other 7)) := by
  decide

end Jmpxx.Conversions
