import Jmpxx.Conversions
import Jmpxx.Throwing

namespace Jmpxx.Monadic

open Conversions Throwing

/-- What a combinator hands its callable: a reference to the alternative, or nothing for a void
value. What a callable does to the alternative through it is part of what it does to the
world, as no combinator reads the alternative again. -/
abbrev Passed := Option (Category × Val)

variable {W : Type} (tr : Traits)

/-- `f(val_)`, or `f()` when the value is void. -/
def passed (T : Ty) (c : Category) (v : Val) : Passed := if T = .void then none else some (c, v)

/-- `has_ ? onValue : onError`. -/
def byState (onValue onError : Val → Comp W Val) : Val → Comp W Val
  | .success v => onValue v
  | .failed e => onError e
  | _ => fun w => (.fault, w)

/-- Whether `fail(err_)`, or `fail(detail::move(err_))` in an rvalue overload, compiles. -/
def fails (E : Ty) (c : Category) : Bool :=
  constructible tr E ⟨E, if c = .rvalue then .rvalue else .constLvalue⟩

/-- `result<U, E2>(fail(err_))`. -/
def failedWith (U E2 E : Ty) (c : Category) : Option (Val → Val) :=
  if fails tr E c then
    (select tr U E2 ⟨.failure E, .rvalue⟩).map fun ctor e =>
      ctor.apply tr U E2 ⟨.failure E, .rvalue⟩ (.failure e)
  else none

/-- `G(in_place, val_)`, or `G()` when the value is void, for a result `G` over `T2`. -/
def passedOn (T T2 : Ty) (c : Category) : Option (Val → Val) :=
  if T = .void then
    if T2 = .void then some fun _ => .success .unit else none
  else if T2 ≠ .void && constructible tr T2 ⟨T, c⟩ then
    some fun v => .success (construct tr T2 ⟨T, c⟩ v)
  else none

/-- `and_then(f)` in the overload for `c`, where `f` returns an `R`; `none` does not compile,
or `R` is no result. -/
def andThen (T E : Ty) (c : Category) (R : Ty) (f : Passed → Comp W Val) :
    Option (Val → Comp W Val) :=
  match R with
  | .result U E2 => do
    let failed ← failedWith tr U E2 E c
    some (byState (fun v => f (passed T c v)) fun e => pure (failed e))
  | _ => none

def transform (T E : Ty) (c : Category) (R : Ty) (f : Passed → Comp W Val) :
    Option (Val → Comp W Val) :=
  if R = .void then do
    let failed ← failedWith tr .void E E c
    some (byState
      (fun v => do
        let _ ← f (passed T c v)
        pure (.success .unit))
      fun e => pure (failed e))
  else do
    let ctor ← select tr R E ⟨R, .rvalue⟩
    let failed ← failedWith tr R E E c
    some (byState
      (fun v => do
        let u ← f (passed T c v)
        pure (ctor.apply tr R E ⟨R, .rvalue⟩ u))
      fun e => pure (failed e))

def orElse (T _E : Ty) (c : Category) (R : Ty) (f : Passed → Comp W Val) :
    Option (Val → Comp W Val) :=
  match R with
  | .result T2 _ => do
    let kept ← passedOn tr T T2 c
    some (byState (fun v => pure (kept v)) fun e => f (some (c, e)))
  | _ => none

def transformError (T _E : Ty) (c : Category) (G : Ty) (f : Passed → Comp W Val) :
    Option (Val → Comp W Val) := do
  let kept ← passedOn tr T T c
  let failed ← failedWith tr T G G .rvalue
  some (byState (fun v => pure (kept v)) fun e => do
    let g ← f (some (c, e))
    pure (failed g))

/-- A callable whose return type is neither a `failure` nor a reference. -/
structure Callable (W : Type) where
  ret : Ty
  call : Passed → Comp W Val
  notFailure : isFailure ret = false
  returns : ∀ p w v w', call p w = (.ok v, w') → v.HasType ret

def errorInto (E2 E : Ty) (e : Val) : Val :=
  construct tr E2 ⟨E, if constructible tr E2 ⟨E, .rvalue⟩ then .rvalue else .constLvalue⟩ e

def valueInto (T2 T : Ty) (c : Category) (v : Val) : Val :=
  if T = .void then .unit else construct tr T2 ⟨T, c⟩ v

/-- `[](auto&& v) { return result<T, E>(in_place, v); }`, or `result<void, E>()`. -/
def wrapValue : Passed → Comp W Val
  | none => pure (.success .unit)
  | some (_, v) => pure (.success v)

/-- `[](auto&& e) { return result<T, E>(fail(e)); }`. -/
def wrapError : Passed → Comp W Val
  | none => fun w => (.fault, w)
  | some (_, e) => pure (.failed e)

def thenValue (f : Passed → Comp W Val) (p : Passed) : Comp W Val := do
  let u ← f p
  pure (.success u)

def thenError (f : Passed → Comp W Val) (p : Passed) : Comp W Val := do
  let u ← f p
  pure (.failed u)

def logged (f : Passed → Comp W Val) (p : Passed) : Comp (W × List Passed) Val := fun s =>
  ((f p s.1).1, (f p s.1).2, s.2 ++ [p])

/-- `and_then` and `transform`. The two ways to associate differ only for an error that is
converted in two steps and in one. -/
structure ValueLaws (W : Type) (T E : Ty) (c : Category) : Prop where
  left_identity : ∀ (f : Callable W) k, andThen tr T E c f.ret f.call = some k →
    ∀ v, k (.success v) = f.call (passed T c v)
  right_identity : ∀ k : Val → Comp W Val, andThen tr T E c (.result T E) wrapValue = some k →
    ∀ r, r.HasType (.result T E) → k r = pure r
  assoc : ∀ (f g : Callable W) U E2 V E3 (c' : Category) k₁ k₂ k₃,
    f.ret = .result U E2 → g.ret = .result V E3 →
    andThen tr T E c f.ret f.call = some k₁ → andThen tr U E2 c' g.ret g.call = some k₂ →
    andThen tr T E c g.ret (fun p => f.call p >>= k₂) = some k₃ →
    ∀ r, r.HasType (.result T E) → (k₁ r >>= k₂ = k₃ r ↔
      ∀ e, r = .failed e → errorInto tr E3 E2 (errorInto tr E2 E e) = errorInto tr E3 E e)
  assoc_same : ∀ (f g : Callable W) U V (c' : Category) k₁ k₂ k₃,
    f.ret = .result U E → g.ret = .result V E →
    andThen tr T E c f.ret f.call = some k₁ → andThen tr U E c' g.ret g.call = some k₂ →
    andThen tr T E c g.ret (fun p => f.call p >>= k₂) = some k₃ →
    ∀ r, r.HasType (.result T E) → k₁ r >>= k₂ = k₃ r
  transform_eq : ∀ (f : Callable W) k, transform tr T E c f.ret f.call = some k →
    andThen tr T E c (.result f.ret E) (thenValue f.call) = some k
  error_passes : ∀ (f : Callable W) U E2 k, f.ret = .result U E2 →
    andThen tr T E c f.ret f.call = some k → ∀ e, k (.failed e) = pure (.failed (errorInto tr E2 E e))
  error_unchanged : ∀ (f : Callable W) k,
    (∃ U, f.ret = .result U E ∧ andThen tr T E c f.ret f.call = some k) ∨
      transform tr T E c f.ret f.call = some k → ∀ e, k (.failed e) = pure (.failed e)

/-- `or_else` and `transform_error`. -/
structure ErrorLaws (W : Type) (T E : Ty) (c : Category) : Prop where
  left_identity : ∀ (f : Callable W) k, orElse tr T E c f.ret f.call = some k →
    ∀ e, k (.failed e) = f.call (some (c, e))
  right_identity : ∀ k : Val → Comp W Val, orElse tr T E c (.result T E) wrapError = some k →
    ∀ r, r.HasType (.result T E) → k r = pure r
  assoc : ∀ (f g : Callable W) T2 E2 T3 E3 (c' : Category) k₁ k₂ k₃,
    f.ret = .result T2 E2 → g.ret = .result T3 E3 →
    orElse tr T E c f.ret f.call = some k₁ → orElse tr T2 E2 c' g.ret g.call = some k₂ →
    orElse tr T E c g.ret (fun p => f.call p >>= k₂) = some k₃ →
    ∀ r, r.HasType (.result T E) → (k₁ r >>= k₂ = k₃ r ↔
      ∀ v, r = .success v → valueInto tr T3 T2 c' (valueInto tr T2 T c v) = valueInto tr T3 T c v)
  assoc_same : ∀ (f g : Callable W) E2 E3 (c' : Category) k₁ k₂ k₃,
    f.ret = .result T E2 → g.ret = .result T E3 →
    orElse tr T E c f.ret f.call = some k₁ → orElse tr T E2 c' g.ret g.call = some k₂ →
    orElse tr T E c g.ret (fun p => f.call p >>= k₂) = some k₃ →
    ∀ r, r.HasType (.result T E) → k₁ r >>= k₂ = k₃ r
  transform_eq : ∀ (f : Callable W) k, transformError tr T E c f.ret f.call = some k →
    orElse tr T E c (.result T f.ret) (thenError f.call) = some k
  value_passes : ∀ (f : Callable W) T2 E2 k, f.ret = .result T2 E2 →
    orElse tr T E c f.ret f.call = some k →
    ∀ v, k (.success v) = pure (.success (valueInto tr T2 T c v))
  value_unchanged : ∀ (f : Callable W) k,
    (∃ E2, f.ret = .result T E2 ∧ orElse tr T E c f.ret f.call = some k) ∨
      transformError tr T E c f.ret f.call = some k →
    ∀ v, v.HasType T → k (.success v) = pure (.success v)

/-- The calls `counted` makes of the callable that `run` runs are those `calls` lists. -/
def Invokes (run : Val → Comp W Val) (counted : Val → Comp (W × List Passed) Val)
    (calls : Val → List Passed) : Prop :=
  ∀ r w l, counted r (w, l) = ((run r w).1, (run r w).2, l ++ calls r)

def callsOnValue (T : Ty) (c : Category) : Val → List Passed
  | .success v => [passed T c v]
  | _ => []

def callsOnError (c : Category) : Val → List Passed
  | .failed e => [some (c, e)]
  | _ => []

/-- Each combinator calls its callable once on the side it is for, and not at all on the
other. -/
structure Invocations (W : Type) (T E : Ty) (c : Category) : Prop where
  andThen : ∀ (f : Callable W) k, andThen tr T E c f.ret f.call = some k →
    ∃ k', Monadic.andThen tr T E c f.ret (logged f.call) = some k' ∧
      Invokes k k' (callsOnValue T c)
  transform : ∀ (f : Callable W) k, transform tr T E c f.ret f.call = some k →
    ∃ k', Monadic.transform tr T E c f.ret (logged f.call) = some k' ∧
      Invokes k k' (callsOnValue T c)
  orElse : ∀ (f : Callable W) k, orElse tr T E c f.ret f.call = some k →
    ∃ k', Monadic.orElse tr T E c f.ret (logged f.call) = some k' ∧ Invokes k k' (callsOnError c)
  transformError : ∀ (f : Callable W) k, transformError tr T E c f.ret f.call = some k →
    ∃ k', Monadic.transformError tr T E c f.ret (logged f.call) = some k' ∧
      Invokes k k' (callsOnError c)

variable {tr}

theorem errorInto_self (E : Ty) (e : Val) : errorInto tr E E e = e :=
  construct_self ⟨E, _⟩ e

theorem valueInto_self (T : Ty) (c : Category) {v : Val} (hv : v.HasType T) :
    valueInto tr T T c v = v := by
  unfold valueInto
  split_ifs with hT
  · subst hT
    exact (Val.eq_unit_of_hasType hv).symm
  · exact construct_self ⟨T, c⟩ v

theorem failedWith_eq {U E2 E : Ty} {c : Category} {failed : Val → Val}
    (h : failedWith tr U E2 E c = some failed) (e : Val) :
    failed e = .failed (errorInto tr E2 E e) := by
  unfold failedWith at h
  split_ifs at h
  obtain ⟨ctor, hctor, rfl⟩ := Option.map_eq_some_iff.mp h
  simp only [select, true_and] at hctor
  show ctor.apply tr U E2 ⟨.failure E, .rvalue⟩ (.failure e) = _
  unfold errorInto
  by_cases hmove : constructible tr E2 ⟨E, .rvalue⟩ = true
  · rw [if_pos hmove] at hctor ⊢
    rw [← Option.some.inj hctor]
    rfl
  · rw [if_neg hmove] at hctor ⊢
    split_ifs at hctor
    rw [← Option.some.inj hctor]
    rfl

theorem passedOn_eq {T T2 : Ty} {c : Category} {kept : Val → Val}
    (h : passedOn tr T T2 c = some kept) (v : Val) : kept v = .success (valueInto tr T2 T c v) := by
  unfold passedOn at h
  unfold valueInto
  split_ifs at h ⊢ <;> rw [← Option.some.inj h]

theorem andThen_eq {T E U E2 : Ty} {c : Category} {f : Passed → Comp W Val} {k : Val → Comp W Val}
    (h : andThen tr T E c (.result U E2) f = some k) :
    k = byState (fun v => f (passed T c v)) fun e => pure (.failed (errorInto tr E2 E e)) := by
  obtain ⟨failed, hfailed, hk⟩ := Option.bind_eq_some_iff.mp h
  rw [← Option.some.inj hk]
  simp only [failedWith_eq hfailed]

theorem orElse_eq {T E T2 E2 : Ty} {c : Category} {f : Passed → Comp W Val} {k : Val → Comp W Val}
    (h : orElse tr T E c (.result T2 E2) f = some k) :
    k = byState (fun v => pure (.success (valueInto tr T2 T c v))) fun e => f (some (c, e)) := by
  obtain ⟨kept, hkept, hk⟩ := Option.bind_eq_some_iff.mp h
  rw [← Option.some.inj hk]
  simp only [passedOn_eq hkept]

/-- A result holds one of the alternatives. -/
theorem hasType_result {T E : Ty} {r : Val} (h : r.HasType (.result T E)) :
    (∃ v, r = .success v ∧ v.HasType T) ∨ ∃ e, r = .failed e ∧ e.HasType E := by
  cases r with
  | success v => exact .inl ⟨v, rfl, h⟩
  | failed e => exact .inr ⟨e, rfl, h⟩
  | _ => exact h.elim

theorem wrapValue_passed (T : Ty) (c : Category) {v : Val} (hv : v.HasType T) :
    (wrapValue (passed T c v) : Comp W Val) = pure (.success v) := by
  unfold passed
  split_ifs with hT
  · subst hT
    rw [Val.eq_unit_of_hasType hv]
    rfl
  · rfl

theorem pure_inj [Inhabited W] {u v : Val} : (pure u : Comp W Val) = pure v ↔ u = v := by
  constructor
  · intro h
    have hrun := congrFun h default
    exact Outcome.ok.inj (congrArg Prod.fst hrun)
  · exact congrArg pure

/-- After a computation that returns only values of type `R`, steps that agree on those. -/
theorem bind_congr_of_returns {m : Comp W Val} {R : Ty} {g g' : Val → Comp W Val}
    (hm : ∀ w v w', m w = (.ok v, w') → v.HasType R) (hg : ∀ v, v.HasType R → g v = g' v) :
    m >>= g = m >>= g' := by
  funext w
  show Comp.bind m g w = Comp.bind m g' w
  unfold Comp.bind
  match hr : m w with
  | (.ok v, w') => exact congrFun (hg v (hm w v w' hr)) w'
  | (.thrown, w') => rfl
  | (.fault, w') => rfl

theorem andThen_success {T E R : Ty} {c : Category} {f : Passed → Comp W Val} {k : Val → Comp W Val}
    (h : andThen tr T E c R f = some k) (v : Val) : k (.success v) = f (passed T c v) := by
  cases R with
  | result U E2 =>
    rw [andThen_eq h]
    rfl
  | _ => simp [andThen] at h

theorem andThen_failed {T E U E2 : Ty} {c : Category} {f : Passed → Comp W Val}
    {k : Val → Comp W Val} (h : andThen tr T E c (.result U E2) f = some k) (e : Val) :
    k (.failed e) = pure (.failed (errorInto tr E2 E e)) := by
  rw [andThen_eq h]
  rfl

theorem orElse_failed {T E R : Ty} {c : Category} {f : Passed → Comp W Val} {k : Val → Comp W Val}
    (h : orElse tr T E c R f = some k) (e : Val) : k (.failed e) = f (some (c, e)) := by
  cases R with
  | result T2 E2 =>
    rw [orElse_eq h]
    rfl
  | _ => simp [orElse] at h

theorem orElse_success {T E T2 E2 : Ty} {c : Category} {f : Passed → Comp W Val}
    {k : Val → Comp W Val} (h : orElse tr T E c (.result T2 E2) f = some k) (v : Val) :
    k (.success v) = pure (.success (valueInto tr T2 T c v)) := by
  rw [orElse_eq h]
  rfl

theorem andThen_assoc [Inhabited W] {T E U E2 V E3 : Ty} {c c' : Category}
    {f g : Passed → Comp W Val} {k₁ k₂ k₃ : Val → Comp W Val}
    (h₁ : andThen tr T E c (.result U E2) f = some k₁)
    (h₂ : andThen tr U E2 c' (.result V E3) g = some k₂)
    (h₃ : andThen tr T E c (.result V E3) (fun p => f p >>= k₂) = some k₃) {r : Val}
    (hr : r.HasType (.result T E)) :
    k₁ r >>= k₂ = k₃ r ↔
      ∀ e, r = .failed e → errorInto tr E3 E2 (errorInto tr E2 E e) = errorInto tr E3 E e := by
  rcases hasType_result hr with ⟨v, rfl, -⟩ | ⟨e, rfl, -⟩
  · rw [andThen_success h₁, andThen_success h₃]
    simp only [reduceCtorEq, false_implies, implies_true]
  · rw [andThen_failed h₁, andThen_failed h₃, pure_bind, andThen_failed h₂, pure_inj]
    simp only [Val.failed.injEq, forall_eq']

theorem orElse_assoc [Inhabited W] {T E T2 E2 T3 E3 : Ty} {c c' : Category}
    {f g : Passed → Comp W Val} {k₁ k₂ k₃ : Val → Comp W Val}
    (h₁ : orElse tr T E c (.result T2 E2) f = some k₁)
    (h₂ : orElse tr T2 E2 c' (.result T3 E3) g = some k₂)
    (h₃ : orElse tr T E c (.result T3 E3) (fun p => f p >>= k₂) = some k₃) {r : Val}
    (hr : r.HasType (.result T E)) :
    k₁ r >>= k₂ = k₃ r ↔
      ∀ v, r = .success v → valueInto tr T3 T2 c' (valueInto tr T2 T c v) = valueInto tr T3 T c v := by
  rcases hasType_result hr with ⟨v, rfl, -⟩ | ⟨e, rfl, -⟩
  · rw [orElse_success h₁, orElse_success h₃, pure_bind, orElse_success h₂, pure_inj]
    simp only [Val.success.injEq, forall_eq']
  · rw [orElse_failed h₁, orElse_failed h₃]
    simp only [reduceCtorEq, false_implies, implies_true]

/-- The constructor that wraps what a callable returned keeps it as it is. -/
theorem wrap_returned {f : Callable W} {E : Ty} {ctor : Ctor}
    (hs : select tr f.ret E ⟨f.ret, .rvalue⟩ = some ctor) {u : Val} (hu : u.HasType f.ret) :
    ctor.apply tr f.ret E ⟨f.ret, .rvalue⟩ u = .success u := by
  apply @convert_self tr E ⟨f.ret, .rvalue⟩ u _ f.notFailure hu
  rw [convert, hs]
  rfl

theorem transform_eq_andThen {T E : Ty} {c : Category} {f : Callable W} {k : Val → Comp W Val}
    (h : transform tr T E c f.ret f.call = some k) :
    andThen tr T E c (.result f.ret E) (thenValue f.call) = some k := by
  unfold transform at h
  split_ifs at h with hR
  · obtain ⟨failed, hfailed, hk⟩ := Option.bind_eq_some_iff.mp h
    have hvalue : ∀ p, thenValue f.call p = (f.call p >>= fun _ => pure (Val.success .unit)) := by
      intro p
      apply bind_congr_of_returns (f.returns p)
      intro u hu
      rw [hR] at hu
      rw [Val.eq_unit_of_hasType hu]
    rw [← hk]
    simp only [andThen, hR, hfailed, hvalue]
    rfl
  · obtain ⟨ctor, hctor, h⟩ := Option.bind_eq_some_iff.mp h
    obtain ⟨failed, hfailed, hk⟩ := Option.bind_eq_some_iff.mp h
    have hvalue : ∀ p, thenValue f.call p =
        (f.call p >>= fun u => pure (ctor.apply tr f.ret E ⟨f.ret, .rvalue⟩ u)) := by
      intro p
      apply bind_congr_of_returns (f.returns p)
      intro u hu
      rw [wrap_returned hctor hu]
    rw [← hk]
    simp only [andThen, hfailed, hvalue]
    rfl

theorem transformError_eq_orElse {T E : Ty} {c : Category} {f : Callable W} {k : Val → Comp W Val}
    (h : transformError tr T E c f.ret f.call = some k) :
    orElse tr T E c (.result T f.ret) (thenError f.call) = some k := by
  obtain ⟨kept, hkept, h⟩ := Option.bind_eq_some_iff.mp h
  obtain ⟨failed, hfailed, hk⟩ := Option.bind_eq_some_iff.mp h
  have hwrap : ∀ u, failed u = .failed u := by
    intro u
    rw [failedWith_eq hfailed, errorInto_self]
  rw [← hk]
  simp only [orElse, hkept, hwrap]
  rfl

theorem valueLaws [Inhabited W] (T E : Ty) (c : Category) : ValueLaws tr W T E c where
  left_identity f k hk v := andThen_success hk v
  right_identity k hk r hr := by
    rcases hasType_result hr with ⟨v, rfl, hv⟩ | ⟨e, rfl, -⟩
    · rw [andThen_success hk, wrapValue_passed T c hv]
    · rw [andThen_failed hk, errorInto_self]
  assoc f g U E2 V E3 c' k₁ k₂ k₃ hf hg h₁ h₂ h₃ r hr := by
    rw [hf] at h₁
    rw [hg] at h₂ h₃
    exact andThen_assoc h₁ h₂ h₃ hr
  assoc_same f g U V c' k₁ k₂ k₃ hf hg h₁ h₂ h₃ r hr := by
    rw [hf] at h₁
    rw [hg] at h₂ h₃
    refine (andThen_assoc h₁ h₂ h₃ hr).mpr fun e _ => ?_
    rw [errorInto_self, errorInto_self]
  transform_eq f k hk := transform_eq_andThen hk
  error_passes f U E2 k hR hk e := by
    rw [hR] at hk
    exact andThen_failed hk e
  error_unchanged f k h e := by
    rcases h with ⟨U, hR, hk⟩ | hk
    · rw [hR] at hk
      rw [andThen_failed hk, errorInto_self]
    · rw [andThen_failed (transform_eq_andThen hk), errorInto_self]

theorem errorLaws [Inhabited W] (T E : Ty) (c : Category) : ErrorLaws tr W T E c where
  left_identity f k hk e := orElse_failed hk e
  right_identity k hk r hr := by
    rcases hasType_result hr with ⟨v, rfl, hv⟩ | ⟨e, rfl, -⟩
    · rw [orElse_success hk, valueInto_self T c hv]
    · rw [orElse_failed hk]
      rfl
  assoc f g T2 E2 T3 E3 c' k₁ k₂ k₃ hf hg h₁ h₂ h₃ r hr := by
    rw [hf] at h₁
    rw [hg] at h₂ h₃
    exact orElse_assoc h₁ h₂ h₃ hr
  assoc_same f g E2 E3 c' k₁ k₂ k₃ hf hg h₁ h₂ h₃ r hr := by
    rw [hf] at h₁
    rw [hg] at h₂ h₃
    refine (orElse_assoc h₁ h₂ h₃ hr).mpr fun v hv => ?_
    rw [hv] at hr
    rw [valueInto_self T c hr, valueInto_self T c' hr]
  transform_eq f k hk := transformError_eq_orElse hk
  value_passes f T2 E2 k hR hk v := by
    rw [hR] at hk
    exact orElse_success hk v
  value_unchanged f k h v hv := by
    rcases h with ⟨E2, hR, hk⟩ | hk
    · rw [hR] at hk
      rw [orElse_success hk, valueInto_self T c hv]
    · rw [orElse_success (transformError_eq_orElse hk), valueInto_self T c hv]

theorem logged_bind (f : Passed → Comp W Val) (p : Passed) (g : Val → Val) (w : W)
    (l : List Passed) :
    (logged f p >>= fun u => pure (g u)) (w, l) =
      (((f p >>= fun u => pure (g u)) w).1, ((f p >>= fun u => pure (g u)) w).2, l ++ [p]) := by
  show Comp.bind (logged f p) _ _ = ((Comp.bind (f p) _ w).1, (Comp.bind (f p) _ w).2, l ++ [p])
  simp only [Comp.bind, logged]
  rcases f p w with ⟨_ | _ | _, w'⟩ <;> rfl

theorem invokes_onValue {T : Ty} {c : Category} {onValue : Val → Comp W Val}
    {counted : Val → Comp (W × List Passed) Val} (failed : Val → Val)
    (h : ∀ v w l, counted v (w, l) = ((onValue v w).1, (onValue v w).2, l ++ [passed T c v])) :
    Invokes (byState onValue fun e => pure (failed e)) (byState counted fun e => pure (failed e))
      (callsOnValue T c) := by
  intro r w l
  cases r with
  | success v => exact h v w l
  | _ =>
    simp only [callsOnValue, List.append_nil]
    rfl

theorem invokes_onError {c : Category} {onError : Val → Comp W Val}
    {counted : Val → Comp (W × List Passed) Val} (kept : Val → Val)
    (h : ∀ e w l, counted e (w, l) = ((onError e w).1, (onError e w).2, l ++ [some (c, e)])) :
    Invokes (byState (fun v => pure (kept v)) onError) (byState (fun v => pure (kept v)) counted)
      (callsOnError c) := by
  intro r w l
  cases r with
  | failed e => exact h e w l
  | _ =>
    simp only [callsOnError, List.append_nil]
    rfl

theorem invocations (T E : Ty) (c : Category) : Invocations tr W T E c where
  andThen f k hk := by
    cases hR : f.ret with
    | result U E2 =>
      rw [hR] at hk
      obtain ⟨failed, hfailed, hk⟩ := Option.bind_eq_some_iff.mp hk
      refine ⟨_, by rw [Monadic.andThen, hfailed]; rfl, ?_⟩
      rw [← Option.some.inj hk]
      exact invokes_onValue failed fun _ _ _ => rfl
    | _ => simp [hR, Monadic.andThen] at hk
  transform f k hk := by
    unfold Monadic.transform at hk ⊢
    split_ifs at hk ⊢
    · obtain ⟨failed, hfailed, hk⟩ := Option.bind_eq_some_iff.mp hk
      refine ⟨_, by rw [hfailed]; rfl, ?_⟩
      rw [← Option.some.inj hk]
      exact invokes_onValue failed fun v w l => logged_bind f.call _ (fun _ => .success .unit) w l
    · obtain ⟨ctor, hctor, hk⟩ := Option.bind_eq_some_iff.mp hk
      obtain ⟨failed, hfailed, hk⟩ := Option.bind_eq_some_iff.mp hk
      refine ⟨_, by rw [hctor, hfailed]; rfl, ?_⟩
      rw [← Option.some.inj hk]
      exact invokes_onValue failed fun v w l => logged_bind f.call _ _ w l
  orElse f k hk := by
    cases hR : f.ret with
    | result T2 E2 =>
      rw [hR] at hk
      obtain ⟨kept, hkept, hk⟩ := Option.bind_eq_some_iff.mp hk
      refine ⟨_, by rw [Monadic.orElse, hkept]; rfl, ?_⟩
      rw [← Option.some.inj hk]
      exact invokes_onError kept fun _ _ _ => rfl
    | _ => simp [hR, Monadic.orElse] at hk
  transformError f k hk := by
    obtain ⟨kept, hkept, hk⟩ := Option.bind_eq_some_iff.mp hk
    obtain ⟨failed, hfailed, hk⟩ := Option.bind_eq_some_iff.mp hk
    refine ⟨_, by rw [Monadic.transformError, hkept, hfailed]; rfl, ?_⟩
    rw [← Option.some.inj hk]
    exact invokes_onError kept fun e w l => logged_bind f.call _ _ w l

/-- In every overload the combinators are lawful and call their callables once or not at all;
`and_then` and `or_else` associate where the alternative that passes is converted to the same
in two steps as in one, which it is when its type does not change. -/
theorem combinators_lawful [Inhabited W] (tr : Traits) (T E : Ty) (c : Category) :
    ValueLaws tr W T E c ∧ ErrorLaws tr W T E c ∧ Invocations tr W T E c :=
  ⟨valueLaws T E c, errorLaws T E c, invocations T E c⟩

def returning (R : Ty) (v : Val) (hR : isFailure R = false) (hv : v.HasType R) : Callable W where
  ret := R
  call _ := pure v
  notFailure := hR
  returns p w u w' h := by
    obtain rfl : v = u := Outcome.ok.inj (congrArg Prod.fst h)
    exact hv

/-- `int`, a second `int` and `unsigned char`, each made from any of them. -/
def narrowing : Traits where
  constructible _ _ := true
  construct V _ u :=
    match V, u with
    | .other 2, .other n => .other (n % 256)
    | _, u => u
  defaultConstructible _ := true
  defaultValue _ := .other 0
  copyConstructible _ := true
  moveConstructible _ := true
  copyAssignable _ := true
  moveAssignable _ := true

/-- A failure of `result<int, int>` that passes a callable returning `result<int, unsigned char>`
and then one returning `result<int, int>` is narrowed on the way; associated the other way it
is not. -/
theorem and_then_not_associative :
    let int := Ty.other 0
    let error := Ty.other 1
    let byte := Ty.other 2
    let f : Callable Unit := returning (.result int byte) (.success (.other 0)) rfl trivial
    let g : Callable Unit := returning (.result int error) (.success (.other 0)) rfl trivial
    let r := Val.failed (.other 300)
    (do
      let k₁ ← andThen narrowing int error .rvalue f.ret f.call
      let k₂ ← andThen narrowing int byte .rvalue g.ret g.call
      some ((k₁ r >>= k₂) ()).1) = some (.ok (.failed (.other 44))) ∧
    (do
      let k₂ ← andThen narrowing int byte .rvalue g.ret g.call
      let k₃ ← andThen narrowing int error .rvalue g.ret fun p => f.call p >>= k₂
      some (k₃ r ()).1) = some (.ok (.failed (.other 300))) :=
  ⟨rfl, rfl⟩

end Jmpxx.Monadic
