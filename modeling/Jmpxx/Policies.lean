import Jmpxx.ErrorCode
import Jmpxx.Propagation
import Jmpxx.RichError
import Mathlib.Data.Fin.Tuple.Basic

namespace Jmpxx.Policies

open Propagation Diagnostic

/-- What a build compiles diagnostics to: the calling thread's store, and what a landing
does to it on entry and on exit. -/
structure Build where
  State : Type
  Mark : Type
  mark : State → Mark
  truncate : State → Mark → State

def Build.off : Build := ⟨Unit, Unit, fun _ => (), fun s _ => s⟩

def Build.on (L : Type) : Build := ⟨Store L, ℤ, Store.mark, Store.truncate⟩

/-- An error type as a program that does not name it can use it: construction from a code and
a tag, `==`, and the overload of `note_propagation` the macros select. -/
structure Policy (b : Build) (L : Type) where
  Error : Type
  make : Int32 → Int32 → L → b.State → Error × b.State
  equal : Error → Error → Bool
  note : Error → L → b.State → b.State

variable {L : Type}

/-- `jmpxx::error`. -/
def minimal (b : Build) (L : Type) : Policy b L where
  Error := Jmpxx.Error
  make code domain _ s := (⟨code, domain⟩, s)
  equal e f := e.code = f.code && e.domain = f.domain
  note _ _ s := s

/-- `rich_error` where diagnostics are compiled out. -/
structure BareRichError where
  code : Int32
  domain : Int32
  deriving DecidableEq, Repr

def richOff (L : Type) : Policy .off L where
  Error := BareRichError
  make code domain _ s := (⟨code, domain⟩, s)
  equal a b := a.code = b.code && a.domain = b.domain
  note _ _ s := s

/-- `rich_error` with diagnostics on: every construction opens a record, and every hop on the
way adds to it; `==` does not look at the handle. -/
def richOn (L : Type) : Policy (.on L) L where
  Error := RichError
  make code domain loc s := (⟨code, domain, (s.openRecord loc).1⟩, (s.openRecord loc).2)
  equal a b := a.code = b.code && a.domain = b.domain
  note e loc s := notePropagation s e loc

def foldGenericError (code domainTag : Int32) : Int32 :=
  (code.toUInt32 ^^^ (domainTag.toUInt32 <<< 16)).toInt32

/-- `erased_error`; a descriptor is known by its address. -/
structure ErasedError (D : Type) where
  value : Int32
  domain : D

/-- `erased_error` constructed from a code and a tag, which is in the generic domain. -/
def erased {D : Type} [DecidableEq D] (genericDomain : D) (b : Build) (L : Type) : Policy b L where
  Error := ErasedError D
  make code tag _ s := (⟨foldGenericError code tag, genericDomain⟩, s)
  equal a b := a.domain = b.domain && a.value = b.value
  note _ _ s := s

/-- A function that returns a `result<T, E>` for an `E` it leaves open, with the functions it
calls; `n` errors are in hand. -/
inductive Program (L : Type) : ℕ → Type → Type 1 where
  | ret {n : ℕ} {T : Type} (v : T) : Program L n T
  | fail {n : ℕ} {T : Type} (e : Fin n) : Program L n T
  | create {n : ℕ} {T : Type} (code tag : UInt16) (loc : L) (rest : Program L (n + 1) T) :
    Program L n T
  | tryName {n : ℕ} {T U : Type} (callee : Program L n U) (site : L) (rest : U → Program L n T) :
    Program L n T
  | orElse {n : ℕ} {T : Type} (callee : Program L n T) (handler : Program L (n + 1) T) :
    Program L n T
  | valueOr {n : ℕ} {T U : Type} (callee : Program L n U) (alt : U) (rest : U → Program L n T) :
    Program L n T
  | landing {n : ℕ} {T : Type} (body : Program L n T) : Program L n T
  | ifEqual {n : ℕ} {T : Type} (i j : Fin n) (same other : Program L n T) : Program L n T

def small (x : UInt16) : Int32 := x.toUInt32.toInt32

/-- The errors in hand with one more, which takes the first place. -/
def withError {n : ℕ} {E : Type} (e : E) (env : Fin n → E) : Fin (n + 1) → E := Fin.cons e env

/-- How a call ends: the way each branch went, what it returned, and the thread's store. -/
structure Ending (S E T : Type) where
  branches : List Bool
  result : Result T E
  state : S

/-- The branches taken before what `o` records. -/
def Ending.after {S E T : Type} (branches : List Bool) (o : Ending S E T) : Ending S E T :=
  { o with branches := branches ++ o.branches }

def Program.run {b : Build} (P : Policy b L) :
    {n : ℕ} → {T : Type} → Program L n T → (Fin n → P.Error) → b.State → Ending b.State P.Error T
  | _, _, .ret v, _, s => ⟨[], .value v, s⟩
  | _, _, .fail e, env, s => ⟨[], .error (env e), s⟩
  | _, _, .create code tag loc rest, env, s =>
    let (e, s') := P.make (small code) (small tag) loc s
    rest.run P (withError e env) s'
  | _, _, .tryName callee site rest, env, s =>
    match callee.run P env s with
    | ⟨l, .value v, s'⟩ => ((rest v).run P env s').after (l ++ [true])
    | ⟨l, .error e, s'⟩ => ⟨l ++ [false], .error e, P.note e site s'⟩
  | _, _, .orElse callee handler, env, s =>
    match callee.run P env s with
    | ⟨l, .value v, s'⟩ => ⟨l ++ [true], .value v, s'⟩
    | ⟨l, .error e, s'⟩ => (handler.run P (withError e env) s').after (l ++ [false])
  | _, _, .valueOr callee alt rest, env, s =>
    match callee.run P env s with
    | ⟨l, .value v, s'⟩ => ((rest v).run P env s').after (l ++ [true])
    | ⟨l, .error _, s'⟩ => ((rest alt).run P env s').after (l ++ [false])
  | _, _, .landing body, env, s =>
    let o := body.run P env s
    { o with state := b.truncate o.state (b.mark s) }
  | _, _, .ifEqual i j same other, env, s =>
    if P.equal (env i) (env j) then (same.run P env s).after [true]
    else (other.run P env s).after [false]

/-- What a program means apart from any representation: errors are pairs, and nothing is
recorded. -/
def Program.meaning : {n : ℕ} → {T : Type} → Program L n T → (Fin n → UInt16 × UInt16) →
    List Bool × Result T (UInt16 × UInt16)
  | _, _, .ret v, _ => ([], .value v)
  | _, _, .fail e, env => ([], .error (env e))
  | _, _, .create code tag _ rest, env => rest.meaning (withError (code, tag) env)
  | _, _, .tryName callee _ rest, env =>
    match callee.meaning env with
    | (l, .value v) => (l ++ true :: ((rest v).meaning env).1, ((rest v).meaning env).2)
    | (l, .error e) => (l ++ [false], .error e)
  | _, _, .orElse callee handler, env =>
    match callee.meaning env with
    | (l, .value v) => (l ++ [true], .value v)
    | (l, .error e) =>
      let o := handler.meaning (withError e env)
      (l ++ false :: o.1, o.2)
  | _, _, .valueOr callee alt rest, env =>
    match callee.meaning env with
    | (l, .value v) => (l ++ true :: ((rest v).meaning env).1, ((rest v).meaning env).2)
    | (l, .error _) => (l ++ false :: ((rest alt).meaning env).1, ((rest alt).meaning env).2)
  | _, _, .landing body, env => body.meaning env
  | _, _, .ifEqual i j same other, env =>
    let o := if env i = env j then same.meaning env else other.meaning env
    (decide (env i = env j) :: o.1, o.2)

def Policy.Built {b : Build} (P : Policy b L) (e : P.Error) (pair : UInt16 × UInt16) : Prop :=
  ∃ loc s, (P.make (small pair.1) (small pair.2) loc s).1 = e

/-- The run took these branches and ended with this value, or with a failure built from this
pair. -/
def Ending.Shows {b : Build} {P : Policy b L} {T : Type} (o : Ending b.State P.Error T)
    (branches : List Bool) (result : Result T (UInt16 × UInt16)) : Prop :=
  o.branches = branches ∧
    match o.result, result with
    | .value v, .value w => v = w
    | .error e, .error pair => P.Built e pair
    | _, _ => False

/-- `==` tells errors built from different pairs apart, and no others. -/
def Policy.Separates {b : Build} (P : Policy b L) : Prop :=
  ∀ e f p q, P.Built e p → P.Built f q → P.equal e f = decide (p = q)

theorem Ending.Shows.after {b : Build} {P : Policy b L} {T : Type}
    {o : Ending b.State P.Error T} {l : List Bool} {result : Result T (UInt16 × UInt16)}
    (h : o.Shows l result) (l' : List Bool) (branch : Bool) :
    (o.after (l' ++ [branch])).Shows (l' ++ branch :: l) result := by
  refine ⟨?_, h.2⟩
  rw [Ending.after, h.1, List.append_assoc, List.singleton_append]

theorem built_withError {b : Build} {P : Policy b L} {n : ℕ} {e : P.Error} {pair : UInt16 × UInt16}
    {env : Fin n → P.Error} {pairs : Fin n → UInt16 × UInt16} (he : P.Built e pair)
    (henv : ∀ i, P.Built (env i) (pairs i)) (i : Fin (n + 1)) :
    P.Built (withError e env i) (withError pair pairs i) := by
  refine Fin.cases ?_ (fun j => ?_) i
  · exact he
  · exact henv j

/-- Whether a run returned a value is for what it shows to say. -/
theorem Ending.Shows.value_or_error {b : Build} {P : Policy b L} {T : Type}
    {o : Ending b.State P.Error T} {m : List Bool × Result T (UInt16 × UInt16)}
    (h : o.Shows m.1 m.2) :
    (∃ l v s, o = ⟨l, .value v, s⟩ ∧ m = (l, .value v)) ∨
      ∃ l e pair s, o = ⟨l, .error e, s⟩ ∧ m = (l, .error pair) ∧ P.Built e pair := by
  obtain ⟨branches, r, s⟩ := o
  obtain ⟨l, result⟩ := m
  obtain ⟨hl, hr⟩ := h
  obtain rfl : branches = l := hl
  cases r with
  | value v =>
    cases result with
    | value w => exact .inl ⟨branches, v, s, rfl, by rw [show v = w from hr]⟩
    | error pair => exact hr.elim
  | error e =>
    cases result with
    | value w => exact hr.elim
    | error pair => exact .inr ⟨branches, e, pair, s, rfl, rfl, hr⟩

/-- Under a representation that separates pairs a program runs as it means. -/
theorem Program.run_shows {b : Build} {P : Policy b L} (hP : P.Separates) {n : ℕ} {T : Type}
    (p : Program L n T) (env : Fin n → P.Error) (pairs : Fin n → UInt16 × UInt16)
    (henv : ∀ i, P.Built (env i) (pairs i)) (s : b.State) :
    (p.run P env s).Shows (p.meaning pairs).1 (p.meaning pairs).2 := by
  induction p generalizing s with
  | ret v => exact ⟨rfl, rfl⟩
  | fail e => exact ⟨rfl, henv e⟩
  | create code tag loc rest ih =>
    apply ih
    exact built_withError ⟨loc, s, rfl⟩ henv
  | tryName callee site rest ihc ih =>
    rcases (ihc env pairs henv s).value_or_error with
      ⟨l, v, s', ho, hm⟩ | ⟨l, e, pair, s', ho, hm, he⟩
    · have h := (ih v env pairs henv s').after l true
      simpa only [Program.run, ho, Program.meaning, hm] using h
    · simp only [Program.run, ho, Program.meaning, hm]
      exact ⟨rfl, he⟩
  | orElse callee handler ihc ih =>
    rcases (ihc env pairs henv s).value_or_error with
      ⟨l, v, s', ho, hm⟩ | ⟨l, e, pair, s', ho, hm, he⟩
    · simp only [Program.run, ho, Program.meaning, hm]
      exact ⟨rfl, rfl⟩
    · have h := (ih _ _ (built_withError he henv) s').after l false
      simpa only [Program.run, ho, Program.meaning, hm] using h
  | valueOr callee alt rest ihc ih =>
    rcases (ihc env pairs henv s).value_or_error with
      ⟨l, v, s', ho, hm⟩ | ⟨l, e, pair, s', ho, hm, -⟩
    · have h := (ih v env pairs henv s').after l true
      simpa only [Program.run, ho, Program.meaning, hm] using h
    · have h := (ih alt env pairs henv s').after l false
      simpa only [Program.run, ho, Program.meaning, hm] using h
  | landing body ih => exact ih env pairs henv s
  | ifEqual i j same other ihs iho =>
    simp only [Program.run, Program.meaning, hP _ _ _ _ (henv i) (henv j), decide_eq_true_eq]
    split_ifs with hij
    · simpa [hij] using (ihs env pairs henv s).after [] true
    · simpa [hij] using (iho env pairs henv s).after [] false

theorem small_inj {x y : UInt16} : small x = small y ↔ x = y := by
  constructor
  · intro h
    have hword : x.toUInt32 = y.toUInt32 := congrArg Int32.toUInt32 h
    rw [← UInt16.toNat_inj]
    simpa using congrArg UInt32.toNat hword
  · exact congrArg small

theorem pair_eq_iff (p q : UInt16 × UInt16) :
    (decide (small p.1 = small q.1) && decide (small p.2 = small q.2)) = decide (p = q) := by
  simp only [small_inj, Prod.ext_iff, Bool.decide_and]

theorem minimal_separates (b : Build) : (minimal b L).Separates := by
  rintro e f p q ⟨_, _, rfl⟩ ⟨_, _, rfl⟩
  exact pair_eq_iff p q

theorem richOff_separates : (richOff L).Separates := by
  rintro e f p q ⟨_, _, rfl⟩ ⟨_, _, rfl⟩
  exact pair_eq_iff p q

theorem richOn_separates : (richOn L).Separates := by
  rintro e f p q ⟨_, _, rfl⟩ ⟨_, _, rfl⟩
  exact pair_eq_iff p q

/-- Folding two 16-bit halves puts the tag above the code. -/
theorem foldGenericError_toBitVec (code tag : UInt16) :
    (foldGenericError (small code) (small tag)).toUInt32.toBitVec =
      tag.toBitVec ++ code.toBitVec := by
  apply BitVec.eq_of_getLsbD_eq
  intro i hi
  rw [BitVec.getLsbD_append]
  by_cases h : i < 16
  · simp [foldGenericError, small, h, hi]
  · have hcode : code.toBitVec.getLsbD i = false := BitVec.getLsbD_of_ge _ i (by omega)
    simp [foldGenericError, small, h, hi, hcode]

theorem foldGenericError_inj (p q : UInt16 × UInt16) :
    foldGenericError (small p.1) (small p.2) = foldGenericError (small q.1) (small q.2) ↔
      p = q := by
  constructor
  · intro h
    have hbits : p.2.toBitVec ++ p.1.toBitVec = q.2.toBitVec ++ q.1.toBitVec := by
      rw [← foldGenericError_toBitVec, ← foldGenericError_toBitVec, h]
    have hbit := fun i => congrArg (BitVec.getLsbD · i) hbits
    simp only [BitVec.getLsbD_append] at hbit
    apply Prod.ext
    · apply UInt16.toBitVec_inj.mp
      apply BitVec.eq_of_getLsbD_eq
      intro i hi
      simpa [hi] using hbit i
    · apply UInt16.toBitVec_inj.mp
      apply BitVec.eq_of_getLsbD_eq
      intro i _
      have hge : ¬ i + 16 < 16 := by omega
      simpa [hge] using hbit (i + 16)
  · rintro rfl
    rfl

theorem erased_separates {D : Type} [DecidableEq D] (genericDomain : D) (b : Build) :
    (erased genericDomain b L).Separates := by
  rintro e f p q ⟨_, _, rfl⟩ ⟨_, _, rfl⟩
  simp [erased, foldGenericError_inj]

/-- Whatever the representation, a program whose codes and tags fit in 16 bits takes the same
branches and ends with the same value, or with a failure built from the same code and tag;
with diagnostics on, from any state of the thread's store. -/
theorem policy_parity {T : Type} (p : Program L 0 T) :
    ∃ branches result,
      (∀ b s, (p.run (minimal b L) Fin.elim0 s).Shows branches result) ∧
      (∀ s, (p.run (richOff L) Fin.elim0 s).Shows branches result) ∧
      (∀ s : Store L, (p.run (richOn L) Fin.elim0 s).Shows branches result) ∧
      ∀ (D : Type) [DecidableEq D] (genericDomain : D) b s,
        (p.run (erased genericDomain b L) Fin.elim0 s).Shows branches result := by
  refine ⟨(p.meaning Fin.elim0).1, (p.meaning Fin.elim0).2, fun b s => ?_, fun s => ?_, fun s => ?_,
    fun D _ genericDomain b s => ?_⟩
  · exact Program.run_shows (minimal_separates b) p _ _ (fun i => i.elim0) s
  · exact Program.run_shows richOff_separates p _ _ (fun i => i.elim0) s
  · exact Program.run_shows richOn_separates p _ _ (fun i => i.elim0) s
  · exact Program.run_shows (erased_separates genericDomain b) p _ _ (fun i => i.elim0) s

end Jmpxx.Policies
