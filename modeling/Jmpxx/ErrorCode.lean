import Jmpxx.Transition
import Mathlib.Data.List.AList
import Mathlib.Order.Basic

namespace Jmpxx

/-- `jmpxx::error`: a bare code and a domain tag, each any `int`. -/
structure Error where
  code : Int32
  domain : Int32
  deriving DecidableEq, Repr

namespace Interop

open Transition

/-- The identity of a `std::error_category` is its address: the objects the table has
allocated, by the order of their allocation, and everything else in the program. -/
inductive Category where
  | owned (i : ℕ)
  | foreign (n : ℕ)
  deriving DecidableEq, Repr

structure ErrorCode where
  value : Int32
  category : Category
  deriving DecidableEq, Repr

/-- `detail::category_table`, with the number of categories it has allocated. -/
structure CategoryTable where
  byDomain : AList fun _ : Int32 => Category
  byAddress : AList fun _ : Category => Int32
  allocated : ℕ

namespace CategoryTable

def initial : CategoryTable := ⟨∅, ∅, 0⟩

/-- `std::map::emplace` keeps an entry the key already has. -/
def emplace {κ ν : Type*} [DecidableEq κ] (m : AList fun _ : κ => ν) (k : κ) (v : ν) :
    AList fun _ : κ => ν :=
  if k ∈ m then m else m.insert k v

def get (t : CategoryTable) (domain : Int32) : Category × CategoryTable :=
  match t.byDomain.lookup domain with
  | some c => (c, t)
  | none =>
    (.owned t.allocated,
      ⟨emplace t.byDomain domain (.owned t.allocated),
        emplace t.byAddress (.owned t.allocated) domain, t.allocated + 1⟩)

def domainOf (t : CategoryTable) (cat : Category) : Int32 := (t.byAddress.lookup cat).getD (-1)

def toErrorCode (t : CategoryTable) (e : Error) : ErrorCode × CategoryTable :=
  let (category, t') := t.get e.domain
  (⟨e.code, category⟩, t')

def isJmpxx (t : CategoryTable) (ec : ErrorCode) : Bool := 0 ≤ t.domainOf ec.category

def fromErrorCode (t : CategoryTable) (ec : ErrorCode) : Error :=
  let domain := t.domainOf ec.category
  if 0 ≤ domain then ⟨ec.value, domain⟩ else ⟨ec.value, 0⟩

/-- A lookup some thread makes while it holds the table's mutex. -/
inductive Lookup (T : Type*) where
  | get (thread : T) (domain : Int32)
  | domainOf (thread : T) (cat : Category)

variable {T : Type*}

def step (t : CategoryTable) : Lookup T → CategoryTable
  | .get _ domain => (t.get domain).2
  | .domainOf _ _ => t

def handsOut (t : CategoryTable) : Lookup T → List Category
  | .get _ domain => [(t.get domain).1]
  | .domainOf _ _ => []

def handedOut : CategoryTable → List (Lookup T) → List Category
  | _, [] => []
  | t, l :: ls => t.handsOut l ++ handedOut (t.step l) ls

/-- The two maps are inverse to each other and hold allocated categories only. -/
structure Inverse (t : CategoryTable) : Prop where
  iff : ∀ d c, t.byDomain.lookup d = some c ↔ t.byAddress.lookup c = some d
  allocated : ∀ c d, t.byAddress.lookup c = some d → ∃ i < t.allocated, c = .owned i

theorem lookup_emplace {κ ν : Type*} [DecidableEq κ] {m : AList fun _ : κ => ν} {k : κ}
    (hk : m.lookup k = none) (v : ν) (j : κ) :
    (emplace m k v).lookup j = if j = k then some v else m.lookup j := by
  have hmem : k ∉ m := AList.lookup_eq_none.mp hk
  simp only [emplace, if_neg hmem]
  by_cases hj : j = k
  · subst hj
    simp
  · simp [hj, AList.lookup_insert_ne hj]

theorem Inverse.initial : Inverse CategoryTable.initial := by
  constructor <;> simp [CategoryTable.initial]

/-- The address of a category about to be allocated is not in the table. -/
theorem Inverse.fresh {t : CategoryTable} (h : Inverse t) :
    t.byAddress.lookup (.owned t.allocated) = none := by
  refine Option.eq_none_iff_forall_ne_some.mpr fun d hd => ?_
  obtain ⟨i, hi, he⟩ := h.allocated _ d hd
  exact hi.ne (Category.owned.inj he).symm

theorem get_of_lookup {t : CategoryTable} {d : Int32} {c : Category}
    (h : t.byDomain.lookup d = some c) : t.get d = (c, t) := by
  simp [get, h]

theorem Inverse.get {t : CategoryTable} (h : Inverse t) (d : Int32) : Inverse (t.get d).2 := by
  cases hd : t.byDomain.lookup d with
  | some c => rwa [get_of_lookup hd]
  | none =>
    have hget : (t.get d).2 = ⟨emplace t.byDomain d (.owned t.allocated),
        emplace t.byAddress (.owned t.allocated) d, t.allocated + 1⟩ := by
      simp [CategoryTable.get, hd]
    rw [hget]
    refine ⟨fun d' c => ?_, fun c d' hc => ?_⟩
    · simp only [lookup_emplace hd, lookup_emplace h.fresh]
      by_cases hd' : d' = d
      · by_cases hc : c = .owned t.allocated
        · simp [hd', hc]
        · have hno : t.byAddress.lookup c ≠ some d := fun hs => by simp [(h.iff d c).mpr hs] at hd
          simp [hd', hc, hno, Ne.symm hc]
      · by_cases hc : c = .owned t.allocated
        · have hno : t.byDomain.lookup d' ≠ some (.owned t.allocated) := fun hs =>
            absurd ((h.iff d' _).mp hs) (by simp [h.fresh])
          simp [hd', hc, hno, Ne.symm hd']
        · simp [hd', hc, h.iff d' c]
    · simp only [lookup_emplace h.fresh] at hc
      split_ifs at hc with he
      · exact ⟨t.allocated, Nat.lt_succ_self _, he⟩
      · obtain ⟨i, hi, he'⟩ := h.allocated c d' hc
        exact ⟨i, hi.trans (Nat.lt_succ_self _), he'⟩

theorem Inverse.step {t : CategoryTable} (h : Inverse t) (l : Lookup T) : Inverse (t.step l) := by
  cases l with
  | get _ d => exact h.get d
  | domainOf _ _ => exact h

theorem Inverse.run (ls : List (Lookup T)) :
    Inverse (Transition.run CategoryTable.step CategoryTable.initial ls) :=
  run_invariant _ Inverse (fun _ l h => h.step l) _ Inverse.initial ls

theorem lookup_get (t : CategoryTable) (d : Int32) :
    (t.get d).2.byDomain.lookup d = some (t.get d).1 := by
  cases hd : t.byDomain.lookup d with
  | some c => rw [get_of_lookup hd, hd]
  | none => simp [get, hd, lookup_emplace hd]

/-- Once handed out, a domain's category stays. -/
theorem lookup_step {t : CategoryTable} {d : Int32} {c : Category}
    (h : t.byDomain.lookup d = some c) (l : Lookup T) :
    (t.step l).byDomain.lookup d = some c := by
  cases l with
  | domainOf _ _ => exact h
  | get _ d' =>
    cases hd : t.byDomain.lookup d' with
    | some c' => simpa only [step, get_of_lookup hd] using h
    | none =>
      have hne : d ≠ d' := by
        rintro rfl
        simp [h] at hd
      simp [step, get, hd, lookup_emplace hd, hne, h]

theorem lookup_run {t : CategoryTable} {d : Int32} {c : Category}
    (h : t.byDomain.lookup d = some c) (ls : List (Lookup T)) :
    (Transition.run step t ls).byDomain.lookup d = some c :=
  run_invariant _ (·.byDomain.lookup d = some c) (fun _ l h => lookup_step h l) t h ls

/-- What is in the table was there before or has been handed out since. -/
theorem mem_handedOut_of_lookup {t : CategoryTable} {d : Int32} {c : Category}
    (ls : List (Lookup T)) (h : (Transition.run step t ls).byDomain.lookup d = some c) :
    t.byDomain.lookup d = some c ∨ c ∈ handedOut t ls := by
  induction ls generalizing t with
  | nil => exact .inl h
  | cons l ls ih =>
    rcases ih h with h | h
    · cases l with
      | domainOf _ _ => exact .inl h
      | get u d' =>
        cases hd : t.byDomain.lookup d' with
        | some c' => exact .inl (by simpa only [step, get_of_lookup hd] using h)
        | none =>
          simp only [step, get, hd, lookup_emplace hd] at h
          split_ifs at h with he
          · exact .inr (by simp [handedOut, handsOut, get, hd, (Option.some.inj h).symm])
          · exact .inl h
    · exact .inr (List.mem_append_right _ h)

theorem domainOf_of_lookup {t : CategoryTable} (h : Inverse t) {d : Int32} {c : Category}
    (hd : t.byDomain.lookup d = some c) : t.domainOf c = d := by
  simp [domainOf, (h.iff d c).mp hd]

theorem domainOf_of_not_handedOut (ls : List (Lookup T)) {c : Category}
    (hc : c ∉ handedOut initial ls) : (Transition.run step initial ls).domainOf c = -1 := by
  have hnone : (Transition.run step initial ls).byAddress.lookup c = none := by
    refine Option.eq_none_iff_forall_ne_some.mpr fun d hd => ?_
    rcases mem_handedOut_of_lookup ls (((Inverse.run ls).iff d c).mpr hd) with h | h
    · simp [initial] at h
    · exact hc h
  simp [domainOf, hnone]

/-- An error converted at any moment of any history reads back as itself, and a category
the table never handed out reads as foreign, exactly when its domain is not negative. -/
theorem round_trip_iff (before after : List (Lookup T)) (thread : T) (e : Error) :
    let ec := ((Transition.run step initial before).toErrorCode e).1
    let history := before ++ .get thread e.domain :: after
    let t := Transition.run step initial history
    ((t.isJmpxx ec = true ∧ t.fromErrorCode ec = e) ∧
      ∀ foreign : ErrorCode, foreign.category ∉ handedOut initial history →
        t.isJmpxx foreign = false ∧ t.fromErrorCode foreign = ⟨foreign.value, 0⟩) ↔
    0 ≤ e.domain := by
  intro ec history t
  have hdomain : t.domainOf ec.category = e.domain := by
    refine domainOf_of_lookup (Inverse.run history) ?_
    simp only [history, run_append, run_cons]
    exact lookup_run (lookup_get _ e.domain) after
  have hforeign : ∀ foreign : ErrorCode, foreign.category ∉ handedOut initial history →
      t.isJmpxx foreign = false ∧ t.fromErrorCode foreign = ⟨foreign.value, 0⟩ := by
    intro foreign hf
    have hneg : ¬ (0 : Int32) ≤ -1 := by decide
    simp [isJmpxx, fromErrorCode, t, domainOf_of_not_handedOut history hf, hneg]
  constructor
  · rintro ⟨⟨hj, -⟩, -⟩
    simpa [isJmpxx, hdomain] using hj
  · intro h
    refine ⟨⟨by simpa [isJmpxx, hdomain] using h, ?_⟩, hforeign⟩
    simp only [fromErrorCode, hdomain, if_pos h]
    rfl

/-- A negative domain is a table key like any other, and both readers take it for foreign. -/
theorem round_trip_fails_on_negative_domain :
    let (ec, t) := initial.toErrorCode ⟨5, -3⟩
    t.isJmpxx ec = false ∧ t.fromErrorCode ec = ⟨5, 0⟩ := by
  decide

theorem Inverse.eq_of_lookup {t : CategoryTable} (h : Inverse t) {d d' : Int32} {c : Category}
    (hd : t.byDomain.lookup d = some c) (hd' : t.byDomain.lookup d' = some c) : d = d' :=
  Option.some.inj (((h.iff d c).mp hd).symm.trans ((h.iff d' c).mp hd'))

/-- A category looked up at some moment is looked up again at every later one. -/
theorem get_later (t : CategoryTable) (thread : T) (d : Int32) (later : List (Lookup T)) :
    (Transition.run step t (.get thread d :: later)).get d =
      ((t.get d).1, Transition.run step t (.get thread d :: later)) :=
  get_of_lookup (lookup_run (lookup_get t d) later)

/-- Of two lookups in a history, the second finds the category of the first exactly when it is
for the same domain. -/
theorem get_eq_iff (before between : List (Lookup T)) (thread : T) (d d' : Int32) :
    ((Transition.run step initial before).get d).1 =
        ((Transition.run step initial (before ++ .get thread d :: between)).get d').1 ↔
      d = d' := by
  have hinverse : Inverse (Transition.run step initial (before ++ .get thread d :: between)) :=
    Inverse.run _
  rw [run_append] at hinverse ⊢
  have hfirst := get_later (Transition.run step initial before) thread d between
  constructor
  · intro h
    have hkept := lookup_run (lookup_get (Transition.run step initial before) d)
      (between ++ [.get thread d'])
    rw [run_concat, h] at hkept
    exact (hinverse.get d').eq_of_lookup hkept (lookup_get _ d')
  · intro h
    rw [← h, hfirst]

/-- Over every history the two maps stay inverse to each other, and of two errors converted at
any two moments of it the results are equal exactly when the errors are. -/
theorem conversions_identify :
    (∀ history : List (Lookup T), ∀ d c,
      (Transition.run step initial history).byDomain.lookup d = some c ↔
        (Transition.run step initial history).byAddress.lookup c = some d) ∧
    ∀ (before between : List (Lookup T)) (thread : T),
      let first := Transition.run step initial before
      (∀ d, ((Transition.run step initial (before ++ .get thread d :: between)).get d).1 =
        (first.get d).1) ∧
      (∀ d d', d ≠ d' → (first.get d).1 ≠
        ((Transition.run step initial (before ++ .get thread d :: between)).get d').1) ∧
      ∀ a b : Error,
        let second := Transition.run step initial (before ++ .get thread a.domain :: between)
        (first.toErrorCode a).1 = (second.toErrorCode b).1 ↔ a = b := by
  refine ⟨fun history => (Inverse.run history).iff, fun before between thread => ?_⟩
  refine ⟨fun d => ((get_eq_iff before between thread d d).mpr rfl).symm, fun d d' hne h => ?_,
    fun a b => ?_⟩
  · exact hne ((get_eq_iff before between thread d d').mp h)
  · have hcategory := get_eq_iff before between thread a.domain b.domain
    cases a with
    | mk code domain =>
      cases b with
      | mk code' domain' =>
        simp only [toErrorCode, ErrorCode.mk.injEq, Error.mk.injEq, hcategory]

end CategoryTable
end Interop
end Jmpxx
