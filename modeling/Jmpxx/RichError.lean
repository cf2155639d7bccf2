import Jmpxx.StoreWrap
import Mathlib.Logic.Function.Basic

namespace Jmpxx.Diagnostic

open Transition

/-- `rich_error` with diagnostics on: the in-band payload and the handle, and nothing that
says which thread's store the handle belongs to. -/
structure RichError where
  code : Int32
  domain : Int32
  handle : UInt32
  deriving DecidableEq, Repr

variable {L : Type*}

def inspect (s : Store L) (e : RichError) : Option (Context L) := s.lookup e.handle

def notePropagation (s : Store L) (e : RichError) (loc : L) : Store L := s.addHop e.handle loc

/-- A rich error in some thread's hands, with what the code does not keep: the thread that
created it and, unless it was default-constructed, its number among that thread's failures. -/
structure Carried (T : Type*) where
  error : RichError
  maker : T
  number : Option ℕ
  deriving DecidableEq, Repr

structure Machine (T L : Type*) where
  threads : T → Thread L
  errors : T → List (Carried T)

/-- What threads do. `send` hands a value over; rich errors are trivially copyable, so the
sender may go on using its own. -/
inductive Action (T L : Type*) where
  | empty (t : T)
  | create (t : T) (code domain : Int32) (loc : L)
  | propagate (t : T) (i : ℕ) (loc : L)
  | inspect (t : T) (i : ℕ)
  | enter (t : T)
  | exit (t : T)
  | send (t : T) (i : ℕ) (dest : T)

namespace Machine

variable {T : Type*}

def initial [Inhabited L] : Machine T L := ⟨fun _ => .initial, fun _ => []⟩

/-- No thread sees anything through an error another thread created: inspecting it reports
no context, and propagating it changes nothing. -/
def Isolated (m : Machine T L) : Prop :=
  ∀ t, ∀ e ∈ m.errors t, e.maker ≠ t →
    Diagnostic.inspect (m.threads t).store e.error = none ∧
      ∀ loc, notePropagation (m.threads t).store e.error loc = (m.threads t).store

/-- No thread holds a foreign error whose number falls on the same turn of the counter as
the number of one of its own live failures. -/
def NoClash (m : Machine T L) : Prop :=
  ∀ t, ∀ e ∈ m.errors t, e.maker ≠ t →
    ∀ n, e.number = some n → ∀ g ∈ (m.threads t).ledger.live, ¬ SameTurn n g.number

/-- Every store is in order, and every error carries the handle of its number. -/
structure Good (m : Machine T L) : Prop where
  shape : ∀ t, Shape (m.threads t)
  handle : ∀ t, ∀ e ∈ m.errors t,
    e.error.handle = match e.number with
      | none => 0
      | some n => handleOf n

theorem Good.initial [Inhabited L] : Good (Machine.initial : Machine T L) :=
  ⟨fun _ => Shape.initial, by simp [Machine.initial]⟩

theorem addHop_eq_self_of_inspect {s : Store L} {e : RichError}
    (h : Diagnostic.inspect s e = none) (loc : L) : notePropagation s e loc = s :=
  Store.addHop_of_find_none (Option.map_eq_none_iff.mp h) loc

theorem Good.inspect_eq_none_iff {m : Machine T L} (h : Good m) {t u : T} {e : Carried T}
    (he : e ∈ m.errors u) :
    Diagnostic.inspect (m.threads t).store e.error = none ↔
      ∀ n, e.number = some n → ∀ g ∈ (m.threads t).ledger.live, ¬ SameTurn n g.number := by
  have hhandle := h.handle u e he
  rw [Diagnostic.inspect, Store.lookup, Option.map_eq_none_iff, (h.shape t).find_none, hhandle]
  have hlive : ∀ g ∈ (m.threads t).ledger.live, g ∈ (m.threads t).ledger.failures :=
    fun g hg => (Ledger.mem_live.mp hg).1
  cases e.number with
  | none => simpa using fun g hg => (h.shape t).handle_ne_zero (hlive g hg)
  | some n =>
    simp only [Option.some.injEq, forall_eq']
    refine forall₂_congr fun g hg => ?_
    rw [(h.shape t).handle_number (hlive g hg), ne_eq, handleOf_eq_iff, SameTurn, eq_comm]

theorem Good.isolated_iff {m : Machine T L} (h : Good m) : Isolated m ↔ NoClash m := by
  unfold Isolated NoClash
  refine forall_congr' fun t => forall₂_congr fun e he => forall_congr' fun _ => ?_
  rw [← h.inspect_eq_none_iff he]
  exact ⟨fun hi => hi.1, fun hi => ⟨hi, addHop_eq_self_of_inspect hi⟩⟩

variable [DecidableEq T]

def onThread (m : Machine T L) (t : T) (op : Op L) : Machine T L :=
  { m with threads := Function.update m.threads t ((m.threads t).step op) }

def give (m : Machine T L) (t : T) (e : Carried T) : Machine T L :=
  { m with errors := Function.update m.errors t (m.errors t ++ [e]) }

def step (m : Machine T L) : Action T L → Machine T L
  | .empty t => m.give t ⟨⟨0, 0, 0⟩, t, none⟩
  | .create t code domain loc =>
    let e : RichError := ⟨code, domain, ((m.threads t).store.openRecord loc).1⟩
    (m.onThread t (.openRecord loc)).give t ⟨e, t, some (m.threads t).ledger.failures.length⟩
  | .propagate t i loc =>
    match (m.errors t)[i]? with
    | none => m
    | some e => m.onThread t (.addHop e.error.handle loc)
  | .inspect t i =>
    match (m.errors t)[i]? with
    | none => m
    | some e => m.onThread t (.find e.error.handle)
  | .enter t => m.onThread t .enter
  | .exit t => m.onThread t .exit
  | .send t i dest =>
    match (m.errors t)[i]? with
    | none => m
    | some e => m.give dest e

def run [Inhabited L] (acts : List (Action T L)) : Machine T L := Transition.run step initial acts

def ownOp (m : Machine T L) (t : T) : Action T L → List (Op L)
  | .create u _ _ loc => if u = t then [.openRecord loc] else []
  | .propagate u i loc =>
    match (m.errors u)[i]? with
    | none => []
    | some e => if u = t ∧ e.maker = t then [.addHop e.error.handle loc] else []
  | .enter u => if u = t then [.enter] else []
  | .exit u => if u = t then [.exit] else []
  | _ => []

/-- The operations of one thread on its own failures along an interleaving. -/
def ownOps (t : T) : Machine T L → List (Action T L) → List (Op L)
  | _, [] => []
  | m, a :: acts => m.ownOp t a ++ ownOps t (m.step a) acts

theorem Good.onThread {m : Machine T L} (h : Good m) (t : T) (op : Op L) :
    Good (m.onThread t op) := by
  refine ⟨fun u => ?_, h.handle⟩
  by_cases hu : u = t
  · subst hu
    simpa [Machine.onThread] using (h.shape u).step op
  · simpa [Machine.onThread, hu] using h.shape u

theorem Good.give {m : Machine T L} (h : Good m) (t : T) (e : Carried T)
    (he : e.error.handle = match e.number with
      | none => 0
      | some n => handleOf n) : Good (m.give t e) := by
  refine ⟨h.shape, fun u e' he' => ?_⟩
  by_cases hu : u = t
  · subst hu
    simp only [Machine.give, Function.update_self, List.mem_append, List.mem_singleton] at he'
    rcases he' with he' | rfl
    · exact h.handle u e' he'
    · exact he
  · simp only [Machine.give, Function.update_of_ne hu] at he'
    exact h.handle u e' he'

theorem Good.step {m : Machine T L} (h : Good m) (a : Action T L) : Good (m.step a) := by
  cases a with
  | empty t => exact h.give t _ rfl
  | create t code domain loc =>
    refine (h.onThread t _).give t _ ?_
    rw [Store.openRecord_fst]
    exact (h.shape t).next
  | propagate t i loc =>
    cases he : (m.errors t)[i]? with
    | none => simpa only [Machine.step, he] using h
    | some e => simpa only [Machine.step, he] using h.onThread t (.addHop e.error.handle loc)
  | inspect t i =>
    cases he : (m.errors t)[i]? with
    | none => simpa only [Machine.step, he] using h
    | some e => simpa only [Machine.step, he] using h.onThread t (.find e.error.handle)
  | enter t => exact h.onThread t _
  | exit t => exact h.onThread t _
  | send t i dest =>
    cases he : (m.errors t)[i]? with
    | none => simpa only [Machine.step, he] using h
    | some e =>
      simpa only [Machine.step, he] using h.give dest e (h.handle t e (List.mem_of_getElem? he))

theorem Good.run [Inhabited L] (acts : List (Action T L)) : Good (Machine.run acts) :=
  Transition.run_invariant _ Good (fun _ a h => h.step a) _ Good.initial acts

theorem step_addHop_of_find_none {t : Thread L} (h : Shape t) {handle : UInt32}
    (hf : t.store.find handle = none) (loc : L) : t.step (.addHop handle loc) = t := by
  have hledger : t.ledger.hop handle loc = t.ledger := by
    have hmap : (t.ledger.failures.map fun f =>
        if f.handle = handle ∧ f.isLive t.ledger.exited then f.pushHop loc else f) =
        t.ledger.failures := by
      conv_rhs => rw [← List.map_id t.ledger.failures]
      refine List.map_congr_left fun f hmem => if_neg ?_
      rintro ⟨he, hlive⟩
      exact h.find_none.mp hf f (List.mem_filter.mpr ⟨hmem, hlive⟩) he
    simp only [Ledger.hop, hmap]
  simp only [Thread.step, Store.addHop_of_find_none hf, hledger]

/-- One action acts on a thread as the thread's own operation on its own failures. -/
theorem threads_step {m : Machine T L} (h : Good m) (hc : NoClash m) (a : Action T L) (t : T) :
    (m.step a).threads t = Transition.run Thread.step (m.threads t) (m.ownOp t a) := by
  have hon : ∀ u op, (m.onThread u op).threads t =
      Transition.run Thread.step (m.threads t) (if u = t then [op] else []) := by
    intro u op
    by_cases hu : u = t
    · subst hu
      simp [onThread]
    · simp [onThread, hu, Ne.symm hu]
  cases a with
  | empty u => rfl
  | create u code domain loc => exact hon u _
  | propagate u i loc =>
    cases he : (m.errors u)[i]? with
    | none => simp [Machine.step, ownOp, he]
    | some e =>
      simp only [Machine.step, ownOp, he]
      -- only an error of its own maker counts as the thread's operation
      rw [hon]
      by_cases hu : u = t
      · subst hu
        by_cases hm : e.maker = u
        · simp [hm]
        · have hnone := (h.isolated_iff.mpr hc u e (List.mem_of_getElem? he) hm).1
          simp [hm, step_addHop_of_find_none (h.shape u) (Option.map_eq_none_iff.mp hnone)]
      · simp [hu]
  | inspect u i =>
    cases he : (m.errors u)[i]? with
    | none => simp [Machine.step, ownOp, he]
    | some e =>
      simp only [Machine.step, ownOp, he]
      rw [hon]
      split_ifs <;> rfl
  | enter u => exact hon u _
  | exit u => exact hon u _
  | send u i dest =>
    cases he : (m.errors u)[i]? with
    | none => simp [Machine.step, ownOp, he]
    | some e => simp [Machine.step, ownOp, he, give]

theorem threads_run {m : Machine T L} (h : Good m) (acts : List (Action T L))
    (hc : Along step (fun m _ => NoClash m) m acts) (t : T) :
    (Transition.run step m acts).threads t =
      Transition.run Thread.step (m.threads t) (ownOps t m acts) := by
  induction acts generalizing m with
  | nil => rfl
  | cons a acts ih =>
    rw [run_cons, ih (h.step a) hc.2, threads_step h hc.1, ownOps, run_append]

/-- Threads are isolated, and each thread's arena is what its own failures alone make of
it, exactly when no foreign error shares a turn of the counter with a live failure. -/
theorem isolated_iff_noClash [Inhabited L] (acts : List (Action T L)) :
    (∀ pre, pre <+: acts → Isolated (run pre) ∧
      ∀ t, (run pre).threads t = Thread.run (ownOps t initial pre)) ↔
    ∀ pre, pre <+: acts → NoClash (run pre) := by
  constructor
  · exact fun h pre hp => (Good.run pre).isolated_iff.mp (h pre hp).1
  · intro h pre hp
    refine ⟨(Good.run pre).isolated_iff.mpr (h pre hp), fun t => ?_⟩
    refine threads_run Good.initial pre ((along_iff_forall _ pre).mpr fun p a hpa => ?_) t
    exact h p ((List.prefix_append p [a]).trans (hpa.trans hp))

/-- Two threads fail once each, and the first hands its error to the second: there it
resolves to the second thread's failure, and a hop on it lands in that failure's chain. -/
theorem not_isolated_of_moved_error :
    ¬ Isolated (run [.create false 5 0 100, .create true 6 0 200, .send false 0 true] :
      Machine Bool ℕ) := by
  intro h
  have hmoved := (h true ⟨⟨5, 0, 1⟩, false, some 0⟩ (by decide) (by decide)).1
  exact absurd hmoved (by decide)

end Machine
end Jmpxx.Diagnostic
