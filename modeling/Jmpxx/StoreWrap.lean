import Jmpxx.StoreRefinement

namespace Jmpxx.Diagnostic

open Transition

variable {L : Type*}

/-- The failures whose handle the arena cannot vouch for: dropped, or issued by a counter
that had already come round. -/
def Failure.Suspect (f : Failure L) : Prop := f.dropped = true ∨ wrap ≤ f.number

def FreshOpen (t : Thread L) (origin : L) : Prop :=
  ∀ r ∈ t.store.slots, r.id ≠ (t.store.openRecord origin).1

/-- No suspect failure resolves to, or appends hops to, the record of another. -/
def OwnRecords (t : Thread L) : Prop :=
  ∀ f ∈ t.ledger.failures, f.Suspect →
    (∀ i, t.store.find f.handle = some i →
      ∃ g, t.ledger.live[i.val]? = some g ∧ g.number = f.number) ∧
    ∀ loc (j : ℕ) g, t.ledger.live[j]? = some g → g.number ≠ f.number →
      (t.store.addHop f.handle loc).slots[j]? = t.store.slots[j]?

/-- What is asked of each step: an open returns a fresh handle, and afterwards every
suspect failure has its own record or none. -/
def Unaliased (t : Thread L) (op : Op L) : Prop :=
  (∀ origin, op = .openRecord origin → FreshOpen t origin) ∧ OwnRecords (t.step op)

/-- The failure numbered `n` gets the handle of the failure numbered `k`. -/
def SameTurn (n k : ℕ) : Prop := n % wrap = k % wrap

instance (n k : ℕ) : Decidable (SameTurn n k) := inferInstanceAs (Decidable (_ = _))

/-- The condition on an open, in counts of opens alone: no failure that is still live was
created a whole number of turns of the counter ago, and, when the arena has room, neither
was any suspect one. -/
def NoTurnover (t : Thread L) (op : Op L) : Prop :=
  ∀ origin, op = .openRecord origin →
    (∀ g ∈ t.ledger.live, ¬ SameTurn t.ledger.failures.length g.number) ∧
    (t.ledger.live.length < maxInflight →
      ∀ f ∈ t.ledger.failures, f.Suspect → ¬ SameTurn t.ledger.failures.length f.number)

/-- A live record and another suspect failure have different handles. -/
def Apart (t : Thread L) : Prop :=
  ∀ g ∈ t.ledger.live, ∀ f ∈ t.ledger.failures, f.Suspect → f.number ≠ g.number →
    f.handle ≠ g.handle

theorem ownRecords_of_apart {t : Thread L} (h : Shape t) (ha : Apart t) : OwnRecords t := by
  intro f hf hs
  have hfind : ∀ i, t.store.find f.handle = some i →
      ∃ g, t.ledger.live[i.val]? = some g ∧ g.number = f.number := by
    intro i hi
    obtain ⟨⟨g, hg, he⟩, -⟩ := h.find_live.mp hi
    refine ⟨g, hg, ?_⟩
    by_contra hne
    exact ha g (List.mem_of_getElem? hg) f hf hs (Ne.symm hne) he.symm
  refine ⟨hfind, fun loc j g hg hne => ?_⟩
  cases hi : t.store.find f.handle with
  | none => rw [Store.addHop_of_find_none hi]
  | some i =>
    obtain ⟨g', hg', he⟩ := hfind i hi
    have hij : i.val ≠ j := by
      rintro rfl
      rw [hg] at hg'
      exact hne (Option.some.inj hg' ▸ he)
    rw [Store.slots_addHop hi, List.getElem?_modify]
    simp [hij]

/-- A hop leaves every failure its number, its handle and whether it was dropped. -/
theorem Ledger.mem_failures_hop {l : Ledger L} {handle : UInt32} {loc : L} {f : Failure L}
    (hf : f ∈ (l.hop handle loc).failures) :
    ∃ f₀ ∈ l.failures, f₀.number = f.number ∧ f₀.handle = f.handle ∧ f₀.dropped = f.dropped := by
  obtain ⟨f₀, hf₀, rfl⟩ := List.mem_map.mp hf
  refine ⟨f₀, hf₀, ?_⟩
  split_ifs <;> exact ⟨rfl, rfl, rfl⟩

theorem Ledger.mem_live_hop {l : Ledger L} {handle : UInt32} {loc : L} {g : Failure L}
    (hg : g ∈ (l.hop handle loc).live) :
    ∃ g₀ ∈ l.live, g₀.number = g.number ∧ g₀.handle = g.handle := by
  rw [Ledger.live_hop] at hg
  obtain ⟨g₀, hg₀, rfl⟩ := List.mem_map.mp hg
  refine ⟨g₀, hg₀, ?_⟩
  split_ifs <;> exact ⟨rfl, rfl⟩

theorem apart_step {t : Thread L} (h : Shape t) (ha : Apart t) (op : Op L) (hc : NoTurnover t op) :
    Apart (t.step op) := by
  cases op with
  | openRecord o =>
    obtain ⟨hlive, hroom⟩ := hc o rfl
    -- the new failure carries the counter's handle
    have hold : ∀ g ∈ t.ledger.live, t.store.nextId ≠ g.handle := by
      intro g hg he
      rw [h.next, h.handle_number (Ledger.mem_live.mp hg).1, handleOf_eq_iff] at he
      exact hlive g hg he
    rw [Thread.step_openRecord]
    intro g hg f hf hs hne
    rw [Ledger.live_opened _ _ _ h.active_fresh] at hg
    have hf' := List.mem_append.mp hf
    split_ifs at hg with hlt
    · rcases List.mem_append.mp hg with hg | hg
      · rcases hf' with hf | hf
        · exact ha g hg f hf hs hne
        · rw [List.mem_singleton.mp hf]
          exact hold g hg
      · have hgn := List.mem_singleton.mp hg
        rcases hf' with hf | hf
        · intro he
          rw [hgn, h.handle_number hf] at he
          rw [show (t.ledger.newFailure t.store.nextId o).handle = t.store.nextId from rfl,
            h.next, handleOf_eq_iff] at he
          exact hroom hlt f hf hs he.symm
        · rw [hgn, List.mem_singleton.mp hf] at hne
          exact absurd rfl hne
    · rcases hf' with hf | hf
      · exact ha g hg f hf hs hne
      · rw [List.mem_singleton.mp hf]
        exact hold g hg
  | addHop handle loc =>
    intro g hg f hf hs hne
    obtain ⟨g₀, hg₀, hgn, hgh⟩ := Ledger.mem_live_hop hg
    obtain ⟨f₀, hf₀, hfn, hfh, hfd⟩ := Ledger.mem_failures_hop hf
    rw [← hgh, ← hfh]
    refine ha g₀ hg₀ f₀ hf₀ ?_ (by rwa [hfn, hgn])
    simpa only [Failure.Suspect, hfn, hfd] using hs
  | find _ => exact ha
  | enter => exact ha
  | exit =>
    cases hm : t.marks with
    | nil => simpa only [Thread.step, hm] using ha
    | cons m ms =>
      have hfail : t.ledger.exit.failures = t.ledger.failures := by
        unfold Ledger.exit
        split <;> rfl
      simp only [Thread.step, hm, Apart, h.live_exit hm, hfail]
      exact fun g hg => ha g (List.mem_of_mem_take hg)

theorem apart_run [Inhabited L] (ops : List (Op L))
    (hc : Along Thread.step NoTurnover Thread.initial ops) :
    Apart (Thread.run ops) := by
  have hboth := @run_invariant_along _ _ Thread.step NoTurnover (fun t => Shape t ∧ Apart t)
    (fun t op ht hop => ⟨ht.1.step op, apart_step ht.1 ht.2 op hop⟩) Thread.initial
    ⟨Shape.initial, fun g hg => by simp [Thread.initial, Ledger.initial, Ledger.live] at hg⟩ ops hc
  exact hboth.2

theorem freshOpen_iff {t : Thread L} (h : Shape t) (o : L) :
    FreshOpen t o ↔ ∀ g ∈ t.ledger.live, ¬ SameTurn t.ledger.failures.length g.number := by
  have hids : (∀ r ∈ t.store.slots, r.id ≠ t.store.nextId) ↔
      ∀ g ∈ t.ledger.live, g.handle ≠ t.store.nextId := by
    rw [← @List.forall_mem_map _ _ Record.id _ (· ≠ t.store.nextId), h.ids, List.forall_mem_map]
  rw [FreshOpen, Store.openRecord_fst, hids]
  refine forall₂_congr fun g hg => ?_
  rw [h.next, h.handle_number (Ledger.mem_live.mp hg).1, ne_eq, handleOf_eq_iff, SameTurn, eq_comm]

/-- A recorded failure is found by its own handle, being the newest. -/
theorem find_opened {t : Thread L} (h : Shape t) (o : L)
    (hlt : t.ledger.live.length < maxInflight) :
    (t.step (.openRecord o)).store.find t.store.nextId =
        some ⟨t.ledger.live.length, hlt⟩ ∧
      (t.step (.openRecord o)).ledger.live[t.ledger.live.length]? =
        some (t.ledger.newFailure t.store.nextId o) := by
  have hlive : (t.step (.openRecord o)).ledger.live =
      t.ledger.live ++ [t.ledger.newFailure t.store.nextId o] := by
    rw [Thread.step_openRecord, Ledger.live_opened _ _ _ h.active_fresh, if_pos hlt]
  have hlast : (t.step (.openRecord o)).ledger.live[t.ledger.live.length]? =
      some (t.ledger.newFailure t.store.nextId o) := by
    simp [hlive]
  refine ⟨(h.step _).find_live.mpr ⟨⟨_, hlast, rfl⟩, fun j f hj hf => ?_⟩, hlast⟩
  have hbound := (List.getElem?_eq_some_iff.mp hf).1
  simp only [hlive, List.length_append, List.length_singleton] at hbound hj
  omega

theorem noTurnover_of_unaliased {t : Thread L} (h : Shape t) {op : Op L} (hu : Unaliased t op) :
    NoTurnover t op := by
  rintro o rfl
  refine ⟨(freshOpen_iff h o).mp (hu.1 o rfl), fun hlt f hf hs hturn => ?_⟩
  obtain ⟨hfind, hlast⟩ := find_opened h o hlt
  have hhandle : f.handle = t.store.nextId := by
    rw [h.handle_number hf, h.next, handleOf_eq_iff]
    exact hturn.symm
  have hf' : f ∈ (t.step (.openRecord o)).ledger.failures := by
    rw [Thread.step_openRecord]
    exact List.mem_append_left _ hf
  obtain ⟨g, hg, hgn⟩ := (hu.2 f hf' hs).1 _ (hhandle ▸ hfind)
  rw [hlast] at hg
  have hnum : t.ledger.failures.length = f.number := by
    rw [← hgn, ← Option.some.inj hg]
    rfl
  exact (h.number_lt hf).ne hnum.symm

/-- Over runs of any length, handles are never mistaken exactly when no open comes a whole
number of turns of the counter after a failure whose record it could be confused with. -/
theorem unaliased_iff_no_turnover [Inhabited L] (ops : List (Op L)) :
    Along Thread.step Unaliased Thread.initial ops ↔
      Along Thread.step NoTurnover Thread.initial ops := by
  constructor
  · intro hu
    refine (along_iff_forall _ ops).mpr fun pre op hp => ?_
    exact noTurnover_of_unaliased (Shape.run pre) ((along_iff_forall _ ops).mp hu pre op hp)
  · intro hc
    refine (along_iff_forall _ ops).mpr fun pre op hp => ?_
    have hop := (along_iff_forall _ ops).mp hc pre op hp
    have ha := apart_run pre (along_of_isPrefix ((List.prefix_append pre [op]).trans hp) hc)
    have h : Shape (Thread.run pre) := Shape.run pre
    refine ⟨fun o ho => (freshOpen_iff h o).mpr (hop o ho).1, ?_⟩
    exact ownRecords_of_apart (h.step op) (apart_step h ha op hop)

def handled (o : L) : List (Op L) := [.enter, .openRecord o, .exit]

theorem live_handled {t : Thread L} (h : Shape t) (o : L) :
    (Transition.run Thread.step t (handled o)).ledger.live = t.ledger.live := by
  have h₁ := h.enter
  have hopen := Ledger.live_opened (t.step .enter).ledger (t.step .enter).store.nextId o h₁.active_fresh
  have hactive : (((t.step .enter).step (.openRecord o)).ledger).active =
      t.ledger.entered :: t.ledger.active := by
    rw [Thread.step_openRecord]
    rfl
  have hexit : (Transition.run Thread.step t (handled o)).ledger =
      ((t.step .enter).step (.openRecord o)).ledger.exit := by
    simp only [handled, run_cons, run_nil]
    rw [Thread.step_openRecord]
    rfl
  have hold : t.ledger.live.filter (t.ledger.entered ∉ ·.landings) = t.ledger.live := by
    refine List.filter_eq_self.mpr fun f hf => decide_eq_true fun ha => ?_
    exact lt_irrefl _ (h.landings_lt f (Ledger.mem_live.mp hf).1 _ ha)
  rw [hexit, Ledger.live_exit _ _ _ hactive, Thread.step_openRecord, hopen]
  split_ifs
  · rw [List.filter_append, show (t.step .enter).ledger.live = t.ledger.live from rfl, hold]
    simp [Ledger.newFailure, Thread.step, Ledger.enter]
  · exact hold

theorem run_handled [Inhabited L] (ops : List (Op L)) (o : L) (n : ℕ) :
    let ops' := ops ++ (List.replicate n (handled o)).flatten
    (Thread.run ops').ledger.live = (Thread.run ops).ledger.live ∧ opens ops' = opens ops + n := by
  induction n generalizing ops with
  | zero => simp
  | succ n ih =>
    obtain ⟨hlive, hopens⟩ := ih (ops ++ handled o)
    have hblock : (Thread.run (ops ++ handled o)).ledger.live = (Thread.run ops).ledger.live := by
      rw [Thread.run, run_append]
      exact live_handled (Shape.run ops) o
    simp only [List.replicate_succ, List.flatten_cons, ← List.append_assoc]
    refine ⟨hlive.trans hblock, hopens.trans ?_⟩
    rw [opens_append, show opens (handled o) = 1 from rfl]
    omega

theorem not_unaliased_of_sameTurn (n : ℕ) (hn : SameTurn (1 + n) 0) :
    ¬ Along Thread.step Unaliased Thread.initial
      ([Op.openRecord 0] ++ (List.replicate n (handled 1)).flatten ++ [Op.openRecord 2] :
        List (Op ℕ)) := by
  intro hu
  have hlast := ((along_concat _ _ _).mp hu).2
  obtain ⟨hlive, hopens⟩ := run_handled ([Op.openRecord 0] : List (Op ℕ)) 1 n
  have hfresh := (freshOpen_iff (Shape.run _) 2).mp (hlast.1 2 rfl)
  have hfirst : (⟨0, 1, 0, [], false, []⟩ : Failure ℕ) ∈
      (Thread.run [Op.openRecord 0]).ledger.live := by decide
  refine hfresh _ (hlive ▸ hfirst) ?_
  rwa [length_failures, hopens]

/-- The record of the first failure is still live when its handle is issued again. -/
theorem aliased_after_one_turn :
    ¬ Along Thread.step Unaliased Thread.initial
      ([Op.openRecord 0] ++ (List.replicate (2 ^ 32 - 2) (handled 1)).flatten ++
        [Op.openRecord 2] : List (Op ℕ)) :=
  not_unaliased_of_sameTurn (2 ^ 32 - 2) (by decide)

end Jmpxx.Diagnostic
