import Jmpxx.UnwindFlight

namespace Jmpxx.Unwind

open Propagation (Result)

variable {V P : Type} {b : Backend} {th : Thread V P} {K : List (Frame V P)}

def CooperativeRun (b : Backend) (th : Thread V P) : Prop :=
  ∀ n, Cooperative b ((step b)^[n] th)

theorem CooperativeRun.iterate (h : CooperativeRun b th) (n : ℕ) :
    CooperativeRun b ((step b)^[n] th) := by
  intro m
  rw [← Function.iterate_add_apply]
  exact h (m + n)

/-- The thread ended, and not by reading an error that nobody stored. -/
def Stopped (th : Thread V P) : Prop := ∃ d, d ≠ .undefined ∧ th.control = .dead d

/-- The thread has stopped, or its arm is sound. -/
def Flying (th : Thread V P) : Prop := Stopped th ∨ (th.isDead = false ∧ Flight th.arm)

theorem mem_items_of_control {id car : ℕ}
    (hc : th.control = .done (.unwind (.escape id car))) : .escape id car ∈ th.items := by
  rw [items_done hc]
  exact List.mem_append_left _ (List.mem_singleton_self _)

/-- A landing always finds the error its escape stored. -/
theorem Flight.dies_defined (h : Flight th.arm) {d : Death} (hd : Dies b th d) :
    d ≠ .undefined := by
  cases hd with
  | @unwritten id car rest K hc hs he =>
    have hx : Item.escape id car ∈ th.arm.items := mem_items_of_control hc
    have herr := h.stored hx
    rw [show th.arm.carriers = th.carriers from rfl, he] at herr
    simp at herr
  | cutShort hcut => cases hcut <;> exact nofun
  | noScope => exact nofun
  | uncaught => exact nofun
  | returned => exact nofun

/-- While an escape is in transit only the code on its path ends the program. -/
theorem Flight.cutShort (h : Flight th.arm) {id car : ℕ} (hx : .escape id car ∈ th.items)
    {d : Death} (hd : Dies b th d) : CutShort b th d := by
  have hmem : car ∈ scopes th.items := h.aimed.mem hx
  have hchain : th.active = (scopes th.items).head? := h.chain.head
  have hnodup : (scopes th.items).Nodup := h.nodup
  have haimed : Aimed th.items := h.aimed
  cases hd with
  | cutShort hcut => exact hcut
  | noScope hc ha =>
    -- the scope it is aimed at is open
    rw [ha] at hchain
    rw [List.head?_eq_none_iff.mp hchain.symm] at hmem
    exact absurd hmem List.not_mem_nil
  | @uncaught x hc hs =>
    rw [items_done hc, hs] at hmem
    cases x with
    | exception i => exact absurd hmem List.not_mem_nil
    | escape i c => exact absurd hmem List.not_mem_nil
  | @returned v c rest K hc hs he =>
    -- the escape to this scope would be in transit below it
    have hitems : th.items = .scope c :: items K := items_done_cons hc hs
    have hc' : c ∈ scopes th.items := by simp [hitems]
    obtain ⟨i, hi⟩ := h.ejected c hc' he
    replace hi : Item.escape i c ∈ th.items := hi
    rw [hitems] at hi haimed hnodup
    have hbelow : Item.escape i c ∈ items K := by simpa using hi
    exact absurd (Aimed.mem (l := items K) haimed hbelow) (List.nodup_cons.mp hnodup).1
  | unwritten hc hs he =>
    have hdefined := h.dies_defined (Dies.unwritten (b := b) hc hs he)
    exact absurd rfl hdefined

theorem Flying.step (h : Flying th) (hcoop : Cooperative b th) : Flying (Unwind.step b th) := by
  rcases h with ⟨d, hd, hc⟩ | ⟨hlive, hflight⟩
  · rw [step_of_isDead b (isDead_of_dead hc)]
    exact .inl ⟨d, hd, hc⟩
  · rcases allowed_step hlive hcoop with ⟨hlive', hm⟩ | ⟨d, hc, hd⟩
    · exact .inr ⟨hlive', hflight.move hm⟩
    · exact .inl ⟨d, hflight.dies_defined hd, hc⟩

theorem Flying.run (h : Flying th) (hcoop : CooperativeRun b th) (n : ℕ) :
    Flying ((Unwind.step b)^[n] th) :=
  Transition.iterate_invariant_along Flying (Cooperative b) (fun _ h' hc => h'.step hc) h hcoop n

theorem flying_initial (c : Code V P) : Flying (Thread.initial c) := by
  refine .inr ⟨rfl, rfl, ?_, List.nodup_nil, trivial, ?_, ?_, ?_, ?_⟩
  · exact nofun
  · refine ⟨nofun, ?_⟩
    rintro ⟨id, car, hx⟩
    cases hx
  · intro id car id' car' hx
    cases hx
  · exact nofun
  · intro id car hx
    cases hx

/-- The thread is dead, or its arm is sound and the escape is in transit until its scope is
over. -/
def Bound (id car : ℕ) (err : P) (th : Thread V P) : Prop :=
  th.isDead = true ∨ Flight th.arm ∧ (Pending id car err th.arm ∨ Over car th.arm)

theorem Bound.step {id car : ℕ} {err : P} (h : Bound id car err th) (hcoop : Cooperative b th) :
    Bound id car err (Unwind.step b th) := by
  cases hl : th.isDead with
  | true =>
    left
    rwa [step_of_isDead b hl]
  | false =>
    obtain ⟨hf, hpo⟩ := h.resolve_left (by simp [hl])
    rcases allowed_step hl hcoop with ⟨-, hm⟩ | ⟨d, hd, -⟩
    · refine .inr ⟨hf.move hm, ?_⟩
      rcases hpo with hpend | hover
      · exact (hpend.move hf hm).imp_right And.right
      · exact .inr (hover.move hm)
    · exact .inl (isDead_of_dead hd)

theorem Bound.run {id car : ℕ} {err : P} (h : Bound id car err th) (hcoop : CooperativeRun b th)
    (n : ℕ) : Bound id car err ((Unwind.step b)^[n] th) :=
  Transition.iterate_invariant_along (Bound id car err) (Cooperative b)
    (fun _ h' hc => h'.step hc) h hcoop n

structure Landed (rest : Result V P → Code V P) (err : P) (K : List (Frame V P))
    (th : Thread V P) : Prop where
  control : th.control = .run (rest (.error err))
  stack : th.stack = K
  down : th.inFlight = false

theorem step_lands {id car : ℕ} {rest : Result V P → Code V P} {err : P}
    (hc : th.control = .done (.unwind (.escape id car))) (hs : th.stack = .scope car rest :: K)
    (herr : (th.carriers car).error = some err) : Landed rest err K (step b th) := by
  rw [step_done hc]
  simp only [Thread.resume, hs, Thread.exit, lands_self, if_true, herr]
  exact ⟨rfl, rfl, rfl⟩

/-- Above its scope an escape is held by nobody but the outcome. -/
theorem carried_by_control {id car : ℕ} {seg : List (Frame V P)} {o : Outcome V}
    {rest : Result V P → Code V P} (hflight : Flight th.arm) (hc : th.control = .done o)
    (hs : th.stack = seg ++ .scope car rest :: K) (hfree : ∀ i c, .escape i c ∉ items seg)
    (hx : .escape id car ∈ th.items) : o = .unwind (.escape id car) := by
  have hitems : th.items = (o.item.toList ++ items seg) ++ .scope car :: items K := by
    rw [items_done hc, hs, items_append, List.append_assoc]
    rfl
  have hnodup : (scopes th.items).Nodup := hflight.nodup
  have haimed : Aimed th.items := hflight.aimed
  rw [hitems] at hx hnodup haimed
  rcases List.mem_append.mp hx with hx | hx
  · rcases List.mem_append.mp hx with ho | hseg
    · cases o with
      | ret v => simp [Outcome.item] at ho
      | unwind y =>
        cases y with
        | exception i => simp [Outcome.item, Thrown.item] at ho
        | escape i c =>
          simp only [Outcome.item, Thrown.item, Option.toList_some, List.mem_singleton] at ho
          cases ho
          rfl
    · exact absurd hseg (hfree id car)
  · -- below its own scope it would not be aimed at anything
    rw [scopes_append] at hnodup
    have hcar : car ∉ scopes (items K) := (List.nodup_cons.mp (List.nodup_append.mp hnodup).2.1).1
    have hbelow : Item.escape id car ∈ items K := by simpa using hx
    exact absurd (Aimed.mem (l := items K) haimed.of_append hbelow) hcar

/-- Unless the thread dies on the way, the escape is in transit for `n` steps and then lands. -/
def Arrives (b : Backend) (n id car : ℕ) (rest : Result V P → Code V P) (err : P)
    (K : List (Frame V P)) (th : Thread V P) : Prop :=
  (∀ m < n, ((step b)^[m] th).isDead = true ∨ .escape id car ∈ ((step b)^[m] th).items) ∧
    (((step b)^[n] th).isDead = true ∨ Landed rest err K ((step b)^[n] th))

theorem Arrives.of_isDead {n id car : ℕ} {rest : Result V P → Code V P} {err : P}
    (hm : ∀ m < n, ((step b)^[m] th).isDead = true ∨ .escape id car ∈ ((step b)^[m] th).items)
    (hdead : ((step b)^[n] th).isDead = true) : Arrives b n id car rest err K th :=
  ⟨hm, .inl hdead⟩

theorem Arrives.add {n m id car : ℕ} {rest : Result V P → Code V P} {err : P}
    (hn : ∀ i < n, ((step b)^[i] th).isDead = true ∨ .escape id car ∈ ((step b)^[i] th).items)
    (h : Arrives b m id car rest err K ((step b)^[n] th)) :
    Arrives b (m + n) id car rest err K th := by
  refine ⟨fun i hi => ?_, ?_⟩
  · by_cases hin : i < n
    · exact hn i hin
    · rw [show i = (i - n) + n by omega, Function.iterate_add_apply]
      exact h.1 (i - n) (by omega)
  · rw [Function.iterate_add_apply]
    exact h.2

theorem mem_scopes_of_suffix {car : ℕ} {rest : Result V P → Code V P}
    (h : .scope car rest :: K <:+ th.stack) : car ∈ scopes (items th.stack) := by
  obtain ⟨seg, hs⟩ := h
  rw [← hs, items_append, scopes_append]
  exact List.mem_append_right _ (List.mem_cons_self ..)

theorem scopes_items (th : Thread V P) : scopes th.items = scopes (items th.stack) := by
  unfold Thread.items
  split
  next o _ =>
    cases o with
    | ret v => rfl
    | unwind x => cases x <;> rfl
  next => rfl

/-- As long as its scope is on the stack the escape is in transit. -/
theorem Bound.pending {id car : ℕ} {err : P} (h : Bound id car err th)
    {rest : Result V P → Code V P} (hs : .scope car rest :: K <:+ th.stack) :
    th.isDead = true ∨ Flight th.arm ∧ Pending id car err th.arm := by
  refine h.imp_right fun hf => ⟨hf.1, hf.2.resolve_right ?_⟩
  intro hover
  have hmem := mem_scopes_of_suffix hs
  rw [← scopes_items] at hmem
  exact hover.2 hmem

/-- An escape reaches the scope it is aimed at, unless the thread stops before. -/
theorem escape_arrives {id car : ℕ} {rest : Result V P → Code V P} {err : P}
    (seg : List (Frame V P)) (hfree : ∀ i c, .escape i c ∉ items seg)
    (hflight : Flight th.arm) (hcoop : CooperativeRun b th)
    (hc : th.control = .done (.unwind (.escape id car)))
    (hs : th.stack = seg ++ .scope car rest :: K) (herr : (th.carriers car).error = some err) :
    ∃ n, Arrives b n id car rest err K th := by
  -- by the frames above the scope: each gives the stack back, and the escape with it
  induction seg generalizing th with
  | nil =>
    refine ⟨1, fun m hm => ?_, .inr (step_lands hc hs herr)⟩
    rw [Nat.lt_one_iff.mp hm]
    exact .inr (mem_items_of_control hc)
  | cons f seg ih =>
    have hs' : th.stack = f :: (seg ++ .scope car rest :: K) := hs
    have hbound : Bound id car err th := .inr ⟨hflight, .inl ⟨mem_items_of_control hc, herr⟩⟩
    obtain ⟨n, hbelow, hn⟩ := returns_of_done (b := b) hc hs'
    have htransit : ∀ i ≤ n, ((step b)^[i] th).isDead = true ∨
        Flight ((step b)^[i] th).arm ∧ Pending id car err ((step b)^[i] th).arm := by
      intro i hi
      apply (hbound.run hcoop i).pending
      exact (List.suffix_append seg _).trans (hbelow i hi)
    have hitems : ∀ i < n, ((step b)^[i] th).isDead = true ∨
        .escape id car ∈ ((step b)^[i] th).items :=
      fun i hi => (htransit i hi.le).imp_right fun hp => hp.2.1
    rcases hn with hdead | ⟨o, ho, hstack⟩
    · exact ⟨n, .of_isDead hitems hdead⟩
    · rcases htransit n le_rfl with hdead | ⟨hflight', hpend⟩
      · exact ⟨n, .of_isDead hitems hdead⟩
      · have hfree' : ∀ i c, Item.escape i c ∉ items seg := by
          intro i c hx
          exact hfree i c (List.mem_append_right _ hx)
        have hsame := carried_by_control hflight' ho hstack hfree' hpend.1
        rw [hsame] at ho
        obtain ⟨m, hm⟩ := ih hfree' hflight' (hcoop.iterate n) ho hstack hpend.2
        exact ⟨m + n, .add hitems hm⟩

/-- The escape is in transit for `n` more steps, and the step after them lands it, unless the code
on its path ends the program there. -/
structure LandsAfter (b : Backend) (n id car : ℕ) (rest : Result V P → Code V P) (err : P)
    (K : List (Frame V P)) (th : Thread V P) : Prop where
  transit : ∀ m ≤ n, ((step b)^[m] th).isDead = false ∧ .escape id car ∈ ((step b)^[m] th).items
  lands : Landed rest err K ((step b)^[n + 1] th) ∨
    ∃ d, CutShort b ((step b)^[n] th) d ∧ ((step b)^[n + 1] th).control = .dead d

theorem LandsAfter.succ {n id car : ℕ} {rest : Result V P → Code V P} {err : P}
    (hlive : th.isDead = false) (hx : .escape id car ∈ th.items)
    (h : LandsAfter b n id car rest err K (step b th)) :
    LandsAfter b (n + 1) id car rest err K th where
  transit := by
    intro m hm
    cases m with
    | zero => exact ⟨hlive, hx⟩
    | succ m =>
      rw [Function.iterate_succ_apply]
      exact h.transit m (by omega)
  lands := by
    rw [Function.iterate_succ_apply, Function.iterate_succ_apply (step b) n]
    exact h.lands

theorem Arrives.landsAfter {n id car : ℕ} {rest : Result V P → Code V P} {err : P}
    (h : Arrives b n id car rest err K th) (hflight : Flight th.arm) (hcoop : CooperativeRun b th)
    (hlive : th.isDead = false) (hx : .escape id car ∈ th.items) :
    ∃ k, LandsAfter b k id car rest err K th := by
  -- by the steps to the landing, up to the first that ends the thread
  induction n generalizing th with
  | zero =>
    rcases h.2 with hdead | hlanded
    · rw [Function.iterate_zero_apply, hlive] at hdead
      cases hdead
    · have hup : th.inFlight = true := hflight.flag.mpr ⟨id, car, hx⟩
      have hdown : th.inFlight = false := hlanded.down
      rw [hdown] at hup
      cases hup
  | succ n ih =>
    have hstart : ∀ m ≤ 0, ((step b)^[m] th).isDead = false ∧
        .escape id car ∈ ((step b)^[m] th).items := by
      intro m hm
      rw [Nat.le_zero.mp hm]
      exact ⟨hlive, hx⟩
    rcases allowed_step hlive (hcoop 0) with ⟨hlive', hm⟩ | ⟨d, hd, hdies⟩
    · cases n with
      | zero =>
        have hlanded := h.2.resolve_left (by rw [Function.iterate_one, hlive']; exact nofun)
        exact ⟨0, hstart, .inl hlanded⟩
      | succ n =>
        have hx' : .escape id car ∈ (step b th).items :=
          (h.1 1 (by omega)).resolve_left (by rw [Function.iterate_one, hlive']; exact nofun)
        have hnext : Arrives b (n + 1) id car rest err K (step b th) :=
          ⟨fun m hm => h.1 (m + 1) (by omega), h.2⟩
        obtain ⟨k, hk⟩ := ih hnext (hflight.move hm) (hcoop.iterate 1) hlive' hx'
        exact ⟨k + 1, hk.succ hlive hx⟩
    · exact ⟨0, hstart, .inr ⟨d, hflight.cutShort hx hdies, hd⟩⟩

theorem eq_scope_of_item {f : Frame V P} {car : ℕ} (h : f.item = some (.scope car)) :
    ∃ rest, f = .scope car rest := by
  cases f with
  | scope c rest =>
    cases h
    exact ⟨rest, rfl⟩
  | handling x rest =>
    cases x with
    | escape i c => cases h
    | exception i => cases h
  | cleanup after =>
    cases after with
    | ret v => cases h
    | unwind x =>
      cases x with
      | escape i c => cases h
      | exception i => cases h
  | cont rest => cases h
  | own id dtor => cases h
  | handler all h' rest => cases h

/-- The first item of a stack that is a scope belongs to a frame with nothing above it. -/
theorem exists_scope {car : ℕ} {r : List Item} (h : items K = .scope car :: r) :
    ∃ seg rest K', K = seg ++ .scope car rest :: K' ∧ items seg = [] := by
  induction K with
  | nil => cases h
  | cons f K ih =>
    have hf : f.item.toList ++ items K = .scope car :: r := h
    cases hi : f.item with
    | none =>
      rw [hi] at hf
      obtain ⟨seg, rest, K', hK, hseg⟩ := ih hf
      refine ⟨f :: seg, rest, K', congrArg (f :: ·) hK, ?_⟩
      show f.item.toList ++ items seg = []
      rw [hi, hseg]
      rfl
    | some i =>
      rw [hi] at hf
      cases (List.cons.inj hf).1
      obtain ⟨rest, rfl⟩ := eq_scope_of_item hi
      exact ⟨[], rest, K, rfl, rfl⟩

/-- With nothing in transit the innermost scope is the first item. -/
theorem Flight.first {a : Arm P} (h : Flight a) {car : ℕ} (ha : a.active = some car)
    (hfree : ∀ id c, .escape id c ∉ a.items) : ∃ r, a.items = .scope car :: r := by
  have hhead := h.chain.head
  rw [ha] at hhead
  cases hi : a.items with
  | nil => simp [hi] at hhead
  | cons x r =>
    cases x with
    | escape id c =>
      refine absurd ?_ (hfree id c)
      rw [hi]
      exact List.mem_cons_self ..
    | scope c =>
      rw [hi] at hhead
      cases hhead
      exact ⟨r, rfl⟩

theorem step_eject {tag car : ℕ} {err : P} (hc : th.control = .run (.eject tag err))
    (ha : th.active = some car) (ht : (th.carriers car).tag = tag) (hf : th.inFlight = false) :
    (step b th).control = .done (.unwind (.escape th.next car)) ∧
      (step b th).stack = th.stack ∧ ((step b th).carriers car).error = some err ∧
      (step b th).log = th.log := by
  rw [step_run hc]
  simp [Thread.exec, Thread.eject, ha, ht, hf]

/-- An eject with nothing in transit, under a scope of its own error type, is under way at once
and lands. -/
theorem eject_lands {tag car : ℕ} {err : P} (hflight : Flight th.arm)
    (hcoop : CooperativeRun b th) (hc : th.control = .run (.eject tag err))
    (hf : th.inFlight = false) (ha : th.active = some car)
    (ht : (th.carriers car).tag = tag) :
    ∃ seg rest K, th.stack = seg ++ .scope car rest :: K ∧ items seg = [] ∧
      (step b th).control = .done (.unwind (.escape th.next car)) ∧
      (step b th).stack = th.stack ∧ ∃ n, LandsAfter b n th.next car rest err K (step b th) := by
  obtain ⟨r, hr⟩ := hflight.first ha (hflight.not_inFlight hf)
  rw [show th.arm.items = th.items from rfl, items_run hc] at hr
  obtain ⟨seg, rest, K, hs, hseg⟩ := exists_scope hr
  obtain ⟨hc', hs', herr, -⟩ := step_eject (b := b) hc ha ht hf
  refine ⟨seg, rest, K, hs, hseg, hc', hs', ?_⟩
  have hlive : th.isDead = false := by simp only [Thread.isDead, hc]
  have hlive' : (step b th).isDead = false := by simp only [Thread.isDead, hc']
  rcases allowed_step hlive (hcoop 0) with ⟨-, hm⟩ | ⟨d, hd, -⟩
  · have hfree : ∀ i c, Item.escape i c ∉ items seg := by simp [hseg]
    rw [hs] at hs'
    have hflight' := hflight.move hm
    obtain ⟨n, hn⟩ := escape_arrives seg hfree hflight' (hcoop.iterate 1) hc' hs' herr
    exact hn.landsAfter hflight' (hcoop.iterate 1) hlive' (mem_items_of_control hc')
  · rw [isDead_of_dead hd] at hlive'
    cases hlive'

end Jmpxx.Unwind
