import Jmpxx.UnwindEscape

namespace Jmpxx.Unwind

open Propagation (Result)
open Function (update)
open Transition (run run_invariant)

variable {Tid V P : Type} [DecidableEq Tid] {b : Backend}

/-- The threads of a process, and the termination that ended it. -/
structure Process (Tid V P : Type) where
  threads : Tid → Thread V P
  terminated : Option Death

def Thread.death (th : Thread V P) : Option Death :=
  match th.control with
  | .dead d => some d
  | _ => none

namespace Process

/-- A thread takes a step, unless the process is over; a thread that dies takes it down. -/
def step (b : Backend) (p : Process Tid V P) (t : Tid) : Process Tid V P :=
  match p.terminated with
  | some _ => p
  | none =>
    let th := Unwind.step b (p.threads t)
    ⟨update p.threads t th, th.death⟩

def initial (programs : Tid → Program V P) : Process Tid V P :=
  ⟨fun t => .initial (programs t).code, none⟩

variable {p : Process Tid V P}

theorem step_threads_self (t : Tid) (h : p.terminated = none) :
    (p.step b t).threads t = Unwind.step b (p.threads t) := by
  unfold step
  rw [h]
  exact Function.update_self ..

theorem step_threads_of_ne {t t' : Tid} (ht : t' ≠ t) :
    (p.step b t).threads t' = p.threads t' := by
  unfold step
  split
  · rfl
  · exact Function.update_of_ne ht ..

theorem step_terminated (t : Tid) (h : p.terminated = none) :
    (p.step b t).terminated = (Unwind.step b (p.threads t)).death := by
  unfold step
  rw [h]

theorem step_over (t : Tid) (h : p.terminated ≠ none) : p.step b t = p := by
  unfold step
  split
  · rfl
  next hnone => exact absurd hnone h

theorem run_over (schedule : List Tid) (h : p.terminated ≠ none) :
    run (step b) p schedule = p := by
  induction schedule with
  | nil => rfl
  | cons t schedule ih =>
    rw [Transition.run_cons, step_over t h]
    exact ih

/-- Each thread runs on its own: it has taken the steps the schedule gave it. -/
theorem run_threads (schedule : List Tid) (t : Tid)
    (h : (run (step b) p schedule).terminated = none) :
    (run (step b) p schedule).threads t =
      (Unwind.step b)^[schedule.count t] (p.threads t) := by
  induction schedule generalizing p with
  | nil => rfl
  | cons t' schedule ih =>
    have hrun : p.terminated = none := by
      by_contra hover
      rw [run_over _ hover] at h
      exact hover h
    rw [Transition.run_cons] at h ⊢
    rw [ih h]
    by_cases ht : t' = t
    · subst ht
      rw [step_threads_self t' hrun, List.count_cons_self, Function.iterate_succ_apply]
    · rw [step_threads_of_ne (Ne.symm ht), List.count_cons_of_ne ht]

end Process

theorem death_eq_none {th : Thread V P} (h : th.death = none) : th.isDead = false := by
  unfold Thread.death at h
  unfold Thread.isDead
  split
  next hc => simp [hc] at h
  next => rfl

theorem death_eq_some {th : Thread V P} {d : Death} (h : th.death = some d) :
    th.control = .dead d := by
  unfold Thread.death at h
  split at h
  next hc =>
    cases h
    exact hc
  next => cases h

theorem regular_initial (c : Program V P) : Regular (.initial c.code) where
  live := rfl
  plain := ⟨c.plain, nofun⟩
  flight := by
    rcases flying_initial c.code with ⟨d, -, hd⟩ | ⟨-, hflight⟩
    · cases hd
    · exact hflight
  straight := ⟨trivial, List.nodup_nil⟩
  distinct := ⟨nofun, List.nodup_nil⟩

def Process.Regular (p : Process Tid V P) : Prop :=
  p.terminated = none → ∀ t, Unwind.Regular (p.threads t)

theorem Process.Regular.step {p : Process Tid V P} (h : p.Regular) (t : Tid) :
    (p.step b t).Regular := by
  intro hrun t'
  by_cases hover : p.terminated = none
  · by_cases ht : t' = t
    · subst ht
      rw [Process.step_terminated t' hover] at hrun
      rw [Process.step_threads_self t' hover]
      have hlive := death_eq_none hrun
      rcases (h hover t').step (b := b) with hreg | ⟨d, hd, -⟩
      · exact hreg
      · simp [isDead_of_dead hd] at hlive
    · rw [Process.step_threads_of_ne ht]
      exact h hover t'
  · rw [Process.step_over t hover] at hrun
    exact absurd hrun hover

theorem regular_run (programs : Tid → Program V P) (schedule : List Tid) :
    (run (Process.step b) (.initial programs) schedule).Regular :=
  run_invariant _ Process.Regular (fun _ t h => h.step t) _ (fun _ t => regular_initial (programs t))
    schedule

/-- Why the arm refuses an eject: no scope is open, the innermost one takes another error type,
or an escape is in transit. -/
def Refused (th : Thread V P) (tag : ℕ) : Death → Prop
  | .noScope => scopes th.items = []
  | .typeMismatch => ∃ car cars, scopes th.items = car :: cars ∧ (th.carriers car).tag ≠ tag
  | .alreadyUnwinding => ∃ id car, .escape id car ∈ th.items
  | _ => False

section
variable {th : Thread V P}

/-- In a plain program nothing cuts an escape short but a second eject. -/
theorem Regular.cutShort (h : Regular th) {d : Death} (hd : CutShort b th d) :
    ∃ tag err, th.control = .run (.eject tag err) ∧ Refused th tag d := by
  have hchain : th.active = (scopes th.items).head? := h.flight.chain.head
  cases hd with
  | @typeMismatch tag err car hc ha ht =>
    rw [ha] at hchain
    obtain ⟨cars, hcars⟩ := List.head?_eq_some_iff.mp hchain.symm
    exact ⟨tag, err, hc, car, cars, hcars, ht⟩
  | @alreadyUnwinding tag err car hc ha ht hf => exact ⟨tag, err, hc, h.flight.flag.mp hf⟩
  | unhandled hc => exact absurd (.inl hc) h.plain.not_handles
  | notReraised hb hc => exact absurd (.inl hc) h.plain.not_handles
  | @cleanup x y K hc hs =>
    -- the two escapes would be one escape held twice
    have hx := h.plain.control
    rw [hc] at hx
    have hy := (h.plain.of_cons hs).1
    have hitems := items_done_cons hc hs
    have hnodup : th.items.Nodup := h.straight.nodup
    cases x with
    | exception i => cases hx
    | escape i c =>
      cases y with
      | exception i' => cases hy
      | escape i' c' =>
        have hitems' : th.items = .escape i c :: .escape i' c' :: items K := hitems
        have hmem : Item.escape i c ∈ th.items := by simp [hitems']
        have hmem' : Item.escape i' c' ∈ th.items := by simp [hitems']
        have hsame := h.flight.unique hmem hmem'
        rw [hitems', hsame.1, hsame.2] at hnodup
        exact absurd (List.mem_cons_self ..) (List.nodup_cons.mp hnodup).1
  | givenUp hb hg => simp [h.givesUp] at hg

/-- In a plain program nothing but a refused eject ends a thread. -/
theorem Regular.dies (h : Regular th) {d : Death} (hd : Dies b th d) :
    ∃ tag err, th.control = .run (.eject tag err) ∧ Refused th tag d := by
  have hchain : th.active = (scopes th.items).head? := h.flight.chain.head
  have hnodup : (scopes th.items).Nodup := h.flight.nodup
  have haimed : Aimed th.items := h.flight.aimed
  cases hd with
  | cutShort hcut => exact h.cutShort hcut
  | @noScope tag err hc ha =>
    refine ⟨tag, err, hc, ?_⟩
    rw [ha] at hchain
    exact List.head?_eq_none_iff.mp hchain.symm
  | @uncaught x hc hs =>
    -- the escape would be aimed at a scope of the empty stack
    have hplain := h.plain.control
    rw [hc] at hplain
    cases x with
    | exception id => cases hplain
    | escape id car =>
      rw [items_done hc, hs] at haimed
      exact absurd haimed.1 List.not_mem_nil
  | @returned v car rest K hc hs he =>
    -- an escape would be in transit below the scope it is aimed at
    have hitems : th.items = .scope car :: items K := items_done_cons hc hs
    have hcar : car ∈ scopes th.items := by simp [hitems]
    obtain ⟨id, hx⟩ := h.flight.ejected car hcar he
    replace hx : Item.escape id car ∈ th.items := hx
    rw [hitems] at hx haimed hnodup
    have hbelow : Item.escape id car ∈ items K := by simpa using hx
    exact absurd (Aimed.mem (l := items K) haimed hbelow) (List.nodup_cons.mp hnodup).1
  | @unwritten id car rest K hc hs he =>
    have hstop := h.flight.dies_defined (Dies.unwritten (b := b) hc hs he)
    exact absurd rfl hstop

theorem eject_die {tag : ℕ} {err : P}
    (h : ∀ car, th.active = some car → (th.carriers car).tag = tag → th.inFlight = true) :
    ∃ d, th.eject tag err = th.die d := by
  unfold Thread.eject
  split
  · exact ⟨_, rfl⟩
  next car ha =>
    split_ifs with htag hflag
    · exact ⟨_, rfl⟩
    · exact ⟨_, rfl⟩
    · exact absurd (h car ha (not_not.mp htag)) hflag

/-- A refused eject ends the thread on the spot. -/
theorem Regular.refused (h : Regular th) {tag : ℕ} {err : P} {d : Death}
    (hc : th.control = .run (.eject tag err)) (hd : Refused th tag d) :
    ∃ d', Unwind.step b th = th.die d' := by
  have hchain : th.active = (scopes th.items).head? := h.flight.chain.head
  rw [step_run hc]
  show ∃ d', th.eject tag err = th.die d'
  apply eject_die
  intro car ha ht
  cases d with
  | noScope =>
    have hnil : scopes th.items = [] := hd
    rw [hnil, ha] at hchain
    cases hchain
  | typeMismatch =>
    obtain ⟨c, cars, hcars, hne⟩ := hd
    rw [hcars, ha] at hchain
    cases hchain
    exact absurd ht hne
  | alreadyUnwinding => exact h.flight.flag.mpr hd
  | swallowed => cases hd
  | terminate => cases hd
  | undefined => cases hd

theorem Regular.cooperativeRun (h : Regular th) : CooperativeRun b th := by
  intro n
  rcases h.run (b := b) n with hdead | hreg
  · exact cooperative_of_isDead hdead
  · exact hreg.cooperative

theorem Regular.not_refused (h : Regular th) {tag : ℕ} (hd : ∀ d, ¬ Refused th tag d) :
    th.inFlight = false ∧ ∃ car, th.active = some car ∧ (th.carriers car).tag = tag := by
  have hchain : th.active = (scopes th.items).head? := h.flight.chain.head
  constructor
  · apply Bool.eq_false_iff.mpr
    intro hf
    exact hd .alreadyUnwinding (h.flight.flag.mp hf)
  · cases hs : scopes th.items with
    | nil => exact absurd hs (hd .noScope)
    | cons car cars =>
      rw [hs] at hchain
      refine ⟨car, hchain, ?_⟩
      by_contra hne
      exact hd .typeMismatch ⟨car, cars, hs, hne⟩

/-- From a state with these live objects the thread got to a scope, having destroyed the objects
above it, innermost first. -/
def Swept (seg : List (Frame V P)) (before after : Thread V P) : Prop :=
  ∃ new, after.log = before.log ++ new ∧
    (destroyed new).filter (· < before.next) = owned seg

theorem swept_run {seg : List (Frame V P)} {car : ℕ} {rest : Result V P → Code V P}
    (h : Distinct th) (hs : th.stack = seg ++ .scope car rest :: K) (n : ℕ)
    (hn : ((step b)^[n] th).stack = K) : Swept seg th ((step b)^[n] th) := by
  obtain ⟨new, hlog, hlive⟩ := unwound_run (b := b) h n
  refine ⟨new, hlog, ?_⟩
  have howned : owned th.stack = owned seg ++ owned K := by
    rw [hs, owned_append]
    rfl
  have hbelow : (owned K).filter (· < th.next) = owned K := by
    apply List.filter_eq_self.mpr
    intro id hid
    have hmem : id ∈ owned th.stack := by
      rw [howned]
      exact List.mem_append_right _ hid
    simpa using h.lt id hmem
  rw [hn, hbelow, howned] at hlive
  exact List.append_cancel_right hlive

/-- An eject that is not refused lands. -/
theorem Regular.lands (h : Regular th) {tag : ℕ} {err : P}
    (hc : th.control = .run (.eject tag err)) (hd : ∀ d, ¬ Refused th tag d) :
    ∃ seg car rest K, th.stack = seg ++ .scope car rest :: K ∧ items seg = [] ∧
      (owned seg).Nodup ∧ ∃ n, LandsAfter b n th.next car rest err K (Unwind.step b th) := by
  obtain ⟨hf, car, ha, ht⟩ := h.not_refused hd
  obtain ⟨seg, rest, K, hs, hseg, -, -, hlands⟩ := eject_lands h.flight h.cooperativeRun hc hf ha ht
  refine ⟨seg, car, rest, K, hs, hseg, ?_, hlands⟩
  have hnodup := h.distinct.nodup
  rw [hs, owned_append] at hnodup
  exact (List.nodup_append.mp hnodup).1

end

/-- What the arm promises of a thread of a running process. The scopes open on it are its
active stack. Only an eject the arm refuses ends the process, after which nothing is
destroyed. Any other eject is in transit until it lands at the innermost scope, with the
objects above destroyed, whatever the other threads do meanwhile, unless the process ends. -/
structure Escapes (b : Backend) (p : Process Tid V P) (t : Tid) : Prop where
  nested : Chain (p.threads t).carriers (p.threads t).active (scopes (p.threads t).items)
  failFast : ∀ d, (p.step b t).terminated = some d →
    ∃ tag err, (p.threads t).control = .run (.eject tag err) ∧ Refused (p.threads t) tag d
  refused : ∀ tag err d, (p.threads t).control = .run (.eject tag err) →
    Refused (p.threads t) tag d →
      (p.step b t).terminated ≠ none ∧ ((p.step b t).threads t).log = (p.threads t).log ∧
        ∀ schedule, run (Process.step b) (p.step b t) schedule = p.step b t
  lands : ∀ tag err, (p.threads t).control = .run (.eject tag err) →
    (∀ d, ¬ Refused (p.threads t) tag d) →
      ∃ seg car rest K, (p.threads t).stack = seg ++ .scope car rest :: K ∧ items seg = [] ∧
        (owned seg).Nodup ∧ ∃ n, ∀ schedule : List Tid,
          (run (Process.step b) p schedule).terminated ≠ none ∨
            ((0 < schedule.count t → schedule.count t ≤ n → .escape (p.threads t).next car ∈
                ((run (Process.step b) p schedule).threads t).items) ∧
              (schedule.count t = n + 1 →
                Landed rest err K ((run (Process.step b) p schedule).threads t) ∧
                  Swept seg (p.threads t) ((run (Process.step b) p schedule).threads t)))

theorem escapes_of_regular {p : Process Tid V P} (hp : p.Regular) (hrun : p.terminated = none)
    (hruns : ∀ schedule, (run (Process.step b) p schedule).Regular) (t : Tid) :
    Escapes b p t where
  nested := (hp hrun t).flight.chain
  failFast := by
    intro d hd
    rw [Process.step_terminated t hrun] at hd
    rcases (hp hrun t).step (b := b) with hreg | ⟨d', hd', hdies⟩
    · have hlive := hreg.live
      rw [isDead_of_dead (death_eq_some hd)] at hlive
      cases hlive
    · rw [death_eq_some hd] at hd'
      cases hd'
      exact (hp hrun t).dies hdies
  refused := by
    intro tag err d hc hd
    obtain ⟨d', hstep⟩ := (hp hrun t).refused (b := b) hc hd
    have hover : (p.step b t).terminated ≠ none := by
      rw [Process.step_terminated t hrun, hstep]
      exact nofun
    refine ⟨hover, ?_, fun schedule => Process.run_over schedule hover⟩
    rw [Process.step_threads_self t hrun, hstep]
    rfl
  lands := by
    intro tag err hc hd
    obtain ⟨seg, car, rest, K, hs, hseg, hnodup, n, htransit, hland⟩ :=
      (hp hrun t).lands (b := b) hc hd
    refine ⟨seg, car, rest, K, hs, hseg, hnodup, n + 1, fun schedule => ?_⟩
    by_cases hover : (run (Process.step b) p schedule).terminated = none
    · -- while the process runs, the thread has taken its steps and is not dead
      right
      have hthread := Process.run_threads schedule t hover
      have hlive : ((run (Process.step b) p schedule).threads t).isDead ≠ true := by
        rw [(hruns schedule hover t).live]
        exact Bool.false_ne_true
      refine ⟨fun hpos hle => ?_, fun hcount => ?_⟩
      · have hm := htransit (schedule.count t - 1) (by omega)
        rw [← Function.iterate_succ_apply, Nat.succ_eq_add_one, Nat.sub_add_cancel hpos,
          ← hthread] at hm
        exact hm.2
      · simp only [← Function.iterate_succ_apply, Nat.succ_eq_add_one] at hland
        rw [← hcount, ← hthread] at hland
        have hlanded : Landed rest err K ((run (Process.step b) p schedule).threads t) := by
          rcases hland with hlanded | ⟨d, -, hd'⟩
          · exact hlanded
          · exact absurd (isDead_of_dead hd') hlive
        refine ⟨hlanded, ?_⟩
        rw [hthread] at hlanded ⊢
        exact swept_run (hp hrun t).distinct hs _ hlanded.stack
    · exact .inl hover

/-- In every interleaving of the threads of a plain program, on either backend. -/
theorem escapes_sound (b : Backend) (programs : Tid → Program V P) (schedule : List Tid)
    (t : Tid) :
    (run (Process.step b) (.initial programs) schedule).terminated ≠ none ∨
      Escapes b (run (Process.step b) (.initial programs) schedule) t := by
  by_cases hover : (run (Process.step b) (.initial programs) schedule).terminated = none
  · right
    apply escapes_of_regular (regular_run programs schedule) hover
    intro schedule'
    rw [← Transition.run_append]
    exact regular_run programs _
  · exact .inl hover

end Jmpxx.Unwind
