import Jmpxx.Transition
import Jmpxx.Unwind
import Mathlib.Data.List.Basic
import Mathlib.Order.Basic
import Mathlib.Order.Nat

namespace Jmpxx.Unwind

variable {V P : Type}

/-- The thread gets back to the stack `K` with an outcome, unless it dies, and has `K` below all
the while. -/
def Returns (b : Backend) (K : List (Frame V P)) (th : Thread V P) : Prop :=
  ∃ n, (∀ i ≤ n, K <:+ ((step b)^[i] th).stack) ∧ (((step b)^[n] th).isDead = true ∨
    ∃ o, ((step b)^[n] th).control = .done o ∧ ((step b)^[n] th).stack = K)

variable {b : Backend} {K : List (Frame V P)} {th th' : Thread V P} {o : Outcome V}

theorem Returns.of_step (hK : K <:+ th.stack) (hs : step b th = th') (h : Returns b K th') :
    Returns b K th := by
  obtain ⟨n, hbelow, hn⟩ := h
  refine ⟨n + 1, fun i hi => ?_, by rwa [Function.iterate_succ_apply, hs]⟩
  cases i with
  | zero => exact hK
  | succ i =>
    rw [Function.iterate_succ_apply, hs]
    exact hbelow i (by omega)

theorem Returns.of_isDead (hK : K <:+ th.stack) (h : th.isDead = true) : Returns b K th := by
  refine ⟨0, fun i hi => ?_, .inl h⟩
  rwa [Nat.le_zero.mp hi]

theorem Returns.of_done (hc : th.control = .done o) (hs : th.stack = K) : Returns b K th := by
  subst hs
  refine ⟨0, fun i hi => ?_, .inr ⟨o, hc, rfl⟩⟩
  cases Nat.le_zero.mp hi
  exact List.suffix_rfl

theorem Returns.trans {K' : List (Frame V P)} (hK : K <:+ K') (h : Returns b K' th)
    (h' : ∀ th' o, th'.control = .done o → th'.stack = K' → Returns b K th') :
    Returns b K th := by
  obtain ⟨n, hbelow, hn⟩ := h
  rcases hn with hdead | ⟨o, hc, hs⟩
  · exact ⟨n, fun i hi => hK.trans (hbelow i hi), .inl hdead⟩
  · obtain ⟨m, hbelow', hm⟩ := h' _ o hc hs
    refine ⟨m + n, fun i hi => ?_, by rwa [Function.iterate_add_apply]⟩
    by_cases hin : i ≤ n
    · exact hK.trans (hbelow i hin)
    · rw [show i = (i - n) + n by omega, Function.iterate_add_apply]
      exact hbelow' (i - n) (by omega)

theorem suffix_of_cons {f : Frame V P} (hs : th.stack = f :: K) : K <:+ th.stack := by
  rw [hs]
  exact List.suffix_cons f K

/-- The code gets back to whatever stack it starts on. -/
def Code.Returns (b : Backend) (c : Code V P) : Prop :=
  ∀ th, th.control = .run c → Unwind.Returns b th.stack th

theorem Code.Returns.on {c : Code V P} (h : c.Returns b) (hc : th.control = .run c)
    (hs : th.stack = K) : Unwind.Returns b K th := by
  rw [← hs]
  exact h th hc

/-- The code a frame still has to run gets back to whatever stack it starts on. -/
def Frame.Returns (b : Backend) : Frame V P → Prop
  | .cont rest => ∀ v, (rest v).Returns b
  | .own _ dtor => dtor.Returns b
  | .scope _ rest => ∀ r, (rest r).Returns b
  | .handler _ h rest => h.Returns b ∧ ∀ v, (rest v).Returns b
  | .handling _ rest => ∀ v, (rest v).Returns b
  | .cleanup _ => True

theorem step_done (hc : th.control = .done o) : step b th = th.resume b o := by
  simp only [step, hc]

theorem step_run {c : Code V P} (hc : th.control = .run c) : step b th = th.exec b c := by
  simp only [step, hc]

theorem returns_cleanup {after : Outcome V} (hc : th.control = .done o)
    (hs : th.stack = .cleanup after :: K) : Returns b K th := by
  have hK := suffix_of_cons hs
  apply Returns.of_step hK (step_done hc)
  simp only [Thread.resume, hs]
  cases o with
  | ret v => exact Returns.of_done rfl rfl
  | unwind x =>
    cases after with
    | ret v => exact Returns.of_done hc rfl
    | unwind y => exact Returns.of_isDead hK (isDead_die _ _)

theorem returns_handling {x : Thrown} {rest : V → Code V P} (hrest : ∀ v, (rest v).Returns b)
    (hc : th.control = .done o) (hs : th.stack = .handling x rest :: K) : Returns b K th := by
  have hK := suffix_of_cons hs
  apply Returns.of_step hK (step_done hc)
  simp only [Thread.resume, hs]
  split_ifs
  · exact Returns.of_isDead hK (isDead_die _ _)
  · cases o with
    | ret v => exact (hrest v).on rfl rfl
    | unwind y => exact Returns.of_done hc rfl

/-- From an outcome at a frame the thread gets back to the stack below it. -/
theorem Frame.Returns.pop {f : Frame V P} (hf : f.Returns b) (hc : th.control = .done o)
    (hs : th.stack = f :: K) : Unwind.Returns b K th := by
  have hK := suffix_of_cons hs
  cases f with
  | cleanup after => exact returns_cleanup hc hs
  | handling x rest => exact returns_handling hf hc hs
  | cont rest =>
    apply Unwind.Returns.of_step hK (step_done hc)
    simp only [Thread.resume, hs]
    cases o with
    | ret v => exact (hf v).on rfl rfl
    | unwind x => exact Unwind.Returns.of_done hc rfl
  | own id dtor =>
    apply Unwind.Returns.of_step hK (step_done hc)
    simp only [Thread.resume, hs]
    -- the destructor runs first, on top of the outcome it interrupts
    refine Unwind.Returns.trans (List.suffix_cons (.cleanup o) K) (hf.on rfl rfl) ?_
    intro th' o' hc' hs'
    exact returns_cleanup hc' hs'
  | handler all h rest =>
    apply Unwind.Returns.of_step hK (step_done hc)
    simp only [Thread.resume, hs]
    cases o with
    | ret v => exact (hf.2 v).on rfl rfl
    | unwind x =>
      simp only
      split_ifs
      · refine Unwind.Returns.trans (List.suffix_cons (.handling x rest) K) (hf.1.on rfl rfl) ?_
        intro th' o' hc' hs'
        exact returns_handling hf.2 hc' hs'
      · exact Unwind.Returns.of_done hc rfl
  | scope car rest =>
    apply Unwind.Returns.of_step hK (step_done hc)
    simp only [Thread.resume, hs, Thread.exit]
    cases o with
    | ret v =>
      simp only
      split_ifs
      · exact Unwind.Returns.of_isDead hK (isDead_die _ _)
      · exact (hf _).on rfl rfl
    | unwind x =>
      simp only
      split_ifs
      · cases (th.carriers car).error with
        | none => exact Unwind.Returns.of_isDead hK (isDead_die _ _)
        | some err => exact (hf _).on rfl rfl
      · exact Unwind.Returns.of_done rfl rfl

/-- Code that is first run on top of a frame it leaves behind. -/
theorem returns_pushed {c : Code V P} {f : Frame V P} (hrun : c.Returns b) (hf : f.Returns b)
    (hc : th.control = .run c) (hs : th.stack = f :: K) : Returns b K th := by
  apply (hrun.on hc hs).trans (List.suffix_cons f K)
  intro th' o hc' hs'
  exact hf.pop hc' hs'

/-- Every code gets back to the stack it starts on, or the thread dies. -/
theorem Code.returns (c : Code V P) : c.Returns b := by
  induction c with
  | ret v =>
    intro th hc
    exact .of_step List.suffix_rfl (step_run hc) (.of_done rfl rfl)
  | call callee rest ihc ih =>
    intro th hc
    have hf : (Frame.cont rest).Returns b := ih
    exact .of_step List.suffix_rfl (step_run hc) (returns_pushed ihc hf rfl rfl)
  | own dtor rest ihd ih =>
    intro th hc
    have hf : (Frame.own th.next dtor).Returns b := ihd
    exact .of_step List.suffix_rfl (step_run hc) (returns_pushed ih hf rfl rfl)
  | scope tag body rest ihb ih =>
    intro th hc
    have hf : (Frame.scope th.next rest).Returns b := ih
    exact .of_step List.suffix_rfl (step_run hc) (returns_pushed ihb hf rfl rfl)
  | eject tag err =>
    intro th hc
    apply Unwind.Returns.of_step List.suffix_rfl (step_run hc)
    simp only [Thread.exec, Thread.eject]
    cases th.active with
    | none => exact .of_isDead List.suffix_rfl (isDead_die _ _)
    | some car =>
      simp only
      split_ifs
      · exact .of_isDead List.suffix_rfl (isDead_die _ _)
      · exact .of_isDead List.suffix_rfl (isDead_die _ _)
      · exact .of_done rfl rfl
  | throw =>
    intro th hc
    exact .of_step List.suffix_rfl (step_run hc) (.of_done rfl rfl)
  | tryCatch all body handler rest ihb ihh ih =>
    intro th hc
    have hf : (Frame.handler all handler rest).Returns b := ⟨ihh, ih⟩
    exact .of_step List.suffix_rfl (step_run hc) (returns_pushed ihb hf rfl rfl)
  | rethrow =>
    intro th hc
    apply Unwind.Returns.of_step List.suffix_rfl (step_run hc)
    simp only [Thread.exec]
    cases handled th.stack with
    | none => exact .of_isDead List.suffix_rfl (isDead_die _ _)
    | some x =>
      simp only [Thread.rethrow]
      split_ifs
      · exact .of_isDead List.suffix_rfl (isDead_die _ _)
      · exact .of_done rfl rfl

theorem Frame.returns (f : Frame V P) : f.Returns b := by
  cases f with
  | cont rest => exact fun v => (rest v).returns
  | own _ dtor => exact dtor.returns
  | scope _ rest => exact fun r => (rest r).returns
  | handler _ h rest => exact ⟨h.returns, fun v => (rest v).returns⟩
  | handling _ rest => exact fun v => (rest v).returns
  | cleanup _ => trivial

/-- From an outcome at its top frame a thread gets back to the stack below. -/
theorem returns_of_done {f : Frame V P} (hc : th.control = .done o) (hs : th.stack = f :: K) :
    Returns b K th := f.returns.pop hc hs

def owned : List (Frame V P) → List ℕ
  | [] => []
  | .own id _ :: K => id :: owned K
  | _ :: K => owned K

theorem owned_append (K K' : List (Frame V P)) : owned (K ++ K') = owned K ++ owned K' := by
  induction K with
  | nil => rfl
  | cons f K ih =>
    cases f with
    | own id dtor => exact congrArg (id :: ·) ih
    | cont rest => exact ih
    | scope car rest => exact ih
    | handler all h rest => exact ih
    | handling x rest => exact ih
    | cleanup after => exact ih

def destroyed (log : List Event) : List ℕ :=
  log.filterMap fun ev =>
    match ev with
    | .destroyed id => some id
    | .constructed _ => none

theorem destroyed_append (l l' : List Event) : destroyed (l ++ l') = destroyed l ++ destroyed l' :=
  List.filterMap_append

/-- What a step does to the objects: nothing, or it constructs a new one on top, or it
destroys the one on top. -/
structure Objects (th th' : Thread V P) : Prop where
  next_le : th.next ≤ th'.next
  cases : (owned th'.stack = owned th.stack ∧ th'.log = th.log) ∨
    (owned th'.stack = th.next :: owned th.stack ∧ th'.log = th.log ++ [.constructed th.next] ∧
      th'.next = th.next + 1) ∨
    ∃ id, owned th.stack = id :: owned th'.stack ∧ th'.log = th.log ++ [.destroyed id]

theorem Objects.same (hn : th.next ≤ th'.next) (hs : owned th'.stack = owned th.stack)
    (hl : th'.log = th.log) : Objects th th' := ⟨hn, .inl ⟨hs, hl⟩⟩

theorem objects_exec (c : Code V P) : Objects th (th.exec b c) := by
  cases c with
  | own dtor rest => exact ⟨Nat.le_succ _, .inr (.inl ⟨rfl, rfl, rfl⟩)⟩
  | eject tag err =>
    simp only [Thread.exec, Thread.eject]
    cases th.active with
    | none => exact .same le_rfl rfl rfl
    | some car =>
      simp only
      split_ifs
      · exact .same le_rfl rfl rfl
      · exact .same le_rfl rfl rfl
      · exact .same (Nat.le_succ _) rfl rfl
  | rethrow =>
    simp only [Thread.exec]
    cases handled th.stack with
    | none => exact .same le_rfl rfl rfl
    | some x =>
      simp only [Thread.rethrow]
      split_ifs
      · exact .same le_rfl rfl rfl
      · exact .same le_rfl rfl rfl
  | scope tag body rest => exact .same (Nat.le_succ _) rfl rfl
  | throw => exact .same (Nat.le_succ _) rfl rfl
  | ret v => exact .same le_rfl rfl rfl
  | call callee rest => exact .same le_rfl rfl rfl
  | tryCatch all body handler rest => exact .same le_rfl rfl rfl

theorem objects_resume (o : Outcome V) : Objects th (th.resume b o) := by
  unfold Thread.resume
  split
  next hs =>
    cases o with
    | ret v => exact .same le_rfl rfl rfl
    | unwind x => exact .same le_rfl rfl rfl
  next rest K hs =>
    cases o with
    | ret v => exact .same le_rfl (by rw [hs]; rfl) rfl
    | unwind x => exact .same le_rfl (by rw [hs]; rfl) rfl
  next id dtor K hs => exact ⟨le_rfl, .inr (.inr ⟨id, by rw [hs]; rfl, rfl⟩)⟩
  next after K hs =>
    split
    · exact .same le_rfl (by rw [hs]; rfl) rfl
    · exact .same le_rfl (by rw [hs]; rfl) rfl
    · exact .same le_rfl rfl rfl
  next all handler rest K hs =>
    cases o with
    | ret v => exact .same le_rfl (by rw [hs]; rfl) rfl
    | unwind x =>
      simp only
      split_ifs
      · exact .same le_rfl (by rw [hs]; rfl) rfl
      · exact .same le_rfl (by rw [hs]; rfl) rfl
  next x rest K hs =>
    split_ifs
    · exact .same le_rfl rfl rfl
    · cases o with
      | ret v => exact .same le_rfl (by rw [hs]; rfl) rfl
      | unwind y => exact .same le_rfl (by rw [hs]; rfl) rfl
  next car rest K hs =>
    unfold Thread.exit
    cases o with
    | ret v =>
      simp only
      split_ifs
      · exact .same le_rfl rfl rfl
      · exact .same le_rfl (by rw [hs]; rfl) rfl
    | unwind x =>
      simp only
      split_ifs
      · cases (th.carriers car).error with
        | none => exact .same le_rfl rfl rfl
        | some err => exact .same le_rfl (by rw [hs]; rfl) rfl
      · exact .same le_rfl (by rw [hs]; rfl) rfl

theorem objects_step (b : Backend) (th : Thread V P) : Objects th (step b th) := by
  unfold step
  split
  · exact objects_exec _
  · exact objects_resume _
  · exact .same le_rfl rfl rfl

/-- The live objects are distinct, and numbered below the next one. -/
structure Distinct (th : Thread V P) : Prop where
  lt : ∀ id ∈ owned th.stack, id < th.next
  nodup : (owned th.stack).Nodup

theorem Distinct.objects (h : Distinct th) (hobj : Objects th th') : Distinct th' := by
  rcases hobj.cases with ⟨hs, -⟩ | ⟨hs, -, hn⟩ | ⟨id, hs, -⟩
  · refine ⟨fun id hid => ?_, by rw [hs]; exact h.nodup⟩
    rw [hs] at hid
    exact (h.lt id hid).trans_le hobj.next_le
  · refine ⟨fun id hid => ?_, ?_⟩
    · rw [hs, List.mem_cons] at hid
      rcases hid with rfl | hid
      · omega
      · have := h.lt id hid
        omega
    · rw [hs]
      exact List.nodup_cons.mpr ⟨fun hid => lt_irrefl _ (h.lt _ hid), h.nodup⟩
  · have hnodup := h.nodup
    rw [hs] at hnodup
    refine ⟨fun i hi => ?_, (List.nodup_cons.mp hnodup).2⟩
    have hmem : i ∈ owned th.stack := by
      rw [hs]
      exact List.mem_cons_of_mem _ hi
    exact (h.lt i hmem).trans_le hobj.next_le

/-- What became of the objects numbered below `bound` that were `live`: the log destroys some of
them, innermost first, and the others are still on the stack. -/
def Unwound (bound : ℕ) (live : List ℕ) (log : List Event) (th : Thread V P) : Prop :=
  ∃ new, th.log = log ++ new ∧
    (destroyed new).filter (· < bound) ++ (owned th.stack).filter (· < bound) = live

theorem Unwound.refl (h : Distinct th) : Unwound th.next (owned th.stack) th.log th := by
  refine ⟨[], by simp, ?_⟩
  simp only [destroyed, List.filterMap_nil, List.filter_nil, List.nil_append]
  exact List.filter_eq_self.mpr fun id hid => by simpa using h.lt id hid

theorem Unwound.step {bound : ℕ} {live : List ℕ} {log : List Event} (hb : bound ≤ th.next)
    (h : Unwound bound live log th) : Unwound bound live log (step b th) := by
  obtain ⟨new, hlog, hlive⟩ := h
  rcases (objects_step b th).cases with ⟨hs, hl⟩ | ⟨hs, hl, -⟩ | ⟨id, hs, hl⟩
  · exact ⟨new, by rw [hl, hlog], by rw [hs, hlive]⟩
  -- a new object is numbered from the bound on, so it does not count
  · refine ⟨new ++ [.constructed th.next], by rw [hl, hlog, List.append_assoc], ?_⟩
    have hnew : ¬ th.next < bound := by omega
    rw [destroyed_append, hs, List.filter_cons_of_neg (by simpa using hnew)]
    simpa [destroyed] using hlive
  · refine ⟨new ++ [.destroyed id], by rw [hl, hlog, List.append_assoc], ?_⟩
    rw [← hlive, hs, destroyed_append, List.filter_append, List.append_assoc]
    congr 1
    by_cases hid : id < bound <;> simp [destroyed, hid]

/-- Over a whole run the objects are destroyed from the top of the stack. -/
theorem unwound_run (h : Distinct th) (n : ℕ) :
    Unwound th.next (owned th.stack) th.log ((step b)^[n] th) := by
  have hrun := Transition.iterate_invariant
    (fun th' => th.next ≤ th'.next ∧ Unwound th.next (owned th.stack) th.log th')
    (fun th' h' => ⟨h'.1.trans (objects_step b th').next_le, h'.2.step h'.1⟩)
    ⟨le_rfl, Unwound.refl h⟩ n
  exact hrun.2

end Jmpxx.Unwind
