import Jmpxx.Propagation
import Jmpxx.RichError

namespace Jmpxx.Diagnostic

open Propagation (Result World Exec Hook)

variable {L T U R α β : Type}

def chainLength (s : Store L) (e : RichError) : ℕ :=
  ((s.find e.handle).map fun i => (s.records.get i).hopCount).getD 0

/-- A thread, and the rich errors its frames hold. -/
structure Desk (L : Type) where
  thread : Thread L
  held : List RichError

/-- What a frame does with failures; `k` picks one of those held. A failure that was recovered
from is discarded too. -/
inductive Deed (L : Type) where
  | empty
  | create (code domain : Int32) (origin : L)
  | propagate (k : ℕ) (site : L)
  | inspect (k : ℕ)
  | discard (k : ℕ)

namespace Desk

def initial [Inhabited L] : Desk L := ⟨.initial, []⟩

def opens (d : Desk L) : ℕ := d.thread.ledger.failures.length

def active (d : Desk L) : List ℕ := d.thread.ledger.active

def on (d : Desk L) (op : Op L) : Desk L := { d with thread := d.thread.step op }

def hold (d : Desk L) (e : RichError) : Desk L := { d with held := e :: d.held }

/-- `rich_error(code, domain)` at `origin`. -/
def create (d : Desk L) (code domain : Int32) (origin : L) : RichError × Desk L :=
  (⟨code, domain, (d.thread.store.openRecord origin).1⟩, d.on (.openRecord origin))

def act (d : Desk L) : Deed L → Desk L
  | .empty => d.hold ⟨0, 0, 0⟩
  | .create code domain origin =>
    (d.create code domain origin).2.hold (d.create code domain origin).1
  | .propagate k site =>
    match d.held[k]? with
    | none => d
    | some e => d.on (.addHop e.handle site)
  | .inspect k =>
    match d.held[k]? with
    | none => d
    | some e => d.on (.find e.handle)
  | .discard k => { d with held := d.held.eraseIdx k }

end Desk

/-- The work of frames called on the way, with the landings they enter and leave. -/
inductive Work (L : Type) where
  | done
  | act (a : Deed L) (rest : Work L)
  | landing (body rest : Work L)

def Work.run : Work L → Desk L → Desk L
  | .done, d => d
  | .act a rest, d => rest.run (d.act a)
  | .landing body rest, d => rest.run ((body.run (d.on .enter)).on .exit)

/-- What a thread can have done so far, in landings it may not have left. -/
inductive Reached [Inhabited L] : Desk L → Prop
  | initial : Reached .initial
  | act {d : Desk L} (a : Deed L) (h : Reached d) : Reached (d.act a)
  | enter {d : Desk L} (h : Reached d) : Reached (d.on .enter)
  | exit {d : Desk L} (h : Reached d) : Reached (d.on .exit)

open Classical in
/-- With diagnostics on: the overload for `rich_error` notes the site, the template nothing. -/
noncomputable def overloads : Hook L (Desk L) where
  enabled := true
  note E e site d := if h : E = RichError then d.on (.addHop (cast h e).handle site) else d

abbrev Code (L R α : Type) := Exec Empty Empty L (Desk L) R α

namespace Code

def work (w : Work L) : Code L R Unit := fun s =>
  (.next (), { s with diagnostics := w.run s.diagnostics })

def richError (code domain : Int32) (origin : L) : Code L R RichError := fun s =>
  (.next (s.diagnostics.create code domain origin).1,
    { s with diagnostics := (s.diagnostics.create code domain origin).2 })

/-- `m`, and what destructors do when it is left, however it ends. -/
def leaving (m : Code L R α) (cleanup : Desk L → Desk L) : Code L R α := fun s =>
  ((m s).1, { (m s).2 with diagnostics := cleanup (m s).2.diagnostics })

def landing (m : Code L R α) : Code L R α := fun s =>
  leaving m (·.on .exit) { s with diagnostics := s.diagnostics.on .enter }

def inspect (e : RichError) : Code L R (RichError × Option (Context L) × ℕ) := fun s =>
  (.next (e, Diagnostic.inspect s.diagnostics.thread.store e,
    chainLength s.diagnostics.thread.store e), s)

end Code

open Code Propagation.Exec

/-- What a frame does with the result of its callee until it has returned: the macro that
propagates it, work before that and in destructors after, and landings around it. -/
inductive Homeward (L T U : Type) where
  | tryV (site : L) (rest : Code L (Result T RichError) Unit)
  | tryName (site : L) (rest : U → Code L (Result T RichError) Unit)
  | tryX (site : L) (rest : U → Code L (Result T RichError) Unit)
  | work (before : Work L) (rest : Homeward L T U) (after : Work L)
  | landing (rest : Homeward L T U)

namespace Homeward

noncomputable def exec (r : Result U RichError) : Homeward L T U → Code L (Result T RichError) Unit
  | .tryV site rest => do
    Propagation.tryV overloads site .move (pure r)
    rest
  | .tryName site rest => Propagation.tryName overloads site .move (pure r) rest
  | .tryX site rest => Propagation.tryX overloads site .move (pure r) rest
  | .work before rest after =>
    leaving (do
      Code.work before
      rest.exec r) after.run
  | .landing rest => Code.landing (rest.exec r)

def site : Homeward L T U → L
  | .tryV site _ => site
  | .tryName site _ => site
  | .tryX site _ => site
  | .work _ rest _ => rest.site
  | .landing rest => rest.site

end Homeward

/-- Nested calls: the innermost function fails, and each of the others propagates. -/
inductive Chain (L : Type) : Type → Type 1 where
  | leaf {T : Type} (before : Work L) (code domain : Int32) (origin : L) (after : Work L) : Chain L T
  | frame {T U : Type} (before : Work L) (callee : Chain L U) (home : Homeward L T U) : Chain L T

namespace Chain

noncomputable def exec : {T : Type} → Chain L T → Code L (Result T RichError) Unit
  | _, .leaf before code domain origin after =>
    leaving (do
      work before
      let e ← richError code domain origin
      ret (.ofFailure .move (Propagation.fail e))) after.run
  | _, .frame before callee home => do
    work before
    let r ← call callee.exec
    home.exec r

def frames : {T : Type} → Chain L T → ℕ
  | _, .leaf .. => 0
  | _, .frame _ callee _ => callee.frames + 1

def sites : {T : Type} → Chain L T → List L
  | _, .leaf .. => []
  | _, .frame _ callee home => callee.sites ++ [home.site]

def code : {T : Type} → Chain L T → Int32
  | _, .leaf _ code _ _ _ => code
  | _, .frame _ callee _ => callee.code

def domain : {T : Type} → Chain L T → Int32
  | _, .leaf _ _ domain _ _ => domain
  | _, .frame _ callee _ => callee.domain

def origin : {T : Type} → Chain L T → L
  | _, .leaf _ _ _ origin _ => origin
  | _, .frame _ callee _ => callee.origin

def deepest : {T : Type} → Chain L T → Desk L → Desk L
  | _, .leaf before _ _ _ _, d => before.run d
  | _, .frame before callee _, d => callee.deepest (before.run d)

/-- The function with the landing: the call, more work, and the inspection. -/
noncomputable def inspected (chain : Chain L T) (after : Work L) :
    Code L R (RichError × Option (Context L) × ℕ) :=
  landing do
    let r ← call chain.exec
    work after
    let e ← require r.assumeError
    Code.inspect e

end Chain

namespace Homeward

def settle (e : RichError) : Homeward L T U → Desk L → Desk L
  | .tryV site _, d => d.on (.addHop e.handle site)
  | .tryName site _, d => d.on (.addHop e.handle site)
  | .tryX site _, d => d.on (.addHop e.handle site)
  | .work before rest after, d => after.run (rest.settle e (before.run d))
  | .landing rest, d => (rest.settle e (d.on .enter)).on .exit

end Homeward

/-- The error the outermost function returns, and the desk it leaves. -/
def Chain.fails : {T : Type} → Chain L T → Desk L → RichError × Desk L
  | _, .leaf before code domain origin after, d =>
    (((before.run d).create code domain origin).1,
      after.run ((before.run d).create code domain origin).2)
  | _, .frame before callee home, d =>
    ((callee.fails (before.run d)).1,
      home.settle (callee.fails (before.run d)).1 (callee.fails (before.run d)).2)

theorem overloads_note (e : RichError) (site : L) (d : Desk L) :
    overloads.note RichError e site d = d.on (.addHop e.handle site) := dif_pos rfl

def Ends (m : Code L R α) (s : World Empty Empty L (Desk L)) (flow : Propagation.Flow R α)
    (d : Desk L) : Prop :=
  ∃ log, m s = (flow, ⟨log, d⟩)

section Ends

variable {m : Code L R α} {s : World Empty Empty L (Desk L)} {flow : Propagation.Flow R α}
  {d d' : Desk L}

theorem Ends.bind {f : α → Code L R β} {a : α} {flow : Propagation.Flow R β}
    (h : Ends m s (.next a) d) (hf : ∀ log, Ends (f a) ⟨log, d⟩ flow d') :
    Ends (m >>= f) s flow d' := by
  obtain ⟨log, hm⟩ := h
  obtain ⟨log', hf'⟩ := hf log
  exact ⟨log', (bind_next hm).trans hf'⟩

theorem Ends.bind_returned {f : α → Code L R β} {r : R} (h : Ends m s (.returned r) d) :
    Ends (m >>= f) s (.returned r) d := by
  obtain ⟨log, hm⟩ := h
  exact ⟨log, Propagation.Exec.bind_returned hm⟩

theorem Ends.leaving (h : Ends m s flow d) (cleanup : Desk L → Desk L) :
    Ends (Code.leaving m cleanup) s flow (cleanup d) := by
  obtain ⟨log, hm⟩ := h
  refine ⟨log, ?_⟩
  unfold Code.leaving
  rw [hm]

theorem Ends.landing (h : ∀ log, Ends m ⟨log, d.on .enter⟩ flow d') (log) :
    Ends (Code.landing m) ⟨log, d⟩ flow (d'.on .exit) :=
  (h log).leaving _

theorem Ends.work (w : Work L) (log) :
    Ends (Code.work w : Code L R Unit) ⟨log, d⟩ (.next ()) (w.run d) := ⟨log, rfl⟩

theorem Ends.call {m : Code L R Unit} {r : R} (h : Ends m s (.returned r) d) :
    Ends (call m : Code L β R) s (.next r) d := by
  obtain ⟨log, hm⟩ := h
  refine ⟨log, ?_⟩
  unfold Propagation.Exec.call
  rw [hm]

theorem Ends.scope (x : Propagation.Auto Empty L) (h : ∀ log, Ends m ⟨log, d⟩ flow d') (log) :
    Ends (scope x m) ⟨log, d⟩ flow d' := by
  obtain ⟨log', hm⟩ := h (log ++ [.constructed x])
  refine ⟨log' ++ [.destroyed x], ?_⟩
  unfold Propagation.Exec.scope
  rw [hm]

theorem Ends.hop (e : RichError) (site : L) (log) :
    Ends (Propagation.hop overloads e site : Code L R Unit) ⟨log, d⟩ (.next ())
      (d.on (.addHop e.handle site)) := by
  refine ⟨log, ?_⟩
  rw [← overloads_note]
  rfl

theorem Ends.returnFailure (site : L) (e : RichError) (log) :
    Ends (Propagation.returnFailure overloads site .move (.error e : Result U RichError) :
      Code L (Result T RichError) α) ⟨log, d⟩ (.returned (.error e))
      (d.on (.addHop e.handle site)) := by
  apply Ends.bind ⟨log, rfl⟩
  intro _
  apply Ends.bind (Ends.hop e site _)
  intro log'
  exact ⟨log', rfl⟩

/-- What each of the macros comes to on a failure, whatever it holds the result in. -/
theorem Ends.held {f : Result U RichError → Code L (Result T RichError) α} (site : L)
    (e : RichError) (x : Propagation.Auto Empty L)
    (hf : f (.error e) = Propagation.Exec.scope x
      (Propagation.returnFailure overloads site .move (.error e : Result U RichError))) (log) :
    Ends ((pure (.error e) : Code L (Result T RichError) (Result U RichError)) >>= f) ⟨log, d⟩
      (.returned (.error e)) (d.on (.addHop e.handle site)) := by
  apply Ends.bind ⟨log, rfl⟩
  intro _
  rw [hf]
  apply Ends.scope
  exact Ends.returnFailure site e

end Ends

/-- Whatever a macro is followed by, a failure goes no further than its site. -/
theorem Homeward.exec_error (home : Homeward L T U) (e : RichError) (d : Desk L) (log) :
    Ends (home.exec (.error e)) ⟨log, d⟩ (.returned (.error e)) (home.settle e d) := by
  induction home generalizing d log with
  | tryV site rest =>
    apply Ends.bind_returned
    exact Ends.held site e (.temp site) rfl log
  | tryName site rest => exact Ends.held site e (.temp site) rfl log
  | tryX site rest => exact Ends.held site e (.operand site) rfl log
  | work before rest after ih =>
    apply Ends.leaving
    apply Ends.bind (Ends.work before log)
    exact ih _
  | landing rest ih => exact Ends.landing (ih _) log

theorem Chain.exec_fails (chain : Chain L T) (d : Desk L) (log) :
    Ends chain.exec ⟨log, d⟩ (.returned (.error (chain.fails d).1)) (chain.fails d).2 := by
  induction chain generalizing d log with
  | leaf before code domain origin after =>
    apply Ends.leaving
    apply Ends.bind (Ends.work before log)
    intro _
    exact ⟨_, rfl⟩
  | frame before callee home ih =>
    apply Ends.bind (Ends.work before log)
    intro _
    apply Ends.bind (Ends.call (ih _ _))
    exact home.exec_error _ _

theorem Chain.inspected_ends (chain : Chain L T) (after : Work L) (d : Desk L) (log) :
    let e := (chain.fails (d.on .enter)).1
    let d' := after.run (chain.fails (d.on .enter)).2
    Ends (chain.inspected after : Code L R _) ⟨log, d⟩
      (.next (e, inspect d'.thread.store e, chainLength d'.thread.store e)) (d'.on .exit) := by
  apply Ends.landing
  intro _
  apply Ends.bind (Ends.call (chain.exec_fails _ _))
  intro _
  apply Ends.bind (Ends.work after _)
  intro log'
  exact ⟨log', rfl⟩

theorem Desk.opens_on (d : Desk L) (op : Op L) : (d.on op).opens = d.opens + Diagnostic.opens [op] :=
  length_failures_step d.thread op

theorem Desk.opens_enter (d : Desk L) : (d.on .enter).opens = d.opens := d.opens_on .enter

theorem Desk.opens_exit (d : Desk L) : (d.on .exit).opens = d.opens := d.opens_on .exit

theorem Desk.opens_hop (d : Desk L) (handle : UInt32) (site : L) :
    (d.on (.addHop handle site)).opens = d.opens := d.opens_on (.addHop handle site)

theorem Desk.opens_le_on (d : Desk L) (op : Op L) : d.opens ≤ (d.on op).opens := by
  rw [d.opens_on]
  omega

theorem Desk.opens_le_act (d : Desk L) (a : Deed L) : d.opens ≤ (d.act a).opens := by
  cases a with
  | empty => exact le_refl _
  | create code domain origin => exact d.opens_le_on _
  | propagate k site =>
    simp only [act]
    split
    · exact le_refl _
    · exact d.opens_le_on _
  | inspect k =>
    simp only [act]
    split <;> exact le_refl _
  | discard k => exact le_refl _

theorem Work.opens_le_run (w : Work L) (d : Desk L) : d.opens ≤ (w.run d).opens := by
  induction w generalizing d with
  | done => exact le_refl _
  | act a rest ih => exact (d.opens_le_act a).trans (ih _)
  | landing body rest ihb ih =>
    calc
      d.opens ≤ (d.on .enter).opens := d.opens_le_on _
      _ ≤ (body.run (d.on .enter)).opens := ihb _
      _ ≤ ((body.run (d.on .enter)).on .exit).opens := Desk.opens_le_on _ _
      _ ≤ _ := ih _

theorem Homeward.opens_le_settle (home : Homeward L T U) (e : RichError) (d : Desk L) :
    d.opens ≤ (home.settle e d).opens := by
  induction home generalizing d with
  | tryV site rest => exact d.opens_le_on _
  | tryName site rest => exact d.opens_le_on _
  | tryX site rest => exact d.opens_le_on _
  | work before rest after ih =>
    calc
      d.opens ≤ (before.run d).opens := before.opens_le_run d
      _ ≤ (rest.settle e (before.run d)).opens := ih _
      _ ≤ _ := after.opens_le_run _
  | landing rest ih =>
    calc
      d.opens ≤ (d.on .enter).opens := d.opens_le_on _
      _ ≤ (rest.settle e (d.on .enter)).opens := ih _
      _ ≤ _ := Desk.opens_le_on _ _

theorem Chain.opens_le_fails (chain : Chain L T) (d : Desk L) : d.opens ≤ (chain.fails d).2.opens := by
  induction chain generalizing d with
  | leaf before code domain origin after =>
    calc
      d.opens ≤ (before.run d).opens := before.opens_le_run d
      _ ≤ ((before.run d).create code domain origin).2.opens := Desk.opens_le_on _ _
      _ ≤ _ := after.opens_le_run _
  | frame before callee home ih =>
    calc
      d.opens ≤ (before.run d).opens := before.opens_le_run d
      _ ≤ (callee.fails (before.run d)).2.opens := ih _
      _ ≤ _ := home.opens_le_settle _ _

/-- A desk whose store keeps its ledger and whose frames hold errors of this thread, but for
the failure `own`, whose record is live and in nobody else's hands. -/
structure Keeps (own : Option (Failure L)) (d : Desk L) : Prop where
  shape : Shape d.thread
  chains : Chains d.thread
  bounded : d.opens ≤ wrap
  others : ∀ e ∈ d.held, e.handle = 0 ∨
    ∃ k < d.opens, (∀ f ∈ own, f.number ≠ k) ∧ e.handle = handleOf k
  live : ∀ f ∈ own, f ∈ d.thread.ledger.live

namespace Keeps

variable {own : Option (Failure L)} {d : Desk L}

theorem initial [Inhabited L] : Keeps none (Desk.initial : Desk L) where
  shape := Shape.initial
  chains := .nil
  bounded := Nat.zero_le _
  others := fun _ he => absurd he List.not_mem_nil
  live := fun _ hf => absurd hf (Option.not_mem_none _)

theorem failure (h : Keeps own d) {f : Failure L} (hf : f ∈ own) : f ∈ d.thread.ledger.failures :=
  (Ledger.mem_live.mp (h.live f hf)).1

theorem number_lt (h : Keeps own d) {f : Failure L} (hf : f ∈ own) : f.number < d.opens :=
  h.shape.number_lt (h.failure hf)

/-- Opening records leaves the handles others hold elsewhere. -/
theorem others_mono (h : Keeps own d) {own' : Option (Failure L)} {n : ℕ} (hn : d.opens ≤ n)
    (hown : ∀ k < d.opens, (∀ f ∈ own, f.number ≠ k) → ∀ f ∈ own', f.number ≠ k) :
    ∀ e ∈ d.held, e.handle = 0 ∨
      ∃ k < n, (∀ f ∈ own', f.number ≠ k) ∧ e.handle = handleOf k := by
  intro e he
  apply (h.others e he).imp_right
  intro hk
  obtain ⟨k, hk, hne, hhandle⟩ := hk
  exact ⟨k, hk.trans_le hn, hown k hk hne, hhandle⟩

/-- An operation that neither reaches the failure's record nor leaves its landing. -/
theorem on (h : Keeps own d) (op : Op L) (hbound : (d.on op).opens ≤ wrap)
    (hhop : ∀ f ∈ own, ∀ loc, op ≠ .addHop f.handle loc)
    (hexit : op = .exit → ∀ f ∈ own, ∀ a ∈ d.active.head?, a ∉ f.landings) :
    Keeps own (d.on op) where
  shape := h.shape.step op
  chains := chains_step h.shape h.chains (h.shape.distinctLive h.bounded) op
  bounded := hbound
  others := h.others_mono (d.opens_le_on op) fun _ _ hne => hne
  live := fun f hf => mem_live_step h.shape (h.live f hf) op (hhop f hf) fun ho => hexit ho f hf

/-- Opening a record and entering a landing do neither. -/
theorem on_quiet (h : Keeps own d) {op : Op L} (hop : op = .enter ∨ ∃ origin, op = .openRecord origin)
    (hbound : (d.on op).opens ≤ wrap) : Keeps own (d.on op) := by
  apply h.on op hbound
  · intro f _ loc ho
    rcases hop with hop | ⟨origin, hop⟩ <;> cases hop.symm.trans ho
  · intro ho
    rcases hop with hop | ⟨origin, hop⟩ <;> cases hop.symm.trans ho

theorem hold (h : Keeps own d) (e : RichError) (he : e.handle = 0 ∨
    ∃ k < d.opens, (∀ f ∈ own, f.number ≠ k) ∧ e.handle = handleOf k) : Keeps own (d.hold e) where
  shape := h.shape
  chains := h.chains
  bounded := h.bounded
  others := by
    intro e' he'
    rcases List.mem_cons.mp he' with rfl | he'
    · exact he
    · exact h.others e' he'
  live := h.live

/-- The handles others hold lead elsewhere: the counter has not come round. -/
theorem handle_ne (h : Keeps own d) {e : RichError} (he : e ∈ d.held) {f : Failure L}
    (hf : f ∈ own) : e.handle ≠ f.handle := by
  have hmem := h.failure hf
  have hlt := h.number_lt hf
  have hbound := h.bounded
  intro heq
  rcases h.others e he with hzero | ⟨k, hk, hne, hhandle⟩
  · exact h.shape.handle_ne_zero hmem (heq.symm.trans hzero)
  · rw [heq, h.shape.handle_number hmem, handleOf_eq_iff, Nat.mod_eq_of_lt (by omega),
      Nat.mod_eq_of_lt (by omega)] at hhandle
    exact hne f hf hhandle

theorem create (h : Keeps own d) (code domain : Int32) (origin : L)
    (hbound : (d.create code domain origin).2.opens ≤ wrap) :
    Keeps own ((d.create code domain origin).2.hold (d.create code domain origin).1) := by
  have hopens : (d.create code domain origin).2.opens = d.opens + 1 := d.opens_on _
  have hon : Keeps own (d.create code domain origin).2 := h.on_quiet (.inr ⟨origin, rfl⟩) hbound
  apply hon.hold
  refine .inr ⟨d.opens, by omega, fun f hf => (h.number_lt hf).ne, ?_⟩
  exact (Store.openRecord_fst _ _).trans h.shape.next

theorem act (h : Keeps own d) (a : Deed L) (hbound : (d.act a).opens ≤ wrap) :
    Keeps own (d.act a) := by
  cases a with
  | empty => exact h.hold _ (.inl rfl)
  | create code domain origin => exact h.create code domain origin hbound
  | propagate k site =>
    simp only [Desk.act] at hbound ⊢
    cases he : d.held[k]? with
    | none => exact h
    | some e =>
      rw [he] at hbound
      apply h.on _ hbound
      · intro f hf loc ho
        have hne := h.handle_ne (List.mem_of_getElem? he) hf
        exact hne (Op.addHop.inj ho).1
      · intro ho
        cases ho
  | inspect k =>
    simp only [Desk.act]
    cases d.held[k]? with
    | none => exact h
    | some e => exact ⟨h.shape, h.chains, h.bounded, h.others, h.live⟩
  | discard k =>
    exact ⟨h.shape, h.chains, h.bounded,
      fun e he => h.others e (List.mem_of_mem_eraseIdx he), h.live⟩

theorem enter (h : Keeps own d) : Keeps own (d.on .enter) :=
  h.on_quiet (.inl rfl) (d.opens_enter.trans_le h.bounded)

/-- Leaving a landing that was entered at `d`: nothing created before is under it. -/
theorem exit (h : Keeps own d) {own' : Option (Failure L)} {d' : Desk L} (h' : Keeps own' d')
    (hactive : d'.active = (d.on .enter).active)
    (hown : ∀ f' ∈ own', ∃ f ∈ own, f'.landings = f.landings) :
    Keeps own' (d'.on .exit) ∧ (d'.on .exit).active = d.active := by
  have henter : d'.active = d.thread.ledger.entered :: d.active := hactive
  have hlen := h'.shape.marks.length_eq
  constructor
  · apply h'.on _ (d'.opens_exit.trans_le h'.bounded)
    · intro _ _ _ ho
      cases ho
    · intro _ f' hf' a ha hmem
      obtain ⟨f, hf, hlandings⟩ := hown f' hf'
      rw [henter] at ha
      rw [← Option.some.inj ha, hlandings] at hmem
      exact lt_irrefl _ (h.shape.landings_lt f (h.failure hf) _ hmem)
  · have hledger : d'.thread.ledger.active = d.thread.ledger.entered :: d.active := henter
    cases hm : d'.thread.marks with
    | nil =>
      rw [hm, hledger] at hlen
      cases hlen
    | cons m ms => simp only [Desk.active, Desk.on, Thread.step, hm, Ledger.exit, hledger]

theorem active_act (d : Desk L) (a : Deed L) : (d.act a).active = d.active := by
  cases a with
  | propagate k site =>
    simp only [Desk.act]
    split <;> rfl
  | inspect k =>
    simp only [Desk.act]
    split <;> rfl
  | _ => rfl

theorem run (h : Keeps own d) (w : Work L) (hbound : (w.run d).opens ≤ wrap) :
    Keeps own (w.run d) ∧ (w.run d).active = d.active := by
  induction w generalizing d with
  | done => exact ⟨h, rfl⟩
  | act a rest ih =>
    have hact := h.act a ((rest.opens_le_run _).trans hbound)
    obtain ⟨hrest, hactive⟩ := ih hact hbound
    exact ⟨hrest, hactive.trans (active_act d a)⟩
  | landing body rest ihb ih =>
    have hexitBound : ((body.run (d.on .enter)).on .exit).opens ≤ wrap :=
      (rest.opens_le_run _).trans hbound
    obtain ⟨hbody, hbodyActive⟩ := ihb h.enter ((Desk.opens_le_on _ _).trans hexitBound)
    obtain ⟨hexit, hexitActive⟩ := h.exit hbody hbodyActive fun f hf => ⟨f, hf, rfl⟩
    obtain ⟨hrest, hactive⟩ := ih hexit hbound
    exact ⟨hrest, hactive.trans hexitActive⟩

theorem hop {f : Failure L} (h : Keeps (some f) d) (site : L) :
    Keeps (some (f.pushHop site)) (d.on (.addHop f.handle site)) where
  shape := h.shape.step (.addHop f.handle site)
  chains := chains_step h.shape h.chains (h.shape.distinctLive h.bounded) (.addHop f.handle site)
  bounded := (d.opens_hop _ _).trans_le h.bounded
  others := by
    apply h.others_mono (d.opens_le_on _)
    intro k _ hne f' hf'
    rw [← Option.some.inj hf']
    exact hne f rfl
  live := by
    intro f' hf'
    have hlive : (d.on (.addHop f.handle site)).thread.ledger.live = _ :=
      d.thread.ledger.live_hop f.handle site
    rw [hlive, ← Option.some.inj hf']
    exact List.mem_map.mpr ⟨f, h.live f rfl, if_pos rfl⟩

/-- On its way out of a frame the failure gains the frame's site. -/
theorem settle (home : Homeward L T U) {e : RichError} {f : Failure L} (h : Keeps (some f) d)
    (he : e.handle = f.handle) (hbound : (home.settle e d).opens ≤ wrap) :
    Keeps (some (f.pushHop home.site)) (home.settle e d) ∧ (home.settle e d).active = d.active := by
  have hhop : ∀ site {d : Desk L}, Keeps (some f) d →
      Keeps (some (f.pushHop site)) (d.on (.addHop e.handle site)) := by
    intro site d h
    rw [he]
    exact h.hop site
  induction home generalizing d with
  | tryV site rest => exact ⟨hhop site h, rfl⟩
  | tryName site rest => exact ⟨hhop site h, rfl⟩
  | tryX site rest => exact ⟨hhop site h, rfl⟩
  | work before rest after ih =>
    have hrestBound : (rest.settle e (before.run d)).opens ≤ wrap :=
      (after.opens_le_run _).trans hbound
    obtain ⟨hbefore, hbeforeActive⟩ := h.run before ((rest.opens_le_settle e _).trans hrestBound)
    obtain ⟨hrest, hrestActive⟩ := ih hbefore hrestBound
    obtain ⟨hafter, hafterActive⟩ := hrest.run after hbound
    exact ⟨hafter, hafterActive.trans (hrestActive.trans hbeforeActive)⟩
  | landing rest ih =>
    obtain ⟨hrest, hactive⟩ := ih h.enter ((Desk.opens_le_on _ _).trans hbound)
    refine h.exit hrest hactive fun f' hf' => ⟨f, rfl, ?_⟩
    rw [← Option.some.inj hf']
    rfl

/-- A failure created with room in the arena is live. -/
theorem born (h : Keeps none d) (hroom : d.thread.store.depth < maxInflight) (code domain : Int32)
    (origin : L) (hbound : (d.create code domain origin).2.opens ≤ wrap) :
    Keeps (some (d.thread.ledger.newFailure d.thread.store.nextId origin))
      (d.create code domain origin).2 := by
  have hon : Keeps none (d.create code domain origin).2 := h.on_quiet (.inr ⟨origin, rfl⟩) hbound
  refine ⟨hon.shape, hon.chains, hbound, ?_, fun f hf => ?_⟩
  · apply h.others_mono (d.opens_le_on _)
    intro k hk _ f hf
    rw [← Option.some.inj hf]
    exact hk.ne'
  · have hthread : (d.create code domain origin).2.thread = _ := d.thread.step_openRecord origin
    rw [hthread, Ledger.live_opened _ _ _ h.shape.active_fresh,
      if_pos (h.shape.length_live.trans_lt hroom), ← Option.some.inj hf]
    exact List.mem_append_right _ (List.mem_singleton_self _)

end Keeps

/-- Whatever happens on the way, the failure arrives with one hop for each frame. -/
theorem Chain.fails_keeps (chain : Chain L T) {d : Desk L} (h : Keeps none d)
    (hroom : (chain.deepest d).thread.store.depth < maxInflight)
    (hbound : (chain.fails d).2.opens ≤ wrap) :
    ∃ f : Failure L, Keeps (some f) (chain.fails d).2 ∧ f.origin = chain.origin ∧
      f.hops = chain.sites ∧ (chain.fails d).1 = ⟨chain.code, chain.domain, f.handle⟩ := by
  induction chain generalizing d with
  | leaf before code domain origin after =>
    have hcreate : ((before.run d).create code domain origin).2.opens ≤ wrap :=
      (after.opens_le_run _).trans hbound
    have hbefore := (h.run before ((Desk.opens_le_on _ _).trans hcreate)).1
    have hafter := ((hbefore.born hroom code domain origin hcreate).run after hbound).1
    refine ⟨_, hafter, rfl, rfl, ?_⟩
    show RichError.mk _ _ _ = _
    rw [Store.openRecord_fst]
    rfl
  | frame before callee home ih =>
    have hcallee : (callee.fails (before.run d)).2.opens ≤ wrap :=
      (home.opens_le_settle _ _).trans hbound
    have hbefore := (h.run before ((callee.opens_le_fails _).trans hcallee)).1
    obtain ⟨f, hf, horigin, hhops, he⟩ := ih hbefore hroom hcallee
    have hsettle := (hf.settle home (congrArg RichError.handle he) hbound).1
    refine ⟨_, hsettle, horigin, ?_, he⟩
    show f.hops ++ [home.site] = _
    rw [hhops]
    rfl

theorem Reached.keeps [Inhabited L] {d : Desk L} (h : Reached d) (hbound : d.opens ≤ wrap) :
    Keeps none d := by
  induction h with
  | initial => exact Keeps.initial
  | act a h ih => exact (ih ((Desk.opens_le_act _ a).trans hbound)).act a hbound
  | enter h ih => exact (ih ((Desk.opens_le_on _ _).trans hbound)).enter
  | exit h ih =>
    apply (ih ((Desk.opens_le_on _ _).trans hbound)).on _ hbound
    · intro _ _ _ ho
      cases ho
    · intro _ _ hf
      cases hf

theorem Chain.length_sites (chain : Chain L T) : chain.sites.length = chain.frames := by
  induction chain with
  | leaf before code domain origin after => rfl
  | frame before callee home ih =>
    show (callee.sites ++ [home.site]).length = callee.frames + 1
    rw [List.length_append, ih]
    rfl

theorem chainLength_eq {s : Store L} {e : RichError} {c : Context L} (h : inspect s e = some c) :
    chainLength s e = c.hops.length := by
  obtain ⟨i, hfind, hc⟩ := Option.map_eq_some_iff.mp h
  have hle := s.records[i].hopCount_le
  have hget : s.records.get i = s.records[i] := rfl
  rw [chainLength, hfind, Option.map_some, Option.getD_some, hget, ← hc, Record.context]
  simp only [List.length_take, Vector.length_toList]
  omega

/-- Inspected at the landing under which it was created, a failure shows its own origin and the
sites of its own chain, whatever the frames on the way did with others. -/
theorem inspect_at_landing [Inhabited L] {d : Desk L} (hd : Reached d) (chain : Chain L T)
    (after : Work L) (log : List (Propagation.Event Empty (Propagation.Auto Empty L)))
    (hroom : (chain.deepest (d.on .enter)).thread.store.depth < maxInflight)
    (hopens : ((chain.inspected after : Code L R _) ⟨log, d⟩).2.diagnostics.opens ≤ 2 ^ 32 - 1) :
    ∃ handle, ((chain.inspected after : Code L R _) ⟨log, d⟩).1 =
      .next (⟨chain.code, chain.domain, handle⟩,
        some ⟨chain.origin, chain.sites.take 16, decide (16 < chain.frames)⟩,
        min chain.frames 16) := by
  obtain ⟨log', hrun⟩ := @Chain.inspected_ends L T R chain after d log
  rw [hrun] at hopens ⊢
  have hafter : (after.run (chain.fails (d.on .enter)).2).opens ≤ wrap :=
    (Desk.opens_le_on _ _).trans hopens
  have hfails : (chain.fails (d.on .enter)).2.opens ≤ wrap := (after.opens_le_run _).trans hafter
  have henter : (d.on .enter).opens ≤ wrap := (chain.opens_le_fails _).trans hfails
  have hkeeps := (hd.keeps (d.opens_enter.symm.trans_le henter)).enter
  obtain ⟨f, hf, horigin, hhops, he⟩ := chain.fails_keeps hkeeps hroom hfails
  have hlast := (hf.run after hafter).1
  have hcontext : f.context =
      ⟨chain.origin, chain.sites.take 16, decide (16 < chain.frames)⟩ := by
    unfold Failure.context
    rw [horigin, hhops, chain.length_sites]
  have hinspect : inspect (after.run (chain.fails (d.on .enter)).2).thread.store
      (chain.fails (d.on .enter)).1 = some f.context := by
    have hdistinct := hlast.shape.distinctLive hlast.bounded
    unfold inspect
    rw [he, lookup_eq_some_iff hlast.shape hlast.chains hdistinct]
    exact ⟨f, hlast.live f rfl, rfl, rfl⟩
  have hlength := chainLength_eq hinspect
  rw [hcontext, List.length_take, chain.length_sites, Nat.min_comm] at hlength
  refine ⟨f.handle, ?_⟩
  simp only
  rw [hinspect, hlength, he, hcontext]

/-- Two frames, the inner with another failure of its own under a landing. -/
def busyChain : Chain ℕ Unit :=
  .frame .done
    (.frame (.act (.create 1 0 20) .done) (.leaf .done 5 7 10 .done : Chain ℕ Unit)
      (.landing (.work (.act (.create 2 0 21) (.act (.propagate 0 22) .done))
        (.tryV 11 (pure ())) .done)) : Chain ℕ Unit)
    (.tryName 12 pure)

theorem inspect_at_landing_busy :
    ∃ handle, ((busyChain.inspected (.act (.propagate 1 23) .done) : Code ℕ Unit _)
      ⟨[], .initial⟩).1 = .next (⟨5, 7, handle⟩, some ⟨10, [11, 12], false⟩, 2) := by
  have hopens : ((busyChain.inspected (.act (.propagate 1 23) .done) : Code ℕ Unit _)
      ⟨[], .initial⟩).2.diagnostics.opens ≤ 2 ^ 32 - 1 := by
    obtain ⟨log, hrun⟩ := @Chain.inspected_ends ℕ Unit Unit busyChain
      (.act (.propagate 1 23) .done) .initial []
    rw [hrun]
    dsimp only
    decide
  exact inspect_at_landing .initial busyChain _ [] (by decide) hopens

end Jmpxx.Diagnostic
