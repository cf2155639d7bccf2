import Jmpxx.Lists
import Jmpxx.Store
import Jmpxx.Transition

namespace Jmpxx.Diagnostic

/-- What one thread does to its store. A landing enters and exits in nested order, being
an automatic object; `exit` leaves the innermost one. -/
inductive Op (L : Type*) where
  | openRecord (origin : L)
  | addHop (handle : UInt32) (loc : L)
  | find (handle : UInt32)
  | enter
  | exit
  deriving DecidableEq, Repr

/-- One failure of a run, as the reference documentation speaks of it: no slots, no
counters, only what was done to it. `number` counts the opens before it. -/
structure Failure (L : Type*) where
  number : ℕ
  handle : UInt32
  origin : L
  landings : List ℕ
  dropped : Bool
  hops : List L
  deriving DecidableEq, Repr

/-- The history of a run: every failure, oldest first, and the landings by the order of
their entry. -/
structure Ledger (L : Type*) where
  failures : List (Failure L)
  active : List ℕ
  entered : ℕ
  exited : List ℕ

variable {L : Type*}

/-- The failure has a record: it was not dropped, and no landing that was active when it
was created has exited since. -/
def Failure.isLive (exited : List ℕ) (f : Failure L) : Bool :=
  !f.dropped && f.landings.all (· ∉ exited)

theorem Failure.isLive_iff {exited : List ℕ} {f : Failure L} :
    f.isLive exited ↔ f.dropped = false ∧ ∀ a ∈ f.landings, a ∉ exited := by
  simp [isLive]

def Failure.pushHop (loc : L) (f : Failure L) : Failure L := { f with hops := f.hops ++ [loc] }

/-- What the documentation promises a reader of a live failure. -/
def Failure.context (f : Failure L) : Context L :=
  ⟨f.origin, f.hops.take maxChain, decide (maxChain < f.hops.length)⟩

namespace Ledger

def initial : Ledger L := ⟨[], [], 0, []⟩

def live (l : Ledger L) : List (Failure L) := l.failures.filter (·.isLive l.exited)

def newFailure (l : Ledger L) (handle : UInt32) (origin : L) : Failure L :=
  ⟨l.failures.length, handle, origin, l.active, decide (maxInflight ≤ l.live.length), []⟩

def hop (l : Ledger L) (handle : UInt32) (loc : L) : Ledger L :=
  { l with failures := l.failures.map fun f =>
      if f.handle = handle ∧ f.isLive l.exited then f.pushHop loc else f }

def opened (l : Ledger L) (issued : UInt32) (origin : L) : Ledger L :=
  { l with failures := l.failures ++ [l.newFailure issued origin] }

def enter (l : Ledger L) : Ledger L :=
  { l with active := l.entered :: l.active, entered := l.entered + 1 }

def exit (l : Ledger L) : Ledger L :=
  match l.active with
  | [] => l
  | a :: rest => { l with active := rest, exited := a :: l.exited }

theorem mem_live {l : Ledger L} {f : Failure L} :
    f ∈ l.live ↔ f ∈ l.failures ∧ f.dropped = false ∧ ∀ a ∈ f.landings, a ∉ l.exited := by
  simp [live, Failure.isLive_iff]

end Ledger

/-- A thread: its store, the marks its active landings hold, innermost first, and beside
them the ledger of what happened. Nothing of the ledger flows back into the store. -/
structure Thread (L : Type*) where
  store : Store L
  marks : List ℤ
  ledger : Ledger L

namespace Thread

def initial [Inhabited L] : Thread L := ⟨.initial, [], .initial⟩

def step (t : Thread L) : Op L → Thread L
  | .openRecord origin =>
    let (issued, store) := t.store.openRecord origin
    { t with store, ledger := t.ledger.opened issued origin }
  | .addHop handle loc =>
    { t with store := t.store.addHop handle loc, ledger := t.ledger.hop handle loc }
  | .find _ => t
  | .enter => { t with marks := t.store.mark :: t.marks, ledger := t.ledger.enter }
  | .exit =>
    match t.marks with
    | [] => t
    | m :: rest => { store := t.store.truncate m, marks := rest, ledger := t.ledger.exit }

theorem step_openRecord (t : Thread L) (o : L) :
    t.step (.openRecord o) =
      ⟨(t.store.openRecord o).2, t.marks, t.ledger.opened t.store.nextId o⟩ := by
  simp only [step, Store.openRecord_fst]

def run [Inhabited L] (ops : List (Op L)) : Thread L := Transition.run step initial ops

end Thread

/-- The handles a 32-bit counter issues before one comes again: all but the reserved 0. -/
def wrap : ℕ := 4294967295

def handleOf (n : ℕ) : UInt32 := UInt32.ofNat (1 + n % wrap)

theorem handleOf_toNat (n : ℕ) : (handleOf n).toNat = 1 + n % wrap := by
  simp only [handleOf, UInt32.toNat_ofNat', wrap]
  omega

theorem handleOf_ne_zero (n : ℕ) : handleOf n ≠ 0 := by
  intro h
  have := congrArg UInt32.toNat h
  rw [handleOf_toNat] at this
  simp at this

theorem handleOf_eq_iff {m n : ℕ} : handleOf m = handleOf n ↔ m % wrap = n % wrap := by
  rw [← UInt32.toNat_inj, handleOf_toNat, handleOf_toNat]
  omega

theorem bump_handleOf (n : ℕ) : Store.bump (handleOf n) = handleOf (n + 1) := by
  have hadd : (handleOf n + 1).toNat = (1 + n % wrap + 1) % 2 ^ 32 := by
    rw [UInt32.toNat_add, handleOf_toNat]
    rfl
  rw [← UInt32.toNat_inj, handleOf_toNat]
  unfold wrap at *
  unfold Store.bump
  split_ifs with h
  · have h0 := congrArg UInt32.toNat h
    rw [hadd] at h0
    simp only [UInt32.toNat_zero, UInt32.toNat_one] at h0 ⊢
    omega
  · have h0 : (handleOf n + 1).toNat ≠ 0 := fun h0 => h (UInt32.toNat_inj.mp h0)
    rw [hadd] at h0 ⊢
    omega

/-- A landing's mark splits the live failures at the depth it was entered at: exactly the
ones above were created under it. -/
def Splits (live : List (Failure L)) (m : ℤ) (a : ℕ) : Prop :=
  ∀ (i : ℕ) f, live[i]? = some f → (a ∈ f.landings ↔ m ≤ i)

structure Shape (t : Thread L) : Prop where
  next : t.store.nextId = handleOf t.ledger.failures.length
  numbers : ∀ (k : ℕ) f, t.ledger.failures[k]? = some f → f.number = k ∧ f.handle = handleOf k
  ids : t.store.slots.map Record.id = t.ledger.live.map Failure.handle
  marks : List.Forall₂ (Splits t.ledger.live) t.marks t.ledger.active
  nested : (t.store.mark :: t.marks).Pairwise (· ≥ ·)
  nonneg : ∀ m ∈ t.marks, 0 ≤ m
  nodup : t.ledger.active.Nodup
  active_lt : ∀ a ∈ t.ledger.active, a < t.ledger.entered
  active_fresh : ∀ a ∈ t.ledger.active, a ∉ t.ledger.exited
  exited_lt : ∀ a ∈ t.ledger.exited, a < t.ledger.entered
  landings_lt : ∀ f ∈ t.ledger.failures, ∀ a ∈ f.landings, a < t.ledger.entered

namespace Shape
variable {t : Thread L}

theorem length_live (h : Shape t) : t.ledger.live.length = t.store.depth := by
  simpa using (congrArg List.length h.ids).symm

theorem mark_le (h : Shape t) {m : ℤ} (hm : m ∈ t.marks) : m ≤ t.store.depth :=
  (List.pairwise_cons.mp h.nested).1 m hm

theorem initial [Inhabited L] : Shape (Thread.initial : Thread L) where
  next := rfl
  numbers := by simp [Thread.initial, Ledger.initial]
  ids := rfl
  marks := .nil
  nested := List.pairwise_singleton _ _
  nonneg := by simp [Thread.initial]
  nodup := List.nodup_nil
  active_lt := by simp [Thread.initial, Ledger.initial]
  active_fresh := by simp [Thread.initial, Ledger.initial]
  exited_lt := by simp [Thread.initial, Ledger.initial]
  landings_lt := by simp [Thread.initial, Ledger.initial]

end Shape

namespace Ledger

theorem live_opened (l : Ledger L) (issued : UInt32) (o : L)
    (hfresh : ∀ a ∈ l.active, a ∉ l.exited) :
    (l.opened issued o).live =
      if l.live.length < maxInflight then l.live ++ [l.newFailure issued o] else l.live := by
  have hnew : (l.newFailure issued o).isLive l.exited = decide (l.live.length < maxInflight) := by
    rw [Bool.eq_iff_iff, Failure.isLive_iff]
    simp only [newFailure, decide_eq_false_iff_not, not_le, decide_eq_true_eq, and_iff_left_iff_imp]
    exact fun _ => hfresh
  change (l.failures ++ [l.newFailure issued o]).filter (·.isLive l.exited) = _
  rw [List.filter_append, List.filter_cons, hnew, List.filter_nil]
  change l.live ++ _ = _
  by_cases h : l.live.length < maxInflight
  · simp only [h, decide_true, if_true]
  · simp only [h, decide_false, if_false, List.append_nil, Bool.false_eq_true]

/-- A hop changes neither who is live nor any handle. -/
theorem live_hop (l : Ledger L) (handle : UInt32) (loc : L) :
    (l.hop handle loc).live =
      l.live.map fun f => if f.handle = handle then f.pushHop loc else f := by
  unfold live hop
  rw [List.filter_map]
  have hp : (fun f : Failure L => f.isLive l.exited) ∘ (fun f =>
      if f.handle = handle ∧ f.isLive l.exited then f.pushHop loc else f) =
      fun f => f.isLive l.exited := by
    funext f
    simp only [Function.comp_apply]
    split_ifs <;> rfl
  rw [hp]
  refine List.map_congr_left fun f hf => ?_
  simp [(List.mem_filter.mp hf).2]

/-- Leaving a landing releases what was created under it and nothing else. -/
theorem live_exit (l : Ledger L) (a : ℕ) (rest : List ℕ) (ha : l.active = a :: rest) :
    l.exit.live = l.live.filter (a ∉ ·.landings) := by
  simp only [live, exit, ha, List.filter_filter]
  refine List.filter_congr fun f _ => ?_
  rw [Bool.eq_iff_iff, Bool.and_eq_true, Failure.isLive_iff, Failure.isLive_iff]
  simp only [List.mem_cons, not_or, decide_eq_true_eq]
  constructor
  · rintro ⟨hd, h⟩
    exact ⟨fun hm => (h a hm).1 rfl, hd, fun b hb => (h b hb).2⟩
  · rintro ⟨hm, hd, h⟩
    refine ⟨hd, fun b hb => ⟨?_, h b hb⟩⟩
    rintro rfl
    exact hm hb

end Ledger

namespace Shape
variable {t : Thread L}

theorem splits_take {live : List (Failure L)} {m : ℤ} {a : ℕ} (h : Splits live m a) (n : ℕ) :
    Splits (live.take n) m a := by
  intro i f hf
  by_cases hi : i < n
  · exact h i f (by rwa [List.getElem?_take_of_lt hi] at hf)
  · rw [List.getElem?_take_eq_none (by omega)] at hf
    cases hf

/-- To each mark belongs the landing that took it. -/
theorem active_cons (h : Shape t) {m : ℤ} {ms : List ℤ} (hm : t.marks = m :: ms) :
    ∃ a rest, t.ledger.active = a :: rest ∧ Splits t.ledger.live m a ∧
      List.Forall₂ (Splits t.ledger.live) ms rest := by
  have hmarks := h.marks
  rw [hm] at hmarks
  obtain ⟨a, rest, hs, hrest, ha⟩ := List.forall₂_cons_left_iff.mp hmarks
  exact ⟨a, rest, ha, hs, hrest⟩

/-- The live failures that survive the exit of the innermost landing are those below its
mark. -/
theorem live_exit (h : Shape t) {m : ℤ} {ms : List ℤ} (hm : t.marks = m :: ms) :
    t.ledger.exit.live = t.ledger.live.take m.toNat := by
  obtain ⟨a, rest, ha, hs, _⟩ := h.active_cons hm
  rw [Ledger.live_exit _ a rest ha]
  refine Lists.filter_eq_take _ _ _ fun i f hf => ?_
  have h0 := h.nonneg m (by simp [hm])
  simp only [decide_eq_true_eq, hs i f hf]
  omega

theorem numbers_opened (h : Shape t) (o : L) (k : ℕ) (f : Failure L)
    (hf : (t.ledger.opened t.store.nextId o).failures[k]? = some f) :
    f.number = k ∧ f.handle = handleOf k := by
  rcases Lists.getElem?_concat_eq_some.mp hf with hf | ⟨rfl, rfl⟩
  · exact h.numbers k f hf
  · exact ⟨rfl, h.next⟩

theorem landings_opened (h : Shape t) (o : L) (f : Failure L)
    (hf : f ∈ (t.ledger.opened t.store.nextId o).failures) (a : ℕ) (ha : a ∈ f.landings) :
    a < t.ledger.entered := by
  rcases List.mem_append.mp hf with hf | hf
  · exact h.landings_lt f hf a ha
  · rw [List.mem_singleton.mp hf] at ha
    exact h.active_lt a ha

/-- The new failure stands at the depth, at or above every mark. -/
theorem marks_opened (h : Shape t) (o : L) :
    List.Forall₂ (Splits (t.ledger.live ++ [t.ledger.newFailure t.store.nextId o])) t.marks
      t.ledger.active := by
  refine List.forall₂_iff_get.mpr ⟨h.marks.length_eq, fun i hi hi' => ?_⟩
  have hs := (List.forall₂_iff_get.mp h.marks).2 i hi hi'
  intro j f hf
  rcases Lists.getElem?_concat_eq_some.mp hf with hf | ⟨rfl, rfl⟩
  · exact hs j f hf
  · have hle := h.mark_le (List.get_mem t.marks ⟨i, hi⟩)
    have hlen := h.length_live
    rw [← hlen] at hle
    exact iff_of_true (List.get_mem t.ledger.active ⟨i, hi'⟩) hle

theorem nested_opened (h : Shape t) (o : L) (hd : t.store.depth < maxInflight) :
    ((t.store.openRecord o).2.mark :: t.marks).Pairwise (· ≥ ·) := by
  refine List.pairwise_cons.mpr ⟨fun m hm => ?_, (List.pairwise_cons.mp h.nested).2⟩
  have := h.mark_le hm
  simp only [Store.mark, Store.openRecord_depth t.store o hd]
  omega

theorem open_ (h : Shape t) (o : L) : Shape (t.step (.openRecord o)) := by
  have hlive := t.ledger.live_opened t.store.nextId o h.active_fresh
  have hlen := h.length_live
  have hnext : (t.store.openRecord o).2.nextId =
      handleOf (t.ledger.opened t.store.nextId o).failures.length := by
    simp [Ledger.opened, h.next, bump_handleOf]
  rw [Thread.step_openRecord]
  by_cases hd : t.store.depth < maxInflight
  · -- the record goes into the arena, and the failure to the end of the live ones
    rw [if_pos (by omega)] at hlive
    refine ⟨hnext, h.numbers_opened o, ?_, ?_, h.nested_opened o hd, h.nonneg, h.nodup,
      h.active_lt, h.active_fresh, h.exited_lt, h.landings_opened o⟩
    · simp only [hlive, Store.slots_open t.store o hd, List.map_append, h.ids]
      rfl
    · simp only [hlive]
      exact h.marks_opened o
  · -- the failure is dropped, and only the counter moves
    rw [if_neg (by omega)] at hlive
    have hfull := Store.openRecord_full t.store o (by omega)
    refine ⟨hnext, h.numbers_opened o, ?_, ?_, ?_, h.nonneg, h.nodup, h.active_lt,
      h.active_fresh, h.exited_lt, h.landings_opened o⟩
    · simp only [hlive, Store.slots_open_full t.store o (by omega)]
      exact h.ids
    · simp only [hlive]
      exact h.marks
    · simpa only [Store.mark, hfull.1] using h.nested

theorem slots_addHop_ids (s : Store L) (handle : UInt32) (loc : L) :
    (s.addHop handle loc).slots.map Record.id = s.slots.map Record.id := by
  apply List.ext_getElem?
  intro i
  simp only [List.getElem?_map, Store.slots_getElem?, Store.addHop_depth]
  split_ifs with hi
  · simp
  · rfl

theorem hop (h : Shape t) (handle : UInt32) (loc : L) : Shape (t.step (.addHop handle loc)) := by
  have hlive := t.ledger.live_hop handle loc
  have hsame : ∀ f : Failure L, (if f.handle = handle then f.pushHop loc else f).handle = f.handle ∧
      (if f.handle = handle then f.pushHop loc else f).landings = f.landings := by
    intro f
    split_ifs <;> exact ⟨rfl, rfl⟩
  refine ⟨by simpa [Thread.step, Ledger.hop] using h.next, ?_, ?_, ?_, ?_, h.nonneg, h.nodup,
    h.active_lt, h.active_fresh, h.exited_lt, ?_⟩
  · intro k f hf
    simp only [Thread.step, Ledger.hop, List.getElem?_map, Option.map_eq_some_iff] at hf
    obtain ⟨g, hg, rfl⟩ := hf
    split_ifs <;> exact h.numbers k g hg
  · simp only [Thread.step, slots_addHop_ids, hlive, List.map_map, h.ids]
    exact List.map_congr_left fun f _ => (hsame f).1.symm
  · refine h.marks.imp fun m a hs i f hf => ?_
    simp only [Thread.step, hlive, List.getElem?_map, Option.map_eq_some_iff] at hf
    obtain ⟨g, hg, rfl⟩ := hf
    rw [(hsame g).2]
    exact hs i g hg
  · simpa only [Thread.step, Store.mark, Store.addHop_depth] using h.nested
  · intro f hf
    simp only [Thread.step, Ledger.hop, List.mem_map] at hf
    obtain ⟨g, hg, rfl⟩ := hf
    split_ifs <;> exact h.landings_lt g hg

theorem enter (h : Shape t) : Shape (t.step .enter) := by
  refine ⟨h.next, h.numbers, h.ids, .cons ?_ h.marks, ?_, ?_, ?_, ?_, ?_, ?_, ?_⟩
  · intro i f hf
    have hmem := List.mem_of_getElem? hf
    have hlt : i < t.store.depth := h.length_live ▸ (List.getElem?_eq_some_iff.mp hf).1
    have hnot : t.ledger.entered ∉ f.landings := fun ha =>
      lt_irrefl _ (h.landings_lt f (Ledger.mem_live.mp hmem).1 _ ha)
    simp only [hnot, Store.mark, false_iff, not_le]
    omega
  · refine List.pairwise_cons.mpr ⟨fun m hm => ?_, h.nested⟩
    rcases List.mem_cons.mp hm with rfl | hm
    · exact le_refl _
    · exact h.mark_le hm
  · intro m hm
    rcases List.mem_cons.mp hm with rfl | hm
    · exact Int.natCast_nonneg _
    · exact h.nonneg m hm
  · exact List.nodup_cons.mpr ⟨fun ha => lt_irrefl _ (h.active_lt _ ha), h.nodup⟩
  · intro a ha
    rcases List.mem_cons.mp ha with rfl | ha
    · exact Nat.lt_succ_self _
    · exact (h.active_lt a ha).trans (Nat.lt_succ_self _)
  · intro a ha
    rcases List.mem_cons.mp ha with rfl | ha
    · exact fun he => lt_irrefl _ (h.exited_lt _ he)
    · exact h.active_fresh a ha
  · exact fun a ha => (h.exited_lt a ha).trans (Nat.lt_succ_self _)
  · exact fun f hf a ha => (h.landings_lt f hf a ha).trans (Nat.lt_succ_self _)

theorem nested_truncate (h : Shape t) {m : ℤ} {ms : List ℤ} (hm : t.marks = m :: ms) :
    ((t.store.truncate m).mark :: ms).Pairwise (· ≥ ·) := by
  have h0 : 0 ≤ m := h.nonneg m (by simp [hm])
  have hle : m ≤ t.store.depth := h.mark_le (by simp [hm])
  have hnat : (m.toNat : ℤ) = m := Int.toNat_of_nonneg h0
  have hmark : (t.store.truncate m).mark = m := by
    rw [← hnat]
    simp only [Store.mark, Store.truncate_depth]
    omega
  rw [hmark, ← hm]
  exact (List.pairwise_cons.mp h.nested).2

theorem slots_truncate_ids (h : Shape t) {m : ℤ} {ms : List ℤ} (hm : t.marks = m :: ms) :
    (t.store.truncate m).slots.map Record.id = t.ledger.exit.live.map Failure.handle := by
  have hnat : (m.toNat : ℤ) = m := Int.toNat_of_nonneg (h.nonneg m (by simp [hm]))
  rw [h.live_exit hm, ← hnat, Store.slots_truncate, Int.toNat_natCast, List.map_take,
    List.map_take, h.ids]

theorem exit (h : Shape t) : Shape (t.step .exit) := by
  cases hm : t.marks with
  | nil => simpa only [Thread.step, hm] using h
  | cons m ms =>
    have hlive := h.live_exit hm
    have hids := h.slots_truncate_ids hm
    obtain ⟨a, rest, ha, _, hsplits⟩ := h.active_cons hm
    have hnd := List.nodup_cons.mp (ha ▸ h.nodup)
    have hrest : ∀ x ∈ rest, x ∈ t.ledger.active := fun x hx => by simp [ha, hx]
    have hexit : t.ledger.exit = { t.ledger with active := rest, exited := a :: t.ledger.exited } := by
      simp only [Ledger.exit, ha]
    have hstep : t.step .exit = ⟨t.store.truncate m, ms, t.ledger.exit⟩ := by
      simp only [Thread.step, hm]
    rw [hstep]
    refine ⟨?_, ?_, hids, ?_, h.nested_truncate hm, ?_, ?_, ?_, ?_, ?_, ?_⟩
    · simpa [hexit] using h.next
    · simpa only [hexit] using h.numbers
    · -- the outer marks split what is left as they split all of it
      simp only [hlive]
      rw [hexit]
      exact hsplits.imp fun _ _ hs => splits_take hs _
    · exact fun x hx => h.nonneg x (by simp [hm, hx])
    · simpa only [hexit] using hnd.2
    · rw [hexit]
      exact fun x hx => h.active_lt x (hrest x hx)
    · rw [hexit]
      intro x hx he
      rcases List.mem_cons.mp he with rfl | he
      · exact hnd.1 hx
      · exact h.active_fresh x (hrest x hx) he
    · rw [hexit]
      intro x hx
      rcases List.mem_cons.mp hx with rfl | hx
      · exact h.active_lt x (by simp [ha])
      · exact h.exited_lt x hx
    · simpa only [hexit] using h.landings_lt

theorem step (h : Shape t) (op : Op L) : Shape (t.step op) := by
  cases op with
  | openRecord o => exact h.open_ o
  | addHop handle loc => exact h.hop handle loc
  | find _ => exact h
  | enter => exact h.enter
  | exit => exact h.exit

theorem run [Inhabited L] (ops : List (Op L)) : Shape (Thread.run ops) :=
  Transition.run_invariant _ Shape (fun _ op h => h.step op) _ Shape.initial ops

end Shape

end Jmpxx.Diagnostic
