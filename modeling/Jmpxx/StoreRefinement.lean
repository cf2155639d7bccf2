import Jmpxx.StoreLedger

namespace Jmpxx.Diagnostic

variable {L : Type*}

namespace Shape
variable {t : Thread L}

theorem handle_ne_zero (h : Shape t) {f : Failure L} (hf : f ∈ t.ledger.failures) :
    f.handle ≠ 0 := by
  obtain ⟨k, hk⟩ := List.mem_iff_getElem?.mp hf
  rw [(h.numbers k f hk).2]
  exact handleOf_ne_zero k

theorem handle_number (h : Shape t) {f : Failure L} (hf : f ∈ t.ledger.failures) :
    f.handle = handleOf f.number := by
  obtain ⟨k, hk⟩ := List.mem_iff_getElem?.mp hf
  rw [(h.numbers k f hk).2, (h.numbers k f hk).1]

theorem number_lt (h : Shape t) {f : Failure L} (hf : f ∈ t.ledger.failures) :
    f.number < t.ledger.failures.length := by
  obtain ⟨k, hk⟩ := List.mem_iff_getElem?.mp hf
  rw [(h.numbers k f hk).1]
  exact (List.getElem?_eq_some_iff.mp hk).1

/-- A handle resolves to the slot of the newest live failure that carries it. -/
theorem find_live (h : Shape t) {handle : UInt32} {i : Fin maxInflight} :
    t.store.find handle = some i ↔
      (∃ f, t.ledger.live[i.val]? = some f ∧ f.handle = handle) ∧
        ∀ j f, i.val < j → t.ledger.live[j]? = some f → f.handle ≠ handle := by
  have hids : ∀ j : ℕ, t.store.slots[j]?.map Record.id = t.ledger.live[j]?.map Failure.handle := by
    intro j
    rw [← List.getElem?_map, ← List.getElem?_map, h.ids]
  have hsome : ∀ j : ℕ, (∃ r, t.store.slots[j]? = some r ∧ r.id = handle) ↔
      ∃ f, t.ledger.live[j]? = some f ∧ f.handle = handle := by
    intro j
    simp only [← Option.map_eq_some_iff, hids]
  rw [Store.find_slots, hsome]
  constructor
  · rintro ⟨-, hf, hnew⟩
    refine ⟨hf, fun j f hij hj he => ?_⟩
    obtain ⟨r, hr, hre⟩ := (hsome j).mpr ⟨f, hj, he⟩
    exact hnew j r hij hr hre
  · rintro ⟨⟨f, hi, he⟩, hnew⟩
    refine ⟨?_, ⟨f, hi, he⟩, fun j r hij hj hre => ?_⟩
    · rw [← he]
      exact h.handle_ne_zero (Ledger.mem_live.mp (List.mem_of_getElem? hi)).1
    · obtain ⟨g, hg, hge⟩ := (hsome j).mp ⟨r, hj, hre⟩
      exact hnew j g hij hg hge

theorem find_none (h : Shape t) {handle : UInt32} :
    t.store.find handle = none ↔ ∀ f ∈ t.ledger.live, f.handle ≠ handle := by
  rw [Store.find_none_slots]
  have hids : (∀ r ∈ t.store.slots, r.id ≠ handle) ↔ ∀ f ∈ t.ledger.live, f.handle ≠ handle := by
    rw [← @List.forall_mem_map _ _ Record.id _ (· ≠ handle), h.ids, List.forall_mem_map]
  rw [hids]
  refine or_iff_right_of_imp ?_
  rintro rfl f hf
  exact h.handle_ne_zero (Ledger.mem_live.mp hf).1

end Shape

def Records (r : Record L) (f : Failure L) : Prop :=
  r.context = f.context ∧ r.hopCount = min f.hops.length maxChain

def Chains (t : Thread L) : Prop := List.Forall₂ Records t.store.slots t.ledger.live

def DistinctLive (t : Thread L) : Prop := (t.ledger.live.map Failure.handle).Nodup

theorem records_pushHop {r : Record L} {f : Failure L} (h : Records r f) (loc : L) :
    Records (Store.pushHop r loc) (f.pushHop loc) := by
  obtain ⟨hctx, hcount⟩ := h
  simp only [Record.context, Failure.context, Context.mk.injEq] at hctx
  obtain ⟨horigin, hhops, htrunc⟩ := hctx
  -- a full record only learns that it is truncated, as the first hops of the failure stay
  by_cases hfull : maxChain ≤ r.hopCount
  · have hlen : maxChain ≤ f.hops.length := by omega
    have hpush : Store.pushHop r loc = { r with hopsTruncated := true } := by
      simp [Store.pushHop, hfull]
    refine ⟨?_, ?_⟩
    · simp only [Record.context, hpush, Failure.context, Failure.pushHop, Context.mk.injEq]
      refine ⟨horigin, ?_, ?_⟩
      · rw [hhops, List.take_append_of_le_length hlen]
      · exact (decide_eq_true (by simp only [List.length_append, List.length_singleton]; omega)).symm
    · simp only [hpush, Failure.pushHop, List.length_append, List.length_singleton]
      omega
  · have hlt : r.hopCount < maxChain := Nat.not_le.mp hfull
    have hlen : f.hops.length = r.hopCount := by omega
    have hpush : Store.pushHop r loc =
        { r with hops := r.hops.set r.hopCount loc hlt, hopCount := r.hopCount + 1,
                 hopCount_le := hlt } := by
      simp [Store.pushHop, hfull]
    have htake : f.hops.take maxChain = f.hops := List.take_of_length_le (by omega)
    refine ⟨?_, ?_⟩
    · simp only [Record.context, hpush, Failure.context, Failure.pushHop, Context.mk.injEq]
      refine ⟨horigin, ?_, ?_⟩
      · rw [@List.take_of_length_le _ _ (f.hops ++ [loc]) (by simp; omega)]
        rw [← htake, ← hhops, Vector.toList_set, List.take_succ_eq_append_getElem (by simpa using hlt)]
        simp [List.take_set_of_le]
      · rw [htrunc]
        simp only [List.length_append, List.length_singleton, decide_eq_decide]
        omega
    · simp only [hpush, Failure.pushHop, List.length_append, List.length_singleton]
      omega

theorem chains_step {t : Thread L} (h : Shape t) (hc : Chains t) (hd : DistinctLive t) (op : Op L) :
    Chains (t.step op) := by
  cases op with
  | openRecord o =>
    unfold Chains
    rw [Thread.step_openRecord, Ledger.live_opened _ _ _ h.active_fresh, h.length_live]
    split_ifs with hlt
    · simp only [Store.slots_open t.store o hlt]
      refine List.rel_append hc (.cons ⟨?_, ?_⟩ .nil)
      · simp [Record.context, Store.newRecord, Failure.context, Ledger.newFailure]
      · simp [Store.newRecord, Ledger.newFailure]
    · rw [Store.slots_open_full t.store o (Nat.not_lt.mp hlt)]
      exact hc
  | addHop handle loc =>
    unfold Chains
    simp only [Thread.step, Ledger.live_hop]
    -- a stale handle is no live failure's either, so store and ledger both stay as they are
    cases hf : t.store.find handle with
    | none =>
      rw [Store.addHop_of_find_none hf]
      have hid : (t.ledger.live.map fun f => if f.handle = handle then f.pushHop loc else f) =
          t.ledger.live := by
        conv_rhs => rw [← List.map_id t.ledger.live]
        exact List.map_congr_left fun f hlive => if_neg (h.find_none.mp hf f hlive)
      rw [hid]
      exact hc
    | some i =>
      obtain ⟨⟨f, hi, rfl⟩, -⟩ := h.find_live.mp hf
      rw [Store.slots_addHop hf, ← Lists.modify_eq_map _ Failure.handle _ hd i f hi]
      exact Lists.forall₂_modify hc i fun r g hrg => records_pushHop hrg loc
  | find _ => exact hc
  | enter => exact hc
  | exit =>
    cases hm : t.marks with
    | nil => simpa only [Chains, Thread.step, hm] using hc
    | cons m ms =>
      have h0 : (m.toNat : ℤ) = m := Int.toNat_of_nonneg (h.nonneg m (by simp [hm]))
      -- both sides keep what is below the mark
      simp only [Chains, Thread.step, hm]
      rw [h.live_exit hm, ← h0, Store.slots_truncate, Int.toNat_natCast]
      exact List.forall₂_take m.toNat hc

def opens (ops : List (Op L)) : ℕ :=
  ops.countP fun
    | .openRecord _ => true
    | _ => false

theorem opens_append (ops ops' : List (Op L)) : opens (ops ++ ops') = opens ops + opens ops' :=
  List.countP_append

theorem opens_le_concat (ops : List (Op L)) (op : Op L) : opens ops ≤ opens (ops ++ [op]) := by
  rw [opens_append]
  exact Nat.le_add_right _ _

theorem length_failures_step (t : Thread L) (op : Op L) :
    (t.step op).ledger.failures.length = t.ledger.failures.length + opens [op] := by
  cases op with
  | openRecord o => simp [Thread.step_openRecord, Ledger.opened, opens]
  | addHop handle loc => simp [Thread.step, Ledger.hop, opens]
  | find _ => rfl
  | enter => rfl
  | exit =>
    cases hm : t.marks with
    | nil => simp only [Thread.step, hm]; rfl
    | cons m ms => cases ha : t.ledger.active <;> simp [Thread.step, hm, Ledger.exit, ha, opens]

theorem length_failures [Inhabited L] (ops : List (Op L)) :
    (Thread.run ops).ledger.failures.length = opens ops := by
  induction ops using List.reverseRecOn with
  | nil => rfl
  | append_singleton ops op ih =>
    rw [Thread.run, Transition.run_concat, length_failures_step, ← Thread.run, ih, opens_append]

theorem Shape.handles_nodup {t : Thread L} (h : Shape t) (hlen : t.ledger.failures.length ≤ wrap) :
    (t.ledger.failures.map Failure.handle).Nodup := by
  have hmap : t.ledger.failures.map Failure.handle =
      (List.range t.ledger.failures.length).map handleOf := by
    apply List.ext_getElem?
    intro k
    rw [List.getElem?_map, List.getElem?_map]
    cases hk : t.ledger.failures[k]? with
    | none => simpa using hk
    | some f =>
      have hlt := (List.getElem?_eq_some_iff.mp hk).1
      simp [(h.numbers k f hk).2, hlt]
  rw [hmap]
  -- fewer than `wrap` opens: the counter has not come round, so equal handles are one open's
  refine List.Nodup.map_on (fun i hi j hj hij => ?_) List.nodup_range
  have hi' := List.mem_range.mp hi
  have hj' := List.mem_range.mp hj
  rw [handleOf_eq_iff] at hij
  rwa [Nat.mod_eq_of_lt (hi'.trans_le hlen), Nat.mod_eq_of_lt (hj'.trans_le hlen)] at hij

theorem Shape.distinctLive {t : Thread L} (h : Shape t) (hlen : t.ledger.failures.length ≤ wrap) :
    DistinctLive t :=
  (h.handles_nodup hlen).sublist (List.filter_sublist.map _)

theorem chains_run [Inhabited L] (ops : List (Op L)) (hopens : opens ops ≤ wrap) :
    Chains (Thread.run ops) := by
  induction ops using List.reverseRecOn with
  | nil => exact .nil
  | append_singleton ops op ih =>
    have hle := (opens_le_concat ops op).trans hopens
    have hd := (Shape.run ops).distinctLive (length_failures ops ▸ hle)
    rw [Thread.run, Transition.run_concat]
    exact chains_step (Shape.run ops) (ih hle) hd op

theorem lookup_eq_some_iff {t : Thread L} (h : Shape t) (hc : Chains t) (hd : DistinctLive t)
    (handle : UInt32) (c : Context L) :
    t.store.lookup handle = some c ↔ ∃ f ∈ t.ledger.live, f.handle = handle ∧ c = f.context := by
  have hc' := Lists.forall₂_iff_getElem?.mp hc
  have hresolve : ∀ (i : Fin maxInflight) f, t.ledger.live[i.val]? = some f →
      t.store.find f.handle = some i → t.store.lookup f.handle = some f.context := by
    intro i f hf hfind
    have hlt : i.val < t.store.slots.length := hc'.1 ▸ (List.getElem?_eq_some_iff.mp hf).1
    have hr := List.getElem?_eq_getElem hlt
    rw [Store.lookup_of_find hfind hr, (hc'.2 i _ f hr hf).1]
  constructor
  · intro hl
    cases hfind : t.store.find handle with
    | none => simp [Store.lookup, hfind] at hl
    | some i =>
      obtain ⟨⟨f, hf, rfl⟩, -⟩ := h.find_live.mp hfind
      exact ⟨f, List.mem_of_getElem? hf, rfl, Option.some.inj (hl.symm.trans (hresolve i f hf hfind))⟩
  · rintro ⟨f, hf, rfl, rfl⟩
    obtain ⟨i, hi⟩ := List.mem_iff_getElem?.mp hf
    have hlt := (List.getElem?_eq_some_iff.mp hi).1
    have hi16 : i < maxInflight := (h.length_live ▸ hlt).trans_le t.store.depth_le
    refine hresolve ⟨i, hi16⟩ f hi (h.find_live.mpr ⟨⟨f, hi, rfl⟩, fun j g hij hj he => ?_⟩)
    -- two live failures with one handle are one failure
    exact absurd hij (Lists.eq_of_nodup_map hd hi hj he.symm).not_lt

/-- What an operation does to a live failure it neither hops nor releases: nothing. -/
theorem mem_live_step {t : Thread L} (h : Shape t) {f : Failure L} (hf : f ∈ t.ledger.live)
    (op : Op L) (hhop : ∀ loc, op ≠ .addHop f.handle loc)
    (hexit : op = .exit → ∀ a ∈ t.ledger.active.head?, a ∉ f.landings) :
    f ∈ (t.step op).ledger.live := by
  cases op with
  | openRecord o =>
    rw [Thread.step_openRecord, Ledger.live_opened _ _ _ h.active_fresh]
    split_ifs
    · exact List.mem_append_left _ hf
    · exact hf
  | addHop handle loc =>
    simp only [Thread.step, Ledger.live_hop, List.mem_map]
    refine ⟨f, hf, if_neg ?_⟩
    rintro rfl
    exact hhop loc rfl
  | find _ => exact hf
  | enter => exact hf
  | exit =>
    cases hm : t.marks with
    | nil => simpa only [Thread.step, hm] using hf
    | cons m ms =>
      obtain ⟨a, rest, ha, -, -⟩ := h.active_cons hm
      simp only [Thread.step, hm, Ledger.live_exit _ a rest ha, List.mem_filter, hf, true_and,
        decide_eq_true_eq]
      exact hexit rfl a (by simp [ha])

/-- The store refines the ledger: over any run whose opens the counter can tell apart, a
handle resolves exactly while its failure is live, to that failure's own context, a stale
handle does nothing, and no operation touches the context of another live failure. -/
theorem store_refines_ledger [Inhabited L] (ops : List (Op L)) (hopens : opens ops ≤ 2 ^ 32 - 1) :
    let t := Thread.run ops
    (t.ledger.failures.map Failure.handle).Nodup ∧
    (∀ handle c, t.store.lookup handle = some c ↔
      ∃ f ∈ t.ledger.failures, f.handle = handle ∧ f.dropped = false ∧
        (∀ a ∈ f.landings, a ∉ t.ledger.exited) ∧ c = f.context) ∧
    (∀ handle loc, (handle = 0 ∨ ∀ f ∈ t.ledger.failures, f.handle = handle →
        f.dropped = true ∨ ∃ a ∈ f.landings, a ∈ t.ledger.exited) →
      t.store.find handle = none ∧ t.store.addHop handle loc = t.store ∧
        t.step (.find handle) = t) ∧
    (∀ op, opens (ops ++ [op]) ≤ 2 ^ 32 - 1 → ∀ f ∈ t.ledger.live,
      (∀ loc, op ≠ .addHop f.handle loc) →
      (op = .exit → ∀ a ∈ t.ledger.active.head?, a ∉ f.landings) →
      (t.step op).store.lookup f.handle = t.store.lookup f.handle) := by
  intro t
  have h : Shape t := Shape.run ops
  have hlen : t.ledger.failures.length ≤ wrap := length_failures ops ▸ hopens
  have hc : Chains t := chains_run ops hopens
  have hlookup := lookup_eq_some_iff h hc (h.distinctLive hlen)
  refine ⟨h.handles_nodup hlen, fun handle c => ?_, fun handle loc hstale => ?_,
    fun op hop f hf hhop hexit => ?_⟩
  · rw [hlookup]
    simp only [Ledger.mem_live]
    constructor
    · rintro ⟨f, ⟨hf, hd, ha⟩, he, hctx⟩
      exact ⟨f, hf, he, hd, ha, hctx⟩
    · rintro ⟨f, hf, he, hd, ha, hctx⟩
      exact ⟨f, ⟨hf, hd, ha⟩, he, hctx⟩
  · have hnone : t.store.find handle = none := by
      refine h.find_none.mpr fun f hf he => ?_
      obtain ⟨hmem, hd, ha⟩ := Ledger.mem_live.mp hf
      have hstale := hstale.resolve_left (he ▸ h.handle_ne_zero hmem)
      rcases hstale f hmem he with hdrop | ⟨a, hal, hae⟩
      · simp [hd] at hdrop
      · exact ha a hal hae
    exact ⟨hnone, Store.addHop_of_find_none hnone loc, rfl⟩
  · have hrun : t.step op = Thread.run (ops ++ [op]) := by
      simp only [t, Thread.run, Transition.run_concat]
    have h' : Shape (t.step op) := h.step op
    have hc' : Chains (t.step op) := hrun ▸ chains_run (ops ++ [op]) hop
    have hlen' : (t.step op).ledger.failures.length ≤ wrap :=
      hrun ▸ length_failures (ops ++ [op]) ▸ hop
    rw [(hlookup f.handle f.context).mpr ⟨f, hf, rfl, rfl⟩]
    exact (lookup_eq_some_iff h' hc' (h'.distinctLive hlen') f.handle f.context).mpr
      ⟨f, mem_live_step h hf op hhop hexit, rfl, rfl⟩

/-- Two nested landings: the inner failure is gone after its landing, the outer keeps its
own chain. -/
theorem store_refines_ledger_nested :
    let t := Thread.run [.enter, .openRecord 10, .addHop 1 11, .enter, .openRecord 20,
      .addHop 2 21, .addHop 1 12, .exit]
    t.store.lookup 1 = some ⟨10, [11, 12], false⟩ ∧ t.store.find 2 = none := by
  have h := store_refines_ledger ([.enter, .openRecord 10, .addHop 1 11, .enter, .openRecord 20,
    .addHop 2 21, .addHop 1 12, .exit] : List (Op ℕ)) (by decide)
  refine ⟨(h.2.1 1 _).mpr ⟨⟨0, 1, 10, [0], false, [11, 12]⟩, by decide, by decide⟩, ?_⟩
  exact (h.2.2.1 2 0 (.inr (by decide))).1

end Jmpxx.Diagnostic
