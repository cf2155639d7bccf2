import Jmpxx.FuzzDriver

namespace Jmpxx.Adversarial

open Throwing Diagnostic Reflect Function
open Interop (CategoryTable)
open Policies (ErasedError)
open Propagation (Result)
open Transport (Variants)
open Transport.Variants (effect)

variable {L : Type} {α : Type}

structure Sound (σ : Variants Payload) (S : Store L → Prop) (s : Process L) : Prop where
  kept : Transport.Kept s.results
  variants : s.results.variants = σ
  store : S s.store
  table : s.table.Inverse
  accepted : s.rejected = none

/-- From `P` the driver goes on, with `Q`; it neither rejects nor does anything undefined. -/
abbrev Passes (P : Process L → Prop) (m : Drive L α) (Q : α → Process L → Prop) : Prop :=
  Triple P m Q fun _ => False

variable {σ : Variants Payload} {S : Store L → Prop} {P : Process L → Prop}

section Bytes

/-- What says nothing of the input. -/
def Aside (P : Process L → Prop) : Prop := ∀ s input, P s → P { s with input }

theorem Sound.aside : Aside (Sound σ S) := fun _ _ h =>
  ⟨h.kept, h.variants, h.store, h.table, h.accepted⟩

theorem take_passes (hP : Aside P) : Passes P take fun _ => P := by
  intro s hs
  obtain ⟨b, input, htake⟩ : ∃ b input, take s = (.ok b, { s with input }) := by
    obtain ⟨input, results, store, table, rejected⟩ := s
    cases input with
    | nil => exact ⟨0, [], rfl⟩
    | cons b rest => exact ⟨b, rest, rfl⟩
  rw [htake]
  exact hP s input hs

theorem takeInt_passes (hP : Aside P) (order : Equiv.Perm (Fin 4)) :
    Passes P (takeInt order) fun _ => P := by
  refine Triple.bind (take_passes hP) fun _ => ?_
  refine Triple.bind (take_passes hP) fun _ => ?_
  refine Triple.bind (take_passes hP) fun _ => ?_
  refine Triple.bind (take_passes hP) fun _ => ?_
  exact Triple.pure _ fun _ h => h

theorem takeError_passes (hP : Aside P) (order : Order) (place : ℕ) :
    Passes P (takeError order place) fun _ => P := by
  unfold takeError
  split_ifs
  · refine Triple.bind (take_passes hP) fun _ => ?_
    refine Triple.bind (takeInt_passes hP _) fun _ => ?_
    exact Triple.pure _ fun _ h => h
  · refine Triple.bind (takeInt_passes hP _) fun _ => ?_
    refine Triple.bind (take_passes hP) fun _ => ?_
    exact Triple.pure _ fun _ h => h

end Bytes

/-- A check that does not fail. -/
theorem check_passes {c : Prop} [Decidable c] (hc : ¬ c) (reason : String) :
    Passes P (onlyIf c (reject reason)) fun _ => P :=
  Triple.onlyIf (fun h => absurd h hc) fun _ _ h => h

section Results

/-- An operation on the results is its effect on the variants. -/
theorem perform_passes {op : Transport.Op Payload} {σ' : Variants Payload}
    (hdone : (effect plainTypes σ op).map (·.done) = some σ') :
    Passes (Sound σ S) (perform op) fun _ => Sound σ' S := by
  obtain ⟨e, he, rfl⟩ := Option.map_eq_some_iff.mp hdone
  intro s hs
  have hstored : s.results.stored = σ := by
    rw [← Transport.Variants.variants_of_kept hs.kept, hs.variants]
  have hadmits : s.results.admits op = true := by
    rw [(Transport.Variants.shown_of_kept hs.kept).admits, hstored, he]
    rfl
  obtain ⟨results, hstep, hkept, hadvances⟩ :=
    @Transport.Variants.step_advances _ plainTypes _ hs.kept op
  -- none of the two types throws
  have hdone : results.stored = e.done := by
    have hquiet := @Transport.Variants.outcome_of_quiet _ plainTypes e s.results.tick
      (fun _ _ => rfl) fun _ => rfl
    rw [hstored, Transport.Variants.advance] at hadvances
    dsimp only at hadvances
    rw [he, Option.elim_some, hquiet] at hadvances
    exact congrArg Prod.snd hadvances
  have hperform : perform op s = (.ok (), { s with results }) := by
    show Comp.bind _ _ s = _
    unfold Comp.bind Throwing.require
    simp only [if_pos hadmits, hstep]
    rfl
  rw [hperform]
  exact ⟨hkept, (Transport.Variants.variants_of_kept hkept).trans hdone, hs.store, hs.table,
    hs.accepted⟩

variable {q : ℕ} {v : Int32} {e : Error}

theorem hasValue_passes {b : Bool} {c : Payload} (hq : σ q = some (b, c)) :
    Passes (Sound σ S) (hasValue q) fun a s => a = b ∧ Sound σ S s := by
  apply Triple.require
  intro s hs
  have hvariant := congrFun hs.variants q
  rw [hq, Transport.World.variants] at hvariant
  obtain ⟨b', hb', hobj⟩ := Option.bind_eq_some_iff.mp hvariant
  obtain ⟨o, -, ho⟩ := Option.map_eq_some_iff.mp hobj
  rw [hb', (Prod.mk.inj ho).1]

/-- The object that a result of the variants owns. -/
theorem Sound.find {s : Process L} (hs : Sound σ S s) {b : Bool} {c : Payload}
    (hq : σ q = some (b, c)) :
    ∃ tag, s.results.find (.alt (.named q)) (Transport.kindOf b) = some ⟨tag, c⟩ := by
  have hvariant := congrFun hs.variants q
  rw [hq, Transport.World.variants] at hvariant
  obtain ⟨b', -, hobj⟩ := Option.bind_eq_some_iff.mp hvariant
  obtain ⟨o, ho, heq⟩ := Option.map_eq_some_iff.mp hobj
  obtain ⟨rfl, rfl⟩ := Prod.mk.inj heq
  exact ⟨o.toTag, ho⟩

theorem value_passes (hq : σ q = some (true, .int v)) :
    Passes (Sound σ S) (value q) fun a s => a = v ∧ Sound σ S s := by
  apply Triple.require
  intro s hs
  obtain ⟨tag, hfind⟩ := hs.find hq
  have hfind : s.results.find (.alt (.named q)) .value = some ⟨tag, .int v⟩ := hfind
  rw [hfind]

theorem error_passes (hq : σ q = some (false, .error e)) :
    Passes (Sound σ S) (error q) fun a s => a = e ∧ Sound σ S s := by
  apply Triple.require
  intro s hs
  obtain ⟨tag, hfind⟩ := hs.find hq
  have hfind : s.results.find (.alt (.named q)) .error = some ⟨tag, .error e⟩ := hfind
  rw [hfind]

def ModelResult.variant (m : ModelResult) : Bool × Payload :=
  (m.hasValue, if m.hasValue then .int m.value else .error m.err)

variable {m m' : ModelResult}

theorem variant_value (h : m.hasValue = true) : m.variant = (true, .int m.value) := by
  simp [ModelResult.variant, h]

theorem variant_error (h : m.hasValue = false) : m.variant = (false, .error m.err) := by
  simp [ModelResult.variant, h]

theorem compare_passes (hq : σ q = some m.variant) :
    Passes (Sound σ S) (compare q m) fun _ => Sound σ S := by
  refine Triple.bind (hasValue_passes hq) fun has => Triple.and_pre fun hhas => ?_
  refine Triple.bind (check_passes (by simpa using hhas) _) fun _ => ?_
  cases hm : m.hasValue with
  | true =>
    rw [variant_value hm] at hq
    refine Triple.bind (value_passes hq) fun v => Triple.and_pre fun hv => ?_
    exact check_passes (by simpa using hv) _
  | false =>
    rw [variant_error hm] at hq
    refine Triple.bind (error_passes hq) fun e => Triple.and_pre fun he => ?_
    exact check_passes (by simpa using he) _

def only (m : ModelResult) : Variants Payload := fun q => if q = r then some m.variant else none

def both (m m' : ModelResult) : Variants Payload := fun q =>
  if q = r then some m.variant else if q = declared then some m'.variant else none

theorem update_only (m m' : ModelResult) : update (only m) r (some m'.variant) = only m' := by
  funext q
  by_cases hq : q = r
  · simp [only, hq]
  · simp [only, hq]

theorem update_declared (m m' : ModelResult) :
    update (only m) declared (some m'.variant) = both m m' := by
  funext q
  by_cases hq : q = declared
  · simp [both, hq]
  · simp [only, both, hq]

theorem update_both (m m' m'' : ModelResult) :
    update (both m m') r (some m''.variant) = both m'' m' := by
  funext q
  by_cases hq : q = r
  · simp [both, hq]
  · simp [both, hq]

theorem update_both_none (m m' : ModelResult) : update (both m m') declared none = only m := by
  funext q
  by_cases hq : q = declared
  · simp [only, hq]
  · simp [only, both, hq]

/-- `r` is assigned a value or a failure. -/
theorem assignValue_passes (m : ModelResult) (v : Int32) :
    Passes (Sound (only m) S) (perform (.assignValue r (.own (.int v))))
      fun _ => Sound (only ⟨true, v, ⟨0, 0⟩⟩) S := by
  rw [← update_only m ⟨true, v, ⟨0, 0⟩⟩]
  exact perform_passes rfl

theorem assignFailure_passes (m : ModelResult) (e : Error) :
    Passes (Sound (only m) S) (perform (.assignFailure r (.error e) none))
      fun _ => Sound (only ⟨false, 0, e⟩) S := by
  rw [← update_only m ⟨false, 0, e⟩]
  exact perform_passes rfl

/-- A turn declares a result. -/
theorem declareValue_passes (m : ModelResult) (v : Int32) :
    Passes (Sound (only m) S) (perform (.value declared (.own (.int v))))
      fun _ => Sound (both m ⟨true, v, ⟨0, 0⟩⟩) S := by
  rw [← update_declared m]
  exact perform_passes rfl

theorem declareFailure_passes (m : ModelResult) (e : Error) :
    Passes (Sound (only m) S) (perform (.failure declared (.own (.error e))))
      fun _ => Sound (both m ⟨false, 0, e⟩) S := by
  rw [← update_declared m]
  exact perform_passes rfl

theorem copy_passes (m : ModelResult) :
    Passes (Sound (only m) S) (perform (.copy declared r)) fun _ => Sound (both m m) S := by
  rw [← update_declared m]
  exact perform_passes rfl

theorem move_passes (m : ModelResult) :
    Passes (Sound (only m) S) (perform (.move declared r)) fun _ => Sound (both m m) S := by
  rw [← update_declared m]
  exact perform_passes rfl

theorem inPlace_passes (hm : m.hasValue = true) :
    Passes (Sound (only m) S) (perform (.inPlace declared [.into r false]))
      fun _ => Sound (both m m) S := by
  have hvariant : m.variant = (true, m.variant.2) := by rw [variant_value hm]
  rw [← update_declared m, hvariant]
  exact perform_passes rfl

theorem copyAssign_passes (m m' : ModelResult) :
    Passes (Sound (both m m') S) (perform (.copyAssign r declared))
      fun _ => Sound (both m' m') S := by
  rw [← update_both m m' m']
  exact perform_passes rfl

theorem destroy_passes (m m' : ModelResult) :
    Passes (Sound (both m m') S) (perform (.destroy declared)) fun _ => Sound (only m) S := by
  rw [← update_both_none m m']
  exact perform_passes rfl

section Turns

variable {m : ModelResult}

theorem agrees_passes (m : ModelResult) :
    Passes (Sound (only m) S) (hasValue r) fun has s =>
      has = m.hasValue ∧ Sound (only m) S s := hasValue_passes rfl

theorem valueOr_passes (m : ModelResult) (alt : Int32) :
    Passes (Sound (only m) S) (valueOr r alt) fun got s =>
      got = (if m.hasValue then m.value else alt) ∧ Sound (only m) S s := by
  refine Triple.bind (agrees_passes m) fun has => Triple.and_pre fun hhas => ?_
  subst hhas
  cases hm : m.hasValue with
  | true => exact value_passes (congrArg some (variant_value hm))
  | false => exact Triple.pure _ fun s hs => ⟨rfl, hs⟩

theorem errorOr_passes (m : ModelResult) (alt : Error) :
    Passes (Sound (only m) S) (errorOr r alt) fun got s =>
      got = (if m.hasValue then alt else m.err) ∧ Sound (only m) S s := by
  refine Triple.bind (agrees_passes m) fun has => Triple.and_pre fun hhas => ?_
  subst hhas
  cases hm : m.hasValue with
  | true => exact Triple.pure _ fun s hs => ⟨rfl, hs⟩
  | false => exact error_passes (congrArg some (variant_error hm))

theorem transform_passes (m : ModelResult) (f : Int32 → Int32) :
    Passes (Sound (only m) S) (transform declared r f) fun _ =>
      Sound (both m (if m.hasValue then ⟨true, f m.value, ⟨0, 0⟩⟩ else ⟨false, 0, m.err⟩)) S := by
  refine Triple.bind (agrees_passes m) fun has => Triple.and_pre fun hhas => ?_
  subst hhas
  cases hm : m.hasValue with
  | true =>
    refine Triple.bind (value_passes (congrArg some (variant_value hm))) fun v => ?_
    refine Triple.and_pre fun hv => ?_
    subst hv
    exact declareValue_passes m _
  | false =>
    refine Triple.bind (error_passes (congrArg some (variant_error hm))) fun e => ?_
    refine Triple.and_pre fun he => ?_
    subst he
    exact declareFailure_passes m _

theorem orElse_passes (m : ModelResult) (f : Error → Int32) :
    Passes (Sound (only m) S) (orElse declared r f) fun _ =>
      Sound (both m (if m.hasValue then m else ⟨true, f m.err, ⟨0, 0⟩⟩)) S := by
  refine Triple.bind (agrees_passes m) fun has => Triple.and_pre fun hhas => ?_
  subst hhas
  cases hm : m.hasValue with
  | true => exact inPlace_passes hm
  | false =>
    refine Triple.bind (error_passes (congrArg some (variant_error hm))) fun e => ?_
    refine Triple.and_pre fun he => ?_
    subst he
    exact declareValue_passes m _

/-- A turn leaves `r` as the model says it is, whatever its bytes. -/
theorem turn_passes (order : Order) (m : ModelResult) :
    Passes (Sound (only m) S) (turn order m) fun m' => Sound (only m') S := by
  refine Triple.bind (take_passes Sound.aside) fun b => ?_
  split
  · refine Triple.bind (takeInt_passes Sound.aside _) fun v => ?_
    refine Triple.bind (assignValue_passes m v) fun _ => ?_
    exact Triple.pure _ fun _ h => h
  · refine Triple.bind (takeError_passes Sound.aside _ _) fun e => ?_
    refine Triple.bind (assignFailure_passes m e) fun _ => ?_
    exact Triple.pure _ fun _ h => h
  · refine Triple.bind (copy_passes m) fun _ => ?_
    refine Triple.bind (compare_passes rfl) fun _ => ?_
    refine Triple.bind (copyAssign_passes m m) fun _ => ?_
    refine Triple.bind (destroy_passes m m) fun _ => ?_
    exact Triple.pure _ fun _ h => h
  · refine Triple.bind (move_passes m) fun _ => ?_
    refine Triple.bind (compare_passes rfl) fun _ => ?_
    refine Triple.bind (copyAssign_passes m m) fun _ => ?_
    refine Triple.bind (destroy_passes m m) fun _ => ?_
    exact Triple.pure _ fun _ h => h
  · refine Triple.bind (takeInt_passes Sound.aside _) fun v => ?_
    refine Triple.bind (declareValue_passes m v) fun _ => ?_
    refine Triple.bind (copyAssign_passes m _) fun _ => ?_
    refine Triple.bind (value_passes rfl) fun other => Triple.and_pre fun hother => ?_
    refine Triple.bind (destroy_passes _ _) fun _ => ?_
    subst hother
    exact Triple.pure _ fun _ h => h
  · refine Triple.bind (takeError_passes Sound.aside _ _) fun e => ?_
    refine Triple.bind (declareFailure_passes m e) fun _ => ?_
    refine Triple.bind (copyAssign_passes m _) fun _ => ?_
    refine Triple.bind (destroy_passes _ _) fun _ => ?_
    exact Triple.pure _ fun _ h => h
  · refine Triple.bind (takeInt_passes Sound.aside _) fun fallback => ?_
    refine Triple.bind (valueOr_passes m fallback) fun got => Triple.and_pre fun hgot => ?_
    refine Triple.bind (check_passes (by simpa using hgot) _) fun _ => ?_
    exact Triple.pure _ fun _ h => h
  · refine Triple.bind (takeError_passes Sound.aside _ _) fun fallback => ?_
    refine Triple.bind (errorOr_passes m fallback) fun got => Triple.and_pre fun hgot => ?_
    refine Triple.bind (check_passes (by simpa using hgot) _) fun _ => ?_
    exact Triple.pure _ fun _ h => h
  · refine Triple.bind (transform_passes m _) fun _ => ?_
    refine Triple.bind (compare_passes rfl) fun _ => ?_
    refine Triple.bind (destroy_passes m _) fun _ => ?_
    exact Triple.pure _ fun _ h => h
  · refine Triple.bind (orElse_passes m _) fun _ => ?_
    refine Triple.bind (compare_passes rfl) fun _ => ?_
    refine Triple.bind (destroy_passes m _) fun _ => ?_
    exact Triple.pure _ fun _ h => h

theorem turns_pass (order : Order) (n : ℕ) (m : ModelResult) :
    Passes (Sound (only m) S) (turns order n m) fun _ s => ∃ m', Sound (only m') S s := by
  induction n generalizing m with
  | zero => exact Triple.pure _ fun s hs => ⟨m, hs⟩
  | succ n ih =>
    refine Triple.bind (turn_passes order m) fun m' => ?_
    refine Triple.bind (compare_passes rfl) fun _ => ?_
    exact ih m'

abbrev Idle (S : Store L → Prop) : Process L → Prop := Sound (fun _ => none) S

theorem exerciseTransport_passes (order : Order) :
    Passes (Idle S) (exerciseTransport order) fun _ => Idle S := by
  have hfirst : update (fun _ => none) r (some (true, .int 0)) = only ⟨true, 0, ⟨0, 0⟩⟩ := by
    funext q
    by_cases hq : q = r
    · simp [only, hq, ModelResult.variant]
    · simp [only, hq]
  have hlast : ∀ m, update (only m) r none = fun _ => none := by
    intro m
    funext q
    by_cases hq : q = r
    · simp [hq]
    · simp [only, hq]
  refine Triple.bind (Q := fun _ => Sound (only ⟨true, 0, ⟨0, 0⟩⟩) S) ?_ fun _ => ?_
  · rw [← hfirst]
    exact perform_passes rfl
  · refine Triple.bind (turns_pass order 128 _) fun _ => ?_
    refine Triple.exists_pre fun m => ?_
    rw [Idle, ← hlast m]
    exact perform_passes rfl

end Turns

end Results

section Diagnostics

/-- The newest record is the error's, with so many hops behind it. -/
structure Carries (e : RichError) (hops depth : ℕ) (st : Store L) : Prop where
  depth_eq : st.depth = depth
  handle_ne : e.handle ≠ 0
  newest : ∃ older record, st.slots = older ++ [record] ∧ record.id = e.handle ∧
    record.hopCount = min hops Diagnostic.maxChain ∧
    (record.hopsTruncated = true ↔ Diagnostic.maxChain < hops)

variable {e : RichError} {hops depth : ℕ} {st : Store L}

theorem carries_openRecord (hdepth : st.depth < maxInflight) (code domain : Int32) (loc : L) :
    Carries ⟨code, domain, (st.openRecord loc).1⟩ 0 (st.depth + 1) (st.openRecord loc).2 where
  depth_eq := Store.openRecord_depth st loc hdepth
  handle_ne := by simpa using st.nextId_ne
  newest := by
    refine ⟨st.slots, st.newRecord loc hdepth, Store.slots_open st loc hdepth, ?_⟩
    simp [Store.newRecord]

theorem Carries.find (h : Carries e hops depth st) {older : List (Record L)} {record : Record L}
    (hslots : st.slots = older ++ [record]) (hid : record.id = e.handle) :
    ∃ i, st.find e.handle = some i ∧ i.val = older.length := by
  have hlength : st.depth = older.length + 1 := by
    rw [← Store.length_slots, hslots, List.length_append, List.length_singleton]
  have hle := st.depth_le
  refine ⟨⟨older.length, by omega⟩, Store.find_slots.mpr ⟨h.handle_ne, ?_, ?_⟩, rfl⟩
  · exact ⟨record, by simp [hslots], hid⟩
  · intro j newer hj hnewer
    have hj : older.length < j := hj
    rw [hslots, List.getElem?_eq_none (by simp; omega)] at hnewer
    cases hnewer

theorem Carries.notePropagation (h : Carries e hops depth st) (loc : L) :
    Carries e (hops + 1) depth (Diagnostic.notePropagation st e loc) := by
  obtain ⟨older, record, hslots, hid, hcount, htruncated⟩ := h.newest
  obtain ⟨i, hi, hat⟩ := h.find hslots hid
  have hdepth := (Store.addHop_depth st e.handle loc).trans h.depth_eq
  refine ⟨hdepth, h.handle_ne, older, Store.pushHop record loc, ?_⟩
  have hslots' : (st.addHop e.handle loc).slots = older ++ [Store.pushHop record loc] := by
    rw [Store.slots_addHop hi, hslots, hat]
    exact List.modifyTailIdx_add (List.modifyHead (Store.pushHop · loc)) 0 older [record]
  refine ⟨hslots', by rw [Store.pushHop_id, hid], ?_⟩
  have hbound := record.hopCount_le
  unfold Store.pushHop
  by_cases hfull : Diagnostic.maxChain ≤ record.hopCount
  · rw [dif_pos hfull]
    refine ⟨by simp only; omega, ?_⟩
    simp only [true_iff]
    omega
  · rw [dif_neg hfull]
    refine ⟨by simp only; omega, ?_⟩
    simp only [htruncated]
    omega

/-- What an inspection of the error reads. -/
theorem Carries.inspect (h : Carries e hops depth st) : ∃ c, Diagnostic.inspect st e = some c ∧
    c.hops.length = min hops Diagnostic.maxChain ∧
      (c.hopsTruncated = true ↔ Diagnostic.maxChain < hops) := by
  obtain ⟨older, record, hslots, hid, hcount, htruncated⟩ := h.newest
  obtain ⟨i, hi, hat⟩ := h.find hslots hid
  refine ⟨record.context, Store.lookup_of_find hi (by simp [hslots, hat]), ?_, htruncated⟩
  have hbound := record.hopCount_le
  rw [← hcount, Record.context, List.length_take, Vector.length_toList]
  omega

variable {sites : Sites L}

/-- The chain fails with an error that has come three hops. -/
theorem diagChain_run (sites : Sites L) (hdepth : st.depth = 0) :
    ∃ e, ((diagChain sites (-1)).run (Policies.richOn L) Fin.elim0 st).result = .error e ∧
      Carries e 3 1 ((diagChain sites (-1)).run (Policies.richOn L) Fin.elim0 st).state := by
  have hroom : st.depth < maxInflight := by rw [hdepth]; decide
  have hopened := carries_openRecord hroom (Policies.small 11) (Policies.small 4) sites.leaf
  rw [hdepth] at hopened
  have hcarried := ((hopened.notePropagation sites.inA).notePropagation sites.inB).notePropagation
    sites.inChain
  exact ⟨_, rfl, hcarried⟩

theorem store_passes {S' : Store L → Prop} (f : Store L → Store L) (h : ∀ st, S st → S' (f st)) :
    Passes (Idle S) (modify fun s => { s with store := f s.store }) fun _ => Idle S' := by
  apply Triple.modify
  intro s hs
  exact ⟨hs.kept, hs.variants, h s.store hs.store, hs.table, hs.accepted⟩

theorem richError_passes {S' : RichError → Store L → Prop} {code domain : Int32} {loc : L}
    (h : ∀ st, S st → S' ⟨code, domain, (st.openRecord loc).1⟩ (st.openRecord loc).2) :
    Passes (Idle S) (richError code domain loc) fun e => Idle (S' e) := by
  intro s hs
  exact ⟨hs.kept, hs.variants, h s.store hs.store, hs.table, hs.accepted⟩

theorem inspected_passes :
    Passes (Idle (Carries e hops depth)) (inspected e : Drive L _) fun c s => (∃ context,
      c = some context ∧ context.hops.length = min hops Diagnostic.maxChain ∧
        (context.hopsTruncated = true ↔ Diagnostic.maxChain < hops)) ∧
      Idle (Carries e hops depth) s := by
  intro s hs
  obtain ⟨context, hinspect, hcount, htruncated⟩ := hs.store.inspect
  exact ⟨⟨context, hinspect, hcount, htruncated⟩, hs⟩

theorem notes_pass (n : ℕ) :
    Passes (Idle (Carries e 0 depth))
      (forBelow (fun _ => modify fun s => { s with
        store := Diagnostic.notePropagation s.store e sites.note }) n)
      fun _ => Idle (Carries e n depth) := by
  refine Triple.forBelow (I := fun i => Idle (Carries e i depth)) fun i _ => ?_
  exact store_passes (fun st => Diagnostic.notePropagation st e sites.note) fun st hst =>
    hst.notePropagation sites.note

theorem second_passes (loc : L) :
    Passes (Idle (Carries e hops 1)) (richError 77 9 loc) fun e => Idle (Carries e 0 2) := by
  refine @richError_passes L _ (fun e => Carries e 0 2) 77 9 loc fun st hst => ?_
  have hroom : st.depth < maxInflight := by rw [hst.depth_eq]; decide
  have hopened := carries_openRecord hroom 77 9 loc
  rwa [hst.depth_eq] at hopened

/-- Errors beyond the bound of the store change nothing that matters. -/
theorem overflow_passes (n : ℕ) :
    Passes (Idle S)
      (forBelow (fun i => do
        let _ ← richError (Int32.ofNat i) 3 sites.overflow) n) fun _ => Idle fun _ => True := by
  have hloop : Passes (Idle fun _ => True)
      (forBelow (fun i => do
        let _ ← richError (Int32.ofNat i) 3 sites.overflow) n) fun _ => Idle fun _ => True := by
    refine Triple.forBelow (I := fun _ => Idle fun _ => True) fun i _ => ?_
    have hopen := @richError_passes L _ (fun _ _ => True) (Int32.ofNat i) 3 sites.overflow
      fun _ (_ : True) => trivial
    exact Triple.bind hopen fun _ => Triple.pure _ fun _ h => h
  refine Triple.conseq hloop (fun s hs => ?_) (fun _ _ h => h) fun _ h => h
  exact ⟨hs.kept, hs.variants, trivial, hs.table, hs.accepted⟩

/-- On an empty store every check of the chain and of the bounds holds. -/
theorem diagnose_passes (sites : Sites L) :
    Passes (Idle fun st => st.depth = 0) (diagnose sites) fun _ => Idle fun _ => True := by
  refine Triple.bind (Triple.observe _) fun bad => ?_
  refine Triple.bind (Q := fun _ s => ∃ e, bad.result = .error e ∧ Idle (Carries e 3 1) s) ?_ ?_
  · apply Triple.modify
    rintro s ⟨rfl, hs⟩
    obtain ⟨e, hresult, hcarries⟩ := diagChain_run sites hs.store
    exact ⟨e, hresult, hs.kept, hs.variants, hcarries, hs.table, hs.accepted⟩
  · intro _
    refine Triple.exists_pre fun e => Triple.and_pre fun hbad => ?_
    refine Triple.bind (check_passes (by simp [hbad, Result.hasValue]) _) fun _ => ?_
    refine Triple.bind (Triple.require (a := e) fun _ _ => by rw [hbad]; rfl) fun e' => ?_
    refine Triple.and_pre fun he' => ?_
    subst he'
    refine Triple.bind inspected_passes fun c => Triple.and_pre fun hc => ?_
    obtain ⟨context, rfl, hcount, -⟩ := hc
    have hthree : context.hops.length = 3 := hcount
    refine Triple.bind (check_passes (by simp [hthree]) _) fun _ => ?_
    refine Triple.bind (second_passes sites.rich) fun e => ?_
    refine Triple.bind (take_passes Sound.aside) fun b => ?_
    refine Triple.bind (notes_pass _) fun _ => ?_
    refine Triple.bind inspected_passes fun c => Triple.and_pre fun hc => ?_
    obtain ⟨context, rfl, hcount, htruncated⟩ := hc
    have hlong : Diagnostic.maxChain < Diagnostic.maxChain + b.toNat % 8 + 1 := by omega
    have hfull : context.hops.length = Diagnostic.maxChain := by omega
    refine Triple.bind (check_passes (by simp [hfull, htruncated.mpr hlong]) _) fun _ => ?_
    exact overflow_passes _

abbrev Ready : Process L → Prop := Idle fun st => st.depth = 0

/-- The landing of the diagnostics leaves no record behind. -/
theorem exerciseDiagnostics_passes (sites : Sites L) (b : Build) :
    Passes Ready (exerciseDiagnostics sites b) fun _ => Ready := by
  refine Triple.onlyIf (fun _ => ?_) fun _ _ h => h
  refine Triple.bind (Q := fun mark s => mark = 0 ∧ Ready s) ?_ fun mark => ?_
  · intro s hs
    exact ⟨congrArg Nat.cast hs.store, hs⟩
  · refine Triple.and_pre fun hmark => ?_
    subst hmark
    refine Triple.bind (diagnose_passes sites) fun _ => ?_
    refine store_passes (fun st => st.truncate 0) fun st _ => ?_
    have hdepth := st.truncate_depth 0
    rw [Nat.zero_min] at hdepth
    exact hdepth

end Diagnostics

section Erased

theorem typeSpelling_signature {compiler : Compiler} (f : TypeFrame compiler) (text : Text) :
    typeSpelling compiler (f.signature text) = unqualified compiler text := by
  cases compiler with
  | gnu =>
    obtain ⟨hfind, c, hc, hstop⟩ := f.bracketed
    obtain ⟨rest, hrest⟩ := List.head?_eq_some_iff.mp hc
    have hm : Search.find typeMarker (f.signature text) = some f.before.length :=
      Search.find_append _ hfind
    have hdrop : (f.signature text).drop (f.before.length + 4) = text ++ f.after := by
      simp only [TypeFrame.signature]
      exact List.drop_left' (by simp [typeMarker])
    have htake : (text ++ f.after).takeWhile (!isStop ·) = text.takeWhile (!isStop ·) := by
      rw [List.takeWhile_append, hrest]
      split_ifs with hall
      · simpa [hstop] using ((List.takeWhile_prefix _).eq_of_length hall).symm
      · rfl
    simp only [typeSpelling, hm, past, Option.elim_some, hdrop, htake, unqualified]
  | msvc =>
    let frame : Frame .msvc := ⟨f.before, f.after, f.bracketed⟩
    exact spelling_signature frame text

theorem typeName_eq (metadata : Metadata) : metadata.typeName = "fuzz_status".toList := by
  cases metadata with
  | reflection => rfl
  | fallback compiler _ _ type =>
    show typeSpelling compiler (type.signature (typeText compiler)) = _
    rw [typeSpelling_signature]
    cases compiler <;> decide +kernel

/-- Both paths name the enumerator. -/
theorem message_timeout (metadata : Metadata) : metadata.message 7 = some "timeout".toList := by
  cases metadata with
  | reflection => decide
  | fallback compiler printer scope_eq _ =>
    obtain ⟨x, hx, hvalue, htext⟩ := printer.named (.ofInt _ 7)
      ⟨⟨"timeout".toList, .ofInt _ 7⟩, by decide, rfl⟩
    have hname : x.name = "timeout".toList := by
      rcases List.mem_cons.mp hx with rfl | hx
      · exact absurd hvalue (by decide)
      · rcases List.mem_cons.mp hx with rfl | hx
        · exact absurd hvalue (by decide)
        · rw [List.mem_singleton.mp hx]
    have hclean : Clean compiler printer.scope := by
      have hall : "adversarial::fuzz_status::".toList.all (!isStop ·) = true := by decide
      rw [scope_eq]
      intro _ c hc
      simpa using List.all_eq_true.mp hall c hc
    rw [hname] at htext
    have hshows : Shows compiler (printer.text (.ofInt _ 7)) "timeout".toList :=
      .inl ⟨printer.scope, htext, printer.isScope, hclean⟩
    have hident : IsIdentifier "timeout".toList := by decide
    have hbound : EnumRange.default.max < 2 ^ 31 - 1 := by decide
    have hlo : EnumRange.default.min ≤ 7 := by decide
    have hhi : 7 ≤ EnumRange.default.max := by decide
    show Checked.message printer.spelling .default 7 = _
    rw [message_eq_some_iff hbound hlo hhi hident.ne_unknownError]
    have hletters : "timeout".toList.all isLetter = true := by decide
    refine Printer.accepts_iff.mpr ⟨hident, fun c hc => ?_, hshows⟩
    exact toNat_lt_of_letter_or_digit (by rw [List.all_eq_true.mp hletters c hc, Bool.true_or])

theorem message_five (b : Build) : Domain.component.message b 5 = some "five".toList :=
  congrArg some (if_pos rfl)

theorem exerciseErasedAndReflect_passes (b : Build) (order : Order) :
    Passes (Idle S) (exerciseErasedAndReflect b order) fun _ => Idle S := by
  refine Triple.bind (check_passes (by decide) _) fun _ => ?_
  refine Triple.bind (Q := fun text s => text = "five".toList ∧ Idle S s) ?_ fun text => ?_
  · exact Triple.require fun _ _ => message_five b
  refine Triple.and_pre fun htext => ?_
  have hdispatch : ¬ (Domain.component.name b ≠ "adversarial.component".toList ∨
      text ≠ "five".toList) := by
    rw [htext]
    exact not_or.mpr ⟨not_not.mpr rfl, not_not.mpr rfl⟩
  refine Triple.bind (check_passes hdispatch _) fun _ => ?_
  refine Triple.bind (takeInt_passes Sound.aside _) fun first => ?_
  refine Triple.bind (takeInt_passes Sound.aside _) fun second => ?_
  refine Triple.bind (check_passes (by split_ifs <;> simp [inDomain]) _) fun _ => ?_
  refine Triple.bind (take_passes Sound.aside) fun b' => ?_
  refine Triple.bind (check_passes (not_not.mpr (typeName_eq b.metadata)) _) fun _ => ?_
  refine Triple.onlyIf (fun hst => ?_) fun _ _ h => h
  rw [hst]
  refine Triple.bind (Triple.require (a := "timeout".toList) fun _ _ => message_timeout b.metadata)
    fun text => Triple.and_pre fun htext => ?_
  exact check_passes (not_not.mpr htext) _

end Erased

section Interop

variable {x : Result Int32 Error}

theorem viaExpected_passes (x : Result Int32 Error) :
    Passes P (viaExpected x) fun y s => y = x ∧ P s := by
  intro s hs
  cases x with
  | value v => exact ⟨rfl, hs⟩
  | error e => exact ⟨rfl, hs⟩

/-- The category that was handed out is in the table. -/
theorem toErrorCode_passes (e : Error) :
    Passes (Idle S) (toErrorCode e) fun ec s =>
      ec.value = e.code ∧ s.table.domainOf ec.category = e.domain ∧ Idle S s := by
  intro s hs
  have hlookup := CategoryTable.lookup_get s.table e.domain
  have htable := hs.table.get e.domain
  exact ⟨rfl, CategoryTable.domainOf_of_lookup htable hlookup, hs.kept, hs.variants, hs.store,
    htable, hs.accepted⟩

theorem exerciseAccepted_passes (b : Build) (w : Boundary.WireError) (hw : 0 ≤ w.domain) :
    Passes (Idle S) (exerciseAccepted b w) fun _ => Idle S := by
  refine Triple.bind (toErrorCode_passes _) fun ec => ?_
  refine Triple.and_pre fun hcode => ?_
  have hread : ∀ s : Process L, s.table.domainOf ec.category = w.domain →
      s.table.isJmpxx ec = true ∧ s.table.fromErrorCode ec = ⟨w.code, w.domain⟩ := by
    intro s hdomain
    simp [CategoryTable.isJmpxx, CategoryTable.fromErrorCode, hdomain, hcode, hw]
  refine Triple.bind (Triple.require fun s hs => congrArg some (hread s hs.1).1) fun known => ?_
  refine Triple.and_pre fun hknown => ?_
  refine Triple.bind (Triple.require fun s hs => congrArg some (hread s hs.1).2) fun back => ?_
  refine Triple.and_pre fun hback => ?_
  refine Triple.bind (check_passes (by simp [hknown, hback]) _) fun _ => ?_
  refine Triple.conseq (P := Idle S) ?_ (fun _ hs => hs.2) (fun _ _ h => h) fun _ h => h
  refine Triple.onlyIf (fun _ => ?_) fun _ _ h => h
  refine Triple.bind (viaExpected_passes _) fun rv => Triple.and_pre fun hrv => ?_
  subst hrv
  refine Triple.bind (Triple.require (a := w.code) fun _ _ => rfl) fun v => ?_
  refine Triple.and_pre fun hv => ?_
  refine Triple.bind (check_passes (not_not.mpr hv) _) fun _ => ?_
  refine Triple.bind (viaExpected_passes _) fun re => Triple.and_pre fun hre => ?_
  subst hre
  refine Triple.bind (Triple.require (a := ⟨w.code, w.domain⟩) fun _ _ => rfl) fun e' => ?_
  refine Triple.and_pre fun he' => ?_
  exact check_passes (not_not.mpr he') _

/-- What a sender wrote has a domain that an error code keeps. -/
theorem domain_nonneg (sent : Boundary.Sent) : 0 ≤ sent.wire.domain := by
  apply Int32.le_iff_toInt_le.mpr
  have hdomain : sent.wire.domain.toInt = sent.domain.toNat := Boundary.toInt_ofNat sent.domain_le
  rw [hdomain]
  exact Int.natCast_nonneg _

theorem decode_passes (data : List UInt8) :
    Passes (Idle S) (require fun _ => Boundary.decode data data.length) fun decoded s =>
      (∀ w, decoded = .value w → 0 ≤ w.domain) ∧ Idle S s := by
  rcases Boundary.sent_or_wrong data with ⟨sent, hsent⟩ | ⟨d, hd⟩
  · refine Triple.conseq (Triple.require fun _ _ => Boundary.decode_sent hsent) (fun _ h => h) ?_
      fun _ h => h
    rintro decoded s ⟨rfl, hs⟩
    refine ⟨fun w hw => ?_, hs⟩
    obtain rfl := Result.value.inj hw
    exact domain_nonneg sent
  · refine Triple.conseq (Triple.require fun _ _ => Boundary.decode_of hd) (fun _ h => h) ?_
      fun _ h => h
    rintro decoded s ⟨rfl, hs⟩
    refine ⟨fun w hw => ?_, hs⟩
    cases hw

theorem exerciseDecoded_passes (b : Build) {decoded : Result Boundary.WireError Error}
    (h : ∀ w, decoded = .value w → 0 ≤ w.domain) :
    Passes (Idle S) (exerciseDecoded b decoded) fun _ => Idle S := by
  cases decoded with
  | value w => exact exerciseAccepted_passes b w (h w rfl)
  | error e =>
    refine Triple.bind (toErrorCode_passes e) fun ec => Triple.and_pre fun _ => ?_
    refine Triple.bind (Triple.observe _) fun _ => ?_
    exact Triple.pure _ fun _ hs => hs.2.2

theorem takeOptional_passes (hP : Aside P) (order : Order) :
    Passes P (takeOptional order) fun _ => P := by
  refine Triple.bind (take_passes hP) fun b => ?_
  split_ifs
  · refine Triple.bind (takeInt_passes hP _) fun _ => ?_
    exact Triple.pure _ fun _ h => h
  · exact Triple.pure _ fun _ h => h

theorem exerciseOptional_passes (maybe : Option Int32) :
    Passes P (exerciseOptional maybe) fun _ => P := by
  cases maybe with
  | some expected =>
    refine Triple.bind (Triple.require (a := .value expected) fun _ _ => rfl) fun adapted => ?_
    refine Triple.and_pre fun hadapted => ?_
    exact check_passes (by simp [hadapted, Result.assumeValue]) _
  | none =>
    refine Triple.bind (Triple.require (a := .error ⟨71, 0⟩) fun _ _ => rfl) fun adapted => ?_
    refine Triple.and_pre fun hadapted => ?_
    exact check_passes (by simp [hadapted, Result.assumeError]) _

theorem exerciseInterop_passes (b : Build) (order : Order) (data : List UInt8) :
    Passes (Idle S) (exerciseInterop b order data) fun _ => Idle S := by
  refine Triple.bind (decode_passes data) fun decoded => Triple.and_pre fun hdomain => ?_
  refine Triple.bind (exerciseDecoded_passes b hdomain) fun _ => ?_
  refine Triple.bind (takeOptional_passes Sound.aside order) fun maybe => ?_
  exact exerciseOptional_passes maybe

end Interop

section Runs

variable (b : Build) (order : Order) (sites : Sites L)

/-- An input without the injected defect is run to its end. -/
theorem exercise_passes {data : List UInt8} (h : (b.injectDefect && magic data) = false) :
    Passes Ready (exercise b order sites data) fun _ => Ready := by
  refine Triple.bind (Triple.modify fun s hs => Sound.aside s data hs) fun _ => ?_
  refine Triple.bind (check_passes (by simp [h]) _) fun _ => ?_
  refine Triple.bind (exerciseTransport_passes order) fun _ => ?_
  refine Triple.bind (exerciseDiagnostics_passes sites b) fun _ => ?_
  refine Triple.bind (exerciseErasedAndReflect_passes b order) fun _ => ?_
  exact exerciseInterop_passes b order data

/-- An input that reaches the injected defect ends the process there. -/
theorem exercise_rejects {data : List UInt8} (h : (b.injectDefect && magic data) = true) :
    Triple Ready (exercise b order sites data) (fun _ _ => False)
      fun s => s.rejected = some "injected fuzz defect reached" := by
  refine Triple.bind (Triple.modify fun s hs => Sound.aside s data hs) fun _ => ?_
  refine Triple.guard (fun _ => ?_) fun hno => absurd h hno
  intro s _
  rfl

theorem fuzz_passes {inputs : List (List UInt8)}
    (h : (b.injectDefect && inputs.any magic) = false) :
    Passes Ready (fuzz b order sites inputs) fun _ => Ready := by
  induction inputs with
  | nil => exact Triple.pure _ fun _ h => h
  | cons data inputs ih =>
    rw [List.any_cons, Bool.and_or_distrib_left, Bool.or_eq_false_iff] at h
    exact Triple.bind (exercise_passes b order sites h.1) fun _ => ih h.2

theorem fuzz_rejects {inputs : List (List UInt8)}
    (h : (b.injectDefect && inputs.any magic) = true) :
    Triple Ready (fuzz b order sites inputs) (fun _ _ => False)
      fun s => s.rejected = some "injected fuzz defect reached" := by
  induction inputs with
  | nil => simp at h
  | cons data inputs ih =>
    cases hdata : b.injectDefect && magic data with
    | true => exact Triple.bind (exercise_rejects b order sites hdata) fun _ _ hs => hs.elim
    | false =>
      rw [List.any_cons, Bool.and_or_distrib_left, hdata, Bool.false_or] at h
      refine Triple.bind (Triple.conseq (exercise_passes b order sites hdata) (fun _ h => h)
        (fun _ _ h => h) fun _ h => h.elim) fun _ => ih h

theorem initial_ready [Inhabited L] : Ready (Process.initial : Process L) where
  kept := Transport.initial_kept
  variants := rfl
  store := rfl
  table := CategoryTable.Inverse.initial
  accepted := rfl

/-- Whatever the inputs a process is given, in whatever order its compiler evaluates what is left to
it, and whichever switches it is built with: the driver does nothing undefined, runs every input to
its end and finds no divergence; only where the defect is compiled in, and some input starts with
its mark, does it end the process, and then for that defect. -/
theorem fuzz_exact [Inhabited L] (inputs : List (List UInt8)) :
    ∃ s, fuzz b order sites inputs Process.initial =
        (if b.injectDefect && inputs.any magic then .thrown else .ok (), s) ∧
      s.rejected = if b.injectDefect && inputs.any magic then
        some "injected fuzz defect reached" else none := by
  obtain ⟨out, s, hrun⟩ : ∃ out s, fuzz b order sites inputs Process.initial = (out, s) :=
    ⟨_, _, rfl⟩
  refine ⟨s, ?_⟩
  cases hinject : b.injectDefect && inputs.any magic with
  | true =>
    have h := fuzz_rejects b order sites hinject Process.initial initial_ready
    rw [hrun] at h ⊢
    cases out with
    | ok _ => exact h.elim
    | thrown => exact ⟨rfl, h⟩
    | fault => exact h.elim
  | false =>
    have h := fuzz_passes b order sites hinject Process.initial initial_ready
    rw [hrun] at h ⊢
    cases out with
    | ok _ => exact ⟨rfl, h.accepted⟩
    | thrown => exact h.elim
    | fault => exact h.elim

end Runs

end Jmpxx.Adversarial
