import Jmpxx.TransportContents

namespace Jmpxx.Transport

open Throwing Function

variable {C : Type}

/-- The contents of all storage, what every result says, and the number of the constructor or
assignment that is next of those that may throw. -/
structure Is (g : Place → Option C) (h : Loc → Option Bool) (t : ℕ) (w : World C) : Prop where
  content : w.contentAt = g
  has : w.has = h
  tick : w.tick = t

variable {env : Env C} {R : World C → Prop} {g : Place → Option C} {h : Loc → Option Bool}
  {w : World C} {p q : Place} {c : C} {t : ℕ}

section Objects

theorem contentAt_update (m : Place → Option (Obj C)) (p : Place) (o : Option (Obj C)) :
    (fun q => (update m p o q).map (·.content)) =
      update (fun q => (m q).map (·.content)) p (o.map (·.content)) := by
  funext q
  simp only [update_apply]
  split_ifs <;> rfl

theorem Is.finish (hw : Is g h t w) (o : Obj C) : Is (update g p none) h t (w.finish p o) := by
  refine ⟨?_, hw.has, hw.tick⟩
  rw [← hw.content]
  exact contentAt_update w.mem p none

theorem Is.begin (hw : Is g h t w) (k : Kind) (view : Option Ref) :
    Is (update g p (some c)) h t (w.begin p k c view) := by
  refine ⟨?_, hw.has, hw.tick⟩
  rw [← hw.content]
  exact contentAt_update w.mem p (some ⟨⟨k, w.constructed, view⟩, c⟩)

theorem Is.setContent (hw : Is g h t w) (hp : (g p).isSome) :
    Is (update g p (some c)) h t (w.setContent p c) := by
  refine ⟨?_, hw.has, hw.tick⟩
  rw [← hw.content, World.contentAt, Option.isSome_map] at hp
  obtain ⟨o, ho⟩ := Option.isSome_iff_exists.mp hp
  rw [← hw.content]
  apply (contentAt_update w.mem p ((w.mem p).map fun o : Obj C => { o with content := c })).trans
  rw [ho]
  rfl

theorem Is.setHas (hw : Is g h t w) (l : Loc) (b : Option Bool) :
    Is g (update h l b) t (w.setHas l b) := by
  refine ⟨hw.content, ?_, hw.tick⟩
  rw [World.setHas, hw.has]

theorem read_shows (k : Kind) :
    Partial (Is g h t) (read p k) (fun o w => g p = some o.content ∧ Is g h t w) R := by
  refine Partial.require fun w o hw ho => ⟨?_, hw⟩
  rw [← hw.content]
  exact contentAt_of_find ho

theorem destroyAt_shows (k : Kind) :
    Partial (Is g h t) (destroyAt p k) (fun _ => Is (update g p none) h t) R := by
  apply Partial.bind (Partial.require fun w _ hw _ => hw)
  intro o
  exact Partial.modify fun w hw => hw.finish o

theorem construct_shows (k : Kind) (view : Option Ref) :
    Partial (Is g h t) (construct p k c view) (fun _ => Is (update g p (some c)) h t) R := by
  apply Partial.bind (Partial.require fun w _ hw _ => hw)
  intro _
  exact Partial.modify fun w hw => hw.begin k view

theorem setContent_shows (hp : (g p).isSome) :
    Partial (Is g h t) (modify fun w => w.setContent p c) (fun _ => Is (update g p (some c)) h t)
      R :=
  Partial.modify fun _ hw => hw.setContent hp

theorem setHas_shows (l : Loc) (b : Bool) :
    Partial (Is g h t) (setHas l b) (fun _ => Is g (update h l (some b)) t) R :=
  Partial.modify fun _ hw => hw.setHas l (some b)

theorem mayThrow_shows :
    Partial (Is g h t) (mayThrow env) (fun _ w => env.throws t = false ∧ Is g h (t + 1) w)
      (fun w => env.throws t = true ∧ Is g h (t + 1) w) := by
  intro w hw
  have htick : Is g h (t + 1) { w with tick := w.tick + 1 } :=
    ⟨hw.content, hw.has, congrArg (· + 1) hw.tick⟩
  simp only [mayThrow, hw.tick]
  split_ifs with hn
  · exact ⟨hn, hw.tick ▸ htick⟩
  · exact ⟨by simpa using hn, hw.tick ▸ htick⟩

theorem getHas_shows {α : Type} {l : Loc} {b : Bool} {k : Bool → Comp (World C) α}
    {Q : α → World C → Prop} (hl : h l = some b) (hk : Partial (Is g h t) (k b) Q R) :
    Partial (Is g h t) (getHas l >>= k) Q R :=
  getHas_given_then (fun w hw => by rw [hw.has, hl]) hk

end Objects

/-- What an operation calls that may throw: so many constructors, and then an assignment or none. -/
structure Cost where
  constructs : ℕ
  assigns : Bool

def Cost.after (n : ℕ) (k : Cost) : Cost := ⟨n + k.constructs, k.assigns⟩

def Mode.cost (mode : Mode) : Cost := ⟨if mode = .copy then 1 else 0, false⟩

/-- Of an assignment to a result in state `a` from one in state `b`. -/
def Mode.assignCost (mode : Mode) (a b : Bool) : Cost := if a = b then ⟨0, true⟩ else mode.cost

def Env.copyAssignCost (env : Env C) (a b : Bool) : Cost :=
  if env.trivCopyAssign then ⟨0, false⟩ else Mode.copy.assignCost a b

def Env.moveAssignCost (env : Env C) (a b : Bool) : Cost :=
  if env.trivMoveAssign then ⟨0, false⟩ else Mode.move.assignCost a b

/-- Of the constructors and assignments from number `t` on, the first `n` do not throw. -/
def Env.Quiet (env : Env C) (t n : ℕ) : Prop := ∀ i < n, env.throws (t + i) = false

structure Done (env : Env C) (k : Cost) (g : Place → Option C) (h : Loc → Option Bool) (t : ℕ)
    (w : World C) : Prop where
  constructed : env.Quiet t k.constructs
  assigned : k.assigns = true → env.throws (t + k.constructs) = false
  shows : Is g h (t + k.constructs + k.assigns.toNat) w

/-- The first that threw was a constructor, which leaves things as they were, or it was the
assignment to `l`, which tears its alternative. -/
def Left (env : Env C) (k : Cost) (g : Place → Option C) (h : Loc → Option Bool) (l : Loc) (t : ℕ)
    (w : World C) : Prop :=
  (∃ i < k.constructs, env.Quiet t i ∧ env.throws (t + i) = true ∧ Is g h (t + i + 1) w) ∨
    k.assigns = true ∧ env.Quiet t k.constructs ∧ env.throws (t + k.constructs) = true ∧
      Is (update g (.alt l) (some (env.torn (t + k.constructs + 1)))) h (t + k.constructs + 1) w

variable {l o : Loc} {a b : Bool} {mode : Mode} {k : Cost}

section Costs

theorem Done.free (hw : Is g h t w) : Done env ⟨0, false⟩ g h t w :=
  ⟨fun _ hi => absurd hi (Nat.not_lt_zero _), nofun, hw⟩

theorem Done.one (hn : env.throws t = false) (hw : Is g h (t + 1) w) : Done env ⟨1, false⟩ g h t w := by
  refine ⟨fun i hi => ?_, nofun, hw⟩
  obtain rfl := Nat.lt_one_iff.mp hi
  exact hn

theorem Left.one (hn : env.throws t = true) (hw : Is g h (t + 1) w) :
    Left env (k.after 1) g h l t w :=
  .inl ⟨0, Nat.add_pos_left Nat.one_pos _, fun _ hj => absurd hj (Nat.not_lt_zero _), hn, hw⟩

theorem Env.Quiet.cons {n : ℕ} (hn : env.throws t = false) (h : env.Quiet (t + 1) n) :
    env.Quiet t (1 + n) := by
  intro i hi
  cases i with
  | zero => exact hn
  | succ i =>
    have := h i (by omega)
    rwa [Nat.add_assoc, Nat.add_comm 1 i] at this

/-- Behind a constructor that did not throw. -/
theorem Done.after (hn : env.throws t = false) (hw : Done env k g h (t + 1) w) :
    Done env (k.after 1) g h t w := by
  have htick : t + (k.after 1).constructs = t + 1 + k.constructs := (Nat.add_assoc t 1 _).symm
  refine ⟨hw.constructed.cons hn, fun ha => ?_, ?_⟩
  · rw [htick]
    exact hw.assigned ha
  · rw [htick]
    exact hw.shows

theorem Left.after (hn : env.throws t = false) (hw : Left env k g h l (t + 1) w) :
    Left env (k.after 1) g h l t w := by
  have htick : t + (k.after 1).constructs = t + 1 + k.constructs := (Nat.add_assoc t 1 _).symm
  rcases hw with ⟨i, hi, hbefore, hthrows, hw⟩ | ⟨ha, hbefore, hthrows, hw⟩
  · have hsum : t + (1 + i) = t + 1 + i := (Nat.add_assoc t 1 i).symm
    refine .inl ⟨1 + i, Nat.add_lt_add_left hi 1, hbefore.cons hn, ?_, ?_⟩
    · rwa [hsum]
    · rwa [hsum]
  · refine .inr ⟨ha, hbefore.cons hn, ?_, ?_⟩
    · rwa [htick]
    · rwa [htick]

/-- Behind what does not throw comes what cannot. -/
theorem Done.then {m : Comp (World C) Unit} {g' : Place → Option C} {h' : Loc → Option Bool}
    (hm : ∀ t, Partial (Is g h t) m (fun _ => Is g' h' t) R) :
    Partial (Done env k g h t) m (fun _ => Done env k g' h' t) R := fun w hw =>
  (hm _).conseq (fun _ hw => hw) (fun _ _ hw' => ⟨hw.constructed, hw.assigned, hw'⟩)
    (fun _ hw => hw) w hw.shows

/-- What cannot throw is done after a throw, and leaves the target alone. -/
theorem Left.then {m : Comp (World C) Unit} {g' : Place → Option C} {h' : Loc → Option Bool}
    (hbefore : ∀ t, Partial (Is g h t) m (fun _ => Is g' h' t) R)
    (htorn : ∀ c t, Partial (Is (update g (.alt l) (some c)) h t) m
      (fun _ => Is (update g' (.alt l) (some c)) h' t) R) :
    Partial (Left env k g h l t) m (fun _ => Left env k g' h' l t) R := by
  rintro w (⟨i, hi, hpassed, hthrows, hw⟩ | ⟨ha, hpassed, hthrows, hw⟩)
  · exact (hbefore _).conseq (fun _ hw => hw) (fun _ _ hw => .inl ⟨i, hi, hpassed, hthrows, hw⟩)
      (fun _ hw => hw) w hw
  · exact (htorn _ _).conseq (fun _ hw => hw) (fun _ _ hw => .inr ⟨ha, hpassed, hthrows, hw⟩)
      (fun _ hw => hw) w hw

end Costs

section Transfers

def taken (env : Env C) (mode : Mode) (c : C) : C := if mode = .move then env.moved c else c

theorem take_shows {mode : Mode} (hq : g q = some c) :
    Partial (Is g h t) (onlyIf (mode = .move) (modify fun w => w.setContent q (env.moved c)))
      (fun _ => Is (update g q (some (taken env mode c))) h t) R := by
  refine Partial.onlyIf (fun hmove => ?_) fun hmove w hw => ?_
  · rw [taken, if_pos hmove]
    exact setContent_shows (by simp [hq])
  · rwa [taken, if_neg hmove, ← hq, update_eq_self]

theorem constructAlt_shows (k : Kind) (hq : g q = some c) (hpq : p ≠ q) :
    Partial (Is g h t) (constructAlt env mode p k q)
      (fun _ => Done env mode.cost
        (update (update g p (some c)) q (some (taken env mode c))) h t)
      (Left env mode.cost g h l t) := by
  apply Partial.bind (read_shows k)
  intro o
  refine Partial.and_pre fun ho => ?_
  have hc : c = o.content := Option.some.inj (hq.symm.trans ho)
  rw [hc]
  have hthrow : Partial (Is g h t) (onlyIf (mode = .copy) (mayThrow env))
      (fun _ => Done env mode.cost g h t) (Left env mode.cost g h l t) := by
    rw [Mode.cost]
    refine Partial.onlyIf (fun hcopy => ?_) fun hcopy w hw => ?_
    · rw [if_pos hcopy]
      exact mayThrow_shows.conseq (fun _ hw => hw) (fun _ _ hw => .one hw.1 hw.2) fun _ hw =>
        @Left.one _ _ _ _ _ _ _ ⟨0, false⟩ hw.1 hw.2
    · rw [if_neg hcopy]
      exact .free hw
  apply Partial.bind hthrow
  intro _
  refine Done.then fun t => ?_
  apply Partial.bind (construct_shows k none)
  intro _
  apply take_shows
  rw [update_of_ne hpq.symm, ho]

/-- A move construction does not throw. -/
theorem moveAlt_shows (k : Kind) (hq : g q = some c) (hpq : p ≠ q) :
    Partial (Is g h t) (constructAlt env .move p k q)
      (fun _ => Is (update (update g p (some c)) q (some (taken env .move c))) h t) R := by
  refine (constructAlt_shows (l := .temp) k hq hpq).conseq (fun _ hw => hw)
    (fun _ _ hw => hw.shows) fun w hw => ?_
  rcases hw with ⟨i, hi, -⟩ | ⟨ha, -⟩
  · exact absurd hi (Nat.not_lt_zero _)
  · cases ha

theorem assignAlt_shows (k : Kind) (hq : g q = some c) :
    Partial (Is g h t) (assignAlt env mode (.alt l) k q)
      (fun _ => Done env ⟨0, true⟩
        (update (update g (.alt l) (some c)) q (some (taken env mode c))) h t)
      (Left env ⟨0, true⟩ g h l t) := by
  apply Partial.bind (read_shows k)
  intro o
  refine Partial.and_pre fun ho => ?_
  have hc : c = o.content := Option.some.inj (hq.symm.trans ho)
  rw [hc]
  apply Partial.bind (read_shows k)
  intro old
  refine Partial.and_pre fun hold => ?_
  have hp : (g (.alt l)).isSome := by simp [hold]
  have hnone : env.Quiet t 0 := fun _ hi => absurd hi (Nat.not_lt_zero _)
  apply Partial.bind (Partial.onThrow mayThrow_shows fun w hw => ?_)
  · intro _
    refine Partial.and_pre fun hn => ?_
    refine Partial.conseq (P := Is g h (t + 1)) (R := fun _ => False) ?_ (fun _ hw => hw)
      (fun _ _ hw => ⟨hnone, fun _ => hn, hw⟩) fun _ hw => hw.elim
    apply Partial.bind (setContent_shows hp)
    intro _
    apply take_shows
    by_cases hqp : q = .alt l
    · rw [hqp, update_self]
    · rw [update_of_ne hqp, ho]
  · obtain ⟨hn, hw⟩ := hw
    refine .inr ⟨rfl, hnone, hn, ?_⟩
    rw [hw.tick]
    exact hw.setContent hp

/-- The way from one state to the other goes through the local, which is gone afterwards. -/
theorem crossState_shows (k k' : Kind) (hlo : l ≠ o) (ho : g (.alt o) = some c)
    (hi : g .incoming = none) :
    Partial (Is g h t)
      (do
        constructAlt env mode .incoming k (.alt o)
        cleanup
          (do
            destroyAt (.alt l) k'
            constructAlt env .move (.alt l) k .incoming
            setHas l b)
          (destroyAt .incoming k))
      (fun _ => Done env mode.cost
        (update (update g (.alt l) (some c)) (.alt o) (some (taken env mode c)))
        (update h l (some b)) t)
      (Left env mode.cost g h l t) := by
  have hlo' : Place.alt o ≠ .alt l := fun heq => hlo (Place.alt.inj heq).symm
  apply Partial.bind (constructAlt_shows k ho (by simp))
  intro _
  refine Done.then fun t => ?_
  let g₁ := update (update g .incoming (some c)) (.alt o) (some (taken env mode c))
  let g₂ := update g₁ (.alt l) none
  have h₂i : g₂ .incoming = some c := by simp [g₂, g₁]
  let g₃ := update (update g₂ (.alt l) (some c)) .incoming (some (taken env .move c))
  refine Partial.cleanup (Q := fun _ => Is g₃ (update h l (some b)) t) (R := fun _ => False) ?_
    (fun _ => (destroyAt_shows k).conseq (fun _ hw => hw) (fun _ w hw => ?_) fun _ hw => hw)
    fun _ hw => hw.elim
  · apply Partial.bind (destroyAt_shows k')
    intro _
    apply Partial.bind (moveAlt_shows k h₂i (by simp))
    intro _
    exact setHas_shows l b
  · have hend : update g₃ .incoming none =
        update (update g (.alt l) (some c)) (.alt o) (some (taken env mode c)) := by
      funext q
      simp only [g₃, g₂, g₁, update_apply]
      split_ifs <;> simp_all
    rwa [hend] at hw

theorem assignFrom_shows (hl : h l = some a) (hb : h o = some b) (ho : g (.alt o) = some c)
    (hi : g .incoming = none) :
    Partial (Is g h t) (assignFrom env mode l o)
      (fun _ => Done env (mode.assignCost a b)
        (update (update g (.alt l) (some c)) (.alt o) (some (taken env mode c)))
        (update h l (some b)) t)
      (Left env (mode.assignCost a b) g h l t) := by
  apply getHas_shows hl
  apply getHas_shows hb
  have hsame : ∀ k, a = b → Partial (Is g h t) (assignAlt env mode (.alt l) k (.alt o))
      (fun _ => Done env (mode.assignCost a b)
        (update (update g (.alt l) (some c)) (.alt o) (some (taken env mode c)))
        (update h l (some b)) t) (Left env (mode.assignCost a b) g h l t) := by
    intro k hab
    rw [Mode.assignCost, if_pos hab, ← hab, ← hl, update_eq_self]
    exact assignAlt_shows k ho
  have hcross : ∀ k k', a ≠ b → Partial (Is g h t)
      (do
        constructAlt env mode .incoming k (.alt o)
        cleanup
          (do
            destroyAt (.alt l) k'
            constructAlt env .move (.alt l) k .incoming
            setHas l b)
          (destroyAt .incoming k))
      (fun _ => Done env (mode.assignCost a b)
        (update (update g (.alt l) (some c)) (.alt o) (some (taken env mode c)))
        (update h l (some b)) t) (Left env (mode.assignCost a b) g h l t) := by
    intro k k' hab
    have hlo : l ≠ o := by
      intro heq
      rw [heq, hb] at hl
      exact hab (Option.some.inj hl).symm
    rw [Mode.assignCost, if_neg hab]
    exact crossState_shows k k' hlo ho hi
  cases a <;> cases b <;>
    simp only [Bool.and_self, Bool.and_true, Bool.and_false, Bool.not_true, Bool.not_false,
      Bool.false_eq_true, if_true, if_false]
  · exact hsame .error rfl
  · exact hcross .value .error (by simp)
  · exact hcross .error .value (by simp)
  · exact hsame .value rfl

theorem assignBitwise_shows (hl : h l = some a) (hb : h o = some b) (ho : g (.alt o) = some c) :
    Partial (Is g h t) (assignBitwise l o)
      (fun _ => Is (update (update g (.alt l) (some c)) (.alt o) (some (taken env .bitwise c)))
        (update h l (some b)) t) R := by
  apply getHas_shows hl
  apply getHas_shows hb
  by_cases hlo : l = o
  · simp only [hlo, ne_eq, not_true_eq_false, if_false]
    refine Partial.pure _ fun w hw => ?_
    rw [update_idem, taken, if_neg (by simp), ← ho, update_eq_self, ← hb, update_eq_self]
    exact hw
  · have hlo' : Place.alt o ≠ .alt l := fun heq => hlo (Place.alt.inj heq).symm
    simp only [ne_eq, hlo, not_false_eq_true, if_true]
    apply Partial.bind (read_shows (kindOf b))
    intro other
    refine Partial.and_pre fun hother => ?_
    have hc : other.content = c := Option.some.inj (hother.symm.trans ho)
    rw [hc]
    apply Partial.bind (destroyAt_shows (kindOf a))
    intro _
    apply Partial.bind (construct_shows (kindOf b) none)
    intro _
    refine (setHas_shows l b).conseq (fun _ hw => hw) (fun _ w hw => ?_) fun _ hw => hw
    have hkeep : update (update g (.alt l) (some c)) (.alt o) (some c) =
        update g (.alt l) (some c) := by
      rw [update_eq_self_iff, update_of_ne hlo', ho]
    rw [update_idem] at hw
    rwa [taken, if_neg (by simp), hkeep]

theorem copyAssign_shows (hl : h l = some a) (hb : h o = some b) (ho : g (.alt o) = some c)
    (hi : g .incoming = none) :
    Partial (Is g h t) (copyAssign env l o)
      (fun _ => Done env (env.copyAssignCost a b)
        (update (update g (.alt l) (some c)) (.alt o) (some (taken env .copy c)))
        (update h l (some b)) t)
      (Left env (env.copyAssignCost a b) g h l t) := by
  unfold copyAssign Env.copyAssignCost
  split_ifs
  · exact (@assignBitwise_shows C env _ g h c t l o a b hl hb ho).conseq (fun _ hw => hw)
      (fun _ _ hw => .free hw) fun _ hw => hw
  · exact assignFrom_shows hl hb ho hi

theorem moveAssign_shows (hl : h l = some a) (hb : h o = some b) (ho : g (.alt o) = some c)
    (hi : g .incoming = none) :
    Partial (Is g h t) (moveAssign env l o)
      (fun _ => Done env (env.moveAssignCost a b) (update (update g (.alt l) (some c)) (.alt o)
        (some (taken env (if env.trivMoveAssign then .bitwise else .move) c)))
        (update h l (some b)) t)
      (Left env (env.moveAssignCost a b) g h l t) := by
  unfold moveAssign Env.moveAssignCost
  split_ifs
  · exact (assignBitwise_shows hl hb ho).conseq (fun _ hw => hw) (fun _ _ hw => .free hw)
      fun _ hw => hw
  · exact assignFrom_shows hl hb ho hi

theorem constructLike_shows (hl : h l = none) (hb : h o = some b) (ho : g (.alt o) = some c) :
    Partial (Is g h t) (constructLike env mode l o)
      (fun _ => Done env mode.cost
        (update (update g (.alt l) (some c)) (.alt o) (some (taken env mode c)))
        (update h l (some b)) t)
      (Left env mode.cost g h l t) := by
  have hlo : Place.alt l ≠ .alt o := by
    intro heq
    rw [Place.alt.inj heq, hb] at hl
    cases hl
  refine Partial.onThrow (R := Left env mode.cost g (update h l (some b)) l t) ?_ fun w hw => ?_
  · apply getHas_shows hb
    apply Partial.bind (setHas_shows l b)
    intro _
    cases b
    · exact constructAlt_shows .error ho hlo
    · exact constructAlt_shows .value ho hlo
  · rcases hw with ⟨i, hi, hbefore, hthrows, hw⟩ | ⟨ha, -⟩
    · have := hw.setHas l none
      rw [update_idem, ← hl, update_eq_self, hl] at this
      exact .inl ⟨i, hi, hbefore, hthrows, this⟩
    · cases ha

theorem destructor_shows {g' : Place → Option C} {h' : Loc → Option Bool}
    (hg : update g (.alt l) none = g') (hh : update h l none = h') :
    Partial (Is g h t) (destructor l) (fun _ => Is g' h' t) R := by
  rw [← hg, ← hh]
  have hdestroy : Partial (Is g h t) (destroy l) (fun _ => Is (update g (.alt l) none) h t) R := by
    apply Partial.bind (Partial.require fun w _ hw _ => hw)
    intro b
    cases b
    · exact destroyAt_shows .error
    · exact destroyAt_shows .value
  apply Partial.bind hdestroy
  intro _
  exact Partial.modify fun w hw => hw.setHas l none

end Transfers

section Arguments

/-- An argument read where the contents are known, and the contents left. -/
def Source.taken (env : Env C) (g : Place → Option C) : Source C → Option (C × (Place → Option C))
  | .own c => some (c, g)
  | .object ref moved =>
    (g ref.place).map fun c => (c, if moved then update g ref.place (some (env.moved c)) else g)

def allTaken (env : Env C) : List (Source C) → (Place → Option C) →
    Option (List C × (Place → Option C))
  | [], g => some ([], g)
  | a :: as, g => (a.taken env g).bind fun x => (allTaken env as x.2).map fun y => (x.1 :: y.1, y.2)

theorem Source.read_shows {v : Source C} {x : C × (Place → Option C)}
    (hv : v.taken env g = some x) :
    Partial (Is g h t) (v.read env) (fun c w => c = x.1 ∧ Is x.2 h t w) R := by
  cases v with
  | own c =>
    obtain rfl := Option.some.inj hv
    exact Partial.pure c fun w hw => ⟨rfl, hw⟩
  | object ref moved =>
    obtain ⟨c, hc, rfl⟩ := Option.map_eq_some_iff.mp hv
    apply Partial.bind (Q := fun o w => o.content = c ∧ Is g h t w)
      (Partial.require fun w o hw ho => ⟨?_, hw⟩)
    · intro o
      refine Partial.and_pre fun ho => ?_
      rw [ho]
      apply Partial.bind
        (Q := fun _ => Is (if moved then update g ref.place (some (env.moved c)) else g) h t)
      · refine Partial.onlyIf (fun hmoved => ?_) fun hmoved w hw => ?_
        · rw [if_pos hmoved]
          exact setContent_shows (by simp [hc])
        · rwa [if_neg hmoved]
      · intro _
        exact Partial.pure c fun w hw => ⟨rfl, hw⟩
    · have hmem : w.mem ref.place = some o := (Option.filter_eq_some_iff.mp ho).1
      rw [← hw.content, World.contentAt, hmem] at hc
      exact Option.some.inj hc

theorem readAll_shows {args : List (Source C)} {x : List C × (Place → Option C)}
    (hargs : allTaken env args g = some x) :
    Partial (Is g h t) (readAll env args) (fun cs w => cs = x.1 ∧ Is x.2 h t w) R := by
  induction args generalizing g x with
  | nil =>
    obtain rfl := Option.some.inj hargs
    exact Partial.pure _ fun w hw => ⟨rfl, hw⟩
  | cons a args ih =>
    obtain ⟨y, hy, hrest⟩ := Option.bind_eq_some_iff.mp hargs
    obtain ⟨z, hz, rfl⟩ := Option.map_eq_some_iff.mp hrest
    apply Partial.bind (Source.read_shows hy)
    intro c
    refine Partial.and_pre fun hc => ?_
    apply Partial.bind (ih hz)
    intro cs
    refine Partial.and_pre fun hcs => ?_
    refine Partial.pure _ fun w hw => ⟨?_, hw⟩
    rw [hc, hcs]

variable {args : List (Source C)} {x : List C × (Place → Option C)}

/-- A constructor of `result` that makes one alternative from arguments. -/
theorem constructing_shows (b : Bool) (hl : h l = none) (hargs : allTaken env args g = some x) :
    Partial (Is g h t)
      (constructing l do
        constructFrom env (.alt l) (kindOf b) args
        setHas l b)
      (fun _ w => env.throws t = false ∧
        Is (update x.2 (.alt l) (some (env.make x.1))) (update h l (some b)) (t + 1) w)
      (fun w => env.throws t = true ∧ Is x.2 h (t + 1) w) := by
  refine Partial.onThrow (R := fun w => env.throws t = true ∧ Is x.2 h (t + 1) w) ?_ fun w hw => ?_
  · apply Partial.bind (Q := fun _ w => env.throws t = false ∧
      Is (update x.2 (.alt l) (some (env.make x.1))) h (t + 1) w)
    · apply Partial.bind (readAll_shows hargs)
      intro cs
      refine Partial.and_pre fun hcs => ?_
      rw [hcs]
      apply Partial.bind mayThrow_shows
      intro _
      refine Partial.and_pre fun hn => ?_
      exact (construct_shows (kindOf b) none).conseq (fun _ hw => hw) (fun _ _ hw => ⟨hn, hw⟩)
        fun _ hw => hw
    · intro _
      refine Partial.and_pre fun hn => ?_
      exact (setHas_shows l b).conseq (fun _ hw => hw) (fun _ _ hw => ⟨hn, hw⟩) fun _ hw => hw
  · have := hw.2.setHas l none
    rw [← hl, update_eq_self, hl] at this
    exact ⟨hw.1, this⟩

/-- Assigning the temporary and destroying it. -/
theorem assignTemp_shows (hl : h l = some a) (hne : l ≠ .temp) (ht : h .temp = none)
    (htemp : g (.alt .temp) = none) (hi : g .incoming = none) :
    Partial (Is (update g (.alt .temp) (some c)) (update h .temp (some b)) t)
      (cleanup (moveAssign env l .temp) (destructor .temp))
      (fun _ => Done env (env.moveAssignCost a b) (update g (.alt l) (some c))
        (update h l (some b)) t)
      (Left env (env.moveAssignCost a b) g h l t) := by
  have hne' : Place.alt l ≠ .alt .temp := fun heq => hne (Place.alt.inj heq)
  have hmove := @moveAssign_shows C env (update g (.alt .temp) (some c)) (update h .temp (some b)) c
    t l .temp a b (by rw [update_of_ne hne, hl]) (update_self ..) (update_self ..) (by simp [hi])
  -- without the temporary the world is as before but for the target
  have hgone : ∀ d, update (update (update g (.alt .temp) (some c)) (.alt l) d) (.alt .temp) none =
      update g (.alt l) d := by
    intro d
    rw [update_comm hne', update_idem, ← htemp, update_eq_self]
  have hforgotten : update (update h .temp (some b)) .temp none = h := by
    rw [update_idem, ← ht, update_eq_self]
  refine Partial.cleanup hmove (fun _ => Done.then fun _ => destructor_shows ?_ ?_)
    (Left.then (fun _ => ?_) fun d _ => ?_)
  · rw [update_idem, hgone]
  · rw [update_comm hne, hforgotten]
  · apply destructor_shows _ hforgotten
    rw [update_idem, ← htemp, update_eq_self]
  · exact destructor_shows (hgone _) hforgotten

/-- Making the temporary from arguments, assigning it and destroying it. -/
theorem assignMade_shows (b : Bool) (hl : h l = some a) (hne : l ≠ .temp) (ht : h .temp = none)
    (hargs : allTaken env args g = some x) (htemp : x.2 (.alt .temp) = none)
    (hi : x.2 .incoming = none) :
    Partial (Is g h t)
      (do
        constructing .temp do
          constructFrom env (.alt .temp) (kindOf b) args
          setHas .temp b
        cleanup (moveAssign env l .temp) (destructor .temp))
      (fun _ => Done env ((env.moveAssignCost a b).after 1)
        (update x.2 (.alt l) (some (env.make x.1))) (update h l (some b)) t)
      (Left env ((env.moveAssignCost a b).after 1) x.2 h l t) := by
  apply Partial.bind ((constructing_shows b ht hargs).conseq (fun _ hw => hw)
    (fun _ _ hw => hw) fun w hw => Left.one hw.1 hw.2)
  intro _
  refine Partial.and_pre fun hn => ?_
  exact (assignTemp_shows hl hne ht htemp hi).conseq (fun _ hw => hw) (fun _ _ hw => hw.after hn)
    fun _ hw => Left.after hn hw

theorem assignValue_shows {v : Source C} (hl : h l = some a) (hne : l ≠ .temp)
    (ht : h .temp = none) (hargs : allTaken env [v] g = some x) (htemp : x.2 (.alt .temp) = none)
    (hi : x.2 .incoming = none) :
    Partial (Is g h t) (assignValue env l v)
      (fun _ => Done env ((env.moveAssignCost a true).after 1)
        (update x.2 (.alt l) (some (env.make x.1))) (update h l (some true)) t)
      (Left env ((env.moveAssignCost a true).after 1) x.2 h l t) :=
  assignMade_shows true hl hne ht hargs htemp hi

def errorIn (g : Place → Option C) (content : C) : Option Ref → Option C
  | none => some content
  | some ref => g ref.place

/-- Reading the error of the parameter changes at most the parameter. -/
theorem errorOf_taken {f : Obj C} (hc : errorIn g f.content f.view = some c)
    (hview : ∀ ref ∈ f.view, ref.place ≠ .param) :
    ∃ d, allTaken env [errorOf f] (update g .param (some f.content)) =
      some ([c], update g .param (some d)) := by
  cases hf : f.view with
  | none =>
    rw [hf] at hc
    refine ⟨env.moved c, ?_⟩
    simp [allTaken, errorOf, hf, Source.taken, Option.some.inj hc]
  | some ref =>
    rw [hf] at hc
    have hplace : ref.place ≠ .param := hview ref hf
    have hread : g ref.place = some c := hc
    refine ⟨f.content, ?_⟩
    simp [allTaken, errorOf, hf, Source.taken, hplace, hread]

theorem assignFailure_shows {content : C} {view : Option Ref} (hl : h l = some a)
    (hne : l ≠ .temp) (ht : h .temp = none) (htemp : g (.alt .temp) = none)
    (hi : g .incoming = none) (hp : g .param = none) (hc : errorIn g content view = some c)
    (hview : ∀ ref ∈ view, ref.place ≠ .param) :
    Partial (Is g h t) (assignFailure env l content view)
      (fun _ => Done env (((env.moveAssignCost a false).after 1).after 1)
        (update g (.alt l) (some (env.make [c]))) (update h l (some false)) t)
      (Left env (((env.moveAssignCost a false).after 1).after 1) g h l t) := by
  apply Partial.bind (mayThrow_shows.conseq (fun _ hw => hw) (fun _ _ hw => hw) fun w hw =>
    Left.one hw.1 hw.2)
  intro _
  refine Partial.and_pre fun hn => ?_
  refine Partial.conseq (P := Is g h (t + 1)) ?_ (fun _ hw => hw) (fun _ _ hw => Done.after hn hw)
    fun _ hw => Left.after hn hw
  apply Partial.bind (Q := fun _ w => (∃ n, w.mem .param = some ⟨⟨.failure, n, view⟩, content⟩) ∧
    Is (update g .param (some content)) h (t + 1) w)
  · apply Partial.bind (Partial.require fun w _ hw _ => hw)
    intro _
    refine Partial.modify fun w hw => ⟨⟨w.constructed, ?_⟩, hw.begin .failure view⟩
    simp [World.begin]
  intro _
  -- the parameter is destroyed last, whatever has become of it
  have hlp : Place.alt l ≠ .param := by simp
  have hgone : ∀ d e, update (update (update g .param (some d)) (.alt l) e) .param none =
      update g (.alt l) e := by
    intro d e
    rw [update_comm hlp, update_idem, ← hp, update_eq_self]
  refine Partial.cleanup
    (Q := fun _ w => ∃ d, Done env ((env.moveAssignCost a false).after 1)
      (update (update g .param (some d)) (.alt l) (some (env.make [c])))
      (update h l (some false)) (t + 1) w)
    (R := fun w => ∃ d, Left env ((env.moveAssignCost a false).after 1)
      (update g .param (some d)) h l (t + 1) w) ?_ (fun _ w hw => ?_) fun w hw => ?_
  · apply Partial.bind (Q := fun f w => (f.view = view ∧ f.content = content) ∧
      Is (update g .param (some content)) h (t + 1) w)
      (Partial.require fun w f hw hf => ⟨?_, hw.2⟩)
    · intro f
      refine Partial.and_pre fun hf => ?_
      obtain ⟨hfview, hfcontent⟩ := hf
      rw [← hfview, ← hfcontent] at hc
      rw [← hfview] at hview
      obtain ⟨d, hargs⟩ := @errorOf_taken C env g c f hc hview
      rw [hfcontent] at hargs
      have htemp' : update g .param (some d) (.alt .temp) = none := by simp [htemp]
      have hi' : update g .param (some d) .incoming = none := by simp [hi]
      exact (assignMade_shows false hl hne ht hargs htemp' hi').conseq (fun _ hw => hw)
        (fun _ _ hw => ⟨d, hw⟩) fun _ hw => ⟨d, hw⟩
    · obtain ⟨n, hmem⟩ := hw.1
      have hfound : w.mem .param = some f := (Option.filter_eq_some_iff.mp hf).1
      have hobject : f = ⟨⟨.failure, n, view⟩, content⟩ := Option.some.inj (hfound.symm.trans hmem)
      rw [hobject]
      exact ⟨rfl, rfl⟩
  · obtain ⟨d, hw⟩ := hw
    refine Done.then (fun t => ?_) w hw
    have := @destroyAt_shows C (fun _ => False) (update (update g .param (some d)) (.alt l)
      (some (env.make [c]))) (update h l (some false)) .param t .failure
    rwa [hgone] at this
  · obtain ⟨d, hw⟩ := hw
    refine Left.then (fun t => ?_) (fun e t => ?_) w hw
    · have := @destroyAt_shows C (fun _ => False) (update g .param (some d)) h .param t .failure
      rwa [update_idem, ← hp, update_eq_self] at this
    · have := @destroyAt_shows C (fun _ => False)
        (update (update g .param (some d)) (.alt l) (some e)) h .param t .failure
      rwa [hgone] at this

end Arguments

end Jmpxx.Transport
