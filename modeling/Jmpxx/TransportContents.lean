import Jmpxx.TransportLifetime

namespace Jmpxx.Transport

open Throwing Function

variable {C : Type} {env : Env C} {R : World C → Prop}

namespace World

def contentAt (w : World C) (p : Place) : Option C := (w.mem p).map (·.content)

end World

/-- `contentAt`, where the storage is not the one written. -/
theorem contentAt_setContent_of_ne {w : World C} {p q : Place} (h : p ≠ q) (c : C) :
    (w.setContent q c).contentAt p = w.contentAt p := by
  simp [World.contentAt, World.setContent, h]

theorem contentAt_begin {w : World C} {p : Place} {k : Kind} {c : C} {view : Option Ref} :
    (w.begin p k c view).contentAt p = some c := by
  simp [World.contentAt, World.begin]

theorem contentAt_begin_of_ne {w : World C} {p q : Place} {k : Kind} {c : C} {view : Option Ref}
    (h : p ≠ q) : (w.begin q k c view).contentAt p = w.contentAt p := by
  simp [World.contentAt, World.begin, h]

theorem contentAt_finish_of_ne {w : World C} {p q : Place} {o : Obj C} (h : p ≠ q) :
    (w.finish q o).contentAt p = w.contentAt p := by
  simp [World.contentAt, World.finish, h]

/-- A property of `has_` and of the contents at the places `A`. -/
structure Depends (A : Place → Prop) (X : World C → Prop) : Prop where
  congr : ∀ w w' : World C, (∀ p, A p → w'.contentAt p = w.contentAt p) → w'.has = w.has → X w → X w'

variable {A : Place → Prop} {X : World C → Prop}

theorem depends_contentAt (p : Place) (x : Option C) :
    Depends (· = p) fun w : World C => w.contentAt p = x :=
  ⟨fun _ _ hp _ hw => (hp p rfl).trans hw⟩

theorem mayThrow_keeps (hX : Depends A X) : Partial X (mayThrow env) (fun _ => X) X := by
  intro w hw
  have htick : X { w with tick := w.tick + 1 } := hX.congr w _ (fun _ _ => rfl) rfl hw
  simp only [mayThrow]
  split_ifs
  · exact htick
  · exact htick

theorem contentAt_of_find {w : World C} {p : Place} {k : Kind} {o : Obj C} (h : w.find p k = some o) :
    w.contentAt p = some o.content := by
  have hmem : w.mem p = some o := (Option.filter_eq_some_iff.mp h).1
  rw [World.contentAt, hmem]
  rfl

theorem read_content {p : Place} (k : Kind) {c : C} :
    Partial (fun w => X w ∧ w.contentAt p = some c) (read p k)
      (fun o w => o.content = c ∧ X w ∧ w.contentAt p = some c) R := by
  refine Partial.require fun w o hw ho => ⟨?_, hw⟩
  exact Option.some.inj ((contentAt_of_find ho).symm.trans hw.2)

theorem destroyAt_keeps {p : Place} (k : Kind) (hX : Depends A X) (hp : ¬ A p) :
    Partial X (destroyAt p k) (fun _ => X) R := by
  refine Partial.bind (Partial.require fun w o hw _ => hw) fun o => Partial.modify fun w hw => ?_
  refine hX.congr w _ (fun q hq => contentAt_finish_of_ne ?_) rfl hw
  exact fun heq => hp (heq ▸ hq)

theorem construct_keeps {p : Place} (k : Kind) (c : C) (view : Option Ref) (hX : Depends A X)
    (hp : ¬ A p) :
    Partial X (construct p k c view) (fun _ w => X w ∧ w.contentAt p = some c) R := by
  refine Partial.bind (Partial.require fun w _ hw _ => hw) fun _ => Partial.modify fun w hw => ?_
  refine ⟨hX.congr w _ (fun q hq => contentAt_begin_of_ne ?_) rfl hw, contentAt_begin⟩
  exact fun heq => hp (heq ▸ hq)

theorem setContent_keeps {p : Place} (c : C) (hX : Depends A X) (hp : ¬ A p) :
    Partial X (modify fun w => w.setContent p c) (fun _ => X) R := by
  refine Partial.modify fun w hw => ?_
  refine hX.congr w _ (fun q hq => contentAt_setContent_of_ne ?_ c) rfl hw
  exact fun heq => hp (heq ▸ hq)

theorem Depends.and {B : Place → Prop} {Y : World C → Prop} (hX : Depends A X) (hY : Depends B Y) :
    Depends (fun p => A p ∨ B p) fun w => X w ∧ Y w :=
  ⟨fun w w' hp hh hw => ⟨hX.congr w w' (fun p h => hp p (.inl h)) hh hw.1,
    hY.congr w w' (fun p h => hp p (.inr h)) hh hw.2⟩⟩

/-- A copy or a move puts the content of the one object in the other; only a copy throws, and
then nothing has changed. -/
theorem constructAlt_copies {mode : Mode} {p q : Place} (k : Kind) {c : C} (hX : Depends A X)
    (hp : ¬ A p) (hq : mode = .move → ¬ A q) (hpq : p ≠ q) :
    Partial (fun w => X w ∧ w.contentAt q = some c) (constructAlt env mode p k q)
      (fun _ w => X w ∧ w.contentAt p = some c) (fun w => mode = .copy ∧ X w) := by
  have hXq := hX.and (depends_contentAt q (some c))
  refine Partial.bind (read_content k) fun o => Partial.and_pre fun hc => ?_
  subst hc
  refine Partial.bind (Q := fun _ w => X w) (Partial.onlyIf (fun hcopy => ?_) fun _ w hw => hw.1)
    fun _ => Partial.bind (construct_keeps k o.content none hX hp) fun _ => ?_
  · exact (mayThrow_keeps hXq).conseq (fun _ hw => hw) (fun _ _ hw => hw.1)
      fun _ hw => ⟨hcopy, hw.1⟩
  · have hXp := hX.and (depends_contentAt p (some o.content))
    refine Partial.onlyIf (fun hmove => setContent_keeps _ hXp ?_) fun _ w hw => hw
    exact fun h => h.elim (hq hmove) fun heq => hpq heq.symm

section Assignment

variable {l o : Loc} {a b : Bool} {c : C} {x : Option C} {S : Prop}

/-- Unless `S` fails, the target's content is the former one. -/
def Former (S : Prop) (l : Loc) (x : Option C) (w : World C) : Prop :=
  S → w.contentAt (.alt l) = x

theorem depends_former : Depends (· = .alt l) (Former S l x : World C → Prop) :=
  ⟨fun _ _ hp _ hw hS => (hp _ rfl).trans (hw hS)⟩

/-- Before an assignment to `l` from `o`. -/
structure Given (S : Prop) (l o : Loc) (a b : Bool) (x : Option C) (c : C) (w : World C) : Prop where
  target : w.has l = some a
  source : w.has o = some b
  former : Former S l x w
  content : w.contentAt (.alt o) = some c

theorem getHas_given (hX : ∀ w, X w → w.has l = some b) :
    Partial X (getHas l) (fun b' w => b' = b ∧ X w) R :=
  Partial.require fun w _ hw hb => ⟨Option.some.inj (hb.symm.trans (hX w hw)), hw⟩

/-- What follows a read of a known `has_` is judged at what it says. -/
theorem getHas_given_then {α : Type} {k : Bool → Comp (World C) α} {Q : α → World C → Prop}
    (hX : ∀ w, X w → w.has l = some b) (hk : Partial X (k b) Q R) :
    Partial X (getHas l >>= k) Q R := by
  refine Partial.bind (getHas_given hX) fun a => Partial.and_pre fun ha => ?_
  rw [ha]
  exact hk

/-- The alternative's own assignment copies the content, and may leave any where it throws. -/
theorem assignAlt_copies {mode : Mode} {p q : Place} (k : Kind) (hpq : p ≠ q) :
    Partial (fun w => w.contentAt q = some c) (assignAlt env mode p k q)
      (fun _ w => w.contentAt p = some c) (fun _ => True) := by
  have hread := @read_content C (fun _ => True) (fun _ => True) q k c
  refine Partial.bind (hread.conseq (fun _ hw => ⟨trivial, hw⟩) (fun _ _ hw => hw) fun _ hw => hw)
    fun other => Partial.and_pre fun hc => ?_
  subst hc
  refine Partial.bind (Q := fun _ w => (w.contentAt p).isSome) (Partial.require fun w old _ hold => ?_)
    fun _ => ?_
  · rw [contentAt_of_find hold]
    rfl
  refine Partial.bind (Q := fun _ w => (w.contentAt p).isSome) ?_ fun _ => ?_
  · refine Partial.onThrow (R := fun _ => True) ?_ fun _ _ => trivial
    have hX : Depends (· = p) fun w : World C => (w.contentAt p).isSome = true :=
      ⟨fun _ _ hp _ hw => (congrArg Option.isSome (hp p rfl)).trans hw⟩
    exact (mayThrow_keeps hX).conseq (fun _ hw => hw) (fun _ _ hw => hw) fun _ _ => trivial
  refine Partial.bind (Q := fun _ w => w.contentAt p = some other.content)
    (Partial.modify fun w hw => ?_) fun _ => ?_
  · obtain ⟨d, hd⟩ := Option.isSome_iff_exists.mp hw
    obtain ⟨old, hold, _⟩ := Option.map_eq_some_iff.mp hd
    simp [World.contentAt, World.setContent, hold]
  · refine Partial.onlyIf (fun _ => setContent_keeps _ (depends_contentAt p _) ?_) fun _ _ hw => hw
    exact fun heq => hpq heq.symm

/-- The way from one state to the other: what throws comes before the old alternative ends. -/
theorem crossState_copies {mode : Mode} (k k' : Kind) (hlo : l ≠ o) :
    Partial (fun w => Former S l x w ∧ w.contentAt (.alt o) = some c)
      (do
        constructAlt env mode .incoming k (.alt o)
        cleanup
          (do
            destroyAt (.alt l) k'
            constructAlt env .move (.alt l) k .incoming
            setHas l b)
          (destroyAt .incoming k))
      (fun _ w => w.contentAt (.alt l) = some c) (Former S l x) := by
  have hlo' : Place.alt o ≠ .alt l := fun heq => hlo (Place.alt.inj heq).symm
  refine Partial.bind ((constructAlt_copies k depends_former (by simp) (fun _ => hlo')
    (by simp)).conseq (fun _ hw => hw) (fun _ _ hw => hw.2) fun _ hw => hw.2) fun _ => ?_
  refine Partial.cleanup (Q := fun _ w => w.contentAt (.alt l) = some c) (R := fun _ => False) ?_
    (fun _ => destroyAt_keeps k (depends_contentAt _ _) (by simp)) fun _ hw => hw.elim
  refine Partial.bind (destroyAt_keeps k' (depends_contentAt .incoming (some c)) (by simp))
    fun _ => Partial.bind (Q := fun _ w => w.contentAt (.alt l) = some c) ?_ fun _ => ?_
  · have hX : Depends (fun _ => False) fun _ : World C => True := ⟨fun _ _ _ _ _ => trivial⟩
    exact (constructAlt_copies k hX (by simp) (by simp) (by simp)).conseq (fun _ hw => ⟨trivial, hw⟩)
      (fun _ _ hw => hw.2) fun _ hw => Mode.noConfusion hw.1
  · exact Partial.modify fun _ hw => hw

/-- After an assignment to `l` from `o` the target has the content; after one that threw from the
other state, its former content. -/
theorem assignFrom_copies {mode : Mode} (hlo : l ≠ o) :
    Partial (Given S l o a b x c) (assignFrom env mode l o)
      (fun _ w => w.contentAt (.alt l) = some c) (Former (a ≠ b ∧ S) l x) := by
  apply getHas_given_then fun _ hw => hw.target
  apply getHas_given_then fun _ hw => hw.source
  have hlo' : Place.alt l ≠ .alt o := fun heq => hlo (Place.alt.inj heq)
  have hsame : ∀ k : Kind, a = b → Partial (Given S l o a b x c)
      (assignAlt env mode (.alt l) k (.alt o)) (fun _ w => w.contentAt (.alt l) = some c)
      (Former (a ≠ b ∧ S) l x) := fun k hab =>
    (assignAlt_copies k hlo').conseq (fun _ hw => hw.content) (fun _ _ hw => hw)
      fun _ _ hne => absurd hab hne.1
  have hcross : ∀ (k k' : Kind) (d : Bool), Partial (Given S l o a b x c)
      (do
        constructAlt env mode .incoming k (.alt o)
        cleanup
          (do
            destroyAt (.alt l) k'
            constructAlt env .move (.alt l) k .incoming
            setHas l d)
          (destroyAt .incoming k))
      (fun _ w => w.contentAt (.alt l) = some c) (Former (a ≠ b ∧ S) l x) := fun k k' d =>
    (crossState_copies k k' hlo).conseq (fun _ hw => ⟨hw.former, hw.content⟩) (fun _ _ hw => hw)
      fun _ hw hne => hw hne.2
  cases a <;> cases b <;>
    simp only [Bool.and_self, Bool.and_true, Bool.and_false, Bool.not_true, Bool.not_false,
      Bool.false_eq_true, if_true, if_false]
  · exact hsame .error rfl
  · exact hcross .value .error true
  · exact hcross .error .value false
  · exact hsame .value rfl

theorem assignBitwise_copies (hlo : l ≠ o) :
    Partial (Given S l o a b x c) (assignBitwise l o)
      (fun _ w => w.contentAt (.alt l) = some c) R := by
  apply getHas_given_then fun _ hw => hw.target
  apply getHas_given_then fun _ hw => hw.source
  simp only [ne_eq, hlo, not_false_eq_true, if_true]
  refine Partial.bind ((read_content (kindOf b)).conseq (fun _ hw => ⟨hw, hw.content⟩)
    (fun _ _ hw => hw) fun _ hw => hw) fun other => Partial.and_pre fun hc => ?_
  subst hc
  have hX : Depends (fun _ => False) fun _ : World C => True := ⟨fun _ _ _ _ _ => trivial⟩
  refine Partial.bind ((destroyAt_keeps _ hX (by simp)).conseq (fun _ _ => trivial)
    (fun _ _ hw => hw) fun _ hw => hw) fun _ => ?_
  refine Partial.bind ((construct_keeps _ other.content none hX (by simp)).conseq (fun _ hw => hw)
    (fun _ _ hw => hw.2) fun _ hw => hw) fun _ => ?_
  exact Partial.modify fun _ hw => hw

theorem copyAssign_copies (hlo : l ≠ o) :
    Partial (Given S l o a b x c) (copyAssign env l o)
      (fun _ w => w.contentAt (.alt l) = some c) (Former (a ≠ b ∧ S) l x) := by
  unfold copyAssign
  split_ifs
  · exact assignBitwise_copies hlo
  · exact assignFrom_copies hlo

theorem moveAssign_copies (hlo : l ≠ o) :
    Partial (Given S l o a b x c) (moveAssign env l o)
      (fun _ w => w.contentAt (.alt l) = some c) (Former (a ≠ b ∧ S) l x) := by
  unfold moveAssign
  split_ifs
  · exact assignBitwise_copies hlo
  · exact assignFrom_copies hlo

end Assignment

section Temporaries

variable {l : Loc} {a b : Bool} {c : C} {x : Option C} {S : Prop}

theorem destructor_keeps {l : Loc}
    (hX : ∀ w w' : World C, (∀ p, A p → w'.contentAt p = w.contentAt p) → X w → X w')
    (hl : ¬ A (.alt l)) : Partial X (destructor l) (fun _ => X) R := by
  have hdep : Depends A X := ⟨fun w w' hp _ hw => hX w w' hp hw⟩
  refine Partial.bind (Q := fun _ => X) ?_ fun _ => ?_
  · refine Partial.bind (Partial.require fun w _ hw _ => hw) fun b => ?_
    cases b
    · exact destroyAt_keeps _ hdep hl
    · exact destroyAt_keeps _ hdep hl
  · exact Partial.modify fun w hw => hX w _ (fun _ _ => rfl) hw

def Source.content (w : World C) : Source C → Option C
  | .own c => some c
  | .object ref _ => w.contentAt ref.place

/-- The argument is not moved from the alternative of `l`. -/
def Source.Spares (l : Loc) : Source C → Prop
  | .own _ => True
  | .object ref moved => moved = true → ref.place ≠ .alt l

/-- Before an assignment to `l` that builds a temporary. -/
structure Target (S : Prop) (l : Loc) (a : Bool) (x : Option C) (w : World C) : Prop where
  has : w.has l = some a
  former : Former S l x w

theorem depends_target : Depends (· = .alt l) (Target S l a x : World C → Prop) :=
  ⟨fun w w' hp hh hw => ⟨(congrFun hh l).trans hw.has, depends_former.congr w w' hp hh hw.former⟩⟩

theorem Source.read_keeps {v : Source C} (hS : S → v.Spares l) :
    Partial (fun w => Target S l a x w ∧ v.content w = some c) (v.read env)
      (fun c' w => c' = c ∧ Target S l a x w) R := by
  cases v with
  | own d => exact Partial.pure d fun w hw => ⟨Option.some.inj hw.2, hw.1⟩
  | object ref moved =>
    refine Partial.bind (Q := fun o w => o.content = c ∧ Target S l a x w)
      (Partial.require fun w o hw ho => ⟨?_, hw.1⟩) fun o => ?_
    · have hmem : w.mem ref.place = some o := (Option.filter_eq_some_iff.mp ho).1
      have hcontent := hw.2
      rw [Source.content, World.contentAt, hmem] at hcontent
      exact Option.some.inj hcontent
    · refine Partial.bind (Q := fun _ w => o.content = c ∧ Target S l a x w)
        (Partial.onlyIf (fun hmoved => Partial.modify fun w hw => ⟨hw.1, hw.2.has, fun hs => ?_⟩)
          fun _ _ hw => hw) fun _ => Partial.pure _ fun w hw => hw
      rw [contentAt_setContent_of_ne (Ne.symm (hS hs hmoved))]
      exact hw.2.former hs

/-- An alternative built at `p` from one argument. -/
theorem constructFrom_copies {p : Place} {v : Source C} (k : Kind) (hp : p ≠ .alt l)
    (hS : S → v.Spares l) :
    Partial (fun w => Target S l a x w ∧ v.content w = some c) (constructFrom env p k [v])
      (fun _ w => Target S l a x w ∧ w.contentAt p = some (env.make [c])) (Target S l a x) := by
  refine Partial.bind (Q := fun cs w => cs = [c] ∧ Target S l a x w) ?_ fun cs => ?_
  · refine Partial.bind (Source.read_keeps hS) fun c' =>
      Partial.bind (Q := fun cs w => cs = [] ∧ c' = c ∧ Target S l a x w)
        (Partial.pure _ fun _ hw => ⟨rfl, hw⟩) fun cs => Partial.pure _ fun w hw => ⟨?_, hw.2.2⟩
    rw [hw.1, hw.2.1]
  · refine Partial.and_pre fun hcs => ?_
    subst hcs
    refine Partial.bind (mayThrow_keeps depends_target) fun _ => ?_
    exact construct_keeps k _ none depends_target hp

theorem has_setHas (w : World C) (l : Loc) (b : Option Bool) : (w.setHas l b).has l = b :=
  update_self ..

theorem has_setHas_of_ne {w : World C} {l l' : Loc} (h : l ≠ l') (b : Option Bool) :
    (w.setHas l' b).has l = w.has l := update_of_ne h ..

/-- A temporary built from one argument, ready to be assigned. -/
theorem temporary_copies {v : Source C} (k : Kind) (b : Bool) (hl : l ≠ .temp)
    (hS : S → v.Spares l) :
    Partial (fun w => Target S l a x w ∧ v.content w = some c)
      (constructing .temp do
        constructFrom env (.alt .temp) k [v]
        setHas .temp b)
      (fun _ => Given S l .temp a b x (env.make [c])) (Target S l a x) := by
  have hp : Place.alt .temp ≠ .alt l := fun heq => hl (Place.alt.inj heq).symm
  refine Partial.onThrow (R := Target S l a x) ?_ fun w hw => ?_
  · refine Partial.bind (constructFrom_copies k hp hS) fun _ => Partial.modify fun w hw => ?_
    exact ⟨(has_setHas_of_ne hl _).trans hw.1.has, has_setHas w _ _, hw.1.former, hw.2⟩
  · exact ⟨(has_setHas_of_ne hl _).trans hw.has, hw.former⟩

/-- The temporary assigned and destroyed. -/
theorem assignTemp_copies (hl : l ≠ .temp) :
    Partial (Given S l .temp a b x c) (cleanup (moveAssign env l .temp) (destructor .temp))
      (fun _ w => w.contentAt (.alt l) = some c) (Former (a ≠ b ∧ S) l x) := by
  have hp : Place.alt .temp ≠ .alt l := fun heq => hl (Place.alt.inj heq).symm
  refine Partial.cleanup (moveAssign_copies hl) (fun _ => ?_) ?_
  · exact destructor_keeps (A := (· = .alt l)) (fun _ _ hq hw => (hq _ rfl).trans hw) hp
  · exact destructor_keeps (A := (· = .alt l)) (fun _ _ hq hw hS => (hq _ rfl).trans (hw hS)) hp

theorem assignValue_copies {v : Source C} (hl : l ≠ .temp) (hS : S → v.Spares l) :
    Partial (fun w => Target S l a x w ∧ v.content w = some c) (assignValue env l v)
      (fun _ w => w.contentAt (.alt l) = some (env.make [c])) (Former (a ≠ true ∧ S) l x) := by
  refine Partial.bind ((temporary_copies .value true hl hS).conseq (fun _ hw => hw)
    (fun _ _ hw => hw) fun w hw hne => hw.former hne.2) fun _ => ?_
  exact assignTemp_copies hl

/-- What the error of an assigned failure is made from. -/
def failureContent (content : C) (view : Option Ref) (w : World C) : Option C :=
  match view with
  | none => some content
  | some ref => w.contentAt ref.place

theorem assignFailure_copies {content : C} {view : Option Ref} (hl : l ≠ .temp)
    (hview : ∀ ref ∈ view, ref.place ≠ .param) :
    Partial (fun w => Target S l a x w ∧ failureContent content view w = some c)
      (assignFailure env l content view)
      (fun _ w => w.contentAt (.alt l) = some (env.make [c])) (Former (a ≠ false ∧ S) l x) := by
  -- what is read of the places outside the parameter
  let outside : Place → Prop := fun p => p = .alt l ∨ ∃ ref ∈ view, p = ref.place
  have hdep : Depends outside fun w : World C =>
      Target S l a x w ∧ failureContent content view w = some c := by
    refine ⟨fun w w' hp hh hw => ⟨depends_target.congr w w' (fun p hpl => hp p (.inl hpl)) hh hw.1,
      ?_⟩⟩
    cases view with
    | none => exact hw.2
    | some ref => exact (hp ref.place (.inr ⟨ref, rfl, rfl⟩)).trans hw.2
  have hparam : ¬ outside .param := by
    intro h
    rcases h with h | ⟨ref, href, h⟩
    · cases h
    · exact hview ref href h.symm
  refine Partial.bind ((mayThrow_keeps hdep).conseq (fun _ hw => hw) (fun _ _ hw => hw)
    fun w hw hne => hw.1.former hne.2) fun _ => ?_
  refine Partial.bind (Q := fun _ w => ∃ n, (Target S l a x w ∧
    failureContent content view w = some c) ∧
      w.mem .param = some ⟨⟨.failure, n, view⟩, content⟩) ?_ fun _ => ?_
  · refine Partial.bind (Partial.require fun w _ hw _ => hw) fun _ => Partial.modify fun w hw => ?_
    refine ⟨w.constructed, hdep.congr w _ (fun q hq => contentAt_begin_of_ne ?_) rfl hw, ?_⟩
    · exact fun heq => hparam (heq ▸ hq)
    · simp [World.begin]
  refine Partial.cleanup (Q := fun _ w => w.contentAt (.alt l) = some (env.make [c]))
    (R := Former (a ≠ false ∧ S) l x) ?_
    (fun _ => destroyAt_keeps _ (depends_contentAt _ _) (by simp))
    (destroyAt_keeps _ depends_former (by simp))
  refine Partial.bind (Q := fun f w => (errorOf f).Spares l ∧ Target S l a x w ∧
    (errorOf f).content w = some c) (Partial.require fun w f hw hf => ?_) fun f =>
      Partial.and_pre fun hspares => ?_
  · obtain ⟨n, ⟨htarget, hcontent⟩, hmem⟩ := hw
    have hfound : w.mem .param = some f := (Option.filter_eq_some_iff.mp hf).1
    have hobject : f = ⟨⟨.failure, n, view⟩, content⟩ := Option.some.inj (hfound.symm.trans hmem)
    subst hobject
    cases view with
    | none =>
      refine ⟨fun _ => by simp, htarget, ?_⟩
      rw [errorOf, Source.content, World.contentAt, hmem]
      exact hcontent
    | some ref => exact ⟨fun h => (by cases h), htarget, hcontent⟩
  refine Partial.bind ((temporary_copies .error false hl fun _ => hspares).conseq (fun _ hw => hw)
    (fun _ _ hw => hw) fun w hw hne => hw.former hne.2) fun _ => ?_
  exact assignTemp_copies hl

end Temporaries

namespace Op

def target : Op C → Option ℕ
  | .copyAssign r _ | .moveAssign r _ | .assignValue r _ | .assignFailure r _ _ => some r
  | _ => none

def incoming (w : World C) : Op C → Option Bool
  | .copyAssign _ o | .moveAssign _ o => w.has (.named o)
  | .assignValue _ _ => some true
  | .assignFailure _ _ _ => some false
  | _ => none

def given (env : Env C) (w : World C) : Op C → Option C
  | .copyAssign _ o | .moveAssign _ o => w.contentAt (.alt (.named o))
  | .assignValue _ v => ((w.source v).content w).map fun c => env.make [c]
  | .assignFailure _ content view =>
    (failureContent content (view.map w.altRef) w).map fun c => env.make [c]
  | _ => none

/-- The value assigned to `r` is an rvalue of its own alternative. -/
def TakesOwn (r : ℕ) : Op C → Prop
  | .assignValue _ (.into o moved) => o = r ∧ moved = true
  | _ => False

end Op

/-- What an assignment to `r` leaves: where it throws, the result in its former state with the
object it owned, and from the other state its former content; else the given alternative. -/
def Strong (env : Env C) (w : World C) (op : Op C) (r : ℕ) : Prop :=
  match op.comp env w w with
  | (.ok _, w') => w.has (.named r) ≠ op.incoming w →
      w'.has (.named r) = op.incoming w ∧ w'.contentAt (.alt (.named r)) = op.given env w ∧
        ∃ b o, w'.has (.named r) = some b ∧ w'.mem (.alt (.named r)) = some o ∧ o.kind = kindOf b
  | (.thrown, w') => w'.has (.named r) = w.has (.named r) ∧
      (∀ p, (w'.mem p).map (·.toTag) = (w.mem p).map (·.toTag)) ∧
      (∃ b o, w'.has (.named r) = some b ∧ w'.mem (.alt (.named r)) = some o ∧ o.kind = kindOf b) ∧
      (w.has (.named r) ≠ op.incoming w → ¬ op.TakesOwn r →
        w'.contentAt (.alt (.named r)) = w.contentAt (.alt (.named r)))
  | (.fault, _) => False

section Runs

variable {f : Place → Option Tag} {h : Loc → Option Bool} {w : World C} {r : ℕ} {a b : Bool}
  {op : Op C}

theorem Holds.owns {l : Loc} (hl : Holds f h l b) (hat : At f h w) :
    ∃ b o, w.has l = some b ∧ w.mem (.alt l) = some o ∧ o.kind = kindOf b := by
  obtain ⟨hb, n, hn⟩ := hl
  obtain ⟨o, ho, hot⟩ := hat.exists_obj hn
  exact ⟨b, o, by rw [hat.has, hb], ho, congrArg Tag.kind hot⟩

theorem strong_of {c : C} {P : World C → Prop} (hat : At f h w) (hr : Holds f h (.named r) a)
    (hb : op.incoming w = some b)
    (hspec : Triple (At f h) (op.comp env w) (fun _ => Assigned f h (.named r) b) (At f h))
    (hcopies : a ≠ b → Partial P (op.comp env w)
      (fun _ w' => w'.contentAt (.alt (.named r)) = some c)
      (Former (a ≠ b ∧ ¬ op.TakesOwn r) (.named r) (w.contentAt (.alt (.named r)))))
    (hP : P w) (hgiven : a ≠ b → op.given env w = some c) : Strong env w op r := by
  have hlife := hspec w hat
  have hcontent := fun hab => hcopies hab w hP
  have ha : w.has (.named r) = some a := by rw [hat.has, hr.1]
  unfold Strong
  match hrun : op.comp env w w with
  | (.ok _, w') =>
    simp only [hrun] at hlife hcontent
    intro hne
    rw [ha, hb] at hne
    have hab : a ≠ b := fun heq => hne (congrArg some heq)
    obtain ⟨n, hat'⟩ := hlife
    have hholds : Holds (update f (.alt (.named r)) (some ⟨kindOf b, n, none⟩))
        (update h (.named r) (some b)) (.named r) b := ⟨update_self .., n, update_self ..⟩
    refine ⟨?_, ?_, hholds.owns hat'⟩
    · rw [hb, hat'.has, update_self]
    · rw [hgiven hab]
      exact hcontent hab
  | (.thrown, w') =>
    simp only [hrun] at hlife hcontent
    refine ⟨?_, fun p => ?_, hr.owns hlife, fun hne hown => ?_⟩
    · rw [hlife.has, hat.has]
    · rw [hlife.tag, hat.tag]
    · rw [ha, hb] at hne
      have hab : a ≠ b := fun heq => hne (congrArg some heq)
      exact hcontent hab ⟨hab, hown⟩
  | (.fault, _) =>
    rw [hrun] at hlife
    exact hlife

theorem Holds.content {l : Loc} (hl : Holds f h l b) (hat : At f h w) :
    ∃ c, w.contentAt (.alt l) = some c := by
  obtain ⟨_, o, _, ho, _⟩ := hl.owns hat
  exact ⟨o.content, by rw [World.contentAt, ho]; rfl⟩

theorem altRef_content (hat : At f h w) (hf : Owned f h) (hr : w.isLive r = true) :
    ∃ c, w.contentAt (w.altRef r).place = some c := by
  obtain ⟨b, hb⟩ := hat.isLive_iff.mp hr
  exact (hf.holds _ b hb).content hat

theorem source_content (hat : At f h w) (hf : Owned f h) {v : Arg C}
    (hv : w.refersToLive v = true) : ∃ c, (w.source v).content w = some c := by
  cases v with
  | own c => exact ⟨c, rfl⟩
  | into o moved => exact altRef_content hat hf hv

theorem source_spares {v : Arg C} (h : ¬ (Op.assignValue r v).TakesOwn r) :
    (w.source v).Spares (.named r) := by
  cases v with
  | own c => trivial
  | into o moved =>
    intro hmoved hplace
    have hro : o = r := Loc.named.inj (Place.alt.inj hplace)
    exact h ⟨hro, hmoved⟩

/-- An assignment from another result, however it copies. -/
theorem strong_of_result {o : ℕ} (hat : At f h w) (hf : Owned f h) (hra : h (.named r) = some a)
    (hob : h (.named o) = some b) (hin : op.incoming w = w.has (.named o))
    (hgiven : op.given env w = w.contentAt (.alt (.named o)))
    (hspec : Triple (At f h) (op.comp env w) (fun _ => Assigned f h (.named r) b) (At f h))
    (hcopies : ∀ c, Loc.named r ≠ .named o →
      Partial (Given True (.named r) (.named o) a b (w.contentAt (.alt (.named r))) c)
        (op.comp env w) (fun _ w' => w'.contentAt (.alt (.named r)) = some c)
        (Former (a ≠ b ∧ True) (.named r) (w.contentAt (.alt (.named r))))) :
    Strong env w op r := by
  obtain ⟨c, hc⟩ := (hf.holds _ b hob).content hat
  have hgiving : Given True (.named r) (.named o) a b (w.contentAt (.alt (.named r))) c w :=
    ⟨by rw [hat.has, hra], by rw [hat.has, hob], fun _ => rfl, hc⟩
  refine strong_of hat (hf.holds _ a hra) (by rw [hin, hat.has, hob]) hspec (fun hab => ?_) hgiving
    fun _ => hgiven.trans hc
  have hother : Loc.named r ≠ .named o := by
    intro heq
    rw [heq, hob] at hra
    exact hab (Option.some.inj hra).symm
  exact (hcopies c hother).conseq (fun _ hw => hw) (fun _ _ hw => hw)
    fun _ hw hS => hw ⟨hS.1, trivial⟩

/-- Between operations, every assignment the program can name is strong. -/
theorem strong_kept (hw : Kept w) (hr : op.target = some r) (ha : w.admits op = true) :
    Strong env w op r := by
  obtain ⟨f, h, hat, hf⟩ := hw
  have hne : ∀ q, Loc.named q ≠ .temp := fun _ => by simp
  cases op with
  | value | inPlace | failure | copy | move | destroy => cases hr
  | copyAssign r' o =>
    cases hr
    simp only [World.admits, Bool.and_eq_true, hat.isLive_iff] at ha
    obtain ⟨⟨a, hra⟩, b, hob⟩ := ha
    exact strong_of_result hat hf hra hob rfl rfl
      (copyAssign_spec (hf.holds _ a hra) (hf.holds _ b hob) hf.incoming) fun _ => copyAssign_copies
  | moveAssign r' o =>
    cases hr
    simp only [World.admits, Bool.and_eq_true, hat.isLive_iff] at ha
    obtain ⟨⟨a, hra⟩, b, hob⟩ := ha
    exact strong_of_result hat hf hra hob rfl rfl
      (moveAssign_spec (hf.holds _ a hra) (hf.holds _ b hob) hf.incoming) fun _ => moveAssign_copies
  | assignValue r' v =>
    cases hr
    simp only [World.admits, Bool.and_eq_true, hat.isLive_iff] at ha
    obtain ⟨⟨a, hra⟩, hv⟩ := ha
    have hl := hf.holds _ a hra
    obtain ⟨c, hc⟩ := source_content hat hf hv
    refine strong_of hat hl rfl (assignValue_spec hl (hne r) hf.vacant_temp hf.incoming
      (hat.source_valid hf hv)) (fun _ => assignValue_copies (hne r) source_spares)
      ⟨⟨by rw [hat.has, hra], fun _ => rfl⟩, hc⟩ fun _ => ?_
    rw [Op.given, hc]
    rfl
  | assignFailure r' content view =>
    cases hr
    simp only [World.admits, Bool.and_eq_true, hat.isLive_iff] at ha
    obtain ⟨⟨a, hra⟩, hv⟩ := ha
    have hl := hf.holds _ a hra
    have hvalid : ∀ ref ∈ view.map w.altRef, ∃ t, f ref.place = some t ∧ t.serial = ref.serial := by
      intro ref href
      obtain ⟨o, ho, rfl⟩ := Option.map_eq_some_iff.mp href
      exact hat.altRef_valid hf (by simpa [Option.mem_def.mp ho] using hv)
    have hplace : ∀ ref ∈ view.map w.altRef, ref.place ≠ .param := by
      intro ref href
      obtain ⟨o, _, rfl⟩ := Option.map_eq_some_iff.mp href
      simp [World.altRef]
    obtain ⟨c, hc⟩ : ∃ c, failureContent content (view.map w.altRef) w = some c := by
      cases view with
      | none => exact ⟨content, rfl⟩
      | some o => exact altRef_content hat hf (by simpa using hv)
    refine strong_of hat hl rfl (assignFailure_spec content hl (hne r) hf.vacant_temp hf.incoming
      hf.param hvalid) (fun _ => assignFailure_copies (hne r) hplace)
      ⟨⟨by rw [hat.has, hra], fun _ => rfl⟩, hc⟩ fun _ => ?_
    rw [Op.given, hc]
    rfl

/-- After any run, whatever throws, assignments are strong. -/
theorem assignments_strong (env : Env C) (ops : List (Op C)) :
    ∃ w, Transition.run (step env) (some World.initial) ops = some w ∧
      ∀ op r, op.target = some r → w.admits op = true → Strong env w op r := by
  obtain ⟨w, hrun, hw⟩ := @run_kept C env ops
  exact ⟨w, hrun, fun op r hr ha => strong_kept hw hr ha⟩

/-- A value made from `std::move(a).error()`, by a constructor that moves and then throws. -/
theorem taken_before_throw :
    let env : Env ℕ := ⟨fun n => n = 1, id, fun _ => 0, fun cs => cs.headD 0, false, false, false, false⟩
    let s := Transition.run (step env) (some World.initial) [.failure 0 (.own 5)]
    let after := s.map fun w => (Op.assignValue 0 (.into 0 true)).comp env w w
    (s.map fun w => w.contentAt (.alt (.named 0))) = some (some 5) ∧
      (after.map fun out => (out.1, out.2.contentAt (.alt (.named 0)))) = some (.thrown, some 0) :=
  ⟨rfl, rfl⟩

end Runs

end Jmpxx.Transport
