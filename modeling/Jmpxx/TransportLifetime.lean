import Jmpxx.Transition
import Jmpxx.Transport
import Mathlib.Data.List.Nodup
import Mathlib.Order.Basic
import Mathlib.Order.Nat

namespace Jmpxx.Transport

open Throwing Function

variable {C : Type}

/-- Every object ever constructed is either in its place or was destroyed, once. -/
structure Sound (w : World C) : Prop where
  live : ∀ p o, w.mem p = some o → o.serial < w.constructed ∧ o.serial ∉ w.destroyed
  distinct : ∀ p q o o', w.mem p = some o → w.mem q = some o' → o.serial = o'.serial → p = q
  accounted : ∀ n < w.constructed, n ∈ w.destroyed ∨ ∃ p o, w.mem p = some o ∧ o.serial = n
  once : w.destroyed.Nodup
  issued : ∀ n ∈ w.destroyed, n < w.constructed

/-- What lives where, and which alternative each result names. -/
structure At (f : Place → Option Tag) (h : Loc → Option Bool) (w : World C) : Prop where
  sound : Sound w
  tag : ∀ p, (w.mem p).map (·.toTag) = f p
  has : w.has = h

variable {f : Place → Option Tag} {h : Loc → Option Bool} {w : World C}

theorem At.exists_obj (hw : At f h w) {p : Place} {t : Tag} (hp : f p = some t) :
    ∃ o, w.mem p = some o ∧ o.toTag = t := by
  have := hw.tag p
  rw [hp] at this
  exact Option.map_eq_some_iff.mp this

theorem At.mem_eq_none (hw : At f h w) {p : Place} (hp : f p = none) : w.mem p = none := by
  have := hw.tag p
  rw [hp] at this
  exact Option.map_eq_none_iff.mp this

theorem Sound.begin (hw : Sound w) {p : Place} (hp : w.mem p = none) (k : Kind) (c : C)
    (view : Option Ref) : Sound (w.begin p k c view) := by
  -- an object of the new world is the new one, or one of the old world elsewhere
  have hnew : ∀ q o, (w.begin p k c view).mem q = some o →
      q = p ∧ o.serial = w.constructed ∨ q ≠ p ∧ w.mem q = some o := by
    intro q o ho
    simp only [World.begin, update_apply] at ho
    split_ifs at ho with hq
    · rw [← Option.some.inj ho]
      exact .inl ⟨hq, rfl⟩
    · exact .inr ⟨hq, ho⟩
  constructor
  · intro q o ho
    rcases hnew q o ho with ⟨-, hs⟩ | ⟨-, hm⟩
    · rw [hs]
      exact ⟨Nat.lt_succ_self _, fun hd => (hw.issued _ hd).ne rfl⟩
    · exact ⟨(hw.live q o hm).1.trans (Nat.lt_succ_self _), (hw.live q o hm).2⟩
  · intro q q' o o' ho ho' he
    rcases hnew q o ho with ⟨hq, hs⟩ | ⟨hq, hm⟩
    · rcases hnew q' o' ho' with ⟨hq', hs'⟩ | ⟨hq', hm'⟩
      · rw [hq, hq']
      · exact absurd (hs.symm.trans he) (hw.live q' o' hm').1.ne'
    · rcases hnew q' o' ho' with ⟨hq', hs'⟩ | ⟨hq', hm'⟩
      · exact absurd (he.trans hs') (hw.live q o hm).1.ne
      · exact hw.distinct q q' o o' hm hm' he
  · intro n hn
    rcases Nat.lt_succ_iff_lt_or_eq.mp hn with hn | rfl
    · rcases hw.accounted n hn with hd | ⟨q, o, ho, hs⟩
      · exact .inl hd
      · have hq : q ≠ p := fun he => by simp [he, hp] at ho
        exact .inr ⟨q, o, by simpa [World.begin, hq] using ho, hs⟩
    · exact .inr ⟨p, ⟨⟨k, w.constructed, view⟩, c⟩, by simp [World.begin], rfl⟩
  · exact hw.once
  · exact fun n hn => (hw.issued n hn).trans (Nat.lt_succ_self _)

theorem Sound.finish (hw : Sound w) {p : Place} {o : Obj C} (hp : w.mem p = some o) :
    Sound (w.finish p o) := by
  have hold : ∀ q o', (w.finish p o).mem q = some o' → q ≠ p ∧ w.mem q = some o' := by
    intro q o' ho
    simp only [World.finish, update_apply] at ho
    split_ifs at ho with hq
    exact ⟨hq, ho⟩
  constructor
  · intro q o' ho
    obtain ⟨hq, hm⟩ := hold q o' ho
    refine ⟨(hw.live q o' hm).1, ?_⟩
    have hne : o'.serial ≠ o.serial := fun he => hq (hw.distinct q p o' o hm hp he)
    simp [World.finish, hne, (hw.live q o' hm).2]
  · intro q q' o₁ o₂ h₁ h₂ he
    exact hw.distinct q q' o₁ o₂ (hold q o₁ h₁).2 (hold q' o₂ h₂).2 he
  · intro n hn
    by_cases hno : n = o.serial
    · exact .inl (by simp [World.finish, hno])
    -- any other object was accounted for, and is still where it was
    · rcases hw.accounted n hn with hd | ⟨q, o', ho, hs⟩
      · exact .inl (List.mem_cons_of_mem _ hd)
      · have hq : q ≠ p := by
          rintro rfl
          rw [hp] at ho
          exact hno (by rw [← hs, ← Option.some.inj ho])
        exact .inr ⟨q, o', by simpa [World.finish, hq] using ho, hs⟩
  · exact List.nodup_cons.mpr ⟨(hw.live p o hp).2, hw.once⟩
  · intro n hn
    rcases List.mem_cons.mp hn with rfl | hn
    · exact (hw.live p o hp).1
    · exact hw.issued n hn

/-- The content of an object does not bear on its lifetime. -/
theorem At.setContent (hw : At f h w) (p : Place) (c : C) : At f h (w.setContent p c) := by
  have htag : ∀ q, ((w.setContent p c).mem q).map (·.toTag) = (w.mem q).map (·.toTag) := by
    intro q
    simp only [World.setContent, update_apply]
    split_ifs with hq
    · subst hq
      cases w.mem q <;> rfl
    · rfl
  have hold : ∀ q o, (w.setContent p c).mem q = some o →
      ∃ o', w.mem q = some o' ∧ o'.serial = o.serial := by
    intro q o ho
    have := htag q
    rw [ho, Option.map_some] at this
    obtain ⟨o', ho', he⟩ := Option.map_eq_some_iff.mp this.symm
    exact ⟨o', ho', congrArg Tag.serial he⟩
  refine ⟨⟨?_, ?_, ?_, hw.sound.once, hw.sound.issued⟩, fun q => (htag q).trans (hw.tag q), hw.has⟩
  · intro q o ho
    obtain ⟨o', ho', he⟩ := hold q o ho
    exact he ▸ hw.sound.live q o' ho'
  · intro q q' o₁ o₂ h₁ h₂ he
    obtain ⟨o₁', h₁', he₁⟩ := hold q o₁ h₁
    obtain ⟨o₂', h₂', he₂⟩ := hold q' o₂ h₂
    exact hw.sound.distinct q q' o₁' o₂' h₁' h₂' (he₁.trans (he.trans he₂.symm))
  · intro n hn
    rcases hw.sound.accounted n hn with hd | ⟨q, o, ho, hs⟩
    · exact .inl hd
    · have := htag q
      rw [ho, Option.map_some] at this
      obtain ⟨o', ho', he⟩ := Option.map_eq_some_iff.mp this
      exact .inr ⟨q, o', ho', (congrArg Tag.serial he).trans hs⟩

theorem At.setHas (hw : At f h w) (l : Loc) (b : Option Bool) :
    At f (update h l b) (w.setHas l b) := by
  refine ⟨⟨hw.sound.live, hw.sound.distinct, hw.sound.accounted, hw.sound.once,
    hw.sound.issued⟩, hw.tag, ?_⟩
  rw [World.setHas, hw.has]

theorem At.begin (hw : At f h w) {p : Place} (hp : f p = none) (k : Kind) (c : C)
    (view : Option Ref) :
    At (update f p (some ⟨k, w.constructed, view⟩)) h (w.begin p k c view) := by
  refine ⟨hw.sound.begin (hw.mem_eq_none hp) k c view, fun q => ?_, hw.has⟩
  simp only [World.begin, update_apply]
  split_ifs
  · rfl
  · exact hw.tag q

theorem At.finish (hw : At f h w) {p : Place} {o : Obj C} (ho : w.mem p = some o) :
    At (update f p none) h (w.finish p o) := by
  refine ⟨hw.sound.finish ho, fun q => ?_, hw.has⟩
  simp only [World.finish, update_apply]
  split_ifs
  · rfl
  · exact hw.tag q

variable {env : Env C} {R : World C → Prop}

theorem read_spec {p : Place} {t : Tag} (hp : f p = some t) :
    Triple (At f h) (read p t.kind) (fun o w => o.toTag = t ∧ At f h w) R := by
  intro w hw
  obtain ⟨o, ho, hot⟩ := hw.exists_obj hp
  have hfind : w.find p t.kind = some o := by simp [World.find, ho, ← hot]
  simp only [read, require, hfind]
  exact ⟨hot, hw⟩

theorem destroyAt_spec {p : Place} {t : Tag} (hp : f p = some t) :
    Triple (At f h) (destroyAt p t.kind) (fun _ => At (update f p none) h) R := by
  intro w hw
  obtain ⟨o, ho, hot⟩ := hw.exists_obj hp
  have hfind : w.find p t.kind = some o := by simp [World.find, ho, ← hot]
  have hrun : destroyAt p t.kind w = (.ok (), w.finish p o) := by
    show Comp.bind _ _ w = _
    simp only [Comp.bind, require, hfind]
    rfl
  rw [hrun]
  exact hw.finish ho

theorem construct_spec {p : Place} (hp : f p = none) (k : Kind) (c : C) (view : Option Ref) :
    Triple (At f h) (construct p k c view)
      (fun _ w => ∃ n, At (update f p (some ⟨k, n, view⟩)) h w) R := by
  intro w hw
  have hrun : construct p k c view w = (.ok (), w.begin p k c view) := by
    show Comp.bind _ _ w = _
    simp only [Comp.bind, require, hw.mem_eq_none hp, Option.isNone_none, if_true]
    rfl
  rw [hrun]
  exact ⟨w.constructed, hw.begin hp k c view⟩

theorem mayThrow_spec : Triple (At f h) (mayThrow env) (fun _ => At f h) (At f h) := by
  intro w hw
  have htick : At f h { w with tick := w.tick + 1 } :=
    ⟨⟨hw.sound.live, hw.sound.distinct, hw.sound.accounted, hw.sound.once, hw.sound.issued⟩,
      hw.tag, hw.has⟩
  simp only [mayThrow]
  split_ifs <;> exact htick

theorem setContent_spec (p : Place) (c : C) :
    Triple (At f h) (modify fun w => w.setContent p c) (fun _ => At f h) R :=
  Triple.modify fun _ hw => hw.setContent p c

theorem getHas_spec {l : Loc} {b : Bool} (hl : h l = some b) :
    Triple (At f h) (getHas l) (fun a w => a = b ∧ At f h w) R :=
  Triple.require fun w hw => by rw [hw.has, hl]

/-- What follows a read of a known `has_` is judged at what it says. -/
theorem getHas_then {α : Type} {l : Loc} {b : Bool} {k : Bool → Comp (World C) α}
    {Q : α → World C → Prop} (hl : h l = some b) (hk : Triple (At f h) (k b) Q R) :
    Triple (At f h) (getHas l >>= k) Q R := by
  apply Triple.bind (getHas_spec hl)
  intro a
  refine Triple.and_pre fun ha => ?_
  rw [ha]
  exact hk

theorem setHas_spec (l : Loc) (b : Bool) :
    Triple (At f h) (setHas l b) (fun _ => At f (update h l (some b))) R :=
  Triple.modify fun _ hw => hw.setHas l (some b)

def Source.Valid (f : Place → Option Tag) : Source C → Prop
  | .own _ => True
  | .object ref _ => ∃ t, f ref.place = some t ∧ t.serial = ref.serial

theorem Source.read_spec {a : Source C} (ha : a.Valid f) :
    Triple (At f h) (a.read env) (fun _ => At f h) R := by
  cases a with
  | own c => exact Triple.pure c fun _ hw => hw
  | object ref moved =>
    obtain ⟨t, ht, hs⟩ := ha
    have hfollow : Triple (At f h) (require fun w => w.follow ref) (fun _ => At f h) R := by
      intro w hw
      obtain ⟨o, ho, hot⟩ := hw.exists_obj ht
      have : w.follow ref = some o := by simp [World.follow, ho, ← hs, ← hot]
      simpa [require, this] using hw
    apply Triple.bind hfollow
    intro o
    apply Triple.bind (Triple.onlyIf (fun _ => setContent_spec ref.place _) fun _ _ hw => hw)
    intro _
    exact Triple.pure _ fun _ hw => hw

theorem readAll_spec {args : List (Source C)} (ha : ∀ a ∈ args, a.Valid f) :
    Triple (At f h) (readAll env args) (fun _ => At f h) R := by
  induction args with
  | nil => exact Triple.pure _ fun _ hw => hw
  | cons a args ih =>
    apply Triple.bind (Source.read_spec (ha a List.mem_cons_self))
    intro c
    apply Triple.bind (ih fun a' ha' => ha a' (List.mem_cons_of_mem _ ha'))
    intro cs
    exact Triple.pure _ fun _ hw => hw

theorem constructFrom_spec {p : Place} (hp : f p = none) (k : Kind) {args : List (Source C)}
    (ha : ∀ a ∈ args, a.Valid f) :
    Triple (At f h) (constructFrom env p k args)
      (fun _ w => ∃ n, At (update f p (some ⟨k, n, none⟩)) h w) (At f h) := by
  apply Triple.bind (readAll_spec ha)
  intro cs
  apply Triple.bind mayThrow_spec
  intro _
  exact construct_spec hp k _ none

theorem constructAlt_spec {mode : Mode} {p q : Place} {t : Tag} (hp : f p = none)
    (hq : f q = some t) :
    Triple (At f h) (constructAlt env mode p t.kind q)
      (fun _ w => ∃ n, At (update f p (some ⟨t.kind, n, none⟩)) h w)
      (fun w => mode = .copy ∧ At f h w) := by
  apply Triple.bind (read_spec hq)
  intro o
  have hthrow : Triple (fun w => o.toTag = t ∧ At f h w)
      (onlyIf (mode = .copy) (mayThrow env)) (fun _ => At f h)
      (fun w => mode = .copy ∧ At f h w) := by
    refine Triple.onlyIf (fun hm => ?_) fun _ _ hw => hw.2
    exact mayThrow_spec.conseq (fun _ hw => hw.2) (fun _ _ hw => hw) fun _ hw => ⟨hm, hw⟩
  apply Triple.bind hthrow
  intro _
  apply Triple.bind (construct_spec hp t.kind o.content none)
  intro _
  refine Triple.onlyIf (fun _ => Triple.modify fun w hw => ?_) fun _ _ hw => hw
  obtain ⟨n, hn⟩ := hw
  exact ⟨n, hn.setContent q _⟩

theorem assignAlt_spec {mode : Mode} {p q : Place} {t t' : Tag} (hp : f p = some t)
    (hq : f q = some t') (hk : t.kind = t'.kind) :
    Triple (At f h) (assignAlt env mode p t.kind q) (fun _ => At f h) (At f h) := by
  have hreadq := @read_spec C f h (At f h) q t' hq
  rw [← hk] at hreadq
  apply Triple.bind hreadq
  intro o
  apply Triple.bind ((read_spec hp).conseq (fun _ hw => hw.2) (fun _ _ hw => hw.2) fun _ hw => hw)
  intro _
  apply Triple.bind (Triple.onThrow mayThrow_spec fun w hw => hw.setContent p _)
  intro _
  apply Triple.bind (setContent_spec p _)
  intro _
  exact Triple.onlyIf (fun _ => setContent_spec q _) fun _ _ hw => hw

/-- The result at `l` exists, says `b`, and the alternative it names is the one it owns. -/
def Holds (f : Place → Option Tag) (h : Loc → Option Bool) (l : Loc) (b : Bool) : Prop :=
  h l = some b ∧ ∃ n, f (.alt l) = some ⟨kindOf b, n, none⟩

theorem destructor_spec {l : Loc} {b : Bool} (hl : Holds f h l b) :
    Triple (At f h) (destructor l) (fun _ => At (update f (.alt l) none) (update h l none)) R := by
  obtain ⟨hb, n, hn⟩ := hl
  have hdestroy : Triple (At f h) (destroy l) (fun _ => At (update f (.alt l) none) h) R := by
    apply getHas_then hb
    cases b
    · exact destroyAt_spec hn
    · exact destroyAt_spec hn
  apply Triple.bind hdestroy
  intro _
  exact Triple.modify fun _ hw => hw.setHas l none

/-- Assignment from a result in the other state: the incoming alternative is built beside the
old one, and only its move into the union, which cannot throw, follows the destruction. -/
theorem crossState_spec {mode : Mode} {l o : Loc} {a b : Bool} (hl : Holds f h l a)
    (ho : Holds f h o b) (hi : f .incoming = none) :
    Triple (At f h)
      (do
        constructAlt env mode .incoming (kindOf b) (.alt o)
        cleanup
          (do
            destroyAt (.alt l) (kindOf a)
            constructAlt env .move (.alt l) (kindOf b) .incoming
            setHas l b)
          (destroyAt .incoming (kindOf b)))
      (fun _ w => ∃ n, At (update f (.alt l) (some ⟨kindOf b, n, none⟩)) (update h l (some b)) w)
      (At f h) := by
  obtain ⟨-, nl, hnl⟩ := hl
  obtain ⟨-, no, hno⟩ := ho
  apply Triple.bind ((constructAlt_spec hi hno).conseq (fun _ hw => hw) (fun _ _ hw => hw)
    fun _ hw => hw.2)
  intro _
  refine Triple.exists_pre fun m => ?_
  let f₁ := update f .incoming (some ⟨kindOf b, m, none⟩)
  have h₁l : f₁ (.alt l) = some ⟨kindOf a, nl, none⟩ := by simp [f₁, hnl]
  let f₂ := update f₁ (.alt l) none
  have h₂i : f₂ .incoming = some ⟨kindOf b, m, none⟩ := by simp [f₂, f₁]
  have h₂l : f₂ (.alt l) = none := by simp [f₂]
  -- when the local is gone only the union differs from before
  have hend : ∀ n, update (update f₂ (.alt l) (some ⟨kindOf b, n, none⟩)) .incoming none =
      update f (.alt l) (some ⟨kindOf b, n, none⟩) := by
    intro n
    funext p
    simp only [f₂, f₁, update_apply]
    split_ifs with hp <;> simp_all
  -- nothing throws between the destruction and the new `has_`
  have hbody : Triple (At f₁ h)
      (do
        destroyAt (.alt l) (kindOf a)
        constructAlt env .move (.alt l) (kindOf b) .incoming
        setHas l b)
      (fun _ w => ∃ n, At (update f₂ (.alt l) (some ⟨kindOf b, n, none⟩)) (update h l (some b)) w)
      (fun _ => False) := by
    apply Triple.bind (destroyAt_spec h₁l)
    intro _
    apply Triple.bind ((constructAlt_spec h₂l h₂i).conseq (fun _ hw => hw) (fun _ _ hw => hw)
      fun _ hw => by simp at hw)
    intro _
    refine Triple.exists_pre fun n => ?_
    exact (setHas_spec l b).conseq (fun _ hw => hw) (fun _ _ hw => ⟨n, hw⟩) fun _ hw => hw
  refine Triple.cleanup hbody (fun _ => Triple.exists_pre fun n => ?_) fun _ hw => hw.elim
  have hi' : update f₂ (.alt l) (some ⟨kindOf b, n, none⟩) .incoming =
      some ⟨kindOf b, m, none⟩ := by simp [h₂i]
  refine (destroyAt_spec hi').conseq (fun _ hw => hw) (fun _ w hw => ⟨n, ?_⟩) fun _ hw => hw
  rwa [hend] at hw

def Assigned (f : Place → Option Tag) (h : Loc → Option Bool) (l : Loc) (b : Bool)
    (w : World C) : Prop :=
  ∃ n, At (update f (.alt l) (some ⟨kindOf b, n, none⟩)) (update h l (some b)) w

theorem Holds.assigned {l : Loc} {b : Bool} (hl : Holds f h l b) {w : World C} (hw : At f h w) :
    Assigned f h l b w := by
  obtain ⟨hb, n, hn⟩ := hl
  refine ⟨n, ?_⟩
  rwa [← hn, update_eq_self, ← hb, update_eq_self]

theorem assignFrom_spec {mode : Mode} {l o : Loc} {a b : Bool} (hl : Holds f h l a)
    (ho : Holds f h o b) (hi : f .incoming = none) :
    Triple (At f h) (assignFrom env mode l o) (fun _ => Assigned f h l b) (At f h) := by
  apply getHas_then hl.1
  apply getHas_then ho.1
  have hsame : a = b → Triple (At f h) (assignAlt env mode (.alt l) (kindOf a) (.alt o))
      (fun _ => Assigned f h l b) (At f h) := by
    rintro rfl
    obtain ⟨n, hn⟩ := hl.2
    obtain ⟨m, hm⟩ := ho.2
    exact (assignAlt_spec hn hm rfl).conseq (fun _ hw => hw) (fun _ _ hw => hl.assigned hw)
      fun _ hw => hw
  have hcross := @crossState_spec C f h env mode l o a b hl ho hi
  cases a <;> cases b <;>
    simp only [Bool.and_self, Bool.and_true, Bool.and_false, Bool.not_true, Bool.not_false,
      Bool.false_eq_true, if_true, if_false]
  · exact hsame rfl
  · exact hcross
  · exact hcross
  · exact hsame rfl

theorem assignBitwise_spec {l o : Loc} {a b : Bool} (hl : Holds f h l a) (ho : Holds f h o b) :
    Triple (At f h) (assignBitwise l o) (fun _ => Assigned f h l b) R := by
  apply getHas_then hl.1
  apply getHas_then ho.1
  by_cases hlo : l = o
  · have hab : a = b := Option.some.inj (hl.1.symm.trans (hlo ▸ ho.1))
    simp only [hlo, ne_eq, not_true_eq_false, if_false]
    rw [← hlo]
    exact Triple.pure _ fun _ hw => Holds.assigned (hab ▸ hl) hw
  · obtain ⟨-, n, hn⟩ := hl
    obtain ⟨-, m, hm⟩ := ho
    simp only [ne_eq, hlo, not_false_eq_true, if_true]
    apply Triple.bind (read_spec hm)
    intro other
    refine Triple.and_pre fun _ => ?_
    apply Triple.bind (destroyAt_spec hn)
    intro _
    apply Triple.bind (construct_spec (update_self _ _ _) _ _ _)
    intro _
    refine Triple.exists_pre fun n' => ?_
    refine (setHas_spec l b).conseq (fun _ hw => hw) (fun _ _ hw => ⟨n', ?_⟩) fun _ hw => hw
    rwa [update_idem] at hw

theorem copyAssign_spec {l o : Loc} {a b : Bool} (hl : Holds f h l a) (ho : Holds f h o b)
    (hi : f .incoming = none) :
    Triple (At f h) (copyAssign env l o) (fun _ => Assigned f h l b) (At f h) := by
  unfold copyAssign
  split_ifs
  · exact assignBitwise_spec hl ho
  · exact assignFrom_spec hl ho hi

theorem moveAssign_spec {l o : Loc} {a b : Bool} (hl : Holds f h l a) (ho : Holds f h o b)
    (hi : f .incoming = none) :
    Triple (At f h) (moveAssign env l o) (fun _ => Assigned f h l b) (At f h) := by
  unfold moveAssign
  split_ifs
  · exact assignBitwise_spec hl ho
  · exact assignFrom_spec hl ho hi

def Vacant (f : Place → Option Tag) (h : Loc → Option Bool) (l : Loc) : Prop :=
  h l = none ∧ f (.alt l) = none

theorem Vacant.setHas {l : Loc} (hl : Vacant f h l) (b : Option Bool) {w : World C}
    (hw : At f (update h l b) w) : At f h (w.setHas l none) := by
  have := hw.setHas l none
  rwa [update_idem, ← hl.1, update_eq_self, hl.1] at this

theorem Vacant.forget {l : Loc} (hl : Vacant f h l) {w : World C} (hw : At f h w) :
    At f h (w.setHas l none) :=
  hl.setHas none (by rwa [← hl.1, update_eq_self])

theorem constructLike_spec {mode : Mode} {l o : Loc} {b : Bool} (hl : Vacant f h l)
    (ho : Holds f h o b) :
    Triple (At f h) (constructLike env mode l o) (fun _ => Assigned f h l b) (At f h) := by
  have hthrow : ∀ w : World C, At f h w ∨ At f (update h l (some b)) w →
      At f h (w.setHas l none) := by
    intro w hw
    exact hw.elim (fun hw => hl.forget hw) fun hw => hl.setHas _ hw
  refine Triple.onThrow ?_ hthrow
  apply getHas_then ho.1
  apply Triple.bind (setHas_spec l b)
  intro _
  obtain ⟨-, n, hn⟩ := ho
  have halt := @constructAlt_spec C f (update h l (some b)) env mode (.alt l) (.alt o) _ hl.2 hn
  have hside : ∀ w : World C, mode = .copy ∧ At f (update h l (some b)) w →
      At f h w ∨ At f (update h l (some b)) w := fun _ hw => .inr hw.2
  cases b
  · exact halt.conseq (fun _ hw => hw) (fun _ _ hw => hw) hside
  · exact halt.conseq (fun _ hw => hw) (fun _ _ hw => hw) hside

theorem constructArgs_spec {l : Loc} {args : List (Source C)} (b : Bool) (hl : Vacant f h l)
    (ha : ∀ a ∈ args, a.Valid f) :
    Triple (At f h)
      (do
        constructFrom env (.alt l) (kindOf b) args
        setHas l b)
      (fun _ => Assigned f h l b) (At f h) := by
  apply Triple.bind (constructFrom_spec hl.2 (kindOf b) ha)
  intro _
  refine Triple.exists_pre fun n => ?_
  exact (setHas_spec l b).conseq (fun _ hw => hw) (fun _ _ hw => ⟨n, hw⟩) fun _ hw => hw

theorem valueConstructor_spec {l : Loc} {args : List (Source C)} (hl : Vacant f h l)
    (ha : ∀ a ∈ args, a.Valid f) :
    Triple (At f h) (valueConstructor env l args) (fun _ => Assigned f h l true) (At f h) :=
  Triple.onThrow (constructArgs_spec true hl ha) fun _ hw => hl.forget hw

theorem failureConstructor_spec {l : Loc} {error : Source C} (hl : Vacant f h l)
    (ha : error.Valid f) :
    Triple (At f h) (failureConstructor env l error) (fun _ => Assigned f h l false) (At f h) :=
  Triple.onThrow (constructArgs_spec false hl (by simpa using ha)) fun _ hw => hl.forget hw

/-- Assigning a temporary and destroying it leaves the target with the temporary's state. -/
theorem assignTemp_spec {l : Loc} {a b : Bool} (hl : Holds f h l a) (hne : l ≠ .temp)
    (ht : Vacant f h .temp) (hi : f .incoming = none) :
    Triple (Assigned f h .temp b) (cleanup (moveAssign env l .temp) (destructor .temp))
      (fun _ => Assigned f h l b) (At f h) := by
  refine Triple.exists_pre fun n => ?_
  let f₁ := update f (.alt .temp) (some ⟨kindOf b, n, none⟩)
  let h₁ := update h .temp (some b)
  have hne' : Place.alt l ≠ .alt .temp := fun he => hne (Place.alt.inj he)
  have h₁l : Holds f₁ h₁ l a := by
    obtain ⟨hb, m, hm⟩ := hl
    exact ⟨by simp [h₁, hne, hb], m, by simp [f₁, hne', hm]⟩
  have h₁t : Holds f₁ h₁ .temp b := ⟨by simp [h₁], n, by simp [f₁]⟩
  have h₁i : f₁ .incoming = none := by simp [f₁, hi]
  refine Triple.cleanup (moveAssign_spec h₁l h₁t h₁i) (fun _ => Triple.exists_pre fun m => ?_) ?_
  · have h₂t : Holds (update f₁ (.alt l) (some ⟨kindOf b, m, none⟩)) (update h₁ l (some b))
        .temp b := ⟨by simp [h₁, hne.symm], n, by simp [f₁, hne'.symm]⟩
    refine (destructor_spec h₂t).conseq (fun _ hw => hw) (fun _ _ hw => ⟨m, ?_⟩) fun _ hw => hw
    -- without the temporary the world is as before but for the target
    rw [update_comm hne', update_idem, ← ht.2, update_eq_self, update_comm hne, update_idem,
      ← ht.1, update_eq_self] at hw
    exact hw
  · refine (destructor_spec h₁t).conseq (fun _ hw => hw) (fun _ _ hw => ?_) fun _ hw => hw
    rwa [update_idem, ← ht.2, update_eq_self, update_idem, ← ht.1, update_eq_self] at hw

theorem assignValue_spec {l : Loc} {a : Bool} {v : Source C} (hl : Holds f h l a)
    (hne : l ≠ .temp) (ht : Vacant f h .temp) (hi : f .incoming = none) (hv : v.Valid f) :
    Triple (At f h) (assignValue env l v) (fun _ => Assigned f h l true) (At f h) := by
  apply Triple.bind (valueConstructor_spec ht (by simpa using hv))
  intro _
  exact assignTemp_spec hl hne ht hi

theorem assignFailure_spec {l : Loc} {a : Bool} (content : C) {view : Option Ref}
    (hl : Holds f h l a) (hne : l ≠ .temp) (ht : Vacant f h .temp) (hi : f .incoming = none)
    (hp : f .param = none)
    (hv : ∀ ref ∈ view, ∃ t, f ref.place = some t ∧ t.serial = ref.serial) :
    Triple (At f h) (assignFailure env l content view) (fun _ => Assigned f h l false)
      (At f h) := by
  apply Triple.bind mayThrow_spec
  intro _
  apply Triple.bind (construct_spec hp .failure content view)
  intro _
  refine Triple.exists_pre fun n => ?_
  let f₁ := update f .param (some ⟨.failure, n, view⟩)
  have h₁p : f₁ .param = some ⟨.failure, n, view⟩ := by simp [f₁]
  have h₁l : Holds f₁ h l a := by
    obtain ⟨hb, m, hm⟩ := hl
    exact ⟨hb, m, by simp [f₁, hm]⟩
  have h₁t : Vacant f₁ h .temp := ⟨ht.1, by simp [f₁, ht.2]⟩
  have hbody : Triple (At f₁ h)
      (do
        let fail ← read .param .failure
        failureConstructor env .temp (errorOf fail)
        cleanup (moveAssign env l .temp) (destructor .temp))
      (fun _ => Assigned f₁ h l false) (At f₁ h) := by
    apply Triple.bind (read_spec h₁p)
    intro fail
    refine Triple.and_pre fun hfail => ?_
    -- a view still refers into the results; an owning parameter is read in place
    have hview : fail.view = view := congrArg Tag.view hfail
    have hvalid : (errorOf fail).Valid f₁ := by
      cases view with
      | none =>
        simp only [errorOf, hview]
        exact ⟨_, h₁p, (congrArg Tag.serial hfail).symm⟩
      | some ref =>
        simp only [errorOf, hview]
        obtain ⟨t, htag, hs⟩ := hv ref rfl
        have hplace : ref.place ≠ .param := fun he => by simp [he, hp] at htag
        exact ⟨t, by simp [f₁, hplace, htag], hs⟩
    apply Triple.bind (failureConstructor_spec h₁t hvalid)
    intro _
    exact assignTemp_spec h₁l hne h₁t (by simp [f₁, hi])
  refine Triple.cleanup hbody (fun _ => Triple.exists_pre fun m => ?_) ?_
  · have h₂p : update f₁ (.alt l) (some ⟨kindOf false, m, none⟩) .param =
        some ⟨.failure, n, view⟩ := by simp [f₁]
    refine (destroyAt_spec h₂p).conseq (fun _ hw => hw) (fun _ _ hw => ⟨m, ?_⟩) fun _ hw => hw
    rwa [update_comm (by simp), update_idem, ← hp, update_eq_self] at hw
  · refine (destroyAt_spec h₁p).conseq (fun _ hw => hw) (fun _ _ hw => ?_) fun _ hw => hw
    rwa [update_idem, ← hp, update_eq_self] at hw

/-- Between operations every result owns the alternative it names, and there is nothing else. -/
structure Owned (f : Place → Option Tag) (h : Loc → Option Bool) : Prop where
  holds : ∀ l b, h l = some b → Holds f h l b
  vacant : ∀ l, h l = none → f (.alt l) = none
  temp : h .temp = none
  param : f .param = none
  incoming : f .incoming = none

def Kept (w : World C) : Prop := ∃ f h, At f h w ∧ Owned f h

theorem Owned.vacant_named (hf : Owned f h) {r : ℕ} (hr : h (.named r) = none) :
    Vacant f h (.named r) := ⟨hr, hf.vacant _ hr⟩

theorem Owned.vacant_temp (hf : Owned f h) : Vacant f h .temp := ⟨hf.temp, hf.vacant _ hf.temp⟩

theorem Owned.assigned (hf : Owned f h) {r : ℕ} {b : Bool} {w : World C}
    (hw : Assigned f h (.named r) b w) : Kept w := by
  obtain ⟨n, hat⟩ := hw
  refine ⟨_, _, hat, ⟨fun l c hl => ?_, fun l hl => ?_, ?_, ?_, ?_⟩⟩
  · by_cases he : l = .named r
    · subst he
      simp only [update_self] at hl
      obtain rfl := Option.some.inj hl
      exact ⟨update_self _ _ _, n, update_self _ _ _⟩
    · have hl' : h l = some c := by simpa [he] using hl
      obtain ⟨-, m, hm⟩ := hf.holds l c hl'
      exact ⟨hl, m, by simp [he, hm]⟩
  · by_cases he : l = .named r
    · simp [he] at hl
    · simpa [he] using hf.vacant l (by simpa [he] using hl)
  · simp [hf.temp]
  · simp [hf.param]
  · simp [hf.incoming]

theorem Owned.destroyed (hf : Owned f h) {r : ℕ} {w : World C}
    (hw : At (update f (.alt (.named r)) none) (update h (.named r) none) w) : Kept w := by
  refine ⟨_, _, hw, ⟨fun l c hl => ?_, fun l hl => ?_, ?_, ?_, ?_⟩⟩
  · by_cases he : l = .named r
    · simp [he] at hl
    · obtain ⟨-, m, hm⟩ := hf.holds l c (by simpa [he] using hl)
      exact ⟨hl, m, by simp [he, hm]⟩
  · by_cases he : l = .named r
    · simp [he]
    · simpa [he] using hf.vacant l (by simpa [he] using hl)
  · simp [hf.temp]
  · simp [hf.param]
  · simp [hf.incoming]

theorem At.isLive_iff (hw : At f h w) {r : ℕ} : w.isLive r = true ↔ ∃ b, h (.named r) = some b := by
  rw [World.isLive, hw.has, Option.isSome_iff_exists]

theorem At.not_isLive_iff (hw : At f h w) {r : ℕ} :
    (!w.isLive r) = true ↔ h (.named r) = none := by
  rw [World.isLive, hw.has, Bool.not_eq_true', Option.isSome_eq_false_iff, Option.isNone_iff_eq_none]

/-- A reference to the alternative of a live result is good. -/
theorem At.altRef_valid (hw : At f h w) (hf : Owned f h) {r : ℕ} (hr : w.isLive r = true) :
    ∃ t, f (w.altRef r).place = some t ∧ t.serial = (w.altRef r).serial := by
  obtain ⟨b, hb⟩ := hw.isLive_iff.mp hr
  obtain ⟨-, n, hn⟩ := hf.holds _ b hb
  obtain ⟨o, ho, hot⟩ := hw.exists_obj hn
  refine ⟨_, hn, ?_⟩
  simp only [World.altRef, ho, Option.map_some, Option.getD_some]
  exact (congrArg Tag.serial hot).symm

theorem At.source_valid (hw : At f h w) (hf : Owned f h) {a : Arg C}
    (ha : w.refersToLive a = true) : (w.source a).Valid f := by
  cases a with
  | own c => trivial
  | into r moved => exact hw.altRef_valid hf ha

theorem comp_spec (hw : At f h w) (hf : Owned f h) (op : Op C) (ha : w.admits op = true) :
    Triple (At f h) (op.comp env w) (fun _ => Kept) Kept := by
  have hkept : ∀ w : World C, At f h w → Kept w := fun _ hw => ⟨f, h, hw, hf⟩
  have hassign : ∀ {m : Comp (World C) Unit} {r : ℕ} {b : Bool},
      Triple (At f h) m (fun _ => Assigned f h (.named r) b) (At f h) →
        Triple (At f h) m (fun _ => Kept) Kept := fun hm =>
    hm.conseq (fun _ hw => hw) (fun _ _ hw => hf.assigned hw) hkept
  have hne : ∀ r, Loc.named r ≠ .temp := fun _ => by simp
  cases op with
  | value r v =>
    simp only [World.admits, Bool.and_eq_true, hw.not_isLive_iff] at ha
    refine hassign (valueConstructor_spec (hf.vacant_named ha.1) fun a hm => ?_)
    rw [List.mem_singleton.mp hm]
    exact hw.source_valid hf ha.2
  | inPlace r args =>
    simp only [World.admits, Bool.and_eq_true, hw.not_isLive_iff, List.all_eq_true] at ha
    refine hassign (valueConstructor_spec (hf.vacant_named ha.1) fun a hm => ?_)
    obtain ⟨a', ha', rfl⟩ := List.mem_map.mp hm
    exact hw.source_valid hf (ha.2 a' ha')
  | failure r error =>
    simp only [World.admits, Bool.and_eq_true, hw.not_isLive_iff] at ha
    exact hassign (failureConstructor_spec (hf.vacant_named ha.1) (hw.source_valid hf ha.2))
  | copy r o =>
    simp only [World.admits, Bool.and_eq_true, hw.not_isLive_iff, hw.isLive_iff] at ha
    obtain ⟨hr, b, hb⟩ := ha
    exact hassign (constructLike_spec (hf.vacant_named hr) (hf.holds _ b hb))
  | move r o =>
    simp only [World.admits, Bool.and_eq_true, hw.not_isLive_iff, hw.isLive_iff] at ha
    obtain ⟨hr, b, hb⟩ := ha
    exact hassign (constructLike_spec (hf.vacant_named hr) (hf.holds _ b hb))
  | copyAssign r o =>
    simp only [World.admits, Bool.and_eq_true, hw.isLive_iff] at ha
    obtain ⟨⟨a, hr⟩, b, hb⟩ := ha
    exact hassign (copyAssign_spec (hf.holds _ a hr) (hf.holds _ b hb) hf.incoming)
  | moveAssign r o =>
    simp only [World.admits, Bool.and_eq_true, hw.isLive_iff] at ha
    obtain ⟨⟨a, hr⟩, b, hb⟩ := ha
    exact hassign (moveAssign_spec (hf.holds _ a hr) (hf.holds _ b hb) hf.incoming)
  | assignValue r v =>
    simp only [World.admits, Bool.and_eq_true, hw.isLive_iff] at ha
    obtain ⟨⟨a, hr⟩, hv⟩ := ha
    exact hassign (assignValue_spec (hf.holds _ a hr) (hne r) hf.vacant_temp hf.incoming
      (hw.source_valid hf hv))
  | assignFailure r content view =>
    simp only [World.admits, Bool.and_eq_true, hw.isLive_iff] at ha
    obtain ⟨⟨a, hr⟩, hv⟩ := ha
    refine hassign (assignFailure_spec content (hf.holds _ a hr) (hne r) hf.vacant_temp
      hf.incoming hf.param fun ref href => ?_)
    obtain ⟨o, ho, rfl⟩ := Option.map_eq_some_iff.mp href
    exact hw.altRef_valid hf (by simpa [Option.mem_def.mp ho] using hv)
  | destroy r =>
    obtain ⟨b, hb⟩ := hw.isLive_iff.mp ha
    exact (destructor_spec (hf.holds _ b hb)).conseq (fun _ hw => hw)
      (fun _ _ hw => hf.destroyed hw) fun _ hw => hw

theorem step_kept (hw : Kept w) (op : Op C) : ∃ w', step env (some w) op = some w' ∧ Kept w' := by
  obtain ⟨f, h, hat, hf⟩ := id hw
  simp only [step, Option.bind_some]
  by_cases ha : w.admits op = true
  · have := @comp_spec C f h w env hat hf op ha w hat
    rw [if_pos ha]
    split at this
    next hr => exact ⟨_, by rw [hr], this⟩
    next hr => exact ⟨_, by rw [hr], this⟩
    next => exact this.elim
  · rw [if_neg ha]
    exact ⟨w, rfl, hw⟩

theorem initial_kept : Kept (World.initial : World C) := by
  refine ⟨fun _ => none, fun _ => none, ⟨⟨?_, ?_, ?_, ?_, ?_⟩, ?_, rfl⟩, ⟨?_, ?_, rfl, rfl, rfl⟩⟩ <;>
    simp [World.initial]

theorem run_kept (ops : List (Op C)) :
    ∃ w, Transition.run (step env) (some World.initial) ops = some w ∧ Kept w := by
  refine Transition.run_invariant (step env) (fun s => ∃ w, s = some w ∧ Kept w) ?_ _
    ⟨_, rfl, initial_kept⟩ ops
  rintro s op ⟨w, rfl, hw⟩
  exact step_kept hw op

/-- Whatever throws, no run of operations does anything C++ leaves undefined: after it every
result owns one object, of the kind `has_` names, and no other object exists; none was
destroyed twice; and once the results are gone everything constructed was destroyed once. -/
theorem lifetimes_sound (env : Env C) (ops : List (Op C)) :
    ∃ w, Transition.run (step env) (some World.initial) ops = some w ∧
      (∀ r b, w.has (.named r) = some b →
        ∃ o, w.mem (.alt (.named r)) = some o ∧ o.kind = kindOf b ∧
          ∀ p o', w.mem p = some o' → o'.serial = o.serial → p = .alt (.named r)) ∧
      (∀ p o, w.mem p = some o → o.serial < w.constructed ∧
        ∃ r b, p = .alt (.named r) ∧ w.has (.named r) = some b) ∧
      (∀ n, w.destroyed.count n ≤ 1) ∧
      (∀ p o, w.mem p = some o → w.destroyed.count o.serial = 0) ∧
      ((∀ r, w.has (.named r) = none) → ∀ n < w.constructed, w.destroyed.count n = 1) := by
  obtain ⟨w, hrun, f, h, hw, hf⟩ := @run_kept C env ops
  -- between operations there is neither a parameter nor a local nor a temporary
  have howner : ∀ p o, w.mem p = some o →
      ∃ r b, p = .alt (.named r) ∧ w.has (.named r) = some b := by
    intro p o ho
    have htag := hw.tag p
    rw [ho] at htag
    cases p with
    | param => simp [hf.param] at htag
    | incoming => simp [hf.incoming] at htag
    | alt l =>
      cases l with
      | temp => simp [hf.vacant _ hf.temp] at htag
      | named r =>
        cases hb : h (.named r) with
        | none => simp [hf.vacant _ hb] at htag
        | some b => exact ⟨r, b, rfl, by rw [hw.has, hb]⟩
  refine ⟨w, hrun, ?_, fun p o ho => ⟨(hw.sound.live p o ho).1, howner p o ho⟩, ?_, ?_, ?_⟩
  · intro r b hb
    rw [hw.has] at hb
    obtain ⟨-, n, hn⟩ := hf.holds _ b hb
    obtain ⟨o, ho, hot⟩ := hw.exists_obj hn
    exact ⟨o, ho, congrArg Tag.kind hot, fun p o' ho' he => hw.sound.distinct _ _ _ _ ho' ho he⟩
  · exact List.nodup_iff_count_le_one.mp hw.sound.once
  · intro p o ho
    exact List.count_eq_zero.mpr (hw.sound.live p o ho).2
  · intro hnone n hn
    apply List.count_eq_one_of_mem hw.sound.once
    rcases hw.sound.accounted n hn with hd | ⟨p, o, ho, -⟩
    · exact hd
    · obtain ⟨r, b, -, hb⟩ := howner p o ho
      simp [hnone r] at hb

end Jmpxx.Transport
