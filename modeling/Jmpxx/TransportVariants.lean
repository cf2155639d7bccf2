import Jmpxx.TransportStorage

namespace Jmpxx.Transport

open Throwing Function

variable {C : Type}

/-- The results there are: which alternative each has, and its content. -/
abbrev Variants (C : Type) := ℕ → Option (Bool × C)

/-- What an operation on a result comes to: what it calls that may throw, the results once its
arguments are read, and once it is done. -/
structure Effect (C : Type) where
  result : ℕ
  cost : Cost
  read : Variants C
  done : Variants C

namespace Variants

variable (env : Env C)

section Operations

variable (σ : Variants C)

def spend (r : ℕ) : Variants C := update σ r ((σ r).map fun x => (x.1, env.moved x.2))

def readArg : Arg C → Option (C × Variants C)
  | .own c => some (c, σ)
  | .into r moved => (σ r).map fun x => (x.2, if moved then spend env σ r else σ)

/-- The arguments are read in order, each from what those before it have left. -/
def readArgs : List (Arg C) → Variants C → Option (List C × Variants C)
  | [], σ => some ([], σ)
  | a :: as, σ => (readArg env σ a).bind fun x => (readArgs as x.2).map fun y => (x.1 :: y.1, y.2)

def made (b : Bool) (r : ℕ) (args : List (Arg C)) (cost : Cost) : Option (Effect C) :=
  (readArgs env args σ).map fun x => ⟨r, cost, x.2, update x.2 r (some (b, env.make x.1))⟩

def copied (moves : Bool) (r o : ℕ) (cost : Cost) : Option (Effect C) :=
  (σ o).map fun x =>
    ⟨r, cost, σ, if moves then spend env (update σ r (some x)) o else update σ r (some x)⟩

def errorArg (content : C) : Option ℕ → Arg C
  | none => .own content
  | some o => .into o false

def ifFree (r : ℕ) (e : Option (Effect C)) : Option (Effect C) := if (σ r).isNone then e else none

def ifLive (r : ℕ) (e : Bool → Option (Effect C)) : Option (Effect C) := (σ r).bind fun x => e x.1

def costFrom (o : ℕ) (cost : Bool → Cost) : Cost := (σ o).elim ⟨0, false⟩ fun x => cost x.1

/-- What an operation is for; without one the program cannot name it here. A result that is made
from arguments is made by one constructor; for an assignment it is a temporary, which is then
assigned. -/
def effect : Op C → Option (Effect C)
  | .value r v => ifFree σ r (made env σ true r [v] ⟨1, false⟩)
  | .inPlace r args => ifFree σ r (made env σ true r args ⟨1, false⟩)
  | .failure r error => ifFree σ r (made env σ false r [error] ⟨1, false⟩)
  | .copy r o => ifFree σ r (copied env σ false r o ⟨if env.trivCopyCtor then 0 else 1, false⟩)
  | .move r o => ifFree σ r (copied env σ (!env.trivMoveCtor) r o ⟨0, false⟩)
  | .copyAssign r o => ifLive σ r fun a =>
    copied env σ false r o (costFrom σ o (env.copyAssignCost a))
  | .moveAssign r o => ifLive σ r fun a =>
    copied env σ (!env.trivMoveAssign) r o (costFrom σ o (env.moveAssignCost a))
  | .assignValue r v => ifLive σ r fun a =>
    made env σ true r [v] ((env.moveAssignCost a true).after 1)
  -- the parameter is one more object
  | .assignFailure r content view => ifLive σ r fun a =>
    made env σ false r [errorArg content view] (((env.moveAssignCost a false).after 1).after 1)
  | .destroy r => ifLive σ r fun _ => some ⟨r, ⟨0, false⟩, σ, update σ r none⟩

end Operations

/-- How an operation ends whose first constructor or assignment that may throw has number `t`: the
number of the next, and the results. One that throws leaves its arguments read and nothing else,
except that a throwing assignment tears the alternative it assigns to. -/
def outcome (e : Effect C) (t : ℕ) : ℕ × Variants C :=
  match (List.range e.cost.constructs).find? fun i => env.throws (t + i) with
  | some i => (t + i + 1, e.read)
  | none =>
    let n := t + e.cost.constructs
    if e.cost.assigns && env.throws n then
      (n + 1, update e.read e.result ((e.read e.result).map fun x => (x.1, env.torn (n + 1))))
    else (n + e.cost.assigns.toNat, e.done)

def advance (p : ℕ × Variants C) (op : Op C) : ℕ × Variants C :=
  (effect env p.2 op).elim p fun e => outcome env e p.1

variable {env : Env C} {e : Effect C} {t i : ℕ}

theorem outcome_of_quiet (hconstructs : env.Quiet t e.cost.constructs)
    (hassigns : e.cost.assigns = true → env.throws (t + e.cost.constructs) = false) :
    outcome env e t = (t + e.cost.constructs + e.cost.assigns.toNat, e.done) := by
  have hnone : ((List.range e.cost.constructs).find? fun i => env.throws (t + i)) = none := by
    refine List.find?_eq_none.mpr fun i hi => ?_
    rw [hconstructs i (List.mem_range.mp hi)]
    exact Bool.false_ne_true
  have hcond : (e.cost.assigns && env.throws (t + e.cost.constructs)) = false := by
    cases ha : e.cost.assigns with
    | false => rfl
    | true => exact hassigns ha
  rw [outcome, hnone]
  simp only [hcond, Bool.false_eq_true, if_false]

theorem outcome_of_constructor (hi : i < e.cost.constructs) (hbefore : env.Quiet t i)
    (hthrows : env.throws (t + i) = true) : outcome env e t = (t + i + 1, e.read) := by
  have hsome : ((List.range e.cost.constructs).find? fun i => env.throws (t + i)) = some i :=
    List.find?_range_eq_some.mpr
      ⟨hthrows, List.mem_range.mpr hi, fun j hj => by simp [hbefore j hj]⟩
  rw [outcome, hsome]

theorem outcome_of_assignment (ha : e.cost.assigns = true)
    (hconstructs : env.Quiet t e.cost.constructs)
    (hthrows : env.throws (t + e.cost.constructs) = true) :
    outcome env e t = (t + e.cost.constructs + 1, update e.read e.result
      ((e.read e.result).map fun x => (x.1, env.torn (t + e.cost.constructs + 1)))) := by
  have hnone : ((List.range e.cost.constructs).find? fun i => env.throws (t + i)) = none := by
    refine List.find?_eq_none.mpr fun i hi => ?_
    rw [hconstructs i (List.mem_range.mp hi)]
    exact Bool.false_ne_true
  rw [outcome, hnone]
  simp only [ha, hthrows, Bool.and_self, if_true]

end Variants

namespace World

/-- Each result as its caller reads it: the alternative that `has_` names. -/
def variants (w : World C) : Variants C := fun r =>
  (w.has (.named r)).bind fun b =>
    (w.find (.alt (.named r)) (kindOf b)).map fun o => (b, o.content)

def stored (w : World C) : Variants C := fun r =>
  (w.has (.named r)).bind fun b => (w.contentAt (.alt (.named r))).map fun c => (b, c)

end World

variable {env : Env C} {w : World C} {t : ℕ}

namespace Variants

section Places

variable (σ : Variants C)

def views : Place → Option C
  | .alt (.named r) => (σ r).map fun x => x.2
  | _ => none

def names : Loc → Option Bool
  | .named r => (σ r).map fun x => x.1
  | .temp => none

theorem views_update (r : ℕ) (x : Option (Bool × C)) :
    views (update σ r x) = update σ.views (.alt (.named r)) (x.map fun x => x.2) := by
  funext p
  rcases p with (q | _) | _ | _
  · by_cases hq : q = r
    · simp [views, hq]
    · simp [views, hq]
  · rfl
  · rfl
  · rfl

theorem names_update (r : ℕ) (x : Option (Bool × C)) :
    names (update σ r x) = update σ.names (.named r) (x.map fun x => x.1) := by
  funext l
  cases l with
  | temp => rfl
  | named q =>
    by_cases hq : q = r
    · simp [names, hq]
    · simp [names, hq]

theorem names_spend (r : ℕ) : (spend env σ r).names = σ.names := by
  rw [spend, names_update]
  cases hr : σ r with
  | none => exact update_eq_self_iff.mpr (by simp [names, hr])
  | some x => exact update_eq_self_iff.mpr (by simp [names, hr])

end Places

/-- The world is in the state of the variants, between two operations. -/
def Shown (σ : Variants C) (t : ℕ) (w : World C) : Prop := Is σ.views σ.names t w

variable {σ : Variants C} {r o : ℕ} {e e' : Effect C} {op : Op C}

theorem Shown.stored (hw : Shown σ t w) : w.stored = σ := by
  funext r
  rw [World.stored, hw.has, hw.content]
  cases hr : σ r with
  | none => simp [names, hr]
  | some x => simp [names, views, hr]

theorem shown_of_kept (hw : Kept w) : Shown w.stored w.tick w := by
  obtain ⟨f, h, hat, hf⟩ := hw
  have hempty : ∀ p, f p = none → w.contentAt p = none := by
    intro p hp
    rw [World.contentAt, hat.mem_eq_none hp]
    rfl
  have hresult : ∀ r, w.has (.named r) = (w.stored r).map (fun x => x.1) ∧
      w.contentAt (.alt (.named r)) = (w.stored r).map fun x => x.2 := by
    intro r
    rw [World.stored, hat.has]
    cases hr : h (.named r) with
    | none => exact ⟨rfl, hempty _ (hf.vacant _ hr)⟩
    | some b =>
      obtain ⟨c, hc⟩ := (hf.holds _ b hr).content hat
      rw [hc]
      exact ⟨rfl, rfl⟩
  refine ⟨?_, ?_, rfl⟩
  · funext p
    rcases p with (q | _) | _ | _
    · exact (hresult q).2
    · exact hempty _ (hf.vacant _ hf.temp)
    · exact hempty _ hf.param
    · exact hempty _ hf.incoming
  · funext l
    cases l with
    | named q => exact (hresult q).1
    | temp => rw [hat.has, hf.temp]; rfl

/-- A result is read as the alternative it owns. -/
theorem variants_of_kept (hw : Kept w) : w.variants = w.stored := by
  obtain ⟨f, h, hat, hf⟩ := hw
  funext r
  rw [World.variants, World.stored, hat.has]
  cases hr : h (.named r) with
  | none => rfl
  | some b =>
    obtain ⟨b', x, hb', hx, hkind⟩ := (hf.holds _ b hr).owns hat
    rw [hat.has, hr] at hb'
    obtain rfl := Option.some.inj hb'
    simp [World.find, World.contentAt, hx, hkind]

section Reading

/-- An argument is read of the storage as of the variants. -/
theorem source_taken (w : World C) (a : Arg C) :
    (w.source a).taken env σ.views = (readArg env σ a).map fun x => (x.1, x.2.views) := by
  cases a with
  | own c => rfl
  | into r moved =>
    rw [World.source, Source.taken, readArg, Option.map_map]
    show ((σ r).map fun x => x.2).map _ = _
    cases hr : σ r with
    | none => rfl
    | some x =>
      cases moved
      · rfl
      · simp only [Option.map_some, Function.comp, if_pos, spend, views_update, hr]
        rfl

theorem allTaken_source (w : World C) (args : List (Arg C)) :
    allTaken env (args.map w.source) σ.views =
      (readArgs env args σ).map fun x => (x.1, x.2.views) := by
  induction args generalizing σ with
  | nil => rfl
  | cons a args ih =>
    rw [List.map_cons, allTaken, readArgs, source_taken]
    cases readArg env σ a with
    | none => rfl
    | some x =>
      simp only [Option.map_some, Option.bind_some, ih, Option.map_map]
      rfl

theorem names_of_readArg {a : Arg C} {x : C × Variants C} (hx : readArg env σ a = some x) :
    x.2.names = σ.names := by
  cases a with
  | own c =>
    obtain rfl := Option.some.inj hx
    rfl
  | into r moved =>
    obtain ⟨y, -, rfl⟩ := Option.map_eq_some_iff.mp hx
    cases moved
    · rfl
    · exact names_spend σ r

theorem names_of_readArgs {args : List (Arg C)} {x : List C × Variants C}
    (hx : readArgs env args σ = some x) : x.2.names = σ.names := by
  induction args generalizing σ x with
  | nil =>
    obtain rfl := Option.some.inj hx
    rfl
  | cons a args ih =>
    obtain ⟨y, hy, hrest⟩ := Option.bind_eq_some_iff.mp hx
    obtain ⟨z, hz, rfl⟩ := Option.map_eq_some_iff.mp hrest
    exact (ih hz).trans (names_of_readArg hy)

theorem isSome_of_names {τ : Variants C} (h : τ.names = σ.names) (r : ℕ) :
    (τ r).isSome = (σ r).isSome := by
  have := congrArg Option.isSome (congrFun h (.named r))
  simpa [names] using this

theorem readArg_isSome_of_names {τ : Variants C} (h : τ.names = σ.names) (a : Arg C) :
    (readArg env τ a).isSome = (readArg env σ a).isSome := by
  cases a with
  | own c => rfl
  | into r moved =>
    rw [readArg, readArg, Option.isSome_map, Option.isSome_map]
    exact isSome_of_names h r

theorem readArgs_isSome (args : List (Arg C)) :
    (readArgs env args σ).isSome = args.all fun a => (readArg env σ a).isSome := by
  induction args generalizing σ with
  | nil => rfl
  | cons a args ih =>
    rw [readArgs, List.all_cons]
    cases ha : readArg env σ a with
    | none => rfl
    | some x =>
      have hsame := @readArg_isSome_of_names C env _ _ (names_of_readArg ha)
      simp only [Option.bind_some, Option.isSome_map, ih, hsame, Option.isSome_some, Bool.true_and]

end Reading

section Naming

theorem ifFree_eq_some {x : Option (Effect C)} : ifFree σ r x = some e ↔ σ r = none ∧ x = some e := by
  rw [ifFree, ← Option.isNone_iff_eq_none]
  split_ifs with hr
  · simp [hr]
  · simp [hr]

theorem ifLive_eq_some {f : Bool → Option (Effect C)} :
    ifLive σ r f = some e ↔ ∃ x, σ r = some x ∧ f x.1 = some e := Option.bind_eq_some_iff

theorem isSome_ifFree {x : Option (Effect C)} :
    (ifFree σ r x).isSome = (!(σ r).isSome && x.isSome) := by
  rw [ifFree]
  cases σ r <;> rfl

theorem isSome_ifLive {f : Bool → Option (Effect C)} {b : Bool} (hf : ∀ a, (f a).isSome = b) :
    (ifLive σ r f).isSome = ((σ r).isSome && b) := by
  rw [ifLive]
  cases σ r with
  | none => rfl
  | some x => exact hf x.1

theorem Shown.isLive (hw : Shown σ t w) (r : ℕ) : w.isLive r = (σ r).isSome := by
  rw [World.isLive, hw.has]
  exact Option.isSome_map

theorem Shown.refersToLive (hw : Shown σ t w) (a : Arg C) :
    w.refersToLive a = (readArg env σ a).isSome := by
  cases a with
  | own c => rfl
  | into r moved =>
    rw [readArg, Option.isSome_map]
    exact hw.isLive r

theorem isSome_made (b : Bool) (args : List (Arg C)) (cost : Cost) :
    (made env σ b r args cost).isSome = args.all fun a => (readArg env σ a).isSome := by
  rw [made, Option.isSome_map, readArgs_isSome]

theorem isSome_copied (moves : Bool) (cost : Cost) :
    (copied env σ moves r o cost).isSome = (σ o).isSome := Option.isSome_map

/-- The program can name an operation on the results just when it can on the variants. -/
theorem Shown.admits (hw : Shown σ t w) (op : Op C) : w.admits op = (effect env σ op).isSome := by
  have hlive := hw.isLive
  have hrefers := @Shown.refersToLive C env w _ σ hw
  cases op with
  | value r v => simp [World.admits, effect, isSome_ifFree, isSome_made, hlive, hrefers]
  | inPlace r args =>
    simp only [World.admits, effect, isSome_ifFree, isSome_made, hlive]
    congr 2
    funext a
    exact hrefers a
  | failure r error => simp [World.admits, effect, isSome_ifFree, isSome_made, hlive, hrefers]
  | copy r o => simp [World.admits, effect, isSome_ifFree, isSome_copied, hlive]
  | move r o => simp [World.admits, effect, isSome_ifFree, isSome_copied, hlive]
  | copyAssign r o | moveAssign r o =>
    rw [World.admits, effect, isSome_ifLive fun _ => isSome_copied _ _, hlive, hlive]
  | assignValue r v =>
    rw [World.admits, effect, isSome_ifLive fun _ => isSome_made _ _ _, hlive, hrefers]
    simp
  | assignFailure r content view =>
    rw [World.admits, effect, isSome_ifLive fun _ => isSome_made _ _ _, hlive]
    cases view with
    | none => simp [errorArg, readArg]
    | some o => simp [errorArg, readArg, hlive]
  | destroy r =>
    rw [World.admits, effect, isSome_ifLive fun _ => Option.isSome_some, hlive, Bool.and_true]

end Naming

section Outcomes

/-- The world is as an operation leaves it. -/
def Ended (p : ℕ × Variants C) (w : World C) : Prop := Shown p.2 p.1 w

theorem ended_of_done {g : Place → Option C} {h : Loc → Option Bool} {k : Cost}
    (hk : e.cost = k) (hg : g = e.done.views) (hh : h = e.done.names)
    (hw : Done env k g h t w) : Ended (outcome env e t) w := by
  subst hk hg hh
  rw [outcome_of_quiet hw.constructed hw.assigned]
  exact hw.shows

theorem ended_of_left {g : Place → Option C} {h : Loc → Option Bool} {k : Cost}
    (hk : e.cost = k) (hg : g = e.read.views) (hh : h = e.read.names)
    (hlive : k.assigns = true → (e.read e.result).isSome)
    (hw : Left env k g h (.named e.result) t w) : Ended (outcome env e t) w := by
  subst hk hg hh
  rcases hw with ⟨i, hi, hbefore, hthrows, hw⟩ | ⟨ha, hconstructs, hthrows, hw⟩
  · rw [outcome_of_constructor hi hbefore hthrows]
    exact hw
  · obtain ⟨x, hx⟩ := Option.isSome_iff_exists.mp (hlive ha)
    have hnames : names (update e.read e.result (some (x.1, env.torn (t + e.cost.constructs + 1)))) =
        e.read.names := by
      rw [names_update, update_eq_self_iff]
      simp [names, hx]
    rw [outcome_of_assignment ha hconstructs hthrows, hx, Option.map_some]
    rw [Ended, Shown, views_update, hnames]
    exact hw

end Outcomes

section Operations

variable {b : Bool} {args : List (Arg C)} {moves : Bool} {mode : Mode} {k : Cost}

/-- The arguments that are read of the variants are read of the storage. -/
theorem taken_of_made (w : World C) (he : made env σ b r args k = some e) :
    ∃ cs, allTaken env (args.map w.source) σ.views = some (cs, e.read.views) ∧
      e.read.names = σ.names ∧ e.result = r ∧ e.cost = k ∧
      e.done = update e.read r (some (b, env.make cs)) := by
  obtain ⟨x, hx, rfl⟩ := Option.map_eq_some_iff.mp he
  refine ⟨x.1, ?_, names_of_readArgs hx, rfl, rfl, rfl⟩
  rw [allTaken_source, hx]
  rfl

theorem views_put (τ : Variants C) (r : ℕ) (b : Bool) (c : C) :
    update τ.views (.alt (.named r)) (some c) = views (update τ r (some (b, c))) :=
  (views_update τ r (some (b, c))).symm

theorem names_put (τ : Variants C) (r : ℕ) (b : Bool) (c : C) :
    update τ.names (.named r) (some b) = names (update τ r (some (b, c))) :=
  (names_update τ r (some (b, c))).symm

theorem made_constructs (w : World C) (hr : σ r = none)
    (he : made env σ b r args ⟨1, false⟩ = some e) :
    Partial (Shown σ t)
      (constructing (.named r) do
        constructFrom env (.alt (.named r)) (kindOf b) (args.map w.source)
        setHas (.named r) b)
      (fun _ => Ended (outcome env e t)) (Ended (outcome env e t)) := by
  obtain ⟨cs, hargs, hnames, rfl, hk, hdone⟩ := taken_of_made w he
  have hfree : σ.names (.named e.result) = none := by simp [names, hr]
  refine (constructing_shows b hfree hargs).conseq (fun _ hw => hw) (fun _ w hw => ?_) fun w hw => ?_
  · refine ended_of_done hk ?_ ?_ (Done.one hw.1 hw.2)
    · rw [hdone]
      exact views_put ..
    · rw [hdone, ← hnames]
      exact names_put ..
  · exact ended_of_left hk rfl hnames.symm nofun (@Left.one _ _ _ _ _ _ _ ⟨0, false⟩ hw.1 hw.2)

theorem isSome_of_read {τ : Variants C} {x : Bool × C} (hnames : e.read.names = τ.names)
    (hr : τ r = some x) : (e.read r).isSome := by
  rw [isSome_of_names hnames r, hr]
  rfl

theorem names_of_some {x : Bool × C} (hr : σ r = some x) : σ.names (.named r) = some x.1 := by
  rw [names, hr]
  rfl

theorem made_assignsValue {v : Arg C} (w : World C) {x : Bool × C} (hr : σ r = some x)
    (he : made env σ true r [v] ((env.moveAssignCost x.1 true).after 1) = some e) :
    Partial (Shown σ t) (Transport.assignValue env (.named r) (w.source v))
      (fun _ => Ended (outcome env e t)) (Ended (outcome env e t)) := by
  obtain ⟨cs, hargs, hnames, rfl, hk, hdone⟩ := taken_of_made w he
  refine (assignValue_shows (names_of_some hr) (by simp) rfl hargs rfl rfl).conseq
    (fun _ hw => hw) (fun _ w hw => ended_of_done hk ?_ ?_ hw) fun w hw =>
      ended_of_left hk rfl hnames.symm (fun _ => isSome_of_read hnames hr) hw
  · rw [hdone]
    exact views_put ..
  · rw [hdone, ← hnames]
    exact names_put ..

theorem made_assignsFailure {content : C} {view : Option ℕ} (w : World C) {x : Bool × C}
    (hr : σ r = some x) (he : made env σ false r [errorArg content view]
      (((env.moveAssignCost x.1 false).after 1).after 1) = some e) :
    Partial (Shown σ t) (Transport.assignFailure env (.named r) content (view.map w.altRef))
      (fun _ => Ended (outcome env e t)) (Ended (outcome env e t)) := by
  obtain ⟨c, hc, hread, hresult, hk, hdone⟩ : ∃ c,
      errorIn σ.views content (view.map w.altRef) = some c ∧ e.read = σ ∧ e.result = r ∧
        e.cost = ((env.moveAssignCost x.1 false).after 1).after 1 ∧
        e.done = update e.read r (some (false, env.make [c])) := by
    obtain ⟨x, hx, rfl⟩ := Option.map_eq_some_iff.mp he
    cases view with
    | none =>
      obtain rfl := Option.some.inj hx
      exact ⟨content, rfl, rfl, rfl, rfl, rfl⟩
    | some o =>
      obtain ⟨y, hy, hrest⟩ := Option.bind_eq_some_iff.mp hx
      obtain ⟨z, hz, rfl⟩ := Option.map_eq_some_iff.mp hy
      obtain rfl := Option.some.inj hrest
      refine ⟨z.2, ?_, rfl, rfl, rfl, rfl⟩
      show (σ o).map (fun x => x.2) = some z.2
      rw [hz]
      rfl
  subst hresult
  have hplace : ∀ ref ∈ view.map w.altRef, ref.place ≠ .param := by
    intro ref href
    obtain ⟨o, _, rfl⟩ := Option.map_eq_some_iff.mp href
    simp [World.altRef]
  have hspec := @assignFailure_shows C env σ.views σ.names c t (.named e.result) x.1 content _
    (names_of_some hr) (by simp) rfl rfl rfl rfl hc hplace
  refine hspec.conseq (fun _ hw => hw) (fun _ w hw => ended_of_done hk ?_ ?_ hw) fun w hw =>
    ended_of_left hk (congrArg views hread.symm) (congrArg names hread.symm) (fun _ => ?_) hw
  · rw [hdone, hread]
    exact views_put ..
  · rw [hdone, hread]
    exact names_put ..
  · rw [hread, hr]
    rfl

/-- What a copy or a move makes of the storage is what it makes of the variants. -/
theorem places_copied (hmoves : moves = decide (mode = .move)) {x : Bool × C} (hx : σ o = some x) :
    let τ := if moves then spend env (update σ r (some x)) o else update σ r (some x)
    update (update σ.views (.alt (.named r)) (some x.2)) (.alt (.named o))
        (some (taken env mode x.2)) = τ.views ∧ update σ.names (.named r) (some x.1) = τ.names := by
  intro τ
  have ho : update σ r (some x) o = some x := by
    by_cases hro : o = r
    · rw [hro, update_self]
    · rw [update_of_ne hro, hx]
  by_cases hmode : mode = .move
  · have hτ : τ = spend env (update σ r (some x)) o := if_pos (by simp [hmoves, hmode])
    rw [hτ, names_spend, names_update, spend, ho, views_update, views_update, taken, if_pos hmode]
    exact ⟨rfl, rfl⟩
  · have hτ : τ = update σ r (some x) := if_neg (by simp [hmoves, hmode])
    rw [hτ, names_update, views_update, taken, if_neg hmode]
    refine ⟨update_eq_self_iff.mpr ?_, rfl⟩
    have hviews := congrFun (views_update σ r (some x)) (.alt (.named o))
    rw [Option.map_some] at hviews
    rw [← hviews, views, ho]
    rfl

theorem copied_constructs (mode : Mode) (hr : σ r = none)
    (he : copied env σ moves r o mode.cost = some e)
    (hmoves : moves = decide (mode = .move)) :
    Partial (Shown σ t) (constructLike env mode (.named r) (.named o))
      (fun _ => Ended (outcome env e t)) (Ended (outcome env e t)) := by
  obtain ⟨x, hx, rfl⟩ := Option.map_eq_some_iff.mp he
  obtain ⟨hviews, hnames⟩ := @places_copied C env σ r o moves mode hmoves x hx
  have hspec := @constructLike_shows C env σ.views σ.names x.2 t (.named r) (.named o) x.1 mode
    (by simp [names, hr]) (names_of_some hx) (by simp [views, hx])
  exact hspec.conseq (fun _ hw => hw) (fun _ w hw => ended_of_done rfl hviews hnames hw)
    fun w hw => ended_of_left rfl rfl rfl nofun hw

theorem copied_assigns {m : Comp (World C) Unit} {x y : Bool × C} (hr : σ r = some x)
    (hy : σ o = some y) (he : copied env σ moves r o k = some e)
    (hmoves : moves = decide (mode = .move))
    (hspec : Partial (Shown σ t) m
      (fun _ => Done env k (update (update σ.views (.alt (.named r)) (some y.2)) (.alt (.named o))
        (some (taken env mode y.2))) (update σ.names (.named r) (some y.1)) t)
      (Left env k σ.views σ.names (.named r) t)) :
    Partial (Shown σ t) m (fun _ => Ended (outcome env e t)) (Ended (outcome env e t)) := by
  obtain ⟨z, hz, rfl⟩ := Option.map_eq_some_iff.mp he
  obtain rfl := Option.some.inj (hy.symm.trans hz)
  obtain ⟨hviews, hnames⟩ := @places_copied C env σ r o moves mode hmoves y hy
  refine hspec.conseq (fun _ hw => hw) (fun _ w hw => ended_of_done rfl hviews hnames hw)
    fun w hw => ended_of_left rfl rfl rfl (fun _ => ?_) hw
  show (σ r).isSome
  rw [hr]
  rfl

theorem costFrom_of_some {y : Bool × C} (hy : σ o = some y) (cost : Bool → Cost) :
    costFrom σ o cost = cost y.1 := by
  rw [costFrom, hy]
  rfl

/-- An operation on results ends as it does on variants. -/
theorem comp_shows (w : World C) (he : effect env σ op = some e) :
    Partial (Shown σ t) (op.comp env w) (fun _ => Ended (outcome env e t))
      (Ended (outcome env e t)) := by
  cases op with
  | value r v =>
    obtain ⟨hr, he⟩ := ifFree_eq_some.mp he
    exact made_constructs w hr he
  | inPlace r args =>
    obtain ⟨hr, he⟩ := ifFree_eq_some.mp he
    exact made_constructs w hr he
  | failure r error =>
    obtain ⟨hr, he⟩ := ifFree_eq_some.mp he
    exact made_constructs w hr he
  | copy r o =>
    obtain ⟨hr, he⟩ := ifFree_eq_some.mp he
    rw [Op.comp, copyConstructor]
    split_ifs at he ⊢
    · exact copied_constructs .bitwise hr he rfl
    · exact copied_constructs .copy hr he rfl
  | move r o =>
    obtain ⟨hr, he⟩ := ifFree_eq_some.mp he
    rw [Op.comp, moveConstructor]
    cases htriv : env.trivMoveCtor <;> rw [htriv] at he
    · exact copied_constructs .move hr he rfl
    · exact copied_constructs .bitwise hr he rfl
  | copyAssign r o =>
    rw [effect] at he
    obtain ⟨x, hr, he⟩ := ifLive_eq_some.mp he
    obtain ⟨y, hy, -⟩ := Option.map_eq_some_iff.mp he
    rw [costFrom_of_some hy] at he
    exact @copied_assigns C env _ σ r o e false .copy _ _ x y hr hy he rfl
      (copyAssign_shows (names_of_some hr) (names_of_some hy) (by simp [views, hy]) rfl)
  | moveAssign r o =>
    rw [effect] at he
    obtain ⟨x, hr, he⟩ := ifLive_eq_some.mp he
    obtain ⟨y, hy, -⟩ := Option.map_eq_some_iff.mp he
    rw [costFrom_of_some hy] at he
    exact copied_assigns hr hy he (by cases env.trivMoveAssign <;> rfl)
      (moveAssign_shows (names_of_some hr) (names_of_some hy) (by simp [views, hy]) rfl)
  | assignValue r v =>
    rw [effect] at he
    obtain ⟨x, hr, he⟩ := ifLive_eq_some.mp he
    exact made_assignsValue w hr he
  | assignFailure r content view =>
    rw [effect] at he
    obtain ⟨x, hr, he⟩ := ifLive_eq_some.mp he
    exact made_assignsFailure w hr he
  | destroy r =>
    rw [effect] at he
    obtain ⟨x, -, he⟩ := ifLive_eq_some.mp he
    obtain rfl := Option.some.inj he
    refine (destructor_shows ?_ ?_).conseq (fun _ hw => hw)
      (fun _ _ hw => ended_of_done rfl rfl rfl (.free hw)) fun _ hw => hw
    · rw [views_update]
      rfl
    · rw [names_update]
      rfl

end Operations

/-- A step of the program is the turn on the variants. -/
theorem step_advances (hw : Kept w) (op : Op C) :
    ∃ w', step env (some w) op = some w' ∧ Kept w' ∧
      (w'.tick, w'.stored) = advance env (w.tick, w.stored) op := by
  obtain ⟨w', hstep, hw'⟩ := @step_kept C w env hw op
  have hshown := shown_of_kept hw
  have hadmits := @Shown.admits C env w _ _ hshown op
  refine ⟨w', hstep, hw', ?_⟩
  rw [step, Option.bind_some] at hstep
  rw [advance]
  dsimp only
  cases he : effect env w.stored op with
  | none =>
    rw [he] at hadmits
    rw [if_neg (by simp [hadmits])] at hstep
    obtain rfl := Option.some.inj hstep
    rfl
  | some e =>
    rw [he] at hadmits
    rw [if_pos (by simp [hadmits])] at hstep
    have hcomp := comp_shows w he w hshown
    have hends : Ended (outcome env e w.tick) w' := by
      revert hstep hcomp
      rcases op.comp env w w with ⟨_ | _ | _, w''⟩
      · rintro ⟨⟩ hw
        exact hw
      · rintro ⟨⟩ hw
        exact hw
      · rintro ⟨⟩
    exact Prod.ext hends.tick hends.stored

theorem run_advances (hw : Kept w) (ops : List (Op C)) :
    ∃ w', Transition.run (step env) (some w) ops = some w' ∧ Kept w' ∧
      (w'.tick, w'.stored) = ops.foldl (advance env) (w.tick, w.stored) := by
  induction ops generalizing w with
  | nil => exact ⟨w, rfl, hw, rfl⟩
  | cons op ops ih =>
    obtain ⟨w₁, hstep, hw₁, hadvance⟩ := @step_advances C env w hw op
    obtain ⟨w₂, hrun, hw₂, hrest⟩ := ih hw₁
    refine ⟨w₂, ?_, hw₂, ?_⟩
    · rw [Transition.run_cons, hstep]
      exact hrun
    · rw [List.foldl_cons, ← hadvance, hrest]

/-- Whatever throws, a program of results reads what the same program reads of variables that hold
one of two alternatives. -/
theorem results_are_variants (env : Env C) (ops : List (Op C)) :
    ∃ w, Transition.run (step env) (some World.initial) ops = some w ∧
      (w.tick, w.variants) = ops.foldl (advance env) (0, fun _ => none) := by
  obtain ⟨w, hrun, hw, hadvances⟩ := @run_advances C env World.initial initial_kept ops
  exact ⟨w, hrun, by rw [variants_of_kept hw]; exact hadvances⟩

end Variants

end Jmpxx.Transport
