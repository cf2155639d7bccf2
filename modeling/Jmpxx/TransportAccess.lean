import Jmpxx.TransportVariants

namespace Jmpxx.Transport

open Throwing Function

variable {C : Type}

/-- `JMPXX_HARDENING_MODE`. -/
inductive Hardening where
  | none
  | fast
  | extensive
  deriving DecidableEq, Repr

/-- `JMPXX_HARDENING_FAST_ENABLED`. -/
def Hardening.fastEnabled : Hardening → Bool
  | .none => false
  | .fast | .extensive => true

inductive Accessor where
  | value
  | error
  | assumeValue
  | assumeError
  | arrow
  | star
  deriving DecidableEq, Repr

/-- `require_value`: what the process dies of. -/
def requireValue (has : Bool) : Option String :=
  if has then none else some "jmpxx::result: value accessed on a failure"

def requireError (has : Bool) : Option String :=
  if has then some "jmpxx::result: error accessed on a value" else none

namespace Accessor

/-- The alternative, as `has_` spells it. -/
def alternative : Accessor → Bool
  | .value | .assumeValue | .arrow | .star => true
  | .error | .assumeError => false

def isNarrow : Accessor → Bool
  | .assumeValue | .assumeError => true
  | .value | .error | .arrow | .star => false

def check (h : Hardening) : Accessor → Bool → Option String
  | .value | .arrow | .star => requireValue
  | .error => requireError
  | .assumeValue => fun has => if h.fastEnabled then requireValue has else none
  | .assumeError => fun has => if h.fastEnabled then requireError has else none

def complaint (a : Accessor) : String :=
  if a.alternative then "jmpxx::result: value accessed on a failure"
  else "jmpxx::result: error accessed on a value"

end Accessor

inductive Query (C : Type) where
  | hasValue (r : ℕ)
  | look (a : Accessor) (r : ℕ)
  | valueOr (moves : Bool) (r : ℕ) (alt : C)
  | errorOr (r : ℕ) (alt : C)
  | equal (r o : ℕ)
  | equalValue (r : ℕ) (v : C)
  | equalFailure (r : ℕ) (e : C)

inductive Seen (C : Type) where
  | flag (b : Bool)
  | content (c : C)

section Queries

variable (env : Env C)

/-- A new object from one alternative of `r`: of `value_or` and `error_or`, the branch that
holds. A move does not throw. -/
def taking (moves : Bool) (r : ℕ) (k : Kind) : Comp (World C) (Seen C) := do
  let o ← read (.alt (.named r)) k
  onlyIf (moves = false) (mayThrow env)
  onlyIf (moves = true) (modify fun w => w.setContent (.alt (.named r)) (env.moved o.content))
  pure (.content o.content)

/-- The other branch, `static_cast<T>(static_cast<U&&>(alt))`. -/
def casting (alt : C) : Comp (World C) (Seen C) := do
  mayThrow env
  pure (.content (env.make [alt]))

/-- `a.has_ == b && a.val_ == v`, and the like for an error. -/
def comparing [BEq C] (r : ℕ) (b : Bool) (c : C) : Comp (World C) (Seen C) := do
  let has ← getHas (.named r)
  if has = b then do
    let o ← read (.alt (.named r)) (kindOf b)
    pure (.flag (o.content == c))
  else pure (.flag false)

def Query.comp [BEq C] : Query C → Comp (World C) (Seen C)
  | .hasValue r => do
    let b ← getHas (.named r)
    pure (.flag b)
  | .look a r => do
    let o ← read (.alt (.named r)) (kindOf a.alternative)
    pure (.content o.content)
  | .valueOr moves r alt => do
    let b ← getHas (.named r)
    if b then taking env moves r .value else casting env alt
  | .errorOr r alt => do
    let b ← getHas (.named r)
    if b then casting env alt else taking env false r .error
  | .equal r o => do
    let a ← getHas (.named r)
    let b ← getHas (.named o)
    if a = b then do
      let x ← read (.alt (.named r)) (kindOf a)
      let y ← read (.alt (.named o)) (kindOf a)
      pure (.flag (x.content == y.content))
    else pure (.flag false)
  | .equalValue r v => comparing r true v
  | .equalFailure r e => comparing r false e

end Queries

/-- An operation whose references to results come from accessors, the `i`-th from `through i`;
or a query. -/
inductive Stmt (C : Type) where
  | act (op : Op C) (through : ℕ → Accessor)
  | ask (q : Query C)

def Arg.refers : Arg C → List ℕ
  | .own _ => []
  | .into r _ => [r]

/-- The results whose alternative an operation gets a reference to. -/
def Op.refers : Op C → List ℕ
  | .value _ v | .failure _ v | .assignValue _ v => v.refers
  | .inPlace _ args => args.flatMap Arg.refers
  | .assignFailure _ _ view => view.toList
  | .copy .. | .move .. | .copyAssign .. | .moveAssign .. | .destroy _ => []

/-- The accessors a statement calls, from left to right and before anything else it does. -/
def Stmt.accesses : Stmt C → List (Accessor × ℕ)
  | .act op through => op.refers.zipIdx.map fun x => (through x.2, x.1)
  | .ask (.look a r) => [(a, r)]
  | .ask _ => []

def Query.results : Query C → List ℕ
  | .hasValue r | .look _ r | .valueOr _ r _ | .errorOr r _ => [r]
  | .equalValue r _ | .equalFailure r _ => [r]
  | .equal r o => [r, o]

/-- What an accessor comes to: a reference, the end of the process, or the access of an
alternative that is not there. -/
inductive Access where
  | refers
  | dies (message : String)
  | strays
  deriving DecidableEq, Repr

def Hardening.fate (h : Hardening) (a : Accessor) : Access :=
  if a.isNarrow && !h.fastEnabled then .strays else .dies a.complaint

namespace World

def admitsStmt (w : World C) : Stmt C → Bool
  | .act op _ => w.admits op
  | .ask q => q.results.all w.isLive

def access (h : Hardening) (w : World C) (a : Accessor) (r : ℕ) : Access :=
  match w.has (.named r) with
  | none => .strays
  | some has =>
    match a.check h has with
    | some message => .dies message
    | none => if (w.find (.alt (.named r)) (kindOf a.alternative)).isSome then .refers else .strays

/-- The first accessor of a statement that does not give a reference. -/
def misled (h : Hardening) (w : World C) : List (Accessor × ℕ) → Option (Accessor × Access)
  | [] => none
  | (a, r) :: rest =>
    match w.access h a r with
    | .refers => misled h w rest
    | out => some (a, out)

end World

/-- A process that runs, with what it has seen so far; one that `fail_fast` ended at an
accessor; or one of which nothing more is known: the caller broke a precondition nothing
checks, or something happened that C++ does not define. -/
inductive Process (C : Type) where
  | running (w : World C) (seen : List (Seen C))
  | died (a : Accessor) (message : String) (seen : List (Seen C))
  | undefined

namespace Process

variable (h : Hardening) (env : Env C) [BEq C]

/-- What is left of a statement once its references are there. An exception is caught by the
program, and a query that throws shows nothing. -/
def perform (w : World C) (seen : List (Seen C)) : Stmt C → Process C
  | .act op _ =>
    match op.comp env w w with
    | (.fault, _) => .undefined
    | (_, w') => .running w' seen
  | .ask q =>
    match q.comp env w with
    | (.ok x, w') => .running w' (seen ++ [x])
    | (.thrown, w') => .running w' seen
    | (.fault, _) => .undefined

/-- A statement the program cannot write there is passed over. -/
def step : Process C → Stmt C → Process C
  | .running w seen, s =>
    if w.admitsStmt s then
      match w.misled h s.accesses with
      | some (a, .dies message) => .died a message seen
      | some (_, _) => .undefined
      | none => perform env w seen s
    else .running w seen
  | p, _ => p

def run (program : List (Stmt C)) : Process C :=
  Transition.run (step h env) (.running .initial []) program

end Process

/-- How a program ends: it ran, leaving the results there are, or it died at an accessor. -/
inductive Ending (C : Type) where
  | ran (σ : Variants C)
  | died (a : Accessor) (message : String)

/-- What a query comes to: what is seen, the results after it, whether it copies. -/
structure Answer (C : Type) where
  seen : Seen C
  done : Variants C
  copies : Bool

namespace Process

def outcome : Process C → Option (List (Seen C) × Ending C)
  | .running w seen => some (seen, .ran w.variants)
  | .died a message seen => some (seen, .died a message)
  | .undefined => none

def unchecked : Process C → Process C
  | .died a message seen => if a.isNarrow then .undefined else .died a message seen
  | p => p

end Process

namespace Variants

variable (env : Env C) [BEq C] (σ : Variants C)

def answer : Query C → Option (Answer C)
  | .hasValue r => (σ r).map fun x => ⟨.flag x.1, σ, false⟩
  | .look _ r => (σ r).map fun x => ⟨.content x.2, σ, false⟩
  | .valueOr moves r alt =>
    (σ r).map fun x =>
      if x.1 then ⟨.content x.2, if moves then spend env σ r else σ, !moves⟩
      else ⟨.content (env.make [alt]), σ, true⟩
  | .errorOr r alt =>
    (σ r).map fun x =>
      if x.1 then ⟨.content (env.make [alt]), σ, true⟩ else ⟨.content x.2, σ, true⟩
  | .equal r o => (σ r).bind fun x => (σ o).map fun y => ⟨.flag (x == y), σ, false⟩
  | .equalValue r v => (σ r).map fun x => ⟨.flag (x == (true, v)), σ, false⟩
  | .equalFailure r e => (σ r).map fun x => ⟨.flag (x == (false, e)), σ, false⟩

def isNamed : Stmt C → Bool
  | .act op _ => (effect env σ op).isSome
  | .ask q => (answer env σ q).isSome

/-- The first accessor of a statement that asks for what a result does not hold. -/
def firstWrong (s : Stmt C) : Option Accessor :=
  if isNamed env σ s then
    (s.accesses.find? fun a => (σ a.2).any fun x => x.1 != a.1.alternative).map (·.1)
  else none

/-- What a program of statements sees and how it ends, on variants: the first access of the wrong
alternative ends it before its statement does anything. A query whose copy throws shows nothing. -/
def behave (p : ℕ × Variants C) : List (Stmt C) → List (Seen C) × Ending C
  | [] => ([], .ran p.2)
  | s :: rest =>
    match firstWrong env p.2 s with
    | some a => ([], .died a a.complaint)
    | none =>
      match s with
      | .act op _ => behave (advance env p op) rest
      | .ask q =>
        match answer env p.2 q with
        | none => behave p rest
        | some x =>
          if x.copies && env.throws p.1 then behave (p.1 + 1, p.2) rest
          else
            let later := behave (p.1 + x.copies.toNat, x.done) rest
            (x.seen :: later.1, later.2)

end Variants

variable {env : Env C} {w : World C} {σ : Variants C} {t r : ℕ} {b : Bool} {c : C}

structure Holding (σ : Variants C) (t : ℕ) (w : World C) : Prop where
  kept : Kept w
  shown : Variants.Shown σ t w

namespace Holding

theorem of_kept (hw : Kept w) : Holding w.stored w.tick w := ⟨hw, Variants.shown_of_kept hw⟩

theorem stored (hw : Holding σ t w) : w.stored = σ := hw.shown.stored

theorem has (hw : Holding σ t w) (hr : σ r = some (b, c)) : w.has (.named r) = some b := by
  rw [hw.shown.has]
  simp [Variants.names, hr]

theorem find (hw : Holding σ t w) (hr : σ r = some (b, c)) :
    ∃ o, w.find (.alt (.named r)) (kindOf b) = some o ∧ o.content = c := by
  have hread : w.variants r = some (b, c) := by
    rw [Variants.variants_of_kept hw.kept, hw.stored, hr]
  rw [World.variants, hw.has hr, Option.bind_some] at hread
  obtain ⟨o, ho, hc⟩ := Option.map_eq_some_iff.mp hread
  exact ⟨o, ho, congrArg (fun x : Bool × C => x.2) hc⟩

/-- The alternative a result does not have is not there. -/
theorem find_other (hw : Holding σ t w) (hr : σ r = some (b, c)) {b' : Bool} (hb : b ≠ b') :
    w.find (.alt (.named r)) (kindOf b') = none := by
  obtain ⟨o, ho, -⟩ := hw.find hr
  rw [World.find, Option.filter_eq_some_iff] at ho
  rw [World.find, ho.1]
  have hkind : o.kind = kindOf b := by simpa using ho.2
  cases b <;> cases b' <;> simp_all [kindOf]

theorem tick (hw : Holding σ t w) : Holding σ (t + 1) { w with tick := w.tick + 1 } := by
  refine ⟨?_, hw.shown.content, hw.shown.has, congrArg (· + 1) hw.shown.tick⟩
  obtain ⟨f, h, hat, hf⟩ := hw.kept
  have hs := hat.sound
  exact ⟨f, h, ⟨⟨hs.live, hs.distinct, hs.accounted, hs.once, hs.issued⟩, hat.tag, hat.has⟩, hf⟩

theorem spend (hw : Holding σ t w) (hr : σ r = some (b, c)) :
    Holding (Variants.spend env σ r) t (w.setContent (.alt (.named r)) (env.moved c)) := by
  refine ⟨?_, ?_⟩
  · obtain ⟨f, h, hat, hf⟩ := hw.kept
    exact ⟨f, h, hat.setContent _ _, hf⟩
  · rw [Variants.Shown, Variants.names_spend, Variants.spend, hr, Variants.views_update]
    exact Is.setContent hw.shown (by simp [Variants.views, hr])

end Holding

section Reading

variable {α : Type} {Q : α → World C → Prop} {R : World C → Prop}

theorem getHas_holding {k : Bool → Comp (World C) α} (hr : σ r = some (b, c))
    (hk : Triple (Holding σ t) (k b) Q R) : Triple (Holding σ t) (getHas (.named r) >>= k) Q R := by
  apply Triple.bind (Triple.require fun w hw => hw.has hr)
  intro a
  refine Triple.and_pre fun ha => ?_
  rw [ha]
  exact hk

theorem read_holding {k : Obj C → Comp (World C) α} (hr : σ r = some (b, c))
    (hk : ∀ o, o.content = c → Triple (Holding σ t) (k o) Q R) :
    Triple (Holding σ t) (read (.alt (.named r)) (kindOf b) >>= k) Q R := by
  have hread : Triple (Holding σ t) (read (.alt (.named r)) (kindOf b))
      (fun o w => o.content = c ∧ Holding σ t w) R := by
    intro w hw
    obtain ⟨o, ho, hc⟩ := hw.find hr
    simp only [read, require, ho]
    exact ⟨hc, hw⟩
  exact Triple.bind hread fun o => Triple.and_pre (hk o)

theorem mayThrow_holding :
    Triple (Holding σ t) (mayThrow env) (fun _ w => env.throws t = false ∧ Holding σ (t + 1) w)
      (fun w => env.throws t = true ∧ Holding σ (t + 1) w) := by
  intro w hw
  simp only [mayThrow, hw.shown.tick]
  split_ifs with hn
  · exact ⟨hn, hw.shown.tick ▸ hw.tick⟩
  · exact ⟨by simpa using hn, hw.shown.tick ▸ hw.tick⟩

end Reading

def Replies (env : Env C) (t : ℕ) (x : Answer C) (s : Seen C) (w : World C) : Prop :=
  s = x.seen ∧ (x.copies && env.throws t) = false ∧ Holding x.done (t + x.copies.toNat) w

def Throws (env : Env C) (σ : Variants C) (t : ℕ) (x : Answer C) (w : World C) : Prop :=
  (x.copies && env.throws t) = true ∧ Holding σ (t + 1) w

namespace Variants

section Answers

variable {x : Answer C} {q : Query C}

theorem taking_holding (moves : Bool) (hr : σ r = some (b, c)) :
    Triple (Holding σ t) (taking env moves r (kindOf b))
      (Replies env t ⟨.content c, if moves then spend env σ r else σ, !moves⟩)
      (Throws env σ t ⟨.content c, if moves then spend env σ r else σ, !moves⟩) := by
  refine read_holding hr fun o ho => ?_
  cases moves with
  | false =>
    have hcopy : Triple (Holding σ t) (mayThrow env)
        (fun _ w => env.throws t = false ∧ Holding σ (t + 1) w)
        (Throws env σ t ⟨.content c, σ, true⟩) :=
      mayThrow_holding.conseq (fun _ hw => hw) (fun _ _ hw => hw) fun _ hw => hw
    refine Triple.bind (Triple.onlyIf (fun _ => hcopy) fun h => absurd rfl h) fun _ => ?_
    exact Triple.pure _ fun w hw => ⟨congrArg Seen.content ho, hw.1, hw.2⟩
  | true =>
    have hmove : Triple (Holding σ t)
        (modify fun w => w.setContent (.alt (.named r)) (env.moved o.content))
        (fun _ => Holding (spend env σ r) t)
        (Throws env σ t ⟨.content c, spend env σ r, false⟩) :=
      Triple.modify fun w hw => by rw [ho]; exact hw.spend hr
    have hkeep : Triple (Holding σ t) (onlyIf (true = false) (mayThrow env))
        (fun _ => Holding σ t) (Throws env σ t ⟨.content c, spend env σ r, false⟩) :=
      Triple.onlyIf (fun h => nomatch h) fun _ _ hw => hw
    refine Triple.bind hkeep fun _ => ?_
    refine Triple.bind (Triple.onlyIf (fun _ => hmove) fun h => absurd rfl h) fun _ => ?_
    exact Triple.pure _ fun w hw => ⟨congrArg Seen.content ho, rfl, hw⟩

theorem casting_holding (alt : C) :
    Triple (Holding σ t) (casting env alt) (Replies env t ⟨.content (env.make [alt]), σ, true⟩)
      (Throws env σ t ⟨.content (env.make [alt]), σ, true⟩) :=
  Triple.bind (mayThrow_holding.conseq (fun _ hw => hw) (fun _ _ hw => hw) fun _ hw => hw)
    fun _ => Triple.pure _ fun _ hw => ⟨rfl, hw⟩

theorem beq_tagged [BEq C] (b b' : Bool) (c c' : C) :
    ((b, c) == (b', c')) = (b == b' && c == c') := rfl

theorem comparing_holding [BEq C] {R : World C → Prop} {b' : Bool} (c' : C)
    (hr : σ r = some (b, c)) :
    Triple (Holding σ t) (comparing r b' c')
      (Replies env t ⟨.flag ((b, c) == (b', c')), σ, false⟩) R := by
  refine getHas_holding hr ?_
  by_cases hb : b = b'
  · rw [if_pos hb, ← hb]
    refine read_holding hr fun o ho => Triple.pure _ fun w hw =>
      ⟨congrArg Seen.flag ?_, rfl, hw⟩
    rw [beq_tagged, ho]
    simp
  · rw [if_neg hb]
    refine Triple.pure _ fun w hw => ⟨congrArg Seen.flag ?_, rfl, hw⟩
    rw [beq_tagged]
    simp [hb]

/-- A query that asks for what there is gets the answer of the variants, and may throw only
where it copies. -/
theorem query_answers [BEq C] (hx : answer env σ q = some x)
    (hright : firstWrong env σ (.ask q) = none) :
    Triple (Holding σ t) (q.comp env) (Replies env t x) (Throws env σ t x) := by
  cases q with
  | hasValue r =>
    obtain ⟨⟨b, c⟩, hr, rfl⟩ := Option.map_eq_some_iff.mp hx
    exact getHas_holding hr (Triple.pure _ fun w hw => ⟨rfl, rfl, hw⟩)
  | look a r =>
    have hnamed : isNamed env σ (.ask (.look a r)) = true := by rw [isNamed, hx]; rfl
    obtain ⟨⟨b, c⟩, hr, rfl⟩ := Option.map_eq_some_iff.mp hx
    have hb : b = a.alternative := by
      rw [firstWrong, if_pos hnamed] at hright
      simpa [Stmt.accesses, hr] using hright
    rw [hb] at hr
    exact read_holding hr fun o ho => Triple.pure _ fun w hw =>
      ⟨congrArg Seen.content ho, rfl, hw⟩
  | valueOr moves r alt =>
    obtain ⟨⟨b, c⟩, hr, rfl⟩ := Option.map_eq_some_iff.mp hx
    refine getHas_holding hr ?_
    cases b
    · exact casting_holding alt
    · exact taking_holding moves hr
  | errorOr r alt =>
    obtain ⟨⟨b, c⟩, hr, rfl⟩ := Option.map_eq_some_iff.mp hx
    refine getHas_holding hr ?_
    cases b
    · exact taking_holding false hr
    · exact casting_holding alt
  | equal r o =>
    obtain ⟨⟨b, c⟩, hr, hrest⟩ := Option.bind_eq_some_iff.mp hx
    obtain ⟨⟨b', c'⟩, ho, rfl⟩ := Option.map_eq_some_iff.mp hrest
    refine getHas_holding hr (getHas_holding ho ?_)
    by_cases hb : b = b'
    · rw [if_pos hb]
      refine read_holding hr fun x hx => ?_
      rw [hb]
      refine read_holding ho fun y hy => Triple.pure _ fun w hw =>
        ⟨congrArg Seen.flag ?_, rfl, hw⟩
      rw [beq_tagged, hx, hy]
      simp
    · rw [if_neg hb]
      refine Triple.pure _ fun w hw => ⟨congrArg Seen.flag ?_, rfl, hw⟩
      rw [beq_tagged]
      simp [hb]
  | equalValue r v =>
    obtain ⟨⟨b, c⟩, hr, rfl⟩ := Option.map_eq_some_iff.mp hx
    exact comparing_holding v hr
  | equalFailure r e =>
    obtain ⟨⟨b, c⟩, hr, rfl⟩ := Option.map_eq_some_iff.mp hx
    exact comparing_holding e hr

end Answers

section Statements

theorem refers_live {op : Op C} (hop : (effect env σ op).isSome) :
    ∀ r ∈ op.refers, (σ r).isSome := by
  have harg : ∀ a : Arg C, (readArg env σ a).isSome → ∀ r ∈ a.refers, (σ r).isSome := by
    intro a ha r hr
    cases a with
    | own c => cases hr
    | into r' moved =>
      obtain rfl := List.mem_singleton.mp hr
      simpa [readArg] using ha
  cases op with
  | value r v | failure r v =>
    simp only [effect, isSome_ifFree, isSome_made, List.all_cons, List.all_nil, Bool.and_true,
      Bool.and_eq_true] at hop
    exact harg v hop.2
  | assignValue r v =>
    rw [effect, isSome_ifLive fun _ => isSome_made _ _ _] at hop
    simp only [List.all_cons, List.all_nil, Bool.and_true, Bool.and_eq_true] at hop
    exact harg v hop.2
  | inPlace r args =>
    simp only [effect, isSome_ifFree, isSome_made, Bool.and_eq_true, List.all_eq_true] at hop
    intro r hr
    obtain ⟨a, ha, hr⟩ := List.mem_flatMap.mp hr
    exact harg a (hop.2 a ha) r hr
  | assignFailure r content view =>
    rw [effect, isSome_ifLive fun _ => isSome_made _ _ _] at hop
    simp only [List.all_cons, List.all_nil, Bool.and_true, Bool.and_eq_true] at hop
    cases view with
    | none => simp [Op.refers]
    | some o => exact harg (.into o false) hop.2
  | copy r o => simp [Op.refers]
  | move r o => simp [Op.refers]
  | copyAssign r o => simp [Op.refers]
  | moveAssign r o => simp [Op.refers]
  | destroy r => simp [Op.refers]

theorem access_eq (hw : Holding σ t w) (hr : σ r = some (b, c)) (h : Hardening) (a : Accessor) :
    w.access h a r =
      if b = a.alternative then .refers else h.fate a := by
  rw [World.access, hw.has hr]
  by_cases hb : b = a.alternative
  · obtain ⟨o, ho, -⟩ := hw.find hr
    rw [if_pos hb, ← hb, ho]
    have hcheck : a.check h b = none := by
      rw [hb]
      cases a <;> simp [Accessor.check, requireValue, requireError, Accessor.alternative]
    simp [hcheck]
  · rw [if_neg hb, hw.find_other hr hb]
    have hb' : b = !a.alternative := by
      cases b <;> cases ha : a.alternative <;> simp_all
    have hcheck : a.check h b =
        if a.isNarrow && !h.fastEnabled then none else some a.complaint := by
      rw [hb']
      cases a <;> cases h <;> rfl
    dsimp only
    rw [hcheck, Hardening.fate]
    cases a.isNarrow && !h.fastEnabled
    · rfl
    · rfl

theorem misled_eq (hw : Holding σ t w) (h : Hardening) {accesses : List (Accessor × ℕ)}
    (hlive : ∀ a ∈ accesses, (σ a.2).isSome) :
    w.misled h accesses =
      ((accesses.find? fun a => (σ a.2).any fun x => x.1 != a.1.alternative).map (·.1)).map
        fun a => (a, h.fate a) := by
  induction accesses with
  | nil => rfl
  | cons a rest ih =>
    obtain ⟨a, r⟩ := a
    obtain ⟨⟨b, c⟩, hr⟩ := Option.isSome_iff_exists.mp (hlive (a, r) List.mem_cons_self)
    have hrest := ih fun a ha => hlive a (List.mem_cons_of_mem _ ha)
    rw [World.misled, access_eq hw hr h a, List.find?_cons]
    by_cases hb : b = a.alternative
    · simp [hb, hr, hrest]
    · have hne : (b != a.alternative) = true := by simp [hb]
      rw [if_neg hb]
      simp only [hr, Option.any_some, hne, Option.map_some, Hardening.fate]
      cases a.isNarrow && !h.fastEnabled
      · rfl
      · rfl

variable [BEq C]

/-- The accessors of a statement that can be written are called on results there are. -/
theorem accesses_live {s : Stmt C} (hs : isNamed env σ s = true) :
    ∀ a ∈ s.accesses, (σ a.2).isSome := by
  intro a ha
  cases s with
  | act op through =>
    obtain ⟨x, hx, rfl⟩ := List.mem_map.mp ha
    exact refers_live hs _ (List.fst_mem_of_mem_zipIdx hx)
  | ask q =>
    cases q with
    | look a' r =>
      obtain rfl := List.mem_singleton.mp ha
      simpa [isNamed, answer] using hs
    | hasValue r => cases ha
    | valueOr moves r alt => cases ha
    | errorOr r alt => cases ha
    | equal r o => cases ha
    | equalValue r v => cases ha
    | equalFailure r e => cases ha

theorem admitsStmt_eq (env : Env C) (hw : Holding σ t w) (s : Stmt C) :
    w.admitsStmt s = isNamed env σ s := by
  have hlive := hw.shown.isLive
  cases s with
  | act op through => exact hw.shown.admits op
  | ask q =>
    cases q <;> simp [World.admitsStmt, isNamed, answer, Query.results, hlive]
    case equal r o => cases σ r <;> simp

end Statements

section Steps

variable [BEq C] {h : Hardening} {seen : List (Seen C)} {s : Stmt C}

/-- What a statement that nothing is wrong with makes of the process is what it makes of the
variants. -/
theorem perform_behaves (hw : Kept w) (hs : isNamed env w.stored s = true)
    (hright : firstWrong env w.stored s = none) :
    ∃ w' more, Process.perform env w seen s = .running w' (seen ++ more) ∧ Kept w' ∧
      ∀ rest, behave env (w.tick, w.stored) (s :: rest) =
        (more ++ (behave env (w'.tick, w'.stored) rest).1,
          (behave env (w'.tick, w'.stored) rest).2) := by
  have hhold := Holding.of_kept hw
  cases s with
  | act op through =>
    obtain ⟨w', hstep, hw', hadvances⟩ := @step_advances C env w hw op
    have hadmits := @Shown.admits C env w _ _ hhold.shown op
    rw [isNamed] at hs
    rw [Transport.step, Option.bind_some, if_pos (hadmits.trans hs)] at hstep
    refine ⟨w', [], ?_, hw', fun rest => ?_⟩
    · rw [Process.perform, List.append_nil]
      revert hstep
      rcases op.comp env w w with ⟨_ | _ | _, w''⟩
      · rintro ⟨⟩
        rfl
      · rintro ⟨⟩
        rfl
      · rintro ⟨⟩
    · rw [behave]
      simp only [hright, ← hadvances]
      rfl
  | ask q =>
    obtain ⟨x, hx⟩ := Option.isSome_iff_exists.mp hs
    have hspec := query_answers hx hright w hhold
    have hbehave : ∀ rest, behave env (w.tick, w.stored) (.ask q :: rest) =
        if x.copies && env.throws w.tick then behave env (w.tick + 1, w.stored) rest
        else
          let later := behave env (w.tick + x.copies.toNat, x.done) rest
          (x.seen :: later.1, later.2) := by
      intro rest
      rw [behave]
      simp only [hright, hx]
    rw [Process.perform]
    revert hspec
    rcases q.comp env w with ⟨y | _ | _, w'⟩
    · rintro ⟨rfl, hquiet, hw'⟩
      refine ⟨w', [x.seen], rfl, hw'.kept, fun rest => ?_⟩
      rw [hbehave, if_neg (by simp [hquiet]), hw'.stored, hw'.shown.tick]
      rfl
    · rintro ⟨hthrows, hw'⟩
      refine ⟨w', [], by rw [List.append_nil], hw'.kept, fun rest => ?_⟩
      rw [hbehave, if_pos hthrows, hw'.stored, hw'.shown.tick]
      rfl
    · exact False.elim

/-- Every step, in terms of the variants: hardening shows only where something is wrong. -/
theorem step_eq (hw : Kept w) (h : Hardening) (seen : List (Seen C)) (s : Stmt C) :
    Process.step h env (.running w seen) s =
      match isNamed env w.stored s, firstWrong env w.stored s with
      | true, some a =>
        if a.isNarrow && !h.fastEnabled then .undefined else .died a a.complaint seen
      | true, none => Process.perform env w seen s
      | false, _ => .running w seen := by
  have hhold := Holding.of_kept hw
  rw [Process.step, admitsStmt_eq env hhold s, firstWrong]
  cases hs : isNamed env w.stored s with
  | false => rfl
  | true =>
    simp only [if_true, misled_eq hhold h (accesses_live hs)]
    generalize (s.accesses.find? fun a => (w.stored a.2).any fun x => x.1 != a.1.alternative).map
      (·.1) = wrong
    cases wrong with
    | none => rfl
    | some a =>
      simp only [Option.map_some, Hardening.fate]
      cases a.isNarrow && !h.fastEnabled
      · rfl
      · rfl

theorem run_died (h : Hardening) (a : Accessor) (message : String) (program : List (Stmt C)) :
    Transition.run (Process.step h env) (.died a message seen) program = .died a message seen := by
  induction program with
  | nil => rfl
  | cons s program ih => exact ih

theorem run_undefined (h : Hardening) (program : List (Stmt C)) :
    Transition.run (Process.step h env) .undefined program = .undefined := by
  induction program with
  | nil => rfl
  | cons s program ih => exact ih

theorem run_behaves (hh : h.fastEnabled = true) (hw : Kept w) (program : List (Stmt C)) :
    (Transition.run (Process.step h env) (.running w seen) program).outcome =
      some (seen ++ (behave env (w.tick, w.stored) program).1,
        (behave env (w.tick, w.stored) program).2) := by
  induction program generalizing w seen with
  | nil =>
    rw [behave, List.append_nil, ← variants_of_kept hw]
    rfl
  | cons s program ih =>
    rw [Transition.run_cons, step_eq hw]
    cases hs : isNamed env w.stored s with
    | false =>
      have hnone : firstWrong env w.stored s = none := by simp [firstWrong, hs]
      have hpassed : behave env (w.tick, w.stored) (s :: program) =
          behave env (w.tick, w.stored) program := by
        cases s with
        | act op through =>
          have heffect : effect env w.stored op = none := by simpa [isNamed] using hs
          rw [behave]
          simp only [hnone, advance, heffect, Option.elim_none]
        | ask q =>
          have hanswer : answer env w.stored q = none := by simpa [isNamed] using hs
          rw [behave]
          simp only [hnone, hanswer]
      rw [hpassed]
      exact ih hw
    | true =>
      cases hwrong : firstWrong env w.stored s with
      | some a =>
        rw [behave.eq_def]
        simp only [hh, hwrong, Bool.not_true, Bool.and_false, Bool.false_eq_true, if_false, run_died,
          List.append_nil]
        rfl
      | none =>
        obtain ⟨w', more, hperform, hw', hbehave⟩ :=
          @perform_behaves C env w _ seen s hw hs hwrong
        rw [hbehave]
        simp only [hperform, ih hw', List.append_assoc]

/-- Without hardening everything happens as with it, up to the first narrow access of the wrong
alternative. -/
theorem run_unchecked (hw : Kept w) (program : List (Stmt C)) :
    Transition.run (Process.step .none env) (.running w seen) program =
      (Transition.run (Process.step .fast env) (.running w seen) program).unchecked := by
  induction program generalizing w seen with
  | nil => rfl
  | cons s program ih =>
    rw [Transition.run_cons, Transition.run_cons, step_eq hw, step_eq hw]
    cases hs : isNamed env w.stored s with
    | false => exact ih hw
    | true =>
      cases hwrong : firstWrong env w.stored s with
      | some a =>
        cases hnarrow : a.isNarrow
        · simp [hnarrow, Hardening.fastEnabled, run_died, Process.unchecked]
        · simp [hnarrow, Hardening.fastEnabled, run_died, run_undefined, Process.unchecked]
      | none =>
        obtain ⟨w', more, hperform, hw', -⟩ := @perform_behaves C env w _ seen s hw hs hwrong
        simp only [hperform]
        exact ih hw'

/-- In a hardened build every program of results behaves as one of tagged values, whatever throws:
nothing in it is undefined, and the first access of the wrong alternative ends it, told which,
before its statement has done anything. An unhardened build does the same, except that it is
undefined where that access is a narrow one. -/
theorem hardened_results_are_checked (env : Env C) (program : List (Stmt C)) :
    (∀ h : Hardening, h.fastEnabled = true →
      (Process.run h env program).outcome = some (behave env (0, fun _ => none) program)) ∧
    Process.run .none env program = (Process.run .fast env program).unchecked := by
  refine ⟨fun h hh => ?_, run_unchecked initial_kept program⟩
  exact run_behaves hh initial_kept program

/-- A result moved from keeps its alternative, and asking it for the other one ends the
process. -/
theorem hardened_results_are_checked_moved :
    let env : Env ℕ :=
      ⟨fun _ => false, fun _ => 0, fun _ => 0, fun cs => cs.headD 0, false, false, false, false⟩
    let program : List (Stmt ℕ) := [.act (.value 0 (.own 7)) fun _ => .value,
      .act (.failure 1 (.into 0 true)) fun _ => .star, .ask (.valueOr false 1 9),
      .ask (.look .assumeError 1), .ask (.equal 0 1), .ask (.look .assumeError 0),
      .ask (.hasValue 0)]
    (Process.run .extensive env program).outcome = some (behave env (0, fun _ => none) program) ∧
      behave env (0, fun _ => none) program =
        ([.content 9, .content 7, .flag false],
          .died .assumeError "jmpxx::result: error accessed on a value") := by
  intro env program
  exact ⟨(hardened_results_are_checked env program).1 .extensive rfl, rfl⟩

end Steps

end Variants

end Jmpxx.Transport
