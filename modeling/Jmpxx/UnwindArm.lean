import Jmpxx.UnwindStack

namespace Jmpxx.Unwind

open Function (update)

variable {V P : Type}

/-- A scope that is open, or an escape aimed at one. -/
inductive Item where
  | scope (car : ℕ)
  | escape (id car : ℕ)
  deriving DecidableEq

/-- The state of the arm on a thread; what is innermost is first among the items. -/
structure Arm (P : Type) where
  items : List Item
  active : Option ℕ
  carriers : ℕ → Carrier P
  inFlight : Bool
  next : ℕ

def scopes : List Item → List ℕ
  | [] => []
  | .scope car :: r => car :: scopes r
  | .escape _ _ :: r => scopes r

@[simp] theorem scopes_nil : scopes [] = [] := rfl
@[simp] theorem scopes_scope (car : ℕ) (r : List Item) :
    scopes (.scope car :: r) = car :: scopes r := rfl
@[simp] theorem scopes_escape (id car : ℕ) (r : List Item) :
    scopes (.escape id car :: r) = scopes r := rfl

theorem scopes_append (l r : List Item) : scopes (l ++ r) = scopes l ++ scopes r := by
  induction l with
  | nil => rfl
  | cons x l ih =>
    cases x with
    | scope car => exact congrArg (car :: ·) ih
    | escape id car => exact ih

/-- Following `prev` from `active` visits exactly these carriers. -/
def Chain (carriers : ℕ → Carrier P) : Option ℕ → List ℕ → Prop
  | active, [] => active = none
  | active, car :: cars => active = some car ∧ Chain carriers (carriers car).prev cars

/-- The chain reads nothing but the `prev` of its carriers. -/
theorem Chain.congr {carriers carriers' : ℕ → Carrier P} {active : Option ℕ} {cars : List ℕ}
    (h : Chain carriers active cars) (hp : ∀ car ∈ cars, (carriers' car).prev = (carriers car).prev) :
    Chain carriers' active cars := by
  induction cars generalizing active with
  | nil => exact h
  | cons car cars ih =>
    refine ⟨h.1, ?_⟩
    rw [hp car (List.mem_cons_self ..)]
    exact ih h.2 fun c hc => hp c (List.mem_cons_of_mem _ hc)

theorem Chain.head {carriers : ℕ → Carrier P} {active : Option ℕ} {cars : List ℕ}
    (h : Chain carriers active cars) : active = cars.head? := by
  cases cars with
  | nil => exact h
  | cons car cars => exact h.1

/-- Every escape has its target among the scopes below it. -/
def Aimed : List Item → Prop
  | [] => True
  | .scope _ :: r => Aimed r
  | .escape _ car :: r => car ∈ scopes r ∧ Aimed r

theorem Aimed.tail {x : Item} {r : List Item} (h : Aimed (x :: r)) : Aimed r := by
  cases x with
  | scope car => exact h
  | escape id car => exact h.2

theorem Aimed.of_append {l r : List Item} (h : Aimed (l ++ r)) : Aimed r := by
  induction l with
  | nil => exact h
  | cons x l ih => exact ih h.tail

theorem Aimed.mem {l : List Item} (h : Aimed l) {id car : ℕ} (hx : .escape id car ∈ l) :
    car ∈ scopes l := by
  induction l with
  | nil => simp at hx
  | cons x l ih =>
    cases x with
    | scope c =>
      have hx' : Item.escape id car ∈ l := by simpa using hx
      exact List.mem_cons_of_mem _ (ih h hx')
    | escape i c =>
      rcases List.mem_cons.mp hx with heq | hx'
      · cases heq
        exact h.1
      · exact ih h.2 hx'

theorem Aimed.erase {l r : List Item} {id car : ℕ} (h : Aimed (l ++ .escape id car :: r)) :
    Aimed (l ++ r) := by
  induction l with
  | nil => exact h.2
  | cons x l ih =>
    cases x with
    | scope c => exact ih h
    | escape i c =>
      refine ⟨?_, ih h.2⟩
      have hc : c ∈ scopes (l ++ .escape id car :: r) := h.1
      show c ∈ scopes (l ++ r)
      rwa [scopes_append, scopes_escape, ← scopes_append] at hc

/-- What may happen to the arm of a thread. The two moves on a second hold of an escape are made
by handlers only, and an escape lands where it has arrived. -/
inductive Move (handles : Prop) (arrived : ℕ → ℕ → Prop) (a : Arm P) : Arm P → Prop where
  | quiet (next : ℕ) (hn : a.next ≤ next) : Move handles arrived a { a with next }
  | enter (tag : ℕ) : Move handles arrived a
      { items := .scope a.next :: a.items
        active := some a.next
        carriers := update a.carriers a.next ⟨a.active, tag, false, none⟩
        inFlight := a.inFlight
        next := a.next + 1 }
  | eject (car : ℕ) (err : P) (ha : a.active = some car) (hf : a.inFlight = false) :
      Move handles arrived a
        { items := .escape a.next car :: a.items
          active := a.active
          carriers := update a.carriers car
            { a.carriers car with error := some err, ejected := true }
          inFlight := true
          next := a.next + 1 }
  | again (id car : ℕ) (hh : handles) (hx : .escape id car ∈ a.items) :
      Move handles arrived a { a with items := .escape id car :: a.items }
  | release (l r : List Item) (id car : ℕ) (hh : handles)
      (hi : a.items = l ++ .escape id car :: r) (hx : .escape id car ∈ l ++ r) :
      Move handles arrived a { a with items := l ++ r }
  | leave (car : ℕ) (r : List Item) (hi : a.items = .scope car :: r) :
      Move handles arrived a { a with items := r, active := (a.carriers car).prev }
  | pass (id target car : ℕ) (r : List Item)
      (hi : a.items = .escape id target :: .scope car :: r) (hne : target ≠ car) :
      Move handles arrived a
        { a with items := .escape id target :: r, active := (a.carriers car).prev }
  | land (id car : ℕ) (r : List Item) (ha : arrived id car)
      (hi : a.items = .escape id car :: .scope car :: r) :
      Move handles arrived a
        { a with items := r, active := (a.carriers car).prev, inFlight := false }

/-- The flag is up exactly while an escape is in transit, there is only one, its scope is open
and holds its error, and `active` is the stack of the open scopes. -/
structure Flight (a : Arm P) : Prop where
  chain : Chain a.carriers a.active (scopes a.items)
  lt : ∀ car ∈ scopes a.items, car < a.next
  nodup : (scopes a.items).Nodup
  aimed : Aimed a.items
  flag : a.inFlight = true ↔ ∃ id car, .escape id car ∈ a.items
  unique : ∀ {id car id' car'}, .escape id car ∈ a.items → .escape id' car' ∈ a.items →
    id = id' ∧ car = car'
  ejected : ∀ car ∈ scopes a.items, (a.carriers car).ejected = true →
    ∃ id, .escape id car ∈ a.items
  stored : ∀ {id car}, .escape id car ∈ a.items → (a.carriers car).error.isSome = true

namespace Flight

variable {a a' : Arm P} {handles : Prop} {arrived : ℕ → ℕ → Prop}

theorem target_lt (h : Flight a) {id car : ℕ} (hx : .escape id car ∈ a.items) :
    car < a.next := h.lt car (h.aimed.mem hx)

theorem not_inFlight (h : Flight a) (hf : a.inFlight = false) (id car : ℕ) :
    .escape id car ∉ a.items := by
  intro hx
  have := h.flag.mpr ⟨id, car, hx⟩
  simp [hf] at this

/-- An escape that arrives at its scope is the only hold on it. -/
theorem only (h : Flight a) {id car : ℕ} {r : List Item}
    (hi : a.items = .escape id car :: .scope car :: r) (i c : ℕ) : .escape i c ∉ r := by
  intro hx
  have haimed := h.aimed
  have hnodup := h.nodup
  have hmem : Item.escape id car ∈ a.items := by simp [hi]
  have hmem' : Item.escape i c ∈ a.items := by simp [hi, hx]
  have hsame := h.unique hmem hmem'
  rw [hi] at haimed hnodup
  have hbelow : c ∈ scopes r := Aimed.mem (l := r) haimed.2 hx
  rw [← hsame.2] at hbelow
  exact (List.nodup_cons.mp hnodup).1 hbelow

theorem enter (h : Flight a) (tag : ℕ) : Flight
    { items := .scope a.next :: a.items
      active := some a.next
      carriers := update a.carriers a.next ⟨a.active, tag, false, none⟩
      inFlight := a.inFlight
      next := a.next + 1 : Arm P } := by
  have hnew : a.next ∉ scopes a.items := fun hmem => lt_irrefl _ (h.lt _ hmem)
  have hx : ∀ id car, .escape id car ∈ Item.scope a.next :: a.items ↔
      .escape id car ∈ a.items := by simp
  refine ⟨⟨rfl, ?_⟩, ?_, List.nodup_cons.mpr ⟨hnew, h.nodup⟩, h.aimed, ?_, ?_, ?_, ?_⟩
  · simp only [Function.update_self]
    apply h.chain.congr
    intro car hcar
    rw [Function.update_of_ne (h.lt car hcar).ne]
  · intro car hcar
    rcases List.mem_cons.mp hcar with rfl | hcar
    · exact Nat.lt_succ_self _
    · exact (h.lt car hcar).trans (Nat.lt_succ_self _)
  · simp only [hx]
    exact h.flag
  · intro id car id' car' hc hc'
    exact h.unique ((hx id car).mp hc) ((hx id' car').mp hc')
  · intro car hcar hej
    dsimp only at hej
    rcases List.mem_cons.mp hcar with rfl | hcar
    · simp at hej
    · rw [Function.update_of_ne (h.lt car hcar).ne] at hej
      simp only [hx]
      exact h.ejected car hcar hej
  · intro id car hc
    dsimp only
    rw [Function.update_of_ne (h.target_lt ((hx id car).mp hc)).ne]
    exact h.stored ((hx id car).mp hc)

theorem eject (h : Flight a) {car : ℕ} (err : P) (ha : a.active = some car)
    (hf : a.inFlight = false) : Flight
    { items := .escape a.next car :: a.items
      active := a.active
      carriers := update a.carriers car { a.carriers car with error := some err, ejected := true }
      inFlight := true
      next := a.next + 1 : Arm P } := by
  -- nothing is in transit, so the new escape is the only one
  have hnone := h.not_inFlight hf
  have hcar : car ∈ scopes a.items := by
    have hhead := h.chain.head
    rw [ha] at hhead
    exact List.mem_of_mem_head? hhead.symm
  have only : ∀ {i c}, .escape i c ∈ Item.escape a.next car :: a.items → i = a.next ∧ c = car := by
    intro i c hx
    rcases List.mem_cons.mp hx with heq | hx
    · cases heq
      exact ⟨rfl, rfl⟩
    · exact absurd hx (hnone i c)
  refine ⟨?_, ?_, h.nodup, ⟨hcar, h.aimed⟩, ?_, ?_, ?_, ?_⟩
  · apply h.chain.congr
    intro c hc
    by_cases hcc : c = car
    · subst hcc
      simp
    · dsimp only
      rw [Function.update_of_ne hcc]
  · intro c hc
    exact (h.lt c hc).trans (Nat.lt_succ_self _)
  · simp only [true_iff]
    exact ⟨a.next, car, List.mem_cons_self ..⟩
  · intro i c i' c' hx hx'
    rw [(only hx).1, (only hx).2, (only hx').1, (only hx').2]
    exact ⟨rfl, rfl⟩
  · intro c hc hej
    by_cases hcc : c = car
    · subst hcc
      exact ⟨a.next, List.mem_cons_self ..⟩
    · dsimp only at hej
      rw [Function.update_of_ne hcc] at hej
      obtain ⟨id, hid⟩ := h.ejected c hc hej
      exact absurd hid (hnone id c)
  · intro i c hx
    rw [(only hx).2]
    simp

/-- The items may be held once more or once less, as long as they stay the same set. -/
theorem items_congr (h : Flight a) {l : List Item} (hs : scopes l = scopes a.items)
    (haimed : Aimed l) (hl : ∀ id car, .escape id car ∈ l ↔ .escape id car ∈ a.items) :
    Flight { a with items := l } where
  chain := by rw [hs]; exact h.chain
  lt := by rw [hs]; exact h.lt
  nodup := by rw [hs]; exact h.nodup
  aimed := haimed
  flag := by simp only [hl]; exact h.flag
  unique := by
    intro id car id' car' hx hx'
    exact h.unique ((hl id car).mp hx) ((hl id' car').mp hx')
  ejected := by
    intro car hcar hej
    rw [hs] at hcar
    obtain ⟨id, hid⟩ := h.ejected car hcar hej
    exact ⟨id, (hl id car).mpr hid⟩
  stored := by
    intro id car hx
    exact h.stored ((hl id car).mp hx)

/-- The innermost scope goes and every escape stays. -/
theorem drop (h : Flight a) {car : ℕ} {l : List Item} (hs : scopes a.items = car :: scopes l)
    (haimed : Aimed l) (hl : ∀ id c, .escape id c ∈ l ↔ .escape id c ∈ a.items) :
    Flight { a with items := l, active := (a.carriers car).prev } := by
  have hmem : ∀ c ∈ scopes l, c ∈ scopes a.items := by
    intro c hc
    rw [hs]
    exact List.mem_cons_of_mem _ hc
  have hchain := h.chain
  have hnodup := h.nodup
  rw [hs] at hchain hnodup
  refine ⟨hchain.2, fun c hc => h.lt c (hmem c hc), (List.nodup_cons.mp hnodup).2, haimed,
    ?_, ?_, ?_, ?_⟩
  · simp only [hl]
    exact h.flag
  · intro id c id' c' hx hx'
    exact h.unique ((hl id c).mp hx) ((hl id' c').mp hx')
  · intro c hc hej
    obtain ⟨id, hid⟩ := h.ejected c (hmem c hc) hej
    exact ⟨id, (hl id c).mpr hid⟩
  · intro id c hx
    exact h.stored ((hl id c).mp hx)

theorem land (h : Flight a) {id car : ℕ} {r : List Item}
    (hi : a.items = .escape id car :: .scope car :: r) :
    Flight { a with items := r, active := (a.carriers car).prev, inFlight := false } := by
  have hnone := h.only hi
  have hchain := h.chain
  have hnodup := h.nodup
  have haimed := h.aimed
  rw [hi] at hchain hnodup haimed
  have hmem : ∀ c ∈ scopes r, c ∈ scopes a.items := by
    intro c hc
    simp [hi, hc]
  refine ⟨hchain.2, fun c hc => h.lt c (hmem c hc), (List.nodup_cons.mp hnodup).2, haimed.2,
    ?_, ?_, ?_, ?_⟩
  · simp only [Bool.false_eq_true, false_iff, not_exists]
    exact hnone
  · intro i c i' c' hx
    exact absurd hx (hnone i c)
  · intro c hc hej
    -- the escape aimed at `c` would be the one that lands, and its scope is not below itself
    obtain ⟨i, hx⟩ := h.ejected c (hmem c hc) hej
    have hmem' : Item.escape id car ∈ a.items := by simp [hi]
    have hsame := h.unique hx hmem'
    rw [hsame.2] at hc
    exact absurd hc (List.nodup_cons.mp hnodup).1
  · intro i c hx
    exact absurd hx (hnone i c)

/-- Every move keeps the flag and the scopes in step. -/
theorem move (h : Flight a) (hm : Move handles arrived a a') : Flight a' := by
  cases hm with
  | quiet next hn => exact { h with lt := fun car hcar => (h.lt car hcar).trans_le hn }
  | enter tag => exact h.enter tag
  | eject car err ha hf => exact h.eject err ha hf
  | again id car hh hx =>
    refine h.items_congr rfl ⟨h.aimed.mem hx, h.aimed⟩ ?_
    intro i c
    simp only [List.mem_cons, or_iff_right_iff_imp]
    intro heq
    rwa [heq]
  -- the escape is still held once, so the set of escapes is the same
  | release l r id car hh hi hx =>
    have haimed := h.aimed
    rw [hi] at haimed
    refine h.items_congr ?_ haimed.erase ?_
    · rw [hi]
      simp only [scopes_append, scopes_escape]
    · intro i c
      rw [hi]
      simp only [List.mem_append, List.mem_cons] at hx ⊢
      constructor
      · tauto
      · rintro (hl | heq | hr)
        · exact .inl hl
        · rwa [heq]
        · exact .inr hr
  | leave car r hi =>
    have haimed := h.aimed
    rw [hi] at haimed
    refine h.drop (by rw [hi]; rfl) haimed ?_
    intro i c
    simp [hi]
  | pass id target car r hi hne =>
    have haimed := h.aimed
    rw [hi] at haimed
    refine h.drop (by rw [hi]; rfl) ⟨?_, haimed.2⟩ ?_
    · exact (List.mem_cons.mp haimed.1).resolve_left hne
    · intro i c
      simp [hi]
  | land id car r ha hi => exact h.land hi

end Flight

/-- The escape is in transit with the error it was given. -/
def Pending (id car : ℕ) (err : P) (a : Arm P) : Prop :=
  .escape id car ∈ a.items ∧ (a.carriers car).error = some err

def Over (car : ℕ) (a : Arm P) : Prop := car < a.next ∧ car ∉ scopes a.items

section
variable {a a' : Arm P} {handles : Prop} {arrived : ℕ → ℕ → Prop}
variable {id car : ℕ} {err : P}

/-- An escape in transit stays so, unless it has arrived and its scope ends. -/
theorem Pending.move (hp : Pending id car err a) (h : Flight a) (hm : Move handles arrived a a') :
    Pending id car err a' ∨ (arrived id car ∧ Over car a') := by
  obtain ⟨hx, herr⟩ := hp
  have hlt := h.target_lt hx
  cases hm with
  | quiet next hn => exact .inl ⟨hx, herr⟩
  | enter tag =>
    refine .inl ⟨List.mem_cons_of_mem _ hx, ?_⟩
    dsimp only
    rwa [Function.update_of_ne hlt.ne]
  -- no second escape starts while this one is in transit
  | eject c e ha hf => exact absurd hx (h.not_inFlight hf id car)
  | again i c hh hx' => exact .inl ⟨List.mem_cons_of_mem _ hx, herr⟩
  | release l r i c hh hi hx' =>
    refine .inl ⟨?_, herr⟩
    have hmem : Item.escape i c ∈ a.items := by simp [hi]
    have hsame := h.unique hx hmem
    rw [hsame.1, hsame.2]
    exact hx'
  | leave c r hi => exact .inl ⟨by simpa [hi] using hx, herr⟩
  | pass i t c r hi hne => exact .inl ⟨by simpa [hi] using hx, herr⟩
  | land i c r ha hi =>
    have hmem : Item.escape i c ∈ a.items := by simp [hi]
    have hsame := h.unique hx hmem
    have hnodup := h.nodup
    rw [hi, ← hsame.2] at hnodup
    rw [← hsame.1, ← hsame.2] at ha
    exact .inr ⟨ha, hlt, (List.nodup_cons.mp hnodup).1⟩

/-- A scope that is over does not come back. -/
theorem Over.move (ho : Over car a) (hm : Move handles arrived a a') : Over car a' := by
  obtain ⟨hlt, hmem⟩ := ho
  cases hm with
  | quiet next hn => exact ⟨hlt.trans_le hn, hmem⟩
  | enter tag =>
    refine ⟨hlt.trans (Nat.lt_succ_self _), ?_⟩
    simp [hmem, hlt.ne]
  | eject c e ha hf => exact ⟨hlt.trans (Nat.lt_succ_self _), hmem⟩
  | again i c hh hx => exact ⟨hlt, hmem⟩
  | release l r i c hh hi hx =>
    refine ⟨hlt, ?_⟩
    rw [hi] at hmem
    simpa only [scopes_append, scopes_escape] using hmem
  | leave c r hi =>
    rw [hi] at hmem
    exact ⟨hlt, fun hr => hmem (List.mem_cons_of_mem _ hr)⟩
  | pass i t c r hi hne =>
    rw [hi] at hmem
    exact ⟨hlt, fun hr => hmem (List.mem_cons_of_mem _ hr)⟩
  | land i c r ha hi =>
    rw [hi] at hmem
    exact ⟨hlt, fun hr => hmem (List.mem_cons_of_mem _ hr)⟩

end

def Direct : List Item → Prop
  | [] => True
  | .scope _ :: r => Direct r
  | .escape _ car :: r => (scopes r).head? = some car ∧ Direct r

/-- Without handlers no escape is held twice, and each is aimed at the innermost scope. -/
structure Straight (a : Arm P) : Prop where
  direct : Direct a.items
  nodup : a.items.Nodup

theorem mem_scopes_of_mem {l : List Item} {car : ℕ} (h : .scope car ∈ l) : car ∈ scopes l := by
  induction l with
  | nil => simp at h
  | cons x l ih =>
    cases x with
    | escape id c => exact ih (by simpa using h)
    | scope c =>
      rcases List.mem_cons.mp h with heq | h
      · cases heq
        exact List.mem_cons_self ..
      · exact List.mem_cons_of_mem _ (ih h)

theorem Straight.move {a a' : Arm P} {arrived : ℕ → ℕ → Prop} (hs : Straight a)
    (h : Flight a) (hm : Move False arrived a a') : Straight a' := by
  obtain ⟨hdirect, hnodup⟩ := hs
  cases hm with
  | quiet next hn => exact ⟨hdirect, hnodup⟩
  | enter tag =>
    refine ⟨hdirect, List.nodup_cons.mpr ⟨?_, hnodup⟩⟩
    intro hmem
    exact lt_irrefl _ (h.lt _ (mem_scopes_of_mem hmem))
  | eject car err ha hf =>
    refine ⟨⟨?_, hdirect⟩, List.nodup_cons.mpr ⟨h.not_inFlight hf _ _, hnodup⟩⟩
    rw [← h.chain.head, ha]
  | again id car hh hx => exact hh.elim
  | release l r id car hh hi hx => exact hh.elim
  | leave car r hi =>
    rw [hi] at hdirect hnodup
    exact ⟨hdirect, (List.nodup_cons.mp hnodup).2⟩
  | pass id target car r hi hne =>
    rw [hi] at hdirect
    have hcar : some car = some target := hdirect.1
    exact absurd (Option.some.inj hcar).symm hne
  | land id car r ha hi =>
    rw [hi] at hdirect hnodup
    exact ⟨hdirect.2, (List.nodup_cons.mp (List.nodup_cons.mp hnodup).2).2⟩

end Jmpxx.Unwind
