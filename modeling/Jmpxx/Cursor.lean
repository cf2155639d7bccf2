import Mathlib.Data.List.Infix
import Mathlib.Data.Nat.Notation
import Mathlib.Tactic.Common

universe u v

structure Cursor (α : Type u) where
  data : List α
  base : ℕ
  pos : ℕ
  deriving DecidableEq, Repr

namespace Cursor

variable {α ε : Type u} {β γ : Type u}

def addr (c : Cursor α) : ℕ := c.base + c.pos

def unread (c : Cursor α) : List α := c.data.drop c.pos

def skip (c : Cursor α) (n : ℕ) : Cursor α := { c with pos := c.pos + n }

def At (c : Cursor α) (xs : List α) : Prop := xs <+: c.unread

@[simp] theorem skip_skip (c : Cursor α) (m n : ℕ) : (c.skip m).skip n = c.skip (m + n) := by
  simp only [skip, Nat.add_assoc]

@[simp] theorem pos_skip (c : Cursor α) (n : ℕ) : (c.skip n).pos = c.pos + n := rfl

@[simp] theorem base_skip (c : Cursor α) (n : ℕ) : (c.skip n).base = c.base := rfl

@[simp] theorem data_skip (c : Cursor α) (n : ℕ) : (c.skip n).data = c.data := rfl

@[simp] theorem addr_skip (c : Cursor α) (n : ℕ) : (c.skip n).addr = c.addr + n := by
  simp only [addr, pos_skip, base_skip, Nat.add_assoc]

theorem unread_skip (c : Cursor α) (n : ℕ) : (c.skip n).unread = c.unread.drop n := by
  rw [unread, unread, List.drop_drop, pos_skip, data_skip]

theorem At.left {c : Cursor α} {xs ys : List α} (h : c.At (xs ++ ys)) : c.At xs :=
  (List.prefix_append xs ys).trans h

theorem At.right {c : Cursor α} {xs ys : List α} (h : c.At (xs ++ ys)) :
    (c.skip xs.length).At ys := by
  obtain ⟨zs, hzs⟩ := h
  refine ⟨zs, ?_⟩
  rw [unread_skip, ← hzs, List.append_assoc, List.drop_left]

abbrev Scan (α ε : Type u) (β : Type u) := StateT (Cursor α) (Except ε) β

/-- Where the cursor is at `xs`, the computation reads just these, and answers `b`. -/
def Reads (m : Scan α ε β) (c : Cursor α) (xs : List α) (b : β) : Prop :=
  c.At xs → m c = .ok (b, c.skip xs.length)

def next (e : ε) : Scan α ε α := fun c =>
  match c.unread with
  | [] => .error e
  | x :: _ => .ok (x, c.skip 1)

def take (e : ε) (n : ℕ) : Scan α ε (List α) := fun c =>
  if c.unread.length < n then .error e else .ok (c.unread.take n, c.skip n)

def seek (pos : ℕ) : Scan α ε PUnit := modify fun c => { c with pos := pos }

namespace Reads

variable {c : Cursor α} {xs ys : List α} {b : β} {d : γ} {m : Scan α ε β} {k : β → Scan α ε γ}

protected theorem pure (b : β) : Reads (pure b : Scan α ε β) c [] b := fun _ => rfl

theorem bind (hm : Reads m c xs b) (hk : Reads (k b) (c.skip xs.length) ys d) :
    Reads (m >>= k) c (xs ++ ys) d := by
  intro h
  have hrun : (m >>= k) c = (m c >>= fun p => k p.1 p.2) := rfl
  rw [hrun, hm h.left]
  show k b (c.skip xs.length) = _
  rw [hk h.right, skip_skip, List.length_append]

theorem get {k : Cursor α → Scan α ε γ} (hk : Reads (k c) c xs d) :
    Reads (MonadState.get >>= k) c xs d := hk

theorem next (e : ε) (x : α) : Reads (Cursor.next e) c [x] x := by
  intro h
  obtain ⟨zs, hzs⟩ := h
  unfold Cursor.next
  rw [← hzs]
  rfl

theorem take (e : ε) {n : ℕ} (hn : xs.length = n) : Reads (Cursor.take e n) c xs xs := by
  intro h
  obtain ⟨zs, hzs⟩ := h
  unfold Cursor.take
  rw [← hzs, List.length_append, hn, if_neg (by omega), ← hn, List.take_left]

theorem seek {pos : ℕ} (hpos : c.pos + xs.length = pos) :
    Reads (Cursor.seek pos : Scan α ε PUnit) c xs ⟨⟩ := by
  rintro -
  rw [← hpos]
  rfl

/-- A computation that reads nothing more. -/
theorem andPure (f : β → γ) (hm : Reads m c xs b) : Reads (m >>= fun b => pure (f b)) c xs (f b) := by
  have h := hm.bind (k := fun b => pure (f b)) (Reads.pure (f b))
  rwa [List.append_nil] at h

end Reads

/-- The computation does not fail with `e`, and what it answers meets the condition. -/
def Ensures (e : ε) (m : Scan α ε β) (c : Cursor α) (post : β → Cursor α → Prop) : Prop :=
  match m c with
  | .ok (b, c') => post b c'
  | .error e' => e' ≠ e

namespace Ensures

variable {e : ε} {c : Cursor α} {b : β} {m : Scan α ε β} {k : β → Scan α ε γ}
variable {post post' : β → Cursor α → Prop} {goal : γ → Cursor α → Prop}

theorem conseq (hm : Ensures e m c post) (h : ∀ b c', post b c' → post' b c') :
    Ensures e m c post' := by
  unfold Ensures at hm ⊢
  cases hrun : m c with
  | ok p =>
    rw [hrun] at hm
    exact h p.1 p.2 hm
  | error e' =>
    rw [hrun] at hm
    exact hm

protected theorem pure (h : post b c) : Ensures e (pure b) c post := h

protected theorem throw {e' : ε} (he : e' ≠ e) : Ensures e (throw e' : Scan α ε β) c post := he

theorem bind (hm : Ensures e m c fun b c' => Ensures e (k b) c' goal) :
    Ensures e (m >>= k) c goal := by
  have hrun : (m >>= k) c = (m c >>= fun p => k p.1 p.2) := rfl
  unfold Ensures at hm ⊢
  rw [hrun]
  cases hm' : m c with
  | ok p =>
    rw [hm'] at hm
    exact hm
  | error e' =>
    rw [hm'] at hm
    exact hm

theorem get {k : Cursor α → Scan α ε γ} (hk : Ensures e (k c) c goal) :
    Ensures e (MonadState.get >>= k) c goal := hk

theorem next {e' : ε} (he : e' ≠ e) {post : α → Cursor α → Prop}
    (h : c.unread ≠ [] → ∀ x, post x (c.skip 1)) : Ensures e (Cursor.next e') c post := by
  unfold Ensures Cursor.next
  cases hunread : c.unread with
  | nil => exact he
  | cons x xs => exact h (by simp [hunread]) x

theorem take {e' : ε} (he : e' ≠ e) {n : ℕ} {post : List α → Cursor α → Prop}
    (h : ∀ xs, post xs (c.skip n)) : Ensures e (Cursor.take e' n) c post := by
  unfold Ensures Cursor.take
  split_ifs with hshort
  · exact he
  · exact h _

end Ensures

/-- `while (cond) body`, for as many turns at most; `none` breaks out of it. -/
def loop (endless : ε) (cond : Cursor α → Bool) (body : β → Scan α ε (Option β)) :
    ℕ → β → Scan α ε β
  | 0, _ => throw endless
  | turns + 1, b => do
    let c ← MonadState.get
    if cond c then
      match ← body b with
      | some b' => loop endless cond body turns b'
      | none => pure b
    else pure b

section Loop

variable {endless : ε} {cond : Cursor α → Bool} {body : β → Scan α ε (Option β)}
variable {c c' : Cursor α} {xs ys : List α} {b b' d : β} {turns : ℕ}

theorem loop_of_done (h : cond c = false) :
    loop endless cond body (turns + 1) b c = .ok (b, c) := by
  show (if cond c then _ else (pure b : Scan α ε β)) c = _
  rw [if_neg (by simp [h])]
  rfl

theorem loop_of_turn (h : cond c = true) (hbody : body b c = .ok (some b', c')) :
    loop endless cond body (turns + 1) b c = loop endless cond body turns b' c' := by
  show (if cond c then (do
      match ← body b with
      | some b' => loop endless cond body turns b'
      | none => pure b : Scan α ε β) else pure b) c = _
  rw [if_pos h]
  show (body b c >>= _) = _
  rw [hbody]
  rfl

theorem loop_of_break (h : cond c = true) (hbody : body b c = .ok (none, c')) :
    loop endless cond body (turns + 1) b c = .ok (b, c') := by
  show (if cond c then (do
      match ← body b with
      | some b' => loop endless cond body turns b'
      | none => pure b : Scan α ε β) else pure b) c = _
  rw [if_pos h]
  show (body b c >>= _) = _
  rw [hbody]
  rfl

theorem Reads.loop_done (h : cond c = false) :
    Reads (loop endless cond body (turns + 1) b) c [] b := fun _ => loop_of_done h

theorem Reads.loop_turn (h : cond c = true) (hbody : Reads (body b) c xs (some b'))
    (hrest : Reads (loop endless cond body turns b') (c.skip xs.length) ys d) :
    Reads (loop endless cond body (turns + 1) b) c (xs ++ ys) d := by
  intro hat
  rw [loop_of_turn h (hbody hat.left), hrest hat.right, skip_skip, List.length_append]

/-- A loop each turn of which reads on has turns enough, if there are more than symbols unread. -/
theorem Ensures.loop {e : ε} (hbody : ∀ b c, cond c = true →
      Ensures e (body b) c fun b' c' => b'.isSome → c'.unread.length < c.unread.length)
    (hturns : c.unread.length < turns) :
    Ensures e (Cursor.loop endless cond body turns b) c fun _ _ => True := by
  induction turns generalizing b c with
  | zero => exact absurd hturns (Nat.not_lt_zero _)
  | succ turns ih =>
    refine Ensures.get ?_
    split_ifs with hcond
    · refine ((hbody b c hcond).conseq fun b' c' hshorter => ?_).bind
      cases b' with
      | none => trivial
      | some b' => exact ih (Nat.lt_of_lt_of_le (hshorter rfl) (Nat.le_of_lt_succ hturns))
    · trivial

end Loop

end Cursor
