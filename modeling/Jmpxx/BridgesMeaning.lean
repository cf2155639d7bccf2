import Jmpxx.Bridges

namespace Jmpxx.Bridges

open Propagation (Result Conversion World Event Auto Hook Nested visible)
open Exec

variable {A O S D R R' Th α β : Type} {ι : Type} {ε : ι → Type} {X : Type} {s : Style ι}
  {T U E E' : Type} {t u : ι}

def exitOf : (s : Style ι) → Outcome (s.Failure ε X) T → Exit (s.Returned ε T) (Thrown ε X)
  | .results t, .ok v => .returned (.value v : Result T (ε t))
  | .results t, .failed e => .returned (.error e : Result T (ε t))
  | .expects t, .ok v => .returned (.value v : Expected T (ε t))
  | .expects t, .failed e => .returned (.unexpected e : Expected T (ε t))
  | .optional, .ok v => .returned (some v)
  | .optional, .failed _ => .returned none
  | .throwing, .ok v => .returned v
  | .throwing, .failed x => .thrown x
  | _, .terminated => .terminated

/-- `m` ends as `flow`, adds `l` to the log, and without hops leaves the store alone. -/
def Runs (hook : Hook S D) (m : Exec A O S D R Th α) (w : World A O S D) (flow : Flow R Th α)
    (l : List (Event A (Auto O S))) : Prop :=
  ∃ d, m w = (flow, ⟨w.log ++ l, d⟩) ∧ (hook.enabled = false → d = w.diagnostics)

section Runs

variable {hook : Hook S D} {m : Exec A O S D R Th α} {w : World A O S D} {flow : Flow R Th α}
  {l l' : List (Event A (Auto O S))}

theorem Runs.pure (a : α) : Runs hook (Pure.pure a : Exec A O S D R Th α) w (.next a) [] :=
  ⟨w.diagnostics, by rw [List.append_nil]; rfl, fun _ => rfl⟩

theorem Runs.ret (r : R) : Runs hook (Exec.ret r : Exec A O S D R Th α) w (.exit (.returned r)) [] :=
  ⟨w.diagnostics, by rw [List.append_nil]; rfl, fun _ => rfl⟩

theorem Runs.raise (x : Th) :
    Runs hook (Exec.raise x : Exec A O S D R Th α) w (.exit (.thrown x)) [] :=
  ⟨w.diagnostics, by rw [List.append_nil]; rfl, fun _ => rfl⟩

theorem Runs.emit (ev : Event A (Auto O S)) :
    Runs hook (Exec.emit ev : Exec A O S D R Th Unit) w (.next ()) [ev] :=
  ⟨w.diagnostics, rfl, fun _ => rfl⟩

theorem Runs.hop (e : E) (site : S) :
    Runs hook (Bridges.hop hook e site : Exec A O S D R Th Unit) w (.next ()) [] := by
  cases hon : hook.enabled with
  | false =>
    refine ⟨w.diagnostics, ?_, fun _ => rfl⟩
    simp [Bridges.hop, hon]
  | true =>
    refine ⟨hook.note E e site w.diagnostics, ?_, fun hoff => by simp [hon] at hoff⟩
    simp [Bridges.hop, hon]

theorem Runs.bind {f : α → Exec A O S D R Th β} {a : α} {flow : Flow R Th β}
    (h : Runs hook m w (.next a) l) (hf : ∀ w', Runs hook (f a) w' flow l') :
    Runs hook (m >>= f) w flow (l ++ l') := by
  obtain ⟨d, hm, hd⟩ := h
  obtain ⟨d', hf', hd'⟩ := hf ⟨w.log ++ l, d⟩
  refine ⟨d', ?_, fun hoff => (hd' hoff).trans (hd hoff)⟩
  have hbind : (m >>= f) w = f a ⟨w.log ++ l, d⟩ := by simp only [Bind.bind, hm]
  rw [hbind, ← List.append_assoc]
  exact hf'

theorem Runs.bind_exit {f : α → Exec A O S D R Th β} {e : Exit R Th}
    (h : Runs hook m w (.exit e) l) : Runs hook (m >>= f) w (.exit e) l := by
  obtain ⟨d, hm, hd⟩ := h
  exact ⟨d, by simp only [Bind.bind, hm], hd⟩

/-- The events of an object around a statement. -/
def around (x : Auto O S) (flow : Flow R Th α) (l : List (Event A (Auto O S))) :
    List (Event A (Auto O S)) :=
  .constructed x :: (if flow.unwinds then l ++ [.destroyed x] else l)

theorem Runs.scope (x : Auto O S) (h : ∀ w', Runs hook m w' flow l) :
    Runs hook (Exec.scope x m) w flow (around x flow l) := by
  obtain ⟨d, hm, hd⟩ := h { w with log := w.log ++ [.constructed x] }
  refine ⟨d, ?_, hd⟩
  simp only [Exec.scope, hm, around]
  split_ifs
  · simp
  · simp

theorem Runs.call {m : Exec A O S D R' Th Unit} {e : Exit R' Th} (h : Runs hook m w (.exit e) l) :
    Runs hook (Exec.call m : Exec A O S D R Th R') w (landed e) l := by
  obtain ⟨d, hm, hd⟩ := h
  exact ⟨d, by simp only [Exec.call, hm], hd⟩

theorem Runs.tryCatch_thrown {handler : Th → Exec A O S D R Th α} {x : Th}
    (h : Runs hook m w (.exit (.thrown x)) l) (hh : ∀ w', Runs hook (handler x) w' flow l') :
    Runs hook (Exec.tryCatch m handler) w flow (l ++ l') := by
  obtain ⟨d, hm, hd⟩ := h
  obtain ⟨d', hh', hd'⟩ := hh ⟨w.log ++ l, d⟩
  refine ⟨d', ?_, fun hoff => (hd' hoff).trans (hd hoff)⟩
  simp only [Exec.tryCatch, hm]
  rw [← List.append_assoc]
  exact hh'

theorem Runs.tryCatch {handler : Th → Exec A O S D R Th α} (h : Runs hook m w flow l)
    (hx : ∀ x, flow ≠ .exit (.thrown x)) : Runs hook (Exec.tryCatch m handler) w flow l := by
  obtain ⟨d, hm, hd⟩ := h
  refine ⟨d, ?_, hd⟩
  unfold Exec.tryCatch
  rw [hm]
  split
  next x _ heq => exact absurd (congrArg Prod.fst heq) (hx x)
  next heq => exact heq.symm

theorem Runs.noexcept {flow' : Flow R Th α} (h : Runs hook m w flow l)
    (hf : flow.contained = flow') : Runs hook (Exec.noexcept m) w flow' l := by
  obtain ⟨d, hm, hd⟩ := h
  refine ⟨d, ?_, hd⟩
  rw [← hf]
  simp only [Exec.noexcept, hm]

end Runs

theorem unwinds_exitOf (o : Outcome (s.Failure ε X) T) :
    (Flow.exit (exitOf s o) : Flow (s.Returned ε T) (Thrown ε X) α).unwinds = true ↔
      o ≠ .terminated := by
  cases s <;> cases o <;> simp [exitOf, Flow.unwinds]

section Around

variable {x : Auto O S} {flow : Flow R Th α} {l : List (Event A (Auto O S))}

theorem nested_around (hf : flow.unwinds = true) (h : Nested l) : Nested (around x flow l) := by
  rw [around, if_pos hf]
  exact h.bracket x

theorem visible_around_temp (site : S) :
    (around (.temp site) flow l).filterMap visible = l.filterMap visible := by
  rw [around]
  split_ifs
  · simp [visible, List.filterMap_cons]
  · simp [visible, List.filterMap_cons]

theorem visible_around_name (site : S) :
    (around (.name site) flow l).filterMap visible = l.filterMap visible := by
  rw [around]
  split_ifs
  · simp [visible, List.filterMap_cons]
  · simp [visible, List.filterMap_cons]

end Around

theorem bracket_outcome (x : O) (m : Seen A O E T) : (Seen.bracket x m).outcome = m.outcome := by
  rcases m with ⟨l, _ | _ | _⟩ <;> rfl

theorem visible_around_own {l : List (Event A (Auto O S))} (x : O) (m : Seen A O (s.Failure ε X) T)
    (h : l.filterMap visible = m.log) :
    (around (.own x) (.exit (exitOf s m.outcome) : Flow _ _ Unit) l).filterMap visible =
      (Seen.bracket x m).log := by
  have hunwinds := @unwinds_exitOf Unit ι ε X s T m.outcome
  rw [around]
  rcases m with ⟨lm, v | e | _⟩
  · have hl : l.filterMap visible = lm := h
    rw [if_pos (hunwinds.mpr (by simp))]
    simp [Seen.bracket, visible, hl]
  · have hl : l.filterMap visible = lm := h
    rw [if_pos (hunwinds.mpr (by simp))]
    simp [Seen.bracket, visible, hl]
  · have hl : l.filterMap visible = lm := h
    rw [if_neg (by simp [hunwinds])]
    simp [Seen.bracket, visible, hl]

section Seen

variable {m : Seen A O E α} {f : α → Seen A O E β} {e : E} {v : α}

theorem Seen.bind_ok (h : m.outcome = .ok v) :
    (m >>= f) = ⟨m.log ++ (f v).log, (f v).outcome⟩ := by
  cases m
  cases h
  rfl

theorem Seen.bind_failed (h : m.outcome = .failed e) : (m >>= f) = ⟨m.log, .failed e⟩ := by
  cases m
  cases h
  rfl

theorem Seen.bind_terminated (h : m.outcome = .terminated) : (m >>= f) = ⟨m.log, .terminated⟩ := by
  cases m
  cases h
  rfl

variable {r : E → Seen A O E' α} {g : E → E'}

theorem Seen.recover_ok (h : m.outcome = .ok v) : m.recover r = ⟨m.log, .ok v⟩ := by
  cases m
  cases h
  rfl

theorem Seen.recover_failed (h : m.outcome = .failed e) :
    m.recover r = ⟨m.log ++ (r e).log, (r e).outcome⟩ := by
  cases m
  cases h
  rfl

theorem Seen.recover_terminated (h : m.outcome = .terminated) :
    m.recover r = ⟨m.log, .terminated⟩ := by
  cases m
  cases h
  rfl

theorem Seen.convert_log : (m.convert g).log = m.log := by
  rcases m with ⟨l, _ | _ | _⟩
  · rfl
  · exact List.append_nil l
  · rfl

theorem Seen.convert_failed (h : m.outcome = .failed e) :
    m.convert g = ⟨m.log, .failed (g e)⟩ := by
  rw [Seen.convert, Seen.recover_failed h]
  exact congrArg (Seen.mk · _) (List.append_nil _)

end Seen

/-- How the second handler ends: `make_error` may throw in turn. -/
def madeExit : Outcome (Thrown ε X) (ε t) → Exit (Result T (ε t)) (Thrown ε X)
  | .ok e => .returned (.error e)
  | .failed y => .thrown y
  | .terminated => .terminated

theorem made_log (m : Seen A O E E') : (Seen.made m : Seen A O E' T).log = m.log := by
  rcases m with ⟨l, _ | _ | _⟩ <;> rfl

theorem contained_madeExit (m : Seen A O (Thrown ε X) (ε t)) :
    (.exit (madeExit m.outcome) : Flow (Result T (ε t)) (Thrown ε X) Unit).contained =
      .exit (exitOf (.results t) (Seen.made m).outcome) := by
  rcases m with ⟨l, _ | _ | _⟩ <;> rfl

theorem made_outcome {m : Seen A O E E'} (h : m.outcome = .terminated) :
    (Seen.made m : Seen A O E' T).outcome = .terminated := by
  cases m
  cases h
  rfl

variable [DecidableEq ι]

/-- What a function does: `l`, whatever the hook, with its objects nested unless the process
ends, and to the program the same as its reference. -/
structure Meets (D : Type) (f : Fn ε X A O S s T) (l : List (Event A (Auto O S))) : Prop where
  runs : ∀ (hook : Hook S D) w,
    Runs hook (f.exec hook) w (.exit (exitOf s f.reference.outcome)) l
  nested : f.reference.outcome ≠ .terminated → Nested l
  visible : l.filterMap visible = f.reference.log

section Meets

variable {l l' : List (Event A (Auto O S))} {callee : Fn ε X A O S s U}

theorem Meets.call (h : Meets D callee l) {o : Outcome (s.Failure ε X) U}
    (ho : callee.reference.outcome = o) (hook : Hook S D) (w : World A O S D) :
    Runs hook (Exec.call (callee.exec hook) : Exec A O S D R (Thrown ε X) _) w
      (landed (exitOf s o)) l :=
  ho ▸ Runs.call (h.runs hook w)

theorem Meets.own {f : Fn ε X A O S s T} (h : Meets D f l) (x : O) :
    ∃ l, Meets D (.own x f) l := by
  have hout : (Fn.own x f).reference.outcome = f.reference.outcome := bracket_outcome x f.reference
  let flow : Flow (s.Returned ε T) (Thrown ε X) Unit := .exit (exitOf s f.reference.outcome)
  refine ⟨around (.own x) flow l, fun hook w => ?_, fun ho => ?_, ?_⟩
  · rw [hout]
    exact Runs.scope _ fun w' => h.runs hook w'
  · rw [hout] at ho
    exact nested_around ((unwinds_exitOf _).mpr ho) (h.nested ho)
  · exact visible_around_own x f.reference h.visible

theorem Meets.step {f : Fn ε X A O S s T} (h : Meets D f l) (a : A) :
    Meets D (.step a f) (.step a :: l) := by
  refine ⟨fun hook w => ?_, fun ho => (h.nested ho).step a, ?_⟩
  · exact Runs.bind (Runs.emit _) fun w' => h.runs hook w'
  · rw [List.filterMap_cons]
    exact congrArg (Event.step a :: ·) h.visible

/-- A callee that ends the process ends its caller. -/
theorem Meets.runs_terminated (h : Meets D callee l) (ho : callee.reference.outcome = .terminated)
    (k : s.Returned ε U → Exec A O S D R (Thrown ε X) α) (hook : Hook S D) (w : World A O S D) :
    Runs hook (Exec.call (callee.exec hook) >>= k) w (.exit .terminated) l := by
  have hcall := h.call (R := R) ho hook w
  cases s <;> exact Runs.bind_exit hcall

/-- A caller that ends with its callee. -/
theorem Meets.of_callee {s' : Style ι} {f : Fn ε X A O S s' T} (h : Meets D callee l)
    (hlog : f.reference.log = callee.reference.log)
    (hterm : callee.reference.outcome = .terminated → f.reference.outcome = .terminated)
    (hruns : ∀ (hook : Hook S D) w,
      Runs hook (f.exec hook) w (.exit (exitOf s' f.reference.outcome)) l) : Meets D f l := by
  refine ⟨hruns, fun ho => h.nested fun hc => ho (hterm hc), ?_⟩
  rw [hlog]
  exact h.visible

/-- A caller that goes on after its callee. -/
theorem Meets.of_rest {s' : Style ι} {f rest : Fn ε X A O S s' T} (h : Meets D callee l)
    (hok : callee.reference.outcome ≠ .terminated)
    (hr : Meets D rest l')
    (href : f.reference = ⟨callee.reference.log ++ rest.reference.log, rest.reference.outcome⟩)
    (hruns : ∀ (hook : Hook S D) w,
      Runs hook (f.exec hook) w (.exit (exitOf s' rest.reference.outcome)) (l ++ l')) :
    Meets D f (l ++ l') := by
  refine ⟨fun hook w => ?_, fun ho => ?_, ?_⟩
  · rw [href]
    exact hruns hook w
  · rw [href] at ho
    exact (h.nested hok).append (hr.nested ho)
  · rw [List.filterMap_append, h.visible, hr.visible, href]

theorem Meets.callThen {callee : Fn ε X A O S .throwing U} {rest : U → Fn ε X A O S .throwing T}
    (h : Meets D callee l) (hr : ∀ v, ∃ l, Meets D (rest v) l) :
    ∃ l, Meets D (.call callee rest) l := by
  have href : (Fn.call callee rest).reference =
      callee.reference >>= fun v => (rest v).reference := rfl
  cases ho : callee.reference.outcome with
  | ok v =>
    obtain ⟨l', hl'⟩ := hr v
    refine ⟨l ++ l', h.of_rest (by simp [ho]) hl' (href.trans (Seen.bind_ok ho)) fun hook w => ?_⟩
    exact Runs.bind (h.call ho hook w) fun w' => hl'.runs hook w'
  | failed x =>
    rw [Seen.bind_failed ho] at href
    refine ⟨l, h.of_callee (by rw [href]) (by simp [ho]) fun hook w => ?_⟩
    rw [href]
    exact Runs.bind_exit (h.call ho hook w)
  | terminated =>
    rw [Seen.bind_terminated ho] at href
    refine ⟨l, h.of_callee (by rw [href]) (by simp [href]) fun hook w => ?_⟩
    rw [href]
    exact h.runs_terminated ho _ hook w

theorem Meets.whenExpected {callee : Fn ε X A O S (.expects t) U}
    {rest : U → Fn ε X A O S (.expects t) T} (h : Meets D callee l)
    (hr : ∀ v, ∃ l, Meets D (rest v) l) : ∃ l, Meets D (.whenExpected callee rest) l := by
  have href : (Fn.whenExpected callee rest).reference =
      callee.reference >>= fun v => (rest v).reference := rfl
  cases ho : callee.reference.outcome with
  | ok v =>
    obtain ⟨l', hl'⟩ := hr v
    refine ⟨l ++ l', h.of_rest (by simp [ho]) hl' (href.trans (Seen.bind_ok ho)) fun hook w => ?_⟩
    exact Runs.bind (h.call ho hook w) fun w' => hl'.runs hook w'
  | failed e =>
    rw [Seen.bind_failed ho] at href
    refine ⟨l, h.of_callee (by rw [href]) (by simp [ho]) fun hook w => ?_⟩
    rw [href, ← List.append_nil l]
    exact Runs.bind (h.call ho hook w) fun w' => Runs.ret _
  | terminated =>
    rw [Seen.bind_terminated ho] at href
    refine ⟨l, h.of_callee (by rw [href]) (by simp [href]) fun hook w => ?_⟩
    rw [href]
    exact h.runs_terminated ho _ hook w

theorem Meets.tryName {callee : Fn ε X A O S (.results u) U}
    {rest : U → Fn ε X A O S (.results t) T} (h : Meets D callee l)
    (hr : ∀ v, ∃ l, Meets D (rest v) l) (site : S) (c : Conversion (ε u) (ε t)) :
    ∃ l, Meets D (.tryName site c callee rest) l := by
  have href : (Fn.tryName site c callee rest).reference =
      Seen.convert c.apply callee.reference >>= fun v => (rest v).reference := rfl
  cases ho : callee.reference.outcome with
  | ok v =>
    obtain ⟨l', hl'⟩ := hr v
    -- the result and the variable bound to its value both live to the end of the block
    let flow : Flow (Result T (ε t)) (Thrown ε X) Unit :=
      .exit (exitOf (.results t) (rest v).reference.outcome)
    let block := around (.temp site) flow (around (.name site) flow l')
    have hconvert : (Seen.convert c.apply callee.reference) = ⟨callee.reference.log, .ok v⟩ :=
      Seen.recover_ok ho
    rw [hconvert] at href
    refine ⟨l ++ block, fun hook w => ?_, fun hn => ?_, ?_⟩
    · rw [href]
      apply Runs.bind (h.call ho hook w)
      intro _
      apply Runs.scope
      intro _
      apply Runs.bind (Runs.pure v)
      intro _
      exact Runs.scope _ fun w' => hl'.runs hook w'
    · rw [href] at hn
      have hunwinds := (@unwinds_exitOf Unit ι ε X (.results t) T _).mpr hn
      exact (h.nested (by simp [ho])).append (nested_around hunwinds
        (nested_around hunwinds (hl'.nested hn)))
    · rw [List.filterMap_append, visible_around_temp, visible_around_name, h.visible, hl'.visible,
        href]
      rfl
  | failed e =>
    rw [Seen.bind_failed (congrArg Seen.outcome (Seen.convert_failed ho)), Seen.convert_log] at href
    let left : Flow (Result T (ε t)) (Thrown ε X) Unit := .exit (.returned (.error (c.apply e)))
    refine ⟨l ++ around (.temp site) left [], fun hook w => ?_, fun hn => ?_, ?_⟩
    · rw [href]
      apply Runs.bind (h.call ho hook w)
      intro _
      apply Runs.scope
      intro _
      show Runs hook _ _ _ ([] ++ ([] ++ ([] ++ [])))
      apply Runs.bind (Runs.pure e)
      intro _
      apply Runs.bind (Runs.hop e site)
      intro _
      apply Runs.bind (Runs.pure e)
      intro _
      exact Runs.ret _
    · exact (h.nested (by simp [ho])).append (nested_around rfl .nil)
    · rw [List.filterMap_append, visible_around_temp, h.visible, href]
      exact List.append_nil _
  | terminated =>
    have hconvert : (Seen.convert c.apply callee.reference) = ⟨callee.reference.log, .terminated⟩ :=
      Seen.recover_terminated ho
    rw [hconvert] at href
    have hend : (Fn.tryName site c callee rest).reference = ⟨callee.reference.log, .terminated⟩ :=
      href
    refine ⟨l, h.of_callee (by rw [hend]) (by simp [hend]) fun hook w => ?_⟩
    rw [hend]
    exact h.runs_terminated ho _ hook w

theorem Meets.handle {callee : Fn ε X A O S .throwing T}
    {handler : Thrown ε X → Fn ε X A O S .throwing T} (h : Meets D callee l)
    (hh : ∀ x, ∃ l, Meets D (handler x) l) : ∃ l, Meets D (.handle callee handler) l := by
  have href : (Fn.handle callee handler).reference =
      Seen.recover callee.reference fun x => (handler x).reference := rfl
  cases ho : callee.reference.outcome with
  | ok v =>
    rw [Seen.recover_ok ho] at href
    refine ⟨l, h.of_callee (by rw [href]) (by simp [ho]) fun hook w => ?_⟩
    rw [href, ← List.append_nil l]
    exact Runs.tryCatch (Runs.bind (h.call ho hook w) fun _ => Runs.ret v) (by simp [exitOf])
  | failed x =>
    obtain ⟨l', hl'⟩ := hh x
    refine ⟨l ++ l', h.of_rest (by simp [ho]) hl' (href.trans (Seen.recover_failed ho))
      fun hook w => ?_⟩
    exact Runs.tryCatch_thrown (Runs.bind_exit (h.call ho hook w)) fun w' => hl'.runs hook w'
  | terminated =>
    rw [Seen.recover_terminated ho] at href
    refine ⟨l, h.of_callee (by rw [href]) (by simp [href]) fun hook w => ?_⟩
    rw [href]
    exact Runs.tryCatch (h.runs_terminated ho _ hook w) (by simp [exitOf])

theorem Meets.valueOrThrow {callee : Fn ε X A O S (.results t) T} (h : Meets D callee l) :
    Meets D (.valueOrThrow callee) l := by
  have href : (Fn.valueOrThrow callee).reference = Seen.convert (.carrier t) callee.reference := rfl
  refine h.of_callee (by rw [href, Seen.convert_log]) (fun ho => ?_) fun hook w => ?_
  · rw [href, Seen.convert, Seen.recover_terminated ho]
  cases ho : callee.reference.outcome with
  | ok v =>
    rw [href, Seen.convert, Seen.recover_ok ho, ← List.append_nil l]
    exact Runs.bind (h.call ho hook w) fun _ => Runs.ret v
  | failed e =>
    rw [href, Seen.convert_failed ho, ← List.append_nil l]
    exact Runs.bind (h.call ho hook w) fun _ => Runs.raise _
  | terminated =>
    rw [href, Seen.convert, Seen.recover_terminated ho]
    exact h.runs_terminated ho _ hook w

theorem Meets.makes {makeError : Fn ε X A O S .throwing (ε t)} (hm : Meets D makeError l')
    {x : Thrown ε X} (hx : x.as t = none) (hook : Hook S D) (w : World A O S D) :
    Runs hook (caught t (Exec.call (makeError.exec hook)) x) w
      (.exit (madeExit makeError.reference.outcome) : Flow (Result T (ε t)) _ Unit) l' := by
  rw [caught, hx]
  cases ho : makeError.reference.outcome with
  | ok e =>
    rw [← List.append_nil l']
    exact Runs.bind (hm.call ho hook w) fun _ => Runs.ret _
  | failed y => exact Runs.bind_exit (hm.call ho hook w)
  | terminated => exact hm.runs_terminated ho _ hook w

theorem Meets.catchIntoResult {callee : Fn ε X A O S .throwing T}
    {makeError : Fn ε X A O S .throwing (ε t)} (h : Meets D callee l) (hm : Meets D makeError l') :
    ∃ l, Meets D (.catchIntoResult callee makeError) l := by
  have href : (Fn.catchIntoResult callee makeError).reference =
      Seen.recover callee.reference (Seen.caught t (Seen.made makeError.reference)) := rfl
  cases ho : callee.reference.outcome with
  | ok v =>
    rw [Seen.recover_ok ho] at href
    refine ⟨l, h.of_callee (by rw [href]) (by simp [ho]) fun hook w => ?_⟩
    rw [href, ← List.append_nil l]
    have hbody : Runs hook
        (Exec.call (callee.exec hook) >>= fun v => Exec.ret (Result.value v : Result T (ε t))) w
        (.exit (.returned (.value v)) : Flow _ (Thrown ε X) Unit) (l ++ []) :=
      Runs.bind (h.call ho hook w) fun _ => Runs.ret _
    exact Runs.noexcept (Runs.tryCatch hbody (by simp)) rfl
  | failed x =>
    rw [Seen.recover_failed ho] at href
    cases hx : x.as t with
    | some e =>
      rw [Seen.caught, hx] at href
      refine ⟨l, h.of_callee (by rw [href]; exact List.append_nil _) (by simp [ho]) fun hook w => ?_⟩
      rw [href, ← List.append_nil l]
      have hcaught : ∀ w', Runs hook (caught t (Exec.call (makeError.exec hook)) x) w'
          (.exit (.returned (.error e : Result T (ε t)))) [] := by
        intro w'
        rw [caught, hx]
        exact Runs.ret _
      exact Runs.noexcept (Runs.tryCatch_thrown (Runs.bind_exit (h.call ho hook w)) hcaught) rfl
    | none =>
      rw [Seen.caught, hx] at href
      refine ⟨l ++ l', fun hook w => ?_, fun hn => ?_, ?_⟩
      · rw [href]
        exact Runs.noexcept (Runs.tryCatch_thrown (Runs.bind_exit (h.call ho hook w))
          fun w' => hm.makes hx hook w') (contained_madeExit _)
      · refine (h.nested (by simp [ho])).append (hm.nested fun hterm => hn ?_)
        rw [href]
        exact made_outcome hterm
      · rw [List.filterMap_append, h.visible, hm.visible, href]
        exact congrArg (callee.reference.log ++ ·) (made_log _).symm
  | terminated =>
    rw [Seen.recover_terminated ho] at href
    refine ⟨l, h.of_callee (by rw [href]) (by simp [href]) fun hook w => ?_⟩
    rw [href]
    exact Runs.noexcept (Runs.tryCatch (h.runs_terminated ho _ hook w) (by simp)) rfl

theorem Meets.toExpected {callee : Fn ε X A O S (.results t) T} (h : Meets D callee l) :
    Meets D (.toExpected callee) l := by
  refine h.of_callee rfl id fun hook w => ?_
  show Runs hook _ _ (.exit (exitOf (.expects t) callee.reference.outcome)) _
  cases ho : callee.reference.outcome with
  | ok v =>
    rw [← List.append_nil l]
    exact Runs.bind (h.call ho hook w) fun _ => Runs.ret _
  | failed e =>
    rw [← List.append_nil l]
    exact Runs.bind (h.call ho hook w) fun _ => Runs.ret _
  | terminated => exact h.runs_terminated ho _ hook w

theorem Meets.fromExpected {callee : Fn ε X A O S (.expects t) T} (h : Meets D callee l) :
    Meets D (.fromExpected callee) l := by
  refine h.of_callee rfl id fun hook w => ?_
  show Runs hook _ _ (.exit (exitOf (.results t) callee.reference.outcome)) _
  cases ho : callee.reference.outcome with
  | ok v =>
    rw [← List.append_nil l]
    exact Runs.bind (h.call ho hook w) fun _ => Runs.ret _
  | failed e =>
    rw [← List.append_nil l]
    exact Runs.bind (h.call ho hook w) fun _ => Runs.ret _
  | terminated => exact h.runs_terminated ho _ hook w

theorem Meets.fromOptional {callee : Fn ε X A O S .optional T} (h : Meets D callee l)
    (onEmpty : ε t) : Meets D (.fromOptional callee onEmpty : Fn ε X A O S (.results t) T) l := by
  have href : (Fn.fromOptional callee onEmpty : Fn ε X A O S (.results t) T).reference =
      Seen.convert (fun _ => onEmpty) callee.reference := rfl
  refine h.of_callee (by rw [href, Seen.convert_log]) (fun ho => ?_) fun hook w => ?_
  · rw [href, Seen.convert, Seen.recover_terminated ho]
  cases ho : callee.reference.outcome with
  | ok v =>
    rw [href, Seen.convert, Seen.recover_ok ho, ← List.append_nil l]
    exact Runs.bind (h.call ho hook w) fun _ => Runs.ret _
  | failed e =>
    rw [href, Seen.convert_failed ho, ← List.append_nil l]
    exact Runs.bind (h.call ho hook w) fun _ => Runs.ret _
  | terminated =>
    rw [href, Seen.convert, Seen.recover_terminated ho]
    exact h.runs_terminated ho _ hook w

/-- A leaf ends as it says, and shows nothing. -/
theorem Meets.leaf {f : Fn ε X A O S s T} (hlog : f.reference.log = [])
    (hruns : ∀ (hook : Hook S D) w,
      Runs hook (f.exec hook) w (.exit (exitOf s f.reference.outcome)) []) : Meets D f [] :=
  ⟨hruns, fun _ => .nil, hlog.symm⟩

/-- Every function does what its reference says, by induction on the tree of calls. -/
theorem exists_meets (f : Fn ε X A O S s T) : ∃ l, Meets D f l := by
  induction f with
  | @ret s T v =>
    refine ⟨[], .leaf rfl fun hook w => ?_⟩
    cases s <;> exact Runs.ret _
  | step a rest ih =>
    obtain ⟨l, hl⟩ := ih
    exact ⟨_, hl.step a⟩
  | own x rest ih =>
    obtain ⟨l, hl⟩ := ih
    exact hl.own x
  | fail e => exact ⟨[], .leaf rfl fun _ _ => Runs.ret _⟩
  | tryName site c callee rest ihc ih =>
    obtain ⟨l, hl⟩ := ihc
    exact hl.tryName ih site c
  | unexpected e => exact ⟨[], .leaf rfl fun _ _ => Runs.ret _⟩
  | whenExpected callee rest ihc ih =>
    obtain ⟨l, hl⟩ := ihc
    exact hl.whenExpected ih
  | nullopt => exact ⟨[], .leaf rfl fun _ _ => Runs.ret _⟩
  | throw x => exact ⟨[], .leaf rfl fun _ _ => Runs.raise x⟩
  | call callee rest ihc ih =>
    obtain ⟨l, hl⟩ := ihc
    exact hl.callThen ih
  | handle callee handler ihc ih =>
    obtain ⟨l, hl⟩ := ihc
    exact hl.handle ih
  | valueOrThrow callee ih =>
    obtain ⟨l, hl⟩ := ih
    exact ⟨l, hl.valueOrThrow⟩
  | catchIntoResult callee makeError ihc ihm =>
    obtain ⟨l, hl⟩ := ihc
    obtain ⟨l', hl'⟩ := ihm
    exact hl.catchIntoResult hl'
  | toExpected callee ih =>
    obtain ⟨l, hl⟩ := ih
    exact ⟨l, hl.toExpected⟩
  | fromExpected callee ih =>
    obtain ⟨l, hl⟩ := ih
    exact ⟨l, hl.fromExpected⟩
  | fromOptional callee onEmpty ih =>
    obtain ⟨l, hl⟩ := ih
    exact ⟨l, hl.fromOptional onEmpty⟩

end Meets

/-- Whatever mixture of functions a tree of calls is, it returns and throws what the failure monad
says: a failure crosses every bridge as itself, a foreign exception becomes an error at the first
boundary around it, no exception leaves a function that returns a result, and every automatic
object is destroyed once, in reverse order, unless making an error throws and ends the process. -/
theorem bridged_call_eq_reference (f : Fn ε X A O S s T) :
    ∃ l : List (Event A (Auto O S)), l.filterMap visible = f.reference.log ∧
      (f.reference.outcome ≠ .terminated → Nested l) ∧
      ∀ (hook : Hook S D) (d : D), ∃ d',
        (Exec.call (f.exec hook) : Exec A O S D R (Thrown ε X) _) ⟨[], d⟩ =
          (landed (exitOf s f.reference.outcome), ⟨l, d'⟩) ∧
        (hook.enabled = false → d' = d) := by
  obtain ⟨l, hl⟩ := @exists_meets A O S D ι ε X s T _ f
  exact ⟨l, hl.visible, hl.nested, fun hook d => hl.call rfl hook ⟨[], d⟩⟩

/-- An `error_exception` of another error type is a foreign exception. -/
example :
    (Fn.catchIntoResult (.valueOrThrow (.fail 5 : Fn (fun _ : Bool => ℕ) ℕ ℕ ℕ Unit (.results false) ℕ))
      (.ret 9) : Fn (fun _ : Bool => ℕ) ℕ ℕ ℕ Unit (.results true) ℕ).reference = ⟨[], .failed 9⟩ :=
  rfl

end Jmpxx.Bridges
