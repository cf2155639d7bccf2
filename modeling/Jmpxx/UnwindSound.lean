import Jmpxx.UnwindLanding

namespace Jmpxx.Unwind

variable {V P : Type} {b : Backend} {th : Thread V P}

/-- What a live thread's arm promises: the flag says whether an escape is in transit, such an
escape has its scope on the active stack and stays in transit until it lands there, a handler
that gives it up ends the program, no step ends it but where `Dies` says, and an eject with
nothing in transit is under way at once and lands. -/
structure Sound (b : Backend) (th : Thread V P) : Prop where
  flag : th.inFlight = true ↔ ∃ id car, .escape id car ∈ th.items
  aimed : ∀ id car, .escape id car ∈ th.items →
    ∃ cars, Chain th.carriers th.active cars ∧ car ∈ cars
  transit : ∀ id car, .escape id car ∈ th.items →
    (∃ d, CutShort b th d ∧ (step b th).control = .dead d) ∨
      ((step b th).isDead = false ∧ .escape id car ∈ (step b th).items) ∨
        ∃ rest K err, th.stack = .scope car rest :: K ∧ (th.carriers car).error = some err ∧
          Landed rest err K (step b th)
  swallowed : th.givesUp = true → (step b th).control = .dead .swallowed
  deaths : ∀ d, (step b th).control = .dead d → Dies b th d ∧ d ≠ .undefined
  lands : ∀ tag err car, th.control = .run (.eject tag err) →
    (∀ id c, .escape id c ∉ th.items) → th.active = some car → (th.carriers car).tag = tag →
    ∃ seg rest K, th.stack = seg ++ .scope car rest :: K ∧ items seg = [] ∧
      (step b th).control = .done (.unwind (.escape th.next car)) ∧
      (step b th).stack = th.stack ∧ ∃ n, LandsAfter b n th.next car rest err K (step b th)

/-- Only the forced unwind notices that a handler gives up its escape. -/
theorem swallowed_iff (hg : th.givesUp = true) :
    (step b th).control = .dead .swallowed ↔ b.isForced = true := by
  unfold Thread.givesUp at hg
  split at hg
  next o x rest K hc hs =>
    rw [step_done hc]
    simp only [Thread.resume, hs, hg, Bool.true_and]
    cases b with
    | forced r => simp [Thread.die, Backend.isForced]
    | wasm =>
      cases o with
      | ret v => simp [Backend.isForced]
      | unwind y => simp [hc, Backend.isForced]
  next => simp at hg

theorem Flight.transit (h : Flight th.arm) (hlive : th.isDead = false)
    (hcoop : Cooperative b th) {id car : ℕ} (hx : .escape id car ∈ th.items) :
    (∃ d, CutShort b th d ∧ (step b th).control = .dead d) ∨
      ((step b th).isDead = false ∧ .escape id car ∈ (step b th).items) ∨
        ∃ rest K err, th.stack = .scope car rest :: K ∧ (th.carriers car).error = some err ∧
          Landed rest err K (step b th) := by
  obtain ⟨err, herr⟩ := Option.isSome_iff_exists.mp (h.stored hx)
  have hp : Pending id car err th.arm := ⟨hx, herr⟩
  rcases allowed_step hlive hcoop with ⟨hlive', hm⟩ | ⟨d, hc, hd⟩
  · rcases hp.move h hm with hp' | ⟨⟨hc, rest, K, hs⟩, -⟩
    · exact .inr (.inl ⟨hlive', hp'.1⟩)
    · exact .inr (.inr ⟨rest, K, err, hs, herr, step_lands hc hs herr⟩)
  · exact .inl ⟨d, h.cutShort hx hd, hc⟩

theorem Flight.deaths (h : Flight th.arm) (hlive : th.isDead = false) (hcoop : Cooperative b th)
    {d : Death} (hd : (step b th).control = .dead d) : Dies b th d ∧ d ≠ .undefined := by
  rcases allowed_step hlive hcoop with ⟨hlive', -⟩ | ⟨d', hd', hdies⟩
  · rw [isDead_of_dead hd] at hlive'
    cases hlive'
  · rw [hd] at hd'
    cases hd'
    exact ⟨hdies, h.dies_defined hdies⟩

theorem sound_of_flight (h : Flight th.arm) (hlive : th.isDead = false)
    (hcoop : CooperativeRun b th) : Sound b th where
  flag := h.flag
  aimed := by
    intro id car hx
    exact ⟨scopes th.items, h.chain, h.aimed.mem hx⟩
  transit := by
    intro id car hx
    exact h.transit hlive (hcoop 0) hx
  swallowed := by
    intro hg
    rw [swallowed_iff hg]
    cases b with
    | forced r => rfl
    | wasm =>
      have hnot : th.givesUp = false := (hcoop 0 rfl).1
      simp [hnot] at hg
  deaths := by
    intro d hd
    exact h.deaths hlive (hcoop 0) hd
  lands := by
    intro tag err car hc hfree ha ht
    have hdown : th.inFlight = false := by
      apply Bool.eq_false_iff.mpr
      intro hf
      obtain ⟨id, c, hx⟩ := h.flag.mp hf
      exact hfree id c hx
    exact eject_lands h hcoop hc hdown ha ht

def Kept (b : Backend) (th : Thread V P) : Prop :=
  Stopped th ∨ (th.isDead = false ∧ Sound b th)

theorem kept_of_cooperative {c : Code V P} (hcoop : CooperativeRun b (.initial c)) (n : ℕ) :
    Kept b ((step b)^[n] (.initial c)) := by
  rcases (flying_initial c).run hcoop n with hstop | ⟨hlive, hflight⟩
  · exact .inl hstop
  · exact .inr ⟨hlive, sound_of_flight hflight hlive (hcoop.iterate n)⟩

/-- The forced unwind asks nothing of the program. -/
theorem kept_forced (r : Bool) (c : Code V P) (n : ℕ) :
    Kept (.forced r) ((step (.forced r))^[n] (.initial c)) :=
  kept_of_cooperative (fun _ => cooperative_forced r _) n

end Jmpxx.Unwind
