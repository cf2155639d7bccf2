import Mathlib.Data.List.AList
import Mathlib.Data.List.Sort
import Mathlib.Data.Rat.Floor
import Mathlib.Data.String.Basic

namespace Jmpxx.Acceptance

abbrev Text := List Char

abbrev Dict (α : Type) := AList fun _ : Text => α

def gates : List (Text × List Text) := [
  ("asm_golden".toList, ["codegen".toList, "release_diff".toList]),
  ("size".toList, ["size_delta".toList, "probe.size".toList]),
  ("no_alloc".toList, ["probe.alloc".toList]),
  ("compile_cost".toList, ["compile_cost".toList]),
  ("perf".toList, ["bench".toList, "unwind.benchmark".toList]),
  ("doc_claim".toList, ["doc_claim".toList]),
  ("abi_layout".toList, ["abi_layout".toList]),
  ("adversarial_fuzz".toList, ["adversarial.fuzz".toList]),
  ("differential".toList, ["adversarial.differential".toList]),
  ("exception_safety".toList, ["adversarial.exception_safety".toList]),
  ("hardening".toList, ["hardening".toList]),
  ("config_matrix".toList, ["config_matrix".toList]),
  ("memory_sanitizer".toList, ["msan".toList]),
  ("static_analysis".toList, ["static_analysis".toList]),
  ("mutation_testing".toList, ["mutation".toList]),
  ("adversarial_coverage".toList, ["adversarial.coverage".toList]),
  ("model_lifecycle".toList, ["model.lifecycle".toList]),
  ("claim_backing".toList, ["claim.audit".toList]),
  ("claim_provenance".toList, ["claim.provenance".toList]),
  ("claim_home".toList, ["claim.canonical_home".toList]),
  ("foreign_headers".toList, ["interop.foreign_headers".toList]),
  ("gate_accounting".toList, ["gate.accounting".toList]),
  ("unwind_body_frame".toList, ["unwind.body_frame".toList]),
  ("unwind_link_time".toList, ["unwind.lto".toList]),
  ("unwind_metadata".toList, ["unwind.metadata".toList]),
  ("unwind_concurrency".toList, ["unwind.concurrent".toList]),
  ("unwind_reentrancy".toList, ["unwind.reentrancy".toList]),
  ("unwind_runtime_matrix".toList, ["unwind.matrix".toList]),
  ("unwind_stress".toList, ["unwind.stress".toList]),
  ("unwind_scaling".toList, ["unwind.scale".toList])]

/-- What a gate's case count is held against. -/
inductive Figure where
  | exactly (n : ℕ)
  | atLeast (n : ℕ)
  deriving DecidableEq, Repr

def gateCases : List (Text × Figure) := [
  ("abi_layout".toList, .exactly 8),
  ("adversarial_coverage".toList, .exactly 8),
  ("adversarial_fuzz".toList, .exactly 512),
  ("asm_golden".toList, .exactly 7),
  ("compile_cost".toList, .exactly 2),
  ("config_matrix".toList, .exactly 8),
  ("differential".toList, .exactly 4096),
  ("doc_claim".toList, .exactly 26),
  ("exception_safety".toList, .exactly 7),
  ("foreign_headers".toList, .exactly 4),
  ("gate_accounting".toList, .exactly 30),
  ("hardening".toList, .exactly 10),
  ("memory_sanitizer".toList, .exactly 1),
  ("model_lifecycle".toList, .exactly 4),
  ("mutation_testing".toList, .exactly 21),
  ("no_alloc".toList, .exactly 3),
  ("perf".toList, .exactly 12),
  ("size".toList, .exactly 7),
  ("static_analysis".toList, .exactly 1),
  ("unwind_body_frame".toList, .exactly 8),
  ("unwind_concurrency".toList, .exactly 16),
  ("unwind_link_time".toList, .exactly 5),
  ("unwind_metadata".toList, .exactly 2),
  ("unwind_reentrancy".toList, .exactly 7),
  ("unwind_runtime_matrix".toList, .exactly 10),
  ("unwind_scaling".toList, .exactly 4),
  ("unwind_stress".toList, .exactly 12),
  ("claim_backing".toList, .atLeast 850),
  ("claim_provenance".toList, .atLeast 850),
  ("claim_home".toList, .atLeast 850)]

/-- A gate that cannot carry a case count, with the reason. -/
def accountingExempt : List (Text × Text) := []

def unfalsifiableDefences : List (Text × Text) := [
  ("unwind_body_frame".toList,
    ("The trampoline that keeps the escape body's objects out of the landing frame. " ++
      "The attempt: a copy of the include tree in which the trampoline is forced " ++
      "inline, which is exactly the shape the defence exists to prevent. Run at -O0 " ++
      "through -O3 on GCC 13.3.0 and Clang 18.1.3 on 2026-08-17, the escape still " ++
      "destroyed every object it constructed, so no known-bad subject exists. The " ++
      "gate re-runs the attempt on every sweep and reports if it ever reproduces.").toList)]

/-- The share of the gate set that must carry case accounting. -/
def accountingFloor : ℚ := 1

inductive Status where
  | greenWithTeeth
  | unfalsifiableDefence
  | unteethed
  | fail
  deriving DecidableEq, Repr

structure Gate where
  status : Status
  real : List Text
  teeth : List Text
  realPassed : Bool
  teethPassed : Bool
  falsificationAttempts : Option Text

def covers (prefixes : List Text) (name : Text) : Bool :=
  prefixes.any fun p => name = p || (p ++ ['.']).isPrefixOf name

def passed (results : Dict Bool) (name : Text) : Bool := (results.lookup name).getD false

/-- Each test's gate; a later gate takes a test from an earlier one. -/
def gateOf (tests : Dict Bool) : Text → Option Text :=
  gates.foldl (fun gateOf gate =>
    tests.keys.foldl (fun gateOf name =>
      if covers gate.2 name then Function.update gateOf name (some gate.1) else gateOf) gateOf)
    fun _ => none

def gateStatus (realOk teethOk : Bool) (teeth : List Text) (unfalsifiable : Text) : Status :=
  if realOk ∧ teethOk then .greenWithTeeth
  else if realOk ∧ teeth = [] ∧ unfalsifiable ≠ [] then .unfalsifiableDefence
  else if realOk ∧ teeth = [] then .unteethed
  else .fail

def classifyGate (tests results : Dict Bool) (gate : Text) (members : List Text) : Gate :=
  let real := members.filter fun n => !(tests.lookup n).getD false
  let teeth := members.filter fun n => (tests.lookup n).getD false
  let realOk := real.all (passed results)
  let teethOk := !teeth.isEmpty && teeth.all (passed results)
  let unfalsifiable := (unfalsifiableDefences.lookup gate).getD []
  { status := gateStatus realOk teethOk teeth unfalsifiable
    real := real.insertionSort (· ≤ ·)
    teeth := teeth.insertionSort (· ≤ ·)
    realPassed := realOk
    teethPassed := teethOk
    falsificationAttempts := if unfalsifiable = [] then none else some unfalsifiable }

def members (tests : Dict Bool) (gate : Text) : List Text :=
  tests.keys.filter fun n => gateOf tests n = some gate

/-- The gates that have tests, and the tests that have no gate. -/
def classify (tests results : Dict Bool) : List (Text × Gate) × List (Text × Bool) :=
  ((gates.filter fun gate => members tests gate.1 ≠ []).map fun gate =>
      (gate.1, classifyGate tests results gate.1 (members tests gate.1)),
    (tests.keys.filter fun n => gateOf tests n = none).map fun n => (n, passed results n))

structure Entry where
  testsReporting : ℕ
  tests : ℕ
  asked : ℕ
  known : ℕ
  expected : Option Figure
  exempt : Text

structure Accounting where
  perGate : List (Text × Entry)
  covered : ℕ
  total : ℕ
  share : ℚ
  floor : ℚ
  findings : List Text

def accountGate (cases : Dict (ℕ × ℕ)) (name : Text) (gate : Gate) : Entry :=
  let reported := gate.real.filterMap cases.lookup
  { testsReporting := reported.length
    tests := gate.real.length
    asked := (reported.map Prod.fst).sum
    known := (reported.map Prod.snd).sum
    expected := gateCases.lookup name
    exempt := (accountingExempt.lookup name).getD [] }

def decimal (n : ℕ) : Text := Nat.toDigits 10 n

/-- What is found wrong with a count that agrees with itself. -/
def shortfall (name : Text) (known : ℕ) : Figure → List Text
  | .atLeast floor =>
    if known < floor then
      [name ++ ": reports ".toList ++ decimal known ++ " cases, below the ".toList ++
        decimal floor ++ " recorded as its floor".toList]
    else []
  | .exactly expected =>
    if known ≠ expected then
      [name ++ ": reports ".toList ++ decimal known ++ " cases against the ".toList ++
        decimal expected ++ " recorded for it".toList]
    else []

def finding (name : Text) (entry : Entry) : List Text :=
  if entry.exempt ≠ [] then []
  else entry.expected.elim
    [name ++ ": no recorded case count and no reason it cannot carry one".toList] fun expected =>
      if entry.testsReporting = 0 then
        [name ++ (": reports no case count; a gate that does not say what it checked cannot be " ++
          "read as evidence").toList]
      else if entry.asked ≠ entry.known then
        [name ++ ": asked ".toList ++ decimal entry.asked ++ " cases and knows of ".toList ++
          decimal entry.known]
      else shortfall name entry.known expected

/-- `round(q, 3)`. -/
def roundThousandths (q : ℚ) : ℚ :=
  let n := ⌊q * 1000⌋
  let rest := q * 1000 - n
  (if rest < 1 / 2 ∨ rest = 1 / 2 ∧ n % 2 = 0 then n else n + 1 : ℤ) / 1000

def share (covered total : ℕ) : ℚ := if total = 0 then 1 else covered / total

/-- Hold each gate's reported case count against the count recorded for it. -/
def account (grouped : List (Text × Gate)) (cases : Dict (ℕ × ℕ)) : Accounting :=
  let accounting := grouped.map fun gate => (gate.1, accountGate cases gate.1 gate.2)
  let covered := accounting.countP fun e => e.2.exempt = [] ∧ e.2.testsReporting ≠ 0
  let total := accounting.length
  { perGate := accounting
    covered := covered
    total := total
    share := roundThousandths (share covered total)
    floor := accountingFloor
    findings := accounting.flatMap (fun e => finding e.1 e.2) ++
      if share covered total < accountingFloor then
        [decimal covered ++ " of ".toList ++ decimal total ++
          " gates carry case accounting, below the recorded 100%".toList]
      else [] }

structure Summary where
  testsTotal : ℕ
  testsPassed : ℕ
  ctestExit : ℤ
  gatesGreenWithTeeth : Bool
  gatesWithCaseAccounting : ℚ

inductive Verdict where
  | pass
  | fail
  deriving DecidableEq, Repr

structure Report (Cell Metrics : Type) where
  tool : Text
  schema : ℕ
  cell : Cell
  summary : Summary
  gates : List (Text × Gate)
  caseAccounting : Accounting
  tiers : List (Text × Bool)
  metrics : Metrics
  verdict : Verdict

def buildReport {Cell Metrics : Type} (tests results : Dict Bool) (ctestExit : ℤ) (cell : Cell)
    (metrics : Metrics) (cases : Option (Dict (ℕ × ℕ))) : Report Cell Metrics :=
  let grouped := (classify tests results).1
  let passedTests := tests.keys.countP (passed results)
  let gatesOk := grouped.all fun g => g.2.status = .greenWithTeeth ∨ g.2.status = .unfalsifiableDefence
  let accounting := account grouped (cases.getD ∅)
  { tool := "jmpxx-acceptance".toList
    schema := 1
    cell := cell
    summary := ⟨tests.keys.length, passedTests, ctestExit, gatesOk, accounting.share⟩
    gates := grouped
    caseAccounting := accounting
    tiers := (classify tests results).2
    metrics := metrics
    verdict := if ctestExit = 0 ∧ passedTests = tests.keys.length ∧ gatesOk ∧
      accounting.findings = [] then .pass else .fail }

/-- One name is the other, or goes on from it after a dot. -/
def Extends (p name : Text) : Prop := name = p ∨ p ++ ['.'] <+: name

instance (p name : Text) : Decidable (Extends p name) := inferInstanceAs (Decidable (_ ∨ _))

theorem covers_iff (prefixes : List Text) (name : Text) :
    covers prefixes name ↔ ∃ p ∈ prefixes, Extends p name := by
  simp [covers, Extends]

/-- Of two prefixes of one name, one extends the other. -/
theorem extends_total {p p' name : Text} (h : Extends p name) (h' : Extends p' name) :
    Extends p p' ∨ Extends p' p := by
  rcases h with rfl | h
  · exact .inr h'
  rcases h' with rfl | h'
  · exact .inl (.inr h)
  rcases Nat.lt_trichotomy p.length p'.length with hlt | heq | hgt
  · have hp' : p' <+: name := (List.prefix_append p' ['.']).trans h'
    exact .inl (.inr (List.prefix_of_prefix_length_le h hp' (by simpa using Nat.succ_le_of_lt hlt)))
  · have hp : p <+: name := (List.prefix_append p ['.']).trans h
    have hp' : p' <+: name := (List.prefix_append p' ['.']).trans h'
    exact .inl (.inl ((List.prefix_of_prefix_length_le hp hp' heq.le).eq_of_length heq).symm)
  · have hp : p <+: name := (List.prefix_append p ['.']).trans h
    exact .inr (.inr (List.prefix_of_prefix_length_le h' hp (by simpa using Nat.succ_le_of_lt hgt)))

theorem gates_apart : ∀ gate ∈ gates, ∀ gate' ∈ gates, ∀ p ∈ gate.2, ∀ p' ∈ gate'.2,
    Extends p p' → gate = gate' := by decide +kernel

theorem gate_eq_of_covers {gate gate' : Text × List Text} (hgate : gate ∈ gates)
    (hgate' : gate' ∈ gates) {name : Text} (h : covers gate.2 name) (h' : covers gate'.2 name) :
    gate = gate' := by
  obtain ⟨p, hp, hname⟩ := (covers_iff _ _).mp h
  obtain ⟨p', hp', hname'⟩ := (covers_iff _ _).mp h'
  rcases extends_total hname hname' with hext | hext
  · exact gates_apart gate hgate gate' hgate' p hp p' hp' hext
  · exact (gates_apart gate' hgate' gate hgate p' hp' p hp hext).symm

section Groups

variable {tests results : Dict Bool} {name : Text}

/-- One turn of the outer loop of `gateOf`. -/
theorem foldl_update (names prefixes : List Text) (gate : Text) (start : Text → Option Text)
    (name : Text) :
    names.foldl (fun gateOf n =>
        if covers prefixes n then Function.update gateOf n (some gate) else gateOf) start name =
      if name ∈ names ∧ covers prefixes name then some gate else start name := by
  induction names generalizing start with
  | nil => simp
  | cons n names ih =>
    rw [List.foldl_cons, ih]
    by_cases hn : name = n
    · subst hn
      by_cases hcover : covers prefixes name <;> simp [hcover]
    · by_cases hcover : covers prefixes n <;> simp [hcover, hn]

/-- The outer loop, over gates of which at most one takes the name in. -/
theorem foldl_gates (names : List Text) {table : List (Text × List Text)} {gate : Text}
    (h : ∀ g ∈ table, covers g.2 name → g.1 = gate) (start : Text → Option Text) :
    table.foldl (fun gateOf g => names.foldl (fun gateOf n =>
        if covers g.2 n then Function.update gateOf n (some g.1) else gateOf) gateOf) start name =
      if name ∈ names ∧ ∃ g ∈ table, covers g.2 name then some gate else start name := by
  induction table generalizing start with
  | nil => simp
  | cons g table ih =>
    rw [List.forall_mem_cons] at h
    rw [List.foldl_cons, ih h.2, foldl_update]
    by_cases hname : name ∈ names
    · by_cases hcover : covers g.2 name
      · simp [hname, hcover, h.1 hcover]
      · simp only [hname, hcover, true_and, List.exists_mem_cons_iff, false_or, and_false, if_false,
          Bool.false_eq_true]
    · simp [hname]

theorem gateOf_of_covers {gate : Text × List Text} (hgate : gate ∈ gates)
    (hcover : covers gate.2 name) (hname : name ∈ tests) : gateOf tests name = some gate.1 := by
  have huniq : ∀ g ∈ gates, covers g.2 name → g.1 = gate.1 := fun g hg h =>
    congrArg Prod.fst (gate_eq_of_covers hg hgate h hcover)
  rw [gateOf, foldl_gates tests.keys huniq, if_pos ⟨hname, gate, hgate, hcover⟩]

theorem gateOf_of_not_covers (h : ∀ gate ∈ gates, ¬ covers gate.2 name) :
    gateOf tests name = none := by
  have hnone : ∀ g ∈ gates, covers g.2 name → g.1 = [] := fun g hg hcover =>
    absurd hcover (h g hg)
  have hexists : ¬ ∃ g ∈ gates, covers g.2 name := by
    intro hex
    obtain ⟨g, hg, hcover⟩ := hex
    exact h g hg hcover
  rw [gateOf, foldl_gates tests.keys hnone, if_neg fun hboth => hexists hboth.2]

theorem gates_names : ∀ gate ∈ gates, ∀ gate' ∈ gates, gate.1 = gate'.1 → gate = gate' := by
  decide +kernel

/-- A gate's members are the tests its prefixes take in. -/
theorem members_eq {gate : Text × List Text} (hgate : gate ∈ gates) :
    members tests gate.1 = tests.keys.filter (covers gate.2) := by
  rw [members]
  apply List.filter_congr
  intro name hname
  by_cases hcover : covers gate.2 name
  · rw [gateOf_of_covers hgate hcover hname, hcover, decide_eq_true rfl]
  rw [Bool.not_eq_true] at hcover
  rw [hcover, decide_eq_false]
  intro h
  by_cases hex : ∃ g ∈ gates, covers g.2 name
  · obtain ⟨g, hg, hcover'⟩ := hex
    rw [gateOf_of_covers hg hcover' hname] at h
    rw [gates_names g hg gate hgate (Option.some.inj h), hcover] at hcover'
    cases hcover'
  · have hnone : ∀ gate ∈ gates, ¬ covers gate.2 name := fun g hg hcover' => hex ⟨g, hg, hcover'⟩
    rw [gateOf_of_not_covers hnone] at h
    cases h

def gateTests (tests : Dict Bool) (prefixes : List Text) (inverted : Bool) : List Text :=
  tests.keys.filter fun n => covers prefixes n ∧ tests.lookup n = some inverted

theorem filter_members {gate : Text × List Text} (hgate : gate ∈ gates) {inverted : Bool}
    {p : Text → Bool} (h : ∀ n b, tests.lookup n = some b → (p n ↔ b = inverted)) :
    (members tests gate.1).filter p = gateTests tests gate.2 inverted := by
  rw [members_eq hgate, List.filter_filter, gateTests]
  apply List.filter_congr
  intro n hn
  obtain ⟨b, hb⟩ := Option.isSome_iff_exists.mp (AList.lookup_isSome.mpr hn)
  rw [Bool.eq_iff_iff, Bool.and_eq_true, h n b hb, decide_eq_true_iff, hb, Option.some_inj]
  exact and_comm

theorem normal_members {gate : Text × List Text} (hgate : gate ∈ gates) :
    (members tests gate.1).filter (fun n => !(tests.lookup n).getD false) =
      gateTests tests gate.2 false :=
  filter_members hgate fun n b hb => by simp [hb]

theorem inverted_members {gate : Text × List Text} (hgate : gate ∈ gates) :
    (members tests gate.1).filter (fun n => (tests.lookup n).getD false) =
      gateTests tests gate.2 true :=
  filter_members hgate fun n b hb => by simp [hb]

theorem passed_iff : passed results name ↔ results.lookup name = some true := by
  unfold passed
  cases results.lookup name with
  | none => simp
  | some b => simp

end Groups

section Verdicts

variable {tests results : Dict Bool} {cases : Dict (ℕ × ℕ)} {gate : Text × List Text}

def Figure.Reached : Figure → ℕ → Prop
  | .exactly n, known => known = n
  | .atLeast n, known => n ≤ known

theorem shortfall_eq_nil_iff (name : Text) (known : ℕ) (figure : Figure) :
    shortfall name known figure = [] ↔ figure.Reached known := by
  cases figure with
  | exactly n =>
    rw [shortfall, Figure.Reached]
    split_ifs with h
    · exact iff_of_false not_false h
    · exact iff_of_true rfl (not_not.mp h)
  | atLeast n =>
    rw [shortfall, Figure.Reached]
    split_ifs with h
    · exact iff_of_false not_false (Nat.not_le.mpr h)
    · exact iff_of_true rfl (Nat.not_lt.mp h)

theorem finding_eq_nil_iff (name : Text) (entry : Entry) :
    finding name entry = [] ↔ entry.exempt ≠ [] ∨
      ∃ figure, entry.expected = some figure ∧ entry.testsReporting ≠ 0 ∧
        entry.asked = entry.known ∧ figure.Reached entry.known := by
  unfold finding
  by_cases hexempt : entry.exempt = []
  · rw [if_neg (not_not.mpr hexempt)]
    cases hexpected : entry.expected with
    | none =>
      refine iff_of_false (List.cons_ne_nil _ _) ?_
      rintro (h | ⟨figure, h, -⟩)
      · exact h hexempt
      · cases h
    | some figure =>
      have hsimp : (entry.exempt ≠ [] ∨ ∃ figure', some figure = some figure' ∧
          entry.testsReporting ≠ 0 ∧ entry.asked = entry.known ∧ figure'.Reached entry.known) ↔
          entry.testsReporting ≠ 0 ∧ entry.asked = entry.known ∧ figure.Reached entry.known := by
        simp [hexempt]
      rw [hsimp, Option.elim_some]
      split_ifs with hreporting hagree
      · exact iff_of_false not_false fun h => h.1 hreporting
      · exact iff_of_false not_false fun h => hagree h.2.1
      · rw [shortfall_eq_nil_iff]
        exact ⟨fun h => ⟨hreporting, not_not.mp hagree, h⟩, fun h => h.2.2⟩
  · rw [if_pos hexempt]
    exact iff_of_true rfl (.inl hexempt)

def counts (tests : Dict Bool) (cases : Dict (ℕ × ℕ)) (prefixes : List Text) : List (ℕ × ℕ) :=
  (gateTests tests prefixes false).filterMap cases.lookup

theorem classifyGate_real (tests results : Dict Bool) (name : Text) (members : List Text) :
    (classifyGate tests results name members).real =
      (members.filter fun n => !(tests.lookup n).getD false).insertionSort (· ≤ ·) := rfl

theorem classifyGate_status (tests results : Dict Bool) (name : Text) (members : List Text) :
    (classifyGate tests results name members).status =
      gateStatus ((members.filter fun n => !(tests.lookup n).getD false).all (passed results))
        (!(members.filter fun n => (tests.lookup n).getD false).isEmpty &&
          (members.filter fun n => (tests.lookup n).getD false).all (passed results))
        (members.filter fun n => (tests.lookup n).getD false)
        ((unfalsifiableDefences.lookup name).getD []) := rfl

theorem reported_perm (tests results : Dict Bool) (cases : Dict (ℕ × ℕ)) (hgate : gate ∈ gates) :
    ((classifyGate tests results gate.1 (members tests gate.1)).real.filterMap cases.lookup).Perm
      (counts tests cases gate.2) := by
  rw [classifyGate_real, normal_members hgate]
  exact (List.perm_insertionSort _ _).filterMap _

/-- The account of a gate, over its normal tests. -/
theorem accountGate_eq (hgate : gate ∈ gates) :
    accountGate cases gate.1 (classifyGate tests results gate.1 (members tests gate.1)) =
      { testsReporting := (counts tests cases gate.2).length
        tests := (gateTests tests gate.2 false).length
        asked := ((counts tests cases gate.2).map Prod.fst).sum
        known := ((counts tests cases gate.2).map Prod.snd).sum
        expected := gateCases.lookup gate.1
        exempt := (accountingExempt.lookup gate.1).getD [] } := by
  have hperm := reported_perm tests results cases hgate
  have hreal : (classifyGate tests results gate.1 (members tests gate.1)).real.length =
      (gateTests tests gate.2 false).length := by
    rw [classifyGate_real, normal_members hgate]
    exact List.length_insertionSort _ _
  rw [accountGate, hreal, hperm.length_eq, (hperm.map Prod.fst).sum_eq, (hperm.map Prod.snd).sum_eq]

theorem gateStatus_green_iff (realOk teethOk : Bool) (teeth : List Text) (unfalsifiable : Text) :
    (gateStatus realOk teethOk teeth unfalsifiable = .greenWithTeeth ∨
      gateStatus realOk teethOk teeth unfalsifiable = .unfalsifiableDefence) ↔
    realOk ∧ (teethOk ∨ teeth = [] ∧ unfalsifiable ≠ []) := by
  unfold gateStatus
  split_ifs <;> simp_all

theorem status_green_iff (hgate : gate ∈ gates) :
    ((classifyGate tests results gate.1 (members tests gate.1)).status = .greenWithTeeth ∨
      (classifyGate tests results gate.1 (members tests gate.1)).status = .unfalsifiableDefence) ↔
    (∀ n ∈ gateTests tests gate.2 false, passed results n) ∧
      ((gateTests tests gate.2 true ≠ [] ∧ ∀ n ∈ gateTests tests gate.2 true, passed results n) ∨
        (gateTests tests gate.2 true = [] ∧ (unfalsifiableDefences.lookup gate.1).getD [] ≠ [])) := by
  rw [classifyGate_status, normal_members hgate, inverted_members hgate, gateStatus_green_iff,
    List.all_eq_true, Bool.and_eq_true, List.all_eq_true, Bool.not_eq_true',
    List.isEmpty_eq_false_iff]

theorem mem_classify (tests results : Dict Bool) (hgate : gate ∈ gates)
    (h : ∃ n ∈ tests, covers gate.2 n) :
    (gate.1, classifyGate tests results gate.1 (members tests gate.1)) ∈
      (classify tests results).1 := by
  apply List.mem_map_of_mem (f := fun gate : Text × List Text =>
    (gate.1, classifyGate tests results gate.1 (members tests gate.1)))
  rw [List.mem_filter, decide_eq_true_iff, members_eq hgate]
  obtain ⟨n, hn, hcover⟩ := h
  exact ⟨hgate, List.ne_nil_of_mem (List.mem_filter.mpr ⟨hn, hcover⟩)⟩

/-- The recorded text is there only for a recorded name. -/
theorem mem_of_recorded {name : Text} {table : List (Text × Text)}
    (h : (table.lookup name).getD [] ≠ []) : name ∈ table.map Prod.fst := by
  by_contra hmem
  have hnone : table.lookup name = none := by
    rw [List.lookup_eq_none_iff]
    intro p hp
    rw [bne_iff_ne]
    exact fun heq => hmem (heq ▸ List.mem_map_of_mem hp)
  rw [hnone] at h
  exact h rfl

/-- A passing verdict: every gate that has a test has a passing one, an inverted one unless it is
recorded as unfalsifiable, and counts that come to the same and to its figure. -/
theorem pass_only_if {Cell Metrics : Type} (tests results : Dict Bool) (ctestExit : ℤ) (cell : Cell)
    (metrics : Metrics) (cases : Option (Dict (ℕ × ℕ)))
    (h : (buildReport tests results ctestExit cell metrics cases).verdict = .pass) :
    ctestExit = 0 ∧ (∀ n ∈ tests, results.lookup n = some true) ∧
      ∀ gate ∈ gates, (∃ n ∈ tests, covers gate.2 n) →
        (∃ n ∈ gateTests tests gate.2 false, results.lookup n = some true) ∧
        (gate.1 ∉ unfalsifiableDefences.map Prod.fst →
          ∃ n ∈ gateTests tests gate.2 true, results.lookup n = some true) ∧
        (gate.1 ∉ accountingExempt.map Prod.fst →
          ((counts tests (cases.getD ∅) gate.2).map Prod.fst).sum =
              ((counts tests (cases.getD ∅) gate.2).map Prod.snd).sum ∧
            ∃ figure, gateCases.lookup gate.1 = some figure ∧
              figure.Reached ((counts tests (cases.getD ∅) gate.2).map Prod.snd).sum) := by
  have hverdict : ctestExit = 0 ∧ tests.keys.countP (passed results) = tests.keys.length ∧
      ((classify tests results).1.all fun g =>
        g.2.status = .greenWithTeeth ∨ g.2.status = .unfalsifiableDefence) ∧
      (account (classify tests results).1 (cases.getD ∅)).findings = [] := by
    by_contra hne
    have hfail : (buildReport tests results ctestExit cell metrics cases).verdict = .fail :=
      if_neg hne
    rw [hfail] at h
    cases h
  obtain ⟨hexit, hcount, hgreen, hfindings⟩ := hverdict
  have hall : ∀ n ∈ tests, results.lookup n = some true := fun n hn =>
    passed_iff.mp (List.countP_eq_length.mp hcount n hn)
  refine ⟨hexit, hall, fun gate hgate htest => ?_⟩
  -- a gate with a test is classified, so the verdict has looked at it
  have hmem := mem_classify tests results hgate htest
  have hstatus := of_decide_eq_true (List.all_eq_true.mp hgreen _ hmem)
  rw [status_green_iff hgate] at hstatus
  have hfinding : finding gate.1 (accountGate (cases.getD ∅) gate.1
      (classifyGate tests results gate.1 (members tests gate.1))) = [] := by
    have hnone := (List.append_eq_nil_iff.mp hfindings).1
    rw [List.flatMap_eq_nil_iff] at hnone
    exact hnone _ (List.mem_map_of_mem hmem)
  rw [accountGate_eq hgate, finding_eq_nil_iff] at hfinding
  obtain ⟨figure, hfigure, hreports, hagree, hreached⟩ :=
    hfinding.resolve_left fun hexempt => hexempt rfl
  refine ⟨?_, fun hteeth => ?_, fun _ => ⟨hagree, figure, hfigure, hreached⟩⟩
  -- with no test of its own a gate has no count, and no figure is reached
  · have hne : gateTests tests gate.2 false ≠ [] := by
      rintro hnil
      exact hreports (by rw [counts, hnil]; rfl)
    obtain ⟨n, hn⟩ := List.exists_mem_of_ne_nil _ hne
    exact ⟨n, hn, passed_iff.mp (hstatus.1 n hn)⟩
  · obtain ⟨hne, hpassed⟩ := hstatus.2.resolve_right fun hnone => hteeth (mem_of_recorded hnone.2)
    obtain ⟨n, hn⟩ := List.exists_mem_of_ne_nil _ hne
    exact ⟨n, hn, passed_iff.mp (hpassed n hn)⟩

def sizeTests : Dict Bool :=
  ⟨[⟨"size_delta".toList, false⟩, ⟨"size_delta.teeth".toList, true⟩, ⟨"probe.size".toList, false⟩],
    by unfold List.NodupKeys; decide⟩

def sizeResults : Dict Bool :=
  ⟨[⟨"size_delta".toList, true⟩, ⟨"size_delta.teeth".toList, true⟩, ⟨"probe.size".toList, true⟩],
    by unfold List.NodupKeys; decide⟩

def sizeCases : Dict (ℕ × ℕ) :=
  ⟨[⟨"size_delta".toList, (2, 2)⟩, ⟨"probe.size".toList, (5, 5)⟩], by unfold List.NodupKeys; decide⟩

theorem pass_only_if_size :
    ∃ figure, gateCases.lookup "size".toList = some figure ∧
      figure.Reached ((counts sizeTests sizeCases ["size_delta".toList, "probe.size".toList]).map
        Prod.snd).sum :=
  ((pass_only_if sizeTests sizeResults 0 () () (some sizeCases) (by decide +kernel)).2.2
    ("size".toList, ["size_delta".toList, "probe.size".toList]) (by decide +kernel)
    ⟨"size_delta".toList, by decide +kernel⟩).2.2 (by decide) |>.2

/-- One test asks less than it knows of and another as much more. -/
def maskedCases : Dict (ℕ × ℕ) :=
  ⟨[⟨"size_delta".toList, (2, 5)⟩, ⟨"probe.size".toList, (5, 2)⟩], by unfold List.NodupKeys; decide⟩

theorem masked_disagreement_passes :
    (buildReport sizeTests sizeResults 0 () () (some maskedCases)).verdict = .pass ∧
      ¬ ∀ gate ∈ gates, ∀ n ∈ gateTests sizeTests gate.2 false, ∀ c,
        maskedCases.lookup n = some c → c.1 = c.2 := by
  refine ⟨by decide +kernel, fun h => ?_⟩
  have hagree := h ("size".toList, ["size_delta".toList, "probe.size".toList]) (by decide +kernel)
    "size_delta".toList (by decide +kernel) (2, 5) (by decide +kernel)
  cases hagree

end Verdicts

end Jmpxx.Acceptance
