import Jmpxx.StoreCheck
import Jmpxx.Transition

namespace Jmpxx.StoreCheck

open Throwing
open Transition (run run_invariant)

/-- How a check fails: the fault, the depth and the record it names. -/
structure Refusal where
  fault : Fault
  depth : ℕ
  record : Bytes
  deriving DecidableEq, Repr

def contents (image : Image) (name : Bytes) : Except Fault (Option Bytes) :=
  (image.content (recordPath name)).elim (.error .recordUnreadable) checkContent

/-- The walk from a record on, given the records on the way to it, as a function of the image: how
many records it checks, or how it fails. -/
def walk (image : Image) (path : List Bytes) (name : Bytes) (depth : ℕ) : Except Refusal ℕ :=
  if name ∈ path then .error ⟨.referenceCycle, depth, name⟩
  else if _hdeep : maxPath ≤ path.length then .error ⟨.nestingTooDeep, depth, name⟩
  else if !image.opens (recordPath name) then .error ⟨.recordUnreadable, depth, name⟩
  else
    ((contents image name).mapError fun f => ⟨f, depth, name⟩).bind fun ref =>
      (ref.elim (.ok 0) fun ref =>
        if !image.stat (recordPath ref) then .error ⟨.referenceMissing, depth, ref⟩
        else walk image (path ++ [name]) ref (depth + 1)).map (1 + ·)
termination_by maxPath - path.length
decreasing_by
  rw [List.length_append, List.length_singleton]
  omega

/-- Every file but the open ones has been closed, once. -/
def Ledger (live : List ℕ) (s : Board) : Prop := (live ++ s.closed).Perm (List.range s.opened)

/-- The board within a check, with these records on the path and these files open. -/
structure Steady (path : List Bytes) (live : List ℕ) (s : Board) : Prop where
  path : s.path = path
  mounted : s.mounted = true
  ledger : Ledger live s

structure Ready (path : List Bytes) (live : List ℕ) (n : ℕ) (s : Board) : Prop where
  steady : Steady path live s
  checked : s.recordsChecked = n

structure Refused (path : List Bytes) (live : List ℕ) (r : Refusal) (s : Board) : Prop where
  steady : Steady path live s
  payload : s.payload = some (r.fault, r.depth)
  record : s.faultRecord = r.record.take (maxName - 1)

/-- A part of the check comes to this verdict, and leaves path and files as they were. -/
structure Gives (path : List Bytes) (live : List ℕ) (m : Run Unit) (verdict : Except Refusal ℕ) :
    Prop where
  triple : ∀ v, Triple (Ready path live v) m
    (fun _ s => ∃ n, verdict = .ok n ∧ Ready path live (v + n) s)
    (fun s => ∃ r, verdict = .error r ∧ Refused path live r s)

section Rules

variable {α : Type} {path : List Bytes} {live : List ℕ} {f : Fault} {record : Bytes} {depth v : ℕ}

theorem Triple.failWith {Q : α → Board → Prop} :
    Triple (Steady path live) (failWith f record depth : Run α) Q
      (Refused path live ⟨f, depth, record⟩) := by
  unfold StoreCheck.failWith noteRecord
  refine Triple.bind (Q := fun _ s => Steady path live s ∧ s.faultRecord = record.take (maxName - 1))
    (Triple.modify fun s hs => ⟨⟨hs.path, hs.mounted, hs.ledger⟩, rfl⟩) fun _ => ?_
  refine Triple.bind (Q := fun _ => Refused path live ⟨f, depth, record⟩)
    (Triple.modify fun s hs => ⟨⟨hs.1.path, hs.1.mounted, hs.1.ledger⟩, rfl, hs.2⟩) fun _ => ?_
  exact Triple.raise fun _ h => h

theorem Triple.failReady {Q : α → Board → Prop} :
    Triple (Ready path live v) (StoreCheck.failWith f record depth : Run α) Q
      (fun s => ∃ r, (.error ⟨f, depth, record⟩ : Except Refusal ℕ) = .error r ∧
        Refused path live r s) :=
  Triple.failWith.conseq (fun _ h => h.steady) (fun _ _ h => h) fun _ h => ⟨_, rfl, h⟩

theorem Triple.requireMounted {R : Board → Prop} :
    Triple (Ready path live v) requireMounted (fun _ => Ready path live v) R := by
  intro s hs
  simp only [StoreCheck.requireMounted, Throwing.require, hs.steady.mounted, if_true]
  exact hs

theorem Gives.guard {c : Prop} [Decidable c] {k : Unit → Run Unit} {verdict : Except Refusal ℕ}
    (hk : ¬ c → Gives path live (k ()) verdict) :
    Gives path live (onlyIf c (failWith f record depth) >>= k)
      (if c then .error ⟨f, depth, record⟩ else verdict) := by
  refine ⟨fun v => ?_⟩
  refine Triple.guard (fun hc => ?_) fun hc => ?_
  · rw [if_pos hc]
    exact Triple.failReady
  · rw [if_neg hc]
    exact (hk hc).triple v

theorem Gives.mounted {k : Unit → Run Unit} {verdict : Except Refusal ℕ}
    (hk : Gives path live (k ()) verdict) : Gives path live (requireMounted >>= k) verdict :=
  ⟨fun v => Triple.bind Triple.requireMounted fun _ => hk.triple v⟩

theorem visitingDestructor_eq {s : Board} (h : s.path ≠ []) :
    visitingDestructor s = (.ok (), { s with path := s.path.dropLast }) := by
  show Comp.bind _ _ s = _
  unfold Comp.bind
  simp only [Throwing.require, if_neg h]
  rfl

theorem openFileDestructor_eq {s : Board} {file : ℕ} (h : s.mounted = true) :
    openFileDestructor file s = (.ok (), { s with closed := file :: s.closed }) := by
  have hrun : requireMounted s = (.ok (), s) := by
    simp only [requireMounted, Throwing.require, h, if_true]
  show Comp.bind requireMounted _ s = _
  unfold Comp.bind
  rw [hrun]
  rfl

/-- The record is on the path while `m` runs. -/
theorem Gives.visiting (name : Bytes) (depth : ℕ) {m : Run Unit} {verdict : Except Refusal ℕ}
    (hm : name ∉ path → path.length < maxPath → Gives (path ++ [name]) live m verdict) :
    Gives path live
      (do
        visitingConstructor name depth
        cleanup m visitingDestructor)
      (if name ∈ path then .error ⟨.referenceCycle, depth, name⟩
      else if maxPath ≤ path.length then .error ⟨.nestingTooDeep, depth, name⟩
      else verdict) := by
  refine ⟨fun v => ?_⟩
  unfold visitingConstructor
  simp only [bind_assoc]
  refine Triple.bind (Triple.require (a := path) ?_) fun now => Triple.and_pre fun hnow => ?_
  · exact fun s hs => congrArg some hs.steady.path
  subst hnow
  refine Triple.guard (fun hcycle => ?_) fun hcycle => ?_
  · rw [if_pos (List.contains_iff_mem.mp hcycle)]
    exact Triple.failReady
  rw [List.contains_iff_mem] at hcycle
  rw [if_neg hcycle]
  refine Triple.guard (fun hdeep => ?_) fun hdeep => ?_
  · rw [if_pos hdeep]
    exact Triple.failReady
  rw [if_neg hdeep]
  refine Triple.bind (Q := fun _ => Ready (now ++ [name]) live v) (Triple.modify ?_) fun _ => ?_
  · intro s hs
    refine ⟨⟨?_, hs.steady.mounted, hs.steady.ledger⟩, hs.checked⟩
    rw [hs.steady.path]
  -- whichever way `m` ends, what the destructor takes off is the name put on
  have hpop : ∀ s, Steady (now ++ [name]) live s →
      visitingDestructor s = (.ok (), { s with path := now }) := by
    intro s hs
    have hne : s.path ≠ [] := by
      rw [hs.path]
      exact List.append_ne_nil_of_right_ne_nil now (List.cons_ne_nil _ _)
    rw [visitingDestructor_eq hne, hs.path, List.dropLast_concat]
  refine Triple.cleanup ((hm hcycle (Nat.lt_of_not_ge hdeep)).triple v) (fun _ => ?_) ?_
  · intro s hs
    obtain ⟨n, hn, hready⟩ := hs
    rw [hpop s hready.steady]
    exact ⟨n, hn, ⟨rfl, hready.steady.mounted, hready.steady.ledger⟩, hready.checked⟩
  · intro s hs
    obtain ⟨r, hr, hrefused⟩ := hs
    rw [hpop s hrefused.steady]
    exact ⟨r, hr, ⟨rfl, hrefused.steady.mounted, hrefused.steady.ledger⟩, hrefused.payload,
      hrefused.record⟩

/-- A file is open while `m` runs. -/
theorem Gives.file (image : Image) (place record : Bytes) (depth : ℕ) {m : ℕ → Run Unit}
    {verdict : Except Refusal ℕ} (hm : ∀ file, Gives path (file :: live) (m file) verdict) :
    Gives path live
      (do
        let file ← openFileConstructor image place record depth
        cleanup (m file) (openFileDestructor file))
      (if !image.opens place then .error ⟨.recordUnreadable, depth, record⟩ else verdict) := by
  refine ⟨fun v => ?_⟩
  unfold openFileConstructor
  simp only [bind_assoc]
  refine Triple.bind Triple.requireMounted fun _ => ?_
  refine Triple.guard (fun hfails => ?_) fun hopens => ?_
  · rw [if_pos hfails]
    exact Triple.failReady
  rw [if_neg hopens]
  refine Triple.bind (Q := fun file s => Ready path live v s ∧ s.opened = file)
    (fun s hs => ⟨hs, rfl⟩) fun file => ?_
  refine Triple.bind (Q := fun _ => Ready path (file :: live) v) (Triple.modify ?_) fun _ => ?_
  · intro s hs
    obtain ⟨hready, rfl⟩ := hs
    refine ⟨⟨hready.steady.path, hready.steady.mounted, ?_⟩, hready.checked⟩
    have hledger : (live ++ s.closed).Perm (List.range s.opened) := hready.steady.ledger
    unfold Ledger
    rw [List.range_succ]
    exact (hledger.cons _).trans (List.perm_append_singleton _ _).symm
  simp only [pure_bind]
  -- whichever way `m` ends, the file it leaves on top is the one opened here
  have hclose : ∀ s, Steady path (file :: live) s →
      openFileDestructor file s = (.ok (), { s with closed := file :: s.closed }) ∧
        Ledger live { s with closed := file :: s.closed } := by
    intro s hs
    refine ⟨openFileDestructor_eq hs.mounted, ?_⟩
    exact List.perm_middle.trans hs.ledger
  refine Triple.cleanup ((hm file).triple v) (fun _ => ?_) ?_
  · intro s hs
    obtain ⟨n, hn, hready⟩ := hs
    obtain ⟨hrun, hledger⟩ := hclose s hready.steady
    rw [hrun]
    exact ⟨n, hn, ⟨hready.steady.path, hready.steady.mounted, hledger⟩, hready.checked⟩
  · intro s hs
    obtain ⟨r, hr, hrefused⟩ := hs
    obtain ⟨hrun, hledger⟩ := hclose s hrefused.steady
    rw [hrun]
    exact ⟨r, hr, ⟨hrefused.steady.path, hrefused.steady.mounted, hledger⟩, hrefused.payload,
      hrefused.record⟩

/-- The contents, read and checked, and counted. -/
theorem Gives.contents (image : Image) (name : Bytes) (depth : ℕ) {k : Option Bytes → Run Unit}
    {verdict : Option Bytes → Except Refusal ℕ} (hk : ∀ ref, Gives path live (k ref) (verdict ref)) :
    Gives path live
      (do
        let ref ← readRecord image (recordPath name) name depth
        modify fun s => { s with recordsChecked := s.recordsChecked + 1 }
        k ref)
      (((StoreCheck.contents image name).mapError fun f => ⟨f, depth, name⟩).bind fun ref =>
        (verdict ref).map (1 + ·)) := by
  refine ⟨fun v => ?_⟩
  unfold readRecord
  simp only [bind_assoc]
  refine Triple.bind Triple.requireMounted fun _ => ?_
  show Triple _ (checked name depth (StoreCheck.contents image name) >>= _) _ _
  cases StoreCheck.contents image name with
  | error f => exact Triple.bind (Q := fun _ _ => False) Triple.failReady fun _ _ h => h.elim
  | ok ref =>
    refine Triple.bind (Q := fun ref' s => ref' = ref ∧ Ready path live v s)
      (Triple.pure ref fun s hs => ⟨rfl, hs⟩) fun ref' => Triple.and_pre fun href => ?_
    subst href
    refine Triple.bind (Q := fun _ => Ready path live (v + 1)) (Triple.modify ?_) fun _ => ?_
    · intro s hs
      exact ⟨⟨hs.steady.path, hs.steady.mounted, hs.steady.ledger⟩, congrArg (· + 1) hs.checked⟩
    refine ((hk ref').triple (v + 1)).conseq (fun _ h => h) ?_ ?_
    · intro _ s hs
      obtain ⟨n, hn, hready⟩ := hs
      refine ⟨1 + n, congrArg (Except.map _) hn, ?_⟩
      rwa [← Nat.add_assoc]
    · intro s hs
      obtain ⟨r, hr, hrefused⟩ := hs
      exact ⟨r, congrArg (Except.map _) hr, hrefused⟩

end Rules

/-- `check_record` walks the records as `walk` does. -/
theorem Gives.record {image : Image} (fuel : ℕ) {path : List Bytes} {live : List ℕ} {name : Bytes}
    {depth : ℕ} (hfuel : enough ≤ fuel + path.length) (hpath : path.length ≤ maxPath) :
    Gives path live (checkRecord image fuel name depth) (walk image path name depth) := by
  induction fuel generalizing path live name depth with
  | zero =>
    rw [Nat.zero_add] at hfuel
    exact absurd (Nat.le_trans hfuel hpath) (by decide)
  | succ fuel ih =>
    -- the next record has one place less on the path, and one unit of fuel less
    have hbelow : ∀ (file : ℕ) (ref : Option Bytes), path.length < maxPath →
        Gives (path ++ [name]) (file :: live)
          (ref.elim (pure ()) fun ref => do
            requireMounted
            onlyIf (!image.stat (recordPath ref)) (failWith .referenceMissing ref depth)
            checkRecord image fuel ref (depth + 1))
          (ref.elim (.ok 0) fun ref =>
            if !image.stat (recordPath ref) then .error ⟨.referenceMissing, depth, ref⟩
            else walk image (path ++ [name]) ref (depth + 1)) := by
      intro file ref hroom
      have hlen : (path ++ [name]).length = path.length + 1 := by simp
      cases ref with
      | none => exact ⟨fun v => Triple.pure () fun s hs => ⟨0, rfl, hs⟩⟩
      | some ref => exact Gives.mounted (Gives.guard fun _ => ih (by omega) (by omega))
    refine ⟨fun v => ?_⟩
    rw [walk, checkRecord]
    refine Triple.bind (Q := fun _ => Ready path live v) (Triple.modify ?_) fun _ => ?_
    · intro s hs
      exact ⟨⟨hs.steady.path, hs.steady.mounted, hs.steady.ledger⟩, hs.checked⟩
    exact (Gives.visiting name depth fun _ hroom =>
      Gives.file image (recordPath name) name depth fun file =>
        Gives.contents image name depth fun ref => hbelow file ref hroom).triple v

section Checks

variable {image : Image} {entry : Bytes}

/-- The board between two checks: nobody on the path, and every file closed. -/
structure Rested (s : Board) : Prop where
  path : s.path = []
  ledger : Ledger [] s

def verdict (image : Image) (entry : Bytes) : Except Refusal ℕ :=
  if image.mounts then walk image [] entry 0 else .error ⟨.mountFailed, 0, entry⟩

def landed (v : Except Refusal ℕ) : Except (Fault × ℕ) ℕ := v.mapError fun r => (r.fault, r.depth)

theorem Triple.checkMounted (hmounts : image.mounts = true) :
    Triple Rested (checkMounted image entry)
      (fun n s => walk image [] entry 0 = .ok n ∧ Rested s ∧ s.mounted = false)
      (fun s => ∃ r, walk image [] entry 0 = .error r ∧ Refused [] [] r s) := by
  unfold StoreCheck.checkMounted
  refine Triple.guard (fun hfails => ?_) fun _ => ?_
  · rw [hmounts] at hfails
    cases hfails
  refine Triple.bind (Q := fun _ => Steady [] []) (Triple.modify fun s hs =>
    ⟨hs.path, rfl, hs.ledger⟩) fun _ => ?_
  refine Triple.bind (Q := fun _ => Ready [] [] 0) (Triple.modify fun s hs =>
    ⟨⟨hs.path, hs.mounted, hs.ledger⟩, rfl⟩) fun _ => ?_
  refine Triple.bind (Q := fun _ => Ready [] [] 0) (Triple.modify fun s hs =>
    ⟨⟨hs.steady.path, hs.steady.mounted, hs.steady.ledger⟩, hs.checked⟩) fun _ => ?_
  refine Triple.bind ((Gives.record enough (by decide) (by decide)).triple 0) fun _ => ?_
  refine Triple.bind (Q := fun _ s => ∃ n, walk image [] entry 0 = .ok n ∧ Rested s ∧
    s.mounted = false ∧ s.recordsChecked = n) (Triple.modify ?_) fun _ => ?_
  · intro s hs
    obtain ⟨n, hn, hready⟩ := hs
    refine ⟨n, hn, ⟨hready.steady.path, hready.steady.ledger⟩, rfl, ?_⟩
    rw [hready.checked, Nat.zero_add]
  · intro s hs
    obtain ⟨n, hn, hrested, hmounted, rfl⟩ := hs
    exact ⟨hn, hrested, hmounted⟩

theorem checkMounted_of_not_mounts (hmounts : ¬ image.mounts = true) (s : Board) :
    checkMounted image entry s = (.thrown, { s with
      faultRecord := entry.take (maxName - 1), payload := some (.mountFailed, 0) }) := by
  have hfails : (!image.mounts) = true := by simpa using hmounts
  rw [checkMounted, onlyIf, if_pos hfails]
  rfl

/-- A check, from any board at rest. -/
theorem checkImage_eq {s : Board} (hs : Rested s) :
    ∃ s', checkImage image entry s = (.ok (landed (verdict image entry)), s') ∧ Rested s' ∧
      (image.mounts → (s'.mounted = false ↔ ∃ n, verdict image entry = .ok n)) ∧
      ∀ r, verdict image entry = .error r → s'.faultRecord = r.record.take (maxName - 1) := by
  have hs' : Rested { s with payload := none } := ⟨hs.path, hs.ledger⟩
  unfold checkImage escapeScope verdict
  by_cases hmounts : image.mounts = true
  · have hrun := @Triple.checkMounted image entry hmounts _ hs'
    rw [if_pos hmounts]
    rcases hres : checkMounted image entry { s with payload := none } with ⟨n | _ | _, s'⟩
    · rw [hres] at hrun
      obtain ⟨hwalk, hrested, hmounted⟩ := hrun
      rw [hwalk]
      refine ⟨s', rfl, hrested, fun _ => iff_of_true hmounted ⟨n, rfl⟩, fun r hr => ?_⟩
      cases hr
    · rw [hres] at hrun
      obtain ⟨r, hwalk, hrefused⟩ := hrun
      rw [hwalk]
      refine ⟨s', ?_, ⟨hrefused.steady.path, hrefused.steady.ledger⟩, fun _ => iff_of_false ?_ ?_,
        fun r' hr => ?_⟩
      · simp only [hrefused.payload]
        rfl
      · rw [hrefused.steady.mounted]
        decide
      · rintro ⟨n, hn⟩
        cases hn
      · cases hr
        exact hrefused.record
    -- nothing else is thrown
    · rw [hres] at hrun
      exact hrun.elim
  · rw [if_neg hmounts, checkMounted_of_not_mounts hmounts]
    refine ⟨_, rfl, ⟨hs.path, hs.ledger⟩, fun h => absurd h hmounts, fun r hr => ?_⟩
    cases hr
    rfl

end Checks

section Runs

structure Call where
  image : Image
  entry : Bytes

def check (s : Board) (call : Call) : Board := (checkImage call.image call.entry s).2

/-- After the call the path is empty, every file opened so far has been closed, once, a filesystem
the call mounted is unmounted, and any next check comes out as on a freshly started board. -/
structure Tidy (s : Board) (call : Call) : Prop where
  path : (check s call).path = []
  closed : (check s call).closed.Perm (List.range (check s call).opened)
  unmounted : call.image.mounts → (check s call).mounted = false
  reusable : ∀ next : Call, (checkImage next.image next.entry (check s call)).1 =
    (checkImage next.image next.entry Board.fresh).1

/-- The records a check meets from this one on are all there and good, and come to an end. -/
inductive Verifies (image : Image) : List Bytes → Bytes → Prop where
  | last {path : List Bytes} {name r : Bytes} : name ∉ path → path.length < maxPath →
      image.opens (recordPath name) → image.content (recordPath name) = some r →
      checkContent r = .ok none → Verifies image path name
  | refers {path : List Bytes} {name r ref : Bytes} : name ∉ path → path.length < maxPath →
      image.opens (recordPath name) → image.content (recordPath name) = some r →
      checkContent r = .ok (some ref) → image.stat (recordPath ref) →
      Verifies image (path ++ [name]) ref → Verifies image path name

theorem contents_eq_ok_iff {image : Image} {name : Bytes} {ref : Option Bytes} :
    contents image name = .ok ref ↔
      ∃ r, image.content (recordPath name) = some r ∧ checkContent r = .ok ref := by
  unfold contents
  cases image.content (recordPath name) with
  | none => simp
  | some r => simp

theorem map_eq_ok_iff {ε α β : Type} {f : α → β} {x : Except ε α} {b : β} :
    x.map f = .ok b ↔ ∃ a, x = .ok a ∧ f a = b := by
  cases x <;> simp [Except.map]

/-- A step of a walk that comes to its end. -/
theorem walk_eq_ok_iff {image : Image} {path : List Bytes} {name : Bytes} {depth n : ℕ} :
    walk image path name depth = .ok n ↔
      (name ∉ path ∧ path.length < maxPath ∧ image.opens (recordPath name)) ∧
      ∃ ref, contents image name = .ok ref ∧ ∃ m, n = 1 + m ∧
        (ref.elim (.ok 0) fun ref =>
          if !image.stat (recordPath ref) then .error ⟨.referenceMissing, depth, ref⟩
          else walk image (path ++ [name]) ref (depth + 1)) = .ok m := by
  rw [walk]
  split_ifs with hcycle hdeep hopens
  · exact iff_of_false (fun h => by cases h) fun h => h.1.1 hcycle
  · exact iff_of_false (fun h => by cases h) fun h => absurd h.1.2.1 (Nat.not_lt.mpr hdeep)
  · exact iff_of_false (fun h => by cases h) fun h => by simp [h.1.2.2] at hopens
  · have hguards : name ∉ path ∧ path.length < maxPath ∧ image.opens (recordPath name) = true :=
      ⟨hcycle, Nat.lt_of_not_ge hdeep, by simpa using hopens⟩
    cases hcontents : contents image name with
    | error f => exact iff_of_false (fun h => by cases h) fun h => by obtain ⟨_, h, _⟩ := h.2; cases h
    | ok ref =>
      show Except.map _ _ = _ ↔ _
      rw [map_eq_ok_iff]
      constructor
      · rintro ⟨m, hm, rfl⟩
        exact ⟨hguards, ref, rfl, m, rfl, hm⟩
      · rintro ⟨-, ref', href, m, rfl, hm⟩
        obtain rfl := Except.ok.inj href
        exact ⟨m, hm, rfl⟩

theorem walk_ok_iff (image : Image) (path : List Bytes) (name : Bytes) (depth : ℕ) :
    (∃ n, walk image path name depth = .ok n) ↔ Verifies image path name := by
  constructor
  · rintro ⟨n, hn⟩
    induction n using Nat.strongRecOn generalizing path name depth with
    | ind n ih =>
      obtain ⟨hguards, ref, hcontents, m, rfl, hnext⟩ := walk_eq_ok_iff.mp hn
      obtain ⟨r, hr, hcheck⟩ := contents_eq_ok_iff.mp hcontents
      cases ref with
      | none => exact .last hguards.1 hguards.2.1 hguards.2.2 hr hcheck
      | some ref =>
        rw [Option.elim_some] at hnext
        split_ifs at hnext with hstat
        have hstat' : image.stat (recordPath ref) = true := by simpa using hstat
        exact .refers hguards.1 hguards.2.1 hguards.2.2 hr hcheck hstat'
          (ih m (by omega) _ _ _ hnext)
  · intro h
    induction h generalizing depth with
    | last hcycle hdeep hopens hr hcheck =>
      exact ⟨1, walk_eq_ok_iff.mpr ⟨⟨hcycle, hdeep, hopens⟩, none,
        contents_eq_ok_iff.mpr ⟨_, hr, hcheck⟩, 0, rfl, rfl⟩⟩
    | refers hcycle hdeep hopens hr hcheck hstat _ ih =>
      obtain ⟨m, hm⟩ := ih (depth + 1)
      refine ⟨1 + m, walk_eq_ok_iff.mpr ⟨⟨hcycle, hdeep, hopens⟩, some _,
        contents_eq_ok_iff.mpr ⟨_, hr, hcheck⟩, m, rfl, ?_⟩⟩
      rw [Option.elim_some, if_neg (by simp [hstat]), hm]

theorem verdict_ok_iff {call : Call} (hmounts : call.image.mounts = true) :
    (∃ n, verdict call.image call.entry = .ok n) ↔ Verifies call.image [] call.entry := by
  rw [verdict, if_pos hmounts]
  exact walk_ok_iff call.image [] call.entry 0

theorem Rested.check {s : Board} (hs : Rested s) (call : Call) : Rested (check s call) := by
  obtain ⟨s', hrun, hrested, -⟩ := @checkImage_eq call.image call.entry s hs
  rw [StoreCheck.check, hrun]
  exact hrested

theorem rested_fresh : Rested Board.fresh := ⟨rfl, List.Perm.refl _⟩

theorem tidy_iff {s : Board} (hs : Rested s) (call : Call) :
    Tidy s call ↔ (call.image.mounts → Verifies call.image [] call.entry) := by
  obtain ⟨s', hrun, hrested, hmounted, -⟩ := @checkImage_eq call.image call.entry s hs
  have hcheck : check s call = s' := by rw [check, hrun]
  constructor
  · intro h hmounts
    rw [← verdict_ok_iff hmounts, ← hmounted hmounts, ← hcheck]
    exact h.unmounted hmounts
  · intro h
    refine ⟨?_, ?_, fun hmounts => ?_, fun next => ?_⟩
    · rw [hcheck]
      exact hrested.path
    · rw [hcheck]
      exact hrested.ledger
    · rw [hcheck, hmounted hmounts, verdict_ok_iff hmounts]
      exact h hmounts
    · obtain ⟨_, hnext, -⟩ := @checkImage_eq next.image next.entry (check s call) (hs.check call)
      obtain ⟨_, hfresh, -⟩ := @checkImage_eq next.image next.entry Board.fresh rested_fresh
      rw [hnext, hfresh]

/-- In a run of checks everything is as it should be after every call exactly when each of its
calls finds an image that does not mount, or one whose records verify. -/
theorem checks_tidy_iff (calls : List Call) :
    (∀ before call, before ++ [call] <+: calls → Tidy (run check Board.fresh before) call) ↔
      ∀ call ∈ calls, call.image.mounts → Verifies call.image [] call.entry := by
  have hrested : ∀ before, Rested (run check Board.fresh before) :=
    run_invariant check Rested (fun s call hs => hs.check call) Board.fresh rested_fresh
  constructor
  · intro h call hcall
    obtain ⟨before, after, rfl⟩ := List.append_of_mem hcall
    refine (tidy_iff (hrested before) call).mp (h before call ⟨after, ?_⟩)
    rw [List.append_assoc]
    rfl
  · intro h before call hprefix
    have hcall : call ∈ calls := hprefix.subset (List.mem_append_right before List.mem_cons_self)
    exact (tidy_iff (hrested before) call).mpr (h call hcall)

def shortRecord : Image := ⟨true, fun _ => true, fun _ => some [], fun _ => true⟩

theorem stays_mounted_after_fault : ¬ Tidy Board.fresh ⟨shortRecord, [97]⟩ := by
  intro h
  exact absurd (h.unmounted rfl) (by decide +kernel)

end Runs

end Jmpxx.StoreCheck
