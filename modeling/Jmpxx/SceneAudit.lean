import Jmpxx.CallChain

namespace Jmpxx.Scene

open Diagnostic

variable {L α : Type}

inductive Fault where
  | none
  | emptyTree
  | tooDeep
  | duplicateName
  | emptyName
  | reservedPrefix
  deriving DecidableEq, Repr

namespace Fault

def code : Fault → Int32
  | none => 0
  | emptyTree => 1
  | tooDeep => 2
  | duplicateName => 3
  | emptyName => 4
  | reservedPrefix => 5

def ofCode (code : Int32) : Option Fault :=
  [none, emptyTree, tooDeep, duplicateName, emptyName, reservedPrefix].find? (·.code = code)

/-- `fault_name`. -/
def name : Fault → String
  | none => "none"
  | emptyTree => "empty_tree"
  | tooDeep => "too_deep"
  | duplicateName => "duplicate_name"
  | emptyName => "empty_name"
  | reservedPrefix => "reserved_prefix"

theorem ofCode_code (f : Fault) : ofCode f.code = some f := by
  cases f <;> rfl

end Fault

abbrev Name := List Char

instance : LawfulBEq Name := inferInstanceAs (LawfulBEq (List Char))

inductive Node where
  | mk (name : Name) (children : List Node)

/-- Where the audit's source creates a failure, and where it propagates one. -/
structure Sites (L : Type) where
  fault : L
  name : L
  child : L

/-- What a walk passes on by reference, and the thread it runs on. -/
structure Walk (L : Type) where
  seen : List Name
  place : Name
  desk : Desk L

/-- A fallible step of the walk. -/
abbrev Step (L : Type) := ExceptT RichError (StateM (Walk L))

/-- `return fail(fault(f))`. -/
def raise (sites : Sites L) (f : Fault) : Step L α := fun w =>
  let (e, desk) := w.desk.create f.code 0x6A78 sites.fault
  (.error e, { w with desk })

/-- `JMPXX_TRY` and `JMPXX_TRYV`: a failure is noted at the site and returned. -/
def tried (site : L) (m : Step L α) : Step L α := fun w =>
  match m w with
  | (.ok a, w') => (.ok a, w')
  | (.error e, w') => (.error e, { w' with desk := w'.desk.on (.addHop e.handle site) })

def checkName (sites : Sites L) (name : Name) : Step L Name := do
  if name = [] then raise sites .emptyName
  else if "tmp_".toList <+: name then raise sites .reservedPrefix
  else do
    let w ← get
    if name ∈ w.seen then raise sites .duplicateName
    else do
      set { w with seen := name :: w.seen }
      pure name

mutual

def visit (sites : Sites L) (maxDepth : ℕ) : Node → ℕ → Step L ℕ
  | .mk name children, depth =>
    if depth > maxDepth then do
      modify fun w => { w with place := name }
      raise sites .tooDeep
    else do
      modify fun w => { w with place := name }
      let _ ← tried sites.name (checkName sites name)
      visitChildren sites maxDepth children (depth + 1) 1

def visitChildren (sites : Sites L) (maxDepth : ℕ) : List Node → ℕ → ℕ → Step L ℕ
  | [], _, counted => pure counted
  | child :: children, depth, counted => do
    let below ← tried sites.child (visit sites maxDepth child depth)
    visitChildren sites maxDepth children depth (counted + below)

end

/-- The audit's settings; the limit is kept within the engine's bounds. -/
structure Auditor where
  maxDepth : ℕ
  clamped : 1 ≤ maxDepth ∧ maxDepth ≤ 64

def Auditor.initial : Auditor := ⟨8, by decide⟩

def clamp (depth : Int32) : ℕ := (max 1 (min depth.toInt 64)).toNat

theorem clamp_bounds (depth : Int32) : 1 ≤ clamp depth ∧ clamp depth ≤ 64 := by
  unfold clamp
  omega

def setMaxDepth (depth : Int32) : Auditor := ⟨clamp depth, clamp_bounds depth⟩

/-- The dictionary that script receives; `none` is a key that it does not hold. -/
structure Report (L : Type) where
  ok : Bool
  fault : String
  nodes : ℕ
  place : Option Name
  originAvailable : Option Bool
  origin : Option L
  hops : Option ℕ
  deriving DecidableEq, Repr

def faulty (e : RichError) (w : Walk L) : Report L :=
  let context := inspect w.desk.thread.store e
  { ok := false
    fault := (Fault.ofCode e.code).elim "" Fault.name
    nodes := 0
    place := some w.place
    originAvailable := some context.isSome
    origin := context.map (·.origin)
    hops := context.map (·.hops.length) }

def audit (sites : Sites L) (a : Auditor) (root : Option Node) (d : Desk L) :
    Report L × Desk L :=
  let desk := d.on .enter
  match root with
  | none => (⟨false, Fault.emptyTree.name, 0, none, none, none, none⟩, desk.on .exit)
  | some root =>
    match visit sites a.maxDepth root 0 ⟨[], [], desk⟩ with
    | (.ok nodes, w) => (⟨true, Fault.none.name, nodes, none, none, none, none⟩, w.desk.on .exit)
    | (.error e, w) => (faulty e w, w.desk.on .exit)

inductive Call where
  | setMaxDepth (depth : Int32)
  | audit (root : Option Node)

def calls (sites : Sites L) : Auditor → Desk L → List Call → List (Report L)
  | _, _, [] => []
  | _, d, .setMaxDepth depth :: rest => calls sites (setMaxDepth depth) d rest
  | a, d, .audit root :: rest =>
    (audit sites a root d).1 :: calls sites a (audit sites a root d).2 rest

mutual

/-- The nodes in the order a walk comes to them, each with its depth. -/
def preorder : ℕ → Node → List (ℕ × Name)
  | depth, .mk name children => (depth, name) :: preorderAll (depth + 1) children

def preorderAll : ℕ → List Node → List (ℕ × Name)
  | _, [] => []
  | depth, node :: nodes => preorder depth node ++ preorderAll depth nodes

end

/-- The first rule that a node breaks behind others of these names, if it breaks any. -/
def broken (maxDepth : ℕ) (before : List Name) (node : ℕ × Name) : Option Fault :=
  if maxDepth < node.1 then some .tooDeep
  else if node.2 = [] then some .emptyName
  else if "tmp_".toList <+: node.2 then some .reservedPrefix
  else if node.2 ∈ before then some .duplicateName
  else none

def firstBroken (maxDepth : ℕ) : List Name → List (ℕ × Name) → Option (Fault × ℕ × Name)
  | _, [] => none
  | before, node :: nodes =>
    match broken maxDepth before node with
    | some f => some (f, node)
    | none => firstBroken maxDepth (node.2 :: before) nodes

/-- The hops of a fault on its way up: one where the name was checked, and one a level. -/
def hopSites (sites : Sites L) (f : Fault) (levels : ℕ) : List L :=
  (if f = .tooDeep then [] else [sites.name]) ++ List.replicate levels sites.child

/-- What an audit of a tree reports, whatever was audited before. -/
def expected (sites : Sites L) (maxDepth : ℕ) : Option Node → Report L
  | none => ⟨false, Fault.emptyTree.name, 0, none, none, none, none⟩
  | some root =>
    match firstBroken maxDepth [] (preorder 0 root) with
    | none => ⟨true, Fault.none.name, (preorder 0 root).length, none, none, none, none⟩
    | some (f, depth, name) =>
      { ok := false
        fault := f.name
        nodes := 0
        place := some name
        originAvailable := some true
        origin := some sites.fault
        hops := some (min 16 (hopSites sites f depth).length) }

section Walks

variable {sites : Sites L} {maxDepth : ℕ} {w w' : Walk L}

theorem tried_ok {site : L} {m : Step L α} {a : α} (h : m w = (.ok a, w')) :
    tried site m w = (.ok a, w') := by
  rw [tried, h]

theorem tried_error {site : L} {m : Step L α} {e : RichError} (h : m w = (.error e, w')) :
    tried site m w = (.error e, { w' with desk := w'.desk.on (.addHop e.handle site) }) := by
  rw [tried, h]

theorem step_bind_ok {β : Type} {m : Step L α} {k : α → Step L β} {a : α}
    (h : m w = (.ok a, w')) : (m >>= k) w = k a w' := by
  show ExceptT.bindCont k (m w).1 (m w).2 = _
  rw [h]
  rfl

theorem step_bind_error {β : Type} {m : Step L α} {k : α → Step L β} {e : RichError}
    (h : m w = (.error e, w')) : (m >>= k) w = (.error e, w') := by
  show ExceptT.bindCont k (m w).1 (m w).2 = _
  rw [h]
  rfl

def born (sites : Sites L) (f : Fault) (d : Desk L) : RichError × Desk L :=
  d.create f.code 0x6A78 sites.fault

def climb (e : RichError) (hops : List L) (d : Desk L) : Desk L :=
  hops.foldl (fun d site => d.on (.addHop e.handle site)) d

theorem climb_concat (e : RichError) (hops : List L) (site : L) (d : Desk L) :
    climb e (hops ++ [site]) d = (climb e hops d).on (.addHop e.handle site) := by
  rw [climb, List.foldl_append]
  rfl

theorem hopSites_succ (f : Fault) (levels : ℕ) :
    hopSites sites f (levels + 1) = hopSites sites f levels ++ [sites.child] := by
  rw [hopSites, hopSites, List.append_assoc, List.replicate_succ']

/-- The check of a name breaks off with the first rule that is broken, or takes the name in. -/
theorem checkName_run {depth : ℕ} (hdepth : depth ≤ maxDepth) (name : Name) (w : Walk L) :
    checkName sites name w =
      match broken maxDepth w.seen (depth, name) with
      | some f => (.error (born sites f w.desk).1, { w with desk := (born sites f w.desk).2 })
      | none => (.ok name, { w with seen := name :: w.seen }) := by
  unfold checkName broken
  rw [if_neg (Nat.not_lt.mpr hdepth)]
  by_cases hempty : name = []
  · rw [if_pos hempty, if_pos hempty]
    rfl
  rw [if_neg hempty, if_neg hempty]
  by_cases hreserved : "tmp_".toList <+: name
  · rw [if_pos hreserved, if_pos hreserved]
    rfl
  rw [if_neg hreserved, if_neg hreserved]
  by_cases hseen : name ∈ w.seen
  · rw [if_pos hseen]
    show (if name ∈ w.seen then raise sites .duplicateName else _ : Step L Name) w = _
    rw [if_pos hseen]
    rfl
  · rw [if_neg hseen]
    show (if name ∈ w.seen then raise sites .duplicateName else _ : Step L Name) w = _
    rw [if_neg hseen]
    rfl

theorem firstBroken_append (before : List Name) (nodes nodes' : List (ℕ × Name)) :
    firstBroken maxDepth before (nodes ++ nodes') =
      match firstBroken maxDepth before nodes with
      | some found => some found
      | none => firstBroken maxDepth ((nodes.map Prod.snd).reverse ++ before) nodes' := by
  induction nodes generalizing before with
  | nil => rfl
  | cons node nodes ih =>
    rw [List.cons_append, firstBroken, firstBroken]
    cases broken maxDepth before node with
    | some f => rfl
    | none =>
      simp only
      rw [ih, List.map_cons, List.reverse_cons, List.append_assoc]
      rfl

/-- The walk over some nodes does what is found of them in order: it takes all their names in, or
comes back from the first that breaks a rule, over so many levels. -/
def Finds (sites : Sites L) (maxDepth : ℕ) (nodes : List (ℕ × Name)) (top extra : ℕ) (w : Walk L)
    (counted : ℕ) (result : Except RichError ℕ × Walk L) : Prop :=
  match firstBroken maxDepth w.seen nodes with
  | none => ∃ place, result =
      (.ok (counted + nodes.length), ⟨(nodes.map Prod.snd).reverse ++ w.seen, place, w.desk⟩)
  | some (f, depth, name) => top ≤ depth ∧ ∃ seen, result =
      (.error (born sites f w.desk).1, ⟨seen, name, climb (born sites f w.desk).1
        (hopSites sites f (depth - top + extra)) (born sites f w.desk).2⟩)

theorem broken_of_deep {depth : ℕ} (h : maxDepth < depth) (before : List Name) (name : Name) :
    broken maxDepth before (depth, name) = some .tooDeep := if_pos h

theorem ne_tooDeep_of_broken {depth : ℕ} {before : List Name} {name : Name} {f : Fault}
    (hdepth : depth ≤ maxDepth) (h : broken maxDepth before (depth, name) = some f) :
    f ≠ .tooDeep := by
  unfold broken at h
  rw [if_neg (Nat.not_lt.mpr hdepth)] at h
  split_ifs at h <;> cases h <;> decide

/-- A node that breaks a rule fails where it is: a name is checked one level under the node. -/
theorem visit_broken {name : Name} {depth : ℕ} {f : Fault}
    (h : broken maxDepth w.seen (depth, name) = some f) (children : List Node) :
    visit sites maxDepth (.mk name children) depth w =
      (.error (born sites f w.desk).1, ⟨w.seen, name, climb (born sites f w.desk).1
        (hopSites sites f 0) (born sites f w.desk).2⟩) := by
  rw [visit]
  by_cases hdeep : depth > maxDepth
  · rw [broken_of_deep hdeep] at h
    cases h
    rw [if_pos hdeep]
    rfl
  · have hdepth : depth ≤ maxDepth := Nat.not_lt.mp hdeep
    have hcheck := @checkName_run _ sites _ depth hdepth name { w with place := name }
    rw [h] at hcheck
    rw [if_neg hdeep, hopSites, if_neg (ne_tooDeep_of_broken hdepth h)]
    exact (step_bind_ok rfl).trans (step_bind_error (tried_error hcheck))

/-- A node that breaks none goes on to its children, its name among those seen. -/
theorem visit_unbroken {name : Name} {depth : ℕ}
    (h : broken maxDepth w.seen (depth, name) = none) (children : List Node) :
    visit sites maxDepth (.mk name children) depth w =
      visitChildren sites maxDepth children (depth + 1) 1 ⟨name :: w.seen, name, w.desk⟩ := by
  have hdepth : ¬ maxDepth < depth := by
    intro hdeep
    rw [broken_of_deep hdeep] at h
    exact absurd h (Option.some_ne_none _)
  have hcheck := @checkName_run _ sites _ depth (Nat.not_lt.mp hdepth) name { w with place := name }
  rw [h] at hcheck
  rw [visit, if_neg hdepth]
  exact (step_bind_ok rfl).trans (step_bind_ok (tried_ok hcheck))

mutual

theorem visit_finds (node : Node) (depth : ℕ) (w : Walk L) :
    Finds sites maxDepth (preorder depth node) depth 0 w 0 (visit sites maxDepth node depth w) := by
  obtain ⟨name, children⟩ := node
  rw [preorder, Finds, firstBroken]
  cases hbroken : broken maxDepth w.seen (depth, name) with
  | some f =>
    refine ⟨Nat.le_refl depth, w.seen, ?_⟩
    rw [visit_broken hbroken, Nat.sub_self]
  | none =>
    have hrest := visitChildren_finds children (depth + 1) 1 ⟨name :: w.seen, name, w.desk⟩
    rw [visit_unbroken hbroken]
    unfold Finds at hrest
    simp only at hrest ⊢
    cases hfound : firstBroken maxDepth (name :: w.seen) (preorderAll (depth + 1) children) with
    | none =>
      rw [hfound] at hrest
      obtain ⟨place, hresult⟩ := hrest
      refine ⟨place, hresult.trans ?_⟩
      rw [List.length_cons, List.map_cons, List.reverse_cons, List.append_assoc,
        List.singleton_append, Nat.zero_add, Nat.add_comm]
    | some found =>
      obtain ⟨f, depth', name'⟩ := found
      rw [hfound] at hrest
      obtain ⟨hle, seen, hresult⟩ := hrest
      refine ⟨by omega, seen, hresult.trans ?_⟩
      rw [show depth' - (depth + 1) + 1 = depth' - depth + 0 by omega]

theorem visitChildren_finds (nodes : List Node) (depth counted : ℕ) (w : Walk L) :
    Finds sites maxDepth (preorderAll depth nodes) depth 1 w counted
      (visitChildren sites maxDepth nodes depth counted w) := by
  cases nodes with
  | nil =>
    rw [preorderAll, visitChildren]
    exact ⟨w.place, rfl⟩
  | cons node nodes =>
    have hnode := visit_finds node depth w
    rw [preorderAll, visitChildren, Finds, firstBroken_append]
    unfold Finds at hnode
    cases hfound : firstBroken maxDepth w.seen (preorder depth node) with
    | none =>
      rw [hfound] at hnode
      obtain ⟨place, hresult⟩ := hnode
      have hrest := visitChildren_finds nodes depth (counted + (0 + (preorder depth node).length))
        ⟨((preorder depth node).map Prod.snd).reverse ++ w.seen, place, w.desk⟩
      rw [step_bind_ok (tried_ok hresult)]
      unfold Finds at hrest
      simp only at hrest ⊢
      cases hfound' : firstBroken maxDepth
          (((preorder depth node).map Prod.snd).reverse ++ w.seen) (preorderAll depth nodes) with
      | none =>
        rw [hfound'] at hrest
        obtain ⟨place', hresult'⟩ := hrest
        refine ⟨place', hresult'.trans ?_⟩
        rw [List.length_append, List.map_append, List.reverse_append, List.append_assoc,
          Nat.zero_add, Nat.add_assoc]
      | some found =>
        rw [hfound'] at hrest
        exact hrest
    | some found =>
      obtain ⟨f, depth', name⟩ := found
      rw [hfound] at hnode
      obtain ⟨hle, seen, hresult⟩ := hnode
      refine ⟨hle, seen, (step_bind_error (tried_error hresult)).trans ?_⟩
      rw [hopSites_succ, climb_concat]
      rfl

end

end Walks

section Landing

variable {sites : Sites L} {d : Desk L} {e : RichError} {f f' : Failure L}

theorem keeps_forget {own : Option (Failure L)} (h : Keeps own d) : Keeps none d where
  shape := h.shape
  chains := h.chains
  bounded := h.bounded
  others := h.others_mono (Nat.le_refl _) fun _ _ _ _ hnone => absurd hnone (Option.not_mem_none _)
  live := fun _ hnone => absurd hnone (Option.not_mem_none _)

/-- Each site on the way up is one more hop of the failure's own record. -/
theorem climb_keeps (h : Keeps (some f) d) (he : e.handle = f.handle) (hops : List L) :
    ∃ f', Keeps (some f') (climb e hops d) ∧ f'.handle = f.handle ∧ f'.origin = f.origin ∧
      f'.hops = f.hops ++ hops := by
  induction hops using List.reverseRecOn with
  | nil => exact ⟨f, h, rfl, rfl, (List.append_nil _).symm⟩
  | append_singleton hops site ih =>
    obtain ⟨f', hkeeps, hhandle, horigin, hhops⟩ := ih
    have hstep := hkeeps.hop site
    rw [climb_concat, he, ← hhandle]
    refine ⟨_, hstep, rfl, horigin, ?_⟩
    rw [← List.append_assoc, ← hhops]
    rfl

/-- The way up leaves the marks of the landings and the depth of the store. -/
theorem climb_frame (e : RichError) (hops : List L) (d : Desk L) :
    (climb e hops d).thread.marks = d.thread.marks ∧
      (climb e hops d).thread.store.depth = d.thread.store.depth ∧
        (climb e hops d).active = d.active ∧ (climb e hops d).opens = d.opens := by
  induction hops using List.reverseRecOn with
  | nil => exact ⟨rfl, rfl, rfl, rfl⟩
  | append_singleton hops site ih =>
    obtain ⟨hmarks, hdepth, hactive, hopens⟩ := ih
    rw [climb_concat]
    exact ⟨hmarks, (Store.addHop_depth _ _ _).trans hdepth, hactive,
      (Desk.opens_hop _ _ _).trans hopens⟩

/-- Leaving a landing brings the store back to the depth it was entered at. -/
theorem depth_exit {d' : Desk L} (hmarks : d'.thread.marks = (d.on .enter).thread.marks)
    (hdepth : d.thread.store.depth ≤ d'.thread.store.depth) :
    (d'.on .exit).thread.store.depth = d.thread.store.depth := by
  have hmarks' : d'.thread.marks = (d.thread.store.depth : ℤ) :: d.thread.marks := hmarks
  simp only [Desk.on, Thread.step, hmarks']
  rw [Store.truncate_depth]
  exact Nat.min_eq_left hdepth

structure Leaves (sites : Sites L) (maxDepth : ℕ) (root : Option Node) (d : Desk L)
    (result : Report L × Desk L) : Prop where
  report : result.1 = expected sites maxDepth root
  keeps : Keeps none result.2
  depth : result.2.thread.store.depth = d.thread.store.depth
  opens : result.2.opens ≤ d.opens + 1

theorem leaves_of_exit (h : Keeps none d) {maxDepth : ℕ} {root : Option Node} {report : Report L}
    (hreport : report = expected sites maxDepth root) :
    Leaves sites maxDepth root d (report, (d.on .enter).on .exit) where
  report := hreport
  keeps := (h.exit h.enter rfl fun _ hnone => absurd hnone (Option.not_mem_none _)).1
  depth := depth_exit rfl (Nat.le_refl _)
  opens := by
    rw [Desk.opens_exit, Desk.opens_enter]
    exact Nat.le_succ _

theorem faulty_leaves (h : Keeps none d) (hroom : d.thread.store.depth < maxInflight)
    (hbound : d.opens < wrap) {maxDepth : ℕ} {root : Node} {fault : Fault} {depth : ℕ} {name : Name}
    (hfound : firstBroken maxDepth [] (preorder 0 root) = some (fault, depth, name))
    {w : Walk L} (hplace : w.place = name)
    (hdesk : w.desk = climb (born sites fault (d.on .enter)).1 (hopSites sites fault depth)
      (born sites fault (d.on .enter)).2) :
    Leaves sites maxDepth (some root) d
      (faulty (born sites fault (d.on .enter)).1 w, w.desk.on .exit) := by
  have hopens : (born sites fault (d.on .enter)).2.opens = d.opens + 1 :=
    ((d.on .enter).opens_on _).trans (congrArg (· + 1) d.opens_enter)
  have hborn : Keeps (some ((d.on .enter).thread.ledger.newFailure
      (d.on .enter).thread.store.nextId sites.fault)) (born sites fault (d.on .enter)).2 :=
    h.enter.born hroom fault.code 0x6A78 sites.fault (hopens.trans_le hbound)
  have hhandle : (born sites fault (d.on .enter)).1.handle =
      (d.on .enter).thread.store.nextId := Store.openRecord_fst _ _
  obtain ⟨f, hf, hfhandle, horigin, hhops⟩ :=
    climb_keeps hborn hhandle (hopSites sites fault depth)
  obtain ⟨hmarks, hdepth, hactive, hopens'⟩ := climb_frame (born sites fault (d.on .enter)).1
    (hopSites sites fault depth) (born sites fault (d.on .enter)).2
  have hstore : (born sites fault (d.on .enter)).2.thread.store.depth =
      d.thread.store.depth + 1 := Store.openRecord_depth _ _ hroom
  rw [← hdesk] at hf hmarks hdepth hactive hopens'
  have hcontext : inspect w.desk.thread.store (born sites fault (d.on .enter)).1 =
      some ⟨sites.fault, (hopSites sites fault depth).take 16,
        decide (16 < (hopSites sites fault depth).length)⟩ := by
    unfold inspect
    rw [lookup_eq_some_iff hf.shape hf.chains (hf.shape.distinctLive hf.bounded)]
    refine ⟨f, hf.live f rfl, hfhandle.trans hhandle.symm, ?_⟩
    rw [Failure.context, horigin, hhops]
    rfl
  constructor
  · rw [faulty, expected, hfound, hcontext, hplace]
    have hcode : Fault.ofCode (born sites fault (d.on .enter)).1.code = some fault :=
      Fault.ofCode_code fault
    simp [hcode]
  · exact (h.exit (keeps_forget hf) hactive fun _ hnone =>
      absurd hnone (Option.not_mem_none _)).1
  · exact depth_exit hmarks (by omega)
  · rw [Desk.opens_exit]
    omega

theorem audit_leaves (h : Keeps none d) (hroom : d.thread.store.depth < maxInflight)
    (hbound : d.opens < wrap) (a : Auditor) (root : Option Node) :
    Leaves sites a.maxDepth root d (audit sites a root d) := by
  cases root with
  | none => exact leaves_of_exit h rfl
  | some root =>
    have hfinds := @visit_finds _ sites a.maxDepth root 0 ⟨[], [], d.on .enter⟩
    unfold Finds at hfinds
    simp only at hfinds
    unfold audit
    cases hfound : firstBroken a.maxDepth [] (preorder 0 root) with
    | none =>
      rw [hfound] at hfinds
      obtain ⟨place, hrun⟩ := hfinds
      simp only [hrun]
      apply leaves_of_exit h
      rw [expected, hfound, Nat.zero_add]
    | some found =>
      obtain ⟨fault, depth, name⟩ := found
      rw [hfound] at hfinds
      obtain ⟨-, seen, hrun⟩ := hfinds
      simp only [hrun]
      exact faulty_leaves h hroom hbound hfound rfl rfl

end Landing

def expectedCalls (sites : Sites L) : ℕ → List Call → List (Report L)
  | _, [] => []
  | _, .setMaxDepth depth :: rest => expectedCalls sites (clamp depth) rest
  | maxDepth, .audit root :: rest => expected sites maxDepth root :: expectedCalls sites maxDepth rest

theorem calls_of_keeps {sites : Sites L} {a : Auditor} {d : Desk L} (h : Keeps none d)
    (hroom : d.thread.store.depth < maxInflight) {cs : List Call}
    (hbound : d.opens + cs.length ≤ wrap) :
    calls sites a d cs = expectedCalls sites a.maxDepth cs := by
  induction cs generalizing a d with
  | nil => rfl
  | cons c cs ih =>
    rw [List.length_cons] at hbound
    cases c with
    | setMaxDepth depth => exact ih h hroom (by omega)
    | audit root =>
      have hleaves : Leaves sites a.maxDepth root d (audit sites a root d) :=
        audit_leaves h hroom (by omega) a root
      have hopens := hleaves.opens
      rw [calls, expectedCalls, hleaves.report]
      rw [ih hleaves.keeps (hleaves.depth.trans_lt hroom) (by omega)]

/-- Every audit of a sequence on one thread reports what its own tree comes to, whatever failed before
it: no audit leaves anything behind in the thread's diagnostics. -/
theorem calls_independent [Inhabited L] {d : Desk L} (hd : Reached d)
    (hroom : d.thread.store.depth < maxInflight) {cs : List Call}
    (hbound : d.opens + cs.length ≤ 2 ^ 32 - 1) (sites : Sites L) (a : Auditor) :
    calls sites a d cs = expectedCalls sites a.maxDepth cs :=
  calls_of_keeps (hd.keeps (Nat.le_of_add_right_le hbound)) hroom hbound

/-- The node keeps to the rules that need no other. -/
def Allowed (maxDepth : ℕ) (node : ℕ × Name) : Prop :=
  node.1 ≤ maxDepth ∧ node.2 ≠ [] ∧ ¬ "tmp_".toList <+: node.2

def Sound (maxDepth : ℕ) (nodes : List (ℕ × Name)) : Prop :=
  (∀ node ∈ nodes, Allowed maxDepth node) ∧ (nodes.map Prod.snd).Nodup

section Order

variable {maxDepth : ℕ} {before : List Name} {nodes : List (ℕ × Name)} {node : ℕ × Name}

theorem broken_eq_none_iff :
    broken maxDepth before node = none ↔ Allowed maxDepth node ∧ node.2 ∉ before := by
  unfold broken Allowed
  rw [← Nat.not_lt]
  split_ifs <;> simp_all

theorem broken_congr {before' : List Name} (h : ∀ name, name ∈ before ↔ name ∈ before') :
    broken maxDepth before node = broken maxDepth before' node := by
  unfold broken
  simp only [h node.2]

theorem firstBroken_eq_none_iff :
    firstBroken maxDepth before nodes = none ↔
      Sound maxDepth nodes ∧ ∀ node ∈ nodes, node.2 ∉ before := by
  induction nodes generalizing before with
  | nil => simp [firstBroken, Sound]
  | cons node nodes ih =>
    rw [firstBroken]
    cases hbroken : broken maxDepth before node with
    | some f =>
      have hne : broken maxDepth before node ≠ none := by simp [hbroken]
      rw [ne_eq, broken_eq_none_iff] at hne
      constructor
      · intro h
        cases h
      · rintro ⟨⟨hallowed, -⟩, hfresh⟩
        exact absurd ⟨hallowed node (by simp), hfresh node (by simp)⟩ hne
    | none =>
      obtain ⟨hallowed, hfresh⟩ := broken_eq_none_iff.mp hbroken
      simp only [ih, Sound, List.mem_cons, forall_eq_or_imp, hallowed, hfresh, List.map_cons,
        List.nodup_cons, List.mem_map, true_and, not_or, not_false_eq_true]
      constructor
      · rintro ⟨⟨hall, hnodup⟩, hnew⟩
        refine ⟨⟨hall, ?_, hnodup⟩, fun x hx => (hnew x hx).2⟩
        rintro ⟨x, hx, hname⟩
        exact (hnew x hx).1 hname
      · rintro ⟨⟨hall, hnot, hnodup⟩, hnew⟩
        exact ⟨⟨hall, hnodup⟩, fun x hx => ⟨fun hname => hnot ⟨x, hx, hname⟩, hnew x hx⟩⟩

/-- The first of the nodes to break a rule is found, and the rule. -/
theorem firstBroken_of_split {after : List (ℕ × Name)} {f : Fault} (hsound : Sound maxDepth nodes)
    (hbroken : broken maxDepth (nodes.map Prod.snd) node = some f) :
    firstBroken maxDepth [] (nodes ++ node :: after) = some (f, node) := by
  have hnone : firstBroken maxDepth [] nodes = none :=
    firstBroken_eq_none_iff.mpr ⟨hsound, fun _ _ => List.not_mem_nil⟩
  have hcongr : broken maxDepth ((nodes.map Prod.snd).reverse ++ []) node = some f := by
    rw [← hbroken]
    exact broken_congr fun name => by simp
  rw [firstBroken_append, hnone]
  simp only
  rw [firstBroken, hcongr]

end Order

/-- An audit succeeds exactly when every node keeps to the rules, and counts them; else it reports the
first that does not, the first rule that it breaks, and how far its fault has come. -/
theorem audit_reports_first [Inhabited L] {d : Desk L} (hd : Reached d)
    (hroom : d.thread.store.depth < maxInflight) (hbound : d.opens < 2 ^ 32 - 1) (sites : Sites L)
    (a : Auditor) (root : Node) :
    ((audit sites a (some root) d).1.ok = true ↔ Sound a.maxDepth (preorder 0 root)) ∧
      (Sound a.maxDepth (preorder 0 root) →
        (audit sites a (some root) d).1.nodes = (preorder 0 root).length) ∧
      ∀ before node after fault, preorder 0 root = before ++ node :: after →
        Sound a.maxDepth before → broken a.maxDepth (before.map Prod.snd) node = some fault →
        (audit sites a (some root) d).1 =
          { ok := false
            fault := fault.name
            nodes := 0
            place := some node.2
            originAvailable := some true
            origin := some sites.fault
            hops := some (min 16 (node.1 + if fault = .tooDeep then 0 else 1)) } := by
  have hkeeps : Keeps none d := hd.keeps (Nat.le_of_lt hbound)
  have hleaves : Leaves sites a.maxDepth (some root) d (audit sites a (some root) d) :=
    audit_leaves hkeeps hroom hbound a (some root)
  have hnone : firstBroken a.maxDepth [] (preorder 0 root) = none ↔
      Sound a.maxDepth (preorder 0 root) := by
    rw [firstBroken_eq_none_iff]
    exact and_iff_left fun _ _ => List.not_mem_nil
  rw [hleaves.report, expected]
  refine ⟨?_, ?_, ?_⟩
  · rw [← hnone]
    cases firstBroken a.maxDepth [] (preorder 0 root) <;> simp
  · intro hsound
    rw [hnone.mpr hsound]
  · intro before node after fault hsplit hsound hbroken
    rw [hsplit, firstBroken_of_split hsound hbroken]
    simp only [hopSites, List.length_append, List.length_replicate]
    split_ifs <;> simp [Nat.add_comm]

/-- A root with a child, and below that one of the root's name. -/
def doubled : Node := .mk "a".toList [.mk "b".toList [.mk "a".toList []]]

def lines : Sites ℕ := ⟨41, 76, 82⟩

theorem audit_reports_first_doubled :
    (audit lines .initial (some doubled) .initial).1 =
      ⟨false, "duplicate_name", 0, some "a".toList, some true, some 41, some 3⟩ := by
  have h := (audit_reports_first (L := ℕ) .initial (by decide) (by decide) lines .initial doubled).2.2
  exact h [(0, "a".toList), (1, "b".toList)] (2, "a".toList) [] .duplicateName (by decide)
    ⟨by simp [Allowed]; decide, by decide⟩ (by decide)

theorem calls_independent_doubled :
    calls lines .initial Desk.initial [.audit (some doubled), .setMaxDepth 1, .audit (some doubled),
      .audit none, .audit (some (.mk "a".toList []))] =
    [⟨false, "duplicate_name", 0, some "a".toList, some true, some 41, some 3⟩,
      ⟨false, "too_deep", 0, some "a".toList, some true, some 41, some 2⟩,
      ⟨false, "empty_tree", 0, none, none, none, none⟩,
      ⟨true, "none", 1, none, none, none, none⟩] :=
  (calls_independent .initial (by decide) (by decide) lines .initial).trans (by decide)

end Jmpxx.Scene
