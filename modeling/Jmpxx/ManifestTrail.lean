import Jmpxx.ManifestLayout
import Mathlib.Data.List.Infix

namespace Jmpxx.Manifest

variable {w : Width} {buf : Buffer w} {kit : Kit}

def Entry.Plausible (e : Entry) : Prop := e.image ≠ [] ∧ e.image.length ≤ maxImageBytes

instance (e : Entry) : Decidable e.Plausible := inferInstanceAs (Decidable (_ ∧ _))

def Entry.Matches (kit : Kit) (e : Entry) : Prop := (kit.sha256 e.image).toList = e.digest

instance (e : Entry) : Decidable (e.Matches kit) := inferInstanceAs (Decidable (_ = _))

def named (entries : List Entry) (name : List UInt8) : Option Entry :=
  entries.find? fun e => e.name = name

local instance bytesLawfulBEq : LawfulBEq (List UInt8) := inferInstance

section Trails

variable (kit) (entries : List Entry) (path : List (List UInt8))

/-- The verifier goes on from an entry below the names on the path to the one it references. -/
structure GoesOn (e e' : Entry) : Prop where
  allocates : kit.allocates path.length = true
  sized : e.Plausible
  references : e.ref ≠ []
  found : named entries e.ref = some e'
  fresh : e.ref ∉ path ++ [e.name]
  room : path.length < maxDepth

/-- The chain goes on from each entry to the next, and not from the last. -/
def Trail : List (List UInt8) → Entry → List Entry → Prop
  | path, e, [] => ∀ e', ¬ GoesOn kit entries path e e'
  | path, e, e' :: chain => GoesOn kit entries path e e' ∧ Trail (path ++ [e.name]) e' chain

/-- The fault, other than in a digest, that the verifier meets with at an entry from which it does
not go on. -/
def stop (e : Entry) : Option Refusal :=
  if kit.allocates path.length = false then some ⟨.digestUnavailable, path.length, digestName⟩
  else if ¬ e.Plausible then some ⟨.implausibleLength, path.length, e.name⟩
  else if e.ref = [] then none
  else if named entries e.ref = none then some ⟨.referenceMissing, path.length, e.ref⟩
  else if e.ref ∈ path ++ [e.name] then some ⟨.referenceCycle, path.length + 1, e.ref⟩
  else some ⟨.nestingTooDeep, path.length + 1, e.ref⟩

end Trails

/-- The deepest entry whose image has another digest than it declares, with its depth. -/
def deepestMismatch (kit : Kit) (depth : ℕ) (chain : List Entry) : Option (Entry × ℕ) :=
  (chain.zipIdx depth).reverse.find? fun x => ¬ x.1.Matches kit

/-- The verdict on a chain that begins with an entry below the names on the path: the fault that stops
it, else the deepest wrong digest, else as many entries as it has. -/
def verdict (kit : Kit) (entries : List Entry) (path : List (List UInt8)) (e : Entry)
    (chain : List Entry) : Except Refusal ℕ :=
  match stop kit entries (path ++ (e :: chain).dropLast.map Entry.name) (chain.getLastD e) with
  | some r => .error r
  | none =>
    match deepestMismatch kit path.length (e :: chain) with
    | some x => .error ⟨.digestMismatch, x.2, x.1.name⟩
    | none => .ok (e :: chain).length

section Descent

variable {entries : List Entry} {path : List (List UInt8)} {e e' : Entry} {chain : List Entry}

def joined (kit : Kit) (depth : ℕ) (e : Entry) (below : Except Refusal ℕ) : Except Refusal ℕ := do
  let m ← below
  if e.Matches kit then pure (m + 1) else .error ⟨.digestMismatch, depth, e.name⟩

/-- The descent over entries, as `judge` makes it over offsets. -/
def follow (kit : Kit) (entries : List Entry) : ℕ → List (List UInt8) → Entry → Except Refusal ℕ
  | 0, path, e => .error ⟨.nestingTooDeep, path.length, e.name⟩
  | fuel + 1, path, e =>
    if e.name ∈ path then .error ⟨.referenceCycle, path.length, e.name⟩
    else if maxDepth < path.length then .error ⟨.nestingTooDeep, path.length, e.name⟩
    else if kit.allocates path.length then
      if ¬ e.Plausible then .error ⟨.implausibleLength, path.length, e.name⟩
      else joined kit path.length e (
        if e.ref = [] then .ok 0
        else
          match named entries e.ref with
          | none => .error ⟨.referenceMissing, path.length, e.ref⟩
          | some target => follow kit entries fuel (path ++ [e.name]) target)
    else .error ⟨.digestUnavailable, path.length, digestName⟩

theorem follow_of_goesOn (h : GoesOn kit entries path e e') (hname : e.name ∉ path) (fuel : ℕ) :
    follow kit entries (fuel + 1) path e =
      joined kit path.length e (follow kit entries fuel (path ++ [e.name]) e') := by
  have hroom : ¬ maxDepth < path.length := Nat.not_lt.mpr h.room.le
  rw [follow, if_neg hname, if_neg hroom, if_pos h.allocates, if_neg (not_not.mpr h.sized),
    if_neg h.references, h.found]

theorem name_of_named {name : List UInt8} (h : named entries name = some e) : e.name = name :=
  name_of_find h

/-- Where the verifier does not go on, it stops, or judges the entry by its digest alone. -/
theorem follow_of_stops (h : ∀ e', ¬ GoesOn kit entries path e e') (hname : e.name ∉ path)
    (hroom : path.length ≤ maxDepth) {fuel : ℕ} (hfuel : maxDepth < fuel + path.length) :
    follow kit entries (fuel + 1) path e =
      match stop kit entries path e with
      | some r => .error r
      | none => joined kit path.length e (.ok 0) := by
  rw [follow, if_neg hname, if_neg (Nat.not_lt.mpr hroom), stop]
  by_cases halloc : kit.allocates path.length = true
  · have hgranted : ¬ kit.allocates path.length = false := by
      rw [halloc]
      decide
    rw [if_pos halloc, if_neg hgranted]
    by_cases hsized : e.Plausible
    · rw [if_neg (not_not.mpr hsized), if_neg (not_not.mpr hsized)]
      by_cases href : e.ref = []
      · rw [if_pos href, if_pos href]
      · rw [if_neg href, if_neg href]
        cases hfound : named entries e.ref with
        | none =>
          rw [if_pos rfl]
          rfl
        | some target =>
          have htarget := name_of_named hfound
          rw [if_neg (Option.some_ne_none target)]
          obtain ⟨fuel, rfl⟩ := Nat.exists_eq_succ_of_ne_zero (show fuel ≠ 0 by omega)
          simp only
          rw [follow, htarget]
          by_cases hcycle : e.ref ∈ path ++ [e.name]
          · rw [if_pos hcycle, if_pos hcycle, List.length_append]
            rfl
          · have hdeep : ¬ path.length < maxDepth := fun hless =>
              h target ⟨halloc, hsized, href, hfound, hcycle, hless⟩
            rw [if_neg hcycle, if_neg hcycle, List.length_append, List.length_singleton,
              if_pos (by omega)]
            rfl
    · rw [if_pos hsized, if_pos hsized]
  · rw [if_neg halloc, if_pos (Bool.eq_false_iff.mpr halloc)]

theorem deepestMismatch_cons (depth : ℕ) :
    deepestMismatch kit depth (e :: chain) =
      (deepestMismatch kit (depth + 1) chain).or
        (if e.Matches kit then none else some (e, depth)) := by
  rw [deepestMismatch, List.zipIdx_cons, List.reverse_cons, List.find?_append, List.find?_singleton]
  by_cases hmatch : e.Matches kit <;> simp [hmatch, deepestMismatch]

/-- A verdict on a chain of one. -/
theorem verdict_nil :
    verdict kit entries path e [] =
      match stop kit entries path e with
      | some r => .error r
      | none => joined kit path.length e (.ok 0) := by
  rw [verdict, deepestMismatch_cons]
  simp only [List.dropLast_singleton, List.map_nil, List.append_nil, List.getLastD_nil]
  cases stop kit entries path e with
  | some r => rfl
  | none =>
    by_cases hmatch : e.Matches kit
    · simp [hmatch, joined, deepestMismatch]
    · simp [hmatch, joined, deepestMismatch]
      rfl

/-- A verdict on a longer chain, from that on what is below its first entry. -/
theorem verdict_cons :
    verdict kit entries path e (e' :: chain) =
      joined kit path.length e (verdict kit entries (path ++ [e.name]) e' chain) := by
  rw [verdict, verdict, deepestMismatch_cons]
  have hlast : (e' :: chain).getLastD e = chain.getLastD e' := by rw [List.getLastD_cons]
  have hpath : path ++ (e :: e' :: chain).dropLast.map Entry.name =
      (path ++ [e.name]) ++ (e' :: chain).dropLast.map Entry.name := by
    rw [List.dropLast_cons_cons, List.map_cons, List.append_assoc, List.singleton_append]
  rw [hlast, hpath]
  cases stop kit entries ((path ++ [e.name]) ++ (e' :: chain).dropLast.map Entry.name)
      (chain.getLastD e') with
  | some r => rfl
  | none =>
    rw [List.length_append, List.length_singleton]
    simp only
    cases deepestMismatch kit (path.length + 1) (e' :: chain) with
    | some x => rfl
    | none =>
      by_cases hmatch : e.Matches kit
      · simp [hmatch, joined]
      · simp [hmatch, joined]
        rfl

/-- The descent over entries comes to the verdict on the trail. -/
theorem follow_eq_verdict (h : Trail kit entries path e chain) (hname : e.name ∉ path)
    (hroom : path.length ≤ maxDepth) {fuel : ℕ} (hfuel : maxDepth < fuel + path.length) :
    follow kit entries (fuel + 1) path e = verdict kit entries path e chain := by
  induction chain generalizing path e fuel with
  | nil =>
    rw [verdict_nil]
    exact follow_of_stops h hname hroom hfuel
  | cons e' chain ih =>
    obtain ⟨hon, htrail⟩ := h
    have hname' := name_of_named hon.found
    have hless := hon.room
    obtain ⟨fuel, rfl⟩ := Nat.exists_eq_succ_of_ne_zero (show fuel ≠ 0 by omega)
    rw [follow_of_goesOn hon hname, verdict_cons, ih htrail (hname' ▸ hon.fresh)]
    · rw [List.length_append, List.length_singleton]
      omega
    · rw [List.length_append, List.length_singleton]
      omega

/-- There is room for seven names on the path: from every entry a trail comes to its end. -/
theorem exists_trail (kit : Kit) (entries : List Entry) (path : List (List UInt8)) (e : Entry) :
    ∃ chain, Trail kit entries path e chain := by
  induction hspare : maxDepth - path.length using Nat.strong_induction_on generalizing path e with
  | _ spare ih =>
    by_cases hon : ∃ e', GoesOn kit entries path e e'
    · obtain ⟨e', hon⟩ := hon
      have hless := hon.room
      have hlength : (path ++ [e.name]).length = path.length + 1 := by
        rw [List.length_append, List.length_singleton]
      obtain ⟨chain, hchain⟩ := ih (maxDepth - (path ++ [e.name]).length) (by omega)
        (path ++ [e.name]) e' rfl
      exact ⟨e' :: chain, hon, hchain⟩
    · exact ⟨[], fun e' he => hon ⟨e', he⟩⟩

end Descent

section Offsets

def Buffer.entries (buf : Buffer w) : List Entry := walk (buf.byte 5).toNat (buf.bytes.drop 6)

/-- No declared length leads the search astray. -/
def Buffer.Straight (buf : Buffer w) : Prop :=
  6 ≤ buf.size ∧ ∀ want, ¬ Comes buf want (buf.byte 5).toNat 6 true

theorem map_located (n offset : ℕ) (bytes : List UInt8) :
    (located n offset bytes).map Prod.fst = walk n bytes := by
  induction n generalizing offset bytes with
  | zero => rfl
  | succ n ih =>
    rw [located, walk]
    cases takeEntry bytes with
    | none => rfl
    | some p => exact congrArg (p.1 :: ·) (ih _ _)

/-- At the offset an entry is located at stands its content. -/
theorem content_of_located (n : ℕ) {pos : ℕ} (hpos : pos ≤ buf.size) {x : Entry × ℕ}
    (hx : x ∈ located n pos (buf.bytes.drop pos)) :
    x.2 ≤ buf.size ∧ ∃ h, buf.headAt x.2 = some h ∧ h.image + h.length ≤ buf.size ∧
      contentOf buf h = x.1.toContent := by
  induction n generalizing pos with
  | zero => cases hx
  | succ n ih =>
    rw [located] at hx
    cases hbody : buf.bodyAt pos with
    | none =>
      rw [takeEntry_drop hpos, hbody] at hx
      cases hx
    | some body =>
      cases hhead : buf.headAt body with
      | none =>
        rw [takeEntry_drop hpos, hbody, Option.bind_some, takeContent_drop (bodyAt_le hbody),
          hhead] at hx
        cases hx
      | some h =>
        rw [takeEntry_of_headAt hpos hbody hhead] at hx
        by_cases hfits : h.image + h.length ≤ buf.size
        · obtain ⟨hstart, hnext⟩ := size_of_headAt hbody hhead hfits
          rw [if_pos hfits, Option.elim_some, hstart, hnext] at hx
          rcases List.mem_cons.mp hx with rfl | hx
          · exact ⟨bodyAt_le hbody, h, hhead, hfits, rfl⟩
          · exact ih hfits hx
        · rw [if_neg hfits] at hx
          cases hx

/-- What stands at the offset of the first entry of a name. -/
theorem entry_named (hstraight : buf.Straight) (want : List UInt8) :
    match named buf.entries want with
    | none => buf.entry want = none
    | some e => ∃ body h, buf.entry want = some body ∧ body ≤ buf.size ∧ buf.headAt body = some h ∧
        h.image + h.length ≤ buf.size ∧ contentOf buf h = e.toContent := by
  obtain ⟨hsize, hcomes⟩ := hstraight
  have hentry : buf.entry want = ((located (buf.byte 5).toNat 6 (buf.bytes.drop 6)).find? fun x =>
      x.1.name = want).map Prod.snd := by
    rw [Buffer.entry, if_pos hsize]
    exact (find_eq_located_iff _ hsize).mpr (hcomes want)
  have hnamed : named buf.entries want = ((located (buf.byte 5).toNat 6 (buf.bytes.drop 6)).find?
      fun x => x.1.name = want).map Prod.fst := by
    rw [named, Buffer.entries, ← map_located _ 6, List.find?_map]
    rfl
  rw [hnamed, hentry]
  cases hfind : (located (buf.byte 5).toNat 6 (buf.bytes.drop 6)).find? fun x => x.1.name = want with
  | none => rfl
  | some x =>
    obtain ⟨hle, h, hhead, hfits, hcontent⟩ :=
      content_of_located _ hsize (List.mem_of_find?_eq_some hfind)
    exact ⟨x.2, h, rfl, hle, hhead, hfits, hcontent⟩

theorem ref_fits {body : ℕ} {h : Head} (hhead : buf.headAt body = some h) :
    h.ref + h.refLen ≤ buf.size := by
  unfold Buffer.headAt at hhead
  split_ifs at hhead with hfits
  rw [← Option.some.inj hhead]
  exact hfits.2

/-- The descent over offsets is the one over entries. -/
theorem judge_eq_follow (hstraight : buf.Straight) (fuel : ℕ) (path : List (List UInt8)) {body : ℕ}
    {h : Head} {e : Entry} (hhead : buf.headAt body = some h)
    (hfits : h.image + h.length ≤ buf.size) (hcontent : contentOf buf h = e.toContent) :
    judge kit buf fuel path e.name body = follow kit buf.entries fuel path e := by
  induction fuel generalizing path body h e with
  | zero => rfl
  | succ fuel ih =>
    have himage : buf.slice h.image h.length = e.image := congrArg Content.image hcontent
    have href : buf.slice h.ref h.refLen = e.ref := congrArg Content.ref hcontent
    have hdigest : buf.slice h.digest digestBytes = e.digest := congrArg Content.digest hcontent
    have hlength : h.length = e.image.length := by rw [← himage, length_slice hfits]
    have hroom : h.ref + h.refLen ≤ buf.size := ref_fits hhead
    have hrefLen : h.refLen = e.ref.length := by rw [← href, length_slice hroom]
    have hsized : (h.length = 0 ∨ h.length > maxImageBytes) ↔ ¬ e.Plausible := by
      rw [Entry.Plausible, hlength, List.length_eq_zero_iff, not_and_or, not_not, Nat.not_le]
    rw [judge, follow, judgeBody, hhead]
    simp only [hsized]
    have hreference : judgeReference buf path.length (judge kit buf fuel (path ++ [e.name])) h =
        if e.ref = [] then .ok 0
        else
          match named buf.entries e.ref with
          | none => .error ⟨.referenceMissing, path.length, e.ref⟩
          | some target => follow kit buf.entries fuel (path ++ [e.name]) target := by
      rw [judgeReference, href, hrefLen]
      simp only [List.length_eq_zero_iff]
      by_cases hempty : e.ref = []
      · rw [if_pos hempty, if_pos hempty]
        rfl
      · rw [if_neg hempty, if_neg hempty]
        have hentry := entry_named hstraight e.ref
        cases hfound : named buf.entries e.ref with
        | none =>
          rw [hfound] at hentry
          rw [hentry]
        | some target =>
          rw [hfound] at hentry
          obtain ⟨body', h', hbody', -, hhead', hfits', hcontent'⟩ := hentry
          rw [hbody', ← name_of_named hfound]
          exact ih (path ++ [e.name]) hhead' hfits' hcontent'
    have hown : judgeImage kit buf path.length e.name h =
        if e.Matches kit then .ok 1 else .error ⟨.digestMismatch, path.length, e.name⟩ := by
      rw [judgeImage, if_neg (Nat.not_lt.mpr hfits), himage, hdigest]
      rfl
    rw [hreference, hown]
    congr! 4
    rw [joined]
    congr 1
    funext m
    by_cases hmatch : e.Matches kit
    · simp [hmatch]
      rfl
    · simp [hmatch]

end Offsets

section Reports

def Buffer.Headed (buf : Buffer w) : Prop := magic ++ [1] <+: buf.bytes

theorem Buffer.Headed.header (h : buf.Headed) : buf.slice 0 4 = magic ∧ buf.byte 4 = 1 := by
  obtain ⟨rest, hrest⟩ := h
  constructor
  · rw [Buffer.slice, ← hrest]
    rfl
  · rw [Buffer.byte, ← hrest]
    rfl

/-- The first entry, where it stands. -/
theorem first_entry (hsize : 6 ≤ buf.size) {first : Entry}
    (hfirst : buf.entries.head? = some first) :
    buf.byte 5 ≠ 0 ∧ 7 + (buf.byte 6).toNat ≤ buf.size ∧
      first.name = buf.slice 7 (buf.byte 6).toNat ∧
      ∃ h, buf.headAt (7 + (buf.byte 6).toNat) = some h ∧ h.image + h.length ≤ buf.size ∧
        contentOf buf h = first.toContent := by
  have hcount : buf.byte 5 ≠ 0 := by
    intro hzero
    rw [Buffer.entries, hzero] at hfirst
    cases hfirst
  have hpos : (buf.byte 5).toNat ≠ 0 := fun h => hcount (UInt8.toNat_inj.mp h)
  obtain ⟨n, hn⟩ := Nat.exists_eq_succ_of_ne_zero hpos
  have htake : ∃ p, takeEntry (buf.bytes.drop 6) = some p ∧ p.1 = first := by
    rw [Buffer.entries, hn, Nat.succ_eq_add_one, walk] at hfirst
    cases htaken : takeEntry (buf.bytes.drop 6) with
    | none =>
      rw [htaken] at hfirst
      cases hfirst
    | some p =>
      rw [htaken] at hfirst
      exact ⟨p, rfl, Option.some.inj hfirst⟩
  obtain ⟨p, htaken, rfl⟩ := htake
  have hbody : buf.bodyAt 6 = some (7 + (buf.byte 6).toNat) := by
    cases hbody : buf.bodyAt 6 with
    | none =>
      rw [takeEntry_drop hsize, hbody] at htaken
      cases htaken
    | some body =>
      unfold Buffer.bodyAt at hbody
      split_ifs at hbody
      exact hbody.symm ▸ rfl
  have hle := bodyAt_le hbody
  cases hhead : buf.headAt (7 + (buf.byte 6).toNat) with
  | none =>
    rw [takeEntry_drop hsize, hbody, Option.bind_some, takeContent_drop hle, hhead] at htaken
    cases htaken
  | some h =>
    rw [takeEntry_of_headAt hsize hbody hhead] at htaken
    split_ifs at htaken with hfits
    obtain rfl := Option.some.inj htaken
    refine ⟨hcount, hle, ?_, h, rfl, hfits, rfl⟩
    show buf.slice 7 (7 + (buf.byte 6).toNat - 7) = _
    rw [Nat.add_sub_cancel_left]

theorem judgeManifest_eq_follow (hstraight : buf.Straight) (hheaded : buf.Headed) {first : Entry}
    (hfirst : buf.entries.head? = some first) (hname : first.name ≠ []) (fuel : ℕ) :
    judgeManifest kit buf fuel = follow kit buf.entries fuel [] first := by
  have hsize := hstraight.1
  obtain ⟨hmagic, hversion⟩ := hheaded.header
  obtain ⟨hcount, hbody, hfirstName, h, hhead, hfits, hcontent⟩ := first_entry hsize hfirst
  have hlength : buf.byte 6 ≠ 0 := by
    intro hzero
    rw [hfirstName, hzero] at hname
    exact hname rfl
  rw [judgeManifest, if_neg (by omega), if_neg (not_not.mpr hmagic), if_neg (not_not.mpr hversion),
    if_neg hcount, if_neg (by omega), if_neg (not_or.mpr ⟨hlength, by omega⟩), ← hfirstName]
  exact judge_eq_follow hstraight fuel [] hhead hfits hcontent

/-- The invocation asks for a verdict on the buffer. -/
structure Asks (i : Invocation w) (buf : Buffer w) : Prop where
  cmd : i.cmd = cmdVerify
  types : i.types = paramTypes paramMemrefInput paramValueOutput paramMemrefOutput paramNone
  input : i.input = some buf

theorem answer_of_asks {i : Invocation w} (h : Asks i buf) (hsize : buf.size ≠ 0) (fuel : ℕ) :
    answer fuel i = deserved i.capacity (judgeManifest i.kit buf fuel) := by
  have hverify : ¬ cmdVerify = cmdLayout := by decide
  rw [answer, h.cmd, if_neg hverify, if_neg (not_not.mpr rfl), if_neg (not_not.mpr h.types), h.input]
  simp only
  rw [if_neg hsize]

/-- A manifest's references make a trail from its first entry, and whatever was invoked before, the
report is the verdict on that trail: the fault that stops it, at the depth of the entry it stops at or
of the one that would follow; else the deepest wrong digest; else the number of entries. -/
theorem verify_reports (more : ℕ) (history : List (Invocation w)) {i : Invocation w}
    (hasks : Asks i buf) (hstraight : buf.Straight) (hheaded : buf.Headed) {first : Entry}
    (hfirst : buf.entries.head? = some first) (hname : first.name ≠ []) :
    (∃ chain, Trail i.kit buf.entries [] first chain) ∧
      ∀ chain, Trail i.kit buf.entries [] first chain →
        reportAfter (enough + more) history i =
          some (deserved i.capacity (verdict i.kit buf.entries [] first chain)) := by
  refine ⟨exists_trail i.kit buf.entries [] first, fun chain htrail => ?_⟩
  have hsize := hstraight.1
  rw [reportAfter_eq (Nat.le_add_right _ _), answer_of_asks hasks (by omega),
    judgeManifest_eq_follow hstraight hheaded hfirst hname]
  have hfuel : enough + more = maxDepth + 1 + more + 1 := by
    rw [enough]
    omega
  rw [hfuel, follow_eq_verdict htrail List.not_mem_nil (Nat.zero_le _)]
  rw [List.length_nil]
  omega

/-- A `size_t` of 64 bits leads no search astray. -/
theorem straight_of_wide {buf : Buffer .bits64} (hsize : 6 ≤ buf.size) : buf.Straight :=
  ⟨hsize, fun _ => not_comes_astray_of_wide _ _⟩

/-- Where every entry counted stands whole, no length is past the end. -/
theorem not_comes_astray_of_whole {want : List UInt8} (n : ℕ) {pos : ℕ} (hpos : pos ≤ buf.size)
    (hwhole : (walk n (buf.bytes.drop pos)).length = n) : ¬ Comes buf want n pos true := by
  induction n generalizing pos with
  | zero => exact fun h => by cases h
  | succ n ih =>
    intro hcomes
    obtain ⟨body, h, hbody, hhead, -, hrest⟩ := comes_succ_iff.mp hcomes
    have htake := takeEntry_of_headAt hpos hbody hhead
    by_cases hfits : h.image + h.length ≤ buf.size
    · have hwrap : w.wrap (h.image + h.length) = h.image + h.length := @wrap_eq w buf _ (by omega)
      rw [if_pos hfits] at htake
      rw [walk, htake, List.length_cons, Nat.add_right_cancel_iff] at hwhole
      rw [hwrap, decide_eq_false (Nat.not_lt.mpr hfits)] at hrest
      split_ifs at hrest with hname
      obtain ⟨more, hmore, heq⟩ := hrest
      rw [Bool.false_or] at heq
      exact ih hfits hwhole (heq ▸ hmore)
    · rw [if_neg hfits] at htake
      rw [walk, htake] at hwhole
      exact absurd hwhole (Nat.zero_ne_add_one n)

/-- Nor does a manifest that holds as many entries as it counts. -/
theorem straight_of_whole (hsize : 6 ≤ buf.size)
    (hwhole : buf.entries.length = (buf.byte 5).toNat) : buf.Straight :=
  ⟨hsize, fun _ => not_comes_astray_of_whole _ hsize hwhole⟩

end Reports

end Jmpxx.Manifest
