import Jmpxx.ManifestReader
import Mathlib.Data.List.Nodup

namespace Jmpxx.Manifest

open Throwing

variable {w : Width}

/-- A fault, the depth it was found at and the name it is reported with. -/
structure Refusal where
  fault : Fault
  depth : ℕ
  name : List UInt8
  deriving DecidableEq, Repr

def judgeImage (kit : Kit) (buf : Buffer w) (depth : ℕ) (name : List UInt8) (h : Head) :
    Except Refusal ℕ :=
  if buf.size < h.image + h.length then .error ⟨.manifestTruncated, depth, name⟩
  else if (kit.sha256 (buf.slice h.image h.length)).toList = buf.slice h.digest digestBytes then
    .ok 1
  else .error ⟨.digestMismatch, depth, name⟩

def judgeReference (buf : Buffer w) (depth : ℕ) (below : List UInt8 → ℕ → Except Refusal ℕ)
    (h : Head) : Except Refusal ℕ :=
  if h.refLen = 0 then pure 0
  else
    match buf.entry (buf.slice h.ref h.refLen) with
    | none => .error ⟨.referenceMissing, depth, buf.slice h.ref h.refLen⟩
    | some target => below (buf.slice h.ref h.refLen) target

/-- The verdict on a body, given the verdicts on the bodies it may reference. -/
def judgeBody (kit : Kit) (buf : Buffer w) (depth : ℕ) (name : List UInt8)
    (below : List UInt8 → ℕ → Except Refusal ℕ) (body : ℕ) : Except Refusal ℕ :=
  match buf.headAt body with
  | none => .error ⟨.manifestTruncated, depth, name⟩
  | some h =>
    if h.length = 0 ∨ h.length > maxImageBytes then .error ⟨.implausibleLength, depth, name⟩
    else do
      let m ← judgeReference buf depth below h
      let n ← judgeImage kit buf depth name h
      pure (m + n)

def digestName : List UInt8 := [100, 105, 103, 101, 115, 116]

/-- The verdict on the entry `name` whose body is at `body`, below the names on `path`. -/
def judge (kit : Kit) (buf : Buffer w) :
    ℕ → List (List UInt8) → List UInt8 → ℕ → Except Refusal ℕ
  | 0, path, name, _ => .error ⟨.nestingTooDeep, path.length, name⟩
  | fuel + 1, path, name, body =>
    if name ∈ path then .error ⟨.referenceCycle, path.length, name⟩
    else if maxDepth < path.length then .error ⟨.nestingTooDeep, path.length, name⟩
    else if kit.allocates path.length then
      judgeBody kit buf path.length name (judge kit buf fuel (path ++ [name])) body
    else .error ⟨.digestUnavailable, path.length, digestName⟩

section States

variable (buf : Buffer w) (path : List (ℕ × ℕ)) (live : List ℕ)

/-- The path holds the names at `path`, and the operations not yet freed are those of `live`. -/
structure Steady (s : Instance) : Prop where
  pathLen : s.pathLen = path.length
  slots : ∀ (i : ℕ) (e : ℕ × ℕ), path[i]? = some e → s.path[i]? = some ⟨.input e.1, e.2⟩
  inside : ∀ e ∈ path, e.1 + e.2 ≤ buf.size
  freed : (s.freed ++ live).Perm (List.range s.allocated)

def Written (l : List UInt8) (s : Instance) : Prop := s.faultName.toList.take l.length = l

structure Ready (asked v : ℕ) (s : Instance) : Prop where
  steady : Steady buf path live s
  quiet : Written [0] s
  attempts : s.attempts = asked
  verified : s.entriesVerified = v

/-- An escape is on its way with the refusal `r`. -/
structure Refused (r : Refusal) (s : Instance) : Prop where
  steady : Steady buf path live s
  payload : s.payload = some (r.fault, r.depth)
  named : Written (r.name.take maxName ++ [0]) s

/-- `m` reaches the verdict, and leaves the path and the operations as it found them. -/
structure Gives (asked : ℕ) (m : Run Unit) (verdict : Except Refusal ℕ) : Prop where
  triple : ∀ v, Triple (Ready buf path live asked v) m
    (fun _ s => ∃ n asked', verdict = .ok n ∧ Ready buf path live asked' (v + n) s)
    (fun s => ∃ r, verdict = .error r ∧ Refused buf path live r s)

def names : List (List UInt8) := path.map fun e => buf.slice e.1 e.2

end States

variable {buf : Buffer w} {path : List (ℕ × ℕ)} {live : List ℕ} {kit : Kit}

theorem length_names : (names buf path).length = path.length := List.length_map ..

theorem names_concat (e : ℕ × ℕ) :
    names buf (path ++ [e]) = names buf path ++ [buf.slice e.1 e.2] := by
  rw [names, List.map_append]
  rfl

/-- There is a slot for every name on the path. -/
theorem Steady.length_le {s : Instance} (h : Steady buf path live s) :
    path.length ≤ maxDepth + 1 := by
  by_contra hlong
  have hslot := h.slots (maxDepth + 1) _ (List.getElem?_eq_getElem (by omega))
  simp at hslot

section Names

theorem Written.snoc {l : List UInt8} {b : UInt8} {s : Instance} (h : Written l s)
    (hl : l.length < maxName + 1) :
    Written (l ++ [b]) { s with faultName := s.faultName.set l.length b } := by
  have hsize : l.length < s.faultName.toList.length := by simpa using hl
  unfold Written at *
  rw [List.length_append, List.length_singleton, Vector.toList_set, List.take_add_one,
    List.take_set, h, List.set_eq_of_length_le (Nat.le_refl _), List.getElem?_set_self hsize]
  rfl

theorem Triple.setName {l : List UInt8} {b : UInt8} (hl : l.length ≤ maxName) :
    Triple (fun s => Steady buf path live s ∧ Written l s) (setName l.length b)
      (fun _ s => Steady buf path live s ∧ Written (l ++ [b]) s) (fun _ => False) := by
  intro s hs
  have hlt : l.length < maxName + 1 := by omega
  simp only [Manifest.setName, dif_pos hlt]
  exact ⟨⟨hs.1.pathLen, hs.1.slots, hs.1.inside, hs.1.freed⟩, hs.2.snoc hlt⟩

theorem Triple.noteName {p : Pointer} {bytes : List UInt8} (hp : p.Shows buf bytes) :
    Triple (Steady buf path live) (noteName buf p bytes.length)
      (fun _ s => Steady buf path live s ∧ Written (bytes.take maxName ++ [0]) s)
      (fun _ => False) := by
  have hn : (if bytes.length < maxName then bytes.length else maxName) =
      (bytes.take maxName).length := by
    rw [List.length_take]
    split_ifs <;> omega
  rw [Manifest.noteName, hn]
  have hlen : (bytes.take maxName).length ≤ maxName := List.length_take_le ..
  have hcopy : Triple (fun s => Steady buf path live s ∧ Written (bytes.take 0) s)
      (forBelow
        (fun i => do
          let b ← byteAt buf p i
          Manifest.setName i b)
        (bytes.take maxName).length)
      (fun _ s => Steady buf path live s ∧ Written (bytes.take (bytes.take maxName).length) s)
      (fun _ => False) := by
    refine Triple.forBelow (I := fun i s => Steady buf path live s ∧ Written (bytes.take i) s) ?_
    intro i hi
    rw [List.length_take] at hi
    have hget : bytes[i]? = some bytes[i] := List.getElem?_eq_getElem (by omega)
    have hi' : (bytes.take i).length = i := by
      rw [List.length_take]
      omega
    rw [hp i _ hget, pure_bind, List.take_add_one, hget]
    have h : Triple (fun s => Steady buf path live s ∧ Written (bytes.take i) s)
        (Manifest.setName (bytes.take i).length bytes[i])
        (fun _ s => Steady buf path live s ∧ Written (bytes.take i ++ [bytes[i]]) s)
        (fun _ => False) := Triple.setName (by omega)
    rw [hi'] at h
    exact h
  have hall : bytes.take (bytes.take maxName).length = bytes.take maxName := by
    rw [List.length_take, List.take_eq_take_iff]
    omega
  rw [hall] at hcopy
  refine Triple.bind (hcopy.conseq ?_ (fun _ _ h => h) fun _ h => h) fun _ => Triple.setName hlen
  intro s hs
  exact ⟨hs, rfl⟩

theorem Triple.fail {α : Type} {p : Pointer} {bytes : List UInt8} {len depth : ℕ} {f : Fault}
    (hp : p.Shows buf bytes) (hlen : bytes.length = len) :
    Triple (Steady buf path live) (fail buf f p len depth : Run α) (fun _ _ => False)
      (Refused buf path live ⟨f, depth, bytes⟩) := by
  rw [← hlen, Manifest.fail]
  refine Triple.bind ((Triple.noteName hp).conseq (fun _ h => h) (fun _ _ h => h) fun _ h => h.elim)
    fun _ => ?_
  refine Triple.bind (Q := fun _ => Refused buf path live ⟨f, depth, bytes⟩) (Triple.modify ?_)
    fun _ => Triple.raise fun _ h => h
  intro s hs
  exact ⟨⟨hs.1.pathLen, hs.1.slots, hs.1.inside, hs.1.freed⟩, rfl, hs.2⟩

end Names

section Rules

variable {asked : ℕ}

theorem Gives.fail {p : Pointer} {bytes : List UInt8} {len depth : ℕ} {f : Fault}
    (hp : p.Shows buf bytes) (hlen : bytes.length = len) :
    Gives buf path live asked (Manifest.fail buf f p len depth) (.error ⟨f, depth, bytes⟩) := by
  refine ⟨fun v => (Triple.fail hp hlen).conseq (fun _ h => h.steady) (fun _ _ h => h.elim) ?_⟩
  intro s hs
  exact ⟨_, rfl, hs⟩

theorem Gives.guard {c : Prop} [Decidable c] {leave : Run Unit} {k : Unit → Run Unit}
    {r : Refusal} {verdict : Except Refusal ℕ} (hleave : Gives buf path live asked leave (.error r))
    (hk : ¬ c → Gives buf path live asked (k ()) verdict) :
    Gives buf path live asked (onlyIf c leave >>= k) (if c then .error r else verdict) := by
  refine ⟨fun v => ?_⟩
  refine Triple.guard (fun hc => ?_) fun hc => ?_
  · rw [if_pos hc]
    refine (hleave.triple v).conseq (fun _ h => h) ?_ fun _ h => h
    rintro _ _ ⟨n, _, hn, _⟩
    cases hn
  · rw [if_neg hc]
    exact (hk hc).triple v

theorem Gives.bind {m : Run Unit} {k : Unit → Run Unit} {below own : Except Refusal ℕ}
    (hm : Gives buf path live asked m below) (hk : ∀ asked', Gives buf path live asked' (k ()) own) :
    Gives buf path live asked (m >>= k) (do let a ← below; let b ← own; pure (a + b)) := by
  refine ⟨fun v => ?_⟩
  cases below with
  | error r =>
    refine Triple.bind (hm.triple v) fun _ => ?_
    rintro s ⟨_, _, hn, _⟩
    cases hn
  | ok a =>
    refine Triple.bind ((hm.triple v).conseq (fun _ h => h) (fun _ _ h => h) ?_) fun _ => ?_
    · rintro s ⟨_, hr, _⟩
      cases hr
    · refine Triple.exists_pre fun n => Triple.exists_pre fun asked' => Triple.and_pre fun hn => ?_
      have hna : n = a := (Except.ok.inj hn).symm
      subst hna
      refine ((hk asked').triple (v + n)).conseq (fun _ h => h) ?_ ?_
      · rintro _ s ⟨b, asked'', hb, hs⟩
        refine ⟨n + b, asked'', ?_, ?_⟩
        · rw [hb]
          rfl
        · rwa [← Nat.add_assoc]
      · rintro s ⟨r, hr, hs⟩
        refine ⟨r, ?_, hs⟩
        rw [hr]
        rfl

/-- The reader's own check. -/
theorem Gives.unlessHas {r : Reader} {n : ℕ} {leave : Run Unit} {k : Unit → Run Unit}
    {refusal : Refusal} {verdict : Except Refusal ℕ} (hr : r.pos ≤ buf.size) (hn : n < 2 ^ 31)
    (hleave : Gives buf path live asked leave (.error refusal))
    (hk : r.pos + n ≤ buf.size → Gives buf path live asked (k ()) verdict) :
    Gives buf path live asked (onlyIf (!r.has buf n) leave >>= k)
      (if buf.size < r.pos + n then .error refusal else verdict) := by
  have hcond : ((!r.has buf n) = true) = (buf.size < r.pos + n) := by
    rw [has_eq hr hn]
    simp
  have hif : (if buf.size < r.pos + n then .error refusal else verdict) =
      if (!r.has buf n) = true then .error refusal else verdict := by
    simp only [hcond]
  rw [hif]
  refine Gives.guard hleave fun h => hk ?_
  rw [hcond] at h
  exact Nat.not_lt.mp h

end Rules

section Image

theorem getElem?_toList {n : ℕ} (v : Vector UInt8 n) (i : ℕ) : v.toList[i]? = v[i]? := by
  simp

theorem toList_eq_slice {n : ℕ} {v : Vector UInt8 n} {i : ℕ} (h : i + n ≤ buf.size) :
    v.toList = buf.slice i n ↔ ∀ k < n, v[k]? = some (buf.byte (i + k)) := by
  have hget : ∀ k < n, (buf.slice i n)[k]? = some (buf.byte (i + k)) := by
    intro k hk
    have hbyte := @getElem?_byte w buf (i + k) (by omega)
    rw [Buffer.slice, List.getElem?_take_of_lt hk, List.getElem?_drop, hbyte]
  constructor
  · intro hv k hk
    rw [← getElem?_toList, hv, hget k hk]
  · intro hv
    apply List.ext_getElem?
    intro k
    by_cases hk : k < n
    · rw [getElem?_toList, hv k hk, hget k hk]
    · rw [List.getElem?_eq_none, List.getElem?_eq_none]
      · rw [length_slice h]
        omega
      · rw [Vector.length_toList]
        omega

/-- The comparison of the digest. -/
theorem Triple.compare {p : Pointer} {name : List UInt8} {len depth digest n : ℕ}
    {actual : Vector UInt8 n} {A : Instance → Prop} (hp : p.Shows buf name)
    (hlen : name.length = len) (hdigest : digest + n ≤ buf.size)
    (hA : ∀ s, A s → Steady buf path live s) :
    Triple A
      (forBelow
        (fun i => do
          let e ← byteAt buf (.input digest) i
          onlyIf (actual[i]? ≠ some e) (Manifest.fail buf .digestMismatch p len depth))
        n)
      (fun _ s => actual.toList = buf.slice digest n ∧ A s)
      (fun s => actual.toList ≠ buf.slice digest n ∧
        Refused buf path live ⟨.digestMismatch, depth, name⟩ s) := by
  have hloop := Triple.forBelow (n := n)
    (I := fun i s => (∀ k < i, actual[k]? = some (buf.byte (digest + k))) ∧ A s)
    (f := fun i => do
      let e ← byteAt buf (.input digest) i
      onlyIf (actual[i]? ≠ some e) (Manifest.fail buf .digestMismatch p len depth))
    (R := fun s => actual.toList ≠ buf.slice digest n ∧
      Refused buf path live ⟨.digestMismatch, depth, name⟩ s) ?_
  · refine Triple.conseq hloop ?_ ?_ fun _ h => h
    · intro s hs
      exact ⟨fun k hk => absurd hk (Nat.not_lt_zero k), hs⟩
    · intro _ s hs
      exact ⟨(toList_eq_slice hdigest).mpr hs.1, hs.2⟩
  intro i hi
  rw [byteAt_input (by omega), pure_bind]
  refine Triple.and_pre fun hbefore => Triple.onlyIf (fun hne => ?_) ?_
  · refine (Triple.fail hp hlen).conseq hA (fun _ _ h => h.elim) ?_
    intro s hs
    refine ⟨fun hall => hne ?_, hs⟩
    exact (toList_eq_slice hdigest).mp hall i hi
  · intro heq s hs
    refine ⟨fun k hk => ?_, hs⟩
    by_cases hki : k = i
    · rw [hki]
      exact not_not.mp heq
    · exact hbefore k (by omega)

/-- The comparison of the digest, and what counts a verified entry. -/
theorem Gives.compare {p : Pointer} {name : List UInt8} {len depth digest n asked : ℕ}
    {actual : Vector UInt8 n} (hp : p.Shows buf name) (hlen : name.length = len)
    (hdigest : digest + n ≤ buf.size) :
    Gives buf path live asked
      (do
        forBelow
          (fun i => do
            let e ← byteAt buf (.input digest) i
            onlyIf (actual[i]? ≠ some e) (Manifest.fail buf .digestMismatch p len depth))
          n
        modify fun s => { s with entriesVerified := s.entriesVerified + 1 })
      (if actual.toList = buf.slice digest n then .ok 1
        else .error ⟨.digestMismatch, depth, name⟩) := by
  refine ⟨fun v => ?_⟩
  have hsteady : ∀ s, Ready buf path live asked v s → Steady buf path live s := fun _ h => h.steady
  refine Triple.bind ((Triple.compare hp hlen hdigest hsteady).conseq (fun _ h => h)
    (fun _ _ h => h) ?_) fun _ =>
    Triple.and_pre fun hall => Triple.modify fun s hs => ?_
  · intro s hs
    rw [if_neg hs.1]
    exact ⟨_, rfl, hs.2⟩
  · rw [if_pos hall]
    refine ⟨1, asked, rfl, ⟨hs.steady.pathLen, hs.steady.slots, hs.steady.inside,
      hs.steady.freed⟩, hs.quiet, hs.attempts, ?_⟩
    rw [hs.verified]

/-- What follows the reference: the image, its digest, and the count. -/
theorem Gives.image {p : Pointer} {name : List UInt8} {len depth asked : ℕ} {h : Head}
    (hp : p.Shows buf name) (hlen : name.length = len) (hdigest : h.digest + digestBytes ≤ buf.size)
    (himage : h.image ≤ buf.size) (hshort : h.length ≤ maxImageBytes) :
    Gives buf path live asked
      (do
        onlyIf (!Reader.has buf ⟨h.image⟩ h.length) (Manifest.fail buf .manifestTruncated p len depth)
        let image ← readBytes buf (.input h.image) h.length
        let actual := kit.sha256 image
        forBelow
          (fun i => do
            let e ← byteAt buf (.input h.digest) i
            onlyIf (actual[i]? ≠ some e) (Manifest.fail buf .digestMismatch p len depth))
          digestBytes
        modify fun s => { s with entriesVerified := s.entriesVerified + 1 })
      (judgeImage kit buf depth name h) := by
  refine Gives.unlessHas himage (by simp only [maxImageBytes] at hshort; omega) (Gives.fail hp hlen)
    fun hfits => ?_
  simp only at hfits
  rw [readBytes_eq hfits, pure_bind]
  exact Gives.compare hp hlen hdigest

end Image

section Guards

variable {asked : ℕ}

theorem Steady.push {s : Instance} {e : ℕ × ℕ} (h : Steady buf path live s)
    (hroom : path.length ≤ maxDepth) (he : e.1 + e.2 ≤ buf.size) :
    Steady buf (path ++ [e]) live
      { s with
        path := s.path.set path.length ⟨.input e.1, e.2⟩ (by omega)
        pathLen := s.pathLen + 1 } where
  pathLen := by
    rw [h.pathLen, List.length_append]
    rfl
  slots := by
    intro i x hx
    by_cases hi : i = path.length
    · subst hi
      rw [List.getElem?_concat_length] at hx
      rw [← Option.some.inj hx]
      simp only [Vector.getElem?_set_self (show path.length < maxDepth + 1 by omega)]
    · have hlt := (List.getElem?_eq_some_iff.mp hx).1
      rw [List.length_append, List.length_singleton] at hlt
      rw [List.getElem?_append_left (by omega)] at hx
      simp only [Vector.getElem?_set_ne _ (Ne.symm hi)]
      exact h.slots i x hx
  inside := by
    intro x hx
    rw [List.mem_append, List.mem_singleton] at hx
    exact hx.elim (h.inside x) fun hxe => hxe ▸ he
  freed := h.freed

theorem Steady.pop {s : Instance} {e : ℕ × ℕ} (h : Steady buf (path ++ [e]) live s) :
    Steady buf path live { s with pathLen := s.pathLen - 1 } where
  pathLen := by
    have hlen := h.pathLen
    rw [List.length_append, List.length_singleton] at hlen
    show s.pathLen - 1 = path.length
    omega
  slots := by
    intro i x hx
    have hlt := (List.getElem?_eq_some_iff.mp hx).1
    exact h.slots i x (by rw [List.getElem?_append_left hlt, hx])
  inside := fun x hx => h.inside x (List.mem_append_left _ hx)
  freed := h.freed

theorem sameName_eq {x e : ℕ × ℕ} (hx : x.1 + x.2 ≤ buf.size) (he : e.1 + e.2 ≤ buf.size) :
    sameName buf ⟨.input x.1, x.2⟩ (.input e.1) e.2 =
      pure (decide (buf.slice x.1 x.2 = buf.slice e.1 e.2)) := by
  unfold sameName
  have hlx := length_slice hx
  have hle := length_slice he
  split_ifs with h
  · have hne : buf.slice x.1 x.2 ≠ buf.slice e.1 e.2 := by
      intro heq
      rw [heq, hle] at hlx
      exact h hlx.symm
    simp only [hne, decide_false]
  · rw [not_not] at h
    simp only at h
    exact sameBytes_shows (shows_slice hx) (shows_slice he) (hlx.trans h) hle

/-- The search of the path for the name. -/
theorem Triple.search {e : ℕ × ℕ} {depth v : ℕ} (he : e.1 + e.2 ≤ buf.size) :
    Triple (Ready buf path live asked v)
      (forBelow
        (fun i => do
          let x ← pathSlot i
          let same ← sameName buf x (.input e.1) e.2
          onlyIf same (Manifest.fail buf .referenceCycle (.input e.1) e.2 depth))
        path.length)
      (fun _ s => buf.slice e.1 e.2 ∉ names buf path ∧ Ready buf path live asked v s)
      (fun s => buf.slice e.1 e.2 ∈ names buf path ∧
        Refused buf path live ⟨.referenceCycle, depth, buf.slice e.1 e.2⟩ s) := by
  have hloop := Triple.forBelow (n := path.length)
    (I := fun i s => buf.slice e.1 e.2 ∉ names buf (path.take i) ∧ Ready buf path live asked v s)
    (R := fun s => buf.slice e.1 e.2 ∈ names buf path ∧
      Refused buf path live ⟨.referenceCycle, depth, buf.slice e.1 e.2⟩ s)
    (f := fun i => do
      let x ← pathSlot i
      let same ← sameName buf x (.input e.1) e.2
      onlyIf same (Manifest.fail buf .referenceCycle (.input e.1) e.2 depth)) ?_
  · rw [List.take_length] at hloop
    exact hloop.conseq (fun s hs => ⟨List.not_mem_nil, hs⟩) (fun _ _ h => h) fun _ h => h
  intro i hi
  have hget : path[i]? = some path[i] := List.getElem?_eq_getElem hi
  refine Triple.and_pre fun hbefore => ?_
  refine Triple.bind (Triple.require (a := ⟨.input path[i].1, path[i].2⟩) ?_) fun x =>
    Triple.and_pre fun hx => ?_
  · intro s hs
    exact hs.steady.slots i _ hget
  subst hx
  intro s hs
  have hinside := hs.steady.inside _ (List.getElem_mem hi)
  rw [sameName_eq hinside he, pure_bind]
  revert s
  refine Triple.onlyIf (fun hsame => ?_) fun hsame s hs => ?_
  · refine (Triple.fail (shows_slice he) (length_slice he)).conseq (fun _ h => h.steady)
      (fun _ _ h => h.elim) fun s hs => ⟨?_, hs⟩
    rw [decide_eq_true_eq] at hsame
    rw [← hsame]
    exact List.mem_map_of_mem (List.getElem_mem hi)
  · refine ⟨?_, hs⟩
    rw [decide_eq_true_eq] at hsame
    rw [List.take_add_one, hget, Option.toList_some, names_concat, List.mem_append,
      List.mem_singleton]
    exact fun h => h.elim hbefore fun heq => hsame heq.symm

theorem Gives.visiting {e : ℕ × ℕ} {depth : ℕ} {m : Run Unit} {verdict : Except Refusal ℕ}
    (he : e.1 + e.2 ≤ buf.size) (hm : Gives buf (path ++ [e]) live asked m verdict) :
    Gives buf path live asked
      (do
        visitingConstructor buf (.input e.1) e.2 depth
        cleanup m visitingDestructor)
      (if buf.slice e.1 e.2 ∈ names buf path then
        .error ⟨.referenceCycle, depth, buf.slice e.1 e.2⟩
      else if maxDepth < path.length then .error ⟨.nestingTooDeep, depth, buf.slice e.1 e.2⟩
      else verdict) := by
  refine ⟨fun v => ?_⟩
  unfold visitingConstructor
  simp only [bind_assoc]
  refine Triple.bind (Triple.require (a := (path.length : ℤ)) ?_) fun pathLen =>
    Triple.and_pre fun hlen => ?_
  · intro s hs
    rw [hs.steady.pathLen]
  subst hlen
  rw [Int.toNat_natCast]
  refine Triple.bind ((Triple.search he).conseq (fun _ h => h) (fun _ _ h => h) ?_) fun _ =>
    Triple.and_pre fun hfresh => ?_
  · intro s hs
    rw [if_pos hs.1]
    exact ⟨_, rfl, hs.2⟩
  rw [if_neg hfresh]
  refine Triple.guard (fun hdeep => ?_) fun hdeep => ?_
  · rw [if_pos (by omega)]
    refine (Triple.fail (shows_slice he) (length_slice he)).conseq (fun _ h => h.steady)
      (fun _ _ h => h.elim) fun s hs => ⟨_, rfl, hs⟩
  rw [if_neg (by omega)]
  refine Triple.bind (Q := fun _ s => Ready buf (path ++ [e]) live asked v s) ?_ fun _ => ?_
  · intro s hs
    have hlen := hs.steady.pathLen
    have hroom : s.pathLen.toNat < maxDepth + 1 ∧ 0 ≤ s.pathLen := by omega
    have hat : s.pathLen.toNat = path.length := by omega
    simp only [pushPath, hat, dif_pos (hat ▸ hroom)]
    exact ⟨hs.steady.push (by omega) he, hs.quiet, hs.attempts, hs.verified⟩
  refine Triple.cleanup (hm.triple v) (fun _ => ?_) ?_
  · refine Triple.modify fun s hs => ?_
    obtain ⟨n, asked', hn, hready⟩ := hs
    exact ⟨n, asked', hn, hready.steady.pop, hready.quiet, hready.attempts, hready.verified⟩
  · refine Triple.modify fun s hs => ?_
    obtain ⟨r, hr, hrefused⟩ := hs
    exact ⟨r, hr, hrefused.steady.pop, hrefused.payload, hrefused.named⟩

theorem Steady.allocate {s : Instance} (h : Steady buf path live s) :
    Steady buf path (s.allocated :: live)
      { s with attempts := s.attempts + 1, allocated := s.allocated + 1 } where
  pathLen := h.pathLen
  slots := h.slots
  inside := h.inside
  freed := by
    rw [List.range_succ]
    refine List.perm_middle.trans (List.Perm.trans ?_ (List.perm_append_singleton _ _).symm)
    exact h.freed.cons _

theorem Steady.free {s : Instance} {op : ℕ} (h : Steady buf path (op :: live) s) :
    Steady buf path live { s with freed := op :: s.freed } where
  pathLen := h.pathLen
  slots := h.slots
  inside := h.inside
  freed := List.perm_middle.symm.trans h.freed

theorem Gives.digest {depth : ℕ} {m : ℕ → Run Unit} {verdict : Except Refusal ℕ}
    (hm : ∀ op, Gives buf path (op :: live) (asked + 1) (m op) verdict) :
    Gives buf path live asked
      (do
        let op ← digestConstructor kit buf depth
        cleanup (m op) (digestDestructor op))
      (if kit.allocates asked then verdict else .error ⟨.digestUnavailable, depth, digestName⟩) := by
  refine ⟨fun v => ?_⟩
  refine Triple.bind (Q := fun op s => kit.allocates asked = true ∧
    Ready buf path (op :: live) (asked + 1) v s) ?_ fun op => Triple.and_pre fun hgranted => ?_
  · have noOperation_fails : Triple (Steady buf path live)
        (Manifest.fail buf .digestUnavailable noOperation 6 depth : Run ℕ)
        (fun op s => kit.allocates asked = true ∧ Ready buf path (op :: live) (asked + 1) v s)
        (fun s => ∃ r, (.error ⟨.digestUnavailable, depth, digestName⟩ : Except Refusal ℕ) = .error r ∧
          Refused buf path live r s) :=
      (Triple.fail (shows_literal digestName) rfl).conseq (fun _ h => h) (fun _ _ h => h.elim)
        fun _ h => ⟨_, rfl, h⟩
    intro s hs
    have hattempts := hs.attempts
    subst hattempts
    unfold digestConstructor
    by_cases hgranted : kit.allocates s.attempts
    · simp only [if_pos hgranted]
      exact ⟨hgranted, hs.steady.allocate, hs.quiet, rfl, hs.verified⟩
    · simp only [if_neg hgranted]
      exact noOperation_fails _
        ⟨hs.steady.pathLen, hs.steady.slots, hs.steady.inside, hs.steady.freed⟩
  rw [if_pos hgranted]
  refine Triple.cleanup ((hm op).triple v) (fun _ => ?_) ?_
  · refine Triple.modify fun s hs => ?_
    obtain ⟨n, asked', hn, hready⟩ := hs
    exact ⟨n, asked', hn, hready.steady.free, hready.quiet, hready.attempts, hready.verified⟩
  · refine Triple.modify fun s hs => ?_
    obtain ⟨r, hr, hrefused⟩ := hs
    exact ⟨r, hr, hrefused.steady.free, hrefused.payload, hrefused.named⟩

end Guards

section Descent

variable {asked : ℕ}

theorem judgeBody_eq (depth : ℕ) (name : List UInt8) (below : List UInt8 → ℕ → Except Refusal ℕ)
    (body : ℕ) :
    judgeBody kit buf depth name below body =
      if buf.size < body + 37 then .error ⟨.manifestTruncated, depth, name⟩
      else if buf.size < body + 37 + (buf.headOf body).refLen then
        .error ⟨.manifestTruncated, depth, name⟩
      else if (buf.headOf body).length = 0 ∨ (buf.headOf body).length > maxImageBytes then
        .error ⟨.implausibleLength, depth, name⟩
      else (do
        let m ← judgeReference buf depth below (buf.headOf body)
        let n ← judgeImage kit buf depth name (buf.headOf body)
        pure (m + n)) := by
  unfold judgeBody Buffer.headAt
  by_cases h1 : body + 37 ≤ buf.size
  · rw [if_neg (Nat.not_lt.mpr h1)]
    by_cases h2 : body + 37 + (buf.headOf body).refLen ≤ buf.size
    · rw [if_neg (Nat.not_lt.mpr h2), if_pos ⟨h1, h2⟩]
    · rw [if_pos (Nat.lt_of_not_le h2), if_neg fun h => h2 h.2]
  · rw [if_pos (Nat.lt_of_not_le h1), if_neg fun h => h1 h.1]

theorem Gives.reference {fuel depth : ℕ} {h : Head} {c : Prop} [Decidable c]
    {below : List UInt8 → ℕ → Except Refusal ℕ} (hc : c ↔ h.refLen ≠ 0)
    (href : h.ref + h.refLen ≤ buf.size)
    (hbelow : ∀ (ref : ℕ × ℕ) (target : ℕ), ref.1 + ref.2 ≤ buf.size → target ≤ buf.size →
      Gives buf path live asked (verifyEntry kit buf fuel (.input ref.1) ref.2 target (depth + 1))
        (below (buf.slice ref.1 ref.2) target)) :
    Gives buf path live asked
      (onlyIf c (do
        let target ← findEntry buf (.input h.ref) h.refLen
        match target with
        | none => Manifest.fail buf .referenceMissing (.input h.ref) h.refLen depth
        | some offset => verifyEntry kit buf fuel (.input h.ref) h.refLen offset (depth + 1)))
      (judgeReference buf depth below h) := by
  unfold onlyIf judgeReference
  rw [findEntry_eq href, pure_bind]
  by_cases hnone : h.refLen = 0
  · rw [if_neg (fun h => hc.mp h hnone), if_pos hnone]
    exact ⟨fun v s hs => ⟨0, asked, rfl, hs⟩⟩
  · rw [if_pos (hc.mpr hnone), if_neg hnone]
    match hentry : buf.entry (buf.slice h.ref h.refLen) with
    | none => exact Gives.fail (shows_slice href) (length_slice href)
    | some target => exact hbelow (h.ref, h.refLen) target href (entry_le hentry)

theorem Gives.body {p : Pointer} {name : List UInt8} {len fuel depth body : ℕ}
    {below : List UInt8 → ℕ → Except Refusal ℕ} (hp : p.Shows buf name) (hlen : name.length = len)
    (hbody : body ≤ buf.size)
    (hbelow : ∀ (ref : ℕ × ℕ) (target : ℕ), ref.1 + ref.2 ≤ buf.size → target ≤ buf.size →
      Gives buf path live asked (verifyEntry kit buf fuel (.input ref.1) ref.2 target (depth + 1))
        (below (buf.slice ref.1 ref.2) target)) :
    Gives buf path live asked
      (do
        let r := Reader.seek body
        onlyIf (!r.has buf (4 + digestBytes + 1))
          (Manifest.fail buf .manifestTruncated p len depth)
        let (length, r) ← r.u32 buf
        let expected := r.pointer
        let r := r.skip w digestBytes
        let (refLen, r) ← r.u8 buf
        onlyIf (!r.has buf refLen.toNat) (Manifest.fail buf .manifestTruncated p len depth)
        let ref := r.pointer
        let r := r.skip w refLen.toNat
        onlyIf (length.toNat = 0 ∨ length.toNat > maxImageBytes)
          (Manifest.fail buf .implausibleLength p len depth)
        onlyIf (refLen ≠ 0) (do
          let target ← findEntry buf ref refLen.toNat
          match target with
          | none => Manifest.fail buf .referenceMissing ref refLen.toNat depth
          | some offset => verifyEntry kit buf fuel ref refLen.toNat offset (depth + 1))
        onlyIf (!r.has buf length.toNat) (Manifest.fail buf .manifestTruncated p len depth)
        let image ← readBytes buf r.pointer length.toNat
        let actual := kit.sha256 image
        forBelow
          (fun i => do
            let e ← byteAt buf expected i
            onlyIf (actual[i]? ≠ some e) (Manifest.fail buf .digestMismatch p len depth))
          digestBytes
        modify fun s => { s with entriesVerified := s.entriesVerified + 1 })
      (judgeBody kit buf depth name below body) := by
  rw [judgeBody_eq]
  refine Gives.unlessHas hbody (by decide) (Gives.fail hp hlen) fun hfixed => ?_
  simp only [Reader.seek, digestBytes] at hfixed
  rw [u32_eq (by simp only [Reader.seek]; omega), pure_bind]
  have hskip := @skip_eq w buf ⟨body + 4⟩ digestBytes (by simp only [digestBytes]; omega)
  simp only [Reader.seek, hskip]
  rw [u8_eq (by simp only [digestBytes]; omega), pure_bind]
  simp only
  refine Gives.unlessHas (by simp only [digestBytes]; omega) (byte_lt _) (Gives.fail hp hlen)
    fun hrefFits => ?_
  rw [skip_eq hrefFits]
  refine Gives.guard (Gives.fail hp hlen) fun hplausible => ?_
  have hzero : buf.byte (body + 4 + digestBytes) ≠ 0 ↔ (buf.headOf body).refLen ≠ 0 := by
    rw [not_iff_not]
    exact UInt8.toNat_inj.symm
  refine Gives.bind (Gives.reference hzero hrefFits hbelow) fun asked' => ?_
  have hbound : (buf.headOf body).length ≤ maxImageBytes := by
    rw [not_or] at hplausible
    exact Nat.not_lt.mp hplausible.2
  refine Gives.image (h := buf.headOf body) hp hlen ?_ hrefFits hbound
  show body + 4 + digestBytes ≤ buf.size
  simp only [digestBytes]
  omega

/-- The descent, whatever the path above it: there is fuel for each slot that is left. -/
theorem Gives.entry (fuel : ℕ) {e : ℕ × ℕ} {body : ℕ} (hfuel : enough ≤ fuel + path.length)
    (he : e.1 + e.2 ≤ buf.size) (hbody : body ≤ buf.size) :
    Gives buf path live path.length
      (verifyEntry kit buf fuel (.input e.1) e.2 body path.length)
      (judge kit buf fuel (names buf path) (buf.slice e.1 e.2) body) := by
  induction fuel generalizing path live e body with
  | zero =>
    refine ⟨fun v s hs => ?_⟩
    have hle := hs.steady.length_le
    simp only [enough] at hfuel
    omega
  | succ fuel ih =>
    rw [verifyEntry, judge, length_names]
    refine ⟨fun v => Triple.bind (Q := fun _ => Ready buf path live path.length v)
      (Triple.modify fun s hs => ⟨⟨hs.steady.pathLen, hs.steady.slots, hs.steady.inside,
        hs.steady.freed⟩, hs.quiet, hs.attempts, hs.verified⟩) fun _ => ?_⟩
    refine (Gives.visiting he (Gives.digest fun op => Gives.body (shows_slice he) (length_slice he)
      hbody fun ref target href htarget => ?_)).triple v
    have hlen : (path ++ [e]).length = path.length + 1 := by
      rw [List.length_append, List.length_singleton]
    have hbelow := @ih (path ++ [e]) (op :: live) ref target (by omega) href htarget
    rw [hlen, names_concat] at hbelow
    exact hbelow

end Descent

section Manifests

def rootName : List UInt8 := [114, 111, 111, 116]

def judgeManifest (kit : Kit) (buf : Buffer w) (fuel : ℕ) : Except Refusal ℕ :=
  if buf.size < 6 then .error ⟨.manifestTruncated, 0, rootName⟩
  else if buf.slice 0 4 ≠ magic then .error ⟨.headerBad, 0, rootName⟩
  else if buf.byte 4 ≠ 1 then .error ⟨.versionUnsupported, 0, rootName⟩
  else if buf.byte 5 = 0 then .error ⟨.entryMalformed, 0, rootName⟩
  else if buf.size < 7 then .error ⟨.manifestTruncated, 0, rootName⟩
  else if buf.byte 6 = 0 ∨ buf.size < 7 + (buf.byte 6).toNat then
    .error ⟨.entryMalformed, 0, rootName⟩
  else
    judge kit buf fuel [] (buf.slice 7 (buf.byte 6).toNat) (7 + (buf.byte 6).toNat)

/-- From a path that is empty and nothing verified, `m` returns the verdict's count, or is left
by its refusal; the path is empty again. -/
structure Counts (buf : Buffer w) (live : List ℕ) (m : Run ℕ) (verdict : Except Refusal ℕ) :
    Prop where
  triple : Triple (Ready buf [] live 0 0) m
    (fun n s => verdict = .ok n ∧ ∃ asked, Ready buf [] live asked n s)
    (fun s => ∃ r, verdict = .error r ∧ Refused buf [] live r s)

/-- A check of the header. -/
theorem Counts.header {c c' : Prop} [Decidable c] [Decidable c'] {f : Fault} {k : Unit → Run ℕ}
    {verdict : Except Refusal ℕ} (hc : c ↔ c') (hk : ¬ c' → Counts buf live (k ()) verdict) :
    Counts buf live (onlyIf c (Manifest.fail buf f root 4 0) >>= k)
      (if c' then .error ⟨f, 0, rootName⟩ else verdict) := by
  refine ⟨Triple.guard (fun h => ?_) fun h => ?_⟩
  · rw [if_pos (hc.mp h)]
    exact (Triple.fail (shows_literal rootName) rfl).conseq (fun _ h => h.steady)
      (fun _ _ h => h.elim) fun _ h => ⟨_, rfl, h⟩
  · have h' : ¬ c' := fun hc' => h (hc.mpr hc')
    rw [if_neg h']
    exact (hk h').triple

theorem Counts.entry {m : Run Unit} {verdict : Except Refusal ℕ} (hm : Gives buf [] live 0 m verdict) :
    Counts buf live (do
      m
      require fun s => some s.entriesVerified) verdict := by
  refine ⟨Triple.bind (hm.triple 0) fun _ => ?_⟩
  intro s hs
  obtain ⟨n, asked, hn, hready⟩ := hs
  rw [Nat.zero_add] at hready
  refine ⟨?_, asked, ?_⟩
  · rw [hn, hready.verified]
  · rw [hready.verified]
    exact hready

theorem not_has_iff {r : Reader} {n : ℕ} (hr : r.pos ≤ buf.size) (hn : n < 2 ^ 31) :
    (!r.has buf n) = true ↔ buf.size < r.pos + n := by
  rw [has_eq hr hn]
  simp

/-- `verify_manifest`'s landing returns the verdict's count, or is left by its refusal. -/
theorem Counts.root {fuel : ℕ} (hfuel : enough ≤ fuel) :
    Counts buf live (verifyRoot kit buf fuel) (judgeManifest kit buf fuel) := by
  unfold verifyRoot judgeManifest
  have h6 := @not_has_iff w buf ⟨0⟩ 6 (Nat.zero_le _) (by decide)
  rw [Nat.zero_add] at h6
  refine Counts.header h6 fun hfixed => ?_
  have hmagic := sameBytes_shows (n := 4) (@shows_slice w buf 0 4 (by omega)) (shows_literal magic)
    (length_slice (by omega)) rfl
  have h4 := @skip_eq w buf ⟨0⟩ 4 (by simp only; omega)
  simp only [Reader.pointer, hmagic, pure_bind, h4]
  refine Counts.header (by simp) fun _ => ?_
  rw [u8_eq (by simp only; omega), pure_bind]
  refine Counts.header Iff.rfl fun _ => ?_
  simp only
  rw [u8_eq (by simp only; omega), pure_bind]
  refine Counts.header Iff.rfl fun _ => ?_
  simp only
  refine Counts.header (not_has_iff (by simp only; omega) (by decide)) fun hseven => ?_
  rw [u8_eq (by simp only; omega), pure_bind]
  have hname := @not_has_iff w buf ⟨7⟩ (buf.byte 6).toNat (by simp only; omega) (byte_lt 6)
  refine Counts.header (by rw [hname]) fun hfirst => ?_
  rw [not_or, Nat.not_lt] at hfirst
  rw [@skip_eq w buf ⟨7⟩ _ hfirst.2]
  have hdescent := @Gives.entry w buf [] live kit fuel (7, (buf.byte 6).toNat)
    (7 + (buf.byte 6).toNat) (by omega) hfirst.2 hfirst.2
  exact Counts.entry hdescent

/-- Between invocations: the path is empty, and every operation allocated was freed once. -/
structure Rested (s : Instance) : Prop where
  pathLen : s.pathLen = 0
  freed : s.freed.Perm (List.range s.allocated)

/-- What the landing hands on of a verdict. -/
def landed : Except Refusal ℕ → Except (Fault × ℕ) ℕ
  | .ok n => .ok n
  | .error r => .error (r.fault, r.depth)

def notedName : Except Refusal ℕ → List UInt8
  | .ok _ => []
  | .error r => r.name.take maxName

theorem Rested.steady {s : Instance} (h : Rested s) : Steady buf [] [] s where
  pathLen := h.pathLen
  slots := by
    intro i e he
    rw [List.getElem?_nil] at he
    exact (Option.some_ne_none e he.symm).elim
  inside := fun e he => absurd he List.not_mem_nil
  freed := by
    rw [List.append_nil]
    exact h.freed

theorem Steady.rested {s : Instance} (h : Steady buf [] [] s) : Rested s where
  pathLen := h.pathLen
  freed := by
    have hfreed := h.freed
    rwa [List.append_nil] at hfreed

/-- An invocation that has asked for no operation yet gets the verdict on the manifest, and the
instance is fit for the next. -/
theorem verifyManifest_eq {s : Instance} {fuel : ℕ} (hfuel : enough ≤ fuel) (hs : Rested s)
    (hasked : s.attempts = 0) :
    ∃ s', verifyManifest kit buf fuel s = (.ok (landed (judgeManifest kit buf fuel)), s') ∧
      Rested s' ∧ Written (notedName (judgeManifest kit buf fuel) ++ [0]) s' ∧
      ∀ n, judgeManifest kit buf fuel = .ok n → s'.entriesVerified = n := by
  have hstart : Ready buf [] [] 0 0 { s with
      faultName := s.faultName.set 0 0, entriesVerified := 0, deepest := 0, payload := none } := by
    have hsteady : Steady buf [] [] s := hs.steady
    refine ⟨⟨hsteady.pathLen, hsteady.slots, hsteady.inside, hsteady.freed⟩, ?_, hasked, rfl⟩
    have hnone : Written [] s := rfl
    exact hnone.snoc (b := 0) (by decide)
  have hcounts : Counts buf [] (verifyRoot kit buf fuel) (judgeManifest kit buf fuel) :=
    Counts.root hfuel
  have hroot := hcounts.triple _ hstart
  have hrun : verifyManifest kit buf fuel s = escapeScope (verifyRoot kit buf fuel) { s with
      faultName := s.faultName.set 0 0, entriesVerified := 0, deepest := 0 } := rfl
  rw [hrun]
  unfold escapeScope
  simp only
  revert hroot
  match verifyRoot kit buf fuel _ with
  | (.ok n, s') =>
    intro hroot
    obtain ⟨hverdict, asked, hready⟩ := hroot
    rw [hverdict]
    refine ⟨s', rfl, hready.steady.rested, hready.quiet, fun k hk => ?_⟩
    rw [hready.verified]
    exact Except.ok.inj hk
  | (.thrown, s') =>
    intro hroot
    obtain ⟨r, hverdict, hrefused⟩ := hroot
    rw [hverdict]
    refine ⟨s', ?_, hrefused.steady.rested, hrefused.named, fun k hk => by cases hk⟩
    simp only [hrefused.payload]
    rfl
  | (.fault, s') => exact fun hroot => hroot.elim

end Manifests

end Jmpxx.Manifest
