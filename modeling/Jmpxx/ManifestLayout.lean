import Jmpxx.ManifestChain
import Mathlib.Algebra.Ring.Nat

namespace Jmpxx.Manifest

open Throwing (Outcome)

variable {w : Width} {buf : Buffer w} {want : List UInt8}

namespace Entry

def size (e : Entry) : ℕ :=
  1 + e.name.length + 4 + e.digest.length + 1 + e.ref.length + e.image.length

/-- Where the body of an entry at `offset` begins. -/
def bodyFrom (e : Entry) (offset : ℕ) : ℕ := offset + 1 + e.name.length

end Entry

def located : ℕ → ℕ → List UInt8 → List (Entry × ℕ)
  | 0, _, _ => []
  | count + 1, offset, bytes => (takeEntry bytes).elim [] fun p =>
    (p.1, p.1.bodyFrom offset) :: located count (offset + p.1.size) p.2

/-- The body of the first entry of that name, the layout decoded from left to right for at most as
many entries as the manifest counts and up to the first that runs out of the buffer. -/
def firstBody (bytes want : List UInt8) : Option ℕ :=
  if 6 ≤ bytes.length then
    ((located (bytes[5]?.getD 0).toNat 6 (bytes.drop 6)).find? fun e => e.1.name = want).map Prod.snd
  else none

/-- From `pos` the search comes within `n` entries to one of that name; whether a length on the way,
that entry's own included, ran past the end and wrapped round into the buffer. -/
inductive Comes (buf : Buffer w) (want : List UInt8) : ℕ → ℕ → Bool → Prop where
  | here {n pos body : ℕ} {h : Head} : buf.bodyAt pos = some body → buf.headAt body = some h →
      w.wrap (h.image + h.length) ≤ buf.size → buf.slice (pos + 1) (body - (pos + 1)) = want →
      Comes buf want (n + 1) pos (decide (buf.size < h.image + h.length))
  | later {n pos body : ℕ} {h : Head} {astray : Bool} : buf.bodyAt pos = some body →
      buf.headAt body = some h → w.wrap (h.image + h.length) ≤ buf.size →
      buf.slice (pos + 1) (body - (pos + 1)) ≠ want →
      Comes buf want n (w.wrap (h.image + h.length)) astray →
      Comes buf want (n + 1) pos (decide (buf.size < h.image + h.length) || astray)

section Search

theorem comes_succ_iff {n pos : ℕ} {astray : Bool} :
    Comes buf want (n + 1) pos astray ↔
      ∃ body h, buf.bodyAt pos = some body ∧ buf.headAt body = some h ∧
        w.wrap (h.image + h.length) ≤ buf.size ∧
        if buf.slice (pos + 1) (body - (pos + 1)) = want then
          astray = decide (buf.size < h.image + h.length)
        else ∃ more, Comes buf want n (w.wrap (h.image + h.length)) more ∧
          astray = (decide (buf.size < h.image + h.length) || more) := by
  constructor
  · intro hcomes
    cases hcomes with
    | here hbody hhead hfits hname => exact ⟨_, _, hbody, hhead, hfits, by rw [if_pos hname]⟩
    | later hbody hhead hfits hname hmore =>
      exact ⟨_, _, hbody, hhead, hfits, by rw [if_neg hname]; exact ⟨_, hmore, rfl⟩⟩
  · rintro ⟨body, h, hbody, hhead, hfits, hrest⟩
    split_ifs at hrest with hname
    · rw [hrest]
      exact .here hbody hhead hfits hname
    · obtain ⟨more, hmore, rfl⟩ := hrest
      exact .later hbody hhead hfits hname hmore

theorem comes_at_iff {n pos body : ℕ} {h : Head} {astray : Bool} (hbody : buf.bodyAt pos = some body)
    (hhead : buf.headAt body = some h) :
    Comes buf want (n + 1) pos astray ↔
      w.wrap (h.image + h.length) ≤ buf.size ∧
        if buf.slice (pos + 1) (body - (pos + 1)) = want then
          astray = decide (buf.size < h.image + h.length)
        else ∃ more, Comes buf want n (w.wrap (h.image + h.length)) more ∧
          astray = (decide (buf.size < h.image + h.length) || more) := by
  rw [comes_succ_iff]
  constructor
  · rintro ⟨body', h', hbody', hhead', hrest⟩
    obtain rfl := Option.some.inj (hbody.symm.trans hbody')
    obtain rfl := Option.some.inj (hhead.symm.trans hhead')
    exact hrest
  · exact fun hrest => ⟨body, h, hbody, hhead, hrest⟩

theorem find_succ {n pos body : ℕ} {h : Head} (hbody : buf.bodyAt pos = some body)
    (hhead : buf.headAt body = some h) :
    buf.find want (n + 1) pos =
      if w.wrap (h.image + h.length) ≤ buf.size then
        if buf.slice (pos + 1) (body - (pos + 1)) = want then some body
        else buf.find want n (w.wrap (h.image + h.length))
      else none := by
  rw [Buffer.find, hbody]
  simp only [Option.bind_eq_bind, Option.bind_some, hhead]

theorem find_of_bodyAt {n pos : ℕ} (hbody : buf.bodyAt pos = none) :
    buf.find want (n + 1) pos = none := by
  rw [Buffer.find, hbody]
  rfl

theorem find_of_headAt {n pos body : ℕ} (hbody : buf.bodyAt pos = some body)
    (hhead : buf.headAt body = none) : buf.find want (n + 1) pos = none := by
  rw [Buffer.find, hbody]
  simp only [Option.bind_eq_bind, Option.bind_some, hhead, Option.bind_none]

/-- The search answers just where it comes to an entry of the name. -/
theorem find_isSome_iff (n pos : ℕ) :
    (buf.find want n pos).isSome ↔ ∃ astray, Comes buf want n pos astray := by
  induction n generalizing pos with
  | zero =>
    refine iff_of_false (fun h => by cases h) fun h => ?_
    obtain ⟨_, h⟩ := h
    cases h
  | succ n ih =>
    cases hbody : buf.bodyAt pos with
    | none =>
      rw [find_of_bodyAt hbody]
      simp [comes_succ_iff, hbody]
    | some body =>
      cases hhead : buf.headAt body with
      | none =>
        rw [find_of_headAt hbody hhead]
        simp [comes_succ_iff, hbody, hhead]
      | some h =>
        rw [find_succ hbody hhead]
        simp only [comes_at_iff hbody hhead]
        by_cases hfits : w.wrap (h.image + h.length) ≤ buf.size
        · by_cases hname : buf.slice (pos + 1) (body - (pos + 1)) = want
          · simp [hfits, hname]
          · rw [if_pos hfits, if_neg hname, ih]
            simp only [hfits, hname, if_false, true_and]
            constructor
            · intro hex
              obtain ⟨more, hmore⟩ := hex
              exact ⟨_, more, hmore, rfl⟩
            · intro hex
              obtain ⟨_, more, hmore, -⟩ := hex
              exact ⟨more, hmore⟩
        · simp [hfits]

/-- What stands at `pos`, if its head fits: a whole entry, or one that runs out. -/
theorem takeEntry_of_headAt {pos body : ℕ} {h : Head} (hpos : pos ≤ buf.size)
    (hbody : buf.bodyAt pos = some body) (hhead : buf.headAt body = some h) :
    takeEntry (buf.bytes.drop pos) =
      if h.image + h.length ≤ buf.size then
        some (⟨contentOf buf h, buf.slice (pos + 1) (body - (pos + 1))⟩,
          buf.bytes.drop (h.image + h.length))
      else none := by
  rw [takeEntry_drop hpos, hbody, Option.bind_some, takeContent_drop (bodyAt_le hbody), hhead,
    Option.bind_some]
  split_ifs <;> rfl

/-- Its sizes add up. -/
theorem size_of_headAt {pos body : ℕ} {h : Head} (hbody : buf.bodyAt pos = some body)
    (hhead : buf.headAt body = some h) (hfits : h.image + h.length ≤ buf.size) :
    let e : Entry := ⟨contentOf buf h, buf.slice (pos + 1) (body - (pos + 1))⟩
    e.bodyFrom pos = body ∧ pos + e.size = h.image + h.length := by
  have hstart : pos + 1 ≤ body ∧ body ≤ buf.size := by
    unfold Buffer.bodyAt at hbody
    split_ifs at hbody with hroom
    have hb := Option.some.inj hbody
    omega
  unfold Buffer.headAt at hhead
  split_ifs at hhead with hroom
  obtain rfl := Option.some.inj hhead
  have hname := @length_slice w buf (pos + 1) (body - (pos + 1)) (by omega)
  have hdigest := @length_slice w buf (body + 4) 32 (by omega)
  have href := @length_slice w buf (body + 37) (buf.headOf body).refLen hroom.2
  have himage := @length_slice w buf (buf.headOf body).image (buf.headOf body).length hfits
  have hplace : (buf.headOf body).image = body + 37 + (buf.headOf body).refLen := rfl
  intro e
  have hparts : e.size = 1 + (body - (pos + 1)) + 4 + 32 + 1 + (buf.headOf body).refLen +
      (buf.headOf body).length := by
    show 1 + (buf.slice (pos + 1) (body - (pos + 1))).length + 4 +
      (buf.slice (body + 4) 32).length + 1 + (buf.slice (body + 37) (buf.headOf body).refLen).length +
      (buf.slice (buf.headOf body).image (buf.headOf body).length).length = _
    rw [hname, hdigest, href, himage]
  refine ⟨?_, by omega⟩
  show pos + 1 + (buf.slice (pos + 1) (body - (pos + 1))).length = body
  omega

/-- From any place the search answers as the layout does, unless it comes astray to an entry of
the name. -/
theorem find_eq_located_iff (n : ℕ) {pos : ℕ} (hpos : pos ≤ buf.size) :
    buf.find want n pos =
        ((located n pos (buf.bytes.drop pos)).find? fun e => e.1.name = want).map Prod.snd ↔
      ¬ Comes buf want n pos true := by
  induction n generalizing pos with
  | zero => exact iff_of_true rfl fun h => by cases h
  | succ n ih =>
    rw [located]
    cases hbody : buf.bodyAt pos with
    | none =>
      have htake : takeEntry (buf.bytes.drop pos) = none := by
        rw [takeEntry_drop hpos, hbody]
        rfl
      rw [find_of_bodyAt hbody, htake, comes_succ_iff]
      simp [hbody]
    | some body =>
      cases hhead : buf.headAt body with
      | none =>
        have htake : takeEntry (buf.bytes.drop pos) = none := by
          rw [takeEntry_drop hpos, hbody, Option.bind_some, takeContent_drop (bodyAt_le hbody), hhead]
          rfl
        rw [find_of_headAt hbody hhead, htake, comes_succ_iff]
        simp [hbody, hhead]
      | some h =>
        rw [takeEntry_of_headAt hpos hbody hhead]
        by_cases hwhole : h.image + h.length ≤ buf.size
        · obtain ⟨hstart, hnext⟩ := size_of_headAt hbody hhead hwhole
          have hwrap : w.wrap (h.image + h.length) = h.image + h.length := @wrap_eq w buf _ (by omega)
          have hstraight : decide (buf.size < h.image + h.length) = false :=
            decide_eq_false (Nat.not_lt.mpr hwhole)
          rw [if_pos hwhole, Option.elim_some, find_succ hbody hhead, hwrap, if_pos hwhole, hnext,
            hstart, List.find?_cons]
          by_cases hname : buf.slice (pos + 1) (body - (pos + 1)) = want
          · rw [if_pos hname, decide_eq_true hname]
            refine iff_of_true rfl fun hcomes => ?_
            rw [comes_at_iff hbody hhead, hwrap, if_pos hname, hstraight] at hcomes
            cases hcomes.2
          · rw [if_neg hname, decide_eq_false hname]
            have hmore : Comes buf want (n + 1) pos true ↔
                Comes buf want n (h.image + h.length) true := by
              rw [comes_at_iff hbody hhead, hwrap, if_neg hname, hstraight]
              simp [hwhole]
            rw [hmore]
            exact ih hwhole
        · -- nothing is laid out here, and whatever is found is found astray
          rw [if_neg hwhole, Option.elim_none]
          have hastray : decide (buf.size < h.image + h.length) = true :=
            decide_eq_true (Nat.lt_of_not_ge hwhole)
          have hany : (∃ astray, Comes buf want (n + 1) pos astray) ↔
              Comes buf want (n + 1) pos true := by
            refine ⟨fun hex => ?_, fun hcomes => ⟨true, hcomes⟩⟩
            obtain ⟨astray, hcomes⟩ := hex
            have hshape := (comes_at_iff hbody hhead).mp hcomes
            rw [hastray] at hshape
            obtain ⟨-, hrest⟩ := hshape
            split_ifs at hrest with hname
            · rwa [hrest] at hcomes
            · obtain ⟨more, -, hmore⟩ := hrest
              rw [Bool.true_or] at hmore
              rwa [hmore] at hcomes
          rw [← hany, ← find_isSome_iff]
          show buf.find want (n + 1) pos = none ↔ _
          rw [Option.not_isSome_iff_eq_none]

/-- Where the search goes astray to an entry, the layout has none. -/
theorem located_of_astray (n : ℕ) {pos : ℕ} (hpos : pos ≤ buf.size)
    (hcomes : Comes buf want n pos true) :
    (located n pos (buf.bytes.drop pos)).find? (fun e => e.1.name = want) = none := by
  induction n generalizing pos with
  | zero => cases hcomes
  | succ n ih =>
    obtain ⟨body, h, hbody, hhead, -⟩ := comes_succ_iff.mp hcomes
    obtain ⟨-, hrest⟩ := (comes_at_iff hbody hhead).mp hcomes
    rw [located, takeEntry_of_headAt hpos hbody hhead]
    by_cases hwhole : h.image + h.length ≤ buf.size
    · obtain ⟨-, hnext⟩ := size_of_headAt hbody hhead hwhole
      have hwrap : w.wrap (h.image + h.length) = h.image + h.length := @wrap_eq w buf _ (by omega)
      rw [hwrap, decide_eq_false (Nat.not_lt.mpr hwhole)] at hrest
      split_ifs at hrest with hname
      obtain ⟨more, hmore, heq⟩ := hrest
      rw [Bool.false_or] at heq
      rw [if_pos hwhole, Option.elim_some, hnext, List.find?_cons, decide_eq_false hname]
      exact ih hwhole (heq ▸ hmore)
    · rw [if_neg hwhole]
      rfl

theorem entry_eq_firstBody_iff :
    buf.entry want = firstBody buf.bytes want ↔
      ¬ (6 ≤ buf.size ∧ Comes buf want (buf.byte 5).toNat 6 true) := by
  by_cases hsize : 6 ≤ buf.size
  · have hsize' : 6 ≤ buf.bytes.length := hsize
    rw [Buffer.entry, firstBody, if_pos hsize, if_pos hsize']
    simp only [hsize, true_and]
    exact find_eq_located_iff _ hsize
  · have hsize' : ¬ 6 ≤ buf.bytes.length := hsize
    rw [Buffer.entry, firstBody, if_neg hsize, if_neg hsize']
    exact iff_of_true rfl fun h => hsize h.1

/-- A `size_t` of 64 bits has room for every sum the search makes. -/
theorem not_comes_astray_of_wide {buf : Buffer .bits64} (n pos : ℕ) : ¬ Comes buf want n pos true := by
  induction n generalizing pos with
  | zero => exact fun h => by cases h
  | succ n ih =>
    intro hcomes
    obtain ⟨body, h, hbody, hhead, hfits, hrest⟩ := comes_succ_iff.mp hcomes
    rw [wrap_wide hhead] at hfits hrest
    rw [decide_eq_false (Nat.not_lt.mpr hfits)] at hrest
    split_ifs at hrest with hname
    obtain ⟨more, hmore, heq⟩ := hrest
    rw [Bool.false_or] at heq
    exact ih _ (heq ▸ hmore)

end Search

section Client

/-- `sizeof(((struct builder *)0)->buf)`. -/
abbrev builderBytes : ℕ := 4096

def image : List UInt8 := [73, 77, 71, 48, 0]

/-- `put(b, p, n)`, over what `p` points to; past either end it is undefined. -/
def put (b p : List UInt8) (n : ℕ) : Option (List UInt8) :=
  if n ≤ p.length ∧ b.length + n ≤ builderBytes then some (b ++ p.take n) else none

def putU8 (b : List UInt8) (v : UInt8) : Option (List UInt8) := put b [v] 1

def putU32 (b : List UInt8) (v : UInt32) : Option (List UInt8) :=
  put b [v.toUInt8, (v >>> 8).toUInt8, (v >>> 16).toUInt8, (v >>> 24).toUInt8] 4

/-- `begin(b, count, magic, version)`. -/
def beginManifest (count : UInt8) (magic : List UInt8) (version : UInt8) : Option (List UInt8) := do
  let b ← put [] magic 4
  let b ← putU8 b version
  putU8 b count

/-- The arguments of one call of `entry`, its strings without their terminators. -/
structure Listed where
  name : List UInt8
  length : UInt32
  digest : Vector UInt8 digestBytes
  ref : Option (List UInt8)

/-- `entry(b, name, length, digest, ref)`. -/
def putEntry (b : List UInt8) (e : Listed) : Option (List UInt8) := do
  let b ← putU8 b (UInt8.ofNat e.name.length)
  let b ← put b e.name e.name.length
  let b ← putU32 b e.length
  let b ← put b e.digest.toList digestBytes
  let b ← putU8 b (e.ref.elim 0 fun ref => UInt8.ofNat ref.length)
  let b ← e.ref.elim (some b) fun ref => put b ref ref.length
  put b image e.length.toNat

def layOut (magic : List UInt8) (version : UInt8) (entries : List Listed) : Option (List UInt8) := do
  let b ← beginManifest (UInt8.ofNat entries.length) magic version
  entries.foldlM putEntry b

namespace Listed

def toEntry (e : Listed) : Entry :=
  ⟨⟨e.digest.toList, e.ref.getD [], image.take e.length.toNat⟩, e.name⟩

def bytes (e : Listed) : List UInt8 :=
  UInt8.ofNat e.name.length :: (e.name ++
    ([e.length.toUInt8, (e.length >>> 8).toUInt8, (e.length >>> 16).toUInt8,
      (e.length >>> 24).toUInt8] ++ (e.digest.toList ++
        UInt8.ofNat (e.ref.getD []).length :: (e.ref.getD [] ++ image.take e.length.toNat))))

end Listed

theorem put_eq_some {b p b' : List UInt8} {n : ℕ} (h : put b p n = some b') :
    n ≤ p.length ∧ b' = b ++ p.take n ∧ b'.length ≤ builderBytes := by
  unfold put at h
  split_ifs at h with hfits
  obtain rfl := Option.some.inj h
  refine ⟨hfits.1, rfl, ?_⟩
  rw [List.length_append, List.length_take, Nat.min_eq_left hfits.1]
  exact hfits.2

theorem putEntry_eq_some {b b' : List UInt8} {e : Listed} (h : putEntry b e = some b') :
    b' = b ++ e.bytes ∧ e.length.toNat ≤ image.length ∧ b'.length ≤ builderBytes := by
  unfold putEntry putU8 putU32 at h
  simp only [Option.bind_eq_bind, Option.bind_eq_some_iff] at h
  obtain ⟨b1, h1, b2, h2, b3, h3, b4, h4, b5, h5, b6, h6, h7⟩ := h
  have href : b6 = b5 ++ e.ref.getD [] := by
    cases hr : e.ref with
    | none =>
      rw [hr] at h6
      rw [Option.getD_none, List.append_nil]
      exact (Option.some.inj h6).symm
    | some ref =>
      rw [hr] at h6
      rw [(put_eq_some h6).2.1, List.take_length]
      rfl
  have hrefLen : (e.ref.elim 0 fun ref => UInt8.ofNat ref.length) =
      UInt8.ofNat (e.ref.getD []).length := by
    cases e.ref <;> rfl
  obtain ⟨himage, hb', hsize⟩ := put_eq_some h7
  refine ⟨?_, himage, hsize⟩
  rw [hb', href, (put_eq_some h5).2.1, (put_eq_some h4).2.1, (put_eq_some h3).2.1,
    (put_eq_some h2).2.1, (put_eq_some h1).2.1, hrefLen, Listed.bytes, List.take_length,
    List.take_of_length_le (Nat.le_of_eq Vector.length_toList)]
  simp

theorem foldlM_putEntry {entries : List Listed} {b b' : List UInt8}
    (h : entries.foldlM putEntry b = some b') :
    b' = b ++ entries.flatMap Listed.bytes ∧ (∀ e ∈ entries, e.length.toNat ≤ image.length) ∧
      (b.length ≤ builderBytes → b'.length ≤ builderBytes) := by
  induction entries generalizing b with
  | nil =>
    obtain rfl := Option.some.inj h
    exact ⟨(List.append_nil b).symm, fun _ he => absurd he List.not_mem_nil, id⟩
  | cons e entries ih =>
    rw [List.foldlM_cons, Option.bind_eq_bind, Option.bind_eq_some_iff] at h
    obtain ⟨b1, h1, h⟩ := h
    obtain ⟨hb1, himage, hsize⟩ := putEntry_eq_some h1
    obtain ⟨hb', hall, hsize'⟩ := ih h
    refine ⟨?_, List.forall_mem_cons.mpr ⟨himage, hall⟩, fun _ => hsize' hsize⟩
    rw [hb', hb1, List.flatMap_cons, List.append_assoc]

theorem cut_append {n : ℕ} (l rest : List UInt8) (h : l.length = n) :
    cut n (l ++ rest) = some (l, rest) := by
  rw [cut, if_pos (by rw [List.length_append]; omega), List.take_left' h, List.drop_left' h]

theorem little_length {l : List UInt8} (h : l.length ≤ 255) :
    little [UInt8.ofNat l.length] = l.length := by
  have hbyte : (UInt8.ofNat l.length).toNat = l.length :=
    UInt8.toNat_ofNat_of_lt (Nat.lt_of_le_of_lt h (by decide))
  show (UInt8.ofNat l.length).toNat + 256 * 0 = l.length
  omega

theorem little_length_word (n : UInt32) :
    little [n.toUInt8, (n >>> 8).toUInt8, (n >>> 16).toUInt8, (n >>> 24).toUInt8] = n.toNat := by
  have hn := n.toNat_lt
  simp only [little, UInt32.toNat_toUInt8, UInt32.toNat_shiftRight, UInt32.reduceToNat,
    Nat.reduceMod, Nat.shiftRight_eq_div_pow]
  omega

/-- What the client lays out, the layout gives back. -/
theorem takeEntry_bytes {e : Listed} (hname : e.name.length ≤ 255)
    (href : (e.ref.getD []).length ≤ 255) (himage : e.length.toNat ≤ image.length)
    (rest : List UInt8) : takeEntry (e.bytes ++ rest) = some (e.toEntry, rest) := by
  have hsplit : e.bytes ++ rest = [UInt8.ofNat e.name.length] ++ (e.name ++
      ([e.length.toUInt8, (e.length >>> 8).toUInt8, (e.length >>> 16).toUInt8,
        (e.length >>> 24).toUInt8] ++ (e.digest.toList ++ ([UInt8.ofNat (e.ref.getD []).length] ++
          (e.ref.getD [] ++ (image.take e.length.toNat ++ rest)))))) := by
    simp [Listed.bytes]
  have himageLen : (image.take e.length.toNat).length = e.length.toNat := by
    rw [List.length_take, Nat.min_eq_left himage]
  have hbyte : ∀ (b : UInt8) (l : List UInt8), cut 1 ([b] ++ l) = some ([b], l) := fun b l =>
    cut_append [b] l rfl
  have hfour : ∀ (b0 b1 b2 b3 : UInt8) (l : List UInt8),
      cut 4 ([b0, b1, b2, b3] ++ l) = some ([b0, b1, b2, b3], l) := fun b0 b1 b2 b3 l =>
    cut_append [b0, b1, b2, b3] l rfl
  rw [hsplit, takeEntry, hbyte]
  simp only [Option.bind_eq_bind, Option.bind_some]
  rw [cut_append e.name _ (little_length hname).symm]
  simp only [Option.bind_some, takeContent, Option.bind_eq_bind]
  rw [hfour, Option.bind_some]
  simp only
  rw [cut_append e.digest.toList _ Vector.length_toList, Option.bind_some]
  simp only
  rw [hbyte, Option.bind_some]
  simp only
  rw [cut_append (e.ref.getD []) _ (little_length href).symm, Option.bind_some]
  simp only
  rw [cut_append _ rest (himageLen.trans (little_length_word e.length).symm)]
  rfl

/-- The entries of a laid out manifest, where they stand. -/
theorem located_flatMap {entries : List Listed} (hnames : ∀ e ∈ entries, e.name.length ≤ 255)
    (hrefs : ∀ e ∈ entries, (e.ref.getD []).length ≤ 255)
    (himages : ∀ e ∈ entries, e.length.toNat ≤ image.length) {want : List UInt8}
    (hwant : ∃ e ∈ entries, e.name = want) (offset : ℕ) :
    ∃ before x after, entries = before ++ x :: after ∧ x.name = want ∧
      (∀ y ∈ before, y.name ≠ want) ∧
      (located entries.length offset (entries.flatMap Listed.bytes)).find?
          (fun e => e.1.name = want) =
        some (x.toEntry, x.toEntry.bodyFrom (offset + (before.map fun y => y.toEntry.size).sum)) := by
  induction entries generalizing offset with
  | nil =>
    obtain ⟨e, he, -⟩ := hwant
    exact absurd he List.not_mem_nil
  | cons e entries ih =>
    rw [List.forall_mem_cons] at hnames hrefs himages
    rw [List.length_cons, List.flatMap_cons, located,
      takeEntry_bytes hnames.1 hrefs.1 himages.1, Option.elim_some, List.find?_cons]
    by_cases hname : e.name = want
    · refine ⟨[], e, entries, rfl, hname, fun _ hy => absurd hy List.not_mem_nil, ?_⟩
      rw [show e.toEntry.name = e.name from rfl, decide_eq_true hname]
      rfl
    · have hrest : ∃ e ∈ entries, e.name = want := by
        obtain ⟨e', he', hwant'⟩ := hwant
        rcases List.mem_cons.mp he' with rfl | he'
        · exact absurd hwant' hname
        · exact ⟨e', he', hwant'⟩
      obtain ⟨before, x, after, hsplit, hx, hbefore, hfind⟩ :=
        ih hnames.2 hrefs.2 himages.2 hrest (offset + e.toEntry.size)
      refine ⟨e :: before, x, after, by rw [hsplit]; rfl, hx,
        List.forall_mem_cons.mpr ⟨hname, hbefore⟩, ?_⟩
      rw [show e.toEntry.name = e.name from rfl, decide_eq_false hname]
      rw [List.map_cons, List.sum_cons, ← Nat.add_assoc]
      exact hfind

theorem beginManifest_eq_some {count version : UInt8} {magic b : List UInt8}
    (h : beginManifest count magic version = some b) :
    ∃ m : List UInt8, m.length = 4 ∧ b = m ++ [version, count] := by
  unfold beginManifest putU8 at h
  simp only [Option.bind_eq_bind, Option.bind_eq_some_iff] at h
  obtain ⟨b1, h1, b2, h2, h3⟩ := h
  refine ⟨magic.take 4, by rw [List.length_take]; have := (put_eq_some h1).1; omega, ?_⟩
  rw [(put_eq_some h3).2.1, (put_eq_some h2).2.1, (put_eq_some h1).2.1]
  simp

/-- What `find_entry` answers, whatever the instance holds. -/
def Answers (buf : Buffer w) (p : Pointer) (len : ℕ) (answer : Option ℕ) : Prop :=
  ∀ s, findEntry buf p len s = (.ok answer, s)

theorem answers_iff {p : Pointer} (hp : p.Shows buf want) (answer : Option ℕ) :
    Answers buf p want.length answer ↔ buf.entry want = answer := by
  unfold Answers
  rw [findEntry_shows hp]
  constructor
  · intro h
    have hrun := congrArg Prod.fst (h created)
    exact Outcome.ok.inj hrun
  · rintro rfl s
    rfl

theorem find_entry_first_iff (buf : Buffer w) {p : Pointer} {want : List UInt8}
    (hp : p.Shows buf want) :
    (Answers buf p want.length (firstBody buf.bytes want) ↔
      ¬ (6 ≤ buf.size ∧ Comes buf want (buf.byte 5).toNat 6 true)) ∧
    ∀ (magic : List UInt8) (version : UInt8) (entries : List Listed),
      layOut magic version entries = some buf.bytes → entries.length ≤ 255 →
      (∀ e ∈ entries, e.name.length ≤ 255 ∧ (e.ref.getD []).length ≤ 255) →
      (∃ e ∈ entries, e.name = want) →
      ∃ before x after, entries = before ++ x :: after ∧ x.name = want ∧
        (∀ y ∈ before, y.name ≠ want) ∧
        Answers buf p want.length
          (some (x.toEntry.bodyFrom (6 + (before.map fun y => y.toEntry.size).sum))) := by
  rw [answers_iff hp]
  refine ⟨entry_eq_firstBody_iff, fun magic version entries hlayout hcount hsizes hwant => ?_⟩
  obtain ⟨b, hbegin, hfold⟩ := Option.bind_eq_some_iff.mp hlayout
  obtain ⟨m, hm, rfl⟩ := beginManifest_eq_some hbegin
  obtain ⟨hbytes, himages, -⟩ := foldlM_putEntry hfold
  obtain ⟨before, x, after, hsplit, hx, hbefore, hfind⟩ := located_flatMap
    (fun e he => (hsizes e he).1) (fun e he => (hsizes e he).2) himages hwant 6
  have hhead : (m ++ [version, UInt8.ofNat entries.length]).length = 6 := by
    rw [List.length_append, hm]
    rfl
  have hsize : 6 ≤ buf.size := by
    rw [Buffer.size, hbytes, List.length_append, hhead]
    exact Nat.le_add_right 6 _
  have hbyte : (buf.byte 5).toNat = entries.length := by
    have hget : (m ++ [version, UInt8.ofNat entries.length])[5]? =
        some (UInt8.ofNat entries.length) := by
      rw [List.getElem?_append_right (by omega), hm]
      rfl
    rw [Buffer.byte, hbytes, List.getElem?_append_left (by omega), hget]
    exact UInt8.toNat_ofNat_of_lt (Nat.lt_of_le_of_lt hcount (by decide))
  have hdrop : buf.bytes.drop 6 = entries.flatMap Listed.bytes := by
    rw [hbytes, List.drop_left' hhead]
  have hlocated : (located (buf.byte 5).toNat 6 (buf.bytes.drop 6)).find?
      (fun e => e.1.name = want) =
        some (x.toEntry, x.toEntry.bodyFrom (6 + (before.map fun y => y.toEntry.size).sum)) := by
    rw [hbyte, hdrop]
    exact hfind
  -- where the search goes astray the layout has no entry of the name, and here it has one
  have hstraight : ¬ (6 ≤ buf.size ∧ Comes buf want (buf.byte 5).toNat 6 true) := by
    intro hcomes
    rw [located_of_astray _ hsize hcomes.2] at hlocated
    cases hlocated
  refine ⟨before, x, after, hsplit, hx, hbefore, (answers_iff hp _).mpr ?_⟩
  have hsize' : 6 ≤ buf.bytes.length := hsize
  rw [entry_eq_firstBody_iff.mpr hstraight, firstBody, if_pos hsize',
    show (buf.bytes[5]?.getD 0) = buf.byte 5 from rfl, hlocated]
  rfl

def oneListed : Listed := ⟨[97], 4, Vector.replicate _ 0, none⟩

def narrowManifest : Buffer .bits32 := ⟨(layOut magic 1 [oneListed]).getD [], by decide +kernel⟩

theorem find_entry_first_narrow : ∃ body, Answers narrowManifest (.literal [97]) 1 (some body) := by
  obtain ⟨_, x, _, -, -, -, hfound⟩ := (find_entry_first_iff narrowManifest (shows_literal [97])).2
    magic 1 [oneListed] (by decide +kernel) (by decide) (by decide)
    ⟨oneListed, List.mem_cons_self, rfl⟩
  exact ⟨_, hfound⟩

/-- Its length is such that the end of the image wraps round to the start of the buffer. -/
def hostileManifest : Buffer .bits32 :=
  ⟨magic ++ [1, 1] ++ ([1, 97, 0xD3, 0xFF, 0xFF, 0xFF] ++ List.replicate digestBytes 0 ++ [0]),
    by decide⟩

theorem hostile_length_found :
    Answers hostileManifest (.literal [97]) 1 (some 8) ∧
      ¬ Answers hostileManifest (.literal [97]) 1 (firstBody hostileManifest.bytes [97]) := by
  have hanswers := @answers_iff _ hostileManifest _ _ (shows_literal [97])
  have hfound : hostileManifest.entry [97] = some 8 := by decide +kernel
  refine ⟨(hanswers _).mpr hfound, fun h => ?_⟩
  have hnone : firstBody hostileManifest.bytes [97] = none := by decide +kernel
  have hsame := (hanswers _).mp h
  rw [hfound, hnone] at hsame
  cases hsame

end Client

end Jmpxx.Manifest
