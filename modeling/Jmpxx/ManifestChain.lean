import Jmpxx.ManifestInvoke

namespace Jmpxx.Manifest

open Throwing (Outcome)

/-- What an entry holds beside its name; the image is as long as the entry declares. -/
structure Content where
  digest : List UInt8
  ref : List UInt8
  image : List UInt8
  deriving DecidableEq, Repr

@[ext] structure Entry extends Content where
  name : List UInt8
  deriving DecidableEq, Repr

def cut (n : ℕ) (bytes : List UInt8) : Option (List UInt8 × List UInt8) :=
  if n ≤ bytes.length then some (bytes.take n, bytes.drop n) else none

def little : List UInt8 → ℕ
  | [] => 0
  | b :: bytes => b.toNat + 256 * little bytes

def takeContent (bytes : List UInt8) : Option (Content × List UInt8) := do
  let (length, bytes) ← cut 4 bytes
  let (digest, bytes) ← cut digestBytes bytes
  let (refLen, bytes) ← cut 1 bytes
  let (ref, bytes) ← cut (little refLen) bytes
  let (image, bytes) ← cut (little length) bytes
  pure (⟨digest, ref, image⟩, bytes)

def takeEntry (bytes : List UInt8) : Option (Entry × List UInt8) := do
  let (nameLen, bytes) ← cut 1 bytes
  let (name, bytes) ← cut (little nameLen) bytes
  let (content, bytes) ← takeContent bytes
  pure (⟨content, name⟩, bytes)

/-- At most `count` entries from left to right, up to the first that does not fit. -/
def walk : ℕ → List UInt8 → List Entry
  | 0, _ => []
  | count + 1, bytes =>
    match takeEntry bytes with
    | none => []
    | some (e, rest) => e :: walk count rest

def References (entries : List Entry) (e e' : Entry) : Prop :=
  e.ref ≠ [] ∧ entries.find? (fun x => x.name = e.ref) = some e'

/-- `chain` leads from the first entry to one without a reference, each reference resolved to
the first entry of that name. -/
structure Linked (entries chain : List Entry) : Prop where
  first : chain.head? = entries.head?
  nonempty : chain ≠ []
  links : chain.IsChain (References entries)
  last : ∀ e ∈ chain.getLast?, e.ref = []

/-- The image is of a plausible length and has the digest declared. -/
structure Sound (sha256 : List UInt8 → Vector UInt8 digestBytes) (c : Content) : Prop where
  image_ne : c.image ≠ []
  length_image : c.image.length ≤ maxImageBytes
  digest : (sha256 c.image).toList = c.digest

/-- A manifest whose chain of `n` entries verifies. -/
def Verifies (sha256 : List UInt8 → Vector UInt8 digestBytes) (bytes : List UInt8) (n : ℕ) : Prop :=
  ∃ (count : UInt8) (rest : List UInt8) (chain : List Entry),
    bytes = magic ++ [1, count] ++ rest ∧ count ≠ 0 ∧ Linked (walk count.toNat rest) chain ∧
      (∀ e ∈ chain.head?, e.name ≠ []) ∧ chain.length = n ∧ n ≤ maxDepth + 1 ∧
      (chain.map Entry.name).Nodup ∧ ∀ e ∈ chain, Sound sha256 e.toContent

section Bytes

theorem little_four (b0 b1 b2 b3 : UInt8) :
    little [b0, b1, b2, b3] =
      (b0.toUInt32 ||| (b1.toUInt32 <<< 8) ||| (b2.toUInt32 <<< 16) |||
        (b3.toUInt32 <<< 24)).toNat := by
  have h0 := b0.toNat_lt
  have h1 := b1.toNat_lt
  have h2 := b2.toNat_lt
  have h3 := b3.toNat_lt
  have hshift1 : (b1.toUInt32 <<< 8).toNat = b1.toNat <<< 8 := by
    simp only [UInt32.toNat_shiftLeft, UInt8.toNat_toUInt32, UInt32.reduceToNat, Nat.reduceMod,
      Nat.reducePow, Nat.shiftLeft_eq]
    omega
  have hshift2 : (b2.toUInt32 <<< 16).toNat = b2.toNat <<< 16 := by
    simp only [UInt32.toNat_shiftLeft, UInt8.toNat_toUInt32, UInt32.reduceToNat, Nat.reduceMod,
      Nat.reducePow, Nat.shiftLeft_eq]
    omega
  have hshift3 : (b3.toUInt32 <<< 24).toNat = b3.toNat <<< 24 := by
    simp only [UInt32.toNat_shiftLeft, UInt8.toNat_toUInt32, UInt32.reduceToNat, Nat.reduceMod,
      Nat.reducePow, Nat.shiftLeft_eq]
    omega
  simp only [UInt32.toNat_or, hshift1, hshift2, hshift3, UInt8.toNat_toUInt32]
  rw [Nat.or_comm b0.toNat, ← Nat.shiftLeft_add_eq_or_of_lt h0, Nat.or_comm _ (b2.toNat <<< 16),
    ← Nat.shiftLeft_add_eq_or_of_lt (by rw [Nat.shiftLeft_eq]; omega),
    Nat.or_comm _ (b3.toNat <<< 24),
    ← Nat.shiftLeft_add_eq_or_of_lt (by rw [Nat.shiftLeft_eq, Nat.shiftLeft_eq]; omega)]
  simp only [little, Nat.shiftLeft_eq]
  omega

end Bytes

section Parse

variable {w : Width} {buf : Buffer w}

theorem cut_drop {i n : ℕ} (hi : i ≤ buf.size) :
    cut n (buf.bytes.drop i) =
      if i + n ≤ buf.size then some (buf.slice i n, buf.bytes.drop (i + n)) else none := by
  have hlen : (buf.bytes.drop i).length = buf.size - i := List.length_drop ..
  unfold cut
  rw [hlen, List.drop_drop]
  by_cases h : i + n ≤ buf.size
  · rw [if_pos h, if_pos (by omega)]
    rfl
  · rw [if_neg h, if_neg (by omega)]

theorem slice_eq_map {i n : ℕ} (h : i + n ≤ buf.size) :
    buf.slice i n = (List.range n).map fun k => buf.byte (i + k) := by
  apply List.ext_getElem?
  intro k
  by_cases hk : k < n
  · rw [Buffer.slice, List.getElem?_take_of_lt hk, List.getElem?_drop,
      @getElem?_byte w buf (i + k) (by omega), List.getElem?_map, List.getElem?_range hk]
    rfl
  · rw [List.getElem?_eq_none (by rw [length_slice h]; omega),
      List.getElem?_eq_none (by rw [List.length_map, List.length_range]; omega)]

theorem little_byte {i : ℕ} (h : i + 1 ≤ buf.size) : little (buf.slice i 1) = (buf.byte i).toNat := by
  rw [slice_eq_map h]
  rfl

theorem little_word {i : ℕ} (h : i + 4 ≤ buf.size) : little (buf.slice i 4) = (buf.word i).toNat := by
  rw [slice_eq_map h]
  exact little_four ..

def contentOf (buf : Buffer w) (h : Head) : Content :=
  ⟨buf.slice h.digest digestBytes, buf.slice h.ref h.refLen, buf.slice h.image h.length⟩

theorem takeContent_drop {body : ℕ} (hbody : body ≤ buf.size) :
    takeContent (buf.bytes.drop body) =
      (buf.headAt body).bind fun h =>
        if h.image + h.length ≤ buf.size then
          some (contentOf buf h, buf.bytes.drop (h.image + h.length))
        else none := by
  unfold takeContent
  rw [cut_drop hbody, Buffer.headAt]
  by_cases h4 : body + 4 ≤ buf.size
  · rw [if_pos h4]
    simp only [Option.bind_eq_bind, Option.bind_some]
    rw [cut_drop h4]
    by_cases h36 : body + 4 + digestBytes ≤ buf.size
    · rw [if_pos h36, Option.bind_some]
      have hrefLen : cut 1 (buf.bytes.drop (body + 4 + digestBytes)) =
          if body + 37 ≤ buf.size then some (buf.slice (body + 36) 1, buf.bytes.drop (body + 37))
          else none := cut_drop h36
      simp only [hrefLen]
      by_cases h37 : body + 37 ≤ buf.size
      · rw [if_pos h37, Option.bind_some]
        simp only
        rw [cut_drop h37, little_byte h37, little_word h4]
        by_cases href : body + 37 + (buf.byte (body + 36)).toNat ≤ buf.size
        · rw [if_pos href, if_pos ⟨h37, href⟩, Option.bind_some, Option.bind_some]
          simp only
          rw [cut_drop href]
          by_cases himage : body + 37 + (buf.byte (body + 36)).toNat + (buf.word body).toNat ≤ buf.size
          · simp only [Buffer.headOf, himage, if_true, Option.bind_some]
            rfl
          · simp only [Buffer.headOf, himage, if_false, Option.bind_none]
        · simp only [Buffer.headOf, href, and_false, if_false, Option.bind_none]
      · rw [if_neg h37, if_neg fun h => h37 h.1]
        rfl
    · simp only [digestBytes] at h36
      rw [if_neg h36, if_neg (by omega)]
      rfl
  · rw [if_neg h4, if_neg (by omega)]
    rfl

theorem takeEntry_drop {pos : ℕ} (hpos : pos ≤ buf.size) :
    takeEntry (buf.bytes.drop pos) =
      (buf.bodyAt pos).bind fun body =>
        (takeContent (buf.bytes.drop body)).map fun p =>
          (⟨p.1, buf.slice (pos + 1) (body - (pos + 1))⟩, p.2) := by
  unfold takeEntry Buffer.bodyAt
  rw [cut_drop hpos]
  by_cases h1 : pos + 1 ≤ buf.size
  · rw [if_pos h1]
    simp only [Option.bind_eq_bind, Option.bind_some]
    rw [cut_drop h1, little_byte h1]
    by_cases hname : pos + 1 + (buf.byte pos).toNat ≤ buf.size
    · rw [if_pos hname, if_pos ⟨h1, hname⟩]
      simp only [Option.bind_some]
      rw [Nat.add_sub_cancel_left]
      cases takeContent (buf.bytes.drop (pos + 1 + (buf.byte pos).toNat)) <;> rfl
    · rw [if_neg hname, if_neg fun h => hname h.2]
      rfl
  · rw [if_neg h1, if_neg fun h => h1 h.1]
    rfl

end Parse

section Walk

variable {buf : Buffer .bits64}

def contentAt (buf : Buffer .bits64) (body : ℕ) : Option Content :=
  (takeContent (buf.bytes.drop body)).map Prod.fst

theorem wrap_wide {h : Head} {body : ℕ} (hh : buf.headAt body = some h) :
    Width.bits64.wrap (h.image + h.length) = h.image + h.length := by
  have hsize := buf.size_lt
  unfold Buffer.headAt at hh
  split_ifs at hh with hfits
  rw [← Option.some.inj hh]
  have hword := (buf.word body).toNat_lt
  have himage : (buf.headOf body).image ≤ buf.size := hfits.2
  unfold Buffer.size at himage
  refine Nat.mod_eq_of_lt ?_
  have hlength : (buf.headOf body).length < 2 ^ 32 := hword
  simp only [Width.bits] at hsize ⊢
  omega

/-- The walk by offsets finds the place of what the walk over the bytes finds. -/
theorem find_walk (want : List UInt8) (n : ℕ) {pos : ℕ} (hpos : pos ≤ buf.size) :
    (buf.find want n pos).map (contentAt buf) =
      ((walk n (buf.bytes.drop pos)).find? fun e => e.name = want).map
        fun e => some e.toContent := by
  induction n generalizing pos with
  | zero => rfl
  | succ n ih =>
    rw [walk, Buffer.find, takeEntry_drop hpos]
    cases hbody : buf.bodyAt pos with
    | none => rfl
    | some body =>
      simp only [Option.bind_eq_bind, Option.bind_some]
      have hbodyLe := bodyAt_le hbody
      have hcontent := takeContent_drop hbodyLe
      cases hhead : buf.headAt body with
      | none =>
        rw [hhead] at hcontent
        rw [hcontent]
        rfl
      | some h =>
        rw [hhead, Option.bind_some] at hcontent
        rw [Option.bind_some, wrap_wide hhead]
        by_cases hfits : h.image + h.length ≤ buf.size
        · rw [if_pos hfits] at hcontent ⊢
          rw [hcontent, Option.map_some]
          simp only
          rw [List.find?_cons]
          by_cases hname : buf.slice (pos + 1) (body - (pos + 1)) = want
          · simp only [hname, if_true, decide_true, Option.map_some, contentAt, hcontent]
          · simp only [hname, if_false, decide_false]
            exact ih hfits
        · rw [if_neg hfits] at hcontent ⊢
          rw [hcontent]
          rfl

/-- The entries `find_entry` walks over. -/
def entriesOf (buf : Buffer .bits64) : List Entry := walk (buf.byte 5).toNat (buf.bytes.drop 6)

theorem entry_walk (want : List UInt8) (hsize : 6 ≤ buf.size) :
    (buf.entry want).map (contentAt buf) =
      ((entriesOf buf).find? fun e => e.name = want).map fun e => some e.toContent := by
  rw [Buffer.entry, if_pos hsize]
  exact find_walk want _ hsize

end Walk

section Verdicts

variable {buf : Buffer .bits64} {sha256 : List UInt8 → Vector UInt8 digestBytes}

/-- A kit that allocates whenever it is asked. -/
def granting (sha256 : List UInt8 → Vector UInt8 digestBytes) : Kit := ⟨fun _ => true, sha256⟩

theorem judgeImage_ok {depth n : ℕ} {name : List UInt8} {h : Head} :
    judgeImage (granting sha256) buf depth name h = .ok n ↔
      h.image + h.length ≤ buf.size ∧
        (sha256 (contentOf buf h).image).toList = (contentOf buf h).digest ∧ n = 1 := by
  unfold judgeImage
  by_cases hfits : buf.size < h.image + h.length
  · rw [if_pos hfits]
    exact ⟨fun heq => (by cases heq), fun heq => absurd heq.1 (by omega)⟩
  · rw [if_neg hfits]
    show (if (sha256 (contentOf buf h).image).toList = (contentOf buf h).digest then _ else _) =
      _ ↔ _
    by_cases hdigest : (sha256 (contentOf buf h).image).toList = (contentOf buf h).digest
    · rw [if_pos hdigest]
      exact ⟨fun heq => ⟨by omega, hdigest, (Except.ok.inj heq).symm⟩, fun heq => by rw [heq.2.2]⟩
    · rw [if_neg hdigest]
      exact ⟨fun heq => (by cases heq), fun heq => absurd heq.2.1 hdigest⟩

theorem judgeReference_ok {depth m : ℕ} {below : List UInt8 → ℕ → Except Refusal ℕ} {h : Head}
    (href : h.ref + h.refLen ≤ buf.size) :
    judgeReference buf depth below h = .ok m ↔
      if (contentOf buf h).ref = [] then m = 0
      else ∃ target, buf.entry (contentOf buf h).ref = some target ∧
        below (contentOf buf h).ref target = .ok m := by
  have hlen : (contentOf buf h).ref.length = h.refLen := length_slice href
  unfold judgeReference
  by_cases hnone : h.refLen = 0
  · rw [if_pos hnone, if_pos (List.length_eq_zero_iff.mp (hlen.trans hnone))]
    exact ⟨fun heq => (Except.ok.inj heq).symm, fun heq => by rw [heq]; rfl⟩
  · have hne : (contentOf buf h).ref ≠ [] := fun heq => hnone (hlen.symm.trans (by rw [heq]; rfl))
    rw [if_neg hnone, if_neg hne]
    have hentry : buf.entry (contentOf buf h).ref = buf.entry (buf.slice h.ref h.refLen) := rfl
    rw [hentry]
    cases buf.entry (buf.slice h.ref h.refLen) with
    | none => exact ⟨fun heq => (by cases heq), fun heq => (by obtain ⟨_, heq, _⟩ := heq; cases heq)⟩
    | some target =>
      exact ⟨fun heq => ⟨target, rfl, heq⟩,
        fun heq => (by obtain ⟨t, ht, heq⟩ := heq; rw [← Option.some.inj ht] at heq; exact heq)⟩

theorem except_bind_ok {a b : Except Refusal ℕ} {n : ℕ} :
    (do
      let x ← a
      let y ← b
      pure (x + y) : Except Refusal ℕ) = .ok n ↔ ∃ x y, a = .ok x ∧ b = .ok y ∧ n = x + y := by
  cases a with
  | error r => exact ⟨fun h => (by cases h), fun h => (by obtain ⟨_, _, h, _⟩ := h; cases h)⟩
  | ok x =>
    cases b with
    | error r => exact ⟨fun h => (by cases h), fun h => (by obtain ⟨_, _, _, h, _⟩ := h; cases h)⟩
    | ok y =>
      constructor
      · intro h
        exact ⟨x, y, rfl, rfl, (Except.ok.inj h).symm⟩
      · rintro ⟨x', y', hx, hy, hn⟩
        rw [hn, ← Except.ok.inj hx, ← Except.ok.inj hy]
        rfl

/-- When the body of an entry is accepted. -/
theorem judgeBody_ok {depth n body : ℕ} {name : List UInt8}
    {below : List UInt8 → ℕ → Except Refusal ℕ} (hbody : body ≤ buf.size) :
    judgeBody (granting sha256) buf depth name below body = .ok n ↔
      ∃ c, contentAt buf body = some c ∧ Sound sha256 c ∧
        ∃ m, n = m + 1 ∧
          if c.ref = [] then m = 0
          else ∃ target, buf.entry c.ref = some target ∧ below c.ref target = .ok m := by
  unfold judgeBody contentAt
  rw [takeContent_drop hbody]
  cases hhead : buf.headAt body with
  | none => exact ⟨fun heq => (by cases heq), fun h => (by obtain ⟨_, heq, _⟩ := h; cases heq)⟩
  | some h =>
    have href : h.ref + h.refLen ≤ buf.size := by
      unfold Buffer.headAt at hhead
      split_ifs at hhead with hfits
      rw [← Option.some.inj hhead]
      exact hfits.2
    have hcontent : ∀ c, ((some h).bind fun h => if h.image + h.length ≤ buf.size then
        some (contentOf buf h, buf.bytes.drop (h.image + h.length)) else none).map Prod.fst =
          some c ↔ h.image + h.length ≤ buf.size ∧ contentOf buf h = c := by
      intro c
      rw [Option.bind_some]
      split_ifs with hfits
      · exact ⟨fun heq => ⟨hfits, Option.some.inj heq⟩, fun heq => congrArg some heq.2⟩
      · exact ⟨fun heq => (by cases heq), fun heq => absurd heq.1 hfits⟩
    simp only [hcontent]
    by_cases hplausible : h.length = 0 ∨ h.length > maxImageBytes
    · rw [if_pos hplausible]
      refine ⟨fun heq => (by cases heq), fun h => ?_⟩
      obtain ⟨c, ⟨hfits, hc⟩, hsound, _⟩ := h
      subst hc
      have hlen : (contentOf buf h).image.length = h.length := length_slice hfits
      rcases hplausible with hzero | hlong
      · exact absurd (List.length_eq_zero_iff.mp (hlen.trans hzero)) hsound.image_ne
      · have hshort := hsound.length_image
        omega
    · rw [if_neg hplausible, except_bind_ok]
      rw [not_or, Nat.not_lt] at hplausible
      simp only [judgeReference_ok href, judgeImage_ok]
      constructor
      · rintro ⟨m, _, hm, ⟨hfits, hdigest, hone⟩, hn⟩
        have hlen : (contentOf buf h).image.length = h.length := length_slice hfits
        refine ⟨contentOf buf h, ⟨hfits, rfl⟩, ⟨fun hnil => ?_, by omega, hdigest⟩, m, by omega, hm⟩
        rw [hnil] at hlen
        exact hplausible.1 hlen.symm
      · rintro ⟨c, ⟨hfits, hc⟩, hsound, m, hn, hm⟩
        subst hc
        exact ⟨m, 1, hm, ⟨hfits, hsound.digest, rfl⟩, hn⟩

/-- `chain` leads from `e` below the names on `path`, and deserves to be accepted. -/
structure Leads (sha256 : List UInt8 → Vector UInt8 digestBytes) (entries : List Entry)
    (path : List (List UInt8)) (e : Entry) (chain : List Entry) : Prop where
  first : chain.head? = some e
  links : chain.IsChain (References entries)
  last : ∀ x ∈ chain.getLast?, x.ref = []
  room : path.length + chain.length ≤ maxDepth + 1
  nodup : (path ++ chain.map Entry.name).Nodup
  sound : ∀ x ∈ chain, Sound sha256 x.toContent

variable {entries : List Entry} {path : List (List UInt8)} {e : Entry} {chain : List Entry}

theorem Leads.of_last (hsound : Sound sha256 e.toContent) (href : e.ref = [])
    (hroom : path.length ≤ maxDepth) (hpath : (path ++ [e.name]).Nodup) :
    Leads sha256 entries path e [e] where
  first := rfl
  links := List.IsChain.singleton e
  last := by
    intro x hx
    rw [← Option.some.inj hx]
    exact href
  room := Nat.succ_le_succ hroom
  nodup := hpath
  sound := by
    intro x hx
    rw [List.mem_singleton.mp hx]
    exact hsound

theorem Leads.cons {e' : Entry} (h : Leads sha256 entries (path ++ [e.name]) e' chain)
    (hsound : Sound sha256 e.toContent) (href : References entries e e') :
    Leads sha256 entries path e (e :: chain) := by
  obtain ⟨rest, rfl⟩ : ∃ rest, chain = e' :: rest := List.head?_eq_some_iff.mp h.first
  refine ⟨rfl, List.isChain_cons_cons.mpr ⟨href, h.links⟩, ?_, ?_, ?_, ?_⟩
  · intro x hx
    rw [List.getLast?_cons_cons] at hx
    exact h.last x hx
  · have hroom := h.room
    rw [List.length_append, List.length_singleton] at hroom
    rw [List.length_cons]
    omega
  · have hnodup := h.nodup
    rwa [List.append_assoc, List.singleton_append] at hnodup
  · intro x hx
    rcases List.mem_cons.mp hx with rfl | hx
    · exact hsound
    · exact h.sound x hx

theorem Leads.tail {e' : Entry} (h : Leads sha256 entries path e (e :: e' :: chain)) :
    References entries e e' ∧ Leads sha256 entries (path ++ [e.name]) e' (e' :: chain) := by
  have hlinks := List.isChain_cons_cons.mp h.links
  refine ⟨hlinks.1, rfl, hlinks.2, ?_, ?_, ?_, ?_⟩
  · intro x hx
    rw [← List.getLast?_cons_cons (a := e)] at hx
    exact h.last x hx
  · have hroom := h.room
    rw [List.length_cons] at hroom
    rw [List.length_append, List.length_singleton]
    omega
  · have hnodup := h.nodup
    rwa [List.append_assoc, List.singleton_append]
  · exact fun x hx => h.sound x (List.mem_cons_of_mem _ hx)

theorem name_of_find {ref : List UInt8} (h : entries.find? (fun x => x.name = ref) = some e) :
    e.name = ref := by
  have hp := List.find?_some h
  exact of_decide_eq_true hp

/-- The first entry of the name and what is found at its place are one. -/
theorem resolve_iff {ref : List UInt8} {X : Entry → Prop} (hsize : 6 ≤ buf.size) :
    (∃ target, buf.entry ref = some target ∧
        ∃ c, contentAt buf target = some c ∧ X ⟨c, ref⟩) ↔
      ∃ e, (entriesOf buf).find? (fun x => x.name = ref) = some e ∧ X e := by
  have hwalk := entry_walk ref hsize
  constructor
  · rintro ⟨target, htarget, c, hc, hX⟩
    rw [htarget, Option.map_some, hc] at hwalk
    obtain ⟨e, he, hce⟩ := Option.map_eq_some_iff.mp hwalk.symm
    have hname := name_of_find he
    refine ⟨e, he, ?_⟩
    rw [← Option.some.inj hce, ← hname] at hX
    exact hX
  · rintro ⟨e, he, hX⟩
    rw [he, Option.map_some] at hwalk
    obtain ⟨target, htarget, hc⟩ := Option.map_eq_some_iff.mp hwalk
    have hname := name_of_find he
    exact ⟨target, htarget, e.toContent, hc, hname ▸ hX⟩

theorem judge_ok (fuel : ℕ) {n body : ℕ} {name : List UInt8} (hfuel : enough ≤ fuel + path.length)
    (hpath : path.Nodup) (hbody : body ≤ buf.size) (hsize : 6 ≤ buf.size) :
    judge (granting sha256) buf fuel path name body = .ok n ↔
      ∃ c, contentAt buf body = some c ∧
        ∃ chain, Leads sha256 (entriesOf buf) path ⟨c, name⟩ chain ∧ chain.length = n := by
  induction fuel generalizing path name body n with
  | zero =>
    rw [judge]
    refine ⟨fun heq => (by cases heq), fun h => ?_⟩
    obtain ⟨c, _, chain, h, _⟩ := h
    have hroom := h.room
    simp only [enough] at hfuel
    omega
  | succ fuel ih =>
    rw [judge]
    by_cases hcycle : name ∈ path
    · rw [if_pos hcycle]
      refine ⟨fun heq => (by cases heq), fun h => ?_⟩
      obtain ⟨c, _, chain, h, _⟩ := h
      obtain ⟨rest, rfl⟩ := List.head?_eq_some_iff.mp h.first
      have hdisjoint := (List.nodup_append.mp h.nodup).2.2
      exact absurd rfl (hdisjoint name hcycle name List.mem_cons_self)
    rw [if_neg hcycle]
    by_cases hdeep : maxDepth < path.length
    · rw [if_pos hdeep]
      refine ⟨fun heq => (by cases heq), fun h => ?_⟩
      obtain ⟨c, _, chain, h, _⟩ := h
      obtain ⟨rest, rfl⟩ := List.head?_eq_some_iff.mp h.first
      have hroom := h.room
      rw [List.length_cons] at hroom
      omega
    rw [if_neg hdeep, if_pos (show (granting sha256).allocates path.length = true from rfl),
      judgeBody_ok hbody]
    have hnodup : (path ++ [name]).Nodup := by
      refine List.nodup_append.mpr ⟨hpath, List.nodup_singleton _, fun a ha b hb => ?_⟩
      rw [List.mem_singleton.mp hb]
      exact fun heq => hcycle (heq ▸ ha)
    have hbelow : ∀ (ref : List UInt8) (m : ℕ),
        (∃ target, buf.entry ref = some target ∧
          judge (granting sha256) buf fuel (path ++ [name]) ref target = .ok m) ↔
        ∃ e, (entriesOf buf).find? (fun x => x.name = ref) = some e ∧
          ∃ chain, Leads sha256 (entriesOf buf) (path ++ [name]) e chain ∧ chain.length = m := by
      intro ref m
      rw [← resolve_iff hsize]
      refine exists_congr fun target => and_congr_right fun htarget => ?_
      refine ih ?_ hnodup (entry_le htarget)
      rw [List.length_append, List.length_singleton]
      omega
    refine exists_congr fun c => and_congr_right fun _ => ?_
    simp only [hbelow]
    constructor
    · rintro ⟨hsound, m, hn, hm⟩
      by_cases href : c.ref = []
      · rw [if_pos href] at hm
        refine ⟨[⟨c, name⟩], Leads.of_last hsound href (by omega) hnodup, ?_⟩
        rw [hn, hm]
        rfl
      · rw [if_neg href] at hm
        obtain ⟨e, he, chain, hleads, hlen⟩ := hm
        refine ⟨⟨c, name⟩ :: chain, hleads.cons hsound ⟨href, he⟩, ?_⟩
        rw [List.length_cons, hlen, hn]
    · rintro ⟨chain, hleads, hlen⟩
      obtain ⟨rest, rfl⟩ := List.head?_eq_some_iff.mp hleads.first
      refine ⟨hleads.sound _ List.mem_cons_self, rest.length, hlen.symm, ?_⟩
      cases rest with
      | nil =>
        have href : c.ref = [] := hleads.last _ rfl
        rw [if_pos href]
        rfl
      | cons e' rest =>
        obtain ⟨href, htail⟩ := hleads.tail
        rw [if_neg href.1]
        exact ⟨e', href.2, e' :: rest, htail, rfl⟩

/-- A buffer that begins with the header, and what the header says. -/
theorem header_iff {count : UInt8} {rest : List UInt8} :
    buf.bytes = magic ++ [1, count] ++ rest ↔
      6 ≤ buf.size ∧ buf.slice 0 4 = magic ∧ buf.byte 4 = 1 ∧ buf.byte 5 = count ∧
        buf.bytes.drop 6 = rest := by
  constructor
  · intro h
    have hsize : 6 ≤ buf.size := by
      unfold Buffer.size
      rw [h, List.length_append]
      exact Nat.le_add_right _ _
    refine ⟨hsize, ?_, ?_, ?_, ?_⟩
    · rw [Buffer.slice, h]
      rfl
    · rw [Buffer.byte, h]
      rfl
    · rw [Buffer.byte, h]
      rfl
    · rw [h]
      rfl
  · rintro ⟨hsize, hmagic, hversion, hcount, hrest⟩
    have h4 : buf.bytes.take 4 = magic := hmagic
    have h6 : buf.bytes.take 6 = magic ++ [1, count] := by
      rw [List.take_add_one, List.take_add_one, h4, @getElem?_byte _ buf 4 (by omega),
        @getElem?_byte _ buf 5 (by omega), hversion, hcount, List.append_assoc]
      rfl
    rw [← List.take_append_drop 6 buf.bytes, h6, hrest]

/-- What the first entry of the manifest is, if its name and its content fit. -/
theorem head_entriesOf (hsize : 6 ≤ buf.size) (hcount : buf.byte 5 ≠ 0) {e : Entry} :
    (entriesOf buf).head? = some e ↔
      7 ≤ buf.size ∧ 7 + (buf.byte 6).toNat ≤ buf.size ∧
        e.name = buf.slice 7 (buf.byte 6).toNat ∧
        contentAt buf (7 + (buf.byte 6).toNat) = some e.toContent := by
  have hpos : (buf.byte 5).toNat ≠ 0 := fun h => hcount (UInt8.toNat_inj.mp h)
  obtain ⟨n, hn⟩ := Nat.exists_eq_succ_of_ne_zero hpos
  have hhead : (entriesOf buf).head? = (takeEntry (buf.bytes.drop 6)).map Prod.fst := by
    rw [entriesOf, hn, Nat.succ_eq_add_one, walk]
    cases takeEntry (buf.bytes.drop 6) with
    | none => rfl
    | some p => rfl
  rw [hhead, takeEntry_drop hsize]
  unfold contentAt Buffer.bodyAt
  by_cases hfits : 6 + 1 ≤ buf.size ∧ 6 + 1 + (buf.byte 6).toNat ≤ buf.size
  · rw [if_pos hfits, Option.bind_some, Option.map_map, Nat.add_sub_cancel_left]
    show Option.map _ (takeContent (buf.bytes.drop (7 + (buf.byte 6).toNat))) = _ ↔ _
    cases takeContent (buf.bytes.drop (7 + (buf.byte 6).toNat)) with
    | none => exact ⟨fun h => (by cases h), fun h => (by cases h.2.2.2)⟩
    | some p =>
      constructor
      · intro h
        rw [← Option.some.inj h]
        exact ⟨hfits.1, hfits.2, rfl, rfl⟩
      · rintro ⟨_, _, hname, hc⟩
        rw [Option.map_some, Option.some_inj] at hc ⊢
        exact Entry.ext (congrArg Content.digest hc) (congrArg Content.ref hc)
          (congrArg Content.image hc) hname.symm
  · rw [if_neg hfits]
    exact ⟨fun h => (by cases h), fun h => absurd ⟨h.1, h.2.1⟩ hfits⟩

theorem judgeManifest_ok {fuel n : ℕ} (hfuel : enough ≤ fuel) :
    judgeManifest (granting sha256) buf fuel = .ok n ↔ Verifies sha256 buf.bytes n := by
  have hbelow : 7 + (buf.byte 6).toNat ≤ buf.size → 6 ≤ buf.size →
      (judge (granting sha256) buf fuel [] (buf.slice 7 (buf.byte 6).toNat)
          (7 + (buf.byte 6).toNat) = .ok n ↔
        ∃ c, contentAt buf (7 + (buf.byte 6).toNat) = some c ∧ ∃ chain,
          Leads sha256 (entriesOf buf) [] ⟨c, buf.slice 7 (buf.byte 6).toNat⟩ chain ∧
            chain.length = n) :=
    fun hbody hsize => judge_ok fuel hfuel List.nodup_nil hbody hsize
  unfold judgeManifest
  constructor
  · intro h
    split_ifs at h with h6 hmagic hversion hcount h7 hfirst
    rw [not_or, Nat.not_lt] at hfirst
    obtain ⟨c, hc, chain, hleads, hlen⟩ := (hbelow hfirst.2 (by omega)).mp h
    have hhead := (head_entriesOf (e := ⟨c, buf.slice 7 (buf.byte 6).toNat⟩) (by omega) hcount).mpr
      ⟨by omega, hfirst.2, rfl, hc⟩
    refine ⟨buf.byte 5, buf.bytes.drop 6, chain, ?_, hcount, ?_, ?_, hlen, ?_, hleads.nodup,
      hleads.sound⟩
    · exact header_iff.mpr ⟨by omega, not_not.mp hmagic, not_not.mp hversion, rfl, rfl⟩
    · refine ⟨hleads.first.trans hhead.symm, ?_, hleads.links, hleads.last⟩
      intro hnil
      have hfirst' := hleads.first
      rw [hnil] at hfirst'
      cases hfirst'
    · intro e he
      rw [hleads.first] at he
      rw [← Option.some.inj he]
      intro hempty
      have hlength := length_slice hfirst.2
      simp only at hempty
      rw [hempty] at hlength
      exact hfirst.1 (UInt8.toNat_inj.mp hlength.symm)
    · have hroom := hleads.room
      rw [List.length_nil] at hroom
      omega
  · rintro ⟨count, rest, chain, hbytes, hcount, hlinked, hnamed, hlen, hroom, hnodup, hsound⟩
    obtain ⟨hsize, hmagic, hversion, hcountEq, hrest⟩ := header_iff.mp hbytes
    have hentries : entriesOf buf = walk count.toNat rest := by rw [entriesOf, hcountEq, hrest]
    obtain ⟨e, tail, rfl⟩ := List.exists_cons_of_ne_nil hlinked.nonempty
    have hfirst := hlinked.first
    rw [← hentries, List.head?_cons] at hfirst
    obtain ⟨h7, hbody, hname, hcontent⟩ :=
      (head_entriesOf hsize (hcountEq ▸ hcount)).mp hfirst.symm
    have hne : buf.byte 6 ≠ 0 := by
      intro hzero
      have hempty := hnamed e rfl
      rw [hname, hzero] at hempty
      exact hempty rfl
    rw [if_neg (by omega), if_neg (not_not.mpr hmagic), if_neg (not_not.mpr hversion),
      if_neg (hcountEq ▸ hcount), if_neg (by omega), if_neg (not_or.mpr ⟨hne, by omega⟩),
      hbelow hbody hsize]
    refine ⟨e.toContent, hcontent, e :: tail, ⟨?_, ?_, hlinked.last, ?_, hnodup, hsound⟩, hlen⟩
    · rw [← hname]
      rfl
    · rw [hentries]
      exact hlinked.links
    · rw [List.length_nil]
      omega

/-- After any invocations a manifest is accepted with `n` entries exactly when it verifies. -/
theorem verifyManifest_accepts_iff (more : ℕ) (history : List (Invocation .bits64)) :
    ∃ s, instanceAfter (enough + more) history = some s ∧
      ∀ (sha256 : List UInt8 → Vector UInt8 digestBytes) (buf : Buffer .bits64) (n : ℕ),
        (verifyManifest ⟨fun _ => true, sha256⟩ buf (enough + more) { s with attempts := 0 }).1 =
          .ok (.ok n) ↔ Verifies sha256 buf.bytes n := by
  have hfuel : enough ≤ enough + more := Nat.le_add_right _ _
  obtain ⟨s, hafter, hs⟩ := instanceAfter_rested hfuel history
  refine ⟨s, hafter, fun sha256 buf n => ?_⟩
  obtain ⟨s', hrun, _⟩ := @verifyManifest_eq _ buf (granting sha256) { s with attempts := 0 } _
    hfuel ⟨hs.pathLen, hs.freed⟩ rfl
  rw [← judgeManifest_ok hfuel]
  show (verifyManifest (granting sha256) buf _ _).1 = _ ↔ _
  rw [hrun]
  cases judgeManifest (granting sha256) buf (enough + more) with
  | ok m =>
    exact ⟨fun h => congrArg Except.ok (Except.ok.inj (Outcome.ok.inj h)),
      fun h => congrArg Outcome.ok (congrArg Except.ok (Except.ok.inj h))⟩
  | error r => exact ⟨fun h => (by cases Outcome.ok.inj h), fun h => (by cases h)⟩

def oneEntry : Buffer .bits64 :=
  ⟨magic ++ [1, 1] ++ ([1, 97, 1, 0, 0, 0] ++ List.replicate digestBytes 0 ++ [0, 5]), by decide⟩

example : (verifyManifest (granting fun _ => Vector.replicate _ 0) oneEntry enough created).1 =
    .ok (.ok 1) := by decide +kernel

example : (verifyManifest (granting fun _ => Vector.replicate _ 1) oneEntry enough created).1 =
    .ok (.error (.digestMismatch, 0)) := by decide +kernel

end Verdicts

end Jmpxx.Manifest
