import Jmpxx.ManifestTrail

namespace Jmpxx.Manifest

variable {w : Width}

abbrev nameOut : ℕ := 64

/-- One call of `run`: the manifest, the fault that is wanted, whether the session opens and what the
kit answers the trusted application. -/
structure ClientRun (w : Width) where
  buf : Buffer w
  want : UInt32
  opens : Bool
  kit : Kit

def ClientRun.invocation (r : ClientRun w) : Invocation w where
  cmd := cmdVerify
  types := paramTypes paramMemrefInput paramValueOutput paramMemrefOutput paramNone
  input := some r.buf
  capacity := nameOut
  kit := r.kit

/-- `expect(ok, what)`, by what it adds to `failures`. -/
def expectation (ok : Prop) [Decidable ok] : ℕ := if ok then 0 else 1

/-- What `run` adds to `failures` by a report; reading what was not written is undefined. -/
def expectations (report : Report) (want : UInt32) : Option ℕ :=
  if report.status ≠ .success then some 1
  else do
    let value ← report.value
    let out ← report.output
    let pathLeft ← if 2 ≤ out.length then out[out.length - 1]? else some 0xFF
    some (expectation (value.1 = want) + expectation (pathLeft = 0))

def failuresAfter (fuel : ℕ) : List (Invocation w) → List (ClientRun w) → Option ℕ
  | _, [] => some 0
  | history, r :: rs =>
    if r.opens then do
      let report ← reportAfter fuel history r.invocation
      let own ← expectations report r.want
      let others ← failuresAfter fuel (history ++ [r.invocation]) rs
      some (own + others)
    else do
      let others ← failuresAfter fuel history rs
      some (1 + others)

/-- The value the verdict is reported as. -/
def reportedFault : Except Refusal ℕ → UInt32
  | .ok _ => 0
  | .error r => r.fault.code

inductive Deserves (kit : Kit) (mark : List UInt8) (version : UInt8) :
    List Entry → Except Refusal ℕ → Prop where
  | badHeader {entries : List Entry} : mark.take 4 ≠ magic →
      Deserves kit mark version entries (.error ⟨.headerBad, 0, rootName⟩)
  | badVersion {entries : List Entry} : mark.take 4 = magic → version ≠ 1 →
      Deserves kit mark version entries (.error ⟨.versionUnsupported, 0, rootName⟩)
  | empty : mark.take 4 = magic → version = 1 →
      Deserves kit mark version [] (.error ⟨.entryMalformed, 0, rootName⟩)
  | unnamed {first : Entry} {entries : List Entry} : mark.take 4 = magic → version = 1 →
      first.name = [] →
      Deserves kit mark version (first :: entries) (.error ⟨.entryMalformed, 0, rootName⟩)
  | trail {first : Entry} {entries chain : List Entry} : mark.take 4 = magic → version = 1 →
      first.name ≠ [] → Trail kit (first :: entries) [] first chain →
      Deserves kit mark version (first :: entries) (verdict kit (first :: entries) [] first chain)

structure LaidOut (buf : Buffer w) (mark : List UInt8) (version : UInt8) (entries : List Listed) :
    Prop where
  bytes : layOut mark version entries = some buf.bytes
  count : entries.length ≤ 255
  names : ∀ e ∈ entries, e.name.length ≤ 255
  refs : ∀ e ∈ entries, (e.ref.getD []).length ≤ 255

theorem beginManifest_bytes {count version : UInt8} {mark b : List UInt8}
    (h : beginManifest count mark version = some b) :
    4 ≤ mark.length ∧ b = mark.take 4 ++ [version, count] := by
  unfold beginManifest putU8 at h
  simp only [Option.bind_eq_bind, Option.bind_eq_some_iff] at h
  obtain ⟨b1, h1, b2, h2, h3⟩ := h
  refine ⟨(put_eq_some h1).1, ?_⟩
  rw [(put_eq_some h3).2.1, (put_eq_some h2).2.1, (put_eq_some h1).2.1]
  simp

theorem walk_flatMap {entries : List Listed} (hnames : ∀ e ∈ entries, e.name.length ≤ 255)
    (hrefs : ∀ e ∈ entries, (e.ref.getD []).length ≤ 255)
    (himages : ∀ e ∈ entries, e.length.toNat ≤ image.length) :
    walk entries.length (entries.flatMap Listed.bytes) = entries.map Listed.toEntry := by
  induction entries with
  | nil => rfl
  | cons e entries ih =>
    rw [List.forall_mem_cons] at hnames hrefs himages
    rw [List.length_cons, List.flatMap_cons, walk, takeEntry_bytes hnames.1 hrefs.1 himages.1]
    exact congrArg (e.toEntry :: ·) (ih hnames.2 hrefs.2 himages.2)

namespace LaidOut

variable {buf : Buffer w} {mark : List UInt8} {version : UInt8} {entries : List Listed}

/-- The header, and behind it the entries. -/
theorem split (h : LaidOut buf mark version entries) :
    ∃ rest, 4 ≤ mark.length ∧
      buf.bytes = mark.take 4 ++ [version, UInt8.ofNat entries.length] ++ rest ∧
      walk entries.length rest = entries.map Listed.toEntry := by
  obtain ⟨b, hbegin, hfold⟩ := Option.bind_eq_some_iff.mp h.bytes
  obtain ⟨hmark, rfl⟩ := beginManifest_bytes hbegin
  obtain ⟨hbytes, himages, -⟩ := foldlM_putEntry hfold
  exact ⟨_, hmark, hbytes, walk_flatMap h.names h.refs himages⟩

theorem slice (h : LaidOut buf mark version entries) : buf.slice 0 4 = mark.take 4 := by
  obtain ⟨rest, hmark, hbytes, -⟩ := h.split
  rw [Buffer.slice, hbytes, List.drop_zero, List.append_assoc]
  apply List.take_left'
  rw [List.length_take]
  omega

/-- The byte behind the mark, and the one behind that. -/
theorem byte (h : LaidOut buf mark version entries) :
    buf.byte 4 = version ∧ (buf.byte 5).toNat = entries.length := by
  obtain ⟨rest, hmark, hbytes, -⟩ := h.split
  have hlength : (mark.take 4).length = 4 := by
    rw [List.length_take]
    omega
  have hget : ∀ i, buf.bytes[4 + i]? = ([version, UInt8.ofNat entries.length] ++ rest)[i]? := by
    intro i
    rw [hbytes, List.append_assoc, List.getElem?_append_right (by omega), hlength,
      Nat.add_sub_cancel_left]
  constructor
  · rw [Buffer.byte, hget 0]
    rfl
  · rw [Buffer.byte, hget 1]
    exact UInt8.toNat_ofNat_of_lt (Nat.lt_of_le_of_lt h.count (by decide))

theorem size (h : LaidOut buf mark version entries) : 6 ≤ buf.size := by
  obtain ⟨rest, hmark, hbytes, -⟩ := h.split
  rw [Buffer.size, hbytes, List.length_append, List.length_append, List.length_take]
  simp only [List.length_cons, List.length_nil]
  omega

/-- What the client lays out the verifier takes in. -/
theorem entries_eq (h : LaidOut buf mark version entries) :
    buf.entries = entries.map Listed.toEntry := by
  obtain ⟨rest, hmark, hbytes, hwalk⟩ := h.split
  have hdrop : buf.bytes.drop 6 = rest := by
    rw [hbytes]
    apply List.drop_left'
    rw [List.length_append, List.length_take]
    simp only [List.length_cons, List.length_nil]
    omega
  rw [Buffer.entries, h.byte.2, hdrop, hwalk]

theorem straight (h : LaidOut buf mark version entries) : buf.Straight := by
  apply straight_of_whole h.size
  rw [h.entries_eq, List.length_map, h.byte.2]

theorem headed (h : LaidOut buf mark version entries) (hmark : mark.take 4 = magic)
    (hversion : version = 1) : buf.Headed := by
  obtain ⟨rest, -, hbytes, -⟩ := h.split
  rw [Buffer.Headed, hbytes, hmark, hversion]
  exact ⟨UInt8.ofNat entries.length :: rest, by simp⟩

/-- The verifier comes to the verdict deserved. -/
theorem judge (h : LaidOut buf mark version entries) {kit : Kit} {v : Except Refusal ℕ}
    (hv : Deserves kit mark version (entries.map Listed.toEntry) v) (more : ℕ) :
    judgeManifest kit buf (enough + more) = v := by
  have hsize := h.size
  have hslice := h.slice
  obtain ⟨hversion, hcount⟩ := h.byte
  have hentries := h.entries_eq
  generalize hlist : entries.map Listed.toEntry = list at hv hentries
  cases hv with
  | badHeader hbad => rw [judgeManifest, if_neg (by omega), hslice, if_pos hbad]
  | badVersion hgood hbad =>
    rw [judgeManifest, if_neg (by omega), hslice, if_neg (not_not.mpr hgood), hversion, if_pos hbad]
  | empty hgood hone =>
    have hzero : buf.byte 5 = 0 := by
      apply UInt8.toNat_inj.mp
      rw [hcount, List.map_eq_nil_iff.mp hlist]
      rfl
    rw [judgeManifest, if_neg (by omega), hslice, if_neg (not_not.mpr hgood), hversion,
      if_neg (not_not.mpr hone), if_pos hzero]
  | unnamed hgood hone hname =>
    rename_i first rest
    have hhead : buf.entries.head? = some first := by
      rw [hentries]
      rfl
    obtain ⟨hne, hbody, hfirst, -⟩ := first_entry hsize hhead
    have hlength : buf.byte 6 = 0 := by
      apply UInt8.toNat_inj.mp
      have hslice' := @length_slice w buf 7 (buf.byte 6).toNat hbody
      rw [← hfirst, hname] at hslice'
      exact hslice'.symm
    rw [judgeManifest, if_neg (by omega), hslice, if_neg (not_not.mpr hgood), hversion,
      if_neg (not_not.mpr hone), if_neg hne, if_neg (by omega), if_pos (.inl hlength)]
  | trail hgood hone hname htrail =>
    rename_i first rest chain
    have hfuel : enough + more = maxDepth + 1 + more + 1 := by
      rw [enough]
      omega
    rw [judgeManifest_eq_follow h.straight (h.headed hgood hone) (by rw [hentries]; rfl) hname,
      hentries, hfuel]
    apply follow_eq_verdict htrail List.not_mem_nil (Nat.zero_le _)
    rw [List.length_nil]
    omega

end LaidOut

/-- A reply with room for the longest name is never cut, and ends in the empty path. -/
theorem deserved_fits {capacity : ℕ} (hroom : maxName + 2 ≤ capacity) (v : Except Refusal ℕ) :
    ∃ name detail, deserved capacity v =
      ⟨.success, some (reportedFault v, detail), some (name ++ [0, 0])⟩ := by
  have hname : ((notedName v).takeWhile (· ≠ 0)).length ≤ maxName := by
    apply (List.takeWhile_prefix _).length_le.trans
    cases v with
    | ok n => exact Nat.zero_le _
    | error r => exact List.length_take_le ..
  have hfits : ¬ capacity < ((notedName v).takeWhile (· ≠ 0)).length + 2 := by omega
  unfold deserved
  simp only
  rw [if_neg hfits]
  cases v with
  | ok n => exact ⟨_, _, rfl⟩
  | error r => exact ⟨_, _, rfl⟩

theorem expectations_deserved (v : Except Refusal ℕ) (want : UInt32) :
    expectations (deserved nameOut v) want = some (expectation (reportedFault v = want)) := by
  obtain ⟨name, detail, hreply⟩ := @deserved_fits nameOut (by decide) v
  have hlength : (name ++ [0, 0]).length = name.length + 2 := List.length_append
  have hlast : (name ++ [0, 0])[(name ++ [0, 0]).length - 1]? = some (0 : UInt8) := by
    have hsub : name.length + 2 - 1 - name.length = 1 := by omega
    rw [hlength, List.getElem?_append_right (by omega), hsub]
    rfl
  rw [hreply, expectations, if_neg (not_not.mpr rfl)]
  simp only [Option.bind_eq_bind, Option.bind_some, hlast]
  rw [if_pos (by omega)]
  rfl

theorem asks_invocation (r : ClientRun w) : Asks r.invocation r.buf := ⟨rfl, rfl, rfl⟩

/-- What the client is told, run by run: whatever else was asked of the instance before and however
the earlier manifests failed, just the runs fail whose session does not open or whose manifest
deserves another verdict than the one that is wanted. -/
theorem client_failures (more : ℕ) (history : List (Invocation w))
    (runs : List (ClientRun w × Except Refusal ℕ))
    (h : ∀ x ∈ runs, ∃ mark version entries, LaidOut x.1.buf mark version entries ∧
      Deserves x.1.kit mark version (entries.map Listed.toEntry) x.2) :
    failuresAfter (enough + more) history (runs.map Prod.fst) =
      some (runs.countP fun x => !x.1.opens || reportedFault x.2 ≠ x.1.want) := by
  induction runs generalizing history with
  | nil => rfl
  | cons x runs ih =>
    rw [List.forall_mem_cons] at h
    obtain ⟨mark, version, entries, hlaid, hv⟩ := h.1
    have hsize := hlaid.size
    rw [List.map_cons, failuresAfter, List.countP_cons]
    cases hopens : x.1.opens with
    | false =>
      rw [if_neg Bool.false_ne_true, ih history h.2]
      simp [Nat.add_comm]
    | true =>
      rw [if_pos rfl, ih (history ++ [x.1.invocation]) h.2, reportAfter_eq (Nat.le_add_right _ _),
        answer_of_asks (asks_invocation x.1) (by omega)]
      have hjudged : judgeManifest x.1.kit x.1.buf (enough + more) = x.2 := hlaid.judge hv more
      have hown := expectations_deserved x.2 x.1.want
      simp only [Option.bind_eq_bind, Option.bind_some]
      rw [show x.1.invocation.kit = x.1.kit from rfl, hjudged,
        show x.1.invocation.capacity = nameOut from rfl, hown, Option.bind_some, expectation]
      by_cases hwant : reportedFault x.2 = x.1.want <;> simp [hwant, Nat.add_comm]

section Runs

def digestImg0 : Vector UInt8 digestBytes :=
  #v[0x15, 0x35, 0x70, 0xdf, 0x59, 0x72, 0x40, 0xec, 0x00, 0xb9, 0xbc, 0x2c, 0xf6, 0x8a, 0x63, 0x58,
    0x1f, 0x84, 0x4e, 0x81, 0x25, 0xbe, 0x64, 0x66, 0x17, 0x9e, 0xc7, 0x93, 0x24, 0x38, 0xbb, 0x16]

def digestWrong : Vector UInt8 digestBytes :=
  #v[0xde, 0xad, 0xbe, 0xef, 0, 0, 0, 0, 0, 0, 0, 0, 0, 0, 0, 0, 0, 0, 0, 0, 0, 0, 0, 0, 0, 0, 0, 0,
    0, 0, 0, 0]

def threeDeep (digest : Vector UInt8 digestBytes) : List Listed :=
  [⟨[98, 111, 111, 116], 4, digestImg0, some [114, 117, 110, 116, 105, 109, 101]⟩,
    ⟨[114, 117, 110, 116, 105, 109, 101], 4, digestImg0, some [97, 112, 112]⟩,
    ⟨[97, 112, 112], 4, digest, none⟩]

def cyclic : List Listed :=
  [⟨[111, 110, 101], 4, digestImg0, some [116, 119, 111]⟩,
    ⟨[116, 119, 111], 4, digestImg0, some [111, 110, 101]⟩]

def badDigest : Buffer .bits32 := ⟨(layOut magic 1 (threeDeep digestWrong)).getD [], by decide +kernel⟩

def cycle : Buffer .bits32 := ⟨(layOut magic 1 cyclic).getD [], by decide +kernel⟩

theorem badDigest_laid : LaidOut badDigest magic 1 (threeDeep digestWrong) where
  bytes := by decide +kernel
  count := by decide
  names := by decide
  refs := by decide

theorem cycle_laid : LaidOut cycle magic 1 cyclic where
  bytes := by decide +kernel
  count := by decide
  names := by decide
  refs := by decide

def kitImg0 : Kit := granting fun _ => digestImg0

theorem cycle_trail : Trail kitImg0 (cyclic.map Listed.toEntry) []
    ⟨⟨digestImg0.toList, [116, 119, 111], [73, 77, 71, 48]⟩, [111, 110, 101]⟩
    [⟨⟨digestImg0.toList, [111, 110, 101], [73, 77, 71, 48]⟩, [116, 119, 111]⟩] :=
  ⟨⟨rfl, by decide, by decide, by decide, by decide, by decide⟩, fun _ h => h.fresh (by decide)⟩

theorem badDigest_trail : Trail kitImg0 ((threeDeep digestWrong).map Listed.toEntry) []
    ⟨⟨digestImg0.toList, [114, 117, 110, 116, 105, 109, 101], [73, 77, 71, 48]⟩, [98, 111, 111, 116]⟩
    [⟨⟨digestImg0.toList, [97, 112, 112], [73, 77, 71, 48]⟩, [114, 117, 110, 116, 105, 109, 101]⟩,
      ⟨⟨digestWrong.toList, [], [73, 77, 71, 48]⟩, [97, 112, 112]⟩] :=
  ⟨⟨rfl, by decide, by decide, by decide, by decide, by decide⟩,
    ⟨rfl, by decide, by decide, by decide, by decide, by decide⟩, fun _ h => h.references rfl⟩

theorem verify_reports_cycle :
    reportAfter enough [(⟨badDigest, 6, true, kitImg0⟩ : ClientRun .bits32).invocation]
        (⟨cycle, 8, true, kitImg0⟩ : ClientRun .bits32).invocation =
      some ⟨.success, some (8, 2), some ([111, 110, 101] ++ [0, 0])⟩ := by
  have hentries : cycle.entries = cyclic.map Listed.toEntry := cycle_laid.entries_eq
  have hreports := (verify_reports 0 [(⟨badDigest, 6, true, kitImg0⟩ : ClientRun .bits32).invocation]
    (asks_invocation ⟨cycle, 8, true, kitImg0⟩) cycle_laid.straight (cycle_laid.headed rfl rfl)
    (by rw [hentries]; rfl) (by decide)).2 _ (by rw [hentries]; exact cycle_trail)
  rw [hentries] at hreports
  exact hreports.trans (by decide)

theorem client_failures_none :
    failuresAfter (w := .bits32) enough []
      [⟨badDigest, 6, true, kitImg0⟩, ⟨cycle, 8, true, kitImg0⟩] = some 0 := by
  have hfailures := client_failures 0 [] [(⟨badDigest, 6, true, kitImg0⟩, .error
      ⟨.digestMismatch, 2, [97, 112, 112]⟩), (⟨cycle, 8, true, kitImg0⟩, .error
      ⟨.referenceCycle, 2, [111, 110, 101]⟩)] ?_
  · exact hfailures
  · intro x hx
    rcases List.mem_pair.mp hx with rfl | rfl
    · exact ⟨magic, 1, _, badDigest_laid, .trail rfl rfl (by decide) badDigest_trail⟩
    · exact ⟨magic, 1, _, cycle_laid, .trail rfl rfl (by decide) cycle_trail⟩

end Runs

end Jmpxx.Manifest
