import Jmpxx.Json

namespace Jmpxx.Verify

abbrev Text := List Char

inductive Fmt where
  | human
  | json
  deriving DecidableEq, Repr

structure Report where
  fmt : Fmt
  probe : Text
  ok : Bool
  metrics : List (Text × Text)
  notes : List Text
  deriving DecidableEq

inductive Call where
  | num (key : Text) (v : Int64)
  | boolean (key : Text) (v : Bool)
  | str (key v : Text)
  | note (n : Text)
  | fail (why : Text)

namespace Report

def new (fmt : Fmt) (probe : Text) : Report := ⟨fmt, probe, true, [], []⟩

def quoteChar (c : Char) : Text :=
  (if c = '\"' ∨ c = '\\' then ['\\'] else []) ++ (if c = '\n' then ['\\', 'n'] else [c])

def quote (s : Text) : Text := '\"' :: (s.flatMap quoteChar ++ ['\"'])

def trueText : Text := ['t', 'r', 'u', 'e']

def falseText : Text := ['f', 'a', 'l', 's', 'e']

def num (r : Report) (key : Text) (v : Int64) : Report :=
  { r with metrics := r.metrics ++ [(key, Json.intText v.toInt)] }

def boolean (r : Report) (key : Text) (v : Bool) : Report :=
  { r with metrics := r.metrics ++ [(key, if v then trueText else falseText)] }

def str (r : Report) (key v : Text) : Report :=
  { r with metrics := r.metrics ++ [(key, quote v)] }

def note (r : Report) (n : Text) : Report := { r with notes := r.notes ++ [n] }

def fail (r : Report) (why : Text) : Report := { r with ok := false, notes := r.notes ++ [why] }

def call (r : Report) : Call → Report
  | .num key v => r.num key v
  | .boolean key v => r.boolean key v
  | .str key v => r.str key v
  | .note n => r.note n
  | .fail why => r.fail why

/-- What `printf` prints of `s.c_str()`. -/
def cStr (s : Text) : Text := s.takeWhile (· ≠ Char.ofNat 0)

def joined : List Text → Text
  | [] => []
  | [t] => t
  | t :: t' :: ts => t ++ ',' :: joined (t' :: ts)

def member (metric : Text × Text) : Text := quote metric.1 ++ ':' :: metric.2

def jsonText (r : Report) : Text :=
  '{' :: joined [
    member ("probe".toList, quote r.probe),
    member ("ok".toList, if r.ok then trueText else falseText),
    member ("metrics".toList, '{' :: (joined (r.metrics.map member) ++ ['}'])),
    member ("notes".toList, '[' :: (joined (r.notes.map quote) ++ [']']))] ++ ['}']

def padded (s : Text) : Text := s ++ List.replicate (28 - (s.map Char.utf8Size).sum) ' '

def humanText (r : Report) : Text :=
  '[' :: cStr r.probe ++ "] ".toList ++ (if r.ok then "PASS".toList else "FAIL".toList) ++ ['\n'] ++
    (r.metrics.flatMap fun m =>
      "    ".toList ++ padded (cStr m.1) ++ ' ' :: cStr m.2 ++ ['\n']) ++
    r.notes.flatMap fun n => "    note: ".toList ++ cStr n ++ ['\n']

/-- What `finish` prints, and the exit code it returns. -/
def finish (r : Report) : Text × ℤ :=
  (if r.fmt = .json then cStr r.jsonText ++ ['\n'] else r.humanText, if r.ok then 0 else 1)

def after (fmt : Fmt) (probe : Text) (calls : List Call) : Report :=
  calls.foldl call (new fmt probe)

end Report

/-- What a metric's value is, and whether its text may stand in a JSON line. -/
inductive Scalar where
  | num (v : Int64)
  | boolean (v : Bool)
  | str (v : Text)

namespace Scalar

def text : Scalar → Text
  | num v => Json.intText v.toInt
  | boolean v => if v then Report.trueText else Report.falseText
  | str v => Report.quote v

def value : Scalar → Json.Value
  | num v => .num v.toInt
  | boolean v => .bool v
  | str v => .str v

def texts : Scalar → List Text
  | str v => [v]
  | _ => []

end Scalar

namespace Call

def metric : Call → Option (Text × Scalar)
  | num key v => some (key, .num v)
  | boolean key v => some (key, .boolean v)
  | str key v => some (key, .str v)
  | _ => none

def message : Call → Option Text
  | note n => some n
  | fail why => some why
  | _ => none

def passes : Call → Bool
  | fail _ => false
  | _ => true

def texts : Call → List Text
  | num key _ => [key]
  | boolean key _ => [key]
  | str key v => [key, v]
  | note n => [n]
  | fail why => [why]

end Call

def meaning (probe : Text) (calls : List Call) : Json.Value :=
  .obj [("probe".toList, .str probe), ("ok".toList, .bool (calls.all Call.passes)),
    ("metrics".toList, .obj ((calls.filterMap Call.metric).map fun m => (m.1, m.2.value))),
    ("notes".toList, .arr ((calls.filterMap Call.message).map .str))]

/-- The line printed in JSON mode is one line and reads back as the report. -/
def RoundTrips (probe : Text) (calls : List Call) : Prop :=
  ∃ line, (Report.after .json probe calls).finish.1 = line ++ ['\n'] ∧ '\n' ∉ line ∧
    Json.decode line = some (meaning probe calls)

/-- Text without control characters, but for newlines. -/
def Plain (s : Text) : Prop := ∀ c ∈ s, 32 ≤ c.toNat ∨ c = '\n'

instance (s : Text) : Decidable (Plain s) := List.decidableBAll _ s

namespace Report

section Strings

variable {s rest : Text}

theorem cStr_cons {c : Char} (h : c ≠ Char.ofNat 0) (s : Text) : cStr (c :: s) = c :: cStr s :=
  List.takeWhile_cons_of_pos (by simpa using h)

theorem cStr_append {s : Text} (h : Char.ofNat 0 ∉ s) (rest : Text) :
    cStr (s ++ rest) = s ++ cStr rest :=
  List.takeWhile_append_of_pos fun c hc => by
    have hne : c ≠ Char.ofNat 0 := fun heq => h (heq ▸ hc)
    simpa using hne

theorem cStr_of_not_mem {s : Text} (h : Char.ofNat 0 ∉ s) : cStr s = s := by
  have hcut := cStr_append h []
  rwa [List.append_nil, show cStr [] = [] from rfl, List.append_nil] at hcut

/-- A plain character reads back, however it is escaped. -/
theorem readChars_quoteChar {c : Char} (h : 32 ≤ c.toNat ∨ c = '\n') (n : ℕ) (rest : Text) :
    Json.readChars (n + 1) (cStr (quoteChar c ++ rest)) =
      (Json.readChars n (cStr rest)).map fun r => (c :: r.1, r.2) := by
  unfold quoteChar
  by_cases hline : c = '\n'
  · subst hline
    exact Json.readChars_escape (by decide) rfl n (cStr rest)
  have hc : 32 ≤ c.toNat := h.resolve_right hline
  have hnul : c ≠ Char.ofNat 0 := by
    rintro rfl
    exact absurd hc (by decide)
  rw [if_neg hline]
  by_cases hescape : c = '\"' ∨ c = '\\'
  · rw [if_pos hescape]
    show Json.readChars (n + 1) (cStr ('\\' :: c :: rest)) = _
    rw [cStr_cons (by decide), cStr_cons hnul]
    apply Json.readChars_escape
    · rcases hescape with rfl | rfl <;> decide
    · rcases hescape with rfl | rfl <;> rfl
  · rw [if_neg hescape]
    show Json.readChars (n + 1) (cStr (c :: rest)) = _
    rw [cStr_cons hnul]
    rw [not_or] at hescape
    exact Json.readChars_plain hescape.1 hescape.2 hc n (cStr rest)

/-- Any other character ends the reading, printed or not. -/
theorem readChars_quoteChar_control {c : Char} (h : ¬ (32 ≤ c.toNat ∨ c = '\n')) (n : ℕ)
    (rest : Text) : Json.readChars n (cStr (quoteChar c ++ rest)) = none := by
  rw [not_or, Nat.not_le] at h
  have hescape : ¬ (c = '\"' ∨ c = '\\') := by
    rintro (rfl | rfl)
    · exact absurd h.1 (by decide)
    · exact absurd h.1 (by decide)
  unfold quoteChar
  rw [if_neg hescape, if_neg h.2]
  show Json.readChars n (cStr (c :: rest)) = none
  by_cases hnul : c = Char.ofNat 0
  · rw [hnul]
    exact Json.readChars_nil n
  · rw [cStr_cons hnul]
    exact Json.readChars_control h.1 n (cStr rest)

theorem readChars_escaped (h : Plain s) {n : ℕ} (hn : s.length < n) (rest : Text) :
    Json.readChars n (cStr (s.flatMap quoteChar ++ '\"' :: rest)) = some (s, cStr rest) := by
  induction s generalizing n with
  | nil =>
    obtain ⟨n, rfl⟩ := Nat.exists_eq_succ_of_ne_zero (Nat.ne_of_gt hn)
    rw [List.flatMap_nil, List.nil_append, cStr_cons (by decide)]
    exact Json.readChars_quote n (cStr rest)
  | cons c s ih =>
    obtain ⟨n, rfl⟩ := Nat.exists_eq_succ_of_ne_zero (Nat.ne_of_gt ((Nat.zero_le _).trans_lt hn))
    obtain ⟨hc, hs⟩ := List.forall_mem_cons.mp h
    rw [List.flatMap_cons, List.append_assoc, readChars_quoteChar hc,
      ih hs (Nat.lt_of_succ_lt_succ hn)]
    rfl

theorem readChars_escaped_control (h : ¬ Plain s) (n : ℕ) (rest : Text) :
    Json.readChars n (cStr (s.flatMap quoteChar ++ rest)) = none := by
  induction s generalizing n with
  | nil => exact absurd (fun _ hc => absurd hc List.not_mem_nil) h
  | cons c s ih =>
    rw [List.flatMap_cons, List.append_assoc]
    by_cases hc : 32 ≤ c.toNat ∨ c = '\n'
    · cases n with
      | zero => rfl
      | succ n =>
        have hs : ¬ Plain s := fun hs => h (List.forall_mem_cons.mpr ⟨hc, hs⟩)
        rw [readChars_quoteChar hc, ih hs]
        rfl
    · exact readChars_quoteChar_control hc n _

theorem length_le_escaped (h : Plain s) (rest : Text) :
    s.length ≤ (cStr (s.flatMap quoteChar ++ rest)).length := by
  induction s with
  | nil => exact Nat.zero_le _
  | cons c s ih =>
    obtain ⟨hc, hs⟩ := List.forall_mem_cons.mp h
    have hnul : c ≠ Char.ofNat 0 := by
      rintro rfl
      rcases hc with hc | hc
      · exact absurd hc (by decide)
      · exact absurd hc (by decide)
    have htail := ih hs
    -- no character is written as nothing, and none ends the string early
    have hmore : ∀ t, (cStr t).length + 1 ≤ (cStr (quoteChar c ++ t)).length := by
      intro t
      unfold quoteChar
      split_ifs with hescape hline hline
      · show _ ≤ (cStr ('\\' :: '\\' :: 'n' :: t)).length
        rw [cStr_cons (by decide), cStr_cons (by decide), cStr_cons (by decide)]
        simp only [List.length_cons]
        omega
      · show _ ≤ (cStr ('\\' :: c :: t)).length
        rw [cStr_cons (by decide), cStr_cons hnul]
        simp only [List.length_cons]
        omega
      · show _ ≤ (cStr ('\\' :: 'n' :: t)).length
        rw [cStr_cons (by decide), cStr_cons (by decide)]
        simp only [List.length_cons]
        omega
      · show _ ≤ (cStr (c :: t)).length
        rw [cStr_cons hnul]
        exact Nat.le_refl _
    rw [List.flatMap_cons, List.append_assoc, List.length_cons]
    exact (Nat.succ_le_succ htail).trans (hmore _)

theorem cStr_quote (s rest : Text) :
    cStr (quote s ++ rest) = '\"' :: cStr (s.flatMap quoteChar ++ '\"' :: rest) := by
  rw [quote, List.cons_append, List.append_assoc, cStr_cons (by decide)]
  rfl

theorem readString_quote (h : Plain s) (rest : Text) :
    Json.readString (cStr (quote s ++ rest)) = some (s, cStr rest) := by
  rw [cStr_quote, Json.readString_cons]
  exact readChars_escaped h (Nat.lt_succ_of_le (length_le_escaped h _)) rest

theorem readString_quote_control (h : ¬ Plain s) (rest : Text) :
    Json.readString (cStr (quote s ++ rest)) = none := by
  rw [cStr_quote, Json.readString_cons]
  exact readChars_escaped_control h _ _

end Strings

/-- The text stands for the value, and where it may not stand in a JSON line nothing does. -/
structure Reads (fuel : ℕ) (text : Text) (v : Json.Value) (good : Prop) : Prop where
  read : good → ∀ rest, Json.EndsNumber rest → ∀ n ≥ fuel,
    Json.readValue n (cStr (text ++ rest)) = some (v, cStr rest)
  stop : ¬ good → ∀ rest n, Json.readValue n (cStr (text ++ rest)) = none

theorem endsNumber_cStr {rest : Text} (h : Json.EndsNumber rest) : Json.EndsNumber (cStr rest) := by
  cases rest with
  | nil => exact h
  | cons c rest =>
    intro d hd
    by_cases hc : c = Char.ofNat 0
    · rw [hc] at hd
      cases hd
    · rw [cStr_cons hc] at hd
      exact h d hd

theorem reads_quote (s : Text) : Reads 1 (quote s) (.str s) (Plain s) where
  read := by
    intro h rest _ n hn
    obtain ⟨n, rfl⟩ := Nat.exists_eq_succ_of_ne_zero (Nat.ne_of_gt hn)
    have hread := readString_quote h rest
    rw [cStr_quote] at hread ⊢
    rw [Json.readValue_string, hread]
    rfl
  stop := by
    intro h rest n
    cases n with
    | zero => rfl
    | succ n =>
      have hread := readString_quote_control h rest
      rw [cStr_quote] at hread ⊢
      rw [Json.readValue_string, hread]
      rfl

theorem reads_boolean (b : Bool) : Reads 1 (if b then trueText else falseText) (.bool b) True where
  read := by
    intro _ rest _ n hn
    obtain ⟨n, rfl⟩ := Nat.exists_eq_succ_of_ne_zero (Nat.ne_of_gt hn)
    cases b with
    | false =>
      have hcut : cStr (falseText ++ rest) = falseText ++ cStr rest := cStr_append (by decide) rest
      exact (congrArg _ hcut).trans (Json.readValue_false n (cStr rest))
    | true =>
      have hcut : cStr (trueText ++ rest) = trueText ++ cStr rest := cStr_append (by decide) rest
      exact (congrArg _ hcut).trans (Json.readValue_true n (cStr rest))
  stop := fun h => absurd trivial h

theorem nul_not_mem_intText (i : ℤ) : Char.ofNat 0 ∉ Json.intText i := by
  have hdigits : Char.ofNat 0 ∉ Nat.toDigits 10 i.natAbs := fun h =>
    absurd (Nat.isDigit_of_mem_toDigits (by decide) (by decide) h) (by decide)
  unfold Json.intText
  split_ifs
  · rw [List.mem_cons, not_or]
    exact ⟨by decide, hdigits⟩
  · exact hdigits

theorem reads_num (v : Int64) : Reads 1 (Json.intText v.toInt) (.num v.toInt) True where
  read := by
    intro _ rest hrest n hn
    obtain ⟨n, rfl⟩ := Nat.exists_eq_succ_of_ne_zero (Nat.ne_of_gt hn)
    rw [cStr_append (nul_not_mem_intText _)]
    exact Json.readValue_intText _ (endsNumber_cStr hrest) n
  stop := fun h => absurd trivial h

theorem reads_scalar (x : Scalar) : Reads 1 x.text x.value (∀ s ∈ x.texts, Plain s) := by
  cases x with
  | num v =>
    have h := reads_num v
    exact ⟨fun _ => h.read trivial, fun hbad => absurd (fun _ hs => absurd hs List.not_mem_nil) hbad⟩
  | boolean v =>
    have h := reads_boolean v
    exact ⟨fun _ => h.read trivial, fun hbad => absurd (fun _ hs => absurd hs List.not_mem_nil) hbad⟩
  | str v =>
    have h := reads_quote v
    exact ⟨fun hgood => h.read (hgood v List.mem_cons_self),
      fun hbad => h.stop fun hv => hbad fun s hs => List.mem_singleton.mp hs ▸ hv⟩

section Members

variable {fuel : ℕ} {key text : Text} {v : Json.Value} {good : Prop}

theorem endsNumber_comma (rest : Text) : Json.EndsNumber (',' :: rest) := by
  intro c hc
  rw [← Option.some.inj hc]
  decide

theorem endsNumber_brace (rest : Text) : Json.EndsNumber ('}' :: rest) := by
  intro c hc
  rw [← Option.some.inj hc]
  decide

theorem endsNumber_bracket (rest : Text) : Json.EndsNumber (']' :: rest) := by
  intro c hc
  rw [← Option.some.inj hc]
  decide

theorem member_append (key text rest : Text) :
    member (key, text) ++ rest = quote key ++ (':' :: (text ++ rest)) := by
  rw [member, List.append_assoc, List.cons_append]

/-- How a member's key is read, and where its value is. -/
theorem cStr_member (key text rest : Text) :
    ∃ t, cStr (member (key, text) ++ rest) = '\"' :: t ∧
      Json.readString ('\"' :: t) =
        (if Plain key then some (key, ':' :: cStr (text ++ rest)) else none) := by
  have hcolon : cStr (':' :: (text ++ rest)) = ':' :: cStr (text ++ rest) := cStr_cons (by decide) _
  rw [member_append]
  refine ⟨_, cStr_quote key _, ?_⟩
  rw [← cStr_quote]
  split_ifs with h
  · rw [readString_quote h, hcolon]
  · exact readString_quote_control h _

theorem readMembers_last (h : Reads fuel text v good) (hkey : Plain key) (hgood : good)
    (rest : Text) {n : ℕ} (hn : n ≥ fuel) :
    Json.readMembers (n + 1) (cStr (member (key, text) ++ '}' :: rest)) =
      some ([(key, v)], cStr rest) := by
  obtain ⟨t, ht, hread⟩ := cStr_member key text ('}' :: rest)
  have hvalue := h.read hgood _ (endsNumber_brace rest) n hn
  rw [if_pos hkey] at hread
  rw [cStr_cons (show '}' ≠ Char.ofNat 0 by decide)] at hvalue
  rw [ht]
  exact Json.readMembers_last hread hvalue

theorem readMembers_more (h : Reads fuel text v good) (hkey : Plain key) (hgood : good)
    (rest : Text) {n : ℕ} (hn : n ≥ fuel) :
    Json.readMembers (n + 1) (cStr (member (key, text) ++ ',' :: rest)) =
      (Json.readMembers n (cStr rest)).map fun r => ((key, v) :: r.1, r.2) := by
  obtain ⟨t, ht, hread⟩ := cStr_member key text (',' :: rest)
  have hvalue := h.read hgood _ (endsNumber_comma rest) n hn
  rw [if_pos hkey] at hread
  rw [cStr_cons (show ',' ≠ Char.ofNat 0 by decide)] at hvalue
  rw [ht]
  exact Json.readMembers_more hread hvalue

theorem readMembers_stop (h : Reads fuel text v good) (hbad : ¬ (Plain key ∧ good)) (rest : Text)
    (n : ℕ) : Json.readMembers n (cStr (member (key, text) ++ rest)) = none := by
  obtain ⟨t, ht, hread⟩ := cStr_member key text rest
  rw [ht]
  by_cases hkey : Plain key
  · rw [if_pos hkey] at hread
    exact Json.readMembers_of_no_value hread (h.stop (fun hgood => hbad ⟨hkey, hgood⟩) rest) n
  · rw [if_neg hkey] at hread
    exact Json.readMembers_of_no_key hread n

/-- With members behind it that cannot be read, none can. -/
theorem readMembers_stop_more (h : Reads fuel text v good) (rest : Text)
    (hrest : ∀ n, Json.readMembers n (cStr rest) = none) (n : ℕ) :
    Json.readMembers n (cStr (member (key, text) ++ ',' :: rest)) = none := by
  by_cases hgood : Plain key ∧ good
  · obtain ⟨t, ht, hread⟩ := cStr_member key text (',' :: rest)
    have hvalue := h.read hgood.2 _ (endsNumber_comma rest) fuel (Nat.le_refl _)
    rw [if_pos hgood.1] at hread
    rw [cStr_cons (show ',' ≠ Char.ofNat 0 by decide)] at hvalue
    rw [ht]
    cases n with
    | zero => rfl
    | succ n =>
      rcases Json.readValue_eq_or_none hvalue n with hnone | hsome
      · rw [Json.readMembers_of_key hread, hnone]
        rfl
      · rw [Json.readMembers_more hread hsome, hrest]
        rfl
  · exact readMembers_stop h hgood _ n

theorem joined_cons_cons (t t' : Text) (ts : List Text) (rest : Text) :
    joined (t :: t' :: ts) ++ rest = t ++ ',' :: (joined (t' :: ts) ++ rest) := by
  rw [joined, List.append_assoc, List.cons_append]

def Metric.Plain (m : Text × Scalar) : Prop := Verify.Plain m.1 ∧ ∀ s ∈ m.2.texts, Verify.Plain s

def metricText (m : Text × Scalar) : Text × Text := (m.1, m.2.text)

theorem readMembers_metrics (m : Text × Scalar) (ms : List (Text × Scalar))
    (h : ∀ m' ∈ m :: ms, Metric.Plain m') (rest : Text) {n : ℕ} (hn : n ≥ ms.length + 2) :
    Json.readMembers n
        (cStr (joined ((m :: ms).map fun m => member (metricText m)) ++ '}' :: rest)) =
      some ((m :: ms).map fun m => (m.1, m.2.value), cStr rest) := by
  induction ms generalizing m n with
  | nil =>
    obtain ⟨n, rfl⟩ := Nat.exists_eq_succ_of_ne_zero (Nat.ne_of_gt ((Nat.succ_pos _).trans_le hn))
    have hm := h m List.mem_cons_self
    exact readMembers_last (reads_scalar m.2) hm.1 hm.2 rest (Nat.le_of_succ_le_succ hn)
  | cons m' ms ih =>
    obtain ⟨n, rfl⟩ := Nat.exists_eq_succ_of_ne_zero (Nat.ne_of_gt ((Nat.succ_pos _).trans_le hn))
    rw [List.forall_mem_cons] at h
    rw [List.length_cons] at hn
    have htail := @ih m' h.2 n (by omega)
    have hmore := readMembers_more (reads_scalar m.2) h.1.1 h.1.2
      (joined ((m' :: ms).map fun m => member (metricText m)) ++ '}' :: rest)
      (n := n) (by omega)
    rw [htail] at hmore
    rw [List.map_cons, List.map_cons, joined_cons_cons]
    exact hmore

theorem readMembers_metrics_stop (m : Text × Scalar) (ms : List (Text × Scalar))
    (h : ¬ ∀ m' ∈ m :: ms, Metric.Plain m') (rest : Text) (n : ℕ) :
    Json.readMembers n
      (cStr (joined ((m :: ms).map fun m => member (metricText m)) ++ rest)) = none := by
  induction ms generalizing m n with
  | nil =>
    have hm : ¬ Metric.Plain m := fun hm => h (List.forall_mem_singleton.mpr hm)
    exact readMembers_stop (reads_scalar m.2) hm rest n
  | cons m' ms ih =>
    rw [List.forall_mem_cons] at h
    rw [List.map_cons, List.map_cons, joined_cons_cons]
    by_cases hm : Metric.Plain m
    · exact readMembers_stop_more (reads_scalar m.2) _ (ih m' fun hms => h ⟨hm, hms⟩) n
    · exact readMembers_stop (reads_scalar m.2) hm _ n

theorem readElements_notes (s : Text) (ss : List Text) (h : ∀ s' ∈ s :: ss, Verify.Plain s')
    (rest : Text) {n : ℕ} (hn : n ≥ ss.length + 2) :
    Json.readElements n (cStr (joined ((s :: ss).map quote) ++ ']' :: rest)) =
      some ((s :: ss).map .str, cStr rest) := by
  induction ss generalizing s n with
  | nil =>
    obtain ⟨n, rfl⟩ := Nat.exists_eq_succ_of_ne_zero (Nat.ne_of_gt ((Nat.succ_pos _).trans_le hn))
    have hread := (reads_quote s).read (h s List.mem_cons_self) _ (endsNumber_bracket rest) n
      (Nat.le_of_succ_le_succ hn)
    rw [cStr_cons (show ']' ≠ Char.ofNat 0 by decide)] at hread
    exact Json.readElements_last hread
  | cons s' ss ih =>
    obtain ⟨n, rfl⟩ := Nat.exists_eq_succ_of_ne_zero (Nat.ne_of_gt ((Nat.succ_pos _).trans_le hn))
    rw [List.forall_mem_cons] at h
    rw [List.length_cons] at hn
    have htail := @ih s' h.2 n (by omega)
    have hread := (reads_quote s).read h.1
      (',' :: (joined ((s' :: ss).map quote) ++ ']' :: rest)) (endsNumber_comma _) n (by omega)
    rw [cStr_cons (show ',' ≠ Char.ofNat 0 by decide)] at hread
    have hmore := Json.readElements_more hread
    rw [htail] at hmore
    rw [List.map_cons, List.map_cons, joined_cons_cons]
    exact hmore

theorem readElements_notes_stop (s : Text) (ss : List Text)
    (h : ¬ ∀ s' ∈ s :: ss, Verify.Plain s') (rest : Text) (n : ℕ) :
    Json.readElements n (cStr (joined ((s :: ss).map quote) ++ rest)) = none := by
  induction ss generalizing s n with
  | nil =>
    have hs : ¬ Verify.Plain s := fun hs => h (List.forall_mem_singleton.mpr hs)
    exact Json.readElements_of_no_value (fun n => (reads_quote s).stop hs rest n) n
  | cons s' ss ih =>
    rw [List.forall_mem_cons] at h
    rw [List.map_cons, List.map_cons, joined_cons_cons]
    by_cases hs : Verify.Plain s
    · have hread := (reads_quote s).read hs (',' :: (joined ((s' :: ss).map quote) ++ rest))
        (endsNumber_comma _) 1 (Nat.le_refl _)
      rw [cStr_cons (show ',' ≠ Char.ofNat 0 by decide)] at hread
      cases n with
      | zero => rfl
      | succ n =>
        rcases Json.readValue_eq_or_none hread n with hnone | hsome
        · exact Json.readElements_of_stuck hnone
        · have htail := ih s' (fun hss => h ⟨hs, hss⟩) n
          have hmore := Json.readElements_more hsome
          rw [htail] at hmore
          exact hmore
    · exact Json.readElements_of_no_value (fun n => (reads_quote s).stop hs _ n) n

theorem joined_metrics_cons (m : Text × Scalar) (ms : List (Text × Scalar)) (rest : Text) :
    ∃ t, cStr (joined ((m :: ms).map fun m => member (metricText m)) ++ rest) = '\"' :: t := by
  cases ms with
  | nil =>
    obtain ⟨t, ht, -⟩ := cStr_member m.1 m.2.text rest
    exact ⟨t, ht⟩
  | cons m' ms =>
    obtain ⟨t, ht, -⟩ := cStr_member m.1 m.2.text
      (',' :: (joined ((m' :: ms).map fun m => member (metricText m)) ++ rest))
    rw [List.map_cons, List.map_cons, joined_cons_cons]
    exact ⟨t, ht⟩

theorem joined_notes_cons (s : Text) (ss : List Text) (rest : Text) :
    ∃ t, cStr (joined ((s :: ss).map quote) ++ rest) = '\"' :: t := by
  cases ss with
  | nil => exact ⟨_, cStr_quote s rest⟩
  | cons s' ss =>
    rw [List.map_cons, List.map_cons, joined_cons_cons]
    exact ⟨_, cStr_quote s _⟩

/-- Items between their two signs, from how they are read one after another. -/
theorem reads_enclosed {α : Type} {opening closing : Char} (hopening : opening ≠ Char.ofNat 0)
    (hclosing : closing ≠ Char.ofNat 0) {read : ℕ → Text → Option (List α × Text)}
    {value : List α → Json.Value}
    (hnone : ∀ n t, Json.readValue (n + 1) (opening :: closing :: t) = some (value [], t))
    (hsome : ∀ n t, Json.readValue (n + 1) (opening :: '\"' :: t) =
      (read n ('\"' :: t)).map fun r => (value r.1, r.2))
    {items : List Text} {xs : List α} {good : Prop} {fuel : ℕ}
    (hnil : items = [] → xs = [] ∧ good)
    (hquote : items ≠ [] → ∀ rest, ∃ t, cStr (joined items ++ rest) = '\"' :: t)
    (hread : items ≠ [] → good → ∀ rest, ∀ n ≥ fuel + 1,
      read n (cStr (joined items ++ closing :: rest)) = some (xs, cStr rest))
    (hstop : items ≠ [] → ¬ good → ∀ rest n, read n (cStr (joined items ++ rest)) = none) :
    Reads (fuel + 2) (opening :: (joined items ++ [closing])) (value xs) good := by
  have hcut : ∀ rest, cStr (opening :: (joined items ++ [closing]) ++ rest) =
      opening :: cStr (joined items ++ closing :: rest) := by
    intro rest
    rw [List.cons_append, List.append_assoc, cStr_cons hopening]
    rfl
  by_cases hitems : items = []
  · obtain ⟨rfl, hgood⟩ := hnil hitems
    refine ⟨fun _ rest _ n hn => ?_, fun hbad => absurd hgood hbad⟩
    obtain ⟨n, rfl⟩ := Nat.exists_eq_succ_of_ne_zero (Nat.ne_of_gt ((Nat.succ_pos _).trans_le hn))
    rw [hcut, hitems]
    exact (congrArg _ (congrArg _ (cStr_cons hclosing rest))).trans (hnone n (cStr rest))
  · refine ⟨fun hgood rest _ n hn => ?_, fun hbad rest n => ?_⟩
    · obtain ⟨n, rfl⟩ := Nat.exists_eq_succ_of_ne_zero (Nat.ne_of_gt ((Nat.succ_pos _).trans_le hn))
      have hitemsRead := hread hitems hgood rest n (Nat.le_of_succ_le_succ hn)
      obtain ⟨t, ht⟩ := hquote hitems (closing :: rest)
      rw [ht] at hitemsRead
      rw [hcut, ht, hsome, hitemsRead]
      rfl
    · cases n with
      | zero => rfl
      | succ n =>
        have hitemsStop := hstop hitems hbad (closing :: rest) n
        obtain ⟨t, ht⟩ := hquote hitems (closing :: rest)
        rw [ht] at hitemsStop
        rw [hcut, ht, hsome, hitemsStop]
        rfl

theorem reads_metrics (ms : List (Text × Scalar)) :
    Reads (ms.length + 2) ('{' :: (joined (ms.map fun m => member (metricText m)) ++ ['}']))
      (.obj (ms.map fun m => (m.1, m.2.value))) (∀ m ∈ ms, Metric.Plain m) := by
  refine reads_enclosed (by decide) (by decide) Json.readValue_no_members Json.readValue_members
    (fun hnil => ?_) (fun hne => ?_) (fun hne => ?_) fun hne => ?_
  · rw [List.map_eq_nil_iff.mp hnil]
    exact ⟨rfl, fun _ hm => absurd hm List.not_mem_nil⟩
  all_goals obtain ⟨m, ms, rfl⟩ := List.exists_cons_of_ne_nil (mt List.map_eq_nil_iff.mpr hne)
  · exact joined_metrics_cons m ms
  · exact fun h rest n hn => readMembers_metrics m ms h rest hn
  · exact readMembers_metrics_stop m ms

theorem reads_notes (ss : List Text) :
    Reads (ss.length + 2) ('[' :: (joined (ss.map quote) ++ [']'])) (.arr (ss.map .str))
      (∀ s ∈ ss, Verify.Plain s) := by
  refine reads_enclosed (by decide) (by decide) Json.readValue_no_elements Json.readValue_elements
    (fun hnil => ?_) (fun hne => ?_) (fun hne => ?_) fun hne => ?_
  · rw [List.map_eq_nil_iff.mp hnil]
    exact ⟨rfl, fun _ hs => absurd hs List.not_mem_nil⟩
  all_goals obtain ⟨s, ss, rfl⟩ := List.exists_cons_of_ne_nil (mt List.map_eq_nil_iff.mpr hne)
  · exact joined_notes_cons s ss
  · exact fun h rest n hn => readElements_notes s ss h rest hn
  · exact readElements_notes_stop s ss

/-- A member and those behind it, one of which cannot be read. -/
theorem readMembers_stop_either (h : Reads fuel text v good) {rest : Text} {goods : Prop}
    (hrest : ¬ goods → ∀ n, Json.readMembers n (cStr rest) = none)
    (hbad : ¬ ((Verify.Plain key ∧ good) ∧ goods)) (n : ℕ) :
    Json.readMembers n (cStr (member (key, text) ++ ',' :: rest)) = none := by
  by_cases hgood : Verify.Plain key ∧ good
  · exact readMembers_stop_more h rest (hrest fun hgoods => hbad ⟨hgood, hgoods⟩) n
  · exact readMembers_stop h hgood _ n

end Members

section Line

theorem nul_not_mem_quote {s : Text} (h : Plain s) : Char.ofNat 0 ∉ quote s := by
  intro hmem
  rw [quote, List.mem_cons, List.mem_append, List.mem_flatMap] at hmem
  rcases hmem with hmem | ⟨c, hc, hmem⟩ | hmem
  · exact absurd hmem (by decide)
  · unfold quoteChar at hmem
    have hnul : Char.ofNat 0 ≠ c := by
      rintro rfl
      exact absurd (h _ hc) (by decide)
    have hslash : Char.ofNat 0 ≠ '\\' := by decide
    have hn : Char.ofNat 0 ≠ 'n' := by decide
    split_ifs at hmem
    all_goals simp_all
  · exact absurd hmem (by decide)

theorem newline_not_mem_quote (s : Text) : '\n' ∉ quote s := by
  intro hmem
  rw [quote, List.mem_cons, List.mem_append, List.mem_flatMap] at hmem
  rcases hmem with hmem | ⟨c, -, hmem⟩ | hmem
  · exact absurd hmem (by decide)
  · unfold quoteChar at hmem
    split_ifs at hmem with hescape hline hline
    · exact absurd hmem (by decide)
    · have hne : '\n' ≠ c := fun heq => hline heq.symm
      have hslash : '\n' ≠ '\\' := by decide
      simp_all
    · exact absurd hmem (by decide)
    · exact absurd (List.mem_singleton.mp hmem).symm hline
  · exact absurd hmem (by decide)

theorem not_mem_joined {c : Char} (hc : c ≠ ',') {ts : List Text} (h : ∀ t ∈ ts, c ∉ t) :
    c ∉ joined ts := by
  induction ts with
  | nil => exact List.not_mem_nil
  | cons t ts ih =>
    rw [List.forall_mem_cons] at h
    cases ts with
    | nil => exact h.1
    | cons t' ts =>
      rw [joined, List.mem_append, List.mem_cons, not_or, not_or]
      exact ⟨h.1, hc, ih h.2⟩

theorem length_le_joined {ts : List Text} (h : ∀ t ∈ ts, t ≠ []) :
    ts.length ≤ (joined ts).length := by
  induction ts with
  | nil => exact Nat.zero_le _
  | cons t ts ih =>
    rw [List.forall_mem_cons] at h
    have ht := List.length_pos_iff.mpr h.1
    cases ts with
    | nil => exact ht
    | cons t' ts =>
      have hrest := ih h.2
      simp only [joined, List.length_append, List.length_cons] at hrest ⊢
      omega

theorem not_mem_scalar {c : Char} (hdigit : c.isDigit = false) (hminus : c ≠ '-')
    (hbool : c ∉ trueText ++ falseText) {x : Scalar} (hquote : ∀ s ∈ x.texts, c ∉ quote s) :
    c ∉ x.text := by
  rw [List.mem_append, not_or] at hbool
  cases x with
  | num v =>
    have hdigits : ∀ n, c ∉ Nat.toDigits 10 n := fun n h => by
      rw [Nat.isDigit_of_mem_toDigits (by decide) (by decide) h] at hdigit
      cases hdigit
    intro hmem
    rw [Scalar.text, Json.intText] at hmem
    split_ifs at hmem
    · exact (List.mem_cons.mp hmem).elim hminus (hdigits _)
    · exact hdigits _ hmem
  | boolean v =>
    cases v with
    | false => exact hbool.2
    | true => exact hbool.1
  | str v => exact hquote v List.mem_cons_self

theorem not_mem_member {c : Char} (hcolon : c ≠ ':') {key text : Text} (hkey : c ∉ quote key)
    (htext : c ∉ text) : c ∉ member (key, text) := by
  rw [member, List.mem_append, List.mem_cons, not_or, not_or]
  exact ⟨hkey, hcolon, htext⟩

def fixedText : Text := "\x7b\x7d[],:-truefalse\"probeokmetricsnotes".toList

/-- A character no text puts into the line is not in it. -/
theorem not_mem_jsonText {c : Char} (hdigit : c.isDigit = false) (hfixed : c ∉ fixedText)
    {fmt : Fmt} {probe : Text} {ok : Bool} {ms : List (Text × Scalar)} {ns : List Text}
    (hprobe : c ∉ quote probe) (hms : ∀ m ∈ ms, c ∉ quote m.1 ∧ ∀ s ∈ m.2.texts, c ∉ quote s)
    (hns : ∀ n ∈ ns, c ∉ quote n) :
    c ∉ jsonText ⟨fmt, probe, ok, ms.map metricText, ns⟩ := by
  have hne : ∀ d ∈ fixedText, c ≠ d := fun d hd heq => hfixed (heq ▸ hd)
  have hsub : ∀ t : Text, t ⊆ fixedText → c ∉ t := fun t ht hmem => hfixed (ht hmem)
  have hbool : c ∉ trueText ++ falseText := hsub _ (by decide)
  have hcomma : c ≠ ',' := hne ',' (by decide)
  have hcolon : c ≠ ':' := hne ':' (by decide)
  have hok : c ∉ if ok then trueText else falseText := by
    rw [List.mem_append, not_or] at hbool
    cases ok with
    | false => exact hbool.2
    | true => exact hbool.1
  have hmetrics : c ∉ '{' :: (joined ((ms.map metricText).map member) ++ ['}']) := by
    rw [List.mem_cons, List.mem_append, List.mem_singleton, not_or, not_or]
    refine ⟨hne '{' (by decide), not_mem_joined hcomma ?_, hne '}' (by decide)⟩
    rw [List.forall_mem_map, List.forall_mem_map]
    intro m hm
    exact not_mem_member hcolon (hms m hm).1
      (not_mem_scalar hdigit (hne '-' (by decide)) hbool (hms m hm).2)
  have hnotes : c ∉ '[' :: (joined (ns.map quote) ++ [']']) := by
    rw [List.mem_cons, List.mem_append, List.mem_singleton, not_or, not_or]
    refine ⟨hne '[' (by decide), not_mem_joined hcomma ?_, hne ']' (by decide)⟩
    rw [List.forall_mem_map]
    exact hns
  -- the four members in the order the line has them
  have hmembers := not_mem_joined hcomma (List.forall_mem_cons.mpr
    ⟨not_mem_member hcolon (hsub (quote "probe".toList) (by decide)) hprobe,
      List.forall_mem_cons.mpr
    ⟨not_mem_member hcolon (hsub (quote "ok".toList) (by decide)) hok, List.forall_mem_cons.mpr
    ⟨not_mem_member hcolon (hsub (quote "metrics".toList) (by decide)) hmetrics,
      List.forall_mem_singleton.mpr
    (not_mem_member hcolon (hsub (quote "notes".toList) (by decide)) hnotes)⟩⟩⟩)
  rw [jsonText, List.cons_append, List.mem_cons, List.mem_append, List.mem_singleton, not_or,
    not_or]
  exact ⟨hne '{' (by decide), hmembers, hne '}' (by decide)⟩

end Line

section Finish

variable {fmt : Fmt} {probe : Text} {ok : Bool} {ms : List (Text × Scalar)} {ns : List Text}

def AllPlain (probe : Text) (ms : List (Text × Scalar)) (ns : List Text) : Prop :=
  Verify.Plain probe ∧ (∀ m ∈ ms, Metric.Plain m) ∧ ∀ n ∈ ns, Verify.Plain n

/-- The line from behind its opening brace. -/
def membersText (probe : Text) (ok : Bool) (ms : List (Text × Scalar)) (ns : List Text) : Text :=
  member ("probe".toList, quote probe) ++ ',' ::
    (member ("ok".toList, if ok then trueText else falseText) ++ ',' ::
      (member ("metrics".toList,
          '{' :: (joined (ms.map fun m => member (metricText m)) ++ ['}'])) ++ ',' ::
        (member ("notes".toList, '[' :: (joined (ns.map quote) ++ [']'])) ++ '}' :: [])))

theorem jsonText_eq (fmt : Fmt) (ok : Bool) :
    jsonText ⟨fmt, probe, ok, ms.map metricText, ns⟩ = '{' :: membersText probe ok ms ns := by
  simp only [jsonText, membersText, joined, List.map_map, List.cons_append, List.append_assoc,
    Function.comp_def]

theorem length_member (m : Text × Text) :
    (member m).length = (quote m.1).length + (m.2.length + 1) := by
  rw [member, List.length_append, List.length_cons]

theorem length_le_membersText : ms.length + ns.length + 6 ≤ (membersText probe ok ms ns).length := by
  have hms : ms.length ≤ (joined (ms.map fun m => member (metricText m))).length := by
    have hne : ∀ t ∈ ms.map (fun m => member (metricText m)), t ≠ [] := by
      rw [List.forall_mem_map]
      exact fun m _ => List.cons_ne_nil _ _
    have h := length_le_joined hne
    rwa [List.length_map] at h
  have hns : ns.length ≤ (joined (ns.map quote)).length := by
    have hne : ∀ t ∈ ns.map quote, t ≠ [] := by
      rw [List.forall_mem_map]
      exact fun n _ => List.cons_ne_nil _ _
    have h := length_le_joined hne
    rwa [List.length_map] at h
  simp only [membersText, length_member, List.length_append, List.length_cons, List.length_nil]
  omega

/-- The members of the line, if everything in it is plain. -/
theorem readMembers_membersText (h : AllPlain probe ms ns) {n : ℕ}
    (hn : n ≥ ms.length + ns.length + 6) :
    Json.readMembers n (cStr (membersText probe ok ms ns)) =
      some ([("probe".toList, .str probe), ("ok".toList, .bool ok),
        ("metrics".toList, .obj (ms.map fun m => (m.1, m.2.value))),
        ("notes".toList, .arr (ns.map .str))], []) := by
  obtain ⟨hprobe, hms, hns⟩ := h
  obtain ⟨n, rfl⟩ := Nat.exists_eq_add_of_le' (show 4 ≤ n by omega)
  rw [membersText,
    readMembers_more (reads_quote probe) (by decide) hprobe _ (by omega),
    readMembers_more (reads_boolean ok) (by decide) trivial _ (by omega),
    readMembers_more (reads_metrics ms) (by decide) hms _ (by omega),
    readMembers_last (reads_notes ns) (by decide) hns _ (by omega)]
  rfl

/-- If not, there is no reading them. -/
theorem readMembers_membersText_stop (h : ¬ AllPlain probe ms ns) (n : ℕ) :
    Json.readMembers n (cStr (membersText probe ok ms ns)) = none := by
  have hnotes : ¬ (∀ n ∈ ns, Verify.Plain n) → ∀ k, Json.readMembers k (cStr
      (member ("notes".toList, '[' :: (joined (ns.map quote) ++ [']'])) ++ '}' :: [])) = none :=
    fun hns => readMembers_stop (reads_notes ns) (fun hgood => hns hgood.2) _
  refine readMembers_stop_either (reads_quote probe)
    (readMembers_stop_either (reads_boolean ok)
      (readMembers_stop_either (reads_metrics ms) hnotes)) ?_ n
  intro hgood
  exact h ⟨hgood.1.2, hgood.2.2.1.2, hgood.2.2.2⟩

/-- Where the members are read, so is the line, and only there. -/
theorem readValue_jsonText (fmt : Fmt) (n : ℕ) :
    Json.readValue (n + 1) (cStr (jsonText ⟨fmt, probe, ok, ms.map metricText, ns⟩)) =
      (Json.readMembers n (cStr (membersText probe ok ms ns))).map fun r => (.obj r.1, r.2) := by
  have hstart : ∃ t, cStr (membersText probe ok ms ns) = '\"' :: t := by
    obtain ⟨t, ht, -⟩ := cStr_member "probe".toList (quote probe) _
    exact ⟨t, ht⟩
  obtain ⟨t, ht⟩ := hstart
  rw [jsonText_eq, cStr_cons (by decide), ht]
  exact Json.readValue_members n t

theorem nul_not_mem_jsonText (fmt : Fmt) (ok : Bool) (h : AllPlain probe ms ns) :
    Char.ofNat 0 ∉ jsonText ⟨fmt, probe, ok, ms.map metricText, ns⟩ := by
  obtain ⟨hprobe, hms, hns⟩ := h
  apply not_mem_jsonText (by decide) (by decide) (nul_not_mem_quote hprobe)
  · exact fun m hm => ⟨nul_not_mem_quote (hms m hm).1,
      fun s hs => nul_not_mem_quote ((hms m hm).2 s hs)⟩
  · exact fun n hn => nul_not_mem_quote (hns n hn)

theorem newline_not_mem_jsonText :
    '\n' ∉ jsonText ⟨fmt, probe, ok, ms.map metricText, ns⟩ := by
  apply not_mem_jsonText (by decide) (by decide) (newline_not_mem_quote probe)
  · exact fun m _ => ⟨newline_not_mem_quote m.1, fun s _ => newline_not_mem_quote s⟩
  · exact fun n _ => newline_not_mem_quote n

theorem decode_jsonText (h : AllPlain probe ms ns) :
    Json.decode (jsonText ⟨fmt, probe, ok, ms.map metricText, ns⟩) =
      some (.obj [("probe".toList, .str probe), ("ok".toList, .bool ok),
        ("metrics".toList, .obj (ms.map fun m => (m.1, m.2.value))),
        ("notes".toList, .arr (ns.map .str))]) := by
  have hcut := cStr_of_not_mem (nul_not_mem_jsonText fmt ok h)
  have hread := @readValue_jsonText probe ok ms ns fmt (membersText probe ok ms ns).length.succ
  rw [readMembers_membersText h (length_le_membersText.trans (Nat.le_succ _)), hcut] at hread
  rw [Json.decode, jsonText_eq, List.length_cons, ← jsonText_eq fmt ok, hread]
  rfl

theorem decode_jsonText_stop (h : ¬ AllPlain probe ms ns) :
    Json.decode (cStr (jsonText ⟨fmt, probe, ok, ms.map metricText, ns⟩)) = none := by
  rw [Json.decode, readValue_jsonText, readMembers_membersText_stop h]
  rfl

end Finish

/-- What the calls leave in the report. -/
theorem foldl_call (r : Report) (calls : List Call) :
    calls.foldl call r = ⟨r.fmt, r.probe, r.ok && calls.all Call.passes,
      r.metrics ++ (calls.filterMap Call.metric).map metricText,
      r.notes ++ calls.filterMap Call.message⟩ := by
  induction calls generalizing r with
  | nil => simp
  | cons c calls ih =>
    rw [List.foldl_cons, ih]
    cases c <;> simp [call, num, boolean, str, note, fail, Call.metric, Call.message, Call.passes,
      metricText, Scalar.text, List.filterMap_cons]

theorem after_eq (fmt : Fmt) (probe : Text) (calls : List Call) :
    after fmt probe calls = ⟨fmt, probe, calls.all Call.passes,
      (calls.filterMap Call.metric).map metricText, calls.filterMap Call.message⟩ := by
  rw [after, foldl_call]
  rfl

/-- The texts of one call. -/
theorem plain_call_iff (c : Call) :
    ((∀ m, c.metric = some m → Metric.Plain m) ∧ ∀ n, c.message = some n → Verify.Plain n) ↔
      ∀ s ∈ c.texts, Verify.Plain s := by
  cases c <;> simp [Call.metric, Call.message, Call.texts, Metric.Plain, Scalar.texts]

theorem allPlain_iff (probe : Text) (calls : List Call) :
    AllPlain probe (calls.filterMap Call.metric) (calls.filterMap Call.message) ↔
      Verify.Plain probe ∧ ∀ c ∈ calls, ∀ s ∈ c.texts, Verify.Plain s := by
  have hcalls : (∀ c ∈ calls, ∀ s ∈ c.texts, Verify.Plain s) ↔
      (∀ c ∈ calls, ∀ m, c.metric = some m → Metric.Plain m) ∧
        ∀ c ∈ calls, ∀ n, c.message = some n → Verify.Plain n := by
    simp only [← plain_call_iff]
    exact ⟨fun h => ⟨fun c hc => (h c hc).1, fun c hc => (h c hc).2⟩,
      fun h c hc => ⟨h.1 c hc, h.2 c hc⟩⟩
  rw [AllPlain, List.forall_mem_filterMap, List.forall_mem_filterMap, hcalls]

/-- The line of a JSON report reads back as the report exactly when no text in it holds a control
character other than a newline. -/
theorem round_trips_iff (probe : Text) (calls : List Call) :
    RoundTrips probe calls ↔
      Verify.Plain probe ∧ ∀ c ∈ calls, ∀ s ∈ c.texts, Verify.Plain s := by
  rw [← allPlain_iff]
  have hprint : (after .json probe calls).finish.1 =
      cStr (after .json probe calls).jsonText ++ ['\n'] := by
    rw [after_eq]
    exact congrArg Prod.fst rfl
  constructor
  · intro h
    obtain ⟨line, hline, -, hdecode⟩ := h
    rw [hprint, List.append_left_inj, after_eq] at hline
    by_contra hbad
    rw [← hline, decode_jsonText_stop hbad] at hdecode
    cases hdecode
  · intro h
    have hcut := cStr_of_not_mem (nul_not_mem_jsonText .json (calls.all Call.passes) h)
    refine ⟨(after .json probe calls).jsonText, ?_, ?_, ?_⟩
    · rw [hprint, after_eq, hcut]
    · rw [after_eq]
      exact newline_not_mem_jsonText
    · rw [after_eq]
      exact decode_jsonText h

/-- Compiler output with a tab in it, as a note. -/
def tabLine : Text := "\x7b\"probe\":\"p\",\"ok\":true,\"metrics\":\x7b\x7d,\"notes\":[\"\t\"]\x7d".toList

theorem tab_does_not_round_trip : ¬ RoundTrips "p".toList [.note ['\t']] := by
  rintro ⟨line, hline, -, hdecode⟩
  have hprint : (after .json "p".toList [.note ['\t']]).finish.1 = tabLine ++ ['\n'] := by
    decide +kernel
  have hcut : line = tabLine := List.append_cancel_right (hline.symm.trans hprint)
  have hnone : (Json.decode tabLine).isSome = false := by decide +kernel
  rw [← hcut, hdecode] at hnone
  cases hnone

end Report

end Jmpxx.Verify
