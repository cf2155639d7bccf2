import Jmpxx.Lists
import Jmpxx.ResolveChains

namespace Jmpxx.Resolve

variable (values : Text → Option Text)

/-- The failure met first, left to right and depth first, in resolving `key` below the keys on
`path`: its kind, how many references lead to it, and the key at which it happens. -/
inductive FailsAt : List Text → Text → Kind → ℕ → Text → Prop
  | tooDeep {path : List Text} {key : Text} (hdeep : maxDepth < path.length) :
    FailsAt path key .tooDeep path.length key
  | cycle {path : List Text} {key : Text} (hdeep : path.length ≤ maxDepth) (hold : key ∈ path) :
    FailsAt path key .cycle path.length key
  | missing {path : List Text} {key : Text} (hdeep : path.length ≤ maxDepth) (hnew : key ∉ path)
      (hraw : values key = none) : FailsAt path key .missing path.length key
  | reference {path before after : List Text} {key raw ref culprit : Text} {kind : Kind} {depth : ℕ}
      (hdeep : path.length ≤ maxDepth) (hnew : key ∉ path) (hraw : values key = some raw)
      (hrefs : (parse raw).refs = before ++ ref :: after)
      (hbefore : ∀ r ∈ before, SoundBelow values (path ++ [key]) r)
      (hfails : FailsAt (path ++ [key]) ref kind depth culprit) : FailsAt path key kind depth culprit
  | malformed {path : List Text} {key raw : Text} (hdeep : path.length ≤ maxDepth)
      (hnew : key ∉ path) (hraw : values key = some raw) (htail : (parse raw).tail = none)
      (hrefs : ∀ r ∈ (parse raw).refs, SoundBelow values (path ++ [key]) r) :
    FailsAt path key .malformed path.length key

/-- A failed `resolve_key` reports the failure met first, and `error_key()` the key of it. -/
def ReportsFirst (key : Text) (s : Resolver) : Prop :=
  ∀ kind depth s', resolveKey values key s = (.ok (.error (kind, depth)), s') →
    FailsAt values [] key kind depth s'.errorKey

/-- What `error_key()` is for a failure at this key: for a malformed reference, the text that
holds it. -/
def reportedKey (kind : Kind) (culprit : Text) : Text :=
  if kind = .malformed then (values culprit).getD [] else culprit

variable {values} {path : List Text} {key culprit : Text} {kind : Kind} {depth : ℕ}

theorem nodup_concat (hpath : path.Nodup) (hnew : key ∉ path) : (path ++ [key]).Nodup := by
  rw [← List.concat_eq_append]
  exact hpath.concat hnew

section Parts

variable {below : Text → Except Refusal Text} {broken r : Refusal} {parts : List (Text × Text)}
  {tail : Option Text}

/-- The verdict is that on the first reference refused. -/
theorem judgeParts_error_of_ref {before after : List Text} {ref : Text}
    (hrefs : parts.map Prod.snd = before ++ ref :: after)
    (hbefore : ∀ k ∈ before, ∃ w, below k = .ok w) (href : below ref = .error r) :
    judgeParts below broken parts tail = .error r := by
  induction parts generalizing before with
  | nil => cases before <;> cases hrefs
  | cons part parts ih =>
    rw [judgeParts]
    cases before with
    | nil =>
      rw [(List.cons.inj hrefs).1, href]
      rfl
    | cons k before =>
      obtain ⟨w, hw⟩ := hbefore k List.mem_cons_self
      rw [(List.cons.inj hrefs).1, hw]
      show (judgeParts below broken parts tail >>= _) = _
      rw [ih (List.cons.inj hrefs).2 fun k' hk' => hbefore k' (List.mem_cons_of_mem k hk')]
      rfl

theorem judgeParts_error_of_tail (hrefs : ∀ k ∈ parts.map Prod.snd, ∃ w, below k = .ok w) :
    judgeParts below broken parts none = .error broken := by
  induction parts with
  | nil => rfl
  | cons part parts ih =>
    rw [List.map_cons, List.forall_mem_cons] at hrefs
    obtain ⟨w, hw⟩ := hrefs.1
    rw [judgeParts, hw]
    show (judgeParts below broken parts none >>= _) = _
    rw [ih hrefs.2]
    rfl

/-- A text is refused at a reference, with those before it accepted, or at its end. -/
theorem judgeParts_error (h : judgeParts below broken parts tail = .error r) :
    (∃ before ref after, parts.map Prod.snd = before ++ ref :: after ∧
      (∀ k ∈ before, ∃ w, below k = .ok w) ∧ below ref = .error r) ∨
    tail = none ∧ (∀ k ∈ parts.map Prod.snd, ∃ w, below k = .ok w) ∧ r = broken := by
  induction parts with
  | nil =>
    cases tail with
    | some tail => cases h
    | none =>
      exact .inr ⟨rfl, fun _ hk => absurd hk List.not_mem_nil, (Except.error.inj h).symm⟩
  | cons part parts ih =>
    rw [judgeParts] at h
    cases hpart : below part.2 with
    | error r' =>
      rw [hpart] at h
      -- refused at the first reference, so nothing stands before it
      refine .inl ⟨[], part.2, parts.map Prod.snd, rfl, fun _ hk => absurd hk List.not_mem_nil, ?_⟩
      rw [hpart]
      exact h
    | ok w =>
      rw [hpart] at h
      cases hrest : judgeParts below broken parts tail with
      | ok u =>
        rw [hrest] at h
        cases h
      | error r' =>
        rw [hrest] at h
        cases h
        rcases ih hrest with hinner | hinner
        · obtain ⟨before, ref, after, hrefs, hbefore, href⟩ := hinner
          refine .inl ⟨part.2 :: before, ref, after, congrArg _ hrefs, ?_, href⟩
          exact List.forall_mem_cons.mpr ⟨⟨w, hpart⟩, hbefore⟩
        · obtain ⟨htail, hrefs, hbroken⟩ := hinner
          exact .inr ⟨htail, List.forall_mem_cons.mpr ⟨⟨w, hpart⟩, hrefs⟩, hbroken⟩

end Parts

/-- Below a path without repetitions, the sound keys are those accepted. -/
theorem judge_ok_iff_sound (hpath : path.Nodup) :
    (∃ w, judge values path key = .ok w) ↔ SoundBelow values path key := by
  constructor
  · intro h
    obtain ⟨w, hw⟩ := h
    exact ((judge_ok _ (Nat.le_refl _) hpath).mp hw).1
  · intro h
    obtain ⟨w, hw⟩ := h.resolves _ (Nat.le_refl _)
    exact ⟨w, (judge_ok _ (Nat.le_refl _) hpath).mpr ⟨h, hw⟩⟩

theorem judge_of_failsAt (h : FailsAt values path key kind depth culprit) (hpath : path.Nodup) :
    judge values path key = .error ⟨kind, depth, reportedKey values kind culprit⟩ := by
  induction h with
  | tooDeep hdeep =>
    rw [judge, dif_pos hdeep]
    rfl
  | cycle hdeep hold =>
    rw [judge, dif_neg (Nat.not_lt.mpr hdeep), if_pos hold]
    rfl
  | missing hdeep hnew hraw =>
    rw [judge, dif_neg (Nat.not_lt.mpr hdeep), if_neg hnew, hraw]
    rfl
  | reference hdeep hnew hraw hrefs hbefore hfails ih =>
    have hnodup := nodup_concat hpath hnew
    rw [judge, dif_neg (Nat.not_lt.mpr hdeep), if_neg hnew, hraw]
    exact judgeParts_error_of_ref hrefs
      (fun k hk => (judge_ok_iff_sound hnodup).mpr (hbefore k hk)) (ih hnodup)
  | malformed hdeep hnew hraw htail hrefs =>
    rw [judge, dif_neg (Nat.not_lt.mpr hdeep), if_neg hnew, reportedKey, if_pos rfl, hraw]
    simp only [htail]
    exact judgeParts_error_of_tail fun k hk =>
      (judge_ok_iff_sound (nodup_concat hpath hnew)).mpr (hrefs k hk)

/-- Whatever is refused fails somewhere first. -/
theorem failsAt_of_judge (n : ℕ) (hn : maxDepth + 1 - path.length ≤ n) (hpath : path.Nodup)
    {r : Refusal} (h : judge values path key = .error r) :
    ∃ culprit, FailsAt values path key r.kind r.depth culprit := by
  -- on the room left on the path, which each reference makes one less
  induction n generalizing path key with
  | zero =>
    rw [judge, dif_pos (by omega)] at h
    rw [← Except.error.inj h]
    exact ⟨key, .tooDeep (by omega)⟩
  | succ n ih =>
    rw [judge] at h
    by_cases hdeep : path.length > maxDepth
    · rw [dif_pos hdeep] at h
      rw [← Except.error.inj h]
      exact ⟨key, .tooDeep hdeep⟩
    rw [dif_neg hdeep] at h
    have hle := Nat.not_lt.mp hdeep
    by_cases hold : key ∈ path
    · rw [if_pos hold] at h
      rw [← Except.error.inj h]
      exact ⟨key, .cycle hle hold⟩
    rw [if_neg hold] at h
    have hnodup := nodup_concat hpath hold
    cases hraw : values key with
    | none =>
      rw [hraw] at h
      rw [← Except.error.inj h]
      exact ⟨key, .missing hle hold hraw⟩
    | some raw =>
      rw [hraw] at h
      rcases judgeParts_error h with hinner | hinner
      · obtain ⟨before, ref, after, hrefs, hbefore, href⟩ := hinner
        have hlen : maxDepth + 1 - (path ++ [key]).length ≤ n := by
          rw [List.length_append, List.length_singleton]
          omega
        obtain ⟨culprit, hfails⟩ := ih hlen hnodup href
        exact ⟨culprit, .reference hle hold hraw hrefs
          (fun k hk => (judge_ok_iff_sound hnodup).mp (hbefore k hk)) hfails⟩
      · obtain ⟨htail, hrefs, rfl⟩ := hinner
        exact ⟨key, .malformed hle hold hraw htail fun k hk =>
          (judge_ok_iff_sound hnodup).mp (hrefs k hk)⟩

theorem FailsAt.not_sound (h : FailsAt values path key kind depth culprit) (hpath : path.Nodup) :
    ¬ SoundBelow values path key := by
  intro hsound
  obtain ⟨w, hw⟩ := (judge_ok_iff_sound hpath).mpr hsound
  rw [judge_of_failsAt h hpath] at hw
  cases hw

theorem FailsAt.malformed_text (h : FailsAt values path key kind depth culprit)
    (hkind : kind = .malformed) : ∃ raw, values culprit = some raw := by
  induction h with
  | reference _ _ _ _ _ _ ih => exact ih hkind
  | malformed _ _ hraw => exact ⟨_, hraw⟩
  | _ => cases hkind

/-- There is one failure that is met first. -/
theorem FailsAt.unique {kind' : Kind} {depth' : ℕ} {culprit' : Text}
    (h : FailsAt values path key kind depth culprit) (hpath : path.Nodup)
    (h' : FailsAt values path key kind' depth' culprit') : culprit = culprit' := by
  induction h with
  | tooDeep hdeep =>
    cases h' with
    | tooDeep => rfl
    | _ => omega
  | cycle hdeep hold =>
    cases h' with
    | tooDeep => rfl
    | cycle => rfl
    | _ => contradiction
  | missing hdeep hnew hraw =>
    cases h' with
    | reference _ _ hraw' => cases hraw.symm.trans hraw'
    | _ => rfl
  | @reference path before after key raw ref culprit kind depth hdeep hnew hraw hrefs hbefore
      hfails ih =>
    have hnodup := nodup_concat hpath hnew
    have hsound : SoundBelow values (path ++ [key]) ref → False := hfails.not_sound hnodup
    cases h' with
    | tooDeep => omega
    | cycle => contradiction
    | missing _ _ hraw' => cases hraw.symm.trans hraw'
    | malformed _ _ hraw' _ hrefs' =>
      rw [hraw, Option.some_inj] at hraw'
      subst hraw'
      exact absurd (hrefs' ref (hrefs ▸ List.mem_append_right before List.mem_cons_self)) hsound
    | @reference _ before' after' _ raw' ref' _ _ _ _ _ hraw' hrefs' hbefore' hfails' =>
      rw [hraw, Option.some_inj] at hraw'
      subst hraw'
      -- the references before each of the two are sound, and neither of the two is
      have hfirst : ref = ref' := Lists.eq_of_first (hrefs.symm.trans hrefs') hbefore hbefore'
        hsound (hfails'.not_sound hnodup)
      subst hfirst
      exact ih hnodup hfails'
  | @malformed path key raw hdeep hnew hraw htail hrefs =>
    cases h' with
    | reference _ _ hraw' hrefs' _ hfails' =>
      rw [hraw, Option.some_inj] at hraw'
      subst hraw'
      have hsound := hrefs _ (hrefs' ▸ List.mem_append_right _ List.mem_cons_self)
      exact absurd hsound (hfails'.not_sound (nodup_concat hpath hnew))
    | _ => rfl

/-- Whatever a resolver was used for before, `resolve_key` fails with the kind and the depth of
the failure met first. -/
theorem resolveKey_error {s : Resolver} (hs : s.resolving = ∅) {s' : Resolver} :
    resolveKey values key s = (.ok (.error (kind, depth)), s') ↔
      ∃ culprit, FailsAt values [] key kind depth culprit ∧
        s' = { s with errorKey := reportedKey values kind culprit, payload := some (kind, depth) } := by
  rw [resolveKey_eq hs]
  constructor
  · intro h
    cases hverdict : judge values [] key with
    | ok v =>
      rw [hverdict] at h
      cases h
    | error r =>
      obtain ⟨culprit, hfails⟩ := failsAt_of_judge _ (Nat.le_refl _) List.nodup_nil hverdict
      rw [judge_of_failsAt hfails List.nodup_nil] at h
      cases h
      exact ⟨culprit, hfails, rfl⟩
  · intro h
    obtain ⟨culprit, hfails, rfl⟩ := h
    rw [judge_of_failsAt hfails List.nodup_nil]
    rfl

/-- After any calls, the failure met first is reported with its own key exactly when it is no
malformed reference, or one in a text that is its own key. -/
theorem reports_first_iff (values : Text → Option Text) (history : List Text) :
    ∃ s, resolverAfter values history = some s ∧
      ∀ key, ReportsFirst values key s ↔
        ∀ depth culprit, FailsAt values [] key .malformed depth culprit →
          values culprit = some culprit := by
  obtain ⟨s, hafter, hs⟩ := resolverAfter_eq values history
  refine ⟨s, hafter, fun key => ?_⟩
  constructor
  · intro h depth culprit hfails
    have hreport := h _ _ _ ((resolveKey_error hs).mpr ⟨culprit, hfails, rfl⟩)
    have hsame : culprit = reportedKey values .malformed culprit :=
      hfails.unique List.nodup_nil hreport
    obtain ⟨raw, hraw⟩ := hfails.malformed_text rfl
    rw [reportedKey, if_pos rfl, hraw, Option.getD_some] at hsame
    rw [hraw, hsame]
  · intro h kind depth s' hrun
    obtain ⟨culprit, hfails, rfl⟩ := (resolveKey_error hs).mp hrun
    have hkey : reportedKey values kind culprit = culprit := by
      unfold reportedKey
      split_ifs with hkind
      · subst hkind
        rw [h depth culprit hfails]
        rfl
      · rfl
    show FailsAt values [] key kind depth (reportedKey values kind culprit)
    rw [hkey]
    exact hfails

/-- `a = "${"`. -/
def unclosed : Text → Option Text
  | [97] => some [36, 123]
  | _ => none

/-- The text is reported where the key belongs. -/
theorem malformed_reports_text : ¬ ReportsFirst unclosed [97] .fresh := by
  intro h
  have hrun : resolveKey unclosed [97] .fresh =
      (.ok (.error (.malformed, 0)), ⟨∅, [36, 123], some (.malformed, 0)⟩) := by decide +kernel
  have htail : parse [36, 123] = ⟨[], none⟩ := @parse_broken [36, 123] 0 rfl rfl
  have hfails : FailsAt unclosed [] [97] .malformed 0 [97] :=
    .malformed (Nat.zero_le _) List.not_mem_nil rfl (congrArg Parsed.tail htail) fun r hr => by
      rw [htail] at hr
      exact absurd hr List.not_mem_nil
  have hsame : ([97] : Text) = [36, 123] := hfails.unique List.nodup_nil (h _ _ _ hrun)
  cases hsame

end Jmpxx.Resolve
