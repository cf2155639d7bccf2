import Jmpxx.Resolve
import Mathlib.Data.List.Chain
import Mathlib.Data.List.Nodup

namespace Jmpxx.Resolve

open Throwing

variable {values : Text → Option Text}

/-- A text by its references: what stands before each, its key, and what follows the last; no
tail when a reference is not closed. -/
structure Parsed where
  parts : List (Text × Text)
  tail : Option Text

theorem drop_lt {text : Text} {first n : ℕ} (h : Search.find opening text = some first)
    (hn : 0 < n) : (text.drop n).length < text.length := by
  have hlen := Search.length_le_of_find h
  simp only [opening, List.length_cons, List.length_nil] at hlen
  rw [List.length_drop]
  omega

def parse (text : Text) : Parsed :=
  match _hopen : Search.find opening text with
  | none => ⟨[], some text⟩
  | some first =>
    match Search.find closing (text.drop (first + 2)) with
    | none => ⟨[], none⟩
    | some len =>
      let rest := parse (text.drop (first + 2 + len + 1))
      ⟨(text.take first, (text.drop (first + 2)).take len) :: rest.parts, rest.tail⟩
termination_by text.length
decreasing_by exact drop_lt _hopen (Nat.succ_pos _)

def Parsed.refs (p : Parsed) : List Text := p.parts.map Prod.snd

def Parsed.fill (p : Parsed) (value : Text → Text) : Text :=
  (p.parts.flatMap fun part => part.1 ++ value part.2) ++ p.tail.getD []

/-- Why a key is refused: the kind, the references that lead to it, and the key reported. -/
structure Refusal where
  kind : Kind
  depth : ℕ
  key : Text
  deriving DecidableEq, Repr

def judgeParts (below : Text → Except Refusal Text) (broken : Refusal) :
    List (Text × Text) → Option Text → Except Refusal Text
  | [], some tail => .ok tail
  | [], none => .error broken
  | (before, ref) :: parts, tail => do
    let value ← below ref
    let rest ← judgeParts below broken parts tail
    pure (before ++ value ++ rest)

def judge (values : Text → Option Text) (path : List Text) (key : Text) : Except Refusal Text :=
  if _hdeep : path.length > maxDepth then .error ⟨.tooDeep, path.length, key⟩
  else if key ∈ path then .error ⟨.cycle, path.length, key⟩
  else
    match values key with
    | none => .error ⟨.missing, path.length, key⟩
    | some raw =>
      judgeParts (fun ref => judge values (path ++ [key]) ref) ⟨.malformed, path.length, raw⟩
        (parse raw).parts (parse raw).tail
termination_by maxDepth + 1 - path.length
decreasing_by
  rw [List.length_append, List.length_singleton]
  omega

/-- The verdict carried out: a refusal escapes and is all that is left of the resolution. -/
def settle (verdict : Except Refusal Text) (s : Resolver) : Outcome Text × Resolver :=
  match verdict with
  | .ok v => (.ok v, s)
  | .error r => (.thrown, { s with errorKey := r.key, payload := some (r.kind, r.depth) })

section Parse

theorem parse_plain {text : Text} (h : Search.find opening text = none) :
    parse text = ⟨[], some text⟩ := by
  rw [parse]
  split
  · rfl
  · next heq => rw [h] at heq; cases heq

theorem parse_broken {text : Text} {first : ℕ} (h : Search.find opening text = some first)
    (hclose : Search.find closing (text.drop (first + 2)) = none) : parse text = ⟨[], none⟩ := by
  rw [parse]
  split
  · next heq => rw [h] at heq; cases heq
  · next first' heq =>
    rw [← Option.some.inj (h.symm.trans heq), hclose]

theorem parse_ref {text : Text} {first len : ℕ} (h : Search.find opening text = some first)
    (hclose : Search.find closing (text.drop (first + 2)) = some len) :
    parse text =
      ⟨(text.take first, (text.drop (first + 2)).take len) ::
        (parse (text.drop (first + 2 + len + 1))).parts,
        (parse (text.drop (first + 2 + len + 1))).tail⟩ := by
  rw [parse]
  split
  · next heq => rw [h] at heq; cases heq
  · next first' heq =>
    rw [← Option.some.inj (h.symm.trans heq), hclose]

def Parsed.spell (p : Parsed) : Text :=
  (p.parts.flatMap fun part => part.1 ++ opening ++ part.2 ++ closing) ++ p.tail.getD []

theorem text_eq_of_find {text : Text} {first len : ℕ} (h : Search.find opening text = some first)
    (hclose : Search.find closing (text.drop (first + 2)) = some len) :
    text = text.take first ++ opening ++ (text.drop (first + 2)).take len ++ closing ++
      text.drop (first + 2 + len + 1) := by
  have hopened := Search.split_of_find h
  have hclosed := Search.split_of_find hclose
  rw [List.drop_drop] at hclosed
  calc
    text = text.take first ++ opening ++ text.drop (first + 2) := hopened
    _ = text.take first ++ opening ++ ((text.drop (first + 2)).take len ++ closing ++
        text.drop (first + 2 + (len + 1))) := congrArg _ hclosed
    _ = _ := by simp only [List.append_assoc, Nat.add_assoc]

/-- A well-formed text is what its parts spell, and none of them holds a mark of its own. -/
theorem parse_sound (n : ℕ) {text : Text} (hn : text.length ≤ n) (h : (parse text).tail.isSome) :
    (parse text).spell = text ∧
      (∀ part ∈ (parse text).parts, ¬ opening <:+: part.1 ∧ ¬ closing <:+: part.2) ∧
      ∀ tail ∈ (parse text).tail, Search.find opening tail = none := by
  induction n generalizing text with
  | zero =>
    rw [List.length_eq_zero_iff.mp (Nat.le_zero.mp hn), parse_plain rfl]
    refine ⟨rfl, fun _ hpart => absurd hpart List.not_mem_nil, fun tail htail => ?_⟩
    rw [← Option.some.inj htail]
    rfl
  | succ n ih =>
    cases hopen : Search.find opening text with
    | none =>
      rw [parse_plain hopen]
      refine ⟨rfl, fun _ hpart => absurd hpart List.not_mem_nil, fun tail htail => ?_⟩
      rw [← Option.some.inj htail]
      exact hopen
    | some first =>
      cases hclose : Search.find closing (text.drop (first + 2)) with
      | none =>
        rw [parse_broken hopen hclose] at h
        cases h
      | some len =>
        have hlt : (text.drop (first + 2 + len + 1)).length < text.length :=
          drop_lt hopen (Nat.succ_pos _)
        rw [parse_ref hopen hclose] at h ⊢
        obtain ⟨hspell, hparts, htail⟩ := ih (by omega) h
        refine ⟨?_, fun part hpart => ?_, htail⟩
        · conv_rhs => rw [text_eq_of_find hopen hclose, ← hspell]
          simp only [Parsed.spell, List.flatMap_cons, List.append_assoc]
        · rcases List.mem_cons.mp hpart with rfl | hpart
          · exact ⟨Search.not_infix_take_of_find hopen (List.cons_ne_nil _ _),
              Search.not_infix_take_of_find hclose (List.cons_ne_nil _ _)⟩
          · exact hparts part hpart

end Parse

section Interpolate

variable {recurse : Text → Run Text} {text : Text} {depth i : ℕ} {out : Text}

theorem findFrom_of_find {pat : Text} {k : ℕ} (h : Search.find pat (text.drop i) = some k) :
    findFrom pat text i = some (i + k) := congrArg _ h

theorem findFrom_none {pat : Text} (h : Search.find pat (text.drop i) = none) :
    findFrom pat text i = none := congrArg _ h

theorem interpolateFrom_end (h : text.length ≤ i) :
    interpolateFrom recurse text depth i out = pure out := by
  rw [interpolateFrom, dif_neg (by omega)]

theorem interpolateFrom_plain (hi : i < text.length)
    (h : Search.find opening (text.drop i) = none) :
    interpolateFrom recurse text depth i out = pure (out ++ text.drop i) := by
  rw [interpolateFrom, dif_pos hi]
  split
  · rfl
  · next heq => rw [findFrom_none h] at heq; cases heq

theorem interpolateFrom_broken (hi : i < text.length) {k : ℕ}
    (h : Search.find opening (text.drop i) = some k)
    (hclose : Search.find closing (text.drop (i + k + 2)) = none) :
    interpolateFrom recurse text depth i out = ejectWith .malformed text depth := by
  rw [interpolateFrom, dif_pos hi]
  split
  · next heq => rw [findFrom_of_find h] at heq; cases heq
  · next first heq =>
    have hfirst := Option.some.inj ((findFrom_of_find h).symm.trans heq)
    subst hfirst
    simp only
    split
    · rfl
    · next heq' => rw [findFrom_none hclose] at heq'; cases heq'

theorem interpolateFrom_ref (hi : i < text.length) {k len : ℕ}
    (h : Search.find opening (text.drop i) = some k)
    (hclose : Search.find closing (text.drop (i + k + 2)) = some len) :
    interpolateFrom recurse text depth i out =
      (do
        let value ← recurse (substr text (i + k + 2) len)
        interpolateFrom recurse text depth (i + k + 2 + len + 1)
          (out ++ substr text i k ++ value)) := by
  rw [interpolateFrom, dif_pos hi]
  split
  · next heq => rw [findFrom_of_find h] at heq; cases heq
  · next first heq =>
    have hfirst := Option.some.inj ((findFrom_of_find h).symm.trans heq)
    subst hfirst
    simp only
    split
    · next heq' => rw [findFrom_of_find hclose] at heq'; cases heq'
    · next close heq' =>
      have hlast := Option.some.inj ((findFrom_of_find hclose).symm.trans heq')
      subst hlast
      rw [Nat.add_sub_cancel_left, Nat.add_sub_cancel_left]

theorem settle_bind {m : Run Text} {f : Text → Run Text} {a : Except Refusal Text}
    {b : Text → Except Refusal Text} {s : Resolver} (hm : m s = settle a s)
    (hf : ∀ v, f v s = settle (b v) s) : (m >>= f) s = settle (a >>= b) s := by
  show Comp.bind m f s = _
  unfold Comp.bind
  rw [hm]
  cases a with
  | ok v => exact hf v
  | error r => rfl

theorem judgeParts_append {below : Text → Except Refusal Text} {broken : Refusal} {out : Text}
    (part : Text × Text) (parts : List (Text × Text)) (tail : Option Text) :
    (out ++ ·) <$> judgeParts below broken (part :: parts) tail =
      (do
        let value ← below part.2
        (out ++ part.1 ++ value ++ ·) <$> judgeParts below broken parts tail) := by
  rw [judgeParts]
  cases below part.2 with
  | error r => rfl
  | ok value =>
    cases judgeParts below broken parts tail with
    | error r => rfl
    | ok rest =>
      show Except.ok _ = Except.ok _
      simp only [List.append_assoc]

theorem interpolateFrom_eq_end {below : Text → Except Refusal Text} {broken : Refusal}
    {s : Resolver} (h : text.length ≤ i) :
    interpolateFrom recurse text depth i out s =
      settle ((out ++ ·) <$> judgeParts below broken (parse (text.drop i)).parts
        (parse (text.drop i)).tail) s := by
  rw [interpolateFrom_end h, List.drop_eq_nil_of_le h, parse_plain rfl]
  exact congrArg (fun v => (Outcome.ok v, s)) (List.append_nil out).symm

/-- The loop reaches the verdict on what is left of the text. -/
theorem interpolateFrom_eq {below : Text → Except Refusal Text} {s : Resolver}
    (hrec : ∀ ref, recurse ref s = settle (below ref) s) (n : ℕ) {i : ℕ} (hn : text.length - i ≤ n)
    (out : Text) :
    interpolateFrom recurse text depth i out s =
      settle ((out ++ ·) <$> judgeParts below ⟨.malformed, depth, text⟩ (parse (text.drop i)).parts
        (parse (text.drop i)).tail) s := by
  induction n generalizing i out with
  | zero => exact interpolateFrom_eq_end (by omega)
  | succ n ih =>
    by_cases hi : i < text.length
    · cases hopen : Search.find opening (text.drop i) with
      | none =>
        rw [interpolateFrom_plain hi hopen, parse_plain hopen]
        rfl
      | some k =>
        have hdrop : (text.drop i).drop (k + 2) = text.drop (i + k + 2) := by
          rw [List.drop_drop, Nat.add_assoc]
        cases hclose : Search.find closing (text.drop (i + k + 2)) with
        | none =>
          rw [interpolateFrom_broken hi hopen hclose, parse_broken hopen (hdrop ▸ hclose)]
          rfl
        | some len =>
          have hrest : (text.drop i).drop (k + 2 + len + 1) = text.drop (i + k + 2 + len + 1) := by
            rw [List.drop_drop]
            congr 1
            omega
          rw [interpolateFrom_ref hi hopen hclose, parse_ref hopen (hdrop ▸ hclose), hdrop, hrest,
            judgeParts_append]
          apply settle_bind (hrec _)
          intro value
          exact ih (by omega) _
    · exact interpolateFrom_eq_end (by omega)

theorem interpolate_eq {below : Text → Except Refusal Text} {s : Resolver}
    (hrec : ∀ ref, recurse ref s = settle (below ref) s) :
    interpolate recurse text depth s =
      settle (judgeParts below ⟨.malformed, depth, text⟩ (parse text).parts (parse text).tail) s := by
  have hloop := @interpolateFrom_eq recurse text depth below s hrec text.length 0 (Nat.sub_le _ _) []
  rw [List.drop_zero] at hloop
  have hid : (fun v : Text => [] ++ v) = id := rfl
  rw [hid, id_map] at hloop
  exact hloop

end Interpolate

section Resolve

variable {path : List Text} {key : Text} {s : Resolver}

theorem cleanup_settle {m : Run Text} {c : Resolver → Resolver} {verdict : Except Refusal Text}
    {s t : Resolver} (hm : m t = settle verdict t) (hc : c t = s)
    (herror : ∀ r, c (settle (.error r) t).2 = (settle (.error r) s).2) :
    cleanup m (modify c) t = settle verdict s := by
  unfold cleanup
  rw [hm]
  cases verdict with
  | ok v =>
    show (Outcome.ok v, c t) = _
    rw [hc]
    rfl
  | error r =>
    show (Outcome.thrown, c (settle (.error r) t).2) = _
    rw [herror]
    rfl

/-- Resolving below the keys on `path` carries out the verdict, and takes the marks it made with
it whichever way it ends. -/
theorem resolve_eq (n : ℕ) (hn : maxDepth + 1 - path.length ≤ n)
    (hs : s.resolving = path.toFinset) :
    resolve values key path.length s = settle (judge values path key) s := by
  induction n generalizing path key s with
  | zero =>
    rw [resolve, judge, dif_pos (by omega), dif_pos (by omega)]
    rfl
  | succ n ih =>
    rw [resolve, judge]
    by_cases hdeep : path.length > maxDepth
    · rw [dif_pos hdeep, dif_pos hdeep]
      rfl
    rw [dif_neg hdeep, dif_neg hdeep]
    have hmem : key ∈ s.resolving ↔ key ∈ path := by rw [hs, List.mem_toFinset]
    show (onlyIf (key ∈ s.resolving) (ejectWith .cycle key path.length) >>= fun _ => _) s = _
    by_cases hcycle : key ∈ path
    · rw [if_pos hcycle, onlyIf, if_pos (hmem.mpr hcycle)]
      rfl
    rw [if_neg hcycle, onlyIf, if_neg (mt hmem.mp hcycle)]
    have hmarked : insert key s.resolving = (path ++ [key]).toFinset := by
      ext k
      simp only [hs, Finset.mem_insert, List.mem_toFinset, List.mem_append, List.mem_singleton]
      exact or_comm
    have hrec : ∀ ref, resolve values ref (path.length + 1)
        { s with resolving := insert key s.resolving } =
          settle (judge values (path ++ [key]) ref) { s with resolving := insert key s.resolving } := by
      intro ref
      have hlen : (path ++ [key]).length = path.length + 1 := by
        rw [List.length_append, List.length_singleton]
      rw [← hlen]
      exact ih (by omega) hmarked
    apply cleanup_settle (t := { s with resolving := insert key s.resolving })
    · cases values key with
      | none => rfl
      | some raw => exact interpolate_eq hrec
    · simp only [Finset.erase_insert (mt hmem.mp hcycle)]
    · intro r
      simp only [settle, Finset.erase_insert (mt hmem.mp hcycle)]

/-- What `resolve_key` returns for a verdict, and the resolver it leaves. -/
def answer (verdict : Except Refusal Text) (s : Resolver) :
    Except (Kind × ℕ) Text × Resolver :=
  match verdict with
  | .ok v => (.ok v, { s with payload := none })
  | .error r => (.error (r.kind, r.depth), { s with errorKey := r.key, payload := some (r.kind, r.depth) })

theorem resolveKey_eq (hs : s.resolving = ∅) :
    resolveKey values key s =
      (.ok (answer (judge values [] key) s).1, (answer (judge values [] key) s).2) := by
  have hrun : resolve values key 0 { s with payload := none } =
      settle (judge values [] key) { s with payload := none } :=
    @resolve_eq values [] key { s with payload := none } (maxDepth + 1) (Nat.le_refl _) hs
  unfold resolveKey escapeScope
  rw [hrun]
  cases judge values [] key with
  | ok v => rfl
  | error r => rfl

theorem answer_resolving (verdict : Except Refusal Text) (s : Resolver) :
    (answer verdict s).2.resolving = s.resolving := by
  cases verdict with
  | ok v => rfl
  | error r => rfl

theorem answer_fresh (verdict : Except Refusal Text) (s : Resolver) :
    (answer verdict s).1 = (answer verdict .fresh).1 := by
  cases verdict with
  | ok v => rfl
  | error r => rfl

/-- No call leaves a mark. -/
theorem resolverAfter_eq (values : Text → Option Text) (history : List Text) :
    ∃ s, resolverAfter values history = some s ∧ s.resolving = ∅ := by
  induction history with
  | nil => exact ⟨.fresh, rfl, rfl⟩
  | cons key earlier ih =>
    obtain ⟨s, hafter, hs⟩ := ih
    refine ⟨(answer (judge values [] key) s).2, ?_, (answer_resolving _ s).trans hs⟩
    rw [resolverAfter, hafter]
    simp only [Option.bind_eq_bind, Option.bind_some, resolveKey_eq hs]

end Resolve

section Chains

variable (values)

def References (key ref : Text) : Prop := ∃ raw, values key = some raw ∧ ref ∈ (parse raw).refs

structure Leads (key : Text) (chain : List Text) : Prop where
  first : chain.head? = some key
  links : chain.IsChain (References values)

/-- Every chain of references from `key` is well formed, acyclic, present and short enough. -/
structure Sound (key : Text) : Prop where
  wellFormed : ∀ chain, Leads values key chain → ∀ k ∈ chain, ∀ raw, values k = some raw →
    (parse raw).tail.isSome
  acyclic : ∀ chain, Leads values key chain → chain.Nodup
  present : ∀ chain, Leads values key chain → ∀ k ∈ chain, (values k).isSome
  shallow : ∀ chain, Leads values key chain → chain.length ≤ maxDepth + 1

/-- The same of the chains that go on from the keys on `path`. -/
structure SoundBelow (path : List Text) (key : Text) : Prop where
  present : ∀ chain, Leads values key chain → ∀ k ∈ chain,
    ∃ raw, values k = some raw ∧ (parse raw).tail.isSome
  acyclic : ∀ chain, Leads values key chain → (path ++ chain).Nodup
  shallow : ∀ chain, Leads values key chain → path.length + chain.length ≤ maxDepth + 1

/-- The text of `key` with each reference replaced by the text that resolves to. -/
inductive Resolves : Text → Text → Prop
  | intro {key raw : Text} (value : Text → Text) (hraw : values key = some raw)
      (htail : (parse raw).tail.isSome)
      (hvalue : ∀ ref ∈ (parse raw).refs, Resolves ref (value ref)) :
      Resolves key ((parse raw).fill value)

variable {values} {path : List Text} {key : Text}

theorem Leads.single (values : Text → Option Text) (key : Text) : Leads values key [key] :=
  ⟨rfl, List.IsChain.singleton key⟩

theorem Leads.cons {ref : Text} {chain : List Text} (h : Leads values ref chain)
    (href : References values key ref) : Leads values key (key :: chain) := by
  obtain ⟨rest, rfl⟩ := List.head?_eq_some_iff.mp h.first
  exact ⟨rfl, List.isChain_cons_cons.mpr ⟨href, h.links⟩⟩

theorem SoundBelow.step {raw ref : Text} (h : SoundBelow values path key)
    (hraw : values key = some raw) (href : ref ∈ (parse raw).refs) :
    SoundBelow values (path ++ [key]) ref := by
  have hkey : References values key ref := ⟨raw, hraw, href⟩
  refine ⟨fun chain hchain k hk => ?_, fun chain hchain => ?_, fun chain hchain => ?_⟩
  · exact h.present _ (hchain.cons hkey) k (List.mem_cons_of_mem key hk)
  · have hnodup := h.acyclic _ (hchain.cons hkey)
    rwa [List.append_assoc, List.singleton_append]
  · have hshort := h.shallow _ (hchain.cons hkey)
    rw [List.length_cons] at hshort
    rw [List.length_append, List.length_singleton]
    omega

/-- A chain from `key` is `key` alone, or goes on with one from what it references. -/
theorem Leads.cases {chain : List Text} (h : Leads values key chain) :
    chain = [key] ∨ ∃ ref rest, chain = key :: rest ∧ References values key ref ∧
      Leads values ref rest := by
  obtain ⟨rest, rfl⟩ := List.head?_eq_some_iff.mp h.first
  cases rest with
  | nil => exact .inl rfl
  | cons ref rest =>
    have hlinks := List.isChain_cons_cons.mp h.links
    exact .inr ⟨ref, ref :: rest, rfl, hlinks.1, rfl, hlinks.2⟩

theorem SoundBelow.of_refs {raw : Text} (hdeep : path.length ≤ maxDepth)
    (hnodup : (path ++ [key]).Nodup) (hraw : values key = some raw)
    (htail : (parse raw).tail.isSome)
    (hrefs : ∀ ref ∈ (parse raw).refs, SoundBelow values (path ++ [key]) ref) :
    SoundBelow values path key := by
  have hbelow : ∀ ref, References values key ref → SoundBelow values (path ++ [key]) ref := by
    intro ref href
    obtain ⟨raw', hraw', hmem⟩ := href
    rw [hraw, Option.some_inj] at hraw'
    subst hraw'
    exact hrefs ref hmem
  refine ⟨fun chain hchain k hk => ?_, fun chain hchain => ?_, fun chain hchain => ?_⟩
  · rcases hchain.cases with rfl | ⟨ref, rest, rfl, href, hrest⟩
    · rw [List.mem_singleton.mp hk]
      exact ⟨raw, hraw, htail⟩
    · rcases List.mem_cons.mp hk with rfl | hk
      · exact ⟨raw, hraw, htail⟩
      · exact (hbelow ref href).present rest hrest k hk
  · rcases hchain.cases with rfl | ⟨ref, rest, rfl, href, hrest⟩
    · exact hnodup
    · have hbelowNodup := (hbelow ref href).acyclic rest hrest
      rwa [List.append_assoc, List.singleton_append] at hbelowNodup
  · rcases hchain.cases with rfl | ⟨ref, rest, rfl, href, hrest⟩
    · exact Nat.succ_le_succ hdeep
    · have hshort := (hbelow ref href).shallow rest hrest
      rw [List.length_append, List.length_singleton] at hshort
      rw [List.length_cons]
      omega

theorem soundBelow_nil : SoundBelow values [] key ↔ Sound values key := by
  constructor
  · intro h
    refine ⟨fun chain hchain k hk raw hraw => ?_, h.acyclic, fun chain hchain k hk => ?_,
      fun chain hchain => ?_⟩
    · obtain ⟨raw', hraw', htail⟩ := h.present chain hchain k hk
      rw [hraw, Option.some_inj] at hraw'
      exact hraw' ▸ htail
    · obtain ⟨raw, hraw, _⟩ := h.present chain hchain k hk
      rw [hraw]
      rfl
    · have hshort := h.shallow chain hchain
      rwa [List.length_nil, Nat.zero_add] at hshort
  · intro h
    refine ⟨fun chain hchain k hk => ?_, h.acyclic, fun chain hchain => ?_⟩
    · obtain ⟨raw, hraw⟩ := Option.isSome_iff_exists.mp (h.present chain hchain k hk)
      exact ⟨raw, hraw, h.wellFormed chain hchain k hk raw hraw⟩
    · rw [List.length_nil, Nat.zero_add]
      exact h.shallow chain hchain

end Chains

section Verdicts

variable {below : Text → Except Refusal Text} {broken : Refusal} {parts : List (Text × Text)}
  {path : List Text} {key v : Text}

theorem judgeParts_fill {value : Text → Text} {tail : Text}
    (h : ∀ ref ∈ parts.map Prod.snd, below ref = .ok (value ref)) :
    judgeParts below broken parts (some tail) =
      .ok ((parts.flatMap fun part => part.1 ++ value part.2) ++ tail) := by
  induction parts with
  | nil => rfl
  | cons part parts ih =>
    rw [List.map_cons, List.forall_mem_cons] at h
    rw [judgeParts, h.1, ih h.2, List.flatMap_cons, List.append_assoc]
    rfl

theorem judgeParts_ok {tail : Option Text} (h : judgeParts below broken parts tail = .ok v) :
    tail.isSome ∧ ∀ ref ∈ parts.map Prod.snd, ∃ w, below ref = .ok w := by
  induction parts generalizing v with
  | nil =>
    cases tail with
    | none => cases h
    | some tail => exact ⟨rfl, fun _ href => absurd href List.not_mem_nil⟩
  | cons part parts ih =>
    rw [judgeParts] at h
    cases hpart : below part.2 with
    | error r =>
      rw [hpart] at h
      cases h
    | ok w =>
      rw [hpart] at h
      cases hrest : judgeParts below broken parts tail with
      | error r =>
        rw [hrest] at h
        cases h
      | ok u =>
        obtain ⟨htail, hrefs⟩ := ih hrest
        refine ⟨htail, ?_⟩
        rw [List.map_cons, List.forall_mem_cons]
        exact ⟨⟨w, hpart⟩, hrefs⟩

/-- A key is accepted, below the keys on `path`, exactly when it is sound there. -/
theorem judge_ok (n : ℕ) (hn : maxDepth + 1 - path.length ≤ n) (hpath : path.Nodup) :
    judge values path key = .ok v ↔ SoundBelow values path key ∧ Resolves values key v := by
  induction n generalizing path key v with
  | zero =>
    rw [judge, dif_pos (by omega)]
    refine ⟨fun h => (by cases h), fun h => ?_⟩
    have hshort := h.1.shallow [key] (Leads.single values key)
    rw [List.length_singleton] at hshort
    omega
  | succ n ih =>
    rw [judge]
    by_cases hdeep : path.length > maxDepth
    · rw [dif_pos hdeep]
      refine ⟨fun h => (by cases h), fun h => ?_⟩
      have hshort := h.1.shallow [key] (Leads.single values key)
      rw [List.length_singleton] at hshort
      omega
    rw [dif_neg hdeep]
    by_cases hcycle : key ∈ path
    · rw [if_pos hcycle]
      refine ⟨fun h => (by cases h), fun h => ?_⟩
      have hnodup := h.1.acyclic [key] (Leads.single values key)
      exact absurd rfl ((List.nodup_append.mp hnodup).2.2 key hcycle key List.mem_cons_self)
    rw [if_neg hcycle]
    have hnodup : (path ++ [key]).Nodup := by
      apply List.nodup_append.mpr
      refine ⟨hpath, List.nodup_singleton key, fun a ha b hb => ?_⟩
      rw [List.mem_singleton.mp hb]
      exact fun heq => hcycle (heq ▸ ha)
    have hbelow : ∀ ref w, judge values (path ++ [key]) ref = .ok w ↔
        SoundBelow values (path ++ [key]) ref ∧ Resolves values ref w := by
      intro ref w
      apply ih _ hnodup
      rw [List.length_append, List.length_singleton]
      omega
    cases hraw : values key with
    | none =>
      refine ⟨fun h => (by cases h), fun h => ?_⟩
      obtain ⟨raw, hsome, _⟩ := h.1.present [key] (Leads.single values key) key List.mem_cons_self
      rw [hraw] at hsome
      cases hsome
    | some raw =>
      simp only
      constructor
      · intro h
        obtain ⟨htail, hrefs⟩ := judgeParts_ok h
        choose! value hvalue using hrefs
        have hall : ∀ ref ∈ (parse raw).refs,
            SoundBelow values (path ++ [key]) ref ∧ Resolves values ref (value ref) :=
          fun ref href => (hbelow ref _).mp (hvalue ref href)
        have hsound := SoundBelow.of_refs (Nat.not_lt.mp hdeep) hnodup hraw htail
          fun ref href => (hall ref href).1
        refine ⟨hsound, ?_⟩
        obtain ⟨tail, htail'⟩ := Option.isSome_iff_exists.mp htail
        rw [htail', judgeParts_fill hvalue] at h
        have hfill : v = (parse raw).fill value := by
          rw [Parsed.fill, htail']
          exact (Except.ok.inj h).symm
        rw [hfill]
        exact Resolves.intro value hraw htail fun ref href => (hall ref href).2
      · intro h
        obtain ⟨hsound, hres⟩ := h
        cases hres with
        | intro value hraw' htail hvalue =>
          rw [hraw, Option.some_inj] at hraw'
          subst hraw'
          obtain ⟨tail, htail'⟩ := Option.isSome_iff_exists.mp htail
          have hall : ∀ ref ∈ (parse raw).refs,
              judge values (path ++ [key]) ref = .ok (value ref) :=
            fun ref href => (hbelow ref _).mpr ⟨hsound.step hraw href, hvalue ref href⟩
          rw [htail', judgeParts_fill hall, Parsed.fill, htail']
          rfl

/-- A sound key has a text it resolves to. -/
theorem SoundBelow.resolves (n : ℕ) (hn : maxDepth + 1 - path.length ≤ n)
    (h : SoundBelow values path key) : ∃ v, Resolves values key v := by
  have hshort := h.shallow [key] (Leads.single values key)
  rw [List.length_singleton] at hshort
  induction n generalizing path key with
  | zero => omega
  | succ n ih =>
    obtain ⟨raw, hraw, htail⟩ :=
      h.present [key] (Leads.single values key) key List.mem_cons_self
    have hrefs : ∀ ref ∈ (parse raw).refs, ∃ w, Resolves values ref w := by
      intro ref href
      have hstep := h.step hraw href
      have hlen : (path ++ [key]).length = path.length + 1 := by
        rw [List.length_append, List.length_singleton]
      have hshort' := hstep.shallow [ref] (Leads.single values ref)
      rw [List.length_singleton] at hshort'
      exact ih (by omega) hstep hshort'
    choose! value hvalue using hrefs
    exact ⟨_, Resolves.intro value hraw htail hvalue⟩

theorem Resolves.unique {w : Text} (h : Resolves values key v) (h' : Resolves values key w) :
    v = w := by
  induction h generalizing w with
  | intro value hraw htail hvalue ih =>
    cases h' with
    | intro value' hraw' htail' hvalue' =>
      rw [hraw, Option.some_inj] at hraw'
      subst hraw'
      unfold Parsed.fill
      congr 1
      apply List.flatMap_congr
      intro part hpart
      have hmem := List.mem_map_of_mem (f := Prod.snd) hpart
      rw [ih _ hmem (hvalue' _ hmem)]

/-- A resolver that has been used like one that has not: it ends without a mark, and succeeds on
exactly the sound keys, with the text they resolve to. -/
theorem resolve_key_iff (values : Text → Option Text) (history : List Text) :
    ∃ s, resolverAfter values history = some s ∧ s.resolving = ∅ ∧
      ∀ key, ∃ outcome s', resolveKey values key s = (.ok outcome, s') ∧ s'.resolving = ∅ ∧
        (resolveKey values key .fresh).1 = .ok outcome ∧
        ((∃ v, outcome = .ok v) ↔ Sound values key) ∧
        ∀ v, outcome = .ok v ↔ Sound values key ∧ Resolves values key v := by
  obtain ⟨s, hafter, hs⟩ := resolverAfter_eq values history
  refine ⟨s, hafter, hs, fun key => ?_⟩
  have hok : ∀ v, (answer (judge values [] key) s).1 = .ok v ↔
      Sound values key ∧ Resolves values key v := by
    intro v
    rw [← soundBelow_nil, ← judge_ok (maxDepth + 1) (Nat.le_refl _) List.nodup_nil]
    cases judge values [] key with
    | ok w =>
      constructor <;> intro h <;> exact congrArg Except.ok (Except.ok.inj h)
    | error r => exact ⟨fun h => (by cases h), fun h => (by cases h)⟩
  refine ⟨_, _, resolveKey_eq hs, (answer_resolving _ s).trans hs, ?_, ?_, hok⟩
  · rw [resolveKey_eq rfl, answer_fresh _ s]
  · constructor
    · intro h
      obtain ⟨v, hv⟩ := h
      exact ((hok v).mp hv).1
    · intro h
      obtain ⟨v, hv⟩ := (soundBelow_nil.mpr h).resolves (maxDepth + 1) (Nat.le_refl _)
      exact ⟨v, (hok v).mpr ⟨h, hv⟩⟩

def sample : Text → Option Text
  | [97] => some [120, 36, 123, 98, 125, 121]
  | [98] => some [36]
  | [99] => some [36, 123, 99, 125]
  | _ => none

example : (resolveKey sample [97] .fresh).1 = .ok (.ok [120, 36, 121]) := by decide +kernel

example : (resolveKey sample [99] .fresh).1 = .ok (.error (.cycle, 1)) := by decide +kernel

end Verdicts

end Jmpxx.Resolve
