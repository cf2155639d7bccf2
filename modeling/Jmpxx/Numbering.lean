import Mathlib.Data.List.Nodup
import Mathlib.Data.Set.Function

namespace Numbering

variable {γ α : Type*} [DecidableEq α]

/-- The names met so far, once `x` is met too. -/
def meet (seen : List α) (x : α) : List α := if x ∈ seen then seen else seen ++ [x]

/-- The number of `x`: its place among the names met, or the next one. -/
def place (seen : List α) (x : α) : ℕ := seen.idxOf x

def number : List α → List (γ ⊕ α) → List (γ ⊕ ℕ)
  | _, [] => []
  | seen, .inl c :: l => .inl c :: number seen l
  | seen, .inr x :: l => .inr (place seen x) :: number (meet seen x) l

def gather : List α → List (γ ⊕ α) → List α
  | seen, [] => seen
  | seen, .inl _ :: l => gather seen l
  | seen, .inr x :: l => gather (meet seen x) l

variable {seen seen' : List α} {l l' : List (γ ⊕ α)} {x x' : α}

theorem prefix_meet (seen : List α) (x : α) : seen <+: meet seen x := by
  unfold meet
  split_ifs
  · exact List.prefix_rfl
  · exact List.prefix_append seen [x]

theorem mem_meet (seen : List α) (x : α) : x ∈ meet seen x := by
  unfold meet
  split_ifs with h
  · exact h
  · exact List.mem_append_right seen List.mem_cons_self

theorem nodup_meet (h : seen.Nodup) (x : α) : (meet seen x).Nodup := by
  unfold meet
  split_ifs with hx
  · exact h
  · rw [← List.concat_eq_append]
    exact h.concat hx

theorem idxOf_meet (seen : List α) (x : α) : (meet seen x).idxOf x = seen.idxOf x := by
  unfold meet
  split_ifs with h
  · rfl
  · rw [List.idxOf_append, if_neg h, List.idxOf_cons_self, List.idxOf_eq_length h, Nat.zero_add]

theorem place_append_of_mem (h : x ∈ seen) (rest : List α) :
    place (seen ++ rest) x = place seen x := List.idxOf_append_of_mem h

theorem place_of_not_mem (h : x ∉ seen) : place seen x = seen.length := List.idxOf_eq_length h

theorem place_concat (h : x ∉ seen) : place (seen ++ [x]) x = seen.length := by
  rw [place, List.idxOf_append, if_neg h, List.idxOf_cons_self, Nat.zero_add]

theorem prefix_gather (l : List (γ ⊕ α)) : seen <+: gather seen l := by
  induction l generalizing seen with
  | nil => exact List.prefix_rfl
  | cons p l ih =>
    cases p with
    | inl c => exact ih
    | inr x => exact (prefix_meet seen x).trans ih

theorem nodup_gather (h : seen.Nodup) (l : List (γ ⊕ α)) : (gather seen l).Nodup := by
  induction l generalizing seen with
  | nil => exact h
  | cons p l ih =>
    cases p with
    | inl c => exact ih h
    | inr x => exact ih (nodup_meet h x)

theorem mem_gather (h : .inr x ∈ l) : x ∈ gather seen l := by
  induction l generalizing seen with
  | nil => cases h
  | cons p l ih =>
    rcases List.mem_cons.mp h with rfl | hmem
    · exact (prefix_gather l).subset (mem_meet seen x)
    · cases p with
      | inl c => exact ih hmem
      | inr y => exact ih hmem

theorem idxOf_eq_of_isPrefix (h : seen <+: seen') (hx : x ∈ seen) : seen'.idxOf x = seen.idxOf x := by
  obtain ⟨rest, rfl⟩ := h
  exact List.idxOf_append_of_mem hx

theorem length_meet_eq (hlen : seen.length = seen'.length) (h : seen.idxOf x = seen'.idxOf x') :
    (meet seen x).length = (meet seen' x').length := by
  have hmem : x ∈ seen ↔ x' ∈ seen' := by
    rw [← List.idxOf_lt_length_iff, ← List.idxOf_lt_length_iff, h, hlen]
  unfold meet
  by_cases hx : x ∈ seen
  · rw [if_pos hx, if_pos (hmem.mp hx), hlen]
  · rw [if_neg hx, if_neg (mt hmem.mpr hx), List.length_append, List.length_append, hlen]
    rfl

/-- What the names of one list become in the other: those of the same number. -/
def match_ (names names' : List α) (x : α) : α := (names'[names.idxOf x]?).getD x

theorem match_gather (h : seen.idxOf x = seen'.idxOf x') :
    match_ (gather (meet seen x) l) (gather (meet seen' x') l') x = x' := by
  have hx : (gather (meet seen x) l).idxOf x = seen.idxOf x := by
    rw [idxOf_eq_of_isPrefix (prefix_gather l) (mem_meet seen x), idxOf_meet]
  have hx' : (gather (meet seen' x') l').idxOf x' = seen'.idxOf x' := by
    rw [idxOf_eq_of_isPrefix (prefix_gather l') (mem_meet seen' x'), idxOf_meet]
  have hmem : x' ∈ gather (meet seen' x') l' := (prefix_gather l').subset (mem_meet seen' x')
  rw [match_, hx, h, ← hx', List.getElem?_idxOf hmem]
  rfl

theorem map_match_of_number_eq (hlen : seen.length = seen'.length)
    (h : number seen l = number seen' l') :
    (gather seen l).length = (gather seen' l').length ∧
      l' = l.map (Sum.map id (match_ (gather seen l) (gather seen' l'))) := by
  induction l generalizing seen seen' l' with
  | nil =>
    cases l' with
    | nil => exact ⟨hlen, rfl⟩
    | cons p l' => cases p <;> cases h
  | cons p l ih =>
    cases l' with
    | nil => cases p <;> cases h
    | cons p' l' =>
      cases p with
      | inl c =>
        cases p' with
        | inr x' => cases h
        | inl c' =>
          obtain ⟨hc, htail⟩ := List.cons.inj h
          obtain ⟨hlength, hmap⟩ := ih hlen htail
          refine ⟨hlength, ?_⟩
          rw [← Sum.inl.inj hc]
          exact congrArg _ hmap
      | inr x =>
        cases p' with
        | inl c' => cases h
        | inr x' =>
          obtain ⟨hx, htail⟩ := List.cons.inj h
          have hidx := Sum.inr.inj hx
          -- equal numbers: either both names are new or both stand at one place already
          obtain ⟨hlength, hmap⟩ := ih (length_meet_eq hlen hidx) htail
          refine ⟨hlength, ?_⟩
          have hhead := @match_gather _ _ _ seen seen' l l' x x' hidx
          rw [List.map_cons]
          exact congrArg₂ _ (congrArg Sum.inr hhead.symm) hmap

theorem injOn_match (hnodup : seen'.Nodup) (hlen : seen.length = seen'.length) :
    Set.InjOn (match_ seen seen') {x | x ∈ seen} := by
  intro x hx y hy h
  have hget : ∀ z ∈ seen, ∃ hz : seen.idxOf z < seen'.length,
      match_ seen seen' z = seen'[seen.idxOf z] := by
    intro z hz
    have hlt : seen.idxOf z < seen'.length := hlen ▸ List.idxOf_lt_length_iff.mpr hz
    exact ⟨hlt, by rw [match_, List.getElem?_eq_getElem hlt, Option.getD_some]⟩
  obtain ⟨hlt, hgetx⟩ := hget x hx
  obtain ⟨hlt', hgety⟩ := hget y hy
  rw [hgetx, hgety, hnodup.getElem_inj_iff] at h
  exact (List.idxOf_inj hx).mp h

theorem idxOf_map {f : α → α} (hf : Set.InjOn f {y | y ∈ seen ∨ y = x}) :
    (seen.map f).idxOf (f x) = seen.idxOf x := by
  induction seen with
  | nil => rfl
  | cons y seen ih =>
    have htail := ih (hf.mono fun z hz => hz.imp_left (List.mem_cons_of_mem y))
    by_cases hy : y = x
    · rw [hy, List.map_cons, List.idxOf_cons_self, List.idxOf_cons_self]
    · have hne : f y ≠ f x := fun h => hy (hf (.inl List.mem_cons_self) (.inr rfl) h)
      rw [List.map_cons, List.idxOf_cons_ne _ hne, List.idxOf_cons_ne _ hy, htail]

theorem meet_map {f : α → α} (hf : Set.InjOn f {y | y ∈ seen ∨ y = x}) :
    meet (seen.map f) (f x) = (meet seen x).map f := by
  have hmem : f x ∈ seen.map f ↔ x ∈ seen := by
    rw [← List.idxOf_lt_length_iff, ← List.idxOf_lt_length_iff, idxOf_map hf, List.length_map]
  unfold meet
  by_cases hx : x ∈ seen
  · rw [if_pos hx, if_pos (hmem.mpr hx)]
  · rw [if_neg hx, if_neg (mt hmem.mp hx), List.map_append, List.map_singleton]

/-- Renaming without confusing two names does not change a number. -/
theorem number_map {f : α → α} (hf : Set.InjOn f {y | y ∈ seen ∨ .inr y ∈ l}) :
    number (seen.map f) (l.map (Sum.map id f)) = number seen l := by
  induction l generalizing seen with
  | nil => rfl
  | cons p l ih =>
    cases p with
    | inl c =>
      have htail := ih (hf.mono fun z hz => hz.imp_right (List.mem_cons_of_mem (Sum.inl c)))
      exact congrArg _ htail
    | inr x =>
      have hhead : Set.InjOn f {y | y ∈ seen ∨ y = x} := hf.mono fun z hz =>
        hz.imp_right fun h => h ▸ List.mem_cons_self
      -- the names met from here on are among those `f` is injective on
      have htail : number ((meet seen x).map f) (l.map (Sum.map id f)) = number (meet seen x) l := by
        apply ih
        refine hf.mono fun z hz => ?_
        rcases hz with hz | hz
        · unfold meet at hz
          split_ifs at hz
          · exact .inl hz
          · rcases List.mem_append.mp hz with hz | hz
            · exact .inl hz
            · exact .inr (List.mem_singleton.mp hz ▸ List.mem_cons_self)
        · exact .inr (List.mem_cons_of_mem _ hz)
      show Sum.inr _ :: number (meet (seen.map f) (f x)) _ = _
      rw [place, idxOf_map hhead, meet_map hhead, htail]
      rfl

theorem number_eq_iff :
    number [] l = number [] l' ↔
      ∃ f : α → α, Set.InjOn f {x | .inr x ∈ l} ∧ l' = l.map (Sum.map id f) := by
  constructor
  · intro h
    obtain ⟨hlen, hmap⟩ := map_match_of_number_eq rfl h
    refine ⟨_, ?_, hmap⟩
    exact (injOn_match (nodup_gather List.nodup_nil l') hlen).mono fun x hx => mem_gather hx
  · intro h
    obtain ⟨f, hf, rfl⟩ := h
    have hnames : Set.InjOn f {y | y ∈ ([] : List α) ∨ .inr y ∈ l} :=
      hf.mono fun y hy => hy.resolve_left List.not_mem_nil
    exact (number_map hnames).symm

end Numbering
