import Mathlib.Data.List.Infix
import Mathlib.Data.List.TakeWhile

namespace Lines

variable {α : Type*} [DecidableEq α]

def line (sep : α) (s : List α) : List α := s.takeWhile (· ≠ sep)

def after (sep : α) (s : List α) : List α := (s.dropWhile (· ≠ sep)).tail

theorem length_after (sep : α) {s : List α} (h : s ≠ []) : (after sep s).length < s.length := by
  have hle := (List.dropWhile_suffix (l := s) (· ≠ sep)).length_le
  have hpos := List.length_pos_iff.mpr h
  rw [after, List.length_tail]
  omega

def starts (sep : α) (s : List α) : List (List α) :=
  if _h : s = [] then [] else s :: starts sep (after sep s)
termination_by s.length
decreasing_by exact length_after sep _h

def lines (sep : α) (s : List α) : List (List α) := (starts sep s).map (line sep)

variable {sep : α} {s t : List α}

@[simp] theorem starts_nil (sep : α) : starts sep [] = [] := by rw [starts, dif_pos rfl]

theorem starts_of_ne_nil (h : s ≠ []) : starts sep s = s :: starts sep (after sep s) := by
  rw [starts, dif_neg h]

theorem lines_of_ne_nil (h : s ≠ []) : lines sep s = line sep s :: lines sep (after sep s) := by
  rw [lines, starts_of_ne_nil h, List.map_cons]
  rfl

theorem sep_not_mem_line (sep : α) (s : List α) : sep ∉ line sep s := fun h => by
  have hne := List.mem_takeWhile_imp h
  simp at hne

theorem line_append_sep (h : sep ∉ t) (s : List α) : line sep (t ++ sep :: s) = t := by
  have ht : ∀ c ∈ t, decide (c ≠ sep) = true := fun c hc =>
    decide_eq_true fun heq => h (heq ▸ hc)
  rw [line, List.takeWhile_append_of_pos ht]
  simp

theorem after_append_sep (h : sep ∉ t) (s : List α) : after sep (t ++ sep :: s) = s := by
  have ht : ∀ c ∈ t, decide (c ≠ sep) = true := fun c hc =>
    decide_eq_true fun heq => h (heq ▸ hc)
  rw [after, List.dropWhile_append_of_pos ht]
  simp

theorem line_of_not_mem (h : sep ∉ t) : line sep t = t :=
  List.takeWhile_eq_self_iff.mpr fun _ hc => decide_eq_true fun heq => h (heq ▸ hc)

theorem after_of_not_mem (h : sep ∉ t) : after sep t = [] := by
  have ht : ∀ c ∈ t, decide (c ≠ sep) = true := fun c hc =>
    decide_eq_true fun heq => h (heq ▸ hc)
  rw [after, List.dropWhile_eq_nil_iff.mpr ht]
  rfl

theorem prefix_line_iff {key : List α} (h : sep ∉ key) : key <+: line sep s ↔ key <+: s := by
  refine ⟨fun hp => hp.trans (List.takeWhile_prefix _), fun hp => ?_⟩
  obtain ⟨t, rfl⟩ := hp
  have hkey : ∀ c ∈ key, decide (c ≠ sep) = true := fun c hc =>
    decide_eq_true fun heq => h (heq ▸ hc)
  rw [line, List.takeWhile_append_of_pos hkey]
  exact List.prefix_append key _

/-- A text is a single line, or a line, its separator and more. -/
theorem eq_line_or (sep : α) (s : List α) :
    (sep ∉ s ∧ line sep s = s) ∨ s = line sep s ++ sep :: after sep s := by
  by_cases h : sep ∈ s
  · right
    obtain ⟨t, u, rfl, ht⟩ := List.eq_append_cons_of_mem h
    rw [line_append_sep ht, after_append_sep ht]
  · exact .inl ⟨h, line_of_not_mem h⟩

theorem lines_append_sep (h : sep ∉ t) (s : List α) :
    lines sep (t ++ sep :: s) = t :: lines sep s := by
  rw [lines_of_ne_nil (by simp), line_append_sep h, after_append_sep h]

theorem starts_of_not_mem (h : sep ∉ t) (hne : t ≠ []) : starts sep t = [t] := by
  rw [starts_of_ne_nil hne, after_of_not_mem h, starts_nil]

/-- More of the last line, if that is not ended. -/
theorem starts_append (hs : s ≠ []) (hlast : s.getLast? ≠ some sep) (ht : sep ∉ t) :
    starts sep (s ++ t) = (starts sep s).map (· ++ t) := by
  induction s using starts.induct sep with
  | case1 => exact absurd rfl hs
  | case2 s h ih =>
    rcases eq_line_or sep s with hline | hsplit
    · have hmem : sep ∉ s ++ t := fun hc => (List.mem_append.mp hc).elim hline.1 ht
      rw [starts_of_not_mem hmem (List.append_ne_nil_of_left_ne_nil hs t),
        starts_of_not_mem hline.1 hs]
      rfl
    · have hafter : after sep s ≠ [] := by
        intro hnil
        rw [hsplit, hnil] at hlast
        exact hlast List.getLast?_concat
      have hlast' : (after sep s).getLast? ≠ some sep := by
        rwa [hsplit, List.getLast?_append_cons, List.getLast?_cons_of_ne_nil hafter] at hlast
      have hmore : after sep (s ++ t) = after sep s ++ t := by
        conv_lhs => rw [hsplit, List.append_assoc, List.cons_append,
          after_append_sep (sep_not_mem_line sep s)]
      rw [starts_of_ne_nil (List.append_ne_nil_of_left_ne_nil hs t), hmore, ih hafter hlast',
        starts_of_ne_nil hs]
      rfl

/-- What is behind a separator is in lines of its own. -/
theorem starts_append_sep (sep : α) (s t : List α) :
    ∃ front, starts sep (s ++ sep :: t) = front ++ starts sep t := by
  induction s using starts.induct sep with
  | case1 =>
    refine ⟨[sep :: t], ?_⟩
    rw [List.nil_append, starts_of_ne_nil (List.cons_ne_nil sep t),
      show after sep (sep :: t) = t from after_append_sep List.not_mem_nil t]
    rfl
  | case2 s h ih =>
    have hne : s ++ sep :: t ≠ [] := List.append_ne_nil_of_left_ne_nil h _
    rcases eq_line_or sep s with hs | hs
    · refine ⟨[s ++ sep :: t], ?_⟩
      rw [starts_of_ne_nil hne, after_append_sep hs.1]
      rfl
    · obtain ⟨front, hfront⟩ := ih
      have hmore : after sep (s ++ sep :: t) = after sep s ++ sep :: t := by
        conv_lhs => rw [hs, List.append_assoc, List.cons_append,
          after_append_sep (sep_not_mem_line sep s)]
      refine ⟨(s ++ sep :: t) :: front, ?_⟩
      rw [starts_of_ne_nil hne, hmore, hfront]
      rfl

end Lines
