import Jmpxx.Spelling

namespace Jmpxx.Reflect

open Search

variable {compiler : Compiler} {text scope n : Text}

/-- The name stands in front of the first stop of the text. -/
def StopsAt (compiler : Compiler) (text n : Text) : Prop :=
  compiler = .gnu ∧ ∃ s t, text = s ++ (n ++ t) ∧ IsScope s ∧ Clean compiler s ∧
    ∃ c ∈ t.head?, isStop c = true

/-- The name stands where the slice is taken: at the end of the text, or in front of a stop. -/
def Shows (compiler : Compiler) (text n : Text) : Prop :=
  (∃ s, text = s ++ n ∧ IsScope s ∧ Clean compiler s) ∨ StopsAt compiler text n

/-- What a compiler prints: an enumerator's qualified name, a cast or a number. -/
inductive Printed : Text → Prop
  | named {scope n : Text} (hs : IsScope scope) (hn : IsIdentifier n) : Printed (scope ++ n)
  | unnamed {text : Text} (h : CastOrNumber text) : Printed text

theorem isIdentifier_of_isEnumerator (h : isEnumerator n = true) :
    IsIdentifier n ∧ ∀ c ∈ n, c.toNat < 128 := by
  cases n with
  | nil => cases h
  | cons f s =>
    rw [isEnumerator, Bool.and_eq_true, List.all_eq_true] at h
    obtain ⟨hf, hall⟩ := h
    refine ⟨⟨⟨f, rfl, by simp [isNameChar, hf], fun hd => ?_⟩, fun c hc => ?_⟩, fun c hc => ?_⟩
    · rw [not_isLetter_of_isDigit hd] at hf
      cases hf
    · rw [isNameChar, hall c hc, Bool.true_or]
    · exact toNat_lt_of_letter_or_digit (hall c hc)

theorem IsIdentifier.isStop_eq_false (hn : IsIdentifier n) {c : Char} (hc : c ∈ n) :
    isStop c = false := by
  have hclean : Clean .gnu n := hn.clean
  exact hclean rfl c hc

theorem clean_msvc (s : Text) : Clean .msvc s := by
  intro hg
  cases hg

/-- Up to a stop nothing is cut off. -/
theorem takeWhile_stop {s t : Text} (hs : Clean .gnu s) (ht : ∃ c ∈ t.head?, isStop c = true) :
    (s ++ t).takeWhile (!isStop ·) = s := by
  obtain ⟨c, hc, hstop⟩ := ht
  obtain ⟨t, rfl⟩ := List.head?_eq_some_iff.mp hc
  rw [List.takeWhile_append_of_pos fun d hd => by simp [hs rfl d hd]]
  simp [hstop]

/-- GCC and Clang texts are sliced to the identifier they show. -/
theorem unqualified_gnu_iff (hn : IsIdentifier n) :
    unqualified .gnu text = n ↔ Shows .gnu text n := by
  constructor
  · intro h
    have hclean : Clean .gnu (text.takeWhile (!isStop ·)) := fun _ c hc => by
      simpa using List.mem_takeWhile_imp hc
    obtain ⟨s, hs, hscope⟩ := split_afterLast separator (text.takeWhile (!isStop ·))
    have hslice : afterLast separator (text.takeWhile (!isStop ·)) = n := h
    rw [hslice] at hs
    have hclean_s : Clean .gnu s := fun hg c hc =>
      hclean hg c (hs ▸ List.mem_append_left n hc)
    have htext : text = s ++ (n ++ text.dropWhile (!isStop ·)) := by
      rw [← List.append_assoc, ← hs, List.takeWhile_append_dropWhile]
    -- what the slice leaves behind is nothing, or goes on with a stop
    have hhead := List.head?_dropWhile_not (!isStop ·) text
    cases ht : text.dropWhile (!isStop ·) with
    | nil =>
      rw [ht, List.append_nil] at htext
      exact .inl ⟨s, htext, hscope, hclean_s⟩
    | cons c t =>
      rw [ht] at htext hhead
      exact .inr ⟨rfl, s, c :: t, htext, hscope, hclean_s, c, rfl, by simpa using hhead⟩
  · rintro (⟨s, rfl, hscope, hclean⟩ | ⟨-, s, t, rfl, hscope, hclean, hstop⟩)
    · exact unqualified_qualified hscope hclean hn
    · rw [unqualified, ← List.append_assoc, takeWhile_stop (hclean.append hn.clean) hstop,
        ← takeWhile_eq_self_of_clean (hclean.append hn.clean)]
      exact unqualified_qualified hscope hclean hn

/-- What a printed text is accepted as is the ASCII identifier it shows. -/
theorem accepted_iff (h : Printed text) :
    isEnumerator (unqualified compiler text) = true ∧ unqualified compiler text = n ↔
      IsIdentifier n ∧ (∀ c ∈ n, c.toNat < 128) ∧ Shows compiler text n := by
  constructor
  · rintro ⟨hacc, rfl⟩
    obtain ⟨hident, hascii⟩ := isIdentifier_of_isEnumerator hacc
    refine ⟨hident, hascii, ?_⟩
    cases compiler with
    | gnu => exact (unqualified_gnu_iff hident).mp rfl
    | msvc =>
      cases h with
      | @named scope m hs hn =>
        rw [unqualified_qualified hs (clean_msvc scope) hn]
        exact .inl ⟨scope, rfl, hs, clean_msvc scope⟩
      | unnamed h =>
        rw [not_isEnumerator_castOrNumber h (clean_msvc text)] at hacc
        cases hacc
  · rintro ⟨hident, hascii, hshows⟩
    have hslice : unqualified compiler text = n := by
      cases compiler with
      | gnu => exact (unqualified_gnu_iff hident).mpr hshows
      | msvc =>
        rcases hshows with ⟨s, rfl, hs, hclean⟩ | ⟨hgnu, -⟩
        · exact unqualified_qualified hs hclean hident
        · cases hgnu
    rw [hslice]
    exact ⟨(isEnumerator_iff hident).mpr hascii, rfl⟩

/-- A qualified name shows its identifier where the scope holds no stop, or shows it itself. -/
theorem shows_qualified_iff (hs : IsScope scope) (hn : IsIdentifier n) :
    Shows compiler (scope ++ n) n ↔ Clean compiler scope ∨ StopsAt compiler scope n := by
  constructor
  · rintro (⟨s, heq, -, hclean⟩ | ⟨hg, s, t, heq, hscope, hclean, c, hc, hstop⟩)
    · exact .inl (List.append_cancel_right heq ▸ hclean)
    · have hne : ∀ d ∈ n, d ≠ c := by
        rintro d hd rfl
        rw [hn.isStop_eq_false hd] at hstop
        cases hstop
      -- the name has no stop, so what goes on with one is longer, and ends in the name
      have hsuffix : n <:+ t := by
        have ht : t <:+ scope ++ n := ⟨s ++ n, by rw [heq, List.append_assoc]⟩
        refine List.suffix_of_suffix_length_le (List.suffix_append scope n) ht ?_
        by_contra hlt
        have hsub := List.suffix_of_suffix_length_le ht (List.suffix_append scope n) (by omega)
        exact hne c (hsub.subset (List.mem_of_head? hc)) rfl
      obtain ⟨t, rfl⟩ := hsuffix
      have hscope_eq : scope = s ++ (n ++ t) := by
        refine List.append_cancel_right (heq.trans ?_)
        simp only [List.append_assoc]
      refine .inr ⟨hg, s, t, hscope_eq, hscope, hclean, c, ?_, hstop⟩
      cases t with
      | nil => exact absurd rfl (hne c (List.mem_of_head? hc))
      | cons d t => exact hc
  · rintro (hclean | ⟨hg, s, t, rfl, hscope, hclean, c, hc, hstop⟩)
    · exact .inl ⟨scope, rfl, hs, hclean⟩
    · obtain ⟨t, rfl⟩ := List.head?_eq_some_iff.mp hc
      exact .inr ⟨hg, s, c :: t ++ n, by simp, hscope, hclean, c, rfl, hstop⟩

theorem sliced_iff (h : Printed text) (hn : IsIdentifier n) (hascii : ∀ c ∈ n, c.toNat < 128) :
    unqualified compiler text = n ↔ Shows compiler text n := by
  constructor
  · intro hname
    have hacc := (isEnumerator_iff hn).mpr hascii
    rw [← hname] at hacc
    exact ((accepted_iff h).mp ⟨hacc, hname⟩).2.2
  · intro hshows
    exact ((accepted_iff h).mpr ⟨hn, hascii, hshows⟩).2

/-- A printed text is rejected where it shows no ASCII identifier. -/
theorem rejected_iff_shows (h : Printed text) :
    isEnumerator (unqualified compiler text) = false ↔
      ∀ n, IsIdentifier n → (∀ c ∈ n, c.toNat < 128) → ¬ Shows compiler text n := by
  constructor
  · intro hrejected n hn hascii hshows
    have hacc := ((accepted_iff h).mpr ⟨hn, hascii, hshows⟩).1
    rw [hrejected] at hacc
    cases hacc
  · intro hnone
    by_contra hacc
    rw [Bool.not_eq_false] at hacc
    obtain ⟨hn, hascii, hshows⟩ := (accepted_iff h).mp ⟨hacc, rfl⟩
    exact hnone _ hn hascii hshows

/-- No cast and no number ends in a name. -/
theorem shows_unnamed_iff (h : CastOrNumber text) (hn : IsIdentifier n)
    (hascii : ∀ c ∈ n, c.toNat < 128) : Shows compiler text n ↔ StopsAt compiler text n := by
  refine ⟨fun hshows => hshows.resolve_left ?_, .inr⟩
  rintro ⟨s, rfl, hs, hclean⟩
  have hrejected := not_isEnumerator_castOrNumber h (hclean.append hn.clean)
  rw [unqualified_qualified hs hclean hn, (isEnumerator_iff hn).mpr hascii] at hrejected
  cases hrejected

/-- The name of an enumerator is sliced out of its signature and accepted. -/
def Recovered (f : Frame compiler) (scope n : Text) : Prop :=
  enumeratorSpelling compiler (f.signature (scope ++ n)) = n ∧
    isEnumerator (enumeratorSpelling compiler (f.signature (scope ++ n))) = true

/-- Just the ASCII names are recovered, from behind the scopes without a stop or those that show
the name themselves; and just the casts that show no ASCII name in front of a stop are rejected. -/
theorem spelling_right_iff (f : Frame compiler) :
    (∀ scope n, IsScope scope → IsIdentifier n →
      (Recovered f scope n ↔
        (∀ c ∈ n, c.toNat < 128) ∧ (Clean compiler scope ∨ StopsAt compiler scope n))) ∧
    ∀ text, CastOrNumber text →
      (isEnumerator (enumeratorSpelling compiler (f.signature text)) = false ↔
        ∀ n, IsIdentifier n → (∀ c ∈ n, c.toNat < 128) → ¬ StopsAt compiler text n) := by
  constructor
  · intro scope n hs hn
    rw [Recovered, spelling_signature, and_comm, accepted_iff (.named hs hn),
      shows_qualified_iff hs hn]
    exact and_iff_right hn
  · intro text h
    rw [spelling_signature]
    constructor
    · intro hrejected n hn hascii hstops
      have hshows := (shows_unnamed_iff h hn hascii).mpr hstops
      have hacc := (accepted_iff (.unnamed h)).mpr ⟨hn, hascii, hshows⟩
      rw [hrejected] at hacc
      cases hacc.1
    · intro hnone
      by_contra hacc
      obtain ⟨hn, hascii, hshows⟩ :=
        (@accepted_iff compiler text _ (.unnamed h)).mp ⟨by simpa using hacc, rfl⟩
      exact hnone _ hn hascii ((shows_unnamed_iff h hn hascii).mp hshows)

def gccFrame : Frame .gnu where
  before := ("constexpr std::string_view jmpxx::reflect::detail::enumerator_spelling() " ++
    "[with auto ").toList
  after := "; std::string_view = std::basic_string_view<char>]".toList
  bracketed := ⟨by decide +kernel, ';', rfl, rfl⟩

/-- The slice ends at the array type in the scope. -/
theorem spelling_array_scope :
    enumeratorSpelling .gnu (gccFrame.signature "holder<int [3]>::status::ok".toList) =
        "holder<int [3".toList ∧
      ¬ Recovered gccFrame "holder<int [3]>::status::".toList "ok".toList := by
  unfold Recovered
  decide +kernel

theorem spelling_right_iff_nested :
    Recovered gccFrame "app::holder<int, 3>::status::".toList "ok".toList := by
  have hscope : IsScope "app::holder<int, 3>::status::".toList :=
    .inr ⟨"app::holder<int, 3>::status".toList, by decide⟩
  have hclean : Clean .gnu "app::holder<int, 3>::status::".toList := by
    intro _
    simp [isStop]
  exact ((spelling_right_iff gccFrame).1 _ _ hscope (by decide)).mpr ⟨by simp, .inl hclean⟩

end Jmpxx.Reflect
