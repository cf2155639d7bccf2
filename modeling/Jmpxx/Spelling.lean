import Jmpxx.Search

namespace Jmpxx.Reflect

open Search

abbrev Text := List Char

inductive Compiler where
  | gnu
  | msvc
  deriving DecidableEq, Repr

def marker : Text := ['V', ' ', '=', ' ']
def opening : Text := ['<']
def closing : Text := ['>', '(']
def separator : Text := [':', ':']
def keyword : Text := ['e', 'n', 'u', 'm', ' ']

/-- The two characters at which a GCC or Clang signature ends the value. -/
def isStop (c : Char) : Bool := c = ';' || c = ']'

def stripKeyword (p : Text) : Text := if keyword.isPrefixOf p then p.drop 5 else p

/-- The position `k` past a search result; `npos` wraps around. -/
def past (i : Option ℕ) (k : ℕ) : ℕ := i.elim (k - 1) (· + k)

/-- `enumerator_spelling`, on the signature the compiler prints for the value. -/
def enumeratorSpelling (compiler : Compiler) (p : Text) : Text :=
  match compiler with
  | .msvc =>
    let last := (rfind closing p).getD p.length
    let start := past (rfind opening (p.take (last + 1))) 1
    afterLast separator (stripKeyword ((p.drop start).take (last - start)))
  | .gnu =>
    let m := find marker p
    afterLast separator ((p.drop (past m 4)).takeWhile (!isStop ·))

def isLetter (c : Char) : Bool := c = '_' || ('a' ≤ c && c ≤ 'z') || ('A' ≤ c && c ≤ 'Z')

def isDigit (c : Char) : Bool := '0' ≤ c && c ≤ '9'

def isEnumerator (n : Text) : Bool :=
  match n with
  | [] => false
  | f :: _ => isLetter f && n.all fun c => isLetter c || isDigit c

def isNameChar (c : Char) : Bool := isLetter c || isDigit c || 128 ≤ c.toNat

def IsIdentifier (n : Text) : Prop :=
  (∃ f ∈ n.head?, isNameChar f ∧ ¬ isDigit f) ∧ ∀ c ∈ n, isNameChar c

instance (n : Text) : Decidable (IsIdentifier n) :=
  decidable_of_iff
    (n.head?.any (fun f => isNameChar f && !isDigit f) = true ∧ n.all isNameChar = true)
    (by simp [IsIdentifier, Option.any_eq_true])

def IsNumeral (n : Text) : Prop :=
  (∃ f ∈ n.head?, f = '-' ∨ isDigit f) ∧ ∀ c ∈ n, c = '-' ∨ isLetter c ∨ isDigit c

instance (n : Text) : Decidable (IsNumeral n) :=
  decidable_of_iff
    (n.head?.any (fun f => f = '-' || isDigit f) = true ∧
      n.all (fun c => c = '-' || isLetter c || isDigit c) = true)
    (by simp [IsNumeral, Option.any_eq_true, or_assoc])

/-- What a compiler prints on either side of the value. -/
structure Frame (compiler : Compiler) where
  before : Text
  after : Text
  bracketed : match compiler with
    | .gnu => find marker (before ++ marker) = some before.length ∧ ∃ c ∈ after.head?, isStop c
    | .msvc => '(' ∉ after

variable {compiler : Compiler}

def Frame.signature (f : Frame compiler) (text : Text) : Text :=
  match compiler with
  | .gnu => f.before ++ marker ++ (text ++ f.after)
  | .msvc => f.before ++ opening ++ (text ++ (closing ++ f.after))

/-- Text that does not end the value early. -/
def Clean (compiler : Compiler) (text : Text) : Prop :=
  compiler = .gnu → ∀ c ∈ text, isStop c = false

def IsScope (scope : Text) : Prop := scope = [] ∨ separator <:+ scope

/-- How a value without an enumerator prints. -/
inductive CastOrNumber : Text → Prop
  | cast (ty : Text) {n : Text} (hn : IsNumeral n) : CastOrNumber ('(' :: ty ++ ')' :: n)
  | functional (ty : Text) {n : Text} (hn : IsNumeral n) :
    CastOrNumber (ty ++ '(' :: (n ++ [')']))
  | number {n : Text} (hn : IsNumeral n) : CastOrNumber n

def unqualified (compiler : Compiler) (text : Text) : Text :=
  match compiler with
  | .gnu => afterLast separator (text.takeWhile (!isStop ·))
  | .msvc => afterLast separator (stripKeyword (afterLast opening text))

theorem takeWhile_eq_self_of_clean {text : Text} (h : Clean .gnu text) :
    text.takeWhile (!isStop ·) = text :=
  List.takeWhile_eq_self_iff.mpr fun c hc => by simp [h rfl c hc]

theorem spelling_signature (f : Frame compiler) (text : Text) :
    enumeratorSpelling compiler (f.signature text) = unqualified compiler text := by
  cases compiler with
  | gnu =>
    obtain ⟨hfind, a, ha, hstop⟩ := f.bracketed
    have hm : find marker (f.signature text) = some f.before.length := find_append _ hfind
    have hdrop : (f.signature text).drop (f.before.length + 4) = text ++ f.after := by
      simp only [Frame.signature]
      exact List.drop_left' (by simp [marker])
    -- the signature goes on with a stop, so the slice ends no later than the text
    have htake : (text ++ f.after).takeWhile (!isStop ·) = text.takeWhile (!isStop ·) := by
      obtain ⟨rest, hrest⟩ := List.head?_eq_some_iff.mp ha
      rw [List.takeWhile_append, hrest]
      split_ifs with hall
      · simpa [hstop] using (List.takeWhile_prefix _).eq_of_length hall |>.symm
      · rfl
    simp only [enumeratorSpelling, hm, past, Option.elim_some, hdrop, htake, unqualified]
  | msvc =>
    let q := f.before ++ opening ++ text
    have hp : f.signature text = q ++ (closing ++ f.after) := by simp [Frame.signature, q]
    have hlast : rfind closing (f.signature text) = some q.length := by
      rw [hp, rfind_append q (i := 0)]
      · rfl
      · exact @rfind_pattern _ _ ['>'] _ '(' f.bracketed
    -- the search for '<' runs up to the closing bracket and no further
    have hlt : rfind opening ((f.signature text).take (q.length + 1)) = rfind opening q := by
      rw [hp, List.take_length_add_append]
      exact rfind_concat (by decide) q
    have hslice : ∀ start, ((f.signature text).drop start).take (q.length - start) =
        q.drop start := by
      intro start
      rw [← List.drop_take, hp, List.take_left]
    have hdrop : q.drop (past (rfind opening q) 1) = afterLast opening q := by
      cases h : rfind opening q <;> simp only [past, afterLast, h, Option.elim] <;> rfl
    have hq : afterLast opening q = afterLast opening text := by
      simpa [q, opening] using afterLast_cons f.before '<' text
    simp only [enumeratorSpelling, hlast, Option.getD_some, hlt, hslice, hdrop, hq, unqualified]

theorem suffix_stripKeyword {s t : Text} (ht : ' ' ∉ t) : t <:+ stripKeyword (s ++ t) := by
  unfold stripKeyword
  split_ifs with h
  · obtain ⟨r, hr⟩ := List.isPrefixOf_iff_prefix.mp h
    have hlen : 5 ≤ s.length := by
      by_contra hlt
      have hspace : (s ++ t)[4]? = some ' ' := by rw [← hr]; rfl
      rw [List.getElem?_append_right (by omega)] at hspace
      exact ht (List.mem_of_getElem? hspace)
    rw [List.drop_append_of_le_length hlen]
    exact List.suffix_append _ _
  · exact List.suffix_append _ _

/-- A tail without `<`, space or `:` is never cut into. -/
theorem suffix_unqualified {s t : Text} (hc : Clean compiler (s ++ t)) (ho : '<' ∉ t)
    (hk : ' ' ∉ t) (hs : ':' ∉ t) : t <:+ unqualified compiler (s ++ t) := by
  cases compiler with
  | gnu =>
    rw [unqualified, takeWhile_eq_self_of_clean hc]
    exact @suffix_afterLast _ _ [':'] t ':' s hs
  | msvc =>
    obtain ⟨s₁, h₁⟩ := @suffix_afterLast _ _ [] t '<' s ho
    obtain ⟨s₂, h₂⟩ := @suffix_stripKeyword s₁ t hk
    have h : unqualified .msvc (s ++ t) = afterLast separator (s₂ ++ t) := by
      rw [h₂, h₁]
      rfl
    rw [h]
    exact @suffix_afterLast _ _ [':'] t ':' s₂ hs

theorem unqualified_append {s t : Text} (hc : Clean compiler (s ++ (separator ++ t)))
    (ho : '<' ∉ t) (hk : ' ' ∉ t) (hs : ':' ∉ t) :
    unqualified compiler (s ++ (separator ++ t)) = t := by
  have hsep : ∀ c : Char, c ≠ ':' → c ∉ t → c ∉ separator ++ t := by
    intro c hc ht
    simp [separator, hc, ht]
  cases compiler with
  | gnu =>
    rw [unqualified, takeWhile_eq_self_of_clean hc]
    exact @afterLast_append _ _ [':'] t ':' s hs
  | msvc =>
    obtain ⟨s₁, h₁⟩ := @suffix_afterLast _ _ [] (separator ++ t) '<' s (hsep _ (by decide) ho)
    obtain ⟨s₂, h₂⟩ := @suffix_stripKeyword s₁ (separator ++ t) (hsep _ (by decide) hk)
    have h : unqualified .msvc (s ++ (separator ++ t)) =
        afterLast separator (s₂ ++ (separator ++ t)) := by
      rw [h₂, h₁]
      rfl
    rw [h]
    exact @afterLast_append _ _ [':'] t ':' s₂ hs

theorem unqualified_eq_self {t : Text} (hc : Clean compiler t) (ho : '<' ∉ t) (hk : ' ' ∉ t)
    (hs : ':' ∉ t) :
    unqualified compiler t = t := by
  have hself : afterLast separator t = t := afterLast_of_not_mem (by decide) hs
  cases compiler with
  | gnu => rw [unqualified, takeWhile_eq_self_of_clean hc, hself]
  | msvc =>
    have hkey : stripKeyword t = t := if_neg fun h =>
      hk ((List.isPrefixOf_iff_prefix.mp h).subset (by decide))
    have hopen : afterLast opening t = t := afterLast_of_not_mem (by decide) ho
    simp only [unqualified, hopen, hkey, hself]

theorem not_mem_of_isNameChar {n : Text} {c : Char} (hn : ∀ d ∈ n, isNameChar d)
    (hc : isNameChar c = false) : c ∉ n := fun h => by simp [hn c h] at hc

theorem IsIdentifier.clean {n : Text} (h : IsIdentifier n) : Clean compiler n := by
  intro _ c hc
  by_contra hstop
  simp only [isStop, Bool.not_eq_false, Bool.or_eq_true, decide_eq_true_eq] at hstop
  rcases hstop with rfl | rfl <;> exact not_mem_of_isNameChar h.2 (by decide) hc

theorem Clean.append {s t : Text} (hs : Clean compiler s) (ht : Clean compiler t) :
    Clean compiler (s ++ t) := fun hg c hc =>
  (List.mem_append.mp hc).elim (hs hg c) (ht hg c)

/-- An enumerator's qualified name is sliced to its identifier. -/
theorem unqualified_qualified {scope n : Text} (hs : IsScope scope) (hc : Clean compiler scope)
    (hn : IsIdentifier n) : unqualified compiler (scope ++ n) = n := by
  have hmem : ∀ c, isNameChar c = false → c ∉ n := fun c => not_mem_of_isNameChar hn.2
  rcases hs with h | ⟨s, rfl⟩
  · rw [h, List.nil_append]
    exact unqualified_eq_self hn.clean (hmem _ (by decide)) (hmem _ (by decide))
      (hmem _ (by decide))
  · have hclean := hc.append hn.clean
    rw [List.append_assoc] at hclean ⊢
    exact unqualified_append hclean (hmem _ (by decide)) (hmem _ (by decide)) (hmem _ (by decide))

theorem toNat_lt_of_letter_or_digit {c : Char} (h : (isLetter c || isDigit c) = true) :
    c.toNat < 128 := by
  simp only [isLetter, isDigit, Bool.or_eq_true, Bool.and_eq_true, decide_eq_true_eq,
    Char.le_def, UInt32.le_iff_toNat_le] at h
  have hz : 'z'.val.toNat = 122 := rfl
  have hZ : 'Z'.val.toNat = 90 := rfl
  have h9 : '9'.val.toNat = 57 := rfl
  show c.val.toNat < 128
  rcases h with ((rfl | h) | h) | h
  · decide
  · omega
  · omega
  · omega

theorem isNameChar_iff {c : Char} (hc : isNameChar c = true) :
    (isLetter c || isDigit c) = true ↔ c.toNat < 128 := by
  apply Iff.intro toNat_lt_of_letter_or_digit
  intro hlt
  by_contra hn
  have : 128 ≤ c.toNat := by simpa [isNameChar, hn] using hc
  omega

/-- Of the identifiers, the filter accepts those in ASCII. -/
theorem isEnumerator_iff {n : Text} (hn : IsIdentifier n) :
    isEnumerator n = true ↔ ∀ c ∈ n, c.toNat < 128 := by
  obtain ⟨⟨f, hf, hname, hdigit⟩, hall⟩ := hn
  obtain ⟨s, rfl⟩ := List.head?_eq_some_iff.mp hf
  have hiff : (f :: s).all (fun c => isLetter c || isDigit c) = true ↔
      ∀ c ∈ f :: s, c.toNat < 128 := by
    rw [List.all_eq_true]
    exact forall₂_congr fun c hc => isNameChar_iff (hall c hc)
  rw [isEnumerator, Bool.and_eq_true, hiff]
  refine ⟨And.right, fun h => ⟨?_, h⟩⟩
  have := (isNameChar_iff hname).mpr (h f List.mem_cons_self)
  simpa [hdigit] using this

theorem isEnumerator_of_mem {n : Text} {c : Char} (h : c ∈ n) (hl : isLetter c = false)
    (hd : isDigit c = false) : isEnumerator n = false := by
  cases n with
  | nil => rfl
  | cons f s =>
    have : ¬ (f :: s).all (fun c => isLetter c || isDigit c) = true := fun hall => by
      simpa [hl, hd] using List.all_eq_true.mp hall c h
    simp only [isEnumerator, this, Bool.and_false]

theorem not_isLetter_of_isDigit {c : Char} (h : isDigit c = true) : isLetter c = false := by
  simp only [isDigit, Bool.and_eq_true, decide_eq_true_eq, Char.le_def,
    UInt32.le_iff_toNat_le] at h
  by_contra hl
  simp only [isLetter, Bool.not_eq_false, Bool.or_eq_true, Bool.and_eq_true, decide_eq_true_eq,
    Char.le_def, UInt32.le_iff_toNat_le] at hl
  rcases hl with (rfl | hl) | hl
  · exact absurd h (by decide)
  · have h9 : '9'.val.toNat = 57 := rfl
    have ha : 'a'.val.toNat = 97 := rfl
    omega
  · have h9 : '9'.val.toNat = 57 := rfl
    have hA : 'A'.val.toNat = 65 := rfl
    omega

theorem IsNumeral.not_mem {n : Text} (h : IsNumeral n) {c : Char} (hd : c ≠ '-')
    (hc : (isLetter c || isDigit c) = false) : c ∉ n := by
  intro hm
  rcases h.2 c hm with h | h | h
  · exact hd h
  · simp [h] at hc
  · simp [h] at hc

/-- A parenthesis in the uncut tail gives the text away. -/
theorem not_isEnumerator_tail {s t : Text} {c : Char} (hm : c ∈ t) (hc : Clean compiler (s ++ t))
    (hl : isLetter c = false) (hd : isDigit c = false) (ho : '<' ∉ t) (hk : ' ' ∉ t)
    (hs : ':' ∉ t) : isEnumerator (unqualified compiler (s ++ t)) = false :=
  isEnumerator_of_mem ((suffix_unqualified hc ho hk hs).subset hm) hl hd

/-- A value without an enumerator is rejected. -/
theorem not_isEnumerator_castOrNumber {text : Text} (h : CastOrNumber text)
    (hc : Clean compiler text) : isEnumerator (unqualified compiler text) = false := by
  cases h with
  | @cast ty n hn =>
    -- the bracket of the cast is left in the name, and no identifier has one
    have hmem : ∀ c, c ≠ '-' ∧ c ≠ ')' ∧ (isLetter c || isDigit c) = false → c ∉ ')' :: n := by
      intro c hc
      simpa [hc.2.1] using hn.not_mem hc.1 hc.2.2
    exact not_isEnumerator_tail (List.mem_cons_self) hc (by decide) (by decide)
      (hmem _ (by decide)) (hmem _ (by decide)) (hmem _ (by decide))
  | @functional ty n hn =>
    have hmem : ∀ c, c ≠ '-' ∧ (c ≠ '(' ∧ c ≠ ')') ∧ (isLetter c || isDigit c) = false →
        c ∉ '(' :: (n ++ [')']) := by
      intro c hc
      simpa [hc.2.1.1, hc.2.1.2] using hn.not_mem hc.1 hc.2.2
    exact not_isEnumerator_tail (List.mem_cons_self) hc (by decide) (by decide)
      (hmem _ (by decide)) (hmem _ (by decide)) (hmem _ (by decide))
  | number hn =>
    have hmem : ∀ c, c ≠ '-' ∧ (isLetter c || isDigit c) = false → c ∉ text := fun c hc =>
      hn.not_mem hc.1 hc.2
    rw [unqualified_eq_self hc (hmem _ (by decide)) (hmem _ (by decide)) (hmem _ (by decide))]
    obtain ⟨c, hc, hd⟩ := hn.1
    obtain ⟨r, rfl⟩ := List.head?_eq_some_iff.mp hc
    have hl : isLetter c = false := by
      rcases hd with rfl | hd
      · rfl
      · exact not_isLetter_of_isDigit hd
    simp [isEnumerator, hl]

end Jmpxx.Reflect
