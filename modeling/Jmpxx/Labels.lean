import Jmpxx.Numbering
import Mathlib.Data.List.AList
import Mathlib.Data.List.TakeWhile

namespace Jmpxx.Codegen

abbrev Text := List Char

def isId (c : Char) : Bool :=
  ('A' ≤ c && c ≤ 'Z') || ('a' ≤ c && c ≤ 'z') || ('0' ≤ c && c ≤ '9') || c = '_' || c = '$'

def startsLabel : Text → Bool
  | '.' :: 'L' :: c :: _ => isId c
  | _ => false

/-- `".L#" + std::to_string(n)`. -/
def canonical (n : ℕ) : Text := '.' :: 'L' :: '#' :: Nat.toDigits 10 n

theorem length_dropWhile_lt (c : Char) (rest : Text) :
    ((rest.drop 1).dropWhile isId).length < (c :: rest).length := by
  have hdrop := (List.dropWhile_suffix isId (l := rest.drop 1)).length_le
  simp only [List.length_drop, List.length_cons] at hdrop ⊢
  omega

/-- The turns of the loop over what is left of the body. -/
def canonFrom (seen : AList fun _ : Text => Text) : Text → Text
  | [] => []
  | c :: rest =>
    if startsLabel (c :: rest) then
      let tok := '.' :: 'L' :: (rest.drop 1).takeWhile isId
      if (seen.lookup tok).isSome then
        (seen.lookup tok).getD [] ++ canonFrom seen ((rest.drop 1).dropWhile isId)
      else
        canonical seen.keys.length ++
          canonFrom (seen.insert tok (canonical seen.keys.length)) ((rest.drop 1).dropWhile isId)
    else c :: canonFrom seen rest
termination_by body => body.length
decreasing_by all_goals first | exact length_dropWhile_lt c rest | exact Nat.lt_succ_self _

def canonLabels (body : Text) : Text := canonFrom ∅ body

/-- The body with each label token, taken as long as it goes, set apart by its name. -/
def lex : Text → List (Char ⊕ Text)
  | [] => []
  | c :: rest =>
    if startsLabel (c :: rest) then
      .inr ((rest.drop 1).takeWhile isId) :: lex ((rest.drop 1).dropWhile isId)
    else .inl c :: lex rest
termination_by body => body.length
decreasing_by all_goals first | exact length_dropWhile_lt c rest | exact Nat.lt_succ_self _

def IsName (name : Text) : Prop := name ≠ [] ∧ ∀ c ∈ name, isId c

def spellPiece : Char ⊕ Text → Text
  | .inl c => [c]
  | .inr name => '.' :: 'L' :: name

def spell (pieces : List (Char ⊕ Text)) : Text := pieces.flatMap spellPiece

def rename (f : Text → Text) (body : Text) : Text := spell ((lex body).map (Sum.map id f))

/-- `b` is `a` with its labels consistently renamed, no two of them to the same name. -/
def Relabelled (a b : Text) : Prop :=
  ∃ f : Text → Text, Set.InjOn f {name | .inr name ∈ lex a} ∧
    (∀ name, .inr name ∈ lex a → IsName (f name)) ∧ b = rename f a

theorem isId_of_isDigit {c : Char} (h : c.isDigit) : isId c := by
  have hbounds : '0' ≤ c ∧ c ≤ '9' := by
    rw [Char.isDigit_iff_toNat] at h
    exact h
  simp [isId, hbounds.1, hbounds.2]

theorem startsLabel_iff {c : Char} {rest : Text} :
    startsLabel (c :: rest) = true ↔ c = '.' ∧ ∃ d after, rest = 'L' :: d :: after ∧ isId d := by
  constructor
  · intro h
    unfold startsLabel at h
    split at h
    · next d after heq =>
      obtain ⟨rfl, rfl⟩ := List.cons.inj heq
      exact ⟨rfl, d, after, rfl, h⟩
    · cases h
  · intro h
    obtain ⟨rfl, d, after, rfl, hd⟩ := h
    exact hd

/-- Pieces that a body falls into: names are names and go as far as they can, and no label
starts among the characters. -/
inductive Lexed : List (Char ⊕ Text) → Prop
  | nil : Lexed []
  | char {c : Char} {pieces : List (Char ⊕ Text)} (h : Lexed pieces)
      (hstart : startsLabel (c :: spell pieces) = false) : Lexed (.inl c :: pieces)
  | label {name : Text} {pieces : List (Char ⊕ Text)} (h : Lexed pieces) (hname : IsName name)
      (hend : ∀ c ∈ (spell pieces).head?, isId c = false) : Lexed (.inr name :: pieces)

theorem lex_char {c : Char} {rest : Text} (h : startsLabel (c :: rest) = false) :
    lex (c :: rest) = .inl c :: lex rest := by
  rw [lex, if_neg (by simp [h])]

theorem lex_label {c : Char} {rest : Text} (h : startsLabel (c :: rest) = true) :
    lex (c :: rest) = .inr ((rest.drop 1).takeWhile isId) :: lex ((rest.drop 1).dropWhile isId) := by
  rw [lex, if_pos h]

/-- A label token and what follows it. -/
theorem label_split {c : Char} {rest : Text} (h : startsLabel (c :: rest) = true) :
    IsName ((rest.drop 1).takeWhile isId) ∧
      c :: rest = '.' :: 'L' :: (rest.drop 1).takeWhile isId ++ (rest.drop 1).dropWhile isId := by
  obtain ⟨rfl, d, after, rfl, hd⟩ := startsLabel_iff.mp h
  refine ⟨⟨?_, fun c hc => List.mem_takeWhile_imp hc⟩, ?_⟩
  · rw [List.drop_succ_cons, List.drop_zero, List.takeWhile_cons_of_pos hd]
    exact List.cons_ne_nil _ _
  · rw [List.cons_append, List.cons_append, List.takeWhile_append_dropWhile]
    rfl

theorem spell_lex (body : Text) : spell (lex body) = body := by
  induction body using lex.induct with
  | case1 => rw [lex]; rfl
  | case2 c rest h ih =>
    rw [lex_label h]
    show ('.' :: 'L' :: _) ++ spell (lex _) = _
    rw [ih]
    exact (label_split h).2.symm
  | case3 c rest h ih =>
    rw [lex_char (by simpa using h)]
    show [c] ++ spell (lex rest) = _
    rw [ih]
    rfl

theorem lexed_lex (body : Text) : Lexed (lex body) := by
  induction body using lex.induct with
  | case1 => rw [lex]; exact .nil
  | case2 c rest h ih =>
    rw [lex_label h]
    refine .label ih (label_split h).1 ?_
    rw [spell_lex]
    intro d hd
    have hne := List.head?_dropWhile_not isId (rest.drop 1)
    rw [hd] at hne
    simpa using hne
  | case3 c rest h ih =>
    have hstart : startsLabel (c :: rest) = false := by simpa using h
    rw [lex_char hstart]
    exact .char ih (by rwa [spell_lex])

theorem takeWhile_name {name rest : Text} (hname : ∀ c ∈ name, isId c)
    (hend : ∀ c ∈ rest.head?, isId c = false) :
    (name ++ rest).takeWhile isId = name ∧ (name ++ rest).dropWhile isId = rest := by
  have hrest : rest.takeWhile isId = [] ∧ rest.dropWhile isId = rest := by
    cases rest with
    | nil => exact ⟨rfl, rfl⟩
    | cons c rest =>
      have hc : isId c = false := hend c rfl
      simp [hc]
  rw [List.takeWhile_append_of_pos hname, List.dropWhile_append_of_pos hname, hrest.1, hrest.2]
  exact ⟨List.append_nil name, rfl⟩

/-- Such pieces are those their text falls into. -/
theorem lex_spell {pieces : List (Char ⊕ Text)} (h : Lexed pieces) : lex (spell pieces) = pieces := by
  induction h with
  | nil => rw [spell, List.flatMap_nil, lex]
  | @char c pieces h hstart ih =>
    show lex (c :: spell pieces) = _
    rw [lex_char hstart, ih]
  | @label name pieces h hname hend ih =>
    show lex ('.' :: 'L' :: (name ++ spell pieces)) = _
    have hstart : startsLabel ('.' :: 'L' :: (name ++ spell pieces)) = true := by
      obtain ⟨hne, hall⟩ := hname
      cases name with
      | nil => exact absurd rfl hne
      | cons c name => exact hall c List.mem_cons_self
    obtain ⟨htake, hdrop⟩ := takeWhile_name hname.2 hend
    rw [lex_label hstart, List.drop_succ_cons, List.drop_zero, htake, hdrop, ih]

/-- Renaming leaves the first character of the text: every label starts with a dot. -/
theorem head?_spell_map (f : Text → Text) (pieces : List (Char ⊕ Text)) :
    (spell (pieces.map (Sum.map id f))).head? = (spell pieces).head? := by
  cases pieces with
  | nil => rfl
  | cons p pieces => cases p <;> rfl

theorem startsLabel_spell_map {f : Text → Text} {c : Char} {pieces : List (Char ⊕ Text)}
    (h : startsLabel (c :: spell pieces) = false) :
    startsLabel (c :: spell (pieces.map (Sum.map id f))) = false := by
  rw [← Bool.not_eq_true, startsLabel_iff] at h ⊢
  refine fun hlabel => h ?_
  obtain ⟨hc, d, after, hspell, hd⟩ := hlabel
  refine ⟨hc, ?_⟩
  cases pieces with
  | nil => cases hspell
  | cons p pieces =>
    cases p with
    | inr name => cases hspell
    | inl e =>
      obtain ⟨rfl, htail⟩ := List.cons.inj hspell
      have hhead := head?_spell_map f pieces
      have htail' : spell (pieces.map (Sum.map id f)) = d :: after := htail
      rw [htail', List.head?_cons] at hhead
      obtain ⟨rest, hrest⟩ := List.head?_eq_some_iff.mp hhead.symm
      exact ⟨d, rest, congrArg _ hrest, hd⟩

theorem lexed_map {f : Text → Text} {pieces : List (Char ⊕ Text)} (h : Lexed pieces)
    (hf : ∀ name, .inr name ∈ pieces → IsName (f name)) : Lexed (pieces.map (Sum.map id f)) := by
  induction h with
  | nil => exact .nil
  | char h hstart ih =>
    exact .char (ih fun name hname => hf name (List.mem_cons_of_mem _ hname))
      (startsLabel_spell_map hstart)
  | label h hname hend ih =>
    refine .label (ih fun name hname => hf name (List.mem_cons_of_mem _ hname))
      (hf _ List.mem_cons_self) ?_
    rw [head?_spell_map]
    exact hend

theorem lex_rename {f : Text → Text} {body : Text}
    (hf : ∀ name, .inr name ∈ lex body → IsName (f name)) :
    lex (rename f body) = (lex body).map (Sum.map id f) :=
  lex_spell (lexed_map (lexed_lex body) hf)

theorem isName_of_lexed {pieces : List (Char ⊕ Text)} (h : Lexed pieces) {name : Text}
    (hname : .inr name ∈ pieces) : IsName name := by
  induction h with
  | nil => cases hname
  | char h _ ih => exact ih ((List.mem_cons.mp hname).resolve_left Sum.inr_ne_inl)
  | label h hself _ ih =>
    rcases List.mem_cons.mp hname with heq | hname
    · rwa [Sum.inr.inj heq]
    · exact ih hname

def writePiece : Char ⊕ ℕ → Text
  | .inl c => [c]
  | .inr n => canonical n

def write (pieces : List (Char ⊕ ℕ)) : Text := pieces.flatMap writePiece

structure Tracks (seen : AList fun _ : Text => Text) (names : List Text) : Prop where
  size : seen.keys.length = names.length
  lookup : ∀ name, seen.lookup ('.' :: 'L' :: name) =
    if name ∈ names then some (canonical (Numbering.place names name)) else none

theorem Tracks.insert {seen : AList fun _ : Text => Text} {names : List Text} {name : Text}
    (h : Tracks seen names) (hnew : name ∉ names) :
    Tracks (seen.insert ('.' :: 'L' :: name) (canonical seen.keys.length)) (names ++ [name]) := by
  have hlookup := h.lookup name
  rw [if_neg hnew] at hlookup
  have hmem : ('.' :: 'L' :: name) ∉ seen := AList.lookup_eq_none.mp hlookup
  refine ⟨?_, fun other => ?_⟩
  · show (AList.insert _ _ seen).entries.keys.length = _
    rw [AList.entries_insert_of_notMem hmem, List.keys_cons, List.length_cons,
      List.length_append, List.length_singleton]
    exact congrArg Nat.succ h.size
  · by_cases hother : other = name
    · rw [hother, AList.lookup_insert, if_pos (List.mem_append_right _ List.mem_cons_self),
        Numbering.place_concat hnew, h.size]
    · have hne : ('.' :: 'L' :: other) ≠ '.' :: 'L' :: name := by simpa using hother
      rw [AList.lookup_insert_ne hne, h.lookup]
      by_cases hold : other ∈ names
      · rw [if_pos hold, if_pos (List.mem_append_left _ hold), Numbering.place_append_of_mem hold]
      · rw [if_neg hold, if_neg (by simp [hold, hother])]

theorem canonFrom_eq {seen : AList fun _ : Text => Text} {names : List Text}
    (h : Tracks seen names) (body : Text) :
    canonFrom seen body = write (Numbering.number names (lex body)) := by
  induction body using lex.induct generalizing seen names with
  | case1 => rw [canonFrom, lex]; rfl
  | case2 c rest hlabel ih =>
    have hwrite : ∀ name pieces, write (Numbering.number names (.inr name :: pieces)) =
        canonical (Numbering.place names name) ++
          write (Numbering.number (Numbering.meet names name) pieces) :=
      fun _ _ => rfl
    rw [canonFrom, if_pos hlabel, lex_label hlabel, hwrite]
    have hlookup := h.lookup ((rest.drop 1).takeWhile isId)
    by_cases hmem : (rest.drop 1).takeWhile isId ∈ names
    · rw [if_pos hmem] at hlookup
      simp only [hlookup, Option.isSome_some, if_true, Option.getD_some]
      rw [ih h, Numbering.meet, if_pos hmem]
    · rw [if_neg hmem] at hlookup
      simp only [hlookup, Option.isSome_none, Bool.false_eq_true, if_false]
      rw [ih (h.insert hmem), Numbering.meet, if_neg hmem, h.size,
        Numbering.place_of_not_mem hmem]
  | case3 c rest hchar ih =>
    rw [canonFrom, if_neg hchar, lex_char (by simpa using hchar)]
    show c :: _ = [c] ++ write (Numbering.number names (lex rest))
    rw [ih h]
    rfl

theorem canonLabels_eq (body : Text) :
    canonLabels body = write (Numbering.number [] (lex body)) :=
  canonFrom_eq ⟨rfl, fun _ => rfl⟩ body

/-- A canonical token tells its number from whatever no digit starts. -/
theorem canonical_append_inj {n m : ℕ} {rest rest' : Text}
    (hrest : ∀ c ∈ rest.head?, isId c = false) (hrest' : ∀ c ∈ rest'.head?, isId c = false)
    (h : canonical n ++ rest = canonical m ++ rest') : n = m ∧ rest = rest' := by
  have hdigits : ∀ k, ∀ c ∈ Nat.toDigits 10 k, isId c := fun k c hc =>
    isId_of_isDigit (Nat.isDigit_of_mem_toDigits (by decide) (by decide) hc)
  have htail : Nat.toDigits 10 n ++ rest = Nat.toDigits 10 m ++ rest' :=
    (List.cons.inj (List.cons.inj (List.cons.inj h).2).2).2
  obtain ⟨htake, hdrop⟩ := takeWhile_name (hdigits n) hrest
  obtain ⟨htake', hdrop'⟩ := takeWhile_name (hdigits m) hrest'
  constructor
  · have hsame : Nat.toDigits 10 n = Nat.toDigits 10 m := by rw [← htake, htail, htake']
    rw [← Nat.ofDigitChars_ten_toDigits (n := n), hsame, Nat.ofDigitChars_ten_toDigits]
  · rw [← hdrop, htail, hdrop']

/-- Numbered pieces of a body without `#`: a number is followed by no name character. -/
inductive Numbered : List (Char ⊕ ℕ) → Prop
  | nil : Numbered []
  | char {c : Char} {pieces : List (Char ⊕ ℕ)} (h : Numbered pieces) (hc : c ≠ '#') :
    Numbered (.inl c :: pieces)
  | label {n : ℕ} {pieces : List (Char ⊕ ℕ)} (h : Numbered pieces)
      (hend : ∀ c ∈ (write pieces).head?, isId c = false) : Numbered (.inr n :: pieces)

theorem head?_write_number (names : List Text) (pieces : List (Char ⊕ Text)) :
    (write (Numbering.number names pieces)).head? = (spell pieces).head? := by
  cases pieces with
  | nil => rfl
  | cons p pieces => cases p <;> rfl

theorem numbered_number {pieces : List (Char ⊕ Text)} (h : Lexed pieces)
    (hhash : .inl '#' ∉ pieces) (names : List Text) : Numbered (Numbering.number names pieces) := by
  induction h generalizing names with
  | nil => exact .nil
  | char h hstart ih =>
    refine .char (ih (fun hmem => hhash (List.mem_cons_of_mem _ hmem)) names) ?_
    rintro rfl
    exact hhash List.mem_cons_self
  | label h hname hend ih =>
    refine .label (ih (fun hmem => hhash (List.mem_cons_of_mem _ hmem)) _) ?_
    rw [head?_write_number]
    exact hend

/-- No text of characters without `#` goes on like a canonical token. -/
theorem write_ne_canonical {pieces pieces' : List (Char ⊕ ℕ)} {c : Char} {n : ℕ}
    (h : Numbered (.inl c :: pieces)) :
    write (.inl c :: pieces) ≠ write (.inr n :: pieces') := by
  intro heq
  obtain ⟨-, htail⟩ := List.cons.inj heq
  cases h with
  | char h hc =>
    cases h with
    | nil => cases htail
    | label => cases htail
    | char h hc =>
      obtain ⟨-, htail⟩ := List.cons.inj htail
      cases h with
      | nil => cases htail
      | label => cases htail
      | char h hc => exact hc (List.cons.inj htail).1

theorem write_inj {pieces pieces' : List (Char ⊕ ℕ)} (h : Numbered pieces)
    (h' : Numbered pieces') (heq : write pieces = write pieces') : pieces = pieces' := by
  induction h generalizing pieces' with
  | nil =>
    cases h' with
    | nil => rfl
    | char => cases heq
    | label => cases heq
  | @char c pieces h hc ih =>
    cases h' with
    | nil => cases heq
    | label => exact absurd heq (write_ne_canonical (.char h hc))
    | char h' hc' =>
      obtain ⟨rfl, htail⟩ := List.cons.inj heq
      rw [ih h' htail]
  | @label n pieces h hend ih =>
    cases h' with
    | nil => cases heq
    | char h' hc' => exact absurd heq.symm (write_ne_canonical (.char h' hc'))
    | @label m pieces' h' hend' =>
      obtain ⟨rfl, htail⟩ := canonical_append_inj hend hend' heq
      rw [ih h' htail]

theorem hash_not_mem_lex {body : Text} (h : '#' ∉ body) : .inl '#' ∉ lex body := by
  intro hmem
  apply h
  rw [← spell_lex body]
  exact List.mem_flatMap.mpr ⟨_, hmem, List.mem_singleton_self _⟩

/-- Two bodies have one canonical form exactly when they differ in the names of their labels
only. -/
theorem canon_labels_eq_iff {a b : Text} (ha : '#' ∉ a) (hb : '#' ∉ b) :
    canonLabels a = canonLabels b ↔ Relabelled a b := by
  rw [canonLabels_eq, canonLabels_eq]
  constructor
  · intro h
    have hnumber := write_inj (numbered_number (lexed_lex a) (hash_not_mem_lex ha) [])
      (numbered_number (lexed_lex b) (hash_not_mem_lex hb) []) h
    obtain ⟨f, hf, hmap⟩ := Numbering.number_eq_iff.mp hnumber
    refine ⟨f, hf, fun name hname => ?_, ?_⟩
    · apply isName_of_lexed (lexed_lex b)
      rw [hmap]
      exact List.mem_map_of_mem (f := Sum.map id f) hname
    · rw [rename, ← hmap, spell_lex]
  · intro h
    obtain ⟨f, hf, hnames, rfl⟩ := h
    rw [lex_rename hnames]
    exact congrArg write (Numbering.number_eq_iff.mpr ⟨f, hf, rfl⟩)

/-- `jmp .L3; .L3:` and `jmp .L10; .L10:`. -/
theorem canon_labels_eq_iff_jump :
    canonLabels "jmp .L3; .L3:".toList = canonLabels "jmp .L10; .L10:".toList ↔
      Relabelled "jmp .L3; .L3:".toList "jmp .L10; .L10:".toList :=
  canon_labels_eq_iff (by decide) (by decide)

end Jmpxx.Codegen
