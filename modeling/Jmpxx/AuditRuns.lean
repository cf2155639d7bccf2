import Jmpxx.AuditEnds
import Jmpxx.AuditVerdict

namespace Jmpxx.Audit

open Cursor

variable {α β : Type}

/-- What is raised, if anything, is not that a loop goes on. -/
def Ends (x : Except Error α) : Prop := x ≠ .error .endless

theorem Ends.ok (a : α) : Ends (.ok a) := by
  intro h
  cases h

theorem Ends.bind {x : Except Error α} {k : α → Except Error β} (hx : Ends x)
    (hk : ∀ a, Ends (k a)) : Ends (x >>= k) := by
  cases x with
  | ok a => exact hk a
  | error e =>
    intro h
    exact hx (congrArg Except.error (Except.error.inj h))

theorem Ends.mapM {f : β → Except Error α} (hf : ∀ b, Ends (f b)) (l : List β) :
    Ends (l.mapM f) := by
  induction l with
  | nil => exact Ends.ok []
  | cons b l ih =>
    rw [List.mapM_cons]
    exact (hf b).bind fun a => ih.bind fun as => Ends.ok (a :: as)

theorem Ends.item (xs : List α) (i : ℕ) : Ends (item xs i) := by
  unfold Audit.item
  cases xs[i]? with
  | none => exact fun h => Error.noConfusion (Except.error.inj h)
  | some x => exact Ends.ok x

theorem Ends.readAt {m : Read α} (hm : Keeps m) (data : List UInt8) (offset : ℕ) :
    Ends (readAt data offset m) := by
  have hrun := Ensures.run_ne (hm ⟨data, 0, offset⟩)
  unfold Audit.readAt
  cases h : m ⟨data, 0, offset⟩ with
  | ok p => exact Ends.ok p.1
  | error e =>
    intro herror
    exact hrun (h.trans (congrArg Except.error (Except.error.inj herror)))

theorem unsigned_keeps (size : ℕ) : Keeps (unsigned size) := by
  have hfixed : Keeps (fixed size false) := fun r =>
    (fixed_moves size false r).conseq fun _ _ h => h ▸ rfl
  exact hfixed.bind fun v => Keeps.pure v.toNat

theorem readSectionHeader_keeps (is64 : Bool) : Keeps (readSectionHeader is64) := by
  unfold readSectionHeader
  refine (unsigned_keeps _).bind fun name => (unsigned_keeps _).bind fun stype => ?_
  refine (unsigned_keeps _).bind fun _ => (unsigned_keeps _).bind fun addr => ?_
  exact (unsigned_keeps _).bind fun offset => (unsigned_keeps _).bind fun size => Keeps.pure _

theorem readShape_keeps : Keeps readShape :=
  (unsigned_keeps _).bind fun _ => (unsigned_keeps _).bind fun _ => (unsigned_keeps _).bind fun _ =>
    Keeps.pure _

theorem readSymbol_keeps (is64 : Bool) : Keeps (readSymbol is64) := by
  unfold readSymbol
  split_ifs
  · refine (unsigned_keeps _).bind fun name => (unsigned_keeps _).bind fun info => ?_
    refine (unsigned_keeps _).bind fun _ => (unsigned_keeps _).bind fun _ => ?_
    exact (unsigned_keeps _).bind fun value => (unsigned_keeps _).bind fun size => Keeps.pure _
  · refine (unsigned_keeps _).bind fun name => (unsigned_keeps _).bind fun value => ?_
    refine (unsigned_keeps _).bind fun size => (unsigned_keeps _).bind fun info => ?_
    exact (unsigned_keeps _).bind fun _ => (unsigned_keeps _).bind fun _ => Keeps.pure _

theorem Ends.textAt (table : List UInt8) (idx : ℕ) : Ends (textAt table idx) :=
  Ends.readAt cstring_keeps table idx

theorem Ends.readSections (is64 : Bool) (raw : List UInt8) : Ends (readSections is64 raw) := by
  have hoffset : Ends (headersOffset is64 raw) := by
    unfold headersOffset
    split_ifs
    · exact Ends.readAt (unsigned_keeps 8) raw _
    · exact Ends.readAt (unsigned_keeps 4) raw _
  refine hoffset.bind fun shoff => (Ends.readAt readShape_keeps raw _).bind fun shape => ?_
  refine (Ends.mapM (fun i => Ends.readAt (readSectionHeader_keeps is64) raw _) _).bind
    fun headers => ?_
  refine (Ends.item headers _).bind fun strings => Ends.mapM (fun h => ?_) headers
  exact (Ends.textAt _ _).bind fun name => Ends.ok _

theorem Ends.readTableSymbols (is64 : Bool) (data names : List UInt8) :
    Ends (readTableSymbols is64 data names) := by
  refine (Ends.mapM (fun off => ?_) _).bind fun found => Ends.ok _
  refine (Ends.readAt (readSymbol_keeps is64) data off).bind fun s => ?_
  split_ifs
  · exact Ends.ok none
  · exact (Ends.textAt names s.name).bind fun name => Ends.ok _

theorem Ends.readSymbols (is64 : Bool) (sections : String → Option Section)
    (tables : List (String × String)) : Ends (readSymbols is64 sections tables) := by
  induction tables with
  | nil => exact Ends.ok []
  | cons p tables ih =>
    obtain ⟨tab, strtab⟩ := p
    unfold Audit.readSymbols
    cases sections tab with
    | none => exact ih
    | some data =>
      cases sections strtab with
      | none => exact ih
      | some names =>
        refine (Ends.readTableSymbols is64 data.data names.data).bind fun symbols => ?_
        split_ifs
        · exact ih
        · exact Ends.ok symbols

theorem Ends.init (path : String) (raw : List UInt8) : Ends (Elf.init path raw) := by
  unfold Elf.init
  split_ifs
  · exact fun h => Error.noConfusion (Except.error.inj h)
  · refine (Ends.item raw 4).bind fun cls => ?_
    refine (Ends.readAt (unsigned_keeps 2) raw 18).bind fun _ => ?_
    refine (Ends.readSections _ raw).bind fun entries => ?_
    exact (Ends.readSymbols _ _ _).bind fun symbols => Ends.ok _

theorem Ends.describe (elf : Elf) (frames : List FrameInfo) (exidx : List (ℤ × Bool))
    (pretty : List Char → Option (List Char)) (fmt : TableFormat) (s : Symbol) :
    Ends (describe elf frames exidx pretty fmt s) := by
  unfold Audit.describe
  cases fmt with
  | armExidx => exact Ends.ok _
  | dwarfEhFrame =>
    dsimp only
    cases frames.reverse.find? fun f => f.pcBegin = s.value with
    | none => exact Ends.ok _
    | some frame =>
      dsimp only
      split_ifs
      · exact Ends.ok _
      · exact Ends.bind (parse_lsda_ends elf _ _) fun _ => Ends.ok _

/-- Whatever the bytes are, every loop of the audit comes to an end: over sections, symbols, records,
call sites, index entries and the numbers in them. -/
theorem audit_ends (demangle : List (List Char) → List Char → Option (List Char)) (path : String)
    (raw : List UInt8) (required : List (List Char)) :
    Ends (audit demangle path raw required) := by
  refine (Ends.init path raw).bind fun elf => ?_
  refine Ends.bind (parse_eh_frame_ends elf.toElf) fun frames => ?_
  obtain ⟨exidx, hexidx⟩ := parseArmExidx_ok elf.toElf
  rw [hexidx]
  refine Ends.bind (Ends.ok exidx) fun exidx => ?_
  exact (Ends.mapM (Ends.describe elf.toElf frames exidx _ _) _).bind fun functions => Ends.ok _

end Jmpxx.Audit
