import Jmpxx.AuditFrames

namespace Jmpxx.Audit

open Cursor

variable {α β : Type} {r : Reader}

structure Onward (r r' : Reader) : Prop where
  data : r'.data = r.data
  pos : r.pos ≤ r'.pos

/-- It goes on by a byte at least. -/
structure Further (r r' : Reader) : Prop extends Onward r r' where
  more : r.pos < r.data.length
  further : r.pos < r'.pos

/-- Wherever the reading starts, no loop goes on, and it leaves the reader as the relation says. -/
def Moves (R : Reader → Reader → Prop) (m : Read α) : Prop :=
  ∀ r, Ensures .endless m r fun _ r' => R r r'

section Rules

variable {R S T : Reader → Reader → Prop} {m : Read α} {k : α → Read β}

theorem Moves.mono (hm : Moves R m) (h : ∀ r r', R r r' → S r r') : Moves S m := fun r =>
  (hm r).conseq fun _ r' => h r r'

theorem Moves.bind (hm : Moves R m) (hk : ∀ a, Moves S (k a))
    (h : ∀ r s t, R r s → S s t → T r t) : Moves T (m >>= k) := fun r =>
  ((hm r).conseq fun a s hr => (hk a s).conseq fun _ t hs => h r s t hr hs).bind

theorem Onward.refl (r : Reader) : Onward r r := ⟨rfl, Nat.le_refl _⟩

theorem Onward.trans {r s t : Reader} (h : Onward r s) (h' : Onward s t) : Onward r t :=
  ⟨h'.data.trans h.data, h.pos.trans h'.pos⟩

theorem Onward.further {r s t : Reader} (h : Onward r s) (h' : Further s t) : Further r t where
  toOnward := h.trans h'.toOnward
  more := by
    have hmore := h'.more
    rw [h.data] at hmore
    exact h.pos.trans_lt hmore
  further := h.pos.trans_lt h'.further

theorem Further.onward {r s t : Reader} (h : Further r s) (h' : Onward s t) : Further r t :=
  ⟨h.toOnward.trans h', h.more, h.further.trans_le h'.pos⟩

theorem Further.unread_lt {r' : Reader} (h : Further r r') :
    r'.unread.length < r.unread.length := by
  have hmore := h.more
  have hfurther := h.further
  simp only [unread, List.length_drop, h.data]
  omega

def Keeps (m : Read α) : Prop := Moves (fun r r' => r'.data = r.data) m

theorem Moves.keeps (hm : Moves R m) (h : ∀ r r', R r r' → Onward r r') : Keeps m :=
  hm.mono fun r r' hr => (h r r' hr).data

theorem Keeps.pure (a : α) : Keeps (pure a) := fun _ => rfl

theorem Keeps.seek (pos : ℕ) : Keeps (seek pos) := fun _ => rfl

theorem Keeps.bind (hm : Keeps m) (hk : ∀ a, Keeps (k a)) : Keeps (m >>= k) :=
  Moves.bind hm hk fun _ _ _ h h' => h'.trans h

theorem Keeps.get {k : Reader → Read β} (hk : ∀ r, Keeps (k r)) : Keeps (MonadState.get >>= k) :=
  fun r => hk r r

/-- Either branch goes on in the same way. -/
theorem Ensures.branch {p : Prop} [Decidable p] {a b : Read α} {post : β → Reader → Prop}
    (ha : Keeps a) (hb : Keeps b)
    (hk : ∀ x r', r'.data = r.data → Ensures .endless (k x) r' post) :
    Ensures .endless (if p then a >>= k else b >>= k) r post := by
  split_ifs
  · exact ((ha r).conseq hk).bind
  · exact ((hb r).conseq hk).bind

theorem Keeps.branch {p : Prop} [Decidable p] {a b : Read α} (ha : Keeps a) (hb : Keeps b)
    (hk : ∀ x, Keeps (k x)) : Keeps (if p then a >>= k else b >>= k) := fun _ =>
  Ensures.branch ha hb fun x s h => (hk x s).conseq fun _ _ h' => h'.trans h

theorem andPure_ne {x : Except Error α} (f : α → β) (h : x ≠ .error .endless) :
    (x >>= fun a => pure (f a)) ≠ .error .endless := by
  cases x with
  | ok a =>
    intro hok
    cases hok
  | error e =>
    intro herror
    exact h (congrArg Except.error (Except.error.inj herror))

theorem Ensures.run_ne {post : α → Reader → Prop} (h : Ensures .endless m r post) :
    m r ≠ .error .endless := by
  intro hrun
  unfold Ensures at h
  rw [hrun] at h
  exact h rfl

end Rules

theorem u8_moves : Moves Further u8 := by
  intro r
  refine Ensures.bind (Ensures.next (by decide : Error.index ≠ .endless) fun hmore x => ?_)
  refine ⟨⟨rfl, Nat.le_add_right _ 1⟩, ?_, Nat.lt_succ_self _⟩
  by_contra hend
  exact hmore (List.drop_eq_nil_of_le (Nat.not_lt.mp hend))

theorem fixed_moves (size : ℕ) (signed : Bool) (r : Reader) :
    Ensures .endless (fixed size signed) r fun _ r' => r' = r.skip size := by
  unfold fixed
  by_cases hsize : size ∈ [1, 2, 4, 8]
  · rw [if_pos hsize]
    exact Ensures.bind (Ensures.take (by decide : Error.struct ≠ .endless) fun _ => rfl)
  · rw [if_neg hsize]
    exact Ensures.throw (by simp)

/-- The bytes run out before the turns do. -/
theorem ulebLoop_moves {turns : ℕ} (h : r.unread.length < turns) (result shift : ℕ) :
    Ensures .endless (ulebLoop turns result shift) r fun _ r' => Further r r' := by
  induction turns generalizing r result shift with
  | zero => exact absurd h (Nat.not_lt_zero _)
  | succ turns ih =>
    refine ((u8_moves r).conseq fun byte s hs => ?_).bind
    have hless := hs.unread_lt
    dsimp only
    split_ifs
    · exact hs
    · exact (@ih s (by omega) _ _).conseq fun _ t ht => hs.onward ht.toOnward

theorem slebLoop_moves {turns : ℕ} (h : r.unread.length < turns) (result shift : ℕ) :
    Ensures .endless (slebLoop turns result shift) r fun _ r' => Further r r' := by
  induction turns generalizing r result shift with
  | zero => exact absurd h (Nat.not_lt_zero _)
  | succ turns ih =>
    refine ((u8_moves r).conseq fun byte s hs => ?_).bind
    have hless := hs.unread_lt
    dsimp only
    by_cases hlast : byte &&& 0x80 = 0
    · rw [if_pos hlast]
      exact hs
    · rw [if_neg hlast]
      exact (@ih s (by omega) _ _).conseq fun _ t ht => hs.onward ht.toOnward

theorem uleb_moves : Moves Further uleb := fun _ => ulebLoop_moves (Nat.lt_succ_self _) 0 0

theorem sleb_moves : Moves Further sleb := fun _ => slebLoop_moves (Nat.lt_succ_self _) 0 0

theorem fixed_onward (size : ℕ) (signed : Bool) : Moves Onward (fixed size signed) := fun r =>
  (fixed_moves size signed r).conseq fun _ _ h => h ▸ ⟨rfl, Nat.le_add_right _ _⟩

theorem number_moves (encoding size : ℕ) : Moves Onward (number encoding size) := by
  intro r
  unfold number
  dsimp only
  split_ifs
  · exact fixed_onward _ _ r
  · exact ((uleb_moves r).conseq fun _ _ h => h.toOnward).bind
  · exact (sleb_moves r).conseq fun _ _ h => h.toOnward
  · exact fixed_onward _ _ r
  · exact fixed_onward _ _ r
  · exact Ensures.throw (by simp)

theorem encoded_moves (encoding size funcStart : ℕ) :
    Moves Onward (encoded encoding size funcStart) := by
  intro r
  unfold encoded
  split_ifs
  · exact Onward.refl r
  · refine Ensures.get (((number_moves encoding size r).conseq fun value s hs => ?_).bind)
    dsimp only
    split_ifs
    · exact hs
    · exact hs
    · exact hs
    · exact Ensures.throw (by simp)

theorem site_moves (csEnc size : ℕ) (n : Sites) : Moves Further (site csEnc size n) := by
  refine (encoded_moves csEnc size 0).bind (fun _ => ?_) fun r s t => Onward.further
  refine (encoded_moves csEnc size 0).bind (fun _ => ?_) fun r s t => Onward.further
  refine (encoded_moves csEnc size 0).bind (fun _ => ?_) fun r s t => Onward.further
  exact uleb_moves.bind (fun _ r => Onward.refl r) fun r s t => Further.onward

theorem u8_keeps : Keeps u8 := u8_moves.keeps fun _ _ h => h.toOnward

theorem uleb_keeps : Keeps uleb := uleb_moves.keeps fun _ _ h => h.toOnward

theorem encoded_keeps (encoding size funcStart : ℕ) : Keeps (encoded encoding size funcStart) :=
  (encoded_moves encoding size funcStart).keeps fun _ _ h => h

theorem readLsda_ends (size funcStart : ℕ) (r : Reader) :
    Ensures .endless (readLsda size funcStart) r fun _ _ => True := by
  unfold readLsda
  refine ((u8_keeps r).conseq fun lpEnc r _ => ?_).bind
  refine Ensures.branch (encoded_keeps lpEnc size funcStart) (Keeps.pure _) fun lpStart r _ => ?_
  refine ((u8_keeps r).conseq fun ttypeEnc r _ => ?_).bind
  refine Ensures.branch uleb_keeps (Keeps.pure _) fun _ r _ => ?_
  refine ((u8_keeps r).conseq fun csEnc r _ => ?_).bind
  refine ((uleb_keeps r).conseq fun csLen r _ => Ensures.get ?_).bind
  refine Ensures.bind ((Ensures.loop (fun n r _ => ?_) (Nat.lt_succ_self _)).conseq
    fun _ _ _ => trivial)
  exact (site_moves csEnc size n r).conseq fun _ _ h _ => h.unread_lt

/-- Each turn of the call-site loop reads on. -/
theorem parse_lsda_ends (elf : Elf) (lsdaAddr funcStart : ℕ) :
    parseLsda elf lsdaAddr funcStart ≠ .error .endless := by
  unfold parseLsda
  cases elf.sections ".gcc_except_table" with
  | none => simp
  | some sec =>
    dsimp only
    split_ifs
    · exact andPure_ne (fun p => (p.1, some p.2)) (Ensures.run_ne (readLsda_ends _ _ _))
    · simp

theorem augmentation_keeps (size : ℕ) (letters : List Char) (enc : ℕ × ℕ) :
    Keeps (augmentation size letters enc) := by
  induction letters generalizing enc with
  | nil => exact Keeps.pure enc
  | cons ch letters ih =>
    unfold augmentation
    split_ifs
    · exact u8_keeps.bind fun fdeEnc => ih (fdeEnc, enc.2)
    · exact u8_keeps.bind fun lsdaEnc => ih (enc.1, lsdaEnc)
    · exact u8_keeps.bind fun encoding => (encoded_keeps encoding size 0).bind fun _ => ih enc
    · exact ih enc
    · exact Keeps.pure enc

theorem cstring_keeps : Keeps cstring := by
  intro r
  unfold cstring
  refine Ensures.get ?_
  cases r.unread.idxOf? 0 with
  | none => exact Ensures.throw (by simp)
  | some n => exact (Keeps.seek _).bind (fun _ => Keeps.pure _) r

theorem readCie_keeps (size : ℕ) : Keeps (readCie size) := by
  have hrest (aug : List Char) : Keeps (if aug.head? = some 'z' then do
      let augLen ← uleb
      let r ← get
      let augEnd := r.pos + augLen
      let enc ← augmentation size aug.tail (0x00, peOmit)
      seek augEnd
      pure enc
    else pure (0x00, peOmit) : Read (ℕ × ℕ)) := by
    split_ifs
    · exact uleb_keeps.bind fun _ => Keeps.get fun r =>
        (augmentation_keeps size aug.tail _).bind fun enc => (Keeps.seek _).bind fun _ =>
          Keeps.pure enc
    · exact Keeps.pure _
  unfold readCie
  refine u8_keeps.bind fun version => cstring_keeps.bind fun aug => uleb_keeps.bind fun _ => ?_
  refine (sleb_moves.keeps fun _ _ h => h.toOnward).bind fun _ => ?_
  exact Keeps.branch uleb_keeps u8_keeps fun _ => hrest aug

theorem readTable_keeps (size lsdaEnc pcBegin : ℕ) : Keeps (readTable size lsdaEnc pcBegin) := by
  unfold readTable
  split_ifs
  · refine uleb_keeps.bind fun augLen => Keeps.get fun r => ?_
    exact Keeps.branch (encoded_keeps lsdaEnc size pcBegin) (Keeps.pure 0) fun lsda =>
      (Keeps.seek _).bind fun _ => Keeps.pure lsda
  · exact Keeps.pure 0

theorem readFde_keeps (size fdeEnc lsdaEnc : ℕ) : Keeps (readFde size fdeEnc lsdaEnc) :=
  (encoded_keeps fdeEnc size 0).bind fun pcBegin => (encoded_keeps _ size 0).bind fun _ =>
    (readTable_keeps size lsdaEnc pcBegin).bind fun _ => Keeps.pure _

/-- A turn of the record loop ends past its length. -/
theorem record_moves (size : ℕ) (s : Frames) (h : (!eof r) = true) :
    Ensures .endless (record size s) r fun s' r' =>
      s'.isSome → r'.unread.length < r.unread.length := by
  have hmore : r.pos < r.data.length := by
    simpa [eof] using h
  have hpast {r' : Reader} (hdata : r'.data = r.data) (stop : ℕ) (hstop : r.pos < stop) :
      ({ r' with pos := stop } : Reader).unread.length < r.unread.length := by
    simp only [unread, List.length_drop, hdata]
    omega
  unfold record
  refine Ensures.get ((fixed_moves 4 false r).conseq ?_).bind
  rintro length _ rfl
  by_cases hzero : length = 0
  · rw [if_pos hzero]
    exact Ensures.pure (by simp)
  rw [if_neg hzero]
  by_cases hwide : length = 0xFFFFFFFF
  · rw [if_pos hwide]
    exact Ensures.throw (by simp)
  rw [if_neg hwide]
  refine Ensures.get ((fixed_moves 4 false _).conseq ?_).bind
  rintro cieId _ rfl
  by_cases hcie : cieId = 0
  · rw [if_pos hcie]
    refine ((readCie_keeps size _).conseq fun enc r' hr' => ?_).bind
    exact fun _ => hpast hr' _ (by simp only [pos_skip]; omega)
  · rw [if_neg hcie]
    refine ((readFde_keeps size _ _ _).conseq fun frame r' hr' => ?_).bind
    exact fun _ => hpast hr' _ (by simp only [pos_skip]; omega)

/-- Each turn of the record loop leads on. -/
theorem parse_eh_frame_ends (elf : Elf) : parseEhFrame elf ≠ .error .endless := by
  unfold parseEhFrame
  cases elf.sections ".eh_frame" with
  | none => simp
  | some sec =>
    dsimp only
    split_ifs
    · simp
    · refine andPure_ne (fun p : Frames × Reader => p.1.frames)
        (Ensures.run_ne (Ensures.loop ?_ ?_))
      · exact fun s r h => record_moves elf.ptrSize s h
      · simp [unread]

end Jmpxx.Audit
