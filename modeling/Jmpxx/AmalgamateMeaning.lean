import Jmpxx.AmalgamateCopies

namespace Jmpxx.Amalgamate

open Preprocessor

variable {File : Type*} [DecidableEq File] {d : Directory File} {guard : File → Text} {own : Text}
  {o : Outside} {T : List (File × Bool)}

theorem lookup_eq_none {trace : List (File × Bool)} {f : File} :
    trace.lookup f = none ↔ f ∉ trace.map Prod.fst := by
  rw [List.lookup_eq_none_iff, List.mem_map]
  refine ⟨fun h hex => ?_, fun h p hp => ?_⟩
  · obtain ⟨p, hp, rfl⟩ := hex
    simpa using h p hp
  · exact bne_iff_ne.mpr fun heq => h ⟨p, hp, heq.symm⟩

/-- A header that is reached again was first reached at a free place. -/
theorem FirstFree.lookup_eq (hT : FirstFree T) {trace : List (File × Bool)} {f : File} {here : Bool}
    (hp : trace ++ [(f, here)] <+: T) (hf : f ∈ trace.map Prod.fst) :
    trace.lookup f = some true := by
  obtain ⟨more, rfl⟩ := hp
  have hlt : trace.length < (trace ++ [(f, here)] ++ more).length := by simp
  have hfirst := hT trace.length hlt
  have htake : (trace ++ [(f, here)] ++ more).take trace.length = trace := by simp
  have hget : (trace ++ [(f, here)] ++ more).get ⟨trace.length, hlt⟩ = (f, here) := by simp
  rw [htake, hget] at hfirst
  rcases h : trace.lookup f with _ | b
  · exact absurd hf (lookup_eq_none.mp h)
  · cases b with
    | true => rfl
    | false => exact absurd h hfirst

namespace Directory

theorem arrive_of_no_target {l : Text} (h : d.files.target l = none)
    (reach : Bool → File → List (File × Bool) → List (File × Bool)) (free : Bool)
    (p : ℕ × List (File × Bool)) :
    d.arrive reach free p l = ((directive l).depth p.1, p.2) := by
  rw [arrive, h]
  rfl

end Directory

section Traces

variable {α : Type*} {free : Bool} {a b c : List (α × Bool)}

/-- A walk goes on with the trace, and from a place that is not free to no other. -/
def Grows (free : Bool) (a b : List (α × Bool)) : Prop :=
  ∃ more, b = a ++ more ∧ (free = false → ∀ p ∈ more, p.2 = false)

theorem Grows.refl (free : Bool) (a : List (α × Bool)) : Grows free a a :=
  ⟨[], (List.append_nil a).symm, fun _ _ hp => absurd hp List.not_mem_nil⟩

theorem Grows.trans (h : Grows free a b) (h' : Grows free b c) : Grows free a c := by
  obtain ⟨more, rfl, hmore⟩ := h
  obtain ⟨more', rfl, hmore'⟩ := h'
  refine ⟨more ++ more', List.append_assoc a more more', fun hfree p hp => ?_⟩
  exact (List.mem_append.mp hp).elim (hmore hfree p) (hmore' hfree p)

theorem Grows.isPrefix (h : Grows free a b) : a <+: b := by
  obtain ⟨more, rfl, -⟩ := h
  exact List.prefix_append a more

theorem Grows.single {here : Bool} (h : free = false → here = false) (a : List (α × Bool)) (x : α) :
    Grows free a (a ++ [(x, here)]) :=
  ⟨_, rfl, fun hfree p hp => by rw [List.mem_singleton.mp hp]; exact h hfree⟩

def Agree (w : Walk α) (trace : List (α × Bool)) : Prop :=
  ∀ f, f ∈ w.visited ↔ f ∈ trace.map Prod.fst

theorem Agree.again {w : Walk α} {trace : List (α × Bool)} (h : Agree w trace) {g : α}
    (hg : g ∈ w.visited) (here : Bool) : Agree w (trace ++ [(g, here)]) := by
  intro f
  rw [h f, List.map_append, List.mem_append]
  refine ⟨.inl, fun hf => hf.elim id fun hf => ?_⟩
  rw [List.mem_singleton.mp hf]
  exact (h g).mp hg

theorem Agree.visit {w : Walk α} {trace : List (α × Bool)} (h : Agree w trace) (g : α)
    (here : Bool) : Agree { w with visited := g :: w.visited } (trace ++ [(g, here)]) := by
  intro f
  rw [List.mem_cons, h f, List.map_append, List.mem_append, or_comm]
  exact or_congr_right List.mem_singleton.symm

end Traces

theorem grows_foldl_arrive (d : Directory File)
    {reach : Bool → File → List (File × Bool) → List (File × Bool)}
    (h : ∀ free f trace, Grows free trace (reach free f trace)) (free : Bool) (ls : List Text)
    (p : ℕ × List (File × Bool)) : Grows free p.2 (ls.foldl (d.arrive reach free) p).2 := by
  induction ls generalizing p with
  | nil => exact .refl free p.2
  | cons l ls ih =>
    refine Grows.trans ?_ (ih _)
    rw [Directory.arrive]
    rcases d.files.target l with _ | g
    · exact .refl free p.2
    · have hsingle : ∀ b, Grows free p.2 (p.2 ++ [(g, free && b)]) := fun b =>
        .single (fun hfree => by rw [hfree]; rfl) p.2 g
      dsimp only [Option.elim]
      split
      · exact hsingle _
      · obtain ⟨more, hmore, hfalse⟩ := h (free && p.1 == 1) g (p.2 ++ [(g, free && p.1 == 1)])
        exact (hsingle _).trans ⟨more, hmore, fun hfree => hfalse (by rw [hfree]; rfl)⟩

theorem grows_reach (d : Directory File) (k : ℕ) (free : Bool) (f : File)
    (trace : List (File × Bool)) :
    Grows free trace (d.reach k free f trace) := by
  induction k generalizing free f trace with
  | zero => exact .refl free trace
  | succ k ih => exact grows_foldl_arrive d ih free (d.files.lines f) (0, trace)

/-- The guards that are defined: of headers that were reached, and of all that were first reached
at a free place. -/
structure Kept (guard : File → Text) (trace : List (File × Bool)) (s : State) : Prop where
  known : ∀ f, guard f ∈ s.defined → f ∈ trace.map Prod.fst
  entered : ∀ f, trace.lookup f = some true → guard f ∈ s.defined

theorem Kept.append {trace more : List (File × Bool)} {s : State} (h : Kept guard trace s)
    (hmore : ∀ f, (trace ++ more).lookup f = some true → trace.lookup f = some true) :
    Kept guard (trace ++ more) s := by
  refine ⟨fun f hf => ?_, fun f hf => h.entered f (hmore f hf)⟩
  rw [List.map_append]
  exact List.mem_append_left _ (h.known f hf)

/-- A header reached again changes nothing. -/
theorem Kept.again {trace : List (File × Bool)} {s : State} (h : Kept guard trace s) {g : File}
    (hg : trace.lookup g = some true) (here : Bool) : Kept guard (trace ++ [(g, here)]) s := by
  refine h.append fun f hf => ?_
  rw [List.lookup_append] at hf
  rcases hlookup : trace.lookup f with _ | b
  · rw [hlookup, Option.none_or] at hf
    obtain ⟨l₁, l₂, hsplit, -⟩ := List.lookup_eq_some_iff.mp hf
    have hmem : (f, true) ∈ [(g, here)] := hsplit ▸ by simp
    rw [(Prod.mk.inj (List.mem_singleton.mp hmem)).1, hg] at hlookup
    cases hlookup
  · rwa [hlookup] at hf

theorem lookup_append_false {trace more : List (File × Bool)} (h : ∀ p ∈ more, p.2 = false) (f : File)
    (hf : (trace ++ more).lookup f = some true) : trace.lookup f = some true := by
  rw [List.lookup_append] at hf
  rcases htrace : trace.lookup f with _ | b
  · rw [htrace, Option.none_or] at hf
    obtain ⟨l₁, l₂, hsplit, -⟩ := List.lookup_eq_some_iff.mp hf
    exact absurd (h (f, true) (hsplit ▸ by simp)) (by simp)
  · rwa [htrace] at hf

theorem foldl_arrive_of_no_target {ls : List Text} (h : ∀ l ∈ ls, d.files.target l = none)
    (reach : Bool → File → List (File × Bool) → List (File × Bool)) (free : Bool)
    (p : ℕ × List (File × Bool)) :
    ls.foldl (d.arrive reach free) p =
      (ls.foldl (fun n l => (directive l).depth n) p.1, p.2) := by
  induction ls generalizing p with
  | nil => rfl
  | cons l ls ih =>
    rw [List.foldl_cons, Directory.arrive_of_no_target (h l List.mem_cons_self),
      ih fun l' hl => h l' (List.mem_cons_of_mem l hl), List.foldl_cons]

/-- The walk over `ls` makes `made` of them; read under the guard of the single header, that does
what the lines do. `n` and `n'` conditionals are open before and behind. -/
structure Match (d : Directory File) (guard : File → Text) (own : Text) (o : Outside)
    (T : List (File × Bool)) (k : ℕ) (ls : List Text) (w w' : Walk File)
    (trace trace' : List (File × Bool)) (n n' : ℕ) (made : List Text) : Prop where
  walked : ls.foldlM (d.logicalTree.visit (d.logicalTree.inline k)) w = some w'
  out : w'.out = w.out ++ made
  agree : Agree w' trace'
  closed : ∀ rest, Closed n' rest → Closed n (made ++ rest)
  whole : ∀ l ∈ made, d.files.target l = none
  same : ∀ (s : State) (inner base : List Frame), s.frames = inner ++ base → inner.length = n →
    base ≠ [] → base.all (·.now) → Kept guard trace s → trace' <+: T →
    ∃ s' inner', ls.foldlM (step d.files o (enter d.files o k)) s = some s' ∧
      made.foldl (plain o) (s.under own) = s'.under own ∧ s'.frames = inner' ++ base ∧
      inner'.length = n' ∧ Kept guard trace' s' ∧ ∀ f, guard f ∈ s.defined → guard f ∈ s'.defined

/-- The same of a header, when it is first reached. -/
def HeaderOk (d : Directory File) (guard : File → Text) (own : Text) (o : Outside)
    (T : List (File × Bool)) (k : ℕ) (f : File) : Prop :=
  ∀ (free : Bool) (trace : List (File × Bool)) (w : Walk File), f ∉ trace.map Prod.fst →
    Agree w (trace ++ [(f, free)]) →
    ∃ w' made, d.logicalTree.inline k f w = some w' ∧ w'.out = w.out ++ made ∧
      Agree w' (d.reach k free f (trace ++ [(f, free)])) ∧ Closed 0 made ∧
      (∀ l ∈ made, d.files.target l = none) ∧
      ∀ s : State, s.active → Kept guard trace s →
        d.reach k free f (trace ++ [(f, free)]) <+: T →
        ∃ s', enter d.files o k f s = some s' ∧
          made.foldl (plain o) (s.under own) = s'.under own ∧ s'.frames = s.frames ∧
          Kept guard (d.reach k free f (trace ++ [(f, free)])) s' ∧
          ∀ f, guard f ∈ s.defined → guard f ∈ s'.defined

section Lines

variable {k : ℕ} {w : Walk File} {trace : List (File × Bool)} {n : ℕ} {l : Text}

theorem Match.nil (hagree : Agree w trace) : Match d guard own o T k [] w w trace trace n n [] where
  walked := rfl
  out := (List.append_nil _).symm
  agree := hagree
  closed _ h := h
  whole _ hl := absurd hl List.not_mem_nil
  same s inner _ hs hlen _ _ hkept _ := ⟨s, inner, rfl, rfl, hs, hlen, hkept, fun _ h => h⟩

theorem Match.trans {ls ls' made made' : List Text} {w₁ w₂ : Walk File}
    {trace₁ trace₂ : List (File × Bool)} {n₁ n₂ : ℕ}
    (h : Match d guard own o T k ls w w₁ trace trace₁ n n₁ made)
    (h' : Match d guard own o T k ls' w₁ w₂ trace₁ trace₂ n₁ n₂ made') (hpre : trace₁ <+: trace₂) :
    Match d guard own o T k (ls ++ ls') w w₂ trace trace₂ n n₂ (made ++ made') where
  walked := by
    rw [List.foldlM_append, h.walked]
    exact h'.walked
  out := by rw [h'.out, h.out, List.append_assoc]
  agree := h'.agree
  closed rest hrest := by
    rw [List.append_assoc]
    exact h.closed _ (h'.closed rest hrest)
  whole l hl := (List.mem_append.mp hl).elim (h.whole l) (h'.whole l)
  same s inner base hs hlen hne hbase hkept hT := by
    obtain ⟨s₁, inner₁, hrun, hmade, hs₁, hlen₁, hkept₁, hgrow⟩ :=
      h.same s inner base hs hlen hne hbase hkept (hpre.trans hT)
    obtain ⟨s₂, inner₂, hrun', hmade', hs₂, hlen₂, hkept₂, hgrow'⟩ :=
      h'.same s₁ inner₁ base hs₁ hlen₁ hne hbase hkept₁ hT
    refine ⟨s₂, inner₂, ?_, ?_, hs₂, hlen₂, hkept₂, fun f hf => hgrow' f (hgrow f hf)⟩
    · rw [List.foldlM_append, hrun]
      exact hrun'
    · rw [List.foldl_append, hmade, hmade']

/-- A line that is not replaced stays. -/
theorem Match.line (hagree : Agree w trace) (htarget : d.files.target l = none)
    (hname : (directive l).macroName ≠ some own)
    (hguards : ∀ f, directive l ≠ .define (guard f) ∧ directive l ≠ .undef (guard f))
    (hwithin : (directive l).within → 0 < n) :
    Match d guard own o T k [l] w { w with out := w.out ++ [l] } trace trace n
      ((directive l).depth n) [l] where
  walked := Tree.foldlM_visit_of_none (List.forall_mem_singleton.mpr htarget) _ w
  out := rfl
  agree := hagree
  closed _ hrest := ⟨hwithin, hrest⟩
  whole := List.forall_mem_singleton.mpr htarget
  same s inner base hs hlen hne _ hkept _ := by
    subst hlen
    obtain ⟨inner', hframes, hlen'⟩ := @plain_frames o s l inner base hs hwithin
    have hdefined : ∀ f, guard f ∈ (plain o s l).defined ↔ guard f ∈ s.defined := fun f =>
      plain_defined (hguards f).1 (hguards f).2 s
    refine ⟨plain o s l, inner', ?_, ?_, hframes, hlen', ⟨?_, ?_⟩, fun f => (hdefined f).mpr⟩
    · exact foldlM_step_of_no_target (List.forall_mem_singleton.mpr htarget) o _ s
    · refine plain_under hname fun _ => ?_
      rw [hs]
      exact List.append_ne_nil_of_right_ne_nil inner hne
    · exact fun f hf => hkept.known f ((hdefined f).mp hf)
    · exact fun f hf => (hdefined f).mpr (hkept.entered f hf)

/-- An include of a header that was visited is dropped, and has nothing more to say. -/
theorem Match.again (hagree : Agree w trace) {g : File} (htarget : d.files.target l = some g)
    (hvisited : g ∈ w.visited) (hT : FirstFree T)
    (hwrapped : Wrapped (Set.range guard) (guard g) (d.files.lines g)) (here : Bool) :
    Match d guard own o T (k + 1) [l] w w trace (trace ++ [(g, here)]) n n [] where
  walked := by
    rw [List.foldlM_cons, Tree.visit_of_some (t := d.logicalTree) htarget, if_pos hvisited]
    rfl
  out := (List.append_nil _).symm
  agree := hagree.again hvisited here
  closed _ h := h
  whole _ hl := absurd hl List.not_mem_nil
  same s inner base hs hlen _ _ hkept hpre := by
    have hfree := hT.lookup_eq hpre ((hagree g).mp hvisited)
    have hagain := @enter_again _ d.files o _ g _ hwrapped s (hkept.entered g hfree)
    refine ⟨s, inner, ?_, rfl, hs, hlen, hkept.again hfree here, fun _ h => h⟩
    rw [List.foldlM_cons]
    by_cases hon : s.active
    · rw [step_of_target htarget o _ hon, hagain hon]
      rfl
    · rw [step_skipped htarget o _ (by simpa using hon)]
      rfl

/-- An include of a header that is reached for the first time. -/
theorem Match.first (hagree : Agree w trace) {g : File} (htarget : d.files.target l = some g)
    (hvisited : g ∉ w.visited) (hok : HeaderOk d guard own o T k g) {free : Bool} :
    ∃ w' made, Match d guard own o T k [l] w w' trace
      (d.reach k (free && n + 1 == 1) g (trace ++ [(g, free && n + 1 == 1)])) n n made := by
  set here := free && n + 1 == 1 with hhere
  have hnew : g ∉ trace.map Prod.fst := fun h => hvisited ((hagree g).mpr h)
  obtain ⟨w', made, hwalk, hout, hagree', hclosed, hwhole, hsame⟩ :=
    hok here trace _ hnew (hagree.visit g here)
  refine ⟨w', made, ?_, hout, hagree', fun rest hrest => ?_, hwhole, ?_⟩
  · rw [List.foldlM_cons, Tree.visit_of_some (t := d.logicalTree) htarget, if_neg hvisited, hwalk]
    rfl
  · have hadd := hclosed.add hrest
    rwa [Nat.zero_add] at hadd
  · intro s inner base hs hlen hne hbase hkept hpre
    by_cases hon : s.active
    · obtain ⟨s', henter, hmade, hframes, hkept', hgrow⟩ := hsame s hon hkept hpre
      refine ⟨s', inner, ?_, hmade, hframes.trans hs, hlen, hkept', hgrow⟩
      rw [List.foldlM_cons, step_of_target htarget o _ hon, henter]
      rfl
    · -- a place that is skipped is inside a conditional of the header
      have hoff : s.active = false := by simpa using hon
      have hpos : here = false := by
        rw [hhere]
        rcases inner with _ | ⟨f, inner⟩
        · rw [active_eq hs, hbase] at hoff
          cases hoff
        · subst hlen
          simp
      obtain ⟨more, hmore, hfalse⟩ := grows_reach d k here g (trace ++ [(g, here)])
      refine ⟨s, inner, ?_, ?_, hs, hlen, ?_, fun _ h => h⟩
      · rw [List.foldlM_cons, step_skipped htarget o _ hoff]
        rfl
      · have hskip := @skip _ d.files o (fun _ s => some s) made (s.under own) [] (s.under own).frames
          rfl (by rw [← active_under own] at hoff; exact hoff) hclosed
        rw [foldlM_step_of_no_target hwhole] at hskip
        exact Option.some.inj hskip
      · rw [hmore, List.append_assoc]
        refine hkept.append (lookup_append_false fun p hp => ?_)
        rcases List.mem_cons.mp hp with rfl | hp
        · exact hpos
        · exact hfalse hpos p hp

end Lines

/-- The headers a line may include are as they should be, and it is a line of one of them. -/
structure LineIn (d : Directory File) (guard : File → Text) (own : Text) (o : Outside)
    (T : List (File × Bool)) (k : ℕ) (l : Text) : Prop where
  name : (directive l).macroName ≠ some own
  guards : ∀ f, directive l ≠ .define (guard f) ∧ directive l ≠ .undef (guard f)
  header : ∀ g, d.files.target l = some g → 0 < k ∧ HeaderOk d guard own o T k g

theorem exists_match_line (hG : d.Guarded guard own) (hT : FirstFree T) {k : ℕ} {l : Text}
    (hl : LineIn d guard own o T k l) {w : Walk File} {trace : List (File × Bool)}
    (hagree : Agree w trace) {n : ℕ} (hwithin : (directive l).within → 0 < n) (free : Bool) :
    ∃ w' made, Match d guard own o T k [l] w w' trace
      (d.arrive (d.reach k) free (n + 1, trace) l).2 n ((directive l).depth n) made := by
  rcases htarget : d.files.target l with _ | g
  · rw [Directory.arrive_of_no_target htarget]
    exact ⟨_, _, .line hagree htarget hl.name hl.guards hwithin⟩
  · obtain ⟨hk, hheader⟩ := hl.header g htarget
    obtain ⟨k, rfl⟩ := Nat.exists_eq_add_of_lt hk
    obtain ⟨name, hd⟩ := directive_of_target htarget
    have hdepth : (directive l).depth n = n := by rw [hd]; rfl
    rw [Directory.arrive, htarget, hdepth]
    dsimp only [Option.elim]
    by_cases hvisited : g ∈ w.visited
    · rw [if_pos ((hagree g).mp hvisited)]
      rw [Nat.zero_add] at *
      exact ⟨w, [], .again hagree htarget hvisited hT (hG.wrapped g) _⟩
    · rw [if_neg fun h => hvisited ((hagree g).mpr h)]
      exact Match.first hagree htarget hvisited hheader

theorem exists_match (hG : d.Guarded guard own) (hT : FirstFree T) {k : ℕ} {ls : List Text}
    (hls : ∀ l ∈ ls, LineIn d guard own o T k l) {w : Walk File} {trace : List (File × Bool)}
    (hagree : Agree w trace) {n : ℕ} (hclosed : Closed n ls) (free : Bool) :
    ∃ w' made, Match d guard own o T k ls w w' trace
      (ls.foldl (d.arrive (d.reach k) free) (n + 1, trace)).2 n 0 made := by
  induction ls generalizing w trace n with
  | nil =>
    obtain rfl : n = 0 := hclosed
    exact ⟨w, [], .nil hagree⟩
  | cons l ls ih =>
    obtain ⟨w₁, made₁, h₁⟩ :=
      exists_match_line hG hT (hls l List.mem_cons_self) hagree hclosed.1 free
    obtain ⟨w₂, made₂, h₂⟩ :=
      ih (fun l' hl => hls l' (List.mem_cons_of_mem l hl)) h₁.agree hclosed.2
    have hstep : d.arrive (d.reach k) free (n + 1, trace) l =
        ((directive l).depth n + 1, (d.arrive (d.reach k) free (n + 1, trace) l).2) :=
      Prod.ext (Directive.depth_add hclosed.1 1) rfl
    rw [List.foldl_cons, hstep]
    have hgrows := grows_foldl_arrive d (grows_reach d k) free ls
      ((directive l).depth n + 1, (d.arrive (d.reach k) free (n + 1, trace) l).2)
    exact ⟨w₂, _, h₁.trans h₂ hgrows.isPrefix⟩

/-- Behind the lines that open a header's guard. -/
theorem Kept.inside (hG : d.Guarded guard own) {trace : List (File × Bool)} {s : State}
    (h : Kept guard trace s) (f : File) (free : Bool) :
    Kept guard (trace ++ [(f, free)]) (s.inside (guard f)) := by
  refine ⟨fun g hg => ?_, fun g hg => ?_⟩
  · rw [List.map_append, List.mem_append]
    rcases List.mem_cons.mp hg with heq | hg
    · exact .inr (List.mem_singleton.mpr (hG.unique heq))
    · exact .inl (h.known g hg)
  · by_cases hgf : g = f
    · rw [hgf]
      exact List.mem_cons_self
    · have hone : List.lookup g [(f, free)] = none :=
        lookup_eq_none.mpr fun hmem => hgf (List.mem_singleton.mp hmem)
      rw [List.lookup_append, hone, Option.or_none] at hg
      exact List.mem_cons_of_mem _ (h.entered g hg)

/-- The walk over a header goes through what is inside its guard. -/
theorem reach_wrapped {f : File} {g : Text} {opening body closing : List Text}
    (hls : d.files.lines f = opening ++ (body ++ closing)) (hopening : Opening g opening)
    (hclosing : Closing closing) (k : ℕ) (free : Bool) (trace : List (File × Bool)) :
    d.reach (k + 1) free f trace = (body.foldl (d.arrive (d.reach k) free) (1, trace)).2 := by
  rw [Directory.reach, hls, List.foldl_append, foldl_arrive_of_no_target hopening.no_target,
    hopening.foldl_depth, List.foldl_append, foldl_arrive_of_no_target hclosing.no_target]

theorem inline_wrapped {f : File} {g : Text} {opening body closing : List Text}
    (hls : d.files.lines f = opening ++ (body ++ closing)) (hopening : Opening g opening)
    (hclosing : Closing closing) {k : ℕ} {w w' : Walk File}
    (hbody : body.foldlM (d.logicalTree.visit (d.logicalTree.inline k))
      { w with out := w.out ++ [d.logicalTree.provenance f] ++ opening } = some w') :
    d.logicalTree.inline (k + 1) f w = some { w' with out := w'.out ++ closing } := by
  have hlines : d.logicalTree.lines f = opening ++ (body ++ closing) := hls
  rw [Tree.inline, hlines, List.foldlM_append, Tree.foldlM_visit_of_none hopening.no_target]
  show List.foldlM _ _ _ = _
  rw [List.foldlM_append, hbody]
  exact Tree.foldlM_visit_of_none hclosing.no_target _ w'

/-- A header is as it should be if those below it are. -/
theorem headerOk_succ (hG : d.Guarded guard own) (hT : FirstFree T)
    (hguard : ∀ out f, o.defines out (guard f) = false) {k : ℕ} {f : File}
    (hbelow : ∀ g, d.Includes g f → 0 < k ∧ HeaderOk d guard own o T k g) :
    HeaderOk d guard own o T (k + 1) f := by
  intro free trace w hnew hagree
  obtain ⟨opening, body, closing, hls, hopening, hclosing, hclosed, hbody⟩ := hG.wrapped f
  have hmem : ∀ l ∈ body, l ∈ d.files.lines f := fun l hl => by
    rw [hls]
    exact List.mem_append_right _ (List.mem_append_left _ hl)
  have hlines : ∀ l ∈ body, LineIn d guard own o T k l := fun l hl =>
    { name := hG.own_unused f l (hmem l hl)
      guards := fun g => hbody l hl (guard g) ⟨g, rfl⟩
      header := fun g hg => hbelow g ⟨l, hmem l hl, hg⟩ }
  -- the lines of the guard stay, and the body is matched line by line
  have hinside : Agree { w with out := w.out ++ [d.logicalTree.provenance f] ++ opening }
      (trace ++ [(f, free)]) := hagree
  obtain ⟨w', made, hm⟩ := exists_match hG hT hlines hinside hclosed free
  have hreach := reach_wrapped hls hopening hclosing k free (trace ++ [(f, free)])
  have hprovenance : directive (d.logicalTree.provenance f) = .blank := rfl
  have hmade : Closed 0 made := by
    have hnil := hm.closed [] rfl
    rwa [List.append_nil] at hnil
  refine ⟨{ w' with out := w'.out ++ closing },
    d.logicalTree.provenance f :: (opening ++ (made ++ closing)),
    inline_wrapped hls hopening hclosing hm.walked, ?_, ?_, ?_, ?_, ?_⟩
  · show w'.out ++ closing = _
    rw [hm.out]
    simp
  · rw [hreach]
    exact hm.agree
  · exact (Wrapped.closed_of hopening hclosing hmade).blank_cons hprovenance
  · intro l hl
    rcases List.mem_cons.mp hl with rfl | hl
    · exact target_of_blank hprovenance
    · rcases List.mem_append.mp hl with hl | hl
      · exact hopening.no_target l hl
      · exact (List.mem_append.mp hl).elim (hm.whole l) (hclosing.no_target l)
  · intro s hs hkept hpre
    have hundefined : o.isDefined s (guard f) = false := by
      have hout : guard f ∉ s.defined := fun h => hnew (hkept.known f h)
      simp [Outside.isDefined, hout, hguard]
    have hunder : o.isDefined (s.under own) (guard f) = false := by
      rw [isDefined_under (hG.guard_ne_own f), hundefined]
    rw [hreach] at hpre ⊢
    obtain ⟨s', inner, hrun, hsame, hframes, hlen, hkept', hgrow⟩ :=
      hm.same (s.inside (guard f)) [] (⟨true, true⟩ :: s.frames) rfl rfl (List.cons_ne_nil _ _) hs
        (hkept.inside hG f free) hpre
    obtain rfl := List.length_eq_zero_iff.mp hlen
    rw [List.nil_append] at hframes
    refine ⟨{ s' with frames := s'.frames.tail }, enter_first hls hopening hclosing hundefined hs hrun,
      ?_, by rw [hframes]; rfl, ⟨hkept'.known, hkept'.entered⟩,
      fun g hg => hgrow g (List.mem_cons_of_mem _ hg)⟩
    have hfrom : plain o (s.under own) (d.logicalTree.provenance f) = s.under own := by
      rw [plain, hprovenance]
    rw [List.foldl_cons, hfrom, foldl_plain_wrapped hopening hclosing made hunder
      (by rwa [active_under]), inside_under, hsame, State.under, hframes]
    rfl

/-- Every header is, where the walk goes deep enough. -/
theorem headerOk [Finite File] (hG : d.Guarded guard own) (hacyclic : d.Acyclic) (hT : FirstFree T)
    (hguard : ∀ out f, o.defines out (guard f) = false) {k : ℕ} {f : File} (hk : d.level f < k) :
    HeaderOk d guard own o T k f := by
  induction k generalizing f with
  | zero => exact absurd hk (Nat.not_lt_zero _)
  | succ k ih =>
    refine headerOk_succ hG hT hguard fun g hg => ?_
    have hlt := Directory.level_lt hacyclic hg
    exact ⟨by omega, ih (by omega)⟩

def IsRoot (root : Text) : Prop := directive (includeLine root) = .include_ root ∧ isLocal root

theorem grows_foldl_reachRoot (d : Directory File) (k : ℕ) (roots : List Text)
    (trace : List (File × Bool)) : Grows true trace (roots.foldl (d.reachRoot k) trace) := by
  induction roots generalizing trace with
  | nil => exact .refl true trace
  | cons r roots ih =>
    have hsingle : Grows true trace (trace ++ [(d.resolve r, true)]) := .single id trace _
    refine Grows.trans ?_ (ih _)
    rw [Directory.reachRoot]
    split
    · exact hsingle
    · exact hsingle.trans (grows_reach d k true _ _)

theorem exists_root [Finite File] (hG : d.Guarded guard own) (hacyclic : d.Acyclic)
    (hT : FirstFree T) (hguard : ∀ out f, o.defines out (guard f) = false) {k : ℕ}
    (hk : Nat.card File < k) {r : Text} (hr : IsRoot r) {w : Walk File} {trace : List (File × Bool)}
    {s : State} (hagree : Agree w trace) (hkept : Kept guard trace s) (hs : s.frames = [])
    (hpre : d.reachRoot k trace r <+: T) :
    ∃ w' made s', d.logicalTree.visitRoot k w r = some w' ∧ w'.out = w.out ++ made ∧
      (∀ l ∈ made, d.files.target l = none) ∧
      step d.files o (enter d.files o k) s (includeLine r) = some s' ∧
      made.foldl (plain o) (s.under own) = s'.under own ∧ Agree w' (d.reachRoot k trace r) ∧
      Kept guard (d.reachRoot k trace r) s' ∧ s'.frames = [] := by
  have htarget : d.files.target (includeLine r) = some (d.resolve r) := by
    rw [Files.target, hr.1]
    exact if_pos hr.2
  have hon : s.active := by rw [State.active, hs]; rfl
  have hvisit : d.logicalTree.visitRoot k w r = if d.resolve r ∈ w.visited then some w
      else d.logicalTree.inline k (d.resolve r) { w with visited := d.resolve r :: w.visited } :=
    rfl
  rw [step_of_target htarget o (enter d.files o k) hon, hvisit]
  rw [Directory.reachRoot] at hpre ⊢
  by_cases hvisited : d.resolve r ∈ w.visited
  · have hmem := (hagree _).mp hvisited
    rw [if_pos hmem] at hpre ⊢
    -- reached before, at a free place: its guard is defined and the preprocessor skips it
    have hfree := hT.lookup_eq hpre hmem
    obtain ⟨k, rfl⟩ := Nat.exists_eq_add_of_lt hk
    have hagain := @enter_again _ d.files o _ (d.resolve r) _ (hG.wrapped _) s
      (hkept.entered _ hfree) hon
    rw [if_pos hvisited]
    exact ⟨w, [], s, rfl, (List.append_nil _).symm, fun l hl => absurd hl List.not_mem_nil,
      hagain _, rfl, hagree.again hvisited true, hkept.again hfree true, hs⟩
  · have hnew : d.resolve r ∉ trace.map Prod.fst := fun h => hvisited ((hagree _).mpr h)
    rw [if_neg hnew] at hpre ⊢
    have hlevel := (Directory.level_le (d := d) (d.resolve r)).trans_lt hk
    obtain ⟨w', made, hwalk, hout, hagree', -, hwhole, hsame⟩ :=
      headerOk hG hacyclic hT hguard hlevel true trace _ hnew (hagree.visit _ true)
    obtain ⟨s', henter, hmade, hframes, hkept', -⟩ := hsame s hon hkept hpre
    rw [if_neg hvisited]
    exact ⟨w', made, s', hwalk, hout, hwhole, henter, hmade, hagree', hkept', hframes.trans hs⟩

theorem exists_roots [Finite File] (hG : d.Guarded guard own) (hacyclic : d.Acyclic)
    (hT : FirstFree T) (hguard : ∀ out f, o.defines out (guard f) = false) {k : ℕ}
    (hk : Nat.card File < k) {roots : List Text} (hroots : ∀ r ∈ roots, IsRoot r) {w : Walk File}
    {trace : List (File × Bool)} {s : State} (hagree : Agree w trace) (hkept : Kept guard trace s)
    (hs : s.frames = []) (hpre : roots.foldl (d.reachRoot k) trace <+: T) :
    ∃ w' made s', roots.foldlM (d.logicalTree.visitRoot k) w = some w' ∧ w'.out = w.out ++ made ∧
      (∀ l ∈ made, d.files.target l = none) ∧
      (roots.map includeLine).foldlM (step d.files o (enter d.files o k)) s = some s' ∧
      made.foldl (plain o) (s.under own) = s'.under own := by
  induction roots generalizing w trace s with
  | nil =>
    exact ⟨w, [], s, rfl, (List.append_nil _).symm, fun l hl => absurd hl List.not_mem_nil, rfl, rfl⟩
  | cons r roots ih =>
    have hnow := (grows_foldl_reachRoot d k roots (d.reachRoot k trace r)).isPrefix.trans hpre
    obtain ⟨w₁, made₁, s₁, hvisit, hout, hwhole, hstep, hmade, hagree₁, hkept₁, hs₁⟩ :=
      exists_root hG hacyclic hT hguard hk (hroots r List.mem_cons_self) hagree hkept hs hnow
    obtain ⟨w₂, made₂, s₂, hwalk, hout', hwhole', hrun, hmade'⟩ :=
      ih (fun r' hr => hroots r' (List.mem_cons_of_mem r hr)) hagree₁ hkept₁ hs₁ hpre
    refine ⟨w₂, made₁ ++ made₂, s₂, ?_, ?_, ?_, ?_, ?_⟩
    · rw [List.foldlM_cons, hvisit]
      exact hwalk
    · rw [hout', hout, List.append_assoc]
    · exact fun l hl => (List.mem_append.mp hl).elim (hwhole l) (hwhole' l)
    · rw [List.map_cons, List.foldlM_cons, hstep]
      exact hrun
    · rw [List.foldl_append, hmade, hmade']

/-- What the walk makes of the roots, inside a guard, passes on what their includes pass on. -/
theorem exists_walk [Finite File] (hG : d.Guarded guard own) (hacyclic : d.Acyclic)
    (hguard : ∀ out f, o.defines out (guard f) = false) (hown : ∀ out, o.defines out own = false)
    {roots : List Text} (hroots : ∀ r ∈ roots, IsRoot r) {k : ℕ} (hk : Nat.card File < k)
    (hfirst : FirstFree (d.reached k roots)) :
    ∃ w modular, roots.foldlM (d.logicalTree.visitRoot k) {} = some w ∧
      preprocess d.files o k (roots.map includeLine) = some modular ∧
      ∀ front blank back, Opening own front → (∀ l ∈ blank, directive l = .blank) → Closing back →
        ∃ single, preprocess d.files o k (front ++ (blank ++ (w.out ++ (blank ++ back)))) =
          some single ∧ single.out = modular.out := by
  have hagree : Agree ({} : Walk File) [] := fun f => Iff.rfl
  have hkept : Kept guard ([] : List (File × Bool)) {} := ⟨nofun, nofun⟩
  obtain ⟨w, made, s, hwalk, hout, hwhole, hrun, hmade⟩ :=
    exists_roots hG hacyclic hfirst hguard hk hroots hagree hkept rfl (List.prefix_refl _)
  rw [List.nil_append] at hout
  refine ⟨w, s, hwalk, hrun, fun front blank back hfront hblank hback => ?_⟩
  -- no line of the single header is an include the preprocessor follows
  have htarget : ∀ l ∈ front ++ (blank ++ (w.out ++ (blank ++ back))),
      d.files.target l = none := by
    intro l hl
    simp only [List.mem_append] at hl
    rcases hl with hl | hl | hl | hl | hl
    · exact hfront.no_target l hl
    · exact target_of_blank (hblank l hl)
    · exact hwhole l (hout ▸ hl)
    · exact target_of_blank (hblank l hl)
    · exact hback.no_target l hl
  refine ⟨_, foldlM_step_of_no_target htarget o _ {}, ?_⟩
  have hundefined : o.isDefined {} own = false := hown []
  have hinside : ({} : State).inside own = ({} : State).under own := rfl
  rw [List.foldl_append, hfront.foldl_plain_first hundefined rfl, List.foldl_append,
    foldl_plain_of_blank hblank, List.foldl_append, hinside, hout, hmade, List.foldl_append,
    foldl_plain_of_blank hblank, hback.foldl_plain]
  rfl

end Jmpxx.Amalgamate
