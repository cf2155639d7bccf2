import Jmpxx.AmalgamateMeaning
import Mathlib.Tactic.FinCases

namespace Jmpxx.Amalgamate

open Preprocessor

variable {File : Type*} {d : Directory File}

/-- The generator's lines are those of the compiler. What it takes for a local include is one, on a
logical line of its own; the last logical line of a header is over, and so is a provenance line. -/
structure Directory.Clear (d : Directory File) : Prop where
  lines : ∀ f, d.tree.lines f = physical (d.text f)
  complete : ∀ f, Complete (physical (d.text f))
  includes : ∀ f, ∀ p ∈ grouped (physical (d.text f)), ∀ line ∈ p.1,
    ∀ name ∈ includeMatch line, isLocal name → p.1 = [line] ∧ directive p.2 = .include_ name
  provenance : ∀ f, OneLine (d.tree.provenance f) ∧ continued (d.tree.provenance f) = false

theorem universal_eq {text : Text} (h : ∀ c ∈ text, c ≠ '\r') : universal text = text := by
  fun_induction universal text with
  | case1 => rfl
  | case2 rest => exact absurd rfl (h _ List.mem_cons_self)
  | case3 rest => exact absurd rfl (h _ List.mem_cons_self)
  | case4 c rest _ _ ih => rw [ih fun c hc => h c (List.mem_cons_of_mem _ hc)]

/-- Where nothing but a newline ends a line, the generator and the compiler have the same lines. -/
theorem lines_eq_physical {f : File} (h : ∀ c ∈ d.text f, isBreak c → c = '\n') :
    d.tree.lines f = physical (d.text f) := by
  have hreturn : ∀ c ∈ d.text f, c ≠ '\r' := by
    rintro c hc rfl
    exact absurd (h _ hc (by decide)) (by decide)
  have hlines : d.tree.lines f = linesBy (· = '\n') (d.text f) := by
    show linesBy isBreak (universal (d.text f)) = _
    rw [universal_eq hreturn]
    refine linesBy_congr fun c hc => ?_
    by_cases hcn : c = '\n'
    · rw [hcn]
      rfl
    · rw [decide_eq_false hcn]
      exact Bool.eq_false_iff.mpr fun hb => hcn (h c hc hb)
  have hreturns : ∀ l ∈ linesBy (· = '\n') (d.text f), dropReturn l = id l := fun l hl =>
    dropReturn_of_oneLine fun c hc =>
      ⟨by simpa using (mem_linesBy hl hc).2, hreturn c (mem_linesBy hl hc).1⟩
  rw [hlines, physical, List.map_congr_left hreturns, List.map_id]

theorem oneLine_of_mem {f : File} {l : Text} (hl : l ∈ d.tree.lines f) : OneLine l := by
  intro c hc
  have hbreak := (mem_linesBy hl hc).2
  constructor <;> rintro rfl <;> exact absurd hbreak (by decide)

theorem localInclude_eq_some {l : Text} {g : File} : d.localInclude l = some g ↔
    ∃ name, includeMatch l = some name ∧ isLocal name ∧ d.resolve name = g := by
  rw [Directory.localInclude]
  rcases includeMatch l with _ | name <;> simp

theorem target_eq_some {l : Text} {g : File} : d.files.target l = some g ↔
    ∃ name, directive l = .include_ name ∧ isLocal name ∧ d.resolve name = g := by
  rw [Files.target]
  cases directive l <;> simp [Directory.files]

/-- A logical line is passed on with its lines, or it is an include by both. -/
theorem target_cases (hclear : d.Clear) (hown : d.OnOwnLines) {f : File} {p : List Text × Text}
    (hp : p ∈ grouped (physical (d.text f))) :
    ((∀ l ∈ p.1, d.tree.target l = none) ∧ d.files.target p.2 = none) ∨
      ∃ l g, p.1 = [l] ∧ d.tree.target l = some g ∧ d.files.target p.2 = some g := by
  rcases htarget : d.files.target p.2 with _ | g
  · refine .inl ⟨fun l hl => ?_, rfl⟩
    by_contra hne
    obtain ⟨g, hg⟩ := Option.ne_none_iff_exists'.mp hne
    obtain ⟨name, hname, hlocal, -⟩ := localInclude_eq_some.mp hg
    have hdirective := (hclear.includes f p hp l hl name hname hlocal).2
    rw [target_eq_some.mpr ⟨name, hdirective, hlocal, rfl⟩] at htarget
    cases htarget
  · obtain ⟨name, hd, hlocal, rfl⟩ := target_eq_some.mp htarget
    obtain ⟨l, -, hl, hname⟩ := hown f p hp name (Directive.mem_included.mpr hd) hlocal
    exact .inr ⟨l, _, hl, localInclude_eq_some.mpr ⟨name, hname, hlocal, rfl⟩, rfl⟩

/-- The lines of the one walk are read as those of the other. -/
def Reads (w w' : Walk File) : Prop :=
  ∃ gs : List (List Text × Text), (∀ p ∈ gs, Whole p) ∧ w.out = gs.flatMap Prod.fst ∧
    w'.out = gs.map Prod.snd ∧ w.visited = w'.visited

theorem Reads.append {w w' : Walk File} (h : Reads w w') {p : List Text × Text} (hp : Whole p) :
    Reads { w with out := w.out ++ p.1 } { w' with out := w'.out ++ [p.2] } := by
  obtain ⟨gs, hgs, hout, hout', hvisited⟩ := h
  refine ⟨gs ++ [p], ?_, by simp [hout], by simp [hout'], hvisited⟩
  intro q hq
  rcases List.mem_append.mp hq with hq | hq
  · exact hgs q hq
  · rwa [List.mem_singleton.mp hq]

theorem Reads.visit {w w' : Walk File} (h : Reads w w') (g : File) :
    Reads { w with visited := g :: w.visited } { w' with visited := g :: w'.visited } := by
  obtain ⟨gs, hgs, hout, hout', hvisited⟩ := h
  exact ⟨gs, hgs, hout, hout', congrArg (g :: ·) hvisited⟩

theorem Reads.mem_iff {w w' : Walk File} (h : Reads w w') (g : File) :
    g ∈ w.visited ↔ g ∈ w'.visited := by
  obtain ⟨gs, -, -, -, hvisited⟩ := h
  rw [hvisited]

section Walk

variable [DecidableEq File]

/-- What the walk over the logical lines of a header comes to, the generator's comes to. -/
def InlineReads (d : Directory File) (k : ℕ) : Prop :=
  ∀ f w w' v', Reads w w' → d.logicalTree.inline k f w' = some v' →
    ∃ v, d.tree.inline k f w = some v ∧ Reads v v'

theorem reads_group (hclear : d.Clear) (hown : d.OnOwnLines) {k : ℕ} (hinline : InlineReads d k)
    {f : File} {p : List Text × Text} (hp : p ∈ grouped (physical (d.text f))) {w w' v' : Walk File}
    (h : Reads w w') (hv : d.logicalTree.visit (d.logicalTree.inline k) w' p.2 = some v') :
    ∃ v, p.1.foldlM (d.tree.visit (d.tree.inline k)) w = some v ∧ Reads v v' := by
  have hwhole := (hclear.complete f).grouped.1 p hp
  rcases target_cases hclear hown hp with ⟨hnone, htarget⟩ | ⟨l, g, hl, hsome, htarget⟩
  · rw [Tree.visit_of_none (t := d.logicalTree) htarget] at hv
    obtain rfl := Option.some.inj hv
    exact ⟨_, Tree.foldlM_visit_of_none hnone _ w, h.append hwhole⟩
  · rw [Tree.visit_of_some (t := d.logicalTree) htarget] at hv
    rw [hl, List.foldlM_cons, Tree.visit_of_some hsome]
    by_cases hvisited : g ∈ w'.visited
    · rw [if_pos hvisited] at hv
      obtain rfl := Option.some.inj hv
      exact ⟨w, by rw [if_pos ((h.mem_iff g).mpr hvisited)]; rfl, h⟩
    · rw [if_neg hvisited] at hv
      obtain ⟨v, hinl, hreads⟩ := hinline g _ _ v' (h.visit g) hv
      exact ⟨v, by rw [if_neg (mt (h.mem_iff g).mp hvisited), hinl]; rfl, hreads⟩

theorem reads_groups (hclear : d.Clear) (hown : d.OnOwnLines) {k : ℕ} (hinline : InlineReads d k)
    {f : File} {gs : List (List Text × Text)} (hgs : gs ⊆ grouped (physical (d.text f)))
    {w w' v' : Walk File} (h : Reads w w')
    (hv : (gs.map Prod.snd).foldlM (d.logicalTree.visit (d.logicalTree.inline k)) w' = some v') :
    ∃ v, (gs.flatMap Prod.fst).foldlM (d.tree.visit (d.tree.inline k)) w = some v ∧
      Reads v v' := by
  induction gs generalizing w w' with
  | nil =>
    obtain rfl := Option.some.inj hv
    exact ⟨w, rfl, h⟩
  | cons p gs ih =>
    rw [List.map_cons, List.foldlM_cons] at hv
    obtain ⟨v₁', hvisit, hrest⟩ := Option.bind_eq_some_iff.mp hv
    obtain ⟨v₁, hgroup, hreads⟩ :=
      reads_group hclear hown hinline (hgs List.mem_cons_self) h hvisit
    obtain ⟨v, hwalk, hreads'⟩ := ih (fun q hq => hgs (List.mem_cons_of_mem p hq)) hreads hrest
    refine ⟨v, ?_, hreads'⟩
    rw [List.flatMap_cons, List.foldlM_append, hgroup]
    exact hwalk

theorem reads_inline (hclear : d.Clear) (hown : d.OnOwnLines) (k : ℕ) : InlineReads d k := by
  induction k with
  | zero => exact fun f w w' v' _ hv => absurd hv nofun
  | succ k ih =>
    intro f w w' v' h hv
    have hlines : d.tree.lines f = (grouped (physical (d.text f))).flatMap Prod.fst :=
      (hclear.lines f).trans (hclear.complete f).grouped.2
    have hprovenance : Whole ([d.tree.provenance f], [' ']) :=
      @whole_comment "// from ".toList _ rfl (d.rel f) (hclear.provenance f).2
    rw [Tree.inline, hlines]
    exact reads_groups hclear hown ih (List.Subset.refl _) (h.append hprovenance) hv

theorem reads_roots (hclear : d.Clear) (hown : d.OnOwnLines) {k : ℕ} {roots : List Text}
    {w w' v' : Walk File} (h : Reads w w')
    (hv : roots.foldlM (d.logicalTree.visitRoot k) w' = some v') :
    ∃ v, roots.foldlM (d.tree.visitRoot k) w = some v ∧ Reads v v' := by
  induction roots generalizing w w' with
  | nil =>
    obtain rfl := Option.some.inj hv
    exact ⟨w, rfl, h⟩
  | cons r roots ih =>
    rw [List.foldlM_cons] at hv
    obtain ⟨v₁', hvisit, hrest⟩ := Option.bind_eq_some_iff.mp hv
    have hroot : ∃ v₁, d.tree.visitRoot k w r = some v₁ ∧ Reads v₁ v₁' := by
      rw [Tree.visitRoot] at hvisit ⊢
      by_cases hvisited : d.resolve r ∈ w'.visited
      · obtain rfl := Option.some.inj ((if_pos hvisited).symm.trans hvisit)
        exact ⟨w, if_pos ((h.mem_iff _).mpr hvisited), h⟩
      · obtain ⟨v, hinl, hreads⟩ := reads_inline hclear hown k _ _ _ _ (h.visit _)
          ((if_neg hvisited).symm.trans hvisit)
        exact ⟨v, (if_neg (mt (h.mem_iff _).mp hvisited)).trans hinl, hreads⟩
    obtain ⟨v₁, hv₁, hreads⟩ := hroot
    obtain ⟨v, hwalk, hreads'⟩ := ih hreads hrest
    refine ⟨v, ?_, hreads'⟩
    rw [List.foldlM_cons, hv₁]
    exact hwalk

/-- What the walk copies has no end of a line in it. -/
theorem oneLine_of_walk (hclear : d.Clear) {k : ℕ} {roots : List Text} {w : Walk File}
    (h : roots.foldlM (d.tree.visitRoot k) {} = some w) {l : Text} (hl : l ∈ w.out) :
    OneLine l := by
  obtain ⟨order, -, hperm⟩ := perm_of_walk h
  obtain ⟨f, -, hf⟩ := List.mem_flatMap.mp (hperm.subset hl)
  rcases List.mem_cons.mp hf with rfl | hf
  · exact (hclear.provenance f).1
  · exact oneLine_of_mem (List.mem_filter.mp hf).1

end Walk

variable {guard : File → Text} {own : Text} {o : Outside}

theorem banner_comments {title : Text}
    (htitle : OneLine title ∧ continued ("// ".toList ++ title) = false) :
    ∀ l ∈ (banner own title).take 7, Whole ([l], [' ']) ∧ OneLine l := by
  refine List.forall_mem_cons.mpr ⟨⟨by decide, by decide⟩, List.forall_mem_cons.mpr
    ⟨⟨whole_comment rfl htitle.2, .append (by decide) htitle.1⟩, ?_⟩⟩
  show ∀ l ∈ [_, _, _, _, _], _
  decide

/-- The banner opens the guard of the single header. -/
theorem exists_banner (h : own ≠ [] ∧ ∀ c ∈ own, isIdent c) {title : Text}
    (htitle : OneLine title ∧ continued ("// ".toList ++ title) = false) :
    ∃ (gs : List (List Text × Text)) (opening : List Text), (∀ p ∈ gs, Whole p) ∧
      gs.flatMap Prod.fst = banner own title ∧ gs.map Prod.snd = opening ++ [[]] ∧
      Opening own opening ∧ ∀ l ∈ banner own title, OneLine l := by
  have hcomments := @banner_comments own title htitle
  have hblank : ∀ l ∈ List.replicate 7 [' '], directive l = .blank := fun l hl => by
    rw [List.eq_of_mem_replicate hl]
    rfl
  refine ⟨((banner own title).take 7).map (fun l => ([l], [' '])) ++
      [(["#ifndef ".toList ++ own], "#ifndef ".toList ++ own),
        (["#define ".toList ++ own], "#define ".toList ++ own), ([[]], [])],
    _, ?_, rfl, rfl, opening_of_name h.1 h.2 hblank, ?_⟩
  · intro p hp
    rcases List.mem_append.mp hp with hp | hp
    · obtain ⟨l, hl, rfl⟩ := List.mem_map.mp hp
      exact (hcomments l hl).1
    · simp only [List.mem_cons, List.not_mem_nil, or_false] at hp
      rcases hp with rfl | rfl | rfl
      · exact whole_ident rfl h.1 h.2
      · exact whole_ident rfl h.1 h.2
      · rfl
  · intro l hl
    rw [← List.take_append_drop 7 (banner own title)] at hl
    rcases List.mem_append.mp hl with hl | hl
    · exact (hcomments l hl).2
    · have hown := oneLine_of_isIdent h.2
      rcases List.mem_cons.mp hl with rfl | hl
      · exact .append (by decide) hown
      · rcases List.mem_cons.mp hl with rfl | hl
        · exact .append (by decide) hown
        · rw [List.mem_singleton.mp hl]
          exact nofun

/-- The footer closes it. -/
theorem exists_footer (h : own ≠ [] ∧ ∀ c ∈ own, isIdent c) :
    ∃ (gs : List (List Text × Text)) (closing : List Text), (∀ p ∈ gs, Whole p) ∧
      gs.flatMap Prod.fst = footer own ∧ gs.map Prod.snd = [] :: closing ∧ Closing closing ∧
      ∀ l ∈ footer own, OneLine l := by
  refine ⟨[([[]], []), (["#endif  // ".toList ++ own], "#endif   ".toList), ([[]], [])], _,
    ?_, rfl, rfl, ⟨_, _, rfl, rfl, List.forall_mem_singleton.mpr rfl⟩, ?_⟩
  · exact List.forall_mem_cons.mpr ⟨rfl, List.forall_mem_cons.mpr
      ⟨whole_comment rfl (continued_append h.1 h.2), List.forall_mem_singleton.mpr rfl⟩⟩
  · exact List.forall_mem_cons.mpr ⟨nofun, List.forall_mem_cons.mpr
      ⟨.append (by decide) (oneLine_of_isIdent h.2), List.forall_mem_singleton.mpr nofun⟩⟩

/-- What the generator writes, by its lines and by its logical lines. -/
theorem exists_text [DecidableEq File] (hclear : d.Clear) (hlines : d.OnOwnLines)
    (h : own ≠ [] ∧ ∀ c ∈ own, isIdent c) {title : Text}
    (htitle : OneLine title ∧ continued ("// ".toList ++ title) = false) {k : ℕ}
    {roots : List Text} {w : Walk File}
    (hwalk : roots.foldlM (d.logicalTree.visitRoot k) {} = some w) :
    ∃ (text : Text) (opening closing : List Text) (order : List File),
      amalgamate d k roots own title = some text ∧
      logical (physical text) = opening ++ ([[]] ++ (w.out ++ ([[]] ++ closing))) ∧
      Opening own opening ∧ Closing closing ∧ order.Nodup ∧
      (physical text).Perm (banner own title ++ order.flatMap d.tree.copied ++ footer own) := by
  have hempty : Reads ({} : Walk File) {} := ⟨[], nofun, rfl, rfl, rfl⟩
  obtain ⟨v, hv, hreads⟩ := reads_roots hclear hlines hempty hwalk
  obtain ⟨gs, hgs, hout, hout', -⟩ := hreads
  obtain ⟨front, opening, hfront, hbanner, hlogical, hopening, hone⟩ := exists_banner h htitle
  obtain ⟨back, closing, hback, hfooter, hlogical', hclosing, hone'⟩ := exists_footer h
  obtain ⟨order, hnodup, hperm⟩ := perm_of_walk hv
  have hphysical : physical (unlines (banner own title ++ v.out ++ footer own)) =
      banner own title ++ v.out ++ footer own := by
    refine physical_unlines fun l hl => ?_
    rcases List.mem_append.mp hl with hl | hl
    · exact (List.mem_append.mp hl).elim (hone l) (oneLine_of_walk hclear hv)
    · exact hone' l hl
  refine ⟨unlines (banner own title ++ v.out ++ footer own), opening, closing, order, ?_, ?_,
    hopening, hclosing, hnodup, ?_⟩
  · rw [amalgamate, hv]
    rfl
  · have hwhole : ∀ p ∈ front ++ gs ++ back, Whole p := by
      intro p hp
      rcases List.mem_append.mp hp with hp | hp
      · exact (List.mem_append.mp hp).elim (hfront p) (hgs p)
      · exact hback p hp
    have hjoined : banner own title ++ v.out ++ footer own =
        (front ++ gs ++ back).flatMap Prod.fst := by
      rw [List.flatMap_append, List.flatMap_append, hbanner, ← hout, hfooter]
    rw [hphysical, hjoined, logical, grouped_flatMap hwhole, List.map_append, List.map_append,
      hlogical, hlogical', ← hout']
    simp
  · rw [hphysical]
    exact (hperm.append_left _).append_right _

/-- The single header passes on what the roots' includes pass on, and has the lines of no header
twice. -/
theorem amalgamation_preserves [DecidableEq File] [Finite File] (hG : d.Guarded guard own)
    (hlines : d.OnOwnLines) (hclear : d.Clear) (hacyclic : d.Acyclic)
    (hguard : ∀ out f, o.defines out (guard f) = false) (hown : ∀ out, o.defines out own = false)
    {roots : List Text} (hroots : ∀ r ∈ roots, IsRoot r) {title : Text}
    (htitle : OneLine title ∧ continued ("// ".toList ++ title) = false) {k : ℕ}
    (hk : Nat.card File < k) (hfirst : FirstFree (d.reached k roots)) :
    ∃ text single modular, amalgamate d k roots own title = some text ∧
      preprocess d.files o k (logical (physical text)) = some single ∧
      preprocess d.files o k (roots.map includeLine) = some modular ∧ single.out = modular.out ∧
      (∀ f, (logical (physical text)).countP (directive · = .define (guard f)) ≤ 1) ∧
      ∃ order : List File, order.Nodup ∧ (physical text).Perm
        (banner own title ++ order.flatMap d.tree.copied ++ footer own) := by
  obtain ⟨w, modular, hwalk, hmodular, hsingle⟩ :=
    exists_walk hG hacyclic hguard hown hroots hk hfirst
  obtain ⟨text, opening, closing, order, htext, hlogical, hopening, hclosing, hnodup, hperm⟩ :=
    exists_text hclear hlines hG.own_name htitle hwalk
  have hblank : ∀ l ∈ [([] : Text)], directive l = .blank := List.forall_mem_singleton.mpr rfl
  obtain ⟨single, hrun, hout⟩ := hsingle opening [[]] closing hopening hblank hclosing
  refine ⟨text, single, modular, htext, hlogical ▸ hrun, hmodular, hout, fun f => ?_, order, hnodup,
    hperm⟩
  have hcopies := countP_walk hG hwalk f
  have hblankNot : [([] : Text)].countP (directive · = .define (guard f)) = 0 := rfl
  rw [hlogical, List.countP_append, List.countP_append, List.countP_append, List.countP_append,
    hopening.countP_define, hclosing.countP_define, if_neg (hG.guard_ne_own f).symm, hblankNot]
  omega

/-- Headers of a usual form, by the lines before the guard and inside it. -/
theorem guarded_of_lines {front body : File → List Text}
    (hls : ∀ f, d.files.lines f = front f ++ ["#ifndef ".toList ++ guard f,
      "#define ".toList ++ guard f] ++ (body f ++ ["#endif".toList]))
    (hfront : ∀ f, ∀ l ∈ front f, directive l = .blank)
    (hbody : ∀ f, Closed 0 (body f) ∧ ∀ l ∈ body f, (directive l).macroName = none)
    (hguard : ∀ f, guard f ≠ [] ∧ guard f ≠ own ∧ ∀ c ∈ guard f, isIdent c)
    (hunique : Function.Injective guard) (hown : own ≠ [] ∧ ∀ c ∈ own, isIdent c) :
    d.Guarded guard own := by
  have hopening := fun f => opening_of_name (hguard f).1 (hguard f).2.2 (hfront f)
  have hclosing : Closing ["#endif".toList] :=
    ⟨_, [], rfl, rfl, fun l hl => absurd hl List.not_mem_nil⟩
  refine ⟨fun f => ⟨_, _, _, hls f, hopening f, hclosing, (hbody f).1, ?_⟩, hunique, hown, ?_⟩
  · intro l hl m _
    have hnone := (hbody f).2 l hl
    refine ⟨fun hd => ?_, fun hd => ?_⟩ <;> rw [hd] at hnone <;> cases hnone
  · intro f l hl
    rw [hls f] at hl
    rcases List.mem_append.mp hl with hl | hl
    · have hne : some (guard f) ≠ some own := fun h => (hguard f).2.1 (Option.some.inj h)
      rcases (hopening f).directive_mem hl with hd | hd | hd <;> rw [hd]
      · exact (Option.some_ne_none _).symm
      · exact hne
      · exact hne
    · rcases List.mem_append.mp hl with hl | hl
      · rw [(hbody f).2 l hl]
        exact (Option.some_ne_none _).symm
      · rw [List.mem_singleton.mp hl]
        exact (Option.some_ne_none _).symm

theorem acyclic_of_lt {n : ℕ} {d : Directory (Fin n)} (h : ∀ g f, d.Includes g f → g < f) :
    d.Acyclic := by
  have hlt : ∀ g f, Relation.TransGen d.Includes g f → g < f := by
    intro g f hgf
    induction hgf with
    | single hgf => exact h _ _ hgf
    | tail _ hgf ih => exact ih.trans (h _ _ hgf)
  exact fun f hf => absurd (hlt f f hf) (lt_irrefl f)

def sampleNames : Fin 3 → Text
  | 0 => "jmpxx/e.hpp".toList
  | 1 => "jmpxx/t.hpp".toList
  | 2 => "jmpxx/c.hpp".toList

def sampleGuards : Fin 3 → Text
  | 0 => "ERROR".toList
  | 1 => "TRACE".toList
  | 2 => "CORE".toList

def sampleBodies : Fin 3 → List Text
  | 0 => ["int e;".toList]
  | 1 => [includeLine (sampleNames 0), "int t;".toList]
  | 2 => ["#include <t>".toList, includeLine (sampleNames 0), "#if TR".toList,
      includeLine (sampleNames 1), "#else".toList, "int u;".toList, "#endif".toList]

/-- A core that includes the error, and a trace that does so again where it is asked for. Each header
begins with a comment over two lines. -/
def sample : Directory (Fin 3) where
  resolve name := if name = sampleNames 0 then 0 else if name = sampleNames 1 then 1 else 2
  rel := sampleNames
  text f := unlines (["/* One".toList, " */".toList] ++
    ["#ifndef ".toList ++ sampleGuards f, "#define ".toList ++ sampleGuards f] ++
    (sampleBodies f ++ ["#endif".toList]))

theorem sample_lines : ∀ f, sample.files.lines f = [" ".toList] ++
    ["#ifndef ".toList ++ sampleGuards f, "#define ".toList ++ sampleGuards f] ++
    (sampleBodies f ++ ["#endif".toList]) := by decide +kernel

theorem sample_guarded : sample.Guarded sampleGuards "JMPXX_HPP".toList := by
  refine guarded_of_lines sample_lines (fun _ => List.forall_mem_singleton.mpr rfl)
    (by decide +kernel) ?_ ?_ ⟨by decide, List.all_eq_true.mp (by decide)⟩
  · exact fun f => ⟨by decide +revert, by decide +revert, List.all_eq_true.mp (by decide +revert)⟩
  · intro f g h
    fin_cases f <;> fin_cases g <;> first | rfl | exact absurd h (by decide)

theorem sample_clear : sample.Clear := by
  have hcheck : (∀ f, sample.tree.lines f = physical (sample.text f)) ∧
      (∀ f, Complete (physical (sample.text f))) ∧
      (∀ f, ∀ p ∈ grouped (physical (sample.text f)), ∀ line ∈ p.1, ∀ name ∈ includeMatch line,
        isLocal name → p.1 = [line] ∧ directive p.2 = .include_ name) ∧
      ∀ f, OneLine (sample.tree.provenance f) ∧
        continued (sample.tree.provenance f) = false := by decide +kernel
  obtain ⟨hlines, hcomplete, hincludes, hprovenance⟩ := hcheck
  exact ⟨hlines, hcomplete, hincludes, hprovenance⟩

def sampleRoots : List Text := [sampleNames 2, sampleNames 0]

theorem sample_walk : sample.OnOwnLines ∧ (∀ g f, sample.Includes g f → g < f) ∧
    (∀ r ∈ sampleRoots, IsRoot r) ∧ FirstFree (sample.reached 4 sampleRoots) := by
  unfold Directory.OnOwnLines Directory.Includes IsRoot FirstFree
  decide +kernel

theorem amalgamation_preserves_sample :
    let o : Outside := { holds := fun _ condition => condition = "TR".toList
                         defines := fun _ _ => false }
    ∃ text single modular,
      amalgamate sample 4 sampleRoots "JMPXX_HPP".toList "title".toList = some text ∧
      preprocess sample.files o 4 (logical (physical text)) = some single ∧
      preprocess sample.files o 4 (sampleRoots.map includeLine) = some modular ∧
      single.out = modular.out ∧
      (∀ f, (logical (physical text)).countP (directive · = .define (sampleGuards f)) ≤ 1) ∧
      ∃ order : List (Fin 3), order.Nodup ∧ (physical text).Perm
        (banner "JMPXX_HPP".toList "title".toList ++ order.flatMap sample.tree.copied ++
          footer "JMPXX_HPP".toList) := by
  obtain ⟨hown, hlt, hroots, hfirst⟩ := sample_walk
  exact amalgamation_preserves sample_guarded hown sample_clear (acyclic_of_lt hlt)
    (fun _ _ => rfl) (fun _ => rfl) hroots (by decide) (by simp) hfirst

/-- A header that has an include in a comment before it has the include itself. -/
def commented : Directory (Fin 2) where
  resolve name := if name = "jmpxx/b.hpp".toList then 0 else 1
  rel f := if f = 0 then "jmpxx/b.hpp".toList else "jmpxx/a.hpp".toList
  text f := if f = 0 then unlines ["#ifndef B".toList, "#define B".toList, "int b;".toList,
      "#endif".toList]
    else unlines ["#ifndef A".toList, "#define A".toList, "/*".toList,
      "#include \"jmpxx/b.hpp\"".toList, "*/".toList, "#include \"jmpxx/b.hpp\"".toList,
      "#endif".toList]

def commentedGuards (f : Fin 2) : Text := if f = 0 then "B".toList else "A".toList

def commentedBodies (f : Fin 2) : List Text :=
  if f = 0 then ["int b;".toList] else [" ".toList, "#include \"jmpxx/b.hpp\"".toList]

theorem commented_lines : ∀ f, commented.files.lines f = [] ++
    ["#ifndef ".toList ++ commentedGuards f, "#define ".toList ++ commentedGuards f] ++
    (commentedBodies f ++ ["#endif".toList]) := by decide +kernel

theorem commented_guarded : commented.Guarded commentedGuards "JMPXX_HPP".toList := by
  refine guarded_of_lines commented_lines (fun _ _ hl => absurd hl List.not_mem_nil)
    (by decide +kernel) ?_ ?_ ⟨by decide, List.all_eq_true.mp (by decide)⟩
  · exact fun f => ⟨by decide +revert, by decide +revert, List.all_eq_true.mp (by decide +revert)⟩
  · intro f g h
    fin_cases f <;> fin_cases g <;> first | rfl | exact absurd h (by decide)

def commentedRoots : List Text := ["jmpxx/a.hpp".toList]

theorem commented_walk : commented.OnOwnLines ∧ (∀ g f, commented.Includes g f → g < f) ∧
    (∀ r ∈ commentedRoots, IsRoot r) ∧ FirstFree (commented.reached 3 commentedRoots) := by
  unfold Directory.OnOwnLines Directory.Includes IsRoot FirstFree
  decide +kernel

/-- The generator puts the included header in place of the comment's line, and the include itself
is dropped. -/
theorem commented_not_preserved :
    let o : Outside := { holds := fun _ _ => false, defines := fun _ _ => false }
    commented.Guarded commentedGuards "JMPXX_HPP".toList ∧ commented.OnOwnLines ∧
      commented.Acyclic ∧ (∀ r ∈ commentedRoots, IsRoot r) ∧
      FirstFree (commented.reached 3 commentedRoots) ∧
      ∃ text single modular,
        amalgamate commented 3 commentedRoots "JMPXX_HPP".toList "title".toList = some text ∧
        preprocess commented.files o 3 (logical (physical text)) = some single ∧
        preprocess commented.files o 3 (commentedRoots.map includeLine) = some modular ∧
        single.out = [] ∧ modular.out = ["int b;".toList] := by
  obtain ⟨hown, hlt, hroots, hfirst⟩ := commented_walk
  refine ⟨commented_guarded, hown, acyclic_of_lt hlt, hroots, hfirst,
    unlines (banner "JMPXX_HPP".toList "title".toList ++
      ["// from jmpxx/a.hpp".toList, "#ifndef A".toList, "#define A".toList, "/*".toList,
        "// from jmpxx/b.hpp".toList, "#ifndef B".toList, "#define B".toList, "int b;".toList,
        "#endif".toList, "*/".toList, "#endif".toList] ++ footer "JMPXX_HPP".toList),
    { defined := ["A".toList, "JMPXX_HPP".toList] },
    { defined := ["B".toList, "A".toList], out := ["int b;".toList] }, ?_⟩
  decide +kernel

end Jmpxx.Amalgamate
