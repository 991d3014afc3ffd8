/-
# Passing over the definition of a macro

Inside the definition of a macro nothing is executed. Directives that structure the
text are met, but all they get at are the `IF`s opened inside the definition: the
frame of the definition itself is closed by its `ENDMACRO` only, and another `MACRO`
is refused. So what becomes of a line there depends on its text, on the outline of
these `IF`s and on how many conditionals are open, and two walks for which these
agree pass over the same lines in the same way, whatever else differs.

Key definitions: `Walk.IsDefining`, `LineM.StepsTo`, `LineM.SameOutline`.
Key theorems: `Directive.reshape?_append`, `LineM.stepsOver_statement`,
`LineM.ok_alike`, `LineM.error_alike`.
-/
import Asm6502.Proofs.Walk.Skipping

namespace Asm6502

/-! ### The frames of a definition -/

/-- Whether a walk is inside the definition of a macro whose frame is `f`, with the
frames in `inner` opened there and those in `outer` around it. -/
structure Walk.IsDefining (f : Conditional) (outer inner : List Conditional) (w : Walk) : Prop where
  conditionals : w.conditionals = inner ++ f :: outer
  isMacro : f.isMacro = true
  skipped : f.condition = false
  ifs : ∀ g ∈ inner, g.isMacro = false

namespace Walk.IsDefining

variable {f : Conditional} {outer inner : List Conditional} {w : Walk}

theorem isLive_eq (h : w.IsDefining f outer inner) : w.isLive = false := by
  rw [isLive, Conditional.allTrue, h.conditionals, List.all_append, List.all_cons, h.skipped, Bool.false_and,
    Bool.and_false]

theorem any_isMacro (h : w.IsDefining f outer inner) : w.conditionals.any Conditional.isMacro = true := by
  rw [h.conditionals, List.any_append, List.any_cons, h.isMacro, Bool.true_or, Bool.or_true]

theorem capturesInMacro (h : w.IsDefining f outer inner) : w.CapturesInMacro := fun _ => h.any_isMacro

theorem outline_eq (h : w.IsDefining f outer inner) :
    w.outline = inner.map Conditional.outline ++ (f :: outer).map Conditional.outline := by
  rw [outline, h.conditionals, List.map_append]

/-- What is around an `IF` of the definition is not executed. -/
theorem isOuterLive_eq (h : w.IsDefining f outer inner) {g : Conditional} {frames : List Conditional}
    (hframes : w.conditionals = g :: frames) (hg : g.isMacro = false) :
    w.isOuterLive = false ∧ ∃ rest, inner = g :: rest ∧ frames = rest ++ f :: outer := by
  have hsplit : inner ++ f :: outer = g :: frames := h.conditionals.symm.trans hframes
  cases inner with
  | nil =>
    obtain ⟨rfl, -⟩ := List.cons.inj hsplit
    rw [h.isMacro] at hg
    cases hg
  | cons g' rest =>
    rw [List.cons_append] at hsplit
    obtain ⟨rfl, rfl⟩ := List.cons.inj hsplit
    refine ⟨?_, rest, rfl, rfl⟩
    rw [isOuterLive, hframes, Conditional.outerTrue, List.tail_cons, Conditional.allTrue, List.all_append,
      List.all_cons, h.skipped, Bool.false_and, Bool.and_false]

/-- An `ENDMACRO` closes the definition where no `IF` is open in it. -/
theorem eq_of_endMacro (h : w.IsDefining f outer inner) {ended : Option Macro × Walk} (hend : w.endMacro = .ok ended) :
    inner = [] ∧ ended = (w.capture.map Capture.definition, { w with conditionals := outer, capture := none }) := by
  unfold Walk.endMacro at hend
  cases inner with
  | nil =>
    rw [h.conditionals, List.nil_append] at hend
    dsimp only at hend
    rw [h.isMacro, if_pos rfl] at hend
    exact ⟨rfl, (Except.ok.inj hend).symm⟩
  | cons g rest =>
    rw [h.conditionals, List.cons_append] at hend
    dsimp only at hend
    rw [h.ifs g List.mem_cons_self, if_neg Bool.false_ne_true] at hend
    cases hend

/-- The walk with other frames inside the definition. -/
theorem change (h : w.IsDefining f outer inner) {inner' : List Conditional} (hifs : ∀ g ∈ inner', g.isMacro = false) :
    ({ w with conditionals := inner' ++ f :: outer } : Walk).IsDefining f outer inner' :=
  ⟨rfl, h.isMacro, h.skipped, hifs⟩

end Walk.IsDefining

/-- A directive that does not close a definition changes what was opened inside it,
whatever is around the definition. -/
theorem Directive.reshape?_append {d : Directive} {spot : Spot} {inner outer outer' : List Conditional}
    {f f' : Conditional} (hf : f.isMacro = true) (hf' : f'.isMacro = true) (hlength : outer'.length = outer.length)
    (hifs : ∀ g ∈ inner, g.isMacro = false)
    (hopen : ∀ frames, d.reshape? spot (inner ++ f :: outer) = some frames → outer.length < frames.length) :
    ∃ result : Option (List Conditional), d.reshape? spot (inner ++ f :: outer) = result.map (· ++ f :: outer) ∧
      d.reshape? spot (inner ++ f' :: outer') = result.map (· ++ f' :: outer') := by
  have hcount : (inner ++ f' :: outer').length = (inner ++ f :: outer).length := by
    rw [List.length_append, List.length_append, List.length_cons, List.length_cons, hlength]
  have hmacro {g : Conditional} (rest : List Conditional) (hg : g.isMacro = true) :
      (inner ++ g :: rest).any Conditional.isMacro = true := by
    rw [List.any_append, List.any_cons, hg, Bool.true_or, Bool.or_true]
  cases d with
  | ifBlock =>
    refine ⟨if (inner ++ f :: outer).length < maxConditionals then some (⟨false, false, false, false, spot⟩ :: inner)
      else none, ?_, ?_⟩
    · rw [reshape?]
      split_ifs <;> rfl
    · rw [reshape?, hcount]
      split_ifs <;> rfl
  | macroHeader =>
    refine ⟨none, ?_, ?_⟩
    · rw [reshape?, hmacro outer hf, Bool.true_or]
      rfl
    · rw [reshape?, hmacro outer' hf', Bool.true_or]
      rfl
  | elifBlock =>
    cases inner with
    | nil => exact ⟨none, by simp [reshape?, hf], by simp [reshape?, hf']⟩
    | cons g rest =>
      refine ⟨if g.hadElse then none else some (g :: rest), ?_, ?_⟩
      all_goals
        simp only [List.cons_append, reshape?, hifs g List.mem_cons_self, Bool.false_or]
        split_ifs <;> rfl
  | elseBlock =>
    cases inner with
    | nil => exact ⟨none, by simp [reshape?, hf], by simp [reshape?, hf']⟩
    | cons g rest =>
      refine ⟨if g.hadElse then none else some ({ g with hadElse := true } :: rest), ?_, ?_⟩
      all_goals
        simp only [List.cons_append, reshape?, hifs g List.mem_cons_self, Bool.false_or]
        split_ifs <;> rfl
  | endif =>
    cases inner with
    | nil => exact ⟨none, by simp [reshape?, hf], by simp [reshape?, hf']⟩
    | cons g rest => exact ⟨some rest, by simp [reshape?, hifs], by simp [reshape?, hifs]⟩
  | endMacro =>
    cases inner with
    | nil => exact absurd (hopen outer (by simp [reshape?, hf])) (Nat.lt_irrefl _)
    | cons g rest => exact ⟨none, by simp [reshape?, hifs], by simp [reshape?, hifs]⟩
  | _ => exact ⟨none, rfl, rfl⟩

theorem Cursor.outlineOf?_append {c : Cursor} {index : Nat} {inner outer outer' : List Conditional}
    {f f' : Conditional} (hf : f.isMacro = true) (hf' : f'.isMacro = true) (hlength : outer'.length = outer.length)
    (hifs : ∀ g ∈ inner, g.isMacro = false)
    (hopen : ∀ frames, c.outlineOf? index (inner ++ f :: outer) = some frames → outer.length < frames.length) :
    ∃ result : Option (List Conditional), c.outlineOf? index (inner ++ f :: outer) = result.map (· ++ f :: outer) ∧
      c.outlineOf? index (inner ++ f' :: outer') = result.map (· ++ f' :: outer') := by
  by_cases hblock : ∃ e, c.directive? = some e ∧ e.isBlock = true
  · obtain ⟨e, he, hblock⟩ := hblock
    obtain ⟨hassignment, spelling, hfind⟩ := find?_of_directive? he
    rw [outlineOf?_of_isBlock hassignment hfind hblock] at hopen
    rw [outlineOf?_of_isBlock hassignment hfind hblock, outlineOf?_of_isBlock hassignment hfind hblock]
    split_ifs at hopen ⊢
    · exact Directive.reshape?_append hf hf' hlength hifs hopen
    · exact ⟨none, rfl, rfl⟩
  · have hplain (e : Directive) (he : c.directive? = some e) : e.isBlock = false := by
      simpa using fun h => hblock ⟨e, he, h⟩
    rw [outlineOf?_of_not_isBlock hplain, outlineOf?_of_not_isBlock hplain]
    exact ⟨some inner, rfl, rfl⟩

/-! ### Statements of a definition -/

namespace LineM

variable {α : Type} {env : Setting} {s : LineState} {start : Nat} {d : Directive} {f : Conditional}
  {outer inner : List Conditional}

/-- A state in which only the frames opened inside a definition have changed. -/
def StepsTo (f : Conditional) (outer : List Conditional) (s t : LineState) (inner' : List Conditional) : Prop :=
  t.walk = { s.walk with conditionals := inner' ++ f :: outer } ∧ t.run = s.run ∧ ∀ g ∈ inner', g.isMacro = false

/-- A state in which a line of a definition has been given up. -/
def GivesUp (s : LineState) (stop : Stop) (t : LineState) : Prop :=
  (∃ problem, stop = .problem problem) ∧ t.walk = s.walk ∧ t.run = s.run

/-- What keeps to its line stops only with a problem. -/
theorem IsLocal.problem {m : LineM α} (h : IsLocal m) :
    wp m env s (fun _ _ => True) fun stop _ => ∃ problem, stop = .problem problem := by
  unfold wp
  rcases hrun : m env s with ⟨_, t⟩ | ⟨problem | _, t⟩
  · trivial
  · exact ⟨problem, rfl⟩
  · exact absurd hrun (h.ne_exhausted env s t)

/-- A definition inside another one is refused. -/
theorem stepsOver_macroHeader (hs : s.walk.IsDefining f outer inner) :
    wp (macroHeader start) env s (fun _ _ => False) (GivesUp s) := by
  simp only [macroHeader, wp_bind, wp_skipBlanks, wp_column]
  refine wp_mono (wp_and (IsLocal.problem inferInstance) (isIdle_expectName env _)) (fun name t ht => ?_) fun _ _ ht => ht
  obtain ⟨-, hwalk, hrun⟩ := ht
  simp only [wp_pushPart, wp_getCursor]
  refine wp_mono (wp_and (IsLocal.problem inferInstance) (isIdle_macroParameters _ _ env _)) (fun parameters u hu => ?_)
    fun _ u hu => ⟨hu.1, hu.2.1.trans hwalk, hu.2.2.trans hrun⟩
  obtain ⟨-, hwalk', hrun'⟩ := hu
  have hwalk' : u.walk = s.walk := hwalk'.trans hwalk
  simp only [wp_getWalk, wp_getRun, wp_position, wp_spot, wp_ofFault, wp_setWalk]
  refine ⟨fun w hstart => ?_, fun _ _ => ⟨⟨_, rfl⟩, hwalk', hrun'.trans hrun⟩⟩
  have hstart : u.walk.startMacro _ _ = .ok w := hstart
  rw [Walk.startMacro, hwalk', hs.any_isMacro, Bool.or_true, if_pos rfl] at hstart
  cases hstart

/-- Unless the definition is closed, a directive that structures the text gets at
the frames that were opened inside it. -/
theorem stepsOver_perform (hd : d.isBlock = true) (hs : s.walk.IsDefining f outer inner) :
    wp (perform d start) env s
      (fun _ t => outer.length < t.walk.conditionals.length → ∃ inner', StepsTo f outer s t inner')
      (GivesUp s) := by
  have hdead := hs.isLive_eq
  have hlive {p : Prop} (h : s.walk.isLive = true) : p := by
    rw [hdead] at h
    cases h
  have hrest {g : Conditional} {frames : List Conditional} (hframes : s.walk.conditionals = g :: frames)
      (hg : g.isMacro = false) := hs.isOuterLive_eq hframes hg
  cases d with
  | ifBlock =>
    refine wp_ifBlock (fun _ _ => ?_) (fun h => hlive h) (fun _ => ⟨⟨_, rfl⟩, rfl, rfl⟩) fun h => hlive h
    refine ⟨⟨false, false, false, false, ⟨env.index, start⟩⟩ :: inner, by rw [hs.conditionals]; rfl, rfl, ?_⟩
    rintro g (_ | ⟨_, hg⟩)
    · rfl
    · exact hs.ifs g hg
  | elifBlock =>
    have houter {g : Conditional} {frames : List Conditional} {p : Prop} (hframes : s.walk.conditionals = g :: frames)
        (hg : g.isMacro = false) (h : s.walk.isOuterLive = true) : p := by
      rw [(hrest hframes hg).1] at h
      cases h
    refine wp_elifBlock (fun g frames hframes hg _ _ _ => ?_) (fun g frames hframes hg _ _ h => houter hframes hg h)
      (fun _ => ⟨⟨_, rfl⟩, rfl, rfl⟩) fun g frames hframes hg h => houter hframes hg h
    obtain ⟨-, rest, rfl, rfl⟩ := hrest hframes hg
    refine ⟨{ g with condition := g.condition && !g.passed } :: rest, rfl, rfl, ?_⟩
    rintro g' (_ | ⟨_, hg'⟩)
    · exact hg
    · exact hs.ifs g' (List.mem_cons_of_mem _ hg')
  | elseBlock =>
    refine wp_elseBlock (fun g frames hframes hg _ _ => ?_) fun _ => ⟨⟨_, rfl⟩, rfl, rfl⟩
    obtain ⟨-, rest, rfl, rfl⟩ := hrest hframes hg
    refine ⟨{ g with condition := !g.passed, passed := true, hadElse := true } :: rest, rfl, rfl, ?_⟩
    rintro g' (_ | ⟨_, hg'⟩)
    · exact hg
    · exact hs.ifs g' (List.mem_cons_of_mem _ hg')
  | endif =>
    refine wp_endif (fun g frames hframes hg _ => ?_) fun _ => ⟨⟨_, rfl⟩, rfl, rfl⟩
    obtain ⟨-, rest, rfl, rfl⟩ := hrest hframes hg
    exact ⟨rest, rfl, rfl, fun g' hg' => hs.ifs g' (List.mem_cons_of_mem _ hg')⟩
  | macroHeader => exact wp_mono (stepsOver_macroHeader hs) (fun _ _ h => h.elim) fun _ _ h => h
  | endMacro =>
    change wp (endMacro start) env s _ _
    simp only [endMacro, wp_bind]
    refine wp_expectEnd (fun _ => ?_) fun _ => ⟨⟨_, rfl⟩, rfl, rfl⟩
    simp only [wp_getWalk, wp_ofFault, wp_setWalk]
    refine ⟨fun ended hended => ?_, fun _ _ => ⟨⟨_, rfl⟩, rfl, rfl⟩⟩
    obtain ⟨rfl, hended⟩ := hs.eq_of_endMacro hended
    have hclosed : ended.2.conditionals = outer := by rw [hended]
    split <;> exact fun hopen => absurd hopen (by rw [hclosed]; exact Nat.lt_irrefl _)
  | _ => cases hd

/-- A directive that structures the text ends where it does if it is skipped. -/
theorem place_of_isBlock (hd : directive? s = some d) (hblock : d.isBlock = true) :
    wp statement env s (fun _ t => t.cursor.skipBlanks = s.cursor.nextStatement.skipBlanks) fun _ _ => True := by
  have hfacts : d.isWhole = true ∧ d ≠ .separator ∧ d ≠ .comment := by
    revert hblock
    cases d <;> decide
  have hcursor : ∀ e, s.cursor.directive? = some e → e = d := fun e he =>
    Option.some.inj (he.symm.trans (directive?_cursor hd))
  rw [Cursor.nextStatement_eq_skipStatement fun e he => hcursor e he ▸ hfacts.2]
  exact wp_imp (ends_statement fun e he => hcursor e he ▸ hfacts.1) fun _ _ ht => congrArg _ ht

/-- What becomes of a statement of a definition. The text says where it ends and
what it makes of the outline. -/
theorem stepsOver_statement (hs : s.walk.IsDefining f outer inner) (hrewound : s.walk.rewound = false)
    (hrest : s.cursor.rest ≠ []) :
    wp statement env s
      (fun goesOn t => goesOn = true ∧ t.cursor.skipBlanks = s.cursor.nextStatement.skipBlanks ∧
        s.cursor.outlineOf? env.index s.walk.outline = some t.walk.outline ∧
        (outer.length < t.walk.conditionals.length → ∃ inner', StepsTo f outer s t inner'))
      fun stop t => GivesUp s stop t ∧ s.cursor.outlineOf? env.index s.walk.outline = none := by
  have hkept {t : LineState} (hwalk : t.walk = s.walk) (hrun : t.run = s.run) : ∃ inner', StepsTo f outer s t inner' :=
    ⟨inner, by rw [hwalk, ← hs.conditionals], hrun, hs.ifs⟩
  by_cases hblock : ∃ d, s.cursor.directive? = some d ∧ d.isBlock = true
  · obtain ⟨d, hd, hblock⟩ := hblock
    obtain ⟨hassignment, spelling, hfind⟩ := Cursor.find?_of_directive? hd
    have hstructural : d.isStructural = true := by
      revert hblock
      cases d <;> decide
    have hmet : directive? s = some d := directive?_of_met hd (Or.inr hstructural)
    rw [Cursor.outlineOf?_of_isBlock hassignment hfind hblock]
    refine wp_mono (wp_and (place_of_isBlock hmet hblock) (?_ : wp statement env s (fun goesOn t => goesOn = true ∧
        (if d.reads (s.cursor.skip spelling.length) then d.reshape? ⟨env.index, s.cursor.column⟩ s.walk.outline
          else none) = some t.walk.outline ∧
        (outer.length < t.walk.conditionals.length → ∃ inner', StepsTo f outer s t inner')) _))
      (fun _ t ht => ⟨ht.2.1, ht.1, ht.2.2⟩) fun _ t ht => ht.2
    apply wp_statement_directive hmet hfind
    refine wp_mono (wp_and (followsText_perform hblock hs.capturesInMacro) (wp_and (stepsOver_perform hblock hs)
      (turn_perform hstructural))) (fun _ t ht nodes => ?_) fun _ t ht => ?_
    · obtain ⟨⟨hreads, hshape⟩, hpasses, hturn⟩ := ht
      refine ⟨?_, ?_, hpasses⟩
      · rw [hturn.rewound_eq, hrewound, Bool.not_false]
      · rw [if_pos hreads]
        exact hshape
    · refine ⟨ht.2.1, ?_⟩
      have hdead : s.walk.isLive = false := hs.isLive_eq
      rcases ht.1 with hreads | hshape | hlive | ⟨rfl, hawaits⟩
      · have hreads : d.reads (s.cursor.skip spelling.length) = false := hreads
        rw [hreads]
        rfl
      · have hshape : d.reshape? ⟨env.index, s.cursor.column⟩ s.walk.outline = none := hshape
        rw [hshape, ite_self]
      · rw [show s.walk.isLive = true from hlive] at hdead
        cases hdead
      · -- the condition of an `ELIF` is passed over, and a stray one cannot stand there
        have hawaits : s.walk.awaitsBranch = true := hawaits
        have houter : s.walk.isOuterLive = true := (Bool.and_eq_true_iff.mp hawaits).1
        cases inner with
        | nil =>
          rw [hs.outline_eq]
          simp [Directive.reshape?, Conditional.outline, hs.isMacro]
        | cons g rest =>
          rw [(hs.isOuterLive_eq hs.conditionals (hs.ifs g List.mem_cons_self)).1] at houter
          cases houter
  have hplain (d : Directive) (hd : s.cursor.directive? = some d) : d.isBlock = false := by
    simpa using fun h => hblock ⟨d, hd, h⟩
  rw [Cursor.outlineOf?_of_not_isBlock hplain]
  by_cases hsign : ∃ d, s.cursor.directive? = some d ∧ (d = .separator ∨ d = .comment)
  · obtain ⟨d, hd, hsign⟩ := hsign
    obtain ⟨-, spelling, hfind⟩ := Cursor.find?_of_directive? hd
    obtain ⟨-, hlength, -⟩ := Cursor.exists_sign_of_find? hfind (Or.inr hsign)
    have hstructural : d.isStructural = true := by rcases hsign with rfl | rfl <;> rfl
    apply wp_statement_directive (directive?_of_met hd (Or.inr hstructural)) hfind
    rw [hlength]
    have hpassed {place : Cursor} (hplace : place = s.cursor.nextStatement) (nodes : Array Node) :
        (!s.walk.rewound) = true ∧ place.skipBlanks = s.cursor.nextStatement.skipBlanks ∧
          some s.walk.outline = some s.walk.outline ∧
          (outer.length < s.walk.conditionals.length →
            ∃ inner', StepsTo f outer s { s with cursor := place, nodes, parts := #[] } inner') :=
      ⟨by rw [hrewound]; rfl, by rw [hplace], rfl, fun _ => hkept rfl rfl⟩
    rcases hsign with rfl | rfl
    · refine hpassed ?_
      rw [Cursor.nextStatement, hd]
      rfl
    · refine hpassed ?_
      rw [Cursor.nextStatement, hd]
      exact Cursor.skipLine_skip hrest
  · have hnone : directive? s = none := by
      cases hd : directive? s with
      | none => rfl
      | some d =>
        have hcursor := directive?_cursor hd
        have hstructural := (directive?_met hd).resolve_left (by rw [hs.isLive_eq]; exact Bool.false_ne_true)
        refine absurd ⟨d, hcursor, ?_⟩ hsign
        have hd := hplain d hcursor
        revert hstructural hd
        cases d <;> decide
    have hlive {p : Prop} (h : s.walk.isLive = true) : p := by
      rw [hs.isLive_eq] at h
      cases h
    refine wp_statement_of_none hnone ⟨rfl, ?_, rfl, fun _ => hkept rfl rfl⟩ (fun h => hlive h) fun h => hlive h
    rw [Cursor.nextStatement_eq_skipStatement fun d hd =>
      ⟨fun h => hsign ⟨d, hd, Or.inl h⟩, fun h => hsign ⟨d, hd, Or.inr h⟩⟩]

/-! ### Two walks in one definition -/

/-- Frames that are opened in a definition, as the text sees those of two walks. -/
def SameOutline (inner inner' : List Conditional) : Prop :=
  inner'.map Conditional.outline = inner.map Conditional.outline

section
variable {env' : Setting} {u t : LineState} {f' : Conditional} {outer' inner' : List Conditional}
  (hs : s.walk.IsDefining f outer inner) (hs' : u.walk.IsDefining f' outer' inner')
  (hsame : SameOutline inner inner') (hlength : outer'.length = outer.length)
  (hindex : env'.index = env.index) (hcursor : u.cursor = s.cursor)
  (hrewound : s.walk.rewound = false) (hrewound' : u.walk.rewound = false) (hrest : s.cursor.rest ≠ [])

include hs hs' hsame hlength hindex hcursor

/-- What the text makes of the outline of one walk, it makes of that of the other. -/
theorem outlineOf?_alike
    (hopen : ∀ frames, s.cursor.outlineOf? env.index s.walk.outline = some frames → outer.length < frames.length) :
    ∃ result : Option (List Conditional),
      s.cursor.outlineOf? env.index s.walk.outline = result.map (· ++ (f :: outer).map Conditional.outline) ∧
      u.cursor.outlineOf? env'.index u.walk.outline = result.map (· ++ (f' :: outer').map Conditional.outline) := by
  rw [hs.outline_eq] at hopen
  rw [hs.outline_eq, hs'.outline_eq, show inner'.map Conditional.outline = _ from hsame, hcursor, hindex]
  refine Cursor.outlineOf?_append hs.isMacro hs'.isMacro ?_ (fun g hg => ?_) fun frames hframes => ?_
  · rw [List.length_map, List.length_map, hlength]
  · obtain ⟨g, hmem, rfl⟩ := List.mem_map.mp hg
    exact hs.ifs g hmem
  · rw [List.length_map]
    exact hopen frames hframes

include hrewound hrewound' hrest

/-- **A statement that leaves the definition open does so on both walks.** -/
theorem ok_alike (hrun : statement env s = .ok true t) (hopen : outer.length < t.walk.conditionals.length) :
    ∃ t' frames frames', statement env' u = .ok true t' ∧ t'.cursor.skipBlanks = t.cursor.skipBlanks ∧
      StepsTo f outer s t frames ∧ StepsTo f' outer' u t' frames' ∧ SameOutline frames frames' := by
  obtain ⟨-, hplace, houtline, hsteps⟩ := of_wp_ok (stepsOver_statement hs hrewound hrest) hrun
  obtain ⟨frames, hframes⟩ := hsteps hopen
  have ht : t.walk.IsDefining f outer frames := by
    rw [hframes.1]
    exact hs.change hframes.2.2
  obtain ⟨result, hresult, hresult'⟩ := outlineOf?_alike hs hs' hsame hlength hindex hcursor fun o ho => by
    obtain rfl := Option.some.inj (houtline.symm.trans ho)
    rwa [Walk.outline, List.length_map]
  rw [houtline, ht.outline_eq] at hresult
  obtain ⟨o, rfl, ho⟩ := Option.map_eq_some_iff.mp hresult.symm
  obtain rfl := List.append_cancel_right ho
  have hstatement' : wp statement env' u _ _ := stepsOver_statement hs' hrewound' (by rwa [hcursor])
  cases hrun' : statement env' u with
  | error stop t' =>
    rw [(of_wp_error hstatement' hrun').2] at hresult'
    cases hresult'
  | ok goesOn t' =>
    obtain ⟨rfl, hplace', houtline', hsteps'⟩ := of_wp_ok hstatement' hrun'
    have houtline' := Option.some.inj (houtline'.symm.trans hresult')
    have hlonger : outer'.length < t'.walk.outline.length := by
      rw [houtline', List.length_append, List.length_map, List.length_map, List.length_cons]
      omega
    obtain ⟨frames', hframes'⟩ := hsteps' (by rwa [Walk.outline, List.length_map] at hlonger)
    refine ⟨t', frames, frames', rfl, ?_, hframes, hframes', ?_⟩
    · rw [hplace, hplace', hcursor]
    · have ht' : t'.walk.IsDefining f' outer' frames' := by
        rw [hframes'.1]
        exact hs'.change hframes'.2.2
      rw [ht'.outline_eq] at houtline'
      exact List.append_cancel_right houtline'

/-- **A statement that raises a problem does so on both walks.** -/
theorem error_alike {stop : Stop} (hrun : statement env s = .error stop t) :
    ∃ problem' t', statement env' u = .error (.problem problem') t' ∧ GivesUp u (.problem problem') t' := by
  obtain ⟨-, houtline⟩ := of_wp_error (stepsOver_statement hs hrewound hrest) hrun
  obtain ⟨result, hresult, hresult'⟩ := outlineOf?_alike hs hs' hsame hlength hindex hcursor fun o ho => by
    rw [houtline] at ho
    cases ho
  obtain rfl : result = none := by
    rw [houtline] at hresult
    exact Option.map_eq_none_iff.mp hresult.symm
  have hstatement' : wp statement env' u _ _ := stepsOver_statement hs' hrewound' (by rwa [hcursor])
  cases hrun' : statement env' u with
  | ok goesOn t' =>
    obtain ⟨-, -, houtline', -⟩ := of_wp_ok hstatement' hrun'
    rw [houtline'] at hresult'
    cases hresult'
  | error stop' t' =>
    obtain ⟨hgivesUp, -⟩ := of_wp_error hstatement' hrun'
    obtain ⟨problem, rfl⟩ := hgivesUp.1
    exact ⟨problem, t', rfl, hgivesUp⟩

end
end LineM
end Asm6502
