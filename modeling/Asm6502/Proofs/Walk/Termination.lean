/-
# Walks without loops come to an end

A walk is run within a bound on lines. Without loops some bound is enough, and a
greater one makes no difference: what a statement does by itself does not depend
on the bound, the lines that it brings in have less leeway, and these come to an
end by induction. On a line each statement leaves less of the line, and each line
of a walk leaves fewer of them.

Key definitions: `LineM.Settles`, `Walk.Settles`.
Key theorems: `settles_walk`.
-/
import Asm6502.Proofs.Walk.Straight
import Mathlib.Order.Filter.AtTopBot.Basic

namespace Asm6502

open Filter

/-! ### Statements -/

namespace LineM

/-- Whether a step comes to the same in all but finitely many of some settings,
and not to the end of the bound on lines. -/
def Settles {α : Type} (E : Nat → Setting) (m : LineM α) (s : LineState) : Prop :=
  ∃ result, (∀ t, result ≠ .error .exhausted t) ∧ ∀ᶠ b in atTop, m (E b) s = result

variable {α β : Type} {E : Nat → Setting} {s : LineState}

theorem IsAlone.settles {m : LineM α} (hE : ∀ b, (E 0).Agrees (E b)) (h : IsAlone m (E 0) s) : Settles E m s :=
  ⟨m (E 0) s, h.ne_exhausted, .of_forall fun b => h.congr _ (hE b)⟩

theorem settles_of_isLocal {m : LineM α} (hE : ∀ b, (E 0).Agrees (E b)) (h : IsLocal m) : Settles E m s :=
  h.isAlone.settles hE

theorem Settles.congr {m m' : LineM α} {s' : LineState} (h : Settles E m' s') (heq : ∀ env, m env s = m' env s') :
    Settles E m s := by
  obtain ⟨result, hends, hresult⟩ := h
  exact ⟨result, hends, hresult.mono fun b hb => (heq (E b)).trans hb⟩

theorem Settles.bind {x : LineM β} {f : β → LineM α} (hx : Settles E x s)
    (hf : ∀ a t, (∀ᶠ b in atTop, x (E b) s = .ok a t) → Settles E (f a) t) : Settles E (x >>= f) s := by
  obtain ⟨result, hends, hresult⟩ := hx
  cases result with
  | ok a t =>
    obtain ⟨result', hends', hresult'⟩ := hf a t hresult
    refine ⟨result', hends', ?_⟩
    filter_upwards [hresult, hresult'] with b hb hb'
    rw [bind_of_ok hb, hb']
  | error stop t =>
    refine ⟨.error stop t, fun u hu => ?_, ?_⟩
    · cases hu
      exact hends t rfl
    · filter_upwards [hresult] with b hb
      rw [bind_eq_resume, hb]
      rfl

theorem Settles.andThen {m : LineM α} {last : LineState → LineState} (h : Settles E m s) :
    Settles E (m.andThen last) s := by
  obtain ⟨result, hends, hresult⟩ := h
  refine ⟨mapState last result, fun t ht => ?_, ?_⟩
  · cases result with
    | ok a u => cases ht
    | error stop u =>
      cases ht
      exact hends u rfl
  · filter_upwards [hresult] with b hb
    rw [andThen_eq_mapState, hb]

/-- A statement that brings in lines settles if the lines do. -/
theorem BringsOnce.settles {m : LineM α} (hE : ∀ b, (E 0).Agrees (E b)) (h : BringsOnce m (E 0) s)
    (hcalls : ∀ x, Waits x m (E 0) s → ∃ r, ∀ᶠ b in atTop, (E b).answer x = some r) : Settles E m s := by
  rcases h with halone | ⟨x, hwaits, -⟩
  · exact halone.settles hE
  · obtain ⟨r, hanswer⟩ := hcalls x hwaits
    obtain ⟨before, after, hafter, heq⟩ := hwaits
    refine ⟨after r, hafter r, ?_⟩
    filter_upwards [hanswer] with b hb
    rw [heq _ (hE b), hb]
    rfl

theorem statement_of_directive {env : Setting} {d : Directive} {spelling : String} (h : directive? s = some d)
    (hfind : Directive.find? s.cursor.rest = some (spelling, d)) :
    statement env s =
      (do directive spelling d; return !(← getWalk).rewound : LineM Bool) env { s with parts := #[] } := by
  have hparts : (modify fun s => { s with parts := #[] } : LineM Unit) env s = .ok () { s with parts := #[] } := rfl
  have hcursor : getCursor env { s with parts := #[] } = .ok s.cursor { s with parts := #[] } := rfl
  have hwalk : getWalk env { s with parts := #[] } = .ok s.walk { s with parts := #[] } := rfl
  unfold directive? at h
  split_ifs at h with hassignment
  simp only [hfind] at h
  split_ifs at h with hexecuted
  rw [statement, bind_of_ok hparts, bind_of_ok hcursor, bind_of_ok hwalk, if_neg hassignment, hfind]
  dsimp only
  rw [if_pos hexecuted]

theorem settles_directive {d : Directive} {spelling : String} (hE : ∀ b, (E 0).Agrees (E b))
    (h : Settles E (perform d s.cursor.column) { s with cursor := s.cursor.skip spelling.length }) :
    Settles E (directive spelling d) s := by
  have hlast : IsLocal (do if isCommand d then pushNode .command spelling s.cursor.column) := inferInstance
  have hrest := h.bind (f := fun _ => do if isCommand d then pushNode .command spelling s.cursor.column)
    fun _ _ _ => settles_of_isLocal hE hlast
  exact hrest.congr fun env => rfl

end LineM

/-- The settings in which a line is executed, one for each bound on lines. -/
def Setting.bounded (library : Library) (includes index n bound : Nat) : Setting :=
  lineSetting library (runBufferWithin library bound) includes index n

section
variable {library : Library} {includes index n : Nat} {s t : LineState}

theorem Setting.agrees_bounded (b b' : Nat) :
    (Setting.bounded library includes index n b).Agrees (Setting.bounded library includes index n b') :=
  ⟨rfl, rfl, rfl⟩

theorem Setting.isTame_bounded (b : Nat) : (Setting.bounded library includes index n b).IsTame :=
  isTame_lineSetting depth_runBufferWithin n

namespace LineM

/-- A text settles if its statements do. -/
theorem settles_inline {text : String} {column : Nat}
    (h : Settles (.bounded library includes index n) statements ⟨.ofText text, #[], #[], s.walk, s.run⟩) :
    Settles (.bounded library includes index (n + 1)) (inline text column) s := by
  obtain ⟨result, hends, hresult⟩ := h
  have heq (b : Nat) (hb : statements (.bounded library includes index n b)
      ⟨.ofText text, #[], #[], s.walk, s.run⟩ = result) :
      (Setting.bounded library includes index (n + 1) b).runText text s = runTextWith (fun _ => result) text s := by
    unfold Setting.bounded
    rw [runText_lineSetting]
    unfold runTextWith
    rw [← hb]
    rfl
  rcases result with ⟨_, t⟩ | ⟨problem | _, t⟩
  · refine ⟨.ok (t.tree text) { s with walk := t.walk, run := t.run }, by rintro _ ⟨⟩, ?_⟩
    filter_upwards [hresult] with b hb
    rw [inline, heq b hb]
    rfl
  · refine ⟨.error (.problem ⟨problem.fault, column⟩) { s with walk := t.walk, run := t.run },
      by rintro _ ⟨⟩, ?_⟩
    filter_upwards [hresult] with b hb
    rw [inline, heq b hb]
    rfl
  · exact absurd rfl (hends t)

theorem settles_asm {start : LineState}
    (htext : ∀ k text column u, n = k + 1 →
      (∀ b, openText (.bounded library includes index n b) start = .ok (text, column) u) →
      Settles (.bounded library includes index k) statements ⟨.ofText text, #[], #[], u.walk, u.run⟩) :
    Settles (.bounded library includes index n) asm start := by
  have hlocal : IsLocal openText := inferInstance
  refine (settles_of_isLocal (Setting.agrees_bounded 0) hlocal).bind fun found u hopen => ?_
  obtain ⟨text, column⟩ := found
  obtain ⟨b₀, hb₀⟩ := hopen.exists
  have hopens (b : Nat) : openText (.bounded library includes index n b) start = .ok (text, column) u :=
    (hlocal.congr (Setting.agrees_bounded b₀ b)).trans hb₀
  have hevals : n ≠ 0 := (of_wp_ok wp_openText hb₀).1.1
  obtain ⟨k, rfl⟩ := Nat.exists_eq_succ_of_ne_zero hevals
  have hinline : Settles (.bounded library includes index (k + 1)) (inline text column) u :=
    settles_inline (htext k text column u rfl hopens)
  exact hinline.andThen.bind fun _ _ _ => settles_of_isLocal (Setting.agrees_bounded 0) inferInstance

end LineM

/-- An `ASM` settles if its text does. -/
theorem LineState.settles_asm (hasm : LineM.directive? { t with cursor := t.cursor.skipBlanks } = some .asm)
    (htext : ∀ k text u, n = k + 1 → (∀ b, t.Inlines (.bounded library includes index n b) text u) →
      LineM.Settles (.bounded library includes index k) LineM.statements ⟨.ofText text, #[], #[], u.walk, u.run⟩) :
    LineM.Settles (.bounded library includes index n) LineM.statement { t with cursor := t.cursor.skipBlanks } := by
  obtain ⟨spelling, hfind⟩ := LineM.find?_of_directive? hasm
  have hperform : LineM.Settles (.bounded library includes index n) (LineM.perform .asm t.cursor.skipBlanks.column)
      { t with cursor := t.cursor.skipBlanks.skip spelling.length, parts := #[] } :=
    LineM.settles_asm fun k text column u hk hopens =>
      htext k text u hk fun b => ⟨hasm, spelling, column, hfind, hopens b⟩
  have hdirective : LineM.Settles (.bounded library includes index n) (LineM.directive spelling .asm)
      { t with cursor := t.cursor.skipBlanks, parts := #[] } :=
    LineM.settles_directive (Setting.agrees_bounded 0) hperform
  have hrest := hdirective.bind (f := fun _ => do return !(← LineM.getWalk).rewound)
    fun _ _ _ => LineM.settles_of_isLocal (Setting.agrees_bounded 0) inferInstance
  exact hrest.congr fun env => LineM.statement_of_directive hasm hfind

/-- The statements of a line settle if each of them does. -/
theorem LineState.settles_statements {P : LineState → Prop}
    (hstatement : ∀ t, P t → t.cursor.skipBlanks.rest ≠ [] →
      LineM.Settles (.bounded library includes index n) LineM.statement { t with cursor := t.cursor.skipBlanks })
    (hnext : ∀ t u, P t → t.cursor.skipBlanks.rest ≠ [] →
      (∀ᶠ b in atTop, LineM.statement (.bounded library includes index n b)
        { t with cursor := t.cursor.skipBlanks } = .ok true u) → P u) (ht : P t) :
    LineM.Settles (.bounded library includes index n) LineM.statements t := by
  -- each statement leaves less of the line
  induction hlength : t.cursor.rest.length using Nat.strong_induction_on generalizing t with
  | _ length ih =>
    subst hlength
    have henv (b : Nat) : (Setting.bounded library includes index n b).IsTame := Setting.isTame_bounded b
    have heq (b : Nat) := LineM.statements_eq (henv b) t
    by_cases hrest : t.cursor.skipBlanks.rest = []
    · refine ⟨.ok () { t with cursor := t.cursor.skipBlanks }, by rintro _ ⟨⟩, .of_forall fun b => ?_⟩
      rw [heq b, if_pos hrest]
    obtain ⟨result, hends, hresult⟩ := hstatement t ht hrest
    rcases result with ⟨_ | _, u⟩ | ⟨stop, u⟩
    · refine ⟨.ok () u, by rintro _ ⟨⟩, ?_⟩
      filter_upwards [hresult] with b hb
      rw [heq b, if_neg hrest, hb]
    · obtain ⟨b₀, hb₀⟩ := hresult.exists
      have hless := LineM.rest_lt_of_statement (henv b₀) hrest hb₀
      obtain ⟨result', hends', hresult'⟩ := ih _ hless (hnext t u ht hrest hresult) rfl
      refine ⟨result', hends', ?_⟩
      filter_upwards [hresult, hresult'] with b hb hb'
      rw [heq b, if_neg hrest, hb]
      exact hb'
    · refine ⟨.error stop u, fun v hv => ?_, ?_⟩
      · cases hv
        exact hends u rfl
      · filter_upwards [hresult] with b hb
        rw [heq b, if_neg hrest, hb]

end

/-! ### Lines and walks -/

/-- Whether a walk comes to the same within any bound but finitely many. -/
def Walk.Settles (library : Library) (allowance : Allowance) (w : Walk) (r : Run) : Prop :=
  ∃ result, ∀ᶠ b in atTop, walk library b allowance w r = some result

/-- Whether a walk executes no directive of a kind, nor do the walks that it
brings in. -/
def Walk.IsFreeOf (library : Library) (allowance : Allowance) (w : Walk) (r : Run) (d : Directive) : Prop :=
  ∀ a t, Meets library allowance w r a t → LineM.directive? { t with cursor := t.cursor.skipBlanks } ≠ some d

section
variable {library : Library} {allowance a : Allowance} {w w₀ : Walk} {r r₀ : Run} {index n : Nat} {line : String}
  {record : Bool} {s t : LineState}

theorem LineState.GetsTo.le {runBuffer : BufferRunner} {includes m : Nat}
    (h : s.GetsTo library runBuffer includes index n m t) : m ≤ n := by
  induction h with
  | refl => exact Nat.le_refl n
  | executes _ _ _ ih => exact ih
  | inlines _ _ ih => omega

theorem leeway_le {includes evals : Nat} {frames inherited : List Frame} (hevals : n ≤ evals)
    (hframes : inherited.length ≤ frames.length) :
    leeway ⟨includes, n⟩ frames ≤ leeway ⟨includes, evals⟩ inherited := by
  unfold leeway
  dsimp only
  omega

theorem LineM.Waits.congr {α : Type} {m : LineM α} {env env' : Setting} {x : Call} (h : Waits x m env s)
    (henv : env.Agrees env') : Waits x m env' s := by
  obtain ⟨before, after, hafter, heq⟩ := h
  exact ⟨before, after, hafter, fun env'' henv' => heq env'' ⟨henv'.library.trans henv.library,
    henv'.allowance.trans henv.allowance, henv'.index.trans henv.index⟩⟩

/-- Whether a line is executed within any bound but finitely many. -/
abbrev IsExecuted (library : Library) (allowance : Allowance) (w : Walk) (r : Run) (a : Allowance) (index : Nat)
    (line : String) (record : Bool) (s : LineState) : Prop :=
  ∀ᶠ b in atTop, Visits library allowance w r a (.inside b index line record s)

theorem Walk.IsFreeOf.isQuiet {b : Nat} (hfree : w₀.IsFreeOf library allowance r₀ .forLoop)
    (h : Visits library allowance w₀ r₀ a (.inside b index line record s)) :
    s.IsQuiet library (runBufferWithin library b) a.includes index a.evals :=
  fun m t ht => hfree ⟨a.includes, m⟩ t ⟨b, index, line, record, s, a.evals, h, ht⟩

/-- A statement settles if whatever lines it brings in do, with less leeway. -/
theorem settles_statement (hfree : w₀.IsFreeOf library allowance r₀ .forLoop)
    (hcalls : ∀ x : Call, leeway x.allowance x.frames < leeway a s.walk.inherited →
      (∀ b, Visits library allowance w₀ r₀ x.allowance (.before b (.start x.buffer x.frames) x.run)) →
      Walk.Settles library x.allowance (.start x.buffer x.frames) x.run)
    (hs : IsExecuted library allowance w₀ r₀ a index line record s) (hloopless : s.walk.IsLoopless)
    (ht : ∀ᶠ b in atTop, s.GetsTo library (runBufferWithin library b) a.includes index a.evals n t)
    (hrest : t.cursor.skipBlanks.rest ≠ []) :
    LineM.Settles (.bounded library a.includes index n) LineM.statement { t with cursor := t.cursor.skipBlanks } := by
  -- the text of an `ASM` has one less to nest
  induction n using Nat.strong_induction_on generalizing t with
  | _ n ih =>
    by_cases hasm : LineM.directive? { t with cursor := t.cursor.skipBlanks } = some .asm
    · refine LineState.settles_asm hasm fun k text u hk hinlines => ?_
      subst hk
      refine LineState.settles_statements
        (P := fun t => ∀ᶠ b in atTop, s.GetsTo library (runBufferWithin library b) a.includes index a.evals k t)
        (fun t ht hrest => ih k (Nat.lt_succ_self k) ht hrest) (fun t u ht hrest hrun => ?_) ?_
      · filter_upwards [ht, hrun] with b hb hrun
        exact .executes hb hrest hrun
      · filter_upwards [ht] with b hb
        exact .inlines hb (hinlines b)
    · refine (LineM.bringsOnce_statement hasm).settles (Setting.agrees_bounded 0) fun x hwaits => ?_
      obtain ⟨b, hvisits, hgets⟩ := (hs.and ht).exists
      have hstays := hgets.staysOn depth_runBufferWithin (hfree.isQuiet hvisits) hloopless
      have hframes : s.walk.inherited.length ≤ t.walk.frames.length := by
        rw [Walk.frames, List.length_append, hstays.inherited]
        exact Nat.le_add_left _ _
      have hless : leeway x.allowance x.frames < leeway a s.walk.inherited :=
        (hwaits.isInside hasm).leeway_lt.trans_le (leeway_le hgets.le hframes)
      obtain ⟨result, hresult⟩ := hcalls x hless fun b' =>
        .nests b' hvisits hgets hrest hasm (hwaits.congr (Setting.agrees_bounded 0 b))
      refine ⟨result.2, ?_⟩
      filter_upwards [hresult] with b hb
      change (walk library b x.allowance (.start x.buffer x.frames) x.run).map (·.2) = some result.2
      rw [hb]
      rfl

theorem Walk.StaysOn.captureLine (h : w.StaysOn w₀) : w.StaysOn (w₀.captureLine index line) := by
  obtain ⟨capture, hcapture⟩ := w₀.captureLine_eq index line
  rw [hcapture]
  exact ⟨h.buffer, h.next, h.rewound, h.inherited, h.loopless⟩

/-- A line settles if the walk from the end of the line on does. -/
theorem settles_inside (hfree : w₀.IsFreeOf library allowance r₀ .forLoop)
    (hcalls : ∀ x : Call, leeway x.allowance x.frames < leeway a s.walk.inherited →
      (∀ b, Visits library allowance w₀ r₀ x.allowance (.before b (.start x.buffer x.frames) x.run)) →
      Walk.Settles library x.allowance (.start x.buffer x.frames) x.run)
    (hafter : ∀ w r, s.walk.StaysOn w → (∀ᶠ b in atTop, Visits library allowance w₀ r₀ a (.before b w r)) →
      Walk.Settles library a w r)
    (hs : IsExecuted library allowance w₀ r₀ a index line record s) (hloopless : s.walk.IsLoopless) :
    ∃ result, ∀ᶠ b in atTop, (Stage.inside b index line record s).outcome library a = some result := by
  -- each statement leaves less of the line
  induction hlength : s.cursor.rest.length using Nat.strong_induction_on generalizing s with
  | _ length ih =>
    subst hlength
    have hleave (problem : Option Problem) (t : LineState) (hstays : s.walk.StaysOn t.walk)
        (hvisits : ∀ᶠ b in atTop, Visits library allowance w₀ r₀ a (Stage.left b index line record problem t)) :
        ∃ result, ∀ᶠ b in atTop, (Stage.left b index line record problem t).outcome library a = some result :=
      hafter _ _ hstays.captureLine hvisits
    by_cases hrest : s.cursor.skipBlanks.rest = []
    · obtain ⟨result, hresult⟩ := hleave none { s with cursor := s.cursor.skipBlanks } (.refl hloopless)
        (hs.mono fun b hb => .advances hb (.ends hrest))
      refine ⟨result, ?_⟩
      filter_upwards [hresult] with b hb
      rw [Stage.outcome_inside, if_pos hrest, hb]
    obtain ⟨result, hends, hresult⟩ := settles_statement hfree hcalls hs hloopless (.of_forall fun b => .refl) hrest
    have hrun (b : Nat) : Stage.execute library a b index s =
      LineM.statement (.bounded library a.includes index a.evals b) { s with cursor := s.cursor.skipBlanks } := rfl
    obtain ⟨b₀, hb₀, hvisits₀⟩ := (hresult.and hs).exists
    have hstatement := LineState.GetsTo.refl.staysOn_statement depth_runBufferWithin (hfree.isQuiet hvisits₀) hloopless
    rcases result with ⟨_ | _, t⟩ | ⟨problem | _, t⟩
    · have hstays : s.walk.StaysOn t.walk := LineM.of_wp_ok hstatement hb₀
      obtain ⟨result, hleft⟩ := hleave none t hstays
        ((hs.and hresult).mono fun b hb => .advances hb.1 (.rewinds hrest hb.2))
      refine ⟨result, ?_⟩
      filter_upwards [hresult, hleft] with b hb hleft
      rw [Stage.outcome_inside, if_neg hrest, hrun, hb]
      exact hleft
    · have hstays : s.walk.StaysOn t.walk := LineM.of_wp_ok hstatement hb₀
      have hless := LineM.rest_lt_of_statement (Setting.isTame_bounded b₀) hrest hb₀
      obtain ⟨result, hnext⟩ := ih _ hless (hstays.inherited ▸ hcalls) (fun w r hw => hafter w r (hstays.trans hw))
        ((hs.and hresult).mono fun b hb => .advances hb.1 (.executes hrest hb.2)) hstays.loopless rfl
      refine ⟨result, ?_⟩
      filter_upwards [hresult, hnext] with b hb hnext
      rw [Stage.outcome_inside, if_neg hrest, hrun, hb]
      exact hnext
    · have hstays : s.walk.StaysOn t.walk := LineM.of_wp_error hstatement hb₀
      obtain ⟨result, hleft⟩ := hleave (some problem) t hstays
        ((hs.and hresult).mono fun b hb => .advances hb.1 (.fails hrest hb.2))
      refine ⟨result, ?_⟩
      filter_upwards [hresult, hleft] with b hb hleft
      rw [Stage.outcome_inside, if_neg hrest, hrun, hb]
      exact hleft
    · exact absurd rfl (hends t)

theorem eventually_of_succ {P : Nat → Prop} (h : ∀ᶠ b in atTop, P (b + 1)) : ∀ᶠ b in atTop, P b := by
  rw [← map_add_atTop_eq_nat 1]
  exact h

/-- The lines of a walk settle if whatever they bring in does, with less leeway. -/
theorem settles_lines (hfree : w₀.IsFreeOf library allowance r₀ .forLoop)
    (hcalls : ∀ x : Call, leeway x.allowance x.frames < leeway a w.inherited →
      (∀ b, Visits library allowance w₀ r₀ x.allowance (.before b (.start x.buffer x.frames) x.run)) →
      Walk.Settles library x.allowance (.start x.buffer x.frames) x.run)
    (hvisits : ∀ᶠ b in atTop, Visits library allowance w₀ r₀ a (.before b w r)) (hloopless : w.IsLoopless) :
    Walk.Settles library a w r := by
  -- each line leaves fewer of them
  induction hlines : w.buffer.lines.size - w.next using Nat.strong_induction_on generalizing w r with
  | _ lines ih =>
    subst hlines
    cases hline : w.buffer.lines[w.next]? with
    | none =>
      refine ⟨w.finish r, eventually_of_succ (.of_forall fun b => ?_)⟩
      rw [walk, hline]
    | some line =>
      cases hcancelled : r.isCancelled with
      | true =>
        refine ⟨(w, r), eventually_of_succ (.of_forall fun b => ?_)⟩
        rw [walk, hline]
        dsimp only
        rw [if_pos hcancelled]
      | false =>
        have hlt : w.next < w.buffer.lines.size := (Array.getElem?_eq_some_iff.mp hline).1
        have hentered : IsExecuted library allowance w₀ r₀ a w.next line (w.recordsTree r) (w.entering r line) := by
          filter_upwards [(tendsto_add_atTop_nat 1).eventually hvisits] with b hb
          exact .advances hb (.enters hline hcancelled)
        obtain ⟨result, hresult⟩ := settles_inside hfree hcalls (fun w' r' hstays hvisits' => by
          refine ih _ ?_ ?_ hvisits' hstays.loopless rfl
          · rw [hstays.buffer, hstays.next]
            change w.buffer.lines.size - (w.next + 1) < _
            omega
          · rw [hstays.inherited]
            exact hcalls) hentered hloopless
        refine ⟨result, eventually_of_succ ?_⟩
        filter_upwards [hresult] with b hb
        exact (Stage.outcome_before hline hcancelled).trans hb

/-- Without loops every walk that is visited settles. -/
theorem settles_walk (hfree : w₀.IsFreeOf library allowance r₀ .forLoop)
    (hvisits : ∀ᶠ b in atTop, Visits library allowance w₀ r₀ a (.before b w r)) (hloopless : w.IsLoopless) :
    Walk.Settles library a w r := by
  -- whatever a line brings in has less leeway
  induction hleeway : leeway a w.inherited using Nat.strong_induction_on generalizing a w r with
  | _ leeway ih =>
    subst hleeway
    refine settles_lines hfree (fun x hless hvisits => ?_) hvisits hloopless
    exact ih _ hless (.of_forall hvisits) (fun f hf => by cases hf) rfl

end
end Asm6502
