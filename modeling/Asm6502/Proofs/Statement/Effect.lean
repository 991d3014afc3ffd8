/-
# What statements do to scopes and names

Every deed is a sequence of small effects on scopes and names: it looks names up,
changes one symbol, opens or closes a scope, ends an iteration, turns to another
branch, or runs the lines of another buffer. So what each effect keeps is kept by
all statements and all their errors. Only `NEXT`, and `ASM` through its text, ends
an iteration. The depth of nesting is the same after a statement as before it.

Key definitions: `Walk.Effect`, `LineState.Comes`, `LineState.Arrives`,
`Setting.IsTame`, `LineM.DoesOn`.
Key theorems: `Deed.effects`, `LineState.Deeds.comes`, `LineM.does_statement`,
`LineM.does_statements`.
-/
import Asm6502.Proofs.Statement.Acts

namespace Asm6502

/-! ### Effects -/

/-- What one step does to the walk and the run of a line. `steps` says whether it
may end an iteration of a loop. -/
inductive Walk.Effect (runBuffer : BufferRunner) (steps : Prop) : Walk × Run → Walk × Run → Prop
  | stays {w : Walk} {r r' : Run} : Moment.Happens ⟨w.frames, r⟩ ⟨w.frames, r'⟩ →
      Effect runBuffer steps (w, r) (w, r')
  | opened {w : Walk} {r : Run} (kind : FrameKind) (spot : Spot) (hroom : w.frames.length < maxScopes)
      (hkind : ∀ l, kind = .loop l → IsPlain l.name) :
      Effect runBuffer steps (w, r)
        ({ w with own := ⟨kind, r.lastScope + 1, 0, spot⟩ :: w.own },
          { r with lastScope := r.lastScope + 1 })
  /-- Only a brace or a macro call is closed as such. -/
  | closed {w : Walk} {r : Run} {f : Frame} {own : List Frame} (hown : w.own = f :: own)
      (hf : f.isLoop = false) : Effect runBuffer steps (w, r) ({ w with own }, r)
  | stepped {w w' : Walk} {r r' : Run} (hsteps : steps) (hstep : w.stepLoop r = .ok (w', r')) :
      Effect runBuffer steps (w, r) (w', r')
  /-- A branch is turned to, or a macro is begun whose lines are to be captured. -/
  | turned {w : Walk} {r : Run} (conditionals : List Conditional) (capture : Option Capture)
      (hcapture : ∀ c, capture = some c → w.capture = some c ∨ c.definition.HasPlainParameters) :
      Effect runBuffer steps (w, r) ({ w with conditionals, capture }, r)
  /-- A macro that was captured is defined. -/
  | captured {w : Walk} {r : Run} {c : Capture} (conditionals : List Conditional)
      (hcapture : w.capture = some c) :
      Effect runBuffer steps (w, r)
        ({ w with conditionals, capture := none }, { r with macros := r.macros.add c.definition })
  | ran {w : Walk} {r r' : Run} {allowance : Allowance} {buffer : Buffer}
      (hrun : runBuffer allowance buffer w.frames r = some r') :
      Effect runBuffer steps (w, r) (w, r')

/-- A state after effects, at the same depth. -/
structure LineState.Comes (env : Setting) (steps : Prop) (s t : LineState) : Prop where
  path : Relation.ReflTransGen (Walk.Effect env.runBuffer steps) (s.walk, s.run) (t.walk, t.run)
  depth : t.run.depth = s.run.depth

/-- A state after effects, further along the line. -/
structure LineState.Arrives (env : Setting) (steps : Prop) (s t : LineState) : Prop where
  comes : s.Comes env steps t
  reaches : s.cursor.Reaches t.cursor

section
variable {env : Setting} {steps : Prop} {s t u : LineState}

namespace LineState

theorem Comes.refl (s : LineState) : s.Comes env steps s := ⟨.refl, rfl⟩

/-- What each effect keeps is kept. -/
theorem Comes.keeps {P : Walk → Run → Prop} (h : s.Comes env steps t)
    (heffect : ∀ x y, Walk.Effect env.runBuffer steps x y → P x.1 x.2 → P y.1 y.2) (hs : P s.walk s.run) :
    P t.walk t.run := by
  have hpath : ∀ y, Relation.ReflTransGen (Walk.Effect env.runBuffer steps) (s.walk, s.run) y → P y.1 y.2 := by
    intro y hy
    induction hy with
    | refl => exact hs
    | tail _ he ih => exact heffect _ _ he ih
  exact hpath _ h.path

theorem Comes.mono {steps' : Prop} (hsteps : steps → steps') (h : s.Comes env steps t) :
    s.Comes env steps' t := by
  refine ⟨Relation.ReflTransGen.mono (fun a b hab => ?_) _ _ h.path, h.depth⟩
  cases hab with
  | stays hhappens => exact .stays hhappens
  | opened kind spot hroom hkind => exact .opened kind spot hroom hkind
  | closed hown hf => exact .closed hown hf
  | stepped h hstep => exact .stepped (hsteps h) hstep
  | turned conditionals capture hcapture => exact .turned conditionals capture hcapture
  | captured conditionals hcapture => exact .captured conditionals hcapture
  | ran hrun => exact .ran hrun

end LineState

theorem Walk.frame_of_startMacro {w w' : Walk} {definition : Option Macro} {spot : Spot}
    (h : w.startMacro definition spot = .ok w') :
    w' = { w with
      conditionals := ⟨false, false, false, true, spot⟩ :: w.conditionals
      capture := definition.map (⟨·, spot.index⟩) } := by
  unfold startMacro Conditional.openMacro at h
  split_ifs at h
  · cases h
  · cases h
    rfl

theorem Walk.rewound_of_endMacro {w w' : Walk} {definition : Option Macro} (h : w.endMacro = .ok (definition, w')) :
    w'.rewound = w.rewound := by
  unfold endMacro at h
  split at h
  · split_ifs at h
    cases h
    rfl
  · cases h

theorem Run.Aside.of_eq {r r' : Run} (hpass : r'.pass = r.pass) (hscope : r'.lastScope = r.lastScope)
    (hsymbols : r'.symbols = r.symbols) (hmacros : r'.macros = r.macros)
    (hhistory : r'.history = r.history) : r.Aside r' :=
  ⟨hpass, hscope, hsymbols, fun _ _ h => Or.inl (hmacros ▸ h), [], hhistory, fun _ h => by cases h⟩

theorem Run.aside_note (r : Run) {n : Note} (hn : ∀ pass full value, n ≠ .found pass full value) :
    r.Aside { r with history := n :: r.history } := by
  refine ⟨rfl, rfl, rfl, fun _ _ h => Or.inl h, [n], rfl, fun n' hn' => ?_⟩
  rw [List.mem_singleton.mp hn']
  exact hn

/-- What must hold of the buffers and texts that a line brings in. -/
structure Setting.IsTame (env : Setting) : Prop where
  runBuffer : ∀ allowance buffer frames r r', env.runBuffer allowance buffer frames r = some r' →
    r'.depth = r.depth
  runText : ∀ text s, LineM.wp (fun _ => env.runText text) env s
    (fun _ t => s.Comes env True t ∧ t.cursor = s.cursor) fun _ t => s.Comes env True t

theorem Setting.IsTame.keepsTo (henv : env.IsTame) (on : Region) : env.KeepsTo on := by
  intro text s node t hrun hs
  rw [(LineM.of_wp_ok (m := fun _ => env.runText text) (henv.runText text s) hrun).2]
  exact hs

theorem Setting.IsTame.stateOf (henv : env.IsTame) (text : String) (s : LineState) :
    s.Comes env True (LineM.stateOf (env.runText text s)) := by
  have htext := henv.runText text s
  unfold LineM.wp at htext
  cases hrun : env.runText text s with
  | ok node t =>
    simp only [hrun] at htext
    exact htext.1
  | error stop t =>
    simp only [hrun] at htext
    exact htext

namespace Walk

variable {runBuffer : BufferRunner} {w w' : Walk} {r r' : Run}

theorem Effect.looked (h : r.Follows w.frames r') : Effect runBuffer steps (w, r) (w, r') := .stays (.looked h)

theorem Effect.aside (h : r.Aside r') : Effect runBuffer steps (w, r) (w, r') := .stays (.aside h)

theorem Effect.changed {symbols : SymbolTable} (h : Moment.Changes w.frames r symbols) :
    Effect runBuffer steps (w, r) (w, { r with symbols }) := .stays (.changed h)

theorem effect_openScope {kind : FrameKind} {spot : Spot} (hkind : ∀ l, kind = .loop l → IsPlain l.name)
    (hopen : w.openScope r kind spot = .ok (w', r')) : Effect runBuffer steps (w, r) (w', r') := by
  have hroom : w.frames.length < maxScopes := by
    by_contra hfull
    rw [openScope, if_pos (Nat.not_lt.mp hfull)] at hopen
    cases hopen
  obtain ⟨rfl, rfl⟩ := eq_of_openScope hopen
  exact .opened kind spot hroom hkind

theorem effects_startLoop {l : Loop} {spot : Spot} (hname : IsPlain l.name)
    (hstart : w.startLoop r l spot = .ok (w', r')) :
    Relation.ReflTransGen (Effect runBuffer steps) (w, r) (w', r') := by
  unfold startLoop at hstart
  split_ifs at hstart
  cases hopen : w.openScope r (.loop l) spot with
  | error fault =>
    rw [hopen] at hstart
    cases hstart
  | ok result =>
    rw [hopen] at hstart
    cases hstart
    obtain ⟨w', r'⟩ := result
    have hplain : ∀ l', FrameKind.loop l = .loop l' → IsPlain l'.name := by
      rintro l' ⟨⟩
      exact hname
    obtain ⟨hw, -⟩ := eq_of_openScope hopen
    have hframes : w'.frames = ⟨.loop l, r.lastScope + 1, 0, spot⟩ :: w.frames := by rw [hw]; rfl
    exact .tail (.single (effect_openScope hplain hopen)) (.changed (.bound hframes rfl))

end Walk

theorem Run.aside_inFile (r : Run) (path : Path) : r.Aside (r.inFile path) := by
  rw [Run.inFile, Run.addFile_eq]
  exact .of_eq rfl rfl rfl rfl rfl

theorem LineState.aside_inText (s : LineState) : s.run.Aside s.inText.run :=
  ⟨rfl, rfl, rfl, fun _ _ h => Or.inl h, [.inlined], rfl, by simp⟩

/-- **A deed is a sequence of effects.** -/
theorem Deed.effects {on : Region} {may : Doing → Prop} {x y : Walk × Run} (henv : env.IsTame)
    (hsteps : may .stepping ∨ may .inlining → steps) (h : Deed env on may x y) :
    Relation.ReflTransGen (Walk.Effect env.runBuffer steps) x y ∧ y.2.depth = x.2.depth := by
  have hlabel {w : Walk} {r : Run} {full : String} {n : Nat} : Walk.Effect env.runBuffer steps (w, r)
      (w, { r with history := .placed r.pass full n :: r.history }) :=
    .aside (Run.aside_note r fun _ _ _ h => by cases h)
  cases h with
  | evaluated s hplace hleaves => exact ⟨.single (.looked hleaves.follows), rfl⟩
  | idled | coded | saved => exact ⟨.single (.looked (.of_eq rfl rfl rfl rfl rfl rfl)), rfl⟩
  | processor hmay value => exact ⟨.single (.changed (.processor value)), rfl⟩
  | labelled hmay hplace hfind houter hplaces =>
    obtain ⟨-, hadd⟩ | ⟨rfl, -⟩ := hplaces
    · exact ⟨.tail (.single (.changed (.defined (Cursor.isPlain_name _) houter hadd))) hlabel, rfl⟩
    · exact ⟨.single hlabel, rfl⟩
  | @assigned w r c hmay hplace hname hnew value =>
    obtain ⟨symbols, hadd⟩ : ∃ symbols, r.symbols.add? (fullName c.name.1 w.frames) value false
        (some (w.buffer.position env.index c.column)) = some symbols := by
      apply Option.ne_none_iff_exists'.mp
      rw [ne_eq, SymbolTable.add?_eq_none_iff, hnew]
      simp
    rw [SymbolTable.add, hadd]
    exact ⟨.single (.changed (.defined c.isPlain_name (List.suffix_refl _) hadd)), rfl⟩
  | reassigned hmay hplace hname hsymbol hsame value =>
    exact ⟨.single (.changed (.reassigned value hsymbol hsame)), rfl⟩
  | opened hmay hopen =>
    refine ⟨.single (Walk.effect_openScope (fun l hl => ?_) hopen), ?_⟩
    · rcases hmay with ⟨rfl, -⟩ | ⟨rfl, -⟩ <;> cases hl
    obtain ⟨-, rfl⟩ := Walk.eq_of_openScope hopen
    rfl
  | closed hmay hown hf => exact ⟨.single (.closed hown hf), rfl⟩
  | looped hmay hplace hend hname hresume hstart =>
    refine ⟨Walk.effects_startLoop hname hstart, ?_⟩
    obtain ⟨-, rfl⟩ := Walk.eq_of_startLoop hstart
    rfl
  | stepped hmay hstep =>
    refine ⟨.single (.stepped (hsteps (Or.inl hmay)) hstep), ?_⟩
    obtain ⟨f, own, l, -, -, ⟨-, rfl⟩ | ⟨l', -, -, rfl⟩⟩ := Walk.eq_of_stepLoop hstep <;> rfl
  | turned => exact ⟨.single (.turned _ _ fun _ hc => Or.inl hc), rfl⟩
  | begun hmay hdefinition hstart =>
    rw [Walk.frame_of_startMacro hstart]
    refine ⟨.single (.turned _ _ fun c hc => Or.inr ?_), rfl⟩
    obtain ⟨m, hm, rfl⟩ := Option.map_eq_some_iff.mp hc
    obtain ⟨-, name, column, parameters, rfl, hplain⟩ := hdefinition m hm
    exact hplain
  | @ended w w' r definition hmay hend =>
    unfold Walk.endMacro at hend
    split at hend
    · split_ifs at hend
      cases hend
      cases hcapture : w.capture with
      | none => exact ⟨.single (.turned _ _ fun _ hc => by cases hc), rfl⟩
      | some c => exact ⟨.single (.captured _ hcapture), rfl⟩
    · cases hend
  | referenced hmay name p =>
    refine ⟨.single (.looked ?_), rfl⟩
    exact ⟨rfl, rfl, rfl, rfl, MacroTable.get?_addReference _ _ _, .refl _, [], rfl, fun _ h => by cases h⟩
  | released hmay hown hf hlast hm hparameter =>
    exact ⟨.single (.changed (.released (by rw [Walk.frames, hown]; rfl) hf hm hparameter)), rfl⟩
  | given hmay hown hf hm hparameter value =>
    exact ⟨.single (.changed (.given value (by rw [Walk.frames, hown]; rfl) hf hm hparameter)), rfl⟩
  | ran hmay hx hrun =>
    cases hx with
    | intro _ _ hown hf =>
      exact ⟨.tail (.single (.ran hrun)) (.closed hown (Frame.isLoop_of_isExpansion hf)), henv.runBuffer _ _ _ _ _ hrun⟩
  | @added w r path =>
    dsimp only
    rw [Run.addFile_eq]
    exact ⟨.single (.aside (.of_eq rfl rfl rfl rfl rfl)), rfl⟩
  | @included w r r' x hmay hx hrun =>
    cases hx with
    | @intro path _ _ =>
      have hback : r'.Aside r'.leaveFile := .of_eq rfl rfl rfl rfl rfl
      refine ⟨.tail (.tail (.single (.aside (r.aside_inFile path))) (.ran hrun)) (.aside hback), ?_⟩
      have hdepth := henv.runBuffer _ _ _ _ _ hrun
      rw [Run.inFile, Run.addFile_eq] at hdepth
      rw [Run.leaveFile, hdepth]
      rfl
  | @inlined s c spelling text hmay hplace hfind hrest hcursor hevals =>
    have htext : s.inText.Comes env steps (LineM.stateOf (env.runText text s.inText)) :=
      (henv.stateOf text s.inText).mono fun _ => hsteps (Or.inr hmay)
    generalize LineM.stateOf (env.runText text s.inText) = t at htext ⊢
    have hback : t.run.Aside t.run.leaveText := .of_eq rfl rfl rfl rfl rfl
    refine ⟨((Relation.ReflTransGen.single (.aside s.aside_inText)).trans htext.path).tail (.aside hback), ?_⟩
    dsimp only
    rw [Run.leaveText, htext.depth]
    rfl

theorem LineState.Deeds.comes {on : Region} {may : Doing → Prop} (henv : env.IsTame)
    (hsteps : may .stepping ∨ may .inlining → steps) (h : s.Deeds env on may t) : s.Comes env steps t := by
  have heffects := h.relates (R := fun x y =>
      Relation.ReflTransGen (Walk.Effect env.runBuffer steps) x y ∧ y.2.depth = x.2.depth) (fun _ => ⟨.refl, rfl⟩)
    (fun _ _ _ h h' => ⟨h.1.trans h'.1, h'.2.trans h.2⟩) fun _ _ => Deed.effects henv hsteps
  exact ⟨heffects.1, heffects.2⟩

namespace LineM

/-- The step `m`, begun in `t`, ends in a state that comes from `s`. -/
def DoesOn {α : Type} (env : Setting) (steps : Prop) (s : LineState) (m : LineM α) (t : LineState) : Prop :=
  wp m env t (fun _ u => s.Arrives env steps u) fun _ u => s.Comes env steps u

/-- A statement takes at least one character, and it ends an iteration only if it
is a `NEXT` or an `ASM`. -/
theorem does_statement (henv : env.IsTame) (hrest : s.cursor.rest ≠ [])
    (hsteps : directive? s = some .next ∨ directive? s = some .asm → steps) :
    DoesOn env steps { s with cursor := s.cursor.skip 1 } statement s := by
  have hdoes : doing? s = some .stepping ∨ doing? s = some .inlining → steps := fun h =>
    hsteps (h.imp doing?_eq_stepping.mp doing?_eq_inlining.mp)
  have hacts : Acts env (.after s.cursor) (doing? s = some ·) statement s :=
    acts_statement (henv.keepsTo _) (fun _ h => h) rfl fun hd =>
      (Region.after s.cursor).has_skip rfl (statementLength_pos_of_none hd hrest)
  refine wp_mono hacts (fun _ t ht => ⟨?_, ht.1⟩) fun _ t ht => ?_
  · exact ⟨(ht.2.comes henv hdoes).path, (ht.2.comes henv hdoes).depth⟩
  · exact ⟨(ht.deeds.comes henv hdoes).path, (ht.deeds.comes henv hdoes).depth⟩

theorem does_statements (henv : env.IsTame) :
    wp statements env s (fun _ t => s.Comes env True t) fun _ t => s.Comes env True t :=
  wp_mono deeds_statements (fun _ _ ht => ht.comes henv fun _ => trivial) fun _ _ ht => ht.comes henv fun _ => trivial

end LineM
end
end Asm6502
