/-
# Names do not leak between scopes

A full name says in which scopes, and in which iterations of loops, the name was
defined. No two scopes of a pass and no two iterations of a loop are told apart
by less than that, so what a pass finds under a name is the innermost definition
in scopes that are open: never one from a scope that was closed, a sibling,
another iteration or another macro call.

A pass is a sequence of moments. Each effect of a statement takes one or a few of
them, and so do the lines of other buffers that a statement brings in.

Key definitions: `Stage.moment`, `SymbolTable.HasPlainNames`, `Moment.sees?`.
Key theorems: `Walk.Effect.reaches`, `Stage.Advances.reaches`,
`reaches_runBufferWithin`, `Stage.Leads.reaches`, `Moment.not_contains_entered`,
`scope_hygiene`.
-/
import Asm6502.Proofs.Walk.Nesting

namespace Asm6502

open Moment (Reaches Enters Defines)

/-! ### Moments of a walk -/

/-- Whether the macro that is being captured has plain parameters. -/
def Walk.HasPlainCapture (w : Walk) : Prop :=
  ∀ c, w.capture = some c → c.definition.HasPlainParameters

theorem Moment.reaches_outer {own outer : List Frame} {r : Run} : Reaches ⟨own ++ outer, r⟩ ⟨outer, r⟩ := by
  induction own with
  | nil => exact .refl
  | cons f own ih => exact ih.head .closed

/-- What a buffer does to a run, seen from the scopes in which it is run. -/
def BufferRunner.IsPath (runBuffer : BufferRunner) : Prop :=
  ∀ allowance buffer frames r r', runBuffer allowance buffer frames r = some r' →
    Reaches ⟨frames, r⟩ ⟨frames, r'⟩

theorem Walk.Effect.reaches {runBuffer : BufferRunner} {steps : Prop} (hrunner : runBuffer.IsPath)
    {x y : Walk × Run} (he : Effect runBuffer steps x y) (hcapture : x.1.HasPlainCapture) :
    Reaches ⟨x.1.frames, x.2⟩ ⟨y.1.frames, y.2⟩ ∧ y.1.HasPlainCapture := by
  cases he with
  | stays hhappens => exact ⟨.single hhappens, hcapture⟩
  | opened kind spot _ hkind => exact ⟨.single (.entered (.opened kind spot hkind)), hcapture⟩
  | @closed w r f own hown =>
    refine ⟨.single ?_, hcapture⟩
    unfold Walk.frames
    rw [hown]
    exact .closed
  | @stepped w w' r r' _ hstep =>
    obtain ⟨f, own, l, hown, hkind, ⟨rfl, rfl⟩ | ⟨l', hnext, rfl, rfl⟩⟩ := eq_of_stepLoop hstep
    · refine ⟨.single ?_, hcapture⟩
      unfold Walk.frames
      rw [hown]
      exact .closed
    · refine ⟨.tail (.single ?_) (.changed (.bound rfl rfl)), hcapture⟩
      unfold Walk.frames
      rw [hown]
      exact .entered (.iterated hkind hnext)
  | turned conditionals capture hturned =>
    refine ⟨.refl, fun c hc => ?_⟩
    rcases hturned c hc with hkept | hplain
    · exact hcapture c hkept
    · exact hplain
  | @captured w r c conditionals hc =>
    have haside : r.Aside { r with macros := r.macros.add c.definition } := by
      refine ⟨rfl, rfl, rfl, fun name m hget => ?_, [], rfl, fun _ h => by cases h⟩
      rw [MacroTable.get?_add] at hget
      split_ifs at hget with hname
      · obtain rfl := Option.some.inj hget
        exact Or.inr (hcapture c hc)
      · exact Or.inl hget
    refine ⟨.single (.aside haside), fun c hnone => ?_⟩
    cases hnone
  | ran hrun => exact ⟨hrunner _ _ _ _ _ hrun, hcapture⟩

theorem LineState.Comes.reaches {env : Setting} {steps : Prop} {s t : LineState} (h : s.Comes env steps t)
    (hrunner : BufferRunner.IsPath env.runBuffer) (hcapture : s.walk.HasPlainCapture) :
    Reaches ⟨s.walk.frames, s.run⟩ ⟨t.walk.frames, t.run⟩ ∧ t.walk.HasPlainCapture := by
  refine h.keeps (P := fun w r => Reaches ⟨s.walk.frames, s.run⟩ ⟨w.frames, r⟩ ∧ w.HasPlainCapture)
    (fun x y he ih => ?_) ⟨.refl, hcapture⟩
  obtain ⟨hreaches, hplain⟩ := he.reaches hrunner ih.2
  exact ⟨ih.1.trans hreaches, hplain⟩

variable {library : Library} {allowance : Allowance} {bound : Nat}

namespace Stage

/-- The moment at which a walk is somewhere. -/
def moment (p : Stage) : Moment := ⟨p.walk.frames, p.run⟩

theorem reaches_left {index : Nat} {line : String} {record : Bool} {problem : Option Problem}
    {s : LineState} (hcapture : s.walk.HasPlainCapture) :
    Reaches ⟨s.walk.frames, s.run⟩ (left bound index line record problem s).moment ∧
      (left bound index line record problem s).walk.HasPlainCapture := by
  constructor
  · obtain ⟨capture, heq⟩ := s.walk.captureLine_eq index line
    have hframes : (s.walk.captureLine index line).frames = s.walk.frames := by
      rw [heq]
      rfl
    have hlooked := Moment.Happens.looked (follows_leave index line record problem s.walk.frames s)
    refine .single ?_
    change Moment.Happens _ ⟨(s.walk.captureLine index line).frames, _⟩
    rw [hframes]
    exact hlooked
  · change (s.walk.captureLine index line).HasPlainCapture
    unfold Walk.captureLine
    split
    · exact hcapture
    · rename_i c hc
      split_ifs
      · exact hcapture
      · intro c' hc'
        obtain rfl := Option.some.inj hc'
        exact hcapture c hc

/-- The bound on the lines of a walk, counting the line at hand. -/
def lines : Stage → Nat
  | before bound _ _ => bound
  | inside bound _ _ _ _ => bound + 1

theorem Advances.lines_le {p q : Stage} (h : Advances library allowance p q) : q.lines ≤ p.lines := by
  cases h with
  | enters => exact Nat.le_refl _
  | executes => exact Nat.le_refl _
  | rewinds => exact Nat.le_succ _
  | ends => exact Nat.le_succ _
  | fails => exact Nat.le_succ _

theorem Advances.reaches {p q : Stage} (hrunner : ∀ n < p.lines, (runBufferWithin library n).IsPath)
    (h : Advances library allowance p q) (hcapture : p.walk.HasPlainCapture) :
    Reaches p.moment q.moment ∧ q.walk.HasPlainCapture := by
  have hleft {s t : LineState} {bound index : Nat} {line : String} {record : Bool} {problem : Option Problem}
      (hrunner : (runBufferWithin library bound).IsPath)
      (hcomes : s.Comes (.ofLine library allowance bound index) True t) (hcapture : s.walk.HasPlainCapture) :
      Reaches ⟨s.walk.frames, s.run⟩ (left bound index line record problem t).moment ∧
        (left bound index line record problem t).walk.HasPlainCapture := by
    obtain ⟨hreaches, hplain⟩ := hcomes.reaches hrunner hcapture
    obtain ⟨hreaches', hplain'⟩ := reaches_left hplain
    exact ⟨hreaches.trans hreaches', hplain'⟩
  cases h with
  | enters => exact ⟨.refl, hcapture⟩
  | executes hrest hrun =>
    exact (comes_of_execute_ok hrest (fun _ => trivial) hrun).reaches (hrunner _ (Nat.lt_succ_self _)) hcapture
  | rewinds hrest hrun =>
    exact hleft (hrunner _ (Nat.lt_succ_self _)) (comes_of_execute_ok hrest (fun _ => trivial) hrun) hcapture
  | @ends bound index line record s =>
    exact reaches_left (s := { s with cursor := s.cursor.skipBlanks }) hcapture
  | fails hrest hrun =>
    exact hleft (hrunner _ (Nat.lt_succ_self _)) (comes_of_execute_error hrest (fun _ => trivial) hrun) hcapture

theorem reaches_path {p q : Stage} (hrunner : ∀ n < p.lines, (runBufferWithin library n).IsPath)
    (h : Relation.ReflTransGen (Advances library allowance) p q) (hcapture : p.walk.HasPlainCapture) :
    Reaches p.moment q.moment ∧ q.walk.HasPlainCapture := by
  have hpath : q.lines ≤ p.lines ∧ Reaches p.moment q.moment ∧ q.walk.HasPlainCapture := by
    induction h with
    | refl => exact ⟨Nat.le_refl _, .refl, hcapture⟩
    | tail _ hstep ih =>
      obtain ⟨hlines, hreaches, hplain⟩ := ih
      obtain ⟨hreaches', hplain'⟩ :=
        hstep.reaches (fun n hn => hrunner n (Nat.lt_of_lt_of_le hn hlines)) hplain
      exact ⟨Nat.le_trans hstep.lines_le hlines, hreaches.trans hreaches', hplain'⟩
  exact hpath.2

end Stage

/-- The lines of a buffer are a sequence of moments, which ends in the scopes in
which it began. -/
theorem reaches_runBufferWithin : ∀ bound, (runBufferWithin library bound).IsPath := by
  intro bound
  induction bound using Nat.strong_induction_on with
  | _ bound ih =>
    intro allowance buffer frames r r' hrun
    obtain ⟨⟨w', r''⟩, hwalk, rfl⟩ := Option.map_eq_some_iff.mp hrun
    obtain ⟨q, hpath, hends⟩ := Stage.exists_ends hwalk
    have hinherited := (Stage.isWithin_path hpath (Walk.isWithin_start buffer frames)).inherited_eq
    obtain ⟨hreaches, -⟩ :=
      Stage.reaches_path (p := .before bound (.start buffer frames) r) ih hpath fun _ hc => by cases hc
    refine hreaches.trans ?_
    clear hreaches hpath
    -- whatever scopes the walk has left open are closed
    cases hends with
    | @finishes n w r hline =>
      have hframes : w.inherited = frames := hinherited
      rw [← hframes]
      exact Moment.reaches_outer.tail (.looked (w.follows_finish _ r))
    | stops hline hcancelled =>
      have hframes : w'.inherited = frames := hinherited
      rw [← hframes]
      exact Moment.reaches_outer

/-! ### Moments of all walks -/

theorem LineState.GetsTo.reaches_moment {includes index n m : Nat} {s t : LineState}
    (h : s.GetsTo library (runBufferWithin library bound) includes index n m t) (hcapture : s.walk.HasPlainCapture) :
    Reaches ⟨s.walk.frames, s.run⟩ ⟨t.walk.frames, t.run⟩ ∧ t.walk.HasPlainCapture := by
  have henv (m : Nat) : (lineSetting library (runBufferWithin library bound) includes index m).IsTame :=
    isTame_lineSetting depth_runBufferWithin m
  induction h with
  | refl => exact ⟨.refl, hcapture⟩
  | @executes m t u _ hrest hrun ih =>
    obtain ⟨hreaches, hplain⟩ := ih
    have hstatement : LineM.DoesOn (lineSetting library (runBufferWithin library bound) includes index m) True
        { t with cursor := t.cursor.skipBlanks.skip 1 } LineM.statement { t with cursor := t.cursor.skipBlanks } :=
      LineM.does_statement (henv m) hrest fun _ => trivial
    obtain ⟨hreaches', hplain'⟩ :=
      (LineM.of_wp_ok hstatement hrun).comes.reaches (reaches_runBufferWithin bound) hplain
    exact ⟨hreaches.trans hreaches', hplain'⟩
  | @inlines m t u text _ hopens ih =>
    obtain ⟨hreaches, hplain⟩ := ih
    obtain ⟨spelling, column, -, hopen⟩ := hopens.opens
    obtain ⟨-, v, rfl, hdeeds⟩ := LineM.of_wp_ok LineM.wp_openText hopen
    have hcomes : t.Comes (lineSetting library (runBufferWithin library bound) includes index (m + 1)) True v :=
      hdeeds.comes (henv _) fun _ => trivial
    obtain ⟨hreaches', hplain'⟩ := hcomes.reaches (reaches_runBufferWithin bound) hplain
    exact ⟨(hreaches.trans hreaches').tail (.aside v.aside_inText), hplain'⟩

/-- The lines that a statement brings in begin at a later moment. -/
theorem LineState.Brings.reaches {env : Setting} {on : Region} {may : Doing → Prop} {s : LineState} {w : Walk}
    {depth : Depth} {x : Call} (h : s.Brings env on may w depth x) (henv : env.IsTame)
    (hrunner : BufferRunner.IsPath env.runBuffer) (hcapture : s.walk.HasPlainCapture) :
    Reaches ⟨s.walk.frames, s.run⟩ ⟨x.frames, x.run⟩ := by
  have hbefore {u : LineState} (hdeeds : s.Deeds env on may u) :
      Reaches ⟨s.walk.frames, s.run⟩ ⟨u.walk.frames, u.run⟩ := by
    have hcomes : s.Comes env True u := hdeeds.comes henv fun _ => trivial
    exact (hcomes.reaches hrunner hcapture).1
  cases h with
  | expansion _ hdeeds hx =>
    cases hx with
    | intro => exact hbefore hdeeds
  | inclusion _ hdeeds hx =>
    cases hx with
    | intro => exact (hbefore hdeeds).tail (.aside (Run.aside_inFile _ _))

theorem Stage.Leads.reaches {a : Allowance} {p q : Stage} (h : Leads library allowance p a q)
    (hcapture : p.walk.HasPlainCapture) : Reaches p.moment q.moment ∧ q.walk.HasPlainCapture := by
  induction h with
  | refl => exact ⟨.refl, hcapture⟩
  | advances _ hstep ih =>
    obtain ⟨hreaches, hplain⟩ := ih
    obtain ⟨hreaches', hplain'⟩ := hstep.reaches (fun n _ => reaches_runBufferWithin n) hplain
    exact ⟨hreaches.trans hreaches', hplain'⟩
  | nests bound' _ hgets _ hasm hwaits ih =>
    obtain ⟨hreaches, hplain⟩ := ih
    obtain ⟨hreaches', hplain'⟩ := hgets.reaches_moment hplain
    have hrunner {env : Setting} {x : Call} : BufferRunner.IsPath (env.upTo x).runBuffer :=
      fun allowance buffer frames r _ hrun => Setting.answer_upTo ⟨allowance, buffer, frames, r⟩ hrun ▸ .refl
    have hbrings := (hwaits.brings hasm).reaches Setting.isTame_upTo hrunner hplain'
    exact ⟨(hreaches.trans hreaches').trans hbrings, fun _ hc => by cases hc⟩

/-! ### The names that a run starts with -/

/-- Whether every name of a table is plain. -/
def SymbolTable.HasPlainNames (t : SymbolTable) : Prop := ∀ full, t.contains full = true → IsPlain full

theorem SymbolTable.HasPlainNames.add {t : SymbolTable} (h : t.HasPlainNames) {name : String}
    (hname : IsPlain name) (value : Value) (isLabel : Bool) (definedAt : Option Position) :
    (t.add name value isLabel definedAt).HasPlainNames := by
  intro full hfull
  rw [contains_eq_isSome, get?_add] at hfull
  split_ifs at hfull with heq
  · rw [← heq]
    exact hname
  · exact h full (by rwa [contains_eq_isSome])

theorem hasPlainNames_initialSymbols {defines : List (String × Float)}
    (hdefines : ∀ define ∈ defines, IsPlain define.1) : (Run.initialSymbols defines).HasPlainNames := by
  have hfold (t : SymbolTable) (ht : t.HasPlainNames) :
      (defines.foldl (fun t define => t.add define.1 (.num define.2) false none) t).HasPlainNames := by
    induction defines generalizing t with
    | nil => exact ht
    | cons define defines ih =>
      exact ih (fun d hd => hdefines d (List.mem_cons_of_mem _ hd)) _
        (ht.add (hdefines define List.mem_cons_self) _ _ _)
  have hempty : SymbolTable.empty.HasPlainNames := fun _ h => by cases h
  refine hfold _ (.add (.add (.add (.add (.add hempty ?_ _ _ _) ?_ _ _ _) ?_ _ _ _) ?_ _ _ _) ?_ _ _ _)
  all_goals simp [IsPlain]

/-- In a pass that begins with plain names, a scope or an iteration that is
entered has no symbols yet. -/
theorem Moment.not_contains_entered {m₀ m m' : Moment} (hformed : m₀.IsFormed)
    (hplain : m₀.run.symbols.HasPlainNames) (h : Reaches m₀ m) (henters : Enters m m') {f : Frame}
    {outer : List Frame} (hframes : m'.frames = f :: outer) {name : String} (hname : IsPlain name) :
    m.run.symbols.contains (fullName name (f :: outer)) = false := by
  by_contra hcontains
  rcases exists_defines h (by simpa using hcontains) with hstart | ⟨m₁, m₂, h₁, hdefines, h₂⟩
  · exact not_isPlain_fullName_cons name f outer (hplain _ hstart)
  · have hformed₁ := hformed.reaches h₁
    obtain ⟨name', outer', hname', houter', heq⟩ := hdefines.exists_fullName hformed₁
    obtain ⟨-, hstamps⟩ := (fullName_inj hname hname').mp heq
    obtain ⟨g, rest, rfl, hstamp, -⟩ := List.map_eq_cons_iff.mp hstamps.symm
    obtain ⟨hid, hcount⟩ := Prod.mk.inj hstamp
    have hpast : m₂.IsPast g.id g.count :=
      (hformed₁.happens hdefines.1).isPast (houter'.subset List.mem_cons_self)
    rw [hid, hcount] at hpast
    exact henters.not_isPast (by rw [hframes]; rfl) (hpast.reaches h₂)

/-! ### Hygiene -/

/-- The full name under which a name is found at a moment. -/
def Moment.sees? (m : Moment) (name : String) : Option String := visibleName? m.run.symbols name m.frames

/-- Names do not leak between scopes. Let a pass begin with macros whose
parameters are plain names.

Two full names are the same only if the names are and the scopes have the same
numbers and counts. The pass goes from moment to moment: to each of its stages, also
in the files and macros that are brought in, from there to each that follows, and to
its end; and what it notes as found was to be seen at one of these moments. Of all
the scopes that it opens and all the iterations of loops that it begins, no two have
the same number and count. So if one was entered between two stages of the pass, and
another between two later ones, these differ.

If moreover the pass begins with plain names only, then what is seen under a name
is its innermost definition in the scopes that are open. It was there from the
start, or it was made on the way while these same scopes were open, in these same
iterations, and they have been open ever since. -/
theorem scope_hygiene {file : Nat} {text : String} {pass : Pass} {r : Run}
    (hmacros : ∀ name m, r.macros.get? name = some m → m.HasPlainParameters) :
    let m₀ : Moment := ⟨[], r.beginPass pass⟩
    (∀ name name' frames frames', IsPlain name → IsPlain name' →
      (fullName name frames = fullName name' frames' ↔
        name = name' ∧ frames.map Frame.stamp = frames'.map Frame.stamp)) ∧
    (∀ a b p q, Visits library fullAllowance (.start (.ofText file text 0 none) []) (r.beginPass pass) a p →
      Stage.Leads library a p b q → Reaches m₀ p.moment ∧ Reaches p.moment q.moment) ∧
    (∀ r', runPass library bound file text pass r = some r' →
      Reaches m₀ ⟨[], r'⟩ ∧
      ∀ pass' full value, .found pass' full value ∈ r'.history → .found pass' full value ∉ r.history →
        ∃ m name, Reaches m₀ m ∧ Reaches m ⟨[], r'⟩ ∧ IsPlain name ∧ m.sees? name = some full ∧
          m.run.symbols.value? full = some value) ∧
    (∀ m₁ m₁' m₂ m₂' f g, Reaches m₀ m₁ → Enters m₁ m₁' → Reaches m₁' m₂ → Enters m₂ m₂' →
      m₁'.frames.head? = some f → m₂'.frames.head? = some g → f.stamp ≠ g.stamp) ∧
    (∀ a b c d p p' q q' f g,
      Visits library fullAllowance (.start (.ofText file text 0 none) []) (r.beginPass pass) a p →
      Stage.Leads library a p b p' → Stage.Leads library b p' c q → Stage.Leads library c q d q' →
      f ∈ p'.walk.frames → f.stamp ∉ p.walk.frames.map Frame.stamp →
      g ∈ q'.walk.frames → g.stamp ∉ q.walk.frames.map Frame.stamp → f.stamp ≠ g.stamp) ∧
    (r.symbols.HasPlainNames →
      ∀ m name full, Reaches m₀ m → IsPlain name → m.sees? name = some full →
        ∃ outer, outer <:+ m.frames ∧ full = fullName name outer ∧
          (∀ inner, inner <:+ m.frames → outer.length < inner.length →
            m.run.symbols.contains (fullName name inner) = false) ∧
          ((outer = [] ∧ r.symbols.contains name = true) ∨
            ∃ m₁ m₂, Reaches m₀ m₁ ∧ Defines full m₁ m₂ ∧ Reaches m₂ m ∧
              ∀ m₃, Reaches m₂ m₃ → Reaches m₃ m → m₃.HasOpen (outer.map Frame.stamp))) := by
  intro m₀
  have hformed : m₀.IsFormed :=
    ⟨.nil, fun _ hf => absurd hf List.not_mem_nil, fun _ hf => absurd hf List.not_mem_nil, hmacros⟩
  have hcontains (full : String) : m₀.run.symbols.contains full = r.symbols.contains full :=
    Moment.contains_change _ _ _ _
  have hvisits {a : Allowance} {p : Stage}
      (h : Visits library fullAllowance (.start (.ofText file text 0 none) []) (r.beginPass pass) a p) :
      Reaches m₀ p.moment ∧ p.walk.HasPlainCapture := by
    obtain ⟨bound, hleads⟩ := h.exists_leads
    exact hleads.reaches fun _ hc => by cases hc
  refine ⟨fun _ _ _ _ hname hname' => fullName_inj hname hname', fun a b p q hp hq => ?_, fun r' hrun => ?_, ?_, ?_, ?_⟩
  · obtain ⟨hreaches, hplain⟩ := hvisits hp
    exact ⟨hreaches, (hq.reaches hplain).1⟩
  · have hreaches : Reaches m₀ ⟨[], r'⟩ := reaches_runBufferWithin bound _ _ _ _ _ hrun
    refine ⟨hreaches, fun pass' full value hfound hnew => ?_⟩
    exact (Moment.exists_sighting hreaches hfound).resolve_left hnew
  · intro m₁ m₁' m₂ m₂' f g hreaches h₁ hbetween h₂ hf hg
    exact h₁.stamp_ne (hformed.reaches hreaches) hbetween h₂ hf hg
  · intro a b c d p p' q q' f g hp hp' hq hq' hf hnew hg hnew'
    obtain ⟨hreaches, hplain⟩ := hvisits hp
    obtain ⟨hreaches₁, hplain₁⟩ := hp'.reaches hplain
    obtain ⟨hbetween, hplain₂⟩ := hq.reaches hplain₁
    obtain ⟨m₁, m₁', f', hbefore₁, h₁, hafter₁, hf', hfstamp⟩ := Moment.exists_enters hreaches₁ hf hnew
    obtain ⟨m₂, m₂', g', hbefore₂, h₂, -, hg', hgstamp⟩ := Moment.exists_enters (hq'.reaches hplain₂).1 hg hnew'
    rw [← hfstamp, ← hgstamp]
    exact h₁.stamp_ne (hformed.reaches (hreaches.trans hbefore₁)) ((hafter₁.trans hbetween).trans hbefore₂) h₂ hf' hg'
  · intro hplain m name full hreaches hname hsees
    have hstart (full : String) (h : m₀.run.symbols.contains full = true) : IsPlain full := by
      rw [hcontains] at h
      exact hplain full h
    have hdefinition := Moment.exists_definition hformed hstart hreaches hname hsees
    simp only [hcontains] at hdefinition
    exact hdefinition

/-- A loop whose iterations define and use a name of their own. -/
def hygieneSample : String := "FOR i,1,2\na=i\nb=a\nNEXT\n"

theorem scope_hygiene_loop :
    ∃ r', runPass (.ofFiles []) 9 0 hygieneSample .first (.start ⟨[], 0, none⟩ 0 .never 0) = some r' ∧
      .found .first "a@1_1" (.num 2) ∈ r'.history ∧
      ∃ m name outer, Reaches ⟨[], (Run.start ⟨[], 0, none⟩ 0 .never 0).beginPass .first⟩ m ∧
        Reaches m ⟨[], r'⟩ ∧ m.sees? name = some "a@1_1" ∧ outer <:+ m.frames ∧
        "a@1_1" = fullName name outer := by
  have hmacros (name : String) (m : Macro)
      (hm : (Run.start ⟨[], 0, none⟩ 0 .never 0).macros.get? name = some m) : m.HasPlainParameters := by
    cases hm
  have hplain : (Run.start ⟨[], 0, none⟩ 0 .never 0).symbols.HasPlainNames :=
    hasPlainNames_initialSymbols fun _ h => by cases h
  have hnotes : (runPass (.ofFiles []) 9 0 hygieneSample .first (.start ⟨[], 0, none⟩ 0 .never 0)).map
      (fun r => (r.history.contains (.found .first "a@1_1" (.num 2)))) = some true := by decide +kernel
  obtain ⟨r', hrun, hfound⟩ := Option.map_eq_some_iff.mp hnotes
  have hfound : .found .first "a@1_1" (.num 2) ∈ r'.history := by simpa using hfound
  obtain ⟨-, -, hpass, -, -, hdefinition⟩ := @scope_hygiene (.ofFiles []) 9 0 hygieneSample .first _ hmacros
  obtain ⟨m, name, hbefore, hafter, hname, hsees, -⟩ :=
    (hpass r' hrun).2 .first "a@1_1" (.num 2) hfound (by simp [Run.start])
  obtain ⟨outer, houter, hfull, -⟩ := hdefinition hplain m name _ hbefore hname hsees
  exact ⟨r', hrun, hfound, m, name, outer, hbefore, hafter, hsees, houter, hfull⟩

end Asm6502
