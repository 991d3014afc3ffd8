/-
# The arguments of a macro call

The arguments of a call are meant to be read in the scopes of the caller. They
are evaluated when the scope of the call is open already and the parameters
before them are bound there. So an argument has its value in the caller's scopes
as long as it looks up no name that the scope of the call has: no parameter bound
before it, and no symbol that the first pass has left in the scope of the same
call. Its own parameter is no obstacle, since the second pass takes its old value
away first. In the first pass a scope that is opened has no names, so there only
the parameters before matter.

Key definitions: `LineM.readArgument`, `LineM.ReadsArguments`, `LineM.IsBeside`.
Key theorems: `LineM.carries_callee`, `LineM.wp_bindEach_beside`,
`LineM.macroCall_eq`, `LineM.macroCall_binds_arguments`.
-/
import Asm6502.Proofs.Expr.Agreement
import Asm6502.Proofs.Scope.Hygiene

namespace Asm6502

/-! ### Names of a scope that is new -/

theorem baseName_fullName {name : String} (hname : IsPlain name) (frames : List Frame) :
    baseName (fullName name frames) = name := by
  have hbefore : ∀ x ∈ name.toList, (x != '@') = true := by
    intro x hx
    by_contra hat
    apply hname
    have : x = '@' := by simpa using hat
    rwa [← this]
  unfold baseName
  cases frames with
  | nil =>
    rw [fullName, suffix, String.append_empty, List.takeWhile_eq_self_iff.mpr hbefore, String.ofList_toList]
  | cons f frames =>
    rw [toList_fullName_cons, List.takeWhile_append_of_pos hbefore]
    simp

/-- A name is seen alike where the scopes have the same names. -/
theorem visibleName?_congr {t u : SymbolTable} {name : String} : ∀ {frames : List Frame},
    (∀ outer, outer <:+ frames → t.contains (fullName name outer) = u.contains (fullName name outer)) →
      visibleName? t name frames = visibleName? u name frames
  | [], h => by
    have hnil := h [] List.nil_suffix
    rw [fullName, suffix, String.append_empty] at hnil
    rw [visibleName?, visibleName?, hnil]
  | f :: frames, h => by
    rw [visibleName?, visibleName?, h _ (List.suffix_refl _),
      visibleName?_congr fun outer houter => h outer (houter.trans (List.suffix_cons f frames))]

namespace LineM

/-! ### Arguments in the scopes of the caller -/

/-- Moves to the next argument of a call, past a comma if it is not the first. -/
def toArgument (first : Bool) : LineM Unit := do
  if ← atEnd then fail .parameterCount (← column)
  if !first then expectComma

/-- Reads the next argument of a call in the scopes at hand. -/
def readArgument (first : Bool) : LineM Expr.Evaluated := do
  toArgument first
  evaluate

/-- What an argument comes to, and the names that it looks up. -/
structure Reading where
  value : Value
  names : List String

/-- The name that a note is about, if it says what was found. -/
def lookedUp? : Note → Option String
  | .found _ full _ => some (baseName full)
  | _ => none

/-- The arguments at the cursor, read one after the other in the scopes at hand.
All of them are known. -/
inductive ReadsArguments (env : Setting) : Bool → LineState → List Reading → LineState → Prop
  | nil {first : Bool} (s : LineState) : ReadsArguments env first s [] s
  | cons {first : Bool} {s t u : LineState} {e : Expr.Evaluated} {notes : List Note} {readings : List Reading}
      (hread : readArgument first env s = .ok e t) (hknown : e.known = true)
      (hnotes : t.run.history = notes ++ s.run.history) (hrest : ReadsArguments env false t readings u) :
      ReadsArguments env first s (⟨e.value, notes.filterMap lookedUp?⟩ :: readings) u

theorem toArgument_eq (first : Bool) (env : Setting) (s : LineState) :
    toArgument first env s =
      if s.cursor.skipBlanks.atStatementEnd = true then
        .error (.problem ⟨.parameterCount, s.cursor.skipBlanks.column⟩) { s with cursor := s.cursor.skipBlanks }
      else if first = true then .ok () { s with cursor := s.cursor.skipBlanks }
      else expectComma env { s with cursor := s.cursor.skipBlanks } := by
  change (if s.cursor.skipBlanks.atStatementEnd = true then _ else _ : LineM Unit) env _ = _
  by_cases hend : s.cursor.skipBlanks.atStatementEnd = true
  · rw [if_pos hend, if_pos hend]
    rfl
  · rw [if_neg hend, if_neg hend]
    cases first <;> rfl

theorem expectComma_eq (env : Setting) (s : LineState) :
    expectComma env s =
      if (s.cursor.skipBlanks.peek == some ',') = true then
        .ok () { s with cursor := s.cursor.skipBlanks.skip 1 }
      else .error (.problem ⟨.missingComma, s.cursor.skipBlanks.column⟩)
        { s with cursor := s.cursor.skipBlanks } := by
  change (if (s.cursor.skipBlanks.peek == some ',') = true then _ else _ : LineM Unit) env _ = _
  split_ifs <;> rfl

/-- An argument that is read is not at the end of the statement, and its place
depends on the text alone. -/
theorem eq_of_toArgument {first : Bool} {env : Setting} {s t : LineState}
    (h : toArgument first env s = .ok () t) :
    ∃ cursor, t = { s with cursor } ∧ s.cursor.skipBlanks.atStatementEnd = false ∧
      if first = true then cursor = s.cursor.skipBlanks
      else (s.cursor.skipBlanks.skipBlanks.peek == some ',') = true ∧
        cursor = s.cursor.skipBlanks.skipBlanks.skip 1 := by
  rw [toArgument_eq, expectComma_eq] at h
  split_ifs at h with hend hfirst hcomma
  · cases h
    exact ⟨_, rfl, by simpa using hend, by rw [if_pos hfirst]⟩
  · cases h
    refine ⟨_, rfl, by simpa using hend, ?_⟩
    rw [if_neg hfirst]
    exact ⟨hcomma, rfl⟩

/-! ### Arguments in the scope of the call -/

/-- The full names of the caller are none of the scope of the call. -/
theorem fullName_ne_of_suffix {name other : String} (hname : IsPlain name) (hother : IsPlain other)
    {f : Frame} {frames outer : List Frame} (houter : outer <:+ frames) :
    fullName name outer ≠ fullName other (f :: frames) := by
  intro heq
  obtain ⟨-, hstamps⟩ := (fullName_inj hname hother).mp heq
  have hlength := congrArg List.length hstamps
  have := houter.length_le
  simp only [List.length_map, List.length_cons] at hlength
  omega

/-- What was found in the scopes of the caller is to be seen in the scope of the
call, if that one has none of the names. -/
theorem carries_callee {ctx ctx' : Expr.Context} {symbols symbols' : SymbolTable} {f : Frame} {n : Note}
    (hframes : ctx'.frames = f :: ctx.frames)
    (hsame : ∀ name outer, IsPlain name → outer <:+ ctx.frames →
      (symbols'.get? (fullName name outer)).map Symbol.bare = (symbols.get? (fullName name outer)).map Symbol.bare)
    (habsent : ∀ name, lookedUp? n = some name → symbols'.contains (fullName name ctx'.frames) = false) :
    Expr.Carries ctx symbols ctx' symbols' n := by
  rintro pass name full value rfl hname hvisible hvalue
  obtain ⟨outer, houter, rfl, -⟩ := Moment.nearest_of_visibleName? hvisible
  have hnone : symbols'.contains (fullName name (f :: ctx.frames)) = false := by
    rw [← hframes]
    exact habsent name (by rw [lookedUp?, baseName_fullName hname])
  refine ⟨fullName name outer, ?_, ?_⟩
  · rw [hframes, visibleName?, hnone, if_neg Bool.false_ne_true, ← hvisible]
    exact visibleName?_congr fun outer houter => SymbolTable.contains_of_bare (hsame name outer hname houter)
  · rw [← hvalue]
    exact SymbolTable.value?_of_bare (hsame name outer hname houter)

theorem fullName_right_inj {name other : String} {frames : List Frame} :
    fullName name frames = fullName other frames ↔ name = other := by
  unfold fullName
  exact String.append_left_inj _

/-! ### The symbols of a call -/

/-- The symbols while a call binds its parameters: some have their values, and
everything else is as it was before the call. -/
structure HasBound (frames : List Frame) (before : SymbolTable) (bound : List (String × Value))
    (now : SymbolTable) : Prop where
  others : ∀ full, (∀ b ∈ bound, full ≠ fullName b.1 frames) →
    (now.get? full).map Symbol.bare = (before.get? full).map Symbol.bare
  values : ∀ b ∈ bound, now.value? (fullName b.1 frames) = some b.2

/-- The symbols when the next parameter is to be bound and has no value. -/
structure HasFree (frames : List Frame) (before : SymbolTable) (bound : List (String × Value))
    (parameter : String) (now : SymbolTable) : Prop where
  others : ∀ full, full ≠ fullName parameter frames → (∀ b ∈ bound, full ≠ fullName b.1 frames) →
    (now.get? full).map Symbol.bare = (before.get? full).map Symbol.bare
  values : ∀ b ∈ bound, now.value? (fullName b.1 frames) = some b.2
  free : now.get? (fullName parameter frames) = none

/-- The symbols without the value that the parameter had in the first pass. -/
def released (pass : Pass) (full : String) (symbols : SymbolTable) : SymbolTable :=
  if (pass == .second) = true then symbols.erase full else symbols

section
variable {frames : List Frame} {before now after : SymbolTable} {bound : List (String × Value)}
  {parameter : String} {pass : Pass}

theorem fullName_ne_of_not_mem {name : String} (hname : name ∉ bound.map Prod.fst) (b : String × Value)
    (hb : b ∈ bound) : fullName name frames ≠ fullName b.1 frames := by
  intro heq
  rw [fullName_right_inj.mp heq] at hname
  exact hname (List.mem_map_of_mem hb)

theorem HasBound.release (h : HasBound frames before bound now) (hnew : parameter ∉ bound.map Prod.fst)
    (hfresh : pass ≠ .second → before.contains (fullName parameter frames) = false) :
    HasFree frames before bound parameter (released pass (fullName parameter frames) now) := by
  have hunbound (b : String × Value) (hb : b ∈ bound) : fullName parameter frames ≠ fullName b.1 frames :=
    fullName_ne_of_not_mem hnew b hb
  by_cases hsecond : (pass == .second) = true
  · rw [released, if_pos hsecond]
    refine ⟨fun full hfull hbound => ?_, fun b hb => ?_, ?_⟩
    · rw [SymbolTable.get?_erase, if_neg (Ne.symm hfull)]
      exact h.others full hbound
    · rw [SymbolTable.value?, SymbolTable.get?_erase, if_neg (hunbound b hb)]
      exact h.values b hb
    · rw [SymbolTable.get?_erase, if_pos rfl]
  · rw [released, if_neg hsecond]
    refine ⟨fun full _ => h.others full, h.values, ?_⟩
    have hcontains := SymbolTable.contains_of_bare (h.others _ hunbound)
    rw [hfresh (by simpa using hsecond), SymbolTable.contains_eq_isSome] at hcontains
    simpa using hcontains

theorem HasFree.alike (h : HasFree frames before bound parameter now) (halike : now.Alike after) :
    HasFree frames before bound parameter after := by
  refine ⟨fun full hfull hbound => ?_, fun b hb => ?_, ?_⟩
  · rw [← halike]
    exact h.others full hfull hbound
  · rw [← halike.value?_eq]
    exact h.values b hb
  · have hfree := halike (fullName parameter frames)
    rw [h.free] at hfree
    simpa using hfree.symm

theorem HasFree.add (h : HasFree frames before bound parameter now) (hnew : parameter ∉ bound.map Prod.fst)
    (value : Value) : HasBound frames before (bound ++ [(parameter, value)])
      (now.add (fullName parameter frames) value false none) := by
  refine ⟨fun full hbound => ?_, fun b hb => ?_⟩
  · have hfull : full ≠ fullName parameter frames := hbound (parameter, value) (by simp)
    rw [SymbolTable.get?_add, if_neg (Ne.symm hfull)]
    exact h.others full hfull fun b hb => hbound b (List.mem_append_left _ hb)
  · rw [SymbolTable.value?, SymbolTable.get?_add]
    rcases List.mem_append.mp hb with hb | hb
    · rw [if_neg (fullName_ne_of_not_mem hnew b hb)]
      exact h.values b hb
    · rw [List.mem_singleton.mp hb, if_pos rfl, h.free]
      rfl

/-- A name of the scope that is no parameter bound so far is not there, unless it
was there before the call and is not the parameter at hand. -/
theorem HasFree.contains_eq_false (h : HasFree frames before bound parameter now) {name : String}
    (hname : name ∉ bound.map Prod.fst) (hstale : before.contains (fullName name frames) = true → name = parameter) :
    now.contains (fullName name frames) = false := by
  by_cases heq : name = parameter
  · rw [heq, SymbolTable.contains_eq_isSome, h.free]
    rfl
  · have hsame := h.others _ (fun hfull => heq (fullName_right_inj.mp hfull)) (fullName_ne_of_not_mem hname)
    rw [SymbolTable.contains_of_bare hsame]
    by_contra hcontains
    exact heq (hstale (by simpa using hcontains))

end

/-! ### Binding the parameters -/

/-- A call whose first parameters are bound, beside the caller who reads the same
arguments. `before` are the symbols before the call. -/
structure IsBeside (w : Walk) (outer : List Frame) (before : SymbolTable) (bound : List (String × Value))
    (caller callee : LineState) : Prop where
  cursor : callee.cursor = caller.cursor
  walk : callee.walk = w
  frames : caller.walk.frames = outer
  pass : callee.run.pass = caller.run.pass
  code : callee.run.code = caller.run.code
  clock : callee.run.clock = caller.run.clock
  random : callee.run.random = caller.run.random
  alike : before.Alike caller.run.symbols
  hasBound : HasBound w.frames before bound callee.run.symbols

section
variable {env : Setting} {w : Walk} {f : Frame} {outer : List Frame} {before : SymbolTable}
  {bound : List (String × Value)} {s t u : LineState} {parameter : String}

theorem IsBeside.moveCursor (h : IsBeside w outer before bound s u) (cursor : Cursor) :
    IsBeside w outer before bound { s with cursor } { u with cursor } :=
  ⟨rfl, h.walk, h.frames, h.pass, h.code, h.clock, h.random, h.alike, h.hasBound⟩

/-- An argument is evaluated in the scope of the call to what it is in the scopes
of the caller. -/
theorem IsBeside.evaluate (hw : w.frames = f :: outer) (h : IsBeside w outer before bound s u)
    (hparameter : IsPlain parameter) (hbound : ∀ b ∈ bound, IsPlain b.1) {now : SymbolTable}
    (hfree : HasFree w.frames before bound parameter now) {e : Expr.Evaluated}
    (hread : evaluate env s = .ok e t) (hknown : e.known = true) {notes : List Note}
    (hnotes : t.run.history = notes ++ s.run.history)
    (hapart : ∀ name ∈ notes.filterMap lookedUp?, name ∉ bound.map Prod.fst ∧
      (before.contains (fullName name w.frames) = true → name = parameter)) :
    ∃ v, LineM.evaluate env { u with run := { u.run with symbols := now } } = .ok e v ∧
      v.cursor = t.cursor ∧ v.walk = w ∧ t.walk.frames = outer ∧ t.run.pass = s.run.pass ∧ v.run.pass = t.run.pass ∧
      v.run.code = t.run.code ∧ v.run.clock = t.run.clock ∧ v.run.random = t.run.random ∧
      before.Alike t.run.symbols ∧ now.Alike v.run.symbols := by
  generalize hcallee : ({ u with run := { u.run with symbols := now } } : LineState) = callee
  have hcursor : callee.cursor = s.cursor := by rw [← hcallee, ← h.cursor]
  have hwalk : callee.walk = w := by rw [← hcallee, ← h.walk]
  have hpc : (context env callee).pc = (context env s).pc := by
    rw [← hcallee]
    exact congrArg ObjectCode.pc h.code
  have hclock : (context env callee).clock = (context env s).clock := by
    rw [← hcallee]
    exact h.clock
  have hframes : (context env callee).frames = f :: (context env s).frames := by
    rw [context, context, hwalk, hw, h.frames]
  have houter (name : String) (outer' : List Frame) (hname : IsPlain name)
      (houter' : outer' <:+ (context env s).frames) :
      (callee.run.symbols.get? (fullName name outer')).map Symbol.bare =
        (s.run.symbols.get? (fullName name outer')).map Symbol.bare := by
    have houter' : outer' <:+ outer := by rwa [← h.frames]
    rw [← hcallee, ← h.alike]
    refine hfree.others _ ?_ fun b hb => ?_
    · rw [hw]
      exact fullName_ne_of_suffix hname hparameter houter'
    · rw [hw]
      exact fullName_ne_of_suffix hname (hbound b hb) houter'
  unfold LineM.evaluate at hread ⊢
  dsimp only at hread ⊢
  split at hread
  · rename_i e' after hrun
    cases hread
    have hdrawn : (⟨callee.run.symbols, callee.run.random, callee.run.history⟩ : Expr.State).random =
        s.run.random := by
      rw [← hcallee]
      exact h.random
    obtain ⟨found, hfound, hagrees⟩ := Expr.evaluate_agrees hpc hclock hrun hknown hdrawn
    obtain rfl : found = notes := List.append_cancel_right (hfound.symm.trans hnotes)
    obtain ⟨after', hrun', hrandom, halike⟩ := hagrees fun n hn => by
      refine carries_callee hframes houter fun name hname => ?_
      obtain ⟨hearlier, hstale⟩ := hapart name (List.mem_filterMap.mpr ⟨n, hn, hname⟩)
      rw [context, hwalk, ← hcallee]
      exact hfree.contains_eq_false hearlier hstale
    rw [hcursor, hrun']
    refine ⟨_, rfl, rfl, hwalk, h.frames, rfl, ?_, ?_, ?_, hrandom, ?_, ?_⟩
    · rw [← hcallee]
      exact h.pass
    · rw [← hcallee]
      exact h.code
    · rw [← hcallee]
      exact h.clock
    · exact h.alike.trans (Expr.evaluate_follows hrun).symbols
    · rw [← hcallee] at halike
      exact halike
  · cases hread

/-- Whether the arguments look up no names of the scope of the call, except that
one may look up its own parameter in the second pass. -/
def IsApart (symbols : SymbolTable) (frames : List Frame) (pass : Pass) (earlier parameters : List String)
    (readings : List Reading) : Prop :=
  ∀ i parameter reading, parameters[i]? = some parameter → readings[i]? = some reading →
    ∀ name ∈ reading.names, name ∉ earlier ++ parameters.take i ∧
      (symbols.contains (fullName name frames) = true → pass = .second ∧ name = parameter)

theorem IsApart.tail {frames : List Frame} {pass : Pass} {earlier parameters : List String} {reading : Reading}
    {readings : List Reading}
    (h : IsApart before frames pass earlier (parameter :: parameters) (reading :: readings)) :
    IsApart before frames pass (earlier ++ [parameter]) parameters readings := by
  intro i other reading hother hreading name hname
  obtain ⟨hearlier, hstale⟩ := h (i + 1) other reading hother hreading name hname
  refine ⟨?_, hstale⟩
  rw [List.append_assoc, List.singleton_append]
  exact hearlier

/-- One parameter gets the value of its argument. -/
theorem wp_bindOne (rest : LineM Unit) {Q : Unit → LineState → Prop} {E : Stop → LineState → Prop}
    (hw : w.frames = f :: outer) (h : IsBeside w outer before bound s u) (hparameter : IsPlain parameter)
    (hbound : ∀ b ∈ bound, IsPlain b.1) (hnew : parameter ∉ bound.map Prod.fst)
    (hfresh : s.run.pass ≠ .second → before.contains (fullName parameter w.frames) = false)
    {e : Expr.Evaluated} (hread : evaluate env s = .ok e t) (hknown : e.known = true) {notes : List Note}
    (hnotes : t.run.history = notes ++ s.run.history)
    (hapart : ∀ name ∈ notes.filterMap lookedUp?, name ∉ bound.map Prod.fst ∧
      (before.contains (fullName name w.frames) = true → name = parameter))
    (hrest : ∀ v, t.run.pass = s.run.pass → IsBeside w outer before (bound ++ [(parameter, e.value)]) t v →
      wp rest env v Q E) :
    wp (do
      let full := fullName parameter (← getWalk).frames
      if ← isSecondPass then modifySymbols (·.erase full)
      let e ← evaluate
      pushPart e.node
      if e.known then modifySymbols (·.add full e.value false none)
      rest) env u Q E := by
  have hfree := h.hasBound.release hnew hfresh
  obtain ⟨v, hrun, hcursor, hwalk, hframes, hsame, hpass, hcode, hclock, hrandom, halike, hnow⟩ :=
    h.evaluate hw hparameter hbound hfree hread hknown hnotes hapart
  have hbind : wp (do
      let e ← evaluate
      pushPart e.node
      if e.known then modifySymbols (·.add (fullName parameter w.frames) e.value false none)
      rest) env { u with run := { u.run with
        symbols := released s.run.pass (fullName parameter w.frames) u.run.symbols } } Q E := by
    rw [wp_bind, wp, hrun]
    dsimp only
    rw [wp_bind, wp_pushPart, if_pos hknown, wp_bind, wp_modifySymbols]
    refine hrest _ hsame ⟨hcursor, hwalk, hframes, hpass, hcode, hclock, hrandom, halike, ?_⟩
    exact (hfree.alike hnow).add hnew e.value
  rw [wp_bind, wp_getWalk, wp_bind, wp_isSecondPass, h.walk, h.pass]
  by_cases hsecond : (s.run.pass == .second) = true
  · rw [released, if_pos hsecond] at hbind
    rw [if_pos hsecond]
    exact hbind
  · rw [released, if_neg hsecond] at hbind
    rw [if_neg hsecond]
    exact hbind

/-- One parameter after the other gets the value of its argument. -/
theorem wp_bindEach_beside (hw : w.frames = f :: outer) :
    ∀ (parameters : List String) (first : Bool) (bound : List (String × Value)) (s u : LineState)
      (readings : List Reading), ReadsArguments env first s readings t →
      readings.length = parameters.length → IsBeside w outer before bound s u →
      (∀ name ∈ bound.map Prod.fst ++ parameters, IsPlain name) → (bound.map Prod.fst ++ parameters).Nodup →
      (s.run.pass ≠ .second → ∀ name ∈ parameters, before.contains (fullName name w.frames) = false) →
      IsApart before w.frames s.run.pass (bound.map Prod.fst) parameters readings →
      wp (bindEach first parameters) env u
        (fun _ v => IsBeside w outer before (bound ++ parameters.zip (readings.map Reading.value)) t v)
        fun _ _ => False
  | [], _, bound, s, u, readings, hreads, hlength, h, _, _, _, _ => by
    obtain rfl := List.length_eq_zero_iff.mp hlength
    cases hreads
    rw [List.zip_nil_left, List.append_nil]
    exact h
  | parameter :: parameters, first, bound, s, u, readings, hreads, hlength, h, hplain, hnodup, hfresh, hapart => by
    cases hreads with
    | nil => cases hlength
    | @cons _ _ t₁ _ e notes readings hread hknown hnotes hrest =>
      obtain ⟨s₁, hto, heval⟩ : ∃ s₁, toArgument first env s = .ok () s₁ ∧ evaluate env s₁ = .ok e t₁ := by
        simp only [readArgument, bind, ReaderT.bind, EStateM.bind] at hread
        split at hread
        · rename_i s₁ hto
          exact ⟨s₁, hto, hread⟩
        · cases hread
      obtain ⟨cursor, rfl, hend, hcursor⟩ := eq_of_toArgument hto
      have hnew : parameter ∉ bound.map Prod.fst := fun hmem =>
        (List.nodup_append.mp hnodup).2.2 _ hmem _ List.mem_cons_self rfl
      -- the argument itself, and those after it
      have hargument := wp_bindOne (t := t₁) (E := fun _ _ => False)
        (Q := fun _ v => IsBeside w outer before
          (bound ++ (parameter :: parameters).zip ((⟨e.value, notes.filterMap lookedUp?⟩ :: readings).map
            Reading.value)) t v)
        (bindEach false parameters) hw (h.moveCursor cursor) (hplain parameter (by simp))
        (fun b hb => hplain b.1 (List.mem_append_left _ (List.mem_map_of_mem hb))) hnew
        (fun hfirst => hfresh hfirst parameter List.mem_cons_self) heval hknown hnotes
        (fun name hname => by
          obtain ⟨hearlier, hstale⟩ := hapart 0 parameter _ rfl rfl name hname
          exact ⟨by simpa using hearlier, fun hcontains => (hstale hcontains).2⟩)
        fun v hpass hv => by
          have hlater := wp_bindEach_beside hw parameters false (bound ++ [(parameter, e.value)]) t₁ v readings
            hrest (Nat.succ.inj hlength) hv (by simpa using hplain) (by simpa using hnodup)
            (fun hfirst name hname => hfresh (by rwa [← hpass]) name (List.mem_cons_of_mem _ hname))
            (by rw [hpass]; simpa using hapart.tail)
          simpa using hlater
      unfold bindEach
      rw [wp_bind, wp_atEnd, h.cursor, hend, if_neg Bool.false_ne_true]
      by_cases hfirst : first = true
      · rw [if_pos hfirst] at hcursor
        rw [hfirst, ← hcursor]
        exact hargument
      · rw [if_neg hfirst] at hcursor
        rw [if_pos (by simpa using hfirst), wp_bind, wp, expectComma_eq, if_pos hcursor.1, ← hcursor.2]
        exact hargument

theorem wp_bindArguments_beside (hw : w.frames = f :: outer) {parameters : List String} {readings : List Reading}
    (hreads : ReadsArguments env true s readings t) (hlength : readings.length = parameters.length)
    (hend : t.cursor.skipBlanks.atStatementEnd = true) (h : IsBeside w outer before [] s u)
    (hplain : ∀ name ∈ parameters, IsPlain name) (hnodup : parameters.Nodup)
    (hfresh : s.run.pass ≠ .second → ∀ name ∈ parameters, before.contains (fullName name w.frames) = false)
    (hapart : IsApart before w.frames s.run.pass [] parameters readings) :
    wp (bindArguments parameters) env u
      (fun _ v => v.walk = w ∧ v.run.random = t.run.random ∧
        HasBound w.frames before (parameters.zip (readings.map Reading.value)) v.run.symbols)
      fun _ _ => False := by
  unfold bindArguments
  rw [wp_bind]
  refine wp_imp (wp_bindEach_beside hw parameters true [] s u readings hreads hlength h hplain hnodup
    hfresh hapart) fun _ v hv => ?_
  rw [wp_bind, wp_atEnd, hv.cursor, hend, if_neg (by decide)]
  exact ⟨hv.walk, hv.random, hv.hasBound⟩

/-- What is left of a call when its scope is open: the parameters are bound, the
lines run, and the scope closed. -/
theorem macroCall_eq (env : Setting) (m : Macro) (start : Nat) (hroom : s.walk.frames.length < maxScopes) : ∃ macros,
    macroCall m start env s = andThen (do bindArguments m.parameters; expand m start)
      (fun s => { s with
        walk := s.walk.closeExpansion
        nodes := s.nodes.push (.mk .macroCall m.name start s.parts.toList) }) env
      { s with
        walk := { s.walk with
          own := ⟨.expansion, s.run.lastScope + 1, 0, ⟨env.index, start⟩⟩ :: s.walk.own }
        run := { s.run with lastScope := s.run.lastScope + 1, macros } } := by
  have hopened (r : Run) {last : LineM Unit} :
      (do
        let spot ← spot start
        changeWalk start fun w r => w.openScope r .expansion spot
        last : LineM Unit) env { s with run := r } = last env
        { s with
          walk := { s.walk with own := ⟨.expansion, r.lastScope + 1, 0, ⟨env.index, start⟩⟩ :: s.walk.own }
          run := { r with lastScope := r.lastScope + 1 } } := by
    have hopen : s.walk.openScope r .expansion ⟨env.index, start⟩ = .ok
        ({ s.walk with own := ⟨.expansion, r.lastScope + 1, 0, ⟨env.index, start⟩⟩ :: s.walk.own },
          { r with lastScope := r.lastScope + 1 }) := by
      rw [Walk.openScope, if_neg (by omega)]
    rw [bind_of_ok (x := spot start) rfl, bind_of_ok (changeWalk_of_ok hopen)]
  unfold macroCall
  rw [bind_of_ok (x := isSecondPass) rfl]
  by_cases hsecond : (s.run.pass == .second) = true
  · refine ⟨s.run.macros.addReference m.name (s.walk.buffer.position env.index start), ?_⟩
    rw [if_pos hsecond, bind_of_ok (x := position start) rfl, bind_of_ok (x := modifyRun _) rfl]
    exact hopened _
  · refine ⟨s.run.macros, ?_⟩
    rw [if_neg hsecond]
    exact hopened _

end

/-! ### Macro calls -/

/-- Macro arguments are read in the scopes of the caller. Let a macro with distinct
parameters be called in any scopes where there is room for one more, with as many
arguments, which can all be read in these scopes and are known. In the first pass,
let the pass have begun with plain names.

If no argument looks up a parameter before its own, nor a name that the scope of
the call already has (in the second pass its own parameter may be one), then the
lines of the macro are run with every parameter bound to what its argument is in
the scopes of the caller. Random numbers are drawn as the caller would draw
them. -/
theorem macroCall_binds_arguments {env : Setting} {m : Macro} {start : Nat} {s t : LineState} {f : Frame}
    {readings : List Reading} (hf : f = ⟨.expansion, s.run.lastScope + 1, 0, ⟨env.index, start⟩⟩)
    (hroom : s.walk.frames.length < maxScopes) (hplain : m.HasPlainParameters) (hnodup : m.parameters.Nodup)
    (hreads : ReadsArguments env true s readings t) (hlength : readings.length = m.parameters.length)
    (hend : t.cursor.skipBlanks.atStatementEnd = true)
    (hbegan : s.run.pass ≠ .second → ∃ r : Run, r.symbols.HasPlainNames ∧
      (∀ name definition, r.macros.get? name = some definition → definition.HasPlainParameters) ∧
      Moment.Reaches ⟨[], r⟩ ⟨s.walk.frames, s.run⟩)
    (hapart : IsApart s.run.symbols (f :: s.walk.frames) s.run.pass [] m.parameters readings) :
    ∃ u, macroCall m start env s = andThen (expand m start)
        (fun s => { s with
          walk := s.walk.closeExpansion
          nodes := s.nodes.push (.mk .macroCall m.name start s.parts.toList) }) env u ∧
      u.walk.frames = f :: s.walk.frames ∧ u.run.random = t.run.random ∧
      ∀ (i : Nat) (parameter : String) (reading : Reading), m.parameters[i]? = some parameter →
        readings[i]? = some reading → u.run.symbols.value? (fullName parameter u.walk.frames) = some reading.value := by
  obtain ⟨macros, hcall⟩ := macroCall_eq env m start hroom
  generalize hw : ({ s.walk with own := ⟨.expansion, s.run.lastScope + 1, 0, ⟨env.index, start⟩⟩ :: s.walk.own } :
    Walk) = w at hcall
  have hframes : w.frames = f :: s.walk.frames := by
    rw [← hw, hf]
    rfl
  have hfresh (hfirst : s.run.pass ≠ .second) (name : String) (hname : name ∈ m.parameters) :
      s.run.symbols.contains (fullName name w.frames) = false := by
    obtain ⟨r, hnames, hmacros, hreaches⟩ := hbegan hfirst
    rw [hframes]
    have hformed : (⟨[], r⟩ : Moment).IsFormed :=
      ⟨.nil, fun _ hf => absurd hf List.not_mem_nil, fun _ hf => absurd hf List.not_mem_nil, hmacros⟩
    exact Moment.not_contains_entered hformed hnames hreaches (.opened .expansion ⟨env.index, start⟩ nofun)
      (by rw [hf]) (hplain name hname)
  have hbeside : IsBeside w s.walk.frames s.run.symbols [] s
      { s with walk := w, run := { s.run with lastScope := s.run.lastScope + 1, macros } } :=
    ⟨rfl, rfl, rfl, rfl, rfl, rfl, rfl, .refl _, fun _ _ => rfl, fun _ hb => absurd hb List.not_mem_nil⟩
  have hbinds := wp_bindArguments_beside hframes hreads hlength hend hbeside hplain hnodup hfresh
    (by rwa [hframes])
  unfold wp at hbinds
  split at hbinds
  · rename_i u hrun
    obtain ⟨hwalk, hrandom, hbound⟩ := hbinds
    refine ⟨u, ?_, by rw [hwalk, hframes], hrandom, fun i parameter reading hparameter hreading => ?_⟩
    · rw [hcall]
      unfold andThen
      rw [bind_of_ok hrun]
    · rw [hwalk]
      refine hbound.values (parameter, reading.value) (List.mem_of_getElem? (i := i) ?_)
      simp [List.getElem?_zip_eq_some, hparameter, hreading]
  · exact hbinds.elim

/-- A line on which a macro is called, after the name of the macro. -/
def callSample : LineState :=
  ⟨.ofText " 1,a", #[], #[], .start (.ofText 0 "M 1,a" 0 none) [], .start ⟨[("a", 5)], 0, none⟩ 0 .never 0⟩

theorem macroCall_binds_own_name :
    ∃ u, macroCall ⟨"M", ["b", "a"], "", ⟨0, 0, 0⟩⟩ 0 (.ofLine (.ofFiles []) fullAllowance 3 0) callSample =
        andThen (expand ⟨"M", ["b", "a"], "", ⟨0, 0, 0⟩⟩ 0)
          (fun s => { s with
            walk := s.walk.closeExpansion
            nodes := s.nodes.push (.mk .macroCall "M" 0 s.parts.toList) })
          (.ofLine (.ofFiles []) fullAllowance 3 0) u ∧
      u.run.symbols.value? "b@1_0" = some (.num 1) ∧ u.run.symbols.value? "a@1_0" = some (.num 5) := by
  let env : Setting := .ofLine (.ofFiles []) fullAllowance 3 0
  have hcheck : (match readArgument true env callSample with
      | .ok e t => e.known && e.value == .num 1 && t.run.history == [] &&
        match readArgument false env t with
        | .ok e' t' => e'.known && e'.value == .num 5 && t'.run.history == [.found .first "a" (.num 5)] &&
          t'.cursor.skipBlanks.atStatementEnd
        | .error _ _ => false
      | .error _ _ => false) = true := by decide +kernel
  have hreads : ∃ t, ReadsArguments env true callSample [⟨.num 1, []⟩, ⟨.num 5, ["a"]⟩] t ∧
      t.cursor.skipBlanks.atStatementEnd = true := by
    split at hcheck
    · rename_i e t hread
      split at hcheck
      · rename_i e' t' hread'
        simp only [Bool.and_eq_true, beq_iff_eq] at hcheck
        obtain ⟨⟨⟨hknown, hvalue⟩, hhistory⟩, ⟨⟨hknown', hvalue'⟩, hhistory'⟩, hend⟩ := hcheck
        refine ⟨t', ?_, hend⟩
        rw [← hvalue, ← hvalue']
        have hnotes : t.run.history = [] ++ callSample.run.history := hhistory
        have hnotes' : t'.run.history = [.found .first "a" (.num 5)] ++ t.run.history := by
          rw [hhistory', hhistory]
          rfl
        exact ReadsArguments.cons hread hknown hnotes (.cons hread' hknown' hnotes' (.nil t'))
      · simp at hcheck
    · cases hcheck
  have hplain : callSample.run.symbols.HasPlainNames := hasPlainNames_initialSymbols (by simp [IsPlain])
  have hapart : IsApart callSample.run.symbols [⟨.expansion, 1, 0, ⟨0, 0⟩⟩] .first [] ["b", "a"]
      [⟨.num 1, []⟩, ⟨.num 5, ["a"]⟩] := by
    have hnone : callSample.run.symbols.contains (fullName "a" [⟨.expansion, 1, 0, ⟨0, 0⟩⟩]) = false := by
      decide +kernel
    intro i parameter reading hparameter hreading name hname
    rcases i with _ | _ | i
    · obtain rfl := Option.some.inj hreading
      cases hname
    · obtain rfl := Option.some.inj hreading
      obtain rfl := List.mem_singleton.mp hname
      refine ⟨by decide, fun hcontains => ?_⟩
      rw [hnone] at hcontains
      cases hcontains
    · simp at hparameter
  obtain ⟨t, hreads, hend⟩ := hreads
  have hframe : (⟨.expansion, 1, 0, ⟨0, 0⟩⟩ : Frame) =
      ⟨.expansion, callSample.run.lastScope + 1, 0, ⟨env.index, 0⟩⟩ := rfl
  obtain ⟨u, hcall, hframes, -, hvalues⟩ := macroCall_binds_arguments (m := ⟨"M", ["b", "a"], "", ⟨0, 0, 0⟩⟩) hframe
    (by decide)
    (by simp [Macro.HasPlainParameters, IsPlain]) (by decide) hreads rfl hend
    (fun _ => ⟨callSample.run, hplain, (fun _ _ h => by cases h), .refl⟩) hapart
  rw [hframes] at hvalues
  exact ⟨u, hcall, hvalues 0 _ _ rfl rfl, hvalues 1 _ _ rfl rfl⟩

/-- A call whose second argument names the first parameter. -/
def shadowSample : Library := .ofFiles [(⟨"main"⟩, "MACRO M a,b\nENDMACRO\nM 1,a\n".toUTF8)]

/-- An argument that names a parameter before its own does not have its value in
the scopes of the caller: `a` is 5 there, but the second parameter gets the value
of the first. -/
theorem macroCall_shadows_caller :
    (assembleWithin 6 shadowSample ⟨"main"⟩ ⟨[("a", 5)], 0, none⟩ 0 .never 0).result.toOption.map
      (fun a => (a.run.symbols.value? "a", a.run.symbols.value? "a@1_0", a.run.symbols.value? "b@1_0")) =
        some (some (.num 5), some (.num 1), some (.num 1)) := by decide +kernel

end LineM
end Asm6502
