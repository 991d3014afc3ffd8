/-
# What holds of labels throughout a run

The symbol table is shared by both passes and written by labels, assignments,
loops, macro calls and `CPU`. A label that the second pass places must keep its
value from the first lookup on, so what matters is who else can write its
entry.

An assignment writes an entry that was defined at its own place, and no
assignment stands at the place of a label. A loop and a macro call write names
in a scope that they have just opened or just counted on, so the second pass
has neither found nor placed anything there. `CPU` is no label.

`Run.IsSound` says this of a run in terms of its history, and the theorems below
say that each kind of change preserves it.

Key definitions: `Note.secondName?`, `IsUsed`, `Macro.IsFaithful`,
`Run.IsSound`, `Run.Follows`.
Key theorems: `Run.IsSound.follows`, `Run.IsSound.changeSymbol`,
`Run.IsSound.openScope`, `Run.IsSound.iterate`, `Run.IsSound.notePlaced`.
-/
import Asm6502.Proofs.Expr.Evaluation
import Asm6502.Proofs.Scope
import Asm6502.Proofs.Source
import Asm6502.Walk

namespace Asm6502

/-- The full name that a note of the second pass is about. -/
def Note.secondName? : Note → Option String
  | .found .second full _ => some full
  | .placed .second full _ => some full
  | _ => none

/-- Whether the innermost scope in a full name, if there is one, has been opened
and has not got beyond the count it has now, if it is open. -/
def IsUsed (frames : List Frame) (lastScope : Nat) (full : String) : Prop :=
  ∀ name f outer, IsPlain name → full = fullName name (f :: outer) →
    f.id ≤ lastScope ∧ ∀ g ∈ frames, g.id = f.id → f.count ≤ g.count

/-- A macro whose lines stand in a file after its header. -/
structure Macro.IsFaithful (library : Library) (files : Array Path) (m : Macro) : Prop where
  body : IsExcerpt library files m.definedAt.file (m.definedAt.line + 1) (Text.lines m.body)
  parameters : ∀ parameter ∈ m.parameters, IsPlain parameter

theorem Macro.IsFaithful.mono {library : Library} {files files' : Array Path} {m : Macro}
    (h : m.IsFaithful library files) (hgrow : FilesGrow files files') :
    m.IsFaithful library files' := ⟨h.body.mono hgrow, h.parameters⟩

namespace MacroTable

theorem get?_add (t : MacroTable) (m : Macro) (name : String) :
    (t.add m).get? name = if m.name = name then some m else t.get? name := by
  unfold add
  cases h : t.entries[m.name]? with
  | none =>
    simp only [get?, Std.TreeMap.getElem?_insert, Std.compare_eq_iff_eq]
    split_ifs <;> rfl
  | some entry =>
    simp only [get?, Std.TreeMap.getElem?_insert, Std.compare_eq_iff_eq]
    split_ifs <;> rfl

theorem get?_addReference (t : MacroTable) (name : String) (place : Position) (other : String) :
    (t.addReference name place).get? other = t.get? other := by
  unfold addReference
  cases h : t.entries[name]? with
  | none => rfl
  | some entry =>
    simp only
    split_ifs
    · rfl
    · simp only [get?, Std.TreeMap.getElem?_insert, Std.compare_eq_iff_eq]
      split_ifs with hname
      · rw [← hname, h]
        rfl
      · rfl

end MacroTable

/-- What holds of a run in a pass while scopes are open. -/
structure Run.IsSound (library : Library) (pass : Pass) (frames : List Frame) (r : Run) : Prop where
  pass_eq : r.pass = pass
  /-- Scopes are numbered in the order in which they are opened. -/
  ordered : frames.Pairwise fun f g => g.id < f.id
  opened : ∀ f ∈ frames, f.id ≤ r.lastScope
  processor : ∃ symbol, r.symbols.get? "CPU" = some symbol ∧ symbol.isLabel = false
  macros : ∀ name m, r.macros.get? name = some m → m.IsFaithful library r.files
  /-- Labels are defined behind a mark. -/
  places : ∀ full symbol, r.symbols.get? full = some symbol → symbol.isLabel = true →
    ∃ p, symbol.definedAt = some p ∧ IsPlace library r.files true p
  first : pass = .first → ∀ n ∈ r.history, n.secondName? = none
  used : ∀ n ∈ r.history, ∀ full, n.secondName? = some full → IsUsed frames r.lastScope full
  /-- What the second pass has found under a label is its value. -/
  found : ∀ full symbol value, r.symbols.get? full = some symbol → symbol.isLabel = true →
    .found .second full value ∈ r.history → value = symbol.value
  /-- A label that the second pass has placed has the value it was placed at. -/
  placed : ∀ full pc, .placed .second full pc ∈ r.history →
    ∃ symbol, r.symbols.get? full = some symbol ∧ symbol.isLabel = true ∧
      symbol.value.same (.ofNat pc) = true

/-- What a step that defines nothing may do to a run. -/
structure Run.Follows (frames : List Frame) (r r' : Run) : Prop where
  pass : r'.pass = r.pass
  lastScope : r'.lastScope = r.lastScope
  depth : r'.depth = r.depth
  files : r'.files = r.files
  macros : ∀ name, r'.macros.get? name = r.macros.get? name
  symbols : r.symbols.Alike r'.symbols
  history : ∃ notes, r'.history = notes ++ r.history ∧
    ∀ n ∈ notes, Expr.IsSighting r.pass frames r.symbols n

theorem Run.Follows.of_eq {frames : List Frame} {r r' : Run} (hpass : r'.pass = r.pass)
    (hscope : r'.lastScope = r.lastScope) (hfiles : r'.files = r.files) (hmacros : r'.macros = r.macros)
    (hsymbols : r'.symbols = r.symbols) (hhistory : r'.history = r.history)
    (hdepth : r'.depth = r.depth := by rfl) : r.Follows frames r' :=
  ⟨hpass, hscope, hdepth, hfiles, fun _ => by rw [hmacros], hsymbols ▸ .refl _, [], hhistory,
    fun _ h => by cases h⟩

theorem Run.Follows.refl (frames : List Frame) (r : Run) : r.Follows frames r :=
  .of_eq rfl rfl rfl rfl rfl rfl

theorem Run.Follows.trans {frames : List Frame} {r r' r'' : Run} (h : r.Follows frames r')
    (h' : r'.Follows frames r'') : r.Follows frames r'' := by
  obtain ⟨notes, hn, hs⟩ := h.history
  obtain ⟨notes', hn', hs'⟩ := h'.history
  refine ⟨h'.pass.trans h.pass, h'.lastScope.trans h.lastScope, h'.depth.trans h.depth,
    h'.files.trans h.files, fun name => (h'.macros name).trans (h.macros name), h.symbols.trans h'.symbols, notes' ++ notes,
    by rw [hn', hn, List.append_assoc], fun n hmem => ?_⟩
  rcases List.mem_append.mp hmem with hmem | hmem
  · have hn := hs' n hmem
    rw [h.pass] at hn
    exact hn.of_alike h.symbols
  · exact hs n hmem

section
variable {library : Library} {pass : Pass} {frames : List Frame} {r : Run}

/-! ### Names in open scopes -/

theorem eq_of_id_eq (hordered : frames.Pairwise fun f g => g.id < f.id) {f g : Frame} (hf : f ∈ frames)
    (hg : g ∈ frames) (hid : f.id = g.id) : f = g := by
  induction frames with
  | nil => cases hf
  | cons first frames ih =>
    obtain ⟨hlater, hordered⟩ := List.pairwise_cons.mp hordered
    rcases List.mem_cons.mp hf with rfl | hf'
    · rcases List.mem_cons.mp hg with rfl | hg'
      · rfl
      · exact absurd (hlater g hg') (by omega)
    · rcases List.mem_cons.mp hg with rfl | hg'
      · exact absurd (hlater f hf') (by omega)
      · exact ih hordered hf' hg'

/-- A name in open scopes is used as far as they have got. -/
theorem isUsed_fullName (hordered : frames.Pairwise fun f g => g.id < f.id) {lastScope : Nat}
    (hopened : ∀ f ∈ frames, f.id ≤ lastScope) {name : String} (hname : IsPlain name)
    {outer : List Frame} (houter : outer <:+ frames) :
    IsUsed frames lastScope (fullName name outer) := by
  intro name' f outer' hname' h
  cases outer with
  | nil =>
    refine absurd ?_ (not_isPlain_fullName_cons name' f outer')
    rw [← h]
    simpa [fullName, suffix] using hname
  | cons g outer =>
    obtain ⟨hid, hcount⟩ := fullName_scope hname hname' h
    have hg : g ∈ frames := houter.subset List.mem_cons_self
    refine ⟨hid ▸ hopened g hg, fun g' hg' hid' => ?_⟩
    rw [eq_of_id_eq hordered hg' hg (hid'.trans hid.symm), hcount]

namespace Run

/-! ### Steps that define nothing -/

theorem IsSound.follows {r' : Run} (h : r.IsSound library pass frames) (hf : r.Follows frames r') :
    r'.IsSound library pass frames := by
  obtain ⟨notes, hhistory, hnotes⟩ := hf.history
  have hsighting {n : Note} (hn : n ∈ notes) {full : String} (hfull : n.secondName? = some full) :
      pass = .second ∧ ∃ name value, n = .found .second full value ∧ IsPlain name ∧
        visibleName? r.symbols name frames = some full ∧ r.symbols.value? full = some value := by
    obtain ⟨name, full', value, rfl, hplain, hvisible, hvalue⟩ := hnotes n hn
    rw [h.pass_eq] at hfull ⊢
    cases pass with
    | first => cases hfull
    | later => cases hfull
    | second =>
      obtain rfl : full' = full := Option.some.inj hfull
      exact ⟨rfl, name, value, rfl, hplain, hvisible, hvalue⟩
  have hmem {n : Note} : n ∈ r'.history ↔ n ∈ notes ∨ n ∈ r.history := by
    rw [hhistory, List.mem_append]
  constructor
  case pass_eq => rw [hf.pass, h.pass_eq]
  case ordered => exact h.ordered
  case opened => rw [hf.lastScope]; exact h.opened
  case processor =>
    obtain ⟨symbol, hsymbol, hlabel⟩ := h.processor
    obtain ⟨other, hother, -, hlabel', -⟩ := hf.symbols.symm.exists_get? hsymbol
    exact ⟨other, hother, hlabel'.trans hlabel⟩
  case macros =>
    intro name m hm
    rw [hf.macros] at hm
    rw [hf.files]
    exact h.macros name m hm
  case places =>
    intro full symbol hsymbol hlabel
    obtain ⟨other, hother, -, hlabel', hplace⟩ := hf.symbols.exists_get? hsymbol
    rw [hf.files, ← hplace]
    exact h.places full other hother (hlabel'.trans hlabel)
  case first =>
    intro hfirst n hn
    rcases hmem.mp hn with hn | hn
    · cases hname : n.secondName? with
      | none => rfl
      | some full =>
        rw [hfirst] at hsighting
        cases (hsighting hn hname).1
    · exact h.first hfirst n hn
  case used =>
    intro n hn full hfull
    rw [hf.lastScope]
    rcases hmem.mp hn with hn | hn
    · obtain ⟨-, name, value, -, hplain, hvisible, -⟩ := hsighting hn hfull
      obtain ⟨outer, houter, rfl⟩ := exists_suffix_of_visibleName? hvisible
      exact isUsed_fullName h.ordered h.opened hplain houter
    · exact h.used n hn full hfull
  case found =>
    intro full symbol value hsymbol hlabel hn
    obtain ⟨other, hother, hvalue, hlabel', -⟩ := hf.symbols.exists_get? hsymbol
    rcases hmem.mp hn with hn | hn
    · obtain ⟨-, name, value', heq, -, -, hfound⟩ := hsighting hn rfl
      cases heq
      rw [SymbolTable.value?, hother] at hfound
      rw [← hvalue]
      exact (Option.some.inj hfound).symm
    · rw [← hvalue]
      exact h.found full other value hother (hlabel'.trans hlabel) hn
  case placed =>
    intro full pc hn
    rcases hmem.mp hn with hn | hn
    · obtain ⟨-, _, _, heq, -⟩ := hsighting hn rfl
      cases heq
    · obtain ⟨symbol, hsymbol, hlabel, hsame⟩ := h.placed full pc hn
      obtain ⟨other, hother, hvalue, hlabel', -⟩ := hf.symbols.symm.exists_get? hsymbol
      exact ⟨other, hother, hlabel'.trans hlabel, by rw [hvalue]; exact hsame⟩

/-! ### Scopes -/

/-- Nothing of the second pass is noted under a name in a scope with the number
and the count of `f`. -/
def Untouched (f : Frame) (r : Run) : Prop :=
  ∀ n ∈ r.history, ∀ name g outer, IsPlain name → n.secondName? = some (fullName name (g :: outer)) →
    ¬ (g.id = f.id ∧ g.count = f.count)

theorem Untouched.not_mem {f : Frame} (h : r.Untouched f) {n : Note} {name : String}
    (hname : IsPlain name) {outer : List Frame} (hn : n.secondName? = some (fullName name (f :: outer))) :
    n ∉ r.history := fun hmem => h n hmem name f outer hname hn ⟨rfl, rfl⟩

theorem IsSound.outward {outer : List Frame} (h : r.IsSound library pass frames) (houter : outer <:+ frames) :
    r.IsSound library pass outer where
  pass_eq := h.pass_eq
  ordered := h.ordered.sublist houter.sublist
  opened f hf := h.opened f (houter.subset hf)
  processor := h.processor
  macros := h.macros
  places := h.places
  first := h.first
  used n hn full hfull name f outer' hname heq := by
    obtain ⟨hid, hcount⟩ := h.used n hn full hfull name f outer' hname heq
    exact ⟨hid, fun g hg => hcount g (houter.subset hg)⟩
  found := h.found
  placed := h.placed

theorem IsSound.openScope (h : r.IsSound library pass frames) (kind : FrameKind) (spot : Spot) :
    ({ r with lastScope := r.lastScope + 1 } : Run).IsSound library pass
        (⟨kind, r.lastScope + 1, 0, spot⟩ :: frames) ∧
      r.Untouched ⟨kind, r.lastScope + 1, 0, spot⟩ := by
  refine ⟨⟨h.pass_eq, ?_, ?_, h.processor, h.macros, h.places, h.first, ?_, h.found, h.placed⟩, ?_⟩
  · refine List.pairwise_cons.mpr ⟨fun f hf => ?_, h.ordered⟩
    exact Nat.lt_succ_of_le (h.opened f hf)
  · intro f hf
    rcases List.mem_cons.mp hf with rfl | hf
    · exact Nat.le_refl _
    · exact Nat.le_succ_of_le (h.opened f hf)
  · intro n hn full hfull name f outer hname heq
    obtain ⟨hid, hcount⟩ := h.used n hn full hfull name f outer hname heq
    refine ⟨Nat.le_succ_of_le hid, fun g hg hgid => ?_⟩
    rcases List.mem_cons.mp hg with rfl | hg
    · simp only at hgid
      omega
    · exact hcount g hg hgid
  · rintro n hn name g outer hname hfull ⟨hid, -⟩
    obtain ⟨hle, -⟩ := h.used n hn _ hfull name g outer hname rfl
    simp only at hid
    omega

theorem IsSound.iterate {f : Frame} (h : r.IsSound library pass (f :: frames)) (kind : FrameKind) :
    r.IsSound library pass ({ f with kind, count := f.count + 1 } :: frames) ∧
      r.Untouched { f with kind, count := f.count + 1 } := by
  obtain ⟨hlater, hordered⟩ := List.pairwise_cons.mp h.ordered
  refine ⟨⟨h.pass_eq, ?_, ?_, h.processor, h.macros, h.places, h.first, ?_, h.found, h.placed⟩, ?_⟩
  · exact List.pairwise_cons.mpr ⟨hlater, hordered⟩
  · intro g hg
    rcases List.mem_cons.mp hg with rfl | hg
    · exact h.opened f List.mem_cons_self
    · exact h.opened g (List.mem_cons_of_mem _ hg)
  · intro n hn full hfull name g outer hname heq
    obtain ⟨hid, hcount⟩ := h.used n hn full hfull name g outer hname heq
    refine ⟨hid, fun g' hg' hgid => ?_⟩
    rcases List.mem_cons.mp hg' with rfl | hg'
    · exact Nat.le_succ_of_le (hcount f List.mem_cons_self hgid)
    · exact hcount g' (List.mem_cons_of_mem _ hg') hgid
  · rintro n hn name g outer hname hfull ⟨hid, hcount⟩
    obtain ⟨-, hle⟩ := h.used n hn _ hfull name g outer hname rfl
    have := hle f List.mem_cons_self hid.symm
    simp only at hcount
    omega

/-! ### Changes of one entry -/

/-- An entry may be changed if it is no label afterwards that anything noted
contradicts, and if no label that was placed is lost. -/
theorem IsSound.changeSymbol (h : r.IsSound library pass frames) (full : String)
    {symbols : SymbolTable}
    (hother : ∀ name, name ≠ full → symbols.get? name = r.symbols.get? name)
    (hprocessor : full = "CPU" → ∃ symbol, symbols.get? full = some symbol ∧ symbol.isLabel = false)
    (hlabel : ∀ symbol, symbols.get? full = some symbol → symbol.isLabel = true →
      (∃ p, symbol.definedAt = some p ∧ IsPlace library r.files true p) ∧
      ∀ value, .found .second full value ∈ r.history → value = symbol.value)
    (hplaced : ∀ pc, .placed .second full pc ∉ r.history) :
    ({ r with symbols } : Run).IsSound library pass frames where
  pass_eq := h.pass_eq
  ordered := h.ordered
  opened := h.opened
  processor := by
    by_cases hfull : full = "CPU"
    · exact hfull ▸ hprocessor hfull
    · obtain ⟨symbol, hsymbol⟩ := h.processor
      exact ⟨symbol, (hother _ (Ne.symm hfull)).trans hsymbol.1, hsymbol.2⟩
  macros := h.macros
  places name symbol hsymbol hsymbolLabel := by
    by_cases hname : name = full
    · subst hname
      exact (hlabel symbol hsymbol hsymbolLabel).1
    · exact h.places name symbol ((hother name hname).symm.trans hsymbol) hsymbolLabel
  first := h.first
  used := h.used
  found name symbol value hsymbol hsymbolLabel hn := by
    by_cases hname : name = full
    · subst hname
      exact (hlabel symbol hsymbol hsymbolLabel).2 value hn
    · exact h.found name symbol value ((hother name hname).symm.trans hsymbol) hsymbolLabel hn
  placed name pc hn := by
    have hname : name ≠ full := by
      rintro rfl
      exact hplaced pc hn
    obtain ⟨symbol, hsymbol, hrest⟩ := h.placed name pc hn
    exact ⟨symbol, (hother name hname).trans hsymbol, hrest⟩

/-- No label is placed under a name whose entry is none. -/
theorem IsSound.not_placed {full : String} (h : r.IsSound library pass frames)
    (hplain : ∀ symbol, r.symbols.get? full = some symbol → symbol.isLabel = false) (pc : Nat) :
    .placed .second full pc ∉ r.history := by
  intro hn
  obtain ⟨symbol, hsymbol, hlabel, -⟩ := h.placed full pc hn
  rw [hplain symbol hsymbol] at hlabel
  cases hlabel

theorem IsSound.add (h : r.IsSound library pass frames) (full : String) (value : Value)
    (definedAt : Option Position) :
    ({ r with symbols := r.symbols.add full value false definedAt } : Run).IsSound library pass frames := by
  unfold SymbolTable.add
  cases hadd : r.symbols.add? full value false definedAt with
  | none => exact h
  | some symbols =>
    have hget := SymbolTable.get?_add? hadd
    have hfull : symbols.get? full = some ⟨value, false, definedAt, []⟩ := by
      rw [(hget full).2, if_pos rfl]
    refine h.changeSymbol full (fun name hname => ?_) (fun _ => ⟨_, hfull, rfl⟩)
      (fun symbol hsymbol hlabel => ?_) (h.not_placed fun symbol hsymbol => ?_)
    · exact (hget name).2.trans (if_neg (Ne.symm hname))
    · cases hfull.symm.trans hsymbol
      cases hlabel
    · rw [(hget full).1] at hsymbol
      cases hsymbol

theorem IsSound.change {full : String} (h : r.IsSound library pass frames)
    (hplain : ∀ symbol, r.symbols.get? full = some symbol → symbol.isLabel = false) (value : Value) :
    ({ r with symbols := r.symbols.change full value } : Run).IsSound library pass frames := by
  have hfull := r.symbols.get?_change full value full
  rw [if_pos rfl] at hfull
  refine h.changeSymbol full (fun name hname => ?_) (fun hprocessor => ?_)
    (fun symbol hsymbol hlabel => ?_) (h.not_placed hplain)
  · rw [SymbolTable.get?_change, if_neg (Ne.symm hname)]
  · obtain ⟨symbol, hsymbol, hlabel⟩ := h.processor
    rw [← hprocessor] at hsymbol
    exact ⟨{ symbol with value }, by rw [hfull, hsymbol]; rfl, hlabel⟩
  · rw [hfull] at hsymbol
    obtain ⟨before, hbefore, rfl⟩ := Option.map_eq_some_iff.mp hsymbol
    rw [hplain before hbefore] at hlabel
    cases hlabel

theorem IsSound.erase {full : String} (h : r.IsSound library pass frames) (hfull : full ≠ "CPU")
    (hplaced : ∀ pc, .placed .second full pc ∉ r.history) :
    ({ r with symbols := r.symbols.erase full } : Run).IsSound library pass frames := by
  refine h.changeSymbol full (fun name hname => ?_) (fun hprocessor => absurd hprocessor hfull)
    (fun symbol hsymbol _ => ?_) hplaced
  · rw [SymbolTable.get?_erase, if_neg (Ne.symm hname)]
  · rw [SymbolTable.get?_erase, if_pos rfl] at hsymbol
    cases hsymbol

theorem fullName_cons_ne_processor (name : String) (f : Frame) (outer : List Frame) :
    fullName name (f :: outer) ≠ "CPU" := by
  intro h
  refine not_isPlain_fullName_cons name f outer ?_
  rw [h]
  exact (by decide : '@' ∉ "CPU".toList)

/-- The variable of a loop may take over even the entry of a label, since nothing
has been found or placed under its name. -/
theorem IsSound.bindVariable {f : Frame} {l : Loop} (h : r.IsSound library pass (f :: frames))
    (hf : r.Untouched f) (hname : IsPlain l.name) :
    ({ r with symbols := Walk.bindVariable r.symbols (f :: frames) l } : Run).IsSound library pass
      (f :: frames) := by
  unfold Walk.bindVariable
  dsimp only
  cases hadd : r.symbols.add? (fullName l.name (f :: frames)) (.num l.current) false none with
  | some symbols =>
    have hsound := h.add (fullName l.name (f :: frames)) (.num l.current) none
    rw [SymbolTable.add, hadd] at hsound
    exact hsound
  | none =>
    have hfull := r.symbols.get?_change (fullName l.name (f :: frames)) (.num l.current)
      (fullName l.name (f :: frames))
    rw [if_pos rfl] at hfull
    refine h.changeSymbol (fullName l.name (f :: frames)) (fun name hother => ?_)
      (fun hprocessor => absurd hprocessor (fullName_cons_ne_processor _ _ _))
      (fun symbol hsymbol hlabel => ?_) fun pc => hf.not_mem hname rfl
    · rw [Option.getD_none, SymbolTable.get?_change, if_neg (Ne.symm hother)]
    · rw [Option.getD_none, hfull] at hsymbol
      obtain ⟨before, hbefore, rfl⟩ := Option.map_eq_some_iff.mp hsymbol
      exact ⟨h.places _ before hbefore hlabel, fun value hn => absurd hn (hf.not_mem hname rfl)⟩

theorem IsSound.addLabel {full : String} {value : Value} {p : Position} {symbols : SymbolTable}
    (h : r.IsSound library .first frames)
    (hadd : r.symbols.add? full value true (some p) = some symbols)
    (hp : IsPlace library r.files true p) :
    ({ r with symbols } : Run).IsSound library .first frames := by
  have hget := SymbolTable.get?_add? hadd
  have hnote {n : Note} (hn : n.secondName? = some full) : n ∉ r.history := fun hmem => by
    rw [h.first rfl n hmem] at hn
    cases hn
  refine h.changeSymbol full (fun name hname => ?_) (fun hprocessor => ?_)
    (fun symbol hsymbol _ => ?_) fun pc => hnote rfl
  · exact (hget name).2.trans (if_neg (Ne.symm hname))
  · obtain ⟨symbol, hsymbol, -⟩ := h.processor
    rw [← hprocessor, (hget full).1] at hsymbol
    cases hsymbol
  · rw [(hget full).2, if_pos rfl] at hsymbol
    cases hsymbol
    exact ⟨⟨p, rfl, hp⟩, fun value hn => absurd hn (hnote rfl)⟩

/-! ### Other changes -/

theorem IsSound.notePlaced {name : String} {outer : List Frame} {pc : Nat}
    (h : r.IsSound library pass frames) (hname : IsPlain name) (houter : outer <:+ frames)
    (hsecond : pass = .second → ∃ symbol, r.symbols.get? (fullName name outer) = some symbol ∧
      symbol.isLabel = true ∧ symbol.value.same (.ofNat pc) = true) :
    ({ r with history := .placed r.pass (fullName name outer) pc :: r.history } : Run).IsSound library pass
      frames where
  pass_eq := h.pass_eq
  ordered := h.ordered
  opened := h.opened
  processor := h.processor
  macros := h.macros
  places := h.places
  first hfirst n hn := by
    rcases List.mem_cons.mp hn with rfl | hn
    · rw [h.pass_eq, hfirst]
      rfl
    · exact h.first hfirst n hn
  used n hn full hfull := by
    rcases List.mem_cons.mp hn with rfl | hn
    · have hused := isUsed_fullName h.ordered h.opened hname houter
      rw [h.pass_eq] at hfull
      cases pass with
      | first => cases hfull
      | later => cases hfull
      | second => exact Option.some.inj hfull ▸ hused
    · exact h.used n hn full hfull
  found full symbol value hsymbol hlabel hn := by
    rcases List.mem_cons.mp hn with hn | hn
    · cases hn
    · exact h.found full symbol value hsymbol hlabel hn
  placed full pc' hn := by
    rcases List.mem_cons.mp hn with hn | hn
    · rw [h.pass_eq] at hn
      cases hn
      exact hsecond rfl
    · exact h.placed full pc' hn

theorem IsSound.addMacro {m : Macro} (h : r.IsSound library pass frames)
    (hm : m.IsFaithful library r.files) :
    ({ r with macros := r.macros.add m } : Run).IsSound library pass frames :=
  { h with
    macros := fun name m' hm' => by
      rw [MacroTable.get?_add] at hm'
      split_ifs at hm'
      · exact Option.some.inj hm' ▸ hm
      · exact h.macros name m' hm' }

theorem IsSound.growFiles {files : Array Path} (h : r.IsSound library pass frames)
    (hgrow : FilesGrow r.files files) :
    ({ r with files } : Run).IsSound library pass frames :=
  { h with
    macros := fun name m hm => (h.macros name m hm).mono hgrow
    places := fun full symbol hsymbol hlabel => by
      obtain ⟨p, hp, hplace⟩ := h.places full symbol hsymbol hlabel
      exact ⟨p, hp, hplace.mono hgrow⟩ }

theorem addFile_eq (r : Run) (path : Path) :
    (r.addFile path).2 = { r with files := (r.addFile path).2.files } := by
  unfold addFile
  cases r.fileIndex? path <;> rfl

theorem history_addFile (r : Run) (path : Path) : (r.addFile path).2.history = r.history := by
  rw [addFile_eq]

theorem IsSound.addFile {path : Path} (h : r.IsSound library pass frames)
    (hgrow : FilesGrow r.files (r.addFile path).2.files) :
    (r.addFile path).2.IsSound library pass frames := by
  rw [addFile_eq]
  exact h.growFiles hgrow

theorem IsSound.changeDepth (h : r.IsSound library pass frames) (depth : Depth) :
    ({ r with depth } : Run).IsSound library pass frames :=
  ⟨h.pass_eq, h.ordered, h.opened, h.processor, h.macros, h.places, h.first, h.used, h.found, h.placed⟩

/-- The processor may be changed. -/
theorem IsSound.changeProcessor (h : r.IsSound library pass frames) (value : Value) :
    ({ r with symbols := r.symbols.change "CPU" value } : Run).IsSound library pass frames := by
  refine h.change (fun symbol hsymbol => ?_) value
  obtain ⟨other, hother, hlabel⟩ := h.processor
  cases hother.symm.trans hsymbol
  exact hlabel

/-- A pass after the first starts without notes of the second. -/
theorem IsSound.beginPass (h : r.IsSound library .first []) (next : Pass) :
    (r.beginPass next).IsSound library next [] := by
  have hchange := h.changeProcessor (.ofNat r.options.cpu.toNat)
  exact
    { pass_eq := rfl
      ordered := h.ordered
      opened := fun f hf => by cases hf
      processor := hchange.processor
      macros := h.macros
      places := hchange.places
      first := fun _ => h.first rfl
      used := fun n hn full hfull => by
        rw [h.first rfl n hn] at hfull
        cases hfull
      found := hchange.found
      placed := hchange.placed }

end Run
end

end Asm6502
