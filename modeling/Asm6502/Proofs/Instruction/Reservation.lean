/-
# The room that is reserved for an instruction

In the first pass a name that is defined further on stands for the program
counter, so the number of an operand need not be the one it is to have. How the
operand is written does not depend on it, nor does the mode, but for an address
that the mnemonic takes in one byte and in two: there the number decides. Hence an
instruction takes as much room with one number as with another unless such an
address is below 256 with one of them only. A name alone is as large as the program
counter, but an expression around it may come to any number.

Key definitions: `Addressing.form`.
Key theorems: `Expr.stop_of_evaluate`, `LineM.form_eq`, `Mode.size_eq_or_pair`,
`LineM.reserved_room`.
-/
import Asm6502.Proofs.Instruction.Operand

namespace Asm6502

/-- How an operand is written, whatever its number. -/
def Addressing.form : Addressing → Addressing
  | nothing => nothing
  | accumulator => accumulator
  | immediate _ => immediate 0
  | direct _ => direct 0
  | directX _ => directX 0
  | directY _ => directY 0
  | bracketed _ => bracketed 0
  | bracketedX _ => bracketedX 0
  | bracketedY _ => bracketedY 0

theorem Mode.takes_form {mode : Mode} {a : Addressing} : mode.Takes a.form ↔ mode.Takes a := by
  cases a <;> cases mode <;> exact Iff.rfl

/-- Where an expression ends is a matter of its text. -/
theorem Expr.stop_of_evaluate {ctx : Context} {allowance : Nat} {c : Cursor} {s t : State} {e : Evaluated}
    (h : evaluate ctx allowance c s = .ok e t) : e.stop = (Token.scan c.skipBlanks).2 := by
  obtain ⟨state, u, -, h⟩ := Eval.bind_ok_iff.mp h
  obtain ⟨operand, v, -, h⟩ := Eval.bind_ok_iff.mp h
  obtain ⟨rfl, -⟩ := Eval.pure_ok_iff.mp h
  rfl

/-! ### One text, two states -/

namespace LineM

variable {m : Mnemonic} {env env' : Setting} {s s' : LineState} {a b : Addressing} {mode mode' : Mode}

theorem stop_eq_of_valueAt {c stop stop' : Cursor} {n n' : Int} (h : valueAt env s c n stop)
    (h' : valueAt env' s' c n' stop') : stop' = stop := by
  obtain ⟨e, t, he, -, rfl⟩ := h
  obtain ⟨e', t', he', -, rfl⟩ := h'
  rw [Expr.stop_of_evaluate he, Expr.stop_of_evaluate he']

theorem hasIndirect_of_allows {cpu : UInt8} (hmode : mode ∈ Mode.bracketed) (h : m.allows cpu mode = true) :
    m.hasIndirect cpu = true := List.any_eq_true.mpr ⟨mode, hmode, h⟩

/-- A reading in brackets, or as the accumulator, that has a mode is the reading in
another state as well. -/
theorem form_eq_of_isMarked (hcursor : s'.cursor = s.cursor) (hcpu : s'.run.code.cpu = s.run.code.cpu)
    (ha : ReadsAs (valueAt env s) s.cursor a) (hmarked : a.isMarked = true) (hfits : Fits m s.run.code.cpu a mode)
    (hb : Reads m env' s' b) (hstarts : Starts m env' s' b) : b.form = a.form := by
  obtain ⟨hallowed, htakes, -⟩ := hfits
  rw [← hcpu] at hallowed
  have hpreferred := hb.preferred
  rw [hcursor] at hpreferred
  have htakes' {b : Addressing} (hform : b.form = a.form) : mode.Takes b := by
    rw [← Mode.takes_form, hform]
    exact Mode.takes_form.mpr htakes
  have hopened (hmode : mode ∈ Mode.bracketed) {d stop : Cursor} {n : Int} (hd : s.cursor.Passes ['('] d)
      (hn : valueAt env s d n stop) : ∃ n', valueAt env' s' d n' stop := by
    rw [← hcursor] at hd
    obtain ⟨n', stop', hn'⟩ := hstarts.opened (hasIndirect_of_allows hmode hallowed) d hd
    exact ⟨n', stop_eq_of_valueAt hn hn' ▸ hn'⟩
  cases ha with
  | nothing | immediate | direct | directX | directY => cases hmarked
  | accumulator h1 hend =>
    rw [hpreferred _ (.accumulator h1 hend) rfl mode htakes hallowed]
  | bracketed h1 hn h2 hend =>
    have hmode : mode ∈ Mode.bracketed := by rcases Mode.eq_of_takes_bracketed htakes with rfl | rfl <;> decide
    obtain ⟨n', hn'⟩ := hopened hmode h1 hn
    rw [hpreferred _ (.bracketed h1 hn' h2 hend) rfl mode (htakes' rfl) hallowed]
    rfl
  | bracketedX h1 hn h2 h3 h4 hend =>
    have hmode : mode ∈ Mode.bracketed := by rcases Mode.eq_of_takes_bracketedX htakes with rfl | rfl <;> decide
    obtain ⟨n', hn'⟩ := hopened hmode h1 hn
    rw [hpreferred _ (.bracketedX h1 hn' h2 h3 h4 hend) rfl mode (htakes' rfl) hallowed]
    rfl
  | bracketedY h1 hn h2 h3 h4 hend =>
    have hmode : mode ∈ Mode.bracketed := by obtain rfl := Mode.eq_of_takes_bracketedY htakes; decide
    obtain ⟨n', hn'⟩ := hopened hmode h1 hn
    rw [hpreferred _ (.bracketedY h1 hn' h2 h3 h4 hend) rfl mode (htakes' rfl) hallowed]
    rfl

/-- An address is indexed in the same way in both states. -/
theorem form_eq_of_address (ha : ReadsAs (valueAt env s) s.cursor a) (hb : ReadsAs (valueAt env' s') s.cursor b)
    (hform : a.form = .direct 0 ∨ a.form = .directX 0 ∨ a.form = .directY 0)
    (hform' : b.form = .direct 0 ∨ b.form = .directX 0 ∨ b.form = .directY 0) : b.form = a.form := by
  cases ha with
  | nothing | accumulator | immediate | bracketed | bracketedX | bracketedY => simp [Addressing.form] at hform
  | direct hn hend =>
    cases hb with
    | nothing | accumulator | immediate | bracketed | bracketedX | bracketedY => simp [Addressing.form] at hform'
    | direct => rfl
    | directX hn' h1 | directY hn' h1 =>
      obtain rfl := stop_eq_of_valueAt hn hn'
      exact absurd hend (h1.not_atStatementEnd (by simp [isStatementEnd]))
  | directX hn h1 h2 =>
    cases hb with
    | nothing | accumulator | immediate | bracketed | bracketedX | bracketedY => simp [Addressing.form] at hform'
    | direct hn' hend =>
      obtain rfl := stop_eq_of_valueAt hn hn'
      exact absurd hend (h1.not_atStatementEnd (by simp [isStatementEnd]))
    | directX => rfl
    | directY hn' h1' h2' =>
      obtain rfl := stop_eq_of_valueAt hn hn'
      obtain rfl := h1.eq h1'
      exact (h2.false_of_disjoint h2' (by simp)).elim
  | directY hn h1 h2 =>
    cases hb with
    | nothing | accumulator | immediate | bracketed | bracketedX | bracketedY => simp [Addressing.form] at hform'
    | direct hn' hend =>
      obtain rfl := stop_eq_of_valueAt hn hn'
      exact absurd hend (h1.not_atStatementEnd (by simp [isStatementEnd]))
    | directX hn' h1' h2' =>
      obtain rfl := stop_eq_of_valueAt hn hn'
      obtain rfl := h1.eq h1'
      exact (h2.false_of_disjoint h2' (by simp)).elim
    | directY => rfl

/-- What is no reading in brackets and no immediate value, though something is
written, is an address. -/
theorem form_of_unmarked (hmarked : a.isMarked = false) :
    a = .nothing ∨ (∃ n, a = .immediate n) ∨ a.form = .direct 0 ∨ a.form = .directX 0 ∨ a.form = .directY 0 := by
  cases a with
  | accumulator | bracketed | bracketedX | bracketedY => cases hmarked
  | nothing => exact .inl rfl
  | immediate n => exact .inr (.inl ⟨n, rfl⟩)
  | direct => exact .inr (.inr (.inl rfl))
  | directX => exact .inr (.inr (.inr (.inl rfl)))
  | directY => exact .inr (.inr (.inr (.inr rfl)))

/-- The operand of an accepted instruction is written in the same way whatever the
state in which it is read. -/
theorem form_eq (hcursor : s'.cursor = s.cursor) (hcpu : s'.run.code.cpu = s.run.code.cpu)
    (ha : Reads m env s a) (hstarts : Starts m env s a) (hfits : Fits m s.run.code.cpu a mode)
    (hb : Reads m env' s' b) (hstarts' : Starts m env' s' b) (hfits' : Fits m s'.run.code.cpu b mode') :
    b.form = a.form := by
  cases hmarked : a.isMarked with
  | true => exact form_eq_of_isMarked hcursor hcpu ha.written hmarked hfits hb hstarts'
  | false =>
  cases hmarked' : b.isMarked with
  | true => exact (form_eq_of_isMarked hcursor.symm hcpu.symm hb.written hmarked' hfits' ha hstarts).symm
  | false =>
  have hwritten := hb.written
  have hnothing := hstarts'.nothing
  have himmediate := hstarts'.immediate
  rw [hcursor] at hwritten hnothing himmediate
  rcases form_of_unmarked hmarked with rfl | ⟨n, rfl⟩ | hform
  · cases ha.written with
    | nothing hend => rw [hnothing hend]
  · cases ha.written with
    | immediate h1 =>
      obtain ⟨n', rfl⟩ := himmediate _ h1
      rfl
  rcases form_of_unmarked hmarked' with rfl | ⟨n, rfl⟩ | hform'
  · cases hwritten with
    | nothing hend => rw [hstarts.nothing hend]
  · cases hwritten with
    | immediate h1 =>
      obtain ⟨n', rfl⟩ := hstarts.immediate _ h1
      rfl
  · exact form_eq_of_address ha.written hwritten hform hform'

end LineM

/-! ### Modes for one form -/

/-- The modes that take the same operand, but are never those of one mnemonic. -/
def Mode.rivals : List (Mode × Mode) :=
  [(relative, zeroPage), (relative, absolute), (indirect, zeroPageIndirect), (indexedIndirect, absoluteIndexedIndirect)]

theorem Mnemonic.not_rivals : ∀ m ∈ table, ∀ pair ∈ Mode.rivals,
    ¬ (pair.1 ∈ m.opcodes.map Prod.fst ∧ pair.2 ∈ m.opcodes.map Prod.fst) := by
  decide +kernel

theorem Mnemonic.mem_modes_of_allows {m : Mnemonic} {cpu : UInt8} {mode : Mode} (h : m.allows cpu mode = true) :
    mode ∈ m.opcodes.map Prod.fst := by
  obtain ⟨opcode, hop⟩ := Option.isSome_iff_exists.mp h
  exact List.mem_map.mpr ⟨_, mem_opcodes_of_opcode? hop, rfl⟩

/-- Two modes of a mnemonic for one form are equally long, or those for an address
in one byte and in two. -/
theorem Mode.size_eq_or_pair {m : Mnemonic} (hm : m ∈ Mnemonic.table) {cpu : UInt8} {mode mode' : Mode}
    {a b : Addressing} (hform : b.form = a.form) (hmode : mode.Takes a) (hmode' : mode'.Takes b)
    (hallowed : m.allows cpu mode = true) (hallowed' : m.allows cpu mode' = true) :
    mode'.size = mode.size ∨
      ∃ pair ∈ addressPairs, (mode = pair.1 ∨ mode = pair.2) ∧ (mode' = pair.1 ∨ mode' = pair.2) := by
  have hrivals {p q : Mode} (h : m.allows cpu p = true) (h' : m.allows cpu q = true) (hpair : (p, q) ∈ rivals) :
      False :=
    m.not_rivals hm _ hpair ⟨Mnemonic.mem_modes_of_allows h, Mnemonic.mem_modes_of_allows h'⟩
  rw [← Mode.takes_form] at hmode hmode'
  rw [hform] at hmode'
  generalize a.form = f at hmode hmode'
  cases f <;> cases mode <;> cases hmode <;> cases mode' <;> cases hmode' <;>
    first
    | exact Or.inl rfl
    | exact Or.inr (by decide)
    | exact (hrivals hallowed hallowed' (by decide)).elim
    | exact (hrivals hallowed' hallowed (by decide)).elim

/-- An address for which a mnemonic has a mode with one byte is written in that mode
or in the one with two. -/
theorem Mode.mem_pair_of_takes {m : Mnemonic} (hm : m ∈ Mnemonic.table) {cpu : UInt8} {mode : Mode} {a : Addressing}
    {pair : Mode × Mode} (hpair : pair ∈ addressPairs) (hshort : pair.1.Takes a) (hallowed : m.allows cpu pair.1 = true)
    (hmode : mode.Takes a) (hallowed' : m.allows cpu mode = true) : mode = pair.1 ∨ mode = pair.2 := by
  have hrelative : ¬ (m.allows cpu relative = true ∧ m.allows cpu zeroPage = true) := fun h =>
    m.not_rivals hm (relative, zeroPage) (by decide)
      ⟨Mnemonic.mem_modes_of_allows h.1, Mnemonic.mem_modes_of_allows h.2⟩
  simp only [addressPairs, List.mem_cons, List.not_mem_nil, or_false] at hpair
  rcases hpair with rfl | rfl | rfl <;> cases a <;> cases hshort <;> cases mode <;> cases hmode <;>
    first
    | exact Or.inl rfl
    | exact Or.inr rfl
    | exact (hrelative ⟨hallowed', hallowed⟩).elim

/-- Whether a mnemonic takes an operand in one byte and in two. -/
def Mnemonic.HasBoth (m : Mnemonic) (cpu : UInt8) (a : Addressing) : Prop :=
  ∃ pair ∈ Mode.addressPairs, pair.1.Takes a ∧ m.allows cpu pair.1 = true ∧ m.allows cpu pair.2 = true

theorem Fits.eq_short_iff {m : Mnemonic} (hm : m ∈ Mnemonic.table) {cpu : UInt8} {a : Addressing} {mode : Mode}
    (hfits : Fits m cpu a mode) {pair : Mode × Mode} (hpair : pair ∈ Mode.addressPairs) (hshort : pair.1.Takes a)
    (hallowed : m.allows cpu pair.1 = true) :
    (a.number < 256 → mode = pair.1) ∧ (¬ a.number < 256 → mode = pair.2) := by
  have hmem := Mode.mem_pair_of_takes hm hpair hshort hallowed hfits.takes hfits.allowed
  have hiff := hfits.shortest pair hpair hmem
  exact ⟨fun h => hiff.mpr ⟨h, hallowed⟩, fun h => hmem.resolve_left fun hmode => h (hiff.mp hmode).1⟩

/-- With a number that needs two bytes, an operand takes the room that it takes with
another one exactly if that needs two bytes as well, or there is no choice. -/
theorem size_eq_iff {m : Mnemonic} (hm : m ∈ Mnemonic.table) {cpu : UInt8} {a b : Addressing} {mode mode' : Mode}
    (hform : b.form = a.form) (hfits : Fits m cpu a mode) (hfits' : Fits m cpu b mode') (hb : 256 ≤ b.number) :
    mode'.size = mode.size ↔ ¬ (a.number < 256 ∧ m.HasBoth cpu a) := by
  constructor
  · rintro hsize ⟨ha, pair, hpair, htakes, hshort, -⟩
    have htakes' : pair.1.Takes b := by
      rw [← Mode.takes_form, hform]
      exact Mode.takes_form.mpr htakes
    rw [(hfits.eq_short_iff hm hpair htakes hshort).1 ha,
      (hfits'.eq_short_iff hm hpair htakes' hshort).2 (by omega)] at hsize
    have hsizes : ∀ pair ∈ Mode.addressPairs, pair.2.size ≠ pair.1.size := by decide
    exact hsizes pair hpair hsize
  · intro hnot
    rcases Mode.size_eq_or_pair hm hform hfits.takes hfits'.takes hfits.allowed hfits'.allowed with
      hsize | ⟨pair, hpair, hmode, hmode'⟩
    · exact hsize
    have hlong : mode' = pair.2 := hmode'.resolve_left fun h => by
      have := ((hfits'.shortest pair hpair hmode').mp h).1
      omega
    rcases hmode with hmode | hmode
    · obtain ⟨ha, hshort⟩ := (hfits.shortest pair hpair (.inl hmode)).mp hmode
      exact absurd ⟨ha, pair, hpair, hmode ▸ hfits.takes, hshort, hlong ▸ hfits'.allowed⟩ hnot
    · rw [hlong, hmode]

namespace LineM

variable {m : Mnemonic} {env env' : Setting} {s s' t t' : LineState} {start : Nat}

theorem placed_of_instruction (hm : m ∈ Mnemonic.table) (h : instruction m start env s = .ok () t) :
    Placed m env s t := by
  have hplaced : wp (instruction m start) env s (fun _ after => Placed m env s after) fun _ _ => True := by
    unfold instruction
    rw [wp_andThen]
    exact wp_mono (wp_operand hm) (fun _ _ h => h) fun _ _ _ => trivial
  have hafter := of_wp_ok hplaced h
  exact hafter

/-- **An operand reserves its room.** An instruction is accepted at one place in two
states, in whatever passes and whatever is defined in them, and the number of its
operand needs two bytes in the second. Then it is written in the same way in both
and takes the same room, unless the number is below 256 in the first and the
mnemonic takes the operand in one byte and in two. If the number is the program
counter of the first, as it is for a name that is still undefined, and that is
beyond the zero page, it takes the same room. -/
theorem reserved_room (hm : m ∈ Mnemonic.table) (hcursor : s'.cursor = s.cursor)
    (hcpu : s'.run.code.cpu = s.run.code.cpu) (hpc : s'.run.code.pc = s.run.code.pc) (hpage : 0x100 ≤ s.run.code.pc)
    (h : instruction m start env s = .ok () t) (h' : instruction m start env' s' = .ok () t') :
    ∃ a a', Reads m env s a ∧ Reads m env' s' a' ∧ a'.form = a.form ∧
      (0x100 ≤ a'.number →
        (t'.run.code.pc = t.run.code.pc ↔ ¬ (a.number < 0x100 ∧ m.HasBoth s.run.code.cpu a)) ∧
        (a.number = s.run.code.pc → t'.run.code.pc = t.run.code.pc)) := by
  obtain ⟨a, known, hreads, hstarts, -, mode, hfits, hroom, -⟩ := placed_of_instruction hm h
  obtain ⟨a', known', hreads', hstarts', -, mode', hfits', hroom', -⟩ := placed_of_instruction hm h'
  have hform := form_eq hcursor hcpu hreads hstarts hfits hreads' hstarts' hfits'
  refine ⟨a, a', hreads, hreads', hform, fun hwide => ?_⟩
  rw [hcpu] at hfits'
  have hiff : t'.run.code.pc = t.run.code.pc ↔ ¬ (a.number < 0x100 ∧ m.HasBoth s.run.code.cpu a) := by
    rw [← size_eq_iff hm hform hfits hfits' hwide, hroom, hroom', hpc]
    omega
  refine ⟨hiff, fun hcounter => hiff.mpr fun hnarrow => ?_⟩
  omega

/-- A line at `&2000` where a text is left to read, in the first pass or in the
second, where `fwd` is `&5000`. -/
def forwardLine (pass : Pass) (text : String) : LineState :=
  let line := bareLine text
  let symbols := if pass = .second then line.run.symbols.add "fwd" (.ofNat 0x5000) false none else line.run.symbols
  { line with run := { line.run with pass, symbols, code := line.run.code.setPc 0x2000 } }

/-- The mnemonic `LDA`. -/
def load : Mnemonic := (Mnemonic.table.find? (·.name == "LDA")).getD default

/-- Where an instruction that is accepted ends. -/
def endOf? : EStateM.Result Stop LineState Unit → Option Nat
  | .ok _ t => some t.run.code.pc
  | .error _ _ => none

theorem exists_of_endOf? {r : EStateM.Result Stop LineState Unit} {pc : Nat} (h : endOf? r = some pc) :
    ∃ t, r = .ok () t ∧ t.run.code.pc = pc := by
  cases r with
  | ok _ t => exact ⟨t, rfl, Option.some.inj h⟩
  | error stop t => cases h

/-- The number at the cursor, and whether it is known. -/
def numberOf? (s : LineState) : Option (Int × Bool) :=
  match Expr.evaluate (context bareSetting s) bareSetting.allowance.evals s.cursor (evaluation s) with
  | .ok e _ => e.value.integer.toOption.map fun n => (n, e.known)
  | .error _ _ => none

/-- A name that is still undefined reserves two bytes for its address. -/
theorem reserved_room_name : load ∈ Mnemonic.table ∧ ∃ t t',
    instruction load 0 bareSetting (forwardLine .first "fwd,X") = .ok () t ∧
    instruction load 0 bareSetting (forwardLine .second "fwd,X") = .ok () t' ∧
    t.run.code.pc = 0x2003 ∧ t'.run.code.pc = 0x2003 ∧
    ∃ a a', Reads load bareSetting (forwardLine .first "fwd,X") a ∧
      Reads load bareSetting (forwardLine .second "fwd,X") a' ∧ a'.form = a.form ∧
      (0x100 ≤ a'.number →
        (t'.run.code.pc = t.run.code.pc ↔ ¬ (a.number < 0x100 ∧ load.HasBoth 0 a)) ∧
        (a.number = 0x2000 → t'.run.code.pc = t.run.code.pc)) := by
  obtain ⟨hload, hends⟩ : load ∈ Mnemonic.table ∧
      endOf? (instruction load 0 bareSetting (forwardLine .first "fwd,X")) = some 0x2003 ∧
      endOf? (instruction load 0 bareSetting (forwardLine .second "fwd,X")) = some 0x2003 := by decide +kernel
  obtain ⟨t, ht, hpc⟩ := exists_of_endOf? hends.1
  obtain ⟨t', ht', hpc'⟩ := exists_of_endOf? hends.2
  exact ⟨hload, t, t', ht, ht', hpc, hpc', reserved_room hload rfl rfl rfl (by decide) ht ht'⟩

/-- With the undefined name as `&2000`, the expression comes to an address of one
byte. It needs two in the end, and so there is one byte too little. -/
theorem expression_reserves_too_little :
    load ∈ Mnemonic.table ∧ (forwardLine .first "fwd-&2000").run.code.pc = 0x2000 ∧
    (forwardLine .second "fwd-&2000").run.code.pc = 0x2000 ∧
    numberOf? (forwardLine .first "fwd-&2000") = some (0, false) ∧
    numberOf? (forwardLine .second "fwd-&2000") = some (0x3000, true) ∧
    endOf? (instruction load 0 bareSetting (forwardLine .first "fwd-&2000")) = some 0x2002 ∧
    endOf? (instruction load 0 bareSetting (forwardLine .second "fwd-&2000")) = some 0x2003 := by
  decide +kernel

end LineM

end Asm6502
