/-
# Names and the scopes in them

A plain name has no `@`, and a scope's number and count have neither `@` nor
`_` in them. So a full name tells whether a scope is in it and, if so, the
number and the count of the innermost one, and so of every one. What is found
under a name stands in some of the open scopes, the inner ones left off.

Key definitions: `Frame.stamp`.
Key theorems: `fullName_scope`, `fullName_inj`, `not_isPlain_fullName_cons`,
`exists_suffix_of_visibleName?`.
-/
import Std.Data.String.ToNat
import Asm6502.Proofs.Text.Cursor
import Asm6502.Scope

namespace Asm6502

/-- Lists are cut at a sign in one way only. -/
theorem cut_unique {x : Char} {past past' rest rest' : List Char} (hpast : x ∉ past)
    (hpast' : x ∉ past') (h : past ++ x :: rest = past' ++ x :: rest') :
    past = past' ∧ rest = rest' := by
  induction past generalizing past' with
  | nil =>
    cases past' with
    | nil => exact ⟨rfl, (List.cons.inj h).2⟩
    | cons y past' =>
      obtain rfl : x = y := (List.cons.inj h).1
      exact absurd List.mem_cons_self hpast'
  | cons y past ih =>
    cases past' with
    | nil =>
      obtain rfl : y = x := (List.cons.inj h).1
      exact absurd List.mem_cons_self hpast
    | cons z past' =>
      obtain ⟨rfl, htail⟩ := List.cons.inj h
      obtain ⟨rfl, rfl⟩ := ih (fun hm => hpast (List.mem_cons_of_mem _ hm))
        (fun hm => hpast' (List.mem_cons_of_mem _ hm)) htail
      exact ⟨rfl, rfl⟩

theorem not_mem_digits {x : Char} (hx : x.isDigit = false) (n : Nat) : x ∉ (toString n).toList := by
  intro h
  have hdigit : x.isDigit = true :=
    Nat.isDigit_of_mem_toDigits (by decide) (by decide) (Nat.toList_repr ▸ h)
  rw [hx] at hdigit
  cases hdigit

theorem toList_tag (f : Frame) :
    f.tag.toList = '@' :: ((toString f.id).toList ++ '_' :: (toString f.count).toList) := by
  simp [Frame.tag]

theorem toList_fullName_cons (name : String) (f : Frame) (frames : List Frame) :
    (fullName name (f :: frames)).toList = name.toList ++ '@' :: ((toString f.id).toList ++
      '_' :: ((toString f.count).toList ++ (suffix frames).toList)) := by
  simp [fullName, suffix, toList_tag]

/-- What follows the count of a scope in a full name is nothing or another
scope. -/
theorem takeWhile_suffix {digits : List Char} (h : '@' ∉ digits) (frames : List Frame) :
    (digits ++ (suffix frames).toList).takeWhile (· != '@') = digits := by
  have hdigits : ∀ x ∈ digits, (x != '@') = true := by
    intro x hx
    rw [bne_iff_ne]
    rintro rfl
    exact h hx
  rw [List.takeWhile_append_of_pos hdigits]
  cases frames with
  | nil => simp [suffix]
  | cons f frames => simp [suffix, toList_tag]

/-- A full name tells the number and the count of its innermost scope. -/
theorem fullName_scope {name name' : String} {f f' : Frame} {frames frames' : List Frame}
    (hname : IsPlain name) (hname' : IsPlain name')
    (h : fullName name (f :: frames) = fullName name' (f' :: frames')) :
    f.id = f'.id ∧ f.count = f'.count := by
  have h := congrArg String.toList h
  rw [toList_fullName_cons, toList_fullName_cons] at h
  obtain ⟨-, h⟩ := cut_unique hname hname' h
  obtain ⟨hid, h⟩ := cut_unique (not_mem_digits rfl _) (not_mem_digits rfl _) h
  have hcount := congrArg (List.takeWhile (· != '@')) h
  rw [takeWhile_suffix (not_mem_digits rfl _), takeWhile_suffix (not_mem_digits rfl _)] at hcount
  exact ⟨Nat.repr_inj.mp (String.toList_inj.mp hid), Nat.repr_inj.mp (String.toList_inj.mp hcount)⟩

/-- The number and the count of a scope, which are what names keep of it. -/
def Frame.stamp (f : Frame) : Nat × Nat := (f.id, f.count)

theorem suffix_congr {frames frames' : List Frame} (h : frames.map Frame.stamp = frames'.map Frame.stamp) :
    suffix frames = suffix frames' := by
  induction frames generalizing frames' with
  | nil =>
    have hnil : frames' = [] := by simpa using h.symm
    rw [hnil]
  | cons f frames ih =>
    cases frames' with
    | nil => simp at h
    | cons f' frames' =>
      obtain ⟨hstamp, htail⟩ := List.cons.inj h
      obtain ⟨hid, hcount⟩ := Prod.mk.inj hstamp
      rw [suffix, suffix, ih htail, Frame.tag, Frame.tag, hid, hcount]

theorem stamps_of_suffix {frames frames' : List Frame} (h : suffix frames = suffix frames') :
    frames.map Frame.stamp = frames'.map Frame.stamp := by
  have hempty : IsPlain "" := by simp [IsPlain]
  have hlength (f : Frame) (outer : List Frame) : suffix (f :: outer) ≠ "" := by
    intro hnil
    have hlist := congrArg String.toList hnil
    simp [suffix, toList_tag] at hlist
  induction frames generalizing frames' with
  | nil =>
    cases frames' with
    | nil => rfl
    | cons f' frames' => exact absurd h.symm (hlength f' frames')
  | cons f frames ih =>
    cases frames' with
    | nil => exact absurd h (hlength f frames)
    | cons f' frames' =>
      have hfull : fullName "" (f :: frames) = fullName "" (f' :: frames') := by rw [fullName, h, fullName]
      obtain ⟨hid, hcount⟩ := fullName_scope hempty hempty hfull
      have htag : f.tag = f'.tag := by rw [Frame.tag, Frame.tag, hid, hcount]
      rw [suffix, suffix, htag] at h
      have hrest : suffix frames = suffix frames' := String.append_right_inj f'.tag |>.mp h
      rw [List.map_cons, List.map_cons, ih hrest, Frame.stamp, Frame.stamp, hid, hcount]

/-- Full names are equal only if the names and the scopes in them are. -/
theorem fullName_inj {name name' : String} (hname : IsPlain name) (hname' : IsPlain name')
    {frames frames' : List Frame} :
    fullName name frames = fullName name' frames' ↔
      name = name' ∧ frames.map Frame.stamp = frames'.map Frame.stamp := by
  constructor
  · intro h
    have hlist := congrArg (fun full => full.toList.takeWhile (· != '@')) h
    simp only [fullName, String.toList_append] at hlist
    rw [takeWhile_suffix hname, takeWhile_suffix hname'] at hlist
    obtain rfl : name = name' := String.toList_inj.mp hlist
    refine ⟨rfl, stamps_of_suffix ?_⟩
    exact String.append_right_inj name |>.mp h
  · rintro ⟨rfl, hstamps⟩
    rw [fullName, fullName, suffix_congr hstamps]

theorem not_isPlain_fullName_cons (name : String) (f : Frame) (frames : List Frame) :
    ¬ IsPlain (fullName name (f :: frames)) := by
  intro h
  refine h ?_
  rw [toList_fullName_cons]
  simp

theorem exists_suffix_of_visibleName? {symbols : SymbolTable} {name full : String} :
    ∀ {frames : List Frame}, visibleName? symbols name frames = some full →
      ∃ outer, outer <:+ frames ∧ full = fullName name outer
  | [], h => by
    unfold visibleName? at h
    split at h
    · exact ⟨[], List.suffix_refl _, by simpa [fullName, suffix] using (Option.some.inj h).symm⟩
    · cases h
  | f :: frames, h => by
    unfold visibleName? at h
    split at h
    · exact ⟨f :: frames, List.suffix_refl _, (Option.some.inj h).symm⟩
    · obtain ⟨outer, houter, hfull⟩ := exists_suffix_of_visibleName? h
      exact ⟨outer, houter.trans (List.suffix_cons f frames), hfull⟩

end Asm6502
