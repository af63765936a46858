import ChomskyNormal.RuleFile.Fault
import ChomskyNormal.Sampling
import Mathlib.Data.List.Basic

/-!
What messages tell. A message tells the kind of its fault by how it begins, and what the fault is
about stands in it as it is; a place in front of it tells the line. So two faults of one file that
read the same are the same.
-/

set_option autoImplicit false
set_option relaxedAutoImplicit false

namespace ChomskyNormal

namespace Text

private theorem quoted_inj {t u : Text} : quoted t = quoted u ↔ t = u := by
  simp [quoted]

private theorem quoted_char_inj {c d : Char} : quoted [c] = quoted [d] ↔ c = d := by
  simp [quoted_inj]

private theorem decimal_inj {m n : Nat} : decimal m = decimal n ↔ m = n := by
  constructor
  · intro h
    have hread := congrArg (Nat.ofDigitChars 10 · 0) h
    simpa [decimal, Nat.ofDigitChars_toDigits] using hread
  · rintro rfl
    rfl

private theorem append_cons_inj {u₁ u₂ v₁ v₂ : Text} {c : Char} (h₁ : c ∉ u₁) (h₂ : c ∉ u₂) :
    u₁ ++ c :: v₁ = u₂ ++ c :: v₂ ↔ u₁ = u₂ ∧ v₁ = v₂ := by
  constructor
  · intro h
    have hlength : u₁.length = u₂.length := by
      have hplace := congrArg (List.idxOf c) h
      simpa [List.idxOf_append_of_notMem h₁, List.idxOf_append_of_notMem h₂] using hplace
    obtain ⟨hu, hv⟩ := List.append_inj h hlength
    exact ⟨hu, (List.cons.inj hv).2⟩
  · rintro ⟨rfl, rfl⟩
    rfl

/-- Which of some openings a text begins with: the number of the first such one, or how many there
are when it begins with none. -/
def opening (openings : List Text) (t : Text) : Nat :=
  openings.findIdx fun o => o.isPrefixOf t

end Text

namespace Unfit

/-- How messages begin, in the order of the kinds. A message of the last kind begins with none of
these, and so it is for the openings below. -/
def openings : List Text :=
  ["`", "the grammar has no n"].map String.toList

private theorem opening_message (r : Unfit) : Text.opening openings r.message = r.ctorIdx := by
  cases r <;> rfl

private theorem message_inj {r s : Unfit} : r.message = s.message ↔ r = s := by
  refine ⟨fun h => ?_, fun h => h ▸ rfl⟩
  have hkind : r.ctorIdx = s.ctorIdx := by rw [← opening_message, h, opening_message]
  cases r with
  | foreign c =>
    cases s with
    | foreign d => rw [Text.quoted_char_inj.mp (List.append_cancel_right h)]
    | _ => cases hkind
  | noNonterminals =>
    cases s with
    | noNonterminals => rfl
    | _ => cases hkind
  | noStart =>
    cases s with
    | noStart => rfl
    | _ => cases hkind

end Unfit

namespace Refusal

def openings : List Text :=
  ["Invalid or", "Symbol", "`"].map String.toList

private theorem opening_message (r : Refusal) : Text.opening openings r.message = r.ctorIdx := by
  cases r <;> rfl

private theorem message_inj {r s : Refusal} : r.message = s.message ↔ r = s := by
  refine ⟨fun h => ?_, fun h => h ▸ rfl⟩
  have hkind : r.ctorIdx = s.ctorIdx := by rw [← opening_message, h, opening_message]
  cases r with
  | badSymbol c =>
    cases s with
    | badSymbol d => rw [Text.quoted_char_inj.mp (List.append_cancel_left h)]
    | _ => cases hkind
  | undeclared c =>
    cases s with
    | undeclared d =>
      have hquoted := List.append_cancel_left (List.append_cancel_right h)
      rw [Text.quoted_char_inj.mp hquoted]
    | _ => cases hkind
  | notNormal rhs =>
    cases s with
    | notNormal rhs' => rw [Text.quoted_inj.mp (List.append_cancel_right h)]
    | _ => cases hkind
  | unfit r =>
    cases s with
    | unfit s => rw [Unfit.message_inj.mp (List.append_cancel_left h)]
    | _ => cases hkind

end Refusal

namespace SampleFault

def openings : List Text :=
  ["The", "No d"].map String.toList

private theorem opening_message (e : SampleFault) :
    Text.opening openings e.message = e.ctorIdx := by
  cases e <;> rfl

private theorem message_inj {e f : SampleFault} : e.message = f.message ↔ e = f := by
  refine ⟨fun h => ?_, fun h => h ▸ rfl⟩
  have hkind : e.ctorIdx = f.ctorIdx := by rw [← opening_message, h, opening_message]
  cases e with
  | noStart =>
    cases f with
    | noStart => rfl
    | _ => cases hkind
  | undefined c =>
    cases f with
    | undefined d => rw [Text.quoted_char_inj.mp (List.append_cancel_left h)]
    | _ => cases hkind
  | barren c =>
    cases f with
    | barren d =>
      have hquoted := List.append_cancel_left (List.append_cancel_right h)
      rw [Text.quoted_char_inj.mp hquoted]
    | _ => cases hkind

end SampleFault

namespace Fault

def openings : List Text :=
  ["Expected", "Unexpected `", "Malformed", "Tried", "Unexpected c", "Could", "Rewrite",
    "Blank"].map String.toList

variable {e f : Fault} {r s : FileFault}

private theorem opening_message (h : ∀ r, e ≠ unreadable r) :
    Text.opening openings e.message = e.ctorIdx := by
  cases e with
  | unreadable r => exact absurd rfl (h r)
  | refused r => cases r <;> rfl
  | _ => rfl

private theorem same_unreadable_iff :
    (unreadable r).same (unreadable s) = true ↔ r.kind = s.kind := by
  rw [same, beq_iff_eq]

private theorem same_iff : e.same f = true ↔
    e = f ∨ ∃ r s, e = unreadable r ∧ f = unreadable s ∧ r.kind = s.kind := by
  cases e with
  | unreadable r =>
    cases f with
    | unreadable s =>
      rw [same_unreadable_iff]
      constructor
      · intro h
        exact .inr ⟨r, s, rfl, rfl, h⟩
      · rintro (h | ⟨_, _, hr, hs, h⟩)
        · cases h
          rfl
        · cases hr
          cases hs
          exact h
    | _ => simp [same, Fault.ctorIdx]
  | _ => cases f <;> simp [same, Fault.ctorIdx]

private theorem same_equivalence : Equivalence fun e f : Fault => e.same f = true where
  refl e := same_iff.mpr (.inl rfl)
  symm h := by
    rcases same_iff.mp h with rfl | ⟨r, s, rfl, rfl, hkind⟩
    · exact h
    · exact same_unreadable_iff.mpr hkind.symm
  trans h h' := by
    rcases same_iff.mp h with rfl | ⟨r, s, rfl, rfl, hkind⟩
    · exact h'
    · rcases same_iff.mp h' with rfl | ⟨r', s', hs, rfl, hkind'⟩
      · exact h
      · cases hs
        exact same_unreadable_iff.mpr (hkind.trans hkind')

private theorem same_of_message_eq (he : ∀ r, e ≠ unreadable r) (hf : ∀ r, f ≠ unreadable r)
    (h : e.message = f.message) : e.same f = true := by
  have hkind : e.ctorIdx = f.ctorIdx := by rw [← opening_message he, h, opening_message hf]
  -- the cases of the comparison; in the last one only the kinds are looked at
  fun_cases same e f with
  | case1 r s => exact absurd rfl (he r)
  | case2 c d => exact beq_iff_eq.mpr (Text.quoted_char_inj.mp (List.append_cancel_left h))
  | case3 c d => exact beq_iff_eq.mpr (Text.quoted_char_inj.mp (List.append_cancel_left h))
  | case4 r s => exact beq_iff_eq.mpr (Refusal.message_inj.mp h)
  | case5 => exact beq_iff_eq.mpr hkind

private theorem message_eq_iff (he : ∀ r, e ≠ unreadable r) (hf : ∀ r, f ≠ unreadable r) :
    e.message = f.message ↔ e.same f = true := by
  refine ⟨same_of_message_eq he hf, fun h => ?_⟩
  rcases same_iff.mp h with rfl | ⟨r, s, rfl, -⟩
  · rfl
  · exact absurd rfl (he r)

end Fault

namespace Location

def lineText (line : Nat) : Text :=
  if line = 0 then [] else ':' :: Text.decimal line

variable {path m₁ m₂ : Text} {l₁ l₂ : Nat}

theorem text_eq (l : Location) : l.text = l.path ++ lineText l.line := by
  rw [text, lineText]
  split <;> simp

private theorem lineText_inj : lineText l₁ = lineText l₂ ↔ l₁ = l₂ := by
  by_cases h₁ : l₁ = 0 <;> by_cases h₂ : l₂ = 0
  · simp [h₁, h₂]
  · simp [lineText, h₁, h₂, Ne.symm h₂]
  · simp [lineText, h₁, h₂]
  · simp [lineText, h₁, h₂, Text.decimal_inj]

private theorem bracket_notMem_lineText (line : Nat) : ']' ∉ lineText line := by
  unfold lineText
  split
  · simp
  · intro h
    rcases List.mem_cons.mp h with h | h
    · cases h
    · cases Nat.isDigit_of_mem_toDigits (by decide) (by decide) h

/-- Of one file, two messages with places in front of them read the same only when line and message
do. -/
private theorem mark_inj : mark ⟨path, l₁⟩ m₁ = mark ⟨path, l₂⟩ m₂ ↔ l₁ = l₂ ∧ m₁ = m₂ := by
  constructor
  · intro h
    have hplaced := List.append_cancel_right h
    rw [text_eq, text_eq] at hplaced
    simp only [List.append_assoc] at hplaced
    -- what stands in front of the line is the same, and no line holds the bracket behind it
    have hlines := List.append_cancel_left (List.append_cancel_left hplaced)
    obtain ⟨hline, hbehind⟩ :=
      (Text.append_cons_inj (bracket_notMem_lineText l₁) (bracket_notMem_lineText l₂)).mp hlines
    exact ⟨lineText_inj.mp hline, List.append_cancel_left hbehind⟩
  · rintro ⟨rfl, rfl⟩
    rfl

/-- What is read identifies a fault. Of one file, two faults of its text read the same exactly when
they are on the same line and are the same; and so it is with two reasons for growing no word. Being
the same is an equivalence, and it takes two faults for one only when they are of one kind and about
the same thing, or when the system failed in the same way. -/
theorem marks_identify_faults :
    (∀ (path : Text) (l₁ l₂ : Nat) (e₁ e₂ : Fault), (∀ r, e₁ ≠ .unreadable r) →
      (∀ r, e₂ ≠ .unreadable r) →
      (mark ⟨path, l₁⟩ e₁.message = mark ⟨path, l₂⟩ e₂.message ↔
        l₁ = l₂ ∧ e₁.same e₂ = true)) ∧
    (∀ (path : Text) (l₁ l₂ : Nat) (e₁ e₂ : SampleFault),
      mark ⟨path, l₁⟩ e₁.message = mark ⟨path, l₂⟩ e₂.message ↔ l₁ = l₂ ∧ e₁ = e₂) ∧
    (Equivalence fun e f : Fault => e.same f = true) ∧
    ∀ e f : Fault, e.same f = true ↔
      e = f ∨ ∃ r s, e = .unreadable r ∧ f = .unreadable s ∧ r.kind = s.kind := by
  refine ⟨?_, ?_, Fault.same_equivalence, fun e f => Fault.same_iff⟩
  · intro path l₁ l₂ e₁ e₂ h₁ h₂
    rw [mark_inj, Fault.message_eq_iff h₁ h₂]
  · intro path l₁ l₂ e₁ e₂
    rw [mark_inj, SampleFault.message_inj]

/-- A refused right-hand side is read apart from a character that has no place in a rule, even where
both are a lone quotation mark, and apart from itself on another line. -/
theorem quotation_mark_read_apart :
    (∀ r, Fault.refused (.notNormal ['`']) ≠ .unreadable r) ∧
    (∀ r, Fault.stray '`' ≠ .unreadable r) ∧
    mark ⟨"sums".toList, 1⟩ (Fault.refused (.notNormal ['`'])).message ≠
      mark ⟨"sums".toList, 1⟩ (Fault.stray '`').message ∧
    mark ⟨"sums".toList, 1⟩ (Fault.refused (.notNormal ['`'])).message ≠
      mark ⟨"sums".toList, 11⟩ (Fault.refused (.notNormal ['`'])).message := by
  obtain ⟨hfaults, -⟩ := marks_identify_faults
  have hrefused : ∀ r, Fault.refused (.notNormal ['`']) ≠ .unreadable r := by simp
  have hstray : ∀ r, Fault.stray '`' ≠ .unreadable r := by simp
  refine ⟨hrefused, hstray, ?_, ?_⟩
  · rw [Ne, hfaults _ _ _ _ _ hrefused hstray]
    decide
  · rw [Ne, hfaults _ _ _ _ _ hrefused hrefused]
    decide

end Location

end ChomskyNormal
