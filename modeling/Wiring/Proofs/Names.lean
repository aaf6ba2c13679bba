import Mathlib

/-!
# Numbered names

Names that have to be distinct end in a number. The number can be read off again, and with it the
rest of the name, as long as that rest does not itself end in a digit.

* `EndsPlain` — a text after which a number can be told apart.
* `numbered_inj` — equal names have equal stems and numbers.
* `numbered_ne_plain` — a numbered name is none that goes on after the number.
-/

namespace Wiring

/-- The text does not end in a digit. -/
def EndsPlain (stem : String) : Prop :=
  ∀ c ∈ stem.toList.getLast?, c.isDigit = false

theorem EndsPlain.append (stem : String) {tail : String} {c : Char}
    (hlast : tail.toList.getLast? = some c) (hc : c.isDigit = false) : EndsPlain (stem ++ tail) := by
  simp [EndsPlain, List.getLast?_append, hlast, hc]

theorem isDigit_of_mem_toString {i : Nat} {c : Char} (hc : c ∈ (toString i).toList) :
    c.isDigit = true := by
  rw [Nat.toString_eq_ofList_toDigits, String.toList_ofList] at hc
  exact Nat.isDigit_of_mem_toDigits (by decide) (by decide) hc

/-- Digits at the end of a text that does not end in one are none. -/
theorem eq_nil_of_endsPlain {stem digits : List Char} (hdigits : ∀ c ∈ digits, c.isDigit = true)
    (hlast : ∀ c ∈ (stem ++ digits).getLast?, c.isDigit = false) : digits = [] := by
  rcases List.eq_nil_or_concat digits with rfl | ⟨front, c, rfl⟩
  · rfl
  · have hdigit : c.isDigit = true := hdigits c (by simp)
    have hplain : c.isDigit = false := hlast c (by simp)
    exact absurd (hdigit.symm.trans hplain) (by simp)

theorem append_right_cancel {first second tail : String} (h : first ++ tail = second ++ tail) :
    first = second := by
  have hlist := congrArg String.toList h
  rw [String.toList_append, String.toList_append] at hlist
  exact String.toList_inj.mp (List.append_cancel_right hlist)

/-- The number at the end of a name can be read off, and so can the rest. -/
theorem numbered_inj {stem stem' : String} {i j : Nat} (hstem : EndsPlain stem)
    (hstem' : EndsPlain stem') (h : stem ++ toString i = stem' ++ toString j) :
    stem = stem' ∧ i = j := by
  have hlist : stem.toList ++ (toString i).toList = stem'.toList ++ (toString j).toList := by
    rw [← String.toList_append, ← String.toList_append, h]
  have hdigits : (toString i).toList = (toString j).toList := by
    -- Were one stem longer, the rest of it would consist of digits of the other number.
    rcases List.append_eq_append_iff.mp hlist with ⟨rest, hlonger, hi⟩ | ⟨rest, hlonger, hj⟩
    · rw [EndsPlain, hlonger] at hstem'
      have hrest : rest = [] := eq_nil_of_endsPlain
        (fun c hc => isDigit_of_mem_toString (hi ▸ List.mem_append_left _ hc)) hstem'
      rw [hi, hrest, List.nil_append]
    · rw [EndsPlain, hlonger] at hstem
      have hrest : rest = [] := eq_nil_of_endsPlain
        (fun c hc => isDigit_of_mem_toString (hj ▸ List.mem_append_left _ hc)) hstem
      rw [hj, hrest, List.nil_append]
  obtain rfl : i = j := Nat.repr_injective (String.toList_inj.mp hdigits)
  exact ⟨append_right_cancel h, rfl⟩

/-- A name that ends in a number is none that goes on after it. -/
theorem numbered_ne_plain {stem name : String} {i : Nat} (hname : EndsPlain name) :
    stem ++ toString i ≠ name := by
  rintro rfl
  rw [EndsPlain, String.toList_append] at hname
  have hnil : (toString i).toList = [] :=
    eq_nil_of_endsPlain (fun c => isDigit_of_mem_toString) hname
  exact absurd hnil (by simp)

end Wiring
