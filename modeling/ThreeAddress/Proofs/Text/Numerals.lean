import Mathlib.Data.List.Basic

/-!
# Numerals in texts

Where a numeral ends and the text after it begins cannot be seen in general; these
are the facts about two readings of one text.
-/

namespace ThreeAddress

/-- Two texts of equal size that begin one text are the same. -/
theorem append_inj_of_utf8ByteSize {first second firstRest secondRest : String}
    (h : first ++ firstRest = second ++ secondRest)
    (hsize : first.utf8ByteSize = second.utf8ByteSize) :
    first = second ∧ firstRest = secondRest := by
  have hbytes : first.toByteArray ++ firstRest.toByteArray =
      second.toByteArray ++ secondRest.toByteArray := by
    rw [← String.toByteArray_append, ← String.toByteArray_append, h]
  obtain rfl := String.toByteArray_inj.mp (ByteArray.append_inj_left hbytes hsize)
  exact ⟨rfl, (String.append_right_inj _).mp h⟩

/-- Of two beginnings of one text, one begins with the other. -/
theorem append_eq_append {first second firstRest secondRest : String}
    (h : first ++ firstRest = second ++ secondRest) :
    (∃ between, second = first ++ between ∧ firstRest = between ++ secondRest) ∨
      ∃ between, first = second ++ between ∧ secondRest = between ++ firstRest := by
  simp only [← String.toList_inj, String.toList_append] at h ⊢
  rcases List.append_eq_append_iff.mp h with ⟨between, hsecond, hrest⟩ | ⟨between, hfirst, hrest⟩
  · exact .inl ⟨.ofList between, by simpa using hsecond, by simpa using hrest⟩
  · exact .inr ⟨.ofList between, by simpa using hfirst, by simpa using hrest⟩

/-- Numbers have different numerals. -/
theorem toString_inj {first second : Nat} : toString first = toString second ↔ first = second := by
  refine ⟨fun h => ?_, fun h => h ▸ rfl⟩
  have hvalue := congrArg (fun numeral => Nat.ofDigitChars 10 numeral.toList 0) h
  simpa only [Nat.toString_eq_ofList_toDigits, String.toList_ofList,
    Nat.ofDigitChars_ten_toDigits] using hvalue

/-- A numeral that begins with a shorter one is that of a greater number. -/
theorem lt_of_toString_eq_append {count next : Nat} {digits : String}
    (h : toString next = toString count ++ digits) (hdigits : digits ≠ "") : count < next := by
  have hrepr : next.repr = count.repr ++ digits := h
  have hlength : ¬ next.repr.length ≤ count.repr.length := by
    rw [hrepr, String.length_append]
    have hpos : digits.length ≠ 0 := mt String.length_eq_zero_iff.mp hdigits
    omega
  rw [Nat.length_repr_le_iff Nat.length_repr_pos] at hlength
  exact Nat.lt_of_lt_of_le ((Nat.length_repr_le_iff Nat.length_repr_pos).mp (Nat.le_refl _))
    (Nat.le_of_not_lt hlength)

/-- Only decimal digits continue a numeral. -/
theorem isDigit_of_toString_eq_append {count next : Nat} {digits : String}
    (h : toString next = toString count ++ digits) {char : Char} (hchar : char ∈ digits.toList) :
    char.isDigit = true := by
  refine Nat.isDigit_of_mem_toDigits (b := 10) (n := next) (by omega) (by omega) ?_
  rw [← String.toList_ofList (l := Nat.toDigits 10 next), ← Nat.toString_eq_ofList_toDigits, h,
    String.toList_append]
  exact List.mem_append_right _ hchar

end ThreeAddress
