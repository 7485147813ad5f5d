import ThreeAddress.Asm.Image
import ThreeAddress.Eval.Machine
import ThreeAddress.Lowering.Program
import ThreeAddress.Proofs.Text.Numerals

/-!
# Labels of functions in the code

The size in front of a function's name keeps its labels apart from those of
other functions, but the numeral ends where the name begins, and nothing marks
the place. A name that begins with digits can make the numeral longer, so that it
is read as the size of a longer name. Labels of two functions are the same in that
case and in no other.
-/

namespace ThreeAddress

/-- What a text with a leading dot begins with is empty or has the dot. -/
theorem eq_dot_append {text first rest : String} (h : "." ++ text = first ++ rest) :
    first = "" ∨ ∃ middle, first = "." ++ middle ∧ text = middle ++ rest := by
  rcases append_eq_append h with ⟨middle, hfirst, htext⟩ | ⟨middle, hdot, hrest⟩
  · exact .inr ⟨middle, hfirst, htext⟩
  · have hsize : 1 = first.utf8ByteSize + middle.utf8ByteSize := by
      rw [← String.utf8ByteSize_append, ← hdot]
      rfl
    by_cases hfirst : first.utf8ByteSize = 0
    · exact .inl (String.utf8ByteSize_eq_zero_iff.mp hfirst)
    · obtain rfl := String.utf8ByteSize_eq_zero_iff.mp
        (show middle.utf8ByteSize = 0 by omega)
      rw [String.append_empty] at hdot
      exact .inr ⟨"", by rw [← hdot, String.append_empty], by simpa using hrest.symm⟩

/-- A function and a label, and a longer-named function and a label with the same text in the code:
the shorter name begins with digits that continue the numeral of its size to that of the
longer one, and what is left of it begins the longer name, up to a dot. -/
inductive Overlaps : String → String → String → String → Prop
  | intro (digits rest middle label : String) (hdigits : digits ≠ "")
      (hsize : toString (rest ++ "." ++ middle).utf8ByteSize =
        toString (digits ++ rest).utf8ByteSize ++ digits) :
      Overlaps (digits ++ rest) (middle ++ "." ++ label) (rest ++ "." ++ middle) label

namespace Overlaps

variable {function label other otherLabel : String}

theorem localLabel_eq (h : Overlaps function label other otherLabel) :
    localLabel function label = localLabel other otherLabel := by
  obtain ⟨digits, rest, middle, _, _, hsize⟩ := h
  rw [localLabel, localLabel, hsize]
  simp only [String.append_assoc]

/-- Where labels overlap, the shorter name begins with a digit. -/
theorem exists_digit (h : Overlaps function label other otherLabel) :
    ∃ char ∈ function.toList.head?, char.isDigit = true := by
  obtain ⟨digits, rest, middle, _, hdigits, hsize⟩ := h
  cases hlist : digits.toList with
  | nil => exact absurd (String.toList_eq_nil_iff.mp hlist) hdigits
  | cons char chars =>
      refine ⟨char, by simp [hlist], isDigit_of_toString_eq_append hsize ?_⟩
      rw [hlist]
      exact List.mem_cons_self

/-- A numeral is continued by the digits with which the other name begins. -/
theorem of_numeral {digits : String} (hdigits : digits ≠ "")
    (hsize : toString other.utf8ByteSize = toString function.utf8ByteSize ++ digits)
    (h : function ++ ("." ++ label) = digits ++ (other ++ ("." ++ otherLabel))) :
    Overlaps function label other otherLabel := by
  have hlt := lt_of_toString_eq_append hsize hdigits
  rw [← @String.append_assoc digits] at h
  rcases append_eq_append h with ⟨between, hnames, htexts⟩ | ⟨between, rfl, _⟩
  · rcases eq_dot_append htexts with rfl | ⟨middle, rfl, rfl⟩
    · rw [String.append_empty] at hnames
      rw [← hnames, String.utf8ByteSize_append] at hlt
      omega
    · obtain ⟨rest, rfl, rfl⟩ : ∃ rest, function = digits ++ rest ∧
          other = rest ++ ("." ++ middle) := by
        rcases append_eq_append hnames with ⟨rest, hfunction, hother⟩ | ⟨rest, hdigit, hrest⟩
        · exact ⟨rest, hfunction, hother⟩
        · rcases eq_dot_append hrest with rfl | ⟨dotted, rfl, _⟩
          · exact ⟨"", by simpa using hdigit.symm, by simpa using hrest.symm⟩
          · have hdot : '.' ∈ digits.toList := by simp [hdigit]
            exact absurd (isDigit_of_toString_eq_append hsize hdot) (by decide)
      simp only [← String.append_assoc] at hsize ⊢
      exact .intro digits rest middle otherLabel hdigits hsize
  · rw [String.utf8ByteSize_append, String.utf8ByteSize_append] at hlt
    omega

end Overlaps

/-- The text of a label in the code tells a function's labels apart. -/
theorem localLabel_inj {function label other : String} :
    localLabel function label = localLabel function other ↔ label = other :=
  String.append_right_inj _

/-- Where one numeral begins with the other, either it ends with it or it is continued in the
name that follows the other one. -/
theorem eq_or_overlaps_of_numeral {function label other otherLabel digits : String}
    (hsize : toString other.utf8ByteSize = toString function.utf8ByteSize ++ digits)
    (h : function ++ ("." ++ label) = digits ++ (other ++ ("." ++ otherLabel))) :
    (function = other ∧ label = otherLabel) ∨ Overlaps function label other otherLabel := by
  by_cases hdigits : digits = ""
  · rw [hdigits, String.append_empty] at hsize
    rw [hdigits, String.empty_append] at h
    obtain ⟨hname, hlabels⟩ := append_inj_of_utf8ByteSize h (toString_inj.mp hsize).symm
    exact .inl ⟨hname, (String.append_right_inj ".").mp hlabels⟩
  · exact .inr (.of_numeral hdigits hsize h)

/-- Labels with the same text are the same, or one numeral is continued in the name that follows
the other one. -/
theorem eq_or_overlaps_of_localLabel_eq {function label other otherLabel : String}
    (h : localLabel function label = localLabel other otherLabel) :
    (function = other ∧ label = otherLabel) ∨
      Overlaps function label other otherLabel ∨ Overlaps other otherLabel function label := by
  simp only [localLabel, String.append_assoc, String.append_right_inj] at h
  rcases append_eq_append h with ⟨digits, hsize, htexts⟩ | ⟨digits, hsize, htexts⟩
  · exact (eq_or_overlaps_of_numeral hsize htexts).imp_right .inl
  · exact (eq_or_overlaps_of_numeral hsize htexts).imp (fun h => ⟨h.1.symm, h.2.symm⟩) .inr

/-- Two labels have the same text in the code exactly if they are the same label of the same
function, or the numeral of one name is continued in the name that follows the other one. -/
theorem localLabel_eq_iff {function label other otherLabel : String} :
    localLabel function label = localLabel other otherLabel ↔
      (function = other ∧ label = otherLabel) ∨
        Overlaps function label other otherLabel ∨ Overlaps other otherLabel function label := by
  refine ⟨eq_or_overlaps_of_localLabel_eq, ?_⟩
  rintro (⟨rfl, rfl⟩ | h | h)
  · rfl
  · exact h.localLabel_eq
  · exact h.localLabel_eq.symm

namespace Program

/-- Two functions whose names make the labels in them the same text. -/
def overlappingLabels : Program where
  functions := [
    { name := "main", params := [], locals := [],
      code := [
        .call "1x" [] none,
        .call "x.aaaaaaaaaaaaaaaaaaa" [] none,
        .ret (some (.int 0))] },
    { name := "1x", params := [], locals := [],
      code := [
        .label "aaaaaaaaaaaaaaaaaaa.b",
        .call "printInt" [.int 1] none,
        .ret none] },
    { name := "x.aaaaaaaaaaaaaaaaaaa", params := [], locals := [],
      code := [
        .label "b",
        .call "printInt" [.int 2] none,
        .ret none] }]

/-- The size 2 of the name `1x` and its digit are also the size 21 of the other name. Each label is
declared once and the program runs, but it cannot be laid out. -/
theorem assemble_overlappingLabels :
    localLabel "1x" "aaaaaaaaaaaaaaaaaaa.b" = localLabel "x.aaaaaaaaaaaaaaaaaaa" "b" ∧
      (∀ function ∈ overlappingLabels.functions, function.labels.Nodup) ∧
      overlappingLabels.run? .standard 20 = some ⟨["1", "2"], .ok (.int 0)⟩ ∧
      ∃ asm, overlappingLabels.compile LinearScan.standard.assign = .ok asm ∧
        asm.assemble = .error .badLabel := by
  refine ⟨by decide, by decide, rfl, ?_⟩
  have hbuilt : (match overlappingLabels.compile LinearScan.standard.assign with
      | .ok asm => decide (asm.assemble = .error .badLabel)
      | .error _ => false) = true := by decide +kernel
  split at hbuilt
  next asm hcompile => exact ⟨asm, hcompile, of_decide_eq_true hbuilt⟩
  next => cases hbuilt

end Program

end ThreeAddress
