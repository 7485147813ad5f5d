import Mathlib.Data.List.Basic
import Mathlib.Data.List.TakeWhile
import ThreeAddress.Asm.Listing

/-!
# Strings in assembly text

An assembler reads a string up to the next quote that no backslash escapes. A backslash
with octal digits takes as many of them as there are, up to three, so what a byte is written
as must not depend on what follows it. Bytes in octal are written with all three digits, and
so each byte is read back whatever comes next.
-/

namespace ThreeAddress

def isOctalDigit (char : Char) : Bool := decide ('0' ≤ char) && decide (char ≤ '7')

/-- The number that octal digits stand for. -/
def octalValue (digits : List Char) : Nat :=
  digits.foldl (fun value digit => 8 * value + (digit.toNat - '0'.toNat)) 0

/-- The byte that the text after a backslash stands for, and the number of characters that it
takes. -/
def readEscape? : List Char → Option (UInt8 × Nat)
  | '"' :: _ => some (0x22, 1)
  | '\\' :: _ => some (0x5C, 1)
  | 'n' :: _ => some (0x0A, 1)
  | 't' :: _ => some (0x09, 1)
  | text =>
      let digits := (text.take 3).takeWhile isOctalDigit
      if digits = [] then none else some (.ofNat (octalValue digits), digits.length)

/-- Reads the text after the opening quote of a string: the bytes of the string, and what comes
after its closing quote, which has to be on the same line. -/
def readString? : List Char → Option (List UInt8 × List Char)
  | [] => none
  | '"' :: rest => some ([], rest)
  | '\n' :: _ => none
  | '\\' :: rest =>
      match readEscape? rest with
      | none => none
      | some (byte, count) =>
          (readString? (rest.drop count)).map fun (bytes, after) => (byte :: bytes, after)
  | char :: rest =>
      (readString? rest).map fun (bytes, after) => (String.utf8EncodeChar char ++ bytes, after)
termination_by text => text.length
decreasing_by all_goals simp only [List.length_drop, List.length_cons]; omega

/-- A printed character of ASCII, or the blank. -/
def isPrintable (char : Char) : Bool := decide (' ' ≤ char) && decide (char ≤ '~')

/-- A text ends with a backslash that escapes what comes next: there is an odd number of them. -/
def Unpaired (text : List Char) : Prop :=
  (text.reverse.takeWhile (· = '\\')).length % 2 = 1

instance (text : List Char) : Decidable (Unpaired text) :=
  inferInstanceAs (Decidable (_ = _))

/-! ## Reading bytes back -/

theorem digitChar_octal :
    ∀ digit < 8, isOctalDigit (Nat.digitChar digit) = true ∧
      (Nat.digitChar digit).toNat - '0'.toNat = digit := by decide

theorem isOctalDigit_of_mem {byte : UInt8} :
    ∀ char ∈ octalDigits byte, isOctalDigit char = true := by
  have hbyte := byte.toNat_lt
  intro char hchar
  obtain ⟨digit, hdigit, rfl⟩ := List.mem_map.mp hchar
  simp only [List.mem_cons, List.not_mem_nil, or_false] at hdigit
  exact (digitChar_octal digit (by omega)).1

theorem octalValue_octalDigits (byte : UInt8) : octalValue (octalDigits byte) = byte.toNat := by
  have hbyte := byte.toNat_lt
  have hhigh := (digitChar_octal (byte.toNat / 64) (by omega)).2
  have hmiddle := (digitChar_octal (byte.toNat / 8 % 8) (by omega)).2
  have hlow := (digitChar_octal (byte.toNat % 8) (by omega)).2
  simp only [octalValue, octalDigits, List.map_cons, List.map_nil, List.foldl_cons,
    List.foldl_nil, hhigh, hmiddle, hlow]
  omega

theorem length_octalDigits (byte : UInt8) : (octalDigits byte).length = 3 := rfl

/-- An octal digit begins a number. -/
theorem readEscape?_of_isOctalDigit {digit : Char} {rest digits : List Char}
    (h : isOctalDigit digit = true)
    (hdigits : ((digit :: rest).take 3).takeWhile isOctalDigit = digits) :
    readEscape? (digit :: rest) = some (.ofNat (octalValue digits), digits.length) := by
  have hne : digit ≠ '"' ∧ digit ≠ '\\' ∧ digit ≠ 'n' ∧ digit ≠ 't' := by
    refine ⟨?_, ?_, ?_, ?_⟩ <;> rintro rfl <;> cases h
  simp [readEscape?, hne, h, ← hdigits]

/-- All three digits are read, and none after them. -/
theorem readEscape?_octalDigits (byte : UInt8) (rest : List Char) :
    readEscape? (octalDigits byte ++ rest) = some (byte, 3) := by
  have hdigits : ((octalDigits byte ++ rest).take 3).takeWhile isOctalDigit =
      octalDigits byte := by
    rw [List.take_left' (length_octalDigits byte)]
    exact List.takeWhile_eq_self_iff.mpr isOctalDigit_of_mem
  have hfirst : isOctalDigit (Nat.digitChar (byte.toNat / 64)) = true :=
    isOctalDigit_of_mem _ List.mem_cons_self
  refine (readEscape?_of_isOctalDigit hfirst hdigits).trans ?_
  rw [octalValue_octalDigits, UInt8.ofNat_toNat, length_octalDigits]

theorem readString?_of_readEscape? {escape rest : List Char} {byte : UInt8}
    (h : readEscape? (escape ++ rest) = some (byte, escape.length)) :
    readString? ('\\' :: (escape ++ rest)) =
      (readString? rest).map fun (bytes, after) => (byte :: bytes, after) := by
  rw [readString?, h]
  dsimp only
  rw [List.drop_left]

theorem readString?_of_plain {char : Char} (hquote : char ≠ '"') (hline : char ≠ '\n')
    (hbackslash : char ≠ '\\') (rest : List Char) :
    readString? (char :: rest) =
      (readString? rest).map fun (bytes, after) =>
        (String.utf8EncodeChar char ++ bytes, after) := by
  rw [readString?] <;> simp_all

theorem ofNat_of_printable :
    ∀ number < 127, 32 ≤ number → (Char.ofNat number).toNat = number ∧
      String.utf8EncodeChar (Char.ofNat number) = [UInt8.ofNat number] ∧
      isPrintable (Char.ofNat number) = true := by decide

/-- How a byte is written. -/
inductive Escaped : UInt8 → List Char → Prop
  | quote : Escaped 0x22 ['\\', '"']
  | backslash : Escaped 0x5C ['\\', '\\']
  | line : Escaped 0x0A ['\\', 'n']
  | tab : Escaped 0x09 ['\\', 't']
  | plain {byte : UInt8} {char : Char} (hquote : char ≠ '"') (hline : char ≠ '\n')
      (hbackslash : char ≠ '\\') (hbyte : String.utf8EncodeChar char = [byte])
      (hprintable : isPrintable char = true) : Escaped byte [char]
  | octal (byte : UInt8) : Escaped byte ('\\' :: octalDigits byte)

/-- A printed byte other than those with an escape of their own stands for itself. -/
theorem Escaped.of_printable {byte : UInt8} (hquote : byte ≠ 0x22) (hbackslash : byte ≠ 0x5C)
    (hlow : 0x20 ≤ byte) (hhigh : byte ≤ 0x7E) : Escaped byte [Char.ofNat byte.toNat] := by
  have hlow' : 32 ≤ byte.toNat := UInt8.le_iff_toNat_le.mp hlow
  have hhigh' : byte.toNat ≤ 126 := UInt8.le_iff_toNat_le.mp hhigh
  obtain ⟨hnumber, hbyte, hprintable⟩ := ofNat_of_printable byte.toNat (by omega) hlow'
  rw [UInt8.ofNat_toNat] at hbyte
  refine .plain (fun heq => ?_) (fun heq => ?_) (fun heq => ?_) hbyte hprintable
  · exact hquote (UInt8.toNat_inj.mp (hnumber.symm.trans (congrArg Char.toNat heq)))
  · have hten : byte.toNat = 10 := hnumber.symm.trans (congrArg Char.toNat heq)
    omega
  · exact hbackslash (UInt8.toNat_inj.mp (hnumber.symm.trans (congrArg Char.toNat heq)))

theorem escaped_escapeByte (byte : UInt8) : Escaped byte (escapeByte byte) := by
  unfold escapeByte
  split
  next h => exact h ▸ .quote
  next hquote =>
    split
    next h => exact h ▸ .backslash
    next hbackslash =>
      split
      next h => exact h ▸ .line
      next =>
        split
        next h => exact h ▸ .tab
        next =>
          split
          next h => exact .of_printable hquote hbackslash h.1 h.2
          next => exact .octal byte

/-- A written byte is read back, whatever comes next. -/
theorem Escaped.reads {byte : UInt8} {written : List Char} (h : Escaped byte written)
    (rest : List Char) :
    readString? (written ++ rest) =
      (readString? rest).map fun (bytes, after) => (byte :: bytes, after) := by
  cases h with
  | quote => exact @readString?_of_readEscape? ['"'] rest _ rfl
  | backslash => exact @readString?_of_readEscape? ['\\'] rest _ rfl
  | line => exact @readString?_of_readEscape? ['n'] rest _ rfl
  | tab => exact @readString?_of_readEscape? ['t'] rest _ rfl
  | plain hquote hline hbackslash hbyte _ =>
      exact (readString?_of_plain hquote hline hbackslash rest).trans (by rw [hbyte]; rfl)
  | octal => exact readString?_of_readEscape? (readEscape?_octalDigits byte rest)

theorem readString?_flatMap (bytes : List UInt8) (rest : List Char) :
    readString? (bytes.flatMap escapeByte ++ '"' :: rest) = some (bytes, rest) := by
  induction bytes with
  | nil => simp [readString?]
  | cons byte bytes ih =>
      rw [List.flatMap_cons, List.append_assoc, (escaped_escapeByte byte).reads, ih]
      rfl

/-! ## The characters of a written string -/

theorem Escaped.printable {byte : UInt8} {written : List Char} (h : Escaped byte written) :
    ∀ char ∈ written, isPrintable char = true := by
  have hoctal : ∀ char : Char, isOctalDigit char = true → isPrintable char = true := by
    intro char hdigit
    simp only [isOctalDigit, isPrintable, Bool.and_eq_true, decide_eq_true_eq]
      at hdigit ⊢
    exact ⟨Char.le_trans (by decide) hdigit.1, Char.le_trans hdigit.2 (by decide)⟩
  cases h with
  | quote | backslash | line | tab => exact List.all_eq_true.mp rfl
  | plain _ _ _ _ hprintable => exact List.forall_mem_singleton.mpr hprintable
  | octal =>
      exact List.forall_mem_cons.mpr
        ⟨rfl, fun char hchar => hoctal char (isOctalDigit_of_mem char hchar)⟩

theorem unpaired_concat {text : List Char} {char : Char} :
    Unpaired (text ++ [char]) ↔ char = '\\' ∧ ¬ Unpaired text := by
  unfold Unpaired
  rw [List.reverse_append, List.reverse_singleton, List.singleton_append, List.takeWhile_cons]
  by_cases hchar : char = '\\'
  · simp only [hchar, decide_true, if_true, List.length_cons, true_and]
    omega
  · simp [hchar]

/-- A written byte leaves no backslash without what it escapes. -/
theorem Escaped.not_unpaired {byte : UInt8} {written before : List Char}
    (h : Escaped byte written) (hbefore : ¬ Unpaired before) : ¬ Unpaired (before ++ written) := by
  have hpair : ∀ char, ¬ Unpaired (before ++ ['\\', char]) := by
    intro char hunpaired
    rw [← List.singleton_append, ← List.append_assoc, unpaired_concat] at hunpaired
    exact hunpaired.2 (unpaired_concat.mpr ⟨rfl, hbefore⟩)
  cases h with
  | quote | backslash | line | tab => exact hpair _
  | plain _ _ hbackslash => exact fun hunpaired => hbackslash (unpaired_concat.mp hunpaired).1
  | octal =>
      intro hunpaired
      have hlast : before ++ '\\' :: octalDigits byte =
          (before ++ '\\' :: (octalDigits byte).take 2) ++ [Nat.digitChar (byte.toNat % 8)] := by
        simp [octalDigits]
      rw [hlast, unpaired_concat] at hunpaired
      have hdigit := (digitChar_octal (byte.toNat % 8) (Nat.mod_lt _ (by omega))).1
      rw [hunpaired.1] at hdigit
      cases hdigit

/-- The only quote in a written byte comes right after its backslash. -/
theorem Escaped.eq_of_quote {byte : UInt8} {before after : List Char}
    (h : Escaped byte (before ++ '"' :: after)) : before = ['\\'] := by
  have hmem : '"' ∈ before ++ '"' :: after := List.mem_append_right _ List.mem_cons_self
  generalize hwritten : before ++ '"' :: after = written at h hmem
  cases h with
  | quote =>
      cases before with
      | nil => cases hwritten
      | cons first rest =>
          obtain ⟨rfl, hrest⟩ := List.cons.inj hwritten
          cases rest with
          | nil => rfl
          | cons => simp at hrest
  | backslash | line | tab => simp at hmem
  | plain hquote => exact absurd (List.mem_singleton.mp hmem).symm hquote
  | octal =>
      rcases List.mem_cons.mp hmem with hquote | hquote
      · cases hquote
      · cases isOctalDigit_of_mem _ hquote

theorem unpaired_of_quote {bytes : List UInt8} {start before after : List Char}
    (hstart : ¬ Unpaired start) (h : bytes.flatMap escapeByte = before ++ '"' :: after) :
    Unpaired (start ++ before) := by
  induction bytes generalizing start before with
  | nil => simp at h
  | cons byte bytes ih =>
      have hbyte := escaped_escapeByte byte
      rw [List.flatMap_cons] at h
      rcases List.append_eq_append_iff.mp h with ⟨between, rfl, hrest⟩ | ⟨between, hfirst, hrest⟩
      · -- The quote is in what comes after the first byte.
        rw [← List.append_assoc]
        exact ih (hbyte.not_unpaired hstart) hrest
      · cases between with
        | nil =>
            rw [List.append_nil] at hfirst
            rw [← hfirst, ← List.append_nil (start ++ _)]
            exact ih (hbyte.not_unpaired hstart) hrest.symm
        | cons char between =>
            obtain ⟨rfl, _⟩ := List.cons.inj hrest
            rw [hfirst] at hbyte
            rw [hbyte.eq_of_quote]
            exact unpaired_concat.mpr ⟨rfl, hstart⟩

/-! ## Strings in listings -/

theorem toList_escapeAssembly (text : String) :
    (escapeAssembly text).toList = text.toByteArray.data.toList.flatMap escapeByte := by
  rw [escapeAssembly, String.toList_ofList, ← String.utf8Encode_toList]
  simp [Text.encode, List.utf8Encode]

theorem literalLines_eq {texts : List String} {index : Nat} {text : String}
    (h : texts[index]? = some text) (start : Nat) :
    ∃ before after, literalLines start texts =
      before ++ LiteralPool.label (start + index) ++ ":\n\t.asciz \"" ++ escapeAssembly text ++
        "\"\n" ++ after := by
  induction texts generalizing index start with
  | nil => simp at h
  | cons first rest ih =>
      cases index with
      | zero =>
          obtain rfl := Option.some.inj h
          exact ⟨"", literalLines (start + 1) rest, by simp [literalLines, String.append_assoc]⟩
      | succ index =>
          obtain ⟨before, after, hlines⟩ := ih h (start + 1)
          refine ⟨LiteralPool.label start ++ ":\n" ++ "\t.asciz \"" ++ escapeAssembly first ++
            "\"\n" ++ before, after, ?_⟩
          rw [literalLines, hlines, show start + 1 + index = start + (index + 1) by omega]
          simp only [String.append_assoc]

theorem AsmProgram.text_eq {program : AsmProgram} {index : Nat} {text : String}
    (h : program.literals.get? index = some text) :
    ∃ before after, program.text =
      before ++ LiteralPool.label index ++ ":\n\t.asciz \"" ++ escapeAssembly text ++
        "\"\n" ++ after := by
  obtain ⟨before, after, hlines⟩ := literalLines_eq h 0
  have hnonempty : program.literals.texts.isEmpty = false :=
    List.isEmpty_eq_false_iff.mpr (List.ne_nil_of_mem (List.mem_of_getElem? h))
  refine ⟨"\t.text\n" ++ String.join (program.routines.map Routine.text) ++ "\t.data\n" ++ before,
    after, ?_⟩
  rw [AsmProgram.text, hnonempty, if_neg Bool.false_ne_true, hlines, Nat.zero_add]
  simp only [String.append_assoc]

/-- A text that is written into assembly text is read back byte for byte, up to the quote that
closes it and no further. It is written in printed ASCII on one line, and each quote within it is
escaped by the backslash before it. In a listing each literal stands like this at its label. -/
theorem escapeAssembly_reads_back (text : String) :
    (∀ rest, readString? ((escapeAssembly text).toList ++ '"' :: rest) =
      some (text.toByteArray.data.toList, rest)) ∧
    (∀ char ∈ (escapeAssembly text).toList, isPrintable char = true) ∧
    (∀ before after, (escapeAssembly text).toList = before ++ '"' :: after → Unpaired before) ∧
    ∀ (program : AsmProgram) (index : Nat), program.literals.get? index = some text →
      ∃ before after, program.text =
        before ++ LiteralPool.label index ++ ":\n\t.asciz \"" ++ escapeAssembly text ++
          "\"\n" ++ after := by
  have hempty : ¬ Unpaired [] := by decide
  rw [toList_escapeAssembly]
  refine ⟨readString?_flatMap _, fun char hchar => ?_, fun before after h => ?_,
    fun program index h => AsmProgram.text_eq h⟩
  · obtain ⟨byte, _, hchar⟩ := List.mem_flatMap.mp hchar
    exact (escaped_escapeByte byte).printable char hchar
  · exact unpaired_of_quote hempty h

/-- A digit after a byte in octal is not taken for a part of it. -/
example : escapeAssembly "\x017\"é" = "\\0017\\\"\\303\\251" := by decide

end ThreeAddress
