import Mathlib.Data.List.Chain
import Mathlib.Tactic.IntervalCases
import ThreeAddress.Json.Lexer

/-!
# Tokens are read back

The characters of tokens are read as those tokens. A string escapes whatever would
end it or could not stand in it, so its parts make up the text again; a number ends
where something stands that cannot continue it, which in a value is always a comma or
a closing bracket.
-/

namespace ThreeAddress.Json

variable {done : List Token} {rest : List (Option Char)}

/-- One character that completes some tokens. -/
theorem tokensFrom_cons {place next : Place} {char : Option Char} {tokens : List Token}
    (h : place.read char = some (tokens, next)) :
    tokensFrom done place (char :: rest) = tokensFrom (tokens.reverse ++ done) next rest := by
  rw [tokensFrom, h]

/-- One character that completes nothing. -/
theorem tokensFrom_step {place : Place} (next : Place) {char : Option Char}
    (h : place.read char = some ([], next)) :
    tokensFrom done place (char :: rest) = tokensFrom done next rest :=
  tokensFrom_cons h

/-! ## Strings -/

/-- A part of a string makes up one character, whatever part follows it. -/
def Piece.StandsFor (piece : Piece) (char : Char) : Prop :=
  ∀ pieces, chars? (piece :: pieces) = (chars? pieces).map (char :: ·)

theorem Piece.char_standsFor (char : Char) : (Piece.char char).StandsFor char :=
  fun _ => rfl

/-- The code of a control character is no half of a surrogate pair. -/
theorem Piece.unit_standsFor {char : Char} (h : char.toNat < 0x20) :
    (Piece.unit char.toNat).StandsFor char := by
  have hhigh : isHighSurrogate char.toNat = false := by simp [isHighSurrogate]; omega
  have hlow : isLowSurrogate char.toNat = false := by simp [isLowSurrogate]; omega
  intro pieces
  rcases pieces with _ | ⟨_ | _ | _, _⟩ <;> simp [chars?, hhigh, hlow]

theorem hexValue?_digitChar : ∀ digit < 16, hexValue? digit.digitChar = some digit := by
  decide

/-- The four digits of a unit code. -/
theorem tokensFrom_hexDigits4 {code : Nat} (h : code < 65536) (pieces : List Piece) :
    tokensFrom done (.code pieces 4 0) ((hexDigits4 code).map some ++ rest) =
      tokensFrom done (.string (.unit code :: pieces)) rest := by
  have hvalue : ∀ place, hexValue? (place % 16).digitChar = some (place % 16) :=
    fun place => hexValue?_digitChar _ (Nat.mod_lt _ (by decide))
  have hcode : ((code / 4096 % 16 * 16 + code / 256 % 16) * 16 + code / 16 % 16) * 16 +
      code % 16 = code := by omega
  simp [hexDigits4, tokensFrom, Place.read, hvalue, hcode]

/-- What a character is written as inside a string is read as one part, which stands for it. -/
theorem exists_piece (char : Char) : ∃ piece : Piece, piece.StandsFor char ∧
    ∀ (done : List Token) (pieces : List Piece) (rest : List (Option Char)),
      tokensFrom done (.string pieces) ((escapeChar char).map some ++ rest) =
        tokensFrom done (.string (piece :: pieces)) rest := by
  have hescaped : ∀ {letter : Char}, escaped? letter = some char → letter ≠ 'u' →
      ∀ (done : List Token) (pieces : List Piece) (rest : List (Option Char)),
        tokensFrom done (.string pieces) (['\\', letter].map some ++ rest) =
          tokensFrom done (.string (.char char :: pieces)) rest := by
    intro letter hletter hu done pieces rest
    simp [tokensFrom, Place.read, hletter, hu]
  unfold escapeChar
  split
  case h_8 hquote hbackslash _ _ _ _ _ =>
    split
    next hcontrol =>
      refine ⟨.unit char.toNat, Piece.unit_standsFor hcontrol, fun done pieces rest => ?_⟩
      rw [List.map_cons, List.cons_append, tokensFrom_step (.escape pieces) rfl,
        List.map_cons, List.cons_append, tokensFrom_step (.code pieces 4 0) rfl]
      exact tokensFrom_hexDigits4 (by omega) pieces
    next hprinted =>
      refine ⟨.char char, Piece.char_standsFor char, fun done pieces rest => ?_⟩
      rw [List.map_singleton, List.singleton_append]
      refine tokensFrom_step _ ?_
      rw [Place.read, if_neg hquote, if_neg hbackslash, if_neg hprinted]
  all_goals exact ⟨.char _, Piece.char_standsFor _, hescaped rfl (by decide)⟩

/-- The characters between the quotes are read as parts that make up the text. -/
theorem exists_pieces (text : List Char) : ∃ read, Piece.chars? read = some text ∧
    ∀ (done : List Token) (pieces : List Piece) (rest : List (Option Char)),
      tokensFrom done (.string pieces) ((text.flatMap escapeChar).map some ++ rest) =
        tokensFrom done (.string (read.reverse ++ pieces)) rest := by
  induction text with
  | nil => exact ⟨[], rfl, fun _ _ _ => rfl⟩
  | cons char text ih =>
      obtain ⟨piece, hpiece, hread⟩ := exists_piece char
      obtain ⟨read, hchars, hrest⟩ := ih
      refine ⟨piece :: read, ?_, fun done pieces rest => ?_⟩
      · rw [hpiece, hchars, Option.map_some]
      · rw [List.flatMap_cons, List.map_append, List.append_assoc, hread, hrest,
          List.reverse_cons, List.append_assoc]
        rfl

theorem tokensFrom_string (text : String) :
    tokensFrom done .between ((stringChars text).map some ++ rest) =
      tokensFrom (.string (some text) :: done) .between rest := by
  obtain ⟨read, hchars, hread⟩ := exists_pieces text.toList
  have hopen : Place.read .between (some '"') = some ([], .string []) := rfl
  have hclose : Place.read (.string read.reverse) (some '"') =
      some ([.string (some text)], .between) := by
    simp [Place.read, stringToken, hchars]
  rw [stringChars, List.cons_append, List.map_cons, List.cons_append, tokensFrom_cons hopen,
    List.map_append, List.append_assoc, hread, List.append_nil, List.map_singleton,
    List.singleton_append, tokensFrom_cons hclose]
  rfl

/-! ## Numbers -/

/-- What comes next cannot belong to a number. -/
def EndsNumber (rest : List (Option Char)) : Prop :=
  ∀ char, rest.head? = some (some char) →
    char.isDigit = false ∧ char ≠ '.' ∧ char ≠ 'e' ∧ char ≠ 'E'

/-- A number that may end here does so. -/
theorem tokensFrom_number {state : NumberState} {token : Token}
    (hpart : state.part = .zero ∨ state.part = .digits) (htoken : state.token? = some token)
    (hrest : EndsNumber rest) :
    tokensFrom done (.number state) rest = tokensFrom (token :: done) .between rest := by
  cases rest with
  | nil => simp [tokensFrom, Place.finish, htoken]
  | cons next rest =>
      cases next with
      | none => rfl
      | some char =>
          obtain ⟨hdigit, hpoint, hlower, hupper⟩ := hrest char rfl
          have hextend : state.extend char = none := by
            rcases hpart with hpart | hpart <;>
              simp [NumberState.extend, hpart, hdigit, hpoint, hlower, hupper]
          simp only [tokensFrom, Place.read, hextend, htoken]
          cases begin? char with
          | none => rfl
          | some next => simp

theorem digitValue_digitChar {digit : Nat} (h : digit < 10) :
    digitValue digit.digitChar = digit := by
  rw [digitValue, Nat.toNat_digitChar_of_lt_ten h]
  exact Nat.add_sub_cancel_left 48 digit

theorem isDigit_digitChar {digit : Nat} (h : digit < 10) : digit.digitChar.isDigit = true := by
  rw [Nat.isDigit_digitChar, decide_eq_true h]

/-- The digits of a number, from a place where its first digit begins it. -/
theorem tokensFrom_digits {place : Place} (negative : Bool)
    (hfirst : ∀ digit, 0 < digit → digit < 10 →
      place.read (some digit.digitChar) = some ([], .number ⟨negative, digit, .digits⟩))
    {value : Nat} (hpos : 0 < value) (rest : List (Option Char)) :
    tokensFrom done place ((Nat.toDigits 10 value).map some ++ rest) =
      tokensFrom done (.number ⟨negative, value, .digits⟩) rest := by
  induction value using Nat.strongRecOn generalizing rest with
  | ind value ih =>
      by_cases hlt : value < 10
      · rw [Nat.toDigits_of_lt_base hlt]
        exact tokensFrom_step _ (hfirst value hpos hlt)
      · have hlast := Nat.mod_lt value (show 10 > 0 by decide)
        rw [Nat.toDigits_of_base_le (by decide) (Nat.le_of_not_lt hlt), List.map_append,
          List.append_assoc, ih (value / 10) (by omega) (by omega), List.map_singleton,
          List.singleton_append]
        refine tokensFrom_step _ ?_
        simp only [Place.read, NumberState.extend, isDigit_digitChar hlast, if_true,
          digitValue_digitChar hlast]
        rw [Nat.div_add_mod']

theorem tokensFrom_int (value : Int) (hrest : EndsNumber rest) :
    tokensFrom done .between ((toString value).toList.map some ++ rest) =
      tokensFrom (.number (some value) :: done) .between rest := by
  rw [Int.toString_eq_repr, Int.repr_eq_if]
  split
  next hnonneg =>
    obtain ⟨magnitude, rfl⟩ := Int.eq_ofNat_of_zero_le hnonneg
    rw [Int.toNat_natCast, Nat.toList_repr]
    by_cases hzero : magnitude = 0
    · subst hzero
      rw [Nat.toDigits_zero]
      exact (tokensFrom_step (.number ⟨false, 0, .zero⟩) rfl).trans
        (tokensFrom_number (.inl rfl) rfl hrest)
    · refine (tokensFrom_digits false ?_ (Nat.pos_of_ne_zero hzero) rest).trans
        (tokensFrom_number (.inr rfl) rfl hrest)
      intro digit hpos hlt
      interval_cases digit <;> rfl
  next hnegative =>
    obtain ⟨magnitude, hmagnitude⟩ := Int.eq_ofNat_of_zero_le (show 0 ≤ -value by omega)
    have hvalue : value = -(magnitude : Int) := by omega
    rw [hmagnitude, Int.toNat_natCast, String.toList_append, Nat.toList_repr, List.map_append,
      List.append_assoc]
    refine (tokensFrom_step (.number ⟨true, 0, .sign⟩) rfl).trans ?_
    refine (tokensFrom_digits true ?_ (show 0 < magnitude by omega) rest).trans
      (tokensFrom_number (.inr rfl) (by simp [NumberState.token?, hvalue]) hrest)
    intro digit hpos hlt
    interval_cases digit <;> rfl

/-! ## All tokens -/

/-- A token that stands for a value. -/
def Token.Plain : Token → Prop
  | number none | string none => False
  | _ => True

/-- A token ends where the next one begins. After a number that has to be seen from the next
one. -/
def Token.EndsBefore : Token → Token → Prop
  | number _, next => next = comma ∨ next = closeBracket ∨ next = closeBrace
  | _, _ => True

theorem tokensFrom_token {token : Token} (h : token.Plain)
    (hrest : ∀ value, token = .number value → EndsNumber rest) :
    tokensFrom done .between (token.chars.map some ++ rest) =
      tokensFrom (token :: done) .between rest := by
  cases token with
  | number value =>
      cases value with
      | none => exact h.elim
      | some value => exact tokensFrom_int value (hrest _ rfl)
  | string text =>
      cases text with
      | none => exact h.elim
      | some text => exact tokensFrom_string text
  | bool value => cases value <;> rfl
  | _ => rfl

theorem tokensFrom_chars {tokens : List Token} (hplain : ∀ token ∈ tokens, token.Plain)
    (hends : tokens.IsChain Token.EndsBefore) (done : List Token) :
    tokensFrom done .between ((tokens.flatMap Token.chars).map some) =
      some (done.reverse ++ tokens) := by
  induction tokens generalizing done with
  | nil => rfl
  | cons token rest ih =>
      obtain ⟨htoken, hothers⟩ := List.forall_mem_cons.mp hplain
      rw [List.flatMap_cons, List.map_append, tokensFrom_token htoken, ih hothers hends.tail]
      · simp
      · rintro value rfl char hchar
        cases rest with
        | nil => cases hchar
        | cons next rest =>
            rcases hends.rel with rfl | rfl | rfl <;>
              obtain rfl := Option.some.inj (Option.some.inj hchar) <;> decide

/-- Tokens are read back from their characters. -/
theorem tokens?_chars {tokens : List Token} (hplain : ∀ token ∈ tokens, token.Plain)
    (hends : tokens.IsChain Token.EndsBefore) :
    tokens? ((tokens.flatMap Token.chars).map some) = some tokens :=
  tokensFrom_chars hplain hends []

end ThreeAddress.Json
