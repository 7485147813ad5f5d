import Mathlib.Data.List.TakeWhile
import Mathlib.Tactic.Common
import ThreeAddress.Native.Console

/-!
# Texts and their bytes

Reading the bytes of a text gives back the text, character by character. The only
character with a zero byte is the zero character, so other texts are printed
whole from memory in which a zero follows them.
-/

namespace ThreeAddress.Text

theorem toNat_ofNat {value : Nat} (h : value < 256) : (UInt8.ofNat value).toNat = value := by
  rw [UInt8.toNat_ofNat', Nat.mod_eq_of_lt h]

/-- A byte where a character may begin, by its number. -/
theorem readFirst_ofNat {value : Nat} (h : value < 256) :
    readFirst (UInt8.ofNat value) =
      if value < 128 then ([some (Char.ofNat value)], none)
      else if value < 194 then ([none], none)
      else if value < 224 then ([], some ⟨1, 0x80, 0xBF, value - 192⟩)
      else if value = 224 then ([], some ⟨2, 0xA0, 0xBF, 0⟩)
      else if value = 237 then ([], some ⟨2, 0x80, 0x9F, 13⟩)
      else if value < 240 then ([], some ⟨2, 0x80, 0xBF, value - 224⟩)
      else if value = 240 then ([], some ⟨3, 0x90, 0xBF, 0⟩)
      else if value < 244 then ([], some ⟨3, 0x80, 0xBF, value - 240⟩)
      else if value = 244 then ([], some ⟨3, 0x80, 0x8F, 4⟩)
      else ([none], none) := by
  simp only [readFirst, UInt8.lt_iff_toNat_lt, ← UInt8.toNat_inj, toNat_ofNat h]
  rfl

/-- The last byte of a character that has begun. -/
theorem decodeFrom_last {least greatest : UInt8} {bits value : Nat} (rest : List UInt8)
    (hvalue : value < 64) (hleast : least.toNat ≤ value + 128)
    (hgreatest : value + 128 ≤ greatest.toNat) :
    decodeFrom (some ⟨1, least, greatest, bits⟩) (UInt8.ofNat (value + 128) :: rest) =
      some (Char.ofNat (bits * 64 + value)) :: decodeFrom none rest := by
  have hbyte := toNat_ofNat (show value + 128 < 256 by omega)
  have hrange : least ≤ UInt8.ofNat (value + 128) ∧ UInt8.ofNat (value + 128) ≤ greatest := by
    rw [UInt8.le_iff_toNat_le, UInt8.le_iff_toNat_le, hbyte]
    exact ⟨hleast, hgreatest⟩
  rw [decodeFrom, readByte, if_pos hrange, if_pos (Nat.le_refl 1), hbyte, Nat.add_sub_cancel]
  rfl

/-- A byte within the range of a character that has begun, which needs more bytes. -/
theorem decodeFrom_more {least greatest : UInt8} {needed bits value : Nat} (rest : List UInt8)
    (hvalue : value < 64) (hleast : least.toNat ≤ value + 128)
    (hgreatest : value + 128 ≤ greatest.toNat) :
    decodeFrom (some ⟨needed + 2, least, greatest, bits⟩) (UInt8.ofNat (value + 128) :: rest) =
      decodeFrom (some ⟨needed + 1, 0x80, 0xBF, bits * 64 + value⟩) rest := by
  have hbyte := toNat_ofNat (show value + 128 < 256 by omega)
  have hrange : least ≤ UInt8.ofNat (value + 128) ∧ UInt8.ofNat (value + 128) ≤ greatest := by
    rw [UInt8.le_iff_toNat_le, UInt8.le_iff_toNat_le, hbyte]
    exact ⟨hleast, hgreatest⟩
  have hneeded : ¬ needed + 2 ≤ 1 := by omega
  rw [decodeFrom, readByte, if_pos hrange, if_neg hneeded, hbyte, Nat.add_sub_cancel]
  rfl

theorem readFirst_three {value : Nat} (hlow : 2047 < value) (hhigh : value ≤ 65535)
    (hsurrogate : value < 55296 ∨ 57343 < value) :
    ∃ least greatest : UInt8,
      readFirst (UInt8.ofNat (value / 4096 % 16 + 224)) =
        ([], some ⟨2, least, greatest, value / 4096⟩) ∧
      least.toNat ≤ value / 64 % 64 + 128 ∧ value / 64 % 64 + 128 ≤ greatest.toNat := by
  rw [readFirst_ofNat (by omega), if_neg (by omega), if_neg (by omega), if_neg (by omega)]
  by_cases hfirst : value / 4096 = 0
  · refine ⟨0xA0, 0xBF, ?_, ?_, ?_⟩
    · rw [if_pos (by omega), hfirst]
    · change 160 ≤ _; omega
    · change _ ≤ 191; omega
  by_cases hlast : value / 4096 = 13
  · refine ⟨0x80, 0x9F, ?_, ?_, ?_⟩
    · rw [if_neg (by omega), if_pos (by omega), hlast]
    · change 128 ≤ _; omega
    · change _ ≤ 159; omega
  · refine ⟨0x80, 0xBF, ?_, ?_, ?_⟩
    · rw [if_neg (by omega), if_neg (by omega), if_pos (by omega),
        show value / 4096 % 16 + 224 - 224 = value / 4096 by omega]
    · change 128 ≤ _; omega
    · change _ ≤ 191; omega

theorem readFirst_four (value : Nat) (hlow : 65535 < value) (hhigh : value < 1114112) :
    ∃ least greatest : UInt8,
      readFirst (UInt8.ofNat (value / 262144 % 8 + 240)) =
        ([], some ⟨3, least, greatest, value / 262144⟩) ∧
      least.toNat ≤ value / 4096 % 64 + 128 ∧ value / 4096 % 64 + 128 ≤ greatest.toNat := by
  rw [readFirst_ofNat (by omega), if_neg (by omega), if_neg (by omega), if_neg (by omega),
    if_neg (by omega), if_neg (by omega), if_neg (by omega)]
  by_cases hfirst : value / 262144 = 0
  · refine ⟨0x90, 0xBF, ?_, ?_, ?_⟩
    · rw [if_pos (by omega), hfirst]
    · change 144 ≤ _; omega
    · change _ ≤ 191; omega
  by_cases hlast : value / 262144 = 4
  · refine ⟨0x80, 0x8F, ?_, ?_, ?_⟩
    · rw [if_neg (by omega), if_neg (by omega), if_pos (by omega), hlast]
    · change 128 ≤ _; omega
    · change _ ≤ 143; omega
  · refine ⟨0x80, 0xBF, ?_, ?_, ?_⟩
    · rw [if_neg (by omega), if_pos (by omega),
        show value / 262144 % 8 + 240 - 240 = value / 262144 by omega]
    · change 128 ≤ _; omega
    · change _ ≤ 191; omega

theorem decodeFrom_first {byte : UInt8} {started : Partial} (rest : List UInt8)
    (h : readFirst byte = ([], some started)) :
    decodeFrom none (byte :: rest) = decodeFrom (some started) rest := by
  rw [decodeFrom, readByte, h]
  rfl

/-- The bytes of a character are read as that character. -/
theorem decodeFrom_encodeChar (character : Char) (rest : List UInt8) :
    decodeFrom none (String.utf8EncodeChar character ++ rest) =
      some character :: decodeFrom none rest := by
  have hvalid : character.toNat < 55296 ∨ 57343 < character.toNat ∧ character.toNat < 1114112 :=
    character.valid
  have hof : Char.ofNat character.toNat = character := Char.ofNat_toNat character
  have hrange : ∀ value : Nat, value < 64 →
      (0x80 : UInt8).toNat ≤ value + 128 ∧ value + 128 ≤ (0xBF : UInt8).toNat := fun value h =>
    ⟨Nat.le_add_left _ _, by change _ ≤ 191; omega⟩
  have hencode : String.utf8EncodeChar character = let value := character.toNat
      if value ≤ 127 then [UInt8.ofNat value]
      else if value ≤ 2047 then
        [UInt8.ofNat (value / 64 % 32 + 192), UInt8.ofNat (value % 64 + 128)]
      else if value ≤ 65535 then
        [UInt8.ofNat (value / 4096 % 16 + 224), UInt8.ofNat (value / 64 % 64 + 128),
          UInt8.ofNat (value % 64 + 128)]
      else
        [UInt8.ofNat (value / 262144 % 8 + 240), UInt8.ofNat (value / 4096 % 64 + 128),
          UInt8.ofNat (value / 64 % 64 + 128), UInt8.ofNat (value % 64 + 128)] := rfl
  rw [hencode]
  generalize character.toNat = value at hvalid hof
  have hlast := hrange (value % 64) (Nat.mod_lt _ (by decide))
  have hmiddle := hrange (value / 64 % 64) (Nat.mod_lt _ (by decide))
  dsimp only
  split
  next hone =>
    rw [List.cons_append, decodeFrom, readByte, readFirst_ofNat (by omega), if_pos (by omega), hof]
    rfl
  next =>
    split
    next htwo =>
      have hfirst : readFirst (UInt8.ofNat (value / 64 % 32 + 192)) =
          ([], some ⟨1, 0x80, 0xBF, value / 64⟩) := by
        rw [readFirst_ofNat (by omega), if_neg (by omega), if_neg (by omega), if_pos (by omega),
          show value / 64 % 32 + 192 - 192 = value / 64 by omega]
      rw [List.cons_append, decodeFrom_first _ hfirst, List.cons_append,
        decodeFrom_last _ (Nat.mod_lt _ (by decide)) hlast.1 hlast.2, Nat.div_add_mod', hof]
      rfl
    next =>
      split
      next hthree =>
        obtain ⟨least, greatest, hfirst, hleast, hgreatest⟩ :=
          readFirst_three (by omega) hthree (by omega)
        rw [List.cons_append, decodeFrom_first _ hfirst, List.cons_append,
          decodeFrom_more _ (Nat.mod_lt _ (by decide)) hleast hgreatest, List.cons_append,
          decodeFrom_last _ (Nat.mod_lt _ (by decide)) hlast.1 hlast.2,
          show (value / 4096 * 64 + value / 64 % 64) * 64 + value % 64 = value by omega, hof]
        rfl
      next =>
        obtain ⟨least, greatest, hfirst, hleast, hgreatest⟩ :=
          readFirst_four value (by omega) (by omega)
        rw [List.cons_append, decodeFrom_first _ hfirst, List.cons_append,
          decodeFrom_more _ (Nat.mod_lt _ (by decide)) hleast hgreatest, List.cons_append,
          decodeFrom_more _ (Nat.mod_lt _ (by decide)) hmiddle.1 hmiddle.2, List.cons_append,
          decodeFrom_last _ (Nat.mod_lt _ (by decide)) hlast.1 hlast.2,
          show ((value / 262144 * 64 + value / 4096 % 64) * 64 + value / 64 % 64) * 64 +
            value % 64 = value by omega, hof]
        rfl

theorem decode_encodeAll (characters : List Char) :
    decode (characters.flatMap String.utf8EncodeChar) = characters.map some := by
  unfold decode
  induction characters with
  | nil => rfl
  | cons character rest ih =>
      rw [List.flatMap_cons, decodeFrom_encodeChar, ih, List.map_cons]

/-- Reading the bytes of a text gives back the text. -/
theorem lossyText_encode (text : String) : lossyText (encode text) = text := by
  rw [lossyText, encode, decode_encodeAll, List.map_map]
  have hmap : text.toList.map ((·.getD '\uFFFD') ∘ some) = text.toList :=
    (List.map_congr_left fun _ _ => rfl).trans (List.map_id _)
  rw [hmap, String.ofList_toList]

/-- No byte of a character is as great as those that begin nothing, and only the zero character has
a zero byte. -/
theorem exists_of_mem_encodeChar {character : Char} {byte : UInt8}
    (hbyte : byte ∈ String.utf8EncodeChar character) :
    ∃ value < 0xF8, byte = UInt8.ofNat value ∧ (character ≠ '\x00' → value ≠ 0) := by
  have hvalue : character ≠ '\x00' → character.toNat ≠ 0 := by
    intro h heq
    apply h
    rw [← Char.ofNat_toNat character, heq]
  have hval : character.val.toNat = character.toNat := rfl
  unfold String.utf8EncodeChar at hbyte
  rw [hval] at hbyte
  generalize character.toNat = value at hvalue hbyte
  dsimp only at hbyte
  split at hbyte
  next hone =>
    obtain rfl := List.mem_singleton.mp hbyte
    exact ⟨value, by omega, rfl, hvalue⟩
  next =>
    split at hbyte
    next =>
      simp only [List.mem_cons, List.not_mem_nil, or_false] at hbyte
      rcases hbyte with rfl | rfl <;> exact ⟨_, by omega, rfl, fun _ => by omega⟩
    next =>
      split at hbyte
      next =>
        simp only [List.mem_cons, List.not_mem_nil, or_false] at hbyte
        rcases hbyte with rfl | rfl | rfl <;> exact ⟨_, by omega, rfl, fun _ => by omega⟩
      next =>
        simp only [List.mem_cons, List.not_mem_nil, or_false] at hbyte
        rcases hbyte with rfl | rfl | rfl | rfl <;> exact ⟨_, by omega, rfl, fun _ => by omega⟩

theorem ne_zero_of_mem_encodeChar {character : Char} {byte : UInt8} (h : character ≠ '\x00')
    (hbyte : byte ∈ String.utf8EncodeChar character) : byte ≠ 0 := by
  obtain ⟨value, hlt, rfl, hne⟩ := exists_of_mem_encodeChar hbyte
  intro heq
  have hnat := congrArg UInt8.toNat heq
  rw [toNat_ofNat (by omega)] at hnat
  exact hne h hnat

/-- The last byte is in no text. -/
theorem ne_last_of_mem_encode {text : String} {byte : UInt8} (h : byte ∈ encode text) :
    byte ≠ 0xFF := by
  obtain ⟨character, _, hbyte⟩ := List.mem_flatMap.mp h
  obtain ⟨value, hlt, rfl, _⟩ := exists_of_mem_encodeChar hbyte
  intro heq
  have hnat := congrArg UInt8.toNat heq
  rw [toNat_ofNat (by omega)] at hnat
  exact absurd hnat (Nat.ne_of_lt (show value < 255 by omega))

theorem zero_not_mem_encode {text : String} (h : '\x00' ∉ text.toList) : 0 ∉ encode text := by
  intro hzero
  obtain ⟨character, hcharacter, hbyte⟩ := List.mem_flatMap.mp hzero
  exact ne_zero_of_mem_encodeChar (fun heq => h (heq ▸ hcharacter)) hbyte rfl

/-- A text without zero characters is printed whole. -/
theorem printedBytes_encode {text : String} (h : '\x00' ∉ text.toList) :
    printedBytes (encode text) = text := by
  have hall : (encode text).takeWhile (· ≠ 0) = encode text := by
    rw [List.takeWhile_eq_self_iff]
    intro byte hbyte
    exact decide_eq_true fun heq => zero_not_mem_encode h (heq ▸ hbyte)
  rw [printedBytes, hall, lossyText_encode]

end ThreeAddress.Text
