import ObjectLiteral.Proofs.Text.Trivia
import ObjectLiteral.Proofs.Text.Word
/-!
Cuts.  A text in memory is a row of bytes, and a part of it is taken by the offset of a byte, which
has to be within the text and between two characters.  Offsets that a search for ASCII characters
finds are.
-/

namespace ObjectLiteral.Text

def byteLength : List Char → Nat
  | [] => 0
  | c :: cs => c.utf8Size + byteLength cs

/-- The two parts of a text at the offset of a byte.  There are none if the offset is past the end
or inside a character. -/
def cutAt? : List Char → Nat → Option (List Char × List Char)
  | cs, 0 => some ([], cs)
  | [], _ + 1 => none
  | c :: cs, n + 1 =>
    if c.utf8Size ≤ n + 1 then
      (cutAt? cs (n + 1 - c.utf8Size)).map fun (front, rest) => (c :: front, rest)
    else none

/-- The offset of the first byte of a pattern, where it stands first. -/
def offsetOf? (pattern : List Char) : List Char → Option Nat
  | [] => none
  | c :: cs =>
    if pattern.isPrefixOf (c :: cs) then some 0 else (offsetOf? pattern cs).map (c.utf8Size + ·)

def utf8 (cs : List Char) : List UInt8 :=
  cs.flatMap String.utf8EncodeChar

def isWordByte (b : UInt8) : Bool :=
  isWordChar (Char.ofUInt8 b)

def wordLength (cs : List Char) : Nat :=
  ((utf8 cs).takeWhile isWordByte).length

theorem byteLength_append (front rest : List Char) :
    byteLength (front ++ rest) = byteLength front + byteLength rest := by
  induction front with
  | nil => exact (Nat.zero_add _).symm
  | cons c front ih => rw [List.cons_append, byteLength, byteLength, ih, Nat.add_assoc]

/-- A text can be cut wherever a part of it ends. -/
theorem cutAt?_append (front rest : List Char) :
    cutAt? (front ++ rest) (byteLength front) = some (front, rest) := by
  induction front with
  | nil => cases rest <;> rfl
  | cons c front ih =>
      obtain ⟨n, hn⟩ := Nat.exists_eq_add_of_lt c.utf8Size_pos
      have hlength : byteLength (c :: front) = (n + byteLength front) + 1 := by
        rw [byteLength]
        omega
      have hcut : n + byteLength front + 1 - c.utf8Size = byteLength front := by omega
      rw [hlength, List.cons_append, cutAt?, if_pos (by omega), hcut, ih]
      rfl

/-- The first line feed of a text, by its offset. -/
theorem offsetOf?_lineFeed (cs : List Char) :
    (offsetOf? ['\n'] cs = none ∧ afterLine? cs = none) ∨
      ∃ front rest, cs = front ++ '\n' :: rest ∧ offsetOf? ['\n'] cs = some (byteLength front) ∧
        afterLine? cs = some rest := by
  induction cs with
  | nil => exact Or.inl ⟨rfl, rfl⟩
  | cons c cs ih =>
      by_cases hfeed : c = '\n'
      · subst hfeed
        exact Or.inr ⟨[], cs, rfl, rfl, rfl⟩
      have hprefix : ['\n'].isPrefixOf (c :: cs) = false := by
        simp [List.isPrefixOf, Ne.symm hfeed]
      rw [offsetOf?, hprefix, if_neg Bool.false_ne_true, afterLine?, if_neg hfeed]
      rcases ih with ⟨hoffset, hafter⟩ | ⟨front, rest, rfl, hoffset, hafter⟩
      · exact Or.inl ⟨by rw [hoffset]; rfl, hafter⟩
      · exact Or.inr ⟨c :: front, rest, rfl, by rw [hoffset]; rfl, hafter⟩

/-- A search goes on behind a character where the pattern does not stand. -/
theorem offsetOf?_cons_of_ne {c d e : Char} {cs : List Char}
    (hopen : ∀ ds, c = d → cs = e :: ds → False) :
    offsetOf? [d, e] (c :: cs) = (offsetOf? [d, e] cs).map (c.utf8Size + ·) := by
  have hprefix : [d, e].isPrefixOf (c :: cs) = false := by
    cases cs with
    | nil => simp [List.isPrefixOf]
    | cons f fs => 
        simp only [List.isPrefixOf, Bool.and_true, Bool.and_eq_false_iff, beq_eq_false_iff_ne]
        by_cases hd : d = c
        · exact Or.inr fun he => hopen fs hd.symm (by rw [he])
        · exact Or.inl hd
  rw [offsetOf?, hprefix, if_neg Bool.false_ne_true]

/-- Where a pattern is found it stands, behind a part of the text that ends there. -/
theorem exists_of_offsetOf? {pattern cs : List Char} {n : Nat}
    (hoffset : offsetOf? pattern cs = some n) :
    ∃ front rest, cs = front ++ pattern ++ rest ∧ n = byteLength front := by
  induction cs generalizing n with
  | nil => cases hoffset
  | cons c cs ih =>
      rw [offsetOf?] at hoffset
      split at hoffset
      · rename_i hprefix
        obtain ⟨rest, hrest⟩ := List.isPrefixOf_iff_prefix.mp hprefix
        exact ⟨[], rest, hrest.symm, (Option.some.inj hoffset).symm⟩
      · obtain ⟨m, hm, rfl⟩ := Option.map_eq_some_iff.mp hoffset
        obtain ⟨front, rest, rfl, rfl⟩ := ih hm
        exact ⟨c :: front, rest, rfl, rfl⟩

/-- The first end of a block comment, by its offset.  It is the end only if it comes before every
line feed. -/
theorem offsetOf?_blockEnd (cs : List Char) :
    (offsetOf? ['*', '/'] cs = none ∧ afterBlock? cs = none) ∨
      ∃ front rest, cs = front ++ '*' :: '/' :: rest ∧
        offsetOf? ['*', '/'] cs = some (byteLength front) ∧
        afterBlock? cs = if front.contains '\n' then none else some rest := by
  fun_induction afterBlock? cs with
  | case1 => exact Or.inl ⟨rfl, rfl⟩
  | case2 cs => exact Or.inr ⟨[], cs, rfl, rfl, rfl⟩
  | case3 cs hopen =>
      rw [offsetOf?_cons_of_ne hopen]
      cases hoffset : offsetOf? ['*', '/'] cs with
      | none => exact Or.inl ⟨rfl, rfl⟩
      | some n =>
          obtain ⟨front, rest, rfl, rfl⟩ := exists_of_offsetOf? hoffset
          refine Or.inr ⟨'\n' :: front, rest, ?_, rfl, rfl⟩
          simp
  | case4 c cs hopen hfeed ih =>
      rw [offsetOf?_cons_of_ne hopen]
      rcases ih with ⟨hoffset, hafter⟩ | ⟨front, rest, rfl, hoffset, hafter⟩
      · exact Or.inl ⟨by rw [hoffset]; rfl, hafter⟩
      · refine Or.inr ⟨c :: front, rest, rfl, by rw [hoffset]; rfl, ?_⟩
        have hsame : (c :: front).contains '\n' = front.contains '\n' := by
          simp [Ne.symm hfeed]
        rw [hsame, hafter]

/-- An ASCII character is one byte, and the first byte of any other character is no ASCII
character. -/
theorem utf8EncodeChar_cases (c : Char) :
    (c.toNat ≤ 127 ∧ String.utf8EncodeChar c = [UInt8.ofNat c.toNat]) ∨
      127 < c.toNat ∧ ∃ b bs, String.utf8EncodeChar c = b :: bs ∧ 127 < b.toNat := by
  have hencode : String.utf8EncodeChar c =
      if c.toNat ≤ 127 then [UInt8.ofNat c.toNat]
      else if c.toNat ≤ 2047 then
        [UInt8.ofNat (c.toNat / 64 % 32 + 192), UInt8.ofNat (c.toNat % 64 + 128)]
      else if c.toNat ≤ 65535 then
        [UInt8.ofNat (c.toNat / 4096 % 16 + 224), UInt8.ofNat (c.toNat / 64 % 64 + 128),
          UInt8.ofNat (c.toNat % 64 + 128)]
      else
        [UInt8.ofNat (c.toNat / 262144 % 8 + 240), UInt8.ofNat (c.toNat / 4096 % 64 + 128),
          UInt8.ofNat (c.toNat / 64 % 64 + 128), UInt8.ofNat (c.toNat % 64 + 128)] := rfl
  have hlead : ∀ n, n < 64 → 127 < (UInt8.ofNat (n + 192)).toNat := by
    intro n hn
    rw [UInt8.toNat_ofNat']
    omega
  rw [hencode]
  split
  · exact Or.inl ⟨‹_›, rfl⟩
  · refine Or.inr ⟨Nat.lt_of_not_le ‹_›, ?_⟩
    split
    · exact ⟨_, _, rfl, hlead _ (by omega)⟩
    split
    · exact ⟨_, _, rfl, hlead (c.toNat / 4096 % 16 + 32) (by omega)⟩
    · exact ⟨_, _, rfl, hlead (c.toNat / 262144 % 8 + 48) (by omega)⟩

theorem utf8Size_of_toNat_le {c : Char} (hc : c.toNat ≤ 127) : c.utf8Size = 1 :=
  Char.utf8Size_eq_one_iff.mpr hc

theorem ofUInt8_ofNat {c : Char} (hc : c.toNat ≤ 127) : Char.ofUInt8 (UInt8.ofNat c.toNat) = c := by
  apply Char.ext
  apply UInt32.toNat_inj.mp
  change (UInt8.ofNat c.toNat).toUInt32.toNat = c.toNat
  rw [UInt8.toNat_toUInt32, UInt8.toNat_ofNat']
  exact Nat.mod_eq_of_lt (Nat.lt_of_le_of_lt hc (by decide))

/-- The bytes at the start that are word characters are those of the leading word. -/
theorem wordLength_eq (cs : List Char) : wordLength cs = byteLength (cs.takeWhile isWordChar) := by
  induction cs with
  | nil => rfl
  | cons c cs ih =>
      rw [wordLength, utf8, List.flatMap_cons]
      rcases utf8EncodeChar_cases c with ⟨hascii, hbyte⟩ | ⟨hwide, b, bs, hbytes, hb⟩
      · have hsame : isWordByte (UInt8.ofNat c.toNat) = isWordChar c := by
          rw [isWordByte, ofUInt8_ofNat hascii]
        rw [hbyte, List.singleton_append, List.takeWhile_cons, List.takeWhile_cons, hsame]
        by_cases hword : isWordChar c = true
        · rw [if_pos hword, if_pos hword, byteLength, utf8Size_of_toNat_le hascii, ← ih,
            List.length_cons, Nat.add_comm]
          rfl
        · rw [if_neg hword, if_neg hword]
          rfl
      · have hbyte : isWordByte b ≠ true := fun hword =>
          absurd (toNat_of_isWordChar hword).2 (Nat.not_le.mpr hb)
        have hchar : isWordChar c ≠ true := fun hword =>
          absurd (toNat_of_isWordChar hword).2 (Nat.not_le.mpr hwide)
        rw [hbytes, List.cons_append, List.takeWhile_cons, List.takeWhile_cons, if_neg hbyte,
          if_neg hchar]
        rfl

end ObjectLiteral.Text
