import Mathlib.Tactic.ByContra
import ObjectLiteral.Proofs.Notation.Reader
import ObjectLiteral.Proofs.Text.Word
/-!
Reading atoms.  The words and numerals that stand for atoms are told apart by their characters
alone, and end where a character comes that cannot prolong them.
-/

namespace ObjectLiteral

/-- The atoms that are read back: neither doubles nor callables, symbols, dates or regular
expressions. -/
def Atom.isPlain : Atom → Bool
  | .undefined | .null | .bool _ | .bigInt _ | .string _ => true
  | .number (.float _) => false
  | .number _ => true
  | _ => false

namespace Notation

open Text (Quote quoted scan isWordChar isIdentifier)

def Blank (cs : List Char) : Prop :=
  ∀ c ∈ cs, isSpace c = true

instance (cs : List Char) : Decidable (Blank cs) :=
  List.decidableBAll (fun c => isSpace c = true) cs

/-- What follows does not prolong a word or a numeral. -/
def Delimits (rest : List Char) : Prop :=
  ∀ c ∈ rest.head?, isBare c = false

/-- The characters with which values and keys start. -/
def isOpening (c : Char) : Bool :=
  isBare c || c == '[' || c == '{' || c == '"' || c == '\''

/-- A character that ends a series of entries. -/
structure Closes (c : Char) : Prop where
  not_space : isSpace c = false
  not_opening : isOpening c = false
  not_comma : c ≠ ','

theorem not_isSpace_of_isOpening {c : Char} (hc : isOpening c = true) : isSpace c = false := by
  by_contra hspace
  rw [Bool.not_eq_false, isSpace, Bool.or_eq_true, Bool.or_eq_true, beq_iff_eq, beq_iff_eq,
    beq_iff_eq] at hspace
  rcases hspace with (rfl | rfl) | rfl <;> contradiction

theorem isOpening_of_isBare {c : Char} (hc : isBare c = true) : isOpening c = true := by
  simp [isOpening, hc]

theorem isOpening_mark (q : Quote) : isOpening q.mark = true := by
  cases q <;> decide

theorem delimits_cons {c : Char} (hc : isBare c = false) (rest : List Char) :
    Delimits (c :: rest) := by
  intro d hd
  obtain rfl : c = d := Option.some.inj hd
  exact hc

theorem Closes.delimits {c : Char} (hc : Closes c) (rest : List Char) : Delimits (c :: rest) := by
  apply delimits_cons
  by_contra hbare
  have hopening := isOpening_of_isBare (Bool.of_not_eq_false hbare)
  rw [hc.not_opening] at hopening
  contradiction

theorem delimits_of_isSpace {c : Char} (hc : isSpace c = true) (rest : List Char) :
    Delimits (c :: rest) := by
  apply delimits_cons
  by_contra hbare
  have hspace := not_isSpace_of_isOpening (isOpening_of_isBare (Bool.of_not_eq_false hbare))
  rw [hc] at hspace
  contradiction

theorem Blank.delimits_append {spaces rest : List Char} (hspaces : Blank spaces)
    (hrest : Delimits rest) : Delimits (spaces ++ rest) := by
  cases spaces with
  | nil => exact hrest
  | cons c cs => exact delimits_of_isSpace (hspaces c List.mem_cons_self) _

theorem skip_append {spaces : List Char} (hspaces : Blank spaces) (cs : List Char) :
    skip (spaces ++ cs) = skip cs :=
  List.dropWhile_append_of_pos hspaces

theorem skip_cons {c : Char} (hc : isSpace c = false) (cs : List Char) :
    skip (c :: cs) = c :: cs := by
  rw [skip, List.dropWhile_cons_of_neg]
  rw [hc]
  exact Bool.false_ne_true

theorem bare_append {cs rest : List Char} {a : Atom} (hcs : ∀ c ∈ cs, isBare c = true)
    (hrest : Delimits rest) (ha : atom? cs = some a) : bare (cs ++ rest) = some (a, rest) := by
  rw [bare, Text.takeWhile_append hcs hrest, Text.dropWhile_append hcs hrest, ha, Option.map_some]

theorem bare_constants :
    ∀ e ∈ constants, (∀ c ∈ e.1.toList, isBare c = true) ∧ atom? e.1.toList = some e.2 := by
  have hall : ∀ e ∈ constants, e.1.toList.all isBare = true ∧ atom? e.1.toList = some e.2 := by
    decide
  intro e he
  exact ⟨List.all_eq_true.mp (hall e he).1, (hall e he).2⟩

theorem isBare_of_mem_ofInt {z : Int} {c : Char} (hc : c ∈ (Numeral.ofInt z).toList) :
    isBare c = true := by
  rcases Numeral.mem_ofInt hc with rfl | hdigit
  · decide
  · simp [isBare, isWordChar, Char.isAlphanum, hdigit]

theorem atom?_ofInt (i : Int64) :
    atom? (Numeral.ofInt i.toInt).toList = some (.number (.integer i)) := by
  have hrange : Int64.minValue.toInt ≤ i.toInt ∧ i.toInt ≤ Int64.maxValue.toInt :=
    ⟨i.minValue_le_toInt, i.toInt_le⟩
  rw [atom?, numeral?, if_neg (Numeral.getLast?_ofInt_ne _), Numeral.readInt?_ofInt]
  simp only [if_pos hrange, Int64.ofInt_toInt]

theorem atom?_bigInt (z : Int) :
    atom? ((Numeral.ofInt z).toList ++ ['n']) = some (.bigInt z) := by
  rw [atom?, numeral?, if_pos List.getLast?_concat, List.dropLast_concat,
    Numeral.readInt?_ofInt]
  rfl

/-- The literal of a plain atom that is no string is the word or numeral of this atom. -/
theorem bare_literal {a : Atom} (ha : a.isPlain = true) (hstring : ∀ s, a ≠ .string s)
    (style : Style) :
    (∀ c ∈ (a.literal style).toList, isBare c = true) ∧
      atom? (a.literal style).toList = some a := by
  cases a with
  | undefined => exact bare_constants ("undefined", .undefined) (by decide)
  | null => exact bare_constants ("null", .null) (by decide)
  | bool b =>
      cases b with
      | true => exact bare_constants ("true", .bool true) (by decide)
      | false => exact bare_constants ("false", .bool false) (by decide)
  | number n =>
      cases n with
      | integer i => exact ⟨fun c hc => isBare_of_mem_ofInt hc, atom?_ofInt i⟩
      | float x => contradiction
      | infinity => exact bare_constants ("Infinity", .number .infinity) (by decide)
      | negativeInfinity =>
          exact bare_constants ("-Infinity", .number .negativeInfinity) (by decide)
      | nan => exact bare_constants ("NaN", .number .nan) (by decide)
  | bigInt z =>
      rw [Atom.literal, String.toList_append]
      refine ⟨?_, atom?_bigInt z⟩
      intro c hc
      rcases List.mem_append.mp hc with hnumeral | hsuffix
      · exact isBare_of_mem_ofInt hnumeral
      · obtain rfl := List.mem_singleton.mp hsuffix
        decide
  | string s => exact absurd rfl (hstring s)
  | regExp r => contradiction
  | callable c => contradiction
  | symbol s => contradiction
  | date t => contradiction

end Notation

end ObjectLiteral
