import ObjectLiteral.Proofs.Conversion.Image
import ObjectLiteral.Proofs.Rendering.Depth
import ObjectLiteral.Proofs.Text.Numeral
/-!
Integers keep their value.  Whichever type an integer has, it becomes the same value, and neither
this nor its texts lose any of it: a number where 64 bits are enough, and elsewhere a big integer,
whose literal ends with an `n`.
-/

namespace ObjectLiteral

namespace Numeral

/-- The integers that 64 bits with a sign hold. -/
def Fits (z : Int) : Prop :=
  -(Nat.pow 2 63 : Int) ≤ z ∧ z < (Nat.pow 2 63 : Int)

instance (z : Int) : Decidable (Fits z) :=
  inferInstanceAs (Decidable (_ ∧ _))

/-- The literal of an integer: the numeral, and an `n` behind it if 64 bits are not enough. -/
def marked (z : Int) : String :=
  toString z ++ if Fits z then "" else "n"

/-- The integer of a literal, with an `n` behind it or not. -/
def readMarked? (cs : List Char) : Option Int :=
  if cs.getLast? = some 'n' then readInt? cs.dropLast else readInt? cs

theorem ofInt_eq_toString (z : Int) : ofInt z = toString z := by
  cases z with
  | ofNat n => exact if_neg (Int.not_lt.mpr (Int.natCast_nonneg n))
  | negSucc n => exact if_pos (Int.negSucc_lt_zero n)

theorem readInt?_toString (z : Int) : readInt? (toString z).toList = some z := by
  rw [← ofInt_eq_toString, readInt?_ofInt]

theorem toString_injective {z z' : Int} (heq : toString z = toString z') : z = z' :=
  Option.some.inj (by rw [← readInt?_toString, heq, readInt?_toString])

theorem readMarked?_marked (z : Int) : readMarked? (marked z).toList = some z := by
  rw [marked, String.toList_append, ← ofInt_eq_toString]
  split
  · have hempty : "".toList = [] := rfl
    rw [hempty, List.append_nil, readMarked?, if_neg (getLast?_ofInt_ne z), readInt?_ofInt]
  · have hmark : "n".toList = ['n'] := rfl
    rw [hmark, readMarked?, if_pos List.getLast?_concat, List.dropLast_concat, readInt?_ofInt]

theorem marked_injective {z z' : Int} (heq : marked z = marked z') : z = z' :=
  Option.some.inj (by rw [← readMarked?_marked, heq, readMarked?_marked])

theorem fits_iff (z : Int) :
    Fits z ↔ Int64.minValue.toInt ≤ z ∧ z ≤ Int64.maxValue.toInt := by
  have hmin : -(Nat.pow 2 63 : Int) = Int64.minValue.toInt := by decide
  have hmax : (Nat.pow 2 63 : Int) = Int64.maxValue.toInt + 1 := by decide
  rw [Fits, hmin, hmax, Int.lt_add_one_iff]

theorem toInt_ofInt_of_fits {z : Int} (hz : Fits z) : (Int64.ofInt z).toInt = z :=
  Int64.toInt_ofInt_of_le hz.1 hz.2

end Numeral

open Numeral

theorem Atom.ofInt_eq (z : Int) :
    Atom.ofInt z = if Fits z then .number (.integer (Int64.ofInt z)) else .bigInt z :=
  if_congr (fits_iff z).symm rfl rfl

/-- The literal of an integer does not depend on the style. -/
theorem Atom.literal_ofInt (z : Int) (style : Style) : (Atom.ofInt z).literal style = marked z := by
  rw [ofInt_eq, marked, ← ofInt_eq_toString]
  split
  · rename_i hz
    rw [literal, Number.text, toInt_ofInt_of_fits hz, String.append_empty]
  · rfl

theorem Value.mapKey?_ofInt (z : Int) : (Value.atom (.ofInt z)).mapKey? = some (toString z) := by
  rw [Atom.ofInt_eq, ← ofInt_eq_toString]
  split
  · rename_i hz
    rw [mapKey?, toInt_ofInt_of_fits hz]
  · rfl

namespace Datum

variable {σ : Type} {t : IntegerType} {z : Int}

theorem toValue_integer (hz : t.Holds z) (h : Heap) :
    (integer ⟨t, z, hz⟩).toValue h = .ok (.atom (.ofInt z), h) := by
  rw [toValue, Value.ofTypedInteger_eq]
  rfl

theorem render_integer (options : Options σ) (hz : t.Holds z) (w : World σ) :
    (integer ⟨t, z, hz⟩).render options w = ⟨.ok (marked z), w, []⟩ := by
  rw [render, toValue_integer]
  dsimp only
  rw [render_atom, Atom.literal_ofInt]

theorem runCalls_integer (hz : t.Holds z) (calls : List MapCall) (pending : Option String)
    (table : PropertyTable) :
    runCalls (.key (.integer ⟨t, z, hz⟩) :: calls) pending table =
      runCalls calls (some (toString z)) table := by
  funext h
  rw [runCalls]
  simp only [Bind.bind, StateT.bind, toValue_integer, Except.bind, Value.mapKey?_ofInt]

end Datum

/-- What becomes of an integer, whatever the type that it comes with: as a value, as a text, and as
the key of a map. -/
structure KeepsInteger {σ : Type} (options : Options σ) (z : Int) : Prop where
  number : Fits z → ∀ (t : IntegerType) (hz : t.Holds z) (h : Heap),
    (Datum.integer ⟨t, z, hz⟩).toValue h = .ok (.atom (.number (.integer (Int64.ofInt z))), h)
  toInt_eq : Fits z → (Int64.ofInt z).toInt = z
  bigInt : ¬ Fits z → ∀ (t : IntegerType) (hz : t.Holds z) (h : Heap),
    (Datum.integer ⟨t, z, hz⟩).toValue h = .ok (.atom (.bigInt z), h)
  text : ∀ (t : IntegerType) (hz : t.Holds z) (w : World σ),
    (Datum.integer ⟨t, z, hz⟩).render options w = ⟨.ok (marked z), w, []⟩
  key : ∀ (t : IntegerType) (hz : t.Holds z) (calls : List MapCall) (pending : Option String)
    (table : PropertyTable),
    Datum.runCalls (.key (.integer ⟨t, z, hz⟩) :: calls) pending table =
      Datum.runCalls calls (some (toString z)) table
  read_text : readMarked? (marked z).toList = some z
  read_key : readInt? (toString z).toList = some z
  distinct : ∀ z', z' ≠ z → marked z' ≠ marked z ∧ toString z' ≠ toString z

/-- An integer keeps its value whatever the width of its type: it becomes a number if it lies between
`-2 ^ 63` and `2 ^ 63 - 1` and a big integer elsewhere, is written as its numeral, with an `n` behind
a big one, and has the numeral alone as the key of a map.  Every type that holds it agrees on that,
and the integer can be read off either text. -/
theorem toValue_keepsInteger {σ : Type} (options : Options σ) (z : Int) :
    KeepsInteger options z where
  number hfits t hz h := by
    rw [Datum.toValue_integer, Atom.ofInt_eq, if_pos hfits]
  toInt_eq := toInt_ofInt_of_fits
  bigInt hbig t hz h := by
    rw [Datum.toValue_integer, Atom.ofInt_eq, if_neg hbig]
  text t hz w := Datum.render_integer options hz w
  key t hz calls pending table := Datum.runCalls_integer hz calls pending table
  read_text := readMarked?_marked z
  read_key := readInt?_toString z
  distinct z' hne := ⟨mt marked_injective hne, mt toString_injective hne⟩

/-- The least number of 128 bits and the largest one of 64 bits without a sign are big integers. -/
example :
    ¬ Fits (IntegerType.least ⟨true, .w128⟩) ∧ ¬ Fits (IntegerType.bound ⟨false, .w64⟩ - 1) ∧
      Fits (IntegerType.least ⟨true, .w64⟩) ∧ Fits (IntegerType.bound ⟨true, .w64⟩ - 1) := by
  decide

end ObjectLiteral
