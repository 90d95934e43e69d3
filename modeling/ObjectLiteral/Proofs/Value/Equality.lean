import ObjectLiteral.Literal
import ObjectLiteral.Proofs.Heap.Containers
import ObjectLiteral.Proofs.Number.Value
/-!
Equality of values.  Two values are equal if they are the same, except that a NaN equals nothing and
that both zeros are one number.  What a heap makes is the same as nothing that was there before, so
containers, callables and unique symbols are equal by their making.
-/

namespace ObjectLiteral

namespace Binary64

variable {x y : Binary64}

theorem isNaN_eq_false_of_isZero (hx : x.isZero = true) : x.isNaN = false := by
  have hmagnitude : x.magnitude = 0 := of_decide_eq_true hx
  rw [isNaN, hmagnitude]
  rfl

/-- Doubles are equal if they are one that is no NaN, or both zeros. -/
theorem equals_iff :
    x.equals y = true ↔ x = y ∧ x.isNaN = false ∨ x.isZero = true ∧ y.isZero = true := by
  have hbits : x.bits = y.bits ↔ x = y := ⟨fun h => by cases x; cases y; exact congrArg _ h,
    congrArg bits⟩
  simp only [equals, Bool.and_eq_true, Bool.or_eq_true, Bool.not_eq_true', beq_iff_eq, hbits]
  constructor
  · rintro ⟨⟨hx, -⟩, rfl | hzeros⟩
    · exact Or.inl ⟨rfl, hx⟩
    · exact Or.inr hzeros
  · rintro (⟨rfl, hx⟩ | hzeros)
    · exact ⟨⟨hx, hx⟩, Or.inl rfl⟩
    · exact ⟨⟨isNaN_eq_false_of_isZero hzeros.1, isNaN_eq_false_of_isZero hzeros.2⟩,
        Or.inr hzeros⟩

/-- Doubles with one place in the order of numbers are the same or both zeros. -/
theorem rank_eq_iff : x.rank = y.rank ↔ x = y ∨ x.isZero = true ∧ y.isZero = true := by
  have hzero : ∀ z : Binary64, z.isZero = true ↔ z.magnitude = 0 := fun z => decide_eq_true_iff
  constructor
  · intro hrank
    by_cases hsign : x.isNegative = y.isNegative
    · refine Or.inl (eq_of_magnitude hsign ?_)
      rw [rank, rank, hsign] at hrank
      split at hrank <;> omega
    · rw [hzero, hzero]
      right
      cases hx : x.isNegative <;> cases hy : y.isNegative <;> rw [hx, hy] at hsign <;>
        simp only [rank, hx, hy, Bool.false_eq_true, if_true, if_false] at hrank <;>
        first
        | exact absurd rfl hsign
        | omega
  · rintro (rfl | ⟨hx, hy⟩)
    · rfl
    · rw [rank, rank, (hzero x).mp hx, (hzero y).mp hy]
      simp

/-- Doubles that stand for numbers are equal if these are. -/
theorem equals_iff_of_value? {p q : ℚ} (hx : x.value? = some p) (hy : y.value? = some q) :
    x.equals y = true ↔ p = q := by
  obtain ⟨hx_finite, rfl⟩ := value?_eq_some_iff.mp hx
  obtain ⟨hy_finite, rfl⟩ := value?_eq_some_iff.mp hy
  have hnan := hx_finite.isNaN_eq_false
  rw [equals_iff, and_iff_left hnan, ← rank_eq_iff, le_antisymm_iff, le_antisymm_iff,
    rank_le_iff, rank_le_iff]

end Binary64

/-- Numbers that are no doubles are equal only if they are the same. -/
theorem Number.equals_iff_of_ne_float {m n : Number} (hm : ∀ x, m ≠ .float x) :
    m.equals n = true ↔ m = n := by
  cases m with
  | float x => exact absurd rfl (hm x)
  | integer i =>
      cases n with
      | integer j => exact beq_iff_eq.trans (by rw [Number.integer.injEq])
      | _ => exact iff_of_false Bool.false_ne_true nofun
  | _ => cases n <;> first | exact iff_of_true rfl rfl | exact iff_of_false Bool.false_ne_true nofun

theorem Number.equals_float_iff {x : Binary64} {n : Number} :
    (Number.float x).equals n = true ↔ ∃ y, n = .float y ∧ x.equals y = true := by
  cases n with
  | float y => exact ⟨fun heq => ⟨y, rfl, heq⟩, fun ⟨_, hy, heq⟩ => Number.float.inj hy ▸ heq⟩
  | _ => exact iff_of_false Bool.false_ne_true fun ⟨_, hy, _⟩ => nomatch hy

namespace Value

def float? : Value → Option Binary64
  | atom (.number (.float x)) => some x
  | _ => none

def BothZero (a b : Value) : Prop :=
  ∃ x y, a.float? = some x ∧ b.float? = some y ∧ x.isZero = true ∧ y.isZero = true

variable {a b c : Value}

theorem eq_of_float? {x : Binary64} (hx : a.float? = some x) :
    a = .atom (.number (.float x)) := by
  unfold float? at hx
  split at hx
  · exact congrArg _ (congrArg _ (congrArg _ (Option.some.inj hx)))
  · cases hx

/-- Values that are no doubles are equal only if they are the same. -/
theorem equals_iff_of_float?_eq_none (ha : a.float? = none) : a.equals b = true ↔ a = b := by
  cases a with
  | array r => cases b <;> simp [equals]
  | object o => cases b <;> simp [equals]
  | atom a =>
      cases b with
      | array s => simp [equals]
      | object p => simp [equals]
      | atom b =>
          rw [equals, atom.injEq]
          unfold Atom.equals
          split
          · rename_i m n
            rw [Atom.number.injEq]
            exact Number.equals_iff_of_ne_float fun x hm => nomatch (hm ▸ ha)
          · exact beq_iff_eq

theorem equals_float_iff {x : Binary64} :
    (Value.atom (.number (.float x))).equals b = true ↔
      ∃ y, b.float? = some y ∧ x.equals y = true := by
  have hnone : b.float? = none → ¬ ∃ y, b.float? = some y ∧ x.equals y = true := by
    rintro hb ⟨y, hy, -⟩
    exact nomatch hb.symm.trans hy
  cases b with
  | array s => exact iff_of_false Bool.false_ne_true (hnone rfl)
  | object p => exact iff_of_false Bool.false_ne_true (hnone rfl)
  | atom b =>
      cases b with
      | number n =>
          refine Number.equals_float_iff.trans (exists_congr fun y => and_congr_left fun _ => ?_)
          refine ⟨fun hn => hn ▸ rfl, fun hy => ?_⟩
          exact Atom.number.inj (atom.inj (eq_of_float? hy))
      | _ => exact iff_of_false Bool.false_ne_true (hnone rfl)

/-- Values are equal if they are one that is no NaN, or both zeros. -/
theorem equals_iff :
    a.equals b = true ↔
      a = b ∧ (∀ x, a.float? = some x → x.isNaN = false) ∨ BothZero a b := by
  cases ha : a.float? with
  | none =>
      have hzero : ¬ BothZero a b := by
        rintro ⟨x, y, hx, -⟩
        exact nomatch ha.symm.trans hx
      rw [equals_iff_of_float?_eq_none ha, or_iff_left hzero]
      exact ⟨fun heq => ⟨heq, fun _ => nofun⟩, And.left⟩
  | some x =>
      obtain rfl := eq_of_float? ha
      rw [equals_float_iff]
      constructor
      · rintro ⟨y, hy, heq⟩
        rcases Binary64.equals_iff.mp heq with ⟨rfl, hx⟩ | hzeros
        · exact Or.inl ⟨(eq_of_float? hy).symm, fun _ hz => Option.some.inj hz ▸ hx⟩
        · exact Or.inr ⟨x, y, rfl, hy, hzeros⟩
      · rintro (⟨rfl, hx⟩ | ⟨_, y, hx, hy, hzeros⟩)
        · exact ⟨x, rfl, Binary64.equals_iff.mpr (Or.inl ⟨rfl, hx x rfl⟩)⟩
        · obtain rfl := Option.some.inj (ha.symm.trans hx)
          exact ⟨y, hy, Binary64.equals_iff.mpr (Or.inr hzeros)⟩

/-- A value is equal to itself unless it is a NaN. -/
theorem equals_self_iff : a.equals a = true ↔ ∀ x, a.float? = some x → x.isNaN = false := by
  rw [equals_iff, eq_self, true_and]
  refine or_iff_left_of_imp ?_
  rintro ⟨x, y, hx, -, hzero, -⟩ z hz
  obtain rfl := Option.some.inj (hx.symm.trans hz)
  exact Binary64.isNaN_eq_false_of_isZero hzero

theorem BothZero.symm (hzero : BothZero a b) : BothZero b a := by
  obtain ⟨x, y, hx, hy, hx_zero, hy_zero⟩ := hzero
  exact ⟨y, x, hy, hx, hy_zero, hx_zero⟩

theorem equals_symm (hab : a.equals b = true) : b.equals a = true := by
  rcases equals_iff.mp hab with ⟨rfl, -⟩ | hzero
  · exact hab
  · exact equals_iff.mpr (Or.inr hzero.symm)

theorem equals_trans (hab : a.equals b = true) (hbc : b.equals c = true) : a.equals c = true := by
  rcases equals_iff.mp hab with ⟨rfl, -⟩ | ⟨x, y, hx, hy, hx_zero, hy_zero⟩
  · exact hbc
  · rcases equals_iff.mp hbc with ⟨rfl, -⟩ | ⟨y', z, hy', hz, -, hz_zero⟩
    · exact hab
    · exact equals_iff.mpr (Or.inr ⟨x, z, hx, hz, hx_zero, hz_zero⟩)

theorem eq_of_key? {k : Key} (ha : a.key? = some k) (hb : b.key? = some k) : a = b := by
  unfold key? at ha hb
  split at ha <;> split at hb <;> cases ha <;> cases hb <;> rfl

/-- Symbols are equal by their key in the registry, by the well-known symbol that they are, or by
their making. -/
theorem equals_symbol_iff {s t : Symbol} :
    (Value.atom (.symbol s)).equals (.atom (.symbol t)) = true ↔
      (∃ key, s.registryKey? = some key ∧ t.registryKey? = some key) ∨
        (∃ w, s.wellKnown? = some w ∧ t.wellKnown? = some w) ∨
          ∃ serial d, s = .unique serial d ∧ t = .unique serial d := by
  rw [equals_iff_of_float?_eq_none rfl, atom.injEq, Atom.symbol.injEq]
  cases s <;> cases t <;> simp [Symbol.registryKey?, Symbol.wellKnown?, eq_comm]

/-- Values that may serve as keys are equal if they serve as one key. -/
theorem equals_iff_of_key? {j k : Key} (ha : a.key? = some k) (hb : b.key? = some j) :
    a.equals b = true ↔ k = j := by
  have hfloat : a.float? = none := by
    unfold key? at ha
    split at ha <;> first | rfl | cases ha
  rw [equals_iff_of_float?_eq_none hfloat]
  constructor
  · rintro rfl
    exact Option.some.inj (ha.symm.trans hb)
  · rintro rfl
    exact eq_of_key? ha hb

def Alike (a b : Value) : Prop :=
  a = b ∨ a.equals b = true

theorem alike_iff : a.Alike b ↔ a = b ∨ BothZero a b := by
  rw [Alike, equals_iff]
  constructor
  · rintro (heq | ⟨heq, -⟩ | hzero)
    · exact Or.inl heq
    · exact Or.inl heq
    · exact Or.inr hzero
  · exact Or.imp id Or.inr

/-- Doubles that are zero have nothing that could tell them apart but their signs. -/
theorem Alike.congr {α : Type} {f : Value → α} {constant : α} (hab : a.Alike b)
    (hzero : ∀ x, x.isZero = true → f (.atom (.number (.float x))) = constant) : f b = f a := by
  rcases alike_iff.mp hab with rfl | ⟨x, y, hx, hy, hx_zero, hy_zero⟩
  · rfl
  · rw [eq_of_float? hx, eq_of_float? hy, hzero x hx_zero, hzero y hy_zero]

theorem Alike.container?_eq (hab : a.Alike b) : b.container? = a.container? :=
  hab.congr fun _ _ => rfl

/-- Containers are alike only if they are one container. -/
theorem Alike.eq_of_container? {d : Container} (hab : a.Alike b) (ha : a.container? = some d) :
    b = a := by
  rcases alike_iff.mp hab with heq | ⟨x, y, hx, -⟩
  · exact heq.symm
  · rw [eq_of_float? hx] at ha
    cases ha

theorem Alike.key?_eq (hab : a.Alike b) : b.key? = a.key? :=
  hab.congr fun _ _ => rfl

theorem Alike.method?_eq (style : Style) (hab : a.Alike b) : b.method? style = a.method? style :=
  hab.congr fun _ _ => rfl

theorem Alike.refl (a : Value) : a.Alike a :=
  Or.inl rfl

end Value

/-- Equal atoms have one literal. -/
theorem Atom.literal_eq_of_alike (style : Style) {a b : Atom}
    (hab : (Value.atom a).Alike (.atom b)) : b.literal style = a.literal style := by
  rcases Value.alike_iff.mp hab with heq | ⟨x, y, hx, hy, hx_zero, hy_zero⟩
  · cases heq
    rfl
  · cases Value.eq_of_float? hx
    cases Value.eq_of_float? hy
    rw [literal, literal, Number.text, Number.text, Binary64.text_of_isZero hx_zero,
      Binary64.text_of_isZero hy_zero]

end ObjectLiteral
