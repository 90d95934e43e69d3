import ObjectLiteral.Proofs.Heap.Making
import ObjectLiteral.Proofs.PropertyTable.Pruning
/-!
Lookup by hash.  What a key feeds to a hasher is all that the comparison of keys looks at, so keys
that are one have one hash.  A table may therefore compare a key with a few of its entries only, if
all those are among them that have the hash of the key, and finds what a search through all entries
would find.
-/

namespace ObjectLiteral

theorem Symbol.fed_eq_iff (s t : Symbol) : s.fed = t.fed ↔ s.same t = true := by
  cases s <;> cases t <;> simp [fed, same, List.idxOf_inj (WellKnown.mem_all _)]

namespace Key

/-- Keys feed the same to a hasher exactly if they are one. -/
theorem fed_eq_iff (j k : Key) : j.fed = k.fed ↔ j.same k = true := by
  cases j <;> cases k <;> simp [fed, same, Symbol.fed_eq_iff]

/-- No two unique symbols of one making have different descriptions. -/
def Coherent (ks : List Key) : Prop :=
  ∀ serial d d', .symbol (.unique serial d) ∈ ks → .symbol (.unique serial d') ∈ ks → d = d'

theorem Coherent.same_iff {ks : List Key} (hks : Coherent ks) {j k : Key} (hj : j ∈ ks)
    (hk : k ∈ ks) : j.same k = true ↔ j = k := by
  cases j with
  | name s => cases k <;> simp [same]
  | symbol s =>
      cases k with
      | name t => simp [same]
      | symbol t =>
          cases s with
          | registered key => cases t <;> simp [same, Symbol.same]
          | wellKnown w => cases t <;> simp [same, Symbol.same]
          | unique serial d =>
              cases t with
              | registered key => simp [same, Symbol.same]
              | wellKnown w => simp [same, Symbol.same]
              | unique serial' d' =>
                  simp only [same, Symbol.same, beq_iff_eq, symbol.injEq, Symbol.unique.injEq]
                  refine ⟨?_, And.left⟩
                  rintro rfl
                  exact ⟨rfl, hks serial d d' hj hk⟩

end Key

/-- Keys that a heap makes are coherent. -/
theorem Heap.Makes.coherent {h h' : Heap} {vs : List Value} (hmakes : h.Makes vs h') :
    Key.Coherent (vs.filterMap Value.key?) := by
  have hmem : ∀ {vs : List Value} {s : Symbol}, .symbol s ∈ vs.filterMap Value.key? →
      .atom (.symbol s) ∈ vs := by
    intro vs s hs
    obtain ⟨v, hv, hkey⟩ := List.mem_filterMap.mp hs
    exact Value.eq_of_key? (b := .atom (.symbol s)) hkey rfl ▸ hv
  exact fun serial d d' hd hd' => hmakes.description_unique (hmem hd) (hmem hd')

/-- A hasher: it is fed piece by piece, and then gives a hash. -/
structure Hasher (η : Type) where
  start : η
  feed : η → Fed → η
  finish : η → UInt64

namespace Hasher

variable {η : Type} (hasher : Hasher η)

def hash (k : Key) : UInt64 :=
  hasher.finish (k.fed.foldl hasher.feed hasher.start)

/-- Keys that are one have one hash. -/
theorem hash_eq_of_same {j k : Key} (hsame : j.same k = true) : hasher.hash j = hasher.hash k := by
  rw [hash, hash, (Key.fed_eq_iff j k).mpr hsame]

end Hasher

namespace PropertyTable

/-- A key is found by its hash: whichever entries of a table are compared with the key, and in
whatever order, if all that have its hash are among them, the first one with the key holds what the
table holds under it. -/
theorem Keyed.find?_probed {t : PropertyTable} (ht : t.Keyed) {k : Key}
    (hcoherent : Key.Coherent (k :: t.keys)) {η : Type} (hasher : Hasher η)
    {probed : List (Key × Property)} (hprobed : probed ⊆ t.entries)
    (hall : ∀ e ∈ t.entries, hasher.hash e.1 = hasher.hash k → e ∈ probed) :
    (probed.find? fun e => e.1.same k).map (·.2) = t.find? k := by
  have hsame : ∀ e ∈ t.entries, e.1.same k = true ↔ e.1 = k := fun e he =>
    hcoherent.same_iff (List.mem_cons_of_mem k (List.mem_map_of_mem he)) List.mem_cons_self
  cases hfound : probed.find? fun e => e.1.same k with
  | some e =>
      obtain ⟨j, p⟩ := e
      have he := hprobed (List.mem_of_find?_eq_some hfound)
      have hone := List.find?_some hfound
      obtain rfl := (hsame _ he).mp hone
      exact (ht.find?_eq_some he).symm
  | none =>
      symm
      rw [Option.map_none, find?, List.lookup_eq_none_iff]
      intro e he
      rw [bne_iff_ne]
      rintro rfl
      have hone := (hsame e he).mpr rfl
      have hmem := hall e he (hasher.hash_eq_of_same hone)
      exact absurd hone (List.find?_eq_none.mp hfound e hmem)

end PropertyTable

end ObjectLiteral
