import ObjectLiteral.Proofs.Tree.Layout
import ObjectLiteral.Proofs.Tree.LineFeeds
import ObjectLiteral.Proofs.Tree.Occurrences
/-!
Trees under two limits.  A container that is on one line under the smaller limit is so under the
larger one, with the same text, and no text becomes longer when the limit grows: neither in width
nor in line feeds.
-/

namespace ObjectLiteral

open Text

theorem Text.isMeasure_lineFeeds : IsMeasure lineFeeds where
  append := lineFeeds_append
  separator := by decide

def Style.limited (style : Style) (limit : Option Nat) : Style :=
  { style with limit }

namespace Tree

variable {style : Style} {limit limit' : Option Nat} {pad : String} {t : Tree} {g g' : Group}

theorem inline_limited (style : Style) (limit : Option Nat) (t : Tree) :
    t.inline (style.limited limit) = t.inline style := by
  apply inline_congr
  · rfl
  · rfl

theorem group?_limited_eq_none (hg : t.group? (style.limited limit) pad = none) :
    t.group? (style.limited limit') pad = none := by
  cases t with
  | leaf a => rfl
  | cut => rfl
  | array ts => cases hg
  | object fs => cases hg

theorem exists_group?_limited (hg : t.group? (style.limited limit) pad = some g)
    (limit' : Option Nat) : ∃ g', t.group? (style.limited limit') pad = some g' := by
  rw [← Option.isSome_iff_exists, Option.isSome_iff_ne_none]
  intro hnone
  rw [group?_limited_eq_none hnone] at hg
  cases hg

/-- A container that is on one line stays on it when the limit grows. -/
theorem text_eq_oneLine_of_le (hle : limit ≤ limit')
    (hg : t.group? (style.limited limit) pad = some g)
    (hg' : t.group? (style.limited limit') pad = some g')
    (hline : t.text (style.limited limit) pad = g.oneLine) :
    t.text (style.limited limit') pad = g'.oneLine := by
  rw [text_eq_oneLine_iff hg']
  rcases (text_eq_oneLine_iff hg).mp hline with hchildren | ⟨l, hlimit, hfits⟩
  · exact Or.inl hchildren
  · obtain rfl : limit = some l := hlimit
    cases limit' with
    | none => cases hle
    | some l' =>
        rw [inline_limited] at hfits
        refine Or.inr ⟨l', rfl, ?_⟩
        rw [inline_limited]
        exact Nat.le_trans hfits hle

/-- The groups of a container under two limits have the same brackets, and the entries measure no
more under the one limit if they do so on their own. -/
theorem exists_noMore {μ : String → Nat} (hμ : IsMeasure μ)
    (hg : t.group? (style.limited limit) pad = some g)
    (hg' : t.group? (style.limited limit') pad = some g')
    (hentries : ∀ u ∈ t.children, μ (u.text (style.limited limit') (pad ++ style.unit)) ≤
      μ (u.text (style.limited limit) (pad ++ style.unit))) :
    ∃ opening closing ss ss', g = ⟨opening, closing, ss⟩ ∧ g' = ⟨opening, closing, ss'⟩ ∧
      NoMore μ ss' ss := by
  cases t with
  | leaf a => cases hg
  | cut => cases hg
  | array ts =>
      cases hg
      cases hg'
      exact ⟨_, _, _, _, rfl, rfl, noMore_map hentries⟩
  | object fs =>
      cases hg
      cases hg'
      refine ⟨_, _, _, _, rfl, rfl, noMore_map fun f hf => ?_⟩
      exact entry_le hμ (hentries f.2 (List.mem_map.mpr ⟨f, hf, rfl⟩))

/-- No text measures more when the limit grows.  A container may be broken under both limits, and
then its entries decide; otherwise one line under the larger limit is set against any layout. -/
theorem text_le_of_le {μ : String → Nat} (hμ : IsMeasure μ) (hle : limit ≤ limit') (t : Tree)
    (pad : String) :
    μ (t.text (style.limited limit') pad) ≤ μ (t.text (style.limited limit) pad) := by
  induction t using induction_children generalizing pad with
  | step t ih =>
      cases hg : t.group? (style.limited limit) pad with
      | none =>
          have hsame : t.text (style.limited limit') pad = t.text (style.limited limit) pad := by
            rw [text_of_group?_eq_none hg, text_of_group?_eq_none (group?_limited_eq_none hg),
              inline_limited, inline_limited]
          exact Nat.le_of_eq (congrArg μ hsame)
      | some g =>
          obtain ⟨g', hg'⟩ := exists_group?_limited hg limit'
          obtain ⟨opening, closing, ss, ss', rfl, rfl, hentries⟩ :=
            exists_noMore hμ hg hg' fun u hu => ih u hu _
          by_cases hline' : t.text (style.limited limit') pad = (Group.mk opening closing ss').oneLine
          · rw [hline', text_of_group?_eq_some hg]
            exact Nat.le_trans (hμ.oneLine_le opening closing hentries)
              (hμ.oneLine_le_printed _ _ pad)
          · have hline := mt (text_eq_oneLine_of_le hle hg hg') hline'
            rw [text_of_group?_eq_some hg] at hline ⊢
            rw [text_of_group?_eq_some hg'] at hline' ⊢
            rw [(Group.printed_eq_or _ _ pad).resolve_left hline,
              (Group.printed_eq_or _ _ pad).resolve_left hline']
            exact hμ.broken_le opening closing hentries pad style.unit

/-- What a larger limit makes of a tree that is written at `pad` under a smaller one: the line of a
container that is on one line stands in both texts, and the whole becomes neither wider nor
higher. -/
structure NoLonger (style : Style) (limit limit' : Option Nat) (pad : String) (t : Tree) : Prop where
  same_line : ∀ route u g, t.at? route = some u →
    u.group? (style.limited limit) (style.padAt pad route.length) = some g →
    u.text (style.limited limit) (style.padAt pad route.length) = g.oneLine →
    ∃ g', u.group? (style.limited limit') (style.padAt pad route.length) = some g' ∧
      u.text (style.limited limit') (style.padAt pad route.length) = g'.oneLine ∧
      g'.oneLine = g.oneLine ∧
      g.oneLine.toList <:+: (t.text (style.limited limit) pad).toList ∧
      g.oneLine.toList <:+: (t.text (style.limited limit') pad).toList
  lineFeeds_le : lineFeeds (t.text (style.limited limit') pad) ≤
    lineFeeds (t.text (style.limited limit) pad)
  width_le : width (t.text (style.limited limit') pad) ≤ width (t.text (style.limited limit) pad)

theorem padAt_limited (style : Style) (limit : Option Nat) (pad : String) (depth : Nat) :
    (style.limited limit).padAt pad depth = style.padAt pad depth := by
  induction depth generalizing pad with
  | zero => rfl
  | succ depth ih => exact ih (pad ++ style.unit)

theorem noLonger (t : Tree) (style : Style) (hle : limit ≤ limit') (pad : String) :
    t.NoLonger style limit limit' pad where
  same_line route u g hu hg hline := by
    obtain ⟨g', hg'⟩ := exists_group?_limited hg limit'
    have hline' := text_eq_oneLine_of_le hle hg hg' hline
    have hsame : g'.oneLine = g.oneLine := by
      rw [← hline, ← hline', text_eq_inline_of_oneLine hg hline,
        text_eq_inline_of_oneLine hg' hline', inline_limited, inline_limited]
    have hstands := text_infix_of_at? hu (method?_of_group? hg) pad
    have hstands' := text_infix_of_at? hu (method?_of_group? hg') pad
    rw [padAt_limited, hline] at hstands
    rw [padAt_limited, hline', hsame] at hstands'
    exact ⟨g', hg', hline', hsame, hstands, hstands'⟩
  lineFeeds_le := text_le_of_le isMeasure_lineFeeds hle t pad
  width_le := text_le_of_le isMeasure_width hle t pad

end Tree

end ObjectLiteral
