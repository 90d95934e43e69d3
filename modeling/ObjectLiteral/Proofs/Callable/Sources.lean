import ObjectLiteral.Proofs.Callable.Declarations
import ObjectLiteral.Proofs.Rendering.Depth
/-!
What the text of a callable keeps of its source.  A method gets the keyword of a full declaration in
front, and where it is async its `async` is moved; the cut for that is made after five bytes, so a
source that does not begin with the word loses what stands in its place.
-/

namespace ObjectLiteral

namespace Callable

open Text

/-- A text has a source in it whole: as it is, behind `function`, or with `function` put in behind
its `async`. -/
inductive KeepsSource (kind : Kind) (source : String) : String → Prop
  | verbatim : KeepsSource kind source source
  | behindFunction : KeepsSource kind source ("function " ++ source)
  | insideAsync {rest : String} (hkind : kind.isAsync = true) (hsource : source = "async" ++ rest) :
      KeepsSource kind source ("async function" ++ rest)

/-- An async method whose source does not begin with `async`. -/
def IsMisread (c : Callable) (source : String) : Prop :=
  c.kind.isAsync = true ∧ c.methodSource? = some source ∧ ¬ "async".toList <+: source.toList

theorem prefix_of_eq_append {first rest s : String} (hs : s = first ++ rest) :
    first.toList <+: s.toList := by
  rw [hs, String.toList_append]
  exact List.prefix_append _ _

/-- An async source that begins with `async` is kept. -/
theorem keepsSource_fullDeclaration {kind : Kind} {source : String}
    (hasync : kind.isAsync = true → "async".toList <+: source.toList) :
    KeepsSource kind source (fullDeclaration kind source) := by
  unfold fullDeclaration
  split
  · rename_i hkind
    obtain ⟨rest, hrest⟩ := hasync hkind
    have hsource : source = "async" ++ String.ofList rest := by
      apply String.toList_inj.mp
      calc source.toList = "async".toList ++ rest := hrest.symm
        _ = "async".toList ++ (String.ofList rest).toList := by rw [@String.toList_ofList rest]
        _ = ("async" ++ String.ofList rest).toList := String.toList_append.symm
    rw [← hrest, afterAsync_append]
    exact .insideAsync hkind hsource
  · exact .behindFunction

/-- Any other async source is not, since every text of a full declaration begins with `async`. -/
theorem not_keepsSource_fullDeclaration {kind : Kind} {source : String}
    (hkind : kind.isAsync = true) (hasync : ¬ "async".toList <+: source.toList) :
    ¬ KeepsSource kind source (fullDeclaration kind source) := by
  rw [fullDeclaration, if_pos hkind]
  generalize String.ofList (afterAsync source.toList) = rest
  generalize htext : "async function" ++ rest = text
  have hopening : "async".toList <+: text.toList :=
    (by decide : "async".toList <+: "async function".toList).trans (prefix_of_eq_append htext.symm)
  intro hkeeps
  cases hkeeps with
  | verbatim => exact hasync hopening
  | behindFunction =>
      rw [String.toList_append] at hopening
      exact absurd (List.cons_prefix_cons.mp hopening).1 (by decide)
  | insideAsync hkind hsource => exact hasync (prefix_of_eq_append hsource)

theorem shorthand?_eq_some_iff {c : Callable} {recognised : Bool} {source : String} :
    c.shorthand? recognised = some source ↔
      recognised = true ∧ c.methodSource? = some source := by
  unfold shorthand?
  cases recognised <;> simp

/-- The text of a callable has its source whole unless the source is misread, and then `async
function` stands before what is left of the source behind five bytes. -/
theorem literal?_keepsSource_iff (h : Heap) (style : Style) (pad : String) (serial : Nat)
    (name : String) (kind : Kind) (source : String) :
    ∃ text,
      h.literal? style pad (.atom (.callable ⟨serial, name, kind, some source⟩)) = some text ∧
      (KeepsSource kind source text ↔ ¬ (style.methodShorthand = true ∧
        IsMisread ⟨serial, name, kind, some source⟩ source)) ∧
      (style.methodShorthand = true → IsMisread ⟨serial, name, kind, some source⟩ source →
        text = "async function" ++ String.ofList (afterAsync source.toList)) := by
  refine ⟨_, h.literal?_atom style pad _, ?_⟩
  rw [Atom.literal, text]
  cases hshorthand : shorthand? style.methodShorthand ⟨serial, name, kind, some source⟩ with
  | none =>
      have hread : ¬ (style.methodShorthand = true ∧
          IsMisread ⟨serial, name, kind, some source⟩ source) := by
        rintro ⟨hrecognised, -, hmethod, -⟩
        rw [shorthand?_eq_some_iff.mpr ⟨hrecognised, hmethod⟩] at hshorthand
        cases hshorthand
      exact ⟨iff_of_true .verbatim hread, fun hrecognised hbad => absurd ⟨hrecognised, hbad⟩ hread⟩
  | some source' =>
      obtain rfl : source = source' := Option.some.inj (source_of_shorthand? hshorthand)
      obtain ⟨hrecognised, hmethod⟩ := shorthand?_eq_some_iff.mp hshorthand
      refine ⟨⟨?_, ?_⟩, ?_⟩
      · rintro hkeeps ⟨-, hasync, -, hopening⟩
        exact not_keepsSource_fullDeclaration hasync hopening hkeeps
      · intro hread
        refine keepsSource_fullDeclaration fun hasync => ?_
        by_contra hopening
        exact hread ⟨hrecognised, hasync, hmethod, hopening⟩
      · rintro - ⟨hasync, -, -⟩
        exact if_pos hasync

/-- A source of an async method that leaves `async` out. -/
def bareSource : String :=
  "load() \x7b await x \x7d"

/-- Of a source without `async` the first five bytes are lost, here the name of the method. -/
theorem literal?_loses_name :
    ∃ text, Heap.empty.literal? {} "" (.atom (.callable ⟨0, "load", .async, some bareSource⟩)) =
        some text ∧
      text = "async function) \x7b await x \x7d" ∧ ¬ KeepsSource .async bareSource text ∧
      ¬ bareSource.toList <:+: text.toList := by
  have hasync : Kind.async.isAsync = true := rfl
  have hrest : afterAsync bareSource.toList = ") \x7b await x \x7d".toList := rfl
  have hdeclared : declared .async bareSource.toList = ") \x7b await x \x7d".toList := by
    have htrivia : afterTrivium? ") \x7b await x \x7d".toList = none := rfl
    rw [declared, if_pos hasync, hrest, dropTrivia_of_none htrivia]
  have hmethod : methodSource? ⟨0, "load", .async, some bareSource⟩ = some bareSource := by
    rw [methodSource?_eq rfl, hdeclared]
    exact if_pos rfl
  have htext : text true ⟨0, "load", .async, some bareSource⟩ =
      fullDeclaration .async bareSource := by
    rw [text, shorthand?_eq_some_iff.mpr ⟨rfl, hmethod⟩]
  have hfull : fullDeclaration .async bareSource = "async function) \x7b await x \x7d" := by
    rw [fullDeclaration, if_pos hasync, hrest, String.ofList_toList]
    rfl
  refine ⟨_, Heap.empty.literal?_atom {} "" _, htext.trans hfull, ?_, ?_⟩
  · rw [Atom.literal, htext]
    exact not_keepsSource_fullDeclaration hasync (by decide)
  · rw [Atom.literal, htext, hfull]
    intro hin
    have hname : 'l' ∈ bareSource.toList := by decide
    exact absurd (hin.subset hname) (by decide)

end Callable

end ObjectLiteral
