import ObjectLiteral.Proofs.Tree.Basic
import ObjectLiteral.Rendering
/-!
Stretches of a rendering under hooks of any kind.  A step that ends without a stop leaves the
active containers as it found them and only adds to the journal, whatever the hooks did to the
world meanwhile; so it is described by its result, the worlds at its two ends and the events in
between.
-/

namespace ObjectLiteral

variable {σ α β : Type}

/-- A stretch of a rendering: the worlds at its ends, and the events in between. -/
structure Span (σ : Type) where
  before : World σ
  events : List Event
  after : World σ

namespace Span

def still (w : World σ) : Span σ :=
  ⟨w, [], w⟩

/-- The stretch in which an event is told and the world stays as it is. -/
def told (w : World σ) (events : List Event) : Span σ :=
  ⟨w, events, w⟩

def append (s s' : Span σ) : Span σ :=
  ⟨s.before, s.events ++ s'.events, s'.after⟩

instance : Append (Span σ) := ⟨append⟩

@[simp] theorem before_append (s s' : Span σ) : (s ++ s').before = s.before := rfl

@[simp] theorem events_append (s s' : Span σ) : (s ++ s').events = s.events ++ s'.events := rfl

@[simp] theorem after_append (s s' : Span σ) : (s ++ s').after = s'.after := rfl

theorem append_told (s : Span σ) (events : List Event) :
    s ++ told s.after events = ⟨s.before, s.events ++ events, s.after⟩ := rfl

@[simp] theorem append_still (s : Span σ) : s ++ still s.after = s :=
  congrArg (Span.mk s.before · s.after) (List.append_nil _)

/-- Stretches that lead from one world to another, each from where the one before it ended. -/
def Chain : World σ → List (Span σ) → World σ → Prop
  | w, [], w' => w' = w
  | w, s :: rest, w' => s.before = w ∧ Chain s.after rest w'

end Span

/-- What consulting a hook gives, does to the world and tells: with the hook one call of it, and
without it the default and nothing else. -/
def Consults (hook? : Option (HookM σ α)) (default : α) (event : World σ → Event) (answer : α)
    (s : Span σ) : Prop :=
  match hook? with
  | none => answer = default ∧ s = .still s.before
  | some hook => hook s.before = .ok answer s.after ∧ s.events = [event s.before]

/-- The filter is consulted about a key. -/
def Hooks.Judges (hooks : Hooks σ) (o : ObjectRef) (k : Key) : Bool → Span σ → Prop :=
  Consults (hooks.filter.map fun filter => filter o k) true
    fun w => .filtering o k (w.heap.count (.object o))

/-- The transform is consulted about the text of an entry. -/
def Hooks.Rewrites (hooks : Hooks σ) (c : Container) (p : Position) (text : String) :
    String → Span σ → Prop :=
  Consults (hooks.transform.map fun transform => transform c p text) text
    fun w => .transforming c p (w.heap.count c) text

/-- What is told of the layout of a group: one decision if there is a limit and there are
entries. -/
def Group.told (g : Group) (style : Style) : List Event :=
  match g.entries, style.limit with
  | _ :: _, some limit => [.layout (g.decision limit).width limit (g.decision limit).fits]
  | _, _ => []

namespace Rendering

/-- Wherever a step that starts below `path` ends without a stop, its stretch satisfies `post`, the
containers of `path` are active again, and the journal has grown by the events of the stretch. -/
def Stretches (path : List Container) (m : RenderM σ α) (post : α → Span σ → Prop) : Prop :=
  ∀ world journal a run, m ⟨world, path, journal⟩ = .ok a run →
    ∃ s : Span σ, s.before = world ∧ run = ⟨s.after, path, s.events.reverse ++ journal⟩ ∧ post a s

variable {path : List Container} {hooks : Hooks σ}

theorem Stretches.pure {post : α → Span σ → Prop} {a : α} (hpost : ∀ w, post a (.still w)) :
    Stretches path (pure a : RenderM σ α) post := by
  intro world journal b run hrun
  cases hrun
  exact ⟨.still world, rfl, rfl, hpost world⟩

theorem Stretches.bind {m : RenderM σ α} {f : α → RenderM σ β} {mid : α → Span σ → Prop}
    {post : β → Span σ → Prop} (hm : Stretches path m mid)
    (hf : ∀ a s, mid a s →
      Stretches path (f a) fun b s' => s'.before = s.after → post b (s ++ s')) :
    Stretches path (m >>= f) post := by
  intro world journal b run hrun
  simp only [Bind.bind, EStateM.bind] at hrun
  split at hrun
  · rename_i a run' hstep
    obtain ⟨s, rfl, rfl, hmid⟩ := hm world journal a run' hstep
    obtain ⟨s', hbefore, rfl, hpost⟩ := hf a s hmid _ _ b run hrun
    refine ⟨s ++ s', rfl, ?_, hpost hbefore⟩
    simp only [Span.events_append, Span.after_append, List.reverse_append, List.append_assoc]
  · cases hrun

theorem Stretches.map {m : RenderM σ α} {f : α → β} {mid : α → Span σ → Prop}
    {post : β → Span σ → Prop} (hm : Stretches path m mid)
    (hf : ∀ a s, mid a s → post (f a) s) :
    Stretches path (m >>= fun a => Pure.pure (f a)) post := by
  refine hm.bind fun a s hmid => .pure fun w hw => ?_
  obtain rfl : w = s.after := hw
  rw [Span.append_still]
  exact hf a s hmid

theorem Stretches.imp {m : RenderM σ α} {post post' : α → Span σ → Prop}
    (hm : Stretches path m post) (himp : ∀ a s, post a s → post' a s) :
    Stretches path m post' := by
  intro world journal a run hrun
  obtain ⟨s, hbefore, hafter, hpost⟩ := hm world journal a run hrun
  exact ⟨s, hbefore, hafter, himp a s hpost⟩

/-- Looking at the heap takes no stretch of its own. -/
theorem stretches_heap_bind {f : Heap → RenderM σ α} {post : α → Span σ → Prop}
    (hf : ∀ h, Stretches path (f h) fun a s => s.before.heap = h → post a s) :
    Stretches path (heap >>= f) post := by
  intro world journal a run hrun
  obtain ⟨s, hbefore, hafter, hpost⟩ := hf world.heap world journal a run hrun
  exact ⟨s, hbefore, hafter, hpost (congrArg World.heap hbefore)⟩

theorem stretches_tell (e : Event) :
    Stretches path (tell e : RenderM σ Unit) fun _ s => s = .told s.before [e] := by
  intro world journal a run hrun
  cases hrun
  exact ⟨.told world [e], rfl, rfl, rfl⟩

theorem stretches_call (f : HookM σ α) :
    Stretches path (call f) fun a s => f s.before = .ok a s.after ∧ s.events = [] := by
  intro world journal a run hrun
  simp only [call] at hrun
  split at hrun
  · rename_i b world' hcall
    cases hrun
    exact ⟨⟨world, [], world'⟩, rfl, rfl, hcall, rfl⟩
  · cases hrun

theorem stretches_within {c : Container} {m : RenderM σ α} {post : α → Span σ → Prop}
    (hm : Stretches (c :: path) m post) : Stretches path (within c m) post := by
  intro world journal a run hrun
  simp only [within] at hrun
  split at hrun
  · rename_i b world' active' journal' hstep
    cases hrun
    obtain ⟨s, hbefore, hafter, hpost⟩ := hm world journal _ _ hstep
    cases hafter
    exact ⟨s, hbefore, rfl, hpost⟩
  · cases hrun

theorem stretches_unlessActive_of_mem {c : Container} {text : RenderM σ String} (hc : c ∈ path) :
    Stretches path (unlessActive c text) fun t s =>
      t = circularMark ∧ s = .told s.before [.cut path.length] := by
  intro world journal t run hrun
  rw [unlessActive_of_mem ⟨world, path, journal⟩ hc] at hrun
  cases hrun
  exact ⟨.told world [.cut path.length], rfl, rfl, rfl, rfl⟩

theorem stretches_unlessActive {c : Container} {text : RenderM σ String}
    {post : String → Span σ → Prop} (hc : c ∉ path) (htext : Stretches path text post) :
    Stretches path (unlessActive c text) post := by
  intro world journal t run hrun
  rw [unlessActive_of_not_mem ⟨world, path, journal⟩ hc] at hrun
  exact htext world journal t run hrun

theorem stretches_asked (event : Heap → Event) (f : HookM σ α) :
    Stretches path (do tell (event (← heap)); call f) fun a s =>
      f s.before = .ok a s.after ∧ s.events = [event s.before.heap] := by
  refine stretches_heap_bind fun h => (stretches_tell _).bind fun _ s htell => ?_
  refine (stretches_call f).imp fun a s' hcall hs' hs => ?_
  obtain ⟨hanswer, hsilent⟩ := hcall
  have hbefore : s'.before = s.before := by
    rw [hs', htell]
    rfl
  rw [hbefore] at hanswer
  refine ⟨hanswer, ?_⟩
  rw [Span.events_append, hsilent, htell, ← hs]
  rfl

theorem stretches_shown (o : ObjectRef) (k : Key) :
    Stretches path (shown hooks o k) (hooks.Judges o k) := by
  unfold shown Hooks.Judges
  cases hooks.filter with
  | none => exact .pure fun _ => ⟨rfl, rfl⟩
  | some filter => exact stretches_asked (fun h => .filtering o k (h.count (.object o))) _

theorem stretches_transformed (c : Container) (p : Position) (text : String) :
    Stretches path (transformed hooks c p text) (hooks.Rewrites c p text) := by
  unfold transformed Hooks.Rewrites
  cases hooks.transform with
  | none => exact .pure fun _ => ⟨rfl, rfl⟩
  | some transform => exact stretches_asked (fun h => .transforming c p (h.count c) text) _

theorem stretches_laid (style : Style) (pad : String) {g : Group} (hentries : g.entries ≠ []) :
    Stretches path (laid style pad g : RenderM σ String) fun text s =>
      text = g.printed style pad ∧ s = .told s.before (g.told style) := by
  rw [Group.printed_of_ne_nil hentries]
  unfold laid Group.told
  cases hg : g.entries with
  | nil => contradiction
  | cons e es =>
      cases style.limit with
      | none => exact .pure fun _ => ⟨rfl, rfl⟩
      | some limit =>
          refine (stretches_tell _).bind fun _ s htell => .pure fun w hw => ⟨rfl, ?_⟩
          cases hw
          rw [htell]
          rfl

end Rendering

end ObjectLiteral
