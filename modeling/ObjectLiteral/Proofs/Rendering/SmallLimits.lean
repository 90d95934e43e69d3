import ObjectLiteral.Proofs.Group.Width
import ObjectLiteral.Proofs.Hooks.Watching
import ObjectLiteral.Proofs.Rendering.Limits
import ObjectLiteral.Proofs.Rendering.Parallel
/-!
Limits that are too small.  The one-line form of a container is two brackets at least, so under a
limit below two every container is broken over lines, as it is without a limit.  Then no hook can
tell the limit from none: it is asked the same in the same world, whatever hooks do.
-/

namespace ObjectLiteral

variable {σ : Type}

namespace Rendering

variable {path : List Container} {inv : World σ → Prop}

/-- Under a limit that is too small a group is broken as it is without one. -/
theorem parallel_laid_tooSmall (style : Style) {limit : Nat} (hlimit : limit < 2) (pad : String)
    (g : Group) :
    Parallel (Likeness.sameWorld.keeping inv) path (laid (style.limited (some limit)) pad g)
      (laid (style.limited none) pad g) Eq := by
  have hwide : (g.decision limit).fits = false := by
    rw [Bool.eq_false_iff, ne_eq, g.decision_fits_iff]
    have htwo := g.two_le_width_oneLine
    omega
  have htext : g.text pad style.unit (some (g.decision limit)) = g.text pad style.unit none := by
    rw [Group.text, hwide]
    rfl
  rintro ⟨world, active, journal⟩ run' hpath ⟨hworld, hactive, hjournal⟩
  exact .ok htext hpath ⟨hworld, hactive, hjournal⟩

theorem writesAlike_tooSmall (options : Options σ) {limit : Nat} (hlimit : limit < 2) :
    WritesAlike .sameWorld (options.limited (some limit)) (options.limited none) := by
  have htransformed : ∀ path inv, Maintains options.hooks path inv → ∀ c p text,
      Parallel (Likeness.sameWorld.keeping inv) path (transformed options.hooks c p text)
        (transformed options.hooks c p text) Eq := by
    intro path inv hinv c p text
    refine parallel_transformed hinv rfl (rel_self (fun f w w' hw _ => ?_) _)
    exact callsEnd_sameWorld (f c p text) hw
  refine ⟨rfl, fun a => ?_, fun _ _ => parallel_laid_tooSmall options.style hlimit,
    fun path inv hinv o k ho => ?_, fun path inv hinv _ _ => htransformed path inv hinv _ _,
    fun path inv hinv o k text _ _ _ _ => ?_⟩
  · cases a <;> rfl
  · refine parallel_shown hinv (rel_self (fun f w w' hw _ => ?_) _) ho
    exact callsEnd_sameWorld (f o k) hw
  · refine (htransformed path inv hinv _ _ text).imp ?_
    rintro text _ rfl
    rfl

end Rendering

/-- Whatever hooks do to the world, and whether they fail or not, a limit below two is none: the
text or the cause of the stop, the world that is left, all events but layouts, and all calls of
hooks are the same, each call with what the hook was asked and with the worlds before and after. -/
theorem render_tooSmall (options : Options σ) {limit : Nat} (hlimit : limit < 2) (pad : String)
    (v : Value) (w : World σ) :
    (render (options.limited (some limit)) pad v w).result =
        (render (options.limited none) pad v w).result ∧
      (render (options.limited (some limit)) pad v w).world =
        (render (options.limited none) pad v w).world ∧
      apartFromLayouts (render (options.limited (some limit)) pad v w).events =
        apartFromLayouts (render (options.limited none) pad v w).events ∧
      calls (options.limited (some limit)) pad v w = calls (options.limited none) pad v w := by
  have hbeside := render_beside (Rendering.writesAlike_tooSmall options hlimit) rfl pad v
    (show Likeness.sameWorld.going w w from rfl)
  have hwatched := render_beside
    (Rendering.writesAlike_tooSmall (options.watched allPass) hlimit) rfl pad v
    (show Likeness.sameWorld.going (w.watched []) (w.watched []) from rfl)
  exact ⟨hbeside.result.symm, hbeside.world.symm, hbeside.events.symm,
    congrArg (fun w => w.state.calls) hwatched.world.symm⟩

namespace SmallLimitsWitness

/-- A filter that adds to an array with every answer, and a transform that gives nothing for
elements of arrays and refuses the key `b`. -/
def hooks : Hooks Unit where
  filter := some fun _ _ w => .ok true ⟨w.heap.push ⟨0⟩ (.atom .null), ()⟩
  transform := some fun _ p text w =>
    match p with
    | .index _ => .ok "" w
    | .key k => if k = .name "b" then .error (.hook "enough") w else .ok text w

def options : Options Unit :=
  ⟨{}, hooks⟩

/-- An object that holds an empty array in front of a key that is refused. -/
def world : World Unit :=
  ⟨⟨#[#[]], #[⟨[(.name "a", ⟨.array ⟨0⟩, true⟩), (.name "b", ⟨.atom .null, true⟩)]⟩], 0⟩, ()⟩

def root : Value :=
  .object ⟨0⟩

theorem render_tooSmall_refused :
    1 < 2 ∧
      (render (options.limited (some 1)) "" root world).result =
        .error (.failed (.hook "enough")) ∧
      ((render (options.limited (some 1)) "" root world).world.heap.elements ⟨0⟩).size = 2 ∧
      (calls (options.limited (some 1)) "" root world).length = 6 := by
  have hlimit : 1 < 2 := by decide
  obtain ⟨hresult, hworld, -, hcalls⟩ := render_tooSmall options hlimit "" root world
  rw [hresult, hworld, hcalls]
  exact ⟨hlimit, by decide +kernel, by decide +kernel, by decide +kernel⟩

end SmallLimitsWitness

end ObjectLiteral
