import Mathlib.Data.List.Forall2
import ObjectLiteral.Proofs.Heap.Making
import ObjectLiteral.Proofs.PropertyTable.History
import ObjectLiteral.Proofs.Rendering.Hiding
/-!
Equality as a congruence.  Equal values are rendered alike under any hooks, and a rendering does not
show which of two equal values a container holds.  As keys, equal values are one key.
-/

namespace ObjectLiteral

variable {σ : Type}

/-- Two tables have properties under the same keys, in the same order and alike. -/
def PropertyTable.Alike (t t' : PropertyTable) : Prop :=
  List.Forall₂ (fun e e' => e'.1 = e.1 ∧ e'.2.enumerable = e.2.enumerable ∧
    e.2.value.Alike e'.2.value) t.entries t'.entries

/-- The containers of `h` hold in `h'` what they hold in `h`, up to equality of values. -/
structure Heap.Alike (h h' : Heap) : Prop where
  elements : ∀ r, .array r ∈ h.containers →
    List.Forall₂ Value.Alike (h.elements r).toList (h'.elements r).toList
  properties : ∀ o, .object o ∈ h.containers → (h.properties o).Alike (h'.properties o)

namespace PropertyTable

variable {t t' : PropertyTable}

theorem Alike.displayKeys_eq (ht : t.Alike t') : t'.displayKeys = t.displayKeys := by
  have hkeys : t'.enumerableKeys = t.enumerableKeys := by
    unfold Alike at ht
    unfold enumerableKeys
    generalize t.entries = l at ht
    generalize t'.entries = l' at ht
    induction ht with
    | nil => rfl
    | cons he _ ih =>
        obtain ⟨hkey, hflag, -⟩ := he
        rw [List.filter_cons, List.filter_cons, hflag]
        split
        · rw [List.map_cons, List.map_cons, hkey, ih]
        · exact ih
  rw [displayKeys, displayKeys, hkeys]

theorem Alike.get? (ht : t.Alike t') (k : Key) :
    Value.Alike ((t.get? k).getD default) ((t'.get? k).getD default) := by
  unfold Alike at ht
  unfold PropertyTable.get? find?
  generalize t.entries = l at ht
  generalize t'.entries = l' at ht
  induction ht with
  | nil => exact .refl _
  | @cons e e' l l' he _ ih =>
      obtain ⟨hkey, -, hvalue⟩ := he
      rw [List.lookup_cons, List.lookup_cons, hkey]
      split
      · exact hvalue
      · exact ih

end PropertyTable

namespace Tree

variable {style : Style} {rewrite : Position → String → Except Failure String}

/-- Two trees are written alike wherever they stand. -/
structure WritesAs (style : Style) (rewrite : Position → String → Except Failure String)
    (t u : Tree) : Prop where
  method : u.method? style = t.method? style
  write : ∀ depth pad, u.write style rewrite depth pad = t.write style rewrite depth pad

theorem WritesAs.refl (t : Tree) : WritesAs style rewrite t t :=
  ⟨rfl, fun _ _ => rfl⟩

theorem writesAs_leaf {a b : Atom} (hab : (Value.atom a).Alike (.atom b)) :
    WritesAs style rewrite (.leaf a) (.leaf b) where
  method := hab.method?_eq style
  write depth pad := by
    rw [Tree.write, Tree.write, Atom.literal_eq_of_alike style hab]

theorem writeElements_eq {ts us : List Tree} (hall : List.Forall₂ (WritesAs style rewrite) ts us)
    (depth : Nat) (pad : String) (i : Nat) :
    writeElements style rewrite depth pad i us = writeElements style rewrite depth pad i ts := by
  induction hall generalizing i with
  | nil => rfl
  | cons hfirst _ ih => rw [writeElements, writeElements, hfirst.write, ih]

theorem writeFields_eq {fs gs : List (Key × Tree)}
    (hall : List.Forall₂ (fun f g => g.1 = f.1 ∧ WritesAs style rewrite f.2 g.2) fs gs)
    (depth : Nat) (pad : String) :
    writeFields style rewrite depth pad gs = writeFields style rewrite depth pad fs := by
  induction hall with
  | nil => rfl
  | @cons f g _ _ hfirst _ ih =>
      obtain ⟨k, t⟩ := f
      obtain ⟨j, u⟩ := g
      obtain ⟨rfl, hmethod, hwrite⟩ : j = k ∧ WritesAs style rewrite t u := hfirst
      simp only [writeFields, entry, hwrite, hmethod, ih]

theorem writesAs_array {ts us : List Tree} (hall : List.Forall₂ (WritesAs style rewrite) ts us) :
    WritesAs style rewrite (.array ts) (.array us) where
  method := rfl
  write depth pad := by
    cases hall with
    | nil => rfl
    | cons hfirst hrest =>
        rw [Tree.write, Tree.write, writeElements_eq (.cons hfirst hrest)]

theorem writesAs_object {fs gs : List (Key × Tree)}
    (hall : List.Forall₂ (fun f g => g.1 = f.1 ∧ WritesAs style rewrite f.2 g.2) fs gs) :
    WritesAs style rewrite (.object fs) (.object gs) where
  method := rfl
  write depth pad := by
    cases hall with
    | nil => rfl
    | cons hfirst hrest =>
        rw [Tree.write, Tree.write, writeFields_eq (.cons hfirst hrest)]

end Tree

namespace Heap

variable {h h' : Heap} {keep : ObjectRef → Key → Bool}

/-- The unfoldings of alike values in alike heaps are written alike. -/
theorem Alike.writesAs_unfold (hheap : h.Alike h') (hclosed : h.Closed) (style : Style)
    (rewrite : Position → String → Except Failure String) (path : List Container) {v v' : Value}
    (hv : h.Has v) (halike : v.Alike v') :
    (h.unfold keep path v).WritesAs style rewrite (h'.unfold keep path v') := by
  -- only containers of `h` are met, and `h'` need not be like `h` anywhere else
  induction path, v using Heap.unfold.induct h keep generalizing v' with
  | case1 path a =>
      cases v' with
      | atom b =>
          rw [unfold, unfold]
          exact Tree.writesAs_leaf halike
      | _ => cases halike.container?_eq
  | case2 path r hr =>
      rw [unfold_of_mem rfl hr, unfold_of_mem halike.container?_eq hr]
      exact .refl _
  | case3 path r hr ih =>
      -- a container is alike to itself alone, so both unfoldings meet the same path
      obtain rfl := halike.eq_of_container? rfl
      have hwrites : ∀ v ∈ (h.elements r).toList, ∀ v', v.Alike v' →
          (h.unfold keep (.array r :: path) v).WritesAs style rewrite
            (h'.unfold keep (.array r :: path) v') := fun v hmem v' =>
        ih ⟨v, hmem⟩ (hclosed.has_of_elements hmem)
      rw [unfold_array hr, unfold_array hr]
      refine Tree.writesAs_array ?_
      rw [List.forall₂_map_left_iff, List.forall₂_map_right_iff]
      have hall := (List.forall₂_and_left _ _).mpr ⟨hwrites, hheap.elements r (hv _ rfl)⟩
      exact hall.imp fun v v' hboth => hboth.1 v' hboth.2
  | case4 path o ho =>
      rw [unfold_of_mem rfl ho, unfold_of_mem halike.container?_eq ho]
      exact .refl _
  | case5 path o ho ih =>
      obtain rfl := halike.eq_of_container? rfl
      have htable := hheap.properties o (hv _ rfl)
      have hwrites : ∀ k ∈ (h.properties o).displayKeys.filter (keep o),
          (h.unfold keep (.object o :: path) (((h.properties o).get? k).getD default)).WritesAs
            style rewrite
            (h'.unfold keep (.object o :: path) (((h'.properties o).get? k).getD default)) := by
        intro k hk
        have hfield : (k, ((h.properties o).get? k).getD default) ∈ h.shownFields keep o :=
          List.mem_map_of_mem hk
        refine ih ⟨_, hfield⟩ ?_ (htable.get? k)
        exact (Rendering.frame_keeps hclosed).known_fieldsAt hfield
      rw [unfold_object ho, unfold_object ho]
      refine Tree.writesAs_object ?_
      rw [shownFields, shownFields, htable.displayKeys_eq, fieldsAt, fieldsAt, List.map_map,
        List.map_map, List.forall₂_map_left_iff, List.forall₂_map_right_iff, List.forall₂_same]
      exact fun k hk => ⟨rfl, hwrites k hk⟩

end Heap

/-- Alike values are rendered alike from one world on, whatever the hooks do. -/
theorem render_eq_of_alike (options : Options σ) (pad : String) {a b : Value} (hab : a.Alike b)
    (w : World σ) : render options pad b w = render options pad a w := by
  cases a with
  | array r => rw [hab.eq_of_container? rfl]
  | object o => rw [hab.eq_of_container? rfl]
  | atom a =>
      cases b with
      | atom b => rw [render_atom, render_atom, Atom.literal_eq_of_alike options.style hab]
      | _ => cases hab.container?_eq

/-- Under blind hooks alike values look alike in alike heaps. -/
theorem looksAs_of_alike {options : Options σ} {keep : ObjectRef → Key → Bool}
    {rewrite : Position → String → Except Failure String}
    (hhooks : options.hooks.Blind keep rewrite) (pad : String) {a b : Value} {w w' : World σ}
    (hclosed : w.heap.Closed) (hclosed' : w'.heap.Closed) (ha : w.heap.Has a)
    (hb : w'.heap.Has b) (hheap : w.heap.Alike w'.heap) (hab : a.Alike b) :
    (render options pad a w).LooksAs (render options pad b w') := by
  obtain ⟨hresult, hshape⟩ := render_blind hhooks pad hclosed ha
  obtain ⟨hresult', hshape'⟩ := render_blind hhooks pad hclosed' hb
  have hwrites : (w.heap.unfold keep [] a).WritesAs options.style rewrite
      (w'.heap.unfold keep [] b) :=
    hheap.writesAs_unfold hclosed options.style rewrite [] ha hab
  have hwritten : (w'.heap.unfold keep [] b).written options.style rewrite pad =
      (w.heap.unfold keep [] a).written options.style rewrite pad := by
    rw [Tree.written, Tree.written, hwrites.write]
  rw [hwritten] at hresult' hshape'
  exact ⟨hresult'.trans hresult.symm, hshape'.trans hshape.symm⟩

/-- Changing an object under a key changes what is found under the equal keys alone. -/
theorem PropertyTable.Keyed.find?_apply_of_key? {t : PropertyTable} (ht : t.Keyed) (c : Change)
    {a b : Value} {j : Key} (ha : a.key? = some c.key) (hb : b.key? = some j) :
    (c.apply t).find? j = if a.equals b then c.property? else t.find? j := by
  rw [ht.find?_apply j c]
  exact if_congr (Value.equals_iff_of_key? ha hb).symm rfl rfl

/-- Equality of values is a congruence.  It is symmetric and transitive, and every value is equal to
itself unless it is a double that is a NaN.  Values are equal if they are one such value or both
zeros; so doubles are equal by the numbers they stand for, and what a heap makes, containers,
callables and unique symbols, by its making.  Equal values are rendered alike from one world on,
whatever the hooks do, and hooks that answer by what they are asked see no difference between equal
values anywhere in two heaps.  As keys, values are equal if a change under one of them is a change
under the other. -/
theorem equals_congruence :
    (∀ a b : Value, a.equals b = true → b.equals a = true) ∧
      (∀ a b c : Value, a.equals b = true → b.equals c = true → a.equals c = true) ∧
      (∀ a : Value, a.equals a = true ↔ ∀ x, a.float? = some x → x.isNaN = false) ∧
      (∀ a b : Value, a.equals b = true ↔ a = b ∧ a.equals a = true ∨ a.BothZero b) ∧
      (∀ x y p q, Binary64.value? x = some p → Binary64.value? y = some q →
        ((Value.atom (.number (.float x))).equals (.atom (.number (.float y))) = true ↔ p = q)) ∧
      (∀ s t : Symbol, (Value.atom (.symbol s)).equals (.atom (.symbol t)) = true ↔
        (∃ key, s.registryKey? = some key ∧ t.registryKey? = some key) ∨
          (∃ w, s.wellKnown? = some w ∧ t.wellKnown? = some w) ∨
            ∃ serial d, s = .unique serial d ∧ t = .unique serial d) ∧
      (∀ h vs h', Heap.Makes h vs h' →
        (∀ (i j : Nat) a b, vs[i]? = some a → vs[j]? = some b → (a.equals b = true ↔ i = j)) ∧
          ∀ a ∈ vs, ∀ u, h.Issued u → a.equals u = false) ∧
      (∀ (options : Options σ) pad a b w, a.equals b = true →
        render options pad a w = render options pad b w) ∧
      (∀ (options : Options σ) keep rewrite, options.hooks.Blind keep rewrite →
        ∀ pad a b w w', w.heap.Closed → w'.heap.Closed → w.heap.Has a → w'.heap.Has b →
          w.heap.Alike w'.heap → a.equals b = true →
            (render options pad a w).LooksAs (render options pad b w')) ∧
      (∀ a b : Value, a.equals b = true → a.key? = b.key?) ∧
      ∀ (t : PropertyTable) (c : Change) (a b : Value) (j : Key), t.Keyed →
        a.key? = some c.key → b.key? = some j →
          (c.apply t).find? j = if a.equals b then c.property? else t.find? j := by
  refine ⟨fun a b => Value.equals_symm, fun a b c => Value.equals_trans,
    fun a => Value.equals_self_iff, fun a b => ?_, fun x y p q => ?_,
    fun s t => Value.equals_symbol_iff, fun h vs h' => ?_, fun options pad a b w hab => ?_, ?_,
    fun a b hab => ?_, fun t c a b j ht => ?_⟩
  · rw [Value.equals_self_iff]
    exact Value.equals_iff
  · exact Binary64.equals_iff_of_value?
  · exact Heap.Makes.equals_iff
  · exact (render_eq_of_alike options pad (Or.inr hab) w).symm
  · intro options keep rewrite hhooks pad a b w w' hclosed hclosed' ha hb hheap hab
    exact looksAs_of_alike hhooks pad hclosed hclosed' ha hb hheap (Or.inr hab)
  · exact (Value.Alike.key?_eq (Or.inr hab)).symm
  · exact ht.find?_apply_of_key? c

namespace CongruenceWitness

def zero : Binary64 :=
  ⟨0⟩

def minusZero : Binary64 :=
  .ofMagnitude true 0

def float (x : Binary64) : Value :=
  .atom (.number (.float x))

def tag : Symbol :=
  .registered "tag"

/-- An array that holds a zero, itself and an object with the same zero under a symbol. -/
def heap (x : Binary64) : Heap :=
  ⟨#[#[float x, .array ⟨0⟩, .object ⟨0⟩]], #[⟨[(.symbol tag, ⟨float x, true⟩)]⟩], 0⟩

def rewrite (p : Position) (text : String) : Except Failure String :=
  .ok (p.text ++ "=" ++ text)

/-- A transform that writes the position before the entry and counts its calls. -/
def hooks : Hooks Nat where
  transform := some fun _ p text w => .ok (p.text ++ "=" ++ text) ⟨w.heap, w.state + 1⟩

def options : Options Nat :=
  ⟨{ indent := " " }, hooks⟩

theorem blind_hooks : options.hooks.Blind (fun _ _ => true) rewrite where
  filter f hf := by cases hf
  no_filter _ _ _ := rfl
  transform f hf c p text w := by
    cases hf
    exact ⟨_, rfl, .refl w.heap⟩
  no_transform hnone := by cases hnone

theorem alike_heap : (heap zero).Alike (heap minusZero) where
  elements r hr := by
    obtain ⟨i⟩ := r
    obtain rfl : i = 0 := Nat.lt_one_iff.mp (Heap.array_mem_containers_iff.mp hr)
    exact .cons (Or.inr rfl) (.cons (.refl _) (.cons (.refl _) .nil))
  properties o ho := by
    obtain ⟨i⟩ := o
    obtain rfl : i = 0 := Nat.lt_one_iff.mp (Heap.object_mem_containers_iff.mp ho)
    exact .cons ⟨rfl, rfl, Or.inr rfl⟩ .nil

/-- What an array with a zero looks like, whichever zero it is. -/
def text : String :=
  "[\n 0=0,\n 1=\"[Circular]\",\n 2=\x7b\n  [Symbol.for('tag')]: Symbol(tag)=0\n \x7d\n]"

theorem equals_congruence_zeros :
    (float zero).equals (float minusZero) = true ∧ (float minusZero).equals (float zero) = true ∧
      (float zero).equals (float zero) = true ∧ zero.value? = minusZero.value? ∧
      (Value.atom (.symbol (.unique 1 none))).equals (.atom (.symbol (.unique 0 none))) = false ∧
      render options "" (float zero) ⟨heap zero, 0⟩ =
        render options "" (float minusZero) ⟨heap zero, 0⟩ ∧
      (render options "" (.array ⟨0⟩) ⟨heap zero, 0⟩).result = .ok text ∧
      (render options "" (.array ⟨0⟩) ⟨heap minusZero, 7⟩).result = .ok text ∧
      ((Change.erase (.symbol tag)).apply ((heap zero).properties ⟨0⟩)).find? (.symbol tag) =
        none := by
  obtain ⟨hsymm, htrans, -, hequal, hvalue, hsymbol, hmade, hrender, hlooks, -, hchange⟩ :=
    equals_congruence (σ := Nat)
  have hzeros : (float zero).equals (float minusZero) = true :=
    (hequal _ _).mpr (Or.inr ⟨zero, minusZero, rfl, rfl, by decide, by decide⟩)
  have hfinite : zero.IsFinite ∧ minusZero.IsFinite := by
    unfold Binary64.IsFinite
    decide
  have hzero := Binary64.value?_of_isFinite hfinite.1
  have hminus := Binary64.value?_of_isFinite hfinite.2
  have hmakes : Heap.Makes .empty
      [.atom (.symbol (.unique 1 none)), .atom (.symbol (.unique 0 none))] _ :=
    .make (.make .start (.symbol none)) (.symbol none)
  have htext : (render options "" (.array ⟨0⟩) ⟨heap zero, 0⟩).result = .ok text :=
    Outcome.result_eq_ok (by decide +kernel)
  refine ⟨hzeros, hsymm _ _ hzeros, htrans _ _ _ hzeros (hsymm _ _ hzeros), ?_, ?_,
    hrender options "" _ _ _ hzeros, htext, ?_, ?_⟩
  · rw [hzero, hminus, (hvalue _ _ _ _ hzero hminus).mp hzeros]
  · refine Bool.eq_false_iff.mpr fun heq => ?_
    exact absurd (((hmade _ _ _ hmakes).1 0 1 _ _ rfl rfl).mp heq) (by decide)
  · have halike := hlooks options _ _ blind_hooks "" (.array ⟨0⟩) (.array ⟨0⟩) ⟨heap zero, 0⟩
      ⟨heap minusZero, 7⟩ (by decide) (by decide) (by decide) (by decide) alike_heap rfl
    exact halike.result.trans htext
  · have htag : (Value.atom (.symbol tag)).equals (.atom (.symbol tag)) = true :=
      (hsymbol tag tag).mpr (Or.inl ⟨"tag", rfl, rfl⟩)
    rw [hchange _ (.erase (.symbol tag)) (.atom (.symbol tag)) (.atom (.symbol tag)) _ (by decide)
      rfl rfl, if_pos htag]
    rfl

end CongruenceWitness

end ObjectLiteral
