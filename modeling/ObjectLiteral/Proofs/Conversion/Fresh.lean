import ObjectLiteral.Proofs.Conversion.Image
import ObjectLiteral.Proofs.Rendering.Uncut
/-!
Conversion builds anew.  A value that is made of data holds the tree of the data, in containers
that were made for it alone.  A value whose key comes again is dropped, with all that was built
for it; nothing else refers to that.
-/

namespace ObjectLiteral

variable {α β : Type} {h h' h'' : Heap}

namespace Heap

/-- The heap has grown by containers in which the value holds the tree. -/
def Built (h h' : Heap) (v : Value) (t : Tree) : Prop :=
  ∃ footprint, h.Grown h' [⟨v, t, footprint⟩]

/-- The heap has grown by containers in which the values hold the trees. -/
def BuiltAll (h h' : Heap) (vs : List Value) (ts : List Tree) : Prop :=
  ∃ slots : List Slot, vs = slots.map (·.value) ∧ ts = slots.map (·.tree) ∧ h.Grown h' slots

/-- The heap has grown by containers in which values hold the trees, and the values were inserted
one after the other, which leads from one table to the other. -/
def Inserted (h h' : Heap) (table table' : PropertyTable) (trees : List (Key × Tree)) : Prop :=
  ∃ pairs : List (Key × Slot), trees = pairs.map (fun p => (p.1, p.2.tree)) ∧
    table' = (pairs.map fun p => (p.1, p.2.value)).foldl (fun t e => t.insert e.1 e.2) table ∧
    h.Grown h' (pairs.map (·.2))

theorem built_atom (h : Heap) (a : Atom) : h.Built h (.atom a) (.leaf a) :=
  ⟨[], .atoms h [a]⟩

theorem builtAll_nil (h : Heap) : h.BuiltAll h [] [] :=
  ⟨[], rfl, rfl, .nil h⟩

theorem builtAll_atoms (h : Heap) (as : List Atom) :
    h.BuiltAll h (as.map .atom) (as.map .leaf) :=
  ⟨_, by simp, by simp, .atoms h as⟩

theorem inserted_nil (h : Heap) (table : PropertyTable) : h.Inserted h table table [] :=
  ⟨[], rfl, rfl, .nil h⟩

variable {v : Value} {t : Tree} {table table' : PropertyTable} {trees : List (Key × Tree)}

theorem Built.cons {vs : List Value} {ts : List Tree} (hfirst : h.Built h' v t)
    (hrest : h'.BuiltAll h'' vs ts) : h.BuiltAll h'' (v :: vs) (t :: ts) := by
  obtain ⟨footprint, hfirst⟩ := hfirst
  obtain ⟨slots, rfl, rfl, hrest⟩ := hrest
  exact ⟨⟨v, t, footprint⟩ :: slots, rfl, rfl, hfirst.append hrest⟩

theorem Built.insert {k : Key} (hfirst : h.Built h' v t)
    (hrest : h'.Inserted h'' (table.insert k v) table' trees) :
    h.Inserted h'' table table' ((k, t) :: trees) := by
  obtain ⟨footprint, hfirst⟩ := hfirst
  obtain ⟨pairs, rfl, htable, hrest⟩ := hrest
  exact ⟨(k, ⟨v, t, footprint⟩) :: pairs, rfl, htable, hfirst.append hrest⟩

/-- What was built for a key is left behind. -/
theorem Built.skip (hfirst : h.Built h' v t) (hrest : h'.Inserted h'' table table' trees) :
    h.Inserted h'' table table' trees := by
  obtain ⟨footprint, hfirst⟩ := hfirst
  obtain ⟨pairs, htrees, htable, hrest⟩ := hrest
  have hdropped := (hfirst.append hrest).subperm (List.sublist_cons_self _ _).subperm
  exact ⟨pairs, htrees, htable, hdropped⟩

theorem Built.mapKey? (hbuilt : h.Built h' v t) : t.mapKey? = v.mapKey? := by
  obtain ⟨footprint, hgrown⟩ := hbuilt
  have hholds : h'.Holds v t footprint := by simpa using hgrown.holds
  cases hholds <;> rfl

end Heap

namespace Conversion

/-- A step that follows another one starts where that one ended. -/
theorem exists_of_bind {m : ConvertM α} {f : α → ConvertM β} {b : β}
    (hok : (m >>= f) h = .ok (b, h'')) :
    ∃ a h', m h = .ok (a, h') ∧ f a h' = .ok (b, h'') := by
  simp only [Bind.bind, StateT.bind] at hok
  cases hm : m h with
  | error failure => simp [hm, Except.bind] at hok
  | ok r => exact ⟨r.1, r.2, rfl, by simpa [hm, Except.bind] using hok⟩

theorem built_newArray {vs : List Value} {ts : List Tree} {v : Value}
    (hbuilt : h.BuiltAll h' vs ts) (hok : newArray vs h' = .ok (v, h'')) :
    h.Built h'' v (.array ts) := by
  obtain ⟨slots, rfl, rfl, hgrown⟩ := hbuilt
  cases hok
  exact ⟨_, hgrown.newArray⟩

/-- An object is built of what was gathered; what came before it under a key is left behind. -/
theorem built_newObject {table : PropertyTable} {trees : List (Key × Tree)} {v : Value}
    (hinserted : h.Inserted h' .empty table trees) (hok : newObject table h' = .ok (v, h'')) :
    h.Built h'' v (.keyed trees) := by
  obtain ⟨pairs, rfl, rfl, hgrown⟩ := hinserted
  cases hok
  obtain ⟨part, hperm, hsublist⟩ := gathered_subperm pairs
  have hpart : h.Grown h' ((gathered pairs).map (·.2)) :=
    hgrown.subperm ⟨part.map (·.2), hperm.map _, hsublist.map _⟩
  have hentries : (PropertyTable.ofList (pairs.map fun p => (p.1, p.2.value))).entries =
      (gathered pairs).map fun f => (f.1, ⟨f.2.value, true⟩) := by
    simp [PropertyTable.entries_ofList, gathered_map]
  rw [Tree.keyed, gathered_map]
  exact ⟨_, hpart.newObject hentries⟩

theorem built_newTagged {tag : String} {v u : Value} {t : Tree} (hbuilt : h.Built h' v t)
    (hok : newTagged tag v h' = .ok (u, h'')) : h.Built h'' u (.tagged tag t) := by
  have hobject := built_newObject (hbuilt.insert (h'.inserted_nil _)) hok
  rwa [Tree.keyed, gathered_singleton] at hobject

end Conversion

namespace Datum

open Conversion

mutual

/-- The value of data is built anew, and holds the tree of the data. -/
theorem built_toValue : ∀ (d : Datum) {h h' : Heap} {v : Value}, d.toValue h = .ok (v, h') →
    ∃ t, d.image? = some t ∧ h.Built h' v t
  | .bool _, h, _, _, hok | .single _, h, _, _, hok | .double _, h, _, _, hok
  | .char _, h, _, _, hok | .string _, h, _, _, hok | .absent, h, _, _, hok
  | .unit, h, _, _, hok | .namedUnit _, h, _, _, hok | .tag _, h, _, _, hok => by
    cases hok
    exact ⟨_, rfl, h.built_atom _⟩
  | .integer z, h, _, _, hok => by
    cases hok
    exact ⟨_, rfl, Value.ofTypedInteger_eq z ▸ h.built_atom _⟩
  | .bytes bs, h, _, _, hok => by
    have hbytes := h.builtAll_atoms (bs.map fun b => .ofInt b.toNat)
    simp only [List.map_map, Function.comp_def, ← Value.ofByte_eq] at hbytes
    exact ⟨_, rfl, built_newArray hbytes hok⟩
  | .present d, _, _, _, hok | .wrapped _ d, _, _, _, hok => built_toValue d hok
  | .tagged name d, _, _, _, hok => by
    obtain ⟨u, h', hd, hnew⟩ := exists_of_bind hok
    obtain ⟨t, ht, hbuilt⟩ := built_toValue d hd
    exact ⟨_, by rw [image?, ht]; rfl, built_newTagged hbuilt hnew⟩
  | .sequence _ ds, _, _, _, hok | .tuple ds _, _, _, _, hok
  | .namedTuple _ ds _, _, _, _, hok => by
    obtain ⟨vs, h', hds, hnew⟩ := exists_of_bind hok
    obtain ⟨ts, hts, hbuilt⟩ := builtAll_toValues ds hds
    exact ⟨_, by rw [image?, hts]; rfl, built_newArray hbuilt hnew⟩
  | .taggedTuple name ds _, _, _, _, hok => by
    obtain ⟨vs, h', hds, hrest⟩ := exists_of_bind hok
    obtain ⟨ts, hts, hbuilt⟩ := builtAll_toValues ds hds
    obtain ⟨u, h'', harray, hnew⟩ := exists_of_bind hrest
    exact ⟨_, by rw [image?, hts]; rfl, built_newTagged (built_newArray hbuilt harray) hnew⟩
  | .map _ calls, _, _, _, hok => by
    obtain ⟨table, h', hcalls, hnew⟩ := exists_of_bind hok
    obtain ⟨trees, htrees, hinserted⟩ := inserted_runCalls calls hcalls
    exact ⟨_, by rw [image?, htrees]; rfl, built_newObject hinserted hnew⟩
  | .record _ fields _, _, _, _, hok => by
    obtain ⟨table, h', hfields, hnew⟩ := exists_of_bind hok
    obtain ⟨trees, htrees, hinserted⟩ := inserted_insertFields fields hfields
    exact ⟨_, by rw [image?, htrees]; rfl, built_newObject hinserted hnew⟩
  | .taggedRecord name fields _, _, _, _, hok => by
    obtain ⟨table, h', hfields, hrest⟩ := exists_of_bind hok
    obtain ⟨trees, htrees, hinserted⟩ := inserted_insertFields fields hfields
    obtain ⟨u, h'', hobject, hnew⟩ := exists_of_bind hrest
    exact ⟨_, by rw [image?, htrees]; rfl,
      built_newTagged (built_newObject hinserted hobject) hnew⟩
  | .failing _, _, _, _, hok => by cases hok

theorem builtAll_toValues : ∀ (ds : List Datum) {h h' : Heap} {vs : List Value},
    toValues ds h = .ok (vs, h') → ∃ ts, images? ds = some ts ∧ h.BuiltAll h' vs ts
  | [], h, _, _, hok => by
    cases hok
    exact ⟨[], rfl, h.builtAll_nil⟩
  | d :: ds, _, _, _, hok => by
    obtain ⟨v, h', hd, hrest⟩ := exists_of_bind hok
    obtain ⟨vs, h'', hds, hend⟩ := exists_of_bind hrest
    obtain ⟨t, ht, hbuilt⟩ := built_toValue d hd
    obtain ⟨ts, hts, hall⟩ := builtAll_toValues ds hds
    cases hend
    exact ⟨t :: ts, by simp [images?, ht, hts], hbuilt.cons hall⟩

theorem inserted_runCalls : ∀ (calls : List MapCall) {pending : Option String}
    {table table' : PropertyTable} {h h' : Heap},
    runCalls calls pending table h = .ok (table', h') →
    ∃ trees, callImages? calls pending = some trees ∧ h.Inserted h' table table' trees
  | [], _, _, _, h, _, hok => by
    cases hok
    exact ⟨[], by rw [callImages?], h.inserted_nil _⟩
  | .key d :: calls, pending, _, _, _, _, hok => by
    obtain ⟨v, h', hd, hrest⟩ := exists_of_bind hok
    obtain ⟨t, ht, hbuilt⟩ := built_toValue d hd
    have hkey := hbuilt.mapKey?
    cases hv : v.mapKey? with
    | none =>
        rw [hv] at hrest
        cases hrest
    | some k =>
        rw [hv] at hrest hkey
        obtain ⟨trees, htrees, hinserted⟩ := inserted_runCalls calls hrest
        exact ⟨trees, by simp [callImages?, ht, hkey, htrees], hbuilt.skip hinserted⟩
  | .value _ :: _, none, _, _, _, _, hok => by cases hok
  | .value d :: calls, some k, _, _, _, _, hok => by
    obtain ⟨v, h', hd, hrest⟩ := exists_of_bind hok
    obtain ⟨t, ht, hbuilt⟩ := built_toValue d hd
    obtain ⟨trees, htrees, hinserted⟩ := inserted_runCalls calls hrest
    exact ⟨(.name k, t) :: trees, by simp [callImages?, ht, htrees], hbuilt.insert hinserted⟩

theorem inserted_insertFields : ∀ (fields : List Field) {table table' : PropertyTable}
    {h h' : Heap}, insertFields fields table h = .ok (table', h') →
    ∃ trees, fieldImages? fields = some trees ∧ h.Inserted h' table table' trees
  | [], _, _, h, _, hok => by
    cases hok
    exact ⟨[], by rw [fieldImages?], h.inserted_nil _⟩
  | .mk name d :: fields, _, _, _, _, hok => by
    obtain ⟨v, h', hd, hrest⟩ := exists_of_bind hok
    obtain ⟨t, ht, hbuilt⟩ := built_toValue d hd
    obtain ⟨trees, htrees, hinserted⟩ := inserted_insertFields fields hrest
    exact ⟨(.name name, t) :: trees, by simp [fieldImages?, ht, htrees],
      hbuilt.insert hinserted⟩

end

end Datum

/-- Data with a value have it built anew: the heap keeps what it had, and the value holds the image
of the data in containers that were not there before, each of which is reached on one route alone.
Announced lengths do not matter.  So a rendering with hooks that change no container, however it
ends, tells of no cut, and if it gives a text no part of that is a mark. -/
theorem toValue_fresh {d : Datum} {h h' : Heap} {v : Value} (hok : d.toValue h = .ok (v, h')) :
    h.Keeps h' ∧
      (∃ t footprint, d.image? = some t ∧ h'.Holds v t footprint) ∧
      (∀ route u c, h'.at? v route = some u → u.container? = some c →
        c ∈ h'.containers ∧ c ∉ h.containers) ∧
      (∀ route route' u u' c, h'.at? v route = some u → h'.at? v route' = some u' →
        u.container? = some c → u'.container? = some c → route = route') ∧
      (∀ d' : Datum, d'.unannounced = d.unannounced → d'.toValue h = .ok (v, h')) ∧
      ∀ (σ : Type) (options : Options σ) (pad : String) (state : σ), options.hooks.Preserving →
        (∀ depth, .cut depth ∉ (render options pad v ⟨h', state⟩).events) ∧
        ∀ text, (render options pad v ⟨h', state⟩).result = .ok text →
          ∃ walk, Walked options [] pad v text ⟨⟨h', state⟩,
              (render options pad v ⟨h', state⟩).events,
              (render options pad v ⟨h', state⟩).world⟩ walk ∧
            ∀ route, walk.at? route ≠ some .cut := by
  obtain ⟨t, himage, footprint, hgrown⟩ := d.built_toValue hok
  have hholds : h'.Holds v t footprint := by simpa using hgrown.holds
  have hnodup : footprint.Nodup := by simpa using hgrown.nodup
  have hfresh : ∀ c ∈ footprint, c ∉ h.containers := by simpa using hgrown.fresh
  refine ⟨hgrown.keeps, ⟨t, footprint, himage, hholds⟩, ?_, ?_, ?_, ?_⟩
  · intro route u c hu hc
    have hmem := hholds.mem_footprint_of_at? hu hc
    exact ⟨hholds.mem_containers c hmem, hfresh c hmem⟩
  · exact fun route route' u u' c hu hu' => hholds.route_unique hnodup hu hu'
  · intro d' hd'
    rw [← d'.toValue_unannounced, hd', d.toValue_unannounced, hok]
  · intro σ options pad state hhooks
    have huncut := isCut_of_mem_events (w := ⟨h', state⟩) hhooks pad hholds hnodup
    constructor
    · intro depth hmem
      cases huncut _ hmem
    · intro text htext
      obtain ⟨walk, hwalked⟩ := (visit_of_render htext).exists_walked
      exact ⟨walk, hwalked, hwalked.at?_ne_cut huncut⟩

namespace FreshWitness

/-- A map with a wrong length and with a key that comes twice. -/
def data : Datum :=
  .map (some 7) [.key (.string "list"), .value (.sequence none [.unit, .bytes [1]]),
    .key (.char 'c'), .value (.present (.tagged "Tag" (.tuple []))),
    .key (.string "list"), .value (.record "R" [.mk "inner" (.sequence (some 0) [.absent])])]

/-- An array that holds itself. -/
def heap : Heap :=
  ⟨#[#[.array ⟨0⟩]], #[], 0⟩

def made : Heap :=
  ⟨#[#[.array ⟨0⟩], #[.atom (.number (.integer 1))], #[.atom .null, .array ⟨1⟩], #[],
      #[.atom .null]],
    #[⟨[(.name "Tag", ⟨.array ⟨3⟩, true⟩)]⟩, ⟨[(.name "inner", ⟨.array ⟨4⟩, true⟩)]⟩,
      ⟨[(.name "list", ⟨.object ⟨1⟩, true⟩), (.name "c", ⟨.object ⟨0⟩, true⟩)]⟩], 0⟩

theorem toValue_fresh_repeated :
    data.toValue heap = .ok (.object ⟨2⟩, made) ∧ heap.Keeps made ∧
      (∃ t footprint, data.image? = some t ∧ made.Holds (.object ⟨2⟩) t footprint) ∧
      ∀ depth, .cut depth ∉ (render {} "" (.object ⟨2⟩) ⟨made, ()⟩).events := by
  have hok : data.toValue heap = .ok (.object ⟨2⟩, made) := by rfl
  obtain ⟨hkeeps, hholds, -, -, -, hrender⟩ := toValue_fresh hok
  have hhooks : ({} : Hooks Unit).Preserving := ⟨by simp, by simp⟩
  exact ⟨hok, hkeeps, hholds, (hrender Unit {} "" () hhooks).1⟩

end FreshWitness

end ObjectLiteral
