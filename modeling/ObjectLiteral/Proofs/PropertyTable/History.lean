import ObjectLiteral.Heap
import ObjectLiteral.Proofs.PropertyTable.Display
/-!
Histories of objects.  What an object holds after any changes, and in which order, can be read off
the changes alone: of each key the latest definition since its last removal counts, and the first
one since then gives the key its place.
-/

namespace ObjectLiteral

inductive Change where
  | insert (k : Key) (v : Value)
  | define (k : Key) (v : Value) (enumerable : Bool)
  | erase (k : Key)
deriving DecidableEq

namespace Change

def key : Change → Key
  | insert k _ => k
  | define k _ _ => k
  | erase k => k

/-- The property that a change stores.  A removal stores none. -/
def property? : Change → Option Property
  | insert _ v => some ⟨v, true⟩
  | define _ v enumerable => some ⟨v, enumerable⟩
  | erase _ => none

def apply (t : PropertyTable) : Change → PropertyTable
  | insert k v => t.insert k v
  | define k v enumerable => t.define k v enumerable
  | erase k => t.erase k

/-- Changes an object of a heap, and gives the value that was under the key before. -/
def applyTo (h : Heap) (o : ObjectRef) : Change → Option Value × Heap
  | insert k v => h.insert o k v
  | define k v enumerable => h.define o k v enumerable
  | erase k => h.erase o k

end Change

def PropertyTable.after (history : List Change) : PropertyTable :=
  history.foldl Change.apply empty

/-- Changes an object of a heap again and again, and gives the values that were there before. -/
def Heap.replay (h : Heap) (o : ObjectRef) : List Change → List (Option Value) × Heap
  | [] => ([], h)
  | c :: later =>
    let (old, h) := c.applyTo h o
    let (olds, h) := h.replay o later
    (old :: olds, h)

namespace History

/-- The changes after the last removal of a key. -/
def sinceErased (k : Key) (history : List Change) : List Change :=
  (history.reverse.takeWhile fun c => c ≠ .erase k).reverse

/-- The latest definition of a key since its last removal. -/
def latest? (k : Key) (history : List Change) : Option Property :=
  ((sinceErased k history).reverse.find? fun c => c.key = k).bind Change.property?

/-- The moment of the first definition of a key since its last removal: the number of changes
before it. -/
def opened? (k : Key) (history : List Change) : Option Nat :=
  ((sinceErased k history).findIdx? fun c => c.key = k).map fun i =>
    i + (history.length - (sinceErased k history).length)

/-- One key was opened before another one. -/
def Before (history : List Change) (j k : Key) : Prop :=
  ∃ m n, opened? j history = some m ∧ opened? k history = some n ∧ m < n

variable {history : List Change} {c : Change} {k : Key}

theorem sinceErased_concat (k : Key) (history : List Change) (c : Change) :
    sinceErased k (history ++ [c]) =
      if c = .erase k then [] else sinceErased k history ++ [c] := by
  rw [sinceErased, List.reverse_concat, List.takeWhile_cons]
  by_cases hc : c = .erase k
  · simp [hc]
  · simp [hc, sinceErased]

theorem length_sinceErased_le (k : Key) (history : List Change) :
    (sinceErased k history).length ≤ history.length := by
  have hle := (List.takeWhile_sublist (l := history.reverse) fun c => decide (c ≠ .erase k)).length_le
  simpa [sinceErased] using hle

/-- The latest change of a key decides what is stored under it. -/
theorem latest?_concat (k : Key) (history : List Change) (c : Change) :
    latest? k (history ++ [c]) = if c.key = k then c.property? else latest? k history := by
  rw [latest?, sinceErased_concat]
  by_cases herase : c = .erase k
  · rw [if_pos herase, herase]
    exact (if_pos rfl).symm
  · rw [if_neg herase, List.reverse_concat, List.find?_cons]
    by_cases hkey : c.key = k
    · rw [decide_eq_true hkey, if_pos hkey, Option.bind_some]
    · rw [decide_eq_false hkey, if_neg hkey, latest?]

/-- A key that is open stays open until it is removed, and another one opens with its
definition. -/
theorem opened?_concat (k : Key) (history : List Change) (c : Change) :
    opened? k (history ++ [c]) =
      if c = .erase k then none
      else (opened? k history).or (if c.key = k then some history.length else none) := by
  rw [opened?, sinceErased_concat]
  by_cases herase : c = .erase k
  · rw [if_pos herase, if_pos herase]
    rfl
  · have hle := length_sinceErased_le k history
    rw [if_neg herase, if_neg herase, List.findIdx?_append, List.length_append, List.length_append,
      List.length_singleton, Nat.add_sub_add_right, opened?]
    cases (sinceErased k history).findIdx? fun c => decide (c.key = k) with
    | some i => rfl
    | none =>
        by_cases hkey : c.key = k
        · simp [hkey, hle]
        · simp [hkey]

theorem opened?_lt {n : Nat} (hopened : opened? k history = some n) : n < history.length := by
  obtain ⟨i, hi, rfl⟩ := Option.map_eq_some_iff.mp hopened
  obtain ⟨hlt, -⟩ := List.findIdx?_eq_some_iff_getElem.mp hi
  have hle := length_sinceErased_le k history
  omega

theorem isSome_opened? (k : Key) (history : List Change) :
    (opened? k history).isSome = (latest? k history).isSome := by
  induction history using List.reverseRecOn with
  | nil => rfl
  | append_singleton history c ih =>
      rw [opened?_concat, latest?_concat]
      by_cases herase : c = .erase k
      · have hkey : c.key = k := congrArg Change.key herase
        rw [if_pos herase, if_pos hkey, herase]
        rfl
      · rw [if_neg herase, Option.isSome_or, ih]
        by_cases hkey : c.key = k
        · rw [if_pos hkey, if_pos hkey, Option.isSome_some, Bool.or_true]
          cases c with
          | erase j => exact absurd (congrArg Change.erase hkey) herase
          | _ => rfl
        · rw [if_neg hkey, if_neg hkey, Option.isSome_none, Bool.or_false]

/-- Keys stay in their order as long as neither is removed. -/
theorem Before.concat {j : Key} (hbefore : Before history j k) (hj : c ≠ .erase j)
    (hk : c ≠ .erase k) : Before (history ++ [c]) j k := by
  obtain ⟨m, n, hm, hn, hlt⟩ := hbefore
  refine ⟨m, n, ?_, ?_, hlt⟩
  · rw [opened?_concat, if_neg hj, hm, Option.some_or]
  · rw [opened?_concat, if_neg hk, hn, Option.some_or]

end History

namespace PropertyTable

open History

variable {t : PropertyTable}

theorem keys_define (t : PropertyTable) (k : Key) (v : Value) (enumerable : Bool) :
    (t.define k v enumerable).keys = if k ∈ t.keys then t.keys else t.keys ++ [k] := by
  obtain ⟨l⟩ := t
  change (defineIn k ⟨v, enumerable⟩ l).map (·.1) =
    if k ∈ l.map (·.1) then l.map (·.1) else l.map (·.1) ++ [k]
  induction l with
  | nil => rfl
  | cons e l ih =>
      rw [defineIn]
      by_cases he : e.1 = k
      · simp [he]
      · rw [if_neg he, List.map_cons, ih]
        by_cases hk : k ∈ l.map (·.1)
        · simp [hk]
        · simp [hk, Ne.symm he]

theorem keys_erase (t : PropertyTable) (k : Key) : (t.erase k).keys = t.keys.erase k := by
  rw [keys, erase, keys, List.erase_eq_eraseP', List.eraseP_map]
  rfl

theorem find?_define (t : PropertyTable) (j k : Key) (v : Value) (enumerable : Bool) :
    (t.define k v enumerable).find? j = if k = j then some ⟨v, enumerable⟩ else t.find? j := by
  by_cases hkey : k = j
  · subst hkey
    rw [if_pos rfl]
    exact lookup_defineIn_self ..
  · rw [if_neg hkey]
    exact lookup_defineIn_of_ne (Ne.symm hkey) ..

theorem find?_eq_none_iff {k : Key} : t.find? k = none ↔ k ∉ t.keys := by
  rw [find?, List.lookup_eq_none_iff, keys, List.mem_map]
  constructor
  · rintro hnone ⟨e, he, rfl⟩
    simpa using hnone e he
  · intro hnone e he
    have hne : e.1 ≠ k := fun heq => hnone ⟨e, he, heq⟩
    simpa using Ne.symm hne

theorem lookup_eraseP_of_ne {j k : Key} (hne : k ≠ j) (l : List (Key × Property)) :
    (l.eraseP fun e => e.1 == k).lookup j = l.lookup j := by
  induction l with
  | nil => rfl
  | cons e l ih =>
      obtain ⟨i, p⟩ := e
      by_cases hi : i = k
      · have hj : (j == k) = false := beq_false_of_ne (Ne.symm hne)
        simp [hi, List.lookup_cons, hj]
      · have hkeep : (i == k) = false := beq_false_of_ne hi
        rw [List.eraseP_cons, hkeep, cond_false, List.lookup_cons, List.lookup_cons, ih]

theorem Keyed.find?_erase (ht : t.Keyed) (j k : Key) :
    (t.erase k).find? j = if k = j then none else t.find? j := by
  by_cases hkey : k = j
  · subst hkey
    rw [if_pos rfl, find?_eq_none_iff, keys_erase]
    exact List.Nodup.not_mem_erase ht
  · rw [if_neg hkey, find?, find?, PropertyTable.erase]
    exact lookup_eraseP_of_ne hkey _

theorem Keyed.find?_apply (ht : t.Keyed) (k : Key) (c : Change) :
    (c.apply t).find? k = if c.key = k then c.property? else t.find? k := by
  cases c with
  | insert j v => exact t.find?_define k j v true
  | define j v enumerable => exact t.find?_define k j v enumerable
  | erase j => exact ht.find?_erase k j

theorem Keyed.apply (ht : t.Keyed) (c : Change) : (c.apply t).Keyed := by
  cases c with
  | insert j v => exact ht.define j v true
  | define j v enumerable => exact ht.define j v enumerable
  | erase j => exact ht.erase j

theorem after_concat (history : List Change) (c : Change) :
    after (history ++ [c]) = c.apply (after history) :=
  List.foldl_concat ..

theorem keyed_after (history : List Change) : (after history).Keyed := by
  induction history using List.reverseRecOn with
  | nil => exact keyed_empty
  | append_singleton history c ih =>
      rw [after_concat]
      exact ih.apply c

/-- Under each key is what its latest definition since its last removal stored there. -/
theorem find?_after (k : Key) (history : List Change) :
    (after history).find? k = latest? k history := by
  induction history using List.reverseRecOn with
  | nil => rfl
  | append_singleton history c ih =>
      rw [after_concat, (keyed_after history).find?_apply, latest?_concat, ih]

theorem mem_keys_after_iff {k : Key} {history : List Change} :
    k ∈ (after history).keys ↔ (opened? k history).isSome := by
  rw [isSome_opened?, ← find?_after, Option.isSome_iff_ne_none, ne_eq, find?_eq_none_iff, not_not]

/-- A definition leaves an open key in its place and puts a new one behind all others. -/
theorem pairwise_keys_define {keys : List Key} {history : List Change} {c : Change} {k : Key}
    (hkey : c.key = k) (hc : ∀ j, c ≠ .erase j)
    (hopened : ∀ j, j ∈ keys ↔ (opened? j history).isSome)
    (hkeys : keys.Pairwise (Before history)) :
    (if k ∈ keys then keys else keys ++ [k]).Pairwise (Before (history ++ [c])) := by
  have hstay : keys.Pairwise (Before (history ++ [c])) :=
    hkeys.imp fun hbefore => hbefore.concat (hc _) (hc _)
  split
  · exact hstay
  · rename_i hnew
    rw [hopened, Option.not_isSome_iff_eq_none] at hnew
    refine List.pairwise_append.mpr ⟨hstay, List.pairwise_singleton .., fun j hj i hi => ?_⟩
    obtain rfl := List.mem_singleton.mp hi
    obtain ⟨m, hm⟩ := Option.isSome_iff_exists.mp ((hopened j).mp hj)
    refine ⟨m, history.length, ?_, ?_, opened?_lt hm⟩
    · rw [opened?_concat, if_neg (hc j), hm, Option.some_or]
    · rw [opened?_concat, if_neg (hc _), hnew, if_pos hkey, Option.none_or]

/-- The keys are stored in the order in which they were opened. -/
theorem pairwise_keys_after (history : List Change) :
    (after history).keys.Pairwise (Before history) := by
  induction history using List.reverseRecOn with
  | nil => exact List.Pairwise.nil
  | append_singleton history c ih =>
      have hopened : ∀ k, k ∈ (after history).keys ↔ (opened? k history).isSome :=
        fun _ => mem_keys_after_iff
      rw [after_concat]
      cases c with
      | insert k v =>
          rw [Change.apply, PropertyTable.insert, keys_define]
          exact pairwise_keys_define rfl (fun _ => Change.noConfusion) hopened ih
      | define k v enumerable =>
          rw [Change.apply, keys_define]
          exact pairwise_keys_define rfl (fun _ => Change.noConfusion) hopened ih
      | erase k =>
          rw [Change.apply, keys_erase]
          refine (ih.sublist List.erase_sublist).imp_of_mem fun hi hj hbefore => ?_
          have hne : ∀ j ∈ (after history).keys.erase k, Change.erase k ≠ .erase j := by
            intro j hj heq
            exact ((List.Nodup.mem_erase_iff (keyed_after history)).mp hj).1
              (Change.erase.inj heq).symm
          exact hbefore.concat (hne _ hi) (hne _ hj)

/-- Keys in display order: array indices, strictly ascending, then other names, then symbols.  The
last two groups are in stored order. -/
structure Arranged (stored shown : List Key) (indices : List Nat) (names symbols : List Key) :
    Prop where
  shown_eq : shown = indices.map (fun n => .name (Numeral.ofNat n)) ++ names ++ symbols
  indices_ascending : indices.Pairwise (· < ·)
  indices_le : ∀ n ∈ indices, n ≤ Key.maxArrayIndex
  names_stored : names.Sublist stored
  names_plain : ∀ k ∈ names, (∃ s, k = .name s) ∧
    ∀ n ≤ Key.maxArrayIndex, k ≠ .name (Numeral.ofNat n)
  symbols_stored : symbols.Sublist stored
  symbols_symbol : ∀ k ∈ symbols, ∃ s, k = .symbol s

/-- What a table tells of the history that led to it. -/
structure Recalls (t : PropertyTable) (history : List Change) : Prop where
  keys_nodup : t.keys.Nodup
  get?_eq : ∀ k, t.get? k = (latest? k history).map (·.value)
  mem_keys_iff : ∀ k, k ∈ t.keys ↔ (latest? k history).isSome
  keys_in_order : t.keys.Pairwise (Before history)
  displayKeys_nodup : t.displayKeys.Nodup
  mem_displayKeys_iff : ∀ k, k ∈ t.displayKeys ↔ ∃ v, latest? k history = some ⟨v, true⟩
  displayKeys_arranged : ∃ indices names symbols,
    Arranged t.keys t.displayKeys indices names symbols

theorem exists_arranged (ht : t.Keyed) :
    ∃ indices names symbols, Arranged t.keys t.displayKeys indices names symbols := by
  obtain ⟨indices, hascending, hle, hshown⟩ := exists_displayKeys_eq ht
  refine ⟨indices, _, _, hshown, hascending, hle, ?_, fun k hk => ?_, ?_, fun k hk => ?_⟩
  · exact List.filter_sublist.trans t.enumerableKeys_sublist
  · exact isPlainName_iff.mp (List.mem_filter.mp hk).2
  · exact List.filter_sublist.trans t.enumerableKeys_sublist
  · have hsymbol := (List.mem_filter.mp hk).2
    cases k with
    | name s => cases hsymbol
    | symbol s => exact ⟨s, rfl⟩

theorem recalls_after (history : List Change) : (after history).Recalls history where
  keys_nodup := keyed_after history
  get?_eq k := by rw [get?, find?_after]
  mem_keys_iff k := by rw [mem_keys_after_iff, isSome_opened?]
  keys_in_order := pairwise_keys_after history
  displayKeys_nodup := nodup_displayKeys (keyed_after history)
  mem_displayKeys_iff k := by
    rw [mem_displayKeys_iff, mem_enumerableKeys_iff (keyed_after history), find?_after]
  displayKeys_arranged := exists_arranged (keyed_after history)

theorem ofList_eq_after (l : List (Key × Value)) :
    ofList l = after (l.map fun e => .insert e.1 e.2) := by
  rw [ofList, after, List.foldl_map]
  rfl

end PropertyTable

namespace History

/-- What the changes after a past give back: each the value of the latest definition of its key
since the last removal of the key. -/
def answers : List Change → List Change → List (Option Value)
  | _, [] => []
  | past, c :: later => (latest? c.key past).map (·.value) :: answers (past ++ [c]) later

end History

namespace Heap

open PropertyTable History

variable {h : Heap} {o : ObjectRef}

theorem applyTo_fst (h : Heap) (o : ObjectRef) (c : Change) :
    (c.applyTo h o).1 = (h.properties o).get? c.key := by
  cases c <;> rfl

theorem properties_applyTo (ho : o.index < h.objects.size) (c : Change) :
    (c.applyTo h o).2.properties o = c.apply (h.properties o) := by
  cases c <;> exact (h.properties_modifyObject o o _ ho).trans (if_pos rfl)

theorem size_objects_applyTo (h : Heap) (o : ObjectRef) (c : Change) :
    (c.applyTo h o).2.objects.size = h.objects.size := by
  cases c <;> exact Array.size_modify

/-- An object that has a past goes on with it. -/
theorem replay_of_past {past : List Change} (ho : o.index < h.objects.size)
    (hpast : h.properties o = after past) (later : List Change) :
    (h.replay o later).2.properties o = after (past ++ later) ∧
      (h.replay o later).1 = answers past later := by
  induction later generalizing h past with
  | nil => exact ⟨by rw [List.append_nil]; exact hpast, rfl⟩
  | cons c later ih =>
      have ho' : o.index < (c.applyTo h o).2.objects.size := by
        rw [size_objects_applyTo]
        exact ho
      have hpast' : (c.applyTo h o).2.properties o = after (past ++ [c]) := by
        rw [properties_applyTo ho, hpast, after_concat]
      obtain ⟨hproperties, holds⟩ := ih ho' hpast'
      have hold : (c.applyTo h o).1 = (latest? c.key past).map (·.value) := by
        rw [applyTo_fst, hpast, PropertyTable.get?, find?_after]
      refine ⟨?_, ?_⟩
      · rw [List.append_assoc] at hproperties
        exact hproperties
      · exact congrArg₂ List.cons hold holds

end Heap

/-- After any history of changes an object holds, gives back and shows what the changes ask for. -/
theorem Heap.replay_recalls (h : Heap) (past later : List Change) :
    (PropertyTable.after past).Recalls past ∧
      (∀ l : List (Key × Value),
        PropertyTable.ofList l = .after (l.map fun e => .insert e.1 e.2)) ∧
      (((h.newObject (.after past)).2.replay (h.newObject (.after past)).1 later).2.properties
        (h.newObject (.after past)).1).Recalls (past ++ later) ∧
      ((h.newObject (.after past)).2.replay (h.newObject (.after past)).1 later).1 =
        History.answers past later := by
  have hissued : (h.newObject (.after past)).1.index <
      (h.newObject (.after past)).2.objects.size := by
    simp [newObject]
  have hpast : (h.newObject (.after past)).2.properties (h.newObject (.after past)).1 =
      .after past := by
    simp [newObject, properties]
  obtain ⟨hproperties, holds⟩ := replay_of_past hissued hpast later
  refine ⟨PropertyTable.recalls_after past, PropertyTable.ofList_eq_after, ?_, holds⟩
  rw [hproperties]
  exact PropertyTable.recalls_after _

end ObjectLiteral
