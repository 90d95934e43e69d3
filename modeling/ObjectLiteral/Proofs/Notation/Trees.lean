import ObjectLiteral.Proofs.Notation.Entries
import ObjectLiteral.Proofs.Tree.Layout
/-!
Reading trees.  The text of a tree of plain atoms is read as that tree, in every layout and at every
pad.
-/

namespace ObjectLiteral

open Text (Quote quoted scan width)
open Notation

/-- The trees that are read back under a quote style.  In double quotes the mark of a cut is a
string like any other. -/
inductive Tree.Plain (q : Quote) : Tree → Prop
  | leaf {a : Atom} (ha : a.isPlain = true) : Plain q (.leaf a)
  | cut (hq : q = .single) : Plain q .cut
  | array {ts : List Tree} (hts : ∀ t ∈ ts, Plain q t) : Plain q (.array ts)
  | object {fs : List (Key × Tree)} (hkeys : ∀ f ∈ fs, f.1.isSymbol = false)
      (hfs : ∀ f ∈ fs, Plain q f.2) : Plain q (.object fs)

theorem Tree.Plain.method? {q : Quote} {t : Tree} (ht : t.Plain q) (style : Style) :
    t.method? style = none := by
  cases ht with
  | leaf ha =>
      rename_i a
      cases a <;> first | rfl | contradiction
  | _ => rfl

namespace Notation

theorem toList_intercalate (spaces s : String) (ss : List String) :
    (("," ++ spaces).intercalate (s :: ss)).toList = s.toList ++ following spaces.toList ss := by
  induction ss generalizing s with
  | nil =>
      rw [String.intercalate_singleton]
      exact (List.append_nil _).symm
  | cons t ts ih =>
      rw [String.intercalate_cons_cons, String.toList_append, String.toList_append,
        String.toList_append, ih, following_cons, List.append_assoc, List.append_assoc]
      rfl

theorem following_map (spaces : List Char) (pad : String) (ss : List String) :
    following spaces (ss.map fun s => pad ++ s) = following (spaces ++ pad.toList) ss := by
  induction ss with
  | nil => rfl
  | cons s ss ih =>
      rw [List.map_cons, following_cons, following_cons, ih, String.toList_append,
        List.append_assoc, List.append_assoc]

theorem toList_oneLine {g : Group} {s : String} {ss : List String}
    (hentries : g.entries = s :: ss) :
    g.oneLine.toList = g.opening :: (s.toList ++ (following [' '] ss ++ [g.closing])) := by
  have hseparator : ", " = "," ++ " " := by decide
  rw [Group.oneLine, hentries, hseparator, String.toList_append, String.toList_append,
    toList_intercalate]
  simp

theorem toList_broken {g : Group} {s : String} {ss : List String}
    (hentries : g.entries = s :: ss) (pad unit : String) :
    (g.broken pad unit).toList =
      g.opening :: ('\n' :: (pad ++ unit).toList ++ (s.toList ++
        (following ('\n' :: (pad ++ unit).toList) ss ++ ('\n' :: pad.toList ++ [g.closing])))) := by
  have hseparator : ",\n" = "," ++ "\n" := by decide
  have hmap := following_map ['\n'] (pad ++ unit) ss
  rw [List.singleton_append] at hmap
  rw [Group.broken_of_ne_nil (by rw [hentries]; exact List.cons_ne_nil s ss), hentries,
    List.map_cons, hseparator]
  simp only [String.toList_append, toList_intercalate] at hmap ⊢
  simp [hmap]

theorem blank_nil : Blank [] :=
  fun _ hc => absurd hc List.not_mem_nil

theorem Blank.cons {c : Char} {cs : List Char} (hc : isSpace c = true) (hcs : Blank cs) :
    Blank (c :: cs) :=
  List.forall_mem_cons.mpr ⟨hc, hcs⟩

theorem blank_append {s t : String} (hs : Blank s.toList) (ht : Blank t.toList) :
    Blank (s ++ t).toList := by
  rw [String.toList_append]
  exact List.forall_mem_append.mpr ⟨hs, ht⟩

/-- The characters of a group whose entries are `s :: ss`, with some layout. -/
def Spread (g : Group) (s : String) (ss : List String) (cs : List Char) : Prop :=
  ∃ lead spaces tail, Blank lead ∧ Blank spaces ∧ Blank tail ∧
    cs = g.opening :: (lead ++ (s.toList ++ (following spaces ss ++ (tail ++ [g.closing]))))

theorem spread_oneLine {g : Group} {s : String} {ss : List String}
    (hentries : g.entries = s :: ss) : Spread g s ss g.oneLine.toList :=
  ⟨[], [' '], [], blank_nil, blank_nil.cons rfl, blank_nil, toList_oneLine hentries⟩

theorem spread_broken {g : Group} {s : String} {ss : List String}
    (hentries : g.entries = s :: ss) {pad unit : String} (hpad : Blank pad.toList)
    (hunit : Blank unit.toList) : Spread g s ss (g.broken pad unit).toList := by
  have hline := blank_append hpad hunit
  exact ⟨_, _, _, hline.cons rfl, hline.cons rfl, hpad.cons rfl,
    toList_broken hentries pad unit⟩

theorem spread_printed {g : Group} {s : String} {ss : List String}
    (hentries : g.entries = s :: ss) {style : Style} {pad : String}
    (hunit : Blank style.unit.toList) (hpad : Blank pad.toList) :
    Spread g s ss (g.printed style pad).toList := by
  rcases g.printed_eq_or style pad with honeLine | hbroken
  · rw [honeLine]
    exact spread_oneLine hentries
  · rw [hbroken]
    exact spread_broken hentries hpad hunit

/-- The text of a group is its opening bracket and what is read as its entries. -/
theorem entries_printed {α : Type} {item : Reader α} {g : Group} (hclosing : Closes g.closing)
    {style : Style} {pad : String} (hunit : Blank style.unit.toList) (hpad : Blank pad.toList)
    {as : List α} (hreads : List.Forall₂ (Reads item) g.entries as) :
    ∃ cs, (g.printed style pad).toList = g.opening :: cs ∧
      ∀ rest, entries item g.closing (cs ++ rest) = some (as, rest) := by
  rcases hentries : g.entries with _ | ⟨s, ss⟩
  · rw [hentries] at hreads
    cases hreads
    refine ⟨[g.closing], ?_, entries_nil hclosing item⟩
    rw [Group.printed, hentries, Group.oneLine, hentries]
    simp
  · rw [hentries] at hreads
    obtain ⟨lead, spaces, tail, hlead, hspaces, htail, hprinted⟩ :=
      spread_printed hentries hunit hpad
    refine ⟨_, hprinted, ?_⟩
    intro rest
    rcases as with _ | ⟨a, as⟩
    · cases hreads
    have hentries := entries_reads hclosing hlead hspaces htail hreads rest
    simpa only [List.append_assoc, List.singleton_append] using hentries

variable {q : Quote} {depth : Nat}

theorem value_append {spaces : List Char} (hspaces : Blank spaces) (cs : List Char) :
    value q depth (spaces ++ cs) = value q depth cs := by
  cases depth with
  | zero => rfl
  | succ depth => rw [value, value, skip_append hspaces]

theorem value_array (cs : List Char) :
    value q (depth + 1) ('[' :: cs) =
      (entries (value q depth) ']' cs).map fun (ts, rest) => (.array ts, rest) :=
  rfl

theorem value_object (cs : List Char) :
    value q (depth + 1) ('{' :: cs) =
      (entries (field q (value q depth)) '}' cs).map fun (fs, rest) => (.object fs, rest) :=
  rfl

theorem value_mark (cs : List Char) :
    value q (depth + 1) (q.mark :: cs) =
      (scan q cs).map fun (s, rest) => (.leaf (.string (.ofList s)), rest) := by
  cases q <;> rfl

theorem value_cut (cs : List Char) :
    value .single (depth + 1) (Quote.double.mark :: cs) = cut cs :=
  rfl

theorem value_bare {c : Char} (hc : isBare c = true) (cs : List Char) :
    value q (depth + 1) (c :: cs) = (bare (c :: cs)).map fun (a, rest) => (.leaf a, rest) := by
  have hskip := skip_cons (not_isSpace_of_isOpening (isOpening_of_isBare hc)) cs
  have harray : c ≠ '[' := by
    rintro rfl
    contradiction
  have hobject : c ≠ '{' := by
    rintro rfl
    contradiction
  have hmark : c ≠ q.mark := by
    rintro rfl
    cases q <;> contradiction
  have hcut : c ≠ '"' := by
    rintro rfl
    contradiction
  rw [value, hskip]
  simp only [if_neg harray, if_neg hobject, if_neg hmark, if_neg hcut]

theorem value_string (style : Style) (s : String) (rest : List Char) :
    value style.quote (depth + 1) (((Atom.string s).literal style).toList ++ rest) =
      some (.leaf (.string s), rest) := by
  rw [Atom.literal, Text.toList_quoted_append, value_mark, Text.scan_escapeAll, Option.map_some]
  simp only [String.ofList_toList]

theorem reads_value {text : String} {t : Tree}
    (hopens : ∃ c cs, text.toList = c :: cs ∧ isOpening c = true)
    (hvalue : ∀ rest, Delimits rest → value q depth (text.toList ++ rest) = some (t, rest)) :
    Reads (value q depth) text t where
  opens := hopens
  reads spaces rest hspaces hrest := by
    rw [value_append hspaces]
    exact hvalue rest hrest

theorem reads_leaf {a : Atom} (ha : a.isPlain = true) (style : Style) :
    Reads (value style.quote (depth + 1)) (a.literal style) (.leaf a) := by
  by_cases hstring : ∃ s, a = .string s
  · obtain ⟨s, rfl⟩ := hstring
    apply reads_value
    · exact ⟨_, _, Text.toList_quoted style.quote s, isOpening_mark _⟩
    · exact fun rest _ => value_string style s rest
  · obtain ⟨hbare, hatom⟩ := bare_literal ha (fun s hs => hstring ⟨s, hs⟩) style
    rcases hliteral : (a.literal style).toList with _ | ⟨c, cs⟩
    · rw [hliteral] at hatom
      contradiction
    have hc : isBare c = true := hbare c (by rw [hliteral]; exact List.mem_cons_self)
    apply reads_value
    · exact ⟨c, cs, hliteral, isOpening_of_isBare hc⟩
    · intro rest hrest
      have hread := bare_append hbare hrest hatom
      rw [hliteral] at hread ⊢
      rw [List.cons_append] at hread ⊢
      rw [value_bare hc, hread]
      rfl

theorem reads_cut : Reads (value .single (depth + 1)) circularMark .cut := by
  have hmark : circularMark = quoted .double "[Circular]" := by decide
  apply reads_value
  · exact ⟨'"', _, hmark ▸ Text.toList_quoted .double "[Circular]", by decide⟩
  · intro rest _
    rw [hmark, Text.toList_quoted_append, value_cut, cut, Text.scan_escapeAll]
    exact if_pos String.ofList_toList

theorem closes_bracket : Closes ']' where
  not_space := by decide
  not_opening := by decide
  not_comma := by decide

theorem closes_brace : Closes '}' where
  not_space := by decide
  not_opening := by decide
  not_comma := by decide

/-- A container is read from the text of its group if its opening bracket leads to its entries. -/
theorem reads_printed {α : Type} {item : Reader α} {make : List α → Tree} {g : Group}
    (hopening : isOpening g.opening = true) (hclosing : Closes g.closing)
    (hvalue : ∀ cs, value q (depth + 1) (g.opening :: cs) =
      (entries item g.closing cs).map fun (as, rest) => (make as, rest))
    {style : Style} (hunit : Blank style.unit.toList) {pad : String} (hpad : Blank pad.toList)
    {as : List α} (hreads : List.Forall₂ (Reads item) g.entries as) :
    Reads (value q (depth + 1)) (g.printed style pad) (make as) := by
  obtain ⟨cs, hprinted, hentries⟩ := entries_printed hclosing hunit hpad hreads
  apply reads_value
  · exact ⟨g.opening, cs, hprinted, hopening⟩
  · intro rest _
    rw [hprinted, List.cons_append, hvalue, hentries]
    rfl

theorem reads_array {style : Style} (hunit : Blank style.unit.toList) {pad : String}
    (hpad : Blank pad.toList) {texts : List String} {ts : List Tree}
    (hreads : List.Forall₂ (Reads (value q depth)) texts ts) :
    Reads (value q (depth + 1)) ((Group.ofElements texts).printed style pad) (.array ts) :=
  reads_printed (g := .ofElements texts) rfl closes_bracket value_array hunit hpad hreads

theorem reads_object {style : Style} (hunit : Blank style.unit.toList) {pad : String}
    (hpad : Blank pad.toList) {texts : List String} {fs : List (Key × Tree)}
    (hreads : List.Forall₂ (Reads (field q (value q depth))) texts fs) :
    Reads (value q (depth + 1)) ((Group.ofFields texts).printed style pad) (.object fs) :=
  reads_printed (g := .ofFields texts) rfl closes_brace value_object hunit hpad hreads

theorem reads_entry {style : Style} {k : Key} (hk : k.isSymbol = false) {t : Tree}
    (ht : t.Plain style.quote) {text : String} (hreads : Reads (value style.quote depth) text t) :
    Reads (field style.quote (value style.quote depth)) (t.entry style k text) (k, t) := by
  rw [Tree.entry, ht.method? style]
  cases k with
  | name s => exact hreads.field style.quote s
  | symbol s => contradiction

/-- The text of a plain tree is read as that tree wherever the depth exceeds its width. -/
theorem reads_text {style : Style} (hunit : Blank style.unit.toList) {t : Tree}
    (ht : t.Plain style.quote) {pad : String} (hpad : Blank pad.toList) {depth : Nat}
    (hdepth : width (t.text style pad) < depth) :
    Reads (value style.quote depth) (t.text style pad) t := by
  induction ht generalizing pad depth with
  | leaf ha =>
      cases depth with
      | zero => contradiction
      | succ depth =>
          rw [Tree.text]
          exact reads_leaf ha style
  | cut hq =>
      cases depth with
      | zero => contradiction
      | succ depth =>
          rw [Tree.text, hq]
          exact reads_cut
  | @array ts hts ih =>
      cases depth with
      | zero => contradiction
      | succ depth =>
          rw [Tree.text]
          apply reads_array hunit hpad
          rw [List.forall₂_map_left_iff, List.forall₂_same]
          intro t ht
          have hlt := Tree.width_text_lt_of_mem_children (t := .array ts) ht
            ((hts t ht).method? style) pad
          exact ih t ht (blank_append hpad hunit) (by omega)
  | @object fs hkeys hfs ih =>
      cases depth with
      | zero => contradiction
      | succ depth =>
          rw [Tree.text]
          apply reads_object hunit hpad
          rw [List.forall₂_map_left_iff, List.forall₂_same]
          intro f hf
          have hlt := Tree.width_text_lt_of_mem_children (t := .object fs)
            (List.mem_map.mpr ⟨f, hf, rfl⟩) ((hfs f hf).method? style) pad
          apply reads_entry (hkeys f hf) (hfs f hf)
          exact ih f hf (blank_append hpad hunit) (by omega)

theorem read?_text {style : Style} (hunit : Blank style.unit.toList) {t : Tree}
    (ht : t.Plain style.quote) {pad : String} (hpad : Blank pad.toList) :
    read? style.quote (t.text style pad) = some t := by
  have hend : Delimits [] := by
    intro c hc
    cases hc
  have hread := (reads_text hunit ht hpad (Nat.lt_succ_self _)).reads [] [] blank_nil hend
  rw [List.nil_append, List.append_nil] at hread
  rw [read?, hread]
  rfl

end Notation

end ObjectLiteral
