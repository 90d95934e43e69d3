import Mathlib.Data.List.Forall2
import ObjectLiteral.Proofs.Notation.Atoms
/-!
Reading the entries of containers.  An entry is described by the text that is taken for it, which
may stand behind any spaces and before anything that does not prolong it, so both layouts of a
group are read alike.
-/

namespace ObjectLiteral.Notation

open Text (Quote quoted scan escapeAll isWordChar isIdentifier)

variable {α : Type}

/-- A reader takes exactly one text for a value. -/
structure Reads (item : Reader α) (text : String) (a : α) : Prop where
  opens : ∃ c cs, text.toList = c :: cs ∧ isOpening c = true
  reads : ∀ spaces rest, Blank spaces → Delimits rest →
    item (spaces ++ (text.toList ++ rest)) = some (a, rest)

/-- The entries that follow the first one: each behind a comma and spaces. -/
def following (spaces : List Char) (texts : List String) : List Char :=
  texts.flatMap fun text => ',' :: (spaces ++ text.toList)

theorem following_cons (spaces : List Char) (text : String) (texts : List String) :
    following spaces (text :: texts) =
      ',' :: (spaces ++ (text.toList ++ following spaces texts)) := by
  rw [following, List.flatMap_cons, List.cons_append, List.append_assoc]
  rfl

theorem length_le_length_following (spaces : List Char) (texts : List String) :
    texts.length ≤ (following spaces texts).length := by
  induction texts with
  | nil => exact Nat.le_refl _
  | cons text texts ih =>
      rw [following_cons, List.length_cons, List.length_cons, List.length_append,
        List.length_append]
      omega

variable {item : Reader α} {closing : Char} {count : Nat} {a : α}
  {cs rest lead spaces tail : List Char}

theorem series_last (hitem : item cs = some (a, rest)) {rest' : List Char}
    (hskip : skip rest = closing :: rest') :
    series item closing (count + 1) cs = some ([a], rest') := by
  rw [series, hitem]
  simp only [hskip, if_pos]

theorem series_more (hclosing : Closes closing) (hitem : item cs = some (a, ',' :: rest)) :
    series item closing (count + 1) cs =
      (series item closing count rest).map fun (as, rest) => (a :: as, rest) := by
  have hskip : skip (',' :: rest) = ',' :: rest := skip_cons (by decide) rest
  rw [series, hitem]
  simp only [hskip, if_neg hclosing.not_comma.symm, if_pos]

/-- A series of entries is read whatever spaces stand before the first one, behind the commas and
before the closing bracket. -/
theorem series_reads (hclosing : Closes closing) (hlead : Blank lead) (hspaces : Blank spaces)
    (htail : Blank tail) {text : String} {texts : List String} {as : List α}
    (hreads : List.Forall₂ (Reads item) (text :: texts) (a :: as)) (hcount : texts.length < count) :
    series item closing count
        (lead ++ (text.toList ++ (following spaces texts ++ (tail ++ closing :: rest)))) =
      some (a :: as, rest) := by
  induction texts generalizing count lead text a as with
  | nil =>
      cases count with
      | zero => contradiction
      | succ count =>
          rcases hreads with _ | ⟨hfirst, _ | _⟩
          have hend : Delimits (tail ++ closing :: rest) :=
            htail.delimits_append (hclosing.delimits rest)
          have hskip : skip (tail ++ closing :: rest) = closing :: rest := by
            rw [skip_append htail, skip_cons hclosing.not_space]
          exact series_last (hfirst.reads lead _ hlead hend) hskip
  | cons next texts ih =>
      cases count with
      | zero => contradiction
      | succ count =>
          rcases hreads with _ | ⟨hfirst, hrest⟩
          rcases as with _ | ⟨b, bs⟩
          · cases hrest
          -- the comma ends the first entry, and the spaces behind it lead the next one
          have hcomma :
              Delimits (following spaces (next :: texts) ++ (tail ++ closing :: rest)) := by
            rw [following_cons, List.cons_append]
            exact delimits_cons (by decide) _
          have hitem := hfirst.reads lead _ hlead hcomma
          rw [following_cons, List.cons_append] at hitem ⊢
          rw [series_more hclosing hitem, List.append_assoc, List.append_assoc,
            ih hspaces hrest (Nat.lt_of_succ_lt_succ hcount)]
          rfl

theorem entries_nil (hclosing : Closes closing) (item : Reader α) (rest : List Char) :
    entries item closing (closing :: rest) = some ([], rest) := by
  rw [entries, skip_cons hclosing.not_space]
  exact if_pos rfl

theorem entries_reads (hclosing : Closes closing) (hlead : Blank lead) (hspaces : Blank spaces)
    (htail : Blank tail) {text : String} {texts : List String} {as : List α}
    (hreads : List.Forall₂ (Reads item) (text :: texts) (a :: as)) (rest : List Char) :
    entries item closing
        (lead ++ (text.toList ++ (following spaces texts ++ (tail ++ closing :: rest)))) =
      some (a :: as, rest) := by
  have hcount : texts.length < (lead ++ (text.toList ++
      (following spaces texts ++ (tail ++ closing :: rest)))).length := by
    have hle := length_le_length_following spaces texts
    simp only [List.length_append, List.length_cons]
    omega
  rcases hreads with _ | ⟨hfirst, hrest⟩
  obtain ⟨c, cs, htext, hopening⟩ := hfirst.opens
  have hskip :
      skip (lead ++ (text.toList ++ (following spaces texts ++ (tail ++ closing :: rest)))) =
        c :: (cs ++ (following spaces texts ++ (tail ++ closing :: rest))) := by
    rw [skip_append hlead, htext, List.cons_append, skip_cons (not_isSpace_of_isOpening hopening)]
  have hother : c ≠ closing := by
    rintro rfl
    rw [hclosing.not_opening] at hopening
    contradiction
  rw [entries, hskip]
  exact (if_neg hother).trans
    (series_reads hclosing hlead hspaces htail (.cons hfirst hrest) hcount)

theorem isBare_of_isWordChar {c : Char} (hc : isWordChar c = true) : isBare c = true := by
  rw [isBare, hc, Bool.true_or]

theorem all_isWordChar_of_isIdentifier {cs : List Char} (hcs : isIdentifier cs = true) :
    ∀ c ∈ cs, isWordChar c = true := by
  cases cs with
  | nil => contradiction
  | cons c cs =>
      simp only [isIdentifier, Bool.and_eq_true, List.all_eq_true] at hcs
      intro d hd
      rcases List.mem_cons.mp hd with rfl | hrest
      · exact hcs.1.1
      · exact hcs.2 d hrest

/-- A name is read up to the colon behind it, whether it stands bare or in quotes. -/
theorem key_reads (q : Quote) (s : String) {spaces : List Char} (hspaces : Blank spaces)
    (rest : List Char) :
    key q (spaces ++ (((Key.name s).literal q).toList ++ ':' :: rest)) =
      some (.name s, ':' :: rest) := by
  rw [key, skip_append hspaces, Key.literal]
  by_cases hname : isIdentifier s.toList = true
  · have hword := all_isWordChar_of_isIdentifier hname
    have hcolon : ∀ c ∈ (':' :: rest).head?, isWordChar c = false := by
      intro c hc
      obtain rfl : ':' = c := Option.some.inj hc
      decide
    obtain ⟨c, cs, hs⟩ : ∃ c cs, s.toList = c :: cs := by
      apply List.exists_cons_of_ne_nil
      intro hnil
      rw [hnil] at hname
      contradiction
    have hfirst : isWordChar c = true := hword c (hs ▸ List.mem_cons_self)
    have hmark : c ≠ q.mark := by
      rintro rfl
      cases q <;> contradiction
    have hspace : isSpace c = false :=
      not_isSpace_of_isOpening (isOpening_of_isBare (isBare_of_isWordChar hfirst))
    have hrun := Text.takeWhile_append hword hcolon
    have hrest := Text.dropWhile_append hword hcolon
    rw [if_pos hname]
    rw [hs] at hrun hrest hname ⊢
    rw [List.cons_append] at hrun hrest ⊢
    rw [skip_cons hspace]
    simp only [if_neg hmark, hrun, hrest, if_pos hname]
    rw [← hs, String.ofList_toList]
  · rw [if_neg hname, Text.toList_quoted_append,
      skip_cons (not_isSpace_of_isOpening (isOpening_mark q))]
    simp only [if_pos]
    rw [Text.scan_escapeAll, Option.map_some, String.ofList_toList]

theorem opens_key (q : Quote) (s : String) :
    ∃ c cs, ((Key.name s).literal q).toList = c :: cs ∧ isOpening c = true := by
  rw [Key.literal]
  split
  · rename_i hname
    have hword := all_isWordChar_of_isIdentifier hname
    rcases hs : s.toList with _ | ⟨c, cs⟩
    · rw [hs] at hname
      contradiction
    · have hfirst : isWordChar c = true := hword c (hs ▸ List.mem_cons_self)
      exact ⟨c, cs, rfl, isOpening_of_isBare (isBare_of_isWordChar hfirst)⟩
  · exact ⟨q.mark, _, Text.toList_quoted q s, isOpening_mark q⟩

theorem Reads.field {text : String} (hitem : Reads item text a) (q : Quote) (s : String) :
    Reads (field q item) ((Key.name s).literal q ++ ": " ++ text) (.name s, a) where
  opens := by
    obtain ⟨c, cs, hkey, hopening⟩ := opens_key q s
    rw [String.toList_append, String.toList_append, hkey]
    exact ⟨c, _, rfl, hopening⟩
  reads spaces rest hspaces hrest := by
    have hcolon : ": ".toList = ':' :: [' '] := by decide
    have hblank : Blank [' '] := by
      intro c hc
      obtain rfl := List.mem_singleton.mp hc
      rfl
    have hvalue := hitem.reads [' '] rest hblank hrest
    rw [String.toList_append, String.toList_append, hcolon, List.append_assoc, List.append_assoc,
      List.cons_append, Notation.field, key_reads q s hspaces]
    simp only [skip_cons (show isSpace ':' = false by decide), hvalue, Option.map_some]

end ObjectLiteral.Notation
