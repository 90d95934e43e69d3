import ObjectLiteral.Proofs.Notation.Entries
/-!
Reading the literals of keys, symbols among them.  The reader gets back what kind of key it is and
every character of its name, key or description; all that is lost is which of several unique symbols
with one description it was.
-/

namespace ObjectLiteral

open Text (Quote quoted unquote? isWordChar isIdentifier)

namespace WellKnown

theorem ofName?_name (w : WellKnown) : ofName? w.name = some w := by
  cases w <;> decide

theorem isIdentifier_name (w : WellKnown) : isIdentifier w.name.toList = true := by
  cases w <;> decide

end WellKnown

/-- Of the unique symbols with one description always the same. -/
def Symbol.anonymous : Symbol → Symbol
  | .unique _ d => .unique 0 d
  | s => s

def Key.anonymous : Key → Key
  | .symbol s => .symbol s.anonymous
  | k => k

namespace Notation

/-- The text behind an opening one. -/
def behind? (opening : String) (cs : List Char) : Option (List Char) :=
  opening.toList.isPrefixOf? cs

def enclosed (q : Quote) : Reader String := fun cs =>
  match unquote? q cs with
  | some (s, ')' :: rest) => some (.ofList s, rest)
  | _ => none

/-- A symbol from its literal.  Which of several unique symbols with one description it is cannot be
read off. -/
def symbol (q : Quote) : Reader Symbol := fun cs =>
  ((behind? "Symbol()" cs).map fun rest => (.unique 0 none, rest)) <|>
  (((behind? "Symbol(" cs).bind (enclosed q)).map fun (d, rest) => (.unique 0 (some d), rest)) <|>
  (((behind? "Symbol.for(" cs).bind (enclosed q)).map fun (key, rest) => (.registered key, rest)) <|>
  ((behind? "Symbol." cs).bind fun cs =>
    (WellKnown.ofName? (.ofList (cs.takeWhile isWordChar))).map fun w =>
      (.wellKnown w, cs.dropWhile isWordChar))

/-- A key from its literal: a symbol in brackets or a name. -/
def anyKey (q : Quote) : Reader Key
  | '[' :: cs =>
      match symbol q cs with
      | some (s, ']' :: rest) => some (.symbol s, rest)
      | _ => none
  | cs => key q cs

theorem behind?_append (opening : String) (rest : List Char) :
    behind? opening (opening.toList ++ rest) = some rest :=
  List.isPrefixOf?_eq_some_iff_append_eq.mpr rfl

theorem enclosed_append (q : Quote) (s : String) (rest : List Char) :
    enclosed q ((quoted q s).toList ++ ')' :: rest) = some (s, rest) := by
  rw [enclosed, Text.unquote?_quoted_append]
  exact congrArg (fun t => some (t, rest)) String.ofList_toList

theorem toList_applied (opening : String) (q : Quote) (s : String) (rest : List Char) :
    (opening ++ quoted q s ++ ")").toList ++ rest =
      opening.toList ++ ((quoted q s).toList ++ ')' :: rest) := by
  rw [String.toList_append, String.toList_append, List.append_assoc, List.append_assoc]
  rfl

theorem symbol_described (q : Quote) (d : String) (rest : List Char) :
    symbol q ("Symbol(".toList ++ ((quoted q d).toList ++ ')' :: rest)) =
      some (.unique 0 (some d), rest) := by
  have hnone : behind? "Symbol()" ("Symbol(".toList ++ ((quoted q d).toList ++ ')' :: rest)) =
      none := by
    rw [Text.toList_quoted_append]
    cases q <;> rfl
  rw [symbol, hnone, behind?_append, Option.bind_some, enclosed_append]
  rfl

theorem symbol_registered (q : Quote) (key : String) (rest : List Char) :
    symbol q ("Symbol.for(".toList ++ ((quoted q key).toList ++ ')' :: rest)) =
      some (.registered key, rest) := by
  generalize hbehind : (quoted q key).toList ++ ')' :: rest = cs
  have hbare : behind? "Symbol()" ("Symbol.for(".toList ++ cs) = none := rfl
  have hdescribed : behind? "Symbol(" ("Symbol.for(".toList ++ cs) = none := rfl
  rw [symbol, hbare, hdescribed, behind?_append, Option.bind_some, ← hbehind, enclosed_append]
  rfl

theorem symbol_wellKnown (q : Quote) (w : WellKnown) {rest : List Char}
    (hrest : ∀ c ∈ rest.head?, isWordChar c = false) :
    symbol q (w.description.toList ++ rest) = some (.wellKnown w, rest) := by
  have hword := all_isWordChar_of_isIdentifier w.isIdentifier_name
  have hname : behind? "for(" (w.name.toList ++ rest) = none := by
    cases w <;> rfl
  have hregistered : behind? "Symbol.for(" ("Symbol.".toList ++ (w.name.toList ++ rest)) = none :=
    hname
  rw [WellKnown.description, String.toList_append, List.append_assoc]
  have hbare : behind? "Symbol()" ("Symbol.".toList ++ (w.name.toList ++ rest)) = none := rfl
  have hdescribed : behind? "Symbol(" ("Symbol.".toList ++ (w.name.toList ++ rest)) = none := rfl
  rw [symbol, hbare, hdescribed, hregistered, behind?_append, Option.bind_some,
    Text.takeWhile_append hword hrest, Text.dropWhile_append hword hrest, String.ofList_toList,
    WellKnown.ofName?_name]
  rfl

theorem symbol_reads (q : Quote) (s : Symbol) {rest : List Char}
    (hrest : ∀ c ∈ rest.head?, isWordChar c = false) :
    symbol q ((s.literal q).toList ++ rest) = some (s.anonymous, rest) := by
  rcases s with ⟨serial, _ | d⟩ | key | w
  · rw [Symbol.literal, symbol, behind?_append]
    rfl
  · rw [Symbol.literal, toList_applied, symbol_described]
    rfl
  · rw [Symbol.literal, toList_applied, symbol_registered]
    rfl
  · exact symbol_wellKnown q w hrest

theorem head?_literal_ne (q : Quote) (s : String) (rest : List Char) :
    (((Key.name s).literal q).toList ++ rest).head? ≠ some '[' := by
  rw [Key.literal]
  split
  · rename_i hname
    have hword := all_isWordChar_of_isIdentifier hname
    rcases hs : s.toList with _ | ⟨c, cs⟩
    · rw [hs] at hname
      cases hname
    · intro hhead
      obtain rfl : c = '[' := Option.some.inj hhead
      have hbracket := hword '[' (hs ▸ List.mem_cons_self)
      cases hbracket
  · rw [Text.toList_quoted]
    cases q <;> exact fun hhead => absurd (Option.some.inj hhead) (by decide)

theorem anyKey_of_head?_ne {cs : List Char} (hcs : cs.head? ≠ some '[') (q : Quote) :
    anyKey q cs = key q cs := by
  unfold anyKey
  split
  · exact absurd rfl hcs
  · rfl

/-- A key is read up to the colon behind it. -/
theorem anyKey_reads (q : Quote) (k : Key) (rest : List Char) :
    anyKey q ((k.literal q).toList ++ ':' :: rest) = some (k.anonymous, ':' :: rest) := by
  cases k with
  | name s =>
      rw [anyKey_of_head?_ne (head?_literal_ne q s _)]
      exact key_reads q s (List.forall_mem_nil _) rest
  | symbol s =>
      have hbracket : ∀ c ∈ (']' :: ':' :: rest).head?, isWordChar c = false := by
        intro c hc
        obtain rfl : ']' = c := Option.some.inj hc
        decide
      have htext : ((Key.symbol s).literal q).toList ++ ':' :: rest =
          '[' :: ((s.literal q).toList ++ ']' :: ':' :: rest) := by
        rw [Key.literal, String.toList_append, String.toList_append, List.append_assoc,
          List.append_assoc]
        rfl
      rw [htext, anyKey, symbol_reads q s hbracket]
      rfl

end Notation

end ObjectLiteral
