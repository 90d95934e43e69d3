import ObjectLiteral.Proofs.Text.Trivia
/-!
What is skipped in front of a declaration.  Each step of the skipping takes exactly one piece of
trivia, so a text splits in one way only into trivia and a rest that does not begin with any, and
the rest is what is left.
-/

namespace ObjectLiteral.Text

/-- The text begins with a piece of trivia. -/
def BeginsWithTrivia (cs : List Char) : Prop :=
  ∃ piece rest, Trivium piece ∧ cs = piece ++ rest

/-- The text begins with a comment that is no trivia: one that is not ended, or a block that goes on
after the end of its line. -/
inductive Unfinished : List Char → Prop
  | line {body : List Char} (hbody : '\n' ∉ body) : Unfinished ('/' :: '/' :: body)
  | block {body : List Char} (hend : ¬ ['*', '/'] <:+: body) : Unfinished ('/' :: '*' :: body)
  | lines {body : List Char} (hend : ¬ ['*', '/'] <:+: body) (rest : List Char) :
      Unfinished ('/' :: '*' :: body ++ '\n' :: rest)

variable {cs rest : List Char}

theorem afterLine?_eq_some_iff :
    afterLine? cs = some rest ↔ ∃ body, '\n' ∉ body ∧ cs = body ++ '\n' :: rest := by
  constructor
  · intro hrest
    induction cs with
    | nil => cases hrest
    | cons c cs ih =>
        rw [afterLine?] at hrest
        split at hrest
        · rename_i hc
          cases hrest
          exact ⟨[], List.not_mem_nil, by rw [hc, List.nil_append]⟩
        · rename_i hc
          obtain ⟨body, hbody, rfl⟩ := ih hrest
          exact ⟨c :: body, List.not_mem_cons_of_ne_of_not_mem (Ne.symm hc) hbody, rfl⟩
  · rintro ⟨body, hbody, rfl⟩
    exact afterLine?_append hbody rest

/-- A character makes no `*/` with the text behind it unless it is a star before a slash. -/
theorem not_infix_cons {c : Char} {body : List Char}
    (hopen : ∀ rest, c = '*' → body = '/' :: rest → False)
    (hbody : ¬ ['*', '/'] <:+: body) : ¬ ['*', '/'] <:+: c :: body := by
  rw [List.infix_cons_iff]
  rintro (⟨rest, hrest⟩ | hinfix)
  · simp only [List.cons_append, List.nil_append, List.cons.injEq] at hrest
    exact hopen rest hrest.1.symm hrest.2.symm
  · exact hbody hinfix

theorem afterBlock?_eq_some_iff : afterBlock? cs = some rest ↔
    ∃ body, '\n' ∉ body ∧ ¬ ['*', '/'] <:+: body ∧ cs = body ++ '*' :: '/' :: rest := by
  constructor
  · intro hrest
    fun_induction afterBlock? cs with
    | case1 => cases hrest
    | case2 cs =>
        cases hrest
        exact ⟨[], List.not_mem_nil, by decide, rfl⟩
    | case3 => cases hrest
    | case4 c cs hopen hc ih =>
        obtain ⟨body, hline, hend, rfl⟩ := ih hrest
        refine ⟨c :: body, List.not_mem_cons_of_ne_of_not_mem (Ne.symm hc) hline, ?_, rfl⟩
        refine not_infix_cons (fun tail hstar hslash => ?_) hend
        rw [hslash] at hopen
        exact hopen (tail ++ '*' :: '/' :: rest) hstar rfl
  · rintro ⟨body, hline, hend, rfl⟩
    exact afterBlock?_append hline hend rest

theorem afterTrivium?_eq_some_iff :
    afterTrivium? cs = some rest ↔ ∃ piece, Trivium piece ∧ cs = piece ++ rest := by
  constructor
  · intro hrest
    fun_cases afterTrivium? cs with
    | case1 => cases hrest
    | case2 cs =>
        obtain ⟨body, hbody, rfl⟩ := afterLine?_eq_some_iff.mp (by rwa [afterTrivium?] at hrest)
        exact ⟨_, .line hbody, by simp⟩
    | case3 cs =>
        obtain ⟨body, hline, hend, rfl⟩ :=
          afterBlock?_eq_some_iff.mp (by rwa [afterTrivium?] at hrest)
        exact ⟨_, .block hline hend, by simp⟩
    | case4 c cs hline hblock hblank =>
        rw [afterTrivium?.eq_4 c cs hline hblock, if_pos hblank] at hrest
        cases hrest
        exact ⟨[c], .blank hblank, rfl⟩
    | case5 c cs hline hblock hblank =>
        rw [afterTrivium?.eq_4 c cs hline hblock, if_neg hblank] at hrest
        cases hrest
  · rintro ⟨piece, hpiece, rfl⟩
    exact hpiece.after rest

/-- Where no piece of trivia is taken off, none is there. -/
theorem afterTrivium?_eq_none_iff : afterTrivium? cs = none ↔ ¬ BeginsWithTrivia cs := by
  rw [Option.eq_none_iff_forall_ne_some]
  constructor
  · rintro hnone ⟨piece, rest, hpiece, hcs⟩
    exact hnone rest (afterTrivium?_eq_some_iff.mpr ⟨piece, hpiece, hcs⟩)
  · intro hbegins rest hrest
    obtain ⟨piece, hpiece, hcs⟩ := afterTrivium?_eq_some_iff.mp hrest
    exact hbegins ⟨piece, rest, hpiece, hcs⟩

theorem afterLine?_eq_none {body : List Char} (hbody : '\n' ∉ body) : afterLine? body = none := by
  rw [Option.eq_none_iff_forall_ne_some]
  intro rest hrest
  obtain ⟨line, -, rfl⟩ := afterLine?_eq_some_iff.mp hrest
  exact hbody (List.mem_append_right line List.mem_cons_self)

theorem afterBlock?_eq_none {body : List Char} (hend : ¬ ['*', '/'] <:+: body) :
    afterBlock? body = none := by
  rw [Option.eq_none_iff_forall_ne_some]
  intro rest hrest
  obtain ⟨block, -, -, rfl⟩ := afterBlock?_eq_some_iff.mp hrest
  exact hend ⟨block, rest, by simp⟩

/-- A line feed in front of every `*/` keeps a block from being trivia. -/
theorem afterBlock?_append_line {body : List Char} (hend : ¬ ['*', '/'] <:+: body)
    (rest : List Char) : afterBlock? (body ++ '\n' :: rest) = none := by
  rw [Option.eq_none_iff_forall_ne_some]
  intro after hafter
  obtain ⟨block, hline, -, hcs⟩ := afterBlock?_eq_some_iff.mp hafter
  rcases List.append_eq_append_iff.mp hcs with ⟨gap, rfl, hgap⟩ | ⟨gap, rfl, hgap⟩
  · -- the line feed would stand in the block, or be its star
    cases gap with
    | nil => simp at hgap
    | cons c gap =>
        obtain ⟨rfl, -⟩ := List.cons.inj hgap
        exact hline (List.mem_append_right body List.mem_cons_self)
  · -- the end of the block stands in front of the line feed
    match gap, hgap with
    | [], hgap => simp at hgap
    | [_], hgap => simp at hgap
    | c :: d :: gap, hgap =>
        simp only [List.cons_append, List.cons.injEq] at hgap
        obtain ⟨rfl, rfl, -⟩ := hgap
        exact hend ⟨block, gap, by simp⟩

theorem Unfinished.not_beginsWithTrivia (hcs : Unfinished cs) : ¬ BeginsWithTrivia cs := by
  rw [← afterTrivium?_eq_none_iff]
  cases hcs with
  | line hbody => rw [afterTrivium?, afterLine?_eq_none hbody]
  | block hend => rw [afterTrivium?, afterBlock?_eq_none hend]
  | lines hend rest =>
      rw [List.cons_append, List.cons_append, afterTrivium?, afterBlock?_append_line hend]

/-- What is skipped is trivia. -/
theorem exists_trivia (cs : List Char) : ∃ g, Trivia g ∧ cs = g ++ dropTrivia cs := by
  fun_induction dropTrivia cs with
  | case1 cs hcs => exact ⟨[], .nil, rfl⟩
  | case2 cs rest hcs ih =>
      obtain ⟨piece, hpiece, rfl⟩ := afterTrivium?_eq_some_iff.mp hcs
      obtain ⟨g, hg, hrest⟩ := ih
      refine ⟨piece ++ g, .cons hpiece hg, ?_⟩
      rw [List.append_assoc, ← hrest]

/-- Skipping goes on as long as there is trivia. -/
theorem not_beginsWithTrivia_dropTrivia (cs : List Char) :
    ¬ BeginsWithTrivia (dropTrivia cs) := by
  fun_induction dropTrivia cs with
  | case1 cs hcs => exact afterTrivium?_eq_none_iff.mp hcs
  | case2 cs rest hcs ih => exact ih

/-- Skipping trivia is maximal munch.  It splits a text into trivia and a rest that does not begin
with trivia; there is no other split of this kind, whatever the comments say; and a rest is left
as it is, be it one that begins with an unfinished comment. -/
theorem dropTrivia_maximal (cs : List Char) :
    (∃ g, Trivia g ∧ cs = g ++ dropTrivia cs) ∧
      ¬ BeginsWithTrivia (dropTrivia cs) ∧
      (∀ g u, Trivia g → ¬ BeginsWithTrivia u → cs = g ++ u → u = dropTrivia cs) ∧
      dropTrivia (dropTrivia cs) = dropTrivia cs ∧
      (∀ g u, Trivia g → ¬ BeginsWithTrivia u → dropTrivia (g ++ u) = u) ∧
      ∀ u, Unfinished u → dropTrivia u = u := by
  have hfront : ∀ g u, Trivia g → ¬ BeginsWithTrivia u → dropTrivia (g ++ u) = u :=
    fun g u hg hu => dropTrivia_append hg (afterTrivium?_eq_none_iff.mpr hu)
  have hrest := not_beginsWithTrivia_dropTrivia cs
  refine ⟨exists_trivia cs, hrest, ?_, hfront [] _ .nil hrest, hfront, ?_⟩
  · rintro g u hg hu rfl
    exact (hfront g u hg hu).symm
  · exact fun u hu => hfront [] u .nil hu.not_beginsWithTrivia

namespace SkippingWitness

/-- A blank, a line that says `*/` and a block that says `//`. -/
def gap : List Char :=
  " //*/\n/*//*/".toList

/-- A block that goes on after the end of its line. -/
def block : List Char :=
  "/*x\n*/ y".toList

theorem trivia_gap : Trivia gap := by
  have hblank : Trivium " ".toList := @Trivium.blank ' ' (by decide)
  have hline : Trivium "//*/\n".toList := @Trivium.line "*/".toList (by decide)
  have hone : Trivium "/*//*/".toList := @Trivium.block "//".toList (by decide) (by decide)
  exact .cons hblank (.cons hline (.cons hone .nil))

theorem unfinished_block : Unfinished block :=
  @Unfinished.lines "x".toList (by decide) "*/ y".toList

theorem dropTrivia_maximal_comments :
    Trivia gap ∧ ¬ BeginsWithTrivia block ∧ Unfinished block ∧ dropTrivia (gap ++ block) = block ∧
      dropTrivia block = block ∧
      ∀ g u, Trivia g → ¬ BeginsWithTrivia u → gap ++ block = g ++ u → u = block := by
  have hblock := unfinished_block.not_beginsWithTrivia
  obtain ⟨-, -, hunique, -, hfront, hunfinished⟩ := dropTrivia_maximal (gap ++ block)
  have hdrop := hfront gap block trivia_gap hblock
  refine ⟨trivia_gap, hblock, unfinished_block, hdrop, hunfinished block unfinished_block, ?_⟩
  intro g u hg hu hsplit
  rw [hunique g u hg hu hsplit, hdrop]

end SkippingWitness

end ObjectLiteral.Text
