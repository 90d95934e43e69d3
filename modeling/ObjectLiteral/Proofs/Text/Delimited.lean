import ObjectLiteral.Proofs.Text.Json
import ObjectLiteral.Proofs.Text.Scan
import ObjectLiteral.Proofs.Text.Unbroken
/-!
Quoted strings end where they say.  Whatever a string contains and whatever stands behind its
literal, the literal is read back as the string and nothing of the rest is taken; it stays on one
line, and in double quotes it is a JSON string unless a control character stands in it as it is.
-/

namespace ObjectLiteral.Text

/-- The literal of a string delimits itself and loses nothing. -/
theorem quoted_delimited (q : Quote) (s : String) :
    (∀ rest : String, unquote? q (quoted q s ++ rest).toList = some (s.toList, rest.toList)) ∧
      (∃ inside, (quoted q s).toList = q.mark :: inside ++ [q.mark] ∧
        ∀ c ∈ inside, c ≠ '\n' ∧ c ≠ '\r') ∧
      ∀ s', Json.Denotes (quoted .double s) s' ↔
        (∀ c ∈ s.toList, c.toNat < 0x20 → c = '\n' ∨ c = '\r') ∧ s' = s := by
  refine ⟨?_, ⟨escapeAll q s.toList, toList_quoted q s, ?_⟩, ?_⟩
  · intro rest
    rw [String.toList_append]
    exact unquote?_quoted_append q s rest.toList
  · intro c hc
    obtain ⟨d, -, hd⟩ := List.mem_flatMap.mp hc
    exact not_or.mp (not_isBreak_of_mem_escape q d c hd)
  · exact fun s' => Json.denotes_quoted_iff

end ObjectLiteral.Text
