import WordLang.Proofs.Tokenization

/-!
# The places of tokens

A token lies in the text where its offsets say: its text stands between them. A cut that stops early stops at
a character behind all its tokens that starts none.
-/

namespace WordLang

namespace Text

theorem byteLength_append (cs ds : List Char) : byteLength (cs ++ ds) = byteLength cs + byteLength ds := by
  induction cs with
  | nil => simp [byteLength]
  | cons c cs ih => simp [byteLength, ih, Nat.add_assoc]

/-- A character of the text starts at the offset, or the text ends there. -/
def Boundary (source : String) (offset : Nat) : Prop :=
  ∃ before after, source.toList = before ++ after ∧ byteLength before = offset

end Text

open Text

namespace Tokens

variable {offset : Nat} {cs : List Char} {text : Tokens} {t : Token}

/-- The text of a token stands at its place, and is the longest token there. -/
theorem Cut.token_at (h : Cut offset cs text) (ht : t ∈ text.tokens) :
    ∃ before after, cs = before ++ (t.text.toList ++ after) ∧ t.start = offset + byteLength before ∧
      t.stop = t.start + byteLength t.text.toList ∧ Token.Longest t.kind t.text.toList after := by
  induction h with
  | done => simp at ht
  | @blank offset c cs text _ _ ih =>
    obtain ⟨before, after, rfl, hstart, hstop, hlongest⟩ := ih ht
    refine ⟨c :: before, after, rfl, ?_, hstop, hlongest⟩
    rw [hstart, byteLength, Nat.add_assoc]
  | @token offset kind lexeme rest text htoken _ ih =>
    rcases List.mem_cons.mp ht with rfl | ht
    · exact ⟨[], rest, by simp, by simp [byteLength], by simp, by simpa using htoken⟩
    · obtain ⟨before, after, rfl, hstart, hstop, hlongest⟩ := ih ht
      refine ⟨lexeme ++ before, after, by simp, ?_, hstop, hlongest⟩
      rw [hstart, byteLength_append, Nat.add_assoc]
  | invalid => simp at ht

/-- At the offset where a cut stops early stands a character that starts no token, behind all tokens. -/
theorem Cut.invalid_at (h : Cut offset cs text) {stop : Nat} (hinvalid : text.invalid = some stop) :
    ∃ before c after, cs = before ++ c :: after ∧ stop = offset + byteLength before ∧
      Text.isBlank c = false ∧
      (∀ kind lexeme rest, lexeme ++ rest = c :: after → ¬ Terminal.Spells kind lexeme) ∧
      ∀ t ∈ text.tokens, t.stop ≤ stop := by
  induction h with
  | done => simp at hinvalid
  | @blank offset c cs text _ _ ih =>
    obtain ⟨before, c', after, rfl, hstop, hblank, hnone, htokens⟩ := ih hinvalid
    refine ⟨c :: before, c', after, rfl, ?_, hblank, hnone, htokens⟩
    rw [hstop, byteLength, Nat.add_assoc]
  | @token offset kind lexeme rest text _ _ ih =>
    obtain ⟨before, c, after, rfl, hstop, hblank, hnone, htokens⟩ := ih hinvalid
    refine ⟨lexeme ++ before, c, after, by simp, ?_, hblank, hnone, fun t ht => ?_⟩
    · rw [hstop, byteLength_append, Nat.add_assoc]
    · rcases List.mem_cons.mp ht with rfl | ht
      · dsimp only
        omega
      · exact htokens t ht
  | @invalid offset c cs hblank hnone =>
    obtain rfl := Option.some.inj hinvalid
    exact ⟨[], c, cs, rfl, by simp [byteLength], hblank, hnone, by simp⟩

end Tokens

end WordLang
