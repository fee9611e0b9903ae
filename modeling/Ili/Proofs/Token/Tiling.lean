import Ili.Proofs.Token.Reading
import Mathlib.Algebra.GroupWithZero.Nat
import Mathlib.Data.List.Chain

/-!
# Tokens tile a text

The tokens of a text stand one behind the other without a gap, and none of them could have been read
on: neither a run of blanks nor a word is cut in two. What a token is does not depend on what stands
behind it, so by itself each is read as itself.
-/

namespace Ili

theorem withOffsets_eq_mapIdx (start : Nat) (tokens : List Token) :
    withOffsets start tokens = tokens.mapIdx fun index token =>
      (start + ((tokens.take index).map Token.size).sum, token) := by
  induction tokens generalizing start with
  | nil => rfl
  | cons token rest ih => simp [withOffsets, ih, List.mapIdx_cons, Nat.add_assoc]

theorem spelling_eq_join (tokens : List Token) :
    spelling tokens = (String.join (tokens.map Token.text)).toList := by
  rw [String.toList_join, List.flatMap_map, spelling]

theorem utf8Length_spelling (tokens : List Token) :
    utf8Length (spelling tokens) = (tokens.map Token.size).sum := by
  induction tokens with
  | nil => rfl
  | cons token rest ih =>
    rw [spelling_cons, utf8Length_append, ih, List.map_cons, List.sum_cons, Token.size]

theorem stop_le_of_mem_withOffsets {start : Nat} {tokens : List Token} {placed : Nat × Token}
    (h : placed ∈ withOffsets start tokens) :
    placed.1 + placed.2.size ≤ start + utf8Length (spelling tokens) := by
  induction tokens generalizing start with
  | nil => cases h
  | cons token rest ih =>
    rw [spelling_cons, utf8Length_append]
    rcases List.mem_cons.mp h with rfl | h
    · show start + token.size ≤ start + (token.size + utf8Length (spelling rest))
      omega
    · have hstop := ih h
      show _ ≤ start + (token.size + utf8Length (spelling rest))
      omega

def Token.Fuses (left right : Token) : Prop :=
  (left.kind = .whitespace ∧ right.kind = .whitespace) ∨
    ((left.kind == .ident || left.kind.isKeyword) = true ∧
      (right.kind == .ident || right.kind.isKeyword) = true)

theorem Token.not_fuses {left right : Token} {rest : List Token}
    (hleft : left.Heads (spelling (right :: rest))) (hright : right.Heads (spelling rest)) :
    ¬left.Fuses right := by
  have hhead : (spelling (right :: rest)).head? = right.text.toList.head? := by
    obtain ⟨c, cs, htext, -⟩ := hright
    rw [spelling_cons, htext]
    rfl
  rintro (⟨hblank, hblank'⟩ | ⟨hword, hword'⟩)
  · have hnone := hleft.head_of_whitespace hblank
    obtain ⟨c, cs, htext, -⟩ := id hright
    rw [hhead, htext, List.head?_cons, Option.any_some,
      hright.isBlank hblank' c (by simp [htext])] at hnone
    cases hnone
  · have hnone := (hleft.head_of_word hword).2
    have halpha := (hright.head_of_word hword').1
    rw [hhead] at hnone
    obtain ⟨c, cs, htext, -⟩ := hright
    rw [htext, List.head?_cons, Option.any_some] at hnone halpha
    rw [Lexer.isWordChar, Char.isAlphanum, halpha] at hnone
    cases hnone

theorem Tiled.isChain {tokens : List Token} (h : Tiled tokens) :
    tokens.IsChain fun left right => ¬left.Fuses right := by
  induction tokens with
  | nil => exact .nil
  | cons left rest ih =>
    cases rest with
    | nil => exact .singleton left
    | cons right rest => exact .cons_cons (Token.not_fuses h.1 h.2.1) (ih h.2)

theorem Token.continuedBy_nil (token : Token) : token.continuedBy [] = false := by
  unfold continuedBy
  split <;> try rfl
  · simp
  · split <;> rfl
  · split <;> rfl
  · simp

/-- By itself a token is read as itself, wherever it was cut off. -/
theorem Token.Heads.tokenize_text {token : Token} {rest : List Char} (h : token.Heads rest) :
    tokenize token.text = [token] := by
  have hread := Lexer.tokensAfter_of_heads (h.append token.continuedBy_nil)
  rwa [List.append_nil] at hread

/-- The tokens of a text are not empty and stand side by side over all of it, each at the number of
bytes before it. No two neighbours are runs of blanks or words, and each token by itself is read as
itself. -/
theorem tokenize_tiles (text : String) :
    (∀ token ∈ tokenize text, token.text ≠ "") ∧
      String.join ((tokenize text).map Token.text) = text ∧
      withOffsets 0 (tokenize text) = (tokenize text).mapIdx (fun index token =>
        ((((tokenize text).take index).map Token.size).sum, token)) ∧
      (∀ placed ∈ withOffsets 0 (tokenize text),
        placed.1 + placed.2.size ≤ utf8Length text.toList) ∧
      (tokenize text).IsChain (fun left right =>
        ¬(left.kind = .whitespace ∧ right.kind = .whitespace) ∧
          ¬((left.kind == .ident || left.kind.isKeyword) = true ∧
            (right.kind == .ident || right.kind.isKeyword) = true)) ∧
      ∀ token ∈ tokenize text, withOffsets 0 (tokenize token.text) = [(0, token)] := by
  have htiled := tiled_tokenize text
  refine ⟨?_, ?_, ?_, ?_, ?_, ?_⟩
  · rintro token hmem hempty
    obtain ⟨rest, c, cs, htext, -⟩ := htiled.heads_of_mem hmem
    rw [hempty] at htext
    cases htext
  · rw [← String.toList_inj, ← spelling_eq_join, spelling_tokenize]
  · simpa using withOffsets_eq_mapIdx 0 (tokenize text)
  · intro placed hmem
    have hstop := stop_le_of_mem_withOffsets hmem
    rwa [spelling_tokenize, Nat.zero_add] at hstop
  · exact htiled.isChain.imp fun left right hfuses => not_or.mp hfuses
  · intro token hmem
    obtain ⟨rest, hheads⟩ := htiled.heads_of_mem hmem
    rw [hheads.tokenize_text]
    rfl

end Ili
