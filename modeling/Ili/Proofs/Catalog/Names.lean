import Ili.Proofs.Catalog.Siblings
import Ili.Proofs.Tree.Kinds

/-!
# Names

A definition is named by an identifier, or by several of them put together, and what is called an
identifier in the tree of a text is a word. So no name holds a dot.
-/

namespace Ili

namespace Site

theorem exists_token_of_ident {text : String} {site : Site}
    (hsite : (root (parse text).tree).Within site) (hkind : site.kind = .ident) :
    ∃ token ∈ (parse text).tree.tokens, site.text = token.text ∧ token.kind = .ident ∧
      token.isWordLike = true := by
  have hregular := hsite.regular (regular_parse text)
  obtain ⟨left, right, htokens, -⟩ := cutFrom_of_within hsite
  obtain ⟨tree, start, before⟩ := site
  cases tree with
  | token t =>
    refine ⟨t, ?_, rfl, hkind, hregular hkind⟩
    rw [htokens]
    exact List.mem_append_left _ (List.mem_append_right _ (List.mem_singleton_self t))
  | node kind children =>
    have hnode : kind.isNode = true := hregular.1
    obtain rfl : kind = .ident := hkind
    cases hnode

theorem dot_notMem_text {text : String} {site : Site}
    (hsite : (root (parse text).tree).Within site) (hkind : site.kind = .ident) :
    '.' ∉ site.text.toList := by
  obtain ⟨token, htoken, htext, -, hword⟩ := exists_token_of_ident hsite hkind
  have hmem : token.restore ∈ tokenize text := by
    rw [← map_restore_tokens_parse]
    exact List.mem_map_of_mem htoken
  obtain ⟨rest, hheads⟩ := (tiled_tokenize text).heads_of_mem hmem
  have hchars := hheads.forall_isWordChar (by rwa [Token.isWordLike, Token.text_restore])
  rw [Token.text_restore] at hchars
  intro hdot
  rw [htext] at hdot
  cases hchars '.' hdot

end Site

namespace Catalog

/-- **No name of a definition holds a dot.** -/
theorem dot_notMem_name_ofText {text : String} {uri : Option String} {index : Nat}
    {definition : Definition} (hfound : (ofText text uri).definition? index = some definition) :
    '.' ∉ definition.name.toList := by
  obtain ⟨file, noted, -, hportion, hdefinition⟩ := exists_portion_ofText text uri
  rw [hdefinition, Option.map_eq_some_iff] at hfound
  obtain ⟨entry, hentry, rfl⟩ := hfound
  have hmem : entry ∈ noted := List.mem_of_getElem? hentry
  obtain ⟨words, hname, hwords⟩ := (hportion.stands entry hmem).spelled
  change '.' ∉ entry.1.name.toList
  rw [hname, String.toList_join, List.mem_flatMap]
  rintro ⟨word, hword, hdot⟩
  obtain ⟨site, hsite, rfl⟩ := List.mem_map.mp hword
  obtain ⟨hwithin, hkind⟩ := hwords site hsite
  exact Site.dot_notMem_text ((hportion.within_root entry hmem).trans hwithin) hkind hdot

end Catalog

end Ili
