import Ili.Proofs.Token.Reading

/-!
# What the kind of a token says about its text

Punctuation has one spelling, numbers begin with a digit, and no token but blanks begins with a
blank. A token that is nothing else than an opening of a comment takes the rest of the text with it,
so it is the last one, and it stays what it is when line feeds come or go at its end.
-/

namespace Ili

/-- The spelling of punctuation. A slash has none, since it may also be an opened comment. -/
def Kind.mark? : Kind → Option String
  | .lParen => "("
  | .rParen => ")"
  | .lBracket => "["
  | .rBracket => "]"
  | .lBrace => "\x7b"
  | .rBrace => "\x7d"
  | .semicolon => ";"
  | .colon => ":"
  | .comma => ","
  | .dot => "."
  | .dotDot => ".."
  | .eq => "="
  | .eqEq => "=="
  | .bangEq => "!="
  | .ltGt => "<>"
  | .lt => "<"
  | .gt => ">"
  | .ltEq => "<="
  | .gtEq => ">="
  | .colonEq => ":="
  | .arrow => "->"
  | .assocRole => "--"
  | .aggregationRole => "-<>"
  | .compositionRole => "-<#>"
  | .star => "*"
  | .plus => "+"
  | .minus => "-"
  | .percent => "%"
  | .hash => "#"
  | .tilde => "~"
  | .atSign => "@"
  | .backslash => "\\"
  | _ => none

theorem Kind.mark?_of_word {kind : Kind} (h : (kind == .ident || kind.isKeyword) = true) :
    kind.mark? = none := by
  revert h
  cases kind <;> decide

theorem Kind.mark?_of_isComment {kind : Kind} (h : kind.isComment = true) : kind.mark? = none := by
  revert h
  cases kind <;> decide

namespace Token

variable {token : Token} {rest : List Char}

theorem kind_of_slash {cs : List Char} {kind : Kind} {n : Nat} (h : Lexer.slash cs = (kind, n)) :
    kind = .slash ∨ kind = .error ∨ kind.isComment = true := by
  have hkind : (Lexer.slash cs).1 = kind := congrArg Prod.fst h
  rcases Lexer.slash_cases cs with hcase | ⟨hcase, -⟩ | ⟨hcase, -⟩
  · rw [hcase] at hkind
    exact .inl hkind.symm
  · rw [hkind] at hcase
    exact .inr (.inr hcase)
  · rw [hkind] at hcase
    exact hcase.imp id .inl

theorem mark_of_punctuation {c : Char} {cs : List Char} {kind : Kind} {mark : String}
    (h : Lexer.punctuation c (cs ++ rest) = (kind, cs.length)) (hmark : mark ∈ kind.mark?) :
    c :: cs = mark.toList := by
  have hcs : cs = (cs ++ rest).take cs.length := (List.take_left' rfl).symm
  unfold Lexer.punctuation at h
  split at h
  all_goals
    obtain ⟨rfl, hlength⟩ := Prod.mk.inj h
    first
      | obtain rfl := Option.some.inj hmark
        rw [← hlength] at hcs
        first
          | next heq => rw [hcs, heq]; rfl
          | rw [hcs]; rfl
      | cases hmark

theorem Heads.text_eq_mark (h : token.Heads rest) :
    ∀ mark ∈ token.kind.mark?, token.text = mark := by
  obtain ⟨kind, text⟩ := token
  obtain ⟨c, cs, htext, hmunch⟩ := h
  intro mark hmark
  simp only at htext hmunch hmark ⊢
  rw [← String.toList_inj, htext]
  unfold Lexer.munch at hmunch
  split at hmunch
  · obtain ⟨rfl, -⟩ := Prod.mk.inj hmunch
    cases hmark
  · split at hmunch
    · obtain ⟨rfl, -⟩ := Prod.mk.inj hmunch
      rw [Kind.mark?_of_word (isWord_ofWord _)] at hmark
      cases hmark
    · split at hmunch
      · rcases kind_of_number hmunch with rfl | rfl <;> cases hmark
      · split at hmunch
        · rcases kind_of_quoted hmunch with rfl | rfl <;> cases hmark
        · split at hmunch
          · rcases kind_of_slash hmunch with rfl | rfl | hcomment
            · cases hmark
            · cases hmark
            · rw [Kind.mark?_of_isComment hcomment] at hmark
              cases hmark
          · split at hmunch
            · next hbang =>
              subst hbang
              unfold Lexer.bang at hmunch
              split at hmunch
              all_goals
                obtain ⟨rfl, hlength⟩ := Prod.mk.inj hmunch
                first
                  | next heq =>
                    obtain rfl := Option.some.inj hmark
                    have hcs : cs = (cs ++ rest).take cs.length := (List.take_left' rfl).symm
                    rw [← hlength, heq] at hcs
                    rw [hcs]
                    rfl
                  | cases hmark
            · exact mark_of_punctuation hmunch hmark

def mayBegin (kind : Kind) (c : Char) : Bool :=
  match kind with
  | .integer | .decimal => c.isDigit
  | .slash => c == '/'
  | _ => true

theorem mayBegin_of_not {kind : Kind} (h : kind ≠ .integer ∧ kind ≠ .decimal ∧ kind ≠ .slash)
    (c : Char) : mayBegin kind c = true := by
  unfold mayBegin
  split
  · exact absurd rfl h.1
  · exact absurd rfl h.2.1
  · exact absurd rfl h.2.2
  · rfl

theorem Heads.mayBegin (h : token.Heads rest) :
    ∃ c cs, token.text.toList = c :: cs ∧ Token.mayBegin token.kind c = true := by
  obtain ⟨kind, text⟩ := token
  obtain ⟨c, cs, htext, hmunch⟩ := h
  refine ⟨c, cs, htext, ?_⟩
  simp only at hmunch ⊢
  unfold Lexer.munch at hmunch
  split at hmunch
  · obtain ⟨rfl, -⟩ := Prod.mk.inj hmunch
    rfl
  · split at hmunch
    · obtain ⟨rfl, -⟩ := Prod.mk.inj hmunch
      have hword := isWord_ofWord
        (String.ofList (c :: List.takeWhile Lexer.isWordChar (cs ++ rest)))
      apply mayBegin_of_not
      refine ⟨?_, ?_, ?_⟩ <;> intro hkind <;> rw [hkind] at hword <;> cases hword
    · split at hmunch
      · next hdigit => rcases kind_of_number hmunch with rfl | rfl <;> exact hdigit
      · split at hmunch
        · rcases kind_of_quoted hmunch with rfl | rfl <;> rfl
        · split at hmunch
          · next hslash =>
            subst hslash
            unfold Token.mayBegin
            split <;> first
              | rfl
              | rcases kind_of_slash hmunch with hkind | hkind | hkind <;> cases hkind
          · split at hmunch
            · rcases kind_of_bang hmunch with rfl | rfl | rfl | rfl <;> rfl
            · unfold Lexer.punctuation at hmunch
              split at hmunch <;> (obtain ⟨rfl, -⟩ := Prod.mk.inj hmunch; rfl)

theorem Heads.head_not_blank (h : token.Heads rest) (hkind : token.kind ≠ .whitespace)
    (next : List Char) : (token.text.toList ++ next).head?.any Lexer.isBlank = false := by
  obtain ⟨c, cs, htext, hmunch⟩ := h
  rw [htext, List.cons_append, List.head?_cons, Option.any_some, ← Bool.not_eq_true]
  intro hblank
  exact hkind ((congrArg Prod.fst hmunch).symm.trans (Lexer.munch_eq_whitespace_iff.mpr hblank))

def isOpenString (token : Token) : Bool :=
  token.kind == .error && token.text.toList.head? == some '"'

def opensComment (text : String) : Bool :=
  text.toList.head? == some '/' && text != "/"

def isOpenComment (token : Token) : Bool :=
  !token.kind.isTrivia && opensComment token.text

/-- With anything behind it the token would be read on. -/
def reachesEnd (token : Token) : Bool :=
  token.isOpenComment || token.text == "/**/"

theorem Heads.kind_of_slash (h : token.Heads rest) (htext : token.text = "/") :
    token.kind = .slash := by
  obtain ⟨c, cs, hchars, hmunch⟩ := h
  rw [htext] at hchars
  obtain ⟨rfl, rfl⟩ := List.cons.inj hchars
  have hslash : Lexer.slash rest = (token.kind, 0) := hmunch
  rcases Lexer.slash_cases rest with hcase | ⟨-, hcase⟩ | ⟨-, hcase⟩
  · exact congrArg Prod.fst (hslash.symm.trans hcase)
  · rw [hslash] at hcase
    simp at hcase
  · rw [hslash] at hcase
    obtain rfl := List.length_eq_zero_iff.mp hcase.symm
    exact (congrArg Prod.fst hslash).symm

theorem Heads.kind_of_block (h : token.Heads []) (htext : token.text = "/**/") :
    token.kind = .blockComment := by
  obtain ⟨c, cs, hchars, hmunch⟩ := h
  rw [htext] at hchars
  obtain ⟨rfl, rfl⟩ := List.cons.inj hchars
  have hslash : Lexer.slash ['*', '*', '/'] = (token.kind, 3) := hmunch
  exact (congrArg Prod.fst hslash).symm

theorem not_heads_of_opening (htext : token.text = "/*" ∨ token.text = "/**") :
    ¬token.Heads [] := by
  rintro ⟨c, cs, hchars, hmunch⟩
  rcases htext with htext | htext
  · rw [htext] at hchars
    obtain ⟨rfl, rfl⟩ := List.cons.inj hchars
    have hslash : Lexer.slash ['*'] = (token.kind, 1) := hmunch
    cases (Prod.mk.inj hslash).2
  · rw [htext] at hchars
    obtain ⟨rfl, rfl⟩ := List.cons.inj hchars
    have hslash : Lexer.slash ['*', '*'] = (token.kind, 2) := hmunch
    cases (Prod.mk.inj hslash).2

theorem opensComment_iff {text : String} {c : Char} {cs : List Char}
    (htext : text.toList = c :: cs) :
    opensComment text = true ↔ c = '/' ∧ cs ≠ [] := by
  have hslash : text = "/" ↔ c :: cs = ['/'] := by
    rw [← htext]
    exact String.toList_inj.symm
  simp only [opensComment, htext, List.head?_cons, Bool.and_eq_true, beq_iff_eq, bne_iff_ne, ne_eq,
    hslash, Option.some.injEq, List.cons.injEq]
  constructor
  · exact fun ⟨hc, hnot⟩ => ⟨hc, fun hcs => hnot ⟨hc, hcs⟩⟩
  · exact fun ⟨hc, hcs⟩ => ⟨hc, fun hboth => hcs hboth.2⟩

theorem Heads.rest_eq_nil (h : token.Heads rest) (hend : token.reachesEnd = true) : rest = [] := by
  obtain ⟨kind, text⟩ := token
  obtain ⟨c, cs, htext, hmunch⟩ := h
  simp only at htext hmunch
  rcases (Bool.or_eq_true _ _).mp hend with hopen | hblock
  · simp only [isOpenComment, Bool.and_eq_true] at hopen
    obtain ⟨rfl, hcs⟩ := (opensComment_iff htext).mp hopen.2
    have hcomment : kind.isComment = false := by
      rw [← Bool.not_eq_true]
      intro hcomment
      simp [Kind.isTrivia, hcomment] at hopen
    exact Lexer.open_of_slash hcomment hcs hmunch
  · obtain rfl := eq_of_beq hblock
    obtain ⟨rfl, rfl⟩ := List.cons.inj htext
    exact Lexer.nothing_behind_block hmunch

def mayStop (c : Char) : Bool :=
  !Lexer.isWordChar c && c != '!' && c != '=' && c != '>'

/-- What tokens to the end of a line and single punctuation characters are continued by, though it
continues no others. -/
structure Stops (token : Token) (c : Char) (next : List Char) : Prop where
  line : c = '\n' ∨ token.kind ≠ .lineComment ∧ token.kind ≠ .metaComment ∧
    token.isOpenString = false
  minus : token.kind = .minus → Lexer.continuesMinus (c :: next) = false
  dot : token.kind = .dot → c ≠ '.'
  integer : token.kind = .integer → c = '.' → next.head?.any Char.isDigit = false
  slash : token.kind = .slash → c ≠ '*'

theorem Stops.ofBlank {c : Char} {next : List Char}
    (hc : c = '\n' ∨ c = ' ' ∧ token.kind ≠ .lineComment ∧ token.kind ≠ .metaComment ∧
      token.isOpenString = false) : token.Stops c next := by
  refine ⟨hc.imp id And.right, fun _ => ?_, fun _ => ?_, fun _ hpoint => ?_, fun _ => ?_⟩
  all_goals rcases hc with rfl | ⟨rfl, -⟩ <;> first | rfl | decide | cases hpoint

theorem Heads.continuedBy_cons (h : token.Heads rest) {c : Char} {next : List Char}
    (hkind : token.kind ≠ .whitespace) (hend : token.reachesEnd = false)
    (hc : mayStop c = true) (hstops : token.Stops c next) :
    token.continuedBy (c :: next) = false := by
  obtain ⟨hopen, hblock⟩ := Bool.or_eq_false_iff.mp hend
  simp only [mayStop, Bool.and_eq_true, Bool.not_eq_true', bne_iff_ne, ne_eq] at hc
  obtain ⟨⟨⟨hword, hbang⟩, heq⟩, hangle⟩ := hc
  obtain ⟨halnum, -⟩ := Bool.or_eq_false_iff.mp hword
  obtain ⟨halpha, hdigit⟩ := Bool.or_eq_false_iff.mp halnum
  have hhead {d : Char} (hd : c ≠ d) : ((c :: next).head? == some d) = false := by
    simpa using hd
  unfold continuedBy
  split
  · next hcase => exact absurd hcase hkind
  · next hcase => rcases hstops.line with rfl | ⟨hnot, -, -⟩ <;> [rfl; exact absurd hcase hnot]
  · next hcase => rcases hstops.line with rfl | ⟨-, hnot, -⟩ <;> [rfl; exact absurd hcase hnot]
  · rw [hblock, Bool.false_and]
  · next hcase =>
    rw [List.head?_cons, Option.any_some, hdigit, Bool.false_or]
    unfold Lexer.startsFraction
    split
    · next d tail heq =>
      obtain ⟨rfl, rfl⟩ := List.cons.inj heq
      exact hstops.integer hcase rfl
    · rfl
  · have hexponent : c ≠ 'e' ∧ c ≠ 'E' := by
      constructor <;> rintro rfl <;> cases halpha
    simp [Lexer.continuesNumber, hdigit, hexponent]
  · next hcase =>
    split
    · exact hhead (hstops.slash hcase)
    · next htext =>
      obtain ⟨d, ds, hchars, hbegin⟩ := h.mayBegin
      rw [hcase] at hbegin
      have hopens : opensComment token.text = true := by
        simp only [opensComment, hchars, List.head?_cons, Bool.and_eq_true, bne_iff_ne]
        exact ⟨hbegin, fun hslash => htext (beq_iff_eq.mpr hslash)⟩
      simp [isOpenComment, hcase, hopens, Kind.isTrivia, Kind.isComment] at hopen
  · next hcase =>
    split
    · next hchars =>
      rcases hstops.line with rfl | ⟨-, -, hnot⟩
      · rfl
      · simp [isOpenString, hcase, hchars] at hnot
    · next tail hchars =>
      have htail : tail ≠ [] := by
        rintro rfl
        have hslash := h.kind_of_slash (String.toList_inj.mp hchars)
        rw [hslash] at hcase
        cases hcase
      have hopens := (opensComment_iff hchars).mpr ⟨rfl, htail⟩
      simp [isOpenComment, hcase, hopens, Kind.isTrivia, Kind.isComment] at hopen
    · simp [hbang, heq]
    · rfl
  · next hcase => exact hstops.minus hcase
  · next hcase => exact hhead (hstops.dot hcase)
  · simp [Lexer.continuesPunctuation, hangle, heq]
  · exact hhead heq
  · exact hhead heq
  · exact hhead heq
  · rw [List.head?_cons, Option.any_some, hword, Bool.and_false]

theorem Heads.angle_cases (h : token.Heads rest) (hangle : token.text.toList.head? = some '<') :
    token.kind = .lt ∨ token.text = "<>" ∨ token.text = "<=" := by
  obtain ⟨c, cs, htext, hmunch⟩ := h
  rw [htext] at hangle
  obtain rfl : c = '<' := Option.some.inj hangle
  have hpunctuation : Lexer.punctuation '<' (cs ++ rest) = (token.kind, cs.length) := hmunch
  have hmark (mark : String) (hmem : mark ∈ token.kind.mark?) : '<' :: cs = mark.toList :=
    mark_of_punctuation hpunctuation hmem
  have hspelled {mark : String} (hkind : token.kind.mark? = some mark) : token.text = mark := by
    rw [← String.toList_inj, htext]
    exact hmark mark hkind
  unfold Lexer.punctuation at hpunctuation
  split at hpunctuation
  all_goals
    have hkind := (Prod.mk.inj hpunctuation).1
    first
      | exact .inl hkind.symm
      | exact .inr (.inl (hspelled (by rw [← hkind]; rfl)))
      | exact .inr (.inr (hspelled (by rw [← hkind]; rfl)))
      | simp_all

theorem munch_of_digit {c : Char} (h : c.isDigit = true) (cs : List Char) :
    Lexer.munch c cs = Lexer.number cs := by
  have hblank : ¬Lexer.isBlank c = true := by
    simp only [Lexer.isBlank, Bool.or_eq_true, beq_iff_eq]
    rintro ((((rfl | rfl) | rfl) | rfl) | rfl) <;> cases h
  have halpha : ¬c.isAlpha = true := by
    delta Char.isAlpha Char.isUpper Char.isLower Char.isDigit at *
    grind
  rw [Lexer.munch, if_neg hblank, if_neg halpha, if_pos h]

theorem Heads.kind_of_digit (h : token.Heads rest)
    (hdigit : token.text.toList.head?.any Char.isDigit = true) :
    token.kind = .integer ∨ token.kind = .decimal := by
  obtain ⟨c, cs, htext, hmunch⟩ := h
  rw [htext] at hdigit
  rw [munch_of_digit hdigit] at hmunch
  exact kind_of_number hmunch

theorem Heads.not_startsFraction (h : token.Heads rest) (hkind : token.kind = .integer) :
    Lexer.startsFraction rest = false := by
  obtain ⟨d, ds, hchars, hbegin⟩ := h.mayBegin
  obtain ⟨c, cs, htext, hmunch⟩ := h
  rw [hchars] at htext
  obtain ⟨rfl, rfl⟩ := List.cons.inj htext
  rw [hkind] at hbegin
  rw [munch_of_digit hbegin, Lexer.number_eq, hkind] at hmunch
  split at hmunch
  · cases (Prod.mk.inj hmunch).1
  · next hnot =>
    rw [(Prod.mk.inj hmunch).2, List.drop_left' rfl] at hnot
    exact Bool.eq_false_iff.mpr hnot

theorem Heads.head_of_isOpenString (h : token.Heads rest) (hopen : token.isOpenString = true) :
    ∀ c ∈ rest.head?, c = '\n' ∨ c = '\\' := by
  obtain ⟨c, cs, htext, hmunch⟩ := h
  simp only [isOpenString, htext, List.head?_cons, Bool.and_eq_true, beq_iff_eq,
    Option.some.injEq] at hopen
  obtain ⟨hkind, rfl⟩ := hopen
  have hquoted : Lexer.quoted (cs ++ rest) = (.error, cs.length) := by
    rw [← hkind]
    exact hmunch
  simp only [Lexer.quoted] at hquoted
  split at hquoted
  · cases (Prod.mk.inj hquoted).1
  · next hquote =>
    have hbody := (Prod.mk.inj hquoted).2
    rw [hbody, List.drop_left' rfl] at hquote
    have hrest := Lexer.stringBody_rest cs hbody
    intro d hd
    obtain ⟨tail, rfl⟩ := List.head?_eq_some_iff.mp hd
    by_cases hslash : d = '\\'
    · exact .inr hslash
    · rw [Lexer.stringBody_cons hslash] at hrest
      split at hrest
      · next hstop =>
        refine .inl (hstop.resolve_left ?_)
        rintro rfl
        exact hquote rfl
      · omega

end Token

end Ili
