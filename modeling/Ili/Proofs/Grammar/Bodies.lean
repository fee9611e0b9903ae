import Ili.Proofs.Grammar.Laps

/-!
# Bodies of topics one behind the other

The members of a topic are read one by one, and each of them ends in a semicolon nobody looks past.
The one exception is a domain section: it takes up every definition that comes next, and a reserved
word in front of an equals sign counts as the name of one. Apart from that, two bodies one behind
the other are read as the members of the first and then those of the second.
-/

namespace Ili

namespace Grammar

open Rule

variable {member : Rule} {tokens rest other body : List Token} {row : List Tree} {t : Token}

/-! ### Members -/

/-- Where a member of this kind goes on: a section takes up every definition that comes next. -/
def goesOn : Kind → Guard
  | .domainSection => seesDefinitionName
  | .unitSection => .sees [.ident]
  | _ => .sees []

theorem looksNear_goesOn (kind : Kind) : (goesOn kind).looksNear = true := by
  cases kind <;> rfl

theorem meets_goesOn_of_ne {kind : Kind} (hdomain : kind ≠ .domainSection)
    (hunit : kind ≠ .unitSection) (tokens : List Token) :
    (goesOn kind).meets tokens = false := by
  have hnone : goesOn kind = .sees [] := by
    unfold goesOn
    split
    · exact absurd rfl hdomain
    · exact absurd rfl hunit
    · rfl
  rw [hnone]
  cases tokens <;> rfl

theorem goesOn_congr (kind : Kind) (front : List Token)
    (hrest : (Guard.sees [.eq]).meets rest = false)
    (hother : (Guard.sees [.eq]).meets other = false) :
    (goesOn kind).meets (t :: front ++ rest) = (goesOn kind).meets (t :: front ++ other) := by
  cases front with
  | cons next front => exact Guard.meets_congr (looksNear_goesOn kind) rfl
  | nil =>
    have hname : seesDefinitionName.meets (t :: rest) = seesDefinitionName.meets (t :: other) := by
      have hthen (behind : List Token) :
          (Guard.thenSees [.eq]).meets (t :: behind) = (Guard.sees [.eq]).meets behind := rfl
      change ((Guard.sees [.ident]).meets (t :: rest) || (Guard.seesKeyword.meets (t :: rest) &&
        (Guard.thenSees [.eq]).meets (t :: rest))) = _
      rw [hthen, hrest, ← hother, ← hthen other]
      rfl
    cases kind with
    | domainSection => exact hname
    | _ => rfl

/-- The rule builds a single node. The next token tells which one is due, and all but the sections
end in a semicolon. -/
structure IsMember (member : Rule) : Prop where
  buildsOne : member.buildsOne = true
  branches : ∀ kind, (member.branchOn kind).closes .semicolon = true ∨
    member.branchOn kind = domainSection ∨ member.branchOn kind = unitSection

theorem isLocal_enumType : enumType.isLocal .semicolon = true ∧ enumType.isLocal .eq = true := by
  decide +kernel

theorem isMember_of_all (hone : member.buildsOne = true)
    (h : ∀ kind ∈ Kind.all, (member.branchOn kind).closes .semicolon = true ∨
      member.branchOn kind = domainSection ∨ member.branchOn kind = unitSection) :
    IsMember member :=
  ⟨hone, fun kind => h kind (Kind.mem_all kind)⟩

theorem isMember_topicMember : IsMember topicMember :=
  isMember_of_all (by decide) (by decide +kernel)

theorem isMember_modelMember : IsMember modelMember :=
  isMember_of_all (by decide) (by decide +kernel)

/-- A section ends where it does not go on, whatever stands there. -/
theorem reads_section {kind word : Kind} {guard : Guard} {definition : Rule}
    (hguard : guard.isSettledBy .semicolon = true)
    (hdefinition : definition.closes .semicolon = true)
    (h : Reads enumType (.node kind (.seq (expect word) (.many guard definition))) tokens row
      rest) :
    (∃ children, row = [.node kind children]) ∧ guard.meets rest = false ∧
      ∃ first taken, tokens = first :: taken ++ rest ∧ ∀ other, guard.meets other = false →
        Reads enumType (.node kind (.seq (expect word) (.many guard definition)))
          (first :: taken ++ other) row other := by
  obtain ⟨children, hbody, rfl⟩ := reads_node.mp h
  obtain ⟨_, _, _, hword, hloop, rfl⟩ := reads_seq.mp hbody
  obtain ⟨first, hfirst, rfl, rfl⟩ := reads_expect.mp hword
  obtain ⟨hlaps, hstop⟩ := reads_many.mp hloop
  obtain ⟨taken, rfl, hothers⟩ := hlaps.withCloser hguard hdefinition isLocal_enumType.1
  refine ⟨⟨_, rfl⟩, hstop, first, taken, rfl, fun other hother => ?_⟩
  exact .node (.seq (reads_expect.mpr ⟨first, hfirst, rfl, rfl⟩)
    (reads_many.mpr ⟨hothers other, hother⟩))

theorem reads_member (hmember : IsMember member)
    (h : Reads enumType member (t :: tokens) row rest) :
    ∃ kind children taken, row = [.node kind children] ∧ tokens = taken ++ rest ∧
      ∀ other, ((goesOn kind).meets rest = false → (goesOn kind).meets other = false) →
        Reads enumType member (t :: taken ++ other) row other := by
  have hbranch := reads_branchOn.mpr h
  rcases hmember.branches t.kind with hcloses | hsection | hsection
  · obtain ⟨kind, children, rfl⟩ := h.exists_node hmember.buildsOne
    obtain ⟨front, s, -, heq, hreads⟩ := hbranch.withCloser hcloses isLocal_enumType.1
    cases front with
    | nil =>
      obtain ⟨rfl, rfl⟩ := List.cons.inj heq
      exact ⟨kind, children, [], rfl, rfl, fun other _ => reads_branchOn.mp (hreads other)⟩
    | cons first front =>
      obtain ⟨rfl, rfl⟩ := List.cons.inj heq
      refine ⟨kind, children, front ++ [s], rfl, by simp, fun other _ => ?_⟩
      rw [List.cons_append, List.append_assoc]
      exact reads_branchOn.mp (hreads other)
  all_goals
    rw [hsection] at hbranch
    obtain ⟨⟨children, rfl⟩, hstop, first, taken, heq, hreads⟩ :=
      reads_section (by decide) (by decide +kernel) hbranch
    obtain ⟨rfl, rfl⟩ := List.cons.inj heq
    refine ⟨_, children, taken, rfl, rfl, fun other hother => ?_⟩
    have hother := hreads other (hother hstop)
    exact reads_branchOn.mp (hsection ▸ hother)

/-! ### Laps over members -/

def seesMember : Guard :=
  .both .more (.negate (.sees [.endKw]))

theorem exists_cons_of_seesMember (h : seesMember.meets tokens = true) :
    ∃ t others, tokens = t :: others := by
  cases tokens with
  | nil => cases h
  | cons t others => exact ⟨t, others, rfl⟩

theorem seesMember_cons (others : List Token) :
    seesMember.meets (t :: others) = (t.kind != .endKw) := by
  apply Guard.meets_of_decidedBy
  by_cases hend : t.kind = .endKw <;> simp [seesMember, Guard.decidedBy, hend]

theorem sees_eq_of_reads (hreports : (member.branchOn .eq).alwaysReports = true)
    (h : Reads enumType member tokens row rest) (hmeets : seesMember.meets tokens = true) :
    (Guard.sees [.eq]).meets tokens = false := by
  obtain ⟨t, others, rfl⟩ := exists_cons_of_seesMember hmeets
  rw [← Bool.not_eq_true]
  intro heq
  have hkind : t.kind = .eq := List.mem_singleton.mp (List.contains_iff_mem.mp heq)
  have hbranch := (reads_branchOn.mpr h).alwaysReports_eq
  rw [hkind, hreports] at hbranch
  cases hbranch

theorem laps_before (hmember : IsMember member)
    (h : Laps enumType seesMember member tokens row rest)
    (hrest : (Guard.sees [.eq]).meets rest = false)
    (hother : (Guard.sees [.eq]).meets other = false)
    (hlast : ∀ tree ∈ row.getLast?, (goesOn tree.kind).meets rest = false →
      (goesOn tree.kind).meets other = false) :
    ∃ taken, tokens = taken ++ rest ∧ (taken = [] → row = []) ∧
      Laps enumType seesMember member (taken ++ other) row other := by
  induction h with
  | none => exact ⟨[], rfl, fun _ => rfl, .none⟩
  | @lap tokens middle rest row others hmeets hbody _ ih =>
    obtain ⟨behind, rfl, hnone, hlaps⟩ := ih hrest fun tree htree => hlast tree (by
      rw [List.getLast?_append, Option.mem_def.mp htree]
      rfl)
    obtain ⟨t, tokens, rfl⟩ := exists_cons_of_seesMember hmeets
    obtain ⟨kind, children, taken, rfl, rfl, hreads⟩ := reads_member hmember hbody
    have hstands := hreads (behind ++ other) fun hstop => by
      cases behind with
      | nil =>
        -- This is the last member.
        obtain rfl := hnone rfl
        exact hlast (.node kind children) rfl hstop
      | cons next behind => rwa [goesOn_congr kind behind hother hrest]
    refine ⟨t :: taken ++ behind, by simp, nofun, ?_⟩
    rw [List.append_assoc]
    refine .lap ?_ hstands hlaps
    exact (seesMember_cons _).trans ((seesMember_cons _).symm.trans hmeets)

/-! ### Topics -/

def topicEnd : Rule :=
  expectThen .endKw
    (.seq (.choose (.sees [.ident]) .bump (.report .missingEndName)) (expect .semicolon))

theorem reads_topicEnd :
    Reads enumType topicEnd tokens row rest ↔
      ∃ e n s : Token, e.kind = .endKw ∧ n.kind = .ident ∧ s.kind = .semicolon ∧
        tokens = e :: n :: s :: rest ∧ row = [.token e, .token n, .token s] := by
  constructor
  · intro h
    obtain ⟨e, _, _, he, rfl, hbehind, rfl⟩ := reads_expectThen.mp h
    obtain ⟨_, _, _, hname, hsemicolon, rfl⟩ := reads_seq.mp hbehind
    obtain ⟨n, hn, rfl, rfl⟩ := reads_due.mp hname
    obtain ⟨s, hs, rfl, rfl⟩ := reads_expect.mp hsemicolon
    exact ⟨e, n, s, he, hn, hs, rfl, rfl⟩
  · rintro ⟨e, n, s, he, hn, hs, rfl, rfl⟩
    have hname : Reads enumType (.choose (.sees [.ident]) .bump (.report .missingEndName))
        (n :: s :: rest) [.token n] (s :: rest) := reads_due.mpr ⟨n, hn, rfl, rfl⟩
    have hsemicolon : Reads enumType (expect .semicolon) (s :: rest) [.token s] rest :=
      reads_expect.mpr ⟨s, hs, rfl, rfl⟩
    exact reads_expectThen.mpr ⟨e, _, _, he, rfl, .seq hname hsemicolon, rfl⟩

theorem reads_topic {k n e : Token} (hk : k.kind = .topicKw) (hn : n.kind = .ident)
    (he : e.kind = .eq) :
    Reads enumType topic (k :: n :: e :: tokens) row rest ↔
      ∃ members ending middle, Laps enumType seesMember topicMember tokens members middle ∧
        seesMember.meets middle = false ∧ Reads enumType topicEnd middle ending rest ∧
        row = [.node .topic
          (.token k :: .node .name [.token n] :: .token e :: (members ++ ending))] := by
  have hproperties : (Guard.sees [.lParen]).meets (e :: tokens) = false :=
    Guard.meets_of_decidedBy (by rw [he]; rfl) _
  have hextends : (Guard.sees [.extendsKw]).meets (e :: tokens) = false :=
    Guard.meets_of_decidedBy (by rw [he]; rfl) _
  constructor
  · intro h
    obtain ⟨_, hbody, rfl⟩ := reads_node.mp h
    obtain ⟨_, _, _, hword, hbody, rfl⟩ := reads_seq.mp hbody
    obtain ⟨_, -, heq, rfl⟩ := reads_expect.mp hword
    obtain ⟨rfl, rfl⟩ := List.cons.inj heq
    obtain ⟨_, _, _, hname, hbody, rfl⟩ := reads_seq.mp hbody
    obtain ⟨rfl, rfl⟩ := (reads_name hn).mp hname
    obtain ⟨_, _, _, hlist, hbody, rfl⟩ := reads_seq.mp hbody
    obtain ⟨rfl, rfl⟩ := (reads_when_no hproperties).mp hlist
    obtain ⟨_, _, _, hbase, hbody, rfl⟩ := reads_seq.mp hbody
    obtain ⟨rfl, rfl⟩ := (reads_when_no hextends).mp hbase
    obtain ⟨_, _, _, hsign, hbody, rfl⟩ := reads_seq.mp hbody
    obtain ⟨_, -, heq, rfl⟩ := reads_expect.mp hsign
    obtain ⟨rfl, rfl⟩ := List.cons.inj heq
    obtain ⟨members, middle, ending, hmembers, hending, rfl⟩ := reads_seq.mp hbody
    obtain ⟨hlaps, hstop⟩ := reads_many.mp hmembers
    exact ⟨members, ending, middle, hlaps, hstop, hending, rfl⟩
  · rintro ⟨members, ending, middle, hlaps, hstop, hending, rfl⟩
    have hloop : Reads enumType (.many seesMember topicMember) tokens members middle :=
      reads_many.mpr ⟨hlaps, hstop⟩
    exact .node (.seq (reads_expect.mpr ⟨k, hk, rfl, rfl⟩) (.seq ((reads_name hn).mpr ⟨rfl, rfl⟩)
      (.seq ((reads_when_no hproperties).mpr ⟨rfl, rfl⟩)
        (.seq ((reads_when_no hextends).mpr ⟨rfl, rfl⟩)
          (.seq (reads_expect.mpr ⟨e, he, rfl, rfl⟩) (.seq hloop hending))))))

def closing (name : String) : List Token :=
  [⟨.endKw, "END"⟩, ⟨.ident, name⟩, ⟨.semicolon, ";"⟩]

def topicTokens (name : String) (body : List Token) : List Token :=
  ⟨.topicKw, "TOPIC"⟩ :: ⟨.ident, name⟩ :: ⟨.eq, "="⟩ :: (body ++ closing name)

def topicNode (name : String) (members : List Tree) : Tree :=
  .node .topic (.token ⟨.topicKw, "TOPIC"⟩ :: .node .name [.token ⟨.ident, name⟩] ::
    .token ⟨.eq, "="⟩ :: (members ++ (closing name).map .token))

theorem reads_topicNode {name : String} {members : List Tree} {after : List Token} :
    Reads enumType topic (topicTokens name body ++ after) [topicNode name members] rest ↔
      Laps enumType seesMember topicMember (body ++ (closing name ++ after)) members
        (closing name ++ rest) := by
  have htokens : topicTokens name body ++ after = ⟨.topicKw, "TOPIC"⟩ :: ⟨.ident, name⟩ ::
      ⟨.eq, "="⟩ :: (body ++ (closing name ++ after)) := by
    simp [topicTokens]
  rw [htokens, reads_topic rfl rfl rfl]
  constructor
  · rintro ⟨members', ending, middle, hlaps, -, hending, hrow⟩
    obtain ⟨e, n, s, -, -, -, rfl, rfl⟩ := reads_topicEnd.mp hending
    simp only [topicNode, List.cons.injEq, Tree.node.injEq, true_and, and_true] at hrow
    obtain ⟨rfl, hsame⟩ := List.append_inj' hrow rfl
    obtain ⟨rfl, rfl, rfl⟩ : ⟨.endKw, "END"⟩ = e ∧ ⟨.ident, name⟩ = n ∧ ⟨.semicolon, ";"⟩ = s := by
      simpa [closing] using hsame
    exact hlaps
  · intro hlaps
    exact ⟨members, _, _, hlaps, seesMember_cons _, reads_topicEnd.mpr
      ⟨_, _, _, rfl, rfl, rfl, rfl, rfl⟩, rfl⟩

/-- Two bodies that are read in front of the same `END` can be read one behind the other. -/
theorem laps_bodies {first second : List Token} {members others : List Tree}
    (hfirst : Laps enumType seesMember topicMember (first ++ rest) members rest)
    (hsecond : Laps enumType seesMember topicMember (second ++ rest) others rest)
    (hrest : (Guard.sees [.eq]).meets rest = false)
    (hsection : ∀ tree ∈ members.getLast?, tree.kind = .domainSection →
      seesDefinitionName.meets (second ++ rest) = false) :
    Laps enumType seesMember topicMember (first ++ (second ++ rest)) (members ++ others) rest := by
  have hother : (Guard.sees [.eq]).meets (second ++ rest) = false := by
    generalize second ++ rest = tokens at hsecond
    cases hsecond with
    | none => exact hrest
    | lap hmeets hbody _ => exact sees_eq_of_reads (by decide) hbody hmeets
  obtain ⟨taken, htaken, -, hlaps⟩ := laps_before isMember_topicMember hfirst hrest hother
    fun tree htree _ => by
      by_cases hkind : tree.kind = .domainSection
      · rw [hkind]
        exact hsection tree htree hkind
      · have havoids : topicMember.avoids .unitSection = true := by decide
        exact meets_goesOn_of_ne hkind (hfirst.kind_ne isMember_topicMember.buildsOne havoids tree
          (List.mem_of_getLast? htree)) _
  rw [List.append_cancel_right htaken]
  exact hlaps.append hsecond

/-! ### Topics in models -/

def modelFront : List Rule :=
  [eat .contractedKw, when (.sees [.typeKw, .refsystemKw, .symbologyKw]) .bump, expect .modelKw,
    .choose (.sees [.interlisKw]) keywordName name,
    eatThen .lParen (.seq (expect .ident) (expect .rParen)), eatThen .atKw (expect .string),
    eatThen .versionKw (expect .string), when (.sees [.translationKw]) translationOf, expect .eq]

def modelEnd : Rule :=
  expectThen .endKw
    (.seq (.choose (.sees [.interlisKw]) (.bumpAs .ident) (expect .ident)) (expect .dot))

theorem reads_model :
    Reads enumType model tokens row rest ↔
      ∃ front members ending middle behind,
        Reads enumType (Rule.row modelFront) tokens front middle ∧
        Laps enumType seesMember modelMember middle members behind ∧
        seesMember.meets behind = false ∧ Reads enumType modelEnd behind ending rest ∧
        row = [.node .model (front ++ (members ++ ending))] := by
  have hmodel : model = .node .model
      (Rule.row (modelFront ++ [.many seesMember modelMember, modelEnd])) := rfl
  have hfront : modelFront ≠ [] := List.cons_ne_nil _ _
  rw [hmodel, reads_node]
  simp only [reads_row_append hfront (List.cons_ne_nil _ _), reads_seq, Rule.row, reads_many]
  constructor
  · rintro ⟨_, ⟨front, middle, _, hfront, ⟨members, behind, ending, ⟨hlaps, hstop⟩, hending, rfl⟩,
      rfl⟩, rfl⟩
    exact ⟨front, members, ending, middle, behind, hfront, hlaps, hstop, hending, rfl⟩
  · rintro ⟨front, members, ending, middle, behind, hfront, hlaps, hstop, hending, rfl⟩
    exact ⟨_, ⟨front, middle, _, hfront, ⟨members, behind, ending, ⟨hlaps, hstop⟩, hending, rfl⟩,
      rfl⟩, rfl⟩

theorem take_append_congr {middle : List Token} (front : List Token)
    (h : other.take 2 = middle.take 2) : (front ++ other).take 2 = (front ++ middle).take 2 := by
  have hless (tokens : List Token) :
      tokens.take (2 - front.length) = (tokens.take 2).take (2 - front.length) := by
    rw [List.take_take, Nat.min_eq_left (Nat.sub_le _ _)]
  rw [List.take_append, List.take_append, hless other, hless middle, h]

theorem exists_of_append_eq {first middle last front back : List Tree} {tree : Tree}
    (h : first ++ (middle ++ last) = front ++ tree :: back) (hfirst : tree ∉ first)
    (hlast : tree ∉ last) :
    ∃ before after, front = first ++ before ∧ middle = before ++ tree :: after ∧
      back = after ++ last := by
  obtain ⟨before, rfl, hrest⟩ : ∃ before, front = first ++ before ∧
      middle ++ last = before ++ tree :: back := by
    rcases List.append_eq_append_iff.mp h with ⟨before, hfront, hrest⟩ | ⟨others, rfl, hrest⟩
    · exact ⟨before, hfront, hrest⟩
    · cases others with
      | nil => exact ⟨[], by simp, hrest.symm⟩
      | cons other others =>
        obtain ⟨rfl, -⟩ := List.cons.inj hrest
        exact absurd (List.mem_append_right _ List.mem_cons_self) hfirst
  rcases List.append_eq_append_iff.mp hrest with ⟨others, rfl, hback⟩ | ⟨others, rfl, hback⟩
  · exact absurd (hback ▸ List.mem_append_right _ List.mem_cons_self) hlast
  · cases others with
    | nil => exact absurd (List.nil_append last ▸ hback ▸ List.mem_cons_self) hlast
    | cons other after =>
      obtain ⟨rfl, rfl⟩ := List.cons.inj hback
      exact ⟨before, after, rfl, rfl, rfl⟩

theorem reads_model_replace {front back children : List Tree}
    (h : Reads enumType model tokens [.node .model (front ++ .node .topic children :: back)] rest) :
    ∃ taken middle behind, tokens = taken ++ middle ∧
      taken.length = (Tree.tokensOf front).length ∧
      Reads enumType modelMember middle [.node .topic children] behind ∧
      ∀ other others, other.take 2 = middle.take 2 →
        Reads enumType modelMember other [.node .topic others] behind →
        Reads enumType model (taken ++ other)
          [.node .model (front ++ .node .topic others :: back)] rest := by
  obtain ⟨opening, members, ending, start, stop, hopening, hmembers, hstop, hending, hrow⟩ :=
    reads_model.mp h
  have hrow := (Tree.node.inj (List.cons.inj hrow).1).2
  obtain ⟨before, after, rfl, rfl, rfl⟩ := exists_of_append_eq hrow.symm
    (hopening.not_mem (by decide) children) (hending.not_mem (by decide) children)
  obtain ⟨middle, hbefore, hbehind⟩ := hmembers.split isMember_modelMember.buildsOne
  obtain ⟨behind, hmeets, htopic, hafter⟩ := (laps_cons isMember_modelMember.buildsOne).mp hbehind
  obtain ⟨words, sign, -, rfl, hopenings⟩ := hopening.withCloser
    (show (Rule.row modelFront).closes .eq = true by decide +kernel) isLocal_enumType.2
  obtain ⟨taken, rfl, htaken⟩ := hbefore.exists_taken
  have hmiddle := sees_eq_of_reads (by decide) htopic hmeets
  refine ⟨words ++ sign :: taken, middle, behind, by simp, ?_, htopic, ?_⟩
  · obtain ⟨front, hfront, hlength⟩ := hopening.exists_taken
    have hsame := congrArg List.length hfront
    simp only [Tree.tokensOf_append, List.length_append, List.length_cons] at hsame ⊢
    omega
  · intro other others hsame hother
    have hnear {guard : Guard} (hguard : guard.looksNear = true) :
        guard.meets other = guard.meets middle := Guard.meets_congr hguard hsame
    obtain ⟨taken', htaken', -, hlaps⟩ := laps_before isMember_modelMember hbefore hmiddle
      ((hnear rfl).trans hmiddle) fun tree _ hstops => (hnear (looksNear_goesOn _)).trans hstops
    obtain rfl := List.append_cancel_right htaken'
    rw [List.append_assoc, List.cons_append]
    refine reads_model.mpr ⟨opening, before ++ .node .topic others :: after, ending, taken ++ other,
      stop, hopenings _, ?_, hstop, hending, by simp⟩
    exact hlaps.append ((laps_cons isMember_modelMember.buildsOne).mpr
      ⟨behind, (hnear rfl).trans hmeets, hother, hafter⟩)

theorem sees_interlisKw_of_reads (h : Reads enumType header tokens row rest) :
    (Guard.sees [.interlisKw]).meets tokens = true := by
  obtain ⟨_, hbody, -⟩ := reads_node.mp h
  obtain ⟨_, _, _, hword, -, -⟩ := reads_seq.mp hbody
  obtain ⟨t, ht, rfl, -⟩ := reads_expect.mp hword
  exact Guard.meets_of_decidedBy (by rw [ht]; rfl) _

theorem reads_file {start : Tree} :
    Reads enumType file tokens [start, .node .model row] [] ↔
      ∃ middle, Reads enumType header tokens [start] middle ∧
        (Guard.sees modelStarts).meets middle = true ∧
        Reads enumType model middle [.node .model row] [] := by
  have hone : fileItem.buildsOne = true := by decide
  constructor
  · intro h
    obtain ⟨_, middle, _, hheader, hothers, heq⟩ := reads_seq.mp h
    obtain ⟨_, last, _, hmodels, hflush, rfl⟩ := reads_seq.mp hothers
    cases hflush
    cases hheader with
    | no _ hno => cases hno
    | yes _ hheader =>
      obtain ⟨children, -, rfl⟩ := reads_node.mp hheader
      rw [List.append_nil, List.singleton_append] at heq
      obtain ⟨rfl, rfl⟩ := List.cons.inj heq
      have hlaps : Laps enumType .more fileItem middle _ [] := (reads_many.mp hmodels).1
      obtain ⟨last, -, hitem, hrest⟩ := (laps_cons hone).mp hlaps
      obtain rfl := (laps_nil hone).mp hrest
      cases hitem with
      | yes hstarts hmodel => exact ⟨middle, hheader, hstarts, hmodel⟩
      | no _ hno => cases hno.alwaysReports_eq
  · rintro ⟨middle, hheader, hstarts, hmodel⟩
    have hmore : Guard.more.meets middle = true := by
      cases middle with
      | nil => cases hstarts
      | cons => rfl
    have hmodels : Reads enumType (.many .more fileItem) middle [.node .model row] [] :=
      reads_many.mpr ⟨(laps_cons hone).mpr ⟨[], hmore, .yes hstarts hmodel, .none⟩, rfl⟩
    exact .seq (.yes (sees_interlisKw_of_reads hheader) hheader) (.seq hmodels .flush)

theorem reads_file_replace {start : Tree} {front back children : List Tree}
    (h : Reads enumType file tokens
      [start, .node .model (front ++ .node .topic children :: back)] []) :
    ∃ taken middle behind, tokens = taken ++ middle ∧
      taken.length = (Tree.tokensOf (start :: front)).length ∧
      Reads enumType modelMember middle [.node .topic children] behind ∧
      ∀ other others, other.take 2 = middle.take 2 →
        Reads enumType modelMember other [.node .topic others] behind →
        Reads enumType file (taken ++ other)
          [start, .node .model (front ++ .node .topic others :: back)] [] := by
  obtain ⟨behindHeader, hheader, hstarts, hmodel⟩ := reads_file.mp h
  obtain ⟨taken, middle, behind, rfl, hlength, htopic, hreplace⟩ := reads_model_replace hmodel
  obtain ⟨words, s, -, rfl, hheaders⟩ := hheader.withCloser
    (show header.closes .semicolon = true by decide +kernel) isLocal_enumType.1
  refine ⟨words ++ s :: taken, middle, behind, by simp, ?_, htopic, ?_⟩
  · obtain ⟨first, hfirst, hfirstLength⟩ := hheader.exists_taken
    have hsame := congrArg List.length hfirst
    have hparts := congrArg List.length (Tree.tokensOf_append [start] front)
    simp only [List.length_append, List.length_cons, List.singleton_append] at hsame hparts ⊢
    omega
  · intro other others hsame hother
    rw [List.append_assoc, List.cons_append]
    refine reads_file.mpr ⟨taken ++ other, hheaders _, ?_, hreplace other others hsame hother⟩
    rw [← hstarts]
    exact Guard.meets_congr rfl (take_append_congr taken hsame)

theorem reads_modelMember_topic (ht : t.kind = .topicKw) :
    Reads enumType modelMember (t :: tokens) row rest ↔
      Reads enumType topic (t :: tokens) row rest := by
  rw [← reads_branchOn, ht]
  rfl

end Grammar

/-- What stands in a file around the body of a topic: the tokens in front of the topic and behind
it, and, in the tree, the header and the parts of the one model. -/
structure TopicFrame where
  before : List Token
  after : List Token
  header : Tree
  front : List Tree
  back : List Tree
  name : String

namespace TopicFrame

def tokens (frame : TopicFrame) (body : List Token) : List Token :=
  frame.before ++ (Grammar.topicTokens frame.name body ++ frame.after)

def tree (frame : TopicFrame) (members : List Tree) : Tree :=
  .node .sourceFile
    [frame.header, .node .model (frame.front ++ Grammar.topicNode frame.name members :: frame.back)]

/-- The text consists of the frame and this body. It has no errors, and these members, which hold
the tokens of the body, are those of the topic. -/
structure Parses (frame : TopicFrame) (text : String) (body : List Token) (members : List Tree) :
    Prop where
  tokens : visible (tokenize text) = frame.tokens body
  ok : (parse text).errors = []
  tree : (parse text).tree.bare Kind.isNothing id = frame.tree members
  place : (Tree.tokensOf (frame.header :: frame.front)).map Token.text =
    frame.before.map Token.text
  members : (Tree.tokensOf members).map Token.text = body.map Token.text

variable {frame : TopicFrame} {text left right : String} {body first second : List Token}
  {members others : List Tree}

/-- The body is read as the members of the topic. Any other body that is read in front of the same
tokens can take its place. -/
theorem Parses.laps (h : frame.Parses text body members) :
    let rest := Grammar.closing frame.name ++ frame.after
    Rule.Laps Grammar.enumType Grammar.seesMember Grammar.topicMember (body ++ rest) members rest ∧
      ∀ other others, Rule.Laps Grammar.enumType Grammar.seesMember Grammar.topicMember
        (other ++ rest) others rest →
        Rule.Reads Grammar.enumType Grammar.file (frame.tokens other) [frame.header, .node .model
          (frame.front ++ Grammar.topicNode frame.name others :: frame.back)] [] := by
  intro rest
  have hreads := parse_eq_iff_reads.mp ⟨h.ok, h.tree⟩
  rw [h.tokens] at hreads
  obtain ⟨taken, middle, behind, htokens, htaken, htopic, hreplace⟩ :=
    Grammar.reads_file_replace hreads
  have hplace := congrArg List.length h.place
  rw [List.length_map, List.length_map] at hplace
  obtain ⟨rfl, rfl⟩ := List.append_inj htokens (hplace.symm.trans htaken.symm)
  have hlaps := Grammar.reads_topicNode.mp ((Grammar.reads_modelMember_topic rfl).mp htopic)
  -- The members hold as many tokens as the body, so the topic ends where the frame goes on.
  obtain ⟨words, hwords, hlength⟩ := hlaps.exists_taken
  have hmembers := congrArg List.length h.members
  rw [List.length_map, List.length_map] at hmembers
  obtain ⟨rfl, hbehind⟩ := List.append_inj hwords (hmembers.symm.trans hlength.symm)
  obtain rfl := List.append_cancel_left hbehind
  refine ⟨hlaps, fun other others hothers => hreplace _ _ rfl ?_⟩
  exact (Grammar.reads_modelMember_topic rfl).mpr (Grammar.reads_topicNode.mpr hothers)

/-- A topic with two bodies one behind the other has no errors if it has none with either, and its
members are those of the first body and then those of the second. It is left open what happens if
the first body ends in a domain section and the second one begins with what may be the name of a
definition. -/
theorem parses_append (hleft : frame.Parses left first members)
    (hright : frame.Parses right second others)
    (htokens : visible (tokenize text) = frame.tokens (first ++ second))
    (hsection : ∀ tree ∈ members.getLast?, tree.kind = .domainSection →
      Grammar.seesDefinitionName.meets second = false) :
    frame.Parses text (first ++ second) (members ++ others) := by
  obtain ⟨hfirst, hreplace⟩ := hleft.laps
  have hclosing : (Guard.sees [.eq]).meets (Grammar.closing frame.name ++ frame.after) = false :=
    rfl
  have hlaps := Grammar.laps_bodies hfirst hright.laps.1 hclosing fun tree htree hkind => by
    have hnot := hsection tree htree hkind
    cases second with
    | nil => rfl
    | cons t second =>
      have hnil : (Guard.sees [.eq]).meets [] = false := rfl
      have hnone := Grammar.goesOn_congr (t := t) .domainSection second hclosing hnil
      rw [List.append_nil] at hnone
      exact hnone.trans hnot
  rw [← List.append_assoc] at hlaps
  obtain ⟨hok, htree⟩ := parse_eq_iff_reads.mpr (htokens ▸ hreplace _ _ hlaps)
  refine ⟨htokens, hok, htree, hleft.place, ?_⟩
  rw [Tree.tokensOf_append, List.map_append, List.map_append, hleft.members, hright.members]

/-- A model `M` that holds nothing but the topic `T`. -/
def alone : TopicFrame where
  before := [⟨.interlisKw, "INTERLIS"⟩, ⟨.decimal, "2.4"⟩, ⟨.semicolon, ";"⟩, ⟨.modelKw, "MODEL"⟩,
    ⟨.ident, "M"⟩, ⟨.eq, "="⟩]
  after := [⟨.endKw, "END"⟩, ⟨.ident, "M"⟩, ⟨.dot, "."⟩]
  header := .node .header
    [.token ⟨.interlisKw, "INTERLIS"⟩, .token ⟨.decimal, "2.4"⟩, .token ⟨.semicolon, ";"⟩]
  front := [.token ⟨.modelKw, "MODEL"⟩, .node .name [.token ⟨.ident, "M"⟩], .token ⟨.eq, "="⟩]
  back := [.token ⟨.endKw, "END"⟩, .token ⟨.ident, "M"⟩, .token ⟨.dot, "."⟩]
  name := "T"

def textOf (body : String) : String :=
  "INTERLIS 2.4; MODEL M = TOPIC T = " ++ body ++ " END T; END M."

theorem parses_append_dependsOn :
    let domains : List Token := [⟨.domainKw, "DOMAIN"⟩, ⟨.ident, "A"⟩, ⟨.eq, "="⟩,
      ⟨.textKw, "TEXT"⟩, ⟨.semicolon, ";"⟩]
    let depends : List Token := [⟨.dependsKw, "DEPENDS"⟩, ⟨.onKw, "ON"⟩, ⟨.ident, "S"⟩,
      ⟨.semicolon, ";"⟩]
    let domainsNode : Tree := .node .domainSection [.token ⟨.domainKw, "DOMAIN"⟩,
      .node .domainDef [.node .name [.token ⟨.ident, "A"⟩], .token ⟨.eq, "="⟩,
        .node .textType [.token ⟨.textKw, "TEXT"⟩], .token ⟨.semicolon, ";"⟩]]
    let dependsNode : Tree := .node .dependsOn [.token ⟨.dependsKw, "DEPENDS"⟩,
      .token ⟨.onKw, "ON"⟩, .node .path [.token ⟨.ident, "S"⟩], .token ⟨.semicolon, ";"⟩]
    Grammar.seesDefinitionName.meets depends = false ∧
      alone.Parses (textOf "DOMAIN A = TEXT;") domains [domainsNode] ∧
      alone.Parses (textOf "DEPENDS ON S;") depends [dependsNode] ∧
      alone.Parses (textOf "DOMAIN A = TEXT; DEPENDS ON S;") (domains ++ depends)
        ([domainsNode] ++ [dependsNode]) := by
  intro domains depends domainsNode dependsNode
  have hleft : alone.Parses (textOf "DOMAIN A = TEXT;") domains [domainsNode] :=
    ⟨by decide +kernel, by decide +kernel, by decide +kernel, by decide +kernel, by decide +kernel⟩
  have hright : alone.Parses (textOf "DEPENDS ON S;") depends [dependsNode] :=
    ⟨by decide +kernel, by decide +kernel, by decide +kernel, by decide +kernel, by decide +kernel⟩
  have hname : Grammar.seesDefinitionName.meets depends = false := by decide
  exact ⟨hname, hleft, hright, parses_append hleft hright (by decide +kernel) fun _ _ _ => hname⟩

/-- A domain section takes up a block whose first word stands before an equals sign, so that its end
closes the topic. And a body may itself close the topic and open another one, which then holds what
comes behind. -/
theorem bodies_not_appended :
    ((parse (textOf "DOMAIN A = TEXT;")).errors = [] ∧
      (parse (textOf "VIEW = A; END V;")).errors = [] ∧
      (parse (textOf "DOMAIN A = TEXT; VIEW = A; END V;")).errors ≠ []) ∧
    (parse (textOf "END T; TOPIC U =")).errors = [] ∧
      (parse (textOf "NO OID;")).errors = [] ∧
      (parse (textOf "END T; TOPIC U = NO OID;")).errors = [] ∧
      ((parse (textOf "END T; TOPIC U = NO OID;")).tree.nodes.filter (·.kind == .topic)).map
          (fun node => node.visibleChildren.map Tree.kind) =
        [[.topicKw, .name, .eq, .endKw, .ident, .semicolon],
          [.topicKw, .name, .eq, .oidDecl, .endKw, .ident, .semicolon]] := by
  decide +kernel

end TopicFrame

end Ili
