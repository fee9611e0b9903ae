import Ili.Tree.Basic

/-!
# Rules

The grammar is data: a rule says what to take from the text, what to report when it is not there,
and which nodes to build. Running a rule never fails. It yields the trees built, the errors found on
the way, and what is left of the text.

Rules decide by looking at visible tokens only. Blanks and comments ride along: they are put into
the tree just before the visible token they stand in front of, or, when a node starts there, into
the node around it.
-/

namespace Ili

/-- A visible token with the blanks and comments in front of it and its byte offset. -/
structure Lexeme where
  trivia : List Token
  token : Token
  start : Nat
  deriving DecidableEq, Repr, Inhabited

namespace Lexeme

def kind (lexeme : Lexeme) : Kind :=
  lexeme.token.kind

def stop (lexeme : Lexeme) : Nat :=
  lexeme.start + lexeme.token.size

end Lexeme

/-- What is left of a text: the lexemes ahead, the blanks and comments behind the last one, and the
byte offset of the end. -/
structure Input where
  ahead : List Lexeme
  trailing : List Token
  stop : Nat
  deriving DecidableEq, Repr, Inhabited

namespace Input

/-- Groups tokens into lexemes. `pending` holds the blanks and comments met since the last visible
token, latest first, and `start` is the offset of the first token. -/
def ofTokens (start : Nat) (pending : List Token) : List Token → Input
  | [] => ⟨[], pending.reverse, start⟩
  | token :: rest =>
    if token.kind.isTrivia then ofTokens (start + token.size) (token :: pending) rest
    else
      let input := ofTokens (start + token.size) [] rest
      { input with ahead := ⟨pending.reverse, token, start⟩ :: input.ahead }

def ofText (text : String) : Input :=
  ofTokens 0 [] (tokenize text)

def pending (input : Input) : List Token :=
  match input.ahead with
  | [] => input.trailing
  | lexeme :: _ => lexeme.trivia

def flushed (input : Input) : Input :=
  match input.ahead with
  | [] => { input with trailing := [] }
  | lexeme :: rest => { input with ahead := { lexeme with trivia := [] } :: rest }

end Input

/-- A question about the visible tokens ahead. -/
inductive Guard where
  | more
  | sees (kinds : List Kind)
  | seesKeyword
  | seesWord (words : List String)
  | thenSees (kinds : List Kind)
  | thenSeesKeyword
  /-- The name ahead, with its property list if it has one, is followed by one of these kinds. -/
  | sentenceOf (operators : List Kind)
  | negate (guard : Guard)
  | both (left right : Guard)
  | either (left right : Guard)
  deriving Repr

namespace Guard

/-- The lexemes behind a name and its property list. The list ends at the first closing parenthesis
or erroneous token. -/
def behindName (ahead : List Lexeme) : List Lexeme :=
  match ahead.drop 1 with
  | [] => []
  | lexeme :: rest =>
    if lexeme.kind = .lParen then
      (rest.dropWhile fun l => l.kind != .rParen && l.kind != .error).drop 1
    else lexeme :: rest

def holds (ahead : List Lexeme) : Guard → Bool
  | more => !ahead.isEmpty
  | sees kinds => ahead.head?.any fun l => kinds.contains l.kind
  | seesKeyword => ahead.head?.any fun l => l.kind.isKeyword
  | seesWord words => ahead.head?.any fun l => words.contains l.token.text
  | thenSees kinds => (ahead.drop 1).head?.any fun l => kinds.contains l.kind
  | thenSeesKeyword => (ahead.drop 1).head?.any fun l => l.kind.isKeyword
  | sentenceOf operators => (behindName ahead).head?.any fun l => operators.contains l.kind
  | negate guard => !guard.holds ahead
  | both left right => left.holds ahead && right.holds ahead
  | either left right => left.holds ahead || right.holds ahead

end Guard

inductive Place where
  | model | topic | classBody
  deriving DecidableEq, Repr

inductive Problem where
  | missing (kind : Kind)
  | missingHeader
  | notAModel
  | unexpectedMember (place : Place)
  | missingName
  | missingPath
  | missingBound
  | missingNumber
  | missingBlackboxKind
  | missingElement
  | missingEnd
  | missingEndName
  deriving DecidableEq, Repr

/-- A problem with the token it was met at: its kind and bytes. At the end of the text there is no
token; the kind is then that of an erroneous one and the range is empty. -/
structure SyntaxError where
  problem : Problem
  found : Kind
  start : Nat
  stop : Nat
  deriving DecidableEq, Repr

def Input.locate (input : Input) (problem : Problem) : SyntaxError :=
  match input.ahead with
  | [] => ⟨problem, .error, input.stop, input.stop⟩
  | lexeme :: _ => ⟨problem, lexeme.kind, lexeme.start, lexeme.stop⟩

inductive Rule where
  | skip
  | bump
  | bumpAs (kind : Kind)
  | flush
  | report (problem : Problem)
  | seq (first second : Rule)
  | choose (guard : Guard) (yes no : Rule)
  | many (guard : Guard) (body : Rule)
  /-- Takes tokens up to one of these kinds that stands outside any brackets opened on the way. -/
  | balancedTo (stops : List Kind)
  | node (kind : Kind) (body : Rule)
  /-- Runs a rule; if the guard then holds, runs another one and wraps what both took. -/
  | extendAs (kind : Kind) (first : Rule) (guard : Guard) (second : Rule)
  /-- The one rule that contains itself: an enumeration inside an enumeration. -/
  | nested
  deriving Repr

structure Outcome where
  trees : List Tree
  errors : List SyntaxError
  rest : Input
  deriving Repr

namespace Outcome

def none (input : Input) : Outcome :=
  ⟨[], [], input⟩

def andThen (outcome : Outcome) (step : Input → Outcome) : Outcome :=
  let second := step outcome.rest
  ⟨outcome.trees ++ second.trees, outcome.errors ++ second.errors, second.rest⟩

end Outcome

namespace Rule

def runFlush (input : Input) : Outcome :=
  ⟨input.pending.map .token, [], input.flushed⟩

/-- Takes the next token, after what stands in front of it; `rename` may change its kind. -/
def runBump (rename : Token → Token) (input : Input) : Outcome :=
  match input.ahead with
  | [] => runFlush input
  | lexeme :: rest =>
    ⟨lexeme.trivia.map .token ++ [.token (rename lexeme.token)], [], { input with ahead := rest }⟩

/-- Repeats a step while the guard holds. The number of tokens ahead bounds the repetitions, since
each one takes at least one token. -/
def runMany (guard : Guard) (step : Input → Outcome) : Nat → Input → Outcome
  | 0, input => .none input
  | bound + 1, input =>
    if guard.holds input.ahead then (step input).andThen (runMany guard step bound)
    else .none input

def depthAfter (depth : Nat) : Kind → Nat
  | .lParen | .lBracket | .lBrace => depth + 1
  | .rParen | .rBracket | .rBrace => depth - 1
  | _ => depth

def splitBalanced (stops : List Kind) (depth : Nat) : List Lexeme → List Lexeme × List Lexeme
  | [] => ([], [])
  | lexeme :: rest =>
    if depth = 0 ∧ stops.contains lexeme.kind then ([], lexeme :: rest)
    else
      let (taken, left) := splitBalanced stops (depthAfter depth lexeme.kind) rest
      (lexeme :: taken, left)

def treesOf (taken : List Lexeme) : List Tree :=
  taken.flatMap fun lexeme => lexeme.trivia.map .token ++ [.token lexeme.token]

def runBalancedTo (stops : List Kind) (input : Input) : Outcome :=
  let (taken, left) := splitBalanced stops 0 input.ahead
  ⟨treesOf taken, [], { input with ahead := left }⟩

/-- Wraps the yield of a step into a node; what is pending stays in front of it. -/
def runNode (kind : Kind) (step : Input → Outcome) (input : Input) : Outcome :=
  (runFlush input).andThen fun input =>
    let inner := step input
    { inner with trees := [.node kind inner.trees] }

/-- Runs a step, and wraps its yield together with that of a second one if the guard then holds. -/
def runExtendAs (kind : Kind) (first : Input → Outcome) (guard : Guard) (second : Input → Outcome)
    (input : Input) : Outcome :=
  (runFlush input).andThen fun input =>
    let head := first input
    if guard.holds head.rest.ahead then
      let whole := head.andThen second
      { whole with trees := [.node kind whole.trees] }
    else head

/-- Runs a rule, with `nested` for the rule that contains itself. -/
def runWith (nested : Input → Outcome) : Rule → Input → Outcome
  | .skip => .none
  | .bump => runBump id
  | .bumpAs kind => runBump fun token => { token with kind }
  | .flush => runFlush
  | .report problem => fun input => ⟨[], [input.locate problem], input⟩
  | .seq first second => fun input => (first.runWith nested input).andThen (second.runWith nested)
  | .choose guard yes no => fun input =>
    if guard.holds input.ahead then yes.runWith nested input else no.runWith nested input
  | .many guard body => fun input =>
    runMany guard (body.runWith nested) input.ahead.length input
  | .balancedTo stops => runBalancedTo stops
  | .node kind body => runNode kind (body.runWith nested)
  | .extendAs kind first guard second =>
    runExtendAs kind (first.runWith nested) guard (second.runWith nested)
  | .nested => nested

/-- Runs the self-containing rule `inner` down to `depth` levels. -/
def runNested (inner : Rule) : Nat → Input → Outcome
  | 0 => .none
  | depth + 1 => inner.runWith (runNested inner depth)

/-- Runs a rule in which `nested` stands for `inner`. Every level of nesting takes a token, so the
number of tokens ahead is depth enough. -/
def run (inner rule : Rule) (input : Input) : Outcome :=
  rule.runWith (runNested inner input.ahead.length) input

def row : List Rule → Rule
  | [] => .skip
  | [rule] => rule
  | rule :: rest => .seq rule (row rest)

def when (guard : Guard) (rule : Rule) : Rule :=
  .choose guard rule .skip

def cases : List (Guard × Rule) → Rule → Rule
  | [], other => other
  | (guard, rule) :: rest, other => .choose guard rule (cases rest other)

def eat (kind : Kind) : Rule :=
  when (.sees [kind]) .bump

def eatThen (kind : Kind) (rule : Rule) : Rule :=
  when (.sees [kind]) (.seq .bump rule)

def expect (kind : Kind) : Rule :=
  .choose (.sees [kind]) .bump (.report (.missing kind))

def expectThen (kind : Kind) (rule : Rule) : Rule :=
  .choose (.sees [kind]) (.seq .bump rule) (.report (.missing kind))

def separatedBy (separator : Kind) (rule : Rule) : Rule :=
  .seq rule (.many (.sees [separator]) (.seq .bump rule))

/-- Reports a problem and sets the tokens up to one of these kinds aside; at least one token goes,
unless none is left. -/
def recover (problem : Problem) (stops : List Kind) : Rule :=
  .seq (.report problem) <| .node .error <|
    .choose (.sees stops) .bump (.many (.both .more (.negate (.sees stops))) .bump)

end Rule

end Ili
